import Ostep.UserSpaces

/-!
# deallocuvm page by page

Where a page table is missing, the loop of `deallocuvm` jumps to the next page directory entry.
Here it is compared with the loop that looks at every page from `PGROUNDUP(newsz)` up to `oldsz`,
over any memory: the directory need not be one that the kernel has built.
-/

namespace Ostep.PageTables
open Hoare

variable (L : Symbols)

/-- A present entry is cleared and its frame freed. -/
def dropEntry (pte : Ptr) : Kernel Unit := do
  let e ← load pte
  if e &&& PTE_P ≠ 0 then
    if pageOf e = 0 then throw .kfree
    else do
      kfree L (pageOf e)
      store pte 0
  else return

/-- One page of the plain loop. -/
def dropPage (pgdir vp : ℕ) : Kernel Unit := do
  match ← walkpgdir pgdir (vp * PGSIZE) false with
  | none => return
  | some pte => dropEntry L pte

def userRange (oldsz newsz : ℕ) : List ℕ := List.range' (pages newsz) (pages oldsz - pages newsz)

/-- `deallocuvm` without the jump. -/
def deallocEach (pgdir oldsz newsz : ℕ) : Kernel ℕ :=
  if oldsz ≤ newsz then return oldsz
  else do
    (userRange oldsz newsz).forM (dropPage L pgdir)
    return newsz

variable {L} {s t : Mem} {r vp va e oldsz newsz : ℕ}

/-! ## Walking without allocating -/

theorem walk_lookup_none (h : s.lookup r va = none) : walkpgdir r va false s = .ok (none, s) := by
  have hload : load (r, PDX va) s = .ok (s.read (r, PDX va), s) := rfl
  have hp : ¬ Present (s.read (r, PDX va)) := by
    intro hp
    rw [Mem.lookup, if_pos hp] at h
    cases h
  rw [walkpgdir, run_bind_ok hload, if_neg hp]
  rfl

theorem walk_lookup_some (h : s.lookup r va = some e) :
    ∃ p, p = (pageOf (s.read (r, PDX va)), PTX va) ∧ Present (s.read (r, PDX va)) ∧
      s.read p = e ∧ walkpgdir r va false s = .ok (some p, s) := by
  have hload : load (r, PDX va) s = .ok (s.read (r, PDX va), s) := rfl
  by_cases hp : Present (s.read (r, PDX va))
  · rw [Mem.lookup, if_pos hp] at h
    refine ⟨_, rfl, hp, Option.some.inj h, ?_⟩
    rw [walkpgdir, run_bind_ok hload, if_pos hp]
    rfl
  · rw [Mem.lookup, if_neg hp] at h
    cases h

theorem PDX_page (hvp : vp < 2 ^ 20) : PDX (vp * PGSIZE) = vp / 1024 := by
  rw [PDX_eq, page_div]
  change vp * 4096 < 4294967296
  omega

theorem PTX_page (vp : ℕ) : PTX (vp * PGSIZE) = vp % 1024 := by
  rw [PTX_eq, page_div]

theorem lookup_none_congr {vq : ℕ} (hvp : vp < 2 ^ 20) (hvq : vq < 2 ^ 20)
    (hd : vq / 1024 = vp / 1024) (h : s.lookup r (vp * PGSIZE) = none) :
    s.lookup r (vq * PGSIZE) = none := by
  rw [Mem.lookup, PDX_page hvp] at h
  rw [Mem.lookup, PDX_page hvq, hd]
  split_ifs at h with hp
  exact if_neg hp

/-! ## The jump -/

theorem dropPage_none (h : s.lookup r (vp * PGSIZE) = none) :
    dropPage L r vp s = .ok ((), s) := by
  rw [dropPage, run_bind_ok (walk_lookup_none h)]
  rfl

theorem range'_split {lo mid hi : ℕ} (hlo : lo ≤ mid) (hhi : mid ≤ hi) :
    List.range' lo (hi - lo) = List.range' lo (mid - lo) ++ List.range' mid (hi - mid) := by
  obtain ⟨m, rfl⟩ := Nat.exists_eq_add_of_le hlo
  obtain ⟨n, rfl⟩ := Nat.exists_eq_add_of_le hhi
  rw [Nat.add_sub_cancel_left, Nat.add_sub_cancel_left, Nat.add_assoc, Nat.add_sub_cancel_left,
    ← List.range'_append_1]

/-- The pages without a page table do nothing, up to the next directory entry. -/
theorem forM_jump {n : ℕ} (hvp : vp < USERPAGES)
    (h : s.lookup r (vp * PGSIZE) = none) :
    (List.range' vp (n - vp)).forM (dropPage L r) s =
      (List.range' ((vp / 1024 + 1) * 1024) (n - (vp / 1024 + 1) * 1024)).forM
        (dropPage L r) s := by
  have hpages : USERPAGES = 524288 := rfl
  have hskip : ∀ m, m ≤ (vp / 1024 + 1) * 1024 → m ≤ n →
      ∀ v ∈ List.range' vp (m - vp), dropPage L r v s = .ok ((), s) := by
    intro m hm hmn v hv
    rw [List.mem_range'_1] at hv
    exact dropPage_none (lookup_none_congr (by omega) (by omega) (by omega) h)
  rcases Nat.le_total ((vp / 1024 + 1) * 1024) n with hle | hle
  · rw [range'_split (by omega) hle, forM_skip (hskip _ le_rfl hle)]
  · rw [Nat.sub_eq_zero_of_le hle]
    have hrun : (List.range' vp (n - vp) ++ []).forM (dropPage L r) s = .ok ((), s) :=
      forM_skip (hskip n hle le_rfl)
    rwa [List.append_nil] at hrun

theorem deallocLoop_found {fuel a : ℕ} {p : Ptr} (ha : a < oldsz)
    (hw : walkpgdir r a false s = .ok (some p, s)) :
    deallocLoop L r oldsz (fuel + 1) a s =
      (dropEntry L p >>= fun _ => deallocLoop L r oldsz fuel ((a + PGSIZE) % 2 ^ 32)) s := by
  rw [deallocLoop, if_pos ha, run_bind_ok hw]
  refine congrFun (?_ : _ = _) s
  simp only [dropEntry, bind_assoc]
  refine bind_congr fun e => ?_
  split_ifs
  · rfl
  · simp only [bind_assoc]
  · simp only [pure_bind]

theorem deallocLoop_eq_forM {fuel : ℕ} (hold : oldsz ≤ KERNBASE) (hvp : vp ≤ USERPAGES)
    (hfuel : USERPAGES < vp + fuel) :
    deallocLoop L r oldsz fuel (vp * PGSIZE) s =
      (List.range' vp (pages oldsz - vp)).forM (dropPage L r) s := by
  have hpages : USERPAGES = 524288 := rfl
  have hold' := pages_le hold
  induction fuel generalizing vp s with
  | zero => omega
  | succ fuel ih =>
    by_cases hlt : vp < pages oldsz
    · have hlt' := lt_pages.mp hlt
      cases hlook : s.lookup r (vp * PGSIZE) with
      | none =>
        rw [deallocLoop_missing hlt' (walk_lookup_none hlook), next_region (by omega),
          ih (by omega) (by omega), forM_jump (by omega) hlook]
      | some e =>
        obtain ⟨p, -, -, -, hwalk⟩ := walk_lookup_some hlook
        have hnext : (vp * PGSIZE + PGSIZE) % 2 ^ 32 = (vp + 1) * PGSIZE := by
          rw [next_page, Nat.mod_eq_of_lt (by omega : vp + 1 < 2 ^ 20)]
        obtain ⟨m, hm⟩ := Nat.exists_eq_add_of_lt hlt
        rw [deallocLoop_found hlt' hwalk, hnext, show pages oldsz - vp = m + 1 by omega,
          List.range'_succ]
        change _ = (dropPage L r vp >>= fun _ => (List.range' (vp + 1) m).forM (dropPage L r)) s
        rw [dropPage, bind_assoc, run_bind_ok hwalk]
        refine congrFun (bind_congr fun _ => funext fun t => ?_) s
        rw [ih (by omega) (by omega), show pages oldsz - (vp + 1) = m by omega]
    · rw [deallocLoop, if_neg (fun h => hlt (lt_pages.mpr h)),
        Nat.sub_eq_zero_of_le (Nat.not_lt.mp hlt)]
      rfl

theorem deallocuvm_eq_each (hold : oldsz ≤ KERNBASE) :
    deallocuvm L r oldsz newsz s = deallocEach L r oldsz newsz s := by
  unfold deallocuvm deallocEach
  split_ifs with h
  · rfl
  · have hnew : newsz ≤ KERNBASE := by omega
    have hfuel : USERPAGES < pages newsz + NPDENTRIES * NPTENTRIES :=
      Nat.lt_add_left _ (by decide)
    have hloop : deallocLoop L r oldsz (NPDENTRIES * NPTENTRIES) (pages newsz * PGSIZE) =
        (userRange oldsz newsz).forM (dropPage L r) :=
      funext fun s => deallocLoop_eq_forM hold (pages_le hnew) hfuel
    rw [PGROUNDUP_eq hnew, hloop]

/-- The only failure is the panic of `kfree`. -/
theorem dropPage_fails : Triple (· = Fault.kfree) (fun _ => True) (dropPage L r vp)
    (fun _ _ => True) := by
  have hfree (f : ℕ) : Triple (· = Fault.kfree) (fun _ => True) (kfree L f) (fun _ _ => True) :=
    .ite (fun _ => .throw rfl) fun _ => .update fun _ _ => trivial
  have hentry (p : Ptr) :
      Triple (· = Fault.kfree) (fun _ => True) (dropEntry L p) (fun _ _ => True) := by
    refine .bind (Q := fun _ _ => True) (.get_bind fun _ _ => .pure fun _ _ => trivial) fun e => ?_
    refine .ite (fun _ => .ite (fun _ => .throw rfl) fun _ => ?_) fun _ => .pure fun _ _ => trivial
    exact .bind (hfree _) fun _ => .update fun _ _ => trivial
  intro s _
  cases hlook : s.lookup r (vp * PGSIZE) with
  | none =>
    rw [dropPage_none hlook]
    trivial
  | some e =>
    obtain ⟨p, -, -, -, hwalk⟩ := walk_lookup_some hlook
    rw [dropPage, run_bind_ok hwalk]
    exact hentry p s trivial

theorem deallocuvm_ends (hold : oldsz ≤ KERNBASE) :
    deallocuvm L r oldsz newsz s ≠ .error .spin := by
  rw [deallocuvm_eq_each hold]
  intro hspin
  have hall : Triple (· = Fault.kfree) (fun _ => True) (deallocEach L r oldsz newsz)
      (fun _ _ => True) := by
    refine .ite (fun _ => .pure fun _ _ => trivial) fun _ => .bind (Q := fun _ _ => True) ?_
      fun _ => .pure fun _ _ => trivial
    exact .forM (I := fun _ _ => True) fun _ _ _ => dropPage_fails
  cases hall.error trivial hspin

/-! ## What is freed -/

/-- The user pages of `r` are mapped to frames that `kfree` takes, none of them a page of `r`
itself, and `r` has each of its page tables once. -/
structure UserPages (L : Symbols) (r : ℕ) (s : Mem) : Prop where
  frame : ∀ vp < USERPAGES, ∀ e, s.lookup r (vp * PGSIZE) = some e → Present e → pageOf e ≠ 0
  legal : ∀ vp < USERPAGES, ∀ e, s.lookup r (vp * PGSIZE) = some e → Present e →
    ¬ (KERNBASE + pageOf e * PGSIZE < L.endAddr ∨ PHYSTOP ≤ pageOf e * PGSIZE)
  plain : ∀ vp < USERPAGES, ∀ e, s.lookup r (vp * PGSIZE) = some e → Present e → pageOf e ≠ r ∧
    ∀ d < NPDENTRIES, Present (s.read (r, d)) → pageOf e ≠ pageOf (s.read (r, d))
  table_ne : ∀ d < NPDENTRIES, Present (s.read (r, d)) → pageOf (s.read (r, d)) ≠ r
  table_inj : ∀ d d', d < NPDENTRIES → d' < NPDENTRIES → Present (s.read (r, d)) →
    Present (s.read (r, d')) → pageOf (s.read (r, d)) = pageOf (s.read (r, d')) → d = d'

/-- The frame that a present entry for the page `vp` names. -/
def Mem.mapped (s : Mem) (r vp : ℕ) : Option ℕ :=
  match s.lookup r (vp * PGSIZE) with
  | none => none
  | some e => if Present e then some (pageOf e) else none

theorem mapped_some {f : ℕ} : s.mapped r vp = some f ↔
    ∃ e, s.lookup r (vp * PGSIZE) = some e ∧ Present e ∧ pageOf e = f := by
  unfold Mem.mapped
  cases s.lookup r (vp * PGSIZE) with
  | none => simp
  | some e =>
    by_cases hp : Present e
    · simp only [if_pos hp, Option.some.injEq]
      exact ⟨fun h => ⟨e, rfl, hp, h⟩, fun ⟨_, he, _, h⟩ => he ▸ h⟩
    · simp only [if_neg hp, reduceCtorEq, Option.some.injEq, false_iff]
      rintro ⟨_, rfl, hp', -⟩
      exact hp hp'

theorem dropPage_unmapped (h : s.mapped r vp = none) : dropPage L r vp s = .ok ((), s) := by
  cases hlook : s.lookup r (vp * PGSIZE) with
  | none => exact dropPage_none hlook
  | some e =>
    have hp : ¬ Present e := by
      intro hp
      rw [mapped_some.mpr ⟨e, hlook, hp, rfl⟩] at h
      cases h
    obtain ⟨p, -, -, hread, hwalk⟩ := walk_lookup_some hlook
    have hload : load p s = .ok (s.read p, s) := rfl
    rw [dropPage, run_bind_ok hwalk]
    change (load p >>= _) s = _
    rw [run_bind_ok hload, if_neg (hread ▸ hp)]
    rfl

/-- Every address space in use is such a one. -/
theorem Inv.userPages {ι κ : Type*} {root : ι → ℕ} {held : κ → ℕ} {mem : ℕ} {i : ι}
    (h : Inv L root held mem s) (hi : root i ≠ 0) : UserPages L (root i) s := by
  have hpages : USERPAGES = 524288 := rfl
  have hpte : ∀ vp < USERPAGES, ∀ e, s.lookup (root i) (vp * PGSIZE) = some e →
      s.pte (root i) vp = e := by
    intro vp hvp e hlook
    rw [h.lookup hi (by change vp * 4096 < 4294967296; omega), page_div] at hlook
    split_ifs at hlook with ht
    exact Option.some.inj hlook
  have htab : ∀ d < NPDENTRIES, Present (s.read (root i, d)) →
      s.table (root i) d = pageOf (s.read (root i, d)) ∧ s.table (root i) d ≠ 0 := by
    intro d hd hp
    have heq : s.table (root i) d = pageOf (s.read (root i, d)) := if_pos ⟨hd, hp⟩
    exact ⟨heq, heq ▸ h.table_ne i d hi hd hp⟩
  refine ⟨fun vp hvp e hlook hp => ?_, fun vp hvp e hlook hp => ?_, fun vp hvp e hlook hp => ?_,
    fun d hd hp => ?_, fun d d' hd hd' hp hp' he => ?_⟩
  · obtain rfl := hpte vp hvp e hlook
    exact h.frame_ne i vp hi hvp hp
  · obtain rfl := hpte vp hvp e hlook
    have hown : own root held mem s (.user i vp : Place ι κ) = pageOf (s.pte (root i) vp) :=
      own_present hi hvp hp
    have hrange := h.owns.range (.user i vp) (hown ▸ h.frame_ne i vp hi hvp hp)
    rw [hown] at hrange
    have hend := L.first_ge hrange.1
    have hstop : pageOf (s.pte (root i) vp) < 57344 := hrange.2
    refine not_or.mpr ⟨Nat.not_lt.mpr hend, ?_⟩
    change ¬ 234881024 ≤ pageOf (s.pte (root i) vp) * 4096
    omega
  · obtain rfl := hpte vp hvp e hlook
    obtain ⟨hr, ht⟩ := (h.user_frame hi hvp hp).2 i hi
    refine ⟨hr, fun d hd hpd => ?_⟩
    obtain ⟨heq, hne⟩ := htab d hd hpd
    exact heq ▸ ht d hne
  · obtain ⟨heq, -⟩ := htab d hd hp
    exact heq ▸ (h.table_ne_root hi hi).symm
  · obtain ⟨heq, hne⟩ := htab d hd hp
    obtain ⟨heq', -⟩ := htab d' hd' hp'
    exact (h.table_inj hi hi hne (heq.trans (he.trans heq'.symm))).2

/-- The entry for `vp` is cleared and its frame `f` freed; every other entry stays. -/
structure Dropped (r vp f : ℕ) (s t : Mem) : Prop where
  freelist : t.freelist = f :: s.freelist
  pde : ∀ d, t.read (r, d) = s.read (r, d)
  entry : t.lookup r (vp * PGSIZE) = some 0
  other : ∀ vq < 2 ^ 20, vq ≠ vp → t.lookup r (vq * PGSIZE) = s.lookup r (vq * PGSIZE)

theorem UserPages.dropPage {f : ℕ} (h : UserPages L r s) (hvp : vp < USERPAGES)
    (hf : s.mapped r vp = some f) : ∃ t, dropPage L r vp s = .ok ((), t) ∧ Dropped r vp f s t := by
  obtain ⟨e, hlook, hpres, rfl⟩ := mapped_some.mp hf
  obtain ⟨p, rfl, hpde, hread, hwalk⟩ := walk_lookup_some hlook
  have hvp' : vp < 2 ^ 20 := by
    have hpages : USERPAGES = 524288 := rfl
    omega
  set p : Ptr := (pageOf (s.read (r, PDX (vp * PGSIZE))), PTX (vp * PGSIZE)) with hp
  obtain ⟨hr, htab⟩ := h.plain vp hvp e hlook hpres
  set t := (s.free (pageOf e)).write p 0 with ht
  have hkeep : ∀ q : Ptr, q.1 ≠ pageOf e → q ≠ p → t.read q = s.read q := by
    intro q hq hne
    rw [ht, read_write_of_ne hne]
    exact read_congr (Function.update_of_ne hq ..)
  have hlt : ∀ va, PDX va < NPDENTRIES := fun _ => Nat.mod_lt _ (by decide)
  have hkeepde : ∀ d, t.read (r, d) = s.read (r, d) := fun d =>
    hkeep (r, d) hr.symm fun he => h.table_ne _ (hlt _) hpde (congrArg Prod.fst he).symm
  refine ⟨t, ?_, rfl, hkeepde, ?_, fun vq hvq hne => ?_⟩
  · have hload : load p s = .ok (s.read p, s) := rfl
    have hfree : kfree L (pageOf e) s = .ok ((), s.free (pageOf e)) := by
      rw [kfree, if_neg (h.legal vp hvp e hlook hpres)]
      rfl
    rw [PageTables.dropPage, run_bind_ok hwalk]
    change (load p >>= _) s = _
    rw [run_bind_ok hload, hread, if_pos hpres, if_neg (h.frame vp hvp e hlook hpres),
      run_bind_ok hfree]
    rfl
  · rw [Mem.lookup, hkeepde, if_pos hpde]
    exact congrArg some (read_write (by decide))
  · rw [Mem.lookup, Mem.lookup, hkeepde]
    split_ifs with hq
    · refine congrArg some (hkeep _ (fun he => htab _ (hlt _) hq he.symm) fun he => ?_)
      have hdir := h.table_inj _ _ (hlt _) (hlt _) hq hpde (congrArg Prod.fst he)
      have hidx : PTX (vq * PGSIZE) = PTX (vp * PGSIZE) := congrArg Prod.snd he
      rw [PDX_page hvq, PDX_page hvp'] at hdir
      rw [PTX_page, PTX_page] at hidx
      omega
    · rfl

theorem Dropped.userPages {f : ℕ} (hd : Dropped r vp f s t) (h : UserPages L r s) :
    UserPages L r t := by
  have hold : ∀ vq < USERPAGES, ∀ e, t.lookup r (vq * PGSIZE) = some e → Present e →
      s.lookup r (vq * PGSIZE) = some e := by
    intro vq hvq e hlook hpres
    have hpages : USERPAGES = 524288 := rfl
    by_cases hne : vq = vp
    · subst hne
      rw [hd.entry] at hlook
      obtain rfl := Option.some.inj hlook
      exact absurd hpres not_present_zero
    · rwa [← hd.other vq (by omega) hne]
  refine ⟨fun vq hvq e hlook hpres => h.frame vq hvq e (hold vq hvq e hlook hpres) hpres,
    fun vq hvq e hlook hpres => h.legal vq hvq e (hold vq hvq e hlook hpres) hpres,
    fun vq hvq e hlook hpres => ?_, fun d => ?_, fun d d' => ?_⟩
  · simpa only [hd.pde] using h.plain vq hvq e (hold vq hvq e hlook hpres) hpres
  · simpa only [hd.pde] using h.table_ne d
  · simpa only [hd.pde] using h.table_inj d d'

/-- The frames of the pages `vs` are freed, first to last, and their entries cleared. -/
structure DroppedAll (r : ℕ) (vs : List ℕ) (s t : Mem) : Prop where
  freelist : t.freelist = (vs.filterMap (s.mapped r)).reverse ++ s.freelist
  entry : ∀ vp < 2 ^ 20, t.lookup r (vp * PGSIZE) =
    if vp ∈ vs ∧ s.mapped r vp ≠ none then some 0 else s.lookup r (vp * PGSIZE)

theorem mapped_congr (h : t.lookup r (vp * PGSIZE) = s.lookup r (vp * PGSIZE)) :
    t.mapped r vp = s.mapped r vp := by
  rw [Mem.mapped, Mem.mapped, h]

theorem UserPages.dropAll {vs : List ℕ} (h : UserPages L r s) (hvs : ∀ v ∈ vs, v < USERPAGES)
    (hnodup : vs.Nodup) :
    ∃ t, vs.forM (PageTables.dropPage L r) s = .ok (⟨⟩, t) ∧ DroppedAll r vs s t := by
  have hpages : USERPAGES = 524288 := rfl
  induction vs generalizing s with
  | nil => exact ⟨s, rfl, rfl, fun vp _ => by simp⟩
  | cons v vs ih =>
    obtain ⟨hnot, hnodup⟩ := List.nodup_cons.mp hnodup
    have hv := hvs v List.mem_cons_self
    have hvs' : ∀ w ∈ vs, w < USERPAGES := fun w hw => hvs w (List.mem_cons_of_mem v hw)
    cases hmap : s.mapped r v with
    | none =>
      obtain ⟨t, hrun, hall⟩ := ih h hvs' hnodup
      refine ⟨t, ?_, ?_, fun vp hvp => ?_⟩
      · change (PageTables.dropPage L r v >>= fun _ => vs.forM (PageTables.dropPage L r)) s = _
        rw [run_bind_ok (dropPage_unmapped hmap), hrun]
      · rw [hall.freelist, List.filterMap_cons_none hmap]
      · rw [hall.entry vp hvp]
        by_cases hvv : vp = v
        · subst hvv
          simp [hmap]
        · simp [hvv]
    | some f =>
      obtain ⟨u, hdrop, hd⟩ := h.dropPage hv hmap
      obtain ⟨t, hrun, hall⟩ := ih (hd.userPages h) hvs' hnodup
      have hsame : ∀ w < 2 ^ 20, w ≠ v → u.mapped r w = s.mapped r w := fun w hw hne =>
        mapped_congr (hd.other w hw hne)
      refine ⟨t, ?_, ?_, fun vp hvp => ?_⟩
      · change (PageTables.dropPage L r v >>= fun _ => vs.forM (PageTables.dropPage L r)) s = _
        rw [run_bind_ok hdrop, hrun]
      · have hmaps : vs.filterMap (u.mapped r) = vs.filterMap (s.mapped r) := by
          refine List.filterMap_congr fun w hw => hsame w ?_ fun e => hnot (e ▸ hw)
          have := hvs' w hw
          omega
        rw [hall.freelist, hd.freelist, hmaps, List.filterMap_cons_some hmap]
        simp
      · rw [hall.entry vp hvp]
        by_cases hvv : vp = v
        · subst hvv
          simp [hnot, hmap, hd.entry]
        · rw [hsame vp hvp hvv, hd.other vp hvp hvv]
          simp [hvv]

theorem userRange_lt (hold : oldsz ≤ KERNBASE) : ∀ v ∈ userRange oldsz newsz, v < USERPAGES := by
  intro v hv
  rw [userRange, List.mem_range'_1] at hv
  have := pages_le hold
  omega

/-- `deallocuvm` does what the loop over every page does, from any memory; that loop ends, and
where the user part of the directory is a plain one it clears the present entries of the range
and frees the frame of each. -/
theorem deallocuvm_skip_exact (L : Symbols) (r newsz : ℕ) (s : Mem) (hold : oldsz ≤ KERNBASE) :
    deallocuvm L r oldsz newsz s = deallocEach L r oldsz newsz s ∧
      deallocuvm L r oldsz newsz s ≠ .error .spin ∧
      (UserPages L r s → ∃ t, deallocuvm L r oldsz newsz s = .ok (min oldsz newsz, t) ∧
        DroppedAll r (userRange oldsz newsz) s t) := by
  refine ⟨deallocuvm_eq_each hold, deallocuvm_ends hold, fun h => ?_⟩
  rw [deallocuvm_eq_each hold, deallocEach]
  split_ifs with hle
  · have hempty : userRange oldsz newsz = [] := by
      rw [userRange, Nat.sub_eq_zero_of_le (pages_mono hle)]
      rfl
    rw [hempty, Nat.min_eq_left hle]
    exact ⟨s, rfl, rfl, fun vp _ => by simp⟩
  · obtain ⟨t, hrun, hall⟩ := h.dropAll (userRange_lt hold) List.nodup_range'
    refine ⟨t, ?_, hall⟩
    rw [run_bind_ok hrun, Nat.min_eq_right (by omega)]
    rfl

/-- A process of one page gives it back. -/
theorem deallocuvm_skip_exact_process : ∃ (s t : Mem) (r f : ℕ),
    deallocuvm bootSymbols r 4096 0 s = deallocEach bootSymbols r 4096 0 s ∧
      deallocuvm bootSymbols r 4096 0 s = .ok (0, t) ∧ t.freelist = f :: s.freelist := by
  obtain ⟨s, hs⟩ := exists_oneProcess (show 4096 ≤ 0x100000 by decide)
  obtain ⟨heach, -, hdrop⟩ :=
    deallocuvm_skip_exact bootSymbols (s.root ()) 0 s.mem (by decide : 4096 ≤ KERNBASE)
  have hinv := reachable_inv hs.reachable
  obtain ⟨t, hrun, hall⟩ := hdrop (Inv.userPages hinv hs.root_ne)
  have hpres : Present (s.mem.pte (s.root ()) 0) := (hs.user 0 (by decide)).1
  have hlook : s.mem.lookup (s.root ()) (0 * PGSIZE) = some (s.mem.pte (s.root ()) 0) := by
    rw [Inv.lookup hinv hs.root_ne (by decide)]
    exact if_neg (present_pte_table hpres)
  refine ⟨s.mem, t, s.root (), pageOf (s.mem.pte (s.root ()) 0), heach, hrun, ?_⟩
  rw [hall.freelist, show userRange 4096 0 = [0] by decide,
    List.filterMap_cons_some (mapped_some.mpr ⟨_, hlook, hpres, rfl⟩)]
  rfl

end Ostep.PageTables

import Ostep.PageOwners

/-!
# What the functions of vm.c do to address spaces

One specification for each function: what it maps and unmaps, that the pages stay in one place
each, and which pages keep their contents. Where a function may panic, the specification names
the panic and when; otherwise it always returns.
-/

namespace Ostep.PageTables
open ByteWords Hoare Ownership

variable {ι κ : Type*} {L : Symbols} {root : ι → ℕ} {held : κ → ℕ} {mem : ℕ} {s t u : Mem}
  {i j : ι} {E : Fault → Prop}

/-! ## walkpgdir -/

theorem PDX_eq {va : ℕ} (h : va < 2 ^ 32) : PDX va = va / PGSIZE / 1024 := by
  change va / 2 ^ 22 % 1024 = va / 4096 / 1024
  omega

theorem PTX_eq (va : ℕ) : PTX va = va / PGSIZE % 1024 := rfl

theorem walk_found {va : ℕ} {alloc : Bool} (hva : va < 2 ^ 32)
    (ht : s.table (root i) (va / PGSIZE / 1024) ≠ 0) :
    walkpgdir (root i) va alloc s = .ok (some (s.ptr (root i) (va / PGSIZE)), s) := by
  have hp : PDX va < NPDENTRIES ∧ Present (s.read (root i, PDX va)) := by
    rw [← PDX_eq hva] at ht
    by_contra hc
    exact ht (if_neg hc)
  have hload : load (root i, PDX va) s = .ok (s.read (root i, PDX va), s) := rfl
  have htab : s.table (root i) (va / PGSIZE / 1024) = pageOf (s.read (root i, PDX va)) := by
    rw [← PDX_eq hva, Mem.table, if_pos hp]
  rw [walkpgdir, run_bind_ok hload, if_pos hp.2, Mem.ptr, htab, PTX_eq]
  rfl

theorem Inv.not_present_of_table (h : Inv L root held mem s) (hi : root i ≠ 0) {va : ℕ}
    (hva : va < 2 ^ 32) (ht : s.table (root i) (va / PGSIZE / 1024) = 0) :
    ¬ Present (s.read (root i, PDX va)) := by
  rw [← PDX_eq hva] at ht
  intro hp
  have hd : PDX va < NPDENTRIES := Nat.mod_lt _ (by decide)
  rw [Mem.table, if_pos ⟨hd, hp⟩] at ht
  exact h.table_ne i _ hi hd hp ht

theorem Inv.walk_missing (h : Inv L root held mem s) (hi : root i ≠ 0) {va : ℕ}
    (hva : va < 2 ^ 32) (ht : s.table (root i) (va / PGSIZE / 1024) = 0) :
    walkpgdir (root i) va false s = .ok (none, s) := by
  have hload : load (root i, PDX va) s = .ok (s.read (root i, PDX va), s) := rfl
  rw [walkpgdir, run_bind_ok hload, if_neg (h.not_present_of_table hi hva ht)]
  rfl

theorem Inv.lookup (h : Inv L root held mem s) (hi : root i ≠ 0) {va : ℕ} (hva : va < 2 ^ 32) :
    s.lookup (root i) va = if s.table (root i) (va / PGSIZE / 1024) = 0 then none
      else some (s.pte (root i) (va / PGSIZE)) := by
  split_ifs with ht
  · exact if_neg (h.not_present_of_table hi hva ht)
  · have hp : PDX va < NPDENTRIES ∧ Present (s.read (root i, PDX va)) := by
      rw [← PDX_eq hva] at ht
      by_contra hc
      exact ht (if_neg hc)
    have htab : s.table (root i) (va / PGSIZE / 1024) = pageOf (s.read (root i, PDX va)) := by
      rw [← PDX_eq hva, Mem.table, if_pos hp]
    rw [Mem.lookup, if_pos hp.2, pte_eq_read ht, Mem.ptr, htab, PTX_eq]

theorem walk_nil {r va : ℕ} (hp : ¬ Present (s.read (r, PDX va))) (hs : s.freelist = []) :
    walkpgdir r va true s = .ok (none, s) := by
  have hload : load (r, PDX va) s = .ok (s.read (r, PDX va), s) := rfl
  rw [walkpgdir, run_bind_ok hload, if_neg hp, if_pos rfl, run_bind_ok (kalloc_nil hs)]
  rfl

theorem walk_cons {r va b : ℕ} {rest : List ℕ} (hp : ¬ Present (s.read (r, PDX va)))
    (hs : s.freelist = b :: rest) :
    walkpgdir r va true s = .ok (some (b, PTX va), s.newTable r (PDX va) b rest) := by
  have hload : load (r, PDX va) s = .ok (s.read (r, PDX va), s) := rfl
  rw [walkpgdir, run_bind_ok hload, if_neg hp, if_pos rfl, run_bind_ok (kalloc_cons hs)]
  rfl

/-- At most page tables are new: they come from the free list and map nothing, and no other page
is touched. -/
structure Grows (r : ℕ) (s t : Mem) : Prop where
  sub : ∀ g ∈ t.freelist, g ∈ s.freelist
  page : ∀ g, g ∉ s.freelist → s.Outside r g → t.page g = s.page g
  table : ∀ d, s.table r d ≠ 0 → t.table r d = s.table r d
  fresh : ∀ d, t.table r d = s.table r d ∨ t.table r d ∈ s.freelist

theorem Grows.refl (r : ℕ) (s : Mem) : Grows r s s :=
  ⟨fun _ h => h, fun _ _ _ => rfl, fun _ _ => rfl, fun _ => .inl rfl⟩

theorem Grows.trans {r : ℕ} (h : Grows r s t) (k : Grows r t u) : Grows r s u where
  sub g hg := h.sub g (k.sub g hg)
  page g hg ho := by
    have ho' : t.Outside r g := by
      refine ⟨ho.1, fun d hd he => ?_⟩
      rcases h.fresh d with hs | hs
      · exact ho.2 d (hs ▸ hd) (he.trans hs)
      · exact hg (he ▸ hs)
    rw [k.page g (fun hm => hg (h.sub g hm)) ho', h.page g hg ho]
  table d hd := by
    have := h.table d hd
    rw [k.table d (this ▸ hd), this]
  fresh d := by
    rcases k.fresh d with hk | hk
    · rw [hk]
      exact h.fresh d
    · exact .inr (h.sub _ hk)

/-- `t` is `s` with a page table for the page number `vp`. -/
structure Walked (L : Symbols) (root : ι → ℕ) (held : κ → ℕ) (mem : ℕ) (i : ι) (vp : ℕ)
    (s t : Mem) : Prop where
  inv : Inv L root held mem t
  grows : Grows (root i) s t
  found : t.table (root i) (vp / 1024) ≠ 0
  pte : ∀ j vq, root j ≠ 0 → t.pte (root j) vq = s.pte (root j) vq
  only : ∀ d, d ≠ vp / 1024 → t.table (root i) d = s.table (root i) d
  length : s.freelist.length ≤ t.freelist.length + 1

theorem Inv.walk_alloc [DecidableEq ι] [DecidableEq κ] (h : Inv L root held mem s)
    (hi : root i ≠ 0) {va : ℕ} (hva : va < 2 ^ 32) :
    (walkpgdir (root i) va true s = .ok (none, s) ∧ s.freelist = []) ∨
      ∃ t, walkpgdir (root i) va true s = .ok (some (t.ptr (root i) (va / PGSIZE)), t) ∧
        Walked L root held mem i (va / PGSIZE) s t := by
  by_cases ht : s.table (root i) (va / PGSIZE / 1024) = 0
  · have hp := h.not_present_of_table hi hva ht
    cases hs : s.freelist with
    | nil => exact .inl ⟨walk_nil hp hs, rfl⟩
    | cons b rest =>
      have hd : va / PGSIZE / 1024 < NPDENTRIES := by
        change va / 4096 / 1024 < 1024
        omega
      have htab : (s.newTable (root i) (va / PGSIZE / 1024) b rest).table (root i)
          (va / PGSIZE / 1024) = b := h.newTable_table hd hs
      have hb : b ∈ s.freelist := hs ▸ List.mem_cons_self
      have hb0 : b ≠ 0 := h.free_ne_zero hb
      refine .inr ⟨s.newTable (root i) (va / PGSIZE / 1024) b rest, ?_, ?_⟩
      · rw [walk_cons hp hs, Mem.ptr, htab, PDX_eq hva, PTX_eq]
      · refine ⟨h.newTable hi hd ht hs, ⟨?_, ?_, ?_, ?_⟩, by rwa [htab], ?_, ?_, ?_⟩
        · exact fun g hg => hs ▸ List.mem_cons_of_mem b hg
        · intro g hg ho
          refine newTable_page ho.1 ?_
          rintro rfl
          exact hg hb
        · intro e he
          refine h.newTable_table_of_ne hs hi ?_
          rintro ⟨-, rfl⟩
          exact he ht
        · intro e
          by_cases he : e = va / PGSIZE / 1024
          · rw [he, htab]
            exact .inr hb
          · exact .inl (h.newTable_table_of_ne hs hi (fun hc => he hc.2))
        · exact fun j vq hj => h.newTable_pte hi hd ht hs hj
        · exact fun e he => h.newTable_table_of_ne hs hi (fun hc => he hc.2)
        · rw [hs]
          exact le_rfl
  · refine .inr ⟨s, walk_found hva ht, ?_⟩
    exact ⟨h, .refl _ _, ht, fun _ _ _ => rfl, fun _ _ => rfl, Nat.le_succ _⟩

/-! ## mappages -/

/-- `t` maps the page number `vp` to the entry `x` and is otherwise like `s`. -/
structure Mapped (root : ι → ℕ) (i : ι) (vp x : ℕ) (s t : Mem) : Prop where
  grows : Grows (root i) s t
  self : t.pte (root i) vp = x
  other : ∀ j vq, root j ≠ 0 → ¬ (j = i ∧ vq = vp) → t.pte (root j) vq = s.pte (root j) vq
  only : ∀ d, d ≠ vp / 1024 → t.table (root i) d = s.table (root i) d
  length : s.freelist.length ≤ t.freelist.length + 1

theorem Walked.mapped {vp x : ℕ} (h : Walked L root held mem i vp s t) (hi : root i ≠ 0)
    (hx : x < 2 ^ 32) : Mapped root i vp x s (t.write (t.ptr (root i) vp) x) where
  grows := by
    refine ⟨h.grows.sub, fun g hg ho => ?_, fun d hd => ?_, fun d => ?_⟩
    · have hne : g ≠ (t.ptr (root i) vp).1 := by
        rcases h.grows.fresh (vp / 1024) with he | he
        · exact fun hc => ho.2 _ (he ▸ h.found) (hc.trans he)
        · exact fun hc => hg (hc ▸ he)
      rw [write_page_of_ne hne, h.grows.page g hg ho]
    · rw [h.inv.table_write hi hi, h.grows.table d hd]
    · rw [h.inv.table_write hi hi]
      exact h.grows.fresh d
  self := h.inv.pte_write hi h.found hx
  other j vq hj hne := by
    rw [h.inv.pte_write_of_ne hi h.found hj hne, h.pte j vq hj]
  only d hd := by rw [h.inv.table_write hi hi, h.only d hd]
  length := h.length

/-- The pages from `lo` on that begin below `oldsz` are unmapped and given back. -/
structure Shrunk (root : ι → ℕ) (i : ι) (lo oldsz : ℕ) (s t : Mem) : Prop where
  gone : ∀ vq, lo ≤ vq → vq * PGSIZE < oldsz → ¬ Present (t.pte (root i) vq)
  other : ∀ j vq, root j ≠ 0 → ¬ (j = i ∧ lo ≤ vq ∧ vq * PGSIZE < oldsz) →
    t.pte (root j) vq = s.pte (root j) vq
  table : ∀ d, t.table (root i) d = s.table (root i) d
  sup : ∀ g ∈ s.freelist, g ∈ t.freelist
  freed : ∀ g ∈ t.freelist, g ∈ s.freelist ∨ ∃ vq, s.frame (root i) vq = g
  page : ∀ g, g ∉ t.freelist → s.Outside (root i) g → t.page g = s.page g

theorem Shrunk.done {vp oldsz : ℕ} (h : oldsz ≤ vp * PGSIZE) : Shrunk root i vp oldsz s s where
  gone vq hle hlt := by
    have := Nat.mul_le_mul_right PGSIZE hle
    omega
  other _ _ _ _ := rfl
  table _ := rfl
  sup _ h := h
  freed _ h := .inl h
  page _ _ _ := rfl

/-- A stretch without pages may be skipped. -/
theorem Shrunk.skip {vp vq oldsz : ℕ} (h : Shrunk root i vq oldsz s t) (hle : vp ≤ vq)
    (hi : root i ≠ 0) (hnone : ∀ v, vp ≤ v → v < vq → ¬ Present (s.pte (root i) v)) :
    Shrunk root i vp oldsz s t where
  gone v hv hlt := by
    by_cases hvq : vq ≤ v
    · exact h.gone v hvq hlt
    · rw [h.other i v hi (by omega)]
      exact hnone v hv (by omega)
  other j v hj hne := h.other j v hj (fun hc => hne ⟨hc.1, by omega, hc.2.2⟩)
  table := h.table
  sup := h.sup
  freed := h.freed
  page := h.page

/-- Giving back the page `vp` and then those behind it. -/
theorem Inv.shrunk_unmap (h : Inv L root held mem s) (hi : root i ≠ 0) {vp oldsz : ℕ}
    (ht : s.table (root i) (vp / 1024) ≠ 0) (hvp : vp < USERPAGES) (hold : vp * PGSIZE < oldsz)
    (hpres : Present (s.pte (root i) vp))
    (hk : Shrunk root i (vp + 1) oldsz
      ((s.free (pageOf (s.pte (root i) vp))).write (s.ptr (root i) vp) 0) t) :
    Shrunk root i vp oldsz s t := by
  set s' := (s.free (pageOf (s.pte (root i) vp))).write (s.ptr (root i) vp) 0 with hs'
  have hsame := h.unmap_same hi ht hvp hpres
  have hpte : ∀ j vq, root j ≠ 0 → ¬ (j = i ∧ vq = vp) →
      s'.pte (root j) vq = s.pte (root j) vq := by
    intro j vq hj hne
    rw [hsame.pte hj, h.pte_write_of_ne hi ht hj hne]
  have htable : ∀ d, s'.table (root i) d = s.table (root i) d := by
    intro d
    rw [hsame.table hi, h.table_write hi hi]
  refine ⟨fun vq hle hlt => ?_, fun j vq hj hne => ?_, fun d => ?_, fun g hg => ?_,
    fun g hg => ?_, fun g hg ho => ?_⟩
  · rcases Nat.lt_or_eq_of_le hle with hlt' | rfl
    · exact hk.gone vq hlt' hlt
    · rw [hk.other i vp hi (by omega), hsame.pte hi, h.pte_write hi ht (by decide)]
      exact not_present_zero
  · by_cases he : j = i ∧ vq = vp
    · obtain ⟨rfl, rfl⟩ := he
      exact absurd ⟨rfl, le_rfl, hold⟩ hne
    · rw [hk.other j vq hj (fun hc => hne ⟨hc.1, by omega, hc.2.2⟩), hpte j vq hj he]
  · rw [hk.table, htable]
  · exact hk.sup g (List.mem_cons_of_mem _ hg)
  · rcases hk.freed g hg with hg | ⟨vq, hvq⟩
    · rcases List.mem_cons.mp hg with rfl | hg
      · exact .inr ⟨vp, if_pos ⟨hvp, hpres⟩⟩
      · exact .inl hg
    · by_cases he : vq = vp
      · rw [he, Mem.frame, hsame.pte hi, h.pte_write hi ht (by decide),
          if_neg (fun hc => not_present_zero hc.2)] at hvq
        exact .inr ⟨USERPAGES, by rw [← hvq, Mem.frame, if_neg (fun hc => lt_irrefl _ hc.1)]⟩
      · exact .inr ⟨vq, by rw [← hvq, frame_congr (hpte i vq hi (fun hc => he hc.2))]⟩
  · have ho' : s'.Outside (root i) g := ⟨ho.1, fun d => by rw [htable]; exact ho.2 d⟩
    rw [hk.page g hg ho']
    have hgf : g ≠ pageOf (s.pte (root i) vp) := by
      rintro rfl
      exact hg (hk.sup _ List.mem_cons_self)
    exact (write_page_of_ne (ho.2 _ ht)).trans (Function.update_of_ne hgf _ _)

variable [DecidableEq ι] [DecidableEq κ]

/-- One turn of the loop of `mappages`, which goes on as `k`. -/
def mapTurn (pgdir a x : ℕ) (k : Kernel Bool) : Kernel Bool := do
  match ← walkpgdir pgdir a true with
  | none => return false
  | some pte => do
    let e ← load pte
    if e &&& PTE_P ≠ 0 then throw .remap
    else do
      store pte x
      k

theorem mapLoop_succ (pgdir last perm fuel a pa : ℕ) :
    mapLoop pgdir last perm (fuel + 1) a pa = mapTurn pgdir a (pa ||| perm ||| PTE_P)
      (if a = last then pure true
        else mapLoop pgdir last perm fuel ((a + PGSIZE) % 2 ^ 32) ((pa + PGSIZE) % 2 ^ 32)) :=
  rfl

theorem Inv.mapTurn (h : Inv L root held mem s) (hi : root i ≠ 0) {va x : ℕ} (hva : va < 2 ^ 32)
    {k : Kernel Bool} {Q : Bool → Mem → Prop}
    (hE : Present (s.pte (root i) (va / PGSIZE)) → E .remap)
    (hnone : s.freelist = [] → Q false s)
    (hk : ∀ t, Walked L root held mem i (va / PGSIZE) s t →
      ¬ Present (t.pte (root i) (va / PGSIZE)) →
      Triple E (· = t.write (t.ptr (root i) (va / PGSIZE)) x) k Q) :
    Triple E (· = s) (PageTables.mapTurn (root i) va x k) Q := by
  rcases h.walk_alloc hi hva with ⟨hw, hs⟩ | ⟨t, hw, ht⟩
  · exact .run_bind hw (.of_run rfl (hnone hs))
  · have hload : load (t.ptr (root i) (va / PGSIZE)) t =
        .ok (t.pte (root i) (va / PGSIZE), t) := by
      rw [pte_eq_read ht.found]
      rfl
    refine .run_bind hw (.run_bind hload (.ite (fun hp => ?_) (fun hp => ?_)))
    · refine .throw (hE ?_)
      rwa [ht.pte i _ hi] at hp
    · exact .run_bind rfl (hk t ht hp)

theorem PGROUNDDOWN_page {vp : ℕ} (hvp : vp < 2 ^ 20) :
    PGROUNDDOWN ((vp * PGSIZE + PGSIZE + (2 ^ 32 - 1)) % 2 ^ 32) = vp * PGSIZE := by
  change (vp * 4096 + 4096 + (2 ^ 32 - 1)) % 2 ^ 32 / 4096 * 4096 = vp * 4096
  omega

theorem page_div (vp : ℕ) : vp * PGSIZE / PGSIZE = vp := Nat.mul_div_cancel vp (by decide)

theorem next_page (vp : ℕ) : (vp * PGSIZE + PGSIZE) % 2 ^ 32 = (vp + 1) % 2 ^ 20 * PGSIZE := by
  rw [← Nat.succ_mul, show 2 ^ 32 = 2 ^ 20 * PGSIZE from rfl, Nat.mul_mod_mul_right]

/-- The allocated page `b` is mapped at `vp`, or the page table could not be allocated. -/
theorem Inv.mappages_user {b vp perm : ℕ} (h : Inv L root held b s) (hi : root i ≠ 0) (hb : b ≠ 0)
    (hb20 : b < 2 ^ 20) (hvp : vp < USERPAGES) (hperm : perm < PGSIZE)
    (hE : Present (s.pte (root i) vp) → E .remap) :
    Triple E (· = s) (mappages (root i) (vp * PGSIZE) PGSIZE (b * PGSIZE) perm) (fun ok t =>
      if ok then Inv L root held 0 t ∧ Mapped root i vp (b * PGSIZE ||| perm ||| PTE_P) s t
      else t = s ∧ s.freelist = []) := by
  have hvp20 : vp < 2 ^ 20 := by
    change vp < 524288 at hvp
    omega
  have hva : vp * PGSIZE < 2 ^ 32 := by
    change vp * 4096 < 2 ^ 32
    omega
  have hor : perm ||| PTE_P < PGSIZE :=
    Nat.or_lt_two_pow (n := 12) hperm (by decide)
  have hx : b * PGSIZE ||| perm ||| PTE_P < 2 ^ 32 := by
    rw [Nat.or_assoc]
    exact entry_lt hb20 hor
  have hdown : PGROUNDDOWN (vp * PGSIZE) = vp * PGSIZE := by rw [PGROUNDDOWN, page_div]
  rw [mappages, PGROUNDDOWN_page hvp20, hdown,
    show NPDENTRIES * NPTENTRIES = 1048575 + 1 from rfl, mapLoop_succ, if_pos rfl]
  refine h.mapTurn hi hva ?_ ?_ ?_
  · rwa [page_div]
  · exact fun hs => ⟨rfl, hs⟩
  · rw [page_div]
    intro t ht hnone
    refine .of_run rfl ⟨?_, ht.mapped hi hx⟩
    refine ht.inv.mapUser hi ht.found hb hvp hnone hx present_entry ?_
    rw [Nat.or_assoc]
    exact pageOf_entry hor

/-- `t` is `s` with entries changed for the page numbers from `lo` to `hi` only. -/
structure MappedIn (root : ι → ℕ) (i : ι) (lo hi : ℕ) (s t : Mem) : Prop where
  grows : Grows (root i) s t
  other : ∀ j vq, root j ≠ 0 → ¬ (j = i ∧ lo ≤ vq ∧ vq ≤ hi) →
    t.pte (root j) vq = s.pte (root j) vq
  only : ∀ d, t.table (root i) d = s.table (root i) d ∨ lo / 1024 ≤ d ∧ d ≤ hi / 1024

theorem Inv.mapLoop_kernel {fuel vp vl pb perm : ℕ} (h : Inv L root held mem s) (hi : root i ≠ 0)
    (hlo : USERPAGES ≤ vp) (hle : vp ≤ vl) (hhi : vl < 2 ^ 20) (hfuel : vl < vp + fuel)
    (hpb : pb < 2 ^ 20) (hperm : perm < PGSIZE) (hu : ¬ User perm)
    (hfree : ∀ vq, vp ≤ vq → vq ≤ vl → ¬ Present (s.pte (root i) vq)) :
    Triple E (· = s) (mapLoop (root i) (vl * PGSIZE) perm fuel (vp * PGSIZE) (pb * PGSIZE))
      (fun ok t => Inv L root held mem t ∧ MappedIn root i vp vl s t ∧
        (ok = false → t.freelist = [])) := by
  induction fuel generalizing vp pb s with
  | zero => omega
  | succ fuel ih =>
    have hva : vp * PGSIZE < 2 ^ 32 := by
      change vp * 4096 < 2 ^ 32
      omega
    have hor : perm ||| PTE_P < PGSIZE := Nat.or_lt_two_pow (n := 12) hperm (by decide)
    have hx : pb * PGSIZE ||| perm ||| PTE_P < 2 ^ 32 := by
      rw [Nat.or_assoc]
      exact entry_lt hpb hor
    have hxu : ¬ User (pb * PGSIZE ||| perm ||| PTE_P) := by rwa [user_entry]
    rw [mapLoop_succ]
    refine h.mapTurn hi hva ?_ ?_ ?_
    · rw [page_div]
      exact fun hp => absurd hp (hfree vp le_rfl hle)
    · exact fun hs => ⟨h, ⟨.refl _ _, fun _ _ _ _ => rfl, fun _ => .inl rfl⟩, fun _ => hs⟩
    · rw [page_div]
      intro t ht hnone
      have hmap := ht.mapped hi hx
      have hinv : Inv L root held mem (t.write (t.ptr (root i) vp) _) :=
        ht.inv.mapKernel hi ht.found hlo hx hxu
      have honly : ∀ d, d ≠ vp / 1024 → (t.write (t.ptr (root i) vp)
          (pb * PGSIZE ||| perm ||| PTE_P)).table (root i) d = s.table (root i) d := by
        intro d hd
        rw [ht.inv.table_write hi hi, ht.only d hd]
      generalize t.write (t.ptr (root i) vp) (pb * PGSIZE ||| perm ||| PTE_P) = t' at *
      refine .ite (fun hlast => ?_) (fun hlast => ?_)
      · refine .of_run rfl ⟨hinv, ⟨hmap.grows, fun j vq hj hne => hmap.other j vq hj ?_,
          fun d => ?_⟩, by simp⟩
        · rintro ⟨rfl, rfl⟩
          exact hne ⟨rfl, le_rfl, hle⟩
        · by_cases hd : d = vp / 1024
          · exact .inr ⟨hd ▸ le_rfl, hd ▸ Nat.div_le_div_right hle⟩
          · exact .inl (honly d hd)
      · have hlt : vp < vl := by
          rcases Nat.lt_or_eq_of_le hle with hlt | rfl
          · exact hlt
          · exact absurd rfl hlast
        rw [next_page, next_page, Nat.mod_eq_of_lt (by omega : vp + 1 < 2 ^ 20)]
        refine (ih hinv (by omega) hlt (by omega) (Nat.mod_lt _ (by decide)) ?_).weaken ?_
        · intro vq hvq hvl
          rw [hmap.other i vq hi (by omega)]
          exact hfree vq (by omega) hvl
        · rintro ok u ⟨hu, hin, hok⟩
          refine ⟨hu, ⟨hmap.grows.trans hin.grows, fun j vq hj hne => ?_, fun d => ?_⟩, hok⟩
          · rw [hin.other j vq hj (fun hc => hne ⟨hc.1, by omega, hc.2.2⟩)]
            refine hmap.other j vq hj ?_
            rintro ⟨rfl, rfl⟩
            exact hne ⟨rfl, le_rfl, hle⟩
          · rcases hin.only d with hd | hd
            · by_cases hdv : d = vp / 1024
              · exact .inr ⟨hdv ▸ le_rfl, hdv ▸ Nat.div_le_div_right hle⟩
              · exact .inl (hd.trans (honly d hdv))
            · exact .inr ⟨by omega, hd.2⟩

/-! ## deallocuvm -/

theorem next_region {vp : ℕ} (hvp : vp < USERPAGES) :
    ((PGADDR (PDX (vp * PGSIZE) + 1) 0 0 + (2 ^ 32 - PGSIZE)) % 2 ^ 32 + PGSIZE) % 2 ^ 32 =
      (vp / 1024 + 1) * 1024 * PGSIZE := by
  have hv : vp < 524288 := hvp
  have hdx : PDX (vp * PGSIZE) = vp / 1024 := by
    rw [PDX_eq, page_div]
    change vp * 4096 < 4294967296
    omega
  have hd : vp / 1024 < 512 := by omega
  have hsize : PGSIZE = 4096 := rfl
  rw [hdx, PGADDR, hsize]
  omega

theorem deallocLoop_missing {fuel r oldsz a : ℕ} (ha : a < oldsz)
    (hw : walkpgdir r a false s = .ok (none, s)) :
    deallocLoop L r oldsz (fuel + 1) a s = deallocLoop L r oldsz fuel
      (((PGADDR (PDX a + 1) 0 0 + (2 ^ 32 - PGSIZE)) % 2 ^ 32 + PGSIZE) % 2 ^ 32) s := by
  rw [deallocLoop, if_pos ha, run_bind_ok hw]

theorem deallocLoop_absent {fuel r oldsz a : ℕ} {p : Ptr} (ha : a < oldsz)
    (hw : walkpgdir r a false s = .ok (some p, s)) (hp : ¬ Present (s.read p)) :
    deallocLoop L r oldsz (fuel + 1) a s =
      deallocLoop L r oldsz fuel ((a + PGSIZE) % 2 ^ 32) s := by
  have hload : load p s = .ok (s.read p, s) := rfl
  rw [deallocLoop, if_pos ha, run_bind_ok hw]
  change (load p >>= _) s = _
  rw [run_bind_ok hload, if_neg hp]

theorem deallocLoop_present {fuel r oldsz a : ℕ} {p : Ptr} (ha : a < oldsz)
    (hw : walkpgdir r a false s = .ok (some p, s)) (hp : Present (s.read p))
    (h0 : pageOf (s.read p) ≠ 0)
    (hfree : kfree L (pageOf (s.read p)) s = .ok ((), s.free (pageOf (s.read p)))) :
    deallocLoop L r oldsz (fuel + 1) a s =
      deallocLoop L r oldsz fuel ((a + PGSIZE) % 2 ^ 32)
        ((s.free (pageOf (s.read p))).write p 0) := by
  have hload : load p s = .ok (s.read p, s) := rfl
  rw [deallocLoop, if_pos ha, run_bind_ok hw]
  change (load p >>= _) s = _
  rw [run_bind_ok hload, if_pos hp, if_neg h0, run_bind_ok hfree]
  exact run_bind_ok rfl

theorem Inv.deallocLoop {fuel vp oldsz : ℕ} (h : Inv L root held mem s) (hi : root i ≠ 0)
    (hold : oldsz ≤ KERNBASE) (hvp : vp ≤ USERPAGES) (hfuel : USERPAGES < vp + fuel) :
    ∃ t, deallocLoop L (root i) oldsz fuel (vp * PGSIZE) s = .ok ((), t) ∧
      Inv L root held mem t ∧ Shrunk root i vp oldsz s t := by
  have hsize : PGSIZE = 4096 := rfl
  have hbase : KERNBASE = 524288 * 4096 := rfl
  have hpages : USERPAGES = 524288 := rfl
  induction fuel generalizing vp s with
  | zero => omega
  | succ fuel ih =>
    by_cases hlt : vp * PGSIZE < oldsz
    · have hvp : vp < USERPAGES := by
        rw [hsize] at hlt
        omega
      have hva : vp * PGSIZE < 2 ^ 32 := by
        rw [hsize]
        omega
      have hnext : (vp * PGSIZE + PGSIZE) % 2 ^ 32 = (vp + 1) * PGSIZE := by
        rw [next_page, Nat.mod_eq_of_lt (by omega : vp + 1 < 2 ^ 20)]
      by_cases ht : s.table (root i) (vp / 1024) = 0
      · have hw := h.walk_missing hi hva (by rwa [page_div])
        obtain ⟨t, hrun, hinv, hsh⟩ :=
          ih h (by omega : (vp / 1024 + 1) * 1024 ≤ USERPAGES) (by omega)
        refine ⟨t, ?_, hinv, hsh.skip (by omega) hi fun v hv hv' hp => ?_⟩
        · rw [deallocLoop_missing hlt hw, next_region hvp, hrun]
        · refine present_pte_table hp ?_
          rwa [show v / 1024 = vp / 1024 by omega]
      · have hw : walkpgdir (root i) (vp * PGSIZE) false s =
            .ok (some (s.ptr (root i) vp), s) := by
          rw [walk_found hva (by rwa [page_div]), page_div]
        by_cases hp : Present (s.pte (root i) vp)
        · have hown : own root held mem s (.user i vp : Place ι κ) =
              pageOf (s.pte (root i) vp) := own_present hi hvp hp
          have hne := h.frame_ne i vp hi hvp hp
          have hrange := h.owns.range (.user i vp) (hown ▸ hne)
          rw [hown] at hrange
          have hkfree := kfree_run (s := s) hrange.1 hrange.2
          obtain ⟨t, hrun, hinv, hsh⟩ :=
            ih (h.unmap hi ht hvp hp) (by omega : vp + 1 ≤ USERPAGES) (by omega)
          refine ⟨t, ?_, hinv, h.shrunk_unmap hi ht hvp hlt hp hsh⟩
          rw [pte_eq_read ht] at hp hne hkfree hrun
          rw [deallocLoop_present hlt hw hp hne hkfree, hnext, hrun]
        · obtain ⟨t, hrun, hinv, hsh⟩ := ih h (by omega : vp + 1 ≤ USERPAGES) (by omega)
          refine ⟨t, ?_, hinv, hsh.skip (by omega) hi fun v hv hv' => ?_⟩
          · rw [pte_eq_read ht] at hp
            rw [deallocLoop_absent hlt hw hp, hnext, hrun]
          · rwa [show v = vp by omega]
    · refine ⟨s, ?_, h, .done (by omega)⟩
      rw [PageTables.deallocLoop, if_neg hlt]
      rfl

/-- The number of pages that `sz` bytes take. -/
def pages (sz : ℕ) : ℕ := (sz + (PGSIZE - 1)) / PGSIZE

theorem PGROUNDUP_eq {sz : ℕ} (h : sz ≤ KERNBASE) : PGROUNDUP sz = pages sz * PGSIZE := by
  have hbase : KERNBASE = 2147483648 := rfl
  rw [PGROUNDUP, pages, Nat.mod_eq_of_lt]
  have hsize : PGSIZE - 1 = 4095 := rfl
  omega

theorem pages_le {sz : ℕ} (h : sz ≤ KERNBASE) : pages sz ≤ USERPAGES := by
  have hbase : KERNBASE = 2147483648 := rfl
  have hsize : pages sz = (sz + 4095) / 4096 := rfl
  have hpages : USERPAGES = 524288 := rfl
  omega

theorem lt_pages {vp sz : ℕ} : vp < pages sz ↔ vp * PGSIZE < sz := by
  change vp < (sz + 4095) / 4096 ↔ vp * 4096 < sz
  omega

theorem le_pages (sz : ℕ) : sz ≤ pages sz * PGSIZE := by
  change sz ≤ (sz + 4095) / 4096 * 4096
  omega

theorem pages_mono {sz sz' : ℕ} (h : sz ≤ sz') : pages sz ≤ pages sz' :=
  Nat.div_le_div_right (Nat.add_le_add_right h _)

theorem Inv.deallocuvm {oldsz newsz : ℕ} (h : Inv L root held mem s) (hi : root i ≠ 0)
    (hold : oldsz ≤ KERNBASE) (hlt : newsz < oldsz) :
    ∃ t, deallocuvm L (root i) oldsz newsz s = .ok (newsz, t) ∧ Inv L root held mem t ∧
      Shrunk root i (pages newsz) oldsz s t := by
  have hnew : newsz ≤ KERNBASE := hlt.le.trans hold
  have hfuel : USERPAGES < NPDENTRIES * NPTENTRIES := by decide
  obtain ⟨t, hrun, hinv, hsh⟩ := h.deallocLoop hi hold (pages_le hnew) (Nat.lt_add_left _ hfuel)
  refine ⟨t, ?_, hinv, hsh⟩
  rw [PageTables.deallocuvm, if_neg (by omega), PGROUNDUP_eq hnew, run_bind_ok hrun]
  rfl

/-! ## freevm -/

/-- What is held while the page tables below `k` are already free. -/
def dropped (i : ι) (k : ℕ) (o : Place ι κ → ℕ) : Place ι κ → ℕ
  | .table j d => if j = i ∧ d < k then 0 else o (.table j d)
  | p => o p

structure Dropping (L : Symbols) (root : ι → ℕ) (held : κ → ℕ) (mem : ℕ) (i : ι) (s : Mem) (k : ℕ)
    (t : Mem) : Prop where
  nodup : t.freelist.Nodup
  free_range : ∀ f ∈ t.freelist, L.first ≤ f ∧ f < NPAGES
  owns : Owns L.first NPAGES t.used (dropped i k (own root held mem s))
  sup : ∀ g ∈ s.freelist, g ∈ t.freelist
  freed : ∀ g ∈ t.freelist, g ∈ s.freelist ∨ ∃ d, s.table (root i) d = g
  page : ∀ g, g ∉ t.freelist → t.page g = s.page g

omit [DecidableEq κ] in
theorem Dropping.not_free {k : ℕ} (h : Dropping L root held mem i s k t) {p : Place ι κ}
    (hp : dropped i k (own root held mem s) p ≠ 0) :
    dropped i k (own root held mem s) p ∉ t.freelist :=
  used_eq_true.mp (h.owns.used_own hp)

/-- What was held in the place `p` is given back. -/
theorem Dropping.free {k l : ℕ} (h : Dropping L root held mem i s k t) {p : Place ι κ}
    (hp : dropped i k (own root held mem s) p ≠ 0)
    (hd : ∃ d, s.table (root i) d = dropped i k (own root held mem s) p)
    (hl : dropped i l (own root held mem s) =
      Function.update (dropped i k (own root held mem s)) p 0) :
    Dropping L root held mem i s l (t.free (dropped i k (own root held mem s) p)) where
  nodup := List.nodup_cons.mpr ⟨h.not_free hp, h.nodup⟩
  free_range g hg := by
    rcases List.mem_cons.mp hg with rfl | hg
    · exact h.owns.range _ hp
    · exact h.free_range g hg
  owns := by
    rw [used_free, hl]
    exact h.owns.release hp
  sup g hg := List.mem_cons_of_mem _ (h.sup g hg)
  freed g hg := by
    rcases List.mem_cons.mp hg with rfl | hg
    · exact .inr hd
    · exact h.freed g hg
  page g hg := by
    have hg' : g ≠ dropped i k (own root held mem s) p ∧ g ∉ t.freelist := by
      simpa [Mem.free] using hg
    exact (Function.update_of_ne hg'.1 _ _).trans (h.page g hg'.2)

theorem Dropping.freeTable {k : ℕ} (hs : Inv L root held mem s) (hi : root i ≠ 0)
    (hk : k < NPDENTRIES) (h : Dropping L root held mem i s k t) :
    ∃ u, freeTable L (root i) k t = .ok ((), u) ∧ Dropping L root held mem i s (k + 1) u := by
  have hpage : t.page (root i) = s.page (root i) := h.page _ (h.not_free (p := .root i) hi)
  have hload : load (root i, k) t = .ok (s.read (root i, k), t) := by
    have hr : t.read (root i, k) = s.read (root i, k) := read_congr hpage
    rw [← hr]
    rfl
  have hown : dropped i k (own root held mem s) (.table i k : Place ι κ) = s.table (root i) k := by
    simp only [dropped, Nat.lt_irrefl, and_false, if_false, own_table hi]
  have hnext : dropped i (k + 1) (own root held mem s) =
      Function.update (dropped i k (own root held mem s)) (.table i k : Place ι κ) 0 := by
    funext p
    cases p with
    | root | user | mem | other => rfl
    | table j d =>
      by_cases hjd : j = i ∧ d = k
      · obtain ⟨rfl, rfl⟩ := hjd
        simp [dropped]
      · rw [Function.update_of_ne (by simpa using hjd)]
        simp only [dropped]
        by_cases hj : j = i
        · have hd : d < k + 1 ↔ d < k := by
            have hdk : d ≠ k := fun hd => hjd ⟨hj, hd⟩
            omega
          simp only [hj, true_and, hd]
        · simp [hj]
  by_cases hp : Present (s.read (root i, k))
  · have htab : s.table (root i) k = pageOf (s.read (root i, k)) := if_pos ⟨hk, hp⟩
    have hne : dropped i k (own root held mem s) (.table i k : Place ι κ) ≠ 0 := by
      rw [hown, htab]
      exact hs.table_ne i k hi hk hp
    have hrange := h.owns.range _ hne
    have hfree := h.free hne ⟨k, hown.symm⟩ hnext
    rw [hown, htab] at hrange hfree
    refine ⟨_, ?_, hfree⟩
    rw [PageTables.freeTable, run_bind_ok hload, if_pos hp, kfree_run hrange.1 hrange.2]
  · have htab : s.table (root i) k = 0 := if_neg (fun hc => hp hc.2)
    refine ⟨t, ?_, ?_⟩
    · rw [PageTables.freeTable, run_bind_ok hload, if_neg hp]
      rfl
    · rw [← htab, ← hown, Function.update_eq_self] at hnext
      exact ⟨h.nodup, h.free_range, hnext ▸ h.owns, h.sup, h.freed, h.page⟩

theorem Dropping.freeTables {k m : ℕ} (hs : Inv L root held mem s) (hi : root i ≠ 0)
    (hk : k + m ≤ NPDENTRIES) (h : Dropping L root held mem i s k t) :
    ∃ u, (List.range' k m).forM (PageTables.freeTable L (root i)) t = .ok (⟨⟩, u) ∧
      Dropping L root held mem i s (k + m) u := by
  induction m generalizing k t with
  | zero => exact ⟨t, rfl, h⟩
  | succ m ih =>
    obtain ⟨u, hu, hdu⟩ := h.freeTable hs hi (by omega)
    obtain ⟨v, hv, hdv⟩ := ih (by omega) hdu
    refine ⟨v, ?_, by rwa [Nat.add_right_comm, Nat.add_assoc] at hdv⟩
    rw [List.range'_succ]
    change (PageTables.freeTable L (root i) k >>= fun _ => _) t = _
    rw [run_bind_ok hu, hv]

omit [DecidableEq κ] in
/-- In the end all page tables are free. -/
theorem Dropping.table_free {d : ℕ} (hs : Inv L root held mem s)
    (h : Dropping L root held mem i s NPDENTRIES t) (hi : root i ≠ 0)
    (hd : s.table (root i) d ≠ 0) : s.table (root i) d ∈ t.freelist := by
  have hown : own root held mem s (.table i d : Place ι κ) = s.table (root i) d := own_table hi
  have hrange := hs.owns.range (.table i d) (hown ▸ hd)
  rw [hown] at hrange
  rw [← used_eq_false, Bool.eq_false_iff, Ne, h.owns.used_iff _ hrange.1 hrange.2]
  rintro ⟨p, hp⟩
  -- Whatever holds it now held it before, and that was the page directory.
  have hdrop : dropped i NPDENTRIES (own root held mem s) p = own root held mem s p := by
    cases p with
    | root | user | mem | other => rfl
    | table j e =>
      refine if_neg fun hc => hd ?_
      rw [← hp]
      exact if_pos hc
  rw [hdrop, ← hown] at hp
  obtain rfl := hs.owns.inj p (.table i d) hp (by rwa [hp, hown])
  rw [dropped, if_pos ⟨rfl, table_lt hd⟩] at hdrop
  exact hd (hown ▸ hdrop.symm)

/-- With its page the directory is gone. -/
theorem Dropping.finish (hs : Inv L root held mem s) (hi : root i ≠ 0)
    (hgone : ∀ vq, pages 0 ≤ vq → vq * PGSIZE < KERNBASE → ¬ Present (s.pte (root i) vq))
    (h : Dropping L root held mem i s NPDENTRIES t) :
    Inv L (Function.update root i 0) held mem (t.free (root i)) := by
  have hroot : ∀ j, Function.update root i 0 j ≠ 0 →
      j ≠ i ∧ root j ≠ 0 ∧ Function.update root i 0 j = root j := by
    intro j hj
    have hji : j ≠ i := by
      rintro rfl
      simp at hj
    rw [Function.update_of_ne hji] at hj
    exact ⟨hji, hj, Function.update_of_ne hji _ _⟩
  have hne : ∀ p : Place ι κ, p ≠ .root i → own root held mem s p ≠ 0 →
      dropped i NPDENTRIES (own root held mem s) p = own root held mem s p →
      (t.free (root i)).page (own root held mem s p) = s.page (own root held mem s p) := by
    intro p hp h0 hdrop
    have hfree := h.not_free (hdrop.symm ▸ h0)
    rw [hdrop] at hfree
    have hr : own root held mem s p ≠ root i := fun he => hp (hs.owns.inj p (.root i) he h0)
    exact (Function.update_of_ne hr _ _).trans (h.page _ hfree)
  have hsame : Same (Function.update root i 0) s (t.free (root i)) := by
    intro j hj
    obtain ⟨hji, hj0, he⟩ := hroot j hj
    rw [he]
    refine ⟨hne (.root j) (by simpa using hji) hj0 rfl, fun d hd => ?_⟩
    have hown : own root held mem s (.table j d : Place ι κ) = s.table (root j) d := own_table hj0
    have := hne (.table j d) (by simp) (hown ▸ hd) (if_neg (fun hc => hji hc.1))
    rwa [hown] at this
  have hshaped : Shaped (Function.update root i 0) s := by
    refine ⟨fun j d hj => ?_, fun j vq hj => ?_, fun j vq hj => ?_⟩
    · obtain ⟨-, hj0, he⟩ := hroot j hj
      exact he ▸ hs.table_ne j d hj0
    · obtain ⟨-, hj0, he⟩ := hroot j hj
      exact he ▸ hs.frame_ne j vq hj0
    · obtain ⟨-, hj0, he⟩ := hroot j hj
      exact he ▸ hs.kernel j vq hj0
  have hown : own (Function.update root i 0) held mem (t.free (root i)) =
      Function.update (dropped i NPDENTRIES (own root held mem s)) (.root i : Place ι κ) 0 := by
    rw [hsame.own]
    funext p
    cases p with
    | mem | other => rfl
    | root j =>
      by_cases hji : j = i
      · simp [own, hji]
      · simp [own, dropped, hji]
    | table j d =>
      rw [Function.update_of_ne (by simp)]
      by_cases hji : j = i
      · have htab : d < NPDENTRIES ∨ s.table (root i) d = 0 := by
          by_cases hd : s.table (root i) d = 0
          · exact .inr hd
          · exact .inl (table_lt hd)
        rcases htab with hd | hd
        · simp only [own, dropped, hji, Function.update_self, if_true, true_and, hd]
        · simp [own, dropped, hji, hd]
      · simp [own, dropped, hji]
    | user j vp =>
      rw [Function.update_of_ne (by simp)]
      by_cases hji : j = i
      · have hframe : s.frame (root i) vp = 0 := by
          refine if_neg fun hc => hgone vp ?_ ?_ hc.2
          · exact Nat.zero_le vp
          · exact Nat.mul_lt_mul_of_pos_right hc.1 (by decide)
        simp [own, dropped, hji, hframe]
      · simp [own, dropped, hji]
  have hfree : root i ∉ t.freelist := h.not_free (p := .root i) hi
  refine { toShaped := hshaped.same hsame, nodup := ?_, free_range := ?_, owns := ?_ }
  · exact List.nodup_cons.mpr ⟨hfree, h.nodup⟩
  · intro f hf
    rcases List.mem_cons.mp hf with rfl | hf
    · exact h.owns.range (.root i) hi
    · exact h.free_range f hf
  · rw [used_free, hown]
    exact h.owns.release (p := .root i) hi

/-- A page directory, its tables and what it still maps below `KERNBASE` are given back. -/
theorem Inv.freevm (h : Inv L root held mem s) (hi : root i ≠ 0) :
    ∃ t, freevm L (root i) s = .ok ((), t) ∧ Inv L (Function.update root i 0) held mem t ∧
      (∀ g ∈ s.freelist, g ∈ t.freelist) ∧
      (∀ g ∈ t.freelist, g ∈ s.freelist ∨ g = root i ∨ (∃ d, s.table (root i) d = g) ∨
        ∃ vq, s.frame (root i) vq = g) ∧
      ∀ g, g ∉ t.freelist → t.page g = s.page g := by
  obtain ⟨t, hrun, ht, hsh⟩ := h.deallocuvm hi le_rfl (by decide : 0 < KERNBASE)
  have hstart : Dropping L root held mem i t 0 t := by
    refine ⟨ht.nodup, ht.free_range, ?_, fun _ h => h, fun _ h => .inl h, fun _ _ => rfl⟩
    have h0 : dropped i 0 (own root held mem t) = own root held mem t := by
      funext p
      cases p <;> simp [dropped]
    rw [h0]
    exact ht.owns
  obtain ⟨u, hu, hdu⟩ := hstart.freeTables ht hi (by omega : 0 + NPDENTRIES ≤ NPDENTRIES)
  rw [Nat.zero_add] at hdu
  have hrange : L.first ≤ root i ∧ root i < NPAGES := hdu.owns.range (.root i) hi
  refine ⟨u.free (root i), ?_, hdu.finish ht hi hsh.gone, fun g hg => ?_, fun g hg => ?_,
    fun g hg => ?_⟩
  · rw [PageTables.freevm, if_neg hi, run_bind_ok hrun, List.range_eq_range', run_bind_ok hu,
      kfree_run hrange.1 hrange.2]
  · exact List.mem_cons_of_mem _ (hdu.sup g (hsh.sup g hg))
  · rcases List.mem_cons.mp hg with rfl | hg
    · exact .inr (.inl rfl)
    · rcases hdu.freed g hg with hg | ⟨d, hd⟩
      · rcases hsh.freed g hg with hg | hg
        · exact .inl hg
        · exact .inr (.inr (.inr hg))
      · exact .inr (.inr (.inl ⟨d, by rw [← hd, hsh.table d]⟩))
  · have hg' : g ≠ root i ∧ g ∉ u.freelist := by simpa [Mem.free] using hg
    have hpage : u.page g = t.page g := hdu.page g hg'.2
    have hfree : (u.free (root i)).page g = u.page g := Function.update_of_ne hg'.1 _ _
    rw [hfree, hpage, hsh.page g (fun hm => hg'.2 (hdu.sup g hm))]
    refine ⟨hg'.1, fun d hd he => hg'.2 ?_⟩
    rw [he, ← hsh.table d]
    exact hdu.table_free ht hi (hsh.table d ▸ hd)

end Ostep.PageTables

import Ostep.NewSpaces

/-!
# Growing address spaces

`allocuvm` and `copyuvm` fill a range of pages, each with permissions and contents known in
advance. When memory runs out on the way, `allocuvm` unmaps the range again and `copyuvm` gives
up the new address space.
-/

namespace Ostep.PageTables
open ByteWords Hoare Ownership

variable {ι κ : Type*} [DecidableEq ι] [DecidableEq κ] {L : Symbols} {root : ι → ℕ} {held : κ → ℕ}
  {mem : ℕ} {s t u : Mem} {i j : ι} {E : Fault → Prop}

/-! ## allocuvm -/

/-- `kalloc` and `memset`, or `memmove`, of the local variable `mem`. -/
theorem Inv.alloc_fill {b : ℕ} {rest : List ℕ} {v : Bytes} (h : Inv L root held 0 s)
    (hs : s.freelist = b :: rest) :
    Inv L root held b ({ s with freelist := rest }.setPage b v) ∧
      Same root s ({ s with freelist := rest }.setPage b v) ∧
      ∀ j, root j ≠ 0 → Grows (root j) s ({ s with freelist := rest }.setPage b v) := by
  have hb : b ∈ s.freelist := hs ▸ List.mem_cons_self
  have hplain : Plain root s b := h.plain_of_free hb
  have hsame : Same root s ({ s with freelist := rest }.setPage b v) := hplain.same (v := v)
  refine ⟨(h.alloc hs).setPage hplain, hsame, fun j hj => ?_⟩
  refine ⟨fun g hg => hs ▸ List.mem_cons_of_mem b hg, fun g hg _ => ?_, fun d _ => hsame.table hj,
    fun d => .inl (hsame.table hj)⟩
  exact setPage_page_of_ne (fun hc => hg (hc ▸ hb))

/-- The pages from `lo` to `vp` are new, with the given permissions and contents. -/
structure Grown (root : ι → ℕ) (i : ι) (lo vp : ℕ) (perm : ℕ → ℕ) (content : ℕ → Bytes) (s t : Mem) :
    Prop where
  grows : Grows (root i) s t
  other : ∀ j vq, root j ≠ 0 → ¬ (j = i ∧ lo ≤ vq ∧ vq < vp) →
    t.pte (root j) vq = s.pte (root j) vq
  new : ∀ vq, lo ≤ vq → vq < vp → ∃ f ∈ s.freelist,
    t.pte (root i) vq = f * PGSIZE ||| perm vq ||| PTE_P ∧ t.page f = content vq
  kernel : ∀ d, 512 ≤ d → t.table (root i) d = s.table (root i) d

section Grown
variable {lo vp b : ℕ} {perm : ℕ → ℕ} {content : ℕ → Bytes} {rest : List ℕ}

omit [DecidableEq ι] in
theorem Grown.refl : Grown root i lo lo perm content s s :=
  ⟨.refl _ _, fun _ _ _ _ => rfl, fun _ _ _ => by omega, fun _ _ => rfl⟩

/-- A page is allocated for the page number `vp`. -/
theorem Grown.fill (h : Grown root i lo vp perm content s t) (hperm : ∀ vq, perm vq < PGSIZE)
    (hi : root i ≠ 0) (ht : Inv L root held 0 t) (hs : t.freelist = b :: rest)
    (hvp : vp ≤ USERPAGES) {v : Bytes} :
    Grown root i lo vp perm content s ({ t with freelist := rest }.setPage b v) := by
  obtain ⟨-, hsame, hgrows⟩ := ht.alloc_fill hs (v := v)
  refine ⟨h.grows.trans (hgrows i hi), fun j vq hj hne => ?_, fun vq hlo hlt => ?_, fun d hd => ?_⟩
  · rw [hsame.pte hj, h.other j vq hj hne]
  · obtain ⟨f, hf, hpte, hnew⟩ := h.new vq hlo hlt
    have hframe := ht.user_frame hi (by omega : vq < USERPAGES) (hpte ▸ present_entry)
    rw [hpte, pageOf_pte (hperm vq)] at hframe
    refine ⟨f, hf, by rw [hsame.pte hi, hpte], ?_⟩
    rw [(hgrows i hi).page f hframe.1 (hframe.2 i hi), hnew]
  · rw [hsame.table hi, h.kernel d hd]

omit [DecidableEq ι] [DecidableEq κ] in
/-- And it is mapped. -/
theorem Grown.snoc (h : Grown root i lo vp perm content s t) (hperm : ∀ vq, perm vq < PGSIZE)
    (hle : lo ≤ vp) (hi : root i ≠ 0) (ht : Inv L root held b t) (hb : b ∈ s.freelist)
    (hb0 : b ≠ 0) (hvp : vp < USERPAGES) (hpage : t.page b = content vp)
    (hm : Mapped root i vp (b * PGSIZE ||| perm vp ||| PTE_P) t u) :
    Grown root i lo (vp + 1) perm content s u := by
  refine ⟨h.grows.trans hm.grows, fun j vq hj hne => ?_, fun vq hlo hlt => ?_, fun d hd => ?_⟩
  · have hne' : ¬ (j = i ∧ vq = vp) := fun hc => hne ⟨hc.1, by omega, by omega⟩
    rw [hm.other j vq hj hne', h.other j vq hj (fun hc => hne ⟨hc.1, by omega⟩)]
  · by_cases he : vq = vp
    · have hplain : Plain root t b := ht.plain_of_place (p := .mem) rfl hb0 (by simp) (by simp)
      refine ⟨b, hb, he ▸ hm.self, ?_⟩
      rw [hm.grows.page b (ht.not_free (p := .mem) hb0) (hplain i hi), hpage, he]
    · obtain ⟨f, hf, hpte, hnew⟩ := h.new vq hlo (by omega)
      have hframe := ht.user_frame hi (by omega : vq < USERPAGES) (hpte ▸ present_entry)
      rw [hpte, pageOf_pte (hperm vq)] at hframe
      refine ⟨f, hf, ?_, ?_⟩
      · rw [hm.other i vq hi (fun hc => he hc.2), hpte]
      · rw [hm.grows.page f hframe.1 (hframe.2 i hi), hnew]
  · have hpages : USERPAGES = 512 * 1024 := rfl
    rw [hm.only d (by omega), h.kernel d hd]

end Grown

/-- The outcome of a failed growth: what lies between the sizes is unmapped. -/
structure GrowFailed (L : Symbols) (root : ι → ℕ) (held : κ → ℕ) (mem : ℕ) (i : ι) (lo newsz : ℕ)
    (s t : Mem) : Prop where
  inv : Inv L root held mem t
  gone : ∀ vq, lo ≤ vq → vq * PGSIZE < newsz → ¬ Present (t.pte (root i) vq)
  other : ∀ j vq, root j ≠ 0 → ¬ (j = i ∧ lo ≤ vq ∧ vq * PGSIZE < newsz) →
    t.pte (root j) vq = s.pte (root j) vq
  page : ∀ g, g ∉ s.freelist → g ∉ t.freelist → s.Outside (root i) g → t.page g = s.page g
  fresh : ∀ d, t.table (root i) d = s.table (root i) d ∨ t.table (root i) d ∈ s.freelist
  freed : ∀ g ∈ t.freelist, g ∈ s.freelist ∨ ∃ vq, s.frame (root i) vq = g

omit [DecidableEq ι] [DecidableEq κ] in
theorem Grown.frame {lo vp : ℕ} {perm : ℕ → ℕ} {content : ℕ → Bytes}
    (h : Grown root i lo vp perm content s t) (hperm : ∀ vq, perm vq < PGSIZE) (hi : root i ≠ 0)
    (vq : ℕ) : t.frame (root i) vq = s.frame (root i) vq ∨ t.frame (root i) vq ∈ s.freelist ∨
      t.frame (root i) vq = 0 := by
  by_cases hvq : lo ≤ vq ∧ vq < vp
  · obtain ⟨f, hf, hpte, -⟩ := h.new vq hvq.1 hvq.2
    rw [Mem.frame, hpte, pageOf_pte (hperm vq)]
    split_ifs
    · exact .inr (.inl hf)
    · exact .inr (.inr rfl)
  · exact .inl (frame_congr (h.other i vq hi (fun hc => hvq hc.2)))

omit [DecidableEq ι] [DecidableEq κ] in
/-- Giving up after the pages below `vp`. -/
theorem Grown.failed {lo vp newsz : ℕ} {perm : ℕ → ℕ} {content : ℕ → Bytes}
    (h : Grown root i lo vp perm content s t) (hperm : ∀ vq, perm vq < PGSIZE) (hi : root i ≠ 0)
    (hvp : vp * PGSIZE < newsz + PGSIZE) (hu : Inv L root held mem u)
    (hsh : Shrunk root i lo newsz t u) : GrowFailed L root held mem i lo newsz s u where
  inv := hu
  gone := hsh.gone
  other j vq hj hne := by
    rw [hsh.other j vq hj hne]
    refine h.other j vq hj fun hc => hne ⟨hc.1, hc.2.1, ?_⟩
    have hmul : (vq + 1) * PGSIZE ≤ vp * PGSIZE := Nat.mul_le_mul_right _ hc.2.2
    rw [Nat.succ_mul] at hmul
    exact Nat.lt_of_add_lt_add_right (Nat.lt_of_le_of_lt hmul hvp)
  page g hg hg' ho := by
    have ho' : t.Outside (root i) g := by
      refine ⟨ho.1, fun d hd he => ?_⟩
      rcases h.grows.fresh d with hs | hs
      · exact ho.2 d (hs ▸ hd) (he.trans hs)
      · exact hg (he ▸ hs)
    rw [hsh.page g hg' ho', h.grows.page g hg ho]
  fresh d := by
    rw [hsh.table]
    exact h.grows.fresh d
  freed g hg := by
    have hg0 : g ≠ 0 := hu.free_ne_zero hg
    rcases hsh.freed g hg with hg | ⟨vq, rfl⟩
    · exact .inl (h.grows.sub g hg)
    · rcases h.frame hperm hi vq with he | he | he
      · exact .inr ⟨vq, he.symm⟩
      · exact .inl he
      · exact absurd he hg0

/-- The page that could not be mapped is given back as well. -/
theorem GrowFailed.free {lo newsz b : ℕ} (h : GrowFailed L root held b i lo newsz s t) (hb : b ≠ 0)
    (hbs : b ∈ s.freelist) (hi : root i ≠ 0) :
    GrowFailed L root held 0 i lo newsz s (t.free b) := by
  have hplain : Plain root t b := h.inv.plain_of_place (p := .mem) rfl hb (by simp) (by simp)
  have hsame : Same root t (t.free b) := hplain.same (v := fun _ => 1)
  refine ⟨h.inv.unalloc hb, fun vq hlo hlt => ?_, fun j vq hj hne => ?_, fun g hg hg' ho => ?_,
    fun d => ?_, fun g hg => ?_⟩
  · rw [hsame.pte hi]
    exact h.gone vq hlo hlt
  · rw [hsame.pte hj, h.other j vq hj hne]
  · have hgb : g ≠ b ∧ g ∉ t.freelist := by simpa [Mem.free] using hg'
    rw [← h.page g hg hgb.2 ho]
    exact Function.update_of_ne hgb.1 _ _
  · rw [hsame.table hi]
    exact h.fresh d
  · rcases List.mem_cons.mp hg with rfl | hg
    · exact .inl hbs
    · exact h.freed g hg

/-- How `allocuvm` ends: each new page takes at most one page table, so it fails only where the
free list is short. -/
def GrowOutcome (L : Symbols) (root : ι → ℕ) (held : κ → ℕ) (i : ι) (lo n newsz : ℕ) (s t : Mem)
    (r : ℕ) (u : Mem) : Prop :=
  (r = newsz ∧ Inv L root held 0 u ∧
    Grown root i lo (pages newsz) (fun _ => PTE_W ||| PTE_U) (fun _ _ => 0) s u ∧
    t.freelist.length ≤ u.freelist.length + 2 * n) ∨
  (r = 0 ∧ GrowFailed L root held 0 i lo newsz s u ∧ t.freelist.length < 2 * n)

theorem Inv.allocLoop {fuel vp oldsz newsz : ℕ} (h : Inv L root held 0 t) (hi : root i ≠ 0)
    (hg : Grown root i (pages oldsz) vp (fun _ => PTE_W ||| PTE_U) (fun _ _ => 0) s t)
    (hlo : pages oldsz ≤ vp) (hvp : vp ≤ pages newsz)
    (hnew : newsz < KERNBASE) (hfuel : USERPAGES < vp + fuel)
    (hE : ∀ vq, pages oldsz ≤ vq → vq < pages newsz → Present (s.pte (root i) vq) → E .remap) :
    Triple E (· = t) (allocLoop L (root i) oldsz newsz fuel (vp * PGSIZE))
      (GrowOutcome L root held i (pages oldsz) (pages newsz - vp) newsz s t) := by
  have hmax := pages_le hnew.le
  have hperm : ∀ _ : ℕ, PTE_W ||| PTE_U < PGSIZE := fun _ => by decide
  induction fuel generalizing vp t with
  | zero => omega
  | succ fuel ih =>
    rw [PageTables.allocLoop]
    refine .ite (fun hlt => ?_) (fun hge => ?_)
    · have hlt' : vp < pages newsz := lt_pages.mpr hlt
      have hvp' : vp < USERPAGES := by omega
      have hold : oldsz < newsz :=
        (le_pages oldsz).trans_lt ((Nat.mul_le_mul_right _ hlo).trans_lt hlt)
      have hstop : vp * PGSIZE < newsz + PGSIZE := hlt.trans (Nat.lt_add_of_pos_right (by decide))
      cases hs : t.freelist with
      | nil =>
        obtain ⟨u, hrun, hu, hsh⟩ := h.deallocuvm hi hnew.le hold
        refine .run_bind (kalloc_nil hs)
          (.run_bind hrun (.of_run rfl (.inr ⟨rfl, hg.failed hperm hi hstop hu hsh, ?_⟩)))
        rw [hs, List.length_nil]
        omega
      | cons b rest =>
        have hb : b ∈ t.freelist := hs ▸ List.mem_cons_self
        have hb57 : b < 57344 := (h.free_range b hb).2
        have hb0 : b ≠ 0 := h.free_ne_zero hb
        obtain ⟨hmem, hsame, -⟩ := h.alloc_fill hs (v := fun _ => 0)
        have hfill := hg.fill hperm hi h hs hvp'.le (v := fun _ => 0)
        refine .run_bind (kalloc_cons hs) (.run_bind rfl ?_)
        refine .bind (hmem.mappages_user (E := E) hi hb0 (by omega) hvp' (by decide) ?_)
          fun ok => .of_eq fun u hu => ?_
        · rw [hsame.pte hi, hg.other i vp hi (fun hc => by omega)]
          exact hE vp hlo hlt'
        · cases ok with
          | true =>
            have hnext : (vp * PGSIZE + PGSIZE) % 2 ^ 32 = (vp + 1) * PGSIZE := by
              have hpages : USERPAGES = 524288 := rfl
              rw [next_page, Nat.mod_eq_of_lt (by omega : vp + 1 < 2 ^ 20)]
            rw [if_pos rfl, hnext]
            have hlen : rest.length ≤ u.freelist.length + 1 := hu.2.length
            refine (ih hu.1 (hfill.snoc hperm hlo hi hmem (hg.grows.sub b hb) hb0 hvp'
              setPage_page_self hu.2) (by omega) (by omega) (by omega)).weaken fun r v hv => ?_
            rw [GrowOutcome, hs, List.length_cons]
            rcases hv with ⟨hr, hv, hgv, hlenv⟩ | ⟨hr, hv, hlenv⟩
            · exact .inl ⟨hr, hv, hgv, by omega⟩
            · exact .inr ⟨hr, hv, by omega⟩
          | false =>
            obtain ⟨rfl, hrest⟩ := hu
            obtain ⟨v, hrun, hv, hsh⟩ := hmem.deallocuvm hi hnew.le hold
            have hrange := hv.owns.range .mem hb0
            refine .run_bind hrun (.run_bind (kfree_run hrange.1 hrange.2) (.of_run rfl ?_))
            refine .inr ⟨rfl, (hfill.failed hperm hi hstop hv hsh).free hb0 (hg.grows.sub b hb) hi,
              ?_⟩
            have hnil : rest = [] := hrest
            rw [hs, hnil, List.length_singleton]
            omega
    · have hend : vp = pages newsz := by
        have := mt lt_pages.mp hge
        omega
      exact .of_run rfl (.inl ⟨rfl, h, hend ▸ hg, Nat.le_add_right _ _⟩)

/-- Growing to `newsz`: all the pages up to there, or none. -/
theorem Inv.allocuvm {oldsz newsz : ℕ} (h : Inv L root held 0 s) (hi : root i ≠ 0)
    (hold : oldsz ≤ newsz) (hnew : newsz < KERNBASE)
    (hE : ∀ vq, pages oldsz ≤ vq → vq < pages newsz → Present (s.pte (root i) vq) → E .remap) :
    Triple E (· = s) (allocuvm L (root i) oldsz newsz)
      (GrowOutcome L root held i (pages oldsz) (pages newsz - pages oldsz) newsz s s) := by
  have hfuel : USERPAGES < NPDENTRIES * NPTENTRIES := by decide
  rw [PageTables.allocuvm, if_neg (by omega), if_neg (by omega),
    PGROUNDUP_eq (hold.trans hnew.le)]
  exact h.allocLoop hi .refl le_rfl (pages_mono hold) hnew (Nat.lt_add_left _ hfuel) hE

/-! ## Filling a new address space -/

omit [DecidableEq κ] in
theorem Fresh.grown {r lo vp : ℕ} {perm : ℕ → ℕ} {content : ℕ → Bytes}
    (hs : Inv L root held mem s) (h : Fresh L root held mem i s r t)
    (hu : Inv L (Function.update root i r) held mem u) (hperm : ∀ vq, perm vq < PGSIZE)
    (hg : Grown (Function.update root i r) i lo vp perm content t u) :
    Fresh L root held mem i s r u := by
  have hroot : Function.update root i r i = r := Function.update_self ..
  have hr := h.ne_zero hs
  have hgrows := hg.grows
  rw [hroot] at hgrows
  refine ⟨hu, h.new, fun g hg => h.sub g (hgrows.sub g hg), fun g hgs => ?_, fun d hd => ?_,
    fun vq hvq => ?_⟩
  · have ho : t.Outside r g :=
      ⟨fun hc => hgs (hc ▸ h.new), fun d hd hc => hgs (hc ▸ h.table d hd)⟩
    rw [hgrows.page g (fun hc => hgs (h.sub g hc)) ho, h.page g hgs]
  · rcases hgrows.fresh d with hf | hf
    · exact hf ▸ h.table d (hf ▸ hd)
    · exact h.sub _ hf
  · have hframe := hg.frame hperm (by rwa [hroot]) vq
    rw [hroot] at hframe
    rcases hframe with hf | hf | hf
    · exact hf ▸ h.frame vq (hf ▸ hvq)
    · exact h.sub _ hf
    · exact absurd hf hvq

omit [DecidableEq κ] in
theorem Fresh.growFailed {r lo newsz : ℕ} (hs : Inv L root held 0 s)
    (h : Fresh L root held 0 i s r t)
    (hg : GrowFailed L (Function.update root i r) held 0 i lo newsz t u) :
    Fresh L root held 0 i s r u := by
  have hroot : Function.update root i r i = r := Function.update_self ..
  have hr := h.ne_zero hs
  have hfresh := hg.fresh
  have hfreed := hg.freed
  have hpage := hg.page
  rw [hroot] at hfresh hfreed hpage
  have hsub : ∀ g ∈ u.freelist, g ∈ s.freelist := by
    intro g hgu
    have hg0 : g ≠ 0 := hg.inv.free_ne_zero hgu
    rcases hfreed g hgu with hgt | ⟨vq, rfl⟩
    · exact h.sub g hgt
    · exact h.frame vq hg0
  refine ⟨hg.inv, h.new, hsub, fun g hgs => ?_, fun d hd => ?_, fun vq hvq => ?_⟩
  · have ho : t.Outside r g :=
      ⟨fun hc => hgs (hc ▸ h.new), fun d hd hc => hgs (hc ▸ h.table d hd)⟩
    rw [hpage g (fun hc => hgs (h.sub g hc)) (fun hc => hgs (hsub g hc)) ho, h.page g hgs]
  · rcases hfresh d with hf | hf
    · exact hf ▸ h.table d (hf ▸ hd)
    · exact h.sub _ hf
  · by_cases hin : lo ≤ vq ∧ vq * PGSIZE < newsz
    · have hgone := hg.gone vq hin.1 hin.2
      rw [hroot] at hgone
      exact absurd (if_neg (fun hc => hgone hc.2)) hvq
    · have hpte := hg.other i vq (by rwa [hroot]) (fun hc => hin hc.2)
      rw [hroot] at hpte
      have hf := frame_congr hpte
      exact hf ▸ h.frame vq (hf ▸ hvq)

/-! ## copyuvm -/

/-- The permissions and the contents of the pages that `r` maps. -/
def flagsOf (s : Mem) (r vq : ℕ) : ℕ := PTE_FLAGS (s.pte r vq)

def contentOf (s : Mem) (r vq : ℕ) : Bytes := s.page (pageOf (s.pte r vq))

theorem flagsOf_lt (s : Mem) (r vq : ℕ) : flagsOf s r vq < PGSIZE := Nat.mod_lt _ (by decide)

omit [DecidableEq ι] [DecidableEq κ] in
/-- The page allocated last is given back. -/
theorem Grown.unfill {lo vp b : ℕ} {perm : ℕ → ℕ} {content : ℕ → Bytes}
    (h : Grown root i lo vp perm content s t) (hperm : ∀ vq, perm vq < PGSIZE) (hi : root i ≠ 0)
    (ht : Inv L root held b t) (hb : b ∈ s.freelist) (hb0 : b ≠ 0) (hvp : vp ≤ USERPAGES) :
    Grown root i lo vp perm content s (t.free b) := by
  have hplain : Plain root t b := ht.plain_of_place (p := .mem) rfl hb0 (by simp) (by simp)
  have hsame : Same root t (t.free b) := hplain.same (v := fun _ => 1)
  refine ⟨⟨fun g hg => ?_, fun g hg ho => ?_, fun d hd => ?_, fun d => ?_⟩,
    fun j vq hj hne => ?_, fun vq hlo hlt => ?_, fun d hd => ?_⟩
  · rcases List.mem_cons.mp hg with rfl | hg
    · exact hb
    · exact h.grows.sub g hg
  · rw [← h.grows.page g hg ho]
    refine Function.update_of_ne ?_ _ _
    rintro rfl
    exact hg hb
  · rw [hsame.table hi, h.grows.table d hd]
  · rw [hsame.table hi]
    exact h.grows.fresh d
  · rw [hsame.pte hj, h.other j vq hj hne]
  · obtain ⟨f, hf, hpte, hnew⟩ := h.new vq hlo hlt
    have hpres : Present (t.pte (root i) vq) := hpte ▸ present_entry
    have hne : f ≠ b := by
      rintro rfl
      have hown : own root held f t (.user i vq : Place ι κ) = f := by
        rw [own_present hi (by omega) hpres, hpte, pageOf_pte (hperm vq)]
      exact absurd (ht.owns.inj (.user i vq) .mem hown (hown ▸ hb0)) (by simp)
    refine ⟨f, hf, by rw [hsame.pte hi, hpte], ?_⟩
    rw [← hnew]
    exact Function.update_of_ne hne _ _
  · rw [hsame.table hi, h.kernel d hd]

theorem Inv.copyuvmLoop {fuel vp sz : ℕ} (h₀ : Inv L root held 0 s) (h : Inv L root held 0 t)
    (hi : root i ≠ 0) (hj : root j ≠ 0) (hij : i ≠ j)
    (hg : Grown root j 0 vp (flagsOf s (root i)) (contentOf s (root i)) s t)
    (hsz : sz ≤ KERNBASE) (hvp : vp ≤ pages sz) (hfuel : USERPAGES < vp + fuel)
    (hempty : ∀ vq, vq < USERPAGES → ¬ Present (s.pte (root j) vq))
    (hE : ∀ vq, vq < pages sz → ¬ Present (s.pte (root i) vq) → E .copyuvm) :
    Triple E (· = t) (copyuvmLoop L (root i) (root j) sz fuel (vp * PGSIZE)) (fun ok u =>
      Inv L root held 0 u ∧ ∃ vp' ≤ pages sz,
        Grown root j 0 vp' (flagsOf s (root i)) (contentOf s (root i)) s u ∧
        (ok = true → vp' = pages sz)) := by
  have hmax := pages_le hsz
  have hpages : USERPAGES = 524288 := rfl
  have hperm := flagsOf_lt s (root i)
  induction fuel generalizing vp t with
  | zero => omega
  | succ fuel ih =>
    rw [PageTables.copyuvmLoop]
    refine .ite (fun hlt => ?_) (fun hge => ?_)
    · have hlt' : vp < pages sz := lt_pages.mpr hlt
      have hvp' : vp < USERPAGES := by omega
      have hva : vp * PGSIZE < 2 ^ 32 := by
        change vp * 4096 < 4294967296
        omega
      have hsame : t.pte (root i) vp = s.pte (root i) vp := hg.other i vp hi (fun hc => hij hc.1)
      by_cases htab : t.table (root i) (vp / 1024) = 0
      · refine .run_bind (h.walk_missing hi hva (by rwa [page_div])) (.throw (hE vp hlt' ?_))
        rw [← hsame, pte_of_table htab]
        exact not_present_zero
      have hw : walkpgdir (root i) (vp * PGSIZE) false t = .ok (some (t.ptr (root i) vp), t) := by
        rw [walk_found hva (by rwa [page_div]), page_div]
      have hload : load (t.ptr (root i) vp) t = .ok (s.pte (root i) vp, t) := by
        rw [← hsame, pte_eq_read htab]
        rfl
      refine .run_bind hw (.run_bind hload (.ite (fun hp => .throw (hE vp hlt' ?_)) fun hp => ?_))
      · exact fun hc => hc hp
      cases hs : t.freelist with
      | nil =>
        refine .run_bind (kalloc_nil hs) (.of_run rfl ⟨h, vp, hvp, hg, by simp⟩)
      | cons b rest =>
        have hb : b ∈ t.freelist := hs ▸ List.mem_cons_self
        have hb57 : b < 57344 := (h.free_range b hb).2
        have hb0 : b ≠ 0 := h.free_ne_zero hb
        have hparent := h₀.user_frame hi hvp' hp
        have hcontent : t.page (pageOf (s.pte (root i) vp)) = contentOf s (root i) vp :=
          hg.grows.page _ hparent.1 (hparent.2 j hj)
        obtain ⟨hmem, hsame', -⟩ := h.alloc_fill hs (v := contentOf s (root i) vp)
        have hfill := hg.fill hperm hj h hs hvp'.le (v := contentOf s (root i) vp)
        have hcopy : (modify (fun s' : Mem => s'.setPage b
            (s'.page (pageOf (s.pte (root i) vp)))) : Kernel Unit) { t with freelist := rest } =
            .ok ((), { t with freelist := rest }.setPage b (contentOf s (root i) vp)) := by
          rw [← hcontent]
          rfl
        refine .run_bind (kalloc_cons hs) (.run_bind hcopy ?_)
        refine .bind (hmem.mappages_user (E := E) hj hb0 (by omega) hvp' (hperm vp) ?_)
          fun ok => .of_eq fun u hu => ?_
        · rw [hsame'.pte hj, hg.other j vp hj (fun hc => by omega)]
          exact fun hc => absurd hc (hempty vp hvp')
        · cases ok with
          | true =>
            rw [if_pos rfl, next_page, Nat.mod_eq_of_lt (by omega : vp + 1 < 2 ^ 20)]
            exact ih hu.1 (hfill.snoc hperm (by omega) hj hmem (hg.grows.sub b hb) hb0 hvp'
              setPage_page_self hu.2) (by omega) (by omega)
          | false =>
            obtain ⟨rfl, -⟩ := hu
            have hrange := hmem.owns.range .mem hb0
            refine .run_bind (kfree_run hrange.1 hrange.2) (.of_run rfl ⟨hmem.unalloc hb0, vp, hvp,
              hfill.unfill hperm hj hmem (hg.grows.sub b hb) hb0 hvp'.le, by simp⟩)
    · have hend : vp = pages sz := by
        have := mt lt_pages.mp hge
        omega
      exact .of_run rfl ⟨h, vp, hvp, hg, fun _ => hend⟩

/-- The copy of an address space: the same permissions and contents below `sz`, in pages of its
own, and nothing else. -/
structure SpaceCopy (r sz : ℕ) (s : Mem) (d : ℕ) (t : Mem) : Prop where
  same : ∀ vq, vq < pages sz → ∃ f ∈ s.freelist,
    t.pte d vq = f * PGSIZE ||| flagsOf s r vq ||| PTE_P ∧ t.page f = contentOf s r vq
  none : ∀ vq, pages sz ≤ vq → vq < USERPAGES → t.pte d vq = 0

theorem Inv.copyuvm {sz : ℕ} (h : Inv L root held 0 s) (hi : root i ≠ 0) (hj : root j = 0)
    (hsz : sz ≤ KERNBASE)
    (hE : ∀ vq, vq < pages sz → ¬ Present (s.pte (root i) vq) → E .copyuvm) :
    Triple E (· = s) (copyuvm L (root i) sz) (fun x t => match x with
      | none => Inv L root held 0 t ∧ (∀ g, g ∈ t.freelist ↔ g ∈ s.freelist) ∧
          ∀ g, g ∉ s.freelist → t.page g = s.page g
      | some d => Fresh L root held 0 j s d t ∧
          ((∀ vq, vq < pages sz → Present (s.pte (root i) vq)) → SpaceCopy (root i) sz s d t)) := by
  refine .bind (h.setupkvm hj) fun x => .of_eq fun t ht => ?_
  cases x with
  | none => exact .of_run rfl ⟨ht.inv, ht.free, ht.page⟩
  | some d =>
    have hij : i ≠ j := fun hc => hi (hc ▸ hj)
    have hri : Function.update root j d i = root i := Function.update_of_ne hij ..
    have hrj : Function.update root j d j = d := Function.update_self ..
    have hd := ht.ne_zero h
    have hsame := h.same_of_page ht.page
    have hfuel : USERPAGES < 0 + NPDENTRIES * NPTENTRIES := by decide
    have hloop := ht.inv.copyuvmLoop (E := E) ht.inv (i := i) (j := j) (by rwa [hri])
      (by rwa [hrj]) hij .refl hsz (Nat.zero_le _) hfuel (fun vq hvq hp => by
        rw [hrj, ht.empty vq hvq] at hp
        exact not_present_zero hp) (fun vq hvq hp => hE vq hvq (by
        rwa [hri, hsame.pte hi] at hp))
    rw [hri, hrj, Nat.zero_mul] at hloop
    refine .bind hloop fun ok => .of_eq fun u ⟨hu, vp, hvp, hg, hok⟩ => ?_
    have hfresh := ht.toFresh.grown h hu (flagsOf_lt t (root i)) hg
    refine .ite (fun hok' => ?_) (fun _ => ?_)
    · obtain rfl := hok hok'
      refine .of_run rfl ⟨hfresh, fun hall => ⟨fun vq hvq => ?_, fun vq hle hlt => ?_⟩⟩
      · obtain ⟨f, hf, hpte, hpage⟩ := hg.new vq (Nat.zero_le _) hvq
        have hvp : vq < USERPAGES := hvq.trans_le (pages_le hsz)
        have hframe := (h.user_frame hi hvp (hall vq hvq)).1
        rw [hrj, flagsOf, hsame.pte hi] at hpte
        rw [contentOf, hsame.pte hi, ht.page _ hframe] at hpage
        exact ⟨f, ht.sub f hf, hpte, hpage⟩
      · have hother := hg.other j vq (by rwa [hrj]) (fun hc => by omega)
        rwa [hrj, ht.empty vq hlt] at hother
    · obtain ⟨v, hrun, hv, hfree, hkeep⟩ := hfresh.freevm h hj
      exact .run_bind hrun (.of_run rfl ⟨hv, hfree, hkeep⟩)

end Ostep.PageTables

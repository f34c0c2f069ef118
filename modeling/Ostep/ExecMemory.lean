import Ostep.ExecCall
import Ostep.UserSpaces

/-!
# The memory of a new image

The pages that `exec` allocates, fills and guards are all new, so giving them back leaves memory
as it was. Up to its size the image has every page.
-/

namespace Ostep.PageTables
open ByteWords Hoare Ownership

variable {ι κ : Type*} [DecidableEq ι] [DecidableEq κ] {L : Symbols} {root : ι → ℕ} {held : κ → ℕ}
  {s t u : Mem} {i : ι} {F : Fault → Prop} {r sz vp : ℕ}

/-- The directory `r` maps the pages up to `sz`, all of them for the user and all of them new. -/
structure Loaded (L : Symbols) (root : ι → ℕ) (held : κ → ℕ) (i : ι) (s : Mem) (r sz : ℕ)
    (t : Mem) : Prop extends Fresh L root held 0 i s r t where
  lt : sz < KERNBASE
  user : ∀ vp, vp < pages sz → Present (t.pte r vp) ∧ User (t.pte r vp)
  none : ∀ vp, pages sz ≤ vp → vp < USERPAGES → ¬ Present (t.pte r vp)

omit [DecidableEq κ] in
theorem NewSpace.loaded (h : NewSpace L root held 0 i s r t) : Loaded L root held i s r 0 t where
  toFresh := h.toFresh
  lt := by decide
  user vp hvp := absurd hvp (Nat.not_lt_zero vp)
  none vp _ hvp := by
    rw [h.empty vp hvp]
    exact not_present_zero

theorem Loaded.allocuvm (hs : Inv L root held 0 s) (h : Loaded L root held i s r sz t) {newsz : ℕ} :
    Triple F (· = t) (allocuvm L r sz newsz) (fun q u =>
      (q = 0 ∧ Fresh L root held 0 i s r u) ∨
        (q ≠ 0 ∧ q = max sz newsz ∧ Loaded L root held i s r q u)) := by
  have hroot : Function.update root i r i = r := Function.update_self ..
  have hr : Function.update root i r i ≠ 0 := by
    rw [hroot]
    exact h.ne_zero hs
  by_cases hmax : KERNBASE ≤ newsz
  · rw [PageTables.allocuvm, if_pos hmax]
    exact .of_run rfl (.inl ⟨rfl, h.toFresh⟩)
  have hmax := Nat.not_le.mp hmax
  by_cases hold : newsz < sz
  · rw [PageTables.allocuvm, if_neg (Nat.not_le.mpr hmax), if_pos hold]
    exact .of_run rfl (.inr ⟨by omega, (max_eq_left hold.le).symm, h⟩)
  have hold := Nat.not_lt.mp hold
  have hrun := h.inv.allocuvm (E := F) hr hold hmax fun vq hge hlt hp => by
    rw [hroot] at hp
    exact absurd hp (h.none vq hge (below_user hmax.le hlt))
  rw [hroot] at hrun
  refine hrun.weaken fun q u hout => ?_
  rcases hout with ⟨rfl, hu, hg, -⟩ | ⟨rfl, hg, -⟩
  · have hfresh := h.toFresh.grown hs hu (fun _ => by decide) hg
    by_cases h0 : q = 0
    · exact .inl ⟨h0, hfresh⟩
    refine .inr ⟨h0, (max_eq_right hold).symm, hfresh, hmax, fun vp hvp => ?_, fun vp hge hvp => ?_⟩
    · by_cases hlo : pages sz ≤ vp
      · obtain ⟨f, -, hpte, -⟩ := hg.new vp hlo hvp
        rw [hroot] at hpte
        rw [hpte]
        exact ⟨present_entry, user_entry.mpr (by decide)⟩
      · have hpte := hg.other i vp hr (fun hc => hlo hc.2.1)
        rw [hroot] at hpte
        rw [hpte]
        exact h.user vp (by omega)
    · have hpte := hg.other i vp hr (fun hc => by omega)
      rw [hroot] at hpte
      rw [hpte]
      have := pages_mono hold
      exact h.none vp (by omega) hvp
  · exact .inl ⟨rfl, h.toFresh.growFailed hs hg⟩

omit [DecidableEq κ] in
/-- The tables and the entries of the directory under construction. -/
theorem Fresh.same (hs : Inv L root held 0 s) (h : Fresh L root held 0 i s r t)
    (hsame : Same (Function.update root i r) t u) :
    (∀ d, u.table r d = t.table r d) ∧ ∀ vq, u.pte r vq = t.pte r vq := by
  have hroot : Function.update root i r i = r := Function.update_self ..
  have hr : Function.update root i r i ≠ 0 := by
    rw [hroot]
    exact h.ne_zero hs
  rw [← hroot]
  exact ⟨fun d => hsame.table hr, fun vq => hsame.pte hr⟩

omit [DecidableEq κ] in
/-- Bytes are written to a page of the image. -/
theorem Fresh.setUser (hs : Inv L root held 0 s) (h : Fresh L root held 0 i s r t)
    (hvp : vp < USERPAGES) (hp : Present (t.pte r vp)) (v : Bytes) :
    Fresh L root held 0 i s r (t.setPage (pageOf (t.pte r vp)) v) ∧
      Same (Function.update root i r) t (t.setPage (pageOf (t.pte r vp)) v) := by
  have hroot : Function.update root i r i = r := Function.update_self ..
  have hr : Function.update root i r i ≠ 0 := by
    rw [hroot]
    exact h.ne_zero hs
  have hframe := h.inv.user_frame hr hvp (by rwa [hroot])
  rw [hroot] at hframe
  have hsame := hframe.2.same (v := v)
  have hself : t.frame r vp = pageOf (t.pte r vp) := if_pos ⟨hvp, hp⟩
  have hne : pageOf (t.pte r vp) ≠ 0 := by
    have := h.inv.frame_ne i vp hr hvp (by rwa [hroot])
    rwa [hroot] at this
  have hnew : pageOf (t.pte r vp) ∈ s.freelist := hself ▸ h.frame vp (hself ▸ hne)
  obtain ⟨htable, hpte⟩ := h.same hs hsame
  refine ⟨⟨h.inv.setPage hframe.2, h.new, h.sub, fun g hg => ?_, fun d hd => ?_, fun vq hvq => ?_⟩,
    hsame⟩
  · rw [setPage_page_of_ne (fun hc => hg (by rwa [hc])), h.page g hg]
  · rw [htable] at hd ⊢
    exact h.table d hd
  · rw [frame_congr (hpte vq)] at hvq ⊢
    exact h.frame vq hvq

omit [DecidableEq κ] in
theorem Loaded.setUser (hs : Inv L root held 0 s) (h : Loaded L root held i s r sz t)
    (hvp : vp < pages sz) (v : Bytes) :
    Loaded L root held i s r sz (t.setPage (pageOf (t.pte r vp)) v) := by
  obtain ⟨hfresh, hsame⟩ := h.toFresh.setUser hs (below_user h.lt.le hvp) (h.user vp hvp).1 v
  have hpte := (h.toFresh.same hs hsame).2
  refine ⟨hfresh, h.lt, fun vq hvq => ?_, fun vq hge hvq => ?_⟩
  · rw [hpte]
    exact h.user vq hvq
  · rw [hpte]
    exact h.none vq hge hvq

/-! ## The guard page -/

/-- An image with two pages more, of which the user has the upper one for a stack. -/
structure Guarded (L : Symbols) (root : ι → ℕ) (held : κ → ℕ) (i : ι) (s : Mem) (r n : ℕ)
    (t : Mem) : Prop extends Fresh L root held 0 i s r t where
  lt : (n + 2) * PGSIZE < KERNBASE
  present : ∀ vp, vp < n + 2 → Present (t.pte r vp)
  user : ∀ vp, vp < n + 2 → vp ≠ n → User (t.pte r vp)
  guard : ¬ User (t.pte r n)

theorem pages_mul (n : ℕ) : pages (n * PGSIZE) = n := by
  have h1 := le_pages (n * PGSIZE)
  have h2 : pages (n * PGSIZE) ≤ n := by
    by_contra hc
    have := lt_pages.mp (Nat.not_le.mp hc)
    exact absurd this (lt_irrefl _)
  exact Nat.le_antisymm h2 (Nat.le_of_mul_le_mul_right h1 (by decide))

omit [DecidableEq κ] in
/-- The size may be rounded up. -/
theorem Loaded.roundup (h : Loaded L root held i s r sz t) (hlt : pages sz * PGSIZE < KERNBASE) :
    Loaded L root held i s r (pages sz * PGSIZE) t where
  toFresh := h.toFresh
  lt := hlt
  user vp hvp := h.user vp (by rwa [pages_mul] at hvp)
  none vp hvp := h.none vp (by rwa [pages_mul] at hvp)

/-- The two pages of the stack, or no memory for them. -/
theorem Loaded.allocStack (hs : Inv L root held 0 s) (h : Loaded L root held i s r sz t)
    {newsz : ℕ} (hnewsz : newsz = (PGROUNDUP sz + 2 * PGSIZE) % 2 ^ 32) :
    Triple F (· = t) (PageTables.allocuvm L r (PGROUNDUP sz) newsz) (fun q u =>
      (q = 0 ∧ Fresh L root held 0 i s r u) ∨
        (q ≠ 0 ∧ q = (pages sz + 2) * PGSIZE ∧ Loaded L root held i s r q u)) := by
  have hbase : KERNBASE = 2147483648 := rfl
  have hpages : pages sz * PGSIZE ≤ 2147483648 := by
    have hlt : sz < 2147483648 := h.lt
    change (sz + 4095) / 4096 * 4096 ≤ _
    omega
  have hnew : (pages sz * PGSIZE + 2 * PGSIZE) % 2 ^ 32 = (pages sz + 2) * PGSIZE := by
    rw [← Nat.add_mul]
    refine Nat.mod_eq_of_lt ?_
    rw [Nat.add_mul]
    exact Nat.lt_of_le_of_lt (Nat.add_le_add_right hpages _) (by decide)
  rw [PGROUNDUP_eq h.lt.le] at hnewsz ⊢
  rw [hnewsz, hnew]
  by_cases hlt : pages sz * PGSIZE < KERNBASE
  · refine ((h.roundup hlt).allocuvm hs).weaken fun q u hq => ?_
    rwa [Nat.max_eq_right (Nat.mul_le_mul_right _ (Nat.le_add_right _ 2))] at hq
  · rw [PageTables.allocuvm, if_pos]
    · exact .of_run rfl (.inl ⟨rfl, h.toFresh⟩)
    · rw [Nat.add_mul]
      exact (Nat.not_lt.mp hlt).trans (Nat.le_add_right _ _)

/-- What `clearpteu` does to the directory under construction. -/
theorem Loaded.clearpteu (hs : Inv L root held 0 s) {n : ℕ}
    (h : Loaded L root held i s r ((n + 2) * PGSIZE) t) :
    ∃ u, clearpteu r (n * PGSIZE) t = .ok ((), u) ∧ Guarded L root held i s r n u := by
  have hroot : Function.update root i r i = r := Function.update_self ..
  have hr : Function.update root i r i ≠ 0 := by
    rw [hroot]
    exact h.ne_zero hs
  have hpages := pages_mul (n + 2)
  have huser : n < USERPAGES := below_user h.lt.le (by omega)
  have hpres := (h.user n (by omega)).1
  have htab : t.table r (n / 1024) ≠ 0 := present_pte_table hpres
  have htab' : t.table (Function.update root i r i) (n / 1024) ≠ 0 := by rwa [hroot]
  have hrun := clearpteu_run (i := i) (page_lt (user_lt huser))
    (show t.table (Function.update root i r i) (n * PGSIZE / PGSIZE / 1024) ≠ 0 by rwa [page_div])
  rw [page_div, hroot] at hrun
  have hclear := h.inv.clear hr htab'
  rw [hroot] at hclear
  set e := t.pte r n &&& (2 ^ 32 - 1 - PTE_U) with he
  have helt : t.pte r n < 2 ^ 32 := by
    rw [pte_eq_read htab]
    exact read_lt _ _
  have hxlt : e < 2 ^ 32 := Nat.lt_of_le_of_lt Nat.and_le_left helt
  set u := t.write (t.ptr r n) e with hu
  have hself : u.pte r n = e := by
    have := h.inv.pte_write hr htab' hxlt
    rwa [hroot] at this
  have hother : ∀ vq, vq ≠ n → u.pte r vq = t.pte r vq := fun vq hvq => by
    have hne : ¬ (i = i ∧ vq = n) := fun hc => hvq hc.2
    have hw := h.inv.pte_write_of_ne hr htab' (x := e) hr hne
    rwa [hroot] at hw
  have htable : ∀ d, u.table r d = t.table r d := fun d => by
    have hw : (t.write (t.ptr (Function.update root i r i) n) e).table
        (Function.update root i r i) d = t.table (Function.update root i r i) d :=
      h.inv.table_write hr hr
    rwa [hroot] at hw
  have hframe : ∀ vq, u.frame r vq = t.frame r vq := fun vq => by
    by_cases hvq : vq = n
    · rw [hvq, Mem.frame, Mem.frame, hself, he, pageOf_clear helt]
      simp only [present_clear]
    · exact frame_congr (hother vq hvq)
  refine ⟨u, hrun, ⟨⟨hclear, h.new, h.sub, fun g hg => ?_, fun d hd => ?_, fun vq hvq => ?_⟩, h.lt,
    fun vp hvp => ?_, fun vp hvp hne => ?_, ?_⟩⟩
  · have hne : g ≠ (t.ptr r n).1 := fun hc => hg (by rw [hc]; exact h.table _ htab)
    rw [write_page_of_ne hne, h.page g hg]
  · rw [htable] at hd ⊢
    exact h.table d hd
  · rw [hframe] at hvq ⊢
    exact h.frame vq hvq
  · by_cases hne : vp = n
    · rw [hne, hself, he, present_clear]
      exact hpres
    · rw [hother vp hne]
      exact (h.user vp (by omega)).1
  · rw [hother vp hne]
    exact (h.user vp (by omega)).2
  · rw [hself, he]
    exact not_user_clear

/-! ## Pushing on the stack -/

omit [DecidableEq κ] in
theorem Fresh.copyoutLoop (hs : Inv L root held 0 s) (h : Fresh L root held 0 i s r t) {fuel va : ℕ}
    {buf : List UInt8} (hva : va < 2 ^ 32) :
    Triple (fun _ => True) (· = t) (copyoutLoop r fuel va buf)
      (fun _ u => Fresh L root held 0 i s r u) := by
  have hroot : Function.update root i r i = r := Function.update_self ..
  have hr : Function.update root i r i ≠ 0 := by
    rw [hroot]
    exact h.ne_zero hs
  induction fuel generalizing va buf t with
  | zero => exact .throw trivial
  | succ fuel ih =>
    rcases Nat.eq_zero_or_pos buf.length with h0 | hpos
    · obtain rfl := List.eq_nil_of_length_eq_zero h0
      exact .of_run copyoutLoop_done h
    by_cases hu : t.UserAt r va
    · rw [← hroot] at hu
      obtain ⟨hvp, hp⟩ := h.inv.userAt_page hr hva hu
      have hloc : t.loc r va = (pageOf (t.pte r (va / PGSIZE)), va % PGSIZE) := by
        have hlook := h.inv.lookup hr hva
        rw [if_neg (present_pte_table hp)] at hlook
        rw [Mem.loc, ← hroot, hlook]
        rfl
      have hw := h.inv.uva2ka_some hr hva hu
      rw [hroot, hloc] at hw
      rw [hroot] at hp
      rintro x rfl
      rw [copyoutLoop_some hpos hw]
      exact ih (h.setUser hs hvp hp _).1 (Nat.mod_lt _ (by decide)) _ rfl
    · by_cases ht : t.TableAt r va
      · rw [← hroot] at hu ht
        have hw := h.inv.uva2ka_none hr hva ht hu
        rw [hroot] at hw
        exact .of_run (copyoutLoop_none hpos hw) h
      · rw [← hroot] at ht
        have hw := h.inv.uva2ka_null hr hva ht
        rw [hroot] at hw
        rintro x rfl
        rw [copyoutLoop_null hpos hw]
        trivial

omit [DecidableEq κ] in
theorem Fresh.copyout (hs : Inv L root held 0 s) (h : Fresh L root held 0 i s r t) {va : ℕ}
    {buf : List UInt8} (hva : va < 2 ^ 32) :
    Triple (fun _ => True) (· = t) (copyout r va buf) (fun _ u => Fresh L root held 0 i s r u) :=
  h.copyoutLoop hs hva

end Ostep.PageTables

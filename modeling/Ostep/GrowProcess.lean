import Ostep.UserSpaces

/-!
# growproc

`growproc` takes the new size from `allocuvm` or `deallocuvm` and treats 0 as their failure. What
it should do, it does when the size stays positive; shrinking to nothing gives the pages back and
reports a failure, and shrinking below nothing wraps around and reports success.
-/

namespace Ostep.PageTables
open ByteWords Hoare Ownership TransitionSystem

variable {ι κ : Type*} {L : Symbols} {root : ι → ℕ} {held : κ → ℕ} {mem : ℕ} {s t u : Mem}
  {i j : ι} {p : Proc} {n : ℤ}

/-- The user pages that `r` maps are those below `sz`. -/
def MapsBelow (s : Mem) (r sz : ℕ) : Prop :=
  ∀ vp, vp < USERPAGES → ((s.mapping r vp).isSome ↔ vp * PGSIZE < PGROUNDUP sz)

/-- The process has `n` bytes more: new pages are zero and the others as they were. -/
structure Resized (s : Mem) (p : Proc) (n : ℤ) (p' : Proc) (t : Mem) : Prop where
  sz : (p'.sz : ℤ) = p.sz + n
  pgdir : p'.pgdir = p.pgdir
  below : MapsBelow t p.pgdir p'.sz
  zero : ∀ vp f fl, vp < USERPAGES → s.mapping p.pgdir vp = none →
    t.mapping p.pgdir vp = some (f, fl) → t.page f = fun _ => 0
  same : ∀ vp f fl, vp < USERPAGES → s.mapping p.pgdir vp = some (f, fl) →
    (t.mapping p.pgdir vp).isSome → t.mapping p.pgdir vp = some (f, fl) ∧ t.page f = s.page f

/-- What is asked of `growproc`. -/
def GrowprocMeets (L : Symbols) (s : Mem) (p : Proc) (n : ℤ) : Prop :=
  ∃ r p' t, growproc L p n s = .ok ((r, p'), t) ∧ (r = 0 ∨ r = -1) ∧
    (r = 0 → Resized s p n p' t) ∧ (r = -1 → p' = p ∧ Untouched s p.pgdir t)

/-! ## From the new size to the result -/

section Run
variable (hk : p.kstack ≠ 0) (hp : p.pgdir ≠ 0)
include hk hp

theorem growproc_result {q : ℕ} {f : Kernel ℕ} (hf : f s = .ok (q, t)) :
    (f >>= fun sz => if n ≠ 0 ∧ sz = 0 then (return (-1, p) : Kernel (ℤ × Proc))
      else do
        switchuvm { p with sz := sz }
        return (0, { p with sz := sz })) s =
      .ok (if n ≠ 0 ∧ q = 0 then (-1, p) else (0, { p with sz := q }), t) := by
  rw [run_bind_ok hf]
  split_ifs with hc
  · rfl
  · have hsw : switchuvm { p with sz := q } t = .ok ((), t) := by
      rw [switchuvm, if_neg hk, if_neg hp]
      rfl
    rw [run_bind_ok hsw]
    rfl

theorem growproc_grow {q : ℕ} (hn : 0 < n)
    (hrun : allocuvm L p.pgdir p.sz (grownSize p.sz n) s = .ok (q, t)) :
    growproc L p n s = .ok (if q = 0 then (-1, p) else (0, { p with sz := q }), t) := by
  have h := growproc_result (n := n) hk hp hrun
  have hne : n ≠ 0 := by omega
  rw [growproc, if_pos hn, h]
  simp only [hne, ne_eq, not_false_eq_true, true_and]

theorem growproc_shrink {q : ℕ} (hn : n < 0)
    (hrun : deallocuvm L p.pgdir p.sz (grownSize p.sz n) s = .ok (q, t)) :
    growproc L p n s = .ok (if q = 0 then (-1, p) else (0, { p with sz := q }), t) := by
  have h := growproc_result (n := n) hk hp hrun
  have hne : n ≠ 0 := by omega
  rw [growproc, if_neg (by omega), if_pos hn, h]
  simp only [hne, ne_eq, not_false_eq_true, true_and]

theorem growproc_stay : growproc L p 0 s = .ok ((0, p), s) := by
  have h := growproc_result (n := 0) (s := s) (t := s) (q := p.sz) (f := pure p.sz) hk hp rfl
  rw [growproc, if_neg (by decide), if_neg (by decide), h]
  rfl

end Run

theorem grownSize_of_nonneg {sz : ℕ} (h : 0 ≤ (sz : ℤ) + n) (hlt : (sz : ℤ) + n < 2 ^ 32) :
    (grownSize sz n : ℤ) = sz + n := by
  rw [grownSize, Int.emod_eq_of_lt h hlt, Int.toNat_of_nonneg h]

theorem grownSize_of_neg {sz : ℕ} (h : (sz : ℤ) + n < 0) (hge : -2 ^ 31 ≤ (sz : ℤ) + n) :
    (grownSize sz n : ℤ) = sz + n + 2 ^ 32 := by
  have hmod : ((sz : ℤ) + n) % 2 ^ 32 = sz + n + 2 ^ 32 := by omega
  rw [grownSize, hmod, Int.toNat_of_nonneg (by omega)]

/-! ## The cases -/

section Cases
variable (h : Inv L root held 0 s) (hi : root i ≠ 0) (hdir : p.pgdir = root i)
  (hsz : p.sz ≤ KERNBASE) (hbelow : MapsBelow s p.pgdir p.sz)
include h hi hdir hsz hbelow

omit hdir hsz hbelow in
theorem Inv.below_present {sz vp : ℕ} (hsz : sz ≤ KERNBASE) (hb : MapsBelow s (root i) sz)
    (hvp : vp < USERPAGES) : Present (s.pte (root i) vp) ↔ vp < pages sz := by
  rw [← h.mapping_isSome hi (user_lt hvp), hb vp hvp, below_iff hsz]

/-- A page that is mapped as before and still in use is as it was. -/
theorem Grown.resized [DecidableEq ι] [DecidableEq κ] {newsz : ℕ} (ht : Inv L root held 0 t)
    (hnew : newsz < KERNBASE) (hle : p.sz ≤ newsz) (hn : (newsz : ℤ) = p.sz + n)
    (hg : Grown root i (pages p.sz) (pages newsz) (fun _ => PTE_W ||| PTE_U) (fun _ _ => 0) s t) :
    Resized s p n { p with sz := newsz } t := by
  rw [hdir] at hbelow
  have hpres : ∀ vp, vp < USERPAGES → (Present (s.pte (root i) vp) ↔ vp < pages p.sz) :=
    fun vp => h.below_present hi hsz hbelow
  have hother : ∀ vp, ¬ (pages p.sz ≤ vp ∧ vp < pages newsz) →
      t.pte (root i) vp = s.pte (root i) vp := fun vp hc => hg.other i vp hi (fun hx => hc hx.2)
  refine ⟨hn, rfl, fun vp hvp => ?_, fun vp f fl hvp hnone hm => ?_, fun vp f fl hvp hm _ => ?_⟩
  · rw [hdir, ht.mapping_isSome hi (user_lt hvp), below_iff hnew.le]
    have hmono := pages_mono hle
    by_cases hin : pages p.sz ≤ vp ∧ vp < pages newsz
    · obtain ⟨f, -, hpte, -⟩ := hg.new vp hin.1 hin.2
      rw [hpte]
      exact iff_of_true present_entry hin.2
    · rw [hother vp hin, hpres vp hvp]
      omega
  · rw [hdir, h.mapping_none hi (user_lt hvp), hpres vp hvp] at hnone
    rw [hdir, ht.mapping_some hi (user_lt hvp)] at hm
    have hin : pages p.sz ≤ vp ∧ vp < pages newsz := by
      by_contra hc
      rw [hother vp hc, hpres vp hvp] at hm
      exact hnone hm.1
    obtain ⟨g, -, hpte, hpage⟩ := hg.new vp hin.1 hin.2
    rw [hpte, pageOf_pte (by decide)] at hm
    rw [← hm.2.1, hpage]
  · rw [hdir] at hm ⊢
    have hm' := (h.mapping_some hi (user_lt hvp)).mp hm
    have hlt := (hpres vp hvp).mp hm'.1
    have hframe := h.user_frame hi hvp hm'.1
    rw [hm'.2.1] at hframe
    refine ⟨?_, hg.grows.page f hframe.1 (hframe.2 i hi)⟩
    rw [ht.mapping_some hi (user_lt hvp), hother vp (by omega)]
    exact hm'

theorem GrowFailed.untouched [DecidableEq ι] [DecidableEq κ] {newsz : ℕ} (hnew : newsz < KERNBASE)
    (hg : GrowFailed L root held 0 i (pages p.sz) newsz s t) : Untouched s p.pgdir t := by
  rw [hdir] at hbelow ⊢
  have hmapping : ∀ vp, vp < 2 ^ 20 → t.mapping (root i) vp = s.mapping (root i) vp := by
    intro vp hvp
    by_cases hin : pages p.sz ≤ vp ∧ vp * PGSIZE < newsz
    · have huser := below_user hnew.le (lt_pages.mpr hin.2)
      rw [(hg.inv.mapping_none hi hvp).mpr (hg.gone vp hin.1 hin.2), eq_comm,
        h.mapping_none hi hvp, h.below_present hi hsz hbelow huser]
      omega
    · rw [hg.inv.mapping hi hvp, h.mapping hi hvp, hg.other i vp hi (fun hc => hin hc.2)]
  refine ⟨hmapping, fun vp f fl hvp hm => ?_⟩
  obtain ⟨ho, hf⟩ := h.mapping_own hi hvp hm
  obtain ⟨ho', -⟩ := hg.inv.mapping_own hi hvp ((hmapping vp (user_lt hvp)).trans hm)
  refine hg.page f (ho ▸ h.not_free (ho ▸ hf)) (ho' ▸ hg.inv.not_free (ho' ▸ hf)) ?_
  exact h.plain_of_place ho hf (by simp) (by simp) i hi

/-- Shrinking to `newsz`. -/
theorem Shrunk.resized {newsz : ℕ} (ht : Inv L root held 0 t) (hle : newsz ≤ p.sz)
    (hn : (newsz : ℤ) = p.sz + n) (hsh : Shrunk root i (pages newsz) p.sz s t) :
    Resized s p n { p with sz := newsz } t := by
  rw [hdir] at hbelow
  have hpres : ∀ vp, vp < USERPAGES → (Present (s.pte (root i) vp) ↔ vp < pages p.sz) :=
    fun vp => h.below_present hi hsz hbelow
  have hnone : ∀ vp, vp < USERPAGES → (Present (t.pte (root i) vp) ↔ vp < pages newsz) := by
    intro vp hvp
    by_cases hin : pages newsz ≤ vp ∧ vp * PGSIZE < p.sz
    · exact iff_of_false (hsh.gone vp hin.1 hin.2) (Nat.not_lt.mpr hin.1)
    · rw [hsh.other i vp hi (fun hc => hin hc.2), hpres vp hvp]
      have hmono := pages_mono hle
      rw [← lt_pages] at hin
      omega
  have hother : ∀ vp, vp < pages newsz → t.pte (root i) vp = s.pte (root i) vp := fun vp hvp =>
    hsh.other i vp hi (fun hc => by omega)
  refine ⟨hn, rfl, fun vp hvp => ?_, fun vp f fl hvp hm hm' => ?_, fun vp f fl hvp hm hsome => ?_⟩
  · rw [hdir, ht.mapping_isSome hi (user_lt hvp), below_iff (hle.trans hsz), hnone vp hvp]
  · rw [hdir] at hm hm'
    rw [h.mapping_none hi (user_lt hvp), hpres vp hvp] at hm
    have hlt := (hnone vp hvp).mp ((ht.mapping_some hi (user_lt hvp)).mp hm').1
    exact absurd (hlt.trans_le (pages_mono hle)) hm
  · rw [hdir] at hm hsome ⊢
    have hlt := (hnone vp hvp).mp ((ht.mapping_isSome hi (user_lt hvp)).mp hsome)
    have hm' : t.mapping (root i) vp = some (f, fl) := by
      rw [ht.mapping hi (user_lt hvp), hother vp hlt, ← h.mapping hi (user_lt hvp)]
      exact hm
    obtain ⟨ho, hf⟩ := h.mapping_own hi hvp hm
    obtain ⟨ho', -⟩ := ht.mapping_own hi hvp hm'
    refine ⟨hm', hsh.page f (ho' ▸ ht.not_free (ho' ▸ hf)) ?_⟩
    exact h.plain_of_place ho hf (by simp) (by simp) i hi

end Cases

/-! ## growproc -/

theorem size_pos {sz : ℕ} (hn : n < 0) (h : (sz : ℤ) + n = 0) : 0 < sz := by omega

theorem GrowprocMeets.failed (hrun : growproc L p n s = .ok ((-1, p), t))
    (hu : Untouched s p.pgdir t) : GrowprocMeets L s p n :=
  ⟨-1, p, t, hrun, .inr rfl, fun hc => absurd hc (by decide), fun _ => ⟨rfl, hu⟩⟩

theorem GrowprocMeets.resized {p' : Proc} (hrun : growproc L p n s = .ok ((0, p'), t))
    (hr : Resized s p n p' t) : GrowprocMeets L s p n :=
  ⟨0, p', t, hrun, .inl rfl, fun _ => hr, fun hc => absurd hc (by decide)⟩

section Meets
variable [DecidableEq ι] [DecidableEq κ] (h : Inv L root held 0 s) (hi : root i ≠ 0)
  (hdir : p.pgdir = root i) (hk : p.kstack ≠ 0) (hsz : p.sz ≤ KERNBASE)
  (hbelow : MapsBelow s p.pgdir p.sz)
include h hi hdir hk hsz hbelow

theorem growproc_meets_grow (hn : 0 < n) (hhi : n < 2 ^ 31) : GrowprocMeets L s p n := by
  have hp : p.pgdir ≠ 0 := hdir ▸ hi
  have hbase : KERNBASE = 2147483648 := rfl
  have hnew : (grownSize p.sz n : ℤ) = p.sz + n :=
    grownSize_of_nonneg (by omega) (by rw [hbase] at hsz; omega)
  by_cases hmax : KERNBASE ≤ grownSize p.sz n
  · have hrun : allocuvm L p.pgdir p.sz (grownSize p.sz n) s = .ok (0, s) := by
      rw [allocuvm, if_pos hmax]
      rfl
    exact .failed (growproc_grow hk hp hn hrun) (.refl _ _)
  · have hmax' := Nat.not_le.mp hmax
    have hle : p.sz ≤ grownSize p.sz n := by omega
    obtain ⟨q, t, hrun, hout⟩ := (h.allocuvm hi hle hmax' (fun vq hge hlt hpres => by
      have huser := below_user hmax'.le hlt
      rw [hdir] at hbelow
      exact absurd ((h.below_present hi hsz hbelow huser).mp hpres) (by omega))).returns
    rw [← hdir] at hrun
    have hres := growproc_grow hk hp hn hrun
    rcases hout with ⟨rfl, ht, hg, -⟩ | ⟨rfl, hg, -⟩
    · rw [if_neg (by omega)] at hres
      exact .resized hres (hg.resized h hi hdir hsz hbelow ht hmax' hle hnew)
    · exact .failed hres (hg.untouched h hi hdir hsz hbelow hmax')

omit [DecidableEq ι] [DecidableEq κ] h hsz in
theorem growproc_meets_stay : GrowprocMeets L s p 0 := by
  refine .resized (growproc_stay hk (hdir ▸ hi)) ⟨by omega, rfl, hbelow, ?_, ?_⟩
  · intro vp f fl _ hm hm'
    rw [hm] at hm'
    exact absurd hm' (by simp)
  · exact fun vp f fl _ hm _ => ⟨hm, rfl⟩

omit hbelow in
/-- `deallocuvm` down to a size that is not negative. -/
theorem growproc_shrinks (hn : n < 0) (hpos : 0 ≤ p.sz + n) :
    ∃ t, growproc L p n s = .ok (if p.sz + n = 0 then (-1, p)
        else (0, { p with sz := grownSize p.sz n }), t) ∧ Inv L root held 0 t ∧
      Shrunk root i (pages (grownSize p.sz n)) p.sz s t := by
  have hp : p.pgdir ≠ 0 := hdir ▸ hi
  have hbase : KERNBASE = 2147483648 := rfl
  have hnew : (grownSize p.sz n : ℤ) = p.sz + n :=
    grownSize_of_nonneg hpos (by rw [hbase] at hsz; omega)
  obtain ⟨t, hrun, ht, hsh⟩ := h.deallocuvm hi hsz (by omega : grownSize p.sz n < p.sz)
  rw [← hdir] at hrun
  refine ⟨t, ?_, ht, hsh⟩
  rw [growproc_shrink hk hp hn hrun]
  have hiff : grownSize p.sz n = 0 ↔ (p.sz : ℤ) + n = 0 := by omega
  simp only [hiff]

omit [DecidableEq ι] [DecidableEq κ] h hsz hbelow in
/-- Below zero the size wraps around to more than the old one. -/
theorem growproc_wraps (hlo : -2 ^ 31 ≤ n) (hneg : p.sz + n < 0) :
    growproc L p n s = .ok (if p.sz = 0 then (-1, p) else (0, p), s) := by
  have hp : p.pgdir ≠ 0 := hdir ▸ hi
  have hnew : (grownSize p.sz n : ℤ) = p.sz + n + 2 ^ 32 := grownSize_of_neg hneg (by omega)
  have hrun : deallocuvm L p.pgdir p.sz (grownSize p.sz n) s = .ok (p.sz, s) := by
    rw [deallocuvm, if_pos (by omega)]
    rfl
  exact growproc_shrink hk hp (by omega) hrun

/-- Shrinking to nothing gives all pages back and returns −1. -/
theorem growproc_misses_zero (hn : n < 0) (hsum : (p.sz : ℤ) + n = 0) : ¬ GrowprocMeets L s p n := by
  obtain ⟨t, hrun, ht, hsh⟩ := growproc_shrinks h hi hdir hk hsz hn (by omega)
  rw [if_pos hsum] at hrun
  rintro ⟨r, p', t', hrun', -, -, hfail⟩
  rw [hrun] at hrun'
  obtain ⟨⟨rfl, rfl⟩, rfl⟩ := by simpa using hrun'
  -- The first page was mapped and is not any more.
  have hnew : pages (grownSize p.sz n) = 0 := by
    rw [grownSize, hsum]
    rfl
  have hpos : 0 * PGSIZE < p.sz := by
    rw [Nat.zero_mul]
    exact size_pos hn hsum
  have huser : 0 < USERPAGES := by decide
  have hpage := user_lt huser
  have hgone := hsh.gone 0 hnew.le hpos
  have hfirst := (hfail rfl).2.mapping 0 hpage
  rw [hdir, (ht.mapping_none hi hpage).mpr hgone, eq_comm, h.mapping_none hi hpage] at hfirst
  rw [hdir] at hbelow
  exact hfirst ((h.below_present hi hsz hbelow huser).mpr (lt_pages.mpr hpos))

end Meets

variable [DecidableEq ι] [DecidableEq κ]

/-- `growproc` does what is asked of it exactly where the process does not shrink to nothing or
below. -/
theorem growproc_meets_iff {s : Sys ι κ} (h : (pageSystem L ι κ).Reachable s) {i : ι}
    (hi : s.root i ≠ 0) (hdir : p.pgdir = s.root i) (hk : p.kstack ≠ 0) (hsz : p.sz ≤ KERNBASE)
    (hbelow : MapsBelow s.mem p.pgdir p.sz) (hlo : -2 ^ 31 ≤ n) (hhi : n < 2 ^ 31) :
    GrowprocMeets L s.mem p n ↔ 0 ≤ n ∨ p.sz = 0 ∨ 0 < p.sz + n := by
  have hinv : PageTables.Inv L s.root s.held 0 s.mem := reachable_inv h
  rcases Int.lt_trichotomy n 0 with hneg | rfl | hpos
  · rcases Int.lt_trichotomy (p.sz + n) 0 with hsum | hsum | hsum
    · have hrun := growproc_wraps (L := L) (s := s.mem) hi hdir hk hlo hsum
      by_cases h0 : p.sz = 0
      · rw [if_pos h0] at hrun
        exact iff_of_true (.failed hrun (.refl _ _)) (.inr (.inl h0))
      · rw [if_neg h0] at hrun
        refine iff_of_false ?_ (by omega)
        rintro ⟨r, p', t, hrun', -, hzero, -⟩
        rw [hrun] at hrun'
        obtain ⟨⟨rfl, rfl⟩, -⟩ := by simpa using hrun'
        have := (hzero rfl).sz
        omega
    · exact iff_of_false (growproc_misses_zero hinv hi hdir hk hsz hbelow hneg hsum) (by omega)
    · obtain ⟨t, hrun, ht, hsh⟩ := growproc_shrinks hinv hi hdir hk hsz hneg (by omega)
      have hbase : KERNBASE = 2147483648 := rfl
      have hnew : (grownSize p.sz n : ℤ) = p.sz + n :=
        grownSize_of_nonneg (by omega) (by rw [hbase] at hsz; omega)
      rw [if_neg (by omega)] at hrun
      exact iff_of_true (.resized hrun
        (hsh.resized hinv hi hdir hsz hbelow ht (by omega) hnew)) (.inr (.inr hsum))
  · exact iff_of_true (growproc_meets_stay hi hdir hk hbelow) (.inl (Int.le_refl 0))
  · exact iff_of_true (growproc_meets_grow hinv hi hdir hk hsz hbelow hpos hhi) (.inl (Int.le_of_lt hpos))

theorem OneProcess.mapsBelow {sz : ℕ} {s : Sys Unit Unit} (h : OneProcess sz s)
    (hsz : sz ≤ KERNBASE) : MapsBelow s.mem (s.root ()) sz := by
  intro vp hvp
  have hinv : PageTables.Inv bootSymbols s.root s.held 0 s.mem := reachable_inv h.reachable
  rw [hinv.mapping_isSome h.root_ne (user_lt hvp), below_iff hsz]
  refine ⟨fun hp => ?_, fun hlt => (h.user vp hlt).1⟩
  by_contra hge
  rw [h.none vp (Nat.not_lt.mp hge) hvp] at hp
  exact not_present_zero hp

theorem growproc_meets_iff_page : ∃ s : Sys Unit Unit, OneProcess 0x1000 s ∧
    (GrowprocMeets bootSymbols s.mem ⟨s.root (), 0x1000, s.held ()⟩ 0x1234 ↔
      (0 : ℤ) ≤ 0x1234 ∨ 0x1000 = 0 ∨ (0 : ℤ) < (0x1000 : ℕ) + 0x1234) := by
  obtain ⟨s, hs⟩ := exists_oneProcess (show 0x1000 ≤ 0x100000 by decide)
  have hsz : 0x1000 ≤ KERNBASE := by decide
  exact ⟨s, hs, growproc_meets_iff (p := ⟨s.root (), 0x1000, s.held ()⟩) hs.reachable hs.root_ne rfl
    hs.kstack_ne hsz (hs.mapsBelow hsz) (by decide) (by decide)⟩

/-- `sbrk(-4096)` in a process of one page. -/
theorem growproc_misses_page : ∃ s : Sys Unit Unit, OneProcess 0x1000 s ∧
    MapsBelow s.mem (s.root ()) 0x1000 ∧
    ¬ GrowprocMeets bootSymbols s.mem ⟨s.root (), 0x1000, s.held ()⟩ (-0x1000) := by
  obtain ⟨s, hs⟩ := exists_oneProcess (show 0x1000 ≤ 0x100000 by decide)
  have hinv : PageTables.Inv bootSymbols s.root s.held 0 s.mem := reachable_inv hs.reachable
  have hsz : 0x1000 ≤ KERNBASE := by decide
  have hbelow := hs.mapsBelow hsz
  have hsum : ((0x1000 : ℕ) : ℤ) + -0x1000 = 0 := by decide
  exact ⟨s, hs, hbelow, growproc_misses_zero (p := ⟨s.root (), 0x1000, s.held ()⟩) hinv hs.root_ne
    rfl hs.kstack_ne hsz hbelow (by decide) hsum⟩

end Ostep.PageTables

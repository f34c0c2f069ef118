import Ostep.AddressSpaces
import Mathlib.Data.List.Perm.Subperm

/-!
# New address spaces

While `fork` and `exec` build an address space, all its pages come from the free list, so giving
it up restores what was there before. `setupkvm` starts one: it has the kernel's mappings and
nothing below `KERNBASE`.
-/

namespace Ostep.PageTables
open ByteWords Hoare Ownership

variable {ι κ : Type*} [DecidableEq ι] [DecidableEq κ] {L : Symbols} {root : ι → ℕ} {held : κ → ℕ}
  {mem : ℕ} {s t u : Mem} {i j : ι} {E : Fault → Prop}

/-- `t` is `s` with a page directory `r` for `i` under construction: all its pages were free in
`s`, and the pages in use in `s` are as they were. -/
structure Fresh (L : Symbols) (root : ι → ℕ) (held : κ → ℕ) (mem : ℕ) (i : ι) (s : Mem) (r : ℕ)
    (t : Mem) : Prop where
  inv : Inv L (Function.update root i r) held mem t
  new : r ∈ s.freelist
  sub : ∀ g ∈ t.freelist, g ∈ s.freelist
  page : ∀ g, g ∉ s.freelist → t.page g = s.page g
  table : ∀ d, t.table r d ≠ 0 → t.table r d ∈ s.freelist
  frame : ∀ vq, t.frame r vq ≠ 0 → t.frame r vq ∈ s.freelist

omit [DecidableEq κ] in
theorem Fresh.ne_zero {r : ℕ} (hs : Inv L root held mem s) (h : Fresh L root held mem i s r t) :
    r ≠ 0 :=
  hs.free_ne_zero h.new

/-- Giving up an address space under construction leaves everything as it was. -/
theorem Fresh.freevm {r : ℕ} (hs : Inv L root held mem s) (hi : root i = 0)
    (h : Fresh L root held mem i s r t) :
    ∃ u, freevm L r t = .ok ((), u) ∧ Inv L root held mem u ∧
      (∀ g, g ∈ u.freelist ↔ g ∈ s.freelist) ∧ ∀ g, g ∉ s.freelist → u.page g = s.page g := by
  have hroot : Function.update root i r i = r := Function.update_self ..
  obtain ⟨u, hrun, hu, -, hfreed, hpage⟩ := h.inv.freevm (by rw [hroot]; exact h.ne_zero hs)
  rw [hroot] at hrun hfreed
  have hback : Function.update (Function.update root i r) i 0 = root := by
    rw [Function.update_idem, ← hi, Function.update_eq_self]
  rw [hback] at hu
  have hsub : ∀ g ∈ u.freelist, g ∈ s.freelist := by
    intro g hg
    have hg0 : g ≠ 0 := hu.free_ne_zero hg
    rcases hfreed g hg with hg | rfl | ⟨d, rfl⟩ | ⟨vq, rfl⟩
    · exact h.sub g hg
    · exact h.new
    · exact h.table d hg0
    · exact h.frame vq hg0
  have hkeep : ∀ g, g ∉ s.freelist → u.page g = s.page g := fun g hg =>
    (hpage g (fun hc => hg (hsub g hc))).trans (h.page g hg)
  exact ⟨u, hrun, hu, fun g => hs.free_iff hu (hs.same_of_page hkeep).own, hkeep⟩

/-! ## setupkvm -/

/-- A mapping of the kernel is that of the page numbers from `vp` to `vl`. -/
structure Kmap.Covers (k : Kmap) (vp vl pb : ℕ) : Prop where
  le : vp ≤ vl
  lt : vl < 2 ^ 20
  virt : k.virt = vp * PGSIZE
  last : PGROUNDDOWN
    ((k.virt + (k.physEnd + 2 ^ 32 - k.physStart) % 2 ^ 32 + (2 ^ 32 - 1)) % 2 ^ 32) = vl * PGSIZE
  phys : k.physStart = pb * PGSIZE
  pb_lt : pb < 2 ^ 20
  perm_lt : k.perm < PGSIZE
  perm_user : ¬ User k.perm
  part : vl < 568 * 1024 ∨ 1016 * 1024 ≤ vp

/-- The mappings follow each other. -/
def Segments : ℕ → List Kmap → Prop
  | _, [] => True
  | lo, k :: ks => ∃ vp vl pb, lo ≤ vp ∧ k.Covers vp vl pb ∧ Segments (vl + 1) ks

theorem PGROUNDDOWN_last {vp vl size : ℕ} (hle : vp ≤ vl) (hlt : vl < 2 ^ 20)
    (hsize : size = (vl + 1 - vp) * PGSIZE) :
    PGROUNDDOWN ((vp * PGSIZE + size + (2 ^ 32 - 1)) % 2 ^ 32) = vl * PGSIZE := by
  have hp : PGSIZE = 4096 := rfl
  obtain ⟨n, rfl⟩ : ∃ n, vl = vp + n := ⟨vl - vp, by omega⟩
  have hn : vp + n + 1 - vp = n + 1 := by omega
  rw [PGROUNDDOWN, hsize, hn, hp]
  omega

/-- The kernel's text ends a page before `data`. -/
theorem kmap_text {d : ℕ} (hd : 524544 < d) (hd' : d ≤ 581631) :
    (⟨524544 * PGSIZE, V2P (524544 * PGSIZE), V2P (d * PGSIZE), 0⟩ : Kmap).Covers
      524544 (d - 1) 256 where
  le := by omega
  lt := by omega
  virt := rfl
  last := by
    have hdata : V2P (d * PGSIZE) = d * 4096 - 2147483648 := rfl
    have hlink : V2P (524544 * PGSIZE) = 1048576 := rfl
    have hp : PGSIZE = 4096 := rfl
    refine PGROUNDDOWN_last (by omega) (by omega) ?_
    dsimp only
    rw [hdata, hlink, hp]
    omega
  phys := rfl
  pb_lt := by decide
  perm_lt := show 0 < PGSIZE by decide
  perm_user := show ¬ User 0 by decide
  part := .inl (by omega)

theorem kmap_data {d : ℕ} (hd : 524544 < d) (hd' : d ≤ 581631) :
    (⟨d * PGSIZE, V2P (d * PGSIZE), PHYSTOP, PTE_W⟩ : Kmap).Covers d 581631 (d - 524288) where
  le := by omega
  lt := by decide
  virt := rfl
  last := by
    have hdata : V2P (d * PGSIZE) = d * 4096 - 2147483648 := rfl
    have hstop : PHYSTOP = 234881024 := rfl
    have hp : PGSIZE = 4096 := rfl
    refine PGROUNDDOWN_last (by omega) (by decide) ?_
    dsimp only
    rw [hdata, hstop, hp]
    omega
  phys := by
    have hp : PGSIZE = 4096 := rfl
    change d * 4096 - 2147483648 = _
    rw [hp]
    omega
  pb_lt := by omega
  perm_lt := show PTE_W < PGSIZE by decide
  perm_user := show ¬ User PTE_W by decide
  part := .inl (by decide)

theorem kmap_segments (L : Symbols) : Segments USERPAGES (kmap L) := by
  have htext : 0x80100000 < L.data := L.text
  have hal : L.data % 4096 = 0 := L.aligned
  have hbss := L.bss
  have hfits : L.endAddr < 0x80000000 + 0xE000000 := L.fits
  obtain ⟨d, hd⟩ : ∃ d, L.data = d * PGSIZE := by
    refine ⟨L.data / 4096, ?_⟩
    rw [show PGSIZE = 4096 from rfl]
    omega
  have hd' : L.data = d * 4096 := hd
  have hio : (⟨KERNBASE, 0, EXTMEM, PTE_W⟩ : Kmap).Covers 524288 524543 0 := by
    constructor <;> decide
  have hdev : (⟨DEVSPACE, DEVSPACE, 0, PTE_W⟩ : Kmap).Covers 1040384 1048575 1040384 := by
    constructor <;> decide
  have hlink : KERNLINK = 524544 * PGSIZE := rfl
  rw [kmap, hd, hlink]
  exact ⟨_, _, _, le_rfl, hio, _, _, _, le_rfl, kmap_text (by omega) (by omega), _, _, _, by omega,
    kmap_data (by omega) (by omega), _, _, _, by omega, hdev, trivial⟩

/-- The directory `r` gains kernel mappings at or above the page number `lo` only. -/
structure KernelMapped (root : ι → ℕ) (i : ι) (lo : ℕ) (s t : Mem) : Prop where
  grows : Grows (root i) s t
  other : ∀ j vq, root j ≠ 0 → ¬ (j = i ∧ lo ≤ vq) → t.pte (root j) vq = s.pte (root j) vq
  only : ∀ d, t.table (root i) d = s.table (root i) d ∨ 512 ≤ d ∧ (d < 568 ∨ 1016 ≤ d)

theorem Inv.mappages_kernel {k : Kmap} {vp vl pb : ℕ} (h : Inv L root held mem s) (hi : root i ≠ 0)
    (hlo : USERPAGES ≤ vp) (hk : k.Covers vp vl pb)
    (hfree : ∀ vq, vp ≤ vq → ¬ Present (s.pte (root i) vq)) :
    Triple E (· = s) (mappages (root i) k.virt ((k.physEnd + 2 ^ 32 - k.physStart) % 2 ^ 32)
      k.physStart k.perm) (fun ok t => Inv L root held mem t ∧ MappedIn root i vp vl s t ∧
        (ok = false → t.freelist = [])) := by
  have hfuel : vl < vp + NPDENTRIES * NPTENTRIES := by
    have := hk.lt
    rw [show NPDENTRIES * NPTENTRIES = 2 ^ 20 by decide]
    omega
  have hdown : PGROUNDDOWN k.virt = vp * PGSIZE := by rw [hk.virt, PGROUNDDOWN, page_div]
  rw [mappages, hk.last, hdown, hk.phys]
  exact h.mapLoop_kernel hi hlo hk.le hk.lt hfuel hk.pb_lt hk.perm_lt hk.perm_user
    (fun vq hvq _ => hfree vq hvq)

theorem Inv.mapAll {ks : List Kmap} {lo : ℕ} (h : Inv L root held mem s) (hi : root i ≠ 0)
    (hlo : USERPAGES ≤ lo) (hks : Segments lo ks)
    (hfree : ∀ vq, lo ≤ vq → ¬ Present (s.pte (root i) vq)) :
    Triple E (· = s) (mapAll (root i) ks) (fun ok t => Inv L root held mem t ∧
      KernelMapped root i lo s t ∧ (ok = false → t.freelist = [])) := by
  induction ks generalizing lo s with
  | nil => exact .of_run rfl ⟨h, ⟨.refl _ _, fun _ _ _ _ => rfl, fun _ => .inl rfl⟩, by simp⟩
  | cons k ks ih =>
    obtain ⟨vp, vl, pb, hle, hk, hrest⟩ := hks
    have hpages : USERPAGES = 512 * 1024 := rfl
    have hvl := hk.le
    refine .bind (h.mappages_kernel hi (hlo.trans hle) hk (fun vq hvq => hfree vq (hle.trans hvq)))
      fun ok => .of_eq fun t ⟨ht, hin, hok⟩ => ?_
    have hmapped : KernelMapped root i lo s t := by
      refine ⟨hin.grows, fun j vq hj hne => hin.other j vq hj ?_, fun d => ?_⟩
      · exact fun hc => hne ⟨hc.1, hle.trans hc.2.1⟩
      · rcases hin.only d with hd | hd
        · exact .inl hd
        · have hpart := hk.part
          exact .inr ⟨by omega, by omega⟩
    refine .ite (fun _ => ?_) (fun hok' => ?_)
    · refine (ih ht (by omega) hrest fun vq hvq => ?_).weaken fun ok' u ⟨hu, hku, hok'⟩ => ?_
      · rw [hin.other i vq hi (fun hc => by omega)]
        exact hfree vq (by omega)
      · refine ⟨hu, ⟨hmapped.grows.trans hku.grows, fun j vq hj hne => ?_, fun d => ?_⟩, hok'⟩
        · rw [hku.other j vq hj (fun hc => hne ⟨hc.1, by omega⟩), hmapped.other j vq hj hne]
        · rcases hku.only d with hd | hd
          · rw [hd]
            exact hmapped.only d
          · exact .inr hd
    · exact .of_run rfl ⟨ht, hmapped, fun _ => hok (by simpa using hok')⟩

/-- `t` has the new page directory `r` for `i`, which maps nothing below `KERNBASE`. -/
structure NewSpace (L : Symbols) (root : ι → ℕ) (held : κ → ℕ) (mem : ℕ) (i : ι) (s : Mem) (r : ℕ)
    (t : Mem) : Prop extends Fresh L root held mem i s r t where
  empty : ∀ vq, vq < USERPAGES → t.pte r vq = 0
  kernel_table : ∀ d, t.table r d ≠ 0 → 512 ≤ d ∧ (d < 568 ∨ 1016 ≤ d)

/-- `setupkvm` fails only where memory ran out, and then leaves everything as it was. -/
structure NoSpace (L : Symbols) (root : ι → ℕ) (held : κ → ℕ) (mem : ℕ) (i : ι) (s t : Mem) :
    Prop where
  inv : Inv L root held mem t
  free : ∀ g, g ∈ t.freelist ↔ g ∈ s.freelist
  page : ∀ g, g ∉ s.freelist → t.page g = s.page g
  full : s.freelist = [] ∨ ∃ r u, NewSpace L root held mem i s r u ∧ u.freelist = []

theorem Inv.setupkvm (h : Inv L root held mem s) (hi : root i = 0) :
    Triple E (· = s) (setupkvm L) (fun x t => match x with
      | none => NoSpace L root held mem i s t
      | some r => NewSpace L root held mem i s r t) := by
  cases hs : s.freelist with
  | nil =>
    refine .run_bind (kalloc_nil hs) (.of_run rfl ?_)
    exact ⟨h, fun _ => Iff.rfl, fun _ _ => rfl, .inl hs⟩
  | cons r rest =>
    refine .run_bind (kalloc_cons hs) ?_
    set s₁ := { s with freelist := rest }.setPage r (fun _ => 0) with hs₁
    have hr : r ∈ s.freelist := hs ▸ List.mem_cons_self
    have hr0 : r ≠ 0 := h.free_ne_zero hr
    have h₁ : Inv L (Function.update root i r) held mem s₁ := h.newRoot hi hs
    have hroot : Function.update root i r i = r := Function.update_self ..
    have htab : ∀ d, s₁.table r d = 0 := fun d => table_zero setPage_page_self
    have hpte : ∀ vq, s₁.pte r vq = 0 := fun vq => pte_of_table (htab _)
    have hmap := h₁.mapAll (E := E) (by rwa [hroot]) le_rfl (kmap_segments L) (fun vq _ => by
      rw [hroot, hpte]
      exact not_present_zero)
    rw [hroot] at hmap
    refine .run_bind (t := s₁) rfl (.ite (fun hc => absurd hc (by decide)) fun _ => ?_)
    refine .bind hmap fun ok => .of_eq fun t ⟨ht, hk, hok⟩ => ?_
    have hgrows := hk.grows
    rw [hroot] at hgrows
    have hempty : ∀ vq, vq < USERPAGES → t.pte r vq = 0 := by
      intro vq hvq
      have := hk.other i vq (by rwa [hroot]) (fun hc => by omega)
      rwa [hroot, hpte] at this
    have hnew : NewSpace L root held mem i s r t := by
      refine ⟨⟨ht, hr, fun g hg => ?_, fun g hg => ?_, fun d hd => ?_, fun vq hvq => ?_⟩, hempty,
        fun d hd => ?_⟩
      · exact hs ▸ List.mem_cons_of_mem r (hgrows.sub g hg)
      · have hne : g ≠ r := fun hc => hg (hc ▸ hr)
        have hg₁ : g ∉ s₁.freelist := fun hc => hg (hs ▸ List.mem_cons_of_mem r hc)
        rw [hgrows.page g hg₁ ⟨hne, fun d hd => absurd (htab d) hd⟩]
        exact setPage_page_of_ne hne
      · rcases hgrows.fresh d with hf | hf
        · exact absurd (hf.trans (htab d)) hd
        · exact hs ▸ List.mem_cons_of_mem r hf
      · refine absurd (if_neg fun hc => not_present_zero ?_) hvq
        rw [← hempty vq hc.1]
        exact hc.2
      · have honly := hk.only d
        rw [hroot, htab] at honly
        exact honly.resolve_left hd
    refine .ite (fun _ => .of_run rfl hnew) fun hfail => ?_
    obtain ⟨u, hrun, hu, hfree, hkeep⟩ := hnew.toFresh.freevm h hi
    exact .run_bind hrun (.of_run rfl ⟨hu, hfree, hkeep,
      .inr ⟨r, t, hnew, hok (by simpa using hfail)⟩⟩)

/-! ## How many pages it takes -/

omit [DecidableEq κ] in
/-- A page that was free is still free or belongs to the new address space. -/
theorem Fresh.free_or_own {r f : ℕ} (hs : Inv L root held mem s)
    (h : Fresh L root held mem i s r t) (hf : f ∈ s.freelist) :
    f ∈ t.freelist ∨ f = r ∨ (∃ d, t.table r d = f) ∨ ∃ vq, t.frame r vq = f := by
  have hroot : Function.update root i r i = r := Function.update_self ..
  have hr := h.ne_zero hs
  by_cases hft : f ∈ t.freelist
  · exact .inl hft
  obtain ⟨hlo, hhi⟩ := hs.free_range f hf
  obtain ⟨p, hp⟩ := (h.inv.owns.used_iff f hlo hhi).mp (used_eq_true.mpr hft)
  have hf0 := hs.free_ne_zero hf
  have hsame := hs.same_of_page h.page
  -- Whoever else holds it held it before.
  have hold : own (Function.update root i r) held mem t p ≠ own root held mem s p := by
    intro he
    rw [hp] at he
    exact hs.not_free (he ▸ hf0) (he ▸ hf)
  cases p with
  | mem | other => exact absurd rfl hold
  | root j =>
    by_cases hj : j = i
    · rw [hj] at hp
      exact .inr (.inl (hp.symm.trans hroot))
    · exact absurd (Function.update_of_ne hj _ _) hold
  | table j d =>
    by_cases hj : j = i
    · rw [hj, own_table (by rwa [hroot]), hroot] at hp
      exact .inr (.inr (.inl ⟨d, hp⟩))
    · refine absurd ?_ hold
      rw [← hsame.own]
      simp only [own, Function.update_of_ne hj]
  | user j vq =>
    by_cases hj : j = i
    · rw [hj, own_user (by rwa [hroot]), hroot] at hp
      exact .inr (.inr (.inr ⟨vq, hp⟩))
    · refine absurd ?_ hold
      rw [← hsame.own]
      simp only [own, Function.update_of_ne hj]

omit [DecidableEq κ] in
/-- It has its directory and its page tables. -/
theorem NewSpace.length {r : ℕ} (hs : Inv L root held mem s)
    (h : NewSpace L root held mem i s r t) :
    s.freelist.length ≤ t.freelist.length + (1 + NPDENTRIES) := by
  have hsub : s.freelist ⊆ t.freelist ++ r :: (List.range NPDENTRIES).map (t.table r) := by
    intro f hf
    have hf0 := hs.free_ne_zero hf
    rcases h.free_or_own hs hf with hft | rfl | ⟨d, rfl⟩ | ⟨vq, rfl⟩
    · exact List.mem_append_left _ hft
    · exact List.mem_append_right _ List.mem_cons_self
    · refine List.mem_append_right _ (List.mem_cons_of_mem _ (List.mem_map_of_mem ?_))
      exact List.mem_range.mpr (table_lt hf0)
    · refine absurd (if_neg fun hc => not_present_zero ?_) hf0
      rw [← h.empty vq hc.1]
      exact hc.2
  have hle := (hs.nodup.subperm hsub).length_le
  simp only [List.length_append, List.length_cons, List.length_map, List.length_range] at hle
  omega

theorem Inv.setupkvm_enough (h : Inv L root held mem s) (hi : root i = 0)
    (hlen : 1 + NPDENTRIES < s.freelist.length) :
    ∃ r t, PageTables.setupkvm L s = .ok (some r, t) ∧ NewSpace L root held mem i s r t := by
  obtain ⟨x, t, hrun, hout⟩ := (h.setupkvm hi).returns
  cases x with
  | some r => exact ⟨r, t, hrun, hout⟩
  | none =>
    rcases hout.full with hnil | ⟨r, u, hu, hnil⟩
    · rw [hnil] at hlen
      exact absurd hlen (Nat.not_lt_zero _)
    · have := hu.length h
      rw [hnil, List.length_nil] at this
      omega

end Ostep.PageTables

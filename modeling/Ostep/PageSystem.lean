import Ostep.Copyout
import Ostep.TransitionSystem

/-!
# Runs of the memory functions

The kernel's other parts use physical memory through the functions of vm.c and kalloc.c, and by
writing to pages that they hold or that a process maps. A run is any sequence of such calls that
return, on any number of address spaces; every page stays in one place.
-/

namespace Ostep.PageTables
open ByteWords Hoare Ownership TransitionSystem

variable {ι κ : Type*} [DecidableEq ι] [DecidableEq κ] {L : Symbols} {root : ι → ℕ} {held : κ → ℕ}
  {mem : ℕ}

/-- Memory with the page directories in use, by name, and the pages held elsewhere. -/
structure Sys (ι κ : Type*) where
  mem : Mem
  root : ι → ℕ
  held : κ → ℕ

/-- A call, and the address spaces it is about. `write` is a store to a user page, or to a page
such as a kernel stack or a pipe's. -/
inductive Call (ι κ : Type*) where
  | setupkvm (i : ι)
  | allocuvm (i : ι) (oldsz newsz : ℕ)
  | deallocuvm (i : ι) (oldsz newsz : ℕ)
  | clearpteu (i : ι) (uva : ℕ)
  | copyuvm (i j : ι) (sz : ℕ)
  | freevm (i : ι)
  | copyout (i : ι) (va : ℕ) (buf : List UInt8)
  | kalloc (k : κ)
  | kfree (k : κ)
  | write (f : ℕ) (v : Bytes)

/-- The page `f` is mapped by a process or held elsewhere. -/
def Sys.Data (s : Sys ι κ) (f : ℕ) : Prop :=
  f ≠ 0 ∧ ((∃ i vp, own s.root s.held 0 s.mem (.user i vp : Place ι κ) = f) ∨ ∃ k, s.held k = f)

/-- A call that returns. Sizes are at most `KERNBASE` where the callers see to it. -/
def Sys.step (L : Symbols) (s : Sys ι κ) : Call ι κ → Sys ι κ → Prop
  | .setupkvm i, t => s.root i = 0 ∧ ∃ r m, setupkvm L s.mem = .ok (r, m) ∧
      t = ⟨m, Function.update s.root i (r.getD 0), s.held⟩
  | .allocuvm i oldsz newsz, t => s.root i ≠ 0 ∧ oldsz < 2 ^ 32 ∧ newsz < 2 ^ 32 ∧
      ∃ r m, allocuvm L (s.root i) oldsz newsz s.mem = .ok (r, m) ∧ t = { s with mem := m }
  | .deallocuvm i oldsz newsz, t => s.root i ≠ 0 ∧ oldsz ≤ KERNBASE ∧
      ∃ r m, deallocuvm L (s.root i) oldsz newsz s.mem = .ok (r, m) ∧ t = { s with mem := m }
  | .clearpteu i uva, t => s.root i ≠ 0 ∧ uva < 2 ^ 32 ∧
      ∃ m, clearpteu (s.root i) uva s.mem = .ok ((), m) ∧ t = { s with mem := m }
  | .copyuvm i j sz, t => s.root i ≠ 0 ∧ s.root j = 0 ∧ sz ≤ KERNBASE ∧
      ∃ r m, copyuvm L (s.root i) sz s.mem = .ok (r, m) ∧
        t = ⟨m, Function.update s.root j (r.getD 0), s.held⟩
  | .freevm i, t => s.root i ≠ 0 ∧ ∃ m, freevm L (s.root i) s.mem = .ok ((), m) ∧
      t = ⟨m, Function.update s.root i 0, s.held⟩
  | .copyout i va buf, t => s.root i ≠ 0 ∧ va < 2 ^ 32 ∧ buf.length < 2 ^ 32 ∧
      ∃ r m, copyout (s.root i) va buf s.mem = .ok (r, m) ∧ t = { s with mem := m }
  | .kalloc k, t => s.held k = 0 ∧ ∃ f m, kalloc s.mem = .ok (f, m) ∧
      t = ⟨m, s.root, Function.update s.held k (f.getD 0)⟩
  | .kfree k, t => s.held k ≠ 0 ∧ ∃ m, kfree L (s.held k) s.mem = .ok ((), m) ∧
      t = ⟨m, s.root, Function.update s.held k 0⟩
  | .write f v, t => s.Data f ∧ t = { s with mem := s.mem.setPage f v }

/-- There is no address space yet, and every page is free or held somewhere. -/
def Sys.boot (L : Symbols) (s : Sys ι κ) : Prop :=
  (∀ i, s.root i = 0) ∧ s.mem.freelist.Nodup ∧
    (∀ f ∈ s.mem.freelist, L.first ≤ f ∧ f < NPAGES) ∧
    (∀ k, s.held k ≠ 0 → L.first ≤ s.held k ∧ s.held k < NPAGES) ∧
    (∀ k l, s.held k = s.held l → s.held k ≠ 0 → k = l) ∧
    ∀ f, L.first ≤ f → f < NPAGES → (f ∉ s.mem.freelist ↔ ∃ k, s.held k = f)

def pageSystem (L : Symbols) (ι κ : Type*) [DecidableEq ι] [DecidableEq κ] :
    System (Sys ι κ) (Call ι κ) where
  init := Sys.boot L
  step := Sys.step L

def Sys.Inv (L : Symbols) (s : Sys ι κ) : Prop := PageTables.Inv L s.root s.held 0 s.mem

omit [DecidableEq ι] [DecidableEq κ] in
theorem Symbols.first_pos (L : Symbols) : 0 < L.first := by
  have htext : 0x80100000 < L.data := L.text
  have hbss := L.bss
  have hfits : L.endAddr < 0x80000000 + 0xE000000 := L.fits
  have hfirst : L.first = ((L.endAddr + 4095) % 2 ^ 32 / 4096 * 4096 - 0x80000000) / 4096 := rfl
  omega

omit [DecidableEq ι] [DecidableEq κ] in
theorem Sys.boot_inv {s : Sys ι κ} (h : s.boot L) : s.Inv L := by
  obtain ⟨hroot, hnodup, hfree, hheld, hinj, huse⟩ := h
  refine ⟨⟨?_, ?_, ?_⟩, hnodup, hfree, ⟨L.first_pos, ?_, ?_, ?_, ?_⟩⟩
  · exact fun i _ hi => absurd (hroot i) hi
  · exact fun i _ hi => absurd (hroot i) hi
  · exact fun i _ hi => absurd (hroot i) hi
  · intro b hb
    rw [used_eq_true]
    exact fun hc => absurd (hfree b hc).1 (by omega)
  · intro p hp
    cases p with
    | other k => exact hheld k hp
    | root i | table i d | user i vp => simp [own, hroot] at hp
    | mem => simp [own] at hp
  · intro p q he hp
    cases p with
    | other k =>
      cases q with
      | other l => rw [hinj k l he hp]
      | root i | table i d | user i vp =>
        have h0 : s.held k = 0 := by simpa [own, hroot] using he
        exact absurd h0 hp
      | mem =>
        have h0 : s.held k = 0 := by simpa [own] using he
        exact absurd h0 hp
    | root i | table i d | user i vp => simp [own, hroot] at hp
    | mem => simp [own] at hp
  · intro b hlo hhi
    rw [used_eq_true, huse b hlo hhi]
    constructor
    · rintro ⟨k, hk⟩
      exact ⟨.other k, hk⟩
    · rintro ⟨p, hp⟩
      have hb : b ≠ 0 := by
        have := L.first_pos
        omega
      cases p with
      | other k => exact ⟨k, hp⟩
      | root i | table i d | user i vp => simp [own, hroot] at hp; exact absurd hp.symm hb
      | mem => simp [own] at hp; exact absurd hp.symm hb

omit [DecidableEq ι] [DecidableEq κ] in
theorem Inv.of_same {s t : Mem} (h : Inv L root held mem s) (hsame : Same root s t)
    (hfree : t.freelist = s.freelist) : Inv L root held mem t where
  toShaped := h.toShaped.same hsame
  nodup := hfree ▸ h.nodup
  free_range := hfree ▸ h.free_range
  owns := by
    have hused : t.used = s.used := by
      funext f
      simp only [Mem.used, hfree]
    rw [hsame.own, hused]
    exact h.owns

omit [DecidableEq ι] [DecidableEq κ] in
theorem Inv.copyout_inv {s t : Mem} {i : ι} {va : ℕ} {buf : List UInt8} {r : ℤ}
    (h : Inv L root held mem s) (hi : root i ≠ 0) (hva : va < 2 ^ 32) (hbuf : buf.length < 2 ^ 32)
    (hrun : copyout (root i) va buf s = .ok (r, t)) : Inv L root held mem t := by
  have hout : CopyOutcome root i s va buf (copyout (root i) va buf s) :=
    h.copyoutLoop hi hva hbuf.le (Nat.lt_succ_self _)
  rw [hrun] at hout
  have hkeep : ∀ (q : ℤ) (bytes : List UInt8), (∃ t', (Except.ok (r, t) : Except Fault _) =
      .ok (q, t') ∧ Same root s t' ∧ Stored (root i) s va bytes t') → Inv L root held mem t := by
    rintro q bytes ⟨t', he, hsame, hst⟩
    obtain ⟨-, rfl⟩ := Prod.ext_iff.mp (Except.ok.inj he)
    exact h.of_same hsame hst.freelist
  rcases all_or_first (fun k => s.UserAt (root i) (nth va k)) buf.length with
    hall | ⟨k, hk, hbefore, hnot⟩
  · exact hkeep 0 buf (hout.all hall)
  · obtain ⟨hfail, hnull⟩ := hout.first k hk hbefore hnot
    by_cases htab : s.TableAt (root i) (nth va k)
    · exact hkeep (-1) _ (hfail htab)
    · exact absurd (hnull htab) (by simp)

theorem Inv.allocuvm_inv {s t : Mem} {i : ι} {oldsz newsz r : ℕ} (h : Inv L root held 0 s)
    (hi : root i ≠ 0) (hrun : PageTables.allocuvm L (root i) oldsz newsz s = .ok (r, t)) :
    Inv L root held 0 t := by
  by_cases hnew : KERNBASE ≤ newsz
  · rw [PageTables.allocuvm, if_pos hnew] at hrun
    obtain ⟨-, rfl⟩ := run_pure.mp hrun
    exact h
  by_cases hold : newsz < oldsz
  · rw [PageTables.allocuvm, if_neg hnew, if_pos hold] at hrun
    obtain ⟨-, rfl⟩ := run_pure.mp hrun
    exact h
  have hout := (h.allocuvm (E := fun _ => True) hi (Nat.not_lt.mp hold) (Nat.not_le.mp hnew)
    (fun _ _ _ _ => trivial)).ok rfl hrun
  rcases hout with ⟨-, ht, -⟩ | ⟨-, ht, -⟩
  · exact ht
  · exact ht.inv

theorem Inv.deallocuvm_inv {s t : Mem} {i : ι} {oldsz newsz r : ℕ} (h : Inv L root held mem s)
    (hi : root i ≠ 0) (hold : oldsz ≤ KERNBASE)
    (hrun : PageTables.deallocuvm L (root i) oldsz newsz s = .ok (r, t)) : Inv L root held mem t := by
  by_cases hle : oldsz ≤ newsz
  · rw [PageTables.deallocuvm, if_pos hle] at hrun
    obtain ⟨-, rfl⟩ := run_pure.mp hrun
    exact h
  obtain ⟨u, hu, hinv, -⟩ := h.deallocuvm hi hold (Nat.not_le.mp hle)
  rw [hu] at hrun
  obtain ⟨-, rfl⟩ := Prod.ext_iff.mp (Except.ok.inj hrun)
  exact hinv

omit [DecidableEq ι] in
theorem clearpteu_run {s : Mem} {i : ι} {uva : ℕ} (hva : uva < 2 ^ 32)
    (ht : s.table (root i) (uva / PGSIZE / 1024) ≠ 0) :
    clearpteu (root i) uva s = .ok ((), s.write (s.ptr (root i) (uva / PGSIZE))
      (s.pte (root i) (uva / PGSIZE) &&& (2 ^ 32 - 1 - PTE_U))) := by
  have hload : load (s.ptr (root i) (uva / PGSIZE)) s = .ok (s.pte (root i) (uva / PGSIZE), s) := by
    rw [pte_eq_read ht]
    rfl
  rw [clearpteu, run_bind_ok (walk_found hva ht)]
  exact run_bind_ok hload

theorem Inv.clearpteu_inv {s t : Mem} {i : ι} {uva : ℕ} (h : Inv L root held mem s)
    (hi : root i ≠ 0) (hva : uva < 2 ^ 32) (hrun : clearpteu (root i) uva s = .ok ((), t)) :
    Inv L root held mem t := by
  by_cases ht : s.table (root i) (uva / PGSIZE / 1024) = 0
  · rw [clearpteu, run_bind_ok (h.walk_missing hi hva ht)] at hrun
    exact (run_throw.mp hrun).elim
  · rw [clearpteu_run hva ht] at hrun
    obtain ⟨-, rfl⟩ := Prod.ext_iff.mp (Except.ok.inj hrun)
    exact h.clear hi ht

/-- Every call that returns leaves each page in one place. -/
theorem Sys.step_inv {s t : Sys ι κ} {c : Call ι κ} (h : s.Inv L) (hstep : s.step L c t) :
    t.Inv L := by
  have hself : ∀ i, s.root i = 0 → Function.update s.root i 0 = s.root := fun i hi => by
    rw [← hi, Function.update_eq_self]
  cases c with
  | setupkvm i =>
    obtain ⟨hi, r, m, hrun, rfl⟩ := hstep
    have hout := (PageTables.Inv.setupkvm (E := fun _ => True) h hi).ok rfl hrun
    cases r with
    | none =>
      have hinv : PageTables.Inv L s.root s.held 0 m := hout.inv
      rw [← hself i hi] at hinv
      exact hinv
    | some d => exact hout.inv
  | allocuvm i oldsz newsz =>
    obtain ⟨hi, -, -, r, m, hrun, rfl⟩ := hstep
    exact PageTables.Inv.allocuvm_inv h hi hrun
  | deallocuvm i oldsz newsz =>
    obtain ⟨hi, hold, r, m, hrun, rfl⟩ := hstep
    exact PageTables.Inv.deallocuvm_inv h hi hold hrun
  | clearpteu i uva =>
    obtain ⟨hi, hva, m, hrun, rfl⟩ := hstep
    exact PageTables.Inv.clearpteu_inv h hi hva hrun
  | copyuvm i j sz =>
    obtain ⟨hi, hj, hsz, r, m, hrun, rfl⟩ := hstep
    have hout := (PageTables.Inv.copyuvm (E := fun _ => True) h hi hj hsz
      (fun _ _ _ => trivial)).ok rfl hrun
    cases r with
    | none =>
      have hinv : PageTables.Inv L s.root s.held 0 m := hout.1
      rw [← hself j hj] at hinv
      exact hinv
    | some d => exact hout.1.inv
  | freevm i =>
    obtain ⟨hi, m, hrun, rfl⟩ := hstep
    obtain ⟨u, hu, hinv, -⟩ := PageTables.Inv.freevm h hi
    rw [hu] at hrun
    obtain ⟨-, rfl⟩ := Prod.ext_iff.mp (Except.ok.inj hrun)
    exact hinv
  | copyout i va buf =>
    obtain ⟨hi, hva, hbuf, r, m, hrun, rfl⟩ := hstep
    exact PageTables.Inv.copyout_inv h hi hva hbuf hrun
  | kalloc k =>
    obtain ⟨hk, f, m, hrun, rfl⟩ := hstep
    cases hs : s.mem.freelist with
    | nil =>
      rw [kalloc_nil hs] at hrun
      obtain ⟨rfl, rfl⟩ := Prod.ext_iff.mp (Except.ok.inj hrun)
      have hheld : Function.update s.held k 0 = s.held := by rw [← hk, Function.update_eq_self]
      change PageTables.Inv L s.root (Function.update s.held k 0) 0 s.mem
      rw [hheld]
      exact h
    | cons b rest =>
      rw [kalloc_cons hs] at hrun
      obtain ⟨rfl, rfl⟩ := Prod.ext_iff.mp (Except.ok.inj hrun)
      exact PageTables.Inv.hold h hs hk
  | kfree k =>
    obtain ⟨hk, m, hrun, rfl⟩ := hstep
    have hrange : L.first ≤ s.held k ∧ s.held k < NPAGES := h.owns.range (.other k) hk
    rw [kfree_run hrange.1 hrange.2] at hrun
    obtain ⟨-, rfl⟩ := Prod.ext_iff.mp (Except.ok.inj hrun)
    exact PageTables.Inv.unhold h hk
  | write f v =>
    obtain ⟨⟨hf, hdata⟩, rfl⟩ := hstep
    refine PageTables.Inv.setPage h ?_
    rcases hdata with ⟨i, vp, hown⟩ | ⟨k, hown⟩
    · exact h.plain_of_place (p := .user i vp) hown hf (by simp) (by simp)
    · exact h.plain_of_place (p := .other k) hown hf (by simp) (by simp)

theorem reachable_inv {s : Sys ι κ} (h : (pageSystem L ι κ).Reachable s) : s.Inv L :=
  h.invariant (fun _ => Sys.boot_inv) fun _ _ _ => Sys.step_inv

/-! ## A directory that has no name yet -/

/-- The directories in use, and a place for one more. -/
def withSlot (root : ι → ℕ) : Option ι → ℕ
  | none => 0
  | some i => root i

def Place.lift : Place ι κ → Place (Option ι) κ
  | .root i => .root (some i)
  | .table i d => .table (some i) d
  | .user i vp => .user (some i) vp
  | .mem => .mem
  | .other k => .other k

omit [DecidableEq ι] [DecidableEq κ] in
theorem own_lift {s : Mem} (p : Place ι κ) :
    own (withSlot root) held mem s p.lift = own root held mem s p := by
  cases p <;> rfl

omit [DecidableEq ι] [DecidableEq κ] in
theorem own_slot {s : Mem} {q : Place (Option ι) κ} (hq : own (withSlot root) held mem s q ≠ 0) :
    ∃ p : Place ι κ, q = p.lift := by
  cases q with
  | mem => exact ⟨.mem, rfl⟩
  | other k => exact ⟨.other k, rfl⟩
  | root o =>
    cases o with
    | none => exact absurd rfl hq
    | some i => exact ⟨.root i, rfl⟩
  | table o d =>
    cases o with
    | none => exact absurd rfl hq
    | some i => exact ⟨.table i d, rfl⟩
  | user o vp =>
    cases o with
    | none => exact absurd rfl hq
    | some i => exact ⟨.user i vp, rfl⟩

omit [DecidableEq ι] [DecidableEq κ] in
theorem Inv.withSlot {s : Mem} (h : Inv L root held mem s) :
    Inv L (withSlot root) held mem s where
  table_ne o d ho := by
    cases o with
    | none => exact absurd rfl ho
    | some i => exact h.table_ne i d ho
  frame_ne o vp ho := by
    cases o with
    | none => exact absurd rfl ho
    | some i => exact h.frame_ne i vp ho
  kernel o vp ho := by
    cases o with
    | none => exact absurd rfl ho
    | some i => exact h.kernel i vp ho
  nodup := h.nodup
  free_range := h.free_range
  owns := h.owns.extend Place.lift own_lift fun _ => own_slot

end Ostep.PageTables

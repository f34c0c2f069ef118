import Mathlib.Algebra.Order.BigOperators.Group.Finset
import Mathlib.Data.Fintype.Basic

/-!
# Counting occurrences under an update

How often a table maps to a value, and sums over a table, when one place of it changes.
-/

namespace Ostep.Counting

variable {ι α : Type*}

/-- Two sums that agree except at one place. -/
theorem sum_swap {S : Finset ι} {f g : ι → ℕ} {d : ι} (hd : d ∈ S)
    (h : ∀ x ∈ S, x ≠ d → f x = g x) : ∑ x ∈ S, f x + g d = ∑ x ∈ S, g x + f d := by
  classical
  rw [← Finset.add_sum_erase S f hd, ← Finset.add_sum_erase S g hd]
  have hrest : ∑ x ∈ S.erase d, f x = ∑ x ∈ S.erase d, g x :=
    Finset.sum_congr rfl fun x hx => h x (Finset.mem_of_mem_erase hx) (Finset.ne_of_mem_erase hx)
  omega

theorem sum_ite_eq {S : Finset ι} [DecidableEq ι] {P : ι → Prop} [DecidablePred P] {x : ι}
    (hx : P x → x ∈ S) : (∑ y ∈ S, if P y ∧ x = y then 1 else 0) = if P x then 1 else 0 := by
  have hsingle : ∀ y ∈ S, y ≠ x → (if P y ∧ x = y then 1 else 0) = 0 :=
    fun y _ hy => if_neg fun h => hy h.2.symm
  by_cases hP : P x
  · rw [Finset.sum_eq_single_of_mem x (hx hP) hsingle]
    simp
  · rw [if_neg hP]
    refine Finset.sum_eq_zero fun y _ => if_neg ?_
    rintro ⟨hy, rfl⟩
    exact hP hy

/-- The members of a list that satisfy `P`, counted value by value. -/
theorem countP_eq_sum {S : Finset ι} [DecidableEq ι] {P : ι → Prop} [DecidablePred P]
    {l : List ι} (hl : ∀ x ∈ l, P x → x ∈ S) :
    l.countP (fun x => P x) = ∑ y ∈ S, if P y then l.count y else 0 := by
  induction l with
  | nil => simp
  | cons x l ih =>
    have hx := sum_ite_eq (hl x (List.mem_cons_self ..))
    rw [List.countP_cons, ih fun y hy => hl y (List.mem_cons_of_mem x hy)]
    simp only [decide_eq_true_eq]
    rw [← hx, ← Finset.sum_add_distrib]
    refine Finset.sum_congr rfl fun y _ => ?_
    simp only [List.count_cons, beq_iff_eq]
    by_cases hy : P y <;> simp [hy]

section Occ
variable [Fintype ι] [DecidableEq α]

/-- The places where `f` holds `x`. -/
def occ (f : ι → Option α) (x : α) : ℕ := ∑ i, if f i = some x then 1 else 0

theorem occ_pos {f : ι → Option α} {x : α} : 0 < occ f x ↔ ∃ i, f i = some x := by
  simp [occ, Nat.pos_iff_ne_zero]

theorem occ_update [DecidableEq ι] (f : ι → Option α) (i : ι) (v : Option α) (x : α) :
    occ (Function.update f i v) x + (if f i = some x then 1 else 0) =
      occ f x + (if v = some x then 1 else 0) := by
  have h := sum_swap (f := fun j => if Function.update f i v j = some x then 1 else 0)
    (g := fun j => if f j = some x then 1 else 0) (Finset.mem_univ i)
    (fun j _ hj => by rw [Function.update_of_ne hj])
  simpa only [occ, Function.update_self] using h

end Occ

end Ostep.Counting

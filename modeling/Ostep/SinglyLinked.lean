import Mathlib.Data.List.Nodup
import Mathlib.Data.Nat.Notation
import Mathlib.Logic.Function.Iterate
import Mathlib.Order.Lattice
import Mathlib.Tactic.Common

/-!
# Singly linked rings

A list of nodes strung together by a function that gives the next one, and rings, which lead back
to where they start. A ring may be read from any of its nodes.
-/

namespace Ostep.SinglyLinked

variable {ν : Type*} {next next' : ν → ν} {x y z b : ν} {l m : List ν}

/-- `next` leads from `x` through `l` to `y`. -/
def Path (next : ν → ν) : ν → List ν → ν → Prop
  | x, [], y => next x = y
  | x, b :: l, y => next x = b ∧ Path next b l y

/-- From `x` through `l` back to `x`. -/
def Ring (next : ν → ν) (x : ν) (l : List ν) : Prop := Path next x l x

theorem path_append : Path next x (l ++ b :: m) y ↔ Path next x l b ∧ Path next b m y := by
  induction l generalizing x with
  | nil => rfl
  | cons c l ih => simp only [List.cons_append, Path, ih, and_assoc]

theorem Path.map (h : Path next x l y) : (x :: l).map next = l ++ [y] := by
  induction l generalizing x with
  | nil => exact congrArg (fun a => [a]) h
  | cons b l ih => rw [List.map_cons, h.1, ih h.2, List.cons_append]

theorem Path.congr (h : Path next x l y) (heq : ∀ a ∈ x :: l, next' a = next a) :
    Path next' x l y := by
  induction l generalizing x with
  | nil => exact (heq x (by simp)).trans h
  | cons b l ih =>
    exact ⟨(heq x (by simp)).trans h.1, ih h.2 fun a ha => heq a (List.mem_cons_of_mem x ha)⟩

/-- The end of the way. -/
theorem Path.last (h : Path next x l y) :
    next ((x :: l).getLast (List.cons_ne_nil x l)) = y := by
  induction l generalizing x with
  | nil => exact h
  | cons b l ih =>
    rw [List.getLast_cons (List.cons_ne_nil b l)]
    exact ih h.2

/-- A way that goes up all along and then down turns at its last node. -/
theorem Path.descends_iff [LinearOrder ν] (h : Path next x l y)
    (hs : (x :: l).Pairwise (· < ·)) (hy : y ≤ x) {p : ν} (hp : p ∈ x :: l) :
    next p ≤ p ↔ p = (x :: l).getLast (List.cons_ne_nil x l) := by
  induction l generalizing x with
  | nil =>
    obtain rfl := List.mem_singleton.mp hp
    have hnext : next p = y := h
    simp [hnext, hy]
  | cons b l ih =>
    have hxb : x < b := List.rel_of_pairwise_cons hs List.mem_cons_self
    rw [List.getLast_cons (List.cons_ne_nil b l)]
    rcases List.mem_cons.mp hp with rfl | hp
    · have hlast := List.rel_of_pairwise_cons hs (List.getLast_mem (List.cons_ne_nil b l))
      rw [h.1]
      exact iff_of_false (not_le_of_gt hxb) (ne_of_lt hlast)
    · exact ih h.2 hs.of_cons (hy.trans hxb.le) hp

/-- A ring in ascending order goes down exactly once. -/
theorem Ring.wraps_once [LinearOrder ν] (h : Ring next x l) (hs : (x :: l).Pairwise (· < ·)) :
    ∃! p, p ∈ x :: l ∧ next p ≤ p := by
  have hlast := List.getLast_mem (List.cons_ne_nil x l)
  refine ⟨_, ⟨hlast, (Path.descends_iff h hs le_rfl hlast).mpr rfl⟩, ?_⟩
  rintro p ⟨hp, hdown⟩
  exact (Path.descends_iff h hs le_rfl hp).mp hdown

theorem Ring.rotate (h : Ring next x (l ++ y :: m)) : Ring next y (m ++ x :: l) :=
  path_append.mpr (path_append.mp h).symm

/-- A ring read from another of its nodes. -/
theorem Ring.readFrom (h : Ring next x l) (hy : y ∈ x :: l) :
    ∃ m, Ring next y m ∧ (x :: l).Perm (y :: m) := by
  rcases List.mem_cons.mp hy with rfl | hy
  · exact ⟨l, h, .refl _⟩
  · obtain ⟨l₁, l₂, rfl⟩ := List.append_of_mem hy
    exact ⟨_, h.rotate, @List.perm_append_comm _ (x :: l₁) (y :: l₂)⟩

theorem Ring.next_mem (h : Ring next x l) (hy : y ∈ x :: l) : next y ∈ x :: l := by
  have : next y ∈ (x :: l).map next := List.mem_map_of_mem hy
  rw [h.map] at this
  simpa [or_comm] using this

theorem Ring.next_inj (h : Ring next x l) (hn : (x :: l).Nodup) (hy : y ∈ x :: l)
    (hz : z ∈ x :: l) (heq : next y = next z) : y = z := by
  have hmap : ((x :: l).map next).Nodup := by
    rw [h.map]
    exact (List.perm_append_singleton x l).nodup_iff.mpr hn
  exact List.inj_on_of_nodup_map hmap hy hz heq

/-- The nodes of a ring are those that `next` comes to. -/
theorem Ring.mem_iff (h : Ring next x l) : y ∈ x :: l ↔ ∃ k, next^[k] x = y := by
  constructor
  · intro hy
    suffices hpath : ∀ x' l', Path next x' l' x → y ∈ x' :: l' → ∃ k, next^[k] x' = y from
      hpath x l h hy
    intro x' l'
    induction l' generalizing x' with
    | nil =>
      intro _ hy
      exact ⟨0, (List.mem_singleton.mp hy).symm⟩
    | cons b l' ih =>
      intro hp hy
      rcases List.mem_cons.mp hy with rfl | hy
      · exact ⟨0, rfl⟩
      · obtain ⟨k, hk⟩ := ih b hp.2 hy
        exact ⟨k + 1, by rw [Function.iterate_succ_apply, hp.1, hk]⟩
  · rintro ⟨k, rfl⟩
    induction k with
    | zero => exact List.mem_cons_self
    | succ k ih =>
      rw [Function.iterate_succ_apply']
      exact h.next_mem ih

variable [DecidableEq ν]

/-- A node is linked in behind the end of `l`. -/
theorem Path.insert (h : Path next x (l ++ m) y) (hn : (x :: (l ++ m)).Nodup)
    (hb : b ∉ x :: (l ++ m)) {p q : ν} (hp : (x :: l).getLast (List.cons_ne_nil x l) = p)
    (hq : next p = q) : Path (Function.update (Function.update next b q) p b) x (l ++ b :: m) y := by
  set next' := Function.update (Function.update next b q) p b with hnext'
  have hpl : p ∈ x :: l := hp ▸ List.getLast_mem _
  have hpb : b ≠ p := by
    rintro rfl
    exact hb ((List.cons_subset_cons x (List.subset_append_left l m)) hpl)
  have hself : next' p = b := Function.update_self ..
  have hnew : next' b = q := by
    rw [hnext', Function.update_of_ne hpb, Function.update_self]
  have hother : ∀ a, a ≠ p → a ≠ b → next' a = next a := fun a hap hab => by
    rw [hnext', Function.update_of_ne hap, Function.update_of_ne hab]
  clear_value next'
  induction l generalizing x with
  | nil =>
    obtain rfl : x = p := hp
    refine ⟨hself, ?_⟩
    cases m with
    | nil => exact hnew.trans (hq.symm.trans h)
    | cons c m =>
      have hpath : Path next c m y := h.2
      refine ⟨hnew.trans (hq.symm.trans h.1), hpath.congr fun a ha => hother a ?_ ?_⟩
      · rintro rfl
        exact (List.nodup_cons.mp hn).1 ha
      · rintro rfl
        exact hb (List.mem_cons_of_mem x ha)
  | cons c l ih =>
    rw [List.getLast_cons (List.cons_ne_nil c l)] at hp
    have hxp : x ≠ p := by
      rintro rfl
      refine (List.nodup_cons.mp hn).1 ?_
      exact List.mem_append_left m (hp ▸ List.getLast_mem (List.cons_ne_nil c l))
    have hxb : x ≠ b := by
      rintro rfl
      exact hb List.mem_cons_self
    refine ⟨(hother x hxp hxb).trans h.1, ih h.2 (List.nodup_cons.mp hn).2 ?_ hp ?_⟩
    · exact fun hc => hb (List.mem_cons_of_mem x hc)
    · exact hp ▸ List.getLast_mem _

/-- The node behind the end of `l` is taken out. -/
theorem Path.remove (h : Path next x (l ++ b :: m) y) (hn : (x :: (l ++ b :: m)).Nodup) {p q : ν}
    (hp : (x :: l).getLast (List.cons_ne_nil x l) = p) (hq : next b = q) :
    Path (Function.update next p q) x (l ++ m) y := by
  set next' := Function.update next p q with hnext'
  have hself : next' p = q := Function.update_self ..
  have hother : ∀ a, a ≠ p → next' a = next a := fun a hap => Function.update_of_ne hap ..
  clear_value next'
  induction l generalizing x with
  | nil =>
    obtain rfl : x = p := hp
    obtain ⟨-, hb⟩ := h
    cases m with
    | nil => exact hself.trans (hq.symm.trans hb)
    | cons c m =>
      have hpath : Path next c m y := hb.2
      refine ⟨hself.trans (hq.symm.trans hb.1), hpath.congr fun a ha => hother a ?_⟩
      rintro rfl
      exact (List.nodup_cons.mp hn).1 (List.mem_cons_of_mem b ha)
  | cons c l ih =>
    rw [List.getLast_cons (List.cons_ne_nil c l)] at hp
    have hxp : x ≠ p := by
      rintro rfl
      refine (List.nodup_cons.mp hn).1 ?_
      exact List.mem_append_left _ (hp ▸ List.getLast_mem (List.cons_ne_nil c l))
    exact ⟨(hother x hxp).trans h.1, ih h.2 (List.nodup_cons.mp hn).2 hp⟩

end Ostep.SinglyLinked

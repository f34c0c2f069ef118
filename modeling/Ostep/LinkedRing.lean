import Mathlib.Data.List.Induction
import Mathlib.Logic.Function.Basic
import Mathlib.Tactic.Common

/-!
# Doubly linked rings

A ring is a list of nodes strung from a head back to it by `next`, with `prev` the way back.
Unlinking a node and linking one in behind the head are the usual four stores.
-/

namespace Ostep.LinkedRing

structure Links (ν : Type*) where
  next : ν → ν
  prev : ν → ν

variable {ν : Type*}

namespace Links

/-- `next` leads from `x` to `y`, and `prev` back. -/
def Joined (k : Links ν) (x y : ν) : Prop := k.next x = y ∧ k.prev y = x

/-- `next` leads from `x` through `l` to `y`. -/
def Path (k : Links ν) : ν → List ν → ν → Prop
  | x, [], y => k.Joined x y
  | x, b :: l, y => k.Joined x b ∧ k.Path b l y

structure Ring (k : Links ν) (head : ν) (l : List ν) : Prop where
  path : k.Path head l head
  nodup : (head :: l).Nodup

theorem path_append (k : Links ν) (x y b : ν) (l m : List ν) :
    k.Path x (l ++ b :: m) y ↔ k.Path x l b ∧ k.Path b m y := by
  induction l generalizing x with
  | nil => rfl
  | cons c l ih => simp only [List.cons_append, Path, ih, and_assoc]

theorem Path.congr {k k' : Links ν} {x y : ν} {l : List ν} (h : k.Path x l y)
    (hnext : ∀ z ∈ x :: l, k'.next z = k.next z) (hprev : ∀ z ∈ l ++ [y], k'.prev z = k.prev z) :
    k'.Path x l y := by
  induction l generalizing x with
  | nil =>
    refine ⟨?_, ?_⟩
    · rw [hnext x (by simp)]
      exact h.1
    · rw [hprev y (by simp)]
      exact h.2
  | cons b l ih =>
    obtain ⟨hb, hl⟩ := h
    refine ⟨⟨?_, ?_⟩, ih hl (fun z hz => hnext z (List.mem_cons_of_mem x hz))
      (fun z hz => hprev z (List.mem_cons_of_mem b hz))⟩
    · rw [hnext x (by simp)]
      exact hb.1
    · rw [hprev b (by simp)]
      exact hb.2

theorem Path.next_mem {k : Links ν} {x y : ν} {l : List ν} (h : k.Path x l y) :
    k.next x ∈ l ++ [y] := by
  cases l with
  | nil => simp [h.1]
  | cons b l => simp [h.1.1]

theorem Path.prev_mem {k : Links ν} {x y : ν} {l : List ν} (h : k.Path x l y) :
    k.prev y ∈ x :: l := by
  induction l generalizing x with
  | nil => simp [h.2]
  | cons b l ih => exact List.mem_cons_of_mem x (ih h.2)

variable [DecidableEq ν]

/-- `b->next->prev = b->prev; b->prev->next = b->next`. -/
def unlink (k : Links ν) (b : ν) : Links ν :=
  let k := { k with prev := Function.update k.prev (k.next b) (k.prev b) }
  { k with next := Function.update k.next (k.prev b) (k.next b) }

/-- `b->next = head.next; b->prev = &head; head.next->prev = b; head.next = b`. -/
def linkFirst (k : Links ν) (head b : ν) : Links ν :=
  let k := { k with next := Function.update k.next b (k.next head) }
  let k := { k with prev := Function.update k.prev b head }
  let k := { k with prev := Function.update k.prev (k.next head) b }
  { k with next := Function.update k.next head b }

theorem Path.unlink {k : Links ν} {x y b : ν} {l m : List ν} (h : k.Path x (l ++ b :: m) y)
    (hx : (x :: (l ++ b :: m)).Nodup) (hy : y ∉ l ++ b :: m) :
    (k.unlink b).Path x (l ++ m) y := by
  -- the two stores do not disturb each other: `b` is not its own neighbour
  have hstores : k.unlink b =
      ⟨Function.update k.next (k.prev b) (k.next b),
        Function.update k.prev (k.next b) (k.prev b)⟩ := by
    obtain ⟨-, hb⟩ := (path_append ..).mp h
    have hne : b ≠ k.next b := by
      have := hb.next_mem
      grind
    simp [Links.unlink, Function.update_of_ne hne]
  rw [hstores]
  induction l generalizing x with
  | nil =>
    obtain ⟨hxb, hb⟩ := h
    rw [hxb.2]
    cases m with
    | nil =>
      rw [hb.1]
      exact ⟨by simp, by simp⟩
    | cons c m =>
      obtain ⟨hbc, hc⟩ := hb
      rw [hbc.1]
      refine ⟨⟨by simp, by simp⟩, hc.congr (fun z hz => ?_) (fun z hz => ?_)⟩
      · exact Function.update_of_ne (by grind) ..
      · exact Function.update_of_ne (by grind) ..
  | cons a l ih =>
    obtain ⟨hxa, ha⟩ := h
    obtain ⟨hleft, hright⟩ := (path_append ..).mp ha
    have hprev := hleft.prev_mem
    have hnext := hright.next_mem
    refine ⟨⟨?_, ?_⟩, ih ha (by grind) (by grind)⟩
    · exact (Function.update_of_ne (by grind) ..).trans hxa.1
    · exact (Function.update_of_ne (by grind) ..).trans hxa.2

theorem Ring.unlink {k : Links ν} {head b : ν} {l m : List ν} (h : k.Ring head (l ++ b :: m)) :
    (k.unlink b).Ring head (l ++ m) where
  path := h.path.unlink h.nodup (List.nodup_cons.mp h.nodup).1
  nodup := h.nodup.sublist ((List.Sublist.append_left (List.sublist_cons_self b m) l).cons_cons head)

theorem Ring.linkFirst {k : Links ν} {head b : ν} {l : List ν} (h : k.Ring head l)
    (hb : b ∉ head :: l) : (k.linkFirst head b).Ring head (b :: l) := by
  have hne : head ≠ b := by grind
  have hnb : k.next head ≠ b := by
    have := h.path.next_mem
    grind
  have hstores : k.linkFirst head b =
      ⟨Function.update (Function.update k.next b (k.next head)) head b,
        Function.update (Function.update k.prev b head) (k.next head) b⟩ := by
    simp [Links.linkFirst, Function.update_of_ne hne]
  have hnd := h.nodup
  refine ⟨?_, by grind⟩
  rw [hstores]
  refine ⟨⟨by simp, by simp [Function.update_of_ne hnb.symm]⟩, ?_⟩
  obtain ⟨hpath, -⟩ := h
  cases l with
  | nil =>
    rw [hpath.1]
    exact ⟨by simp [Function.update_of_ne hne.symm], by simp⟩
  | cons c l =>
    obtain ⟨hc, hl⟩ := hpath
    rw [hc.1]
    refine ⟨⟨by simp [Function.update_of_ne hne.symm], by simp⟩,
      hl.congr (fun z hz => ?_) (fun z hz => ?_)⟩
    · have hz' : z ≠ head ∧ z ≠ b := by grind
      simp [Function.update_of_ne hz'.1, Function.update_of_ne hz'.2]
    · have hz' : z ≠ c ∧ z ≠ b := by grind
      simp [Function.update_of_ne hz'.1, Function.update_of_ne hz'.2]

/-- The loop `for(b = ...; b != &head; b = step(b)) if(p(b)) return b`, ended by `fuel` turns at
the latest. -/
def scan (step : ν → ν) (head : ν) (p : ν → Bool) : ℕ → ν → Option (Option ν)
  | 0, _ => none
  | fuel + 1, b =>
    if b = head then some none
    else if p b then some (some b)
    else scan step head p fuel (step b)

theorem Path.scan_next {k : Links ν} {x head : ν} {l : List ν} (h : k.Path x l head)
    (hl : head ∉ l) (p : ν → Bool) {fuel : ℕ} (hfuel : l.length < fuel) :
    scan k.next head p fuel (k.next x) = some (l.find? p) := by
  induction l generalizing x fuel with
  | nil =>
    obtain ⟨n, rfl⟩ : ∃ n, fuel = n + 1 := ⟨fuel - 1, by simp at hfuel; omega⟩
    simp [scan, h.1]
  | cons b l ih =>
    obtain ⟨n, rfl⟩ : ∃ n, fuel = n + 1 := ⟨fuel - 1, by simp at hfuel; omega⟩
    obtain ⟨hb, hpath⟩ := h
    have hne : b ≠ head := by grind
    rw [hb.1, scan, if_neg hne, List.find?_cons]
    cases hp : p b with
    | true => rfl
    | false => simpa using ih hpath (by grind) (by simpa using hfuel)

theorem Path.scan_prev {k : Links ν} {head y : ν} {l : List ν} (h : k.Path head l y)
    (hl : head ∉ l) (p : ν → Bool) {fuel : ℕ} (hfuel : l.length < fuel) :
    scan k.prev head p fuel (k.prev y) = some (l.reverse.find? p) := by
  induction l using List.reverseRecOn generalizing y fuel with
  | nil =>
    obtain ⟨n, rfl⟩ : ∃ n, fuel = n + 1 := ⟨fuel - 1, by simp at hfuel; omega⟩
    simp [scan, h.2]
  | append_singleton l b ih =>
    obtain ⟨n, rfl⟩ : ∃ n, fuel = n + 1 := ⟨fuel - 1, by simp at hfuel; omega⟩
    obtain ⟨hpath, hb⟩ := (path_append ..).mp h
    have hne : b ≠ head := by grind
    rw [hb.2, scan, if_neg hne, List.reverse_append, List.reverse_singleton, List.singleton_append,
      List.find?_cons]
    cases hp : p b with
    | true => rfl
    | false => simpa using ih hpath (by grind) (by simpa using hfuel)

end Links

end Ostep.LinkedRing

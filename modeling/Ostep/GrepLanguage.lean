import Ostep.Grep
import Mathlib.Computability.Language

/-!
# The language of a grep pattern

A pattern is a list of items, each a character or a starred character, with `^` and `$` at its
ends; what it stands for is a language. `match` tries the shortest run for a star first and gives
up a run that does not lead on, and it finds a match whenever there is one.
-/

namespace Ostep.Grep
open scoped Computability

inductive Item where
  | one (c : UInt8)
  | star (c : UInt8)

/-- A pattern without its `^`: the items, and whether `$` ends it. A `*` stands for itself where
it follows no character, and so do `^` and `$` in the middle. -/
def items : List UInt8 → List Item × Bool
  | [] => ([], false)
  | c :: 42 :: re => (.star c :: (items re).1, (items re).2)
  | [36] => ([], true)
  | c :: re => (.one c :: (items re).1, (items re).2)

/-- `.` stands for every character. -/
def char (c : UInt8) : Language UInt8 := {w | ∃ t, w = [t] ∧ (c = 46 ∨ c = t)}

def Item.lang : Item → Language UInt8
  | .one c => char c
  | .star c => (char c)∗

def lang (is : List Item) : Language UInt8 := (is.map Item.lang).prod

theorem mem_char {c : UInt8} {w : List UInt8} :
    w ∈ char c ↔ ∃ t, w = [t] ∧ (c = 46 ∨ c = t) := Iff.rfl

theorem mem_lang_cons {i : Item} {is : List Item} {w : List UInt8} :
    w ∈ lang (i :: is) ↔ ∃ u ∈ i.lang, ∃ v ∈ lang is, u ++ v = w := by
  rw [lang, List.map_cons, List.prod_cons]
  exact Language.mem_mul

theorem mem_star {c : UInt8} {w : List UInt8} :
    w ∈ (char c)∗ ↔ ∀ t ∈ w, c = 46 ∨ c = t := by
  rw [Language.mem_kstar]
  constructor
  · rintro ⟨L, rfl, hL⟩ t ht
    obtain ⟨y, hy, ht⟩ := List.mem_flatten.mp ht
    obtain ⟨t', rfl, hc⟩ := hL y hy
    rwa [List.mem_singleton.mp ht]
  · intro h
    refine ⟨w.map fun t => [t], (List.flatMap_singleton' w).symm, fun y hy => ?_⟩
    obtain ⟨t, ht, rfl⟩ := List.mem_map.mp hy
    exact ⟨t, rfl, h t ht⟩

/-- `text` begins with a word of `l`, behind which nothing is left if `whole`. -/
def Begins (l : Language UInt8) (whole : Bool) (text : List UInt8) : Prop :=
  ∃ w ∈ l, ∃ rest, w ++ rest = text ∧ (whole = true → rest = [])

theorem matchstar_iff {c : UInt8} {here : List UInt8 → Bool} {text : List UInt8} :
    matchstar c here text = true ↔ ∃ u ∈ (char c)∗, ∃ rest, u ++ rest = text ∧ here rest = true := by
  induction text with
  | nil =>
    rw [matchstar]
    constructor
    · intro h
      exact ⟨[], Language.nil_mem_kstar _, [], rfl, h⟩
    · rintro ⟨u, -, rest, hrest, h⟩
      obtain ⟨-, rfl⟩ := List.append_eq_nil_iff.mp hrest
      exact h
  | cons t text ih =>
    rw [matchstar, Bool.or_eq_true, Bool.and_eq_true, Bool.or_eq_true, beq_iff_eq, beq_iff_eq, ih]
    constructor
    · rintro (h | ⟨hc, u, hu, rest, rfl, h⟩)
      · exact ⟨[], Language.nil_mem_kstar _, t :: text, rfl, h⟩
      · refine ⟨t :: u, mem_star.mpr fun t' ht' => ?_, rest, rfl, h⟩
        rcases List.mem_cons.mp ht' with rfl | ht'
        · exact hc.symm.imp id Eq.symm
        · exact mem_star.mp hu t' ht'
    · rintro ⟨u, hu, rest, hrest, h⟩
      cases u with
      | nil =>
        obtain rfl : rest = t :: text := hrest
        exact .inl h
      | cons t' u =>
        obtain ⟨rfl, rfl⟩ := List.cons.inj hrest
        have hu := mem_star.mp hu
        refine .inr ⟨(hu t' List.mem_cons_self).symm.imp Eq.symm id, u, ?_, rest, rfl, h⟩
        exact mem_star.mpr fun t ht => hu t (List.mem_cons_of_mem t' ht)

theorem begins_one {c : UInt8} {is : List Item} {whole : Bool} {t : UInt8} {text : List UInt8} :
    Begins (lang (.one c :: is)) whole (t :: text) ↔
      (c = 46 ∨ c = t) ∧ Begins (lang is) whole text := by
  constructor
  · rintro ⟨w, hw, rest, hrest, hwhole⟩
    obtain ⟨u, ⟨t', rfl, hc⟩, v, hv, rfl⟩ := mem_lang_cons.mp hw
    obtain ⟨rfl, rfl⟩ := List.cons.inj hrest
    exact ⟨hc, v, hv, rest, rfl, hwhole⟩
  · rintro ⟨hc, v, hv, rest, rfl, hwhole⟩
    exact ⟨t :: v, mem_lang_cons.mpr ⟨[t], ⟨t, rfl, hc⟩, v, hv, rfl⟩, rest, rfl, hwhole⟩

theorem not_begins_one {c : UInt8} {is : List Item} {whole : Bool} :
    ¬ Begins (lang (.one c :: is)) whole [] := by
  rintro ⟨w, hw, rest, hrest, -⟩
  obtain ⟨u, ⟨t, rfl, -⟩, v, -, rfl⟩ := mem_lang_cons.mp hw
  cases hrest

theorem begins_star {c : UInt8} {is : List Item} {whole : Bool} {text : List UInt8} :
    Begins (lang (.star c :: is)) whole text ↔
      ∃ u ∈ (char c)∗, ∃ rest, u ++ rest = text ∧ Begins (lang is) whole rest := by
  constructor
  · rintro ⟨w, hw, rest, rfl, hwhole⟩
    obtain ⟨u, hu, v, hv, rfl⟩ := mem_lang_cons.mp hw
    exact ⟨u, hu, v ++ rest, (List.append_assoc ..).symm, v, hv, rest, rfl, hwhole⟩
  · rintro ⟨u, hu, rest, rfl, v, hv, rest', rfl, hwhole⟩
    exact ⟨u ++ v, mem_lang_cons.mpr ⟨u, hu, v, hv, rfl⟩, rest', List.append_assoc .., hwhole⟩

theorem begins_nil {whole : Bool} {text : List UInt8} :
    Begins (lang []) whole text ↔ (whole = true → text = []) := by
  constructor
  · rintro ⟨w, hw, rest, rfl, hwhole⟩
    obtain rfl : w = [] := hw
    exact hwhole
  · exact fun h => ⟨[], rfl, text, rfl, h⟩

/-- `matchhere` finds a beginning in the language of the pattern, if there is one. -/
theorem matchhere_iff (re text : List UInt8) :
    matchhere re text = true ↔ Begins (lang (items re).1) (items re).2 text := by
  induction re using items.induct generalizing text with
  | case1 =>
    rw [items, begins_nil]
    simp [matchhere]
  | case2 c re ih =>
    rw [items, begins_star, matchhere, matchstar_iff]
    simp only [ih]
  | case3 =>
    rw [items, begins_nil]
    simp [matchhere]
  | case4 c re hstar hend ih =>
    have hitems : items (c :: re) = (.one c :: (items re).1, (items re).2) := by
      rw [items] <;> assumption
    rw [hitems]
    cases text with
    | nil =>
      have hno : matchhere (c :: re) [] = false := by rw [matchhere] <;> assumption
      simp [hno, not_begins_one]
    | cons t text =>
      have hyes : matchhere (c :: re) (t :: text) =
          ((c == 46 || c == t) && matchhere re text) := by rw [matchhere] <;> assumption
      rw [hyes, begins_one, Bool.and_eq_true, Bool.or_eq_true, beq_iff_eq, beq_iff_eq, ih]

theorem matchAny_iff (re text : List UInt8) :
    matchAny re text = true ↔ ∃ pre post, pre ++ post = text ∧ matchhere re post = true := by
  induction text with
  | nil =>
    rw [matchAny]
    constructor
    · exact fun h => ⟨[], [], rfl, h⟩
    · rintro ⟨pre, post, hnil, h⟩
      obtain ⟨-, rfl⟩ := List.append_eq_nil_iff.mp hnil
      exact h
  | cons t text ih =>
    rw [matchAny, Bool.or_eq_true, ih]
    constructor
    · rintro (h | ⟨pre, post, rfl, h⟩)
      · exact ⟨[], t :: text, rfl, h⟩
      · exact ⟨t :: pre, post, rfl, h⟩
    · rintro ⟨pre, post, htext, h⟩
      cases pre with
      | nil =>
        obtain rfl : post = t :: text := htext
        exact .inl h
      | cons t' pre =>
        obtain ⟨rfl, rfl⟩ := List.cons.inj htext
        exact .inr ⟨pre, post, rfl, h⟩

/-- The pattern without its `^`. -/
def body : List UInt8 → List UInt8
  | 94 :: re => re
  | re => re

/-- `match` accepts a line if and only if a part of it is in the language of the pattern, at the
beginning of the line for `^` and at its end for `$`. -/
theorem matchText_iff (pattern text : List UInt8) :
    matchText pattern text = true ↔
      ∃ pre, ∃ w ∈ lang (items (body pattern)).1, ∃ post, pre ++ (w ++ post) = text ∧
        (pattern.head? = some 94 → pre = []) ∧ ((items (body pattern)).2 = true → post = []) := by
  by_cases hcaret : pattern.head? = some 94
  · obtain ⟨re, rfl⟩ : ∃ re, pattern = 94 :: re := by
      cases pattern with
      | nil => cases hcaret
      | cons c re => exact ⟨re, by rw [Option.some.inj hcaret]⟩
    rw [matchText, matchhere_iff]
    constructor
    · rintro ⟨w, hw, post, rfl, hpost⟩
      exact ⟨[], w, hw, post, rfl, fun _ => rfl, hpost⟩
    · rintro ⟨pre, w, hw, post, rfl, hpre, hpost⟩
      rw [hpre hcaret]
      exact ⟨w, hw, post, rfl, hpost⟩
  · have hne : ∀ re, pattern = 94 :: re → False := by
      rintro re rfl
      exact hcaret rfl
    have hbody : body pattern = pattern := by
      rw [body]
      assumption
    have hmatch : matchText pattern text = matchAny pattern text := by
      rw [matchText]
      assumption
    rw [hmatch, matchAny_iff, hbody]
    constructor
    · rintro ⟨pre, post, rfl, h⟩
      obtain ⟨w, hw, rest, rfl, hrest⟩ := (matchhere_iff _ _).mp h
      exact ⟨pre, w, hw, rest, rfl, fun h => absurd h hcaret, hrest⟩
    · rintro ⟨pre, w, hw, post, rfl, -, hpost⟩
      exact ⟨pre, w ++ post, rfl, (matchhere_iff _ _).mpr ⟨w, hw, post, rfl, hpost⟩⟩

end Ostep.Grep

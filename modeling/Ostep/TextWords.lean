import Mathlib.Data.List.TakeWhile
import Mathlib.Tactic.Common

/-!
# Words between separators

The words of a text are its maximal runs without a separator. Cutting at every single separator
gives the same list when no piece is empty.
-/

namespace Ostep.TextWords

variable {α : Type*} {p q : α → Bool} {s w : List α}

def words (p : α → Bool) (s : List α) : List (List α) := (s.splitOnP p).filter (fun w => !w.isEmpty)

theorem not_of_mem_splitOnP (hw : w ∈ s.splitOnP p) : ∀ c ∈ w, p c = false := by
  induction s generalizing w with
  | nil =>
    obtain rfl : w = [] := by simpa using hw
    simp
  | cons d s ih =>
    rw [List.splitOnP_cons_eq_if_modifyHead] at hw
    split_ifs at hw with hd
    · rcases List.mem_cons.mp hw with rfl | hw
      · simp
      · exact ih hw
    · obtain ⟨x, xs, hxs⟩ := List.exists_cons_of_ne_nil (List.splitOnP_ne_nil p s)
      rw [hxs] at hw
      rcases List.mem_cons.mp hw with rfl | hw
      · exact List.forall_mem_cons.mpr ⟨by simpa using hd, ih (hxs ▸ List.mem_cons_self ..)⟩
      · exact ih (hxs ▸ List.mem_cons_of_mem _ hw)

/-- Whatever is no separator is in one of the pieces. -/
theorem exists_mem_splitOnP {c : α} (hc : c ∈ s) (hp : p c = false) : ∃ w ∈ s.splitOnP p, c ∈ w := by
  induction s with
  | nil => cases hc
  | cons d s ih =>
    obtain ⟨x, xs, hxs⟩ := List.exists_cons_of_ne_nil (List.splitOnP_ne_nil p s)
    rw [List.splitOnP_cons_eq_if_modifyHead]
    split_ifs with hd
    · have hne : c ≠ d := by
        rintro rfl
        rw [hp] at hd
        cases hd
      obtain ⟨w, hw, hcw⟩ := ih ((List.mem_cons.mp hc).resolve_left hne)
      exact ⟨w, List.mem_cons_of_mem _ hw, hcw⟩
    · rw [hxs, List.modifyHead_cons]
      rcases List.mem_cons.mp hc with rfl | hc
      · exact ⟨c :: x, by simp, by simp⟩
      · obtain ⟨w, hw, hcw⟩ := ih hc
        rw [hxs] at hw
        rcases List.mem_cons.mp hw with rfl | hw
        · exact ⟨d :: w, by simp, by simp [hcw]⟩
        · exact ⟨w, by simp [hw], hcw⟩

theorem splitOnP_congr (h : ∀ c ∈ s, p c = q c) : s.splitOnP p = s.splitOnP q := by
  induction s with
  | nil => rfl
  | cons c s ih =>
    obtain ⟨hc, hs⟩ := List.forall_mem_cons.mp h
    rw [List.splitOnP_cons_eq_if_modifyHead, List.splitOnP_cons_eq_if_modifyHead, hc, ih hs]

/-- Cutting at one kind of separator finds the words between separators of all kinds exactly
when there is no other kind, and no two of them are next to each other. -/
theorem splitOnP_eq_words_iff (hqp : ∀ c, q c = true → p c = true) :
    s.splitOnP q = words p s ↔ (∀ c ∈ s, p c = q c) ∧ [] ∉ s.splitOnP q := by
  constructor
  · intro h
    refine ⟨fun c hc => ?_, fun hnil => ?_⟩
    · by_contra hne
      have hq : q c = false := by
        by_contra hq
        have hq : q c = true := by simpa using hq
        exact hne (by rw [hq, hqp c hq])
      obtain ⟨w, hw, hcw⟩ := exists_mem_splitOnP hc hq
      rw [h] at hw
      have := not_of_mem_splitOnP (List.mem_filter.mp hw).1 c hcw
      exact hne (by rw [this, hq])
    · rw [h] at hnil
      simpa using (List.mem_filter.mp hnil).2
  · rintro ⟨hsame, hnil⟩
    rw [words, splitOnP_congr hsame]
    refine (List.filter_eq_self.mpr fun w hw => ?_).symm
    simpa using fun heq : w = [] => hnil (heq ▸ hw)

/-! ## Word by word -/

theorem words_cons_sep {c : α} (hc : p c = true) : words p (c :: s) = words p s := by
  rw [words, List.splitOnP_cons_eq_if_modifyHead, if_pos hc]
  rfl

theorem words_dropWhile (p : α → Bool) (s : List α) : words p (s.dropWhile p) = words p s := by
  induction s with
  | nil => rfl
  | cons c s ih =>
    cases hc : p c with
    | true => rw [List.dropWhile_cons_of_pos hc, ih, words_cons_sep hc]
    | false => rw [List.dropWhile_cons_of_neg (by simp [hc])]

theorem splitOnP_of_word (hw : ∀ c ∈ w, p c = false) :
    (w ++ s).splitOnP p = (s.splitOnP p).modifyHead (w ++ ·) := by
  induction w with
  | nil =>
    obtain ⟨x, xs, hxs⟩ := List.exists_cons_of_ne_nil (List.splitOnP_ne_nil p s)
    simp [hxs]
  | cons c w ih =>
    obtain ⟨hc, hw⟩ := List.forall_mem_cons.mp hw
    rw [List.cons_append, List.splitOnP_cons_eq_if_modifyHead, if_neg (by simp [hc]), ih hw]
    obtain ⟨x, xs, hxs⟩ := List.exists_cons_of_ne_nil (List.splitOnP_ne_nil p s)
    rw [hxs]
    rfl

/-- The first word and the words behind it. -/
theorem words_cons {c : α} (hc : p c = false) :
    words p (c :: s) = (c :: s).takeWhile (! p ·) :: words p ((c :: s).dropWhile (! p ·)) := by
  have hword : ∀ a ∈ (c :: s).takeWhile (! p ·), p a = false := fun a ha => by
    simpa using List.mem_takeWhile_imp ha
  have hne : (c :: s).takeWhile (! p ·) ≠ [] := by
    rw [List.takeWhile_cons_of_pos (by simp [hc])]
    exact List.cons_ne_nil _ _
  conv_lhs => rw [← List.takeWhile_append_dropWhile (p := (! p ·)) (l := c :: s)]
  cases hrest : (c :: s).dropWhile (! p ·) with
  | nil =>
    rw [words, splitOnP_of_word hword]
    simp [words, hne]
  | cons d r =>
    have hd : p d = true := by
      have := List.head_dropWhile_not (! p ·) (l := c :: s) (by rw [hrest]; exact List.cons_ne_nil _ _)
      simpa [hrest] using this
    rw [words, splitOnP_of_word hword, List.splitOnP_cons_eq_if_modifyHead, if_pos hd,
      words_cons_sep hd]
    simp [words, hne]

end Ostep.TextWords

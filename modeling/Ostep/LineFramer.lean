import Mathlib.Data.List.Basic
import Mathlib.Tactic.Common

/-!
# Lines out of chunks

A text is cut at a separator into its complete lines and what is left behind the last of them. A
framer is fed a text chunk by chunk and keeps that rest from one chunk to the next. The one here
forgets the rest when a chunk brings no separator; it finds the lines of the whole text if and only
if that does not happen.
-/

namespace Ostep.LineFramer

variable {α : Type*} [DecidableEq α] {sep : α} {s t w l : List α} {ls cs : List (List α)}

def unlines (sep : α) (ls : List (List α)) : List α := ls.flatMap (· ++ [sep])

/-- The complete lines, and what follows the last of them. -/
def cut (sep : α) : List α → List (List α) × List α
  | [] => ([], [])
  | c :: s =>
    if c = sep then ([] :: (cut sep s).1, (cut sep s).2)
    else match (cut sep s).1 with
      | [] => ([], c :: (cut sep s).2)
      | l :: ls => ((c :: l) :: ls, (cut sep s).2)

omit [DecidableEq α] in
@[simp] theorem unlines_nil : unlines sep [] = [] := rfl

omit [DecidableEq α] in
@[simp] theorem unlines_cons : unlines sep (l :: ls) = l ++ sep :: unlines sep ls := by
  simp [unlines]

omit [DecidableEq α] in
theorem unlines_append (ls ls' : List (List α)) :
    unlines sep (ls ++ ls') = unlines sep ls ++ unlines sep ls' :=
  List.flatMap_append

theorem unlines_cut (sep : α) (s : List α) : unlines sep (cut sep s).1 ++ (cut sep s).2 = s := by
  induction s with
  | nil => rfl
  | cons c s ih =>
    rw [cut]
    split_ifs with hc
    · rw [unlines_cons, hc, List.nil_append, List.cons_append, ih]
    · cases hls : (cut sep s).1 with
      | nil =>
        rw [hls] at ih
        simpa using ih
      | cons l ls =>
        rw [hls] at ih
        simpa using ih

theorem not_mem_cut (sep : α) (s : List α) :
    (∀ l ∈ (cut sep s).1, sep ∉ l) ∧ sep ∉ (cut sep s).2 := by
  induction s with
  | nil => simp [cut]
  | cons c s ih =>
    rw [cut]
    split_ifs with hc
    · exact ⟨List.forall_mem_cons.mpr ⟨List.not_mem_nil, ih.1⟩, ih.2⟩
    · cases hls : (cut sep s).1 with
      | nil => exact ⟨by simp, by simpa [Ne.symm hc] using ih.2⟩
      | cons l ls =>
        rw [hls, List.forall_mem_cons] at ih
        exact ⟨List.forall_mem_cons.mpr ⟨by simpa [Ne.symm hc] using ih.1.1, ih.1.2⟩, ih.2⟩

theorem cut_open (hw : sep ∉ w) : cut sep w = ([], w) := by
  induction w with
  | nil => rfl
  | cons c w ih =>
    rw [List.mem_cons, not_or] at hw
    rw [cut, if_neg (Ne.symm hw.1), ih hw.2]

theorem cut_line (hl : sep ∉ l) (s : List α) :
    cut sep (l ++ sep :: s) = (l :: (cut sep s).1, (cut sep s).2) := by
  induction l with
  | nil => exact if_pos rfl
  | cons c l ih =>
    rw [List.mem_cons, not_or] at hl
    rw [List.cons_append, cut, if_neg (Ne.symm hl.1), ih hl.2]

/-- Nothing else is such a cut. -/
theorem cut_unlines (hls : ∀ l ∈ ls, sep ∉ l) (s : List α) :
    cut sep (unlines sep ls ++ s) = (ls ++ (cut sep s).1, (cut sep s).2) := by
  induction ls with
  | nil => rfl
  | cons l ls ih =>
    obtain ⟨hl, hls⟩ := List.forall_mem_cons.mp hls
    rw [unlines_cons, List.append_assoc, List.cons_append, cut_line hl, ih hls]
    rfl

/-- A text may be cut piece by piece. -/
theorem cut_append (sep : α) (s t : List α) : cut sep (s ++ t) =
    ((cut sep s).1 ++ (cut sep ((cut sep s).2 ++ t)).1, (cut sep ((cut sep s).2 ++ t)).2) := by
  have hs := unlines_cut sep s
  calc cut sep (s ++ t)
      = cut sep (unlines sep (cut sep s).1 ++ ((cut sep s).2 ++ t)) := by
        rw [← List.append_assoc, hs]
    _ = _ := cut_unlines (not_mem_cut sep s).1 _

theorem cut_eq_nil_iff : (cut sep s).1 = [] ↔ sep ∉ s := by
  constructor
  · intro h
    have hs := unlines_cut sep s
    rw [h, unlines_nil, List.nil_append] at hs
    rw [← hs]
    exact (not_mem_cut sep s).2
  · intro h
    rw [cut_open h]

/-! ## The forgetful framer -/

/-- What is kept of the text so far. -/
def kept (sep : α) (s : List α) : List α := if sep ∈ s then (cut sep s).2 else []

/-- The lines that come out when `w` is kept and the chunks come in. -/
def frames (sep : α) : List α → List (List α) → List (List α)
  | _, [] => []
  | w, c :: cs => (cut sep (w ++ c)).1 ++ frames sep (kept sep (w ++ c)) cs

theorem frames_eq (h : ∀ c ∈ cs, sep ∈ c) (hw : sep ∉ w) :
    frames sep w cs = (cut sep (w ++ cs.flatten)).1 := by
  induction cs generalizing w with
  | nil =>
    rw [frames, List.flatten_nil, List.append_nil, cut_open hw]
  | cons c cs ih =>
    obtain ⟨hc, hcs⟩ := List.forall_mem_cons.mp h
    have hkept : kept sep (w ++ c) = (cut sep (w ++ c)).2 :=
      if_pos (List.mem_append_right w hc)
    rw [frames, hkept, ih hcs (not_mem_cut sep _).2, List.flatten_cons, ← List.append_assoc,
      cut_append sep (w ++ c)]

/-- What comes out and is kept came in; less does where something is forgotten. -/
theorem length_kept (sep : α) (s : List α) :
    (unlines sep (cut sep s).1).length + (kept sep s).length + (if sep ∈ s then 0 else s.length) =
      s.length := by
  have hs := congrArg List.length (unlines_cut sep s)
  rw [List.length_append] at hs
  unfold kept
  split_ifs with h
  · exact hs
  · rw [cut_eq_nil_iff.mpr h]
    simp

theorem length_frames_le (sep : α) (w : List α) (cs : List (List α)) :
    (unlines sep (frames sep w cs)).length ≤ w.length + cs.flatten.length := by
  induction cs generalizing w with
  | nil => simp [frames]
  | cons c cs ih =>
    have hkept := length_kept sep (w ++ c)
    have hrest := ih (kept sep (w ++ c))
    rw [frames, unlines_append, List.length_append, List.flatten_cons, List.length_append]
    rw [List.length_append] at hkept
    omega

theorem length_frames_lt {c : List α} (hc : c ∈ cs) (hne : c ≠ []) (hsep : sep ∉ c) (hw : sep ∉ w) :
    (unlines sep (frames sep w cs)).length < w.length + cs.flatten.length := by
  induction cs generalizing w with
  | nil => cases hc
  | cons b cs ih =>
    have hkept := length_kept sep (w ++ b)
    rw [frames, unlines_append, List.length_append, List.flatten_cons, List.length_append]
    rw [List.length_append] at hkept
    rcases List.mem_cons.mp hc with rfl | hc
    · have hrest := length_frames_le sep (kept sep (w ++ c)) cs
      have hpos := List.length_pos_of_ne_nil hne
      rw [if_neg (by simp [hw, hsep])] at hkept
      omega
    · have hopen : sep ∉ kept sep (w ++ b) := by
        unfold kept
        split_ifs
        · exact (not_mem_cut sep _).2
        · exact List.not_mem_nil
      have hrest := ih hc hopen
      omega

/-- The lines of the text come out if and only if no chunk is without a separator. -/
theorem frames_iff (hne : ∀ c ∈ cs, c ≠ []) (hls : ∀ l ∈ ls, sep ∉ l)
    (htext : cs.flatten = unlines sep ls) :
    frames sep [] cs = ls ↔ ∀ c ∈ cs, sep ∈ c := by
  constructor
  · intro h c hc
    by_contra hsep
    have hlt := length_frames_lt (w := []) hc (hne c hc) hsep List.not_mem_nil
    rw [h, htext, List.length_nil, Nat.zero_add] at hlt
    exact absurd hlt (Nat.lt_irrefl _)
  · intro h
    have hcut := cut_unlines hls []
    rw [List.append_nil, ← htext] at hcut
    rw [frames_eq h List.not_mem_nil, List.nil_append, hcut]
    exact List.append_nil ls

end Ostep.LineFramer

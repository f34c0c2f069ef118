import Mathlib.Data.List.Basic
import Mathlib.Tactic.Common

/-!
# Lines as `BufRead::lines` splits them

Each line loses its final `'\n'`, and a `'\r'` directly before it; text after the last
`'\n'` is one more line, kept as it is, unless it is empty.
-/

namespace Ostep.TextLines

/-- A line without the `'\r'` that stood before its `'\n'`. -/
def chompCR (line : List Char) : List Char :=
  if line.getLast? = some '\r' then line.dropLast else line

/-- The lines of `acc` reversed followed by the given text. -/
def linesFrom (acc : List Char) : List Char → List (List Char)
  | [] => if acc = [] then [] else [acc.reverse]
  | c :: cs => if c = '\n' then chompCR acc.reverse :: linesFrom [] cs else linesFrom (c :: acc) cs

def lines (text : List Char) : List (List Char) := linesFrom [] text

def unlines (ls : List (List Char)) : List Char := ls.flatMap (· ++ ['\n'])

theorem mem_of_mem_chompCR {c : Char} {line : List Char} (h : c ∈ chompCR line) : c ∈ line := by
  unfold chompCR at h
  split_ifs at h
  · exact List.dropLast_subset _ h
  · exact h

theorem linesFrom_no_newline (text acc : List Char) (hacc : '\n' ∉ acc) :
    ∀ l ∈ linesFrom acc text, '\n' ∉ l := by
  induction text generalizing acc with
  | nil =>
    simp only [linesFrom]
    split_ifs <;> simp [hacc]
  | cons c cs ih =>
    simp only [linesFrom]
    split_ifs with hc
    · intro l hl
      rcases List.mem_cons.mp hl with rfl | hl
      · exact fun h => hacc (by simpa using mem_of_mem_chompCR h)
      · exact ih [] (by simp) l hl
    · exact ih (c :: acc) (by simp [hacc, Ne.symm hc])

theorem lines_no_newline {text l : List Char} (h : l ∈ lines text) : '\n' ∉ l :=
  linesFrom_no_newline text [] (by simp) l h

theorem linesFrom_append_newline (body acc : List Char) (h : '\n' ∉ body) :
    linesFrom acc (body ++ ['\n']) = [chompCR (acc.reverse ++ body)] := by
  induction body generalizing acc with
  | nil => simp [linesFrom]
  | cons c cs ih =>
    have hc : c ≠ '\n' := fun e => h (by simp [e])
    have hcs : '\n' ∉ cs := fun e => h (List.mem_cons_of_mem _ e)
    simp [linesFrom, hc, ih (c :: acc) hcs]

theorem lines_append_newline {body : List Char} (h : '\n' ∉ body) :
    lines (body ++ ['\n']) = [chompCR body] := by
  simpa [lines] using linesFrom_append_newline body [] h

theorem count_newline_unlines (ls : List (List Char)) (h : ∀ l ∈ ls, '\n' ∉ l) :
    (unlines ls).count '\n' = ls.length := by
  induction ls with
  | nil => rfl
  | cons l ls ih =>
    have hl : l.count '\n' = 0 := List.count_eq_zero.mpr (h l (by simp))
    have htail := ih (fun t ht => h t (List.mem_cons_of_mem _ ht))
    simp only [unlines, List.flatMap_cons, List.count_append, List.length_cons] at htail ⊢
    simp [hl, htail]
    omega

end Ostep.TextLines

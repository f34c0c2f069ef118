import Ostep.RunLength
import Ostep.TextLines
import Mathlib.Tactic.IntervalCases

/-!
# wzip and wunzip

wzip writes each run as one decimal digit and the run's character, all lines of the file
behind each other on one line. A run goes on through every space, whatever its own character
is. wunzip reads digit/character pairs line by line and prints the expansion on one line.
A panic (`unwrap` of `None`, an index out of range, overflow of the `u32` counter in the
debug build) is `none`.
-/

namespace Ostep.WzipRoundTrip
open RunLength TextLines

/-- `char::from_digit(num, 10)`. -/
def fromDigit (num : ℕ) : Option Char := if num < 10 then some num.digitChar else none

/-- `char::to_digit(c, 10)`. -/
def toDigit (c : Char) : Option ℕ := if c.isDigit then some (c.toNat - 48) else none

/-- `from_digit(num_chrs, 10).unwrap()` and `curr`, pushed to `res_vect`. -/
def pushRun (resVect : List Char) (numChrs : ℕ) (curr : Char) : Option (List Char) :=
  (fromDigit numChrs).map (fun toPush => resVect ++ [toPush, curr])

/-- The character loop of wzip and the push after it. -/
def encodeChars (resVect : List Char) (curr : Char) (numChrs : ℕ) :
    List Char → Option (List Char)
  | [] => pushRun resVect numChrs curr
  | chr :: res =>
    if chr ≠ curr ∧ chr ≠ ' ' then do
      let pushed ← pushRun resVect numChrs curr
      encodeChars pushed chr 1 res
    else if numChrs + 1 < 2 ^ 32 then encodeChars resVect curr (numChrs + 1) res
    else none

/-- One line of wzip; `res.next().unwrap()` fails on an empty one. -/
def encodeLine (resVect : List Char) : List Char → Option (List Char)
  | [] => none
  | curr :: res => encodeChars resVect curr 1 res

/-- The standard output of wzip on a file, `println!` included. -/
def wzip (file : List Char) : Option (List Char) :=
  ((lines file).foldlM encodeLine []).map (· ++ ['\n'])

/-- One line of wunzip: `res[x]` and `res[x+1]` for each even `x`. -/
def decodeLine (resVect : List Char) : List Char → Option (List Char)
  | [] => some resVect
  | [currNumberChr] => (toDigit currNumberChr).bind (fun _ => none)
  | currNumberChr :: currChr :: res =>
    (toDigit currNumberChr).bind
      (fun currNumber => decodeLine (resVect ++ List.replicate currNumber currChr) res)

/-- The standard output of wunzip on a file. -/
def wunzip (file : List Char) : Option (List Char) :=
  ((lines file).foldlM decodeLine []).map (· ++ ['\n'])

/-- The encoder's rule: a run also swallows spaces. -/
def absorbs (curr chr : Char) : Bool := chr = curr || chr = ' '

/-- A run as the encoder writes it. -/
def pairText (run : ℕ × Char) : List Char := [run.1.digitChar, run.2]

def lineRuns : List Char → List (ℕ × Char)
  | [] => []
  | curr :: res => runsFrom absorbs curr 1 res

/-- A line as it comes back from its runs. -/
def smearLine : List Char → List Char
  | [] => []
  | curr :: res => curr :: smear absorbs curr res

theorem expand_lineRuns (l : List Char) : expand (lineRuns l) = smearLine l := by
  cases l with
  | nil => rfl
  | cons curr res => simp [lineRuns, smearLine, expand_runsFrom]

theorem toDigit_digitChar {n : ℕ} (h : n < 10) : toDigit n.digitChar = some n := by
  interval_cases n <;> decide

theorem digitChar_ne_newline {n : ℕ} (h : n < 10) : n.digitChar ≠ '\n' := by
  interval_cases n <;> decide

theorem pushRun_some {resVect out : List Char} {n : ℕ} {curr : Char}
    (h : pushRun resVect n curr = some out) : n < 10 ∧ out = resVect ++ pairText (n, curr) := by
  unfold pushRun fromDigit at h
  split_ifs at h with hn
  · exact ⟨hn, by simpa [pairText, eq_comm] using h⟩
  · simp at h

/-- A finished line is its runs written out, all of them short enough for a digit. -/
theorem encodeChars_some {resVect out : List Char} {curr : Char} {n : ℕ} {res : List Char}
    (h : encodeChars resVect curr n res = some out) :
    out = resVect ++ (runsFrom absorbs curr n res).flatMap pairText ∧
      ∀ r ∈ runsFrom absorbs curr n res, r.1 < 10 := by
  induction res generalizing resVect curr n with
  | nil =>
    obtain ⟨hn, rfl⟩ := pushRun_some h
    simp [runsFrom, hn]
  | cons chr res ih =>
    simp only [encodeChars] at h
    split_ifs at h with hnew hsmall
    · have habs : absorbs curr chr = false := by simpa [absorbs] using hnew
      obtain ⟨pushed, hpush, hrest⟩ := Option.bind_eq_some_iff.mp h
      obtain ⟨hn, rfl⟩ := pushRun_some hpush
      obtain ⟨hout, hall⟩ := ih hrest
      refine ⟨by simp [runsFrom, habs, hout], ?_⟩
      simpa [runsFrom, habs, hn] using hall
    · have habs : absorbs curr chr = true := by
        simp only [absorbs, Bool.or_eq_true, decide_eq_true_eq]
        tauto
      simpa [runsFrom, habs] using ih h

theorem encodeLine_some {resVect out l : List Char} (h : encodeLine resVect l = some out) :
    out = resVect ++ (lineRuns l).flatMap pairText ∧ ∀ r ∈ lineRuns l, r.1 < 10 := by
  cases l with
  | nil => simp [encodeLine] at h
  | cons curr res => exact encodeChars_some h

theorem encodeLines_some {ls : List (List Char)} {resVect out : List Char}
    (h : ls.foldlM encodeLine resVect = some out) :
    out = resVect ++ (ls.flatMap lineRuns).flatMap pairText ∧
      ∀ r ∈ ls.flatMap lineRuns, r.1 < 10 := by
  induction ls generalizing resVect with
  | nil => simpa [eq_comm] using h
  | cons l ls ih =>
    rw [List.foldlM_cons] at h
    obtain ⟨mid, hmid, hrest⟩ := Option.bind_eq_some_iff.mp h
    obtain ⟨rfl, hl⟩ := encodeLine_some hmid
    obtain ⟨rfl, hls⟩ := ih hrest
    refine ⟨by simp, ?_⟩
    intro r hr
    rw [List.flatMap_cons, List.mem_append] at hr
    rcases hr with hr | hr
    · exact hl r hr
    · exact hls r hr

theorem decodeLine_pairs (runs : List (ℕ × Char)) (h : ∀ r ∈ runs, r.1 < 10)
    (resVect tail : List Char) :
    decodeLine resVect (runs.flatMap pairText ++ tail) =
      decodeLine (resVect ++ expand runs) tail := by
  induction runs generalizing resVect with
  | nil => simp
  | cons r runs ih =>
    have hr : r.1 < 10 := h r (by simp)
    have htail := ih (fun q hq => h q (List.mem_cons_of_mem _ hq))
    simp [pairText, decodeLine, toDigit_digitChar hr, htail]

theorem lineRuns_spec {l : List Char} {r : ℕ × Char} (h : r ∈ lineRuns l) :
    0 < r.1 ∧ r.2 ∈ l := by
  cases l with
  | nil => simp [lineRuns] at h
  | cons curr res =>
    exact ⟨runsFrom_pos absorbs curr 1 Nat.one_pos res r h,
      List.mem_cons.mpr (runsFrom_mem absorbs curr 1 res r h)⟩

/-- wunzip on a line of runs. When the last run's character is `'\r'`, `lines` takes it for
part of the line break, and the digit left over has no character behind it. -/
theorem wunzip_runs (runs : List (ℕ × Char)) (hdigit : ∀ r ∈ runs, r.1 < 10)
    (hpos : ∀ r ∈ runs, 0 < r.1) (hline : ∀ r ∈ runs, r.2 ≠ '\n') :
    wunzip (runs.flatMap pairText ++ ['\n']) =
      if (expand runs).getLast? = some '\r' then none else some (expand runs ++ ['\n']) := by
  have hnl : '\n' ∉ runs.flatMap pairText := by
    intro h
    obtain ⟨r, hr, hmem⟩ := List.mem_flatMap.mp h
    have hor : '\n' = r.1.digitChar ∨ '\n' = r.2 := by simpa [pairText] using hmem
    rcases hor with h | h
    · exact digitChar_ne_newline (hdigit r hr) h.symm
    · exact hline r hr h.symm
  rw [wunzip, lines_append_newline hnl, expand_getLast? runs hpos]
  induction runs using List.reverseRecOn with
  | nil => simp [chompCR, decodeLine]
  | append_singleton runs r _ =>
    have hr : r.1 < 10 := hdigit r (by simp)
    have hruns : ∀ q ∈ runs, q.1 < 10 := fun q hq => hdigit q (by simp [hq])
    have hlast : ((runs ++ [r]).flatMap pairText).getLast? = some r.2 := by
      simp [pairText]
    by_cases hcr : r.2 = '\r'
    · have hchomp : chompCR ((runs ++ [r]).flatMap pairText) =
          runs.flatMap pairText ++ [r.1.digitChar] := by
        rw [chompCR, hlast, hcr, if_pos rfl]
        simp [pairText, List.dropLast_append_of_ne_nil]
      rw [hchomp, List.foldlM_cons, decodeLine_pairs runs hruns]
      simp [decodeLine, hcr]
    · have hchomp : chompCR ((runs ++ [r]).flatMap pairText) =
          (runs ++ [r]).flatMap pairText ++ [] := by
        rw [chompCR, hlast, if_neg (by simpa using hcr), List.append_nil]
      rw [hchomp, List.foldlM_cons, decodeLine_pairs _ hdigit]
      simp [decodeLine, hcr]

/-- What is left of a file after wzip and wunzip, its lines joined. -/
def smeared (file : List Char) : List Char := (lines file).flatMap smearLine

theorem wunzip_wzip {file out : List Char} (h : wzip file = some out) :
    wunzip out =
      if (smeared file).getLast? = some '\r' then none else some (smeared file ++ ['\n']) := by
  obtain ⟨body, hbody, rfl⟩ := Option.map_eq_some_iff.mp h
  obtain ⟨rfl, hdigit⟩ := encodeLines_some hbody
  have hruns : expand ((lines file).flatMap lineRuns) = smeared file := by
    rw [smeared]
    generalize lines file = ls
    induction ls with
    | nil => rfl
    | cons l ls ih => simp [expand_lineRuns, ← ih]
  rw [List.nil_append, wunzip_runs _ hdigit, hruns]
  · intro r hr
    obtain ⟨l, -, hr⟩ := List.mem_flatMap.mp hr
    exact (lineRuns_spec hr).1
  · intro r hr hnl
    obtain ⟨l, hl, hr⟩ := List.mem_flatMap.mp hr
    exact lines_no_newline hl (hnl ▸ (lineRuns_spec hr).2)

theorem smear_mem {curr : Char} {res : List Char} {c : Char} (h : c ∈ smear absorbs curr res) :
    c = curr ∨ c ∈ res := by
  induction res generalizing curr with
  | nil => simp [smear] at h
  | cons chr res ih =>
    simp only [smear] at h
    split_ifs at h
    · rcases List.mem_cons.mp h with rfl | h
      · exact Or.inl rfl
      · rcases ih h with h | h
        · exact Or.inl h
        · exact Or.inr (List.mem_cons_of_mem _ h)
    · rcases List.mem_cons.mp h with rfl | h
      · exact Or.inr (by simp)
      · rcases ih h with h | h
        · exact Or.inr (by simp [h])
        · exact Or.inr (List.mem_cons_of_mem _ h)

theorem smearLine_mem {l : List Char} {c : Char} (h : c ∈ smearLine l) : c ∈ l := by
  cases l with
  | nil => exact h
  | cons curr res =>
    rcases List.mem_cons.mp h with rfl | h
    · simp
    · exact List.mem_cons.mpr (smear_mem h)

/-- Every space of the line stands before all its other characters. -/
def SpacesLead (l : List Char) : Prop := ' ' ∉ l.dropWhile (· = ' ')

instance (l : List Char) : Decidable (SpacesLead l) := inferInstanceAs (Decidable (_ ∉ _))

theorem smear_eq_iff (curr : Char) (res : List Char) :
    smear absorbs curr res = res ↔
      if curr = ' ' then SpacesLead res else ' ' ∉ res := by
  induction res generalizing curr with
  | nil => simp [smear, SpacesLead]
  | cons chr res ih =>
    by_cases hchr : chr = ' '
    · subst hchr
      by_cases hcurr : curr = ' '
      · simpa [smear, absorbs, hcurr, SpacesLead] using ih ' '
      · simp [smear, absorbs, hcurr]
    · by_cases heq : chr = curr
      · subst heq
        simpa [smear, absorbs, hchr, Ne.symm hchr] using ih chr
      · have hstep : smear absorbs curr (chr :: res) = chr :: smear absorbs chr res := by
          simp [smear, absorbs, heq, hchr]
        rw [hstep, List.cons.injEq, ih chr]
        simp [hchr, Ne.symm hchr, SpacesLead]

theorem smearLine_eq_iff (l : List Char) : smearLine l = l ↔ SpacesLead l := by
  cases l with
  | nil => simp [smearLine, SpacesLead]
  | cons curr res =>
    by_cases h : curr = ' '
    · simp [smearLine, smear_eq_iff, h, SpacesLead]
    · simp [smearLine, smear_eq_iff, h, SpacesLead, Ne.symm h]

/-- wunzip prints the lines of the file back, each followed by its line break. -/
def PrintsBack (file out : List Char) : Prop := wunzip out = some (unlines (lines file))

/-- The files that survive: one line, its spaces all in front, no `'\r'` at its end. -/
def OneFaithfulLine (file : List Char) : Prop :=
  ∃ l, lines file = [l] ∧ SpacesLead l ∧ l.getLast? ≠ some '\r'

theorem wzip_roundTrip_iff (file out : List Char) (h : wzip file = some out) :
    PrintsBack file out ↔ OneFaithfulLine file := by
  rw [PrintsBack, wunzip_wzip h]
  constructor
  · intro hback
    split_ifs at hback with hcr
    have htext : smeared file ++ ['\n'] = unlines (lines file) := Option.some.inj hback
    have hclean : '\n' ∉ smeared file := by
      intro hmem
      obtain ⟨l, hl, hmem⟩ := List.mem_flatMap.mp hmem
      exact lines_no_newline hl (smearLine_mem hmem)
    -- both sides have one line break, so the file has one line
    have hone : (lines file).length = 1 := by
      rw [← count_newline_unlines _ (fun l hl => lines_no_newline hl), ← htext]
      simp [List.count_eq_zero.mpr hclean]
    obtain ⟨l, hl⟩ := List.length_eq_one_iff.mp hone
    have hsmear : smearLine l = l := by
      simpa [smeared, hl, unlines] using htext
    refine ⟨l, hl, (smearLine_eq_iff l).mp hsmear, ?_⟩
    simpa [smeared, hl, hsmear] using hcr
  · rintro ⟨l, hl, hspaces, hcr⟩
    have hsmear : smearLine l = l := (smearLine_eq_iff l).mpr hspaces
    simp [smeared, hl, hsmear, hcr, unlines]

/-- The one-line file `  aab`. -/
theorem wzip_roundTrip_leading_spaces :
    PrintsBack [' ', ' ', 'a', 'a', 'b', '\n'] ['2', ' ', '2', 'a', '1', 'b', '\n'] :=
  (wzip_roundTrip_iff _ _ (by decide)).mpr
    ⟨[' ', ' ', 'a', 'a', 'b'], by decide, by decide, by decide⟩

/-- The file `a b`: the space comes back as a second `a`. -/
theorem wzip_roundTrip_loses_space :
    wzip ['a', ' ', 'b', '\n'] = some ['2', 'a', '1', 'b', '\n'] ∧
      wunzip ['2', 'a', '1', 'b', '\n'] = some ['a', 'a', 'b', '\n'] ∧
      ¬ PrintsBack ['a', ' ', 'b', '\n'] ['2', 'a', '1', 'b', '\n'] := by
  refine ⟨by decide, by decide, ?_⟩
  rw [PrintsBack]
  decide

end Ostep.WzipRoundTrip

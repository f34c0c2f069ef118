import Ostep.WzipRoundTrip

/-!
# wunzip on what wzip writes

wunzip takes a line apart into pairs of a digit and a character. What wzip writes is such
pairs, but the last character of the line is taken for part of the line break when it is `'\r'`.
-/

namespace Ostep.WzipRoundTrip
open RunLength TextLines

/-- A decimal digit at every even position, and a character behind it. -/
def Paired (l : List Char) : Prop :=
  ∀ k, 2 * k < l.length → (l[2 * k]?.any Char.isDigit) = true ∧ 2 * k + 1 < l.length

theorem paired_cons {d c : Char} {l : List Char} :
    Paired (d :: c :: l) ↔ d.isDigit = true ∧ Paired l := by
  constructor
  · intro h
    refine ⟨by simpa using (h 0 (by simp)).1, fun k hk => ?_⟩
    obtain ⟨hdigit, hlt⟩ := h (k + 1) (by simpa [Nat.mul_add] using hk)
    refine ⟨by simpa [Nat.mul_add] using hdigit, ?_⟩
    simp only [List.length_cons] at hlt
    omega
  · rintro ⟨hd, h⟩ k hk
    cases k with
    | zero => simpa using hd
    | succ k =>
      obtain ⟨hdigit, hlt⟩ := h k (by simpa [Nat.mul_add] using hk)
      refine ⟨by simpa [Nat.mul_add] using hdigit, ?_⟩
      simp only [List.length_cons]
      omega

/-- wunzip gets through a line exactly when it is made of pairs. -/
theorem decodeLine_isSome (resVect l : List Char) :
    (decodeLine resVect l).isSome = true ↔ Paired l := by
  induction resVect, l using decodeLine.induct with
  | case1 resVect => simp [decodeLine, Paired]
  | case2 resVect d =>
    have hnot : ¬ Paired [d] := fun h => absurd (h 0 (by simp)).2 (by simp)
    cases hd : toDigit d <;> simp [decodeLine, hd, hnot]
  | case3 resVect d c l ih =>
    rw [paired_cons]
    by_cases hd : d.isDigit = true
    · have hdigit : toDigit d = some (d.toNat - 48) := if_pos hd
      rw [decodeLine, hdigit, Option.bind_some, ih]
      exact (and_iff_right hd).symm
    · simp [decodeLine, toDigit, hd]

theorem decodeLines_isSome (ls : List (List Char)) (resVect : List Char) :
    (ls.foldlM decodeLine resVect).isSome = true ↔ ∀ l ∈ ls, Paired l := by
  induction ls generalizing resVect with
  | nil => simp
  | cons l ls ih =>
    rw [List.foldlM_cons, List.forall_mem_cons, ← decodeLine_isSome resVect l]
    cases h : decodeLine resVect l with
    | none => simp
    | some mid => simpa using ih mid

/-- A run goes on through spaces, so the last one is of the last character that is none. -/
theorem smear_getLast? (curr : Char) (res : List Char) :
    (curr :: smear absorbs curr res).getLast? =
      some (((res.filter (· ≠ ' ')).getLast?).getD curr) := by
  induction res generalizing curr with
  | nil => simp [smear]
  | cons chr res ih =>
    by_cases hchr : chr = ' '
    · rw [smear, if_pos (by simp [absorbs, hchr]), List.getLast?_cons_cons, ih,
        List.filter_cons_of_neg (by simp [hchr])]
    · have hlast : ((chr :: res).filter (· ≠ ' ')).getLast? =
          some (((res.filter (· ≠ ' ')).getLast?).getD chr) := by
        rw [List.filter_cons_of_pos (by simp [hchr]), List.getLast?_cons]
      rw [hlast, Option.getD_some]
      by_cases heq : chr = curr
      · rw [smear, if_pos (by simp [absorbs, heq]), List.getLast?_cons_cons, ih, heq]
      · rw [smear, if_neg (by simp [absorbs, heq, hchr]), List.getLast?_cons_cons, ih]

/-- The last character of the last line that is no space is `'\r'`. -/
def EndsInCR (file : List Char) : Prop :=
  ∃ l, (lines file).getLast? = some l ∧ (l.filter (· ≠ ' ')).getLast? = some '\r'

theorem smearLine_length (l : List Char) : (smearLine l).length = l.length := by
  cases l with
  | nil => rfl
  | cons curr res => simp [smearLine]

theorem smearLine_getLast? (l : List Char) :
    (smearLine l).getLast? = some '\r' ↔ (l.filter (· ≠ ' ')).getLast? = some '\r' := by
  cases l with
  | nil => simp [smearLine]
  | cons curr res =>
    rw [smearLine, smear_getLast?]
    by_cases hcurr : curr = ' '
    · rw [List.filter_cons_of_neg (by simp [hcurr]), hcurr]
      cases (res.filter (· ≠ ' ')).getLast? <;> simp
    · rw [List.filter_cons_of_pos (by simp [hcurr]), List.getLast?_cons]

/-- wzip fails on an empty line. -/
theorem encodeLines_ne_nil {ls : List (List Char)} {resVect body : List Char}
    (h : ls.foldlM encodeLine resVect = some body) : ∀ l ∈ ls, l ≠ [] := by
  induction ls generalizing resVect with
  | nil => simp
  | cons l ls ih =>
    rw [List.foldlM_cons] at h
    obtain ⟨mid, hmid, hrest⟩ := Option.bind_eq_some_iff.mp h
    refine List.forall_mem_cons.mpr ⟨?_, ih hrest⟩
    rintro rfl
    simp [encodeLine] at hmid

theorem smeared_getLast? {file out : List Char} (h : wzip file = some out) :
    (smeared file).getLast? = some '\r' ↔ EndsInCR file := by
  obtain ⟨body, hbody, -⟩ := Option.map_eq_some_iff.mp h
  have hne := encodeLines_ne_nil hbody
  clear hbody
  rw [smeared, EndsInCR]
  generalize lines file = ls at hne
  induction ls using List.reverseRecOn with
  | nil => simp
  | append_singleton ls l _ =>
    have hl : smearLine l ≠ [] := by
      have hlen := smearLine_length l
      intro hnil
      rw [hnil] at hlen
      exact hne l (by simp) (List.length_eq_zero_iff.mp hlen.symm)
    rw [List.flatMap_append, List.flatMap_singleton, List.getLast?_append_of_ne_nil _ hl,
      smearLine_getLast?]
    simp

/-- No panic, and as many characters as the lines of the file have. -/
structure Accepts (file out : List Char) : Prop where
  paired : ∀ l ∈ lines out, Paired l
  prints : ∃ text, wunzip out = some (text ++ ['\n']) ∧
    text.length = ((lines file).map List.length).sum

theorem wunzip_accepts_iff (file out : List Char) (h : wzip file = some out) :
    Accepts file out ↔ ¬ EndsInCR file := by
  rw [← smeared_getLast? h]
  have hunzip := wunzip_wzip h
  constructor
  · rintro ⟨-, text, htext, -⟩ hcr
    rw [if_pos hcr, htext] at hunzip
    cases hunzip
  · intro hcr
    rw [if_neg hcr] at hunzip
    refine ⟨?_, smeared file, hunzip, ?_⟩
    · rw [← decodeLines_isSome (lines out) []]
      obtain ⟨body, hbody, -⟩ := Option.map_eq_some_iff.mp hunzip
      rw [hbody]
      rfl
    · rw [smeared, List.length_flatMap]
      exact congrArg List.sum (List.map_congr_left fun l _ => smearLine_length l)

/-- The file `a  b`. -/
theorem wunzip_accepts_spaces :
    Accepts ['a', ' ', ' ', 'b', '\n'] ['3', 'a', '1', 'b', '\n'] :=
  (wunzip_accepts_iff _ _ (by decide)).mpr (by
    rintro ⟨l, hl, hcr⟩
    obtain rfl : ['a', ' ', ' ', 'b'] = l := Option.some.inj hl
    exact absurd hcr (by decide))

/-- The file `a` and a carriage return, without a line break: wunzip reads `1a1`. -/
theorem wunzip_panics_on_carriage_return :
    wzip ['a', '\r'] = some ['1', 'a', '1', '\r', '\n'] ∧
      wunzip ['1', 'a', '1', '\r', '\n'] = none ∧
      ¬ Accepts ['a', '\r'] ['1', 'a', '1', '\r', '\n'] := by
  have hnone : wunzip ['1', 'a', '1', '\r', '\n'] = none := by decide
  refine ⟨by decide, hnone, ?_⟩
  rintro ⟨-, text, htext, -⟩
  rw [hnone] at htext
  cases htext

end Ostep.WzipRoundTrip

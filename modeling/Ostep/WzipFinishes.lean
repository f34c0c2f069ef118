import Ostep.WzipRoundTrip
import Mathlib.Data.List.Chain

/-!
# Where wzip gets through

wzip fails on an empty line, and on a run that is too long for a digit. The runs that wunzip
expands from a line of distinct neighbours are the ones that wzip finds again.
-/

namespace Ostep.WzipRoundTrip
open RunLength TextLines

theorem absorbs_trans (a c d : Char) (hc : absorbs a c = true) (hd : absorbs c d = true) :
    absorbs a d = true := by
  simp only [absorbs, Bool.or_eq_true, decide_eq_true_eq] at *
  rcases hd with rfl | rfl
  · exact hc
  · exact .inr rfl

/-- The encoder gets through text whose runs each fit a digit. -/
theorem encodeChars_eq {curr : Char} {n : ℕ} {res : List Char} (resVect : List Char)
    (h : ∀ r ∈ runsFrom absorbs curr n res, r.1 < 10) :
    encodeChars resVect curr n res =
      some (resVect ++ (runsFrom absorbs curr n res).flatMap pairText) := by
  induction res generalizing resVect curr n with
  | nil =>
    have hn : n < 10 := h (n, curr) (by simp [runsFrom])
    simp [encodeChars, pushRun, fromDigit, hn, runsFrom, pairText]
  | cons chr res ih =>
    by_cases hnew : chr ≠ curr ∧ chr ≠ ' '
    · have habs : ¬ absorbs curr chr = true := by simpa [absorbs] using hnew
      rw [runsFrom, if_neg habs] at h ⊢
      obtain ⟨hn, hrest⟩ := List.forall_mem_cons.mp h
      rw [encodeChars, if_pos hnew, pushRun, fromDigit, if_pos hn]
      simpa [pairText] using ih (resVect ++ [n.digitChar, curr]) hrest
    · have habs : absorbs curr chr = true := by
        simp only [absorbs, Bool.or_eq_true, decide_eq_true_eq]
        tauto
      rw [runsFrom, if_pos habs] at h ⊢
      have hn : n + 1 < 10 := by
        by_contra hn
        obtain ⟨r, hr, hle⟩ := (exists_run_iff absorbs absorbs_trans (by decide : 0 < 10) curr
          (n + 1) res).mpr (.inl (by omega))
        exact absurd (h r hr) (by omega)
      rw [encodeChars, if_neg hnew, if_pos (by omega), ih resVect h]

theorem encodeLine_eq {l : List Char} (resVect : List Char) (hne : l ≠ [])
    (h : ∀ r ∈ lineRuns l, r.1 < 10) :
    encodeLine resVect l = some (resVect ++ (lineRuns l).flatMap pairText) := by
  cases l with
  | nil => exact absurd rfl hne
  | cons curr res => exact encodeChars_eq resVect h

theorem encodeLines_isSome (ls : List (List Char)) (resVect : List Char) :
    (ls.foldlM encodeLine resVect).isSome = true ↔
      ∀ l ∈ ls, l ≠ [] ∧ ∀ r ∈ lineRuns l, r.1 < 10 := by
  induction ls generalizing resVect with
  | nil => simp
  | cons l ls ih =>
    rw [List.foldlM_cons, List.forall_mem_cons]
    cases h : encodeLine resVect l with
    | none =>
      have hnot : ¬ (l ≠ [] ∧ ∀ r ∈ lineRuns l, r.1 < 10) := by
        rintro ⟨hne, hruns⟩
        rw [encodeLine_eq resVect hne hruns] at h
        cases h
      simp only [bind, Option.bind_none, Option.isSome_none, Bool.false_eq_true, false_iff]
      exact fun hall => hnot hall.1
    | some mid =>
      have hline : l ≠ [] ∧ ∀ r ∈ lineRuns l, r.1 < 10 := by
        refine ⟨?_, (encodeLine_some h).2⟩
        rintro rfl
        simp [encodeLine] at h
      exact (ih mid).trans (and_iff_right hline).symm

/-- Ten characters in a row, the last nine of which are the first one or spaces. -/
def HasLongRun (l : List Char) : Prop :=
  ∃ c w, c :: w <:+: l ∧ w.length = 9 ∧ ∀ d ∈ w, d = c ∨ d = ' '

theorem hasLongRun_iff (l : List Char) : HasLongRun l ↔ ∃ r ∈ lineRuns l, 10 ≤ r.1 := by
  cases l with
  | nil => simp [HasLongRun, lineRuns]
  | cons curr res =>
    have hwindow : HasLongRun (curr :: res) ↔ Window absorbs 10 (curr :: res) := by
      simp [HasLongRun, Window, absorbs]
    rw [hwindow, window_cons absorbs (by decide), lineRuns,
      exists_run_iff absorbs absorbs_trans (by decide)]

/-- wzip panics on no file but one with an empty line or a long run. -/
theorem wzip_finishes_iff (file : List Char) :
    (wzip file).isSome = true ↔ ∀ l ∈ lines file, l ≠ [] ∧ ¬ HasLongRun l := by
  rw [wzip, Option.isSome_map, encodeLines_isSome]
  refine forall₂_congr fun l _ => and_congr_right fun _ => ?_
  rw [hasLongRun_iff]
  push Not
  rfl

theorem wzip_panics_on_empty_line : ¬ ∀ file : List Char, (wzip file).isSome = true :=
  fun h => absurd (h ['\n']) (by decide)

/-! ## From the runs back to the runs -/

theorem lines_of_no_newline {body : List Char} (hne : body ≠ []) (h : '\n' ∉ body) :
    lines body = [body] := by
  have hgen : ∀ acc : List Char, acc ++ body ≠ [] → linesFrom acc body = [acc.reverse ++ body] := by
    clear hne
    induction body with
    | nil =>
      intro acc hacc
      simp [linesFrom, show acc ≠ [] by simpa using hacc]
    | cons c cs ih =>
      intro acc _
      have hc : c ≠ '\n' := fun e => h (by simp [e])
      rw [linesFrom, if_neg hc, ih (fun e => h (List.mem_cons_of_mem _ e)) (c :: acc) (by simp)]
      simp
  simpa [lines] using hgen [] (by simpa using hne)

/-- Digits from 1 to 9 and characters that are no space and no line break, neighbours distinct. -/
structure Canonical (pairs : List (ℕ × Char)) : Prop where
  nonempty : pairs ≠ []
  digit : ∀ p ∈ pairs, 1 ≤ p.1 ∧ p.1 ≤ 9
  char : ∀ p ∈ pairs, p.2 ≠ ' ' ∧ p.2 ≠ '\n' ∧ p.2 ≠ '\r'
  distinct : pairs.IsChain (fun p q => p.2 ≠ q.2)

theorem Canonical.lineRuns {pairs : List (ℕ × Char)} (h : Canonical pairs) :
    lineRuns (expand pairs) = pairs := by
  obtain ⟨p, ps, rfl⟩ := List.exists_cons_of_ne_nil h.nonempty
  obtain ⟨n, c⟩ := p
  obtain ⟨m, rfl⟩ : ∃ m, n = m + 1 := ⟨n - 1, by have := (h.digit (n, c) (by simp)).1; simp only at this; omega⟩
  have hself : ∀ c, absorbs c c = true := fun c => by simp [absorbs]
  have hnew : ((m + 1, c) :: ps).IsChain (fun r q => absorbs r.2 q.2 = false) := by
    refine List.IsChain.imp_of_mem_imp (fun p q _ hq hne => ?_) h.distinct
    simp [absorbs, Ne.symm hne, (h.char q hq).1]
  rw [expand_cons, List.replicate_succ, List.cons_append, WzipRoundTrip.lineRuns,
    runsFrom_replicate absorbs (hself c), Nat.add_comm 1 m,
    runsFrom_expand absorbs hself (fun r hr => (h.digit r (by simp [hr])).1) hnew]

theorem Canonical.expand_mem {pairs : List (ℕ × Char)} (h : Canonical pairs) {c : Char}
    (hc : c ∈ expand pairs) : c ≠ '\n' ∧ c ≠ '\r' := by
  obtain ⟨p, hp, hc⟩ := List.mem_flatMap.mp hc
  rw [List.eq_of_mem_replicate hc]
  exact (h.char p hp).2

theorem Canonical.expand_ne_nil {pairs : List (ℕ × Char)} (h : Canonical pairs) :
    expand pairs ≠ [] := by
  intro hnil
  have := h.lineRuns
  rw [hnil] at this
  exact h.nonempty this.symm

theorem Canonical.wunzip {pairs : List (ℕ × Char)} (h : Canonical pairs) {brk : List Char}
    (hbrk : brk = [] ∨ brk = ['\n']) :
    wunzip (pairs.flatMap pairText ++ brk) = some (expand pairs ++ ['\n']) := by
  have hdigit : ∀ r ∈ pairs, r.1 < 10 := fun r hr => by have := (h.digit r hr).2; omega
  rcases hbrk with rfl | rfl
  · have hne : pairs.flatMap pairText ≠ [] := by
      obtain ⟨p, ps, rfl⟩ := List.exists_cons_of_ne_nil h.nonempty
      simp [pairText]
    have hnl : '\n' ∉ pairs.flatMap pairText := by
      intro hmem
      obtain ⟨p, hp, hc⟩ := List.mem_flatMap.mp hmem
      rcases List.mem_pair.mp hc with hc | hc
      · exact digitChar_ne_newline (hdigit p hp) hc.symm
      · exact (h.char p hp).2.1 hc.symm
    have hdecode := decodeLine_pairs pairs hdigit [] []
    simp only [List.append_nil, List.nil_append, decodeLine] at hdecode
    rw [List.append_nil, WzipRoundTrip.wunzip, lines_of_no_newline hne hnl]
    simp [hdecode]
  · rw [wunzip_runs pairs hdigit (fun r hr => (h.digit r hr).1) (fun r hr => (h.char r hr).2.1),
      if_neg]
    intro hlast
    exact (h.expand_mem (List.mem_of_getLast? hlast)).2 rfl

/-- wunzip and then wzip give a canonical line back, with or without a line break behind it. -/
theorem wzip_wunzip {pairs : List (ℕ × Char)} (h : Canonical pairs) {brk : List Char}
    (hbrk : brk = [] ∨ brk = ['\n']) :
    ∃ out, wunzip (pairs.flatMap pairText ++ brk) = some out ∧
      wzip out = some (pairs.flatMap pairText ++ ['\n']) := by
  have hlines : lines (expand pairs ++ ['\n']) = [expand pairs] := by
    rw [lines_append_newline fun hmem => (h.expand_mem hmem).1 rfl, chompCR, if_neg]
    intro hlast
    exact (h.expand_mem (List.mem_of_getLast? hlast)).2 rfl
  have hencode := encodeLine_eq [] h.expand_ne_nil (by
    rw [h.lineRuns]
    exact fun r hr => by have := (h.digit r hr).2; omega)
  rw [h.lineRuns, List.nil_append] at hencode
  refine ⟨expand pairs ++ ['\n'], h.wunzip hbrk, ?_⟩
  rw [wzip, hlines]
  simp [hencode]

/-- The line `2a1b`. -/
theorem wzip_wunzip_two_runs :
    ∃ out, wunzip ['2', 'a', '1', 'b', '\n'] = some out ∧ wzip out = some ['2', 'a', '1', 'b', '\n'] := by
  have h : Canonical [(2, 'a'), (1, 'b')] := ⟨by decide, by decide, by decide, by simp⟩
  exact wzip_wunzip h (.inr rfl)

end Ostep.WzipRoundTrip

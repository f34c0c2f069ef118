import Ostep.WishJobs

/-!
# What wish reads

`gets` stops at a line break, when the buffer is full and at the end of the input; `getcmd` takes
the last character off in each of these cases. The commands of a stream are what successive calls
of `getcmd` leave in the buffer until one of them returns -1.
-/

namespace Ostep.WishInput
open ByteBuffer WishParallelize WishJobs

/-- `'\n'` or `'\r'`. -/
def isBreak (c : UInt8) : Bool := c = 10 || c = 13

/-- The loop of `gets` with room for `n` more characters: what it stores, and what is left. -/
def getsFrom : ℕ → List UInt8 → List UInt8 × List UInt8
  | 0, input => ([], input)
  | _ + 1, [] => ([], [])
  | n + 1, c :: input =>
    if isBreak c then ([c], input)
    else (c :: (getsFrom n input).1, (getsFrom n input).2)

def gets (max : ℕ) (input : List UInt8) : List UInt8 × List UInt8 := getsFrom (max - 1) input

/-- At most `n` rounds of wish's loop over `getcmd`. -/
def commandsFrom : ℕ → List UInt8 → List Buffer
  | 0, _ => []
  | n + 1, input =>
    match getcmd (gets TOTALSIZE input).1 with
    | none => []
    | some buf => buf :: commandsFrom n (gets TOTALSIZE input).2

/-- Every round reads at least one character. -/
def commands (input : List UInt8) : List Buffer := commandsFrom (input.length + 1) input

/-- The string in a buffer. -/
def command (buf : Buffer) : List UInt8 := buf.bytes.takeWhile (· ≠ 0)

/-! ## One line -/

/-- Why `gets` stopped: at a line break, or full, or at the end of the input. -/
theorem getsFrom_spec (n : ℕ) (input : List UInt8) :
    (∃ l b, (getsFrom n input).1 = l ++ [b] ∧ input = l ++ b :: (getsFrom n input).2 ∧
      isBreak b = true ∧ l.length < n ∧ ∀ c ∈ l, isBreak c = false) ∨
    (input = (getsFrom n input).1 ++ (getsFrom n input).2 ∧
      (∀ c ∈ (getsFrom n input).1, isBreak c = false) ∧
      ((getsFrom n input).1.length = n ∨
        (getsFrom n input).1.length < n ∧ (getsFrom n input).2 = [])) := by
  induction n generalizing input with
  | zero => exact .inr ⟨rfl, by simp [getsFrom], .inl rfl⟩
  | succ n ih =>
    cases input with
    | nil => exact .inr ⟨rfl, by simp [getsFrom], .inr ⟨by simp [getsFrom], rfl⟩⟩
    | cons c input =>
      by_cases hc : isBreak c = true
      · rw [getsFrom, if_pos hc]
        exact .inl ⟨[], c, rfl, rfl, hc, by simp, by simp⟩
      · rw [getsFrom, if_neg hc]
        have hc : isBreak c = false := by simpa using hc
        rcases ih input with ⟨l, b, hfst, hinput, hb, hlen, hl⟩ | ⟨hinput, hall, hlen⟩
        · refine .inl ⟨c :: l, b, by rw [hfst]; rfl, ?_, hb, by simpa using hlen, ?_⟩
          · rw [List.cons_append, ← hinput]
          · exact List.forall_mem_cons.mpr ⟨hc, hl⟩
        · refine .inr ⟨?_, List.forall_mem_cons.mpr ⟨hc, hall⟩, ?_⟩
          · rw [List.cons_append, ← hinput]
          · simpa using hlen

theorem getcmd_nil : getcmd [] = none := rfl

/-- `getcmd` takes the last character off. -/
theorem getcmd_append {l : List UInt8} {c : UInt8} (h0 : 0 ∉ l) (hc : c ≠ 0)
    (hlen : l.length + 1 < TOTALSIZE) : ∃ buf, getcmd (l ++ [c]) = some buf ∧ command buf = l := by
  have hbytes : ((l ++ [c]) ++ List.replicate TOTALSIZE 0).take TOTALSIZE =
      l ++ c :: List.replicate (TOTALSIZE - (l.length + 1)) 0 := by
    have hle : (l ++ [c]).length ≤ TOTALSIZE := by
      rw [List.length_append, List.length_singleton]
      omega
    rw [List.take_append, List.take_of_length_le hle, List.take_replicate,
      List.length_append, List.length_singleton, Nat.min_eq_left (Nat.sub_le ..), List.append_assoc]
    rfl
  obtain ⟨k, hk⟩ : ∃ k, TOTALSIZE - (l.length + 1) = k + 1 := ⟨TOTALSIZE - (l.length + 2), by omega⟩
  have htake : (l ++ c :: List.replicate (k + 1) 0).takeWhile (· ≠ 0) = l ++ [c] := by
    have : l ++ c :: List.replicate (k + 1) 0 = (l ++ [c]) ++ 0 :: List.replicate k 0 := by
      simp [List.replicate_succ]
    rw [this, takeWhile_append_zero]
    simp [h0, Ne.symm hc]
  have hhead : (l ++ c :: List.replicate (k + 1) 0).head? ≠ some 0 := by
    cases l with
    | nil => simpa using hc
    | cons d l => simpa using fun h : d = 0 => h0 (by simp [h])
  rw [getcmd]
  simp only [hbytes, hk, htake]
  rw [if_neg hhead]
  refine ⟨_, rfl, ?_⟩
  have hset : (l ++ c :: List.replicate (k + 1) 0).set ((l ++ [c]).length - 1) 0 =
      l ++ 0 :: List.replicate (k + 1) 0 := by
    rw [List.length_append, List.length_singleton, Nat.add_sub_cancel, List.set_append_right _ _ le_rfl,
      Nat.sub_self]
    rfl
  rw [command]
  simp only [hset]
  exact takeWhile_append_zero l _ h0

/-- One round: what `gets` reads, and the line without its last character. -/
theorem round_spec {input : List UInt8} (hne : input ≠ []) (h0 : 0 ∉ input) :
    ∃ l c rest buf, gets TOTALSIZE input = (l ++ [c], rest) ∧ input = l ++ c :: rest ∧
      getcmd (l ++ [c]) = some buf ∧ command buf = l ∧ (∀ d ∈ l, isBreak d = false) ∧
      l.length + 1 < TOTALSIZE ∧
      (isBreak c = false → l.length + 2 = TOTALSIZE ∨ rest = []) := by
  have hread : ∃ l c rest, gets TOTALSIZE input = (l ++ [c], rest) ∧ input = l ++ c :: rest ∧
      (∀ d ∈ l, isBreak d = false) ∧ l.length + 1 < TOTALSIZE ∧
      (isBreak c = false → l.length + 2 = TOTALSIZE ∨ rest = []) := by
    rcases getsFrom_spec (TOTALSIZE - 1) input with ⟨l, b, hfst, hinput, hb, hlen, hl⟩ |
      ⟨hinput, hall, hlen⟩
    · exact ⟨l, b, _, by rw [← hfst]; rfl, hinput, hl, by omega, fun h => by rw [hb] at h; cases h⟩
    · have hp : (getsFrom (TOTALSIZE - 1) input).1 ≠ [] := by
        intro hnil
        rw [hnil] at hlen hinput
        rcases hlen with hlen | ⟨-, hrest⟩
        · cases hlen
        · exact hne (by rw [hinput, hrest]; rfl)
      obtain ⟨l, c, hp⟩ : ∃ l c, (getsFrom (TOTALSIZE - 1) input).1 = l ++ [c] :=
        ⟨_, _, (List.dropLast_append_getLast hp).symm⟩
      rw [hp] at hinput hall hlen
      rw [List.length_append, List.length_singleton] at hlen
      refine ⟨l, c, (getsFrom (TOTALSIZE - 1) input).2, by rw [← hp]; rfl, ?_, ?_, by omega, fun _ => ?_⟩
      · rwa [List.append_cons]
      · exact fun d hd => hall d (List.mem_append_left _ hd)
      · rcases hlen with hlen | ⟨-, hrest⟩
        · exact .inl (by omega)
        · exact .inr hrest
  obtain ⟨l, c, rest, hgets, rfl, hl, hlen, hstop⟩ := hread
  obtain ⟨hl0, hc0, -⟩ : 0 ∉ l ∧ 0 ≠ c ∧ 0 ∉ rest := by simpa [not_or] using h0
  obtain ⟨buf, hbuf, hcommand⟩ := getcmd_append hl0 hc0.symm hlen
  exact ⟨l, c, rest, buf, hgets, rfl, hbuf, hcommand, hl, hlen, hstop⟩

/-! ## All lines -/

theorem gets_rest_lt {input : List UInt8} (hne : input ≠ []) :
    (gets TOTALSIZE input).2.length < input.length := by
  rcases getsFrom_spec (TOTALSIZE - 1) input with ⟨l, b, -, hinput, -⟩ | ⟨hinput, -, hlen⟩
  · have := congrArg List.length hinput
    rw [List.length_append, List.length_cons] at this
    rw [gets]
    omega
  · have := congrArg List.length hinput
    have hpos := List.length_pos_iff.mpr hne
    rw [List.length_append] at this
    rw [gets]
    rcases hlen with hlen | ⟨-, hrest⟩
    · have : TOTALSIZE = 1000 := rfl
      omega
    · rw [hrest]
      exact hpos

/-- More rounds than there are characters change nothing. -/
theorem commandsFrom_eq {n m : ℕ} {input : List UInt8} (hn : input.length < n)
    (hm : input.length < m) : commandsFrom n input = commandsFrom m input := by
  induction n generalizing m input with
  | zero => omega
  | succ n ih =>
    obtain ⟨m, rfl⟩ : ∃ m', m = m' + 1 := ⟨m - 1, by omega⟩
    rw [commandsFrom, commandsFrom]
    by_cases hne : input = []
    · subst hne
      rfl
    · have hlt := gets_rest_lt hne
      rw [ih (m := m) (by omega) (by omega)]

theorem commands_nil : commands [] = [] := rfl

theorem commands_cons {input piece rest : List UInt8} {buf : Buffer}
    (hgets : gets TOTALSIZE input = (piece, rest)) (hbuf : getcmd piece = some buf) (hne : input ≠ []) :
    commands input = buf :: commands rest := by
  have hlt := gets_rest_lt hne
  rw [hgets] at hlt
  rw [commands, commandsFrom, hgets]
  simp only [hbuf]
  rw [commands, commandsFrom_eq hlt (Nat.lt_succ_self _)]

/-- Everything but the line breaks comes back. -/
def Lossless (input : List UInt8) : Prop :=
  (commands input).flatMap command = input.filter (fun c => !isBreak c)

theorem commands_length_le {input : List UInt8} (h0 : 0 ∉ input) :
    ((commands input).flatMap command).length ≤ (input.filter (fun c => !isBreak c)).length := by
  induction hlen : input.length using Nat.strong_induction_on generalizing input with
  | _ n ih =>
    by_cases hne : input = []
    · subst hne
      exact Nat.zero_le _
    obtain ⟨l, c, rest, buf, hgets, hinput, hbuf, hcommand, hl, -, -⟩ := round_spec hne h0
    have hlt := congrArg List.length hinput
    rw [List.length_append, List.length_cons] at hlt
    have h0' : 0 ∉ rest := fun h => h0 (by rw [hinput]; simp [h])
    have hrest := ih rest.length (by omega) h0' rfl
    have hfilter : l.filter (fun c => !isBreak c) = l :=
      List.filter_eq_self.mpr fun d hd => by simp [hl d hd]
    rw [commands_cons hgets hbuf hne, List.flatMap_cons, hcommand, hinput, List.filter_append, hfilter,
      List.length_append, List.length_append]
    have := (List.sublist_cons_self c rest).filter (fun c => !isBreak c)
    have := this.length_le
    omega

/-- Every line has its line break, and fits the buffer with it. -/
def Fits (input : List UInt8) : Prop :=
  (input.splitOnP isBreak).getLast? = some [] ∧
    ∀ l ∈ input.splitOnP isBreak, l.length + 1 < TOTALSIZE

theorem splitOnP_append_prefix {p : UInt8 → Bool} {w : List UInt8} (hw : ∀ c ∈ w, p c = false)
    (cs : List UInt8) : ∃ h t, (w ++ cs).splitOnP p = (w ++ h) :: t := by
  induction w with
  | nil =>
    obtain ⟨h, t, heq⟩ := List.exists_cons_of_ne_nil (List.splitOnP_ne_nil p cs)
    exact ⟨h, t, heq⟩
  | cons c w ih =>
    obtain ⟨hc, hw⟩ := List.forall_mem_cons.mp hw
    obtain ⟨h, t, heq⟩ := ih hw
    refine ⟨h, t, ?_⟩
    rw [List.cons_append, List.splitOnP_cons_eq_if_modifyHead, hc, heq]
    rfl

/-- Nothing is lost exactly where every line, the last one too, ends in a line break that `gets`
still has room for. -/
theorem getcmd_lossless_iff {input : List UInt8} (h0 : 0 ∉ input) : Lossless input ↔ Fits input := by
  induction hlen : input.length using Nat.strong_induction_on generalizing input with
  | _ n ih =>
    by_cases hne : input = []
    · subst hne
      simp [Lossless, commands_nil, Fits]
    obtain ⟨l, c, rest, buf, hgets, hinput, hbuf, hcommand, hl, hfit, hstop⟩ := round_spec hne h0
    have hlt := congrArg List.length hinput
    rw [List.length_append, List.length_cons] at hlt
    have h0' : 0 ∉ rest := fun h => h0 (by rw [hinput]; simp [h])
    have hfilter : l.filter (fun c => !isBreak c) = l :=
      List.filter_eq_self.mpr fun d hd => by simp [hl d hd]
    cases hc : isBreak c with
    | true =>
      -- the line has its break: it comes back, and the rest is as before
      have hlossless : Lossless input ↔ Lossless rest := by
        rw [Lossless, Lossless, commands_cons hgets hbuf hne, List.flatMap_cons, hcommand, hinput,
          List.filter_append, hfilter, List.filter_cons_of_neg (by simp [hc]), List.append_cancel_left_eq]
      have hsplit : input.splitOnP isBreak = l :: rest.splitOnP isBreak := by
        rw [hinput, List.splitOnP_append_cons l rest hc, List.splitOnP_eq_singleton hl]
        rfl
      rw [hlossless, ih rest.length (by omega) h0' rfl, Fits, Fits, hsplit, List.forall_mem_cons,
        and_iff_right hfit, List.getLast?_cons]
      obtain ⟨x, xs, hxs⟩ := List.exists_cons_of_ne_nil (List.splitOnP_ne_nil isBreak rest)
      rw [hxs]
      rw [List.getLast?_cons, Option.getD_some]
    | false =>
      -- the last character of the line is lost
      have hlost : ¬ Lossless input := by
        intro h
        have hle := commands_length_le h0'
        have hall := congrArg List.length h
        rw [commands_cons hgets hbuf hne, List.flatMap_cons, hcommand, hinput, List.filter_append, hfilter,
          List.filter_cons_of_pos (by simp [hc]), List.length_append, List.length_append,
          List.length_cons] at hall
        omega
      refine iff_of_false hlost fun ⟨hlast, hall⟩ => ?_
      have hw : ∀ d ∈ l ++ [c], isBreak d = false := by
        intro d hd
        rcases List.mem_append.mp hd with hd | hd
        · exact hl d hd
        · rwa [List.mem_singleton.mp hd]
      rcases hstop hc with hlong | hend
      · obtain ⟨x, t, heq⟩ := splitOnP_append_prefix hw rest
        have := hall ((l ++ [c]) ++ x) (by rw [hinput, List.append_cons, heq]; simp)
        rw [List.length_append, List.length_append, List.length_singleton] at this
        omega
      · rw [hinput, hend, List.splitOnP_eq_singleton hw] at hlast
        simp at hlast

/-- The input `ls` and a line break. -/
theorem getcmd_lossless_line : Lossless [108, 115, 10] :=
  (getcmd_lossless_iff (by decide)).mpr ⟨by decide, by decide⟩

/-- The input `ls` without a line break: `getcmd` hands out `l`. -/
theorem getcmd_drops_last_character : ¬ ∀ input : List UInt8, 0 ∉ input → Lossless input :=
  fun h => absurd (h [108, 115] (by decide)) (by unfold Lossless; decide)

end Ostep.WishInput

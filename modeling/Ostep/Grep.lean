import Ostep.LineFramer
import Ostep.Memmove

/-!
# grep

grep.c reads into what is left of a buffer, takes the complete lines out of it and moves the rest
to the front; a rest that fills the buffer from its start it gives up, and with it every rest to
which a read has brought no newline. The chunks are what the calls of `read` return. `none` is an
access outside the buffer, or a loop that does not end.
-/

namespace Ostep.Grep
open LineFramer Memmove

abbrev newline : UInt8 := 10

/-- `sizeof(buf)`. -/
abbrev SIZE : ℕ := 1024

/-- `matchstar`, with `matchhere re` for the rest of the pattern. -/
def matchstar (c : UInt8) (here : List UInt8 → Bool) : List UInt8 → Bool
  | [] => here []
  | t :: text => here (t :: text) || (t == c || c == 46) && matchstar c here text

/-- The special characters are `*`, `$` and `.`. -/
def matchhere : List UInt8 → List UInt8 → Bool
  | [], _ => true
  | c :: 42 :: re, text => matchstar c (matchhere re) text
  | [36], text => text.isEmpty
  | c :: re, t :: text => (c == 46 || c == t) && matchhere re text
  | _ :: _, [] => false

/-- The loop of `match`. -/
def matchAny (re : List UInt8) : List UInt8 → Bool
  | [] => matchhere re []
  | t :: text => matchhere re (t :: text) || matchAny re text

/-- `match`, on the strings up to their NULs; 94 is `^`. -/
def matchText : List UInt8 → List UInt8 → Bool
  | 94 :: re, text => matchhere re text
  | re, text => matchAny re text

/-- The string at `p`; `n` bytes of the buffer are left. -/
def textAt (buf : Memory) : ℕ → ℕ → Option (List UInt8)
  | 0, _ => none
  | n + 1, p => if buf p = 0 then some [] else (textAt buf n (p + 1)).map (buf p :: ·)

def strchr (buf : Memory) (c : UInt8) : ℕ → ℕ → Option (Option ℕ)
  | 0, _ => none
  | n + 1, s =>
    if buf s = 0 then some none else if buf s = c then some (some s) else strchr buf c n (s + 1)

def bytesAt (buf : Memory) (p n : ℕ) : List UInt8 := (List.range n).map fun i => buf (p + i)

def store (buf : Memory) (a : ℕ) (s : List UInt8) : Memory := fun i =>
  if a ≤ i ∧ i < a + s.length then s.getD (i - a) 0 else buf i

/-- The inner loop; `out` are the calls of `write`. -/
def lineLoop (pattern : List UInt8) :
    ℕ → Memory → ℕ → List (List UInt8) → Option (Memory × ℕ × List (List UInt8))
  | 0, _, _, _ => none
  | fuel + 1, buf, p, out => do
    match ← strchr buf newline (SIZE - p) p with
    | none => return (buf, p, out)
    | some q => do
      let buf := Function.update buf q 0
      let text ← textAt buf (SIZE - p) p
      if matchText pattern text then do
        let buf := Function.update buf q newline
        lineLoop pattern fuel buf (q + 1) (out ++ [bytesAt buf p (q + 1 - p)])
      else lineLoop pattern fuel buf (q + 1) out

/-- The outer loop, until `read` returns 0. -/
def grepLoop (pattern : List UInt8) :
    List (List UInt8) → Memory → ℕ → List (List UInt8) → Option (List (List UInt8))
  | [], _, _, out => some out
  | c :: chunks, buf, m, out =>
    if SIZE ≤ m + c.length then none
    else do
      let buf := Function.update (store buf m c) (m + c.length) 0
      let (buf, p, out) ← lineLoop pattern SIZE buf 0 out
      let m := if p = 0 then 0 else m + c.length
      if 0 < m then grepLoop pattern chunks (Ulib.memmove buf 0 p (m - p : ℕ)).2 (m - p) out
      else grepLoop pattern chunks buf m out

/-- `buf` is what an earlier call has left in the buffer. -/
def grep (pattern : List UInt8) (buf : Memory) (chunks : List (List UInt8)) :
    Option (List (List UInt8)) :=
  grepLoop pattern chunks buf 0 []

/-- What `read` may return where the text `w` is kept: something, and no more than asked for. -/
def Delivered : List UInt8 → List (List UInt8) → Prop
  | _, [] => True
  | w, c :: cs => 0 < c.length ∧ c.length ≤ SIZE - w.length - 1 ∧ Delivered (kept newline (w ++ c)) cs

/-! ## The buffer -/

variable {buf buf' : Memory} {a p n : ℕ} {c : UInt8} {s t w l text pattern : List UInt8}
  {ls out chunks : List (List UInt8)}

/-- The bytes from `a` on are `s`. -/
def Holds (buf : Memory) : ℕ → List UInt8 → Prop
  | _, [] => True
  | a, c :: s => buf a = c ∧ Holds buf (a + 1) s

theorem holds_append : Holds buf a (s ++ t) ↔ Holds buf a s ∧ Holds buf (a + s.length) t := by
  induction s generalizing a with
  | nil => simp [Holds]
  | cons c s ih =>
    rw [List.cons_append, Holds, Holds, ih, List.length_cons, and_assoc,
      show a + 1 + s.length = a + (s.length + 1) by omega]

theorem Holds.congr (h : Holds buf a s) (hsame : ∀ i, a ≤ i → i < a + s.length → buf' i = buf i) :
    Holds buf' a s := by
  induction s generalizing a with
  | nil => trivial
  | cons c s ih =>
    rw [List.length_cons] at hsame
    refine ⟨(hsame a (Nat.le_refl a) (by omega)).trans h.1, ih h.2 fun i hle hlt => ?_⟩
    exact hsame i (by omega) (by omega)

theorem Holds.shift (h : Holds buf a s) (hsame : ∀ i, i < s.length → buf' (p + i) = buf (a + i)) :
    Holds buf' p s := by
  induction s generalizing a p with
  | nil => trivial
  | cons c s ih =>
    rw [List.length_cons] at hsame
    refine ⟨(hsame 0 (by omega)).trans h.1, ih h.2 fun i hi => ?_⟩
    have := hsame (i + 1) (by omega)
    rwa [show p + (i + 1) = p + 1 + i by omega, show a + (i + 1) = a + 1 + i by omega] at this

theorem Holds.bytesAt (h : Holds buf p s) : bytesAt buf p s.length = s := by
  induction s generalizing p with
  | nil => rfl
  | cons c s ih =>
    have hrest := ih h.2
    rw [Grep.bytesAt] at hrest ⊢
    rw [List.length_cons, List.range_succ_eq_map, List.map_cons, List.map_map]
    have htail : (fun i => buf (p + i)) ∘ Nat.succ = fun i => buf (p + 1 + i) := by
      funext i
      simp only [Function.comp_apply, Nat.succ_eq_add_one]
      congr 1
      omega
    rw [htail, hrest]
    exact congrArg (· :: s) h.1

theorem holds_store (h : Holds buf 0 w) : Holds (store buf w.length s) 0 (w ++ s) := by
  rw [holds_append, Nat.zero_add]
  constructor
  · refine h.congr fun i _ hi => if_neg ?_
    omega
  · suffices hget : ∀ (s' : List UInt8) (k : ℕ), s.drop k = s' → k ≤ s.length →
        Holds (store buf w.length s) (w.length + k) s' from hget s 0 rfl (Nat.zero_le _)
    intro s' k hk hle
    induction s' generalizing k with
    | nil => trivial
    | cons c s' ih =>
      have hlt : k < s.length := by
        by_contra hge
        rw [List.drop_eq_nil_of_le (by omega)] at hk
        cases hk
      rw [List.drop_eq_getElem_cons hlt] at hk
      obtain ⟨hc, hs'⟩ := List.cons.inj hk
      refine ⟨?_, ih (k + 1) hs' hlt⟩
      rw [store, if_pos (by omega), Nat.add_sub_cancel_left, List.getD, List.getElem?_eq_getElem hlt, hc]
      rfl

theorem strchr_line (h : Holds buf p (l ++ newline :: s)) (hl : newline ∉ l) (h0 : 0 ∉ l)
    (hn : l.length < n) : strchr buf newline n p = some (some (p + l.length)) := by
  induction l generalizing p n with
  | nil =>
    obtain ⟨n, rfl⟩ : ∃ k, n = k + 1 := ⟨n - 1, by simp at hn; omega⟩
    rw [strchr, h.1]
    rfl
  | cons c l ih =>
    rw [List.mem_cons, not_or] at hl h0
    rw [List.length_cons] at hn
    obtain ⟨n, rfl⟩ : ∃ k, n = k + 1 := ⟨n - 1, by omega⟩
    rw [strchr, h.1, if_neg (Ne.symm h0.1), if_neg (Ne.symm hl.1), ih h.2 hl.2 h0.2 (by omega),
      List.length_cons]
    congr 2
    omega

theorem strchr_none (h : Holds buf p (w ++ [0])) (hw : newline ∉ w) (h0 : 0 ∉ w)
    (hn : w.length < n) : strchr buf newline n p = some none := by
  induction w generalizing p n with
  | nil =>
    obtain ⟨n, rfl⟩ : ∃ k, n = k + 1 := ⟨n - 1, by simp at hn; omega⟩
    rw [strchr, h.1]
    rfl
  | cons c w ih =>
    rw [List.mem_cons, not_or] at hw h0
    rw [List.length_cons] at hn
    obtain ⟨n, rfl⟩ : ∃ k, n = k + 1 := ⟨n - 1, by omega⟩
    rw [strchr, h.1, if_neg (Ne.symm h0.1), if_neg (Ne.symm hw.1), ih h.2 hw.2 h0.2 (by omega)]

theorem textAt_of_holds (h : Holds buf p (l ++ [0])) (h0 : 0 ∉ l) (hn : l.length < n) :
    textAt buf n p = some l := by
  induction l generalizing p n with
  | nil =>
    obtain ⟨n, rfl⟩ : ∃ k, n = k + 1 := ⟨n - 1, by simp at hn; omega⟩
    rw [textAt, h.1]
    rfl
  | cons c l ih =>
    rw [List.mem_cons, not_or] at h0
    rw [List.length_cons] at hn
    obtain ⟨n, rfl⟩ : ∃ k, n = k + 1 := ⟨n - 1, by omega⟩
    rw [textAt, h.1, if_neg (Ne.symm h0.1), ih h.2 h0.2 (by omega)]
    rfl

/-! ## One chunk -/

/-- The lines that `grep` writes. -/
def selected (pattern : List UInt8) (ls : List (List UInt8)) : List (List UInt8) :=
  (ls.filter (matchText pattern)).map (· ++ [newline])

theorem selected_cons (pattern l : List UInt8) (ls : List (List UInt8)) : selected pattern (l :: ls) =
    (if matchText pattern l then [l ++ [newline]] else []) ++ selected pattern ls := by
  rw [selected, List.filter_cons]
  split_ifs <;> rfl

theorem selected_append (pattern : List UInt8) (ls ls' : List (List UInt8)) :
    selected pattern (ls ++ ls') = selected pattern ls ++ selected pattern ls' := by
  simp [selected]

/-- All lines that lie complete in the buffer are taken out. -/
theorem lineLoop_spec (hbuf : Holds buf p (unlines newline ls ++ w ++ [0]))
    (hls : ∀ l ∈ ls, newline ∉ l ∧ 0 ∉ l) (hw : newline ∉ w) (h0 : 0 ∉ w)
    (hsize : p + (unlines newline ls).length + w.length < SIZE) (hn : ls.length < n) :
    ∃ buf', lineLoop pattern n buf p out =
        some (buf', p + (unlines newline ls).length, out ++ selected pattern ls) ∧
      Holds buf' (p + (unlines newline ls).length) (w ++ [0]) := by
  induction ls generalizing buf p out n with
  | nil =>
    obtain ⟨n, rfl⟩ : ∃ k, n = k + 1 := ⟨n - 1, by simp at hn; omega⟩
    rw [unlines_nil, List.nil_append] at hbuf
    rw [unlines_nil, List.length_nil] at hsize
    refine ⟨buf, ?_, by simpa using hbuf⟩
    rw [lineLoop, strchr_none hbuf hw h0 (by omega)]
    simp [selected]
  | cons l ls ih =>
    obtain ⟨⟨hl, hl0⟩, hls⟩ := List.forall_mem_cons.mp hls
    obtain ⟨n, rfl⟩ : ∃ k, n = k + 1 := ⟨n - 1, by simp at hn; omega⟩
    have hlen : (unlines newline (l :: ls)).length = l.length + 1 + (unlines newline ls).length := by
      rw [unlines_cons, List.length_append, List.length_cons]
      omega
    have hsplit : unlines newline (l :: ls) ++ w ++ [0] =
        l ++ newline :: (unlines newline ls ++ w ++ [0]) := by simp
    rw [hsplit] at hbuf
    obtain ⟨hline, hnl, hrest⟩ := holds_append.mp hbuf
    have hq : p + l.length + 1 - p = l.length + 1 := by omega
    set cutBuf := Function.update buf (p + l.length) 0 with hcut
    set lineBuf := Function.update cutBuf (p + l.length) newline with hlb
    have hcutBuf : ∀ i, i ≠ p + l.length → cutBuf i = buf i := fun i hi =>
      Function.update_of_ne hi _ _
    have hlineBuf : ∀ i, i ≠ p + l.length → lineBuf i = buf i := fun i hi =>
      (Function.update_of_ne hi _ _).trans (hcutBuf i hi)
    -- The NUL in place of the newline ends the text that is matched.
    have htext : textAt cutBuf (SIZE - p) p = some l := by
      refine textAt_of_holds (holds_append.mpr ⟨?_, ?_⟩) hl0 (by omega)
      · exact hline.congr fun i _ hi => hcutBuf i (by omega)
      · exact ⟨Function.update_self .., trivial⟩
    have hwritten : bytesAt lineBuf p (l.length + 1) = l ++ [newline] := by
      have hholds : Holds lineBuf p (l ++ [newline]) :=
        holds_append.mpr ⟨hline.congr fun i _ hi => hlineBuf i (by omega),
          Function.update_self .., trivial⟩
      simpa using hholds.bytesAt
    rw [lineLoop, strchr_line hbuf hl hl0 (by omega)]
    simp only [Option.bind_eq_bind, Option.bind_some, ← hcut, ← hlb, htext, hq, hwritten]
    rw [hlen] at hsize ⊢
    rw [List.length_cons] at hn
    rw [selected_cons, show p + (l.length + 1 + (unlines newline ls).length) =
      p + l.length + 1 + (unlines newline ls).length by omega]
    by_cases hmatch : matchText pattern l = true
    · obtain ⟨buf', hrun, hholds⟩ := @ih lineBuf (p + l.length + 1) n (out ++ [l ++ [newline]])
        (hrest.congr fun i hi _ => hlineBuf i (by omega)) hls (by omega) (by omega)
      rw [if_pos hmatch, if_pos hmatch]
      exact ⟨buf', by rw [hrun, List.append_assoc], hholds⟩
    · obtain ⟨buf', hrun, hholds⟩ := @ih cutBuf (p + l.length + 1) n out
        (hrest.congr fun i hi _ => hcutBuf i (by omega)) hls (by omega) (by omega)
      rw [if_neg hmatch, if_neg hmatch]
      exact ⟨buf', by rw [hrun, List.nil_append], hholds⟩

theorem kept_eq {r : List (List UInt8) × List UInt8} (hcut : cut newline s = r) :
    kept newline s = if r.1 = [] then [] else r.2 := by
  have hnil : (cut newline s).1 = [] ↔ newline ∉ s := cut_eq_nil_iff
  rw [kept, hcut] at *
  by_cases h : r.1 = []
  · rw [if_pos h, if_neg (hnil.mp h)]
  · rw [if_neg h, if_pos (not_not.mp (mt hnil.mpr h))]

/-- One turn: the lines come out, and what is kept is at the front of the buffer. -/
theorem grepLoop_cons {cs : List (List UInt8)} (hbuf : Holds buf 0 w) (hs0 : 0 ∉ w ++ s)
    (hpos : 0 < s.length) (hsize : w.length + s.length < SIZE) :
    ∃ buf', grepLoop pattern (s :: cs) buf w.length out =
        grepLoop pattern cs buf' (kept newline (w ++ s)).length
          (out ++ selected pattern (cut newline (w ++ s)).1) ∧
      Holds buf' 0 (kept newline (w ++ s)) := by
  obtain ⟨⟨ls, t⟩, hcut⟩ : ∃ r, cut newline (w ++ s) = r := ⟨_, rfl⟩
  have htext := unlines_cut newline (w ++ s)
  have hopen := not_mem_cut newline (w ++ s)
  rw [hcut] at htext hopen
  dsimp only at htext hopen
  have hmem : ∀ l ∈ ls, newline ∉ l ∧ 0 ∉ l := fun l hl => by
    refine ⟨hopen.1 l hl, fun h0 => hs0 ?_⟩
    rw [← htext]
    exact List.mem_append_left _ (List.mem_flatMap.mpr ⟨l, hl, List.mem_append_left _ h0⟩)
  have ht0 : 0 ∉ t := fun h0 => hs0 (htext ▸ List.mem_append_right _ h0)
  have hlen := congrArg List.length htext
  rw [List.length_append, List.length_append] at hlen
  have hfuel : ls.length ≤ (unlines newline ls).length := by
    clear hcut htext hopen hmem hlen
    induction ls with
    | nil => exact Nat.zero_le _
    | cons l ls ih =>
      rw [unlines_cons, List.length_append, List.length_cons, List.length_cons]
      omega
  obtain ⟨buf₁, hb₁⟩ : ∃ b, b = Function.update (store buf w.length s) (w.length + s.length) 0 :=
    ⟨_, rfl⟩
  have hholds : Holds buf₁ 0 (unlines newline ls ++ t ++ [0]) := by
    rw [htext, holds_append, hb₁]
    refine ⟨(holds_store hbuf).congr fun i _ hi => Function.update_of_ne ?_ _ _, ?_, trivial⟩
    · rw [List.length_append] at hi
      omega
    · rw [List.length_append, Nat.zero_add]
      exact Function.update_self ..
  obtain ⟨buf₂, hrun, hrest⟩ := @lineLoop_spec buf₁ 0 SIZE t pattern ls out hholds hmem hopen.2 ht0
    (by omega) (by omega)
  rw [Nat.zero_add] at hrun hrest
  have hloop : grepLoop pattern (s :: cs) buf w.length out =
      let p := (unlines newline ls).length
      let m := if p = 0 then 0 else w.length + s.length
      if 0 < m then grepLoop pattern cs (Ulib.memmove buf₂ 0 p (m - p : ℕ)).2 (m - p)
        (out ++ selected pattern ls)
      else grepLoop pattern cs buf₂ m (out ++ selected pattern ls) := by
    rw [grepLoop, if_neg (by omega)]
    simp only [← hb₁, hrun, Option.bind_eq_bind, Option.bind_some]
  rw [hloop, kept_eq hcut, hcut]
  dsimp only
  cases ls with
  | nil => exact ⟨buf₂, rfl, trivial⟩
  | cons l ls =>
    have hp : (unlines newline (l :: ls)).length ≠ 0 := by simp
    rw [if_neg hp, if_pos (by omega), if_neg (List.cons_ne_nil l ls),
      show w.length + s.length - (unlines newline (l :: ls)).length = t.length by omega,
      ulib_memmove_below t.length (.inl (Nat.zero_le _))]
    refine ⟨_, rfl, ?_⟩
    refine (holds_append.mp hrest).1.shift fun i hi => ?_
    have hin : 0 ≤ i ∧ i < t.length := ⟨Nat.zero_le i, hi⟩
    simp only [moved, Nat.zero_add, Nat.sub_zero, if_pos hin]

/-- `grep` is the forgetful framer, with the matching lines selected. -/
theorem grepLoop_spec (hbuf : Holds buf 0 w) (h0 : 0 ∉ w ++ chunks.flatten)
    (hd : Delivered w chunks) :
    grepLoop pattern chunks buf w.length out =
      some (out ++ selected pattern (frames newline w chunks)) := by
  induction chunks generalizing buf w out with
  | nil =>
    rw [grepLoop, frames, selected]
    simp
  | cons c cs ih =>
    obtain ⟨hpos, hle, hd⟩ := hd
    have h0c : 0 ∉ w ++ c := fun h => h0 (by
      rw [List.flatten_cons, ← List.append_assoc]
      exact List.mem_append_left _ h)
    obtain ⟨buf', hrun, hbuf'⟩ := grepLoop_cons hbuf h0c hpos (by omega)
    have hkept : ∀ a ∈ kept newline (w ++ c), a ∈ w ++ c := fun a ha => by
      unfold kept at ha
      split_ifs at ha
      · rw [← unlines_cut newline (w ++ c)]
        exact List.mem_append_right _ ha
      · cases ha
    rw [hrun, ih hbuf' (fun h => ?_) hd, frames, selected_append, List.append_assoc]
    rcases List.mem_append.mp h with h | h
    · exact h0c (hkept 0 h)
    · exact h0 (List.mem_append_right w (List.mem_append_right c h))

theorem selected_nil (ls : List (List UInt8)) : selected [] ls = ls.map (· ++ [newline]) := by
  have hall : ∀ l ∈ ls, matchText [] l = true := by
    intro l _
    cases l <;> rfl
  rw [selected, List.filter_eq_self.mpr hall]

/-- Whatever the pattern, the matching lines are written complete and in order if and only if
every `read` brings a newline. -/
theorem grep_chunks_iff {ls chunks : List (List UInt8)} (hls : ∀ l ∈ ls, newline ∉ l ∧ 0 ∉ l)
    (htext : chunks.flatten = unlines newline ls) (hd : Delivered [] chunks) (buf : Memory) :
    (∀ pattern, grep pattern buf chunks = some (selected pattern ls)) ↔
      ∀ c ∈ chunks, newline ∈ c := by
  have h0 : 0 ∉ [] ++ chunks.flatten := by
    rw [List.nil_append, htext]
    intro h
    obtain ⟨l, hl, h⟩ := List.mem_flatMap.mp h
    rcases List.mem_append.mp h with h | h
    · exact (hls l hl).2 h
    · exact absurd (List.mem_singleton.mp h) (by decide)
  have hne : ∀ c ∈ chunks, c ≠ [] := by
    suffices h : ∀ w, Delivered w chunks → ∀ c ∈ chunks, c ≠ [] from h [] hd
    clear hd h0 htext
    induction chunks with
    | nil => simp
    | cons c cs ih =>
      rintro w ⟨hpos, -, hd⟩
      exact List.forall_mem_cons.mpr ⟨List.ne_nil_of_length_pos hpos, ih _ hd⟩
  have hrun : ∀ pattern, grep pattern buf chunks =
      some (selected pattern (frames newline [] chunks)) := fun pattern =>
    grepLoop_spec (show Holds buf 0 [] from trivial) h0 hd
  rw [← frames_iff hne (fun l hl => (hls l hl).1) htext]
  constructor
  · intro h
    have hnil := Option.some.inj ((hrun []).symm.trans (h []))
    rw [selected_nil, selected_nil] at hnil
    exact List.map_injective_iff.mpr (List.append_left_injective [newline]) hnil
  · intro h pattern
    rw [hrun pattern, h]

/-- Two lines, of which the first read brings one and a part of the other. -/
theorem grep_chunks_iff_two :
    (∀ pattern, grep pattern (fun _ => 0) [[97, newline, 98], [99, newline]] =
        some (selected pattern [[97], [98, 99]])) ↔
      ∀ c ∈ [[97, newline, 98], [99, newline]], newline ∈ c :=
  grep_chunks_iff (by decide : ∀ l ∈ [[97], [98, 99]], newline ∉ l ∧ 0 ∉ l)
    (show [[97, newline, 98], [99, newline]].flatten = _ from rfl)
    ⟨by decide, by decide, by decide, by decide, trivial⟩ (fun _ => 0)

/-- The line `abc` that arrives as `ab` and `c` is written as `c`. -/
theorem grep_forgets : ¬ ∀ (pattern : List UInt8) (ls chunks : List (List UInt8)),
    (∀ l ∈ ls, newline ∉ l ∧ 0 ∉ l ∧ l.length ≤ 1022) → chunks.flatten = unlines newline ls →
    Delivered [] chunks → grep pattern (fun _ => 0) chunks = some (selected pattern ls) := by
  intro h
  have hwrong := h [99] [[97, 98, 99]] [[97, 98], [99, newline]] (by decide) rfl
    ⟨by decide, by decide, by decide, by decide, trivial⟩
  revert hwrong
  decide +kernel

end Ostep.Grep

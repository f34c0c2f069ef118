import Ostep.TextWords
import Ostep.WishJobs

/-!
# The arguments of a command of wish

`parseArgs` cuts a command at every single space, in place, and stores where the pieces start in
the array that `allocateArgv` made. Writing outside that array, reading past a block and following
a null pointer are `none`.
-/

namespace Ostep.WishArgs
open ByteBuffer WishParallelize WishJobs TextWords

/-- The array `argv`; an entry is null or the offset of a word in the command. -/
structure Argv where
  entries : List (Option ℕ)
  size : entries.length = MAXARGS

def Argv.store (argv : Argv) (i : ℕ) (v : Option ℕ) : Option Argv :=
  if i < MAXARGS then some ⟨argv.entries.set i v, by rw [List.length_set, argv.size]⟩ else none

/-- `string[i] = 0`. -/
def cut (string : Buffer) (i : ℕ) : Buffer :=
  ⟨string.bytes.set i 0, by rw [List.length_set, string.size]⟩

/-- The loop of `getToken`: how far it is to the delimiter or the end of the string. -/
def tokenLength (delimiter : UInt8) : List UInt8 → Option ℕ
  | [] => none
  | c :: rest => if c = delimiter ∨ c = 0 then some 0 else (tokenLength delimiter rest).map (· + 1)

/-- `none` inside is the status 0, where `*ptr` is past the end of `refString`. -/
def getToken (string : Buffer) (refLen : ℕ) (delimiter : UInt8) (ptr : ℕ) : Option (Option ℕ) :=
  if refLen < ptr then some none
  else (tokenLength delimiter (string.bytes.drop ptr)).map some

/-- The loop of `splitString`. -/
def splitFrom (delimiter : UInt8) (refLen : ℕ) :
    ℕ → Buffer → Argv → ℕ → ℕ → ℕ → Option (Buffer × Argv)
  | 0, _, _, _, _, _ => none
  | fuel + 1, string, res, ptr, temp, i =>
    match getToken string refLen delimiter ptr with
    | none => none
    | some none => (res.store i none).map (string, ·)
    | some (some currIndex) =>
      (res.store i (some temp)).bind fun res =>
        splitFrom delimiter refLen fuel (cut string (ptr + currIndex)) res (ptr + currIndex + 1)
          (ptr + currIndex + 1) (i + 1)

/-- `refString` is a copy of the string. -/
def splitString (string : Buffer) (delimiter : UInt8) (res : Argv) : Option (Buffer × Argv) :=
  (cstr string.bytes).bind fun refString =>
    splitFrom delimiter refString.length (refString.length + 2) string res 0 0 0

def parseArgs (toParse : Buffer) (buff : Argv) : Option (Buffer × Argv) :=
  splitString toParse space buff

/-- The strings that an array points to, up to the null. -/
def argsFrom (bytes : List UInt8) : List (Option ℕ) → Option (List (List UInt8))
  | [] => none
  | none :: _ => some []
  | some a :: entries => do
    let w ← cstr (bytes.drop a)
    let ws ← argsFrom bytes entries
    return w :: ws

/-- `myargv[i]` as a string. -/
def arg (string : Buffer) (argv : Argv) (i : ℕ) : Option (List UInt8) :=
  match argv.entries[i]? with
  | some (some a) => cstr (string.bytes.drop a)
  | _ => none

def cdWord : List UInt8 := [99, 100]
def pathWord : List UInt8 := [112, 97, 116, 104]

def isBuiltIn (cmd : List UInt8) : Bool := cmd = cdWord || cmd = pathWord || cmd = exitWord

/-- `executeBuiltIn`, and whether it prints. -/
def executeBuiltIn (string : Buffer) (argv : Argv) : Option Bool := do
  let cmd ← arg string argv 0
  if cmd = cdWord then
    let dir ← arg string argv 1
    return dir = []
  else if cmd = pathWord then
    let dir ← arg string argv 1
    return dir ≠ []
  else return false

/-- What `runWish` does with a command before it runs it; `none` inside is `exit`. -/
def runBuiltIn (string : Buffer) (argv : Argv) : Option (Option Bool) := do
  let cmd ← arg string argv 0
  if isBuiltIn cmd then
    if cmd = exitWord then return none
    else (executeBuiltIn string argv).map some
  else return some false

theorem tokenLength_append {delimiter c : UInt8} {w rest : List UInt8}
    (hw : ∀ d ∈ w, d ≠ delimiter ∧ d ≠ 0) (hc : c = delimiter ∨ c = 0) :
    tokenLength delimiter (w ++ c :: rest) = some w.length := by
  induction w with
  | nil => exact if_pos hc
  | cons d w ih =>
    obtain ⟨hd, hw⟩ := List.forall_mem_cons.mp hw
    rw [List.cons_append, tokenLength, if_neg (by simpa using hd), ih hw]
    rfl

theorem tokenLength_lt {delimiter : UInt8} {l : List UInt8} {n : ℕ}
    (h : tokenLength delimiter l = some n) : n < l.length := by
  induction l generalizing n with
  | nil => cases h
  | cons c l ih =>
    rw [tokenLength] at h
    split_ifs at h with hc
    · obtain rfl : 0 = n := by simpa using h
      simp
    · obtain ⟨m, hm, rfl⟩ := Option.map_eq_some_iff.mp h
      have := ih hm
      simpa using this

theorem cut_append {string : Buffer} {pre tail : List UInt8} {c : UInt8}
    (h : string.bytes = pre ++ c :: tail) : (cut string pre.length).bytes = pre ++ 0 :: tail := by
  rw [cut]
  simp only [h]
  rw [List.set_append_right _ _ le_rfl, Nat.sub_self]
  rfl

/-- The text with single spaces between the words. -/
def joined (w : List UInt8) (ws : List (List UInt8)) : List UInt8 := w ++ ws.flatMap (space :: ·)

theorem store_of_lt (res : Argv) {i : ℕ} (h : i < MAXARGS) (v : Option ℕ) :
    ∃ res', res.store i v = some res' ∧ res'.entries = res.entries.set i v :=
  ⟨_, if_pos h, rfl⟩

theorem drop_of_getElem? {l : List (Option ℕ)} {i : ℕ} {v : Option ℕ} (h : l[i]? = some v) :
    l.drop i = v :: l.drop (i + 1) := by
  obtain ⟨hi, hv⟩ := List.getElem?_eq_some_iff.mp h
  rw [List.drop_eq_getElem_cons hi, hv]

/-- One turn of the loop: the word that ends at `c`. -/
theorem splitFrom_word {refLen ptr : ℕ} {string : Buffer} {pre w rest : List UInt8} {c : UInt8}
    (n i : ℕ) (a : Argv) (hstring : string.bytes = pre ++ w ++ c :: rest) (hptr : ptr = pre.length)
    (href : ptr + w.length ≤ refLen) (hw : ∀ d ∈ w, d ≠ space ∧ d ≠ 0) (hc : c = space ∨ c = 0) :
    splitFrom space refLen (n + 1) string a ptr ptr i =
      (a.store i (some ptr)).bind (fun a' =>
        splitFrom space refLen n (cut string (ptr + w.length)) a' (ptr + w.length + 1)
          (ptr + w.length + 1) (i + 1)) ∧
    (cut string (ptr + w.length)).bytes = pre ++ w ++ 0 :: rest := by
  have htoken : getToken string refLen space ptr = some (some w.length) := by
    rw [getToken, if_neg (by omega), hstring, List.append_assoc, hptr, List.drop_left,
      tokenLength_append hw hc]
    rfl
  refine ⟨by rw [splitFrom, htoken], ?_⟩
  rw [hptr, ← List.length_append]
  exact cut_append hstring

/-- The turn after the last word. -/
theorem splitFrom_end {refLen ptr : ℕ} (n i : ℕ) (string : Buffer) (a : Argv) (h : refLen < ptr) :
    splitFrom space refLen (n + 1) string a ptr ptr i = (a.store i none).map (string, ·) := by
  rw [splitFrom, getToken, if_pos h]

theorem cstr_drop_left {pre w rest : List UInt8} (h : 0 ∉ w) :
    cstr ((pre ++ w ++ 0 :: rest).drop pre.length) = some w := by
  rw [List.append_assoc, List.drop_left, cstr_append_iff w _ h]
  rfl

/-- From a word on: the words before it are cut out, and their starts are stored. -/
theorem splitFrom_spec {n refLen ptr i : ℕ} {string : Buffer} {a : Argv} {pre w tail : List UInt8}
    {ws : List (List UInt8)} (hstring : string.bytes = pre ++ joined w ws ++ 0 :: tail)
    (hptr : ptr = pre.length) (href : refLen = ptr + (joined w ws).length)
    (hwords : ∀ v ∈ w :: ws, ∀ c ∈ v, c ≠ space ∧ c ≠ 0) (hn : ws.length + 1 < n) :
    if i + ws.length + 2 ≤ MAXARGS then
      ∃ string' a', splitFrom space refLen n string a ptr ptr i = some (string', a') ∧
        (∃ tail', string'.bytes = pre ++ w ++ 0 :: tail') ∧
        a'.entries.take i = a.entries.take i ∧
        argsFrom string'.bytes (a'.entries.drop i) = some (w :: ws)
    else splitFrom space refLen n string a ptr ptr i = none := by
  induction ws generalizing n ptr i string a pre w with
  | nil =>
    have hw : ∀ c ∈ w, c ≠ space ∧ c ≠ 0 := hwords w (by simp)
    have hjoined : joined w [] = w := by simp [joined]
    rw [hjoined] at hstring href
    obtain ⟨n, rfl⟩ : ∃ m, n = m + 2 := ⟨n - 2, by simp only [List.length_nil] at hn; omega⟩
    obtain ⟨hstep, hcut⟩ := splitFrom_word (n + 1) i a hstring hptr (Nat.le_of_eq href.symm) hw (.inr rfl)
    rw [hstep, List.length_nil]
    simp only [splitFrom_end n (i + 1) _ _ (show refLen < ptr + w.length + 1 by omega)]
    split_ifs with hfits
    · obtain ⟨a₁, hstore₁, ha₁⟩ := store_of_lt a (i := i) (by omega) (some ptr)
      obtain ⟨a₂, hstore₂, ha₂⟩ := store_of_lt a₁ (i := i + 1) (by omega) none
      refine ⟨cut string (ptr + w.length), a₂, ?_, ⟨tail, hcut⟩, ?_, ?_⟩
      · rw [hstore₁, Option.bind_some, hstore₂]
        rfl
      · rw [ha₂, ha₁, List.take_set_of_le (by omega), List.take_set_of_le le_rfl]
      · have hsize := a.size
        have h₁ : a₂.entries[i]? = some (some ptr) := by
          rw [ha₂, ha₁, List.getElem?_set_ne (by omega), List.getElem?_set_self (by omega)]
        have h₂ : a₂.entries[i + 1]? = some none := by
          rw [ha₂, List.getElem?_set_self (by rw [a₁.size]; omega)]
        rw [drop_of_getElem? h₁, drop_of_getElem? h₂, argsFrom, hcut, hptr,
          cstr_drop_left fun h => (hw 0 h).2 rfl]
        rfl
    · by_cases hi : i < MAXARGS
      · obtain ⟨a₁, hstore₁, -⟩ := store_of_lt a hi (some ptr)
        rw [hstore₁, Option.bind_some, Argv.store, if_neg (by omega)]
        rfl
      · rw [Argv.store, if_neg hi]
        rfl
  | cons v ws ih =>
    obtain ⟨hw, hws⟩ := List.forall_mem_cons.mp hwords
    have hjoined : joined w (v :: ws) = w ++ space :: joined v ws := by simp [joined]
    rw [hjoined] at hstring href
    obtain ⟨n, rfl⟩ : ∃ m, n = m + 1 := ⟨n - 1, by omega⟩
    have hlen : refLen = ptr + w.length + 1 + (joined v ws).length := by
      rw [href, List.length_append, List.length_cons]
      omega
    have hstring' : string.bytes = pre ++ w ++ space :: (joined v ws ++ 0 :: tail) := by
      rw [hstring]
      simp
    obtain ⟨hstep, hcut⟩ := splitFrom_word n i a hstring' hptr (show ptr + w.length ≤ refLen by omega) hw
      (.inl rfl)
    rw [List.length_cons] at hn
    have hrest := fun a' : Argv => ih (a := a') (i := i + 1)
      (show (cut string (ptr + w.length)).bytes = (pre ++ w ++ [0]) ++ joined v ws ++ 0 :: tail by
        rw [hcut]
        simp)
      (show ptr + w.length + 1 = (pre ++ w ++ [0]).length by rw [hptr]; simp [Nat.add_assoc])
      hlen hws (show ws.length + 1 < n by omega)
    rw [hstep, List.length_cons]
    split_ifs with hfits
    · obtain ⟨a₁, hstore₁, ha₁⟩ := store_of_lt a (i := i) (by omega) (some ptr)
      have hrun := hrest a₁
      rw [if_pos (by omega)] at hrun
      obtain ⟨string', a', hrun, ⟨tail', hbytes⟩, htake, hargs⟩ := hrun
      have hbytes' : string'.bytes = pre ++ w ++ 0 :: (v ++ 0 :: tail') := by
        rw [hbytes]
        simp
      refine ⟨string', a', by rw [hstore₁, Option.bind_some, hrun], ⟨_, hbytes'⟩, ?_, ?_⟩
      · have := congrArg (List.take i) htake
        rwa [List.take_take, List.take_take, Nat.min_eq_left (by omega), ha₁,
          List.take_set_of_le le_rfl] at this
      · have hsize := a.size
        have hget : a'.entries[i]? = some (some ptr) := by
          have := congrArg (fun l => l[i]?) htake
          simp only [List.getElem?_take_of_lt (Nat.lt_succ_self i)] at this
          rw [this, ha₁, List.getElem?_set_self (by omega)]
        rw [drop_of_getElem? hget, argsFrom, hargs, hbytes', hptr,
          cstr_drop_left fun h => (hw 0 h).2 rfl]
        rfl
    · cases hstore : a.store i (some ptr) with
      | none => rfl
      | some a₁ =>
        have hrun := hrest a₁
        rwa [if_neg (by omega)] at hrun

/-! ## Whole commands -/

theorem intercalate_eq_joined (w : List UInt8) (ws : List (List UInt8)) :
    [space].intercalate (w :: ws) = joined w ws := by
  induction ws generalizing w with
  | nil => simp [joined, List.intercalate]
  | cons v ws ih =>
    have hcons : [space].intercalate (w :: v :: ws) = w ++ space :: [space].intercalate (v :: ws) := by
      simp [List.intercalate, List.intersperse]
    rw [hcons, ih]
    simp [joined]

theorem splitOn_pieces (s : List UInt8) (d : UInt8) : ∃ w ws, s.splitOn d = w :: ws ∧
    [d].intercalate (w :: ws) = s ∧ ws.length = s.count d ∧
    ∀ v ∈ w :: ws, ∀ c ∈ v, c ≠ d ∧ c ∈ s := by
  obtain ⟨w, ws, hsplit⟩ := List.exists_cons_of_ne_nil (List.splitOn_ne_nil d s)
  obtain ⟨hlen, hseg⟩ := splitOnPPrepend_spec (· == d) s []
  rw [List.splitOnPPrepend_nil_right, ← List.splitOn_eq_splitOnP, hsplit] at hlen hseg
  refine ⟨w, ws, hsplit, ?_, ?_, fun v hv c hc => ⟨?_, ?_⟩⟩
  · rw [← hsplit]
    exact List.intercalate_splitOn d
  · rw [List.count]
    simpa using hlen
  · have hmem : v ∈ s.splitOnP (· == d) := by
      rw [← List.splitOn_eq_splitOnP, hsplit]
      exact hv
    simpa using not_of_mem_splitOnP hmem c hc
  · simpa using (hseg v hv).1 c hc

theorem splitOn_space (s : List UInt8) : ∃ w ws, s.splitOn space = w :: ws ∧ joined w ws = s ∧
    ws.length = s.count space ∧ ∀ v ∈ w :: ws, ∀ c ∈ v, c ≠ space ∧ c ∈ s := by
  obtain ⟨w, ws, hsplit, hjoin, hlen, hws⟩ := splitOn_pieces s space
  exact ⟨w, ws, hsplit, (intercalate_eq_joined w ws).symm.trans hjoin, hlen, hws⟩

/-- The pieces between single spaces, if there is room for them and a null. -/
theorem parseArgs_spec {toParse : Buffer} (buff : Argv) {s tail : List UInt8} (hs : 0 ∉ s)
    (hline : toParse.bytes = s ++ 0 :: tail) :
    if ArgvFits s then
      ∃ string argv, parseArgs toParse buff = some (string, argv) ∧
        argsFrom string.bytes argv.entries = some (s.splitOn space)
    else parseArgs toParse buff = none := by
  obtain ⟨w, ws, hsplit, hjoined, hlen, hwords⟩ := splitOn_space s
  have hcstr : cstr toParse.bytes = some s := by
    rw [hline, cstr_append_iff s _ hs]
    rfl
  have hparse : parseArgs toParse buff = splitFrom space s.length (s.length + 2) toParse buff 0 0 0 := by
    rw [parseArgs, splitString, hcstr]
    rfl
  have hspec := splitFrom_spec (a := buff) (i := 0) (n := s.length + 2)
    (show toParse.bytes = [] ++ joined w ws ++ 0 :: tail by rw [hjoined]; exact hline)
    (show 0 = ([] : List UInt8).length from rfl)
    (show s.length = 0 + (joined w ws).length by rw [hjoined, Nat.zero_add])
    (fun v hv c hc => ⟨(hwords v hv c hc).1, fun h => hs (h ▸ (hwords v hv c hc).2)⟩)
    (by have := List.count_le_length (a := space) (l := s); omega)
  rw [hparse, hsplit]
  rw [Nat.zero_add, hlen] at hspec
  by_cases hfits : ArgvFits s
  · rw [if_pos (show s.count space + 2 ≤ MAXARGS from hfits)] at hspec
    rw [if_pos hfits]
    obtain ⟨string, argv, hrun, -, -, hargs⟩ := hspec
    exact ⟨string, argv, hrun, hargs⟩
  · rw [if_neg (show ¬ s.count space + 2 ≤ MAXARGS from hfits)] at hspec
    rw [if_neg hfits]
    exact hspec

def tab : UInt8 := 9

def isBlank (c : UInt8) : Bool := c = space || c = tab

/-- `parseArgs` leaves the words of the command and a null in the array. -/
def ParsesWords (s : List UInt8) (out : Option (Buffer × Argv)) : Prop :=
  ∃ string argv, out = some (string, argv) ∧
    argsFrom string.bytes argv.entries = some (words isBlank s)

/-- No tab, and no empty piece between single spaces: the command is not empty, no space is at
its start, at its end or next to another one. -/
def SinglySpaced (s : List UInt8) : Prop := tab ∉ s ∧ [] ∉ s.splitOn space

theorem splitOn_eq_words_iff (s : List UInt8) :
    s.splitOn space = words isBlank s ↔ SinglySpaced s := by
  rw [List.splitOn_eq_splitOnP, splitOnP_eq_words_iff fun c hc => by simp [isBlank, eq_of_beq hc],
    SinglySpaced, List.splitOn_eq_splitOnP]
  refine and_congr_left fun _ => ⟨fun h htab => ?_, fun h c hc => ?_⟩
  · exact absurd (h tab htab) (by decide)
  · have hne : c ≠ tab := fun heq => h (heq ▸ hc)
    simp [isBlank, hne, beq_eq_decide]

/-- The words of a command come out exactly when it is singly spaced and has at most ten. -/
theorem parseArgs_words_iff {toParse : Buffer} (buff : Argv) {s tail : List UInt8} (hs : 0 ∉ s)
    (hline : toParse.bytes = s ++ 0 :: tail) :
    ParsesWords s (parseArgs toParse buff) ↔ SinglySpaced s ∧ ArgvFits s := by
  have hspec := parseArgs_spec buff hs hline
  rw [← splitOn_eq_words_iff]
  split_ifs at hspec with hfits
  · obtain ⟨string, argv, hrun, hargs⟩ := hspec
    rw [and_iff_left hfits]
    constructor
    · rintro ⟨string', argv', hrun', hwords⟩
      obtain ⟨rfl, rfl⟩ := Prod.mk.inj (Option.some.inj (hrun.symm.trans hrun'))
      exact Option.some.inj (hargs.symm.trans hwords)
    · exact fun heq => ⟨string, argv, hrun, by rw [hargs, heq]⟩
  · refine iff_of_false ?_ fun h => hfits h.2
    rintro ⟨string, argv, hrun, -⟩
    rw [hspec] at hrun
    cases hrun

/-- The array as `allocateArgv` may hand it out. -/
def nullArgv : Argv := ⟨List.replicate MAXARGS none, List.length_replicate⟩

/-- `ls -l`. -/
theorem parseArgs_words_option :
    ParsesWords [108, 115, 32, 45, 108]
      (parseArgs (zeroPadded [108, 115, 32, 45, 108] (by decide)) nullArgv) :=
  (parseArgs_words_iff nullArgv (by decide) rfl).mpr ⟨⟨by decide, by decide⟩, by decide⟩

/-- A space before `ls`: the first argument is empty. -/
theorem parseArgs_keeps_leading_space : ¬ ∀ (toParse : Buffer) (buff : Argv) (s tail : List UInt8),
    0 ∉ s → toParse.bytes = s ++ 0 :: tail → ParsesWords s (parseArgs toParse buff) := by
  intro h
  have hwords := h (zeroPadded [32, 108, 115] (by decide)) nullArgv _ _ (by decide) rfl
  obtain ⟨string, argv, hrun, hargs⟩ := hwords
  have hspec := parseArgs_spec nullArgv (s := [32, 108, 115]) (by decide)
    (show (zeroPadded [32, 108, 115] (by decide)).bytes = _ from rfl)
  rw [if_pos (by decide)] at hspec
  obtain ⟨string', argv', hrun', hargs'⟩ := hspec
  obtain ⟨rfl, rfl⟩ := Prod.mk.inj (Option.some.inj (hrun.symm.trans hrun'))
  exact absurd (Option.some.inj (hargs'.symm.trans hargs)) (by decide)

/-! ## Built-in commands -/

theorem arg_eq {string : Buffer} {argv : Argv} {ws : List (List UInt8)}
    (h : argsFrom string.bytes argv.entries = some ws) {i : ℕ} (hi : i ≤ ws.length) :
    arg string argv i = ws[i]? := by
  rw [arg]
  generalize argv.entries = entries at h
  induction entries generalizing ws i with
  | nil => cases h
  | cons e entries ih =>
    cases e with
    | none =>
      obtain rfl : ws = [] := (Option.some.inj h).symm
      obtain rfl : i = 0 := by simpa using hi
      rfl
    | some a =>
      obtain ⟨w, hw, hrest⟩ := Option.bind_eq_some_iff.mp h
      obtain ⟨vs, hvs, hret⟩ := Option.bind_eq_some_iff.mp hrest
      obtain rfl : w :: vs = ws := Option.some.inj hret
      cases i with
      | zero => exact hw
      | succ i => exact ih (by simpa using hi) hvs

/-- The array is large enough, and no null pointer is followed. -/
def RunsSafely (out : Option (Buffer × Argv)) : Prop :=
  ∃ string argv, out = some (string, argv) ∧ (runBuiltIn string argv).isSome = true

theorem runBuiltIn_isSome {string : Buffer} {argv : Argv} {w : List UInt8} {ws : List (List UInt8)}
    (h : argsFrom string.bytes argv.entries = some (w :: ws)) :
    (runBuiltIn string argv).isSome = true ↔ ¬ ((w = cdWord ∨ w = pathWord) ∧ ws = []) := by
  have h0 : arg string argv 0 = some w := arg_eq h (Nat.zero_le _)
  have h1 : arg string argv 1 = ws[0]? := arg_eq h (by simp)
  have hce : cdWord ≠ exitWord := by decide
  have hpe : pathWord ≠ exitWord := by decide
  have hpc : pathWord ≠ cdWord := by decide
  rw [runBuiltIn, executeBuiltIn, h0, h1]
  by_cases hcd : w = cdWord
  · cases ws <;> simp [hcd, isBuiltIn, hce]
  by_cases hpath : w = pathWord
  · cases ws <;> simp [hpath, isBuiltIn, hpe, hpc]
  by_cases hexit : w = exitWord
  · simp [hexit, isBuiltIn, hce.symm, hpe.symm]
  · simp [hcd, hpath, hexit, isBuiltIn]

/-- The arguments fit the array and none is missing exactly when the command has at most nine
spaces and is not `cd` or `path` alone. -/
theorem runWish_safe_iff {toParse : Buffer} (buff : Argv) {s tail : List UInt8} (hs : 0 ∉ s)
    (hline : toParse.bytes = s ++ 0 :: tail) :
    RunsSafely (parseArgs toParse buff) ↔ ArgvFits s ∧ s ≠ cdWord ∧ s ≠ pathWord := by
  have hspec := parseArgs_spec buff hs hline
  obtain ⟨w, ws, hsplit, hjoined, -⟩ := splitOn_space s
  split_ifs at hspec with hfits
  · obtain ⟨string, argv, hrun, hargs⟩ := hspec
    rw [hsplit] at hargs
    have hone : ∀ v, v.splitOn space = [v] → (w = v ∧ ws = [] ↔ s = v) := by
      intro v hv
      constructor
      · rintro ⟨rfl, rfl⟩
        rw [← hjoined]
        simp [joined]
      · rintro rfl
        simpa [hv, eq_comm] using hsplit
    have hsafe : RunsSafely (parseArgs toParse buff) ↔ (runBuiltIn string argv).isSome = true := by
      constructor
      · rintro ⟨string', argv', hrun', hsome⟩
        obtain ⟨rfl, rfl⟩ := Prod.mk.inj (Option.some.inj (hrun.symm.trans hrun'))
        exact hsome
      · exact fun hsome => ⟨string, argv, hrun, hsome⟩
    rw [hsafe, runBuiltIn_isSome hargs, or_and_right, not_or, hone cdWord (by decide),
      hone pathWord (by decide), and_iff_right hfits]
  · refine iff_of_false ?_ fun h => hfits h.1
    rintro ⟨string, argv, hrun, -⟩
    rw [hspec] at hrun
    cases hrun

/-- `ls -l`. -/
theorem runWish_safe_option :
    RunsSafely (parseArgs (zeroPadded [108, 115, 32, 45, 108] (by decide)) nullArgv) :=
  (runWish_safe_iff nullArgv (by decide) rfl).mpr ⟨by decide, by decide, by decide⟩

/-- `cd` alone: `myargv[1]` is null. -/
theorem runWish_follows_null : ¬ ∀ (toParse : Buffer) (buff : Argv) (s tail : List UInt8),
    0 ∉ s → toParse.bytes = s ++ 0 :: tail → RunsSafely (parseArgs toParse buff) := by
  intro h
  obtain ⟨string, argv, hrun, hsome⟩ := h (zeroPadded cdWord (by decide)) nullArgv cdWord _ (by decide) rfl
  have hspec := parseArgs_spec nullArgv (s := cdWord) (by decide)
    (show (zeroPadded cdWord (by decide)).bytes = _ from rfl)
  rw [if_pos (by decide)] at hspec
  obtain ⟨string', argv', hrun', hargs⟩ := hspec
  obtain ⟨rfl, rfl⟩ := Prod.mk.inj (Option.some.inj (hrun.symm.trans hrun'))
  exact (runBuiltIn_isSome hargs).mp hsome ⟨.inl rfl, rfl⟩

end Ostep.WishArgs

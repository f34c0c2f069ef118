import Ostep.WishArgs

/-!
# splitString

wishUtils.c with its loops and its copies of single characters, for a string of any length, any
delimiter and an array of any size. A pointer into the string is its offset. The string, the copy
of it, the delimiter, the array and the literals are blocks of their own, and `none` is an access
outside one of them, or a loop that does not end.
-/

namespace Ostep.WishSplit
open ByteBuffer

/-- The array of pointers; an entry is null or an offset in the string. -/
abbrev Pointers := List (Option ℕ)

/-- The literals `"\0"` and `"\0\0"`, with the NUL that ends them. -/
def null : List UInt8 := [0, 0]
def nullTerm : List UInt8 := [0, 0, 0]

def memcpy (dst : List UInt8) (d : ℕ) (src : List UInt8) (s n : ℕ) : Option (List UInt8) :=
  if d + n ≤ dst.length ∧ s + n ≤ src.length then some (memmove dst src d s n) else none

def strlen : List UInt8 → Option ℕ
  | [] => none
  | c :: s => if c = 0 then some 0 else (strlen s).map (· + 1)

/-- `junk` is what a block holds that `malloc` has just given. -/
def strdup (junk : ℕ → UInt8) (s : List UInt8) : Option (List UInt8) := do
  let len ← strlen s
  memcpy ((List.range (len + 1)).map junk) 0 s 0 (len + 1)

def strcmp : List UInt8 → List UInt8 → Option ℤ
  | p :: ps, q :: qs => if p ≠ 0 ∧ p = q then strcmp ps qs else some ((p.toNat : ℤ) - q.toNat)
  | _, _ => none

def strcmpbool (p q : List UInt8) : Option Bool := (strcmp p q).map (· = 0)

/-- `currStr`, both characters of which are written before it is read. -/
def currStr (string : List UInt8) (k : ℕ) : Option (List UInt8) := do
  let currStr ← memcpy [0, 0] 0 string k 1
  memcpy currStr 1 null 0 1

/-- The loop of `getToken`, with `currIndex` and `finalAddress`. -/
def tokenLoop (string delimiter : List UInt8) (ptr : ℕ) :
    ℕ → ℕ → ℕ → Bool → Bool → Option (ℕ × ℕ)
  | 0, _, _, _, _ => none
  | fuel + 1, currIndex, finalAddress, isDelimiter, isNull =>
    if isDelimiter || isNull then some (currIndex, finalAddress)
    else do
      let curr ← currStr string (ptr + (currIndex + 1))
      let isDelimiter ← strcmpbool curr delimiter
      let isNull ← strcmpbool curr nullTerm
      tokenLoop string delimiter ptr fuel (currIndex + 1) (ptr + (currIndex + 1)) isDelimiter isNull

/-- What is in `*ptr` and `*status` afterwards, and the address returned. -/
def getToken (ptr : ℕ) (string refString delimiter : List UInt8) (status : Bool) :
    Option (ℕ × Bool × ℕ) := do
  let len ← strlen refString
  if len < ptr then return (ptr, false, ptr)
  else do
    let curr ← currStr string ptr
    let isNull ← strcmpbool curr nullTerm
    let isDelimiter ← strcmpbool curr delimiter
    let (currIndex, finalAddress) ←
      tokenLoop string delimiter ptr (string.length + 1) 0 ptr isDelimiter isNull
    return (ptr + currIndex, status, finalAddress)

def store (res : Pointers) (i : ℕ) (v : Option ℕ) : Option Pointers :=
  if i < res.length then some (res.set i v) else none

/-- The loop of `splitString`. -/
def splitLoop (refString delimiter : List UInt8) :
    ℕ → List UInt8 → Pointers → ℕ → ℕ → ℕ → Option (List UInt8 × Pointers)
  | 0, _, _, _, _, _ => none
  | fuel + 1, string, res, ptr, temp, i => do
    let startOfWord := temp
    let (ptr, status, temp) ← getToken ptr string refString delimiter true
    if !status then do
      let res ← store res i none
      return (string, res)
    else do
      let res ← store res i (some startOfWord)
      let string ← memcpy string temp null 0 1
      splitLoop refString delimiter fuel string res (ptr + 1) (temp + 1) (i + 1)

def splitString (junk : ℕ → UInt8) (string delimiter : List UInt8) (res : Pointers) :
    Option (List UInt8 × Pointers) := do
  let refString ← strdup junk string
  splitLoop refString delimiter (refString.length + 1) string res 0 0 0

/-! ## Characters -/

variable {string s w tail pre : List UInt8} {ws : List (List UInt8)} {c d : UInt8}
  {ptr k i fuel : ℕ} {res : Pointers}

theorem memcpy_one {dst src : List UInt8} (hd : k < dst.length) (hs : src[i]? = some c) :
    memcpy dst k src i 1 = some (dst.set k c) := by
  obtain ⟨hi, -⟩ := List.getElem?_eq_some_iff.mp hs
  rw [memcpy, if_pos ⟨hd, hi⟩]
  simp [memmove, List.getD, hs]

theorem currStr_of_get (h : string[k]? = some c) : currStr string k = some [c, 0] := by
  rw [currStr, memcpy_one (by decide) h]
  rfl

theorem currStr_outside (h : string[k]? = none) : currStr string k = none := by
  rw [List.getElem?_eq_none_iff] at h
  rw [currStr, memcpy, if_neg (by omega)]
  rfl

theorem strcmpbool_char (hd : d ≠ 0) : strcmpbool [c, 0] [d, 0] = some (decide (c = d)) := by
  have hsub : ((c.toNat : ℤ) - d.toNat = 0) = (c = d) := by
    rw [Int.sub_eq_zero, Int.natCast_inj, UInt8.toNat_inj]
  by_cases hc : c = d
  · subst hc
    simp [strcmpbool, strcmp, hd]
  · simp [strcmpbool, strcmp, hc, hsub]

theorem strcmpbool_null : strcmpbool [c, 0] nullTerm = some (decide (c = 0)) := by
  have hsub : ((c.toNat : ℤ) - (0 : UInt8).toNat = 0) = (c = 0) := by
    rw [Int.sub_eq_zero, Int.natCast_inj, UInt8.toNat_inj]
  have hno : ¬ (c ≠ 0 ∧ c = 0) := fun h => h.1 h.2
  simp only [strcmpbool, strcmp, nullTerm, if_neg hno, Option.map_some, hsub]

theorem strlen_append (hs : 0 ∉ s) : strlen (s ++ 0 :: tail) = some s.length := by
  induction s with
  | nil => rfl
  | cons c s ih =>
    rw [List.mem_cons, not_or] at hs
    rw [List.cons_append, strlen, if_neg (Ne.symm hs.1), ih hs.2]
    rfl

theorem strlen_none (hs : 0 ∉ s) : strlen s = none := by
  induction s with
  | nil => rfl
  | cons c s ih =>
    rw [List.mem_cons, not_or] at hs
    rw [strlen, if_neg (Ne.symm hs.1), ih hs.2]
    rfl

theorem strdup_eq (junk : ℕ → UInt8) (hs : 0 ∉ s) :
    strdup junk (s ++ 0 :: tail) = some (s ++ [0]) := by
  have htake : (s ++ 0 :: tail).take (s.length + 1) = s ++ [0] := by
    rw [List.take_append]
    simp
  rw [strdup, strlen_append hs]
  change memcpy _ 0 _ 0 (s.length + 1) = _
  have hmove := memmove_eq ((List.range (s.length + 1)).map junk) (s ++ 0 :: tail) 0 0 (s.length + 1)
    (by simp) (by simp)
  rw [memcpy, if_pos (by simp), hmove]
  simp [htake]

/-! ## getToken -/

theorem tokenLoop_eq (hd : d ≠ 0) (hfuel : (string.drop (ptr + k)).length < fuel) :
    ((currStr string (ptr + k)).bind fun curr => do
      let isDelimiter ← strcmpbool curr [d, 0]
      let isNull ← strcmpbool curr nullTerm
      tokenLoop string [d, 0] ptr fuel k (ptr + k) isDelimiter isNull) =
    (WishArgs.tokenLength d (string.drop (ptr + k))).map fun n => (k + n, ptr + (k + n)) := by
  induction fuel generalizing k with
  | zero => omega
  | succ fuel ih =>
    cases hget : string[ptr + k]? with
    | none =>
      rw [currStr_outside hget, List.drop_eq_nil_of_le (List.getElem?_eq_none_iff.mp hget)]
      rfl
    | some c =>
      obtain ⟨hlt, hc⟩ := List.getElem?_eq_some_iff.mp hget
      have hdrop : string.drop (ptr + k) = c :: string.drop (ptr + (k + 1)) := by
        rw [List.drop_eq_getElem_cons hlt, hc]
        rfl
      rw [hdrop, List.length_cons] at hfuel
      rw [currStr_of_get hget, hdrop, WishArgs.tokenLength]
      simp only [Option.bind_some, strcmpbool_char hd, strcmpbool_null, Option.bind_eq_bind]
      rw [tokenLoop]
      by_cases hstop : c = d ∨ c = 0
      · rw [if_pos hstop, if_pos (by simpa using hstop)]
        rfl
      · rw [if_neg hstop, if_neg (by simpa using hstop)]
        refine (ih (k := k + 1) (by omega)).trans ?_
        rw [Option.map_map]
        congr 1
        funext n
        simp only [Function.comp_apply, Prod.mk.injEq]
        omega

theorem getToken_eq {refString : List UInt8} {refLen : ℕ} (href : strlen refString = some refLen)
    (hd : d ≠ 0) (status : Bool) : getToken ptr string refString [d, 0] status =
      if refLen < ptr then some (ptr, false, ptr)
      else (WishArgs.tokenLength d (string.drop ptr)).map fun n => (ptr + n, status, ptr + n) := by
  have hloop := tokenLoop_eq hd (show (string.drop (ptr + 0)).length < string.length + 1 by
    rw [List.length_drop]
    omega)
  rw [getToken, href]
  change (if refLen < ptr then _ else _) = _
  by_cases hend : refLen < ptr
  · rw [if_pos hend, if_pos hend]
    rfl
  · rw [if_neg hend, if_neg hend]
    rw [Nat.add_zero] at hloop
    cases hget : string[ptr]? with
    | none =>
      rw [currStr_outside hget, List.drop_eq_nil_of_le (List.getElem?_eq_none_iff.mp hget)]
      rfl
    | some c =>
      rw [currStr_of_get hget] at hloop ⊢
      simp only [Option.bind_some, strcmpbool_char hd, strcmpbool_null, Option.bind_eq_bind] at hloop ⊢
      rw [hloop]
      cases WishArgs.tokenLength d (string.drop ptr) with
      | none => rfl
      | some n => simp

/-! ## splitString -/

/-- Where the pieces start. -/
def starts : ℕ → List (List UInt8) → List ℕ
  | _, [] => []
  | o, w :: ws => o :: starts (o + w.length + 1) ws

/-- The pieces one after the other, each with a NUL. -/
def terminated (ws : List (List UInt8)) : List UInt8 := ws.flatMap (· ++ [0])

theorem store_of_lt (h : i < res.length) (v : Option ℕ) : store res i v = some (res.set i v) :=
  if_pos h

theorem take_set_succ (h : i < res.length) (v : Option ℕ) :
    (res.set i v).take (i + 1) = res.take i ++ [v] := by
  have hlen : (res.take i).length = i := by
    rw [List.length_take]
    omega
  rw [List.set_eq_take_append_cons_drop, if_pos h, List.take_append, hlen, Nat.add_sub_cancel_left,
    List.take_of_length_le (by omega)]
  rfl

/-- One turn of the loop: the piece that ends at `c`. -/
theorem splitLoop_piece {refString rest : List UInt8} {refLen : ℕ}
    (href : strlen refString = some refLen) (hd : d ≠ 0) (hstring : string = pre ++ w ++ c :: rest)
    (hptr : ptr = pre.length) (hle : ptr ≤ refLen) (hw : ∀ a ∈ w, a ≠ d ∧ a ≠ 0)
    (hc : c = d ∨ c = 0) (hi : i < res.length) :
    splitLoop refString [d, 0] (fuel + 1) string res ptr ptr i =
      splitLoop refString [d, 0] fuel (pre ++ w ++ 0 :: rest) (res.set i (some ptr))
        (ptr + w.length + 1) (ptr + w.length + 1) (i + 1) := by
  have hdrop : string.drop ptr = w ++ c :: rest := by
    rw [hstring, List.append_assoc, hptr, List.drop_left]
  have htoken : getToken ptr string refString [d, 0] true =
      some (ptr + w.length, true, ptr + w.length) := by
    rw [getToken_eq href hd, if_neg (by omega), hdrop, WishArgs.tokenLength_append hw hc]
    rfl
  have hcut : memcpy string (ptr + w.length) null 0 1 = some (pre ++ w ++ 0 :: rest) := by
    rw [memcpy_one (c := 0) (by rw [hstring, hptr]; simp) rfl, hstring, hptr,
      ← List.length_append, List.set_append_right _ _ le_rfl, Nat.sub_self]
    rfl
  rw [splitLoop, htoken]
  simp [store_of_lt hi, hcut]

/-- The turn behind the last piece. -/
theorem splitLoop_end {refString : List UInt8} {refLen : ℕ} (href : strlen refString = some refLen)
    (hd : d ≠ 0) (hptr : refLen < ptr) (hi : i < res.length) :
    splitLoop refString [d, 0] (fuel + 1) string res ptr ptr i = some (string, res.set i none) := by
  rw [splitLoop, getToken_eq href hd, if_pos hptr]
  simp [store_of_lt hi]

theorem splitLoop_spec {refString : List UInt8} {refLen : ℕ} (href : strlen refString = some refLen)
    (hd : d ≠ 0) (hstring : string = pre ++ [d].intercalate (w :: ws) ++ [0])
    (hptr : ptr = pre.length) (hlen : refLen = ptr + ([d].intercalate (w :: ws)).length)
    (hws : ∀ v ∈ w :: ws, ∀ a ∈ v, a ≠ d ∧ a ≠ 0) (hroom : i + ws.length + 2 ≤ res.length)
    (hfuel : ws.length + 1 < fuel) :
    splitLoop refString [d, 0] fuel string res ptr ptr i =
      some (pre ++ terminated (w :: ws), res.take i ++ (starts ptr (w :: ws)).map some ++
        none :: res.drop (i + ws.length + 2)) := by
  obtain ⟨fuel, rfl⟩ : ∃ n, fuel = n + 1 := ⟨fuel - 1, by omega⟩
  obtain ⟨hw, hrest⟩ := List.forall_mem_cons.mp hws
  induction ws generalizing fuel string res pre w ptr i with
  | nil =>
    have hone : [d].intercalate [w] = w := by simp [List.intercalate]
    rw [hone] at hstring hlen
    obtain ⟨fuel, rfl⟩ : ∃ n, fuel = n + 1 := ⟨fuel - 1, by simp at hfuel; omega⟩
    rw [List.length_nil] at hroom
    rw [splitLoop_piece href hd hstring hptr (by omega) hw (.inr rfl) (by omega),
      splitLoop_end href hd (by omega) (by rw [List.length_set]; omega)]
    have hset : (res.set i (some ptr)).set (i + 1) none =
        res.take i ++ some ptr :: none :: res.drop (i + 2) := by
      rw [List.set_eq_take_append_cons_drop, if_pos (by rw [List.length_set]; omega),
        take_set_succ (by omega), List.drop_set_of_lt (by omega), List.append_assoc]
      rfl
    rw [hset]
    simp [terminated, starts]
  | cons v ws ih =>
    have hcons : [d].intercalate (w :: v :: ws) = w ++ d :: [d].intercalate (v :: ws) := by
      simp [List.intercalate, List.intersperse]
    rw [hcons] at hstring hlen
    rw [List.length_cons] at hroom hfuel
    rw [List.length_append, List.length_cons] at hlen
    obtain ⟨fuel, rfl⟩ : ∃ n, fuel = n + 1 := ⟨fuel - 1, by omega⟩
    have hstring' : string = pre ++ w ++ d :: ([d].intercalate (v :: ws) ++ [0]) := by
      rw [hstring]
      simp
    rw [splitLoop_piece href hd hstring' hptr (by omega) hw (.inl rfl) (by omega)]
    rw [ih (show _ = (pre ++ w ++ [0]) ++ _ ++ [0] by simp) (by rw [hptr]; simp; omega) (by omega) hrest
      (by rw [List.length_set]; omega) fuel (by omega) (List.forall_mem_cons.mp hrest).1
      (List.forall_mem_cons.mp hrest).2]
    rw [take_set_succ (by omega), List.drop_set_of_lt (by omega)]
    simp [terminated, starts, Nat.add_assoc, Nat.add_comm, Nat.add_left_comm]

theorem intercalate_cons (d : UInt8) (w v : List UInt8) (ws : List (List UInt8)) :
    [d].intercalate (w :: v :: ws) = w ++ d :: [d].intercalate (v :: ws) := by
  simp [List.intercalate, List.intersperse]

theorem length_terminated (d : UInt8) (w : List UInt8) (ws : List (List UInt8)) :
    (terminated (w :: ws)).length = ([d].intercalate (w :: ws)).length + 1 := by
  induction ws generalizing w with
  | nil => simp [terminated, List.intercalate]
  | cons v ws ih =>
    have hcons : terminated (w :: v :: ws) = w ++ 0 :: terminated (v :: ws) := by
      simp [terminated]
    rw [hcons, intercalate_cons, List.length_append, List.length_append, List.length_cons,
      List.length_cons, ih]
    omega

/-- Read from its start, a piece ends at its NUL. -/
theorem cstr_starts (pre : List UInt8) (hws : ∀ v ∈ ws, 0 ∉ v) :
    List.Forall₂ (fun a w => cstr ((pre ++ terminated ws).drop a) = some w)
      (starts pre.length ws) ws := by
  induction ws generalizing pre with
  | nil => exact .nil
  | cons w ws ih =>
    have hcons : pre ++ terminated (w :: ws) = (pre ++ w ++ [0]) ++ terminated ws := by
      simp [terminated]
    have hlen : pre.length + w.length + 1 = (pre ++ w ++ [0]).length := by
      simp [Nat.add_assoc]
    refine .cons ?_ ?_
    · have hhead : pre ++ terminated (w :: ws) = pre ++ w ++ 0 :: terminated ws := by
        rw [hcons]
        simp
      rw [hhead]
      exact WishArgs.cstr_drop_left (hws w List.mem_cons_self)
    · rw [hcons, hlen]
      exact ih _ fun v hv => hws v (List.mem_cons_of_mem w hv)

/-- The starts are where the pieces lie in the string itself. -/
theorem piece_starts (d : UInt8) (pre tail : List UInt8) (ws : List (List UInt8)) :
    List.Forall₂ (fun a w => a + w.length ≤ pre.length + ([d].intercalate ws).length ∧
      ((pre ++ [d].intercalate ws ++ tail).drop a).take w.length = w)
      (starts pre.length ws) ws := by
  induction ws generalizing pre with
  | nil => exact .nil
  | cons w ws ih =>
    cases ws with
    | nil =>
      refine .cons ⟨?_, ?_⟩ .nil
      · simp [List.intercalate]
      · simp [List.intercalate, List.append_assoc]
    | cons v ws =>
      have hlen : pre.length + w.length + 1 = (pre ++ w ++ [d]).length := by
        simp [Nat.add_assoc]
      have hstr : pre ++ [d].intercalate (w :: v :: ws) ++ tail =
          (pre ++ w ++ [d]) ++ [d].intercalate (v :: ws) ++ tail := by
        rw [intercalate_cons]
        simp
      have htotal : pre.length + ([d].intercalate (w :: v :: ws)).length =
          (pre ++ w ++ [d]).length + ([d].intercalate (v :: ws)).length := by
        rw [intercalate_cons, ← hlen, List.length_append, List.length_cons]
        omega
      rw [hstr, htotal]
      refine .cons ⟨?_, ?_⟩ ?_
      · rw [← hlen]
        omega
      · simp [List.append_assoc]
      · rw [hlen]
        exact ih _

/-- The string is exactly the block it lies in, so nothing outside it is read or written. Each
entry of the array is the start of its piece, at which the piece lies before the call and ends
with a NUL after it; a null follows, and the rest of the array stays. -/
theorem splitString_pieces (junk : ℕ → UInt8) (s : List UInt8) (hs : 0 ∉ s) (d : UInt8) (hd : d ≠ 0)
    (res : Pointers) (hroom : (s.splitOn d).length < res.length) :
    ∃ string' addrs, splitString junk (s ++ [0]) [d, 0] res =
        some (string', addrs.map some ++ none :: res.drop ((s.splitOn d).length + 1)) ∧
      string'.length = s.length + 1 ∧
      List.Forall₂ (fun a w => a + w.length ≤ s.length ∧ (s.drop a).take w.length = w ∧
        cstr (string'.drop a) = some w) addrs (s.splitOn d) ∧
      [d].intercalate (s.splitOn d) = s ∧ ∀ w ∈ s.splitOn d, d ∉ w := by
  obtain ⟨w, ws, hsplit, hjoin, hcount, hws⟩ := WishArgs.splitOn_pieces s d
  have hlen : ws.length ≤ s.length := hcount ▸ List.count_le_length
  rw [hsplit] at hroom ⊢
  rw [List.length_cons] at hroom ⊢
  have href : strlen (s ++ [0]) = some s.length := strlen_append hs
  have hrun := splitLoop_spec href hd (show s ++ [0] = [] ++ _ ++ [0] by rw [hjoin]; rfl)
    (show 0 = ([] : List UInt8).length from rfl) (by rw [hjoin, Nat.zero_add])
    (fun v hv c hc => ⟨(hws v hv c hc).1, fun h0 => hs (h0 ▸ (hws v hv c hc).2)⟩)
    (show 0 + ws.length + 2 ≤ res.length by omega) (show ws.length + 1 < s.length + 2 by omega)
  have hpieces := piece_starts d [] [] (w :: ws)
  rw [List.nil_append, List.append_nil, hjoin, List.length_nil, Nat.zero_add] at hpieces
  have hcstr := cstr_starts [] fun v (hv : v ∈ w :: ws) h0 => hs (hws v hv 0 h0).2
  refine ⟨terminated (w :: ws), starts 0 (w :: ws), ?_, ?_, ?_, hjoin, fun v hv hdv =>
    (hws v hv d hdv).1 rfl⟩
  · have hblock : (s ++ [0]).length + 1 = s.length + 2 := by simp
    rw [splitString, strdup_eq junk hs]
    change splitLoop _ _ ((s ++ [0]).length + 1) _ _ _ _ _ = _
    rw [hblock, hrun]
    simp
  · rw [length_terminated d, hjoin]
  · exact (List.forall₂_iff_get.mpr ⟨hpieces.length_eq, fun i h₁ h₂ =>
      ⟨(hpieces.get h₁ h₂).1, (hpieces.get h₁ h₂).2, hcstr.get h₁ h₂⟩⟩)

theorem splitString_pieces_comma : ∃ string' addrs,
    splitString (fun _ => 7) ([97, 44, 44, 98] ++ [0]) [44, 0] (List.replicate 4 (some 9)) =
        some (string', addrs.map some ++ none :: []) ∧ string'.length = 5 ∧
      List.Forall₂ (fun a w => a + w.length ≤ 4 ∧ (([97, 44, 44, 98] : List UInt8).drop a).take w.length = w ∧
        cstr (string'.drop a) = some w) addrs [[97], [], [98]] := by
  obtain ⟨string', addrs, hrun, hlen, hpieces, -⟩ := splitString_pieces (fun _ => 7) [97, 44, 44, 98]
    (by decide) 44 (by decide) (List.replicate 4 (some 9)) (by decide)
  exact ⟨string', addrs, hrun, hlen, hpieces⟩

/-! ## parseArgs -/

theorem splitLoop_args {refString : List UInt8} {refLen : ℕ} (href : strlen refString = some refLen)
    (hd : d ≠ 0) (string : WishParallelize.Buffer) (res : WishArgs.Argv) :
    splitLoop refString [d, 0] fuel string.bytes res.entries ptr ptr i =
      (WishArgs.splitFrom d refLen fuel string res ptr ptr i).map
        fun p => (p.1.bytes, p.2.entries) := by
  induction fuel generalizing string res ptr i with
  | zero => rfl
  | succ fuel ih =>
    rw [splitLoop, getToken_eq href hd, WishArgs.splitFrom, WishArgs.getToken]
    have hstore : ∀ v, store res.entries i v = (res.store i v).map (·.entries) := fun v => by
      rw [store, WishArgs.Argv.store, res.size]
      split_ifs <;> rfl
    split_ifs with hend
    · simp only [Option.bind_eq_bind, Option.bind_some, hstore]
      cases res.store i none <;> rfl
    · cases htoken : WishArgs.tokenLength d (string.bytes.drop ptr) with
      | none => rfl
      | some n =>
        simp only [Option.map_some, Option.bind_eq_bind, Option.bind_some, hstore]
        cases res.store i (some ptr) with
        | none => rfl
        | some res' =>
          have hlt : ptr + n < string.bytes.length := by
            have := WishArgs.tokenLength_lt htoken
            rw [List.length_drop] at this
            omega
          have hcut : memcpy string.bytes (ptr + n) null 0 1 =
              some (WishArgs.cut string (ptr + n)).bytes := memcpy_one hlt rfl
          simp only [Option.map_some, Option.bind_some, Bool.not_true, Bool.false_eq_true, if_false,
            hcut]
          exact ih _ _

/-- What `parseArgs` does to the command and the array of a child of `wish`. -/
theorem splitString_args (junk : ℕ → UInt8) (hd : d ≠ 0) (string : WishParallelize.Buffer)
    (res : WishArgs.Argv) : splitString junk string.bytes [d, 0] res.entries =
      (WishArgs.splitString string d res).map fun p => (p.1.bytes, p.2.entries) := by
  by_cases hmem : 0 ∈ string.bytes
  · obtain ⟨s, tail, hbytes, hs⟩ : ∃ s tail, string.bytes = s ++ 0 :: tail ∧ 0 ∉ s :=
      List.eq_append_cons_of_mem hmem
    have hcstr : cstr string.bytes = some s := by
      rw [hbytes, cstr_append_iff s _ hs]
      rfl
    have hdup : strdup junk string.bytes = some (s ++ [0]) := by rw [hbytes, strdup_eq junk hs]
    have hblock : (s ++ [0]).length + 1 = s.length + 2 := by simp
    rw [splitString, hdup, WishArgs.splitString, hcstr]
    change splitLoop _ _ ((s ++ [0]).length + 1) _ _ _ _ _ = _
    rw [hblock]
    exact splitLoop_args (strlen_append hs) hd string res
  · have hstrlen : strlen string.bytes = none := strlen_none hmem
    rw [splitString, strdup, hstrlen, WishArgs.splitString, cstr, if_neg hmem]
    rfl

end Ostep.WishSplit

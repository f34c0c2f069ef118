import Ostep.RingQueue
import Ostep.TransitionSystem
import Mathlib.Data.Fin.Basic

/-!
# The console's input ring

Interrupt handlers type characters into `input` and readers take them out. `cons.lock` is
explicit: a handler has it from its first character to its last, a reader whenever it is not
asleep. The indices are the code's `uint`s and wrap. The lock of the console's inode, which a
reader gives up for the time of the call, and what `consputc` shows play no part.
-/

namespace Ostep.ConsoleInput
open TransitionSystem RingQueue

abbrev INPUT_BUF : ℕ := 128

/-- `C(x)`. -/
def C (x : Char) : UInt8 := x.toUInt8 - '@'.toUInt8

def newline : UInt8 := '\n'.toUInt8

structure Input where
  buf : Fin INPUT_BUF → UInt8
  r : BitVec 32
  w : BitVec 32
  e : BitVec 32

/-- The loop of `C('U')`, at most `fuel` turns. -/
def killLoop : ℕ → Input → Input
  | 0, s => s
  | fuel + 1, s =>
    if s.e ≠ s.w ∧ s.buf (index (s.e - 1)) ≠ newline then killLoop fuel { s with e := s.e - 1 }
    else s

/-- `C('U')`: when the loop has run `e - w` times, `e` is `w`. -/
def killLine (s : Input) : Input := killLoop (s.e - s.w).toNat s

/-- Backspace. -/
def erase (s : Input) : Input := if s.e ≠ s.w then { s with e := s.e - 1 } else s

/-- `input.buf[input.e++ % INPUT_BUF] = c`; the flag says that the line is committed and readers
are woken up. -/
def store (s : Input) (c : UInt8) : Input × Bool :=
  let s := { s with buf := Function.update s.buf (index s.e) c, e := s.e + 1 }
  if c = newline ∨ c = C 'D' ∨ s.e = s.r + 128#32 then ({ s with w := s.e }, true) else (s, false)

/-- Any other character. -/
def put (s : Input) (c : UInt8) : Input × Bool :=
  if c ≠ 0 ∧ (s.e - s.r).toNat < INPUT_BUF then store s (if c = '\r'.toUInt8 then newline else c)
  else (s, false)

/-- The `switch` of `consoleintr`; `C('P')` only asks for a process listing. -/
def typeChar (s : Input) (c : UInt8) : Input × Bool :=
  if c = C 'P' then (s, false)
  else if c = C 'U' then (killLine s, false)
  else if c = C 'H' ∨ c = 0x7f then (erase s, false)
  else put s c

/-- A call of `consoleread` in progress, with what it has stored from `dst` on. -/
structure Call where
  n : BitVec 32
  target : BitVec 32
  out : List UInt8
  deriving DecidableEq

inductive Pc where
  | idle
  /-- `acquire(&cons.lock)` on entry. -/
  | acquire (c : Call)
  /-- `while(n > 0)`. -/
  | outer (c : Call)
  /-- `while(input.r == input.w)`. -/
  | inner (c : Call)
  | asleep (c : Call)
  /-- `release(&cons.lock)` before the call returns `ret`. -/
  | finish (ret : BitVec 32) (out : List UInt8)
  deriving DecidableEq

/-- The reader takes the character at `input.r`. -/
def readChar (s : Input) (c : Call) : Input × Pc :=
  let ch := s.buf (index s.r)
  let s := { s with r := s.r + 1 }
  if ch = C 'D' then
    if c.n < c.target then ({ s with r := s.r - 1 }, .finish (c.target - c.n) c.out)
    else (s, .finish (c.target - c.n) c.out)
  else
    let c : Call := ⟨c.n - 1, c.target, c.out ++ [ch]⟩
    if ch = newline then (s, .finish (c.target - c.n) c.out) else (s, .outer c)

inductive Holder (ι κ : Type*) where
  | reader (q : ι)
  | handler (k : κ)
  deriving DecidableEq

variable {ι κ : Type*} [DecidableEq ι] [DecidableEq κ]

structure St (ι κ : Type*) where
  input : Input
  /-- The holder of `cons.lock`. -/
  lock : Option (Holder ι κ)
  pc : ι → Pc
  /-- SLEEPING on `&input.r`. -/
  sleeping : ι → Bool
  killed : ι → Bool

def St.goto (s : St ι κ) (q : ι) (pc : Pc) : St ι κ := { s with pc := Function.update s.pc q pc }

/-- `sleep` releases `cons.lock` and makes `q` SLEEPING under `ptable.lock`, which `wakeup`
needs, so that the two are one step. -/
def St.sleep (s : St ι κ) (q : ι) (c : Call) : St ι κ :=
  { s with lock := none, sleeping := Function.update s.sleeping q true }.goto q (.asleep c)

/-- The next step of reader `q`; `none` when it has none or waits. -/
def stepOf (s : St ι κ) (q : ι) : Option (St ι κ) :=
  match s.pc q with
  | .idle => none
  | .acquire c =>
    if s.lock = none then some ({ s with lock := some (.reader q) }.goto q (.outer c)) else none
  | .outer c =>
    if 0 < c.n.toInt then some (s.goto q (.inner c))
    else some (s.goto q (.finish (c.target - c.n) c.out))
  | .inner c =>
    if s.input.r = s.input.w then
      if s.killed q then some (s.goto q (.finish (-1) c.out)) else some (s.sleep q c)
    else
      let p := readChar s.input c
      some ({ s with input := p.1 }.goto q p.2)
  | .asleep c =>
    if s.sleeping q = false ∧ s.lock = none then
      some ({ s with lock := some (.reader q) }.goto q (.inner c))
    else none
  | .finish _ _ => some ({ s with lock := none }.goto q .idle)

inductive Event (ι κ : Type*) where
  /-- A call of `consoleread` for `n` characters begins. -/
  | read (q : ι) (n : BitVec 32)
  | step (q : ι)
  /-- `consoleintr` acquires the lock, `getc` gives a character, `getc` gives none. -/
  | intr (k : κ)
  | type (k : κ) (c : UInt8)
  | done (k : κ)
  | kill (q : ι)

def next (s : St ι κ) : Event ι κ → Option (St ι κ)
  | .read q n => match s.pc q with
    | .idle => some (s.goto q (.acquire ⟨n, n, []⟩))
    | _ => none
  | .step q => stepOf s q
  | .intr k => if s.lock = none then some { s with lock := some (.handler k) } else none
  | .type k c =>
    if s.lock = some (.handler k) then
      let p := typeChar s.input c
      some { s with
        input := p.1
        sleeping := fun q => s.sleeping q && !p.2 }
    else none
  | .done k => if s.lock = some (.handler k) then some { s with lock := none } else none
  | .kill q => some { s with
      killed := Function.update s.killed q true
      sleeping := Function.update s.sleeping q false }

/-- `input` is zeroed with the rest of the kernel's data. -/
def Initial (s : St ι κ) : Prop :=
  s.input = ⟨fun _ => 0, 0, 0, 0⟩ ∧ s.lock = none ∧ ∀ q, s.pc q = .idle

/-! ## The ring -/

/-- What readers may take. -/
def Input.committed (s : Input) : List UInt8 := contents s.buf s.r s.w

def Input.unread (s : Input) : List UInt8 := contents s.buf s.r s.e

/-- `r ≤ w ≤ e ≤ r + INPUT_BUF` modulo 2^32, and a full ring is committed. -/
structure Input.Ordered (s : Input) : Prop where
  w_le_e : (s.w - s.r).toNat ≤ (s.e - s.r).toNat
  e_le : (s.e - s.r).toNat ≤ INPUT_BUF
  full : s.e = s.r + 128#32 → s.w = s.e

/-- What a typed character may do: a new one is appended, or uncommitted ones are taken back. -/
structure Edited (s t : Input) : Prop where
  ordered : t.Ordered
  r_eq : t.r = s.r
  committed : t.committed = s.committed ++ contents t.buf s.w t.w
  unread : t.unread <+: s.unread ∨ ∃ c, t.unread = s.unread ++ [c]

/-- What a reader may do: it takes the first committed character, or none. -/
structure Fetched (s t : Input) : Prop where
  ordered : t.Ordered
  buf_eq : t.buf = s.buf
  w_eq : t.w = s.w
  e_eq : t.e = s.e
  committed : s.committed = contents s.buf s.r t.r ++ t.committed

section Ring
variable {s t : Input} {c : UInt8}

theorem Edited.refl (h : s.Ordered) : Edited s s := by
  refine ⟨h, rfl, ?_, .inl (List.prefix_refl _)⟩
  rw [contents_self, List.append_nil]

theorem Fetched.refl (h : s.Ordered) : Fetched s s := by
  refine ⟨h, rfl, rfl, rfl, ?_⟩
  rw [contents_self, List.nil_append]

/-- Taking back what lies behind `w`. -/
theorem Input.Ordered.shrink (h : s.Ordered) {e : BitVec 32}
    (he : (e - s.w).toNat ≤ (s.e - s.w).toNat) : Edited s { s with e := e } := by
  obtain ⟨hw, hle, hfull⟩ := h
  have hmid : (s.w - s.r).toNat ≤ (e - s.r).toNat := by bv_omega
  have hcut : (e - s.r).toNat ≤ (s.e - s.r).toNat := by bv_omega
  refine ⟨⟨hmid, hcut.trans hle, fun heq => ?_⟩, rfl, ?_, .inl ⟨_, (contents_append e hcut).symm⟩⟩
  · change e = s.r + 128#32 at heq
    change s.w = e
    have hall : s.e = s.r + 128#32 := by
      change (s.e - s.r).toNat ≤ 128 at hle
      bv_omega
    have := hfull hall
    bv_omega
  · change _ = _ ++ contents s.buf s.w s.w
    rw [contents_self, List.append_nil]
    rfl

theorem killLoop_edited (h : s.Ordered) (fuel : ℕ) :
    ∃ e, killLoop fuel s = { s with e := e } ∧ (e - s.w).toNat ≤ (s.e - s.w).toNat := by
  induction fuel generalizing s with
  | zero => exact ⟨s.e, rfl, le_rfl⟩
  | succ fuel ih =>
    rw [killLoop]
    split_ifs with hc
    · have hlt : (s.e - 1 - s.w).toNat ≤ (s.e - s.w).toNat := by
        have := hc.1
        bv_omega
      obtain ⟨e, hrun, hle⟩ := ih (h.shrink hlt).ordered
      exact ⟨e, hrun, hle.trans hlt⟩
    · exact ⟨s.e, rfl, le_rfl⟩

theorem killLine_edited (h : s.Ordered) : Edited s (killLine s) := by
  obtain ⟨e, hrun, hle⟩ := killLoop_edited h (s.e - s.w).toNat
  rw [killLine, hrun]
  exact h.shrink hle

/-- The fuel is enough: the loop stops where its condition fails. -/
theorem killLine_stops (s : Input) :
    ¬ ((killLine s).e ≠ (killLine s).w ∧ (killLine s).buf (index ((killLine s).e - 1)) ≠ newline) := by
  have hloop : ∀ (fuel : ℕ) (s : Input), (s.e - s.w).toNat ≤ fuel →
      ¬ ((killLoop fuel s).e ≠ (killLoop fuel s).w ∧
        (killLoop fuel s).buf (index ((killLoop fuel s).e - 1)) ≠ newline) := by
    intro fuel
    induction fuel with
    | zero =>
      intro s hs hc
      refine hc.1 ?_
      change s.e = s.w
      bv_omega
    | succ fuel ih =>
      intro s hs
      rw [killLoop]
      split_ifs with hc
      · refine ih _ ?_
        have := hc.1
        change (s.e - 1 - s.w).toNat ≤ fuel
        bv_omega
      · exact hc
  exact hloop _ s le_rfl

theorem erase_edited (h : s.Ordered) : Edited s (erase s) := by
  unfold erase
  split_ifs with hc
  · exact h.shrink (by bv_omega)
  · exact .refl h

/-- The character lands behind everything unread. -/
theorem unread_store (h : (s.e - s.r).toNat < INPUT_BUF) :
    contents (Function.update s.buf (index s.e) c) s.r (s.e + 1) = s.unread ++ [c] :=
  contents_store (by decide) (by decide) h c

theorem committed_store (hs : s.Ordered) (h : (s.e - s.r).toNat < INPUT_BUF) :
    contents (Function.update s.buf (index s.e) c) s.r s.w = s.committed := by
  have hgrow : (s.e + 1 - s.r).toNat = (s.e - s.r).toNat + 1 := RingQueue.length_store (by
    change _ < 128 at h
    omega)
  have hw := hs.w_le_e
  have hnew := unread_store (c := c) h
  rw [contents_append s.w (by omega), Input.unread, contents_append s.w hw,
    List.append_assoc] at hnew
  exact (List.append_inj hnew (by simp)).1

theorem store_edited (hs : s.Ordered) (hroom : (s.e - s.r).toNat < INPUT_BUF) :
    Edited s (store s c).1 := by
  have hlen : (s.e + 1 - s.r).toNat = (s.e - s.r).toNat + 1 := RingQueue.length_store (by
    change _ < 128 at hroom
    omega)
  have hw := hs.w_le_e
  have hle : (s.e + 1 - s.r).toNat ≤ INPUT_BUF := by
    rw [hlen]
    exact hroom
  unfold store
  dsimp only
  split_ifs with hcommit
  · refine ⟨⟨le_rfl, hle, fun _ => rfl⟩, rfl, ?_, .inr ⟨c, unread_store hroom⟩⟩
    change contents _ s.r (s.e + 1) = _
    rw [contents_append s.w (by omega), committed_store hs hroom]
  · refine ⟨⟨?_, hle, fun hfull => absurd hfull fun he => hcommit (.inr (.inr he))⟩, rfl, ?_,
      .inr ⟨c, unread_store hroom⟩⟩
    · change (s.w - s.r).toNat ≤ (s.e + 1 - s.r).toNat
      omega
    · change contents _ s.r s.w = _ ++ contents _ s.w s.w
      rw [committed_store hs hroom, contents_self, List.append_nil]

theorem put_edited (hs : s.Ordered) : Edited s (put s c).1 := by
  by_cases h : c ≠ 0 ∧ (s.e - s.r).toNat < INPUT_BUF
  · rw [put, if_pos h]
    exact store_edited hs h.2
  · rw [put, if_neg h]
    exact .refl hs

theorem typeChar_edited (hs : s.Ordered) : Edited s (typeChar s c).1 := by
  unfold typeChar
  split_ifs
  · exact .refl hs
  · exact killLine_edited hs
  · exact erase_edited hs
  · exact put_edited hs

theorem readChar_fetched (hs : s.Ordered) (hne : s.r ≠ s.w) (c : Call) :
    Fetched s (readChar s c).1 := by
  have htaken : Fetched s { s with r := s.r + 1 } := by
    have hw := hs.w_le_e
    have he := hs.e_le
    change _ ≤ 128 at he
    refine ⟨⟨?_, ?_, fun hfull => ?_⟩, rfl, rfl, rfl, ?_⟩
    · change (s.w - (s.r + 1)).toNat ≤ (s.e - (s.r + 1)).toNat
      bv_omega
    · change (s.e - (s.r + 1)).toNat ≤ 128
      bv_omega
    · change s.e = s.r + 1 + 128#32 at hfull
      bv_omega
    · have hone : (s.r + 1 - s.r).toNat = 1 := by bv_omega
      change _ = contents s.buf s.r (s.r + 1) ++ contents s.buf (s.r + 1) s.w
      rw [Input.committed, ← contents_append]
      bv_omega
  have hback : ({ s with r := s.r + 1 - 1 } : Input) = s := by
    rw [BitVec.add_sub_cancel]
  unfold readChar
  dsimp only
  split_ifs
  · rw [hback]
    exact .refl hs
  · exact htaken
  · exact htaken
  · exact htaken

end Ring

/-! ## Runs -/

/-- What has been committed so far, and what readers have taken, oldest first. -/
structure History (ι : Type*) where
  committed : List UInt8
  taken : List (ι × UInt8)

def History.takenBy (h : History ι) (q : ι) : List UInt8 :=
  (h.taken.filter (fun p => p.1 = q)).map Prod.snd

/-- A step adds what lies between the old and the new `w`, or between the old and the new `r`. -/
def record (s : St ι κ) (e : Event ι κ) (h : History ι) : History ι :=
  match e with
  | .type _ c =>
    let t := (typeChar s.input c).1
    { h with committed := h.committed ++ contents t.buf s.input.w t.w }
  | .step q =>
    match stepOf s q with
    | some t =>
      { h with taken := h.taken ++ (contents s.input.buf s.input.r t.input.r).map (fun c => (q, c)) }
    | none => h
  | _ => h

def historySystem (ι κ : Type*) [DecidableEq ι] [DecidableEq κ] :
    System (St ι κ × History ι) (Event ι κ) :=
  (System.ofNext Initial next).observe ⟨[], []⟩ record

/-- What a reader has stored for its caller. -/
def Pc.out : Pc → List UInt8
  | .acquire c | .outer c | .inner c | .asleep c => c.out
  | .finish _ out => out
  | .idle => []

def Call.Counts (c : Call) : Prop := c.n.toNat + c.out.length = c.target.toNat

/-- `n` and `target` count what has been stored, and so does the result, if it is not -1. -/
def Pc.Counts : Pc → Prop
  | .idle => True
  | .acquire c | .outer c => c.Counts
  | .inner c | .asleep c => c.Counts ∧ 0 < c.n.toInt
  | .finish ret out => ret = -1 ∨ ret.toNat = out.length

structure Inv (s : St ι κ) (h : History ι) : Prop where
  ordered : s.input.Ordered
  order : h.taken.map Prod.snd ++ s.input.committed = h.committed
  counts : ∀ q, (s.pc q).Counts
  own : ∀ q, (s.pc q).out <:+ h.takenBy q

theorem Call.Counts.result {c : Call} (h : c.Counts) : (c.target - c.n).toNat = c.out.length := by
  have hle : c.n.toNat ≤ c.target.toNat := Nat.le.intro h
  rw [BitVec.toNat_sub_of_le hle]
  exact Nat.sub_eq_of_eq_add' h.symm

theorem Call.Counts.stored {c : Call} (h : c.Counts) (hn : 0 < c.n.toInt) (ch : UInt8) :
    Call.Counts ⟨c.n - 1, c.target, c.out ++ [ch]⟩ := by
  have hne : c.n ≠ 0 := by
    intro h0
    rw [h0] at hn
    exact absurd hn (by decide)
  have hpos : 1 ≤ c.n.toNat := by bv_omega
  have hone : (c.n - 1).toNat = c.n.toNat - 1 := BitVec.toNat_sub_of_le hpos
  change (c.n - 1).toNat + (c.out ++ [ch]).length = c.target.toNat
  rw [hone, List.length_append, List.length_singleton, ← show _ = c.target.toNat from h]
  omega

/-- A `^D` is put back unless it is the first character of the call. -/
theorem readChar_cases {s : Input} {c : Call} (hc : c.Counts) (hn : 0 < c.n.toInt) :
    (s.buf (index s.r) = C 'D' ∧ c.out ≠ [] ∧
      readChar s c = (s, .finish (c.target - c.n) c.out)) ∨
    (s.buf (index s.r) = C 'D' ∧ c.out = [] ∧
      readChar s c = ({ s with r := s.r + 1 }, .finish (c.target - c.n) [])) ∨
    (s.buf (index s.r) ≠ C 'D' ∧ ∃ pc, readChar s c = ({ s with r := s.r + 1 }, pc) ∧
      pc.Counts ∧ pc.out = c.out ++ [s.buf (index s.r)]) := by
  have hstored := hc.stored hn (s.buf (index s.r))
  have hback : s.r + 1 - 1 = s.r := BitVec.add_sub_cancel ..
  have hlt : c.n < c.target ↔ c.out ≠ [] := by
    have hlen : c.n.toNat + c.out.length = c.target.toNat := hc
    rw [BitVec.lt_def, ← List.length_pos_iff]
    omega
  unfold readChar
  dsimp only
  split_ifs with hD hless hnl
  · rw [hback]
    exact .inl ⟨hD, hlt.mp hless, rfl⟩
  · have hout : c.out = [] := by
      by_contra hne
      exact hless (hlt.mpr hne)
    exact .inr (.inl ⟨hD, hout, by rw [hout]⟩)
  · exact .inr (.inr ⟨hD, _, rfl, .inr hstored.result, rfl⟩)
  · exact .inr (.inr ⟨hD, _, rfl, hstored, rfl⟩)

section Runs
variable {s t : St ι κ} {h : History ι} {q : ι} {pc : Pc}

theorem takenBy_append (h : History ι) (l : List UInt8) (q r : ι) :
    (History.takenBy { h with taken := h.taken ++ l.map (fun c => (q, c)) } r) =
      h.takenBy r ++ (if q = r then l else []) := by
  have hfilter : ∀ l : List UInt8, ((l.map (fun c => (q, c))).filter (fun p => p.1 = r)).map
      Prod.snd = if q = r then l else [] := by
    intro l
    induction l with
    | nil => simp
    | cons c l ih =>
      by_cases hq : q = r
      · simp_all
      · simp [hq]
  simp only [History.takenBy, List.filter_append, List.map_append]
  rw [hfilter]

theorem takenBy_suffix {h : History ι} {l out out' : List UInt8} {q : ι}
    (hout : out <:+ h.takenBy q) (hl : out' = out ++ l ∨ out' = []) :
    out' <:+ History.takenBy { h with taken := h.taken ++ l.map (fun c => (q, c)) } q := by
  rw [takenBy_append, if_pos rfl]
  rcases hl with rfl | rfl
  · obtain ⟨pre, hpre⟩ := hout
    exact ⟨pre, by rw [← hpre, List.append_assoc]⟩
  · exact List.nil_suffix

/-- What a step of reader `q` does to the ring. -/
structure Turn (s t : St ι κ) (q : ι) : Prop where
  ring : Fetched s.input t.input
  counts : (t.pc q).Counts
  other : ∀ r, r ≠ q → t.pc r = s.pc r
  out : (t.pc q).out = (s.pc q).out ++ contents s.input.buf s.input.r t.input.r ∨ (t.pc q).out = []

omit [DecidableEq κ] in
theorem Turn.of_goto (hs : s.input.Ordered) (hi : t.input = s.input)
    (hpc : t.pc = Function.update s.pc q pc) (hcounts : pc.Counts)
    (hout : pc.out = (s.pc q).out ∨ pc.out = []) : Turn s t q := by
  refine ⟨?_, ?_, fun r hr => ?_, ?_⟩
  · rw [hi]
    exact .refl hs
  · rwa [hpc, Function.update_self]
  · rw [hpc, Function.update_of_ne hr]
  · rwa [hpc, Function.update_self, hi, contents_self, List.append_nil]

omit [DecidableEq κ] in
theorem stepOf_turn (hs : s.input.Ordered) (hcounts : (s.pc q).Counts) (h : stepOf s q = some t) :
    Turn s t q := by
  unfold stepOf at h
  cases hpc : s.pc q with
  | idle => simp [hpc] at h
  | acquire c =>
    simp only [hpc] at h hcounts
    obtain ⟨-, h⟩ := Option.ite_none_right_eq_some.mp h
    obtain rfl := Option.some.inj h
    exact .of_goto hs rfl rfl hcounts (.inl (by rw [hpc]; rfl))
  | outer c =>
    simp only [hpc] at h hcounts
    split_ifs at h with hn
    · obtain rfl := Option.some.inj h
      exact .of_goto hs rfl rfl ⟨hcounts, hn⟩ (.inl (by rw [hpc]; rfl))
    · obtain rfl := Option.some.inj h
      exact .of_goto hs rfl rfl (.inr hcounts.result) (.inl (by rw [hpc]; rfl))
  | inner c =>
    simp only [hpc] at h hcounts
    obtain ⟨hc, hn⟩ := hcounts
    split_ifs at h with hempty hkilled
    · obtain rfl := Option.some.inj h
      exact .of_goto hs rfl rfl (.inl rfl) (.inl (by rw [hpc]; rfl))
    · obtain rfl := Option.some.inj h
      exact .of_goto hs rfl rfl ⟨hc, hn⟩ (.inl (by rw [hpc]; rfl))
    · obtain rfl := Option.some.inj h
      have hf := readChar_fetched hs hempty c
      have hone : contents s.input.buf s.input.r (s.input.r + 1) =
          [s.input.buf (index s.input.r)] := by
        rw [contents_fetch (by bv_omega), contents_self]
      refine ⟨hf, ?_, fun r hr => Function.update_of_ne hr .., ?_⟩
      · change (Function.update s.pc q (readChar s.input c).2 q).Counts
        rw [Function.update_self]
        rcases readChar_cases hc hn with ⟨-, -, hr⟩ | ⟨-, hout, hr⟩ | ⟨-, pc, hr, hpcc, -⟩
        · rw [hr]
          exact .inr hc.result
        · rw [hr]
          exact .inr (hout ▸ hc.result)
        · rwa [hr]
      · change (Function.update s.pc q (readChar s.input c).2 q).out = _ ++
          contents s.input.buf s.input.r (readChar s.input c).1.r ∨
            (Function.update s.pc q (readChar s.input c).2 q).out = []
        rw [Function.update_self, hpc]
        rcases readChar_cases hc hn with ⟨-, -, hr⟩ | ⟨-, -, hr⟩ | ⟨-, pc, hr, -, hout⟩
        · rw [hr, contents_self, List.append_nil]
          exact .inl rfl
        · rw [hr]
          exact .inr rfl
        · rw [hr, hone]
          exact .inl hout
  | asleep c =>
    simp only [hpc] at h hcounts
    obtain ⟨-, h⟩ := Option.ite_none_right_eq_some.mp h
    obtain rfl := Option.some.inj h
    exact .of_goto hs rfl rfl hcounts (.inl (by rw [hpc]; rfl))
  | finish ret out =>
    simp only [hpc, Option.some.injEq] at h
    obtain rfl := h
    exact .of_goto hs rfl rfl trivial (.inr rfl)

omit [DecidableEq κ] in
theorem Inv.turn (hs : Inv s h) (hstep : stepOf s q = some t) : Inv t (record s (.step q) h) := by
  obtain ⟨hring, hcounts, hother, hout⟩ := stepOf_turn hs.ordered (hs.counts q) hstep
  have hrec : record s (.step q) h = { h with
      taken := h.taken ++ (contents s.input.buf s.input.r t.input.r).map (fun c => (q, c)) } := by
    simp only [record, hstep]
  rw [hrec]
  refine ⟨hring.ordered, ?_, fun r => ?_, fun r => ?_⟩
  · rw [← hs.order, hring.committed, List.map_append, List.append_assoc]
    congr 2
    simp
  · by_cases hr : r = q
    · exact hr ▸ hcounts
    · exact hother r hr ▸ hs.counts r
  · by_cases hr : r = q
    · subst hr
      exact takenBy_suffix (hs.own r) hout
    · rw [hother r hr, takenBy_append, if_neg (Ne.symm hr), List.append_nil]
      exact hs.own r

theorem Inv.next {e : Event ι κ} (hs : Inv s h) (hstep : next s e = some t) :
    Inv t (record s e h) := by
  cases e with
  | read q n =>
    simp only [ConsoleInput.next] at hstep
    split at hstep
    · obtain rfl := Option.some.inj hstep
      refine ⟨hs.ordered, hs.order, fun r => ?_, fun r => ?_⟩
      · change (Function.update s.pc q (.acquire ⟨n, n, []⟩) r).Counts
        rcases eq_or_ne r q with rfl | hr
        · rw [Function.update_self]
          exact Nat.add_zero _
        · rw [Function.update_of_ne hr]
          exact hs.counts r
      · change (Function.update s.pc q (.acquire ⟨n, n, []⟩) r).out <:+ h.takenBy r
        rcases eq_or_ne r q with rfl | hr
        · rw [Function.update_self]
          exact List.nil_suffix
        · rw [Function.update_of_ne hr]
          exact hs.own r
    · cases hstep
  | step q => exact hs.turn hstep
  | intr k | done k =>
    obtain ⟨-, hstep⟩ := Option.ite_none_right_eq_some.mp hstep
    obtain rfl := Option.some.inj hstep
    exact ⟨hs.ordered, hs.order, hs.counts, hs.own⟩
  | type k c =>
    obtain ⟨-, hstep⟩ := Option.ite_none_right_eq_some.mp hstep
    obtain rfl := Option.some.inj hstep
    have hed := typeChar_edited (c := c) hs.ordered
    refine ⟨hed.ordered, ?_, hs.counts, hs.own⟩
    change h.taken.map Prod.snd ++ (typeChar s.input c).1.committed =
      h.committed ++ contents (typeChar s.input c).1.buf s.input.w (typeChar s.input c).1.w
    rw [hed.committed, ← hs.order, List.append_assoc]
  | kill q =>
    obtain rfl := Option.some.inj hstep
    exact ⟨hs.ordered, hs.order, hs.counts, hs.own⟩

theorem reachable_inv (hr : (historySystem ι κ).Reachable (s, h)) : Inv s h := by
  refine hr.invariant (I := fun p => Inv p.1 p.2) ?_ ?_
  · rintro ⟨s, h⟩ ⟨⟨hinput, -, hpc⟩, rfl⟩
    refine ⟨?_, ?_, fun q => ?_, fun q => ?_⟩
    · change s.input.Ordered
      rw [hinput]
      exact ⟨le_rfl, by decide, by decide⟩
    · change [] ++ s.input.committed = []
      rw [hinput]
      exact contents_self
    · exact (hpc q).symm ▸ trivial
    · exact (hpc q).symm ▸ List.nil_suffix
  · rintro ⟨s, h⟩ e ⟨t, h'⟩ hs ⟨hstep, rfl⟩
    exact hs.next hstep

/-- In any run of typing and reading the indices stay in order, what readers have taken and what
they may take next are what has been committed, and each reader stores what it takes. Typing
commits more and takes back nothing committed, reading takes committed characters only, and a
`^D` behind other characters stays for the next read. -/
theorem console_input_ring (hr : (historySystem ι κ).Reachable (s, h)) :
    s.input.Ordered ∧ h.taken.map Prod.snd ++ s.input.committed = h.committed ∧
      (∀ q, (s.pc q).out <:+ h.takenBy q) ∧
      (∀ k c t, next s (.type k c) = some t → Edited s.input t.input) ∧
      (∀ q t, next s (.step q) = some t → Fetched s.input t.input) ∧
      (∀ e t, next s e = some t → (∀ k c, e ≠ .type k c) → (∀ q, e ≠ .step q) →
        t.input = s.input) ∧
      ∀ q c t, s.pc q = .inner c → c.out ≠ [] → s.input.committed.head? = some (C 'D') →
        next s (.step q) = some t → t.input = s.input ∧
          ∃ ret, t.pc q = .finish ret c.out ∧ ret.toNat = c.out.length := by
  have hs := reachable_inv hr
  refine ⟨hs.ordered, hs.order, hs.own, fun k c t hstep => ?_, fun q t hstep => ?_,
    fun e t hstep htype hne => ?_, fun q c t hpc hout hD hstep => ?_⟩
  · obtain ⟨-, hstep⟩ := Option.ite_none_right_eq_some.mp hstep
    obtain rfl := Option.some.inj hstep
    exact typeChar_edited hs.ordered
  · exact (stepOf_turn hs.ordered (hs.counts q) hstep).ring
  · cases e with
    | read q n =>
      simp only [next] at hstep
      split at hstep
      · exact Option.some.inj hstep ▸ rfl
      · cases hstep
    | step q => exact absurd rfl (hne q)
    | intr k | done k =>
      obtain ⟨-, hstep⟩ := Option.ite_none_right_eq_some.mp hstep
      exact Option.some.inj hstep ▸ rfl
    | type k c => exact absurd rfl (htype k c)
    | kill q => exact Option.some.inj hstep ▸ rfl
  · have hc : c.Counts ∧ 0 < c.n.toInt := by
      have := hs.counts q
      rwa [hpc] at this
    have hready : s.input.r ≠ s.input.w := by
      intro he
      rw [Input.committed, he, contents_self] at hD
      cases hD
    have hchar : s.input.buf (index s.input.r) = C 'D' := by
      rw [Input.committed, contents_fetch hready] at hD
      exact Option.some.inj hD
    simp only [next, stepOf, hpc, if_neg hready, Option.some.injEq] at hstep
    obtain rfl := hstep
    rcases readChar_cases (s := s.input) hc.1 hc.2 with ⟨-, -, hr⟩ | ⟨-, hnil, -⟩ | ⟨hD', -⟩
    · rw [hr]
      exact ⟨rfl, _, Function.update_self .., hc.1.result⟩
    · exact absurd hnil hout
    · exact absurd hchar hD'

end Runs

/-- A reader that asks for ten characters, `a` and `^D` being typed. -/
theorem console_input_ring_eof : ∃ (s : St (Fin 1) (Fin 1)) (h : History (Fin 1)),
    h.committed = [97, C 'D'] ∧ h.taken = [(0, 97)] ∧ s.input.committed = [C 'D'] ∧
      ∃ t ret, next s (.step 0) = some t ∧ t.input = s.input ∧ t.pc 0 = .finish ret [97] := by
  obtain ⟨⟨s, h⟩, hr, hpc, htaken, hcommitted, hstep⟩ :
      ∃ p, (historySystem (Fin 1) (Fin 1)).Reachable p ∧ p.1.pc 0 = .inner ⟨9, 10, [97]⟩ ∧
        p.2.taken = [(0, 97)] ∧ p.2.committed = [97, C 'D'] ∧ (next p.1 (.step 0)).isSome :=
    observe_reachable_of_runNext
      ⟨⟨fun _ => 0, 0, 0, 0⟩, none, fun _ => .idle, fun _ => false, fun _ => false⟩
      [.read 0 10, .step 0, .step 0, .step 0, .intr 0, .type 0 97, .type 0 (C 'D'), .done 0,
        .step 0, .step 0, .step 0] _ ⟨rfl, rfl, fun _ => rfl⟩ (by decide +kernel)
  obtain ⟨t, ht⟩ := Option.isSome_iff_exists.mp hstep
  obtain ⟨-, horder, -, -, -, -, hD⟩ := console_input_ring hr
  have hleft : s.input.committed = [C 'D'] := by
    rw [htaken, hcommitted] at horder
    exact List.cons_injective horder
  obtain ⟨hi, ret, hret, -⟩ := hD 0 _ t hpc (List.cons_ne_nil _ _) (by rw [hleft]; rfl) ht
  exact ⟨s, h, hcommitted, htaken, hleft, t, ret, ht, hi, hret⟩

end Ostep.ConsoleInput

import Ostep.TransitionSystem
import Mathlib.Logic.Function.Basic
import Mathlib.Data.Finset.Card

/-!
# File-system operations on the log

Any number of processes bracket their `log_write`s with `begin_op` and `end_op`. A step is one
critical section on `log.lock`; the tests `log_write` makes before it takes that lock are a
step of their own, and so are `commit` and the section of `end_op` that follows it.
-/

namespace Ostep.LogOps
open TransitionSystem

abbrev MAXOPBLOCKS : ℕ := 10
abbrev LOGSIZE : ℕ := MAXOPBLOCKS * 3

/-- `int nlog = LOGSIZE` of mkfs. -/
def nlog : ℕ := LOGSIZE

inductive Panic where
  | tooBig
  | outsideTrans
  | committing
  deriving DecidableEq, Repr

def Panic.message : Panic → String
  | .tooBig => "too big a transaction"
  | .outsideTrans => "log_write outside of trans"
  | .committing => "log.committing"

inductive Pc where
  | idle
  /-- At the head of `begin_op`'s loop. -/
  | begin
  | sleeping
  | inOp
  /-- In `log_write`, past its tests. -/
  | logWrite (b : ℕ)
  | commit
  | committed
  deriving DecidableEq, Repr

structure St (ι : Type*) where
  /-- `log.lh.block[0], ..., log.lh.block[log.lh.n - 1]`. -/
  lh : List ℕ
  size : ℕ
  outstanding : ℕ
  committing : Bool
  panic : Option Panic
  pc : ι → Pc

variable {ι : Type*} [DecidableEq ι]

def St.goto (s : St ι) (q : ι) (pc : Pc) : St ι := { s with pc := Function.update s.pc q pc }

/-- `wakeup(&log)`. -/
def St.wakeup (s : St ι) : St ι :=
  { s with pc := fun q => if s.pc q = .sleeping then .begin else s.pc q }

/-- The loop of `log_write`, and the store after it. -/
def absorb (b : ℕ) : List ℕ → List ℕ
  | [] => [b]
  | x :: xs => if x = b then b :: xs else x :: absorb b xs

theorem absorb_eq (b : ℕ) (lh : List ℕ) : absorb b lh = if b ∈ lh then lh else lh ++ [b] := by
  induction lh with
  | nil => simp [absorb]
  | cons x xs ih =>
    by_cases hx : x = b
    · simp [absorb, hx]
    · by_cases hb : b ∈ xs
      · simp [absorb, hx, ih, hb]
      · simp [absorb, hx, ih, hb, Ne.symm hx]

/-- One turn of `begin_op`'s loop. -/
def beginTurn (s : St ι) (q : ι) : St ι :=
  if s.committing then s.goto q .sleeping
  else if s.lh.length + (s.outstanding + 1) * MAXOPBLOCKS > LOGSIZE then s.goto q .sleeping
  else { s with outstanding := s.outstanding + 1 }.goto q .inOp

def logWrite (s : St ι) (q : ι) (b : ℕ) : St ι :=
  if s.lh.length ≥ LOGSIZE ∨ s.lh.length ≥ s.size - 1 then { s with panic := some .tooBig }
  else if s.outstanding < 1 then { s with panic := some .outsideTrans }
  else s.goto q (.logWrite b)

def endOp (s : St ι) (q : ι) : St ι :=
  let s := { s with outstanding := s.outstanding - 1 }
  if s.committing then { s with panic := some .committing }
  else if s.outstanding = 0 then { s with committing := true }.goto q .commit
  else (s.goto q .idle).wakeup

inductive Event (ι : Type*) where
  | beginOp (q : ι)
  | turn (q : ι)
  | logWrite (q : ι) (b : ℕ)
  | absorb (q : ι) (b : ℕ)
  | endOp (q : ι)
  | commit (q : ι)
  | finish (q : ι)

def next (s : St ι) (e : Event ι) : Option (St ι) :=
  if s.panic.isSome then none
  else match e with
  | .beginOp q => if s.pc q = .idle then some (s.goto q .begin) else none
  | .turn q => if s.pc q = .begin then some (beginTurn s q) else none
  | .logWrite q b => if s.pc q = .inOp then some (logWrite s q b) else none
  | .absorb q b =>
    if s.pc q = .logWrite b then some ({ s with lh := absorb b s.lh }.goto q .inOp) else none
  | .endOp q => if s.pc q = .inOp then some (endOp s q) else none
  -- whether or not there is anything to install, `commit` leaves `log.lh.n = 0`
  | .commit q => if s.pc q = .commit then some ({ s with lh := [] }.goto q .committed) else none
  | .finish q =>
    if s.pc q = .committed then some ({ s with committing := false }.goto q .idle).wakeup
    else none

/-- After `initlog` on the image mkfs lays out. -/
def boot : St ι where
  lh := []
  size := nlog
  outstanding := 0
  committing := false
  panic := none
  pc _ := .idle

def system (ι : Type*) [DecidableEq ι] : System (St ι) (Event ι) := .ofNext (· = boot) next

def opStep (q : ι) (B : Finset ℕ) : Event ι → Finset ℕ
  | .turn r => if r = q then ∅ else B
  | .logWrite r b => if r = q then insert b B else B
  | _ => B

/-- The blocks `q` has log_written since `begin_op` let it in. -/
def opBlocks (q : ι) (es : List (Event ι)) : Finset ℕ := es.foldl (opStep q) ∅

def groupStep (B : Finset ℕ) : Event ι → Finset ℕ
  | .absorb _ b => insert b B
  | .commit _ => ∅
  | _ => B

/-- The blocks recorded in the log since the last commit. -/
def groupBlocks (es : List (Event ι)) : Finset ℕ := es.foldl groupStep ∅

/-- No operation log_writes more than `m` distinct blocks. -/
def OpsWithin (m : ℕ) (es : List (Event ι)) : Prop :=
  ∀ es', es' <+: es → ∀ q, (opBlocks q es').card ≤ m

/-- Whenever `log_write` is called, the group has recorded fewer than `LOGSIZE - 1` blocks. -/
def Roomy (es : List (Event ι)) : Prop :=
  ∀ es' q b, es' ++ [.logWrite q b] <+: es → (groupBlocks es').card < LOGSIZE - 1

end Ostep.LogOps

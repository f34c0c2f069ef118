import Ostep.LogOps
import Ostep.RedoLog
import Mathlib.Data.Fin.Basic

/-!
# The log on disk

`commit` and `recover_from_log`, one sector write at a time, over the disk and the buffer
cache. A crash may come between any two steps; it takes the cache and the in-memory header.
-/

namespace Ostep.LogCommit
open TransitionSystem
open LogOps (LOGSIZE absorb)

/-- A sector as 32-bit words. -/
abbrev Block : Type := Fin 128 → ℕ

def Block.word (v : Block) (i : ℕ) : ℕ := if h : i < 128 then v ⟨i, h⟩ else 0

/-- `log.start` and `log.size`; the header takes the first sector. -/
structure Area where
  start : ℕ
  size : ℕ
  pos : 0 < size

def Area.Home (log : Area) (b : ℕ) : Prop := ¬ (log.start ≤ b ∧ b < log.start + log.size)

instance (log : Area) (b : ℕ) : Decidable (log.Home b) := inferInstanceAs (Decidable (¬ _))

structure Buf where
  data : Block
  dirty : Bool

inductive Pc where
  | recover
  /-- `install_trans`, called by `recover_from_log` or by `commit`. -/
  | install (tail : ℕ) (recovering : Bool)
  /-- `log.lh.n = 0; write_head()`. -/
  | clear (recovering : Bool)
  | running
  | writeLog (tail : ℕ)
  | writeHead
  | done
  deriving DecidableEq, Repr

structure St where
  disk : ℕ → Block
  cache : ℕ → Option Buf
  lh : List ℕ
  /-- The calls of `log_write` past its tests, which it makes without `log.lock`. -/
  passed : ℕ
  pc : Pc

/-- The data of the buffer `bread` returns. -/
def St.bread (s : St) (b : ℕ) : Block :=
  match s.cache b with
  | some buf => buf.data
  | none => s.disk b

/-- `bwrite` of a buffer that now holds `v`; `iderw` clears `B_DIRTY`. -/
def St.bwrite (s : St) (b : ℕ) (v : Block) : St :=
  { s with
    disk := Function.update s.disk b v
    cache := Function.update s.cache b (some ⟨v, false⟩) }

/-- `hb->n` and the first `n` entries of `hb->block` are set, the rest of the sector stays. -/
def writeHead (lh : List ℕ) (hb : Block) : Block :=
  fun i => if i.val = 0 then lh.length else lh.getD (i.val - 1) (hb i)

def readHead (hb : Block) : List ℕ := (List.range (hb.word 0)).map (fun i => hb.word (i + 1))

/-- The next step of `commit` or `recover_from_log`: at most one sector write. -/
def stepOf (log : Area) (s : St) : Option St :=
  match s.pc with
  | .recover => some { s with lh := readHead (s.bread log.start), pc := .install 0 true }
  | .install tail r =>
    match s.lh[tail]? with
    | some b => some { s.bwrite b (s.bread (log.start + tail + 1)) with pc := .install (tail + 1) r }
    | none => some { s with pc := .clear r }
  | .clear r =>
    some { s.bwrite log.start (writeHead [] (s.bread log.start)) with
      lh := [], pc := if r then .running else .done }
  | .writeLog tail =>
    match s.lh[tail]? with
    | some b => some { s.bwrite (log.start + tail + 1) (s.bread b) with pc := .writeLog (tail + 1) }
    | none => some { s with pc := .writeHead }
  | .writeHead =>
    some { s.bwrite log.start (writeHead s.lh (s.bread log.start)) with pc := .install 0 false }
  | .running | .done => none

inductive Event where
  | step
  | test
  | logWrite (b : ℕ) (v : Block)
  | commit
  | ret
  | crash
  | load (b : ℕ)
  | evict (b : ℕ)

/-- The operations only log blocks outside the log, and `begin_op` keeps them within the array
of the header. -/
def next (log : Area) (s : St) : Event → Option St
  | .step => stepOf log s
  | .test =>
    -- otherwise "too big a transaction"
    if s.pc = .running ∧ ¬ (s.lh.length ≥ LOGSIZE ∨ s.lh.length ≥ log.size - 1) then
      some { s with passed := s.passed + 1 }
    else none
  | .logWrite b v =>
    if s.pc = .running ∧ 0 < s.passed ∧ log.Home b ∧ (absorb b s.lh).length ≤ LOGSIZE then
      some { s with
        cache := Function.update s.cache b (some ⟨v, true⟩), lh := absorb b s.lh
        passed := s.passed - 1 }
    else none
  | .commit =>
    if s.pc = .running ∧ s.passed = 0 then
      some { s with pc := if s.lh = [] then .done else .writeLog 0 }
    else none
  | .ret => if s.pc = .done then some { s with pc := .running } else none
  | .crash => some { s with cache := fun _ => none, lh := [], passed := 0, pc := .recover }
  | .load b =>
    if s.cache b = none then
      some { s with cache := Function.update s.cache b (some ⟨s.disk b, false⟩) }
    else none
  | .evict b =>
    match s.cache b with
    | some buf =>
      -- `bget` does not recycle a dirty buffer
      if buf.dirty then none else some { s with cache := Function.update s.cache b none }
    | none => none

/-- A header whose entries fit beside it and lie outside the log. -/
def Area.HeaderOk (log : Area) (lh : List ℕ) : Prop :=
  lh.length ≤ LOGSIZE ∧ lh.length ≤ log.size - 1 ∧ ∀ b ∈ lh, log.Home b

/-- Power on over any disk with such a header. -/
def Boot (log : Area) (s : St) : Prop :=
  log.HeaderOk (readHead (s.disk log.start)) ∧ s.cache = (fun _ => none) ∧ s.lh = [] ∧
    s.passed = 0 ∧ s.pc = .recover

def system (log : Area) : System St Event := .ofNext (Boot log) (next log)

/-- A block is only recorded while the log has a sector for it. -/
def Fits (log : Area) (s : St) : Event → Prop
  | .logWrite b _ => (absorb b s.lh).length ≤ log.size - 1
  | _ => True

instance (log : Area) (s : St) (e : Event) : Decidable (Fits log s e) := by
  cases e <;> unfold Fits <;> infer_instance

/-- The contents of the log for the blocks of a header. -/
def entries (log : Area) (lh : List ℕ) (disk : ℕ → Block) : List (ℕ × Block) :=
  lh.zipIdx.map (fun p => (p.1, disk (log.start + p.2 + 1)))

/-- The disk that `recover_from_log` would leave. -/
def recovered (log : Area) (disk : ℕ → Block) : ℕ → Block :=
  RedoLog.install (entries log (readHead (disk log.start)) disk) disk

end Ostep.LogCommit

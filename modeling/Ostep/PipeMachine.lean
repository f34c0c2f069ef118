import Ostep.TransitionSystem
import Mathlib.Logic.Function.Basic
import Mathlib.Data.Fin.Basic

/-!
# Processes on one pipe

Any number of processes run `pipewrite`, `piperead` and `pipeclose` on one pipe, and may be
killed at any time. A step of a process is at most one access to the pipe or one critical
section on `ptable.lock`; `p->lock` and `ptable.lock` are explicit. Inside `sleep` the caller
first holds `ptable.lock` with `p->lock` already released and is not SLEEPING yet, then is
SLEEPING and gives `ptable.lock` to the scheduler.

The counters are the code's `uint`s, compared modulo 2^32.
-/

namespace Ostep.PipeMachine
open TransitionSystem

abbrev PIPESIZE : ℕ := 512

structure Pipe where
  data : Fin PIPESIZE → UInt8
  nread : BitVec 32
  nwrite : BitVec 32
  readopen : Bool
  writeopen : Bool

/-- `p->nwrite == p->nread + PIPESIZE`. -/
def Pipe.full (p : Pipe) : Bool := p.nwrite = p.nread + 512#32

/-- `p->nread == p->nwrite`. -/
def Pipe.empty (p : Pipe) : Bool := p.nread = p.nwrite

def ringIndex (n : BitVec 32) : Fin PIPESIZE := ⟨n.toNat % PIPESIZE, Nat.mod_lt _ (by decide)⟩

/-- `p->data[p->nwrite++ % PIPESIZE] = b`. -/
def Pipe.store (p : Pipe) (b : UInt8) : Pipe :=
  { p with data := Function.update p.data (ringIndex p.nwrite) b, nwrite := p.nwrite + 1 }

/-- `p->data[p->nread++ % PIPESIZE]`. -/
def Pipe.fetch (p : Pipe) : UInt8 × Pipe :=
  (p.data (ringIndex p.nread), { p with nread := p.nread + 1 })

/-- `&p->nread` and `&p->nwrite`. -/
inductive Chan where
  | nread
  | nwrite
  deriving DecidableEq, Repr

/-- A call in progress: `pipewrite(p, addr, n)` with its loop index, or `piperead` with the
bytes copied out so far. -/
inductive Call where
  | write (addr : ℕ → UInt8) (n : ℤ) (i : ℕ)
  | read (n : ℤ) (out : List UInt8)

/-- The channel a call sleeps on, and the other one, which it wakes. -/
def Call.chan : Call → Chan
  | .write .. => .nwrite
  | .read .. => .nread

def Call.wakes : Call → Chan
  | .write .. => .nread
  | .read .. => .nwrite

inductive Pc where
  | idle
  /-- `acquire(&p->lock)`, on entry or at the end of `sleep`. -/
  | acquire (c : Call)
  /-- The heads of `pipewrite`'s loops, or of `piperead`'s waiting loop. -/
  | loop (c : Call)
  /-- Inside the waiting loop: other end closed, or caller killed? -/
  | giveUp (c : Call)
  /-- `pipewrite`'s `wakeup(&p->nread)` before it sleeps. -/
  | wakeFirst (addr : ℕ → UInt8) (n : ℤ) (i : ℕ)
  /-- `sleep`: `acquire(&ptable.lock); release(&p->lock)`. -/
  | sleep (c : Call)
  /-- `sleep`: `p->chan = chan; p->state = SLEEPING; sched()`. -/
  | sleepHold (c : Call)
  | asleep (c : Call)
  /-- `piperead`'s copy loop. -/
  | copy (n : ℤ) (out : List UInt8)
  /-- The last `wakeup` of the call. -/
  | finalWake (c : Call)
  | release (ret : ℤ)
  | closeAcquire (writable : Bool)
  | closeSet (writable : Bool)
  | closeWake (writable : Bool)
  | closeRelease

structure Thread where
  pc : Pc
  /-- The channel when the state is SLEEPING. -/
  sleeping : Option Chan
  killed : Bool

variable {ι : Type*} [DecidableEq ι]

structure St (ι : Type*) where
  pipe : Pipe
  lock : Option ι
  ptable : Option ι
  thread : ι → Thread
  freed : Bool

def St.setThread (s : St ι) (q : ι) (f : Thread → Thread) : St ι :=
  { s with thread := Function.update s.thread q (f (s.thread q)) }

def St.goto (s : St ι) (q : ι) (pc : Pc) : St ι := s.setThread q (fun t => { t with pc := pc })

/-- `wakeup1(chan)`. -/
def St.wakeup1 (s : St ι) (chan : Chan) : St ι :=
  { s with
    thread := fun q =>
      if (s.thread q).sleeping = some chan then { s.thread q with sleeping := none }
      else s.thread q }

/-- `wakeup(chan)` waits for `ptable.lock`. -/
def St.wakeup (s : St ι) (chan : Chan) : Option (St ι) :=
  if s.ptable = none then some (s.wakeup1 chan) else none

/-- One turn of the loops of `pipewrite`, or the test of `piperead`'s waiting loop. -/
def loopStep (s : St ι) (q : ι) : Call → St ι
  | .write addr n i =>
    if (i : ℤ) < n then
      if s.pipe.full then s.goto q (.giveUp (.write addr n i))
      else { s with pipe := s.pipe.store (addr i) }.goto q (.loop (.write addr n (i + 1)))
    else s.goto q (.finalWake (.write addr n i))
  | .read n out =>
    if s.pipe.empty && s.pipe.writeopen then s.goto q (.giveUp (.read n out))
    else s.goto q (.copy n out)

def giveUpStep (s : St ι) (q : ι) : Call → St ι
  | .write addr n i =>
    if !s.pipe.readopen || (s.thread q).killed then s.goto q (.release (-1))
    else s.goto q (.wakeFirst addr n i)
  | .read n out =>
    if (s.thread q).killed then s.goto q (.release (-1)) else s.goto q (.sleep (.read n out))

def copyStep (s : St ι) (q : ι) (n : ℤ) (out : List UInt8) : St ι :=
  if (out.length : ℤ) < n && !s.pipe.empty then
    { s with pipe := s.pipe.fetch.2 }.goto q (.copy n (out ++ [s.pipe.fetch.1]))
  else s.goto q (.finalWake (.read n out))

def Call.result : Call → ℤ
  | .write _ n _ => n
  | .read _ out => out.length

/-- The next step of process `q`; `none` when it has none or waits for a lock. -/
def stepOf (s : St ι) (q : ι) : Option (St ι) :=
  match (s.thread q).pc with
  | .idle => none
  | .acquire c => if s.lock = none then some ({ s with lock := some q }.goto q (.loop c)) else none
  | .loop c => some (loopStep s q c)
  | .giveUp c => some (giveUpStep s q c)
  | .wakeFirst addr n i => (s.wakeup .nread).map (·.goto q (.sleep (.write addr n i)))
  | .sleep c =>
    if s.ptable = none then
      some ({ s with ptable := some q, lock := none }.goto q (.sleepHold c))
    else none
  | .sleepHold c =>
    some ({ s with ptable := none }.setThread q
      (fun t => { t with pc := .asleep c, sleeping := some c.chan }))
  | .asleep c =>
    if (s.thread q).sleeping = none && s.ptable = none then some (s.goto q (.acquire c)) else none
  | .copy n out => some (copyStep s q n out)
  | .finalWake c => (s.wakeup c.wakes).map (·.goto q (.release c.result))
  | .release _ => some ({ s with lock := none }.goto q .idle)
  | .closeAcquire w =>
    if s.lock = none then some ({ s with lock := some q }.goto q (.closeSet w)) else none
  | .closeSet w =>
    some ({ s with
      pipe := if w then { s.pipe with writeopen := false }
        else { s.pipe with readopen := false } }.goto q (.closeWake w))
  | .closeWake w => (s.wakeup (if w then .nread else .nwrite)).map (·.goto q .closeRelease)
  | .closeRelease =>
    some ({ s with
      lock := none, freed := !s.pipe.readopen && !s.pipe.writeopen }.goto q .idle)

inductive Event (ι : Type*) where
  | step (q : ι)
  | pipewrite (q : ι) (addr : ℕ → UInt8) (n : ℤ)
  | piperead (q : ι) (n : ℤ)
  | pipeclose (q : ι) (writable : Bool)
  | kill (q : ι)

def St.begin (s : St ι) (q : ι) (pc : Pc) : Option (St ι) :=
  match (s.thread q).pc with
  | .idle => some (s.goto q pc)
  | _ => none

/-- Nothing happens on the pipe once `kfree` has taken its page. -/
def next (s : St ι) : Event ι → Option (St ι)
  | .step q => if s.freed then none else stepOf s q
  | .pipewrite q addr n => if s.freed then none else s.begin q (.acquire (.write addr n 0))
  | .piperead q n => if s.freed then none else s.begin q (.acquire (.read n []))
  | .pipeclose q w => if s.freed then none else s.begin q (.closeAcquire w)
  | .kill q =>
    if s.ptable = none then
      some (s.setThread q (fun t => { t with killed := true, sleeping := none }))
    else none

/-- The state `pipealloc` leaves: an empty open pipe on an uncleared page, nobody in a call. -/
def Initial (s : St ι) : Prop :=
  s.pipe.nread = 0 ∧ s.pipe.nwrite = 0 ∧ s.pipe.readopen = true ∧ s.pipe.writeopen = true ∧
    s.lock = none ∧ s.ptable = none ∧ s.freed = false ∧
    ∀ q, (s.thread q).pc = .idle ∧ (s.thread q).sleeping = none

def system (ι : Type*) [DecidableEq ι] : System (St ι) (Event ι) := .ofNext Initial next

end Ostep.PipeMachine

import Ostep.TransitionSystem
import Mathlib.Algebra.Ring.Nat
import Mathlib.Data.Fin.Basic
import Mathlib.Data.List.FinRange
import Mathlib.Logic.Function.Basic

/-!
# The process table of proc.c

One event is one critical section on `ptable.lock`, or one of the stores that `allocproc` and
`fork` make to the new slot outside of it. A process acts only while it is RUNNING; where it
stands inside `fork` or `wait` is kept in `pc`. The scheduler, `yield`, and `sleep`/`wakeup`
on channels other than a process are events of their own, so any interleaving is a run.
-/

namespace Ostep.ProcTable
open TransitionSystem

abbrev NPROC : ℕ := 64
abbrev Slot := Fin NPROC

/-- A C `int` holding a process id; `nextpid++` wraps. -/
abbrev Pid := BitVec 32

inductive ProcState where
  | unused
  | embryo
  | sleeping
  | runnable
  | running
  | zombie
  deriving DecidableEq, Repr

/-- `wait` sleeps on its own `struct proc`; every other channel is a number. -/
inductive Chan where
  | proc (p : Slot)
  | other (addr : ℕ)
  deriving DecidableEq, Repr

structure Proc where
  state : ProcState
  pid : Pid
  parent : Option Slot
  chan : Option Chan
  killed : Bool
  deriving DecidableEq

/-- Where a process stands in the kernel: in `fork` before and after `copyuvm` succeeded, or
in the loop of `wait`. -/
inductive Pc where
  | user
  | forkAlloced (np : Slot)
  | forkStacked (np : Slot)
  | forkFilled (np : Slot)
  | waiting
  deriving DecidableEq, Repr

structure PTable where
  proc : Slot → Proc
  nextpid : Pid
  initproc : Slot
  pc : Slot → Pc

def PTable.setProc (t : PTable) (p : Slot) (f : Proc → Proc) : PTable :=
  { t with proc := Function.update t.proc p (f (t.proc p)) }

def PTable.setPc (t : PTable) (p : Slot) (k : Pc) : PTable :=
  { t with pc := Function.update t.pc p k }

/-- The loop `for(p = ptable.proc; p < &ptable.proc[NPROC]; p++)` up to its first hit. -/
def PTable.first (t : PTable) (test : Proc → Bool) : Option Slot :=
  (List.finRange NPROC).find? (fun p => test (t.proc p))

/-- The locked half of `allocproc`: the first UNUSED slot becomes an EMBRYO with a new pid.
Its `killed` and `parent` fields keep their old values. -/
def allocproc (t : PTable) : Option (Slot × PTable) :=
  (t.first (fun p => p.state = .unused)).map (fun np =>
    (np, { t.setProc np (fun p => { p with state := .embryo, pid := t.nextpid }) with
      nextpid := t.nextpid + 1 }))

/-- `wakeup1(chan)`. -/
def wakeup1 (t : PTable) (chan : Chan) : PTable :=
  { t with
    proc := fun i =>
      if (t.proc i).state = .sleeping ∧ (t.proc i).chan = some chan then
        { t.proc i with state := .runnable }
      else t.proc i }

/-- `kill(pid)`: the first slot whose pid field matches, whatever its state. -/
def kill (t : PTable) (pid : Pid) : ℤ × PTable :=
  match t.first (fun p => p.pid = pid) with
  | some i =>
    (0, t.setProc i (fun p =>
      { p with killed := true, state := if p.state = .sleeping then .runnable else p.state }))
  | none => (-1, t)

/-- The loop of `exit` that hands the children of `curproc` to init. -/
def passChildren (t : PTable) (curproc : Slot) : PTable :=
  let adopted : PTable := { t with
    proc := fun i =>
      if (t.proc i).parent = some curproc then { t.proc i with parent := some t.initproc }
      else t.proc i }
  if ∃ i, (t.proc i).parent = some curproc ∧ (t.proc i).state = .zombie then
    wakeup1 adopted (.proc t.initproc)
  else adopted

/-- `wakeup1(curproc->parent)`; without a parent that is channel 0, on which nobody sleeps. -/
def wakeParent (t : PTable) (curproc : Slot) : PTable :=
  match (t.proc curproc).parent with
  | some parent => wakeup1 t (.proc parent)
  | none => t

/-- The critical section of `exit`. `initproc` panics instead. -/
def exit (t : PTable) (curproc : Slot) : Option PTable :=
  if curproc = t.initproc then none
  else
    some ((passChildren (wakeParent t curproc) curproc).setProc curproc
      (fun p => { p with state := .zombie }))

inductive WaitResult where
  | reaped (pid : Pid)
  | failed
  | sleeps
  deriving DecidableEq

/-- One turn of the loop of `wait`. The scan stops at the first ZOMBIE child. -/
def wait (t : PTable) (curproc : Slot) : WaitResult × PTable :=
  match t.first (fun p => p.parent = some curproc && p.state = .zombie) with
  | some i =>
    (.reaped (t.proc i).pid,
      (t.setProc i (fun p =>
        { p with pid := 0, parent := none, killed := false, state := .unused })).setPc
          curproc .user)
  | none =>
    if (t.first (fun p => p.parent = some curproc)).isNone || (t.proc curproc).killed then
      (.failed, t.setPc curproc .user)
    else
      (.sleeps, (t.setProc curproc (fun p =>
        { p with chan := some (.proc curproc), state := .sleeping })).setPc curproc .waiting)

inductive Event where
  /-- `fork` calls `allocproc`. -/
  | allocproc (p : Slot)
  /-- `kalloc` had no page for the kernel stack: `p->state = UNUSED`. -/
  | kstackFails (p : Slot)
  | kstackDone (p : Slot)
  /-- `copyuvm` failed: `np->state = UNUSED`. -/
  | copyuvmFails (p : Slot)
  /-- `copyuvm` succeeded and `np->parent = curproc`. -/
  | copyuvmDone (p : Slot)
  /-- `np->state = RUNNABLE`. -/
  | forkDone (p : Slot)
  | exit (p : Slot)
  | wait (p : Slot)
  | kill (p : Slot) (pid : Pid)
  | schedule (p : Slot)
  | yield (p : Slot)
  | sleep (p : Slot) (addr : ℕ)
  | wakeup (addr : ℕ)
  deriving DecidableEq

/-- The process `p` is RUNNING and stands at `k`. -/
def PTable.at (t : PTable) (p : Slot) (k : Pc) : Bool :=
  (t.proc p).state = .running && t.pc p = k

def next (t : PTable) : Event → Option PTable
  | .allocproc p =>
    if t.at p .user then
      match allocproc t with
      | some (np, t') => some (t'.setPc p (.forkAlloced np))
      | none => some t
    else none
  | .kstackFails p =>
    match t.pc p with
    | .forkAlloced np =>
      if (t.proc p).state = .running then
        some ((t.setProc np (fun q => { q with state := .unused })).setPc p .user)
      else none
    | _ => none
  | .kstackDone p =>
    match t.pc p with
    | .forkAlloced np =>
      if (t.proc p).state = .running then some (t.setPc p (.forkStacked np)) else none
    | _ => none
  | .copyuvmFails p =>
    match t.pc p with
    | .forkStacked np =>
      if (t.proc p).state = .running then
        some ((t.setProc np (fun q => { q with state := .unused })).setPc p .user)
      else none
    | _ => none
  | .copyuvmDone p =>
    match t.pc p with
    | .forkStacked np =>
      if (t.proc p).state = .running then
        some ((t.setProc np (fun q => { q with parent := some p })).setPc p (.forkFilled np))
      else none
    | _ => none
  | .forkDone p =>
    match t.pc p with
    | .forkFilled np =>
      if (t.proc p).state = .running then
        some ((t.setProc np (fun q => { q with state := .runnable })).setPc p .user)
      else none
    | _ => none
  | .exit p => if t.at p .user then exit t p else none
  | .wait p => if t.at p .user || t.at p .waiting then some (wait t p).2 else none
  | .kill p pid => if t.at p .user then some (kill t pid).2 else none
  | .schedule p =>
    if (t.proc p).state = .runnable then
      some (t.setProc p (fun q => { q with state := .running, chan := none }))
    else none
  | .yield p =>
    if (t.proc p).state = .running then
      some (t.setProc p (fun q => { q with state := .runnable }))
    else none
  | .sleep p addr =>
    if t.at p .user then
      some (t.setProc p (fun q => { q with state := .sleeping, chan := some (.other addr) }))
    else none
  | .wakeup addr => some (wakeup1 t (.other addr))

theorem nproc_neZero : NeZero NPROC := ⟨by decide⟩

attribute [local instance] nproc_neZero

/-- The table after `userinit`: the zeroed table with the first process in slot 0. -/
def boot : PTable where
  proc i :=
    if i = 0 then ⟨.runnable, 1, none, none, false⟩ else ⟨.unused, 0, none, none, false⟩
  nextpid := 2
  initproc := 0
  pc _ := .user

def system : System PTable Event := .ofNext (· = boot) next

end Ostep.ProcTable

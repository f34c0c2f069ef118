import Ostep.ProcKill

/-!
# CPUs, the scheduler and the process table

Any number of CPUs run the scheduler and, by `swtch`, the kernel threads of processes. A CPU
executes either its scheduler's own stack or the kernel stack of a process; the other thread
is saved, in `p->context` or in `c->scheduler`. `ptable.lock` is explicit and belongs to a
CPU. A critical section that a thread finishes itself is one step; one that hands the lock
over to another thread is taken apart at the assignments to `c->proc`, `%cr3` and `p->state`
and at `swtch`.

The table and what `wakeup1`, `kill`, `exit`, `wait` and `allocproc` do to it are those of
`Ostep.ProcTable`, but here a thread acts because a CPU executes it, not because its process
is RUNNING.
-/

namespace Ostep.CpuStates
open TransitionSystem ProcTable

/-- Where `sched` returns to, with the local variable that the caller uses afterwards; a new
process starts in `forkret`. -/
inductive Ret where
  | forkret
  | yield
  | sleep (p : Slot)
  | wait (curproc : Slot)
  | exit
  deriving DecidableEq

/-- Where a thread stands with respect to `ptable.lock`. -/
inductive TPc where
  /-- Outside any critical section. -/
  | run
  /-- The call of `sched`, with the lock held and the state changed. -/
  | sched (r : Ret)
  /-- `sleep`: `p->chan = 0`, in `wait` or with the lock to be released after it. -/
  | tidy (p : Slot) (inWait : Bool)
  /-- The head of the loop of `wait`. -/
  | waitScan (curproc : Slot)
  /-- `release(&ptable.lock)`. -/
  | release
  /-- `panic("zombie exit")`. -/
  | panicked
  deriving DecidableEq

def Ret.pc : Ret → TPc
  | .forkret | .yield => .release
  | .sleep p => .tidy p false
  | .wait curproc => .tidy curproc true
  | .exit => .panicked

/-- Where a scheduler stands: after `c->proc = p`, before `p->state = RUNNING`, before the
`swtch` to `p`, after the `swtch` back, before `c->proc = 0`. -/
inductive SPc where
  | start
  | acquire
  | scan (i : ℕ)
  | switchuvm (p : Slot)
  | setRunning (p : Slot)
  | swtch (p : Slot)
  | switchkvm (p : Slot)
  | clear (p : Slot)
  | release
  deriving DecidableEq

/-- What a CPU executes: its scheduler, or a thread on the kernel stack of a process. -/
inductive Exec where
  | scheduler (pc : SPc)
  | thread (stack : Slot) (pc : TPc)
  deriving DecidableEq

structure Cpu where
  proc : Option Slot
  /-- `c->scheduler`. -/
  scheduler : SPc
  /-- The page directory in use, `none` being `kpgdir`. -/
  cr3 : Option Slot
  exec : Exec
  deriving DecidableEq

/-- A saved thread: the stack it is on and where it continues. -/
structure Context where
  stack : Slot
  ret : Ret
  deriving DecidableEq

/-- `kstack` and `pgdir` tell which slots have a kernel stack and a page directory. -/
structure St (κ : Type*) where
  table : PTable
  kstack : Slot → Bool
  pgdir : Slot → Bool
  context : Slot → Context
  cpu : κ → Cpu
  lock : Option κ

section Steps
variable {κ : Type*}

def St.state (s : St κ) (p : Slot) : ProcState := (s.table.proc p).state

def St.setProc (s : St κ) (p : Slot) (f : Proc → Proc) : St κ :=
  { s with table := s.table.setProc p f }

def St.setState (s : St κ) (p : Slot) (st : ProcState) : St κ :=
  s.setProc p (fun q => { q with state := st })

def St.setPc (s : St κ) (t : Slot) (k : Pc) : St κ := { s with table := s.table.setPc t k }

variable [DecidableEq κ]

def St.setCpu (s : St κ) (c : κ) (f : Cpu → Cpu) : St κ :=
  { s with cpu := Function.update s.cpu c (f (s.cpu c)) }

def St.exec (s : St κ) (c : κ) (x : Exec) : St κ := s.setCpu c (fun k => { k with exec := x })

/-- The next step of the scheduler of `c`; `none` when it waits for the lock or panics. -/
def schedulerStep (s : St κ) (c : κ) : SPc → Option (St κ)
  | .start => some (s.setCpu c (fun k => { k with proc := none, exec := .scheduler .acquire }))
  | .acquire =>
    if s.lock = none then some ({ s with lock := some c }.exec c (.scheduler (.scan 0))) else none
  | .scan i =>
    if h : i < NPROC then
      if s.state ⟨i, h⟩ = .runnable then
        some (s.setCpu c (fun k =>
          { k with proc := some ⟨i, h⟩, exec := .scheduler (.switchuvm ⟨i, h⟩) }))
      else some (s.exec c (.scheduler (.scan (i + 1))))
    else some (s.exec c (.scheduler .release))
  | .switchuvm p =>
    if s.kstack p && s.pgdir p then
      some (s.setCpu c (fun k => { k with cr3 := some p, exec := .scheduler (.setRunning p) }))
    else none
  | .setRunning p => some ((s.setState p .running).exec c (.scheduler (.swtch p)))
  | .swtch p =>
    some (s.setCpu c (fun k =>
      { k with
        scheduler := .switchkvm p
        exec := .thread (s.context p).stack (s.context p).ret.pc }))
  | .switchkvm p =>
    some (s.setCpu c (fun k => { k with cr3 := none, exec := .scheduler (.clear p) }))
  | .clear p =>
    some (s.setCpu c (fun k => { k with proc := none, exec := .scheduler (.scan (p + 1)) }))
  | .release => some ({ s with lock := none }.exec c (.scheduler .acquire))

/-- The ZOMBIE child that `wait` finds. -/
def zombieChild (t : PTable) (curproc : Slot) : Option Slot :=
  t.first (fun p => p.parent = some curproc && p.state = .zombie)

/-- One turn of the loop of `wait`, on the stack `t`. -/
def waitStep (s : St κ) (c : κ) (t curproc : Slot) : St κ :=
  let s' : St κ := { s with table := (wait s.table curproc).2 }
  match zombieChild s.table curproc with
  | some i =>
    { s' with
      kstack := Function.update s.kstack i false
      pgdir := Function.update s.pgdir i false }.exec c (.thread t .release)
  | none =>
    if (wait s.table curproc).1 = .sleeps then s'.exec c (.thread t (.sched (.wait curproc)))
    else s'.exec c (.thread t .release)

/-- The next step of a thread inside a critical section. `sched` panics when the lock is not
held or the process is still RUNNING. -/
def threadStep (s : St κ) (c : κ) (t : Slot) : TPc → Option (St κ)
  | .run => none
  | .sched r =>
    match (s.cpu c).proc with
    | some p =>
      if s.lock = some c ∧ s.state p ≠ .running then
        some ({ s with context := Function.update s.context p ⟨t, r⟩ }.exec c
          (.scheduler (s.cpu c).scheduler))
      else none
    | none => none
  | .tidy p inWait =>
    some ((s.setProc p (fun q => { q with chan := none })).exec c
      (.thread t (if inWait then .waitScan p else .release)))
  | .waitScan curproc => some (waitStep s c t curproc)
  | .release => some ({ s with lock := none }.exec c (.thread t .run))
  | .panicked => none

/-- The next step of `fork` on the stack `t` for the process `p`; `ok` is the outcome of
`kalloc` or `copyuvm`. The failing exits write UNUSED without the lock. -/
def forkStep (s : St κ) (t p : Slot) (ok : Bool) : Option (St κ) :=
  match s.table.pc t with
  | .user =>
    if s.lock = none then
      match allocproc s.table with
      | some (np, table) => some { s with table := table.setPc t (.forkAlloced np) }
      | none => some s
    else none
  | .forkAlloced np =>
    if ok then
      some ({ s with
        kstack := Function.update s.kstack np true
        context := Function.update s.context np ⟨np, .forkret⟩ }.setPc t (.forkStacked np))
    else
      some (({ s with kstack := Function.update s.kstack np false }.setState np .unused).setPc t
        .user)
  | .forkStacked np =>
    if ok then
      some (({ s with pgdir := Function.update s.pgdir np true }.setProc np
        (fun q => { q with parent := some p })).setPc t (.forkFilled np))
    else
      some (({ s with
        kstack := Function.update s.kstack np false
        pgdir := Function.update s.pgdir np false }.setState np .unused).setPc t .user)
  | .forkFilled np =>
    if s.lock = none then some ((s.setState np .runnable).setPc t .user) else none
  | .waiting => none

inductive Event (κ : Type*) where
  /-- The next step of the scheduler, or of a critical section, on the CPU. -/
  | step (c : κ)
  | yield (c : κ)
  | sleep (c : κ) (addr : ℕ)
  | exit (c : κ)
  | wait (c : κ)
  | kill (c : κ) (pid : Pid)
  | fork (c : κ) (ok : Bool)
  | wakeup (addr : ℕ)

/-- The stack of the thread that `c` executes outside any critical section, and `myproc()`. -/
def St.current (s : St κ) (c : κ) : Option (Slot × Slot) :=
  match (s.cpu c).exec, (s.cpu c).proc with
  | .thread t .run, some p => some (t, p)
  | _, _ => none

/-- `acquire(&ptable.lock)`, a change of the table, and the call of `sched`. -/
def St.park (s : St κ) (c : κ) (t : Slot) (r : Ret) (table : PTable) : Option (St κ) :=
  if s.lock = none then
    some ({ s with table := table, lock := some c }.exec c (.thread t (.sched r)))
  else none

def next (s : St κ) : Event κ → Option (St κ)
  | .step c =>
    match (s.cpu c).exec with
    | .scheduler pc => schedulerStep s c pc
    | .thread t pc => threadStep s c t pc
  | .yield c =>
    (s.current c).bind fun (t, p) =>
      s.park c t .yield (s.table.setProc p (fun q => { q with state := .runnable }))
  | .sleep c addr =>
    (s.current c).bind fun (t, p) =>
      if s.table.pc t = .user then
        s.park c t (.sleep p) (s.table.setProc p
          (fun q => { q with chan := some (.other addr), state := .sleeping }))
      else none
  | .exit c =>
    (s.current c).bind fun (t, p) =>
      if s.table.pc t = .user then (exit s.table p).bind (s.park c t .exit) else none
  | .wait c =>
    (s.current c).bind fun (t, p) =>
      if s.table.pc t = .user ∧ s.lock = none then
        some ({ s with lock := some c }.exec c (.thread t (.waitScan p)))
      else none
  | .kill c pid =>
    (s.current c).bind fun (t, _) =>
      if s.table.pc t = .user ∧ s.lock = none then
        some { s with table := (kill s.table pid).2 }
      else none
  | .fork c ok => (s.current c).bind fun (t, p) => forkStep s t p ok
  | .wakeup addr =>
    if s.lock = none then some { s with table := wakeup1 s.table (.other addr) } else none

attribute [local instance] nproc_neZero

/-- After `userinit`, with every CPU about to enter `scheduler`. -/
def Initial (s : St κ) : Prop :=
  s.table = boot ∧ s.lock = none ∧ s.kstack 0 = true ∧ s.pgdir 0 = true ∧
    s.context 0 = ⟨0, .forkret⟩ ∧
    ∀ c, (s.cpu c).proc = none ∧ (s.cpu c).cr3 = none ∧ (s.cpu c).exec = .scheduler .start

def system (κ : Type*) [DecidableEq κ] : System (St κ) (Event κ) := .ofNext Initial next

end Steps

end Ostep.CpuStates

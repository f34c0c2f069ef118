import Ostep.TransitionSystem
import Mathlib.Data.BitVec
import Mathlib.Logic.Function.Basic

/-!
# The read counter

Any number of processes trap into `syscall` on any number of CPUs. `sys_read` adds one to
`numberOfReadCalls` atomically before it looks at its arguments and `sys_getreadcount` loads it.
From the trap up to that access a process touches nothing that another process sees, so the
dispatch and the access are one step. What a call does after it takes as many steps as it likes,
or never ends.

The history is newest first.
-/

namespace Ostep.ReadCount
open TransitionSystem

abbrev NOFILE : ℕ := 16

/-- The entries of `syscalls[]`. -/
inductive Sys where
  | fork | exit | wait | pipe | read | kill | exec | fstat | chdir | dup | getpid | sbrk | sleep
  | uptime | open | write | mknod | unlink | link | mkdir | close | getreadcount
  deriving DecidableEq, Repr

def syscalls : List (Option Sys) :=
  [none, some .fork, some .exit, some .wait, some .pipe, some .read, some .kill, some .exec,
    some .fstat, some .chdir, some .dup, some .getpid, some .sbrk, some .sleep, some .uptime,
    some .open, some .write, some .mknod, some .unlink, some .link, some .mkdir, some .close,
    some .getreadcount]

/-- `num > 0 && num < NELEM(syscalls) && syscalls[num]`. -/
def dispatch (num : BitVec 32) : Option Sys :=
  if BitVec.slt 0 num && num.toNat < syscalls.length then (syscalls[num.toNat]?).join else none

inductive Pc where
  | unused
  | user
  /-- `sys_read` after the atomic add: `argfd`, `argint` and `argptr`. -/
  | readArgs
  /-- `fileread(f, p, n)`. -/
  | fileread (f : ℕ) (p n : BitVec 32)
  /-- In any call but `sys_read` and `sys_getreadcount`. -/
  | inside (c : Sys)
  /-- `curproc->tf->eax = v` is next. -/
  | ret (c : Option Sys) (v : BitVec 32)
  | zombie
  deriving DecidableEq

/-- What a process's calls read: its trap frame, its memory and its descriptors. -/
structure User where
  eax : BitVec 32
  esp : BitVec 32
  sz : BitVec 32
  mem : BitVec 32 → BitVec 8
  ofile : Fin NOFILE → Option ℕ

structure Proc where
  pc : Pc
  killed : Bool
  user : User

structure St (ι : Type*) where
  numberOfReadCalls : BitVec 32
  proc : ι → Proc

/-- `*(int*)(addr)`. -/
def User.int (u : User) (addr : BitVec 32) : BitVec 32 :=
  u.mem (addr + 3) ++ u.mem (addr + 2) ++ u.mem (addr + 1) ++ u.mem addr

def User.fetchint (u : User) (addr : BitVec 32) : Option (BitVec 32) :=
  if u.sz ≤ addr || u.sz < addr + 4 then none else some (u.int addr)

def User.argint (u : User) (n : BitVec 32) : Option (BitVec 32) :=
  u.fetchint (u.esp + 4 + 4 * n)

def User.argptr (u : User) (n size : BitVec 32) : Option (BitVec 32) :=
  (u.argint n).bind fun i =>
    if size.slt 0 || u.sz ≤ i || u.sz < i + size then none else some i

def User.argfd (u : User) (n : BitVec 32) : Option ℕ :=
  (u.argint n).bind fun fd =>
    if fd.slt 0 then none
    else if h : fd.toNat < NOFILE then u.ofile ⟨fd.toNat, h⟩ else none

/-- The arguments of `sys_read`, checked in its order. -/
def User.readArgs (u : User) : Option (ℕ × BitVec 32 × BitVec 32) :=
  (u.argfd 0).bind fun f => (u.argint 2).bind fun n => (u.argptr 1 n).map fun p => (f, p, n)

variable {ι : Type*} [DecidableEq ι]

def St.setProc (s : St ι) (q : ι) (p : Proc) : St ι :=
  { s with proc := Function.update s.proc q p }

def St.goto (s : St ι) (q : ι) (pc : Pc) : St ι := s.setProc q { s.proc q with pc := pc }

/-- `__atomic_fetch_add(&numberOfReadCalls, 1, __ATOMIC_SEQ_CST)`. -/
def St.addRead (s : St ι) : St ι := { s with numberOfReadCalls := s.numberOfReadCalls + 1 }

/-- `syscall()`, up to the first access of the call it dispatches to. -/
def syscallStep (s : St ι) (q : ι) : St ι :=
  match dispatch (s.proc q).user.eax with
  | none => s.goto q (.ret none (-1))
  | some .read => s.addRead.goto q .readArgs
  | some .getreadcount => s.goto q (.ret (some .getreadcount) s.numberOfReadCalls)
  | some c => s.goto q (.inside c)

def readArgsStep (s : St ι) (q : ι) : St ι :=
  match (s.proc q).user.readArgs with
  | none => s.goto q (.ret (some .read) (-1))
  | some (f, p, n) => s.goto q (.fileread f p n)

inductive Event (ι : Type*) where
  /-- User code: any registers and any memory contents, but neither `sz` nor descriptors. -/
  | run (q : ι) (eax esp : BitVec 32) (mem : BitVec 32 → BitVec 8)
  /-- `INT T_SYSCALL`. -/
  | trap (q : ι)
  | readArgs (q : ι)
  /-- `fileread` returns `r`, having copied any bytes out. -/
  | filereadDone (q : ι) (r : BitVec 32) (mem : BitVec 32 → BitVec 8)
  /-- Work of another call on its own process: `exec`, `sbrk`, `open`, `close`, `pipe`, … -/
  | work (q : ι) (u : User)
  /-- `fork` copies the process to an unused one, whose `eax` is 0. -/
  | fork (q child : ι)
  | done (q : ι) (v : BitVec 32)
  /-- The call returns to user code. -/
  | ret (q : ι)
  | kill (q : ι)
  /-- `sys_exit`, or the `exit()` of a killed process on a trap or interrupt from user code. -/
  | exit (q : ι)
  /-- `wait` frees the process. -/
  | reap (q : ι)

def next (s : St ι) : Event ι → Option (St ι)
  | .run q eax esp mem =>
    if (s.proc q).pc = .user then
      some (s.setProc q { s.proc q with
        user := { (s.proc q).user with eax := eax, esp := esp, mem := mem } })
    else none
  | .trap q =>
    if (s.proc q).pc = .user && !(s.proc q).killed then some (syscallStep s q) else none
  | .readArgs q => if (s.proc q).pc = .readArgs then some (readArgsStep s q) else none
  | .filereadDone q r mem =>
    match (s.proc q).pc with
    | .fileread _ _ _ =>
      some (s.setProc q { s.proc q with
        pc := .ret (some .read) r, user := { (s.proc q).user with mem := mem } })
    | _ => none
  | .work q u =>
    match (s.proc q).pc with
    | .inside _ => some (s.setProc q { s.proc q with user := u })
    | _ => none
  | .fork q child =>
    if (s.proc q).pc = .inside .fork && (s.proc child).pc = .unused then
      some (s.setProc child
        { pc := .user, killed := false, user := { (s.proc q).user with eax := 0 } })
    else none
  | .done q v =>
    match (s.proc q).pc with
    | .inside c => some (s.goto q (.ret (some c) v))
    | _ => none
  | .ret q =>
    match (s.proc q).pc with
    | .ret _ v =>
      some (s.setProc q
        { s.proc q with pc := .user, user := { (s.proc q).user with eax := v } })
    | _ => none
  | .kill q => some (s.setProc q { s.proc q with killed := true })
  | .exit q =>
    if (s.proc q).pc = .inside .exit || ((s.proc q).pc = .user && (s.proc q).killed) then
      some (s.goto q .zombie)
    else none
  | .reap q => if (s.proc q).pc = .zombie then some (s.goto q .unused) else none

/-- The kernel has booted: nobody is in a call. -/
def Initial (s : St ι) : Prop :=
  s.numberOfReadCalls = 0 ∧ ∀ q, (s.proc q).pc = .unused ∨ (s.proc q).pc = .user

def system (ι : Type*) [DecidableEq ι] : System (St ι) (Event ι) := .ofNext Initial next

/-! ## The history -/

inductive Entry (ι : Type*) where
  /-- A `SYS_read` of `q` is dispatched to `sys_read`. -/
  | read (q : ι)
  /-- A `getreadcount` of `q` is dispatched. -/
  | asked (q : ι)
  /-- A `getreadcount` of `q` has returned `v`. -/
  | returned (q : ι) (v : BitVec 32)
  deriving DecidableEq, Repr

def record (s : St ι) (e : Event ι) (log : List (Entry ι)) : List (Entry ι) :=
  match e with
  | .trap q =>
    match dispatch (s.proc q).user.eax with
    | some .read => .read q :: log
    | some .getreadcount => .asked q :: log
    | _ => log
  | .ret q =>
    match (s.proc q).pc with
    | .ret (some .getreadcount) v => .returned q v :: log
    | _ => log
  | _ => log

/-- The number of reads dispatched. -/
def reads : List (Entry ι) → ℕ
  | [] => 0
  | .read _ :: log => reads log + 1
  | _ :: log => reads log

omit [DecidableEq ι] in
theorem reads_append (l₁ l₂ : List (Entry ι)) : reads (l₁ ++ l₂) = reads l₁ + reads l₂ := by
  induction l₁ with
  | nil => simp [reads]
  | cons e l ih =>
    cases e <;> simp only [List.cons_append, reads, ih]
    omega

/-- The history before the latest `getreadcount` of `q` was dispatched. -/
def beforeAsked (q : ι) : List (Entry ι) → List (Entry ι)
  | [] => []
  | e :: log => if e = .asked q then log else beforeAsked q log

/-- The step dispatches a `SYS_read`. -/
def Dispatches (s : St ι) : Event ι → Prop
  | .trap q => dispatch (s.proc q).user.eax = some .read
  | _ => False

/-- The value a `getreadcount` in progress is about to return. -/
def Proc.answer (p : Proc) : Option (BitVec 32) :=
  match p.pc with
  | .ret (some .getreadcount) v => some v
  | _ => none

@[simp] theorem St.proc_setProc (s : St ι) (q : ι) (p : Proc) :
    (s.setProc q p).proc = Function.update s.proc q p := rfl

@[simp] theorem St.numberOfReadCalls_setProc (s : St ι) (q : ι) (p : Proc) :
    (s.setProc q p).numberOfReadCalls = s.numberOfReadCalls := rfl

@[simp] theorem St.numberOfReadCalls_goto (s : St ι) (q : ι) (pc : Pc) :
    (s.goto q pc).numberOfReadCalls = s.numberOfReadCalls := rfl

theorem answer_setProc {s : St ι} {q : ι} {p : Proc} (hp : p.answer = none) {r : ι}
    {v : BitVec 32} (h : ((s.setProc q p).proc r).answer = some v) :
    r ≠ q ∧ (s.proc r).answer = some v := by
  by_cases hr : r = q
  · subst hr
    simp [hp] at h
  · exact ⟨hr, by simpa [hr] using h⟩

theorem answer_eq_some {p : Proc} {v : BitVec 32} :
    p.answer = some v ↔ p.pc = .ret (some .getreadcount) v := by
  unfold Proc.answer
  split <;> simp_all

/-! ## One step -/

/-- No process of `t` answers anything it did not in `s`, and nobody is in a call that `syscall`
never leaves it in. -/
structure Quiet (s t : St ι) : Prop where
  answer : ∀ r v, (t.proc r).answer = some v → (s.proc r).answer = some v
  inside : ∀ r, (t.proc r).pc = .inside .getreadcount → (s.proc r).pc = .inside .getreadcount

theorem quiet_setProc {s : St ι} {q : ι} {p : Proc} (hp : p.answer = none)
    (hin : p.pc ≠ .inside .getreadcount) : Quiet s (s.setProc q p) where
  answer r v h := (answer_setProc hp h).2
  inside r h := by
    by_cases hr : r = q
    · subst hr
      simp [hin] at h
    · simpa [hr] using h

theorem quiet_goto {s : St ι} {q : ι} {pc : Pc} (hpc : ∀ v, pc ≠ .ret (some .getreadcount) v)
    (hin : pc ≠ .inside .getreadcount) : Quiet s (s.goto q pc) := by
  refine quiet_setProc ?_ hin
  rw [Option.eq_none_iff_forall_ne_some]
  intro v hv
  exact hpc v (answer_eq_some.mp hv)

theorem quiet_update {s : St ι} {q : ι} {p : Proc} (hpc : p.pc = (s.proc q).pc) :
    Quiet s (s.setProc q p) where
  answer r v h := by
    by_cases hr : r = q
    · subst hr
      simpa [answer_eq_some, hpc] using h
    · simpa [hr] using h
  inside r h := by
    by_cases hr : r = q
    · subst hr
      simpa [hpc] using h
    · simpa [hr] using h

/-- What a step can do to the counter, the pending answers and the history. -/
inductive Change (s t : St ι) (e : Event ι) (log log' : List (Entry ι)) : Prop where
  | quiet (hq : Quiet s t) (hn : t.numberOfReadCalls = s.numberOfReadCalls) (hl : log' = log)
      (hd : ¬ Dispatches s e)
  | read (q : ι) (hq : Quiet s t) (hn : t.numberOfReadCalls = s.numberOfReadCalls + 1)
      (hl : log' = .read q :: log) (hd : Dispatches s e)
  | asked (q : ι) (hq : Quiet s (t.goto q .user))
      (ha : (t.proc q).pc = .ret (some .getreadcount) s.numberOfReadCalls)
      (hn : t.numberOfReadCalls = s.numberOfReadCalls) (hl : log' = .asked q :: log)
      (hd : ¬ Dispatches s e)
  | returned (q : ι) (v : BitVec 32) (hq : Quiet s t) (ha : (s.proc q).answer = some v)
      (hu : (t.proc q).answer = none) (hx : (t.proc q).user.eax = v)
      (hn : t.numberOfReadCalls = s.numberOfReadCalls) (hl : log' = .returned q v :: log)
      (hd : ¬ Dispatches s e)

theorem syscallStep_inside {s : St ι} {q : ι} {c : Sys}
    (hd : dispatch (s.proc q).user.eax = some c) (hr : c ≠ .read) (hg : c ≠ .getreadcount) :
    syscallStep s q = s.goto q (.inside c) := by
  cases c <;> simp_all [syscallStep]

theorem syscallStep_change (s : St ι) (q : ι) (log : List (Entry ι)) :
    Change s (syscallStep s q) (.trap q) log (record s (.trap q) log) := by
  cases hd : dispatch (s.proc q).user.eax with
  | none =>
    have hstep : syscallStep s q = s.goto q (.ret none (-1)) := by simp only [syscallStep, hd]
    rw [hstep]
    exact .quiet (quiet_goto (by simp) (by simp)) rfl (by simp only [record, hd])
      (by simp [Dispatches, hd])
  | some c =>
    by_cases hr : c = .read
    · subst hr
      have hstep : syscallStep s q = s.addRead.goto q .readArgs := by simp only [syscallStep, hd]
      rw [hstep]
      have hq : Quiet s.addRead (s.addRead.goto q .readArgs) := quiet_goto (by simp) (by simp)
      exact .read q ⟨hq.answer, hq.inside⟩ rfl (by simp only [record, hd]) hd
    by_cases hg : c = .getreadcount
    · subst hg
      have hstep : syscallStep s q = s.goto q (.ret (some .getreadcount) s.numberOfReadCalls) := by
        simp only [syscallStep, hd]
      rw [hstep]
      refine .asked q ?_ (by simp [St.goto]) rfl (by simp only [record, hd])
        (by simp [Dispatches, hd])
      have hover : (s.goto q (.ret (some .getreadcount) s.numberOfReadCalls)).goto q .user =
          s.goto q .user := by
        simp [St.goto, St.setProc]
      rw [hover]
      exact quiet_goto (by simp) (by simp)
    · have hrec : record s (.trap q) log = log := by
        cases c <;> simp_all [record]
      rw [syscallStep_inside hd hr hg, hrec]
      exact .quiet (quiet_goto (by simp) (by simpa using hg)) rfl rfl
        (by simpa [Dispatches, hd] using hr)

theorem next_change {s t : St ι} {e : Event ι}
    (hin : ∀ q, (s.proc q).pc ≠ .inside .getreadcount) (h : next s e = some t)
    (log : List (Entry ι)) : Change s t e log (record s e log) := by
  cases e with
  | run q eax esp mem =>
    obtain ⟨hpc, rfl⟩ := by simpa [next] using h
    exact .quiet (quiet_update rfl) rfl rfl id
  | trap q =>
    obtain ⟨-, rfl⟩ := by simpa [next] using h
    exact syscallStep_change s q log
  | readArgs q =>
    obtain ⟨hpc, rfl⟩ := by simpa [next] using h
    unfold readArgsStep
    split
    · exact .quiet (quiet_goto (by simp) (by simp)) rfl rfl id
    · exact .quiet (quiet_goto (by simp) (by simp)) rfl rfl id
  | filereadDone q r mem =>
    simp only [next] at h
    split at h
    · obtain rfl := by simpa using h
      exact .quiet (quiet_setProc rfl (by simp)) rfl rfl id
    · cases h
  | work q u =>
    simp only [next] at h
    split at h
    · obtain rfl := by simpa using h
      exact .quiet (quiet_update rfl) rfl rfl id
    · cases h
  | fork q child =>
    obtain ⟨hpc, rfl⟩ := by simpa [next] using h
    exact .quiet (quiet_setProc rfl (by simp)) rfl rfl id
  | done q v =>
    simp only [next] at h
    split at h
    · rename_i c hpc
      obtain rfl := by simpa using h
      have hc : c ≠ .getreadcount := fun hc => hin q (hc ▸ hpc)
      exact .quiet (quiet_goto (by simpa using hc) (by simp)) rfl rfl id
    · cases h
  | ret q =>
    simp only [next] at h
    split at h
    · rename_i c v hpc
      obtain rfl := by simpa using h
      by_cases hc : c = some .getreadcount
      · subst hc
        exact .returned q v (quiet_setProc rfl (by simp)) (answer_eq_some.mpr hpc)
          (by simp [Proc.answer]) (by simp) rfl (by simp only [record, hpc]) id
      · have hrec : record s (.ret q) log = log := by
          simp only [record, hpc]
          split <;> simp_all
        exact .quiet (quiet_setProc rfl (by simp)) rfl hrec id
    · cases h
  | kill q =>
    obtain rfl := by simpa [next] using h
    exact .quiet (quiet_update rfl) rfl rfl id
  | exit q =>
    obtain ⟨hpc, rfl⟩ := by simpa [next] using h
    exact .quiet (quiet_goto (by simp) (by simp)) rfl rfl id
  | reap q =>
    obtain ⟨hpc, rfl⟩ := by simpa [next] using h
    exact .quiet (quiet_goto (by simp) (by simp)) rfl rfl id

/-! ## Every run -/

structure Inv (p : St ι × List (Entry ι)) : Prop where
  inside : ∀ q, (p.1.proc q).pc ≠ .inside .getreadcount
  count : p.1.numberOfReadCalls = BitVec.ofNat 32 (reads p.2)
  pending : ∀ q v, (p.1.proc q).answer = some v →
    .asked q ∈ p.2 ∧ v = BitVec.ofNat 32 (reads (beforeAsked q p.2))
  answered : ∀ l₁ q v l₂, p.2 = l₁ ++ .returned q v :: l₂ →
    .asked q ∈ l₂ ∧ v = BitVec.ofNat 32 (reads (beforeAsked q l₂))

theorem init_inv {p : St ι × List (Entry ι)}
    (h : ((system ι).observe [] record).init p) : Inv p := by
  obtain ⟨⟨hn, hpc⟩, hlog⟩ := h
  refine ⟨fun q => ?_, by simp [hn, hlog, reads], fun q v hv => ?_, ?_⟩
  · rcases hpc q with hq | hq <;> simp [hq]
  · rcases hpc q with hq | hq <;> simp [answer_eq_some, hq] at hv
  · simp [hlog]

omit [DecidableEq ι] in
/-- An entry that answers nobody leaves the answers in the history as they were. -/
theorem answered_cons {log l₁ l₂ : List (Entry ι)} {e : Entry ι} {q : ι} {v : BitVec 32}
    (he : ∀ r w, e ≠ .returned r w) (h : e :: log = l₁ ++ .returned q v :: l₂) :
    ∃ l, log = l ++ .returned q v :: l₂ := by
  cases l₁ with
  | nil =>
    obtain ⟨rfl, -⟩ := by simpa using h
    exact absurd rfl (he q v)
  | cons e' l =>
    obtain ⟨-, hl⟩ := by simpa using h
    exact ⟨l, hl⟩

theorem next_inv {p p' : St ι × List (Entry ι)} {e : Event ι} (hi : Inv p)
    (hstep : ((system ι).observe [] record).step p e p') : Inv p' := by
  obtain ⟨s, log⟩ := p
  obtain ⟨t, log'⟩ := p'
  obtain ⟨hnext, hrec⟩ := hstep
  have hc : Change s t e log log' := by
    obtain rfl : log' = record s e log := hrec
    exact next_change hi.inside hnext log
  cases hc with
  | quiet hq hn hl =>
    subst hl
    exact ⟨fun q h => hi.inside q (hq.inside q h), hn.trans hi.count,
      fun q v h => hi.pending q v (hq.answer q v h), hi.answered⟩
  | read q hq hn hl =>
    refine ⟨fun q h => hi.inside q (hq.inside q h), ?_, fun r v h => ?_, ?_⟩
    · have hc : s.numberOfReadCalls = BitVec.ofNat 32 (reads log) := hi.count
      simp only [hl, hn, hc, reads, BitVec.ofNat_add]
      rfl
    · obtain ⟨hm, hv⟩ := hi.pending r v (hq.answer r v h)
      simp [hl, hm, beforeAsked, hv]
    · intro l₁ r v l₂ h
      obtain ⟨l, hl'⟩ := answered_cons (by simp) (hl.symm.trans h)
      exact hi.answered l r v l₂ hl'
  | asked q hq ha hn hl =>
    refine ⟨fun r h => ?_, ?_, fun r v h => ?_, ?_⟩
    · by_cases hr : r = q
      · subst hr
        simp [ha] at h
      · exact hi.inside r (hq.inside r (by simpa [St.goto, hr] using h))
    · simpa only [hl, hn, reads] using hi.count
    · by_cases hr : r = q
      · subst hr
        obtain rfl : s.numberOfReadCalls = v := by simpa [Proc.answer, ha] using h
        simpa [hl, beforeAsked] using hi.count
      · obtain ⟨hm, hv⟩ := hi.pending r v (hq.answer r v (by simpa [St.goto, hr] using h))
        have hne : Entry.asked q ≠ .asked r := by simpa using Ne.symm hr
        simp [hl, hm, beforeAsked, hne, hv]
    · intro l₁ r v l₂ h
      obtain ⟨l, hl'⟩ := answered_cons (by simp) (hl.symm.trans h)
      exact hi.answered l r v l₂ hl'
  | returned q v hq ha hu hx hn hl =>
    refine ⟨fun q h => hi.inside q (hq.inside q h), ?_, fun r w h => ?_, ?_⟩
    · simpa only [hl, hn, reads] using hi.count
    · obtain ⟨hm, hv⟩ := hi.pending r w (hq.answer r w h)
      simp [hl, hm, beforeAsked, hv]
    · intro l₁ r w l₂ h
      cases l₁ with
      | nil =>
        obtain ⟨⟨rfl, rfl⟩, rfl⟩ := by simpa using hl.symm.trans h
        exact hi.pending _ _ ha
      | cons e' l =>
        obtain ⟨-, hl'⟩ := by simpa using hl.symm.trans h
        exact hi.answered l r w l₂ hl'

theorem reachable_inv {p : St ι × List (Entry ι)}
    (h : ((system ι).observe [] record).Reachable p) : Inv p :=
  h.invariant (fun _ => init_inv) fun _ _ _ => next_inv

/-- Every value `getreadcount` has returned is the number of reads dispatched before that call
was, modulo 2^32, only dispatching a read changes the counter, and two such values differ by the
reads dispatched between the calls. -/
theorem read_counter {s : St ι} {log : List (Entry ι)}
    (h : ((system ι).observe [] record).Reachable (s, log)) :
    s.numberOfReadCalls = BitVec.ofNat 32 (reads log) ∧
      (∀ e t, next s e = some t → ¬ Dispatches s e →
        t.numberOfReadCalls = s.numberOfReadCalls) ∧
      (∀ l₁ q v l₂, log = l₁ ++ .returned q v :: l₂ →
        .asked q ∈ l₂ ∧ v = BitVec.ofNat 32 (reads (beforeAsked q l₂))) ∧
      ∀ l₁ q v l₂ l₁' q' v' l₂' between, log = l₁ ++ .returned q v :: l₂ →
        log = l₁' ++ .returned q' v' :: l₂' →
        beforeAsked q' l₂' = between ++ beforeAsked q l₂ →
        v' - v = BitVec.ofNat 32 (reads between) := by
  have hi := reachable_inv h
  refine ⟨hi.count, fun e t hnext hd => ?_, hi.answered, ?_⟩
  · cases next_change hi.inside hnext log with
    | quiet _ hn => exact hn
    | read _ _ _ _ hd' => exact absurd hd' hd
    | asked _ _ _ hn => exact hn
    | returned _ _ _ _ _ _ hn => exact hn
  · intro l₁ q v l₂ l₁' q' v' l₂' between hl hl' hb
    obtain ⟨-, hv⟩ := hi.answered l₁ q v l₂ hl
    obtain ⟨-, hv'⟩ := hi.answered l₁' q' v' l₂' hl'
    rw [hv, hv', hb, reads_append, BitVec.ofNat_add, BitVec.add_sub_cancel]

/-- Two processes with no memory at all, one about to call `getreadcount`, the other `read`. -/
def twoCallers : St Bool where
  numberOfReadCalls := 0
  proc q := ⟨.user, false, ⟨if q then 22 else 5, 0, 0, fun _ => 0, fun _ => none⟩⟩

/-- A failing `read` of one process between two readings of the other. -/
def readBetween : List (Event Bool) :=
  [.trap true, .trap false, .ret true, .readArgs false, .run true 22 0 (fun _ => 0), .trap true,
    .ret true]

def readings : List (Entry Bool) :=
  [.returned true 1, .asked true, .returned true 0, .read false, .asked true]

theorem readBetween_reaches :
    ∃ p, ((system Bool).observe [] record).Reachable p ∧ p.2 = readings := by
  apply observe_reachable_of_runNext twoCallers readBetween (fun p => p.2 = readings)
  · exact ⟨rfl, fun _ => .inr rfl⟩
  · decide

theorem read_counter_between :
    (1 : BitVec 32) - 0 =
      BitVec.ofNat 32 (reads [.returned true 0, .read false, .asked true]) := by
  obtain ⟨⟨s, log⟩, hreach, hlog⟩ := readBetween_reaches
  obtain ⟨-, -, -, hdiff⟩ := read_counter hreach
  exact hdiff [.returned true 1, .asked true] true 0 [.read false, .asked true] [] true 1
    [.asked true, .returned true 0, .read false, .asked true]
    [.returned true 0, .read false, .asked true] hlog hlog (by decide)

end Ostep.ReadCount

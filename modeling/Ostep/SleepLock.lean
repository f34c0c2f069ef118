import Ostep.TransitionSystem
import Mathlib.Algebra.Ring.Nat
import Mathlib.Logic.Function.Basic
import Mathlib.Data.Fin.Basic

/-!
# Sleep locks

Any number of processes call `acquiresleep`, `releasesleep` and `holdingsleep` on one sleep
lock, and may be killed at any time. The lock's own spin lock `lk->lk` and `ptable.lock` are
explicit. A step is one acquire or release of a lock, one access to the sleep lock, or one
critical section on `ptable.lock`; inside `sleep` the caller takes `ptable.lock`, drops
`lk->lk` and marks itself SLEEPING in three steps.

`owns` is a history variable: the process is between the return of `acquiresleep` and its call
of `releasesleep`.
-/

namespace Ostep.SleepLock
open TransitionSystem

inductive Pc where
  | idle
  /-- `acquire(&lk->lk)`, at the start of `acquiresleep` or at the end of `sleep`. -/
  | acquire
  /-- `while (lk->locked)`. -/
  | test
  /-- `sleep`: `acquire(&ptable.lock)`. -/
  | sleep
  /-- `sleep`: `release(lk)`. -/
  | sleepDrop
  /-- `sleep`: `p->chan = chan; p->state = SLEEPING; sched()`. -/
  | sleepMark
  | asleep
  /-- `lk->locked = 1; lk->pid = myproc()->pid`. -/
  | take
  /-- `acquiresleep`: `release(&lk->lk)`. -/
  | taken
  | relAcquire
  /-- `lk->locked = 0; lk->pid = 0`. -/
  | relClear
  | relWake
  | relRelease
  | holdAcquire
  /-- `r = lk->locked && (lk->pid == myproc()->pid)`. -/
  | holdTest
  | holdRelease (r : Bool)
  deriving DecidableEq

structure Thread where
  pc : Pc
  /-- SLEEPING on the lock. -/
  sleeping : Bool
  killed : Bool
  owns : Bool
  deriving DecidableEq

/-- `pid` is `none` for 0. -/
structure St (ι : Type*) where
  locked : Bool
  pid : Option ι
  lk : Option ι
  ptable : Option ι
  thread : ι → Thread

section Steps
variable {ι : Type*} [DecidableEq ι]

def St.setThread (s : St ι) (q : ι) (f : Thread → Thread) : St ι :=
  { s with thread := Function.update s.thread q (f (s.thread q)) }

def St.goto (s : St ι) (q : ι) (pc : Pc) : St ι := s.setThread q (fun t => { t with pc := pc })

/-- `acquire(&lk->lk)`. -/
def St.acquireLk (s : St ι) (q : ι) (pc : Pc) : Option (St ι) :=
  if s.lk = none then some ({ s with lk := some q }.goto q pc) else none

/-- `wakeup1(lk)`. -/
def St.wakeup1 (s : St ι) : St ι :=
  { s with thread := fun q => { s.thread q with sleeping := false } }

/-- The next step of process `q`; `none` when it has none or waits for a lock. -/
def stepOf (s : St ι) (q : ι) : Option (St ι) :=
  match (s.thread q).pc with
  | .idle => none
  | .acquire => s.acquireLk q .test
  | .test => some (s.goto q (if s.locked then .sleep else .take))
  | .sleep =>
    if s.ptable = none then some ({ s with ptable := some q }.goto q .sleepDrop) else none
  | .sleepDrop => some ({ s with lk := none }.goto q .sleepMark)
  | .sleepMark =>
    some ({ s with ptable := none }.setThread q
      (fun t => { t with pc := .asleep, sleeping := true }))
  | .asleep =>
    if (s.thread q).sleeping = false ∧ s.ptable = none then some (s.goto q .acquire) else none
  | .take => some ({ s with locked := true, pid := some q }.goto q .taken)
  | .taken =>
    some ({ s with lk := none }.setThread q (fun t => { t with pc := .idle, owns := true }))
  | .relAcquire => s.acquireLk q .relClear
  | .relClear => some ({ s with locked := false, pid := none }.goto q .relWake)
  | .relWake => if s.ptable = none then some (s.wakeup1.goto q .relRelease) else none
  | .relRelease => some ({ s with lk := none }.goto q .idle)
  | .holdAcquire => s.acquireLk q .holdTest
  | .holdTest => some (s.goto q (.holdRelease (s.locked && s.pid = some q)))
  | .holdRelease _ => some ({ s with lk := none }.goto q .idle)

inductive Event (ι : Type*) where
  | step (q : ι)
  | acquiresleep (q : ι)
  | releasesleep (q : ι)
  | holdingsleep (q : ι)
  | kill (q : ι)

/-- `releasesleep` is called by the holder. -/
def next (s : St ι) : Event ι → Option (St ι)
  | .step q => stepOf s q
  | .acquiresleep q => if (s.thread q).pc = .idle then some (s.goto q .acquire) else none
  | .releasesleep q =>
    if (s.thread q).pc = .idle ∧ (s.thread q).owns then
      some (s.setThread q (fun t => { t with pc := .relAcquire, owns := false }))
    else none
  | .holdingsleep q => if (s.thread q).pc = .idle then some (s.goto q .holdAcquire) else none
  | .kill q =>
    if s.ptable = none then
      some (s.setThread q (fun t => { t with killed := true, sleeping := false }))
    else none

/-- After `initsleeplock`. -/
def Initial (s : St ι) : Prop :=
  s.locked = false ∧ s.pid = none ∧ s.lk = none ∧ s.ptable = none ∧
    ∀ q, (s.thread q).pc = .idle ∧ (s.thread q).sleeping = false ∧ (s.thread q).owns = false

def system (ι : Type*) [DecidableEq ι] : System (St ι) (Event ι) := .ofNext Initial next

@[simp] theorem setThread_thread (s : St ι) (q r : ι) (f : Thread → Thread) :
    (s.setThread q f).thread r = if r = q then f (s.thread q) else s.thread r := by
  simp [St.setThread, Function.update_apply]

@[simp] theorem setThread_locked (s : St ι) (q : ι) (f : Thread → Thread) :
    (s.setThread q f).locked = s.locked := rfl

@[simp] theorem setThread_pid (s : St ι) (q : ι) (f : Thread → Thread) :
    (s.setThread q f).pid = s.pid := rfl

@[simp] theorem setThread_lk (s : St ι) (q : ι) (f : Thread → Thread) :
    (s.setThread q f).lk = s.lk := rfl

@[simp] theorem setThread_ptable (s : St ι) (q : ι) (f : Thread → Thread) :
    (s.setThread q f).ptable = s.ptable := rfl

end Steps

/-! ## The invariant -/

/-- The places at which a process holds `lk->lk`. -/
def Pc.holds : Pc → Bool
  | .test | .sleep | .sleepDrop | .take | .taken | .relClear | .relWake | .relRelease
  | .holdTest | .holdRelease _ => true
  | _ => false

/-- The places at which a process holds `ptable.lock`. -/
def Pc.holdsTable : Pc → Bool
  | .sleepDrop | .sleepMark => true
  | _ => false

/-- The lock is taken for the process: `acquiresleep` has not returned yet, or `releasesleep`
has not cleared it yet. -/
def Pc.grips : Pc → Bool
  | .taken | .relAcquire | .relClear => true
  | _ => false

/-- SLEEPING on the lock, or about to be, with `lk->lk` already dropped. -/
def Thread.waits (t : Thread) : Bool := t.sleeping || t.pc = .sleepMark

/-- What is known of one process by its place in the code. -/
structure Local {ι : Type*} (s : St ι) (q : ι) (t : Thread) : Prop where
  lk_iff : s.lk = some q ↔ t.pc.holds = true
  ptable_iff : s.ptable = some q ↔ t.pc.holdsTable = true
  pid_iff : s.pid = some q ↔ t.pc.grips = true ∨ t.owns = true
  asleep : t.sleeping = true → t.pc = .asleep
  mustWait : t.pc = .sleep ∨ t.pc = .sleepDrop → s.locked = true
  mayTake : t.pc = .take → s.locked = false
  grips : t.pc.grips = true → t.owns = false
  answer : ∀ r, t.pc = .holdRelease r → r = t.owns

structure Inv {ι : Type*} (s : St ι) : Prop where
  local_ : ∀ q, Local s q (s.thread q)
  locked_iff : s.locked = s.pid.isSome
  awaited : ∀ q, (s.thread q).waits = true →
    s.locked = true ∨ ∃ h, (s.thread h).pc = .relWake

section Invariant
variable {ι : Type*}

/-- A process that is not asleep is not SLEEPING on the lock. -/
theorem Inv.awake {s : St ι} (hs : Inv s) {q : ι} (h : (s.thread q).pc ≠ .asleep) :
    (s.thread q).sleeping = false := by
  by_contra hc
  exact h ((hs.local_ q).asleep (by simpa using hc))

/-- Another process keeps what is known of it when the locks change hands elsewhere, and the
sleep lock changes only under `lk->lk`. -/
theorem Local.frame {s s' : St ι} {r : ι} {t : Thread} (h : Local s r t)
    (hlk : s'.lk = some r ↔ s.lk = some r) (hpt : s'.ptable = some r ↔ s.ptable = some r)
    (hpid : s'.pid = some r ↔ s.pid = some r)
    (hlocked : s'.locked = s.locked ∨ t.pc.holds = false) : Local s' r t where
  lk_iff := hlk.trans h.lk_iff
  ptable_iff := hpt.trans h.ptable_iff
  pid_iff := hpid.trans h.pid_iff
  asleep := h.asleep
  mustWait hw := by
    rcases hlocked with hl | hl
    · rw [hl]
      exact h.mustWait hw
    · rcases hw with hw | hw <;> simp [hw, Pc.holds] at hl
  mayTake hw := by
    rcases hlocked with hl | hl
    · rw [hl]
      exact h.mayTake hw
    · simp [hw, Pc.holds] at hl
  grips := h.grips
  answer := h.answer

theorem Inv.holder_unique {s : St ι} (hs : Inv s) {q r : ι} (hq : (s.thread q).pc.holds = true)
    (hr : (s.thread r).pc.holds = true) : r = q := by
  have h := (hs.local_ q).lk_iff.mpr hq
  rw [(hs.local_ r).lk_iff.mpr hr] at h
  exact Option.some.inj h

/-- A step of `q` alone. -/
theorem Inv.move {s s' : St ι} (hs : Inv s) (q : ι)
    (hthread : ∀ r, r ≠ q → s'.thread r = s.thread r)
    (hlk : ∀ r, r ≠ q → (s'.lk = some r ↔ s.lk = some r))
    (hpt : ∀ r, r ≠ q → (s'.ptable = some r ↔ s.ptable = some r))
    (hlock : (s'.locked = s.locked ∧ s'.pid = s.pid) ∨ (s.thread q).pc.holds = true ∧
      s'.locked = s'.pid.isSome ∧ ∀ r, r ≠ q → (s'.pid = some r ↔ s.pid = some r))
    (hq : Local s' q (s'.thread q))
    (hawaited : ∀ r, (s'.thread r).waits = true →
      s'.locked = true ∨ ∃ h, (s'.thread h).pc = .relWake) : Inv s' where
  local_ r := by
    by_cases hr : r = q
    · rw [hr]
      exact hq
    · rw [hthread r hr]
      refine (hs.local_ r).frame (hlk r hr) (hpt r hr) ?_ ?_
      · rcases hlock with ⟨-, hpid⟩ | ⟨-, -, hpid⟩
        · rw [hpid]
        · exact hpid r hr
      · rcases hlock with ⟨hl, -⟩ | ⟨hholds, -⟩
        · exact Or.inl hl
        · right
          by_contra h
          exact hr (hs.holder_unique hholds (by simpa using h))
  locked_iff := by
    rcases hlock with ⟨hl, hpid⟩ | ⟨-, hl, -⟩
    · rw [hl, hpid]
      exact hs.locked_iff
    · exact hl
  awaited := hawaited

/-- A step of `q` that clears nothing and leaves no duty to wake behind. -/
theorem Inv.advance {s s' : St ι} (hs : Inv s) (q : ι)
    (hthread : ∀ r, r ≠ q → s'.thread r = s.thread r)
    (hlk : ∀ r, r ≠ q → (s'.lk = some r ↔ s.lk = some r))
    (hpt : ∀ r, r ≠ q → (s'.ptable = some r ↔ s.ptable = some r))
    (hlock : s'.locked = s.locked ∧ s'.pid = s.pid) (hq : Local s' q (s'.thread q))
    (hwake : (s.thread q).pc ≠ .relWake)
    (hwaits : (s'.thread q).waits = true → (s.thread q).waits = true ∨ s.locked = true) :
    Inv s' := by
  refine hs.move q hthread hlk hpt (Or.inl hlock) hq ?_
  have hkeep : ∀ r, (s.thread r).waits = true →
      s'.locked = true ∨ ∃ h, (s'.thread h).pc = .relWake := by
    intro r hr
    rcases hs.awaited r hr with hl | ⟨h, hh⟩
    · exact Or.inl (hlock.1.trans hl)
    · refine Or.inr ⟨h, ?_⟩
      rwa [hthread h]
      rintro rfl
      exact hwake hh
  intro r hr
  by_cases hrq : r = q
  · rw [hrq] at hr
    rcases hwaits hr with h | h
    · exact hkeep q h
    · exact Or.inl (hlock.1.trans h)
  · rw [hthread r hrq] at hr
    exact hkeep r hr

/-- Waking processes does not touch anything else that is known of them. -/
theorem Local.waken {s : St ι} {r : ι} {t u : Thread} (h : Local s r t) (hpc : u.pc = t.pc)
    (howns : u.owns = t.owns) (hsleeping : u.sleeping = true → t.sleeping = true) :
    Local s r u where
  lk_iff := by rw [hpc]; exact h.lk_iff
  ptable_iff := by rw [hpc]; exact h.ptable_iff
  pid_iff := by rw [hpc, howns]; exact h.pid_iff
  asleep hsl := hpc.trans (h.asleep (hsleeping hsl))
  mustWait := by rw [hpc]; exact h.mustWait
  mayTake := by rw [hpc]; exact h.mayTake
  grips := by rw [hpc, howns]; exact h.grips
  answer := by rw [hpc, howns]; exact h.answer

theorem Inv.waken {s : St ι} (hs : Inv s) {thread : ι → Thread}
    (hpc : ∀ r, (thread r).pc = (s.thread r).pc) (howns : ∀ r, (thread r).owns = (s.thread r).owns)
    (hsleeping : ∀ r, (thread r).sleeping = true → (s.thread r).sleeping = true) :
    Inv { s with thread := thread } where
  local_ r :=
    let h := (hs.local_ r).waken (hpc r) (howns r) (hsleeping r)
    { h with }
  locked_iff := hs.locked_iff
  awaited r hr := by
    have hold : (s.thread r).waits = true := by
      simp only [Thread.waits, Bool.or_eq_true, decide_eq_true_eq] at hr ⊢
      rw [hpc r] at hr
      exact hr.imp_left (hsleeping r)
    rcases hs.awaited r hold with hl | ⟨h, hh⟩
    · exact Or.inl hl
    · exact Or.inr ⟨h, (hpc h).trans hh⟩

end Invariant

section Preservation
variable {ι : Type*}

theorem init_inv {s : St ι} (h : Initial s) : Inv s := by
  obtain ⟨hlocked, hpid, hlk, hpt, hthread⟩ := h
  refine ⟨fun q => ?_, by simp [hlocked, hpid], fun q hq => ?_⟩
  · obtain ⟨hpc, hsl, howns⟩ := hthread q
    constructor <;> simp [hlocked, hpid, hlk, hpt, hpc, hsl, howns, Pc.holds, Pc.holdsTable, Pc.grips]
  · obtain ⟨hpc, hsl, -⟩ := hthread q
    simp [Thread.waits, hpc, hsl] at hq

variable [DecidableEq ι]

/-- A process that waits nowhere takes the free `lk->lk`. -/
theorem Inv.acquireLk {s s' : St ι} (hs : Inv s) {q : ι} {pc : Pc}
    (h : s.acquireLk q pc = some s') (hold : (s.thread q).pc.holds = false)
    (hidle : (s.thread q).pc.holdsTable = false) (hasleep : (s.thread q).pc ≠ .asleep)
    (hpc : pc = .test ∨ pc = .relClear ∨ pc = .holdTest)
    (hgrips : (s.thread q).pc.grips = pc.grips) : Inv s' := by
  unfold St.acquireLk at h
  split_ifs at h with hfree
  obtain rfl := Option.some.inj h
  have hq := hs.local_ q
  have hsl := hs.awake hasleep
  refine hs.advance q (fun r hr => by simp [St.goto, hr]) ?_ (fun _ _ => Iff.rfl) ⟨rfl, rfl⟩ ?_ ?_ ?_
  · intro r hr
    change some q = some r ↔ _
    simp [hfree, Ne.symm hr]
  · have hpid := hq.pid_iff
    have hg := hq.grips
    have hp := hq.ptable_iff
    rw [hgrips] at hpid hg
    rw [hidle] at hp
    constructor <;> rcases hpc with rfl | rfl | rfl <;>
      simp_all [St.goto, Pc.holds, Pc.holdsTable, Pc.grips]
  · intro hc
    simp [hc, Pc.holds] at hold
  · rcases hpc with rfl | rfl | rfl <;> simp [St.goto, Thread.waits, hsl]

/-- A step of `q` to another place at which it holds the same locks. -/
theorem Inv.goto {s : St ι} (hs : Inv s) {q : ι} {pc : Pc}
    (hholds : pc.holds = (s.thread q).pc.holds)
    (htable : pc.holdsTable = (s.thread q).pc.holdsTable)
    (hgrips : pc.grips = (s.thread q).pc.grips) (hsleeping : (s.thread q).sleeping = false)
    (hmust : pc = .sleep ∨ pc = .sleepDrop → s.locked = true)
    (hmay : pc = .take → s.locked = false)
    (hanswer : ∀ r, pc = .holdRelease r → r = (s.thread q).owns)
    (hwake : (s.thread q).pc ≠ .relWake) (hmark : pc ≠ .sleepMark) : Inv (s.goto q pc) := by
  have hq := hs.local_ q
  refine hs.advance q (fun r hr => by simp [St.goto, hr]) (fun _ _ => Iff.rfl)
    (fun _ _ => Iff.rfl) ⟨rfl, rfl⟩ ?_ hwake (by simp [St.goto, Thread.waits, hsleeping, hmark])
  have ht : (s.goto q pc).thread q = { s.thread q with pc := pc } := by simp [St.goto]
  rw [ht]
  exact {
    lk_iff := by rw [hholds]; exact hq.lk_iff
    ptable_iff := by rw [htable]; exact hq.ptable_iff
    pid_iff := by rw [hgrips]; exact hq.pid_iff
    asleep := by simp [hsleeping]
    mustWait := hmust
    mayTake := hmay
    grips := by rw [hgrips]; exact hq.grips
    answer := hanswer }

/-- A process that holds `lk->lk` releases it. -/
theorem Inv.release {s : St ι} (hs : Inv s) {q : ι} {t : Thread}
    (hholds : (s.thread q).pc.holds = true) (ht : t.pc.holds = false)
    (htable : t.pc.holdsTable = (s.thread q).pc.holdsTable) (hsleeping : t.sleeping = false)
    (hpid : (t.pc.grips = true ∨ t.owns = true) ↔
      (s.thread q).pc.grips = true ∨ (s.thread q).owns = true)
    (hgrips : t.pc.grips = true → t.owns = false) (hwake : (s.thread q).pc ≠ .relWake)
    (hmark : t.pc = .sleepMark → s.locked = true) :
    Inv ({ s with lk := none }.setThread q fun _ => t) := by
  have hq := hs.local_ q
  have hlk := hq.lk_iff.mpr hholds
  refine hs.advance q (fun r hr => by simp [hr]) ?_ (fun _ _ => Iff.rfl) ⟨rfl, rfl⟩ ?_ hwake ?_
  · intro r hr
    change none = some r ↔ _
    simp [hlk, Ne.symm hr]
  · have htq : (({ s with lk := none } : St ι).setThread q fun _ => t).thread q = t := by simp
    rw [htq]
    exact {
      lk_iff := by simp [ht]
      ptable_iff := by rw [htable]; exact hq.ptable_iff
      pid_iff := by rw [hpid]; exact hq.pid_iff
      asleep := by simp [hsleeping]
      mustWait := by rintro (h | h) <;> simp [h, Pc.holds] at ht
      mayTake := by intro h; simp [h, Pc.holds] at ht
      grips := hgrips
      answer := by intro r h; simp [h, Pc.holds] at ht }
  · intro hw
    right
    simp only [setThread_thread, if_pos, Thread.waits, hsleeping, Bool.false_or,
      decide_eq_true_eq] at hw
    exact hmark hw

/-- `lk->locked = 1; lk->pid = myproc()->pid`: nobody had the lock. -/
theorem Inv.take {s : St ι} (hs : Inv s) {q : ι} (hpc : (s.thread q).pc = .take) :
    Inv ({ s with locked := true, pid := some q }.goto q .taken) := by
  have hq := hs.local_ q
  have hfree : s.locked = false := hq.mayTake hpc
  have hpid : s.pid = none := by
    have := hs.locked_iff
    rw [hfree] at this
    simpa using this.symm
  have howns : (s.thread q).owns = false := by
    have := hq.pid_iff
    simpa [hpid, hpc, Pc.grips] using this
  have hsl := hs.awake (q := q) (by simp [hpc])
  refine hs.move q (fun r hr => by simp [St.goto, hr]) (fun _ _ => Iff.rfl) (fun _ _ => Iff.rfl)
    (Or.inr ⟨by simp [hpc, Pc.holds], rfl, ?_⟩) ?_ (fun _ _ => Or.inl rfl)
  · intro r hr
    change some q = some r ↔ _
    simp [hpid, Ne.symm hr]
  · have hlk := hq.lk_iff
    have hpt := hq.ptable_iff
    simp only [hpc, Pc.holds, Pc.holdsTable] at hlk hpt
    constructor <;> simp [St.goto, Pc.holds, Pc.holdsTable, Pc.grips, howns, hsl, hlk, hpt]

/-- `lk->locked = 0; lk->pid = 0`: whoever waits will be woken by this very process. -/
theorem Inv.clear {s : St ι} (hs : Inv s) {q : ι} (hpc : (s.thread q).pc = .relClear) :
    Inv ({ s with locked := false, pid := none }.goto q .relWake) := by
  have hq := hs.local_ q
  have hpid : s.pid = some q := hq.pid_iff.mpr (Or.inl (by simp [hpc, Pc.grips]))
  have howns : (s.thread q).owns = false := hq.grips (by simp [hpc, Pc.grips])
  have hsl := hs.awake (q := q) (by simp [hpc])
  refine hs.move q (fun r hr => by simp [St.goto, hr]) (fun _ _ => Iff.rfl) (fun _ _ => Iff.rfl)
    (Or.inr ⟨by simp [hpc, Pc.holds], rfl, ?_⟩) ?_ (fun _ _ => Or.inr ⟨q, by simp [St.goto]⟩)
  · intro r hr
    change none = some r ↔ _
    simp [hpid, Ne.symm hr]
  · have hlk := hq.lk_iff
    have hpt := hq.ptable_iff
    simp only [hpc, Pc.holds, Pc.holdsTable] at hlk hpt
    constructor <;> simp [St.goto, Pc.holds, Pc.holdsTable, Pc.grips, howns, hsl, hlk, hpt]

/-- `wakeup(lk)`, with `ptable.lock` free: nobody is left SLEEPING, and nobody is between
dropping `lk->lk` and marking itself. -/
theorem Inv.wakeup {s : St ι} (hs : Inv s) {q : ι} (hpc : (s.thread q).pc = .relWake)
    (hfree : s.ptable = none) : Inv (s.wakeup1.goto q .relRelease) := by
  have hw : Inv s.wakeup1 := hs.waken (fun _ => rfl) (fun _ => rfl) (by simp)
  have hq := hs.local_ q
  have hlk := hq.lk_iff
  have hpt := hq.ptable_iff
  have hpid := hq.pid_iff
  refine hw.move q (fun r hr => by simp [St.goto, hr]) (fun _ _ => Iff.rfl) (fun _ _ => Iff.rfl)
    (Or.inl ⟨rfl, rfl⟩) ?_ ?_
  · simp only [hpc, Pc.holds, Pc.holdsTable, Pc.grips] at hlk hpt hpid
    constructor <;> simp [St.goto, St.wakeup1, Pc.holds, Pc.holdsTable, Pc.grips, hlk, hpt, hpid]
  · intro r hr
    have hnone : (s.wakeup1.thread r).pc ≠ .sleepMark := by
      intro h
      have := (hw.local_ r).ptable_iff.mpr (by simp [h, Pc.holdsTable])
      change s.ptable = some r at this
      simp [hfree] at this
    by_cases hrq : r = q
    · simp [St.goto, hrq, Thread.waits, St.wakeup1] at hr
    · simp only [St.goto, setThread_thread, hrq, if_false, Thread.waits, Bool.or_eq_true,
        decide_eq_true_eq] at hr
      rcases hr with h | h
      · simp [St.wakeup1] at h
      · exact absurd h hnone

/-- `sleep` takes `ptable.lock`. -/
theorem Inv.acquireTable {s : St ι} (hs : Inv s) {q : ι} (hpc : (s.thread q).pc = .sleep)
    (hfree : s.ptable = none) : Inv ({ s with ptable := some q }.goto q .sleepDrop) := by
  have hq := hs.local_ q
  have hlk := hq.lk_iff
  have hpid := hq.pid_iff
  have hsl := hs.awake (q := q) (by simp [hpc])
  have hmust := hq.mustWait (Or.inl hpc)
  refine hs.advance q (fun r hr => by simp [St.goto, hr]) (fun _ _ => Iff.rfl) ?_ ⟨rfl, rfl⟩ ?_
    (by simp [hpc]) (fun _ => Or.inr hmust)
  · intro r hr
    change some q = some r ↔ _
    simp [hfree, Ne.symm hr]
  · simp only [hpc, Pc.holds, Pc.grips] at hlk hpid
    constructor <;>
      simp [St.goto, Pc.holds, Pc.holdsTable, Pc.grips, hsl, hlk, hpid, hmust]

/-- `sleep` marks its caller SLEEPING; `sched` gives `ptable.lock` away. -/
theorem Inv.fallAsleep {s : St ι} (hs : Inv s) {q : ι} (hpc : (s.thread q).pc = .sleepMark) :
    Inv ({ s with ptable := none }.setThread q
      (fun t => { t with pc := .asleep, sleeping := true })) := by
  have hq := hs.local_ q
  have hlk := hq.lk_iff
  have hpid := hq.pid_iff
  have hpt := hq.ptable_iff.mpr (by simp [hpc, Pc.holdsTable])
  refine hs.advance q (fun r hr => by simp [hr]) (fun _ _ => Iff.rfl) ?_ ⟨rfl, rfl⟩ ?_
    (by simp [hpc]) (fun _ => Or.inl (by simp [Thread.waits, hpc]))
  · intro r hr
    change none = some r ↔ _
    simp [hpt, Ne.symm hr]
  · simp only [hpc, Pc.holds, Pc.grips] at hlk hpid
    constructor <;> simp [Pc.holds, Pc.holdsTable, Pc.grips, hlk, hpid]

theorem stepOf_inv {s s' : St ι} {q : ι} (hs : Inv s) (h : stepOf s q = some s') : Inv s' := by
  have hq := hs.local_ q
  cases hpc : (s.thread q).pc with
  | idle => simp [stepOf, hpc] at h
  | acquire =>
    simp only [stepOf, hpc] at h
    exact hs.acquireLk h (by simp [hpc, Pc.holds]) (by simp [hpc, Pc.holdsTable]) (by simp [hpc])
      (Or.inl rfl) (by simp [hpc, Pc.grips])
  | test =>
    simp only [stepOf, hpc] at h
    obtain rfl := Option.some.inj h
    have hsl := hs.awake (q := q) (by simp [hpc])
    split_ifs with hl
    · exact hs.goto (by simp [hpc, Pc.holds]) (by simp [hpc, Pc.holdsTable])
        (by simp [hpc, Pc.grips]) hsl (fun _ => hl) (by simp) (by simp) (by simp [hpc]) (by simp)
    · exact hs.goto (by simp [hpc, Pc.holds]) (by simp [hpc, Pc.holdsTable])
        (by simp [hpc, Pc.grips]) hsl (by simp) (fun _ => by simpa using hl) (by simp)
        (by simp [hpc]) (by simp)
  | sleep =>
    simp only [stepOf, hpc] at h
    split_ifs at h with hfree
    obtain rfl := Option.some.inj h
    exact hs.acquireTable hpc hfree
  | sleepDrop =>
    simp only [stepOf, hpc] at h
    obtain rfl := Option.some.inj h
    exact hs.release (t := { s.thread q with pc := .sleepMark }) (by simp [hpc, Pc.holds]) rfl
      (by simp [hpc, Pc.holdsTable]) (hs.awake (by simp [hpc])) (by simp [hpc, Pc.grips])
      (by simp [Pc.grips]) (by simp [hpc]) (fun _ => hq.mustWait (Or.inr hpc))
  | sleepMark =>
    simp only [stepOf, hpc] at h
    obtain rfl := Option.some.inj h
    exact hs.fallAsleep hpc
  | asleep =>
    simp only [stepOf, hpc] at h
    split_ifs at h with hwoken
    obtain rfl := Option.some.inj h
    exact hs.goto (by simp [hpc, Pc.holds]) (by simp [hpc, Pc.holdsTable])
      (by simp [hpc, Pc.grips]) hwoken.1 (by simp) (by simp) (by simp) (by simp [hpc]) (by simp)
  | take =>
    simp only [stepOf, hpc] at h
    obtain rfl := Option.some.inj h
    exact hs.take hpc
  | taken =>
    simp only [stepOf, hpc] at h
    obtain rfl := Option.some.inj h
    exact hs.release (t := { s.thread q with pc := .idle, owns := true }) (by simp [hpc, Pc.holds])
      rfl (by simp [hpc, Pc.holdsTable]) (hs.awake (by simp [hpc])) (by simp [hpc, Pc.grips])
      (by simp [Pc.grips]) (by simp [hpc]) (by simp)
  | relAcquire =>
    simp only [stepOf, hpc] at h
    exact hs.acquireLk h (by simp [hpc, Pc.holds]) (by simp [hpc, Pc.holdsTable]) (by simp [hpc])
      (Or.inr (Or.inl rfl)) (by simp [hpc, Pc.grips])
  | relClear =>
    simp only [stepOf, hpc] at h
    obtain rfl := Option.some.inj h
    exact hs.clear hpc
  | relWake =>
    simp only [stepOf, hpc] at h
    split_ifs at h with hfree
    obtain rfl := Option.some.inj h
    exact hs.wakeup hpc hfree
  | relRelease =>
    simp only [stepOf, hpc] at h
    obtain rfl := Option.some.inj h
    exact hs.release (t := { s.thread q with pc := .idle }) (by simp [hpc, Pc.holds]) rfl
      (by simp [hpc, Pc.holdsTable]) (hs.awake (by simp [hpc])) (by simp [hpc, Pc.grips])
      (by simp [Pc.grips]) (by simp [hpc]) (by simp)
  | holdAcquire =>
    simp only [stepOf, hpc] at h
    exact hs.acquireLk h (by simp [hpc, Pc.holds]) (by simp [hpc, Pc.holdsTable]) (by simp [hpc])
      (Or.inr (Or.inr rfl)) (by simp [hpc, Pc.grips])
  | holdTest =>
    simp only [stepOf, hpc] at h
    obtain rfl := Option.some.inj h
    have hpid := hq.pid_iff
    have hlocked := hs.locked_iff
    refine hs.goto (by simp [hpc, Pc.holds]) (by simp [hpc, Pc.holdsTable])
      (by simp [hpc, Pc.grips]) (hs.awake (by simp [hpc])) (by simp) (by simp) ?_ (by simp [hpc])
      (by simp)
    intro r hr
    obtain rfl := Pc.holdRelease.inj hr
    simp only [hpc, Pc.grips, Bool.false_eq_true, false_or] at hpid
    rw [hlocked]
    by_cases howns : (s.thread q).owns = true
    · simp [hpid.mpr howns, howns]
    · have : s.pid ≠ some q := fun h => howns (hpid.mp h)
      simp [this, howns]
  | holdRelease r =>
    simp only [stepOf, hpc] at h
    obtain rfl := Option.some.inj h
    exact hs.release (t := { s.thread q with pc := .idle }) (by simp [hpc, Pc.holds]) rfl
      (by simp [hpc, Pc.holdsTable]) (hs.awake (by simp [hpc])) (by simp [hpc, Pc.grips])
      (by simp [Pc.grips]) (by simp [hpc]) (by simp)

theorem next_inv {s s' : St ι} {e : Event ι} (hs : Inv s) (h : next s e = some s') : Inv s' := by
  cases e with
  | step q => exact stepOf_inv hs h
  | acquiresleep q =>
    simp only [next] at h
    split_ifs at h with hpc
    obtain rfl := Option.some.inj h
    exact hs.goto (by simp [hpc, Pc.holds]) (by simp [hpc, Pc.holdsTable])
      (by simp [hpc, Pc.grips]) (hs.awake (by simp [hpc])) (by simp) (by simp) (by simp)
      (by simp [hpc]) (by simp)
  | releasesleep q =>
    simp only [next] at h
    split_ifs at h with hpc
    obtain rfl := Option.some.inj h
    obtain ⟨hpc, howns⟩ := hpc
    have hq := hs.local_ q
    have hlk := hq.lk_iff
    have hpt := hq.ptable_iff
    have hpid := hq.pid_iff
    have hsl := hs.awake (q := q) (by simp [hpc])
    refine hs.advance q (fun r hr => by simp [hr]) (fun _ _ => Iff.rfl) (fun _ _ => Iff.rfl)
      ⟨rfl, rfl⟩ ?_ (by simp [hpc]) (by simp [Thread.waits, hsl])
    simp only [hpc, howns, Pc.holds, Pc.holdsTable] at hlk hpt hpid
    constructor <;> simp [Pc.holds, Pc.holdsTable, Pc.grips, hlk, hpt, hpid, hsl]
  | holdingsleep q =>
    simp only [next] at h
    split_ifs at h with hpc
    obtain rfl := Option.some.inj h
    exact hs.goto (by simp [hpc, Pc.holds]) (by simp [hpc, Pc.holdsTable])
      (by simp [hpc, Pc.grips]) (hs.awake (by simp [hpc])) (by simp) (by simp) (by simp)
      (by simp [hpc]) (by simp)
  | kill q =>
    simp only [next] at h
    split_ifs at h
    obtain rfl := Option.some.inj h
    refine hs.waken (fun r => ?_) (fun r => ?_) (fun r => ?_) <;>
      simp only [Function.update_apply] <;> split_ifs with hr <;> simp [hr]

end Preservation

section Reachable
variable {ι : Type*} [DecidableEq ι] {s : St ι}

theorem reachable_inv (h : (system ι).Reachable s) : Inv s :=
  h.invariant (fun _ h₀ => init_inv h₀) fun _ _ _ hi hst => next_inv hi hst

/-- `holdingsleep` tells its caller whether it holds the lock. -/
theorem holdingsleep_answer (h : (system ι).Reachable s) {q : ι} {r : Bool}
    (hpc : (s.thread q).pc = .holdRelease r) : r = (s.thread q).owns :=
  ((reachable_inv h).local_ q).answer r hpc

/-- At most one process owns the sleep lock, and nobody sleeps on a lock that is free, as long
as `lk->lk` is free too. -/
theorem exclusive_and_awaited (h : (system ι).Reachable s) :
    (∀ q r, (s.thread q).owns = true → (s.thread r).owns = true → q = r) ∧
      (s.lk = none → ∀ q, (s.thread q).sleeping = true → s.locked = true) := by
  have hs := reachable_inv h
  constructor
  · intro q r hq hr
    have hpq := (hs.local_ q).pid_iff.mpr (Or.inr hq)
    rw [(hs.local_ r).pid_iff.mpr (Or.inr hr)] at hpq
    exact (Option.some.inj hpq).symm
  · intro hlk q hq
    rcases hs.awaited q (by simp [Thread.waits, hq]) with hl | ⟨w, hw⟩
    · exact hl
    · have := (hs.local_ w).lk_iff.mpr (by simp [hw, Pc.holds])
      simp [hlk] at this

end Reachable

def initialized : St (Fin 2) := ⟨false, none, none, none, fun _ => ⟨.idle, false, false, false⟩⟩

local instance two_neZero : NeZero 2 := ⟨by decide⟩

/-- One process takes the lock and the other falls asleep on it. -/
def oneWaits : List (Event (Fin 2)) :=
  .acquiresleep 0 :: List.replicate 4 (.step 0) ++ .acquiresleep 1 :: List.replicate 5 (.step 1)

theorem exclusive_and_awaited_oneWaits : ∃ s : St (Fin 2), (system (Fin 2)).Reachable s ∧
    (s.thread 0).owns = true ∧ (s.thread 1).sleeping = true ∧ s.lk = none ∧ s.locked = true ∧
    ∀ q, (s.thread q).owns = true → q = 0 := by
  have hrun : (runNext next initialized oneWaits).any (fun s =>
      (s.thread 0).owns && (s.thread 1).sleeping && s.lk = none) = true := by decide
  obtain ⟨s, hs, hp⟩ := (Option.any_eq_true ..).mp hrun
  simp only [Bool.and_eq_true, decide_eq_true_eq] at hp
  have hreach : (system (Fin 2)).Reachable s :=
    ⟨initialized, oneWaits, ⟨rfl, rfl, rfl, rfl, fun _ => ⟨rfl, rfl, rfl⟩⟩, run_of_runNext hs⟩
  obtain ⟨hone, hwait⟩ := exclusive_and_awaited hreach
  exact ⟨s, hreach, hp.1.1, hp.1.2, hp.2, hwait hp.2 1 hp.1.2, fun q hq => hone q 0 hq hp.1.1⟩

end Ostep.SleepLock

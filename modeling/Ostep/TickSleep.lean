import Ostep.TransitionSystem
import Mathlib.Algebra.Ring.Nat
import Mathlib.Logic.Function.Basic
import Mathlib.Data.Fin.Basic

/-!
# Sleeping for a number of ticks

The timer interrupt of cpu 0 counts `ticks`, and any number of processes wait in `sys_sleep`,
whose argument has been fetched; a process may be killed at any time. `tickslock` and
`ptable.lock` are explicit. A step is one acquire or release of a lock, one access to `ticks`,
or one critical section on `ptable.lock`; inside `sleep` the caller takes `ptable.lock`, drops
`tickslock` and marks itself SLEEPING in three steps.

`count` is a history variable: the timer interrupts since boot, of which `ticks` keeps 32 bits.
`start` is its value when `ticks0` was read.
-/

namespace Ostep.TickSleep
open TransitionSystem

inductive Party (ι : Type*) where
  | timer
  | proc (q : ι)
  deriving DecidableEq

inductive TimerPc where
  /-- No interrupt, or one that waits for `tickslock`. -/
  | idle
  /-- `ticks++`. -/
  | bump
  /-- `wakeup(&ticks)`. -/
  | wake
  /-- `release(&tickslock)`. -/
  | release
  deriving DecidableEq

inductive Pc where
  | idle
  /-- `acquire(&tickslock)`. -/
  | acquire
  /-- `ticks0 = ticks`. -/
  | start
  /-- `while(ticks - ticks0 < n)`. -/
  | test
  /-- `if(myproc()->killed)`. -/
  | check
  /-- `sleep`: `acquire(&ptable.lock)`. -/
  | sleep
  /-- `sleep`: `release(lk)`. -/
  | sleepDrop
  /-- `sleep`: `p->chan = chan; p->state = SLEEPING; sched()`. -/
  | sleepMark
  | asleep
  /-- `sleep`: `acquire(lk)`. -/
  | reacquire
  /-- `release(&tickslock); return r`. -/
  | leave (r : Int)
  deriving DecidableEq

structure Thread where
  pc : Pc
  /-- SLEEPING on `&ticks`. -/
  sleeping : Bool
  killed : Bool
  /-- The `int` of the caller, as the comparison reads it: unsigned. -/
  n : BitVec 32
  ticks0 : BitVec 32
  start : Nat
  /-- What the last call returned. -/
  answer : Option Int
  deriving DecidableEq

structure St (ι : Type*) where
  ticks : BitVec 32
  count : Nat
  tickslock : Option (Party ι)
  ptable : Option ι
  timer : TimerPc
  thread : ι → Thread

section Steps
variable {ι : Type*} [DecidableEq ι]

def St.setThread (s : St ι) (q : ι) (f : Thread → Thread) : St ι :=
  { s with thread := Function.update s.thread q (f (s.thread q)) }

def St.goto (s : St ι) (q : ι) (pc : Pc) : St ι := s.setThread q (fun t => { t with pc := pc })

/-- `acquire(&tickslock)`. -/
def St.acquireTicks (s : St ι) (q : ι) (pc : Pc) : Option (St ι) :=
  if s.tickslock = none then some ({ s with tickslock := some (.proc q) }.goto q pc) else none

/-- The next step of process `q`; `none` when it has none or waits for a lock. -/
def stepOf (s : St ι) (q : ι) : Option (St ι) :=
  match (s.thread q).pc with
  | .idle => none
  | .acquire => s.acquireTicks q .start
  | .start =>
    some (s.setThread q (fun t => { t with pc := .test, ticks0 := s.ticks, start := s.count }))
  | .test =>
    some (s.goto q (if s.ticks - (s.thread q).ticks0 < (s.thread q).n then .check else .leave 0))
  | .check => some (s.goto q (if (s.thread q).killed then .leave (-1) else .sleep))
  | .sleep =>
    if s.ptable = none then some ({ s with ptable := some q }.goto q .sleepDrop) else none
  | .sleepDrop => some ({ s with tickslock := none }.goto q .sleepMark)
  | .sleepMark =>
    some ({ s with ptable := none }.setThread q
      (fun t => { t with pc := .asleep, sleeping := true }))
  | .asleep =>
    if (s.thread q).sleeping = false ∧ s.ptable = none then some (s.goto q .reacquire) else none
  | .reacquire => s.acquireTicks q .test
  | .leave r =>
    some ({ s with tickslock := none }.setThread q
      (fun t => { t with pc := .idle, answer := some r }))

/-- `wakeup1(&ticks)`. -/
def St.wakeup1 (s : St ι) : St ι :=
  { s with thread := fun q => { s.thread q with sleeping := false } }

/-- The timer interrupt on cpu 0. -/
def timerStep (s : St ι) : Option (St ι) :=
  match s.timer with
  | .idle =>
    if s.tickslock = none then some { s with tickslock := some .timer, timer := .bump } else none
  | .bump => some { s with ticks := s.ticks + 1, count := s.count + 1, timer := .wake }
  | .wake => if s.ptable = none then some { s.wakeup1 with timer := .release } else none
  | .release => some { s with tickslock := none, timer := .idle }

inductive Event (ι : Type*) where
  | timer
  | step (q : ι)
  | sys_sleep (q : ι) (n : BitVec 32)
  | kill (q : ι)

def next (s : St ι) : Event ι → Option (St ι)
  | .timer => timerStep s
  | .step q => stepOf s q
  | .sys_sleep q n =>
    if (s.thread q).pc = .idle then
      some (s.setThread q (fun t => { t with pc := .acquire, n := n, answer := none }))
    else none
  | .kill q =>
    if s.ptable = none then
      some (s.setThread q (fun t => { t with killed := true, sleeping := false }))
    else none

def Initial (s : St ι) : Prop :=
  s.ticks = 0 ∧ s.count = 0 ∧ s.tickslock = none ∧ s.ptable = none ∧ s.timer = .idle ∧
    ∀ q, (s.thread q).pc = .idle ∧ (s.thread q).sleeping = false ∧ (s.thread q).answer = none

def system (ι : Type*) [DecidableEq ι] : System (St ι) (Event ι) := .ofNext Initial next

@[simp] theorem setThread_thread (s : St ι) (q r : ι) (f : Thread → Thread) :
    (s.setThread q f).thread r = if r = q then f (s.thread q) else s.thread r := by
  simp [St.setThread, Function.update_apply]

@[simp] theorem setThread_ticks (s : St ι) (q : ι) (f : Thread → Thread) :
    (s.setThread q f).ticks = s.ticks := rfl

@[simp] theorem setThread_count (s : St ι) (q : ι) (f : Thread → Thread) :
    (s.setThread q f).count = s.count := rfl

@[simp] theorem setThread_tickslock (s : St ι) (q : ι) (f : Thread → Thread) :
    (s.setThread q f).tickslock = s.tickslock := rfl

@[simp] theorem setThread_ptable (s : St ι) (q : ι) (f : Thread → Thread) :
    (s.setThread q f).ptable = s.ptable := rfl

@[simp] theorem setThread_timer (s : St ι) (q : ι) (f : Thread → Thread) :
    (s.setThread q f).timer = s.timer := rfl

end Steps

/-! ## The invariant -/

/-- The places at which a process holds `tickslock`. -/
def Pc.holds : Pc → Bool
  | .start | .test | .check | .sleep | .sleepDrop | .leave _ => true
  | _ => false

/-- The places at which a process holds `ptable.lock`. -/
def Pc.holdsTable : Pc → Bool
  | .sleepDrop | .sleepMark => true
  | _ => false

/-- `ticks0` has been read. -/
def Pc.began : Pc → Bool
  | .idle | .acquire | .start => false
  | _ => true

/-- The loop's test has just found that the time is not up. -/
def Pc.early : Pc → Bool
  | .check | .sleep | .sleepDrop => true
  | _ => false

def TimerPc.holds : TimerPc → Bool
  | .idle => false
  | _ => true

/-- SLEEPING on `&ticks`, or about to be, with `tickslock` already dropped. -/
def Thread.waits (t : Thread) : Bool := t.sleeping || t.pc = .sleepMark

/-- The time of the call is not up, as the loop's test sees it. -/
def Thread.Early (t : Thread) (ticks : BitVec 32) : Prop := ticks - t.ticks0 < t.n

/-- What the answers of `sys_sleep` mean. -/
def Thread.Earned (t : Thread) (count : Nat) (r : Int) : Prop :=
  (r = 0 ∧ t.start + t.n.toNat ≤ count) ∨ (r = -1 ∧ t.killed = true)

/-- What is known of one process by its place in the code. -/
structure Local {ι : Type*} (s : St ι) (q : ι) (t : Thread) : Prop where
  tickslock_iff : s.tickslock = some (.proc q) ↔ t.pc.holds = true
  ptable_iff : s.ptable = some q ↔ t.pc.holdsTable = true
  asleep : t.sleeping = true → t.pc = .asleep
  began : t.pc.began = true → t.ticks0 = BitVec.ofNat 32 t.start ∧ t.start ≤ s.count
  early : t.pc.early = true → t.Early s.ticks
  busy : t.pc ≠ .idle → t.answer = none
  leave : ∀ r, t.pc = .leave r → t.Earned s.count r
  answer : ∀ r, t.answer = some r → t.Earned s.count r

structure Inv {ι : Type*} (s : St ι) : Prop where
  local_ : ∀ q, Local s q (s.thread q)
  ticks_eq : s.ticks = BitVec.ofNat 32 s.count
  timer_iff : s.tickslock = some .timer ↔ s.timer.holds = true
  awaited : ∀ q, (s.thread q).waits = true → (s.thread q).Early s.ticks ∨ s.timer = .wake

theorem Thread.Earned.mono {t : Thread} {c c' : Nat} {r : Int} (h : t.Earned c r) (hc : c ≤ c') :
    t.Earned c' r :=
  h.imp_left (And.imp_right hc.trans')

/-- However often `ticks` has wrapped, enough interrupts have come when the test says so. -/
theorem Thread.reached {t : Thread} {count : Nat} (h₀ : t.ticks0 = BitVec.ofNat 32 t.start)
    (hle : t.start ≤ count) (h : ¬t.Early (BitVec.ofNat 32 count)) :
    t.start + t.n.toNat ≤ count := by
  have hdiff : (BitVec.ofNat 32 count - t.ticks0).toNat ≤ count - t.start := by
    rw [h₀, BitVec.toNat_sub, BitVec.toNat_ofNat, BitVec.toNat_ofNat]
    omega
  have hn : t.n.toNat ≤ (BitVec.ofNat 32 count - t.ticks0).toNat := by
    simpa [Thread.Early, BitVec.lt_def] using h
  omega

/-- A lock stays with whom it is, or `x` takes it or lets it go. -/
def Handed {α : Type*} (x : α) (a b : Option α) : Prop :=
  b = a ∨ (a = none ∧ b = some x) ∨ (a = some x ∧ b = none)

theorem Handed.others {α : Type*} {x y : α} {a b : Option α} (h : Handed x a b) (hy : y ≠ x) :
    b = some y ↔ a = some y := by
  rcases h with rfl | ⟨rfl, rfl⟩ | ⟨rfl, rfl⟩
  · rfl
  · simp [Ne.symm hy]
  · simp [Ne.symm hy]

section Invariant
variable {ι : Type*}

/-- A process that is not asleep is not SLEEPING on `&ticks`. -/
theorem Inv.awake {s : St ι} (hs : Inv s) {q : ι} (h : (s.thread q).pc ≠ .asleep) :
    (s.thread q).sleeping = false := by
  by_contra hc
  exact h ((hs.local_ q).asleep (by simpa using hc))

/-- A process keeps what is known of it when the locks change hands elsewhere, and `ticks`
changes only under `tickslock`. -/
theorem Local.frame {s s' : St ι} {r : ι} {t : Thread} (h : Local s r t)
    (htl : s'.tickslock = some (.proc r) ↔ s.tickslock = some (.proc r))
    (hpt : s'.ptable = some r ↔ s.ptable = some r) (hcount : s.count ≤ s'.count)
    (hticks : s'.ticks = s.ticks ∨ t.pc.holds = false) : Local s' r t where
  tickslock_iff := htl.trans h.tickslock_iff
  ptable_iff := hpt.trans h.ptable_iff
  asleep := h.asleep
  began hb := ⟨(h.began hb).1, (h.began hb).2.trans hcount⟩
  early he := by
    rcases hticks with ht | ht
    · rw [ht]
      exact h.early he
    · cases hpc : t.pc <;> simp [hpc, Pc.early, Pc.holds] at he ht
  busy := h.busy
  leave r hr := (h.leave r hr).mono hcount
  answer r hr := (h.answer r hr).mono hcount

/-- Waking or killing a process does not touch anything else that is known of it. -/
theorem Local.waken {s : St ι} {r : ι} {t : Thread} (h : Local s r t) {k : Bool}
    (hk : t.killed = true → k = true) : Local s r { t with sleeping := false, killed := k } where
  tickslock_iff := h.tickslock_iff
  ptable_iff := h.ptable_iff
  asleep hsl := by simp at hsl
  began := h.began
  early := h.early
  busy := h.busy
  leave r hr := (h.leave r hr).imp_right (And.imp_right hk)
  answer r hr := (h.answer r hr).imp_right (And.imp_right hk)

/-- A step of `q` alone. -/
theorem Inv.process {s s' : St ι} (hs : Inv s) (q : ι)
    (hthread : ∀ r, r ≠ q → s'.thread r = s.thread r)
    (hclock : s'.ticks = s.ticks ∧ s'.count = s.count ∧ s'.timer = s.timer)
    (htl : Handed (.proc q) s.tickslock s'.tickslock) (hpt : Handed q s.ptable s'.ptable)
    (hq : Local s' q (s'.thread q))
    (hwaits : (s'.thread q).waits = true → (s'.thread q).Early s'.ticks ∨ s'.timer = .wake) :
    Inv s' := by
  obtain ⟨hticks, hcount, htimer⟩ := hclock
  refine ⟨fun r => ?_, by rw [hticks, hcount, hs.ticks_eq], ?_, fun r hr => ?_⟩
  · by_cases hr : r = q
    · rw [hr]
      exact hq
    · rw [hthread r hr]
      exact (hs.local_ r).frame (htl.others (by simpa using hr)) (hpt.others hr) hcount.ge
        (Or.inl hticks)
  · rw [htimer, ← hs.timer_iff]
    exact htl.others (by simp)
  · by_cases hrq : r = q
    · rw [hrq] at hr ⊢
      exact hwaits hr
    · rw [hthread r hrq] at hr ⊢
      rw [hticks, htimer]
      exact hs.awaited r hr

end Invariant

section Preservation
variable {ι : Type*}

theorem init_inv {s : St ι} (h : Initial s) : Inv s := by
  obtain ⟨hticks, hcount, htl, hpt, htimer, hthread⟩ := h
  refine ⟨fun q => ?_, by simp [hticks, hcount], by simp [htl, htimer, TimerPc.holds],
    fun q hq => ?_⟩
  · obtain ⟨hpc, hsl, hans⟩ := hthread q
    constructor <;> simp [htl, hpt, hpc, hsl, hans, Pc.holds, Pc.holdsTable, Pc.began, Pc.early]
  · obtain ⟨hpc, hsl, -⟩ := hthread q
    simp [Thread.waits, hpc, hsl] at hq

theorem timerStep_inv {s s' : St ι} (hs : Inv s) (h : timerStep s = some s') : Inv s' := by
  have hheld : s.timer ≠ .idle → s.tickslock = some .timer := by
    intro ht
    rw [hs.timer_iff]
    cases htimer : s.timer <;> simp_all [TimerPc.holds]
  cases htimer : s.timer with
  | idle =>
    simp only [timerStep, htimer] at h
    split_ifs at h with hfree
    obtain rfl := Option.some.inj h
    refine ⟨fun q => (hs.local_ q).frame (by simp [hfree]) Iff.rfl le_rfl (Or.inl rfl),
      hs.ticks_eq, by simp [TimerPc.holds], fun q hq => ?_⟩
    rcases hs.awaited q hq with hearly | hwake
    · exact Or.inl hearly
    · simp [htimer] at hwake
  | bump =>
    simp only [timerStep, htimer] at h
    obtain rfl := Option.some.inj h
    have htl := hheld (by simp [htimer])
    refine ⟨fun q => (hs.local_ q).frame Iff.rfl Iff.rfl (Nat.le_succ _) (Or.inr ?_), ?_,
      by simp [htl, TimerPc.holds], fun _ _ => Or.inr rfl⟩
    · have hq := (hs.local_ q).tickslock_iff
      rw [htl] at hq
      simpa using hq
    · simp [hs.ticks_eq, BitVec.ofNat_add]
  | wake =>
    simp only [timerStep, htimer] at h
    split_ifs at h with hfree
    obtain rfl := Option.some.inj h
    have htl := hheld (by simp [htimer])
    refine ⟨fun q => ?_, hs.ticks_eq, by simp [St.wakeup1, htl, TimerPc.holds], fun q hq => ?_⟩
    · have h := (hs.local_ q).waken (k := (s.thread q).killed) id
      exact { h with }
    · -- nobody is on its way to sleep: that takes `ptable.lock`
      have hmark : (s.thread q).pc = .sleepMark := by
        rcases (Bool.or_eq_true _ _).mp hq with hsl | hmark
        · simp [St.wakeup1] at hsl
        · exact of_decide_eq_true hmark
      have := (hs.local_ q).ptable_iff.mpr (by simp [hmark, Pc.holdsTable])
      simp [hfree] at this
  | release =>
    simp only [timerStep, htimer] at h
    obtain rfl := Option.some.inj h
    have htl := hheld (by simp [htimer])
    refine ⟨fun q => (hs.local_ q).frame (by simp [htl]) Iff.rfl le_rfl (Or.inl rfl),
      hs.ticks_eq, by simp [TimerPc.holds], fun q hq => ?_⟩
    rcases hs.awaited q hq with hearly | hwake
    · exact Or.inl hearly
    · simp [htimer] at hwake

variable [DecidableEq ι]

/-- A process takes the free `tickslock` on its way in, or back from `sleep`. -/
theorem Inv.acquireTicks {s s' : St ι} (hs : Inv s) {q : ι} {pc : Pc}
    (h : s.acquireTicks q pc = some s')
    (hpc : (s.thread q).pc = .acquire ∧ pc = .start ∨ (s.thread q).pc = .reacquire ∧ pc = .test) :
    Inv s' := by
  unfold St.acquireTicks at h
  split_ifs at h with hfree
  obtain rfl := Option.some.inj h
  have hq := hs.local_ q
  have hpt : s.ptable ≠ some q := by
    rcases hpc with ⟨hpc, -⟩ | ⟨hpc, -⟩ <;> simp [hq.ptable_iff, hpc, Pc.holdsTable]
  have hsl := hs.awake (q := q) (by rcases hpc with ⟨hpc, -⟩ | ⟨hpc, -⟩ <;> simp [hpc])
  have hbusy := hq.busy (by rcases hpc with ⟨hpc, -⟩ | ⟨hpc, -⟩ <;> simp [hpc])
  refine hs.process q (fun r hr => by simp [St.goto, hr]) ⟨rfl, rfl, rfl⟩
    (Or.inr (Or.inl ⟨hfree, rfl⟩)) (Or.inl rfl) ?_ ?_
  · rcases hpc with ⟨-, rfl⟩ | ⟨hpc, rfl⟩
    · constructor <;>
        simp [St.goto, Pc.holds, Pc.holdsTable, Pc.began, Pc.early, hsl, hpt, hbusy]
    · have hbegan := hq.began (by simp [hpc, Pc.began])
      constructor <;> simp [St.goto, Pc.holds, Pc.holdsTable, Pc.early, hsl, hpt, hbegan, hbusy]
  · rcases hpc with ⟨-, rfl⟩ | ⟨-, rfl⟩ <;> simp [St.goto, Thread.waits, hsl]

/-- A step of `q` within the loop that keeps `tickslock`. -/
theorem Inv.keep {s : St ι} (hs : Inv s) {q : ι} {b : Option ι} {pc : Pc}
    (hold : (s.thread q).pc.holds = true) (hbegan : (s.thread q).pc.began = true)
    (hholds : pc.holds = true) (hb : b = some q ↔ pc.holdsTable = true)
    (hpt : Handed q s.ptable b) (hearly : pc.early = true → (s.thread q).Early s.ticks)
    (hleave : ∀ r, pc = .leave r → (s.thread q).Earned s.count r) :
    Inv ({ s with ptable := b }.goto q pc) := by
  have hq := hs.local_ q
  have hsl := hs.awake (q := q) (by rintro h; simp [h, Pc.holds] at hold)
  have hbusy := hq.busy (by rintro h; simp [h, Pc.holds] at hold)
  have hmark : pc ≠ .sleepMark := by
    rintro rfl
    simp [Pc.holds] at hholds
  refine hs.process q (fun r hr => by simp [St.goto, hr]) ⟨rfl, rfl, rfl⟩ (Or.inl rfl) hpt ?_
    (by simp [St.goto, Thread.waits, hsl, hmark])
  have ht : (({ s with ptable := b } : St ι).goto q pc).thread q =
      { s.thread q with pc := pc } := by
    simp [St.goto]
  rw [ht]
  exact {
    tickslock_iff := hq.tickslock_iff.trans (by simp [hold, hholds])
    ptable_iff := hb
    asleep := by simp [hsl]
    began := fun _ => hq.began hbegan
    early := hearly
    busy := fun _ => hbusy
    leave := hleave
    answer := hq.answer }

theorem stepOf_inv {s s' : St ι} {q : ι} (hs : Inv s) (h : stepOf s q = some s') : Inv s' := by
  have hq := hs.local_ q
  cases hpc : (s.thread q).pc with
  | idle => simp [stepOf, hpc] at h
  | acquire =>
    simp only [stepOf, hpc] at h
    exact hs.acquireTicks h (Or.inl ⟨hpc, rfl⟩)
  | start =>
    simp only [stepOf, hpc] at h
    obtain rfl := Option.some.inj h
    have hsl := hs.awake (q := q) (by simp [hpc])
    have htl := hq.tickslock_iff.mpr (by simp [hpc, Pc.holds])
    have hpt : s.ptable ≠ some q := by simp [hq.ptable_iff, hpc, Pc.holdsTable]
    have hbusy := hq.busy (by simp [hpc])
    refine hs.process q (fun r hr => by simp [hr]) ⟨rfl, rfl, rfl⟩ (Or.inl rfl) (Or.inl rfl) ?_
      (by simp [Thread.waits, hsl])
    constructor <;> simp [Pc.holds, Pc.holdsTable, Pc.early, htl, hpt, hsl, hbusy, hs.ticks_eq]
  | test =>
    simp only [stepOf, hpc] at h
    obtain rfl := Option.some.inj h
    have hpt : s.ptable = some q ↔ False := by simp [hq.ptable_iff, hpc, Pc.holdsTable]
    obtain ⟨h₀, hle⟩ := hq.began (by simp [hpc, Pc.began])
    refine hs.keep (b := s.ptable) (by simp [hpc, Pc.holds]) (by simp [hpc, Pc.began]) ?_ ?_
      (Or.inl rfl) ?_ ?_
    · split_ifs <;> rfl
    · rw [hpt]
      split_ifs <;> simp [Pc.holdsTable]
    · split_ifs with hearly
      · exact fun _ => hearly
      · simp [Pc.early]
    · split_ifs with hearly
      · simp
      · intro r hr
        rw [← Pc.leave.inj hr]
        exact Or.inl ⟨rfl, Thread.reached h₀ hle (hs.ticks_eq ▸ hearly)⟩
  | check =>
    simp only [stepOf, hpc] at h
    obtain rfl := Option.some.inj h
    have hpt : s.ptable = some q ↔ False := by simp [hq.ptable_iff, hpc, Pc.holdsTable]
    refine hs.keep (b := s.ptable) (by simp [hpc, Pc.holds]) (by simp [hpc, Pc.began]) ?_ ?_
      (Or.inl rfl) (fun _ => hq.early (by simp [hpc, Pc.early])) ?_
    · split_ifs <;> rfl
    · rw [hpt]
      split_ifs <;> simp [Pc.holdsTable]
    · split_ifs with hkilled
      · intro r hr
        rw [← Pc.leave.inj hr]
        exact Or.inr ⟨rfl, hkilled⟩
      · simp
  | sleep =>
    simp only [stepOf, hpc] at h
    split_ifs at h with hfree
    obtain rfl := Option.some.inj h
    exact hs.keep (by simp [hpc, Pc.holds]) (by simp [hpc, Pc.began]) rfl (by simp [Pc.holdsTable])
      (Or.inr (Or.inl ⟨hfree, rfl⟩)) (fun _ => hq.early (by simp [hpc, Pc.early])) (by simp)
  | sleepDrop =>
    simp only [stepOf, hpc] at h
    obtain rfl := Option.some.inj h
    have hsl := hs.awake (q := q) (by simp [hpc])
    have htl := hq.tickslock_iff.mpr (by simp [hpc, Pc.holds])
    have hpt := hq.ptable_iff.mpr (by simp [hpc, Pc.holdsTable])
    have hbegan := hq.began (by simp [hpc, Pc.began])
    have hbusy := hq.busy (by simp [hpc])
    refine hs.process q (fun r hr => by simp [St.goto, hr]) ⟨rfl, rfl, rfl⟩
      (Or.inr (Or.inr ⟨htl, rfl⟩)) (Or.inl rfl) ?_ (fun _ => Or.inl ?_)
    · constructor <;>
        simp [St.goto, Pc.holds, Pc.holdsTable, Pc.early, hpt, hsl, hbegan, hbusy]
    · simpa [St.goto, Thread.Early] using hq.early (by simp [hpc, Pc.early])
  | sleepMark =>
    simp only [stepOf, hpc] at h
    obtain rfl := Option.some.inj h
    have htl : s.tickslock ≠ some (.proc q) := by simp [hq.tickslock_iff, hpc, Pc.holds]
    have hpt := hq.ptable_iff.mpr (by simp [hpc, Pc.holdsTable])
    have hbegan := hq.began (by simp [hpc, Pc.began])
    have hbusy := hq.busy (by simp [hpc])
    have hwait := hs.awaited q (by simp [Thread.waits, hpc])
    refine hs.process q (fun r hr => by simp [hr]) ⟨rfl, rfl, rfl⟩ (Or.inl rfl)
      (Or.inr (Or.inr ⟨hpt, rfl⟩)) ?_ (fun _ => ?_)
    · constructor <;> simp [Pc.holds, Pc.holdsTable, Pc.early, htl, hbegan, hbusy]
    · simpa [Thread.Early] using hwait
  | asleep =>
    simp only [stepOf, hpc] at h
    split_ifs at h with hw
    obtain rfl := Option.some.inj h
    have htl : s.tickslock ≠ some (.proc q) := by simp [hq.tickslock_iff, hpc, Pc.holds]
    have hpt : s.ptable ≠ some q := by simp [hw.2]
    have hbegan := hq.began (by simp [hpc, Pc.began])
    have hbusy := hq.busy (by simp [hpc])
    refine hs.process q (fun r hr => by simp [St.goto, hr]) ⟨rfl, rfl, rfl⟩ (Or.inl rfl)
      (Or.inl rfl) ?_ (by simp [St.goto, Thread.waits, hw.1])
    constructor <;> simp [St.goto, Pc.holds, Pc.holdsTable, Pc.early, htl, hpt, hw.1, hbegan, hbusy]
  | reacquire =>
    simp only [stepOf, hpc] at h
    exact hs.acquireTicks h (Or.inr ⟨hpc, rfl⟩)
  | leave r =>
    simp only [stepOf, hpc] at h
    obtain rfl := Option.some.inj h
    have hsl := hs.awake (q := q) (by simp [hpc])
    have htl := hq.tickslock_iff.mpr (by simp [hpc, Pc.holds])
    have hpt : s.ptable ≠ some q := by simp [hq.ptable_iff, hpc, Pc.holdsTable]
    have hearned := hq.leave r hpc
    refine hs.process q (fun r hr => by simp [hr]) ⟨rfl, rfl, rfl⟩ (Or.inr (Or.inr ⟨htl, rfl⟩))
      (Or.inl rfl) ?_ (by simp [Thread.waits, hsl])
    have hanswer : ∀ r', some r = some r' → (s.thread q).Earned s.count r' := by
      intro r' hr
      rw [← Option.some.inj hr]
      exact hearned
    simp only [setThread_thread, if_pos]
    exact {
      tickslock_iff := by simp [Pc.holds]
      ptable_iff := by simp [hpt, Pc.holdsTable]
      asleep := by simp [hsl]
      began := by simp [Pc.began]
      early := by simp [Pc.early]
      busy := by simp
      leave := by simp
      answer := hanswer }

theorem next_inv {s s' : St ι} {e : Event ι} (hs : Inv s) (h : next s e = some s') : Inv s' := by
  cases e with
  | timer => exact timerStep_inv hs h
  | step q => exact stepOf_inv hs h
  | sys_sleep q n =>
    simp only [next] at h
    split_ifs at h with hpc
    obtain rfl := Option.some.inj h
    have hq := hs.local_ q
    have hsl := hs.awake (q := q) (by simp [hpc])
    have htl : s.tickslock ≠ some (.proc q) := by simp [hq.tickslock_iff, hpc, Pc.holds]
    have hpt : s.ptable ≠ some q := by simp [hq.ptable_iff, hpc, Pc.holdsTable]
    refine hs.process q (fun r hr => by simp [hr]) ⟨rfl, rfl, rfl⟩ (Or.inl rfl) (Or.inl rfl) ?_
      (by simp [Thread.waits, hsl])
    constructor <;> simp [Pc.holds, Pc.holdsTable, Pc.began, Pc.early, htl, hpt, hsl]
  | kill q =>
    simp only [next] at h
    split_ifs at h with hfree
    obtain rfl := Option.some.inj h
    refine hs.process q (fun r hr => by simp [hr]) ⟨rfl, rfl, rfl⟩ (Or.inl rfl) (Or.inl rfl) ?_ ?_
    · have hq := (hs.local_ q).waken (k := true) fun _ => rfl
      simp only [setThread_thread, if_pos]
      exact { hq with }
    · intro hw
      have hmark : (s.thread q).pc = .sleepMark := by simpa [Thread.waits] using hw
      have := (hs.local_ q).ptable_iff.mpr (by simp [hmark, Pc.holdsTable])
      simp [hfree] at this

end Preservation

section Reachable
variable {ι : Type*} [DecidableEq ι] {s : St ι}

theorem reachable_inv (h : (system ι).Reachable s) : Inv s :=
  h.invariant (fun _ h₀ => init_inv h₀) fun _ _ _ hi hst => next_inv hi hst

/-- `sys_sleep` returns 0 only when as many interrupts have come as it was asked for, and -1 only
when the process has been killed; once the timer has done its wakeup, nobody is left asleep whose
time the loop's test would find to be up. -/
theorem sleeps_to_deadline (h : (system ι).Reachable s) (q : ι) :
    (∀ r, (s.thread q).answer = some r →
      (r = 0 ∧ (s.thread q).start + (s.thread q).n.toNat ≤ s.count) ∨
        (r = -1 ∧ (s.thread q).killed = true)) ∧
      ((s.thread q).sleeping = true → s.timer ≠ .wake →
        s.ticks - (s.thread q).ticks0 < (s.thread q).n) := by
  have hs := reachable_inv h
  refine ⟨(hs.local_ q).answer, fun hq htimer => ?_⟩
  exact (hs.awaited q (by simp [Thread.waits, hq])).resolve_right htimer

/-- Whoever holds a lock can take its next step, unless it waits for `ptable.lock`. -/
theorem Inv.holder_steps (hs : Inv s) {q : ι} (hq : (s.thread q).pc.holds = true ∨
    (s.thread q).pc.holdsTable = true) (hpt : s.ptable = none ∨ s.ptable = some q) :
    ∃ s', stepOf s q = some s' := by
  cases hpc : (s.thread q).pc with
  | sleep =>
    have hother : s.ptable ≠ some q := by
      simp [(hs.local_ q).ptable_iff, hpc, Pc.holdsTable]
    simp [stepOf, hpc, hpt.resolve_right hother]
  | idle | acquire | asleep | reacquire => simp [hpc, Pc.holds, Pc.holdsTable] at hq
  | start | test | check | sleepDrop | sleepMark | leave => simp [stepOf, hpc]

/-- The timer and the processes never all wait for each other's locks: as long as an interrupt is
being served, or a process is in its call and not asleep, one of them can take a step without a
new interrupt. -/
theorem never_stuck (h : (system ι).Reachable s)
    (hbusy : s.timer ≠ .idle ∨ ∃ q, (s.thread q).pc ≠ .idle ∧ (s.thread q).sleeping = false) :
    (s.timer ≠ .idle ∧ ∃ s', timerStep s = some s') ∨ ∃ q s', stepOf s q = some s' := by
  have hs := reachable_inv h
  cases hpt : s.ptable with
  | some q =>
    have hq := (hs.local_ q).ptable_iff.mp hpt
    exact Or.inr ⟨q, hs.holder_steps (Or.inr hq) (Or.inr hpt)⟩
  | none =>
    rcases htl : s.tickslock with _ | _ | q
    · -- nobody holds a lock, so the process may take what it waits for
      rcases hbusy with htimer | ⟨q, hpc, hsl⟩
      · have := hs.timer_iff
        cases ht : s.timer <;> simp_all [TimerPc.holds]
      · refine Or.inr ⟨q, ?_⟩
        by_cases hholds : (s.thread q).pc.holds = true ∨ (s.thread q).pc.holdsTable = true
        · exact hs.holder_steps hholds (Or.inl hpt)
        · cases hp : (s.thread q).pc <;>
            simp_all [stepOf, St.acquireTicks, Pc.holds, Pc.holdsTable]
    · have htimer : s.timer ≠ .idle := by
        intro ht
        simp [hs.timer_iff, ht, TimerPc.holds] at htl
      refine Or.inl ⟨htimer, ?_⟩
      cases ht : s.timer with
      | idle => exact absurd ht htimer
      | bump | wake | release => simp [timerStep, ht, hpt]
    · have hq := (hs.local_ q).tickslock_iff.mp htl
      exact Or.inr ⟨q, hs.holder_steps (Or.inl hq) (Or.inl hpt)⟩

end Reachable

def booted : St Unit := ⟨0, 0, none, none, .idle, fun _ => ⟨.idle, false, false, 0, 0, 0, none⟩⟩

/-- A process sleeps through one interrupt. -/
def oneTick : List (Event Unit) :=
  .sys_sleep () 1 :: List.replicate 7 (.step ()) ++ List.replicate 4 .timer ++
    List.replicate 4 (.step ())

theorem sleeps_to_deadline_oneTick : ∃ s : St Unit, (system Unit).Reachable s ∧
    (s.thread ()).answer = some 0 ∧ (s.thread ()).start + 1 ≤ s.count := by
  have hrun : (runNext next booted oneTick).any (fun s =>
      (s.thread ()).answer = some 0 && (s.thread ()).n = 1) = true := by decide
  obtain ⟨s, hs, hp⟩ := (Option.any_eq_true ..).mp hrun
  simp only [Bool.and_eq_true, decide_eq_true_eq] at hp
  have hreach : (system Unit).Reachable s :=
    ⟨booted, oneTick, ⟨rfl, rfl, rfl, rfl, rfl, fun _ => ⟨rfl, rfl, rfl⟩⟩, run_of_runNext hs⟩
  rcases (sleeps_to_deadline hreach ()).1 0 hp.1 with ⟨-, hreached⟩ | ⟨hr, -⟩
  · rw [hp.2] at hreached
    exact ⟨s, hreach, hp.1, hreached⟩
  · simp at hr

end Ostep.TickSleep

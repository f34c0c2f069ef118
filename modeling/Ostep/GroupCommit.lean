import Ostep.LogOps
import Mathlib.Algebra.Ring.Nat
import Mathlib.Tactic.Common

/-!
# Group commit, lock by lock

The operations of `LogOps` again, with `log.lock` and `ptable.lock` explicit: a step is one
access to a lock, one test or one store. `commit` runs without a lock, one step a disk write.
Inside `sleep` the caller first holds `ptable.lock` with `log.lock` already released and is
not SLEEPING yet, so what `end_op` signals meanwhile must not miss it.
-/

namespace Ostep.GroupCommit
open TransitionSystem LogOps

/-- Where a process is inside `commit`. -/
inductive CommitPc where
  /-- `if (log.lh.n > 0)`. -/
  | test
  | writeLog (tail : ℕ)
  | writeHead
  | installTrans (tail : ℕ)
  /-- `log.lh.n = 0`. -/
  | clear
  | eraseHead
  deriving DecidableEq, Repr

inductive Pc where
  | idle
  /-- `begin_op`: `acquire(&log.lock)`, on entry or at the end of `sleep`. -/
  | beginAcquire
  | beginLoop
  /-- `sleep`: `acquire(&ptable.lock); release(&log.lock)`. -/
  | sleep
  /-- `sleep`: `p->state = SLEEPING; sched()`. -/
  | sleepHold
  | asleep
  | beginRelease
  /-- Between `begin_op` and `end_op`. -/
  | inOp
  /-- `log_write`, past its tests. -/
  | writeAcquire (b : ℕ)
  | writeHold (b : ℕ)
  | writeRelease
  | endAcquire
  | endHold
  /-- `end_op`'s `wakeup(&log)` while others are still in an operation. -/
  | endWake
  | endRelease (doCommit : Bool)
  | commit (c : CommitPc)
  | commitAcquire
  | commitHold
  | commitWake
  | commitRelease
  deriving DecidableEq, Repr

structure St (ι : Type*) where
  /-- `log.lh.block[0], ..., log.lh.block[log.lh.n - 1]`. -/
  lh : List ℕ
  size : ℕ
  outstanding : ℕ
  committing : Bool
  panic : Option Panic
  /-- The holder of `log.lock`. -/
  lock : Option ι
  ptable : Option ι
  pc : ι → Pc
  /-- SLEEPING on `&log`. -/
  sleeping : ι → Bool

variable {ι : Type*} [DecidableEq ι]

def St.goto (s : St ι) (q : ι) (pc : Pc) : St ι := { s with pc := Function.update s.pc q pc }

/-- `acquire(&log.lock)`. -/
def St.acquire (s : St ι) (q : ι) (pc : Pc) : Option (St ι) :=
  if s.lock = none then some ({ s with lock := some q }.goto q pc) else none

/-- `release(&log.lock)`. -/
def St.release (s : St ι) (q : ι) (pc : Pc) : St ι := { s with lock := none }.goto q pc

/-- `wakeup(&log)`, which waits for `ptable.lock`. -/
def St.wakeup (s : St ι) (q : ι) (pc : Pc) : Option (St ι) :=
  if s.ptable = none then some ({ s with sleeping := fun _ => false }.goto q pc) else none

/-- One turn of `begin_op`'s loop. -/
def beginTurn (s : St ι) (q : ι) : St ι :=
  if s.committing then s.goto q .sleep
  else if s.lh.length + (s.outstanding + 1) * MAXOPBLOCKS > LOGSIZE then s.goto q .sleep
  else { s with outstanding := s.outstanding + 1 }.goto q .beginRelease

/-- The tests of `log_write`, made without the lock. -/
def logWrite (s : St ι) (q : ι) (b : ℕ) : St ι :=
  if s.lh.length ≥ LOGSIZE ∨ s.lh.length ≥ s.size - 1 then { s with panic := some .tooBig }
  else if s.outstanding < 1 then { s with panic := some .outsideTrans }
  else s.goto q (.writeAcquire b)

def endOp (s : St ι) (q : ι) : St ι :=
  let s := { s with outstanding := s.outstanding - 1 }
  if s.committing then { s with panic := some .committing }
  else if s.outstanding = 0 then { s with committing := true }.goto q (.endRelease true)
  else s.goto q .endWake

/-- `commit`, one disk write at a time. -/
def commitStep (s : St ι) (q : ι) : CommitPc → St ι
  | .test =>
    if s.lh.length > 0 then s.goto q (.commit (.writeLog 0)) else s.goto q .commitAcquire
  | .writeLog tail =>
    if tail < s.lh.length then s.goto q (.commit (.writeLog (tail + 1)))
    else s.goto q (.commit .writeHead)
  | .writeHead => s.goto q (.commit (.installTrans 0))
  | .installTrans tail =>
    if tail < s.lh.length then s.goto q (.commit (.installTrans (tail + 1)))
    else s.goto q (.commit .clear)
  | .clear => { s with lh := [] }.goto q (.commit .eraseHead)
  | .eraseHead => s.goto q .commitAcquire

/-- The next step of process `q`; `none` when it has none or waits for a lock. -/
def stepOf (s : St ι) (q : ι) : Option (St ι) :=
  match s.pc q with
  | .idle => none
  | .beginAcquire => s.acquire q .beginLoop
  | .beginLoop => some (beginTurn s q)
  | .sleep =>
    if s.ptable = none then some ({ s with ptable := some q, lock := none }.goto q .sleepHold)
    else none
  | .sleepHold =>
    some ({ s with
      ptable := none, sleeping := Function.update s.sleeping q true }.goto q .asleep)
  | .asleep =>
    if s.sleeping q = false ∧ s.ptable = none then some (s.goto q .beginAcquire) else none
  | .beginRelease => some (s.release q .inOp)
  | .inOp => none
  | .writeAcquire b => s.acquire q (.writeHold b)
  | .writeHold b => some ({ s with lh := absorb b s.lh }.goto q .writeRelease)
  | .writeRelease => some (s.release q .inOp)
  | .endAcquire => s.acquire q .endHold
  | .endHold => some (endOp s q)
  | .endWake => s.wakeup q (.endRelease false)
  | .endRelease doCommit => some (s.release q (if doCommit then .commit .test else .idle))
  | .commit c => some (commitStep s q c)
  | .commitAcquire => s.acquire q .commitHold
  | .commitHold => some ({ s with committing := false }.goto q .commitWake)
  | .commitWake => s.wakeup q .commitRelease
  | .commitRelease => some (s.release q .idle)

inductive Event (ι : Type*) where
  | beginOp (q : ι)
  | logWrite (q : ι) (b : ℕ)
  | endOp (q : ι)
  | step (q : ι)
  /-- `kill` makes a SLEEPING process RUNNABLE; `begin_op` does not look at `killed`. -/
  | kill (q : ι)

def next (s : St ι) (e : Event ι) : Option (St ι) :=
  if s.panic.isSome then none
  else match e with
  | .beginOp q => if s.pc q = .idle then some (s.goto q .beginAcquire) else none
  | .logWrite q b => if s.pc q = .inOp then some (logWrite s q b) else none
  | .endOp q => if s.pc q = .inOp then some (s.goto q .endAcquire) else none
  | .step q => stepOf s q
  | .kill q =>
    if s.ptable = none then some { s with sleeping := Function.update s.sleeping q false }
    else none

/-- After `initlog`, whatever the size of the log. -/
def Initial (s : St ι) : Prop :=
  s.lh = [] ∧ s.outstanding = 0 ∧ s.committing = false ∧ s.panic = none ∧ s.lock = none ∧
    s.ptable = none ∧ (∀ q, s.pc q = .idle) ∧ ∀ q, s.sleeping q = false

def system (ι : Type*) [DecidableEq ι] : System (St ι) (Event ι) := .ofNext Initial next

/-! ## Where a process is -/

/-- Holding `log.lock`. -/
def Pc.locks : Pc → Bool
  | .beginLoop | .sleep | .beginRelease | .writeHold _ | .writeRelease | .endHold | .endWake
  | .endRelease _ | .commitHold | .commitWake | .commitRelease => true
  | _ => false

/-- Counted in `log.outstanding`. -/
def Pc.active : Pc → Bool
  | .beginRelease | .inOp | .writeAcquire _ | .writeHold _ | .writeRelease | .endAcquire
  | .endHold => true
  | _ => false

/-- Inside `log_write`, past its tests. -/
def Pc.inLogWrite : Pc → Bool
  | .writeAcquire _ | .writeHold _ | .writeRelease => true
  | _ => false

def Pc.inCommit : Pc → Bool
  | .commit _ => true
  | _ => false

/-- Between `log.committing = 1` and `log.committing = 0`. -/
def Pc.commits : Pc → Bool
  | .endRelease true | .commit _ | .commitAcquire | .commitHold => true
  | _ => false

/-- `commit` has left nothing in the log. -/
def Pc.cleared : Pc → Bool
  | .commit .eraseHead | .commitAcquire | .commitHold => true
  | _ => false

/-- On its way to sleep in `begin_op`. -/
def Pc.drowsy : Pc → Bool
  | .sleep | .sleepHold => true
  | _ => false

structure Inv (s : St ι) : Prop where
  lock_iff : ∀ q, s.lock = some q ↔ (s.pc q).locks = true
  ptable_iff : ∀ q, s.ptable = some q ↔ s.pc q = .sleepHold
  active : ∃ A : Finset ι, (∀ q, q ∈ A ↔ (s.pc q).active = true) ∧ A.card = s.outstanding
  commits : ∀ q, (s.pc q).commits = true → s.committing = true
  alone : ∀ q r, (s.pc q).commits = true → (s.pc r).commits = true → q = r
  committing : s.committing = true → s.outstanding = 0
  cleared : ∀ q, (s.pc q).cleared = true → s.lh = []
  drained : s.committing = false → s.outstanding = 0 → s.lh = []
  asleep : ∀ q, s.sleeping q = true → s.pc q = .asleep
  awaited : ∀ q, (s.pc q).drowsy = true ∨ s.sleeping q = true →
    s.committing = true ∨ 0 < s.outstanding ∨ ∃ r, s.lock = some r ∧ s.pc r = .commitWake
  panic : s.panic ≠ some .committing ∧ s.panic ≠ some .outsideTrans

omit [DecidableEq ι] in
theorem Inv.outstanding_pos {s : St ι} (hs : Inv s) {q : ι} (hq : (s.pc q).active = true) :
    0 < s.outstanding := by
  obtain ⟨A, hA, hcard⟩ := hs.active
  rw [← hcard]
  exact Finset.card_pos.mpr ⟨q, (hA q).mpr hq⟩

omit [DecidableEq ι] in
theorem Inv.not_committing {s : St ι} (hs : Inv s) {q : ι} (hq : (s.pc q).active = true) :
    s.committing = false := by
  have hpos := hs.outstanding_pos hq
  by_contra h
  have := hs.committing (by simpa using h)
  omega

omit [DecidableEq ι] in
theorem Inv.holder_unique {s : St ι} (hs : Inv s) {q r : ι} (hq : (s.pc q).locks = true)
    (hr : (s.pc r).locks = true) : q = r := by
  have h := (hs.lock_iff q).mpr hq
  rw [(hs.lock_iff r).mpr hr] at h
  exact (Option.some.inj h).symm

/-- The count of active processes when `q` moves. -/
theorem Inv.recount {s : St ι} (hs : Inv s) (q : ι) (pc : Pc) (n : ℕ)
    (hn : s.outstanding + pc.active.toNat = n + (s.pc q).active.toNat) :
    ∃ A : Finset ι, (∀ r, r ∈ A ↔ (Function.update s.pc q pc r).active = true) ∧ A.card = n := by
  obtain ⟨A, hA, hcard⟩ := hs.active
  have hq := hA q
  cases hnew : pc.active
  · refine ⟨A.erase q, fun r => ?_, ?_⟩
    · by_cases hr : r = q
      · simp [hr, hnew]
      · simpa [hr] using hA r
    · rw [Finset.card_erase_eq_ite, hcard]
      cases hold : (s.pc q).active <;> simp_all
  · refine ⟨insert q A, fun r => ?_, ?_⟩
    · by_cases hr : r = q
      · simp [hr, hnew]
      · simpa [hr] using hA r
    · rw [Finset.card_insert_eq_ite, hcard]
      cases hold : (s.pc q).active <;> simp_all

/-- `pc` stands to the locks and the counters as the place `q` is at does. -/
structure Pc.Like (pc old : Pc) : Prop where
  active : pc.active = old.active
  commits : pc.commits = old.commits
  cleared : pc.cleared = old.cleared
  waits : pc.drowsy = false ∧ old ≠ .sleepHold ∧ old ≠ .commitWake

attribute [local simp] Pc.locks

/-- `q` moves on without touching a lock; the header may change under its eyes only. -/
theorem Inv.move {s : St ι} {q : ι} {pc : Pc} {lh : List ℕ} (hs : Inv s)
    (hlike : pc.Like (s.pc q)) (hlock : pc.locks = (s.pc q).locks) (hawake : s.pc q = .asleep → s.sleeping q = false)
    (hlh : lh = s.lh ∨ (s.pc q).active = true) : Inv ({ s with lh := lh }.goto q pc) := by
  obtain ⟨hactive, hcommits, hcleared, hwaits⟩ := hlike
  have hrec := hs.recount q pc s.outstanding (by rw [hactive])
  have hpos := hs.outstanding_pos (q := q)
  have hnot := hs.not_committing (q := q)
  have hcom : ∀ r, (s.pc r).cleared = true → (s.pc r).commits = true := by
    intro r hr
    unfold Pc.cleared at hr
    split at hr <;> simp_all [Pc.commits]
  simp only [St.goto]
  constructor <;> try dsimp only
  case active => exact hrec
  all_goals grind [Inv, Pc.drowsy, Pc.locks]

theorem Inv.acquire {s t : St ι} {q : ι} {pc : Pc} (hs : Inv s) (h : s.acquire q pc = some t)
    (hlike : pc.Like (s.pc q)) (hlock : pc.locks = true ∧ (s.pc q).locks = false)
    (hawake : s.pc q ≠ .asleep) : Inv t := by
  obtain ⟨hactive, hcommits, hcleared, hwaits⟩ := hlike
  have hrec := hs.recount q pc s.outstanding (by rw [hactive])
  obtain ⟨hfree, h⟩ := Option.ite_none_right_eq_some.mp h
  obtain rfl := Option.some.inj h
  simp only [St.goto]
  constructor <;> try dsimp only
  case active => exact hrec
  all_goals grind [Inv, Pc.drowsy, Pc.locks]

theorem Inv.release {s : St ι} {q : ι} {pc : Pc} (hs : Inv s)
    (hlike : pc.Like (s.pc q)) (hlock : pc.locks = false ∧ (s.pc q).locks = true)
    (hawake : s.pc q ≠ .asleep) : Inv (s.release q pc) := by
  obtain ⟨hactive, hcommits, hcleared, hwaits⟩ := hlike
  have hrec := hs.recount q pc s.outstanding (by rw [hactive])
  simp only [St.release, St.goto]
  constructor <;> try dsimp only
  case active => exact hrec
  all_goals grind [Inv, Pc.drowsy, Pc.locks]

/-- After `wakeup(&log)` nobody waits: whoever is on its way to sleep holds a lock. -/
theorem Inv.wakeup {s t : St ι} {q : ι} {pc : Pc} (hs : Inv s) (h : s.wakeup q pc = some t)
    (hactive : pc.active = (s.pc q).active) (hcommits : pc.commits = (s.pc q).commits)
    (hcleared : pc.cleared = (s.pc q).cleared) (hdrowsy : pc.drowsy = false)
    (hlock : pc.locks = true ∧ (s.pc q).locks = true) (hnot : s.pc q ≠ .sleep) : Inv t := by
  have hrec := hs.recount q pc s.outstanding (by rw [hactive])
  obtain ⟨hfree, h⟩ := Option.ite_none_right_eq_some.mp h
  obtain rfl := Option.some.inj h
  simp only [St.goto]
  have hnone : ∀ r, (s.pc r).drowsy = false := by
    intro r
    by_contra hr
    have := hs.ptable_iff r
    have := hs.lock_iff r
    have := hs.lock_iff q
    grind [Pc.drowsy, Pc.locks]
  constructor <;> try dsimp only
  case active => exact hrec
  all_goals grind [Inv, Pc.drowsy, Pc.locks]

/-- `commit` empties the header, and after it `end_op` ends the commit. -/
theorem Inv.clear {s : St ι} {q : ι} {c : Bool} (hs : Inv s) (pc : Pc)
    (hold : (s.pc q).commits = true ∧ (s.pc q).active = false)
    (hnew : pc.active = false ∧ pc.drowsy = false)
    (hc : c = pc.commits ∧ (c = true ∨ pc = .commitWake))
    (hlock : pc.locks = (s.pc q).locks) :
    Inv ({ s with lh := [], committing := c }.goto q pc) := by
  have hrec := hs.recount q pc s.outstanding (by rw [hold.2, hnew.1])
  simp only [St.goto]
  constructor <;> try dsimp only
  case active => exact hrec
  all_goals grind [Inv, Pc.drowsy, Pc.locks, Pc.commits]

theorem Inv.beginTurn {s : St ι} {q : ι} (hs : Inv s) (hpc : s.pc q = .beginLoop) :
    Inv (beginTurn s q) := by
  have hsleep (h : s.committing = true ∨ 0 < s.outstanding) : Inv (s.goto q .sleep) := by
    have hrec := hs.recount q .sleep s.outstanding (by rw [hpc]; rfl)
    simp only [St.goto]
    constructor <;> try dsimp only
    case active => exact hrec
    all_goals grind [Inv, Pc.drowsy, Pc.locks, Pc.commits, Pc.cleared]
  unfold GroupCommit.beginTurn
  split_ifs with hc hfull
  · exact hsleep (.inl hc)
  · refine hsleep (.inr ?_)
    by_contra h0
    have h0 : s.outstanding = 0 := by omega
    rw [hs.drained (by simpa using hc) h0, h0] at hfull
    simp [LOGSIZE, MAXOPBLOCKS] at hfull
  · have hrec := hs.recount q .beginRelease (s.outstanding + 1) (by rw [hpc]; rfl)
    simp only [St.goto]
    constructor <;> try dsimp only
    case active => exact hrec
    all_goals grind [Inv, Pc.drowsy, Pc.locks, Pc.commits, Pc.cleared]

theorem Inv.endOp {s : St ι} {q : ι} (hs : Inv s) (hpc : s.pc q = .endHold) : Inv (endOp s q) := by
  have hpos := hs.outstanding_pos (q := q) (by rw [hpc]; rfl)
  have hc := hs.not_committing (q := q) (by rw [hpc]; rfl)
  unfold GroupCommit.endOp
  simp only [hc, Bool.false_eq_true, if_false, St.goto]
  split_ifs with h0
  · have hrec := hs.recount q (.endRelease true) (s.outstanding - 1) (by
      rw [hpc]
      simp only [Pc.active, Bool.toNat_false, Bool.toNat_true]
      omega)
    constructor <;> try dsimp only
    case active => exact hrec
    all_goals grind [Inv, Pc.drowsy, Pc.locks, Pc.commits, Pc.cleared]
  · have hrec := hs.recount q .endWake (s.outstanding - 1) (by
      rw [hpc]
      simp only [Pc.active, Bool.toNat_false, Bool.toNat_true]
      omega)
    constructor <;> try dsimp only
    case active => exact hrec
    all_goals grind [Inv, Pc.drowsy, Pc.locks, Pc.commits, Pc.cleared]

/-- `sleep` swaps `log.lock` for `ptable.lock`. -/
theorem Inv.sleep {s : St ι} {q : ι} (hs : Inv s) (hpc : s.pc q = .sleep) (hfree : s.ptable = none) :
    Inv ({ s with ptable := some q, lock := none }.goto q .sleepHold) := by
  have hrec := hs.recount q .sleepHold s.outstanding (by rw [hpc]; rfl)
  have hall := hs.awaited q (.inl (by rw [hpc]; rfl))
  simp only [St.goto]
  constructor <;> try dsimp only
  case active => exact hrec
  all_goals grind [Inv, Pc.drowsy, Pc.locks, Pc.commits, Pc.cleared]

theorem Inv.sched {s : St ι} {q : ι} (hs : Inv s) (hpc : s.pc q = .sleepHold) :
    Inv ({ s with
      ptable := none, sleeping := Function.update s.sleeping q true }.goto q .asleep) := by
  have hrec := hs.recount q .asleep s.outstanding (by rw [hpc]; rfl)
  have hall := hs.awaited q (.inl (by rw [hpc]; rfl))
  simp only [St.goto]
  constructor <;> try dsimp only
  case active => exact hrec
  all_goals grind [Inv, Pc.drowsy, Pc.locks, Pc.commits, Pc.cleared]

theorem Inv.walk {s : St ι} {q : ι} {pc : Pc} (hs : Inv s) (hlike : pc.Like (s.pc q))
    (hlock : pc.locks = (s.pc q).locks) (hawake : s.pc q = .asleep → s.sleeping q = false) :
    Inv (s.goto q pc) :=
  hs.move hlike hlock hawake (.inl rfl)

theorem Inv.commitStep {s : St ι} {q : ι} {c : CommitPc} (hs : Inv s) (hpc : s.pc q = .commit c) :
    Inv (commitStep s q c) := by
  have hcom := hs.commits q (by rw [hpc]; rfl)
  have hold : (s.pc q).commits = true ∧ (s.pc q).active = false := by
    rw [hpc]
    exact ⟨rfl, rfl⟩
  -- inside `commit`, away from the places at which the header is emptied
  have hwalk (d : CommitPc) (hd : (Pc.commit d).cleared = (Pc.commit c).cleared) :
      Inv (s.goto q (.commit d)) :=
    hs.walk (by rw [hpc]; exact ⟨rfl, rfl, hd, rfl, by simp, by simp⟩) (by rw [hpc]; rfl)
      (by simp [hpc])
  cases c with
  | test =>
    simp only [GroupCommit.commitStep]
    split_ifs with h0
    · exact hwalk _ rfl
    · have hlh : s.lh = [] := by simpa using h0
      have hend := hs.clear .commitAcquire (c := s.committing) hold ⟨rfl, rfl⟩
        ⟨hcom, .inl hcom⟩ (by rw [hpc]; rfl)
      rwa [← hlh] at hend
  | writeLog tail =>
    simp only [GroupCommit.commitStep]
    split_ifs
    · exact hwalk _ rfl
    · exact hwalk _ rfl
  | writeHead => exact hwalk _ rfl
  | installTrans tail =>
    simp only [GroupCommit.commitStep]
    split_ifs
    · exact hwalk _ rfl
    · exact hwalk _ rfl
  | clear =>
    exact hs.clear (.commit .eraseHead) (c := s.committing) hold ⟨rfl, rfl⟩
      ⟨hcom, .inl hcom⟩ (by rw [hpc]; rfl)
  | eraseHead =>
    exact hs.walk (by rw [hpc]; exact ⟨rfl, rfl, rfl, rfl, by simp, by simp⟩) (by rw [hpc]; rfl)
      (by simp [hpc])

theorem Inv.stepOf {s t : St ι} {q : ι} (hs : Inv s) (h : stepOf s q = some t) : Inv t := by
  unfold GroupCommit.stepOf at h
  cases hpc : s.pc q <;> simp only [hpc] at h
  case idle | inOp => cases h
  case beginAcquire | writeAcquire | endAcquire | commitAcquire =>
    exact hs.acquire h (by rw [hpc]; exact ⟨rfl, rfl, rfl, rfl, by simp, by simp⟩)
      (by rw [hpc]; exact ⟨rfl, rfl⟩) (by simp [hpc])
  case beginLoop =>
    obtain rfl := Option.some.inj h
    exact hs.beginTurn hpc
  case sleep =>
    obtain ⟨hfree, h⟩ := Option.ite_none_right_eq_some.mp h
    obtain rfl := Option.some.inj h
    exact hs.sleep hpc hfree
  case sleepHold =>
    obtain rfl := Option.some.inj h
    exact hs.sched hpc
  case asleep =>
    obtain ⟨⟨hawake, -⟩, h⟩ := Option.ite_none_right_eq_some.mp h
    obtain rfl := Option.some.inj h
    exact hs.walk (by rw [hpc]; exact ⟨rfl, rfl, rfl, rfl, by simp, by simp⟩) (by rw [hpc]; rfl)
      fun _ => hawake
  case beginRelease | writeRelease | commitRelease =>
    obtain rfl := Option.some.inj h
    exact hs.release (by rw [hpc]; exact ⟨rfl, rfl, rfl, rfl, by simp, by simp⟩)
      (by rw [hpc]; exact ⟨rfl, rfl⟩) (by simp [hpc])
  case endRelease doCommit =>
    obtain rfl := Option.some.inj h
    cases doCommit <;> exact hs.release (by rw [hpc]; exact ⟨rfl, rfl, rfl, rfl, by simp, by simp⟩)
      (by rw [hpc]; exact ⟨rfl, rfl⟩) (by simp [hpc])
  case writeHold b =>
    obtain rfl := Option.some.inj h
    exact hs.move (by rw [hpc]; exact ⟨rfl, rfl, rfl, rfl, by simp, by simp⟩) (by rw [hpc]; rfl)
      (by simp [hpc]) (.inr (by rw [hpc]; rfl))
  case endHold =>
    obtain rfl := Option.some.inj h
    exact hs.endOp hpc
  case endWake | commitWake =>
    exact hs.wakeup h (by rw [hpc]; rfl) (by rw [hpc]; rfl) (by rw [hpc]; rfl) rfl
      (by rw [hpc]; exact ⟨rfl, rfl⟩) (by simp [hpc])
  case commit c =>
    obtain rfl := Option.some.inj h
    exact hs.commitStep hpc
  case commitHold =>
    obtain rfl := Option.some.inj h
    have hend := hs.clear (q := q) .commitWake (c := false) (by rw [hpc]; exact ⟨rfl, rfl⟩)
      ⟨rfl, rfl⟩ ⟨rfl, .inr rfl⟩ (by rw [hpc]; rfl)
    rwa [← hs.cleared q (by rw [hpc]; rfl)] at hend

theorem Inv.logWrite {s : St ι} {q : ι} {b : ℕ} (hs : Inv s) (hpc : s.pc q = .inOp) :
    Inv (logWrite s q b) := by
  have hpos := hs.outstanding_pos (q := q) (by rw [hpc]; rfl)
  unfold GroupCommit.logWrite
  split_ifs with hbig hout
  · exact { hs with panic := by simp }
  · omega
  · exact hs.walk (by rw [hpc]; exact ⟨rfl, rfl, rfl, rfl, by simp, by simp⟩) (by rw [hpc]; rfl)
      (by simp [hpc])

theorem Inv.kill {s : St ι} (hs : Inv s) (q : ι) :
    Inv { s with sleeping := Function.update s.sleeping q false } := by
  have hwas : ∀ r, Function.update s.sleeping q false r = true → s.sleeping r = true := by
    intro r
    by_cases hr : r = q
    · simp [hr]
    · simp [hr]
  exact {
    hs with
    asleep := fun r h => hs.asleep r (hwas r h)
    awaited := fun r h => hs.awaited r (h.imp_right (hwas r)) }

theorem Inv.next {s t : St ι} {e : Event ι} (hs : Inv s) (h : next s e = some t) : Inv t := by
  unfold GroupCommit.next at h
  rw [if_neg (by intro hp; simp [hp] at h)] at h
  cases e with
  | beginOp q | endOp q =>
    obtain ⟨hpc, h⟩ := Option.ite_none_right_eq_some.mp h
    obtain rfl := Option.some.inj h
    exact hs.walk (by rw [hpc]; exact ⟨rfl, rfl, rfl, rfl, by simp, by simp⟩) (by rw [hpc]; rfl)
      (by simp [hpc])
  | logWrite q b =>
    obtain ⟨hpc, h⟩ := Option.ite_none_right_eq_some.mp h
    obtain rfl := Option.some.inj h
    exact hs.logWrite hpc
  | step q => exact hs.stepOf h
  | kill q =>
    obtain ⟨-, h⟩ := Option.ite_none_right_eq_some.mp h
    obtain rfl := Option.some.inj h
    exact hs.kill q

omit [DecidableEq ι] in
theorem Inv.init {s : St ι} (h : Initial s) : Inv s := by
  obtain ⟨hlh, hout, hcom, hpanic, hlock, hptable, hpc, hsleeping⟩ := h
  constructor <;>
    simp [hlh, hout, hcom, hpanic, hlock, hptable, hpc, hsleeping, Pc.locks, Pc.active, Pc.commits,
      Pc.cleared, Pc.drowsy]

theorem reachable_inv {s : St ι} (h : (system ι).Reachable s) : Inv s :=
  h.invariant (fun _ => Inv.init) fun _ _ _ hs hstep => hs.next hstep

omit [DecidableEq ι] in
/-- During a commit no operation is open. -/
theorem Inv.not_active {s : St ι} (hs : Inv s) {q : ι} (hq : (s.pc q).commits = true) (r : ι) :
    (s.pc r).active = false := by
  by_contra hr
  have hc := hs.not_committing (q := r) (by simpa using hr)
  simp [hs.commits q hq] at hc

theorem goto_pc (s : St ι) (q r : ι) (pc : Pc) :
    (s.goto q pc).pc r = if r = q then pc else s.pc r := by
  simp [St.goto, Function.update_apply]

theorem stepOf_pc_ne {s t : St ι} {q r : ι} (h : stepOf s r = some t) (hne : q ≠ r) :
    t.pc q = s.pc q := by
  cases hpc : s.pc r <;> simp only [stepOf, hpc] at h
  case commit c => cases c <;> grind [goto_pc, commitStep]
  all_goals grind [goto_pc, St.acquire, St.release, St.wakeup, beginTurn, endOp]

/-- A process in `commit` stays there, or goes on to end the commit. -/
theorem next_commits {s t : St ι} {e : Event ι} (h : next s e = some t) {q : ι}
    (hq : (s.pc q).inCommit = true) : (t.pc q).commits = true := by
  obtain ⟨c, hpc⟩ : ∃ c, s.pc q = .commit c := by
    cases hpc : s.pc q <;> simp_all [Pc.inCommit]
  unfold GroupCommit.next at h
  rw [if_neg (by intro hp; simp [hp] at h)] at h
  cases e with
  | beginOp r | endOp r | kill r =>
    grind [goto_pc, Pc.commits]
  | logWrite r b =>
    grind [goto_pc, Pc.commits, logWrite]
  | step r =>
    by_cases hr : q = r
    · subst hr
      simp only [stepOf, hpc] at h
      cases c <;> grind [goto_pc, Pc.commits, commitStep]
    · rw [stepOf_pc_ne h hr, hpc]
      rfl

/-- Only `log_write` under its lock and `commit` store to the header. -/
theorem stepOf_lh {s t : St ι} {q : ι} (h : stepOf s q = some t) :
    t.lh = s.lh ∨ (∃ b, s.pc q = .writeHold b) ∨ s.pc q = .commit .clear := by
  cases hpc : s.pc q <;> simp only [stepOf, hpc] at h
  case commit c => cases c <;> grind [St.goto, commitStep]
  all_goals grind [St.acquire, St.release, St.wakeup, St.goto, beginTurn, endOp]

theorem next_lh {s t : St ι} {e : Event ι} (h : next s e = some t) :
    t.lh = s.lh ∨
      ∃ r, e = .step r ∧ ((∃ b, s.pc r = .writeHold b) ∨ s.pc r = .commit .clear) := by
  unfold GroupCommit.next at h
  rw [if_neg (by intro hp; simp [hp] at h)] at h
  cases e with
  | beginOp q | endOp q | kill q =>
    obtain ⟨-, h⟩ := Option.ite_none_right_eq_some.mp h
    exact .inl (Option.some.inj h ▸ rfl)
  | logWrite q b =>
    obtain ⟨-, h⟩ := Option.ite_none_right_eq_some.mp h
    obtain rfl := Option.some.inj h
    unfold logWrite
    split_ifs <;> exact .inl rfl
  | step q => exact (stepOf_lh h).imp_right fun hq => ⟨q, rfl, hq⟩

/-- While a process runs `commit` no operation is open, so no `log_write` is in progress or
begins and only `commit` itself changes the header; outside a commit an idle log is empty and
nobody waits in `begin_op`. -/
theorem group_commit {s : St ι} (h : (system ι).Reachable s) :
    (∀ q, (s.pc q).inCommit = true →
      s.outstanding = 0 ∧ (∀ r, (s.pc r).active = false) ∧
        ∀ e t, next s e = some t →
          (∀ r, (t.pc r).inLogWrite = false) ∧
            (t.lh = s.lh ∨ e = .step q ∧ s.pc q = .commit .clear)) ∧
      (s.outstanding = 0 → s.committing = false → s.lock = none →
        s.lh = [] ∧ ∀ q, s.sleeping q = false ∧ (s.pc q).drowsy = false) := by
  have hs := reachable_inv h
  refine ⟨fun q hq => ?_, fun hout hcom hlock => ⟨hs.drained hcom hout, fun q => ?_⟩⟩
  · have hcommits : (s.pc q).commits = true := by
      cases hpc : s.pc q <;> simp_all [Pc.inCommit, Pc.commits]
    refine ⟨hs.committing (hs.commits q hcommits), hs.not_active hcommits, fun e t hnext => ?_⟩
    have ht := hs.next hnext
    refine ⟨fun r => ?_, ?_⟩
    · have hr := ht.not_active (next_commits hnext hq) r
      cases hpc : t.pc r <;> simp_all [Pc.inLogWrite, Pc.active]
    · rcases next_lh hnext with hlh | ⟨r, rfl, ⟨b, hb⟩ | hclear⟩
      · exact .inl hlh
      · have hr := hs.not_active hcommits r
        simp [hb, Pc.active] at hr
      · obtain rfl := hs.alone r q (by rw [hclear]; rfl) hcommits
        exact .inr ⟨rfl, hclear⟩
  · have hnot : ¬ ((s.pc q).drowsy = true ∨ s.sleeping q = true) := by
      intro hwait
      rcases hs.awaited q hwait with hc | ho | ⟨r, hr, -⟩
      · simp [hc] at hcom
      · omega
      · simp [hr] at hlock
    simpa [not_or, and_comm] using hnot

def boot : St (Fin 2) :=
  ⟨[], nlog, 0, false, none, none, none, fun _ => .idle, fun _ => false⟩

local instance two_neZero : NeZero 2 := ⟨by decide⟩

/-- Process 0 logs a block and starts to commit it; process 1 falls asleep in `begin_op`. -/
def waitForCommit : List (Event (Fin 2)) :=
  [.beginOp 0, .step 0, .step 0, .step 0, .logWrite 0 7, .step 0, .step 0, .step 0, .endOp 0,
    .step 0, .step 0, .step 0, .step 0, .beginOp 1, .step 1, .step 1, .step 1, .step 1]

theorem group_commit_waits : ∃ s, (system (Fin 2)).Reachable s ∧ s.sleeping 1 = true ∧
    s.outstanding = 0 ∧ ∀ r, (s.pc r).active = false := by
  have hrun : (runNext next boot waitForCommit).any (fun s =>
      (s.pc 0).inCommit && s.sleeping 1) = true := by decide +kernel
  obtain ⟨s, hs, hp⟩ := (Option.any_eq_true ..).mp hrun
  obtain ⟨hcommit, hasleep⟩ := Bool.and_eq_true_iff.mp hp
  have hinit : Initial boot := ⟨rfl, rfl, rfl, rfl, rfl, rfl, fun _ => rfl, fun _ => rfl⟩
  have hreach : (system (Fin 2)).Reachable s := ⟨boot, waitForCommit, hinit, run_of_runNext hs⟩
  obtain ⟨hout, hidle, -⟩ := (group_commit hreach).1 0 hcommit
  exact ⟨s, hreach, hasleep, hout, hidle⟩

end Ostep.GroupCommit

import Ostep.PipeMachine
import Mathlib.Algebra.Ring.Nat

/-!
# No lost wakeup on a pipe

Whoever sleeps on a channel of the pipe, or is on its way to sleep, has either a reason to
wait or a lock holder that is bound to wake it. `pipewrite`'s `return -1` is the one exit at
which a holder forgets that duty: it may have stored bytes since its last `wakeup(&p->nread)`.
-/

namespace Ostep.PipeMachine
open TransitionSystem

/-- The places at which a process holds `p->lock`. -/
def Pc.holds : Pc → Bool
  | .loop _ | .giveUp _ | .wakeFirst .. | .sleep _ | .copy .. | .finalWake _ | .release _
  | .closeSet _ | .closeWake _ | .closeRelease => true
  | _ => false

def Pc.isSleepHold : Pc → Bool
  | .sleepHold _ => true
  | _ => false

/-- The holder will call `wakeup(chan)` before it releases `p->lock`, unless `pipewrite`
gives up. -/
def Pc.willWake : Pc → Chan → Bool
  | .loop (.write ..), .nread | .giveUp (.write ..), .nread | .wakeFirst .., .nread
  | .finalWake (.write ..), .nread | .closeWake true, .nread => true
  | .copy .., .nwrite | .finalWake (.read ..), .nwrite | .closeWake false, .nwrite => true
  | _, _ => false

/-- The reason to sleep on a channel. -/
def Pipe.Waits (p : Pipe) : Chan → Prop
  | .nread => p.nread = p.nwrite ∧ p.writeopen = true
  | .nwrite => p.nwrite = p.nread + 512#32 ∧ p.readopen = true

/-- SLEEPING on the channel, or inside `sleep` with `p->lock` already released. -/
def Thread.On (t : Thread) (chan : Chan) : Prop :=
  t.sleeping = some chan ∨ ∃ c, t.pc = .sleepHold c ∧ c.chan = chan

/-- What a process that holds `p->lock` inside a waiting loop has just tested. -/
def Pc.Guard (p : Pipe) : Pc → Prop
  | .giveUp (.write ..) => p.nwrite = p.nread + 512#32
  | .giveUp (.read ..) => p.Waits .nread
  | .wakeFirst .. => p.Waits .nwrite
  | .sleep c => p.Waits c.chan
  | .sleepHold _ | .idle | .acquire _ | .loop _ | .asleep _ | .copy .. | .finalWake _ | .release _
  | .closeAcquire _ | .closeSet _ | .closeWake _ | .closeRelease => True

variable {ι : Type*}

structure Inv (s : St ι) : Prop where
  lock_iff : ∀ q, s.lock = some q ↔ (s.thread q).pc.holds = true
  ptable_iff : ∀ q, s.ptable = some q ↔ (s.thread q).pc.isSleepHold = true
  asleep : ∀ q chan, (s.thread q).sleeping = some chan → ∃ c, (s.thread q).pc = .asleep c
  guard : ∀ q, (s.thread q).pc.Guard s.pipe
  awaited : ∀ q chan, (s.thread q).On chan →
    s.pipe.Waits chan ∨ ∃ h, (s.thread h).pc.willWake chan = true

theorem Pc.holds_of_willWake {pc : Pc} {chan : Chan} (h : pc.willWake chan = true) :
    pc.holds = true := by
  unfold Pc.willWake at h
  split at h <;> first | rfl | contradiction

/-- A guard speaks about the pipe only while the lock is held. -/
theorem Pc.guard_of_not_holds {pc : Pc} (p : Pipe) (h : pc.holds = false) : pc.Guard p := by
  cases pc <;> trivial

theorem Inv.holder_unique {s : St ι} (hs : Inv s) {q r : ι} (hq : (s.thread q).pc.holds = true)
    (hr : (s.thread r).pc.holds = true) : q = r := by
  have h := (hs.lock_iff q).mpr hq
  rw [(hs.lock_iff r).mpr hr] at h
  exact (Option.some.inj h).symm

/-- A process that is not asleep is on a channel only inside `sleep`. -/
theorem Inv.sleeping_none {s : St ι} (hs : Inv s) {q : ι} (h : ∀ c, (s.thread q).pc ≠ .asleep c) :
    (s.thread q).sleeping = none := by
  cases hsl : (s.thread q).sleeping with
  | none => rfl
  | some chan =>
    obtain ⟨c, hc⟩ := hs.asleep q chan hsl
    exact absurd hc (h c)

variable [DecidableEq ι]

@[simp] theorem setThread_thread (s : St ι) (q r : ι) (f : Thread → Thread) :
    (s.setThread q f).thread r = if r = q then f (s.thread q) else s.thread r := by
  simp [St.setThread, Function.update_apply]

@[simp] theorem goto_thread (s : St ι) (q r : ι) (pc : Pc) :
    (s.goto q pc).thread r = if r = q then { s.thread q with pc := pc } else s.thread r := by
  simp [St.goto]

/-- A step of `q` that leaves the locks alone: `q` keeps or hands on its duty to wake, and
changes the pipe only under the lock. -/
theorem Inv.advance {s : St ι} (hs : Inv s) {q : ι} {pc : Pc} {p : Pipe}
    (hholds : pc.holds = (s.thread q).pc.holds)
    (hpt : pc.isSleepHold = false ∧ (s.thread q).pc.isSleepHold = false)
    (hsleeping : (s.thread q).sleeping = none) (hguard : pc.Guard p)
    (hpipe : p = s.pipe ∨ (s.thread q).pc.holds = true)
    (hwaits : ∀ chan, s.pipe.Waits chan → p.Waits chan ∨ pc.willWake chan = true)
    (hduty : ∀ chan, (s.thread q).pc.willWake chan = true →
      pc.willWake chan = true ∨ ∀ r, ¬ (s.thread r).On chan) :
    Inv ({ s with pipe := p }.goto q pc) where
  lock_iff r := by
    rw [goto_thread]
    split_ifs with hr
    · subst hr
      simpa [St.goto, St.setThread, hholds] using hs.lock_iff r
    · exact hs.lock_iff r
  ptable_iff r := by
    rw [goto_thread]
    split_ifs with hr
    · subst hr
      simpa [St.goto, St.setThread, hpt.1, hpt.2] using hs.ptable_iff r
    · exact hs.ptable_iff r
  asleep r chan := by
    rw [goto_thread]
    split_ifs with hr
    · subst hr
      simp [hsleeping]
    · exact hs.asleep r chan
  guard r := by
    change Pc.Guard p _
    rw [goto_thread]
    split_ifs with hr
    · exact hguard
    · rcases hpipe with rfl | hq
      · exact hs.guard r
      · apply Pc.guard_of_not_holds
        by_contra h
        exact hr (hs.holder_unique (by simpa using h) hq)
  awaited r chan hon := by
    change p.Waits chan ∨ _
    have hnew : ((({ s with pipe := p } : St ι).goto q pc).thread q).pc = pc := by simp
    have hon' : (s.thread r).On chan := by
      rw [goto_thread] at hon
      split_ifs at hon with hr
      · subst hr
        rcases hon with h | ⟨c, hc, -⟩
        · exact Or.inl h
        · obtain rfl : pc = .sleepHold c := hc
          simp [Pc.isSleepHold] at hpt
      · exact hon
    rcases hs.awaited r chan hon' with hw | ⟨h, hh⟩
    · rcases hwaits chan hw with hw | hw
      · exact Or.inl hw
      · exact Or.inr ⟨q, by rw [hnew, hw]⟩
    · by_cases hq : h = q
      · subst hq
        rcases hduty chan hh with hw | hnone
        · exact Or.inr ⟨h, by rw [hnew, hw]⟩
        · exact absurd hon' (hnone r)
      · exact Or.inr ⟨h, by simpa [goto_thread, hq] using hh⟩

/-- A process takes the free `p->lock`. -/
theorem Inv.take {s : St ι} (hs : Inv s) {q : ι} {pc : Pc} (hfree : s.lock = none)
    (hold : (s.thread q).pc.isSleepHold = false) (hsleeping : (s.thread q).sleeping = none)
    (hholds : pc.holds = true) (hpt : pc.isSleepHold = false) (hguard : pc.Guard s.pipe) :
    Inv ({ s with lock := some q }.goto q pc) where
  lock_iff r := by
    change some q = some r ↔ _
    rw [goto_thread]
    split_ifs with hr
    · simp [hr, hholds]
    · have := hs.lock_iff r
      rw [hfree] at this
      simpa [Ne.symm hr] using this
  ptable_iff r := by
    change s.ptable = some r ↔ _
    rw [goto_thread]
    split_ifs with hr
    · subst hr
      simpa [hpt, hold] using hs.ptable_iff r
    · exact hs.ptable_iff r
  asleep r chan := by
    rw [goto_thread]
    split_ifs with hr
    · simp [hsleeping]
    · exact hs.asleep r chan
  guard r := by
    change Pc.Guard s.pipe _
    rw [goto_thread]
    split_ifs with hr
    · exact hguard
    · exact hs.guard r
  awaited r chan hon := by
    change s.pipe.Waits chan ∨ _
    have hnone : ∀ h, (s.thread h).pc.holds = false := by
      intro h
      have := hs.lock_iff h
      rw [hfree] at this
      simpa using this
    have hon' : (s.thread r).On chan := by
      rw [goto_thread] at hon
      split_ifs at hon with hr
      · rcases hon with h | ⟨c, hc, -⟩
        · simp [hsleeping] at h
        · obtain rfl : pc = .sleepHold c := hc
          simp [Pc.isSleepHold] at hpt
      · exact hon
    rcases hs.awaited r chan hon' with hw | ⟨h, hh⟩
    · exact Or.inl hw
    · have := hnone h
      rw [Pc.holds_of_willWake hh] at this
      contradiction

/-- A process that owes no wakeup releases `p->lock`. -/
theorem Inv.drop {s : St ι} (hs : Inv s) {q : ι} {freed : Bool}
    (hholds : (s.thread q).pc.holds = true) (hold : (s.thread q).pc.isSleepHold = false)
    (hsleeping : (s.thread q).sleeping = none)
    (hduty : ∀ chan, (s.thread q).pc.willWake chan = false) :
    Inv ({ s with lock := none, freed := freed }.goto q .idle) where
  lock_iff r := by
    change none = some r ↔ _
    rw [goto_thread]
    split_ifs with hr
    · simp [Pc.holds]
    · have : (s.thread r).pc.holds = false := by
        by_contra h
        exact hr (hs.holder_unique (by simpa using h) hholds)
      simp [this]
  ptable_iff r := by
    change s.ptable = some r ↔ _
    rw [goto_thread]
    split_ifs with hr
    · subst hr
      have := hs.ptable_iff r
      rw [hold] at this
      simpa [Pc.isSleepHold] using this
    · exact hs.ptable_iff r
  asleep r chan := by
    rw [goto_thread]
    split_ifs with hr
    · simp [hsleeping]
    · exact hs.asleep r chan
  guard r := by
    change Pc.Guard s.pipe _
    rw [goto_thread]
    split_ifs with hr
    · trivial
    · exact hs.guard r
  awaited r chan hon := by
    change s.pipe.Waits chan ∨ _
    have hon' : (s.thread r).On chan := by
      rw [goto_thread] at hon
      split_ifs at hon with hr
      · rcases hon with h | ⟨c, hc, -⟩
        · simp [hsleeping] at h
        · simp at hc
      · exact hon
    rcases hs.awaited r chan hon' with hw | ⟨h, hh⟩
    · exact Or.inl hw
    · obtain rfl := hs.holder_unique (Pc.holds_of_willWake hh) hholds
      simp [hduty chan] at hh

/-- `sleep` has taken `ptable.lock` and released `p->lock`. -/
theorem Inv.enterSleep {s : St ι} (hs : Inv s) {q : ι} {c : Call}
    (hpc : (s.thread q).pc = .sleep c) (hpt : s.ptable = none) :
    Inv ({ s with ptable := some q, lock := none }.goto q (.sleepHold c)) where
  lock_iff r := by
    change none = some r ↔ _
    rw [goto_thread]
    split_ifs with hr
    · simp [Pc.holds]
    · have : (s.thread r).pc.holds = false := by
        by_contra h
        exact hr (hs.holder_unique (by simpa using h) (by simp [hpc, Pc.holds]))
      simp [this]
  ptable_iff r := by
    change some q = some r ↔ _
    rw [goto_thread]
    split_ifs with hr
    · simp [hr, Pc.isSleepHold]
    · have := hs.ptable_iff r
      rw [hpt] at this
      simpa [Ne.symm hr] using this
  asleep r chan := by
    rw [goto_thread]
    split_ifs with hr
    · simp [hs.sleeping_none (q := q) (by simp [hpc])]
    · exact hs.asleep r chan
  guard r := by
    change Pc.Guard s.pipe _
    rw [goto_thread]
    split_ifs with hr
    · trivial
    · exact hs.guard r
  awaited r chan hon := by
    change s.pipe.Waits chan ∨ _
    have hguard : s.pipe.Waits c.chan := by simpa [hpc, Pc.Guard] using hs.guard q
    rw [goto_thread] at hon
    split_ifs at hon with hr
    · rcases hon with h | ⟨c', hc, rfl⟩
      · simp [hs.sleeping_none (q := q) (by simp [hpc])] at h
      · obtain rfl : c = c' := by simpa using hc
        exact Or.inl hguard
    · rcases hs.awaited r chan hon with hw | ⟨h, hh⟩
      · exact Or.inl hw
      · obtain rfl := hs.holder_unique (Pc.holds_of_willWake hh)
          (r := q) (by simp [hpc, Pc.holds])
        simp [hpc, Pc.willWake] at hh

/-- `sleep` marks its caller SLEEPING and gives `ptable.lock` away. -/
theorem Inv.fallAsleep {s : St ι} (hs : Inv s) {q : ι} {c : Call}
    (hpc : (s.thread q).pc = .sleepHold c) :
    Inv ({ s with ptable := none }.setThread q
      (fun t => { t with pc := .asleep c, sleeping := some c.chan })) where
  lock_iff r := by
    change s.lock = some r ↔ _
    rw [setThread_thread]
    split_ifs with hr
    · subst hr
      simpa [hpc, Pc.holds] using hs.lock_iff r
    · exact hs.lock_iff r
  ptable_iff r := by
    change none = some r ↔ _
    rw [setThread_thread]
    split_ifs with hr
    · simp [Pc.isSleepHold]
    · have hq := (hs.ptable_iff q).mpr (by simp [hpc, Pc.isSleepHold])
      have := hs.ptable_iff r
      rw [hq] at this
      simpa [Ne.symm hr] using this
  asleep r chan := by
    rw [setThread_thread]
    split_ifs with hr
    · exact fun _ => ⟨c, rfl⟩
    · exact hs.asleep r chan
  guard r := by
    change Pc.Guard s.pipe _
    rw [setThread_thread]
    split_ifs with hr
    · trivial
    · exact hs.guard r
  awaited r chan hon := by
    change s.pipe.Waits chan ∨ _
    have hon' : (s.thread r).On chan := by
      rw [setThread_thread] at hon
      split_ifs at hon with hr
      · subst hr
        rcases hon with h | ⟨c', hc, -⟩
        · exact Or.inr ⟨c, hpc, by simpa using h⟩
        · simp at hc
      · exact hon
    rcases hs.awaited r chan hon' with hw | ⟨h, hh⟩
    · exact Or.inl hw
    · refine Or.inr ⟨h, ?_⟩
      have hq : h ≠ q := by
        rintro rfl
        simp [hpc, Pc.willWake] at hh
      simpa [hq] using hh

/-- A woken process goes back for `p->lock`. -/
theorem Inv.resume {s : St ι} (hs : Inv s) {q : ι} {c : Call}
    (hpc : (s.thread q).pc = .asleep c) (hsleeping : (s.thread q).sleeping = none) :
    Inv (s.goto q (.acquire c)) :=
  hs.advance (p := s.pipe) (by simp [hpc, Pc.holds]) (by simp [hpc, Pc.isSleepHold])
    hsleeping trivial (Or.inl rfl) (fun _ => Or.inl) (by simp [hpc, Pc.willWake])

omit [DecidableEq ι] in
theorem Inv.wakeup1 {s : St ι} (hs : Inv s) (chan : Chan) : Inv (s.wakeup1 chan) where
  lock_iff r := by
    have := hs.lock_iff r
    simp only [St.wakeup1]
    split_ifs <;> exact this
  ptable_iff r := by
    have := hs.ptable_iff r
    simp only [St.wakeup1]
    split_ifs <;> exact this
  asleep r ch := by
    have := hs.asleep r ch
    simp only [St.wakeup1]
    split_ifs
    · simp
    · exact this
  guard r := by
    have := hs.guard r
    simp only [St.wakeup1]
    split_ifs <;> exact this
  awaited r ch hon := by
    have hpc : ∀ h, ((s.wakeup1 chan).thread h).pc = (s.thread h).pc := by
      intro h
      simp only [St.wakeup1]
      split_ifs <;> rfl
    have hon' : (s.thread r).On ch := by
      rcases hon with h | ⟨c, hc, hch⟩
      · simp only [St.wakeup1] at h
        split_ifs at h
        exact Or.inl h
      · exact Or.inr ⟨c, by rwa [hpc] at hc, hch⟩
    rcases hs.awaited r ch hon' with hw | ⟨h, hh⟩
    · exact Or.inl hw
    · exact Or.inr ⟨h, by rwa [hpc]⟩

omit [DecidableEq ι] in
/-- With `ptable.lock` free, `wakeup1` leaves nobody on the channel. -/
theorem Inv.wakeup1_clears {s : St ι} (hs : Inv s) (hpt : s.ptable = none) (chan : Chan) (r : ι) :
    ¬ ((s.wakeup1 chan).thread r).On chan := by
  rintro (h | ⟨c, hc, -⟩)
  · simp only [St.wakeup1] at h
    split_ifs at h with h'
    exact h' h
  · have := hs.ptable_iff r
    rw [hpt] at this
    have hc' : (s.thread r).pc = .sleepHold c := by
      simp only [St.wakeup1] at hc
      split_ifs at hc <;> exact hc
    simp [hc', Pc.isSleepHold] at this

/-- A holder that wakes the only channel it owes a wakeup. -/
theorem Inv.wake {s s' : St ι} (hs : Inv s) {q : ι} {pc : Pc} {chan : Chan}
    (hwake : (s.wakeup chan).map (·.goto q pc) = some s')
    (hold : (s.thread q).pc.holds = true) (hholds : pc.holds = true)
    (hpt : pc.isSleepHold = false ∧ (s.thread q).pc.isSleepHold = false)
    (hguard : pc.Guard s.pipe) (hnone : ∀ c, (s.thread q).pc ≠ .asleep c)
    (honly : ∀ ch, (s.thread q).pc.willWake ch = true → ch = chan) : Inv s' := by
  obtain ⟨u, hu, rfl⟩ := Option.map_eq_some_iff.mp hwake
  unfold St.wakeup at hu
  split_ifs at hu with hfree
  obtain rfl := Option.some.inj hu
  have hpc : ((s.wakeup1 chan).thread q).pc = (s.thread q).pc := by
    simp only [St.wakeup1]
    split_ifs <;> rfl
  have hw := hs.wakeup1 chan
  refine hw.advance (p := s.pipe) (by rw [hpc, hold, hholds]) (by rwa [hpc])
    (hw.sleeping_none (by rwa [hpc])) hguard (Or.inl rfl) (fun _ => Or.inl) ?_
  intro ch hch
  obtain rfl := honly ch (by rwa [hpc] at hch)
  exact Or.inr (hs.wakeup1_clears hfree ch)

theorem Inv.kill {s : St ι} (hs : Inv s) (q : ι) :
    Inv (s.setThread q (fun t => { t with killed := true, sleeping := none })) where
  lock_iff r := by
    change s.lock = some r ↔ _
    rw [setThread_thread]
    split_ifs with hr
    · subst hr
      exact hs.lock_iff r
    · exact hs.lock_iff r
  ptable_iff r := by
    change s.ptable = some r ↔ _
    rw [setThread_thread]
    split_ifs with hr
    · subst hr
      exact hs.ptable_iff r
    · exact hs.ptable_iff r
  asleep r chan := by
    rw [setThread_thread]
    split_ifs with hr
    · simp
    · exact hs.asleep r chan
  guard r := by
    change Pc.Guard s.pipe _
    rw [setThread_thread]
    split_ifs with hr
    · subst hr
      exact hs.guard r
    · exact hs.guard r
  awaited r chan hon := by
    change s.pipe.Waits chan ∨ _
    have hon' : (s.thread r).On chan := by
      rw [setThread_thread] at hon
      split_ifs at hon with hr
      · subst hr
        rcases hon with h | h
        · simp at h
        · exact Or.inr h
      · exact hon
    rcases hs.awaited r chan hon' with hw | ⟨h, hh⟩
    · exact Or.inl hw
    · refine Or.inr ⟨h, ?_⟩
      rw [setThread_thread]
      split_ifs with hr
      · subst hr
        exact hh
      · exact hh

/-- `pipewrite` leaves through `return -1` only while nobody is on `&p->nread`. -/
def ExitsQuietly (s : St ι) (e : Event ι) (_ : St ι) : Prop :=
  match e with
  | .step q => ∀ addr n i, (s.thread q).pc = .giveUp (.write addr n i) →
      s.pipe.readopen = false ∨ (s.thread q).killed = true → ∀ r, ¬ (s.thread r).On .nread
  | _ => True

theorem Inv.loopStep {s : St ι} (hs : Inv s) {q : ι} {c : Call}
    (hpc : (s.thread q).pc = .loop c) : Inv (loopStep s q c) := by
  have hsl := hs.sleeping_none (q := q) (by simp [hpc])
  have hholds : (s.thread q).pc.holds = true := by simp [hpc, Pc.holds]
  have hnpt : (s.thread q).pc.isSleepHold = false := by simp [hpc, Pc.isSleepHold]
  cases c with
  | write addr n i =>
    unfold PipeMachine.loopStep
    dsimp only
    split_ifs with hlt hfull
    · exact hs.advance (p := s.pipe) (by simp [hpc, Pc.holds]) ⟨rfl, hnpt⟩ hsl
        (by simpa [Pc.Guard, Pipe.full] using hfull) (Or.inl rfl) (fun _ => Or.inl)
        (fun ch h => Or.inl (by cases ch <;> simp_all [Pc.willWake]))
    · -- the store makes the ring nonempty; a waiting writer would mean it was full
      refine hs.advance (by simp [hpc, Pc.holds]) ⟨rfl, hnpt⟩ hsl trivial (Or.inr hholds) ?_
        (fun ch h => Or.inl (by cases ch <;> simp_all [Pc.willWake]))
      intro ch hw
      cases ch with
      | nread => exact Or.inr rfl
      | nwrite => exact absurd hw.1 (by simpa [Pipe.full] using hfull)
    · exact hs.advance (p := s.pipe) (by simp [hpc, Pc.holds]) ⟨rfl, hnpt⟩ hsl trivial
        (Or.inl rfl) (fun _ => Or.inl) (fun ch h => Or.inl (by cases ch <;> simp_all [Pc.willWake]))
  | read n out =>
    unfold PipeMachine.loopStep
    dsimp only
    split_ifs with hempty
    · exact hs.advance (p := s.pipe) (by simp [hpc, Pc.holds]) ⟨rfl, hnpt⟩ hsl
        (by simpa [Pc.Guard, Pipe.Waits, Pipe.empty] using hempty) (Or.inl rfl) (fun _ => Or.inl)
        (by simp [hpc, Pc.willWake])
    · exact hs.advance (p := s.pipe) (by simp [hpc, Pc.holds]) ⟨rfl, hnpt⟩ hsl trivial
        (Or.inl rfl) (fun _ => Or.inl) (by simp [hpc, Pc.willWake])

theorem Inv.giveUpStep {s : St ι} (hs : Inv s) {q : ι} {c : Call}
    (hpc : (s.thread q).pc = .giveUp c)
    (hquiet : ∀ addr n i, c = .write addr n i →
      s.pipe.readopen = false ∨ (s.thread q).killed = true → ∀ r, ¬ (s.thread r).On .nread) :
    Inv (giveUpStep s q c) := by
  have hsl := hs.sleeping_none (q := q) (by simp [hpc])
  have hnpt : (s.thread q).pc.isSleepHold = false := by simp [hpc, Pc.isSleepHold]
  have hguard := hs.guard q
  rw [hpc] at hguard
  cases c with
  | write addr n i =>
    unfold PipeMachine.giveUpStep
    dsimp only
    split_ifs with hexit
    · refine hs.advance (p := s.pipe) (by simp [hpc, Pc.holds]) ⟨rfl, hnpt⟩ hsl trivial
        (Or.inl rfl) (fun _ => Or.inl) ?_
      intro ch h
      cases ch with
      | nread => exact Or.inr (hquiet addr n i rfl (by simpa using hexit))
      | nwrite => simp [hpc, Pc.willWake] at h
    · simp only [Bool.or_eq_true, Bool.not_eq_true', not_or, Bool.not_eq_false] at hexit
      exact hs.advance (p := s.pipe) (by simp [hpc, Pc.holds]) ⟨rfl, hnpt⟩ hsl
        ⟨hguard, hexit.1⟩ (Or.inl rfl) (fun _ => Or.inl)
        (fun ch h => Or.inl (by cases ch <;> simp_all [Pc.willWake]))
  | read n out =>
    unfold PipeMachine.giveUpStep
    dsimp only
    split_ifs with hkilled
    · exact hs.advance (p := s.pipe) (by simp [hpc, Pc.holds]) ⟨rfl, hnpt⟩ hsl trivial
        (Or.inl rfl) (fun _ => Or.inl) (by simp [hpc, Pc.willWake])
    · exact hs.advance (p := s.pipe) (by simp [hpc, Pc.holds]) ⟨rfl, hnpt⟩ hsl hguard
        (Or.inl rfl) (fun _ => Or.inl) (by simp [hpc, Pc.willWake])

theorem Inv.copyStep {s : St ι} (hs : Inv s) {q : ι} {n : ℤ} {out : List UInt8}
    (hpc : (s.thread q).pc = .copy n out) : Inv (copyStep s q n out) := by
  have hsl := hs.sleeping_none (q := q) (by simp [hpc])
  have hnpt : (s.thread q).pc.isSleepHold = false := by simp [hpc, Pc.isSleepHold]
  unfold PipeMachine.copyStep
  split_ifs with hmore
  · refine hs.advance (by simp [hpc, Pc.holds]) ⟨rfl, hnpt⟩ hsl trivial
      (Or.inr (by simp [hpc, Pc.holds])) ?_
      (fun ch h => Or.inl (by cases ch <;> simp_all [Pc.willWake]))
    intro ch hw
    simp only [Pipe.empty, Bool.and_eq_true, decide_eq_true_eq, Bool.not_eq_true',
      decide_eq_false_iff_not] at hmore
    cases ch with
    | nread => exact absurd hw.1 hmore.2
    | nwrite => exact Or.inr rfl
  · exact hs.advance (p := s.pipe) (by simp [hpc, Pc.holds]) ⟨rfl, hnpt⟩ hsl trivial
      (Or.inl rfl) (fun _ => Or.inl) (fun ch h => Or.inl (by cases ch <;> simp_all [Pc.willWake]))

theorem Inv.closeSet {s : St ι} (hs : Inv s) {q : ι} {w : Bool}
    (hpc : (s.thread q).pc = .closeSet w) :
    Inv ({ s with
      pipe := if w then { s.pipe with writeopen := false }
        else { s.pipe with readopen := false } }.goto q (.closeWake w)) := by
  refine hs.advance (by simp [hpc, Pc.holds]) (by simp [hpc, Pc.isSleepHold])
    (hs.sleeping_none (by simp [hpc])) trivial (Or.inr (by simp [hpc, Pc.holds])) ?_
    (by simp [hpc, Pc.willWake])
  intro ch hw
  cases w <;> cases ch <;> simp_all [Pc.willWake, Pipe.Waits]

/-- Every step of a process keeps the invariant, `pipewrite`'s loud exits apart. -/
theorem Inv.stepOf {s s' : St ι} (hs : Inv s) {q : ι} (hstep : stepOf s q = some s')
    (hquiet : ExitsQuietly s (.step q) s') : Inv s' := by
  unfold PipeMachine.stepOf at hstep
  cases hpc : (s.thread q).pc with
  | idle => simp [hpc] at hstep
  | acquire c =>
    simp only [hpc] at hstep
    split_ifs at hstep with hfree
    obtain rfl := Option.some.inj hstep
    exact hs.take hfree (by simp [hpc, Pc.isSleepHold]) (hs.sleeping_none (by simp [hpc])) rfl rfl
      trivial
  | loop c =>
    simp only [hpc, Option.some.injEq] at hstep
    exact hstep ▸ hs.loopStep hpc
  | giveUp c =>
    simp only [hpc, Option.some.injEq] at hstep
    refine hstep ▸ hs.giveUpStep hpc ?_
    rintro addr n i rfl
    exact hquiet addr n i hpc
  | wakeFirst addr n i =>
    simp only [hpc] at hstep
    have hguard : s.pipe.Waits .nwrite := by simpa [hpc, Pc.Guard] using hs.guard q
    exact hs.wake hstep (by simp [hpc, Pc.holds]) rfl (by simp [hpc, Pc.isSleepHold]) hguard
      (by simp [hpc]) (fun ch h => by cases ch <;> simp_all [Pc.willWake])
  | sleep c =>
    simp only [hpc] at hstep
    split_ifs at hstep with hpt
    obtain rfl := Option.some.inj hstep
    exact hs.enterSleep hpc hpt
  | sleepHold c =>
    simp only [hpc, Option.some.injEq] at hstep
    exact hstep ▸ hs.fallAsleep hpc
  | asleep c =>
    simp only [hpc, Bool.and_eq_true, decide_eq_true_eq] at hstep
    split_ifs at hstep with hwoken
    obtain rfl := Option.some.inj hstep
    exact hs.resume hpc hwoken.1
  | copy n out =>
    simp only [hpc, Option.some.injEq] at hstep
    exact hstep ▸ hs.copyStep hpc
  | finalWake c =>
    simp only [hpc] at hstep
    refine hs.wake hstep (by simp [hpc, Pc.holds]) rfl (by simp [hpc, Pc.isSleepHold]) trivial
      (by simp [hpc]) (fun ch h => ?_)
    cases c <;> cases ch <;> simp_all [Pc.willWake, Call.wakes]
  | release r =>
    simp only [hpc, Option.some.injEq] at hstep
    exact hstep ▸ hs.drop (by simp [hpc, Pc.holds]) (by simp [hpc, Pc.isSleepHold])
      (hs.sleeping_none (by simp [hpc])) (by simp [hpc, Pc.willWake])
  | closeAcquire w =>
    simp only [hpc] at hstep
    split_ifs at hstep with hfree
    obtain rfl := Option.some.inj hstep
    exact hs.take hfree (by simp [hpc, Pc.isSleepHold]) (hs.sleeping_none (by simp [hpc])) rfl rfl
      trivial
  | closeSet w =>
    simp only [hpc, Option.some.injEq] at hstep
    exact hstep ▸ hs.closeSet hpc
  | closeWake w =>
    simp only [hpc] at hstep
    refine hs.wake hstep (by simp [hpc, Pc.holds]) rfl (by simp [hpc, Pc.isSleepHold]) trivial
      (by simp [hpc]) (fun ch h => ?_)
    cases w <;> cases ch <;> simp_all [Pc.willWake]
  | closeRelease =>
    simp only [hpc, Option.some.injEq] at hstep
    exact hstep ▸ hs.drop (by simp [hpc, Pc.holds]) (by simp [hpc, Pc.isSleepHold])
      (hs.sleeping_none (by simp [hpc])) (by simp [hpc, Pc.willWake])

theorem Inv.begin {s s' : St ι} (hs : Inv s) {q : ι} {pc : Pc} (hb : s.begin q pc = some s')
    (hholds : pc.holds = false) (hpt : pc.isSleepHold = false) : Inv s' := by
  unfold St.begin at hb
  cases hpc : (s.thread q).pc with
  | idle =>
    simp only [hpc, Option.some.injEq] at hb
    exact hb ▸ hs.advance (p := s.pipe) (by rw [hpc, hholds]; rfl)
      ⟨hpt, by simp [hpc, Pc.isSleepHold]⟩ (hs.sleeping_none (by simp [hpc]))
      (Pc.guard_of_not_holds _ hholds) (Or.inl rfl) (fun _ => Or.inl) (by simp [hpc, Pc.willWake])
  | _ => simp [hpc] at hb

theorem Inv.next {s s' : St ι} {e : Event ι} (hs : Inv s) (hstep : next s e = some s')
    (hquiet : ExitsQuietly s e s') : Inv s' := by
  cases e with
  | step q =>
    simp only [PipeMachine.next] at hstep
    split_ifs at hstep
    exact hs.stepOf hstep hquiet
  | pipewrite q addr n | piperead q n | pipeclose q w =>
    simp only [PipeMachine.next] at hstep
    split_ifs at hstep
    exact hs.begin hstep rfl rfl
  | kill q =>
    simp only [PipeMachine.next] at hstep
    split_ifs at hstep
    obtain rfl := Option.some.inj hstep
    exact hs.kill q

omit [DecidableEq ι] in
theorem inv_of_initial {s : St ι} (h : Initial s) : Inv s := by
  obtain ⟨-, -, -, -, hlock, hpt, -, hidle⟩ := h
  refine ⟨fun q => ?_, fun q => ?_, fun q chan hq => ?_, fun q => ?_, fun q chan hq => ?_⟩
  · simp [hlock, (hidle q).1, Pc.holds]
  · simp [hpt, (hidle q).1, Pc.isSleepHold]
  · simp [(hidle q).2] at hq
  · simp [(hidle q).1, Pc.Guard]
  · rcases hq with hq | ⟨c, hc, -⟩
    · simp [(hidle q).2] at hq
    · simp [(hidle q).1] at hc

/-- Nobody sleeps on a channel that has nothing to wait for. -/
def NoLostWakeup (s : St ι) : Prop :=
  s.lock = none → ∀ q chan, (s.thread q).sleeping = some chan → s.pipe.Waits chan

omit [DecidableEq ι] in
theorem Inv.noLostWakeup {s : St ι} (hs : Inv s) : NoLostWakeup s := by
  intro hfree q chan hq
  rcases hs.awaited q chan (Or.inl hq) with hw | ⟨h, hh⟩
  · exact hw
  · have := (hs.lock_iff h).mpr (Pc.holds_of_willWake hh)
    rw [hfree] at this
    contradiction

/-- In every run in which `pipewrite` takes its `return -1` exit only while nobody is on
`&p->nread`, no wakeup is lost in any state. -/
theorem pipe_noLostWakeup (s : St ι) (h : ((system ι).restrict ExitsQuietly).Reachable s) :
    NoLostWakeup s := by
  have hinv : Inv s := h.invariant (fun _ => inv_of_initial)
    (fun _ _ _ hs hstep => hs.next hstep.1 hstep.2)
  exact hinv.noLostWakeup

/-- With room in the ring, `pipewrite` stores a byte at each step and touches nothing else. -/
theorem pipewrite_stores {s : St ι} {q : ι} {addr : ℕ → UInt8} {n : ℤ} {i : ℕ} (k : ℕ)
    (hpc : (s.thread q).pc = .loop (.write addr n i)) (hfreed : s.freed = false)
    (hn : ((i + k : ℕ) : ℤ) ≤ n)
    (hroom : ∀ j < k, s.pipe.nwrite + BitVec.ofNat 32 j ≠ s.pipe.nread + 512#32) :
    ∃ t, (system ι).Run s (List.replicate k (.step q)) t ∧
      (t.thread q).pc = .loop (.write addr n (i + k)) ∧
      t.pipe.nwrite = s.pipe.nwrite + BitVec.ofNat 32 k ∧ t.pipe.nread = s.pipe.nread ∧
      t.freed = false ∧ t.ptable = s.ptable ∧ ∀ r, r ≠ q → t.thread r = s.thread r := by
  induction k with
  | zero => exact ⟨s, .nil s, by simpa using hpc, by simp, rfl, hfreed, rfl, fun _ _ => rfl⟩
  | succ k ih =>
    obtain ⟨t, hrun, htpc, hnw, hnr, htf, htp, hframe⟩ :=
      ih (by push_cast at hn ⊢; omega) (fun j hj => hroom j (by omega))
    have hlt : ((i + k : ℕ) : ℤ) < n := by push_cast at hn ⊢; omega
    have hfull : t.pipe.full = false := by
      simpa [Pipe.full, hnw, hnr] using hroom k (by omega)
    have hloop : loopStep t q (.write addr n (i + k)) = { t with
        pipe := t.pipe.store (addr (i + k)) }.goto q (.loop (.write addr n (i + k + 1))) := by
      unfold loopStep
      dsimp only
      rw [if_pos hlt, hfull]
      rfl
    have hstep : next t (.step q) = some ({ t with
        pipe := t.pipe.store (addr (i + k)) }.goto q (.loop (.write addr n (i + k + 1)))) := by
      simp only [next, htf, stepOf, htpc, hloop, Bool.false_eq_true, if_false]
    rw [List.replicate_succ']
    refine ⟨_, hrun.snoc hstep, by simp [Nat.add_assoc], ?_, hnr, htf, htp, ?_⟩
    · change t.pipe.nwrite + 1 = _
      rw [hnw, BitVec.add_assoc]
      congr 1
      apply BitVec.eq_of_toNat_eq
      simp
    · intro r hr
      simpa [hr] using hframe r hr

/-- A `pipewrite` that gives up while a process is SLEEPING on `&p->nread` loses its wakeup. -/
theorem giveUp_loses_wakeup {s : St ι} {q r : ι} {addr : ℕ → UInt8} {n : ℤ} {i : ℕ}
    (hpc : (s.thread q).pc = .giveUp (.write addr n i)) (hfreed : s.freed = false)
    (hfull : s.pipe.nwrite = s.pipe.nread + 512#32)
    (hexit : s.pipe.readopen = false ∨ (s.thread q).killed = true) (hrq : r ≠ q)
    (hr : (s.thread r).sleeping = some .nread) :
    ∃ t, (system ι).Run s [.step q, .step q] t ∧ ¬ NoLostWakeup t := by
  have hfirst : next s (.step q) = some (s.goto q (.release (-1))) := by
    simp [next, hfreed, stepOf, hpc, giveUpStep, hexit]
  have hsecond : next (s.goto q (.release (-1))) (.step q) =
      some ({ s.goto q (.release (-1)) with lock := none }.goto q .idle) := by
    have : (s.goto q (.release (-1))).freed = false := hfreed
    simp [next, this, stepOf]
  refine ⟨_, .cons hfirst (.single hsecond), fun h => ?_⟩
  have hwaits := h rfl r .nread (by simpa [hrq] using hr)
  have hne : s.pipe.nread ≠ s.pipe.nwrite := by
    rw [hfull]
    intro he
    have := congrArg BitVec.toNat he
    simp at this
    omega
  exact hne hwaits.1

/-- A fresh pipe with processes 0 and 1. -/
def freshPipe : St (Fin 2) where
  pipe := ⟨fun _ => 0, 0, 0, true, true⟩
  lock := none
  ptable := none
  thread _ := ⟨.idle, none, false⟩
  freed := false

local instance two_neZero : NeZero 2 := ⟨by decide⟩

/-- Process 0 falls asleep in `piperead`, process 1 is in `pipewrite` of 513 bytes. -/
def readerAsleep : List (Event (Fin 2)) :=
  .piperead 0 1 :: List.replicate 5 (.step 0) ++ [.pipewrite 1 (fun _ => 0) 513, .step 1]

/-- The run that loses the reader: the writer fills the ring, is killed, and gives up. -/
theorem pipe_loses_wakeup :
    ∃ s : St (Fin 2), (system (Fin 2)).Reachable s ∧ ¬ NoLostWakeup s := by
  obtain ⟨a, ha⟩ : ∃ a, runNext next freshPipe readerAsleep = some a := ⟨_, rfl⟩
  have hpc : (a.thread 1).pc = .loop (.write (fun _ => 0) 513 0) ∧ a.freed = false ∧
      a.ptable = none ∧ a.pipe.nwrite = 0 ∧ a.pipe.nread = 0 ∧
      (a.thread 0).sleeping = some .nread := by
    obtain rfl := Option.some.inj ha
    exact ⟨rfl, rfl, rfl, rfl, rfl, rfl⟩
  obtain ⟨hpc, hfreed, hptable, hnw, hnr, hasleep⟩ := hpc
  obtain ⟨b, hb, hbpc, hbnw, hbnr, hbf, hbp, hframe⟩ := pipewrite_stores 512 hpc hfreed (by decide)
    (fun j hj => by
      intro he
      have := congrArg BitVec.toNat he
      simp [hnw, hnr] at this
      omega)
  rw [hnw] at hbnw
  rw [hnr] at hbnr
  have hfull : next b (.step 1) = some (b.goto 1 (.giveUp (.write (fun _ => 0) 513 512))) := by
    simp [next, hbf, stepOf, hbpc, loopStep, Pipe.full, hbnw, hbnr]
  have hkill : next (b.goto 1 (.giveUp (.write (fun _ => 0) 513 512))) (.kill 1) = some _ :=
    if_pos (by simpa [St.goto, St.setThread, hptable] using hbp)
  have hgave : (((b.goto 1 (.giveUp (.write (fun _ => 0) 513 512))).setThread 1
      (fun t => { t with killed := true, sleeping := none })).thread 1).pc =
      .giveUp (.write (fun _ => 0) 513 512) := by simp
  obtain ⟨s, hs, hlost⟩ := giveUp_loses_wakeup (r := 0) hgave hbf
    (by simpa [St.goto, St.setThread, hbnr] using hbnw) (Or.inr (by simp)) (by decide)
    (by simp [hframe 0 (by decide), hasleep])
  refine ⟨s, ?_, hlost⟩
  refine (System.Reachable.init (s := freshPipe) ?_).run
    (((run_of_runNext ha).append hb).append (.cons hfull (.cons hkill hs)))
  exact ⟨rfl, rfl, rfl, rfl, rfl, rfl, rfl, fun _ => ⟨rfl, rfl⟩⟩

/-- A reader asleep on the empty open pipe has something to wait for. -/
theorem pipe_noLostWakeup_reader :
    ∃ s : St (Fin 2), (s.thread 0).sleeping = some .nread ∧ NoLostWakeup s := by
  have hsteps : ∀ {s t : St (Fin 2)} {e : Event (Fin 2)}, next s e = some t →
      (∀ addr n i, (s.thread 0).pc ≠ .giveUp (.write addr n i)) → e = .step 0 →
      ((system (Fin 2)).restrict ExitsQuietly).step s e t := by
    rintro s t _ hstep hpc rfl
    exact ⟨hstep, fun addr n i h => absurd h (hpc addr n i)⟩
  have hrun : ((system (Fin 2)).restrict ExitsQuietly).Run freshPipe
      [.piperead 0 1, .step 0, .step 0, .step 0, .step 0, .step 0] _ :=
    .cons ⟨(rfl : next _ _ = some _), trivial⟩
      (.cons (hsteps rfl (fun _ _ _ h => nomatch h) rfl)
      (.cons (hsteps rfl (fun _ _ _ h => nomatch h) rfl)
      (.cons (hsteps rfl (fun _ _ _ h => nomatch h) rfl)
      (.cons (hsteps rfl (fun _ _ _ h => nomatch h) rfl)
      (.single (hsteps rfl (fun _ _ _ h => nomatch h) rfl))))))
  exact ⟨_, rfl, pipe_noLostWakeup _ ⟨freshPipe, _,
    ⟨rfl, rfl, rfl, rfl, rfl, rfl, rfl, fun _ => ⟨rfl, rfl⟩⟩, hrun⟩⟩

end Ostep.PipeMachine

import Ostep.PipeWakeup
import Ostep.RingQueue

/-!
# A pipe is a bounded queue

A history is kept of the bytes that calls of `pipewrite` store and of those that calls of
`piperead` return. At any time the bytes returned, those that the reader with the lock has
copied out so far, and those in the ring are, in this order, the bytes stored.
-/

namespace Ostep.PipeMachine
open TransitionSystem RingQueue

/-- The bytes between the counters, oldest first. -/
def Pipe.contents (p : Pipe) : List UInt8 := RingQueue.contents p.data p.nread p.nwrite

def Pipe.length (p : Pipe) : ℕ := (p.nwrite - p.nread).toNat

structure History where
  stored : List UInt8
  returned : List UInt8

/-- The bytes that a reader has copied out in the call it is in. -/
def Pc.copied : Pc → List UInt8
  | .copy _ out | .finalWake (.read _ out) => out
  | _ => []

variable {ι : Type*}

def St.copied (s : St ι) : List UInt8 :=
  match s.lock with
  | some q => (s.thread q).pc.copied
  | none => []

/-- What a step of process `q` adds: the byte it stores, or the bytes that its `piperead`
returns, the copying being over. -/
def record (s : St ι) : Event ι → History → History
  | .step q, h =>
    match (s.thread q).pc with
    | .loop (.write addr n i) =>
      if (i : ℤ) < n ∧ s.pipe.full = false then { h with stored := h.stored ++ [addr i] } else h
    | .finalWake (.read _ out) => { h with returned := h.returned ++ out }
    | _ => h
  | _, h => h

structure Fifo (s : St ι) (h : History) : Prop where
  bound : s.pipe.length ≤ PIPESIZE
  order : h.returned ++ s.copied ++ s.pipe.contents = h.stored

section Bytes
variable {p : Pipe}

theorem Pipe.full_iff : p.full = true ↔ p.length = PIPESIZE := by
  rw [Pipe.full, decide_eq_true_iff, Pipe.length]
  constructor
  · intro h
    rw [h, show p.nread + 512#32 - p.nread = 512#32 by ring]
    rfl
  · intro h
    rw [← add_length p.nread p.nwrite, h]

theorem Pipe.contents_store (h : p.length < PIPESIZE) (b : UInt8) :
    (p.store b).contents = p.contents ++ [b] :=
  RingQueue.contents_store (by decide) (by decide) h b

theorem Pipe.length_store (h : p.length < PIPESIZE) (b : UInt8) :
    (p.store b).length = p.length + 1 :=
  RingQueue.length_store (Nat.lt_of_le_of_lt (Nat.succ_le_of_lt h) (by decide))

theorem Pipe.contents_fetch (h : p.nread ≠ p.nwrite) :
    p.contents = p.fetch.1 :: p.fetch.2.contents :=
  RingQueue.contents_fetch h

theorem Pipe.length_fetch (h : p.nread ≠ p.nwrite) : p.length = p.fetch.2.length + 1 :=
  RingQueue.length_fetch h

end Bytes

/-- A reader that has not come to its copying loop has copied nothing. -/
def Call.Fresh : Call → Prop
  | .write .. => True
  | .read _ out => out = []

def Pc.Fresh : Pc → Prop
  | .acquire c | .loop c | .giveUp c | .sleep c | .sleepHold c | .asleep c => c.Fresh
  | _ => True

structure FifoInv (s : St ι) (h : History) : Prop where
  lock_iff : ∀ q, s.lock = some q ↔ (s.thread q).pc.holds = true
  fresh : ∀ q, (s.thread q).pc.Fresh
  fifo : Fifo s h

theorem Pc.copied_of_not_holds {pc : Pc} (h : pc.holds = false) : pc.copied = [] := by
  unfold Pc.copied
  split <;> first | rfl | simp [Pc.holds] at h

variable [DecidableEq ι]

/-- Process `q` goes to `pc`, and the others stay where they are. -/
def Moved (s t : St ι) (q : ι) (pc : Pc) : Prop :=
  ∀ r, (t.thread r).pc = if r = q then pc else (s.thread r).pc

section Moves
variable {s t u : St ι} {h h' : History} {q : ι} {pc : Pc}

theorem moved_goto (hu : ∀ r, (u.thread r).pc = (s.thread r).pc) : Moved s (u.goto q pc) q pc := by
  intro r
  rw [goto_thread]
  split_ifs
  · rfl
  · exact hu r

omit [DecidableEq ι] in
theorem wakeup1_pc (chan : Chan) (r : ι) : ((s.wakeup1 chan).thread r).pc = (s.thread r).pc := by
  simp only [St.wakeup1]
  split_ifs <;> rfl

theorem Moved.self (hm : Moved s t q pc) : (t.thread q).pc = pc := by
  rw [hm q, if_pos rfl]

theorem Moved.other (hm : Moved s t q pc) {r : ι} (hr : r ≠ q) :
    (t.thread r).pc = (s.thread r).pc := by
  rw [hm r, if_neg hr]

omit [DecidableEq ι] in
theorem FifoInv.holds_other (hs : FifoInv s h) {r : ι} (hr : r ≠ q)
    (hq : s.lock = some q ∨ s.lock = none) : (s.thread r).pc.holds = false := by
  by_contra hh
  have hlock := (hs.lock_iff r).mpr (by simpa using hh)
  rcases hq with hq | hq
  · rw [hq] at hlock
    exact hr (Option.some.inj hlock).symm
  · rw [hq] at hlock
    cases hlock

/-- What a step does with `p->lock`: nothing, take it or release it. -/
def Locks (s t : St ι) (q : ι) (pc : Pc) : Prop :=
  t.lock = s.lock ∧ pc.holds = (s.thread q).pc.holds ∨
  s.lock = none ∧ t.lock = some q ∧ pc.holds = true ∨
  s.lock = some q ∧ t.lock = none ∧ pc.holds = false

theorem FifoInv.locks (hs : FifoInv s h) (hm : Moved s t q pc) (hl : Locks s t q pc) (r : ι) :
    t.lock = some r ↔ (t.thread r).pc.holds = true := by
  rcases eq_or_ne r q with rfl | hr
  · rw [hm.self]
    rcases hl with ⟨hl, hp⟩ | ⟨-, hl, hp⟩ | ⟨-, hl, hp⟩
    · rw [hl, hp]
      exact hs.lock_iff r
    · simp [hl, hp]
    · simp [hl, hp]
  · rw [hm.other hr]
    rcases hl with ⟨hl, -⟩ | ⟨hfree, hl, -⟩ | ⟨hq, hl, -⟩
    · rw [hl]
      exact hs.lock_iff r
    · simp [hl, hr.symm, hs.holds_other hr (Or.inr hfree)]
    · simp [hl, hs.holds_other hr (Or.inl hq)]

theorem Moved.fresh (hm : Moved s t q pc) (hs : FifoInv s h) (hpc : pc.Fresh) (r : ι) :
    (t.thread r).pc.Fresh := by
  rcases eq_or_ne r q with rfl | hr
  · rwa [hm.self]
  · rw [hm.other hr]
    exact hs.fresh r

/-- A step that moves no byte. -/
theorem FifoInv.quiet (hs : FifoInv s h) (hm : Moved s t q pc) (hl : Locks s t q pc)
    (hfresh : pc.Fresh) (hcopied : pc.copied = (s.thread q).pc.copied)
    (hbytes : t.pipe.contents = s.pipe.contents ∧ t.pipe.length = s.pipe.length) :
    FifoInv t h := by
  have hsame : t.copied = s.copied := by
    rcases hl with ⟨hl, hp⟩ | ⟨hfree, hl, -⟩ | ⟨hq, hl, hp⟩
    · simp only [St.copied, hl]
      cases hlock : s.lock with
      | none => rfl
      | some r =>
        change (t.thread r).pc.copied = (s.thread r).pc.copied
        rcases eq_or_ne r q with rfl | hr
        · rw [hm.self, hcopied]
        · rw [hm.other hr]
    · have hnot : (s.thread q).pc.holds = false := by
        by_contra hh
        rw [(hs.lock_iff q).mpr (by simpa using hh)] at hfree
        cases hfree
      simp only [St.copied, hl, hfree, hm.self]
      rw [hcopied, Pc.copied_of_not_holds hnot]
    · simp only [St.copied, hl, hq]
      rw [← hcopied, Pc.copied_of_not_holds hp]
  refine ⟨hs.locks hm hl, hm.fresh hs hfresh, ⟨?_, ?_⟩⟩
  · rw [hbytes.2]
    exact hs.fifo.bound
  · rw [hsame, hbytes.1]
    exact hs.fifo.order

/-- A step of the process with the lock. -/
theorem FifoInv.work (hs : FifoInv s h) (hm : Moved s t q pc) (hl : t.lock = s.lock)
    (hold : (s.thread q).pc.holds = true) (hholds : pc.holds = true) (hfresh : pc.Fresh)
    (hbound : t.pipe.length ≤ PIPESIZE)
    (horder : h.returned ++ (s.thread q).pc.copied ++ s.pipe.contents = h.stored →
      h'.returned ++ pc.copied ++ t.pipe.contents = h'.stored) : FifoInv t h' := by
  have hq := (hs.lock_iff q).mpr hold
  have hbefore := hs.fifo.order
  simp only [St.copied, hq] at hbefore
  refine ⟨hs.locks hm (Or.inl ⟨hl, by rw [hold, hholds]⟩), hm.fresh hs hfresh, ⟨hbound, ?_⟩⟩
  simp only [St.copied, hl, hq, hm.self]
  exact horder hbefore

end Moves

section Steps
variable {s t : St ι} {h : History} {q : ι}

omit [DecidableEq ι] in
theorem record_step {pc : Pc} (hpc : (s.thread q).pc = pc)
    (hwrite : ∀ addr n i, pc ≠ .loop (.write addr n i))
    (hread : ∀ n out, pc ≠ .finalWake (.read n out)) : record s (.step q) h = h := by
  simp only [record, hpc]

theorem FifoInv.loopStep {c : Call} (hs : FifoInv s h) (hpc : (s.thread q).pc = .loop c) :
    FifoInv (loopStep s q c) (record s (.step q) h) := by
  have hfresh : c.Fresh := by simpa [hpc, Pc.Fresh] using hs.fresh q
  cases c with
  | write addr n i =>
    simp only [PipeMachine.loopStep, record, hpc]
    by_cases hi : (i : ℤ) < n
    · cases hfull : s.pipe.full with
      | true =>
        simp only [hi, if_true, Bool.true_eq_false, and_false, if_false]
        exact hs.quiet (moved_goto fun _ => rfl) (Or.inl ⟨rfl, by rw [hpc]; rfl⟩) trivial
          (by rw [hpc]; rfl) ⟨rfl, rfl⟩
      | false =>
        simp only [hi, if_true, Bool.false_eq_true, and_self, if_false]
        have hroom : s.pipe.length < PIPESIZE := by
          refine lt_of_le_of_ne hs.fifo.bound fun he => ?_
          rw [Pipe.full_iff.mpr he] at hfull
          cases hfull
        refine hs.work (moved_goto fun _ => rfl) rfl (by rw [hpc]; rfl) rfl trivial ?_ fun ho => ?_
        · exact (Pipe.length_store hroom _).le.trans hroom
        · change h.returned ++ [] ++ (s.pipe.store (addr i)).contents = h.stored ++ [addr i]
          rw [hpc] at ho
          rw [Pipe.contents_store hroom, ← List.append_assoc]
          exact congrArg (· ++ [addr i]) ho
    · simp only [hi, if_false, false_and]
      exact hs.quiet (moved_goto fun _ => rfl) (Or.inl ⟨rfl, by rw [hpc]; rfl⟩) trivial
        (by rw [hpc]; rfl) ⟨rfl, rfl⟩
  | read n out =>
    obtain rfl : out = [] := hfresh
    rw [record_step hpc (by simp) (by simp)]
    simp only [PipeMachine.loopStep]
    split_ifs
    · exact hs.quiet (moved_goto fun _ => rfl) (Or.inl ⟨rfl, by rw [hpc]; rfl⟩) rfl
        (by rw [hpc]; rfl) ⟨rfl, rfl⟩
    · exact hs.quiet (moved_goto fun _ => rfl) (Or.inl ⟨rfl, by rw [hpc]; rfl⟩) trivial
        (by rw [hpc]; rfl) ⟨rfl, rfl⟩

theorem FifoInv.giveUpStep {c : Call} (hs : FifoInv s h) (hpc : (s.thread q).pc = .giveUp c) :
    FifoInv (giveUpStep s q c) h := by
  have hfresh : c.Fresh := by simpa [hpc, Pc.Fresh] using hs.fresh q
  cases c with
  | write addr n i =>
    simp only [PipeMachine.giveUpStep]
    split_ifs
    · exact hs.quiet (moved_goto fun _ => rfl) (Or.inl ⟨rfl, by rw [hpc]; rfl⟩) trivial
        (by rw [hpc]; rfl) ⟨rfl, rfl⟩
    · exact hs.quiet (moved_goto fun _ => rfl) (Or.inl ⟨rfl, by rw [hpc]; rfl⟩) trivial
        (by rw [hpc]; rfl) ⟨rfl, rfl⟩
  | read n out =>
    simp only [PipeMachine.giveUpStep]
    split_ifs
    · exact hs.quiet (moved_goto fun _ => rfl) (Or.inl ⟨rfl, by rw [hpc]; rfl⟩) trivial
        (by rw [hpc]; rfl) ⟨rfl, rfl⟩
    · exact hs.quiet (moved_goto fun _ => rfl) (Or.inl ⟨rfl, by rw [hpc]; rfl⟩) hfresh
        (by rw [hpc]; rfl) ⟨rfl, rfl⟩

theorem FifoInv.copyStep {n : ℤ} {out : List UInt8} (hs : FifoInv s h)
    (hpc : (s.thread q).pc = .copy n out) : FifoInv (copyStep s q n out) h := by
  simp only [PipeMachine.copyStep]
  split_ifs with hcopy
  · have hne : s.pipe.nread ≠ s.pipe.nwrite := by
      simp only [Bool.and_eq_true, Pipe.empty, Bool.not_eq_true', decide_eq_false_iff_not] at hcopy
      exact hcopy.2
    refine hs.work (moved_goto fun _ => rfl) rfl (by rw [hpc]; rfl) rfl trivial ?_ fun ho => ?_
    · have hlen := Pipe.length_fetch hne
      exact (Nat.le_of_succ_le hlen.ge).trans hs.fifo.bound
    · change h.returned ++ (out ++ [s.pipe.fetch.1]) ++ s.pipe.fetch.2.contents = h.stored
      rw [hpc, Pipe.contents_fetch hne] at ho
      rw [← ho]
      simp [Pc.copied]
  · exact hs.quiet (moved_goto fun _ => rfl) (Or.inl ⟨rfl, by rw [hpc]; rfl⟩) trivial
      (by rw [hpc]; rfl) ⟨rfl, rfl⟩

omit [DecidableEq ι] in
theorem wakeup_eq_some {chan : Chan} {u : St ι} (h : s.wakeup chan = some u) :
    u = s.wakeup1 chan := by
  unfold St.wakeup at h
  split_ifs at h
  exact (Option.some.inj h).symm

/-- The wakeup at the end of a call; a reader's call then returns what it has copied. -/
theorem FifoInv.finalWake {c : Call} (hs : FifoInv s h) (hpc : (s.thread q).pc = .finalWake c)
    (hstep : (s.wakeup c.wakes).map (·.goto q (.release c.result)) = some t) :
    FifoInv t (record s (.step q) h) := by
  obtain ⟨u, hu, rfl⟩ := Option.map_eq_some_iff.mp hstep
  obtain rfl := wakeup_eq_some hu
  cases c with
  | write addr n i =>
    rw [record_step hpc nofun nofun]
    exact hs.quiet (moved_goto (wakeup1_pc _)) (Or.inl ⟨rfl, by rw [hpc]; rfl⟩) trivial
      (by rw [hpc]; rfl) ⟨rfl, rfl⟩
  | read n out =>
    simp only [record, hpc]
    refine hs.work (moved_goto (wakeup1_pc _)) rfl (by rw [hpc]; rfl) rfl trivial hs.fifo.bound
      fun ho => ?_
    change h.returned ++ out ++ [] ++ s.pipe.contents = h.stored
    rw [hpc] at ho
    rw [List.append_nil]
    exact ho

theorem FifoInv.stepOf (hs : FifoInv s h) (hstep : stepOf s q = some t) :
    FifoInv t (record s (.step q) h) := by
  unfold PipeMachine.stepOf at hstep
  have hfresh := hs.fresh q
  cases hpc : (s.thread q).pc with
  | idle => simp [hpc] at hstep
  | acquire c =>
    simp only [hpc] at hstep hfresh
    split_ifs at hstep with hfree
    obtain rfl := Option.some.inj hstep
    rw [record_step hpc nofun nofun]
    exact hs.quiet (moved_goto fun _ => rfl) (Or.inr (Or.inl ⟨hfree, rfl, rfl⟩)) hfresh
      (by rw [hpc]; rfl) ⟨rfl, rfl⟩
  | loop c =>
    simp only [hpc, Option.some.injEq] at hstep
    exact hstep ▸ hs.loopStep hpc
  | giveUp c =>
    simp only [hpc, Option.some.injEq] at hstep
    rw [record_step hpc nofun nofun]
    exact hstep ▸ hs.giveUpStep hpc
  | wakeFirst addr n i =>
    simp only [hpc] at hstep
    obtain ⟨u, hu, rfl⟩ := Option.map_eq_some_iff.mp hstep
    obtain rfl := wakeup_eq_some hu
    rw [record_step hpc nofun nofun]
    exact hs.quiet (moved_goto (wakeup1_pc _)) (Or.inl ⟨rfl, by rw [hpc]; rfl⟩) trivial
      (by rw [hpc]; rfl) ⟨rfl, rfl⟩
  | sleep c =>
    simp only [hpc] at hstep hfresh
    split_ifs at hstep
    obtain rfl := Option.some.inj hstep
    have hq := (hs.lock_iff q).mpr (by rw [hpc]; rfl)
    rw [record_step hpc nofun nofun]
    exact hs.quiet (moved_goto fun _ => rfl) (Or.inr (Or.inr ⟨hq, rfl, rfl⟩)) hfresh
      (by rw [hpc]; rfl) ⟨rfl, rfl⟩
  | sleepHold c =>
    simp only [hpc, Option.some.injEq] at hstep hfresh
    subst hstep
    rw [record_step hpc nofun nofun]
    have hm : Moved s ({ s with ptable := none }.setThread q
        (fun t => { t with pc := .asleep c, sleeping := some c.chan })) q (.asleep c) := by
      intro r
      rw [setThread_thread]
      split_ifs <;> rfl
    exact hs.quiet hm (Or.inl ⟨rfl, by rw [hpc]; rfl⟩) hfresh (by rw [hpc]; rfl) ⟨rfl, rfl⟩
  | asleep c =>
    simp only [hpc] at hstep hfresh
    split_ifs at hstep
    obtain rfl := Option.some.inj hstep
    rw [record_step hpc nofun nofun]
    exact hs.quiet (moved_goto fun _ => rfl) (Or.inl ⟨rfl, by rw [hpc]; rfl⟩) hfresh
      (by rw [hpc]; rfl) ⟨rfl, rfl⟩
  | copy n out =>
    simp only [hpc, Option.some.injEq] at hstep
    rw [record_step hpc nofun nofun]
    exact hstep ▸ hs.copyStep hpc
  | finalWake c =>
    simp only [hpc] at hstep
    exact hs.finalWake hpc hstep
  | release r =>
    simp only [hpc, Option.some.injEq] at hstep
    subst hstep
    have hq := (hs.lock_iff q).mpr (by rw [hpc]; rfl)
    rw [record_step hpc nofun nofun]
    exact hs.quiet (moved_goto fun _ => rfl) (Or.inr (Or.inr ⟨hq, rfl, rfl⟩)) trivial
      (by rw [hpc]; rfl) ⟨rfl, rfl⟩
  | closeAcquire w =>
    simp only [hpc] at hstep
    split_ifs at hstep with hfree
    obtain rfl := Option.some.inj hstep
    rw [record_step hpc nofun nofun]
    exact hs.quiet (moved_goto fun _ => rfl) (Or.inr (Or.inl ⟨hfree, rfl, rfl⟩)) trivial
      (by rw [hpc]; rfl) ⟨rfl, rfl⟩
  | closeSet w =>
    simp only [hpc, Option.some.injEq] at hstep
    subst hstep
    rw [record_step hpc nofun nofun]
    refine hs.quiet (moved_goto fun _ => rfl) (Or.inl ⟨rfl, by rw [hpc]; rfl⟩) trivial
      (by rw [hpc]; rfl) ?_
    cases w <;> exact ⟨rfl, rfl⟩
  | closeWake w =>
    simp only [hpc] at hstep
    obtain ⟨u, hu, rfl⟩ := Option.map_eq_some_iff.mp hstep
    obtain rfl := wakeup_eq_some hu
    rw [record_step hpc nofun nofun]
    exact hs.quiet (moved_goto (wakeup1_pc _)) (Or.inl ⟨rfl, by rw [hpc]; rfl⟩) trivial
      (by rw [hpc]; rfl) ⟨rfl, rfl⟩
  | closeRelease =>
    simp only [hpc, Option.some.injEq] at hstep
    subst hstep
    have hq := (hs.lock_iff q).mpr (by rw [hpc]; rfl)
    rw [record_step hpc nofun nofun]
    exact hs.quiet (moved_goto fun _ => rfl) (Or.inr (Or.inr ⟨hq, rfl, rfl⟩)) trivial
      (by rw [hpc]; rfl) ⟨rfl, rfl⟩

theorem FifoInv.begin {pc : Pc} (hs : FifoInv s h) (hb : s.begin q pc = some t)
    (hholds : pc.holds = false) (hfresh : pc.Fresh) : FifoInv t h := by
  unfold St.begin at hb
  cases hpc : (s.thread q).pc with
  | idle =>
    simp only [hpc, Option.some.injEq] at hb
    subst hb
    exact hs.quiet (moved_goto fun _ => rfl) (Or.inl ⟨rfl, by rw [hpc, hholds]; rfl⟩) hfresh
      (by rw [hpc, Pc.copied_of_not_holds hholds]; rfl) ⟨rfl, rfl⟩
  | _ => simp [hpc] at hb

theorem FifoInv.next {e : Event ι} (hs : FifoInv s h) (hstep : next s e = some t) :
    FifoInv t (record s e h) := by
  cases e with
  | step q =>
    simp only [PipeMachine.next] at hstep
    split_ifs at hstep
    exact hs.stepOf hstep
  | pipewrite q addr n =>
    simp only [PipeMachine.next] at hstep
    split_ifs at hstep
    exact hs.begin hstep rfl trivial
  | piperead q n =>
    simp only [PipeMachine.next] at hstep
    split_ifs at hstep
    exact hs.begin hstep rfl rfl
  | pipeclose q w =>
    simp only [PipeMachine.next] at hstep
    split_ifs at hstep
    exact hs.begin hstep rfl trivial
  | kill q =>
    simp only [PipeMachine.next] at hstep
    split_ifs at hstep
    obtain rfl := Option.some.inj hstep
    have hm : Moved s (s.setThread q (fun t => { t with killed := true, sleeping := none })) q
        (s.thread q).pc := by
      intro r
      rw [setThread_thread]
      split_ifs with hr
      · rfl
      · rfl
    exact hs.quiet hm (Or.inl ⟨rfl, rfl⟩) (hs.fresh q) rfl ⟨rfl, rfl⟩

end Steps

omit [DecidableEq ι] in
theorem fifoInv_of_initial {s : St ι} (h : Initial s) : FifoInv s ⟨[], []⟩ := by
  obtain ⟨hread, hwrite, -, -, hlock, -, -, hidle⟩ := h
  have hzero : s.pipe.length = 0 := by
    rw [Pipe.length, hread, hwrite]
    rfl
  refine ⟨fun q => ?_, fun q => ?_, ⟨?_, ?_⟩⟩
  · simp [hlock, (hidle q).1, Pc.holds]
  · rw [(hidle q).1]
    trivial
  · rw [hzero]
    exact Nat.zero_le _
  · have hnil : s.pipe.contents = [] := by
      rw [Pipe.contents, RingQueue.contents, ← Pipe.length, hzero]
      rfl
    simp [St.copied, hlock, hnil]

/-- The processes on a pipe, with the bytes that have gone in and come out. -/
def historySystem (ι : Type*) [DecidableEq ι] : System (St ι × History) (Event ι) :=
  (system ι).observe ⟨[], []⟩ record

theorem pipe_fifo {s : St ι} {h : History} (hr : (historySystem ι).Reachable (s, h)) :
    Fifo s h ∧ (s.lock = none → h.returned ++ s.pipe.contents = h.stored) := by
  have hinv : FifoInv (s, h).1 (s, h).2 := by
    refine hr.invariant (I := fun p => FifoInv p.1 p.2) (fun p hp => ?_) fun p e p' hp hst => ?_
    · rw [hp.2]
      exact fifoInv_of_initial hp.1
    · rw [hst.2]
      exact hp.next hst.1
  refine ⟨hinv.fifo, fun hfree => ?_⟩
  have horder := hinv.fifo.order
  simpa only [St.copied, hfree, List.append_nil] using horder

/-- An empty pipe between two processes. -/
def opened : St (Fin 2) :=
  ⟨⟨fun _ => 0, 0, 0, true, true⟩, none, none, fun _ => ⟨.idle, none, false⟩, false⟩

/-- Process 0 has stored three bytes, of which a call of process 1 has returned two. -/
theorem pipe_fifo_two : ∃ (s : St (Fin 2)) (h : History), h.stored = [7, 8, 9] ∧
    h.returned = [7, 8] ∧ s.pipe.contents = [9] ∧ Fifo s h := by
  obtain ⟨⟨s, h⟩, hr, hstored, hreturned, hfree⟩ :
      ∃ p, (historySystem (Fin 2)).Reachable p ∧ _ := observe_reachable_of_runNext opened
    ([.pipewrite 0 (fun i => UInt8.ofNat (i + 7)) 3] ++ List.replicate 7 (.step 0) ++
      [.piperead 1 2] ++ List.replicate 7 (.step 1))
    (fun p => p.2.stored = [7, 8, 9] ∧ p.2.returned = [7, 8] ∧ p.1.lock = none)
    (by simp [Initial, opened]) (by decide +kernel)
  obtain ⟨hfifo, hring⟩ := pipe_fifo hr
  have hrest := hring hfree
  rw [hstored, hreturned] at hrest
  exact ⟨s, h, hstored, hreturned, by simpa using hrest, hfifo⟩

end Ostep.PipeMachine

import Ostep.CpuStates

/-!
# A RUNNING process is on one CPU

`ptable.lock` is handed from thread to thread across `swtch`, and inside the hand-over
`p->state`, `c->proc`, `%cr3` and the stack in use change one after the other. The invariant
says for every place of a CPU what it has in hand, and for every slot where its thread is:
saved in its own context, or on the one CPU whose `c->proc` it is. What a step of one CPU
does to a slot leaves the other CPUs alone, because a slot that is `c->proc` of a CPU changes
only by that CPU, up to a wakeup.
-/

namespace Ostep.CpuStates
open TransitionSystem ProcTable

/-- The places at which a CPU holds `ptable.lock`. -/
def Exec.holds : Exec → Bool
  | .scheduler .start | .scheduler .acquire | .thread _ .run => false
  | _ => true

/-- The thread of slot `t` may continue here. -/
def Ret.Of (t : Slot) : Ret → Prop
  | .forkret | .yield => True
  | .sleep p | .wait p => p = t
  | .exit => False

def Context.Of (x : Context) (p : Slot) : Prop := x.stack = p ∧ x.ret.Of p

/-- What a thread of slot `t` in the state `st` may be doing on a CPU. -/
def TPc.Ok (st : ProcState) (t : Slot) : TPc → Prop
  | .run | .release => st = .running
  | .tidy p _ | .waitScan p => st = .running ∧ p = t
  | .sched r => (st = .runnable ∨ st = .sleeping) ∧ r.Of t ∨ st = .zombie ∧ r = .exit
  | .panicked => False

def Parked (st : ProcState) : Prop := st = .runnable ∨ st = .sleeping ∨ st = .zombie

section Invariant
variable {κ : Type*}

def SPc.Ok (s : St κ) (k : Cpu) : SPc → Prop
  | .start | .acquire | .scan _ | .release => k.proc = none ∧ k.cr3 = none
  | .switchuvm p => k.proc = some p ∧ k.cr3 = none ∧ s.state p = .runnable
  | .setRunning p => k.proc = some p ∧ k.cr3 = some p ∧ s.state p = .runnable
  | .swtch p => k.proc = some p ∧ k.cr3 = some p ∧ s.state p = .running ∧ (s.context p).Of p
  | .switchkvm p => k.proc = some p ∧ k.cr3 = some p ∧ Parked (s.state p)
  | .clear p => k.proc = some p ∧ k.cr3 = none ∧ Parked (s.state p)

def Cpu.Ok (s : St κ) (k : Cpu) : Prop :=
  match k.exec with
  | .scheduler pc => pc.Ok s k
  | .thread t pc =>
    k.proc = some t ∧ k.cr3 = some t ∧ k.scheduler = .switchkvm t ∧ pc.Ok (s.state t) t

/-- What is known of a slot: a RUNNING process is on a CPU, a process that is on no CPU is
saved in its own context, and every process has its stack and its page directory. -/
structure SlotOk (s : St κ) (p : Slot) : Prop where
  running : s.state p = .running → ∃ c, (s.cpu c).proc = some p
  saved : s.state p = .runnable ∨ s.state p = .sleeping →
    (∀ c pc, (s.cpu c).exec ≠ .thread p pc) → (s.context p).Of p
  stocked : s.state p ≠ .unused → s.state p ≠ .embryo → s.kstack p = true ∧ s.pgdir p = true

/-- The slot that a `fork` in progress fills. -/
def embryoOf : ProcTable.Pc → Option Slot
  | .forkAlloced np | .forkStacked np | .forkFilled np => some np
  | .user | .waiting => none

structure ForkOk (s : St κ) (t np : Slot) : Prop where
  embryo : s.state np = .embryo
  unique : ∀ u, embryoOf (s.table.pc u) = some np → u = t
  stacked : s.table.pc t ≠ .forkAlloced np → s.kstack np = true ∧ (s.context np).Of np
  filled : s.table.pc t = .forkFilled np → s.pgdir np = true

structure Inv (s : St κ) : Prop where
  lock_iff : ∀ c, s.lock = some c ↔ (s.cpu c).exec.holds = true
  cpu : ∀ c, (s.cpu c).Ok s
  unique : ∀ c d p, (s.cpu c).proc = some p → (s.cpu d).proc = some p → c = d
  slot : ∀ p, SlotOk s p
  fork : ∀ t np, embryoOf (s.table.pc t) = some np → ForkOk s t np

theorem Cpu.Ok.proc_of_thread {s : St κ} {k : Cpu} (h : k.Ok s) {t : Slot} {pc : TPc}
    (hx : k.exec = .thread t pc) : k.proc = some t := by
  unfold Cpu.Ok at h
  rw [hx] at h
  exact h.1

/-- A CPU that does not hold `ptable.lock` and has a process runs it outside any critical
section. -/
theorem Cpu.Ok.of_not_holds {s : St κ} {k : Cpu} (h : k.Ok s) (hk : k.exec.holds = false)
    {p : Slot} (hp : k.proc = some p) : k.exec = .thread p .run ∧ s.state p = .running := by
  unfold Cpu.Ok at h
  cases hx : k.exec with
  | scheduler pc =>
    rw [hx] at h hk
    cases pc <;> simp_all [Exec.holds, SPc.Ok]
  | thread t pc =>
    rw [hx] at h hk
    cases pc <;> simp_all [Exec.holds, TPc.Ok]

/-- The process of a CPU exists. -/
theorem Cpu.Ok.live {s : St κ} {k : Cpu} (h : k.Ok s) {p : Slot} (hp : k.proc = some p) :
    s.state p ≠ .unused ∧ s.state p ≠ .embryo := by
  have hparked : ∀ st, Parked st → st ≠ .unused ∧ st ≠ .embryo := by
    rintro st (rfl | rfl | rfl) <;> simp
  unfold Cpu.Ok at h
  cases hx : k.exec with
  | scheduler pc =>
    rw [hx] at h
    cases pc with
    | start | acquire | scan _ | release => simp [SPc.Ok, hp] at h
    | switchuvm q | setRunning q | swtch q =>
      obtain ⟨hq, -, h⟩ := h
      obtain rfl : q = p := by simpa [hp] using hq.symm
      simp [h]
    | switchkvm q | clear q =>
      obtain ⟨hq, -, h⟩ := h
      obtain rfl : q = p := by simpa [hp] using hq.symm
      exact hparked _ h
  | thread t pc =>
    rw [hx] at h
    obtain ⟨hq, -, -, h⟩ := h
    obtain rfl : t = p := by simpa [hp] using hq.symm
    cases pc with
    | run | release => simp [show s.state t = .running from h]
    | tidy q w | waitScan q => simp [h.1]
    | sched r => rcases h with ⟨h | h, -⟩ | ⟨h, -⟩ <;> simp [h]
    | panicked => exact h.elim

/-- What a step of another CPU may do to a slot that is `c->proc` of this one: wake it. -/
structure Same (s s' : St κ) (p : Slot) : Prop where
  state : s'.state p = s.state p ∨ s.state p = .sleeping ∧ s'.state p = .runnable
  context : s'.context p = s.context p
  kstack : s'.kstack p = s.kstack p
  pgdir : s'.pgdir p = s.pgdir p

theorem Same.eq_of_ne {s s' : St κ} {p : Slot} (h : Same s s' p) (hp : s.state p ≠ .sleeping) :
    s'.state p = s.state p := by
  rcases h.state with h | ⟨h, -⟩
  · exact h
  · exact absurd h hp

theorem Same.parked {s s' : St κ} {p : Slot} (h : Same s s' p) (hp : Parked (s.state p)) :
    Parked (s'.state p) := by
  rcases h.state with he | ⟨-, he⟩
  · rwa [he]
  · exact Or.inl he

theorem Cpu.Ok.frame {s s' : St κ} {k : Cpu} (h : k.Ok s)
    (hsame : ∀ p, k.proc = some p → Same s s' p) : k.Ok s' := by
  unfold Cpu.Ok at h ⊢
  cases hx : k.exec with
  | scheduler pc =>
    rw [hx] at h
    cases pc with
    | start | acquire | scan _ | release => exact h
    | switchuvm q | setRunning q =>
      obtain ⟨hq, hcr, h⟩ := h
      exact ⟨hq, hcr, ((hsame q hq).eq_of_ne (by simp [h])).trans h⟩
    | swtch q =>
      obtain ⟨hq, hcr, h, hctx⟩ := h
      refine ⟨hq, hcr, ((hsame q hq).eq_of_ne (by simp [h])).trans h, ?_⟩
      rwa [(hsame q hq).context]
    | switchkvm q | clear q =>
      obtain ⟨hq, hcr, h⟩ := h
      exact ⟨hq, hcr, (hsame q hq).parked h⟩
  | thread t pc =>
    rw [hx] at h
    obtain ⟨hq, hcr, hsch, h⟩ := h
    refine ⟨hq, hcr, hsch, ?_⟩
    have hs := hsame t hq
    cases pc with
    | run | release => exact (hs.eq_of_ne (by simp [show s.state t = .running from h])).trans h
    | tidy q w | waitScan q => exact ⟨(hs.eq_of_ne (by simp [h.1])).trans h.1, h.2⟩
    | sched r =>
      rcases h with ⟨h, hr⟩ | ⟨h, hr⟩
      · rcases hs.state with he | ⟨-, he⟩
        · exact Or.inl ⟨by rwa [he], hr⟩
        · exact Or.inl ⟨Or.inl he, hr⟩
      · exact Or.inr ⟨(hs.eq_of_ne (by simp [h])).trans h, hr⟩
    | panicked => exact h

/-- A slot is known as before while its thread stays where it is. -/
theorem SlotOk.frame {s s' : St κ} {p : Slot} (h : SlotOk s p) (hsame : Same s s' p)
    (hproc : s.state p = .running → ∀ d, (s.cpu d).proc = some p → (s'.cpu d).proc = some p)
    (hthread : ∀ d pc, (s.cpu d).exec = .thread p pc → ∃ pc', (s'.cpu d).exec = .thread p pc') :
    SlotOk s' p where
  running hr := by
    have hr' : s.state p = .running := by
      rcases hsame.state with he | ⟨-, he⟩
      · rwa [he] at hr
      · simp [he] at hr
    obtain ⟨d, hd⟩ := h.running hr'
    exact ⟨d, hproc hr' d hd⟩
  saved hst hnone := by
    rw [hsame.context]
    apply h.saved
    · rcases hsame.state with he | ⟨he, -⟩
      · rwa [he] at hst
      · exact Or.inr he
    · intro d pc hd
      obtain ⟨pc', hd'⟩ := hthread d pc hd
      exact hnone d pc' hd'
  stocked hu he := by
    rw [hsame.kstack, hsame.pgdir]
    apply h.stocked <;> intro hc <;> rcases hsame.state with hs | ⟨hs, -⟩ <;> simp_all

/-- A step of the CPU `c`: it touches its own process and slots that are on no CPU. -/
theorem Inv.update {s s' : St κ} (hs : Inv s) (c : κ)
    (hcpu : ∀ d, d ≠ c → s'.cpu d = s.cpu d)
    (hlock : ∀ d, d ≠ c → (s'.lock = some d ↔ s.lock = some d))
    (hown : s'.lock = some c ↔ (s'.cpu c).exec.holds = true) (hc : (s'.cpu c).Ok s')
    (hproc : ∀ p, (s'.cpu c).proc = some p →
      (s.cpu c).proc = some p ∨ ∀ d, (s.cpu d).proc ≠ some p)
    (hsame : ∀ p, Same s s' p ∨ (s.cpu c).proc = some p ∨ ∀ d, (s.cpu d).proc ≠ some p)
    (hslot : ∀ p, Same s s' p ∧ (s.cpu c).proc ≠ some p ∨ SlotOk s' p)
    (hfork : ∀ t np, embryoOf (s'.table.pc t) = some np → ForkOk s' t np) : Inv s' where
  lock_iff d := by
    by_cases hd : d = c
    · rw [hd]
      exact hown
    · rw [hlock d hd, hcpu d hd]
      exact hs.lock_iff d
  cpu d := by
    by_cases hd : d = c
    · rw [hd]
      exact hc
    · rw [hcpu d hd]
      refine (hs.cpu d).frame fun p hp => ?_
      rcases hsame p with h | h | h
      · exact h
      · exact absurd (hs.unique d c p hp h) hd
      · exact absurd hp (h d)
  unique := by
    have hother : ∀ d p, d ≠ c → (s'.cpu c).proc = some p → (s'.cpu d).proc ≠ some p := by
      intro d p hd hp hp'
      rw [hcpu d hd] at hp'
      rcases hproc p hp with h | h
      · exact hd (hs.unique d c p hp' h)
      · exact h d hp'
    intro d e p hd he
    by_cases hdc : d = c <;> by_cases hec : e = c
    · rw [hdc, hec]
    · rw [hdc] at hd
      exact absurd he (hother e p hec hd)
    · rw [hec] at he
      exact absurd hd (hother d p hdc he)
    · rw [hcpu d hdc] at hd
      rw [hcpu e hec] at he
      exact hs.unique d e p hd he
  slot p := by
    rcases hslot p with ⟨hp, hold⟩ | hp
    · have hne : ∀ d, (s.cpu d).proc = some p → d ≠ c := by
        rintro d hd rfl
        exact hold hd
      refine (hs.slot p).frame hp (fun _ d hd => ?_) (fun d pc hx => ⟨pc, ?_⟩)
      · rwa [hcpu d (hne d hd)]
      · rwa [hcpu d (hne d ((hs.cpu d).proc_of_thread hx))]
    · exact hp
  fork := hfork

/-- A `fork` in progress is known as before when its slots are left alone. -/
theorem ForkOk.frame {s s' : St κ} {t np : Slot} (h : ForkOk s t np)
    (hpc : ∀ u, embryoOf (s'.table.pc u) = some np → s'.table.pc u = s.table.pc u)
    (ht : s'.table.pc t = s.table.pc t) (hsame : Same s s' np) : ForkOk s' t np where
  embryo := (hsame.eq_of_ne (by simp [h.embryo])).trans h.embryo
  unique u hu := h.unique u (by rwa [hpc u hu] at hu)
  stacked := by
    rw [ht, hsame.kstack, hsame.context]
    exact h.stacked
  filled := by
    rw [ht, hsame.pgdir]
    exact h.filled

theorem Inv.fork_frame {s s' : St κ} (hs : Inv s)
    (hpc : ∀ u np, embryoOf (s'.table.pc u) = some np → s'.table.pc u = s.table.pc u)
    (hsame : ∀ np, s.state np = .embryo → Same s s' np) :
    ∀ t np, embryoOf (s'.table.pc t) = some np → ForkOk s' t np := by
  intro t np h
  have ht := hpc t np h
  have hf := hs.fork t np (by rwa [ht] at h)
  exact hf.frame (fun u hu => hpc u np hu) ht (hsame np hf.embryo)

theorem Same.refl {s s' : St κ} {p : Slot} (hproc : s'.table.proc p = s.table.proc p)
    (hcontext : s'.context p = s.context p) (hkstack : s'.kstack p = s.kstack p)
    (hpgdir : s'.pgdir p = s.pgdir p) : Same s s' p :=
  ⟨Or.inl (by simp [St.state, hproc]), hcontext, hkstack, hpgdir⟩

/-- A step of `c` that keeps its process and changes no other slot, up to wakeups. -/
theorem Inv.ownStep [DecidableEq κ] {s : St κ} (hs : Inv s) {c : κ} {p : Slot} {T : PTable}
    {X : Slot → Context} {l : Option κ} {x : Exec} (hp : (s.cpu c).proc = some p)
    (hlock : ∀ d, d ≠ c → (l = some d ↔ s.lock = some d)) (hown : l = some c ↔ x.holds = true)
    (hok : Cpu.Ok { s with table := T, context := X } { s.cpu c with exec := x })
    (hstate : ∀ q, q ≠ p → (T.proc q).state = s.state q ∨
      s.state q = .sleeping ∧ (T.proc q).state = .runnable)
    (hcontext : ∀ q, q ≠ p → X q = s.context q)
    (hsaved : (T.proc p).state = .runnable ∨ (T.proc p).state = .sleeping →
      (∀ pc, x ≠ .thread p pc) → (X p).Of p)
    (hpc : ∀ u np, embryoOf (T.pc u) = some np → T.pc u = s.table.pc u) :
    Inv ({ s with table := T, context := X, lock := l }.exec c x) := by
  have hlive := (hs.cpu c).live hp
  have hsame : ∀ q, q ≠ p →
      Same s ({ s with table := T, context := X, lock := l }.exec c x) q :=
    fun q hq => ⟨hstate q hq, hcontext q hq, rfl, rfl⟩
  have hnew : (({ s with table := T, context := X, lock := l } : St κ).exec c x).cpu c =
      { s.cpu c with exec := x } := by simp [St.exec, St.setCpu]
  refine hs.update c (fun d hd => by simp [St.exec, St.setCpu, hd]) hlock (by rw [hnew]; exact hown)
    ?_ ?_ ?_ ?_ (hs.fork_frame hpc ?_)
  · rw [hnew]
    exact hok.frame (fun q _ => ⟨Or.inl rfl, rfl, rfl, rfl⟩)
  · intro q hq
    rw [hnew] at hq
    exact Or.inl hq
  · intro q
    by_cases hq : q = p
    · exact Or.inr (Or.inl (by rw [hq, hp]))
    · exact Or.inl (hsame q hq)
  · intro q
    by_cases hq : q = p
    · right
      rw [hq]
      refine ⟨fun _ => ⟨c, by rw [hnew, hp]⟩, fun hst hnone => hsaved hst fun pc hx => ?_,
        fun _ _ => (hs.slot p).stocked hlive.1 hlive.2⟩
      exact hnone c pc (by rw [hnew, hx])
    · refine Or.inl ⟨hsame q hq, ?_⟩
      rw [hp]
      simpa using Ne.symm hq
  · intro np hnp
    apply hsame
    rintro rfl
    exact hlive.2 hnp

/-- A step that changes nothing but the CPU `c` and the lock. -/
theorem Inv.cpuStep [DecidableEq κ] {s : St κ} (hs : Inv s) (c : κ) {f : Cpu → Cpu}
    {l : Option κ} (hlock : ∀ d, d ≠ c → (l = some d ↔ s.lock = some d))
    (hown : l = some c ↔ (f (s.cpu c)).exec.holds = true) (hc : (f (s.cpu c)).Ok s)
    (hproc : ∀ p, (f (s.cpu c)).proc = some p →
      (s.cpu c).proc = some p ∨ ∀ d, (s.cpu d).proc ≠ some p)
    (hleft : ∀ p, (s.cpu c).proc = some p → s.state p = .running →
      (f (s.cpu c)).proc = some p)
    (hthread : ∀ p pc, (s.cpu c).exec = .thread p pc →
      ∃ pc', (f (s.cpu c)).exec = .thread p pc') :
    Inv ({ s with lock := l }.setCpu c f) := by
  have hsame : ∀ q, Same s ({ s with lock := l }.setCpu c f) q :=
    fun q => .refl rfl rfl rfl rfl
  have hnew : (({ s with lock := l } : St κ).setCpu c f).cpu c = f (s.cpu c) := by
    simp [St.setCpu]
  have hcpu : ∀ d, d ≠ c → (({ s with lock := l } : St κ).setCpu c f).cpu d = s.cpu d := by
    intro d hd
    simp [St.setCpu, hd]
  refine hs.update c hcpu hlock (by rw [hnew]; exact hown) ?_ (by rw [hnew]; exact hproc)
    (fun q => Or.inl (hsame q)) ?_ (hs.fork_frame (fun _ _ _ => rfl) (fun q _ => hsame q))
  · rw [hnew]
    exact hc.frame (fun q _ => hsame q)
  · intro q
    refine Or.inr ((hs.slot q).frame (hsame q) (fun hr d hd => ?_) fun d pc hx => ?_)
    · by_cases hdc : d = c
      · rw [hdc] at hd ⊢
        rw [hnew]
        exact hleft q hd hr
      · rwa [hcpu d hdc]
    · by_cases hdc : d = c
      · rw [hdc] at hx ⊢
        rw [hnew]
        exact hthread q pc hx
      · exact ⟨pc, by rwa [hcpu d hdc]⟩

/-- A step that leaves every CPU alone and changes no slot that is on one, up to wakeups. -/
theorem Inv.tableStep {s s' : St κ} (hs : Inv s) (hcpu : s'.cpu = s.cpu) (hlock : s'.lock = s.lock)
    (hslot : ∀ p, Same s s' p ∨ (∀ d, (s.cpu d).proc ≠ some p) ∧ SlotOk s' p)
    (hfork : ∀ t np, embryoOf (s'.table.pc t) = some np → ForkOk s' t np) : Inv s' where
  lock_iff c := by
    rw [hlock, hcpu]
    exact hs.lock_iff c
  cpu c := by
    rw [hcpu]
    refine (hs.cpu c).frame fun p hp => ?_
    rcases hslot p with h | ⟨h, -⟩
    · exact h
    · exact absurd hp (h c)
  unique := by
    rw [hcpu]
    exact hs.unique
  slot p := by
    rcases hslot p with h | ⟨-, h⟩
    · refine (hs.slot p).frame h (fun _ d hd => ?_) (fun d pc hx => ⟨pc, ?_⟩) <;> rwa [hcpu]
    · exact h
  fork := hfork

end Invariant

section Preservation
variable {κ : Type*} [DecidableEq κ] {s s' : St κ} {c : κ}

omit [DecidableEq κ] in
/-- While `c` holds the lock, the processes of the other CPUs run. -/
theorem Inv.others_run (hs : Inv s) (hc : s.lock = some c) {d : κ} (hdc : d ≠ c) {p : Slot}
    (hd : (s.cpu d).proc = some p) : s.state p = .running := by
  have hfree : (s.cpu d).exec.holds = false := by
    by_contra h
    have := (hs.lock_iff d).mpr (by simpa using h)
    rw [hc] at this
    exact hdc (Option.some.inj this).symm
  exact ((hs.cpu d).of_not_holds hfree hd).2

omit [DecidableEq κ] in
/-- Nobody else is on a slot that is RUNNABLE while `c` holds the lock. -/
theorem Inv.nobody_on_runnable (hs : Inv s) (hc : s.lock = some c)
    (hnone : (s.cpu c).proc = none) {p : Slot} (hp : s.state p = .runnable) (d : κ) :
    (s.cpu d).proc ≠ some p := by
  intro hd
  have hdc : d ≠ c := by
    rintro rfl
    simp [hnone] at hd
  simp [hs.others_run hc hdc hd] at hp

theorem Inv.schedulerStep (hs : Inv s) {pc : SPc} (hx : (s.cpu c).exec = .scheduler pc)
    (h : schedulerStep s c pc = some s') : Inv s' := by
  have hc := hs.cpu c
  have hlock := hs.lock_iff c
  unfold Cpu.Ok at hc
  rw [hx] at hc hlock
  cases pc with
  | start =>
    obtain rfl := Option.some.inj h
    exact hs.cpuStep (l := s.lock) c (fun _ _ => Iff.rfl) hlock ⟨rfl, hc.2⟩ (by simp)
      (by simp [hc.1]) (by simp [hx])
  | acquire =>
    simp only [CpuStates.schedulerStep] at h
    split_ifs at h with hfree
    obtain rfl := Option.some.inj h
    refine hs.cpuStep c (fun d hd => ?_) (by simp [Exec.holds]) hc (by simp [hc.1])
      (by simp [hc.1]) (by simp [hx])
    simp [hfree, Ne.symm hd]
  | scan i =>
    have hheld : s.lock = some c := hlock.mpr rfl
    simp only [CpuStates.schedulerStep] at h
    split_ifs at h with hi hrun
    · obtain rfl := Option.some.inj h
      exact hs.cpuStep (l := s.lock) c (fun _ _ => Iff.rfl) hlock ⟨rfl, hc.2, hrun⟩
        (fun p hp => Or.inr (by
          obtain rfl := Option.some.inj hp
          exact hs.nobody_on_runnable hheld hc.1 hrun))
        (by simp [hc.1]) (by simp [hx])
    all_goals
      obtain rfl := Option.some.inj h
      exact hs.cpuStep (l := s.lock) c (fun _ _ => Iff.rfl) hlock hc (by simp [hc.1])
        (by simp [hc.1]) (by simp [hx])
  | switchuvm p =>
    simp only [CpuStates.schedulerStep] at h
    split_ifs at h
    obtain rfl := Option.some.inj h
    exact hs.cpuStep (l := s.lock) c (fun _ _ => Iff.rfl) hlock ⟨hc.1, rfl, hc.2.2⟩
      (fun _ => Or.inl) (fun _ hq _ => hq) (by simp [hx])
  | setRunning p =>
    obtain rfl := Option.some.inj h
    obtain ⟨hp, hcr, hrun⟩ := hc
    -- the process has no other thread: it would hold the lock, or be RUNNING
    have hsaved : (s.context p).Of p := by
      refine (hs.slot p).saved (Or.inl hrun) fun d pc hd => ?_
      have hdp := (hs.cpu d).proc_of_thread hd
      obtain rfl := hs.unique d c p hdp hp
      simp [hx] at hd
    refine hs.ownStep (l := s.lock) hp (fun _ _ => Iff.rfl) hlock ?_ (fun q hq => ?_)
      (fun _ _ => rfl) ?_ (fun _ _ _ => rfl)
    · exact ⟨hp, hcr, by simp [St.state], hsaved⟩
    · exact Or.inl (by simp [St.state, hq])
    · simp
  | swtch p =>
    obtain rfl := Option.some.inj h
    obtain ⟨hp, hcr, hrun, hstack, hret⟩ := hc
    refine hs.cpuStep (l := s.lock) c (fun _ _ => Iff.rfl) ?_ ?_ (fun _ => Or.inl)
      (fun _ hq _ => hq) (by simp [hx])
    · rw [hlock]
      cases (s.context p).ret <;> simp [Exec.holds, Ret.pc]
    · refine ⟨by rw [hstack]; exact hp, by rw [hstack]; exact hcr, by rw [hstack], ?_⟩
      rw [hstack]
      cases hr : (s.context p).ret with
      | forkret | yield => exact hrun
      | sleep q | wait q =>
        rw [hr] at hret
        exact ⟨hrun, hret⟩
      | exit =>
        rw [hr] at hret
        exact hret.elim
  | switchkvm p =>
    obtain rfl := Option.some.inj h
    exact hs.cpuStep (l := s.lock) c (fun _ _ => Iff.rfl) hlock ⟨hc.1, rfl, hc.2.2⟩
      (fun _ => Or.inl) (fun _ hq _ => hq) (by simp [hx])
  | clear p =>
    obtain rfl := Option.some.inj h
    refine hs.cpuStep (l := s.lock) c (fun _ _ => Iff.rfl) hlock ⟨rfl, hc.2.1⟩ (by simp) ?_
      (by simp [hx])
    intro q hq hrun
    obtain rfl : p = q := by simpa [hc.1] using hq
    rcases hc.2.2 with h | h | h <;> simp [h] at hrun
  | release =>
    obtain rfl := Option.some.inj h
    have hheld : s.lock = some c := hlock.mpr rfl
    refine hs.cpuStep c (fun d hd => ?_) (by simp [Exec.holds]) hc (by simp [hc.1])
      (by simp [hc.1]) (by simp [hx])
    simp [hheld, Ne.symm hd]

omit [DecidableEq κ] in
/-- A ZOMBIE is on no CPU once a RUNNING process holds the lock. -/
theorem Inv.zombie_off_cpu (hs : Inv s) (hc : s.lock = some c) {t i : Slot}
    (ht : (s.cpu c).proc = some t) (hrun : s.state t = .running) (hi : s.state i = .zombie)
    (d : κ) : (s.cpu d).proc ≠ some i := by
  intro hd
  by_cases hdc : d = c
  · rw [hdc, ht] at hd
    obtain rfl := Option.some.inj hd
    simp [hrun] at hi
  · simp [hs.others_run hc hdc hd] at hi

theorem zombieChild_state {t : PTable} {curproc i : Slot} (h : zombieChild t curproc = some i) :
    (t.proc i).state = .zombie := by
  have := first_some h
  simp only [Bool.and_eq_true, decide_eq_true_eq] at this
  exact this.2

/-- The table after a turn of `wait` that reaps `i`. -/
theorem wait_reaps {t : PTable} {curproc i : Slot} (h : zombieChild t curproc = some i) :
    (wait t curproc).2 = (t.setProc i (fun p =>
      { p with pid := 0, parent := none, killed := false, state := .unused })).setPc curproc
        .user := by
  unfold zombieChild at h
  simp [wait, h]

theorem wait_fails {t : PTable} {curproc : Slot} (h : zombieChild t curproc = none)
    (hr : (wait t curproc).1 ≠ .sleeps) : (wait t curproc).2 = t.setPc curproc .user := by
  unfold zombieChild at h
  simp only [wait, h] at hr ⊢
  split_ifs at hr ⊢
  · rfl
  · simp at hr

theorem wait_sleeps {t : PTable} {curproc : Slot} (h : (wait t curproc).1 = .sleeps) :
    (wait t curproc).2 = (t.setProc curproc (fun p =>
      { p with chan := some (.proc curproc), state := .sleeping })).setPc curproc .waiting := by
  unfold wait at h ⊢
  split at h
  · simp at h
  · split_ifs at h ⊢
    rfl

theorem embryoOf_setPc {t : PTable} {p : Slot} {k : ProcTable.Pc} (hk : embryoOf k = none)
    (u np : Slot) (h : embryoOf ((t.setPc p k).pc u) = some np) :
    (t.setPc p k).pc u = t.pc u := by
  simp only [PTable.setPc, Function.update_apply] at h ⊢
  split_ifs at h ⊢
  · simp [hk] at h
  · rfl

omit [DecidableEq κ] in
/-- A ZOMBIE on no CPU becomes UNUSED and loses its stack and its page directory. -/
theorem Inv.freeZombie (hs : Inv s) {p i : Slot} {f : Proc → Proc} (hi : s.state i = .zombie)
    (hoff : ∀ d, (s.cpu d).proc ≠ some i) (hf : (f (s.table.proc i)).state = .unused) :
    Inv { s with
      table := (s.table.setProc i f).setPc p .user
      kstack := Function.update s.kstack i false
      pgdir := Function.update s.pgdir i false } := by
  have hsame : ∀ q, q ≠ i → Same s ({ s with
      table := (s.table.setProc i f).setPc p .user
      kstack := Function.update s.kstack i false
      pgdir := Function.update s.pgdir i false } : St κ) q :=
    fun q hq => .refl (by simp [hq]) rfl (by simp [hq]) (by simp [hq])
  refine hs.tableStep rfl rfl (fun q => ?_) (hs.fork_frame (embryoOf_setPc rfl) fun np hnp => ?_)
  · by_cases hq : q = i
    · refine Or.inr ⟨by rwa [hq], ?_⟩
      constructor <;> simp [hq, St.state, hf]
    · exact Or.inl (hsame q hq)
  · apply hsame
    rintro rfl
    simp [hi] at hnp

/-- One turn of the loop of `wait`. -/
theorem Inv.waitStep (hs : Inv s) {t p : Slot} (hx : (s.cpu c).exec = .thread t (.waitScan p)) :
    Inv (waitStep s c t p) := by
  have hc := hs.cpu c
  have hheld := (hs.lock_iff c).mpr (by rw [hx]; rfl)
  unfold Cpu.Ok at hc
  rw [hx] at hc
  obtain ⟨hp, hcr, hsch, hrun, rfl⟩ := hc
  unfold CpuStates.waitStep
  dsimp only
  cases hz : zombieChild s.table p with
  | none =>
    dsimp only
    split_ifs with hsl
    · rw [wait_sleeps hsl]
      refine hs.ownStep (l := s.lock) hp (fun _ _ => Iff.rfl) (by simp [hheld, Exec.holds]) ?_
        (fun q hq => Or.inl (by simp [St.state, hq])) (fun _ _ => rfl) (fun _ h => ?_)
        (embryoOf_setPc rfl)
      · exact ⟨hp, hcr, hsch, Or.inl ⟨Or.inr (by simp [St.state]), rfl⟩⟩
      · exact absurd rfl (h _)
    · rw [wait_fails hz hsl]
      refine hs.ownStep (l := s.lock) hp (fun _ _ => Iff.rfl) (by simp [hheld, Exec.holds]) ?_
        (fun q hq => Or.inl rfl) (fun _ _ => rfl) (fun _ h => ?_) (embryoOf_setPc rfl)
      · exact ⟨hp, hcr, hsch, hrun⟩
      · exact absurd rfl (h _)
  | some i =>
    have hi := zombieChild_state hz
    have hoff := hs.zombie_off_cpu hheld hp hrun hi
    have hne : p ≠ i := by
      rintro rfl
      exact hoff c hp
    rw [wait_reaps hz]
    have hfree := hs.freeZombie (p := p) hi hoff
      (f := fun x => { x with pid := 0, parent := none, killed := false, state := .unused }) rfl
    refine hfree.cpuStep (l := s.lock) c (fun _ _ => Iff.rfl) (by simp [hheld, Exec.holds])
      ⟨hp, hcr, hsch, ?_⟩ (fun _ => Or.inl) (fun _ hq _ => hq) (fun q pc hq => ⟨.release, ?_⟩)
    · exact (by simp [St.state, hne] : _ = s.state p).trans hrun
    · rw [show (s.cpu c).exec = Exec.thread q pc from hq] at hx
      simp [(Exec.thread.inj hx).1]

theorem Inv.threadStep (hs : Inv s) {t : Slot} {pc : TPc} (hx : (s.cpu c).exec = .thread t pc)
    (h : threadStep s c t pc = some s') : Inv s' := by
  have hc := hs.cpu c
  have hlock := hs.lock_iff c
  unfold Cpu.Ok at hc
  rw [hx] at hc hlock
  obtain ⟨hp, hcr, hsch, hpc⟩ := hc
  cases pc with
  | run => simp [CpuStates.threadStep] at h
  | sched r =>
    simp only [CpuStates.threadStep, hp] at h
    split_ifs at h with hok
    obtain rfl := Option.some.inj h
    refine hs.ownStep (l := s.lock) hp (fun _ _ => Iff.rfl) (by simp [hok.1, hsch, Exec.holds]) ?_
      (fun _ _ => Or.inl rfl) (fun q hq => by simp [hq]) (fun hst _ => ?_) (fun _ _ _ => rfl)
    · simp only [Cpu.Ok, hsch]
      refine ⟨hp, hcr, ?_⟩
      rcases hpc with ⟨h | h, -⟩ | ⟨h, -⟩
      · exact Or.inl h
      · exact Or.inr (Or.inl h)
      · exact Or.inr (Or.inr h)
    · rcases hpc with ⟨-, hr⟩ | ⟨hz, -⟩
      · simpa [Context.Of] using hr
      · rcases hst with h | h <;> simp [show (s.table.proc t).state = _ from hz] at h
  | tidy q w =>
    obtain rfl := Option.some.inj h
    obtain ⟨hrun, rfl⟩ := hpc
    have hheld : s.lock = some c := hlock.mpr rfl
    have hstate : ∀ r, ((s.table.setProc q fun x => { x with chan := none }).proc r).state =
        s.state r := by
      intro r
      simp only [setProc_proc, St.state]
      split_ifs with hr <;> simp [hr]
    refine hs.ownStep (l := s.lock) hp (fun _ _ => Iff.rfl) ?_ ?_ (fun r _ => Or.inl (hstate r))
      (fun _ _ => rfl) (fun _ h => absurd rfl (h _)) (fun _ _ _ => rfl)
    · cases w <;> simp [hheld, Exec.holds]
    · refine ⟨hp, hcr, hsch, ?_⟩
      cases w
      · exact (hstate q).trans hrun
      · exact ⟨(hstate q).trans hrun, rfl⟩
  | waitScan q =>
    obtain rfl := Option.some.inj h
    exact hs.waitStep hx
  | release =>
    obtain rfl := Option.some.inj h
    have hheld : s.lock = some c := hlock.mpr rfl
    refine hs.cpuStep c (fun d hd => ?_) (by simp [Exec.holds]) ⟨hp, hcr, hsch, hpc⟩
      (fun _ => Or.inl) (fun _ hq _ => hq) (fun q pc hq => ⟨.run, ?_⟩)
    · simp [hheld, Ne.symm hd]
    · rw [hx] at hq
      simp [(Exec.thread.inj hq).1]
  | panicked => simp [CpuStates.threadStep] at h

/-- The table changed by waking some processes at most. -/
def Wakes (t t' : PTable) : Prop :=
  t'.pc = t.pc ∧ ∀ i, (t'.proc i).state = (t.proc i).state ∨
    (t.proc i).state = .sleeping ∧ (t'.proc i).state = .runnable

theorem Wakes.trans {t u v : PTable} (h : Wakes t u) (k : Wakes u v) : Wakes t v := by
  refine ⟨k.1.trans h.1, fun i => ?_⟩
  rcases h.2 i with hi | ⟨hi, hi'⟩ <;> rcases k.2 i with ki | ⟨ki, ki'⟩
  · exact Or.inl (ki.trans hi)
  · exact Or.inr ⟨hi ▸ ki, ki'⟩
  · exact Or.inr ⟨hi, ki.trans hi'⟩
  · exact Or.inr ⟨hi, ki'⟩

theorem wakeup1_wakes (t : PTable) (chan : Chan) : Wakes t (wakeup1 t chan) := by
  refine ⟨rfl, fun i => ?_⟩
  simp only [wakeup1]
  split_ifs with h
  · exact Or.inr ⟨h.1, rfl⟩
  · exact Or.inl rfl

theorem kill_wakes (t : PTable) (pid : Pid) : Wakes t (kill t pid).2 := by
  unfold kill
  split
  case h_1 j _ =>
    refine ⟨rfl, fun i => ?_⟩
    simp only [setProc_proc]
    by_cases hi : i = j
    · rw [if_pos hi, hi]
      by_cases hs : (t.proc j).state = .sleeping
      · exact Or.inr ⟨hs, if_pos hs⟩
      · exact Or.inl (if_neg hs)
    · rw [if_neg hi]
      exact Or.inl rfl
  case h_2 => exact ⟨rfl, fun _ => Or.inl rfl⟩

theorem passChildren_wakes (t : PTable) (p : Slot) : Wakes t (passChildren t p) := by
  have hadopt : Wakes t { t with
      proc := fun i =>
        if (t.proc i).parent = some p then { t.proc i with parent := some t.initproc }
        else t.proc i } := by
    refine ⟨rfl, fun i => Or.inl ?_⟩
    dsimp only
    split_ifs <;> rfl
  unfold passChildren
  dsimp only
  split_ifs
  · exact hadopt.trans (wakeup1_wakes _ _)
  · exact hadopt

theorem wakeParent_wakes (t : PTable) (p : Slot) : Wakes t (wakeParent t p) := by
  unfold wakeParent
  split
  · exact wakeup1_wakes t _
  · exact ⟨rfl, fun _ => Or.inl rfl⟩

omit [DecidableEq κ] in
theorem Inv.wakes (hs : Inv s) {t : PTable} (h : Wakes s.table t) :
    Inv { s with table := t } := by
  have hsame : ∀ q, Same s { s with table := t } q := fun q => ⟨h.2 q, rfl, rfl, rfl⟩
  exact hs.tableStep rfl rfl (fun q => Or.inl (hsame q))
    (hs.fork_frame (fun u _ _ => congrFun h.1 u) fun q _ => hsame q)

omit [DecidableEq κ] in
/-- The thread that a CPU executes belongs to its process, which is RUNNING. -/
theorem Inv.current (hs : Inv s) {t p : Slot} (h : s.current c = some (t, p)) :
    t = p ∧ (s.cpu c).exec = .thread p .run ∧ (s.cpu c).Ok s ∧ s.state p = .running := by
  have hc := hs.cpu c
  have hok := hc
  unfold St.current at h
  unfold Cpu.Ok at hc
  split at h
  case h_1 u q hx hp =>
    obtain ⟨rfl, rfl⟩ := Prod.mk.inj (Option.some.inj h)
    rw [hx] at hc
    obtain rfl : u = q := by simpa [hp] using hc.1.symm
    exact ⟨rfl, hx, hok, hc.2.2.2⟩
  case h_2 => cases h

/-- A process takes the lock, changes its own state and calls `sched`. -/
theorem Inv.park (hs : Inv s) {t p : Slot} {r : Ret} {T : PTable}
    (hcur : s.current c = some (t, p)) (h : s.park c t r T = some s')
    (hpc : T.pc = s.table.pc)
    (hstate : ∀ q, q ≠ p → (T.proc q).state = s.state q ∨
      s.state q = .sleeping ∧ (T.proc q).state = .runnable)
    (hparked : TPc.Ok (T.proc p).state p (.sched r)) : Inv s' := by
  unfold St.park at h
  split_ifs at h with hfree
  obtain rfl := Option.some.inj h
  obtain ⟨rfl, hx, hok, -⟩ := hs.current hcur
  unfold Cpu.Ok at hok
  rw [hx] at hok
  obtain ⟨hp, hcr, hsch, -⟩ := hok
  refine hs.ownStep hp (fun d hd => by simp [hfree, Ne.symm hd]) (by simp [Exec.holds])
    ⟨hp, hcr, hsch, hparked⟩ hstate (fun _ _ => rfl) (fun _ hn => absurd rfl (hn _))
    (fun u _ _ => congrFun hpc u)

omit [DecidableEq κ] in
/-- A step of the `fork` on the stack `t` that fills the slot `np`, which is on no CPU. -/
theorem Inv.forkMove (hs : Inv s) (t np : Slot) {k : ProcTable.Pc}
    (hcpu : s'.cpu = s.cpu) (hlock : s'.lock = s.lock)
    (hpc : s'.table.pc = Function.update s.table.pc t k)
    (hsame : ∀ q, q ≠ np → Same s s' q) (hoff : ∀ d, (s.cpu d).proc ≠ some np)
    (hothers : ∀ u, u ≠ t → embryoOf (s.table.pc u) ≠ some np) (hslot : SlotOk s' np)
    (hnew : ∀ m, embryoOf k = some m → m = np ∧ s'.state np = .embryo ∧
      (k ≠ .forkAlloced np → s'.kstack np = true ∧ (s'.context np).Of np) ∧
      (k = .forkFilled np → s'.pgdir np = true)) : Inv s' := by
  refine hs.tableStep hcpu hlock (fun q => ?_) fun u m hum => ?_
  · by_cases hq : q = np
    · exact Or.inr ⟨by rwa [hq], by rwa [hq]⟩
    · exact Or.inl (hsame q hq)
  · have hold : ∀ v, v ≠ t → s'.table.pc v = s.table.pc v := fun v hv => by simp [hpc, hv]
    have ht : s'.table.pc t = k := by simp [hpc]
    by_cases hu : u = t
    · rw [hu, ht] at hum
      obtain ⟨rfl, hst, hstacked, hfilled⟩ := hnew m hum
      rw [hu]
      refine ⟨hst, fun v hv => ?_, by rwa [ht], by rwa [ht]⟩
      by_contra hvt
      rw [hold v hvt] at hv
      exact hothers v hvt hv
    · rw [hold u hu] at hum
      have hm : m ≠ np := by
        rintro rfl
        exact hothers u hu hum
      refine (hs.fork u m hum).frame (fun v hv => hold v ?_) (hold u hu) (hsame m hm)
      rintro rfl
      rw [ht] at hv
      exact hm (hnew m hv).1

omit [DecidableEq κ] in
theorem Inv.forkStep (hs : Inv s) {t p : Slot} {ok : Bool}
    (h : forkStep s t p ok = some s') : Inv s' := by
  have hfilling : ∀ np, embryoOf (s.table.pc t) = some np → ForkOk s t np ∧
      (∀ d, (s.cpu d).proc ≠ some np) ∧ ∀ u, u ≠ t → embryoOf (s.table.pc u) ≠ some np := by
    intro np hnp
    have hf := hs.fork t np hnp
    refine ⟨hf, fun d hd => ((hs.cpu d).live hd).2 hf.embryo, fun u hu hunp => hu ?_⟩
    exact hf.unique u hunp
  unfold CpuStates.forkStep at h
  split at h
  case h_1 hpc =>
    split_ifs at h
    split at h
    case h_1 np T hnp =>
      obtain rfl := Option.some.inj h
      obtain ⟨hunused, rfl⟩ := allocproc_some hnp
      refine hs.forkMove t np rfl rfl rfl (fun q hq => ?_)
        (fun d hd => ((hs.cpu d).live hd).1 hunused) (fun u _ hu => ?_) ?_ (fun m hm => ?_)
      · exact .refl (by simp [hq]) rfl rfl rfl
      · exact absurd ((hs.fork u np hu).embryo) (by simp [St.state, hunused])
      · constructor <;> simp [St.state]
      · obtain rfl : np = m := by simpa [embryoOf] using hm
        simp [St.state]
    case h_2 =>
      obtain rfl := Option.some.inj h
      exact hs
  case h_2 np hpc =>
    obtain ⟨hf, hoff, hothers⟩ := hfilling np (by rw [hpc]; rfl)
    split_ifs at h <;> obtain rfl := Option.some.inj h
    · refine hs.forkMove t np rfl rfl rfl (fun q hq => ?_) hoff hothers ?_
        (fun m hm => ?_)
      · exact .refl rfl (by simp [St.setPc, hq]) (by simp [St.setPc, hq]) rfl
      · have hst := hf.embryo
        constructor <;> simp_all [St.state, St.setPc, PTable.setPc]
      · obtain rfl : np = m := by simpa [embryoOf] using hm
        have hst := hf.embryo
        simp_all [St.state, St.setPc, PTable.setPc, Context.Of, Ret.Of]
    · refine hs.forkMove t np rfl rfl rfl (fun q hq => ?_) hoff hothers ?_
        (fun m hm => by simp [embryoOf] at hm)
      · exact .refl (by simp [St.setPc, St.setState, St.setProc, hq]) rfl
          (by simp [St.setPc, St.setState, St.setProc, hq]) rfl
      · constructor <;> simp [St.state, St.setPc, St.setState, St.setProc]
  case h_3 np hpc =>
    obtain ⟨hf, hoff, hothers⟩ := hfilling np (by rw [hpc]; rfl)
    have hstacked := hf.stacked (by simp [hpc])
    split_ifs at h <;> obtain rfl := Option.some.inj h
    · have hst := hf.embryo
      refine hs.forkMove t np rfl rfl rfl (fun q hq => ?_) hoff hothers ?_
        (fun m hm => ?_)
      · exact .refl (by simp [St.setPc, St.setProc, hq]) rfl rfl
          (by simp [St.setPc, St.setProc, hq])
      · constructor <;> simp_all [St.state, St.setPc, St.setProc]
      · obtain rfl : np = m := by simpa [embryoOf] using hm
        refine ⟨rfl, ?_, fun _ => hstacked, fun _ => by simp [St.setPc, St.setProc]⟩
        simpa [St.state, St.setPc, St.setProc] using hst
    · refine hs.forkMove t np rfl rfl rfl (fun q hq => ?_) hoff hothers ?_
        (fun m hm => by simp [embryoOf] at hm)
      · exact .refl (by simp [St.setPc, St.setState, St.setProc, hq]) rfl
          (by simp [St.setPc, St.setState, St.setProc, hq])
          (by simp [St.setPc, St.setState, St.setProc, hq])
      · constructor <;> simp [St.state, St.setPc, St.setState, St.setProc]
  case h_4 np hpc =>
    obtain ⟨hf, hoff, hothers⟩ := hfilling np (by rw [hpc]; rfl)
    have hstacked := hf.stacked (by simp [hpc])
    have hfilled := hf.filled hpc
    split_ifs at h
    obtain rfl := Option.some.inj h
    refine hs.forkMove t np rfl rfl rfl (fun q hq => ?_) hoff hothers ?_
      (fun m hm => by simp [embryoOf] at hm)
    · exact .refl (by simp [St.setPc, St.setState, St.setProc, hq]) rfl rfl rfl
    · exact ⟨fun hr => by simp [St.state, St.setPc, St.setState, St.setProc] at hr,
        fun _ _ => hstacked.2, fun _ _ => ⟨hstacked.1, hfilled⟩⟩
  case h_5 => cases h

omit [DecidableEq κ] in
theorem init_inv (h : Initial s) : Inv s := by
  obtain ⟨htable, hlock, hk, hg, hctx, hcpu⟩ := h
  have hstate : ∀ p, s.state p = if p = 0 then .runnable else .unused := by
    intro p
    simp only [St.state, htable, boot]
    split_ifs <;> rfl
  refine ⟨fun c => ?_, fun c => ?_, fun c d p hc => ?_, fun p => ?_, fun t np h => ?_⟩
  · rw [hlock, (hcpu c).2.2]
    simp [Exec.holds]
  · unfold Cpu.Ok
    rw [(hcpu c).2.2]
    exact ⟨(hcpu c).1, (hcpu c).2.1⟩
  · simp [(hcpu c).1] at hc
  · constructor <;> by_cases hp : p = 0 <;> simp [hstate, hp, hk, hg, hctx, Context.Of, Ret.Of]
  · simp [htable, boot, embryoOf] at h

theorem next_inv {e : Event κ} (hs : Inv s) (h : next s e = some s') : Inv s' := by
  cases e with
  | step c =>
    simp only [next] at h
    split at h
    case h_1 pc hx => exact hs.schedulerStep hx h
    case h_2 t pc hx => exact hs.threadStep hx h
  | yield c =>
    obtain ⟨⟨t, p⟩, hcur, h⟩ := Option.bind_eq_some_iff.mp h
    refine hs.park hcur h rfl (fun q hq => Or.inl (by simp [St.state, hq])) ?_
    exact Or.inl ⟨Or.inl (by simp), trivial⟩
  | sleep c addr =>
    obtain ⟨⟨t, p⟩, hcur, h⟩ := Option.bind_eq_some_iff.mp h
    dsimp only at h
    split_ifs at h
    refine hs.park hcur h rfl (fun q hq => Or.inl (by simp [St.state, hq])) ?_
    exact Or.inl ⟨Or.inr (by simp), rfl⟩
  | exit c =>
    obtain ⟨⟨t, p⟩, hcur, h⟩ := Option.bind_eq_some_iff.mp h
    dsimp only at h
    split_ifs at h
    obtain ⟨T, hT, h⟩ := Option.bind_eq_some_iff.mp h
    unfold exit at hT
    split_ifs at hT
    obtain rfl := Option.some.inj hT
    have hw := (wakeParent_wakes s.table p).trans (passChildren_wakes _ p)
    refine hs.park hcur h hw.1 (fun q hq => ?_) (Or.inr ⟨by simp, rfl⟩)
    rw [setProc_proc, if_neg hq]
    exact hw.2 q
  | wait c =>
    obtain ⟨⟨t, p⟩, hcur, h⟩ := Option.bind_eq_some_iff.mp h
    dsimp only at h
    split_ifs at h with hfree
    obtain rfl := Option.some.inj h
    obtain ⟨rfl, hx, hok, hrun⟩ := hs.current hcur
    unfold Cpu.Ok at hok
    rw [hx] at hok
    refine hs.cpuStep c (fun d hd => by simp [hfree.2, Ne.symm hd]) (by simp [Exec.holds])
      ⟨hok.1, hok.2.1, hok.2.2.1, hrun, rfl⟩ (fun _ => Or.inl) (fun _ hq _ => hq)
      (fun q pc hq => ⟨.waitScan t, ?_⟩)
    rw [hx] at hq
    simp [(Exec.thread.inj hq).1]
  | kill c pid =>
    obtain ⟨⟨t, p⟩, hcur, h⟩ := Option.bind_eq_some_iff.mp h
    dsimp only at h
    split_ifs at h
    obtain rfl := Option.some.inj h
    exact hs.wakes (kill_wakes _ _)
  | fork c ok =>
    obtain ⟨⟨t, p⟩, hcur, h⟩ := Option.bind_eq_some_iff.mp h
    exact hs.forkStep h
  | wakeup addr =>
    simp only [next] at h
    split_ifs at h
    obtain rfl := Option.some.inj h
    exact hs.wakes (wakeup1_wakes _ _)

end Preservation

section Reachable
variable {κ : Type*} [DecidableEq κ] {s s' : St κ}

theorem reachable_inv (h : (system κ).Reachable s) : Inv s :=
  h.invariant (fun _ h₀ => init_inv h₀) fun _ _ _ hi hst => next_inv hi hst

/-- The CPU executes on the kernel stack of `p`, or uses its page directory. -/
def Cpu.RunsOn (k : Cpu) (p : Slot) : Prop := (∃ pc, k.exec = .thread p pc) ∨ k.cr3 = some p

omit [DecidableEq κ] in
theorem Cpu.Ok.proc_of_runsOn {k : Cpu} (h : k.Ok s) {p : Slot} (hr : k.RunsOn p) :
    k.proc = some p := by
  rcases hr with ⟨pc, hx⟩ | hcr
  · exact h.proc_of_thread hx
  · unfold Cpu.Ok at h
    cases hx : k.exec with
    | scheduler pc =>
      rw [hx] at h
      cases pc <;> simp_all [SPc.Ok]
    | thread t pc =>
      rw [hx] at h
      rw [h.1, ← h.2.1, hcr]

theorem schedulerStep_keeps {c : κ} {pc : SPc} (h : schedulerStep s c pc = some s') :
    s'.kstack = s.kstack ∧ s'.pgdir = s.pgdir := by
  cases pc <;> simp only [schedulerStep] at h
  all_goals
    try split_ifs at h
    all_goals
      obtain rfl := Option.some.inj h
      exact ⟨rfl, rfl⟩

theorem park_keeps {c : κ} {t : Slot} {r : Ret} {T : PTable} (h : s.park c t r T = some s') :
    s'.kstack = s.kstack ∧ s'.pgdir = s.pgdir := by
  unfold St.park at h
  split_ifs at h
  obtain rfl := Option.some.inj h
  exact ⟨rfl, rfl⟩

/-- A step of a thread takes the stack or the page directory only from the ZOMBIE that `wait`
found, which is on no CPU. -/
theorem Inv.threadStep_keeps (hs : Inv s) {c : κ} {t : Slot} {pc : TPc}
    (hx : (s.cpu c).exec = .thread t pc) (h : CpuStates.threadStep s c t pc = some s') (p : Slot) :
    s'.kstack p = s.kstack p ∧ s'.pgdir p = s.pgdir p ∨ ∀ d, (s.cpu d).proc ≠ some p := by
  have hc := hs.cpu c
  have hlock := hs.lock_iff c
  unfold Cpu.Ok at hc
  rw [hx] at hc hlock
  cases pc with
  | run | panicked => simp [CpuStates.threadStep] at h
  | sched r =>
    simp only [CpuStates.threadStep, hc.1] at h
    split_ifs at h
    obtain rfl := Option.some.inj h
    exact Or.inl ⟨rfl, rfl⟩
  | tidy q w | release =>
    obtain rfl := Option.some.inj h
    exact Or.inl ⟨rfl, rfl⟩
  | waitScan q =>
    obtain rfl := Option.some.inj h
    unfold CpuStates.waitStep
    dsimp only
    cases hz : zombieChild s.table q with
    | none =>
      dsimp only
      split_ifs <;> exact Or.inl ⟨rfl, rfl⟩
    | some i =>
      by_cases hp : p = i
      · right
        rw [hp]
        exact hs.zombie_off_cpu (hlock.mpr rfl) hc.1 hc.2.2.2.1 (zombieChild_state hz)
      · exact Or.inl (by simp [St.exec, St.setCpu, hp])

omit [DecidableEq κ] in
/-- So does a step of `fork`, from the EMBRYO that it gives up. -/
theorem Inv.forkStep_keeps (hs : Inv s) {t q : Slot} {ok : Bool}
    (h : CpuStates.forkStep s t q ok = some s') (p : Slot) :
    s'.kstack p = s.kstack p ∧ s'.pgdir p = s.pgdir p ∨ ∀ d, (s.cpu d).proc ≠ some p := by
  have hoff : ∀ np, embryoOf (s.table.pc t) = some np → ∀ d, (s.cpu d).proc ≠ some np :=
    fun np hnp d hd => ((hs.cpu d).live hd).2 (hs.fork t np hnp).embryo
  unfold CpuStates.forkStep at h
  split at h
  case h_1 =>
    split_ifs at h
    split at h <;> obtain rfl := Option.some.inj h <;> exact Or.inl ⟨rfl, rfl⟩
  case h_2 np hpc | h_3 np hpc =>
    by_cases hp : p = np
    · exact Or.inr (by rw [hp]; exact hoff np (by rw [hpc]; rfl))
    · left
      split_ifs at h <;> obtain rfl := Option.some.inj h <;>
        simp [St.setPc, St.setState, St.setProc, hp]
  case h_4 =>
    split_ifs at h
    obtain rfl := Option.some.inj h
    exact Or.inl ⟨rfl, rfl⟩
  case h_5 => cases h

/-- A step takes the stack or the page directory only from a slot that is on no CPU. -/
theorem Inv.frees_off_cpu (hs : Inv s) {e : Event κ} (h : next s e = some s') (p : Slot) :
    s'.kstack p = s.kstack p ∧ s'.pgdir p = s.pgdir p ∨ ∀ d, (s.cpu d).proc ≠ some p := by
  have hkeep : s'.kstack = s.kstack ∧ s'.pgdir = s.pgdir →
      s'.kstack p = s.kstack p ∧ s'.pgdir p = s.pgdir p ∨ ∀ d, (s.cpu d).proc ≠ some p :=
    fun hk => Or.inl ⟨congrFun hk.1 p, congrFun hk.2 p⟩
  cases e with
  | step c =>
    simp only [next] at h
    split at h
    case h_1 => exact hkeep (schedulerStep_keeps h)
    case h_2 t pc hx => exact hs.threadStep_keeps hx h p
  | yield c =>
    obtain ⟨⟨t, q⟩, -, h⟩ := Option.bind_eq_some_iff.mp h
    exact hkeep (park_keeps h)
  | sleep c addr =>
    obtain ⟨⟨t, q⟩, -, h⟩ := Option.bind_eq_some_iff.mp h
    dsimp only at h
    split_ifs at h
    exact hkeep (park_keeps h)
  | exit c =>
    obtain ⟨⟨t, q⟩, -, h⟩ := Option.bind_eq_some_iff.mp h
    dsimp only at h
    split_ifs at h
    obtain ⟨T, -, h⟩ := Option.bind_eq_some_iff.mp h
    exact hkeep (park_keeps h)
  | wait c | kill c pid =>
    obtain ⟨⟨t, q⟩, -, h⟩ := Option.bind_eq_some_iff.mp h
    dsimp only at h
    split_ifs at h
    obtain rfl := Option.some.inj h
    exact hkeep ⟨rfl, rfl⟩
  | fork c ok =>
    obtain ⟨⟨t, q⟩, -, h⟩ := Option.bind_eq_some_iff.mp h
    exact hs.forkStep_keeps h p
  | wakeup addr =>
    simp only [next] at h
    split_ifs at h
    obtain rfl := Option.some.inj h
    exact hkeep ⟨rfl, rfl⟩

omit [DecidableEq κ] in
/-- While `ptable.lock` is free, the RUNNING processes are those of exactly one CPU. -/
theorem Inv.running_iff (hs : Inv s) (hfree : s.lock = none) (p : Slot) :
    s.state p = .running ↔ ∃! c, (s.cpu c).proc = some p := by
  constructor
  · intro hrun
    obtain ⟨c, hc⟩ := (hs.slot p).running hrun
    exact ⟨c, hc, fun d hd => hs.unique d c p hd hc⟩
  · rintro ⟨c, hc, -⟩
    have hfree' : (s.cpu c).exec.holds = false := by
      by_contra h
      have := (hs.lock_iff c).mpr (by simpa using h)
      simp [hfree] at this
    exact ((hs.cpu c).of_not_holds hfree' hc).2

/-- CPUs and process states agree, and no step, of `wait` or of a failing `fork`, frees the
kernel stack or the page directory that a CPU uses. -/
theorem cpu_states_agree (h : (system κ).Reachable s) :
    (s.lock = none → ∀ p, s.state p = .running ↔ ∃! c, (s.cpu c).proc = some p) ∧
      ∀ e s', next s e = some s' → ∀ p,
        s.kstack p = true ∧ s'.kstack p = false ∨ s.pgdir p = true ∧ s'.pgdir p = false →
        ∀ c, ¬ (s.cpu c).RunsOn p := by
  have hs := reachable_inv h
  refine ⟨fun hfree p => hs.running_iff hfree p, fun e s' hst p hfreed c hr => ?_⟩
  have hp := (hs.cpu c).proc_of_runsOn hr
  rcases hs.frees_off_cpu hst p with ⟨hk, hg⟩ | hoff
  · rcases hfreed with ⟨h1, h2⟩ | ⟨h1, h2⟩
    · rw [hk, h1] at h2
      cases h2
    · rw [hg, h1] at h2
      cases h2
  · exact hoff c hp

/-- The checks of `sched` and of `switchuvm` never panic. -/
theorem step_isSome (h : (system κ).Reachable s) {c : κ} :
    (∀ t r, (s.cpu c).exec = .thread t (.sched r) → (next s (.step c)).isSome) ∧
      ∀ p, (s.cpu c).exec = .scheduler (.switchuvm p) → (next s (.step c)).isSome := by
  have hs := reachable_inv h
  have hc := hs.cpu c
  have hlock := hs.lock_iff c
  unfold Cpu.Ok at hc
  constructor
  · intro t r hx
    rw [hx] at hc hlock
    have hne : s.state t ≠ .running := by
      rcases hc.2.2.2 with ⟨h | h, -⟩ | ⟨h, -⟩ <;> simp [h]
    simp [next, hx, threadStep, hc.1, hlock.mpr rfl, hne]
  · intro p hx
    rw [hx] at hc
    have hst := (hs.slot p).stocked (by simp [hc.2.2]) (by simp [hc.2.2])
    simp [next, hx, schedulerStep, hst]

end Reachable

attribute [local instance] nproc_neZero

local instance two_neZero : NeZero 2 := ⟨by decide⟩

def started : St (Fin 2) where
  table := boot
  kstack p := p = 0
  pgdir p := p = 0
  context _ := ⟨0, .forkret⟩
  cpu _ := ⟨none, .start, none, .scheduler .start⟩
  lock := none

/-- The first CPU runs init, which forks, and the second one runs the child. -/
def bothRun : List (Event (Fin 2)) :=
  List.replicate 7 (.step 0) ++ List.replicate 4 (.fork 0 true) ++ List.replicate 8 (.step 1)

/-- The child exits, its CPU scans the rest of the table, and init calls `wait`. -/
def childExits : List (Event (Fin 2)) :=
  bothRun ++ .exit 1 :: List.replicate 67 (.step 1) ++ [.wait 0]

theorem started_reachable {es : List (Event (Fin 2))} {s : St (Fin 2)}
    (h : runNext next started es = some s) : (system (Fin 2)).Reachable s :=
  ⟨started, es, ⟨rfl, rfl, rfl, rfl, rfl, fun _ => ⟨rfl, rfl, rfl⟩⟩, run_of_runNext h⟩

set_option maxRecDepth 100000 in
theorem cpu_states_agree_reaped :
    (∃ s : St (Fin 2), (system (Fin 2)).Reachable s ∧ s.lock = none ∧
      ∃! c, (s.cpu c).proc = some 1) ∧
    ∃ s s' : St (Fin 2), (system (Fin 2)).Reachable s ∧ next s (.step 0) = some s' ∧
      s.kstack 1 = true ∧ s'.kstack 1 = false ∧ ∀ c, ¬ (s.cpu c).RunsOn 1 := by
  have hboth : (runNext next started bothRun).any (fun s =>
      s.state 1 = .running && s.lock = none) = true := by decide +kernel
  have hreap : (runNext next started childExits).any (fun s =>
      s.kstack 1 && (next s (.step 0)).any (fun s' => !s'.kstack 1)) = true := by decide +kernel
  obtain ⟨s, hs, hp⟩ := (Option.any_eq_true ..).mp hboth
  obtain ⟨u, hu, hq⟩ := (Option.any_eq_true ..).mp hreap
  simp only [Bool.and_eq_true, decide_eq_true_eq] at hp hq
  obtain ⟨u', hu', hk'⟩ := (Option.any_eq_true ..).mp hq.2
  have hk' : u'.kstack 1 = false := by simpa using hk'
  refine ⟨⟨s, started_reachable hs, hp.2, ?_⟩, u, u', started_reachable hu, hu', hq.1, hk', ?_⟩
  · exact ((cpu_states_agree (started_reachable hs)).1 hp.2 1).mp hp.1
  · exact (cpu_states_agree (started_reachable hu)).2 _ u' hu' 1 (Or.inl ⟨hq.1, hk'⟩)

end Ostep.CpuStates

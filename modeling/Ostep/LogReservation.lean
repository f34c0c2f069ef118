import Ostep.LogOps
import Mathlib.Algebra.Order.BigOperators.Group.Finset
import Mathlib.Tactic.IntervalCases

/-!
# Space in the log

`begin_op` reserves `MAXOPBLOCKS` blocks of `LOGSIZE` for each operation it lets in, but
`log_write` stops one block short of that: mkfs counts the header block in `nlog`. Three
operations that use their whole reservation meet the panic.
-/

namespace Ostep.LogOps
open TransitionSystem

variable {ι : Type*}

/-- The processes between `begin_op` and `end_op`. -/
def Pc.active : Pc → Bool
  | .inOp | .logWrite _ => true
  | _ => false

/-- The processes inside `commit`, or on their way out of it. -/
def Pc.commits : Pc → Bool
  | .commit | .committed => true
  | _ => false

structure Inv (s : St ι) : Prop where
  active : ∃ A : Finset ι, (∀ q, q ∈ A ↔ (s.pc q).active = true) ∧ A.card = s.outstanding
  commits : ∀ q, (s.pc q).commits = true → s.committing = true
  alone : ∀ q r, (s.pc q).commits = true → (s.pc r).commits = true → q = r
  committing : s.committing = true → s.outstanding = 0
  committed : ∀ q, s.pc q = .committed → s.lh = []
  drained : s.committing = false → s.outstanding = 0 → s.lh = []
  panic : s.panic = none ∨ s.panic = some .tooBig
  size : s.size = LOGSIZE
  nodup : s.lh.Nodup

theorem Inv.outstanding_pos {s : St ι} (hs : Inv s) {q : ι} (hq : (s.pc q).active = true) :
    0 < s.outstanding := by
  obtain ⟨A, hA, hcard⟩ := hs.active
  rw [← hcard]
  exact Finset.card_pos.mpr ⟨q, (hA q).mpr hq⟩

theorem Inv.not_committing {s : St ι} (hs : Inv s) {q : ι} (hq : (s.pc q).active = true) :
    s.committing = false := by
  have := hs.outstanding_pos hq
  by_contra h
  have := hs.committing (by simpa using h)
  omega

theorem Inv.not_active {s : St ι} (hs : Inv s) (h : s.committing = true) (q : ι) :
    (s.pc q).active = false := by
  by_contra hq
  have := hs.not_committing (q := q) (by simpa using hq)
  simp [this] at h

/-- Outside a commit nobody is in `commit`. -/
theorem Inv.no_commits {s : St ι} (hs : Inv s) (hc : s.committing = false) (q : ι) :
    (s.pc q).commits = false := by
  by_contra h
  simp [hs.commits q (by simpa using h)] at hc

theorem wakeup_active (s : St ι) (q : ι) : (s.wakeup.pc q).active = (s.pc q).active := by
  simp only [St.wakeup]
  split_ifs with h
  · simp [h, Pc.active]
  · rfl

theorem wakeup_commits (s : St ι) (q : ι) : (s.wakeup.pc q).commits = (s.pc q).commits := by
  simp only [St.wakeup]
  split_ifs with h
  · simp [h, Pc.commits]
  · rfl

theorem wakeup_committed (s : St ι) (q : ι) : s.wakeup.pc q = .committed ↔ s.pc q = .committed := by
  simp only [St.wakeup]
  split_ifs with h
  · simp [h]
  · rfl

theorem Inv.boot : Inv (boot : St ι) where
  active := ⟨∅, by simp [LogOps.boot, Pc.active], rfl⟩
  commits q h := by simp [LogOps.boot, Pc.commits] at h
  alone q r h := by simp [LogOps.boot, Pc.commits] at h
  committing h := by simp [LogOps.boot] at h
  committed q h := by simp [LogOps.boot] at h
  drained _ _ := rfl
  panic := Or.inl rfl
  size := rfl
  nodup := List.nodup_nil

variable [DecidableEq ι]

@[simp] theorem goto_pc (s : St ι) (q r : ι) (pc : Pc) :
    (s.goto q pc).pc r = if r = q then pc else s.pc r := by
  simp [St.goto, Function.update_apply]

/-- A step of `q` inside or outside an operation, `lh` growing at most. -/
theorem Inv.move {s : St ι} (hs : Inv s) {q : ι} {pc : Pc} {lh : List ℕ}
    (hactive : pc.active = (s.pc q).active) (hnew : pc.commits = false)
    (hlh : lh = s.lh ∨ lh.Nodup ∧ (s.pc q).active = true) :
    Inv ({ s with lh := lh }.goto q pc) where
  active := by
    obtain ⟨A, hA, hcard⟩ := hs.active
    refine ⟨A, fun r => ?_, hcard⟩
    rw [goto_pc]
    split_ifs with hr
    · rw [hactive, ← hr, hA r]
    · exact hA r
  commits r := by
    rw [goto_pc]
    split_ifs with hr
    · simp [hnew]
    · exact hs.commits r
  alone r t := by
    rw [goto_pc, goto_pc]
    split_ifs with hr ht ht
    · simp [hnew]
    · simp [hnew]
    · simp [hnew]
    · exact hs.alone r t
  committing := hs.committing
  committed r hr := by
    have hc : (s.pc r).commits = true ∧ s.pc r = .committed := by
      rw [goto_pc] at hr
      split_ifs at hr with h
      · simp [hr, Pc.commits] at hnew
      · exact ⟨by simp [show s.pc r = .committed from hr, Pc.commits], hr⟩
    rcases hlh with rfl | ⟨-, hq⟩
    · exact hs.committed r hc.2
    · have := hs.commits r hc.1
      simp [hs.not_committing hq] at this
  drained hc ho := by
    rcases hlh with rfl | ⟨-, hq⟩
    · exact hs.drained hc ho
    · have hpos := hs.outstanding_pos hq
      have ho : s.outstanding = 0 := ho
      omega
  panic := hs.panic
  size := hs.size
  nodup := by
    rcases hlh with rfl | ⟨h, -⟩
    · exact hs.nodup
    · exact h

/-- `begin_op` lets `q` in. -/
theorem Inv.enter {s : St ι} (hs : Inv s) {q : ι} (hq : s.pc q = .begin)
    (hc : s.committing = false) :
    Inv ({ s with outstanding := s.outstanding + 1 }.goto q .inOp) := by
  have hnone : ∀ r, (({ s with outstanding := s.outstanding + 1 }.goto q .inOp).pc r).commits
      = false := by
    intro r
    rw [goto_pc]
    split_ifs
    · rfl
    · exact hs.no_commits hc r
  exact {
    active := by
      obtain ⟨A, hA, hcard⟩ := hs.active
      have hnot : q ∉ A := by simp [hA, hq, Pc.active]
      refine ⟨insert q A, fun r => ?_, ?_⟩
      · rw [goto_pc, Finset.mem_insert]
        split_ifs with hr
        · simp [hr, Pc.active]
        · simpa [hr] using hA r
      · rw [Finset.card_insert_of_notMem hnot, hcard]
        rfl
    commits := fun r h => absurd h (by rw [hnone r]; decide)
    alone := fun r t h => absurd h (by rw [hnone r]; decide)
    committing := fun h => absurd h (by simpa [St.goto] using hc)
    committed := fun r h => absurd (hnone r) (by rw [h]; decide)
    drained := fun _ h => absurd h (by simp [St.goto])
    panic := hs.panic
    size := hs.size
    nodup := hs.nodup }

theorem Inv.turn {s : St ι} (hs : Inv s) {q : ι} (hq : s.pc q = .begin) : Inv (beginTurn s q) := by
  have hsleep : Inv (s.goto q .sleeping) :=
    hs.move (by simp [hq, Pc.active]) rfl (Or.inl rfl)
  unfold beginTurn
  split_ifs with hc hfull
  · exact hsleep
  · exact hsleep
  · exact hs.enter hq (by simpa using hc)

theorem Inv.logWrite {s : St ι} (hs : Inv s) {q : ι} {b : ℕ} (hq : s.pc q = .inOp) :
    Inv (logWrite s q b) := by
  have hpos := hs.outstanding_pos (q := q) (by simp [hq, Pc.active])
  unfold LogOps.logWrite
  split_ifs with hbig hout
  · exact { hs with panic := Or.inr rfl }
  · omega
  · exact hs.move (by simp [hq, Pc.active]) rfl (Or.inl rfl)

theorem Inv.absorb {s : St ι} (hs : Inv s) {q : ι} {b : ℕ} (hq : s.pc q = .logWrite b) :
    Inv ({ s with lh := absorb b s.lh }.goto q .inOp) := by
  refine hs.move (by simp [hq, Pc.active]) rfl (Or.inr ⟨?_, by simp [hq, Pc.active]⟩)
  rw [absorb_eq]
  split_ifs with hb
  · exact hs.nodup
  · exact hs.nodup.append (List.nodup_singleton b) (by simpa using hb)

omit [DecidableEq ι] in
theorem Inv.wakeup {s : St ι} (hs : Inv s) : Inv s.wakeup where
  active := by
    obtain ⟨A, hA, hcard⟩ := hs.active
    exact ⟨A, fun r => by rw [wakeup_active, hA r], hcard⟩
  commits r := by rw [wakeup_commits]; exact hs.commits r
  alone r t := by rw [wakeup_commits, wakeup_commits]; exact hs.alone r t
  committing := hs.committing
  committed r := by rw [wakeup_committed]; exact hs.committed r
  drained := hs.drained
  panic := hs.panic
  size := hs.size
  nodup := hs.nodup

/-- `q` leaves its operation; the last one out goes on to commit. -/
theorem Inv.leave {s : St ι} (hs : Inv s) {q : ι} {pc : Pc} (hq : s.pc q = .inOp)
    (hpc : pc = .idle ∧ s.outstanding - 1 ≠ 0 ∨ pc = .commit ∧ s.outstanding - 1 = 0) :
    Inv ({ s with
      outstanding := s.outstanding - 1, committing := pc.commits }.goto q pc) := by
  have hc := hs.not_committing (q := q) (by simp [hq, Pc.active])
  have hpos := hs.outstanding_pos (q := q) (by simp [hq, Pc.active])
  have honly : ∀ r, (({ s with
      outstanding := s.outstanding - 1, committing := pc.commits }.goto q pc).pc r).commits = true →
      r = q ∧ pc = .commit := by
    intro r hr
    rw [goto_pc] at hr
    split_ifs at hr with h
    · rcases hpc with ⟨rfl, -⟩ | ⟨rfl, -⟩
      · simp [Pc.commits] at hr
      · exact ⟨h, rfl⟩
    · simp [hs.no_commits hc r] at hr
  exact {
    active := by
      obtain ⟨A, hA, hcard⟩ := hs.active
      have hmem : q ∈ A := by simp [hA, hq, Pc.active]
      refine ⟨A.erase q, fun r => ?_, ?_⟩
      · rw [goto_pc, Finset.mem_erase]
        split_ifs with hr
        · rcases hpc with ⟨rfl, -⟩ | ⟨rfl, -⟩ <;> simp [hr, Pc.active]
        · simpa [hr] using hA r
      · rw [Finset.card_erase_of_mem hmem, hcard]
        rfl
    commits := fun r hr => by
      change pc.commits = true
      rw [(honly r hr).2]
      rfl
    alone := fun r t hr ht => (honly r hr).1.trans (honly t ht).1.symm
    committing := fun h => by
      change s.outstanding - 1 = 0
      rcases hpc with ⟨rfl, -⟩ | ⟨-, h⟩
      · simp [St.goto, Pc.commits] at h
      · exact h
    committed := fun r hr => by
      have h := honly r (by rw [hr]; rfl)
      obtain ⟨rfl, rfl⟩ := h
      simp at hr
    drained := fun h ho => by
      have ho : s.outstanding - 1 = 0 := ho
      rcases hpc with ⟨-, h'⟩ | ⟨rfl, -⟩
      · exact absurd ho h'
      · simp [St.goto, Pc.commits] at h
    panic := hs.panic
    size := hs.size
    nodup := hs.nodup }

theorem Inv.endOp {s : St ι} (hs : Inv s) {q : ι} (hq : s.pc q = .inOp) : Inv (endOp s q) := by
  have hc := hs.not_committing (q := q) (by simp [hq, Pc.active])
  unfold LogOps.endOp
  simp only [hc, Bool.false_eq_true, if_false]
  split_ifs with h0
  · exact hs.leave hq (Or.inr ⟨rfl, h0⟩)
  · exact (hs.leave hq (Or.inl ⟨rfl, h0⟩)).wakeup

/-- `commit` empties the log, and `end_op` then ends the commit. -/
theorem Inv.commit {s : St ι} (hs : Inv s) {q : ι} {pc : Pc} (hq : (s.pc q).commits = true)
    (hpc : pc = .committed ∨ pc = .idle) :
    Inv ({ s with lh := [], committing := pc.commits }.goto q pc) where
  active := by
    obtain ⟨A, hA, hcard⟩ := hs.active
    refine ⟨A, fun r => ?_, hcard⟩
    rw [goto_pc]
    split_ifs with hr
    · rw [hr, hA, hs.not_active (hs.commits q hq) q]
      rcases hpc with rfl | rfl <;> rfl
    · exact hA r
  commits r hr := by
    rw [goto_pc] at hr
    split_ifs at hr with h
    · exact hr
    · exact absurd (hs.alone r q hr hq) h
  alone r t hr ht := by
    have honly : ∀ r, (({ s with
        lh := [], committing := pc.commits }.goto q pc).pc r).commits = true → r = q := by
      intro r hr
      rw [goto_pc] at hr
      split_ifs at hr with h
      · exact h
      · exact hs.alone r q hr hq
    rw [honly r hr, honly t ht]
  committing _ := hs.committing (hs.commits q hq)
  committed _ _ := rfl
  drained _ _ := rfl
  panic := hs.panic
  size := hs.size
  nodup := List.nodup_nil

theorem Inv.next {s t : St ι} {e : Event ι} (hs : Inv s) (h : next s e = some t) : Inv t := by
  unfold LogOps.next at h
  split_ifs at h with hpanic
  cases e with
  | beginOp q =>
    obtain ⟨hq, h⟩ := Option.ite_none_right_eq_some.mp h
    exact Option.some.inj h ▸ hs.move (by simp [hq, Pc.active]) rfl (Or.inl rfl)
  | turn q =>
    obtain ⟨hq, h⟩ := Option.ite_none_right_eq_some.mp h
    exact Option.some.inj h ▸ hs.turn hq
  | logWrite q b =>
    obtain ⟨hq, h⟩ := Option.ite_none_right_eq_some.mp h
    exact Option.some.inj h ▸ hs.logWrite hq
  | absorb q b =>
    obtain ⟨hq, h⟩ := Option.ite_none_right_eq_some.mp h
    exact Option.some.inj h ▸ hs.absorb hq
  | endOp q =>
    obtain ⟨hq, h⟩ := Option.ite_none_right_eq_some.mp h
    exact Option.some.inj h ▸ hs.endOp hq
  | commit q =>
    obtain ⟨hq, h⟩ := Option.ite_none_right_eq_some.mp h
    have hcom := hs.commits q (by simp [hq, Pc.commits])
    have := hs.commit (q := q) (by simp [hq, Pc.commits]) (Or.inl rfl)
    rw [← Option.some.inj h]
    simpa [hcom, Pc.commits] using this
  | finish q =>
    obtain ⟨hq, h⟩ := Option.ite_none_right_eq_some.mp h
    have := hs.commit (q := q) (by simp [hq, Pc.commits]) (Or.inr rfl)
    rw [← hs.committed q hq] at this
    exact Option.some.inj h ▸ this.wakeup

theorem run_inv {s : St ι} {es : List (Event ι)} (h : (system ι).Run boot es s) : Inv s :=
  h.invariant Inv.boot (fun _ _ _ hs hstep => hs.next hstep)

/-- What an event does to the header. -/
def headerStep (lh : List ℕ) : Event ι → List ℕ
  | .absorb _ b => absorb b lh
  | .commit _ => []
  | _ => lh

theorem next_lh {s t : St ι} {e : Event ι} (h : next s e = some t) : t.lh = headerStep s.lh e := by
  unfold next at h
  split_ifs at h
  cases e with
  | beginOp q =>
    obtain ⟨-, h⟩ := Option.ite_none_right_eq_some.mp h
    exact Option.some.inj h ▸ rfl
  | turn q =>
    obtain ⟨-, h⟩ := Option.ite_none_right_eq_some.mp h
    rw [← Option.some.inj h, beginTurn]
    split_ifs <;> rfl
  | logWrite q b =>
    obtain ⟨-, h⟩ := Option.ite_none_right_eq_some.mp h
    rw [← Option.some.inj h, logWrite]
    split_ifs <;> rfl
  | endOp q =>
    obtain ⟨-, h⟩ := Option.ite_none_right_eq_some.mp h
    rw [← Option.some.inj h, endOp]
    split_ifs <;> rfl
  | absorb q b | commit q | finish q =>
    obtain ⟨-, h⟩ := Option.ite_none_right_eq_some.mp h
    exact Option.some.inj h ▸ rfl

theorem next_alive {s t : St ι} {e : Event ι} (h : next s e = some t) : s.panic = none := by
  unfold next at h
  split_ifs at h with hp
  simpa using hp

/-- The only panic is that of a `log_write` which finds 29 blocks in the header. -/
theorem next_panic {s t : St ι} {e : Event ι} (hs : Inv s) (h : next s e = some t) :
    t.panic = none ↔ ∀ q b, e = .logWrite q b → s.lh.length < LOGSIZE - 1 := by
  have halive := next_alive h
  unfold next at h
  split_ifs at h
  cases e with
  | logWrite q b =>
    obtain ⟨hq, h⟩ := Option.ite_none_right_eq_some.mp h
    have hpos := hs.outstanding_pos (q := q) (by simp [hq, Pc.active])
    have hsize := hs.size
    have hL : LOGSIZE = 30 := rfl
    rw [← Option.some.inj h, logWrite]
    split_ifs with hbig hout
    · simp
      omega
    · omega
    · simp [St.goto, halive]
      omega
  | turn q =>
    obtain ⟨-, h⟩ := Option.ite_none_right_eq_some.mp h
    rw [← Option.some.inj h, beginTurn]
    split_ifs <;> simp [St.goto, halive]
  | endOp q =>
    obtain ⟨hq, h⟩ := Option.ite_none_right_eq_some.mp h
    have hc := hs.not_committing (q := q) (by simp [hq, Pc.active])
    rw [← Option.some.inj h, endOp]
    simp only [hc, Bool.false_eq_true, if_false]
    split_ifs <;> simp [St.goto, St.wakeup, halive]
  | beginOp q | absorb q b | commit q | finish q =>
    obtain ⟨-, h⟩ := Option.ite_none_right_eq_some.mp h
    rw [← Option.some.inj h]
    simp [St.goto, St.wakeup, halive]

omit [DecidableEq ι] in
theorem groupBlocks_snoc (es : List (Event ι)) (e : Event ι) :
    groupBlocks (es ++ [e]) = groupStep (groupBlocks es) e := by
  simp [groupBlocks]

theorem run_groupBlocks {s : St ι} {es : List (Event ι)} (h : (system ι).Run boot es s) :
    groupBlocks es = s.lh.toFinset := by
  induction h with
  | nil => rfl
  | @snoc t u es e _ hstep ih =>
    rw [groupBlocks_snoc, ih, next_lh hstep]
    cases e with
    | absorb q b =>
      simp only [groupStep, headerStep, absorb_eq]
      split_ifs with hb
      · simp [hb]
      · ext x
        simp
    | commit q => rfl
    | beginOp q | turn q | logWrite q b | endOp q | finish q => rfl

theorem card_groupBlocks {s : St ι} {es : List (Event ι)} (h : (system ι).Run boot es s) :
    (groupBlocks es).card = s.lh.length := by
  rw [run_groupBlocks h, List.toFinset_card_of_nodup (run_inv h).nodup]

omit [DecidableEq ι] in
theorem roomy_snoc (es : List (Event ι)) (e : Event ι) :
    Roomy (es ++ [e]) ↔
      Roomy es ∧ ∀ q b, e = .logWrite q b → (groupBlocks es).card < LOGSIZE - 1 := by
  constructor
  · intro h
    refine ⟨fun es' q b hpre => h es' q b (hpre.trans (List.prefix_append _ _)), ?_⟩
    rintro q b rfl
    exact h es q b (List.prefix_refl _)
  · rintro ⟨h, hlast⟩ es' q b hpre
    rcases List.prefix_concat_iff.mp hpre with heq | hpre
    · obtain ⟨rfl, rfl⟩ := List.append_inj' heq rfl |>.imp id List.singleton_inj.mp
      exact hlast q b rfl
    · exact h es' q b hpre

theorem run_panic_iff {s : St ι} {es : List (Event ι)} (h : (system ι).Run boot es s) :
    s.panic = none ↔ Roomy es := by
  induction h with
  | nil =>
    simp only [boot, true_iff]
    intro es' q b hpre
    simp at hpre
  | snoc hrun hstep ih =>
    rw [roomy_snoc, ← ih, card_groupBlocks hrun, next_panic (run_inv hrun) hstep]
    simp [next_alive hstep]

/-- The part of `opBlocks` that has reached the header. -/
def recordStep (q : ι) (B : Finset ℕ) : Event ι → Finset ℕ
  | .turn r => if r = q then ∅ else B
  | .absorb r b => if r = q then insert b B else B
  | _ => B

/-- What the operations still have to record fits beside what is recorded. -/
structure Reserve (m : ℕ) (opB : ι → Finset ℕ) (rec : ι → Finset ℕ) (s : St ι) : Prop where
  recorded : ∀ q, (s.pc q).active = true → rec q ⊆ s.lh.toFinset
  within : ∀ q, rec q ⊆ opB q
  pending : ∀ q b, s.pc q = .logWrite b → b ∈ opB q
  room : ∀ A : Finset ι, (∀ q ∈ A, (s.pc q).active = true) →
    s.lh.length + ∑ q ∈ A, (m - (rec q).card) ≤ MAXOPBLOCKS + 2 * m

omit [DecidableEq ι] in
/-- Admission: at most three operations share the log, and a third only joins an empty one. -/
theorem room_of_admission {s : St ι} (hs : Inv s) (hc : s.committing = false)
    (hfull : ¬ s.lh.length + (s.outstanding + 1) * MAXOPBLOCKS > LOGSIZE) {m : ℕ}
    (hm : m ≤ MAXOPBLOCKS) : s.lh.length + (s.outstanding + 1) * m ≤ MAXOPBLOCKS + 2 * m := by
  change ¬ s.lh.length + (s.outstanding + 1) * 10 > 30 at hfull
  change m ≤ 10 at hm
  change _ ≤ 10 + 2 * m
  by_cases h0 : s.outstanding = 0
  · simp [hs.drained hc h0, h0]
    omega
  · have hle : s.outstanding = 1 ∨ s.outstanding = 2 := by omega
    rcases hle with h | h <;> simp only [h] at hfull ⊢ <;> omega

/-- What an event does to where a process is, as far as operations go. -/
inductive Moves (s : St ι) : Event ι → ι → Pc → Prop where
  | same (e : Event ι) (r : ι) : Moves s e r (s.pc r)
  | out (e : Event ι) (r : ι) {pc : Pc} (h : pc.active = false) : Moves s e r pc
  | enter (r : ι) (hr : s.pc r = .begin) (hc : s.committing = false)
      (hfull : ¬ s.lh.length + (s.outstanding + 1) * MAXOPBLOCKS > LOGSIZE) :
      Moves s (.turn r) r .inOp
  | logWrite (r : ι) (b : ℕ) (hr : s.pc r = .inOp) : Moves s (.logWrite r b) r (.logWrite b)
  | absorb (r : ι) (b : ℕ) (hr : s.pc r = .logWrite b) : Moves s (.absorb r b) r .inOp

theorem Moves.goto {s u : St ι} {e : Event ι} {q : ι} {pc : Pc} (hu : u.pc = s.pc)
    (h : Moves s e q pc) (r : ι) : Moves s e r ((u.goto q pc).pc r) := by
  rw [goto_pc, hu]
  split_ifs with hr
  · exact hr ▸ h
  · exact .same e r

omit [DecidableEq ι] in
theorem Moves.wakeup {s u : St ι} {e : Event ι} (h : ∀ r, Moves s e r (u.pc r)) (r : ι) :
    Moves s e r (u.wakeup.pc r) := by
  simp only [St.wakeup]
  split_ifs
  · exact .out e r rfl
  · exact h r

omit [DecidableEq ι] in
theorem Moves.of_active {s : St ι} {e : Event ι} {r : ι} {pc : Pc} (h : Moves s e r pc)
    (hpc : pc.active = true) : (s.pc r).active = true ∨
      e = .turn r ∧ s.committing = false ∧
        ¬ s.lh.length + (s.outstanding + 1) * MAXOPBLOCKS > LOGSIZE := by
  cases h with
  | same => exact Or.inl hpc
  | out _ _ h => simp [h] at hpc
  | enter _ hr hc hfull => exact Or.inr ⟨rfl, hc, hfull⟩
  | logWrite _ _ hr => exact Or.inl (by simp [hr, Pc.active])
  | absorb _ _ hr => exact Or.inl (by simp [hr, Pc.active])

theorem next_moves {s t : St ι} {e : Event ι} (h : next s e = some t) (r : ι) :
    Moves s e r (t.pc r) := by
  unfold next at h
  split_ifs at h
  cases e with
  | turn q =>
    obtain ⟨hq, h⟩ := Option.ite_none_right_eq_some.mp h
    rw [← Option.some.inj h, beginTurn]
    split_ifs with hc hfull
    · exact Moves.goto rfl (.out _ q rfl) r
    · exact Moves.goto rfl (.out _ q rfl) r
    · exact Moves.goto rfl (.enter q hq (by simpa using hc) hfull) r
  | logWrite q b =>
    obtain ⟨hq, h⟩ := Option.ite_none_right_eq_some.mp h
    rw [← Option.some.inj h, LogOps.logWrite]
    split_ifs
    · exact .same _ r
    · exact .same _ r
    · exact Moves.goto rfl (.logWrite q b hq) r
  | absorb q b =>
    obtain ⟨hq, h⟩ := Option.ite_none_right_eq_some.mp h
    exact Option.some.inj h ▸ Moves.goto rfl (.absorb q b hq) r
  | endOp q =>
    obtain ⟨-, h⟩ := Option.ite_none_right_eq_some.mp h
    rw [← Option.some.inj h, endOp]
    split_ifs
    · exact .same _ r
    · exact Moves.goto rfl (.out _ q rfl) r
    · exact Moves.wakeup (Moves.goto rfl (.out _ q rfl)) r
  | beginOp q | commit q =>
    obtain ⟨-, h⟩ := Option.ite_none_right_eq_some.mp h
    exact Option.some.inj h ▸ Moves.goto rfl (.out _ q rfl) r
  | finish q =>
    obtain ⟨-, h⟩ := Option.ite_none_right_eq_some.mp h
    exact Option.some.inj h ▸ Moves.wakeup (Moves.goto rfl (.out _ q rfl)) r

theorem absorb_toFinset (b : ℕ) (lh : List ℕ) :
    (absorb b lh).toFinset = insert b lh.toFinset := by
  rw [absorb_eq]
  split_ifs with hb
  · simp [hb]
  · ext x
    simp

theorem next_commit {s t : St ι} {q : ι} (hs : Inv s) (h : next s (.commit q) = some t) (r : ι) :
    (s.pc r).active = false := by
  unfold next at h
  split_ifs at h
  obtain ⟨hq, -⟩ := Option.ite_none_right_eq_some.mp h
  exact hs.not_active (hs.commits q (by simp [hq, Pc.commits])) r

theorem next_turn {s t : St ι} {q : ι} (h : next s (.turn q) = some t) : s.pc q = .begin := by
  unfold next at h
  split_ifs at h
  exact (Option.ite_none_right_eq_some.mp h).1

theorem next_absorb {s t : St ι} {q : ι} {b : ℕ} (h : next s (.absorb q b) = some t) :
    s.pc q = .logWrite b := by
  unfold next at h
  split_ifs at h
  exact (Option.ite_none_right_eq_some.mp h).1

section Step
variable {m : ℕ} {opB rec : ι → Finset ℕ} {s t : St ι} {e : Event ι}

theorem Reserve.recorded_next (hs : Inv s) (hr : Reserve m opB rec s) (h : next s e = some t)
    {q : ι} (hq : (s.pc q).active = true) : recordStep q (rec q) e ⊆ t.lh.toFinset := by
  have hold := hr.recorded q hq
  rw [next_lh h]
  cases e with
  | turn r =>
    simp only [recordStep, headerStep]
    split_ifs
    · exact Finset.empty_subset _
    · exact hold
  | absorb r b =>
    simp only [recordStep, headerStep, absorb_toFinset]
    split_ifs
    · exact Finset.insert_subset_insert b hold
    · exact hold.trans (Finset.subset_insert b _)
  | commit r =>
    have := next_commit hs h q
    simp [hq] at this
  | beginOp r | logWrite r b | endOp r | finish r => exact hold

theorem Reserve.within_next (hr : Reserve m opB rec s) (h : next s e = some t) (q : ι) :
    recordStep q (rec q) e ⊆ opStep q (opB q) e := by
  have hold := hr.within q
  cases e with
  | turn r =>
    simp only [recordStep, opStep]
    split_ifs
    · exact Finset.empty_subset _
    · exact hold
  | absorb r b =>
    simp only [recordStep, opStep]
    split_ifs with hrq
    · exact Finset.insert_subset (hrq ▸ hr.pending r b (next_absorb h)) hold
    · exact hold
  | logWrite r b =>
    simp only [recordStep, opStep]
    split_ifs
    · exact hold.trans (Finset.subset_insert b _)
    · exact hold
  | beginOp r | commit r | endOp r | finish r => exact hold

theorem Reserve.pending_next (hr : Reserve m opB rec s) (h : next s e = some t) {q : ι} {b : ℕ}
    (hq : t.pc q = .logWrite b) : b ∈ opStep q (opB q) e := by
  have hmoves := next_moves h q
  rw [hq] at hmoves
  generalize hpc : Pc.logWrite b = pc at hmoves
  cases hmoves with
  | same =>
    have hold := hr.pending q b hpc.symm
    cases e with
    | turn r =>
      have hne : r ≠ q := by
        rintro rfl
        simp [next_turn h] at hpc
      simpa [opStep, hne] using hold
    | logWrite r c =>
      simp only [opStep]
      split_ifs
      · exact Finset.mem_insert_of_mem hold
      · exact hold
    | beginOp r | absorb r c | commit r | endOp r | finish r => exact hold
  | out _ _ h' =>
    rw [← hpc] at h'
    simp [Pc.active] at h'
  | enter => cases hpc
  | logWrite _ c =>
    cases hpc
    simp [opStep]
  | absorb => cases hpc

/-- The operation that `begin_op` lets in is entitled to what admission keeps free. -/
theorem room_enter (hs : Inv s) (h : next s e = some t) (hm : m ≤ MAXOPBLOCKS) {A : Finset ι}
    (hA : ∀ q ∈ A, (t.pc q).active = true) {q : ι} (hmem : q ∈ A)
    (hq : (s.pc q).active = false) (used : ι → Finset ℕ) :
    t.lh.length + ∑ r ∈ A, (m - (used r).card) ≤ MAXOPBLOCKS + 2 * m := by
  rcases (next_moves h q).of_active (hA q hmem) with hq' | ⟨rfl, hc, hfull⟩
  · simp [hq] at hq'
  obtain ⟨B, hB, hcard⟩ := hs.active
  have hsub : A.erase q ⊆ B := by
    intro r hr
    obtain ⟨hne, hr⟩ := Finset.mem_erase.mp hr
    rcases (next_moves h r).of_active (hA r hr) with hr' | ⟨hturn, -⟩
    · exact (hB r).mpr hr'
    · cases hturn
      contradiction
  have hle : A.card ≤ s.outstanding + 1 := by
    rw [← hcard, ← Finset.card_erase_add_one hmem]
    exact Nat.add_le_add_right (Finset.card_le_card hsub) 1
  have hsum : ∑ r ∈ A, (m - (used r).card) ≤ (s.outstanding + 1) * m :=
    calc ∑ r ∈ A, (m - (used r).card) ≤ A.card * m :=
          Finset.sum_le_card_nsmul A _ m (fun r _ => Nat.sub_le _ _)
      _ ≤ (s.outstanding + 1) * m := Nat.mul_le_mul_right m hle
  have hroom := room_of_admission hs hc hfull hm
  rw [next_lh h]
  change s.lh.length + _ ≤ _
  omega

/-- A block that is new to the header is new to its operation too. -/
theorem Reserve.room_absorb (hr : Reserve m opB rec s) {q : ι} {b : ℕ}
    (hq : (s.pc q).active = true) (hbound : (insert b (rec q)).card ≤ m) {A : Finset ι}
    (hA : ∀ r ∈ A, (s.pc r).active = true) (hmem : q ∈ A) :
    (absorb b s.lh).length + ∑ r ∈ A, (m - (recordStep r (rec r) (.absorb q b)).card)
      ≤ MAXOPBLOCKS + 2 * m := by
  have hroom := hr.room A hA
  have hrest : ∑ r ∈ A.erase q, (m - (recordStep r (rec r) (.absorb q b)).card) =
      ∑ r ∈ A.erase q, (m - (rec r).card) := by
    refine Finset.sum_congr rfl (fun r hr => ?_)
    simp [recordStep, Ne.symm (Finset.ne_of_mem_erase hr)]
  rw [← Finset.add_sum_erase A _ hmem, hrest]
  rw [← Finset.add_sum_erase A _ hmem] at hroom
  simp only [recordStep, if_true, absorb_eq]
  split_ifs with hb
  · have := Finset.card_le_card (Finset.subset_insert b (rec q))
    omega
  · have hnew : b ∉ rec q := fun hmem => hb (List.mem_toFinset.mp (hr.recorded q hq hmem))
    rw [Finset.card_insert_of_notMem hnew] at hbound ⊢
    rw [List.length_append, List.length_singleton]
    omega

theorem Reserve.room_next (hs : Inv s) (hr : Reserve m opB rec s) (h : next s e = some t)
    (hm : m ≤ MAXOPBLOCKS) (hbound : ∀ q, (opStep q (opB q) e).card ≤ m) (A : Finset ι)
    (hA : ∀ q ∈ A, (t.pc q).active = true) :
    t.lh.length + ∑ q ∈ A, (m - (recordStep q (rec q) e).card) ≤ MAXOPBLOCKS + 2 * m := by
  by_cases hold : ∀ q ∈ A, (s.pc q).active = true
  · have hroom := hr.room A hold
    rw [next_lh h]
    cases e with
    | absorb q b =>
      have hq : (s.pc q).active = true := by rw [next_absorb h]; rfl
      -- the processes of `A` together with `q`
      have hins := hr.room_absorb (A := insert q A) hq
        (by simpa [recordStep] using (Finset.card_le_card (hr.within_next h q)).trans (hbound q))
        (by simpa [hq] using hold) (Finset.mem_insert_self q A)
      have := Finset.sum_le_sum_of_subset (f := fun r =>
        m - (recordStep r (rec r) (.absorb q b)).card) (Finset.subset_insert q A)
      simp only [headerStep]
      omega
    | turn q =>
      have hsame : ∀ r ∈ A, m - (recordStep r (rec r) (.turn q)).card = m - (rec r).card := by
        intro r hrA
        have hne : q ≠ r := by
          rintro rfl
          have := hold q hrA
          simp [next_turn h, Pc.active] at this
        simp [recordStep, hne]
      rw [Finset.sum_congr rfl hsame]
      exact hroom
    | commit q =>
      simp only [headerStep, recordStep, List.length_nil]
      omega
    | beginOp q | logWrite q b | endOp q | finish q => exact hroom
  · push Not at hold
    obtain ⟨q, hmem, hq⟩ := hold
    exact room_enter hs h hm hA hmem (by simpa using hq) _

theorem Reserve.next (hs : Inv s) (hr : Reserve m opB rec s) (h : next s e = some t)
    (hm : m ≤ MAXOPBLOCKS) (hbound : ∀ q, (opStep q (opB q) e).card ≤ m) :
    Reserve m (fun q => opStep q (opB q) e) (fun q => recordStep q (rec q) e) t where
  recorded q hq := by
    rcases (next_moves h q).of_active hq with hq | ⟨rfl, -⟩
    · exact hr.recorded_next hs h hq
    · simp [recordStep]
  within := hr.within_next h
  pending _ _ := hr.pending_next h
  room := hr.room_next hs h hm hbound

end Step

theorem opsWithin_snoc {m : ℕ} {es : List (Event ι)} {e : Event ι}
    (h : OpsWithin m (es ++ [e])) : OpsWithin m es ∧ ∀ q, (opStep q (opBlocks q es) e).card ≤ m := by
  refine ⟨fun es' hpre => h es' (hpre.trans (List.prefix_append _ _)), fun q => ?_⟩
  simpa [opBlocks] using h _ (List.prefix_refl _) q

theorem run_reserve {s : St ι} {es : List (Event ι)} {m : ℕ} (hm : m ≤ MAXOPBLOCKS)
    (h : (system ι).Run boot es s) (hw : OpsWithin m es) :
    Reserve m (fun q => opBlocks q es) (fun q => es.foldl (recordStep q) ∅) s := by
  induction h with
  | nil =>
    exact {
      recorded := fun q hq => by simp [boot, Pc.active] at hq
      within := fun q => Finset.Subset.refl _
      pending := fun q b hq => by simp [boot] at hq
      room := fun A hA => by
        have : A = ∅ := by
          refine Finset.eq_empty_of_forall_notMem (fun q hq => ?_)
          simpa [boot, Pc.active] using hA q hq
        simp [this, boot] }
  | snoc hrun hstep ih =>
    obtain ⟨hw, hlast⟩ := opsWithin_snoc hw
    simpa [opBlocks] using (ih hw).next (run_inv hrun) hstep hm hlast

/-- Operations of at most `m` distinct blocks never have more than `MAXOPBLOCKS + 2 * m` in the
header; for `m = MAXOPBLOCKS` that is the size of its array. -/
theorem run_header_le {s : St ι} {es : List (Event ι)} {m : ℕ} (hm : m ≤ MAXOPBLOCKS)
    (h : (system ι).Run boot es s) (hw : OpsWithin m es) :
    s.lh.length ≤ MAXOPBLOCKS + 2 * m :=
  (Nat.le_add_right _ _).trans ((run_reserve hm h hw).room ∅ (by simp))

/-- With a block less than its reservation for each operation the log has always room. -/
theorem run_roomy {s : St ι} {es : List (Event ι)} (h : (system ι).Run boot es s)
    (hw : OpsWithin (MAXOPBLOCKS - 1) es) : Roomy es := by
  induction h with
  | nil =>
    intro es' q b hpre
    simp at hpre
  | snoc hrun hstep ih =>
    obtain ⟨hw, -⟩ := opsWithin_snoc hw
    have hle := run_header_le (by decide) hrun hw
    refine (roomy_snoc _ _).mpr ⟨ih hw, fun q b _ => ?_⟩
    rw [card_groupBlocks hrun]
    exact Nat.lt_of_le_of_lt hle (by decide)

/-- `log_write` stays clear of "too big a transaction" exactly while the operations that commit
together record fewer than `LOGSIZE - 1` distinct blocks. -/
theorem logWrite_fits_iff {s : St ι} {es : List (Event ι)} (h : (system ι).Run boot es s) :
    (s.panic ≠ some .tooBig ↔ Roomy es) ∧ (OpsWithin (MAXOPBLOCKS - 1) es → Roomy es) := by
  refine ⟨?_, run_roomy h⟩
  rw [← run_panic_iff h]
  rcases (run_inv h).panic with hp | hp <;> simp [hp]

/-- An operation of `q` that log_writes the blocks from `b` on. -/
def writeBlocks (q : ι) (b n : ℕ) : List (Event ι) :=
  (List.range n).flatMap (fun i => [.logWrite q (b + i), .absorb q (b + i)])

/-- Three operations let in together; the first two have used their reservation. -/
def fullLog : List (Event (Fin 3)) :=
  [.beginOp 0, .turn 0, .beginOp 1, .turn 1, .beginOp 2, .turn 2] ++
    writeBlocks 0 100 10 ++ writeBlocks 1 200 10 ++ writeBlocks 2 300 9

theorem logWrite_fits_nine : ∃ s, (system (Fin 3)).Run boot fullLog s ∧
    (s.panic ≠ some .tooBig ↔ Roomy fullLog) := by
  have h : (runNext next boot fullLog).isSome = true := by decide +kernel
  obtain ⟨s, hs⟩ := Option.isSome_iff_exists.mp h
  exact ⟨s, run_of_runNext hs, (logWrite_fits_iff (run_of_runNext hs)).1⟩

theorem logWrite_tenth_block_panics : ∃ (es : List (Event (Fin 3))) (s : St (Fin 3)),
    (system (Fin 3)).Run boot es s ∧ OpsWithin MAXOPBLOCKS es ∧ s.panic = some .tooBig := by
  have h : (runNext next boot (fullLog ++ [Event.logWrite 2 309])).map (·.panic) =
      some (some .tooBig) := by decide +kernel
  have hw : ∀ es' ∈ (fullLog ++ [Event.logWrite 2 309]).inits, ∀ q,
      (opBlocks q es').card ≤ MAXOPBLOCKS := by decide +kernel
  obtain ⟨s, hs, hp⟩ := Option.map_eq_some_iff.mp h
  exact ⟨_, s, run_of_runNext hs, fun es' hpre => hw es' ((List.mem_inits _ _).mpr hpre), hp⟩

end Ostep.LogOps

import Ostep.ProcKill
import Ostep.Kinship
import Mathlib.Algebra.Group.Nat.Defs

/-!
# Exit and wait

The process table as a family of processes: each event is a step of the family or changes
nothing in it. With fewer than 2^31 - 1 forks the ids that `allocproc` gives out are new, so
what holds of families holds of the table; who sleeps in `wait` is followed on the table itself.
-/

namespace Ostep.ProcTable
open TransitionSystem Kinship

attribute [ext] PTable

def ProcState.kind : ProcState → Kind
  | .unused => .free
  | .embryo => .embryo
  | .sleeping | .runnable | .running => .live
  | .zombie => .zombie

/-- The slot that a `fork` is filling, and whether its `parent` is set. -/
def Pc.making : Pc → Option (Slot × Bool)
  | .forkAlloced np | .forkStacked np => some (np, false)
  | .forkFilled np => some (np, true)
  | .user | .waiting => none

/-- The forks that got a slot, the ids in use so far, the children with who forked them, the
exits with their slots, and the children that calls of `wait` returned with the callers. -/
structure History where
  forks : ℕ
  used : List Pid
  forked : List (Pid × Pid)
  exited : List (Slot × Pid)
  reported : List (Pid × Pid)

def record (t : PTable) : Event → History → History
  | .allocproc _, h =>
    if (allocproc t).isSome then { h with forks := h.forks + 1, used := t.nextpid :: h.used } else h
  | .forkDone p, h =>
    match t.pc p with
    | .forkFilled np => { h with forked := ((t.proc np).pid, (t.proc p).pid) :: h.forked }
    | _ => h
  | .exit p, h => { h with exited := (p, (t.proc p).pid) :: h.exited }
  | .wait p, h =>
    match (wait t p).1 with
    | .reaped pid => { h with reported := ((t.proc p).pid, pid) :: h.reported }
    | _ => h
  | _, h => h

def historySystem : System (PTable × History) Event :=
  system.observe ⟨0, [1], [], [], []⟩ record

def PTable.family (t : PTable) (h : History) : Family Slot Pid where
  kind i := (t.proc i).state.kind
  pid i := (t.proc i).pid
  parent i := (t.proc i).parent
  making p := (t.pc p).making
  used := h.used
  forked := h.forked
  exited := h.exited
  reported := h.reported

section Views
variable {t t' : PTable} {h : History} {p i : Slot}

/-- Nothing changes in the family. -/
def SameKin (t t' : PTable) : Prop :=
  (∀ i, (t'.proc i).state.kind = (t.proc i).state.kind ∧ (t'.proc i).pid = (t.proc i).pid ∧
    (t'.proc i).parent = (t.proc i).parent) ∧ ∀ p, (t'.pc p).making = (t.pc p).making

theorem SameKin.family (hs : SameKin t t') : t'.family h = t.family h := by
  simp only [PTable.family, Family.mk.injEq, and_true]
  exact ⟨funext fun i => (hs.1 i).1, funext fun i => (hs.1 i).2.1, funext fun i => (hs.1 i).2.2,
    funext hs.2⟩

theorem SameKin.setProc {f : Proc → Proc} (hkind : (f (t.proc p)).state.kind = (t.proc p).state.kind)
    (hpid : (f (t.proc p)).pid = (t.proc p).pid) (hparent : (f (t.proc p)).parent = (t.proc p).parent) :
    SameKin t (t.setProc p f) := by
  refine ⟨fun i => ?_, fun _ => rfl⟩
  rw [setProc_proc]
  split_ifs with hi
  · subst hi
    exact ⟨hkind, hpid, hparent⟩
  · exact ⟨rfl, rfl, rfl⟩

theorem SameKin.setPc {k : Pc} (hk : k.making = (t.pc p).making) : SameKin t (t.setPc p k) := by
  refine ⟨fun _ => ⟨rfl, rfl, rfl⟩, fun q => ?_⟩
  simp only [PTable.setPc, Function.update_apply]
  split_ifs with hq
  · rw [hk, hq]
  · rfl

theorem SameKin.trans {t'' : PTable} (hs : SameKin t t') (hs' : SameKin t' t'') : SameKin t t'' :=
  ⟨fun i => ⟨(hs'.1 i).1.trans (hs.1 i).1, (hs'.1 i).2.1.trans (hs.1 i).2.1,
    (hs'.1 i).2.2.trans (hs.1 i).2.2⟩, fun p => (hs'.2 p).trans (hs.2 p)⟩

theorem wakeup1_sameKin (chan : Chan) : SameKin t (wakeup1 t chan) := by
  refine ⟨fun i => ?_, fun _ => rfl⟩
  simp only [wakeup1]
  split_ifs with hi
  · exact ⟨by rw [hi.1]; rfl, rfl, rfl⟩
  · exact ⟨rfl, rfl, rfl⟩

theorem family_setProc {f : Proc → Proc} : (t.setProc p f).family h =
    { t.family h with
      kind := Function.update (t.family h).kind p (f (t.proc p)).state.kind
      pid := Function.update (t.family h).pid p (f (t.proc p)).pid
      parent := Function.update (t.family h).parent p (f (t.proc p)).parent } := by
  simp only [PTable.family, Family.mk.injEq, and_true]
  refine ⟨?_, ?_, ?_, rfl⟩ <;> funext i <;> rw [setProc_proc, Function.update_apply] <;> split_ifs <;> rfl

theorem family_setPc {k : Pc} : (t.setPc p k).family h =
    { t.family h with making := Function.update (t.family h).making p k.making } := by
  simp only [PTable.family, Family.mk.injEq, and_true, setPc_proc, true_and]
  funext q
  simp only [PTable.setPc, Function.update_apply]
  split_ifs <;> rfl

theorem family_nextpid (x : Pid) : PTable.family { t with nextpid := x } h = t.family h := rfl

theorem setProc_same {f : Proc → Proc} (hpid : (f (t.proc p)).pid = (t.proc p).pid)
    (hparent : (f (t.proc p)).parent = (t.proc p).parent) : (t.setProc p f).family h =
      { t.family h with kind := Function.update (t.family h).kind p (f (t.proc p)).state.kind } := by
  rw [family_setProc, hpid, hparent]
  simp only [Family.mk.injEq, and_true, true_and]
  exact ⟨Function.update_eq_self .., Function.update_eq_self ..⟩

end Views

section Steps
variable {t t' : PTable} {h : History} {p : Slot}

theorem at_live {k : Pc} (ha : t.at p k = true) :
    (t.family h).kind p = .live ∧ t.pc p = k := by
  simp only [PTable.at, Bool.and_eq_true, decide_eq_true_eq] at ha
  exact ⟨by simp only [PTable.family, ha.1]; rfl, ha.2⟩

theorem kill_sameKin (pid : Pid) : SameKin t (kill t pid).2 := by
  unfold kill
  split
  · dsimp only
    apply SameKin.setProc
    · dsimp only
      split_ifs with hs
      · rw [hs]
        rfl
      · rfl
    · rfl
    · rfl
  · exact ⟨fun _ => ⟨rfl, rfl, rfl⟩, fun _ => rfl⟩

/-- Some sleepers on `chan` have become RUNNABLE, and nothing else has changed. -/
structure Woken (t t' : PTable) : Prop where
  kin : SameKin t t'
  pc : t'.pc = t.pc
  initproc : t'.initproc = t.initproc
  nextpid : t'.nextpid = t.nextpid
  chan : ∀ i, (t'.proc i).chan = (t.proc i).chan
  state : ∀ i, (t'.proc i).state = (t.proc i).state ∨
    (t.proc i).state = .sleeping ∧ (t'.proc i).state = .runnable

theorem Woken.refl (t : PTable) : Woken t t :=
  ⟨⟨fun _ => ⟨rfl, rfl, rfl⟩, fun _ => rfl⟩, rfl, rfl, rfl, fun _ => rfl, fun _ => Or.inl rfl⟩

theorem wakeup1_woken (chan : Chan) : Woken t (wakeup1 t chan) where
  kin := wakeup1_sameKin chan
  pc := rfl
  initproc := rfl
  nextpid := rfl
  chan i := by
    simp only [wakeup1]
    split_ifs <;> rfl
  state i := by
    simp only [wakeup1]
    split_ifs with hi
    · exact Or.inr ⟨hi.1, rfl⟩
    · exact Or.inl rfl

/-- Nobody sleeps on the channel any more. -/
theorem wakeup1_awake (chan : Chan) (i : Slot) (hs : ((wakeup1 t chan).proc i).state = .sleeping) :
    (t.proc i).chan ≠ some chan := by
  simp only [wakeup1] at hs
  split_ifs at hs with hi
  exact fun hc => hi ⟨hs, hc⟩

theorem wakeParent_woken : Woken t (wakeParent t p) := by
  unfold wakeParent
  split
  · exact wakeup1_woken _
  · exact .refl t

theorem Woken.trans {t'' : PTable} (hw : Woken t t') (hw' : Woken t' t'') : Woken t t'' where
  kin := hw.kin.trans hw'.kin
  pc := hw'.pc.trans hw.pc
  initproc := hw'.initproc.trans hw.initproc
  nextpid := hw'.nextpid.trans hw.nextpid
  chan i := (hw'.chan i).trans (hw.chan i)
  state i := by
    rcases hw'.state i with h' | ⟨h', hr⟩
    · rw [h']
      exact hw.state i
    · rcases hw.state i with h | ⟨-, h⟩
      · exact Or.inr ⟨h ▸ h', hr⟩
      · rw [h] at h'
        cases h'

/-- What `exit` does: it wakes who has to know, and then the children and the state change. -/
theorem exit_cases (hexit : exit t p = some t') : p ≠ t.initproc ∧ ∃ u, Woken t u ∧
    (∀ q, (t.proc p).parent = some q → (u.proc q).state = .sleeping →
      (t.proc q).chan ≠ some (.proc q)) ∧
    (∀ i, (t.proc i).parent = some p → (t.proc i).state = .zombie →
      (u.proc t.initproc).state = .sleeping →
        (t.proc t.initproc).chan ≠ some (.proc t.initproc)) ∧
    t' = { u with proc := fun i =>
      { u.proc i with
        parent := if (t.proc i).parent = some p then some t.initproc else (t.proc i).parent
        state := if i = p then .zombie else (u.proc i).state } } := by
  unfold exit at hexit
  split_ifs at hexit with hinit
  obtain rfl := Option.some.inj hexit
  have hw : Woken t (wakeParent t p) := wakeParent_woken
  have hawake : ∀ u, Woken (wakeParent t p) u → ∀ q, (t.proc p).parent = some q →
      (u.proc q).state = .sleeping → (t.proc q).chan ≠ some (.proc q) := by
    intro u hu q hq hs
    have hs' : ((wakeParent t p).proc q).state = .sleeping := by
      rcases hu.state q with h | ⟨-, h⟩
      · rwa [← h]
      · rw [hs] at h
        cases h
    simp only [wakeParent, hq] at hs'
    exact wakeup1_awake _ q hs'
  refine ⟨hinit, ?_⟩
  generalize hu : wakeParent t p = u at *
  have hcond : (∃ i, (u.proc i).parent = some p ∧ (u.proc i).state = .zombie) ↔
      ∃ i, (t.proc i).parent = some p ∧ (t.proc i).state = .zombie := by
    refine exists_congr fun i => ?_
    rw [(hw.kin.1 i).2.2]
    refine and_congr_right fun _ => ?_
    rcases hw.state i with h | ⟨h, h'⟩
    · rw [h]
    · simp [h, h']
  have hproc : ∀ w : PTable, Woken t w → ({ w with
      proc := fun i => if (w.proc i).parent = some p then { w.proc i with parent := some w.initproc }
        else w.proc i }.setProc p (fun c => { c with state := .zombie })) = { w with
      proc := fun i => { w.proc i with
        parent := if (t.proc i).parent = some p then some t.initproc else (t.proc i).parent
        state := if i = p then .zombie else (w.proc i).state } } := by
    intro w hw'
    refine PTable.ext (funext fun i => ?_) rfl rfl rfl
    rw [setProc_proc]
    dsimp only
    rw [← (hw'.kin.1 i).2.2, ← hw'.initproc]
    split_ifs with hi <;> simp_all
  by_cases hz : ∃ i, (t.proc i).parent = some p ∧ (t.proc i).state = .zombie
  · have hw' := hw.trans (wakeup1_woken (.proc u.initproc))
    refine ⟨wakeup1 u (.proc u.initproc), hw', hawake _ (wakeup1_woken _), fun i _ _ hs => ?_, ?_⟩
    · rw [← hw.initproc] at hs ⊢
      have := wakeup1_awake _ _ hs
      rwa [hw.chan] at this
    · have hwake : passChildren u p = { wakeup1 u (.proc u.initproc) with
          proc := fun i => if ((wakeup1 u (.proc u.initproc)).proc i).parent = some p then
            { (wakeup1 u (.proc u.initproc)).proc i with parent := some u.initproc }
            else (wakeup1 u (.proc u.initproc)).proc i } := by
        rw [passChildren, if_pos (hcond.mpr hz)]
        refine PTable.ext (funext fun i => ?_) rfl rfl rfl
        simp only [wakeup1]
        split_ifs <;> simp_all
      rw [hwake]
      exact hproc _ hw'
  · refine ⟨u, hw, hawake u (.refl u), fun i hi hzi => absurd ⟨i, hi, hzi⟩ hz, ?_⟩
    rw [passChildren, if_neg (mt hcond.mp hz)]
    exact hproc u hw

theorem wait_cases : (∃ i, (t.proc i).state = .zombie ∧ (t.proc i).parent = some p ∧ wait t p =
      (.reaped (t.proc i).pid, (t.setProc i (fun c =>
        { c with pid := 0, parent := none, killed := false, state := .unused })).setPc p .user)) ∨
    wait t p = (.failed, t.setPc p .user) ∨
    (∀ i, (t.proc i).parent = some p → (t.proc i).state ≠ .zombie) ∧ wait t p =
      (.sleeps, (t.setProc p (fun c =>
        { c with chan := some (.proc p), state := .sleeping })).setPc p .waiting) := by
  unfold wait
  cases hfirst : t.first (fun c => c.parent = some p && c.state = .zombie) with
  | some i =>
    have htest := first_some hfirst
    simp only [Bool.and_eq_true, decide_eq_true_eq] at htest
    exact Or.inl ⟨i, htest.2, htest.1, rfl⟩
  | none =>
    dsimp only
    split_ifs
    · exact Or.inr (Or.inl rfl)
    · refine Or.inr (Or.inr ⟨fun i hi hz => ?_, rfl⟩)
      have := first_none hfirst i
      simp [hi, hz] at this

/-- A `fork` that gives its slot back. -/
theorem abandon_family {np : Slot} {k : Pc} (hpc : t.pc p = k) (hk : k.making = some (np, false)) :
    Kinship.Step t.initproc (t.family h)
      (((t.setProc np (fun c => { c with state := .unused })).setPc p .user).family h) := by
  have hm : (t.family h).making p = some (np, false) := by
    rw [← hk, ← hpc]
    rfl
  rw [family_setPc, setProc_same rfl rfl]
  exact .abandon p np hm

theorem exit_family (hexit : exit t p = some t') (hp : (t.family h).kind p = .live)
    (hpc : t.pc p = .user) : Kinship.Step t.initproc (t.family h)
      (t'.family { h with exited := (p, (t.proc p).pid) :: h.exited }) := by
  obtain ⟨hroot, u, hw, -, -, rfl⟩ := exit_cases hexit
  have hm : (t.family h).making p = none := by
    simp only [PTable.family, hpc, Pc.making]
  have hfam : PTable.family { u with proc := fun i => { u.proc i with
        parent := if (t.proc i).parent = some p then some t.initproc else (t.proc i).parent
        state := if i = p then .zombie else (u.proc i).state } }
      { h with exited := (p, (t.proc p).pid) :: h.exited } = { t.family h with
      kind := Function.update (t.family h).kind p .zombie
      parent := fun i => if (t.family h).parent i = some p then some t.initproc
        else (t.family h).parent i
      exited := (p, (t.family h).pid p) :: (t.family h).exited } := by
    simp only [PTable.family, Family.mk.injEq, and_true]
    refine ⟨funext fun i => ?_, funext fun i => (hw.kin.1 i).2.1, rfl, by rw [hw.pc]⟩
    rw [Function.update_apply]
    split_ifs
    · rfl
    · exact (hw.kin.1 i).1
  rw [hfam]
  exact .exit p hp hm hroot

theorem wait_family (hp : (t.family h).kind p = .live) (hm : (t.pc p).making = none) :
    (wait t p).2.family (record t (.wait p) h) = t.family h ∨
      Kinship.Step t.initproc (t.family h) ((wait t p).2.family (record t (.wait p) h)) := by
  rcases wait_cases (t := t) (p := p) with ⟨i, hz, hi, hwait⟩ | hwait | ⟨-, hwait⟩
  · have hkind : (t.family h).kind i = .zombie := by
      simp only [PTable.family, hz, ProcState.kind]
    have hfam : ((t.setProc i (fun c =>
          { c with pid := 0, parent := none, killed := false, state := .unused })).setPc p .user).family
        { h with reported := ((t.proc p).pid, (t.proc i).pid) :: h.reported } = { t.family h with
        kind := Function.update (t.family h).kind i .free
        pid := Function.update (t.family h).pid i 0
        parent := Function.update (t.family h).parent i none
        reported := ((t.family h).pid p, (t.family h).pid i) :: (t.family h).reported } := by
      rw [family_setPc, family_setProc]
      simp only [Family.mk.injEq]
      exact ⟨rfl, rfl, rfl, Function.update_eq_self_iff.mpr hm.symm, rfl, rfl, rfl, rfl⟩
    refine Or.inr ?_
    simp only [record, hwait]
    rw [hfam]
    exact .reap p i 0 hp hkind hi
  · refine Or.inl ?_
    simp only [record, hwait]
    have hsame : SameKin t (t.setPc p .user) := SameKin.setPc hm.symm
    exact hsame.family
  · refine Or.inl ?_
    simp only [record, hwait]
    have hsame : SameKin t (t.setProc p (fun c =>
        { c with chan := some (.proc p), state := .sleeping })) := SameKin.setProc hp.symm rfl rfl
    have hpc : SameKin (t.setProc p (fun c => { c with chan := some (.proc p), state := .sleeping }))
        ((t.setProc p (fun c =>
          { c with chan := some (.proc p), state := .sleeping })).setPc p .waiting) :=
      SameKin.setPc hm.symm
    exact (hsame.trans hpc).family

theorem next_family {e : Event} (hfresh : t.nextpid ∉ h.used) (hstep : next t e = some t') :
    t'.family (record t e h) = t.family h ∨
      Kinship.Step t.initproc (t.family h) (t'.family (record t e h)) := by
  cases e with
  | allocproc p =>
    simp only [next] at hstep
    split_ifs at hstep with ha
    obtain ⟨hp, hpc⟩ := at_live (h := h) ha
    cases halloc : allocproc t with
    | none =>
      simp only [halloc, Option.some.injEq] at hstep
      subst hstep
      simp [record, halloc]
    | some r =>
      obtain ⟨np, t₁⟩ := r
      obtain ⟨hnp, rfl⟩ := allocproc_some halloc
      simp only [halloc, Option.some.injEq] at hstep
      subst hstep
      refine Or.inr ?_
      simp only [record, halloc, Option.isSome_some, if_true]
      have hm : (t.family h).making p = none := by
        simp only [PTable.family, hpc, Pc.making]
      have hkind : (t.family h).kind np = .free := by
        simp only [PTable.family, hnp, ProcState.kind]
      have hfam : PTable.family (PTable.setPc { t.setProc np (fun c =>
            { c with state := .embryo, pid := t.nextpid }) with nextpid := t.nextpid + 1 } p
            (.forkAlloced np)) { h with forks := h.forks + 1, used := t.nextpid :: h.used } =
          { t.family h with
            kind := Function.update (t.family h).kind np .embryo
            pid := Function.update (t.family h).pid np t.nextpid
            making := Function.update (t.family h).making p (some (np, false))
            used := t.nextpid :: (t.family h).used } := by
        rw [family_setPc]
        rw [family_nextpid, family_setProc]
        simp only [Family.mk.injEq]
        exact ⟨rfl, rfl, Function.update_eq_self .., rfl, rfl, rfl, rfl, rfl⟩
      rw [hfam]
      exact .alloc p np t.nextpid hp hm hkind hfresh
  | kstackFails p =>
    simp only [next] at hstep
    split at hstep <;> try contradiction
    rename_i np hpc
    split_ifs at hstep
    obtain rfl := Option.some.inj hstep
    exact Or.inr (abandon_family hpc rfl)
  | copyuvmFails p =>
    simp only [next] at hstep
    split at hstep <;> try contradiction
    rename_i np hpc
    split_ifs at hstep
    obtain rfl := Option.some.inj hstep
    exact Or.inr (abandon_family hpc rfl)
  | kstackDone p =>
    simp only [next] at hstep
    split at hstep <;> try contradiction
    rename_i np hpc
    split_ifs at hstep
    obtain rfl := Option.some.inj hstep
    exact Or.inl (SameKin.setPc (by rw [hpc]; rfl)).family
  | copyuvmDone p =>
    simp only [next] at hstep
    split at hstep <;> try contradiction
    rename_i np hpc
    split_ifs at hstep
    obtain rfl := Option.some.inj hstep
    have hm : (t.family h).making p = some (np, false) := by
      simp only [PTable.family, hpc, Pc.making]
    have hfam : ((t.setProc np (fun c => { c with parent := some p })).setPc p
        (.forkFilled np)).family h = { t.family h with
        parent := Function.update (t.family h).parent np (some p)
        making := Function.update (t.family h).making p (some (np, true)) } := by
      rw [family_setPc, family_setProc]
      simp only [Family.mk.injEq, and_true, true_and]
      exact ⟨Function.update_eq_self .., Function.update_eq_self .., rfl⟩
    exact Or.inr (hfam ▸ .adopt p np hm)
  | forkDone p =>
    simp only [next] at hstep
    split at hstep <;> try contradiction
    rename_i np hpc
    split_ifs at hstep
    obtain rfl := Option.some.inj hstep
    have hm : (t.family h).making p = some (np, true) := by
      simp only [PTable.family, hpc, Pc.making]
    simp only [record, hpc]
    rw [family_setPc, setProc_same rfl rfl]
    exact Or.inr (.start p np hm)
  | exit p =>
    simp only [next] at hstep
    split_ifs at hstep with ha
    obtain ⟨hp, hpc⟩ := at_live (h := h) ha
    exact Or.inr (exit_family hstep hp hpc)
  | wait p =>
    simp only [next] at hstep
    split_ifs at hstep with ha
    obtain rfl := Option.some.inj hstep
    rcases Bool.or_eq_true_iff.mp ha with ha | ha
    · obtain ⟨hp, hpc⟩ := at_live (h := h) ha
      exact wait_family hp (by rw [hpc]; rfl)
    · obtain ⟨hp, hpc⟩ := at_live (h := h) ha
      exact wait_family hp (by rw [hpc]; rfl)
  | kill p pid =>
    simp only [next] at hstep
    split_ifs at hstep
    obtain rfl := Option.some.inj hstep
    exact Or.inl (kill_sameKin pid).family
  | schedule p | yield p =>
    simp only [next] at hstep
    split_ifs at hstep with hs
    obtain rfl := Option.some.inj hstep
    exact Or.inl (SameKin.setProc (by rw [hs]; rfl) rfl rfl).family
  | sleep p addr =>
    simp only [next] at hstep
    split_ifs at hstep with ha
    obtain rfl := Option.some.inj hstep
    have hsame : SameKin t (t.setProc p (fun c =>
        { c with state := .sleeping, chan := some (.other addr) })) :=
      SameKin.setProc (at_live (h := h) ha).1.symm rfl rfl
    exact Or.inl hsame.family
  | wakeup addr =>
    obtain rfl := Option.some.inj hstep
    exact Or.inl (wakeup1_sameKin _).family

end Steps

section Invariants
variable {t t' : PTable} {h : History}

/-- The ids given out are 1 to `forks + 1`. -/
structure Pids (t : PTable) (h : History) : Prop where
  nextpid : t.nextpid = BitVec.ofNat 32 (h.forks + 2)
  used : ∀ c ∈ h.used, 0 < c.toNat ∧ c.toNat ≤ h.forks + 1

theorem Pids.fresh (hp : Pids t h) (hlt : h.forks + 2 < 2 ^ 32) : t.nextpid ∉ h.used := by
  intro hmem
  have hle := (hp.used _ hmem).2
  rw [hp.nextpid, BitVec.toNat_ofNat, Nat.mod_eq_of_lt hlt] at hle
  omega

/-- A process SLEEPING in `wait`. -/
def PTable.WaitsAsleep (t : PTable) (p : Slot) : Prop :=
  (t.proc p).state = .sleeping ∧ t.pc p = .waiting

structure Sleepers (t : PTable) : Prop where
  chan : ∀ p, t.WaitsAsleep p → (t.proc p).chan = some (.proc p)
  zombie : ∀ p i, t.WaitsAsleep p → (t.proc i).parent = some p → (t.proc i).state ≠ .zombie

/-- No process falls asleep in `wait`, and no zombie child appears. -/
theorem Sleepers.mono (hs : Sleepers t)
    (hasleep : ∀ p, t'.WaitsAsleep p → t.WaitsAsleep p ∧ (t'.proc p).chan = (t.proc p).chan)
    (hzombie : ∀ p i, (t'.proc i).parent = some p → (t'.proc i).state = .zombie →
      (t.proc i).parent = some p ∧ (t.proc i).state = .zombie) : Sleepers t' where
  chan p hp := by
    obtain ⟨hold, hc⟩ := hasleep p hp
    rw [hc]
    exact hs.chan p hold
  zombie p i hp hi hz := by
    obtain ⟨hi', hz'⟩ := hzombie p i hi hz
    exact hs.zombie p i (hasleep p hp).1 hi' hz'

/-- A step on the slot `p`. -/
theorem Sleepers.setProc (hs : Sleepers t) {p : Slot} {f : Proc → Proc}
    (hstate : (f (t.proc p)).state ≠ .sleeping ∨ t.pc p ≠ .waiting)
    (hzombie : (f (t.proc p)).state ≠ .zombie ∨ (t.proc p).state = .zombie ∧
      (f (t.proc p)).parent = (t.proc p).parent) : Sleepers (t.setProc p f) := by
  refine hs.mono (fun q ⟨hq, hpc⟩ => ?_) fun q i hi hz => ?_
  · rw [setProc_proc] at hq ⊢
    split_ifs at hq ⊢ with hqp
    · subst hqp
      rcases hstate with hne | hne
      · exact absurd hq hne
      · exact absurd hpc hne
    · exact ⟨⟨hq, hpc⟩, rfl⟩
  · rw [setProc_proc] at hi hz
    split_ifs at hi hz with hip
    · subst hip
      rcases hzombie with hne | ⟨hz', hp⟩
      · exact absurd hz hne
      · exact ⟨hp ▸ hi, hz'⟩
    · exact ⟨hi, hz⟩

theorem Sleepers.setPc (hs : Sleepers t) {p : Slot} {k : Pc} (hk : k ≠ .waiting) :
    Sleepers (t.setPc p k) := by
  refine hs.mono (fun q ⟨hq, hpc⟩ => ?_) fun q i hi hz => ⟨hi, hz⟩
  simp only [PTable.setPc, Function.update_apply] at hpc
  split_ifs at hpc
  · exact absurd hpc hk
  · exact ⟨⟨hq, hpc⟩, rfl⟩

theorem Woken.asleep (hw : Woken t t') {p : Slot} (hp : t'.WaitsAsleep p) : t.WaitsAsleep p := by
  obtain ⟨hq, hpc⟩ := hp
  rw [hw.pc] at hpc
  rcases hw.state p with h | ⟨-, h⟩
  · exact ⟨h ▸ hq, hpc⟩
  · rw [h] at hq
    cases hq

theorem Woken.zombie (hw : Woken t t') {i : Slot} :
    (t'.proc i).state = .zombie ↔ (t.proc i).state = .zombie := by
  rcases hw.state i with h | ⟨h, h'⟩
  · rw [h]
  · simp [h, h']

theorem Sleepers.woken (hs : Sleepers t) (hw : Woken t t') : Sleepers t' :=
  hs.mono (fun p hp => ⟨hw.asleep hp, hw.chan p⟩)
    fun _ i hi hz => ⟨(hw.kin.1 i).2.2 ▸ hi, hw.zombie.mp hz⟩

/-- Whoever would now sleep with a zombie child has been woken. -/
theorem Sleepers.exit (hs : Sleepers t) {p : Slot} (hself : (t.proc p).parent ≠ some p)
    (hexit : exit t p = some t') : Sleepers t' := by
  obtain ⟨-, u, hw, hparent, hadopt, rfl⟩ := exit_cases hexit
  have hold : ∀ q, PTable.WaitsAsleep { u with proc := fun i => { u.proc i with
      parent := if (t.proc i).parent = some p then some t.initproc else (t.proc i).parent
      state := if i = p then .zombie else (u.proc i).state } } q → u.WaitsAsleep q := by
    rintro q ⟨hq, hpc⟩
    dsimp only at hq hpc
    split_ifs at hq
    exact ⟨hq, hpc⟩
  refine ⟨fun q hq => ?_, fun q i hq hi hz => ?_⟩
  · exact (hs.woken hw).chan q (hold q hq)
  · have hqu := hold q hq
    have hchan := hs.chan q (hw.asleep hqu)
    dsimp only at hi hz
    rcases eq_or_ne i p with rfl | hip
    · rw [if_neg hself] at hi
      exact hparent q hi hqu.1 hchan
    · rw [if_neg hip, hw.zombie] at hz
      split_ifs at hi with hit
      · obtain rfl := Option.some.inj hi
        exact hadopt i hit hz hqu.1 hchan
      · exact hs.zombie q i (hw.asleep hqu) hi hz

theorem Sleepers.wait (hs : Sleepers t) {p : Slot} : Sleepers (wait t p).2 := by
  rcases wait_cases (t := t) (p := p) with ⟨i, hz, hi, hwait⟩ | hwait | ⟨hnone, hwait⟩
  · rw [hwait]
    exact (hs.setProc (Or.inl (by simp)) (Or.inl (by simp))).setPc nofun
  · rw [hwait]
    exact hs.setPc nofun
  · rw [hwait]
    have hset : ∀ q, q ≠ p → PTable.WaitsAsleep ((t.setProc p (fun c =>
        { c with chan := some (.proc p), state := .sleeping })).setPc p .waiting) q →
        t.WaitsAsleep q := by
      rintro q hqp ⟨hq, hpc⟩
      simp only [setPc_proc, setProc_proc, if_neg hqp] at hq
      simp only [PTable.setPc, Function.update_of_ne hqp] at hpc
      exact ⟨hq, hpc⟩
    refine ⟨fun q hq => ?_, fun q i hq hi => ?_⟩
    · simp only [setPc_proc, setProc_proc]
      split_ifs with hqp
      · rw [hqp]
      · exact hs.chan q (hset q hqp hq)
    · simp only [setPc_proc, setProc_proc] at hi ⊢
      split_ifs at hi ⊢ with hip
      · nofun
      · rcases eq_or_ne q p with rfl | hqp
        · exact hnone i hi
        · exact hs.zombie q i (hset q hqp hq) hi

theorem Sleepers.next (hs : Sleepers t) (hW : Wf t.initproc (t.family h)) {e : Event}
    (hstep : next t e = some t') : Sleepers t' := by
  cases e with
  | allocproc p =>
    simp only [ProcTable.next] at hstep
    split_ifs at hstep
    cases halloc : allocproc t with
    | none =>
      simp only [halloc, Option.some.injEq] at hstep
      exact hstep ▸ hs
    | some r =>
      obtain ⟨np, t₁⟩ := r
      obtain ⟨-, rfl⟩ := allocproc_some halloc
      simp only [halloc, Option.some.injEq] at hstep
      subst hstep
      refine Sleepers.setPc ?_ (by simp)
      have hset : Sleepers (t.setProc np (fun c => { c with state := .embryo, pid := t.nextpid })) :=
        hs.setProc (Or.inl (by simp)) (Or.inl (by simp))
      exact ⟨hset.chan, hset.zombie⟩
  | kstackFails p | copyuvmFails p =>
    simp only [ProcTable.next] at hstep
    split at hstep <;> try contradiction
    split_ifs at hstep
    obtain rfl := Option.some.inj hstep
    exact (hs.setProc (Or.inl (by simp)) (Or.inl (by simp))).setPc (by simp)
  | kstackDone p =>
    simp only [ProcTable.next] at hstep
    split at hstep <;> try contradiction
    split_ifs at hstep
    obtain rfl := Option.some.inj hstep
    exact hs.setPc (by simp)
  | copyuvmDone p =>
    simp only [ProcTable.next] at hstep
    split at hstep <;> try contradiction
    split_ifs at hstep
    rename_i np hpc _
    obtain rfl := Option.some.inj hstep
    have hembryo : (t.proc np).state = .embryo := by
      have hkind : (t.proc np).state.kind = .embryo :=
        (hW.making p np false (by simp only [PTable.family, hpc, Pc.making])).2.1
      cases hstate : (t.proc np).state <;> simp_all [ProcState.kind]
    exact (hs.setProc (Or.inl (by simp [hembryo])) (Or.inl (by simp [hembryo]))).setPc (by simp)
  | forkDone p =>
    simp only [ProcTable.next] at hstep
    split at hstep <;> try contradiction
    split_ifs at hstep
    obtain rfl := Option.some.inj hstep
    exact (hs.setProc (Or.inl (by simp)) (Or.inl (by simp))).setPc (by simp)
  | exit p =>
    simp only [ProcTable.next] at hstep
    split_ifs at hstep
    exact hs.exit (hW.irrefl p) hstep
  | wait p =>
    simp only [ProcTable.next] at hstep
    split_ifs at hstep
    obtain rfl := Option.some.inj hstep
    exact hs.wait
  | kill p pid =>
    simp only [ProcTable.next] at hstep
    split_ifs at hstep
    obtain rfl := Option.some.inj hstep
    unfold ProcTable.kill
    split
    · rename_i i _
      dsimp only
      refine hs.setProc (Or.inl ?_) ?_
      · dsimp only
        split_ifs with hi
        · simp
        · exact hi
      · dsimp only
        split_ifs with hi
        · exact Or.inl (by simp)
        · by_cases hz : (t.proc i).state = .zombie
          · exact Or.inr ⟨hz, rfl⟩
          · exact Or.inl hz
    · exact hs
  | schedule p | yield p =>
    simp only [ProcTable.next] at hstep
    split_ifs at hstep
    obtain rfl := Option.some.inj hstep
    exact hs.setProc (Or.inl (by simp)) (Or.inl (by simp))
  | sleep p addr =>
    simp only [ProcTable.next] at hstep
    split_ifs at hstep with ha
    obtain rfl := Option.some.inj hstep
    refine hs.setProc (Or.inr ?_) (Or.inl (by simp))
    rw [(at_live (h := ⟨0, [], [], [], []⟩) ha).2]
    simp
  | wakeup addr =>
    obtain rfl := Option.some.inj hstep
    exact hs.woken (wakeup1_woken _)

/-- Only `allocproc` gives out an id, and nothing changes `initproc`. -/
theorem next_ids {e : Event} (hstep : next t e = some t') : t'.initproc = t.initproc ∧
    ((record t e h).forks = h.forks ∧ (record t e h).used = h.used ∧ t'.nextpid = t.nextpid ∨
      (record t e h).forks = h.forks + 1 ∧ (record t e h).used = t.nextpid :: h.used ∧
        t'.nextpid = t.nextpid + 1) := by
  cases e with
  | allocproc p =>
    simp only [next] at hstep
    split_ifs at hstep
    cases halloc : allocproc t with
    | none =>
      simp only [halloc, Option.some.injEq] at hstep
      subst hstep
      simp [record, halloc]
    | some r =>
      obtain ⟨np, t₁⟩ := r
      obtain ⟨-, rfl⟩ := allocproc_some halloc
      simp only [halloc, Option.some.injEq] at hstep
      subst hstep
      exact ⟨rfl, Or.inr (by simp [record, halloc, PTable.setPc])⟩
  | exit p =>
    simp only [next] at hstep
    split_ifs at hstep
    obtain ⟨-, u, hw, -, -, rfl⟩ := exit_cases hstep
    exact ⟨hw.initproc, Or.inl ⟨rfl, rfl, hw.nextpid⟩⟩
  | wait p =>
    simp only [next] at hstep
    split_ifs at hstep
    obtain rfl := Option.some.inj hstep
    rcases wait_cases (t := t) (p := p) with ⟨i, -, -, hwait⟩ | hwait | ⟨-, hwait⟩
    · simp only [record, hwait]
      exact ⟨rfl, Or.inl ⟨trivial, trivial, rfl⟩⟩
    · simp only [record, hwait]
      exact ⟨rfl, Or.inl ⟨trivial, trivial, rfl⟩⟩
    · simp only [record, hwait]
      exact ⟨rfl, Or.inl ⟨trivial, trivial, rfl⟩⟩
  | kill p pid =>
    simp only [next] at hstep
    split_ifs at hstep
    obtain rfl := Option.some.inj hstep
    unfold kill
    split <;> exact ⟨rfl, Or.inl ⟨rfl, rfl, rfl⟩⟩
  | forkDone p =>
    simp only [next] at hstep
    split at hstep <;> try contradiction
    rename_i np hpc
    split_ifs at hstep
    obtain rfl := Option.some.inj hstep
    simp only [record, hpc]
    exact ⟨rfl, Or.inl ⟨trivial, trivial, rfl⟩⟩
  | kstackFails p | kstackDone p | copyuvmFails p | copyuvmDone p =>
    simp only [next] at hstep
    split at hstep <;> try contradiction
    split_ifs at hstep
    obtain rfl := Option.some.inj hstep
    exact ⟨rfl, Or.inl ⟨rfl, rfl, rfl⟩⟩
  | schedule p | yield p | sleep p addr =>
    simp only [next] at hstep
    split_ifs at hstep
    obtain rfl := Option.some.inj hstep
    exact ⟨rfl, Or.inl ⟨rfl, rfl, rfl⟩⟩
  | wakeup addr =>
    obtain rfl := Option.some.inj hstep
    exact ⟨rfl, Or.inl ⟨rfl, rfl, rfl⟩⟩

structure ExitInv (t : PTable) (h : History) : Prop where
  pids : Pids t h
  family : Wf t.initproc (t.family h)
  sleepers : Sleepers t

theorem ExitInv.next (hi : ExitInv t h) {e : Event} (hlt : h.forks + 2 < 2 ^ 32)
    (hstep : next t e = some t') : ExitInv t' (record t e h) := by
  have hfresh := hi.pids.fresh hlt
  obtain ⟨hinit, hids⟩ := next_ids (h := h) hstep
  refine ⟨?_, ?_, hi.sleepers.next hi.family hstep⟩
  · rcases hids with ⟨hforks, hused, hpid⟩ | ⟨hforks, hused, hpid⟩
    · exact ⟨by rw [hpid, hforks, hi.pids.nextpid], by rw [hused, hforks]; exact hi.pids.used⟩
    · refine ⟨?_, fun c hc => ?_⟩
      · rw [hpid, hforks, hi.pids.nextpid, show h.forks + 1 + 2 = h.forks + 2 + 1 by omega,
          BitVec.ofNat_add (h.forks + 2)]
        rfl
      · rw [hforks]
        rw [hused] at hc
        rcases List.mem_cons.mp hc with rfl | hc
        · rw [hi.pids.nextpid, BitVec.toNat_ofNat, Nat.mod_eq_of_lt hlt]
          omega
        · have := hi.pids.used c hc
          omega
  · rw [hinit]
    rcases next_family hfresh hstep with hsame | hfam
    · rw [hsame]
      exact hi.family
    · exact hi.family.step hfam

theorem boot_exitInv : ExitInv boot ⟨0, [1], [], [], []⟩ := by
  have hkind : ∀ i : Slot, (boot.proc i).state.kind = if i = 0 then .live else .free := by
    intro i
    simp only [boot]
    split_ifs <;> rfl
  have hparent : ∀ i : Slot, (boot.proc i).parent = none := by
    intro i
    simp only [boot]
    split_ifs <;> rfl
  have hzero : ∀ i : Slot, (boot.proc i).state.kind ≠ .free → i = 0 := by
    intro i hi
    by_contra hne
    rw [hkind, if_neg hne] at hi
    exact hi rfl
  have hlive : ∀ (i : Slot) (k : Kind), (boot.proc i).state.kind = k → k = .live ∨ k = .free := by
    rintro i k rfl
    rw [hkind]
    split_ifs
    · exact Or.inl rfl
    · exact Or.inr rfl
  refine ⟨⟨rfl, by simp⟩, ?_, ⟨?_, ?_⟩⟩
  · constructor <;> try dsimp only [PTable.family]
    case used =>
      intro i hi
      rw [hzero i hi]
      simp [boot]
    case distinct => exact fun i j hi hj _ => (hzero i hi).trans (hzero j hj).symm
    case orphan => exact fun i _ => hparent i
    case irrefl => exact fun i hi => by rw [hparent] at hi; cases hi
    case making => exact fun p i b hm => by cases hm
    case maker => exact fun p q i b c hm => by cases hm
    case embryo => exact fun i hi => by rcases hlive i _ hi with h | h <;> cases h
    case first => exact ⟨rfl, rfl⟩
    case child =>
      intro i hi hne
      refine absurd (hzero i fun hf => ?_) hne
      rcases hi with hi | hi <;> rw [hf] at hi <;> cases hi
    case exits_used => simp
    case running => simp
    case zombie => exact fun i hi => by rcases hlive i _ hi with h | h <;> cases h
    case unreported => exact fun i c hc => by cases hc
    case reports_exits => simp
    case reports_nodup => exact List.nodup_nil
  · rintro p ⟨-, hpc⟩
    cases hpc
  · rintro p i ⟨-, hpc⟩
    cases hpc

end Invariants

/-- What holds of the table and of what has happened, between two critical sections. -/
structure ExitWait (t : PTable) (h : History) : Prop where
  pid_pos : ∀ i, (t.proc i).state ≠ .unused → 0 < (t.proc i).pid.toInt
  pid_unique : ∀ i j, (t.proc i).state ≠ .unused → (t.proc j).state ≠ .unused →
    (t.proc i).pid = (t.proc j).pid → i = j
  parent : ∀ i, (t.proc i).state ≠ .unused → (t.proc i).state ≠ .embryo → i ≠ t.initproc →
    ∃ p, (t.proc i).parent = some p ∧ (t.proc p).state ≠ .unused ∧ (t.proc p).state ≠ .zombie
  noLostZombie : ∀ p i, t.WaitsAsleep p → (t.proc i).parent = some p → (t.proc i).state ≠ .zombie
  staysZombie : ∀ i c, (i, c) ∈ h.exited → c ∉ h.reported.map Prod.snd →
    (t.proc i).state = .zombie ∧ (t.proc i).pid = c
  reportsExits : ∀ c ∈ h.reported.map Prod.snd, c ∈ h.exited.map Prod.snd
  reportedOnce : (h.reported.map Prod.snd).Nodup
  byParent : ∀ p c, (wait t p).1 = .reaped c → ∃ i d, (i, c) ∈ h.exited ∧
    (t.proc i).parent = some p ∧ (c, d) ∈ h.forked ∧
      (d ∉ h.exited.map Prod.snd ∧ (t.proc p).pid = d ∨
        d ∈ h.exited.map Prod.snd ∧ p = t.initproc)

theorem ProcState.kind_free {x : ProcState} : x.kind = .free ↔ x = .unused := by
  cases x <;> simp [ProcState.kind]

theorem ProcState.kind_zombie {x : ProcState} : x.kind = .zombie ↔ x = .zombie := by
  cases x <;> simp [ProcState.kind]

theorem ExitInv.exitWait {t : PTable} {h : History} (hi : ExitInv t h)
    (hlt : h.forks < 2 ^ 31 - 1) : ExitWait t h := by
  have hfree : ∀ i, (t.proc i).state ≠ .unused → (t.family h).kind i ≠ .free :=
    fun i hs hf => hs (ProcState.kind_free.mp hf)
  refine ⟨fun i hs => ?_, fun i j hi' hj hij => ?_, fun i hs he hne => ?_, hi.sleepers.zombie,
    fun i c hc hr => ?_, hi.family.reports_exits, hi.family.reports_nodup, fun p c hc => ?_⟩
  · obtain ⟨hpos, hle⟩ : 0 < (t.proc i).pid.toNat ∧ (t.proc i).pid.toNat ≤ h.forks + 1 :=
      hi.pids.used _ (hi.family.used i (hfree i hs))
    rw [BitVec.toInt_eq_toNat_of_lt (by omega)]
    omega
  · exact hi.family.distinct i j (hfree i hi') (hfree j hj) hij
  · have hkind : (t.family h).kind i = .live ∨ (t.family h).kind i = .zombie := by
      simp only [PTable.family]
      cases hstate : (t.proc i).state <;> simp_all [ProcState.kind]
    obtain ⟨p, -, hp, hlive, -⟩ := hi.family.child i hkind hne
    have hlive' : (t.proc p).state.kind = .live := hlive
    refine ⟨p, hp, fun hu => ?_, fun hz => ?_⟩
    · rw [hu] at hlive'
      cases hlive'
    · rw [hz] at hlive'
      cases hlive'
  · obtain ⟨hz, hpid⟩ := hi.family.unreported i c hc hr
    exact ⟨ProcState.kind_zombie.mp hz, hpid⟩
  · rcases wait_cases (t := t) (p := p) with ⟨i, hz, hparent, hwait⟩ | hwait | ⟨-, hwait⟩
    · rw [hwait] at hc
      obtain rfl : (t.proc i).pid = c := WaitResult.reaped.inj hc
      have hkind : (t.family h).kind i = .zombie := ProcState.kind_zombie.mpr hz
      have hne : i ≠ t.initproc := by
        rintro rfl
        have := hi.family.first.1
        rw [hkind] at this
        cases this
      obtain ⟨q, d, hq, -, hmem, hor⟩ := hi.family.child i (Or.inr hkind) hne
      obtain rfl : q = p := Option.some.inj (hq.symm.trans hparent)
      exact ⟨i, d, (hi.family.zombie i hkind).1, hparent, hmem, hor.symm⟩
    · rw [hwait] at hc
      cases hc
    · rw [hwait] at hc
      cases hc

theorem exit_wait_protocol {t : PTable} {h : History} (hr : historySystem.Reachable (t, h))
    (hforks : h.forks < 2 ^ 31 - 1) : ExitWait t h := by
  have hinv : (t, h).2.forks < 2 ^ 31 - 1 → ExitInv (t, h).1 (t, h).2 := by
    refine hr.invariant (I := fun p => p.2.forks < 2 ^ 31 - 1 → ExitInv p.1 p.2)
      (fun p hp _ => ?_) fun p e p' hp hst hlt => ?_
    · obtain ⟨hboot, hh⟩ := hp
      rw [hh, show p.1 = boot from hboot]
      exact boot_exitInv
    · obtain ⟨-, hids⟩ := next_ids (h := p.2) hst.1
      rw [hst.2] at hlt ⊢
      have hle : p.2.forks < 2 ^ 31 - 1 := by
        rcases hids with h | h <;> omega
      exact (hp hle).next (by omega) hst.1
  exact (hinv hforks).exitWait hforks

/-- Init forks process 2 into slot 1, it exits, and init's `wait` returns. -/
theorem exit_wait_protocol_reaped : ∃ (t : PTable) (h : History), h.exited = [(1, 2)] ∧
    h.reported = [(1, 2)] ∧ (t.proc 1).state = .unused ∧ ExitWait t h := by
  obtain ⟨⟨t, h⟩, hr, hexited, hreported, hfree, hforks⟩ :
      ∃ p, historySystem.Reachable p ∧ _ := observe_reachable_of_runNext boot
    [.schedule 0, .allocproc 0, .kstackDone 0, .copyuvmDone 0, .forkDone 0, .wait 0, .schedule 1,
      .exit 1, .schedule 0, .wait 0]
    (fun p => p.2.exited = [(1, 2)] ∧ p.2.reported = [(1, 2)] ∧ (p.1.proc 1).state = .unused ∧
      p.2.forks = 1) rfl (by decide +kernel)
  exact ⟨t, h, hexited, hreported, hfree, exit_wait_protocol hr (hforks.trans_lt (by decide))⟩

end Ostep.ProcTable

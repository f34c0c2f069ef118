import Ostep.ProcTable

/-!
# Which slots kill can hit

`kill` compares the pid field of every slot, and the field of an UNUSED slot is 0 or the pid
of a fork that failed. A hit on such a slot leaves `killed` set in a free slot, and so does a
failing fork whose EMBRYO was killed; the next process in that slot is born killed. These are
the only two ways: a run in which neither happens is exactly a run in which every free slot
has `killed` clear and every successful `kill` found a live process.
-/

namespace Ostep.ProcTable
open TransitionSystem

@[simp] theorem setProc_proc (t : PTable) (p i : Slot) (f : Proc → Proc) :
    (t.setProc p f).proc i = if i = p then f (t.proc p) else t.proc i := by
  simp [PTable.setProc, Function.update_apply]

@[simp] theorem setPc_proc (t : PTable) (p : Slot) (k : Pc) : (t.setPc p k).proc = t.proc := rfl

theorem first_some {t : PTable} {test : Proc → Bool} {i : Slot} (h : t.first test = some i) :
    test (t.proc i) = true := by
  simpa using List.find?_some h

theorem first_none {t : PTable} {test : Proc → Bool} (h : t.first test = none) (i : Slot) :
    test (t.proc i) = false := by
  simpa using List.find?_eq_none.mp h i (List.mem_finRange i)

theorem allocproc_some {t t' : PTable} {np : Slot} (h : allocproc t = some (np, t')) :
    (t.proc np).state = .unused ∧
      t' = { t.setProc np (fun p => { p with state := .embryo, pid := t.nextpid }) with
        nextpid := t.nextpid + 1 } := by
  obtain ⟨i, hi, heq⟩ := Option.map_eq_some_iff.mp h
  obtain ⟨rfl, rfl⟩ := Prod.mk.inj heq
  exact ⟨by simpa using first_some hi, rfl⟩

/-- A free slot has `killed` clear. -/
def UnusedNotKilled (t : PTable) : Prop :=
  ∀ i, (t.proc i).state = .unused → (t.proc i).killed = false

/-- A process created by this event starts with `killed` clear. -/
def StartsUnkilled (t : PTable) : Event → Prop
  | .allocproc _ => ∀ np t', allocproc t = some (np, t') → (t'.proc np).killed = false
  | _ => True

/-- A `kill` that returns 0 had a live process to kill. -/
def KillFindsLive (t : PTable) : Event → Prop
  | .kill _ pid =>
    (kill t pid).1 = 0 → ∃ i, (t.proc i).state ≠ .unused ∧ (t.proc i).pid = pid
  | _ => True

def StepGood (t : PTable) (e : Event) (t' : PTable) : Prop :=
  UnusedNotKilled t' ∧ StartsUnkilled t e ∧ KillFindsLive t e

/-- The first slot with the pid passed to `kill` is not UNUSED, and a fork that fails has not
had its EMBRYO killed. -/
def KillHitsLive (t : PTable) (e : Event) (_ : PTable) : Prop :=
  match e with
  | .kill _ pid => ∀ i, t.first (fun p => p.pid = pid) = some i → (t.proc i).state ≠ .unused
  | .kstackFails p => ∀ np, t.pc p = .forkAlloced np → (t.proc np).killed = false
  | .copyuvmFails p => ∀ np, t.pc p = .forkStacked np → (t.proc np).killed = false
  | _ => True

theorem setProc_unusedNotKilled {t : PTable} {p : Slot} {f : Proc → Proc}
    (h : UnusedNotKilled t)
    (hf : (f (t.proc p)).state = .unused → (f (t.proc p)).killed = false) :
    UnusedNotKilled (t.setProc p f) := by
  intro i
  rw [setProc_proc]
  split_ifs
  · exact hf
  · exact h i

@[simp] theorem setPc_unusedNotKilled (t : PTable) (p : Slot) (k : Pc) :
    UnusedNotKilled (t.setPc p k) ↔ UnusedNotKilled t := Iff.rfl

theorem wakeup1_unusedNotKilled {t : PTable} (h : UnusedNotKilled t) (chan : Chan) :
    UnusedNotKilled (wakeup1 t chan) := by
  intro i hi
  simp only [wakeup1] at hi ⊢
  split_ifs at hi ⊢
  exact h i hi

theorem wakeParent_unusedNotKilled {t : PTable} (h : UnusedNotKilled t) (p : Slot) :
    UnusedNotKilled (wakeParent t p) := by
  unfold wakeParent
  split
  · exact wakeup1_unusedNotKilled h _
  · exact h

theorem passChildren_unusedNotKilled {t : PTable} (h : UnusedNotKilled t) (p : Slot) :
    UnusedNotKilled (passChildren t p) := by
  have hadopted : UnusedNotKilled { t with
      proc := fun i =>
        if (t.proc i).parent = some p then { t.proc i with parent := some t.initproc }
        else t.proc i } := by
    intro i hi
    dsimp only at hi ⊢
    split_ifs at hi ⊢ <;> exact h i hi
  unfold passChildren
  dsimp only
  split_ifs
  · exact wakeup1_unusedNotKilled hadopted _
  · exact hadopted

theorem exit_unusedNotKilled {t t' : PTable} {p : Slot} (h : UnusedNotKilled t)
    (hexit : exit t p = some t') : UnusedNotKilled t' := by
  unfold exit at hexit
  split_ifs at hexit with hinit
  obtain rfl := Option.some.inj hexit
  exact setProc_unusedNotKilled
    (passChildren_unusedNotKilled (wakeParent_unusedNotKilled h p) p) (fun hs => nomatch hs)

theorem wait_unusedNotKilled {t : PTable} (p : Slot) (h : UnusedNotKilled t) :
    UnusedNotKilled (wait t p).2 := by
  unfold wait
  split
  · rw [setPc_unusedNotKilled]
    exact setProc_unusedNotKilled h (fun _ => rfl)
  · split_ifs
    · exact h
    · rw [setPc_unusedNotKilled]
      exact setProc_unusedNotKilled h (by simp)

theorem kill_unusedNotKilled {t : PTable} {pid : Pid} (h : UnusedNotKilled t)
    (hlive : ∀ i, t.first (fun p => p.pid = pid) = some i → (t.proc i).state ≠ .unused) :
    UnusedNotKilled (kill t pid).2 := by
  cases hi : t.first (fun p => p.pid = pid) with
  | none => simpa [kill, hi] using h
  | some i =>
    simp only [kill, hi]
    refine setProc_unusedNotKilled h (fun hs => absurd hs ?_)
    have hi' := hlive i hi
    dsimp only
    split_ifs
    · simp
    · exact hi'

theorem kill_found_of_hitsLive {t : PTable} {pid : Pid}
    (hlive : ∀ i, t.first (fun p => p.pid = pid) = some i → (t.proc i).state ≠ .unused)
    (h0 : (kill t pid).1 = 0) : ∃ i, (t.proc i).state ≠ .unused ∧ (t.proc i).pid = pid := by
  unfold kill at h0
  split at h0
  · rename_i i hi
    exact ⟨i, hlive i hi, by simpa using first_some hi⟩
  · simp at h0

/-- In a table whose free slots are clean, a step is good exactly when it hits no free slot. -/
theorem stepGood_iff {t t' : PTable} {e : Event} (h : UnusedNotKilled t)
    (hstep : next t e = some t') : StepGood t e t' ↔ KillHitsLive t e t' := by
  cases e with
  | allocproc p =>
    have hstart : StartsUnkilled t (.allocproc p) := by
      intro np t₁ h₁
      obtain ⟨hfree, rfl⟩ := allocproc_some h₁
      simpa using h np hfree
    have hgood : UnusedNotKilled t' := by
      simp only [next] at hstep
      split_ifs at hstep
      cases halloc : allocproc t with
      | none =>
        simp only [halloc, Option.some.injEq] at hstep
        exact hstep ▸ h
      | some r =>
        obtain ⟨np, t₁⟩ := r
        simp only [halloc, Option.some.injEq] at hstep
        obtain ⟨-, rfl⟩ := allocproc_some halloc
        subst hstep
        change UnusedNotKilled
          (t.setProc np (fun p => { p with state := .embryo, pid := t.nextpid }))
        exact setProc_unusedNotKilled h (by simp)
    simp [StepGood, KillHitsLive, hstart, hgood, KillFindsLive]
  | kstackFails p =>
    simp only [next] at hstep
    split at hstep <;> try contradiction
    rename_i np hpc
    split_ifs at hstep
    obtain rfl := Option.some.inj hstep
    simp only [StepGood, KillHitsLive, StartsUnkilled, KillFindsLive, and_true]
    constructor
    · intro hgood np' hnp'
      obtain rfl : np = np' := by simpa [hpc] using hnp'
      simpa using hgood np (by simp)
    · intro hclean
      rw [setPc_unusedNotKilled]
      exact setProc_unusedNotKilled h (fun _ => hclean np hpc)
  | copyuvmFails p =>
    simp only [next] at hstep
    split at hstep <;> try contradiction
    rename_i np hpc
    split_ifs at hstep
    obtain rfl := Option.some.inj hstep
    simp only [StepGood, KillHitsLive, StartsUnkilled, KillFindsLive, and_true]
    constructor
    · intro hgood np' hnp'
      obtain rfl : np = np' := by simpa [hpc] using hnp'
      simpa using hgood np (by simp)
    · intro hclean
      rw [setPc_unusedNotKilled]
      exact setProc_unusedNotKilled h (fun _ => hclean np hpc)
  | kill p pid =>
    simp only [next] at hstep
    split_ifs at hstep
    obtain rfl := Option.some.inj hstep
    simp only [StepGood, KillHitsLive, StartsUnkilled, KillFindsLive, true_and]
    constructor
    · rintro ⟨hgood, -⟩ i hi hfree
      have := hgood i
      simp [kill, hi, hfree] at this
    · intro hlive
      exact ⟨kill_unusedNotKilled h hlive, kill_found_of_hitsLive hlive⟩
  | exit p =>
    simp only [next] at hstep
    split_ifs at hstep
    simp [StepGood, KillHitsLive, StartsUnkilled, KillFindsLive, exit_unusedNotKilled h hstep]
  | wait p =>
    simp only [next] at hstep
    split_ifs at hstep
    obtain rfl := Option.some.inj hstep
    simp [StepGood, KillHitsLive, StartsUnkilled, KillFindsLive, wait_unusedNotKilled p h]
  | wakeup addr =>
    obtain rfl := Option.some.inj hstep
    simp [StepGood, KillHitsLive, StartsUnkilled, KillFindsLive, wakeup1_unusedNotKilled h]
  | kstackDone p =>
    simp only [next] at hstep
    split at hstep <;> try contradiction
    split_ifs at hstep
    obtain rfl := Option.some.inj hstep
    simp [StepGood, KillHitsLive, StartsUnkilled, KillFindsLive, h]
  | copyuvmDone p =>
    simp only [next] at hstep
    split at hstep <;> try contradiction
    rename_i np hpc
    split_ifs at hstep
    obtain rfl := Option.some.inj hstep
    simp only [StepGood, KillHitsLive, StartsUnkilled, KillFindsLive, and_true, iff_true,
      setPc_unusedNotKilled]
    exact setProc_unusedNotKilled h (h np)
  | forkDone p =>
    simp only [next] at hstep
    split at hstep <;> try contradiction
    rename_i np hpc
    split_ifs at hstep
    obtain rfl := Option.some.inj hstep
    simp only [StepGood, KillHitsLive, StartsUnkilled, KillFindsLive, and_true, iff_true,
      setPc_unusedNotKilled]
    exact setProc_unusedNotKilled h (by simp)
  | schedule p | yield p | sleep p addr =>
    simp only [next] at hstep
    split_ifs at hstep
    obtain rfl := Option.some.inj hstep
    simp only [StepGood, KillHitsLive, StartsUnkilled, KillFindsLive, and_true, iff_true]
    exact setProc_unusedNotKilled h (by simp)

theorem boot_unusedNotKilled : UnusedNotKilled boot := by
  intro i _
  simp only [boot]
  split_ifs <;> rfl

/-- A run from boot is good at every step exactly when every step of it hits a live process. -/
theorem kill_only_live_iff (es : List Event) (t : PTable) :
    (system.restrict StepGood).Run boot es t ↔ (system.restrict KillHitsLive).Run boot es t :=
  System.restrict_run_iff boot_unusedNotKilled (fun _ _ _ h hs => stepGood_iff h hs)
    (fun _ _ _ _ _ hgood => hgood.1)

/-- The first process runs and calls `kill(0)`: slot 1 is free and has pid 0, so the call
returns 0, and the next `fork` creates a process that is killed from the start. -/
theorem kill_zero_hits_free_slot :
    ∃ t, system.Run boot [.schedule 0, .kill 0 0] t ∧
      (t.proc 1).state = .unused ∧ (t.proc 1).killed = true ∧
      ((next boot (.schedule 0)).map (fun t₁ => (kill t₁ 0).1) = some 0) ∧
      (∀ i, (t.proc i).pid = 0 → (t.proc i).state = .unused) ∧
      ∃ t', allocproc t = some (1, t') ∧ (t'.proc 1).killed = true := by
  refine ⟨_, run_of_runNext rfl, ?_, ?_, ?_, ?_, _, rfl, ?_⟩ <;> decide

end Ostep.ProcTable

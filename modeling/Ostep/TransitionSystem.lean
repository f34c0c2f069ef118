import Mathlib.Data.List.Basic
import Mathlib.Tactic.Common

/-!
# Labelled transition systems

A system is its initial states and a labelled step relation; a run records its events, oldest
first. Restricting the steps gives the runs all of whose steps meet a condition, so a statement
about conditional runs is a statement about the reachable states of the restricted system.
-/

namespace Ostep.TransitionSystem

variable {σ ε : Type*}

structure System (σ ε : Type*) where
  init : σ → Prop
  step : σ → ε → σ → Prop

namespace System
variable (S : System σ ε)

inductive Run : σ → List ε → σ → Prop where
  | nil (s : σ) : Run s [] s
  | snoc {s t u : σ} {es : List ε} {e : ε} : Run s es t → S.step t e u → Run s (es ++ [e]) u

def Reachable (s : σ) : Prop := ∃ s₀ es, S.init s₀ ∧ S.Run s₀ es s

/-- The steps that meet `C`, a condition on the state before, the event and the state after. -/
def restrict (C : σ → ε → σ → Prop) : System σ ε where
  init := S.init
  step s e t := S.step s e t ∧ C s e t

variable {S}

theorem Run.append {s t u : σ} {es fs : List ε} (h : S.Run s es t) (k : S.Run t fs u) :
    S.Run s (es ++ fs) u := by
  induction k with
  | nil => simpa using h
  | snoc _ hstep ih => simpa only [List.append_assoc] using ih.snoc hstep

theorem Run.single {s t : σ} {e : ε} (h : S.step s e t) : S.Run s [e] t :=
  Run.snoc (.nil s) h

theorem Run.cons {s t u : σ} {e : ε} {es : List ε} (h : S.step s e t) (k : S.Run t es u) :
    S.Run s (e :: es) u :=
  (Run.single h).append k

/-- What holds at the start and is kept by every step holds at the end of the run. -/
theorem Run.invariant {I : σ → Prop} {s t : σ} {es : List ε} (h : S.Run s es t) (h₀ : I s)
    (hstep : ∀ s e t, I s → S.step s e t → I t) : I t := by
  induction h with
  | nil => exact h₀
  | snoc _ hs ih => exact hstep _ _ _ ih hs

theorem Reachable.init {s : σ} (h : S.init s) : S.Reachable s := ⟨s, [], h, .nil s⟩

theorem Reachable.step {s t : σ} {e : ε} (h : S.Reachable s) (hs : S.step s e t) :
    S.Reachable t := by
  obtain ⟨s₀, es, h₀, hrun⟩ := h
  exact ⟨s₀, es ++ [e], h₀, hrun.snoc hs⟩

theorem Reachable.run {s t : σ} {es : List ε} (h : S.Reachable s) (hrun : S.Run s es t) :
    S.Reachable t :=
  hrun.invariant h (fun _ _ _ hs hst => hs.step hst)

theorem Reachable.invariant {I : σ → Prop} {s : σ} (h : S.Reachable s)
    (h₀ : ∀ s, S.init s → I s) (hstep : ∀ s e t, I s → S.step s e t → I t) : I s := by
  obtain ⟨s₀, es, hinit, hrun⟩ := h
  exact hrun.invariant (h₀ s₀ hinit) hstep

/-- An invariant may be proved using any other that is already known of reachable states. -/
theorem Reachable.invariant_of_reachable {I : σ → Prop} {s : σ} (h : S.Reachable s)
    (h₀ : ∀ s, S.init s → I s)
    (hstep : ∀ s e t, S.Reachable s → I s → S.step s e t → I t) : I s := by
  have hboth : S.Reachable s ∧ I s := by
    refine h.invariant (I := fun s => S.Reachable s ∧ I s) (fun s hs => ⟨.init hs, h₀ s hs⟩) ?_
    rintro s e t ⟨hr, hi⟩ hs
    exact ⟨hr.step hs, hstep s e t hr hi hs⟩
  exact hboth.2

theorem Run.of_restrict {C : σ → ε → σ → Prop} {s t : σ} {es : List ε}
    (h : (S.restrict C).Run s es t) : S.Run s es t := by
  induction h with
  | nil => exact .nil _
  | snoc _ hs ih => exact ih.snoc hs.1

theorem Reachable.of_restrict {C : σ → ε → σ → Prop} {s : σ}
    (h : (S.restrict C).Reachable s) : S.Reachable s := by
  obtain ⟨s₀, es, h₀, hrun⟩ := h
  exact ⟨s₀, es, h₀, hrun.of_restrict⟩

theorem Reachable.restrict_mono {C D : σ → ε → σ → Prop} {s : σ}
    (h : (S.restrict C).Reachable s) (hCD : ∀ s e t, C s e t → D s e t) :
    (S.restrict D).Reachable s :=
  h.invariant (fun _ hs => .init hs) fun _ _ _ hs hst => hs.step ⟨hst.1, hCD _ _ _ hst.2⟩

section Observe
variable {η : Type*} (S) (h₀ : η) (record : σ → ε → η → η)

/-- The system together with a history of what its events did. -/
def observe : System (σ × η) ε where
  init p := S.init p.1 ∧ p.2 = h₀
  step p e p' := S.step p.1 e p'.1 ∧ p'.2 = record p.1 e p.2

variable {S}

theorem Run.observe {s t : σ} {es : List ε} (h : S.Run s es t) :
    ∃ η₁, (S.observe h₀ record).Run (s, h₀) es (t, η₁) := by
  induction h with
  | nil => exact ⟨h₀, .nil _⟩
  | snoc _ hs ih =>
    obtain ⟨η₁, hrun⟩ := ih
    exact ⟨_, hrun.snoc ⟨hs, rfl⟩⟩

/-- Keeping a history takes no run away. -/
theorem Reachable.observe {s : σ} (h : S.Reachable s) :
    ∃ η₁, (S.observe h₀ record).Reachable (s, η₁) := by
  obtain ⟨s₀, es, hinit, hrun⟩ := h
  obtain ⟨η₁, hobs⟩ := hrun.observe h₀ record
  exact ⟨η₁, (s₀, h₀), es, ⟨hinit, rfl⟩, hobs⟩

variable {h₀ record}

theorem Reachable.of_observe {p : σ × η} (h : (S.observe h₀ record).Reachable p) :
    S.Reachable p.1 :=
  h.invariant (I := fun p => S.Reachable p.1) (fun _ hp => .init hp.1)
    fun _ _ _ hp hst => hp.step hst.1

end Observe

/-- Two step conditions that agree in the states an invariant allows restrict to the same
runs, when the steps of one of them keep the invariant. -/
theorem restrict_run_iff {C D : σ → ε → σ → Prop} {I : σ → Prop} {s t : σ} {es : List ε}
    (h₀ : I s) (hiff : ∀ s e t, I s → S.step s e t → (C s e t ↔ D s e t))
    (hkeep : ∀ s e t, I s → S.step s e t → C s e t → I t) :
    (S.restrict C).Run s es t ↔ (S.restrict D).Run s es t := by
  constructor
  · intro h
    have hboth : (S.restrict D).Run s es t ∧ I t := by
      induction h with
      | nil => exact ⟨.nil _, h₀⟩
      | snoc _ hs ih =>
        obtain ⟨hrun, hi⟩ := ih
        exact ⟨hrun.snoc ⟨hs.1, (hiff _ _ _ hi hs.1).mp hs.2⟩, hkeep _ _ _ hi hs.1 hs.2⟩
    exact hboth.1
  · intro h
    have hboth : (S.restrict C).Run s es t ∧ I t := by
      induction h with
      | nil => exact ⟨.nil _, h₀⟩
      | snoc _ hs ih =>
        obtain ⟨hrun, hi⟩ := ih
        have hc := (hiff _ _ _ hi hs.1).mpr hs.2
        exact ⟨hrun.snoc ⟨hs.1, hc⟩, hkeep _ _ _ hi hs.1 hc⟩
    exact hboth.1

end System

/-- The system of a partial next-state function. -/
def System.ofNext (init : σ → Prop) (next : σ → ε → Option σ) : System σ ε where
  init := init
  step s e t := next s e = some t

/-- Running a list of events. -/
def runNext (next : σ → ε → Option σ) : σ → List ε → Option σ
  | s, [] => some s
  | s, e :: es => (next s e).bind (fun t => runNext next t es)

theorem run_of_runNext {init : σ → Prop} {next : σ → ε → Option σ} {s t : σ} {es : List ε}
    (h : runNext next s es = some t) : (System.ofNext init next).Run s es t := by
  induction es generalizing s with
  | nil =>
    obtain rfl : s = t := by simpa [runNext] using h
    exact .nil s
  | cons e es ih =>
    obtain ⟨u, hu, hrest⟩ := Option.bind_eq_some_iff.mp h
    exact .cons hu (ih hrest)

theorem restrict_run_of_runNext {init : σ → Prop} {next : σ → ε → Option σ} {C : σ → ε → Prop}
    [∀ s e, Decidable (C s e)] {s t : σ} {es : List ε}
    (h : runNext (fun s e => if C s e then next s e else none) s es = some t) :
    ((System.ofNext init next).restrict (fun s e _ => C s e)).Run s es t := by
  induction es generalizing s with
  | nil =>
    obtain rfl : s = t := by simpa [runNext] using h
    exact .nil s
  | cons e es ih =>
    obtain ⟨u, hu, hrest⟩ := Option.bind_eq_some_iff.mp h
    obtain ⟨hC, hu⟩ := Option.ite_none_right_eq_some.mp hu
    exact .cons ⟨hu, hC⟩ (ih hrest)

theorem reachable_of_runNext {init : σ → Prop} {next : σ → ε → Option σ} {C : σ → ε → Prop}
    [∀ s e, Decidable (C s e)] {p : σ → Prop} [DecidablePred p] {s : σ} {es : List ε} (h₀ : init s)
    (h : (runNext (fun s e => if C s e then next s e else none) s es).any p = true) :
    ∃ t, ((System.ofNext init next).restrict (fun s e _ => C s e)).Reachable t ∧ p t := by
  obtain ⟨t, ht, hp⟩ := (Option.any_eq_true ..).mp h
  exact ⟨t, ⟨s, es, h₀, restrict_run_of_runNext ht⟩, of_decide_eq_true hp⟩

/-- A partial next-state function of the system with its history. -/
theorem observe_ofNext {η : Type*} (init : σ → Prop) (next : σ → ε → Option σ) (h₀ : η)
    (record : σ → ε → η → η) : (System.ofNext init next).observe h₀ record =
      System.ofNext (fun p => init p.1 ∧ p.2 = h₀)
        (fun p e => (next p.1 e).map (fun t => (t, record p.1 e p.2))) := by
  simp only [System.observe, System.ofNext, System.mk.injEq, true_and]
  funext p e p'
  obtain ⟨t, h⟩ := p'
  simp only [eq_iff_iff, Option.map_eq_some_iff, Prod.mk.injEq]
  constructor
  · rintro ⟨ht, rfl⟩
    exact ⟨t, ht, rfl, rfl⟩
  · rintro ⟨u, hu, rfl, rfl⟩
    exact ⟨hu, rfl⟩

theorem observe_reachable_of_runNext {η : Type*} {init : σ → Prop} {next : σ → ε → Option σ}
    {h₀ : η} {record : σ → ε → η → η} (s : σ) (es : List ε) (p : σ × η → Prop) [DecidablePred p]
    (hs : init s)
    (h : (runNext (fun q e => (next q.1 e).map (fun t => (t, record q.1 e q.2))) (s, h₀) es).any
      (fun q => p q) = true) :
    ∃ q, ((System.ofNext init next).observe h₀ record).Reachable q ∧ p q := by
  obtain ⟨q, hq, hp⟩ := (Option.any_eq_true ..).mp h
  refine ⟨q, ⟨(s, h₀), es, ⟨hs, rfl⟩, ?_⟩, of_decide_eq_true hp⟩
  have hrun : (System.ofNext (fun _ => True) _).Run (s, h₀) es q := run_of_runNext hq
  clear hq hp h
  induction hrun with
  | nil => exact .nil _
  | snoc _ hst ih =>
    obtain ⟨t, ht, rfl⟩ := Option.map_eq_some_iff.mp hst
    exact ih.snoc ⟨ht, rfl⟩

end Ostep.TransitionSystem

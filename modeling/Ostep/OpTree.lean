import Ostep.TransitionSystem
import Mathlib.Logic.Function.Basic

/-!
# Programs as trees of operations

A program either returns or performs one operation on a state that it shares with others and
goes on with the result. `run` performs it alone; `threads` interleaves the programs of several
threads, one operation a step. `wp` is for the first, with a condition `C` on the operations
performed; `Outline` is for the second: what a thread knows (its local state) is kept by what
the others do, because the invariant `J` speaks of the local states of all of them.
-/

namespace Ostep.OpTree
open TransitionSystem

inductive Prog (Op : Type) (Res : Op → Type) (α : Type) where
  | pure (a : α)
  | op (o : Op) (k : Res o → Prog Op Res α)

variable {Op : Type} {Res : Op → Type} {α β σ ε : Type}

namespace Prog

def bind : Prog Op Res α → (α → Prog Op Res β) → Prog Op Res β
  | .pure a, f => f a
  | .op o k, f => .op o (fun r => (k r).bind f)

instance : Monad (Prog Op Res) where
  pure := .pure
  bind := .bind

def call (o : Op) : Prog Op Res (Res o) := .op o .pure

def next : Prog Op Res α → Option Op
  | .pure _ => none
  | .op o _ => some o

end Prog

section Sequential
variable (act : (o : Op) → σ → Except ε (Res o × σ)) (C : Op → σ → Prop) (E : ε → Prop)

def run : Prog Op Res α → σ → Except ε (α × σ)
  | .pure a, s => .ok (a, s)
  | .op o k, s =>
    match act o s with
    | .error e => .error e
    | .ok (r, t) => run (k r) t

/-- Every operation that the run from `s` performs meets `C` in the state it is performed in. -/
def Meets : Prog Op Res α → σ → Prop
  | .pure _, _ => True
  | .op o k, s => C o s ∧ ∀ r t, act o s = .ok (r, t) → Meets (k r) t

def wp : Prog Op Res α → (α → σ → Prop) → σ → Prop
  | .pure a, Q, s => Q a s
  | .op o k, Q, s => C o s →
    match act o s with
    | .error e => E e
    | .ok (r, t) => wp (k r) Q t

variable {act C E}

theorem wp_pure {Q : α → σ → Prop} {a : α} {s : σ} :
    wp act C E (pure a : Prog Op Res α) Q s ↔ Q a s :=
  Iff.rfl

theorem wp_call {o : Op} {Q : Res o → σ → Prop} {s : σ} :
    wp act C E (.call o) Q s ↔ (C o s →
      match act o s with
      | .error e => E e
      | .ok (r, t) => Q r t) :=
  Iff.rfl

theorem wp_bind {p : Prog Op Res α} {f : α → Prog Op Res β} {Q : β → σ → Prop} {s : σ} :
    wp act C E (p >>= f) Q s ↔ wp act C E p (fun a => wp act C E (f a) Q) s := by
  induction p generalizing s with
  | pure a => exact Iff.rfl
  | op o k ih =>
    change (C o s → match act o s with
      | .error e => E e
      | .ok (r, t) => wp act C E (k r >>= f) Q t) ↔ _
    simp only [ih, wp]

theorem wp_call_bind {o : Op} {f : Res o → Prog Op Res β} {Q : β → σ → Prop} {s : σ} :
    wp act C E (.call o >>= f) Q s ↔ (C o s →
      match act o s with
      | .error e => E e
      | .ok (r, t) => wp act C E (f r) Q t) :=
  wp_bind

theorem wp_mono {p : Prog Op Res α} {Q Q' : α → σ → Prop} {s : σ} (h : wp act C E p Q s)
    (hQ : ∀ a t, Q a t → Q' a t) : wp act C E p Q' s := by
  induction p generalizing s with
  | pure a => exact hQ a s h
  | op o k ih =>
    intro hC
    have := h hC
    cases ho : act o s with
    | error e => simpa only [ho] using this
    | ok p =>
      simp only [ho] at this ⊢
      exact ih p.1 this

theorem wp_ite {c : Prop} [Decidable c] {p q : Prog Op Res α} {Q : α → σ → Prop} {s : σ}
    (hp : c → wp act C E p Q s) (hq : ¬ c → wp act C E q Q s) :
    wp act C E (if c then p else q) Q s := by
  split_ifs with h
  · exact hp h
  · exact hq h

/-- What `wp` promises of a run whose operations all meet the condition. -/
theorem wp_run {p : Prog Op Res α} {Q : α → σ → Prop} {s : σ} (h : wp act C E p Q s)
    (hC : Meets act C p s) :
    match run act p s with
    | .error e => E e
    | .ok (a, t) => Q a t := by
  induction p generalizing s with
  | pure a => exact h
  | op o k ih =>
    have := h hC.1
    simp only [run]
    cases ho : act o s with
    | error e => simpa only [ho] using this
    | ok p =>
      simp only [ho] at this ⊢
      exact ih p.1 this (hC.2 p.1 p.2 ho)

theorem wp_run_ok {p : Prog Op Res α} {Q : α → σ → Prop} {s t : σ} {a : α}
    (h : wp act C E p Q s) (hC : Meets act C p s) (hr : run act p s = .ok (a, t)) : Q a t := by
  have := wp_run h hC
  rwa [hr] at this

theorem wp_run_error {p : Prog Op Res α} {Q : α → σ → Prop} {s : σ} {e : ε}
    (h : wp act C E p Q s) (hC : Meets act C p s) (hr : run act p s = .error e) : E e := by
  have := wp_run h hC
  rwa [hr] at this

def fault : Except ε α → Option ε
  | .error e => some e
  | .ok _ => none

theorem fault_eq_some {r : Except ε α} {e : ε} : fault r = some e ↔ r = .error e := by
  cases r <;> simp [fault]

/-- The results of the operations are known, so the condition on a run can be evaluated. -/
instance decidableMeets [∀ o s, Decidable (C o s)] :
    ∀ (p : Prog Op Res α) (s : σ), Decidable (Meets act C p s)
  | .pure _, _ => isTrue trivial
  | .op o k, s =>
    match h : act o s with
    | .error _ => decidable_of_iff (C o s) ⟨fun hC => ⟨hC, fun _ _ h' => by simp [h] at h'⟩, And.left⟩
    | .ok (r, t) =>
      have := decidableMeets (k r) t
      decidable_of_iff (C o s ∧ Meets act C (k r) t)
        ⟨fun hm => ⟨hm.1, fun _ _ h' => by cases h.symm.trans h'; exact hm.2⟩,
          fun hm => ⟨hm.1, hm.2 r t h⟩⟩

theorem Meets.mono {D : Op → σ → Prop} {p : Prog Op Res α} {s : σ} (h : Meets act C p s)
    (hCD : ∀ o s, C o s → D o s) : Meets act D p s := by
  induction p generalizing s with
  | pure a => trivial
  | op o k ih => exact ⟨hCD o s h.1, fun r t ho => ih r (h.2 r t ho)⟩

end Sequential

section Calls
variable {ι κ : Type} (act : ι → (o : Op) → σ → Except ε (Res o × σ)) (body : κ → Prog Op Res α)

/-- Thread `e.1` makes the call `e.2`, from start to end. -/
def finish (s : σ) (e : ι × κ) : Option σ :=
  match run (act e.1) (body e.2) s with
  | .ok (_, t) => some t
  | .error _ => none

/-- Whole calls, one after the other. -/
def sequential (init : σ → Prop) : System σ (ι × κ) := System.ofNext init (finish act body)

/-- The condition `C` on the operations of a call. -/
def CallMeets (C : Op → σ → Prop) (s : σ) (e : ι × κ) : Prop := Meets (act e.1) C (body e.2) s

instance (C : Op → σ → Prop) [∀ o s, Decidable (C o s)] (s : σ) (e : ι × κ) :
    Decidable (CallMeets act body C s e) :=
  decidableMeets (body e.2) s

variable {act body}

theorem finish_eq_some {s t : σ} {e : ι × κ} :
    finish act body s e = some t ↔ ∃ a, run (act e.1) (body e.2) s = .ok (a, t) := by
  rw [finish]
  cases run (act e.1) (body e.2) s with
  | error e => simp
  | ok p => simp [Prod.ext_iff, eq_comm]

/-- What every call keeps holds after any calls that meet the condition. -/
theorem sequential_invariant {init : σ → Prop} {C : Op → σ → Prop} {E : ε → Prop} {I : σ → Prop}
    {s : σ} (h₀ : ∀ s, init s → I s)
    (hcall : ∀ i c s, I s → wp (act i) C E (body c) (fun _ t => I t) s)
    (h : ((sequential act body init).restrict (fun s e _ => CallMeets act body C s e)).Reachable s) :
    I s := by
  refine h.invariant h₀ fun s e t hs hst => ?_
  obtain ⟨a, hrun⟩ := finish_eq_some.mp hst.1
  exact wp_run_ok (hcall e.1 e.2 s hs) hst.2 hrun

end Calls

structure Config (Op : Type) (Res : Op → Type) (ι σ : Type) where
  st : σ
  prog : ι → Prog Op Res Unit

/-- A thread that has returned enters a call, or a thread performs its next operation. -/
inductive Event (ι κ : Type) where
  | enter (i : ι) (c : κ)
  | perform (i : ι)

section Interleaved
variable {ι κ Λ : Type} [DecidableEq ι]
variable (act : ι → (o : Op) → σ → Except ε (Res o × σ)) (body : κ → Prog Op Res Unit)

def step (c : Config Op Res ι σ) : Event ι κ → Option (Config Op Res ι σ)
  | .enter i call =>
    match c.prog i with
    | .pure _ => some { c with prog := Function.update c.prog i (body call) }
    | .op _ _ => none
  | .perform i =>
    match c.prog i with
    | .pure _ => none
    | .op o k =>
      match act i o c.st with
      | .error _ => none
      | .ok (r, t) => some ⟨t, Function.update c.prog i (k r)⟩

/-- The threads start idle, on a state in `init`. -/
def threads (init : σ → Prop) : System (Config Op Res ι σ) (Event ι κ) :=
  System.ofNext (fun c => init c.st ∧ ∀ i, c.prog i = .pure ()) (step act body)

/-- The condition `C` on the operations, as a condition on the steps. -/
def Performs (C : Op → σ → Prop) (c : Config Op Res ι σ) : Event ι κ → Prop
  | .enter _ _ => True
  | .perform i => ∀ o, (c.prog i).next = some o → C o c.st

instance (C : Op → σ → Prop) [∀ o s, Decidable (C o s)] (c : Config Op Res ι σ) :
    ∀ e : Event ι κ, Decidable (Performs C c e)
  | .enter _ _ => isTrue trivial
  | .perform i =>
    match h : (c.prog i).next with
    | none => isTrue fun o ho => by rw [h] at ho; cases ho
    | some o => decidable_of_iff (C o c.st)
        ⟨fun hC o' ho' => by rw [h] at ho'; exact Option.some.inj ho' ▸ hC, fun hC => hC o h⟩

variable (C : Op → σ → Prop) (J : (ι → Λ) → σ → Prop) (Safe : ι → Op → Λ → σ → Prop)

/-- From the local state `l`, thread `i` performs only operations that are `Safe` where it
performs them, keeps `J`, and returns with a local state in `Q`. -/
def Outline (i : ι) : Prog Op Res α → (α → Λ → Prop) → Λ → Prop
  | .pure a, Q, l => Q a l
  | .op o k, Q, l => ∀ L s, L i = l → J L s → Safe i o l s ∧
    (C o s → ∀ r t, act i o s = .ok (r, t) →
      ∃ l', J (Function.update L i l') t ∧ Outline i (k r) Q l')

variable {act body C J Safe}

theorem outline_call {i : ι} {o : Op} {Q : Res o → Λ → Prop} {l : Λ} :
    Outline act C J Safe i (.call o) Q l ↔ ∀ L s, L i = l → J L s → Safe i o l s ∧
      (C o s → ∀ r t, act i o s = .ok (r, t) → ∃ l', J (Function.update L i l') t ∧ Q r l') :=
  Iff.rfl

theorem outline_bind {i : ι} {p : Prog Op Res α} {f : α → Prog Op Res β} {Q : β → Λ → Prop}
    {l : Λ} (h : Outline act C J Safe i p (fun a => Outline act C J Safe i (f a) Q) l) :
    Outline act C J Safe i (p >>= f) Q l := by
  induction p generalizing l with
  | pure a => exact h
  | op o k ih =>
    intro L s hL hJ
    obtain ⟨hsafe, hkeep⟩ := h L s hL hJ
    refine ⟨hsafe, fun hC r t hact => ?_⟩
    obtain ⟨l', hJ', hk⟩ := hkeep hC r t hact
    exact ⟨l', hJ', ih r hk⟩

theorem outline_mono {i : ι} {p : Prog Op Res α} {Q Q' : α → Λ → Prop} {l : Λ}
    (h : Outline act C J Safe i p Q l) (hQ : ∀ a l, Q a l → Q' a l) :
    Outline act C J Safe i p Q' l := by
  induction p generalizing l with
  | pure a => exact hQ a l h
  | op o k ih =>
    intro L s hL hJ
    obtain ⟨hsafe, hkeep⟩ := h L s hL hJ
    refine ⟨hsafe, fun hC r t hact => ?_⟩
    obtain ⟨l', hJ', hk⟩ := hkeep hC r t hact
    exact ⟨l', hJ', ih r hk⟩

theorem outline_ite {i : ι} {c : Prop} [Decidable c] {p q : Prog Op Res α} {Q : α → Λ → Prop}
    {l : Λ} (hp : c → Outline act C J Safe i p Q l) (hq : ¬ c → Outline act C J Safe i q Q l) :
    Outline act C J Safe i (if c then p else q) Q l := by
  split_ifs with h
  · exact hp h
  · exact hq h

/-- Every thread is at a point of an outline, with its local state in the invariant. -/
def Outlined (act : ι → (o : Op) → σ → Except ε (Res o × σ)) (C : Op → σ → Prop)
    (J : (ι → Λ) → σ → Prop) (Safe : ι → Op → Λ → σ → Prop) (Idle : Λ → Prop)
    (c : Config Op Res ι σ) : Prop :=
  ∃ L, J L c.st ∧ ∀ i, Outline act C J Safe i (c.prog i) (fun _ => Idle) (L i)

variable {Idle : Λ → Prop}

theorem outlined_step
    (hbody : ∀ i call l, Idle l → Outline act C J Safe i (body call) (fun _ => Idle) l)
    {c d : Config Op Res ι σ} {e : Event ι κ} (h : Outlined act C J Safe Idle c)
    (hC : Performs C c e) (hstep : step act body c e = some d) :
    Outlined act C J Safe Idle d := by
  obtain ⟨L, hJ, hL⟩ := h
  cases e with
  | enter i call =>
    simp only [step] at hstep
    split at hstep
    case h_2 => cases hstep
    rename_i hi
    obtain rfl := Option.some.inj hstep
    refine ⟨L, hJ, fun j => ?_⟩
    rcases eq_or_ne j i with rfl | hj
    · have hidle := hL j
      rw [hi] at hidle
      simp only [Function.update_self]
      exact hbody j call (L j) hidle
    · simpa only [Function.update_of_ne hj] using hL j
  | perform i =>
    simp only [step] at hstep
    split at hstep
    · cases hstep
    rename_i o k hi
    split at hstep
    · cases hstep
    rename_i r t hact
    obtain rfl := Option.some.inj hstep
    have hpoint := hL i
    rw [hi] at hpoint
    have hCo : C o c.st := hC o (by rw [hi]; rfl)
    obtain ⟨l', hJ', hk⟩ := (hpoint L c.st rfl hJ).2 hCo r t hact
    refine ⟨Function.update L i l', hJ', fun j => ?_⟩
    rcases eq_or_ne j i with rfl | hj
    · simpa only [Function.update_self] using hk
    · simpa only [Function.update_of_ne hj] using hL j

theorem outlined_reachable {init : σ → Prop} {l₀ : Λ} (hl₀ : Idle l₀)
    (hinit : ∀ s, init s → J (fun _ => l₀) s)
    (hbody : ∀ i call l, Idle l → Outline act C J Safe i (body call) (fun _ => Idle) l)
    {c : Config Op Res ι σ}
    (h : ((threads act body init).restrict (fun c e _ => Performs C c e)).Reachable c) :
    Outlined act C J Safe Idle c := by
  refine h.invariant ?_ (fun c e d hc hs => outlined_step hbody hc hs.2 hs.1)
  rintro c ⟨hst, hidle⟩
  refine ⟨fun _ => l₀, hinit _ hst, fun i => ?_⟩
  rw [hidle i]
  exact hl₀

/-- Where a thread stands, its next operation is safe. -/
theorem Outlined.safe {c : Config Op Res ι σ} (h : Outlined act C J Safe Idle c) :
    ∃ L, J L c.st ∧ ∀ i o, (c.prog i).next = some o → Safe i o (L i) c.st := by
  obtain ⟨L, hJ, hL⟩ := h
  refine ⟨L, hJ, fun i o ho => ?_⟩
  have hpoint := hL i
  cases hi : c.prog i with
  | pure a => rw [hi] at ho; cases ho
  | op o' k =>
    rw [hi] at ho hpoint
    obtain rfl := Option.some.inj ho
    exact (hpoint L c.st rfl hJ).1

end Interleaved

end Ostep.OpTree

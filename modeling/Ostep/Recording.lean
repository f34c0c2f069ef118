import Ostep.Hoare

/-!
# Programs that record what they do

A recording program carries a list of what it has recorded so far, also in its errors. `Erases`
says that without the record it is a plain program; what is known of the plain program then
holds of the recording one.
-/

namespace Ostep.Recording
open Hoare

variable {σ ε γ α β : Type}

abbrev Recorder (σ ε γ : Type) : Type → Type := StateT (σ × List γ) (Except (ε × List γ))

/-- A plain program, which records nothing. -/
def lift (m : StateT σ (Except ε) α) : Recorder σ ε γ α := fun p =>
  match m p.1 with
  | .ok (a, t) => .ok (a, (t, p.2))
  | .error e => .error (e, p.2)

def record (c : γ) : Recorder σ ε γ Unit := modify fun p => (p.1, p.2 ++ [c])

def Erases (m : Recorder σ ε γ α) (m₀ : StateT σ (Except ε) α) : Prop :=
  ∀ s l, match m (s, l) with
    | .ok (a, p) => m₀ s = .ok (a, p.1)
    | .error e => m₀ s = .error e.1

variable {m : Recorder σ ε γ α} {m₀ : StateT σ (Except ε) α} {s : σ} {l : List γ}

theorem Erases.lift (m₀ : StateT σ (Except ε) α) : Erases (lift (γ := γ) m₀) m₀ := by
  intro s l
  unfold Recording.lift
  cases m₀ s <;> rfl

theorem Erases.pure (a : α) :
    Erases (Pure.pure a : Recorder σ ε γ α) (Pure.pure a : StateT σ (Except ε) α) :=
  fun _ _ => rfl

theorem Erases.bind {f : α → Recorder σ ε γ β} {f₀ : α → StateT σ (Except ε) β} (h : Erases m m₀)
    (hf : ∀ a, Erases (f a) (f₀ a)) : Erases (m >>= f) (m₀ >>= f₀) := by
  intro s l
  have hm := h s l
  cases hr : m (s, l) with
  | error e =>
    rw [hr] at hm
    rw [run_bind_error hr, run_bind_error hm]
  | ok r =>
    obtain ⟨a, t, k⟩ := r
    rw [hr] at hm
    rw [run_bind_ok hr, run_bind_ok hm]
    exact hf a t k

theorem Erases.get_bind {f : σ × List γ → Recorder σ ε γ β} {f₀ : σ → StateT σ (Except ε) β}
    (hf : ∀ s l, Erases (f (s, l)) (f₀ s)) : Erases (get >>= f) (get >>= f₀) :=
  fun s l => hf s l s l

theorem Erases.ite {c : Prop} [Decidable c] {n : Recorder σ ε γ α} {n₀ : StateT σ (Except ε) α}
    (hm : Erases m m₀) (hn : Erases n n₀) :
    Erases (if c then m else n) (if c then m₀ else n₀) := by
  split_ifs
  · exact hm
  · exact hn

theorem Erases.record_bind {c : γ} {f : Unit → Recorder σ ε γ α} (hf : Erases (f ()) m₀) :
    Erases (record c >>= f) m₀ :=
  fun s l => hf s (l ++ [c])

theorem Erases.triple {E : ε → Prop} {Q : α → σ → Prop} (h : Erases m m₀)
    (ht : Triple E (· = s) m₀ Q) :
    Triple (fun e => E e.1) (· = (s, l)) m (fun a p => Q a p.1) := by
  rintro _ rfl
  have hm := h s l
  have hs := ht s rfl
  cases hr : m (s, l) with
  | error e =>
    rw [hr] at hm
    rw [hm] at hs
    exact hs
  | ok r =>
    obtain ⟨a, t, k⟩ := r
    rw [hr] at hm
    rw [hm] at hs
    exact hs

theorem Erases.ok {a : α} {p : σ × List γ} (h : Erases m m₀) (hr : m (s, l) = .ok (a, p)) :
    m₀ s = .ok (a, p.1) := by
  have hm := h s l
  rwa [hr] at hm

theorem Erases.error {e : ε × List γ} (h : Erases m m₀) (hr : m (s, l) = .error e) :
    m₀ s = .error e.1 := by
  have hm := h s l
  rwa [hr] at hm

/-- A lifted program leaves the record as it is. -/
theorem lift_triple {E : ε → Prop} {Q : α → σ → Prop} (ht : Triple E (· = s) m₀ Q) :
    Triple (fun e => E e.1 ∧ e.2 = l) (· = (s, l)) (lift m₀ : Recorder σ ε γ α)
      (fun a p => Q a p.1 ∧ p.2 = l) := by
  rintro _ rfl
  have hs := ht s rfl
  unfold Recording.lift
  cases hr : m₀ s with
  | error e =>
    rw [hr] at hs
    exact ⟨hs, rfl⟩
  | ok r =>
    rw [hr] at hs
    exact ⟨hs, rfl⟩

theorem lift_modify {E : ε × List γ → Prop} {g : σ → σ} :
    Triple E (· = (s, l)) (lift (modify g) : Recorder σ ε γ PUnit) (fun _ p => p = (g s, l)) := by
  rintro _ rfl
  rfl

theorem record_triple {E : ε × List γ → Prop} {c : γ} :
    Triple E (· = (s, l)) (record c : Recorder σ ε γ Unit) (fun _ p => p = (s, l ++ [c])) := by
  rintro _ rfl
  rfl

end Ostep.Recording

import Mathlib.Tactic.Common

/-!
# Triples for programs with a state and errors

`Triple E P m Q`: from a state in `P` the program `m` ends in `Q`, or fails with an error that
`E` allows. A rule that names the state it starts from, as for `get`, has `(· = s)` for its
precondition, so later rules can refer to it.
-/

namespace Ostep.Hoare

variable {σ ε α β γ : Type}

def Triple (E : ε → Prop) (P : σ → Prop) (m : StateT σ (Except ε) α) (Q : α → σ → Prop) : Prop :=
  ∀ s, P s → match m s with
    | .ok (a, t) => Q a t
    | .error e => E e

variable {E : ε → Prop} {P : σ → Prop} {Q : α → σ → Prop}

theorem Triple.ok {m : StateT σ (Except ε) α} (h : Triple E P m Q) {s t : σ} {a : α} (hs : P s)
    (hm : m s = .ok (a, t)) : Q a t := by
  have := h s hs
  rwa [hm] at this

theorem Triple.error {m : StateT σ (Except ε) α} (h : Triple E P m Q) {s : σ} {e : ε} (hs : P s)
    (hm : m s = .error e) : E e := by
  have := h s hs
  rwa [hm] at this

theorem Triple.conseq {P' : σ → Prop} {Q' : α → σ → Prop} {m : StateT σ (Except ε) α}
    (h : Triple E P m Q) (hP : ∀ s, P' s → P s) (hQ : ∀ a s, Q a s → Q' a s) :
    Triple E P' m Q' := by
  intro s hs
  have := h s (hP s hs)
  split <;> simp_all

theorem Triple.weaken {Q' : α → σ → Prop} {m : StateT σ (Except ε) α} (h : Triple E P m Q)
    (hQ : ∀ a s, Q a s → Q' a s) : Triple E P m Q' :=
  h.conseq (fun _ => id) hQ

theorem Triple.and {E' : ε → Prop} {Q' : α → σ → Prop} {m : StateT σ (Except ε) α}
    (h : Triple E P m Q) (h' : Triple E' P m Q') :
    Triple (fun e => E e ∧ E' e) P m (fun a s => Q a s ∧ Q' a s) := by
  intro s hs
  have h₁ := h s hs
  have h₂ := h' s hs
  split <;> simp_all

theorem Triple.error_weaken {E' : ε → Prop} {m : StateT σ (Except ε) α} (h : Triple E P m Q)
    (hE : ∀ e, E e → E' e) : Triple E' P m Q := by
  intro s hs
  have := h s hs
  split <;> simp_all

/-- A triple may be proved for each starting state on its own. -/
theorem Triple.of_eq {m : StateT σ (Except ε) α} (h : ∀ s, P s → Triple E (· = s) m Q) :
    Triple E P m Q :=
  fun s hs => h s hs s rfl

theorem Triple.pure {a : α} (h : ∀ s, P s → Q a s) :
    Triple E P (Pure.pure a : StateT σ (Except ε) α) Q :=
  fun s hs => h s hs

theorem Triple.throw {e : ε} (h : E e) : Triple E P (throw e : StateT σ (Except ε) α) Q :=
  fun _ _ => h

theorem Triple.bind {m : StateT σ (Except ε) α} {f : α → StateT σ (Except ε) β}
    {R : β → σ → Prop} (hm : Triple E P m Q) (hf : ∀ a, Triple E (Q a) (f a) R) :
    Triple E P (m >>= f) R := by
  intro s hs
  have h := hm s hs
  change match (m s >>= fun p => f p.1 p.2) with
    | .ok (a, t) => R a t
    | .error e => E e
  cases hms : m s with
  | error e =>
    rw [hms] at h
    exact h
  | ok p =>
    rw [hms] at h
    exact hf p.1 p.2 h

theorem Triple.get_bind {f : σ → StateT σ (Except ε) β} {R : β → σ → Prop}
    (h : ∀ s, P s → Triple E (· = s) (f s) R) : Triple E P (get >>= f) R :=
  fun s hs => h s hs s rfl

theorem Triple.update {g : σ → σ} {Q : PUnit → σ → Prop} (h : ∀ s, P s → Q ⟨⟩ (g s)) :
    Triple E P (modify g : StateT σ (Except ε) PUnit) Q :=
  fun s hs => h s hs

theorem Triple.ite {c : Prop} [Decidable c] {m n : StateT σ (Except ε) α}
    (hm : c → Triple E P m Q) (hn : ¬ c → Triple E P n Q) :
    Triple E P (if c then m else n) Q := by
  split_ifs with h
  · exact hm h
  · exact hn h

/-- A loop over a list keeps what its body keeps. -/
theorem Triple.forM {xs : List α} {f : α → StateT σ (Except ε) PUnit} {I : List α → σ → Prop}
    (hf : ∀ x ys, x :: ys <:+ xs → Triple E (I (x :: ys)) (f x) (fun _ => I ys)) :
    Triple E (I xs) (xs.forM f) (fun _ => I []) := by
  induction xs with
  | nil => exact .pure (fun _ => id)
  | cons x xs ih =>
    change Triple E _ (f x >>= fun _ => xs.forM f) _
    refine .bind (hf x xs (List.suffix_refl _)) (fun _ => ih (fun y ys hy => ?_))
    exact hf y ys (hy.trans (List.suffix_cons x xs))

/-! ## Runs that return -/

variable {s t u : σ} {a a' : α} {b : β}

theorem run_bind {m : StateT σ (Except ε) α} {f : α → StateT σ (Except ε) β} :
    (m >>= f) s = .ok (b, u) ↔ ∃ a t, m s = .ok (a, t) ∧ f a t = .ok (b, u) := by
  change (m s >>= fun p => f p.1 p.2) = _ ↔ _
  cases hm : m s with
  | error e => simp [Bind.bind, Except.bind]
  | ok p => simp [Bind.bind, Except.bind, Prod.ext_iff]

theorem run_bind_ok {m : StateT σ (Except ε) α} {f : α → StateT σ (Except ε) β}
    (h : m s = .ok (a, t)) : (m >>= f) s = f a t := by
  change (m s >>= fun p => f p.1 p.2) = _
  rw [h]
  rfl

theorem run_bind_error {e : ε} {m : StateT σ (Except ε) α} {f : α → StateT σ (Except ε) β}
    (h : m s = .error e) : (m >>= f) s = .error e := by
  change (m s >>= fun p => f p.1 p.2) = _
  rw [h]
  rfl

theorem Triple.of_run {m : StateT σ (Except ε) α} (h : m s = .ok (a, t)) (hq : Q a t) :
    Triple E (· = s) m Q := by
  rintro _ rfl
  rw [h]
  exact hq

/-- A program that may not fail returns. -/
theorem Triple.returns {m : StateT σ (Except ε) α} (h : Triple (fun _ => False) (· = s) m Q) :
    ∃ a t, m s = .ok (a, t) ∧ Q a t := by
  have hs := h s rfl
  cases hm : m s with
  | error e =>
    rw [hm] at hs
    exact hs.elim
  | ok p =>
    rw [hm] at hs
    exact ⟨p.1, p.2, rfl, hs⟩

/-- The first step of a program is known. -/
theorem Triple.run_bind {m : StateT σ (Except ε) α} {f : α → StateT σ (Except ε) β}
    {R : β → σ → Prop} (h : m s = .ok (a, t)) (hf : Triple E (· = t) (f a) R) :
    Triple E (· = s) (m >>= f) R := by
  rintro _ rfl
  rw [run_bind_ok h]
  exact hf t rfl

theorem run_get_bind {f : σ → StateT σ (Except ε) β} : (get >>= f) s = f s s := rfl

theorem run_pure : (Pure.pure a : StateT σ (Except ε) α) s = .ok (a', t) ↔ a = a' ∧ s = t := by
  change Except.ok (a, s) = _ ↔ _
  simp

theorem run_throw {e : ε} : (throw e : StateT σ (Except ε) α) s = .ok (a, t) ↔ False := by
  change Except.error e = _ ↔ _
  simp

theorem run_modify {g : σ → σ} {a : PUnit} :
    (modify g : StateT σ (Except ε) PUnit) s = .ok (a, t) ↔ g s = t := by
  change Except.ok (PUnit.unit, g s) = _ ↔ _
  simp

theorem run_ite {c : Prop} [Decidable c] {m n : StateT σ (Except ε) α} {r : Except ε (α × σ)} :
    (if c then m else n) s = r ↔ (c ∧ m s = r) ∨ (¬ c ∧ n s = r) := by
  split_ifs with h <;> simp [h]

/-- What a loop over a list keeps, if each of its turns does. -/
theorem run_forM {xs : List α} {f : α → StateT σ (Except ε) PUnit} {I : List α → σ → Prop}
    (hf : ∀ x ys s t b, x :: ys <:+ xs → I (x :: ys) s → f x s = .ok (b, t) → I ys t)
    (hs : I xs s) {b : PUnit} (h : xs.forM f s = .ok (b, t)) : I [] t := by
  induction xs generalizing s with
  | nil =>
    obtain ⟨-, rfl⟩ := run_pure.mp h
    exact hs
  | cons x xs ih =>
    obtain ⟨b', u, hx, hxs⟩ := run_bind.mp (show (f x >>= fun _ => xs.forM f) s = _ from h)
    refine ih (fun y ys s t b hy => hf y ys s t b (hy.trans (List.suffix_cons x xs))) ?_ hxs
    exact hf x xs s u b' (List.suffix_refl _) hs hx

/-- Turns of a loop that change nothing. -/
theorem forM_skip {xs ys : List α} {f : α → StateT σ (Except ε) PUnit}
    (h : ∀ x ∈ xs, f x s = .ok (⟨⟩, s)) : (xs ++ ys).forM f s = ys.forM f s := by
  induction xs with
  | nil => rfl
  | cons x xs ih =>
    change (f x >>= fun _ => (xs ++ ys).forM f) s = _
    rw [run_bind_ok (h x List.mem_cons_self)]
    exact ih fun y hy => h y (List.mem_cons_of_mem x hy)

/-! ## Relations that every run keeps -/

def Keeps (R : σ → σ → Prop) (m : StateT σ (Except ε) α) : Prop :=
  ∀ s a t, m s = .ok (a, t) → R s t

section Keeps
variable {R : σ → σ → Prop}

theorem Keeps.pure [Std.Refl R] : Keeps R (Pure.pure a : StateT σ (Except ε) α) := by
  rintro s b t h
  obtain ⟨-, rfl⟩ := run_pure.mp h
  exact refl_of R s

theorem Keeps.throw {e : ε} : Keeps R (throw e : StateT σ (Except ε) α) :=
  fun _ _ _ h => (run_throw.mp h).elim

theorem Keeps.bind [IsTrans σ R] {m : StateT σ (Except ε) α} {f : α → StateT σ (Except ε) β}
    (hm : Keeps R m) (hf : ∀ a, Keeps R (f a)) : Keeps R (m >>= f) := by
  intro s b u h
  obtain ⟨a, t, h₁, h₂⟩ := run_bind.mp h
  exact trans_of R (hm s a t h₁) (hf a t b u h₂)

theorem Keeps.get_bind {f : σ → StateT σ (Except ε) β}
    (hf : ∀ s, Keeps R (f s)) : Keeps R (get >>= f) :=
  fun s b u h => hf s s b u h

theorem Keeps.ite {c : Prop} [Decidable c] {m n : StateT σ (Except ε) α} (hm : Keeps R m)
    (hn : Keeps R n) : Keeps R (if c then m else n) := by
  split_ifs
  · exact hm
  · exact hn

theorem Keeps.update {g : σ → σ} (h : ∀ s, R s (g s)) :
    Keeps R (modify g : StateT σ (Except ε) PUnit) := by
  rintro s a t hs
  obtain rfl := run_modify.mp hs
  exact h s

theorem Keeps.forM [Std.Refl R] [IsTrans σ R] {xs : List α} {f : α → StateT σ (Except ε) PUnit}
    (hf : ∀ x, Keeps R (f x)) : Keeps R (xs.forM f) := by
  induction xs with
  | nil => exact .pure
  | cons x xs ih => exact .bind (hf x) fun _ => ih

end Keeps

/-! ## Properties of the value alone -/

def Yields (m : StateT σ (Except ε) α) (q : α → Prop) : Prop :=
  ∀ s a t, m s = .ok (a, t) → q a

section Yields
variable {q : α → Prop} {r : β → Prop}

theorem Yields.any {m : StateT σ (Except ε) α} : Yields m (fun _ => True) :=
  fun _ _ _ _ => trivial

theorem Yields.pure (h : q a) : Yields (Pure.pure a : StateT σ (Except ε) α) q := by
  rintro s b t hb
  obtain ⟨rfl, -⟩ := run_pure.mp hb
  exact h

theorem Yields.throw {e : ε} : Yields (throw e : StateT σ (Except ε) α) q :=
  fun _ _ _ h => (run_throw.mp h).elim

theorem Yields.bind {m : StateT σ (Except ε) α} {f : α → StateT σ (Except ε) β} (hm : Yields m q)
    (hf : ∀ a, q a → Yields (f a) r) : Yields (m >>= f) r := by
  intro s b u h
  obtain ⟨a, t, h₁, h₂⟩ := run_bind.mp h
  exact hf a (hm s a t h₁) t b u h₂

theorem Yields.get_bind {f : σ → StateT σ (Except ε) β} (hf : ∀ s, Yields (f s) r) :
    Yields (get >>= f) r :=
  fun s b u h => hf s s b u h

theorem Yields.ite {c : Prop} [Decidable c] {m n : StateT σ (Except ε) α} (hm : c → Yields m q)
    (hn : ¬ c → Yields n q) : Yields (if c then m else n) q := by
  split_ifs with h
  · exact hm h
  · exact hn h

end Yields

end Ostep.Hoare

import Mathlib.Data.Finset.Card
import Mathlib.Logic.Function.Basic
import Mathlib.Data.Nat.Notation
import Mathlib.Tactic.Common

/-!
# Resources and their owners

Resources are the numbers from `lo` to `hi`; `used` marks those taken, `own` gives what a slot
holds, 0 when it is empty. Everything taken has exactly one owner. What lies below `lo` belongs
to nobody and stays marked.
-/

namespace Ostep.Ownership

variable {ι : Type*}

structure Owns (lo hi : ℕ) (used : ℕ → Bool) (own : ι → ℕ) : Prop where
  pos : 0 < lo
  reserved : ∀ b < lo, used b = true
  range : ∀ p, own p ≠ 0 → lo ≤ own p ∧ own p < hi
  inj : ∀ p q, own p = own q → own p ≠ 0 → p = q
  used_iff : ∀ b, lo ≤ b → b < hi → (used b = true ↔ ∃ p, own p = b)

variable {lo hi : ℕ} {used : ℕ → Bool} {own : ι → ℕ}

theorem Owns.used_own (h : Owns lo hi used own) {p : ι} (hp : own p ≠ 0) : used (own p) = true :=
  (h.used_iff _ (h.range p hp).1 (h.range p hp).2).mpr ⟨p, rfl⟩

theorem Owns.lo_le (h : Owns lo hi used own) {b : ℕ} (hb : used b = false) : lo ≤ b := by
  by_contra hlt
  simp [h.reserved b (by omega)] at hb

theorem Owns.ne_zero (h : Owns lo hi used own) {b : ℕ} (hb : used b = false) : b ≠ 0 := by
  have := h.lo_le hb
  have := h.pos
  omega

/-- A free resource is held by no slot. -/
theorem Owns.ne_own (h : Owns lo hi used own) {b : ℕ} (hb : used b = false) (p : ι) :
    own p ≠ b := by
  rintro rfl
  have := h.used_own (h.ne_zero hb)
  simp [this] at hb

/-- What marks beyond `hi` does not matter. -/
theorem Owns.congr_used {used' : ℕ → Bool} (h : Owns lo hi used own) (hle : lo ≤ hi)
    (hu : ∀ b, b < hi → used' b = used b) : Owns lo hi used' own where
  pos := h.pos
  reserved b hb := (hu b (by omega)).trans (h.reserved b hb)
  range := h.range
  inj := h.inj
  used_iff b hlo hb := by
    rw [hu b hb]
    exact h.used_iff b hlo hb

/-- Marked exactly when it has exactly one owner. -/
theorem Owns.used_iff_unique (h : Owns lo hi used own) {b : ℕ} (hlo : lo ≤ b) (hhi : b < hi) :
    used b = true ↔ ∃! p, own p = b := by
  rw [h.used_iff b hlo hhi]
  refine ⟨?_, fun ⟨p, hp, _⟩ => ⟨p, hp⟩⟩
  rintro ⟨p, rfl⟩
  have hne : own p ≠ 0 := by
    have := h.pos
    omega
  exact ⟨p, rfl, fun q hq => (h.inj p q hq.symm hne).symm⟩

/-- Empty slots may be added. -/
theorem Owns.extend {κ : Type*} {own' : κ → ℕ} (h : Owns lo hi used own) (e : ι → κ)
    (he : ∀ p, own' (e p) = own p) (hempty : ∀ q, own' q ≠ 0 → ∃ p, q = e p) :
    Owns lo hi used own' where
  pos := h.pos
  reserved := h.reserved
  range q hq := by
    obtain ⟨p, rfl⟩ := hempty q hq
    rw [he] at hq ⊢
    exact h.range p hq
  inj q r heq hq := by
    obtain ⟨p, rfl⟩ := hempty q hq
    obtain ⟨p', rfl⟩ := hempty r (heq ▸ hq)
    rw [he, he] at heq
    rw [he] at hq
    rw [h.inj p p' heq hq]
  used_iff b hlo hb := by
    rw [h.used_iff b hlo hb]
    constructor
    · exact fun ⟨p, hp⟩ => ⟨e p, (he p).trans hp⟩
    · rintro ⟨q, rfl⟩
      have hq : own' q ≠ 0 := by
        have := h.pos
        omega
      obtain ⟨p, rfl⟩ := hempty q hq
      exact ⟨p, (he p).symm⟩

variable [DecidableEq ι]

/-- An empty slot takes a free resource. -/
theorem Owns.attach (h : Owns lo hi used own) {b : ℕ} {p : ι} (hb : used b = false) (hhi : b < hi)
    (hp : own p = 0) : Owns lo hi (Function.update used b true) (Function.update own p b) where
  pos := h.pos
  reserved c hc := by
    have : c ≠ b := by
      have := h.lo_le hb
      omega
    simpa [this] using h.reserved c hc
  range q hq := by
    by_cases hqp : q = p
    · simpa [hqp] using ⟨h.lo_le hb, hhi⟩
    · simp only [Function.update_of_ne hqp] at hq ⊢
      exact h.range q hq
  inj q r heq hne := by
    by_cases hq : q = p <;> by_cases hr : r = p
    · rw [hq, hr]
    · rw [hq, Function.update_self, Function.update_of_ne hr] at heq
      exact absurd heq.symm (h.ne_own hb r)
    · rw [hr, Function.update_self, Function.update_of_ne hq] at heq
      exact absurd heq (h.ne_own hb q)
    · simp only [Function.update_of_ne hq, Function.update_of_ne hr] at heq hne
      exact h.inj q r heq hne
  used_iff c hlo hc := by
    by_cases hcb : c = b
    · subst hcb
      exact iff_of_true (by simp) ⟨p, by simp⟩
    · rw [Function.update_of_ne hcb, h.used_iff c hlo hc]
      constructor
      · rintro ⟨q, rfl⟩
        have hqp : q ≠ p := by
          rintro rfl
          have := h.pos
          omega
        exact ⟨q, Function.update_of_ne hqp _ _⟩
      · rintro ⟨q, hq⟩
        by_cases hqp : q = p
        · simp only [hqp, Function.update_self] at hq
          exact absurd hq.symm hcb
        · exact ⟨q, by rwa [Function.update_of_ne hqp] at hq⟩

/-- A slot gives up what it holds. -/
theorem Owns.release (h : Owns lo hi used own) {p : ι} (hp : own p ≠ 0) :
    Owns lo hi (Function.update used (own p) false) (Function.update own p 0) where
  pos := h.pos
  reserved c hc := by
    have : c ≠ own p := by
      have := (h.range p hp).1
      omega
    simpa [this] using h.reserved c hc
  range q hq := by
    by_cases hqp : q = p
    · simp [hqp] at hq
    · simp only [Function.update_of_ne hqp] at hq ⊢
      exact h.range q hq
  inj q r heq hne := by
    by_cases hq : q = p
    · simp [hq] at hne
    · by_cases hr : r = p
      · rw [Function.update_of_ne hq] at hne
        simp [hr, Function.update_of_ne hq, hne] at heq
      · simp only [Function.update_of_ne hq, Function.update_of_ne hr] at heq hne
        exact h.inj q r heq hne
  used_iff c hlo hc := by
    by_cases hcb : c = own p
    · subst hcb
      refine iff_of_false (by simp) ?_
      rintro ⟨q, hq⟩
      by_cases hqp : q = p
      · simp only [hqp, Function.update_self] at hq
        exact hp hq.symm
      · rw [Function.update_of_ne hqp] at hq
        exact hqp (h.inj p q hq.symm hp).symm
    · rw [Function.update_of_ne hcb, h.used_iff c hlo hc]
      constructor
      · rintro ⟨q, rfl⟩
        have hqp : q ≠ p := by
          rintro rfl
          exact hcb rfl
        exact ⟨q, Function.update_of_ne hqp _ _⟩
      · rintro ⟨q, hq⟩
        by_cases hqp : q = p
        · have := h.pos
          simp only [hqp, Function.update_self] at hq
          omega
        · exact ⟨q, by rwa [Function.update_of_ne hqp] at hq⟩

/-- What a slot holds goes to an empty one. -/
theorem Owns.move (h : Owns lo hi used own) {p q : ι} (hp : own p ≠ 0) (hq : own q = 0) :
    Owns lo hi used (Function.update (Function.update own p 0) q (own p)) := by
  have hfree : Function.update used (own p) false (own p) = false := Function.update_self ..
  have hempty : Function.update own p 0 q = 0 := by
    by_cases hqp : q = p
    · simp [hqp]
    · rw [Function.update_of_ne hqp, hq]
  have hback : Function.update (Function.update used (own p) false) (own p) true = used := by
    rw [Function.update_idem, ← h.used_own hp, Function.update_eq_self]
  have := h.release hp |>.attach hfree (h.range p hp).2 hempty
  rwa [hback] at this

/-! ## What is left -/

/-- The resources that are not taken. -/
def left (hi : ℕ) (used : ℕ → Bool) : ℕ := ((Finset.range hi).filter (fun b => used b = false)).card

/-- The slots of `K` that are empty. -/
def vacant (own : ι → ℕ) (K : Finset ι) : ℕ := (K.filter (fun p => own p = 0)).card

theorem left_take {b : ℕ} (hb : used b = false) (hhi : b < hi) :
    left hi (Function.update used b true) + 1 = left hi used := by
  have hmem : b ∈ (Finset.range hi).filter (fun c => used c = false) := by simp [hb, hhi]
  rw [left, left, ← Finset.card_erase_add_one hmem]
  congr 2
  ext c
  by_cases hc : c = b <;> simp [hc]

theorem vacant_fill {b : ℕ} {p : ι} {K : Finset ι} (hp : own p = 0) (hb : b ≠ 0) (hK : p ∈ K) :
    vacant (Function.update own p b) K + 1 = vacant own K := by
  have hmem : p ∈ K.filter (fun q => own q = 0) := by simp [hp, hK]
  rw [vacant, vacant, ← Finset.card_erase_add_one hmem]
  congr 2
  ext q
  by_cases hq : q = p <;> simp [hq, hb]

omit [DecidableEq ι] in
theorem left_zero (h : ∀ b < hi, used b = true) : left hi used = 0 := by
  simp only [left, Finset.card_eq_zero, Finset.filter_eq_empty_iff, Finset.mem_range]
  intro b hb
  simp [h b hb]

omit [DecidableEq ι] in
theorem vacant_pos {p : ι} {K : Finset ι} (hp : own p = 0) (hK : p ∈ K) : 0 < vacant own K :=
  Finset.card_pos.mpr ⟨p, by simp [hp, hK]⟩

omit [DecidableEq ι] in
theorem vacant_zero {K : Finset ι} (h : ∀ p ∈ K, own p ≠ 0) : vacant own K = 0 := by
  simp only [vacant, Finset.card_eq_zero, Finset.filter_eq_empty_iff]
  exact h

end Ostep.Ownership

import Mathlib.Data.Nat.Init
import Mathlib.Data.Nat.Notation
import Mathlib.Data.Int.Notation
import Mathlib.Logic.Function.Basic
import Mathlib.Tactic.Common

/-!
# The two memmoves

Memory is one array of bytes, so that the regions may overlap; they lie inside the address space,
and no address wraps. `string.c` copies backward when the destination starts inside the source.
`ulib.c` always copies forward, which there reads what it has just written: the destination
fills up with the first `dst - src` bytes again and again.
-/

namespace Ostep.Memmove

abbrev Memory : Type := ℕ → UInt8

/-- `while(n-- > 0) *d++ = *s++`. -/
def copyForward (m : Memory) (d s : ℕ) : ℕ → Memory
  | 0 => m
  | n + 1 => copyForward (Function.update m d (m s)) (d + 1) (s + 1) n

/-- `while(n-- > 0) *--d = *--s`. -/
def copyBackward (m : Memory) (d s : ℕ) : ℕ → Memory
  | 0 => m
  | n + 1 => copyBackward (Function.update m (d - 1) (m (s - 1))) (d - 1) (s - 1) n

/-- `memmove` of string.c. -/
def Kernel.memmove (m : Memory) (dst src n : ℕ) : ℕ × Memory :=
  if src < dst ∧ src + n > dst then (dst, copyBackward m (dst + n) (src + n) n)
  else (dst, copyForward m dst src n)

/-- `memmove` of ulib.c. -/
def Ulib.memmove (m : Memory) (vdst vsrc : ℕ) (n : ℤ) : ℕ × Memory :=
  (vdst, copyForward m vdst vsrc n.toNat)

/-- `memcpy` of wishUtils.c. -/
def memcpy (m : Memory) (dst src n : ℕ) : ℕ × Memory := Ulib.memmove m dst src n

/-- The `n` bytes from `src` on are at `dst`, and the rest is as before. -/
def moved (m : Memory) (dst src n : ℕ) : Memory := fun a =>
  if dst ≤ a ∧ a < dst + n then m (src + (a - dst)) else m a

variable {m : Memory} {d s n a : ℕ}

theorem moved_zero : moved m d s 0 = m := by
  funext a
  exact if_neg (by omega)

theorem copyForward_outside (h : a < d ∨ d + n ≤ a) : copyForward m d s n a = m a := by
  induction n generalizing m d s with
  | zero => rfl
  | succ n ih =>
    rw [copyForward, ih (by omega), Function.update_of_ne (by omega)]

/-- Copying down never overwrites a byte that is still to be read. -/
theorem copyForward_below (h : d ≤ s ∨ s + n ≤ d) : copyForward m d s n = moved m d s n := by
  induction n generalizing m d s with
  | zero => exact moved_zero.symm
  | succ n ih =>
    rw [copyForward, ih (by omega)]
    funext a
    unfold moved
    by_cases had : a = d
    · subst had
      rw [if_neg (by omega), Function.update_self, if_pos (by omega), Nat.sub_self, Nat.add_zero]
    · by_cases hin : d ≤ a ∧ a < d + (n + 1)
      · rw [if_pos (by omega), if_pos hin, Function.update_of_ne (by omega)]
        congr 1
        omega
      · rw [if_neg (by omega), if_neg hin, Function.update_of_ne had]

theorem copyBackward_above (h : s < d) : copyBackward m (d + n) (s + n) n = moved m d s n := by
  induction n generalizing m with
  | zero => exact moved_zero.symm
  | succ n ih =>
    rw [copyBackward, show d + (n + 1) - 1 = d + n by omega, show s + (n + 1) - 1 = s + n by omega,
      ih]
    funext a
    unfold moved
    by_cases had : a = d + n
    · subst had
      rw [if_neg (by omega), Function.update_self, if_pos (by omega), Nat.add_sub_cancel_left]
    · by_cases hin : d ≤ a ∧ a < d + (n + 1)
      · rw [if_pos (by omega), if_pos hin, Function.update_of_ne (by omega)]
      · rw [if_neg (by omega), if_neg hin, Function.update_of_ne had]

theorem succ_mod (i k : ℕ) :
    (i + 1) % (k + 1) = if i % (k + 1) = k then 0 else i % (k + 1) + 1 := by
  have hlt : i % (k + 1) < k + 1 := Nat.mod_lt i (Nat.succ_pos k)
  rw [← Nat.mod_add_mod]
  split_ifs with h
  · rw [h, Nat.mod_self]
  · exact Nat.mod_eq_of_lt (by omega)

/-- Copying up by `k + 1` repeats the first `k + 1` bytes. -/
theorem copyForward_repeats {k i : ℕ} (hi : i < n) :
    copyForward m (s + (k + 1)) s n (s + (k + 1) + i) = m (s + i % (k + 1)) := by
  induction n generalizing m s i with
  | zero => omega
  | succ n ih =>
    rw [copyForward]
    cases i with
    | zero =>
      rw [copyForward_outside (by omega), Nat.zero_mod]
      exact Function.update_self ..
    | succ i =>
      have hrun := ih (m := Function.update m (s + (k + 1)) (m s)) (s := s + 1) (i := i) (by omega)
      rw [show s + 1 + (k + 1) = s + (k + 1) + 1 by omega,
        show s + (k + 1) + 1 + i = s + (k + 1) + (i + 1) by omega] at hrun
      rw [hrun, succ_mod]
      have hlt : i % (k + 1) < k + 1 := Nat.mod_lt i (Nat.succ_pos k)
      split_ifs with hlast
      · rw [hlast, show s + 1 + k = s + (k + 1) by omega, Function.update_self, Nat.add_zero]
      · rw [Function.update_of_ne (by omega)]
        congr 1
        omega

theorem periodic_iff {k : ℕ} (f : ℕ → UInt8) (n : ℕ) :
    (∀ i < n, f (i % (k + 1)) = f i) ↔ ∀ i, i + (k + 1) < n → f (i + (k + 1)) = f i := by
  constructor
  · intro h i hi
    rw [← h _ hi, Nat.add_mod_right, h i (by omega)]
  · intro h i
    induction i using Nat.strong_induction_on with
    | _ i ih =>
      intro hi
      by_cases hlt : i < k + 1
      · rw [Nat.mod_eq_of_lt hlt]
      · obtain ⟨j, rfl⟩ : ∃ j, i = j + (k + 1) := ⟨i - (k + 1), by omega⟩
        rw [Nat.add_mod_right, ih j (by omega) (by omega), h j hi]

theorem kernel_memmove (m : Memory) (dst src n : ℕ) :
    Kernel.memmove m dst src n = (dst, moved m dst src n) := by
  unfold Kernel.memmove
  split_ifs with h
  · rw [copyBackward_above h.1]
  · rw [copyForward_below (by omega)]

theorem ulib_memmove_below {m : Memory} {dst src : ℕ} (n : ℕ) (h : dst ≤ src ∨ src + n ≤ dst) :
    Ulib.memmove m dst src n = (dst, moved m dst src n) := by
  rw [Ulib.memmove, Int.toNat_natCast, copyForward_below h]

theorem memcpy_apart {m : Memory} {dst src n : ℕ} (h : dst + n ≤ src ∨ src + n ≤ dst) :
    memcpy m dst src n = (dst, moved m dst src n) :=
  ulib_memmove_below n (by omega)

theorem copyForward_eq_moved_iff {k : ℕ} :
    copyForward m (s + (k + 1)) s n = moved m (s + (k + 1)) s n ↔
      ∀ i, i + (k + 1) < n → m (s + (i + (k + 1))) = m (s + i) := by
  rw [← periodic_iff (fun i => m (s + i)) n]
  constructor
  · intro h i hi
    have hat := congrFun h (s + (k + 1) + i)
    rwa [copyForward_repeats hi, moved, if_pos (by omega), Nat.add_sub_cancel_left] at hat
  · intro h
    funext a
    unfold moved
    by_cases hin : s + (k + 1) ≤ a ∧ a < s + (k + 1) + n
    · obtain ⟨i, rfl⟩ := Nat.exists_eq_add_of_le hin.1
      rw [if_pos hin, copyForward_repeats (by omega), h i (by omega), Nat.add_sub_cancel_left]
    · rw [if_neg hin, copyForward_outside (by omega)]

/-- The two leave the same memory unless the destination starts inside the source, and then only
if the source repeats with the distance between the two. -/
theorem memmoves_agree_iff (m : Memory) (dst src n : ℕ) :
    Ulib.memmove m dst src n = Kernel.memmove m dst src n ∧
        Kernel.memmove m dst src n = (dst, moved m dst src n) ↔
      (src < dst → ∀ i, i + (dst - src) < n → m (src + (i + (dst - src))) = m (src + i)) := by
  rw [kernel_memmove, and_iff_left rfl]
  by_cases hlt : src < dst
  · obtain ⟨k, rfl⟩ : ∃ k, dst = src + (k + 1) := ⟨dst - src - 1, by omega⟩
    rw [Nat.add_sub_cancel_left, forall_prop_of_true hlt, ← copyForward_eq_moved_iff,
      Ulib.memmove, Int.toNat_natCast, Prod.mk.injEq, and_iff_right rfl]
  · rw [ulib_memmove_below n (.inl (by omega))]
    simp [hlt]

theorem memmoves_differ :
    ¬ ∀ (m : Memory) (dst src n : ℕ), Ulib.memmove m dst src n = Kernel.memmove m dst src n ∧
      Kernel.memmove m dst src n = (dst, moved m dst src n) := by
  intro h
  have hat := congrFun (congrArg Prod.snd (h (fun a => UInt8.ofNat a) 1 0 2).1) 2
  revert hat
  decide

end Ostep.Memmove

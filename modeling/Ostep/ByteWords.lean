import Mathlib.Algebra.Group.Nat.Defs
import Mathlib.Data.Nat.Notation
import Mathlib.Tactic.Common

/-!
# Bytes read as words

A stretch of memory is its bytes by offset. A word is four of them, low byte first, at an offset
that is a multiple of four.
-/

namespace Ostep.ByteWords

abbrev Bytes : Type := ℕ → UInt8

/-- `((uint*)v)[j]`. -/
def Bytes.word (v : Bytes) (j : ℕ) : ℕ :=
  (v (4 * j)).toNat + 256 * (v (4 * j + 1)).toNat + 65536 * (v (4 * j + 2)).toNat +
    16777216 * (v (4 * j + 3)).toNat

def Bytes.setWord (v : Bytes) (j x : ℕ) : Bytes :=
  fun i => if i / 4 = j then UInt8.ofNat (x / 256 ^ (i % 4)) else v i

/-- `memmove(v + off, src, n)`. -/
def Bytes.store (v : Bytes) (off : ℕ) (src : List UInt8) : Bytes :=
  fun i => if off ≤ i ∧ i < off + src.length then src.getD (i - off) 0 else v i

def Bytes.load (v : Bytes) (off n : ℕ) : List UInt8 := (List.range n).map (fun k => v (off + k))

variable {v w : Bytes} {j k x : ℕ}

theorem word_lt (v : Bytes) (j : ℕ) : v.word j < 2 ^ 32 := by
  have h0 := (v (4 * j)).toNat_lt
  have h1 := (v (4 * j + 1)).toNat_lt
  have h2 := (v (4 * j + 2)).toNat_lt
  have h3 := (v (4 * j + 3)).toNat_lt
  simp only [Bytes.word]
  omega

theorem word_zero (j : ℕ) : Bytes.word (fun _ => 0) j = 0 := by simp [Bytes.word]

theorem word_congr (h : ∀ k, k / 4 = j → v k = w k) : v.word j = w.word j := by
  simp only [Bytes.word]
  rw [h (4 * j) (by omega), h (4 * j + 1) (by omega), h (4 * j + 2) (by omega),
    h (4 * j + 3) (by omega)]

theorem word_setWord (hx : x < 2 ^ 32) : (v.setWord j x).word j = x := by
  have h0 : 4 * j / 4 = j := by omega
  have h1 : (4 * j + 1) / 4 = j := by omega
  have h2 : (4 * j + 2) / 4 = j := by omega
  have h3 : (4 * j + 3) / 4 = j := by omega
  have m0 : 4 * j % 4 = 0 := by omega
  have m1 : (4 * j + 1) % 4 = 1 := by omega
  have m2 : (4 * j + 2) % 4 = 2 := by omega
  have m3 : (4 * j + 3) % 4 = 3 := by omega
  simp [Bytes.word, Bytes.setWord, h0, h1, h2, h3, m0, m1, m2, m3]
  omega

theorem setWord_of_ne (h : k / 4 ≠ j) : v.setWord j x k = v k := by
  simp [Bytes.setWord, h]

theorem word_setWord_of_ne (h : k ≠ j) : (v.setWord j x).word k = v.word k :=
  word_congr fun m hm => setWord_of_ne (by omega)

end Ostep.ByteWords

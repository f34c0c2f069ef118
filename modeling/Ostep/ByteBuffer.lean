import Mathlib.Data.List.Basic
import Mathlib.Tactic.Ring

/-!
# Byte buffers and C strings

A malloc'd block is the list of its bytes together with its fixed size. The user library's
`memmove` is the forward byte loop, run here between two different blocks; its closed form
is a splice. A block is read as a C string up to its first NUL, and a block with no NUL is
not a string at all.
-/

namespace Ostep.ByteBuffer

/-- The loop `while(n-- > 0) *dst++ = *src++` from offset `s` of `src` to offset `d` of `dst`. -/
def memmove (dst src : List UInt8) (d s : ℕ) : ℕ → List UInt8
  | 0 => dst
  | n + 1 => memmove (dst.set d (src.getD s 0)) src (d + 1) (s + 1) n

@[simp] theorem memmove_length (dst src : List UInt8) (d s n : ℕ) :
    (memmove dst src d s n).length = dst.length := by
  induction n generalizing dst d s with
  | zero => rfl
  | succ n ih => simp [memmove, ih]

theorem memmove_eq (dst src : List UInt8) (d s n : ℕ)
    (hs : s + n ≤ src.length) (hd : d + n ≤ dst.length) :
    memmove dst src d s n = dst.take d ++ (src.drop s).take n ++ dst.drop (d + n) := by
  induction n generalizing dst d s with
  | zero => simp [memmove]
  | succ n ih =>
    have hlt : s < src.length := by omega
    have hhead : src.drop s = src.getD s 0 :: src.drop (s + 1) := by
      rw [List.drop_eq_getElem_cons hlt]
      simp [hlt]
    have htake : (dst.set d (src.getD s 0)).take (d + 1) = dst.take d ++ [src.getD s 0] := by
      rw [List.take_add_one, List.take_set_of_le le_rfl]
      simp [show d < dst.length by omega]
    rw [memmove, ih _ _ _ (by omega) (by simpa using by omega), htake, hhead,
      List.take_succ_cons, List.drop_set_of_lt (by omega), show d + 1 + n = d + (n + 1) by omega]
    simp

/-- Reading a block as a C string. -/
def cstr (bytes : List UInt8) : Option (List UInt8) :=
  if 0 ∈ bytes then some (bytes.takeWhile (· ≠ 0)) else none

theorem takeWhile_append_zero (s rest : List UInt8) (hs : 0 ∉ s) :
    (s ++ 0 :: rest).takeWhile (· ≠ 0) = s := by
  rw [List.takeWhile_append_of_pos]
  · simp
  · intro b hb
    simpa using fun h : b = 0 => hs (h ▸ hb)

/-- Text without NUL is what the block reads as exactly when a NUL follows it. -/
theorem cstr_append_iff (s rest : List UInt8) (hs : 0 ∉ s) :
    cstr (s ++ rest) = some s ↔ rest.head? = some 0 := by
  constructor
  · intro h
    have hmem : 0 ∈ s ++ rest := by
      by_contra hc
      simp [cstr, hc] at h
    have htake : (s ++ rest).takeWhile (· ≠ 0) = s := by
      simpa [cstr, hmem] using h
    cases rest with
    | nil => simp [hs] at hmem
    | cons b rest =>
      by_contra hb
      rw [List.takeWhile_append_of_pos (fun c hc => by simpa using fun e : c = 0 => hs (e ▸ hc)),
        List.takeWhile_cons_of_pos (by simpa using hb)] at htake
      simp at htake
  · intro h
    obtain ⟨rest, rfl⟩ : ∃ t, rest = 0 :: t := by
      cases rest with
      | nil => simp at h
      | cons b t => exact ⟨t, by simpa using h⟩
    simpa [cstr] using takeWhile_append_zero s rest hs

end Ostep.ByteBuffer

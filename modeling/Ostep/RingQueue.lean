import Mathlib.Data.BitVec
import Mathlib.Data.List.Basic
import Mathlib.Logic.Function.Basic
import Mathlib.Tactic.Ring

/-!
# Ring buffers with free-running counters

A queue in an array of `N` places under two counters of `w` bits, which run on and wrap: what is
in it is the places from `nread` up to `nwrite`. The counters may wrap when `N` divides `2 ^ w`.
-/

namespace Ostep.RingQueue

variable {α : Type*} {N w : ℕ} [NeZero N]

def index (n : BitVec w) : Fin N := Fin.ofNat N n.toNat

def contents (data : Fin N → α) (nread nwrite : BitVec w) : List α :=
  (List.range (nwrite - nread).toNat).map (fun k => data (index (nread + BitVec.ofNat w k)))

theorem index_add (hN : N ∣ 2 ^ w) (n : BitVec w) (k : ℕ) :
    (index (n + BitVec.ofNat w k) : Fin N).val = (n.toNat + k) % N := by
  simp only [index, Fin.val_ofNat, BitVec.toNat_add, BitVec.toNat_ofNat, Nat.add_mod_mod]
  exact Nat.mod_mod_of_dvd _ hN

theorem index_ne (hN : N ∣ 2 ^ w) {n : BitVec w} {j k : ℕ} (hjk : j < k) (hk : k < j + N) :
    (index (n + BitVec.ofNat w j) : Fin N) ≠ index (n + BitVec.ofNat w k) := by
  intro h
  have hval := congrArg Fin.val h
  rw [index_add hN, index_add hN] at hval
  have hdvd : N ∣ n.toNat + k - (n.toNat + j) := Nat.dvd_of_mod_eq_zero (Nat.sub_mod_eq_zero_of_mod_eq hval.symm)
  have := Nat.le_of_dvd (by omega) hdvd
  omega

/-- The counter that is as far ahead as the queue is long. -/
theorem add_length (nread nwrite : BitVec w) :
    nread + BitVec.ofNat w (nwrite - nread).toNat = nwrite := by
  rw [BitVec.ofNat_toNat, BitVec.setWidth_eq]
  rw [BitVec.add_comm, BitVec.sub_add_cancel]

variable {data : Fin N → α} {nread nwrite : BitVec w}

theorem toNat_succ {n : BitVec w} (h : n.toNat + 1 < 2 ^ w) : (n + 1).toNat = n.toNat + 1 := by
  have hone : (1 : BitVec w).toNat = 1 := by
    have hlt : 1 < 2 ^ w := by omega
    simp [Nat.mod_eq_of_lt hlt]
  rw [BitVec.toNat_add, hone, Nat.mod_eq_of_lt h]

theorem length_store (hlt : (nwrite - nread).toNat + 1 < 2 ^ w) :
    (nwrite + 1 - nread).toNat = (nwrite - nread).toNat + 1 := by
  have hsub : nwrite + 1 - nread = nwrite - nread + 1 := by ring
  rw [hsub, toNat_succ hlt]

theorem contents_store (hN : N ∣ 2 ^ w) (hlt : N < 2 ^ w) (hroom : (nwrite - nread).toNat < N)
    (b : α) : contents (Function.update data (index nwrite) b) nread (nwrite + 1) =
      contents data nread nwrite ++ [b] := by
  rw [contents, length_store (by omega), List.range_succ, List.map_append, List.map_singleton,
    add_length, Function.update_self]
  refine congrArg (· ++ [b]) (List.map_congr_left fun k hk => ?_)
  rw [Function.update_of_ne]
  rw [List.mem_range] at hk
  conv_rhs => rw [← add_length nread nwrite]
  exact index_ne hN hk (by omega)

theorem toNat_succ_lt {n : BitVec w} (h : n + 1 ≠ 0) : n.toNat + 1 < 2 ^ w := by
  by_contra hge
  have hmax : n.toNat + 1 = 2 ^ w := by
    have := n.isLt
    omega
  refine h (BitVec.eq_of_toNat_eq ?_)
  rw [BitVec.toNat_add, BitVec.ofNat_eq_ofNat, BitVec.toNat_ofNat, Nat.add_mod_mod, hmax,
    Nat.mod_self]
  simp

theorem length_fetch (hne : nread ≠ nwrite) :
    (nwrite - nread).toNat = (nwrite - (nread + 1)).toNat + 1 := by
  have hsub : nwrite - nread = nwrite - (nread + 1) + 1 := by ring
  have hpos : nwrite - (nread + 1) + 1 ≠ 0 := by
    rw [← hsub]
    exact fun h => hne (sub_eq_zero.mp h).symm
  rw [hsub, toNat_succ (toNat_succ_lt hpos)]

theorem contents_fetch (hne : nread ≠ nwrite) :
    contents data nread nwrite = data (index nread) :: contents data (nread + 1) nwrite := by
  have hzero : nread + BitVec.ofNat w 0 = nread := by simp
  rw [contents, length_fetch hne, List.range_succ_eq_map, List.map_cons, List.map_map, hzero]
  refine congrArg (data (index nread) :: ·) (List.map_congr_left fun k _ => ?_)
  have hnext : nread + BitVec.ofNat w (k + 1) = nread + 1 + BitVec.ofNat w k := by
    rw [BitVec.ofNat_add, BitVec.add_comm (BitVec.ofNat w k), ← BitVec.add_assoc]
    rfl
  exact congrArg (fun n => data (index n)) hnext

@[simp] theorem length_contents : (contents data nread nwrite).length = (nwrite - nread).toNat := by
  simp [contents]

@[simp] theorem contents_self : contents data nread nread = [] := by
  simp [contents]

/-- A counter between the two others cuts the queue in two. -/
theorem contents_append (mid : BitVec w) (h : (mid - nread).toNat ≤ (nwrite - nread).toNat) :
    contents data nread nwrite = contents data nread mid ++ contents data mid nwrite := by
  have hlen : (nwrite - nread).toNat = (mid - nread).toNat + (nwrite - mid).toNat := by
    have hsub : nwrite - mid = nwrite - nread - (mid - nread) := by ring
    rw [hsub, BitVec.toNat_sub_of_le h]
    omega
  have hmid : ∀ k, nread + BitVec.ofNat w ((mid - nread).toNat + k) = mid + BitVec.ofNat w k := by
    intro k
    rw [BitVec.ofNat_add, ← BitVec.add_assoc, add_length]
  rw [contents, hlen, List.range_add, List.map_append, List.map_map]
  refine congrArg (contents data nread mid ++ ·) (List.map_congr_left fun k _ => ?_)
  exact congrArg (fun n => data (index n)) (hmid k)

end Ostep.RingQueue

import Ostep.Umalloc
import Mathlib.Data.List.Pairwise
import Mathlib.Data.List.Perm.Subperm

/-!
# Blocks of the heap

Free blocks and blocks in use are apart from each other and lie in memory that `sbrk` has given.
Linking a block into the ring, joining it with its neighbours and cutting one keep that.
-/

namespace Ostep.Umalloc
open Hoare SinglyLinked

variable {E : Env} {h h' : Heap} {fl live lo hi : List ℕ} {a b p bp q n : ℕ}

@[simp] theorem set_next (h : Heap) (p : ℕ) (x : Header) :
    (h.set p x).next = Function.update h.next p x.ptr := by
  funext a
  by_cases ha : a = p
  · simp [Heap.next, Heap.set, ha]
  · simp [Heap.next, Heap.set, ha]

@[simp] theorem set_size (h : Heap) (p : ℕ) (x : Header) :
    (h.set p x).size = Function.update h.size p x.size := by
  funext a
  by_cases ha : a = p
  · simp [Heap.size, Heap.set, ha]
  · simp [Heap.size, Heap.set, ha]

/-- The byte `b` is in memory that `sbrk` has given. -/
def Heap.Got (h : Heap) (b : ℕ) : Prop :=
  ∃ n a, (n, some a) ∈ h.calls ∧ a ≤ b ∧ (b : ℤ) < a + n

/-- Where the block at `a` ends. -/
def Heap.stop (h : Heap) (a : ℕ) : ℕ := a + HDR * h.size a

theorem stop_eq (h : Heap) (a : ℕ) : h.stop a = a + 8 * h.size a := rfl

def Apart (h : Heap) (a b : ℕ) : Prop := h.stop a ≤ b ∨ h.stop b ≤ a

structure Block (E : Env) (h : Heap) (a : ℕ) : Prop where
  base_le : E.base + HDR ≤ a
  size_pos : 0 < h.size a
  le_brk : h.stop a ≤ h.brk
  got : ∀ b, a ≤ b → b < h.stop a → h.Got b

/-- `fl` are the free blocks behind `base`, `live` those in use. -/
structure Blocks (E : Env) (h : Heap) (fl live : List ℕ) : Prop where
  ring : Ring h.next E.base fl
  base : h.size E.base = 0
  sorted : (E.base :: fl).Pairwise (· < ·)
  block : ∀ a ∈ fl ++ live, Block E h a
  apart : (fl ++ live).Pairwise (Apart h)
  brk_ge : E.base + HDR ≤ h.brk
  brk_lt : h.brk < 2 ^ 32

theorem Block.base_lt (hb : Block E h a) : E.base < a :=
  Nat.lt_of_lt_of_le (Nat.lt_add_of_pos_right (by decide)) hb.base_le

theorem Apart.symm (hab : Apart h a b) : Apart h b a := Or.symm hab

theorem Block.congr (hb : Block E h a) (hsize : h'.size a = h.size a) (hbrk : h'.brk = h.brk)
    (hcalls : h'.calls = h.calls) : Block E h' a := by
  have hstop : h'.stop a = h.stop a := by rw [Heap.stop, Heap.stop, hsize]
  refine ⟨hb.base_le, hsize ▸ hb.size_pos, by rw [hstop, hbrk]; exact hb.le_brk, fun b hab hlt => ?_⟩
  rw [hstop] at hlt
  rw [Heap.Got, hcalls]
  exact hb.got b hab hlt

theorem Apart.congr (hab : Apart h a b) (ha : h'.size a = h.size a) (hb : h'.size b = h.size b) :
    Apart h' a b := by
  rw [Apart, Heap.stop, Heap.stop, ha, hb]
  exact hab

/-- The units of the blocks at `l`. -/
def Heap.units (h : Heap) (l : List ℕ) : ℕ := (l.map h.size).sum

/-- No free block ends where another one begins. -/
def Heap.Gaps (h : Heap) (fl : List ℕ) : Prop := ∀ a ∈ fl, h.stop a ∉ fl

theorem units_perm {l m : List ℕ} (hperm : l.Perm m) : h.units l = h.units m :=
  (hperm.map h.size).sum_nat

@[simp] theorem units_cons (h : Heap) (a : ℕ) (l : List ℕ) :
    h.units (a :: l) = h.size a + h.units l := List.sum_cons

theorem units_congr {l : List ℕ} (hsize : ∀ a ∈ l, h'.size a = h.size a) :
    h'.units l = h.units l :=
  congrArg List.sum (List.map_congr_left hsize)

/-- What a call does to the units and to the gaps; `n` units are new. -/
structure Kept (h h' : Heap) (fl live fl' live' : List ℕ) (n : ℕ) : Prop where
  units : h'.units (fl' ++ live') = h.units (fl ++ live) + n
  gaps : h.Gaps fl → h'.Gaps fl'

theorem Kept.trans {t : Heap} {fl' live' fl'' live'' : List ℕ} {n m : ℕ}
    (hk : Kept h h' fl live fl' live' n) (hk' : Kept h' t fl' live' fl'' live'' m) :
    Kept h t fl live fl'' live'' (n + m) :=
  ⟨by rw [hk'.units, hk.units, Nat.add_assoc], fun hg => hk'.gaps (hk.gaps hg)⟩

namespace Blocks
variable (B : Blocks E h fl live)
include B

/-- No block begins inside another one. -/
theorem not_inside (ha : a ∈ fl ++ live) (hb : b ∈ fl ++ live) (hab : a < b) : h.stop a ≤ b := by
  have hsymm : Std.Symm (Apart h) := ⟨fun _ _ => Apart.symm⟩
  have hap := B.apart.forall ha hb (Nat.ne_of_lt hab)
  have hpos := (B.block b hb).size_pos
  have hstop := stop_eq h b
  rw [Apart] at hap
  omega

theorem lt_stop (ha : a ∈ fl ++ live) : a < h.stop a := by
  have hpos := (B.block a ha).size_pos
  rw [stop_eq]
  omega

theorem nodup : (E.base :: fl).Nodup := B.sorted.imp fun hlt => Nat.ne_of_lt hlt

theorem lt_brk (ha : a ∈ E.base :: fl) : a < h.brk := by
  rcases List.mem_cons.mp ha with rfl | ha
  · exact Nat.lt_of_lt_of_le (Nat.lt_add_of_pos_right (by decide)) B.brk_ge
  · have hb := B.block a (List.mem_append_left live ha)
    have hle := hb.le_brk
    have hpos := hb.size_pos
    rw [stop_eq] at hle
    omega

theorem length_lt : fl.length < 2 ^ 32 := by
  have hsub : E.base :: fl ⊆ List.range (2 ^ 32) := fun a ha =>
    List.mem_range.mpr (Nat.lt_trans (B.lt_brk ha) B.brk_lt)
  have hle := (B.nodup.subperm hsub).length_le
  rw [List.length_range, List.length_cons] at hle
  omega

/-- Blocks with the same sizes elsewhere in memory. -/
theorem transfer {fl' live' : List ℕ} (hperm : (fl ++ live).Perm (fl' ++ live'))
    (hring : Ring h'.next E.base fl') (hsorted : (E.base :: fl').Pairwise (· < ·))
    (hsize : h'.size = h.size) (hbrk : h'.brk = h.brk) (hcalls : h'.calls = h.calls) :
    Blocks E h' fl' live' where
  ring := hring
  base := hsize ▸ B.base
  sorted := hsorted
  block a ha := (B.block a (hperm.mem_iff.mpr ha)).congr (by rw [hsize]) hbrk hcalls
  apart := ((hperm.pairwise_iff fun h => Apart.symm h).mp B.apart).imp fun hab =>
    hab.congr (by rw [hsize]) (by rw [hsize])
  brk_ge := hbrk ▸ B.brk_ge
  brk_lt := hbrk ▸ B.brk_lt

theorem after_eq (ha : a ∈ fl ++ live) : after a (h.size a) = h.stop a := by
  have hle := (B.block a ha).le_brk
  exact Nat.mod_eq_of_lt (Nat.lt_of_le_of_lt hle B.brk_lt)

end Blocks

/-! ## Where a block belongs -/

theorem split_at {l : List ℕ} (hl : l.Pairwise (· < ·)) (hb : b ∉ l) :
    ∃ lo hi, l = lo ++ hi ∧ (∀ a ∈ lo, a < b) ∧ ∀ a ∈ hi, b < a := by
  induction l with
  | nil => exact ⟨[], [], rfl, by simp, by simp⟩
  | cons c l ih =>
    rw [List.pairwise_cons] at hl
    rw [List.mem_cons, not_or] at hb
    by_cases hc : c < b
    · obtain ⟨lo, hi, rfl, hlo, hhi⟩ := ih hl.2 hb.2
      refine ⟨c :: lo, hi, rfl, fun a ha => ?_, hhi⟩
      rcases List.mem_cons.mp ha with rfl | ha
      · exact hc
      · exact hlo a ha
    · refine ⟨[], c :: l, rfl, by simp, fun a ha => ?_⟩
      rcases List.mem_cons.mp ha with rfl | ha
      · omega
      · have := hl.1 a ha
        omega

/-- A block that is in use is in no free one. -/
theorem Blocks.not_mem (B : Blocks E h fl (bp :: live)) : bp ∉ fl := by
  intro hmem
  have hap := (List.pairwise_append.mp B.apart).2.2 bp hmem bp List.mem_cons_self
  have hpos := (B.block bp (List.mem_append_left _ hmem)).size_pos
  rw [Apart, stop_eq] at hap
  omega

/-- The free block before `bp`, or `base`. -/
def pred (E : Env) (lo : List ℕ) : ℕ := (E.base :: lo).getLast (List.cons_ne_nil _ _)

theorem pred_mem (E : Env) (lo hi : List ℕ) : pred E lo ∈ E.base :: (lo ++ hi) :=
  List.cons_subset_cons _ (List.subset_append_left lo hi) (List.getLast_mem _)

theorem Blocks.next_pred (B : Blocks E h (lo ++ hi) live) :
    h.next (pred E lo) = hi.headD E.base := by
  cases hi with
  | nil =>
    have := B.ring
    rw [List.append_nil] at this
    exact this.last
  | cons c hi => exact (path_append.mp B.ring).1.last

/-! ## The loop of free -/

section FreeLoop
variable (hbp : E.base < bp)

theorem freeLoop_step {fuel : ℕ} (hgo : ¬ (p < bp ∧ bp < h.next p))
    (hgo' : ¬ (h.next p ≤ p ∧ (p < bp ∨ bp < h.next p))) :
    freeLoop bp (fuel + 1) p h = freeLoop bp fuel (h.next p) h := by
  rw [freeLoop, run_get_bind, if_neg hgo, if_neg hgo']

theorem freeLoop_stop {fuel : ℕ}
    (hstop : (p < bp ∧ bp < h.next p) ∨ (h.next p ≤ p ∧ (p < bp ∨ bp < h.next p))) :
    freeLoop bp (fuel + 1) p h = .ok (p, h) := by
  rw [freeLoop, run_get_bind]
  rcases hstop with hs | hs
  · rw [if_pos hs]
    rfl
  · by_cases hs' : p < bp ∧ bp < h.next p
    · rw [if_pos hs']
      rfl
    · rw [if_neg hs', if_pos hs]
      rfl

/-- From a block before `bp`. -/
theorem freeLoop_low {m : List ℕ} {x y fuel : ℕ} (hpath : Path h.next x m y)
    (hsorted : (x :: m).Pairwise (· < ·)) (hlt : ∀ a ∈ x :: m, a < bp)
    (hy : bp < y ∨ ∀ a ∈ x :: m, y ≤ a) (hfuel : m.length < fuel) :
    freeLoop bp fuel x h = .ok ((x :: m).getLast (List.cons_ne_nil _ _), h) := by
  induction m generalizing x fuel with
  | nil =>
    obtain ⟨fuel, rfl⟩ : ∃ k, fuel = k + 1 := ⟨fuel - 1, by simp at hfuel; omega⟩
    have hx := hlt x (by simp)
    have hnext : h.next x = y := hpath
    refine freeLoop_stop ?_
    rw [hnext]
    rcases hy with hy | hy
    · exact .inl ⟨hx, hy⟩
    · exact .inr ⟨hy x (by simp), .inl hx⟩
  | cons b m ih =>
    obtain ⟨fuel, rfl⟩ : ∃ k, fuel = k + 1 := ⟨fuel - 1, by simp at hfuel; omega⟩
    obtain ⟨hnext, hpath⟩ := hpath
    have hb := hlt b (by simp)
    have hxb : x < b := List.rel_of_pairwise_cons hsorted List.mem_cons_self
    rw [freeLoop_step (by rw [hnext]; omega) (by rw [hnext]; omega), hnext,
      ih hpath hsorted.of_cons (fun a ha => hlt a (List.mem_cons_of_mem x ha))
        (hy.imp_right fun hy a ha => hy a (List.mem_cons_of_mem x ha))
        (by simp at hfuel; omega), List.getLast_cons (List.cons_ne_nil b m)]

/-- From a block behind `bp` the loop comes to `base`. -/
theorem freeLoop_high {m : List ℕ} {x y fuel : ℕ} (hpath : Path h.next x m y)
    (hsorted : (x :: m).Pairwise (· < ·)) (hgt : ∀ a ∈ x :: m, bp < a) (hy : y < bp) :
    freeLoop bp (fuel + m.length + 1) x h = freeLoop bp fuel y h := by
  induction m generalizing x with
  | nil =>
    have hx := hgt x (by simp)
    have hnext : h.next x = y := hpath
    rw [freeLoop_step (by omega) (by rw [hnext]; omega), hnext]
    rfl
  | cons b m ih =>
    obtain ⟨hnext, hpath⟩ := hpath
    have hx := hgt x (by simp)
    have hxb : x < b := List.rel_of_pairwise_cons hsorted List.mem_cons_self
    rw [List.length_cons, freeLoop_step (by omega) (by rw [hnext]; omega), hnext, ← Nat.add_assoc]
    exact ih hpath hsorted.of_cons fun a ha => hgt a (List.mem_cons_of_mem x ha)

end FreeLoop

/-! ## Linking and joining -/

theorem set_set (h : Heap) (p : ℕ) (x y : Header) : (h.set p x).set p y = h.set p y := by
  simp only [Heap.set, Function.update_idem]

theorem set_comm (h : Heap) (hpq : p ≠ q) (x y : Header) :
    (h.set p x).set q y = (h.set q y).set p x := by
  simp only [Heap.set, Function.update_comm hpq]

theorem sorted_insert (hs : (E.base :: (lo ++ hi)).Pairwise (· < ·)) (hb : E.base < b)
    (hlo : ∀ a ∈ lo, a < b) (hhi : ∀ a ∈ hi, b < a) :
    (E.base :: (lo ++ b :: hi)).Pairwise (· < ·) := by
  rw [List.pairwise_cons, List.pairwise_append] at hs ⊢
  obtain ⟨hbase, hlolo, hhihi, hlohi⟩ := hs
  refine ⟨fun a ha => ?_, hlolo, List.pairwise_cons.mpr ⟨hhi, hhihi⟩, fun a ha c hc => ?_⟩
  · rcases List.mem_append.mp ha with ha | ha
    · exact hbase a (List.mem_append_left hi ha)
    · rcases List.mem_cons.mp ha with rfl | ha
      · exact hb
      · exact hbase a (List.mem_append_right lo ha)
  · rcases List.mem_cons.mp hc with rfl | hc
    · exact hlo a ha
    · exact hlohi a ha c hc

theorem sorted_remove (hs : (E.base :: (lo ++ b :: hi)).Pairwise (· < ·)) :
    (E.base :: (lo ++ hi)).Pairwise (· < ·) :=
  hs.sublist (((List.sublist_cons_self b hi).append_left lo).cons_cons _)

theorem pred_ne (hb : b ∉ E.base :: lo) : pred E lo ≠ b := by
  rintro rfl
  exact hb (List.getLast_mem _)

theorem insert_perm (lo hi live : List ℕ) (b : ℕ) :
    ((lo ++ hi) ++ b :: live).Perm ((lo ++ b :: hi) ++ live) := by
  have h₁ : ((lo ++ hi) ++ b :: live).Perm (b :: ((lo ++ hi) ++ live)) := List.perm_middle
  have h₂ : ((lo ++ b :: hi) ++ live).Perm (b :: ((lo ++ hi) ++ live)) := by
    rw [List.append_assoc, List.append_assoc, List.cons_append]
    exact List.perm_middle
  exact h₁.trans h₂.symm

/-- A block in use becomes a free one. -/
theorem Blocks.insert (B : Blocks E h (lo ++ hi) (bp :: live)) (hlo : ∀ a ∈ lo, a < bp)
    (hhi : ∀ a ∈ hi, bp < a) :
    Blocks E ((h.set bp ⟨hi.headD E.base, h.size bp⟩).set (pred E lo) ⟨bp, h.size (pred E lo)⟩)
      (lo ++ bp :: hi) live := by
  have hbase := (B.block bp (by simp)).base_lt
  have hmem : bp ∉ E.base :: (lo ++ hi) := by
    rw [List.mem_cons, not_or]
    exact ⟨by omega, B.not_mem⟩
  refine B.transfer (insert_perm lo hi live bp) ?_ (sorted_insert B.sorted hbase hlo hhi) ?_ rfl rfl
  · rw [set_next, set_next]
    exact Path.insert B.ring B.nodup hmem rfl B.next_pred
  · rw [set_size, set_size, Function.update_eq_self, Function.update_eq_self]

/-- A free block takes the next one, which begins where it ends. -/
theorem Blocks.join (B : Blocks E h (lo ++ a :: b :: hi) live) (hab : h.stop a = b) :
    Blocks E (h.set a ⟨h.next b, h.size a + h.size b⟩) (lo ++ a :: hi) live := by
  have ha := B.block a (by simp)
  have hb := B.block b (by simp)
  have hsplit : lo ++ a :: b :: hi = (lo ++ [a]) ++ b :: hi := by simp
  have hsplit' : lo ++ a :: hi = (lo ++ [a]) ++ hi := by simp
  have hpair := B.apart
  have hperm : ((lo ++ a :: b :: hi) ++ live).Perm (a :: b :: (lo ++ hi ++ live)) := by
    have h₁ : (lo ++ a :: b :: hi).Perm (a :: b :: (lo ++ hi)) :=
      List.perm_middle.trans (List.Perm.cons a List.perm_middle)
    exact (h₁.append_right live)
  have hperm' : ((lo ++ a :: hi) ++ live).Perm (a :: (lo ++ hi ++ live)) :=
    List.perm_middle.append_right live
  have hap := (hperm.pairwise_iff fun h => Apart.symm h).mp hpair
  rw [List.pairwise_cons, List.pairwise_cons] at hap
  obtain ⟨haother, hbother, hrest⟩ := hap
  set h' := h.set a ⟨h.next b, h.size a + h.size b⟩ with hh'
  have hself : h'.size a = h.size a + h.size b := by rw [hh', set_size, Function.update_self]
  have hother : ∀ c, c ≠ a → h'.size c = h.size c := fun c hc => by
    rw [hh', set_size, Function.update_of_ne hc]
  have hne : ∀ c ∈ lo ++ hi ++ live, c ≠ a := by
    rintro c hc rfl
    have := haother c (List.mem_cons_of_mem b hc)
    have hpos := ha.size_pos
    rw [Apart, stop_eq] at this
    omega
  have hstop : h'.stop a = h.stop b := by
    have h₁ := stop_eq h' a
    have h₂ := stop_eq h a
    have h₃ := stop_eq h b
    rw [hself] at h₁
    omega
  have hblock : ∀ c ∈ lo ++ hi ++ live, Block E h' c := fun c hc =>
    (B.block c (hperm.mem_iff.mpr (List.mem_cons_of_mem a (List.mem_cons_of_mem b hc)))).congr
      (hother c (hne c hc)) rfl rfl
  have hbase : E.base ≠ a := Nat.ne_of_lt ha.base_lt
  refine ⟨?_, ?_, ?_, fun c hc => ?_, ?_, B.brk_ge, B.brk_lt⟩
  · have hring := B.ring
    have hnodup := B.nodup
    rw [hsplit] at hring hnodup
    rw [hh', set_next, hsplit']
    refine Path.remove hring hnodup ?_ rfl
    rw [List.getLast_cons (by simp)]
    simp
  · rw [hother _ hbase, B.base]
  · have hsorted := B.sorted
    rw [hsplit] at hsorted
    rw [hsplit']
    exact sorted_remove hsorted
  · rcases List.mem_cons.mp (hperm'.mem_iff.mp hc) with rfl | hc
    · refine ⟨ha.base_le, ?_, ?_, fun x hx hlt => ?_⟩
      · rw [hself]
        exact Nat.add_pos_left ha.size_pos _
      · rw [hstop]
        exact hb.le_brk
      · rw [hstop] at hlt
        by_cases hxb : x < b
        · exact ha.got x hx (hab ▸ hxb)
        · exact hb.got x (by omega) hlt
    · exact hblock c hc
  · refine (hperm'.pairwise_iff fun h => Apart.symm h).mpr (List.pairwise_cons.mpr ⟨?_, ?_⟩)
    · intro c hc
      have hca := haother c (List.mem_cons_of_mem b hc)
      have hcb := hbother c hc
      have hpos := (B.block c (hperm.mem_iff.mpr
        (List.mem_cons_of_mem a (List.mem_cons_of_mem b hc)))).size_pos
      rw [Apart, hstop]
      rw [Apart] at hca hcb
      have hsc : h'.stop c = h.stop c := by rw [stop_eq, stop_eq, hother c (hne c hc)]
      rw [hsc]
      have hstopc := stop_eq h c
      omega
    · exact hrest.imp_of_mem fun hx hy hxy =>
        hxy.congr (hother _ (hne _ hx)) (hother _ (hne _ hy))

theorem Blocks.join_units (B : Blocks E h (lo ++ a :: b :: hi) live) (nx : ℕ) :
    (h.set a ⟨nx, h.size a + h.size b⟩).units ((lo ++ a :: hi) ++ live) =
      h.units ((lo ++ a :: b :: hi) ++ live) := by
  have hperm : ((lo ++ a :: b :: hi) ++ live).Perm (a :: b :: (lo ++ hi ++ live)) :=
    (List.perm_middle.trans (List.Perm.cons a List.perm_middle)).append_right live
  have hperm' : ((lo ++ a :: hi) ++ live).Perm (a :: (lo ++ hi ++ live)) :=
    List.perm_middle.append_right live
  have hne : ∀ c ∈ lo ++ hi ++ live, c ≠ a := by
    rintro c hc rfl
    have hap := (hperm.pairwise_iff fun h => Apart.symm h).mp B.apart
    have hcc := (List.pairwise_cons.mp hap).1 c (List.mem_cons_of_mem b hc)
    have hlt := B.lt_stop (a := c) (by simp)
    rw [Apart] at hcc
    omega
  have hrest : (h.set a ⟨nx, h.size a + h.size b⟩).units (lo ++ hi ++ live) =
      h.units (lo ++ hi ++ live) :=
    units_congr fun c hc => by rw [set_size, Function.update_of_ne (hne c hc)]
  rw [units_perm hperm, units_perm hperm', units_cons, units_cons, units_cons, hrest, set_size,
    Function.update_self, Nat.add_assoc]

/-! ## free -/

theorem freeLoop_spec (B : Blocks E h (lo ++ hi) live) (hb : E.base < bp) (hlo : ∀ a ∈ lo, a < bp)
    (hhi : ∀ a ∈ hi, bp < a) (hp : p ∈ E.base :: (lo ++ hi)) :
    freeLoop bp FUEL p h = .ok (pred E lo, h) := by
  have hfuel : FUEL = 17179869184 := rfl
  have hlen := B.length_lt
  rw [List.length_append] at hlen
  have hsorted := B.sorted
  rw [← List.cons_append, List.pairwise_append] at hsorted
  obtain ⟨hlow, hhigh, -⟩ := hsorted
  have hbase : ∀ a ∈ E.base :: lo, E.base ≤ a := fun a ha => by
    rcases List.mem_cons.mp ha with rfl | ha
    · exact Nat.le_refl _
    · exact Nat.le_of_lt (List.rel_of_pairwise_cons hlow ha)
  have hlt : ∀ a ∈ E.base :: lo, a < bp := fun a ha => by
    rcases List.mem_cons.mp ha with rfl | ha
    · exact hb
    · exact hlo a ha
  -- The way from `base` to the block behind `bp`, or back to `base`.
  obtain ⟨y, hpath, hy⟩ : ∃ y, Path h.next E.base lo y ∧
      (bp < y ∨ ∀ a ∈ E.base :: lo, y ≤ a) := by
    cases hi with
    | nil =>
      have := B.ring
      rw [List.append_nil] at this
      exact ⟨_, this, .inr hbase⟩
    | cons c hi => exact ⟨c, (path_append.mp B.ring).1, .inl (hhi c (by simp))⟩
  have hfrom : ∀ l₁ l₂ x, E.base :: lo = l₁ ++ x :: l₂ → ∀ fuel, lo.length < fuel →
      freeLoop bp fuel x h = .ok (pred E lo, h) := by
    intro l₁ l₂ x hsplit fuel hfuel
    have hx : Path h.next x l₂ y := by
      cases l₁ with
      | nil =>
        obtain ⟨rfl, rfl⟩ := List.cons.inj hsplit
        exact hpath
      | cons c l₁ =>
        obtain ⟨rfl, rfl⟩ := List.cons.inj hsplit
        exact (path_append.mp hpath).2
    have hsub : ∀ a ∈ x :: l₂, a ∈ E.base :: lo := fun a ha => by
      rw [hsplit]
      exact List.mem_append_right l₁ ha
    have hlen₂ : l₂.length ≤ lo.length := by
      have := congrArg List.length hsplit
      simp only [List.length_cons, List.length_append] at this
      omega
    have hrun := @freeLoop_low _ bp _ _ _ _ hx
      ((hsplit ▸ hlow).sublist (List.sublist_append_right l₁ _))
      (fun a ha => hlt a (hsub a ha)) (hy.imp_right fun hy a ha => hy a (hsub a ha))
      (Nat.lt_of_le_of_lt hlen₂ hfuel)
    rw [hrun, pred]
    congr 2
    simp only [hsplit]
    exact (List.getLast_append_of_ne_nil _ (List.cons_ne_nil x l₂)).symm
  rw [← List.cons_append, List.mem_append] at hp
  rcases hp with hp | hp
  · obtain ⟨l₁, l₂, hsplit⟩ := List.append_of_mem hp
    exact hfrom l₁ l₂ p hsplit FUEL (by omega)
  · obtain ⟨l₁, l₂, rfl⟩ := List.append_of_mem hp
    have hring := B.ring
    rw [← List.append_assoc] at hring
    have hx : Path h.next p l₂ E.base := (path_append.mp hring).2
    have hlen₂ : l₂.length < 2 ^ 32 := by
      simp only [List.length_append, List.length_cons] at hlen
      omega
    obtain ⟨k, hk⟩ : ∃ k, FUEL = k + l₂.length + 1 := ⟨FUEL - l₂.length - 1, by omega⟩
    rw [hk, freeLoop_high hx (hhigh.sublist (List.sublist_append_right l₁ _))
      (fun a ha => hhi a (List.mem_append_right l₁ ha)) hb]
    exact hfrom [] lo E.base rfl k (by omega)

/-- After the upper end of `bp` has been seen to, once `p` is linked to `bp`. -/
theorem Blocks.joinUpper (B : Blocks E h (lo ++ hi) (bp :: live)) (hlo : ∀ a ∈ lo, a < bp)
    (hhi : ∀ a ∈ hi, bp < a) :
    ∃ hi' h', h' = (h.joinUpper (pred E lo) bp).set (pred E lo) ⟨bp, h.size (pred E lo)⟩ ∧
      Blocks E h' (lo ++ bp :: hi') live ∧ h.size bp ≤ (h.joinUpper (pred E lo) bp).size bp ∧
      h'.units ((lo ++ bp :: hi') ++ live) = h.units ((lo ++ hi) ++ bp :: live) ∧
      (h.Gaps (lo ++ hi) → ∀ a ∈ lo ++ bp :: hi', h'.stop a ∈ lo ++ bp :: hi' → h'.stop a = bp) := by
  have hbp := B.block bp (by simp)
  have hbase := hbp.base_lt
  have hins := B.insert hlo hhi
  have hafter : after bp (h.size bp) = h.stop bp := B.after_eq (by simp)
  rw [Heap.joinUpper, hafter, B.next_pred]
  split_ifs with hc'
  · obtain ⟨q, hi', rfl⟩ : ∃ q hi', hi = q :: hi' := by
      cases hi with
      | nil =>
        have hstop := stop_eq h bp
        have hq : h.stop bp = E.base := hc'
        omega
      | cons q hi' => exact ⟨q, hi', rfl⟩
    change h.stop bp = q at hc'
    have hmem : bp ∉ E.base :: lo := by
      intro hm
      rcases List.mem_cons.mp hm with rfl | hm
      · omega
      · exact absurd (hlo bp hm) (Nat.lt_irrefl _)
    have hpbp : pred E lo ≠ bp := pred_ne hmem
    have hqbp : q ≠ bp := Nat.ne_of_gt (hhi q List.mem_cons_self)
    have hqp : q ≠ pred E lo := by
      intro he
      have hnodup := B.nodup
      rw [← List.cons_append] at hnodup
      have := (List.nodup_append.mp hnodup).2.2 (pred E lo) (List.getLast_mem _) q
        List.mem_cons_self
      exact this he.symm
    rw [List.headD_cons] at hins
    set H := (h.set bp ⟨q, h.size bp⟩).set (pred E lo) ⟨bp, h.size (pred E lo)⟩ with hH
    have hHsize : H.size = h.size := by
      rw [hH, set_size, set_size, Function.update_eq_self, Function.update_eq_self]
    have hHq : H.next q = h.next q := by
      rw [hH, set_next, set_next, Function.update_of_ne hqp, Function.update_of_ne hqbp]
    have hjoin := hins.join (by rw [stop_eq, hHsize, ← stop_eq]; exact hc')
    change Blocks E (H.set bp ⟨H.next q, H.size bp + H.size q⟩) (lo ++ bp :: hi') live at hjoin
    have hsize : (h.size bp + h.size q) % 2 ^ 32 = h.size bp + h.size q := by
      have hle := (hjoin.block bp (by simp)).le_brk
      have hlt := B.brk_lt
      rw [stop_eq, set_size, Function.update_self, hHsize] at hle
      change bp + 8 * (h.size bp + h.size q) ≤ h.brk at hle
      exact Nat.mod_eq_of_lt (by omega)
    have hunits := hins.join_units (H.next q)
    have hsame : H.set bp ⟨H.next q, H.size bp + H.size q⟩ =
        (h.set bp ⟨h.next q, h.size bp + h.size q⟩).set (pred E lo) ⟨bp, h.size (pred E lo)⟩ := by
      rw [hHsize, hHq, hH, set_comm _ hpbp, set_set]
    rw [List.headD_cons, hsize]
    refine ⟨hi', H.set bp ⟨H.next q, H.size bp + H.size q⟩, hsame, hjoin, ?_, ?_, ?_⟩
    · rw [set_size, Function.update_self]
      exact Nat.le_add_right _ _
    · rw [hunits, units_perm (insert_perm lo (q :: hi') live bp)]
      exact units_congr fun c _ => congrFun hHsize c
    · intro hgap c hc hin
      have hout : h.stop c ∉ lo ++ q :: hi' ∨ c = bp := by
        by_cases hcb : c = bp
        · exact .inr hcb
        · refine .inl (hgap c ?_)
          simp only [List.mem_append, List.mem_cons] at hc ⊢
          tauto
      have hstopbp : h.stop bp + 8 * h.size q = h.stop q := by rw [hc', stop_eq]
      have hstop : (H.set bp ⟨H.next q, H.size bp + H.size q⟩).stop c =
          if c = bp then h.stop q else h.stop c := by
        rw [stop_eq, set_size, hHsize]
        split_ifs with hcb
        · subst hcb
          rw [Function.update_self, ← hstopbp, stop_eq]
          change c + 8 * (h.size c + h.size q) = _
          omega
        · rw [Function.update_of_ne hcb, stop_eq]
      have hnot : h.stop q ∉ lo ++ q :: hi' := hgap q (by simp)
      rw [hstop] at hin ⊢
      simp only [List.mem_append, List.mem_cons] at hin hout hnot
      split_ifs at hin ⊢ with hcb <;> tauto
  · have hHsize : ((h.set bp ⟨hi.headD E.base, h.size bp⟩).set (pred E lo)
        ⟨bp, h.size (pred E lo)⟩).size = h.size := by
      rw [set_size, set_size, Function.update_eq_self, Function.update_eq_self]
    refine ⟨hi, _, rfl, hins, ?_, ?_, fun hgap c hc hin => ?_⟩
    · simp only [set_size, Function.update_self, Nat.le_refl]
    · rw [units_perm (insert_perm lo hi live bp)]
      exact units_congr fun c _ => congrFun hHsize c
    · rw [stop_eq, hHsize, ← stop_eq] at hin ⊢
      by_contra hne
      have hin' : h.stop c ∈ lo ++ hi := by
        simp only [List.mem_append, List.mem_cons] at hin ⊢
        tauto
      by_cases hcb : c = bp
      · subst hcb
        -- The first block behind `bp` would lie between `bp` and its end.
        have hlt := B.lt_stop (a := c) (by simp)
        rcases List.mem_append.mp hin' with hin | hin
        · have := hlo _ hin
          omega
        · cases hi with
          | nil => cases hin
          | cons q hi' =>
            have hq := hhi q List.mem_cons_self
            have hle := B.not_inside (a := c) (b := q) (by simp) (by simp) hq
            have hsorted := (List.pairwise_append.mp B.sorted.of_cons).2.1
            rcases List.mem_cons.mp hin with heq | hin
            · exact hc' heq
            · have := List.rel_of_pairwise_cons hsorted hin
              omega
      · refine hgap c ?_ hin'
        simp only [List.mem_append, List.mem_cons] at hc ⊢
        tauto

/-- And the lower end. -/
theorem Blocks.joinLower {hi' : List ℕ} (hlink : Blocks E (h.set p ⟨bp, h.size p⟩)
    (lo ++ bp :: hi') live) (hp : pred E lo = p) (hpbp : p ≠ bp) :
    ∃ fl', Blocks E (h.joinLower p bp) fl' live ∧ p ∈ E.base :: fl' ∧
      (∃ x ∈ fl', h.size bp ≤ (h.joinLower p bp).size x) ∧
      (h.joinLower p bp).units (fl' ++ live) = h.units ((lo ++ bp :: hi') ++ live) ∧
      ((∀ a ∈ lo ++ bp :: hi', h.stop a ∈ lo ++ bp :: hi' → h.stop a = bp) →
        (h.joinLower p bp).Gaps fl') := by
  set H := h.set p ⟨bp, h.size p⟩ with hH
  have hHsize : H.size = h.size := by rw [hH, set_size, Function.update_eq_self]
  have hHbp : H.next bp = h.next bp := by
    rw [hH, set_next, Function.update_of_ne hpbp.symm]
  have hpmem : p ∈ E.base :: lo := hp ▸ List.getLast_mem _
  have hbpblock := hlink.block bp (by simp)
  have hbase := hlink.base
  rw [hHsize] at hbase
  by_cases hc : after p (h.size p) = bp
  · rw [Heap.joinLower, if_pos hc]
    -- `p` is not `base`, which is empty.
    have hpb : p ≠ E.base := by
      rintro rfl
      have hlt := hlink.brk_lt
      have hge := hlink.brk_ge
      have hb8 : E.base + 8 ≤ H.brk := hge
      rw [after, hbase, Nat.mul_zero, Nat.add_zero, Nat.mod_eq_of_lt (by omega)] at hc
      exact hpbp hc
    obtain ⟨lo', rfl⟩ : ∃ lo', lo = lo' ++ [p] := by
      rcases List.eq_nil_or_concat' lo with rfl | ⟨lo', c, rfl⟩
      · exact absurd hp.symm hpb
      · refine ⟨lo', ?_⟩
        have : pred E (lo' ++ [c]) = c := by
          rw [pred, List.getLast_cons (by simp)]
          simp
        rw [← this, hp]
    rw [List.append_assoc, List.singleton_append] at hlink
    have hstop : after p (h.size p) = H.stop p := by
      rw [← hHsize]
      exact hlink.after_eq (by simp)
    have hjoin := hlink.join (hstop.symm.trans hc)
    have hsize : (h.size p + h.size bp) % 2 ^ 32 = h.size p + h.size bp := by
      have hle := (hjoin.block p (by simp)).le_brk
      have hlt := hlink.brk_lt
      rw [stop_eq, set_size, Function.update_self, hHsize] at hle
      change p + 8 * (h.size p + h.size bp) ≤ H.brk at hle
      exact Nat.mod_eq_of_lt (by omega)
    have hunits := hlink.join_units (H.next bp)
    rw [hHsize, hHbp, hH, set_set] at hjoin hunits
    rw [hsize]
    refine ⟨_, hjoin, by simp, ⟨p, by simp, ?_⟩, ?_, fun htouch c hc' hin => ?_⟩
    · rw [set_size, Function.update_self]
      exact Nat.le_add_left _ _
    · rw [hunits, List.append_assoc lo' [p], List.singleton_append]
      exact units_congr fun c _ => congrFun hHsize c
    · -- Only `bp` could begin where a block ends, and it is no longer a block.
      have hstopp : h.stop p = bp := by rw [← hc, hstop, stop_eq, stop_eq, hHsize]
      have hstopc : (h.set p ⟨h.next bp, h.size p + h.size bp⟩).stop c =
          if c = p then h.stop bp else h.stop c := by
        rw [stop_eq, set_size]
        split_ifs with hcp
        · subst hcp
          rw [Function.update_self]
          rw [stop_eq] at hstopp ⊢
          change c + 8 * (h.size c + h.size bp) = _
          omega
        · rw [Function.update_of_ne hcp, stop_eq]
      have hnodup := hlink.nodup.of_cons
      have hbp' : bp ∉ lo' ++ p :: hi' := by
        have hperm : (lo' ++ p :: bp :: hi').Perm (bp :: (lo' ++ p :: hi')) := by
          rw [show lo' ++ p :: bp :: hi' = (lo' ++ [p]) ++ bp :: hi' by simp,
            show lo' ++ p :: hi' = (lo' ++ [p]) ++ hi' by simp]
          exact List.perm_middle
        exact (List.nodup_cons.mp (hperm.nodup_iff.mp hnodup)).1
      have hsub : ∀ x ∈ lo' ++ p :: hi', x ∈ lo' ++ [p] ++ bp :: hi' := fun x hx => by
        simp only [List.mem_append, List.mem_cons] at hx ⊢
        tauto
      have hself : h.stop bp = bp → False := fun heq => by
        have hpos := hbpblock.size_pos
        rw [hHsize] at hpos
        rw [stop_eq] at heq
        omega
      rw [hstopc] at hin
      split_ifs at hin with hcp
      · exact hself (htouch bp (by simp) (hsub _ hin))
      · have heq := htouch c (hsub c hc') (hsub _ hin)
        rw [heq] at hin
        exact hbp' hin
  · rw [Heap.joinLower, if_neg hc]
    refine ⟨_, hlink, ?_, ⟨bp, by simp, ?_⟩, ?_, fun htouch c hc' hin => ?_⟩
    · exact List.cons_subset_cons _ (List.subset_append_left lo _) hpmem
    · simp only [← hH, hHsize, Nat.le_refl]
    · exact units_congr fun c _ => congrFun hHsize c
    · rw [stop_eq, hHsize, ← stop_eq] at hin
      have hstop := htouch c hc' hin
      have hHstop : H.stop c = bp := by rw [stop_eq, hHsize, ← stop_eq, hstop]
      have hlt := hlink.lt_stop (List.mem_append_left live hc')
      have hsorted := hlink.sorted
      rw [← List.cons_append, List.pairwise_append] at hsorted
      have hclo : c ∈ lo := by
        rcases List.mem_append.mp hc' with hclo | hclo
        · exact hclo
        · rcases List.mem_cons.mp hclo with rfl | hhi
          · omega
          · have := List.rel_of_pairwise_cons hsorted.2.1 hhi
            omega
      by_cases hcp : c = p
      · subst hcp
        rw [← hHsize, hlink.after_eq (List.mem_append_left live hc')] at hc
        exact hc hHstop
      · -- `c` lies before `p`, so it ends there at the latest.
        obtain ⟨lo', d, rfl⟩ : ∃ lo' d, lo = lo' ++ [d] := by
          rcases List.eq_nil_or_concat' lo with rfl | ⟨lo', d, rfl⟩
          · cases hclo
          · exact ⟨lo', d, rfl⟩
        have hd : d = p := by
          rw [← hp, pred, List.getLast_cons (by simp)]
          simp
        subst hd
        have hlo' : c ∈ lo' := by simpa [hcp] using hclo
        have hcd : c < d := (List.pairwise_append.mp hsorted.1.of_cons).2.2 c hlo' d (by simp)
        have hle := hlink.not_inside (List.mem_append_left live hc') (b := d) (by simp) hcd
        have hdb : d < bp := hsorted.2.2 d (by simp) bp (by simp)
        omega

theorem joinUpper_env (h : Heap) (p bp : ℕ) : (h.joinUpper p bp).freep = h.freep ∧
    (h.joinUpper p bp).brk = h.brk ∧ (h.joinUpper p bp).calls = h.calls := by
  rw [Heap.joinUpper]
  split_ifs <;> exact ⟨rfl, rfl, rfl⟩

theorem joinLower_env (h : Heap) (p bp : ℕ) : (h.joinLower p bp).freep = h.freep ∧
    (h.joinLower p bp).brk = h.brk ∧ (h.joinLower p bp).calls = h.calls := by
  rw [Heap.joinLower]
  split_ifs <;> exact ⟨rfl, rfl, rfl⟩

theorem free_spec (B : Blocks E h fl (bp :: live)) (hf : h.freep ∈ E.base :: fl) :
    ∃ h' fl', free (after bp 1) h = .ok ((), h') ∧ Blocks E h' fl' live ∧
      h'.freep ∈ E.base :: fl' ∧ h'.brk = h.brk ∧ h'.calls = h.calls ∧
      (∃ x ∈ fl', h.size bp ≤ h'.size x) ∧ Kept h h' fl (bp :: live) fl' live 0 := by
  have hbp := B.block bp (by simp)
  obtain ⟨lo, hi, rfl, hlo, hhi⟩ := split_at B.sorted.of_cons B.not_mem
  have hbefore : before (after bp 1) = bp := by
    have hle := hbp.le_brk
    have hlt := B.brk_lt
    have hpos := hbp.size_pos
    rw [stop_eq] at hle
    change ((bp + 8 * 1) % 2 ^ 32 + 2 ^ 32 - 8) % 2 ^ 32 = bp
    omega
  have hmem : bp ∉ E.base :: lo := by
    intro hm
    rcases List.mem_cons.mp hm with rfl | hm
    · exact absurd hbp.base_lt (Nat.lt_irrefl _)
    · exact absurd (hlo bp hm) (Nat.lt_irrefl _)
  have hpbp := pred_ne hmem
  obtain ⟨hi', h', rfl, hup, hle, hunits, htouch⟩ := B.joinUpper hlo hhi
  have hsp : (h.joinUpper (pred E lo) bp).size (pred E lo) = h.size (pred E lo) := by
    rw [Heap.joinUpper]
    split_ifs <;> rw [set_size, Function.update_of_ne hpbp]
  rw [← hsp] at hup hunits htouch
  have hsame : ((h.joinUpper (pred E lo) bp).set (pred E lo)
      ⟨bp, (h.joinUpper (pred E lo) bp).size (pred E lo)⟩).size =
      (h.joinUpper (pred E lo) bp).size := by rw [set_size, Function.update_eq_self]
  obtain ⟨fl', hlow, hpred, ⟨x, hx, hxle⟩, hunits', hgaps⟩ := hup.joinLower rfl hpbp
  have henv := joinUpper_env h (pred E lo) bp
  have henv' := joinLower_env (h.joinUpper (pred E lo) bp) (pred E lo) bp
  refine ⟨{ (h.joinUpper (pred E lo) bp).joinLower (pred E lo) bp with freep := pred E lo }, fl',
    ?_, ?_, hpred, henv'.2.1.trans henv.2.1, henv'.2.2.trans henv.2.2,
    ⟨x, hx, Nat.le_trans hle hxle⟩, ?_, fun hgap => hgaps ?_⟩
  · rw [free, run_get_bind, hbefore, run_bind_ok (freeLoop_spec B hbp.base_lt hlo hhi hf)]
    rfl
  · exact hlow.transfer (.refl _) hlow.ring hlow.sorted rfl rfl rfl
  · refine (hunits'.trans ?_).trans hunits
    exact (units_congr fun c _ => congrFun hsame c).symm
  · intro a ha hstop
    have hta := htouch hgap a ha
    rw [stop_eq, hsame, ← stop_eq] at hta
    exact hta hstop

end Ostep.Umalloc

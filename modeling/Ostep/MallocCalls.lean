import Ostep.MallocBlocks

/-!
# Calls of malloc

What a call of `malloc` gives, and which requests are answered by a block that is large enough.
A request whose bytes and header do not fit in a `uint` is counted as one unit; one of more than
half the address space that no free block meets is asked of `sbrk` with a negative number.
-/

namespace Ostep.Umalloc
open Hoare SinglyLinked TransitionSystem

variable {E : Env} {h h' t : Heap} {fl live lo hi : List ℕ} {a b p prevp q n m nbytes r : ℕ}

/-! ## Cutting a block -/

/-- The free block `p` keeps its first `m` units, the rest is in use. -/
theorem Blocks.cut (B : Blocks E h (lo ++ p :: hi) live) (hm : 0 < m) (hmp : m < h.size p) :
    Blocks E ((h.set p ⟨h.next p, m⟩).set (p + HDR * m) ⟨h.next (p + HDR * m), h.size p - m⟩)
      (lo ++ p :: hi) ((p + HDR * m) :: live) := by
  have hp := B.block p (by simp)
  obtain ⟨q, hq⟩ : ∃ q, p + HDR * m = q := ⟨_, rfl⟩
  have hq8 : q = p + 8 * m := hq.symm
  rw [hq]
  have hperm : ((lo ++ p :: hi) ++ live).Perm (p :: (lo ++ hi ++ live)) :=
    List.perm_middle.append_right live
  have hperm' : ((lo ++ p :: hi) ++ q :: live).Perm (p :: q :: (lo ++ hi ++ live)) :=
    (List.perm_middle.append_right _).trans (List.Perm.cons p List.perm_middle)
  have hap := (hperm.pairwise_iff fun h => Apart.symm h).mp B.apart
  rw [List.pairwise_cons] at hap
  obtain ⟨hpother, hrest⟩ := hap
  have hqp : q ≠ p := by omega
  set h' := (h.set p ⟨h.next p, m⟩).set q ⟨h.next q, h.size p - m⟩ with hh'
  have hsp : h'.size p = m := by
    rw [hh', set_size, set_size, Function.update_of_ne hqp.symm, Function.update_self]
  have hsq : h'.size q = h.size p - m := by rw [hh', set_size, Function.update_self]
  have hother : ∀ c, c ≠ p → c ≠ q → h'.size c = h.size c := fun c hcp hcq => by
    rw [hh', set_size, set_size, Function.update_of_ne hcq, Function.update_of_ne hcp]
  have hstopp := stop_eq h p
  have hstopp' := stop_eq h' p
  have hstopq' := stop_eq h' q
  rw [hsp] at hstopp'
  rw [hsq] at hstopq'
  have hne : ∀ c ∈ lo ++ hi ++ live, c ≠ p ∧ c ≠ q := by
    intro c hc
    have hcap := hpother c hc
    have hpos := (B.block c (hperm.mem_iff.mpr (List.mem_cons_of_mem p hc))).size_pos
    have hstopc := stop_eq h c
    rw [Apart] at hcap
    constructor <;> rintro rfl <;> omega
  have hblock : ∀ c ∈ lo ++ hi ++ live, Block E h' c := fun c hc =>
    (B.block c (hperm.mem_iff.mpr (List.mem_cons_of_mem p hc))).congr
      (hother c (hne c hc).1 (hne c hc).2) rfl rfl
  have hbase := hp.base_lt
  have hle := hp.le_brk
  refine ⟨?_, ?_, B.sorted, fun c hc => ?_, ?_, B.brk_ge, B.brk_lt⟩
  · rw [hh', set_next, set_next, Function.update_eq_self, Function.update_eq_self]
    exact B.ring
  · rw [hother E.base (by omega) (by omega), B.base]
  · rcases List.mem_cons.mp (hperm'.mem_iff.mp hc) with rfl | hc
    · refine ⟨hp.base_le, hsp ▸ hm, ?_, fun x hx hlt => hp.got x hx (by omega)⟩
      change h'.stop c ≤ h.brk
      omega
    rcases List.mem_cons.mp hc with rfl | hc
    · have hpbase := hp.base_le
      refine ⟨by omega, by omega, ?_, fun x hx hlt => hp.got x (by omega) (by omega)⟩
      change h'.stop c ≤ h.brk
      omega
    · exact hblock c hc
  · refine (hperm'.pairwise_iff fun h => Apart.symm h).mpr
      (List.pairwise_cons.mpr ⟨?_, List.pairwise_cons.mpr ⟨?_, ?_⟩⟩)
    · intro c hc
      rcases List.mem_cons.mp hc with rfl | hc
      · exact .inl (by omega)
      · have hcap := hpother c hc
        have hstopc : h'.stop c = h.stop c := by
          rw [stop_eq, stop_eq, hother c (hne c hc).1 (hne c hc).2]
        rw [Apart] at hcap ⊢
        omega
    · intro c hc
      have hcap := hpother c hc
      have hstopc : h'.stop c = h.stop c := by
        rw [stop_eq, stop_eq, hother c (hne c hc).1 (hne c hc).2]
      rw [Apart] at hcap ⊢
      omega
    · exact hrest.imp_of_mem fun hx hy hxy =>
        hxy.congr (hother _ (hne _ hx).1 (hne _ hx).2) (hother _ (hne _ hy).1 (hne _ hy).2)

theorem Blocks.cut_kept (B : Blocks E h (lo ++ p :: hi) live) (hm : 0 < m) (hmp : m < h.size p) :
    Kept h ((h.set p ⟨h.next p, m⟩).set (p + HDR * m) ⟨h.next (p + HDR * m), h.size p - m⟩)
      (lo ++ p :: hi) live (lo ++ p :: hi) ((p + HDR * m) :: live) 0 := by
  have hcut := B.cut hm hmp
  obtain ⟨q, hq⟩ : ∃ q, p + HDR * m = q := ⟨_, rfl⟩
  have hq8 : q = p + 8 * m := hq.symm
  rw [hq] at hcut ⊢
  have hperm : ((lo ++ p :: hi) ++ live).Perm (p :: (lo ++ hi ++ live)) :=
    List.perm_middle.append_right live
  have hperm' : ((lo ++ p :: hi) ++ q :: live).Perm (p :: q :: (lo ++ hi ++ live)) :=
    (List.perm_middle.append_right _).trans (List.Perm.cons p List.perm_middle)
  have hqp : q ≠ p := by omega
  set h' := (h.set p ⟨h.next p, m⟩).set q ⟨h.next q, h.size p - m⟩ with hh'
  have hsp : h'.size p = m := by
    rw [hh', set_size, set_size, Function.update_of_ne hqp.symm, Function.update_self]
  have hsq : h'.size q = h.size p - m := by rw [hh', set_size, Function.update_self]
  have hother : ∀ c, c ≠ p → c ≠ q → h'.size c = h.size c := fun c hcp hcq => by
    rw [hh', set_size, set_size, Function.update_of_ne hcq, Function.update_of_ne hcp]
  have hne : ∀ c ∈ lo ++ hi ++ live, c ≠ p ∧ c ≠ q := fun c hc => by
    have hnodup : (p :: q :: (lo ++ hi ++ live)).Nodup := by
      refine ((hperm'.pairwise_iff fun h => Apart.symm h).mp hcut.apart).imp_of_mem ?_
      rintro a b ha hb hab rfl
      have hlt := hcut.lt_stop (hperm'.mem_iff.mpr ha)
      rw [Apart] at hab
      omega
    rw [List.nodup_cons, List.nodup_cons] at hnodup
    constructor <;> rintro rfl
    · exact hnodup.1 (List.mem_cons_of_mem _ hc)
    · exact hnodup.2.1 hc
  constructor
  · rw [units_perm hperm, units_perm hperm', units_cons, units_cons, units_cons, hsp, hsq,
      units_congr fun c hc => hother c (hne c hc).1 (hne c hc).2]
    omega
  · intro hgap c hc hin
    have hqfl : q ∉ lo ++ p :: hi := fun hmem => by
      have hap := (List.pairwise_append.mp hcut.apart).2.2 q hmem q List.mem_cons_self
      have hlt := hcut.lt_stop (List.mem_append_left _ hmem)
      rw [Apart] at hap
      omega
    by_cases hcp : c = p
    · subst hcp
      rw [stop_eq, hsp, ← hq8] at hin
      exact hqfl hin
    · have hcq : c ≠ q := fun heq => hqfl (heq ▸ hc)
      rw [stop_eq, hother c hcp hcq, ← stop_eq] at hin
      exact hgap c hc hin

/-- A free block comes into use as a whole. -/
theorem Blocks.unlink (B : Blocks E h (lo ++ p :: hi) live) :
    Blocks E (h.set (pred E lo) ⟨h.next p, h.size (pred E lo)⟩) (lo ++ hi) (p :: live) := by
  refine B.transfer ?_ ?_ (sorted_remove B.sorted) ?_ rfl rfl
  · have h₁ : ((lo ++ hi) ++ p :: live).Perm (p :: ((lo ++ hi) ++ live)) := List.perm_middle
    exact (List.perm_middle.append_right live).trans h₁.symm
  · rw [set_next]
    exact Path.remove B.ring B.nodup rfl rfl
  · rw [set_size, Function.update_eq_self]

theorem unlink_kept (h : Heap) (lo hi live : List ℕ) (p prevp nx : ℕ) :
    Kept h (h.set prevp ⟨nx, h.size prevp⟩) (lo ++ p :: hi) live (lo ++ hi) (p :: live) 0 := by
  have hsize : (h.set prevp ⟨nx, h.size prevp⟩).size = h.size := by
    rw [set_size, Function.update_eq_self]
  constructor
  · rw [units_perm (insert_perm lo hi live p)]
    exact units_congr fun c _ => congrFun hsize c
  · intro hgap c hc hin
    have hsub : ∀ x ∈ lo ++ hi, x ∈ lo ++ p :: hi := fun x hx => by
      simp only [List.mem_append, List.mem_cons] at hx ⊢
      tauto
    rw [stop_eq, hsize, ← stop_eq] at hin
    exact hgap c (hsub c hc) (hsub _ hin)

/-- Blocks after another call of `sbrk`. -/
theorem Blocks.asked (B : Blocks E h fl live) {k : ℕ} (hk : h.brk ≤ k) (hlt : k < 2 ^ 32)
    (c : ℤ × Option ℕ) : Blocks E { h with brk := k, calls := c :: h.calls } fl live where
  ring := B.ring
  base := B.base
  sorted := B.sorted
  block a ha := by
    have hb := B.block a ha
    refine ⟨hb.base_le, hb.size_pos, Nat.le_trans hb.le_brk hk, fun b hab hlt => ?_⟩
    obtain ⟨m, x, hmem, hx⟩ := hb.got b hab hlt
    exact ⟨m, x, List.mem_cons_of_mem c hmem, hx⟩
  apart := B.apart
  brk_ge := Nat.le_trans B.brk_ge hk
  brk_lt := hlt

/-- Blocks after the program has written elsewhere. -/
theorem Blocks.headers (B : Blocks E h fl live) {f : ℕ → Header}
    (hsame : ∀ a ∈ E.base :: fl, f a = h.header a) (hlive : ∀ a ∈ live, f a = h.header a) :
    Blocks E { h with header := f } fl live := by
  set h' : Heap := { h with header := f } with hh'
  have hsize : ∀ a, f a = h.header a → h'.size a = h.size a := fun a ha => congrArg Header.size ha
  have hmem : ∀ a ∈ fl ++ live, f a = h.header a := fun a ha => by
    rcases List.mem_append.mp ha with ha | ha
    · exact hsame a (List.mem_cons_of_mem _ ha)
    · exact hlive a ha
  refine ⟨?_, ?_, B.sorted, fun a ha => ?_, ?_, B.brk_ge, B.brk_lt⟩
  · exact Path.congr B.ring fun a ha => congrArg Header.ptr (hsame a ha)
  · rw [hsize _ (hsame _ List.mem_cons_self), B.base]
  · exact (B.block a ha).congr (hsize a (hmem a ha)) rfl rfl
  · exact B.apart.imp_of_mem fun hx hy hxy =>
      hxy.congr (hsize _ (hmem _ hx)) (hsize _ (hmem _ hy))

theorem Blocks.withFreep (B : Blocks E h fl live) (p : ℕ) :
    Blocks E { h with freep := p } fl live :=
  B.transfer (.refl _) B.ring B.sorted rfl rfl rfl

theorem take_whole (heq : h.size p = n) : take n prevp p h =
    .ok (after p 1, { h.set prevp ⟨h.next p, h.size prevp⟩ with freep := prevp }) := by
  rw [take, run_get_bind, if_pos heq]
  rfl

theorem take_end (hne : h.size p ≠ n) (hq : after p (h.size p - n) = q) (hqp : q ≠ p) :
    take n prevp p h = .ok (after q 1, { (h.set p ⟨h.next p, h.size p - n⟩).set q ⟨h.next q, n⟩
      with freep := prevp }) := by
  have hnext : (h.set p ⟨h.next p, h.size p - n⟩).next q = h.next q := by
    rw [set_next, Function.update_of_ne hqp]
  rw [take, run_get_bind, if_neg hne, hq, ← hnext]
  rfl

theorem take_spec (B : Blocks E h fl live) (hprev : prevp ∈ E.base :: fl) (hnext : h.next prevp = p)
    (hn : 0 < n) (hsize : n ≤ h.size p) :
    ∃ a h' fl', take n prevp p h = .ok (after a 1, h') ∧ Blocks E h' fl' (a :: live) ∧
      h'.size a = n ∧ h'.freep ∈ E.base :: fl' ∧ h'.brk = h.brk ∧ h'.calls = h.calls ∧
      Kept h h' fl live fl' (a :: live) 0 := by
  have hpmem : p ∈ fl := by
    rcases List.mem_cons.mp (hnext ▸ B.ring.next_mem hprev) with rfl | hmem
    · rw [B.base] at hsize
      omega
    · exact hmem
  have hp := B.block p (List.mem_append_left live hpmem)
  obtain ⟨lo, hi, rfl⟩ := List.append_of_mem hpmem
  have hpred : pred E lo = prevp := by
    refine B.ring.next_inj B.nodup (pred_mem E lo _) hprev ?_
    rw [B.next_pred, hnext]
    rfl
  by_cases heq : h.size p = n
  · have hun := B.unlink
    rw [hpred] at hun
    have hkept := unlink_kept h lo hi live p prevp (h.next p)
    refine ⟨p, _, lo ++ hi, take_whole heq, hun.withFreep prevp, ?_, ?_, rfl, rfl,
      hkept.units, hkept.gaps⟩
    · change (h.set prevp ⟨h.next p, h.size prevp⟩).size p = n
      rw [set_size, Function.update_eq_self, heq]
    · change prevp ∈ E.base :: (lo ++ hi)
      rw [← hpred]
      exact pred_mem E lo hi
  · have hcut := B.cut (m := h.size p - n) (by omega) (by omega)
    have hq : after p (h.size p - n) = p + HDR * (h.size p - n) := by
      have hle := hp.le_brk
      have hbrk := B.brk_lt
      rw [stop_eq] at hle
      exact Nat.mod_eq_of_lt (by change p + 8 * _ < _; omega)
    have hqp : p + HDR * (h.size p - n) ≠ p := by
      change p + 8 * (h.size p - n) ≠ p
      omega
    have hkept := B.cut_kept (m := h.size p - n) (by omega) (by omega)
    rw [show h.size p - (h.size p - n) = n by omega] at hcut hkept
    refine ⟨_, _, lo ++ p :: hi, take_end heq hq hqp, hcut.withFreep prevp, ?_, hprev, rfl, rfl,
      hkept.units, hkept.gaps⟩
    change ((h.set p _).set _ _).size _ = n
    rw [set_size, Function.update_self]

/-! ## Asking for more -/

/-- Memory that `sbrk` has just given is a block in use. -/
theorem Blocks.grown (B : Blocks E h fl live) (hn : 0 < n) (hlt : h.brk + HDR * n < 2 ^ 32)
    (nx : ℕ) : Blocks E { h.set h.brk ⟨nx, n⟩ with
      brk := h.brk + HDR * n, calls := ((HDR * n : ℕ), some h.brk) :: h.calls } fl
        (h.brk :: live) := by
  set h' : Heap := { h.set h.brk ⟨nx, n⟩ with
    brk := h.brk + HDR * n, calls := ((HDR * n : ℕ), some h.brk) :: h.calls } with hh'
  have hsize : h'.size = Function.update h.size h.brk n := set_size h h.brk ⟨nx, n⟩
  have hnext : h'.next = Function.update h.next h.brk nx := set_next h h.brk ⟨nx, n⟩
  have hself : h'.size h.brk = n := by rw [hsize, Function.update_self]
  have hother : ∀ c, c ≠ h.brk → h'.size c = h.size c := fun c hc => by
    rw [hsize, Function.update_of_ne hc]
  have hlow : ∀ c ∈ fl ++ live, c < h.brk ∧ h.stop c ≤ h.brk := fun c hc => by
    have hb := B.block c hc
    have hle := hb.le_brk
    have hpos := hb.size_pos
    rw [stop_eq] at hle
    exact ⟨by omega, hb.le_brk⟩
  have hstop : ∀ c ∈ fl ++ live, h'.stop c = h.stop c := fun c hc => by
    rw [Heap.stop, Heap.stop, hother c (Nat.ne_of_lt (hlow c hc).1)]
  have hperm : (fl ++ h.brk :: live).Perm (h.brk :: (fl ++ live)) := List.perm_middle
  have hbase := B.brk_ge
  have hgot : ∀ b, h.Got b → h'.Got b := by
    rintro b ⟨m, a, hmem, hb⟩
    exact ⟨m, a, List.mem_cons_of_mem _ hmem, hb⟩
  refine ⟨?_, ?_, B.sorted, fun c hc => ?_, ?_, ?_, hlt⟩
  · refine Path.congr B.ring fun c hc => ?_
    rw [hnext, Function.update_of_ne (Nat.ne_of_lt (B.lt_brk hc))]
  · rw [hother E.base (Nat.ne_of_lt (B.lt_brk List.mem_cons_self)), B.base]
  · rcases List.mem_cons.mp (hperm.mem_iff.mp hc) with rfl | hc
    · refine ⟨hbase, hself ▸ hn, ?_, fun b hb hlt => ?_⟩
      · exact Nat.le_of_eq (congrArg (h.brk + HDR * ·) hself)
      · rw [Heap.stop, hself] at hlt
        exact ⟨(HDR * n : ℕ), h.brk, List.mem_cons_self, hb, by exact_mod_cast hlt⟩
    · have hb := B.block c hc
      refine ⟨hb.base_le, ?_, ?_, fun b hb' hlt => ?_⟩
      · rw [hother c (Nat.ne_of_lt (hlow c hc).1)]
        exact hb.size_pos
      · rw [hstop c hc]
        exact Nat.le_trans hb.le_brk (Nat.le_add_right _ _)
      · rw [hstop c hc] at hlt
        exact hgot b (hb.got b hb' hlt)
  · refine (hperm.pairwise_iff fun h => Apart.symm h).mpr (List.pairwise_cons.mpr ⟨?_, ?_⟩)
    · intro c hc
      rw [Apart, hstop c hc]
      exact .inr (hlow c hc).2
    · exact B.apart.imp_of_mem fun hx hy hxy =>
        hxy.congr (hother _ (Nat.ne_of_lt (hlow _ hx).1)) (hother _ (Nat.ne_of_lt (hlow _ hy).1))
  · exact Nat.le_trans hbase (Nat.le_add_right _ _)

theorem Blocks.grown_kept (B : Blocks E h fl live) (nx k : ℕ) (calls : List (ℤ × Option ℕ)) :
    Kept h { h.set h.brk ⟨nx, n⟩ with brk := k, calls := calls } fl live fl (h.brk :: live) n := by
  set h' : Heap := { h.set h.brk ⟨nx, n⟩ with brk := k, calls := calls } with hh'
  have hsize : h'.size = Function.update h.size h.brk n := set_size h h.brk ⟨nx, n⟩
  have hsame : ∀ c ∈ fl ++ live, h'.size c = h.size c := fun c hc => by
    have hlt := B.lt_stop hc
    have hle := (B.block c hc).le_brk
    rw [hsize, Function.update_of_ne (by omega)]
  constructor
  · have hperm : (fl ++ h.brk :: live).Perm (h.brk :: (fl ++ live)) := List.perm_middle
    rw [units_perm hperm, units_cons, units_congr hsame, hsize, Function.update_self, Nat.add_comm]
  · intro hgap c hc hin
    rw [stop_eq, hsame c (List.mem_append_left live hc), ← stop_eq] at hin
    exact hgap c hc hin

/-- The units that these calls of `sbrk` have given. -/
def obtained (calls : List (ℤ × Option ℕ)) : ℕ :=
  (calls.map fun c => if c.2.isSome then c.1.toNat / HDR else 0).sum

theorem toInt_small (hn : n < 2 ^ 31) : toInt n = n := by
  have hle : (n : ℤ) < 2 ^ 31 := by exact_mod_cast hn
  refine Int.bmod_eq_of_le ?_ ?_
  · omega
  · omega

theorem toInt_lt (n : ℕ) : toInt n < 2 ^ 31 := by
  have hlt := Int.bmod_lt (x := n) (m := 2 ^ 32) (Nat.two_pow_pos 32)
  have hhalf : (((2 ^ 32 : ℕ) : ℤ) + 1) / 2 = 2 ^ 31 := by decide
  rwa [hhalf] at hlt

/-- The least that `morecore` asks for. -/
def coreFor (n : ℕ) : ℕ := max n 4096

theorem morecore_eq (n : ℕ) : morecore E n = (do
    match ← sbrk E (toInt (coreFor n * HDR % 2 ^ 32)) with
    | none => return 0
    | some p => do
      let h ← get
      set p ⟨h.next p, coreFor n⟩
      free (after p 1)
      let h ← get
      return h.freep) := by
  have hcore : (if n < 4096 then 4096 else n) = coreFor n := by
    rw [coreFor]
    split_ifs <;> omega
  simp only [morecore, hcore]
  all_goals rfl

theorem morecore_some {k : ℤ} (hk : toInt (coreFor n * HDR % 2 ^ 32) = k)
    (hs : sbrk E k h = .ok (some p, t))
    (hf : free (after p 1) (t.set p ⟨t.next p, coreFor n⟩) = .ok ((), h')) :
    morecore E n h = .ok (h'.freep, h') := by
  have hset : set p ⟨t.next p, coreFor n⟩ t = .ok ((), t.set p ⟨t.next p, coreFor n⟩) := rfl
  rw [morecore_eq, hk, run_bind_ok hs]
  dsimp only
  rw [run_get_bind, run_bind_ok hset, run_bind_ok hf]
  rfl

theorem morecore_none {k : ℤ} (hk : toInt (coreFor n * HDR % 2 ^ 32) = k)
    (hs : sbrk E k h = .ok (none, t)) : morecore E n h = .ok (0, t) := by
  rw [morecore_eq, hk, run_bind_ok hs]
  rfl

theorem morecore_spec (B : Blocks E h fl live) (hf : h.freep ∈ E.base :: fl)
    (hn : coreFor n < 2 ^ 28) :
    ∃ r h', morecore E n h = .ok (r, h') ∧ ∃ fl', Blocks E h' fl' live ∧ h'.freep ∈ E.base :: fl' ∧
      h.brk ≤ h'.brk ∧
      (∃ a, h'.calls = (((HDR * coreFor n : ℕ) : ℤ), a) :: h.calls ∧
        Kept h h' fl live fl' live (obtained [(((HDR * coreFor n : ℕ) : ℤ), a)])) ∧
      (r ≠ 0 → r = h'.freep ∧ ∃ x ∈ fl', n ≤ h'.size x) := by
  have hpos : 0 < coreFor n := Nat.lt_of_lt_of_le (by decide) (Nat.le_max_right n 4096)
  have harg : toInt (coreFor n * HDR % 2 ^ 32) = (HDR * coreFor n : ℕ) := by
    have heq : coreFor n * HDR = 8 * coreFor n := Nat.mul_comm _ _
    rw [heq, Nat.mod_eq_of_lt (by omega), toInt_small (by omega)]
  by_cases hg : E.grants h.brk (HDR * coreFor n : ℕ) = true
  · have hfits := (E.fits h.brk _ hg).2
    have hlt : h.brk + HDR * coreFor n < 2 ^ 32 := by exact_mod_cast hfits
    have hsbrk : sbrk E (HDR * coreFor n : ℕ) h = .ok (some h.brk, { h with
        brk := h.brk + HDR * coreFor n,
        calls := ((HDR * coreFor n : ℕ), some h.brk) :: h.calls }) := by
      rw [sbrk, run_get_bind, if_pos hg]
      have hto : h.brk + HDR * coreFor n = ((h.brk : ℤ) + (HDR * coreFor n : ℕ)).toNat := by omega
      rw [hto]
      rfl
    have hblk := B.grown hpos hlt (h.next h.brk)
    obtain ⟨h', fl', hfree, hB, hfp, hbrk, hcalls, ⟨x, hx, hxs⟩, hkept⟩ := free_spec hblk hf
    have hgot : obtained [(((HDR * coreFor n : ℕ) : ℤ), some h.brk)] = coreFor n := by
      have hdiv : HDR * coreFor n / HDR = coreFor n := Nat.mul_div_cancel_left _ (by decide)
      simp only [obtained, List.map_cons, List.map_nil, Option.isSome_some, if_pos,
        List.sum_cons, List.sum_nil, Nat.add_zero, Int.toNat_natCast, hdiv]
    have hgrown := (B.grown_kept (n := coreFor n) (h.next h.brk) (h.brk + HDR * coreFor n)
      (((HDR * coreFor n : ℕ), some h.brk) :: h.calls)).trans hkept
    refine ⟨h'.freep, h', ?_, fl', hB, hfp, ?_, ⟨_, hcalls, by rw [hgot]; exact hgrown⟩,
      fun _ => ⟨rfl, x, hx, ?_⟩⟩
    · exact morecore_some harg hsbrk hfree
    · rw [hbrk]
      exact Nat.le_add_right _ _
    · refine Nat.le_trans (Nat.le_max_left n 4096) (Nat.le_trans (Nat.le_of_eq ?_) hxs)
      exact (congrFun (set_size h h.brk ⟨h.next h.brk, coreFor n⟩) h.brk).trans
        (Function.update_self ..) |>.symm
  · have hsbrk : sbrk E (HDR * coreFor n : ℕ) h =
        .ok (none, { h with calls := ((HDR * coreFor n : ℕ), none) :: h.calls }) := by
      rw [sbrk, run_get_bind, if_neg hg]
      rfl
    exact ⟨0, _, morecore_none harg hsbrk, fl,
      B.asked (Nat.le_refl _) B.brk_lt _, hf, Nat.le_refl _, ⟨none, rfl, rfl, id⟩,
      fun h0 => absurd rfl h0⟩

/-! ## The search -/

section Search
variable {l : List ℕ} {fuel : ℕ}

theorem mallocLoop_take (hsize : n ≤ h.size p) :
    mallocLoop E n (fuel + 1) prevp p h = take n prevp p h := by
  rw [mallocLoop, run_get_bind, if_pos hsize]

theorem mallocLoop_next (hsize : ¬ n ≤ h.size p) (hp : p ≠ h.freep) :
    mallocLoop E n (fuel + 1) prevp p h = mallocLoop E n fuel p (h.next p) h := by
  rw [mallocLoop, run_get_bind, if_neg hsize, if_neg hp]

theorem mallocLoop_more (hsize : ¬ n ≤ h.size h.freep) :
    mallocLoop E n (fuel + 1) prevp h.freep h = (morecore E n >>= fun q =>
      if q = 0 then return 0 else do let h ← get; mallocLoop E n fuel q (h.next q)) h := by
  rw [mallocLoop, run_get_bind, if_neg hsize, if_pos rfl]

theorem mallocLoop_found (hpath : Path h.next prevp l h.freep) (hend : h.freep ∉ l)
    (hfound : ∃ x ∈ l ++ [h.freep], n ≤ h.size x) (hfuel : l.length < fuel) :
    ∃ y ∈ prevp :: l, n ≤ h.size (h.next y) ∧
      mallocLoop E n fuel prevp (h.next prevp) h = take n y (h.next y) h := by
  obtain ⟨fuel, rfl⟩ : ∃ k, fuel = k + 1 := ⟨fuel - 1, by omega⟩
  by_cases hsize : n ≤ h.size (h.next prevp)
  · exact ⟨prevp, List.mem_cons_self, hsize, mallocLoop_take hsize⟩
  · induction l generalizing prevp fuel with
    | nil =>
      obtain ⟨x, hx, hnx⟩ := hfound
      have hnext : h.next prevp = h.freep := hpath
      rw [List.nil_append, List.mem_singleton] at hx
      rw [hnext, ← hx] at hsize
      exact absurd hnx hsize
    | cons b l ih =>
      obtain ⟨rfl, hpath⟩ := hpath
      rw [List.mem_cons, not_or] at hend
      obtain ⟨k, rfl⟩ : ∃ k, fuel = k + 1 := ⟨fuel - 1, by simp at hfuel; omega⟩
      rw [mallocLoop_next hsize (Ne.symm hend.1)]
      by_cases hb : n ≤ h.size (h.next (h.next prevp))
      · exact ⟨_, List.mem_cons_of_mem _ List.mem_cons_self, hb, mallocLoop_take hb⟩
      · obtain ⟨x, hx, hnx⟩ := hfound
        have hx' : x ∈ l ++ [h.freep] := by
          rcases List.mem_cons.mp hx with rfl | hx
          · exact absurd hnx hsize
          · exact hx
        obtain ⟨y, hy, hrest⟩ := ih hpath hend.2 ⟨x, hx', hnx⟩ k (by simp at hfuel; omega) hb
        exact ⟨y, List.mem_cons_of_mem _ hy, hrest⟩

theorem mallocLoop_none (hpath : Path h.next prevp l h.freep) (hend : h.freep ∉ l)
    (hnone : ∀ x ∈ l ++ [h.freep], ¬ n ≤ h.size x) :
    mallocLoop E n (fuel + l.length + 1) prevp (h.next prevp) h = (morecore E n >>= fun q =>
      if q = 0 then return 0 else do let h ← get; mallocLoop E n fuel q (h.next q)) h := by
  induction l generalizing prevp with
  | nil =>
    have hnext : h.next prevp = h.freep := hpath
    rw [hnext]
    exact mallocLoop_more (hnone _ (by simp))
  | cons b l ih =>
    obtain ⟨rfl, hpath⟩ := hpath
    rw [List.mem_cons, not_or] at hend
    rw [mallocLoop_next (hnone _ (by simp)) (Ne.symm hend.1), List.length_cons, ← Nat.add_assoc]
    exact ih hpath hend.2 fun x hx => hnone x (List.mem_cons_of_mem _ hx)

/-- The ring read from `freep`. -/
theorem Blocks.fromFreep (B : Blocks E h fl live) (hf : h.freep ∈ E.base :: fl) :
    ∃ l, Path h.next h.freep l h.freep ∧ h.freep ∉ l ∧ l.length < 2 ^ 32 ∧
      ∀ x, x ∈ l ++ [h.freep] ↔ x ∈ E.base :: fl := by
  obtain ⟨l, hring, hperm⟩ := B.ring.readFrom hf
  have hnodup := hperm.nodup_iff.mp B.nodup
  have hlen := hperm.length_eq
  rw [List.length_cons, List.length_cons] at hlen
  refine ⟨l, hring, (List.nodup_cons.mp hnodup).1, ?_, fun x => ?_⟩
  · have := B.length_lt
    omega
  · rw [hperm.mem_iff]
    simp [or_comm]

/-- A search that comes to a block that is large enough. -/
theorem Blocks.search (B : Blocks E h fl live) (hf : h.freep ∈ E.base :: fl) (hn : 0 < n)
    (hfound : ∃ x ∈ E.base :: fl, n ≤ h.size x) (hfuel : 2 ^ 32 ≤ fuel) :
    ∃ a h' fl', mallocLoop E n fuel h.freep (h.next h.freep) h = .ok (after a 1, h') ∧
      Blocks E h' fl' (a :: live) ∧ h'.size a = n ∧ h'.freep ∈ E.base :: fl' ∧ h'.brk = h.brk ∧
      h'.calls = h.calls ∧ Kept h h' fl live fl' (a :: live) 0 := by
  obtain ⟨l, hpath, hend, hlen, hmem⟩ := B.fromFreep hf
  obtain ⟨x, hx, hnx⟩ := hfound
  obtain ⟨y, hy, hny, hrun⟩ := mallocLoop_found (E := E) hpath hend ⟨x, (hmem x).mpr hx, hnx⟩
    (Nat.lt_of_lt_of_le hlen hfuel)
  have hy' : y ∈ E.base :: fl := (hmem y).mp (by simpa [or_comm] using hy)
  rw [hrun]
  exact take_spec B hy' rfl hn hny

theorem mallocLoop_spec (B : Blocks E h fl live) (hf : h.freep ∈ E.base :: fl) (hn : 0 < n)
    (hcond : (∃ x ∈ E.base :: fl, n ≤ h.size x) ∨ coreFor n < 2 ^ 28) :
    ∃ r t fl' new, mallocLoop E n FUEL h.freep (h.next h.freep) h = .ok (r, t) ∧
      t.freep ∈ E.base :: fl' ∧ h.brk ≤ t.brk ∧ t.calls = new ++ h.calls ∧
      (∀ c ∈ new, c.1 = ((HDR * coreFor n : ℕ) : ℤ)) ∧
      ((r = 0 ∧ Blocks E t fl' live ∧ Kept h t fl live fl' live (obtained new)) ∨
        ∃ a, r = after a 1 ∧ Blocks E t fl' (a :: live) ∧ t.size a = n ∧
          Kept h t fl live fl' (a :: live) (obtained new)) := by
  have hfuel : FUEL = 17179869184 := rfl
  by_cases hfound : ∃ x ∈ E.base :: fl, n ≤ h.size x
  · obtain ⟨a, t, fl', hrun, hB, hsize, hfp, hbrk, hcalls, hkept⟩ :=
      B.search hf hn hfound (show 2 ^ 32 ≤ FUEL by omega)
    exact ⟨_, t, fl', [], hrun, hfp, Nat.le_of_eq hbrk.symm, hcalls, by simp,
      .inr ⟨a, rfl, hB, hsize, hkept⟩⟩
  · obtain ⟨l, hpath, hend, hlen, hmem⟩ := B.fromFreep hf
    obtain ⟨k, hk⟩ : ∃ k, FUEL = k + l.length + 1 := ⟨FUEL - l.length - 1, by omega⟩
    have hrun := @mallocLoop_none E _ _ _ _ k hpath hend
      fun x hx hnx => hfound ⟨x, (hmem x).mp hx, hnx⟩
    obtain ⟨r, t, hmore, fl', hB, hfp, hbrk, ⟨a, hcalls, hkept⟩, hr⟩ :=
      morecore_spec B hf (hcond.resolve_left hfound)
    rw [hk, hrun, run_bind_ok hmore]
    have hnew : ∀ c ∈ [(((HDR * coreFor n : ℕ) : ℤ), a)], c.1 = ((HDR * coreFor n : ℕ) : ℤ) := by
      intro c hc
      rw [List.mem_singleton.mp hc]
    by_cases h0 : r = 0
    · rw [if_pos h0]
      exact ⟨0, t, fl', _, rfl, hfp, hbrk, hcalls, hnew, .inl ⟨rfl, hB, hkept⟩⟩
    · obtain ⟨rfl, x, hx, hnx⟩ := hr h0
      rw [if_neg h0, run_get_bind]
      obtain ⟨a', t', fl'', hrun', hB', hsize, hfp', hbrk', hcalls', hkept'⟩ :=
        hB.search hfp hn ⟨x, List.mem_cons_of_mem _ hx, hnx⟩ (show 2 ^ 32 ≤ k by omega)
      exact ⟨_, t', fl'', _, hrun', hfp', Nat.le_trans hbrk (Nat.le_of_eq hbrk'.symm),
        hcalls'.trans hcalls, hnew, .inr ⟨a', rfl, hB', hsize, hkept.trans hkept'⟩⟩

end Search

/-! ## malloc -/

/-- A heap between calls; `live` are the blocks in use. -/
inductive Heap.Ok (E : Env) (h : Heap) (live : List ℕ) : Prop where
  | fresh (freep : h.freep = 0) (live_eq : live = []) (brk_ge : E.base + HDR ≤ h.brk)
      (brk_lt : h.brk < 2 ^ 32)
  | ring (fl : List ℕ) (blocks : Blocks E h fl live) (freep : h.freep ∈ E.base :: fl)

/-- A free block has `n` units. -/
def Heap.Offers (h : Heap) (n : ℕ) : Prop :=
  h.freep ≠ 0 ∧ ∃ k, n ≤ h.size (h.next^[k] h.freep)

theorem Blocks.freep_ne_zero (B : Blocks E h fl live) (hf : h.freep ∈ E.base :: fl) :
    h.freep ≠ 0 := by
  have hpos := E.base_pos
  rcases List.mem_cons.mp hf with hb | hf
  · omega
  · have := (B.block _ (List.mem_append_left live hf)).base_lt
    omega

theorem Blocks.offers_iff (B : Blocks E h fl live) (hf : h.freep ∈ E.base :: fl) :
    h.Offers n ↔ ∃ x ∈ E.base :: fl, n ≤ h.size x := by
  obtain ⟨l, hring, hperm⟩ := B.ring.readFrom hf
  constructor
  · rintro ⟨-, k, hk⟩
    exact ⟨_, hperm.mem_iff.mpr (hring.mem_iff.mpr ⟨k, rfl⟩), hk⟩
  · rintro ⟨x, hx, hnx⟩
    obtain ⟨k, rfl⟩ := hring.mem_iff.mp (hperm.mem_iff.mp hx)
    exact ⟨B.freep_ne_zero hf, k, hnx⟩

/-- The first call makes a ring of `base` alone. -/
theorem init_alone (hfreep : h.freep = 0) (hge : E.base + HDR ≤ h.brk) (hlt : h.brk < 2 ^ 32) :
    Blocks E (h.init E) [] [] ∧ (h.init E).freep = E.base ∧ (h.init E).brk = h.brk ∧
      (h.init E).calls = h.calls := by
  have hsize : (h.init E).size E.base = 0 := by
    rw [Heap.init, if_pos hfreep]
    exact (congrFun (set_size h E.base ⟨E.base, 0⟩) E.base).trans (Function.update_self ..)
  have hnext : (h.init E).next E.base = E.base := by
    rw [Heap.init, if_pos hfreep]
    exact (congrFun (set_next h E.base ⟨E.base, 0⟩) E.base).trans (Function.update_self ..)
  have hbrk : (h.init E).brk = h.brk := by
    rw [Heap.init, if_pos hfreep]
    rfl
  refine ⟨⟨hnext, hsize, by simp, by simp, by simp, ?_, ?_⟩, ?_, hbrk, ?_⟩
  · rw [hbrk]
    exact hge
  · rw [hbrk]
    exact hlt
  · rw [Heap.init, if_pos hfreep]
  · rw [Heap.init, if_pos hfreep]
    rfl

theorem Blocks.init_eq (B : Blocks E h fl live) (hf : h.freep ∈ E.base :: fl) : h.init E = h := by
  rw [Heap.init, if_neg (B.freep_ne_zero hf)]

theorem Heap.Ok.init (hok : h.Ok E live) (hn : 0 < n) :
    ∃ fl, Blocks E (h.init E) fl live ∧ (h.init E).freep ∈ E.base :: fl ∧
      (h.init E).brk = h.brk ∧ (h.init E).calls = h.calls ∧
      (h.Offers n ↔ ∃ x ∈ E.base :: fl, n ≤ (h.init E).size x) := by
  cases hok with
  | fresh hfreep hlive hge hlt =>
    obtain ⟨hB, hf, hbrk, hcalls⟩ := init_alone hfreep hge hlt
    refine ⟨[], hlive ▸ hB, hf ▸ List.mem_cons_self, hbrk, hcalls, ?_⟩
    constructor
    · rintro ⟨h0, -⟩
      exact absurd hfreep h0
    · rintro ⟨x, hx, hnx⟩
      rw [List.mem_singleton.mp hx, hB.base] at hnx
      omega
  | ring fl hB hf =>
    rw [hB.init_eq hf]
    exact ⟨fl, hB, hf, rfl, rfl, hB.offers_iff hf⟩

theorem malloc_eq (E : Env) (nbytes : ℕ) (h : Heap) : malloc E nbytes h =
    mallocLoop E (unitsFor nbytes) FUEL (h.init E).freep ((h.init E).next (h.init E).freep)
      (h.init E) := rfl

theorem malloc_spec (hok : h.Ok E live)
    (hcond : h.Offers (unitsFor nbytes) ∨ unitsFor nbytes < 2 ^ 28) :
    ∃ r t fl new, malloc E nbytes h = .ok (r, t) ∧
      t.freep ∈ E.base :: fl ∧ h.brk ≤ t.brk ∧ t.calls = new ++ h.calls ∧
      (∀ c ∈ new, c.1 = ((HDR * coreFor (unitsFor nbytes) : ℕ) : ℤ)) ∧
      ((r = 0 ∧ Blocks E t fl live) ∨
        ∃ a, r = after a 1 ∧ Blocks E t fl (a :: live) ∧ t.size a = unitsFor nbytes) := by
  obtain ⟨fl, hB, hf, hbrk, hcalls, hoffers⟩ := hok.init (n := unitsFor nbytes) (Nat.succ_pos _)
  rw [malloc_eq, ← hbrk, ← hcalls]
  have hcore : (∃ x ∈ E.base :: fl, unitsFor nbytes ≤ (h.init E).size x) ∨
      coreFor (unitsFor nbytes) < 2 ^ 28 := hcond.imp hoffers.mp fun hlt => by
    rw [coreFor]
    omega
  obtain ⟨r, t, fl', new, hrun, hfp, hle, hnew, hall, hres⟩ :=
    mallocLoop_spec hB hf (Nat.succ_pos _) hcore
  refine ⟨r, t, fl', new, hrun, hfp, hle, hnew, hall, ?_⟩
  exact hres.imp (fun ⟨h0, hB', _⟩ => ⟨h0, hB'⟩) fun ⟨a, ha, hB', hsize, _⟩ => ⟨a, ha, hB', hsize⟩

/-! ## The calls of sbrk -/

/-- `sbrk` has been called as before, and perhaps more often. -/
def CallsGrow (h t : Heap) : Prop := h.calls <:+ t.calls

instance : Std.Refl CallsGrow := ⟨fun h => List.suffix_refl h.calls⟩
instance : IsTrans Heap CallsGrow := ⟨fun _ _ _ => List.IsSuffix.trans⟩

theorem keeps_set (p : ℕ) (x : Header) : Keeps CallsGrow (set p x) :=
  .update fun h => List.suffix_refl h.calls

theorem keeps_setFreep (p : ℕ) : Keeps CallsGrow (setFreep p) :=
  .update fun h => List.suffix_refl h.calls

theorem keeps_freeLoop (bp fuel p : ℕ) : Keeps CallsGrow (freeLoop bp fuel p) := by
  induction fuel generalizing p with
  | zero => exact .throw
  | succ fuel ih => exact .get_bind fun h => .ite .pure (.ite .pure (ih _))

theorem keeps_free (ap : ℕ) : Keeps CallsGrow (free ap) := by
  refine .get_bind fun h => .bind (keeps_freeLoop _ _ _) fun p =>
    .bind (.update fun h => ?_) fun _ => keeps_setFreep p
  rw [CallsGrow, (joinLower_env _ _ _).2.2, (joinUpper_env _ _ _).2.2]
  all_goals exact List.suffix_refl h.calls

theorem keeps_sbrk (E : Env) (n : ℤ) : Keeps CallsGrow (sbrk E n) :=
  .get_bind fun _ => .ite
    (.bind (.update fun _ => List.suffix_cons _ _) fun _ => .pure)
    (.bind (.update fun _ => List.suffix_cons _ _) fun _ => .pure)

theorem keeps_take (n prevp p : ℕ) : Keeps CallsGrow (take n prevp p) :=
  .get_bind fun _ => .ite
    (.bind (keeps_set _ _) fun _ => .bind (keeps_setFreep _) fun _ => .pure)
    (.bind (keeps_set _ _) fun _ => .get_bind fun _ => .bind (keeps_set _ _) fun _ =>
      .bind (keeps_setFreep _) fun _ => .pure)

theorem keeps_morecore (E : Env) (n : ℕ) : Keeps CallsGrow (morecore E n) := by
  rw [morecore_eq]
  refine .bind (keeps_sbrk E _) fun r => ?_
  cases r with
  | none => exact .pure
  | some p => exact .get_bind fun _ => .bind (keeps_set _ _) fun _ => .bind (keeps_free _) fun _ =>
      .get_bind fun _ => .pure

theorem keeps_mallocLoop (E : Env) (n fuel prevp p : ℕ) :
    Keeps CallsGrow (mallocLoop E n fuel prevp p) := by
  induction fuel generalizing prevp p with
  | zero => exact .throw
  | succ fuel ih =>
    exact .get_bind fun _ => .ite (keeps_take _ _ _) (.ite
      (.bind (keeps_morecore E n) fun q => .ite .pure (.get_bind fun _ => ih _ _)) (ih _ _))

theorem sbrk_called {k : ℤ} {x : Option ℕ} (hrun : sbrk E k h = .ok (x, t)) :
    ∃ a, t.calls = (k, a) :: h.calls := by
  rw [sbrk, run_get_bind, run_ite] at hrun
  rcases hrun with ⟨-, hrun⟩ | ⟨-, hrun⟩
  · obtain ⟨_, u, hu, hret⟩ := run_bind.mp hrun
    obtain rfl := run_modify.mp hu
    obtain ⟨-, rfl⟩ := run_pure.mp hret
    exact ⟨_, rfl⟩
  · obtain ⟨_, u, hu, hret⟩ := run_bind.mp hrun
    obtain rfl := run_modify.mp hu
    obtain ⟨-, rfl⟩ := run_pure.mp hret
    exact ⟨_, rfl⟩

/-- The argument of the call that no free block meets. -/
theorem malloc_asks (hok : h.Ok E live) (hnone : ¬ h.Offers (unitsFor nbytes))
    (hrun : malloc E nbytes h = .ok (r, t)) :
    ∃ a, (toInt (coreFor (unitsFor nbytes) * HDR % 2 ^ 32), a) :: h.calls <:+ t.calls := by
  have hfuel : FUEL = 17179869184 := rfl
  obtain ⟨fl, hB, hf, -, hcalls, hoffers⟩ := hok.init (n := unitsFor nbytes) (Nat.succ_pos _)
  obtain ⟨l, hpath, hend, hlen, hmem⟩ := hB.fromFreep hf
  obtain ⟨k, hk⟩ : ∃ k, FUEL = k + l.length + 1 := ⟨FUEL - l.length - 1, by omega⟩
  rw [malloc_eq, hk, mallocLoop_none hpath hend
    fun x hx hnx => hnone (hoffers.mpr ⟨x, (hmem x).mp hx, hnx⟩)] at hrun
  obtain ⟨q, u, hmore, hrest⟩ := run_bind.mp hrun
  rw [morecore_eq] at hmore
  obtain ⟨x, v, hsbrk, hafter⟩ := run_bind.mp hmore
  obtain ⟨a, ha⟩ := sbrk_called hsbrk
  have hvu : CallsGrow v u := by
    cases x with
    | none => exact Keeps.pure (R := CallsGrow) v q u hafter
    | some p => exact (Keeps.get_bind fun _ => .bind (keeps_set _ _) fun _ =>
        .bind (keeps_free _) fun _ => .get_bind fun _ => .pure) v q u hafter
  have hut : CallsGrow u t := (Keeps.ite (c := q = 0) Keeps.pure
    (Keeps.get_bind fun h => keeps_mallocLoop E _ k q (h.next q))) u r t hrest
  refine ⟨a, ?_⟩
  rw [← hcalls, ← ha]
  exact List.IsSuffix.trans hvu hut

/-! ## Requests that are answered -/

/-- The request fits in a `uint` with its header, and a free block meets it or a call of `sbrk`
with a number that is not negative can. -/
def Answered (h : Heap) (nbytes : ℕ) : Prop :=
  nbytes + HDR ≤ 2 ^ 32 ∧ (h.Offers (unitsFor nbytes) ∨ unitsFor nbytes < 2 ^ 28)

/-- Neither the count of units nor that of the bytes wraps, and what is returned is 0 or a block
of the size asked for. -/
def MallocMeets (E : Env) (h : Heap) (live : List ℕ) (nbytes : ℕ) : Prop :=
  nbytes + HDR - 1 < 2 ^ 32 ∧ ∃ r t new, malloc E nbytes h = .ok (r, t) ∧
    t.calls = new ++ h.calls ∧
    (∀ c ∈ new, c.1 = ((HDR * coreFor (unitsFor nbytes) : ℕ) : ℤ)) ∧
    (r ≠ 0 → ∃ a, r = a + HDR ∧ HDR + nbytes ≤ HDR * t.size a ∧ t.stop a ≤ t.brk ∧
      (∀ b, a ≤ b → b < t.stop a → t.Got b) ∧ ∀ b ∈ live, Apart t a b)

/-- All requests are such. -/
def Asks (s : Heap × List ℕ) (e : HeapEvent) (_ : Heap × List ℕ) : Prop :=
  ∀ nbytes, e = .malloc nbytes → Answered s.1 nbytes

theorem Block.after_one (hb : Block E h a) (hlt : h.brk < 2 ^ 32) :
    after a 1 = a + HDR ∧ before (after a 1) = a := by
  have hle := hb.le_brk
  have hpos := hb.size_pos
  rw [stop_eq] at hle
  have hafter : after a 1 = a + HDR := Nat.mod_eq_of_lt (by change a + 8 * 1 < _; omega)
  refine ⟨hafter, ?_⟩
  rw [hafter]
  change (a + 8 + 2 ^ 32 - 8) % 2 ^ 32 = a
  omega

theorem Heap.Ok.malloc (hok : h.Ok E live) (hans : Answered h nbytes)
    (hrun : malloc E nbytes h = .ok (r, t)) :
    (r = 0 ∧ t.Ok E live) ∨ (r ≠ 0 ∧ t.Ok E (before r :: live)) := by
  obtain ⟨r', t', fl, new, hrun', hf, -, -, -, hres⟩ := malloc_spec hok hans.2
  rw [hrun] at hrun'
  obtain ⟨rfl, rfl⟩ : r = r' ∧ t = t' := by simpa using hrun'
  rcases hres with ⟨rfl, hB⟩ | ⟨a, rfl, hB, -⟩
  · exact .inl ⟨rfl, .ring fl hB hf⟩
  · have hone := (hB.block a (by simp)).after_one hB.brk_lt
    refine .inr ⟨by rw [hone.1]; exact Nat.succ_ne_zero _, ?_⟩
    rw [hone.2]
    exact .ring fl hB hf

theorem sbrk_grows {n : ℤ} {x : Option ℕ} (hn : 0 ≤ n) (hrun : sbrk E n h = .ok (x, t)) :
    ∃ k c, h.brk ≤ k ∧ (h.brk < 2 ^ 32 → k < 2 ^ 32) ∧
      t = { h with brk := k, calls := c :: h.calls } := by
  rw [Umalloc.sbrk, run_get_bind, run_ite] at hrun
  rcases hrun with ⟨hg, hrun⟩ | ⟨-, hrun⟩
  · obtain ⟨_, u, hu, hret⟩ := run_bind.mp hrun
    obtain rfl := run_modify.mp hu
    obtain ⟨-, rfl⟩ := run_pure.mp hret
    have hfits := E.fits h.brk n hg
    exact ⟨_, _, by omega, fun _ => by omega, rfl⟩
  · obtain ⟨_, u, hu, hret⟩ := run_bind.mp hrun
    obtain rfl := run_modify.mp hu
    obtain ⟨-, rfl⟩ := run_pure.mp hret
    exact ⟨h.brk, _, Nat.le_refl _, id, rfl⟩

theorem Heap.Ok.sbrk {n : ℤ} {x : Option ℕ} (hok : h.Ok E live) (hn : 0 ≤ n)
    (hrun : sbrk E n h = .ok (x, t)) : t.Ok E live := by
  obtain ⟨k, c, hk, hlt, rfl⟩ := sbrk_grows hn hrun
  cases hok with
  | fresh hf hl hge hlt' => exact .fresh hf hl (Nat.le_trans hge hk) (hlt hlt')
  | ring fl hB hf => exact .ring fl (hB.asked hk (hlt hB.brk_lt) c) hf

theorem Heap.Ok.step {s u : Heap × List ℕ} {e : HeapEvent} (hok : s.1.Ok E s.2)
    (hstep : HeapStep E s e u) (hask : Asks s e u) : u.1.Ok E u.2 := by
  cases hstep with
  | malloc_zero h t live nbytes hn hrun =>
    rcases hok.malloc (hask _ rfl) hrun with ⟨-, hok'⟩ | ⟨h0, -⟩
    · exact hok'
    · exact absurd rfl h0
  | malloc h t live nbytes r hn hrun hr =>
    rcases hok.malloc (hask _ rfl) hrun with ⟨h0, -⟩ | ⟨-, hok'⟩
    · exact absurd h0 hr
    · exact hok'
  | free h t live a ha hrun =>
    cases hok with
    | fresh _ hlive =>
      rw [show live = [] from hlive] at ha
      exact absurd ha List.not_mem_nil
    | ring fl hB hf =>
      have hperm := List.perm_cons_erase ha
      have hB' : Blocks E h fl (a :: live.erase a) :=
        Blocks.transfer hB (hperm.append_left fl) hB.ring hB.sorted rfl rfl rfl
      obtain ⟨t', fl', hrun', hBt, hft, -⟩ := free_spec hB' hf
      rw [hrun] at hrun'
      obtain rfl : t = t' := by simpa using hrun'
      exact .ring fl' hBt hft
  | sbrk h t live n x hn hrun => exact hok.sbrk hn hrun
  | write h live f hbase hlive =>
    cases hok with
    | fresh hf hl hge hlt => exact .fresh hf hl hge hlt
    | ring fl hB hf =>
      refine .ring fl (hB.headers (fun a ha => ?_) hlive) hf
      obtain ⟨k, rfl⟩ := hB.ring.mem_iff.mp ha
      exact hbase k

theorem reachable_ok {s : Heap × List ℕ} (hr : ((heapSystem E).restrict Asks).Reachable s) :
    s.1.Ok E s.2 := by
  refine hr.invariant (I := fun s => s.1.Ok E s.2) ?_ fun s e t hok hs => hok.step hs.1 hs.2
  rintro ⟨h, live⟩ ⟨hf, hbrk, -, hlive⟩
  refine .fresh hf hlive ?_ ?_
  · rw [hbrk]
    exact E.base_le
  · rw [hbrk]
    exact E.start_lt

theorem unitsFor_eq (hn : nbytes + HDR - 1 < 2 ^ 32) :
    HDR + nbytes ≤ HDR * unitsFor nbytes := by
  change nbytes + 8 - 1 < 2 ^ 32 at hn
  change 8 + nbytes ≤ 8 * ((nbytes + 8 - 1) % 2 ^ 32 / 8 + 1)
  omega

/-- After requests that were all answered, `malloc` does what it should if and only if the next
one is as well. -/
theorem malloc_meets_iff (E : Env) {s : Heap × List ℕ}
    (hr : ((heapSystem E).restrict Asks).Reachable s) (nbytes : ℕ) :
    MallocMeets E s.1 s.2 nbytes ↔ Answered s.1 nbytes := by
  have hok := reachable_ok hr
  constructor
  · rintro ⟨hwrap, r, t, new, hrun, hcalls, hnew, -⟩
    have hn8 : nbytes + HDR ≤ 2 ^ 32 := by
      change nbytes + 8 - 1 < 2 ^ 32 at hwrap
      change nbytes + 8 ≤ 2 ^ 32
      omega
    refine ⟨hn8, ?_⟩
    by_contra hcond
    rw [not_or, Nat.not_lt] at hcond
    obtain ⟨a, pre, hpre⟩ := malloc_asks hok hcond.1 hrun
    rw [hcalls] at hpre
    have hmem := hnew (toInt (coreFor (unitsFor nbytes) * HDR % 2 ^ 32), a) <| by
      have hpre' : (pre ++ [(toInt (coreFor (unitsFor nbytes) * HDR % 2 ^ 32), a)]) ++ s.1.calls =
          new ++ s.1.calls := by simpa using hpre
      rw [← List.append_cancel_right hpre']
      simp
    have hlt := toInt_lt (coreFor (unitsFor nbytes) * HDR % 2 ^ 32)
    have hge : unitsFor nbytes ≤ coreFor (unitsFor nbytes) := Nat.le_max_left _ _
    dsimp only at hmem
    rw [hmem] at hlt
    have hlt' : 8 * coreFor (unitsFor nbytes) < 2 ^ 31 := by exact_mod_cast hlt
    omega
  · rintro ⟨hn8, hcond⟩
    have hwrap : nbytes + HDR - 1 < 2 ^ 32 := by
      change nbytes + 8 ≤ 2 ^ 32 at hn8
      change nbytes + 8 - 1 < 2 ^ 32
      omega
    obtain ⟨r, t, fl, new, hrun, hf, hbrk, hcalls, hnew, hres⟩ := malloc_spec hok hcond
    refine ⟨hwrap, r, t, new, hrun, hcalls, hnew, fun h0 => ?_⟩
    rcases hres with ⟨rfl, -⟩ | ⟨a, rfl, hB, hsize⟩
    · exact absurd rfl h0
    · have hb := hB.block a (by simp)
      refine ⟨a, (hb.after_one hB.brk_lt).1, ?_, hb.le_brk, hb.got, fun b hbl => ?_⟩
      · rw [hsize]
        exact unitsFor_eq hwrap
      · exact (List.pairwise_cons.mp (List.pairwise_append.mp hB.apart).2.1).1 b hbl

/-- A program of three pages, of which the first half of memory can be had. -/
def smallEnv : Env where
  base := 0x2b00
  start := 0x3000
  grants b n := decide (0 ≤ (b : ℤ) + n ∧ (b : ℤ) + n < 2 ^ 31)
  base_pos := by decide
  base_le := by decide
  start_lt := by decide
  fits b n hg := by
    have := of_decide_eq_true hg
    omega

def freshHeap : Heap := ⟨fun _ => ⟨0, 0⟩, 0, 0x3000, []⟩

theorem malloc_meets_iff_sixteen : MallocMeets smallEnv freshHeap [] 16 ↔ Answered freshHeap 16 :=
  malloc_meets_iff smallEnv (s := (freshHeap, [])) (.init ⟨rfl, rfl, rfl, rfl⟩) 16

/-- The units for the largest request wrap to one, which holds the header alone. -/
theorem malloc_misses_largest : ¬ MallocMeets smallEnv freshHeap [] 0xffffffff ∧
    ∃ r t, malloc smallEnv 0xffffffff freshHeap = .ok (r, t) ∧ r ≠ 0 ∧ t.size (r - HDR) = 1 := by
  have hrun : (match malloc smallEnv 0xffffffff freshHeap with
      | .ok (r, t) => decide (r ≠ 0 ∧ t.size (r - HDR) = 1)
      | .error _ => false) = true := by decide +kernel
  refine ⟨fun hm => absurd hm.1 (by decide), ?_⟩
  split at hrun
  next r t hrt => exact ⟨r, t, hrt, of_decide_eq_true hrun⟩
  next => exact absurd hrun (by decide)

end Ostep.Umalloc

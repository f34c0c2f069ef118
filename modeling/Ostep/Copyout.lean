import Ostep.SpaceGrowth

/-!
# copyout

`copyout` goes from page to page. Up to the first page that is not there for the user it has
copied everything before it; whether it then fails or reads through a null pointer depends on
whether that page has a page table.
-/

namespace Ostep.PageTables
open ByteWords Hoare Ownership

variable {ι κ : Type*} {L : Symbols} {root : ι → ℕ} {held : κ → ℕ} {mem : ℕ} {s t u : Mem} {i j : ι}

/-- The page of the address `a` is present with `PTE_U`. -/
def Mem.UserAt (s : Mem) (r a : ℕ) : Prop := ∃ e, s.lookup r a = some e ∧ Present e ∧ User e

/-- There is a page table for the address `a`. -/
def Mem.TableAt (s : Mem) (r a : ℕ) : Prop := Present (s.read (r, PDX a))

/-- The `k`-th address from `va` on. -/
def nth (va k : ℕ) : ℕ := (va + k) % 2 ^ 32

/-- Where the byte at the address `a` is: the page and the offset. -/
def Mem.loc (s : Mem) (r a : ℕ) : ℕ × ℕ := (pageOf ((s.lookup r a).getD 0), a % PGSIZE)

def Mem.byte (s : Mem) (p : ℕ × ℕ) : UInt8 := s.page p.1 p.2

/-- `t` is `s` with `bytes` at the addresses from `va` on, and nothing else changed. -/
structure Stored (r : ℕ) (s : Mem) (va : ℕ) (bytes : List UInt8) (t : Mem) : Prop where
  freelist : t.freelist = s.freelist
  stored : ∀ k (hk : k < bytes.length), t.byte (s.loc r (nth va k)) = bytes[k]
  rest : ∀ p, (∀ k, k < bytes.length → s.loc r (nth va k) ≠ p) → t.byte p = s.byte p

theorem nth_lt (va k : ℕ) : nth va k < 2 ^ 32 := Nat.mod_lt _ (by decide)

theorem nth_add (va k l : ℕ) : nth (nth va k) l = nth va (k + l) := by
  simp only [nth]
  omega

theorem nth_inj {va k l : ℕ} (hk : k < 2 ^ 32) (hl : l < 2 ^ 32) (h : nth va k = nth va l) :
    k = l := by
  simp only [nth] at h
  omega

theorem Inv.userAt (h : Inv L root held mem s) (hi : root i ≠ 0) {a : ℕ} (ha : a < 2 ^ 32) :
    s.UserAt (root i) a ↔ Present (s.pte (root i) (a / PGSIZE)) ∧
      User (s.pte (root i) (a / PGSIZE)) := by
  rw [Mem.UserAt, h.lookup hi ha]
  split_ifs with ht
  · simp [pte_of_table ht]
  · simp

theorem Inv.tableAt (h : Inv L root held mem s) (hi : root i ≠ 0) {a : ℕ} (ha : a < 2 ^ 32) :
    s.TableAt (root i) a ↔ s.table (root i) (a / PGSIZE / 1024) ≠ 0 := by
  constructor
  · exact fun hp ht => h.not_present_of_table hi ha ht hp
  · intro ht
    rw [← PDX_eq ha] at ht
    by_contra hc
    exact ht (if_neg fun hp => hc hp.2)

/-- A user page is below `KERNBASE`. -/
theorem Inv.userAt_page (h : Inv L root held mem s) (hi : root i ≠ 0) {a : ℕ} (ha : a < 2 ^ 32)
    (hu : s.UserAt (root i) a) : a / PGSIZE < USERPAGES ∧ Present (s.pte (root i) (a / PGSIZE)) := by
  obtain ⟨hp, huser⟩ := (h.userAt hi ha).mp hu
  refine ⟨?_, hp⟩
  by_contra hge
  exact h.kernel i _ hi (Nat.not_lt.mp hge) hp huser

theorem Inv.loc_userAt (h : Inv L root held mem s) (hi : root i ≠ 0) {a : ℕ} (ha : a < 2 ^ 32)
    (hu : s.UserAt (root i) a) :
    s.loc (root i) a = (own root held mem s (.user i (a / PGSIZE) : Place ι κ), a % PGSIZE) := by
  obtain ⟨hvp, hp⟩ := h.userAt_page hi ha hu
  rw [Mem.loc, h.lookup hi ha, if_neg (present_pte_table hp), Option.getD_some,
    own_present hi hvp hp]

/-- Different addresses are different bytes of memory. -/
theorem Inv.loc_inj (h : Inv L root held mem s) (hi : root i ≠ 0) {a b : ℕ} (ha : a < 2 ^ 32)
    (hb : b < 2 ^ 32) (hua : s.UserAt (root i) a) (hub : s.UserAt (root i) b)
    (heq : s.loc (root i) a = s.loc (root i) b) : a = b := by
  obtain ⟨hvp, hp⟩ := h.userAt_page hi ha hua
  rw [h.loc_userAt hi ha hua, h.loc_userAt hi hb hub] at heq
  obtain ⟨hpage, hoff⟩ := Prod.ext_iff.mp heq
  have hne : own root held mem s (.user i (a / PGSIZE) : Place ι κ) ≠ 0 := by
    rw [own_present hi hvp hp]
    exact h.frame_ne i _ hi hvp hp
  have hvq : a / PGSIZE = b / PGSIZE := by
    have := h.owns.inj (.user i (a / PGSIZE)) (.user i (b / PGSIZE)) hpage hne
    simpa using this
  have hoff' : a % 4096 = b % 4096 := hoff
  have hvq' : a / 4096 = b / 4096 := hvq
  omega

/-! ## One page -/

theorem down_div (va : ℕ) : PGROUNDDOWN va / PGSIZE = va / PGSIZE := page_div _

theorem down_lt {va : ℕ} (h : va < 2 ^ 32) : PGROUNDDOWN va < 2 ^ 32 :=
  (Nat.div_mul_le_self va PGSIZE).trans_lt h

section Uva2ka
variable (h : Inv L root held mem s) (hi : root i ≠ 0) {va : ℕ} (hva : va < 2 ^ 32)
include h hi hva

theorem Inv.uva2ka_null (hu : ¬ s.TableAt (root i) va) :
    uva2ka (root i) (PGROUNDDOWN va) s = .error .null := by
  have ht : s.table (root i) (PGROUNDDOWN va / PGSIZE / 1024) = 0 := by
    rw [down_div]
    by_contra hc
    exact hu ((h.tableAt hi hva).mpr hc)
  rw [uva2ka, run_bind_ok (h.walk_missing hi (down_lt hva) ht)]
  rfl

theorem Inv.uva2ka_load (hu : s.TableAt (root i) va) :
    uva2ka (root i) (PGROUNDDOWN va) s =
      (if s.pte (root i) (va / PGSIZE) &&& PTE_P = 0 then pure none
        else if s.pte (root i) (va / PGSIZE) &&& PTE_U = 0 then pure none
        else pure (some (pageOf (s.pte (root i) (va / PGSIZE)))) : Kernel (Option ℕ)) s := by
  have ht := (h.tableAt hi hva).mp hu
  have hw : walkpgdir (root i) (PGROUNDDOWN va) false s =
      .ok (some (s.ptr (root i) (va / PGSIZE)), s) := by
    rw [walk_found (down_lt hva) (by rwa [down_div]), down_div]
  have hload : load (s.ptr (root i) (va / PGSIZE)) s =
      .ok (s.pte (root i) (va / PGSIZE), s) := by
    rw [pte_eq_read ht]
    rfl
  rw [uva2ka, run_bind_ok hw]
  exact run_bind_ok hload

theorem Inv.uva2ka_none (ht : s.TableAt (root i) va) (hu : ¬ s.UserAt (root i) va) :
    uva2ka (root i) (PGROUNDDOWN va) s = .ok (none, s) := by
  rw [h.uva2ka_load hi hva ht]
  rw [h.userAt hi hva, not_and_or, not_not, not_not] at hu
  rcases hu with hp | hp
  · rw [if_pos hp]
    rfl
  · rw [if_pos hp, ite_self]
    rfl

theorem Inv.uva2ka_some (hu : s.UserAt (root i) va) :
    uva2ka (root i) (PGROUNDDOWN va) s = .ok (some (s.loc (root i) va).1, s) := by
  obtain ⟨hp, huser⟩ := (h.userAt hi hva).mp hu
  have htab := present_pte_table hp
  rw [h.uva2ka_load hi hva ((h.tableAt hi hva).mpr htab), if_neg hp, if_neg huser, Mem.loc,
    h.lookup hi hva, if_neg htab]
  rfl

end Uva2ka

theorem same_lookup (h : Inv L root held mem s) (hsame : Same root s t)
    (ht : Inv L root held mem t) (hi : root i ≠ 0) {a : ℕ} (ha : a < 2 ^ 32) :
    t.lookup (root i) a = s.lookup (root i) a := by
  rw [h.lookup hi ha, ht.lookup hi ha, hsame.table hi, hsame.pte hi]

/-- A piece of the source within one page. -/
theorem Inv.stored_chunk (h : Inv L root held mem s) (hi : root i ≠ 0) {va : ℕ} (hva : va < 2 ^ 32)
    {b : List UInt8} (hb : va % PGSIZE + b.length ≤ PGSIZE) :
    Stored (root i) s va b (s.setPage (s.loc (root i) va).1
      ((s.page (s.loc (root i) va).1).store (va % PGSIZE) b)) := by
  have hnth : ∀ k, k < b.length → nth va k = va + k := by
    intro k hk
    have hb' : va % 4096 + b.length ≤ 4096 := hb
    exact Nat.mod_eq_of_lt (by omega)
  have hloc : ∀ k, k < b.length →
      s.loc (root i) (nth va k) = ((s.loc (root i) va).1, va % PGSIZE + k) := by
    intro k hk
    have hb' : va % 4096 + b.length ≤ 4096 := hb
    have hpage : (va + k) / PGSIZE = va / PGSIZE := by
      change (va + k) / 4096 = va / 4096
      omega
    have hoff : (va + k) % PGSIZE = va % PGSIZE + k := by
      change (va + k) % 4096 = va % 4096 + k
      omega
    have hlt : va + k < 2 ^ 32 := by omega
    rw [hnth k hk, Mem.loc, Mem.loc, h.lookup hi hlt, h.lookup hi hva, hpage, hoff]
  refine ⟨rfl, fun k hk => ?_, fun p hp => ?_⟩
  · rw [hloc k hk, Mem.byte, setPage_page_self, Bytes.store, if_pos ⟨by omega, by omega⟩]
    simp [hk]
  · rw [Mem.byte, Mem.byte]
    by_cases hp1 : p.1 = (s.loc (root i) va).1
    · rw [hp1, setPage_page_self, Bytes.store, if_neg]
      rintro ⟨hle, hlt⟩
      refine hp (p.2 - va % PGSIZE) (by omega) ?_
      rw [hloc _ (by omega), ← hp1]
      exact Prod.ext rfl (by omega)
    · rw [setPage_page_of_ne hp1]

theorem Stored.append {r va : ℕ} {b₁ b₂ : List UInt8} (h₁ : Stored r s va b₁ t)
    (h₂ : Stored r t (nth va b₁.length) b₂ u)
    (hloc : ∀ k, t.loc r (nth va k) = s.loc r (nth va k))
    (hne : ∀ k l, k < b₁.length → l < b₂.length →
      s.loc r (nth va k) ≠ s.loc r (nth va (b₁.length + l))) :
    Stored r s va (b₁ ++ b₂) u where
  freelist := h₂.freelist.trans h₁.freelist
  stored k hk := by
    by_cases hlt : k < b₁.length
    · rw [h₂.rest, h₁.stored k hlt]
      · simp [List.getElem_append_left hlt]
      · intro l hl he
        rw [nth_add, hloc] at he
        exact hne k l hlt hl he.symm
    · have hl : k - b₁.length < b₂.length := by
        rw [List.length_append] at hk
        omega
      have hs := h₂.stored _ hl
      rw [nth_add, hloc, show b₁.length + (k - b₁.length) = k by omega] at hs
      rw [hs]
      simp [List.getElem_append_right (Nat.not_lt.mp hlt)]
  rest p hp := by
    rw [h₂.rest, h₁.rest]
    · exact fun k hk => hp k (by rw [List.length_append]; omega)
    · intro l hl
      rw [nth_add, hloc]
      exact hp _ (by rw [List.length_append]; omega)

/-! ## The loop -/

theorem copyoutLoop_done {r fuel va : ℕ} : copyoutLoop r (fuel + 1) va [] s = .ok (0, s) := rfl

theorem copyoutLoop_null {r fuel va : ℕ} {buf : List UInt8} (hb : 0 < buf.length)
    (hw : uva2ka r (PGROUNDDOWN va) s = .error .null) :
    copyoutLoop r (fuel + 1) va buf s = .error .null := by
  rw [copyoutLoop, if_pos hb]
  change (uva2ka r (PGROUNDDOWN va) s >>= _) = _
  rw [hw]
  rfl

theorem copyoutLoop_none {r fuel va : ℕ} {buf : List UInt8} (hb : 0 < buf.length)
    (hw : uva2ka r (PGROUNDDOWN va) s = .ok (none, s)) :
    copyoutLoop r (fuel + 1) va buf s = .ok (-1, s) := by
  rw [copyoutLoop, if_pos hb, run_bind_ok hw]
  rfl

/-- How many bytes a turn of the loop copies. -/
def turn (va : ℕ) (buf : List UInt8) : ℕ := min (PGSIZE - va % PGSIZE) buf.length

theorem copyoutLoop_some {r fuel va f : ℕ} {buf : List UInt8} (hb : 0 < buf.length)
    (hw : uva2ka r (PGROUNDDOWN va) s = .ok (some f, s)) :
    copyoutLoop r (fuel + 1) va buf s =
      copyoutLoop r fuel ((PGROUNDDOWN va + PGSIZE) % 2 ^ 32) (buf.drop (turn va buf))
        (s.setPage f ((s.page f).store (va % PGSIZE) (buf.take (turn va buf)))) := by
  have hoff : va - PGROUNDDOWN va = va % PGSIZE := by
    have := Nat.div_add_mod va PGSIZE
    rw [PGROUNDDOWN, Nat.mul_comm]
    omega
  rw [copyoutLoop, if_pos hb, run_bind_ok hw, turn, ← hoff]
  exact run_bind_ok rfl

/-- What `copyout` does from the state `s` on. -/
structure CopyOutcome (root : ι → ℕ) (i : ι) (s : Mem) (va : ℕ) (buf : List UInt8)
    (out : Except Fault (ℤ × Mem)) : Prop where
  all : (∀ k, k < buf.length → s.UserAt (root i) (nth va k)) →
    ∃ t, out = .ok (0, t) ∧ Same root s t ∧ Stored (root i) s va buf t
  first : ∀ k, k < buf.length → (∀ l, l < k → s.UserAt (root i) (nth va l)) →
    ¬ s.UserAt (root i) (nth va k) →
    (s.TableAt (root i) (nth va k) →
      ∃ t, out = .ok (-1, t) ∧ Same root s t ∧ Stored (root i) s va (buf.take k) t) ∧
    (¬ s.TableAt (root i) (nth va k) → out = .error .null)

theorem all_or_first (P : ℕ → Prop) (n : ℕ) :
    (∀ k, k < n → P k) ∨ ∃ k, k < n ∧ (∀ l, l < k → P l) ∧ ¬ P k := by
  induction n with
  | zero => exact .inl fun k hk => absurd hk (Nat.not_lt_zero k)
  | succ n ih =>
    rcases ih with hall | ⟨k, hk, hfirst⟩
    · by_cases hn : P n
      · refine .inl fun k hk => ?_
        rcases Nat.lt_succ_iff_lt_or_eq.mp hk with hk | rfl
        · exact hall k hk
        · exact hn
      · exact .inr ⟨n, Nat.lt_succ_self n, hall, hn⟩
    · exact .inr ⟨k, hk.trans (Nat.lt_succ_self n), hfirst⟩

theorem Stored.nil {r va : ℕ} : Stored r s va [] s :=
  ⟨rfl, fun _ hk => absurd hk (Nat.not_lt_zero _), fun _ _ => rfl⟩

theorem nth_zero {va : ℕ} (hva : va < 2 ^ 32) : nth va 0 = va := Nat.mod_eq_of_lt hva

/-- The bytes that a turn copies are all on one page. -/
theorem Inv.userAt_turn (h : Inv L root held mem s) (hi : root i ≠ 0) {va k : ℕ} {buf : List UInt8}
    (hva : va < 2 ^ 32) (hu : s.UserAt (root i) va) (hk : k < turn va buf) :
    s.UserAt (root i) (nth va k) := by
  have hk' : k < min (4096 - va % 4096) buf.length := hk
  have hlt : va + k < 2 ^ 32 := by omega
  have hpage : (va + k) / PGSIZE = va / PGSIZE := by
    change (va + k) / 4096 = va / 4096
    omega
  rw [nth, Nat.mod_eq_of_lt hlt, h.userAt hi hlt, hpage]
  exact (h.userAt hi hva).mp hu

theorem Inv.userAt_table (h : Inv L root held mem s) (hi : root i ≠ 0) {a : ℕ} (ha : a < 2 ^ 32)
    (hu : s.UserAt (root i) a) : s.TableAt (root i) a :=
  (h.tableAt hi ha).mpr (present_pte_table ((h.userAt hi ha).mp hu).1)

/-- The outcome after the first turn. -/
theorem CopyOutcome.cons {va n : ℕ} {buf : List UInt8} {out : Except Fault (ℤ × Mem)}
    (h : Inv L root held mem s) (ht : Inv L root held mem t) (hi : root i ≠ 0)
    (hbuf : buf.length ≤ 2 ^ 32) (hsame : Same root s t) (hn : n ≤ buf.length)
    (hfirst : Stored (root i) s va (buf.take n) t)
    (huser : ∀ k, k < n → s.UserAt (root i) (nth va k))
    (hout : CopyOutcome root i t (nth va n) (buf.drop n) out) : CopyOutcome root i s va buf out := by
  have hlook : ∀ a, a < 2 ^ 32 → t.lookup (root i) a = s.lookup (root i) a := fun a ha =>
    same_lookup h hsame ht hi ha
  have huserAt : ∀ k, t.UserAt (root i) (nth va k) ↔ s.UserAt (root i) (nth va k) := fun k => by
    rw [Mem.UserAt, Mem.UserAt, hlook _ (nth_lt va k)]
  have htableAt : ∀ k, t.TableAt (root i) (nth va k) ↔ s.TableAt (root i) (nth va k) := fun k => by
    rw [ht.tableAt hi (nth_lt va k), h.tableAt hi (nth_lt va k), hsame.table hi]
  have hloc : ∀ k, t.loc (root i) (nth va k) = s.loc (root i) (nth va k) := fun k => by
    rw [Mem.loc, Mem.loc, hlook _ (nth_lt va k)]
  have hlen : (buf.take n).length = n := List.length_take_of_le hn
  -- The bytes of the rest are elsewhere.
  have hne : ∀ m, m + n ≤ buf.length → (∀ l, l < m + n → s.UserAt (root i) (nth va l)) →
      ∀ k l, k < (buf.take n).length → l < m →
        s.loc (root i) (nth va k) ≠ s.loc (root i) (nth va ((buf.take n).length + l)) := by
    intro m hm hall k l hk hl he
    rw [hlen] at hk he
    have := nth_inj (by omega) (by omega) (h.loc_inj hi (nth_lt va k) (nth_lt va _)
      (hall k (by omega)) (hall (n + l) (by omega)) he)
    omega
  have hdrop : (buf.drop n).length = buf.length - n := List.length_drop
  refine ⟨fun hall => ?_, fun k hk hbefore hnot => ?_⟩
  · obtain ⟨u, hu, hsu, hst⟩ := hout.all fun k hk => by
      rw [nth_add, huserAt]
      exact hall _ (by omega)
    refine ⟨u, hu, hsame.trans hsu, ?_⟩
    rw [← hlen] at hst
    have := hfirst.append hst hloc (fun k l hk hl => hne (buf.length - n) (by omega)
      (fun l hl => hall l (by omega)) k l hk (by rwa [hlen, hdrop] at hl))
    rwa [hlen, List.take_append_drop] at this
  · have hge : n ≤ k := by
      by_contra hlt
      exact hnot (huser k (by omega))
    obtain ⟨m, rfl⟩ : ∃ m, k = n + m := ⟨k - n, by omega⟩
    obtain ⟨hfail, hnull⟩ := hout.first m (by omega)
      (fun l hl => by
        rw [nth_add, huserAt]
        exact hbefore _ (by omega))
      (by rwa [nth_add, huserAt])
    rw [nth_add, htableAt] at hfail hnull
    refine ⟨fun htab => ?_, hnull⟩
    obtain ⟨u, hu, hsu, hst⟩ := hfail htab
    refine ⟨u, hu, hsame.trans hsu, ?_⟩
    rw [← hlen] at hst
    have := hfirst.append hst hloc (fun k l hk hl => hne m (by omega)
      (fun l hl => hbefore l (by omega)) k l hk (by
        rw [hlen, List.length_take] at hl
        omega))
    rwa [hlen, ← List.take_add] at this

theorem Inv.copyoutLoop {fuel va : ℕ} {buf : List UInt8} (h : Inv L root held mem s)
    (hi : root i ≠ 0) (hva : va < 2 ^ 32) (hbuf : buf.length ≤ 2 ^ 32) (hfuel : buf.length < fuel) :
    CopyOutcome root i s va buf (copyoutLoop (root i) fuel va buf s) := by
  induction fuel generalizing va buf s with
  | zero => omega
  | succ fuel ih =>
    rcases Nat.eq_zero_or_pos buf.length with h0 | hpos
    · obtain rfl := List.eq_nil_of_length_eq_zero h0
      exact ⟨fun _ => ⟨s, copyoutLoop_done, fun _ _ => ⟨rfl, fun _ _ => rfl⟩, .nil⟩,
        fun k hk => absurd hk (Nat.not_lt_zero _)⟩
    have hzero := nth_zero hva
    by_cases hu : s.UserAt (root i) va
    · have hturn : 0 < turn va buf := by
        have hlt : va % PGSIZE < PGSIZE := Nat.mod_lt _ (by decide)
        rw [turn]
        omega
      have hle : turn va buf ≤ buf.length := Nat.min_le_right _ _
      have hchunk : va % PGSIZE + (buf.take (turn va buf)).length ≤ PGSIZE := by
        have hlt : va % PGSIZE < PGSIZE := Nat.mod_lt _ (by decide)
        rw [List.length_take, turn]
        omega
      have hplain : Plain root s (s.loc (root i) va).1 := by
        obtain ⟨hvp, hp⟩ := h.userAt_page hi hva hu
        rw [Mem.loc, h.lookup hi hva, if_neg (present_pte_table hp)]
        exact (h.user_frame hi hvp hp).2
      rw [copyoutLoop_some hpos (h.uva2ka_some hi hva hu)]
      have hinv := h.setPage hplain (v := (s.page (s.loc (root i) va).1).store (va % PGSIZE)
        (buf.take (turn va buf)))
      refine .cons h hinv hi hbuf hplain.same hle (h.stored_chunk hi hva hchunk)
        (fun k hk => h.userAt_turn hi hva hu hk) ?_
      by_cases hlast : turn va buf = buf.length
      · rw [hlast, List.drop_length]
        obtain ⟨fuel, rfl⟩ : ∃ n, fuel = n + 1 := ⟨fuel - 1, by omega⟩
        exact ⟨fun _ => ⟨_, copyoutLoop_done, fun _ _ => ⟨rfl, fun _ _ => rfl⟩, .nil⟩,
          fun k hk => absurd hk (Nat.not_lt_zero _)⟩
      · have hnext : (PGROUNDDOWN va + PGSIZE) % 2 ^ 32 = nth va (turn va buf) := by
          have hfull : turn va buf = PGSIZE - va % PGSIZE := by
            rw [turn] at hlast ⊢
            omega
          have hdm := Nat.div_add_mod va PGSIZE
          have hlt : va % PGSIZE < PGSIZE := Nat.mod_lt _ (by decide)
          rw [nth, hfull, PGROUNDDOWN, Nat.mul_comm (va / PGSIZE)]
          congr 1
          omega
        rw [hnext]
        exact ih hinv (nth_lt _ _) (by rw [List.length_drop]; omega)
          (by rw [List.length_drop]; omega)
    · refine ⟨fun hall => absurd (hzero ▸ hall 0 hpos) hu, fun k hk hbefore hnot => ?_⟩
      obtain rfl : k = 0 := by
        by_contra hk0
        exact hu (hzero ▸ hbefore 0 (by omega))
      rw [hzero]
      refine ⟨fun htab => ?_, fun htab => ?_⟩
      · exact ⟨s, copyoutLoop_none hpos (h.uva2ka_none hi hva htab hu),
          fun _ _ => ⟨rfl, fun _ _ => rfl⟩, .nil⟩
      · exact copyoutLoop_null hpos (h.uva2ka_null hi hva htab)

end Ostep.PageTables

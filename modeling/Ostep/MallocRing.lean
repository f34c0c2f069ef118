import Ostep.MallocCalls
import Mathlib.Data.Nat.Basic

/-!
# The ring of free blocks

Whatever calls a program makes, the free blocks are a ring in the order of their addresses, no two
of them touch, and the free blocks and those in use together have the units that `morecore` has
obtained. The searches of `malloc` and `free` come to an end.
-/

namespace Ostep.Umalloc
open Hoare SinglyLinked TransitionSystem

variable {E E' : Env} {h t : Heap} {fl live : List ℕ} {a got nbytes r : ℕ}

/-- The bytes of a request with its header, in whole headers. -/
def roundedBytes (nbytes : ℕ) : ℕ := HDR * ((nbytes + HDR - 1) / HDR + 1)

/-- The units that the call has obtained through `morecore`. -/
def newUnits (h : Heap) : HeapEvent → Heap → ℕ
  | .malloc _, t => obtained (t.calls.take (t.calls.length - h.calls.length))
  | _, _ => 0

/-- The program with a count of the units obtained. Which calls of `sbrk` succeed may change from
one step to the next. -/
def ringSystem (E : Env) : System ((Heap × List ℕ) × ℕ) HeapEvent where
  init s := (heapSystem E).init s.1 ∧ s.2 = 0
  step s e t := (∃ E' : Env, E'.base = E.base ∧ HeapStep E' s.1 e t.1) ∧
    (∀ n, e = .malloc n → roundedBytes n < 2 ^ 31) ∧ t.2 = s.2 + newUnits s.1.1 e t.1.1

/-- `fl` are the free blocks behind `base`, and `got` units have been obtained. -/
structure FreeRing (E : Env) (h : Heap) (live fl : List ℕ) (got : ℕ) : Prop where
  circular : Ring h.next E.base fl
  freep : h.freep ∈ E.base :: fl
  increasing : (E.base :: fl).Pairwise (· < ·)
  wraps : ∃! p, p ∈ E.base :: fl ∧ h.next p ≤ p
  gap : ∀ a ∈ fl, ∀ b ∈ fl, a < b → h.stop a < b
  live_apart : live.Pairwise (Apart h)
  free_apart : ∀ a ∈ live, ∀ b ∈ fl, Apart h a b
  block : ∀ a ∈ fl ++ live, Block E h a
  units : h.units fl + h.units live = got

/-! ## Between two calls -/

/-- `Heap.Ok` with the gaps and the units. -/
inductive Heap.Tidy (E : Env) (h : Heap) (live : List ℕ) (got : ℕ) : Prop where
  | fresh (freep : h.freep = 0) (live_eq : live = []) (brk_ge : E.base + HDR ≤ h.brk)
      (brk_lt : h.brk < 2 ^ 32) (got_eq : got = 0)
  | ring (fl : List ℕ) (blocks : Blocks E h fl live) (freep : h.freep ∈ E.base :: fl)
      (gaps : h.Gaps fl) (units : h.units (fl ++ live) = got)

theorem Heap.Tidy.ok (ht : h.Tidy E live got) : h.Ok E live := by
  cases ht with
  | fresh hf hlive hge hlt => exact .fresh hf hlive hge hlt
  | ring fl hB hf => exact .ring fl hB hf

theorem Block.withBase (hE : E'.base = E.base) (hb : Block E h a) : Block E' h a :=
  ⟨hE ▸ hb.base_le, hb.size_pos, hb.le_brk, hb.got⟩

/-- Only `base` of the environment matters to the blocks. -/
theorem Blocks.withBase (hE : E'.base = E.base) (B : Blocks E h fl live) : Blocks E' h fl live where
  ring := hE ▸ B.ring
  base := hE ▸ B.base
  sorted := hE ▸ B.sorted
  block a ha := (B.block a ha).withBase hE
  apart := B.apart
  brk_ge := hE ▸ B.brk_ge
  brk_lt := B.brk_lt

theorem Heap.Tidy.withBase (hE : E'.base = E.base) (ht : h.Tidy E live got) :
    h.Tidy E' live got := by
  cases ht with
  | fresh hf hlive hge hlt hgot => exact .fresh hf hlive (hE ▸ hge) hlt hgot
  | ring fl hB hf hgaps hunits => exact .ring fl (hB.withBase hE) (hE ▸ hf) hgaps hunits

theorem answered_of_rounded (hn : roundedBytes nbytes < 2 ^ 31) : Answered h nbytes := by
  have hr : 8 * ((nbytes + 8 - 1) / 8 + 1) < 2 ^ 31 := hn
  have hle : nbytes + 8 ≤ 2 ^ 32 := by omega
  refine ⟨hle, .inr ?_⟩
  change (nbytes + 8 - 1) % 2 ^ 32 / 8 + 1 < 2 ^ 28
  omega

theorem Heap.Tidy.init (ht : h.Tidy E live got) :
    ∃ fl, Blocks E (h.init E) fl live ∧ (h.init E).freep ∈ E.base :: fl ∧
      (h.init E).calls = h.calls ∧ (h.init E).Gaps fl ∧ (h.init E).units (fl ++ live) = got := by
  cases ht with
  | fresh hfreep hlive hge hlt hgot =>
    obtain ⟨hB, hf, -, hcalls⟩ := init_alone hfreep hge hlt
    subst hlive hgot
    exact ⟨[], hB, hf ▸ List.mem_cons_self, hcalls, fun a ha => absurd ha List.not_mem_nil, rfl⟩
  | ring fl hB hf hgaps hunits =>
    rw [hB.init_eq hf]
    exact ⟨fl, hB, hf, rfl, hgaps, hunits⟩

theorem Heap.Tidy.malloc (ht : h.Tidy E live got) (hn : roundedBytes nbytes < 2 ^ 31)
    (hrun : malloc E nbytes h = .ok (r, t)) :
    (r = 0 ∧ t.Tidy E live (got + newUnits h (.malloc nbytes) t)) ∨
      (r ≠ 0 ∧ t.Tidy E (before r :: live) (got + newUnits h (.malloc nbytes) t)) := by
  obtain ⟨fl, hB, hf, hcalls, hgaps, hunits⟩ := ht.init
  have hans : Answered h nbytes := answered_of_rounded hn
  have hcore : coreFor (unitsFor nbytes) < 2 ^ 28 := by
    have hr : 8 * ((nbytes + 8 - 1) / 8 + 1) < 2 ^ 31 := hn
    change max ((nbytes + 8 - 1) % 2 ^ 32 / 8 + 1) 4096 < 2 ^ 28
    omega
  obtain ⟨r', t', fl', new, hrun', hfp, -, hnew, -, hres⟩ :=
    mallocLoop_spec hB hf (n := unitsFor nbytes) (Nat.succ_pos _) (.inr hcore)
  rw [malloc_eq, hrun'] at hrun
  obtain ⟨rfl, rfl⟩ : r' = r ∧ t' = t := by simpa using hrun
  have hgot : newUnits h (.malloc nbytes) t' = obtained new := by
    rw [newUnits, hnew, hcalls, List.length_append, Nat.add_sub_cancel, List.take_left']
    rfl
  rw [hgot]
  rcases hres with ⟨rfl, hB', hkept⟩ | ⟨a, rfl, hB', -, hkept⟩
  · exact .inl ⟨rfl, .ring fl' hB' hfp (hkept.gaps hgaps) (by rw [hkept.units, hunits])⟩
  · have hone := (hB'.block a (by simp)).after_one hB'.brk_lt
    refine .inr ⟨by rw [hone.1]; exact Nat.succ_ne_zero _, ?_⟩
    rw [hone.2]
    exact .ring fl' hB' hfp (hkept.gaps hgaps) (by rw [hkept.units, hunits])

theorem Heap.Tidy.free (ht : h.Tidy E live got) (ha : a ∈ live) :
    ∃ t, free (after a 1) h = .ok ((), t) ∧ t.Tidy E (live.erase a) got := by
  cases ht with
  | fresh _ hlive =>
    rw [hlive] at ha
    exact absurd ha List.not_mem_nil
  | ring fl hB hf hgaps hunits =>
    have hperm := (List.perm_cons_erase ha).append_left fl
    have hB' : Blocks E h fl (a :: live.erase a) :=
      Blocks.transfer hB hperm hB.ring hB.sorted rfl rfl rfl
    obtain ⟨t, fl', hrun, hBt, hft, -, -, -, hkept⟩ := free_spec hB' hf
    refine ⟨t, hrun, .ring fl' hBt hft (hkept.gaps hgaps) ?_⟩
    rw [hkept.units, ← units_perm hperm, hunits, Nat.add_zero]

theorem Heap.Tidy.sbrk {n : ℤ} {x : Option ℕ} (ht : h.Tidy E live got) (hn : 0 ≤ n)
    (hrun : sbrk E n h = .ok (x, t)) : t.Tidy E live got := by
  obtain ⟨k, c, hk, hlt, rfl⟩ := sbrk_grows hn hrun
  cases ht with
  | fresh hf hl hge hlt' hgot => exact .fresh hf hl (Nat.le_trans hge hk) (hlt hlt') hgot
  | ring fl hB hf hgaps hunits => exact .ring fl (hB.asked hk (hlt hB.brk_lt) c) hf hgaps hunits

theorem Heap.Tidy.write (ht : h.Tidy E live got) {f : ℕ → Header}
    (hbase : ∀ k, f (h.next^[k] E.base) = h.header (h.next^[k] E.base))
    (hlive : ∀ a ∈ live, f a = h.header a) :
    ({ h with header := f } : Heap).Tidy E live got := by
  cases ht with
  | fresh hf hl hge hlt hgot => exact .fresh hf hl hge hlt hgot
  | ring fl hB hf hgaps hunits =>
    have hfl : ∀ a ∈ E.base :: fl, f a = h.header a := fun a ha => by
      obtain ⟨k, rfl⟩ := hB.ring.mem_iff.mp ha
      exact hbase k
    have hsize : ∀ a ∈ fl ++ live, ({ h with header := f } : Heap).size a = h.size a := by
      intro a ha
      refine congrArg Header.size ?_
      rcases List.mem_append.mp ha with ha | ha
      · exact hfl a (List.mem_cons_of_mem _ ha)
      · exact hlive a ha
    refine .ring fl (hB.headers hfl hlive) hf (fun a ha hin => ?_) ((units_congr hsize).trans hunits)
    rw [stop_eq, hsize a (List.mem_append_left live ha), ← stop_eq] at hin
    exact hgaps a ha hin

/-! ## Every run -/

theorem Heap.Tidy.step {s u : (Heap × List ℕ) × ℕ} {e : HeapEvent}
    (ht : s.1.1.Tidy E s.1.2 s.2) (hstep : (ringSystem E).step s e u) :
    u.1.1.Tidy E u.1.2 u.2 := by
  obtain ⟨⟨h, live⟩, got⟩ := s
  obtain ⟨⟨t, live'⟩, got'⟩ := u
  obtain ⟨⟨E', hE, hstep⟩, hsmall, hgot⟩ := hstep
  change h.Tidy E live got at ht
  have ht' := ht.withBase hE
  refine Heap.Tidy.withBase hE.symm ?_
  change got' = got + newUnits h e t at hgot
  change t.Tidy E' live' got'
  subst hgot
  cases hstep with
  | malloc_zero _ _ _ nbytes hn hrun =>
    rcases ht'.malloc (hsmall _ rfl) hrun with ⟨-, ht''⟩ | ⟨h0, -⟩
    · exact ht''
    · exact absurd rfl h0
  | malloc _ _ _ nbytes r hn hrun hr =>
    rcases ht'.malloc (hsmall _ rfl) hrun with ⟨h0, -⟩ | ⟨-, ht''⟩
    · exact absurd h0 hr
    · exact ht''
  | free _ _ _ a ha hrun =>
    obtain ⟨t', hrun', ht''⟩ := ht'.free ha
    rw [hrun] at hrun'
    obtain rfl : t = t' := by simpa using hrun'
    exact ht''
  | sbrk _ _ _ n x hn hrun => exact ht'.sbrk hn hrun
  | write _ _ f hbase hlive => exact ht'.write hbase hlive

theorem reachable_tidy {s : (Heap × List ℕ) × ℕ} (hr : (ringSystem E).Reachable s) :
    s.1.1.Tidy E s.1.2 s.2 := by
  refine hr.invariant (I := fun s => s.1.1.Tidy E s.1.2 s.2) ?_ fun s e t ht hs => ht.step hs
  rintro ⟨⟨h, live⟩, got⟩ ⟨⟨hf, hbrk, -, hlive⟩, hgot⟩
  refine .fresh hf hlive ?_ ?_ hgot
  · rw [hbrk]
    exact E.base_le
  · rw [hbrk]
    exact E.start_lt

theorem Blocks.freeRing (B : Blocks E h fl live) (hf : h.freep ∈ E.base :: fl) (hgaps : h.Gaps fl)
    (hunits : h.units (fl ++ live) = got) : FreeRing E h live fl got where
  circular := B.ring
  freep := hf
  increasing := B.sorted
  wraps := B.ring.wraps_once B.sorted
  gap a ha b hb hab := by
    have hle := B.not_inside (List.mem_append_left live ha) (List.mem_append_left live hb) hab
    have hne : h.stop a ≠ b := fun heq => hgaps a ha (heq ▸ hb)
    omega
  live_apart := (List.pairwise_append.mp B.apart).2.1
  free_apart a ha b hb := ((List.pairwise_append.mp B.apart).2.2 b hb a ha).symm
  block := B.block
  units := by rw [← hunits, Heap.units, Heap.units, Heap.units, List.map_append, List.sum_append]

/-- Before the first call there is no ring and nothing has been obtained. -/
theorem malloc_ring (E : Env) {s : (Heap × List ℕ) × ℕ} (hr : (ringSystem E).Reachable s) :
    ((s.1.1.freep = 0 ∧ s.1.2 = [] ∧ s.2 = 0) ∨ ∃ fl, FreeRing E s.1.1 s.1.2 fl s.2) ∧
      (∀ E' : Env, E'.base = E.base → ∀ nbytes, roundedBytes nbytes < 2 ^ 31 →
        ∃ r t, malloc E' nbytes s.1.1 = .ok (r, t)) ∧
      ∀ a ∈ s.1.2, ∃ t, free (after a 1) s.1.1 = .ok ((), t) := by
  have ht := reachable_tidy hr
  refine ⟨?_, fun E' hE nbytes hn => ?_, fun a ha => ?_⟩
  · cases ht with
    | fresh hf hl _ _ hgot => exact .inl ⟨hf, hl, hgot⟩
    | ring fl hB hf hgaps hunits => exact .inr ⟨fl, hB.freeRing hf hgaps hunits⟩
  · obtain ⟨r, t, _, _, hrun, -⟩ := malloc_spec (ht.withBase hE).ok (answered_of_rounded hn).2
    exact ⟨r, t, hrun⟩
  · obtain ⟨t, hrun, -⟩ := ht.free ha
    exact ⟨t, hrun⟩

theorem malloc_ring_sixteen : ∃ s : (Heap × List ℕ) × ℕ, s.1.2 ≠ [] ∧
    ∃ fl, FreeRing smallEnv s.1.1 s.1.2 fl s.2 := by
  have hrun : (match malloc smallEnv 16 freshHeap with
      | .ok (r, _) => decide (r ≠ 0)
      | .error _ => false) = true := by decide +kernel
  split at hrun
  next r t hrt =>
    have hr : r ≠ 0 := of_decide_eq_true hrun
    have hstep : HeapStep smallEnv (freshHeap, []) (.malloc 16) (t, [before r]) :=
      .malloc freshHeap t [] 16 r (by decide) hrt hr
    have hsmall : ∀ n, HeapEvent.malloc 16 = .malloc n → roundedBytes n < 2 ^ 31 := by
      rintro n ⟨⟩
      decide
    have hreach : (ringSystem smallEnv).Reachable
        ((t, [before r]), 0 + newUnits freshHeap (.malloc 16) t) :=
      System.Reachable.step (s := ((freshHeap, []), 0)) (e := .malloc 16)
        (.init ⟨⟨rfl, rfl, rfl, rfl⟩, rfl⟩) ⟨⟨smallEnv, rfl, hstep⟩, hsmall, rfl⟩
    refine ⟨((t, [before r]), 0 + newUnits freshHeap (.malloc 16) t), List.cons_ne_nil _ _, ?_⟩
    rcases (malloc_ring smallEnv hreach).1 with ⟨-, hnil, -⟩ | hring
    · exact absurd hnil (List.cons_ne_nil _ _)
    · exact hring
  next => exact absurd hrun (by decide)

end Ostep.Umalloc

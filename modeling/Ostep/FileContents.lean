import Ostep.BlockOwnership
import Mathlib.Data.Finset.Union
import Mathlib.Data.List.GetD
import Mathlib.Order.Interval.Finset.Nat

/-!
# The bytes of a file

A file without holes is an array of bytes. `writei` replaces a stretch of the array, which may
grow at its end, and `readi` returns a stretch. The blocks that a write adds are counted: it
goes through exactly when the bitmap has as many free ones.
-/

namespace Ostep.FsBlocks
open Hoare Ownership ByteWords TransitionSystem

variable {sb : Superblock} {i : ℕ} {K : Finset (ℕ × ℕ)} {s t u : St}

/-! ## Blocks that are added -/

def St.free (sb : Superblock) (s : St) : ℕ := left sb.size s.bitmap

/-- The slots for the bytes from `lo` to `hi`, that of the indirect block among them if it is
needed. -/
def fileSlots (i lo hi : ℕ) : Finset (ℕ × ℕ) :=
  ((Finset.Ico (lo / BSIZE) ((hi + BSIZE - 1) / BSIZE)).image fun bn => (i, slotOf bn)) ∪
    if NDIRECT * BSIZE < hi then {(i, NDIRECT)} else ∅

/-- Blocks are taken from the bitmap for the empty slots of `K`. -/
def Spends (sb : Superblock) (K : Finset (ℕ × ℕ)) (s t : St) : Prop :=
  s.free sb + vacant (t.own sb) K = t.free sb + vacant (s.own sb) K

/-- There are fewer free blocks than empty slots. -/
def Starved (sb : Superblock) (K : Finset (ℕ × ℕ)) (s : St) (e : Panic) : Prop :=
  e = .outOfBlocks ∧ s.free sb < vacant (s.own sb) K

theorem Starved.of_spends {e : Panic} (h : Starved sb K t e) (hs : Spends sb K s t) :
    Starved sb K s e := by
  refine ⟨h.1, ?_⟩
  have := h.2
  unfold Spends at hs
  omega

/-- `bmap` adds blocks to `i`: they are zeroed, and the other data stays. -/
structure Allocates (sb : Superblock) (i : ℕ) (K : Finset (ℕ × ℕ)) (s t : St) : Prop where
  grows : Grows sb i s t
  spends : Spends sb K s t
  data : ∀ p, p ≠ (i, NDIRECT) → s.own sb p ≠ 0 → t.data (s.own sb p) = s.data (s.own sb p)
  fresh : ∀ k, k ≠ NDIRECT → s.own sb (i, k) = 0 → t.own sb (i, k) ≠ 0 →
    t.data (t.own sb (i, k)) = fun _ => 0

theorem Allocates.refl (i : ℕ) (K : Finset (ℕ × ℕ)) (s : St) : Allocates sb i K s s :=
  ⟨.refl i s, rfl, fun _ _ _ => rfl, fun _ _ h hne => absurd h hne⟩

theorem Allocates.trans (h : Allocates sb i K s t) (k : Allocates sb i K t u) :
    Allocates sb i K s u where
  grows := h.grows.trans k.grows
  spends := by
    have h₁ := h.spends
    have h₂ := k.spends
    unfold Spends at *
    omega
  data p hp hne := by
    have hown := h.grows.own p hne
    rw [← h.data p hp hne, ← hown]
    exact k.data p hp (by rwa [hown])
  fresh l hl hzero hne := by
    by_cases ht : t.own sb (i, l) = 0
    · exact k.fresh l hl ht hne
    · rw [k.grows.own _ ht, k.data _ (by simpa using hl) ht]
      exact h.fresh l hl hzero ht

/-- One block goes to one empty slot; besides it only the indirect block may be written. -/
theorem Core.attach_allocates {k b : ℕ} (h : Core sb i s) (hb : s.bitmap b = false)
    (hlt : b < sb.size) (hslot : s.own sb (i, k) = 0) (hK : (i, k) ∈ K)
    (hbitmap : t.bitmap = Function.update s.bitmap b true)
    (hown : t.own sb = Function.update (s.own sb) (i, k) b) (hgrows : Grows sb i s t)
    (hdata : ∀ c, c ≠ b → c ≠ s.own sb (i, NDIRECT) → t.data c = s.data c)
    (hzero : t.data b = fun _ => 0) : Allocates sb i K s t where
  grows := hgrows
  spends := by
    have hleft := left_take hb hlt
    have hvacant := vacant_fill (K := K) hslot (h.owns.ne_zero hb) hK
    rw [Spends, St.free, St.free, hbitmap, hown]
    omega
  data p hp hne := by
    refine hdata _ (h.owns.ne_own hb p) fun heq => hp (h.owns.inj p _ heq hne)
  fresh l hl hempty hne := by
    by_cases hlk : l = k
    · rw [hown, hlk, Function.update_self, hzero]
    · rw [hown, Function.update_of_ne (by simpa using hlk)] at hne
      exact absurd hempty hne

theorem balloc_starved (hK : 0 < vacant (s.own sb) K) :
    Triple (Starved sb K s) (· = s) (balloc sb)
      (fun b t => s.bitmap b = false ∧ b < sb.size ∧ t = Allocated s b) := by
  refine Triple.error_weaken (E := fun e => NotFreeing e ∧ Starved sb K s e) ?_ fun _ h => h.2
  suffices hstarved : Triple (Starved sb K s) (· = s) (balloc sb) (fun _ _ => True) from
    ((balloc_spec s).and hstarved).weaken fun _ _ h => h.1
  refine .get_bind ?_
  rintro s rfl
  cases hfind : (List.range sb.size).find? (fun b => !s.bitmap b) with
  | none =>
    refine .throw ⟨rfl, ?_⟩
    have hused : ∀ b < sb.size, s.bitmap b = true := by simpa using hfind
    rw [St.free, left_zero hused]
    exact hK
  | some b =>
    rintro _ rfl
    trivial

theorem addrOrAlloc_allocates {k : ℕ} (hk : k ≤ NDIRECT) (h : Core sb i s) (hK : (i, k) ∈ K) :
    Triple (Starved sb K s) (· = s) (addrOrAlloc sb i k) (fun _ t => Allocates sb i K s t) := by
  refine .get_bind ?_
  rintro s rfl
  refine .ite (fun hzero => ?_) (fun _ => .pure ?_)
  · have hslot : s.own sb (i, k) = 0 := by rw [h.own_addrs hk, hzero]
    refine .bind (balloc_starved (vacant_pos hslot hK)) (fun b => ?_)
    rintro t ⟨hb, hlt, rfl⟩
    have hown := h.own_setAddr hk hzero hb
    obtain ⟨-, hgrows, -⟩ := h.attach (t := (Allocated s b).setIp i (Dinode.setAddr k b))
      hb hlt hslot rfl hown rfl (fun j hj => by simp [St.setIp, Allocated, hj])
      (by simp [St.setIp, Allocated, Dinode.setAddr])
    refine h.attach_allocates hb hlt hslot hK rfl hown hgrows (fun c hc _ => ?_) ?_
    · simp [Allocated, St.setIp, hc]
    · simp [Allocated, St.setIp]
  · rintro _ rfl
    exact .refl i K _

theorem entryOrAlloc_allocates {j addr : ℕ} (hj : j < NINDIRECT) (h : Core sb i s)
    (haddr : s.own sb (i, NDIRECT) = addr) (hne : addr ≠ 0) (hK : (i, NDIRECT + 1 + j) ∈ K) :
    Triple (Starved sb K s) (· = s) (entryOrAlloc sb addr j)
      (fun _ t => Allocates sb i K s t) := by
  refine .get_bind ?_
  rintro s rfl
  refine .ite (fun hzero => ?_) (fun _ => .pure ?_)
  · have hslot : s.own sb (i, NDIRECT + 1 + j) = 0 := by
      rw [h.own_entry hj haddr hne, hzero]
    refine .bind (balloc_starved (vacant_pos hslot hK)) (fun b => ?_)
    rintro t ⟨hb, hlt, rfl⟩
    have hab : b ≠ addr := haddr ▸ (h.owns.ne_own hb (i, NDIRECT)).symm
    have hown := h.own_setWord hj haddr hne hb hlt
    obtain ⟨-, hgrows, -⟩ := h.attach (t := Entered s addr j b) hb hlt hslot rfl hown rfl
      (fun _ _ => rfl) rfl
    refine h.attach_allocates hb hlt hslot hK rfl hown hgrows (fun c hc hca => ?_) ?_
    · rw [haddr] at hca
      simp [Allocated, hc, hca]
    · simp [Allocated, hab]
  · rintro _ rfl
    exact .refl i K _

/-- The slots that `bmap` fills for block `bn`. -/
def Room (K : Finset (ℕ × ℕ)) (i bn : ℕ) : Prop :=
  (i, slotOf bn) ∈ K ∧ (NDIRECT ≤ bn → (i, NDIRECT) ∈ K)

theorem bmap_allocates {bn : ℕ} (h : Core sb i s) (hbn : bn < MAXFILE) (hK : Room K i bn) :
    Triple (Starved sb K s) (· = s) (bmap sb i bn) (fun _ t => Allocates sb i K s t) := by
  have hmax : MAXFILE = NDIRECT + NINDIRECT := rfl
  refine .ite (fun hlt => ?_) (fun hlt => .ite (fun hlt' => ?_) (fun hge => by omega))
  · have hslot := hK.1
    rw [slotOf, if_pos hlt] at hslot
    exact addrOrAlloc_allocates (Nat.le_of_lt hlt) h hslot
  · have hslot := hK.1
    rw [slotOf, if_neg hlt, show bn + 1 = NDIRECT + 1 + (bn - NDIRECT) by omega] at hslot
    have hind := hK.2 (by omega)
    have hspec := (addrOrAlloc_spec (Nat.le_refl NDIRECT) s h).and
      (addrOrAlloc_allocates (Nat.le_refl NDIRECT) h hind)
    refine .bind (hspec.error_weaken fun _ h => h.2) (fun addr => .of_eq ?_)
    rintro u ⟨⟨hcore, hgrows, hat, hne, -⟩, halloc⟩
    refine ((entryOrAlloc_allocates hlt' hcore hat hne hslot).error_weaken fun e he => ?_).weaken
      fun _ t ht => halloc.trans ht
    exact he.of_spends halloc.spends

/-! ## Bytes -/

/-- The byte of file `i` at `off`. -/
def St.byte (sb : Superblock) (s : St) (i off : ℕ) : UInt8 :=
  s.data (s.own sb (i, slotOf (off / BSIZE))) (off % BSIZE)

/-- The array of bytes that file `i` is. -/
def St.contents (sb : Superblock) (s : St) (i : ℕ) : List UInt8 :=
  (List.range (s.inode i).size).map (s.byte sb i)

theorem slotOf_inj {bn bn' : ℕ} (h : slotOf bn = slotOf bn') : bn = bn' := by
  unfold slotOf at h
  split_ifs at h <;> omega

section Chunk
variable {off m x : ℕ}

/-- A chunk inside one block, by offsets in the block and by offsets in the file. -/
theorem chunk_iff (hx : x / BSIZE = off / BSIZE) :
    (off % BSIZE ≤ x % BSIZE ∧ x % BSIZE < off % BSIZE + m) ↔ off ≤ x ∧ x < off + m := by
  change x / 512 = off / 512 at hx
  change (off % 512 ≤ x % 512 ∧ x % 512 < off % 512 + m) ↔ off ≤ x ∧ x < off + m
  omega

theorem chunk_sub (hx : x / BSIZE = off / BSIZE) (hlo : off ≤ x) :
    x % BSIZE - off % BSIZE = x - off := by
  change x / 512 = off / 512 at hx
  change x % 512 - off % 512 = x - off
  omega

theorem chunk_block (hm : off % BSIZE + m ≤ BSIZE) (hlo : off ≤ x) (hhi : x < off + m) :
    x / BSIZE = off / BSIZE := by
  change off % 512 + m ≤ 512 at hm
  change x / 512 = off / 512
  omega

end Chunk

/-- What a write of `src` at `off` does to the disk. -/
structure Wrote (sb : Superblock) (i : ℕ) (K : Finset (ℕ × ℕ)) (s : St) (off : ℕ)
    (src : List UInt8) (t : St) : Prop where
  grows : Grows sb i s t
  spends : Spends sb K s t
  others : ∀ p : ℕ × ℕ, p.1 ≠ i → s.own sb p ≠ 0 → t.data (s.own sb p) = s.data (s.own sb p)
  owned : ∀ x, off ≤ x → x < off + src.length → t.own sb (i, slotOf (x / BSIZE)) ≠ 0
  written : ∀ x, off ≤ x → x < off + src.length → t.byte sb i x = src.getD (x - off) 0
  kept : ∀ x, ¬ (off ≤ x ∧ x < off + src.length) → s.own sb (i, slotOf (x / BSIZE)) ≠ 0 →
    t.byte sb i x = s.byte sb i x
  zero : ∀ x, ¬ (off ≤ x ∧ x < off + src.length) → s.own sb (i, slotOf (x / BSIZE)) = 0 →
    t.own sb (i, slotOf (x / BSIZE)) ≠ 0 → t.byte sb i x = 0

theorem Wrote.nil (i : ℕ) (K : Finset (ℕ × ℕ)) (s : St) (off : ℕ) : Wrote sb i K s off [] s where
  grows := .refl i s
  spends := rfl
  others _ _ _ := rfl
  owned x hlo hhi := by
    rw [List.length_nil] at hhi
    omega
  written x hlo hhi := by
    rw [List.length_nil] at hhi
    omega
  kept _ _ _ := rfl
  zero _ _ h hne := absurd h hne

/-- The state after the bytes are copied to the block `addr`. -/
def St.store (s : St) (addr off : ℕ) (bytes : List UInt8) : St :=
  { s with data := Function.update s.data addr ((s.data addr).store off bytes) }

/-- One turn of `writeLoop`: the part of `src` that goes to one block, once `bmap` has found it. -/
theorem Core.store_wrote {off m addr : ℕ} {src : List UInt8} (h : Core sb i u)
    (halloc : Allocates sb i K s u) (hat : u.own sb (i, slotOf (off / BSIZE)) = addr)
    (hne : addr ≠ 0) (hm : off % BSIZE + m ≤ BSIZE) (hlen : m ≤ src.length) :
    Wrote sb i K s off (src.take m) (u.store addr (off % BSIZE) (src.take m)) := by
  set t : St := u.store addr (off % BSIZE) (src.take m) with ht
  have hown : t.own sb = u.own sb := own_store h.owns hat hne (slotOf_ne _)
  have htake : (src.take m).length = m := by
    rw [List.length_take]
    omega
  -- a byte of the block that is stored to, and a byte of another block
  have hsame : ∀ x, x / BSIZE = off / BSIZE → t.byte sb i x =
      if off ≤ x ∧ x < off + m then src.getD (x - off) 0 else u.byte sb i x := by
    intro x hx
    rw [St.byte, St.byte, hown, hx, hat, ht]
    simp only [St.store, Function.update_self, Bytes.store, htake]
    simp only [chunk_iff hx]
    split_ifs with hin
    · rw [chunk_sub hx hin.1]
      simp only [List.getD_eq_getElem?_getD]
      rw [List.getElem?_take_of_lt (by omega)]
    · rfl
  have hother : ∀ p, p ≠ (i, slotOf (off / BSIZE)) → u.own sb p ≠ 0 →
      t.data (u.own sb p) = u.data (u.own sb p) := by
    intro p hp hpne
    refine Function.update_of_ne (fun heq => hp ?_) _ _
    exact h.owns.inj p _ (heq.trans hat.symm) hpne
  have hbyte : ∀ x, x / BSIZE ≠ off / BSIZE → u.own sb (i, slotOf (x / BSIZE)) ≠ 0 →
      t.byte sb i x = u.byte sb i x := by
    intro x hx hxne
    rw [St.byte, St.byte, hown, hother _ (fun heq => hx (slotOf_inj (Prod.mk.inj heq).2)) hxne]
  have hold : ∀ x, s.own sb (i, slotOf (x / BSIZE)) ≠ 0 → u.byte sb i x = s.byte sb i x := by
    intro x hx
    rw [St.byte, St.byte, halloc.grows.own _ hx,
      halloc.data _ (fun heq => slotOf_ne _ (Prod.mk.inj heq).2) hx]
  refine ⟨?_, ?_, fun p hp hpne => ?_, fun x hlo hhi => ?_, fun x hlo hhi => ?_,
    fun x hx hxne => ?_, fun x hx hzero hxne => ?_⟩
  · refine ⟨halloc.grows.dinode, halloc.grows.icache, halloc.grows.entry, fun p hp => ?_⟩
    rw [hown]
    exact halloc.grows.own p hp
  · have hspends := halloc.spends
    rw [Spends] at hspends ⊢
    rw [hown]
    exact hspends
  · have hu := halloc.grows.own p hpne
    rw [← halloc.data p (fun heq => hp (by rw [heq])) hpne, ← hu]
    exact hother p (fun heq => hp (by rw [heq])) (by rwa [hu])
  · rw [htake] at hhi
    rw [hown, chunk_block hm hlo hhi, hat]
    exact hne
  · rw [htake] at hhi
    rw [hsame x (chunk_block hm hlo hhi), if_pos ⟨hlo, hhi⟩]
    simp only [List.getD_eq_getElem?_getD]
    rw [List.getElem?_take_of_lt (by omega)]
  · rw [htake] at hx
    have hux : u.own sb (i, slotOf (x / BSIZE)) ≠ 0 := by rwa [halloc.grows.own _ hxne]
    by_cases hb : x / BSIZE = off / BSIZE
    · rw [hsame x hb, if_neg hx, hold x hxne]
    · rw [hbyte x hb hux, hold x hxne]
  · rw [htake] at hx
    rw [hown] at hxne
    have hu0 : u.byte sb i x = 0 := by
      rw [St.byte, halloc.fresh _ (slotOf_ne _) hzero hxne]
    by_cases hb : x / BSIZE = off / BSIZE
    · rw [hsame x hb, if_neg hx, hu0]
    · rw [hbyte x hb hxne, hu0]

theorem Wrote.append {off : ℕ} {src rest : List UInt8} (h : Wrote sb i K s off src t)
    (k : Wrote sb i K t (off + src.length) rest u) : Wrote sb i K s off (src ++ rest) u where
  grows := h.grows.trans k.grows
  spends := by
    have h₁ := h.spends
    have h₂ := k.spends
    unfold Spends at *
    omega
  others p hp hne := by
    have hown := h.grows.own p hne
    rw [← h.others p hp hne, ← hown]
    exact k.others p hp (by rwa [hown])
  owned x hlo hhi := by
    rw [List.length_append] at hhi
    by_cases hx : x < off + src.length
    · have hne := h.owned x hlo hx
      rwa [k.grows.own _ hne]
    · exact k.owned x (by omega) (by omega)
  written x hlo hhi := by
    rw [List.length_append] at hhi
    by_cases hx : x < off + src.length
    · rw [k.kept x (by omega) (h.owned x hlo hx), h.written x hlo hx]
      exact (List.getD_append src rest 0 (x - off) (by omega)).symm
    · rw [k.written x (by omega) (by omega), List.getD_append_right src rest 0 (x - off) (by omega)]
      congr 1
      omega
  kept x hx hne := by
    rw [List.length_append] at hx
    rw [k.kept x (by omega) (by rwa [h.grows.own _ hne]), h.kept x (by omega) hne]
  zero x hx hzero hne := by
    rw [List.length_append] at hx
    by_cases ht : t.own sb (i, slotOf (x / BSIZE)) = 0
    · exact k.zero x (by omega) ht hne
    · rw [k.kept x (by omega) ht, h.zero x (by omega) hzero ht]

/-! ## The loops -/

theorem fileSlots_room {off m n bn : ℕ} (hn : 0 < n) (hbn : bn = off / BSIZE)
    (hK : fileSlots i off (off + m + n) ⊆ K) : Room K i bn := by
  subst hbn
  constructor
  · apply hK
    refine Finset.mem_union_left _ (Finset.mem_image.mpr ⟨off / BSIZE, ?_, rfl⟩)
    rw [Finset.mem_Ico]
    change off / 512 ≤ off / 512 ∧ off / 512 < (off + m + n + 512 - 1) / 512
    omega
  · intro hge
    apply hK
    refine Finset.mem_union_right _ ?_
    rw [if_pos]
    · exact Finset.mem_singleton_self _
    · change 12 ≤ off / 512 at hge
      change 12 * 512 < off + m + n
      omega

theorem fileSlots_mono {lo lo' hi : ℕ} (h : lo ≤ lo') : fileSlots i lo' hi ⊆ fileSlots i lo hi := by
  refine Finset.union_subset_union (Finset.image_subset_image ?_) (Finset.Subset.refl _)
  exact Finset.Ico_subset_Ico (Nat.div_le_div_right h) (Nat.le_refl _)

theorem writeLoop_wrote {fuel off : ℕ} {src : List UInt8} (hfuel : src.length ≤ fuel)
    (hend : off + src.length ≤ MAXFILE * BSIZE) (hK : fileSlots i off (off + src.length) ⊆ K)
    (h : Core sb i s) : Triple (Starved sb K s) (· = s) (writeLoop sb i fuel off src)
      (fun _ t => Wrote sb i K s off src t) := by
  induction fuel generalizing off src s with
  | zero =>
    obtain rfl : src = [] := List.eq_nil_of_length_eq_zero (by omega)
    refine .pure ?_
    rintro _ rfl
    exact .nil i K _ off
  | succ fuel ih =>
    refine .ite (fun h0 => .pure ?_) (fun hn => ?_)
    · obtain rfl : src = [] := List.eq_nil_of_length_eq_zero h0
      rintro _ rfl
      exact .nil i K _ off
    have hlt : off / BSIZE < MAXFILE := by
      change off + src.length ≤ 140 * 512 at hend
      change off / 512 < 140
      omega
    have hroom : Room K i (off / BSIZE) :=
      fileSlots_room (m := 0) (n := src.length) (by omega) rfl (by simpa using hK)
    refine .bind (((bmap_spec s h).and (bmap_allocates h hlt hroom)).error_weaken fun _ h => h.2)
      (fun addr => .of_eq ?_)
    rintro u ⟨⟨hcore, -, -, hat, hne, -⟩, halloc⟩
    generalize hm : min src.length (BSIZE - off % BSIZE) = m
    have hm0 : 0 < m ∧ m ≤ src.length ∧ off % BSIZE + m ≤ BSIZE := by
      have := Nat.mod_lt off (show 0 < BSIZE by decide)
      omega
    have hwrote := hcore.store_wrote halloc hat hne hm0.2.2 hm0.2.1
    have htake : (src.take m).length = m := by
      rw [List.length_take]
      omega
    have hcore' : Core sb i (u.store addr (off % BSIZE) (src.take m)) := by
      refine ⟨?_, hcore.locked, hcore.lt, hcore.type⟩
      rw [St.store, own_store hcore.owns hat hne (slotOf_ne _)]
      exact hcore.owns
    have hdrop : off + m + (src.drop m).length = off + src.length := by
      rw [List.length_drop]
      omega
    have hfuel' : (src.drop m).length ≤ fuel := by
      rw [List.length_drop]
      omega
    have hrest := ih hfuel'
      (by rwa [hdrop]) (by rw [hdrop]; exact (fileSlots_mono (by omega)).trans hK) hcore'
    refine .bind (Q := fun _ v => v = u.store addr (off % BSIZE) (src.take m)) (.update ?_)
      (fun _ => ?_)
    · rintro _ rfl
      rfl
    refine (hrest.error_weaken fun e he => he.of_spends hwrote.spends).weaken fun _ v hv => ?_
    have hv' : Wrote sb i K (u.store addr (off % BSIZE) (src.take m)) (off + (src.take m).length)
        (src.drop m) v := by rwa [htake]
    have happend := hwrote.append hv'
    rwa [List.take_append_drop] at happend

theorem Core.indirect_ne {k : ℕ} (h : Core sb i s) (hk : NDIRECT < k)
    (hne : s.own sb (i, k) ≠ 0) : s.own sb (i, NDIRECT) ≠ 0 := by
  intro hzero
  rw [h.own_addrs (Nat.le_refl _)] at hzero
  exact hne (h.own_no_indirect hk hzero)

/-- The bytes that the loop of `readi` copies. -/
theorem readLoop_bytes {fuel off n size : ℕ} (hfuel : n ≤ fuel) (h : Core sb i s)
    (hcov : Covered sb s i size) (hle : off + n ≤ size) :
    readLoop sb i fuel off n s = .ok ((List.range n).map fun k => s.byte sb i (off + k), s) := by
  induction fuel generalizing off n with
  | zero =>
    obtain rfl : n = 0 := by omega
    rfl
  | succ fuel ih =>
    rw [readLoop]
    split_ifs with hn
    · rw [hn]
      rfl
    have hbn := block_start_lt hle hn
    obtain ⟨hlt, hne⟩ := hcov _ hbn
    generalize hm : min n (BSIZE - off % BSIZE) = m
    have hm0 : 0 < m ∧ m ≤ n ∧ off % BSIZE + m ≤ BSIZE := by
      have := Nat.mod_lt off (show 0 < BSIZE by decide)
      omega
    -- the first chunk, then the loop for the rest
    have hchunk : (s.data (s.own sb (i, slotOf (off / BSIZE)))).load (off % BSIZE) m =
        (List.range m).map fun k => s.byte sb i (off + k) := by
      refine List.map_congr_left fun k hk => ?_
      have hk := List.mem_range.mp hk
      have hblock : (off + k) / BSIZE = off / BSIZE := chunk_block hm0.2.2 (by omega) (by omega)
      have hsub := chunk_sub hblock (Nat.le_add_right off k)
      have hle : off % BSIZE ≤ (off + k) % BSIZE :=
        ((chunk_iff (m := m) hblock).mpr ⟨by omega, by omega⟩).1
      rw [St.byte, hblock]
      congr 1
      omega
    have hrest : (List.range (n - m)).map (fun k => s.byte sb i (off + m + k)) =
        ((List.range (n - m)).map (m + ·)).map fun k => s.byte sb i (off + k) := by
      rw [List.map_map]
      refine List.map_congr_left fun k _ => ?_
      rw [Function.comp_apply, Nat.add_assoc]
    have hsplit : List.range n = List.range m ++ (List.range (n - m)).map (m + ·) := by
      rw [← List.range_add]
      congr 1
      omega
    have hloop := @ih (off + m) (n - m) (by omega) (by omega)
    rw [run_bind_ok (bmap_found h hlt hne), run_get_bind]
    rw [run_bind_ok hloop, hsplit, List.map_append, hchunk, hrest]
    rfl

/-! ## The array -/

/-- The array `bs` with `src` in it from `off` on. -/
def overwrite {α : Type*} (bs : List α) (off : ℕ) (src : List α) : List α :=
  bs.take off ++ src ++ bs.drop (off + src.length)

theorem overwrite_nil {α : Type*} (bs : List α) (off : ℕ) : overwrite bs off [] = bs := by
  simp [overwrite]

theorem length_overwrite {α : Type*} {bs src : List α} {off : ℕ} (h : off ≤ bs.length) :
    (overwrite bs off src).length = max bs.length (off + src.length) := by
  simp only [overwrite, List.length_append, List.length_take, List.length_drop]
  omega

theorem getElem?_overwrite {α : Type*} {bs src : List α} {off : ℕ} (h : off ≤ bs.length) (x : ℕ) :
    (overwrite bs off src)[x]? =
      if off ≤ x ∧ x < off + src.length then src[x - off]? else bs[x]? := by
  have htake : (bs.take off).length = off := by
    rw [List.length_take]
    omega
  unfold overwrite
  split_ifs with hx
  · rw [List.getElem?_append_left (by rw [List.length_append, htake]; omega),
      List.getElem?_append_right (by omega), htake]
  · by_cases hlo : x < off
    · rw [List.append_assoc, List.getElem?_append_left (by omega), List.getElem?_take_of_lt hlo]
    · rw [List.getElem?_append_right (by rw [List.length_append, htake]; omega),
        List.getElem?_drop, List.length_append, htake]
      congr 1
      omega

theorem overwrite_append {α : Type*} {bs src rest : List α} {off : ℕ} (h : off ≤ bs.length) :
    overwrite (overwrite bs off src) (off + src.length) rest = overwrite bs off (src ++ rest) := by
  have hlen : (bs.take off ++ src).length = off + src.length := by simp [h]
  have htake : (overwrite bs off src).take (off + src.length) = bs.take off ++ src :=
    List.take_left' hlen
  have hdrop : (overwrite bs off src).drop (off + src.length + rest.length) =
      bs.drop (off + src.length + rest.length) := by
    rw [overwrite, ← List.drop_drop, List.drop_left' hlen, List.drop_drop]
  rw [overwrite, htake, hdrop, overwrite, List.length_append, ← Nat.add_assoc, ← List.append_assoc]

theorem getElem?_contents (s : St) (i x : ℕ) :
    (s.contents sb i)[x]? = if x < (s.inode i).size then some (s.byte sb i x) else none := by
  unfold St.contents
  split_ifs with hx <;> simp [hx]

/-- A call that turns the file `i` of `s` into the array `bs` and leaves the others alone. -/
structure Rewrote (sb : Superblock) (i : ℕ) (s : St) (bs : List UInt8) (t : St) : Prop where
  contents : t.contents sb i = bs
  locked : t.Locked i
  type : (t.inode i).type = (s.inode i).type
  icache : ∀ j, j ≠ i → t.icache j = s.icache j
  dinode : ∀ j, j ≠ i → t.dinode j = s.dinode j
  own : ∀ p, s.own sb p ≠ 0 → t.own sb p = s.own sb p
  others : ∀ p : ℕ × ℕ, p.1 ≠ i → s.own sb p ≠ 0 → t.data (s.own sb p) = s.data (s.own sb p)

/-- What the loop leaves, with the new size of the inode. -/
theorem Wrote.rewrote {off : ℕ} {src : List UInt8} (h : Wrote sb i K s off src t)
    (hcov : Covered sb s i (s.inode i).size) (hoff : off ≤ (s.inode i).size) {u : St}
    (hlocked : u.Locked i) (htype : (u.inode i).type = (s.inode i).type)
    (hsize : (u.inode i).size = max (s.inode i).size (off + src.length))
    (hicache : ∀ j, j ≠ i → u.icache j = s.icache j)
    (hdinode : ∀ j, j ≠ i → u.dinode j = s.dinode j) (hown : u.own sb = t.own sb)
    (hdata : u.data = t.data) :
    Rewrote sb i s (overwrite (s.contents sb i) off src) u := by
  have hbyte : ∀ x, u.byte sb i x = t.byte sb i x := by
    intro x
    rw [St.byte, St.byte, hown, hdata]
  have hlen : (s.contents sb i).length = (s.inode i).size := by simp [St.contents]
  refine ⟨?_, hlocked, htype, hicache, hdinode, fun p hp => ?_, fun p hp hne => ?_⟩
  · refine List.ext_getElem? fun x => ?_
    rw [getElem?_overwrite (by rwa [hlen]), getElem?_contents, getElem?_contents, hsize, hbyte]
    by_cases hx : off ≤ x ∧ x < off + src.length
    · have hsrc : x - off < src.length := by omega
      rw [if_pos (by omega), if_pos hx, h.written x hx.1 hx.2, List.getD_eq_getElem?_getD,
        List.getElem?_eq_getElem hsrc]
      rfl
    · rw [if_neg hx]
      by_cases hin : x < (s.inode i).size
      · have hblock : x / BSIZE * BSIZE < (s.inode i).size :=
          Nat.lt_of_le_of_lt (Nat.div_mul_le_self x BSIZE) hin
        rw [if_pos (by omega), if_pos hin, h.kept x hx (hcov _ hblock).2]
      · rw [if_neg (by omega), if_neg hin]
  · rw [hown]
    exact h.grows.own p hp
  · rw [hdata]
    exact h.others p hp hne

/-! ## The calls -/

/-- The arguments that `writei` answers with -1. -/
def Refused (size off n : ℕ) : Prop :=
  size < off ∨ 2 ^ 32 ≤ off + n ∨ MAXFILE * BSIZE < off + n

instance (size off n : ℕ) : Decidable (Refused size off n) :=
  inferInstanceAs (Decidable (_ ∨ _ ∨ _))

theorem wraps_iff {off n : ℕ} (hoff : off < 2 ^ 32) (hn : n < 2 ^ 32) :
    (off + n) % 2 ^ 32 < off ↔ 2 ^ 32 ≤ off + n := by
  omega

theorem contents_slice {off n : ℕ} (h : off + n ≤ (s.inode i).size) :
    ((s.contents sb i).drop off).take n = (List.range n).map fun k => s.byte sb i (off + k) := by
  refine List.ext_getElem? fun x => ?_
  rw [List.getElem?_take, List.getElem?_drop, getElem?_contents]
  by_cases hx : x < n
  · rw [if_pos hx, if_pos (by omega)]
    simp [hx]
  · rw [if_neg hx]
    simp [Nat.not_lt.mp hx]

/-- `readi` returns a stretch of the array, and changes nothing. -/
theorem readi_contents {off n : ℕ} (h : Core sb i s) (hcov : Covered sb s i (s.inode i).size)
    (hdev : (s.inode i).type ≠ T_DEV) (hoff : off < 2 ^ 32) (hn : n < 2 ^ 32) :
    readi sb i off n s = .ok (if (s.inode i).size < off ∨ 2 ^ 32 ≤ off + n then none
      else some (((s.contents sb i).drop off).take n), s) := by
  have hlen : (s.contents sb i).length = (s.inode i).size := by simp [St.contents]
  have hread : ∀ m, off + m ≤ (s.inode i).size → readLoop sb i m off m s =
      .ok (((s.contents sb i).drop off).take m, s) := fun m hm => by
    rw [contents_slice hm]
    exact readLoop_bytes (Nat.le_refl m) h hcov hm
  rw [readi, run_get_bind]
  simp only [← h.locked.inode, wraps_iff hoff hn, if_neg hdev]
  split_ifs with hbad hlong
  · rfl
  · have htake : ((s.contents sb i).drop off).take n =
        ((s.contents sb i).drop off).take ((s.inode i).size - off) := by
      rw [List.take_of_length_le, List.take_of_length_le] <;> rw [List.length_drop, hlen]
      omega
    rw [run_bind_ok (hread _ (by omega)), htake]
    rfl
  · rw [run_bind_ok (hread n (by omega))]
    rfl

/-- The end of `writei`, from the state that the loop leaves. -/
theorem Wrote.finish {off : ℕ} {src : List UInt8} (h : Wrote sb i K s off src t)
    (hcore : Core sb i s) (hcov : Covered sb s i (s.inode i).size) (hoff : off ≤ (s.inode i).size)
    (ht : Core sb i t) (hsame : off + src.length ≤ (s.inode i).size → t.icache i = s.icache i) :
    ∃ u, writei.grow i src off (s.icache i).ip.size t = .ok ((), u) ∧
      Rewrote sb i s (overwrite (s.contents sb i) off src) u := by
  have htype : (t.inode i).type = (s.inode i).type := by
    rw [ht.locked.inode, hcore.locked.inode, h.grows.entry]
  unfold writei.grow
  rw [← hcore.locked.inode]
  split_ifs with hgrow
  · have hlocked := (setIp_locked t i i fun d => { d with size := off + src.length }).mpr ht.locked
    have hinode : ((t.setIp i fun d => { d with size := off + src.length }).iupdate i).inode i =
        { t.inode i with size := off + src.length } := by
      rw [iupdate_inode hlocked, hlocked.inode, setIp_icache, ht.locked.inode]
    have hsize := congrArg Dinode.size hinode
    refine ⟨_, rfl, h.rewrote hcov hoff hlocked ((congrArg Dinode.type hinode).trans htype)
      (hsize.trans (Nat.max_eq_right (Nat.le_of_lt hgrow.2)).symm)
      (fun j hj => ?_) (fun j hj => ?_) ?_ rfl⟩
    · rw [← h.grows.icache j hj]
      exact setIp_icache_of_ne t (fun d => { d with size := off + src.length }) hj
    · rw [← h.grows.dinode]
      exact iupdate_dinode_of_ne _ hj
    · exact ht.locked.own_writeBack (fun _ => rfl) fun _ => rfl
  · refine ⟨t, rfl, h.rewrote hcov hoff ht.locked htype ?_ h.grows.icache
      (fun j _ => congrFun h.grows.dinode j) rfl rfl⟩
    have hle : off + src.length ≤ (s.inode i).size := by omega
    rw [ht.locked.inode, hsame hle, ← hcore.locked.inode, Nat.max_eq_left hle]

/-- The blocks that a write of `n` bytes at `off` has to add. -/
def St.missing (sb : Superblock) (s : St) (i off n : ℕ) : ℕ :=
  vacant (s.own sb) (fileSlots i off (off + n))

theorem Core.vacant_fileSlots {off n : ℕ} (h : Core sb i t) (hcov : Covered sb t i (off + n)) :
    vacant (t.own sb) (fileSlots i off (off + n)) = 0 := by
  refine vacant_zero fun p hp => ?_
  rcases Finset.mem_union.mp hp with hp | hp
  · obtain ⟨bn, hbn, rfl⟩ := Finset.mem_image.mp hp
    refine (hcov bn ?_).2
    have := (Finset.mem_Ico.mp hbn).2
    change bn < (off + n + 512 - 1) / 512 at this
    change bn * 512 < off + n
    omega
  · split_ifs at hp with hlong
    · rw [Finset.mem_singleton.mp hp]
      exact h.indirect_ne (k := slotOf NDIRECT) (by decide) (hcov NDIRECT hlong).2
    · exact absurd hp (Finset.notMem_empty p)

/-- Once the arguments are accepted, the free blocks decide. -/
theorem writei_accepted {off : ℕ} {src : List UInt8} (h : Core sb i s)
    (hcov : Covered sb s i (s.inode i).size) (hdev : (s.inode i).type ≠ T_DEV)
    (hok : ¬ Refused (s.inode i).size off src.length) :
    Triple (fun e => e = .outOfBlocks ∧ s.free sb < s.missing sb i off src.length) (· = s)
      (writei sb i src off) (fun r t => r = some src.length ∧
        s.missing sb i off src.length ≤ s.free sb ∧
        Rewrote sb i s (overwrite (s.contents sb i) off src) t) := by
  simp only [Refused, not_or, Nat.not_lt, Nat.not_le] at hok
  obtain ⟨hle, hwrap, hmax⟩ := hok
  have hmod : (off + src.length) % 2 ^ 32 = off + src.length := Nat.mod_eq_of_lt hwrap
  refine .get_bind ?_
  rintro s rfl
  simp only [← h.locked.inode, hmod]
  rw [if_neg hdev, if_neg (by omega), if_neg (by omega)]
  have hcov' : Covered sb s i (s.icache i).ip.size := by rwa [← h.locked.inode]
  have hstart : Writing sb i s off s :=
    ⟨h, .refl i s, fun bn hbn => hcov bn (by omega), fun _ => rfl⟩
  have hloop := (writeLoop_spec hcov' (Nat.le_refl _) s hstart).and
    (writeLoop_wrote (K := fileSlots i off (off + src.length)) (Nat.le_refl _) hmax
      (Finset.Subset.refl _) h)
  refine .bind (hloop.error_weaken fun _ h => h.2) (fun _ => .of_eq ?_)
  rintro t ⟨hwriting, hwrote⟩
  obtain ⟨u, hgrow, hrewrote⟩ := hwrote.finish h hcov hle hwriting.core fun hend =>
    hwriting.same (by rwa [← h.locked.inode])
  refine .run_bind (h.locked.inode ▸ hgrow) (.pure ?_)
  rintro _ rfl
  have hspends := hwrote.spends
  rw [Spends, hwriting.core.vacant_fileSlots hwriting.covered] at hspends
  exact ⟨rfl, Nat.le.intro (Nat.add_comm _ _ ▸ hspends.symm), hrewrote⟩

theorem writei_refused {off : ℕ} {src : List UInt8} (h : s.Locked i)
    (hdev : (s.inode i).type ≠ T_DEV) (hoff : off < 2 ^ 32) (hn : src.length < 2 ^ 32)
    (hbad : Refused (s.inode i).size off src.length) : writei sb i src off s = .ok (none, s) := by
  rw [writei, run_get_bind]
  simp only [← h.inode, wraps_iff hoff hn, if_neg hdev]
  by_cases hfirst : (s.inode i).size < off ∨ 2 ^ 32 ≤ off + src.length
  · rw [if_pos hfirst]
    rfl
  · have hmod : (off + src.length) % 2 ^ 32 = off + src.length := Nat.mod_eq_of_lt (by omega)
    have hlong : MAXFILE * BSIZE < off + src.length := by
      rcases hbad with h | h | h
      · exact absurd (.inl h) hfirst
      · exact absurd (.inr h) hfirst
      · exact h
    rw [if_neg hfirst, hmod, if_pos hlong]
    rfl

theorem system_inv {s₀ : St} {es : List Event} (h₀ : Consistent sb s₀)
    (h : (system sb).Run s₀ es s) : Inv sb s :=
  h.invariant h₀.inv fun _ _ _ hs hstep => hs.next hstep

/-- A smaller disk, without free blocks at its end. -/
theorem Consistent.shrink {sb' : Superblock} (h : Consistent sb s) (hmeta : sb'.nmeta = sb.nmeta)
    (hn : sb'.ninodes = sb.ninodes) (hsize : sb'.size ≤ sb.size)
    (hfree : ∀ b, sb'.size ≤ b → s.bitmap b = false) : Consistent sb' s := by
  have hpointer : pointer sb' s.data s.dinode = pointer sb s.data s.dinode := by
    funext p
    rw [pointer, pointer, hn]
  refine ⟨?_, fun i hi hne bn hbn => ?_, h.icache⟩
  · rw [hpointer, hmeta]
    refine ⟨h.owns.pos, h.owns.reserved, fun p hp => ⟨(h.owns.range p hp).1, ?_⟩, h.owns.inj,
      fun b hlo hhi => h.owns.used_iff b hlo (Nat.lt_of_lt_of_le hhi hsize)⟩
    by_contra hge
    have hused := h.owns.used_own hp
    rw [hfree _ (Nat.not_lt.mp hge)] at hused
    cases hused
  · rw [hpointer]
    exact h.covered i (hn ▸ hi) hne bn hbn

end Ostep.FsBlocks

import Ostep.OpenFile
import Ostep.Recording

/-!
# The blocks that a write logs

`writei` and the functions under it with their calls of `log_write`: the record is the list of
the block numbers logged so far in the transaction. The log has one slot for each different
block: the data blocks and the indirect block, a block of the bitmap for each block that is
allocated, and the block of the inode. A piece of `filewrite` never needs more than
`MAXOPBLOCKS` slots, wherever it starts and whatever the bitmap looks like.
-/

namespace Ostep.FsBlocks
open Hoare Ownership ByteWords Recording

abbrev MAXOPBLOCKS : ℕ := 10
/-- Inodes per block; a `dinode` has 64 bytes. -/
abbrev IPB : ℕ := BSIZE / 64

def BBLOCK (sb : Superblock) (b : ℕ) : ℕ := b / BPB + sb.bmapstart

def IBLOCK (inodestart i : ℕ) : ℕ := i / IPB + inodestart

abbrev LogFs : Type → Type := Recorder St Panic ℕ

variable (sb : Superblock) (inodestart : ℕ)

namespace Logged

def log_write (b : ℕ) : LogFs Unit := record b

/-- The bitmap's block, and the new block that `bzero` clears. -/
def balloc : LogFs ℕ := do
  let b ← lift (FsBlocks.balloc sb)
  log_write (BBLOCK sb b)
  log_write b
  return b

def addrOrAlloc (i k : ℕ) : LogFs ℕ := do
  let p ← get
  if (p.1.icache i).ip.addrs k = 0 then do
    let addr ← balloc sb
    lift (setIp i (Dinode.setAddr k addr))
    return addr
  else return (p.1.icache i).ip.addrs k

def entryOrAlloc (addr j : ℕ) : LogFs ℕ := do
  let p ← get
  if (p.1.data addr).word j = 0 then do
    let b ← balloc sb
    lift (modify fun s => { s with
      data := Function.update s.data addr ((s.data addr).setWord j b) })
    log_write addr
    return b
  else return (p.1.data addr).word j

def bmap (i bn : ℕ) : LogFs ℕ :=
  if bn < NDIRECT then addrOrAlloc sb i bn
  else if bn - NDIRECT < NINDIRECT then do
    let addr ← addrOrAlloc sb i NDIRECT
    entryOrAlloc sb addr (bn - NDIRECT)
  else lift (throw .bmapRange)

def writeLoop (i : ℕ) : ℕ → ℕ → List UInt8 → LogFs Unit
  | 0, _, _ => pure ()
  | fuel + 1, off, src =>
    if src.length = 0 then pure ()
    else do
      let addr ← bmap sb i (off / BSIZE)
      let m := min src.length (BSIZE - off % BSIZE)
      lift (modify fun s => { s with
        data := Function.update s.data addr ((s.data addr).store (off % BSIZE) (src.take m)) })
      log_write addr
      writeLoop i fuel (off + m) (src.drop m)

def writei (i : ℕ) (src : List UInt8) (off : ℕ) : LogFs (Option ℕ) := do
  let p ← get
  let ip := (p.1.icache i).ip
  let n := src.length
  if ip.type = T_DEV then return if ip.major = CONSOLE then some n else none
  else if off > ip.size ∨ (off + n) % 2 ^ 32 < off then return none
  else if (off + n) % 2 ^ 32 > MAXFILE * BSIZE then return none
  else do
    writeLoop sb i n off src
    grow ip.size
    return some n
where
  grow (size : ℕ) : LogFs Unit :=
    if 0 < src.length ∧ off + src.length > size then do
      lift (setIp i (fun d => { d with size := off + src.length }))
      lift (iupdate i)
      log_write (IBLOCK inodestart i)
    else pure ()

end Logged

/-! ## Without the record -/

variable {sb inodestart} {i : ℕ} {K : Finset (ℕ × ℕ)} {s t u : St} {l l' : List ℕ}

theorem balloc_erases : Erases (Logged.balloc sb) (balloc sb) := by
  have h : Erases (Logged.balloc sb) (balloc sb >>= pure) :=
    .bind (.lift _) fun b => .record_bind (.record_bind (.pure b))
  rwa [bind_pure] at h

theorem addrOrAlloc_erases {k : ℕ} : Erases (Logged.addrOrAlloc sb i k) (addrOrAlloc sb i k) :=
  .get_bind fun _ _ => .ite (.bind balloc_erases fun _ => .bind (.lift _) fun _ => .pure _) (.pure _)

theorem entryOrAlloc_erases {addr j : ℕ} :
    Erases (Logged.entryOrAlloc sb addr j) (entryOrAlloc sb addr j) :=
  .get_bind fun _ _ => .ite (.bind balloc_erases fun _ => .bind (.lift _) fun _ =>
    .record_bind (.pure _)) (.pure _)

theorem bmap_erases {bn : ℕ} : Erases (Logged.bmap sb i bn) (bmap sb i bn) :=
  .ite addrOrAlloc_erases (.ite (.bind addrOrAlloc_erases fun _ => entryOrAlloc_erases) (.lift _))

theorem writeLoop_erases {fuel off : ℕ} {src : List UInt8} :
    Erases (Logged.writeLoop sb i fuel off src) (writeLoop sb i fuel off src) := by
  induction fuel generalizing off src with
  | zero => exact .pure _
  | succ fuel ih =>
    exact .ite (.pure _) (.bind bmap_erases fun _ => .bind (.lift _) fun _ => .record_bind ih)

/-- `writei` with its calls of `log_write` is `writei`. -/
theorem writei_erases {src : List UInt8} {off : ℕ} :
    Erases (Logged.writei sb inodestart i src off) (writei sb i src off) := by
  refine .get_bind fun s l => .ite (.pure _) (.ite (.pure _) (.ite (.pure _) ?_))
  refine .bind writeLoop_erases fun _ => .bind (.ite ?_ (.pure _)) fun _ => .pure _
  have h : Erases (lift (setIp i (fun d => { d with size := off + src.length })) >>= fun _ =>
      lift (iupdate i) >>= fun _ => Logged.log_write (IBLOCK inodestart i))
      (setIp i (fun d => { d with size := off + src.length }) >>= fun _ => iupdate i >>= pure) :=
    .bind (.lift _) fun _ => .bind (.lift _) fun _ => fun _ _ => rfl
  simpa only [bind_pure] using h

/-! ## What is logged -/

/-- From `s` to `t`: the new entries of the record are blocks in slots of `K`, and at most one
other block for each slot of `K` that was filled. -/
structure Logs (sb : Superblock) (i : ℕ) (K : Finset (ℕ × ℕ)) (s : St) (l : List ℕ) (t : St)
    (l' : List ℕ) : Prop where
  own : ∀ p, s.own sb p ≠ 0 → t.own sb p = s.own sb p
  blocks : ∃ B : Finset ℕ, B.card + vacant (t.own sb) K ≤ vacant (s.own sb) K ∧
    ∀ b ∈ l', b ∈ l ∨ b ∈ B ∨ ∃ p ∈ K, t.own sb p = b ∧ b ≠ 0

theorem Logs.refl (i : ℕ) (K : Finset (ℕ × ℕ)) (s : St) (l : List ℕ) : Logs sb i K s l s l :=
  ⟨fun _ _ => rfl, ∅, by simp, fun _ hb => .inl hb⟩

theorem Logs.trans {k : List ℕ} (h : Logs sb i K s l t l') (h' : Logs sb i K t l' u k) :
    Logs sb i K s l u k := by
  refine ⟨fun p hp => ?_, ?_⟩
  · have hown := h.own p hp
    rw [h'.own p (by rwa [hown]), hown]
  · obtain ⟨B, hB, hl⟩ := h.blocks
    obtain ⟨C, hC, hk⟩ := h'.blocks
    refine ⟨B ∪ C, ?_, fun b hb => ?_⟩
    · have := Finset.card_union_le B C
      omega
    · rcases hk b hb with hb | hb | hb
      · rcases hl b hb with hb | hb | ⟨p, hp, rfl, hne⟩
        · exact .inl hb
        · exact .inr (.inl (Finset.mem_union_left _ hb))
        · exact .inr (.inr ⟨p, hp, h'.own p hne, hne⟩)
      · exact .inr (.inl (Finset.mem_union_right _ hb))
      · exact .inr (.inr hb)

/-- A block in one of the slots is logged. -/
theorem Logs.record {p : ℕ × ℕ} {b : ℕ} (h : Logs sb i K s l t l') (hp : p ∈ K)
    (hown : t.own sb p = b) (hne : b ≠ 0) : Logs sb i K s l t (l' ++ [b]) := by
  refine h.trans ⟨fun _ _ => rfl, ∅, by simp, fun c hc => ?_⟩
  rcases List.mem_append.mp hc with hc | hc
  · exact .inl hc
  · exact .inr (.inr ⟨p, hp, by rw [hown, List.mem_singleton.mp hc], by
      rwa [List.mem_singleton.mp hc]⟩)

/-- The number of slots that the record takes in the log. -/
theorem Logs.card_le (h : Logs sb i K s [] t l) :
    l.toFinset.card ≤ vacant (s.own sb) K + K.card := by
  obtain ⟨B, hB, hl⟩ := h.blocks
  have hsub : l.toFinset ⊆ B ∪ K.image (t.own sb) := by
    intro b hb
    rcases hl b (List.mem_toFinset.mp hb) with hb | hb | ⟨p, hp, rfl, -⟩
    · exact absurd hb List.not_mem_nil
    · exact Finset.mem_union_left _ hb
    · exact Finset.mem_union_right _ (Finset.mem_image_of_mem _ hp)
  have h₁ := Finset.card_le_card hsub
  have h₂ := Finset.card_union_le B (K.image (t.own sb))
  have h₃ := Finset.card_image_le (s := K) (f := t.own sb)
  omega

/-- What a panic leaves: the record of a run that went as far as some state. -/
def Cut (sb : Superblock) (i : ℕ) (K : Finset (ℕ × ℕ)) (s : St) (l : List ℕ) (e : Panic × List ℕ) :
    Prop := ∃ t, Logs sb i K s l t e.2

theorem Cut.of_logs {e : Panic × List ℕ} (h : Cut sb i K t l' e) (hs : Logs sb i K s l t l') :
    Cut sb i K s l e := by
  obtain ⟨u, hu⟩ := h
  exact ⟨u, hs.trans hu⟩

theorem balloc_logged : Triple (fun e => e.2 = l) (· = (s, l)) (Logged.balloc sb) (fun b p =>
    s.bitmap b = false ∧ b < sb.size ∧ p = (Allocated s b, l ++ [BBLOCK sb b] ++ [b])) := by
  refine .bind ((lift_triple (balloc_spec s)).error_weaken fun e he => he.2) fun b => .of_eq ?_
  rintro ⟨t, k⟩ ⟨⟨hb, hlt, rfl⟩, rfl⟩
  rintro _ rfl
  exact ⟨hb, hlt, rfl⟩

/-- A new block in an empty slot of `K`, logged with its block of the bitmap. -/
theorem Core.attach_logs {k b : ℕ} (h : Core sb i s) (hb : s.bitmap b = false)
    (hslot : s.own sb (i, k) = 0) (hK : (i, k) ∈ K)
    (hown : t.own sb = Function.update (s.own sb) (i, k) b) :
    Logs sb i K s l t (l ++ [BBLOCK sb b] ++ [b]) := by
  have hne := h.owns.ne_zero hb
  have hat : t.own sb (i, k) = b := by rw [hown, Function.update_self]
  refine ⟨fun p hp => ?_, {BBLOCK sb b}, ?_, fun c hc => ?_⟩
  · rw [hown, Function.update_of_ne]
    rintro rfl
    exact hp hslot
  · have := vacant_fill (K := K) hslot hne hK
    rw [hown, Finset.card_singleton]
    omega
  · simp only [List.mem_append, List.mem_singleton] at hc
    rcases hc with (hc | rfl) | rfl
    · exact .inl hc
    · exact .inr (.inl (Finset.mem_singleton_self _))
    · exact .inr (.inr ⟨_, hK, hat, hne⟩)

theorem addrOrAlloc_logged {k : ℕ} (hk : k ≤ NDIRECT) (h : Core sb i s) (hK : (i, k) ∈ K) :
    Triple (Cut sb i K s l) (· = (s, l)) (Logged.addrOrAlloc sb i k)
      (fun _ p => Logs sb i K s l p.1 p.2) := by
  refine .get_bind ?_
  rintro _ rfl
  refine .ite (fun hzero => ?_) (fun _ => .pure ?_)
  · refine .bind (balloc_logged.error_weaken fun e he => ⟨s, by rw [he]; exact .refl i K s l⟩)
      (fun b => .of_eq ?_)
    rintro _ ⟨hb, -, rfl⟩
    have hslot : s.own sb (i, k) = 0 := by rw [h.own_addrs hk, hzero]
    refine .bind lift_modify (fun _ => .pure ?_)
    rintro _ rfl
    exact h.attach_logs hb hslot hK (h.own_setAddr hk hzero hb)
  · rintro _ rfl
    exact .refl i K s l

theorem entryOrAlloc_logged {j addr : ℕ} (hj : j < NINDIRECT) (h : Core sb i s)
    (haddr : s.own sb (i, NDIRECT) = addr) (hne : addr ≠ 0) (hK : (i, NDIRECT + 1 + j) ∈ K)
    (hind : (i, NDIRECT) ∈ K) : Triple (Cut sb i K s l) (· = (s, l))
      (Logged.entryOrAlloc sb addr j) (fun _ p => Logs sb i K s l p.1 p.2) := by
  refine .get_bind ?_
  rintro _ rfl
  refine .ite (fun hzero => ?_) (fun _ => .pure ?_)
  · refine .bind (balloc_logged.error_weaken fun e he => ⟨s, by rw [he]; exact .refl i K s l⟩)
      (fun b => .of_eq ?_)
    rintro _ ⟨hb, hlt, rfl⟩
    have hslot : s.own sb (i, NDIRECT + 1 + j) = 0 := by rw [h.own_entry hj haddr hne, hzero]
    have hlogs := h.attach_logs (l := l) hb hslot hK (h.own_setWord hj haddr hne hb hlt)
    have hat : (Entered s addr j b).own sb (i, NDIRECT) = addr := by
      rw [hlogs.own _ (by rwa [haddr]), haddr]
    refine .bind lift_modify (fun _ => .of_eq ?_)
    rintro _ rfl
    refine .bind record_triple (fun _ => .pure ?_)
    rintro _ rfl
    exact hlogs.record hind hat hne
  · rintro _ rfl
    exact .refl i K s l

theorem bmap_logged {bn : ℕ} (h : Core sb i s) (hK : Room K i bn) :
    Triple (Cut sb i K s l) (· = (s, l)) (Logged.bmap sb i bn)
      (fun _ p => Logs sb i K s l p.1 p.2) := by
  refine .ite (fun hlt => ?_) (fun hlt => .ite (fun hlt' => ?_) (fun _ => ?_))
  · have hslot := hK.1
    rw [slotOf, if_pos hlt] at hslot
    exact addrOrAlloc_logged (Nat.le_of_lt hlt) h hslot
  · have hslot := hK.1
    rw [slotOf, if_neg hlt, show bn + 1 = NDIRECT + 1 + (bn - NDIRECT) by omega] at hslot
    have hind := hK.2 (by omega)
    have hspec := (addrOrAlloc_erases.triple (l := l) (addrOrAlloc_spec (Nat.le_refl NDIRECT) s h)).and
      (addrOrAlloc_logged (Nat.le_refl NDIRECT) h hind)
    refine .bind (hspec.error_weaken fun _ h => h.2) (fun addr => .of_eq ?_)
    rintro ⟨u, k⟩ ⟨⟨hcore, -, hat, hne, -⟩, hlogs⟩
    exact ((entryOrAlloc_logged hlt' hcore hat hne hslot hind).error_weaken fun e he =>
      he.of_logs hlogs).weaken fun _ p hp => hlogs.trans hp
  · rintro _ rfl
    exact ⟨s, .refl i K s l⟩

theorem writeLoop_logged {fuel off : ℕ} {src : List UInt8}
    (hK : fileSlots i off (off + src.length) ⊆ K) (h : Core sb i s) :
    Triple (Cut sb i K s l) (· = (s, l)) (Logged.writeLoop sb i fuel off src)
      (fun _ p => Logs sb i K s l p.1 p.2) := by
  induction fuel generalizing off src s l with
  | zero =>
    refine .pure ?_
    rintro _ rfl
    exact .refl i K s l
  | succ fuel ih =>
    refine .ite (fun _ => .pure ?_) (fun hn => ?_)
    · rintro _ rfl
      exact .refl i K s l
    have hroom : Room K i (off / BSIZE) :=
      fileSlots_room (m := 0) (n := src.length) (by omega) rfl (by simpa using hK)
    have hspec := (bmap_erases.triple (l := l) (bmap_spec s h)).and (bmap_logged h hroom)
    refine .bind (hspec.error_weaken fun _ h => h.2) (fun addr => .of_eq ?_)
    rintro ⟨u, k⟩ ⟨⟨hcore, -, -, hat, hne, -⟩, hlogs⟩
    generalize hm : min src.length (BSIZE - off % BSIZE) = m
    have hown := own_store (v := (u.data addr).store (off % BSIZE) (src.take m)) hcore.owns hat hne
      (slotOf_ne _)
    have hcore' : Core sb i (u.store addr (off % BSIZE) (src.take m)) := by
      refine ⟨?_, hcore.locked, hcore.lt, hcore.type⟩
      rw [St.store, hown]
      exact hcore.owns
    -- the data block is logged; it has a slot of its own
    have hstored : Logs sb i K s l (u.store addr (off % BSIZE) (src.take m)) (k ++ [addr]) := by
      refine (hlogs.trans ⟨fun p _ => ?_, ∅, ?_, fun _ hb => .inl hb⟩).record hroom.1 ?_ hne
      · rw [St.store, hown]
      · rw [St.store, hown]
        simp
      · rw [St.store, hown, hat]
    refine .bind lift_modify (fun _ => .of_eq ?_)
    rintro _ rfl
    refine .bind record_triple (fun _ => .of_eq ?_)
    rintro _ rfl
    have hdrop : off + m + (src.drop m).length = off + src.length := by
      rw [List.length_drop]
      omega
    have hK' : fileSlots i (off + m) (off + m + (src.drop m).length) ⊆ K := by
      rw [hdrop]
      exact (fileSlots_mono (by omega)).trans hK
    have hrest := ih (l := k ++ [addr]) hK' hcore'
    exact (hrest.error_weaken fun e he => he.of_logs hstored).weaken fun _ p hp => hstored.trans hp

/-! ## The budget -/

/-- The bytes that one piece of `filewrite` has at most. -/
abbrev MAXWRITE : ℕ := (MAXOPBLOCKS - 1 - 1 - 2) / 2 * 512

/-- An unaligned piece touches one more block than an aligned one, but has its first block. -/
theorem fileSlots_budget {off n : ℕ} (hcov : Covered sb s i off) (hn : n ≤ MAXWRITE) :
    vacant (s.own sb) (fileSlots i off (off + n)) + (fileSlots i off (off + n)).card + 1 ≤
      MAXOPBLOCKS := by
  set K := fileSlots i off (off + n) with hK
  change n ≤ 1536 at hn
  have hcard : K.card ≤ (off + n + 511) / 512 - off / 512 + 1 := by
    refine (Finset.card_union_le _ _).trans (Nat.add_le_add ?_ ?_)
    · refine Finset.card_image_le.trans ?_
      rw [Nat.card_Ico]
      exact Nat.le_refl _
    · split_ifs <;> simp
  have hvacant : vacant (s.own sb) K ≤ K.card := Finset.card_filter_le _ _
  by_cases halign : off % 512 = 0
  · change _ ≤ 10
    omega
  · have hfirst : (i, slotOf (off / BSIZE)) ∈ K := by
      refine Finset.mem_union_left _ (Finset.mem_image.mpr ⟨off / BSIZE, ?_, rfl⟩)
      rw [Finset.mem_Ico]
      change off / 512 ≤ off / 512 ∧ off / 512 < (off + n + 512 - 1) / 512
      omega
    have howned : s.own sb (i, slotOf (off / BSIZE)) ≠ 0 := by
      refine (hcov _ ?_).2
      change off / 512 * 512 < off
      omega
    have hlt : vacant (s.own sb) K < K.card :=
      Finset.card_lt_card (Finset.filter_ssubset.mpr ⟨_, hfirst, howned⟩)
    change _ ≤ 10
    omega

/-- One piece of `filewrite` logs at most `MAXOPBLOCKS` different blocks, also one that ends in
a panic. -/
theorem writei_logged {off : ℕ} {src : List UInt8} (h : Core sb i s)
    (hcov : Covered sb s i (s.inode i).size) (hn : src.length ≤ MAXWRITE) :
    Triple (fun e => e.2.toFinset.card ≤ MAXOPBLOCKS) (· = (s, []))
      (Logged.writei sb inodestart i src off) (fun _ p => p.2.toFinset.card ≤ MAXOPBLOCKS) := by
  refine .get_bind ?_
  rintro _ rfl
  have hret : ∀ r : Option ℕ, Triple (fun e : Panic × List ℕ => e.2.toFinset.card ≤ MAXOPBLOCKS)
      (· = (s, [])) (pure r : LogFs (Option ℕ)) (fun _ p => p.2.toFinset.card ≤ MAXOPBLOCKS) :=
    fun r => .pure (by rintro _ rfl; exact Nat.zero_le _)
  refine .ite (fun _ => hret _) (fun _ => .ite (fun _ => hret _) (fun hoff =>
    .ite (fun _ => hret _) (fun _ => ?_)))
  have hle : off ≤ (s.inode i).size := by
    rw [h.locked.inode]
    exact Nat.not_lt.mp fun hlt => hoff (.inl hlt)
  have hbudget := fileSlots_budget (n := src.length)
    (fun bn hbn => hcov bn (Nat.lt_of_lt_of_le hbn hle)) hn
  have hcut : ∀ e : Panic × List ℕ, Cut sb i (fileSlots i off (off + src.length)) s [] e →
      e.2.toFinset.card ≤ MAXOPBLOCKS := by
    rintro e ⟨t, ht⟩
    have := ht.card_le
    omega
  refine .bind ((writeLoop_logged (Finset.Subset.refl _) h).error_weaken hcut)
    (fun _ => .of_eq ?_)
  rintro ⟨t, l⟩ hlogs
  have hcard : l.toFinset.card + 1 ≤ MAXOPBLOCKS :=
    (Nat.add_le_add_right hlogs.card_le 1).trans hbudget
  refine .bind (Q := fun _ p => p.2.toFinset.card ≤ MAXOPBLOCKS) ?_ (fun _ => .pure fun _ h => h)
  refine .ite (fun _ => ?_) (fun _ => .pure ?_)
  · refine .bind lift_modify (fun _ => .of_eq ?_)
    rintro _ rfl
    refine .bind lift_modify (fun _ => .of_eq ?_)
    rintro _ rfl
    refine record_triple.weaken ?_
    rintro _ _ rfl
    rw [List.toFinset_append]
    refine (Finset.card_union_le _ _).trans ?_
    simpa using hcard
  · rintro _ rfl
    exact Nat.le_of_succ_le hcard

end Ostep.FsBlocks

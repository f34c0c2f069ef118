import Ostep.Mkfs
import Ostep.BlockOwnership

/-!
# The image that mkfs builds

Inodes are 64-byte records of the inode blocks, so writing one leaves the others and every data
block alone, as long as its number is below `NINODES`. mkfs takes its blocks in order: those
below `freeblock` are the ones in use, each in the slot it was allocated for. The inode being
appended to is in memory, the others are on disk.
-/

namespace Ostep.Mkfs
open FsBlocks Hoare Ownership ByteWords

/-! ## Bytes of an inode -/

theorem dinodeBytes_setDinode {buf ip : Block} {i k : ℕ} (hk : k < DINODE) :
    dinodeBytes (setDinode buf i ip) i k = ip k := by
  change k < 64 at hk
  simp [dinodeBytes, setDinode, hk]

theorem dinodeBytes_setDinode_of_ne {buf ip : Block} {i j k : ℕ} (h : j % IPB ≠ i % IPB)
    (hk : k < DINODE) : dinodeBytes (setDinode buf i ip) j k = dinodeBytes buf j k := by
  change j % 8 ≠ i % 8 at h
  change k < 64 at hk
  simp only [dinodeBytes, setDinode]
  rw [if_neg]
  change ¬ (64 * (i % 8) ≤ 64 * (j % 8) + k ∧ 64 * (j % 8) + k < 64 * (i % 8) + 64)
  omega

theorem toDinode_congr {d e : Block} (h : ∀ k, k < DINODE → d k = e k) :
    toDinode d = toDinode e := by
  have hD : DINODE = 64 := rfl
  have hword : ∀ j, j < 16 → d.word j = e.word j :=
    fun j hj => word_congr fun k hk => h k (by omega)
  have haddrs : (fun k => if k ≤ NDIRECT then d.word (ADDRS k) else 0) =
      fun k => if k ≤ NDIRECT then e.word (ADDRS k) else 0 := by
    funext k
    split_ifs with hk
    · change k ≤ 12 at hk
      exact hword (3 + k) (by omega)
    · rfl
  simp only [toDinode, haddrs, h 0 (by decide), h 1 (by decide), h 2 (by decide), h 3 (by decide),
    h 4 (by decide), h 5 (by decide), h 6 (by decide), h 7 (by decide), hword SIZE (by decide)]

/-- Writing a field that is not among the first four. -/
theorem toDinode_setAddr {d : Block} {k b : ℕ} (hk : k ≤ NDIRECT) (hb : b < 2 ^ 32) :
    toDinode (d.setWord (ADDRS k) b) = (toDinode d).setAddr k b := by
  have hbyte : ∀ m, m < 12 → d.setWord (ADDRS k) b m = d m :=
    fun m hm => setWord_of_ne (by change m / 4 ≠ 3 + k; omega)
  have hsize : (d.setWord (ADDRS k) b).word SIZE = d.word SIZE :=
    word_setWord_of_ne (by change 2 ≠ 3 + k; omega)
  have haddrs : (toDinode (d.setWord (ADDRS k) b)).addrs =
      Function.update (toDinode d).addrs k b := by
    funext l
    by_cases hl : l = k
    · rw [hl, Function.update_self]
      exact (if_pos hk).trans (word_setWord hb)
    · rw [Function.update_of_ne hl]
      simp only [toDinode]
      split_ifs
      · exact word_setWord_of_ne (by change 3 + l ≠ 3 + k; omega)
      · rfl
  simp only [Dinode.setAddr, ← haddrs]
  simp only [toDinode, hbyte 0 (by decide), hbyte 1 (by decide), hbyte 2 (by decide),
    hbyte 3 (by decide), hbyte 4 (by decide), hbyte 5 (by decide), hbyte 6 (by decide),
    hbyte 7 (by decide), hsize]

theorem toDinode_setSize {d : Block} {n : ℕ} (hn : n < 2 ^ 32) :
    toDinode (d.setWord SIZE n) = { toDinode d with size := n } := by
  have hbyte : ∀ m, m < 8 → d.setWord SIZE n m = d m :=
    fun m hm => setWord_of_ne (by change m / 4 ≠ 2; omega)
  have haddrs : (fun k => if k ≤ NDIRECT then (d.setWord SIZE n).word (ADDRS k) else 0) =
      fun k => if k ≤ NDIRECT then d.word (ADDRS k) else 0 := by
    funext k
    split_ifs
    · exact word_setWord_of_ne (by change 3 + k ≠ 2; omega)
    · rfl
  simp only [toDinode, haddrs, word_setWord hn, hbyte 0 (by decide), hbyte 1 (by decide),
    hbyte 2 (by decide), hbyte 3 (by decide), hbyte 4 (by decide), hbyte 5 (by decide),
    hbyte 6 (by decide), hbyte 7 (by decide)]

theorem newDinode_byte (type k : ℕ) : newDinode type k =
    if k = 0 then UInt8.ofNat type else if k = 1 then UInt8.ofNat (type / 256)
    else if k = 6 then 1 else 0 := by
  match k with
  | 0 | 1 | 2 | 3 | 4 | 5 | 6 | 7 => simp [newDinode, Bytes.store, xshort]
  | k + 8 => simp [newDinode, Bytes.store, xshort]

theorem toDinode_new {type : ℕ} (ht : type < 2 ^ 16) :
    toDinode (newDinode type) = ⟨type, 0, 0, 1, 0, fun _ => 0⟩ := by
  have hword : ∀ j, 2 ≤ j → (newDinode type).word j = 0 := by
    intro j hj
    have h0 : ∀ m, 8 ≤ m → newDinode type m = 0 := by
      intro m hm
      rw [newDinode_byte, if_neg (by omega), if_neg (by omega), if_neg (by omega)]
    simp [Bytes.word, h0 (4 * j) (by omega), h0 (4 * j + 1) (by omega), h0 (4 * j + 2) (by omega),
      h0 (4 * j + 3) (by omega)]
  have haddrs : (fun k => if k ≤ NDIRECT then (newDinode type).word (ADDRS k) else 0) =
      fun _ => 0 := by
    funext k
    rw [hword _ (by change 2 ≤ 3 + k; omega), ite_self]
  have hshort : short 0 0 = 0 ∧ short 1 0 = 1 := by decide
  simp only [toDinode, haddrs, hword SIZE (Nat.le_refl 2), newDinode_byte]
  simp [hshort]
  omega

/-! ## Inodes on disk -/

theorem IBLOCK_lt {i : ℕ} (hi : i < NINODES) : inodestart ≤ IBLOCK i ∧ IBLOCK i < bmapstart := by
  change i < 200 at hi
  change 32 ≤ i / 8 + 32 ∧ i / 8 + 32 < 58
  omega

theorem inodeAt_update_of_ne {disk : ℕ → Block} {b i : ℕ} {v : Block} (h : IBLOCK i ≠ b) :
    inodeAt (Function.update disk b v) i = inodeAt disk i := by
  simp [inodeAt, h]

/-- Writing an inode changes that inode only. -/
theorem inodeAt_winode (disk : ℕ → Block) (i : ℕ) (ip : Block) :
    inodeAt (Function.update disk (IBLOCK i) (setDinode (disk (IBLOCK i)) i ip)) =
      Function.update (inodeAt disk) i (toDinode ip) := by
  funext j
  by_cases hj : j = i
  · rw [hj, Function.update_self]
    simp only [inodeAt, Function.update_self]
    exact toDinode_congr fun k hk => dinodeBytes_setDinode hk
  · rw [Function.update_of_ne hj]
    by_cases hb : IBLOCK j = IBLOCK i
    · simp only [inodeAt, hb, Function.update_self]
      have hne : j % IPB ≠ i % IPB := by
        change j / 8 + 32 = i / 8 + 32 at hb
        change j % 8 ≠ i % 8
        omega
      exact toDinode_congr fun k hk => dinodeBytes_setDinode_of_ne hne hk
    · exact inodeAt_update_of_ne hb

/-- Of the inodes below `NINODES`, the type and the addresses count. -/
theorem pointer_congr {data : ℕ → Block} {inode : ℕ → Dinode} (inode' : ℕ → Dinode)
    (h : ∀ i, i < NINODES →
      (inode i).type = (inode' i).type ∧ (inode i).addrs = (inode' i).addrs) :
    pointer sb data inode = pointer sb data inode' := by
  funext ⟨i, k⟩
  unfold pointer
  by_cases hi : i < NINODES
  · obtain ⟨htype, haddrs⟩ := h i hi
    simp only [htype, pointerOf, haddrs]
  · rw [if_neg fun hc => hi hc.1, if_neg fun hc => hi hc.1]

/-! ## Allocation -/

/-- Which errors end mkfs does not matter. -/
abbrev AnyExit : Exit → Prop := fun _ => True

/-- The blocks below `freeblock` are in use, each in one slot of one inode; the others are
still zero. `inode` gives the inodes, one of which may be in memory. -/
structure Filling (s : St) (inode : ℕ → Dinode) : Prop where
  len : s.len = FSSIZE
  owns : Owns nmeta FSSIZE (fun b => b < s.freeblock) (pointer sb s.disk inode)
  le : s.freeblock ≤ FSSIZE
  fresh : ∀ b, s.freeblock ≤ b → s.disk b = fun _ => 0
  written : ∀ w ∈ s.written, w.1.Contains w.2

/-- Slot `k` of the inode `inum` holds `x`; no other slot changed but that of the indirect
block, and nothing of the inode but its addresses. -/
structure Reached (inum k x : ℕ) (s : St) (inode : ℕ → Dinode) (t : St) (inode' : ℕ → Dinode) :
    Prop where
  filling : Filling t inode'
  slot : pointer sb t.disk inode' (inum, k) = x
  ne : x ≠ 0
  keep : ∀ p, p ≠ (inum, k) → p ≠ (inum, NDIRECT) →
    pointer sb t.disk inode' p = pointer sb s.disk inode p
  others : ∀ i, i ≠ inum → inode' i = inode i
  same : inode' inum = { inode inum with addrs := (inode' inum).addrs }
  blocks : ∀ b, b < nmeta → t.disk b = s.disk b
  freeinode : t.freeinode = s.freeinode

variable {s t : St} {inode inode' : ℕ → Dinode} {inum k x : ℕ} {din : Block}

theorem Filling.nmeta_le (h : Filling s inode) : nmeta ≤ s.freeblock := by
  have := h.owns.reserved (nmeta - 1) (by decide)
  change decide (58 < s.freeblock) = true at this
  change 59 ≤ s.freeblock
  have := of_decide_eq_true this
  omega

/-- The block `freeblock` is the next one to be marked. -/
theorem used_succ (f : ℕ) :
    Function.update (fun b => decide (b < f)) f true = fun b => decide (b < f + 1) := by
  funext b
  by_cases hb : b = f
  · simp [hb]
  · rw [Function.update_of_ne hb]
    have : b < f ↔ b < f + 1 := by omega
    simp [this]

theorem rsect_spec {P : St → Prop} {sec : ℕ} (hlen : ∀ s, P s → s.len = FSSIZE) :
    Triple AnyExit P (rsect sec) (fun buf t => P t ∧ sec < FSSIZE ∧ buf = t.disk sec) := by
  refine .get_bind fun u hu => .ite (fun hlt => .pure ?_) (fun _ => .throw trivial)
  rintro _ rfl
  exact ⟨hu, by rw [← hlen _ hu]; exact hlt, rfl⟩

theorem newBlock_spec (s : St) : Triple AnyExit (· = s) newBlock
    (fun b t => b = s.freeblock ∧ t = { s with freeblock := s.freeblock + 1 }) := by
  rintro _ rfl
  exact ⟨rfl, rfl⟩

/-- The new block is entered in an empty slot of the inode. -/
theorem Filling.attach (h : Filling s inode) (hlt : s.freeblock < FSSIZE)
    (hslot : pointer sb s.disk inode (inum, k) = 0) (ht : t.freeblock = s.freeblock + 1)
    (hlen : t.len = FSSIZE)
    (hown : pointer sb t.disk inode' =
      Function.update (pointer sb s.disk inode) (inum, k) s.freeblock)
    (hfresh : ∀ b, s.freeblock ≤ b → t.disk b = s.disk b)
    (hblocks : ∀ b, b < nmeta → t.disk b = s.disk b)
    (hwritten : ∀ w ∈ t.written, w.1.Contains w.2) (hothers : ∀ i, i ≠ inum → inode' i = inode i)
    (hsame : inode' inum = { inode inum with addrs := (inode' inum).addrs })
    (hfree : t.freeinode = s.freeinode) :
    Reached inum k s.freeblock s inode t inode' where
  filling := {
    len := hlen
    owns := by
      rw [ht, hown, ← used_succ]
      exact h.owns.attach (by simp) hlt hslot
    le := by omega
    fresh := fun b hb => by
      rw [hfresh b (by omega)]
      exact h.fresh b (by omega)
    written := hwritten }
  slot := by rw [hown, Function.update_self]
  ne := by
    have := h.nmeta_le
    change 59 ≤ s.freeblock at this
    omega
  keep p hp _ := by rw [hown, Function.update_of_ne hp]
  others := hothers
  same := hsame
  blocks := hblocks
  freeinode := hfree

/-- A slot that holds a block already. -/
theorem Filling.found (h : Filling s inode) (hslot : pointer sb s.disk inode (inum, k) = x)
    (hne : x ≠ 0) : Reached inum k x s inode s inode :=
  ⟨h, hslot, hne, fun _ _ _ => rfl, fun _ _ => rfl, rfl, fun _ _ => rfl, rfl⟩

theorem pointer_addrs (hi : inum < NINODES) (htype : (inode inum).type ≠ 0) (hk : k ≤ NDIRECT) :
    pointer sb s.disk inode (inum, k) = (inode inum).addrs k := by
  have hmax : k ≤ MAXFILE := by
    change k ≤ 12 at hk
    change k ≤ 140
    omega
  rw [pointer, if_pos ⟨hi, htype, hmax⟩, pointerOf, if_pos hk]

/-- A direct pointer or the pointer to the indirect block. -/
theorem addr_spec (h : Filling s inode) (hi : inum < NINODES) (htype : (inode inum).type ≠ 0)
    (hdin : toDinode din = inode inum) (hk : k ≤ NDIRECT) :
    Triple AnyExit (· = s) (addr din k) (fun r t => t.len = FSSIZE ∧ (r.2 < FSSIZE →
      ∃ inode', inode' inum = toDinode r.1 ∧ Reached inum k r.2 s inode t inode')) := by
  have hword : din.word (ADDRS k) = pointer sb s.disk inode (inum, k) := by
    rw [pointer_addrs hi htype hk, ← hdin]
    exact (if_pos hk).symm
  refine .ite (fun hzero => ?_) (fun hne => ?_)
  · refine .bind (newBlock_spec s) (fun b => .pure ?_)
    rintro _ ⟨rfl, rfl⟩
    refine ⟨h.len, fun hlt => ?_⟩
    have hlt : s.freeblock < FSSIZE := hlt
    rw [hword] at hzero
    have hset := toDinode_setAddr (d := din) hk
      (show s.freeblock < 2 ^ 32 by change s.freeblock < 1000 at hlt; omega)
    refine ⟨Function.update inode inum ((inode inum).setAddr k s.freeblock), ?_, ?_⟩
    · rw [Function.update_self, hset, hdin]
    · refine h.attach hlt hzero rfl h.len ?_ (fun _ _ => rfl) (fun _ _ => rfl) h.written
        (fun j hj => Function.update_of_ne hj _ _) (by simp [Dinode.setAddr]) rfl
      rcases Nat.lt_or_eq_of_le hk with hk | rfl
      · exact pointer_setAddr hi htype hk
      · refine pointer_setIndirect hi htype (fun l hl => ?_) (Or.inr fun j => ?_)
        · rw [pointer_addrs hi htype (Nat.le_refl _)] at hzero
          have hle : ¬ l ≤ NDIRECT := by omega
          rw [pointer]
          split_ifs
          · simp only [pointerOf, hle, if_false, hzero, if_true]
          · rfl
        · change (s.disk s.freeblock).word j = 0
          rw [h.fresh _ (Nat.le_refl _), word_zero]
  · rintro _ rfl
    exact ⟨h.len, fun _ => ⟨inode, hdin.symm, h.found hword.symm hne⟩⟩

theorem Reached.trans {a : ℕ} {u : St} {inode₁ : ℕ → Dinode}
    (h : Reached inum NDIRECT a s inode u inode₁) (g : Reached inum k x u inode₁ t inode') :
    Reached inum k x s inode t inode' where
  filling := g.filling
  slot := g.slot
  ne := g.ne
  keep p hp hp' := (g.keep p hp hp').trans (h.keep p hp' hp')
  others i hi := (g.others i hi).trans (h.others i hi)
  same := by
    rw [g.same, h.same]
  blocks b hb := (g.blocks b hb).trans (h.blocks b hb)
  freeinode := g.freeinode.trans h.freeinode

theorem Filling.data_block (h : Filling s inode) {p : ℕ × ℕ}
    (hp : pointer sb s.disk inode p ≠ 0) : nmeta ≤ pointer sb s.disk inode p ∧
      pointer sb s.disk inode p < s.freeblock ∧ pointer sb s.disk inode p < FSSIZE :=
  ⟨(h.owns.range p hp).1, by simpa using h.owns.used_own hp, (h.owns.range p hp).2⟩

/-- An entry of the indirect block. -/
theorem Reached.entry {a j : ℕ} {u : St} {inode₁ : ℕ → Dinode}
    (h : Reached inum NDIRECT a s inode u inode₁) (hi : inum < NINODES)
    (htype : (inode₁ inum).type ≠ 0) (hj : j < NINDIRECT) :
    pointer sb u.disk inode₁ (inum, NDIRECT + 1 + j) = (u.disk a).word j := by
  have hmax : NDIRECT + 1 + j ≤ MAXFILE := by
    change j < 128 at hj
    change 12 + 1 + j ≤ 140
    omega
  have hle : ¬ NDIRECT + 1 + j ≤ NDIRECT := by omega
  have hsub : NDIRECT + 1 + j - NDIRECT - 1 = j := by omega
  have haddr := h.slot
  rw [pointer_addrs hi htype (Nat.le_refl _)] at haddr
  rw [pointer, if_pos ⟨hi, htype, hmax⟩, pointerOf, if_neg hle, haddr, if_neg h.ne, hsub]

/-- A new block in an empty entry of the indirect block `a`. -/
theorem Reached.attach_entry {a j : ℕ} {u : St} {inode₁ : ℕ → Dinode}
    (h : Reached inum NDIRECT a s inode u inode₁) (hj : j < NINDIRECT) (hlt : u.freeblock < FSSIZE)
    (hzero : pointer sb u.disk inode₁ (inum, NDIRECT + 1 + j) = 0) :
    Reached inum (NDIRECT + 1 + j) u.freeblock u inode₁
      (St.wsect { u with freeblock := u.freeblock + 1 } .data a
        ((u.disk a).setWord j u.freeblock)) inode₁ := by
  have hf := h.filling
  have ha := hf.data_block (p := (inum, NDIRECT)) (by rw [h.slot]; exact h.ne)
  rw [h.slot] at ha
  refine hf.attach hlt hzero rfl ?_ ?_ (fun b hb => ?_) (fun b hb => ?_) (fun w hw => ?_)
    (fun _ _ => rfl) rfl rfl
  · change max u.len (a + 1) = FSSIZE
    have := hf.len
    omega
  · refine pointer_setWord hf.owns h.slot h.ne hj ?_
    change u.freeblock < 1000 at hlt
    omega
  · exact Function.update_of_ne (by omega) _ _
  · exact Function.update_of_ne (by omega) _ _
  · rcases List.mem_cons.mp hw with rfl | hw
    · exact ⟨ha.1, ha.2.2⟩
    · exact hf.written w hw

theorem fileBlock_spec {fbn : ℕ} (h : Filling s inode) (hi : inum < NINODES)
    (htype : (inode inum).type ≠ 0) (hdin : toDinode din = inode inum) (hfbn : fbn < MAXFILE) :
    Triple AnyExit (· = s) (fileBlock din fbn) (fun r t => t.len = FSSIZE ∧ (r.2 < FSSIZE →
      ∃ inode', inode' inum = toDinode r.1 ∧
        Reached inum (slotOf fbn) r.2 s inode t inode')) := by
  change fbn < 140 at hfbn
  have hdir : NDIRECT = 12 := rfl
  refine .ite (fun hlt => ?_) (fun hge => ?_)
  · rw [slotOf, if_pos hlt]
    exact addr_spec h hi htype hdin (by omega)
  · have hslot : slotOf fbn = NDIRECT + 1 + (fbn - NDIRECT) := by
      rw [slotOf, if_neg hge]
      omega
    have hj : fbn - NDIRECT < NINDIRECT := by
      change fbn - 12 < 128
      omega
    rw [hslot]
    refine .bind (addr_spec h hi htype hdin (Nat.le_refl _)) (fun r => ?_)
    obtain ⟨din₁, a⟩ := r
    refine .bind (rsect_spec fun _ hu => hu.1) (fun ind => .of_eq ?_)
    rintro u ⟨⟨hlen, hreach⟩, ha, rfl⟩
    obtain ⟨inode₁, hdin₁, hreach⟩ := hreach ha
    have htype₁ : (inode₁ inum).type ≠ 0 := by
      rw [hreach.same]
      exact htype
    have hentry := hreach.entry hi htype₁ hj
    refine .ite (fun hzero => ?_) (fun hne => ?_)
    · refine .bind (newBlock_spec u) (fun b => ?_)
      refine .bind (Q := fun _ t => b = u.freeblock ∧ t = St.wsect
        { u with freeblock := u.freeblock + 1 } .data a
          ((u.disk a).setWord (fbn - NDIRECT) u.freeblock)) (.update ?_) (fun _ => .pure ?_)
      · rintro _ ⟨rfl, rfl⟩
        exact ⟨rfl, rfl⟩
      · rintro _ ⟨rfl, rfl⟩
        refine ⟨?_, fun hlt => ?_⟩
        · change max u.len (a + 1) = FSSIZE
          omega
        · exact ⟨inode₁, hdin₁,
            hreach.trans (hreach.attach_entry hj hlt (by rw [hentry, hzero]))⟩
    · refine .pure ?_
      rintro _ rfl
      exact ⟨hlen, fun _ => ⟨inode₁, hdin₁, hreach.trans (hreach.filling.found hentry hne)⟩⟩

/-! ## Appending -/

theorem assert_spec {P : St → Prop} {p : Prop} [Decidable p] :
    Triple AnyExit P (assert p) (fun _ s => P s ∧ p) := by
  refine .ite (fun hp => .pure fun _ hs => ⟨hs, hp⟩) (fun _ => .throw trivial)

/-- Writing to a block of a file's data moves no pointer. -/
theorem Filling.store (h : Filling s inode) (hslot : pointer sb s.disk inode (inum, k) = x)
    (hne : x ≠ 0) (hk : k ≠ NDIRECT) (v : Block) :
    pointer sb (Function.update s.disk x v) inode = pointer sb s.disk inode ∧
      Filling (s.wsect .data x v) inode := by
  have hx := h.data_block (p := (inum, k)) (by rwa [hslot])
  rw [hslot] at hx
  have hpointer : pointer sb (Function.update s.disk x v) inode = pointer sb s.disk inode := by
    refine pointer_update_data fun i hi => ?_
    have heq := h.owns.inj (inum, k) (i, NDIRECT) (hslot.trans hi.symm) (by rwa [hslot])
    exact hk (Prod.mk.inj heq).2
  refine ⟨hpointer, ?_, ?_, h.le, fun b hb => ?_, fun w hw => ?_⟩
  · change max s.len (x + 1) = FSSIZE
    have := h.len
    omega
  · change Owns nmeta FSSIZE _ (pointer sb (Function.update s.disk x v) inode)
    rw [hpointer]
    exact h.owns
  · have hb : s.freeblock ≤ b := hb
    exact (Function.update_of_ne (by omega) _ _).trans (h.fresh b hb)
  · rcases List.mem_cons.mp hw with rfl | hw
    · exact ⟨hx.1, hx.2.2⟩
    · exact h.written w hw

theorem slotOf_inj {a b : ℕ} (h : slotOf a = slotOf b) : a = b := by
  simp only [slotOf] at h
  split_ifs at h <;> omega

/-- While the inode `inum` is appended to, its blocks are exactly those below `off`. -/
structure Appending (inum off : ℕ) (s₀ : St) (inode₀ : ℕ → Dinode) (s : St)
    (inode : ℕ → Dinode) : Prop where
  filling : Filling s inode
  covered : ∀ bn, bn < MAXFILE →
    (pointer sb s.disk inode (inum, slotOf bn) ≠ 0 ↔ bn * BSIZE < off)
  keep : ∀ i, i ≠ inum → ∀ k,
    pointer sb s.disk inode (i, k) = pointer sb s₀.disk inode₀ (i, k)
  others : ∀ i, i ≠ inum → inode i = inode₀ i
  same : inode inum = { inode₀ inum with addrs := (inode inum).addrs }
  blocks : ∀ b, b < nmeta → s.disk b = s₀.disk b
  freeinode : s.freeinode = s₀.freeinode
  le : off ≤ MAXFILE * BSIZE

/-- One block of the file is written, from `off` on. -/
theorem Appending.write {off n : ℕ} {s₀ : St} {inode₀ : ℕ → Dinode}
    (h : Appending inum off s₀ inode₀ s inode)
    (hr : Reached inum (slotOf (off / BSIZE)) x s inode t inode') (hlt : off / BSIZE < MAXFILE)
    (hn : 0 < n) (hle : off + n ≤ (off / BSIZE + 1) * BSIZE) (v : Block) :
    Appending inum (off + n) s₀ inode₀ (t.wsect .data x v) inode' := by
  obtain ⟨hpointer, hfilling⟩ := hr.filling.store hr.slot hr.ne (slotOf_ne _) v
  have hx := hr.filling.data_block (p := (inum, slotOf (off / BSIZE)))
    (by rw [hr.slot]; exact hr.ne)
  rw [hr.slot] at hx
  refine ⟨hfilling, fun bn hbn => ?_, fun i hi k => ?_, fun i hi => ?_, ?_, fun b hb => ?_, ?_, ?_⟩
  · change pointer sb (Function.update t.disk x v) inode' _ ≠ 0 ↔ _
    rw [hpointer]
    change (off / 512 < 140) at hlt
    change off + n ≤ (off / 512 + 1) * 512 at hle
    by_cases hb : bn = off / BSIZE
    · rw [hb, hr.slot]
      refine iff_of_true hr.ne ?_
      change off / 512 * 512 < off + n
      omega
    · rw [hr.keep (inum, slotOf bn) (fun hc => hb (slotOf_inj (Prod.mk.inj hc).2))
        (fun hc => slotOf_ne bn (Prod.mk.inj hc).2), h.covered bn hbn]
      change ¬ bn = off / 512 at hb
      change bn * 512 < off ↔ bn * 512 < off + n
      omega
  · change pointer sb (Function.update t.disk x v) inode' _ = _
    rw [hpointer, hr.keep (i, k) (fun hc => hi (Prod.mk.inj hc).1)
      (fun hc => hi (Prod.mk.inj hc).1)]
    exact h.keep i hi k
  · exact (hr.others i hi).trans (h.others i hi)
  · rw [hr.same, h.same]
  · exact (Function.update_of_ne (by omega) _ _).trans ((hr.blocks b hb).trans (h.blocks b hb))
  · exact hr.freeinode.trans h.freeinode
  · change off / 512 < 140 at hlt
    change off + n ≤ (off / 512 + 1) * 512 at hle
    rw [show MAXFILE * BSIZE = 71680 by decide]
    omega

theorem appendLoop_spec {fuel off : ℕ} {p : List UInt8} {s₀ : St} {inode₀ : ℕ → Dinode}
    (hi : inum < NINODES) (htype : (inode₀ inum).type ≠ 0) (hfuel : p.length ≤ fuel)
    (h : Appending inum off s₀ inode₀ s inode) (hdin : toDinode din = inode inum) :
    Triple AnyExit (· = s) (appendLoop fuel din off p) (fun r t => r.2 = off + p.length ∧
      ∃ inode', inode' inum = toDinode r.1 ∧ Appending inum r.2 s₀ inode₀ t inode') := by
  induction fuel generalizing off p s inode din with
  | zero =>
    refine .pure ?_
    rintro _ rfl
    have hp : p.length = 0 := by omega
    exact ⟨by simp [hp], inode, hdin.symm, h⟩
  | succ fuel ih =>
    refine .ite (fun hp => .pure ?_) (fun hp => ?_)
    · rintro _ rfl
      exact ⟨by simp [hp], inode, hdin.symm, h⟩
    have htype' : (inode inum).type ≠ 0 := by
      rw [h.same]
      exact htype
    refine .bind assert_spec (fun _ => .of_eq ?_)
    rintro _ ⟨rfl, hlt⟩
    refine .bind (fileBlock_spec h.filling hi htype' hdin hlt) (fun r => ?_)
    obtain ⟨din', x⟩ := r
    refine .bind (rsect_spec fun _ hu => hu.1) (fun buf => .of_eq ?_)
    rintro u ⟨⟨hlen, hreach⟩, hx, rfl⟩
    obtain ⟨inode', hdin', hreach⟩ := hreach hx
    generalize hn : min p.length ((off / BSIZE + 1) * BSIZE - off) = n
    have hn' : 0 < n ∧ n ≤ p.length ∧ off + n ≤ (off / BSIZE + 1) * BSIZE := by
      change min p.length ((off / 512 + 1) * 512 - off) = n at hn
      change 0 < n ∧ n ≤ p.length ∧ off + n ≤ (off / 512 + 1) * 512
      omega
    have hlen' : off + n + (p.drop n).length = off + p.length := by
      rw [List.length_drop]
      omega
    rw [← hlen']
    refine .bind (Q := fun _ t => t = u.wsect .data x
      ((u.disk x).store (off - off / BSIZE * BSIZE) (p.take n))) (.update ?_) (fun _ => .of_eq ?_)
    · rintro _ rfl
      exact rfl
    · rintro _ rfl
      exact ih (by rw [List.length_drop]; omega) (h.write hreach hlt hn'.1 hn'.2.2 _) hdin'.symm

theorem rsect_eq (s : St) (sec : ℕ) :
    Triple AnyExit (· = s) (rsect sec) (fun buf t => t = s ∧ buf = s.disk sec) := by
  refine .get_bind ?_
  rintro _ rfl
  refine .ite (fun _ => .pure ?_) (fun _ => .throw trivial)
  rintro _ rfl
  exact ⟨rfl, rfl⟩

theorem rinode_spec (s : St) (inum : ℕ) : Triple AnyExit (· = s) (rinode inum)
    (fun din t => t = s ∧ toDinode din = inodeAt s.disk inum) := by
  refine .bind (rsect_eq s _) (fun buf => .pure ?_)
  rintro _ ⟨rfl, rfl⟩
  exact ⟨rfl, rfl⟩

def St.winode (s : St) (inum : ℕ) (ip : Block) : St :=
  s.wsect .inodes (IBLOCK inum) (setDinode (s.disk (IBLOCK inum)) inum ip)

theorem St.inodeAt_winode (s : St) (inum : ℕ) (ip : Block) :
    inodeAt (s.winode inum ip).disk = Function.update (inodeAt s.disk) inum (toDinode ip) :=
  Mkfs.inodeAt_winode s.disk inum ip

theorem winode_spec (s : St) (inum : ℕ) (ip : Block) :
    Triple AnyExit (· = s) (winode inum ip) (fun _ t => t = s.winode inum ip) := by
  refine .bind (rsect_eq s _) (fun buf => .update ?_)
  rintro _ ⟨rfl, rfl⟩
  exact rfl

/-- The inode in memory is written to its place on disk. -/
theorem Filling.winode (h : Filling s inode) (ip : Block) (hi : inum < NINODES)
    (hview : ∀ i, i < NINODES → i ≠ inum → inodeAt s.disk i = inode i)
    (htype : (toDinode ip).type = (inode inum).type)
    (haddrs : (toDinode ip).addrs = (inode inum).addrs) :
    Filling (s.winode inum ip) (inodeAt (s.winode inum ip).disk) ∧
      pointer sb (s.winode inum ip).disk (inodeAt (s.winode inum ip).disk) =
        pointer sb s.disk inode := by
  have hblock := IBLOCK_lt hi
  have hmeta : bmapstart < nmeta := by decide
  have hnmeta := h.nmeta_le
  have hview' := s.inodeAt_winode inum ip
  have hpointer : pointer sb (s.winode inum ip).disk (inodeAt (s.winode inum ip).disk) =
      pointer sb s.disk inode := by
    rw [hview', pointer_congr inode]
    · refine pointer_update_data fun i hib => ?_
      by_cases hz : pointer sb s.disk inode (i, NDIRECT) = 0
      · have : 0 < inodestart := by decide
        omega
      · have := (h.data_block hz).1
        omega
    · intro i hlt
      by_cases hc : i = inum
      · rw [hc, Function.update_self]
        exact ⟨htype, haddrs⟩
      · rw [Function.update_of_ne hc, hview i hlt hc]
        exact ⟨rfl, rfl⟩
  refine ⟨⟨?_, ?_, h.le, fun b hb => ?_, fun w hw => ?_⟩, hpointer⟩
  · change max s.len (IBLOCK inum + 1) = FSSIZE
    have := h.len
    have : nmeta < FSSIZE := by decide
    omega
  · rw [hpointer]
    exact h.owns
  · have hb : s.freeblock ≤ b := hb
    exact (Function.update_of_ne (by omega) _ _).trans (h.fresh b hb)
  · rcases List.mem_cons.mp hw with rfl | hw
    · exact hblock
    · exact h.written w hw

/-- All inodes are on disk: the blocks of each are exactly those below its size, and the inodes
from `freeinode` on are free. -/
structure Built (s : St) : Prop where
  filling : Filling s (inodeAt s.disk)
  size : ∀ i, i < NINODES → (inodeAt s.disk i).type ≠ 0 →
    (inodeAt s.disk i).size ≤ MAXFILE * BSIZE
  covered : ∀ i, i < NINODES → (inodeAt s.disk i).type ≠ 0 → ∀ bn, bn < MAXFILE →
    (pointer sb s.disk (inodeAt s.disk) (i, slotOf bn) ≠ 0 ↔
      bn * BSIZE < (inodeAt s.disk i).size)
  unused : ∀ i, s.freeinode ≤ i → i < NINODES → (inodeAt s.disk i).type = 0

/-- The inode `inum` has grown by `n` bytes. -/
structure Grown (inum n : ℕ) (s t : St) : Prop where
  freeinode : t.freeinode = s.freeinode
  others : ∀ i, i < NINODES → i ≠ inum → inodeAt t.disk i = inodeAt s.disk i
  type : (inodeAt t.disk inum).type = (inodeAt s.disk inum).type
  size : (inodeAt t.disk inum).size = (inodeAt s.disk inum).size + n

theorem iappend_spec (h : Built s) (hi : inum < NINODES)
    (htype : (inodeAt s.disk inum).type ≠ 0) (p : List UInt8) :
    Triple AnyExit (· = s) (iappend inum p)
      (fun _ t => Built t ∧ Grown inum p.length s t) := by
  refine .bind (rinode_spec s inum) (fun din => .of_eq ?_)
  rintro t ⟨ht, hdin⟩
  subst t
  have hsize : din.word SIZE = (inodeAt s.disk inum).size := by
    rw [← hdin]
    rfl
  have happ : Appending inum (din.word SIZE) s (inodeAt s.disk) s (inodeAt s.disk) := by
    rw [hsize]
    exact ⟨h.filling, h.covered inum hi htype, fun _ _ _ => rfl, fun _ _ => rfl, rfl,
      fun _ _ => rfl, rfl, h.size inum hi htype⟩
  refine .bind (appendLoop_spec hi htype (Nat.le_refl _) happ hdin) (fun r => .of_eq ?_)
  obtain ⟨din', off⟩ := r
  rintro u ⟨hoff, inode', hdin', ha⟩
  refine (winode_spec u inum _).weaken ?_
  rintro _ _ rfl
  have hoff : off = (inodeAt s.disk inum).size + p.length := by rw [← hsize]; exact hoff
  have hle : off ≤ MAXFILE * BSIZE := ha.le
  have hset : toDinode (din'.setWord SIZE off) = { toDinode din' with size := off } := by
    refine toDinode_setSize ?_
    rw [show MAXFILE * BSIZE = 71680 by decide] at hle
    omega
  have hview : ∀ i, i < NINODES → i ≠ inum → inodeAt u.disk i = inode' i := by
    intro i hlt hne
    rw [ha.others i hne]
    have hb : IBLOCK i < nmeta := Nat.lt_trans (IBLOCK_lt hlt).2 (by decide)
    simp only [inodeAt, ha.blocks _ hb]
  obtain ⟨hfilling, hpointer⟩ := ha.filling.winode (din'.setWord SIZE off) hi hview
    (by rw [hset, hdin']) (by rw [hset, hdin'])
  have hview' : inodeAt (u.winode inum (din'.setWord SIZE off)).disk =
      Function.update (inodeAt u.disk) inum { toDinode din' with size := off } :=
    (u.inodeAt_winode inum _).trans (by rw [hset])
  have hself : inodeAt (u.winode inum (din'.setWord SIZE off)).disk inum =
      { toDinode din' with size := off } := by rw [hview', Function.update_self]
  have hother : ∀ i, i < NINODES → i ≠ inum →
      inodeAt (u.winode inum (din'.setWord SIZE off)).disk i = inodeAt s.disk i := by
    intro i hlt hne
    rw [hview', Function.update_of_ne hne, hview i hlt hne, ha.others i hne]
  have htype' : (toDinode din').type = (inodeAt s.disk inum).type := by rw [← hdin', ha.same]
  refine ⟨⟨hfilling, fun i hlt hne => ?_, fun i hlt hne bn hbn => ?_, fun i hfree hlt => ?_⟩,
    ha.freeinode, hother, by rw [hself]; exact htype', by rw [hself]; exact hoff⟩
  · by_cases hc : i = inum
    · rw [hc, hself]
      exact hle
    · rw [hother i hlt hc] at hne ⊢
      exact h.size i hlt hne
  · rw [hpointer]
    by_cases hc : i = inum
    · rw [hc, hself]
      exact ha.covered bn hbn
    · rw [hother i hlt hc] at hne ⊢
      rw [ha.keep i hc]
      exact h.covered i hlt hne bn hbn
  · have hold : s.freeinode ≤ i := by
      rw [← ha.freeinode]
      exact hfree
    have hunused := h.unused i hold hlt
    have hc : i ≠ inum := by
      rintro rfl
      exact htype hunused
    rw [hother i hlt hc]
    exact hunused

/-! ## The files -/

/-- An inode that was just allocated. -/
def fresh (type : ℕ) : Dinode := ⟨type, 0, 0, 1, 0, fun _ => 0⟩

/-- No slot of a free inode holds a block, nor does one of the inode once it is allocated. -/
theorem pointer_fresh {data : ℕ → Block} (hz : (inode inum).type = 0) (type : ℕ) :
    pointer sb data (Function.update inode inum (fresh type)) = pointer sb data inode := by
  funext ⟨i, k⟩
  by_cases hc : i = inum
  · rw [hc]
    simp [pointer, pointerOf, hz, fresh]
  · simp [pointer, hc]

theorem ialloc_spec (h : Built s) (hlt : s.freeinode < NINODES) {type : ℕ} (ht : type < 2 ^ 16) :
    Triple AnyExit (· = s) (ialloc type) (fun inum t => inum = s.freeinode ∧ Built t ∧
      t.freeinode = s.freeinode + 1 ∧ inodeAt t.disk inum = fresh type ∧
      ∀ i, i ≠ inum → inodeAt t.disk i = inodeAt s.disk i) := by
  refine .get_bind ?_
  rintro s rfl
  refine .bind (Q := fun _ t => t = { s with freeinode := s.freeinode + 1 }) (.update ?_)
    (fun _ => ?_)
  · rintro s rfl
    exact rfl
  refine .bind (winode_spec _ _ _) (fun _ => .pure ?_)
  rintro _ rfl
  have hnew : toDinode (newDinode type) = fresh type := toDinode_new ht
  have hz := h.unused s.freeinode (Nat.le_refl _) hlt
  generalize hu : ({ s with freeinode := s.freeinode + 1 } : St) = u
  have hdisk : u.disk = s.disk := by rw [← hu]
  have hfilling : Filling u (Function.update (inodeAt s.disk) s.freeinode (fresh type)) := by
    have hf := h.filling
    rw [← hu]
    refine ⟨hf.len, ?_, hf.le, hf.fresh, hf.written⟩
    rw [pointer_fresh hz]
    exact hf.owns
  have hview' : inodeAt (u.winode s.freeinode (newDinode type)).disk =
      Function.update (inodeAt s.disk) s.freeinode (fresh type) := by
    rw [← hnew, ← hdisk]
    exact u.inodeAt_winode s.freeinode (newDinode type)
  obtain ⟨hfilling', hpointer⟩ := hfilling.winode (newDinode type) hlt
    (fun i _ hne => by rw [Function.update_of_ne hne, hdisk])
    (by rw [Function.update_self, hnew]) (by rw [Function.update_self, hnew])
  have hpointer' := hpointer.trans (pointer_fresh hz type)
  rw [hdisk] at hpointer'
  have hself : inodeAt (u.winode s.freeinode (newDinode type)).disk s.freeinode = fresh type := by
    rw [hview', Function.update_self]
  have hother : ∀ i, i ≠ s.freeinode →
      inodeAt (u.winode s.freeinode (newDinode type)).disk i = inodeAt s.disk i := by
    intro i hne
    rw [hview', Function.update_of_ne hne]
  have hfree : (u.winode s.freeinode (newDinode type)).freeinode = s.freeinode + 1 := by
    rw [← hu]
    rfl
  refine ⟨rfl, ⟨hfilling', fun i hi hne => ?_, fun i hi hne bn hbn => ?_, fun i hf hi => ?_⟩,
    hfree, hself, hother⟩
  · by_cases hc : i = s.freeinode
    · rw [hc, hself]
      exact Nat.zero_le _
    · rw [hother i hc] at hne ⊢
      exact h.size i hi hne
  · rw [hpointer']
    by_cases hc : i = s.freeinode
    · rw [hc, hself]
      refine iff_of_false (fun hp => hp ?_) (Nat.not_lt_zero _)
      simp [pointer, hz]
    · rw [hother i hc] at hne ⊢
      exact h.covered i hi hne bn hbn
  · rw [hfree] at hf
    rw [hother i (by omega)]
    exact h.unused i (by omega) hi

/-- The root directory has an entry for each file and for itself and its parent. -/
structure Progress (s : St) : Prop where
  built : Built s
  two : 2 ≤ s.freeinode
  type : (inodeAt s.disk ROOTINO).type ≠ 0
  size : (inodeAt s.disk ROOTINO).size = DIRENT * s.freeinode

theorem dirent_length (inum : ℕ) (name : List UInt8) : (dirent inum name).length = DIRENT := by
  have hle : (dirName name).length ≤ 14 :=
    Nat.le_trans (List.takeWhile_prefix _).length_le (List.length_take_le 14 name)
  simp only [dirent, List.length_cons, List.length_append, List.length_replicate]
  change (dirName name).length + (14 - (dirName name).length) + 1 + 1 = 16
  omega

theorem addFile_spec (h : Progress s) (hlt : s.freeinode < NINODES) (f : HostFile) :
    Triple AnyExit (· = s) (addFile ROOTINO f)
      (fun _ t => Progress t ∧ t.freeinode = s.freeinode + 1) := by
  refine .bind assert_spec (fun _ => .of_eq ?_)
  rintro t ⟨ht, -⟩
  subst t
  cases hcontent : f.content with
  | none => exact .throw trivial
  | some chunks =>
    have htwo := h.two
    refine .bind (ialloc_spec h.built hlt (by decide)) (fun inum => .of_eq ?_)
    rintro u ⟨rfl, hu, hfree, hself, hother⟩
    have hroot : inodeAt u.disk ROOTINO = inodeAt s.disk ROOTINO :=
      hother ROOTINO (by change 1 ≠ s.freeinode; omega)
    refine .bind (iappend_spec hu (by decide) (by rw [hroot]; exact h.type) _)
      (fun _ => .of_eq ?_)
    rintro v ⟨hv, hgrown⟩
    rw [dirent_length] at hgrown
    have hprogress : Progress v ∧ v.freeinode = s.freeinode + 1 ∧
        (inodeAt v.disk s.freeinode).type ≠ 0 := by
      have hfree' := hgrown.freeinode.trans hfree
      refine ⟨⟨hv, by omega, ?_, ?_⟩, hfree', ?_⟩
      · rw [hgrown.type, hroot]
        exact h.type
      · rw [hgrown.size, hroot, h.size, hfree']
        rfl
      · rw [hgrown.others _ hlt (by change s.freeinode ≠ 1; omega), hself]
        decide
    refine (Triple.forM (I := fun _ v => Progress v ∧ v.freeinode = s.freeinode + 1 ∧
      (inodeAt v.disk s.freeinode).type ≠ 0) fun c _ _ => .of_eq ?_).conseq
        (fun w hw => hw ▸ hprogress) (fun _ w hw => ⟨hw.1, hw.2.1⟩)
    rintro w ⟨hw, hwfree, hwtype⟩
    refine (iappend_spec hw.built hlt hwtype c.val).weaken ?_
    rintro _ x ⟨hx, hg⟩
    have hroot' := hg.others ROOTINO (by decide) (by change 1 ≠ s.freeinode; omega)
    refine ⟨⟨hx, by rw [hg.freeinode]; exact hw.two, ?_, ?_⟩, hg.freeinode.trans hwfree, ?_⟩
    · rw [hroot']
      exact hw.type
    · rw [hroot', hg.freeinode]
      exact hw.size
    · rw [hg.type]
      exact hwtype

end Ostep.Mkfs

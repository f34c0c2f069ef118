import Ostep.MkfsImage

/-!
# When the image is consistent

A run of mkfs that exits with 0 leaves a consistent file system exactly when there are inode
numbers for all files and the entries of the root directory do not fill its last block: the
final rounding of the directory's size goes to the next block in any case, and a directory that
ends at a block boundary has no block there. The kernel would allocate one when it reads it.
-/

namespace Ostep.FsBlocks
open Hoare

/-! ## Reading a file without holes -/

section Reading
variable {sb : Superblock} {s : St} {i : ℕ}

theorem readLoop_found {fuel size : ℕ} (off n : ℕ) (h : Core sb i s) (hcov : Covered sb s i size)
    (hle : off + n ≤ size) : ∃ bytes, readLoop sb i fuel off n s = .ok (bytes, s) := by
  induction fuel generalizing off n with
  | zero => exact ⟨[], rfl⟩
  | succ fuel ih =>
    unfold readLoop
    by_cases hn : n = 0
    · exact ⟨[], by rw [if_pos hn]; rfl⟩
    · rw [if_neg hn]
      obtain ⟨hlt, hne⟩ := hcov _ (block_start_lt hle hn)
      obtain ⟨rest, hrest⟩ := ih (off + min n (BSIZE - off % BSIZE))
        (n - min n (BSIZE - off % BSIZE)) (by omega)
      exact ⟨_, run_bind.mpr ⟨_, s, bmap_found h hlt hne,
        run_get_bind.trans (run_bind.mpr ⟨rest, s, hrest, rfl⟩)⟩⟩

/-- `readi` returns and leaves the file system as it is. -/
theorem readi_found {off n : ℕ} (h : Core sb i s)
    (hcov : Covered sb s i (s.icache i).ip.size) : ∃ r, readi sb i off n s = .ok (r, s) := by
  unfold readi
  simp only [run_get_bind]
  by_cases hdev : (s.icache i).ip.type = T_DEV
  · exact ⟨none, by rw [if_pos hdev]; rfl⟩
  · rw [if_neg hdev]
    by_cases hoff : off > (s.icache i).ip.size ∨ (off + n) % 2 ^ 32 < off
    · exact ⟨none, by rw [if_pos hoff]; rfl⟩
    · rw [if_neg hoff]
      have hle : off + (if off + n > (s.icache i).ip.size then (s.icache i).ip.size - off else n) ≤
          (s.icache i).ip.size := by
        split_ifs <;> omega
      obtain ⟨bytes, hb⟩ := readLoop_found _ _ h hcov hle
      exact ⟨some bytes, run_bind.mpr ⟨bytes, s, hb, rfl⟩⟩

/-- Inode `i` of a file system just mounted, referenced and locked. -/
def St.opened (s : St) (i : ℕ) : St :=
  { s with icache := Function.update s.icache i ⟨1, true, s.dinode i⟩ }

theorem open_run (hcache : (s.icache i).ref = 0) (htype : (s.dinode i).type ≠ 0) {α : Type}
    (m : Fs α) : (do iget i; ilock i; m) s = m (s.opened i) := by
  have hget : iget i s = .ok (⟨⟩, { s with
      icache := Function.update s.icache i { s.icache i with ref := 1, valid := false } }) := by
    change Except.ok (_, _) = _
    simp [hcache]
  have hlock : ilock i { s with
      icache := Function.update s.icache i { s.icache i with ref := 1, valid := false } } =
      .ok (⟨⟩, s.opened i) := by
    unfold ilock
    rw [run_get_bind]
    simp only [Function.update_self, htype, if_false]
    change Except.ok (_, _) = _
    simp [St.opened]
  rw [run_bind_ok hget, run_bind_ok hlock]

/-- Reading any inode of a consistent file system allocates nothing. -/
theorem Consistent.readi (h : Consistent sb s) (hi : i < sb.ninodes)
    (htype : (s.dinode i).type ≠ 0) (off n : ℕ) :
    ∃ r, (do iget i; ilock i; readi sb i off n) s = .ok (r, s.opened i) := by
  rw [open_run (h.icache i) htype]
  have hinode : (s.opened i).inode = s.dinode := by
    funext j
    by_cases hj : j = i
    · rw [hj, St.Locked.inode (by simp [St.Locked, St.opened])]
      simp [St.opened]
    · have hsame : (s.opened i).inode j = s.inode j :=
        inode_congr (by simp [St.opened, hj]) rfl
      refine hsame.trans (St.not_locked_inode fun hl => ?_)
      have hpos : 0 < (s.icache j).ref := hl.1
      rw [h.icache j] at hpos
      omega
  have hown : (s.opened i).own sb = pointer sb s.data s.dinode := by
    rw [St.own, hinode]
    rfl
  refine readi_found ⟨?_, by simp [St.Locked, St.opened], hi, by simpa [St.opened] using htype⟩ ?_
  · rw [hown]
    exact h.owns
  · intro bn hbn
    rw [hown]
    exact h.covered i hi htype bn (by simpa [St.opened] using hbn)

end Reading
end Ostep.FsBlocks

namespace Ostep.Mkfs
open FsBlocks Hoare Ownership

variable {s t : St}

/-! ## The run -/

/-- The image after the first loop of `main`. -/
def zeroed : St :=
  ⟨fun _ _ => 0, FSSIZE, 1, nmeta, ((List.range FSSIZE).map (Prod.mk Region.zeroes)).reverse⟩

theorem zero_loop (n a : ℕ) (s : St) (hlen : s.len = a) (hdisk : s.disk = fun _ _ => 0) :
    (List.range' a n).forM (fun i => wsect .zeroes i (fun _ => 0)) s = .ok (⟨⟩, { s with
      len := a + n
      written := ((List.range' a n).map (Prod.mk Region.zeroes)).reverse ++ s.written }) := by
  induction n generalizing a s with
  | zero =>
    rw [← hlen]
    rfl
  | succ n ih =>
    have hnext := ih (a + 1) (s.wsect .zeroes a (fun _ => 0)) (by
      change max s.len (a + 1) = a + 1
      omega) (by
      change Function.update s.disk a (fun _ => 0) = _
      rw [hdisk]
      exact Function.update_eq_self a _)
    rw [List.range'_succ]
    refine Eq.trans (show _ = (List.range' (a + 1) n).forM
      (fun i => wsect .zeroes i (fun _ => 0)) (s.wsect .zeroes a (fun _ => 0)) from rfl) ?_
    rw [hnext]
    have hupd : Function.update s.disk a (fun _ => 0) = s.disk := by
      rw [hdisk]
      exact Function.update_eq_self a _
    simp only [St.wsect, hupd]
    congr 3
    · omega
    · simp

theorem zeroDisk_start : zeroDisk start = .ok (⟨⟩, zeroed) := by
  have h := zero_loop FSSIZE 0 start rfl rfl
  rw [← List.range_eq_range'] at h
  refine h.trans ?_
  simp [zeroed, start]

/-- `main` after its first loop. -/
def build (files : List HostFile) : Host Unit := do
  wsect .superblock 1 superblock
  let rootino ← ialloc T_DIR
  assert (rootino = ROOTINO)
  iappend rootino (dirent rootino [dot])
  iappend rootino (dirent rootino [dot, dot])
  files.forM (addFile rootino)
  fixRoot rootino
  let s ← get
  balloc s.freeblock

theorem main_start (files : List HostFile) : main files start = build files zeroed := by
  unfold main
  rw [run_bind_ok zeroDisk_start]
  rfl

/-- The bits below `n` are set. -/
theorem setBit_range (n k j : ℕ) (hj : j < 8) :
    ((List.range n).foldl setBit (fun _ => 0) k).toNat.testBit j = decide (8 * k + j < n) := by
  induction n with
  | zero => simp
  | succ n ih =>
    rw [List.range_succ, List.foldl_append]
    simp only [List.foldl_cons, List.foldl_nil, setBit]
    split_ifs with hk
    · have hlt : n % 8 < 8 := Nat.mod_lt n (by decide)
      have hpow : 2 ^ (n % 8) < 256 := by
        have := Nat.pow_lt_pow_right (a := 2) (by decide) hlt
        omega
      have hone : (UInt8.ofNat (1 <<< (n % 8))).toNat = 2 ^ (n % 8) := by
        rw [Nat.one_shiftLeft, UInt8.toNat_ofNat']
        exact Nat.mod_eq_of_lt hpow
      rw [UInt8.toNat_or, Nat.testBit_or, ih, hone, Nat.testBit_two_pow, ← Bool.decide_or,
        decide_eq_decide]
      omega
    · rw [ih, decide_eq_decide]
      omega

theorem zeroed_built : Built (zeroed.wsect .superblock 1 superblock) := by
  have htype : ∀ i, i < NINODES →
      (inodeAt (zeroed.wsect .superblock 1 superblock).disk i).type = 0 := by
    intro i hi
    have hne : IBLOCK i ≠ 1 := by
      have := (IBLOCK_lt hi).1
      change 32 ≤ _ at this
      omega
    change (inodeAt (Function.update _ 1 superblock) i).type = 0
    rw [inodeAt_update_of_ne hne]
    rfl
  have hpointer : ∀ p, pointer sb (zeroed.wsect .superblock 1 superblock).disk
      (inodeAt (zeroed.wsect .superblock 1 superblock).disk) p = 0 := by
    rintro ⟨i, k⟩
    exact if_neg fun h => h.2.1 (htype i h.1)
  refine ⟨⟨by decide, ⟨by decide, fun b hb => ?_, fun p hp => ?_, fun p q _ hp => ?_,
    fun b hlo hb => ?_⟩, by decide, fun b hb => ?_, fun w hw => ?_⟩,
    fun i hi hne => absurd (htype i hi) hne, fun i hi hne => absurd (htype i hi) hne,
    fun i _ hi => htype i hi⟩
  · exact decide_eq_true hb
  · exact absurd (hpointer p) hp
  · exact absurd (hpointer p) hp
  · refine iff_of_false ?_ ?_
    · have hlo : (zeroed.wsect .superblock 1 superblock).freeblock ≤ b := hlo
      simpa using hlo
    · rintro ⟨p, hp⟩
      rw [hpointer p] at hp
      change 59 ≤ b at hlo
      omega
  · have hb : nmeta ≤ b := hb
    change 59 ≤ b at hb
    exact Function.update_of_ne (by omega) _ _
  · rcases List.mem_cons.mp hw with rfl | hw
    · exact rfl
    · simp only [zeroed, List.mem_reverse, List.mem_map, List.mem_range] at hw
      obtain ⟨i, hi, rfl⟩ := hw
      exact hi

/-- The root directory with its first two entries. -/
theorem makeRoot_spec : Triple AnyExit (· = zeroed.wsect .superblock 1 superblock)
    (do
      let rootino ← ialloc T_DIR
      assert (rootino = ROOTINO)
      iappend rootino (dirent rootino [dot])
      iappend rootino (dirent rootino [dot, dot])
      pure rootino)
    (fun rootino t => rootino = ROOTINO ∧ Progress t ∧ t.freeinode = 2) := by
  refine .bind (ialloc_spec zeroed_built (show 1 < 200 by decide) (by decide))
    (fun rootino => ?_)
  refine .bind assert_spec (fun _ => .of_eq ?_)
  rintro u ⟨⟨-, hu, hfree, hself, -⟩, rfl⟩
  have htype : (inodeAt u.disk ROOTINO).type ≠ 0 := by
    rw [hself]
    decide
  refine .bind (iappend_spec hu (by decide) htype _) (fun _ => .of_eq ?_)
  rintro v ⟨hv, hg⟩
  rw [dirent_length] at hg
  refine .bind (iappend_spec hv (by decide) (by rw [hg.type]; exact htype) _) (fun _ => .pure ?_)
  rintro w ⟨hw, hg'⟩
  rw [dirent_length] at hg'
  have hfree' : w.freeinode = 2 := by
    rw [hg'.freeinode, hg.freeinode, hfree]
    rfl
  refine ⟨rfl, ⟨hw, by omega, ?_, ?_⟩, hfree'⟩
  · rw [hg'.type, hg.type]
    exact htype
  · rw [hg'.size, hg.size, hself, hfree']
    rfl

/-- The loop over the arguments, while there are inode numbers. -/
theorem addFiles_spec {files : List HostFile} (hlen : s.freeinode + files.length ≤ NINODES)
    (h : Progress s) : Triple AnyExit (· = s) (files.forM (addFile ROOTINO))
      (fun _ t => Progress t ∧ t.freeinode = s.freeinode + files.length) := by
  refine (Triple.forM (I := fun rest t => Progress t ∧
    t.freeinode + rest.length = s.freeinode + files.length) fun f rest _ => .of_eq ?_).conseq
      (fun t ht => ?_) (fun _ t ht => ⟨ht.1, by simpa using ht.2⟩)
  · rintro t ⟨ht, hcount⟩
    rw [List.length_cons] at hcount
    refine (addFile_spec ht (by omega) f).weaken ?_
    rintro _ u ⟨hu, hfree⟩
    exact ⟨hu, by omega⟩
  · subst ht
    exact ⟨h, rfl⟩

/-- What mkfs leaves behind when the root directory has `n` entries. -/
structure Image (n : ℕ) (t : St) : Prop where
  freeinode : t.freeinode = n
  owns : Owns nmeta FSSIZE (bitmapBit t.disk) (pointer sb t.disk (inodeAt t.disk))
  written : ∀ w ∈ t.written, w.1.Contains w.2
  rootType : (inodeAt t.disk ROOTINO).type ≠ 0
  rootSize : (inodeAt t.disk ROOTINO).size = (DIRENT * n / BSIZE + 1) * BSIZE
  rootCovered : ∀ bn, bn < MAXFILE →
    (pointer sb t.disk (inodeAt t.disk) (ROOTINO, slotOf bn) ≠ 0 ↔ bn * BSIZE < DIRENT * n)
  covered : ∀ i, i < NINODES → i ≠ ROOTINO → (inodeAt t.disk i).type ≠ 0 →
    ∀ bn, bn * BSIZE < (inodeAt t.disk i).size →
      bn < MAXFILE ∧ pointer sb t.disk (inodeAt t.disk) (i, slotOf bn) ≠ 0

/-- The bitmap marks the blocks below `freeblock`; its own block holds no inode and no file. -/
theorem bitmap_image (h : Filling s (inodeAt s.disk)) (bits : Block)
    (hbits : ∀ k j, j < 8 → (bits k).toNat.testBit j = decide (8 * k + j < s.freeblock)) :
    (∀ i, i < NINODES →
      inodeAt (s.wsect .bitmap bmapstart bits).disk i = inodeAt s.disk i) ∧
    pointer sb (s.wsect .bitmap bmapstart bits).disk
      (inodeAt (s.wsect .bitmap bmapstart bits).disk) = pointer sb s.disk (inodeAt s.disk) ∧
    ∀ b, b < FSSIZE →
      bitmapBit (s.wsect .bitmap bmapstart bits).disk b = decide (b < s.freeblock) := by
  have hmeta : bmapstart < nmeta := by decide
  have hview : ∀ i, i < NINODES →
      inodeAt (s.wsect .bitmap bmapstart bits).disk i = inodeAt s.disk i :=
    fun i hi => inodeAt_update_of_ne (Nat.ne_of_lt (IBLOCK_lt hi).2)
  refine ⟨hview, ?_, fun b hb => ?_⟩
  · rw [pointer_congr (inodeAt s.disk)
      (fun i hi => by rw [hview i hi]; exact ⟨rfl, rfl⟩)]
    refine pointer_update_data fun i hib => ?_
    have hne : pointer sb s.disk (inodeAt s.disk) (i, NDIRECT) ≠ 0 := by
      rw [hib]
      decide
    have := (h.data_block hne).1
    omega
  · change b < 1000 at hb
    have hblock : b / BPB + bmapstart = bmapstart := by
      change b / 4096 + 58 = 58
      omega
    have hmod : b % BPB = b := Nat.mod_eq_of_lt (by change b < 4096; omega)
    simp only [bitmapBit, hblock, hmod, St.wsect, Function.update_self]
    rw [hbits _ _ (Nat.mod_lt _ (by decide)), decide_eq_decide]
    omega

/-- The last steps of `main`. -/
theorem finish_spec (h : Progress s) : Triple AnyExit (· = s)
    (do
      fixRoot ROOTINO
      let s ← get
      balloc s.freeblock)
    (fun _ t => Image s.freeinode t) := by
  have hroot := h.size
  have hsize := h.built.size ROOTINO (by decide) h.type
  rw [show MAXFILE * BSIZE = 71680 by decide] at hsize
  refine .bind (Q := fun _ t => ∃ din : Block, toDinode din = inodeAt s.disk ROOTINO ∧
    t = s.winode ROOTINO (din.setWord SIZE ((din.word SIZE / BSIZE + 1) * BSIZE))) ?_ (fun _ => ?_)
  · refine .bind (rinode_spec s ROOTINO) (fun din => .of_eq ?_)
    rintro t ⟨ht, hdin⟩
    subst t
    refine (winode_spec s ROOTINO _).weaken ?_
    rintro _ _ rfl
    exact ⟨din, hdin, rfl⟩
  refine .of_eq ?_
  rintro _ ⟨din, hdin, rfl⟩
  have hword : din.word SIZE = DIRENT * s.freeinode := by
    rw [← hroot, ← hdin]
    rfl
  rw [hword]
  have hset : toDinode (din.setWord SIZE ((DIRENT * s.freeinode / BSIZE + 1) * BSIZE)) =
      { inodeAt s.disk ROOTINO with size := (DIRENT * s.freeinode / BSIZE + 1) * BSIZE } := by
    rw [← hdin]
    refine toDinode_setSize ?_
    change (DIRENT * s.freeinode / 512 + 1) * 512 < 4294967296
    omega
  generalize hip : din.setWord SIZE ((DIRENT * s.freeinode / BSIZE + 1) * BSIZE) = ip at hset ⊢
  have hview := s.inodeAt_winode ROOTINO ip
  obtain ⟨hfilling, hpointer⟩ := h.built.filling.winode ip (show ROOTINO < NINODES by decide)
    (fun _ _ _ => rfl) (by rw [hset]) (by rw [hset])
  refine .get_bind ?_
  rintro u rfl
  refine .bind assert_spec (fun _ => .update ?_)
  rintro _ ⟨rfl, -⟩
  obtain ⟨hview', hpointer', hbits⟩ := bitmap_image hfilling
    ((List.range (s.winode ROOTINO ip).freeblock).foldl setBit (fun _ => 0))
    (fun k j hj => setBit_range _ k j hj)
  have hself : inodeAt (s.winode ROOTINO ip).disk ROOTINO =
      { inodeAt s.disk ROOTINO with size := (DIRENT * s.freeinode / BSIZE + 1) * BSIZE } := by
    rw [hview, Function.update_self, hset]
  have hother : ∀ i, i ≠ ROOTINO →
      inodeAt (s.winode ROOTINO ip).disk i = inodeAt s.disk i := by
    intro i hne
    rw [hview, Function.update_of_ne hne]
  refine ⟨rfl, ?_, fun w hw => ?_, ?_, ?_, fun bn hbn => ?_, fun i hi hne htype bn hbn => ?_⟩
  · rw [hpointer', hpointer]
    exact h.built.filling.owns.congr_used (by decide) fun b hb => hbits b hb
  · rcases List.mem_cons.mp hw with rfl | hw
    · exact ⟨Nat.le_refl _, by decide⟩
    · exact hfilling.written w hw
  · rw [hview' _ (by decide), hself]
    exact h.type
  · rw [hview' _ (by decide), hself]
  · rw [hpointer', hpointer, h.built.covered ROOTINO (by decide) h.type bn hbn, hroot]
  · rw [hview' i hi, hother i hne] at htype hbn
    have hle := h.built.size i hi htype
    rw [show MAXFILE * BSIZE = 71680 by decide] at hle
    have hmax : bn < MAXFILE := by
      change bn * 512 < _ at hbn
      change bn < 140
      omega
    rw [hpointer', hpointer]
    exact ⟨hmax, (h.built.covered i hi htype bn hmax).mpr hbn⟩

theorem main_image {files : List HostFile} (hlen : files.length + 2 ≤ NINODES)
    (hmain : main files start = .ok ((), t)) : Image (files.length + 2) t := by
  have hwrite : wsect .superblock 1 superblock zeroed =
      .ok (⟨⟩, zeroed.wsect .superblock 1 superblock) := rfl
  have hrun : (do
      let rootino ← (do
        let rootino ← ialloc T_DIR
        assert (rootino = ROOTINO)
        iappend rootino (dirent rootino [dot])
        iappend rootino (dirent rootino [dot, dot])
        pure rootino)
      files.forM (addFile rootino)
      fixRoot rootino
      let s ← get
      balloc s.freeblock) (zeroed.wsect .superblock 1 superblock) = .ok ((), t) := by
    rw [← hmain, main_start, build, run_bind_ok hwrite]
    simp only [bind_assoc, pure_bind]
  have htriple := Triple.bind makeRoot_spec fun rootino => Triple.of_eq (E := AnyExit)
    (m := (do
      files.forM (addFile rootino)
      fixRoot rootino
      let s ← get
      balloc s.freeblock)) (Q := fun _ t => Image (files.length + 2) t) ?_
  · exact htriple.ok rfl hrun
  · rintro s ⟨rfl, hs, hfree⟩
    refine .bind (addFiles_spec (by omega) hs) (fun _ => .of_eq ?_)
    rintro u ⟨hu, hcount⟩
    have := finish_spec hu
    rwa [hcount, hfree, Nat.add_comm] at this

/-! ## The number of inodes -/

/-- No inode is allocated. -/
def SameCount (s t : St) : Prop := t.freeinode = s.freeinode

instance : Std.Refl SameCount := ⟨fun _ => rfl⟩

instance : IsTrans St SameCount := ⟨fun _ _ _ h k => Eq.trans k h⟩

theorem wsect_count (r : Region) (sec : ℕ) (buf : Block) : Keeps SameCount (wsect r sec buf) :=
  .update fun _ => rfl

theorem rsect_count (sec : ℕ) : Keeps SameCount (rsect sec) :=
  .get_bind fun _ => .ite .pure .throw

theorem assert_count (p : Prop) [Decidable p] : Keeps SameCount (assert p) := .ite .pure .throw

theorem winode_count (inum : ℕ) (ip : Block) : Keeps SameCount (winode inum ip) :=
  .bind (rsect_count _) fun _ => wsect_count _ _ _

theorem rinode_count (inum : ℕ) : Keeps SameCount (rinode inum) :=
  .bind (rsect_count _) fun _ => .pure

theorem newBlock_count : Keeps SameCount newBlock :=
  .get_bind fun _ => .bind (.update fun _ => rfl) fun _ => .pure

theorem addr_count (din : Block) (k : ℕ) : Keeps SameCount (addr din k) :=
  .ite (.bind newBlock_count fun _ => .pure) .pure

theorem fileBlock_count (din : Block) (fbn : ℕ) : Keeps SameCount (fileBlock din fbn) :=
  .ite (addr_count _ _) (.bind (addr_count _ _) fun _ => .bind (rsect_count _) fun _ =>
    .ite (.bind newBlock_count fun _ => .bind (wsect_count _ _ _) fun _ => .pure) .pure)

theorem appendLoop_count (fuel : ℕ) (din : Block) (off : ℕ) (p : List UInt8) :
    Keeps SameCount (appendLoop fuel din off p) := by
  induction fuel generalizing din off p with
  | zero => exact .pure
  | succ fuel ih =>
    refine .ite .pure (.bind (assert_count _) fun _ => .bind (fileBlock_count _ _) fun r => ?_)
    exact .bind (rsect_count _) fun _ => .bind (wsect_count _ _ _) fun _ => ih _ _ _

theorem iappend_count (inum : ℕ) (p : List UInt8) : Keeps SameCount (iappend inum p) :=
  .bind (rinode_count _) fun _ => .bind (appendLoop_count _ _ _ _) fun _ => winode_count _ _

theorem Keeps.count {α : Type} {m : Host α} (h : Keeps SameCount m) (n : ℕ) :
    Triple AnyExit (fun s => s.freeinode = n) m (fun _ s => s.freeinode = n) := by
  intro s hs
  split
  case h_1 a t hm => exact (h s a t hm).trans hs
  case h_2 => trivial

theorem ialloc_count (type n : ℕ) : Triple AnyExit (fun s => s.freeinode = n) (ialloc type)
    (fun _ s => s.freeinode = n + 1) := by
  refine .get_bind fun u hu => .bind (Q := fun _ s => s.freeinode = n + 1) (.update ?_) fun _ => ?_
  · rintro _ rfl
    exact congrArg (· + 1) hu
  · exact .bind (Keeps.count (winode_count _ _) _) fun _ => .pure fun _ h => h

theorem addFile_count (rootino n : ℕ) (f : HostFile) :
    Triple AnyExit (fun s => s.freeinode = n) (addFile rootino f)
      (fun _ s => s.freeinode = n + 1) := by
  refine .bind (Keeps.count (assert_count _) n) fun _ => ?_
  cases f.content with
  | none => exact .throw trivial
  | some chunks =>
    refine .bind (ialloc_count T_FILE n) fun _ => .bind (Keeps.count (iappend_count _ _) _) fun _ => ?_
    exact Keeps.count (.forM fun _ => iappend_count _ _) _

/-- Every file has taken an inode number, and so has the root directory. -/
theorem main_count {files : List HostFile} (hmain : main files start = .ok ((), t)) :
    t.freeinode = files.length + 2 := by
  have hspec : Triple AnyExit (fun s => s.freeinode = 1) (build files)
      (fun _ s => s.freeinode = files.length + 2) := by
    unfold build
    refine .bind (Keeps.count (wsect_count _ _ _) _) fun _ => .bind (ialloc_count T_DIR 1) fun _ => ?_
    refine .bind (Keeps.count (assert_count _) _) fun _ => ?_
    refine .bind (Keeps.count (iappend_count _ _) _) fun _ => ?_
    refine .bind (Keeps.count (iappend_count _ _) _) fun _ => ?_
    refine .bind (Q := fun _ s => s.freeinode = files.length + 2) ?_ fun _ => ?_
    · refine (Triple.forM (I := fun rest s => s.freeinode + rest.length = files.length + 2)
        fun f rest _ => ?_).conseq (fun s hs => by omega) (fun _ s hs => hs)
      refine .of_eq fun s hs => ?_
      rw [List.length_cons] at hs
      refine (addFile_count _ s.freeinode f).conseq (fun u hu => by rw [hu]) fun _ u hu => ?_
      omega
    · refine .bind (Keeps.count (.bind (rinode_count _) fun _ => winode_count _ _) _) fun _ => ?_
      refine .get_bind fun u hu => ?_
      refine (Keeps.count (.bind (assert_count _) fun _ => wsect_count _ _ _) _).conseq ?_ fun _ _ h => h
      rintro _ rfl
      exact hu
  rw [main_start] at hmain
  exact hspec.ok rfl hmain

/-! ## Consistency -/

/-- What is promised of an image: mkfs wrote each sector inside the image and in its region, the
mounted file system is consistent, the inode numbers are in range, and the kernel reads any
inode without allocating anything. -/
structure Good (t : St) : Prop where
  written : ∀ w ∈ t.written, w.2 < FSSIZE ∧ w.1.Contains w.2
  consistent : Consistent sb (mount t)
  inums : t.freeinode ≤ NINODES
  reads : ∀ i, i < NINODES → ((mount t).dinode i).type ≠ 0 → ∀ off n,
    ∃ r, (do iget i; ilock i; readi sb i off n) (mount t) = .ok (r, (mount t).opened i)

theorem Region.Contains.lt {r : Region} {b : ℕ} (h : r.Contains b) : b < FSSIZE := by
  have hmeta : bmapstart < nmeta ∧ nmeta < FSSIZE := by decide
  cases r with
  | zeroes => exact h
  | superblock =>
    obtain rfl : b = 1 := h
    decide
  | inodes =>
    have := h.2
    omega
  | bitmap =>
    have := h.2
    omega
  | data => exact h.2

theorem Image.good {n : ℕ} (h : Image n t) (hn : n ≤ NINODES) (hpart : DIRENT * n % BSIZE ≠ 0) :
    Good t := by
  have hcons : Consistent sb (mount t) := by
    refine ⟨h.owns, fun i hi htype bn hbn => ?_, fun _ => rfl⟩
    by_cases hc : i = ROOTINO
    · rw [hc] at hbn ⊢
      change bn * BSIZE < (inodeAt t.disk ROOTINO).size at hbn
      rw [h.rootSize] at hbn
      change bn * 512 < (16 * n / 512 + 1) * 512 at hbn
      change 16 * n % 512 ≠ 0 at hpart
      change n ≤ 200 at hn
      have hmax : bn < MAXFILE := by
        change bn < 140
        omega
      refine ⟨hmax, (h.rootCovered bn hmax).mpr ?_⟩
      change bn * 512 < 16 * n
      omega
    · exact h.covered i hi hc htype bn hbn
  exact ⟨fun w hw => ⟨(h.written w hw).lt, h.written w hw⟩, hcons, by rw [h.freeinode]; exact hn,
    fun i hi htype off m => hcons.readi hi htype off m⟩

/-- A root directory that fills its last block is given one block too many. -/
theorem Image.hole {n : ℕ} (h : Image n t) (hfull : DIRENT * n % BSIZE = 0) :
    ¬ Consistent sb (mount t) := by
  intro hcons
  have hbn : DIRENT * n / BSIZE * BSIZE < (inodeAt t.disk ROOTINO).size := by
    rw [h.rootSize]
    change _ * 512 < _ * 512
    omega
  obtain ⟨hmax, hne⟩ := hcons.covered ROOTINO (by decide) h.rootType _ hbn
  have := (h.rootCovered _ hmax).mp hne
  change 16 * n / 512 * 512 < 16 * n at this
  change 16 * n % 512 = 0 at hfull
  omega

/-- An image is good exactly when the files have inode numbers and the entries of the root
directory end inside a block. -/
theorem image_good_iff {files : List HostFile} (h : main files start = .ok ((), t)) :
    Good t ↔ files.length + 2 ≤ NINODES ∧ DIRENT * (files.length + 2) % BSIZE ≠ 0 := by
  constructor
  · intro hgood
    have hn : files.length + 2 ≤ NINODES := by
      rw [← main_count h]
      exact hgood.inums
    exact ⟨hn, fun hfull => (main_image hn h).hole hfull hgood.consistent⟩
  · rintro ⟨hn, hpart⟩
    exact (main_image hn h).good hn hpart

theorem build_returns (files : List HostFile) (h : (build files zeroed).isOk = true) :
    ∃ t, main files start = .ok ((), t) := by
  rw [main_start]
  cases hb : build files zeroed with
  | ok r => exact ⟨r.2, rfl⟩
  | error e => simp [hb, Except.isOk, Except.toBool] at h

/-- The files `a` and `b`, the second one empty. -/
def twoFiles : List HostFile :=
  [⟨[97], some [⟨[120, 121], by decide⟩]⟩, ⟨[98], some []⟩]

theorem image_good_twoFiles : ∃ t, main twoFiles start = .ok ((), t) ∧ Good t := by
  obtain ⟨t, ht⟩ := build_returns twoFiles (by decide +kernel)
  exact ⟨t, ht, (image_good_iff ht).mpr (by decide)⟩

/-- Thirty files, whose entries fill the first block of the root directory. -/
def fullRoot : List HostFile := List.replicate 30 ⟨[97], some []⟩

theorem full_root_not_good : ¬ ∀ files t, main files start = .ok ((), t) → Good t := by
  intro hall
  obtain ⟨t, ht⟩ := build_returns fullRoot (by decide +kernel)
  exact (main_image (by decide) ht).hole (by decide) (hall fullRoot t ht).consistent

end Ostep.Mkfs

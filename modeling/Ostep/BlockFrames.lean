import Ostep.BlockOwnership

/-!
# What the block layer leaves alone

The functions that work on one inode change its size and its addresses, in the cache and on
disk, besides blocks; the other inodes stay as they are. What `readi` and the searches of a
directory return is a function of the blocks.
-/

namespace Ostep.FsBlocks
open Hoare

variable {sb : Superblock} {s t : St} {i : ℕ}

structure Resizes (i : ℕ) (s t : St) : Prop where
  dinode : ∀ j, j ≠ i → t.dinode j = s.dinode j
  icache : ∀ j, j ≠ i → t.icache j = s.icache j
  entry : ∃ size addrs, t.icache i = { s.icache i with
    ip := { (s.icache i).ip with size := size, addrs := addrs } }

instance (i : ℕ) : Std.Refl (Resizes i) where
  refl s := ⟨fun _ _ => rfl, fun _ _ => rfl, (s.icache i).ip.size, (s.icache i).ip.addrs, rfl⟩

instance (i : ℕ) : IsTrans St (Resizes i) where
  trans s t u h k := by
    obtain ⟨size, addrs, hst⟩ := h.entry
    obtain ⟨size', addrs', htu⟩ := k.entry
    refine ⟨fun j hj => (k.dinode j hj).trans (h.dinode j hj),
      fun j hj => (k.icache j hj).trans (h.icache j hj), size', addrs', ?_⟩
    rw [htu, hst]

/-- A step on blocks alone. -/
theorem Resizes.blocks (hdinode : t.dinode = s.dinode) (hicache : t.icache = s.icache) :
    Resizes i s t := by
  refine ⟨fun j _ => by rw [hdinode], fun j _ => by rw [hicache],
    (s.icache i).ip.size, (s.icache i).ip.addrs, ?_⟩
  rw [hicache]

theorem keeps_setIp {f : Dinode → Dinode}
    (hf : ∀ d, ∃ size addrs, f d = { d with size := size, addrs := addrs }) :
    Keeps (Resizes i) (setIp i f) := by
  refine .update fun s => ⟨fun _ _ => rfl, fun j hj => setIp_icache_of_ne s f hj, ?_⟩
  obtain ⟨size, addrs, hd⟩ := hf (s.icache i).ip
  exact ⟨size, addrs, by rw [setIp_icache, hd]⟩

theorem keeps_setAddr (k addr : ℕ) : Keeps (Resizes i) (setIp i (Dinode.setAddr k addr)) :=
  keeps_setIp fun d => ⟨d.size, Function.update d.addrs k addr, rfl⟩

theorem keeps_setSize (size : ℕ) : Keeps (Resizes i) (setIp i (fun d => { d with size := size })) :=
  keeps_setIp fun d => ⟨size, d.addrs, rfl⟩

theorem keeps_iupdate : Keeps (Resizes i) (iupdate i) :=
  .update fun s => ⟨fun _ hj => iupdate_dinode_of_ne s hj, fun _ _ => rfl,
    (s.icache i).ip.size, (s.icache i).ip.addrs, rfl⟩

theorem keeps_balloc : Keeps (Resizes i) (balloc sb) := by
  refine .get_bind fun s => ?_
  split
  · exact .bind (.update fun s => .blocks rfl rfl) fun _ =>
      .bind (.update fun s => .blocks rfl rfl) fun _ => .pure
  · exact .throw

theorem keeps_addrOrAlloc (k : ℕ) : Keeps (Resizes i) (addrOrAlloc sb i k) :=
  .get_bind fun _ => .ite (.bind keeps_balloc fun addr => .bind (keeps_setAddr k addr) fun _ => .pure)
    .pure

theorem keeps_entryOrAlloc (addr j : ℕ) : Keeps (Resizes i) (entryOrAlloc sb addr j) :=
  .get_bind fun _ => .ite (.bind keeps_balloc fun _ =>
    .bind (.update fun _ => .blocks rfl rfl) fun _ => .pure) .pure

theorem keeps_bmap (bn : ℕ) : Keeps (Resizes i) (bmap sb i bn) :=
  .ite (keeps_addrOrAlloc bn) (.ite (.bind (keeps_addrOrAlloc NDIRECT) fun addr =>
    keeps_entryOrAlloc addr _) .throw)

theorem keeps_writeLoop (fuel off : ℕ) (src : List UInt8) :
    Keeps (Resizes i) (writeLoop sb i fuel off src) := by
  induction fuel generalizing off src with
  | zero => exact .pure
  | succ fuel ih =>
    exact .ite .pure (.bind (keeps_bmap _) fun _ =>
      .bind (.update fun _ => .blocks rfl rfl) fun _ => ih _ _)

theorem keeps_writei (src : List UInt8) (off : ℕ) : Keeps (Resizes i) (writei sb i src off) := by
  refine .get_bind fun s => .ite .pure (.ite .pure (.ite .pure ?_))
  refine .bind (keeps_writeLoop _ _ _) fun _ => .bind ?_ fun _ => .pure
  exact .ite (.bind (keeps_setSize _) fun _ => keeps_iupdate) .pure

theorem keeps_bfree (b : ℕ) : Keeps (Resizes i) (bfree b) :=
  .get_bind fun _ => .ite .throw (.update fun _ => .blocks rfl rfl)

theorem keeps_freeIndirect : Keeps (Resizes i) (freeIndirect i) := by
  refine .get_bind fun s => .ite .pure (.bind (.forM fun j => ?_) fun _ =>
    .bind (keeps_bfree _) fun _ => keeps_setAddr _ _)
  exact .get_bind fun _ => .ite .pure (keeps_bfree _)

theorem keeps_itrunc : Keeps (Resizes i) (itrunc i) := by
  refine .bind (.forM fun k => ?_) fun _ =>
    .bind keeps_freeIndirect fun _ => .bind (keeps_setSize _) fun _ => keeps_iupdate
  exact .get_bind fun _ => .ite .pure (.bind (keeps_bfree _) fun _ => keeps_setAddr _ _)

/-- The last reference to an inode without links: the inode is freed; else nothing happens. -/
theorem iputLast_run {a : Unit} (h : iputLast i s = .ok (a, t)) :
    (∀ j, j ≠ i → t.dinode j = s.dinode j ∧ t.icache j = s.icache j) ∧
    (t.icache i).ref = (s.icache i).ref ∧
    if (s.icache i).valid ∧ (s.icache i).ip.nlink = 0 ∧ (s.icache i).ref = 1
      then (t.dinode i).type = 0 ∧ (t.dinode i).nlink = 0 ∧ (t.icache i).valid = false
      else t = s := by
  rw [iputLast, run_get_bind] at h
  split_ifs at h with hlast
  · obtain ⟨_, u, htrunc, h⟩ := run_bind.mp h
    obtain ⟨_, v, hv, h⟩ := run_bind.mp h
    obtain ⟨_, w, hw, h⟩ := run_bind.mp h
    obtain rfl := run_modify.mp hv
    obtain rfl := run_modify.mp hw
    obtain rfl := run_modify.mp h
    have hu := keeps_itrunc s _ u htrunc
    obtain ⟨size, addrs, hentry⟩ := hu.entry
    rw [if_pos hlast]
    refine ⟨fun j hj => ⟨?_, ?_⟩, ?_, ?_, ?_, ?_⟩
    · simpa [St.iupdate, St.setIp, hj] using hu.dinode j hj
    · simpa [St.iupdate, St.setIp, hj] using hu.icache j hj
    · simp [hentry]
    · simp [St.iupdate]
    · simpa [St.iupdate, hentry] using hlast.2.1
    · simp
  · obtain ⟨-, rfl⟩ := run_pure.mp h
    rw [if_neg hlast]
    exact ⟨fun _ _ => ⟨rfl, rfl⟩, rfl, rfl⟩

theorem ilock_run {a : Unit} (h : ilock i s = .ok (a, t)) :
    t.bitmap = s.bitmap ∧ t.data = s.data ∧ t.dinode = s.dinode ∧
    (∀ j, j ≠ i → t.icache j = s.icache j) ∧ (t.icache i).ref = (s.icache i).ref ∧
    (t.icache i).valid = true := by
  rw [ilock, run_get_bind] at h
  rcases run_ite.mp h with ⟨-, h⟩ | ⟨-, h⟩
  · exact (run_throw.mp h).elim
  rcases run_ite.mp h with ⟨hvalid, h⟩ | ⟨-, h⟩
  · obtain ⟨-, rfl⟩ := run_pure.mp h
    exact ⟨rfl, rfl, rfl, fun _ _ => rfl, rfl, hvalid⟩
  rcases run_ite.mp h with ⟨-, h⟩ | ⟨-, h⟩
  · exact (run_throw.mp h).elim
  · obtain rfl := run_modify.mp h
    exact ⟨rfl, rfl, rfl, fun j hj => by simp [hj], by simp, by simp⟩

/-! ## What a search returns -/

/-- The bytes of a directory entry, as the blocks have them. -/
def entryAt (data : ℕ → Block) (d : Dinode) (off : ℕ) : List UInt8 :=
  (data (pointerOf data d (slotOf (off / BSIZE)))).load (off % BSIZE) DIRENT

/-- The inode number of an entry that has the name. -/
def entryFor (data : ℕ → Block) (d : Dinode) (name : List UInt8) (off : ℕ) : Option (ℕ × ℕ) :=
  if direntInum (entryAt data d off) ≠ 0 ∧ dirName name = dirName ((entryAt data d off).drop 2)
    then some (direntInum (entryAt data d off), off)
  else none

/-- The first entry of a directory with the name: its inode number and its offset. -/
def entryOf (data : ℕ → Block) (d : Dinode) (name : List UInt8) : Option (ℕ × ℕ) :=
  (direntOffs d.size).findSome? (entryFor data d name)

theorem mod_of_mem_direntOffs {size off : ℕ} (h : off ∈ direntOffs size) : off % DIRENT = 0 := by
  obtain ⟨k, -, rfl⟩ := List.mem_map.mp h
  exact Nat.mul_mod_right DIRENT k

theorem readLoop_length {fuel off n : ℕ} {bytes : List UInt8}
    (h : readLoop sb i fuel off n s = .ok (bytes, t)) : bytes.length ≤ n := by
  induction fuel generalizing off n s t bytes with
  | zero =>
    obtain ⟨rfl, -⟩ := run_pure.mp h
    exact Nat.zero_le _
  | succ fuel ih =>
    rcases run_ite.mp h with ⟨-, h⟩ | ⟨-, h⟩
    · obtain ⟨rfl, -⟩ := run_pure.mp h
      exact Nat.zero_le _
    · obtain ⟨addr, u, -, h⟩ := run_bind.mp h
      rw [run_get_bind] at h
      obtain ⟨rest, v, hrest, h⟩ := run_bind.mp h
      obtain ⟨rfl, -⟩ := run_pure.mp h
      have := ih hrest
      simp only [ByteWords.Bytes.load, List.length_append, List.length_map, List.length_range]
      omega

/-- An entry lies in one block, so one turn of the loop reads it. -/
theorem readLoop_entry {off : ℕ} {bytes : List UInt8} (h : Core sb i s)
    (hcov : Covered sb s i (s.icache i).ip.size) (hle : off + DIRENT ≤ (s.icache i).ip.size)
    (hoff : off % DIRENT = 0) (hr : readLoop sb i DIRENT off DIRENT s = .ok (bytes, t)) :
    bytes = entryAt s.data (s.icache i).ip off := by
  change (bmap sb i (off / BSIZE) >>= fun addr => _) s = _ at hr
  obtain ⟨addr, u, hbmap, hloop⟩ := run_bind.mp hr
  have hbn := hcov _ (block_start_lt hle (by decide))
  obtain ⟨-, -, hlt, hat, -, hsame⟩ := (bmap_spec s h).ok rfl hbmap
  obtain rfl := hsame hbn.2
  rw [run_get_bind] at hloop
  have hm : min DIRENT (BSIZE - off % BSIZE) = DIRENT := by
    change off % 16 = 0 at hoff
    change min 16 (512 - off % 512) = 16
    omega
  obtain ⟨rest, v, hrest, hdone⟩ := run_bind.mp hloop
  obtain ⟨rfl, -⟩ := run_pure.mp hdone
  simp only [hm, Nat.sub_self] at hrest ⊢
  obtain ⟨rfl, -⟩ := run_pure.mp (show (pure [] : Fs (List UInt8)) u = _ from hrest)
  rw [List.append_nil, entryAt, ← hat, St.own, pointer, if_pos, h.locked.inode]
  refine ⟨h.lt, h.inode_type, ?_⟩
  rw [slotOf]
  change off / BSIZE < 140 at hlt
  change _ ≤ 140
  split_ifs <;> omega

theorem readDirent_run (h : Inv sb s) (hi : s.Locked i) {off : ℕ} (hoff : off % DIRENT = 0)
    {p : Panic} {de : List UInt8} (hr : readDirent sb i off p s = .ok (de, t)) :
    t = s ∧ de = entryAt s.data (s.icache i).ip off := by
  obtain ⟨r, u, hread, hr⟩ := run_bind.mp hr
  obtain rfl := (readi_spec h hi off DIRENT).ok rfl hread
  cases r with
  | none => exact (run_throw.mp hr).elim
  | some bytes =>
    rcases run_ite.mp hr with ⟨hlen, hr⟩ | ⟨-, hr⟩
    · obtain ⟨rfl, rfl⟩ := run_pure.mp hr
      refine ⟨rfl, ?_⟩
      rw [readi, run_get_bind] at hread
      rcases run_ite.mp hread with ⟨-, hread⟩ | ⟨-, hread⟩
      · cases (run_pure.mp hread).1
      rcases run_ite.mp hread with ⟨-, hread⟩ | ⟨hoffs, hread⟩
      · cases (run_pure.mp hread).1
      obtain ⟨bytes', v, hloop, hread⟩ := run_bind.mp hread
      obtain ⟨heq, rfl⟩ := run_pure.mp hread
      obtain rfl := Option.some.inj heq
      have hlong := readLoop_length hloop
      have hle : off + DIRENT ≤ (v.icache i).ip.size := by
        by_contra hgt
        rw [if_pos (by omega)] at hlong
        omega
      rw [if_neg (by omega)] at hloop
      exact readLoop_entry (h.core hi) (h.covered_locked hi) hle hoff hloop
    · exact (run_throw.mp hr).elim

theorem findName_run (h : Inv sb s) (hi : s.Locked i) {name : List UInt8} {offs : List ℕ}
    (hoffs : ∀ off ∈ offs, off % DIRENT = 0) {r : Option (ℕ × ℕ)}
    (hr : findName sb i name offs s = .ok (r, t)) :
    t = s ∧ r = offs.findSome? (entryFor s.data (s.icache i).ip name) := by
  induction offs with
  | nil =>
    obtain ⟨rfl, rfl⟩ := run_pure.mp hr
    exact ⟨rfl, rfl⟩
  | cons off offs ih =>
    obtain ⟨de, u, hread, hr⟩ := run_bind.mp hr
    obtain ⟨rfl, rfl⟩ := readDirent_run h hi (hoffs off (List.mem_cons_self ..)) hread
    rw [List.findSome?_cons, entryFor]
    rcases run_ite.mp hr with ⟨hc, hr⟩ | ⟨hc, hr⟩
    · obtain ⟨rfl, rfl⟩ := run_pure.mp hr
      rw [if_pos hc]
      exact ⟨rfl, rfl⟩
    · rw [if_neg hc]
      exact ih (fun off hoff => hoffs off (List.mem_cons_of_mem _ hoff)) hr

theorem direntInum_lt (de : List UInt8) : direntInum de < 2 ^ 16 := by
  have h0 := (de.getD 0 0).toNat_lt
  have h1 := (de.getD 1 0).toNat_lt
  simp only [direntInum]
  omega

theorem entryOf_lt {data : ℕ → Block} {d : Dinode} {name : List UInt8} {p : ℕ × ℕ}
    (h : entryOf data d name = some p) : p.1 < 2 ^ 16 := by
  obtain ⟨off, -, hoff⟩ := List.exists_of_findSome?_eq_some h
  rw [entryFor] at hoff
  split_ifs at hoff
  obtain rfl := Option.some.inj hoff
  exact direntInum_lt _

/-! ## More inodes -/

/-- The superblock of a table that has an inode for every number in a directory entry, those
beyond the end of the real one being free. -/
def Superblock.wide (sb : Superblock) : Superblock := { sb with ninodes := max sb.ninodes (2 ^ 16) }

theorem bmap_wide (bn : ℕ) : bmap sb.wide i bn = bmap sb i bn := rfl

theorem readLoop_wide (fuel off n : ℕ) : readLoop sb.wide i fuel off n = readLoop sb i fuel off n := by
  induction fuel generalizing off n with
  | zero => rfl
  | succ fuel ih => simp only [readLoop, bmap_wide, ih]

theorem readi_wide (off n : ℕ) : readi sb.wide i off n = readi sb i off n := by
  simp only [readi, readLoop_wide]

theorem writeLoop_wide (fuel off : ℕ) (src : List UInt8) :
    writeLoop sb.wide i fuel off src = writeLoop sb i fuel off src := by
  induction fuel generalizing off src with
  | zero => rfl
  | succ fuel ih => simp only [writeLoop, bmap_wide, ih]

theorem writei_wide (src : List UInt8) (off : ℕ) : writei sb.wide i src off = writei sb i src off := by
  simp only [writei, writeLoop_wide]

theorem findName_wide (name : List UInt8) (offs : List ℕ) :
    findName sb.wide i name offs = findName sb i name offs := by
  induction offs with
  | nil => rfl
  | cons off offs ih => simp only [findName, readDirent, readi_wide, ih]

theorem findEmpty_wide (last : ℕ) (offs : List ℕ) :
    findEmpty sb.wide i last offs = findEmpty sb i last offs := by
  induction offs with
  | nil => rfl
  | cons off offs ih => simp only [findEmpty, readDirent, readi_wide, ih]

end Ostep.FsBlocks

import Ostep.FsBlocks
import Mathlib.Algebra.Group.Int.Defs

/-!
# mkfs

The image file is a sequence of sectors, and every structure in it is bytes. A `struct dinode`
is its 64 bytes, so `rinode` and `winode` copy bytes and the fields are words at their offsets;
mkfs writes integers low byte first, whatever the host. The writes are recorded with the region
they are meant for.

The host's `lseek` and `write` are taken to succeed; its `read` is at the end of the image when
the sector has never been written.
-/

namespace Ostep.Mkfs
open ByteWords
open FsBlocks (Block Dinode BSIZE NDIRECT NINDIRECT MAXFILE BPB T_DIR)

abbrev FSSIZE : ℕ := 1000
abbrev LOGSIZE : ℕ := 30
abbrev NINODES : ℕ := 200
abbrev ROOTINO : ℕ := 1
abbrev T_FILE : ℕ := 2

/-- `sizeof(struct dinode)`. -/
abbrev DINODE : ℕ := 64

abbrev IPB : ℕ := BSIZE / DINODE

def nbitmap : ℕ := FSSIZE / (BSIZE * 8) + 1
def ninodeblocks : ℕ := NINODES / IPB + 1
def nlog : ℕ := LOGSIZE
def nmeta : ℕ := 2 + nlog + ninodeblocks + nbitmap
def nblocks : ℕ := FSSIZE - nmeta
def inodestart : ℕ := 2 + nlog
def bmapstart : ℕ := 2 + nlog + ninodeblocks

def IBLOCK (i : ℕ) : ℕ := i / IPB + inodestart

/-- What a sector is written for. -/
inductive Region where
  | zeroes
  | superblock
  | inodes
  | bitmap
  | data
  deriving DecidableEq

def Region.Contains : Region → ℕ → Prop
  | .zeroes, b => b < FSSIZE
  | .superblock, b => b = 1
  | .inodes, b => inodestart ≤ b ∧ b < bmapstart
  | .bitmap, b => bmapstart ≤ b ∧ b < nmeta
  | .data, b => nmeta ≤ b ∧ b < FSSIZE

structure St where
  disk : ℕ → Block
  /-- The length of the image file in sectors. -/
  len : ℕ
  freeinode : ℕ
  freeblock : ℕ
  written : List (Region × ℕ)

/-- How mkfs ends early: `exit(1)` after `perror`, or a failed `assert`. -/
inductive Exit where
  | failure
  | assert
  deriving DecidableEq

abbrev Host : Type → Type := StateT St (Except Exit)

def assert (p : Prop) [Decidable p] : Host Unit := if p then pure () else throw .assert

def St.wsect (s : St) (r : Region) (sec : ℕ) (buf : Block) : St :=
  { s with
    disk := Function.update s.disk sec buf
    len := max s.len (sec + 1)
    written := (r, sec) :: s.written }

def wsect (r : Region) (sec : ℕ) (buf : Block) : Host Unit := modify (·.wsect r sec buf)

def rsect (sec : ℕ) : Host Block := do
  let s ← get
  if sec < s.len then return s.disk sec else throw .failure

/-- The bytes of the inode `inum` in the block that holds it. -/
def dinodeBytes (buf : Block) (inum : ℕ) : Block := fun k => buf (DINODE * (inum % IPB) + k)

/-- `*dip = *ip`. -/
def setDinode (buf : Block) (inum : ℕ) (ip : Block) : Block := fun k =>
  if DINODE * (inum % IPB) ≤ k ∧ k < DINODE * (inum % IPB) + DINODE then
    ip (k - DINODE * (inum % IPB))
  else buf k

def winode (inum : ℕ) (ip : Block) : Host Unit := do
  let buf ← rsect (IBLOCK inum)
  wsect .inodes (IBLOCK inum) (setDinode buf inum ip)

def rinode (inum : ℕ) : Host Block := do
  let buf ← rsect (IBLOCK inum)
  return dinodeBytes buf inum

/-- The words of a `struct dinode` that hold `size` and `addrs[k]`. -/
abbrev SIZE : ℕ := 2
abbrev ADDRS (k : ℕ) : ℕ := 3 + k

/-- The two bytes of `xshort(x)`. -/
def xshort (x : ℕ) : List UInt8 := [UInt8.ofNat x, UInt8.ofNat (x / 256)]

/-- A new inode: `type` is its first field, `nlink` its fourth. -/
def newDinode (type : ℕ) : Block := (Bytes.store (fun _ => 0) 0 (xshort type)).store 6 (xshort 1)

def ialloc (type : ℕ) : Host ℕ := do
  let s ← get
  let inum := s.freeinode
  modify (fun s => { s with freeinode := s.freeinode + 1 })
  winode inum (newDinode type)
  return inum

/-- `freeblock++`. -/
def newBlock : Host ℕ := do
  let s ← get
  modify (fun s => { s with freeblock := s.freeblock + 1 })
  return s.freeblock

/-- `din.addrs[k]`, allocated if necessary. -/
def addr (din : Block) (k : ℕ) : Host (Block × ℕ) :=
  if din.word (ADDRS k) = 0 then do
    let b ← newBlock
    return (din.setWord (ADDRS k) b, b)
  else return (din, din.word (ADDRS k))

/-- The block of the file that holds `fbn`, allocated if necessary. -/
def fileBlock (din : Block) (fbn : ℕ) : Host (Block × ℕ) :=
  if fbn < NDIRECT then addr din fbn
  else do
    let (din, a) ← addr din NDIRECT
    let indirect ← rsect a
    if indirect.word (fbn - NDIRECT) = 0 then do
      let b ← newBlock
      wsect .data a (indirect.setWord (fbn - NDIRECT) b)
      return (din, b)
    else return (din, indirect.word (fbn - NDIRECT))

/-- The loop of `iappend`; each turn takes at least one byte, so `fuel = p.length` is enough. -/
def appendLoop : ℕ → Block → ℕ → List UInt8 → Host (Block × ℕ)
  | 0, din, off, _ => pure (din, off)
  | fuel + 1, din, off, p =>
    if p.length = 0 then pure (din, off)
    else do
      let fbn := off / BSIZE
      assert (fbn < MAXFILE)
      let (din, x) ← fileBlock din fbn
      let n1 := min p.length ((fbn + 1) * BSIZE - off)
      let buf ← rsect x
      wsect .data x (buf.store (off - fbn * BSIZE) (p.take n1))
      appendLoop fuel din (off + n1) (p.drop n1)

def iappend (inum : ℕ) (p : List UInt8) : Host Unit := do
  let din ← rinode inum
  let (din, off) ← appendLoop p.length din (din.word SIZE) p
  winode inum (din.setWord SIZE off)

/-- `buf[i/8] = buf[i/8] | (0x1 << (i%8))`. -/
def setBit (buf : Block) (i : ℕ) : Block := fun k =>
  if k = i / 8 then buf k ||| UInt8.ofNat (1 <<< (i % 8)) else buf k

def balloc (used : ℕ) : Host Unit := do
  assert (used < BSIZE * 8)
  wsect .bitmap bmapstart ((List.range used).foldl setBit (fun _ => 0))

/-- What a successful `read(fd, buf, sizeof(buf))` puts in `buf`. -/
abbrev Chunk : Type := {bytes : List UInt8 // 0 < bytes.length ∧ bytes.length ≤ BSIZE}

/-- An argument of mkfs: `none` when it cannot be opened, else what is read from it. -/
structure HostFile where
  name : List UInt8
  content : Option (List Chunk)

def slash : UInt8 := 47
def underscore : UInt8 := 95
def dot : UInt8 := 46

/-- `if(argv[i][0] == '_') ++argv[i]`. -/
def HostFile.entryName (f : HostFile) : List UInt8 :=
  if f.name.head? = some underscore then f.name.tail else f.name

/-- One turn of the loop over the arguments. -/
def addFile (rootino : ℕ) (f : HostFile) : Host Unit := do
  assert (slash ∉ f.name)
  match f.content with
  | none => throw .failure
  | some chunks => do
    let inum ← ialloc T_FILE
    iappend rootino (FsBlocks.dirent inum f.entryName)
    chunks.forM (fun c => iappend inum c.val)

/-- The superblock in the first bytes of its sector. -/
def superblock : Block :=
  [FSSIZE, nblocks, NINODES, nlog, 2, inodestart, bmapstart].zipIdx.foldl
    (fun buf x => buf.setWord x.2 x.1) (fun _ => 0)

/-- Round the size of the root directory up. -/
def fixRoot (rootino : ℕ) : Host Unit := do
  let din ← rinode rootino
  let off := din.word SIZE
  winode rootino (din.setWord SIZE ((off / BSIZE + 1) * BSIZE))

def zeroDisk : Host Unit := (List.range FSSIZE).forM (fun i => wsect .zeroes i (fun _ => 0))

/-- `main` with the arguments from `argv[2]` on. -/
def main (files : List HostFile) : Host Unit := do
  zeroDisk
  wsect .superblock 1 superblock
  let rootino ← ialloc T_DIR
  assert (rootino = ROOTINO)
  iappend rootino (FsBlocks.dirent rootino [dot])
  iappend rootino (FsBlocks.dirent rootino [dot, dot])
  files.forM (addFile rootino)
  fixRoot rootino
  let s ← get
  balloc s.freeblock

/-- The image file just opened with `O_TRUNC`, and the counters as `main` sets them. -/
def start : St := ⟨fun _ _ => 0, 0, 1, nmeta, []⟩

/-! ## The image as the kernel sees it -/

/-- A `short` from its two bytes. -/
def short (lo hi : UInt8) : ℤ :=
  if lo.toNat + 256 * hi.toNat < 2 ^ 15 then lo.toNat + 256 * hi.toNat
  else (lo.toNat + 256 * hi.toNat : ℤ) - 2 ^ 16

/-- The fields of a `struct dinode`. -/
def toDinode (d : Block) : Dinode where
  type := (d 0).toNat + 256 * (d 1).toNat
  major := short (d 2) (d 3)
  minor := short (d 4) (d 5)
  nlink := short (d 6) (d 7)
  size := d.word SIZE
  addrs k := if k ≤ NDIRECT then d.word (ADDRS k) else 0

def inodeAt (disk : ℕ → Block) (i : ℕ) : Dinode := toDinode (dinodeBytes (disk (IBLOCK i)) i)

/-- The bit that `balloc` and `bfree` of fs.c test. -/
def bitmapBit (disk : ℕ → Block) (b : ℕ) : Bool :=
  (disk (b / BPB + bmapstart) (b % BPB / 8)).toNat.testBit (b % BPB % 8)

/-- The file system mounted from the image, with an empty inode cache. -/
def mount (s : St) : FsBlocks.St where
  bitmap := bitmapBit s.disk
  data := s.disk
  dinode := inodeAt s.disk
  icache _ := ⟨0, false, Dinode.zero⟩

/-- What `main` writes to the superblock. -/
def sb : FsBlocks.Superblock := ⟨FSSIZE, NINODES, bmapstart, by decide⟩

end Ostep.Mkfs

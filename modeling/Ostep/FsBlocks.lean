import Ostep.ByteWords
import Ostep.TransitionSystem
import Mathlib.Logic.Function.Basic
import Mathlib.Data.Nat.Notation
import Mathlib.Data.Int.Notation

/-!
# Inodes and blocks

The block layer of fs.c: the free bitmap, the inodes on disk and in the cache, and the data
blocks, with `balloc`, `bmap`, `itrunc`, `writei` and what is built on them. A program fails
with the panic it reaches. The cache is indexed by inode number; a slot with `ref` 0 is free.
-/

namespace Ostep.FsBlocks
open TransitionSystem ByteWords

abbrev BSIZE : ℕ := 512
abbrev NDIRECT : ℕ := 12
abbrev NINDIRECT : ℕ := 128
abbrev MAXFILE : ℕ := NDIRECT + NINDIRECT
abbrev BPB : ℕ := BSIZE * 8
abbrev DIRSIZ : ℕ := 14
abbrev DIRENT : ℕ := 16

abbrev T_DIR : ℕ := 1
abbrev T_DEV : ℕ := 3
abbrev CONSOLE : ℕ := 1

structure Superblock where
  size : ℕ
  ninodes : ℕ
  bmapstart : ℕ
  size_lt : size < 2 ^ 32

/-- The blocks before the data blocks: mkfs puts `size / BPB + 1` bitmap blocks last. -/
def Superblock.nmeta (sb : Superblock) : ℕ := sb.bmapstart + sb.size / BPB + 1

/-- The bytes of a block. -/
abbrev Block : Type := Bytes

structure Dinode where
  type : ℕ
  major : ℤ
  minor : ℤ
  nlink : ℤ
  size : ℕ
  addrs : ℕ → ℕ

def Dinode.zero : Dinode := ⟨0, 0, 0, 0, 0, fun _ => 0⟩

/-- A cache entry; `ip` holds the fields copied from disk. -/
structure Inode where
  ref : ℕ
  valid : Bool
  ip : Dinode

structure St where
  bitmap : ℕ → Bool
  data : ℕ → Block
  dinode : ℕ → Dinode
  icache : ℕ → Inode

inductive Panic where
  | outOfBlocks
  | freeingFree
  | noInodes
  | ilock
  | noType
  | bmapRange
  | dirlookupNotDir
  | dirlookupRead
  | dirlinkRead
  | dirlink
  deriving DecidableEq, Repr

def Panic.message : Panic → String
  | .outOfBlocks => "balloc: out of blocks"
  | .freeingFree => "freeing free block"
  | .noInodes => "ialloc: no inodes"
  | .ilock => "ilock"
  | .noType => "ilock: no type"
  | .bmapRange => "bmap: out of range"
  | .dirlookupNotDir => "dirlookup not DIR"
  | .dirlookupRead => "dirlookup read"
  | .dirlinkRead => "dirlink read"
  | .dirlink => "dirlink"

abbrev Fs : Type → Type := StateT St (Except Panic)

variable (sb : Superblock)

def bzero (b : ℕ) : Fs Unit :=
  modify (fun s => { s with data := Function.update s.data b (fun _ => 0) })

def balloc : Fs ℕ := do
  let s ← get
  match (List.range sb.size).find? (fun b => !s.bitmap b) with
  | some b => do
    modify (fun s => { s with bitmap := Function.update s.bitmap b true })
    bzero b
    return b
  | none => throw .outOfBlocks

def bfree (b : ℕ) : Fs Unit := do
  let s ← get
  if s.bitmap b = false then throw .freeingFree
  else modify (fun s => { s with bitmap := Function.update s.bitmap b false })

def St.setIp (s : St) (i : ℕ) (f : Dinode → Dinode) : St :=
  { s with
    icache := Function.update s.icache i { s.icache i with ip := f (s.icache i).ip } }

def setIp (i : ℕ) (f : Dinode → Dinode) : Fs Unit := modify (fun s => s.setIp i f)

/-- `ip->addrs[k] = addr`. -/
def Dinode.setAddr (k addr : ℕ) (d : Dinode) : Dinode :=
  { d with addrs := Function.update d.addrs k addr }

def St.iupdate (s : St) (i : ℕ) : St :=
  { s with dinode := Function.update s.dinode i (s.icache i).ip }

def iupdate (i : ℕ) : Fs Unit := modify (fun s => s.iupdate i)

def iget (i : ℕ) : Fs Unit :=
  modify (fun s => { s with
    icache := Function.update s.icache i (if 0 < (s.icache i).ref
      then { s.icache i with ref := (s.icache i).ref + 1 }
      else { s.icache i with ref := 1, valid := false }) })

def ialloc (type : ℕ) : Fs ℕ := do
  let s ← get
  match (List.range' 1 (sb.ninodes - 1)).find? (fun inum => (s.dinode inum).type = 0) with
  | some inum => do
    modify (fun s => { s with
      dinode := Function.update s.dinode inum { Dinode.zero with type := type } })
    iget inum
    return inum
  | none => throw .noInodes

/-- `ilock`, followed by `iunlock`: afterwards the entry is valid. -/
def ilock (i : ℕ) : Fs Unit := do
  let s ← get
  if (s.icache i).ref < 1 then throw .ilock
  else if (s.icache i).valid then pure ()
  else if (s.dinode i).type = 0 then throw .noType
  else modify (fun s => { s with
    icache := Function.update s.icache i { s.icache i with valid := true, ip := s.dinode i } })

/-- `ip->addrs[k]`, allocated if necessary. -/
def addrOrAlloc (i k : ℕ) : Fs ℕ := do
  let s ← get
  if (s.icache i).ip.addrs k = 0 then do
    let addr ← balloc sb
    setIp i (Dinode.setAddr k addr)
    return addr
  else return (s.icache i).ip.addrs k

/-- `a[j]` of the indirect block `addr`, allocated if necessary. -/
def entryOrAlloc (addr j : ℕ) : Fs ℕ := do
  let s ← get
  if (s.data addr).word j = 0 then do
    let b ← balloc sb
    modify (fun s => { s with
      data := Function.update s.data addr ((s.data addr).setWord j b) })
    return b
  else return (s.data addr).word j

def bmap (i bn : ℕ) : Fs ℕ :=
  if bn < NDIRECT then addrOrAlloc sb i bn
  else if bn - NDIRECT < NINDIRECT then do
    let addr ← addrOrAlloc sb i NDIRECT
    entryOrAlloc sb addr (bn - NDIRECT)
  else throw .bmapRange

/-- One turn of `itrunc`'s first loop. -/
def freeDirect (i k : ℕ) : Fs Unit := do
  let s ← get
  if (s.icache i).ip.addrs k = 0 then pure ()
  else do
    bfree ((s.icache i).ip.addrs k)
    setIp i (Dinode.setAddr k 0)

/-- One turn of the loop over the indirect block `addr`. -/
def freeEntry (addr j : ℕ) : Fs Unit := do
  let s ← get
  if (s.data addr).word j = 0 then pure () else bfree ((s.data addr).word j)

def freeIndirect (i : ℕ) : Fs Unit := do
  let s ← get
  let addr := (s.icache i).ip.addrs NDIRECT
  if addr = 0 then pure ()
  else do
    (List.range NINDIRECT).forM (freeEntry addr)
    bfree addr
    setIp i (Dinode.setAddr NDIRECT 0)

def itrunc (i : ℕ) : Fs Unit := do
  (List.range NDIRECT).forM (freeDirect i)
  freeIndirect i
  setIp i (fun d => { d with size := 0 })
  iupdate i

/-- No links and no other references: truncate and free. -/
def iputLast (i : ℕ) : Fs Unit := do
  let s ← get
  if (s.icache i).valid ∧ (s.icache i).ip.nlink = 0 ∧ (s.icache i).ref = 1 then do
    itrunc i
    setIp i (fun d => { d with type := 0 })
    iupdate i
    modify (fun s => { s with
      icache := Function.update s.icache i { s.icache i with valid := false } })
  else pure ()

def iput (i : ℕ) : Fs Unit := do
  iputLast i
  modify (fun s => { s with
    icache := Function.update s.icache i { s.icache i with ref := (s.icache i).ref - 1 } })

/-- The loop of `readi`; each turn reads at least one of the `n` bytes, so `fuel = n` is enough. -/
def readLoop (i : ℕ) : ℕ → ℕ → ℕ → Fs (List UInt8)
  | 0, _, _ => pure []
  | fuel + 1, off, n =>
    if n = 0 then pure []
    else do
      let addr ← bmap sb i (off / BSIZE)
      let s ← get
      let m := min n (BSIZE - off % BSIZE)
      let rest ← readLoop i fuel (off + m) (n - m)
      return (s.data addr).load (off % BSIZE) m ++ rest

/-- `none` is -1. Reading a device is left to its driver, which does not touch the disk. -/
def readi (i off n : ℕ) : Fs (Option (List UInt8)) := do
  let s ← get
  let ip := (s.icache i).ip
  if ip.type = T_DEV then return none
  else if off > ip.size ∨ (off + n) % 2 ^ 32 < off then return none
  else do
    let n := if off + n > ip.size then ip.size - off else n
    let bytes ← readLoop sb i n off n
    return some bytes

/-- The loop of `writei`; as in `readLoop`, `fuel = src.length` is enough. -/
def writeLoop (i : ℕ) : ℕ → ℕ → List UInt8 → Fs Unit
  | 0, _, _ => pure ()
  | fuel + 1, off, src =>
    if src.length = 0 then pure ()
    else do
      let addr ← bmap sb i (off / BSIZE)
      let m := min src.length (BSIZE - off % BSIZE)
      modify (fun s => { s with
        data := Function.update s.data addr ((s.data addr).store (off % BSIZE) (src.take m)) })
      writeLoop i fuel (off + m) (src.drop m)

/-- The only driver is the console's; it takes all the bytes. -/
def writei (i : ℕ) (src : List UInt8) (off : ℕ) : Fs (Option ℕ) := do
  let s ← get
  let ip := (s.icache i).ip
  let n := src.length
  if ip.type = T_DEV then return if ip.major = CONSOLE then some n else none
  else if off > ip.size ∨ (off + n) % 2 ^ 32 < off then return none
  else if (off + n) % 2 ^ 32 > MAXFILE * BSIZE then return none
  else do
    writeLoop sb i n off src
    grow ip.size
    return some n
where
  grow (size : ℕ) : Fs Unit :=
    if 0 < src.length ∧ off + src.length > size then do
      setIp i (fun d => { d with size := off + src.length })
      iupdate i
    else pure ()

/-! ## Directories -/

def direntInum (de : List UInt8) : ℕ := (de.getD 0 0).toNat + 256 * (de.getD 1 0).toNat

/-- What `namecmp` compares of a name: up to `DIRSIZ` bytes, or to the first NUL. -/
def dirName (name : List UInt8) : List UInt8 := (name.take DIRSIZ).takeWhile (· ≠ 0)

/-- A directory entry; `strncpy` pads the name with zeros. -/
def dirent (inum : ℕ) (name : List UInt8) : List UInt8 :=
  UInt8.ofNat inum :: UInt8.ofNat (inum / 256) ::
    (dirName name ++ List.replicate (DIRSIZ - (dirName name).length) 0)

/-- `readi` of one entry, or the panic of the caller. -/
def readDirent (i off : ℕ) (p : Panic) : Fs (List UInt8) := do
  match ← readi sb i off DIRENT with
  | some de => if de.length = DIRENT then return de else throw p
  | none => throw p

/-- The offsets `0, sizeof(de), ...` below `size`. -/
def direntOffs (size : ℕ) : List ℕ := (List.range ((size + DIRENT - 1) / DIRENT)).map (DIRENT * ·)

def findName (i : ℕ) (name : List UInt8) : List ℕ → Fs (Option (ℕ × ℕ))
  | [] => pure none
  | off :: offs => do
    let de ← readDirent sb i off .dirlookupRead
    if direntInum de ≠ 0 ∧ dirName name = dirName (de.drop 2) then return some (direntInum de, off)
    else findName i name offs

/-- The inode found, with a reference to it, and the offset of its entry. -/
def dirlookup (i : ℕ) (name : List UInt8) : Fs (Option (ℕ × ℕ)) := do
  let s ← get
  if (s.icache i).ip.type ≠ T_DIR then throw .dirlookupNotDir
  else do
    match ← findName sb i name (direntOffs (s.icache i).ip.size) with
    | some (inum, off) => do
      iget inum
      return some (inum, off)
    | none => return none

/-- The offset of an empty entry, or the one after the last. -/
def findEmpty (i last : ℕ) : List ℕ → Fs ℕ
  | [] => pure last
  | off :: offs => do
    let de ← readDirent sb i off .dirlinkRead
    if direntInum de = 0 then return off else findEmpty i last offs

/-- `false` is -1. -/
def dirlink (i : ℕ) (name : List UInt8) (inum : ℕ) : Fs Bool := do
  match ← dirlookup sb i name with
  | some (found, _) => do
    iput found
    return false
  | none => do
    let s ← get
    let offs := direntOffs (s.icache i).ip.size
    let off ← findEmpty sb i (DIRENT * offs.length) offs
    match ← writei sb i (dirent inum name) off with
    | some n => if n = DIRENT then return true else throw .dirlink
    | none => throw .dirlink

/-! ## Steps -/

inductive Event where
  | iget (i : ℕ)
  | ilock (i : ℕ)
  /-- A change of the link count or device number, under the lock and followed by `iupdate`. -/
  | setMeta (i : ℕ) (major minor nlink : ℤ)
  | writei (i : ℕ) (src : List UInt8) (off : ℕ)
  | ialloc (type : ℕ)
  | dirlink (i : ℕ) (name : List UInt8) (inum : ℕ)
  | iput (i : ℕ)

/-- What callers see to: a reference to lock or drop an inode, the lock to use it. -/
def Event.Ready (s : St) : Event → Prop
  | .iget _ | .ialloc _ => True
  | .ilock i => i < sb.ninodes
  | .iput i => 0 < (s.icache i).ref
  | .setMeta i .. | .writei i .. | .dirlink i .. => 0 < (s.icache i).ref ∧ (s.icache i).valid

instance (s : St) (e : Event) : Decidable (e.Ready sb s) := by
  cases e <;> unfold Event.Ready <;> infer_instance

def Event.run : Event → Fs Unit
  | .iget i => FsBlocks.iget i
  | .ilock i => FsBlocks.ilock i
  | .setMeta i major minor nlink => do
    setIp i (fun d => { d with major := major, minor := minor, nlink := nlink })
    iupdate i
  | .writei i src off => do let _ ← FsBlocks.writei sb i src off
  | .ialloc type => do let _ ← FsBlocks.ialloc sb type
  | .dirlink i name inum => do let _ ← FsBlocks.dirlink sb i name inum
  | .iput i => FsBlocks.iput i

/-- A panic ends the run. -/
def next (s : St) (e : Event) : Option St :=
  if e.Ready sb s then
    match e.run sb s with
    | .ok (_, t) => some t
    | .error _ => none
  else none

end Ostep.FsBlocks

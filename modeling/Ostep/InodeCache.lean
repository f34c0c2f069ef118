import Ostep.FsBlocks
import Mathlib.Data.List.FinRange

/-!
# The slots of the inode cache

`iget` looks for an inode in the slots of the cache and recycles a free one; `ilock`, `iput` and
the path functions work on a slot. The functions of the block layer see the slot they are called
on under its inode number. The only file system is the one on `ROOTDEV`.
-/

namespace Ostep.InodeCache
open FsBlocks (Dinode Block Superblock T_DIR DIRSIZ DIRENT dirName direntOffs direntInum dirent)

abbrev NINODE : ℕ := 50
abbrev ROOTDEV : ℕ := 1
abbrev ROOTINO : ℕ := 1

abbrev Slot := Fin NINODE
abbrev Bytes := List UInt8

/-- `struct inode`; the inherited `ip` holds the fields copied from disk. -/
structure Entry extends FsBlocks.Inode where
  dev : ℕ
  inum : ℕ
  lock : Bool

structure St where
  bitmap : ℕ → Bool
  data : ℕ → Block
  dinode : ℕ → Dinode
  icache : Slot → Entry

inductive Fault where
  | fs (p : FsBlocks.Panic)
  | noSlots
  | iunlock
  | createDots
  | createDirlink
  | unlinkNlink
  | unlinkWritei
  | isdirempty
  | filedup
  | fileclose
  | fileread
  | filewrite
  | shortWrite
  | initExiting
  | nullPointer
  /-- The process sleeps, with nobody to wake it before the call is over. -/
  | blocked
  deriving DecidableEq, Repr

def Fault.message : Fault → Option String
  | .fs p => some p.message
  | .noSlots => some "iget: no inodes"
  | .iunlock => some "iunlock"
  | .createDots => some "create dots"
  | .createDirlink => some "create: dirlink"
  | .unlinkNlink => some "unlink: nlink < 1"
  | .unlinkWritei => some "unlink: writei"
  | .isdirempty => some "isdirempty: readi"
  | .filedup => some "filedup"
  | .fileclose => some "fileclose"
  | .fileread => some "fileread"
  | .filewrite => some "filewrite"
  | .shortWrite => some "short filewrite"
  | .initExiting => some "init exiting"
  | .nullPointer => none
  | .blocked => none

abbrev Ic : Type → Type := StateT St (Except Fault)

def St.setEntry (s : St) (k : Slot) (f : Entry → Entry) : St :=
  { s with icache := Function.update s.icache k (f (s.icache k)) }

def setEntry (k : Slot) (f : Entry → Entry) : Ic Unit := modify (fun s => s.setEntry k f)

/-- The copy in use of inode `i`. -/
def St.cached (s : St) (i : ℕ) : FsBlocks.Inode :=
  match (List.finRange NINODE).find? (fun k => 0 < (s.icache k).ref ∧ (s.icache k).inum = i) with
  | some k => (s.icache k).toInode
  | none => ⟨0, false, Dinode.zero⟩

/-- The state as the block layer sees it from slot `k`. -/
def St.view (s : St) (k : Slot) : FsBlocks.St where
  bitmap := s.bitmap
  data := s.data
  dinode := s.dinode
  icache i := if i = (s.icache k).inum then (s.icache k).toInode else s.cached i

def St.restore (s : St) (k : Slot) (t : FsBlocks.St) : St where
  bitmap := t.bitmap
  data := t.data
  dinode := t.dinode
  icache := Function.update s.icache k
    { s.icache k with toInode := t.icache (s.icache k).inum }

/-- A function of the block layer, called on the inode in slot `k`. -/
def onInode {α : Type} (k : Slot) (m : ℕ → FsBlocks.Fs α) : Ic α := fun s =>
  match m (s.icache k).inum (s.view k) with
  | .ok (a, t) => .ok (a, s.restore k t)
  | .error p => .error (.fs p)

variable (sb : Superblock)

/-! ## References and locks -/

def iget (dev inum : ℕ) : Ic Slot := do
  let s ← get
  match (List.finRange NINODE).find? (fun k => 0 < (s.icache k).ref ∧ (s.icache k).dev = dev ∧
      (s.icache k).inum = inum) with
  | some k => do
    setEntry k (fun e => { e with ref := e.ref + 1 })
    return k
  | none =>
    match (List.finRange NINODE).find? (fun k => (s.icache k).ref = 0) with
    | some k => do
      setEntry k (fun e => { e with dev := dev, inum := inum, ref := 1, valid := false })
      return k
    | none => throw .noSlots

def idup (k : Slot) : Ic Unit := setEntry k (fun e => { e with ref := e.ref + 1 })

def acquiresleep (k : Slot) : Ic Unit := do
  let s ← get
  if (s.icache k).lock then throw .blocked else setEntry k (fun e => { e with lock := true })

def releasesleep (k : Slot) : Ic Unit := setEntry k (fun e => { e with lock := false })

def ilock (k : Slot) : Ic Unit := do
  let s ← get
  if (s.icache k).ref < 1 then throw (.fs .ilock)
  else do
    acquiresleep k
    onInode k FsBlocks.ilock

def iunlock (k : Slot) : Ic Unit := do
  let s ← get
  if ¬ (s.icache k).lock ∨ (s.icache k).ref < 1 then throw .iunlock else releasesleep k

def iput (k : Slot) : Ic Unit := do
  acquiresleep k
  onInode k FsBlocks.iputLast
  releasesleep k
  setEntry k (fun e => { e with ref := e.ref - 1 })

def iunlockput (k : Slot) : Ic Unit := do
  iunlock k
  iput k

def ialloc (dev type : ℕ) : Ic Slot := do
  let s ← get
  match (List.range' 1 (sb.ninodes - 1)).find? (fun inum => (s.dinode inum).type = 0) with
  | some inum => do
    modify (fun s => { s with
      dinode := Function.update s.dinode inum { Dinode.zero with type := type } })
    iget dev inum
  | none => throw (.fs .noInodes)

/-- A field of a locked inode is set and the inode is written back. -/
def setMeta (k : Slot) (f : Dinode → Dinode) : Ic Unit :=
  onInode k (fun i => do
    FsBlocks.setIp i f
    FsBlocks.iupdate i)

/-- A value of type `short`. -/
def short (n : ℤ) : ℤ := n.bmod (2 ^ 16)

def incLink (k : Slot) : Ic Unit := setMeta k (fun d => { d with nlink := short (d.nlink + 1) })

def decLink (k : Slot) : Ic Unit := setMeta k (fun d => { d with nlink := short (d.nlink - 1) })

/-! ## Directories -/

def readi (k : Slot) (off n : ℕ) : Ic (Option Bytes) :=
  onInode k (fun i => FsBlocks.readi sb i off n)

def writei (k : Slot) (src : Bytes) (off : ℕ) : Ic (Option ℕ) :=
  onInode k (fun i => FsBlocks.writei sb i src off)

/-- The inode found, with a reference to it, and the offset of its entry. -/
def dirlookup (k : Slot) (name : Bytes) : Ic (Option (Slot × ℕ)) := do
  let s ← get
  if (s.icache k).ip.type ≠ T_DIR then throw (.fs .dirlookupNotDir)
  else do
    match ← onInode k (fun i =>
        FsBlocks.findName sb i name (direntOffs (s.icache k).ip.size)) with
    | some (inum, off) => do
      let next ← iget (s.icache k).dev inum
      return some (next, off)
    | none => return none

/-- The end of `dirlink`, the name not being there. -/
def dirlinkNew (k : Slot) (name : Bytes) (inum : ℕ) : Ic Bool := do
  let s ← get
  let offs := direntOffs (s.icache k).ip.size
  let off ← onInode k (fun i => FsBlocks.findEmpty sb i (DIRENT * offs.length) offs)
  match ← writei sb k (dirent inum name) off with
  | some n => if n = DIRENT then return true else throw (.fs .dirlink)
  | none => throw (.fs .dirlink)

/-- `false` is -1. -/
def dirlink (k : Slot) (name : Bytes) (inum : ℕ) : Ic Bool := do
  match ← dirlookup sb k name with
  | some (found, _) => do
    iput found
    return false
  | none => dirlinkNew sb k name inum

/-- The loop of `isdirempty`, over the offsets from the third entry on. -/
def allFree (k : Slot) : List ℕ → Ic Bool
  | [] => pure true
  | off :: offs => do
    match ← readi sb k off DIRENT with
    | some de =>
      if de.length ≠ DIRENT then throw .isdirempty
      else if direntInum de ≠ 0 then return false
      else allFree k offs
    | none => throw .isdirempty

def isdirempty (k : Slot) : Ic Bool := do
  let s ← get
  allFree sb k ((direntOffs (s.icache k).ip.size).drop 2)

/-! ## Paths -/

abbrev slash : UInt8 := 47

abbrev dot : Bytes := [46]
abbrev dotdot : Bytes := [46, 46]

def skipelem (path : Bytes) : Option (Bytes × Bytes) :=
  match path.dropWhile (· = slash) with
  | [] => none
  | c :: cs => some (((c :: cs).takeWhile (· ≠ slash)).take DIRSIZ,
      ((c :: cs).dropWhile (· ≠ slash)).dropWhile (· = slash))

/-- The end of `namex`, no element being left. -/
def namexEnd (parent : Bool) (ip : Slot) (name : Bytes) : Ic (Option (Slot × Bytes)) :=
  if parent then do
    iput ip
    return none
  else return some (ip, name)

/-- The loop of `namex`; an element shortens the path, so the path's length bounds the turns. -/
def namexLoop (parent : Bool) : ℕ → Bytes → Slot → Bytes → Ic (Option (Slot × Bytes))
  | 0, _, ip, name => namexEnd parent ip name
  | fuel + 1, path, ip, name =>
    match skipelem path with
    | none => namexEnd parent ip name
    | some (elem, rest) => do
      ilock ip
      let s ← get
      if (s.icache ip).ip.type ≠ T_DIR then do
        iunlockput ip
        return none
      else if parent ∧ rest = [] then do
        iunlock ip
        return some (ip, elem)
      else do
        match ← dirlookup sb ip elem with
        | none => do
          iunlockput ip
          return none
        | some (next, _) => do
          iunlockput ip
          namexLoop parent fuel rest next elem

def namexStart (cwd : Slot) (path : Bytes) : Ic Slot :=
  if path.head? = some slash then iget ROOTDEV ROOTINO
  else do
    idup cwd
    return cwd

def namex (cwd : Slot) (path : Bytes) (parent : Bool) : Ic (Option (Slot × Bytes)) := do
  let ip ← namexStart cwd path
  namexLoop sb parent path.length path ip []

def namei (cwd : Slot) (path : Bytes) : Ic (Option Slot) := do
  let r ← namex sb cwd path false
  return r.map Prod.fst

def nameiparent (cwd : Slot) (path : Bytes) : Ic (Option (Slot × Bytes)) := namex sb cwd path true

end Ostep.InodeCache

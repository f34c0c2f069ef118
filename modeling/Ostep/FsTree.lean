import Ostep.OpTree
import Mathlib.Data.List.FinRange

/-!
# Directories, links and inode locks

The inode layer of fs.c and the path calls of sysfile.c, as programs over the operations that
touch state shared between processes: one operation is one critical section on `icache.lock`,
`ftable.lock` or a sleep lock's spin lock, or an access to an inode whose sleep lock is held.
A directory is its list of entries, the blocks under it being left out; the cache is indexed by
inode number, so that a free slot is one with `ref` 0. The cache writes through, so the copy of
an inode in memory and the one on disk are one record.
-/

namespace Ostep.FsTree
open OpTree

abbrev ROOTINO : ℕ := 1
abbrev DIRSIZ : ℕ := 14
abbrev NPROC : ℕ := 64
abbrev NOFILE : ℕ := 16
abbrev NFILE : ℕ := 100
/-- The entries that fit in `MAXFILE * BSIZE` bytes. -/
abbrev NDIRENT : ℕ := 4480

abbrev T_DIR : ℕ := 1
abbrev T_FILE : ℕ := 2
abbrev T_DEV : ℕ := 3

abbrev O_RDONLY : ℕ := 0
abbrev O_CREATE : ℕ := 0x200

abbrev Proc := Fin NPROC
abbrev FileSlot := Fin NFILE
abbrev Short := BitVec 16

/-- A path element, cut to `DIRSIZ` bytes. -/
abbrev Name := List Char

abbrev dot : Name := ['.']
abbrev dotdot : Name := ['.', '.']

structure Dirent where
  inum : ℕ
  name : Name
  deriving DecidableEq

structure Inode where
  type : ℕ
  major : Short
  minor : Short
  nlink : Short
  ents : List Dirent
  deriving DecidableEq

def Inode.zero : Inode := ⟨0, 0, 0, 0, []⟩

/-- A cache slot, without the copy of the inode. -/
structure Slot where
  ref : ℕ
  valid : Bool

/-- An open file; `ip` is none until it is an `FD_INODE`. -/
structure File where
  ref : ℕ
  ip : Option ℕ

structure St where
  inode : ℕ → Inode
  icache : ℕ → Slot
  lock : ℕ → Option Proc
  file : FileSlot → File
  cwd : Proc → Option ℕ
  ofile : Proc → Fin NOFILE → Option FileSlot

inductive Panic where
  | ilock
  | noType
  | iunlock
  | noInodes
  | dirlookupNotDir
  | dirlink
  | createDots
  | createDirlink
  | unlinkNlink
  | unlinkWritei
  | fileclose
  deriving DecidableEq, Repr

def Panic.message : Panic → String
  | .ilock => "ilock"
  | .noType => "ilock: no type"
  | .iunlock => "iunlock"
  | .noInodes => "ialloc: no inodes"
  | .dirlookupNotDir => "dirlookup not DIR"
  | .dirlink => "dirlink"
  | .createDots => "create dots"
  | .createDirlink => "create: dirlink"
  | .unlinkNlink => "unlink: nlink < 1"
  | .unlinkWritei => "unlink: writei"
  | .fileclose => "fileclose"

/-- Why an operation does not go through: a panic, or it has to wait. -/
inductive Fault where
  | panic (p : Panic)
  | blocked
  deriving DecidableEq, Repr

inductive Op where
  | panic (p : Panic)
  | checkRef (i : ℕ)
  | checkHeld (i : ℕ)
  | acquiresleep (i : ℕ)
  | releasesleep (i : ℕ)
  | load (i : ℕ)
  | inode (i : ℕ)
  | unlinked (i : ℕ)
  | ref (i : ℕ)
  | ifree (i : ℕ)
  | iget (i : ℕ)
  | idup (i : ℕ)
  | drop (i : ℕ)
  | ialloc (type : ℕ)
  | setMeta (i : ℕ) (major minor : Short)
  | incLink (i : ℕ)
  | decLink (i : ℕ)
  | writei (dp slot : ℕ) (e : Dirent)
  | found (name : Name)
  | cwd
  | setCwd (i : Option ℕ)
  | filealloc
  | fdalloc (f : FileSlot)
  | setFile (f : FileSlot) (i : ℕ)
  | ofile (fd : ℕ)
  | clearFd (fd : ℕ)
  | fileclose (f : FileSlot)
  | fork (np : Proc)
  deriving DecidableEq

abbrev Op.Res : Op → Type
  | .panic _ => Empty
  | .inode _ => Inode
  | .unlinked _ => Bool
  | .ref _ => ℕ
  | .ialloc _ => ℕ
  | .writei _ _ _ => Bool
  | .cwd => ℕ
  | .filealloc => Option FileSlot
  | .fdalloc _ => Option (Fin NOFILE)
  | .ofile _ => Option FileSlot
  | .fileclose _ => Option ℕ
  | _ => Unit

namespace St

def setInode (s : St) (i : ℕ) (f : Inode → Inode) : St :=
  { s with inode := Function.update s.inode i (f (s.inode i)) }

def setSlot (s : St) (i : ℕ) (f : Slot → Slot) : St :=
  { s with icache := Function.update s.icache i (f (s.icache i)) }

def setLock (s : St) (i : ℕ) (h : Option Proc) : St :=
  { s with lock := Function.update s.lock i h }

def setFile (s : St) (f : FileSlot) (g : File → File) : St :=
  { s with file := Function.update s.file f (g (s.file f)) }

def setCwd (s : St) (q : Proc) (i : Option ℕ) : St :=
  { s with cwd := Function.update s.cwd q i }

def setFd (s : St) (q : Proc) (fd : Fin NOFILE) (f : Option FileSlot) : St :=
  { s with ofile := Function.update s.ofile q (Function.update (s.ofile q) fd f) }

/-- `filedup` for every open file of `q`, `idup` for its directory. -/
def fork (s : St) (q np : Proc) (i : ℕ) : St :=
  { (s.setSlot i (fun c => { c with ref := c.ref + 1 })).setCwd np (some i) with
    ofile := Function.update s.ofile np (s.ofile q)
    file := fun f => { s.file f with
      ref := (s.file f).ref + (List.finRange NOFILE).countP (fun fd => s.ofile q fd = some f) } }

end St

theorem St.inode_setInode (s : St) (i : ℕ) (f : Inode → Inode) :
    (s.setInode i f).inode i = f (s.inode i) :=
  Function.update_self ..

theorem St.inode_setInode_ne (s : St) {i j : ℕ} (h : j ≠ i) (f : Inode → Inode) :
    (s.setInode i f).inode j = s.inode j :=
  Function.update_of_ne h ..

/-- `ip->ref++`, or the first reference to a slot that is recycled. -/
def Slot.get (c : Slot) : Slot :=
  if 0 < c.ref then { c with ref := c.ref + 1 } else ⟨1, false⟩

/-- `writei` of one entry, the size growing by one when the entry is the next one. -/
def Inode.store (d : Inode) (slot : ℕ) (e : Dirent) : Inode :=
  { d with ents := if slot < d.ents.length then d.ents.set slot e else d.ents ++ [e] }

variable (ninodes : ℕ)

/-- What process `q` does with one operation. -/
def act (q : Proc) : (o : Op) → St → Except Fault (o.Res × St)
  | .panic p, _ => .error (.panic p)
  | .checkRef i, s => if (s.icache i).ref < 1 then .error (.panic .ilock) else .ok ((), s)
  | .checkHeld i, s =>
    if s.lock i = some q ∧ 1 ≤ (s.icache i).ref then .ok ((), s) else .error (.panic .iunlock)
  | .acquiresleep i, s =>
    if s.lock i = none then .ok ((), s.setLock i (some q)) else .error .blocked
  | .releasesleep i, s => .ok ((), s.setLock i none)
  | .load i, s =>
    if (s.icache i).valid then .ok ((), s)
    else if (s.inode i).type = 0 then .error (.panic .noType)
    else .ok ((), s.setSlot i (fun c => { c with valid := true }))
  | .inode i, s => .ok (s.inode i, s)
  | .unlinked i, s => .ok ((s.icache i).valid && (s.inode i).nlink == 0, s)
  | .ref i, s => .ok ((s.icache i).ref, s)
  | .ifree i, s =>
    .ok ((), (s.setInode i (fun d => { d with type := 0, ents := [] })).setSlot i
      (fun c => { c with valid := false }))
  | .iget i, s => .ok ((), s.setSlot i Slot.get)
  | .idup i, s => .ok ((), s.setSlot i (fun c => { c with ref := c.ref + 1 }))
  | .drop i, s => .ok ((), s.setSlot i (fun c => { c with ref := c.ref - 1 }))
  | .ialloc type, s =>
    match (List.range' 1 (ninodes - 1)).find? (fun i => (s.inode i).type = 0) with
    | some i => .ok (i, s.setInode i (fun _ => { Inode.zero with type := type }))
    | none => .error (.panic .noInodes)
  | .setMeta i major minor, s =>
    .ok ((), s.setInode i (fun d => { d with major := major, minor := minor, nlink := 1 }))
  | .incLink i, s => .ok ((), s.setInode i (fun d => { d with nlink := d.nlink + 1 }))
  | .decLink i, s => .ok ((), s.setInode i (fun d => { d with nlink := d.nlink - 1 }))
  | .writei dp slot e, s =>
    if slot < NDIRENT then .ok (true, s.setInode dp (fun d => d.store slot e)) else .ok (false, s)
  | .found _, s => .ok ((), s)
  | .cwd, s =>
    match s.cwd q with
    | some i => .ok (i, s)
    | none => .error .blocked
  | .setCwd i, s => .ok ((), s.setCwd q i)
  | .filealloc, s =>
    match (List.finRange NFILE).find? (fun f => (s.file f).ref = 0) with
    | some f => .ok (some f, s.setFile f (fun g => { g with ref := 1 }))
    | none => .ok (none, s)
  | .fdalloc f, s =>
    match (List.finRange NOFILE).find? (fun fd => s.ofile q fd = none) with
    | some fd => .ok (some fd, s.setFd q fd (some f))
    | none => .ok (none, s)
  | .setFile f i, s => .ok ((), s.setFile f (fun g => { g with ip := some i }))
  | .ofile fd, s => .ok (if h : fd < NOFILE then s.ofile q ⟨fd, h⟩ else none, s)
  | .clearFd fd, s => .ok ((), if h : fd < NOFILE then s.setFd q ⟨fd, h⟩ none else s)
  | .fileclose f, s =>
    if (s.file f).ref < 1 then .error (.panic .fileclose)
    else if 1 < (s.file f).ref then .ok (none, s.setFile f (fun g => { g with ref := g.ref - 1 }))
    else .ok ((s.file f).ip, s.setFile f (fun _ => ⟨0, none⟩))
  | .fork np, s =>
    match s.cwd q with
    | some i => if s.cwd np = none then .ok ((), s.fork q np i) else .error .blocked
    | none => .error .blocked

abbrev Fs : Type → Type := Prog Op Op.Res

abbrev perform (o : Op) : Fs o.Res := Prog.call o

def panic {α : Type} (p : Panic) : Fs α := .op (.panic p) (fun e => nomatch e)

def ilock (i : ℕ) : Fs Unit := do
  perform (.checkRef i)
  perform (.acquiresleep i)
  perform (.load i)

def iunlock (i : ℕ) : Fs Unit := do
  perform (.checkHeld i)
  perform (.releasesleep i)

/-- The test for the last reference, the sleep lock held. -/
def ifreeLast (i : ℕ) : Fs Unit := do
  let r ← perform (.ref i)
  if r = 1 then perform (.ifree i) else pure ()

def ifreeUnlinked (i : ℕ) : Fs Unit := do
  let u ← perform (.unlinked i)
  if u then ifreeLast i else pure ()

def iput (i : ℕ) : Fs Unit := do
  perform (.acquiresleep i)
  ifreeUnlinked i
  perform (.releasesleep i)
  perform (.drop i)

def iunlockput (i : ℕ) : Fs Unit := do
  iunlock i
  iput i

def ialloc (type : ℕ) : Fs ℕ := do
  let i ← perform (.ialloc type)
  perform (.iget i)
  pure i

/-- The slot of the entry that `dirlookup` stops at. -/
def Inode.findEnt (d : Inode) (name : Name) : Option ℕ :=
  d.ents.findIdx? (fun e => e.inum ≠ 0 ∧ e.name = name)

/-- The slot that `dirlink` writes. -/
def Inode.freeSlot (d : Inode) : ℕ := d.ents.findIdx (fun e => e.inum = 0)

def Inode.entInum (d : Inode) (slot : ℕ) : ℕ := (d.ents.getD slot ⟨0, []⟩).inum

/-- The inode named `name`, referenced, and the slot of its entry. -/
def dirlookup (dp : ℕ) (name : Name) : Fs (Option (ℕ × ℕ)) := do
  let d ← perform (.inode dp)
  if d.type ≠ T_DIR then panic .dirlookupNotDir
  else match d.findEnt name with
    | none => pure none
    | some slot => do
      perform (.iget (d.entInum slot))
      pure (some (d.entInum slot, slot))

def dirlinkWrite (dp : ℕ) (name : Name) (inum : ℕ) : Fs Bool := do
  let d ← perform (.inode dp)
  let ok ← perform (.writei dp d.freeSlot ⟨inum, name⟩)
  if ok then pure true else panic .dirlink

def dirlink (dp : ℕ) (name : Name) (inum : ℕ) : Fs Bool := do
  match ← dirlookup dp name with
  | some (ip, _) => do
    perform (.found name)
    iput ip
    pure false
  | none => dirlinkWrite dp name inum

def skipelem (path : List Char) : Option (Name × List Char) :=
  match path.dropWhile (· = '/') with
  | [] => none
  | c :: cs => some (((c :: cs).takeWhile (· ≠ '/')).take DIRSIZ,
      ((c :: cs).dropWhile (· ≠ '/')).dropWhile (· = '/'))

/-- The end of `namex`, no element being left. -/
def namexEnd (parent : Bool) (ip : ℕ) (name : Name) : Fs (Option (ℕ × Name)) :=
  if parent then do
    iput ip
    pure none
  else pure (some (ip, name))

/-- The loop of `namex`; an element shortens the path, so the path's length bounds the turns. -/
def namexLoop (parent : Bool) : ℕ → List Char → ℕ → Name → Fs (Option (ℕ × Name))
  | 0, _, ip, name => namexEnd parent ip name
  | fuel + 1, path, ip, name =>
    match skipelem path with
    | none => namexEnd parent ip name
    | some (elem, rest) => do
      ilock ip
      let d ← perform (.inode ip)
      if d.type ≠ T_DIR then do
        iunlockput ip
        pure none
      else if parent ∧ rest = [] then do
        iunlock ip
        pure (some (ip, elem))
      else do
        match ← dirlookup ip elem with
        | none => do
          iunlockput ip
          pure none
        | some (next, _) => do
          iunlockput ip
          namexLoop parent fuel rest next elem

def namexStart (path : List Char) : Fs ℕ :=
  if path.head? = some '/' then do
    perform (.iget ROOTINO)
    pure ROOTINO
  else do
    let i ← perform .cwd
    perform (.idup i)
    pure i

def namex (path : List Char) (parent : Bool) : Fs (Option (ℕ × Name)) := do
  let ip ← namexStart path
  namexLoop parent path.length path ip []

def namei (path : List Char) : Fs (Option ℕ) := do
  let r ← namex path false
  pure (r.map Prod.fst)

def nameiparent (path : List Char) : Fs (Option (ℕ × Name)) := namex path true

/-- `create` when the name is there already. -/
def createFound (dp ip type : ℕ) : Fs (Option ℕ) := do
  iunlockput dp
  ilock ip
  let n ← perform (.inode ip)
  if type = T_FILE ∧ n.type = T_FILE then pure (some ip)
  else do
    iunlockput ip
    pure none

def createDots (dp ip : ℕ) : Fs Unit := do
  perform (.incLink dp)
  let ok ← dirlink ip dot ip
  if ok then do
    let ok ← dirlink ip dotdot dp
    if ok then pure () else panic .createDots
  else panic .createDots

def initDots (dp ip type : ℕ) : Fs Unit :=
  if type = T_DIR then createDots dp ip else pure ()

def createNew (dp : ℕ) (name : Name) (type : ℕ) (major minor : Short) : Fs (Option ℕ) := do
  let ip ← ialloc type
  ilock ip
  perform (.setMeta ip major minor)
  initDots dp ip type
  let ok ← dirlink dp name ip
  if ok then do
    iunlockput dp
    pure (some ip)
  else panic .createDirlink

def create (path : List Char) (type : ℕ) (major minor : Short) : Fs (Option ℕ) := do
  match ← nameiparent path with
  | none => pure none
  | some (dp, name) => do
    ilock dp
    match ← dirlookup dp name with
    | some (ip, _) => createFound dp ip type
    | none => createNew dp name type major minor

def fileclose (f : FileSlot) : Fs Unit := do
  match ← perform (.fileclose f) with
  | some ip => iput ip
  | none => pure ()

/-- The inode that `open` opens, locked. -/
def openInode (path : List Char) (omode : ℕ) : Fs (Option ℕ) :=
  if omode &&& O_CREATE ≠ 0 then create path T_FILE 0 0
  else do
    match ← namei path with
    | none => pure none
    | some ip => do
      ilock ip
      let n ← perform (.inode ip)
      if n.type = T_DIR ∧ omode ≠ O_RDONLY then do
        iunlockput ip
        pure none
      else pure (some ip)

def openFd (ip : ℕ) (f : FileSlot) : Fs ℤ := do
  match ← perform (.fdalloc f) with
  | none => do
    fileclose f
    iunlockput ip
    pure (-1)
  | some fd => do
    iunlock ip
    perform (.setFile f ip)
    pure fd.val

def sys_open (path : List Char) (omode : ℕ) : Fs ℤ := do
  match ← openInode path omode with
  | none => pure (-1)
  | some ip => do
    match ← perform .filealloc with
    | none => do
      iunlockput ip
      pure (-1)
    | some f => openFd ip f

/-- What `mkdir` and `mknod` do with the inode that `create` returns. -/
def putCreated : Option ℕ → Fs ℤ
  | none => pure (-1)
  | some ip => do
    iunlockput ip
    pure 0

def sys_mkdir (path : List Char) : Fs ℤ := do
  let r ← create path T_DIR 0 0
  putCreated r

def sys_mknod (path : List Char) (major minor : Short) : Fs ℤ := do
  let r ← create path T_DEV major minor
  putCreated r

/-- The label `bad` of `link`. -/
def linkBad (ip : ℕ) : Fs ℤ := do
  ilock ip
  perform (.decLink ip)
  iunlockput ip
  pure (-1)

def linkAt (ip dp : ℕ) (name : Name) : Fs ℤ := do
  ilock dp
  let ok ← dirlink dp name ip
  iunlockput dp
  if ok then do
    iput ip
    pure 0
  else linkBad ip

def linkNew (ip : ℕ) (new : List Char) : Fs ℤ := do
  perform (.incLink ip)
  iunlock ip
  match ← nameiparent new with
  | none => linkBad ip
  | some (dp, name) => linkAt ip dp name

def sys_link (old new : List Char) : Fs ℤ := do
  match ← namei old with
  | none => pure (-1)
  | some ip => do
    ilock ip
    let n ← perform (.inode ip)
    if n.type = T_DIR then do
      iunlockput ip
      pure (-1)
    else linkNew ip new

/-- The loop of `isdirempty`, from the third entry on. -/
def Inode.isdirempty (d : Inode) : Bool := (d.ents.drop 2).all (fun e => e.inum = 0)

/-- The label `bad` of `unlink`. -/
def unlinkBad (dp : ℕ) : Fs ℤ := do
  iunlockput dp
  pure (-1)

def decParent (dp type : ℕ) : Fs Unit :=
  if type = T_DIR then perform (.decLink dp) else pure ()

def unlinkErase (dp slot ip type : ℕ) : Fs ℤ := do
  let ok ← perform (.writei dp slot ⟨0, []⟩)
  if ok then do
    decParent dp type
    iunlockput dp
    perform (.decLink ip)
    iunlockput ip
    pure 0
  else panic .unlinkWritei

def unlinkFound (dp slot ip : ℕ) : Fs ℤ := do
  ilock ip
  let n ← perform (.inode ip)
  if n.nlink.toInt < 1 then panic .unlinkNlink
  else if n.type = T_DIR ∧ ¬ n.isdirempty then do
    iunlockput ip
    unlinkBad dp
  else unlinkErase dp slot ip n.type

def sys_unlink (path : List Char) : Fs ℤ := do
  match ← nameiparent path with
  | none => pure (-1)
  | some (dp, name) => do
    ilock dp
    if name = dot ∨ name = dotdot then unlinkBad dp
    else do
      match ← dirlookup dp name with
      | none => unlinkBad dp
      | some (ip, slot) => unlinkFound dp slot ip

def chdirTo (ip : ℕ) : Fs ℤ := do
  iunlock ip
  let old ← perform .cwd
  iput old
  perform (.setCwd (some ip))
  pure 0

def sys_chdir (path : List Char) : Fs ℤ := do
  match ← namei path with
  | none => pure (-1)
  | some ip => do
    ilock ip
    let n ← perform (.inode ip)
    if n.type ≠ T_DIR then do
      iunlockput ip
      pure (-1)
    else chdirTo ip

/-- `exec` up to where it has read its file; the file is put also when it is no program. -/
def exec (path : List Char) : Fs ℤ := do
  match ← namei path with
  | none => pure (-1)
  | some ip => do
    ilock ip
    let _ ← perform (.inode ip)
    iunlockput ip
    pure 0

def sys_close (fd : ℕ) : Fs ℤ := do
  match ← perform (.ofile fd) with
  | none => pure (-1)
  | some f => do
    perform (.clearFd fd)
    fileclose f
    pure 0

/-- One turn of the loop that closes the files in `exit`. -/
def exitClose (fd : ℕ) : Fs Unit := do
  match ← perform (.ofile fd) with
  | none => pure ()
  | some f => do
    fileclose f
    perform (.clearFd fd)

def exitCloseAll : List ℕ → Fs Unit
  | [] => pure ()
  | fd :: fds => do
    exitClose fd
    exitCloseAll fds

def exit : Fs ℤ := do
  exitCloseAll (List.range NOFILE)
  let i ← perform .cwd
  iput i
  perform (.setCwd none)
  pure 0

def fork (np : Proc) : Fs ℤ := do
  perform (.fork np)
  pure 0

/-- The calls that take a path. -/
inductive PathCall where
  | open (path : List Char) (omode : ℕ)
  | mkdir (path : List Char)
  | mknod (path : List Char) (major minor : Short)
  | link (old new : List Char)
  | unlink (path : List Char)
  | chdir (path : List Char)
  | exec (path : List Char)

def PathCall.body : PathCall → Fs ℤ
  | .open path omode => sys_open path omode
  | .mkdir path => sys_mkdir path
  | .mknod path major minor => sys_mknod path major minor
  | .link old new => sys_link old new
  | .unlink path => sys_unlink path
  | .chdir path => sys_chdir path
  | .exec path => FsTree.exec path

inductive Call where
  | path (c : PathCall)
  | close (fd : ℕ)
  | exit
  | fork (np : Proc)

def Call.body : Call → Fs ℤ
  | .path c => c.body
  | .close fd => sys_close fd
  | .exit => FsTree.exit
  | .fork np => FsTree.fork np

/-- An empty root directory, and the first `n` processes in it. -/
def started (n : ℕ) : St where
  inode i := if i = ROOTINO then
    ⟨T_DIR, 0, 0, 1, [⟨ROOTINO, dot⟩, ⟨ROOTINO, dotdot⟩]⟩ else Inode.zero
  icache i := if i = ROOTINO then ⟨n, true⟩ else ⟨0, false⟩
  lock _ := none
  file _ := ⟨0, none⟩
  cwd q := if q.val < n then some ROOTINO else none
  ofile _ _ := none

end Ostep.FsTree

import Ostep.FileTable
import Ostep.PathCalls
import Ostep.TransitionSystem

/-!
# Processes, their files and the file-system calls

The file-system calls on the inode cache, the file table, the descriptors and the current
directories of the processes, with `fork`, `exit` and `wait`. A call runs from start to end; one
that panics or sleeps does not return. An argument is `none` where it cannot be fetched.
-/

namespace Ostep.FileCalls
open FileTable InodeCache TransitionSystem
open FsBlocks (Superblock T_DEV)

inductive ProcState where
  | UNUSED
  | RUNNING
  | ZOMBIE
  deriving DecidableEq

attribute [local instance] nproc_neZero

abbrev initproc : Proc := 0

structure St where
  fs : InodeCache.St
  files : Table ℕ Slot
  cwd : Proc → Option Slot
  state : Proc → ProcState
  parent : Proc → Option Proc

abbrev Ker : Type → Type := StateT St (Except Fault)

def fs {α : Type} (m : Ic α) : Ker α := fun s =>
  match m s.fs with
  | .ok (a, t) => .ok (a, { s with fs := t })
  | .error e => .error e

def setFiles (t : Table ℕ Slot) : Ker Unit := modify (fun s => { s with files := t })

def setCwd (q : Proc) (v : Option Slot) : Ker Unit :=
  modify (fun s => { s with cwd := Function.update s.cwd q v })

/-- `myproc()->cwd`. -/
def cwd (q : Proc) : Ker Slot := do
  let s ← get
  match s.cwd q with
  | some k => return k
  | none => throw .nullPointer

variable (sb : Superblock)

/-! ## Descriptors -/

/-- The file of a descriptor; `none` is -1. -/
def argfd (q : Proc) (fd : Option ℤ) : Ker (Option (Fd × FileSlot)) := do
  let s ← get
  match fd with
  | none => return none
  | some fd =>
    if h : 0 ≤ fd ∧ fd.toNat < NOFILE then
      match s.files.ofile (q, ⟨fd.toNat, h.2⟩) with
      | some f => return some (⟨fd.toNat, h.2⟩, f)
      | none => return none
    else return none

def filealloc : Ker (Option FileSlot) := do
  let s ← get
  match s.files.filealloc with
  | some (f, t) => do
    setFiles t
    return some f
  | none => return none

def fdalloc (q : Proc) (f : FileSlot) : Ker (Option Fd) := do
  let s ← get
  match s.files.fdalloc q f with
  | some (fd, t) => do
    setFiles t
    return some fd
  | none => return none

def filedup (f : FileSlot) : Ker Unit := do
  let s ← get
  match s.files.filedup f with
  | some t => setFiles t
  | none => throw .filedup

/-- The end of `fileclose`; closing an end of a pipe touches the pipe only. -/
def closeFile (ff : File ℕ Slot) : Ker Unit :=
  if ff.type = .FD_INODE then
    match ff.ip with
    | some k => fs (iput k)
    | none => throw .nullPointer
  else pure ()

def fileclose (f : FileSlot) : Ker Unit := do
  let s ← get
  match s.files.fileclose f with
  | some (ff, t) => do
    setFiles t
    match ff with
    | some ff => closeFile ff
    | none => return ()
  | none => throw .fileclose

def setFd (q : Proc) (fd : Fd) (v : Option FileSlot) : Ker Unit := do
  let s ← get
  setFiles (s.files.setFd (q, fd) v)

def setFile (f : FileSlot) (g : File ℕ Slot → File ℕ Slot) : Ker Unit := do
  let s ← get
  setFiles (s.files.setFile f g)

def sys_dup (q : Proc) (fd : Option ℤ) : Ker ℤ := do
  match ← argfd q fd with
  | none => return -1
  | some (_, f) => do
    match ← fdalloc q f with
    | none => return -1
    | some fd => do
      filedup f
      return fd.val

def sys_close (q : Proc) (fd : Option ℤ) : Ker ℤ := do
  match ← argfd q fd with
  | none => return -1
  | some (fd, f) => do
    setFd q fd none
    fileclose f
    return 0

/-! ## Reading and writing -/

/-- What the model is told of a read: whether the buffer is a valid one, and what the device or
the pipe gives. -/
structure ReadArgs where
  n : Option ℕ
  driver : ℕ → ℕ → Option Bytes
  pipe : ℤ

def advance (f : FileSlot) (r : ℕ) : Ker Unit :=
  setFile f (fun g => { g with off := (g.off + r) % 2 ^ 32 })

def fileread (f : FileSlot) (n : ℕ) (args : ReadArgs) : Ker ℤ := do
  let s ← get
  let g := s.files.file f
  if ¬ g.readable then return -1
  else if g.type = .FD_PIPE then return args.pipe
  else if g.type = .FD_INODE then
    match g.ip with
    | some k => do
      fs (ilock k)
      match ← fs (fileRead sb args.driver k g.off n) with
      | some b => do
        advance f b.length
        fs (iunlock k)
        return b.length
      | none => do
        fs (iunlock k)
        return -1
    | none => throw .nullPointer
  else throw .fileread

def sys_read (q : Proc) (fd : Option ℤ) (args : ReadArgs) : Ker ℤ := do
  match ← argfd q fd, args.n with
  | some (_, f), some n => fileread sb f n args
  | _, _ => return -1

/-- The most bytes that `filewrite` writes in one transaction: `((MAXOPBLOCKS-1-1-2) / 2) * 512`. -/
abbrev MAXWRITE : ℕ := ((10 - 1 - 1 - 2) / 2) * 512

/-- The loop of `filewrite`; a turn that goes on writes at least one byte. -/
def writeChunks (f : FileSlot) (k : Slot) : ℕ → Bytes → Ker ℤ
  | 0, _ => pure 0
  | fuel + 1, src =>
    if src.length = 0 then return 0
    else do
      let n1 := min src.length MAXWRITE
      fs (ilock k)
      let s ← get
      match ← fs (writei sb k (src.take n1) (s.files.file f).off) with
      | none => do
        fs (iunlock k)
        return -1
      | some r => do
        advance f r
        fs (iunlock k)
        if r ≠ n1 then throw .shortWrite else writeChunks f k fuel (src.drop n1)

/-- `pipe` is what `pipewrite` returns. -/
def filewrite (f : FileSlot) (src : Bytes) (pipe : ℤ) : Ker ℤ := do
  let s ← get
  let g := s.files.file f
  if ¬ g.writable then return -1
  else if g.type = .FD_PIPE then return pipe
  else if g.type = .FD_INODE then
    match g.ip with
    | some k => do
      let r ← writeChunks sb f k src.length src
      return if r = -1 then -1 else src.length
    | none => throw .nullPointer
  else throw .filewrite

def sys_write (q : Proc) (fd : Option ℤ) (src : Option Bytes) (pipe : ℤ) : Ker ℤ := do
  match ← argfd q fd, src with
  | some (_, f), some src => filewrite sb f src pipe
  | _, _ => return -1

def filestat (f : FileSlot) : Ker ℤ := do
  let s ← get
  if (s.files.file f).type = .FD_INODE then
    match (s.files.file f).ip with
    | some k => do
      fs (ilock k)
      fs (iunlock k)
      return 0
    | none => throw .nullPointer
  else return -1

def sys_fstat (q : Proc) (fd : Option ℤ) (st : Bool) : Ker ℤ := do
  match ← argfd q fd, st with
  | some (_, f), true => filestat f
  | _, _ => return -1

/-! ## Paths -/

def onPath {α : Type} (q : Proc) (m : Slot → Ic α) : Ker α := do
  let k ← cwd q
  fs (m k)

/-- `open` once it has a file structure. -/
def openFd (q : Proc) (ip : Slot) (omode : ℕ) (f : FileSlot) : Ker ℤ := do
  match ← fdalloc q f with
  | none => do
    fileclose f
    fs (iunlockput ip)
    return -1
  | some fd => do
    fs (iunlock ip)
    setFile f (fun g => { g with
      type := .FD_INODE
      ip := some ip
      off := 0
      readable := omode &&& O_WRONLY = 0
      writable := omode &&& O_WRONLY ≠ 0 ∨ omode &&& O_RDWR ≠ 0 })
    return fd.val

def openFile (q : Proc) (ip : Slot) (omode : ℕ) : Ker ℤ := do
  match ← filealloc with
  | none => do
    fs (iunlockput ip)
    return -1
  | some f => openFd q ip omode f

def sys_open (q : Proc) (path : Option Bytes) (omode : Option ℕ) : Ker ℤ :=
  match path, omode with
  | some path, some omode => do
    match ← onPath q (fun k => openInode sb k path omode) with
    | none => return -1
    | some ip => openFile q ip omode
  | _, _ => return -1

def sys_chdir (q : Proc) (path : Option Bytes) : Ker ℤ := do
  match ← onPath q (fun k => chdirInode sb k path) with
  | none => return -1
  | some ip => do
    let old ← cwd q
    fs (iput old)
    setCwd q (some ip)
    return 0

/-! ## Pipes -/

/-- The label `bad` of `pipealloc`, where both files are allocated. -/
def pipeallocBad (f0 f1 : FileSlot) : Ker (Option (FileSlot × FileSlot)) := do
  fileclose f0
  fileclose f1
  return none

def setPipe (p : ℕ) (f : FileSlot) (writable : Bool) : Ker Unit :=
  setFile f (fun g => { g with
    type := .FD_PIPE, readable := !writable, writable := writable, pipe := some p })

/-- The files of a new pipe; `kalloc` is the page of the pipe, or `none` where there is none. -/
def pipealloc (kalloc : Option ℕ) : Ker (Option (FileSlot × FileSlot)) := do
  match ← filealloc with
  | none => return none
  | some f0 => do
    match ← filealloc with
    | none => do
      fileclose f0
      return none
    | some f1 =>
      match kalloc with
      | none => pipeallocBad f0 f1
      | some p => do
        setPipe p f0 false
        setPipe p f1 true
        return some (f0, f1)

def clearFd (q : Proc) : Option Fd → Ker Unit
  | some fd => setFd q fd none
  | none => pure ()

/-- `pipe` where it has no descriptor for one of the files. -/
def pipeBad (q : Proc) (fd0 : Option Fd) (rf wf : FileSlot) : Ker ℤ := do
  clearFd q fd0
  fileclose rf
  fileclose wf
  return -1

def pipeFds (q : Proc) (rf wf : FileSlot) : Ker ℤ := do
  match ← fdalloc q rf with
  | none => pipeBad q none rf wf
  | some fd0 => do
    match ← fdalloc q wf with
    | none => pipeBad q (some fd0) rf wf
    | some _ => return 0

def sys_pipe (q : Proc) (fd : Bool) (kalloc : Option ℕ) : Ker ℤ :=
  if fd then do
    match ← pipealloc kalloc with
    | none => return -1
    | some (rf, wf) => pipeFds q rf wf
  else return -1

/-! ## Processes -/

def setState (p : Proc) (st : ProcState) : Ker Unit :=
  modify (fun s => { s with state := Function.update s.state p st })

/-- One turn of the loop of `fork` over the descriptors. -/
def dupFd (q np : Proc) (fd : Fd) : Ker Unit := do
  let s ← get
  match s.files.ofile (q, fd) with
  | some f => do
    filedup f
    setFd np fd (some f)
  | none => return ()

def forkFiles (q np : Proc) : Ker ℤ := do
  modify (fun s => { s with parent := Function.update s.parent np (some q) })
  (List.finRange NOFILE).forM (dupFd q np)
  let k ← cwd q
  fs (idup k)
  setCwd np (some k)
  setState np .RUNNING
  return 1

/-- `kstack` and `copy` tell whether the kernel stack and the copy of the memory are allocated;
the pid that is returned is left out. -/
def fork (q : Proc) (kstack copy : Bool) : Ker ℤ := do
  let s ← get
  match (List.finRange NPROC).find? (fun p => s.state p = .UNUSED) with
  | none => return -1
  | some np => if kstack ∧ copy then forkFiles q np else return -1

/-- One turn of the loop of `exit` over the descriptors. -/
def exitFd (q : Proc) (fd : Fd) : Ker Unit := do
  let s ← get
  match s.files.ofile (q, fd) with
  | some f => do
    fileclose f
    setFd q fd none
  | none => return ()

def exit (q : Proc) : Ker ℤ :=
  if q = initproc then throw .initExiting
  else do
    (List.finRange NOFILE).forM (exitFd q)
    let k ← cwd q
    fs (iput k)
    setCwd q none
    modify (fun s => { s with
      parent := fun p => if s.parent p = some q then some initproc else s.parent p })
    setState q .ZOMBIE
    return 0

/-- The child found has exited, or there is no child; else `wait` sleeps. -/
def wait (q : Proc) (killed : Bool) : Ker ℤ := do
  let s ← get
  match (List.finRange NPROC).find? (fun p => s.parent p = some q ∧ s.state p = .ZOMBIE) with
  | some p => do
    modify (fun s => { s with parent := Function.update s.parent p none })
    setState p .UNUSED
    return 1
  | none =>
    if killed ∨ ∀ p, s.parent p ≠ some q then return -1 else throw .blocked

/-! ## Calls -/

inductive Call where
  | open (path : Option Bytes) (omode : Option ℕ)
  | link (old new : Option Bytes)
  | unlink (path : Option Bytes)
  | mkdir (path : Option Bytes)
  | mknod (path : Option Bytes) (major minor : Option ℤ)
  | chdir (path : Option Bytes)
  | dup (fd : Option ℤ)
  | pipe (fd : Bool) (kalloc : Option ℕ)
  | close (fd : Option ℤ)
  | read (fd : Option ℤ) (args : ReadArgs)
  | write (fd : Option ℤ) (src : Option Bytes) (pipe : ℤ)
  | fstat (fd : Option ℤ) (st : Bool)
  | exec (path : Bytes) (env : ExecEnv)
  | fork (kstack copy : Bool)
  | exit
  | wait (killed : Bool)

def Call.body (q : Proc) : Call → Ker ℤ
  | .open path omode => sys_open sb q path omode
  | .link old new => onPath q (fun k => sys_link sb k old new)
  | .unlink path => onPath q (fun k => sys_unlink sb k path)
  | .mkdir path => onPath q (fun k => sys_mkdir sb k path)
  | .mknod path major minor => onPath q (fun k => sys_mknod sb k path major minor)
  | .chdir path => sys_chdir sb q path
  | .dup fd => sys_dup q fd
  | .pipe fd kalloc => sys_pipe q fd kalloc
  | .close fd => sys_close q fd
  | .read fd args => sys_read sb q fd args
  | .write fd src r => sys_write sb q fd src r
  | .fstat fd st => sys_fstat q fd st
  | .exec path env => onPath q (fun k => InodeCache.exec sb env k path)
  | .fork kstack copy => FileCalls.fork q kstack copy
  | .exit => FileCalls.exit q
  | .wait killed => FileCalls.wait q killed

/-- A process makes a call, and the call returns. -/
def next (s : St) (e : Proc × Call) : Option St :=
  if s.state e.1 = .RUNNING then
    match e.2.body sb e.1 s with
    | .ok (_, t) => some t
    | .error _ => none
  else none

end Ostep.FileCalls

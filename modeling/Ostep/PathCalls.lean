import Ostep.InodeCache

/-!
# The calls that take a path

The path calls of sysfile.c, as far as they work on inodes, and `exec` as far as it reads its
file. A call is given the current directory of the process that makes it. A string argument is
`none` where `argstr` fails.
-/

namespace Ostep.InodeCache
open FsBlocks (Dinode Superblock T_DIR T_DEV DIRENT dirName direntInum)

abbrev T_FILE : ℕ := 2

abbrev O_RDONLY : ℕ := 0x000
abbrev O_WRONLY : ℕ := 0x001
abbrev O_RDWR : ℕ := 0x002
abbrev O_CREATE : ℕ := 0x200

variable (sb : Superblock)

/-! ## Creating inodes -/

/-- `create` when the name is there already. -/
def createFound (dp ip : Slot) (type : ℕ) : Ic (Option Slot) := do
  iunlockput dp
  ilock ip
  let s ← get
  if type = T_FILE ∧ (s.icache ip).ip.type = T_FILE then return some ip
  else do
    iunlockput ip
    return none

def createDots (dp ip : Slot) : Ic Unit := do
  incLink dp
  let s ← get
  let ok ← dirlink sb ip dot (s.icache ip).inum
  if ok then do
    let ok ← dirlink sb ip dotdot (s.icache dp).inum
    if ok then return () else throw .createDots
  else throw .createDots

def initDots (dp ip : Slot) (type : ℕ) : Ic Unit :=
  if type = T_DIR then createDots sb dp ip else pure ()

def createNew (dp : Slot) (name : Bytes) (type : ℕ) (major minor : ℤ) : Ic (Option Slot) := do
  let s ← get
  let ip ← ialloc sb (s.icache dp).dev type
  ilock ip
  setMeta ip (fun d => { d with major := short major, minor := short minor, nlink := 1 })
  initDots sb dp ip type
  let s ← get
  let ok ← dirlink sb dp name (s.icache ip).inum
  if ok then do
    iunlockput dp
    return some ip
  else throw .createDirlink

def create (cwd : Slot) (path : Bytes) (type : ℕ) (major minor : ℤ) : Ic (Option Slot) := do
  match ← nameiparent sb cwd path with
  | none => return none
  | some (dp, name) => do
    ilock dp
    match ← dirlookup sb dp name with
    | some (ip, _) => createFound dp ip type
    | none => createNew sb dp name type major minor

/-- The inode that `open` opens, locked. -/
def openInode (cwd : Slot) (path : Bytes) (omode : ℕ) : Ic (Option Slot) :=
  if omode &&& O_CREATE ≠ 0 then create sb cwd path T_FILE 0 0
  else do
    match ← namei sb cwd path with
    | none => return none
    | some ip => do
      ilock ip
      let s ← get
      if (s.icache ip).ip.type = T_DIR ∧ omode ≠ O_RDONLY then do
        iunlockput ip
        return none
      else return some ip

/-- What `mkdir` and `mknod` do with the inode that `create` returns. -/
def putCreated : Option Slot → Ic ℤ
  | none => return -1
  | some ip => do
    iunlockput ip
    return 0

def sys_mkdir (cwd : Slot) : Option Bytes → Ic ℤ
  | none => return -1
  | some path => do
    let r ← create sb cwd path T_DIR 0 0
    putCreated r

def sys_mknod (cwd : Slot) : Option Bytes → Option ℤ → Option ℤ → Ic ℤ
  | some path, some major, some minor => do
    let r ← create sb cwd path T_DEV major minor
    putCreated r
  | _, _, _ => return -1

/-! ## Links -/

/-- The label `bad` of `link`. -/
def linkBad (ip : Slot) : Ic ℤ := do
  ilock ip
  decLink ip
  iunlockput ip
  return -1

/-- The test of `link` whether the new name can be entered. -/
def linkEnter (ip dp : Slot) (name : Bytes) : Ic Bool := do
  let s ← get
  if (s.icache dp).dev ≠ (s.icache ip).dev then return false
  else dirlink sb dp name (s.icache ip).inum

def linkAt (ip dp : Slot) (name : Bytes) : Ic ℤ := do
  ilock dp
  let ok ← linkEnter sb ip dp name
  iunlockput dp
  if ok then do
    iput ip
    return 0
  else linkBad ip

def linkNew (cwd ip : Slot) (new : Bytes) : Ic ℤ := do
  incLink ip
  iunlock ip
  match ← nameiparent sb cwd new with
  | none => linkBad ip
  | some (dp, name) => linkAt sb ip dp name

def sys_link (cwd : Slot) : Option Bytes → Option Bytes → Ic ℤ
  | some old, some new => do
    match ← namei sb cwd old with
    | none => return -1
    | some ip => do
      ilock ip
      let s ← get
      if (s.icache ip).ip.type = T_DIR then do
        iunlockput ip
        return -1
      else linkNew sb cwd ip new
  | _, _ => return -1

/-- The label `bad` of `unlink`. -/
def unlinkBad (dp : Slot) : Ic ℤ := do
  iunlockput dp
  return -1

def decParent (dp : Slot) (type : ℕ) : Ic Unit := if type = T_DIR then decLink dp else pure ()

def unlinkErase (dp ip : Slot) (off type : ℕ) : Ic ℤ := do
  match ← writei sb dp (List.replicate DIRENT 0) off with
  | some n =>
    if n ≠ DIRENT then throw .unlinkWritei
    else do
      decParent dp type
      iunlockput dp
      decLink ip
      iunlockput ip
      return 0
  | none => throw .unlinkWritei

/-- Only an empty directory may go. -/
def mayErase (ip : Slot) (type : ℕ) : Ic Bool :=
  if type = T_DIR then isdirempty sb ip else pure true

def unlinkTest (dp ip : Slot) (off type : ℕ) : Ic ℤ := do
  let ok ← mayErase sb ip type
  if ok then unlinkErase sb dp ip off type
  else do
    iunlockput ip
    unlinkBad dp

def unlinkFound (dp ip : Slot) (off : ℕ) : Ic ℤ := do
  ilock ip
  let s ← get
  if (s.icache ip).ip.nlink < 1 then throw .unlinkNlink
  else unlinkTest sb dp ip off (s.icache ip).ip.type

def sys_unlink (cwd : Slot) : Option Bytes → Ic ℤ
  | none => return -1
  | some path => do
    match ← nameiparent sb cwd path with
    | none => return -1
    | some (dp, name) => do
      ilock dp
      if dirName name = dirName dot ∨ dirName name = dirName dotdot then unlinkBad dp
      else do
        match ← dirlookup sb dp name with
        | none => unlinkBad dp
        | some (ip, off) => unlinkFound sb dp ip off

/-! ## Other uses of a path -/

/-- `chdir` up to where it drops the old directory: the new one. -/
def chdirInode (cwd : Slot) : Option Bytes → Ic (Option Slot)
  | none => return none
  | some path => do
    match ← namei sb cwd path with
    | none => return none
    | some ip => do
      ilock ip
      let s ← get
      if (s.icache ip).ip.type ≠ T_DIR then do
        iunlockput ip
        return none
      else do
        iunlock ip
        return some ip

/-- Reading a file or a device; the driver gives what the device has. -/
def fileRead (driver : ℕ → ℕ → Option Bytes) (k : Slot) (off n : ℕ) : Ic (Option Bytes) := do
  let s ← get
  if (s.icache k).ip.type = T_DEV then return driver off n else readi sb k off n

abbrev PGSIZE : ℕ := 4096
abbrev ELF_MAGIC : ℕ := 0x464C457F
abbrev ELF_PROG_LOAD : ℕ := 1

/-- The sizes of `struct elfhdr` and `struct proghdr`. -/
abbrev ELFHDR : ℕ := 52
abbrev PROGHDR : ℕ := 32

/-- A little-endian number of `n` bytes. -/
def field (b : Bytes) (off n : ℕ) : ℕ := ((b.drop off).take n).foldr (fun x r => x.toNat + 256 * r) 0

theorem field_lt (b : Bytes) (off n : ℕ) : field b off n < 256 ^ n := by
  have hlen : ∀ xs : Bytes, xs.foldr (fun x r => x.toNat + 256 * r) 0 < 256 ^ xs.length := by
    intro xs
    induction xs with
    | nil => decide
    | cons x xs ih =>
      have hx := x.toNat_lt
      rw [List.foldr_cons, List.length_cons, Nat.pow_succ]
      omega
  exact (hlen _).trans_le (Nat.pow_le_pow_right (by decide) (List.length_take_le n _))

/-- What `exec` depends on besides inodes: what a device delivers, and which of the calls of
`setupkvm` and `allocuvm` succeed, in order. -/
structure ExecEnv where
  driver : ℕ → ℕ → Option Bytes
  memory : ℕ → Bool

variable (env : ExecEnv)

/-- The loop of `loaduvm`, over the offsets of the pages; `false` is -1. -/
def loadPages (ip : Slot) (offset sz : ℕ) : List ℕ → Ic Bool
  | [] => pure true
  | i :: is => do
    let n := min (sz - i) PGSIZE
    match ← fileRead sb env.driver ip ((offset + i) % 2 ^ 32) n with
    | some b => if b.length = n then loadPages ip offset sz is else return false
    | none => return false

def loaduvm (ip : Slot) (offset sz : ℕ) : Ic Bool :=
  loadPages sb env ip offset sz ((List.range ((sz + PGSIZE - 1) / PGSIZE)).map (PGSIZE * ·))

/-- One program header that has been read, the `i`th. -/
def execSegment (ip : Slot) (i : ℕ) (ph : Bytes) : Ic Bool :=
  if field ph 0 4 ≠ ELF_PROG_LOAD then return true
  else if field ph 20 4 < field ph 16 4 then return false
  else if 2 ^ 32 ≤ field ph 8 4 + field ph 20 4 then return false
  else if ¬ env.memory (i + 1) then return false
  else if field ph 8 4 % PGSIZE ≠ 0 then return false
  else loaduvm sb env ip (field ph 4 4) (field ph 16 4)

/-- The loop over the program headers, from header `i` on; `left` are still to come. -/
def execLoad (ip : Slot) (phoff i : ℕ) : ℕ → Ic Bool
  | 0 => pure true
  | left + 1 => do
    match ← fileRead sb env.driver ip ((phoff + PROGHDR * i) % 2 ^ 32) PROGHDR with
    | some ph =>
      if ph.length ≠ PROGHDR then return false
      else do
        let ok ← execSegment sb env ip i ph
        if ok then execLoad ip phoff (i + 1) left else return false
    | none => return false

def execRead (ip : Slot) : Ic Bool := do
  match ← fileRead sb env.driver ip 0 ELFHDR with
  | some elf =>
    if elf.length ≠ ELFHDR then return false
    else if field elf 0 4 ≠ ELF_MAGIC then return false
    else if ¬ env.memory 0 then return false
    else execLoad sb env ip (field elf 28 4) 0 (field elf 44 2)
  | none => return false

/-- What follows the second `iunlockput` of `exec`, or its label `bad`, touches memory only. -/
def exec (cwd : Slot) (path : Bytes) : Ic ℤ := do
  match ← namei sb cwd path with
  | none => return -1
  | some ip => do
    ilock ip
    let ok ← execRead sb env ip
    iunlockput ip
    return if ok then 0 else -1

end Ostep.InodeCache

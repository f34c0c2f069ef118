import Ostep.PageSystem
import Ostep.PathCalls

/-!
# exec

exec.c and `loaduvm`, over the inode cache, the page tables and the calls of `begin_op` and
`end_op`. The strings of `argv` are given by what `strlen` and `copyout` read of them.
-/

namespace Ostep.Exec
open ByteWords PageTables
open InodeCache (Ic Slot fileRead field slash ELFHDR PROGHDR ELF_MAGIC ELF_PROG_LOAD)
open FsBlocks (Superblock)

abbrev MAXARG : ℕ := 32

/-- The inodes, physical memory, and how often `begin_op` and `end_op` have been called. -/
structure World where
  fs : InodeCache.St
  mem : Mem
  begun : ℕ
  ended : ℕ

inductive Fault where
  | fs (e : InodeCache.Fault)
  | mem (e : PageTables.Fault)
  | notAligned
  | addressShouldExist
  | spin
  deriving DecidableEq

abbrev Ker : Type → Type := StateT World (Except Fault)

def onFs {α : Type} (m : Ic α) : Ker α := fun w =>
  match m w.fs with
  | .ok (a, s) => .ok (a, { w with fs := s })
  | .error e => .error (.fs e)

def onMem {α : Type} (m : Kernel α) : Ker α := fun w =>
  match m w.mem with
  | .ok (a, s) => .ok (a, { w with mem := s })
  | .error e => .error (.mem e)

def begin_op : Ker Unit := modify (fun w => { w with begun := w.begun + 1 })
def end_op : Ker Unit := modify (fun w => { w with ended := w.ended + 1 })

/-- The part of the trap frame that `exec` sets. -/
structure Trapframe where
  eip : ℕ
  esp : ℕ

/-- What `exec` reads and writes of `struct proc`. -/
structure Process extends PageTables.Proc where
  tf : Trapframe
  name : List UInt8
  cwd : Slot

/-- The kernel's symbols, the superblock and what a device's driver delivers. -/
structure Env where
  L : Symbols
  sb : Superblock
  driver : ℕ → ℕ → Option (List UInt8)

variable (E : Env)

/-! ## loaduvm -/

/-- `memmove(P2V(pa), b, n)`. -/
def fill (f : ℕ) (b : List UInt8) : Kernel Unit :=
  modify (fun s => s.setPage f ((s.page f).store 0 b))

/-- The loop of `loaduvm` from `i` on; `false` is -1. -/
def loadLoop (pgdir addr : ℕ) (ip : Slot) (offset sz : ℕ) : ℕ → ℕ → Ker Bool
  | 0, _ => throw .spin
  | fuel + 1, i =>
    if i < sz then do
      match ← onMem (walkpgdir pgdir ((addr + i) % 2 ^ 32) false) with
      | none => throw .addressShouldExist
      | some pte => do
        let e ← onMem (load pte)
        let n := if sz - i < PGSIZE then sz - i else PGSIZE
        match ← onFs (fileRead E.sb E.driver ip ((offset + i) % 2 ^ 32) n) with
        | none => return false
        | some b => do
          onMem (fill (pageOf e) b)
          if b.length ≠ n then return false
          else loadLoop pgdir addr ip offset sz fuel ((i + PGSIZE) % 2 ^ 32)
    else return true

def loaduvm (pgdir addr : ℕ) (ip : Slot) (offset sz : ℕ) : Ker Bool :=
  if addr % PGSIZE ≠ 0 then throw .notAligned
  else loadLoop E pgdir addr ip offset sz (NPDENTRIES * NPTENTRIES) 0

/-! ## The image -/

/-- The fields of a program header that `exec` looks at. -/
structure Proghdr where
  type : ℕ
  off : ℕ
  vaddr : ℕ
  filesz : ℕ
  memsz : ℕ

def proghdr (b : List UInt8) : Proghdr :=
  ⟨field b 0 4, field b 4 4, field b 8 4, field b 16 4, field b 20 4⟩

/-- The body of the loop over the program headers; `none` is the jump to `bad`. -/
def execSegment (pgdir : ℕ) (ip : Slot) (sz : ℕ) (ph : Proghdr) : Ker (Option ℕ) :=
  if ph.type ≠ ELF_PROG_LOAD then return some sz
  else if ph.memsz < ph.filesz then return none
  else if (ph.vaddr + ph.memsz) % 2 ^ 32 < ph.vaddr then return none
  else do
    let sz ← onMem (allocuvm E.L pgdir sz ((ph.vaddr + ph.memsz) % 2 ^ 32))
    if sz = 0 then return none
    else if ph.vaddr % PGSIZE ≠ 0 then return none
    else do
      let ok ← loaduvm E pgdir ph.vaddr ip ph.off ph.filesz
      return if ok then some sz else none

/-- The loop over the program headers from `off` on, with `left` still to come. -/
def execLoad (pgdir : ℕ) (ip : Slot) : ℕ → ℕ → ℕ → Ker (Option ℕ)
  | 0, _, sz => return some sz
  | left + 1, off, sz => do
    match ← onFs (fileRead E.sb E.driver ip off PROGHDR) with
    | none => return none
    | some b =>
      if b.length ≠ PROGHDR then return none
      else do
        match ← execSegment E pgdir ip sz (proghdr b) with
        | none => return none
        | some sz => execLoad pgdir ip left ((off + PROGHDR) % 2 ^ 32) sz

/-- The label `bad`, with what there is to give up. -/
def bad (pgdir : ℕ) (ip : Option Slot) : Ker Unit := do
  if pgdir ≠ 0 then onMem (freevm E.L pgdir) else pure ()
  match ip with
  | none => return
  | some ip => do
    onFs (InodeCache.iunlockput ip)
    end_op

/-- A new image: its directory, its size and where it is entered. -/
structure Image where
  pgdir : ℕ
  sz : ℕ
  entry : ℕ

/-- With the directory made and the file locked. -/
def execFile (ip : Slot) (pgdir : ℕ) (elf : List UInt8) : Ker (Option Image) := do
  match ← execLoad E pgdir ip (field elf 44 2) (field elf 28 4) 0 with
  | none => do
    bad E pgdir (some ip)
    return none
  | some sz => do
    onFs (InodeCache.iunlockput ip)
    end_op
    return some ⟨pgdir, sz, field elf 24 4⟩

/-- With the file locked. -/
def execOpen (ip : Slot) : Ker (Option Image) := do
  match ← onFs (fileRead E.sb E.driver ip 0 ELFHDR) with
  | none => do
    bad E 0 (some ip)
    return none
  | some elf =>
    if elf.length ≠ ELFHDR ∨ field elf 0 4 ≠ ELF_MAGIC then do
      bad E 0 (some ip)
      return none
    else do
      match ← onMem (setupkvm E.L) with
      | none => do
        bad E 0 (some ip)
        return none
      | some pgdir => execFile E ip pgdir elf

/-- `exec` up to where it has read the file. -/
def execImage (cwd : Slot) (path : List UInt8) : Ker (Option Image) := do
  begin_op
  match ← onFs (InodeCache.namei E.sb cwd path) with
  | none => do
    end_op
    return none
  | some ip => do
    onFs (InodeCache.ilock ip)
    execOpen E ip

/-- Two more pages, the lower one not for the user. -/
def execStack (im : Image) : Ker (Option Image) := do
  let sz ← onMem (allocuvm E.L im.pgdir (PGROUNDUP im.sz)
    ((PGROUNDUP im.sz + 2 * PGSIZE) % 2 ^ 32))
  if sz = 0 then do
    bad E im.pgdir none
    return none
  else do
    onMem (clearpteu im.pgdir (sz - 2 * PGSIZE))
    return some { im with sz := sz }

/-- `exec` up to where it pushes the arguments. -/
def execReady (cwd : Slot) (path : List UInt8) : Ker (Option Image) := do
  match ← execImage E cwd path with
  | none => return none
  | some im => execStack E im

/-! ## The arguments -/

/-- `(sp - n) & ~3`. -/
def below (sp n : ℕ) : ℕ := (sp + (2 ^ 32 - n % 2 ^ 32)) % 2 ^ 32 / 4 * 4

/-- The loop that pushes the strings of `argv`; `ptrs` are those pushed already. -/
def pushArgs (pgdir : ℕ) : List (List UInt8) → ℕ → List ℕ → Kernel (Option (ℕ × List ℕ))
  | [], sp, ptrs => return some (sp, ptrs)
  | arg :: args, sp, ptrs =>
    if MAXARG ≤ ptrs.length then return none
    else do
      let sp := below sp (arg.length + 1)
      let r ← copyout pgdir sp (arg ++ [0])
      if r < 0 then return none else pushArgs pgdir args sp (ptrs ++ [sp])

def wordBytes (x : ℕ) : List UInt8 :=
  [UInt8.ofNat x, UInt8.ofNat (x / 256), UInt8.ofNat (x / 65536), UInt8.ofNat (x / 16777216)]

/-- `ustack` once `sp` and the pointers are known. -/
def ustack (sp : ℕ) (ptrs : List ℕ) : List ℕ :=
  [0xffffffff, ptrs.length, (sp + (2 ^ 32 - (ptrs.length + 1) * 4)) % 2 ^ 32] ++ ptrs ++ [0]

/-- The strings and the frame below them; `none` is the jump to `bad`. -/
def pushAll (pgdir sz : ℕ) (argv : List (List UInt8)) : Kernel (Option ℕ) := do
  match ← pushArgs pgdir argv sz [] with
  | none => return none
  | some (sp, ptrs) => do
    let esp := (sp + (2 ^ 32 - (3 + ptrs.length + 1) * 4)) % 2 ^ 32
    let r ← copyout pgdir esp ((ustack sp ptrs).flatMap wordBytes)
    return if r < 0 then none else some esp

/-- What follows the last slash. -/
def lastElem (path : List UInt8) : List UInt8 := (path.reverse.takeWhile (· ≠ slash)).reverse

/-- The process changes over to the new image. -/
def commit (p : Process) (im : Image) (path : List UInt8) (esp : ℕ) : Ker (ℤ × Process) := do
  let p' := { p with
    pgdir := im.pgdir, sz := im.sz, tf := ⟨im.entry, esp⟩, name := (lastElem path).take 15 }
  onMem (switchuvm p'.toProc)
  onMem (freevm E.L p.pgdir)
  return (0, p')

def execPush (p : Process) (im : Image) (path : List UInt8) (argv : List (List UInt8)) :
    Ker (ℤ × Process) := do
  match ← onMem (pushAll im.pgdir im.sz argv) with
  | none => do
    bad E im.pgdir none
    return (-1, p)
  | some esp => commit E p im path esp

/-- `exec` for the process `p`, which it returns as it leaves it. -/
def exec (p : Process) (path : List UInt8) (argv : List (List UInt8)) : Ker (ℤ × Process) := do
  match ← execReady E p.cwd path with
  | none => return (-1, p)
  | some im => execPush E p im path argv

end Ostep.Exec

import Ostep.ByteWords
import Mathlib.Algebra.Group.Int.Defs
import Mathlib.Algebra.Group.Nat.Defs
import Mathlib.Logic.Function.Basic
import Mathlib.Data.Int.Notation

/-!
# Physical pages and page tables

kalloc.c and vm.c. Physical memory is its pages by number, and a page is bytes; directories and
page tables are words in such pages. A kernel pointer to a page is the number of the page, one
to an entry is the page and the index. A `uint` is a number below `2 ^ 32`, and what may wrap is
reduced.

The list through `kmem.freelist` is a list. Each loop has fuel; running out of it is an error of
its own, and so is reading through the null pointer that `walkpgdir` can return.
-/

namespace Ostep.PageTables
open ByteWords

abbrev PGSIZE : ℕ := 4096
abbrev NPDENTRIES : ℕ := 1024
abbrev NPTENTRIES : ℕ := 1024

abbrev EXTMEM : ℕ := 0x100000
abbrev PHYSTOP : ℕ := 0xE000000
abbrev DEVSPACE : ℕ := 0xFE000000
abbrev KERNBASE : ℕ := 0x80000000
abbrev KERNLINK : ℕ := KERNBASE + EXTMEM

abbrev PTE_P : ℕ := 1
abbrev PTE_W : ℕ := 2
abbrev PTE_U : ℕ := 4

def PDX (va : ℕ) : ℕ := va / 2 ^ 22 % 1024
def PTX (va : ℕ) : ℕ := va / 2 ^ 12 % 1024
def PGADDR (d t o : ℕ) : ℕ := (d * 2 ^ 22 + t * 2 ^ 12 + o) % 2 ^ 32
def PGROUNDUP (sz : ℕ) : ℕ := (sz + (PGSIZE - 1)) % 2 ^ 32 / PGSIZE * PGSIZE
def PGROUNDDOWN (a : ℕ) : ℕ := a / PGSIZE * PGSIZE

/-- The page of `PTE_ADDR(pte)`. -/
def pageOf (pte : ℕ) : ℕ := pte / PGSIZE

def PTE_FLAGS (pte : ℕ) : ℕ := pte % PGSIZE

def V2P (a : ℕ) : ℕ := a - KERNBASE

/-- The symbols that kernel.ld defines: `data` starts a page behind the kernel's text, and the
kernel fits into physical memory. -/
structure Symbols where
  data : ℕ
  endAddr : ℕ
  text : KERNLINK < data
  aligned : data % PGSIZE = 0
  bss : data < endAddr
  fits : endAddr < KERNBASE + PHYSTOP

structure Mem where
  page : ℕ → Bytes
  freelist : List ℕ

/-- How a function fails to return: the panics, a read through a null pointer, a loop that does
not end. -/
inductive Fault where
  | kfree
  | remap
  | physTooHigh
  | freevm
  | clearpteu
  | copyuvm
  | switchuvm
  | null
  | spin
  deriving DecidableEq

abbrev Kernel : Type → Type := StateT Mem (Except Fault)

/-- A `pte_t *` or `pde_t *`: the page and the index in it. -/
abbrev Ptr : Type := ℕ × ℕ

def Mem.read (s : Mem) (p : Ptr) : ℕ := (s.page p.1).word p.2

def Mem.setPage (s : Mem) (f : ℕ) (v : Bytes) : Mem :=
  { s with page := Function.update s.page f v }

def Mem.write (s : Mem) (p : Ptr) (x : ℕ) : Mem := s.setPage p.1 ((s.page p.1).setWord p.2 x)

def load (p : Ptr) : Kernel ℕ := do
  let s ← get
  return s.read p

def store (p : Ptr) (x : ℕ) : Kernel Unit := modify (·.write p x)

/-- `memset(v, c, PGSIZE)`. -/
def memset (f : ℕ) (c : UInt8) : Kernel Unit := modify (·.setPage f (fun _ => c))

/-! ## kalloc.c -/

variable (L : Symbols)

def Mem.free (s : Mem) (f : ℕ) : Mem :=
  { page := Function.update s.page f (fun _ => 1), freelist := f :: s.freelist }

def kfree (f : ℕ) : Kernel Unit :=
  if KERNBASE + f * PGSIZE < L.endAddr ∨ PHYSTOP ≤ f * PGSIZE then throw .kfree
  else modify (·.free f)

def kalloc : Kernel (Option ℕ) := do
  let s ← get
  match s.freelist with
  | [] => return none
  | r :: next => do
    modify (fun s => { s with freelist := next })
    return some r

/-- The loop of `freerange` with `p` a page. -/
def freerangeLoop (vend : ℕ) : ℕ → ℕ → Kernel Unit
  | 0, _ => throw .spin
  | fuel + 1, p =>
    if p + PGSIZE ≤ vend then do
      kfree L (pageOf (V2P p))
      freerangeLoop vend fuel (p + PGSIZE)
    else return

def freerange (vstart vend : ℕ) : Kernel Unit :=
  freerangeLoop L vend (NPDENTRIES * NPTENTRIES) (PGROUNDUP vstart)

/-- `kinit1` and `kinit2` as `main` calls them. -/
def kinit1 : Kernel Unit := freerange L L.endAddr (KERNBASE + 4 * 1024 * 1024)

def kinit2 : Kernel Unit := freerange L (KERNBASE + 4 * 1024 * 1024) (KERNBASE + PHYSTOP)

/-! ## vm.c -/

def walkpgdir (pgdir va : ℕ) (alloc : Bool) : Kernel (Option Ptr) := do
  let pde ← load (pgdir, PDX va)
  if pde &&& PTE_P ≠ 0 then return some (pageOf pde, PTX va)
  else if alloc then do
    match ← kalloc with
    | none => return none
    | some pgtab => do
      memset pgtab 0
      store (pgdir, PDX va) (pgtab * PGSIZE ||| PTE_P ||| PTE_W ||| PTE_U)
      return some (pgtab, PTX va)
  else return none

/-- The loop of `mappages` from `a` on. -/
def mapLoop (pgdir last perm : ℕ) : ℕ → ℕ → ℕ → Kernel Bool
  | 0, _, _ => throw .spin
  | fuel + 1, a, pa => do
    match ← walkpgdir pgdir a true with
    | none => return false
    | some pte => do
      let e ← load pte
      if e &&& PTE_P ≠ 0 then throw .remap
      else do
        store pte (pa ||| perm ||| PTE_P)
        if a = last then return true
        else mapLoop pgdir last perm fuel ((a + PGSIZE) % 2 ^ 32) ((pa + PGSIZE) % 2 ^ 32)

def mappages (pgdir va size pa perm : ℕ) : Kernel Bool :=
  mapLoop pgdir (PGROUNDDOWN ((va + size + (2 ^ 32 - 1)) % 2 ^ 32)) perm
    (NPDENTRIES * NPTENTRIES) (PGROUNDDOWN va) pa

structure Kmap where
  virt : ℕ
  physStart : ℕ
  physEnd : ℕ
  perm : ℕ

def kmap : List Kmap :=
  [⟨KERNBASE, 0, EXTMEM, PTE_W⟩,
    ⟨KERNLINK, V2P KERNLINK, V2P L.data, 0⟩,
    ⟨L.data, V2P L.data, PHYSTOP, PTE_W⟩,
    ⟨DEVSPACE, DEVSPACE, 0, PTE_W⟩]

/-- The loop of `deallocuvm` from `a` on. -/
def deallocLoop (pgdir oldsz : ℕ) : ℕ → ℕ → Kernel Unit
  | 0, _ => throw .spin
  | fuel + 1, a =>
    if a < oldsz then do
      match ← walkpgdir pgdir a false with
      | none =>
        deallocLoop pgdir oldsz fuel
          (((PGADDR (PDX a + 1) 0 0 + (2 ^ 32 - PGSIZE)) % 2 ^ 32 + PGSIZE) % 2 ^ 32)
      | some pte => do
        let e ← load pte
        if e &&& PTE_P ≠ 0 then
          if pageOf e = 0 then throw .kfree
          else do
            kfree L (pageOf e)
            store pte 0
            deallocLoop pgdir oldsz fuel ((a + PGSIZE) % 2 ^ 32)
        else deallocLoop pgdir oldsz fuel ((a + PGSIZE) % 2 ^ 32)
    else return

def deallocuvm (pgdir oldsz newsz : ℕ) : Kernel ℕ :=
  if oldsz ≤ newsz then return oldsz
  else do
    deallocLoop L pgdir oldsz (NPDENTRIES * NPTENTRIES) (PGROUNDUP newsz)
    return newsz

/-- `if(pgdir[i] & PTE_P) kfree(P2V(PTE_ADDR(pgdir[i])))`. -/
def freeTable (pgdir i : ℕ) : Kernel Unit := do
  let e ← load (pgdir, i)
  if e &&& PTE_P ≠ 0 then kfree L (pageOf e) else return

def freevm (pgdir : ℕ) : Kernel Unit :=
  if pgdir = 0 then throw .freevm
  else do
    let _ ← deallocuvm L pgdir KERNBASE 0
    (List.range NPDENTRIES).forM (freeTable L pgdir)
    kfree L pgdir

/-- The loop of `setupkvm` over `kmap`. -/
def mapAll (pgdir : ℕ) : List Kmap → Kernel Bool
  | [] => return true
  | k :: ks => do
    let ok ← mappages pgdir k.virt ((k.physEnd + 2 ^ 32 - k.physStart) % 2 ^ 32) k.physStart k.perm
    if ok then mapAll pgdir ks else return false

def setupkvm : Kernel (Option ℕ) := do
  match ← kalloc with
  | none => return none
  | some pgdir => do
    memset pgdir 0
    if DEVSPACE < KERNBASE + PHYSTOP then throw .physTooHigh
    else do
      let ok ← mapAll pgdir (kmap L)
      if ok then return some pgdir
      else do
        freevm L pgdir
        return none

/-- The loop of `allocuvm` from `a` on. -/
def allocLoop (pgdir oldsz newsz : ℕ) : ℕ → ℕ → Kernel ℕ
  | 0, _ => throw .spin
  | fuel + 1, a =>
    if a < newsz then do
      match ← kalloc with
      | none => do
        let _ ← deallocuvm L pgdir newsz oldsz
        return 0
      | some mem => do
        memset mem 0
        let ok ← mappages pgdir a PGSIZE (mem * PGSIZE) (PTE_W ||| PTE_U)
        if ok then allocLoop pgdir oldsz newsz fuel ((a + PGSIZE) % 2 ^ 32)
        else do
          let _ ← deallocuvm L pgdir newsz oldsz
          kfree L mem
          return 0
    else return newsz

def allocuvm (pgdir oldsz newsz : ℕ) : Kernel ℕ :=
  if KERNBASE ≤ newsz then return 0
  else if newsz < oldsz then return oldsz
  else allocLoop L pgdir oldsz newsz (NPDENTRIES * NPTENTRIES) (PGROUNDUP oldsz)

/-- `*pte &= ~PTE_U`. -/
def clearpteu (pgdir uva : ℕ) : Kernel Unit := do
  match ← walkpgdir pgdir uva false with
  | none => throw .clearpteu
  | some pte => do
    let e ← load pte
    store pte (e &&& (2 ^ 32 - 1 - PTE_U))

/-- The loop of `copyuvm` from `i` on; `false` is the jump to `bad`. -/
def copyuvmLoop (pgdir d sz : ℕ) : ℕ → ℕ → Kernel Bool
  | 0, _ => throw .spin
  | fuel + 1, i =>
    if i < sz then do
      match ← walkpgdir pgdir i false with
      | none => throw .copyuvm
      | some pte => do
        let e ← load pte
        if e &&& PTE_P = 0 then throw .copyuvm
        else do
          match ← kalloc with
          | none => return false
          | some mem => do
            modify (fun s => s.setPage mem (s.page (pageOf e)))
            let ok ← mappages d i PGSIZE (mem * PGSIZE) (PTE_FLAGS e)
            if ok then copyuvmLoop pgdir d sz fuel ((i + PGSIZE) % 2 ^ 32)
            else do
              kfree L mem
              return false
    else return true

def copyuvm (pgdir sz : ℕ) : Kernel (Option ℕ) := do
  match ← setupkvm L with
  | none => return none
  | some d => do
    let ok ← copyuvmLoop L pgdir d sz (NPDENTRIES * NPTENTRIES) 0
    if ok then return some d
    else do
      freevm L d
      return none

/-- The page that the kernel writes to for the user page of `uva`. `*pte` is read without asking
whether `pte` is null. -/
def uva2ka (pgdir uva : ℕ) : Kernel (Option ℕ) := do
  match ← walkpgdir pgdir uva false with
  | none => throw .null
  | some pte => do
    let e ← load pte
    if e &&& PTE_P = 0 then return none
    else if e &&& PTE_U = 0 then return none
    else return some (pageOf e)

/-- The loop of `copyout`, with what is left of the source for `buf` and `len`; each turn copies
at least one byte. -/
def copyoutLoop (pgdir : ℕ) : ℕ → ℕ → List UInt8 → Kernel ℤ
  | 0, _, _ => throw .spin
  | fuel + 1, va, buf =>
    if 0 < buf.length then do
      match ← uva2ka pgdir (PGROUNDDOWN va) with
      | none => return -1
      | some pa0 => do
        let off := va - PGROUNDDOWN va
        let n := min (PGSIZE - off) buf.length
        modify (fun s => s.setPage pa0 ((s.page pa0).store off (buf.take n)))
        copyoutLoop pgdir fuel ((PGROUNDDOWN va + PGSIZE) % 2 ^ 32) (buf.drop n)
    else return 0

def copyout (pgdir va : ℕ) (buf : List UInt8) : Kernel ℤ :=
  copyoutLoop pgdir (buf.length + 1) va buf

/-! ## growproc -/

/-- What `growproc` reads and writes of `struct proc`. -/
structure Proc where
  pgdir : ℕ
  sz : ℕ
  kstack : ℕ

/-- `switchuvm` as far as memory goes: nothing but its checks. -/
def switchuvm (p : Proc) : Kernel Unit :=
  if p.kstack = 0 then throw .switchuvm
  else if p.pgdir = 0 then throw .switchuvm
  else return

/-- `sz + n` as a `uint`. -/
def grownSize (sz : ℕ) (n : ℤ) : ℕ := ((sz + n) % 2 ^ 32).toNat

/-- `growproc(n)` for the process `curproc`, which it returns as it leaves it. -/
def growproc (curproc : Proc) (n : ℤ) : Kernel (ℤ × Proc) := do
  let sz ←
    if 0 < n then allocuvm L curproc.pgdir curproc.sz (grownSize curproc.sz n)
    else if n < 0 then deallocuvm L curproc.pgdir curproc.sz (grownSize curproc.sz n)
    else pure curproc.sz
  if n ≠ 0 ∧ sz = 0 then return (-1, curproc)
  else do
    switchuvm { curproc with sz := sz }
    return (0, { curproc with sz := sz })

end Ostep.PageTables

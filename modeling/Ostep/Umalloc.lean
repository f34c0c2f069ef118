import Ostep.Hoare
import Ostep.SinglyLinked
import Ostep.TransitionSystem
import Mathlib.Algebra.Group.Int.Defs
import Mathlib.Algebra.Ring.Nat
import Mathlib.Data.Int.Init
import Mathlib.Data.Int.Notation

/-!
# malloc

umalloc.c: a ring of free blocks in the order of their addresses, with the static `base` first. A
block is a header and what follows it, counted in headers; memory is its headers by address, and
a pointer or a `uint` is a number below `2 ^ 32`. What `sbrk` does is left open but for what it
promises. The calls of it are recorded.
-/

namespace Ostep.Umalloc
open Hoare SinglyLinked TransitionSystem

/-- `sizeof(Header)`. -/
abbrev HDR : ℕ := 8

structure Header where
  ptr : ℕ
  size : ℕ
  deriving DecidableEq

/-- The address of `base`, the break at the start, and which calls of `sbrk` succeed. -/
structure Env where
  base : ℕ
  start : ℕ
  grants : ℕ → ℤ → Bool
  base_pos : 0 < base
  base_le : base + HDR ≤ start
  start_lt : start < 2 ^ 32
  fits : ∀ b n, grants b n = true → 0 ≤ b + n ∧ (b : ℤ) + n < 2 ^ 32

/-- `calls` are the calls of `sbrk` with their results, the last first. -/
structure Heap where
  header : ℕ → Header
  freep : ℕ
  brk : ℕ
  calls : List (ℤ × Option ℕ)

/-- A loop that does not end. -/
inductive Fault where
  | spin
  deriving DecidableEq

abbrev Alloc : Type → Type := StateT Heap (Except Fault)

/-- More turns than there are headers to visit. -/
abbrev FUEL : ℕ := 2 ^ 34

/-- A `uint` taken for an `int`. -/
def toInt (n : ℕ) : ℤ := (n : ℤ).bmod (2 ^ 32)

/-- `p + n` and `p - 1` for a `Header *p`. -/
def after (p n : ℕ) : ℕ := (p + HDR * n) % 2 ^ 32
def before (p : ℕ) : ℕ := (p + 2 ^ 32 - HDR) % 2 ^ 32

def Heap.next (h : Heap) (p : ℕ) : ℕ := (h.header p).ptr
def Heap.size (h : Heap) (p : ℕ) : ℕ := (h.header p).size

def Heap.set (h : Heap) (p : ℕ) (x : Header) : Heap :=
  { h with header := Function.update h.header p x }

def set (p : ℕ) (x : Header) : Alloc Unit := modify (·.set p x)

def setFreep (p : ℕ) : Alloc Unit := modify (fun h => { h with freep := p })

variable (E : Env)

/-- `none` is -1. -/
def sbrk (n : ℤ) : Alloc (Option ℕ) := do
  let h ← get
  if E.grants h.brk n then do
    modify (fun h => { h with brk := (h.brk + n).toNat, calls := (n, some h.brk) :: h.calls })
    return some h.brk
  else do
    modify (fun h => { h with calls := (n, none) :: h.calls })
    return none

/-- The loop of `free`. -/
def freeLoop (bp : ℕ) : ℕ → ℕ → Alloc ℕ
  | 0, _ => throw .spin
  | fuel + 1, p => do
    let h ← get
    if p < bp ∧ bp < h.next p then return p
    else if h.next p ≤ p ∧ (p < bp ∨ bp < h.next p) then return p
    else freeLoop bp fuel (h.next p)

/-- `bp` takes the block behind it, or is linked to it. -/
def Heap.joinUpper (h : Heap) (p bp : ℕ) : Heap :=
  if after bp (h.size bp) = h.next p then
    h.set bp ⟨h.next (h.next p), (h.size bp + h.size (h.next p)) % 2 ^ 32⟩
  else h.set bp ⟨h.next p, h.size bp⟩

/-- `p` takes `bp`, or is linked to it. -/
def Heap.joinLower (h : Heap) (p bp : ℕ) : Heap :=
  if after p (h.size p) = bp then h.set p ⟨h.next bp, (h.size p + h.size bp) % 2 ^ 32⟩
  else h.set p ⟨bp, h.size p⟩

def free (ap : ℕ) : Alloc Unit := do
  let bp := before ap
  let h ← get
  let p ← freeLoop bp FUEL h.freep
  modify (fun h => (h.joinUpper p bp).joinLower p bp)
  setFreep p

def morecore (nu : ℕ) : Alloc ℕ := do
  let nu := if nu < 4096 then 4096 else nu
  match ← sbrk E (toInt (nu * HDR % 2 ^ 32)) with
  | none => return 0
  | some p => do
    let h ← get
    set p ⟨h.next p, nu⟩
    free (after p 1)
    let h ← get
    return h.freep

/-- The block `p`, or the end of it, is taken. -/
def take (nunits prevp p : ℕ) : Alloc ℕ := do
  let h ← get
  if h.size p = nunits then do
    set prevp ⟨h.next p, h.size prevp⟩
    setFreep prevp
    return after p 1
  else do
    let q := after p (h.size p - nunits)
    set p ⟨h.next p, h.size p - nunits⟩
    let h ← get
    set q ⟨h.next q, nunits⟩
    setFreep prevp
    return after q 1

/-- The loop of `malloc`. -/
def mallocLoop (nunits : ℕ) : ℕ → ℕ → ℕ → Alloc ℕ
  | 0, _, _ => throw .spin
  | fuel + 1, prevp, p => do
    let h ← get
    if nunits ≤ h.size p then take nunits prevp p
    else if p = h.freep then do
      let q ← morecore E nunits
      if q = 0 then return 0
      else do
        let h ← get
        mallocLoop nunits fuel q (h.next q)
    else mallocLoop nunits fuel p (h.next p)

/-- The number of headers for `nbytes`, as `malloc` computes it. -/
def unitsFor (nbytes : ℕ) : ℕ := (nbytes + HDR - 1) % 2 ^ 32 / HDR + 1

/-- The ring of `base` alone, which the first call makes. -/
def Heap.init (E : Env) (h : Heap) : Heap :=
  if h.freep = 0 then { h.set E.base ⟨E.base, 0⟩ with freep := E.base } else h

def malloc (nbytes : ℕ) : Alloc ℕ := do
  modify (Heap.init E)
  let h ← get
  mallocLoop E (unitsFor nbytes) FUEL h.freep (h.next h.freep)

/-! ## A program that calls malloc, free and sbrk -/

inductive HeapEvent where
  | malloc (nbytes : ℕ)
  | free (a : ℕ)
  | sbrk (n : ℤ)
  | write

/-- The program frees what it has got, does not shrink the heap and leaves headers alone. -/
inductive HeapStep : Heap × List ℕ → HeapEvent → Heap × List ℕ → Prop where
  | malloc_zero (h t live nbytes) (hn : nbytes < 2 ^ 32)
      (hrun : Umalloc.malloc E nbytes h = .ok (0, t)) :
      HeapStep (h, live) (.malloc nbytes) (t, live)
  | malloc (h t live nbytes r) (hn : nbytes < 2 ^ 32)
      (hrun : Umalloc.malloc E nbytes h = .ok (r, t)) (hr : r ≠ 0) :
      HeapStep (h, live) (.malloc nbytes) (t, before r :: live)
  | free (h t live a) (ha : a ∈ live) (hrun : Umalloc.free (after a 1) h = .ok ((), t)) :
      HeapStep (h, live) (.free a) (t, live.erase a)
  | sbrk (h t live n x) (hn : 0 ≤ n) (hrun : Umalloc.sbrk E n h = .ok (x, t)) :
      HeapStep (h, live) (.sbrk n) (t, live)
  | write (h live) (f : ℕ → Header)
      (hbase : ∀ k, f (h.next^[k] E.base) = h.header (h.next^[k] E.base))
      (hlive : ∀ a ∈ live, f a = h.header a) :
      HeapStep (h, live) .write ({ h with header := f }, live)

def heapSystem : System (Heap × List ℕ) HeapEvent where
  init s := s.1.freep = 0 ∧ s.1.brk = E.start ∧ s.1.calls = [] ∧ s.2 = []
  step := HeapStep E

end Ostep.Umalloc

import Ostep.LinkedRing
import Ostep.LogOps
import Mathlib.Data.Fin.Basic
import Mathlib.Data.List.FinRange

/-!
# The buffer cache

Any number of processes call `bread`, change the data of buffers they hold, and call
`log_write`, `bwrite` and `brelse`; the disk interrupts when it is done. A step is one critical
section on `bcache.lock`, on a buffer's sleep lock or on `idelock`. `commit` and
`recover_from_log` are such processes: `write_log` and `install_trans` copy the data of one held
buffer into another and call `bwrite`.

A write reaches the disk when `idestart` hands its data over: the disk does nothing else until
the interrupt.
-/

namespace Ostep.BufferCache
open TransitionSystem LinkedRing
open LogOps (MAXOPBLOCKS)

abbrev NBUF : ℕ := MAXOPBLOCKS * 3
abbrev FSSIZE : ℕ := 1000
abbrev ROOTDEV : ℕ := 1

structure Buf (ι δ : Type*) where
  /-- `B_VALID`. -/
  valid : Bool
  /-- `B_DIRTY`. -/
  dirty : Bool
  dev : ℕ
  blockno : ℕ
  refcnt : ℕ
  /-- The holder of `b->lock`. -/
  lock : Option ι
  data : δ

/-- `none` is `bcache.head`. -/
abbrev Node : Type := Option (Fin NBUF)

inductive Pc where
  /-- Between calls, with any number of buffers held. -/
  | user
  /-- `bget` has found its buffer: `acquiresleep(&b->lock)`. -/
  | bget (b : Fin NBUF) (blockno : ℕ)
  /-- `bread` tests `B_VALID`. -/
  | bread (b : Fin NBUF) (blockno : ℕ)
  /-- `iderw`, called by `bread` of the block or by `bwrite`. -/
  | iderw (b : Fin NBUF) (reading : Option ℕ)
  | ideWait (b : Fin NBUF) (reading : Option ℕ)
  /-- `brelse`, past `releasesleep`. -/
  | brelse (b : Fin NBUF)
  deriving DecidableEq, Repr

variable {ι δ : Type*}

structure St (ι δ : Type*) where
  /-- The blocks of the root device. -/
  disk : ℕ → δ
  buf : Fin NBUF → Buf ι δ
  links : Links Node
  idequeue : List (Fin NBUF)
  pc : ι → Pc

/-- The links `binit` leaves. -/
def binit : Links Node :=
  (List.finRange NBUF).foldl (fun k b => k.linkFirst none (some b)) ⟨fun _ => none, fun _ => none⟩

def St.setBuf (s : St ι δ) (b : Fin NBUF) (v : Buf ι δ) : St ι δ :=
  { s with buf := Function.update s.buf b v }

/-- A test of the buffer at a node. -/
def atNode (p : Fin NBUF → Bool) : Node → Bool
  | some b => p b
  | none => false

def Buf.caches (v : Buf ι δ) (blockno : ℕ) : Bool := v.dev = ROOTDEV && v.blockno = blockno

/-- The first loop of `bget`. -/
def St.lookup (s : St ι δ) (blockno : ℕ) : Option (Option (Fin NBUF)) :=
  (Links.scan s.links.next none (atNode fun b => (s.buf b).caches blockno) (NBUF + 1)
    (s.links.next none)).map Option.join

/-- The second loop of `bget`. -/
def St.unused (s : St ι δ) : Option (Option (Fin NBUF)) :=
  (Links.scan s.links.prev none (atNode fun b => (s.buf b).refcnt = 0 && !(s.buf b).dirty)
    (NBUF + 1) (s.links.prev none)).map Option.join

variable [DecidableEq ι]

def St.goto (s : St ι δ) (q : ι) (pc : Pc) : St ι δ := { s with pc := Function.update s.pc q pc }

/-- `bget`, up to the sleep lock. -/
def bget (s : St ι δ) (q : ι) (blockno : ℕ) : Option (St ι δ) :=
  match s.lookup blockno with
  | some (some b) =>
    some ((s.setBuf b { s.buf b with refcnt := (s.buf b).refcnt + 1 }).goto q (.bget b blockno))
  | some none =>
    match s.unused with
    | some (some b) =>
      some ((s.setBuf b { s.buf b with
        dev := ROOTDEV, blockno := blockno, valid := false, dirty := false
        refcnt := 1 }).goto q (.bget b blockno))
    -- "bget: no buffers"
    | _ => none
  | none => none

/-- `idestart`: the data of a write goes to the disk. -/
def idestart (s : St ι δ) (b : Fin NBUF) : St ι δ :=
  if (s.buf b).dirty then
    { s with disk := Function.update s.disk (s.buf b).blockno (s.buf b).data }
  else s

/-- `iderw`, up to its waiting loop. -/
def iderw (s : St ι δ) (q : ι) (b : Fin NBUF) (reading : Option ℕ) : Option (St ι δ) :=
  -- "iderw: buf not locked", "iderw: nothing to do"
  if (s.buf b).lock ≠ some q ∨ ((s.buf b).valid && !(s.buf b).dirty) then none
  else
    let s := { s with idequeue := s.idequeue ++ [b] }
    some ((if s.idequeue.head? = some b then idestart s b else s).goto q (.ideWait b reading))

def ideintr (s : St ι δ) : St ι δ :=
  match s.idequeue with
  | [] => s
  | b :: rest =>
    let v := s.buf b
    let data := if v.dirty then v.data else s.disk v.blockno
    let s := { s with idequeue := rest }.setBuf b
      { v with data := data, valid := true, dirty := false }
    match rest with
    | [] => s
    | c :: _ => idestart s c

/-- `brelse` under `bcache.lock`. -/
def brelsePut (s : St ι δ) (b : Fin NBUF) : St ι δ :=
  let s := s.setBuf b { s.buf b with refcnt := (s.buf b).refcnt - 1 }
  if (s.buf b).refcnt = 0 then
    { s with links := (s.links.unlink (some b)).linkFirst none (some b) }
  else s

/-- The next step of process `q`; `none` when it is in no call, waits or panics. -/
def stepOf (s : St ι δ) (q : ι) : Option (St ι δ) :=
  match s.pc q with
  | .user => none
  | .bget b x =>
    if (s.buf b).lock = none then
      some ((s.setBuf b { s.buf b with lock := some q }).goto q (.bread b x))
    else none
  | .bread b x => some (s.goto q (if (s.buf b).valid then .user else .iderw b (some x)))
  | .iderw b reading => iderw s q b reading
  | .ideWait b _ => if (s.buf b).valid && !(s.buf b).dirty then some (s.goto q .user) else none
  | .brelse b => some ((brelsePut s b).goto q .user)

inductive Event (ι δ : Type*) where
  | bread (q : ι) (blockno : ℕ)
  /-- `q` changes the data of a buffer it holds. -/
  | modify (q : ι) (b : Fin NBUF) (v : δ)
  | logWrite (q : ι) (b : Fin NBUF)
  | bwrite (q : ι) (b : Fin NBUF)
  | brelse (q : ι) (b : Fin NBUF)
  | step (q : ι)
  | ideintr

/-- `q` is between calls and holds `b`. -/
def St.Holds (s : St ι δ) (q : ι) (b : Fin NBUF) : Prop :=
  s.pc q = .user ∧ (s.buf b).lock = some q

instance (s : St ι δ) (q : ι) (b : Fin NBUF) : Decidable (s.Holds q b) := by
  unfold St.Holds
  infer_instance

def next (s : St ι δ) : Event ι δ → Option (St ι δ)
  -- otherwise "incorrect blockno"
  | .bread q x => if s.pc q = .user ∧ x < FSSIZE then bget s q x else none
  | .modify q b v => if s.Holds q b then some (s.setBuf b { s.buf b with data := v }) else none
  | .logWrite q b => if s.Holds q b then some (s.setBuf b { s.buf b with dirty := true }) else none
  | .bwrite q b =>
    if s.Holds q b then
      some ((s.setBuf b { s.buf b with dirty := true }).goto q (.iderw b none))
    else none
  | .brelse q b =>
    if s.Holds q b then some ((s.setBuf b { s.buf b with lock := none }).goto q (.brelse b))
    else none
  | .step q => stepOf s q
  | .ideintr => some (ideintr s)

/-- After `binit`, over any disk. -/
def Initial (image : ℕ → δ) (s : St ι δ) : Prop :=
  s.disk = image ∧ s.links = binit ∧ s.idequeue = [] ∧ (∀ q, s.pc q = .user) ∧
    ∀ b, (s.buf b).valid = false ∧ (s.buf b).dirty = false ∧ (s.buf b).dev = 0 ∧
      (s.buf b).refcnt = 0 ∧ (s.buf b).lock = none

def system (image : ℕ → δ) : System (St ι δ) (Event ι δ) := .ofNext (Initial image) next

/-! ## The history -/

inductive Entry (δ : Type*) where
  /-- A holder of the block's buffer called `log_write` or `bwrite`. -/
  | wrote (blockno : ℕ) (v : δ)
  /-- `bread` of the block returned a buffer with this data. -/
  | returned (blockno : ℕ) (v : δ)
  deriving DecidableEq

/-- What was called, newest first, and which buffers have been changed since. -/
structure History (δ : Type*) where
  log : List (Entry δ)
  touched : Fin NBUF → Bool

/-- What `bread` returns in this step, if that is what the step does. -/
def returns (s : St ι δ) (q : ι) : Option (Entry δ) :=
  match s.pc q with
  | .bread b x => if (s.buf b).valid then some (.returned x (s.buf b).data) else none
  | .ideWait b (some x) => some (.returned x (s.buf b).data)
  | _ => none

def record (s : St ι δ) (e : Event ι δ) (h : History δ) : History δ :=
  match e with
  | .modify _ b _ => { h with touched := Function.update h.touched b true }
  | .logWrite _ b | .bwrite _ b =>
    { log := .wrote (s.buf b).blockno (s.buf b).data :: h.log
      touched := Function.update h.touched b false }
  | .step q =>
    match returns s q with
    | some entry => { h with log := entry :: h.log }
    | none => h
  | _ => h

/-- The block as last written, starting from the disk image. -/
def lastWritten (image : ℕ → δ) : List (Entry δ) → ℕ → δ
  | [], x => image x
  | .wrote y v :: log, x => if y = x then v else lastWritten image log x
  | .returned _ _ :: log, x => lastWritten image log x

/-- Whoever has changed a buffer calls `log_write` or `bwrite` before `brelse`. -/
def Written (h : History δ) : Event ι δ → Prop
  | .brelse _ b => h.touched b = false
  | _ => True

instance (h : History δ) (e : Event ι δ) : Decidable (Written h e) := by
  cases e <;> unfold Written <;> infer_instance

/-- Every run in which changes are written. -/
def runs (image : ℕ → δ) : System (St ι δ × History δ) (Event ι δ) :=
  ((system image).observe ⟨[], fun _ => false⟩ record).restrict fun p e _ => Written p.2 e

end Ostep.BufferCache

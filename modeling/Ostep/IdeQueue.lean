import Ostep.SinglyLinked
import Ostep.TransitionSystem
import Mathlib.Algebra.Group.Nat.Defs
import Mathlib.Data.Fintype.Card

/-!
# The disk's request queue

Processes call `iderw` on buffers that they hold; the disk completes a command and raises one
interrupt for it, which `ideintr` handles. `idelock` is explicit, and what is done under it is cut
into the changes to the queue, to the disk and to the flags. Waiting for the disk to be ready and
the interrupt controller are left out.
-/

namespace Ostep.IdeQueue
open SinglyLinked TransitionSystem

abbrev FSSIZE : ℕ := 1000

structure Buf (δ : Type*) where
  /-- `B_VALID` and `B_DIRTY`. -/
  valid : Bool
  dirty : Bool
  dev : ℕ
  blockno : ℕ
  data : δ

/-- `(b->flags & (B_VALID|B_DIRTY)) == B_VALID`. -/
def Buf.done {δ : Type*} (b : Buf δ) : Bool := b.valid && !b.dirty

/-- What `idestart` writes to the registers; a write also sends its data. -/
structure Cmd (δ : Type*) where
  drive : ℕ
  sector : ℕ
  write : Option δ

/-- The command for a request; a block is one sector. -/
def Buf.cmd {δ : Type*} (b : Buf δ) : Cmd δ :=
  ⟨b.dev % 2, b.blockno % 2 ^ 28, if b.dirty then some b.data else none⟩

inductive Disk (δ : Type*) where
  | idle
  | busy (c : Cmd δ)
  /-- Completed, and the interrupt raised. -/
  | done (c : Cmd δ)
  /-- `ideintr` has been entered. -/
  | taken (c : Cmd δ)

def Disk.cmd {δ : Type*} : Disk δ → Option (Cmd δ)
  | .idle => none
  | .busy c | .done c | .taken c => some c

inductive Panic where
  | notLocked
  | nothingToDo
  | noDisk1
  | blockno
  /-- `idestart(0)`. -/
  | idestart
  /-- The loop over the queue does not end. -/
  | spin
  deriving DecidableEq

/-- Where a process is in `iderw(b)`. -/
inductive Pc (β : Type*) where
  | idle
  | acquire (b : β)
  | append (b : β)
  /-- `if(idequeue == b) idestart(b)`. -/
  | start (b : β)
  /-- The test of the waiting loop. -/
  | wait (b : β)
  | asleep (b : β)
  | release (b : β)
  deriving DecidableEq

inductive IntrPc where
  | idle
  | acquire
  /-- The queue's head is taken off and completed. -/
  | complete
  /-- `if(idequeue != 0) idestart(idequeue)`. -/
  | start
  | release
  deriving DecidableEq

inductive Holder (ι : Type*) where
  | proc (q : ι)
  | intr
  deriving DecidableEq

variable {ι β δ : Type*}

structure St (ι β δ : Type*) where
  buf : β → Buf δ
  /-- The process that holds `b->lock`. -/
  held : β → Option ι
  /-- The pointers of the queue by the places they are in: `none` is `idequeue`, `some b` is
  `b->qnext`, and a null pointer is `none`. -/
  link : Option β → Option β
  disk : Disk δ
  havedisk1 : Bool
  /-- The holder of `idelock`. -/
  lock : Option (Holder ι)
  pc : ι → Pc β
  intr : IntrPc
  sleeping : ι → Bool
  panic : Option Panic

/-- `for(pp=&idequeue; *pp; pp=&(*pp)->qnext)`: the place of the pointer that ends the queue. -/
def tail (link : Option β → Option β) : ℕ → Option β → Option (Option β)
  | 0, _ => none
  | fuel + 1, pp =>
    match link pp with
    | none => some pp
    | some b => tail link fuel (some b)

variable [DecidableEq ι] [DecidableEq β]

def St.goto (s : St ι β δ) (q : ι) (pc : Pc β) : St ι β δ :=
  { s with pc := Function.update s.pc q pc }

def St.fail (s : St ι β δ) (p : Panic) : St ι β δ := { s with panic := some p }

/-- `idestart`; the flag says that it returns. -/
def idestart (s : St ι β δ) : Option β → St ι β δ × Bool
  | none => (s.fail .idestart, false)
  | some b =>
    if (s.buf b).blockno ≥ FSSIZE then (s.fail .blockno, false)
    else ({ s with disk := .busy (s.buf b).cmd }, true)

/-- `iderw` up to `acquire(&idelock)`. -/
def iderw (s : St ι β δ) (q : ι) (b : β) : St ι β δ :=
  if s.held b ≠ some q then s.fail .notLocked
  else if (s.buf b).done then s.fail .nothingToDo
  else if (s.buf b).dev ≠ 0 ∧ s.havedisk1 = false then s.fail .noDisk1
  else s.goto q (.acquire b)

/-- `b->qnext = 0`, and `*pp = b` at the end of the queue. -/
def append (s : St ι β δ) (fuel : ℕ) (b : β) : St ι β δ × Bool :=
  let link := Function.update s.link (some b) none
  match tail link fuel none with
  | none => (s.fail .spin, false)
  | some pp => ({ s with link := Function.update link pp (some b) }, true)

/-- The next step of process `q` in `iderw`, of which `fuel` bounds the loop over the queue. -/
def stepOf (fuel : ℕ) (s : St ι β δ) (q : ι) : Option (St ι β δ) :=
  match s.pc q with
  | .idle => none
  | .acquire b =>
    if s.lock = none then some ({ s with lock := some (.proc q) }.goto q (.append b)) else none
  | .append b =>
    let (t, ok) := append s fuel b
    some (if ok then t.goto q (.start b) else t)
  | .start b =>
    if s.link none = some b then
      let (t, ok) := idestart s (some b)
      some (if ok then t.goto q (.wait b) else t)
    else some (s.goto q (.wait b))
  | .wait b =>
    if (s.buf b).done then some (s.goto q (.release b))
    else some ({ s with
      lock := none, sleeping := Function.update s.sleeping q true }.goto q (.asleep b))
  | .asleep b =>
    if s.sleeping q = false ∧ s.lock = none then
      some ({ s with lock := some (.proc q) }.goto q (.wait b))
    else none
  | .release _ => some ({ s with lock := none }.goto q .idle)

/-- `wakeup(b)`. -/
def St.wakeup (s : St ι β δ) (b : β) : St ι β δ :=
  { s with sleeping := fun q => s.sleeping q && decide (s.pc q ≠ .asleep b) }

/-- The next step of `ideintr`. `err` is what `idewait(1)` says, `d` what `insl` reads. -/
def intrStep (s : St ι β δ) (err : Bool) (d : δ) : Option (St ι β δ) :=
  match s.intr with
  | .idle => none
  | .acquire => if s.lock = none then some { s with lock := some .intr, intr := .complete } else none
  | .complete =>
    match s.link none with
    | none => some { s with intr := .release }
    | some b =>
      let data := if !(s.buf b).dirty && !err then d else (s.buf b).data
      some ({ s with
        link := Function.update s.link none (s.link (some b))
        buf := Function.update s.buf b { s.buf b with data := data, valid := true, dirty := false }
        disk := .idle
        intr := .start }.wakeup b)
  | .start =>
    if s.link none ≠ none then
      let (t, ok) := idestart s (s.link none)
      some (if ok then { t with intr := .release } else t)
    else some { s with intr := .release }
  | .release => some { s with lock := none, intr := .idle }

inductive Event (ι β δ : Type*) where
  | iderw (q : ι) (b : β)
  | step (q : ι)
  /-- The disk completes its command. -/
  | complete
  /-- The interrupt is taken. -/
  | interrupt
  | intrStep (err : Bool) (d : δ)
  /-- A process that is not in `iderw` locks a buffer, uses it, unlocks it. -/
  | hold (q : ι) (b : β)
  | use (q : ι) (b : β) (dirty : Bool) (d : δ)
  | drop (q : ι) (b : β)
  /-- `bget` gives a buffer that nobody holds to another block. -/
  | recycle (b : β) (dev blockno : ℕ)
  /-- `kill`. -/
  | wake (q : ι)

def next (fuel : ℕ) (s : St ι β δ) (e : Event ι β δ) : Option (St ι β δ) :=
  if s.panic.isSome then none
  else match e with
  | .iderw q b => if s.pc q = .idle then some (iderw s q b) else none
  | .step q => stepOf fuel s q
  | .complete => match s.disk with
    | .busy c => some { s with disk := .done c }
    | _ => none
  | .interrupt => match s.disk with
    | .done c =>
      if s.intr = .idle then some { s with disk := .taken c, intr := .acquire } else none
    | _ => none
  | .intrStep err d => intrStep s err d
  | .hold q b =>
    if s.pc q = .idle ∧ s.held b = none then
      some { s with held := Function.update s.held b (some q) }
    else none
  | .use q b dirty d =>
    if s.pc q = .idle ∧ s.held b = some q then
      some { s with buf := Function.update s.buf b { s.buf b with dirty := dirty, data := d } }
    else none
  | .drop q b =>
    if s.pc q = .idle ∧ s.held b = some q then
      some { s with held := Function.update s.held b none }
    else none
  | .recycle b dev blockno =>
    if s.held b = none then
      some { s with
        buf := Function.update s.buf b
          { s.buf b with valid := false, dirty := false, dev := dev, blockno := blockno } }
    else none
  | .wake q => some { s with sleeping := Function.update s.sleeping q false }

/-- After `ideinit` and `binit`. -/
def Initial (s : St ι β δ) : Prop :=
  (∀ b, s.held b = none) ∧ (∀ p, s.link p = none) ∧ s.disk = .idle ∧ s.lock = none ∧
    (∀ q, s.pc q = .idle) ∧ s.intr = .idle ∧ s.panic = none

/-! ## What has been appended, started and completed -/

structure History (β : Type*) where
  appended : List β
  started : List β
  completed : List β

def record (s : St ι β δ) (e : Event ι β δ) (h : History β) : History β :=
  match e with
  | .step q =>
    match s.pc q with
    | .append b => { h with appended := h.appended ++ [b] }
    | .start b =>
      if s.link none = some b ∧ (idestart s (some b)).2 then { h with started := h.started ++ [b] }
      else h
    | _ => h
  | .intrStep _ _ =>
    match s.intr with
    | .complete => { h with completed := h.completed ++ (s.link none).toList }
    | .start =>
      if (idestart s (s.link none)).2 then { h with started := h.started ++ (s.link none).toList }
      else h
    | _ => h
  | _ => h

/-- The loop over the queue may run once for each buffer and once more. -/
def historySystem (ι β δ : Type*) [DecidableEq ι] [DecidableEq β] [Fintype β] :
    System (St ι β δ × History β) (Event ι β δ) :=
  (System.ofNext Initial (next (Fintype.card β + 1))).observe ⟨[], [], []⟩ record

/-! ## The invariant -/

def Pc.locks : Pc β → Bool
  | .append _ | .start _ | .wait _ | .release _ => true
  | _ => false

def IntrPc.locks : IntrPc → Bool
  | .complete | .start | .release => true
  | _ => false

def Pc.buf : Pc β → Option β
  | .idle => none
  | .acquire b | .append b | .start b | .wait b | .asleep b | .release b => some b

/-- The buffer that a process has appended and waits for. -/
def Pc.queued : Pc β → Option β
  | .start b | .wait b | .asleep b => some b
  | _ => none

/-- What process `q` knows, the queue being `l`. -/
def Local (s : St ι β δ) (l : List β) (q : ι) : Pc β → Prop
  | .idle => True
  | .acquire b | .append b => s.held b = some q ∧ (s.buf b).done = false
  | .start b => s.held b = some q ∧ b ∈ l ∧ (l.head? = some b → s.disk = .idle)
  | .wait b | .asleep b => s.held b = some q ∧ (b ∈ l ∨ (s.buf b).done = true)
  | .release b => s.held b = some q ∧ (s.buf b).done = true

/-- The interrupt handler is entered once for each completed command. -/
def IntrOk (disk : Disk δ) : IntrPc → Prop
  | .idle | .release => ∀ c, disk ≠ .taken c
  | .acquire | .complete => ∃ c, disk = .taken c
  | .start => disk = .idle

/-- The disk works for the head of the queue, or whoever has `idelock` is about to start it. -/
def Progress (s : St ι β δ) (h : History β) (l : List β) : Prop :=
  (s.disk = .idle ∧ h.started = h.completed ∧
      (l = [] ∨ s.intr = .start ∨ ∃ q b, s.pc q = .start b ∧ l.head? = some b)) ∨
    ∃ b l', l = b :: l' ∧ s.disk.cmd = some (s.buf b).cmd ∧ h.started = h.completed ++ [b]

structure Inv (s : St ι β δ) (h : History β) (l : List β) : Prop where
  linked : Path s.link none (l.map some) none
  nodup : l.Nodup
  appended : h.appended = h.completed ++ l
  lock_proc : ∀ q, s.lock = some (.proc q) ↔ (s.pc q).locks = true
  lock_intr : s.lock = some .intr ↔ s.intr.locks = true
  place : ∀ q, Local s l q (s.pc q)
  pending : ∀ b ∈ l, (s.buf b).done = false
  waiter : ∀ b ∈ l, ∃ q, (s.pc q).queued = some b
  intr : IntrOk s.disk s.intr
  progress : Progress s h l
  panic : s.panic ≠ some .idestart ∧ s.panic ≠ some .spin

section Queue
variable {link : Option β → Option β} {l : List β} {b : β}

omit [DecidableEq β] in
theorem Path.head_eq (h : Path link none (l.map some) none) : link none = l.head? := by
  cases l with
  | nil => exact h
  | cons b l => exact h.1

omit [DecidableEq β] in
/-- The loop ends at the last buffer. -/
theorem tail_eq {x : Option β} {fuel : ℕ} (h : Path link x (l.map some) none)
    (hfuel : l.length < fuel) :
    tail link fuel x = some ((x :: l.map some).getLast (List.cons_ne_nil _ _)) := by
  induction l generalizing x fuel with
  | nil =>
    obtain ⟨fuel, rfl⟩ : ∃ n, fuel = n + 1 := ⟨fuel - 1, by simp at hfuel; omega⟩
    have hx : link x = none := h
    simp [tail, hx]
  | cons b l ih =>
    obtain ⟨fuel, rfl⟩ : ∃ n, fuel = n + 1 := ⟨fuel - 1, by simp at hfuel; omega⟩
    have hx : link x = some b := h.1
    rw [tail, hx]
    exact ih h.2 (by simpa using hfuel)

theorem append_link {fuel : ℕ} (h : Path link none (l.map some) none) (hn : l.Nodup) (hb : b ∉ l)
    (hfuel : l.length < fuel) : ∃ pp, tail (Function.update link (some b) none) fuel none = some pp ∧
      Path (Function.update (Function.update link (some b) none) pp (some b)) none
        ((l ++ [b]).map some) none := by
  have hb' : some b ∉ none :: l.map some := by simp [hb]
  have hnew : Path (Function.update link (some b) none) none (l.map some) none := by
    refine h.congr fun a ha => Function.update_of_ne ?_ ..
    rintro rfl
    exact hb' ha
  refine ⟨_, tail_eq hnew hfuel, ?_⟩
  have hnodup : (none :: (l.map some ++ [])).Nodup := by
    rw [List.append_nil, List.nodup_cons]
    exact ⟨by simp, hn.map (Option.some_injective β)⟩
  have hins := Path.insert (l := l.map some) (m := []) (b := some b) (by rwa [List.append_nil])
    hnodup (by rwa [List.append_nil]) rfl h.last
  rwa [List.map_append]

end Queue

section Steps
variable {s t : St ι β δ} {h : History β} {l : List β} {q : ι} {b : β} {pc : Pc β}

omit [DecidableEq ι] [DecidableEq β] in
theorem Inv.head_eq (hs : Inv s h l) : s.link none = l.head? := Path.head_eq hs.linked

omit [DecidableEq ι] [DecidableEq β] in
theorem Local.congr {r : ι} (hheld : t.held = s.held) (hbuf : t.buf = s.buf)
    (hdisk : t.disk = s.disk) : Local t l r pc ↔ Local s l r pc := by
  cases pc <;> simp only [Local, hheld, hbuf, hdisk]

omit [DecidableEq β] [DecidableEq ι] in
theorem Pc.buf_of_queued (h : pc.queued = some b) : pc.buf = some b := by
  cases pc <;> first | exact h | cases h

omit [DecidableEq ι] [DecidableEq β] in
/-- A process in `iderw` holds its buffer. -/
theorem Inv.held_of_buf (hs : Inv s h l) (hq : (s.pc q).buf = some b) : s.held b = some q := by
  have hplace := hs.place q
  cases hpc : s.pc q <;> simp only [hpc, Pc.buf, Option.some.injEq, reduceCtorEq] at hq hplace
  all_goals exact hq ▸ hplace.1

omit [DecidableEq ι] [DecidableEq β] in
/-- Nobody but who waits for it works on a buffer in the queue. -/
theorem Inv.queued_of_mem (hs : Inv s h l) (hb : b ∈ l) (hq : s.held b = some q) :
    (s.pc q).queued = some b := by
  obtain ⟨r, hr⟩ := hs.waiter b hb
  have hheld := hs.held_of_buf (Pc.buf_of_queued hr)
  rw [hheld] at hq
  exact Option.some.inj hq ▸ hr

omit [DecidableEq ι] [DecidableEq β] in
theorem Inv.holder_unique (hs : Inv s h l) {r : ι} (hq : (s.pc q).locks = true)
    (hr : (s.pc r).locks = true) : q = r := by
  have hlock := (hs.lock_proc q).mpr hq
  rw [(hs.lock_proc r).mpr hr] at hlock
  exact (Holder.proc.inj (Option.some.inj hlock)).symm

omit [DecidableEq ι] [DecidableEq β] in
theorem Inv.not_locks (hs : Inv s h l) (hi : s.intr.locks = true) (q : ι) :
    (s.pc q).locks = false := by
  by_contra hq
  have hlock := (hs.lock_proc q).mpr (by simpa using hq)
  rw [hs.lock_intr.mpr hi] at hlock
  cases hlock

omit [DecidableEq ι] [DecidableEq β] in
/-- A queue whose disk works for its head. -/
theorem Inv.active (hs : Inv s h l) (hd : s.disk ≠ .idle) : ∃ b l', l = b :: l' ∧
    s.disk.cmd = some (s.buf b).cmd ∧ h.started = h.completed ++ [b] := by
  rcases hs.progress with ⟨hidle, -⟩ | hactive
  · exact absurd hidle hd
  · exact hactive

omit [DecidableEq ι] [DecidableEq β] in
theorem Inv.started_of_idle (hs : Inv s h l) (hd : s.disk = .idle) : h.started = h.completed := by
  rcases hs.progress with ⟨-, hstarted, -⟩ | ⟨b, l', -, hcmd, -⟩
  · exact hstarted
  · rw [hd] at hcmd
    cases hcmd

/-- What process `q` does with `idelock` when it goes to `pc`. -/
def Relock (s t : St ι β δ) (q : ι) (pc : Pc β) : Prop :=
  t.lock = s.lock ∧ pc.locks = (s.pc q).locks ∨
  s.lock = none ∧ t.lock = some (.proc q) ∧ pc.locks = true ∨
  s.lock = some (.proc q) ∧ t.lock = none ∧ pc.locks = false

omit [DecidableEq β] in
theorem Inv.relock (hs : Inv s h l) (hpc : t.pc = Function.update s.pc q pc)
    (hl : Relock s t q pc) (r : ι) : t.lock = some (.proc r) ↔ (t.pc r).locks = true := by
  rw [hpc]
  rcases eq_or_ne r q with rfl | hr
  · rw [Function.update_self]
    rcases hl with ⟨hl, hp⟩ | ⟨-, hl, hp⟩ | ⟨-, hl, hp⟩
    · rw [hl, hp]
      exact hs.lock_proc r
    · simp [hl, hp]
    · simp [hl, hp]
  · rw [Function.update_of_ne hr, ← hs.lock_proc r]
    rcases hl with ⟨hl, -⟩ | ⟨hfree, hl, -⟩ | ⟨hq, hl, -⟩
    · rw [hl]
    · simp [hl, hfree, hr.symm]
    · simp [hl, hq, hr.symm]

omit [DecidableEq ι] [DecidableEq β] in
theorem Inv.relock_intr (hs : Inv s h l) (hi : t.intr = s.intr) (hl : Relock s t q pc) :
    t.lock = some .intr ↔ t.intr.locks = true := by
  rw [hi, ← hs.lock_intr]
  rcases hl with ⟨hl, -⟩ | ⟨hfree, hl, -⟩ | ⟨hq, hl, -⟩
  · rw [hl]
  · simp [hl, hfree]
  · simp [hl, hq]

omit [DecidableEq β] in
/-- The other processes stay where they are. -/
theorem Inv.places (hs : Inv s h l) {l' : List β} (hpc : t.pc = Function.update s.pc q pc)
    (hq : Local t l' q pc) (hother : ∀ r, r ≠ q → Local s l r (s.pc r) → Local t l' r (s.pc r))
    (r : ι) : Local t l' r (t.pc r) := by
  rw [hpc]
  rcases eq_or_ne r q with rfl | hr
  · rwa [Function.update_self]
  · rw [Function.update_of_ne hr]
    exact hother r hr (hs.place r)

omit [DecidableEq β] in
/-- Process `q` goes to `pc`; queue, disk and buffers stay. -/
theorem Inv.move (hs : Inv s h l) (hpc : t.pc = Function.update s.pc q pc) (hl : Relock s t q pc)
    (hbuf : t.buf = s.buf) (hheld : t.held = s.held) (hlink : t.link = s.link)
    (hdisk : t.disk = s.disk) (hintr : t.intr = s.intr) (hpanic : t.panic = s.panic)
    (hplace : Local s l q pc) (hqueued : ∀ c ∈ l, (s.pc q).queued = some c → pc.queued = some c)
    (hstart : ∀ c, s.pc q = .start c → l.head? ≠ some c) : Inv t h l := by
  refine ⟨hlink ▸ hs.linked, hs.nodup, hs.appended, hs.relock hpc hl, hs.relock_intr hintr hl,
    hs.places hpc ((Local.congr hheld hbuf hdisk).mpr hplace) fun r _ hr =>
      (Local.congr hheld hbuf hdisk).mpr hr, hbuf ▸ hs.pending, fun c hc => ?_, ?_, ?_,
    hpanic ▸ hs.panic⟩
  · obtain ⟨r, hr⟩ := hs.waiter c hc
    refine ⟨r, ?_⟩
    rw [hpc]
    rcases eq_or_ne r q with rfl | hrq
    · rw [Function.update_self]
      exact hqueued c hc hr
    · rwa [Function.update_of_ne hrq]
  · rw [hdisk, hintr]
    exact hs.intr
  · rcases hs.progress with ⟨hidle, hstarted, hwhy⟩ | ⟨c, l', rfl, hcmd, hstarted⟩
    · refine .inl ⟨hdisk.trans hidle, hstarted, ?_⟩
      rcases hwhy with hnil | hi | ⟨r, c, hr, hc⟩
      · exact .inl hnil
      · exact .inr (.inl (hintr.trans hi))
      · refine .inr (.inr ⟨r, c, ?_, hc⟩)
        rw [hpc, Function.update_of_ne, hr]
        rintro rfl
        exact hstart c hr hc
    · exact .inr ⟨c, l', rfl, by rw [hdisk, hbuf]; exact hcmd, hstarted⟩

omit [DecidableEq ι] [DecidableEq β] in
/-- A kernel that stops leaves everything as it is. -/
theorem Inv.fail (hs : Inv s h l) {p : Panic} (hp : p ≠ .idestart ∧ p ≠ .spin) :
    Inv (s.fail p) h l :=
  { hs with
    place := fun q => (Local.congr rfl rfl rfl).mpr (hs.place q)
    panic := by simpa [St.fail] using hp }

omit [DecidableEq β] in
theorem Inv.iderw (hs : Inv s h l) (hpc : s.pc q = .idle) : Inv (iderw s q b) h l := by
  unfold IdeQueue.iderw
  split_ifs with hheld hdone hdisk
  · exact hs.fail (by decide)
  · exact hs.fail (by decide)
  · exact hs.fail (by decide)
  · refine hs.move rfl (.inl ⟨rfl, by rw [hpc]; rfl⟩) rfl rfl rfl rfl rfl rfl
      ⟨not_not.mp hheld, by simpa using hdone⟩ (fun c _ hc => ?_) (fun c hc => ?_)
    · rw [hpc] at hc
      cases hc
    · rw [hpc] at hc
      cases hc

theorem Inv.append {fuel : ℕ} (hs : Inv s h l) (hfuel : l.length < fuel) (hpc : s.pc q = .append b) :
    ∃ t, IdeQueue.append s fuel b = (t, true) ∧
      Inv (t.goto q (.start b)) { h with appended := h.appended ++ [b] } (l ++ [b]) := by
  have hplace := hs.place q
  rw [hpc] at hplace
  obtain ⟨hheld, hdone⟩ := hplace
  have hb : b ∉ l := by
    intro hb
    have hq := hs.queued_of_mem hb hheld
    rw [hpc] at hq
    cases hq
  obtain ⟨pp, htail, hpath⟩ := append_link hs.linked hs.nodup hb hfuel
  have hhead : ∀ c ∈ l, (l ++ [b]).head? = some c → l.head? = some c := by
    intro c hc he
    cases l with
    | nil => cases hc
    | cons d l => exact he
  refine ⟨{ s with link := Function.update (Function.update s.link (some b) none) pp (some b) },
    by simp only [IdeQueue.append, htail], hpath, ?_, ?_, hs.relock rfl (.inl ⟨rfl, by rw [hpc]; rfl⟩),
    hs.relock_intr rfl (show Relock s _ q (.start b) from .inl ⟨rfl, by rw [hpc]; rfl⟩),
    hs.places (show _ = Function.update s.pc q (.start b) from rfl) ?_ ?_, ?_, ?_, hs.intr, ?_, hs.panic⟩
  · exact hs.nodup.append (List.nodup_singleton b) (by simpa using hb)
  · rw [hs.appended, List.append_assoc]
  · refine ⟨hheld, by simp, fun he => ?_⟩
    by_contra hd
    obtain ⟨c, l', rfl, -⟩ := hs.active hd
    exact hb (Option.some.inj he ▸ List.mem_cons_self)
  · intro r hr hplace
    cases hrpc : s.pc r with
    | start c =>
      rw [hrpc] at hplace
      exact ⟨hplace.1, List.mem_append_left _ hplace.2.1,
        fun he => hplace.2.2 (hhead c hplace.2.1 he)⟩
    | wait c | asleep c =>
      rw [hrpc] at hplace
      exact ⟨hplace.1, hplace.2.imp_left (List.mem_append_left _)⟩
    | idle | acquire c | append c | release c =>
      rw [hrpc] at hplace
      exact hplace
  · intro c hc
    rcases List.mem_append.mp hc with hc | hc
    · exact hs.pending c hc
    · exact List.mem_singleton.mp hc ▸ hdone
  · intro c hc
    rcases List.mem_append.mp hc with hc | hc
    · obtain ⟨r, hr⟩ := hs.waiter c hc
      refine ⟨r, ?_⟩
      change (Function.update s.pc q (.start b) r).queued = some c
      rw [Function.update_of_ne, hr]
      rintro rfl
      rw [hpc] at hr
      cases hr
    · obtain rfl := List.mem_singleton.mp hc
      refine ⟨q, ?_⟩
      change (Function.update s.pc q (.start c) q).queued = some c
      rw [Function.update_self]
      rfl
  · rcases hs.progress with ⟨hidle, hstarted, hwhy⟩ | ⟨c, l', rfl, hcmd, hstarted⟩
    · refine .inl ⟨hidle, hstarted, ?_⟩
      rcases hwhy with rfl | hi | ⟨r, c, hr, hc⟩
      · exact .inr (.inr ⟨q, b, Function.update_self .., rfl⟩)
      · exact .inr (.inl hi)
      · refine .inr (.inr ⟨r, c, ?_, ?_⟩)
        · change Function.update s.pc q (.start b) r = _
          rw [Function.update_of_ne, hr]
          rintro rfl
          rw [hpc] at hr
          cases hr
        · rw [List.head?_append, hc]
          rfl
    · exact .inr ⟨c, l' ++ [b], rfl, hcmd, hstarted⟩

omit [DecidableEq ι] in
theorem idestart_record (he : s.link none = some b) (hpc : s.pc q = .start b) :
    record s (.step q) h =
      if (idestart s (some b)).2 then { h with started := h.started ++ [b] } else h := by
  simp only [record, hpc, he, true_and]

omit [DecidableEq β] in
/-- `q` has found its buffer at the head and starts the disk. -/
theorem Inv.startHead (hs : Inv s h l) (hpc : s.pc q = .start b) (he : s.link none = some b) :
    Inv ({ s with disk := .busy (s.buf b).cmd }.goto q (.wait b))
      { h with started := h.started ++ [b] } l := by
  have hplace := hs.place q
  rw [hpc] at hplace
  obtain ⟨hheld, hmem, hidle⟩ := hplace
  have hhead := hs.head_eq.symm.trans he
  have hlocks : (s.pc q).locks = true := by
    rw [hpc]
    rfl
  refine ⟨hs.linked, hs.nodup, hs.appended, hs.relock rfl (.inl ⟨rfl, by rw [hpc]; rfl⟩),
    hs.relock_intr rfl (show Relock s _ q (.wait b) from .inl ⟨rfl, by rw [hpc]; rfl⟩),
    hs.places (show _ = Function.update s.pc q (.wait b) from rfl) ⟨hheld, .inl hmem⟩ fun r hr hplace => ?_, hs.pending,
    fun c hc => ?_, ?_, ?_, hs.panic⟩
  · cases hrpc : s.pc r with
    | start c => exact absurd (hs.holder_unique (by rw [hrpc]; rfl) hlocks) hr
    | idle | acquire c | append c | wait c | asleep c | release c =>
      rw [hrpc] at hplace
      exact hplace
  · obtain ⟨r, hr⟩ := hs.waiter c hc
    refine ⟨r, ?_⟩
    change (Function.update s.pc q (.wait b) r).queued = some c
    rcases eq_or_ne r q with rfl | hrq
    · rw [Function.update_self]
      rwa [hpc] at hr
    · rwa [Function.update_of_ne hrq]
  · have hi := hs.intr
    have hnot : s.intr.locks = false := by
      by_contra hc
      rw [hs.not_locks (by simpa using hc) q] at hlocks
      cases hlocks
    cases hic : s.intr with
    | idle => exact fun c hc => by cases hc
    | acquire =>
      rw [hic, hidle hhead] at hi
      obtain ⟨c, hc⟩ := hi
      cases hc
    | complete | start | release =>
      rw [hic] at hnot
      cases hnot
  · obtain ⟨l', rfl⟩ : ∃ l', l = b :: l' := by
      cases l with
      | nil => cases hmem
      | cons c l => exact ⟨l, congrArg (· :: l) (Option.some.inj hhead)⟩
    exact .inr ⟨b, l', rfl, rfl, by rw [hs.started_of_idle (hidle hhead)]⟩

theorem Inv.stepOf {fuel : ℕ} (hs : Inv s h l) (hfuel : l.length < fuel)
    (hstep : stepOf fuel s q = some t) : ∃ l', Inv t (record s (.step q) h) l' := by
  unfold IdeQueue.stepOf at hstep
  have hplace := hs.place q
  cases hpc : s.pc q with
  | idle => simp [hpc] at hstep
  | acquire b =>
    simp only [hpc] at hstep hplace
    obtain ⟨hfree, hstep⟩ := Option.ite_none_right_eq_some.mp hstep
    obtain rfl := Option.some.inj hstep
    have hrec : record s (.step q) h = h := by simp only [record, hpc]
    rw [hrec]
    exact ⟨l, hs.move rfl (.inr (.inl ⟨hfree, rfl, rfl⟩)) rfl rfl rfl rfl rfl rfl hplace
      (by simp [hpc, Pc.queued]) (by simp [hpc])⟩
  | append b =>
    obtain ⟨u, hu, hinv⟩ := hs.append hfuel hpc
    simp only [hpc, hu, if_true, Option.some.injEq] at hstep
    have hrec : record s (.step q) h = { h with appended := h.appended ++ [b] } := by
      simp only [record, hpc]
    rw [hrec, ← hstep]
    exact ⟨_, hinv⟩
  | start b =>
    simp only [hpc] at hstep hplace
    by_cases he : s.link none = some b
    · rw [if_pos he] at hstep
      rw [idestart_record he hpc]
      by_cases hno : (s.buf b).blockno ≥ FSSIZE
      · have hfail : idestart s (some b) = (s.fail .blockno, false) := if_pos hno
        simp only [hfail, Bool.false_eq_true, if_false, Option.some.injEq] at hstep ⊢
        exact ⟨l, hstep ▸ hs.fail (by decide)⟩
      · have hgo : idestart s (some b) = ({ s with disk := .busy (s.buf b).cmd }, true) := if_neg hno
        simp only [hgo, if_true, Option.some.injEq] at hstep ⊢
        exact ⟨l, hstep ▸ hs.startHead hpc he⟩
    · rw [if_neg he] at hstep
      obtain rfl := Option.some.inj hstep
      have hrec : record s (.step q) h = h := by
        simp only [record, hpc, he, false_and, if_false]
      rw [hrec]
      refine ⟨l, hs.move rfl (.inl ⟨rfl, by rw [hpc]; rfl⟩) rfl rfl rfl rfl rfl rfl
        ⟨hplace.1, .inl hplace.2.1⟩ (fun c _ hc => by rwa [hpc] at hc) fun c hc hhead => ?_⟩
      rw [hpc] at hc
      rw [hs.head_eq, hhead] at he
      exact he (congrArg some (Pc.start.inj hc).symm)
  | wait b =>
    simp only [hpc] at hstep hplace
    have hrec : record s (.step q) h = h := by simp only [record, hpc]
    rw [hrec]
    split_ifs at hstep with hdone
    · obtain rfl := Option.some.inj hstep
      refine ⟨l, hs.move rfl (.inl ⟨rfl, by rw [hpc]; rfl⟩) rfl rfl rfl rfl rfl rfl
        ⟨hplace.1, hdone⟩ (fun c hc hq => ?_) (by simp [hpc])⟩
      rw [hpc] at hq
      obtain rfl := Option.some.inj hq
      rw [hs.pending b hc] at hdone
      cases hdone
    · obtain rfl := Option.some.inj hstep
      have hlock : s.lock = some (.proc q) := (hs.lock_proc q).mpr (by rw [hpc]; rfl)
      exact ⟨l, hs.move rfl (.inr (.inr ⟨hlock, rfl, rfl⟩)) rfl rfl rfl rfl rfl rfl hplace
        (fun c _ hc => by rwa [hpc] at hc) (by simp [hpc])⟩
  | asleep b =>
    simp only [hpc] at hstep hplace
    obtain ⟨⟨-, hfree⟩, hstep⟩ := Option.ite_none_right_eq_some.mp hstep
    obtain rfl := Option.some.inj hstep
    have hrec : record s (.step q) h = h := by simp only [record, hpc]
    rw [hrec]
    exact ⟨l, hs.move rfl (.inr (.inl ⟨hfree, rfl, rfl⟩)) rfl rfl rfl rfl rfl rfl hplace
      (fun c _ hc => by rwa [hpc] at hc) (by simp [hpc])⟩
  | release b =>
    simp only [hpc, Option.some.injEq] at hstep
    obtain rfl := hstep
    have hrec : record s (.step q) h = h := by simp only [record, hpc]
    rw [hrec]
    have hlock : s.lock = some (.proc q) := (hs.lock_proc q).mpr (by rw [hpc]; rfl)
    exact ⟨l, hs.move rfl (.inr (.inr ⟨hlock, rfl, rfl⟩)) rfl rfl rfl rfl rfl rfl trivial
      (by simp [hpc, Pc.queued]) (by simp [hpc])⟩

omit [DecidableEq ι] in
/-- The head of the queue is completed. -/
theorem Inv.completed {d : δ} (hs : Inv s h (b :: l)) (hi : s.intr = .complete) :
    Inv ({ s with
      link := Function.update s.link none (s.link (some b))
      buf := Function.update s.buf b { s.buf b with data := d, valid := true, dirty := false }
      disk := .idle
      intr := .start }.wakeup b) { h with completed := h.completed ++ [b] } l := by
  have hlocks : s.intr.locks = true := by
    rw [hi]
    rfl
  obtain ⟨hnotin, hnodup⟩ := List.nodup_cons.mp hs.nodup
  have hother : ∀ c, c ≠ b →
      Function.update s.buf b { s.buf b with data := d, valid := true, dirty := false } c =
        s.buf c := fun c hc => Function.update_of_ne hc ..
  have hself : (Function.update s.buf b
      { s.buf b with data := d, valid := true, dirty := false } b).done = true := by
    rw [Function.update_self]
    rfl
  have hne : ∀ {r c}, (s.pc r).buf = some c → (s.pc r).queued = none → c ≠ b := by
    rintro r c hbuf hqueued rfl
    rw [hs.queued_of_mem List.mem_cons_self (hs.held_of_buf hbuf)] at hqueued
    cases hqueued
  refine ⟨?_, hnodup, ?_, hs.lock_proc, ?_, fun r => ?_, fun c hc => ?_, fun c hc => ?_, rfl, ?_,
    hs.panic⟩
  · have hn : (none :: ((b :: l).map some)).Nodup := by
      rw [List.nodup_cons]
      exact ⟨by simp, hs.nodup.map (Option.some_injective β)⟩
    exact Path.remove (l := []) hs.linked hn rfl rfl
  · rw [hs.appended, List.append_assoc]
    rfl
  · change s.lock = some .intr ↔ IntrPc.start.locks = true
    rw [hs.lock_intr, hi]
    rfl
  · have hplace := hs.place r
    change Local _ l r (s.pc r)
    cases hrpc : s.pc r with
    | idle => trivial
    | acquire c | append c =>
      rw [hrpc] at hplace
      have hc := hne (r := r) (by rw [hrpc]; rfl) (by rw [hrpc]; rfl)
      refine ⟨hplace.1, ?_⟩
      change (Function.update s.buf b _ c).done = false
      rw [hother c hc]
      exact hplace.2
    | start c =>
      have hno := hs.not_locks hlocks r
      rw [hrpc] at hno
      cases hno
    | wait c | asleep c =>
      rw [hrpc] at hplace
      refine ⟨hplace.1, ?_⟩
      change _ ∨ (Function.update s.buf b _ c).done = true
      rcases eq_or_ne c b with rfl | hc
      · exact .inr hself
      · rw [hother c hc]
        exact hplace.2.imp_left fun hm => (List.mem_cons.mp hm).resolve_left hc
    | release c =>
      have hno := hs.not_locks hlocks r
      rw [hrpc] at hno
      cases hno
  · change (Function.update s.buf b _ c).done = false
    rw [hother c fun e => hnotin (e ▸ hc)]
    exact hs.pending c (List.mem_cons_of_mem b hc)
  · exact hs.waiter c (List.mem_cons_of_mem b hc)
  · refine .inl ⟨rfl, ?_, .inr (.inl rfl)⟩
    have hd : s.disk ≠ .idle := by
      have hintr := hs.intr
      rw [hi] at hintr
      obtain ⟨c, hc⟩ := hintr
      simp [hc]
    obtain ⟨c, l', hl, -, hstarted⟩ := hs.active hd
    obtain ⟨rfl, -⟩ := List.cons_eq_cons.mp hl
    exact hstarted

omit [DecidableEq ι] [DecidableEq β] in
/-- The handler goes to `i`; queue and buffers stay. -/
theorem Inv.moveIntr (hs : Inv s h l) {i : IntrPc} {lk : Option (Holder ι)} {d : Disk δ}
    (hlock : lk = s.lock ∧ i.locks = s.intr.locks ∨ s.lock = none ∧ lk = some .intr ∧ i.locks = true ∨
      s.lock = some .intr ∧ lk = none ∧ i.locks = false)
    (hd : d.cmd = s.disk.cmd) (hi : IntrOk d i) (hwhy : s.intr = .start → l = [] ∨ s.disk ≠ .idle) :
    Inv { s with lock := lk, disk := d, intr := i } h l := by
  have hidle : d = .idle ↔ s.disk = .idle := by
    cases d <;> cases hsd : s.disk <;> simp_all [Disk.cmd]
  refine ⟨hs.linked, hs.nodup, hs.appended, fun r => ?_, ?_, fun r => ?_, hs.pending, hs.waiter, hi,
    ?_, hs.panic⟩
  · change lk = _ ↔ _
    rw [← hs.lock_proc r]
    rcases hlock with ⟨rfl, -⟩ | ⟨hfree, rfl, -⟩ | ⟨hheld, rfl, -⟩
    · rfl
    · simp [hfree]
    · simp [hheld]
  · change lk = _ ↔ i.locks = true
    rcases hlock with ⟨rfl, hil⟩ | ⟨-, rfl, hil⟩ | ⟨-, rfl, hil⟩
    · rw [hil, hs.lock_intr]
    · simp [hil]
    · simp [hil]
  · have hplace := hs.place r
    cases hrpc : s.pc r with
    | start c =>
      rw [hrpc] at hplace
      exact ⟨hplace.1, hplace.2.1, fun he => hidle.mpr (hplace.2.2 he)⟩
    | idle | acquire c | append c | wait c | asleep c | release c =>
      rw [hrpc] at hplace
      exact hplace
  · rcases hs.progress with ⟨hsd, hstarted, hc⟩ | ⟨c, l', rfl, hcmd, hstarted⟩
    · refine .inl ⟨hidle.mpr hsd, hstarted, ?_⟩
      rcases hc with hnil | hstart | hproc
      · exact .inl hnil
      · exact .inl ((hwhy hstart).resolve_right (not_not_intro hsd))
      · exact .inr (.inr hproc)
    · exact .inr ⟨c, l', rfl, hd.trans hcmd, hstarted⟩

omit [DecidableEq ι] [DecidableEq β] in
/-- The handler starts the disk for the head of the queue. -/
theorem Inv.startNext (hs : Inv s h (b :: l)) (hi : s.intr = .start) :
    Inv { s with disk := .busy (s.buf b).cmd, intr := .release }
      { h with started := h.started ++ [b] } (b :: l) := by
  have hidle : s.disk = .idle := by
    have hintr := hs.intr
    rwa [hi] at hintr
  have hlocks : s.intr.locks = true := by
    rw [hi]
    rfl
  refine ⟨hs.linked, hs.nodup, hs.appended, hs.lock_proc, ?_, fun r => ?_, hs.pending, hs.waiter,
    fun c hc => (by cases hc), .inr ⟨b, l, rfl, rfl, by rw [hs.started_of_idle hidle]⟩, hs.panic⟩
  · change s.lock = _ ↔ IntrPc.release.locks = true
    rw [hs.lock_intr, hi]
    rfl
  · have hplace := hs.place r
    cases hrpc : s.pc r with
    | start c =>
      have hno := hs.not_locks hlocks r
      rw [hrpc] at hno
      cases hno
    | idle | acquire c | append c | wait c | asleep c | release c =>
      rw [hrpc] at hplace
      exact hplace

omit [DecidableEq ι] in
theorem Inv.intrStep {err : Bool} {d : δ} (hs : Inv s h l) (hstep : intrStep s err d = some t) :
    ∃ l', Inv t (record s (.intrStep err d) h) l' := by
  have hintr := hs.intr
  unfold IdeQueue.intrStep at hstep
  cases hi : s.intr with
  | idle => simp [hi] at hstep
  | acquire =>
    simp only [hi] at hstep hintr
    obtain ⟨hfree, hstep⟩ := Option.ite_none_right_eq_some.mp hstep
    obtain rfl := Option.some.inj hstep
    have hrec : record s (.intrStep err d) h = h := by simp only [record, hi]
    rw [hrec]
    exact ⟨l, hs.moveIntr (.inr (.inl ⟨hfree, rfl, rfl⟩)) rfl hintr (by simp [hi])⟩
  | complete =>
    simp only [hi] at hstep hintr
    obtain ⟨c, hc⟩ := hintr
    obtain ⟨b, l', rfl, -, -⟩ := hs.active (by simp [hc])
    have hhead : s.link none = some b := hs.head_eq
    simp only [hhead, Option.some.injEq] at hstep
    have hrec : record s (.intrStep err d) h = { h with completed := h.completed ++ [b] } := by
      simp only [record, hi, hhead, Option.toList]
    rw [hrec, ← hstep]
    exact ⟨l', hs.completed hi⟩
  | start =>
    simp only [hi] at hstep hintr
    cases l with
    | nil =>
      have hhead : s.link none = none := hs.head_eq
      have hfail : idestart s none = (s.fail .idestart, false) := rfl
      rw [hhead, if_neg (by simp)] at hstep
      obtain rfl := Option.some.inj hstep
      have hrec : record s (.intrStep err d) h = h := by
        simp only [record, hi, hhead, hfail, Bool.false_eq_true, if_false]
      rw [hrec]
      refine ⟨[], hs.moveIntr (.inl ⟨rfl, by rw [hi]; rfl⟩) rfl (fun c hc => ?_) fun _ => .inl rfl⟩
      have hsd : s.disk = .idle := hintr
      rw [hsd] at hc
      cases hc
    | cons b l =>
      have hhead : s.link none = some b := hs.head_eq
      rw [hhead, if_pos (by simp)] at hstep
      by_cases hno : (s.buf b).blockno ≥ FSSIZE
      · have hfail : idestart s (some b) = (s.fail .blockno, false) := if_pos hno
        have hrec : record s (.intrStep err d) h = h := by
          simp only [record, hi, hhead, hfail, Bool.false_eq_true, if_false]
        simp only [hfail, Bool.false_eq_true, if_false, Option.some.injEq] at hstep
        rw [hrec, ← hstep]
        exact ⟨_, hs.fail (by decide)⟩
      · have hgo : idestart s (some b) = ({ s with disk := .busy (s.buf b).cmd }, true) := if_neg hno
        have hrec : record s (.intrStep err d) h = { h with started := h.started ++ [b] } := by
          simp only [record, hi, hhead, hgo, if_true, Option.toList]
        simp only [hgo, if_true, Option.some.injEq] at hstep
        rw [hrec, ← hstep]
        exact ⟨_, hs.startNext hi⟩
  | release =>
    simp only [hi, Option.some.injEq] at hstep hintr
    obtain rfl := hstep
    have hrec : record s (.intrStep err d) h = h := by simp only [record, hi]
    rw [hrec]
    exact ⟨l, hs.moveIntr (.inr (.inr ⟨hs.lock_intr.mpr (by rw [hi]; rfl), rfl, rfl⟩)) rfl hintr
      (by simp [hi])⟩

omit [DecidableEq ι] [DecidableEq β] in
/-- What others do to a buffer that no process in `iderw` works on. -/
theorem Inv.others (hs : Inv s h l) (hfree : ∀ r, (s.pc r).buf ≠ some b)
    (hbuf : ∀ c, c ≠ b → t.buf c = s.buf c) (hheld : ∀ c, c ≠ b → t.held c = s.held c)
    (hlink : t.link = s.link) (hdisk : t.disk = s.disk) (hlock : t.lock = s.lock)
    (hpc : t.pc = s.pc) (hintr : t.intr = s.intr) (hpanic : t.panic = s.panic) : Inv t h l := by
  have hnotin : b ∉ l := by
    intro hb
    obtain ⟨r, hr⟩ := hs.waiter b hb
    exact hfree r (Pc.buf_of_queued hr)
  have hne : ∀ c ∈ l, c ≠ b := fun c hc e => hnotin (e ▸ hc)
  refine ⟨hlink ▸ hs.linked, hs.nodup, hs.appended, by rw [hlock, hpc]; exact hs.lock_proc,
    by rw [hlock, hintr]; exact hs.lock_intr, fun r => ?_, fun c hc => ?_,
    by rw [hpc]; exact hs.waiter, by rw [hdisk, hintr]; exact hs.intr, ?_, hpanic ▸ hs.panic⟩
  · have hplace := hs.place r
    have hc : ∀ c, (s.pc r).buf = some c → t.buf c = s.buf c ∧ t.held c = s.held c := by
      intro c hrc
      have hcb : c ≠ b := by
        rintro rfl
        exact hfree r hrc
      exact ⟨hbuf c hcb, hheld c hcb⟩
    rw [hpc]
    cases hrpc : s.pc r with
    | idle => trivial
    | acquire c | append c | start c | wait c | asleep c | release c =>
      rw [hrpc] at hplace
      obtain ⟨hb, hh⟩ := hc c (by rw [hrpc]; rfl)
      simpa only [Local, hb, hh, hdisk] using hplace
  · rw [hbuf c (hne c hc)]
    exact hs.pending c hc
  · rcases hs.progress with hidle | ⟨c, l', rfl, hcmd, hstarted⟩
    · refine .inl ?_
      rw [hdisk, hintr, hpc]
      exact hidle
    · refine .inr ⟨c, l', rfl, ?_, hstarted⟩
      rw [hdisk, hbuf c (hne c List.mem_cons_self)]
      exact hcmd

theorem Inv.next {fuel : ℕ} {e : Event ι β δ} (hs : Inv s h l) (hfuel : l.length < fuel)
    (hstep : next fuel s e = some t) : ∃ l', Inv t (record s e h) l' := by
  unfold IdeQueue.next at hstep
  rw [if_neg (by intro hp; simp [hp] at hstep)] at hstep
  have hne : ∀ {q b}, s.pc q = .idle → s.held b = some q → ∀ r, (s.pc r).buf ≠ some b := by
    intro q b hpc hheld r hr
    have hr' := hs.held_of_buf hr
    rw [hheld] at hr'
    obtain rfl := Option.some.inj hr'
    rw [hpc] at hr
    cases hr
  have hnone : ∀ {b}, s.held b = none → ∀ r, (s.pc r).buf ≠ some b := by
    intro b hheld r hr
    rw [hs.held_of_buf hr] at hheld
    cases hheld
  cases e with
  | iderw q b =>
    obtain ⟨hpc, hstep⟩ := Option.ite_none_right_eq_some.mp hstep
    obtain rfl := Option.some.inj hstep
    exact ⟨l, hs.iderw hpc⟩
  | step q => exact hs.stepOf hfuel hstep
  | complete =>
    cases hd : s.disk with
    | busy c =>
      simp only [hd, Option.some.injEq] at hstep
      obtain rfl := hstep
      have hintr := hs.intr
      rw [hd] at hintr
      refine ⟨l, hs.moveIntr (.inl ⟨Eq.refl s.lock, Eq.refl s.intr.locks⟩) (by rw [hd]; rfl) ?_
        fun _ => .inr (by simp [hd])⟩
      cases hi : s.intr with
      | idle | release => exact fun c' hc => by cases hc
      | acquire | complete =>
        rw [hi] at hintr
        obtain ⟨c', hc⟩ := hintr
        cases hc
      | start =>
        rw [hi] at hintr
        cases hintr
    | idle | done c | taken c => simp [hd] at hstep
  | interrupt =>
    cases hd : s.disk with
    | done c =>
      simp only [hd] at hstep
      obtain ⟨hi, hstep⟩ := Option.ite_none_right_eq_some.mp hstep
      obtain rfl := Option.some.inj hstep
      exact ⟨l, hs.moveIntr (.inl ⟨Eq.refl s.lock, by rw [hi]; rfl⟩) (by rw [hd]; rfl) ⟨c, rfl⟩
        fun _ => .inr (by simp [hd])⟩
    | idle | busy c | taken c => simp [hd] at hstep
  | intrStep err d => exact hs.intrStep hstep
  | hold q b =>
    obtain ⟨⟨-, hheld⟩, hstep⟩ := Option.ite_none_right_eq_some.mp hstep
    obtain rfl := Option.some.inj hstep
    exact ⟨l, hs.others (hnone hheld) (fun _ _ => rfl) (fun c hc => Function.update_of_ne hc ..)
      rfl rfl rfl rfl rfl rfl⟩
  | use q b dirty d =>
    obtain ⟨⟨hpc, hheld⟩, hstep⟩ := Option.ite_none_right_eq_some.mp hstep
    obtain rfl := Option.some.inj hstep
    exact ⟨l, hs.others (hne hpc hheld) (fun c hc => Function.update_of_ne hc ..) (fun _ _ => rfl)
      rfl rfl rfl rfl rfl rfl⟩
  | drop q b =>
    obtain ⟨⟨hpc, hheld⟩, hstep⟩ := Option.ite_none_right_eq_some.mp hstep
    obtain rfl := Option.some.inj hstep
    exact ⟨l, hs.others (hne hpc hheld) (fun _ _ => rfl) (fun c hc => Function.update_of_ne hc ..)
      rfl rfl rfl rfl rfl rfl⟩
  | recycle b dev blockno =>
    obtain ⟨hheld, hstep⟩ := Option.ite_none_right_eq_some.mp hstep
    obtain rfl := Option.some.inj hstep
    exact ⟨l, hs.others (hnone hheld) (fun c hc => Function.update_of_ne hc ..) (fun _ _ => rfl)
      rfl rfl rfl rfl rfl rfl⟩
  | wake q =>
    obtain rfl := Option.some.inj hstep
    exact ⟨l, { hs with place := fun r => (Local.congr rfl rfl rfl).mpr (hs.place r) }⟩

theorem reachable_inv [Fintype β] (hr : (historySystem ι β δ).Reachable (s, h)) :
    ∃ l, Inv s h l := by
  refine hr.invariant (I := fun p => ∃ l, Inv p.1 p.2 l) ?_ ?_
  · rintro ⟨s, h⟩ ⟨⟨hheld, hlink, hdisk, hlock, hpc, hintr, hpanic⟩, rfl⟩
    change s.disk = .idle at hdisk
    refine ⟨[], hlink none, List.nodup_nil, rfl, fun q => ?_, ?_, fun q => ?_, nofun, nofun, ?_,
      .inl ⟨hdisk, rfl, .inl rfl⟩, ?_⟩
    · rw [show s.lock = none from hlock, show s.pc q = .idle from hpc q]
      exact ⟨nofun, nofun⟩
    · rw [show s.lock = none from hlock, show s.intr = .idle from hintr]
      exact ⟨nofun, nofun⟩
    · rw [show s.pc q = .idle from hpc q]
      trivial
    · rw [show s.intr = .idle from hintr, hdisk]
      exact fun c hc => by cases hc
    · simp [show s.panic = none from hpanic]
  · rintro ⟨s, h⟩ e ⟨t, h'⟩ ⟨l, hs⟩ ⟨hstep, rfl⟩
    exact hs.next (Nat.lt_succ_of_le hs.nodup.length_le_card) hstep

/-- In any run the queue holds each buffer at most once and is what has been appended and not
completed, first to last. The disk has been started once for each completed request and for the
head of the queue, for which it works; it is idle over a waiting queue only while `idelock` is
held. `iderw` returns with its request completed, valid and clean. -/
theorem ide_queue [Fintype β] (hr : (historySystem ι β δ).Reachable (s, h)) :
    ∃ l : List β, Path s.link none (l.map some) none ∧ l.Nodup ∧ h.appended = h.completed ++ l ∧
      (s.disk = .idle ∧ h.started = h.completed ∧ (s.lock = none → l = []) ∨
        ∃ b l', l = b :: l' ∧ s.disk.cmd = some (s.buf b).cmd ∧
          h.started = h.completed ++ [b]) ∧
      (∀ q b, s.pc q = .release b → (s.buf b).valid = true ∧ (s.buf b).dirty = false ∧ b ∉ l ∧
        h.appended.count b = h.completed.count b) ∧
      s.panic ≠ some .idestart ∧ s.panic ≠ some .spin := by
  obtain ⟨l, hs⟩ := reachable_inv hr
  refine ⟨l, hs.linked, hs.nodup, hs.appended, ?_, fun q b hpc => ?_, hs.panic⟩
  · refine hs.progress.imp_left fun ⟨hidle, hstarted, hwhy⟩ => ⟨hidle, hstarted, fun hfree => ?_⟩
    rcases hwhy with hnil | hi | ⟨q, b, hq, -⟩
    · exact hnil
    · have hlock := hs.lock_intr.mpr (by rw [hi]; rfl)
      rw [hfree] at hlock
      cases hlock
    · have hlock := (hs.lock_proc q).mpr (by rw [hq]; rfl)
      rw [hfree] at hlock
      cases hlock
  · have hplace := hs.place q
    rw [hpc] at hplace
    obtain ⟨hvalid, hdirty⟩ := (Bool.and_eq_true _ _).mp hplace.2
    have hb : b ∉ l := by
      intro hb
      have hdone := hplace.2
      rw [hs.pending b hb] at hdone
      cases hdone
    refine ⟨hvalid, by simpa using hdirty, hb, ?_⟩
    rw [hs.appended, List.count_append, List.count_eq_zero_of_not_mem hb, Nat.add_zero]

end Steps

/-- Two requests, of which the first is completed and the second in progress. -/
theorem ide_queue_two : ∃ (s : St (Fin 2) (Fin 2) Unit) (h : History (Fin 2)),
    s.pc 0 = .release 0 ∧ h.started = [0, 1] ∧ (s.buf 0).valid = true ∧
      Path s.link none [some 1] none ∧ s.disk.cmd = some (s.buf 1).cmd := by
  obtain ⟨⟨s, h⟩, hr, hpc, happended, hstarted, hcompleted⟩ :
      ∃ p, (historySystem (Fin 2) (Fin 2) Unit).Reachable p ∧ p.1.pc 0 = .release 0 ∧
        p.2.appended = [0, 1] ∧ p.2.started = [0, 1] ∧ p.2.completed = [0] :=
    observe_reachable_of_runNext
      ⟨fun b => ⟨false, false, 0, b, ()⟩, fun _ => none, fun _ => none, .idle, false, none,
        fun _ => .idle, .idle, fun _ => false, none⟩
      ([.hold 0 0, .hold 1 1, .iderw 0 0, .step 0, .step 0, .step 0, .step 0, .iderw 1 1, .step 1,
        .step 1, .step 1, .step 1, .complete, .interrupt] ++
        List.replicate 4 (.intrStep false ()) ++ [.step 0, .step 0]) _
      ⟨fun _ => rfl, fun _ => rfl, rfl, rfl, fun _ => rfl, rfl, rfl⟩ (by decide +kernel)
  obtain ⟨l, hpath, -, hl, hdisk, hdone, -⟩ := ide_queue hr
  rw [happended, hcompleted] at hl
  obtain rfl : [1] = l := List.cons_injective hl
  refine ⟨s, h, hpc, hstarted, (hdone 0 0 hpc).1, hpath, ?_⟩
  rcases hdisk with ⟨-, he, -⟩ | ⟨b, l', he, hcmd, -⟩
  · rw [hstarted, hcompleted] at he
    cases he
  · obtain ⟨rfl, -⟩ := List.cons_eq_cons.mp he
    exact hcmd

end Ostep.IdeQueue

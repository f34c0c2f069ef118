import Ostep.WriteLog

/-!
# Processes on one open file

Any number of processes call `filewrite` and `fileread` on one `struct file`, while others work
on the file system. `filewrite` gives up the lock of the inode, and ends its transaction, after
each piece; the offset is read, used and moved on under the lock. A step of the file system on
the inode itself waits for the lock, any other one does not.
-/

namespace Ostep.FileWrite
open FsBlocks Hoare ByteWords TransitionSystem Recording

/-- A `struct file` of type `FD_INODE`. -/
structure File where
  readable : Bool
  writable : Bool
  ip : ℕ
  off : ℕ

/-- Where a process is in `filewrite(f, src, n)`; `i` is the loop's index and `r` what `writei`
returned, `none` for -1. -/
inductive Pc where
  | user (ret : Option ℕ)
  | loop (src : List UInt8) (i : ℕ)
  | locked (src : List UInt8) (i : ℕ)
  | wrote (src : List UInt8) (i : ℕ) (r : Option ℕ)
  | advanced (src : List UInt8) (i : ℕ) (r : Option ℕ)

def Pc.holds : Pc → Prop
  | .user _ | .loop .. => False
  | .locked .. | .wrote .. | .advanced .. => True

/-- `n1` bytes from `addr + i`. -/
def chunk (src : List UInt8) (i : ℕ) : List UInt8 := (src.drop i).take MAXWRITE

/-- The value that `filewrite` returns after its loop. -/
def ret (src : List UInt8) (i : ℕ) : Option ℕ := if i = src.length then some src.length else none

variable {ι : Type*}

/-- Two histories: the pieces, in the order in which their writers took the lock of the inode,
and the blocks that each transaction logged. -/
structure State (ι : Type*) where
  fs : St
  f : File
  lock : Option ι
  pc : ι → Pc
  chunks : List (ι × List UInt8)
  txs : List (List ℕ)

inductive Event (ι : Type*) where
  | filewrite (q : ι) (src : List UInt8)
  | step (q : ι)
  | fileread (n : ℕ)
  /-- A step on the file system that does not go through this `struct file`. -/
  | other (e : FsBlocks.Event)

variable (sb : Superblock) (inodestart : ℕ)

section
variable [DecidableEq ι]

def State.at (s : State ι) (q : ι) (p : Pc) : State ι := { s with pc := Function.update s.pc q p }

/-- `begin_op` and `ilock`. -/
def State.enter (s : State ι) (q : ι) (src : List UInt8) (i : ℕ) (fs : St) : State ι :=
  { s.at q (.locked src i) with
    fs := fs
    lock := some q
    chunks := s.chunks ++ [(q, chunk src i)] }

/-- `iunlock` and `end_op`. -/
def State.leave (s : State ι) (q : ι) (p : Pc) : State ι := { s.at q p with lock := none }

def State.step (s : State ι) (q : ι) : Option (State ι) :=
  match s.pc q with
  | .user _ => none
  | .loop src i =>
    if i < src.length then
      if s.lock = none then
        match ilock s.f.ip s.fs with
        | .ok (_, fs) => some (s.enter q src i fs)
        | .error _ => none
      else none
    else some (s.at q (.user (ret src i)))
  | .locked src i =>
    match Logged.writei sb inodestart s.f.ip (chunk src i) s.f.off (s.fs, []) with
    | .ok (r, fs, l) => some { s.at q (.wrote src i r) with fs := fs, txs := s.txs ++ [l] }
    | .error _ => none
  | .wrote src i r => some { s.at q (.advanced src i r) with
      f := { s.f with off := (s.f.off + r.getD 0) % 2 ^ 32 } }
  | .advanced src i none => some (s.leave q (.user (ret src i)))
  | .advanced src i (some r) =>
    -- panic("short filewrite")
    if r = (chunk src i).length then some (s.leave q (.loop src (i + r))) else none

/-- The call itself, with a length that is an `int`. -/
def State.filewrite (s : State ι) (q : ι) (src : List UInt8) : Option (State ι) :=
  match s.pc q with
  | .user _ =>
    if src.length < 2 ^ 31 then
      some (s.at q (if s.f.writable then .loop src 0 else .user none))
    else none
  | _ => none

end

/-- `fileread` on a file or directory, all of it under the lock of the inode. -/
def State.fileread (s : State ι) (n : ℕ) : Option (State ι) :=
  if n < 2 ^ 31 ∧ s.lock = none ∧ (s.fs.inode s.f.ip).type ≠ T_DEV then
    if s.f.readable then
      match readi sb s.f.ip s.f.off n s.fs with
      | .ok (some bs, fs) => some { s with
          fs := fs
          f := { s.f with off := (s.f.off + bs.length) % 2 ^ 32 } }
      | .ok (none, fs) => some { s with fs := fs }
      | .error _ => none
    else some s
  else none

instance (s : St) (i : ℕ) : (e : FsBlocks.Event) → Decidable (e.Foreign s i)
  | .iget _ | .ilock _ | .ialloc _ | .setMeta _ _ _ _ | .dirlink _ _ _ => instDecidableTrue
  | .writei _ src _ => Nat.decLt src.length _
  | .iput j => @instDecidableForall (j = i) (1 < (s.icache i).ref) (instDecidableEqNat j i)
    (Nat.decLt 1 _)

/-- The open file's own reference stays, and the inode is used under its lock. -/
def State.other (s : State ι) (e : FsBlocks.Event) : Option (State ι) :=
  if e.Foreign s.fs s.f.ip ∧ (s.lock = none ∨ e.Spares s.fs s.f.ip) then
    (FsBlocks.next sb s.fs e).map fun fs => { s with fs := fs }
  else none

def next [DecidableEq ι] (s : State ι) : Event ι → Option (State ι)
  | .filewrite q src => s.filewrite q src
  | .step q => s.step sb inodestart q
  | .fileread n => s.fileread sb n
  | .other e => s.other sb e

/-- An open file, at any offset, before the first call. -/
structure Opened (s : State ι) : Prop where
  fs : (FsBlocks.system sb).Reachable s.fs
  locked : s.fs.Locked s.f.ip
  off : s.f.off < 2 ^ 32
  free : s.lock = none
  user : ∀ q, ∃ r, s.pc q = .user r
  chunks : s.chunks = []
  txs : s.txs = []

def system [DecidableEq ι] : System (State ι) (Event ι) := .ofNext (Opened sb) (next sb inodestart)

/-! ## What a step can do -/

variable {sb inodestart} {s t : State ι} {q q' : ι}

section
variable [DecidableEq ι]

@[simp] theorem at_pc (s : State ι) (q : ι) (p : Pc) : (s.at q p).pc q = p :=
  Function.update_self ..

theorem at_pc_of_ne (s : State ι) {q q' : ι} (p : Pc) (h : q' ≠ q) : (s.at q p).pc q' = s.pc q' :=
  Function.update_of_ne h ..

inductive Stepped (sb : Superblock) (inodestart : ℕ) (s : State ι) (q : ι) : State ι → Prop where
  | enter {src i fs} : s.pc q = .loop src i → i < src.length → s.lock = none →
      ilock s.f.ip s.fs = .ok ((), fs) → Stepped sb inodestart s q (s.enter q src i fs)
  | finish {src i} : s.pc q = .loop src i → src.length ≤ i →
      Stepped sb inodestart s q (s.at q (.user (ret src i)))
  | write {src i r fs l} : s.pc q = .locked src i →
      Logged.writei sb inodestart s.f.ip (chunk src i) s.f.off (s.fs, []) = .ok (r, fs, l) →
      Stepped sb inodestart s q { s.at q (.wrote src i r) with fs := fs, txs := s.txs ++ [l] }
  | advance {src i r} : s.pc q = .wrote src i r →
      Stepped sb inodestart s q { s.at q (.advanced src i r) with
        f := { s.f with off := (s.f.off + r.getD 0) % 2 ^ 32 } }
  | fail {src i} : s.pc q = .advanced src i none →
      Stepped sb inodestart s q (s.leave q (.user (ret src i)))
  | again {src i} : s.pc q = .advanced src i (some (chunk src i).length) →
      Stepped sb inodestart s q (s.leave q (.loop src (i + (chunk src i).length)))

theorem step_cases (h : s.step sb inodestart q = some t) : Stepped sb inodestart s q t := by
  unfold State.step at h
  cases hpc : s.pc q with
  | user r => simp [hpc] at h
  | loop src i =>
    simp only [hpc] at h
    split_ifs at h with hlt hfree
    · cases hl : ilock s.f.ip s.fs with
      | error e => simp [hl] at h
      | ok p =>
        obtain ⟨⟨⟩, fs⟩ := p
        obtain rfl : s.enter q src i fs = t := by simpa [hl] using h
        exact .enter hpc hlt hfree hl
    · obtain rfl := Option.some.inj h
      exact .finish hpc (Nat.not_lt.mp hlt)
  | locked src i =>
    simp only [hpc] at h
    cases hw : Logged.writei sb inodestart s.f.ip (chunk src i) s.f.off (s.fs, []) with
    | error e => simp [hw] at h
    | ok p =>
      obtain ⟨r, fs, l⟩ := p
      simp only [hw] at h
      obtain rfl := Option.some.inj h
      exact .write hpc hw
  | wrote src i r =>
    simp only [hpc] at h
    obtain rfl := Option.some.inj h
    exact .advance hpc
  | advanced src i r =>
    cases r with
    | none =>
      simp only [hpc] at h
      obtain rfl := Option.some.inj h
      exact .fail hpc
    | some r =>
      simp only [hpc] at h
      obtain ⟨rfl, h⟩ := Option.ite_none_right_eq_some.mp h
      obtain rfl := Option.some.inj h
      exact .again hpc

theorem filewrite_cases {src : List UInt8} (h : s.filewrite q src = some t) :
    src.length < 2 ^ 31 ∧ (∃ r, s.pc q = .user r) ∧
      t = s.at q (if s.f.writable then .loop src 0 else .user none) := by
  unfold State.filewrite at h
  cases hpc : s.pc q with
  | user r =>
    simp only [hpc] at h
    obtain ⟨hlt, h⟩ := Option.ite_none_right_eq_some.mp h
    exact ⟨hlt, ⟨r, rfl⟩, (Option.some.inj h).symm⟩
  | _ => simp [hpc] at h

end

theorem other_cases {e : FsBlocks.Event} (h : s.other sb e = some t) :
    ∃ fs, FsBlocks.next sb s.fs e = some fs ∧ e.Foreign s.fs s.f.ip ∧
      (s.lock = none ∨ e.Spares s.fs s.f.ip) ∧ t = { s with fs := fs } := by
  obtain ⟨⟨hforeign, hlock⟩, h⟩ := Option.ite_none_right_eq_some.mp h
  obtain ⟨fs, hfs, rfl⟩ := Option.map_eq_some_iff.mp h
  exact ⟨fs, hfs, hforeign, hlock, rfl⟩

/-! ## The lock -/

/-- The inode stays loaded, and the process in `filewrite`'s critical section holds its lock. -/
structure Inv (sb : Superblock) (s : State ι) : Prop where
  fs : FsBlocks.Inv sb s.fs
  locked : s.fs.Locked s.f.ip
  off : s.f.off < 2 ^ 32
  holder : ∀ q, (s.pc q).holds → s.lock = some q

theorem Inv.core (h : Inv sb s) : Core sb s.f.ip s.fs := h.fs.core h.locked

theorem Inv.covered (h : Inv sb s) : Covered sb s.fs s.f.ip (s.fs.inode s.f.ip).size := by
  rw [h.locked.inode]
  exact h.fs.covered_locked h.locked

theorem Opened.inv (h : Opened sb s) : Inv sb s := by
  refine ⟨?_, h.locked, h.off, fun q hq => ?_⟩
  · obtain ⟨fs, es, hfs, hrun⟩ := h.fs
    exact system_inv hfs hrun
  · obtain ⟨r, hr⟩ := h.user q
    rw [hr] at hq
    exact hq.elim

/-- Nothing is loaded by the `ilock` of an open file. -/
theorem Inv.ilock {fs : St} (h : Inv sb s) (hl : FsBlocks.ilock s.f.ip s.fs = .ok ((), fs)) :
    fs = s.fs := by
  rw [FsBlocks.ilock, run_get_bind, if_neg (Nat.not_lt.mpr h.locked.1), if_pos h.locked.2] at hl
  exact (run_pure.mp hl).2.symm

/-- A read changes no file, and does not go past the end. -/
theorem fileread_cases {n : ℕ} (h : Inv sb s) (hread : s.fileread sb n = some t) :
    ∃ k, (k = 0 ∨ s.f.off + k ≤ (s.fs.inode s.f.ip).size) ∧ s.lock = none ∧
      t = { s with f := { s.f with off := s.f.off + k } } := by
  obtain ⟨⟨hn, hfree, hdev⟩, hread⟩ := Option.ite_none_right_eq_some.mp hread
  have hlen : ((s.fs.contents sb s.f.ip).drop s.f.off).length =
      (s.fs.inode s.f.ip).size - s.f.off := by rw [List.length_drop, length_contents]
  have hsize := h.covered.size_le
  rw [readi_contents h.core h.covered hdev h.off (by omega)] at hread
  split_ifs at hread with hreadable hbad
  · exact ⟨0, .inl rfl, hfree, (Option.some.inj hread).symm⟩
  · obtain rfl := Option.some.inj hread
    refine ⟨(((s.fs.contents sb s.f.ip).drop s.f.off).take n).length, .inr ?_, hfree, ?_⟩ <;>
      rw [List.length_take, hlen]
    · omega
    · change (s.fs.inode s.f.ip).size ≤ 71680 at hsize
      rw [Nat.mod_eq_of_lt (by omega)]
  · exact ⟨0, .inl rfl, hfree, (Option.some.inj hread).symm⟩

theorem length_chunk (src : List UInt8) (i : ℕ) :
    (chunk src i).length = min MAXWRITE (src.length - i) := by
  rw [chunk, List.length_take, List.length_drop]

theorem length_chunk_le (src : List UInt8) (i : ℕ) : (chunk src i).length ≤ MAXWRITE := by
  rw [length_chunk]
  exact Nat.min_le_left _ _

theorem length_chunk_lt (src : List UInt8) (i : ℕ) : (chunk src i).length < 2 ^ 32 :=
  Nat.lt_of_le_of_lt (length_chunk_le src i) (by decide)

variable [DecidableEq ι]

/-- The process that steps is the only one in the critical section. -/
theorem Inv.holder_at {p : Pc} (h : Inv sb s) (hp : p.holds → s.lock = some q) :
    ∀ q', ((s.at q p).pc q').holds → s.lock = some q' := by
  intro q' hq'
  by_cases heq : q' = q
  · subst heq
    rw [at_pc] at hq'
    exact hp hq'
  · rw [at_pc_of_ne s p heq] at hq'
    exact h.holder q' hq'

theorem Inv.leave {p : Pc} (h : Inv sb s) (hq : (s.pc q).holds) (hp : ¬ p.holds) :
    Inv sb (s.leave q p) := by
  refine ⟨h.fs, h.locked, h.off, fun q' hq' => ?_⟩
  by_cases heq : q' = q
  · subst heq
    exact absurd ((at_pc s q' p) ▸ hq') hp
  · have hheld := h.holder q' ((at_pc_of_ne s p heq) ▸ hq')
    rw [h.holder q hq] at hheld
    exact absurd (Option.some.inj hheld).symm heq

theorem Inv.step (h : Inv sb s) (hstep : Stepped sb inodestart s q t) : Inv sb t := by
  cases hstep with
  | enter hpc hlt hfree hl =>
    obtain rfl := h.ilock hl
    refine ⟨h.fs, h.locked, h.off, fun q' hq' => ?_⟩
    by_cases heq : q' = q
    · exact congrArg some heq.symm
    · have hheld := h.holder q' ((at_pc_of_ne s _ heq) ▸ hq')
      rw [hfree] at hheld
      cases hheld
  | finish hpc hle => exact ⟨h.fs, h.locked, h.off, h.holder_at False.elim⟩
  | write hpc hw =>
    have hrun := writei_erases.ok hw
    refine ⟨(writei_spec h.fs h.locked _ _).ok rfl hrun,
      (writei_longer h.fs h.locked (length_chunk_lt _ _) hrun).locked, h.off,
      h.holder_at fun _ => h.holder q ?_⟩
    rw [hpc]
    trivial
  | advance hpc =>
    refine ⟨h.fs, h.locked, Nat.mod_lt _ (by decide), h.holder_at fun _ => h.holder q ?_⟩
    rw [hpc]
    trivial
  | fail hpc => exact h.leave (by rw [hpc]; trivial) id
  | again hpc => exact h.leave (by rw [hpc]; trivial) id

theorem Inv.next {e : Event ι} (h : Inv sb s) (hstep : next sb inodestart s e = some t) :
    Inv sb t := by
  cases e with
  | filewrite q src =>
    obtain ⟨-, -, rfl⟩ := filewrite_cases hstep
    refine ⟨h.fs, h.locked, h.off, h.holder_at fun hp => ?_⟩
    split_ifs at hp <;> exact hp.elim
  | step q => exact h.step (step_cases hstep)
  | fileread n =>
    obtain ⟨k, hk, -, rfl⟩ := fileread_cases h hstep
    refine ⟨h.fs, h.locked, ?_, h.holder⟩
    have hsize := h.covered.size_le
    have hoff := h.off
    change (s.fs.inode s.f.ip).size ≤ 71680 at hsize
    change s.f.off + k < 2 ^ 32
    omega
  | other e =>
    obtain ⟨fs, hfs, hforeign, -, rfl⟩ := other_cases hstep
    exact ⟨h.fs.next hfs, (next_longer h.fs h.locked hforeign hfs).locked, h.off, h.holder⟩

/-! ## The budget of a transaction -/

/-- Every transaction of `filewrite` logs at most `MAXOPBLOCKS` different blocks, also the one
that a panic cuts off. -/
theorem filewrite_budget (h : (system sb inodestart).Reachable s) :
    (∀ l ∈ s.txs, l.toFinset.card ≤ MAXOPBLOCKS) ∧
    ∀ q src i e, s.pc q = .locked src i →
      Logged.writei sb inodestart s.f.ip (chunk src i) s.f.off (s.fs, []) = .error e →
        e.2.toFinset.card ≤ MAXOPBLOCKS := by
  have hinv : Inv sb s ∧ ∀ l ∈ s.txs, l.toFinset.card ≤ MAXOPBLOCKS := by
    refine h.invariant (I := fun s => Inv sb s ∧ ∀ l ∈ s.txs, l.toFinset.card ≤ MAXOPBLOCKS)
      (fun s h₀ => ⟨h₀.inv, ?_⟩) ?_
    · rw [h₀.txs]
      exact fun l hl => absurd hl List.not_mem_nil
    rintro s e t ⟨hs, htxs⟩ hstep
    refine ⟨hs.next hstep, ?_⟩
    cases e with
    | filewrite q src =>
      obtain ⟨-, -, rfl⟩ := filewrite_cases hstep
      exact htxs
    | step q =>
      cases step_cases hstep with
      | write hpc hw =>
        intro l hl
        rcases List.mem_append.mp hl with hl | hl
        · exact htxs l hl
        · rw [List.mem_singleton.mp hl]
          exact (writei_logged hs.core hs.covered (length_chunk_le _ _)).ok rfl hw
      | _ => exact htxs
    | fileread n =>
      obtain ⟨k, -, -, rfl⟩ := fileread_cases hs hstep
      exact htxs
    | other e =>
      obtain ⟨fs, -, -, -, rfl⟩ := other_cases hstep
      exact htxs
  refine ⟨hinv.2, fun q src i e _ herr => ?_⟩
  exact (writei_logged hinv.1.core hinv.1.covered (length_chunk_le _ _)).error rfl herr

/-- The new file 2 of an image of mkfs, opened for writing. -/
def openedAt (fs : St) : State ℕ := ⟨fs, ⟨false, true, 2, 0⟩, none, fun _ => .user none, [], []⟩

theorem exists_opened : ∃ fs, Opened mkfsSb (openedAt fs) ∧
    runNext (FsBlocks.next mkfsSb) mkfsImage [.ialloc 2, .ilock 2] = some fs := by
  have h : ((runNext (FsBlocks.next mkfsSb) mkfsImage [.ialloc 2, .ilock 2]).any fun fs =>
      decide (fs.Locked 2)) = true := by decide +kernel
  obtain ⟨fs, hfs, hlocked⟩ := (Option.any_eq_true ..).mp h
  exact ⟨fs, ⟨⟨mkfsImage, _, mkfsImage_consistent, run_of_runNext hfs⟩, of_decide_eq_true hlocked,
    (Nat.two_pow_pos 32 : 0 < 2 ^ 32), rfl, fun _ => ⟨none, rfl⟩, rfl, rfl⟩, hfs⟩

/-- The first piece of a new file: the bitmap, its first block twice, and the inode. -/
theorem filewrite_budget_first : ∃ s : State ℕ, (system mkfsSb 32).Reachable s ∧
    s.txs = [[58, 60, 60, 32]] ∧ ∀ l ∈ s.txs, l.toFinset.card ≤ MAXOPBLOCKS := by
  obtain ⟨fs, hopen, hfs⟩ := exists_opened
  have h : ((runNext (FsBlocks.next mkfsSb) mkfsImage [.ialloc 2, .ilock 2]).any fun fs =>
      (runNext (next mkfsSb 32) (openedAt fs) [.filewrite 0 [7], .step 0, .step 0]).any fun s =>
        decide (s.txs = [[58, 60, 60, 32]])) = true := by decide +kernel
  rw [hfs, Option.any_some] at h
  obtain ⟨s, hs, htxs⟩ := (Option.any_eq_true ..).mp h
  have hreach : (system mkfsSb 32).Reachable s := ⟨_, _, hopen, run_of_runNext hs⟩
  exact ⟨s, hreach, of_decide_eq_true htxs, (filewrite_budget hreach).1⟩

end Ostep.FileWrite

import Ostep.OpenRefs

/-!
# Reference counts over whole runs

A process that is not running has no files and no current directory, so what `fork` copies into
a free entry of the process table is new, and what `exit` gives up is all that there was. From a
consistent image the calls of the processes keep every reference count, and those that fail leave
the disk as it was, except for an `open` that has made its file.
-/

namespace Ostep.FileCalls
open Hoare FileTable InodeCache Counting TransitionSystem
open FsBlocks (Superblock Dinode Inv)

variable {sb : Superblock} {s t u : St} {q np : Proc} {f : FileSlot} {k : Slot} {r : ℤ}

/-- Only running processes have files and a current directory. -/
def Idle (s : St) : Prop :=
  ∀ p, s.state p ≠ .RUNNING → s.cwd p = none ∧ ∀ fd, s.files.ofile (p, fd) = none

structure Kept (sb : Superblock) (s : St) : Prop where
  held : Held sb [] [] s
  idle : Idle s

/-- What a completed call keeps. -/
def Keeps (sb : Superblock) (s t : St) : Prop := Kept sb t ∧ (s.Anchored → t.Anchored)

theorem Own.idle (h : Own q s t) (hq : s.state q = .RUNNING) (hidle : Idle s) : Idle t := by
  intro p hp
  rw [h.state] at hp
  have hne : p ≠ q := by
    rintro rfl
    exact hp hq
  obtain ⟨hcwd, hofile⟩ := hidle p hp
  exact ⟨by rw [h.cwd p hne, hcwd], fun fd => by rw [h.ofile p fd hne, hofile]⟩

theorem CallSpec.keeps {failed : Prop} (h : CallSpec sb q failed s t) (hs : Kept sb s)
    (hq : s.state q = .RUNNING) : Keeps sb s t :=
  ⟨⟨h.held, h.own.idle hq hs.idle⟩, h.anchored⟩

/-! ## Fork -/

/-- The copy of the descriptors so far: those of `xs` are still to come. -/
structure Copied (sb : Superblock) (np : Proc) (s : St) (xs : List Fd) (t : St) : Prop where
  held : Held sb [] [] t
  fs : t.fs = s.fs
  inodes : t.files.inodes = s.files.inodes
  cwd : t.cwd = s.cwd
  state : t.state = s.state
  ofile : ∀ p fd, p ≠ np → t.files.ofile (p, fd) = s.files.ofile (p, fd)
  rest : ∀ fd ∈ xs, t.files.ofile (np, fd) = none

theorem dupFd_spec {fd : Fd} {xs : List Fd} (hfd : fd ∉ xs) (h : Copied sb np s (fd :: xs) t)
    {a : Unit} (hr : dupFd q np fd t = .ok (a, u)) : Copied sb np s xs u := by
  rw [dupFd, run_get_bind] at hr
  have hempty := h.rest fd (List.mem_cons_self ..)
  cases ho : t.files.ofile (q, fd) with
  | none =>
    rw [ho] at hr
    obtain ⟨-, rfl⟩ := run_pure.mp hr
    exact ⟨h.held, h.fs, h.inodes, h.cwd, h.state, h.ofile,
      fun fd' hfd' => h.rest fd' (List.mem_cons_of_mem _ hfd')⟩
  | some f =>
    rw [ho] at hr
    obtain ⟨_, v, hdup, hset⟩ := run_bind.mp hr
    obtain ⟨x, hx, rfl⟩ := filedup_run hdup
    obtain rfl := setFd_run hset
    have hc := h.held.files.filedup hx
    obtain ⟨-, rfl⟩ := filedup_some hx
    set y := t.files.setFile f (fun g => { g with ref := g.ref + 1 })
    have hi : y.inodes = t.files.inodes := inodes_setFile_same rfl
    refine ⟨h.held.setFiles (hc.fillFd (x := (np, fd)) hempty) hi, h.fs, hi.trans h.inodes, h.cwd,
      h.state, fun p fd' hp => ?_, fun fd' hfd' => ?_⟩
    · exact (setFd_ofile_of_ne (by simp [hp]) _).trans (h.ofile p fd' hp)
    · have hne : fd' ≠ fd := by
        rintro rfl
        exact hfd hfd'
      exact (setFd_ofile_of_ne (by simp [hne]) _).trans (h.rest fd' (List.mem_cons_of_mem _ hfd'))

theorem not_mem_of_suffix {α : Type} {x : α} {xs ys : List α} (h : x :: ys <:+ xs)
    (hn : xs.Nodup) : x ∉ ys :=
  (List.nodup_cons.mp (hn.sublist h.sublist)).1

theorem forkFiles_spec (h : Kept sb s) (hnp : s.state np = .UNUSED)
    (hr : forkFiles q np s = .ok (r, t)) : Keeps sb s t := by
  have hne : s.state np ≠ .RUNNING := by
    rw [hnp]
    nofun
  obtain ⟨hcwdnp, hofilenp⟩ := h.idle np hne
  obtain ⟨_, u, hparent, hrest⟩ := run_bind.mp hr
  obtain rfl := run_modify.mp hparent
  set s₁ : St := { s with parent := Function.update s.parent np (some q) }
  obtain ⟨_, x, hloop, hrest₁⟩ := run_bind.mp hrest
  have hcopied : Copied sb np s₁ [] x := by
    refine run_forM (I := Copied sb np s₁) (fun fd xs x y b hsuf hx hy => ?_) ?_ hloop
    · exact dupFd_spec (not_mem_of_suffix hsuf (List.nodup_finRange NOFILE)) hx hy
    · exact ⟨⟨h.held.good, h.held.files⟩, rfl, rfl, rfl, rfl, fun _ _ _ => rfl,
        fun fd _ => hofilenp fd⟩
  obtain ⟨k, v, hcwd, hrest₂⟩ := run_bind.mp hrest₁
  obtain ⟨hk, rfl⟩ := cwd_run hcwd
  obtain ⟨_, w, hdup, hrest₃⟩ := run_bind.mp hrest₂
  obtain ⟨y, hidup, rfl⟩ := fs_run hdup
  obtain ⟨_, w, hsetcwd, hrest₄⟩ := run_bind.mp hrest₃
  obtain rfl := run_modify.mp hsetcwd
  obtain ⟨_, w, hsetstate, hret⟩ := run_bind.mp hrest₄
  obtain rfl := run_modify.mp hsetstate
  obtain ⟨rfl, rfl⟩ := run_pure.mp hret
  obtain ⟨hgood, hquiet, -, -⟩ := idup_spec hcopied.held.good
    (hcopied.held.good.standing (base_pos hk)) hidup
  have hvnp : v.cwd np = none := by rw [hcopied.cwd]; exact hcwdnp
  have hbase : (fun l => occ (Function.update v.cwd np (some k)) l) =
      fun l => occ v.cwd l + [k].count l := by
    funext l
    have := occ_update v.cwd np (some k) l
    rw [hvnp] at this
    simp only [reduceCtorEq, if_false, Option.some.injEq] at this
    rw [List.count_singleton]
    simp only [beq_iff_eq]
    omega
  set t : St := ⟨y, v.files, Function.update v.cwd np (some k),
    Function.update v.state np .RUNNING, v.parent⟩ with ht
  have hbase' : t.base = plus v.base k := by
    funext l
    have := congrFun hbase l
    rw [St.base, plus, St.base, ht]
    simp only at this ⊢
    omega
  refine ⟨⟨⟨?_, hcopied.held.files⟩, fun p hp => ?_⟩, fun ha => ?_⟩
  · rw [hbase']
    exact good_plus.mpr hgood
  · have hpnp : p ≠ np := by
      rintro rfl
      exact hp (Function.update_self ..)
    have hps : s.state p ≠ .RUNNING := by
      intro hrun
      refine hp ((Function.update_of_ne hpnp ..).trans ?_)
      rw [hcopied.state]
      exact hrun
    obtain ⟨hcwdp, hofilep⟩ := h.idle p hps
    refine ⟨(Function.update_of_ne hpnp ..).trans ?_, fun fd => (hcopied.ofile p fd hpnp).trans ?_⟩
    · rw [hcopied.cwd]
      exact hcwdp
    · exact hofilep fd
  · have hv : v.Anchored := by
      have hvbase : v.base = s.base := by
        funext l
        rw [St.base, St.base, hcopied.inodes, hcopied.cwd]
      rw [St.Anchored, hvbase, hcopied.fs]
      exact ha
    rw [St.Anchored, hbase']
    exact (hquiet.anchored hv).mono (le_plus _ _)

theorem fork_spec (h : Kept sb s) {kstack copy : Bool}
    (hr : fork q kstack copy s = .ok (r, t)) : Keeps sb s t := by
  rw [fork, run_get_bind] at hr
  rcases hfind : (List.finRange NPROC).find? (fun p => s.state p = .UNUSED) with _ | np
  · rw [hfind] at hr
    obtain ⟨-, rfl⟩ := run_pure.mp hr
    exact ⟨h, id⟩
  · rw [hfind] at hr
    rcases run_ite.mp hr with ⟨-, hr⟩ | ⟨-, hr⟩
    · exact forkFiles_spec h (by simpa using List.find?_some hfind) hr
    · obtain ⟨-, rfl⟩ := run_pure.mp hr
      exact ⟨h, id⟩

/-! ## Exit and wait -/

/-- A file is closed in the same way when its descriptor is cleared first. -/
theorem fileclose_setFd {y : Proc × Fd} {v : Option FileSlot} {a : Unit}
    (h : fileclose f s = .ok (a, t)) :
    fileclose f { s with files := s.files.setFd y v } =
      .ok (a, { t with files := t.files.setFd y v }) := by
  rw [fileclose, run_get_bind] at h ⊢
  simp only [FileTable.fileclose_setFd]
  cases hf : s.files.fileclose f with
  | none =>
    rw [hf] at h
    exact (run_throw.mp h).elim
  | some p =>
    obtain ⟨ff, x⟩ := p
    rw [hf] at h
    obtain ⟨_, u, hset, h⟩ := run_bind.mp h
    obtain rfl := setFiles_run hset
    refine run_bind.mpr ⟨⟨⟩, _, rfl, ?_⟩
    cases ff with
    | none =>
      obtain ⟨rfl, rfl⟩ := run_pure.mp h
      rfl
    | some ff =>
      rcases run_ite.mp h with ⟨htype, h⟩ | ⟨htype, h⟩
      · refine run_ite.mpr (.inl ⟨htype, ?_⟩)
        cases hip : ff.ip with
        | none =>
          rw [hip] at h
          exact (run_throw.mp h).elim
        | some k =>
          rw [hip] at h
          obtain ⟨w, hput, rfl⟩ := fs_run h
          change fs (iput k) _ = _
          rw [fs]
          simp only
          rw [hput]
      · refine run_ite.mpr (.inr ⟨htype, ?_⟩)
        obtain ⟨rfl, rfl⟩ := run_pure.mp h
        rfl

/-- The descriptors closed so far: those of `xs` are still to come. -/
structure Closed (sb : Superblock) (q : Proc) (s : St) (xs : List Fd) (t : St) : Prop where
  held : Held sb [] [] t
  anchored : s.Anchored → t.Anchored
  own : Own q s t
  cwd : t.cwd = s.cwd
  done : ∀ fd, fd ∉ xs → t.files.ofile (q, fd) = none

theorem exitFd_spec {fd : Fd} {xs : List Fd} (h : Closed sb q s (fd :: xs) t) {a : Unit}
    (hr : exitFd q fd t = .ok (a, u)) : Closed sb q s xs u := by
  rw [exitFd, run_get_bind] at hr
  cases ho : t.files.ofile (q, fd) with
  | none =>
    rw [ho] at hr
    obtain ⟨-, rfl⟩ := run_pure.mp hr
    refine ⟨h.held, h.anchored, h.own, h.cwd, fun fd' hfd' => ?_⟩
    by_cases heq : fd' = fd
    · rw [heq, ho]
    · exact h.done fd' (by simp [heq, hfd'])
  | some f =>
    rw [ho] at hr
    obtain ⟨_, v, hclose, hset⟩ := run_bind.mp hr
    obtain rfl := setFd_run hset
    have hheld : Held sb [f] [] { t with files := t.files.setFd (q, fd) none } :=
      h.held.setFiles (h.held.files.clearFd ho) rfl
    obtain ⟨hheld', hanch, hcwd, hstate, hofile⟩ := fileclose_spec hheld (fileclose_setFd hclose)
    refine ⟨hheld', fun ha => hanch (Anchored.setFiles (h.anchored ha) rfl),
      h.own.trans ((own_setFd t fd none).trans ⟨hstate, fun p _ => by rw [hcwd],
        fun p fd' _ => by rw [hofile]⟩), hcwd.trans h.cwd, fun fd' hfd' => ?_⟩
    by_cases heq : fd' = fd
    · rw [heq]
      exact setFd_ofile ..
    · rw [hofile]
      exact (setFd_ofile_of_ne (by simp [heq]) _).trans (h.done fd' (by simp [heq, hfd']))

theorem exit_spec (h : Kept sb s) (hr : exit q s = .ok (r, t)) : Keeps sb s t := by
  rcases run_ite.mp hr with ⟨-, hr⟩ | ⟨-, hr⟩
  · exact (run_throw.mp hr).elim
  obtain ⟨_, x, hloop, hrest₁⟩ := run_bind.mp hr
  have hclosed : Closed sb q s [] x := by
    refine run_forM (I := Closed sb q s) (fun fd xs x y b _ hx hy => exitFd_spec hx hy) ?_ hloop
    exact ⟨h.held, id, .refl q s, rfl, fun fd hfd => (hfd (List.mem_finRange fd)).elim⟩
  obtain ⟨k, v, hcwd, hrest₂⟩ := run_bind.mp hrest₁
  obtain ⟨hk, rfl⟩ := cwd_run hcwd
  obtain ⟨_, w, hput, hrest₃⟩ := run_bind.mp hrest₂
  obtain ⟨y, hiput, rfl⟩ := fs_run hput
  obtain ⟨_, w, hsetcwd, hrest₄⟩ := run_bind.mp hrest₃
  obtain rfl := run_modify.mp hsetcwd
  obtain ⟨_, w, hparent, hrest₅⟩ := run_bind.mp hrest₄
  obtain rfl := run_modify.mp hparent
  obtain ⟨_, w, hstate, hret⟩ := run_bind.mp hrest₅
  obtain rfl := run_modify.mp hstate
  obtain ⟨rfl, rfl⟩ := run_pure.mp hret
  have hbase : v.base = plus (St.base { v with cwd := Function.update v.cwd q none }) k := by
    simpa using setCwd_base v hk none
  have hgood := hclosed.held.good
  rw [hbase] at hgood
  have hgood := good_plus.mp hgood
  refine ⟨⟨⟨(iput_run hgood hiput).1, hclosed.held.files⟩, fun p hp => ?_⟩, fun ha => ?_⟩
  · by_cases hpq : p = q
    · subst hpq
      exact ⟨Function.update_self .., fun fd => hclosed.done fd (by simp)⟩
    · have hps : s.state p ≠ .RUNNING := by
        intro hrun
        refine hp ((Function.update_of_ne hpq ..).trans ?_)
        change v.state p = _
        rw [hclosed.own.state, hrun]
      obtain ⟨hcwdp, hofilep⟩ := h.idle p hps
      refine ⟨(Function.update_of_ne hpq ..).trans ?_, fun fd => ?_⟩
      · change v.cwd p = none
        rw [hclosed.cwd, hcwdp]
      · change v.files.ofile (p, fd) = none
        rw [hclosed.own.ofile p fd hpq, hofilep]
  · have ha' : v.Anchored := hclosed.anchored ha
    rw [St.Anchored, hbase] at ha'
    exact iput_final hgood ha' hiput

theorem wait_spec (h : Kept sb s) {killed : Bool} (hr : wait q killed s = .ok (r, t)) :
    Keeps sb s t := by
  rw [wait, run_get_bind] at hr
  rcases hfind : (List.finRange NPROC).find?
      (fun p => s.parent p = some q ∧ s.state p = .ZOMBIE) with _ | z
  · rw [hfind] at hr
    rcases run_ite.mp hr with ⟨-, hr⟩ | ⟨-, hr⟩
    · obtain ⟨-, rfl⟩ := run_pure.mp hr
      exact ⟨h, id⟩
    · exact (run_throw.mp hr).elim
  · rw [hfind] at hr
    have hz : s.state z = .ZOMBIE := by
      have := List.find?_some hfind
      simp only [decide_eq_true_eq] at this
      exact this.2
    obtain ⟨_, u, hparent, hrest⟩ := run_bind.mp hr
    obtain rfl := run_modify.mp hparent
    obtain ⟨_, u, hstate, hret⟩ := run_bind.mp hrest
    obtain rfl := run_modify.mp hstate
    obtain ⟨-, rfl⟩ := run_pure.mp hret
    refine ⟨⟨⟨h.held.good, h.held.files⟩, fun p hp => h.idle p fun hrun => ?_⟩, id⟩
    by_cases hpz : p = z
    · rw [hpz, hz] at hrun
      cases hrun
    · exact hp ((Function.update_of_ne hpz ..).trans hrun)

/-! ## Runs -/

/-- The calls that a failure is to leave without effect. -/
def Call.Undone : Call → Prop
  | .open .. | .link .. | .unlink .. | .mkdir .. | .mknod .. | .chdir .. | .dup .. | .pipe .. => True
  | _ => False

theorem undone_spec (h : Held sb [] [] s) {c : Call} (hc : c.Undone)
    (hr : c.body sb q s = .ok (r, t)) : CallSpec sb q (r = -1 ∧ ¬ Stranded q s c) s t ∧
      (s.Anchored → Stranded q s c → r = -1 ∧ t.fs.disk ≠ s.fs.disk) := by
  have hplain : CallSpec sb q (r = -1) s t → ¬ Stranded q s c →
      CallSpec sb q (r = -1 ∧ ¬ Stranded q s c) s t ∧
        (s.Anchored → Stranded q s c → r = -1 ∧ t.fs.disk ≠ s.fs.disk) :=
    fun hspec hno => ⟨⟨hspec.held, hspec.own, hspec.anchored,
      fun ha hf => hspec.same ha hf.1⟩, fun _ hs => (hno hs).elim⟩
  cases c with
  | «open» path omode => exact sys_open_spec h hr
  | link old new =>
    exact hplain (onPath_spec h hr fun k v hk hm => sys_link_spec h.good hk hm) id
  | unlink path =>
    exact hplain (onPath_spec h hr fun k v hk hm => sys_unlink_spec h.good hk hm) id
  | mkdir path =>
    exact hplain (onPath_spec h hr fun k v hk hm => sys_mkdir_spec h.good hk hm) id
  | mknod path major minor =>
    exact hplain (onPath_spec h hr fun k v hk hm => sys_mknod_spec h.good hk hm) id
  | chdir path => exact hplain (sys_chdir_spec h hr) id
  | dup fd => exact hplain (sys_dup_spec h hr) id
  | pipe fd kalloc => exact hplain (sys_pipe_spec h hr) id
  | _ => exact hc.elim

theorem body_spec (h : Kept sb s) (hq : s.state q = .RUNNING) {c : Call}
    (hr : c.body sb q s = .ok (r, t)) : Keeps sb s t := by
  by_cases hc : c.Undone
  · exact (undone_spec h.held hc hr).1.keeps h hq
  cases c with
  | close fd => exact (sys_close_spec h.held hr).keeps h hq
  | read fd args => exact (sys_read_spec h.held hr).keeps h hq
  | write fd src pipe => exact (sys_write_spec h.held hr).keeps h hq
  | fstat fd st => exact (sys_fstat_spec h.held hr).keeps h hq
  | exec path env =>
    exact (onPath_spec h.held hr fun k v hk hm => exec_spec h.held.good hk hm).keeps h hq
  | fork kstack copy => exact fork_spec h hr
  | exit => exact exit_spec h hr
  | wait killed => exact wait_spec h hr
  | _ => exact (hc trivial).elim

/-- A consistent disk; no inode is allocated past the table. -/
structure Image (sb : Superblock) (d : FsBlocks.St) : Prop where
  consistent : FsBlocks.Consistent sb d
  free : ∀ i, sb.ninodes ≤ i → (d.dinode i).type = 0

/-- Every inode that is allocated has a link, and a link count is a `short`. -/
structure Linked (d : FsBlocks.St) : Prop where
  linked : ∀ i, (d.dinode i).type = 0 ∨ (d.dinode i).nlink ≠ 0
  inRange : ∀ i, short (d.dinode i).nlink = (d.dinode i).nlink

/-- What `userinit` leaves: one process, in the root directory, which `namei` has taken. -/
def boot (d : FsBlocks.St) : St where
  fs := {
    bitmap := d.bitmap
    data := d.data
    dinode := d.dinode
    icache := fun k => if k = 0 then ⟨⟨1, false, Dinode.zero⟩, ROOTDEV, ROOTINO, false⟩
      else ⟨⟨0, false, Dinode.zero⟩, 0, 0, false⟩ }
  files := ⟨fun _ => File.zero, fun _ => none⟩
  cwd p := if p = initproc then some 0 else none
  state p := if p = initproc then .RUNNING else .UNUSED
  parent _ := none

def system (sb : Superblock) (P : FsBlocks.St → Prop) : System St (Proc × Call) :=
  .ofNext (fun s => ∃ d, P d ∧ s = boot d) (next sb)

theorem boot_live {d : FsBlocks.St} {k : Slot} (h : 0 < ((boot d).fs.icache k).ref) : k = 0 := by
  by_contra hk
  simp [boot, hk] at h

theorem boot_valid (d : FsBlocks.St) (k : Slot) : ((boot d).fs.icache k).valid = false := by
  by_cases hk : k = 0 <;> simp [boot, hk]

theorem boot_base (d : FsBlocks.St) (k : Slot) : (boot d).base k = if k = 0 then 1 else 0 := by
  have hinodes : (boot d).files.inodes k = 0 := by
    simp [boot, Table.inodes, occ, File.inode, File.zero]
  rw [St.base, hinodes, Nat.zero_add]
  simp only [boot, occ]
  rw [Finset.sum_eq_single_of_mem initproc (Finset.mem_univ _)]
  · by_cases hk : k = 0
    · simp [hk]
    · simp [hk, Ne.symm hk]
  · intro p _ hp
    simp [hp]

theorem boot_kept {d : FsBlocks.St} (h : Image sb d) : Kept sb (boot d) := by
  have hunique : Unique (boot d).fs := fun k l hk hl _ => by rw [boot_live hk, boot_live hl]
  have hlt : ∀ i, (d.dinode i).type ≠ 0 → i < sb.ninodes := by
    intro i hne
    by_contra hi
    exact hne (h.free i (by omega))
  have hpointer : FsBlocks.pointer sb.wide d.data d.dinode = FsBlocks.pointer sb d.data d.dinode := by
    funext p
    refine if_congr ⟨fun hp => ⟨hlt _ hp.2.1, hp.2⟩, fun hp => ⟨?_, hp.2⟩⟩ rfl rfl
    exact Nat.lt_of_lt_of_le hp.1 (Nat.le_max_left ..)
  have hwide : FsBlocks.Consistent sb.wide d := by
    refine ⟨?_, fun i _ hne => ?_, h.consistent.icache⟩
    · rw [hpointer]
      exact h.consistent.owns
    · rw [hpointer]
      exact h.consistent.covered i (hlt i hne) hne
  have hinv : Inv sb.wide (boot d).fs.blocks := by
    refine hwide.inv.cache rfl rfl rfl fun i hi => ?_
    obtain ⟨k, -, -, hv, -⟩ := slot_of_locked hunique hi
    rw [boot_valid] at hv
    cases hv
  refine ⟨⟨⟨⟨fun k hk => ?_, fun k hk => ?_, hunique, hinv⟩, fun k => ?_⟩, fun f => ?_, fun _ _ => rfl⟩,
    fun p hp => ?_⟩
  · rw [boot_live hk]
    rfl
  · rw [boot_live hk]
    exact Nat.lt_of_lt_of_le (by decide : 1 < 2 ^ 16) (Nat.le_max_right ..)
  · rw [boot_base]
    by_cases hk : k = 0 <;> simp [boot, hk]
  · simp [boot, File.zero, occ]
  · have hne : p ≠ initproc := by
      rintro rfl
      exact hp rfl
    simp [boot, hne]

theorem next_run {e : Proc × Call} (h : next sb s e = some t) :
    s.state e.1 = .RUNNING ∧ ∃ r, e.2.body sb e.1 s = .ok (r, t) := by
  rw [next] at h
  split_ifs at h with hq
  refine ⟨hq, ?_⟩
  cases hr : e.2.body sb e.1 s with
  | ok p =>
    rw [hr] at h
    obtain ⟨r, u⟩ := p
    obtain rfl := Option.some.inj h
    exact ⟨r, rfl⟩
  | error e =>
    rw [hr] at h
    cases h

theorem reachable_kept (h : (system sb (Image sb)).Reachable s) : Kept sb s := by
  refine h.invariant (fun s hs => ?_) fun s e t hs hstep => ?_
  · obtain ⟨d, hd, rfl⟩ := hs
    exact boot_kept hd
  · obtain ⟨hq, r, hr⟩ := next_run hstep
    exact (body_spec hs hq hr).1

theorem mkfsImage_image : Image FsBlocks.mkfsSb FsBlocks.mkfsImage := by
  refine ⟨FsBlocks.mkfsImage_consistent, fun i hi => ?_⟩
  have hne : i ≠ 1 := by
    rintro rfl
    exact absurd hi (by decide)
  simp [FsBlocks.mkfsImage, hne, Dinode.zero]

attribute [local instance] nproc_neZero

end Ostep.FileCalls

import Ostep.CallRefs

/-!
# Calls that make open files

`open` and `chdir` turn the reference that the path gave them into a standing one. `pipe` undoes
what it did where it fails; `open` gives back its file and its inode, but not a file that it made.
-/

namespace Ostep.FileCalls
open Hoare FileTable InodeCache Counting
open FsBlocks (Superblock)

variable {sb : Superblock} {s t u : St} {q : Proc} {f : FileSlot} {F : List FileSlot}
  {L : List Slot} {k ip : Slot}

/-! ## Open -/

/-- There is no file structure or no descriptor left. -/
def NoRoom (q : Proc) (s : St) : Prop :=
  (∀ f, (s.files.file f).ref ≠ 0) ∨ ∀ fd, s.files.ofile (q, fd) ≠ none

/-- `open` gives back the inode. -/
theorem openFail_spec (h : Held sb [] [ip] s) {a : Unit}
    (hr : fs (iunlockput ip) s = .ok (a, t)) :
    Held sb [] [] t ∧ Own q s t ∧ Quiet s.base s.fs t.fs ∧ t.files = s.files ∧ t.cwd = s.cwd := by
  obtain ⟨v, hput, rfl⟩ := fs_run hr
  obtain ⟨hgood, hquiet, -⟩ := iunlockput_quiet h.good hput
  exact ⟨h.fs hgood, ⟨rfl, fun _ _ => rfl, fun _ _ _ => rfl⟩, hquiet, rfl, rfl⟩

/-- `open` with a locked inode. -/
theorem openFile_spec (h : Held sb [] [ip] s) {omode : ℕ} {r : ℤ}
    (hr : openFile q ip omode s = .ok (r, t)) :
    Held sb [] [] t ∧ Own q s t ∧ (s.Anchored → t.Anchored) ∧ (s.Anchored → t.fs.disk = s.fs.disk) ∧
      (r = -1 ↔ NoRoom q s) ∧ (r = -1 → t.files.ofile = s.files.ofile ∧ t.cwd = s.cwd) := by
  obtain ⟨p, u, halloc, hrest⟩ := run_bind.mp hr
  rcases filealloc_run halloc with ⟨rfl, hfull, rfl⟩ | ⟨f, x, rfl, hx, rfl⟩
  · obtain ⟨_, v, hput, hret⟩ := run_bind.mp hrest
    obtain ⟨rfl, rfl⟩ := run_pure.mp hret
    obtain ⟨hheld, hown, hquiet, hfiles, hcwd⟩ := openFail_spec (q := q) h hput
    have hbase : v.base = u.base := by
      funext k
      rw [St.base, St.base, hfiles, hcwd]
    refine ⟨hheld, hown, fun ha => ?_, hquiet.2, ⟨fun _ => .inl hfull, fun _ => rfl⟩,
      fun _ => ⟨by rw [hfiles], hcwd⟩⟩
    rw [St.Anchored, hbase]
    exact hquiet.anchored ha
  obtain ⟨hheld, hplain, hofile₀, htype⟩ := filealloc_plain h hx
  have hfree : (s.files.file f).ref = 0 := (filealloc_some hx).1
  obtain ⟨fd, u, hfd, hopen⟩ := run_bind.mp hrest
  rcases fdalloc_run hfd with ⟨rfl, hfull, rfl⟩ | ⟨fd, rfl, hnone, rfl⟩
  · obtain ⟨_, v, hclose, hopen⟩ := run_bind.mp hopen
    obtain ⟨_, w, hput, hret⟩ := run_bind.mp hopen
    obtain ⟨rfl, rfl⟩ := run_pure.mp hret
    obtain ⟨hheld, hplain', hofile'⟩ := fileclose_plain hheld htype hclose
    have hplain := hplain.trans hplain'
    obtain ⟨hheld, hown, hquiet, hfiles, hcwd⟩ := openFail_spec (q := q) hheld hput
    have hbase : w.base = v.base := by
      funext k
      rw [St.base, St.base, hfiles, hcwd]
    have hofile := hofile'.trans hofile₀
    refine ⟨hheld, ⟨hown.state.trans hplain.state, fun p _ => by rw [hcwd, hplain.cwd],
      fun p fd _ => by rw [hfiles, hofile]⟩, fun ha => ?_, fun ha => ?_, ⟨fun _ => .inr ?_,
      fun _ => rfl⟩, fun _ => ⟨by rw [hfiles, hofile], by rw [hcwd, hplain.cwd]⟩⟩
    · rw [St.Anchored, hbase]
      exact hquiet.anchored (hplain.anchored ha)
    · rw [hquiet.2 (hplain.anchored ha), hplain.fs]
    · intro fd
      rw [← hofile₀]
      exact hfull fd
  · obtain ⟨_, v, hunlock, hopen⟩ := run_bind.mp hopen
    obtain ⟨_, w, hset, hret⟩ := run_bind.mp hopen
    obtain ⟨rfl, rfl⟩ := run_pure.mp hret
    obtain ⟨y, hul, rfl⟩ := fs_run hunlock
    obtain rfl := setFile_run hset
    obtain ⟨hgood, hholds, hdisk⟩ := iunlock_spec h.good hul
    set g : File ℕ Slot → File ℕ Slot := fun g => { g with
      type := .FD_INODE
      ip := some ip
      off := 0
      readable := omode &&& O_WRONLY = 0
      writable := omode &&& O_WRONLY ≠ 0 ∨ omode &&& O_RDWR ≠ 0 } with hg
    set z := x.setFd (q, fd) (some f)
    have hc : Counted z [] := hheld.files.fillFd hnone
    have hc' : Counted (z.setFile f g) [] := by
      refine hc.setFile (fun _ _ => rfl) rfl fun h0 => ?_
      have := hc.pos (setFd_ofile (t := x) (q, fd) (some f))
      change (z.file f).ref = 0 at h0
      omega
    have hbase : St.base { s with fs := y, files := z.setFile f g } = plus s.base ip := by
      funext k
      have hi := inodes_setFile (t := z) (f := f) g k
      have hx := congrFun hplain.base k
      have hz : (z.file f).inode = none := if_neg htype
      have hgf : (g (z.file f)).inode = some ip := if_pos rfl
      rw [hz, hgf] at hi
      change z.inodes k + occ s.cwd k = s.files.inodes k + occ s.cwd k at hx
      change (z.setFile f g).inodes k + occ s.cwd k = s.files.inodes k + occ s.cwd k + _
      simp only [reduceCtorEq, if_false, Option.some.injEq] at hi
      rw [List.count_singleton]
      simp only [beq_iff_eq]
      omega
    have hroom : ¬ NoRoom q s := by
      rintro (hfull | hfull)
      · exact hfull f hfree
      · exact hfull fd (by rw [← hofile₀]; exact hnone)
    have hnot : ((fd.val : ℤ) = -1) ↔ False := ⟨fun hfd => by omega, False.elim⟩
    refine ⟨⟨?_, hc'⟩, ⟨rfl, fun _ _ => rfl, fun p fd' hp => ?_⟩, fun ha => ?_, fun _ => hdisk,
      by rw [hnot]; exact ⟨False.elim, hroom⟩, fun hfd => (hnot.mp hfd).elim⟩
    · rw [hbase]
      exact good_plus.mpr hgood
    · rw [← hofile₀]
      exact setFd_ofile_of_ne (by simp [hp]) _
    · rw [St.Anchored, hbase]
      exact (ha.mono (le_plus s.base ip)).disk (hholds.stay _) hdisk

/-- The call is an `open` that makes its file before it finds that it has nowhere to put it. -/
def Stranded (q : Proc) (s : St) : Call → Prop
  | .open (some path) (some omode) =>
    (∃ k, s.cwd q = some k ∧ Makes s.fs k path omode) ∧ NoRoom q s
  | _ => False

theorem sys_open_spec (h : Held sb [] [] s) {path : Option Bytes} {omode : Option ℕ} {r : ℤ}
    (hr : sys_open sb q path omode s = .ok (r, t)) :
    CallSpec sb q (r = -1 ∧ ¬ Stranded q s (.open path omode)) s t ∧
      (s.Anchored → Stranded q s (.open path omode) → r = -1 ∧ t.fs.disk ≠ s.fs.disk) := by
  rcases path with _ | path
  · obtain ⟨-, rfl⟩ := run_pure.mp hr
    exact ⟨.refl h _, fun _ hs => hs.elim⟩
  rcases omode with _ | omode
  · obtain ⟨-, rfl⟩ := run_pure.mp hr
    exact ⟨.refl h _, fun _ hs => hs.elim⟩
  obtain ⟨p, u, hpath, hopen⟩ := run_bind.mp hr
  obtain ⟨k, v, hk, hpos, hinode, rfl⟩ := onPath_run hpath
  obtain ⟨hgood, hleaves, hnew⟩ := openInode_spec h.good hpos hinode
  have hmakes : Stranded q s (.open (some path) (some omode)) ↔ Makes s.fs k path omode ∧ NoRoom q s := by
    refine ⟨fun ⟨⟨k', hk', hm⟩, hroom⟩ => ⟨?_, hroom⟩, fun ⟨hm, hroom⟩ => ⟨⟨k, hk, hm⟩, hroom⟩⟩
    obtain rfl := Option.some.inj (hk.symm.trans hk')
    exact hm
  cases p with
  | none =>
    obtain ⟨rfl, rfl⟩ := run_pure.mp hopen
    have hno : s.Anchored → ¬ Makes s.fs k path omode := by
      intro ha hm
      obtain ⟨ip, hip, -⟩ := hnew ha hm
      cases hip
    exact ⟨⟨h.fs hgood, ⟨rfl, fun _ _ => rfl, fun _ _ _ => rfl⟩, hleaves.anchored,
      fun ha _ => ⟨hleaves.same ha (hno ha), fun _ => rfl, rfl⟩⟩,
      fun ha hs => (hno ha (hmakes.mp hs).1).elim⟩
  | some ip =>
    obtain ⟨hheld, hown, hanch, hdisk, hroom, hsame⟩ := openFile_spec (h.fs hgood) hopen
    refine ⟨⟨hheld, ⟨hown.state, hown.cwd, hown.ofile⟩, fun ha => hanch (hleaves.anchored ha), fun ha hf => ?_⟩, fun ha hs => ?_⟩
    · obtain ⟨hr, hs⟩ := hf
      obtain ⟨hofile, hcwd⟩ := hsame hr
      have hnot : ¬ Makes s.fs k path omode := fun hm => hs (hmakes.mpr ⟨hm, hroom.mp hr⟩)
      refine ⟨(hdisk (hleaves.anchored ha)).trans (hleaves.same ha hnot), fun fd => ?_, ?_⟩
      · rw [hofile]
      · rw [hcwd]
    · obtain ⟨hm, hr⟩ := hmakes.mp hs
      obtain ⟨ip', hip, hfree, htype⟩ := hnew ha hm
      refine ⟨hroom.mpr hr, fun heq => ?_⟩
      rw [hdisk (hleaves.anchored ha)] at heq
      have hdinode : v.dinode = s.fs.dinode := congrArg (fun d => d.2.2) heq
      rw [hdinode, hfree] at htype
      cases htype

/-! ## Chdir -/

/-- The old directory's reference is given up as the new one's becomes a standing reference. -/
theorem setCwd_base (s : St) {old : Slot} (hold : s.cwd q = some old) (v : Option Slot) :
    (fun k => s.base k + (v.toList).count k) =
      plus (St.base { s with cwd := Function.update s.cwd q v }) old := by
  funext k
  have := occ_update s.cwd q v k
  rw [hold] at this
  simp only [St.base, plus, List.count_singleton, beq_iff_eq, Option.some.injEq] at this ⊢
  cases v with
  | none =>
    simp at this ⊢
    omega
  | some ip =>
    simp [List.count_singleton] at this ⊢
    omega

theorem sys_chdir_spec (h : Held sb [] [] s) {path : Option Bytes} {r : ℤ}
    (hr : sys_chdir sb q path s = .ok (r, t)) : CallSpec sb q (r = -1) s t := by
  obtain ⟨p, u, hpath, hrest⟩ := run_bind.mp hr
  obtain ⟨k, v, hk, hpos, hinode, rfl⟩ := onPath_run hpath
  obtain ⟨hgood, hquiet⟩ := chdirInode_spec h.good hpos hinode
  cases p with
  | none =>
    obtain ⟨rfl, rfl⟩ := run_pure.mp hrest
    exact ⟨h.fs hgood, ⟨rfl, fun _ _ => rfl, fun _ _ _ => rfl⟩, hquiet.anchored,
      fun ha _ => ⟨hquiet.2 ha, fun _ => rfl, rfl⟩⟩
  | some ip =>
    obtain ⟨old, w, hcwd, hrest⟩ := run_bind.mp hrest
    obtain ⟨hold, rfl⟩ := cwd_run hcwd
    obtain ⟨_, w, hput, hrest⟩ := run_bind.mp hrest
    obtain ⟨y, hiput, rfl⟩ := fs_run hput
    obtain ⟨_, x, hset, hret⟩ := run_bind.mp hrest
    obtain rfl := run_modify.mp hset
    obtain ⟨rfl, rfl⟩ := run_pure.mp hret
    have hbase := setCwd_base s hold (some ip)
    change plus s.base ip = _ at hbase
    have hgood' := good_plus.mpr hgood
    rw [hbase] at hgood'
    have hgood' := good_plus.mp hgood'
    refine ⟨⟨(iput_run hgood' hiput).1, h.files⟩, ⟨rfl, fun p hp => ?_, fun _ _ _ => rfl⟩,
      fun ha => ?_, fun _ hf => by cases hf⟩
    · exact Function.update_of_ne hp ..
    · have ha' := (hquiet.anchored ha).mono (le_plus s.base ip)
      rw [hbase] at ha'
      exact iput_final hgood' ha' hiput

/-! ## Pipes -/

theorem pipeallocBad_spec {f0 f1 : FileSlot} (h : Held sb [f0, f1] L s)
    (h0 : (s.files.file f0).type ≠ .FD_INODE) (h1 : (s.files.file f1).type ≠ .FD_INODE)
    {r : Option (FileSlot × FileSlot)} (hr : pipeallocBad f0 f1 s = .ok (r, t)) :
    r = none ∧ Held sb [] L t ∧ Plain s t ∧ t.files.ofile = s.files.ofile := by
  obtain ⟨_, u, hclose, hrest⟩ := run_bind.mp hr
  obtain ⟨hheld, hplain, hofile⟩ := fileclose_plain h h0 hclose
  obtain ⟨_, v, hclose', hret⟩ := run_bind.mp hrest
  obtain ⟨hheld', hplain', hofile'⟩ :=
    fileclose_plain hheld (fun hf => h1 (hplain.type f1 hf)) hclose'
  obtain ⟨rfl, rfl⟩ := run_pure.mp hret
  exact ⟨rfl, hheld', hplain.trans hplain', hofile'.trans hofile⟩

theorem setPipe_spec {p : ℕ} {w : Bool} (h : Held sb F L s)
    (hf : (s.files.file f).type ≠ .FD_INODE) (hpos : 0 < (s.files.file f).ref) {a : Unit}
    (hr : setPipe p f w s = .ok (a, t)) :
    Held sb F L t ∧ Plain s t ∧ t.files.ofile = s.files.ofile ∧
      (∀ f', (t.files.file f').ref = (s.files.file f').ref) := by
  obtain rfl := setFile_run hr
  set g : File ℕ Slot → File ℕ Slot := fun g => { g with
    type := .FD_PIPE, readable := !w, writable := w, pipe := some p }
  have hi : (s.files.setFile f g).inodes = s.files.inodes :=
    inodes_setFile_same (by rw [File.inode, File.inode, if_neg hf]; rfl)
  refine ⟨h.setFiles (h.files.setFile (fun _ _ => rfl) rfl fun h0 => ?_) hi,
    .setFiles hi fun f' => setFile_type (g := g) (fun hg => by cases hg) f', rfl, fun f' => ?_⟩
  · change (s.files.file f).ref = 0 at h0
    omega
  · by_cases hf' : f' = f
    · rw [hf']
      change ((s.files.setFile f g).file f).ref = _
      rw [setFile_file]
    · change ((s.files.setFile f g).file f').ref = _
      rw [setFile_file_of_ne hf']

theorem Held.live (h : Held sb F L s) (hf : f ∈ F) : 0 < (s.files.file f).ref := by
  have := List.count_pos_iff.mpr hf
  have := h.files.ref f
  omega

theorem pipealloc_spec (h : Held sb [] L s) {kalloc : Option ℕ}
    {r : Option (FileSlot × FileSlot)} (hr : pipealloc kalloc s = .ok (r, t)) :
    Plain s t ∧ t.files.ofile = s.files.ofile ∧
      match r with
      | none => Held sb [] L t
      | some (f0, f1) => Held sb [f0, f1] L t ∧
          (t.files.file f0).type ≠ .FD_INODE ∧ (t.files.file f1).type ≠ .FD_INODE := by
  obtain ⟨p, u, halloc, hrest⟩ := run_bind.mp hr
  rcases filealloc_run halloc with ⟨rfl, -, rfl⟩ | ⟨f0, x, rfl, hx, rfl⟩
  · obtain ⟨rfl, rfl⟩ := run_pure.mp hrest
    exact ⟨⟨rfl, rfl, rfl, rfl, fun _ => id⟩, rfl, h⟩
  obtain ⟨hheld, hplain, hofile, htype⟩ := filealloc_plain h hx
  obtain ⟨p, u, halloc', hrest'⟩ := run_bind.mp hrest
  rcases filealloc_run halloc' with ⟨rfl, -, rfl⟩ | ⟨f1, y, rfl, hy, rfl⟩
  · obtain ⟨_, v, hclose, hret⟩ := run_bind.mp hrest'
    obtain ⟨rfl, rfl⟩ := run_pure.mp hret
    obtain ⟨hheld', hplain', hofile'⟩ := fileclose_plain hheld htype hclose
    exact ⟨hplain.trans hplain', hofile'.trans hofile, hheld'⟩
  obtain ⟨hheld', hplain', hofile', htype'⟩ := filealloc_plain hheld hy
  have hplain := hplain.trans hplain'
  have hofile := hofile'.trans hofile
  have htype0 : (y.file f0).type ≠ .FD_INODE := fun hf => htype (hplain'.type f0 hf)
  have hboth : Held sb [f0, f1] L { s with files := y } :=
    ⟨hheld'.good, hheld'.files.perm (.swap f0 f1 [])⟩
  cases kalloc with
  | none =>
    obtain ⟨rfl, hheld'', hplain'', hofile''⟩ := pipeallocBad_spec hboth htype0 htype' hrest'
    exact ⟨hplain.trans hplain'', hofile''.trans hofile, hheld''⟩
  | some p =>
    obtain ⟨_, v, hset0, hrest''⟩ := run_bind.mp hrest'
    obtain ⟨_, w, hset1, hret⟩ := run_bind.mp hrest''
    obtain ⟨rfl, rfl⟩ := run_pure.mp hret
    obtain ⟨hheld₁, hplain₁, hofile₁, href₁⟩ := setPipe_spec hboth htype0 (hboth.live (by simp)) hset0
    obtain ⟨hheld₂, hplain₂, hofile₂, -⟩ := setPipe_spec hheld₁
      (fun hf => htype' (hplain₁.type f1 hf)) (hheld₁.live (by simp)) hset1
    have hplain₁₂ := hplain₁.trans hplain₂
    exact ⟨hplain.trans hplain₁₂, (hofile₂.trans hofile₁).trans hofile, hheld₂,
      fun hf => htype0 (hplain₁₂.type f0 hf), fun hf => htype' (hplain₁₂.type f1 hf)⟩

theorem setFd_plain (s : St) (x : Proc × Fd) (v : Option FileSlot) :
    Plain s { s with files := s.files.setFd x v } :=
  .setFiles rfl fun _ => id

/-- The files are of a pipe, and the first one has its descriptor, or neither has. -/
theorem pipeBad_spec {rf wf : FileSlot} (fd0 : Option Fd)
    (h : Held sb (if fd0 = none then [rf, wf] else [wf]) L s)
    (hfd : ∀ fd, fd0 = some fd → s.files.ofile (q, fd) = some rf)
    (h0 : (s.files.file rf).type ≠ .FD_INODE) (h1 : (s.files.file wf).type ≠ .FD_INODE) {r : ℤ}
    (hr : pipeBad q fd0 rf wf s = .ok (r, t)) :
    r = -1 ∧ Held sb [] L t ∧ Plain s t ∧ t.files.ofile =
      fd0.elim s.files.ofile fun fd => Function.update s.files.ofile (q, fd) none := by
  obtain ⟨_, u, hclear, hrest⟩ := run_bind.mp hr
  have hu : Held sb [rf, wf] L u ∧ Plain s u ∧ u.files.ofile =
      fd0.elim s.files.ofile fun fd => Function.update s.files.ofile (q, fd) none := by
    cases fd0 with
    | none =>
      obtain ⟨-, rfl⟩ := run_pure.mp hclear
      exact ⟨h, ⟨rfl, rfl, rfl, rfl, fun _ => id⟩, rfl⟩
    | some fd =>
      obtain rfl := setFd_run hclear
      exact ⟨h.setFiles (h.files.clearFd (hfd fd rfl)) rfl, setFd_plain s _ _, rfl⟩
  obtain ⟨hheld, hplain, hofile⟩ := hu
  obtain ⟨_, v, hclose, hrest'⟩ := run_bind.mp hrest
  obtain ⟨hheld', hplain', hofile'⟩ :=
    fileclose_plain hheld (fun hf => h0 (hplain.type rf hf)) hclose
  obtain ⟨_, w, hclose', hret⟩ := run_bind.mp hrest'
  have hplain := hplain.trans hplain'
  obtain ⟨hheld'', hplain'', hofile''⟩ :=
    fileclose_plain hheld' (fun hf => h1 (hplain.type wf hf)) hclose'
  obtain ⟨rfl, rfl⟩ := run_pure.mp hret
  exact ⟨rfl, hheld'', hplain.trans hplain'', (hofile''.trans hofile').trans hofile⟩

/-- A step that touches files of no inode, and descriptors of the caller. -/
theorem Plain.callSpec (h : Plain s t) (hheld : Held sb [] [] t)
    (hofile : ∀ p fd, p ≠ q → t.files.ofile (p, fd) = s.files.ofile (p, fd)) {failed : Prop}
    (hsame : failed → t.files.ofile = s.files.ofile) : CallSpec sb q failed s t := by
  refine ⟨hheld, ⟨h.state, fun p _ => by rw [h.cwd], hofile⟩, h.anchored, fun _ hf => ⟨?_, ?_, ?_⟩⟩
  · rw [h.fs]
  · intro fd
    rw [hsame hf]
  · rw [h.cwd]

theorem pipeFds_spec {rf wf : FileSlot} (h : Held sb [rf, wf] [] s)
    (h0 : (s.files.file rf).type ≠ .FD_INODE) (h1 : (s.files.file wf).type ≠ .FD_INODE) {r : ℤ}
    (hr : pipeFds q rf wf s = .ok (r, t)) : CallSpec sb q (r = -1) s t := by
  obtain ⟨fd, u, hfd, hrest⟩ := run_bind.mp hr
  rcases fdalloc_run hfd with ⟨rfl, -, rfl⟩ | ⟨fd, rfl, hnone, rfl⟩
  · obtain ⟨rfl, hheld, hplain, hofile⟩ := pipeBad_spec none h nofun h0 h1 hrest
    exact hplain.callSpec hheld (fun p fd _ => by rw [hofile]; rfl) fun _ => hofile
  have hheld : Held sb [wf] [] { s with files := s.files.setFd (q, fd) (some rf) } :=
    h.setFiles (h.files.fillFd hnone) rfl
  have hplain := setFd_plain s (q, fd) (some rf)
  obtain ⟨fd', u, hfd', hrest'⟩ := run_bind.mp hrest
  rcases fdalloc_run hfd' with ⟨rfl, -, rfl⟩ | ⟨fd', rfl, hnone', rfl⟩
  · obtain ⟨rfl, hheld', hplain', hofile⟩ := pipeBad_spec (some fd) hheld
      (fun fd' hfd' => by obtain rfl := Option.some.inj hfd'; exact setFd_ofile ..) h0 h1 hrest'
    have hsame : t.files.ofile = s.files.ofile := by
      rw [hofile]
      change Function.update (Function.update s.files.ofile (q, fd) (some rf)) (q, fd) none = _
      rw [Function.update_idem, ← hnone, Function.update_eq_self]
    exact (hplain.trans hplain').callSpec hheld' (fun p fd _ => by rw [hsame]) fun _ => hsame
  · obtain ⟨rfl, rfl⟩ := run_pure.mp hrest'
    refine (hplain.trans (setFd_plain _ (q, fd') (some wf))).callSpec
      (hheld.setFiles (hheld.files.fillFd hnone') rfl) (fun p x hp => ?_) nofun
    exact (setFd_ofile_of_ne (by simp [hp]) _).trans (setFd_ofile_of_ne (by simp [hp]) _)

theorem sys_pipe_spec (h : Held sb [] [] s) {fd : Bool} {kalloc : Option ℕ} {r : ℤ}
    (hr : sys_pipe q fd kalloc s = .ok (r, t)) : CallSpec sb q (r = -1) s t := by
  rcases run_ite.mp hr with ⟨-, hr⟩ | ⟨-, hr⟩
  · obtain ⟨p, u, halloc, hrest⟩ := run_bind.mp hr
    obtain ⟨hplain, hofile, hcase⟩ := pipealloc_spec h halloc
    cases p with
    | none =>
      obtain ⟨-, rfl⟩ := run_pure.mp hrest
      exact hplain.callSpec hcase (fun p fd _ => by rw [hofile]) fun _ => hofile
    | some p =>
      obtain ⟨hheld, h0, h1⟩ := hcase
      obtain ⟨hheld', hown, hanch, hsame⟩ := pipeFds_spec hheld h0 h1 hrest
      refine ⟨hheld', ⟨hown.state.trans hplain.state, fun p hp => ?_, fun p fd hp => ?_⟩,
        fun ha => hanch (hplain.anchored ha), fun ha hf => ?_⟩
      · rw [hown.cwd p hp, hplain.cwd]
      · rw [hown.ofile p fd hp, hofile]
      · obtain ⟨hdisk, hfds, hcwd⟩ := hsame (hplain.anchored ha) hf
        exact ⟨by rw [hdisk, hplain.fs], fun fd => by rw [hfds, hofile], by rw [hcwd, hplain.cwd]⟩
  · obtain ⟨-, rfl⟩ := run_pure.mp hr
    exact .refl h _

end Ostep.FileCalls

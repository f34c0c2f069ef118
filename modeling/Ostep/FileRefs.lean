import Ostep.FileCalls
import Ostep.LinkRefs

/-!
# References from files and current directories

The standing references to a slot of the inode cache are the open files and the current
directories that point to it. A call that fails leaves the disk, the descriptors and the current
directory as they were, except that `open` may have made its file before it finds that it has
nowhere to put it.
-/

namespace Ostep.FileCalls
open Hoare FileTable InodeCache Counting
open FsBlocks (Superblock)

variable {sb : Superblock} {s t u : St} {q : Proc} {f : FileSlot} {F : List FileSlot}
  {L : List Slot} {k : Slot}

/-- The references to a slot from open files and current directories. -/
def St.base (s : St) (k : Slot) : ℕ := s.files.inodes k + occ s.cwd k

/-- `F` and `L` list what the running call holds. -/
structure Held (sb : Superblock) (F : List FileSlot) (L : List Slot) (s : St) : Prop where
  good : Good sb s.base L s.fs
  files : Counted s.files F

def St.Anchored (s : St) : Prop := InodeCache.Anchored s.base s.fs

/-- The call touches no other process. -/
structure Own (q : Proc) (s t : St) : Prop where
  state : t.state = s.state
  cwd : ∀ p, p ≠ q → t.cwd p = s.cwd p
  ofile : ∀ p fd, p ≠ q → t.files.ofile (p, fd) = s.files.ofile (p, fd)

theorem Own.refl (q : Proc) (s : St) : Own q s s := ⟨rfl, fun _ _ => rfl, fun _ _ _ => rfl⟩

theorem Own.trans (h : Own q s t) (h' : Own q t u) : Own q s u :=
  ⟨h'.state.trans h.state, fun p hp => (h'.cwd p hp).trans (h.cwd p hp),
    fun p fd hp => (h'.ofile p fd hp).trans (h.ofile p fd hp)⟩

/-- The disk, the caller's descriptors and its current directory. -/
def Unchanged (q : Proc) (s t : St) : Prop :=
  t.fs.disk = s.fs.disk ∧ (∀ fd, t.files.ofile (q, fd) = s.files.ofile (q, fd)) ∧ t.cwd q = s.cwd q

theorem Unchanged.refl (q : Proc) (s : St) : Unchanged q s s := ⟨rfl, fun _ => rfl, rfl⟩

/-- What holds of a completed call of process `q`. -/
structure CallSpec (sb : Superblock) (q : Proc) (failed : Prop) (s t : St) : Prop where
  held : Held sb [] [] t
  own : Own q s t
  anchored : s.Anchored → t.Anchored
  same : s.Anchored → failed → Unchanged q s t

theorem CallSpec.refl (h : Held sb [] [] s) (failed : Prop) : CallSpec sb q failed s s :=
  ⟨h, .refl q s, id, fun _ _ => .refl q s⟩

/-! ## Calls on the inode cache -/

theorem fs_run {α : Type} {m : Ic α} {a : α} (h : fs m s = .ok (a, t)) :
    ∃ v, m s.fs = .ok (a, v) ∧ t = { s with fs := v } := by
  rw [fs] at h
  split at h
  · rename_i a' v hm
    obtain ⟨rfl, rfl⟩ : a' = a ∧ { s with fs := v } = t := by simpa using h
    exact ⟨v, hm, rfl⟩
  · cases h

theorem cwd_run (h : cwd q s = .ok (k, t)) : s.cwd q = some k ∧ t = s := by
  rw [cwd, run_get_bind] at h
  cases hq : s.cwd q with
  | none =>
    rw [hq] at h
    exact (run_throw.mp h).elim
  | some k' =>
    rw [hq] at h
    obtain ⟨rfl, rfl⟩ := run_pure.mp h
    exact ⟨rfl, rfl⟩

theorem base_pos (h : s.cwd q = some k) : 0 < s.base k := by
  have : 0 < occ s.cwd k := occ_pos.mpr ⟨q, h⟩
  rw [St.base]
  omega

theorem onPath_run {α : Type} {m : Slot → Ic α} {a : α} (h : onPath q m s = .ok (a, t)) :
    ∃ k v, s.cwd q = some k ∧ 0 < s.base k ∧ m k s.fs = .ok (a, v) ∧ t = { s with fs := v } := by
  obtain ⟨k, u, hcwd, hfs⟩ := run_bind.mp h
  obtain ⟨hk, rfl⟩ := cwd_run hcwd
  obtain ⟨v, hm, rfl⟩ := fs_run hfs
  exact ⟨k, v, hk, base_pos hk, hm, rfl⟩

/-- A step on the inode cache alone. -/
theorem Held.fs {L' : List Slot} (h : Held sb F L s) {v : InodeCache.St}
    (hv : Good sb s.base L' v) : Held sb F L' { s with fs := v } :=
  ⟨hv, h.files⟩

theorem onPath_spec {m : Slot → Ic ℤ} {r : ℤ} (h : Held sb [] [] s)
    (hr : onPath q m s = .ok (r, t))
    (hm : ∀ k v, 0 < s.base k → m k s.fs = .ok (r, v) → PathSpec sb s.base s.fs r v) :
    CallSpec sb q (r = -1) s t := by
  obtain ⟨k, v, -, hpos, hrun, rfl⟩ := onPath_run hr
  obtain ⟨hgood, hleaves⟩ := hm k v hpos hrun
  exact ⟨h.fs hgood, ⟨rfl, fun _ _ => rfl, fun _ _ _ => rfl⟩, hleaves.anchored,
    fun ha hf => ⟨hleaves.same ha hf, fun _ => rfl, rfl⟩⟩

/-! ## Files and descriptors -/

/-- A step on the file table that keeps the inodes it refers to. -/
theorem Held.setFiles {F' : List FileSlot} (h : Held sb F L s) {t : Table ℕ Slot}
    (hc : Counted t F') (hi : t.inodes = s.files.inodes) : Held sb F' L { s with files := t } := by
  refine ⟨?_, hc⟩
  have hbase : St.base { s with files := t } = s.base := by
    funext k
    rw [St.base, St.base, hi]
  rw [hbase]
  exact h.good

theorem Anchored.setFiles {t : Table ℕ Slot} (ha : s.Anchored)
    (hi : t.inodes = s.files.inodes) : St.Anchored { s with files := t } := by
  have hbase : St.base { s with files := t } = s.base := by
    funext k
    rw [St.base, St.base, hi]
  rw [St.Anchored, hbase]
  exact ha

theorem setFiles_run {x : Table ℕ Slot} {a : Unit} (h : setFiles x s = .ok (a, t)) :
    t = { s with files := x } :=
  (run_modify.mp h).symm

theorem filealloc_run {r : Option FileSlot} (h : filealloc s = .ok (r, t)) :
    (r = none ∧ (∀ f, (s.files.file f).ref ≠ 0) ∧ t = s) ∨
    ∃ f x, r = some f ∧ s.files.filealloc = some (f, x) ∧ t = { s with files := x } := by
  rw [filealloc, run_get_bind] at h
  cases hf : s.files.filealloc with
  | none =>
    rw [hf] at h
    obtain ⟨rfl, rfl⟩ := run_pure.mp h
    exact .inl ⟨rfl, filealloc_none.mp hf, rfl⟩
  | some p =>
    rw [hf] at h
    obtain ⟨_, u, hset, h⟩ := run_bind.mp h
    obtain rfl := setFiles_run hset
    obtain ⟨rfl, rfl⟩ := run_pure.mp h
    exact .inr ⟨p.1, p.2, rfl, rfl, rfl⟩

theorem fdalloc_run {r : Option Fd} (h : fdalloc q f s = .ok (r, t)) :
    (r = none ∧ (∀ fd, s.files.ofile (q, fd) ≠ none) ∧ t = s) ∨
    ∃ fd, r = some fd ∧ s.files.ofile (q, fd) = none ∧
      t = { s with files := s.files.setFd (q, fd) (some f) } := by
  rw [fdalloc, run_get_bind] at h
  cases hf : s.files.fdalloc q f with
  | none =>
    rw [hf] at h
    obtain ⟨rfl, rfl⟩ := run_pure.mp h
    exact .inl ⟨rfl, fdalloc_none.mp hf, rfl⟩
  | some p =>
    rw [hf] at h
    obtain ⟨_, u, hset, h⟩ := run_bind.mp h
    obtain rfl := setFiles_run hset
    obtain ⟨rfl, rfl⟩ := run_pure.mp h
    obtain ⟨hnone, hx⟩ := fdalloc_some hf
    exact .inr ⟨p.1, rfl, hnone, by rw [hx]⟩

/-- A change of a descriptor of the caller. -/
theorem own_setFd (s : St) (fd : Fd) (v : Option FileSlot) :
    Own q s { s with files := s.files.setFd (q, fd) v } :=
  ⟨rfl, fun _ _ => rfl, fun p fd' hp => setFd_ofile_of_ne (by simp [hp]) v⟩

theorem setFd_run {fd : Fd} {v : Option FileSlot} {a : Unit} (h : setFd q fd v s = .ok (a, t)) :
    t = { s with files := s.files.setFd (q, fd) v } := by
  rw [setFd, run_get_bind] at h
  exact setFiles_run h

theorem setFile_run {g : File ℕ Slot → File ℕ Slot} {a : Unit} (h : setFile f g s = .ok (a, t)) :
    t = { s with files := s.files.setFile f g } := by
  rw [setFile, run_get_bind] at h
  exact setFiles_run h

theorem filedup_run {a : Unit} (h : filedup f s = .ok (a, t)) :
    ∃ x, s.files.filedup f = some x ∧ t = { s with files := x } := by
  rw [filedup, run_get_bind] at h
  cases hf : s.files.filedup f with
  | none =>
    rw [hf] at h
    exact (run_throw.mp h).elim
  | some x =>
    rw [hf] at h
    exact ⟨x, rfl, setFiles_run h⟩

/-- What `fileclose` does with the file table, and with the inode of a file that it closes. -/
theorem fileclose_run {a : Unit} (h : fileclose f s = .ok (a, t)) :
    ∃ ff x, s.files.fileclose f = some (ff, x) ∧
      ((∀ g k, ff = some g → g.inode ≠ some k) ∧ t = { s with files := x } ∨
        ∃ g k v, ff = some g ∧ g.inode = some k ∧ iput k s.fs = .ok ((), v) ∧
          t = { s with files := x, fs := v }) := by
  rw [fileclose, run_get_bind] at h
  cases hf : s.files.fileclose f with
  | none =>
    rw [hf] at h
    exact (run_throw.mp h).elim
  | some p =>
    obtain ⟨ff, x⟩ := p
    rw [hf] at h
    obtain ⟨_, u, hset, h⟩ := run_bind.mp h
    obtain rfl := setFiles_run hset
    refine ⟨ff, x, rfl, ?_⟩
    cases ff with
    | none =>
      obtain ⟨-, rfl⟩ := run_pure.mp h
      exact .inl ⟨fun g k h => (by cases h), rfl⟩
    | some g =>
      rcases run_ite.mp h with ⟨htype, h⟩ | ⟨htype, h⟩
      · cases hip : g.ip with
        | none =>
          rw [hip] at h
          exact (run_throw.mp h).elim
        | some k =>
          rw [hip] at h
          obtain ⟨v, hput, rfl⟩ := fs_run h
          exact .inr ⟨g, k, v, rfl, by rw [File.inode, if_pos htype, hip], hput, rfl⟩
      · obtain ⟨-, rfl⟩ := run_pure.mp h
        refine .inl ⟨?_, rfl⟩
        rintro g' k hg
        obtain rfl := Option.some.inj hg
        rw [File.inode, if_neg htype]
        exact fun h => by cases h

/-- Closing a file gives up a reference to it, and the last one its reference to an inode. -/
theorem fileclose_spec (h : Held sb (f :: F) [] s) {a : Unit} (hr : fileclose f s = .ok (a, t)) :
    Held sb F [] t ∧ (s.Anchored → t.Anchored) ∧ t.cwd = s.cwd ∧ t.state = s.state ∧
      t.files.ofile = s.files.ofile := by
  obtain ⟨ff, x, hclose, hcase⟩ := fileclose_run hr
  have hc := h.files.fileclose hclose
  have hofile := fileclose_ofile hclose
  rcases hcase with ⟨hno, rfl⟩ | ⟨g, k, v, rfl, hg, hput, rfl⟩
  · have hi : x.inodes = s.files.inodes := by
      cases ff with
      | none => exact inodes_fileclose_none hclose
      | some g =>
        funext k
        have := inodes_fileclose_some hclose k
        rwa [if_neg (hno g k rfl), Nat.add_zero] at this
    exact ⟨h.setFiles hc hi, fun ha => Anchored.setFiles ha hi, rfl, rfl, hofile⟩
  · have hbase : s.base = plus (St.base { s with files := x, fs := v }) k := by
      funext l
      have := inodes_fileclose_some hclose l
      rw [hg] at this
      simp only [St.base, plus, List.count_singleton, beq_iff_eq, Option.some.injEq] at this ⊢
      omega
    have hgood := h.good
    rw [hbase] at hgood
    have hgood := good_plus.mp hgood
    refine ⟨⟨(iput_run hgood hput).1, hc⟩, fun ha => ?_, rfl, rfl, hofile⟩
    rw [St.Anchored, hbase] at ha
    exact iput_final hgood ha hput

/-! ## Files that are of no inode -/

/-- The step touches only files that are of no inode, and makes none that is. -/
structure Plain (s t : St) : Prop where
  fs : t.fs = s.fs
  base : t.base = s.base
  cwd : t.cwd = s.cwd
  state : t.state = s.state
  type : ∀ f, (t.files.file f).type = .FD_INODE → (s.files.file f).type = .FD_INODE

theorem Plain.trans (h : Plain s t) (h' : Plain t u) : Plain s u :=
  ⟨h'.fs.trans h.fs, h'.base.trans h.base, h'.cwd.trans h.cwd, h'.state.trans h.state,
    fun f hf => h.type f (h'.type f hf)⟩

theorem Plain.anchored (h : Plain s t) (ha : s.Anchored) : t.Anchored := by
  rw [St.Anchored, h.fs, h.base]
  exact ha

theorem Plain.setFiles {x : Table ℕ Slot} (hi : x.inodes = s.files.inodes)
    (htype : ∀ f, (x.file f).type = .FD_INODE → (s.files.file f).type = .FD_INODE) :
    Plain s { s with files := x } := by
  refine ⟨rfl, ?_, rfl, rfl, htype⟩
  funext k
  rw [St.base, St.base, hi]

theorem setFile_type {x : Table ℕ Slot} {g : File ℕ Slot → File ℕ Slot}
    (hg : (g (x.file f)).type = .FD_INODE → (x.file f).type = .FD_INODE) (f' : FileSlot)
    (h : ((x.setFile f g).file f').type = .FD_INODE) : (x.file f').type = .FD_INODE := by
  by_cases hf : f' = f
  · subst hf
    rw [setFile_file] at h
    exact hg h
  · rwa [setFile_file_of_ne hf] at h

/-- A new file is not of an inode. -/
theorem filealloc_plain (h : Held sb F L s) {x : Table ℕ Slot}
    (hf : s.files.filealloc = some (f, x)) :
    Held sb (f :: F) L { s with files := x } ∧ Plain s { s with files := x } ∧
      x.ofile = s.files.ofile ∧ (x.file f).type ≠ .FD_INODE := by
  have hc := h.files.filealloc hf
  obtain ⟨href, rfl⟩ := filealloc_some hf
  have hi : (s.files.setFile f (fun g => { g with ref := 1 })).inodes = s.files.inodes :=
    inodes_setFile_same rfl
  refine ⟨h.setFiles hc hi, .setFiles hi fun f' => setFile_type id f', rfl, ?_⟩
  rw [setFile_file]
  simp [h.files.idle f href]

/-- Closing a file that is not of an inode. -/
theorem fileclose_plain (h : Held sb (f :: F) L s) (hf : (s.files.file f).type ≠ .FD_INODE)
    {a : Unit} (hr : fileclose f s = .ok (a, t)) :
    Held sb F L t ∧ Plain s t ∧ t.files.ofile = s.files.ofile := by
  obtain ⟨ff, x, hclose, hcase⟩ := fileclose_run hr
  have hc := h.files.fileclose hclose
  have hnone : (s.files.file f).inode = none := if_neg hf
  have htype : ∀ f', (x.file f').type = .FD_INODE → (s.files.file f').type = .FD_INODE := by
    rcases fileclose_some hclose with ⟨-, -, rfl⟩ | ⟨-, -, rfl⟩
    · exact setFile_type id
    · exact setFile_type nofun
  have hi : x.inodes = s.files.inodes := by
    rcases fileclose_some hclose with ⟨-, rfl, -⟩ | ⟨-, rfl, -⟩
    · exact inodes_fileclose_none hclose
    · funext k
      have := inodes_fileclose_some hclose k
      rwa [hnone, if_neg nofun, Nat.add_zero] at this
  rcases hcase with ⟨-, rfl⟩ | ⟨g, k, v, rfl, hg, -, -⟩
  · exact ⟨h.setFiles hc hi, .setFiles hi htype, fileclose_ofile hclose⟩
  · rcases fileclose_some hclose with ⟨-, hff, -⟩ | ⟨-, hff, -⟩
    · cases hff
    · obtain rfl := Option.some.inj hff
      rw [hnone] at hg
      cases hg

end Ostep.FileCalls

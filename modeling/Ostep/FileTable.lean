import Ostep.Counting
import Mathlib.Algebra.Ring.Nat
import Mathlib.Data.Fintype.Prod
import Mathlib.Data.List.FinRange

/-!
# Open files

The file table of file.c and the descriptors of the processes, over any types of pipes and
inodes. A file lives as long as somebody refers to it: the descriptors, and the references that
a call still holds, which are kept in a list.
-/

namespace Ostep.FileTable
open Counting

abbrev NPROC : ℕ := 64

theorem nproc_neZero : NeZero NPROC := ⟨by decide⟩

abbrev NOFILE : ℕ := 16
abbrev NFILE : ℕ := 100

abbrev Proc := Fin NPROC
abbrev Fd := Fin NOFILE
abbrev FileSlot := Fin NFILE

inductive FileType where
  | FD_NONE
  | FD_PIPE
  | FD_INODE
  deriving DecidableEq

variable {π ι : Type}

structure File (π ι : Type) where
  type : FileType
  ref : ℕ
  readable : Bool
  writable : Bool
  pipe : Option π
  ip : Option ι
  off : ℕ

def File.zero : File π ι := ⟨.FD_NONE, 0, false, false, none, none, 0⟩

structure Table (π ι : Type) where
  file : FileSlot → File π ι
  ofile : Proc × Fd → Option FileSlot

namespace Table

def setFile (t : Table π ι) (f : FileSlot) (g : File π ι → File π ι) : Table π ι :=
  { t with file := Function.update t.file f (g (t.file f)) }

def setFd (t : Table π ι) (x : Proc × Fd) (v : Option FileSlot) : Table π ι :=
  { t with ofile := Function.update t.ofile x v }

def filealloc (t : Table π ι) : Option (FileSlot × Table π ι) :=
  match (List.finRange NFILE).find? (fun f => (t.file f).ref = 0) with
  | some f => some (f, t.setFile f (fun g => { g with ref := 1 }))
  | none => none

/-- `none` is the panic of `filedup`, and of `fileclose` below. -/
def filedup (t : Table π ι) (f : FileSlot) : Option (Table π ι) :=
  if (t.file f).ref < 1 then none else some (t.setFile f (fun g => { g with ref := g.ref + 1 }))

/-- `fileclose` up to where it releases `ftable.lock`, with the copy of a file that is to be
closed. -/
def fileclose (t : Table π ι) (f : FileSlot) : Option (Option (File π ι) × Table π ι) :=
  if (t.file f).ref < 1 then none
  else if 0 < (t.file f).ref - 1 then
    some (none, t.setFile f (fun g => { g with ref := g.ref - 1 }))
  else some (some (t.file f), t.setFile f (fun g => { g with ref := 0, type := .FD_NONE }))

def fdalloc (t : Table π ι) (q : Proc) (f : FileSlot) : Option (Fd × Table π ι) :=
  match (List.finRange NOFILE).find? (fun fd => t.ofile (q, fd) = none) with
  | some fd => some (fd, t.setFd (q, fd) (some f))
  | none => none

end Table

/-- The inode that an open file refers to. -/
def File.inode (g : File π ι) : Option ι := if g.type = .FD_INODE then g.ip else none

/-- The references to an inode from open files. -/
def Table.inodes [DecidableEq ι] (t : Table π ι) (k : ι) : ℕ := occ (fun f => (t.file f).inode) k

/-- Every file has the references that descriptors and the list `L` make up. -/
structure Counted (t : Table π ι) (L : List FileSlot) : Prop where
  ref : ∀ f, (t.file f).ref = occ t.ofile f + L.count f
  idle : ∀ f, (t.file f).ref = 0 → (t.file f).type = .FD_NONE

variable {t u : Table π ι} {f : FileSlot} {L : List FileSlot}

theorem setFile_file (g : File π ι → File π ι) : (t.setFile f g).file f = g (t.file f) :=
  Function.update_self ..

theorem setFile_file_of_ne {f' : FileSlot} (h : f' ≠ f) (g : File π ι → File π ι) :
    (t.setFile f g).file f' = t.file f' :=
  Function.update_of_ne h ..

theorem setFd_ofile (x : Proc × Fd) (v : Option FileSlot) : (t.setFd x v).ofile x = v :=
  Function.update_self ..

theorem setFd_ofile_of_ne {x y : Proc × Fd} (h : y ≠ x) (v : Option FileSlot) :
    (t.setFd x v).ofile y = t.ofile y :=
  Function.update_of_ne h ..

theorem inodes_setFile [DecidableEq ι] (g : File π ι → File π ι) (k : ι) :
    (t.setFile f g).inodes k + (if (t.file f).inode = some k then 1 else 0) =
      t.inodes k + (if (g (t.file f)).inode = some k then 1 else 0) := by
  have h := occ_update (fun f => (t.file f).inode) f (g (t.file f)).inode k
  have heq : (fun f' => ((t.setFile f g).file f').inode) =
      Function.update (fun f' => (t.file f').inode) f (g (t.file f)).inode := by
    funext f'
    by_cases hf : f' = f
    · rw [hf, setFile_file, Function.update_self]
    · rw [setFile_file_of_ne hf, Function.update_of_ne hf]
  rw [Table.inodes, heq]
  exact h

/-- A change of a file that keeps the inode it refers to. -/
theorem inodes_setFile_same [DecidableEq ι] {g : File π ι → File π ι}
    (h : (g (t.file f)).inode = (t.file f).inode) : (t.setFile f g).inodes = t.inodes := by
  funext k
  have := inodes_setFile (t := t) (f := f) g k
  rw [h] at this
  omega

theorem Counted.perm {L' : List FileSlot} (h : Counted t L) (hL : L.Perm L') : Counted t L' :=
  ⟨fun f => by rw [h.ref, hL.count_eq], h.idle⟩

theorem Counted.pos (h : Counted t L) {x : Proc × Fd} (hx : t.ofile x = some f) :
    0 < (t.file f).ref := by
  have : 0 < occ t.ofile f := occ_pos.mpr ⟨x, hx⟩
  have := h.ref f
  omega

/-- A file whose references change from `n` to those of the lists. -/
theorem Counted.setFile {L' : List FileSlot} {g : File π ι → File π ι} (h : Counted t L)
    (hother : ∀ f', f' ≠ f → L'.count f' = L.count f')
    (hself : (g (t.file f)).ref + L.count f = (t.file f).ref + L'.count f)
    (hidle : (g (t.file f)).ref = 0 → (g (t.file f)).type = .FD_NONE) :
    Counted (t.setFile f g) L' where
  ref f' := by
    by_cases hf : f' = f
    · subst hf
      rw [setFile_file]
      have := h.ref f'
      change (g (t.file f')).ref = occ t.ofile f' + L'.count f'
      omega
    · rw [setFile_file_of_ne hf, hother f' hf]
      exact h.ref f'
  idle f' hf' := by
    by_cases hf : f' = f
    · subst hf
      rw [setFile_file] at hf' ⊢
      exact hidle hf'
    · rw [setFile_file_of_ne hf] at hf' ⊢
      exact h.idle f' hf'

theorem filealloc_some (h : t.filealloc = some (f, u)) :
    (t.file f).ref = 0 ∧ u = t.setFile f (fun g => { g with ref := 1 }) := by
  rw [Table.filealloc] at h
  split at h
  · rename_i f' hf
    obtain ⟨rfl, rfl⟩ := Prod.mk.inj (Option.some.inj h)
    exact ⟨by simpa using List.find?_some hf, rfl⟩
  · cases h

theorem filealloc_none : t.filealloc = none ↔ ∀ f, (t.file f).ref ≠ 0 := by
  rw [Table.filealloc]
  split
  · rename_i f hf
    simpa using ⟨f, by simpa using List.find?_some hf⟩
  · rename_i hf
    simpa using hf

theorem Counted.filealloc (hc : Counted t L) (h : t.filealloc = some (f, u)) :
    Counted u (f :: L) := by
  obtain ⟨href, rfl⟩ := filealloc_some h
  refine hc.setFile (fun f' hf => ?_) ?_ (fun h0 => ?_)
  · rw [List.count_cons_of_ne (Ne.symm hf)]
  · simp [href]
    omega
  · simp at h0

theorem filedup_some (h : t.filedup f = some u) :
    0 < (t.file f).ref ∧ u = t.setFile f (fun g => { g with ref := g.ref + 1 }) := by
  rw [Table.filedup] at h
  split_ifs at h with hf
  exact ⟨by omega, (Option.some.inj h).symm⟩

theorem Counted.filedup (hc : Counted t L) (h : t.filedup f = some u) : Counted u (f :: L) := by
  obtain ⟨-, rfl⟩ := filedup_some h
  refine hc.setFile (fun f' hf => ?_) ?_ (fun h0 => ?_)
  · rw [List.count_cons_of_ne (Ne.symm hf)]
  · simp
    omega
  · simp at h0

/-- What `fileclose` does with a reference that the caller gives up. -/
theorem fileclose_some {ff : Option (File π ι)} (h : t.fileclose f = some (ff, u)) :
    (1 < (t.file f).ref ∧ ff = none ∧ u = t.setFile f (fun g => { g with ref := g.ref - 1 })) ∨
    ((t.file f).ref = 1 ∧ ff = some (t.file f) ∧
      u = t.setFile f (fun g => { g with ref := 0, type := .FD_NONE })) := by
  rw [Table.fileclose] at h
  split_ifs at h with h1 h2
  · obtain ⟨rfl, rfl⟩ := Prod.mk.inj (Option.some.inj h)
    exact .inl ⟨by omega, rfl, rfl⟩
  · obtain ⟨rfl, rfl⟩ := Prod.mk.inj (Option.some.inj h)
    exact .inr ⟨by omega, rfl, rfl⟩

theorem Counted.fileclose (hc : Counted t (f :: L)) {ff : Option (File π ι)}
    (h : t.fileclose f = some (ff, u)) : Counted u L := by
  have hother : ∀ f', f' ≠ f → L.count f' = (f :: L).count f' :=
    fun f' hf => (List.count_cons_of_ne (Ne.symm hf)).symm
  rcases fileclose_some h with ⟨href, -, rfl⟩ | ⟨href, -, rfl⟩
  · refine hc.setFile hother ?_ (fun h0 => ?_)
    · simp
      omega
    · simp only at h0
      omega
  · refine hc.setFile hother ?_ (fun _ => rfl)
    simp
    omega

theorem fileclose_ofile {ff : Option (File π ι)} (h : t.fileclose f = some (ff, u)) :
    u.ofile = t.ofile := by
  rcases fileclose_some h with ⟨-, -, rfl⟩ | ⟨-, -, rfl⟩ <;> rfl

theorem fileclose_setFd (x : Proc × Fd) (v : Option FileSlot) (f : FileSlot) :
    (t.setFd x v).fileclose f = (t.fileclose f).map fun p => (p.1, p.2.setFd x v) := by
  have hfile : (t.setFd x v).file = t.file := rfl
  rw [Table.fileclose, Table.fileclose, hfile]
  split_ifs <;> rfl

theorem inodes_fileclose_none [DecidableEq ι] (h : t.fileclose f = some (none, u)) :
    u.inodes = t.inodes := by
  rcases fileclose_some h with ⟨-, -, rfl⟩ | ⟨-, h, -⟩
  · exact inodes_setFile_same rfl
  · cases h

theorem inodes_fileclose_some [DecidableEq ι] {ff : File π ι}
    (h : t.fileclose f = some (some ff, u)) (k : ι) :
    u.inodes k + (if ff.inode = some k then 1 else 0) = t.inodes k := by
  rcases fileclose_some h with ⟨-, hff, -⟩ | ⟨-, hff, rfl⟩
  · cases hff
  · obtain rfl := Option.some.inj hff
    simpa [File.inode] using inodes_setFile (t := t) (f := f)
      (fun g => { g with ref := 0, type := .FD_NONE }) k

/-- A descriptor changes from what the first list holds to what the second one holds. -/
theorem Counted.setFd {L' : List FileSlot} {x : Proc × Fd} {v : Option FileSlot} (h : Counted t L)
    (hcount : ∀ f, L'.count f + (if v = some f then 1 else 0) =
      L.count f + (if t.ofile x = some f then 1 else 0)) : Counted (t.setFd x v) L' where
  ref f := by
    have hocc := occ_update t.ofile x v f
    have := h.ref f
    have := hcount f
    change (t.file f).ref = occ (Function.update t.ofile x v) f + L'.count f
    omega
  idle := h.idle

theorem count_cons_ite (f f' : FileSlot) (L : List FileSlot) :
    (f :: L).count f' = L.count f' + (if some f = some f' then 1 else 0) := by
  rw [List.count_cons]
  simp

/-- A descriptor gives its reference to the caller. -/
theorem Counted.clearFd (h : Counted t L) {x : Proc × Fd} (hx : t.ofile x = some f) :
    Counted (t.setFd x none) (f :: L) := by
  refine h.setFd fun f' => ?_
  simp [count_cons_ite, hx]

/-- An empty descriptor takes over a reference from the caller. -/
theorem Counted.fillFd (h : Counted t (f :: L)) {x : Proc × Fd} (hx : t.ofile x = none) :
    Counted (t.setFd x (some f)) L := by
  refine h.setFd fun f' => ?_
  rw [count_cons_ite, hx]
  simp

theorem fdalloc_some {q : Proc} {fd : Fd} (h : t.fdalloc q f = some (fd, u)) :
    t.ofile (q, fd) = none ∧ u = t.setFd (q, fd) (some f) := by
  rw [Table.fdalloc] at h
  split at h
  · rename_i fd' hfd
    obtain ⟨rfl, rfl⟩ := Prod.mk.inj (Option.some.inj h)
    exact ⟨by simpa using List.find?_some hfd, rfl⟩
  · cases h

theorem fdalloc_none {q : Proc} : t.fdalloc q f = none ↔ ∀ fd, t.ofile (q, fd) ≠ none := by
  rw [Table.fdalloc]
  split
  · rename_i fd hfd
    simpa using ⟨fd, by simpa using List.find?_some hfd⟩
  · rename_i hfd
    simpa using hfd

end Ostep.FileTable

import Ostep.FileRefs

/-!
# Every reference is counted

After any calls of any processes a file has as many references as descriptors point to it, a
slot of the inode cache as many as open files and current directories do, no two slots in use
hold one inode, and a valid slot is what is on disk.
-/

namespace Ostep.FileCalls
open Hoare FileTable InodeCache Counting TransitionSystem
open FsBlocks (Superblock Dinode)

variable {sb : Superblock} {s t u : St} {q : Proc} {f : FileSlot} {F : List FileSlot}
  {L : List Slot} {k : Slot}

/-! ## Descriptors -/

theorem argfd_run {fd : Option ℤ} {r : Option (Fd × FileSlot)} (h : argfd q fd s = .ok (r, t)) :
    t = s ∧ ∀ p, r = some p → s.files.ofile (q, p.1) = some p.2 := by
  rw [argfd, run_get_bind] at h
  cases fd with
  | none =>
    obtain ⟨rfl, rfl⟩ := run_pure.mp h
    exact ⟨rfl, nofun⟩
  | some fd =>
    simp only at h
    split_ifs at h with hfd
    · cases ho : s.files.ofile (q, ⟨fd.toNat, hfd.2⟩) with
      | none =>
        rw [ho] at h
        obtain ⟨rfl, rfl⟩ := run_pure.mp h
        exact ⟨rfl, nofun⟩
      | some f =>
        rw [ho] at h
        obtain ⟨rfl, rfl⟩ := run_pure.mp h
        refine ⟨rfl, fun p hp => ?_⟩
        obtain rfl := Option.some.inj hp
        exact ho
    · obtain ⟨rfl, rfl⟩ := run_pure.mp h
      exact ⟨rfl, nofun⟩

/-- The new descriptor comes before the reference is counted. -/
theorem sys_dup_spec (h : Held sb [] [] s) {fd : Option ℤ} {r : ℤ}
    (hr : sys_dup q fd s = .ok (r, t)) : CallSpec sb q (r = -1) s t := by
  obtain ⟨p, u, harg, hrest⟩ := run_bind.mp hr
  obtain ⟨rfl, hp⟩ := argfd_run harg
  cases p with
  | none =>
    obtain ⟨-, rfl⟩ := run_pure.mp hrest
    exact .refl h _
  | some p =>
    obtain ⟨fd', v, halloc, hdup⟩ := run_bind.mp hrest
    rcases fdalloc_run halloc with ⟨rfl, -, rfl⟩ | ⟨fd', rfl, hnone, rfl⟩
    · obtain ⟨-, rfl⟩ := run_pure.mp hdup
      exact .refl h _
    obtain ⟨_, w, hdup, hret⟩ := run_bind.mp hdup
    obtain ⟨x, hx, rfl⟩ := filedup_run hdup
    obtain ⟨rfl, rfl⟩ := run_pure.mp hret
    obtain ⟨hpos, rfl⟩ := filedup_some hx
    set x := u.files.setFile p.2 (fun g => { g with ref := g.ref + 1 }) with hxdef
    have hdup' : u.files.filedup p.2 = some x := by
      have : ¬ (u.files.file p.2).ref < 1 := by
        change 0 < (u.files.file p.2).ref at hpos
        omega
      rw [Table.filedup, if_neg this]
    have hc : Counted x [p.2] := h.files.filedup hdup'
    have hi : x.inodes = u.files.inodes := inodes_setFile_same rfl
    refine ⟨h.setFiles (hc.fillFd (x := (q, fd')) hnone) hi, ⟨rfl, fun _ _ => rfl,
      fun p' fd hp => setFd_ofile_of_ne (by simp [hp]) _⟩, fun ha => Anchored.setFiles ha hi, fun _ hf => ?_⟩
    omega

theorem sys_close_spec (h : Held sb [] [] s) {fd : Option ℤ} {r : ℤ}
    (hr : sys_close q fd s = .ok (r, t)) : CallSpec sb q False s t := by
  obtain ⟨p, u, harg, hrest⟩ := run_bind.mp hr
  obtain ⟨rfl, hp⟩ := argfd_run harg
  cases p with
  | none =>
    obtain ⟨-, rfl⟩ := run_pure.mp hrest
    exact .refl h _
  | some p =>
    obtain ⟨_, v, hset, hrest⟩ := run_bind.mp hrest
    obtain rfl := setFd_run hset
    obtain ⟨_, w, hclose, hret⟩ := run_bind.mp hrest
    obtain ⟨rfl, rfl⟩ := run_pure.mp hret
    have h₁ : Held sb [p.2] [] { u with files := u.files.setFd (q, p.1) none } :=
      h.setFiles (h.files.clearFd (hp p rfl)) rfl
    obtain ⟨h₂, hanch, hcwd, hstate, hofile⟩ := fileclose_spec h₁ hclose
    have hown := own_setFd u p.1 (q := q) none
    exact ⟨h₂, ⟨hstate.trans hown.state, fun p' hp' => by rw [hcwd],
      fun p' fd' hp' => by rw [hofile]; exact hown.ofile p' fd' hp'⟩,
      fun ha => hanch (Anchored.setFiles ha rfl), fun _ hf => hf.elim⟩

/-! ## Reading and writing -/

/-- A step on the cache in which the slots keep their inodes. -/
theorem CallSpec.holds (h : Held sb [] [] s) {v : InodeCache.St} {x : Table ℕ Slot}
    (hv : Good sb s.base [] v) (hx : Counted x []) (hi : x.inodes = s.files.inodes)
    (hofile : x.ofile = s.files.ofile) (hholds : Holds s.fs v) (hlinks : SameLinks s.fs v) :
    CallSpec sb q False s { s with fs := v, files := x } := by
  have h' : Held sb [] [] { s with fs := v } := h.fs hv
  refine ⟨h'.setFiles hx hi, ⟨rfl, fun _ _ => rfl, fun p fd _ => by rw [hofile]⟩, fun ha => ?_,
    fun _ hf => hf.elim⟩
  exact Anchored.setFiles (s := { s with fs := v }) (InodeCache.Anchored.stay ha (hholds.stay _) hlinks) hi

theorem CallSpec.trans (h : CallSpec sb q False s t) (h' : CallSpec sb q False t u) :
    CallSpec sb q False s u :=
  ⟨h'.held, h.own.trans h'.own, fun ha => h'.anchored (h.anchored ha), fun _ hf => hf.elim⟩

/-- A change of a file that leaves its references alone. -/
theorem Counted.keep {x : Table ℕ Slot} (h : Counted x F) {g : File ℕ Slot → File ℕ Slot}
    (href : (g (x.file f)).ref = (x.file f).ref) (htype : (g (x.file f)).type = (x.file f).type) :
    Counted (x.setFile f g) F :=
  h.setFile (fun _ _ => rfl) (by rw [href]) fun h0 => by
    rw [htype]
    exact h.idle f (by rwa [href] at h0)

theorem advance_spec (h : Counted s.files F) (n : ℕ) {a : Unit} (hr : advance f n s = .ok (a, t)) :
    ∃ x, t = { s with files := x } ∧ Counted x F ∧ x.inodes = s.files.inodes ∧
      x.ofile = s.files.ofile :=
  ⟨_, setFile_run hr, Counted.keep h rfl rfl, inodes_setFile_same rfl, rfl⟩

theorem fileread_spec (h : Held sb [] [] s) {n : ℕ} {args : ReadArgs} {r : ℤ}
    (hr : fileread sb f n args s = .ok (r, t)) : CallSpec sb q False s t := by
  rw [fileread, run_get_bind] at hr
  rcases run_ite.mp hr with ⟨-, hr⟩ | ⟨-, hr⟩
  · obtain ⟨-, rfl⟩ := run_pure.mp hr
    exact .refl h _
  rcases run_ite.mp hr with ⟨-, hr⟩ | ⟨-, hr⟩
  · obtain ⟨-, rfl⟩ := run_pure.mp hr
    exact .refl h _
  rcases run_ite.mp hr with ⟨-, hr⟩ | ⟨-, hr⟩
  · cases hip : (s.files.file f).ip with
    | none =>
      rw [hip] at hr
      exact (run_throw.mp hr).elim
    | some k =>
      rw [hip] at hr
      obtain ⟨_, u, hlock, hr⟩ := run_bind.mp hr
      obtain ⟨v, hlk, rfl⟩ := fs_run hlock
      obtain ⟨h₁, hholds₁, hdisk₁, hv⟩ := ilock_spec h.good hlk
      obtain ⟨b, u, hread, hrest⟩ := run_bind.mp hr
      obtain ⟨w, hrd, rfl⟩ := fs_run hread
      obtain rfl := fileRead_same h₁ (ilock_live h.good hlk) hv hrd
      cases b with
      | some b =>
        obtain ⟨_, u, hadv, hrest⟩ := run_bind.mp hrest
        obtain ⟨x, rfl, hc, hi, hofile⟩ := advance_spec (s := { s with fs := w }) h.files _ hadv
        obtain ⟨_, u, hunlock, hret⟩ := run_bind.mp hrest
        obtain ⟨y, hul, rfl⟩ := fs_run hunlock
        obtain ⟨-, rfl⟩ := run_pure.mp hret
        obtain ⟨h₂, hholds₂, hdisk₂⟩ := iunlock_spec h₁ hul
        exact .holds h h₂ hc hi hofile (hholds₁.trans hholds₂)
          (sameLinks_of_disk (hdisk₂.trans hdisk₁))
      | none =>
        obtain ⟨_, u, hunlock, hret⟩ := run_bind.mp hrest
        obtain ⟨y, hul, rfl⟩ := fs_run hunlock
        obtain ⟨-, rfl⟩ := run_pure.mp hret
        obtain ⟨h₂, hholds₂, hdisk₂⟩ := iunlock_spec h₁ hul
        exact .holds h h₂ h.files rfl rfl (hholds₁.trans hholds₂)
          (sameLinks_of_disk (hdisk₂.trans hdisk₁))
  · exact (run_throw.mp hr).elim

theorem sys_read_spec (h : Held sb [] [] s) {fd : Option ℤ} {args : ReadArgs} {r : ℤ}
    (hr : sys_read sb q fd args s = .ok (r, t)) : CallSpec sb q False s t := by
  obtain ⟨p, u, harg, hrest⟩ := run_bind.mp hr
  obtain ⟨rfl, -⟩ := argfd_run harg
  cases p with
  | none =>
    obtain ⟨-, rfl⟩ := run_pure.mp hrest
    exact .refl h _
  | some p =>
    cases hn : args.n with
    | none =>
      rw [hn] at hrest
      obtain ⟨-, rfl⟩ := run_pure.mp hrest
      exact .refl h _
    | some n =>
      rw [hn] at hrest
      exact fileread_spec h hrest

/-- Each turn writes back the inode that it changes. -/
theorem writeChunks_spec (h : Held sb [] [] s) {fuel : ℕ} {src : Bytes} {r : ℤ}
    (hr : writeChunks sb f k fuel src s = .ok (r, t)) : CallSpec sb q False s t := by
  induction fuel generalizing src s with
  | zero =>
    obtain ⟨-, rfl⟩ := run_pure.mp hr
    exact .refl h _
  | succ fuel ih =>
    rcases run_ite.mp hr with ⟨-, hr⟩ | ⟨-, hr⟩
    · obtain ⟨-, rfl⟩ := run_pure.mp hr
      exact .refl h _
    obtain ⟨_, u, hlock, hr⟩ := run_bind.mp hr
    obtain ⟨v, hlk, rfl⟩ := fs_run hlock
    obtain ⟨h₁, hholds₁, hdisk₁, hv⟩ := ilock_spec h.good hlk
    rw [run_get_bind] at hr
    obtain ⟨n, u, hwrite, hr⟩ := run_bind.mp hr
    obtain ⟨w, hwr, rfl⟩ := fs_run hwrite
    obtain ⟨h₂, hholds₂, hlinks₂⟩ := writei_spec h₁ (ilock_live h.good hlk) hv hwr
    have hlinks := (sameLinks_of_disk hdisk₁).trans hlinks₂
    cases n with
    | none =>
      obtain ⟨_, u, hunlock, hret⟩ := run_bind.mp hr
      obtain ⟨y, hul, rfl⟩ := fs_run hunlock
      obtain ⟨-, rfl⟩ := run_pure.mp hret
      obtain ⟨h₃, hholds₃, hdisk₃⟩ := iunlock_spec h₂ hul
      exact .holds h h₃ h.files rfl rfl ((hholds₁.trans hholds₂).trans hholds₃)
        (hlinks.trans (sameLinks_of_disk hdisk₃))
    | some n =>
      obtain ⟨_, u, hadv, hr⟩ := run_bind.mp hr
      obtain ⟨x, rfl, hc, hi, hofile⟩ := advance_spec (s := { s with fs := w }) h.files _ hadv
      obtain ⟨_, u, hunlock, hr⟩ := run_bind.mp hr
      obtain ⟨y, hul, rfl⟩ := fs_run hunlock
      obtain ⟨h₃, hholds₃, hdisk₃⟩ := iunlock_spec h₂ hul
      have hturn : CallSpec sb q False s { s with fs := y, files := x } :=
        .holds h h₃ hc hi hofile ((hholds₁.trans hholds₂).trans hholds₃)
          (hlinks.trans (sameLinks_of_disk hdisk₃))
      rcases run_ite.mp hr with ⟨-, hr⟩ | ⟨-, hr⟩
      · exact (run_throw.mp hr).elim
      · exact hturn.trans (ih hturn.held hr)

theorem sys_write_spec (h : Held sb [] [] s) {fd : Option ℤ} {src : Option Bytes} {pipe r : ℤ}
    (hr : sys_write sb q fd src pipe s = .ok (r, t)) : CallSpec sb q False s t := by
  obtain ⟨p, u, harg, hrest⟩ := run_bind.mp hr
  obtain ⟨rfl, -⟩ := argfd_run harg
  cases p with
  | none =>
    obtain ⟨-, rfl⟩ := run_pure.mp hrest
    exact .refl h _
  | some p =>
    cases src with
    | none =>
      obtain ⟨-, rfl⟩ := run_pure.mp hrest
      exact .refl h _
    | some src =>
      change filewrite sb p.2 src pipe u = _ at hrest
      rw [filewrite, run_get_bind] at hrest
      rcases run_ite.mp hrest with ⟨-, hrest⟩ | ⟨-, hrest⟩
      · obtain ⟨-, rfl⟩ := run_pure.mp hrest
        exact .refl h _
      rcases run_ite.mp hrest with ⟨-, hrest⟩ | ⟨-, hrest⟩
      · obtain ⟨-, rfl⟩ := run_pure.mp hrest
        exact .refl h _
      rcases run_ite.mp hrest with ⟨-, hrest⟩ | ⟨-, hrest⟩
      · cases hip : (u.files.file p.2).ip with
        | none =>
          rw [hip] at hrest
          exact (run_throw.mp hrest).elim
        | some k =>
          rw [hip] at hrest
          obtain ⟨n, v, hloop, hret⟩ := run_bind.mp hrest
          obtain ⟨-, rfl⟩ := run_pure.mp hret
          exact writeChunks_spec h hloop
      · exact (run_throw.mp hrest).elim

theorem sys_fstat_spec (h : Held sb [] [] s) {fd : Option ℤ} {st : Bool} {r : ℤ}
    (hr : sys_fstat q fd st s = .ok (r, t)) : CallSpec sb q False s t := by
  obtain ⟨p, u, harg, hrest⟩ := run_bind.mp hr
  obtain ⟨rfl, -⟩ := argfd_run harg
  cases p with
  | none =>
    obtain ⟨-, rfl⟩ := run_pure.mp hrest
    exact .refl h _
  | some p =>
    cases st with
    | false =>
      obtain ⟨-, rfl⟩ := run_pure.mp hrest
      exact .refl h _
    | true =>
      change filestat p.2 u = _ at hrest
      rw [filestat, run_get_bind] at hrest
      rcases run_ite.mp hrest with ⟨-, hrest⟩ | ⟨-, hrest⟩
      · cases hip : (u.files.file p.2).ip with
        | none =>
          rw [hip] at hrest
          exact (run_throw.mp hrest).elim
        | some k =>
          rw [hip] at hrest
          obtain ⟨_, v, hlock, hrest⟩ := run_bind.mp hrest
          obtain ⟨w, hlk, rfl⟩ := fs_run hlock
          obtain ⟨h₁, hholds₁, hdisk₁, -⟩ := ilock_spec h.good hlk
          obtain ⟨_, v, hunlock, hret⟩ := run_bind.mp hrest
          obtain ⟨y, hul, rfl⟩ := fs_run hunlock
          obtain ⟨-, rfl⟩ := run_pure.mp hret
          obtain ⟨h₂, hholds₂, hdisk₂⟩ := iunlock_spec h₁ hul
          exact .holds h h₂ h.files rfl rfl (hholds₁.trans hholds₂)
            (sameLinks_of_disk (hdisk₂.trans hdisk₁))
      · obtain ⟨-, rfl⟩ := run_pure.mp hrest
        exact .refl h _

end Ostep.FileCalls

import Ostep.FileContents

/-!
# A file that is held

While a process holds a reference to an inode, the steps of others on other inodes change no
byte of it: they write blocks of their own, and what `iput` frees belongs to somebody else.
-/

namespace Ostep.FsBlocks
open Hoare Ownership ByteWords TransitionSystem

variable {sb : Superblock} {i j : ℕ} {s t u : St}

/-- The inode `i`, if it is held, stays so, with the same blocks and the same bytes. -/
def SameFile (sb : Superblock) (i : ℕ) (s t : St) : Prop :=
  s.Locked i → t.Locked i ∧ (t.icache i).ip = (s.icache i).ip ∧
    ∀ k, s.own sb (i, k) ≠ 0 →
      t.own sb (i, k) = s.own sb (i, k) ∧ t.data (s.own sb (i, k)) = s.data (s.own sb (i, k))

theorem SameFile.trans (h : SameFile sb i s t) (k : SameFile sb i t u) : SameFile sb i s u := by
  intro hs
  obtain ⟨ht, hip, hold⟩ := h hs
  obtain ⟨hu, hip', hold'⟩ := k ht
  refine ⟨hu, hip'.trans hip, fun l hl => ?_⟩
  obtain ⟨hown, hdata⟩ := hold l hl
  obtain ⟨hown', hdata'⟩ := hold' l (by rwa [hown])
  rw [hown] at hown' hdata'
  exact ⟨hown', hdata'.trans hdata⟩

/-- Its array of bytes is the same. -/
theorem SameFile.contents (h : SameFile sb i s t) (hi : s.Locked i)
    (hcov : Covered sb s i (s.inode i).size) : t.contents sb i = s.contents sb i := by
  obtain ⟨ht, hip, hold⟩ := h hi
  have hinode : t.inode i = s.inode i := by rw [ht.inode, hi.inode, hip]
  rw [St.contents, St.contents, hinode]
  refine List.map_congr_left fun x hx => ?_
  have hx := List.mem_range.mp hx
  obtain ⟨hown, hdata⟩ := hold _ (hcov (x / BSIZE)
    (Nat.lt_of_le_of_lt (Nat.div_mul_le_self x BSIZE) hx)).2
  rw [St.byte, St.byte, hown, hdata]

/-! ## Steps that write no block -/

/-- No block is written, and the cached copy of `i` stays. -/
def Untouched (i : ℕ) (s t : St) : Prop :=
  t.data = s.data ∧ (s.Locked i → t.Locked i ∧ (t.icache i).ip = (s.icache i).ip)

instance : Std.Refl (Untouched i) := ⟨fun _ => ⟨rfl, fun h => ⟨h, rfl⟩⟩⟩

instance : IsTrans St (Untouched i) where
  trans s t u h k := by
    refine ⟨k.1.trans h.1, fun hs => ?_⟩
    obtain ⟨ht, hip⟩ := h.2 hs
    obtain ⟨hu, hip'⟩ := k.2 ht
    exact ⟨hu, hip'.trans hip⟩

theorem Untouched.sameFile (h : Untouched i s t) : SameFile sb i s t := by
  intro hs
  obtain ⟨ht, hip⟩ := h.2 hs
  have hown : ∀ k, t.own sb (i, k) = s.own sb (i, k) := by
    intro k
    rw [St.own, St.own, pointer, pointer, ht.inode, hs.inode, hip, h.1]
  exact ⟨ht, hip, fun k _ => ⟨hown k, by rw [h.1]⟩⟩

/-- A change of another cache entry, or of the disk outside the data blocks. -/
theorem Untouched.of_icache (hdata : t.data = s.data) (h : t.icache i = s.icache i) :
    Untouched i s t := by
  refine ⟨hdata, fun hs => ?_⟩
  rw [St.Locked, h]
  exact ⟨hs, rfl⟩

theorem iget_untouched : Keeps (Untouched i) (iget j) := by
  refine .update fun s => ?_
  by_cases hj : i = j
  · subst hj
    refine ⟨rfl, fun hs => ?_⟩
    simp [St.Locked, hs.1, hs.2]
  · exact .of_icache rfl (by simp [hj])

theorem setIp_untouched (hj : j ≠ i) (f : Dinode → Dinode) : Keeps (Untouched i) (setIp j f) :=
  .update fun s => .of_icache rfl (setIp_icache_of_ne s f hj.symm)

theorem iupdate_untouched : Keeps (Untouched i) (iupdate j) :=
  .update fun _ => .of_icache rfl rfl

theorem ilock_untouched : Keeps (Untouched i) (ilock j) := by
  intro s a t h
  rw [ilock, run_get_bind] at h
  rcases run_ite.mp h with ⟨-, h⟩ | ⟨-, h⟩
  · exact (run_throw.mp h).elim
  rcases run_ite.mp h with ⟨-, h⟩ | ⟨hvalid, h⟩
  · obtain ⟨-, rfl⟩ := run_pure.mp h
    exact refl_of (Untouched i) s
  rcases run_ite.mp h with ⟨-, h⟩ | ⟨-, h⟩
  · exact (run_throw.mp h).elim
  obtain rfl := run_modify.mp h
  by_cases hj : i = j
  · subst hj
    exact ⟨rfl, fun hs => absurd hs.2 hvalid⟩
  · exact .of_icache rfl (by simp [hj])

theorem bfree_untouched {b : ℕ} : Keeps (Untouched i) (bfree b) :=
  .get_bind fun _ => .ite .throw (.update fun _ => .of_icache rfl rfl)

theorem itrunc_untouched (hj : j ≠ i) : Keeps (Untouched i) (itrunc j) := by
  refine .bind (.forM fun k => ?_) fun _ => .bind (.get_bind fun s => ?_) fun _ =>
    .bind (setIp_untouched hj _) fun _ => iupdate_untouched
  · exact .get_bind fun s => .ite .pure (.bind bfree_untouched fun _ => setIp_untouched hj _)
  · refine .ite .pure (.bind (.forM fun l => .get_bind fun s => .ite .pure bfree_untouched) fun _ =>
      .bind bfree_untouched fun _ => setIp_untouched hj _)

theorem iput_untouched (hj : j ≠ i) : Keeps (Untouched i) (iput j) := by
  refine .bind (.get_bind fun s => .ite ?_ .pure) fun _ => .update fun s => ?_
  · exact .bind (itrunc_untouched hj) fun _ => .bind (setIp_untouched hj _) fun _ =>
      .bind iupdate_untouched fun _ => .update fun s => .of_icache rfl (by simp [hj.symm])
  · exact .of_icache rfl (by simp [hj.symm])

/-- Dropping one of several references. -/
theorem iput_shared (href : 1 < (s.icache i).ref) :
    iput i s = .ok ((), { s with
      icache := Function.update s.icache i { s.icache i with ref := (s.icache i).ref - 1 } }) := by
  have hlast : iputLast i s = .ok ((), s) := by
    rw [iputLast, run_get_bind, if_neg fun h => by omega]
    rfl
  exact run_bind_ok hlast

theorem iput_shared_untouched {a : Unit} (href : 1 < (s.icache i).ref)
    (h : iput i s = .ok (a, t)) : Untouched i s t := by
  rw [iput_shared href] at h
  obtain ⟨-, rfl⟩ := Prod.ext_iff.mp (Except.ok.inj h)
  refine ⟨rfl, fun hs => ?_⟩
  have hpos : 0 < (s.icache i).ref - 1 := by omega
  simp [St.Locked, hs.2, hpos]

theorem ialloc_untouched {type : ℕ} : Keeps (Untouched i) (ialloc sb type) := by
  refine .get_bind fun s => ?_
  cases (List.range' 1 (sb.ninodes - 1)).find? (fun inum => (s.dinode inum).type = 0) with
  | none => exact .throw
  | some inum =>
    refine .bind (.update fun _ => .of_icache rfl rfl) fun _ => ?_
    exact .bind iget_untouched fun _ => .pure

/-! ## Steps that write blocks -/

theorem Rewrote.sameFile {bs : List UInt8} (h : Rewrote sb j s bs t) (hj : j ≠ i) :
    SameFile sb i s t := by
  intro hs
  have hc := h.icache i hj.symm
  rw [St.Locked, hc]
  exact ⟨hs, rfl, fun k hk => ⟨h.own _ hk, h.others _ hj.symm hk⟩⟩

theorem Covered.size_le {len : ℕ} (h : Covered sb s i len) : len ≤ MAXFILE * BSIZE := by
  by_contra hlt
  have := (h MAXFILE (by omega)).1
  omega

/-- A call of `writei` that returns has changed nothing, or has rewritten the file. -/
theorem writei_run {off : ℕ} {src : List UInt8} {r : Option ℕ} (h : Inv sb s)
    (hl : s.Locked j) (hn : src.length < 2 ^ 32) (hrun : writei sb j src off s = .ok (r, t)) :
    (t = s ∧ (r = none ∨ (s.inode j).type = T_DEV)) ∨
      off ≤ (s.inode j).size ∧ r = some src.length ∧
        Rewrote sb j s (overwrite (s.contents sb j) off src) t := by
  have hcov : Covered sb s j (s.inode j).size := by
    rw [hl.inode]
    exact h.covered_locked hl
  by_cases hdev : (s.inode j).type = T_DEV
  · rw [writei, run_get_bind] at hrun
    simp only [← hl.inode, if_pos hdev] at hrun
    exact .inl ⟨(run_pure.mp hrun).2.symm, .inr hdev⟩
  by_cases hoff : off ≤ (s.inode j).size
  · have hsize := hcov.size_le
    have hlt : off < 2 ^ 32 := Nat.lt_of_le_of_lt (hoff.trans hsize) (by decide)
    by_cases hbad : Refused (s.inode j).size off src.length
    · rw [writei_refused hl hdev hlt hn hbad] at hrun
      obtain ⟨rfl, rfl⟩ := Prod.ext_iff.mp (Except.ok.inj hrun)
      exact .inl ⟨rfl, .inl rfl⟩
    · have hdone := (writei_accepted (h.core hl) hcov hdev hbad).ok rfl hrun
      exact .inr ⟨hoff, hdone.1, hdone.2.2⟩
  · rw [writei, run_get_bind] at hrun
    simp only [← hl.inode, if_neg hdev] at hrun
    rw [if_pos (Or.inl (by omega))] at hrun
    obtain ⟨rfl, rfl⟩ := run_pure.mp hrun
    exact .inl ⟨rfl, .inl rfl⟩

theorem writei_sameFile {off : ℕ} {src : List UInt8} {r : Option ℕ} (h : Inv sb s)
    (hl : s.Locked j) (hj : j ≠ i) (hn : src.length < 2 ^ 32)
    (hrun : writei sb j src off s = .ok (r, t)) : SameFile sb i s t := by
  rcases writei_run h hl hn hrun with ⟨rfl, -⟩ | ⟨-, -, hrewrote⟩
  · exact (refl_of (Untouched i) t).sameFile
  · exact hrewrote.sameFile hj

theorem dirlookup_run {name : List UInt8} {r : Option (ℕ × ℕ)} (h : Inv sb s) (hl : s.Locked j)
    (hrun : dirlookup sb j name s = .ok (r, t)) :
    (r = none ∧ t = s) ∨ ∃ f off, r = some (f, off) ∧ iget f s = .ok ((), t) := by
  rw [dirlookup, run_get_bind] at hrun
  rcases run_ite.mp hrun with ⟨-, hrun⟩ | ⟨-, hrun⟩
  · exact (run_throw.mp hrun).elim
  obtain ⟨p, u, hfind, hrun⟩ := run_bind.mp hrun
  obtain rfl := (findName_spec h hl name _).ok rfl hfind
  cases p with
  | none =>
    obtain ⟨rfl, rfl⟩ := run_pure.mp hrun
    exact .inl ⟨rfl, rfl⟩
  | some p =>
    obtain ⟨⟨⟩, v, hget, hrun⟩ := run_bind.mp hrun
    obtain ⟨rfl, rfl⟩ := run_pure.mp hrun
    exact .inr ⟨p.1, p.2, rfl, hget⟩

theorem length_dirent (inum : ℕ) (name : List UInt8) : (dirent inum name).length = DIRENT := by
  have hle : (dirName name).length ≤ DIRSIZ := by
    refine (List.takeWhile_sublist _).length_le.trans ?_
    rw [List.length_take]
    exact Nat.min_le_left _ _
  simp only [dirent, List.length_cons, List.length_append, List.length_replicate]
  change (dirName name).length ≤ 14 at hle
  change (dirName name).length + (14 - (dirName name).length) + 1 + 1 = 16
  omega

/-- `dirlink` gives back the inode that it finds, or writes the entry. -/
theorem dirlink_run {name : List UInt8} {inum : ℕ} {r : Bool} (h : Inv sb s)
    (hl : s.Locked j) (hrun : dirlink sb j name inum s = .ok (r, t)) :
    (∀ i, SameFile sb i s t) ∨
      ∃ off n, writei sb j (dirent inum name) off s = .ok (n, t) := by
  obtain ⟨p, u, hlook, hrest⟩ := run_bind.mp hrun
  clear hrun
  rcases dirlookup_run h hl hlook with ⟨rfl, rfl⟩ | ⟨f, off, rfl, hget⟩
  · simp only [run_get_bind] at hrest
    obtain ⟨off, v, hempty, hfound⟩ := run_bind.mp hrest
    clear hrest
    obtain rfl := (findEmpty_spec h hl _ _).ok rfl hempty
    obtain ⟨q, w, hwrite, hdone⟩ := run_bind.mp hfound
    cases q with
    | none => exact (run_throw.mp hdone).elim
    | some n =>
      rcases run_ite.mp hdone with ⟨-, hdone⟩ | ⟨-, hdone⟩
      · obtain ⟨-, rfl⟩ := run_pure.mp hdone
        exact .inr ⟨off, some n, hwrite⟩
      · exact (run_throw.mp hdone).elim
  · obtain ⟨⟨⟩, v, hput, hrest⟩ := run_bind.mp hrest
    obtain ⟨-, rfl⟩ := run_pure.mp hrest
    refine .inl fun i => ?_
    have hgot : Untouched i s u := iget_untouched s () u hget
    by_cases hf : f = i
    · subst hf
      intro hs
      have href : 1 < (u.icache f).ref := by
        obtain rfl := run_modify.mp hget
        simp [hs.1]
      exact (trans_of (Untouched f) hgot (iput_shared_untouched href hput)).sameFile hs
    · exact (trans_of (Untouched i) hgot (iput_untouched hf u () v hput)).sameFile

theorem dirlink_sameFile {name : List UInt8} {inum : ℕ} {r : Bool} (h : Inv sb s)
    (hl : s.Locked j) (hj : j ≠ i) (hrun : dirlink sb j name inum s = .ok (r, t)) :
    SameFile sb i s t := by
  rcases dirlink_run h hl hrun with hsame | ⟨off, n, hwrite⟩
  · exact hsame i
  · exact writei_sameFile h hl hj (by rw [length_dirent]; decide) hwrite

/-! ## Runs -/

/-- The step is not one that a holder of `i` makes on `i`. -/
def Event.Spares (s : St) (i : ℕ) : Event → Prop
  | .iget _ | .ilock _ | .ialloc _ => True
  | .setMeta j .. | .dirlink j .. => j ≠ i
  | .writei j src _ => j ≠ i ∧ src.length < 2 ^ 32
  | .iput j => j = i → 1 < (s.icache i).ref

theorem next_sameFile {e : Event} (h : Inv sb s) (hspares : e.Spares s i)
    (hstep : next sb s e = some t) : SameFile sb i s t := by
  obtain ⟨hready, hrun⟩ := Option.ite_none_right_eq_some.mp hstep
  cases hr : e.run sb s with
  | error p => simp [hr] at hrun
  | ok r =>
    obtain ⟨u, t'⟩ := r
    obtain rfl : t' = t := by simpa [hr] using hrun
    cases e with
    | iget j => exact (iget_untouched s u t' hr).sameFile
    | ilock j => exact (ilock_untouched s u t' hr).sameFile
    | ialloc type =>
      obtain ⟨inum, v, halloc, hr⟩ := run_bind.mp hr
      obtain ⟨-, rfl⟩ := run_pure.mp hr
      exact (ialloc_untouched s inum v halloc).sameFile
    | setMeta j major minor nlink =>
      have hkeeps : Keeps (Untouched i) (Event.run sb (.setMeta j major minor nlink)) :=
        .bind (setIp_untouched hspares _) fun _ => iupdate_untouched
      exact (hkeeps s u t' hr).sameFile
    | writei j src off =>
      obtain ⟨n, v, hwrite, hr⟩ := run_bind.mp hr
      obtain ⟨-, rfl⟩ := run_pure.mp hr
      exact writei_sameFile h hready hspares.1 hspares.2 hwrite
    | dirlink j name inum =>
      obtain ⟨b, v, hlink, hr⟩ := run_bind.mp hr
      obtain ⟨-, rfl⟩ := run_pure.mp hr
      exact dirlink_sameFile h hready hspares hlink
    | iput j =>
      by_cases hj : j = i
      · subst hj
        exact (iput_shared_untouched (hspares rfl) hr).sameFile
      · exact (iput_untouched hj s u t' hr).sameFile

/-- The step keeps the reference that somebody else holds to `i`. -/
def Event.Foreign (s : St) (i : ℕ) : Event → Prop
  | .iput j => j = i → 1 < (s.icache i).ref
  | .writei _ src _ => src.length < 2 ^ 32
  | _ => True

theorem Event.Spares.foreign {e : Event} (h : e.Spares s i) : e.Foreign s i := by
  cases e with
  | writei j src off => exact h.2
  | iput j => exact h
  | _ => trivial

/-- A held file is not truncated. -/
structure Longer (i : ℕ) (s t : St) : Prop where
  locked : t.Locked i
  type : (t.inode i).type = (s.inode i).type
  size : (s.inode i).size ≤ (t.inode i).size

theorem SameFile.longer (h : SameFile sb i s t) (hi : s.Locked i) : Longer i s t := by
  obtain ⟨ht, hip, -⟩ := h hi
  refine ⟨ht, ?_, Nat.le_of_eq ?_⟩ <;> rw [ht.inode, hi.inode, hip]

theorem length_contents (sb : Superblock) (s : St) (i : ℕ) :
    (s.contents sb i).length = (s.inode i).size := by simp [St.contents]

theorem writei_longer {off : ℕ} {src : List UInt8} {r : Option ℕ} (h : Inv sb s)
    (hl : s.Locked i) (hn : src.length < 2 ^ 32) (hrun : writei sb i src off s = .ok (r, t)) :
    Longer i s t := by
  rcases writei_run h hl hn hrun with ⟨rfl, -⟩ | ⟨hoff, -, hrewrote⟩
  · exact ⟨hl, rfl, Nat.le_refl _⟩
  · refine ⟨hrewrote.locked, hrewrote.type, ?_⟩
    rw [← length_contents sb t, hrewrote.contents,
      length_overwrite (by rwa [length_contents]), length_contents]
    exact Nat.le_max_left _ _

theorem next_longer {e : Event} (h : Inv sb s) (hi : s.Locked i) (hforeign : e.Foreign s i)
    (hstep : next sb s e = some t) : Longer i s t := by
  by_cases hspares : e.Spares s i
  · exact (next_sameFile h hspares hstep).longer hi
  obtain ⟨hready, hrun⟩ := Option.ite_none_right_eq_some.mp hstep
  cases hr : e.run sb s with
  | error p => simp [hr] at hrun
  | ok r =>
    obtain ⟨u, t'⟩ := r
    obtain rfl : t' = t := by simpa [hr] using hrun
    cases e with
    | iget j => exact absurd trivial hspares
    | ilock j => exact absurd trivial hspares
    | ialloc type => exact absurd trivial hspares
    | iput j => exact absurd hforeign hspares
    | setMeta j major minor nlink =>
      obtain rfl : j = i := not_not.mp hspares
      obtain ⟨⟨⟩, v, hset, hupdate⟩ := run_bind.mp hr
      obtain rfl := run_modify.mp hset
      obtain rfl := run_modify.mp hupdate
      have hlocked := (setIp_locked s j j fun d =>
        { d with major := major, minor := minor, nlink := nlink }).mpr hi
      refine ⟨hlocked, ?_, Nat.le_of_eq ?_⟩ <;>
        rw [iupdate_inode hlocked, hlocked.inode, hi.inode, setIp_icache]
    | writei j src off =>
      have hj : j = i := by_contra fun hne => hspares ⟨hne, hforeign⟩
      subst hj
      obtain ⟨n, v, hwrite, hr⟩ := run_bind.mp hr
      obtain ⟨-, rfl⟩ := run_pure.mp hr
      exact writei_longer h hi hforeign hwrite
    | dirlink j name inum =>
      obtain rfl : j = i := not_not.mp hspares
      obtain ⟨b, v, hlink, hr⟩ := run_bind.mp hr
      obtain ⟨-, rfl⟩ := run_pure.mp hr
      rcases dirlink_run h hi hlink with hsame | ⟨off, n, hwrite⟩
      · exact (hsame j).longer hi
      · exact writei_longer h hi (by rw [length_dirent]; decide) hwrite

/-- From a consistent image, and as long as a process holds the inode `i` and the others spare
it, every read of `i` returns what it returned when they began. -/
theorem held_file_kept {s₀ s t : St} {es fs : List Event} (h₀ : Consistent sb s₀)
    (h : (system sb).Run s₀ es s) (hi : s.Locked i)
    (hrun : ((system sb).restrict fun s e _ => e.Spares s i).Run s fs t) :
    t.Locked i ∧ (t.icache i).ip = (s.icache i).ip ∧ t.contents sb i = s.contents sb i := by
  have hs := system_inv h₀ h
  have hkept : Inv sb t ∧ SameFile sb i s t := by
    refine hrun.invariant (I := fun t => Inv sb t ∧ SameFile sb i s t)
      ⟨hs, (refl_of (Untouched i) s).sameFile⟩ ?_
    rintro u e v ⟨hu, hsame⟩ ⟨hstep, hspares⟩
    exact ⟨hu.next hstep, hsame.trans (next_sameFile hu hspares hstep)⟩
  have hcov : Covered sb s i (s.inode i).size := by
    rw [hi.inode]
    exact hs.covered_locked hi
  exact ⟨(hkept.2 hi).1, (hkept.2 hi).2.1, hkept.2.contents hi hcov⟩

/-- What a call of `writei` has written is what `readi` finds, whatever the others have done in
between. -/
theorem read_back {s₀ s t u : St} {es fs : List Event} {src : List UInt8} {off : ℕ}
    (h₀ : Consistent sb s₀) (h : (system sb).Run s₀ es s) (hi : s.Locked i)
    (hdev : (s.inode i).type ≠ T_DEV) (hn : src.length < 2 ^ 32)
    (hwrite : writei sb i src off s = .ok (some src.length, t))
    (hrun : ((system sb).restrict fun s e _ => e.Spares s i).Run t fs u) :
    readi sb i off src.length u = .ok (some src, u) := by
  have hs := system_inv h₀ h
  rcases writei_run hs hi hn hwrite with ⟨-, hnone | hdev'⟩ | ⟨hoff, -, hrewrote⟩
  · cases hnone
  · exact absurd hdev' hdev
  have hstep : (system sb).step s (.writei i src off) t := by
    have hready : Event.Ready sb s (.writei i src off) := hi
    have hwritten : Event.run sb (.writei i src off) s = .ok ((), t) := run_bind_ok hwrite
    change next sb s _ = some t
    rw [next, if_pos hready, hwritten]
  have ht := h.append (.single hstep)
  have hu := system_inv h₀ (ht.append hrun.of_restrict)
  obtain ⟨hlocked, hip, hkept⟩ := held_file_kept h₀ ht hrewrote.locked hrun
  have hcov : Covered sb u i (u.inode i).size := by
    rw [hlocked.inode]
    exact hu.covered_locked hlocked
  have hcontents := hkept.trans hrewrote.contents
  have hlen := congrArg List.length hcontents
  rw [length_contents, length_overwrite (by rwa [length_contents]), length_contents] at hlen
  have hsize := hcov.size_le
  change (u.inode i).size ≤ 71680 at hsize
  have htype : (u.inode i).type ≠ T_DEV := by
    rw [hlocked.inode, hip, ← hrewrote.locked.inode, hrewrote.type]
    exact hdev
  rw [readi_contents (hu.core hlocked) hcov htype (by omega) hn, if_neg (by omega), hcontents]
  have hbytes : ((overwrite (s.contents sb i) off src).drop off).take src.length = src := by
    rw [overwrite, List.append_assoc, List.drop_left' (by simp [length_contents, hoff]),
      List.take_left]
  rw [hbytes]

/-- A new file beside an old one of eight bytes, and what is done to it meanwhile. -/
def oldFile : List Event := [.ialloc 2, .ilock 2, .writei 2 [1, 2, 3, 4, 5, 6, 7, 8] 0]

def newFile : List Event := [.ialloc 2, .ilock 3, .writei 3 [9] 0, .iput 3]

instance (s : St) (i : ℕ) : (e : Event) → Decidable (e.Spares s i)
  | .iget _ | .ilock _ | .ialloc _ => instDecidableTrue
  | .setMeta j _ _ _ | .dirlink j _ _ => @instDecidableNot (j = i) (instDecidableEqNat j i)
  | .writei j src _ => @instDecidableAnd (¬ j = i) (src.length < 2 ^ 32)
    (@instDecidableNot (j = i) (instDecidableEqNat j i)) (Nat.decLt src.length _)
  | .iput j => @instDecidableForall (j = i) (1 < (s.icache i).ref) (instDecidableEqNat j i)
    (Nat.decLt 1 _)

theorem read_back_beside : ∃ u, readi mkfsSb 2 3 2 u = .ok (some [20, 21], u) := by
  have h : ((runNext (next mkfsSb) mkfsImage oldFile).any fun s =>
      decide (s.Locked 2) && decide ((s.inode 2).type = 2) &&
        (writei mkfsSb 2 [20, 21] 3 s).toOption.any fun p => decide (p.1 = some 2) &&
          (runNext (fun s e => if e.Spares s 2 then next mkfsSb s e else none) p.2 newFile).isSome) =
      true := by decide +kernel
  obtain ⟨s, hs, h⟩ := (Option.any_eq_true ..).mp h
  simp only [Bool.and_eq_true, decide_eq_true_eq] at h
  obtain ⟨⟨hlocked, htype⟩, h⟩ := h
  obtain ⟨p, hp, hdone⟩ := (Option.any_eq_true ..).mp h
  obtain ⟨r, t⟩ := p
  simp only [Bool.and_eq_true, decide_eq_true_eq] at hdone
  obtain ⟨rfl, hrun⟩ := hdone
  obtain ⟨u, hu⟩ := Option.isSome_iff_exists.mp hrun
  have hwrite : writei mkfsSb 2 [20, 21] 3 s = .ok (some 2, t) := by
    cases hr : writei mkfsSb 2 [20, 21] 3 s with
    | error e =>
      rw [hr] at hp
      cases hp
    | ok q =>
      rw [hr] at hp
      exact congrArg Except.ok (Option.some.inj hp)
  have hback := read_back mkfsImage_consistent (run_of_runNext hs) hlocked (by rw [htype]; decide)
    (by decide) hwrite (restrict_run_of_runNext hu)
  exact ⟨u, hback⟩

end Ostep.FsBlocks

import Ostep.OpenFile

/-!
# The names in a directory

A directory is a file of slots. Names are put into it by `dirlink`, which looks the name up
first, and taken out of it by `sys_unlink`, which writes zeros over the slot. Whichever slots are
freed and used again, no name is in a directory twice.
-/

namespace Ostep.FsBlocks
open Hoare Ownership ByteWords TransitionSystem

/-! ## Slots -/

section Slots
variable {bs de name : List UInt8} {k l : ℕ}

def slot (bs : List UInt8) (k : ℕ) : List UInt8 := (bs.drop (DIRENT * k)).take DIRENT

/-- An entry for the name, as `namecmp` compares names. -/
def IsEntry (name de : List UInt8) : Prop := direntInum de ≠ 0 ∧ dirName name = dirName (de.drop 2)

def Names (bs name : List UInt8) (k : ℕ) : Prop := DIRENT * k < bs.length ∧ IsEntry name (slot bs k)

/-- Whole slots, and no name twice. -/
structure Named (bs : List UInt8) : Prop where
  whole : DIRENT ∣ bs.length
  distinct : ∀ name k l, Names bs name k → Names bs name l → k = l

theorem Named.nil : Named [] where
  whole := ⟨0, rfl⟩
  distinct _ _ _ h _ := absurd h.1 (Nat.not_lt_zero _)

theorem getElem?_slot (bs : List UInt8) (k x : ℕ) :
    (slot bs k)[x]? = if x < DIRENT then bs[DIRENT * k + x]? else none := by
  rw [slot, List.getElem?_take]
  split_ifs
  · rw [List.getElem?_drop]
  · rfl

theorem slot_overwrite (hde : de.length = DIRENT) (hk : DIRENT * k ≤ bs.length) :
    slot (overwrite bs (DIRENT * k) de) l = if l = k then de else slot bs l := by
  refine List.ext_getElem? fun x => ?_
  rw [getElem?_slot, getElem?_overwrite hk, hde]
  by_cases hx : x < DIRENT
  · change x < 16 at hx
    rw [if_pos hx]
    by_cases hl : l = k
    · subst hl
      rw [if_pos rfl, if_pos ⟨Nat.le_add_right _ _, Nat.add_lt_add_left hx _⟩, Nat.add_sub_cancel_left]
    · have hout : ¬ (16 * k ≤ 16 * l + x ∧ 16 * l + x < 16 * k + 16) := by omega
      rw [if_neg hl, if_neg hout, getElem?_slot, if_pos hx]
  · rw [if_neg hx]
    by_cases hl : l = k
    · rw [if_pos hl, List.getElem?_eq_none (by omega)]
    · rw [if_neg hl, getElem?_slot, if_neg hx]

theorem names_overwrite (hde : de.length = DIRENT) (hk : DIRENT * k ≤ bs.length) (hlk : l ≠ k) :
    Names (overwrite bs (DIRENT * k) de) name l ↔ Names bs name l := by
  rw [Names, Names, slot_overwrite hde hk, if_neg hlk, length_overwrite hk, hde]
  refine and_congr_left fun _ => ?_
  change 16 * l < max bs.length (16 * k + 16) ↔ 16 * l < bs.length
  change 16 * k ≤ bs.length at hk
  omega

theorem names_overwrite_self (hde : de.length = DIRENT) (hk : DIRENT * k ≤ bs.length) :
    Names (overwrite bs (DIRENT * k) de) name k ↔ IsEntry name de := by
  rw [Names, slot_overwrite hde hk, if_pos rfl, length_overwrite hk, hde]
  refine and_iff_right ?_
  change 16 * k < max bs.length (16 * k + 16)
  omega

/-- A slot is overwritten with a name that no other slot has, or is freed. -/
theorem Named.overwrite (h : Named bs) (hde : de.length = DIRENT) (hk : DIRENT * k ≤ bs.length)
    (hnew : ∀ name l, IsEntry name de → Names bs name l → l = k) :
    Named (overwrite bs (DIRENT * k) de) where
  whole := by
    rw [length_overwrite hk, hde]
    rcases max_choice bs.length (DIRENT * k + DIRENT) with hm | hm <;> rw [hm]
    · exact h.whole
    · exact Nat.dvd_add (Nat.dvd_mul_right _ _) (Nat.dvd_refl _)
  distinct name a b ha hb := by
    by_cases hak : a = k <;> by_cases hbk : b = k
    · rw [hak, hbk]
    · subst hak
      rw [names_overwrite_self hde hk] at ha
      rw [names_overwrite hde hk hbk] at hb
      exact absurd (hnew name b ha hb) hbk
    · subst hbk
      rw [names_overwrite_self hde hk] at hb
      rw [names_overwrite hde hk hak] at ha
      exact hnew name a hb ha
    · rw [names_overwrite hde hk hak] at ha
      rw [names_overwrite hde hk hbk] at hb
      exact h.distinct name a b ha hb

theorem dirName_dirent (inum : ℕ) (name : List UInt8) :
    dirName ((dirent inum name).drop 2) = dirName name := by
  have hlen : (dirName name ++ List.replicate (DIRSIZ - (dirName name).length) 0).length ≤ DIRSIZ := by
    have hde := length_dirent inum name
    rw [dirent, List.length_cons, List.length_cons] at hde
    change _ + 1 + 1 = 16 at hde
    change _ ≤ 14
    omega
  change dirName (dirName name ++ List.replicate (DIRSIZ - (dirName name).length) 0) = _
  rw [dirName, List.take_of_length_le hlen, List.takeWhile_append_of_pos]
  · cases DIRSIZ - (dirName name).length <;> simp [List.replicate_succ]
  · intro c hc
    exact List.all_eq_true.mp List.all_takeWhile c hc

theorem not_isEntry_zeros : ¬ IsEntry name (List.replicate DIRENT 0) := by
  intro h
  exact h.1 (by decide)

end Slots

/-! ## Looking a name up -/

section Lookup
variable {sb : Superblock} {i : ℕ} {s t : St} {name : List UInt8}

/-- The directory that a caller has locked, of whole slots. -/
structure OpenDir (sb : Superblock) (i : ℕ) (s : St) : Prop where
  inv : Inv sb s
  locked : s.Locked i
  type : (s.inode i).type = T_DIR
  whole : DIRENT ∣ (s.inode i).size

theorem OpenDir.covered (h : OpenDir sb i s) : Covered sb s i (s.inode i).size := by
  rw [h.locked.inode]
  exact h.inv.covered_locked h.locked

theorem mem_direntOffs {size off : ℕ} :
    off ∈ direntOffs size ↔ ∃ k, DIRENT * k < size ∧ off = DIRENT * k := by
  rw [direntOffs, List.mem_map]
  refine exists_congr fun k => ?_
  rw [List.mem_range]
  change k < (size + 16 - 1) / 16 ∧ 16 * k = off ↔ 16 * k < size ∧ off = 16 * k
  omega

theorem OpenDir.off_lt (h : OpenDir sb i s) {off : ℕ} (hoff : off ∈ direntOffs (s.inode i).size) :
    off < 2 ^ 32 := by
  obtain ⟨k, hk, rfl⟩ := mem_direntOffs.mp hoff
  exact Nat.lt_trans hk (Nat.lt_of_le_of_lt h.covered.size_le (by decide))

theorem OpenDir.readDirent {off : ℕ} {p : Panic} {de : List UInt8} (h : OpenDir sb i s)
    (hoff : off < 2 ^ 32) (hrun : readDirent sb i off p s = .ok (de, t)) :
    t = s ∧ de = ((s.contents sb i).drop off).take DIRENT := by
  have hdev : (s.inode i).type ≠ T_DEV := by
    rw [h.type]
    decide
  have hread := readi_contents (h.inv.core h.locked) h.covered hdev hoff (show DIRENT < 2 ^ 32 by decide)
  rw [FsBlocks.readDirent, run_bind_ok hread] at hrun
  split_ifs at hrun with hbad
  · exact (run_throw.mp hrun).elim
  · rcases run_ite.mp hrun with ⟨-, hrun⟩ | ⟨-, hrun⟩
    · obtain ⟨rfl, rfl⟩ := run_pure.mp hrun
      exact ⟨rfl, rfl⟩
    · exact (run_throw.mp hrun).elim

/-- The first entry with the name, among the slots at `offs`. -/
theorem OpenDir.findName {offs : List ℕ} {r : Option (ℕ × ℕ)} (h : OpenDir sb i s)
    (hoffs : ∀ off ∈ offs, off < 2 ^ 32) (hrun : findName sb i name offs s = .ok (r, t)) :
    t = s ∧ (r = none → ∀ off ∈ offs, ¬ IsEntry name (((s.contents sb i).drop off).take DIRENT)) ∧
      ∀ inum off, r = some (inum, off) → off ∈ offs ∧
        IsEntry name (((s.contents sb i).drop off).take DIRENT) ∧
        direntInum (((s.contents sb i).drop off).take DIRENT) = inum := by
  induction offs with
  | nil =>
    obtain ⟨rfl, rfl⟩ := run_pure.mp hrun
    exact ⟨rfl, fun _ _ hoff => absurd hoff List.not_mem_nil, fun _ _ he => by cases he⟩
  | cons off offs ih =>
    obtain ⟨de, u, hread, hrest⟩ := run_bind.mp hrun
    obtain ⟨rfl, rfl⟩ := h.readDirent (hoffs off List.mem_cons_self) hread
    rcases run_ite.mp hrest with ⟨hfound, hrest⟩ | ⟨hother, hrest⟩
    · obtain ⟨rfl, rfl⟩ := run_pure.mp hrest
      refine ⟨rfl, fun he => absurd he (Option.some_ne_none _), fun inum off' he => ?_⟩
      obtain ⟨rfl, rfl⟩ := Prod.ext_iff.mp (Option.some.inj he)
      exact ⟨List.mem_cons_self, hfound, rfl⟩
    · obtain ⟨rfl, hnone, hsome⟩ := ih (fun x hx => hoffs x (List.mem_cons_of_mem _ hx)) hrest
      refine ⟨rfl, fun he x hx => ?_, fun inum off' he => ?_⟩
      · rcases List.mem_cons.mp hx with rfl | hx
        · exact hother
        · exact hnone he x hx
      · obtain ⟨hmem, hentry⟩ := hsome inum off' he
        exact ⟨List.mem_cons_of_mem _ hmem, hentry⟩

/-- `dirlink` writes to a free slot, or behind the last. -/
theorem OpenDir.findEmpty {offs : List ℕ} {last off : ℕ} (h : OpenDir sb i s)
    (hoffs : ∀ off ∈ offs, off < 2 ^ 32) (hrun : findEmpty sb i last offs s = .ok (off, t)) :
    t = s ∧ (off = last ∨ off ∈ offs) := by
  induction offs with
  | nil =>
    obtain ⟨rfl, rfl⟩ := run_pure.mp hrun
    exact ⟨rfl, .inl rfl⟩
  | cons x offs ih =>
    obtain ⟨de, u, hread, hrest⟩ := run_bind.mp hrun
    obtain ⟨rfl, -⟩ := h.readDirent (hoffs x List.mem_cons_self) hread
    rcases run_ite.mp hrest with ⟨-, hrest⟩ | ⟨-, hrest⟩
    · obtain ⟨rfl, rfl⟩ := run_pure.mp hrest
      exact ⟨rfl, .inr List.mem_cons_self⟩
    · obtain ⟨rfl, hoff⟩ := ih (fun y hy => hoffs y (List.mem_cons_of_mem _ hy)) hrest
      exact ⟨rfl, hoff.imp_right (List.mem_cons_of_mem _)⟩

/-- The answer is the first slot that names it, and there is none exactly if no slot does. -/
theorem OpenDir.dirlookup {r : Option (ℕ × ℕ)} (h : OpenDir sb i s)
    (hrun : dirlookup sb i name s = .ok (r, t)) :
    (r = none ∧ t = s ∧ ∀ k, ¬ Names (s.contents sb i) name k) ∨
      ∃ k inum, r = some (inum, DIRENT * k) ∧ Names (s.contents sb i) name k ∧
        direntInum (slot (s.contents sb i) k) = inum ∧ iget inum s = .ok ((), t) := by
  rw [FsBlocks.dirlookup, run_get_bind] at hrun
  rcases run_ite.mp hrun with ⟨-, hrun⟩ | ⟨-, hrun⟩
  · exact (run_throw.mp hrun).elim
  obtain ⟨p, u, hfind, hrest⟩ := run_bind.mp hrun
  clear hrun
  rw [← h.locked.inode] at hfind
  obtain ⟨rfl, hnone, hsome⟩ := h.findName (fun off hoff => h.off_lt hoff) hfind
  cases p with
  | none =>
    obtain ⟨rfl, rfl⟩ := run_pure.mp hrest
    refine .inl ⟨rfl, rfl, fun k hk => hnone rfl (DIRENT * k) ?_ hk.2⟩
    exact mem_direntOffs.mpr ⟨k, by rw [← length_contents sb]; exact hk.1, rfl⟩
  | some p =>
    obtain ⟨⟨⟩, v, hget, hrest⟩ := run_bind.mp hrest
    obtain ⟨rfl, rfl⟩ := run_pure.mp hrest
    obtain ⟨hmem, hentry, hinum⟩ := hsome p.1 p.2 rfl
    obtain ⟨k, hk, hoff⟩ := mem_direntOffs.mp hmem
    rw [hoff] at hentry hinum
    exact .inr ⟨k, p.1, by rw [hoff], ⟨by rw [length_contents]; exact hk, hentry⟩, hinum, hget⟩

end Lookup

/-! ## Every directory -/

section Directories
variable {sb : Superblock} {i j : ℕ} {s t : St}

def Directories (sb : Superblock) (s : St) : Prop :=
  ∀ i, i < sb.ninodes → (s.inode i).type = T_DIR → Named (s.contents sb i)

/-- A directory is written by `dirlink`, and by `sys_unlink`, which frees a slot. -/
def Event.Tidy (s : St) : Event → Prop
  | .writei j src off => src.length < 2 ^ 32 ∧
    ((s.inode j).type = T_DIR → src = List.replicate DIRENT 0 ∧ off % DIRENT = 0)
  | _ => True

theorem contents_congr (hdata : t.data = s.data) (htype : (t.inode i).type = (s.inode i).type)
    (hsize : (t.inode i).size = (s.inode i).size) (haddrs : (t.inode i).addrs = (s.inode i).addrs) :
    t.contents sb i = s.contents sb i := by
  rw [St.contents, St.contents, hsize]
  refine List.map_congr_left fun x _ => ?_
  simp only [St.byte, St.own, pointer, pointerOf, hdata, htype, haddrs]

/-- No block is written, nor the inode `i`. -/
def OnDisk (i : ℕ) (s t : St) : Prop := t.data = s.data ∧ t.dinode i = s.dinode i

instance : Std.Refl (OnDisk i) := ⟨fun _ => ⟨rfl, rfl⟩⟩

instance : IsTrans St (OnDisk i) where
  trans _ _ _ h k := ⟨k.1.trans h.1, k.2.trans h.2⟩

theorem OnDisk.named (h : OnDisk i s t) (hs : Inv sb s) (ht : Inv sb t) (hd : Directories sb s)
    (hi : i < sb.ninodes) (htype : (t.inode i).type = T_DIR) : Named (t.contents sb i) := by
  have hinode : t.inode i = s.inode i := by rw [ht.inode_eq, hs.inode_eq, h.2]
  rw [contents_congr h.1 (by rw [hinode]) (by rw [hinode]) (by rw [hinode])]
  exact hd i hi (hinode ▸ htype)

theorem iget_onDisk : Keeps (OnDisk i) (iget j) := .update fun _ => ⟨rfl, rfl⟩

theorem setIp_onDisk (f : Dinode → Dinode) : Keeps (OnDisk i) (setIp j f) :=
  .update fun _ => ⟨rfl, rfl⟩

theorem iupdate_onDisk (hj : j ≠ i) : Keeps (OnDisk i) (iupdate j) :=
  .update fun s => ⟨rfl, iupdate_dinode_of_ne s hj.symm⟩

theorem ilock_onDisk : Keeps (OnDisk i) (ilock j) :=
  .get_bind fun _ => .ite .throw (.ite .pure (.ite .throw (.update fun _ => ⟨rfl, rfl⟩)))

theorem bfree_onDisk {b : ℕ} : Keeps (OnDisk i) (bfree b) :=
  .get_bind fun _ => .ite .throw (.update fun _ => ⟨rfl, rfl⟩)

theorem itrunc_onDisk (hj : j ≠ i) : Keeps (OnDisk i) (itrunc j) := by
  refine .bind (.forM fun k => ?_) fun _ => .bind (.get_bind fun s => ?_) fun _ =>
    .bind (setIp_onDisk _) fun _ => iupdate_onDisk hj
  · exact .get_bind fun s => .ite .pure (.bind bfree_onDisk fun _ => setIp_onDisk _)
  · refine .ite .pure (.bind (.forM fun l => .get_bind fun s => .ite .pure bfree_onDisk) fun _ =>
      .bind bfree_onDisk fun _ => setIp_onDisk _)

theorem iput_onDisk (hj : j ≠ i) : Keeps (OnDisk i) (iput j) := by
  refine .bind (.get_bind fun s => .ite ?_ .pure) fun _ => .update fun s => ⟨rfl, rfl⟩
  exact .bind (itrunc_onDisk hj) fun _ => .bind (setIp_onDisk _) fun _ =>
    .bind (iupdate_onDisk hj) fun _ => .update fun _ => ⟨rfl, rfl⟩

/-- An inode that is dropped stays, or is freed. -/
theorem iput_self (hrun : iput i s = .ok ((), t)) : OnDisk i s t ∨ (t.dinode i).type = 0 := by
  obtain ⟨⟨⟩, u, hlast, hdrop⟩ := run_bind.mp hrun
  obtain rfl := run_modify.mp hdrop
  rw [iputLast, run_get_bind] at hlast
  rcases run_ite.mp hlast with ⟨-, hlast⟩ | ⟨-, hlast⟩
  · obtain ⟨⟨⟩, v, -, hlast⟩ := run_bind.mp hlast
    obtain ⟨⟨⟩, w, hip, hlast⟩ := run_bind.mp hlast
    obtain ⟨⟨⟩, x, hupdate, hlast⟩ := run_bind.mp hlast
    obtain rfl := run_modify.mp hip
    obtain rfl := run_modify.mp hupdate
    obtain rfl := run_modify.mp hlast
    exact .inr (by simp)
  · obtain ⟨-, rfl⟩ := run_pure.mp hlast
    exact .inl ⟨rfl, rfl⟩

theorem ialloc_run {type inum : ℕ} (hrun : ialloc sb type s = .ok (inum, t)) :
    (s.dinode inum).type = 0 ∧ t.data = s.data ∧
      t.dinode = Function.update s.dinode inum { Dinode.zero with type := type } := by
  rw [ialloc, run_get_bind] at hrun
  cases hfind : (List.range' 1 (sb.ninodes - 1)).find? (fun inum => (s.dinode inum).type = 0) with
  | none =>
    rw [hfind] at hrun
    exact (run_throw.mp hrun).elim
  | some k =>
    rw [hfind] at hrun
    obtain ⟨⟨⟩, u, hset, hrun⟩ := run_bind.mp hrun
    obtain ⟨⟨⟩, v, hget, hrun⟩ := run_bind.mp hrun
    obtain ⟨rfl, rfl⟩ := run_pure.mp hrun
    obtain rfl := run_modify.mp hset
    obtain rfl := run_modify.mp hget
    exact ⟨by simpa using List.find?_some hfind, rfl, rfl⟩

theorem Directories.opened {name : List UInt8} {r : Option (ℕ × ℕ)} (hd : Directories sb s)
    (hs : Inv sb s) (hl : s.Locked i) (hlook : dirlookup sb i name s = .ok (r, t)) :
    OpenDir sb i s ∧ Named (s.contents sb i) := by
  rw [FsBlocks.dirlookup, run_get_bind] at hlook
  rcases run_ite.mp hlook with ⟨-, hlook⟩ | ⟨htype, -⟩
  · exact (run_throw.mp hlook).elim
  have hdir : (s.inode i).type = T_DIR := by
    rw [hl.inode]
    exact not_not.mp htype
  have hnamed := hd i (hs.core hl).lt hdir
  exact ⟨⟨hs, hl, hdir, length_contents sb s i ▸ hnamed.whole⟩, hnamed⟩

/-- A file that is rewritten: the others keep their blocks. -/
theorem Rewrote.directories {bs : List UInt8} (h : Rewrote sb j s bs t) (hs : Inv sb s)
    (ht : Inv sb t) (hd : Directories sb s) (hbs : (s.inode j).type = T_DIR → Named bs) :
    Directories sb t := by
  intro i hi htype
  by_cases hij : i = j
  · subst hij
    rw [h.contents]
    exact hbs (h.type ▸ htype)
  have hinode : t.inode i = s.inode i := by rw [ht.inode_eq, hs.inode_eq, h.dinode i hij]
  rw [hinode] at htype
  have hcov := hs.covered i hi (by rw [htype]; decide)
  have hcontents : t.contents sb i = s.contents sb i := by
    rw [St.contents, St.contents, hinode]
    refine List.map_congr_left fun x hx => ?_
    have hown := (hcov (x / BSIZE)
      (Nat.lt_of_le_of_lt (Nat.div_mul_le_self x BSIZE) (List.mem_range.mp hx))).2
    rw [St.byte, St.byte, h.own _ hown, h.others _ hij hown]
  rw [hcontents]
  exact hd i hi htype

theorem writei_directories {src : List UInt8} {off : ℕ} {r : Option ℕ} (hs : Inv sb s)
    (ht : Inv sb t) (hd : Directories sb s) (hl : s.Locked j) (hsrc : src.length < 2 ^ 32)
    (hdir : (s.inode j).type = T_DIR → off ≤ (s.inode j).size →
      Named (overwrite (s.contents sb j) off src))
    (hrun : writei sb j src off s = .ok (r, t)) : Directories sb t := by
  rcases writei_run hs hl hsrc hrun with ⟨rfl, -⟩ | ⟨hoff, -, hrewrote⟩
  · exact hd
  · exact hrewrote.directories hs ht hd fun htype => hdir htype hoff

/-- `dirlink` puts a name in that the directory does not have. -/
theorem dirlink_directories {name : List UInt8} {inum : ℕ} {r : Bool} (hs : Inv sb s)
    (hd : Directories sb s) (hl : s.Locked j) (hrun : dirlink sb j name inum s = .ok (r, t)) :
    Directories sb t := by
  have ht : Inv sb t := (dirlink_spec hs hl name inum).ok rfl hrun
  obtain ⟨p, u, hlook, hrest⟩ := run_bind.mp hrun
  clear hrun
  obtain ⟨hopen, hnamed⟩ := hd.opened hs hl hlook
  rcases hopen.dirlookup hlook with ⟨rfl, hu, hnone⟩ | ⟨k, f, rfl, -, -, hget⟩
  · rw [hu] at hrest
    simp only [run_get_bind] at hrest
    obtain ⟨off, v, hempty, hfound⟩ := run_bind.mp hrest
    clear hrest
    rw [← hl.inode] at hempty
    obtain ⟨hv, hoff⟩ := hopen.findEmpty (fun off hoff => hopen.off_lt hoff) hempty
    rw [hv] at hfound
    obtain ⟨k, hk, rfl⟩ : ∃ k, DIRENT * k ≤ (s.inode j).size ∧ off = DIRENT * k := by
      rcases hoff with rfl | hmem
      · refine ⟨_, ?_, rfl⟩
        rw [direntOffs, List.length_map, List.length_range]
        obtain ⟨m, hm⟩ := hopen.whole
        rw [hm]
        change 16 * ((16 * m + 16 - 1) / 16) ≤ 16 * m
        omega
      · obtain ⟨k, hk, rfl⟩ := mem_direntOffs.mp hmem
        exact ⟨k, Nat.le_of_lt hk, rfl⟩
    obtain ⟨q, w, hwrite, hdone⟩ := run_bind.mp hfound
    obtain rfl : t = w := by
      cases q with
      | none => exact (run_throw.mp hdone).elim
      | some n =>
        rcases run_ite.mp hdone with ⟨-, hdone⟩ | ⟨-, hdone⟩
        · exact (run_pure.mp hdone).2.symm
        · exact (run_throw.mp hdone).elim
    refine writei_directories hs ht hd hl (by rw [length_dirent]; decide) (fun _ _ => ?_) hwrite
    refine hnamed.overwrite (length_dirent inum name) (by rw [length_contents]; exact hk)
      fun nm l hentry hl => absurd ⟨hl.1, hl.2.1, ?_⟩ (hnone l)
    rw [← hl.2.2, hentry.2, dirName_dirent]
  · obtain ⟨⟨⟩, v, hput, hrest⟩ := run_bind.mp hrest
    obtain ⟨-, rfl⟩ := run_pure.mp hrest
    intro i hi htype
    have hgot : OnDisk i s u := iget_onDisk s () u hget
    refine OnDisk.named (trans_of (OnDisk i) hgot ?_) hs ht hd hi htype
    by_cases hf : f = i
    · subst hf
      rcases iput_self hput with hsame | hfreed
      · exact hsame
      · rw [ht.inode_eq, hfreed] at htype
        cases htype
    · exact iput_onDisk hf u () v hput

/-- One step. -/
theorem next_directories {e : Event} (hs : Inv sb s) (hd : Directories sb s) (he : e.Tidy s)
    (hstep : next sb s e = some t) : Directories sb t := by
  have ht : Inv sb t := hs.next hstep
  obtain ⟨hready, hrun⟩ := Option.ite_none_right_eq_some.mp hstep
  cases hr : e.run sb s with
  | error p => simp [hr] at hrun
  | ok r =>
    obtain ⟨⟨⟩, t'⟩ := r
    obtain rfl : t' = t := by simpa [hr] using hrun
    cases e with
    | iget j => exact fun i hi => OnDisk.named (iget_onDisk s () t' hr) hs ht hd hi
    | ilock j => exact fun i hi => OnDisk.named (ilock_onDisk s () t' hr) hs ht hd hi
    | ialloc type =>
      obtain ⟨inum, v, halloc, hr⟩ := run_bind.mp hr
      obtain ⟨-, rfl⟩ := run_pure.mp hr
      obtain ⟨-, hdata, hdinode⟩ := ialloc_run halloc
      intro i hi htype
      by_cases hnew : i = inum
      · subst hnew
        have hsize : (v.inode i).size = 0 := by
          rw [ht.inode_eq, hdinode, Function.update_self]
          rfl
        rw [St.contents, hsize]
        exact Named.nil
      · exact OnDisk.named ⟨hdata, by rw [hdinode, Function.update_of_ne hnew]⟩ hs ht hd hi htype
    | setMeta j major minor nlink =>
      obtain ⟨⟨⟩, u, hip, hr⟩ := run_bind.mp hr
      obtain rfl := run_modify.mp hip
      obtain rfl := run_modify.mp hr
      intro i hi htype
      by_cases hij : i = j
      · subst hij
        have hinode : s.inode i = (s.icache i).ip := St.Locked.inode hready
        rw [ht.inode_eq] at htype
        simp only [iupdate_dinode, setIp_icache] at htype
        rw [contents_congr (s := s)]
        · exact hd i hi (hinode ▸ htype)
        · rfl
        all_goals rw [ht.inode_eq, iupdate_dinode, setIp_icache, hinode]
      · exact OnDisk.named (s := s) ⟨rfl, iupdate_dinode_of_ne _ hij⟩ hs ht hd hi htype
    | writei j src off =>
      obtain ⟨n, v, hwrite, hr⟩ := run_bind.mp hr
      obtain ⟨-, rfl⟩ := run_pure.mp hr
      refine writei_directories hs ht hd hready he.1 (fun htype hoff => ?_) hwrite
      obtain ⟨rfl, hmod⟩ := he.2 htype
      obtain ⟨k, rfl⟩ := Nat.dvd_of_mod_eq_zero hmod
      exact (hd j (hs.core hready).lt htype).overwrite List.length_replicate
        (by rw [length_contents]; exact hoff) fun _ _ hentry => absurd hentry not_isEntry_zeros
    | dirlink j name inum =>
      obtain ⟨b, v, hlink, hr⟩ := run_bind.mp hr
      obtain ⟨-, rfl⟩ := run_pure.mp hr
      exact dirlink_directories hs hd hready hlink
    | iput j =>
      intro i hi htype
      by_cases hij : j = i
      · subst hij
        rcases iput_self hr with hsame | hfreed
        · exact hsame.named hs ht hd hi htype
        · rw [ht.inode_eq, hfreed] at htype
          cases htype
      · exact OnDisk.named (iput_onDisk hij s () t' hr) hs ht hd hi htype

/-- In every directory the names stay pairwise different and the slots whole, so the first entry
that `dirlookup` finds is the only one. -/
theorem names_distinct {s₀ s : St} {es : List Event} (h₀ : Consistent sb s₀)
    (hdirs : Directories sb s₀)
    (hrun : ((system sb).restrict fun s e _ => e.Tidy s).Run s₀ es s) :
    Directories sb s ∧ ∀ i name r t, s.Locked i → dirlookup sb i name s = .ok (r, t) →
      (r = none ∧ ∀ k, ¬ Names (s.contents sb i) name k) ∨
        ∃ k, r = some (direntInum (slot (s.contents sb i) k), DIRENT * k) ∧
          ∀ l, Names (s.contents sb i) name l ↔ l = k := by
  have hall : Inv sb s ∧ Directories sb s := by
    induction hrun with
    | nil => exact ⟨h₀.inv, hdirs⟩
    | snoc _ hstep ih => exact ⟨ih.1.next hstep.1, next_directories ih.1 ih.2 hstep.2 hstep.1⟩
  obtain ⟨hs, hd⟩ := hall
  refine ⟨hd, fun i name r t hl hlook => ?_⟩
  obtain ⟨hopen, hnamed⟩ := hd.opened hs hl hlook
  rcases hopen.dirlookup hlook with ⟨hr, -, hnone⟩ | ⟨k, inum, hr, hk, rfl, -⟩
  · exact .inl ⟨hr, hnone⟩
  · refine .inr ⟨k, hr, fun l => ⟨fun hl => hnamed.distinct name l k hl hk, ?_⟩⟩
    rintro rfl
    exact hk

end Directories

theorem mkfsImage_directories : Directories mkfsSb mkfsImage := by
  intro i _ htype
  have hi : i = 1 := by
    by_contra hne
    have hzero : mkfsImage.dinode i = Dinode.zero := if_neg hne
    rw [mkfsImage_consistent.inv.inode_eq, hzero] at htype
    cases htype
  subst hi
  have hlen : (mkfsImage.contents mkfsSb 1).length = DIRENT * 32 := by
    rw [length_contents, mkfsImage_consistent.inv.inode_eq]
    rfl
  refine ⟨⟨32, hlen⟩, fun name k l hk => absurd ?_ hk.2.1⟩
  have hzero : ∀ x, (slot (mkfsImage.contents mkfsSb 1) k).getD x 0 = 0 := by
    intro x
    rw [List.getD_eq_getElem?_getD, getElem?_slot, getElem?_contents]
    split_ifs <;> rfl
  rw [direntInum, hzero, hzero]
  rfl

instance (s : St) : (e : Event) → Decidable (e.Tidy s)
  | .iget _ | .ilock _ | .ialloc _ | .iput _ | .setMeta _ _ _ _ | .dirlink _ _ _ => instDecidableTrue
  | .writei j src off => @instDecidableAnd (src.length < 2 ^ 32) _ (Nat.decLt _ _)
    (@instDecidableForall ((s.inode j).type = T_DIR) _ (instDecidableEqNat _ _)
      (@instDecidableAnd (src = List.replicate DIRENT 0) (off % DIRENT = 0)
        (instDecidableEqList _ _) (instDecidableEqNat _ _)))

/-- A name is linked and unlinked, and another takes its slot. -/
def slotReused : List Event :=
  [.iget 1, .ilock 1, .dirlink 1 [97] 2, .writei 1 (List.replicate 16 0) 0, .dirlink 1 [98] 3]

theorem names_distinct_slotReused : ∃ s, (system mkfsSb).Run mkfsImage slotReused s ∧
    Directories mkfsSb s ∧ ∀ i name r t, s.Locked i → dirlookup mkfsSb i name s = .ok (r, t) →
      (r = none ∧ ∀ k, ¬ Names (s.contents mkfsSb i) name k) ∨
        ∃ k, r = some (direntInum (slot (s.contents mkfsSb i) k), DIRENT * k) ∧
          ∀ l, Names (s.contents mkfsSb i) name l ↔ l = k := by
  have h : (runNext (fun s e => if e.Tidy s then next mkfsSb s e else none) mkfsImage
      slotReused).isSome = true := by decide +kernel
  obtain ⟨s, hs⟩ := Option.isSome_iff_exists.mp h
  have hrun : ((system mkfsSb).restrict fun s e _ => e.Tidy s).Run mkfsImage slotReused s :=
    restrict_run_of_runNext hs
  exact ⟨s, hrun.of_restrict, names_distinct mkfsImage_consistent mkfsImage_directories hrun⟩

end Ostep.FsBlocks

import Ostep.FsCalls

/-!
# After any calls

Calls made one after the other by any processes, from a consistent image. As long as no inode is
freed that is still the `..` of a removed directory, no lookup meets a free inode; as long as
nothing is added to a removed directory, the link counts are the entries.
-/

namespace Ostep.FsTree
open OpTree TransitionSystem Counting

structure Consistent (ninodes : ℕ) (tab : Table) : Prop where
  tree : Tree .strict ninodes [] tab (fun _ => none)
  named : ∀ i, (tab i).type ≠ 0 → (tab i).nlink ≠ 0

/-- A consistent image with its first processes. -/
structure Booted (ninodes : ℕ) (s : St) : Prop where
  image : Consistent ninodes s.inode
  cwd : ∀ q i, s.cwd q = some i → i = ROOTINO
  ref : ∀ i, (s.icache i).ref = occ s.cwd i
  lock : ∀ i, s.lock i = none
  file : ∀ f, s.file f = ⟨0, none⟩
  ofile : ∀ q fd, s.ofile q fd = none

def calls (ninodes : ℕ) : System St (Proc × Call) :=
  sequential (act ninodes) Call.body (Booted ninodes)

section Images
variable {mode : Mode} {ninodes : ℕ} {tab : Table} {W : Proc → Option ℕ} {s : St} {i d : ℕ}

theorem Tree.links_pos (h : Tree mode ninodes [] tab W) (hi : Linked tab i) :
    0 < links ninodes tab [] i := by
  cases hi with
  | root =>
    rw [links, if_pos rfl]
    omega
  | child _ hd =>
    have := h.named_pos.mpr ⟨_, hd⟩
    rw [links]
    omega

theorem Counted.toInt {n : ℕ} {x : Short} (h : Counted .strict x n) : x.toInt = n := by
  obtain ⟨m, rfl, -, hlt, hm⟩ := h
  obtain ⟨rfl, hle⟩ := hm rfl
  rw [BitVec.toInt_eq_toNat_of_lt (by simp [BitVec.toNat_ofNat]; omega), BitVec.toNat_ofNat,
    Nat.mod_eq_of_lt hlt]

/-- A directory with links is the root or the entry of another. -/
theorem Tree.root_or_child (h : Tree .strict ninodes [] tab W) (hd : (tab d).type ≠ 0)
    (hn : (tab d).nlink ≠ 0) : d = ROOTINO ∨ ∃ e, d ∈ (tab e).sub := by
  cases h.linked_of_nlink hd hn (List.not_mem_nil) with
  | root => exact Or.inl rfl
  | child _ hde => exact Or.inr ⟨_, hde⟩

/-- What is counted exactly is counted; every `..` of a consistent image is a directory. -/
theorem Consistent.tree_mode (h : Consistent ninodes tab) (hW : ∀ q i, W q = some i → i = ROOTINO) :
    Tree mode ninodes [] tab W := by
  have hcwd : ∀ q i, W q = some i → (tab i).type = T_DIR := by
    intro q i hq
    rw [hW q i hq]
    exact h.tree.root.1
  cases mode with
  | strict => exact h.tree.setCwd fun q i hq => ⟨hcwd q i hq, nofun⟩
  | look =>
    refine ⟨h.tree.bound, h.tree.root, hcwd, h.tree.empty, h.tree.shaped, h.tree.alloc,
      h.tree.parent, h.tree.once, fun i hi => ?_, h.tree.pending, nofun, fun _ d _ hd => ?_⟩
    · obtain ⟨m, hm, hle, hlt, -⟩ := h.tree.counted i hi
      exact ⟨m, hm, hle, hlt, nofun⟩
    · have halloc : (tab d).type ≠ 0 := by
        rw [hd]
        decide
      rcases h.tree.root_or_child halloc (h.named d halloc) with rfl | ⟨e, he⟩
      · rw [h.tree.root.2]
        exact h.tree.root_ne_zero
      · rw [h.tree.parent e d he hd, h.tree.dir_of_mem he]
        decide

theorem Booted.rest (h : Booted ninodes s) : Rest mode ninodes s := by
  have hnone : ∀ i, occ (fun f => (s.file f).ip) i = 0 := by
    intro i
    simp [occ, h.file]
  have husers : ∀ i, users s.file s.cwd [] i = occ s.cwd i := by
    intro i
    simp only [users, hnone, List.count_nil, Nat.add_zero]
  refine ⟨⟨fun i => ?_, fun i hi _ => ?_, fun i hi => ?_, fun i hi hn => ?_⟩,
    h.image.tree_mode h.cwd, fun f _ => by rw [h.file]⟩
  · rw [husers, h.ref, List.count_nil, Nat.add_zero]
  · rw [h.ref] at hi
    obtain ⟨q, hq⟩ := occ_pos.mp hi
    rw [h.cwd q i hq]
    exact h.image.tree.root_ne_zero
  · rw [husers] at hi
    obtain ⟨q, hq⟩ := occ_pos.mp hi
    rw [h.cwd q i hq]
    exact h.image.tree.root_ne_zero
  · exact absurd hn (h.image.named i hi)

end Images

section Entries
variable {ninodes : ℕ} {tab : Table} {W : Proc → Option ℕ} {i d : ℕ}

theorem count_inums {es : List Dirent} (hi : i ≠ 0) :
    (inums es).count i = es.countP (fun e => e.inum = i) := by
  rw [inums, List.count_filter (by simpa using hi), List.count, List.countP_map]
  refine List.countP_congr fun e _ => ?_
  simp

/-- A directory that the root may lead to. -/
def Inode.Live (d : Inode) : Prop := d.type = T_DIR ∧ 0 < d.nlink.toInt

instance (d : Inode) : Decidable d.Live := inferInstanceAs (Decidable (_ ∧ _))

/-- The entries for `i` not named `.`, in directories with links. -/
def entries (ninodes : ℕ) (tab : Table) (i : ℕ) : ℕ :=
  ∑ d ∈ Finset.range ninodes,
    if (tab d).Live then (tab d).ents.countP (fun e => e.inum = i ∧ e.name ≠ dot) else 0

theorem Inode.Shaped.countP {x : Inode} (h : x.Shaped d) (hi : i ≠ 0) :
    x.ents.countP (fun e => e.inum = i ∧ e.name ≠ dot) =
      (if x.parent = i then 1 else 0) + x.sub.count i := by
  obtain ⟨p, rest, -, hents, hrest⟩ := h
  have hnames : rest.countP (fun e => e.inum = i ∧ e.name ≠ dot) =
      rest.countP (fun e => e.inum = i) := by
    refine List.countP_congr fun e he => ?_
    have hname : e.inum = i → e.name ≠ dot := fun hei => (hrest e he (hei ▸ hi)).1
    simpa using hname
  rw [parent_of_ents hents, sub_of_ents hents, count_inums hi, hents, List.countP_cons,
    List.countP_cons, hnames]
  simp
  omega

theorem Tree.live_iff (h : Tree .strict ninodes [] tab W) (hd : (tab d).type = T_DIR) :
    (tab d).Live ↔ Linked tab d := by
  have halloc : (tab d).type ≠ 0 := by
    rw [hd]
    decide
  have hcount := (h.counted d halloc).toInt
  refine ⟨fun hl => h.linked_of_nlink halloc (fun hn => ?_) (List.not_mem_nil), fun hl => ⟨hd, ?_⟩⟩
  · have hpos := hl.2
    rw [hn] at hpos
    exact absurd hpos (by decide)
  · have := h.links_pos hl
    omega

/-- Each directory in `i` has its `..` there, and the root its own. -/
theorem Tree.sum_parent (h : Tree .strict ninodes [] tab W) :
    (∑ d ∈ Finset.range ninodes, if (tab d).Live ∧ (tab d).parent = i then 1 else 0) =
      subdirs tab i + (if i = ROOTINO then 1 else 0) := by
  have hsubdirs : subdirs tab i = ∑ d ∈ Finset.range ninodes,
      if (tab d).type = T_DIR then (tab i).sub.count d else 0 :=
    countP_eq_sum fun d hd _ => Finset.mem_range.mpr (h.bound d (h.alloc i d hd).1).2
  have hone := sum_ite_eq (S := Finset.range ninodes) (P := fun _ => i = ROOTINO) (x := ROOTINO)
    fun _ => Finset.mem_range.mpr (h.bound ROOTINO h.root_ne_zero).2
  rw [hsubdirs, ← hone, ← Finset.sum_add_distrib]
  refine Finset.sum_congr rfl fun d _ => ?_
  by_cases hdir : (tab d).type = T_DIR
  · have hlive := h.live_iff hdir
    rw [if_pos hdir]
    rcases eq_or_ne d ROOTINO with rfl | hd
    · rw [h.root.2, List.count_eq_zero_of_not_mem fun hmem => (h.alloc i _ hmem).2 rfl]
      simp [hlive.mpr .root, eq_comm]
    · have hother : ¬ (i = ROOTINO ∧ ROOTINO = d) := fun hh => hd hh.2.symm
      rw [if_neg hother]
      by_cases hmem : d ∈ (tab i).sub
      · have hcount : (tab i).sub.count d = 1 :=
          le_antisymm (h.once i d hdir) (List.count_pos_iff.mpr hmem)
        have hl : Linked tab d := .child (h.linked rfl i (List.ne_nil_of_mem hmem)) hmem
        rw [hcount, if_pos ⟨hlive.mpr hl, h.parent i d hmem hdir⟩]
      · rw [List.count_eq_zero_of_not_mem hmem, if_neg]
        rintro ⟨hl, hp⟩
        cases hlive.mp hl with
        | root => exact hd rfl
        | @child e _ _ he =>
          obtain rfl : e = i := (h.parent e d he hdir).symm.trans hp
          exact hmem he
  · have hlive : ¬ (tab d).Live := fun hl => hdir hl.1
    have hd : d ≠ ROOTINO := fun e => hdir (e ▸ h.root.1)
    rw [if_neg hdir, if_neg fun hh => hlive hh.1, if_neg fun hh => hd hh.2.symm]

theorem Tree.entries_eq (h : Tree .strict ninodes [] tab W) (hi : i ≠ 0) :
    entries ninodes tab i = links ninodes tab [] i := by
  have hterm : ∀ d ∈ Finset.range ninodes,
      (if (tab d).Live then (tab d).ents.countP (fun e => e.inum = i ∧ e.name ≠ dot) else 0) =
        (if (tab d).Live ∧ (tab d).parent = i then 1 else 0) + (tab d).sub.count i := by
    intro d _
    by_cases hlive : (tab d).Live
    · rw [if_pos hlive, (h.shaped d hlive.1).countP hi]
      simp [hlive]
    · have hnil : (tab d).sub = [] := by
        by_contra hne
        have hl := h.linked rfl d hne
        obtain ⟨j, hj⟩ := List.exists_mem_of_ne_nil _ hne
        exact hlive ((h.live_iff (h.dir_of_mem hj)).mpr hl)
      simp [hlive, hnil]
  rw [entries, Finset.sum_congr rfl hterm, Finset.sum_add_distrib, h.sum_parent, links, named]
  simp
  omega

end Entries

/-- No entry of a directory in reach of lookups is for a free inode. -/
def NoDangling (s : St) : Prop :=
  ∀ d, Lookup s.inode s.cwd d → (s.inode d).type = T_DIR →
    ∀ e ∈ (s.inode d).ents, e.inum ≠ 0 → (s.inode e.inum).type ≠ 0

/-- `nlink` is the number of entries, what has links is linked, and what has none is in use. -/
structure LinksCounted (ninodes : ℕ) (s : St) : Prop where
  nlink : ∀ i, (s.inode i).type ≠ 0 → (s.inode i).nlink.toInt = entries ninodes s.inode i
  linked : ∀ i, (s.inode i).type ≠ 0 → 0 < (s.inode i).nlink.toInt → Linked s.inode i
  used : ∀ i, (s.inode i).type ≠ 0 → (s.inode i).nlink = 0 → 0 < (s.icache i).ref

section Runs
variable {ninodes : ℕ} {s : St}

theorem calls_rest (mode : Mode) (h : ((calls ninodes).restrict
      (fun s e _ => CallMeets (act ninodes) Call.body (Cond mode) s e)).Reachable s) :
    Rest mode ninodes s :=
  sequential_invariant (fun _ hs => hs.rest)
    (fun _ c _ hs => wp_body c hs fun _ _ ht => ht) h

theorem Inv.noDangling (h : Rest .look ninodes s) : NoDangling s := by
  intro d hd hdir e he hne
  obtain ⟨p, rest, hp, hents, -⟩ := h.tree.shaped d hdir
  have hparent := parent_of_ents hents
  rw [hents, List.mem_cons, List.mem_cons] at he
  rcases he with rfl | rfl | he
  · exact h.tree.lookup_alloc hd
  · have hl := Lookup.parent hd hdir
    rw [hparent] at hl
    exact h.tree.lookup_alloc hl
  · refine (h.tree.alloc d e.inum ?_).1
    rw [sub_of_ents hents]
    exact mem_inums.mpr ⟨hne, e, he, rfl⟩

theorem Inv.linksCounted (h : Rest .strict ninodes s) : LinksCounted ninodes s where
  nlink i hi := by
    rw [(h.tree.counted i hi).toInt, h.tree.entries_eq (h.tree.bound i hi).1]
  linked i hi hpos := by
    refine h.tree.linked_of_nlink hi (fun hn => ?_) (List.not_mem_nil)
    rw [hn] at hpos
    exact absurd hpos (by decide)
  used i hi hn := by
    have hz := (h.refs.zombie i hi hn).2
    rw [h.refs.ref]
    omega

end Runs

theorem started_booted : Booted 200 (started 1) := by
  have hroot : (started 1).inode ROOTINO =
      ⟨T_DIR, 0, 0, 1, [⟨ROOTINO, dot⟩, ⟨ROOTINO, dotdot⟩]⟩ := rfl
  have hother : ∀ i, i ≠ ROOTINO → (started 1).inode i = Inode.zero := fun i hi => if_neg hi
  have halloc : ∀ i, ((started 1).inode i).type ≠ 0 → i = ROOTINO := by
    intro i hi
    by_contra hne
    rw [hother i hne] at hi
    exact hi rfl
  have hsub : ∀ d, ((started 1).inode d).sub = [] := by
    intro d
    rcases eq_or_ne d ROOTINO with rfl | hd
    · rw [hroot]
      rfl
    · rw [hother d hd]
      rfl
  have hdir : ∀ d, ((started 1).inode d).type = T_DIR → d = ROOTINO := by
    intro d hd
    exact halloc d (by rw [hd]; decide)
  have hnone : ∀ d i, i ∉ ((started 1).inode d).sub := by
    intro d i hi
    rw [hsub] at hi
    cases hi
  refine ⟨⟨⟨fun i hi => ?_, ⟨rfl, rfl⟩, nofun, fun i hi => ?_, fun d hd => ?_,
    fun d i hi => (hnone d i hi).elim, fun d i hi => (hnone d i hi).elim, fun d i _ => ?_,
    fun i hi => ?_, nofun, fun _ d hd => (hd (hsub d)).elim, nofun⟩, fun i hi => ?_⟩,
    fun q i hq => ?_, fun i => ?_, fun _ => rfl, fun _ => rfl, fun _ _ => rfl⟩
  · rw [halloc i hi]
    decide
  · rw [hother i fun e => hi (e ▸ rfl)]
    rfl
  · obtain rfl := hdir d hd
    exact ⟨ROOTINO, [], by decide, congrArg Inode.ents hroot, nofun⟩
  · rw [hsub]
    exact Nat.zero_le 1
  · obtain rfl := halloc i hi
    refine ⟨1, by rw [hroot]; rfl, ?_, by decide, fun _ => ⟨?_, by decide⟩⟩
    · simp [links, named, subdirs, hsub]
    · simp [links, named, subdirs, hsub]
  · rw [halloc i hi, hroot]
    decide
  · exact (Option.some.inj (Option.ite_none_right_eq_some.mp hq).2).symm
  · rcases eq_or_ne i ROOTINO with rfl | hi
    · decide +kernel
    · have hzero : ¬ 0 < occ (started 1).cwd i := by
        intro hpos
        obtain ⟨q, hq⟩ := occ_pos.mp hpos
        exact hi (Option.some.inj (Option.ite_none_right_eq_some.mp hq).2).symm
      rw [Nat.eq_zero_of_not_pos hzero]
      simp [started, hi]

theorem calls_reach (C : Op → St → Prop) [∀ o s, Decidable (C o s)] (es : List (Proc × Call))
    (p : St → Prop) [DecidablePred p]
    (h : (runNext (fun s e => if CallMeets (act 200) Call.body C s e then
      finish (act 200) Call.body s e else none) (started 1) es).any p = true) :
    ∃ s, ((calls 200).restrict (fun s e _ => CallMeets (act 200) Call.body C s e)).Reachable s ∧
      p s :=
  reachable_of_runNext started_booted h

/-- An operation that frees nothing and meets both conditions. -/
def Op.plain : Op → St → Bool
  | .incLink i, s => 0 < (s.inode i).nlink.toInt ∧ (s.inode i).nlink.toInt < 32767
  | .writei d _ _, s => (s.inode d).nlink ≠ 0
  | .ifree _, _ => false
  | _, _ => true

theorem cond_of_plain {mode : Mode} {o : Op} {s : St} (h : o.plain s = true) : Cond mode o s := by
  cases mode <;> cases o <;> simp_all [Cond, FreesNoParent, AddsToLinked, Op.plain]
  case look.incLink =>
    rintro heq
    rw [heq] at h
    exact absurd h.1 (by decide)
  case strict.incLink =>
    rintro - heq
    rw [heq] at h
    exact absurd h.1 (by decide)

/-- A file is made in a new directory that a process is in. -/
def makeInside : List (Proc × Call) :=
  [(0, .path (.mkdir ['a'])), (0, .path (.chdir ['a'])), (0, .path (.open ['f'] O_CREATE))]

theorem makeInside_reach (mode : Mode) (p : St → Prop) [DecidablePred p]
    (h : (runNext (fun s e => if CallMeets (act 200) Call.body (fun o s => o.plain s = true) s e then
      finish (act 200) Call.body s e else none) (started 1) makeInside).any p = true) :
    ∃ s, ((calls 200).restrict
      (fun s e _ => CallMeets (act 200) Call.body (Cond mode) s e)).Reachable s ∧ p s := by
  obtain ⟨s, hs, hp⟩ := calls_reach (fun o s => o.plain s = true) makeInside p h
  exact ⟨s, hs.restrict_mono fun _ _ _ hC => hC.mono fun _ _ ho => cond_of_plain ho, hp⟩

theorem no_dangling_entry {ninodes : ℕ} {s : St} (h : ((calls ninodes).restrict
      (fun s e _ => CallMeets (act ninodes) Call.body FreesNoParent s e)).Reachable s) :
    NoDangling s ∧ ∀ (q : Proc) (c : Call), Meets (act ninodes q) FreesNoParent c.body s →
      run (act ninodes q) c.body s ≠ .error (.panic .noType) := by
  have hrest := calls_rest .look h
  refine ⟨hrest.noDangling, fun q c hC hr => ?_⟩
  exact wp_run_error (wp_body (Q := fun _ _ => True) c hrest fun _ _ _ => trivial) hC hr rfl rfl

/-- A process is in `a`, where it has made `f`. -/
theorem no_dangling_entry_inside : ∃ s : St, s.cwd 0 = some 2 ∧ (s.inode 3).type = T_FILE ∧
    NoDangling s := by
  obtain ⟨s, hs, hcwd, hf⟩ := makeInside_reach .look
    (fun s => s.cwd 0 = some 2 ∧ (s.inode 3).type = T_FILE) (by decide +kernel)
  exact ⟨s, hcwd, hf, (no_dangling_entry hs).1⟩

/-- A directory `b` in `a` is removed, and `a` with it, while a process is in `b`. -/
def removeParent : List (Proc × Call) :=
  [(0, .path (.mkdir ['a'])), (0, .path (.mkdir ['a', '/', 'b'])),
    (0, .path (.chdir ['a', '/', 'b'])), (0, .path (.unlink ['/', 'a', '/', 'b'])),
    (0, .path (.unlink ['/', 'a']))]

theorem removed_parent_dangles : ∃ s, (calls 200).Reachable s ∧ ¬ NoDangling s ∧
    run (act 200 0) (PathCall.chdir ['.', '.', '/', 'x']).body s = .error (.panic .noType) := by
  obtain ⟨s, hs, hcwd, hdir, hent, hfree, hpanic⟩ := calls_reach (fun _ _ => True) removeParent
    (fun s => s.cwd 0 = some 3 ∧ (s.inode 3).type = T_DIR ∧ ⟨2, dotdot⟩ ∈ (s.inode 3).ents ∧
      (s.inode 2).type = 0 ∧
      fault (run (act 200 0) (PathCall.chdir ['.', '.', '/', 'x']).body s) =
        some (.panic .noType)) (by decide +kernel)
  refine ⟨s, hs.of_restrict, fun h => ?_, fault_eq_some.mp hpanic⟩
  exact h 3 (.cwd hcwd) hdir _ hent (by decide) hfree

theorem link_counts {ninodes : ℕ} {s : St} (h : ((calls ninodes).restrict
      (fun s e _ => CallMeets (act ninodes) Call.body AddsToLinked s e)).Reachable s) :
    LinksCounted ninodes s :=
  (calls_rest .strict h).linksCounted

theorem link_counts_inside : ∃ s : St, (s.inode 2).nlink = 1 ∧ (s.inode 3).nlink = 1 ∧
    LinksCounted 200 s := by
  obtain ⟨s, hs, ha, hf⟩ := makeInside_reach .strict
    (fun s => (s.inode 2).nlink = 1 ∧ (s.inode 3).nlink = 1) (by decide +kernel)
  exact ⟨s, ha, hf, link_counts hs⟩

/-- A process makes a file in its directory, which has been removed. -/
def makeInRemoved : List (Proc × Call) :=
  [(0, .path (.mkdir ['a'])), (0, .path (.chdir ['a'])), (0, .path (.unlink ['/', 'a'])),
    (0, .path (.open ['f'] O_CREATE))]

theorem removed_directory_leaks : ∃ s, (calls 200).Reachable s ∧ ¬ LinksCounted 200 s := by
  obtain ⟨s, hs, htype, hnlink, hzero⟩ := calls_reach (fun _ _ => True) makeInRemoved
    (fun s => (s.inode 3).type = T_FILE ∧ (s.inode 3).nlink = 1 ∧ entries 200 s.inode 3 = 0)
    (by decide +kernel)
  refine ⟨s, hs.of_restrict, fun h => ?_⟩
  have hone := h.nlink 3 (by rw [htype]; decide)
  rw [hnlink, hzero] at hone
  exact absurd hone (by decide)

end Ostep.FsTree

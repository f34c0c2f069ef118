import Ostep.FsTree
import Mathlib.Logic.Relation

/-!
# The order of the inode locks

Processes run the path calls, interleaved operation by operation. While a process holds an
inode's sleep lock it knows the inode's contents; an inode that was seen to be no directory
stays none, as no inode is allocated. The locks a process holds are a stack in the outline of
every call, and whatever it acquires on top is named by an entry of what it holds.
-/

namespace Ostep.FsTree
open TransitionSystem OpTree

/-- An entry of the directory, other than `.` and `..`, is for inode `i`. -/
def Inode.Names (d : Inode) (i : ℕ) : Prop :=
  d.type = T_DIR ∧ ∃ e ∈ d.ents, e.inum = i ∧ i ≠ 0 ∧ e.name ≠ dot ∧ e.name ≠ dotdot

def Child (s : St) (d i : ℕ) : Prop := (s.inode d).Names i

/-- A freshly allocated inode that no directory names yet. -/
def Fresh (s : St) (i : ℕ) : Prop :=
  (s.inode i).type ≠ 0 ∧ ∀ d, (s.inode d).type = T_DIR → ∀ e ∈ (s.inode d).ents, e.inum ≠ i

abbrev Procs := Config Op Op.Res Proc St

def WaitsFor (c : Procs) (p q : Proc) : Prop :=
  ∃ i, (c.prog p).next = some (.acquiresleep i) ∧ c.st.lock i = some q

structure LockOrder (c : Procs) : Prop where
  notHeld : ∀ p i, (c.prog p).next = some (.acquiresleep i) → c.st.lock i ≠ some p
  downward : ∀ p i d, (c.prog p).next = some (.acquiresleep i) → c.st.lock d = some p →
    Child c.st d i ∨ Fresh c.st i
  noDeadlock : ∀ p, ¬ Relation.TransGen (WaitsFor c) p p

/-- A file-system state between calls: no lock is held, a closed file has no inode, and no
directory is below itself. -/
structure LocksFree (s : St) : Prop where
  lock : ∀ i, s.lock i = none
  closed : ∀ f, (s.file f).ref = 0 → (s.file f).ip = none
  acyclic : ∀ i, ¬ Relation.TransGen (Child s) i i

def PathCall.prog (c : PathCall) : Fs Unit := do
  let _ ← c.body
  pure ()

def pathCalls (ninodes : ℕ) : System Procs (Event Proc PathCall) :=
  threads (act ninodes) PathCall.prog LocksFree

/-- `create` allocates no inode, `unlink` erases no entry, and the name that `dirlink` finds in
its directory is neither `.` nor `..`. -/
def KeepsOrder : Op → St → Prop
  | .ialloc _, _ => False
  | .writei _ _ e, _ => e.inum ≠ 0
  | .found name, _ => name ≠ dot ∧ name ≠ dotdot
  | _, _ => True

instance (o : Op) (s : St) : Decidable (KeepsOrder o s) := by
  cases o <;> (unfold KeepsOrder; infer_instance)

/-- What a process knows: the inodes it has locked, the last one first, inodes that are no
directories, and files it has allocated and not yet set up. -/
structure Local where
  held : List (ℕ × Inode)
  nodir : List ℕ
  files : List FileSlot

def Local.Idle (l : Local) : Prop := l.held = [] ∧ l.files = []

structure LockInv (L : Proc → Local) (s : St) : Prop where
  lock : ∀ q i, s.lock i = some q ↔ i ∈ (L q).held.map Prod.fst
  nodup : ∀ q, ((L q).held.map Prod.fst).Nodup
  inode : ∀ q d, d ∈ (L q).held → s.inode d.1 = d.2
  nodir : ∀ q i, i ∈ (L q).nodir → (s.inode i).type ≠ T_DIR
  file : ∀ q f, f ∈ (L q).files → s.file f = ⟨1, none⟩
  owner : ∀ q r f, f ∈ (L q).files → f ∈ (L r).files → q = r
  closed : ∀ f, (s.file f).ref = 0 → (s.file f).ip = none
  acyclic : ∀ i, ¬ Relation.TransGen (Child s) i i

/-- The lock a process asks for is below every lock it holds. -/
def Below (_ : Proc) (o : Op) (l : Local) (s : St) : Prop :=
  ∀ i, o = .acquiresleep i → ∀ d ∈ l.held, d.1 ≠ i ∧ Child s d.1 i

theorem lockInv_of_locksFree {s : St} (h : LocksFree s) : LockInv (fun _ => ⟨[], [], []⟩) s where
  lock q i := by simp [h.lock i]
  nodup q := List.nodup_nil
  inode q d hd := by simp at hd
  nodir q i hi := by simp at hi
  file q f hf := by simp at hf
  owner q r f hf := by simp at hf
  closed := h.closed
  acyclic := h.acyclic

section Steps
variable {L : Proc → Local} {s t : St} {q : Proc}

theorem LockInv.congr (h : LockInv L s) (hl : t.lock = s.lock) (hi : t.inode = s.inode)
    (hf : t.file = s.file) : LockInv L t := by
  obtain ⟨_, _, _, _, _, _⟩ := s
  obtain ⟨_, _, _, _, _, _⟩ := t
  simp only at hl hi hf
  subst hl hi hf
  exact ⟨h.lock, h.nodup, h.inode, h.nodir, h.file, h.owner, h.closed, h.acyclic⟩

/-- A step of `q` on the inodes and their locks: it may change only inodes that it has locked. -/
theorem LockInv.update_held (h : LockInv L s) {held : List (ℕ × Inode)} {nodir : List ℕ}
    (hf : t.file = s.file) (hlock : ∀ i, t.lock i = some q ↔ i ∈ held.map Prod.fst)
    (hlock' : ∀ r i, r ≠ q → (t.lock i = some r ↔ s.lock i = some r))
    (hnodup : (held.map Prod.fst).Nodup) (hinode : ∀ d ∈ held, t.inode d.1 = d.2)
    (hinode' : ∀ i, s.lock i ≠ some q → t.inode i = s.inode i)
    (hnodir : ∀ i ∈ nodir, (t.inode i).type ≠ T_DIR)
    (hnodir' : ∀ i, (s.inode i).type ≠ T_DIR → (t.inode i).type ≠ T_DIR)
    (hacyclic : ∀ i, ¬ Relation.TransGen (Child t) i i) :
    LockInv (Function.update L q ⟨held, nodir, (L q).files⟩) t := by
  have hfiles : ∀ r, (Function.update L q ⟨held, nodir, (L q).files⟩ r).files = (L r).files := by
    intro r
    rcases eq_or_ne r q with rfl | hr
    · rw [Function.update_self]
    · rw [Function.update_of_ne hr]
  refine ⟨fun r i => ?_, fun r => ?_, fun r d hd => ?_, fun r i hi => ?_, fun r f hfr => ?_,
    fun r r' f hfr hfr' => ?_, hf ▸ h.closed, hacyclic⟩
  · rcases eq_or_ne r q with rfl | hr
    · rw [Function.update_self, hlock]
    · rw [Function.update_of_ne hr, hlock' r i hr, h.lock]
  · rcases eq_or_ne r q with rfl | hr
    · rwa [Function.update_self]
    · rw [Function.update_of_ne hr]
      exact h.nodup r
  · rcases eq_or_ne r q with rfl | hr
    · rw [Function.update_self] at hd
      exact hinode d hd
    · rw [Function.update_of_ne hr] at hd
      have hlr := (h.lock r d.1).mpr (List.mem_map_of_mem hd)
      rw [hinode' d.1 (by rw [hlr]; simpa using hr)]
      exact h.inode r d hd
  · rcases eq_or_ne r q with rfl | hr
    · rw [Function.update_self] at hi
      exact hnodir i hi
    · rw [Function.update_of_ne hr] at hi
      exact hnodir' i (h.nodir r i hi)
  · rw [hfiles] at hfr
    rw [hf]
    exact h.file r f hfr
  · rw [hfiles] at hfr hfr'
    exact h.owner r r' f hfr hfr'

/-- A step of `q` on the file table: it leaves alone the files that others are setting up. -/
theorem LockInv.update_files (h : LockInv L s) {files : List FileSlot} (hl : t.lock = s.lock)
    (hi : t.inode = s.inode) (hfile : ∀ f ∈ files, t.file f = ⟨1, none⟩)
    (hfile' : ∀ r f, r ≠ q → f ∈ (L r).files → t.file f = s.file f ∧ f ∉ files)
    (hclosed : ∀ f, (t.file f).ref = 0 → (t.file f).ip = none) :
    LockInv (Function.update L q ⟨(L q).held, (L q).nodir, files⟩) t := by
  have hheld : ∀ r, (Function.update L q ⟨(L q).held, (L q).nodir, files⟩ r).held = (L r).held := by
    intro r
    rcases eq_or_ne r q with rfl | hr
    · rw [Function.update_self]
    · rw [Function.update_of_ne hr]
  have hnodir : ∀ r,
      (Function.update L q ⟨(L q).held, (L q).nodir, files⟩ r).nodir = (L r).nodir := by
    intro r
    rcases eq_or_ne r q with rfl | hr
    · rw [Function.update_self]
    · rw [Function.update_of_ne hr]
  have hC : Child t = Child s := by
    unfold Child
    rw [hi]
  refine ⟨fun r i => ?_, fun r => ?_, fun r d hd => ?_, fun r i hir => ?_, fun r f hfr => ?_,
    fun r r' f hfr hfr' => ?_, hclosed, ?_⟩
  · rw [hheld, hl]
    exact h.lock r i
  · rw [hheld]
    exact h.nodup r
  · rw [hheld] at hd
    rw [hi]
    exact h.inode r d hd
  · rw [hnodir] at hir
    rw [hi]
    exact h.nodir r i hir
  · rcases eq_or_ne r q with rfl | hr
    · rw [Function.update_self] at hfr
      exact hfile f hfr
    · rw [Function.update_of_ne hr] at hfr
      rw [(hfile' r f hr hfr).1]
      exact h.file r f hfr
  · rcases eq_or_ne r q with rfl | hr <;> rcases eq_or_ne r' r with rfl | hr'
    · rfl
    · rw [Function.update_self] at hfr
      rw [Function.update_of_ne hr'] at hfr'
      exact absurd hfr (hfile' r' f hr' hfr').2
    · rfl
    · rw [Function.update_of_ne hr] at hfr
      rcases eq_or_ne r' q with rfl | hq
      · rw [Function.update_self] at hfr'
        exact absurd hfr' (hfile' r f hr hfr).2
      · rw [Function.update_of_ne hq] at hfr'
        exact h.owner r r' f hfr hfr'
  · rw [hC]
    exact h.acyclic

theorem LockInv.acquire (h : LockInv L s) {i : ℕ} (hfree : s.lock i = none) :
    LockInv (Function.update L q ⟨(i, s.inode i) :: (L q).held, (L q).nodir, (L q).files⟩)
      (s.setLock i (some q)) := by
  have hnot : i ∉ (L q).held.map Prod.fst := by
    rw [← h.lock, hfree]
    nofun
  refine h.update_held rfl (fun j => ?_) (fun r j hr => ?_) (List.nodup_cons.mpr ⟨hnot, h.nodup q⟩)
    (fun d hd => ?_) (fun _ _ => rfl) (h.nodir q) (fun _ => id) h.acyclic
  · rcases eq_or_ne j i with rfl | hj
    · simp [St.setLock]
    · simp only [St.setLock, Function.update_of_ne hj, List.map_cons, List.mem_cons, hj, false_or]
      exact h.lock q j
  · rcases eq_or_ne j i with rfl | hj
    · simp only [St.setLock, Function.update_self, hfree, Option.some.injEq, reduceCtorEq, iff_false]
      exact fun e => hr e.symm
    · simp only [St.setLock, Function.update_of_ne hj]
  · rcases List.mem_cons.mp hd with rfl | hd
    · rfl
    · exact h.inode q d hd

theorem LockInv.release (h : LockInv L s) {d : ℕ × Inode} {held : List (ℕ × Inode)}
    (hq : (L q).held = d :: held) :
    LockInv (Function.update L q ⟨held, (L q).nodir, (L q).files⟩) (s.setLock d.1 none) := by
  have hnodup := h.nodup q
  rw [hq, List.map_cons, List.nodup_cons] at hnodup
  have hlock := h.lock q
  simp only [hq, List.map_cons, List.mem_cons] at hlock
  refine h.update_held rfl (fun j => ?_) (fun r j hr => ?_) hnodup.2 (fun d' hd' => ?_)
    (fun _ _ => rfl) (h.nodir q) (fun _ => id) h.acyclic
  · rcases eq_or_ne j d.1 with rfl | hj
    · simp only [St.setLock, Function.update_self, reduceCtorEq, false_iff]
      exact hnodup.1
    · simpa only [St.setLock, Function.update_of_ne hj, hj, false_or] using hlock j
  · rcases eq_or_ne j d.1 with rfl | hj
    · simp only [St.setLock, Function.update_self, reduceCtorEq, false_iff]
      rw [(hlock d.1).mpr (Or.inl rfl)]
      simpa using fun e => hr e.symm
    · simp only [St.setLock, Function.update_of_ne hj]
  · exact h.inode q d' (hq ▸ List.mem_cons_of_mem d hd')

/-- New entries for inodes that are no directories close no cycle. -/
theorem acyclic_of_children (h : ∀ i, ¬ Relation.TransGen (Child s) i i)
    (hC : ∀ d i, Child t d i → Child s d i ∨ (t.inode i).type ≠ T_DIR) (i : ℕ) :
    ¬ Relation.TransGen (Child t) i i := by
  have hpath : ∀ x y, Relation.TransGen (Child t) x y → (t.inode y).type = T_DIR →
      Relation.TransGen (Child s) x y := by
    intro x y hxy
    induction hxy with
    | single hxy =>
      intro hy
      exact .single ((hC _ _ hxy).resolve_right (not_not_intro hy))
    | tail _ hyz ih =>
      intro hz
      exact (ih hyz.1).tail ((hC _ _ hyz).resolve_right (not_not_intro hz))
  intro hcycle
  obtain ⟨j, hij, _⟩ := (Relation.TransGen.head'_iff).mp hcycle
  exact h i (hpath i i hcycle hij.1)

theorem LockInv.setInode (h : LockInv L s) {i : ℕ} {d : Inode} {held : List (ℕ × Inode)}
    {nodir : List ℕ} {f : Inode → Inode} (hq : (L q).held = (i, d) :: held)
    (hnodir : ∀ j ∈ nodir, j ∈ (L q).nodir ∨ (j = i ∧ d.type ≠ T_DIR))
    (htype : (f d).type = T_DIR → d.type = T_DIR)
    (hnames : ∀ j, (f d).Names j → d.Names j ∨ j ∈ (L q).nodir) :
    LockInv (Function.update L q ⟨(i, f d) :: held, nodir, (L q).files⟩) (s.setInode i f) := by
  have hd : s.inode i = d := h.inode q (i, d) (by simp [hq])
  have hnodup := h.nodup q
  rw [hq] at hnodup
  have hlock := h.lock q
  rw [hq] at hlock
  have hkeep : ∀ j, (s.inode j).type ≠ T_DIR → ((s.setInode i f).inode j).type ≠ T_DIR := by
    intro j hj
    rcases eq_or_ne j i with rfl | hji
    · simp only [St.setInode, Function.update_self]
      rw [hd] at hj ⊢
      exact fun hf => hj (htype hf)
    · simpa only [St.setInode, Function.update_of_ne hji] using hj
  refine h.update_held rfl hlock (fun _ _ _ => Iff.rfl) hnodup (fun d' hd' => ?_)
    (fun j hj => ?_) (fun j hj => ?_) hkeep (acyclic_of_children h.acyclic fun x y hxy => ?_)
  · rcases List.mem_cons.mp hd' with rfl | hmem
    · simp [St.setInode, hd]
    · have hkey : d'.1 ∈ held.map Prod.fst := List.mem_map_of_mem hmem
      have hne : d'.1 ≠ i := fun e => (List.nodup_cons.mp hnodup).1 (e ▸ hkey)
      simp only [St.setInode, Function.update_of_ne hne]
      exact h.inode q d' (hq ▸ List.mem_cons_of_mem _ hmem)
  · have hne : j ≠ i := by
      rintro rfl
      exact hj ((hlock j).mpr (List.mem_cons_self ..))
    simp only [St.setInode, Function.update_of_ne hne]
  · refine hkeep j ?_
    rcases hnodir j hj with hj | ⟨rfl, hdir⟩
    · exact h.nodir q j hj
    · rwa [hd]
  · rcases eq_or_ne x i with rfl | hx
    · simp only [Child, St.setInode, Function.update_self, hd] at hxy
      rcases hnames y hxy with hy | hy
      · refine Or.inl ?_
        rw [Child, hd]
        exact hy
      · exact Or.inr (hkeep y (h.nodir q y hy))
    · simp only [Child, St.setInode, Function.update_of_ne hx] at hxy
      exact Or.inl hxy

end Steps

section Outlines
variable (ninodes : ℕ) {α β : Type} {q : Proc} {l : Local}

abbrev Keeps (q : Proc) (p : Fs α) (Q : α → Local → Prop) (l : Local) : Prop :=
  Outline (act ninodes) KeepsOrder LockInv Below q p Q l

/-- The operations that leave inodes, their locks and the file table alone. -/
def Op.Quiet : Op → Prop
  | .acquiresleep _ | .releasesleep _ | .ifree _ | .ialloc _ | .setMeta _ _ _ | .incLink _
  | .decLink _ | .writei _ _ _ | .filealloc | .setFile _ _ | .fileclose _ | .fork _ => False
  | _ => True

theorem act_quiet {o : Op} (ho : o.Quiet) {s t : St} {r : o.Res}
    (h : act ninodes q o s = .ok (r, t)) :
    t.lock = s.lock ∧ t.inode = s.inode ∧ t.file = s.file := by
  cases o <;> simp only [Op.Quiet] at ho <;> simp only [act] at h <;> (try split at h) <;>
    (try split at h) <;> simp only [Except.ok.injEq, Prod.mk.injEq, reduceCtorEq] at h <;>
    obtain ⟨-, rfl⟩ := h <;> exact ⟨rfl, rfl, rfl⟩

variable {ninodes}

theorem keeps_quiet {o : Op} {Q : o.Res → Local → Prop} (ho : o.Quiet) (hQ : ∀ r, Q r l) :
    Keeps ninodes q (perform o) Q l := by
  rintro L s rfl hJ
  refine ⟨fun i hi => ?_, fun _ r t hact => ⟨L q, ?_, hQ r⟩⟩
  · subst hi
    exact ho.elim
  · obtain ⟨hl, hi, hf⟩ := act_quiet ninodes ho hact
    rw [Function.update_eq_self]
    exact hJ.congr hl hi hf

theorem keeps_panic {p : Panic} {Q : α → Local → Prop} : Keeps ninodes q (panic p) Q l := by
  rintro L s rfl hJ
  refine ⟨fun _ => nofun, fun _ r => nomatch r⟩

theorem keeps_acquire {i : ℕ} {Q : Unit → Local → Prop}
    (hbelow : ∀ d ∈ l.held, d.2.Names i)
    (hQ : ∀ d, Q () ⟨(i, d) :: l.held, l.nodir, l.files⟩) :
    Keeps ninodes q (perform (.acquiresleep i)) Q l := by
  rintro L s rfl hJ
  refine ⟨fun j hj d hd => ?_, fun _ r t hact => ?_⟩
  · obtain rfl : i = j := by simpa using hj
    have hchild : Child s d.1 i := by
      rw [Child, hJ.inode q d hd]
      exact hbelow d hd
    refine ⟨?_, hchild⟩
    rintro rfl
    exact hJ.acyclic _ (.single hchild)
  · simp only [act] at hact
    split_ifs at hact with hfree
    obtain ⟨rfl, rfl⟩ := Prod.mk.inj (Except.ok.inj hact)
    exact ⟨_, hJ.acquire hfree, hQ _⟩

theorem keeps_found {name : Name} {Q : Unit → Local → Prop}
    (hQ : name ≠ dot → name ≠ dotdot → Q () l) : Keeps ninodes q (perform (.found name)) Q l := by
  rintro L s rfl hJ
  refine ⟨fun _ => nofun, fun hC r t hact => ⟨L q, ?_, hQ hC.1 hC.2⟩⟩
  obtain ⟨rfl, rfl⟩ := Prod.mk.inj (Except.ok.inj hact)
  rwa [Function.update_eq_self]

theorem keeps_release {i : ℕ} {d : Inode} {held : List (ℕ × Inode)} {Q : Unit → Local → Prop}
    (hl : l.held = (i, d) :: held) (hQ : Q () ⟨held, l.nodir, l.files⟩) :
    Keeps ninodes q (perform (.releasesleep i)) Q l := by
  rintro L s rfl hJ
  refine ⟨fun _ => nofun, fun _ r t hact => ?_⟩
  obtain ⟨rfl, rfl⟩ := Prod.mk.inj (Except.ok.inj hact)
  exact ⟨_, hJ.release hl, hQ⟩

theorem keeps_inode {i : ℕ} {d : Inode} {held : List (ℕ × Inode)} {Q : Inode → Local → Prop}
    (hl : l.held = (i, d) :: held) (hQ : Q d l) : Keeps ninodes q (perform (.inode i)) Q l := by
  rintro L s rfl hJ
  refine ⟨fun _ => nofun, fun _ r t hact => ⟨L q, ?_, ?_⟩⟩
  all_goals obtain ⟨rfl, rfl⟩ := Prod.mk.inj (Except.ok.inj hact)
  · rwa [Function.update_eq_self]
  · rw [hJ.inode q (i, d) (by simp [hl])]
    exact hQ

theorem keeps_ifree {i : ℕ} {d : Inode} {held : List (ℕ × Inode)} {Q : Unit → Local → Prop}
    (hl : l.held = (i, d) :: held) (hQ : ∀ d', Q () ⟨(i, d') :: held, l.nodir, l.files⟩) :
    Keeps ninodes q (perform (.ifree i)) Q l := by
  rintro L s rfl hJ
  refine ⟨fun _ => nofun, fun _ r t hact => ?_⟩
  obtain ⟨rfl, rfl⟩ := Prod.mk.inj (Except.ok.inj hact)
  refine ⟨_, LockInv.congr (hJ.setInode (f := fun d => { d with type := 0, ents := [] }) hl
    (fun j hj => Or.inl hj) ?_ ?_) rfl rfl rfl, hQ _⟩
  · nofun
  · rintro j ⟨htype, -⟩
    cases htype

/-- `ip->nlink++`, from where on `ip` is known to be no directory. -/
theorem keeps_incLink {i : ℕ} {d : Inode} {held : List (ℕ × Inode)} {Q : Unit → Local → Prop}
    (hl : l.held = (i, d) :: held) (hd : d.type ≠ T_DIR)
    (hQ : ∀ d', Q () ⟨(i, d') :: held, i :: l.nodir, l.files⟩) :
    Keeps ninodes q (perform (.incLink i)) Q l := by
  rintro L s rfl hJ
  refine ⟨fun _ => nofun, fun _ r t hact => ?_⟩
  obtain ⟨rfl, rfl⟩ := Prod.mk.inj (Except.ok.inj hact)
  refine ⟨_, hJ.setInode hl (fun j hj => ?_) id (fun j => Or.inl), hQ _⟩
  rcases List.mem_cons.mp hj with rfl | hj
  · exact Or.inr ⟨rfl, hd⟩
  · exact Or.inl hj

theorem keeps_decLink {i : ℕ} {d : Inode} {held : List (ℕ × Inode)} {Q : Unit → Local → Prop}
    (hl : l.held = (i, d) :: held) (hQ : ∀ d', Q () ⟨(i, d') :: held, l.nodir, l.files⟩) :
    Keeps ninodes q (perform (.decLink i)) Q l := by
  rintro L s rfl hJ
  refine ⟨fun _ => nofun, fun _ r t hact => ?_⟩
  obtain ⟨rfl, rfl⟩ := Prod.mk.inj (Except.ok.inj hact)
  exact ⟨_, hJ.setInode hl (fun j => Or.inl) id (fun j => Or.inl), hQ _⟩

theorem store_names {d : Inode} {slot j : ℕ} {e : Dirent} (h : (d.store slot e).Names j) :
    d.Names j ∨ e.inum = j := by
  obtain ⟨htype, e', he', hj, hprop⟩ := h
  simp only [Inode.store] at he' htype
  split_ifs at he'
  · rcases List.mem_or_eq_of_mem_set he' with he' | rfl
    · exact Or.inl ⟨htype, e', he', hj, hprop⟩
    · exact Or.inr hj
  · rcases List.mem_append.mp he' with he' | he'
    · exact Or.inl ⟨htype, e', he', hj, hprop⟩
    · obtain rfl := List.mem_singleton.mp he'
      exact Or.inr hj

theorem keeps_writei {dp slot : ℕ} {d : Inode} {held : List (ℕ × Inode)} {e : Dirent}
    {Q : Bool → Local → Prop} (hl : l.held = (dp, d) :: held) (he : e.inum ∈ l.nodir)
    (hQ : ∀ r d', Q r ⟨(dp, d') :: held, l.nodir, l.files⟩) :
    Keeps ninodes q (perform (.writei dp slot e)) Q l := by
  rintro L s rfl hJ
  refine ⟨fun _ => nofun, fun _ r t hact => ?_⟩
  simp only [act] at hact
  split_ifs at hact
  · obtain ⟨rfl, rfl⟩ := Prod.mk.inj (Except.ok.inj hact)
    refine ⟨_, hJ.setInode hl (fun j => Or.inl) id (fun j hj => ?_), hQ _ _⟩
    rcases store_names hj with hj | rfl
    · exact Or.inl hj
    · exact Or.inr he
  · obtain ⟨rfl, rfl⟩ := Prod.mk.inj (Except.ok.inj hact)
    refine ⟨L q, by rwa [Function.update_eq_self], ?_⟩
    have := hQ false d
    rwa [← hl] at this

theorem keeps_filealloc {Q : Option FileSlot → Local → Prop} (hnone : Q none l)
    (hsome : l.files = [] → ∀ f, Q (some f) ⟨l.held, l.nodir, [f]⟩) (hl : l.files = []) :
    Keeps ninodes q (perform .filealloc) Q l := by
  rintro L s rfl hJ
  refine ⟨fun _ => nofun, fun _ r t hact => ?_⟩
  simp only [act] at hact
  split at hact
  · rename_i f hf
    obtain ⟨rfl, rfl⟩ := Prod.mk.inj (Except.ok.inj hact)
    have href : (s.file f).ref = 0 := by simpa using List.find?_some hf
    refine ⟨_, hJ.update_files rfl rfl (fun g hg => ?_) (fun r g hr hg => ?_) (fun g hg => ?_),
      hsome hl f⟩
    · obtain rfl := List.mem_singleton.mp hg
      have hip := hJ.closed g href
      simp only [St.setFile, Function.update_self, hip]
    · have hne : g ≠ f := by
        rintro rfl
        rw [hJ.file r g hg] at href
        cases href
      exact ⟨by simp only [St.setFile, Function.update_of_ne hne], by simpa using hne⟩
    · rcases eq_or_ne g f with rfl | hgf
      · simpa only [St.setFile, Function.update_self] using hJ.closed g href
      · simp only [St.setFile, Function.update_of_ne hgf] at hg ⊢
        exact hJ.closed g hg
  · obtain ⟨rfl, rfl⟩ := Prod.mk.inj (Except.ok.inj hact)
    exact ⟨L q, by rwa [Function.update_eq_self], hnone⟩

/-- A file in the making is not shared, so its owner may write it and give it up. -/
theorem LockInv.update_own {L : Proc → Local} {s : St} (hJ : LockInv L s) {f : FileSlot}
    {g : File → File} (hf : (L q).files = [f]) (hg : (g ⟨1, none⟩).ref = 0 → (g ⟨1, none⟩).ip = none) :
    LockInv (Function.update L q ⟨(L q).held, (L q).nodir, []⟩) (s.setFile f g) := by
  have hsf : s.file f = ⟨1, none⟩ := hJ.file q f (by simp [hf])
  refine hJ.update_files rfl rfl (fun _ h => by simp at h) (fun r f' hr hf' => ?_) (fun f' hf' => ?_)
  · have hne : f' ≠ f := by
      rintro rfl
      exact hr (hJ.owner r q f' hf' (by simp [hf]))
    exact ⟨by simp only [St.setFile, Function.update_of_ne hne], by simp⟩
  · rcases eq_or_ne f' f with rfl | hne
    · simp only [St.setFile, Function.update_self, hsf] at hf' ⊢
      exact hg hf'
    · simp only [St.setFile, Function.update_of_ne hne] at hf' ⊢
      exact hJ.closed f' hf'

theorem keeps_setFile {f : FileSlot} {i : ℕ} {Q : Unit → Local → Prop} (hf : l.files = [f])
    (hQ : Q () ⟨l.held, l.nodir, []⟩) : Keeps ninodes q (perform (.setFile f i)) Q l := by
  rintro L s rfl hJ
  refine ⟨fun _ => nofun, fun _ r t hact => ?_⟩
  obtain ⟨rfl, rfl⟩ := Prod.mk.inj (Except.ok.inj hact)
  exact ⟨_, hJ.update_own hf (by nofun), hQ⟩

/-- Closing a file that was never set up puts no inode. -/
theorem keeps_closeNew {f : FileSlot} {Q : Option ℕ → Local → Prop} (hf : l.files = [f])
    (hQ : Q none ⟨l.held, l.nodir, []⟩) : Keeps ninodes q (perform (.fileclose f)) Q l := by
  rintro L s rfl hJ
  have hsf : s.file f = ⟨1, none⟩ := hJ.file q f (by simp [hf])
  refine ⟨fun _ => nofun, fun _ r t hact => ?_⟩
  simp only [act, hsf, lt_irrefl, if_false] at hact
  obtain ⟨rfl, rfl⟩ := Prod.mk.inj (Except.ok.inj hact)
  exact ⟨_, hJ.update_own hf (fun _ => rfl), hQ⟩

variable {held : List (ℕ × Inode)} {nodir : List ℕ} {files : List FileSlot} {i dp : ℕ} {d : Inode}

theorem keeps_ilock {Q : Unit → Local → Prop} (hbelow : ∀ d ∈ held, d.2.Names i)
    (hQ : ∀ d, Q () ⟨(i, d) :: held, nodir, files⟩) :
    Keeps ninodes q (ilock i) Q ⟨held, nodir, files⟩ := by
  refine outline_bind (keeps_quiet trivial fun _ => ?_)
  refine outline_bind (keeps_acquire hbelow fun d => ?_)
  exact keeps_quiet trivial fun _ => hQ d

theorem keeps_iunlock {Q : Unit → Local → Prop} (hQ : Q () ⟨held, nodir, files⟩) :
    Keeps ninodes q (iunlock i) Q ⟨(i, d) :: held, nodir, files⟩ := by
  refine outline_bind (keeps_quiet trivial fun _ => ?_)
  exact keeps_release rfl hQ

theorem keeps_ifreeUnlinked {Q : Unit → Local → Prop}
    (hQ : ∀ d, Q () ⟨(i, d) :: held, nodir, files⟩) :
    Keeps ninodes q (ifreeUnlinked i) Q ⟨(i, d) :: held, nodir, files⟩ := by
  refine outline_bind (keeps_quiet trivial fun u => outline_ite (fun _ => ?_) (fun _ => hQ d))
  refine outline_bind (keeps_quiet trivial fun r => outline_ite (fun _ => ?_) (fun _ => hQ d))
  exact keeps_ifree rfl hQ

theorem keeps_iput {Q : Unit → Local → Prop} (hbelow : ∀ d ∈ held, d.2.Names i)
    (hQ : Q () ⟨held, nodir, files⟩) : Keeps ninodes q (iput i) Q ⟨held, nodir, files⟩ := by
  refine outline_bind (keeps_acquire hbelow fun d => ?_)
  refine outline_bind (keeps_ifreeUnlinked fun d => ?_)
  refine outline_bind (keeps_release rfl ?_)
  exact keeps_quiet trivial fun _ => hQ

theorem keeps_iunlockput {Q : Unit → Local → Prop} (hbelow : ∀ d ∈ held, d.2.Names i)
    (hQ : Q () ⟨held, nodir, files⟩) :
    Keeps ninodes q (iunlockput i) Q ⟨(i, d) :: held, nodir, files⟩ :=
  outline_bind (keeps_iunlock (keeps_iput hbelow hQ))

theorem names_of_findEnt {name : Name} {slot : ℕ} (htype : d.type = T_DIR)
    (h : d.findEnt name = some slot) (hdot : name ≠ dot) (hdotdot : name ≠ dotdot) :
    d.Names (d.entInum slot) := by
  obtain ⟨hslot, he, -⟩ := List.findIdx?_eq_some_iff_getElem.mp h
  have hget : d.ents.getD slot ⟨0, []⟩ = d.ents[slot] := by simp [hslot]
  simp only [decide_eq_true_eq] at he
  refine ⟨htype, d.ents[slot], List.getElem_mem hslot, ?_, ?_, ?_, ?_⟩
  · rw [Inode.entInum, hget]
  · rw [Inode.entInum, hget]
    exact he.1
  · rwa [he.2]
  · rwa [he.2]

theorem keeps_dirlookup {name : Name} {Q : Option (ℕ × ℕ) → Local → Prop}
    (hnone : Q none ⟨(dp, d) :: held, nodir, files⟩)
    (hsome : ∀ ip slot, (name ≠ dot → name ≠ dotdot → d.Names ip) →
      Q (some (ip, slot)) ⟨(dp, d) :: held, nodir, files⟩) :
    Keeps ninodes q (dirlookup dp name) Q ⟨(dp, d) :: held, nodir, files⟩ := by
  refine outline_bind (keeps_inode rfl ?_)
  refine outline_ite (fun _ => keeps_panic) fun htype => ?_
  cases h : d.findEnt name with
  | none => exact hnone
  | some slot =>
    refine outline_bind (keeps_quiet trivial fun _ => ?_)
    exact hsome _ _ (names_of_findEnt (not_not.mp htype) h)

theorem keeps_dirlink {name : Name} {Q : Bool → Local → Prop} (hi : i ∈ nodir)
    (hQ : ∀ r d, Q r ⟨[(dp, d)], nodir, files⟩) :
    Keeps ninodes q (dirlink dp name i) Q ⟨[(dp, d)], nodir, files⟩ := by
  refine outline_bind (keeps_dirlookup ?_ fun ip slot hnames => ?_)
  · refine outline_bind (keeps_inode rfl ?_)
    refine outline_bind (keeps_writei rfl hi fun ok d => ?_)
    exact outline_ite (fun _ => hQ true d) (fun _ => keeps_panic)
  · refine outline_bind (keeps_found fun hdot hdotdot => ?_)
    refine outline_bind (keeps_iput (fun d' hd' => ?_) (hQ false d))
    obtain rfl := List.mem_singleton.mp hd'
    exact hnames hdot hdotdot

theorem keeps_namexEnd {parent : Bool} {name : Name} {Q : Option (ℕ × Name) → Local → Prop}
    (hQ : ∀ r, Q r ⟨[], nodir, files⟩) :
    Keeps ninodes q (namexEnd parent i name) Q ⟨[], nodir, files⟩ :=
  outline_ite (fun _ => outline_bind (keeps_iput (by simp) (hQ none))) (fun _ => hQ _)

theorem keeps_namexLoop {parent : Bool} {fuel : ℕ} {path : List Char} {name : Name}
    {Q : Option (ℕ × Name) → Local → Prop} (hQ : ∀ r, Q r ⟨[], nodir, files⟩) :
    Keeps ninodes q (namexLoop parent fuel path i name) Q ⟨[], nodir, files⟩ := by
  induction fuel generalizing path i name with
  | zero => exact keeps_namexEnd hQ
  | succ fuel ih =>
    unfold namexLoop
    cases skipelem path with
    | none => exact keeps_namexEnd hQ
    | some er =>
      refine outline_bind (keeps_ilock (by simp) fun d => ?_)
      refine outline_bind (keeps_inode rfl ?_)
      refine outline_ite (fun _ => ?_) fun _ => outline_ite (fun _ => ?_) fun _ => ?_
      · exact outline_bind (keeps_iunlockput (by simp) (hQ none))
      · exact outline_bind (keeps_iunlock (hQ _))
      · refine outline_bind (keeps_dirlookup ?_ fun next slot _ => ?_)
        · exact outline_bind (keeps_iunlockput (by simp) (hQ none))
        · exact outline_bind (keeps_iunlockput (by simp) ih)

theorem keeps_namex {path : List Char} {parent : Bool} {Q : Option (ℕ × Name) → Local → Prop}
    (hQ : ∀ r, Q r ⟨[], nodir, files⟩) :
    Keeps ninodes q (namex path parent) Q ⟨[], nodir, files⟩ := by
  refine outline_bind (outline_ite (fun _ => ?_) (fun _ => ?_))
  · exact outline_bind (keeps_quiet trivial fun _ => keeps_namexLoop hQ)
  · refine outline_bind (keeps_quiet trivial fun i => ?_)
    exact outline_bind (keeps_quiet trivial fun _ => keeps_namexLoop hQ)

theorem keeps_namei {path : List Char} {Q : Option ℕ → Local → Prop}
    (hQ : ∀ r, Q r ⟨[], nodir, files⟩) :
    Keeps ninodes q (namei path) Q ⟨[], nodir, files⟩ :=
  outline_bind (keeps_namex fun _ => hQ _)

theorem keeps_create {path : List Char} {type : ℕ} {major minor : Short}
    {Q : Option ℕ → Local → Prop} (hnone : Q none ⟨[], nodir, files⟩)
    (hsome : ∀ i d, Q (some i) ⟨[(i, d)], nodir, files⟩) :
    Keeps ninodes q (create path type major minor) Q ⟨[], nodir, files⟩ := by
  refine outline_bind (keeps_namex fun r => ?_)
  match r with
  | none => exact hnone
  | some (dp, name) =>
    refine outline_bind (keeps_ilock (by simp) fun d => ?_)
    refine outline_bind (keeps_dirlookup ?_ fun ip slot _ => ?_)
    · -- no inode is allocated, so the rest of `createNew` is not reached
      refine fun L s _ _ => ⟨fun _ => nofun, fun hC => hC.elim⟩
    · refine outline_bind (keeps_iunlockput (by simp) ?_)
      refine outline_bind (keeps_ilock (by simp) fun d => ?_)
      refine outline_bind (keeps_inode rfl (outline_ite (fun _ => hsome ip d) (fun _ => ?_)))
      exact outline_bind (keeps_iunlockput (by simp) hnone)

theorem keeps_openInode {path : List Char} {omode : ℕ}
    {Q : Option ℕ → Local → Prop} (hnone : Q none ⟨[], nodir, files⟩)
    (hsome : ∀ i d, Q (some i) ⟨[(i, d)], nodir, files⟩) :
    Keeps ninodes q (openInode path omode) Q ⟨[], nodir, files⟩ := by
  refine outline_ite (fun _ => keeps_create hnone hsome) fun _ => ?_
  refine outline_bind (keeps_namei fun r => ?_)
  match r with
  | none => exact hnone
  | some ip =>
    refine outline_bind (keeps_ilock (by simp) fun d => ?_)
    refine outline_bind (keeps_inode rfl (outline_ite (fun _ => ?_) (fun _ => hsome ip d)))
    exact outline_bind (keeps_iunlockput (by simp) hnone)

/-- A call fails once it has put the inode it holds. -/
theorem keeps_putFail :
    Keeps ninodes q (do iunlockput i; pure (-1 : ℤ)) (fun _ => Local.Idle) ⟨[(i, d)], nodir, []⟩ :=
  outline_bind (keeps_iunlockput (by simp) ⟨rfl, rfl⟩)

theorem keeps_sys_open {path : List Char} {omode : ℕ} :
    Keeps ninodes q (sys_open path omode) (fun _ => Local.Idle) ⟨[], nodir, []⟩ := by
  refine outline_bind (keeps_openInode ⟨rfl, rfl⟩ fun i d => ?_)
  refine outline_bind (keeps_filealloc keeps_putFail (fun _ f => ?_) rfl)
  refine outline_bind (keeps_quiet trivial fun fd => ?_)
  match fd with
  | none =>
    refine outline_bind (outline_bind (keeps_closeNew rfl ?_))
    exact keeps_putFail
  | some fd =>
    refine outline_bind (keeps_iunlock ?_)
    exact outline_bind (keeps_setFile rfl ⟨rfl, rfl⟩)

theorem keeps_createPut {path : List Char} {type : ℕ} {major minor : Short} :
    Keeps ninodes q (do let r ← create path type major minor; putCreated r)
      (fun _ => Local.Idle) ⟨[], nodir, []⟩ :=
  outline_bind (keeps_create ⟨rfl, rfl⟩
    fun i d => outline_bind (keeps_iunlockput (by simp) ⟨rfl, rfl⟩))

theorem keeps_linkBad :
    Keeps ninodes q (linkBad i) (fun _ => Local.Idle) ⟨[], nodir, []⟩ := by
  refine outline_bind (keeps_ilock (by simp) fun d => ?_)
  refine outline_bind (keeps_decLink rfl fun d => ?_)
  exact keeps_putFail

theorem keeps_linkAt {name : Name} (hi : i ∈ nodir) :
    Keeps ninodes q (linkAt i dp name) (fun _ => Local.Idle) ⟨[], nodir, []⟩ := by
  refine outline_bind (keeps_ilock (by simp) fun d => ?_)
  refine outline_bind (keeps_dirlink hi fun ok d => ?_)
  refine outline_bind (keeps_iunlockput (by simp) ?_)
  refine outline_ite (fun _ => ?_) (fun _ => keeps_linkBad)
  exact outline_bind (keeps_iput (by simp) ⟨rfl, rfl⟩)

theorem keeps_sys_link {old new : List Char} :
    Keeps ninodes q (sys_link old new) (fun _ => Local.Idle) ⟨[], nodir, []⟩ := by
  refine outline_bind (keeps_namei fun r => ?_)
  match r with
  | none => exact ⟨rfl, rfl⟩
  | some ip =>
    refine outline_bind (keeps_ilock (by simp) fun d => ?_)
    refine outline_bind (keeps_inode rfl (outline_ite (fun _ => keeps_putFail) fun htype => ?_))
    refine outline_bind (keeps_incLink rfl htype fun d => ?_)
    refine outline_bind (keeps_iunlock ?_)
    refine outline_bind (keeps_namex fun r => ?_)
    match r with
    | none => exact keeps_linkBad
    | some (dp, name) => exact keeps_linkAt (List.mem_cons_self ..)

theorem keeps_unlinkFound {slot : ℕ} (hnames : d.Names i) :
    Keeps ninodes q (unlinkFound dp slot i) (fun _ => Local.Idle) ⟨[(dp, d)], nodir, []⟩ := by
  have hbelow : ∀ d' ∈ [(dp, d)], d'.2.Names i := by simpa using hnames
  refine outline_bind (keeps_ilock hbelow fun n => ?_)
  refine outline_bind (keeps_inode rfl (outline_ite (fun _ => keeps_panic) fun _ => ?_))
  refine outline_ite (fun _ => ?_) (fun _ => ?_)
  · exact outline_bind (keeps_iunlockput hbelow keeps_putFail)
  · -- no entry is erased, so the rest of `unlink` is not reached
    exact fun L s _ _ => ⟨fun _ => nofun, fun hC => absurd rfl hC⟩

theorem keeps_sys_unlink {path : List Char} :
    Keeps ninodes q (sys_unlink path) (fun _ => Local.Idle) ⟨[], nodir, []⟩ := by
  refine outline_bind (keeps_namex fun r => ?_)
  match r with
  | none => exact ⟨rfl, rfl⟩
  | some (dp, name) =>
    refine outline_bind (keeps_ilock (by simp) fun d => ?_)
    refine outline_ite (fun _ => keeps_putFail) fun hname => ?_
    refine outline_bind (keeps_dirlookup keeps_putFail fun ip slot hnames => ?_)
    exact keeps_unlinkFound (hnames (fun h => hname (Or.inl h)) (fun h => hname (Or.inr h)))

theorem keeps_sys_chdir {path : List Char} :
    Keeps ninodes q (sys_chdir path) (fun _ => Local.Idle) ⟨[], nodir, []⟩ := by
  refine outline_bind (keeps_namei fun r => ?_)
  match r with
  | none => exact ⟨rfl, rfl⟩
  | some ip =>
    refine outline_bind (keeps_ilock (by simp) fun d => ?_)
    refine outline_bind (keeps_inode rfl (outline_ite (fun _ => keeps_putFail) fun _ => ?_))
    refine outline_bind (keeps_iunlock (outline_bind (keeps_quiet trivial fun old => ?_)))
    refine outline_bind (keeps_iput (by simp) ?_)
    exact outline_bind (keeps_quiet trivial fun _ => ⟨rfl, rfl⟩)

theorem keeps_exec {path : List Char} :
    Keeps ninodes q (exec path) (fun _ => Local.Idle) ⟨[], nodir, []⟩ := by
  refine outline_bind (keeps_namei fun r => ?_)
  match r with
  | none => exact ⟨rfl, rfl⟩
  | some ip =>
    refine outline_bind (keeps_ilock (by simp) fun d => ?_)
    refine outline_bind (keeps_inode rfl ?_)
    exact outline_bind (keeps_iunlockput (by simp) ⟨rfl, rfl⟩)

theorem keeps_body (c : PathCall) (hl : l.Idle) :
    Keeps ninodes q c.prog (fun _ => Local.Idle) l := by
  obtain ⟨held, nodir, files⟩ := l
  obtain ⟨rfl, rfl⟩ := hl
  have hbody : Keeps ninodes q c.body (fun _ => Local.Idle) ⟨[], nodir, []⟩ := by
    cases c with
    | «open» path omode => exact keeps_sys_open
    | mkdir path => exact keeps_createPut
    | mknod path major minor => exact keeps_createPut
    | link old new => exact keeps_sys_link
    | unlink path => exact keeps_sys_unlink
    | chdir path => exact keeps_sys_chdir
    | exec path => exact keeps_exec
  exact outline_bind (outline_mono hbody fun _ _ => id)

end Outlines

section Order
variable {L : Proc → Local} {c : Procs}

theorem waitsFor_path (hJ : LockInv L c.st)
    (hsafe : ∀ p o, (c.prog p).next = some o → Below p o (L p) c.st) {p r : Proc}
    (h : Relation.TransGen (WaitsFor c) p r) {i j : ℕ}
    (hi : (c.prog p).next = some (.acquiresleep i))
    (hj : (c.prog r).next = some (.acquiresleep j)) :
    Relation.TransGen (Child c.st) i j := by
  have hdown : ∀ q i j, c.st.lock i = some q → (c.prog q).next = some (.acquiresleep j) →
      Child c.st i j := by
    intro q i j hlock hnext
    obtain ⟨d, hd, rfl⟩ := List.mem_map.mp ((hJ.lock q i).mp hlock)
    exact (hsafe q _ hnext j rfl d hd).2
  induction h generalizing j with
  | single hpr =>
    obtain ⟨i', hi', hlock⟩ := hpr
    obtain rfl : i' = i := by simpa [hi] using hi'.symm
    exact .single (hdown _ _ _ hlock hj)
  | tail _ hqr ih =>
    obtain ⟨i', hi', hlock⟩ := hqr
    exact (ih hi').tail (hdown _ _ _ hlock hj)

theorem lockOrder_of_below (hJ : LockInv L c.st)
    (hsafe : ∀ p o, (c.prog p).next = some o → Below p o (L p) c.st) : LockOrder c where
  notHeld p i hnext hlock := by
    obtain ⟨d, hd, rfl⟩ := List.mem_map.mp ((hJ.lock p i).mp hlock)
    exact (hsafe p _ hnext d.1 rfl d hd).1 rfl
  downward p i dir hnext hlock := by
    obtain ⟨d, hd, rfl⟩ := List.mem_map.mp ((hJ.lock p dir).mp hlock)
    exact Or.inl (hsafe p _ hnext i rfl d hd).2
  noDeadlock p h := by
    obtain ⟨q, ⟨i, hi, _⟩, _⟩ := Relation.TransGen.head'_iff.mp h
    exact hJ.acyclic i (waitsFor_path hJ hsafe h hi hi)

end Order

theorem locksFree_of_lt {s : St} (hlock : ∀ i, s.lock i = none)
    (hclosed : ∀ f, (s.file f).ref = 0 → (s.file f).ip = none)
    (hlt : ∀ d i, Child s d i → d < i) : LocksFree s where
  lock := hlock
  closed := hclosed
  acyclic i h := by
    have hpath : ∀ j, Relation.TransGen (Child s) i j → i < j := by
      intro j hj
      induction hj with
      | single hij => exact hlt _ _ hij
      | tail _ hjk ih => exact ih.trans (hlt _ _ hjk)
    exact lt_irrefl i (hpath i h)

theorem started_locksFree (n : ℕ) : LocksFree (started n) := by
  refine locksFree_of_lt (fun _ => rfl) (fun _ _ => rfl) fun d i hC => ?_
  obtain ⟨htype, e, he, -, -, hdot, hdotdot⟩ := hC
  rcases eq_or_ne d ROOTINO with rfl | hd
  · simp [started] at he
    rcases he with rfl | rfl <;> contradiction
  · simp [started, hd, Inode.zero] at htype

theorem inode_lock_order {ninodes : ℕ} {c : Procs}
    (h : ((pathCalls ninodes).restrict (fun c e _ => Performs KeepsOrder c e)).Reachable c) :
    LockOrder c := by
  have hout := outlined_reachable (show Local.Idle ⟨[], [], []⟩ from ⟨rfl, rfl⟩)
    (fun s hs => lockInv_of_locksFree hs) (fun q call l hl => keeps_body call hl) h
  obtain ⟨L, hJ, hsafe⟩ := hout.safe
  exact lockOrder_of_below hJ hsafe

/-- A file `f` in the root directory, with two processes there. -/
def startedFile : St :=
  { started 2 with
    inode i := if i = ROOTINO then
        ⟨T_DIR, 0, 0, 1, [⟨ROOTINO, dot⟩, ⟨ROOTINO, dotdot⟩, ⟨2, ['f']⟩]⟩
      else if i = 2 then ⟨T_FILE, 0, 0, 1, []⟩ else Inode.zero }

theorem startedFile_locksFree : LocksFree startedFile := by
  refine locksFree_of_lt (fun _ => rfl) (fun _ _ => rfl) fun d i hC => ?_
  obtain ⟨htype, e, he, hi, -, hdot, hdotdot⟩ := hC
  rcases eq_or_ne d ROOTINO with rfl | hd
  · simp [startedFile] at he
    rcases he with rfl | rfl | rfl
    · contradiction
    · contradiction
    · exact hi ▸ by decide
  · rcases eq_or_ne d 2 with rfl | hd2
    · simp [startedFile] at htype
    · simp [startedFile, hd, hd2, Inode.zero] at htype

theorem pathCalls_reach (C : Op → St → Prop) [∀ o s, Decidable (C o s)] {s : St}
    (hs : LocksFree s) (es : List (Event Proc PathCall)) (p : Procs → Prop) [DecidablePred p]
    (h : (runNext (fun c e => if Performs C c e then step (act 200) PathCall.prog c e else none)
      ⟨s, fun _ => .pure ()⟩ es).any p = true) :
    ∃ c, ((pathCalls 200).restrict (fun c e _ => Performs C c e)).Reachable c ∧ p c :=
  reachable_of_runNext ⟨hs, fun _ => rfl⟩ h

/-- Process 0 links `f` to `g` and has locked `f`, which process 1, in `unlink`, waits for. -/
theorem inode_lock_order_link : ∃ c : Procs, WaitsFor c 1 0 ∧ LockOrder c := by
  obtain ⟨c, hc, hwait⟩ := pathCalls_reach KeepsOrder startedFile_locksFree
    ([.enter 0 (.link ['f'] ['g']), .enter 1 (.unlink ['f'])] ++
      List.replicate 16 (.perform 0) ++ List.replicate 14 (.perform 1))
    (fun c => (c.prog 1).next = some (.acquiresleep 2) ∧ c.st.lock 2 = some 0) (by decide +kernel)
  exact ⟨c, ⟨2, hwait⟩, inode_lock_order hc⟩

/-- Process 0 creates `f` and has unlocked the directory, which it locks once more to put it
while it holds `f`; process 1 has locked the directory to unlink `f`, and waits for `f`. -/
theorem create_unlink_deadlock : ∃ c : Procs, (pathCalls 200).Reachable c ∧ ¬ LockOrder c := by
  obtain ⟨c, hc, h01, hl1, h10, hl0⟩ := pathCalls_reach (fun _ _ => True) (started_locksFree 2)
    ([.enter 0 (.open ['f'] O_CREATE), .enter 1 (.unlink ['f'])] ++
      List.replicate 23 (.perform 0) ++ List.replicate 14 (.perform 1))
    (fun c => (c.prog 0).next = some (.acquiresleep 1) ∧ c.st.lock 1 = some 1 ∧
      (c.prog 1).next = some (.acquiresleep 2) ∧ c.st.lock 2 = some 0) (by decide +kernel)
  refine ⟨c, hc.of_restrict, fun h => h.noDeadlock 0 ?_⟩
  exact .tail (.single ⟨1, h01, hl1⟩) ⟨2, h10, hl0⟩

end Ostep.FsTree

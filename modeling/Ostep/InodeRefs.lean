import Ostep.DirTree

/-!
# References to inodes

The cache counts the references that processes, open files and the call that runs hold on an
inode; an inode without links is kept by a reference and freed with the last one. `Inv` joins
this to the tree. `W` is the working directories as they will be when the call is over, `K` and
`T` are the references of the call: those in `K` may be the last, those in `T` are never.
-/

namespace Ostep.FsTree
open OpTree Counting

/-- The condition on a step under which lookups stay sound: no `nlink++` wraps to zero, and an
inode is freed only when no removed directory that a lookup can reach has it as its `..`. -/
def FreesNoParent : Op → St → Prop
  | .incLink i, s => (s.inode i).nlink ≠ BitVec.allOnes 16
  | .ifree i, s => ∀ d, Lookup s.inode s.cwd d → (s.inode d).type = T_DIR →
    (s.inode d).parent = i → d = i ∨ d = ROOTINO ∨ ∃ e, d ∈ (s.inode e).sub
  | _, _ => True

/-- The condition on a step under which links stay counted: there are fewer than 32767, and no
entry, nor the link for one, is added to a directory that has no links. -/
def AddsToLinked : Op → St → Prop
  | .incLink i, s => (s.inode i).nlink.toInt < 32767 ∧
    ((s.inode i).type = T_DIR → (s.inode i).nlink ≠ 0)
  | .writei d _ e, s => e.inum = 0 ∨ (s.inode d).nlink ≠ 0
  | _, _ => True

def Cond : Mode → Op → St → Prop
  | .look => FreesNoParent
  | .strict => AddsToLinked

/-- The faults a call may end with: in `look` mode, not the panic of `ilock`. -/
def Fine (mode : Mode) (e : Fault) : Prop := mode = .look → e ≠ .panic .noType

structure Refs (U : ℕ → ℕ) (T : List ℕ) (s : St) : Prop where
  ref : ∀ i, (s.icache i).ref = U i + T.count i
  valid : ∀ i, 0 < (s.icache i).ref → (s.icache i).valid → (s.inode i).type ≠ 0
  kept : ∀ i, 0 < U i → (s.inode i).type ≠ 0
  zombie : ∀ i, (s.inode i).type ≠ 0 → (s.inode i).nlink = 0 → (s.icache i).valid ∧ 0 < U i

/-- The references that keep an inode: of working directories, of open files, and of the call. -/
def users (file : FileSlot → File) (W : Proc → Option ℕ) (K : List ℕ) (i : ℕ) : ℕ :=
  occ W i + occ (fun f => (file f).ip) i + K.count i

structure Inv (mode : Mode) (ninodes : ℕ) (W : Proc → Option ℕ) (K T L : List ℕ) (s : St) :
    Prop where
  refs : Refs (users s.file W K) T s
  tree : Tree mode ninodes L s.inode W
  closed : ∀ f, (s.file f).ref = 0 → (s.file f).ip = none

/-- The calls see the same tree, directories and files. -/
structure Same (s t : St) : Prop where
  inode : t.inode = s.inode
  cwd : t.cwd = s.cwd
  file : t.file = s.file

theorem Same.refl (s : St) : Same s s := ⟨rfl, rfl, rfl⟩

theorem Same.trans {s t u : St} (h : Same s t) (k : Same t u) : Same s u :=
  ⟨k.inode.trans h.inode, k.cwd.trans h.cwd, k.file.trans h.file⟩

section Steps
variable {mode : Mode} {ninodes : ℕ} {W : Proc → Option ℕ} {K T L : List ℕ} {s t : St} {i : ℕ}

theorem users_cons : users s.file W (i :: K) i = users s.file W K i + 1 := by
  simp only [users, List.count_cons_self]
  omega

theorem users_cons_ne {j : ℕ} (h : j ≠ i) : users s.file W (i :: K) j = users s.file W K j := by
  simp only [users, List.count_cons_of_ne h.symm]

theorem Inv.congr (h : Inv mode ninodes W K T L s) (hi : t.inode = s.inode)
    (hc : t.icache = s.icache) (hf : t.file = s.file) : Inv mode ninodes W K T L t := by
  obtain ⟨_, _, _, _, _, _⟩ := s
  obtain ⟨_, _, _, _, _, _⟩ := t
  simp only at hi hc hf
  subst hi hc hf
  exact ⟨⟨h.refs.ref, h.refs.valid, h.refs.kept, h.refs.zombie⟩, h.tree, h.closed⟩

/-- A step on one slot of the cache. -/
theorem Inv.setSlot (h : Inv mode ninodes W K T L s) {K' T' : List ℕ} {f : Slot → Slot}
    (href : (f (s.icache i)).ref = users s.file W K' i + T'.count i)
    (hvalid : 0 < (f (s.icache i)).ref → (f (s.icache i)).valid → (s.inode i).type ≠ 0)
    (hkept : 0 < users s.file W K' i → (s.inode i).type ≠ 0)
    (hzombie : (s.inode i).type ≠ 0 → (s.inode i).nlink = 0 →
      (f (s.icache i)).valid ∧ 0 < users s.file W K' i)
    (hK : ∀ j, j ≠ i → K'.count j = K.count j) (hT : ∀ j, j ≠ i → T'.count j = T.count j) :
    Inv mode ninodes W K' T' L (s.setSlot i f) := by
  have husers : ∀ j, j ≠ i → users s.file W K' j = users s.file W K j :=
    fun j hj => by rw [users, hK j hj, ← users]
  have hslot : ∀ j, j ≠ i → (s.setSlot i f).icache j = s.icache j :=
    fun j hj => Function.update_of_ne hj ..
  have hself : (s.setSlot i f).icache i = f (s.icache i) := Function.update_self ..
  refine ⟨⟨fun j => ?_, fun j hj hv => ?_, fun j hj => ?_, fun j ht hn => ?_⟩, h.tree, h.closed⟩
  · rcases eq_or_ne j i with rfl | hji
    · rw [hself]
      exact href
    · rw [hslot j hji, h.refs.ref, hT j hji]
      exact congrArg (· + _) (husers j hji).symm
  · rcases eq_or_ne j i with rfl | hji
    · rw [hself] at hj hv
      exact hvalid hj hv
    · rw [hslot j hji] at hj hv
      exact h.refs.valid j hj hv
  · rcases eq_or_ne j i with rfl | hji
    · exact hkept hj
    · exact h.refs.kept j (husers j hji ▸ hj)
  · rcases eq_or_ne j i with rfl | hji
    · rw [hself]
      exact hzombie ht hn
    · have hz := h.refs.zombie j ht hn
      rw [hslot j hji]
      exact ⟨hz.1, (husers j hji).symm ▸ hz.2⟩

theorem Inv.get (h : Inv mode ninodes W K T L s) (i : ℕ) :
    Inv mode ninodes W K (i :: T) L (s.setSlot i Slot.get) := by
  have hr := h.refs.ref i
  have hcount : (i :: T).count i = T.count i + 1 := List.count_cons_self ..
  rcases Nat.eq_zero_or_pos (s.icache i).ref with hzero | hpos
  · have hget : Slot.get (s.icache i) = ⟨1, false⟩ := if_neg (by omega)
    refine h.setSlot ?_ ?_ (h.refs.kept i) (fun ht hn => ?_) (fun _ _ => rfl)
      (fun j hj => List.count_cons_of_ne hj.symm)
    · rw [hget, hcount]
      change 1 = _
      omega
    · rw [hget]
      nofun
    · have hu := (h.refs.zombie i ht hn).2
      exact absurd hu (by omega)
  · have hget : Slot.get (s.icache i) = ⟨(s.icache i).ref + 1, (s.icache i).valid⟩ := if_pos hpos
    refine h.setSlot ?_ ?_ (h.refs.kept i) ?_ (fun _ _ => rfl)
      (fun j hj => List.count_cons_of_ne hj.symm)
    · rw [hget, hcount]
      exact (congrArg (· + 1) hr).trans (Nat.add_assoc ..)
    · rw [hget]
      exact fun _ => h.refs.valid i hpos
    · rw [hget]
      exact h.refs.zombie i

/-- A working directory is in the cache, so one reference more does not recycle its slot. -/
theorem Inv.setSlot_get (h : Inv mode ninodes W K T L s) {q : Proc} (hq : W q = some i) :
    s.setSlot i Slot.get = s.setSlot i (fun c => { c with ref := c.ref + 1 }) := by
  have hocc := occ_pos.mpr ⟨q, hq⟩
  have hr := h.refs.ref i
  simp only [users] at hr
  rw [St.setSlot, St.setSlot, show Slot.get (s.icache i) = _ from if_pos (by omega)]

theorem Inv.load (h : Inv mode ninodes W K T L s) (hi : (s.inode i).type ≠ 0) :
    Inv mode ninodes W K T L (s.setSlot i (fun c => { c with valid := true })) :=
  h.setSlot (h.refs.ref i) (fun _ _ => hi) (h.refs.kept i)
    (fun ht hn => ⟨rfl, (h.refs.zombie i ht hn).2⟩) (fun _ _ => rfl) (fun _ _ => rfl)

/-- A reference in `T` is dropped. -/
theorem Inv.drop (h : Inv mode ninodes W K (i :: T) L s) :
    Inv mode ninodes W K T L (s.setSlot i (fun c => { c with ref := c.ref - 1 })) := by
  have hr := h.refs.ref i
  rw [List.count_cons_self] at hr
  refine h.setSlot (Nat.sub_eq_of_eq_add (hr.trans (Nat.add_assoc ..).symm)) (fun hp hv => ?_)
    (h.refs.kept i) (h.refs.zombie i) (fun _ _ => rfl)
    (fun j hj => (List.count_cons_of_ne hj.symm).symm)
  exact h.refs.valid i (by omega) hv

/-- A reference in `K` is dropped that is not the last, or the inode has links. -/
theorem Inv.dropKept (h : Inv mode ninodes W (i :: K) T L s) (hT : i ∉ T)
    (hlast : ¬ ((s.icache i).valid = true ∧ (s.inode i).nlink = 0 ∧ (s.icache i).ref = 1)) :
    Inv mode ninodes W K T L (s.setSlot i (fun c => { c with ref := c.ref - 1 })) := by
  have hr := h.refs.ref i
  rw [users_cons, List.count_eq_zero_of_not_mem hT] at hr
  refine h.setSlot ?_ (fun hp hv => ?_) (fun hk => ?_) (fun ht hn => ?_)
    (fun j hj => (List.count_cons_of_ne hj.symm).symm) (fun _ _ => rfl)
  · rw [List.count_eq_zero_of_not_mem hT]
    exact Nat.sub_eq_of_eq_add hr
  · exact h.refs.valid i (by omega) hv
  · exact h.refs.kept i (by rw [users_cons]; omega)
  · have hv := (h.refs.zombie i ht hn).1
    exact ⟨hv, by by_contra hz; exact hlast ⟨hv, hn, by omega⟩⟩

theorem Inv.perm (h : Inv mode ninodes W K T L s) {T' : List ℕ} (hp : T.Perm T') :
    Inv mode ninodes W K T' L s :=
  ⟨⟨fun j => hp.count_eq j ▸ h.refs.ref j, h.refs.valid, h.refs.kept, h.refs.zombie⟩, h.tree,
    h.closed⟩

/-- The call comes to keep a reference. -/
theorem Inv.keep (h : Inv mode ninodes W K (i :: T) L s) (hi : (s.inode i).type ≠ 0) :
    Inv mode ninodes W (i :: K) T L s := by
  have hcount : ∀ j, users s.file W (i :: K) j + T.count j =
      users s.file W K j + (i :: T).count j := by
    intro j
    simp only [users, List.count_cons]
    omega
  refine ⟨⟨fun j => ?_, h.refs.valid, fun j hj => ?_, fun j ht hn => ?_⟩, h.tree, h.closed⟩
  · rw [hcount]
    exact h.refs.ref j
  · rcases eq_or_ne j i with rfl | hji
    · exact hi
    · exact h.refs.kept j (by rwa [users_cons_ne hji] at hj)
  · obtain ⟨hv, hu⟩ := h.refs.zombie j ht hn
    refine ⟨hv, ?_⟩
    simp only [users, List.count_cons] at hu ⊢
    omega

/-- A step on one inode that stays allocated. -/
theorem Inv.setInode (h : Inv mode ninodes W K T L s) {L' : List ℕ} {f : Inode → Inode}
    (htype : (f (s.inode i)).type = (s.inode i).type)
    (hnlink : (s.inode i).type ≠ 0 → (f (s.inode i)).nlink = 0 →
      (s.icache i).valid ∧ 0 < users s.file W K i)
    (htree : Tree mode ninodes L' (Function.update s.inode i (f (s.inode i))) W) :
    Inv mode ninodes W K T L' (s.setInode i f) := by
  have hself : (s.setInode i f).inode i = f (s.inode i) := Function.update_self ..
  have hother : ∀ j, j ≠ i → (s.setInode i f).inode j = s.inode j :=
    fun j hj => Function.update_of_ne hj ..
  have htypes : ∀ j, ((s.setInode i f).inode j).type = (s.inode j).type := by
    intro j
    rcases eq_or_ne j i with rfl | hji
    · rw [hself, htype]
    · rw [hother j hji]
  refine ⟨⟨h.refs.ref, ?_, ?_, fun j ht hn => ?_⟩, htree, h.closed⟩
  · simp only [htypes]
    exact h.refs.valid
  · simp only [htypes]
    exact h.refs.kept
  · rw [htypes] at ht
    rcases eq_or_ne j i with rfl | hji
    · exact hnlink ht (hself ▸ hn)
    · exact h.refs.zombie j ht (hother j hji ▸ hn)

/-- The last reference to an inode without links goes, and the inode with it. -/
theorem Inv.free (h : Inv mode ninodes W (i :: K) T L s) (hT : i ∉ T)
    (hlast : (s.icache i).valid = true ∧ (s.inode i).nlink = 0 ∧ (s.icache i).ref = 1)
    (hlook : mode = .look → ∀ d, Lookup s.inode W d → (s.inode d).type = T_DIR →
      (s.inode d).parent = i → d = i ∨ d = ROOTINO ∨ ∃ e, d ∈ (s.inode e).sub)
    (hi : t.inode = Function.update s.inode i { s.inode i with type := 0, ents := [] })
    (hc : t.icache = Function.update s.icache i ⟨0, false⟩) (hf : t.file = s.file) :
    Inv mode ninodes W K T L t := by
  obtain ⟨hv, hn, href⟩ := hlast
  have hr := h.refs.ref i
  rw [users_cons, List.count_eq_zero_of_not_mem hT, href] at hr
  have htype : (s.inode i).type ≠ 0 := h.refs.valid i (by omega) hv
  have hzero : users s.file W K i = 0 := by omega
  have hcwd : ∀ q, W q ≠ some i := by
    intro q hq
    have := occ_pos.mpr ⟨q, hq⟩
    simp only [users] at hzero
    omega
  have hinode : ∀ j, j ≠ i → t.inode j = s.inode j :=
    fun j hj => by rw [hi, Function.update_of_ne hj]
  have hslot : ∀ j, j ≠ i → t.icache j = s.icache j :=
    fun j hj => by rw [hc, Function.update_of_ne hj]
  have hself : t.icache i = ⟨0, false⟩ := by rw [hc, Function.update_self]
  have hfree : (t.inode i).type = 0 := by rw [hi, Function.update_self]
  have husers : ∀ j, j ≠ i → users t.file W K j = users s.file W (i :: K) j :=
    fun j hj => by rw [hf, users_cons_ne hj]
  refine ⟨⟨fun j => ?_, fun j hj hjv => ?_, fun j hj => ?_, fun j ht hn => ?_⟩,
    hi ▸ h.tree.free htype hn hcwd hlook, hf ▸ h.closed⟩
  · rcases eq_or_ne j i with rfl | hji
    · rw [hself, List.count_eq_zero_of_not_mem hT, hf, hzero]
    · rw [hslot j hji, h.refs.ref, husers j hji]
  · rcases eq_or_ne j i with rfl | hji
    · rw [hself] at hjv
      cases hjv
    · rw [hslot j hji] at hj hjv
      rw [hinode j hji]
      exact h.refs.valid j hj hjv
  · rcases eq_or_ne j i with rfl | hji
    · rw [hf, hzero] at hj
      exact absurd hj (lt_irrefl 0)
    · rw [hinode j hji]
      exact h.refs.kept j (husers j hji ▸ hj)
  · have hji : j ≠ i := fun e => ht (e ▸ hfree)
    rw [hinode j hji] at ht hn
    obtain ⟨hv, hu⟩ := h.refs.zombie j ht hn
    rw [hslot j hji, husers j hji]
    exact ⟨hv, hu⟩

end Steps

end Ostep.FsTree

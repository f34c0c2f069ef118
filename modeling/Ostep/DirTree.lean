import Ostep.FsTree
import Ostep.Counting

/-!
# Directory trees and link counts

A table of inodes as a tree: which entries lead where, what is reachable from the root and what
a path lookup can reach, and how the link counts account for the entries. `Tree` is kept by every
change that the calls make to the table: a new inode, one link more or less, an entry added or
erased, an inode freed. The list `L` holds links that are counted and not yet, or no longer, made.
-/

namespace Ostep.FsTree
open Counting

/-- The inodes that the entries of a list are for. -/
def inums (es : List Dirent) : List ℕ := (es.map Dirent.inum).filter (· ≠ 0)

/-- The entries other than `.` and `..`. -/
def Inode.sub (d : Inode) : List ℕ := inums (d.ents.drop 2)

/-- The entry `..`. -/
def Inode.parent (d : Inode) : ℕ := (d.ents.getD 1 ⟨0, []⟩).inum

/-- A directory with inode number `i`. -/
def Inode.Shaped (d : Inode) (i : ℕ) : Prop :=
  ∃ p rest, p ≠ 0 ∧ d.ents = ⟨i, dot⟩ :: ⟨p, dotdot⟩ :: rest ∧
    ∀ e ∈ rest, e.inum ≠ 0 → e.name ≠ dot ∧ e.name ≠ dotdot

section Entries
variable {d : Inode} {i slot : ℕ} {name : Name} {e : Dirent}

theorem inums_set {es : List Dirent} {k : ℕ} (h : k < es.length) :
    (inums [es[k]] ++ inums (es.set k e)).Perm (inums [e] ++ inums es) := by
  have hset : es.set k e = es.take k ++ e :: es.drop (k + 1) :=
    List.set_eq_take_append_cons_drop.trans (if_pos h)
  have hes : es = es.take k ++ es[k] :: es.drop (k + 1) := by
    rw [← List.drop_eq_getElem_cons h, List.take_append_drop]
  have happ : ∀ x : Dirent, (inums (es.take k ++ x :: es.drop (k + 1))).Perm
      (inums [x] ++ inums (es.take k ++ es.drop (k + 1))) := by
    intro x
    have hperm : (es.take k ++ x :: es.drop (k + 1)).Perm
        (x :: (es.take k ++ es.drop (k + 1))) := List.perm_middle
    have hcons : inums (x :: (es.take k ++ es.drop (k + 1))) =
        inums [x] ++ inums (es.take k ++ es.drop (k + 1)) := by
      rw [inums, inums, inums, ← List.filter_append, ← List.map_append, List.singleton_append]
    exact hcons ▸ (hperm.map _).filter _
  rw [hset]
  conv_rhs => rw [hes]
  refine ((happ e).append_left _).trans ?_
  refine List.Perm.trans ?_ ((happ es[k]).symm.append_left _)
  rw [← List.append_assoc, ← List.append_assoc]
  exact List.perm_append_comm.append_right _

theorem inums_append {es fs : List Dirent} : inums (es ++ fs) = inums es ++ inums fs := by
  rw [inums, inums, inums, ← List.filter_append, ← List.map_append]

theorem mem_inums {es : List Dirent} : i ∈ inums es ↔ i ≠ 0 ∧ ∃ e ∈ es, e.inum = i := by
  simp [inums, and_comm]

theorem sub_of_ents {a b : Dirent} {rest : List Dirent} (h : d.ents = a :: b :: rest) :
    d.sub = inums rest := by
  rw [Inode.sub, h]
  rfl

theorem parent_of_ents {a b : Dirent} {rest : List Dirent} (h : d.ents = a :: b :: rest) :
    d.parent = b.inum := by
  rw [Inode.parent, h]
  rfl

theorem store_ents {a b : Dirent} {rest : List Dirent} {k : ℕ} (h : d.ents = a :: b :: rest) :
    (d.store (k + 2) e).ents = a :: b :: if k < rest.length then rest.set k e else rest ++ [e] := by
  simp only [Inode.store, h, List.length_cons, Nat.add_lt_add_iff_right]
  split_ifs <;> rfl

theorem Inode.Shaped.store (h : d.Shaped i) {k : ℕ}
    (he : e.inum ≠ 0 → e.name ≠ dot ∧ e.name ≠ dotdot) : (d.store (k + 2) e).Shaped i := by
  obtain ⟨p, rest, hp, hents, hrest⟩ := h
  refine ⟨p, _, hp, store_ents hents, fun x hx => ?_⟩
  split_ifs at hx
  · rcases List.mem_or_eq_of_mem_set hx with hx | rfl
    · exact hrest x hx
    · exact he
  · rcases List.mem_append.mp hx with hx | hx
    · exact hrest x hx
    · exact List.mem_singleton.mp hx ▸ he

theorem Inode.Shaped.parent_store (h : d.Shaped i) {k : ℕ} :
    (d.store (k + 2) e).parent = d.parent := by
  obtain ⟨p, rest, -, hents, -⟩ := h
  rw [parent_of_ents hents, parent_of_ents (store_ents hents)]

theorem Inode.Shaped.parent_ne (h : d.Shaped i) : d.parent ≠ 0 := by
  obtain ⟨p, rest, hp, hents, -⟩ := h
  rwa [parent_of_ents hents]

theorem Inode.Shaped.not_dots (h : d.Shaped i) (hi : i ≠ 0) (hfind : d.findEnt name = none) :
    name ≠ dot ∧ name ≠ dotdot := by
  obtain ⟨p, rest, hp, hents, -⟩ := h
  have hnone := List.findIdx?_eq_none_iff.mp hfind
  simp only [hents, List.mem_cons, decide_eq_false_iff_not, not_and] at hnone
  exact ⟨fun e => hnone _ (Or.inl rfl) hi e.symm, fun e => hnone _ (Or.inr (Or.inl rfl)) hp e.symm⟩

/-- The slot for a new entry is after `.` and `..`, and holds no entry. -/
theorem Inode.Shaped.freeSlot (h : d.Shaped i) (hi : i ≠ 0) (he : e.inum ≠ 0) :
    ∃ k, d.freeSlot = k + 2 ∧ (d.store d.freeSlot e).sub.Perm (e.inum :: d.sub) := by
  obtain ⟨p, rest, hp, hents, -⟩ := h
  have hslot : d.freeSlot = rest.findIdx (fun e => e.inum = 0) + 2 := by
    simp [Inode.freeSlot, hents, List.findIdx_cons, hi, hp]
  have hone : inums [e] = [e.inum] := by simp [inums, he]
  refine ⟨_, hslot, ?_⟩
  rw [hslot, sub_of_ents (store_ents hents), sub_of_ents hents]
  split_ifs with hk
  · have hzero : rest[rest.findIdx (fun e => e.inum = 0)].inum = 0 := by
      simpa using List.findIdx_getElem (w := hk)
    have hnil : inums [rest[rest.findIdx (fun e => e.inum = 0)]] = [] := by simp [inums, hzero]
    have hperm := inums_set (e := e) hk
    rwa [hnil, hone] at hperm
  · rw [inums_append, hone]
    exact List.perm_append_comm

theorem findEnt_getElem (h : d.findEnt name = some slot) :
    ∃ hs : slot < d.ents.length, d.entInum slot = d.ents[slot].inum ∧ d.entInum slot ≠ 0 ∧
      d.ents[slot].name = name := by
  obtain ⟨hs, he, -⟩ := List.findIdx?_eq_some_iff_getElem.mp h
  have hget : d.entInum slot = d.ents[slot].inum := by simp [Inode.entInum, hs]
  simp only [decide_eq_true_eq] at he
  exact ⟨hs, hget, hget ▸ he.1, he.2⟩

/-- An entry that is found under another name than `.` and `..`, and what is left without it. -/
theorem Inode.Shaped.erase (h : d.Shaped i) (hfind : d.findEnt name = some slot)
    (hdot : name ≠ dot) (hdotdot : name ≠ dotdot) :
    ∃ k, slot = k + 2 ∧ d.sub.Perm (d.entInum slot :: (d.store slot ⟨0, []⟩).sub) := by
  obtain ⟨p, rest, hp, hents, -⟩ := h
  obtain ⟨hs, hget, hne, hname⟩ := findEnt_getElem hfind
  rcases slot with _ | _ | k
  · simp only [hents, List.getElem_cons_zero] at hname
    exact absurd hname.symm hdot
  · simp only [hents, List.getElem_cons_succ, List.getElem_cons_zero] at hname
    exact absurd hname.symm hdotdot
  · have hk : k < rest.length := by simpa [hents] using hs
    have hold : d.entInum (k + 2) = rest[k].inum := by
      rw [hget]
      simp [hents]
    refine ⟨k, rfl, ?_⟩
    rw [sub_of_ents (store_ents hents), sub_of_ents hents, if_pos hk]
    have hone : inums [rest[k]] = [d.entInum (k + 2)] := by simp [inums, ← hold, hne]
    have hnil : inums [(⟨0, []⟩ : Dirent)] = [] := by simp [inums]
    have hperm := inums_set (e := ⟨0, []⟩) hk
    rw [hone, hnil] at hperm
    exact hperm.symm

theorem Inode.Shaped.found (h : d.Shaped i) (hfind : d.findEnt name = some slot) :
    d.entInum slot = i ∨ d.entInum slot = d.parent ∨ d.entInum slot ∈ d.sub := by
  obtain ⟨p, rest, hp, hents, -⟩ := h
  obtain ⟨hs, hget, hne, -⟩ := findEnt_getElem hfind
  rw [parent_of_ents hents, sub_of_ents hents]
  rcases slot with _ | _ | k
  · exact Or.inl (by simpa [hents] using hget)
  · exact Or.inr (Or.inl (by simpa [hents] using hget))
  · have hk : k < rest.length := by simpa [hents] using hs
    refine Or.inr (Or.inr (mem_inums.mpr ⟨hne, rest[k], List.getElem_mem hk, ?_⟩))
    simpa [hents] using hget.symm

end Entries

abbrev Table : Type := ℕ → Inode

/-- `look` for runs where only lookups are followed, `strict` for runs where links are counted. -/
inductive Mode where
  | look
  | strict
  deriving DecidableEq

section Links
variable (ninodes : ℕ) (tab : Table) (L : List ℕ) (i : ℕ)

/-- The entries for `i`, `.` and `..` apart. -/
def named : ℕ := ∑ d ∈ Finset.range ninodes, (tab d).sub.count i

/-- The directories in `i`, each with a link to `i` for its `..`. -/
def subdirs : ℕ := (tab i).sub.countP (fun j => (tab j).type = T_DIR)

def links : ℕ := named ninodes tab i + subdirs tab i + (if i = ROOTINO then 1 else 0) + L.count i

end Links

inductive Linked (tab : Table) : ℕ → Prop where
  | root : Linked tab ROOTINO
  | child {d i : ℕ} : Linked tab d → i ∈ (tab d).sub → Linked tab i

/-- The inodes that a path lookup of some process can reach. -/
inductive Lookup (tab : Table) (cwd : Proc → Option ℕ) : ℕ → Prop where
  | root : Lookup tab cwd ROOTINO
  | cwd {q : Proc} {i : ℕ} : cwd q = some i → Lookup tab cwd i
  | child {d i : ℕ} : Lookup tab cwd d → i ∈ (tab d).sub → Lookup tab cwd i
  | parent {d : ℕ} : Lookup tab cwd d → (tab d).type = T_DIR → Lookup tab cwd (tab d).parent

/-- `nlink` is the number of links, or more when the mode is `look`. -/
def Counted (mode : Mode) (nlink : Short) (n : ℕ) : Prop :=
  ∃ m, nlink = BitVec.ofNat 16 m ∧ n ≤ m ∧ m < 2 ^ 16 ∧ (mode = .strict → m = n ∧ m ≤ 32767)

structure Tree (mode : Mode) (ninodes : ℕ) (L : List ℕ) (tab : Table) (cwd : Proc → Option ℕ) :
    Prop where
  bound : ∀ i, (tab i).type ≠ 0 → i ≠ 0 ∧ i < ninodes
  root : (tab ROOTINO).type = T_DIR ∧ (tab ROOTINO).parent = ROOTINO
  cwdDir : ∀ q i, cwd q = some i → (tab i).type = T_DIR
  empty : ∀ i, (tab i).type ≠ T_DIR → (tab i).ents = []
  shaped : ∀ d, (tab d).type = T_DIR → (tab d).Shaped d
  alloc : ∀ d i, i ∈ (tab d).sub → (tab i).type ≠ 0 ∧ i ≠ ROOTINO
  parent : ∀ d i, i ∈ (tab d).sub → (tab i).type = T_DIR → (tab i).parent = d
  once : ∀ d i, (tab i).type = T_DIR → (tab d).sub.count i ≤ 1
  counted : ∀ i, (tab i).type ≠ 0 → Counted mode (tab i).nlink (links ninodes tab L i)
  pending : ∀ i ∈ L, (tab i).type ≠ 0
  linked : mode = .strict → ∀ d, (tab d).sub ≠ [] → Linked tab d
  lookup : mode = .look → ∀ d, Lookup tab cwd d → (tab d).type = T_DIR →
    (tab (tab d).parent).type ≠ 0

section Facts
variable {mode : Mode} {ninodes : ℕ} {L L' : List ℕ} {tab tab' : Table} {cwd : Proc → Option ℕ}
  {i d : ℕ}

theorem Linked.mono (h : Linked tab i) (hsub : ∀ d i, i ∈ (tab d).sub → i ∈ (tab' d).sub) :
    Linked tab' i := by
  induction h with
  | root => exact .root
  | child _ hi ih => exact .child ih (hsub _ _ hi)

theorem Lookup.mono {cwd' : Proc → Option ℕ} (h : Lookup tab cwd i)
    (hcwd : ∀ q i, cwd q = some i → Lookup tab' cwd' i)
    (hsub : ∀ d i, i ∈ (tab d).sub → i ∈ (tab' d).sub)
    (hdir : ∀ d, (tab d).type = T_DIR → (tab' d).type = T_DIR ∧ (tab' d).parent = (tab d).parent) :
    Lookup tab' cwd' i := by
  induction h with
  | root => exact .root
  | cwd hq => exact hcwd _ _ hq
  | child _ hi ih => exact .child ih (hsub _ _ hi)
  | parent _ hd ih =>
    obtain ⟨hd', hp⟩ := hdir _ hd
    exact hp ▸ .parent ih hd'

theorem Tree.sub_nil (h : Tree mode ninodes L tab cwd) (hd : (tab d).type ≠ T_DIR) :
    (tab d).sub = [] := by
  rw [Inode.sub, h.empty d hd]
  rfl

theorem Tree.dir_of_mem (h : Tree mode ninodes L tab cwd) (hi : i ∈ (tab d).sub) :
    (tab d).type = T_DIR := by
  by_contra hd
  rw [h.sub_nil hd] at hi
  cases hi

theorem Tree.root_ne_zero (h : Tree mode ninodes L tab cwd) : (tab ROOTINO).type ≠ 0 := by
  rw [h.root.1]
  decide

/-- In `look` mode a lookup finds allocated inodes only. -/
theorem Tree.lookup_alloc (h : Tree .look ninodes L tab cwd) (hi : Lookup tab cwd i) :
    (tab i).type ≠ 0 := by
  induction hi with
  | root => exact h.root_ne_zero
  | cwd hq =>
    rw [h.cwdDir _ _ hq]
    decide
  | child _ hi _ => exact (h.alloc _ _ hi).1
  | parent hd htype _ => exact h.lookup rfl _ hd htype

theorem named_pos (h : ∀ d, i ∈ (tab d).sub → d < ninodes) :
    0 < named ninodes tab i ↔ ∃ d, i ∈ (tab d).sub := by
  simp only [named, Nat.pos_iff_ne_zero, ne_eq, Finset.sum_eq_zero_iff, Finset.mem_range,
    List.count_eq_zero, not_forall, not_not]
  exact ⟨fun ⟨d, _, hd⟩ => ⟨d, hd⟩, fun ⟨d, hd⟩ => ⟨d, h d hd, hd⟩⟩

theorem Tree.named_pos (h : Tree mode ninodes L tab cwd) :
    0 < named ninodes tab i ↔ ∃ d, i ∈ (tab d).sub :=
  FsTree.named_pos fun d hd => (h.bound d (by rw [h.dir_of_mem hd]; decide)).2

theorem subdirs_pos : 0 < subdirs tab i ↔ ∃ j ∈ (tab i).sub, (tab j).type = T_DIR := by
  simp [subdirs, List.countP_pos_iff]

theorem Counted.eq_zero {n : ℕ} {x : Short} (h : Counted mode x n) (hx : x = 0) : n = 0 := by
  obtain ⟨m, rfl, hle, hlt, -⟩ := h
  have hm := congrArg BitVec.toNat hx
  have hzero : (0 : Short).toNat = 0 := rfl
  rw [BitVec.toNat_ofNat, Nat.mod_eq_of_lt hlt, hzero] at hm
  omega

theorem Counted.succ {n : ℕ} {x : Short} (h : Counted mode x n)
    (hlook : mode = .look → x ≠ BitVec.allOnes 16) (hstrict : mode = .strict → x.toInt < 32767) :
    Counted mode (x + 1) (n + 1) ∧ x + 1 ≠ 0 := by
  obtain ⟨m, rfl, hle, hlt, hm⟩ := h
  have hsucc : m + 1 < 2 ^ 16 ∧ (mode = .strict → m + 1 ≤ 32767) := by
    cases mode with
    | look =>
      refine ⟨?_, nofun⟩
      by_contra hge
      obtain rfl : m = 2 ^ 16 - 1 := by omega
      exact hlook rfl rfl
    | strict =>
      have hx := hstrict rfl
      obtain ⟨-, hmle⟩ := hm rfl
      rw [BitVec.toInt_eq_toNat_of_lt (by simp [BitVec.toNat_ofNat]; omega),
        BitVec.toNat_ofNat, Nat.mod_eq_of_lt hlt] at hx
      exact ⟨by omega, fun _ => by omega⟩
  have hadd : BitVec.ofNat 16 m + 1 = BitVec.ofNat 16 (m + 1) := by
    rw [BitVec.ofNat_add]
    rfl
  rw [hadd]
  have hc : Counted mode (BitVec.ofNat 16 (m + 1)) (n + 1) :=
    ⟨m + 1, rfl, by omega, hsucc.1, fun h => ⟨by rw [(hm h).1], hsucc.2 h⟩⟩
  exact ⟨hc, fun h0 => absurd (hc.eq_zero h0) (by omega)⟩

theorem Counted.pred {n : ℕ} {x : Short} (h : Counted mode x (n + 1)) : Counted mode (x - 1) n := by
  obtain ⟨m, rfl, hle, hlt, hm⟩ := h
  obtain ⟨m, rfl⟩ : ∃ k, m = k + 1 := ⟨m - 1, by omega⟩
  refine ⟨m, ?_, by omega, by omega, fun h => ?_⟩
  · rw [BitVec.ofNat_add]
    exact BitVec.add_sub_cancel ..
  · obtain ⟨h1, h2⟩ := hm h
    exact ⟨by omega, by omega⟩

theorem links_congr (hsub : ∀ d, (tab' d).sub = (tab d).sub)
    (htype : ∀ j ∈ (tab i).sub, (tab' j).type = T_DIR ↔ (tab j).type = T_DIR)
    (hL : L'.count i = L.count i) : links ninodes tab' L' i = links ninodes tab L i := by
  have hnamed : named ninodes tab' i = named ninodes tab i :=
    Finset.sum_congr rfl fun d _ => by rw [hsub]
  have hsubdirs : subdirs tab' i = subdirs tab i := by
    rw [subdirs, hsub]
    exact List.countP_congr fun j hj => by simpa using htype j hj
  rw [links, links, hnamed, hsubdirs, hL]

/-- Only link counts, and what is pending, change. -/
theorem Tree.recount (h : Tree mode ninodes L tab cwd) (htype : ∀ j, (tab' j).type = (tab j).type)
    (hents : ∀ j, (tab' j).ents = (tab j).ents)
    (hcounted : ∀ j, (tab j).type ≠ 0 → Counted mode (tab' j).nlink (links ninodes tab L' j))
    (hpending : ∀ j ∈ L', (tab j).type ≠ 0) : Tree mode ninodes L' tab' cwd := by
  have hsub : ∀ j, (tab' j).sub = (tab j).sub := fun j => by rw [Inode.sub, Inode.sub, hents]
  have hparent : ∀ j, (tab' j).parent = (tab j).parent :=
    fun j => by rw [Inode.parent, Inode.parent, hents]
  have hlinks : ∀ j, links ninodes tab' L' j = links ninodes tab L' j :=
    fun j => links_congr hsub (fun k _ => by rw [htype]) rfl
  refine ⟨?_, ?_, ?_, ?_, ?_, ?_, ?_, ?_, ?_, ?_, ?_, ?_⟩
  · simpa only [htype] using h.bound
  · simpa only [htype, hparent] using h.root
  · simpa only [htype] using h.cwdDir
  · simpa only [htype, hents] using h.empty
  · intro d hd
    rw [htype] at hd
    have hshape := h.shaped d hd
    rwa [Inode.Shaped, ← hents d] at hshape
  · simpa only [htype, hsub] using h.alloc
  · simpa only [htype, hsub, hparent] using h.parent
  · simpa only [htype, hsub] using h.once
  · simpa only [htype, hlinks] using hcounted
  · simpa only [htype] using hpending
  · intro hm d hd
    rw [hsub] at hd
    exact (h.linked hm d hd).mono fun d i hi => by rwa [hsub]
  · intro hm d hd htd
    rw [htype] at htd
    rw [htype, hparent]
    refine h.lookup hm d (hd.mono (fun q i hq => .cwd hq) (fun d i hi => by rwa [← hsub]) ?_) htd
    exact fun d hd => ⟨by rwa [← htype], (hparent d).symm⟩

theorem links_cons {j : ℕ} :
    links ninodes tab (j :: L) i = links ninodes tab L i + (if j = i then 1 else 0) := by
  simp only [links, List.count_cons, beq_iff_eq]
  omega

theorem Tree.incLink (h : Tree mode ninodes L tab cwd) (hi : (tab i).type ≠ 0)
    (hlook : mode = .look → (tab i).nlink ≠ BitVec.allOnes 16)
    (hstrict : mode = .strict → (tab i).nlink.toInt < 32767) :
    Tree mode ninodes (i :: L)
      (Function.update tab i { tab i with nlink := (tab i).nlink + 1 }) cwd := by
  refine h.recount (fun j => ?_) (fun j => ?_) (fun j hj => ?_) (fun j hj => ?_)
  · rcases eq_or_ne j i with rfl | hji
    · rw [Function.update_self]
    · rw [Function.update_of_ne hji]
  · rcases eq_or_ne j i with rfl | hji
    · rw [Function.update_self]
    · rw [Function.update_of_ne hji]
  · rw [links_cons]
    rcases eq_or_ne j i with rfl | hji
    · rw [Function.update_self, if_pos rfl]
      exact ((h.counted j hj).succ hlook hstrict).1
    · rw [Function.update_of_ne hji, if_neg hji.symm]
      exact h.counted j hj
  · rcases List.mem_cons.mp hj with rfl | hj
    · exact hi
    · exact h.pending j hj

theorem Tree.decLink (h : Tree mode ninodes (i :: L) tab cwd) :
    Tree mode ninodes L (Function.update tab i { tab i with nlink := (tab i).nlink - 1 }) cwd := by
  refine h.recount (fun j => ?_) (fun j => ?_) (fun j hj => ?_)
    (fun j hj => h.pending j (List.mem_cons_of_mem i hj))
  · rcases eq_or_ne j i with rfl | hji
    · rw [Function.update_self]
    · rw [Function.update_of_ne hji]
  · rcases eq_or_ne j i with rfl | hji
    · rw [Function.update_self]
    · rw [Function.update_of_ne hji]
  · have hc := h.counted j hj
    rw [links_cons] at hc
    rcases eq_or_ne j i with rfl | hji
    · rw [if_pos rfl] at hc
      rw [Function.update_self]
      exact hc.pred
    · rw [if_neg hji.symm] at hc
      rw [Function.update_of_ne hji]
      exact hc

theorem Tree.pending_perm (h : Tree mode ninodes L tab cwd) (hp : L.Perm L') :
    Tree mode ninodes L' tab cwd := by
  refine h.recount (fun _ => rfl) (fun _ => rfl) (fun j hj => ?_)
    (fun j hj => h.pending j (hp.mem_iff.mpr hj))
  have hc := h.counted j hj
  rwa [links, hp.count_eq, ← links] at hc

/-- The working directories may change to inodes that a lookup can reach. -/
theorem Tree.setCwd (h : Tree mode ninodes L tab cwd) {cwd' : Proc → Option ℕ}
    (hcwd : ∀ q i, cwd' q = some i → (tab i).type = T_DIR ∧ (mode = .look → Lookup tab cwd i)) :
    Tree mode ninodes L tab cwd' where
  bound := h.bound
  root := h.root
  cwdDir q i hq := (hcwd q i hq).1
  empty := h.empty
  shaped := h.shaped
  alloc := h.alloc
  parent := h.parent
  once := h.once
  counted := h.counted
  pending := h.pending
  linked := h.linked
  lookup hm d hd := h.lookup hm d
    (hd.mono (fun q i hq => (hcwd q i hq).2 hm) (fun _ _ => id) (fun _ hd => ⟨hd, rfl⟩))

/-- An inode that was free becomes an empty file, device or directory, its first link pending. -/
theorem Tree.newInode (h : Tree mode ninodes L tab cwd) {x : Inode} (hfree : (tab i).type = 0)
    (hi : i ≠ 0 ∧ i < ninodes) (htype : x.type ≠ 0) (hnlink : x.nlink = 1) (hsub : x.sub = [])
    (hempty : x.type ≠ T_DIR → x.ents = [])
    (hshaped : x.type = T_DIR → x.Shaped i ∧ (tab x.parent).type ≠ 0) :
    Tree mode ninodes (i :: L) (Function.update tab i x) cwd := by
  have hnodir : (tab i).type ≠ T_DIR := by simp [hfree]
  have hnotsub : ∀ d, i ∉ (tab d).sub := fun d hd => (h.alloc d i hd).1 hfree
  have hnotL : i ∉ L := fun hL => h.pending i hL hfree
  have hroot : ROOTINO ≠ i := fun e => h.root_ne_zero (e ▸ hfree)
  have hne : ∀ j, (tab j).type ≠ 0 → j ≠ i := fun j hj e => hj (e ▸ hfree)
  have hself : Function.update tab i x i = x := Function.update_self ..
  have hother : ∀ j, j ≠ i → Function.update tab i x j = tab j :=
    fun j hj => Function.update_of_ne hj ..
  have hsub' : ∀ d, (Function.update tab i x d).sub = (tab d).sub := by
    intro d
    rcases eq_or_ne d i with rfl | hd
    · rw [hself, hsub, h.sub_nil hnodir]
    · rw [hother d hd]
  have hmem : ∀ d j, j ∈ (tab d).sub → j ≠ i := fun d j hj e => hnotsub d (e ▸ hj)
  have hlookup : ∀ d, Lookup (Function.update tab i x) cwd d → mode = .look →
      Lookup tab cwd d ∧ d ≠ i := by
    intro d hd hm
    subst hm
    suffices hl : Lookup tab cwd d from ⟨hl, hne d (h.lookup_alloc hl)⟩
    induction hd with
    | root => exact .root
    | cwd hq => exact .cwd hq
    | child _ hj ih => exact .child ih (hsub' _ ▸ hj)
    | parent _ hdir ih =>
      have hd := hne _ (h.lookup_alloc ih)
      rw [hother _ hd] at hdir ⊢
      exact .parent ih hdir
  refine ⟨fun j hj => ?_, ?_, fun q j hq => ?_, fun j hj => ?_, fun d hd => ?_, fun d j hj => ?_,
    fun d j hj hdir => ?_, fun d j hdir => ?_, fun j hj => ?_, fun j hj => ?_, fun hm d hd => ?_,
    fun hm d hd hdir => ?_⟩
  · rcases eq_or_ne j i with rfl | hji
    · exact hi
    · exact h.bound j (hother j hji ▸ hj)
  · rw [hother _ hroot]
    exact h.root
  · have hj := h.cwdDir q j hq
    rwa [hother j (hne j (by rw [hj]; decide))]
  · rcases eq_or_ne j i with rfl | hji
    · rw [hself] at hj ⊢
      exact hempty hj
    · rw [hother j hji] at hj ⊢
      exact h.empty j hj
  · rcases eq_or_ne d i with rfl | hd'
    · rw [hself] at hd ⊢
      exact (hshaped hd).1
    · rw [hother d hd'] at hd ⊢
      exact h.shaped d hd
  · rw [hsub'] at hj
    rw [hother j (hmem d j hj)]
    exact h.alloc d j hj
  · rw [hsub'] at hj
    rw [hother j (hmem d j hj)] at hdir ⊢
    exact h.parent d j hj hdir
  · rw [hsub']
    rcases eq_or_ne j i with rfl | hji
    · rw [List.count_eq_zero_of_not_mem (hnotsub d)]
      exact Nat.zero_le 1
    · exact h.once d j (hother j hji ▸ hdir)
  · have hlinks : links ninodes (Function.update tab i x) (i :: L) j =
        links ninodes tab L j + if i = j then 1 else 0 := by
      rw [links_cons, links_congr hsub' (fun k hk => by rw [hother k (hmem j k hk)]) rfl]
    rw [hlinks]
    rcases eq_or_ne j i with rfl | hji
    · have hzero : links ninodes tab L j = 0 := by
        have hnamed : ¬ 0 < named ninodes tab j := fun hpos => by
          obtain ⟨d, hd⟩ := h.named_pos.mp hpos
          exact hnotsub d hd
        have hsubdirs : subdirs tab j = 0 := by rw [subdirs, h.sub_nil hnodir, List.countP_nil]
        rw [links, hsubdirs, if_neg hroot.symm, List.count_eq_zero_of_not_mem hnotL]
        omega
      rw [hself, hnlink, hzero, if_pos rfl]
      exact ⟨1, rfl, le_refl 1, by decide, fun _ => ⟨rfl, by decide⟩⟩
    · rw [hother j hji] at hj ⊢
      rw [if_neg hji.symm]
      exact h.counted j hj
  · rcases eq_or_ne j i with rfl | hji
    · rwa [hself]
    · rw [hother j hji]
      exact h.pending j ((List.mem_cons.mp hj).resolve_left hji)
  · rw [hsub'] at hd
    exact (h.linked hm d hd).mono fun d j hj => by rwa [hsub']
  · obtain ⟨hl, hdi⟩ := hlookup d hd hm
    rw [hother d hdi] at hdir ⊢
    have hp := h.lookup hm d hl hdir
    rwa [hother _ (hne _ hp)]

/-- One entry for `i` more in `dp`, and one pending link less for `i`; if `i` is a directory,
also for `dp`. -/
theorem links_entry {dp : ℕ} (hdp : dp < ninodes) (hperm : (tab' dp).sub.Perm (i :: (tab dp).sub))
    (hsub : ∀ d, d ≠ dp → (tab' d).sub = (tab d).sub) (htype : ∀ j, (tab' j).type = (tab j).type)
    (j : ℕ) : links ninodes tab' L j =
      links ninodes tab (i :: if (tab i).type = T_DIR then dp :: L else L) j := by
  have hnamed : named ninodes tab' j = named ninodes tab j + if i = j then 1 else 0 := by
    have hswap := sum_swap (f := fun d => (tab' d).sub.count j) (g := fun d => (tab d).sub.count j)
      (Finset.mem_range.mpr hdp) (fun d _ hd => by rw [hsub d hd])
    simp only [hperm.count_eq, List.count_cons, beq_iff_eq] at hswap
    simp only [named]
    omega
  have hsubdirs : subdirs tab' j =
      subdirs tab j + if (tab i).type = T_DIR ∧ dp = j then 1 else 0 := by
    have htypes : (fun k => decide ((tab' k).type = T_DIR)) =
        fun k => decide ((tab k).type = T_DIR) := funext fun k => by rw [htype]
    rw [subdirs, subdirs, htypes]
    rcases eq_or_ne j dp with rfl | hj
    · rw [hperm.countP_eq, List.countP_cons]
      simp
    · rw [hsub j hj, if_neg (fun h => hj h.2.symm), Nat.add_zero]
  simp only [links, hnamed, hsubdirs, List.count_cons, beq_iff_eq]
  by_cases hdir : (tab i).type = T_DIR
  · simp only [hdir, if_true, true_and, List.count_cons, beq_iff_eq]
    omega
  · simp only [hdir, if_false, false_and]
    omega

/-- The entries of the directory `dp` change. -/
theorem Tree.setEntries (h : Tree mode ninodes L tab cwd) {dp : ℕ} {x : Inode}
    (hdp : (tab dp).type = T_DIR) (hx : x.type = T_DIR) (hnlink : x.nlink = (tab dp).nlink)
    (hshaped : x.Shaped dp) (hparent : x.parent = (tab dp).parent)
    (halloc : ∀ j ∈ x.sub, (tab j).type ≠ 0 ∧ j ≠ ROOTINO)
    (hparents : ∀ j ∈ x.sub, (tab j).type = T_DIR → (tab j).parent = dp)
    (honce : ∀ j, (tab j).type = T_DIR → x.sub.count j ≤ 1)
    (hlinks : ∀ j, links ninodes (Function.update tab dp x) L' j = links ninodes tab L j)
    (hpending : ∀ j ∈ L', (tab j).type ≠ 0)
    (hlinked : mode = .strict → ∀ d, (Function.update tab dp x d).sub ≠ [] →
      Linked (Function.update tab dp x) d)
    (hlookup : mode = .look → ∀ d, Lookup (Function.update tab dp x) cwd d →
      (tab d).type = T_DIR → (tab (tab d).parent).type ≠ 0) :
    Tree mode ninodes L' (Function.update tab dp x) cwd := by
  have hself : Function.update tab dp x dp = x := Function.update_self ..
  have hother : ∀ j, j ≠ dp → Function.update tab dp x j = tab j :=
    fun j hj => Function.update_of_ne hj ..
  have htype : ∀ j, (Function.update tab dp x j).type = (tab j).type := by
    intro j
    rcases eq_or_ne j dp with rfl | hj
    · rw [hself, hx, hdp]
    · rw [hother j hj]
  have hparent' : ∀ j, (Function.update tab dp x j).parent = (tab j).parent := by
    intro j
    rcases eq_or_ne j dp with rfl | hj
    · rw [hself, hparent]
    · rw [hother j hj]
  refine ⟨?_, ?_, ?_, fun j hj => ?_, fun d hd => ?_, fun d j hj => ?_, fun d j hj => ?_,
    fun d j hj => ?_, fun j hj => ?_, ?_, hlinked, ?_⟩
  · simpa only [htype] using h.bound
  · simpa only [htype, hparent'] using h.root
  · simpa only [htype] using h.cwdDir
  · rcases eq_or_ne j dp with rfl | hjd
    · exact (hj (by rw [hself, hx])).elim
    · rw [hother j hjd] at hj ⊢
      exact h.empty j hj
  · rcases eq_or_ne d dp with rfl | hdd
    · rwa [hself]
    · rw [hother d hdd] at hd ⊢
      exact h.shaped d hd
  · rw [htype]
    rcases eq_or_ne d dp with rfl | hdd
    · exact halloc j (hself ▸ hj)
    · exact h.alloc d j (hother d hdd ▸ hj)
  · rw [htype, hparent']
    rcases eq_or_ne d dp with rfl | hdd
    · exact hparents j (hself ▸ hj)
    · exact h.parent d j (hother d hdd ▸ hj)
  · rw [htype] at hj
    rcases eq_or_ne d dp with rfl | hdd
    · rw [hself]
      exact honce j hj
    · rw [hother d hdd]
      exact h.once d j hj
  · rw [htype] at hj
    rw [hlinks]
    rcases eq_or_ne j dp with rfl | hjd
    · rw [hself, hnlink]
      exact h.counted j hj
    · rw [hother j hjd]
      exact h.counted j hj
  · simpa only [htype] using hpending
  · simpa only [htype, hparent'] using hlookup

/-- A pending link is made. -/
theorem Tree.addEntry {dp : ℕ} {x : Inode}
    (h : Tree mode ninodes (i :: if (tab i).type = T_DIR then dp :: L else L) tab cwd)
    (hdp : (tab dp).type = T_DIR) (hx : x.type = T_DIR) (hnlink : x.nlink = (tab dp).nlink)
    (hshaped : x.Shaped dp) (hparent : x.parent = (tab dp).parent)
    (hsub : x.sub.Perm (i :: (tab dp).sub)) (hroot : i ≠ ROOTINO)
    (hdir : (tab i).type = T_DIR →
      (tab i).parent = dp ∧ (tab i).sub = [] ∧ ∀ d, i ∉ (tab d).sub)
    (hlinked : mode = .strict → Linked tab dp) :
    Tree mode ninodes L (Function.update tab dp x) cwd := by
  have hself : Function.update tab dp x dp = x := Function.update_self ..
  have hother : ∀ j, j ≠ dp → Function.update tab dp x j = tab j :=
    fun j hj => Function.update_of_ne hj ..
  have htype : ∀ j, (Function.update tab dp x j).type = (tab j).type := by
    intro j
    rcases eq_or_ne j dp with rfl | hj
    · rw [hself, hx, hdp]
    · rw [hother j hj]
  have hmem : ∀ d j, j ∈ (tab d).sub → j ∈ (Function.update tab dp x d).sub := by
    intro d j hj
    rcases eq_or_ne d dp with rfl | hd
    · rw [hself]
      exact hsub.mem_iff.mpr (List.mem_cons_of_mem i hj)
    · rwa [hother d hd]
  have hnil : (tab i).sub = [] := by
    by_cases hd : (tab i).type = T_DIR
    · exact (hdir hd).2.1
    · exact h.sub_nil hd
  have hbound : dp < ninodes := (h.bound dp (by rw [hdp]; decide)).2
  have halloc : (tab i).type ≠ 0 := h.pending i (List.mem_cons_self ..)
  refine h.setEntries hdp hx hnlink hshaped hparent (fun j hj => ?_) (fun j hj hjd => ?_)
    (fun j hj => ?_) (fun j => ?_) (fun j hj => h.pending j (List.mem_cons_of_mem i ?_))
    (fun hm d hd => ?_) (fun hm d hd hdd => ?_)
  · rcases List.mem_cons.mp (hsub.mem_iff.mp hj) with rfl | hj
    · exact ⟨halloc, hroot⟩
    · exact h.alloc dp j hj
  · rcases List.mem_cons.mp (hsub.mem_iff.mp hj) with rfl | hj
    · exact (hdir hjd).1
    · exact h.parent dp j hj hjd
  · rw [hsub.count_eq, List.count_cons]
    rcases eq_or_ne i j with rfl | hij
    · rw [List.count_eq_zero_of_not_mem ((hdir hj).2.2 dp)]
      simp
    · simpa [hij] using h.once dp j hj
  · exact links_entry hbound (by rwa [hself]) (fun d hd => by rw [hother d hd]) htype j
  · split_ifs
    · exact List.mem_cons_of_mem dp hj
    · exact hj
  · have hmono := fun e (he : Linked tab e) => he.mono hmem
    rcases eq_or_ne d dp with rfl | hdd
    · exact hmono d (hlinked hm)
    · exact hmono d (h.linked hm d (hother d hdd ▸ hd))
  · -- a lookup that takes the new entry goes on with the old ones, or comes back by `..`
    have hold : Lookup tab cwd d ∨ d = i ∧ Lookup tab cwd dp := by
      clear hdd
      induction hd with
      | root => exact Or.inl .root
      | cwd hq => exact Or.inl (.cwd hq)
      | @child e j _ hj ih =>
        rcases eq_or_ne e dp with rfl | he
        · have hl : Lookup tab cwd e := ih.elim id And.right
          rw [hself] at hj
          rcases List.mem_cons.mp (hsub.mem_iff.mp hj) with rfl | hj
          · exact Or.inr ⟨rfl, hl⟩
          · exact Or.inl (.child hl hj)
        · rw [hother e he] at hj
          rcases ih with ih | ⟨rfl, -⟩
          · exact Or.inl (.child ih hj)
          · rw [hnil] at hj
            cases hj
      | @parent e _ hed ih =>
        rw [htype] at hed
        have hpe : (Function.update tab dp x e).parent = (tab e).parent := by
          rcases eq_or_ne e dp with rfl | he
          · rw [hself, hparent]
          · rw [hother e he]
        rw [hpe]
        rcases ih with ih | ⟨rfl, ih⟩
        · exact Or.inl (.parent ih hed)
        · rw [(hdir hed).1]
          exact Or.inl ih
    rcases hold with hl | ⟨rfl, -⟩
    · exact h.lookup hm d hl hdd
    · rw [(hdir hdd).1, hdp]
      decide

/-- A link that is made becomes pending. -/
theorem Tree.eraseEntry (h : Tree mode ninodes L tab cwd) {dp : ℕ} {x : Inode}
    (hdp : (tab dp).type = T_DIR) (hx : x.type = T_DIR) (hnlink : x.nlink = (tab dp).nlink)
    (hshaped : x.Shaped dp) (hparent : x.parent = (tab dp).parent)
    (hsub : (tab dp).sub.Perm (i :: x.sub))
    (hempty : (tab i).type = T_DIR → (tab i).sub = []) :
    Tree mode ninodes (i :: if (tab i).type = T_DIR then dp :: L else L)
      (Function.update tab dp x) cwd := by
  have hself : Function.update tab dp x dp = x := Function.update_self ..
  have hother : ∀ j, j ≠ dp → Function.update tab dp x j = tab j :=
    fun j hj => Function.update_of_ne hj ..
  have htype : ∀ j, (Function.update tab dp x j).type = (tab j).type := by
    intro j
    rcases eq_or_ne j dp with rfl | hj
    · rw [hself, hx, hdp]
    · rw [hother j hj]
  have hmem : ∀ d j, j ∈ (Function.update tab dp x d).sub → j ∈ (tab d).sub := by
    intro d j hj
    rcases eq_or_ne d dp with rfl | hd
    · rw [hself] at hj
      exact hsub.mem_iff.mpr (List.mem_cons_of_mem i hj)
    · rwa [hother d hd] at hj
  have hnil : (tab i).sub = [] := by
    by_cases hd : (tab i).type = T_DIR
    · exact hempty hd
    · exact h.sub_nil hd
  have hin : i ∈ (tab dp).sub := hsub.mem_iff.mpr (List.mem_cons_self ..)
  have hbound : dp < ninodes := (h.bound dp (by rw [hdp]; decide)).2
  refine h.setEntries hdp hx hnlink hshaped hparent
    (fun j hj => h.alloc dp j (hsub.mem_iff.mpr (List.mem_cons_of_mem i hj)))
    (fun j hj => h.parent dp j (hsub.mem_iff.mpr (List.mem_cons_of_mem i hj))) (fun j hj => ?_)
    (fun j => ?_) (fun j hj => ?_) (fun hm d hd => ?_) (fun hm d hd hdd => ?_)
  · have hc := h.once dp j hj
    rw [hsub.count_eq, List.count_cons] at hc
    omega
  · have hback : links ninodes tab L j = links ninodes (Function.update tab dp x)
        (i :: if (Function.update tab dp x i).type = T_DIR then dp :: L else L) j :=
      links_entry hbound (by rwa [hself]) (fun d hd => by rw [hother d hd])
        (fun j => (htype j).symm) j
    rw [hback, htype i]
  · rcases List.mem_cons.mp hj with rfl | hj
    · exact (h.alloc dp j hin).1
    · split_ifs at hj
      · rcases List.mem_cons.mp hj with rfl | hj
        · rw [hdp]
          decide
        · exact h.pending j hj
      · exact h.pending j hj
  · -- no path from the root leads through `i`, which has no entries
    have hkeep : ∀ e, Linked tab e → (tab e).sub ≠ [] → Linked (Function.update tab dp x) e := by
      intro e he
      induction he with
      | root => exact fun _ => .root
      | @child e j _ hj ih =>
        intro hne
        have hji : j ≠ i := fun h => hne (h ▸ hnil)
        refine .child (ih (List.ne_nil_of_mem hj)) ?_
        rcases eq_or_ne e dp with rfl | he
        · rw [hself]
          exact (List.mem_cons.mp (hsub.mem_iff.mp hj)).resolve_left hji
        · rwa [hother e he]
    obtain ⟨j, hj⟩ := List.exists_mem_of_ne_nil _ hd
    have hd' : (tab d).sub ≠ [] := List.ne_nil_of_mem (hmem d j hj)
    exact hkeep d (h.linked hm d hd') hd'
  · refine h.lookup hm d (hd.mono (fun q i hq => .cwd hq) hmem fun e he => ?_) hdd
    rw [htype] at he
    refine ⟨he, ?_⟩
    rcases eq_or_ne e dp with rfl | hed
    · rw [hself, hparent]
    · rw [hother e hed]

theorem Counted.le {n n' : ℕ} {x : Short} (h : Counted .look x n) (hn : n' ≤ n) :
    Counted .look x n' := by
  obtain ⟨m, hx, hle, hlt, -⟩ := h
  exact ⟨m, hx, hn.trans hle, hlt, nofun⟩

/-- An inode without links is named nowhere and has no directory in it. -/
theorem Tree.unlinked (h : Tree mode ninodes L tab cwd) (hi : (tab i).type ≠ 0)
    (hzero : (tab i).nlink = 0) :
    (∀ d, i ∉ (tab d).sub) ∧ (∀ j ∈ (tab i).sub, (tab j).type ≠ T_DIR) ∧ i ≠ ROOTINO ∧ i ∉ L := by
  have hlinks := (h.counted i hi).eq_zero hzero
  simp only [links] at hlinks
  refine ⟨fun d hd => ?_, fun j hj hdir => ?_, fun hroot => ?_, fun hL => ?_⟩
  · have := h.named_pos.mpr ⟨d, hd⟩
    omega
  · have : 0 < subdirs tab i := subdirs_pos.mpr ⟨j, hj, hdir⟩
    omega
  · rw [if_pos hroot] at hlinks
    omega
  · have := List.count_pos_iff.mpr hL
    omega

/-- An inode without links that no process is in is freed. -/
theorem Tree.free (h : Tree mode ninodes L tab cwd) (hi : (tab i).type ≠ 0)
    (hzero : (tab i).nlink = 0) (hcwd : ∀ q, cwd q ≠ some i)
    (hlook : mode = .look → ∀ d, Lookup tab cwd d → (tab d).type = T_DIR → (tab d).parent = i →
      d = i ∨ d = ROOTINO ∨ ∃ e, d ∈ (tab e).sub) :
    Tree mode ninodes L (Function.update tab i { tab i with type := 0, ents := [] }) cwd := by
  obtain ⟨hnamed, hsubdirs, hroot, hL⟩ := h.unlinked hi hzero
  have hnil : mode = .strict → (tab i).sub = [] := by
    intro hm
    by_contra hne
    cases h.linked hm i hne with
    | root => exact hroot rfl
    | child _ hd => exact hnamed _ hd
  generalize hx : { tab i with type := 0, ents := [] } = x
  have hxtype : x.type = 0 := by rw [← hx]
  have hxents : x.ents = [] := by rw [← hx]
  have hself : Function.update tab i x i = x := Function.update_self ..
  have hother : ∀ j, j ≠ i → Function.update tab i x j = tab j :=
    fun j hj => Function.update_of_ne hj ..
  have halloc : ∀ j, (Function.update tab i x j).type ≠ 0 → j ≠ i := by
    rintro j hj rfl
    exact hj (by rw [hself, hxtype])
  have hdirs : ∀ j, (Function.update tab i x j).type = T_DIR → j ≠ i :=
    fun j hj => halloc j (by rw [hj]; decide)
  have hmem : ∀ d j, j ∈ (Function.update tab i x d).sub → d ≠ i ∧ j ∈ (tab d).sub ∧ j ≠ i := by
    intro d j hj
    have hd : d ≠ i := by
      rintro rfl
      rw [hself, Inode.sub, hxents] at hj
      cases hj
    rw [hother d hd] at hj
    exact ⟨hd, hj, fun e => hnamed d (e ▸ hj)⟩
  refine ⟨fun j hj => ?_, ?_, fun q j hq => ?_, fun j hj => ?_, fun d hd => ?_, fun d j hj => ?_,
    fun d j hj hdir => ?_, fun d j hdir => ?_, fun j hj => ?_, fun j hj => ?_, fun hm d hd => ?_,
    fun hm d hd hdir => ?_⟩
  · exact h.bound j (hother j (halloc j hj) ▸ hj)
  · rw [hother _ hroot.symm]
    exact h.root
  · rw [hother j (fun e => hcwd q (e ▸ hq))]
    exact h.cwdDir q j hq
  · rcases eq_or_ne j i with rfl | hji
    · rw [hself, hxents]
    · rw [hother j hji] at hj ⊢
      exact h.empty j hj
  · have hdi := hdirs d hd
    rw [hother d hdi] at hd ⊢
    exact h.shaped d hd
  · obtain ⟨-, hj, hji⟩ := hmem d j hj
    rw [hother j hji]
    exact h.alloc d j hj
  · obtain ⟨-, hj, hji⟩ := hmem d j hj
    rw [hother j hji] at hdir ⊢
    exact h.parent d j hj hdir
  · rcases eq_or_ne d i with rfl | hdi
    · rw [hself, Inode.sub, hxents]
      exact Nat.zero_le 1
    · rw [hother j (hdirs j hdir)] at hdir
      rw [hother d hdi]
      exact h.once d j hdir
  · have hji := halloc j hj
    rw [hother j hji] at hj ⊢
    have hc := h.counted j hj
    have hsubdirs' : subdirs (Function.update tab i x) j = subdirs tab j := by
      rw [subdirs, subdirs, hother j hji]
      refine List.countP_congr fun k hk => ?_
      rw [hother k fun e => hnamed j (e ▸ hk)]
    have hnamed' : named ninodes (Function.update tab i x) j + (tab i).sub.count j =
        named ninodes tab j := by
      have hswap := sum_swap (f := fun d => (Function.update tab i x d).sub.count j)
        (g := fun d => (tab d).sub.count j) (Finset.mem_range.mpr (h.bound i hi).2)
        (fun d _ hd => by rw [hother d hd])
      have hzero : x.sub.count j = 0 := by
        rw [Inode.sub, hxents]
        rfl
      simp only [hself, hzero] at hswap
      exact hswap
    have hlinks : links ninodes (Function.update tab i x) L j + (tab i).sub.count j =
        links ninodes tab L j := by
      simp only [links, hsubdirs']
      omega
    cases mode with
    | look => exact hc.le (by omega)
    | strict =>
      rw [hnil rfl, List.count_nil, Nat.add_zero] at hlinks
      rwa [hlinks]
  · rw [hother j fun e => hL (e ▸ hj)]
    exact h.pending j hj
  · subst hm
    obtain ⟨j, hj⟩ := List.exists_mem_of_ne_nil _ hd
    obtain ⟨-, hj, -⟩ := hmem d j hj
    have hl := h.linked rfl d (List.ne_nil_of_mem hj)
    refine hl.mono fun e k hk => ?_
    have hei : e ≠ i := by
      rintro rfl
      rw [hnil rfl] at hk
      cases hk
    rwa [hother e hei]
  · have hdi := hdirs d hdir
    have hl : Lookup tab cwd d := hd.mono (fun q j hq => .cwd hq)
      (fun e j hj => (hmem e j hj).2.1) fun e he => by
        have hei := hdirs e he
        rw [hother e hei] at he ⊢
        exact ⟨he, rfl⟩
    rw [hother d hdi] at hdir ⊢
    have hp : (tab d).parent ≠ i := by
      intro hp
      rcases hlook hm d hl hdir hp with hd | rfl | ⟨e, he⟩
      · exact hdi hd
      · exact hroot (h.root.2 ▸ hp).symm
      · have hei : e = i := (h.parent e d he hdir).symm.trans hp
        exact hsubdirs d (hei ▸ he) hdir
    rw [hother _ hp]
    exact h.lookup hm d hl hdir

end Facts

end Ostep.FsTree

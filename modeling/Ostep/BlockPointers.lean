import Ostep.FsBlocks
import Ostep.Hoare
import Ostep.Ownership

/-!
# Block pointers

The slots of an inode are its direct pointers, the pointer to its indirect block, and the
entries of that block. Each function of the block layer changes the map from slots to blocks in
at most one slot at a time, together with the bitmap.
-/

namespace Ostep.FsBlocks
open Hoare Ownership ByteWords

/-! ## The map from slots to blocks -/

variable {sb : Superblock}

/-- Slot `NDIRECT` is the indirect block, the slots after it are its entries. -/
def pointerOf (data : ℕ → Block) (d : Dinode) (k : ℕ) : ℕ :=
  if k ≤ NDIRECT then d.addrs k
  else if d.addrs NDIRECT = 0 then 0
  else (data (d.addrs NDIRECT)).word (k - NDIRECT - 1)

/-- The block in a slot of an allocated inode, 0 for every other slot. -/
def pointer (sb : Superblock) (data : ℕ → Block) (inode : ℕ → Dinode) (p : ℕ × ℕ) : ℕ :=
  if p.1 < sb.ninodes ∧ (inode p.1).type ≠ 0 ∧ p.2 ≤ MAXFILE then
    pointerOf data (inode p.1) p.2
  else 0

/-- The slot of the `bn`th block of a file. -/
def slotOf (bn : ℕ) : ℕ := if bn < NDIRECT then bn else bn + 1

def St.Locked (s : St) (i : ℕ) : Prop := 0 < (s.icache i).ref ∧ (s.icache i).valid = true

instance (s : St) (i : ℕ) : Decidable (s.Locked i) := inferInstanceAs (Decidable (_ ∧ _))

/-- The fields of an inode: those in the cache, where the cache has them. -/
def St.inode (s : St) (i : ℕ) : Dinode :=
  if s.Locked i then (s.icache i).ip else s.dinode i

def St.own (sb : Superblock) (s : St) : ℕ × ℕ → ℕ := pointer sb s.data s.inode

theorem St.Locked.inode {s : St} {i : ℕ} (h : s.Locked i) : s.inode i = (s.icache i).ip :=
  if_pos h

theorem St.not_locked_inode {s : St} {i : ℕ} (h : ¬ s.Locked i) : s.inode i = s.dinode i :=
  if_neg h

/-- The view of an inode depends on its cache entry and its sector only. -/
theorem inode_congr {s t : St} {i : ℕ} (hc : t.icache i = s.icache i)
    (hd : t.dinode i = s.dinode i) : t.inode i = s.inode i := by
  by_cases h : s.Locked i
  · have ht : t.Locked i := by rwa [St.Locked, hc]
    rw [h.inode, ht.inode, hc]
  · have ht : ¬ t.Locked i := by rwa [St.Locked, hc]
    rw [St.not_locked_inode h, St.not_locked_inode ht, hd]

@[simp] theorem setIp_icache (s : St) (i : ℕ) (f : Dinode → Dinode) :
    (s.setIp i f).icache i = { s.icache i with ip := f (s.icache i).ip } := by
  simp [St.setIp]

theorem setIp_icache_of_ne (s : St) {i j : ℕ} (f : Dinode → Dinode) (h : j ≠ i) :
    (s.setIp i f).icache j = s.icache j := by
  simp [St.setIp, h]

@[simp] theorem setIp_locked (s : St) (i j : ℕ) (f : Dinode → Dinode) :
    (s.setIp i f).Locked j ↔ s.Locked j := by
  by_cases h : j = i
  · subst h
    simp [St.Locked]
  · simp [St.Locked, setIp_icache_of_ne s f h]

@[simp] theorem iupdate_icache (s : St) (i : ℕ) : (s.iupdate i).icache = s.icache := rfl

@[simp] theorem iupdate_dinode (s : St) (i : ℕ) :
    (s.iupdate i).dinode i = (s.icache i).ip := by
  simp [St.iupdate]

theorem iupdate_dinode_of_ne (s : St) {i j : ℕ} (h : j ≠ i) :
    (s.iupdate i).dinode j = s.dinode j := by
  simp [St.iupdate, h]

/-- Writing a locked inode back does not change what is seen of it. -/
theorem iupdate_inode {s : St} {i : ℕ} (h : s.Locked i) : (s.iupdate i).inode = s.inode := by
  funext j
  by_cases hj : j = i
  · subst hj
    have : (s.iupdate j).Locked j := h
    rw [this.inode, h.inode, iupdate_icache]
  · exact inode_congr rfl (iupdate_dinode_of_ne s hj)

theorem setIp_inode {s : St} {i : ℕ} (h : s.Locked i) (f : Dinode → Dinode) :
    (s.setIp i f).inode = Function.update s.inode i (f (s.icache i).ip) := by
  funext j
  by_cases hj : j = i
  · subst hj
    rw [St.Locked.inode ((setIp_locked s j j f).mpr h), setIp_icache, Function.update_self]
  · rw [Function.update_of_ne hj]
    exact inode_congr (setIp_icache_of_ne s f hj) rfl

/-- Only the indirect blocks are read for pointers. -/
theorem pointer_update_data {data : ℕ → Block} {inode : ℕ → Dinode} {b : ℕ} {v : Block}
    (h : ∀ i, pointer sb data inode (i, NDIRECT) ≠ b) :
    pointer sb (Function.update data b v) inode = pointer sb data inode := by
  funext ⟨i, k⟩
  unfold pointer
  split_ifs with hslot
  · have hne : (inode i).addrs NDIRECT ≠ b := by
      simpa [pointer, pointerOf, hslot.1, hslot.2.1] using h i
    simp [pointerOf, hne]
  · rfl

section SetAddr
variable {data : ℕ → Block} {inode : ℕ → Dinode} {i k b : ℕ}

/-- Setting a direct pointer. -/
theorem pointer_setAddr (hi : i < sb.ninodes) (htype : (inode i).type ≠ 0) (hk : k < NDIRECT) :
    pointer sb data (Function.update inode i ((inode i).setAddr k b)) =
      Function.update (pointer sb data inode) (i, k) b := by
  funext ⟨j, l⟩
  have hmax : MAXFILE = 140 := rfl
  have hdir : NDIRECT = 12 := rfl
  by_cases hj : j = i
  · subst hj
    have h12 : NDIRECT ≠ k := by omega
    by_cases hl : l = k
    · subst hl
      have hle : l ≤ MAXFILE ∧ l ≤ NDIRECT := by omega
      simp [pointer, pointerOf, Dinode.setAddr, hi, htype, hle]
    · simp [pointer, pointerOf, Dinode.setAddr, hl, h12]
  · simp [pointer, hj]

/-- Setting the pointer to the indirect block, whose entries are zero before and after. -/
theorem pointer_setIndirect (hi : i < sb.ninodes) (htype : (inode i).type ≠ 0)
    (hold : ∀ l, NDIRECT < l → pointer sb data inode (i, l) = 0)
    (hnew : b = 0 ∨ ∀ j, (data b).word j = 0) :
    pointer sb data (Function.update inode i ((inode i).setAddr NDIRECT b)) =
      Function.update (pointer sb data inode) (i, NDIRECT) b := by
  funext ⟨j, l⟩
  by_cases hj : j = i
  · subst hj
    rcases Nat.lt_trichotomy l NDIRECT with hl | rfl | hl
    · have hle : l ≤ NDIRECT := by omega
      have hne : l ≠ NDIRECT := by omega
      simp [pointer, pointerOf, Dinode.setAddr, hle, hne]
    · simp [pointer, pointerOf, Dinode.setAddr, hi, htype]
    · have hne : l ≠ NDIRECT := by omega
      have hle : ¬ l ≤ NDIRECT := by omega
      rw [Function.update_of_ne (by simpa using hne), hold l hl]
      rcases hnew with rfl | hzero
      · simp [pointer, pointerOf, Dinode.setAddr, hle]
      · simp [pointer, pointerOf, Dinode.setAddr, hle, hzero]
  · simp [pointer, hj]

/-- Setting an entry of the indirect block. -/
theorem pointer_setWord {lo hi : ℕ} {used : ℕ → Bool}
    (h : Owns lo hi used (pointer sb data inode)) {addr j : ℕ}
    (haddr : pointer sb data inode (i, NDIRECT) = addr) (hne : addr ≠ 0) (hj : j < NINDIRECT)
    (hb : b < 2 ^ 32) :
    pointer sb (Function.update data addr ((data addr).setWord j b)) inode =
      Function.update (pointer sb data inode) (i, NDIRECT + 1 + j) b := by
  have hslot : i < sb.ninodes ∧ (inode i).type ≠ 0 := by
    by_contra hcon
    have : pointer sb data inode (i, NDIRECT) = 0 := if_neg (fun h => hcon ⟨h.1, h.2.1⟩)
    omega
  have hind : (inode i).addrs NDIRECT = addr := by
    simpa [pointer, pointerOf, hslot] using haddr
  funext ⟨l, k⟩
  by_cases hp : (l, k) = (i, NDIRECT + 1 + j)
  · obtain ⟨rfl, rfl⟩ := Prod.mk.inj hp
    have hle : ¬ NDIRECT + 1 + j ≤ NDIRECT := by omega
    have hmax : NDIRECT + 1 + j ≤ MAXFILE := by
      change 12 + 1 + j ≤ 140
      change j < 128 at hj
      omega
    have hsub : NDIRECT + 1 + j - NDIRECT - 1 = j := by omega
    rw [Function.update_self, pointer, if_pos ⟨hslot.1, hslot.2, hmax⟩, pointerOf, if_neg hle,
      hind, if_neg hne, hsub, Function.update_self, word_setWord hb]
  · rw [Function.update_of_ne hp]
    unfold pointer
    split_ifs with hs
    · unfold pointerOf
      split_ifs with hle hz
      · rfl
      · rfl
      · by_cases hsame : (inode l).addrs NDIRECT = addr
        · have hli : (l, NDIRECT) = (i, NDIRECT) := by
            apply h.inj
            · rw [haddr, ← hsame]
              simp [pointer, pointerOf, hs.1, hs.2.1]
            · simpa [pointer, pointerOf, hs.1, hs.2.1] using hz
          obtain ⟨rfl, -⟩ := Prod.mk.inj hli
          have hkj : k - NDIRECT - 1 ≠ j := by
            intro heq
            apply hp
            rw [← heq]
            congr 1
            omega
          rw [hsame, Function.update_self, word_setWord_of_ne hkj]
        · rw [Function.update_of_ne hsame]
    · rfl

end SetAddr

/-! ## Allocation -/

/-- The only error that is ruled out. -/
def NotFreeing (e : Panic) : Prop := e ≠ .freeingFree

/-- Inode `i` is allocated, locked by the caller, and every block has its one owner. -/
structure Core (sb : Superblock) (i : ℕ) (s : St) : Prop where
  owns : Owns sb.nmeta sb.size s.bitmap (s.own sb)
  locked : s.Locked i
  lt : i < sb.ninodes
  type : (s.icache i).ip.type ≠ 0

/-- What may happen to the file system while blocks are allocated to `i`. -/
structure Grows (sb : Superblock) (i : ℕ) (s t : St) : Prop where
  dinode : t.dinode = s.dinode
  icache : ∀ j, j ≠ i → t.icache j = s.icache j
  entry : t.icache i =
    { s.icache i with ip := { (s.icache i).ip with addrs := (t.icache i).ip.addrs } }
  own : ∀ p, s.own sb p ≠ 0 → t.own sb p = s.own sb p

theorem Grows.refl (i : ℕ) (s : St) : Grows sb i s s := ⟨rfl, fun _ _ => rfl, rfl, fun _ _ => rfl⟩

theorem Grows.trans {i : ℕ} {s t u : St} (h : Grows sb i s t) (k : Grows sb i t u) :
    Grows sb i s u where
  dinode := k.dinode.trans h.dinode
  icache j hj := (k.icache j hj).trans (h.icache j hj)
  entry := by
    rw [k.entry, h.entry]
  own p hp := by
    have hp' := h.own p hp
    rw [k.own p (by rwa [hp']), hp']

theorem Core.inode_type {i : ℕ} {s : St} (h : Core sb i s) : (s.inode i).type ≠ 0 := by
  rw [h.locked.inode]
  exact h.type

theorem Core.own_addrs {i k : ℕ} {s : St} (h : Core sb i s) (hk : k ≤ NDIRECT) :
    s.own sb (i, k) = (s.icache i).ip.addrs k := by
  have hmax : k ≤ MAXFILE := by
    change k ≤ 12 at hk
    change k ≤ 140
    omega
  rw [St.own, pointer, if_pos ⟨h.lt, h.inode_type, hmax⟩, pointerOf, if_pos hk, h.locked.inode]

theorem Core.own_entry {i j addr : ℕ} {s : St} (h : Core sb i s) (hj : j < NINDIRECT)
    (haddr : s.own sb (i, NDIRECT) = addr) (hne : addr ≠ 0) :
    s.own sb (i, NDIRECT + 1 + j) = (s.data addr).word j := by
  have hmax : NDIRECT + 1 + j ≤ MAXFILE := by
    change j < 128 at hj
    change 12 + 1 + j ≤ 140
    omega
  have hle : ¬ NDIRECT + 1 + j ≤ NDIRECT := by omega
  have hsub : NDIRECT + 1 + j - NDIRECT - 1 = j := by omega
  rw [h.own_addrs (Nat.le_refl _)] at haddr
  rw [St.own, pointer, if_pos ⟨h.lt, h.inode_type, hmax⟩, pointerOf, if_neg hle, h.locked.inode,
    haddr, if_neg hne, hsub]

/-- Without an indirect block there are no entries. -/
theorem Core.own_no_indirect {i k : ℕ} {s : St} (h : Core sb i s) (hk : NDIRECT < k)
    (haddr : (s.icache i).ip.addrs NDIRECT = 0) : s.own sb (i, k) = 0 := by
  have hle : ¬ k ≤ NDIRECT := by omega
  rw [St.own, pointer]
  split_ifs
  · simp only [pointerOf, hle, if_false, h.locked.inode, haddr, if_true]
  · rfl

/-- A new block: the first free one, now marked and zeroed. -/
def Allocated (s : St) (b : ℕ) : St :=
  { s with
    bitmap := Function.update s.bitmap b true
    data := Function.update s.data b (fun _ => 0) }

theorem balloc_spec (s : St) : Triple NotFreeing (· = s) (balloc sb)
    (fun b t => s.bitmap b = false ∧ b < sb.size ∧ t = Allocated s b) := by
  refine .get_bind ?_
  rintro s rfl
  cases hfind : (List.range sb.size).find? (fun b => !s.bitmap b) with
  | none => exact .throw (by simp [NotFreeing])
  | some b =>
    have hfree : s.bitmap b = false := by simpa using List.find?_some hfind
    have hlt : b < sb.size := List.mem_range.mp (List.mem_of_find?_eq_some hfind)
    rintro _ rfl
    exact ⟨hfree, hlt, rfl⟩

/-- The block takes an empty slot; `t` is the state once it is there. -/
theorem Core.attach {i k b : ℕ} {s t : St} (h : Core sb i s) (hb : s.bitmap b = false)
    (hlt : b < sb.size) (hslot : s.own sb (i, k) = 0)
    (hbitmap : t.bitmap = Function.update s.bitmap b true)
    (hown : t.own sb = Function.update (s.own sb) (i, k) b) (hdinode : t.dinode = s.dinode)
    (hicache : ∀ j, j ≠ i → t.icache j = s.icache j)
    (hentry : t.icache i =
      { s.icache i with ip := { (s.icache i).ip with addrs := (t.icache i).ip.addrs } }) :
    Core sb i t ∧ Grows sb i s t ∧ t.own sb (i, k) = b ∧ b ≠ 0 := by
  refine ⟨⟨?_, ?_, h.lt, ?_⟩, ⟨hdinode, hicache, hentry, ?_⟩, ?_, h.owns.ne_zero hb⟩
  · rw [hbitmap, hown]
    exact h.owns.attach hb hlt hslot
  · rw [St.Locked, hentry]
    exact h.locked
  · rw [hentry]
    exact h.type
  · intro p hp
    rw [hown, Function.update_of_ne]
    rintro rfl
    exact hp hslot
  · simp [hown]

theorem allocated_own {s : St} {b : ℕ} (h : Owns sb.nmeta sb.size s.bitmap (s.own sb))
    (hb : s.bitmap b = false) :
    pointer sb (Function.update s.data b (fun _ => 0)) s.inode = s.own sb :=
  pointer_update_data (fun i => h.ne_own hb (i, NDIRECT))

/-- What `addrOrAlloc` does to the slots when it allocates `b`. -/
theorem Core.own_setAddr {i k b : ℕ} {s : St} (h : Core sb i s) (hk : k ≤ NDIRECT)
    (hzero : (s.icache i).ip.addrs k = 0) (hb : s.bitmap b = false) :
    ((Allocated s b).setIp i (Dinode.setAddr k b)).own sb =
      Function.update (s.own sb) (i, k) b := by
  have hinode : ((Allocated s b).setIp i (Dinode.setAddr k b)).inode =
      Function.update s.inode i ((s.inode i).setAddr k b) := by
    rw [setIp_inode (s := Allocated s b) h.locked, h.locked.inode]
    rfl
  rw [St.own, hinode, ← allocated_own h.owns hb]
  rcases Nat.lt_or_eq_of_le hk with hk | rfl
  · exact pointer_setAddr h.lt h.inode_type hk
  · refine pointer_setIndirect h.lt h.inode_type (fun l hl => ?_) (Or.inr fun j => ?_)
    · exact (congrFun (allocated_own h.owns hb) (i, l)).trans (h.own_no_indirect hl hzero)
    · simp [Allocated, St.setIp, word_zero]

/-- The state once `entryOrAlloc` has put the new block `b` into the indirect block. -/
def Entered (s : St) (addr j b : ℕ) : St :=
  { Allocated s b with
    data := Function.update (Allocated s b).data addr (((Allocated s b).data addr).setWord j b) }

theorem Core.own_setWord {i j addr b : ℕ} {s : St} (h : Core sb i s) (hj : j < NINDIRECT)
    (haddr : s.own sb (i, NDIRECT) = addr) (hne : addr ≠ 0) (hb : s.bitmap b = false)
    (hlt : b < sb.size) :
    (Entered s addr j b).own sb = Function.update (s.own sb) (i, NDIRECT + 1 + j) b := by
  have hown := allocated_own h.owns hb
  have howns : Owns sb.nmeta sb.size s.bitmap
      (pointer sb (Function.update s.data b (fun _ => 0)) s.inode) := by
    rw [hown]
    exact h.owns
  rw [← hown]
  exact pointer_setWord howns ((congrFun hown (i, NDIRECT)).trans haddr) hne hj
    (Nat.lt_trans hlt sb.size_lt)

/-- A direct pointer or the indirect block: found, or allocated and entered in the cache. -/
theorem addrOrAlloc_spec {i k : ℕ} (hk : k ≤ NDIRECT) (s : St) (h : Core sb i s) :
    Triple NotFreeing (· = s) (addrOrAlloc sb i k) (fun addr t => Core sb i t ∧ Grows sb i s t ∧
      t.own sb (i, k) = addr ∧ addr ≠ 0 ∧ (s.own sb (i, k) ≠ 0 → t = s)) := by
  refine .get_bind ?_
  rintro s rfl
  refine .ite (fun hzero => ?_) (fun hne => ?_)
  · have hslot : s.own sb (i, k) = 0 := by rw [h.own_addrs hk, hzero]
    refine .bind (balloc_spec s) (fun b => ?_)
    rintro t ⟨hb, hlt, rfl⟩
    have hown := h.own_setAddr hk hzero hb
    obtain ⟨hcore, hgrows, hat, hb0⟩ := h.attach (t := (Allocated s b).setIp i (Dinode.setAddr k b))
      hb hlt hslot rfl hown rfl (fun j hj => by simp [St.setIp, Allocated, hj])
      (by simp [St.setIp, Allocated, Dinode.setAddr])
    exact ⟨hcore, hgrows, hat, hb0, fun hne => absurd hslot hne⟩
  · rintro t rfl
    exact ⟨h, .refl i t, h.own_addrs hk, hne, fun _ => rfl⟩

/-- An entry of the indirect block: found, or allocated and entered in the block. -/
theorem entryOrAlloc_spec {i j addr : ℕ} (hj : j < NINDIRECT) (s : St) (h : Core sb i s)
    (haddr : s.own sb (i, NDIRECT) = addr) (hne : addr ≠ 0) :
    Triple NotFreeing (· = s) (entryOrAlloc sb addr j) (fun b t => Core sb i t ∧ Grows sb i s t ∧
      t.own sb (i, NDIRECT + 1 + j) = b ∧ b ≠ 0 ∧
      (s.own sb (i, NDIRECT + 1 + j) ≠ 0 → t = s)) := by
  refine .get_bind ?_
  rintro s rfl
  have hentry := h.own_entry hj haddr hne
  refine .ite (fun hzero => ?_) (fun hword => ?_)
  · refine .bind (balloc_spec s) (fun b => ?_)
    rintro t ⟨hb, hlt, rfl⟩
    have hown := h.own_setWord hj haddr hne hb hlt
    have hslot : s.own sb (i, NDIRECT + 1 + j) = 0 := by rw [hentry, hzero]
    obtain ⟨hcore, hgrows, hat, hb0⟩ := h.attach (t := Entered s addr j b)
      hb hlt hslot rfl hown rfl (fun _ _ => rfl) rfl
    exact ⟨hcore, hgrows, hat, hb0, fun hne => absurd hslot hne⟩
  · rintro t rfl
    exact ⟨h, .refl i t, hentry, hword, fun _ => rfl⟩

/-- `bmap` returns the block of the file, and allocates only where the file has none. -/
theorem bmap_spec {i bn : ℕ} (s : St) (h : Core sb i s) :
    Triple NotFreeing (· = s) (bmap sb i bn) (fun addr t => Core sb i t ∧ Grows sb i s t ∧
      bn < MAXFILE ∧ t.own sb (i, slotOf bn) = addr ∧ addr ≠ 0 ∧
      (s.own sb (i, slotOf bn) ≠ 0 → t = s)) := by
  have hdir : NDIRECT = 12 := rfl
  have hind : NINDIRECT = 128 := rfl
  have hmax : MAXFILE = 140 := rfl
  refine .ite (fun hbn => ?_) (fun hbn => .ite (fun hbn' => ?_) (fun _ => ?_))
  · have hslot : slotOf bn = bn := if_pos hbn
    rw [hslot]
    refine (addrOrAlloc_spec (by omega) s h).weaken ?_
    rintro addr t ⟨hcore, hgrows, hat, hne, hsame⟩
    exact ⟨hcore, hgrows, by omega, hat, hne, hsame⟩
  · have hslot : slotOf bn = NDIRECT + 1 + (bn - NDIRECT) := by
      rw [slotOf, if_neg hbn]
      omega
    rw [hslot]
    refine .bind (addrOrAlloc_spec (Nat.le_refl _) s h) (fun addr => .of_eq ?_)
    rintro u ⟨hcore, hgrows, hat, hne, hsame⟩
    refine (entryOrAlloc_spec hbn' u hcore hat hne).weaken ?_
    rintro b t ⟨hcore', hgrows', hat', hne', hsame'⟩
    refine ⟨hcore', hgrows.trans hgrows', by omega, hat', hne', fun hold => ?_⟩
    have hindirect : s.own sb (i, NDIRECT) ≠ 0 := by
      intro hz
      rw [h.own_addrs (Nat.le_refl _)] at hz
      exact hold (h.own_no_indirect (by omega) hz)
    obtain rfl := hsame hindirect
    exact hsame' hold
  · exact .throw (by simp [NotFreeing])

/-! ## Reading and writing -/

section Found
variable {s : St} {i : ℕ}

theorem addrOrAlloc_found {k : ℕ} (hne : (s.icache i).ip.addrs k ≠ 0) :
    addrOrAlloc sb i k s = .ok ((s.icache i).ip.addrs k, s) := by
  change (if (s.icache i).ip.addrs k = 0 then _ else pure ((s.icache i).ip.addrs k) : Fs ℕ) s = _
  rw [if_neg hne]
  rfl

theorem entryOrAlloc_found {addr j : ℕ} (hne : (s.data addr).word j ≠ 0) :
    entryOrAlloc sb addr j s = .ok ((s.data addr).word j, s) := by
  change (if (s.data addr).word j = 0 then _ else pure ((s.data addr).word j) : Fs ℕ) s = _
  rw [if_neg hne]
  rfl

/-- `bmap` of a block that the file has. -/
theorem bmap_found {bn : ℕ} (h : Core sb i s) (hbn : bn < MAXFILE)
    (hne : s.own sb (i, slotOf bn) ≠ 0) :
    bmap sb i bn s = .ok (s.own sb (i, slotOf bn), s) := by
  change bn < 140 at hbn
  have hdir : NDIRECT = 12 := rfl
  unfold bmap
  by_cases hlt : bn < NDIRECT
  · have hslot : slotOf bn = bn := if_pos hlt
    rw [hslot, h.own_addrs (by omega)] at hne ⊢
    rw [if_pos hlt]
    exact addrOrAlloc_found hne
  · have hj : bn - NDIRECT < NINDIRECT := by
      change bn - 12 < 128
      omega
    have hslot : slotOf bn = NDIRECT + 1 + (bn - NDIRECT) := by
      rw [slotOf, if_neg hlt]
      omega
    have hind : (s.icache i).ip.addrs NDIRECT ≠ 0 := fun hz =>
      hne (by rw [hslot]; exact h.own_no_indirect (by omega) hz)
    have hentry := h.own_entry hj (h.own_addrs (Nat.le_refl _)) hind
    rw [hslot, hentry] at hne ⊢
    rw [if_neg hlt, if_pos hj]
    exact run_bind.mpr ⟨_, s, addrOrAlloc_found hind, entryOrAlloc_found hne⟩

end Found

theorem block_start_lt {off n size : ℕ} (h : off + n ≤ size) (hn : n ≠ 0) :
    off / BSIZE * BSIZE < size := by
  change off / 512 * 512 < size
  omega

/-- A chunk that `readi` or `writei` copies stays in its block. -/
theorem block_unique {off m bn : ℕ} (hm : off % BSIZE + m ≤ BSIZE) (hbn : bn * BSIZE < off + m)
    (hold : ¬ bn * BSIZE < off) : bn = off / BSIZE := by
  change off % 512 + m ≤ 512 at hm
  change bn * 512 < off + m at hbn
  change ¬ bn * 512 < off at hold
  change bn = off / 512
  omega

/-- The first `len` bytes of the file lie in allocated blocks. -/
def Covered (sb : Superblock) (s : St) (i len : ℕ) : Prop :=
  ∀ bn, bn * BSIZE < len → bn < MAXFILE ∧ s.own sb (i, slotOf bn) ≠ 0

theorem Grows.covered {i j len : ℕ} {s t : St} (h : Grows sb i s t) (hs : Covered sb s j len) :
    Covered sb t j len := by
  intro bn hbn
  obtain ⟨hlt, hne⟩ := hs bn hbn
  exact ⟨hlt, by rwa [h.own _ hne]⟩

/-- Reading below the size of a file without holes allocates nothing. -/
theorem readLoop_spec {i fuel off n size : ℕ} (s : St) (h : Core sb i s)
    (hcov : Covered sb s i size) (hle : off + n ≤ size) :
    Triple NotFreeing (· = s) (readLoop sb i fuel off n) (fun _ t => t = s) := by
  induction fuel generalizing off n with
  | zero => exact .pure (fun _ h => h)
  | succ fuel ih =>
    refine .ite (fun _ => .pure (fun _ h => h)) (fun hn => ?_)
    have hbn := block_start_lt hle hn
    refine .bind (bmap_spec s h) (fun addr => ?_)
    refine Triple.conseq (P := (· = s)) ?_ (fun t ht => ht.2.2.2.2.2 (hcov _ hbn).2)
      (fun _ _ => id)
    refine .get_bind ?_
    rintro s rfl
    have hnext : ∀ m, m = min n (BSIZE - off % BSIZE) → off + m + (n - m) ≤ size := by omega
    exact .bind (ih (hnext _ rfl)) (fun rest => .pure (fun _ h => h))

/-- Writing to a block of the file's own data moves no pointer. -/
theorem own_store {i k addr : ℕ} {s : St} {v : Block} (h : Owns sb.nmeta sb.size s.bitmap (s.own sb))
    (haddr : s.own sb (i, k) = addr) (hne : addr ≠ 0) (hk : k ≠ NDIRECT) :
    St.own sb { s with data := Function.update s.data addr v } = s.own sb := by
  refine pointer_update_data (fun l hl => ?_)
  have heq := h.inj (i, k) (l, NDIRECT) (haddr.trans hl.symm) (by rwa [haddr])
  exact hk (Prod.mk.inj heq).2

theorem slotOf_ne (bn : ℕ) : slotOf bn ≠ NDIRECT := by
  unfold slotOf
  split_ifs with h <;> omega

/-- While `writei` runs: the blocks up to `off` are there, and the cached inode is still the one
on disk unless the file is going to grow. -/
structure Writing (sb : Superblock) (i : ℕ) (s : St) (off : ℕ) (t : St) : Prop where
  core : Core sb i t
  grows : Grows sb i s t
  covered : Covered sb t i off
  same : off ≤ (s.icache i).ip.size → t.icache i = s.icache i

theorem writeLoop_spec {i fuel off : ℕ} {src : List UInt8} {s : St}
    (hcov : Covered sb s i (s.icache i).ip.size) (hfuel : src.length ≤ fuel) (t : St)
    (h : Writing sb i s off t) :
    Triple NotFreeing (· = t) (writeLoop sb i fuel off src)
      (fun _ u => Writing sb i s (off + src.length) u) := by
  induction fuel generalizing off src t with
  | zero =>
    refine .pure ?_
    rintro _ rfl
    have h0 : src.length = 0 := by omega
    simpa [h0] using h
  | succ fuel ih =>
    refine .ite (fun h0 => .pure ?_) (fun hn => ?_)
    · rintro _ rfl
      simpa [h0] using h
    refine .bind (bmap_spec t h.core) (fun addr => .of_eq ?_)
    rintro u ⟨hcore, hgrows, hlt, hat, hne, hsame⟩
    have hB : BSIZE = 512 := rfl
    generalize hm : min src.length (BSIZE - off % BSIZE) = m
    have hm0 : 0 < m ∧ m ≤ src.length ∧ off % BSIZE + m ≤ BSIZE := by
      have := Nat.mod_lt off (show 0 < BSIZE by decide)
      omega
    -- the block is there, and writing to it moves no pointer
    have hown : ∀ v, St.own sb { u with data := Function.update u.data addr v } = u.own sb :=
      fun v => own_store hcore.owns hat hne (slotOf_ne _)
    have hwriting : ∀ v, Writing sb i s (off + m)
        { u with data := Function.update u.data addr v } := by
      intro v
      refine ⟨⟨?_, hcore.locked, hcore.lt, hcore.type⟩, ?_, ?_, ?_⟩
      · rw [hown]
        exact hcore.owns
      · have := h.grows.trans hgrows
        refine ⟨this.dinode, this.icache, this.entry, ?_⟩
        rw [hown]
        exact this.own
      · intro bn hbn
        rw [hown]
        by_cases hold : bn * BSIZE < off
        · exact hgrows.covered h.covered bn hold
        · obtain rfl := block_unique hm0.2.2 hbn hold
          exact ⟨hlt, by rwa [hat]⟩
      · intro hle
        have hbn := block_start_lt hle (by omega)
        have hold : t.own sb (i, slotOf (off / BSIZE)) ≠ 0 := by
          have := (hcov _ hbn).2
          rwa [h.grows.own _ this]
        obtain rfl := hsame hold
        exact h.same (by omega)
    refine .bind (Q := fun _ => Writing sb i s (off + m)) (.update ?_) (fun _ => .of_eq ?_)
    · rintro _ rfl
      exact hwriting _
    · intro w hw
      have hlen : off + m + (src.drop m).length = off + src.length := by
        rw [List.length_drop]
        omega
      rw [← hlen]
      exact ih (by rw [List.length_drop]; omega) w hw

end Ostep.FsBlocks

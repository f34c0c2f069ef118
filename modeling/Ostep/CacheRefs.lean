import Ostep.BlockFrames
import Ostep.PathCalls

/-!
# References to the slots of the inode cache

The slots in use hold different inodes, and a reference count is made up of the standing
references, which files and current directories hold, and those that a call holds on to. By
inode number the slots are the cache of the block layer, so what it keeps is kept here. Where
every inode without a standing reference is free or has a link, dropping a reference that a call
took does not touch the disk.
-/

namespace Ostep.InodeCache
open Hoare
open FsBlocks (Dinode Block Superblock Inv entryOf entryFor T_DIR direntOffs)

variable {sb : Superblock} {s t u : St} {k l : Slot} {B : Slot → ℕ} {L : List Slot}

def Unique (s : St) : Prop :=
  ∀ k l, 0 < (s.icache k).ref → 0 < (s.icache l).ref → (s.icache k).inum = (s.icache l).inum → k = l

/-- The cache by inode number. -/
def St.blocks (s : St) : FsBlocks.St := ⟨s.bitmap, s.data, s.dinode, s.cached⟩

def St.disk (s : St) : (ℕ → Bool) × (ℕ → Block) × (ℕ → Dinode) := (s.bitmap, s.data, s.dinode)

structure Cached (sb : Superblock) (s : St) : Prop where
  dev : ∀ k, 0 < (s.icache k).ref → (s.icache k).dev = ROOTDEV
  lt : ∀ k, 0 < (s.icache k).ref → (s.icache k).inum < sb.wide.ninodes
  unique : Unique s
  inv : Inv sb.wide s.blocks

/-- `B` counts the standing references, `L` lists those that a call holds. -/
structure Good (sb : Superblock) (B : Slot → ℕ) (L : List Slot) (s : St) : Prop
    extends Cached sb s where
  ref : ∀ k, (s.icache k).ref = B k + L.count k

@[simp] theorem setEntry_self (f : Entry → Entry) : (s.setEntry k f).icache k = f (s.icache k) :=
  Function.update_self ..

theorem setEntry_ne (h : l ≠ k) (f : Entry → Entry) : (s.setEntry k f).icache l = s.icache l :=
  Function.update_of_ne h ..

@[simp] theorem setEntry_disk (f : Entry → Entry) : (s.setEntry k f).disk = s.disk := rfl

/-! ## The cache by inode number -/

theorem cached_eq (hu : Unique s) (hk : 0 < (s.icache k).ref) :
    s.cached (s.icache k).inum = (s.icache k).toInode := by
  rw [St.cached]
  split
  · rename_i l hl
    have hl := List.find?_some hl
    simp only [decide_eq_true_eq] at hl
    rw [hu l k hl.1 hk hl.2]
  · rename_i hnone
    have := List.find?_eq_none.mp hnone k (List.mem_finRange k)
    simp [hk] at this

theorem cached_none {i : ℕ} (h : ∀ k, 0 < (s.icache k).ref → (s.icache k).inum ≠ i) :
    s.cached i = ⟨0, false, Dinode.zero⟩ := by
  rw [St.cached]
  split
  · rename_i l hl
    have hl := List.find?_some hl
    simp only [decide_eq_true_eq] at hl
    exact absurd hl.2 (h l hl.1)
  · rfl

/-- A locked inode is in a slot. -/
theorem slot_of_locked (hu : Unique s) {i : ℕ} (h : s.blocks.Locked i) :
    ∃ k, 0 < (s.icache k).ref ∧ (s.icache k).inum = i ∧ (s.icache k).valid = true ∧
      (s.blocks.icache i).ip = (s.icache k).ip := by
  by_cases hi : ∃ k, 0 < (s.icache k).ref ∧ (s.icache k).inum = i
  · obtain ⟨k, hk, rfl⟩ := hi
    have heq : s.blocks.icache (s.icache k).inum = (s.icache k).toInode := cached_eq hu hk
    rw [FsBlocks.St.Locked, heq] at h
    exact ⟨k, hk, rfl, h.2, by rw [heq]⟩
  · have hnone : s.blocks.icache i = ⟨0, false, Dinode.zero⟩ :=
      cached_none fun k hk heq => hi ⟨k, hk, heq⟩
    have := h.1
    simp [hnone] at this

theorem locked_of_slot (hu : Unique s) (hk : 0 < (s.icache k).ref)
    (hv : (s.icache k).valid = true) : s.blocks.Locked (s.icache k).inum := by
  have heq : s.blocks.icache (s.icache k).inum = (s.icache k).toInode := cached_eq hu hk
  rw [FsBlocks.St.Locked, heq]
  exact ⟨hk, hv⟩

/-- A valid slot agrees with the disk. -/
theorem Cached.ip (h : Cached sb s) (hk : 0 < (s.icache k).ref) (hv : (s.icache k).valid = true) :
    (s.icache k).ip = s.dinode (s.icache k).inum ∧ (s.dinode (s.icache k).inum).type ≠ 0 := by
  obtain ⟨hip, htype, -⟩ := h.inv.synced _ (locked_of_slot h.unique hk hv)
  have heq : s.blocks.icache (s.icache k).inum = (s.icache k).toInode := cached_eq h.unique hk
  rw [heq] at hip
  exact ⟨hip, htype⟩

/-- A step on slots alone, after which the valid slots are old ones. -/
theorem Cached.slots (h : Cached sb s) (hdisk : t.disk = s.disk) (hu : Unique t)
    (hlive : ∀ k, 0 < (t.icache k).ref → (t.icache k).dev = ROOTDEV ∧
      (t.icache k).inum < sb.wide.ninodes)
    (hvalid : ∀ k, 0 < (t.icache k).ref → (t.icache k).valid = true → 0 < (s.icache k).ref ∧
      (s.icache k).valid = true ∧ (t.icache k).inum = (s.icache k).inum ∧
      (t.icache k).ip = (s.icache k).ip) : Cached sb t := by
  obtain ⟨hbitmap, hdata, hdinode⟩ : t.bitmap = s.bitmap ∧ t.data = s.data ∧
      t.dinode = s.dinode := by simpa [St.disk] using hdisk
  refine ⟨fun k hk => (hlive k hk).1, fun k hk => (hlive k hk).2, hu, ?_⟩
  refine h.inv.cache hbitmap hdata hdinode fun i hi => ?_
  obtain ⟨k, hk, rfl, hv, hip⟩ := slot_of_locked hu hi
  obtain ⟨hk', hv', hinum, heq⟩ := hvalid k hk hv
  obtain ⟨hsync, htype⟩ := h.ip hk' hv'
  rw [hip, heq, hsync, hinum]
  exact ⟨rfl, htype, h.lt k hk'⟩

/-- A change of one slot that leaves its inode alone. -/
theorem Cached.setEntry (h : Cached sb s) {f : Entry → Entry}
    (hf : (f (s.icache k)).inum = (s.icache k).inum ∧ (f (s.icache k)).dev = (s.icache k).dev ∧
      (f (s.icache k)).valid = (s.icache k).valid ∧ (f (s.icache k)).ip = (s.icache k).ip)
    (href : 0 < (f (s.icache k)).ref → 0 < (s.icache k).ref) : Cached sb (s.setEntry k f) := by
  obtain ⟨hinum, hdev, hvalid, hip⟩ := hf
  have hlive : ∀ l, 0 < ((s.setEntry k f).icache l).ref → 0 < (s.icache l).ref := by
    intro l hl
    by_cases hlk : l = k
    · subst hlk
      rw [setEntry_self] at hl
      exact href hl
    · rwa [setEntry_ne hlk] at hl
  have hfields : ∀ l, ((s.setEntry k f).icache l).inum = (s.icache l).inum ∧
      ((s.setEntry k f).icache l).dev = (s.icache l).dev ∧
      ((s.setEntry k f).icache l).valid = (s.icache l).valid ∧
      ((s.setEntry k f).icache l).ip = (s.icache l).ip := by
    intro l
    by_cases hlk : l = k
    · subst hlk
      rw [setEntry_self]
      exact ⟨hinum, hdev, hvalid, hip⟩
    · rw [setEntry_ne hlk]
      exact ⟨rfl, rfl, rfl, rfl⟩
  refine h.slots rfl (fun a b ha hb hab => ?_) (fun l hl => ?_) (fun l hl hv => ?_)
  · rw [(hfields a).1, (hfields b).1] at hab
    exact h.unique a b (hlive a ha) (hlive b hb) hab
  · rw [(hfields l).1, (hfields l).2.1]
    exact ⟨h.dev l (hlive l hl), h.lt l (hlive l hl)⟩
  · rw [(hfields l).2.2.1] at hv
    exact ⟨hlive l hl, hv, (hfields l).1, (hfields l).2.2.2⟩

/-- The block layer works on the inode of one slot. -/
theorem view_eq (hu : Unique s) (hk : 0 < (s.icache k).ref) : s.view k = s.blocks := by
  rw [St.view, St.blocks]
  congr 1
  funext i
  split_ifs with hi
  · rw [hi, cached_eq hu hk]
  · rfl

theorem onInode_run {α : Type} {m : ℕ → FsBlocks.Fs α} {a : α} (hu : Unique s)
    (hk : 0 < (s.icache k).ref) (h : onInode k m s = .ok (a, t)) :
    ∃ u, m (s.icache k).inum s.blocks = .ok (a, u) ∧ t = s.restore k u := by
  rw [onInode, view_eq hu hk] at h
  split at h
  · rename_i a' u hm
    obtain ⟨rfl, rfl⟩ : a' = a ∧ s.restore k u = t := by simpa using h
    exact ⟨u, hm, rfl⟩
  · cases h

section Restore
variable {v : FsBlocks.St}

theorem restore_self : (s.restore k v).icache k =
    { s.icache k with toInode := v.icache (s.icache k).inum } :=
  Function.update_self ..

theorem restore_ne (h : l ≠ k) : (s.restore k v).icache l = s.icache l :=
  Function.update_of_ne h ..

theorem restore_inum (l : Slot) : ((s.restore k v).icache l).inum = (s.icache l).inum := by
  by_cases h : l = k
  · rw [h, restore_self]
  · rw [restore_ne h]

theorem restore_dev (l : Slot) : ((s.restore k v).icache l).dev = (s.icache l).dev := by
  by_cases h : l = k
  · rw [h, restore_self]
  · rw [restore_ne h]

theorem restore_ref (href : (v.icache (s.icache k).inum).ref = (s.icache k).ref) (l : Slot) :
    ((s.restore k v).icache l).ref = (s.icache l).ref := by
  by_cases h : l = k
  · rw [h, restore_self]
    exact href
  · rw [restore_ne h]

theorem restore_blocks (hu : Unique s) (hk : 0 < (s.icache k).ref)
    (hother : ∀ i, i ≠ (s.icache k).inum → v.icache i = s.cached i)
    (href : (v.icache (s.icache k).inum).ref = (s.icache k).ref) :
    Unique (s.restore k v) ∧ (s.restore k v).blocks = v := by
  have hunique : Unique (s.restore k v) := by
    intro a b ha hb hab
    rw [restore_ref href] at ha hb
    rw [restore_inum, restore_inum] at hab
    exact hu a b ha hb hab
  refine ⟨hunique, ?_⟩
  have hcached : (s.restore k v).cached = v.icache := by
    funext i
    by_cases hi : ∃ l, 0 < (s.icache l).ref ∧ (s.icache l).inum = i
    · obtain ⟨l, hl, rfl⟩ := hi
      have heq := cached_eq hunique (k := l) (by rwa [restore_ref href])
      rw [restore_inum] at heq
      rw [heq]
      by_cases hlk : l = k
      · rw [hlk, restore_self]
      · rw [restore_ne hlk, hother _ fun hi => hlk (hu l k hl hk hi), cached_eq hu hl]
    · have hne : ∀ l, 0 < (s.icache l).ref → (s.icache l).inum ≠ i := fun l hl heq => hi ⟨l, hl, heq⟩
      rw [hother i fun heq => hne k hk heq.symm, cached_none hne, cached_none]
      intro l hl
      rw [restore_ref href] at hl
      rw [restore_inum]
      exact hne l hl
  rw [St.blocks, hcached]
  rfl

/-- Nothing changed. -/
theorem restore_blocks_self (hu : Unique s) (hk : 0 < (s.icache k).ref) :
    s.restore k s.blocks = s := by
  have : Function.update s.icache k { s.icache k with
      toInode := s.cached (s.icache k).inum } = s.icache := by
    rw [cached_eq hu hk]
    exact Function.update_eq_self k s.icache
  rw [St.restore]
  change St.mk s.bitmap s.data s.dinode (Function.update s.icache k _) = s
  rw [show s.blocks.icache = s.cached from rfl, this]

theorem Good.restore (h : Good sb B L s) (hk : 0 < (s.icache k).ref) (hv : Inv sb.wide v)
    (hother : ∀ i, i ≠ (s.icache k).inum → v.icache i = s.cached i)
    (href : (v.icache (s.icache k).inum).ref = (s.icache k).ref) : Good sb B L (s.restore k v) := by
  obtain ⟨hunique, hblocks⟩ := restore_blocks h.unique hk hother href
  refine ⟨⟨fun l hl => ?_, fun l hl => ?_, hunique, by rwa [hblocks]⟩, fun l => ?_⟩
  · rw [restore_ref href] at hl
    rw [restore_dev]
    exact h.dev l hl
  · rw [restore_ref href] at hl
    rw [restore_inum]
    exact h.lt l hl
  · rw [restore_ref href]
    exact h.ref l

end Restore

/-! ## Standing references -/

/-- The slots with a standing reference keep their inode, and stay valid. -/
def Stay (B : Slot → ℕ) (s t : St) : Prop :=
  ∀ k, 0 < B k → (t.icache k).inum = (s.icache k).inum ∧
    ((s.icache k).valid = true → (t.icache k).valid = true)

/-- An inode that no standing reference has valid in the cache is free or has a link. -/
structure Anchored (B : Slot → ℕ) (s : St) : Prop where
  linked : ∀ i, (∀ k, (s.icache k).inum = i → 0 < B k → (s.icache k).valid = false) →
    (s.dinode i).type = 0 ∨ (s.dinode i).nlink ≠ 0
  inRange : ∀ i, short (s.dinode i).nlink = (s.dinode i).nlink

/-- One more standing reference. -/
def plus (B : Slot → ℕ) (k : Slot) (l : Slot) : ℕ := B l + [k].count l

theorem plus_self (B : Slot → ℕ) (k : Slot) : plus B k k = B k + 1 := by simp [plus]

theorem plus_ne (B : Slot → ℕ) (h : l ≠ k) : plus B k l = B l := by
  simp [plus, Ne.symm h]

theorem le_plus (B : Slot → ℕ) (k l : Slot) : B l ≤ plus B k l := Nat.le_add_right ..

theorem Stay.refl (B : Slot → ℕ) (s : St) : Stay B s s := fun _ _ => ⟨rfl, id⟩

theorem Stay.trans (h : Stay B s t) (h' : Stay B t u) : Stay B s u := fun k hk =>
  ⟨(h' k hk).1.trans (h k hk).1, fun hv => (h' k hk).2 ((h k hk).2 hv)⟩

theorem Stay.mono {B' : Slot → ℕ} (h : Stay B' s t) (hB : ∀ k, B k ≤ B' k) : Stay B s t :=
  fun k hk => h k (Nat.lt_of_lt_of_le hk (hB k))

theorem Anchored.stay (h : Anchored B s) (hstay : Stay B s t)
    (hdinode : ∀ i, (t.dinode i).type = (s.dinode i).type ∧ (t.dinode i).nlink = (s.dinode i).nlink) :
    Anchored B t := by
  refine ⟨fun i hi => ?_, fun i => by rw [(hdinode i).2, h.inRange]⟩
  rw [(hdinode i).1, (hdinode i).2]
  refine h.linked i fun k hk hB => ?_
  have ht := hi k ((hstay k hB).1.trans hk) hB
  by_contra hv
  rw [(hstay k hB).2 (by simpa using hv)] at ht
  cases ht

theorem Anchored.mono {B' : Slot → ℕ} (h : Anchored B s) (hB : ∀ k, B k ≤ B' k) : Anchored B' s :=
  ⟨fun i hi => h.linked i fun k hk hpos => hi k hk (Nat.lt_of_lt_of_le hpos (hB k)), h.inRange⟩

theorem Anchored.disk (h : Anchored B s) (hstay : Stay B s t) (hdisk : t.disk = s.disk) :
    Anchored B t := by
  have hdinode : t.dinode = s.dinode := congrArg (fun d => d.2.2) hdisk
  exact h.stay hstay fun i => by rw [hdinode]; exact ⟨rfl, rfl⟩

/-- A standing reference becomes one of the call's, and the other way. -/
theorem good_plus : Good sb (plus B k) L s ↔ Good sb B (k :: L) s := by
  have hcount : ∀ l, plus B k l + L.count l = B l + (k :: L).count l := by
    intro l
    rw [plus, List.count_singleton, List.count_cons]
    omega
  exact ⟨fun h => ⟨h.toCached, fun l => by rw [h.ref, hcount]⟩,
    fun h => ⟨h.toCached, fun l => by rw [h.ref, hcount]⟩⟩

theorem Good.perm {L' : List Slot} (h : Good sb B L s) (hL : L.Perm L') : Good sb B L' s :=
  ⟨h.toCached, fun k => by rw [h.ref, hL.count_eq]⟩

theorem Good.congr {B' : Slot → ℕ} {L' : List Slot} (h : Good sb B L s)
    (heq : ∀ k, B' k + L'.count k = B k + L.count k) : Good sb B' L' s :=
  ⟨h.toCached, fun k => by rw [h.ref, heq]⟩

theorem Good.held (h : Good sb B (k :: L) s) : 0 < (s.icache k).ref := by
  rw [h.ref, List.count_cons_self]
  omega

theorem Good.standing (h : Good sb B L s) (hk : 0 < B k) : 0 < (s.icache k).ref := by
  rw [h.ref]
  omega

theorem Good.mem (h : Good sb B L s) (hk : k ∈ L) : 0 < (s.icache k).ref := by
  have := List.count_pos_iff.mpr hk
  rw [h.ref]
  omega

/-- What a function does that changes nothing where everything is anchored. -/
def Quiet (B : Slot → ℕ) (s t : St) : Prop := Stay B s t ∧ (Anchored B s → t.disk = s.disk)

theorem Quiet.refl (B : Slot → ℕ) (s : St) : Quiet B s s := ⟨.refl B s, fun _ => rfl⟩

theorem Quiet.trans (h : Quiet B s t) (h' : Quiet B t u) : Quiet B s u :=
  ⟨h.1.trans h'.1, fun ha => (h'.2 (ha.disk h.1 (h.2 ha))).trans (h.2 ha)⟩

theorem Quiet.anchored (h : Quiet B s t) (ha : Anchored B s) : Anchored B t := ha.disk h.1 (h.2 ha)

/-! ## Taking and dropping references -/

theorem iget_spec (h : Good sb B L s) {i : ℕ} (hi : i < sb.wide.ninodes)
    (hr : iget ROOTDEV i s = .ok (k, t)) :
    Good sb B (k :: L) t ∧ t.disk = s.disk ∧ (t.icache k).inum = i ∧
      ∀ l, 0 < (s.icache l).ref → (t.icache l).inum = (s.icache l).inum ∧
        (t.icache l).valid = (s.icache l).valid := by
  rw [iget, run_get_bind] at hr
  rcases hfind : (List.finRange NINODE).find? (fun k => 0 < (s.icache k).ref ∧
      (s.icache k).dev = ROOTDEV ∧ (s.icache k).inum = i) with _ | k'
  case some =>
    rw [hfind] at hr
    obtain ⟨_, u, hset, hr⟩ := run_bind.mp hr
    obtain rfl := run_modify.mp hset
    obtain ⟨rfl, rfl⟩ := run_pure.mp hr
    have hk := List.find?_some hfind
    simp only [decide_eq_true_eq] at hk
    refine ⟨⟨h.toCached.setEntry ⟨rfl, rfl, rfl, rfl⟩ fun _ => hk.1, fun l => ?_⟩, rfl, ?_,
      fun l _ => ?_⟩
    · by_cases hl : l = k'
      · subst hl
        rw [setEntry_self, List.count_cons_self]
        have := h.ref l
        simp only
        omega
      · rw [setEntry_ne hl, List.count_cons_of_ne (Ne.symm hl)]
        exact h.ref l
    · rw [setEntry_self]
      exact hk.2.2
    · by_cases hl : l = k'
      · subst hl
        rw [setEntry_self]
        exact ⟨rfl, rfl⟩
      · rw [setEntry_ne hl]
        exact ⟨rfl, rfl⟩
  case none =>
    rw [hfind] at hr
    rcases hempty : (List.finRange NINODE).find? (fun k => (s.icache k).ref = 0) with _ | k'
    case none =>
      rw [hempty] at hr
      exact (run_throw.mp hr).elim
    case some =>
      rw [hempty] at hr
      obtain ⟨_, u, hset, hr⟩ := run_bind.mp hr
      obtain rfl := run_modify.mp hset
      obtain ⟨rfl, rfl⟩ := run_pure.mp hr
      have hfree : (s.icache k').ref = 0 := by simpa using List.find?_some hempty
      -- no slot in use holds the inode
      have habsent : ∀ l, 0 < (s.icache l).ref → (s.icache l).inum ≠ i := by
        intro l hl heq
        have := List.find?_eq_none.mp hfind l (List.mem_finRange l)
        simp [hl, h.dev l hl, heq] at this
      have hne : ∀ l, 0 < (s.icache l).ref → l ≠ k' := by
        rintro l hl rfl
        omega
      refine ⟨⟨h.toCached.slots rfl ?_ ?_ ?_, fun l => ?_⟩, rfl, ?_, fun l hl => ?_⟩
      · intro a b ha hb hab
        by_cases hak : a = k' <;> by_cases hbk : b = k'
        · rw [hak, hbk]
        · subst hak
          rw [setEntry_ne hbk] at hb hab
          rw [setEntry_self] at hab
          exact absurd hab.symm (habsent b hb)
        · subst hbk
          rw [setEntry_ne hak] at ha hab
          rw [setEntry_self] at hab
          exact absurd hab (habsent a ha)
        · rw [setEntry_ne hak] at ha hab
          rw [setEntry_ne hbk] at hb hab
          exact h.unique a b ha hb hab
      · intro l hl
        by_cases hlk : l = k'
        · subst hlk
          rw [setEntry_self]
          exact ⟨rfl, hi⟩
        · rw [setEntry_ne hlk] at hl ⊢
          exact ⟨h.dev l hl, h.lt l hl⟩
      · intro l hl hv
        by_cases hlk : l = k'
        · subst hlk
          rw [setEntry_self] at hv
          cases hv
        · rw [setEntry_ne hlk] at hl hv ⊢
          exact ⟨hl, hv, rfl, rfl⟩
      · by_cases hl : l = k'
        · subst hl
          rw [setEntry_self, List.count_cons_self]
          have := h.ref l
          simp only
          omega
        · rw [setEntry_ne hl, List.count_cons_of_ne (Ne.symm hl)]
          exact h.ref l
      · rw [setEntry_self]
      · rw [setEntry_ne (hne l hl)]
        exact ⟨rfl, rfl⟩

theorem iget_quiet (h : Good sb B L s) {i : ℕ} (hi : i < sb.wide.ninodes)
    (hr : iget ROOTDEV i s = .ok (k, t)) :
    Good sb B (k :: L) t ∧ Quiet B s t ∧ t.disk = s.disk ∧ (t.icache k).inum = i := by
  obtain ⟨hgood, hdisk, hinum, hsame⟩ := iget_spec h hi hr
  refine ⟨hgood, ⟨fun l hl => ?_, fun _ => hdisk⟩, hdisk, hinum⟩
  obtain ⟨h1, h2⟩ := hsame l (h.standing hl)
  exact ⟨h1, fun hv => by rw [h2, hv]⟩

/-- A change of the lock or the count of a slot. -/
theorem stay_setEntry {f : Entry → Entry} (hinum : (f (s.icache k)).inum = (s.icache k).inum)
    (hvalid : (f (s.icache k)).valid = (s.icache k).valid) : Stay B s (s.setEntry k f) := by
  intro l _
  by_cases hl : l = k
  · subst hl
    rw [setEntry_self]
    exact ⟨hinum, fun hv => by rw [hvalid, hv]⟩
  · rw [setEntry_ne hl]
    exact ⟨rfl, id⟩

theorem idup_spec (h : Good sb B L s) (hk : 0 < (s.icache k).ref) {a : Unit}
    (hr : idup k s = .ok (a, t)) : Good sb B (k :: L) t ∧ Quiet B s t ∧ t.disk = s.disk ∧
      (t.icache k).inum = (s.icache k).inum := by
  obtain rfl := run_modify.mp hr
  refine ⟨⟨h.toCached.setEntry ⟨rfl, rfl, rfl, rfl⟩ fun _ => hk, fun l => ?_⟩,
    ⟨stay_setEntry rfl rfl, fun _ => rfl⟩, rfl, by rw [setEntry_self]⟩
  by_cases hl : l = k
  · subst hl
    rw [setEntry_self, List.count_cons_self]
    have := h.ref l
    simp only
    omega
  · rw [setEntry_ne hl, List.count_cons_of_ne (Ne.symm hl)]
    exact h.ref l

/-! ## Locks -/

/-- The slots keep their inodes, and stay valid. -/
def Holds (s t : St) : Prop := ∀ l, (t.icache l).inum = (s.icache l).inum ∧
  ((s.icache l).valid = true → (t.icache l).valid = true)

theorem Holds.stay (h : Holds s t) (B : Slot → ℕ) : Stay B s t := fun l _ => h l

theorem Holds.trans (h : Holds s t) (h' : Holds t u) : Holds s u := fun l =>
  ⟨(h' l).1.trans (h l).1, fun hv => (h' l).2 ((h l).2 hv)⟩

theorem Good.lock (h : Good sb B L s) (k : Slot) (b : Bool) :
    Good sb B L (s.setEntry k (fun e => { e with lock := b })) := by
  refine ⟨h.toCached.setEntry ⟨rfl, rfl, rfl, rfl⟩ id, fun l => ?_⟩
  by_cases hl : l = k
  · subst hl
    rw [setEntry_self]
    exact h.ref l
  · rw [setEntry_ne hl]
    exact h.ref l

theorem holds_lock (s : St) (k : Slot) (b : Bool) :
    Holds s (s.setEntry k (fun e => { e with lock := b })) := by
  intro l
  by_cases hl : l = k
  · subst hl
    rw [setEntry_self]
    exact ⟨rfl, id⟩
  · rw [setEntry_ne hl]
    exact ⟨rfl, id⟩

theorem acquiresleep_run {a : Unit} (hr : acquiresleep k s = .ok (a, t)) :
    t = s.setEntry k (fun e => { e with lock := true }) := by
  rw [acquiresleep, run_get_bind] at hr
  rcases run_ite.mp hr with ⟨-, hr⟩ | ⟨-, hr⟩
  · exact (run_throw.mp hr).elim
  · exact (run_modify.mp hr).symm

theorem ilock_spec (h : Good sb B L s) {a : Unit} (hr : ilock k s = .ok (a, t)) :
    Good sb B L t ∧ Holds s t ∧ t.disk = s.disk ∧ (t.icache k).valid = true := by
  rw [ilock, run_get_bind] at hr
  rcases run_ite.mp hr with ⟨-, hr⟩ | ⟨href, hr⟩
  · exact (run_throw.mp hr).elim
  obtain ⟨_, u, hacq, hr⟩ := run_bind.mp hr
  obtain rfl := acquiresleep_run hacq
  have hgood := h.lock k true
  have hk : 0 < ((s.setEntry k (fun e => { e with lock := true })).icache k).ref := by
    rw [setEntry_self]
    simp only
    omega
  obtain ⟨v, hload, rfl⟩ := onInode_run hgood.unique hk hr
  obtain ⟨hbitmap, hdata, hdinode, hother, hrefk, hvalid⟩ := FsBlocks.ilock_run hload
  have hinv := (FsBlocks.ilock_spec hgood.inv (hgood.lt k hk)).ok rfl hload
  have heq := cached_eq hgood.unique hk
  refine ⟨hgood.restore hk hinv hother (hrefk.trans ?_), (holds_lock s k true).trans ?_, ?_, ?_⟩
  · change (St.cached _ _).ref = _
    rw [heq]
  · intro l
    by_cases hl : l = k
    · subst hl
      rw [restore_self]
      exact ⟨rfl, fun _ => hvalid⟩
    · rw [restore_ne hl]
      exact ⟨rfl, id⟩
  · rw [St.disk, St.disk]
    change (v.bitmap, v.data, v.dinode) = _
    rw [hbitmap, hdata, hdinode]
    rfl
  · rw [restore_self]
    exact hvalid

theorem ilock_live (h : Good sb B L s) {a : Unit} (hr : ilock k s = .ok (a, t)) :
    0 < (t.icache k).ref := by
  rw [(ilock_spec h hr).1.ref, ← h.ref]
  rw [ilock, run_get_bind] at hr
  rcases run_ite.mp hr with ⟨-, hr⟩ | ⟨href, -⟩
  · exact (run_throw.mp hr).elim
  · omega

theorem ilock_quiet (h : Good sb B L s) {a : Unit} (hr : ilock k s = .ok (a, t)) :
    Good sb B L t ∧ Quiet B s t ∧ (t.icache k).valid = true := by
  obtain ⟨hgood, hholds, hdisk, hvalid⟩ := ilock_spec h hr
  exact ⟨hgood, ⟨hholds.stay B, fun _ => hdisk⟩, hvalid⟩

theorem iunlock_spec (h : Good sb B L s) {a : Unit} (hr : iunlock k s = .ok (a, t)) :
    Good sb B L t ∧ Holds s t ∧ t.disk = s.disk := by
  rw [iunlock, run_get_bind] at hr
  rcases run_ite.mp hr with ⟨-, hr⟩ | ⟨-, hr⟩
  · exact (run_throw.mp hr).elim
  · obtain rfl := run_modify.mp hr
    exact ⟨h.lock k false, holds_lock s k false, rfl⟩

/-! ## Dropping a reference -/

theorem iput_run (h : Good sb B (k :: L) s) {a : Unit} (hr : iput k s = .ok (a, t)) :
    Good sb B L t ∧ (t.icache k).inum = (s.icache k).inum ∧
    (∀ l, l ≠ k → t.icache l = s.icache l) ∧
    if (s.icache k).valid ∧ (s.icache k).ip.nlink = 0 ∧ (s.icache k).ref = 1
      then (t.dinode (s.icache k).inum).type = 0 ∧ (t.dinode (s.icache k).inum).nlink = 0 ∧
        ∀ i, i ≠ (s.icache k).inum → t.dinode i = s.dinode i
      else t.disk = s.disk ∧ (t.icache k).valid = (s.icache k).valid := by
  obtain ⟨_, u, hacq, hr⟩ := run_bind.mp hr
  obtain rfl := acquiresleep_run hacq
  obtain ⟨_, w, hon, hr⟩ := run_bind.mp hr
  obtain ⟨_, x, hrel, hdrop⟩ := run_bind.mp hr
  obtain rfl := run_modify.mp hrel
  obtain rfl := run_modify.mp hdrop
  set s₁ := s.setEntry k (fun e => { e with lock := true }) with hs₁
  have hgood : Good sb B (k :: L) s₁ := h.lock k true
  have hself : s₁.icache k = { s.icache k with lock := true } := setEntry_self _
  have hk : 0 < (s₁.icache k).ref := hgood.held
  obtain ⟨v, hlast, rfl⟩ := onInode_run hgood.unique hk hon
  obtain ⟨hother, href, hif⟩ := FsBlocks.iputLast_run hlast
  have hinv := (FsBlocks.iputLast_spec hgood.inv _).ok rfl hlast
  have heq : s₁.blocks.icache (s₁.icache k).inum = (s₁.icache k).toInode :=
    cached_eq hgood.unique hk
  have hlock := (hgood.restore hk hinv (fun i hi => (hother i hi).2) (by rw [href, heq])).lock k false
  set s₂ := (s₁.restore k v).setEntry k (fun e => { e with lock := false }) with hs₂
  have hslot : s₂.icache k = { s.icache k with
      toInode := v.icache (s₁.icache k).inum, lock := false } := by
    rw [hs₂, setEntry_self, restore_self, hself]
  have hne : ∀ l, l ≠ k → s₂.icache l = s.icache l := by
    intro l hl
    rw [hs₂, setEntry_ne hl, restore_ne hl, hs₁, setEntry_ne hl]
  refine ⟨⟨hlock.toCached.setEntry ⟨rfl, rfl, rfl, rfl⟩ fun hpos => ?_, fun l => ?_⟩, ?_,
    fun l hl => ?_, ?_⟩
  · exact hlock.held
  · by_cases hl : l = k
    · subst hl
      have := hlock.ref l
      rw [List.count_cons_self] at this
      rw [setEntry_self]
      simp only
      omega
    · rw [setEntry_ne hl, hlock.ref l, List.count_cons_of_ne (Ne.symm hl)]
  · rw [setEntry_self, hslot]
  · rw [setEntry_ne hl, hne l hl]
  · rw [heq, hself] at hif
    rw [setEntry_self, hslot]
    split_ifs at hif ⊢ with hcond
    · rw [hself] at hother
      exact ⟨hif.1, hif.2.1, fun i hi => (hother i hi).1⟩
    · subst hif
      refine ⟨rfl, ?_⟩
      change (s₁.blocks.icache (s₁.icache k).inum).valid = _
      rw [heq, hself]

theorem iput_inum (h : Good sb B (k :: L) s) {a : Unit} (hr : iput k s = .ok (a, t)) (l : Slot) :
    (t.icache l).inum = (s.icache l).inum := by
  obtain ⟨-, hinum, hother, -⟩ := iput_run h hr
  by_cases hl : l = k
  · rw [hl, hinum]
  · rw [hother l hl]

/-- Where the inodes are anchored, the reference that a call gives up is not the last one to an
inode without links. -/
theorem iput_quiet (h : Good sb B (k :: L) s) {a : Unit} (hr : iput k s = .ok (a, t)) :
    Good sb B L t ∧ Quiet B s t := by
  obtain ⟨hgood, hinum, hother, hif⟩ := iput_run h hr
  refine ⟨hgood, fun l hl => ?_, fun ha => ?_⟩
  · by_cases hlk : l = k
    · subst hlk
      refine ⟨hinum, fun hv => ?_⟩
      have := h.ref l
      rw [List.count_cons_self] at this
      rw [if_neg (by omega)] at hif
      rw [hif.2, hv]
    · rw [hother l hlk]
      exact ⟨rfl, id⟩
  · split_ifs at hif with hcond
    · exfalso
      obtain ⟨hv, hlink, href⟩ := hcond
      obtain ⟨hip, htype⟩ := h.ip h.held hv
      rw [hip] at hlink
      have hfree := ha.linked (s.icache k).inum fun l hl hB => by
        obtain rfl := h.unique l k (h.standing hB) h.held hl
        have := h.ref l
        rw [List.count_cons_self] at this
        omega
      rcases hfree with hfree | hfree
      · exact htype hfree
      · exact hfree hlink
    · exact hif.1

/-- The last reference of a call is given up: what it held is free then, or has a link. -/
theorem iput_final (h : Good sb B [k] s) (ha : Anchored (plus B k) s) {a : Unit}
    (hr : iput k s = .ok (a, t)) : Anchored B t := by
  obtain ⟨-, -, hother, hif⟩ := iput_run h hr
  have hsame := iput_inum h hr
  have hdinode : ∀ i, i ≠ (s.icache k).inum → t.dinode i = s.dinode i := by
    intro i hi
    split_ifs at hif with hcond
    · exact hif.2.2 i hi
    · exact congrFun (congrArg (fun d => d.2.2) hif.1) i
  refine ⟨fun i hi => ?_, fun i => ?inRange⟩
  case inRange =>
    by_cases hik : i = (s.icache k).inum
    · subst hik
      split_ifs at hif with hcond
      · rw [hif.2.1]
        decide
      · have hdinode : t.dinode = s.dinode := congrArg (fun d => d.2.2) hif.1
        rw [hdinode, ha.inRange]
    · rw [hdinode i hik, ha.inRange]
  by_cases hik : i = (s.icache k).inum
  · subst hik
    split_ifs at hif with hcond
    · exact .inl hif.1
    · have hdinode : t.dinode = s.dinode := congrArg (fun d => d.2.2) hif.1
      rw [hdinode]
      by_cases hv : (s.icache k).valid = true
      · obtain ⟨hip, -⟩ := h.ip h.held hv
        right
        intro hlink
        have href := h.ref k
        rw [List.count_singleton_self] at href
        have hB : 0 < B k := by
          by_contra hB
          exact hcond ⟨hv, by rw [hip, hlink], by omega⟩
        have := hi k (hsame k) hB
        rw [hif.2, hv] at this
        cases this
      · refine ha.linked _ fun l hl hB => ?_
        have hlive : 0 < (s.icache l).ref := (good_plus.mpr h).standing hB
        obtain rfl := h.unique l k hlive h.held hl
        simpa using hv
  · rw [hdinode i hik]
    refine ha.linked i fun l hl hB => ?_
    have hlk : l ≠ k := by
      rintro rfl
      exact hik hl.symm
    rw [plus_ne B hlk] at hB
    have := hi l ((hsame l).trans hl) hB
    rwa [hother l hlk] at this

theorem iunlockput_quiet (h : Good sb B (k :: L) s) {a : Unit}
    (hr : iunlockput k s = .ok (a, t)) :
    Good sb B L t ∧ Quiet B s t ∧ ∀ l, (t.icache l).inum = (s.icache l).inum := by
  obtain ⟨_, u, hunlock, hput⟩ := run_bind.mp hr
  obtain ⟨hgood, hholds, hdisk⟩ := iunlock_spec h hunlock
  obtain ⟨hgood', hquiet⟩ := iput_quiet hgood hput
  exact ⟨hgood', Quiet.trans ⟨hholds.stay B, fun _ => hdisk⟩ hquiet,
    fun l => (iput_inum hgood hput l).trans (hholds l).1⟩

/-- Only the inode itself may be freed. -/
theorem iunlockput_dinode (h : Good sb B (k :: L) s) {a : Unit} (hr : iunlockput k s = .ok (a, t))
    {i : ℕ} (hi : i ≠ (s.icache k).inum) : t.dinode i = s.dinode i := by
  obtain ⟨_, u, hunlock, hput⟩ := run_bind.mp hr
  obtain ⟨hgood, hholds, hdisk⟩ := iunlock_spec h hunlock
  obtain ⟨-, -, -, hif⟩ := iput_run hgood hput
  have hdinode : u.dinode = s.dinode := congrArg (fun d => d.2.2) hdisk
  rw [(hholds k).1] at hif
  rw [← hdinode]
  split_ifs at hif
  · exact hif.2.2 i hi
  · exact congrFun (congrArg (fun d => d.2.2) hif.1) i

theorem iunlockput_final (h : Good sb B [k] s) (ha : Anchored (plus B k) s) {a : Unit}
    (hr : iunlockput k s = .ok (a, t)) : Good sb B [] t ∧ Anchored B t := by
  obtain ⟨_, u, hunlock, hput⟩ := run_bind.mp hr
  obtain ⟨hgood, hholds, hdisk⟩ := iunlock_spec h hunlock
  exact ⟨(iput_run hgood hput).1, iput_final hgood (ha.disk (hholds.stay _) hdisk) hput⟩

end Ostep.InodeCache

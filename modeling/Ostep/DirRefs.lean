import Ostep.CacheRefs

/-!
# Directories and paths on the slots of the cache

A search of a directory returns what the blocks have, and a path leads where it leads on disk,
with one reference more.
-/

namespace Ostep.InodeCache
open Hoare
open FsBlocks (Dinode Block Superblock Inv entryOf entryFor T_DIR direntOffs DIRENT)

variable {sb : Superblock} {s t u : St} {k l : Slot} {B : Slot → ℕ} {L : List Slot}

/-- Every inode has the type and the links it had. -/
def SameLinks (s t : St) : Prop :=
  ∀ i, (t.dinode i).type = (s.dinode i).type ∧ (t.dinode i).nlink = (s.dinode i).nlink

theorem SameLinks.trans (h : SameLinks s t) (h' : SameLinks t u) : SameLinks s u :=
  fun i => ⟨(h' i).1.trans (h i).1, (h' i).2.trans (h i).2⟩

theorem sameLinks_of_disk (h : t.disk = s.disk) : SameLinks s t := by
  have hdinode : t.dinode = s.dinode := congrArg (fun d => d.2.2) h
  exact fun i => by rw [hdinode]; exact ⟨rfl, rfl⟩

/-- A function of the block layer that changes nothing. -/
theorem onInode_same {α : Type} {m : ℕ → FsBlocks.Fs α} {a : α} (h : Good sb B L s)
    (hk : 0 < (s.icache k).ref) (hr : onInode k m s = .ok (a, t))
    (hm : ∀ v, m (s.icache k).inum s.blocks = .ok (a, v) → v = s.blocks) :
    m (s.icache k).inum s.blocks = .ok (a, s.blocks) ∧ t = s := by
  obtain ⟨v, hv, rfl⟩ := onInode_run h.unique hk hr
  obtain rfl := hm v hv
  exact ⟨hv, restore_blocks_self h.unique hk⟩

/-! ## Changing an inode -/

theorem setMeta_spec (h : Good sb B L s) (hk : 0 < (s.icache k).ref)
    (hv : (s.icache k).valid = true) {f : Dinode → Dinode} {a : Unit}
    (hr : setMeta k f s = .ok (a, t))
    (hf : ∀ d, (f d).addrs = d.addrs ∧ (f d).type = d.type ∧ (f d).size = d.size) :
    Good sb B L t ∧ Holds s t ∧
      t.disk = (s.bitmap, s.data, Function.update s.dinode (s.icache k).inum
        (f (s.dinode (s.icache k).inum))) := by
  obtain ⟨v, hrun, rfl⟩ := onInode_run h.unique hk hr
  obtain ⟨_, w, hset, hupdate⟩ := run_bind.mp hrun
  obtain rfl := run_modify.mp hset
  obtain rfl := run_modify.mp hupdate
  have hlocked := locked_of_slot h.unique hk hv
  have heq : s.blocks.icache (s.icache k).inum = (s.icache k).toInode := cached_eq h.unique hk
  have hcov := h.inv.covered_locked hlocked
  have hinv := (h.inv.core hlocked).writeBack h.inv (.refl _ s.blocks) (fun d => (hf d).1)
    (fun d => (hf d).2.1) (by rwa [(hf _).2.2])
  refine ⟨h.restore hk hinv (fun i hi => ?_) ?_, fun l => ?_, ?_⟩
  · exact FsBlocks.setIp_icache_of_ne _ _ hi
  · simp [heq]
  · by_cases hl : l = k
    · subst hl
      rw [restore_self]
      simp [heq]
    · rw [restore_ne hl]
      exact ⟨rfl, id⟩
  · rw [← (h.ip hk hv).1]
    simp [St.disk, St.restore, FsBlocks.St.iupdate, FsBlocks.St.setIp, heq]
    exact ⟨rfl, rfl, rfl⟩

theorem writei_spec (h : Good sb B L s) (hk : 0 < (s.icache k).ref)
    (hv : (s.icache k).valid = true) {src : Bytes} {off : ℕ} {r : Option ℕ}
    (hr : writei sb k src off s = .ok (r, t)) : Good sb B L t ∧ Holds s t ∧ SameLinks s t := by
  obtain ⟨v, hrun, rfl⟩ := onInode_run h.unique hk hr
  have hlocked := locked_of_slot h.unique hk hv
  have heq : s.blocks.icache (s.icache k).inum = (s.icache k).toInode := cached_eq h.unique hk
  have hkeep := FsBlocks.keeps_writei src off s.blocks r v hrun
  rw [← FsBlocks.writei_wide] at hrun
  have hinv := (FsBlocks.writei_spec h.inv hlocked src off).ok rfl hrun
  obtain ⟨size, addrs, hentry⟩ := hkeep.entry
  rw [heq] at hentry
  have hself : (s.restore k v).icache k = { s.icache k with
      ip := { (s.icache k).ip with size := size, addrs := addrs } } := by
    rw [restore_self, hentry]
  have hgood := h.restore hk hinv hkeep.icache (by rw [hentry])
  have hholds : Holds s (s.restore k v) := by
    intro l
    by_cases hl : l = k
    · subst hl
      rw [hself]
      exact ⟨rfl, id⟩
    · rw [restore_ne hl]
      exact ⟨rfl, id⟩
  refine ⟨hgood, hholds, fun i => ?_⟩
  by_cases hi : i = (s.icache k).inum
  · subst hi
    have hip := (hgood.ip (k := k) (by rw [hself]; exact hk) (by rw [hself]; exact hv)).1
    rw [restore_inum, hself] at hip
    rw [← hip, ← (h.ip hk hv).1]
    exact ⟨rfl, rfl⟩
  · have hdinode : (s.restore k v).dinode i = s.dinode i := hkeep.dinode i hi
    rw [hdinode]
    exact ⟨rfl, rfl⟩

/-- A free inode is taken; the slot does not have its fields yet. -/
theorem ialloc_spec (h : Good sb B L s) {type : ℕ} (hr : ialloc sb ROOTDEV type s = .ok (k, t)) :
    Good sb B (k :: L) t ∧ Stay B s t ∧ (s.dinode (t.icache k).inum).type = 0 ∧
      t.disk = (s.bitmap, s.data, Function.update s.dinode (t.icache k).inum
        { Dinode.zero with type := type }) := by
  rw [ialloc, run_get_bind] at hr
  rcases hfind : (List.range' 1 (sb.ninodes - 1)).find? (fun i => (s.dinode i).type = 0) with _ | i
  case none =>
    rw [hfind] at hr
    exact (run_throw.mp hr).elim
  case some =>
    rw [hfind] at hr
    obtain ⟨_, v, hset, hget⟩ := run_bind.mp hr
    obtain rfl := run_modify.mp hset
    have hfree : (s.dinode i).type = 0 := by simpa using List.find?_some hfind
    have hmem := List.mem_range'_1.mp (List.mem_of_find?_eq_some hfind)
    have hlt : i < sb.wide.ninodes := by
      change i < max sb.ninodes (2 ^ 16)
      omega
    set s₁ : St := { s with
      dinode := Function.update s.dinode i { Dinode.zero with type := type } } with hs₁
    have hgood : Good sb B L s₁ := ⟨⟨h.dev, h.lt, h.unique, h.inv.ialloc hfree type⟩, h.ref⟩
    obtain ⟨hgood', hquiet, hdisk, rfl⟩ := iget_quiet hgood hlt hget
    exact ⟨hgood', hquiet.1, hfree, hdisk⟩

/-! ## Directories -/

theorem dirlookup_run (h : Good sb B L s) (hk : 0 < (s.icache k).ref)
    (hv : (s.icache k).valid = true) {name : Bytes} {r : Option (Slot × ℕ)}
    (hr : dirlookup sb k name s = .ok (r, t)) :
    (s.dinode (s.icache k).inum).type = T_DIR ∧
    match entryOf s.data (s.dinode (s.icache k).inum) name with
    | none => r = none ∧ t = s
    | some (inum, off) => ∃ next, r = some (next, off) ∧ iget ROOTDEV inum s = .ok (next, t) := by
  rw [dirlookup, run_get_bind] at hr
  rcases run_ite.mp hr with ⟨-, hr⟩ | ⟨htype, hr⟩
  · exact (run_throw.mp hr).elim
  obtain ⟨p, v, hfind, hr⟩ := run_bind.mp hr
  have hlocked := locked_of_slot h.unique hk hv
  have heq : s.blocks.icache (s.icache k).inum = (s.icache k).toInode := cached_eq h.unique hk
  have hip := (h.ip hk hv).1
  obtain ⟨hfind, rfl⟩ := onInode_same h hk hfind fun v hv => by
    rw [← FsBlocks.findName_wide] at hv
    exact (FsBlocks.findName_spec h.inv hlocked name _).ok rfl hv
  rw [← FsBlocks.findName_wide] at hfind
  obtain ⟨-, hp⟩ := FsBlocks.findName_run h.inv hlocked
    (fun off hoff => FsBlocks.mod_of_mem_direntOffs hoff) hfind
  have hentry : entryOf v.data (v.dinode (v.icache k).inum) name = p := by
    rw [hp, entryOf, heq, ← hip]
    rfl
  refine ⟨by rw [← hip]; exact not_not.mp htype, ?_⟩
  rw [hentry]
  cases p with
  | none =>
    obtain ⟨rfl, rfl⟩ := run_pure.mp hr
    exact ⟨rfl, rfl⟩
  | some p =>
    obtain ⟨next, w, hget, hr⟩ := run_bind.mp hr
    obtain ⟨rfl, rfl⟩ := run_pure.mp hr
    rw [h.dev k hk] at hget
    exact ⟨next, rfl, hget⟩

/-- Searching a directory on a slot in use: what is found has one reference more. -/
theorem dirlookup_spec (h : Good sb B L s) (hk : 0 < (s.icache k).ref)
    (hv : (s.icache k).valid = true) {name : Bytes} {r : Option (Slot × ℕ)}
    (hr : dirlookup sb k name s = .ok (r, t)) :
    Good sb B ((r.map Prod.fst).toList ++ L) t ∧ Quiet B s t ∧ t.disk = s.disk ∧
    (s.dinode (s.icache k).inum).type = T_DIR ∧
    entryOf s.data (s.dinode (s.icache k).inum) name =
      r.map (fun p => ((t.icache p.1).inum, p.2)) := by
  obtain ⟨htype, hmatch⟩ := dirlookup_run h hk hv hr
  cases hentry : entryOf s.data (s.dinode (s.icache k).inum) name with
  | none =>
    rw [hentry] at hmatch
    obtain ⟨rfl, rfl⟩ := hmatch
    exact ⟨h, .refl B t, rfl, htype, rfl⟩
  | some p =>
    rw [hentry] at hmatch
    obtain ⟨next, rfl, hget⟩ := hmatch
    have hlt : p.1 < sb.wide.ninodes :=
      Nat.lt_of_lt_of_le (FsBlocks.entryOf_lt hentry) (Nat.le_max_right ..)
    obtain ⟨hgood, hquiet, hdisk, hinum⟩ := iget_quiet h hlt hget
    refine ⟨hgood, hquiet, hdisk, htype, ?_⟩
    rw [Option.map_some, hinum]

theorem dirlinkNew_spec (h : Good sb B L s) (hk : 0 < (s.icache k).ref)
    (hv : (s.icache k).valid = true) {name : Bytes} {inum : ℕ} {r : Bool}
    (hr : dirlinkNew sb k name inum s = .ok (r, t)) :
    Good sb B L t ∧ Holds s t ∧ SameLinks s t ∧ r = true := by
  rw [dirlinkNew, run_get_bind] at hr
  obtain ⟨off, v, hfind, hrest⟩ := run_bind.mp hr
  have hlocked := locked_of_slot h.unique hk hv
  obtain ⟨-, rfl⟩ := onInode_same h hk hfind fun v hv => by
    rw [← FsBlocks.findEmpty_wide] at hv
    exact (FsBlocks.findEmpty_spec h.inv hlocked _ _).ok rfl hv
  obtain ⟨n, w, hwrite, hdone⟩ := run_bind.mp hrest
  obtain ⟨hgood, hholds, hlinks⟩ := writei_spec h hk hv hwrite
  cases n with
  | none => exact (run_throw.mp hdone).elim
  | some n =>
    rcases run_ite.mp hdone with ⟨-, hdone⟩ | ⟨-, hdone⟩
    · obtain ⟨rfl, rfl⟩ := run_pure.mp hdone
      exact ⟨hgood, hholds, hlinks, rfl⟩
    · exact (run_throw.mp hdone).elim

/-- Entering a name in a directory that has a standing reference. -/
theorem dirlink_spec (h : Good sb B L s) (hk : 0 < B k) (hv : (s.icache k).valid = true)
    {name : Bytes} {inum : ℕ} {r : Bool} (hr : dirlink sb k name inum s = .ok (r, t)) :
    Good sb B L t ∧ Stay B s t ∧ (Anchored B s → SameLinks s t) ∧ (r = false → Quiet B s t) := by
  obtain ⟨p, v, hlook, hr⟩ := run_bind.mp hr
  obtain ⟨hgood, hquiet, hdisk, -, -⟩ := dirlookup_spec h (h.standing hk) hv hlook
  cases p with
  | none =>
    have hv' := (hquiet.1 k hk).2 hv
    have hgood : Good sb B L v := hgood
    obtain ⟨hgood', hholds, hlinks, rfl⟩ := dirlinkNew_spec hgood (hgood.standing hk) hv' hr
    exact ⟨hgood', hquiet.1.trans (hholds.stay B),
      fun _ => (sameLinks_of_disk hdisk).trans hlinks, nofun⟩
  | some p =>
    obtain ⟨_, w, hput, hr⟩ := run_bind.mp hr
    obtain ⟨rfl, rfl⟩ := run_pure.mp hr
    have hgood : Good sb B (p.1 :: L) v := hgood
    obtain ⟨hgood', hquiet'⟩ := iput_quiet hgood hput
    have hall := hquiet.trans hquiet'
    exact ⟨hgood', hall.1, fun ha => sameLinks_of_disk (hall.2 ha), fun _ => hall⟩

theorem allFree_same (h : Good sb B L s) (hk : 0 < (s.icache k).ref)
    (hv : (s.icache k).valid = true) {offs : List ℕ} {r : Bool}
    (hr : allFree sb k offs s = .ok (r, t)) : t = s := by
  induction offs with
  | nil => exact (run_pure.mp hr).2.symm
  | cons off offs ih =>
    obtain ⟨de, v, hread, hr⟩ := run_bind.mp hr
    obtain ⟨-, rfl⟩ := onInode_same h hk hread fun v hv' => by
      rw [← FsBlocks.readi_wide] at hv'
      exact (FsBlocks.readi_spec h.inv (locked_of_slot h.unique hk hv) off DIRENT).ok rfl hv'
    cases de with
    | none => exact (run_throw.mp hr).elim
    | some de =>
      rcases run_ite.mp hr with ⟨-, hr⟩ | ⟨-, hr⟩
      · exact (run_throw.mp hr).elim
      rcases run_ite.mp hr with ⟨-, hr⟩ | ⟨-, hr⟩
      · exact (run_pure.mp hr).2.symm
      · exact ih hr

end Ostep.InodeCache

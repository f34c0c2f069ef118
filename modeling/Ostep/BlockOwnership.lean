import Ostep.BlockPointers

/-!
# Every block has its owner

The bitmap, the inodes and the indirect blocks agree after every complete step: `writei`
allocates what a file gains, `itrunc` frees what it loses, and the cached copies of inodes are
those on disk.
-/

namespace Ostep.FsBlocks
open Hoare Ownership TransitionSystem

variable {sb : Superblock}

structure Inv (sb : Superblock) (s : St) : Prop where
  owns : Owns sb.nmeta sb.size s.bitmap (s.own sb)
  covered : ∀ i, i < sb.ninodes → (s.inode i).type ≠ 0 → Covered sb s i (s.inode i).size
  synced : ∀ i, s.Locked i → (s.icache i).ip = s.dinode i ∧ (s.dinode i).type ≠ 0 ∧ i < sb.ninodes

/-- Between steps the cache shows what is on disk. -/
theorem Inv.inode_eq {s : St} (h : Inv sb s) (i : ℕ) : s.inode i = s.dinode i := by
  by_cases hi : s.Locked i
  · rw [hi.inode, (h.synced i hi).1]
  · exact St.not_locked_inode hi

theorem Inv.core {s : St} (h : Inv sb s) {i : ℕ} (hi : s.Locked i) : Core sb i s :=
  ⟨h.owns, hi, (h.synced i hi).2.2, by rw [(h.synced i hi).1]; exact (h.synced i hi).2.1⟩

theorem Inv.covered_locked {s : St} (h : Inv sb s) {i : ℕ} (hi : s.Locked i) :
    Covered sb s i (s.icache i).ip.size := by
  rw [← hi.inode]
  exact h.covered i (h.core hi).lt (h.core hi).inode_type

/-- A step on the cache alone; what it holds under a lock is what is on disk. -/
theorem Inv.cache {s t : St} (h : Inv sb s) (hbitmap : t.bitmap = s.bitmap) (hdata : t.data = s.data)
    (hdinode : t.dinode = s.dinode)
    (hsynced : ∀ i, t.Locked i →
      (t.icache i).ip = s.dinode i ∧ (s.dinode i).type ≠ 0 ∧ i < sb.ninodes) : Inv sb t := by
  have hinode : t.inode = s.inode := by
    funext i
    rw [h.inode_eq]
    by_cases hi : t.Locked i
    · rw [hi.inode, (hsynced i hi).1]
    · rw [St.not_locked_inode hi, hdinode]
  have hown : t.own sb = s.own sb := by rw [St.own, hdata, hinode, St.own]
  refine ⟨?_, fun i hi htype => ?_, by rwa [hdinode]⟩
  · rw [hbitmap, hown]
    exact h.owns
  · rw [hinode] at htype ⊢
    intro bn hbn
    rw [hown]
    exact h.covered i hi htype bn hbn

/-! ## References and locks -/

theorem iget_spec {s : St} (h : Inv sb s) (i : ℕ) :
    Triple NotFreeing (· = s) (iget i) (fun _ => Inv sb) := by
  refine .update ?_
  rintro s rfl
  refine h.cache rfl rfl rfl (fun j hj => ?_)
  by_cases hji : j = i
  · subst hji
    by_cases href : 0 < (s.icache j).ref
    · have hs : s.Locked j := ⟨href, by simpa [St.Locked, href] using hj⟩
      simpa [href] using h.synced j hs
    · simp [St.Locked, href] at hj
  · simp only [St.Locked, Function.update_of_ne hji] at hj ⊢
    exact h.synced j hj

theorem ilock_spec {s : St} (h : Inv sb s) {i : ℕ} (hi : i < sb.ninodes) :
    Triple NotFreeing (· = s) (ilock i) (fun _ => Inv sb) := by
  refine .get_bind ?_
  rintro s rfl
  refine .ite (fun _ => .throw (by simp [NotFreeing])) (fun _ => ?_)
  refine .ite (fun _ => .pure ?_) (fun _ => .ite (fun _ => .throw (by simp [NotFreeing]))
    (fun htype => .update ?_))
  · rintro _ rfl
    exact h
  · rintro s rfl
    refine h.cache rfl rfl rfl (fun j hj => ?_)
    by_cases hji : j = i
    · subst hji
      exact ⟨by simp, htype, hi⟩
    · simp only [St.Locked, Function.update_of_ne hji] at hj ⊢
      exact h.synced j hj

/-- Dropping a reference that is not the last to an unlinked inode. -/
theorem Inv.drop {s : St} (h : Inv sb s) (i : ℕ) : Inv sb { s with
    icache := Function.update s.icache i { s.icache i with ref := (s.icache i).ref - 1 } } := by
  refine h.cache rfl rfl rfl (fun j hj => ?_)
  by_cases hji : j = i
  · subst hji
    have hs : s.Locked j := by
      simp only [St.Locked, Function.update_self] at hj
      exact ⟨by omega, hj.2⟩
    simpa using h.synced j hs
  · simp only [St.Locked, Function.update_of_ne hji] at hj ⊢
    exact h.synced j hj

/-! ## Writing back an inode -/

/-- Pointers depend on the addresses of an inode and on whether it is allocated. -/
theorem pointer_update_inode {data : ℕ → Block} {inode : ℕ → Dinode} {i : ℕ} {d : Dinode}
    (haddrs : d.addrs = (inode i).addrs) (htype : d.type = (inode i).type) :
    pointer sb data (Function.update inode i d) = pointer sb data inode := by
  funext ⟨j, k⟩
  by_cases hj : j = i
  · subst hj
    simp [pointer, pointerOf, haddrs, htype]
  · simp [pointer, hj]

/-- `iupdate` after a change of other fields moves no pointer. -/
theorem St.Locked.own_writeBack {s : St} {i : ℕ} (h : s.Locked i) {f : Dinode → Dinode}
    (haddrs : ∀ d, (f d).addrs = d.addrs) (htype : ∀ d, (f d).type = d.type) :
    ((s.setIp i f).iupdate i).own sb = s.own sb := by
  rw [St.own, iupdate_inode ((setIp_locked s i i f).mpr h), setIp_inode h]
  exact pointer_update_inode (by rw [haddrs, h.inode]) (by rw [htype, h.inode])

/-- `iupdate` after a change of other fields than `addrs` and `type`. -/
theorem Core.writeBack {s t : St} {i : ℕ} (h : Inv sb s) (hcore : Core sb i t)
    (hgrows : Grows sb i s t) {f : Dinode → Dinode} (haddrs : ∀ d, (f d).addrs = d.addrs)
    (htype : ∀ d, (f d).type = d.type) (hcov : Covered sb t i (f (t.icache i).ip).size) :
    Inv sb ((t.setIp i f).iupdate i) := by
  have hinode : ((t.setIp i f).iupdate i).inode =
      Function.update t.inode i (f (t.icache i).ip) := by
    rw [iupdate_inode ((setIp_locked t i i f).mpr hcore.locked), setIp_inode hcore.locked]
  have hown : ((t.setIp i f).iupdate i).own sb = t.own sb :=
    hcore.locked.own_writeBack haddrs htype
  refine ⟨?_, fun j hj hne bn hbn => ?_, fun j hj => ?_⟩
  · rw [hown]
    exact hcore.owns
  · rw [hown]
    rw [hinode] at hne hbn
    by_cases hji : j = i
    · subst hji
      rw [Function.update_self] at hbn
      exact hcov bn hbn
    · rw [Function.update_of_ne hji] at hne hbn
      rw [inode_congr (hgrows.icache j hji) (congrFun hgrows.dinode j)] at hne hbn
      exact hgrows.covered (h.covered j hj hne) bn hbn
  · by_cases hji : j = i
    · subst hji
      refine ⟨by simp, ?_, hcore.lt⟩
      simpa [htype] using hcore.type
    · have hcache : (t.setIp i f).icache j = s.icache j := by
        rw [setIp_icache_of_ne t f hji, hgrows.icache j hji]
      have hs : s.Locked j := by
        rw [St.Locked, iupdate_icache, hcache] at hj
        exact hj
      rw [iupdate_icache, hcache, iupdate_dinode_of_ne _ hji]
      change _ = t.dinode j ∧ (t.dinode j).type ≠ 0 ∧ _
      rw [hgrows.dinode]
      exact h.synced j hs

theorem setMeta_spec {s : St} (h : Inv sb s) {i : ℕ} (hi : s.Locked i) (major minor nlink : ℤ) :
    Triple NotFreeing (· = s)
      (Event.run sb (.setMeta i major minor nlink)) (fun _ => Inv sb) := by
  have hcov := h.covered_locked hi
  refine .bind (Q := fun _ t => t = s.setIp i (fun d =>
    { d with major := major, minor := minor, nlink := nlink })) (.update ?_) (fun _ => .update ?_)
  · rintro _ rfl
    rfl
  · rintro _ rfl
    exact (h.core hi).writeBack h (.refl i s) (fun _ => rfl) (fun _ => rfl) hcov

/-! ## Reading and writing files -/

theorem readi_spec {s : St} (h : Inv sb s) {i : ℕ} (hi : s.Locked i) (off n : ℕ) :
    Triple NotFreeing (· = s) (readi sb i off n) (fun _ t => t = s) := by
  have hcov := h.covered_locked hi
  have hcore := h.core hi
  refine .get_bind ?_
  rintro s rfl
  refine .ite (fun _ => .pure (fun _ h => h)) (fun _ => .ite (fun _ => .pure (fun _ h => h))
    (fun hoff => ?_))
  refine .bind (readLoop_spec s hcore hcov ?_) (fun _ => .pure (fun _ h => h))
  split_ifs with hn <;> omega

/-- The end of `writei`: a file that grew is written back, another one did not change. -/
theorem Writing.finish {s t : St} {i off : ℕ} {src : List UInt8} (h : Inv sb s)
    (hoff : off ≤ (s.icache i).ip.size) (hw : Writing sb i s (off + src.length) t) :
    Triple NotFreeing (· = t) (writei.grow i src off (s.icache i).ip.size) (fun _ => Inv sb) := by
  refine .ite (fun hgrow => ?_) (fun hsame => .pure ?_)
  · refine .bind (Q := fun _ u => u = t.setIp i (fun d => { d with size := off + src.length }))
      (.update ?_) (fun _ => .update ?_)
    · rintro _ rfl
      rfl
    · rintro _ rfl
      exact hw.core.writeBack h hw.grows (fun _ => rfl) (fun _ => rfl) hw.covered
  · rintro t rfl
    have hentry := hw.same (by omega)
    have hcache : t.icache = s.icache := by
      funext j
      by_cases hj : j = i
      · rw [hj, hentry]
      · exact hw.grows.icache j hj
    have hinode : t.inode = s.inode :=
      funext fun j => inode_congr (congrFun hcache j) (congrFun hw.grows.dinode j)
    refine ⟨hw.core.owns, fun j hj hne => ?_, fun j hj => ?_⟩
    · rw [hinode] at hne ⊢
      exact hw.grows.covered (h.covered j hj hne)
    · rw [St.Locked, hcache] at hj
      rw [hcache, hw.grows.dinode]
      exact h.synced j hj

theorem writei_spec {s : St} (h : Inv sb s) {i : ℕ} (hi : s.Locked i) (src : List UInt8) (off : ℕ) :
    Triple NotFreeing (· = s) (writei sb i src off) (fun _ => Inv sb) := by
  have hcov := h.covered_locked hi
  have hcore := h.core hi
  refine .get_bind ?_
  rintro s rfl
  have hret : ∀ r : Option ℕ, Triple NotFreeing (· = s) (pure r : Fs (Option ℕ))
      (fun _ => Inv sb) := fun r => .pure (by rintro _ rfl; exact h)
  refine .ite (fun _ => hret _) (fun _ => .ite (fun _ => hret _) (fun hoff =>
    .ite (fun _ => hret _) (fun _ => ?_)))
  have hoff : off ≤ (s.icache i).ip.size := by omega
  have hstart : Writing sb i s off s :=
    ⟨hcore, .refl i s, fun bn hbn => hcov bn (by omega), fun _ => rfl⟩
  refine .bind (writeLoop_spec hcov (Nat.le_refl _) s hstart) (fun _ => .of_eq fun t ht => ?_)
  exact .bind (ht.finish h hoff) (fun _ => .pure (fun _ h => h))

/-! ## Truncation -/

/-- While `itrunc` runs: `i` loses blocks, the other inodes keep theirs. -/
structure Truncating (sb : Superblock) (i : ℕ) (s t : St) : Prop where
  core : Core sb i t
  dinode : t.dinode = s.dinode
  icache : ∀ j, j ≠ i → t.icache j = s.icache j
  own : ∀ p : ℕ × ℕ, p.1 ≠ i → t.own sb p = s.own sb p

theorem bfree_spec {s : St} {b : ℕ} (hb : s.bitmap b = true) :
    Triple NotFreeing (· = s) (bfree b)
      (fun _ t => t = { s with bitmap := Function.update s.bitmap b false }) := by
  refine .get_bind ?_
  rintro s rfl
  rw [if_neg (by simp [hb])]
  refine .update ?_
  rintro _ rfl
  rfl

theorem freeDirect_spec {i k : ℕ} (hk : k < NDIRECT) {s : St} (t : St) (h : Truncating sb i s t) :
    Triple NotFreeing (· = t) (freeDirect i k) (fun _ u => Truncating sb i s u ∧
      (u.icache i).ip.addrs k = 0 ∧
      ∀ l, (t.icache i).ip.addrs l = 0 → (u.icache i).ip.addrs l = 0) := by
  refine .get_bind ?_
  rintro t rfl
  refine .ite (fun hzero => .pure ?_) (fun hne => ?_)
  · rintro _ rfl
    exact ⟨h, hzero, fun _ => id⟩
  have hslot := h.core.own_addrs (Nat.le_of_lt hk)
  refine .bind (bfree_spec ?_) (fun _ => .update ?_)
  · rw [← hslot] at hne ⊢
    exact h.core.owns.used_own hne
  rintro _ rfl
  set u : St := St.setIp { t with
    bitmap := Function.update t.bitmap ((t.icache i).ip.addrs k) false } i (Dinode.setAddr k 0)
    with hu
  have hown : u.own sb = Function.update (t.own sb) (i, k) 0 := by
    have hinode : u.inode = Function.update t.inode i ((t.inode i).setAddr k 0) := by
      rw [h.core.locked.inode]
      exact setIp_inode (s := { t with
        bitmap := Function.update t.bitmap ((t.icache i).ip.addrs k) false }) h.core.locked _
    rw [St.own, hinode]
    exact pointer_setAddr h.core.lt h.core.inode_type hk
  refine ⟨⟨⟨?_, ?_, h.core.lt, ?_⟩, h.dinode, fun j hj => ?_, fun p hp => ?_⟩, ?_, fun l hl => ?_⟩
  · rw [hown]
    change Owns _ _ (Function.update t.bitmap ((t.icache i).ip.addrs k) false) _
    rw [← hslot] at hne ⊢
    exact h.core.owns.release hne
  · exact (setIp_locked _ i i _).mpr h.core.locked
  · simpa [hu, Dinode.setAddr] using h.core.type
  · rw [hu, setIp_icache_of_ne _ _ hj]
    exact h.icache j hj
  · rw [hown, Function.update_of_ne (fun heq => hp (congrArg Prod.fst heq))]
    exact h.own p hp
  · simp [hu, Dinode.setAddr]
  · by_cases hlk : l = k
    · simp [hu, Dinode.setAddr, hlk]
    · simpa [hu, Dinode.setAddr, hlk] using hl

/-- The slots of `t` without the entries of `i` that the loop is done with. -/
def ownBut (sb : Superblock) (t : St) (i : ℕ) (js : List ℕ) (p : ℕ × ℕ) : ℕ :=
  if p.1 = i ∧ NDIRECT < p.2 ∧ p.2 - NDIRECT - 1 ∉ js then 0 else t.own sb p

theorem ownBut_range (t : St) (i : ℕ) : ownBut sb t i (List.range NINDIRECT) = t.own sb := by
  funext p
  unfold ownBut
  split_ifs with h
  · have hmax : ¬ p.2 ≤ MAXFILE := by
      have hout : ¬ p.2 - 12 - 1 < 128 := fun hlt => h.2.2 (List.mem_range.mpr hlt)
      change ¬ p.2 ≤ 140
      omega
    rw [St.own, pointer, if_neg (fun h => hmax h.2.2)]
  · rfl

theorem ownBut_cons {t : St} {i j : ℕ} {js : List ℕ} (hj : j ∉ js) :
    ownBut sb t i js = Function.update (ownBut sb t i (j :: js)) (i, NDIRECT + 1 + j) 0 := by
  funext p
  by_cases hp : p = (i, NDIRECT + 1 + j)
  · subst hp
    have hsub : NDIRECT + 1 + j - NDIRECT - 1 = j := by omega
    rw [Function.update_self, ownBut, if_pos ⟨rfl, by simp only; omega, by simpa only [hsub] using hj⟩]
  · rw [Function.update_of_ne hp]
    unfold ownBut
    by_cases hold : p.1 = i ∧ NDIRECT < p.2 ∧ p.2 - NDIRECT - 1 ∉ j :: js
    · rw [if_pos hold, if_pos ⟨hold.1, hold.2.1, fun hmem => hold.2.2 (by simp [hmem])⟩]
    · rw [if_neg hold, if_neg]
      rintro ⟨h1, h2, h3⟩
      apply hold
      refine ⟨h1, h2, ?_⟩
      rw [List.mem_cons, not_or]
      refine ⟨fun heq => hp ?_, h3⟩
      exact Prod.ext h1 (by simp only; omega)

theorem ownBut_self (t : St) (i j : ℕ) (js : List ℕ) :
    ownBut sb t i (j :: js) (i, NDIRECT + 1 + j) = t.own sb (i, NDIRECT + 1 + j) := by
  have hsub : NDIRECT + 1 + j - NDIRECT - 1 = j := by omega
  rw [ownBut, if_neg]
  rintro ⟨-, -, h⟩
  simp [hsub] at h

/-- The blocks of the entries before `js` are free. -/
def Freed (sb : Superblock) (t : St) (i : ℕ) (js : List ℕ) (u : St) : Prop :=
  u = { t with bitmap := u.bitmap } ∧ Owns sb.nmeta sb.size u.bitmap (ownBut sb t i js)

theorem freeEntry_spec {i j addr : ℕ} {js : List ℕ} {t : St} (h : Core sb i t)
    (haddr : t.own sb (i, NDIRECT) = addr) (hne : addr ≠ 0) (hj : j < NINDIRECT) (hnot : j ∉ js) :
    Triple NotFreeing (Freed sb t i (j :: js)) (freeEntry addr j) (fun _ => Freed sb t i js) := by
  have hentry := h.own_entry hj haddr hne
  refine .get_bind ?_
  rintro u ⟨hu, howns⟩
  have hdata : u.data = t.data := by rw [hu]
  refine .ite (fun hzero => .pure ?_) (fun hword => ?_)
  · rintro _ rfl
    refine ⟨hu, ?_⟩
    rw [ownBut_cons hnot, Function.update_eq_self_iff.mpr]
    · exact howns
    · rw [ownBut_self, hentry, ← hdata, hzero]
  · rw [hdata, ← hentry, ← ownBut_self t i j js] at hword
    rw [hdata, ← hentry, ← ownBut_self t i j js]
    refine (bfree_spec (howns.used_own hword)).weaken ?_
    rintro _ _ rfl
    refine ⟨by rw [hu], ?_⟩
    rw [ownBut_cons hnot]
    exact howns.release hword

theorem freeEntries_spec {i addr : ℕ} {t : St} (h : Core sb i t)
    (haddr : t.own sb (i, NDIRECT) = addr) (hne : addr ≠ 0) :
    Triple NotFreeing (· = t) ((List.range NINDIRECT).forM (freeEntry addr))
      (fun _ => Freed sb t i []) := by
  refine Triple.conseq (Triple.forM (I := Freed sb t i) (fun j js hsuf => ?_)) ?_ (fun _ _ => id)
  · have hj : j < NINDIRECT := List.mem_range.mp (hsuf.subset List.mem_cons_self)
    have hnot : j ∉ js :=
      (List.nodup_cons.mp (List.nodup_range.sublist hsuf.sublist)).1
    exact freeEntry_spec h haddr hne hj hnot
  · rintro _ rfl
    exact ⟨rfl, by rw [ownBut_range]; exact h.owns⟩

/-- Without the pointer to the indirect block its entries are gone as well. -/
theorem own_clearIndirect {i : ℕ} {t : St} (h : Core sb i t) :
    (t.setIp i (Dinode.setAddr NDIRECT 0)).own sb =
      Function.update (ownBut sb t i []) (i, NDIRECT) 0 := by
  rw [St.own, setIp_inode h.locked]
  funext p
  obtain ⟨j, k⟩ := p
  by_cases hj : j = i
  · subst hj
    have htype := h.type
    rcases Nat.lt_trichotomy k NDIRECT with hk | rfl | hk
    · have hne : k ≠ NDIRECT := by omega
      have hle : k ≤ NDIRECT := by omega
      have hnot : ¬ NDIRECT < k := by omega
      simp [ownBut, pointer, pointerOf, Dinode.setAddr, St.own, hne, hle, hnot, h.locked.inode]
    · simp [pointer, pointerOf, Dinode.setAddr]
    · have hne : k ≠ NDIRECT := by omega
      have hle : ¬ k ≤ NDIRECT := by omega
      simp [ownBut, pointer, pointerOf, Dinode.setAddr, hne, hle, hk]
  · simp [ownBut, pointer, St.own, St.setIp, hj]

theorem freeIndirect_spec {i : ℕ} {s : St} (t : St) (h : Truncating sb i s t) :
    Triple NotFreeing (· = t) (freeIndirect i) (fun _ u => Truncating sb i s u ∧
      (u.icache i).ip.addrs NDIRECT = 0 ∧
      ∀ l, (t.icache i).ip.addrs l = 0 → (u.icache i).ip.addrs l = 0) := by
  refine .get_bind ?_
  rintro t rfl
  refine .ite (fun hzero => .pure ?_) (fun hne => ?_)
  · rintro _ rfl
    exact ⟨h, hzero, fun _ => id⟩
  have hslot := h.core.own_addrs (Nat.le_refl NDIRECT)
  refine .bind (freeEntries_spec h.core hslot hne) (fun _ => .of_eq fun u hu => ?_)
  obtain ⟨hu, howns⟩ := hu
  have hat : ownBut sb t i [] (i, NDIRECT) = (t.icache i).ip.addrs NDIRECT := by
    rw [← hslot]
    exact if_neg (fun hcon => Nat.lt_irrefl _ hcon.2.1)
  have hat0 : ownBut sb t i [] (i, NDIRECT) ≠ 0 := by rwa [hat]
  refine .bind (bfree_spec ?_) (fun _ => .update ?_)
  · rw [← hat]
    exact howns.used_own hat0
  rintro _ rfl
  have hcache : u.icache = t.icache := by rw [hu]
  have hdinode : u.dinode = t.dinode := by rw [hu]
  have hown : St.own sb (St.setIp { u with
      bitmap := Function.update u.bitmap ((t.icache i).ip.addrs NDIRECT) false } i
        (Dinode.setAddr NDIRECT 0)) = Function.update (ownBut sb t i []) (i, NDIRECT) 0 := by
    rw [← own_clearIndirect h.core, hu]
    rfl
  refine ⟨⟨⟨?_, ?_, h.core.lt, ?_⟩, ?_, fun j hj => ?_, fun p hp => ?_⟩, ?_, fun l hl => ?_⟩
  · rw [hown]
    change Owns _ _ (Function.update u.bitmap ((t.icache i).ip.addrs NDIRECT) false) _
    rw [← hat]
    exact howns.release hat0
  · refine (setIp_locked _ i i _).mpr ?_
    change 0 < (u.icache i).ref ∧ _
    rw [hcache]
    exact h.core.locked
  · rw [setIp_icache]
    change (u.icache i).ip.type ≠ 0
    rw [hcache]
    exact h.core.type
  · exact hdinode.trans h.dinode
  · rw [setIp_icache_of_ne _ _ hj]
    exact (congrFun hcache j).trans (h.icache j hj)
  · rw [hown, Function.update_of_ne (fun heq => hp (congrArg Prod.fst heq)), ownBut,
      if_neg (fun hcon => hp hcon.1)]
    exact h.own p hp
  · simp [Dinode.setAddr]
  · by_cases hlk : l = NDIRECT
    · simp [Dinode.setAddr, hlk]
    · simpa [Dinode.setAddr, hlk, hcache] using hl

/-- After `itrunc` the inode has no block left, in the cache and on disk. -/
theorem itrunc_spec {i : ℕ} {s : St} (h : Core sb i s) :
    Triple NotFreeing (· = s) (itrunc i) (fun _ u => ∃ t, Truncating sb i s t ∧
      (∀ k ≤ NDIRECT, (t.icache i).ip.addrs k = 0) ∧
      u = (t.setIp i (fun d => { d with size := 0 })).iupdate i) := by
  have hdirect : Triple NotFreeing (· = s) ((List.range NDIRECT).forM (freeDirect i))
      (fun _ t => Truncating sb i s t ∧ ∀ k < NDIRECT, (t.icache i).ip.addrs k = 0) := by
    refine Triple.conseq (Triple.forM (I := fun ks t => Truncating sb i s t ∧
      ∀ k < NDIRECT, k ∉ ks → (t.icache i).ip.addrs k = 0) (fun k ks hsuf => .of_eq ?_)) ?_ ?_
    · rintro t ⟨ht, hdone⟩
      have hk : k < NDIRECT := List.mem_range.mp (hsuf.subset List.mem_cons_self)
      refine (freeDirect_spec hk t ht).weaken ?_
      rintro _ u ⟨hu, hat, hkeep⟩
      refine ⟨hu, fun l hl hnot => ?_⟩
      by_cases hlk : l = k
      · rw [hlk, hat]
      · exact hkeep l (hdone l hl (by simp [hlk, hnot]))
    · rintro _ rfl
      exact ⟨⟨h, rfl, fun _ _ => rfl, fun _ _ => rfl⟩,
        fun k hk hnot => absurd (List.mem_range.mpr hk) hnot⟩
    · rintro _ t ⟨ht, hdone⟩
      exact ⟨ht, fun k hk => hdone k hk (List.not_mem_nil)⟩
  refine .bind hdirect (fun _ => .of_eq fun t ht => ?_)
  obtain ⟨ht, hzero⟩ := ht
  refine .bind (freeIndirect_spec t ht) (fun _ => ?_)
  refine .bind (Q := fun _ u => ∃ t, Truncating sb i s t ∧
      (∀ k ≤ NDIRECT, (t.icache i).ip.addrs k = 0) ∧ u = t.setIp i (fun d => { d with size := 0 }))
    (.update ?_) (fun _ => .update ?_)
  · rintro u ⟨hu, hind, hkeep⟩
    refine ⟨u, hu, fun k hk => ?_, rfl⟩
    rcases Nat.lt_or_eq_of_le hk with hk | rfl
    · exact hkeep k (hzero k hk)
    · exact hind
  · rintro _ ⟨u, hu, hall, rfl⟩
    exact ⟨u, hu, hall, rfl⟩

/-- Once the inode is free on disk and out of the cache, everything agrees again. -/
theorem Truncating.freed {i : ℕ} {s t u : St} (h : Inv sb s) (ht : Truncating sb i s t)
    (hzero : ∀ k ≤ NDIRECT, (t.icache i).ip.addrs k = 0) (hbitmap : u.bitmap = t.bitmap)
    (hdata : u.data = t.data) (hcache : ∀ j, j ≠ i → u.icache j = t.icache j)
    (hdinode : ∀ j, j ≠ i → u.dinode j = t.dinode j) (hlocked : ¬ u.Locked i)
    (htype : (u.dinode i).type = 0) : Inv sb u := by
  have hinode : ∀ j, j ≠ i → u.inode j = t.inode j :=
    fun j hj => inode_congr (hcache j hj) (hdinode j hj)
  have hinode' : ∀ j, j ≠ i → u.inode j = s.inode j :=
    fun j hj => inode_congr ((hcache j hj).trans (ht.icache j hj))
      ((hdinode j hj).trans (congrFun ht.dinode j))
  have hi : (u.inode i).type = 0 := by rw [St.not_locked_inode hlocked, htype]
  have hnone : ∀ k, t.own sb (i, k) = 0 := by
    intro k
    by_cases hk : k ≤ NDIRECT
    · rw [ht.core.own_addrs hk, hzero k hk]
    · exact ht.core.own_no_indirect (by omega) (hzero _ (Nat.le_refl _))
  have hown : u.own sb = t.own sb := by
    funext ⟨j, k⟩
    by_cases hj : j = i
    · subst hj
      rw [hnone, St.own, pointer, if_neg (fun hcon => hcon.2.1 hi)]
    · rw [St.own, pointer, hinode j hj, hdata]
      rfl
  refine ⟨?_, fun j hj hne bn hbn => ?_, fun j hj => ?_⟩
  · rw [hbitmap, hown]
    exact ht.core.owns
  · have hji : j ≠ i := by
      rintro rfl
      exact hne hi
    rw [hown, ht.own (j, slotOf bn) hji]
    rw [hinode' j hji] at hne hbn
    exact h.covered j hj hne bn hbn
  · have hji : j ≠ i := by
      rintro rfl
      exact hlocked hj
    have hc := (hcache j hji).trans (ht.icache j hji)
    rw [St.Locked, hc] at hj
    rw [hc, hdinode j hji, ht.dinode]
    exact h.synced j hj

theorem iputLast_spec {s : St} (h : Inv sb s) (i : ℕ) :
    Triple NotFreeing (· = s) (iputLast i) (fun _ => Inv sb) := by
  refine .get_bind ?_
  rintro s rfl
  refine .ite (fun hcond => ?_) (fun _ => .pure ?_)
  · have hlocked : s.Locked i := ⟨by omega, hcond.1⟩
    refine .bind (itrunc_spec (h.core hlocked)) (fun _ => .of_eq fun u hu => ?_)
    obtain ⟨t, ht, hzero, rfl⟩ := hu
    refine .bind (Q := fun _ v => v = ((t.setIp i (fun d => { d with size := 0 })).iupdate i).setIp
      i (fun d => { d with type := 0 })) (.update ?_) (fun _ => ?_)
    · rintro _ rfl
      rfl
    refine .bind (Q := fun _ v => v = (((t.setIp i (fun d => { d with size := 0 })).iupdate i).setIp
      i (fun d => { d with type := 0 })).iupdate i) (.update ?_) (fun _ => .update ?_)
    · rintro _ rfl
      rfl
    · rintro _ rfl
      refine ht.freed h hzero rfl rfl (fun j hj => ?_) (fun j hj => ?_) ?_ ?_
      · simp [hj, setIp_icache_of_ne]
      · simp [St.iupdate, St.setIp, hj]
      · simp [St.Locked]
      · simp [St.iupdate]
  · rintro _ rfl
    exact h

theorem iput_spec {s : St} (h : Inv sb s) (i : ℕ) :
    Triple NotFreeing (· = s) (iput i) (fun _ => Inv sb) := by
  refine .bind (iputLast_spec h i) (fun _ => .update ?_)
  rintro t ht
  exact ht.drop i

/-! ## Allocating inodes -/

/-- A free inode is not in the cache, and a new one has no blocks. -/
theorem Inv.ialloc {s : St} (h : Inv sb s) {i : ℕ} (hfree : (s.dinode i).type = 0) (type : ℕ) :
    Inv sb { s with
      dinode := Function.update s.dinode i { Dinode.zero with type := type } } := by
  have hlocked : ¬ s.Locked i := fun hl => (h.synced i hl).2.1 hfree
  set t : St := { s with
    dinode := Function.update s.dinode i { Dinode.zero with type := type } } with ht
  have hinode : t.inode = Function.update s.inode i { Dinode.zero with type := type } := by
    funext j
    by_cases hj : j = i
    · subst hj
      rw [Function.update_self, St.not_locked_inode (s := t) hlocked]
      simp [ht]
    · rw [Function.update_of_ne hj]
      exact inode_congr rfl (by simp [ht, hj])
  have hold : ∀ k, s.own sb (i, k) = 0 := by
    intro k
    rw [St.own, pointer, St.not_locked_inode hlocked, if_neg (fun hcon => hcon.2.1 hfree)]
  have hown : t.own sb = s.own sb := by
    funext p
    obtain ⟨j, k⟩ := p
    by_cases hj : j = i
    · subst hj
      rw [hold, St.own, hinode, pointer]
      simp [pointerOf, Dinode.zero]
    · change pointer sb s.data t.inode (j, k) = pointer sb s.data s.inode (j, k)
      rw [hinode]
      simp [pointer, hj]
  refine ⟨?_, fun j hj hne bn hbn => ?_, fun j hj => ?_⟩
  · rw [hown]
    exact h.owns
  · rw [hinode] at hne hbn
    rw [hown]
    by_cases hji : j = i
    · simp [hji, Dinode.zero] at hbn
    · rw [Function.update_of_ne hji] at hne hbn
      exact h.covered j hj hne bn hbn
  · have hji : j ≠ i := by
      rintro rfl
      exact hlocked hj
    simpa [ht, hji] using h.synced j hj

theorem ialloc_spec {s : St} (h : Inv sb s) (type : ℕ) :
    Triple NotFreeing (· = s) (ialloc sb type) (fun _ => Inv sb) := by
  refine .get_bind ?_
  rintro s rfl
  cases hfind : (List.range' 1 (sb.ninodes - 1)).find?
      (fun inum => (s.dinode inum).type = 0) with
  | none => exact .throw (by simp [NotFreeing])
  | some i =>
    have hfree : (s.dinode i).type = 0 := by simpa using List.find?_some hfind
    refine .bind (Q := fun _ u => u = { s with
      dinode := Function.update s.dinode i { Dinode.zero with type := type } }) (.update ?_)
      (fun _ => ?_)
    · rintro _ rfl
      rfl
    exact .bind (iget_spec (h.ialloc hfree type) i) (fun _ => .pure (fun _ h => h))

/-! ## Directories -/

theorem readDirent_spec {s : St} (h : Inv sb s) {i : ℕ} (hi : s.Locked i) (off : ℕ) {p : Panic}
    (hp : NotFreeing p) :
    Triple NotFreeing (· = s) (readDirent sb i off p) (fun _ t => t = s) := by
  refine .bind (readi_spec h hi off DIRENT) (fun r => ?_)
  cases r with
  | none => exact .throw hp
  | some de => exact .ite (fun _ => .pure (fun _ h => h)) (fun _ => .throw hp)

theorem findName_spec {s : St} (h : Inv sb s) {i : ℕ} (hi : s.Locked i) (name : List UInt8)
    (offs : List ℕ) : Triple NotFreeing (· = s) (findName sb i name offs) (fun _ t => t = s) := by
  induction offs with
  | nil => exact .pure (fun _ h => h)
  | cons off offs ih =>
    exact .bind (readDirent_spec h hi off (by simp [NotFreeing])) (fun de =>
      .ite (fun _ => .pure (fun _ h => h)) (fun _ => ih))

theorem findEmpty_spec {s : St} (h : Inv sb s) {i : ℕ} (hi : s.Locked i) (last : ℕ)
    (offs : List ℕ) : Triple NotFreeing (· = s) (findEmpty sb i last offs) (fun _ t => t = s) := by
  induction offs with
  | nil => exact .pure (fun _ h => h)
  | cons off offs ih =>
    exact .bind (readDirent_spec h hi off (by simp [NotFreeing])) (fun de =>
      .ite (fun _ => .pure (fun _ h => h)) (fun _ => ih))

theorem dirlookup_spec {s : St} (h : Inv sb s) {i : ℕ} (hi : s.Locked i) (name : List UInt8) :
    Triple NotFreeing (· = s) (dirlookup sb i name)
      (fun r t => Inv sb t ∧ (r = none → t = s)) := by
  refine .get_bind ?_
  rintro s rfl
  refine .ite (fun _ => .throw (by simp [NotFreeing])) (fun _ => ?_)
  refine .bind (findName_spec h hi name _) (fun r => ?_)
  cases r with
  | none => exact .pure (by rintro _ rfl; exact ⟨h, fun _ => rfl⟩)
  | some p => exact .bind (iget_spec h p.1) (fun _ => .pure (fun t ht => ⟨ht, fun h => by cases h⟩))

theorem dirlink_spec {s : St} (h : Inv sb s) {i : ℕ} (hi : s.Locked i) (name : List UInt8)
    (inum : ℕ) : Triple NotFreeing (· = s) (dirlink sb i name inum) (fun _ => Inv sb) := by
  refine .bind (dirlookup_spec h hi name) (fun r => ?_)
  cases r with
  | some p =>
    refine .bind (Q := fun _ => Inv sb) (.of_eq fun t ht => iput_spec ht.1 p.1) (fun _ => ?_)
    exact .pure (fun _ h => h)
  | none =>
    refine .of_eq fun t ht => ?_
    obtain rfl := ht.2 rfl
    refine .get_bind ?_
    rintro t rfl
    refine .bind (findEmpty_spec h hi _ _) (fun off => ?_)
    refine .bind (writei_spec h hi _ off) (fun r => ?_)
    cases r with
    | none => exact .throw (by simp [NotFreeing])
    | some n => exact .ite (fun _ => .pure (fun _ h => h)) (fun _ => .throw (by simp [NotFreeing]))

/-! ## Runs -/

/-- A file system just mounted: the bitmap marks the blocks before the data blocks and those
some inode owns, each owned block has one owner, and no file has a hole below its size. -/
structure Consistent (sb : Superblock) (s : St) : Prop where
  owns : Owns sb.nmeta sb.size s.bitmap (pointer sb s.data s.dinode)
  covered : ∀ i, i < sb.ninodes → (s.dinode i).type ≠ 0 → ∀ bn, bn * BSIZE < (s.dinode i).size →
    bn < MAXFILE ∧ pointer sb s.data s.dinode (i, slotOf bn) ≠ 0
  icache : ∀ i, (s.icache i).ref = 0

def system (sb : Superblock) : System St Event := .ofNext (Consistent sb) (next sb)

theorem Consistent.inv {s : St} (h : Consistent sb s) : Inv sb s := by
  have hlocked : ∀ i, ¬ s.Locked i := by
    intro i hi
    have := hi.1
    rw [h.icache i] at this
    omega
  have hinode : s.inode = s.dinode := funext fun i => St.not_locked_inode (hlocked i)
  refine ⟨?_, fun i hi hne bn hbn => ?_, fun i hi => absurd hi (hlocked i)⟩
  · rw [St.own, hinode]
    exact h.owns
  · rw [St.own, hinode]
    rw [hinode] at hne hbn
    exact h.covered i hi hne bn hbn

theorem Event.run_spec {s : St} {e : Event} (h : Inv sb s) (hready : e.Ready sb s) :
    Triple NotFreeing (· = s) (e.run sb) (fun _ => Inv sb) := by
  cases e with
  | iget i => exact iget_spec h i
  | ilock i => exact ilock_spec h hready
  | setMeta i major minor nlink => exact setMeta_spec h hready major minor nlink
  | writei i src off => exact .bind (writei_spec h hready src off) (fun _ => .pure (fun _ h => h))
  | ialloc type => exact .bind (ialloc_spec h type) (fun _ => .pure (fun _ h => h))
  | dirlink i name inum => exact .bind (dirlink_spec h hready name inum) (fun _ => .pure (fun _ h => h))
  | iput i => exact iput_spec h i

theorem Inv.next {s t : St} {e : Event} (h : Inv sb s) (hstep : next sb s e = some t) :
    Inv sb t := by
  obtain ⟨hready, hrun⟩ := Option.ite_none_right_eq_some.mp hstep
  cases hr : e.run sb s with
  | error p => simp [hr] at hrun
  | ok r =>
    obtain ⟨u, t'⟩ := r
    obtain rfl : t' = t := by simpa [hr] using hrun
    exact (Event.run_spec h hready).ok rfl hr

theorem balloc_zeroed {s t : St} {b : ℕ} (h : balloc sb s = .ok (b, t)) :
    t.data b = fun _ => 0 := by
  obtain ⟨-, -, rfl⟩ := (balloc_spec s).ok rfl h
  simp [Allocated]

/-- After any sequence of complete steps a data block is marked used exactly when it is in one
slot of one allocated inode, and the blocks below the size of a file are there; no step frees a
block that is free, and a block is handed out zeroed. -/
theorem block_ownership {s₀ s : St} {es : List Event} (h₀ : Consistent sb s₀)
    (h : (system sb).Run s₀ es s) :
    (∀ b, sb.nmeta ≤ b → b < sb.size →
      (s.bitmap b = true ↔ ∃! p, pointer sb s.data s.dinode p = b)) ∧
    (∀ i < sb.ninodes, (s.dinode i).type ≠ 0 → ∀ bn, bn * BSIZE < (s.dinode i).size →
      bn < MAXFILE ∧ pointer sb s.data s.dinode (i, slotOf bn) ≠ 0) ∧
    (∀ e : Event, e.Ready sb s → e.run sb s ≠ .error .freeingFree) ∧
    (∀ u v b, balloc sb u = .ok (b, v) → v.data b = fun _ => 0) := by
  have hinv : Inv sb s := h.invariant h₀.inv (fun _ _ _ hs hstep => hs.next hstep)
  have hinode : s.inode = s.dinode := funext hinv.inode_eq
  have hown : s.own sb = pointer sb s.data s.dinode := by rw [St.own, hinode]
  refine ⟨fun b hlo hhi => ?_, fun i hi hne bn hbn => ?_, fun e hready herr => ?_,
    fun u v b hb => balloc_zeroed hb⟩
  · rw [← hown]
    exact hinv.owns.used_iff_unique hlo hhi
  · rw [← hown]
    rw [← hinode] at hne hbn
    exact hinv.covered i hi hne bn hbn
  · exact (Event.run_spec hinv hready).error rfl herr rfl

/-- An image of mkfs with an empty root directory in the first data block. -/
def mkfsSb : Superblock := ⟨1000, 200, 58, by decide⟩

def mkfsImage : St where
  bitmap b := b < 60
  data _ _ := 0
  dinode i := if i = 1 then ⟨T_DIR, 0, 0, 1, BSIZE, fun k => if k = 0 then 59 else 0⟩
    else Dinode.zero
  icache _ := ⟨0, false, Dinode.zero⟩

theorem mkfsImage_pointer (p : ℕ × ℕ) :
    pointer mkfsSb mkfsImage.data mkfsImage.dinode p = if p = (1, 0) then 59 else 0 := by
  obtain ⟨i, k⟩ := p
  by_cases hi : i = 1
  · subst hi
    by_cases hk : k = 0
    · subst hk
      rfl
    · simp [pointer, pointerOf, mkfsImage, hk]
  · simp [pointer, mkfsImage, hi, Dinode.zero]

theorem mkfsImage_consistent : Consistent mkfsSb mkfsImage where
  owns := {
    pos := by decide
    reserved := fun b hb => by
      have : b < 59 := hb
      simp [mkfsImage]
      omega
    range := fun p hp => by
      rw [mkfsImage_pointer] at hp ⊢
      split_ifs at hp ⊢
      · decide
      · exact absurd rfl hp
    inj := fun p q heq hne => by
      rw [mkfsImage_pointer] at heq hne
      rw [mkfsImage_pointer] at heq
      split_ifs at heq hne <;> simp_all
    used_iff := fun b hlo hhi => by
      have hlo : 59 ≤ b := hlo
      constructor
      · intro hb
        have hlt : b < 60 := by simpa [mkfsImage] using hb
        exact ⟨(1, 0), by rw [mkfsImage_pointer, if_pos rfl]; omega⟩
      · rintro ⟨p, hp⟩
        rw [mkfsImage_pointer] at hp
        simp only [mkfsImage, decide_eq_true_eq]
        split_ifs at hp <;> omega }
  covered i hi hne bn hbn := by
    by_cases h : i = 1
    · subst h
      have h0 : bn = 0 := by
        change bn * 512 < 512 at hbn
        omega
      subst h0
      rw [mkfsImage_pointer]
      decide
    · simp [mkfsImage, h, Dinode.zero] at hne
  icache _ := rfl

/-- A file that is written, and freed with its last reference. -/
def lifeOfFile : List Event := [.ialloc 2, .ilock 2, .writei 2 [7] 0, .iput 2]

theorem block_ownership_lifeOfFile : ∃ s, (system mkfsSb).Run mkfsImage lifeOfFile s ∧
    ∀ b, mkfsSb.nmeta ≤ b → b < mkfsSb.size →
      (s.bitmap b = true ↔ ∃! p, pointer mkfsSb s.data s.dinode p = b) := by
  have h : (runNext (next mkfsSb) mkfsImage lifeOfFile).isSome = true := by decide +kernel
  obtain ⟨s, hs⟩ := Option.isSome_iff_exists.mp h
  exact ⟨s, run_of_runNext hs, (block_ownership mkfsImage_consistent (run_of_runNext hs)).1⟩

end Ostep.FsBlocks

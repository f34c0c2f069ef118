import Ostep.FsLookup

/-!
# The calls keep the tree

Each call starts and ends with no reference and no link in flight. `create` makes the inode and
its links before the entries, `link` counts before it writes, `unlink` erases before it counts;
the lists of `Inv` say what is in flight where.
-/

namespace Ostep.FsTree
open OpTree Counting

section Changes
variable {mode : Mode} {ninodes : ℕ} {W : Proc → Option ℕ} {K T L : List ℕ} {s t : St} {i dp : ℕ}

theorem cond_incLink (h : Cond mode (.incLink i) s) :
    (mode = .look → (s.inode i).nlink ≠ BitVec.allOnes 16) ∧
    (mode = .strict → (s.inode i).nlink.toInt < 32767 ∧
      ((s.inode i).type = T_DIR → (s.inode i).nlink ≠ 0)) := by
  cases mode with
  | look => exact ⟨fun _ => h, nofun⟩
  | strict => exact ⟨nofun, fun _ => h⟩

theorem cond_writei {slot : ℕ} {e : Dirent} (h : Cond mode (.writei dp slot e) s) (he : e.inum ≠ 0) :
    mode = .strict → (s.inode dp).nlink ≠ 0 := by
  rintro rfl
  exact h.resolve_left he

/-- An inode with links is linked, or a link to it is pending. -/
theorem Tree.linked_of_nlink {tab : Table} (h : Tree .strict ninodes L tab W)
    (hi : (tab i).type ≠ 0) (hn : (tab i).nlink ≠ 0) (hL : i ∉ L) : Linked tab i := by
  obtain ⟨m, hm, -, -, hstrict⟩ := h.counted i hi
  obtain ⟨rfl, -⟩ := hstrict rfl
  by_contra hlinked
  have hnamed : ¬ 0 < named ninodes tab i := by
    intro hpos
    obtain ⟨d, hd⟩ := h.named_pos.mp hpos
    exact hlinked (.child (h.linked rfl d (List.ne_nil_of_mem hd)) hd)
  have hsubdirs : ¬ 0 < subdirs tab i := by
    intro hpos
    obtain ⟨j, hj, -⟩ := subdirs_pos.mp hpos
    exact hlinked (h.linked rfl i (List.ne_nil_of_mem hj))
  have hroot : i ≠ ROOTINO := fun e => hlinked (e ▸ .root)
  refine hn (hm.trans ?_)
  rw [links, if_neg hroot, List.count_eq_zero_of_not_mem hL, Nat.eq_zero_of_not_pos hnamed,
    Nat.eq_zero_of_not_pos hsubdirs]
  rfl

theorem Inv.incLink (h : Inv mode ninodes W K T L s) (hi : (s.inode i).type ≠ 0)
    (hC : Cond mode (.incLink i) s) :
    Inv mode ninodes W K T (i :: L) (s.setInode i (fun d => { d with nlink := d.nlink + 1 })) := by
  obtain ⟨hlook, hstrict⟩ := cond_incLink hC
  have htree := h.tree.incLink hi hlook (fun hm => (hstrict hm).1)
  have hne := ((h.tree.counted i hi).succ hlook (fun hm => (hstrict hm).1)).2
  exact h.setInode rfl (fun _ hn => absurd hn hne) htree

theorem Inv.decLink (h : Inv mode ninodes W K T (i :: L) s) (hv : (s.icache i).valid = true)
    (hi : i ∈ K) :
    Inv mode ninodes W K T L (s.setInode i (fun d => { d with nlink := d.nlink - 1 })) := by
  refine h.setInode rfl (fun _ _ => ⟨hv, ?_⟩) h.tree.decLink
  have := List.count_pos_iff.mpr hi
  simp only [users]
  omega

theorem Inv.addEntry {name : Name}
    (h : Inv mode ninodes W K T (i :: if (s.inode i).type = T_DIR then dp :: L else L) s)
    (hdp : (s.inode dp).type = T_DIR) (hfind : (s.inode dp).findEnt name = none)
    (hroot : i ≠ ROOTINO) (hdir : (s.inode i).type = T_DIR →
      (s.inode i).parent = dp ∧ (s.inode i).sub = [] ∧ ∀ d, i ∉ (s.inode d).sub)
    (hlinked : mode = .strict → Linked s.inode dp) :
    Inv mode ninodes W K T L
      (s.setInode dp (fun d => d.store (s.inode dp).freeSlot ⟨i, name⟩)) := by
  have halloc : (s.inode i).type ≠ 0 := h.tree.pending i (List.mem_cons_self ..)
  have hi : i ≠ 0 := (h.tree.bound i halloc).1
  have hshape := h.tree.shaped dp hdp
  have hdp0 : dp ≠ 0 := (h.tree.bound dp (by rw [hdp]; decide)).1
  obtain ⟨k, hk, hperm⟩ := hshape.freeSlot (e := ⟨i, name⟩) hdp0 hi
  refine h.setInode rfl (fun ht hn => h.refs.zombie dp ht hn) ?_
  refine h.tree.addEntry hdp hdp rfl ?_ ?_ hperm hroot hdir hlinked
  · rw [hk]
    exact hshape.store fun _ => hshape.not_dots hdp0 hfind
  · rw [hk]
    exact hshape.parent_store

theorem Inv.eraseEntry {name : Name} {slot : ℕ} (h : Inv mode ninodes W K T L s)
    (hdp : (s.inode dp).type = T_DIR) (hfind : (s.inode dp).findEnt name = some slot)
    (hdot : name ≠ dot) (hdotdot : name ≠ dotdot) (hi : (s.inode dp).entInum slot = i)
    (hempty : (s.inode i).type = T_DIR → (s.inode i).sub = []) :
    Inv mode ninodes W K T (i :: if (s.inode i).type = T_DIR then dp :: L else L)
      (s.setInode dp (fun d => d.store slot ⟨0, []⟩)) := by
  have hshape := h.tree.shaped dp hdp
  obtain ⟨k, rfl, hperm⟩ := hshape.erase hfind hdot hdotdot
  refine h.setInode rfl (fun ht hn => h.refs.zombie dp ht hn) ?_
  refine h.tree.eraseEntry hdp hdp rfl (hshape.store fun h => absurd rfl h) hshape.parent_store
    (hi ▸ hperm) hempty

/-- An inode that was free is allocated, with the reference and the link of the call. -/
theorem Inv.newInode (h : Inv mode ninodes W K T L s) {x : Inode} (hfree : (s.inode i).type = 0)
    (hi : i ≠ 0 ∧ i < ninodes) (hT : i ∉ T) (htype : x.type ≠ 0) (hnlink : x.nlink = 1)
    (hsub : x.sub = []) (hempty : x.type ≠ T_DIR → x.ents = [])
    (hshaped : x.type = T_DIR → x.Shaped i ∧ (s.inode x.parent).type ≠ 0)
    (hinode : t.inode = Function.update s.inode i x)
    (hcache : t.icache = Function.update s.icache i ⟨1, true⟩) (hfile : t.file = s.file) :
    Inv mode ninodes W (i :: K) T (i :: L) t := by
  have hunused : users s.file W K i = 0 := by
    by_contra hu
    exact h.refs.kept i (Nat.pos_of_ne_zero hu) hfree
  have hxi : t.inode i = x := by rw [hinode, Function.update_self]
  have hci : t.icache i = ⟨1, true⟩ := by rw [hcache, Function.update_self]
  have hother : ∀ j, j ≠ i → t.inode j = s.inode j ∧ t.icache j = s.icache j ∧
      users t.file W (i :: K) j = users s.file W K j :=
    fun j hj => ⟨by rw [hinode, Function.update_of_ne hj], by rw [hcache, Function.update_of_ne hj],
      by rw [hfile, users_cons_ne hj]⟩
  have husers : users t.file W (i :: K) i = 1 := by rw [hfile, users_cons, hunused]
  refine ⟨⟨fun j => ?_, fun j hj hv => ?_, fun j hj => ?_, fun j ht hn => ?_⟩,
    hinode ▸ h.tree.newInode hfree hi htype hnlink hsub hempty hshaped, hfile ▸ h.closed⟩
  · rcases eq_or_ne j i with rfl | hji
    · rw [hci, husers, List.count_eq_zero_of_not_mem hT]
    · obtain ⟨-, hc, hu⟩ := hother j hji
      rw [hc, hu]
      exact h.refs.ref j
  · rcases eq_or_ne j i with rfl | hji
    · rwa [hxi]
    · obtain ⟨hij, hc, -⟩ := hother j hji
      rw [hc] at hj hv
      rw [hij]
      exact h.refs.valid j hj hv
  · rcases eq_or_ne j i with rfl | hji
    · rwa [hxi]
    · obtain ⟨hij, -, hu⟩ := hother j hji
      rw [hu] at hj
      rw [hij]
      exact h.refs.kept j hj
  · rcases eq_or_ne j i with rfl | hji
    · rw [hci, husers]
      exact ⟨rfl, Nat.one_pos⟩
    · obtain ⟨hij, hc, hu⟩ := hother j hji
      rw [hij] at ht hn
      rw [hc, hu]
      exact h.refs.zombie j ht hn

/-- References pass between the call and working directories. -/
theorem Inv.setW (h : Inv mode ninodes W K T L s) {W' : Proc → Option ℕ} {K' : List ℕ}
    (hcount : ∀ j, occ W' j + K'.count j = occ W j + K.count j)
    (hcwd : ∀ q i, W' q = some i →
      (s.inode i).type = T_DIR ∧ (mode = .look → Lookup s.inode W i)) :
    Inv mode ninodes W' K' T L s := by
  have husers : users s.file W' K' = users s.file W K := by
    funext j
    have := hcount j
    simp only [users]
    omega
  refine ⟨?_, h.tree.setCwd hcwd, h.closed⟩
  rw [husers]
  exact h.refs

/-- A reference passes from the call to an open file, or back. -/
theorem Inv.setFile (h : Inv mode ninodes W K T L s) {f : FileSlot} {g : File → File}
    {K' : List ℕ} (hcount : ∀ j, (if (g (s.file f)).ip = some j then 1 else 0) + K'.count j =
      (if (s.file f).ip = some j then 1 else 0) + K.count j)
    (hclosed : (g (s.file f)).ref = 0 → (g (s.file f)).ip = none) :
    Inv mode ninodes W K' T L (s.setFile f g) := by
  have hips : (fun f' => ((s.setFile f g).file f').ip) =
      Function.update (fun f' => (s.file f').ip) f (g (s.file f)).ip := by
    funext f'
    rcases eq_or_ne f' f with rfl | hf
    · simp only [St.setFile, Function.update_self]
    · simp only [St.setFile, Function.update_of_ne hf]
  have husers : users (s.setFile f g).file W K' = users s.file W K := by
    funext j
    have hocc := occ_update (fun f' => (s.file f').ip) f (g (s.file f)).ip j
    have hj := hcount j
    simp only [users, hips]
    omega
  refine ⟨?_, h.tree, fun f' hf' => ?_⟩
  · rw [husers]
    exact ⟨h.refs.ref, h.refs.valid, h.refs.kept, h.refs.zombie⟩
  rcases eq_or_ne f' f with rfl | hf
  · simp only [St.setFile, Function.update_self] at hf' ⊢
    exact hclosed hf'
  · simp only [St.setFile, Function.update_of_ne hf] at hf' ⊢
    exact h.closed f' hf'

end Changes

section Create
variable {mode : Mode} {ninodes : ℕ} {q : Proc} {s : St} {i dp : ℕ}

/-- No reference and no link is in flight. -/
abbrev Rest (mode : Mode) (ninodes : ℕ) (s : St) : Prop := Inv mode ninodes s.cwd [] [] [] s

theorem Inv.rest {W : Proc → Option ℕ} (h : Inv mode ninodes W [] [] [] s) (hW : s.cwd = W) :
    Rest mode ninodes s := by
  subst hW
  exact h

theorem wp_dirlinkAbsent {name : Name} {Q : Bool → St → Prop}
    (hfind : (s.inode dp).findEnt name = none)
    (hQ : Cond mode (.writei dp (s.inode dp).freeSlot ⟨i, name⟩) s →
      Q true (s.setInode dp (fun d => d.store (s.inode dp).freeSlot ⟨i, name⟩))) :
    Wp mode ninodes q (dirlink dp name i) Q s := by
  refine wp_bind.mpr (wp_dirlookup (fun _ _ => ?_) fun slot _ h => ?_)
  · refine wp_call_bind.mpr fun _ => wp_call_bind.mpr fun hC => ?_
    simp only [act]
    split_ifs
    · exact hQ hC
    · exact wp_panic (by decide)
  · rw [hfind] at h
    cases h

theorem wp_ialloc {type : ℕ} {Q : ℕ → St → Prop}
    (hQ : ∀ n, (s.inode n).type = 0 → n ≠ 0 → n < ninodes →
      Q n ((s.setInode n (fun _ => { Inode.zero with type := type })).setSlot n Slot.get)) :
    Wp mode ninodes q (ialloc type) Q s := by
  refine wp_call_bind.mpr fun _ => ?_
  simp only [act]
  cases hn : (List.range' 1 (ninodes - 1)).find? (fun i => (s.inode i).type = 0) with
  | none => exact fun _ h => by cases h
  | some n =>
    have hfree : (s.inode n).type = 0 := by simpa using List.find?_some hn
    have hmem := List.mem_range'_1.mp (List.mem_of_find?_eq_some hn)
    exact wp_call_bind.mpr fun _ => hQ n hfree (by omega) (by omega)

/-- `ilock` of an inode that has just been allocated, and the first `iupdate` of it. -/
theorem wp_initInode {type : ℕ} {major minor : Short} {Q : Unit → St → Prop}
    (href : (s.icache i).ref = 0) (htype : type ≠ 0)
    (hQ : ∀ t, t.inode = Function.update s.inode i ⟨type, major, minor, 1, []⟩ →
      t.icache = Function.update s.icache i ⟨1, true⟩ → t.file = s.file → t.cwd = s.cwd → Q () t) :
    Wp mode ninodes q (do ilock i; perform (.setMeta i major minor)) Q
      ((s.setInode i (fun _ => { Inode.zero with type := type })).setSlot i Slot.get) := by
  have hget : Slot.get (s.icache i) = ⟨1, false⟩ := if_neg (by omega)
  refine wp_bind.mpr (wp_bind.mpr (wp_checkRef fun _ => ?_))
  refine wp_bind.mpr (wp_acquiresleep (wp_load (fun _ => ?_) (fun hv => ?_) fun _ _ => ?_))
  · simpa [St.setInode, St.setSlot, St.setLock] using htype
  · change (Function.update s.icache i (Slot.get (s.icache i)) i).valid = true at hv
    rw [Function.update_self, hget] at hv
    cases hv
  · refine hQ _ ?_ ?_ rfl rfl
    · simp [St.setInode, St.setSlot, St.setLock, Inode.zero]
    · simp [St.setInode, St.setSlot, St.setLock, hget]

theorem wp_createDots {Q : Unit → St → Prop} {major minor : Short} (hne : i ≠ dp) (hi : i ≠ 0)
    (hn : s.inode i = ⟨T_DIR, major, minor, 1, []⟩)
    (hQ : ∀ t, Cond mode (.incLink dp) s →
      t.inode = Function.update (Function.update s.inode dp
        { s.inode dp with nlink := (s.inode dp).nlink + 1 }) i
          ⟨T_DIR, major, minor, 1, [⟨i, dot⟩, ⟨dp, dotdot⟩]⟩ →
      t.icache = s.icache → t.file = s.file → t.cwd = s.cwd → Q () t) :
    Wp mode ninodes q (createDots dp i) Q s := by
  refine wp_call_bind.mpr fun hC => ?_
  simp only [act]
  generalize hs' : s.setInode dp (fun d => { d with nlink := d.nlink + 1 }) = s'
  have hn' : s'.inode i = ⟨T_DIR, major, minor, 1, []⟩ := by
    rw [← hs', St.setInode]
    simp only [Function.update_of_ne hne, hn]
  have hone : s'.setInode i (fun d => d.store (s'.inode i).freeSlot ⟨i, dot⟩) =
      s'.setInode i (fun _ => ⟨T_DIR, major, minor, 1, [⟨i, dot⟩]⟩) := by
    rw [St.setInode, St.setInode, hn']
    rfl
  refine wp_bind.mpr (wp_dirlinkAbsent (by rw [hn']; rfl) fun _ => ?_)
  rw [hone]
  refine wp_ite (fun _ => ?_) fun h => absurd rfl h
  generalize hs'' : s'.setInode i (fun _ => ⟨T_DIR, major, minor, 1, [⟨i, dot⟩]⟩) = s''
  have hn'' : s''.inode i = ⟨T_DIR, major, minor, 1, [⟨i, dot⟩]⟩ := by
    rw [← hs'', St.setInode]
    simp only [Function.update_self]
  have hslot : (⟨T_DIR, major, minor, 1, [⟨i, dot⟩]⟩ : Inode).freeSlot = 1 := by
    simp [Inode.freeSlot, List.findIdx_cons, hi]
  have htwo : s''.setInode i (fun d => d.store (s''.inode i).freeSlot ⟨dp, dotdot⟩) =
      s''.setInode i (fun _ => ⟨T_DIR, major, minor, 1, [⟨i, dot⟩, ⟨dp, dotdot⟩]⟩) := by
    rw [St.setInode, St.setInode, hn'', hslot]
    rfl
  refine wp_bind.mpr (wp_dirlinkAbsent (by rw [hn'']; simp [Inode.findEnt]) fun _ => ?_)
  rw [htwo]
  refine wp_ite (fun _ => ?_) fun h => absurd rfl h
  refine hQ _ hC ?_ (by rw [← hs'', ← hs']; rfl) (by rw [← hs'', ← hs']; rfl)
    (by rw [← hs'', ← hs']; rfl)
  rw [← hs'', ← hs']
  simp [St.setInode]

/-- A new inode with what its type needs, before it has an entry. -/
theorem wp_initDots {n type : ℕ} {major minor : Short} {t : St} {Q : Unit → St → Prop}
    (h : Inv mode ninodes s.cwd [] [dp] [] s) (hdp : (s.inode dp).type = T_DIR)
    (htype : type ≠ 0) (hfree : (s.inode n).type = 0) (hn : n ≠ 0 ∧ n < ninodes)
    (hinode : t.inode = Function.update s.inode n ⟨type, major, minor, 1, []⟩)
    (hcache : t.icache = Function.update s.icache n ⟨1, true⟩) (hfile : t.file = s.file)
    (hcwd : t.cwd = s.cwd)
    (hQ : ∀ u, Inv mode ninodes u.cwd [n] [dp] (n :: if (u.inode n).type = T_DIR then [dp] else []) u →
      (u.inode dp).type = T_DIR → (u.inode dp).ents = (s.inode dp).ents → n ≠ dp →
      ((u.inode n).type = T_DIR →
        (u.inode n).parent = dp ∧ (u.inode n).sub = [] ∧ ∀ d, n ∉ (u.inode d).sub) →
      (mode = .strict → (u.inode n).type = T_DIR → Linked u.inode dp) → Q () u) :
    Wp mode ninodes q (initDots dp n type) Q t := by
  have hdp0 : (s.inode dp).type ≠ 0 := by
    rw [hdp]
    decide
  have hne : n ≠ dp := fun e => hdp0 (e ▸ hfree)
  have hT : n ∉ [dp] := by simpa using hne
  have htn : t.inode n = ⟨type, major, minor, 1, []⟩ := by rw [hinode, Function.update_self]
  have htdp : t.inode dp = s.inode dp := by rw [hinode, Function.update_of_ne hne.symm]
  refine wp_ite (fun hdir => ?_) fun hdir => ?_
  · subst hdir
    refine wp_createDots hne hn.1 htn fun u hC huinode hucache hufile hucwd => ?_
    have hCs : Cond mode (.incLink dp) s := by
      cases mode with
      | look =>
        change (t.inode dp).nlink ≠ _ at hC
        rwa [htdp] at hC
      | strict =>
        change (t.inode dp).nlink.toInt < _ ∧ _ at hC
        rwa [htdp] at hC
    have hinc := h.incLink hdp0 hCs
    have hu : u.inode = Function.update (s.setInode dp (fun d => { d with nlink := d.nlink + 1 })).inode n
        ⟨T_DIR, major, minor, 1, [⟨n, dot⟩, ⟨dp, dotdot⟩]⟩ := by
      rw [huinode, htdp, hinode, Function.update_comm hne, Function.update_idem]
      rfl
    have hdpinc : (s.setInode dp (fun d => { d with nlink := d.nlink + 1 })).inode dp =
        { s.inode dp with nlink := (s.inode dp).nlink + 1 } := s.inode_setInode ..
    have hfree' : ((s.setInode dp (fun d => { d with nlink := d.nlink + 1 })).inode n).type = 0 := by
      rwa [s.inode_setInode_ne hne]
    have hinv := hinc.newInode hfree' hn hT htype rfl rfl (fun h => absurd rfl h)
      (fun _ => ⟨⟨dp, [], (h.tree.bound dp hdp0).1, rfl, by simp⟩, ?_⟩) hu
      (hucache.trans hcache) (hufile.trans hfile)
    · have hun : u.inode n = ⟨T_DIR, major, minor, 1, [⟨n, dot⟩, ⟨dp, dotdot⟩]⟩ := by
        rw [hu, Function.update_self]
      have hudp : u.inode dp = { s.inode dp with nlink := (s.inode dp).nlink + 1 } := by
        rw [hu, Function.update_of_ne hne.symm, hdpinc]
      have hsub : ∀ d, (u.inode d).sub = (s.inode d).sub := by
        intro d
        rcases eq_or_ne d n with rfl | hd
        · rw [hun, h.tree.sub_nil (by rw [hfree]; decide)]
          rfl
        · rcases eq_or_ne d dp with rfl | hdd
          · rw [hudp]
            rfl
          · rw [hu, Function.update_of_ne hd, s.inode_setInode_ne hdd]
      have hcwd' : u.cwd = s.cwd := hucwd.trans hcwd
      refine hQ u ?_ ?_ ?_ hne (fun _ => ⟨?_, ?_, fun d hd => ?_⟩) fun hm _ => ?_
      · rw [hcwd', hun]
        exact hinv
      · rw [hudp]
        exact hdp
      · rw [hudp]
      · rw [hun]
        rfl
      · rw [hun]
        rfl
      · rw [hsub] at hd
        exact (h.tree.alloc d n hd).1 hfree
      · subst hm
        have hl := h.tree.linked_of_nlink hdp0 (((cond_incLink hCs).2 rfl).2 hdp) (by simp)
        exact hl.mono fun d j hj => by rwa [hsub]
    · rw [show (⟨T_DIR, major, minor, 1, [⟨n, dot⟩, ⟨dp, dotdot⟩]⟩ : Inode).parent = dp from rfl,
        hdpinc]
      exact hdp0
  · have hinv := h.newInode (x := ⟨type, major, minor, 1, []⟩) hfree hn hT htype rfl rfl
      (fun _ => rfl) (fun h => absurd h hdir) hinode hcache hfile
    refine hQ t ?_ (by rw [htdp, hdp]) (by rw [htdp]) hne (fun h => ?_) fun _ h => ?_
    · rw [htn, if_neg hdir, hcwd]
      exact hinv
    · rw [htn] at h
      exact absurd h hdir
    · rw [htn] at h
      exact absurd h hdir

theorem wp_createNew {name : Name} {type : ℕ} {major minor : Short} {Q : Option ℕ → St → Prop}
    (h : Inv mode ninodes s.cwd [] [dp] [] s) (hdp : (s.inode dp).type = T_DIR)
    (hfind : (s.inode dp).findEnt name = none) (htype : type ≠ 0)
    (hQ : ∀ t n, Inv mode ninodes t.cwd [n] [] [] t → Q (some n) t) :
    Wp mode ninodes q (createNew dp name type major minor) Q s := by
  refine wp_bind.mpr (wp_ialloc fun n hfree hn0 hn => ?_)
  have href : (s.icache n).ref = 0 := by
    have hr := h.refs.ref n
    have hne : dp ≠ n := by
      rintro rfl
      rw [hdp] at hfree
      cases hfree
    have hunused : ¬ 0 < users s.file s.cwd [] n := fun hu => h.refs.kept n hu hfree
    rw [List.count_cons_of_ne hne, List.count_nil] at hr
    omega
  refine wp_bind.mpr (wp_mono (wp_bind.mp (wp_initInode href htype
    fun t hinode hcache hfile hcwd => ?_)) fun _ _ h => wp_bind.mpr h)
  refine wp_bind.mpr (wp_initDots h hdp htype hfree ⟨hn0, hn⟩ hinode hcache hfile hcwd
    fun u hu hudp hents hne hdir hlinked => ?_)
  have hfind' : (u.inode dp).findEnt name = none := by rwa [Inode.findEnt, hents]
  refine wp_bind.mpr (wp_dirlinkAbsent hfind' fun hC => ?_)
  refine wp_ite (fun _ => ?_) fun h => absurd rfl h
  have hroot : n ≠ ROOTINO := by
    rintro rfl
    exact h.tree.root_ne_zero hfree
  have hadd := hu.addEntry hudp hfind' hroot hdir fun hm => ?_
  · exact wp_bind.mpr (wp_iunlockput hadd fun v hv huv => hQ v n (huv.cwd ▸ hv))
  · subst hm
    by_cases hd : (u.inode n).type = T_DIR
    · exact hlinked rfl hd
    · refine hu.tree.linked_of_nlink ?_ (cond_writei hC hn0 rfl) ?_
      · rw [hudp]
        decide
      · rw [if_neg hd]
        simpa using hne.symm

theorem wp_create {path : List Char} {type : ℕ} {major minor : Short} {Q : Option ℕ → St → Prop}
    (h : Rest mode ninodes s) (htype : type ≠ 0) (hnone : ∀ t, Rest mode ninodes t → Q none t)
    (hsome : ∀ t n, Inv mode ninodes t.cwd [n] [] [] t → Q (some n) t) :
    Wp mode ninodes q (create path type major minor) Q s := by
  refine wp_bind.mpr (wp_namex h (fun t ht _ => hnone t ht) fun t dp name ht _ hlook hdir => ?_)
  have hdp : (t.inode dp).type = T_DIR := hdir rfl
  have hdp0 : (t.inode dp).type ≠ 0 := by
    rw [hdp]
    decide
  refine wp_bind.mpr (wp_ilock ht (fun _ => hdp0) fun u hu htu _ _ _ => ?_)
  have hudp : (u.inode dp).type = T_DIR := by rw [htu.inode, hdp]
  rw [← htu.cwd] at hu
  refine wp_bind.mpr (wp_dirlookup (fun _ hfind => ?_) fun slot _ hfind => ?_)
  · exact wp_createNew hu hudp hfind htype hsome
  · have hget := (hu.get ((u.inode dp).entInum slot)).perm (List.Perm.swap ..)
    refine wp_bind.mpr (wp_iunlockput hget fun v hv huv => ?_)
    have hinode : v.inode = u.inode := huv.inode
    have halloc : mode = .look → (v.inode ((u.inode dp).entInum slot)).type ≠ 0 := by
      rintro rfl
      rw [hinode]
      refine hu.tree.lookup_alloc (hu.tree.lookup_found ?_ hudp hfind)
      rw [htu.inode, htu.cwd]
      exact hlook rfl
    refine wp_bind.mpr (wp_ilock hv halloc fun w hw hvw _ _ hne => wp_call_bind.mpr fun _ => ?_)
    have hcwd : w.cwd = u.cwd := hvw.cwd.trans huv.cwd
    rw [← hcwd] at hw
    refine wp_ite (fun _ => ?_) fun _ => ?_
    · exact hsome w _ (hw.keep (by rwa [hvw.inode]))
    · exact wp_bind.mpr (wp_iunlockput hw fun x hx hwx => hnone x (hx.rest hwx.cwd))

theorem wp_createPut {path : List Char} {type : ℕ} {major minor : Short} {Q : ℤ → St → Prop}
    (h : Rest mode ninodes s) (htype : type ≠ 0) (hQ : ∀ r t, Rest mode ninodes t → Q r t) :
    Wp mode ninodes q (do let r ← create path type major minor; putCreated r) Q s := by
  refine wp_bind.mpr (wp_create h htype (fun t ht => hQ _ t ht) fun t n ht => ?_)
  refine wp_bind.mpr (wp_iunlockputKept ht (by simp) (fun _ _ => id) fun u hu hcwd _ _ => ?_)
  exact hQ _ u (hu.rest hcwd)

end Create

section Files
variable {mode : Mode} {ninodes : ℕ} {q : Proc} {s : St} {K : List ℕ} {Q : ℤ → St → Prop}

/-- `namei`, followed by `ilock`: the call keeps the inode. -/
theorem wp_nameiLock {path : List Char} {α : Type} {f : Option ℕ → Fs α} {R : α → St → Prop}
    {k : ℕ → Fs α} (hk : ∀ ip, f (some ip) = (do ilock ip; k ip)) (h : Rest mode ninodes s)
    (hnone : ∀ t, Rest mode ninodes t → Wp mode ninodes q (f none) R t)
    (hsome : ∀ t ip, Inv mode ninodes t.cwd [ip] [] [] t → (t.icache ip).valid = true →
      (mode = .look → Lookup t.inode t.cwd ip) → Wp mode ninodes q (k ip) R t) :
    Wp mode ninodes q (do let r ← namei path; f r) R s := by
  refine wp_bind.mpr (wp_bind.mpr (wp_namex h (fun t ht _ => hnone t ht)
    fun t ip name ht _ hlook _ => ?_))
  have halloc : mode = .look → (t.inode ip).type ≠ 0 := by
    rintro rfl
    exact ht.tree.lookup_alloc (hlook rfl)
  change Wp mode ninodes q (f (some ip)) R t
  rw [hk]
  refine wp_bind.mpr (wp_ilock ht halloc fun u hu htu _ hv hne => ?_)
  refine hsome u ip ?_ hv fun hm => ?_
  · rw [htu.cwd]
    exact hu.keep (by rwa [htu.inode])
  · rw [htu.inode, htu.cwd]
    exact hlook hm

/-- A call that fails puts the inode it has locked. -/
theorem wp_putFail {ip : ℕ} (h : Inv mode ninodes s.cwd [ip] [] [] s)
    (hQ : ∀ r t, Rest mode ninodes t → Q r t) :
    Wp mode ninodes q (do iunlockput ip; pure (-1)) Q s :=
  wp_bind.mpr (wp_iunlockputKept h (by simp) (fun _ _ => id)
    fun t ht hcwd _ _ => hQ _ t (ht.rest hcwd))

theorem wp_fileclose {f : FileSlot} {R : Unit → St → Prop} (h : Inv mode ninodes s.cwd K [] [] s)
    (hQ : ∀ t, Inv mode ninodes t.cwd K [] [] t → R () t) :
    Wp mode ninodes q (fileclose f) R s := by
  refine wp_call_bind.mpr fun _ => ?_
  simp only [act]
  split_ifs with hzero hshared
  · exact fun _ h => by cases h
  · have href : (s.file f).ref - 1 ≠ 0 := by omega
    exact hQ _ (h.setFile (fun _ => rfl) fun h => absurd h href)
  · cases hip : (s.file f).ip with
    | none => exact hQ _ (h.setFile (fun j => by simp [hip]) fun _ => rfl)
    | some ip =>
      have hput : Inv mode ninodes s.cwd (ip :: K) [] [] (s.setFile f (fun _ => ⟨0, none⟩)) := by
        refine h.setFile (fun j => ?_) fun _ => rfl
        simp only [hip, List.count_cons, Option.some.injEq, beq_iff_eq, reduceCtorEq, if_false]
        omega
      exact wp_iputKept hput (by simp) (fun _ _ => id) fun t ht hcwd _ _ => hQ t (hcwd ▸ ht)

theorem wp_openInode {path : List Char} {omode : ℕ} {R : Option ℕ → St → Prop}
    (h : Rest mode ninodes s) (hnone : ∀ t, Rest mode ninodes t → R none t)
    (hsome : ∀ t n, Inv mode ninodes t.cwd [n] [] [] t → R (some n) t) :
    Wp mode ninodes q (openInode path omode) R s := by
  refine wp_ite (fun _ => wp_create h (by decide) hnone hsome) fun _ => ?_
  refine wp_nameiLock (fun _ => rfl) h hnone fun t ip ht _ _ => wp_call_bind.mpr fun _ => ?_
  refine wp_ite (fun _ => ?_) fun _ => hsome t ip ht
  exact wp_bind.mpr (wp_iunlockputKept ht (by simp) (fun _ _ => id)
    fun u hu hcwd _ _ => hnone u (hu.rest hcwd))

theorem wp_openFd {ip : ℕ} {f : FileSlot} (h : Inv mode ninodes s.cwd [ip] [] [] s)
    (href : (s.file f).ref ≠ 0) (hip : (s.file f).ip = none)
    (hQ : ∀ r t, Rest mode ninodes t → Q r t) :
    Wp mode ninodes q (openFd ip f) Q s := by
  refine wp_call_bind.mpr fun _ => ?_
  simp only [act]
  cases hfd : (List.finRange NOFILE).find? (fun fd => s.ofile q fd = none) with
  | none => exact wp_bind.mpr (wp_fileclose h fun t ht => wp_putFail ht hQ)
  | some fd =>
    have hset : Inv mode ninodes s.cwd [ip] [] [] (s.setFd q fd (some f)) := h.congr rfl rfl rfl
    refine wp_bind.mpr (wp_iunlock hset fun t ht hst _ => wp_call_bind.mpr fun _ => ?_)
    have hfile : t.file f = s.file f := by rw [hst.file, St.setFd]
    have hopen : Inv mode ninodes s.cwd [] [] [] (t.setFile f (fun g => { g with ip := some ip })) := by
      refine ht.setFile (fun j => ?_) fun h => absurd h (by rwa [hfile])
      simp only [hfile, hip, List.count_cons, List.count_nil, Option.some.injEq, beq_iff_eq,
        reduceCtorEq, if_false]
      omega
    exact hQ _ _ (hopen.rest hst.cwd)

theorem wp_sys_open {path : List Char} {omode : ℕ} (h : Rest mode ninodes s)
    (hQ : ∀ r t, Rest mode ninodes t → Q r t) :
    Wp mode ninodes q (sys_open path omode) Q s := by
  refine wp_bind.mpr (wp_openInode h (fun t ht => hQ _ t ht) fun t ip ht => ?_)
  refine wp_call_bind.mpr fun _ => ?_
  simp only [act]
  cases hf : (List.finRange NFILE).find? (fun f => (t.file f).ref = 0) with
  | none => exact wp_putFail ht hQ
  | some f =>
    have href : (t.file f).ref = 0 := by simpa using List.find?_some hf
    refine wp_openFd (ht.setFile (fun _ => rfl) fun h => absurd h (by simp)) ?_ ?_ hQ
    · simp [St.setFile]
    · simpa [St.setFile] using ht.closed f href

theorem wp_ofile {fd : ℕ} {R : Option FileSlot → St → Prop} (hR : ∀ f, R f s) :
    Wp mode ninodes q (perform (.ofile fd)) R s :=
  fun _ => hR _

theorem wp_clearFd {fd : ℕ} {R : Unit → St → Prop} (h : Rest mode ninodes s)
    (hR : ∀ t, Rest mode ninodes t → R () t) : Wp mode ninodes q (perform (.clearFd fd)) R s := by
  intro _
  simp only [act]
  split_ifs
  · exact hR _ (h.congr rfl rfl rfl)
  · exact hR s h

theorem wp_sys_close {fd : ℕ} (h : Rest mode ninodes s) (hQ : ∀ r t, Rest mode ninodes t → Q r t) :
    Wp mode ninodes q (sys_close fd) Q s := by
  refine wp_bind.mpr (wp_ofile fun f => ?_)
  cases f with
  | none => exact hQ _ s h
  | some f =>
    refine wp_bind.mpr (wp_clearFd h fun t ht => ?_)
    exact wp_bind.mpr (wp_fileclose ht fun u hu => hQ _ u hu)

theorem wp_exitCloseAll {fds : List ℕ} {R : Unit → St → Prop} (h : Rest mode ninodes s)
    (hQ : ∀ t, Rest mode ninodes t → R () t) : Wp mode ninodes q (exitCloseAll fds) R s := by
  induction fds generalizing s with
  | nil => exact hQ s h
  | cons fd fds ih =>
    refine wp_bind.mpr (wp_bind.mpr (wp_ofile fun f => ?_))
    cases f with
    | none => exact ih h
    | some f => exact wp_bind.mpr (wp_fileclose h fun t ht => wp_clearFd ht fun u hu => ih hu)

/-- A process leaves its directory for `new`, or for good. -/
theorem wp_putCwd (new : Option ℕ) {old : ℕ} {R : Unit → St → Prop}
    (h : Inv mode ninodes s.cwd new.toList [] [] s) (hold : s.cwd q = some old)
    (hnew : ∀ i, new = some i →
      (s.inode i).type = T_DIR ∧ (mode = .look → Lookup s.inode s.cwd i))
    (hQ : ∀ t, Rest mode ninodes t → R () t) :
    Wp mode ninodes q (do iput old; perform (.setCwd new)) R s := by
  have hcwd : ∀ r i, Function.update s.cwd q new r = some i →
      (s.inode i).type = T_DIR ∧ (mode = .look → Lookup s.inode s.cwd i) := by
    intro r i hi
    rcases eq_or_ne r q with rfl | hr
    · rw [Function.update_self] at hi
      exact hnew i hi
    · rw [Function.update_of_ne hr] at hi
      exact ⟨h.tree.cwdDir r i hi, fun _ => .cwd hi⟩
  have hmove : Inv mode ninodes (Function.update s.cwd q new) [old] [] [] s := by
    refine h.setW (fun j => ?_) hcwd
    have hocc := occ_update s.cwd q new j
    rw [hold] at hocc
    cases new with
    | none =>
      simp only [List.count_cons, List.count_nil, Option.toList_none, Option.some.injEq, beq_iff_eq,
        reduceCtorEq, if_false] at hocc ⊢
      omega
    | some i =>
      simp only [List.count_cons, List.count_nil, Option.toList_some, Option.some.injEq,
        beq_iff_eq] at hocc ⊢
      omega
  refine wp_bind.mpr (wp_iputKept hmove (by simp) (fun hm d hd => ?_) fun t ht htcwd _ _ => ?_)
  · exact hd.mono (fun r i hi => (hcwd r i hi).2 hm) (fun _ _ => id) fun _ hd => ⟨hd, rfl⟩
  · have hset : Inv mode ninodes (Function.update s.cwd q new) [] [] [] (t.setCwd q new) :=
      ht.congr rfl rfl rfl
    refine fun _ => hQ _ (hset.rest ?_)
    rw [St.setCwd, htcwd]

theorem wp_exit (h : Rest mode ninodes s) (hQ : ∀ r t, Rest mode ninodes t → Q r t) :
    Wp mode ninodes q exit Q s := by
  refine wp_bind.mpr (wp_exitCloseAll h fun t ht => wp_bind.mpr (wp_cwd fun i hi => ?_))
  exact wp_bind.mpr (wp_mono (wp_bind.mp (wp_putCwd none ht hi nofun fun u hu =>
    hQ 0 u hu)) fun _ _ h => wp_bind.mpr h)

theorem wp_sys_chdir {path : List Char} (h : Rest mode ninodes s)
    (hQ : ∀ r t, Rest mode ninodes t → Q r t) :
    Wp mode ninodes q (sys_chdir path) Q s := by
  refine wp_nameiLock (fun _ => rfl) h (fun t ht => hQ _ t ht)
    fun t ip ht _ hlook => wp_call_bind.mpr fun _ => ?_
  refine wp_ite (fun _ => wp_putFail ht hQ) fun htype => ?_
  rw [not_not] at htype
  refine wp_bind.mpr (wp_iunlock ht fun u hu htu _ => wp_bind.mpr (wp_cwd fun old hold => ?_))
  rw [← htu.cwd] at hu
  refine wp_bind.mpr (wp_mono (wp_bind.mp (wp_putCwd (some ip) hu hold ?_ fun v hv =>
    hQ 0 v hv)) fun _ _ h => wp_bind.mpr h)
  rintro i ⟨⟩
  rw [htu.inode, htu.cwd]
  exact ⟨htype, hlook⟩

theorem wp_fork {np : Proc} (h : Rest mode ninodes s) (hQ : ∀ r t, Rest mode ninodes t → Q r t) :
    Wp mode ninodes q (fork np) Q s := by
  refine wp_call_bind.mpr fun _ => ?_
  simp only [act]
  cases hi : s.cwd q with
  | none => exact fun _ h => by cases h
  | some i =>
    dsimp only
    split_ifs with hnp
    · have hdir := h.tree.cwdDir q i hi
      have hget := h.get i
      rw [h.setSlot_get hi] at hget
      have halloc : (s.inode i).type ≠ 0 := by
        rw [hdir]
        decide
      have hkeep := hget.keep halloc
      have hmove : Inv mode ninodes (Function.update s.cwd np (some i)) [] [] []
          (s.setSlot i (fun c => { c with ref := c.ref + 1 })) := by
        refine hkeep.setW (fun j => ?_) fun r k hk => ?_
        · have hocc := occ_update s.cwd np (some i) j
          rw [hnp] at hocc
          simp only [List.count_cons, List.count_nil, Option.some.injEq, beq_iff_eq, reduceCtorEq,
            if_false] at hocc ⊢
          omega
        · rcases eq_or_ne r np with rfl | hr
          · rw [Function.update_self] at hk
            obtain rfl := Option.some.inj hk
            exact ⟨hdir, fun _ => .cwd hi⟩
          · rw [Function.update_of_ne hr] at hk
            exact ⟨h.tree.cwdDir r k hk, fun _ => .cwd hk⟩
      have husers : users (s.fork q np i).file (s.fork q np i).cwd [] =
          users s.file (Function.update s.cwd np (some i)) [] := rfl
      refine hQ _ _ ⟨?_, hmove.tree, fun f hf => h.closed f ?_⟩
      · rw [husers]
        exact ⟨hmove.refs.ref, hmove.refs.valid, hmove.refs.kept, hmove.refs.zombie⟩
      · exact (Nat.add_eq_zero_iff.mp hf).1
    · exact fun _ h => by cases h

theorem wp_exec {path : List Char} (h : Rest mode ninodes s)
    (hQ : ∀ r t, Rest mode ninodes t → Q r t) :
    Wp mode ninodes q (exec path) Q s := by
  refine wp_nameiLock (fun _ => rfl) h (fun t ht => hQ _ t ht)
    fun t ip ht _ _ => wp_call_bind.mpr fun _ => ?_
  exact wp_bind.mpr (wp_iunlockputKept ht (by simp) (fun _ _ => id)
    fun u hu hcwd _ _ => hQ _ u (hu.rest hcwd))

end Files

section Links
variable {mode : Mode} {ninodes : ℕ} {q : Proc} {s : St} {ip dp slot : ℕ} {name : Name}
  {Q : ℤ → St → Prop}

theorem wp_linkBad (h : Inv mode ninodes s.cwd [ip] [] [ip] s)
    (hQ : ∀ r t, Rest mode ninodes t → Q r t) : Wp mode ninodes q (linkBad ip) Q s := by
  have halloc := h.tree.pending ip (List.mem_cons_self ..)
  refine wp_bind.mpr (wp_ilock h (fun _ => halloc) fun t ht hst _ hv _ => wp_call_bind.mpr fun _ => ?_)
  have hdec := ht.decLink hv (List.mem_cons_self ..)
  rw [← hst.cwd] at hdec
  exact wp_putFail hdec hQ

/-- `dirlink` makes the pending link to a file, or finds the name and leaves it pending. -/
theorem wp_dirlinkFile {R : Bool → St → Prop} (h : Inv mode ninodes s.cwd [ip] [dp] [ip] s)
    (hip : (s.inode ip).type ≠ T_DIR)
    (htrue : ∀ t, Inv mode ninodes t.cwd [ip] [dp] [] t → R true t)
    (hfalse : ∀ t, Inv mode ninodes t.cwd [ip] [dp] [ip] t → R false t) :
    Wp mode ninodes q (dirlink dp name ip) R s := by
  refine wp_bind.mpr (wp_dirlookup (fun hdp hfind => ?_) fun slot hdp hfind => ?_)
  · have halloc := h.tree.pending ip (List.mem_cons_self ..)
    have hroot : ip ≠ ROOTINO := by
      rintro rfl
      exact hip h.tree.root.1
    refine wp_call_bind.mpr fun _ => wp_call_bind.mpr fun hC => ?_
    simp only [act]
    split_ifs
    · have hL : Inv mode ninodes s.cwd [ip] [dp]
          (ip :: if (s.inode ip).type = T_DIR then dp :: [] else []) s := by
        rwa [if_neg hip]
      refine htrue _ (hL.addEntry hdp hfind hroot (fun hd => absurd hd hip) fun hm => ?_)
      subst hm
      refine h.tree.linked_of_nlink ?_ (cond_writei hC (h.tree.bound ip halloc).1 rfl) ?_
      · rw [hdp]
        decide
      · rw [List.mem_singleton]
        rintro rfl
        exact hip hdp
    · exact wp_panic (by decide)
  · have hget := h.get ((s.inode dp).entInum slot)
    refine wp_call_bind.mpr fun _ => wp_bind.mpr (wp_iput hget fun t ht hst => hfalse t ?_)
    rw [hst.cwd]
    exact ht

theorem wp_linkAt (h : Inv mode ninodes s.cwd [ip] [dp] [ip] s)
    (hip : (s.inode ip).type ≠ T_DIR) (hdp : (s.inode dp).type = T_DIR)
    (hQ : ∀ r t, Rest mode ninodes t → Q r t) : Wp mode ninodes q (linkAt ip dp name) Q s := by
  refine wp_bind.mpr (wp_ilock h (fun _ => by rw [hdp]; decide) fun t ht hst _ _ _ => ?_)
  rw [← hst.cwd] at ht
  refine wp_bind.mpr (wp_dirlinkFile ht (by rwa [hst.inode]) (fun u hu => ?_) fun u hu => ?_)
  · refine wp_bind.mpr (wp_iunlockput hu fun v hv huv => ?_)
    rw [← huv.cwd] at hv
    refine wp_bind.mpr (wp_iputKept hv (by simp) (fun _ _ => id) fun w hw hcwd _ _ => ?_)
    exact hQ _ w (hw.rest hcwd)
  · refine wp_bind.mpr (wp_iunlockput hu fun v hv huv => ?_)
    rw [← huv.cwd] at hv
    exact wp_linkBad hv hQ

theorem wp_sys_link {old new : List Char} (h : Rest mode ninodes s)
    (hQ : ∀ r t, Rest mode ninodes t → Q r t) : Wp mode ninodes q (sys_link old new) Q s := by
  refine wp_nameiLock (fun _ => rfl) h (fun t ht => hQ _ t ht)
    fun t ip ht _ _ => wp_call_bind.mpr fun _ => ?_
  refine wp_ite (fun _ => wp_putFail ht hQ) fun htype => ?_
  have halloc : (t.inode ip).type ≠ 0 := by
    refine ht.refs.kept ip ?_
    rw [users_cons]
    omega
  refine wp_call_bind.mpr fun hC => ?_
  have hinc := ht.incLink halloc hC
  have hip : ((t.setInode ip (fun d => { d with nlink := d.nlink + 1 })).inode ip).type ≠ T_DIR := by
    rwa [t.inode_setInode]
  refine wp_bind.mpr (wp_iunlock hinc fun u hu htu _ => ?_)
  have hcwd : u.cwd = t.cwd := htu.cwd
  rw [← hcwd] at hu
  rw [← htu.inode] at hip
  refine wp_bind.mpr (wp_namex hu (fun v hv _ => wp_linkBad hv hQ)
    fun v dp name hv huv _ hdir => ?_)
  exact wp_linkAt hv (by rwa [huv.inode]) (hdir rfl) hQ

theorem isdirempty_iff {d : Inode} : d.isdirempty = true ↔ d.sub = [] := by
  simp [Inode.isdirempty, Inode.sub, inums, List.filter_eq_nil_iff,
    -List.map_drop]

theorem wp_decParent {type : ℕ} {R : Unit → St → Prop}
    (h : Inv mode ninodes s.cwd [dp, ip] [] (ip :: if type = T_DIR then [dp] else []) s)
    (hv : (s.icache dp).valid = true)
    (hR : ∀ t, Inv mode ninodes t.cwd [dp, ip] [] [ip] t → t.icache = s.icache → R () t) :
    Wp mode ninodes q (decParent dp type) R s := by
  refine wp_ite (fun htype => fun _ => ?_) fun htype => ?_
  · rw [if_pos htype] at h
    have hswap : Inv mode ninodes s.cwd [dp, ip] [] [dp, ip] s :=
      ⟨h.refs, h.tree.pending_perm (List.Perm.swap ..), h.closed⟩
    exact hR _ (hswap.decLink hv (List.mem_cons_self ..)) rfl
  · rw [if_neg htype] at h
    exact hR s h rfl

theorem wp_unlinkErase (h : Inv mode ninodes s.cwd [] [ip, dp] [] s)
    (hdp : (s.inode dp).type = T_DIR) (hfind : (s.inode dp).findEnt name = some slot)
    (hdot : name ≠ dot) (hdotdot : name ≠ dotdot) (hip : (s.inode dp).entInum slot = ip)
    (hvip : (s.icache ip).valid = true) (hvdp : (s.icache dp).valid = true)
    (hempty : (s.inode ip).type = T_DIR → (s.inode ip).sub = [])
    (hQ : ∀ r t, Rest mode ninodes t → Q r t) :
    Wp mode ninodes q (unlinkErase dp slot ip (s.inode ip).type) Q s := by
  have hsub : ip ∈ (s.inode dp).sub := by
    obtain ⟨k, -, hperm⟩ := (h.tree.shaped dp hdp).erase hfind hdot hdotdot
    rw [hperm.mem_iff, hip]
    exact List.mem_cons_self ..
  have hne : ip ≠ dp := by
    rintro rfl
    rw [hempty hdp] at hsub
    cases hsub
  have hkeep : Inv mode ninodes s.cwd [dp, ip] [] [] s :=
    (h.keep (h.tree.alloc dp ip hsub).1).keep (by rw [hdp]; decide)
  have herase := hkeep.eraseEntry hdp hfind hdot hdotdot hip hempty
  refine wp_call_bind.mpr fun _ => ?_
  simp only [act]
  split_ifs
  · refine wp_ite (fun _ => ?_) fun h => absurd rfl h
    refine wp_bind.mpr (wp_decParent herase hvdp fun t ht hcache => ?_)
    refine wp_bind.mpr (wp_iunlockputKept ht (by simp) (fun _ _ => id) fun u hu hcwd _ hother => ?_)
    have hvu : (u.icache ip).valid = true := by
      rw [(hother ip hne).2, hcache]
      exact hvip
    rw [← hcwd] at hu
    refine wp_call_bind.mpr fun _ => ?_
    have hdec := hu.decLink hvu (List.mem_cons_self ..)
    refine wp_bind.mpr (wp_iunlockputKept hdec (by simp) (fun _ _ => id) fun v hv hcwd' _ _ => ?_)
    exact hQ _ v (hv.rest hcwd')
  · exact wp_panic (by decide)

theorem wp_unlinkFound (h : Inv mode ninodes s.cwd [] [ip, dp] [] s)
    (hdp : (s.inode dp).type = T_DIR) (hfind : (s.inode dp).findEnt name = some slot)
    (hdot : name ≠ dot) (hdotdot : name ≠ dotdot) (hip : (s.inode dp).entInum slot = ip)
    (hvdp : (s.icache dp).valid = true)
    (halloc : (s.inode ip).type ≠ 0) (hQ : ∀ r t, Rest mode ninodes t → Q r t) :
    Wp mode ninodes q (unlinkFound dp slot ip) Q s := by
  refine wp_bind.mpr (wp_ilock h (fun _ => halloc) fun t ht hst hvalid hv _ => ?_)
  rw [← hst.cwd] at ht
  rw [← hst.inode] at hdp hfind hip
  refine wp_call_bind.mpr fun _ => wp_ite (fun _ => wp_panic (by decide)) fun _ => ?_
  refine wp_ite (fun _ => ?_) fun hempty => ?_
  · refine wp_bind.mpr (wp_iunlockput ht fun u hu htu => ?_)
    rw [← htu.cwd] at hu
    exact wp_bind.mpr (wp_iunlockput hu fun v hv huv => hQ _ v (hv.rest huv.cwd))
  · refine wp_unlinkErase ht hdp hfind hdot hdotdot hip hv (hvalid dp hvdp) (fun hdir => ?_) hQ
    rw [← isdirempty_iff]
    by_contra hd
    exact hempty ⟨hdir, hd⟩

theorem wp_unlinkBad (h : Inv mode ninodes s.cwd [] [dp] [] s)
    (hQ : ∀ r t, Rest mode ninodes t → Q r t) : Wp mode ninodes q (unlinkBad dp) Q s :=
  wp_bind.mpr (wp_iunlockput h fun t ht hst => hQ _ t (ht.rest hst.cwd))

theorem wp_sys_unlink {path : List Char} (h : Rest mode ninodes s)
    (hQ : ∀ r t, Rest mode ninodes t → Q r t) : Wp mode ninodes q (sys_unlink path) Q s := by
  refine wp_bind.mpr (wp_namex h (fun t ht _ => hQ _ t ht) fun t dp name ht _ _ hdir => ?_)
  have hdp : (t.inode dp).type = T_DIR := hdir rfl
  refine wp_bind.mpr (wp_ilock ht (fun _ => by rw [hdp]; decide) fun u hu htu _ hv _ => ?_)
  rw [← htu.cwd] at hu
  refine wp_ite (fun _ => wp_unlinkBad hu hQ) fun hdots => ?_
  obtain ⟨hdot, hdotdot⟩ := not_or.mp hdots
  refine wp_bind.mpr (wp_dirlookup (fun _ _ => wp_unlinkBad hu hQ) fun slot hudp hfind => ?_)
  have hsub : (u.inode dp).entInum slot ∈ (u.inode dp).sub := by
    obtain ⟨k, -, hperm⟩ := (hu.tree.shaped dp hudp).erase hfind hdot hdotdot
    rw [hperm.mem_iff]
    exact List.mem_cons_self ..
  refine wp_unlinkFound (hu.get _) hudp hfind hdot hdotdot rfl ?_ (hu.tree.alloc dp _ hsub).1 hQ
  have href : 0 < (u.icache dp).ref := by
    rw [hu.refs.ref, List.count_cons_self]
    omega
  rcases eq_or_ne dp ((u.inode dp).entInum slot) with he | he
  · rw [← he]
    simp [St.setSlot, Slot.get, href, hv]
  · simpa [St.setSlot, Function.update_of_ne he] using hv

end Links

/-- What every call keeps, whichever way it ends. -/
theorem wp_body {mode : Mode} {ninodes : ℕ} {q : Proc} {s : St} {Q : ℤ → St → Prop} (c : Call)
    (h : Rest mode ninodes s) (hQ : ∀ r t, Rest mode ninodes t → Q r t) :
    Wp mode ninodes q c.body Q s := by
  cases c with
  | path c =>
    cases c with
    | «open» path omode => exact wp_sys_open h hQ
    | mkdir path => exact wp_createPut h (by decide) hQ
    | mknod path major minor => exact wp_createPut h (by decide) hQ
    | link old new => exact wp_sys_link h hQ
    | unlink path => exact wp_sys_unlink h hQ
    | chdir path => exact wp_sys_chdir h hQ
    | exec path => exact wp_exec h hQ
  | close fd => exact wp_sys_close h hQ
  | exit => exact wp_exit h hQ
  | fork np => exact wp_fork h hQ

end Ostep.FsTree

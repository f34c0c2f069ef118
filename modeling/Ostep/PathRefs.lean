import Ostep.DirRefs

/-!
# What the path calls do with references

A path call gives back what it takes, apart from the inode it returns. As long as a call has
changed nothing, dropping references changes nothing either; a call that changes an inode keeps
its reference until it has written the inode back.
-/

namespace Ostep.InodeCache
open Hoare
open FsBlocks (Dinode Block Superblock entryOf T_DIR T_DEV)

variable {sb : Superblock} {s t u : St} {k l ip dp cwd : Slot} {B : Slot → ℕ} {L : List Slot}

/-! ## Paths -/

/-- Where a path leads from an inode, on disk. -/
def walk (data : ℕ → Block) (dinode : ℕ → Dinode) (parent : Bool) :
    ℕ → Bytes → ℕ → Bytes → Option (ℕ × Bytes)
  | 0, _, i, name => if parent then none else some (i, name)
  | fuel + 1, path, i, name =>
    match skipelem path with
    | none => if parent then none else some (i, name)
    | some (elem, rest) =>
      if (dinode i).type ≠ T_DIR then none
      else if parent ∧ rest = [] then some (i, elem)
      else match entryOf data (dinode i) elem with
        | none => none
        | some (next, _) => walk data dinode parent fuel rest next elem

/-- The inode that a path starts from. -/
def start (s : St) (cwd : Slot) (path : Bytes) : ℕ :=
  if path.head? = some slash then ROOTINO else (s.icache cwd).inum

def St.resolve (s : St) (cwd : Slot) (path : Bytes) (parent : Bool) : Option (ℕ × Bytes) :=
  walk s.data s.dinode parent path.length path (start s cwd path) []

theorem namexEnd_spec (h : Good sb B (ip :: L) s) {parent : Bool} {name : Bytes}
    {r : Option (Slot × Bytes)} (hr : namexEnd parent ip name s = .ok (r, t)) :
    Good sb B ((r.map Prod.fst).toList ++ L) t ∧ Quiet B s t ∧
      r.map (fun p => ((t.icache p.1).inum, p.2)) =
        if parent then none else some ((s.icache ip).inum, name) := by
  rcases run_ite.mp hr with ⟨hp, hr⟩ | ⟨hp, hr⟩
  · obtain ⟨_, v, hput, hr⟩ := run_bind.mp hr
    obtain ⟨rfl, rfl⟩ := run_pure.mp hr
    obtain ⟨hgood, hquiet⟩ := iput_quiet h hput
    rw [if_pos hp]
    exact ⟨hgood, hquiet, rfl⟩
  · obtain ⟨rfl, rfl⟩ := run_pure.mp hr
    rw [if_neg hp]
    exact ⟨h, .refl B s, rfl⟩

theorem namexLoop_spec {parent : Bool} {fuel : ℕ} {path name : Bytes}
    {r : Option (Slot × Bytes)} (h : Good sb B (ip :: L) s)
    (hr : namexLoop sb parent fuel path ip name s = .ok (r, t)) :
    Good sb B ((r.map Prod.fst).toList ++ L) t ∧ Quiet B s t ∧
      (Anchored B s → r.map (fun p => ((t.icache p.1).inum, p.2)) =
        walk s.data s.dinode parent fuel path (s.icache ip).inum name) := by
  induction fuel generalizing path ip name s with
  | zero =>
    obtain ⟨hgood, hquiet, hres⟩ := namexEnd_spec h hr
    exact ⟨hgood, hquiet, fun _ => hres⟩
  | succ fuel ih =>
    rw [namexLoop] at hr
    rw [walk]
    cases hskip : skipelem path with
    | none =>
      rw [hskip] at hr
      obtain ⟨hgood, hquiet, hres⟩ := namexEnd_spec h hr
      exact ⟨hgood, hquiet, fun _ => hres⟩
    | some p =>
      obtain ⟨elem, rest⟩ := p
      rw [hskip] at hr
      obtain ⟨_, v, hlock, hr⟩ := run_bind.mp hr
      obtain ⟨hgood, hholds, hdisk, hv⟩ := ilock_spec h hlock
      have hquiet : Quiet B s v := ⟨hholds.stay B, fun _ => hdisk⟩
      have hinum := (hholds ip).1
      have hip := (hgood.ip hgood.held hv).1
      obtain ⟨-, hdata, hdinode⟩ : v.bitmap = s.bitmap ∧ v.data = s.data ∧
        v.dinode = s.dinode := by simpa [St.disk] using hdisk
      rw [run_get_bind, hip, hinum, hdinode] at hr
      simp only
      -- `ip` is no directory
      rcases run_ite.mp hr with ⟨htype, hr⟩ | ⟨htype, hr⟩
      · obtain ⟨_, w, hput, hr⟩ := run_bind.mp hr
        obtain ⟨rfl, rfl⟩ := run_pure.mp hr
        obtain ⟨hgood', hquiet', -⟩ := iunlockput_quiet hgood hput
        rw [if_pos htype]
        exact ⟨hgood', hquiet.trans hquiet', fun _ => rfl⟩
      rw [if_neg htype]
      -- the parent was asked for
      rcases run_ite.mp hr with ⟨hlast, hr⟩ | ⟨hlast, hr⟩
      · obtain ⟨_, w, hunlock, hr⟩ := run_bind.mp hr
        obtain ⟨rfl, rfl⟩ := run_pure.mp hr
        obtain ⟨hgood', hholds', hdisk'⟩ := iunlock_spec hgood hunlock
        rw [if_pos hlast]
        refine ⟨hgood', hquiet.trans ⟨hholds'.stay B, fun _ => hdisk'⟩, fun _ => ?_⟩
        rw [Option.map_some, (hholds' ip).1, hinum]
      rw [if_neg hlast]
      obtain ⟨found, w, hlook, hr⟩ := run_bind.mp hr
      obtain ⟨hgood', hquiet', hdisk', -, hentry⟩ := dirlookup_spec hgood hgood.held hv hlook
      rw [hdata, hinum, hdinode] at hentry
      have hquiet := hquiet.trans hquiet'
      cases found with
      | none =>
        obtain ⟨_, x, hput, hr⟩ := run_bind.mp hr
        obtain ⟨rfl, rfl⟩ := run_pure.mp hr
        obtain ⟨hgood'', hquiet'', -⟩ := iunlockput_quiet hgood' hput
        rw [hentry]
        exact ⟨hgood'', hquiet.trans hquiet'', fun _ => rfl⟩
      | some p =>
        obtain ⟨next, off⟩ := p
        obtain ⟨_, x, hput, hr⟩ := run_bind.mp hr
        have hswap : Good sb B (ip :: next :: L) w := hgood'.perm (List.Perm.swap ..)
        obtain ⟨hgood'', hquiet'', hinum''⟩ := iunlockput_quiet hswap hput
        obtain ⟨hfin, hquietfin, hres⟩ := ih hgood'' hr
        have hquiet := hquiet.trans hquiet''
        refine ⟨hfin, hquiet.trans hquietfin, fun ha => ?_⟩
        obtain ⟨-, hdata'', hdinode''⟩ : x.bitmap = s.bitmap ∧ x.data = s.data ∧
          x.dinode = s.dinode := by simpa [St.disk] using hquiet.2 ha
        rw [hentry, hres (hquiet.anchored ha), hdata'', hdinode'', hinum'' next]
        rfl

theorem namexStart_spec {path : Bytes} (h : Good sb B L s) (hcwd : 0 < B cwd)
    (hr : namexStart cwd path s = .ok (ip, t)) :
    Good sb B (ip :: L) t ∧ Quiet B s t ∧ t.disk = s.disk ∧ (t.icache ip).inum = start s cwd path := by
  rw [start]
  rcases run_ite.mp hr with ⟨hroot, hr⟩ | ⟨hroot, hr⟩
  · rw [if_pos hroot]
    exact iget_quiet h (Nat.lt_of_lt_of_le (by decide) (Nat.le_max_right ..)) hr
  · obtain ⟨_, w, hdup, hr⟩ := run_bind.mp hr
    obtain ⟨rfl, rfl⟩ := run_pure.mp hr
    rw [if_neg hroot]
    exact idup_spec h (h.standing hcwd) hdup

theorem namex_spec {path : Bytes} {parent : Bool} {r : Option (Slot × Bytes)} (h : Good sb B L s)
    (hcwd : 0 < B cwd) (hr : namex sb cwd path parent s = .ok (r, t)) :
    Good sb B ((r.map Prod.fst).toList ++ L) t ∧ Quiet B s t ∧
      (Anchored B s → r.map (fun p => ((t.icache p.1).inum, p.2)) = s.resolve cwd path parent) := by
  obtain ⟨ip, v, hstart, hr⟩ := run_bind.mp hr
  obtain ⟨hgood, hquiet, hdisk, hinum⟩ := namexStart_spec h hcwd hstart
  obtain ⟨hgood', hquiet', hres⟩ := namexLoop_spec hgood hr
  refine ⟨hgood', hquiet.trans hquiet', fun ha => ?_⟩
  obtain ⟨-, hdata, hdinode⟩ : v.bitmap = s.bitmap ∧ v.data = s.data ∧
    v.dinode = s.dinode := by simpa [St.disk] using hdisk
  rw [hres (hquiet.anchored ha), hinum, hdata, hdinode, St.resolve]

theorem namei_spec {path : Bytes} {r : Option Slot} (h : Good sb B L s) (hcwd : 0 < B cwd)
    (hr : namei sb cwd path s = .ok (r, t)) : Good sb B (r.toList ++ L) t ∧ Quiet B s t := by
  obtain ⟨p, v, hnamex, hr⟩ := run_bind.mp hr
  obtain ⟨rfl, rfl⟩ := run_pure.mp hr
  obtain ⟨hgood, hquiet, -⟩ := namex_spec h hcwd hnamex
  exact ⟨hgood, hquiet⟩

/-! ## Changing calls -/

/-- Every inode other than `i` has the type and the links it had. -/
def SameLinksBut (i : ℕ) (s t : St) : Prop :=
  ∀ j, j ≠ i → (t.dinode j).type = (s.dinode j).type ∧ (t.dinode j).nlink = (s.dinode j).nlink

theorem SameLinksBut.trans {i : ℕ} (h : SameLinksBut i s t) (h' : SameLinksBut i t u) :
    SameLinksBut i s u :=
  fun j hj => ⟨(h' j hj).1.trans (h j hj).1, (h' j hj).2.trans (h j hj).2⟩

theorem SameLinks.but (h : SameLinks s t) (i : ℕ) : SameLinksBut i s t := fun j _ => h j

/-- An inode changes that a standing reference has in the cache. -/
theorem Anchored.change {B' : Slot → ℕ} (ha : Anchored B s) (hstay : Stay B s t)
    (hB : ∀ k, B k ≤ B' k) (hk : 0 < B' k) (hv : (t.icache k).valid = true)
    (hshort : short (t.dinode (t.icache k).inum).nlink = (t.dinode (t.icache k).inum).nlink)
    (hother : SameLinksBut (t.icache k).inum s t) : Anchored B' t := by
  refine ⟨fun i hi => ?_, fun i => ?inRange⟩
  case inRange =>
    by_cases hik : i = (t.icache k).inum
    · rw [hik, hshort]
    · rw [(hother i hik).2, ha.inRange]
  by_cases hik : i = (t.icache k).inum
  · have := hi k hik.symm hk
    rw [hv] at this
    cases this
  · rw [(hother i hik).1, (hother i hik).2]
    refine ha.linked i fun l hl hpos => ?_
    have hfalse := hi l ((hstay l hpos).1.trans hl) (Nat.lt_of_lt_of_le hpos (hB l))
    by_contra hvalid
    rw [(hstay l hpos).2 (by simpa using hvalid)] at hfalse
    cases hfalse

/-- How a call leaves the inodes that others refer to: anchored, if they were, and where it
failed the disk is as it was. -/
structure Leaves (B : Slot → ℕ) (failed : Prop) (s t : St) : Prop where
  stay : Stay B s t
  anchored : Anchored B s → Anchored B t
  same : Anchored B s → failed → t.disk = s.disk

theorem Quiet.leaves (h : Quiet B s t) (failed : Prop) : Leaves B failed s t :=
  ⟨h.1, h.anchored, fun ha _ => h.2 ha⟩

theorem Quiet.then {failed : Prop} (h : Quiet B s t) (h' : Leaves B failed t u) :
    Leaves B failed s u :=
  ⟨h.1.trans h'.stay, fun ha => h'.anchored (h.anchored ha),
    fun ha hf => (h'.same (h.anchored ha) hf).trans (h.2 ha)⟩

theorem plus_comm (B : Slot → ℕ) (k l : Slot) : plus (plus B k) l = plus (plus B l) k := by
  funext m
  simp only [plus]
  omega

theorem short_short (n : ℤ) : short (short n) = short n := Int.bmod_bmod

/-- The link count of a locked inode changes. -/
theorem changeLink_spec (h : Good sb B L s) (hk : 0 < B k) (hv : (s.icache k).valid = true)
    {g : ℤ → ℤ} {a : Unit}
    (hr : setMeta k (fun d => { d with nlink := short (g d.nlink) }) s = .ok (a, t)) :
    Good sb B L t ∧ Holds s t ∧ t.disk = (s.bitmap, s.data, Function.update s.dinode
        (s.icache k).inum { s.dinode (s.icache k).inum with
          nlink := short (g (s.dinode (s.icache k).inum).nlink) }) ∧
      SameLinksBut (s.icache k).inum s t ∧ (Anchored B s → Anchored B t) := by
  obtain ⟨hgood, hholds, hdisk⟩ := setMeta_spec h (h.standing hk) hv hr (fun _ => ⟨rfl, rfl, rfl⟩)
  have hdinode : t.dinode = Function.update s.dinode _ _ := congrArg (fun d => d.2.2) hdisk
  have hother : SameLinksBut (s.icache k).inum s t := fun j hj => by
    rw [hdinode, Function.update_of_ne hj]
    exact ⟨rfl, rfl⟩
  refine ⟨hgood, hholds, hdisk, hother, fun ha => ?_⟩
  refine ha.change (hholds.stay B) (fun _ => Nat.le_refl _) hk ((hholds k).2 hv) ?_ ?_
  · rw [(hholds k).1, hdinode, Function.update_self]
    exact short_short _
  · rwa [(hholds k).1]

theorem createDots_spec (h : Good sb B L s) (hdp : 0 < B dp) (hvdp : (s.icache dp).valid = true)
    (hip : 0 < B ip) (hvip : (s.icache ip).valid = true) {a : Unit}
    (hr : createDots sb dp ip s = .ok (a, t)) :
    Good sb B L t ∧ Stay B s t ∧
      (Anchored B s → Anchored B t ∧ SameLinksBut (s.icache dp).inum s t) := by
  obtain ⟨_, u, hinc, hr⟩ := run_bind.mp hr
  obtain ⟨hgood, hholds, -, hbut, hanch⟩ := changeLink_spec (g := fun n => n + 1) h hdp hvdp hinc
  rw [run_get_bind] at hr
  obtain ⟨ok, v, hdot, hr⟩ := run_bind.mp hr
  obtain ⟨hgood', hstay', hlinks', -⟩ := dirlink_spec hgood hip ((hholds ip).2 hvip) hdot
  rcases run_ite.mp hr with ⟨-, hr⟩ | ⟨-, hr⟩
  · obtain ⟨ok', w, hdotdot, hr⟩ := run_bind.mp hr
    have hvip' := (hstay' ip hip).2 ((hholds ip).2 hvip)
    obtain ⟨hgood'', hstay'', hlinks'', -⟩ := dirlink_spec hgood' hip hvip' hdotdot
    rcases run_ite.mp hr with ⟨-, hr⟩ | ⟨-, hr⟩
    · obtain ⟨-, rfl⟩ := run_pure.mp hr
      refine ⟨hgood'', ((hholds.stay B).trans hstay').trans hstay'', fun ha => ?_⟩
      have ha' := (hanch ha).stay hstay' (hlinks' (hanch ha))
      exact ⟨ha'.stay hstay'' (hlinks'' ha'),
        (hbut.trans ((hlinks' (hanch ha)).but _)).trans ((hlinks'' ha').but _)⟩
    · exact (run_throw.mp hr).elim
  · exact (run_throw.mp hr).elim

theorem initDots_spec (h : Good sb B L s) (hdp : 0 < B dp) (hvdp : (s.icache dp).valid = true)
    (hip : 0 < B ip) (hvip : (s.icache ip).valid = true) {type : ℕ} {a : Unit}
    (hr : initDots sb dp ip type s = .ok (a, t)) :
    Good sb B L t ∧ Stay B s t ∧
      (Anchored B s → Anchored B t ∧ SameLinksBut (s.icache dp).inum s t) := by
  rcases run_ite.mp hr with ⟨-, hr⟩ | ⟨-, hr⟩
  · exact createDots_spec h hdp hvdp hip hvip hr
  · obtain ⟨-, rfl⟩ := run_pure.mp hr
    exact ⟨h, .refl B s, fun ha => ⟨ha, fun _ _ => ⟨rfl, rfl⟩⟩⟩

/-- The slot `ip` holds an inode that was free in `s`. -/
def New (s t : St) (ip : Slot) (type : ℕ) : Prop :=
  (s.dinode (t.icache ip).inum).type = 0 ∧ (t.dinode (t.icache ip).inum).type = type

theorem createNew_spec (h : Good sb B [dp] s) (hv : (s.icache dp).valid = true) {name : Bytes}
    {type : ℕ} {major minor : ℤ} {r : Option Slot}
    (hr : createNew sb dp name type major minor s = .ok (r, t)) :
    ∃ ip, r = some ip ∧ Good sb B [ip] t ∧ Stay B s t ∧
      (Anchored B s → Anchored B t ∧ New s t ip type) := by
  rw [createNew, run_get_bind, h.dev dp h.held] at hr
  -- both inodes are standing references from here to where they are put
  have h₀ : Good sb (plus B dp) [] s := good_plus.mpr h
  have hdp₀ : (s.dinode (s.icache dp).inum).type ≠ 0 := (h.ip h.held hv).2
  obtain ⟨ip, s₁, halloc, hr⟩ := run_bind.mp hr
  obtain ⟨h₁, hstay₁, hfree, hdisk₁⟩ := ialloc_spec h₀ halloc
  obtain ⟨_, s₂, hlock, hr⟩ := run_bind.mp hr
  obtain ⟨h₂, hholds₂, hdisk₂, hvip⟩ := ilock_spec (good_plus.mpr h₁) hlock
  set B' := plus (plus B dp) ip with hB'
  have hdpB : 0 < B' dp := Nat.lt_of_lt_of_le (by rw [plus_self]; omega) (le_plus _ ip dp)
  have hipB : 0 < B' ip := by
    rw [hB', plus_self]
    omega
  have hle : ∀ k, plus B dp k ≤ B' k := le_plus _ ip
  set i := (s₁.icache ip).inum with hi
  have hidp : i ≠ (s.icache dp).inum := by
    intro heq
    rw [heq] at hfree
    exact hdp₀ hfree
  have hdinode₂ : s₂.dinode = Function.update s.dinode i { Dinode.zero with type := type } :=
    congrArg (fun d => d.2.2) (hdisk₂.trans hdisk₁)
  have hstay₂ : Stay (plus B dp) s s₂ := hstay₁.trans (hholds₂.stay _)
  have hi₂ : (s₂.icache ip).inum = i := (hholds₂ ip).1
  have hbut₂ : SameLinksBut i s s₂ := fun j hj => by
    rw [hdinode₂, Function.update_of_ne hj]
    exact ⟨rfl, rfl⟩
  obtain ⟨_, s₃, hmeta, hr⟩ := run_bind.mp hr
  obtain ⟨h₃, hholds₃, hdisk₃⟩ := setMeta_spec h₂ (h₂.standing hipB) hvip hmeta
    (fun _ => ⟨rfl, rfl, rfl⟩)
  rw [hi₂] at hdisk₃
  have hdinode₃ : s₃.dinode = Function.update s₂.dinode _ _ := congrArg (fun d => d.2.2) hdisk₃
  have hnew₃ : (s₃.dinode i).type = type ∧ (s₃.dinode i).nlink = 1 := by
    rw [hdinode₃, Function.update_self, hdinode₂, Function.update_self]
    exact ⟨rfl, rfl⟩
  have hbut₃ : SameLinksBut i s s₃ := hbut₂.trans fun j hj => by
    rw [hdinode₃, Function.update_of_ne hj]
    exact ⟨rfl, rfl⟩
  have hstay₃ : Stay (plus B dp) s s₃ := hstay₂.trans (hholds₃.stay _)
  have hi₃ : (s₃.icache ip).inum = i := (hholds₃ ip).1.trans hi₂
  have hdp₃ := hstay₃ dp (by rw [plus_self]; omega)
  obtain ⟨_, s₄, hdots, hr⟩ := run_bind.mp hr
  obtain ⟨h₄, hstay₄, hanch₄⟩ := initDots_spec h₃ hdpB (hdp₃.2 hv) hipB
    ((hholds₃ ip).2 hvip) hdots
  rw [run_get_bind] at hr
  obtain ⟨ok, s₅, hlink, hr⟩ := run_bind.mp hr
  obtain ⟨h₅, hstay₅, hlinks₅, -⟩ := dirlink_spec h₄ hdpB ((hstay₄ dp hdpB).2 (hdp₃.2 hv)) hlink
  rcases run_ite.mp hr with ⟨-, hr⟩ | ⟨-, hr⟩
  · obtain ⟨_, s₆, hput, hr⟩ := run_bind.mp hr
    obtain ⟨rfl, rfl⟩ := run_pure.mp hr
    have h₅' : Good sb (plus B ip) [dp] s₅ := good_plus.mp (by rwa [hB', plus_comm] at h₅)
    obtain ⟨h₆, hquiet₆, hinum₆⟩ := iunlockput_quiet h₅' hput
    have hi₆ : (s₆.icache ip).inum = i := by
      rw [hinum₆, (hstay₅ ip hipB).1, (hstay₄ ip hipB).1, hi₃]
    refine ⟨ip, rfl, good_plus.mp h₆, ?_, fun ha => ?_⟩
    · have := (hstay₄.trans hstay₅).mono hle
      exact ((hstay₃.trans this).mono (le_plus B dp)).trans (hquiet₆.1.mono (le_plus B ip))
    have ha₃ : Anchored B' s₃ := ha.change (hstay₃.mono (le_plus B dp))
      (fun k => (le_plus B dp k).trans (hle k)) hipB ((hholds₃ ip).2 hvip)
      (by rw [hi₃, hnew₃.2]; decide) (by rwa [hi₃])
    obtain ⟨ha₄, hbut₄⟩ := hanch₄ ha₃
    have ha₅ := ha₄.stay hstay₅ (hlinks₅ ha₄)
    obtain ⟨-, ha₆⟩ := iunlockput_final h₅' (by rwa [hB', plus_comm] at ha₅) hput
    -- the new inode keeps its type and its link
    have hnew₅ : (s₅.dinode i).type = type ∧ (s₅.dinode i).nlink = 1 := by
      have hne : i ≠ (s₃.icache dp).inum := by
        rw [hdp₃.1]
        exact hidp
      rw [(hlinks₅ ha₄ i).1, (hlinks₅ ha₄ i).2, (hbut₄ i hne).1, (hbut₄ i hne).2]
      exact hnew₃
    have hdp₅ : (s₅.icache dp).inum = (s.icache dp).inum := by
      rw [(hstay₅ dp hdpB).1, (hstay₄ dp hdpB).1, hdp₃.1]
    have hsame := iunlockput_dinode h₅' hput (show i ≠ (s₅.icache dp).inum by rwa [hdp₅])
    refine ⟨⟨fun j hj => ?_, ha₆.inRange⟩, by rw [hi₆]; exact hfree,
      by rw [hi₆, hsame]; exact hnew₅.1⟩
    by_cases hji : j = i
    · right
      rw [hji, hsame, hnew₅.2]
      decide
    · refine ha₆.linked j fun k hk hB => hj k hk ?_
      have hne : k ≠ ip := by
        rintro rfl
        exact hji (hk.symm.trans hi₆)
      rwa [plus_ne B hne] at hB
  · exact (run_throw.mp hr).elim

theorem createFound_spec (h : Good sb B (ip :: dp :: L) s) {type : ℕ} {r : Option Slot}
    (hr : createFound dp ip type s = .ok (r, t)) : Good sb B (r.toList ++ L) t ∧ Quiet B s t := by
  obtain ⟨_, u, hput, hr⟩ := run_bind.mp hr
  obtain ⟨hgood, hquiet, -⟩ := iunlockput_quiet (h.perm (List.Perm.swap ..)) hput
  obtain ⟨_, v, hlock, hr⟩ := run_bind.mp hr
  obtain ⟨hgood', hquiet', -⟩ := ilock_quiet hgood hlock
  have hquiet := hquiet.trans hquiet'
  rw [run_get_bind] at hr
  rcases run_ite.mp hr with ⟨-, hr⟩ | ⟨-, hr⟩
  · obtain ⟨rfl, rfl⟩ := run_pure.mp hr
    exact ⟨hgood', hquiet⟩
  · obtain ⟨_, w, hput', hr⟩ := run_bind.mp hr
    obtain ⟨rfl, rfl⟩ := run_pure.mp hr
    obtain ⟨hgood'', hquiet'', -⟩ := iunlockput_quiet hgood' hput'
    exact ⟨hgood'', hquiet.trans hquiet''⟩

/-- The path leads to a directory that does not have its last name. -/
def St.Absent (s : St) (cwd : Slot) (path : Bytes) : Prop :=
  ∃ i name, s.resolve cwd path true = some (i, name) ∧ entryOf s.data (s.dinode i) name = none

/-- `create` takes a new inode exactly where the name is not there. -/
theorem create_spec (h : Good sb B [] s) (hcwd : 0 < B cwd) {path : Bytes} {type : ℕ}
    {major minor : ℤ} {r : Option Slot} (hr : create sb cwd path type major minor s = .ok (r, t)) :
    Good sb B r.toList t ∧ Leaves B (¬ s.Absent cwd path) s t ∧
      (Anchored B s → s.Absent cwd path → ∃ ip, r = some ip ∧ New s t ip type) := by
  obtain ⟨p, u, hname, hr⟩ := run_bind.mp hr
  obtain ⟨hgood, hquiet, hres⟩ := namex_spec h hcwd hname
  cases p with
  | none =>
    obtain ⟨rfl, rfl⟩ := run_pure.mp hr
    refine ⟨hgood, hquiet.leaves _, fun ha ⟨i, name, hi, _⟩ => ?_⟩
    rw [← hres ha] at hi
    cases hi
  | some p =>
    obtain ⟨dp, name⟩ := p
    have hgood : Good sb B [dp] u := hgood
    obtain ⟨_, v, hlock, hr⟩ := run_bind.mp hr
    obtain ⟨hgood', hholds, hdisk, hv⟩ := ilock_spec hgood hlock
    have hquiet' : Quiet B s v := hquiet.trans ⟨hholds.stay B, fun _ => hdisk⟩
    -- what the search finds is what the disk had at the start
    have hentry : Anchored B s → (s.Absent cwd path ↔
        entryOf v.data (v.dinode (v.icache dp).inum) name = none) := by
      intro ha
      obtain ⟨-, hdata, hdinode⟩ : v.bitmap = s.bitmap ∧ v.data = s.data ∧
        v.dinode = s.dinode := by simpa [St.disk] using hquiet'.2 ha
      rw [St.Absent, ← hres ha, (hholds dp).1, hdata, hdinode]
      constructor
      · rintro ⟨i, name, hi, hnone⟩
        obtain ⟨rfl, rfl⟩ := Prod.mk.inj (Option.some.inj hi)
        exact hnone
      · exact fun hnone => ⟨_, _, rfl, hnone⟩
    obtain ⟨found, w, hlook, hend⟩ := run_bind.mp hr
    obtain ⟨hgood'', hquiet'', hdisk'', -, hfound⟩ := dirlookup_spec hgood' hgood'.held hv hlook
    rw [hfound] at hentry
    cases found with
    | some q =>
      have hgood'' : Good sb B [q.1, dp] w := hgood''
      obtain ⟨hgood₃, hquiet₃⟩ := createFound_spec hgood'' hend
      rw [List.append_nil] at hgood₃
      have hall := (hquiet'.trans hquiet'').trans hquiet₃
      exact ⟨hgood₃, hall.leaves _, fun ha habs => by cases (hentry ha).mp habs⟩
    | none =>
      obtain ⟨-, hw⟩ := dirlookup_run hgood' hgood'.held hv hlook
      rw [hfound] at hw
      obtain ⟨-, rfl⟩ := hw
      obtain ⟨ip, rfl, hgood₃, hstay₃, hnew⟩ := createNew_spec hgood' hv hend
      refine ⟨hgood₃, ⟨hquiet'.1.trans hstay₃, fun ha => (hnew (hquiet'.anchored ha)).1,
        fun ha hnot => absurd ((hentry ha).mpr rfl) hnot⟩, fun ha _ => ⟨ip, rfl, ?_⟩⟩
      have hdinode : w.dinode = s.dinode := congrArg (fun d => d.2.2) (hquiet'.2 ha)
      obtain ⟨-, hnew⟩ := hnew (hquiet'.anchored ha)
      rwa [New, hdinode] at hnew

/-- `open` with `O_CREATE` makes a file exactly where the name is not there. -/
def Makes (s : St) (cwd : Slot) (path : Bytes) (omode : ℕ) : Prop :=
  omode &&& O_CREATE ≠ 0 ∧ s.Absent cwd path

theorem openInode_spec (h : Good sb B [] s) (hcwd : 0 < B cwd) {path : Bytes} {omode : ℕ}
    {r : Option Slot} (hr : openInode sb cwd path omode s = .ok (r, t)) :
    Good sb B r.toList t ∧ Leaves B (¬ Makes s cwd path omode) s t ∧
      (Anchored B s → Makes s cwd path omode → ∃ ip, r = some ip ∧ New s t ip T_FILE) := by
  rcases run_ite.mp hr with ⟨hmode, hr⟩ | ⟨hmode, hr⟩
  · obtain ⟨hgood, hleaves, hnew⟩ := create_spec h hcwd hr
    exact ⟨hgood, ⟨hleaves.stay, hleaves.anchored, fun ha hnot => hleaves.same ha fun habs =>
      hnot ⟨hmode, habs⟩⟩, fun ha hmakes => hnew ha hmakes.2⟩
  · have hno : ¬ Makes s cwd path omode := fun hm => hmode hm.1
    suffices hspec : Good sb B r.toList t ∧ Quiet B s t from
      ⟨hspec.1, hspec.2.leaves _, fun _ hm => absurd hm hno⟩
    obtain ⟨p, u, hname, hr⟩ := run_bind.mp hr
    obtain ⟨hgood, hquiet⟩ := namei_spec h hcwd hname
    cases p with
    | none =>
      obtain ⟨rfl, rfl⟩ := run_pure.mp hr
      exact ⟨hgood, hquiet⟩
    | some ip =>
      obtain ⟨_, v, hlock, hr⟩ := run_bind.mp hr
      obtain ⟨hgood', hquiet', -⟩ := ilock_quiet hgood hlock
      have hquiet := hquiet.trans hquiet'
      rw [run_get_bind] at hr
      rcases run_ite.mp hr with ⟨-, hr⟩ | ⟨-, hr⟩
      · obtain ⟨_, w, hput, hr⟩ := run_bind.mp hr
        obtain ⟨rfl, rfl⟩ := run_pure.mp hr
        obtain ⟨hgood'', hquiet'', -⟩ := iunlockput_quiet hgood' hput
        exact ⟨hgood'', hquiet.trans hquiet''⟩
      · obtain ⟨rfl, rfl⟩ := run_pure.mp hr
        exact ⟨hgood', hquiet⟩

/-- What holds of a call that takes a path and returns nothing but its result. -/
def PathSpec (sb : Superblock) (B : Slot → ℕ) (s : St) (r : ℤ) (t : St) : Prop :=
  Good sb B [] t ∧ Leaves B (r = -1) s t

theorem Quiet.pathSpec {r : ℤ} (h : Good sb B [] t) (hq : Quiet B s t) : PathSpec sb B s r t :=
  ⟨h, hq.leaves _⟩

/-- `mkdir` and `mknod` after `create`. -/
theorem putCreated_spec (h : Good sb B [] s) (hcwd : 0 < B cwd) {path : Bytes} {type : ℕ}
    {major minor r : ℤ}
    (hr : (create sb cwd path type major minor >>= putCreated) s = .ok (r, t)) :
    PathSpec sb B s r t := by
  obtain ⟨p, u, hcreate, hr⟩ := run_bind.mp hr
  obtain ⟨hgood, hleaves, hnew⟩ := create_spec h hcwd hcreate
  cases p with
  | none =>
    obtain ⟨rfl, rfl⟩ := run_pure.mp hr
    refine ⟨hgood, hleaves.stay, hleaves.anchored, fun ha _ => hleaves.same ha fun habs => ?_⟩
    obtain ⟨ip, hip, -⟩ := hnew ha habs
    cases hip
  | some ip =>
    obtain ⟨_, v, hput, hr⟩ := run_bind.mp hr
    obtain ⟨rfl, rfl⟩ := run_pure.mp hr
    obtain ⟨hgood', hquiet, -⟩ := iunlockput_quiet hgood hput
    exact ⟨hgood', hleaves.stay.trans hquiet.1, fun ha => hquiet.anchored (hleaves.anchored ha),
      fun _ hf => by cases hf⟩

theorem sys_mkdir_spec (h : Good sb B [] s) (hcwd : 0 < B cwd) {path : Option Bytes} {r : ℤ}
    (hr : sys_mkdir sb cwd path s = .ok (r, t)) : PathSpec sb B s r t := by
  cases path with
  | none =>
    obtain ⟨-, rfl⟩ := run_pure.mp hr
    exact Quiet.pathSpec h (.refl B s)
  | some path => exact putCreated_spec h hcwd hr

theorem sys_mknod_spec (h : Good sb B [] s) (hcwd : 0 < B cwd) {path : Option Bytes}
    {major minor : Option ℤ} {r : ℤ} (hr : sys_mknod sb cwd path major minor s = .ok (r, t)) :
    PathSpec sb B s r t := by
  cases path with
  | none =>
    obtain ⟨-, rfl⟩ := run_pure.mp hr
    exact Quiet.pathSpec h (.refl B s)
  | some path =>
    cases major with
    | none =>
      obtain ⟨-, rfl⟩ := run_pure.mp hr
      exact Quiet.pathSpec h (.refl B s)
    | some major =>
      cases minor with
      | none =>
        obtain ⟨-, rfl⟩ := run_pure.mp hr
        exact Quiet.pathSpec h (.refl B s)
      | some minor => exact putCreated_spec h hcwd hr

end Ostep.InodeCache

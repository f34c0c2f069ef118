import Ostep.PathRefs

/-!
# `link`, `unlink`, `chdir` and `exec` on references

`link` counts the new name before it knows that it can be entered, and takes that back where it
cannot.
-/

namespace Ostep.InodeCache
open Hoare
open FsBlocks (Dinode Block Superblock entryOf T_DIR T_DEV)

variable {sb : Superblock} {s t u : St} {k l ip dp cwd : Slot} {B : Slot → ℕ} {L : List Slot}

/-- The disk of `s` with one link more on inode `i`. -/
def Bumped (s : St) (i : ℕ) : (ℕ → Bool) × (ℕ → Block) × (ℕ → Dinode) :=
  (s.bitmap, s.data, Function.update s.dinode i
    { s.dinode i with nlink := short ((s.dinode i).nlink + 1) })

theorem short_undo {n : ℤ} (h : short n = n) : short (short (n + 1) - 1) = n := by
  rw [short, short, Int.bmod_sub_bmod, Int.add_sub_cancel]
  exact h

/-- The label `bad` of `link` takes back what was counted in `s`. -/
theorem linkBad_spec (h : Good sb (plus B ip) [] t) (hstay : Stay B s t) {r : ℤ}
    (hip : (t.icache ip).inum = (s.icache ip).inum) (hr : linkBad ip t = .ok (r, u)) :
    Good sb B [] u ∧ Stay B t u ∧ (Anchored (plus B ip) t → Anchored B u) ∧
      (Anchored B s → t.disk = Bumped s (s.icache ip).inum → u.disk = s.disk) := by
  obtain ⟨_, v, hlock, hr⟩ := run_bind.mp hr
  obtain ⟨h₁, hholds₁, hdisk₁, hv⟩ := ilock_spec h hlock
  obtain ⟨_, w, hdec, hr⟩ := run_bind.mp hr
  have hpos : 0 < plus B ip ip := by
    rw [plus_self]
    omega
  obtain ⟨h₂, hholds₂, hdisk₂, -, hanch₂⟩ := changeLink_spec (g := fun n => n - 1) h₁ hpos hv hdec
  obtain ⟨_, x, hput, hr⟩ := run_bind.mp hr
  obtain ⟨-, rfl⟩ := run_pure.mp hr
  have h₂' := good_plus.mp h₂
  obtain ⟨h₃, hquiet₃, -⟩ := iunlockput_quiet h₂' hput
  have hholds := hholds₁.trans hholds₂
  refine ⟨h₃, (hholds.stay B).trans hquiet₃.1, fun ha => ?_, fun ha hbump => ?_⟩
  · exact (iunlockput_final h₂' (hanch₂ (ha.disk (hholds₁.stay _) hdisk₁)) hput).2
  · obtain ⟨hbitmap, hdata, hdinode⟩ : v.bitmap = s.bitmap ∧ v.data = s.data ∧
        v.dinode = (Bumped s (s.icache ip).inum).2.2 := by
      have heq := hdisk₁.trans hbump
      simpa [St.disk, Bumped] using heq
    have hw : w.disk = s.disk := by
      rw [hdisk₂, hbitmap, hdata, hdinode, (hholds₁ ip).1, hip]
      simp only [Bumped, Function.update_self, Function.update_idem, St.disk, Prod.mk.injEq,
        true_and]
      rw [short_undo (ha.inRange _)]
      exact Function.update_eq_self _ _
    exact (hquiet₃.2 (ha.disk (hstay.trans (hholds.stay B)) hw)).trans hw

theorem linkEnter_spec (h : Good sb B [dp] s) (hv : (s.icache dp).valid = true) {name : Bytes}
    {ok : Bool} (hr : linkEnter sb ip dp name s = .ok (ok, t)) :
    Good sb B [dp] t ∧ Stay B s t ∧ (Anchored B s → Anchored B t) ∧ (ok = false → Quiet B s t) := by
  rw [linkEnter, run_get_bind] at hr
  rcases run_ite.mp hr with ⟨-, hr⟩ | ⟨-, hr⟩
  · obtain ⟨rfl, rfl⟩ := run_pure.mp hr
    exact ⟨h, .refl B s, id, fun _ => .refl B s⟩
  · have hpos : 0 < plus B dp dp := by
      rw [plus_self]
      omega
    obtain ⟨hgood, hstay, hlinks, hquiet⟩ := dirlink_spec (good_plus.mpr h) hpos hv hr
    have hstay' := hstay.mono (le_plus B dp)
    refine ⟨good_plus.mp hgood, hstay', fun ha => ?_, fun hok => ⟨hstay', fun ha => ?_⟩⟩
    · exact ha.stay hstay' (hlinks (ha.mono (le_plus B dp)))
    · exact (hquiet hok).2 (ha.mono (le_plus B dp))

/-- `link` from where it has the new name's directory. -/
theorem linkAt_spec (h : Good sb (plus B ip) [dp] t) (hstay : Stay B s t) {name : Bytes} {r : ℤ}
    (hip : (t.icache ip).inum = (s.icache ip).inum) (hr : linkAt sb ip dp name t = .ok (r, u)) :
    Good sb B [] u ∧ Stay B t u ∧ (Anchored (plus B ip) t → Anchored B u) ∧
      (Anchored B s → Anchored (plus B ip) t → t.disk = Bumped s (s.icache ip).inum → r = -1 →
        u.disk = s.disk) := by
  obtain ⟨_, v, hlock, hr⟩ := run_bind.mp hr
  obtain ⟨h₁, hholds₁, hdisk₁, hv⟩ := ilock_spec h hlock
  obtain ⟨ok, w, henter, hr⟩ := run_bind.mp hr
  obtain ⟨h₂, hstay₂, hanch₂, hquiet₂⟩ := linkEnter_spec h₁ hv henter
  obtain ⟨_, x, hput, hr⟩ := run_bind.mp hr
  obtain ⟨h₃, hquiet₃, hinum₃⟩ := iunlockput_quiet h₂ hput
  have hstay₃ : Stay (plus B ip) t x := ((hholds₁.stay _).trans hstay₂).trans hquiet₃.1
  have hanch₃ : Anchored (plus B ip) t → Anchored (plus B ip) x := fun ha =>
    hquiet₃.anchored (hanch₂ (ha.disk (hholds₁.stay _) hdisk₁))
  rcases run_ite.mp hr with ⟨-, hr⟩ | ⟨hok, hr⟩
  · obtain ⟨_, y, hfinal, hr⟩ := run_bind.mp hr
    obtain ⟨rfl, rfl⟩ := run_pure.mp hr
    have h₃' := good_plus.mp h₃
    obtain ⟨h₄, hquiet₄⟩ := iput_quiet h₃' hfinal
    refine ⟨h₄, (hstay₃.mono (le_plus B ip)).trans hquiet₄.1,
      fun ha => iput_final h₃' (hanch₃ ha) hfinal, fun _ _ _ hf => by cases hf⟩
  · have hstay₃' := hstay₃.mono (le_plus B ip)
    have hip₃ : (x.icache ip).inum = (s.icache ip).inum := by
      rw [(hstay₃ ip (by rw [plus_self]; omega)).1, hip]
    obtain ⟨h₄, hstay₄, hanch₄, hsame₄⟩ := linkBad_spec h₃ (hstay.trans hstay₃') hip₃ hr
    refine ⟨h₄, hstay₃'.trans hstay₄, fun ha => hanch₄ (hanch₃ ha), fun ha ha' hbump _ => ?_⟩
    have hdisk₂ := (hquiet₂ (by simpa using hok)).2 (ha'.disk (hholds₁.stay _) hdisk₁)
    have hdisk₃ := hquiet₃.2 (hanch₂ (ha'.disk (hholds₁.stay _) hdisk₁))
    exact hsame₄ ha (by rw [hdisk₃, hdisk₂, hdisk₁, hbump])

theorem linkNew_spec (h : Good sb B [ip] s) (hcwd : 0 < B cwd) (hv : (s.icache ip).valid = true)
    {new : Bytes} {r : ℤ} (hr : linkNew sb cwd ip new s = .ok (r, t)) : PathSpec sb B s r t := by
  have hpos : 0 < plus B ip ip := by
    rw [plus_self]
    omega
  obtain ⟨_, u, hinc, hr⟩ := run_bind.mp hr
  obtain ⟨h₁, hholds₁, hdisk₁, -, hanch₁⟩ :=
    changeLink_spec (g := fun n => n + 1) (good_plus.mpr h) hpos hv hinc
  obtain ⟨_, v, hunlock, hr⟩ := run_bind.mp hr
  obtain ⟨h₂, hholds₂, hdisk₂⟩ := iunlock_spec h₁ hunlock
  obtain ⟨p, w, hname, hr⟩ := run_bind.mp hr
  obtain ⟨h₃, hquiet₃, -⟩ := namex_spec h₂ (Nat.lt_of_lt_of_le hcwd (le_plus B ip cwd)) hname
  have hstay₃ : Stay (plus B ip) s w := ((hholds₁.trans hholds₂).stay _).trans hquiet₃.1
  have hstay₃' := hstay₃.mono (le_plus B ip)
  have hip₃ := (hstay₃ ip hpos).1
  have hanch₂ : Anchored B s → Anchored (plus B ip) v := fun ha =>
    (hanch₁ (ha.mono (le_plus B ip))).disk (hholds₂.stay _) hdisk₂
  have hbump : Anchored B s → w.disk = Bumped s (s.icache ip).inum := fun ha => by
    rw [hquiet₃.2 (hanch₂ ha), hdisk₂, hdisk₁, Bumped]
  cases p with
  | none =>
    obtain ⟨h₄, hstay₄, hanch₄, hsame₄⟩ := linkBad_spec h₃ hstay₃' hip₃ hr
    exact ⟨h₄, hstay₃'.trans hstay₄, fun ha => hanch₄ (hquiet₃.anchored (hanch₂ ha)),
      fun ha _ => hsame₄ ha (hbump ha)⟩
  | some p =>
    obtain ⟨h₄, hstay₄, hanch₄, hsame₄⟩ := linkAt_spec h₃ hstay₃' hip₃ hr
    exact ⟨h₄, hstay₃'.trans hstay₄, fun ha => hanch₄ (hquiet₃.anchored (hanch₂ ha)),
      fun ha hf => hsame₄ ha (hquiet₃.anchored (hanch₂ ha)) (hbump ha) hf⟩

theorem sys_link_spec (h : Good sb B [] s) (hcwd : 0 < B cwd) {old new : Option Bytes} {r : ℤ}
    (hr : sys_link sb cwd old new s = .ok (r, t)) : PathSpec sb B s r t := by
  cases old with
  | none =>
    obtain ⟨-, rfl⟩ := run_pure.mp hr
    exact Quiet.pathSpec h (.refl B s)
  | some old =>
    cases new with
    | none =>
      obtain ⟨-, rfl⟩ := run_pure.mp hr
      exact Quiet.pathSpec h (.refl B s)
    | some new =>
      obtain ⟨p, u, hname, hr⟩ := run_bind.mp hr
      obtain ⟨h₁, hquiet₁⟩ := namei_spec h hcwd hname
      cases p with
      | none =>
        obtain ⟨-, rfl⟩ := run_pure.mp hr
        exact Quiet.pathSpec h₁ hquiet₁
      | some ip =>
        obtain ⟨_, v, hlock, hr⟩ := run_bind.mp hr
        obtain ⟨h₂, hquiet₂, hv⟩ := ilock_quiet h₁ hlock
        have hquiet := hquiet₁.trans hquiet₂
        rw [run_get_bind] at hr
        rcases run_ite.mp hr with ⟨-, hr⟩ | ⟨-, hr⟩
        · obtain ⟨_, w, hput, hr⟩ := run_bind.mp hr
          obtain ⟨-, rfl⟩ := run_pure.mp hr
          obtain ⟨h₃, hquiet₃, -⟩ := iunlockput_quiet h₂ hput
          exact Quiet.pathSpec h₃ (hquiet.trans hquiet₃)
        · obtain ⟨h₃, hleaves⟩ := linkNew_spec h₂ hcwd hv hr
          exact ⟨h₃, hquiet.then hleaves⟩

/-! ## Unlinking -/

theorem unlinkBad_spec (h : Good sb B [dp] s) {r : ℤ} (hr : unlinkBad dp s = .ok (r, t)) :
    PathSpec sb B s r t := by
  obtain ⟨_, u, hput, hr⟩ := run_bind.mp hr
  obtain ⟨-, rfl⟩ := run_pure.mp hr
  obtain ⟨hgood, hquiet, -⟩ := iunlockput_quiet h hput
  exact Quiet.pathSpec hgood hquiet

theorem decParent_spec (h : Good sb B L s) (hk : 0 < B dp) (hv : (s.icache dp).valid = true)
    {type : ℕ} {a : Unit} (hr : decParent dp type s = .ok (a, t)) :
    Good sb B L t ∧ Holds s t ∧ (Anchored B s → Anchored B t) := by
  rcases run_ite.mp hr with ⟨-, hr⟩ | ⟨-, hr⟩
  · obtain ⟨hgood, hholds, -, -, hanch⟩ := changeLink_spec (g := fun n => n - 1) h hk hv hr
    exact ⟨hgood, hholds, hanch⟩
  · obtain ⟨-, rfl⟩ := run_pure.mp hr
    exact ⟨h, fun _ => ⟨rfl, id⟩, id⟩

theorem unlinkErase_spec (h : Good sb B [ip, dp] s) (hvdp : (s.icache dp).valid = true)
    (hvip : (s.icache ip).valid = true) {off type : ℕ} {r : ℤ}
    (hr : unlinkErase sb dp ip off type s = .ok (r, t)) : PathSpec sb B s r t := by
  -- both inodes are standing references until they are put
  have h₀ : Good sb (plus (plus B ip) dp) [] s :=
    good_plus.mpr (good_plus.mpr h)
  have hle : ∀ k, B k ≤ plus (plus B ip) dp k := fun k => (le_plus B ip k).trans (le_plus _ dp k)
  have hdpB : 0 < plus (plus B ip) dp dp := by
    rw [plus_self]
    omega
  have hipB : 0 < plus B ip ip := by
    rw [plus_self]
    omega
  obtain ⟨n, u, hwrite, hr⟩ := run_bind.mp hr
  obtain ⟨h₁, hholds₁, hlinks₁⟩ := writei_spec h₀ (h₀.standing hdpB) hvdp hwrite
  cases n with
  | none => exact (run_throw.mp hr).elim
  | some n =>
    rcases run_ite.mp hr with ⟨-, hr⟩ | ⟨-, hr⟩
    · exact (run_throw.mp hr).elim
    obtain ⟨_, v, hdec, hr⟩ := run_bind.mp hr
    obtain ⟨h₂, hholds₂, hanch₂⟩ := decParent_spec h₁ hdpB ((hholds₁ dp).2 hvdp) hdec
    obtain ⟨_, w, hput, hr⟩ := run_bind.mp hr
    have h₂' := good_plus.mp h₂
    obtain ⟨h₃, hquiet₃, -⟩ := iunlockput_quiet h₂' hput
    have hholds := hholds₁.trans hholds₂
    have hvip₃ := (hquiet₃.1 ip hipB).2 ((hholds ip).2 hvip)
    obtain ⟨_, x, hdec', hr⟩ := run_bind.mp hr
    obtain ⟨h₄, hholds₄, -, -, hanch₄⟩ :=
      changeLink_spec (g := fun n => n - 1) h₃ hipB hvip₃ hdec'
    obtain ⟨_, y, hput', hr⟩ := run_bind.mp hr
    obtain ⟨rfl, rfl⟩ := run_pure.mp hr
    have h₄' := good_plus.mp h₄
    obtain ⟨h₅, hquiet₅, -⟩ := iunlockput_quiet h₄' hput'
    refine ⟨h₅, ?_, fun ha => ?_, fun _ hf => by cases hf⟩
    · exact (((hholds.stay B).trans (hquiet₃.1.mono (le_plus B ip))).trans
        (hholds₄.stay B)).trans hquiet₅.1
    · have ha₁ := (ha.mono hle).stay (hholds₁.stay _) hlinks₁
      obtain ⟨-, ha₃⟩ := iunlockput_final h₂' (hanch₂ ha₁) hput
      exact (iunlockput_final h₄' (hanch₄ ha₃) hput').2

theorem unlinkTest_spec (h : Good sb B [ip, dp] s) (hvdp : (s.icache dp).valid = true)
    (hvip : (s.icache ip).valid = true) {off type : ℕ} {r : ℤ}
    (hr : unlinkTest sb dp ip off type s = .ok (r, t)) : PathSpec sb B s r t := by
  obtain ⟨ok, u, htest, hrest⟩ := run_bind.mp hr
  have hsame : u = s := by
    rcases run_ite.mp htest with ⟨-, htest⟩ | ⟨-, htest⟩
    · rw [isdirempty, run_get_bind] at htest
      exact allFree_same h h.held hvip htest
    · exact (run_pure.mp htest).2.symm
  subst hsame
  rcases run_ite.mp hrest with ⟨-, hrest⟩ | ⟨-, hrest⟩
  · exact unlinkErase_spec h hvdp hvip hrest
  · obtain ⟨_, v, hput, hend⟩ := run_bind.mp hrest
    obtain ⟨hgood, hquiet, -⟩ := iunlockput_quiet h hput
    obtain ⟨hgood', hleaves⟩ := unlinkBad_spec hgood hend
    exact ⟨hgood', hquiet.then hleaves⟩

theorem unlinkFound_spec (h : Good sb B [ip, dp] s) (hvdp : (s.icache dp).valid = true) {off : ℕ}
    {r : ℤ} (hr : unlinkFound sb dp ip off s = .ok (r, t)) : PathSpec sb B s r t := by
  obtain ⟨_, u, hlock, hr⟩ := run_bind.mp hr
  obtain ⟨h₁, hholds, hdisk, hvip⟩ := ilock_spec h hlock
  rw [run_get_bind] at hr
  rcases run_ite.mp hr with ⟨-, hr⟩ | ⟨-, hr⟩
  · exact (run_throw.mp hr).elim
  · obtain ⟨h₂, hleaves⟩ := unlinkTest_spec h₁ ((hholds dp).2 hvdp) hvip hr
    exact ⟨h₂, Quiet.then ⟨hholds.stay B, fun _ => hdisk⟩ hleaves⟩

theorem sys_unlink_spec (h : Good sb B [] s) (hcwd : 0 < B cwd) {path : Option Bytes} {r : ℤ}
    (hr : sys_unlink sb cwd path s = .ok (r, t)) : PathSpec sb B s r t := by
  cases path with
  | none =>
    obtain ⟨-, rfl⟩ := run_pure.mp hr
    exact Quiet.pathSpec h (.refl B s)
  | some path =>
    obtain ⟨p, u, hname, hr⟩ := run_bind.mp hr
    obtain ⟨h₁, hquiet₁, -⟩ := namex_spec h hcwd hname
    cases p with
    | none =>
      obtain ⟨-, rfl⟩ := run_pure.mp hr
      exact Quiet.pathSpec h₁ hquiet₁
    | some p =>
      obtain ⟨dp, name⟩ := p
      obtain ⟨_, v, hlock, hr⟩ := run_bind.mp hr
      obtain ⟨h₂, hquiet₂, hv⟩ := ilock_quiet h₁ hlock
      have hquiet := hquiet₁.trans hquiet₂
      have h₂ : Good sb B [dp] v := h₂
      have hbad : ∀ {x y : St} {r : ℤ}, Quiet B s x → Good sb B [dp] x →
          unlinkBad dp x = .ok (r, y) → PathSpec sb B s r y := by
        intro x y r hq hx hbad
        obtain ⟨hgood, hleaves⟩ := unlinkBad_spec hx hbad
        exact ⟨hgood, hq.then hleaves⟩
      rcases run_ite.mp hr with ⟨-, hr⟩ | ⟨-, hr⟩
      · exact hbad hquiet h₂ hr
      · -- the directory stays locked while its entry is looked up
        obtain ⟨found, w, hlook, hr⟩ := run_bind.mp hr
        have hpos : 0 < plus B dp dp := by
          rw [plus_self]
          omega
        have h₂' := good_plus.mpr h₂
        obtain ⟨h₃, hquiet₃, hdisk₃, -⟩ := dirlookup_spec h₂' (h₂'.standing hpos) hv hlook
        have hquiet : Quiet B s w :=
          hquiet.trans ⟨hquiet₃.1.mono (le_plus B dp), fun _ => hdisk₃⟩
        cases found with
        | none => exact hbad hquiet (good_plus.mp h₃) hr
        | some q =>
          have h₃ : Good sb B [dp, q.1] w := good_plus.mp h₃
          obtain ⟨h₄, hleaves⟩ :=
            unlinkFound_spec (h₃.perm (List.Perm.swap ..)) ((hquiet₃.1 dp hpos).2 hv) hr
          exact ⟨h₄, hquiet.then hleaves⟩

/-! ## Looking at inodes -/

theorem chdirInode_spec (h : Good sb B [] s) (hcwd : 0 < B cwd) {path : Option Bytes}
    {r : Option Slot} (hr : chdirInode sb cwd path s = .ok (r, t)) :
    Good sb B r.toList t ∧ Quiet B s t := by
  cases path with
  | none =>
    obtain ⟨rfl, rfl⟩ := run_pure.mp hr
    exact ⟨h, .refl B s⟩
  | some path =>
    obtain ⟨p, u, hname, hr⟩ := run_bind.mp hr
    obtain ⟨h₁, hquiet₁⟩ := namei_spec h hcwd hname
    cases p with
    | none =>
      obtain ⟨rfl, rfl⟩ := run_pure.mp hr
      exact ⟨h₁, hquiet₁⟩
    | some ip =>
      obtain ⟨_, v, hlock, hr⟩ := run_bind.mp hr
      obtain ⟨h₂, hquiet₂, -⟩ := ilock_quiet h₁ hlock
      have hquiet := hquiet₁.trans hquiet₂
      rw [run_get_bind] at hr
      rcases run_ite.mp hr with ⟨-, hr⟩ | ⟨-, hr⟩
      · obtain ⟨_, w, hput, hr⟩ := run_bind.mp hr
        obtain ⟨rfl, rfl⟩ := run_pure.mp hr
        obtain ⟨h₃, hquiet₃, -⟩ := iunlockput_quiet h₂ hput
        exact ⟨h₃, hquiet.trans hquiet₃⟩
      · obtain ⟨_, w, hunlock, hr⟩ := run_bind.mp hr
        obtain ⟨rfl, rfl⟩ := run_pure.mp hr
        obtain ⟨h₃, hholds₃, hdisk₃⟩ := iunlock_spec h₂ hunlock
        exact ⟨h₃, hquiet.trans ⟨hholds₃.stay B, fun _ => hdisk₃⟩⟩

/-- A locked file is read without a change. -/
theorem fileRead_same (h : Good sb B L s) (hk : 0 < (s.icache k).ref)
    (hv : (s.icache k).valid = true) {driver : ℕ → ℕ → Option Bytes} {off n : ℕ}
    {r : Option Bytes} (hr : fileRead sb driver k off n s = .ok (r, t)) : t = s := by
  rw [fileRead, run_get_bind] at hr
  rcases run_ite.mp hr with ⟨-, hr⟩ | ⟨-, hr⟩
  · exact (run_pure.mp hr).2.symm
  · refine (onInode_same h hk hr fun v hv' => ?_).2
    rw [← FsBlocks.readi_wide] at hv'
    exact (FsBlocks.readi_spec h.inv (locked_of_slot h.unique hk hv) off n).ok rfl hv'

variable {env : ExecEnv}

theorem loadPages_same (h : Good sb B L s) (hk : 0 < (s.icache k).ref)
    (hv : (s.icache k).valid = true) {offset sz : ℕ} {offs : List ℕ} {r : Bool}
    (hr : loadPages sb env k offset sz offs s = .ok (r, t)) : t = s := by
  induction offs with
  | nil => exact (run_pure.mp hr).2.symm
  | cons i is ih =>
    obtain ⟨b, u, hread, hrest⟩ := run_bind.mp hr
    obtain rfl := fileRead_same h hk hv hread
    cases b with
    | none => exact (run_pure.mp hrest).2.symm
    | some b =>
      rcases run_ite.mp hrest with ⟨-, hrest⟩ | ⟨-, hrest⟩
      · exact ih hrest
      · exact (run_pure.mp hrest).2.symm

theorem execSegment_same (h : Good sb B L s) (hk : 0 < (s.icache k).ref)
    (hv : (s.icache k).valid = true) {i : ℕ} {ph : Bytes} {r : Bool}
    (hr : execSegment sb env k i ph s = .ok (r, t)) : t = s := by
  rcases run_ite.mp hr with ⟨-, hr⟩ | ⟨-, hr⟩
  · exact (run_pure.mp hr).2.symm
  rcases run_ite.mp hr with ⟨-, hr⟩ | ⟨-, hr⟩
  · exact (run_pure.mp hr).2.symm
  rcases run_ite.mp hr with ⟨-, hr⟩ | ⟨-, hr⟩
  · exact (run_pure.mp hr).2.symm
  rcases run_ite.mp hr with ⟨-, hr⟩ | ⟨-, hr⟩
  · exact (run_pure.mp hr).2.symm
  rcases run_ite.mp hr with ⟨-, hr⟩ | ⟨-, hr⟩
  · exact (run_pure.mp hr).2.symm
  · exact loadPages_same h hk hv hr

theorem execLoad_same (h : Good sb B L s) (hk : 0 < (s.icache k).ref)
    (hv : (s.icache k).valid = true) {phoff i left : ℕ} {r : Bool}
    (hr : execLoad sb env k phoff i left s = .ok (r, t)) : t = s := by
  induction left generalizing i with
  | zero => exact (run_pure.mp hr).2.symm
  | succ left ih =>
    obtain ⟨ph, u, hread, hrest⟩ := run_bind.mp hr
    obtain rfl := fileRead_same h hk hv hread
    cases ph with
    | none => exact (run_pure.mp hrest).2.symm
    | some ph =>
      rcases run_ite.mp hrest with ⟨-, hrest⟩ | ⟨-, hrest⟩
      · exact (run_pure.mp hrest).2.symm
      obtain ⟨ok, v, hseg, hload⟩ := run_bind.mp hrest
      obtain rfl := execSegment_same h hk hv hseg
      rcases run_ite.mp hload with ⟨-, hload⟩ | ⟨-, hload⟩
      · exact ih hload
      · exact (run_pure.mp hload).2.symm

theorem execRead_same (h : Good sb B L s) (hk : 0 < (s.icache k).ref)
    (hv : (s.icache k).valid = true) {r : Bool} (hr : execRead sb env k s = .ok (r, t)) : t = s := by
  obtain ⟨elf, u, hread, hrest⟩ := run_bind.mp hr
  obtain rfl := fileRead_same h hk hv hread
  cases elf with
  | none => exact (run_pure.mp hrest).2.symm
  | some elf =>
    rcases run_ite.mp hrest with ⟨-, hrest⟩ | ⟨-, hrest⟩
    · exact (run_pure.mp hrest).2.symm
    rcases run_ite.mp hrest with ⟨-, hrest⟩ | ⟨-, hrest⟩
    · exact (run_pure.mp hrest).2.symm
    rcases run_ite.mp hrest with ⟨-, hrest⟩ | ⟨-, hrest⟩
    · exact (run_pure.mp hrest).2.symm
    · exact execLoad_same h hk hv hrest

theorem exec_spec (h : Good sb B [] s) (hcwd : 0 < B cwd) {path : Bytes} {r : ℤ}
    (hr : exec sb env cwd path s = .ok (r, t)) : PathSpec sb B s r t := by
  obtain ⟨p, u, hname, hr⟩ := run_bind.mp hr
  obtain ⟨h₁, hquiet₁⟩ := namei_spec h hcwd hname
  cases p with
  | none =>
    obtain ⟨-, rfl⟩ := run_pure.mp hr
    exact Quiet.pathSpec h₁ hquiet₁
  | some ip =>
    have h₁ : Good sb B [ip] u := h₁
    obtain ⟨_, v, hlock, hr⟩ := run_bind.mp hr
    obtain ⟨h₂, hquiet₂, hv⟩ := ilock_quiet h₁ hlock
    obtain ⟨ok, w, hread, hrest⟩ := run_bind.mp hr
    obtain rfl := execRead_same h₂ h₂.held hv hread
    obtain ⟨_, x, hput, hend⟩ := run_bind.mp hrest
    obtain ⟨-, rfl⟩ := run_pure.mp hend
    obtain ⟨h₃, hquiet₃, -⟩ := iunlockput_quiet h₂ hput
    exact Quiet.pathSpec h₃ ((hquiet₁.trans hquiet₂).trans hquiet₃)

end Ostep.InodeCache

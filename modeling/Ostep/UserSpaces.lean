import Ostep.PageSystem

/-!
# What a process sees of its address space

A page directory maps page numbers to pages with flags. `copyuvm` copies such a map, `copyout`
writes through it and `growproc` changes it.
-/

namespace Ostep.PageTables
open ByteWords Hoare Ownership TransitionSystem

variable {ι κ : Type*} {L : Symbols} {root : ι → ℕ} {held : κ → ℕ} {mem : ℕ} {s t u : Mem}
  {i j : ι}

/-- The page and the flags that the hardware finds for the page number `vp`. -/
def Mem.mapping (s : Mem) (r vp : ℕ) : Option (ℕ × ℕ) :=
  match s.lookup r (vp * PGSIZE) with
  | some e => if Present e then some (pageOf e, PTE_FLAGS e) else none
  | none => none

theorem page_lt {vp : ℕ} (h : vp < 2 ^ 20) : vp * PGSIZE < 2 ^ 32 := by
  change vp * 4096 < 4294967296
  omega

theorem user_lt {vp : ℕ} (h : vp < USERPAGES) : vp < 2 ^ 20 := by
  change vp < 524288 at h
  omega

theorem Inv.mapping (h : Inv L root held mem s) (hi : root i ≠ 0) {vp : ℕ} (hvp : vp < 2 ^ 20) :
    s.mapping (root i) vp = if Present (s.pte (root i) vp)
      then some (pageOf (s.pte (root i) vp), PTE_FLAGS (s.pte (root i) vp)) else none := by
  rw [Mem.mapping, h.lookup hi (page_lt hvp), page_div]
  by_cases ht : s.table (root i) (vp / 1024) = 0
  · rw [if_pos ht, pte_of_table ht, if_neg not_present_zero]
  · rw [if_neg ht]

theorem Inv.mapping_some (h : Inv L root held mem s) (hi : root i ≠ 0) {vp f fl : ℕ}
    (hvp : vp < 2 ^ 20) : s.mapping (root i) vp = some (f, fl) ↔ Present (s.pte (root i) vp) ∧
      pageOf (s.pte (root i) vp) = f ∧ PTE_FLAGS (s.pte (root i) vp) = fl := by
  rw [h.mapping hi hvp]
  split_ifs with hp
  · rw [Option.some_inj, Prod.mk.injEq]
    exact (and_iff_right hp).symm
  · exact iff_of_false (by simp) (fun hc => hp hc.1)

theorem Inv.mapping_isSome (h : Inv L root held mem s) (hi : root i ≠ 0) {vp : ℕ}
    (hvp : vp < 2 ^ 20) : (s.mapping (root i) vp).isSome ↔ Present (s.pte (root i) vp) := by
  rw [h.mapping hi hvp]
  split_ifs with hp
  · exact iff_of_true rfl hp
  · exact iff_of_false (by simp) hp

theorem Inv.mapping_none (h : Inv L root held mem s) (hi : root i ≠ 0) {vp : ℕ}
    (hvp : vp < 2 ^ 20) : s.mapping (root i) vp = none ↔ ¬ Present (s.pte (root i) vp) := by
  rw [← h.mapping_isSome hi hvp, Option.not_isSome_iff_eq_none]

/-- A page that a process maps is its own. -/
theorem Inv.mapping_own (h : Inv L root held mem s) (hi : root i ≠ 0) {vp f fl : ℕ}
    (hvp : vp < USERPAGES) (hm : s.mapping (root i) vp = some (f, fl)) :
    own root held mem s (.user i vp : Place ι κ) = f ∧ f ≠ 0 := by
  obtain ⟨hp, rfl, -⟩ := (h.mapping_some hi (user_lt hvp)).mp hm
  exact ⟨own_present hi hvp hp, h.frame_ne i vp hi hvp hp⟩

/-- No two page numbers share a page, within a process or across processes. -/
theorem Inv.mapping_inj (h : Inv L root held mem s) (hi : root i ≠ 0) (hj : root j ≠ 0)
    {vp vq f fl gl : ℕ} (hvp : vp < USERPAGES) (hvq : vq < USERPAGES)
    (hm : s.mapping (root i) vp = some (f, fl)) (hn : s.mapping (root j) vq = some (f, gl)) :
    i = j ∧ vp = vq := by
  obtain ⟨ho, hf⟩ := h.mapping_own hi hvp hm
  obtain ⟨ho', -⟩ := h.mapping_own hj hvq hn
  have := h.owns.inj (.user i vp) (.user j vq) (ho.trans ho'.symm) (ho ▸ hf)
  simpa using this

theorem Inv.mapping_same (h : Inv L root held mem s) (ht : Inv L root held mem t)
    (hsame : Same root s t) (hi : root i ≠ 0) {vp : ℕ} (hvp : vp < 2 ^ 20) :
    t.mapping (root i) vp = s.mapping (root i) vp := by
  rw [Mem.mapping, Mem.mapping, same_lookup h hsame ht hi (page_lt hvp)]

theorem flags_pte {b perm : ℕ} (hp : perm < PGSIZE) (hpres : Present perm) :
    PTE_FLAGS (b * PGSIZE ||| perm ||| PTE_P) = perm := by
  have h1 : perm ||| 1 = perm := by
    apply Nat.eq_of_testBit_eq
    intro k
    rw [Nat.testBit_or]
    rcases Nat.eq_zero_or_pos k with rfl | hk
    · rw [(present_iff perm).mp hpres]
      rfl
    · have hbit : (1 : ℕ).testBit k = false :=
        Nat.testBit_lt_two_pow (Nat.one_lt_two_pow hk.ne')
      rw [hbit, Bool.or_false]
  have h := Nat.two_pow_add_eq_or_of_lt (i := 12) hp b
  change perm < 4096 at hp
  rw [Nat.or_assoc, show PTE_P = 1 from rfl, h1, PTE_FLAGS, Nat.mul_comm,
    show PGSIZE = 2 ^ 12 from rfl, ← h]
  omega

theorem below_iff {vp sz : ℕ} (h : sz ≤ KERNBASE) : vp * PGSIZE < PGROUNDUP sz ↔ vp < pages sz := by
  rw [PGROUNDUP_eq h]
  exact Nat.mul_lt_mul_right (by decide)

theorem below_user {vp sz : ℕ} (h : sz ≤ KERNBASE) (hvp : vp < pages sz) : vp < USERPAGES :=
  hvp.trans_le (pages_le h)

/-! ## The first process -/

/-- A kernel of 68 kilobytes with a page of data. -/
def bootSymbols : Symbols where
  data := 0x80111000
  endAddr := 0x801114a8
  text := by decide
  aligned := rfl
  bss := by decide
  fits := by decide

theorem bootSymbols_first : bootSymbols.first = 274 := by decide

/-- All the memory behind the kernel is free. -/
def bootSys : Sys Unit Unit :=
  ⟨⟨fun _ _ => 0, List.range' 274 57070⟩, fun _ => 0, fun _ => 0⟩

theorem bootSys_boot : bootSys.boot bootSymbols := by
  have hmem : ∀ f, f ∈ bootSys.mem.freelist ↔ 274 ≤ f ∧ f < NPAGES := by
    intro f
    have hpages : NPAGES = 57344 := rfl
    rw [bootSys, List.mem_range'_1, hpages]
  rw [Sys.boot, bootSymbols_first]
  refine ⟨fun _ => rfl, List.nodup_range', fun f hf => (hmem f).mp hf, fun _ hk => absurd rfl hk,
    fun _ _ _ hk => absurd rfl hk, fun f hlo hhi => ?_⟩
  refine iff_of_false (fun hc => hc ((hmem f).mpr ⟨hlo, hhi⟩)) ?_
  rintro ⟨k, hk⟩
  have h0 : (0 : ℕ) = f := hk
  omega

/-- A process of `sz` bytes and the page of its kernel stack. -/
structure OneProcess (sz : ℕ) (s : Sys Unit Unit) : Prop where
  reachable : (pageSystem bootSymbols Unit Unit).Reachable s
  root_ne : s.root () ≠ 0
  kstack_ne : s.held () ≠ 0
  user : ∀ vp, vp < pages sz → Present (s.mem.pte (s.root ()) vp) ∧ User (s.mem.pte (s.root ()) vp)
  none : ∀ vp, pages sz ≤ vp → vp < USERPAGES → s.mem.pte (s.root ()) vp = 0
  table : ∀ d, s.mem.table (s.root ()) d ≠ 0 → d < 568 ∨ 1016 ≤ d

/-- Without pages of its own yet. -/
theorem exists_emptyProcess : ∃ s, OneProcess 0 s ∧ 56044 ≤ s.mem.freelist.length := by
  -- The kernel stack is the first page.
  set s₁ : Sys Unit Unit := ⟨⟨fun _ _ => 0, List.range' 275 57069⟩, fun _ => 0, fun _ => 274⟩
  have hstep₁ : (pageSystem bootSymbols Unit Unit).step bootSys (.kalloc ()) s₁ := by
    refine ⟨rfl, some 274, s₁.mem, rfl, ?_⟩
    have hheld : Function.update bootSys.held () ((some 274).getD 0) = fun _ => 274 := by
      funext k
      exact Function.update_self ..
    rw [hheld]
    rfl
  have hr₁ : (pageSystem bootSymbols Unit Unit).Reachable s₁ :=
    (System.Reachable.init bootSys_boot).step hstep₁
  have hlen₁ : s₁.mem.freelist.length = 57069 := List.length_range'
  obtain ⟨r, m₂, hrun₂, hnew⟩ :=
    Inv.setupkvm_enough (i := ()) (reachable_inv hr₁) rfl (by rw [hlen₁]; decide)
  set s₂ : Sys Unit Unit := ⟨m₂, Function.update s₁.root () ((some r).getD 0), s₁.held⟩
  have hstep₂ : (pageSystem bootSymbols Unit Unit).step s₁ (.setupkvm ()) s₂ :=
    ⟨rfl, some r, m₂, hrun₂, rfl⟩
  have hlen₂ : 57069 ≤ m₂.freelist.length + (1 + 1024) := hlen₁ ▸ hnew.length (reachable_inv hr₁)
  have hroot : s₂.root () = r := Function.update_self () r s₁.root
  refine ⟨s₂, ⟨hr₁.step hstep₂, ?_, Nat.succ_ne_zero 273, fun vp hvp => ?_, fun vp _ hvp => ?_,
    fun d hd => ?_⟩, ?_⟩
  · rw [hroot]
    exact hnew.ne_zero (reachable_inv hr₁)
  · exact absurd hvp (Nat.not_lt_zero vp)
  · rw [hroot]
    exact hnew.empty vp hvp
  · rw [hroot] at hd
    exact (hnew.kernel_table d hd).2
  · change 56044 ≤ m₂.freelist.length
    omega

theorem exists_oneProcess {sz : ℕ} (hsz : sz ≤ 0x100000) : ∃ s, OneProcess sz s := by
  obtain ⟨s, hs, hlen⟩ := exists_emptyProcess
  have hempty : ∀ vq, vq < USERPAGES → s.mem.pte (s.root ()) vq = 0 :=
    fun vq => hs.none vq (Nat.zero_le _)
  have hpages : pages sz ≤ 256 := pages_mono hsz
  obtain ⟨q, m, hrun, hout⟩ := (Inv.allocuvm (i := ())
    (reachable_inv hs.reachable) hs.root_ne (show 0 ≤ sz from Nat.zero_le _) (hsz.trans_lt (by decide))
    (fun vq _ hlt hp => by
      rw [hempty vq (below_user (hsz.trans (by decide)) hlt)] at hp
      exact not_present_zero hp)).returns
  have hstep : (pageSystem bootSymbols Unit Unit).step s (.allocuvm () 0 sz) { s with mem := m } :=
    ⟨hs.root_ne, by decide, hsz.trans_lt (by decide), q, m, hrun, rfl⟩
  rcases hout with ⟨-, -, hg, -⟩ | ⟨-, -, hlt⟩
  swap
  · have hlen' : s.mem.freelist.length < 2 * (pages sz - pages 0) := hlt
    omega
  refine ⟨_, hs.reachable.step hstep, hs.root_ne, hs.kstack_ne, fun vp hvp => ?_,
    fun vp hle hvp => ?_, fun d hd => ?_⟩
  · obtain ⟨f, -, hpte, -⟩ := hg.new vp (Nat.zero_le _) hvp
    change Present (m.pte (s.root ()) vp) ∧ User (m.pte (s.root ()) vp)
    rw [hpte]
    exact ⟨present_entry, user_entry.mpr (by decide)⟩
  · change m.pte (s.root ()) vp = 0
    rw [hg.other () vp hs.root_ne (fun hc => by omega), hempty vp hvp]
  · by_contra hc
    have hkernel := hg.kernel d (by omega)
    exact hc (hs.table d (by rwa [← hkernel]))

/-! ## copyuvm -/

/-- In `t` the directory `d` maps what `r` maps below `sz` in `s`, in pages of its own. -/
structure Copied (s : Mem) (r sz d : ℕ) (t : Mem) : Prop where
  same : ∀ vp, vp * PGSIZE < PGROUNDUP sz → ∃ f g fl, s.mapping r vp = some (f, fl) ∧
    t.mapping d vp = some (g, fl) ∧ t.page g = s.page f
  distinct : ∀ vp vq g fl gl, vp < USERPAGES → vq < USERPAGES → t.mapping d vp = some (g, fl) →
    t.mapping d vq = some (g, gl) → vp = vq
  apart : ∀ vp vq f g fl gl, vp < USERPAGES → vq < USERPAGES → s.mapping r vp = some (f, fl) →
    t.mapping d vq = some (g, gl) → f ≠ g
  only : ∀ vp, PGROUNDUP sz ≤ vp * PGSIZE → vp < USERPAGES → t.mapping d vp = none

/-- What `r` maps, and the contents of its user pages, are in `t` as in `s`. -/
structure Untouched (s : Mem) (r : ℕ) (t : Mem) : Prop where
  mapping : ∀ vp, vp < 2 ^ 20 → t.mapping r vp = s.mapping r vp
  page : ∀ vp f fl, vp < USERPAGES → s.mapping r vp = some (f, fl) → t.page f = s.page f

theorem Untouched.refl (s : Mem) (r : ℕ) : Untouched s r s :=
  ⟨fun _ _ => rfl, fun _ _ _ _ _ => rfl⟩

theorem Untouched.trans {u : Mem} {r : ℕ} (h : Untouched s r t) (k : Untouched t r u) :
    Untouched s r u where
  mapping vp hvp := (k.mapping vp hvp).trans (h.mapping vp hvp)
  page vp f fl hvp hm :=
    (k.page vp f fl hvp ((h.mapping vp (user_lt hvp)).trans hm)).trans (h.page vp f fl hvp hm)

theorem Inv.untouched (h : Inv L root held mem s) (ht : Inv L root held mem t) (hi : root i ≠ 0)
    (hpage : ∀ g, g ∉ s.freelist → t.page g = s.page g) : Untouched s (root i) t where
  mapping _ hvp := h.mapping_same ht (h.same_of_page hpage) hi hvp
  page _ f _ hvp hm := by
    obtain ⟨ho, hf⟩ := h.mapping_own hi hvp hm
    refine hpage f ?_
    rw [← ho] at hf ⊢
    exact h.not_free hf

variable [DecidableEq ι] [DecidableEq κ]

omit [DecidableEq κ] in
theorem Fresh.copied {d sz : ℕ} (h : Inv L root held 0 s) (hi : root i ≠ 0)
    (hsz : sz ≤ KERNBASE) (hall : ∀ vp, vp < pages sz → Present (s.pte (root i) vp))
    (hf : Fresh L root held 0 j s d t) (hc : SpaceCopy (root i) sz s d t) :
    Copied s (root i) sz d t := by
  have hroot : Function.update root j d j = d := Function.update_self ..
  have hd : Function.update root j d j ≠ 0 := by
    rw [hroot]
    exact hf.ne_zero h
  have hmapping : ∀ vp g fl, vp < 2 ^ 20 → (t.mapping d vp = some (g, fl) ↔
      Present (t.pte d vp) ∧ pageOf (t.pte d vp) = g ∧ PTE_FLAGS (t.pte d vp) = fl) := by
    intro vp g fl hvp
    have := @Inv.mapping_some _ _ _ _ _ _ _ _ hf.inv hd vp g fl hvp
    rwa [hroot] at this
  refine ⟨fun vp hlt => ?_, fun vp vq g fl gl hvp hvq hm hn => ?_,
    fun vp vq f g fl gl hvp hvq hm hn => ?_, fun vp hle hvp => ?_⟩
  · have hvp := (below_iff hsz).mp hlt
    have huser := user_lt (below_user hsz hvp)
    have hp := hall vp hvp
    obtain ⟨g, hg, hpte, hpage⟩ := hc.same vp hvp
    have hfl : PTE_FLAGS (t.pte d vp) = flagsOf s (root i) vp := by
      rw [hpte]
      refine flags_pte (flagsOf_lt _ _ _) ?_
      rw [present_iff, flagsOf, PTE_FLAGS, show PGSIZE = 2 ^ 12 from rfl, Nat.testBit_mod_two_pow]
      simpa using (present_iff _).mp hp
    refine ⟨pageOf (s.pte (root i) vp), g, flagsOf s (root i) vp,
      (h.mapping_some hi huser).mpr ⟨hp, rfl, rfl⟩,
      (hmapping vp _ _ huser).mpr ⟨hpte ▸ present_entry, ?_, hfl⟩, hpage⟩
    rw [hpte, pageOf_pte (flagsOf_lt _ _ _)]
  · rw [← hroot] at hm hn
    exact (hf.inv.mapping_inj hd hd hvp hvq hm hn).2
  · rintro rfl
    obtain ⟨hp, hpage, -⟩ := (h.mapping_some hi (user_lt hvp)).mp hm
    obtain ⟨hq, hpage', -⟩ := (hmapping vq _ _ (user_lt hvq)).mp hn
    have hown := hf.frame vq
    rw [Mem.frame, if_pos ⟨hvq, hq⟩, hpage', ← hpage] at hown
    exact (h.user_frame hi hvp hp).1 (hown (h.frame_ne i vp hi hvp hp))
  · have hge : pages sz ≤ vp := by
      by_contra hc
      exact absurd ((below_iff hsz).mpr (Nat.not_le.mp hc)) (Nat.not_lt.mpr hle)
    have hnone := hf.inv.mapping_none hd (user_lt hvp)
    rw [hroot, hc.none vp hge hvp] at hnone
    exact hnone.mpr not_present_zero

/-- `copyuvm` copies an address space, or leaves everything as it was. -/
theorem copyuvm_copies {s : Sys ι κ} (h : (pageSystem L ι κ).Reachable s) {i : ι}
    (hi : s.root i ≠ 0) {sz : ℕ} (hsz : sz ≤ KERNBASE)
    (hall : ∀ vp, vp * PGSIZE < PGROUNDUP sz → (s.mem.mapping (s.root i) vp).isSome) :
    ∃ r t, copyuvm L (s.root i) sz s.mem = .ok (r, t) ∧
      (∀ d, r = some d → Copied s.mem (s.root i) sz d t) ∧
      (r = none → Untouched s.mem (s.root i) t ∧ ∀ f, f ∈ t.freelist ↔ f ∈ s.mem.freelist) := by
  have hinv := (reachable_inv h).withSlot
  have hi' : withSlot s.root (some i) ≠ 0 := hi
  have hpres : ∀ vp, vp < pages sz → Present (s.mem.pte (s.root i) vp) := fun vp hvp =>
    (hinv.mapping_isSome hi' (user_lt (below_user hsz hvp))).mp (hall vp ((below_iff hsz).mpr hvp))
  obtain ⟨r, t, hrun, hout⟩ := (hinv.copyuvm (j := none) hi' rfl hsz
    (fun vp hvp hn => hn (hpres vp hvp))).returns
  refine ⟨r, t, hrun, ?_, ?_⟩
  · rintro d rfl
    have hc := hout.1.copied (i := some i) hinv hi' hsz hpres (hout.2 hpres)
    exact hc
  · rintro rfl
    have hu := hinv.untouched hout.1 hi' hout.2.2
    exact ⟨hu, hout.2.1⟩

theorem copyuvm_copies_page : ∃ s : Sys Unit Unit, s.root () ≠ 0 ∧
    (s.mem.mapping (s.root ()) 0).isSome ∧
    ∃ r t, copyuvm bootSymbols (s.root ()) 0x1000 s.mem = .ok (r, t) ∧
      (∀ d, r = some d → Copied s.mem (s.root ()) 0x1000 d t) ∧
      (r = none → Untouched s.mem (s.root ()) t ∧ ∀ f, f ∈ t.freelist ↔ f ∈ s.mem.freelist) := by
  obtain ⟨s, hs⟩ := exists_oneProcess (show 0x1000 ≤ 0x100000 by decide)
  have hinv : PageTables.Inv bootSymbols s.root s.held 0 s.mem := reachable_inv hs.reachable
  have hmap : ∀ vp, vp < pages 0x1000 → (s.mem.mapping (s.root ()) vp).isSome := fun vp hvp =>
    (hinv.mapping_isSome hs.root_ne (user_lt (below_user (by decide) hvp))).mpr (hs.user vp hvp).1
  exact ⟨s, hs.root_ne, hmap 0 (by decide), copyuvm_copies hs.reachable hs.root_ne (by decide)
    fun vp hvp => hmap vp ((below_iff (by decide)).mp hvp)⟩

/-! ## copyout -/

/-- What is asked of `copyout`: it returns 0 exactly when all the pages are there for the user,
and then the bytes are stored and nothing else is changed; otherwise it returns −1; and it writes
to no page that is not mapped. -/
def CopyoutMeets (s : Mem) (r va : ℕ) (buf : List UInt8) : Prop :=
  ∃ q t, copyout r va buf s = .ok (q, t) ∧
    (q = 0 ↔ ∀ k, k < buf.length → s.UserAt r (nth va k)) ∧
    (q = 0 → Stored r s va buf t) ∧ (q ≠ 0 → q = -1) ∧
    ∀ p, t.byte p ≠ s.byte p → ∃ vp fl, vp < USERPAGES ∧ s.mapping r vp = some (p.1, fl)

omit [DecidableEq ι] [DecidableEq κ] in
/-- What `copyout` stores is in pages that the directory maps. -/
theorem Inv.stored_mapped (h : Inv L root held mem s) (hi : root i ≠ 0) {va : ℕ}
    {bytes : List UInt8} (hst : Stored (root i) s va bytes t)
    (hu : ∀ k, k < bytes.length → s.UserAt (root i) (nth va k)) {p : ℕ × ℕ}
    (hp : t.byte p ≠ s.byte p) :
    ∃ vp fl, vp < USERPAGES ∧ s.mapping (root i) vp = some (p.1, fl) := by
  by_contra hc
  refine hp (hst.rest p fun k hk he => hc ?_)
  have hlt := nth_lt va k
  obtain ⟨hvp, hpres⟩ := h.userAt_page hi hlt (hu k hk)
  refine ⟨nth va k / PGSIZE, _, hvp, (h.mapping_some hi (user_lt hvp)).mpr ⟨hpres, ?_, rfl⟩⟩
  rw [← he, Mem.loc, h.lookup hi hlt, if_neg (present_pte_table hpres)]
  rfl

theorem copyout_meets_iff {s : Sys ι κ} (h : (pageSystem L ι κ).Reachable s) {i : ι}
    (hi : s.root i ≠ 0) {va : ℕ} (hva : va < 2 ^ 32) {buf : List UInt8}
    (hbuf : buf.length < 2 ^ 32) :
    CopyoutMeets s.mem (s.root i) va buf ↔
      ∀ k, k < buf.length → (∀ l, l < k → s.mem.UserAt (s.root i) (nth va l)) →
        s.mem.TableAt (s.root i) (nth va k) := by
  have hinv : PageTables.Inv L s.root s.held 0 s.mem := reachable_inv h
  have hout : CopyOutcome s.root i s.mem va buf (copyout (s.root i) va buf s.mem) :=
    hinv.copyoutLoop hi hva hbuf.le (Nat.lt_succ_self _)
  have htable : ∀ k, s.mem.UserAt (s.root i) (nth va k) → s.mem.TableAt (s.root i) (nth va k) :=
    fun k hu => hinv.userAt_table hi (nth_lt va k) hu
  rcases all_or_first (fun k => s.mem.UserAt (s.root i) (nth va k)) buf.length with
    hall | ⟨k, hk, hbefore, hnot⟩
  · refine iff_of_true ?_ (fun k hk _ => htable k (hall k hk))
    obtain ⟨t, hrun, -, hst⟩ := hout.all hall
    exact ⟨0, t, hrun, iff_of_true rfl hall, fun _ => hst, fun hc => absurd rfl hc,
      fun p hp => hinv.stored_mapped hi hst hall hp⟩
  · obtain ⟨hfail, hnull⟩ := hout.first k hk hbefore hnot
    constructor
    · rintro ⟨q, t, hrun, -⟩ l hl hbefore'
      rcases Nat.lt_trichotomy l k with hlt | rfl | hgt
      · exact htable l (hbefore l hlt)
      · by_contra htab
        rw [hnull htab] at hrun
        exact absurd hrun (by simp)
      · exact absurd (hbefore' k hgt) hnot
    · intro hall
      obtain ⟨t, hrun, -, hst⟩ := hfail (hall k hk hbefore)
      refine ⟨-1, t, hrun, iff_of_false (by decide) (fun hc => hnot (hc k hk)),
        fun hc => absurd hc (by decide), fun _ => rfl, fun p hp => ?_⟩
      refine hinv.stored_mapped hi hst (fun l hl => hbefore l ?_) hp
      rw [List.length_take] at hl
      omega

theorem copyout_meets_iff_two_bytes : ∃ s : Sys Unit Unit, s.root () ≠ 0 ∧
    (CopyoutMeets s.mem (s.root ()) 0xFFE [104, 0] ↔
      ∀ k, k < [104, 0].length → (∀ l, l < k → s.mem.UserAt (s.root ()) (nth 0xFFE l)) →
        s.mem.TableAt (s.root ()) (nth 0xFFE k)) := by
  obtain ⟨s, hs⟩ := exists_oneProcess (show 0x1000 ≤ 0x100000 by decide)
  exact ⟨s, hs.root_ne, copyout_meets_iff hs.reachable hs.root_ne (by decide) (by decide)⟩

/-- An argument string of `n` characters. -/
def longArg (n : ℕ) : List UInt8 := List.replicate n 97 ++ [0]

theorem longArg_length (n : ℕ) : (longArg n).length = n + 1 := by
  rw [longArg, List.length_append, List.length_replicate, List.length_singleton]

omit [DecidableEq ι] [DecidableEq κ] in
theorem Inv.copyout_null (h : Inv L root held mem s) (hi : root i ≠ 0) {va : ℕ}
    (hva : va < 2 ^ 32) {buf : List UInt8} (hbuf : 0 < buf.length)
    (hnone : ¬ s.TableAt (root i) va) : ¬ CopyoutMeets s (root i) va buf := by
  rintro ⟨q, u, hrun, -⟩
  rw [copyout, copyoutLoop_null hbuf (h.uva2ka_null hi hva hnone)] at hrun
  exact absurd hrun (by simp)

/-- `exec` of a program of one page, with a guard page and a stack page above it, pushes a string
of a hundred megabytes: `sp` has wrapped to where there is no page table. -/
theorem copyout_reads_null : ∃ (s : Sys Unit Unit) (t : Mem), OneProcess 0x3000 s ∧
    clearpteu (s.root ()) 0x1000 s.mem = .ok ((), t) ∧
    (pageSystem bootSymbols Unit Unit).Reachable { s with mem := t } ∧
    ¬ CopyoutMeets t (s.root ()) ((0x3000 + 2 ^ 32 - (0x6400000 + 1)) / 4 * 4)
      (longArg 0x6400000) := by
  obtain ⟨s, hs⟩ := exists_oneProcess (show 0x3000 ≤ 0x100000 by decide)
  have hinv : PageTables.Inv bootSymbols s.root s.held 0 s.mem := reachable_inv hs.reachable
  have hpres : Present (s.mem.pte (s.root ()) (0x1000 / PGSIZE)) := (hs.user 1 (by decide)).1
  have htab : s.mem.table (s.root ()) (0x1000 / PGSIZE / 1024) ≠ 0 := present_pte_table hpres
  set t := s.mem.write (s.mem.ptr (s.root ()) (0x1000 / PGSIZE))
    (s.mem.pte (s.root ()) (0x1000 / PGSIZE) &&& (2 ^ 32 - 1 - PTE_U))
  have hclear : clearpteu (s.root ()) 0x1000 s.mem = .ok ((), t) := clearpteu_run (by decide) htab
  have hstep : (pageSystem bootSymbols Unit Unit).step s (.clearpteu () 0x1000)
      { s with mem := t } := ⟨hs.root_ne, by decide, t, hclear, rfl⟩
  have hr := hs.reachable.step hstep
  have hinv' : PageTables.Inv bootSymbols s.root s.held 0 t := reachable_inv hr
  refine ⟨s, t, hs, hclear, hr, ?_⟩
  set va := (0x3000 + 2 ^ 32 - (0x6400000 + 1)) / 4 * 4 with hva
  have hlt : va < 2 ^ 32 := by decide
  have hnone : ¬ t.TableAt (s.root ()) va := by
    have hpage : va / PGSIZE / 1024 = 999 := by decide
    rw [hinv'.tableAt hs.root_ne hlt, hpage, hinv.table_write hs.root_ne hs.root_ne]
    exact fun hc => absurd (hs.table 999 hc) (by decide)
  refine hinv'.copyout_null hs.root_ne hlt ?_ hnone
  rw [longArg_length]
  exact Nat.succ_pos _

end Ostep.PageTables

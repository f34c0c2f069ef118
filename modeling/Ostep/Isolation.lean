import Ostep.UserSpaces

/-!
# What processes share

The processes share the free list and nothing else. Whatever the kernel does for the others, and
wherever they store, what a process maps and the contents of its pages stay as they are until a
call is about its own address space.
-/

namespace Ostep.PageTables
open ByteWords Hoare Ownership TransitionSystem

variable {ι κ : Type*} {L : Symbols}

/-- The call is about another address space. A store goes to a page that another process maps, or
to one that is held elsewhere; `copyuvm` may copy from `i`. -/
def Call.Spares (i : ι) (s : Sys ι κ) : Call ι κ → Prop
  | .allocuvm j _ _ | .deallocuvm j _ _ | .clearpteu j _ | .freevm j | .copyout j _ _ => j ≠ i
  | .setupkvm _ | .copyuvm _ _ _ | .kalloc _ | .kfree _ => True
  | .write f _ =>
    (∃ j vp, j ≠ i ∧ own s.root s.held 0 s.mem (.user j vp : Place ι κ) = f) ∨ ∃ k, s.held k = f

section Frame
variable {root root' : ι → ℕ} {held held' : κ → ℕ} {s t : Mem} {i j : ι}

/-- The directory and the tables of `i` are not free afterwards. -/
theorem Inv.pte_kept (ht : Inv L root' held' 0 t) (hi : root i ≠ 0) (hroot : root' i = root i)
    (hpage : ∀ g, g ∉ t.freelist → t.page g = s.page g) (vq : ℕ) :
    t.pte (root i) vq = s.pte (root i) vq := by
  have hi' : root' i ≠ 0 := hroot ▸ hi
  have hr : t.page (root i) = s.page (root i) := by
    refine hpage _ ?_
    rw [← hroot]
    exact ht.not_free (p := .root i) hi'
  refine pte_congr hr fun htab => hpage _ ?_
  have hown : own root' held' 0 t (.table i (vq / 1024) : Place ι κ) = s.table (root i) (vq / 1024) := by
    rw [own_table hi', hroot, table_congr hr]
  exact hown ▸ ht.not_free (p := .table i (vq / 1024)) (hown ▸ htab)

/-- A process sees the same where its entries are the same, and the pages that stay in use and
are no directory and no table. -/
theorem Inv.untouched_of (h : Inv L root held 0 s) (ht : Inv L root' held' 0 t) (hi : root i ≠ 0)
    (hroot : root' i = root i) (hpte : ∀ vq, t.pte (root i) vq = s.pte (root i) vq)
    (hpage : ∀ vp f fl, vp < USERPAGES → s.mapping (root i) vp = some (f, fl) →
      f ∉ s.freelist → f ∉ t.freelist → Plain root s f → t.page f = s.page f) :
    Untouched s (root i) t where
  mapping vp hvp := by
    have hm := ht.mapping (i := i) (hroot ▸ hi) hvp
    rw [hroot] at hm
    rw [hm, h.mapping hi hvp, hpte]
  page vp f fl hvp hm := by
    obtain ⟨hown, hf⟩ := h.mapping_own hi hvp hm
    have hown' : own root' held' 0 t (.user i vp : Place ι κ) = f := by
      rw [own_user (hroot ▸ hi), hroot, frame_congr (hpte vp), ← own_user hi]
      exact hown
    refine hpage vp f fl hvp hm ?_ ?_ (h.plain_of_place hown hf (by simp) (by simp))
    · exact hown ▸ h.not_free (p := .user i vp) (hown ▸ hf)
    · exact hown' ▸ ht.not_free (p := .user i vp) (hown' ▸ hf)

theorem Inv.untouched_in_use (h : Inv L root held 0 s) (ht : Inv L root' held' 0 t)
    (hi : root i ≠ 0) (hroot : root' i = root i)
    (hpage : ∀ g, g ∉ s.freelist → t.page g = s.page g) : Untouched s (root i) t :=
  h.untouched_of ht hi hroot (fun _ => (h.same_of_page hpage).pte hi)
    fun _ f _ _ _ hf _ _ => hpage f hf

theorem Inv.untouched_freed (h : Inv L root held 0 s) (ht : Inv L root' held' 0 t)
    (hi : root i ≠ 0) (hroot : root' i = root i)
    (hpage : ∀ g, g ∉ t.freelist → t.page g = s.page g) : Untouched s (root i) t :=
  h.untouched_of ht hi hroot (ht.pte_kept hi hroot hpage) fun _ f _ _ _ _ hf _ => hpage f hf

end Frame

/-! ## One call -/

section Step
variable {s t : Sys ι κ} {i j : ι}

theorem Sys.Inv.clearpteu_untouched {uva : ℕ} {m : Mem} (h : s.Inv L)
    (ht : PageTables.Inv L s.root s.held 0 m) (hi : s.root i ≠ 0) (hj : s.root j ≠ 0) (hji : j ≠ i)
    (huva : uva < 2 ^ 32) (hrun : clearpteu (s.root j) uva s.mem = .ok ((), m)) :
    Untouched s.mem (s.root i) m := by
  by_cases htab : s.mem.table (s.root j) (uva / PGSIZE / 1024) = 0
  · rw [clearpteu, run_bind_ok (PageTables.Inv.walk_missing h hj huva htab)] at hrun
    exact (run_throw.mp hrun).elim
  rw [clearpteu_run huva htab] at hrun
  obtain ⟨-, rfl⟩ := Prod.ext_iff.mp (Except.ok.inj hrun)
  refine PageTables.Inv.untouched_of h ht hi rfl (fun vq => ?_) fun _ f _ _ _ _ _ hplain => ?_
  · exact PageTables.Inv.pte_write_of_ne h hj htab hi fun hc => hji hc.1.symm
  · exact write_page_of_ne ((hplain j hj).2 _ htab)

theorem Sys.Inv.copyout_untouched {va : ℕ} {buf : List UInt8} {r : ℤ} {m : Mem} (h : s.Inv L)
    (ht : PageTables.Inv L s.root s.held 0 m) (hi : s.root i ≠ 0) (hj : s.root j ≠ 0) (hji : j ≠ i)
    (hva : va < 2 ^ 32) (hbuf : buf.length < 2 ^ 32)
    (hrun : copyout (s.root j) va buf s.mem = .ok (r, m)) : Untouched s.mem (s.root i) m := by
  have hout : CopyOutcome s.root j s.mem va buf (copyout (s.root j) va buf s.mem) :=
    PageTables.Inv.copyoutLoop h hj hva hbuf.le (Nat.lt_succ_self _)
  rw [hrun] at hout
  have hkeep : ∀ (q : ℤ) (bytes : List UInt8),
      (∀ k, k < bytes.length → s.mem.UserAt (s.root j) (nth va k)) →
      (∃ u, (Except.ok (r, m) : Except Fault _) = .ok (q, u) ∧ Same s.root s.mem u ∧
        Stored (s.root j) s.mem va bytes u) → Untouched s.mem (s.root i) m := by
    rintro q bytes hu ⟨u, he, hsame, hst⟩
    obtain ⟨-, rfl⟩ := Prod.ext_iff.mp (Except.ok.inj he)
    refine PageTables.Inv.untouched_of h ht hi rfl (fun _ => hsame.pte hi)
      fun vp f fl hvp hm _ _ _ => ?_
    funext x
    by_contra hx
    -- A byte that changed is in a page that `j` maps.
    obtain ⟨vq, gl, hvq, hn⟩ :=
      PageTables.Inv.stored_mapped h hj hst hu (p := (f, x)) hx
    exact hji (PageTables.Inv.mapping_inj h hi hj hvp hvq hm hn).1.symm
  rcases all_or_first (fun k => s.mem.UserAt (s.root j) (nth va k)) buf.length with
    hall | ⟨k, hk, hbefore, hnot⟩
  · exact hkeep 0 buf hall (hout.all hall)
  · obtain ⟨hfail, hnull⟩ := hout.first k hk hbefore hnot
    by_cases htab : s.mem.TableAt (s.root j) (nth va k)
    · refine hkeep (-1) _ (fun l hl => hbefore l ?_) (hfail htab)
      rw [List.length_take] at hl
      omega
    · exact absurd (hnull htab) (by simp)

theorem Sys.Inv.write_untouched {f : ℕ} {v : Bytes} (h : s.Inv L) (hi : s.root i ≠ 0)
    (hdata : s.Data f) (hf : (Call.write f v : Call ι κ).Spares i s) :
    Untouched s.mem (s.root i) (s.mem.setPage f v) := by
  have hf0 : f ≠ 0 := hdata.1
  obtain ⟨p, hp, hroot, htable, huser⟩ : ∃ p : Place ι κ, own s.root s.held 0 s.mem p = f ∧
      (∀ j, p ≠ .root j) ∧ (∀ j d, p ≠ .table j d) ∧ ∀ vp, p ≠ .user i vp := by
    rcases hf with ⟨j, vp, hji, hown⟩ | ⟨k, hown⟩
    · exact ⟨.user j vp, hown, by simp, by simp, by simp [hji]⟩
    · exact ⟨.other k, hown, by simp, by simp, by simp⟩
  have hplain := PageTables.Inv.plain_of_place h hp hf0 hroot htable
  have ht : PageTables.Inv L s.root s.held 0 (s.mem.setPage f v) := PageTables.Inv.setPage h hplain
  refine PageTables.Inv.untouched_of h ht hi rfl (fun _ => hplain.same.pte hi)
    fun vp g fl hvp hm _ _ _ => setPage_page_of_ne ?_
  rintro rfl
  obtain ⟨hown, -⟩ := PageTables.Inv.mapping_own h hi hvp hm
  exact huser vp (h.owns.inj p (.user i vp) (hp.trans hown.symm) (hp ▸ hf0))

variable [DecidableEq ι] [DecidableEq κ]

theorem Sys.Inv.allocuvm_untouched {oldsz newsz r : ℕ} {m : Mem} (h : s.Inv L)
    (ht : PageTables.Inv L s.root s.held 0 m) (hi : s.root i ≠ 0) (hj : s.root j ≠ 0) (hji : j ≠ i)
    (hrun : allocuvm L (s.root j) oldsz newsz s.mem = .ok (r, m)) :
    Untouched s.mem (s.root i) m := by
  by_cases hnew : KERNBASE ≤ newsz
  · rw [PageTables.allocuvm, if_pos hnew] at hrun
    obtain ⟨-, rfl⟩ := run_pure.mp hrun
    exact .refl _ _
  by_cases hold : newsz < oldsz
  · rw [PageTables.allocuvm, if_neg hnew, if_pos hold] at hrun
    obtain ⟨-, rfl⟩ := run_pure.mp hrun
    exact .refl _ _
  have hout := (PageTables.Inv.allocuvm (E := fun _ => True) h hj (Nat.not_lt.mp hold)
    (Nat.not_le.mp hnew) (fun _ _ _ _ => trivial)).ok rfl hrun
  rcases hout with ⟨-, -, hg, -⟩ | ⟨-, hg, -⟩
  · exact PageTables.Inv.untouched_of h ht hi rfl
      (fun vq => hg.other i vq hi fun hc => hji hc.1.symm)
      fun _ f _ _ _ hf _ hplain => hg.grows.page f hf (hplain j hj)
  · exact PageTables.Inv.untouched_of h ht hi rfl
      (fun vq => hg.other i vq hi fun hc => hji hc.1.symm)
      fun _ f _ _ _ hf hf' hplain => hg.page f hf hf' (hplain j hj)

theorem Sys.Inv.deallocuvm_untouched {oldsz newsz r : ℕ} {m : Mem} (h : s.Inv L)
    (ht : PageTables.Inv L s.root s.held 0 m) (hi : s.root i ≠ 0) (hj : s.root j ≠ 0) (hji : j ≠ i)
    (hold : oldsz ≤ KERNBASE) (hrun : deallocuvm L (s.root j) oldsz newsz s.mem = .ok (r, m)) :
    Untouched s.mem (s.root i) m := by
  by_cases hle : oldsz ≤ newsz
  · rw [PageTables.deallocuvm, if_pos hle] at hrun
    obtain ⟨-, rfl⟩ := run_pure.mp hrun
    exact .refl _ _
  obtain ⟨u, hu, -, hsh⟩ := PageTables.Inv.deallocuvm h hj hold (Nat.not_le.mp hle)
  rw [hu] at hrun
  obtain ⟨-, rfl⟩ := Prod.ext_iff.mp (Except.ok.inj hrun)
  exact PageTables.Inv.untouched_of h ht hi rfl
    (fun vq => hsh.other i vq hi fun hc => hji hc.1.symm)
    fun _ f _ _ _ _ hf hplain => hsh.page f hf (hplain j hj)

/-- What a call may do to the others. -/
theorem Sys.step_untouched {c : Call ι κ} (h : s.Inv L) (hi : s.root i ≠ 0)
    (hstep : s.step L c t) (hc : c.Spares i s) :
    t.root i = s.root i ∧ Untouched s.mem (s.root i) t.mem := by
  have ht : t.Inv L := Sys.step_inv h hstep
  cases c with
  | setupkvm j =>
    obtain ⟨hj, r, m, hrun, rfl⟩ := hstep
    have hij : i ≠ j := by
      rintro rfl
      exact hi hj
    have hroot : Function.update s.root j (r.getD 0) i = s.root i := Function.update_of_ne hij ..
    have hout := (PageTables.Inv.setupkvm (E := fun _ => True) h hj).ok rfl hrun
    refine ⟨hroot, PageTables.Inv.untouched_in_use h ht hi hroot ?_⟩
    cases r with
    | none => exact hout.page
    | some d => exact hout.page
  | allocuvm j oldsz newsz =>
    obtain ⟨hj, -, -, r, m, hrun, rfl⟩ := hstep
    exact ⟨rfl, h.allocuvm_untouched ht hi hj hc hrun⟩
  | deallocuvm j oldsz newsz =>
    obtain ⟨hj, hold, r, m, hrun, rfl⟩ := hstep
    exact ⟨rfl, h.deallocuvm_untouched ht hi hj hc hold hrun⟩
  | clearpteu j uva =>
    obtain ⟨hj, huva, m, hrun, rfl⟩ := hstep
    exact ⟨rfl, h.clearpteu_untouched ht hi hj hc huva hrun⟩
  | copyuvm k j sz =>
    obtain ⟨hk, hj, hsz, r, m, hrun, rfl⟩ := hstep
    have hij : i ≠ j := by
      rintro rfl
      exact hi hj
    have hroot : Function.update s.root j (r.getD 0) i = s.root i := Function.update_of_ne hij ..
    have hout := (PageTables.Inv.copyuvm (E := fun _ => True) h hk hj hsz
      (fun _ _ _ => trivial)).ok rfl hrun
    refine ⟨hroot, PageTables.Inv.untouched_in_use h ht hi hroot ?_⟩
    cases r with
    | none => exact hout.2.2
    | some d => exact hout.1.page
  | freevm j =>
    obtain ⟨hj, m, hrun, rfl⟩ := hstep
    have hroot : Function.update s.root j 0 i = s.root i := Function.update_of_ne (Ne.symm hc) ..
    obtain ⟨u, hu, -, -, -, hpage⟩ := PageTables.Inv.freevm h hj
    rw [hu] at hrun
    obtain ⟨-, rfl⟩ := Prod.ext_iff.mp (Except.ok.inj hrun)
    exact ⟨hroot, PageTables.Inv.untouched_freed h ht hi hroot hpage⟩
  | copyout j va buf =>
    obtain ⟨hj, hva, hbuf, r, m, hrun, rfl⟩ := hstep
    exact ⟨rfl, h.copyout_untouched ht hi hj hc hva hbuf hrun⟩
  | kalloc k =>
    obtain ⟨-, f, m, hrun, rfl⟩ := hstep
    refine ⟨rfl, PageTables.Inv.untouched_in_use h ht hi rfl fun g _ => ?_⟩
    cases hs : s.mem.freelist with
    | nil =>
      rw [kalloc_nil hs] at hrun
      obtain ⟨-, rfl⟩ := Prod.ext_iff.mp (Except.ok.inj hrun)
      rfl
    | cons b rest =>
      rw [kalloc_cons hs] at hrun
      obtain ⟨-, rfl⟩ := Prod.ext_iff.mp (Except.ok.inj hrun)
      rfl
  | kfree k =>
    obtain ⟨hk, m, hrun, rfl⟩ := hstep
    have hrange : L.first ≤ s.held k ∧ s.held k < NPAGES := h.owns.range (.other k) hk
    rw [kfree_run hrange.1 hrange.2] at hrun
    obtain ⟨-, rfl⟩ := Prod.ext_iff.mp (Except.ok.inj hrun)
    refine ⟨rfl, PageTables.Inv.untouched_freed h ht hi rfl fun g hg => Function.update_of_ne ?_ ..⟩
    rintro rfl
    exact hg List.mem_cons_self
  | write f v =>
    obtain ⟨hdata, rfl⟩ := hstep
    exact ⟨rfl, h.write_untouched hi hdata hc⟩

end Step

/-! ## Runs -/

variable [DecidableEq ι] [DecidableEq κ]

theorem OneProcess.kstack_range {sz : ℕ} {s : Sys Unit Unit} (hs : OneProcess sz s) :
    bootSymbols.first ≤ s.held () ∧ s.held () < NPAGES := by
  have hinv : s.Inv bootSymbols := reachable_inv hs.reachable
  exact hinv.owns.range (.other ()) hs.kstack_ne

/-- Whatever calls are made, in whatever order, and whether memory runs out or not: a page behind
the kernel is on the free list, once, or it is one directory, one table, one page of one process
or held once elsewhere. -/
theorem pages_accounted {s : Sys ι κ} (h : (pageSystem L ι κ).Reachable s) {f : ℕ}
    (hlo : L.first ≤ f) (hhi : f < NPAGES) :
    (s.mem.freelist.count f = 1 ∧ ∀ p : Place ι κ, own s.root s.held 0 s.mem p ≠ f) ∨
      (f ∉ s.mem.freelist ∧ ∃! p : Place ι κ, own s.root s.held 0 s.mem p = f) := by
  have hs : PageTables.Inv L s.root s.held 0 s.mem := reachable_inv h
  by_cases hf : f ∈ s.mem.freelist
  · exact .inl ⟨List.count_eq_one_of_mem hs.nodup hf, (hs.mem_freelist.mp hf).2⟩
  · right
    have hf0 : f ≠ 0 := by
      have := L.first_pos
      omega
    obtain ⟨p, hp⟩ := (hs.owns.used_iff f hlo hhi).mp (used_eq_true.mpr hf)
    exact ⟨hf, p, hp, fun q hq => hs.owns.inj q p (hq.trans hp.symm) (hq ▸ hf0)⟩

/-- The page of the kernel stack. -/
theorem pages_accounted_kstack : ∃ s : Sys Unit Unit,
    (s.mem.freelist.count (s.held ()) = 1 ∧
      ∀ p : Place Unit Unit, own s.root s.held 0 s.mem p ≠ s.held ()) ∨
    (s.held () ∉ s.mem.freelist ∧
      ∃! p : Place Unit Unit, own s.root s.held 0 s.mem p = s.held ()) := by
  obtain ⟨s, hs⟩ := exists_oneProcess (show 0x1000 ≤ 0x100000 by decide)
  have hrange := hs.kstack_range
  exact ⟨s, pages_accounted hs.reachable hrange.1 hrange.2⟩

/-- Whatever the kernel and the other processes do, and in whatever order, a process keeps its
pages and what is in them. -/
theorem isolated {s t : Sys ι κ} {i : ι} {cs : List (Call ι κ)}
    (h : (pageSystem L ι κ).Reachable s) (hi : s.root i ≠ 0)
    (hrun : ((pageSystem L ι κ).restrict fun s c _ => c.Spares i s).Run s cs t) :
    t.root i = s.root i ∧ Untouched s.mem (s.root i) t.mem := by
  have hs : s.Inv L := reachable_inv h
  have hall : t.Inv L ∧ t.root i = s.root i ∧ Untouched s.mem (s.root i) t.mem := by
    induction hrun with
    | nil => exact ⟨hs, rfl, .refl _ _⟩
    | snoc _ hstep ih =>
      obtain ⟨hu, hroot, hunt⟩ := ih
      obtain ⟨hroot', hunt'⟩ := Sys.step_untouched hu (hroot ▸ hi) hstep.1 hstep.2
      rw [hroot] at hroot' hunt'
      exact ⟨Sys.step_inv hu hstep.1, hroot', hunt.trans hunt'⟩
  exact hall.2

/-- The page of the kernel stack is written and given back. -/
theorem isolated_kstack : ∃ s t : Sys Unit Unit, s.root () ≠ 0 ∧ t ≠ s ∧
    t.root () = s.root () ∧ Untouched s.mem (s.root ()) t.mem := by
  obtain ⟨s, hs⟩ := exists_oneProcess (show 0x1000 ≤ 0x100000 by decide)
  have hrange := hs.kstack_range
  set u : Sys Unit Unit := { s with mem := s.mem.setPage (s.held ()) (fun _ => 7) }
  set t : Sys Unit Unit := ⟨u.mem.free (u.held ()), u.root, Function.update u.held () 0⟩
  have hwrite : Sys.step bootSymbols s (.write (s.held ()) fun _ => 7) u :=
    ⟨⟨hs.kstack_ne, .inr ⟨(), rfl⟩⟩, rfl⟩
  have hfree : Sys.step bootSymbols u (.kfree ()) t :=
    ⟨hs.kstack_ne, _, kfree_run hrange.1 hrange.2, rfl⟩
  have hrun : ((pageSystem bootSymbols Unit Unit).restrict fun s c _ => c.Spares () s).Run s
      [.write (s.held ()) fun _ => 7, .kfree ()] t :=
    .cons ⟨hwrite, .inr ⟨(), rfl⟩⟩ (.single ⟨hfree, trivial⟩)
  have hfreed : t.held () = 0 := Function.update_self () 0 u.held
  refine ⟨s, t, hs.root_ne, fun he => hs.kstack_ne ?_, isolated hs.reachable hs.root_ne hrun⟩
  rw [← hfreed, he]

end Ostep.PageTables

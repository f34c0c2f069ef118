import Ostep.InodeRefs

/-!
# Path lookup

What the operations, `ilock`, `iput` and `namex` do to the invariant. A lookup takes and puts
references and leaves the tree as it is: what it puts is never the last reference to an inode
without links.
-/

namespace Ostep.FsTree
open OpTree Counting

section Operations
variable {mode : Mode} {ninodes : ℕ} {q : Proc} {α : Type} {s : St} {i : ℕ}

abbrev Wp (mode : Mode) (ninodes : ℕ) (q : Proc) (p : Fs α) (Q : α → St → Prop) (s : St) : Prop :=
  wp (act ninodes q) (Cond mode) (Fine mode) p Q s

theorem wp_panic {p : Panic} {Q : α → St → Prop} (hp : p ≠ .noType) :
    Wp mode ninodes q (panic p) Q s := by
  intro _ _ h
  cases h
  exact hp rfl

theorem wp_checkRef {Q : Unit → St → Prop} (hQ : 0 < (s.icache i).ref → Q () s) :
    Wp mode ninodes q (perform (.checkRef i)) Q s := by
  intro _
  simp only [act]
  split_ifs with h
  · exact fun _ => nofun
  · exact hQ (by omega)

theorem wp_checkHeld {Q : Unit → St → Prop} (hQ : Q () s) :
    Wp mode ninodes q (perform (.checkHeld i)) Q s := by
  intro _
  simp only [act]
  split_ifs
  · exact hQ
  · exact fun _ => nofun

theorem wp_acquiresleep {Q : Unit → St → Prop} (hQ : Q () (s.setLock i (some q))) :
    Wp mode ninodes q (perform (.acquiresleep i)) Q s := by
  intro _
  simp only [act]
  split_ifs
  · exact hQ
  · exact fun _ => nofun

theorem wp_load {Q : Unit → St → Prop} (hi : mode = .look → (s.inode i).type ≠ 0)
    (hvalid : (s.icache i).valid = true → Q () s)
    (hload : (s.inode i).type ≠ 0 → Q () (s.setSlot i (fun c => { c with valid := true }))) :
    Wp mode ninodes q (perform (.load i)) Q s := by
  intro _
  simp only [act]
  split_ifs with hv htype
  · exact hvalid hv
  · exact fun hm => absurd htype (hi hm)
  · exact hload htype

theorem wp_cwd {Q : ℕ → St → Prop} (hQ : ∀ i, s.cwd q = some i → Q i s) :
    Wp mode ninodes q (perform .cwd) Q s := by
  intro _
  simp only [act]
  cases h : s.cwd q with
  | none => exact fun _ => nofun
  | some i => exact hQ i h

theorem wp_ifreeUnlinked {Q : Unit → St → Prop}
    (hkeep : ¬ ((s.icache i).valid = true ∧ (s.inode i).nlink = 0 ∧ (s.icache i).ref = 1) → Q () s)
    (hfree : (s.icache i).valid = true ∧ (s.inode i).nlink = 0 ∧ (s.icache i).ref = 1 →
      Cond mode (.ifree i) s → Q () ((s.setInode i (fun d => { d with type := 0, ents := [] })).setSlot i
        (fun c => { c with valid := false }))) :
    Wp mode ninodes q (ifreeUnlinked i) Q s := by
  refine wp_call_bind.mpr fun _ => wp_ite (fun hu => ?_) (fun hu => ?_)
  · obtain ⟨hv, hn⟩ : (s.icache i).valid = true ∧ (s.inode i).nlink = 0 := by simpa using hu
    refine wp_call_bind.mpr fun _ => wp_ite (fun hr => ?_) (fun hr => ?_)
    · exact fun hC => hfree ⟨hv, hn, hr⟩ hC
    · exact hkeep fun h => hr h.2.2
  · refine hkeep fun h => hu ?_
    simp [h.1, h.2.1]

end Operations

section Locks
variable {mode : Mode} {ninodes : ℕ} {q : Proc} {W : Proc → Option ℕ} {K T L : List ℕ} {s : St}
  {i : ℕ} {Q : Unit → St → Prop}

theorem wp_ilock (h : Inv mode ninodes W K T L s) (hi : mode = .look → (s.inode i).type ≠ 0)
    (hQ : ∀ t, Inv mode ninodes W K T L t → Same s t →
      (∀ j, (s.icache j).valid = true → (t.icache j).valid = true) → (t.icache i).valid = true →
      (s.inode i).type ≠ 0 → Q () t) :
    Wp mode ninodes q (ilock i) Q s := by
  refine wp_bind.mpr (wp_checkRef fun href => ?_)
  refine wp_bind.mpr (wp_acquiresleep (wp_load hi (fun hv => ?_) (fun htype => ?_)))
  · exact hQ _ (h.congr rfl rfl rfl) ⟨rfl, rfl, rfl⟩ (fun _ => id) hv (h.refs.valid i href hv)
  · refine hQ _ ((h.load htype).congr rfl rfl rfl) ⟨rfl, rfl, rfl⟩ (fun j hj => ?_) ?_ htype
    · rcases eq_or_ne j i with rfl | hji
      · simp [St.setSlot]
      · simp only [St.setSlot, Function.update_of_ne hji]
        exact hj
    · simp [St.setSlot]

theorem wp_iunlock (h : Inv mode ninodes W K T L s)
    (hQ : ∀ t, Inv mode ninodes W K T L t → Same s t → t.icache = s.icache → Q () t) :
    Wp mode ninodes q (iunlock i) Q s :=
  wp_bind.mpr (wp_checkHeld fun _ => hQ _ (h.congr rfl rfl rfl) ⟨rfl, rfl, rfl⟩ rfl)

/-- A reference in `T` is put. -/
theorem wp_iput (h : Inv mode ninodes W K (i :: T) L s)
    (hQ : ∀ t, Inv mode ninodes W K T L t → Same s t → Q () t) :
    Wp mode ninodes q (iput i) Q s := by
  refine wp_bind.mpr (wp_acquiresleep (wp_bind.mpr (wp_ifreeUnlinked (fun _ => ?_) ?_)))
  · exact wp_bind.mpr fun _ _ => hQ _ (h.drop.congr rfl rfl rfl) ⟨rfl, rfl, rfl⟩
  · rintro ⟨hv, hn, href⟩
    change (s.icache i).ref = 1 at href
    have hr := h.refs.ref i
    have hz := (h.refs.zombie i (h.refs.valid i (by omega) hv) hn).2
    rw [List.count_cons_self, href] at hr
    omega

theorem wp_iunlockput (h : Inv mode ninodes W K (i :: T) L s)
    (hQ : ∀ t, Inv mode ninodes W K T L t → Same s t → Q () t) :
    Wp mode ninodes q (iunlockput i) Q s :=
  wp_bind.mpr (wp_iunlock h fun _ ht hst _ =>
    wp_iput ht fun u hu htu => hQ u hu (hst.trans htu))

/-- A reference in `K` is put, perhaps the last. -/
theorem wp_iputKept (h : Inv mode ninodes W (i :: K) T L s) (hT : i ∉ T)
    (hW : mode = .look → ∀ d, Lookup s.inode W d → Lookup s.inode s.cwd d)
    (hQ : ∀ t, Inv mode ninodes W K T L t → t.cwd = s.cwd → t.file = s.file →
      (∀ j, j ≠ i → t.inode j = s.inode j ∧ t.icache j = s.icache j) → Q () t) :
    Wp mode ninodes q (iput i) Q s := by
  refine wp_bind.mpr (wp_acquiresleep (wp_bind.mpr (wp_ifreeUnlinked (fun hlast => ?_) ?_)))
  · refine wp_bind.mpr fun _ _ => hQ _ ((h.dropKept hT hlast).congr rfl rfl rfl) rfl rfl ?_
    intro j hj
    exact ⟨rfl, Function.update_of_ne hj ..⟩
  · intro hlast hC
    refine wp_bind.mpr fun _ _ => hQ _ (h.free hT hlast ?_ rfl ?_ rfl) rfl rfl ?_
    · rintro rfl d hd
      exact hC d (hW rfl d hd)
    · funext j
      rcases eq_or_ne j i with rfl | hj
      · have href : (s.icache j).ref = 1 := hlast.2.2
        simp [St.setSlot, St.setInode, St.setLock, href]
      · simp [St.setSlot, St.setInode, St.setLock, hj]
    · intro j hj
      simp [St.setSlot, St.setInode, St.setLock, hj]

theorem wp_iunlockputKept (h : Inv mode ninodes W (i :: K) T L s) (hT : i ∉ T)
    (hW : mode = .look → ∀ d, Lookup s.inode W d → Lookup s.inode s.cwd d)
    (hQ : ∀ t, Inv mode ninodes W K T L t → t.cwd = s.cwd → t.file = s.file →
      (∀ j, j ≠ i → t.inode j = s.inode j ∧ t.icache j = s.icache j) → Q () t) :
    Wp mode ninodes q (iunlockput i) Q s := by
  refine wp_bind.mpr (wp_iunlock h fun t ht hst hc => ?_)
  refine wp_iputKept ht hT (by rw [hst.inode, hst.cwd]; exact hW) fun u hu hcwd hfile hother => ?_
  refine hQ u hu (hcwd.trans hst.cwd) (hfile.trans hst.file) fun j hj => ?_
  rw [← hst.inode, ← hc]
  exact hother j hj

end Locks

section Lookups
variable {mode : Mode} {ninodes : ℕ} {q : Proc} {W : Proc → Option ℕ} {K T L : List ℕ} {s : St}

theorem wp_dirlookup {dp : ℕ} {name : Name} {Q : Option (ℕ × ℕ) → St → Prop}
    (hnone : (s.inode dp).type = T_DIR → (s.inode dp).findEnt name = none → Q none s)
    (hsome : ∀ slot, (s.inode dp).type = T_DIR → (s.inode dp).findEnt name = some slot →
      Q (some ((s.inode dp).entInum slot, slot))
        (s.setSlot ((s.inode dp).entInum slot) Slot.get)) :
    Wp mode ninodes q (dirlookup dp name) Q s := by
  refine wp_call_bind.mpr fun _ => ?_
  refine wp_ite (fun _ => wp_panic (by decide)) fun htype => ?_
  rw [not_not] at htype
  cases hfind : (s.inode dp).findEnt name with
  | none => exact hnone htype hfind
  | some slot => exact wp_call_bind.mpr fun _ => hsome slot htype hfind

/-- What a lookup in a directory finds is again in reach of lookups. -/
theorem Tree.lookup_found {tab : Table} {dp slot : ℕ} {name : Name}
    (h : Tree mode ninodes L tab W) (hdp : Lookup tab W dp) (hdir : (tab dp).type = T_DIR)
    (hfind : (tab dp).findEnt name = some slot) : Lookup tab W ((tab dp).entInum slot) := by
  rcases (h.shaped dp hdir).found hfind with he | he | he
  · rwa [he]
  · rw [he]
    exact .parent hdp hdir
  · exact .child hdp he

theorem wp_namexEnd {parent : Bool} {ip : ℕ} {name : Name} {Q : Option (ℕ × Name) → St → Prop}
    (h : Inv mode ninodes W K (ip :: T) L s)
    (hnone : ∀ t, Inv mode ninodes W K T L t → Same s t → Q none t)
    (hsome : parent = false → Q (some (ip, name)) s) :
    Wp mode ninodes q (namexEnd parent ip name) Q s := by
  refine wp_ite (fun _ => ?_) (fun hp => hsome (by simpa using hp))
  exact wp_bind.mpr (wp_iput h hnone)

theorem wp_namexLoop {parent : Bool} {fuel ip : ℕ} {path : List Char} {name : Name}
    {Q : Option (ℕ × Name) → St → Prop} (h : Inv mode ninodes W K (ip :: T) L s)
    (hlook : mode = .look → Lookup s.inode W ip)
    (hnone : ∀ t, Inv mode ninodes W K T L t → Same s t → Q none t)
    (hsome : ∀ t ip name, Inv mode ninodes W K (ip :: T) L t → Same s t →
      (mode = .look → Lookup s.inode W ip) → (parent = true → (s.inode ip).type = T_DIR) →
      Q (some (ip, name)) t) :
    Wp mode ninodes q (namexLoop parent fuel path ip name) Q s := by
  induction fuel generalizing path ip name s with
  | zero =>
    exact wp_namexEnd h hnone fun hp => hsome s ip name h (Same.refl s) hlook (by simp [hp])
  | succ fuel ih =>
    unfold namexLoop
    cases skipelem path with
    | none =>
      exact wp_namexEnd h hnone fun hp => hsome s ip name h (Same.refl s) hlook (by simp [hp])
    | some er =>
      have halloc : mode = .look → (s.inode ip).type ≠ 0 := by
        rintro rfl
        exact h.tree.lookup_alloc (hlook rfl)
      refine wp_bind.mpr (wp_ilock h halloc fun t ht hst _ _ _ => wp_call_bind.mpr fun _ => ?_)
      have hput : Wp mode ninodes q (do iunlockput ip; pure none) Q t :=
        wp_bind.mpr (wp_iunlockput ht fun u hu htu => hnone u hu (hst.trans htu))
      refine wp_ite (fun _ => hput) fun htype => wp_ite (fun hlast => ?_) fun _ => ?_
      · rw [not_not, hst.inode] at htype
        refine wp_bind.mpr (wp_iunlock ht fun u hu htu _ => ?_)
        exact hsome u ip er.1 hu (hst.trans htu) hlook fun _ => htype
      · refine wp_bind.mpr (wp_dirlookup (fun _ _ => hput) fun slot hdir hfind => ?_)
        have hget := (ht.get ((t.inode ip).entInum slot)).perm (List.Perm.swap ..)
        refine wp_bind.mpr (wp_iunlockput hget fun u hu htu => ?_)
        have hsu : Same s u := hst.trans ⟨htu.inode, htu.cwd, htu.file⟩
        refine ih hu (fun hm => ?_) (fun v hv huv => hnone v hv (hsu.trans huv))
          fun v ip name hv huv hl hd => ?_
        · have hl := ht.tree.lookup_found (by rw [hst.inode]; exact hlook hm) hdir hfind
          rw [show u.inode = t.inode from htu.inode]
          exact hl
        · rw [hsu.inode] at hl hd
          exact hsome v ip name hv (hsu.trans huv) hl hd

/-- `namex` of the process whose working directory `W` holds. -/
theorem wp_namex {parent : Bool} {path : List Char} {Q : Option (ℕ × Name) → St → Prop}
    (h : Inv mode ninodes s.cwd K T L s)
    (hnone : ∀ t, Inv mode ninodes t.cwd K T L t → Same s t → Q none t)
    (hsome : ∀ t ip name, Inv mode ninodes t.cwd K (ip :: T) L t → Same s t →
      (mode = .look → Lookup t.inode t.cwd ip) → (parent = true → (t.inode ip).type = T_DIR) →
      Q (some (ip, name)) t) :
    Wp mode ninodes q (namex path parent) Q s := by
  have hloop : ∀ t ip, Inv mode ninodes s.cwd K (ip :: T) L t → Same s t →
      Lookup s.inode s.cwd ip → Wp mode ninodes q (namexLoop parent path.length path ip []) Q t := by
    intro t ip ht hst hl
    refine wp_namexLoop ht (fun _ => by rwa [hst.inode]) (fun u hu htu => ?_)
      fun u ip name hu htu hl hd => ?_
    · have hsu := hst.trans htu
      exact hnone u (hsu.cwd ▸ hu) hsu
    · have hsu := hst.trans htu
      rw [← htu.inode, ← hsu.cwd] at hl
      exact hsome u ip name (hsu.cwd ▸ hu) hsu hl (by rwa [htu.inode])
  refine wp_bind.mpr (wp_ite (fun _ => ?_) (fun _ => ?_))
  · refine wp_call_bind.mpr fun _ => hloop _ _ (h.get ROOTINO) ⟨rfl, rfl, rfl⟩ .root
  · refine wp_bind.mpr (wp_cwd fun i hi => wp_call_bind.mpr fun _ => ?_)
    have hget := h.get i
    rw [h.setSlot_get hi] at hget
    exact hloop _ _ hget ⟨rfl, rfl, rfl⟩ (.cwd hi)

end Lookups

end Ostep.FsTree

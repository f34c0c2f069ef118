import Ostep.ExecMemory
import Ostep.ReferenceCounts

/-!
# exec gives back what it took

At each point of `exec` there is a directory under construction or none, a locked file or none,
and a transaction or none, and the label `bad` gives up what there is.
-/

namespace Ostep.Exec
open ByteWords Hoare Ownership PageTables TransitionSystem
open InodeCache (Slot Good ROOTDEV)

variable {ι κ : Type*} [DecidableEq ι] [DecidableEq κ] {E : Env} {root : ι → ℕ} {held : κ → ℕ}
  {i : ι} {B : Slot → ℕ} {K : List Slot} {w₀ w : World} {r sz : ℕ} {ip : Slot}

/-- The faults of the inode cache and of memory, not those of `loaduvm`. -/
def Elsewhere : Fault → Prop
  | .fs _ | .mem _ => True
  | .notAligned | .addressShouldExist | .spin => False

theorem onMem_triple {α : Type} {m : Kernel α} {Q : α → World → Prop}
    (h : Triple (fun _ => True) (· = w.mem) m (fun a t => Q a { w with mem := t })) :
    Triple Elsewhere (· = w) (onMem m) Q := by
  intro v hv
  obtain rfl : v = w := hv
  have hm := h v.mem rfl
  rw [onMem]
  cases hrun : m v.mem with
  | error e => trivial
  | ok p =>
    rw [hrun] at hm
    exact hm

theorem onMem_ok {α : Type} {m : Kernel α} {a : α} {t : Mem} (h : m w.mem = .ok (a, t)) :
    onMem m w = .ok (a, { w with mem := t }) := by
  rw [onMem, h]

theorem onFs_triple {α : Type} {m : InodeCache.Ic α} {Q : α → World → Prop}
    (h : ∀ a t, m w.fs = .ok (a, t) → Q a { w with fs := t }) :
    Triple Elsewhere (· = w) (onFs m) Q := by
  intro v hv
  obtain rfl : v = w := hv
  rw [onFs]
  cases hrun : m v.fs with
  | error e => trivial
  | ok p => exact h p.1 p.2 hrun

/-- Memory as in `s`, but for the contents and the order of what is free. -/
structure Restored (L : Symbols) (root : ι → ℕ) (held : κ → ℕ) (s t : Mem) : Prop where
  inv : Inv L root held 0 t
  free : ∀ f, f ∈ t.freelist ↔ f ∈ s.freelist
  page : ∀ f, f ∉ s.freelist → t.page f = s.page f

/-- The references are those of `B` and `K`, and there were as many calls of `end_op` as of
`begin_op`. -/
structure Closed (E : Env) (B : Slot → ℕ) (K : List Slot) (w₀ w : World) : Prop where
  good : Good E.sb B K w.fs
  ops : w.begun + w₀.ended = w.ended + w₀.begun

structure Undone (E : Env) (root : ι → ℕ) (held : κ → ℕ) (B : Slot → ℕ) (K : List Slot)
    (w₀ w : World) : Prop extends Closed E B K w₀ w where
  mem : Restored E.L root held w₀.mem w.mem

/-- The transaction is on and the file is locked. -/
structure Opened (E : Env) (B : Slot → ℕ) (K : List Slot) (w₀ : World) (ip : Slot) (w : World) :
    Prop where
  good : Good E.sb B (ip :: K) w.fs
  valid : (w.fs.icache ip).valid = true
  ops : w.begun + w₀.ended = w.ended + w₀.begun + 1

theorem Opened.setMem (h : Opened E B K w₀ ip w) (t : Mem) :
    Opened E B K w₀ ip { w with mem := t } :=
  ⟨h.good, h.valid, h.ops⟩

theorem Opened.read (h : Opened E B K w₀ ip w) (off n : ℕ) :
    Triple Elsewhere (· = w) (onFs (InodeCache.fileRead E.sb E.driver ip off n))
      (fun _ v => v = w) := by
  refine onFs_triple fun a t hr => ?_
  obtain rfl := InodeCache.fileRead_same h.good h.good.held h.valid hr
  rfl

/-! ## loaduvm -/

/-- While the program is loaded. -/
structure Loading (E : Env) (root : ι → ℕ) (held : κ → ℕ) (i : ι) (B : Slot → ℕ) (K : List Slot)
    (w₀ : World) (ip : Slot) (r sz : ℕ) (w : World) : Prop extends Opened E B K w₀ ip w where
  image : Loaded E.L root held i w₀.mem r sz w.mem

omit [DecidableEq κ] in
theorem Loading.fill (hs : Inv E.L root held 0 w₀.mem)
    (h : Loading E root held i B K w₀ ip r sz w) {vp : ℕ} (hvp : vp < pages sz) (b : List UInt8) :
    Triple Elsewhere (· = w) (onMem (fill (pageOf (w.mem.pte r vp)) b))
      (fun _ v => Loading E root held i B K w₀ ip r sz v) :=
  onMem_triple (.of_run rfl ⟨h.toOpened.setMem _, h.image.setUser hs hvp _⟩)

omit [DecidableEq κ] in
/-- The entry that `loaduvm` takes the page from is there. -/
theorem Loading.walk (h : Loading E root held i B K w₀ ip r sz w) {va : ℕ} (hva : va < sz) :
    walkpgdir r va false w.mem = .ok (some (w.mem.ptr r (va / PGSIZE)), w.mem) ∧
      load (w.mem.ptr r (va / PGSIZE)) w.mem = .ok (w.mem.pte r (va / PGSIZE), w.mem) := by
  have hroot : Function.update root i r i = r := Function.update_self ..
  have hlt : va < 2 ^ 32 := Nat.lt_trans (Nat.lt_trans hva h.image.lt) (by decide)
  have hpage : va / PGSIZE < pages sz := by
    rw [lt_pages]
    exact Nat.lt_of_le_of_lt (Nat.div_mul_le_self va PGSIZE) hva
  have htab := present_pte_table (h.image.user _ hpage).1
  have hwalk := @walk_found _ (Function.update root i r) w.mem i va false hlt (by rwa [hroot])
  rw [hroot] at hwalk
  refine ⟨hwalk, ?_⟩
  rw [pte_eq_read htab]
  rfl

omit [DecidableEq κ] in
theorem Loading.loadLoop (hs : Inv E.L root held 0 w₀.mem)
    (h : Loading E root held i B K w₀ ip r sz w) {fuel addr offset filesz j : ℕ}
    (hend : addr + filesz ≤ sz) (hfuel : USERPAGES < j + fuel) (hj : j * 4096 < filesz + 4096) :
    Triple Elsewhere (· = w) (loadLoop E r addr ip offset filesz fuel (j * PGSIZE))
      (fun _ v => Loading E root held i B K w₀ ip r sz v) := by
  have hlt : sz < 2147483648 := h.image.lt
  have hpages : USERPAGES = 524288 := rfl
  induction fuel generalizing w j with
  | zero => omega
  | succ fuel ih =>
    refine .ite (fun hlt' => ?_) fun _ => .of_run rfl h
    have hj₁ : (j + 1) * 4096 < filesz + 4096 := by
      rw [Nat.succ_mul]
      exact Nat.add_lt_add_right hlt' 4096
    have hfuel₁ : USERPAGES < j + 1 + fuel := by
      rw [Nat.add_right_comm]
      exact hfuel
    have hva : addr + j * PGSIZE < sz := (Nat.add_lt_add_left hlt' addr).trans_le hend
    have hmod : (addr + j * PGSIZE) % 2 ^ 32 = addr + j * PGSIZE := Nat.mod_eq_of_lt
      (hva.trans (hlt.trans (by decide)))
    have hnext : (j * PGSIZE + PGSIZE) % 2 ^ 32 = (j + 1) * PGSIZE := by
      change (j * 4096 + 4096) % 4294967296 = (j + 1) * 4096
      omega
    have hpage : (addr + j * PGSIZE) / PGSIZE < pages sz := by
      rw [lt_pages]
      exact Nat.lt_of_le_of_lt (Nat.div_mul_le_self _ PGSIZE) hva
    obtain ⟨hwalk, hload⟩ := h.walk hva
    rw [hmod, hnext]
    refine .run_bind (onMem_ok hwalk) (.run_bind (onMem_ok hload) ?_)
    refine .bind (h.read _ _) fun o => .of_eq fun x hx => ?_
    obtain rfl := hx
    cases o with
    | none => exact .of_run rfl h
    | some b =>
      refine .bind (h.fill hs hpage b) fun _ => .of_eq fun y hy => ?_
      refine .ite (fun _ => .of_run rfl hy) fun _ => ih hy hfuel₁ hj₁

omit [DecidableEq κ] in
theorem Loading.loaduvm (hs : Inv E.L root held 0 w₀.mem)
    (h : Loading E root held i B K w₀ ip r sz w) {addr offset filesz : ℕ}
    (hal : addr % PGSIZE = 0) (hend : addr + filesz ≤ sz) :
    Triple Elsewhere (· = w) (loaduvm E r addr ip offset filesz)
      (fun _ v => Loading E root held i B K w₀ ip r sz v) := by
  rw [Exec.loaduvm, if_neg (fun hc => hc hal)]
  have hfuel : USERPAGES < 0 + NPDENTRIES * NPTENTRIES := by decide
  exact h.loadLoop hs (j := 0) hend hfuel (by omega)

/-! ## The image -/

/-- After the loop over the program headers, or when it is left early. -/
def Sized (E : Env) (root : ι → ℕ) (held : κ → ℕ) (i : ι) (B : Slot → ℕ) (K : List Slot)
    (w₀ : World) (ip : Slot) (r : ℕ) : Option ℕ → World → Prop
  | some sz, w => Loading E root held i B K w₀ ip r sz w
  | none, w => Opened E B K w₀ ip w ∧ Fresh E.L root held 0 i w₀.mem r w.mem

omit [DecidableEq κ] in
theorem Loading.none (h : Loading E root held i B K w₀ ip r sz w) :
    Sized E root held i B K w₀ ip r Option.none w :=
  ⟨h.toOpened, h.image.toFresh⟩

theorem Loading.execSegment (hs : Inv E.L root held 0 w₀.mem)
    (h : Loading E root held i B K w₀ ip r sz w) {ph : Proghdr} (hvaddr : ph.vaddr < 2 ^ 32)
    (hmemsz : ph.memsz < 2 ^ 32) :
    Triple Elsewhere (· = w) (execSegment E r ip sz ph) (Sized E root held i B K w₀ ip r) := by
  refine .ite (fun _ => .of_run rfl h) fun _ => .ite (fun _ => .of_run rfl h.none) fun hfile =>
    .ite (fun _ => .of_run rfl h.none) fun hwrap => ?_
  refine .bind (onMem_triple (Q := fun q v => (q = 0 ∧ Sized E root held i B K w₀ ip r Option.none v) ∨
    (q ≠ 0 ∧ (ph.vaddr + ph.memsz) % 2 ^ 32 ≤ q ∧ Loading E root held i B K w₀ ip r q v))
      ((h.image.allocuvm hs).weaken fun q t hq => ?_)) fun q => .of_eq fun v hv => ?_
  · rcases hq with ⟨h0, ht⟩ | ⟨h0, rfl, ht⟩
    · exact .inl ⟨h0, h.toOpened.setMem t, ht⟩
    · exact .inr ⟨h0, Nat.le_max_right _ _, h.toOpened.setMem t, ht⟩
  rcases hv with ⟨h0, hv⟩ | ⟨h0, hle, hv⟩
  · rw [if_pos h0]
    exact .of_run rfl hv
  rw [if_neg h0]
  refine .ite (fun _ => .of_run rfl hv.none) fun hal => ?_
  -- the sum of the two fields does not wrap, so the file part lies below the new size
  have hend : ph.vaddr + ph.filesz ≤ q := by omega
  refine .bind (hv.loaduvm hs (by omega) hend) fun ok => .of_eq fun u hu => ?_
  cases ok with
  | true => exact .of_run rfl hu
  | false => exact .of_run rfl hu.none

theorem Loading.execLoad (hs : Inv E.L root held 0 w₀.mem)
    (h : Loading E root held i B K w₀ ip r sz w) {left off : ℕ} :
    Triple Elsewhere (· = w) (execLoad E r ip left off sz) (Sized E root held i B K w₀ ip r) := by
  induction left generalizing w off sz with
  | zero => exact .of_run rfl h
  | succ left ih =>
    refine .bind (h.read _ _) fun o => .of_eq fun x hx => ?_
    obtain rfl := hx
    cases o with
    | none => exact .of_run rfl h.none
    | some b =>
      refine .ite (fun _ => .of_run rfl h.none) fun _ => ?_
      refine .bind (h.execSegment hs (InodeCache.field_lt b 8 4) (InodeCache.field_lt b 20 4))
        fun q => .of_eq fun y hy => ?_
      cases q with
      | none => exact .of_run rfl hy
      | some q => exact ih hy

/-! ## Giving up -/

omit [DecidableEq ι] [DecidableEq κ] in
theorem Restored.refl {s : Mem} (hs : Inv E.L root held 0 s) : Restored E.L root held s s :=
  ⟨hs, fun _ => Iff.rfl, fun _ _ => rfl⟩

theorem Opened.close (h : Opened E B K w₀ ip w) :
    Triple Elsewhere (· = w) (do onFs (InodeCache.iunlockput ip); end_op)
      (fun _ v => Closed E B K w₀ v ∧ v.mem = w.mem) := by
  refine .bind (onFs_triple (Q := fun _ v => Good E.sb B K v.fs ∧ v.mem = w.mem ∧
    v.begun = w.begun ∧ v.ended = w.ended) fun _ t hr =>
      ⟨(InodeCache.iunlockput_quiet h.good hr).1, rfl, rfl, rfl⟩) fun _ => ?_
  refine .update fun v ⟨hgood, hmem, hbegun, hended⟩ => ⟨⟨hgood, ?_⟩, hmem⟩
  have hops := h.ops
  change v.begun + w₀.ended = v.ended + 1 + w₀.begun
  omega

theorem Fresh.restored {t : Mem} (hs : Inv E.L root held 0 w₀.mem) (hi : root i = 0)
    (h : Fresh E.L root held 0 i w₀.mem r t) :
    ∃ u, freevm E.L r t = .ok ((), u) ∧ Restored E.L root held w₀.mem u := by
  obtain ⟨u, hrun, hu, hfree, hpage⟩ := h.freevm hs hi
  exact ⟨u, hrun, hu, hfree, hpage⟩

theorem Closed.bad (hs : Inv E.L root held 0 w₀.mem) (hi : root i = 0) (h : Closed E B K w₀ w)
    (hmem : Fresh E.L root held 0 i w₀.mem r w.mem) :
    Triple Elsewhere (· = w) (bad E r none) (fun _ v => Undone E root held B K w₀ v) := by
  obtain ⟨u, hrun, hu⟩ := Fresh.restored hs hi hmem
  rw [Exec.bad, if_pos (hmem.ne_zero hs)]
  exact .run_bind (onMem_ok hrun) (.of_run rfl ⟨⟨h.good, h.ops⟩, hu⟩)

theorem Opened.bad (hs : Inv E.L root held 0 w₀.mem) (hi : root i = 0) (h : Opened E B K w₀ ip w)
    (hmem : (r = 0 ∧ Restored E.L root held w₀.mem w.mem) ∨
      Fresh E.L root held 0 i w₀.mem r w.mem) :
    Triple Elsewhere (· = w) (bad E r (some ip)) (fun _ v => Undone E root held B K w₀ v) := by
  rcases hmem with ⟨rfl, hmem⟩ | hmem
  · exact h.close.weaken fun _ v ⟨hv, heq⟩ => ⟨hv, heq ▸ hmem⟩
  · obtain ⟨u, hrun, hu⟩ := Fresh.restored hs hi hmem
    rw [Exec.bad, if_pos (hmem.ne_zero hs)]
    exact .run_bind (onMem_ok hrun) ((h.setMem u).close.weaken fun _ v ⟨hv, heq⟩ => ⟨hv, heq ▸ hu⟩)

/-! ## With the file open -/

/-- When the file has been read: everything is given back, or there is an image. -/
def Imaged (E : Env) (root : ι → ℕ) (held : κ → ℕ) (i : ι) (B : Slot → ℕ) (K : List Slot)
    (w₀ : World) : Option Image → World → Prop
  | some im, w => Closed E B K w₀ w ∧ Loaded E.L root held i w₀.mem im.pgdir im.sz w.mem
  | none, w => Undone E root held B K w₀ w

theorem Loading.execFile (hs : Inv E.L root held 0 w₀.mem) (hi : root i = 0)
    (h : Loading E root held i B K w₀ ip r 0 w) {elf : List UInt8} :
    Triple Elsewhere (· = w) (execFile E ip r elf) (Imaged E root held i B K w₀) := by
  refine .bind (h.execLoad hs) fun q => .of_eq fun v hv => ?_
  cases q with
  | none => exact .bind (hv.1.bad hs hi (.inr hv.2)) fun _ => .pure fun _ => id
  | some q =>
    have hclose := hv.close.bind fun _ => Triple.pure (a := some (⟨r, q, InodeCache.field elf 24 4⟩ : Image))
      (Q := Imaged E root held i B K w₀) fun u ⟨hu, heq⟩ => ⟨hu, heq ▸ hv.image⟩
    rwa [bind_assoc] at hclose

/-- What `setupkvm` leaves. -/
def SpaceMade (E : Env) (root : ι → ℕ) (held : κ → ℕ) (i : ι) (w₀ : World) : Option ℕ → Mem → Prop
  | some r, t => NewSpace E.L root held 0 i w₀.mem r t
  | none, t => Restored E.L root held w₀.mem t

theorem Opened.execOpen (hs : Inv E.L root held 0 w₀.mem) (hi : root i = 0)
    (h : Opened E B K w₀ ip w) (hmem : w.mem = w₀.mem) :
    Triple Elsewhere (· = w) (execOpen E ip) (Imaged E root held i B K w₀) := by
  have hback : Restored E.L root held w₀.mem w.mem := by
    rw [hmem]
    exact .refl hs
  have hbad : Triple Elsewhere (· = w) (Exec.bad E 0 (some ip)) (fun _ v => Undone E root held B K w₀ v) :=
    h.bad hs hi (.inl ⟨rfl, hback⟩)
  refine .bind (h.read _ _) fun o => .of_eq fun x hx => ?_
  obtain rfl := hx
  cases o with
  | none => exact .bind hbad fun _ => .pure fun _ => id
  | some elf =>
    refine .ite (fun _ => .bind hbad fun _ => .pure fun _ => id) fun _ => ?_
    refine .bind (onMem_triple (Q := fun o v => Opened E B K w₀ ip v ∧ SpaceMade E root held i w₀ o v.mem)
      ?_) fun o => .of_eq fun v ⟨hv, hmade⟩ => ?_
    · rw [hmem]
      refine (hs.setupkvm hi).weaken fun o t ht => ⟨h.setMem t, ?_⟩
      cases o with
      | none => exact ⟨ht.inv, ht.free, ht.page⟩
      | some r => exact ht
    cases o with
    | none => exact .bind (hv.bad hs hi (.inl ⟨rfl, hmade⟩)) fun _ => .pure fun _ => id
    | some r => exact Loading.execFile hs hi ⟨hv, hmade.loaded⟩

theorem execImage_spec (hs : Inv E.L root held 0 w.mem) (hi : root i = 0)
    (h : Good E.sb B K w.fs) {cwd : Slot} (hcwd : 0 < B cwd) (path : List UInt8) :
    Triple Elsewhere (· = w) (execImage E cwd path) (Imaged E root held i B K w) := by
  set w₁ : World := { w with begun := w.begun + 1 } with hw₁
  refine .run_bind (t := w₁) rfl (.bind (onFs_triple (Q := fun o v =>
    Good E.sb B (o.toList ++ K) v.fs ∧ v.mem = w.mem ∧ v.begun = w.begun + 1 ∧ v.ended = w.ended)
      fun o t hr => ⟨(InodeCache.namei_spec h hcwd hr).1, rfl, rfl, rfl⟩)
      fun o => .of_eq fun v ⟨hgood, hmem, hbegun, hended⟩ => ?_)
  cases o with
  | none =>
    refine .bind (.of_run rfl (show Undone E root held B K w { v with ended := v.ended + 1 } from
      ⟨⟨hgood, ?_⟩, ?_⟩)) fun _ => .pure fun _ => id
    · change v.begun + w.ended = v.ended + 1 + w.begun
      omega
    · change Restored E.L root held w.mem v.mem
      rw [hmem]
      exact .refl hs
  | some ip =>
    refine .bind (onFs_triple (Q := fun _ x => Opened E B K w ip x ∧ x.mem = w.mem)
      fun _ t hr => ?_) fun _ => .of_eq fun x ⟨hx, heq⟩ => hx.execOpen hs hi heq
    obtain ⟨hgood', -, hvalid⟩ := InodeCache.ilock_quiet hgood hr
    refine ⟨⟨hgood', hvalid, ?_⟩, hmem⟩
    change v.begun + w.ended = v.ended + w.begun + 1
    omega

/-! ## The stack -/

/-- The image with its stack. -/
def Stacked (E : Env) (root : ι → ℕ) (held : κ → ℕ) (i : ι) (B : Slot → ℕ) (K : List Slot)
    (w₀ : World) : Option Image → World → Prop
  | some im, w => Closed E B K w₀ w ∧ ∃ n, im.sz = (n + 2) * PGSIZE ∧
      Guarded E.L root held i w₀.mem im.pgdir n w.mem
  | none, w => Undone E root held B K w₀ w

theorem execStack_spec (hs : Inv E.L root held 0 w₀.mem) (hi : root i = 0) (h : Closed E B K w₀ w)
    {im : Image} (hmem : Loaded E.L root held i w₀.mem im.pgdir im.sz w.mem)
    {m : Ker (Option Image)} (hm : execStack E im = m) :
    Triple Elsewhere (· = w) m (Stacked E root held i B K w₀) := by
  rw [← hm, execStack]
  generalize hnewsz : (PGROUNDUP im.sz + 2 * PGSIZE) % 2 ^ 32 = newsz
  refine .bind (onMem_triple (Q := fun q v => Closed E B K w₀ v ∧
    ((q = 0 ∧ Fresh E.L root held 0 i w₀.mem im.pgdir v.mem) ∨
      (q ≠ 0 ∧ q = (pages im.sz + 2) * PGSIZE ∧ Loaded E.L root held i w₀.mem im.pgdir q v.mem)))
    ((hmem.allocStack hs hnewsz.symm).weaken fun q t hq => ⟨⟨h.good, h.ops⟩, hq⟩)) fun q => .of_eq fun v ⟨hv, hq⟩ => ?_
  rcases hq with ⟨h0, hfresh⟩ | ⟨h0, rfl, hloaded⟩
  · rw [if_pos h0]
    exact .bind (hv.bad hs hi hfresh) fun _ => .pure fun _ => id
  · rw [if_neg h0, Nat.add_mul, Nat.add_sub_cancel]
    obtain ⟨u, hrun, hu⟩ := hloaded.clearpteu hs
    exact .run_bind (onMem_ok hrun) (.of_run rfl ⟨⟨hv.good, hv.ops⟩, _, (Nat.add_mul ..).symm, hu⟩)

theorem execReady_spec (hs : Inv E.L root held 0 w.mem) (hi : root i = 0)
    (h : Good E.sb B K w.fs) {cwd : Slot} (hcwd : 0 < B cwd) (path : List UInt8) :
    Triple Elsewhere (· = w) (execReady E cwd path) (Stacked E root held i B K w) := by
  refine .bind (execImage_spec hs hi h hcwd path) fun o => .of_eq fun v hv => ?_
  cases o with
  | none => exact .of_run rfl hv
  | some im =>
    dsimp only
    generalize hm : execStack E im = m
    exact execStack_spec hs hi hv.1 hv.2 hm

/-! ## The arguments -/

theorem below_lt (sp n : ℕ) : below sp n < 2 ^ 32 :=
  (Nat.div_mul_le_self _ 4).trans_lt (Nat.mod_lt _ (by decide))

omit [DecidableEq κ] in
theorem pushArgs_fresh {s t : Mem} (hs : Inv E.L root held 0 s)
    (h : Fresh E.L root held 0 i s r t) {argv : List (List UInt8)} {sp : ℕ} {ptrs : List ℕ} :
    Triple (fun _ => True) (· = t) (pushArgs r argv sp ptrs)
      (fun _ u => Fresh E.L root held 0 i s r u) := by
  induction argv generalizing t sp ptrs with
  | nil => exact .of_run rfl h
  | cons arg argv ih =>
    refine .ite (fun _ => .of_run rfl h) fun _ => ?_
    refine .bind (h.copyout hs (below_lt _ _)) fun q => .of_eq fun u hu => ?_
    exact .ite (fun _ => .of_run rfl hu) fun _ => ih hu

omit [DecidableEq κ] in
theorem pushAll_fresh {s t : Mem} (hs : Inv E.L root held 0 s)
    (h : Fresh E.L root held 0 i s r t) (sz : ℕ) (argv : List (List UInt8)) :
    Triple (fun _ => True) (· = t) (pushAll r sz argv)
      (fun _ u => Fresh E.L root held 0 i s r u) := by
  refine .bind (pushArgs_fresh hs h) fun o => .of_eq fun u hu => ?_
  cases o with
  | none => exact .of_run rfl hu
  | some q => exact .bind (hu.copyout hs (Nat.mod_lt _ (by decide))) fun _ => .pure fun _ => id

/-! ## exec -/

/-- A call that returns -1 leaves the process as it was and gives everything back. -/
def Harmless (E : Env) (root : ι → ℕ) (held : κ → ℕ) (B : Slot → ℕ) (K : List Slot) (p : Process)
    (w₀ : World) (r : ℤ × Process) (w : World) : Prop :=
  r.1 = -1 → r.2 = p ∧ Undone E root held B K w₀ w

omit [DecidableEq ι] [DecidableEq κ] in
theorem commit_harmless {p : Process} {im : Image} {path : List UInt8} {esp : ℕ} :
    Triple Elsewhere (· = w) (commit E p im path esp) (Harmless E root held B K p w₀) :=
  .bind (onMem_triple (Q := fun _ _ => True) fun _ _ => by split <;> trivial) fun _ =>
    .of_eq fun _ _ => .bind (onMem_triple (Q := fun _ _ => True) fun _ _ => by split <;> trivial) fun _ =>
      .pure fun _ _ h => absurd (show (0 : ℤ) = -1 from h) (by decide)

theorem execPush_harmless (hs : Inv E.L root held 0 w₀.mem) (hi : root i = 0)
    (h : Closed E B K w₀ w) {im : Image} (hmem : Fresh E.L root held 0 i w₀.mem im.pgdir w.mem)
    {p : Process} {path : List UInt8} {argv : List (List UInt8)} :
    Triple Elsewhere (· = w) (execPush E p im path argv) (Harmless E root held B K p w₀) := by
  refine .bind (onMem_triple (Q := fun _ v => Closed E B K w₀ v ∧
    Fresh E.L root held 0 i w₀.mem im.pgdir v.mem) ((pushAll_fresh hs hmem im.sz argv).weaken
      fun o t ht => ⟨⟨h.good, h.ops⟩, ht⟩)) fun o => .of_eq fun v ⟨hv, hfresh⟩ => ?_
  cases o with
  | none => exact .bind (hv.bad hs hi hfresh) fun _ => .pure fun u hu _ => ⟨rfl, hu⟩
  | some esp => exact commit_harmless

theorem exec_spec (hs : Inv E.L root held 0 w.mem) (hi : root i = 0) (h : Good E.sb B K w.fs)
    {p : Process} (hcwd : 0 < B p.cwd) (path : List UInt8) (argv : List (List UInt8)) :
    Triple Elsewhere (· = w) (exec E p path argv) (Harmless E root held B K p w) := by
  refine .bind (execReady_spec hs hi h hcwd path) fun o => .of_eq fun v hv => ?_
  cases o with
  | none => exact .of_run rfl fun _ => ⟨rfl, hv⟩
  | some im =>
    obtain ⟨hclosed, n, -, hguard⟩ := hv
    exact execPush_harmless hs hi hclosed hguard.toFresh

/-- The process, its memory, the free pages, the transactions and the references are in `p'` and
`w'` as in `p` and `w`. -/
structure NoTrace (root : ι → ℕ) (p : Process) (w : World) (p' : Process) (w' : World) : Prop where
  process : p' = p
  spaces : ∀ i, root i ≠ 0 → Untouched w.mem (root i) w'.mem
  pages : ∀ f, f ∉ w.mem.freelist → w'.mem.page f = w.mem.page f
  freelist : w'.mem.freelist.Perm w.mem.freelist
  ops : w'.begun + w.ended = w'.ended + w.begun
  refs : ∀ k, (w'.fs.icache k).ref = (w.fs.icache k).ref

omit [DecidableEq ι] [DecidableEq κ] in
theorem Undone.noTrace (hs : Inv E.L root held 0 w₀.mem) (h₀ : Good E.sb B K w₀.fs)
    (h : Undone E root held B K w₀ w) (p : Process) : NoTrace root p w₀ p w where
  process := rfl
  spaces _ hi := hs.untouched h.mem.inv hi h.mem.page
  pages := h.mem.page
  freelist := (List.perm_ext_iff_of_nodup h.mem.inv.nodup hs.nodup).mpr h.mem.free
  ops := h.ops
  refs k := (h.good.ref k).trans (h₀.ref k).symm

/-- What is asked of a call of `exec`. -/
def FailsWithoutTrace (E : Env) (root : ι → ℕ) (p : Process) (path : List UInt8)
    (argv : List (List UInt8)) (w : World) : Prop :=
  (∀ p' w', exec E p path argv w = .ok ((-1, p'), w') → NoTrace root p w p' w') ∧
    exec E p path argv w ≠ .error .addressShouldExist

theorem exec_fails_without_trace {s : Sys ι κ} (h : (pageSystem E.L ι κ).Reachable s)
    (hmem : w.mem = s.mem) (hfs : Good E.sb B K w.fs) {p : Process} (hcwd : 0 < B p.cwd)
    (path : List UInt8) (argv : List (List UInt8)) :
    FailsWithoutTrace E s.root p path argv w := by
  have hinv : Inv E.L s.root s.held 0 w.mem := by
    rw [hmem]
    exact reachable_inv h
  -- The new directory has a place of its own.
  have hrun := exec_spec (i := none) hinv.withSlot rfl hfs hcwd path argv
  refine ⟨fun p' w' hok => ?_, fun herr => hrun.error rfl herr⟩
  have hharm : Harmless E (withSlot s.root) s.held B K p w (-1, p') w' := hrun.ok rfl hok
  obtain ⟨rfl, hundone⟩ := hharm rfl
  have htrace := hundone.noTrace hinv.withSlot hfs p'
  exact ⟨rfl, fun i hi => htrace.spaces (some i) hi, htrace.pages, htrace.freelist, htrace.ops,
    htrace.refs⟩

/-- The first process, in the root directory of the file system that mkfs makes. -/
theorem exec_fails_without_trace_boot : ∃ s : Sys Unit Unit, s.root () ≠ 0 ∧
    FailsWithoutTrace ⟨bootSymbols, FsBlocks.mkfsSb, fun _ _ => none⟩ s.root
      ⟨⟨s.root (), 0x1000, s.held ()⟩, ⟨0, 0⟩, [], 0⟩ [97] [[97], [98, 99]]
      ⟨(FileCalls.boot FsBlocks.mkfsImage).fs, s.mem, 0, 0⟩ := by
  obtain ⟨s, hs⟩ := exists_oneProcess (show 0x1000 ≤ 0x100000 by decide)
  have hcwd : 0 < (FileCalls.boot FsBlocks.mkfsImage).base 0 := by
    rw [FileCalls.boot_base]
    decide
  set E : Env := ⟨bootSymbols, FsBlocks.mkfsSb, fun _ _ => none⟩
  set p : Process := ⟨⟨s.root (), 0x1000, s.held ()⟩, ⟨0, 0⟩, [], 0⟩
  set w : World := ⟨(FileCalls.boot FsBlocks.mkfsImage).fs, s.mem, 0, 0⟩
  have hr : (pageSystem E.L Unit Unit).Reachable s := hs.reachable
  have hfs := (FileCalls.boot_kept FileCalls.mkfsImage_image).held.good
  exact ⟨s, hs.root_ne, exec_fails_without_trace hr (w := w) rfl hfs (p := p) hcwd _ _⟩

end Ostep.Exec

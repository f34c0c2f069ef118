import Ostep.BufferCache
import Mathlib.Data.Fintype.Card

/-!
# Coherence of the buffer cache

A block is in at most one buffer, and what its last writer left is in that buffer, or else on
the disk: a buffer whose data is newer than the disk is dirty, and a dirty buffer is not
recycled.
-/

namespace Ostep.BufferCache
open TransitionSystem LinkedRing

variable {ι δ : Type*}

/-! ## The ring of buffers -/

/-- The ring through all the buffers, most recently used first. -/
def St.Lru (s : St ι δ) (l : List (Fin NBUF)) : Prop :=
  s.links.Ring none (l.map some) ∧ ∀ b, b ∈ l

theorem ring_nodup {k : Links Node} {l : List (Fin NBUF)} (h : k.Ring none (l.map some)) :
    l.Nodup :=
  (List.nodup_cons.mp h.nodup).2.of_map some

theorem length_lt_of_nodup {l : List (Fin NBUF)} (h : l.Nodup) : l.length < NBUF + 1 := by
  have hcard := h.length_le_card
  rw [Fintype.card_fin] at hcard
  omega

theorem find_atNode (p : Fin NBUF → Bool) (l : List (Fin NBUF)) :
    ((l.map some).find? (atNode p)).join = l.find? p := by
  have hcomp : atNode p ∘ some = p := rfl
  rw [List.find?_map, hcomp]
  cases l.find? p <;> rfl

theorem St.Lru.lookup {s : St ι δ} {l : List (Fin NBUF)} (h : s.Lru l) (x : ℕ) :
    s.lookup x = some (l.find? fun b => (s.buf b).caches x) := by
  have hfuel : (l.map some).length < NBUF + 1 := by
    simpa using length_lt_of_nodup (ring_nodup h.1)
  have hscan := h.1.path.scan_next (by simp) (atNode fun b => (s.buf b).caches x) hfuel
  rw [St.lookup, hscan, Option.map_some, find_atNode]

theorem St.Lru.unused {s : St ι δ} {l : List (Fin NBUF)} (h : s.Lru l) :
    s.unused = some (l.reverse.find? fun b => (s.buf b).refcnt = 0 && !(s.buf b).dirty) := by
  have hfuel : (l.map some).length < NBUF + 1 := by
    simpa using length_lt_of_nodup (ring_nodup h.1)
  have hscan := h.1.path.scan_prev (by simp)
    (atNode fun b => (s.buf b).refcnt = 0 && !(s.buf b).dirty) hfuel
  rw [St.unused, hscan, Option.map_some, ← List.map_reverse, find_atNode]

/-- A released buffer moves to the front. -/
theorem ring_toFront {k : Links Node} {l : List (Fin NBUF)} {b : Fin NBUF}
    (h : k.Ring none (l.map some)) (hb : b ∈ l) :
    ((k.unlink (some b)).linkFirst none (some b)).Ring none ((b :: l.erase b).map some) := by
  obtain ⟨l₁, l₂, hnot, rfl, herase⟩ := List.exists_erase_eq hb
  rw [herase]
  have hn := ring_nodup h
  simp only [List.map_append, List.map_cons] at h
  have hun := h.unlink
  rw [← List.map_append] at hun
  exact hun.linkFirst (by simp; grind)

theorem binit_ring : ∃ l : List (Fin NBUF), binit.Ring none (l.map some) ∧ ∀ b, b ∈ l := by
  have hfold : ∀ (bs l : List (Fin NBUF)) (k : Links Node), k.Ring none (l.map some) →
      (bs ++ l).Nodup →
      (bs.foldl (fun k b => k.linkFirst none (some b)) k).Ring none ((bs.reverse ++ l).map some) := by
    intro bs
    induction bs with
    | nil =>
      intro l k h _
      simpa using h
    | cons b bs ih =>
      intro l k h hn
      have hb : b ∉ l := by grind
      have := ih (b :: l) _ (h.linkFirst (b := some b) (by simpa using hb)) (by grind)
      simpa using this
  have hempty : (⟨fun _ => none, fun _ => none⟩ : Links Node).Ring none (([] : List (Fin NBUF)).map some) :=
    ⟨⟨rfl, rfl⟩, by simp⟩
  have h := hfold (List.finRange NBUF) [] _ hempty (by simpa using List.nodup_finRange NBUF)
  exact ⟨(List.finRange NBUF).reverse ++ [], h, by simp⟩

variable [DecidableEq ι]

/-- `bget` takes the buffer that caches the block, or recycles one that nobody uses. -/
theorem bget_cases {s t : St ι δ} {q : ι} {x : ℕ} {l : List (Fin NBUF)} (hl : s.Lru l)
    (h : bget s q x = some t) :
    (∃ b, (s.buf b).caches x = true ∧
      t = (s.setBuf b { s.buf b with refcnt := (s.buf b).refcnt + 1 }).goto q (.bget b x)) ∨
    (∀ b, (s.buf b).caches x = false) ∧ ∃ b, (s.buf b).refcnt = 0 ∧ (s.buf b).dirty = false ∧
      t = (s.setBuf b { s.buf b with
        dev := ROOTDEV, blockno := x, valid := false, dirty := false
        refcnt := 1 }).goto q (.bget b x) := by
  unfold bget at h
  rw [hl.lookup] at h
  cases hfind : l.find? fun b => (s.buf b).caches x with
  | some b =>
    simp only [hfind] at h
    exact .inl ⟨b, by simpa using List.find?_some hfind, (Option.some.inj h).symm⟩
  | none =>
    have hnone : ∀ b, (s.buf b).caches x = false := fun b => by
      simpa using List.find?_eq_none.mp hfind b (hl.2 b)
    simp only [hfind, hl.unused] at h
    cases hfree : l.reverse.find? fun b => (s.buf b).refcnt = 0 && !(s.buf b).dirty with
    | none => simp [hfree] at h
    | some b =>
      simp only [hfree] at h
      have hb := List.find?_some hfree
      simp only [Bool.and_eq_true, decide_eq_true_eq, Bool.not_eq_true'] at hb
      exact .inr ⟨hnone, b, hb.1, hb.2, (Option.some.inj h).symm⟩

/-! ## The invariant -/

/-- `q` has a reference to `b` without holding its lock. -/
def Pc.refs : Pc → Fin NBUF → Bool
  | .bget c _, b | .brelse c, b => c = b
  | _, _ => false

/-- The buffer `bread` has chosen for a block, and the block. -/
def Pc.asks : Pc → Option (Fin NBUF × ℕ)
  | .bget b x | .bread b x | .iderw b (some x) | .ideWait b (some x) => some (b, x)
  | _ => none

/-- The buffer `bread` has locked and not returned. -/
def Pc.reads : Pc → Option (Fin NBUF)
  | .bread b _ | .iderw b (some _) | .ideWait b (some _) => some b
  | _ => none

/-- The buffer `bwrite` is writing. -/
def Pc.writes : Pc → Option (Fin NBUF)
  | .iderw b none | .ideWait b none => some b
  | _ => none

def Pc.waits : Pc → Option (Fin NBUF)
  | .ideWait b _ => some b
  | _ => none

structure Inv (image : ℕ → δ) (s : St ι δ) (h : History δ) : Prop where
  ring : ∃ l, s.Lru l
  refs : ∀ b, ∃ A : Finset ι, (∀ q, q ∈ A ↔ (s.pc q).refs b = true) ∧
    (s.buf b).refcnt = A.card + (s.buf b).lock.isSome.toNat
  fresh : ∀ b, (s.buf b).dev ≠ ROOTDEV →
    (s.buf b).valid = false ∧ (s.buf b).dirty = false ∧ (s.buf b).refcnt = 0
  unique : ∀ b c, (s.buf b).dev = ROOTDEV → (s.buf c).dev = ROOTDEV →
    (s.buf b).blockno = (s.buf c).blockno → b = c
  asked : ∀ q b x, (s.pc q).asks = some (b, x) → (s.buf b).blockno = x
  locked : ∀ q b, (s.pc q).reads = some b ∨ (s.pc q).writes = some b → (s.buf b).lock = some q
  loaded : ∀ q b, (s.buf b).lock = some q → (s.buf b).valid = true ∨ (s.pc q).reads = some b
  dirty_valid : ∀ b, (s.buf b).dirty = true → (s.buf b).valid = true
  touched : ∀ b, h.touched b = true → (s.buf b).lock ≠ none ∧
    ∀ q, (s.buf b).lock = some q → (s.pc q).reads ≠ some b ∧ (s.pc q).writes ≠ some b
  queued : ∀ b ∈ s.idequeue, (s.buf b).lock ≠ none ∧
    ∀ q, (s.buf b).lock = some q → (s.pc q).waits = some b
  queue_nodup : s.idequeue.Nodup
  writing : ∀ q b, s.pc q = .iderw b none ∨ s.pc q = .ideWait b none ∧ b ∈ s.idequeue →
    (s.buf b).dirty = true
  reading : ∀ q b x, s.pc q = .iderw b (some x) ∨ s.pc q = .ideWait b (some x) ∧ b ∈ s.idequeue →
    (s.buf b).valid = false
  started : ∀ b, s.idequeue.head? = some b → (s.buf b).dirty = true →
    s.disk (s.buf b).blockno = (s.buf b).data
  latest : ∀ b, (s.buf b).valid = true → h.touched b = false →
    (s.buf b).data = lastWritten image h.log (s.buf b).blockno
  clean : ∀ b, (s.buf b).valid = true → (s.buf b).dirty = false → h.touched b = false →
    s.disk (s.buf b).blockno = (s.buf b).data
  uncached : ∀ x, (∀ b, (s.buf b).caches x = true → (s.buf b).valid = false) →
    s.disk x = lastWritten image h.log x
  answered : ∀ l₁ x v l₂, h.log = l₁ ++ .returned x v :: l₂ → v = lastWritten image l₂ x

omit [DecidableEq ι] in
theorem Inv.init {image : ℕ → δ} {s : St ι δ} (h : Initial image s) :
    Inv image s ⟨[], fun _ => false⟩ := by
  obtain ⟨hdisk, hlinks, hqueue, hpc, hbuf⟩ := h
  obtain ⟨l, hring, hall⟩ := binit_ring
  constructor
  case ring => exact ⟨l, by rw [hlinks]; exact hring, hall⟩
  case refs => exact fun b => ⟨∅, by simp [hpc, Pc.refs], by simp [hbuf]⟩
  all_goals simp_all [Pc.asks, Pc.reads, Pc.writes, lastWritten]

omit [DecidableEq ι] in
/-- A buffer somebody holds or waits for is referenced. -/
theorem Inv.refcnt_pos {image : ℕ → δ} {s : St ι δ} {h : History δ} (hs : Inv image s h) {q : ι}
    {b : Fin NBUF} (hq : (s.buf b).lock = some q ∨ (s.pc q).refs b = true) :
    0 < (s.buf b).refcnt := by
  obtain ⟨A, hA, hcard⟩ := hs.refs b
  rcases hq with hq | hq
  · simp [hcard, hq]
  · have : 0 < A.card := Finset.card_pos.mpr ⟨q, (hA q).mpr hq⟩
    omega

/-- The references when `q` moves to `p` and `b` becomes `v`. -/
theorem Inv.recount {image : ℕ → δ} {s : St ι δ} {h : History δ} (hs : Inv image s h) {q : ι}
    {p : Pc} {b : Fin NBUF} {v : Buf ι δ}
    (hcount : v.refcnt + (s.buf b).lock.isSome.toNat + ((s.pc q).refs b).toNat =
      (s.buf b).refcnt + v.lock.isSome.toNat + (p.refs b).toNat)
    (hother : ∀ c, c ≠ b → (s.pc q).refs c = p.refs c) (c : Fin NBUF) :
    ∃ A : Finset ι, (∀ r, r ∈ A ↔ (Function.update s.pc q p r).refs c = true) ∧
      (Function.update s.buf b v c).refcnt =
        A.card + (Function.update s.buf b v c).lock.isSome.toNat := by
  obtain ⟨A, hA, hcard⟩ := hs.refs c
  have hq := hA q
  have hw : (Function.update s.buf b v c).refcnt + (s.buf c).lock.isSome.toNat +
      ((s.pc q).refs c).toNat =
      (s.buf c).refcnt + (Function.update s.buf b v c).lock.isSome.toNat + (p.refs c).toNat := by
    by_cases hc : c = b
    · subst hc
      simpa using hcount
    · simp [hc, hother c hc]
  cases hnew : p.refs c
  · refine ⟨A.erase q, fun r => ?_, ?_⟩
    · by_cases hr : r = q
      · simp [hr, hnew]
      · simpa [hr] using hA r
    · rw [Finset.card_erase_eq_ite]
      cases hold : (s.pc q).refs c
      · simp only [hq, hold, hnew, Bool.toNat_false, Bool.false_eq_true, if_false] at hw ⊢
        omega
      · have hpos : 0 < A.card := Finset.card_pos.mpr ⟨q, hq.mpr hold⟩
        simp only [hq, hold, hnew, Bool.toNat_false, Bool.toNat_true, if_true] at hw ⊢
        omega
  · refine ⟨insert q A, fun r => ?_, ?_⟩
    · by_cases hr : r = q
      · simp [hr, hnew]
      · simpa [hr] using hA r
    · rw [Finset.card_insert_eq_ite]
      cases hold : (s.pc q).refs c <;>
        simp only [hq, hold, hnew, Bool.toNat_false, Bool.toNat_true, Bool.false_eq_true, if_false,
          if_true] at hw ⊢ <;> omega

theorem Inv.found {image : ℕ → δ} {s : St ι δ} {h : History δ} (hs : Inv image s h) {q : ι}
    {b : Fin NBUF} {x : ℕ} (hq : s.pc q = .user) (hb : (s.buf b).caches x = true) :
    Inv image ((s.setBuf b { s.buf b with refcnt := (s.buf b).refcnt + 1 }).goto q (.bget b x))
      h := by
  simp only [St.setBuf, St.goto]
  constructor <;> try dsimp only
  case ring => exact hs.ring
  case refs =>
    exact hs.recount (by simp [hq, Pc.refs]; omega) (fun c hc => by simp [hq, Pc.refs, Ne.symm hc])
  case fresh => grind [hs.fresh, Buf.caches]
  case unique => grind [hs.unique]
  case asked => grind [hs.asked, Buf.caches, Pc.asks]
  case locked => grind [hs.locked, Pc.reads, Pc.writes]
  case loaded =>
    intro r c hr
    have := hs.loaded r c
    grind [Pc.reads]
  case dirty_valid => grind [hs.dirty_valid]
  case touched => grind [hs.touched, Pc.reads, Pc.writes]
  case queued => grind [hs.queued, Pc.waits]
  case queue_nodup => exact hs.queue_nodup
  case writing => grind [hs.writing]
  case reading => grind [hs.reading]
  case started => grind [hs.started]
  case latest => grind [hs.latest]
  case clean => grind [hs.clean]
  case uncached =>
    intro y hy
    refine hs.uncached y fun c hc => ?_
    have := hy c
    grind [Buf.caches]
  case answered => exact hs.answered

omit [DecidableEq ι] in
/-- Nobody is at work on a buffer without references. -/
theorem Inv.unreferenced {image : ℕ → δ} {s : St ι δ} {h : History δ} (hs : Inv image s h)
    {b : Fin NBUF} (hb : (s.buf b).refcnt = 0) :
    (s.buf b).lock = none ∧ (∀ q y, (s.pc q).asks ≠ some (b, y)) ∧ b ∉ s.idequeue ∧
      h.touched b = false := by
  have hlock : (s.buf b).lock = none := by
    by_contra hne
    obtain ⟨q, hq⟩ := Option.ne_none_iff_exists'.mp hne
    have := hs.refcnt_pos (.inl hq)
    omega
  refine ⟨hlock, fun q y hq => ?_, fun hmem => (hs.queued b hmem).1 hlock, ?_⟩
  · have href : (s.pc q).refs b = true ∨ (s.pc q).reads = some b := by
      unfold Pc.asks at hq
      split at hq <;> simp_all [Pc.refs, Pc.reads]
    rcases href with href | hreads
    · have := hs.refcnt_pos (.inr href)
      omega
    · simp [hs.locked q b (.inl hreads)] at hlock
  · by_contra ht
    exact (hs.touched b (by simpa using ht)).1 hlock

theorem Inv.recycled {image : ℕ → δ} {s : St ι δ} {h : History δ} (hs : Inv image s h) {q : ι}
    {b : Fin NBUF} {x : ℕ} (hq : s.pc q = .user) (hnone : ∀ c, (s.buf c).caches x = false)
    (hb : (s.buf b).refcnt = 0) (hclean : (s.buf b).dirty = false) :
    Inv image ((s.setBuf b { s.buf b with
      dev := ROOTDEV, blockno := x, valid := false, dirty := false
      refcnt := 1 }).goto q (.bget b x)) h := by
  obtain ⟨hlock, hasks, hqueue, htouched⟩ := hs.unreferenced hb
  simp only [St.setBuf, St.goto]
  constructor <;> try dsimp only
  case ring => exact hs.ring
  case refs =>
    exact hs.recount (by simp [hq, Pc.refs, hb, hlock]) (fun c hc => by simp [hq, Pc.refs, Ne.symm hc])
  case fresh => grind [hs.fresh]
  case unique => grind [hs.unique, Buf.caches]
  case asked => grind [hs.asked, Pc.asks]
  case locked => grind [hs.locked, Pc.reads, Pc.writes]
  case loaded =>
    intro r c hr
    have := hs.loaded r c
    grind [Pc.reads]
  case dirty_valid => grind [hs.dirty_valid]
  case touched => grind [hs.touched, Pc.reads, Pc.writes]
  case queued => grind [hs.queued, Pc.waits]
  case queue_nodup => exact hs.queue_nodup
  case writing => grind [hs.writing]
  case reading => grind [hs.reading, Pc.asks]
  case started => grind [hs.started]
  case latest => grind [hs.latest]
  case clean => grind [hs.clean]
  case uncached =>
    intro y hy
    by_cases hold : (s.buf b).caches y = true ∧ (s.buf b).valid = true
    · -- what leaves the cache is on the disk
      have hdisk := hs.clean b hold.2 hclean htouched
      rw [hs.latest b hold.2 htouched] at hdisk
      grind [Buf.caches]
    · refine hs.uncached y fun c hc => ?_
      have := hy c
      grind [Buf.caches]
  case answered => exact hs.answered

/-- `bget` gets the sleep lock. -/
theorem Inv.acquired {image : ℕ → δ} {s : St ι δ} {h : History δ} (hs : Inv image s h) {q : ι}
    {b : Fin NBUF} {x : ℕ} (hq : s.pc q = .bget b x) (hfree : (s.buf b).lock = none) :
    Inv image ((s.setBuf b { s.buf b with lock := some q }).goto q (.bread b x)) h := by
  have hx := hs.asked q b x (by rw [hq]; rfl)
  simp only [St.setBuf, St.goto]
  constructor <;> try dsimp only
  case ring => exact hs.ring
  case refs =>
    exact hs.recount (by simp [hq, Pc.refs, hfree]) (fun c hc => by simp [hq, Pc.refs, Ne.symm hc])
  case fresh => grind [hs.fresh]
  case unique => grind [hs.unique]
  case asked => grind [hs.asked, Pc.asks]
  case locked => grind [hs.locked, Pc.reads, Pc.writes]
  case loaded =>
    intro r c hr
    have := hs.loaded r c
    grind [Pc.reads]
  case dirty_valid => grind [hs.dirty_valid]
  case touched => grind [hs.touched, Pc.reads, Pc.writes]
  case queued => grind [hs.queued, Pc.waits]
  case queue_nodup => exact hs.queue_nodup
  case writing => grind [hs.writing]
  case reading => grind [hs.reading]
  case started => grind [hs.started]
  case latest => grind [hs.latest]
  case clean => grind [hs.clean]
  case uncached =>
    intro y hy
    refine hs.uncached y fun c hc => ?_
    have := hy c
    grind [Buf.caches]
  case answered => exact hs.answered

omit [DecidableEq ι] in
/-- What a process holds between two calls. -/
theorem Inv.holds {image : ℕ → δ} {s : St ι δ} {h : History δ} (hs : Inv image s h) {q : ι}
    {b : Fin NBUF} (hq : s.Holds q b) :
    (s.buf b).valid = true ∧ (s.buf b).dev = ROOTDEV ∧ b ∉ s.idequeue := by
  obtain ⟨hpc, hlock⟩ := hq
  have hvalid : (s.buf b).valid = true := by
    simpa [hpc, Pc.reads] using hs.loaded q b hlock
  refine ⟨hvalid, ?_, fun hmem => ?_⟩
  · by_contra hne
    simp [(hs.fresh b hne).1] at hvalid
  · have := (hs.queued b hmem).2 q hlock
    simp [hpc, Pc.waits] at this

theorem Inv.modified {image : ℕ → δ} {s : St ι δ} {h : History δ} (hs : Inv image s h) {q : ι}
    {b : Fin NBUF} {v : δ} (hq : s.Holds q b) :
    Inv image (s.setBuf b { s.buf b with data := v })
      { h with touched := Function.update h.touched b true } := by
  obtain ⟨hvalid, hdev, hqueue⟩ := hs.holds hq
  obtain ⟨hpc, hlock⟩ := hq
  have hcount := hs.recount (q := q) (p := .user) (b := b) (v := { s.buf b with data := v })
    (by simp [hpc, Pc.refs]) (fun c _ => by simp [hpc, Pc.refs])
  rw [show Function.update s.pc q .user = s.pc by simp [← hpc]] at hcount
  simp only [St.setBuf]
  constructor <;> try dsimp only
  case ring => exact hs.ring
  case refs => exact hcount
  all_goals clear hcount
  case fresh => grind [hs.fresh]
  case unique => grind [hs.unique]
  case asked =>
    intro r c y hr
    have := hs.asked r c y
    grind
  case locked => grind [hs.locked]
  case loaded => grind [hs.loaded]
  case dirty_valid => grind [hs.dirty_valid]
  case touched =>
    intro c hc
    have := hs.touched c
    grind [Pc.reads, Pc.writes]
  case queued => grind [hs.queued]
  case queue_nodup => exact hs.queue_nodup
  case writing => grind [hs.writing]
  case reading => grind [hs.reading]
  case started =>
    intro c hc hd
    have hmem := List.mem_of_head? hc
    grind [hs.started]
  case latest => grind [hs.latest]
  case clean => grind [hs.clean]
  case uncached =>
    intro y hy
    refine hs.uncached y fun c hc => ?_
    have := hy c
    grind [Buf.caches]
  case answered => exact hs.answered

omit [DecidableEq ι] in
theorem lastWritten_wrote (image : ℕ → δ) (log : List (Entry δ)) (x y : ℕ) (v : δ) :
    lastWritten image (.wrote y v :: log) x = if y = x then v else lastWritten image log x := rfl

/-- `log_write`, or `bwrite` up to `iderw`. -/
theorem Inv.wrote {image : ℕ → δ} {s : St ι δ} {h : History δ} (hs : Inv image s h) {q : ι}
    {b : Fin NBUF} {pc : Pc} (hq : s.Holds q b) (hnew : pc = .user ∨ pc = .iderw b none) :
    Inv image ((s.setBuf b { s.buf b with dirty := true }).goto q pc)
      { log := .wrote (s.buf b).blockno (s.buf b).data :: h.log
        touched := Function.update h.touched b false } := by
  obtain ⟨hvalid, hdev, hqueue⟩ := hs.holds hq
  obtain ⟨hpc, hlock⟩ := hq
  simp only [St.setBuf, St.goto]
  constructor <;> try dsimp only
  case ring => exact hs.ring
  case refs =>
    refine hs.recount ?_ (fun c hc => ?_) <;> grind [Pc.refs]
  case fresh => grind [hs.fresh]
  case unique => grind [hs.unique]
  case asked =>
    intro r c y hr
    have := hs.asked r c y
    grind [Pc.asks]
  case locked => grind [hs.locked, Pc.reads, Pc.writes]
  case loaded =>
    intro r c hr
    have := hs.loaded r c
    grind [Pc.reads]
  case dirty_valid => grind [hs.dirty_valid]
  case touched =>
    intro c hc
    have := hs.touched c
    grind [Pc.reads, Pc.writes]
  case queued => grind [hs.queued, Pc.waits]
  case queue_nodup => exact hs.queue_nodup
  case writing =>
    intro r c hr
    have := hs.writing r c
    grind
  case reading =>
    intro r c y hr
    have := hs.reading r c y
    grind
  case started =>
    intro c hc hd
    have hmem := List.mem_of_head? hc
    grind [hs.started]
  case latest =>
    intro c hc ht
    rw [lastWritten_wrote]
    have := hs.latest c
    have := hs.fresh c
    have := hs.unique b c
    grind
  case clean => grind [hs.clean]
  case uncached =>
    intro y hy
    have hb := hy b
    rw [lastWritten_wrote, if_neg (by grind [Buf.caches])]
    refine hs.uncached y fun c hc => ?_
    have := hy c
    grind [Buf.caches]
  case answered =>
    intro l₁ x v l₂ hl
    cases l₁ with
    | nil => cases hl
    | cons e l₁ => exact hs.answered l₁ x v l₂ (List.cons.inj hl).2

/-- `brelse`, up to `bcache.lock`. -/
theorem Inv.released {image : ℕ → δ} {s : St ι δ} {h : History δ} (hs : Inv image s h) {q : ι}
    {b : Fin NBUF} (hq : s.Holds q b) (ht : h.touched b = false) :
    Inv image ((s.setBuf b { s.buf b with lock := none }).goto q (.brelse b)) h := by
  obtain ⟨hvalid, hdev, hqueue⟩ := hs.holds hq
  obtain ⟨hpc, hlock⟩ := hq
  simp only [St.setBuf, St.goto]
  constructor <;> try dsimp only
  case ring => exact hs.ring
  case refs =>
    exact hs.recount (by simp [hpc, Pc.refs, hlock])
      (fun c hc => by simp [hpc, Pc.refs, Ne.symm hc])
  case fresh => grind [hs.fresh]
  case unique => grind [hs.unique]
  case asked =>
    intro r c y hr
    have := hs.asked r c y
    grind [Pc.asks]
  case locked =>
    intro r c hr
    have := hs.locked r c
    grind [Pc.reads, Pc.writes]
  case loaded =>
    intro r c hr
    have := hs.loaded r c
    grind [Pc.reads]
  case dirty_valid => grind [hs.dirty_valid]
  case touched =>
    intro c hc
    have := hs.touched c
    grind [Pc.reads, Pc.writes]
  case queued =>
    intro c hc
    have := hs.queued c hc
    grind [Pc.waits]
  case queue_nodup => exact hs.queue_nodup
  case writing => grind [hs.writing]
  case reading => grind [hs.reading]
  case started =>
    intro c hc hd
    have hmem := List.mem_of_head? hc
    grind [hs.started]
  case latest => grind [hs.latest]
  case clean => grind [hs.clean]
  case uncached =>
    intro y hy
    refine hs.uncached y fun c hc => ?_
    have := hy c
    grind [Buf.caches]
  case answered => exact hs.answered

/-- `brelse` under `bcache.lock`. -/
theorem Inv.put {image : ℕ → δ} {s : St ι δ} {h : History δ} (hs : Inv image s h) {q : ι}
    {b : Fin NBUF} (hq : s.pc q = .brelse b) : Inv image ((brelsePut s b).goto q .user) h := by
  have hpos := hs.refcnt_pos (q := q) (b := b) (.inr (by simp [hq, Pc.refs]))
  have hlinks : ∃ k : Links Node, (∃ l : List (Fin NBUF), k.Ring none (l.map some) ∧ ∀ c, c ∈ l) ∧
      brelsePut s b =
        { s.setBuf b { s.buf b with refcnt := (s.buf b).refcnt - 1 } with links := k } := by
    obtain ⟨l, hring, hall⟩ := hs.ring
    simp only [brelsePut]
    split_ifs
    · exact ⟨_, ⟨b :: l.erase b, ring_toFront hring (hall b), fun c => by
        by_cases hc : c = b
        · simp [hc]
        · simp [hc, List.mem_erase_of_ne hc, hall]⟩, rfl⟩
    · exact ⟨_, ⟨l, hring, hall⟩, rfl⟩
  obtain ⟨k, hk, hput⟩ := hlinks
  rw [hput]
  simp only [St.setBuf, St.goto]
  constructor <;> try dsimp only
  case ring => exact hk
  case refs =>
    exact hs.recount (by simp [hq, Pc.refs]; omega) (fun c hc => by simp [hq, Pc.refs, Ne.symm hc])
  all_goals clear hk hput
  case fresh => grind [hs.fresh]
  case unique => grind [hs.unique]
  case asked =>
    intro r c y hr
    have := hs.asked r c y
    grind [Pc.asks]
  case locked =>
    intro r c hr
    have := hs.locked r c
    grind [Pc.reads, Pc.writes]
  case loaded =>
    intro r c hr
    have := hs.loaded r c
    grind [Pc.reads]
  case dirty_valid => grind [hs.dirty_valid]
  case touched =>
    intro c hc
    have := hs.touched c
    grind [Pc.reads, Pc.writes]
  case queued =>
    intro c hc
    have := hs.queued c hc
    grind [Pc.waits]
  case queue_nodup => exact hs.queue_nodup
  case writing => grind [hs.writing]
  case reading => grind [hs.reading]
  case started => grind [hs.started]
  case latest => grind [hs.latest]
  case clean => grind [hs.clean]
  case uncached =>
    intro y hy
    refine hs.uncached y fun c hc => ?_
    have := hy c
    grind [Buf.caches]
  case answered => exact hs.answered

/-- A process is in one call for one buffer at a time. -/
theorem Pc.busy {pc : Pc} {b : Fin NBUF} (h : pc.reads = some b ∨ pc.writes = some b)
    (c : Fin NBUF) : (pc.reads = some c → c = b) ∧ (pc.waits = some c → c = b) ∧
      pc.refs c = false := by
  cases pc with
  | iderw d reading => cases reading <;> simp_all [Pc.reads, Pc.writes, Pc.waits, Pc.refs]
  | ideWait d reading => cases reading <;> simp_all [Pc.reads, Pc.writes, Pc.waits, Pc.refs]
  | _ => simp_all [Pc.reads, Pc.writes, Pc.waits, Pc.refs]

/-- `q` moves on inside `bread` or `bwrite`, or returns from it. -/
theorem Inv.walk {image : ℕ → δ} {s : St ι δ} {h : History δ} (hs : Inv image s h) {q : ι}
    {b : Fin NBUF} {pc : Pc} (hq : (s.pc q).reads = some b ∨ (s.pc q).writes = some b)
    (hqueue : b ∉ s.idequeue)
    (hpc : pc = .user ∧ (s.buf b).valid = true ∨
      ∃ x, s.pc q = .bread b x ∧ pc = .iderw b (some x) ∧ (s.buf b).valid = false) :
    Inv image (s.goto q pc) h := by
  have hlock := hs.locked q b hq
  have hbusy := Pc.busy hq
  have hrefs : ∀ c, (s.pc q).refs c = pc.refs c := by
    intro c
    have hold := (hbusy c).2.2
    have hnew : pc.refs c = false := by
      rcases hpc with ⟨rfl, -⟩ | ⟨x, -, rfl, -⟩ <;> rfl
    rw [hold, hnew]
  have hcount := hs.recount (q := q) (p := pc) (b := b) (v := s.buf b) (by rw [hrefs b])
    fun c _ => hrefs c
  rw [Function.update_eq_self] at hcount
  simp only [St.goto]
  constructor <;> try dsimp only
  case ring => exact hs.ring
  case refs => exact hcount
  all_goals clear hcount hrefs
  case fresh => exact hs.fresh
  case unique => exact hs.unique
  case asked =>
    intro r c y hr
    have := hs.asked r c y
    grind [Pc.asks]
  case locked =>
    intro r c hr
    have := hs.locked r c
    grind [Pc.reads, Pc.writes]
  case loaded =>
    intro r c hr
    have := hs.loaded r c hr
    have := (hbusy c).1
    grind [Pc.reads]
  case dirty_valid => exact hs.dirty_valid
  case touched =>
    intro c hc
    have := hs.touched c hc
    grind [Pc.reads, Pc.writes]
  case queued =>
    intro c hc
    have := hs.queued c hc
    have := (hbusy c).2.1
    grind [Pc.waits]
  case queue_nodup => exact hs.queue_nodup
  case writing => grind [hs.writing]
  case reading => grind [hs.reading]
  case started => exact hs.started
  case latest => exact hs.latest
  case clean => exact hs.clean
  case uncached => exact hs.uncached
  case answered => exact hs.answered

omit [DecidableEq ι] in
theorem Inv.answer {image : ℕ → δ} {s : St ι δ} {h : History δ} (hs : Inv image s h) {x : ℕ}
    {v : δ} (hv : v = lastWritten image h.log x) :
    Inv image s { h with log := .returned x v :: h.log } :=
  { hs with
    answered := by
      intro l₁ y w l₂ hl
      cases l₁ with
      | nil =>
        obtain ⟨⟨rfl, rfl⟩, rfl⟩ := by simpa using hl
        exact hv
      | cons e l₁ => exact hs.answered l₁ y w l₂ (List.cons.inj hl).2 }

omit [DecidableEq ι] in
/-- The disk starts on the first request of a queue of waiting processes. -/
theorem Inv.start {image : ℕ → δ} {s : St ι δ} {h : History δ}
    (hs : Inv image { s with idequeue := [] } h) (hnodup : s.idequeue.Nodup)
    (hqueued : ∀ b ∈ s.idequeue, (s.buf b).lock ≠ none ∧
      ∀ q, (s.buf b).lock = some q → (s.pc q).waits = some b)
    (hflags : ∀ q b reading, s.pc q = .ideWait b reading → b ∈ s.idequeue →
      (reading = none → (s.buf b).dirty = true) ∧ (reading ≠ none → (s.buf b).valid = false))
    {b : Fin NBUF} (hb : s.idequeue.head? = some b) :
    Inv image (idestart s b) h := by
  have hdisk : ∃ disk : ℕ → δ, idestart s b = { s with disk := disk } ∧
      ((s.buf b).dirty = true ∧ disk = Function.update s.disk (s.buf b).blockno (s.buf b).data ∨
        (s.buf b).dirty = false ∧ disk = s.disk) := by
    unfold idestart
    split_ifs with hd
    · exact ⟨_, rfl, .inl ⟨hd, rfl⟩⟩
    · exact ⟨_, rfl, .inr ⟨by simpa using hd, rfl⟩⟩
  obtain ⟨disk, hstart, hor⟩ := hdisk
  rw [hstart]
  have hfresh := hs.fresh
  have hunique := hs.unique
  have hvalid := hs.dirty_valid
  dsimp only at hfresh hunique hvalid
  constructor <;> try dsimp only
  case ring => exact hs.ring
  case refs => exact hs.refs
  case fresh => exact hs.fresh
  case unique => exact hs.unique
  case asked => exact hs.asked
  case locked => exact hs.locked
  case loaded => exact hs.loaded
  case dirty_valid => exact hs.dirty_valid
  case touched => exact hs.touched
  case queued => exact hqueued
  case queue_nodup => exact hnodup
  case writing =>
    intro q c hq
    have := hs.writing q c
    grind
  case reading =>
    intro q c x hq
    have := hs.reading q c x
    grind
  case started =>
    intro c hc hd
    obtain rfl : b = c := Option.some.inj (hb.symm.trans hc)
    rcases hor with ⟨-, rfl⟩ | ⟨hclean, -⟩
    · simp
    · simp [hd] at hclean
  case latest => exact hs.latest
  case clean =>
    intro c hc hd ht
    have hsame : s.disk (s.buf c).blockno = (s.buf c).data := hs.clean c hc hd ht
    have := hunique c b
    rcases hor with ⟨hdirty, rfl⟩ | ⟨-, rfl⟩
    · grind
    · exact hsame
  case uncached =>
    intro y hy
    have hsame : s.disk y = lastWritten image h.log y := hs.uncached y hy
    have := hy b
    rcases hor with ⟨hdirty, rfl⟩ | ⟨-, rfl⟩
    · grind [Buf.caches]
    · exact hsame
  case answered => exact hs.answered

/-- The disk is done with the first request, and with nothing else. -/
theorem Inv.completed {image : ℕ → δ} {s : St ι δ} {h : History δ} (hs : Inv image s h)
    {b : Fin NBUF} {rest : List (Fin NBUF)} (hqueue : s.idequeue = b :: rest) :
    Inv image ({ s with idequeue := [] }.setBuf b { s.buf b with
      data := if (s.buf b).dirty then (s.buf b).data else s.disk (s.buf b).blockno
      valid := true, dirty := false }) h := by
  obtain ⟨hlock, hwait⟩ := hs.queued b (by simp [hqueue])
  obtain ⟨q, hlock⟩ := Option.ne_none_iff_exists'.mp hlock
  have hwait := hwait q hlock
  have hdev : (s.buf b).dev = ROOTDEV := by
    by_contra hne
    have := hs.refcnt_pos (.inl hlock)
    have := (hs.fresh b hne).2.2
    omega
  have htouched : h.touched b = false := by
    by_contra ht
    have := (hs.touched b (by simpa using ht)).2 q hlock
    cases hp : s.pc q with
    | ideWait c reading => cases reading <;> simp_all [Pc.waits, Pc.reads, Pc.writes]
    | _ => simp_all [Pc.waits]
  have hdata : s.disk (s.buf b).blockno =
        (if (s.buf b).dirty then (s.buf b).data else s.disk (s.buf b).blockno) ∧
      s.disk (s.buf b).blockno = lastWritten image h.log (s.buf b).blockno := by
    by_cases hd : (s.buf b).dirty = true
    · have hst := hs.started b (by simp [hqueue]) hd
      rw [hst, if_pos hd]
      exact ⟨rfl, hs.latest b (hs.dirty_valid b hd) htouched⟩
    · refine ⟨by simp [hd], hs.uncached _ fun c hc => ?_⟩
      obtain rfl : c = b := hs.unique c b (by grind [Buf.caches]) hdev (by grind [Buf.caches])
      cases hp : s.pc q with
      | ideWait c' reading =>
        obtain rfl : c' = c := by simpa [hp, Pc.waits] using hwait
        cases reading with
        | none => exact absurd (hs.writing q c' (.inr ⟨hp, by simp [hqueue]⟩)) hd
        | some x => exact hs.reading q c' x (.inr ⟨hp, by simp [hqueue]⟩)
      | _ => simp [hp, Pc.waits] at hwait
  obtain ⟨hdisk, hlast⟩ := hdata
  have hcount := hs.recount (q := q) (p := s.pc q) (b := b) (v := { s.buf b with
      data := if (s.buf b).dirty then (s.buf b).data else s.disk (s.buf b).blockno
      valid := true, dirty := false }) rfl fun c _ => rfl
  rw [Function.update_eq_self] at hcount
  generalize (if (s.buf b).dirty then (s.buf b).data else s.disk (s.buf b).blockno) = data at *
  simp only [St.setBuf]
  constructor <;> try dsimp only
  case ring => exact hs.ring
  case refs => exact hcount
  all_goals clear hcount
  case fresh => grind [hs.fresh]
  case unique => grind [hs.unique]
  case asked =>
    intro r c y hr
    have := hs.asked r c y hr
    grind
  case locked =>
    intro r c hr
    have := hs.locked r c hr
    grind
  case loaded =>
    intro r c hr
    have := hs.loaded r c
    grind
  case dirty_valid => grind [hs.dirty_valid]
  case touched =>
    intro c hc
    have := hs.touched c hc
    grind
  case queued => simp
  case queue_nodup => simp
  case writing =>
    intro r c hr
    have := hs.writing r c
    have := hs.locked r c
    grind [Pc.writes, Pc.waits]
  case reading =>
    intro r c y hr
    have := hs.reading r c y
    have := hs.locked r c
    grind [Pc.reads, Pc.waits]
  case started => simp
  case latest =>
    intro c hc ht
    have := hs.latest c
    grind
  case clean =>
    intro c hc hd ht
    have := hs.clean c
    grind
  case uncached =>
    intro y hy
    refine hs.uncached y fun c hc => ?_
    have := hy c
    grind [Buf.caches]
  case answered => exact hs.answered

theorem Inv.interrupted {image : ℕ → δ} {s : St ι δ} {h : History δ} (hs : Inv image s h) :
    Inv image (ideintr s) h := by
  cases hqueue : s.idequeue with
  | nil => simpa only [ideintr, hqueue] using hs
  | cons b rest =>
    have hdone := hs.completed hqueue
    have hnodup := hs.queue_nodup
    rw [hqueue] at hnodup
    have hb : b ∉ rest := (List.nodup_cons.mp hnodup).1
    cases rest with
    | nil => simpa only [ideintr, hqueue] using hdone
    | cons c rest =>
      simp only [ideintr, hqueue]
      refine Inv.start hdone (List.nodup_cons.mp hnodup).2 (fun d hd => ?_)
        (fun q d reading hq hd => ?_) rfl
      · have hd : d ∈ c :: rest := hd
        have hdb : d ≠ b := by grind
        simpa [St.setBuf, hdb] using hs.queued d (by rw [hqueue]; exact List.mem_cons_of_mem b hd)
      · have hd : d ∈ c :: rest := hd
        have hdb : d ≠ b := by grind
        have hmem : d ∈ s.idequeue := by rw [hqueue]; exact List.mem_cons_of_mem b hd
        have hq : s.pc q = .ideWait d reading := hq
        cases reading with
        | none => simpa [St.setBuf, hdb] using hs.writing q d (.inr ⟨hq, hmem⟩)
        | some x => simpa [St.setBuf, hdb] using hs.reading q d x (.inr ⟨hq, hmem⟩)

/-- `q` waits for the disk, its request being in the queue or about to be. -/
theorem Inv.await {image : ℕ → δ} {s : St ι δ} {h : History δ} (hs : Inv image s h) {q : ι}
    {b : Fin NBUF} {reading : Option ℕ} (hq : s.pc q = .iderw b reading)
    (queue : List (Fin NBUF)) (hnodup : queue.Nodup)
    (hmem : ∀ c ∈ queue, c ∈ s.idequeue ∨ c = b)
    (hhead : ∀ c, queue.head? = some c → s.idequeue.head? = some c) :
    Inv image ({ s with idequeue := queue }.goto q (.ideWait b reading)) h := by
  have hread : (s.pc q).reads = some b ∨ (s.pc q).writes = some b := by
    cases reading <;> simp [hq, Pc.reads, Pc.writes]
  have hlock := hs.locked q b hread
  have hbusy := Pc.busy hread
  have hcount := hs.recount (q := q) (p := .ideWait b reading) (b := b) (v := s.buf b)
    (by simp [hq, Pc.refs]) (fun c _ => by simp [hq, Pc.refs])
  rw [Function.update_eq_self] at hcount
  simp only [St.goto]
  constructor <;> try dsimp only
  case ring => exact hs.ring
  case refs => exact hcount
  all_goals clear hcount
  case fresh => exact hs.fresh
  case unique => exact hs.unique
  case asked =>
    intro r c y hr
    have := hs.asked r c y
    cases reading <;> grind [Pc.asks]
  case locked =>
    intro r c hr
    have := hs.locked r c
    cases reading <;> grind [Pc.reads, Pc.writes]
  case loaded =>
    intro r c hr
    have := hs.loaded r c hr
    cases reading <;> grind [Pc.reads]
  case dirty_valid => exact hs.dirty_valid
  case touched =>
    intro c hc
    have := hs.touched c hc
    cases reading <;> grind [Pc.reads, Pc.writes]
  case queued =>
    intro c hc
    have := hs.queued c
    have := (hbusy c).2.1
    have := hmem c hc
    grind [Pc.waits]
  case queue_nodup => exact hnodup
  case writing =>
    intro r c hr
    have := hs.writing r c
    have := hs.writing q b
    have := hs.locked r c
    have := hmem c
    grind [Pc.writes]
  case reading =>
    intro r c y hr
    have := hs.reading r c y
    have := hs.reading q b
    have := hs.locked r c
    have := hmem c
    grind [Pc.reads]
  case started =>
    intro c hc
    exact hs.started c (hhead c hc)
  case latest => exact hs.latest
  case clean => exact hs.clean
  case uncached => exact hs.uncached
  case answered => exact hs.answered

theorem idestart_goto (s : St ι δ) (b : Fin NBUF) (q : ι) (pc : Pc) :
    (idestart s b).goto q pc = idestart (s.goto q pc) b := by
  unfold idestart
  split_ifs <;> simp_all [St.goto]

/-- `iderw` appends its buffer to the queue. -/
theorem Inv.enqueued {image : ℕ → δ} {s t : St ι δ} {h : History δ} (hs : Inv image s h) {q : ι}
    {b : Fin NBUF} {reading : Option ℕ} (hq : s.pc q = .iderw b reading)
    (ht : iderw s q b reading = some t) : Inv image t h := by
  obtain ⟨hok, ht⟩ := Option.ite_none_left_eq_some.mp ht
  obtain rfl := Option.some.inj ht
  have hlock : (s.buf b).lock = some q := by simpa using (not_or.mp hok).1
  have hnot : b ∉ s.idequeue := fun hmem => by
    have := (hs.queued b hmem).2 q hlock
    simp [hq, Pc.waits] at this
  cases hqueue : s.idequeue with
  | nil =>
    have hwait := hs.await hq [] List.nodup_nil (by simp) (by simp)
    simp only [List.nil_append, List.head?_cons, if_true]
    rw [idestart_goto]
    refine Inv.start hwait (by simp [St.goto]) ?_ ?_ rfl
    · intro c hc
      obtain rfl : c = b := by simpa [St.goto] using hc
      refine ⟨by simp [St.goto, hlock], fun r hr => ?_⟩
      obtain rfl : q = r := Option.some.inj (hlock.symm.trans hr)
      simp [St.goto, Pc.waits]
    · intro r c reading' hr hc
      obtain rfl : c = b := by simpa [St.goto] using hc
      by_cases hrq : r = q
      · subst hrq
        obtain rfl : reading = reading' := by simpa [St.goto] using hr
        cases reading with
        | none => exact ⟨fun _ => hs.writing r c (.inl hq), by simp⟩
        | some x => exact ⟨by simp, fun _ => hs.reading r c x (.inl hq)⟩
      · have hother : s.pc r = .ideWait c reading' := by simpa [St.goto, hrq] using hr
        have := hs.locked r c (by cases reading' <;> simp [hother, Pc.reads, Pc.writes])
        exact absurd (Option.some.inj (this.symm.trans hlock)) hrq
  | cons c rest =>
    have hne : c ≠ b := by grind
    simp only [List.cons_append, List.head?_cons, Option.some.injEq, hne, if_false]
    refine hs.await hq (c :: (rest ++ [b])) ?_ ?_ ?_
    · have := hs.queue_nodup
      grind
    · grind
    · simp [hqueue]

omit [DecidableEq ι] in
/-- The data of the buffer `bread` is about to return. -/
theorem Inv.fetched {image : ℕ → δ} {s : St ι δ} {h : History δ} (hs : Inv image s h) {q : ι}
    {b : Fin NBUF} {x : ℕ} (hasks : (s.pc q).asks = some (b, x)) (hread : (s.pc q).reads = some b)
    (hv : (s.buf b).valid = true) : (s.buf b).data = lastWritten image h.log x := by
  have hlock := hs.locked q b (.inl hread)
  have ht : h.touched b = false := by
    by_contra ht
    exact ((hs.touched b (by simpa using ht)).2 q hlock).1 hread
  rw [← hs.asked q b x hasks]
  exact hs.latest b hv ht

theorem Inv.stepOf {image : ℕ → δ} {s t : St ι δ} {h : History δ} (hs : Inv image s h) {q : ι}
    (ht : stepOf s q = some t) : Inv image t (record s (.step q) h) := by
  unfold BufferCache.stepOf at ht
  cases hpc : s.pc q with
  | user => simp [hpc] at ht
  | bget b x =>
    simp only [hpc] at ht
    obtain ⟨hfree, ht⟩ := Option.ite_none_right_eq_some.mp ht
    obtain rfl := Option.some.inj ht
    simpa only [record, returns, hpc] using hs.acquired hpc hfree
  | bread b x =>
    simp only [hpc] at ht
    obtain rfl := Option.some.inj ht
    have hread : (s.pc q).reads = some b := by simp [hpc, Pc.reads]
    have hlock := hs.locked q b (.inl hread)
    have hqueue : b ∉ s.idequeue := fun hmem => by
      have := (hs.queued b hmem).2 q hlock
      simp [hpc, Pc.waits] at this
    by_cases hv : (s.buf b).valid = true
    · have hdata := hs.fetched (by rw [hpc]; rfl) hread hv
      simp only [record, returns, hpc, hv, if_true]
      exact (hs.walk (.inl hread) hqueue (.inl ⟨rfl, hv⟩)).answer hdata
    · simp only [record, returns, hpc, hv]
      exact hs.walk (.inl hread) hqueue (.inr ⟨x, hpc, rfl, by simpa using hv⟩)
  | iderw b reading =>
    simp only [hpc] at ht
    simpa only [record, returns, hpc] using hs.enqueued hpc ht
  | ideWait b reading =>
    simp only [hpc] at ht
    obtain ⟨hdone, ht⟩ := Option.ite_none_right_eq_some.mp ht
    obtain rfl := Option.some.inj ht
    obtain ⟨hv, hclean⟩ : (s.buf b).valid = true ∧ (s.buf b).dirty = false := by simpa using hdone
    have hqueue : b ∉ s.idequeue := fun hmem => by
      cases reading with
      | none => simp [hs.writing q b (.inr ⟨hpc, hmem⟩)] at hclean
      | some x => simp [hs.reading q b x (.inr ⟨hpc, hmem⟩)] at hv
    cases reading with
    | none =>
      simpa only [record, returns, hpc] using
        hs.walk (.inr (by simp [hpc, Pc.writes])) hqueue (.inl ⟨rfl, hv⟩)
    | some x =>
      have hread : (s.pc q).reads = some b := by simp [hpc, Pc.reads]
      have hdata := hs.fetched (by rw [hpc]; rfl) hread hv
      simp only [record, returns, hpc]
      exact (hs.walk (.inl hread) hqueue (.inl ⟨rfl, hv⟩)).answer hdata
  | brelse b =>
    simp only [hpc] at ht
    obtain rfl := Option.some.inj ht
    simpa only [record, returns, hpc] using hs.put hpc

theorem Inv.next {image : ℕ → δ} {s t : St ι δ} {h : History δ} {e : Event ι δ}
    (hs : Inv image s h) (ht : next s e = some t) (hw : Written h e) :
    Inv image t (record s e h) := by
  cases e with
  | bread q x =>
    obtain ⟨⟨hq, -⟩, ht⟩ := Option.ite_none_right_eq_some.mp ht
    obtain ⟨l, hl⟩ := hs.ring
    rcases bget_cases hl ht with ⟨b, hb, rfl⟩ | ⟨hnone, b, hb, hclean, rfl⟩
    · exact hs.found hq hb
    · exact hs.recycled hq hnone hb hclean
  | modify q b v =>
    obtain ⟨hq, ht⟩ := Option.ite_none_right_eq_some.mp ht
    obtain rfl := Option.some.inj ht
    exact hs.modified hq
  | logWrite q b =>
    obtain ⟨hq, ht⟩ := Option.ite_none_right_eq_some.mp ht
    obtain rfl := Option.some.inj ht
    have hwrote := hs.wrote hq (.inl rfl)
    rwa [show (s.setBuf b { s.buf b with dirty := true }).goto q .user =
      s.setBuf b { s.buf b with dirty := true } by simp [St.goto, St.setBuf, ← hq.1]] at hwrote
  | bwrite q b =>
    obtain ⟨hq, ht⟩ := Option.ite_none_right_eq_some.mp ht
    obtain rfl := Option.some.inj ht
    exact hs.wrote hq (.inr rfl)
  | brelse q b =>
    obtain ⟨hq, ht⟩ := Option.ite_none_right_eq_some.mp ht
    obtain rfl := Option.some.inj ht
    exact hs.released hq hw
  | step q => exact hs.stepOf ht
  | ideintr =>
    obtain rfl := Option.some.inj ht
    exact hs.interrupted

theorem runs_inv {image : ℕ → δ} {s : St ι δ} {h : History δ}
    (hr : (runs image).Reachable (s, h)) : Inv image s h := by
  refine hr.invariant (I := fun p => Inv image p.1 p.2) ?_ ?_
  · rintro ⟨s, h⟩ ⟨hinit, rfl⟩
    exact Inv.init hinit
  · rintro ⟨s, h⟩ e ⟨t, h'⟩ hs ⟨⟨ht, rfl⟩, hw⟩
    exact hs.next ht hw

/-- The buffers keep their blocks from `s` to `t`. -/
def St.SameBlocks (s t : St ι δ) : Prop :=
  ∀ b, (t.buf b).dev = (s.buf b).dev ∧ (t.buf b).blockno = (s.buf b).blockno

omit [DecidableEq ι] in
theorem sameBlocks_setBuf {s : St ι δ} {b : Fin NBUF} {v : Buf ι δ}
    (hv : v.dev = (s.buf b).dev ∧ v.blockno = (s.buf b).blockno) : s.SameBlocks (s.setBuf b v) := by
  intro c
  by_cases hc : c = b
  · subst hc
    simpa [St.setBuf] using hv
  · simp [St.setBuf, hc]

omit [DecidableEq ι] in
theorem idestart_buf (s : St ι δ) (b : Fin NBUF) : (idestart s b).buf = s.buf := by
  unfold idestart
  split_ifs <;> rfl

omit [DecidableEq ι] in
theorem ideintr_sameBlocks (s : St ι δ) : s.SameBlocks (ideintr s) := by
  cases hqueue : s.idequeue with
  | nil => simp [ideintr, hqueue, St.SameBlocks]
  | cons b rest =>
    have hset := sameBlocks_setBuf (s := { s with idequeue := rest }) (b := b)
      (v := { s.buf b with
        data := if (s.buf b).dirty then (s.buf b).data else s.disk (s.buf b).blockno
        valid := true, dirty := false }) ⟨rfl, rfl⟩
    cases rest with
    | nil =>
      simp only [ideintr, hqueue]
      exact hset
    | cons c rest =>
      simp only [ideintr, hqueue, St.SameBlocks, idestart_buf]
      exact hset

theorem stepOf_sameBlocks {s t : St ι δ} {q : ι} (ht : stepOf s q = some t) : s.SameBlocks t := by
  unfold stepOf at ht
  cases hpc : s.pc q with
  | user => simp [hpc] at ht
  | bget b x =>
    simp only [hpc] at ht
    obtain ⟨-, ht⟩ := Option.ite_none_right_eq_some.mp ht
    obtain rfl := Option.some.inj ht
    exact sameBlocks_setBuf (s := s) ⟨rfl, rfl⟩
  | bread b x =>
    simp only [hpc] at ht
    obtain rfl := Option.some.inj ht
    exact fun _ => ⟨rfl, rfl⟩
  | iderw b reading =>
    simp only [hpc] at ht
    obtain ⟨-, ht⟩ := Option.ite_none_left_eq_some.mp ht
    obtain rfl := Option.some.inj ht
    intro c
    simp only [St.goto]
    split_ifs <;> simp [idestart_buf]
  | ideWait b reading =>
    simp only [hpc] at ht
    obtain ⟨-, ht⟩ := Option.ite_none_right_eq_some.mp ht
    obtain rfl := Option.some.inj ht
    exact fun _ => ⟨rfl, rfl⟩
  | brelse b =>
    simp only [hpc] at ht
    obtain rfl := Option.some.inj ht
    have hset := sameBlocks_setBuf (s := s) (b := b)
      (v := { s.buf b with refcnt := (s.buf b).refcnt - 1 }) ⟨rfl, rfl⟩
    simp only [brelsePut]
    split_ifs <;> exact hset

/-- A buffer that is referenced or dirty is not recycled. -/
theorem next_identity {s t : St ι δ} {e : Event ι δ} {l : List (Fin NBUF)} (hl : s.Lru l)
    (ht : next s e = some t) {b : Fin NBUF}
    (hb : 0 < (s.buf b).refcnt ∨ (s.buf b).dirty = true) :
    (t.buf b).dev = (s.buf b).dev ∧ (t.buf b).blockno = (s.buf b).blockno := by
  cases e with
  | bread q x =>
    obtain ⟨-, ht⟩ := Option.ite_none_right_eq_some.mp ht
    rcases bget_cases hl ht with ⟨c, -, rfl⟩ | ⟨-, c, hc, hclean, rfl⟩
    · exact sameBlocks_setBuf (s := s) (b := c)
        (v := { s.buf c with refcnt := (s.buf c).refcnt + 1 }) ⟨rfl, rfl⟩ b
    · have hne : b ≠ c := by
        rintro rfl
        simp [hc, hclean] at hb
      simp [St.goto, St.setBuf, hne]
  | modify q c v | logWrite q c | bwrite q c | brelse q c =>
    obtain ⟨-, ht⟩ := Option.ite_none_right_eq_some.mp ht
    obtain rfl := Option.some.inj ht
    by_cases hbc : b = c
    · subst hbc
      simp [St.goto, St.setBuf]
    · simp [St.goto, St.setBuf, hbc]
  | step q => exact stepOf_sameBlocks ht b
  | ideintr =>
    obtain rfl := Option.some.inj ht
    exact ideintr_sameBlocks s b

/-- The ring visits every buffer once, no block is in two buffers, a buffer in use or dirty keeps
its block, and `bread` returns what was last written. -/
theorem buffer_cache {image : ℕ → δ} {s : St ι δ} {h : History δ}
    (hr : (runs image).Reachable (s, h)) :
    (∃ l : List (Fin NBUF), s.links.Ring none (l.map some) ∧ ∀ b, b ∈ l) ∧
      (∀ b c, (s.buf b).dev = ROOTDEV → (s.buf c).dev = ROOTDEV →
        (s.buf b).blockno = (s.buf c).blockno → b = c) ∧
      (∀ e t b, next s e = some t → 0 < (s.buf b).refcnt ∨ (s.buf b).dirty = true →
        (t.buf b).dev = (s.buf b).dev ∧ (t.buf b).blockno = (s.buf b).blockno) ∧
      ∀ l₁ x v l₂, h.log = l₁ ++ .returned x v :: l₂ → v = lastWritten image l₂ x := by
  have hs := runs_inv hr
  obtain ⟨l, hl⟩ := hs.ring
  exact ⟨⟨l, hl⟩, hs.unique, fun e t b ht hb => next_identity hl ht hb, hs.answered⟩

/-- Cold buffers over a disk of zeros. -/
def cold : St (Fin 2) ℕ where
  disk _ := 0
  buf _ := ⟨false, false, 0, 0, 0, none, 0⟩
  links := binit
  idequeue := []
  pc _ := .user

/-- Process 0 logs a 5 in block 7, process 1 reads the block. -/
def logThenRead : List (Event (Fin 2) ℕ) :=
  [.bread 0 7, .step 0, .step 0, .step 0, .ideintr, .step 0, .modify 0 0 5, .logWrite 0 0,
    .bread 1 7, .brelse 0 0, .step 0, .step 1, .step 1]

def logged : List (Entry ℕ) := [.returned 7 5, .wrote 7 5, .returned 7 0]

theorem logThenRead_reaches :
    ∃ p, (runs fun _ => 0).Reachable (p : St (Fin 2) ℕ × History ℕ) ∧ p.2.log = logged := by
  unfold runs system
  rw [observe_ofNext]
  apply reachable_of_runNext (s := (cold, ⟨[], fun _ => false⟩)) 
  · exact ⟨⟨rfl, rfl, rfl, fun _ => rfl, fun _ => ⟨rfl, rfl, rfl, rfl, rfl⟩⟩, rfl⟩
  · show (runNext _ _ logThenRead).any _ = true
    decide +kernel

theorem buffer_cache_log : ∃ (s : St (Fin 2) ℕ) (h : History ℕ),
    (runs fun _ => 0).Reachable (s, h) ∧ h.log = logged ∧
      5 = lastWritten (fun _ => 0) [.wrote 7 5, .returned 7 0] 7 := by
  obtain ⟨⟨s, h⟩, hreach, hlog⟩ := logThenRead_reaches
  exact ⟨s, h, hreach, hlog, (buffer_cache hreach).2.2.2 [] 7 5 _ hlog⟩

end Ostep.BufferCache

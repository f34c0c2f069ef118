import Ostep.PageTables
import Ostep.Hoare
import Ostep.Ownership
import Mathlib.Data.Nat.Bitwise

/-!
# Who holds a page

Every page that the allocator manages is free or in one place: it is a page directory, a page
table of one, a user page that one maps, the page that a running function has allocated and not
yet mapped, or it is held elsewhere in the kernel. `own` reads the places off the memory, given
the directories in use. What is not a directory or a table may be written without changing them.
-/

namespace Ostep.PageTables
open ByteWords Hoare Ownership

/-! ## Bits of an entry -/

abbrev Present (e : ℕ) : Prop := e &&& PTE_P ≠ 0
abbrev User (e : ℕ) : Prop := e &&& PTE_U ≠ 0

theorem present_iff (e : ℕ) : Present e ↔ e.testBit 0 = true := by
  have h := Nat.and_two_pow e 0
  change e &&& 1 = _ at h
  rw [Present, h]
  cases e.testBit 0 <;> simp

theorem user_iff (e : ℕ) : User e ↔ e.testBit 2 = true := by
  have h := Nat.and_two_pow e 2
  change e &&& 4 = _ at h
  rw [User, h]
  cases e.testBit 2 <;> simp

variable {b perm e : ℕ}

theorem not_present_zero : ¬ Present 0 := by decide

theorem pageOf_entry (hp : perm < PGSIZE) : pageOf (b * PGSIZE ||| perm) = b := by
  have h := Nat.two_pow_add_eq_or_of_lt (i := 12) hp b
  change perm < 4096 at hp
  rw [pageOf, Nat.mul_comm, show PGSIZE = 2 ^ 12 from rfl, ← h]
  omega

theorem pageOf_pte (hp : perm < PGSIZE) : pageOf (b * PGSIZE ||| perm ||| PTE_P) = b := by
  rw [Nat.or_assoc]
  exact pageOf_entry (Nat.or_lt_two_pow (n := 12) hp (by decide))

theorem entry_lt (hb : b < 2 ^ 20) (hp : perm < PGSIZE) : b * PGSIZE ||| perm < 2 ^ 32 :=
  Nat.or_lt_two_pow (by change b * 4096 < _; omega) (by change perm < 4096 at hp; omega)

theorem present_entry : Present (e ||| PTE_P) := by
  rw [present_iff, Nat.testBit_or]
  simp

theorem user_entry : User (b * PGSIZE ||| perm ||| PTE_P) ↔ User perm := by
  have h : (b * 2 ^ 12).testBit 2 = false := by
    rw [Nat.testBit_mul_two_pow]
    simp
  have h1 : (1 : ℕ).testBit 2 = false := by decide
  rw [user_iff, user_iff, Nat.testBit_or, Nat.testBit_or, show PGSIZE = 2 ^ 12 from rfl, h,
    show PTE_P = 1 from rfl, h1]
  simp

/-! `*pte &= ~PTE_U` -/

theorem present_clear :
    Present (e &&& (2 ^ 32 - 1 - PTE_U)) ↔ Present e := by
  have h : (2 ^ 32 - 1 - 4 : ℕ).testBit 0 = true := by decide
  rw [present_iff, present_iff, Nat.testBit_and, h, Bool.and_true]

theorem not_user_clear : ¬ User (e &&& (2 ^ 32 - 1 - PTE_U)) := by
  have h : (2 ^ 32 - 1 - 4 : ℕ).testBit 2 = false := by decide
  rw [user_iff, Nat.testBit_and, h, Bool.and_false]
  simp

theorem pageOf_clear (he : e < 2 ^ 32) : pageOf (e &&& (2 ^ 32 - 1 - PTE_U)) = pageOf e := by
  have h : (2 ^ 32 - 1 - 4 : ℕ) >>> 12 = 2 ^ 20 - 1 := by decide
  rw [pageOf, pageOf, show PGSIZE = 2 ^ 12 from rfl, ← Nat.shiftRight_eq_div_pow,
    ← Nat.shiftRight_eq_div_pow, Nat.shiftRight_and_distrib, h,
    Nat.and_two_pow_sub_one_of_lt_two_pow]
  rw [Nat.shiftRight_eq_div_pow]
  omega
/-! ## What a page directory maps -/

/-- The page numbers below `KERNBASE`. -/
abbrev USERPAGES : ℕ := 2 ^ 19

/-- The page table for the `d`-th four megabytes; 0 when there is none. -/
def Mem.table (s : Mem) (r d : ℕ) : ℕ :=
  if d < NPDENTRIES ∧ Present (s.read (r, d)) then pageOf (s.read (r, d)) else 0

/-- The entry for the page number `vp`; 0 when there is no page table for it. -/
def Mem.pte (s : Mem) (r vp : ℕ) : ℕ :=
  if s.table r (vp / 1024) = 0 then 0 else s.read (s.table r (vp / 1024), vp % 1024)

/-- The entry that the hardware finds for the address `va`, if there is a page table for it. -/
def Mem.lookup (s : Mem) (r va : ℕ) : Option ℕ :=
  if Present (s.read (r, PDX va)) then some (s.read (pageOf (s.read (r, PDX va)), PTX va))
  else none

/-- The page that a user page is mapped to; 0 when it is not mapped. -/
def Mem.frame (s : Mem) (r vp : ℕ) : ℕ :=
  if vp < USERPAGES ∧ Present (s.pte r vp) then pageOf (s.pte r vp) else 0

section Views
variable {s : Mem} {r f d vp x : ℕ} {p : Ptr} {v : Bytes}

@[simp] theorem setPage_freelist : (s.setPage f v).freelist = s.freelist := rfl
@[simp] theorem write_freelist : (s.write p x).freelist = s.freelist := rfl
@[simp] theorem setPage_page_self : (s.setPage f v).page f = v := Function.update_self ..

theorem setPage_page_of_ne {g : ℕ} (h : g ≠ f) : (s.setPage f v).page g = s.page g :=
  Function.update_of_ne h ..

theorem write_page_of_ne {g : ℕ} (h : g ≠ p.1) : (s.write p x).page g = s.page g :=
  setPage_page_of_ne h

theorem read_congr {t : Mem} (h : t.page p.1 = s.page p.1) : t.read p = s.read p := by
  simp only [Mem.read, h]

theorem read_lt (s : Mem) (p : Ptr) : s.read p < 2 ^ 32 := word_lt _ _

theorem read_write (hx : x < 2 ^ 32) : (s.write p x).read p = x := by
  simp only [Mem.read, Mem.write, setPage_page_self, word_setWord hx]

theorem read_write_of_ne {q : Ptr} (h : q ≠ p) : (s.write p x).read q = s.read q := by
  by_cases hp : q.1 = p.1
  · have hne : q.2 ≠ p.2 := fun he => h (Prod.ext hp he)
    simp only [Mem.read, Mem.write, hp, setPage_page_self, word_setWord_of_ne hne]
  · exact read_congr (write_page_of_ne hp)

theorem table_congr {t : Mem} (h : t.page r = s.page r) : t.table r d = s.table r d := by
  have hr : t.read (r, d) = s.read (r, d) := read_congr h
  rw [Mem.table, Mem.table, hr]

/-- The entries depend on the directory and on its page tables. -/
theorem pte_congr {t : Mem} (h : t.page r = s.page r)
    (ht : s.table r (vp / 1024) ≠ 0 →
      t.page (s.table r (vp / 1024)) = s.page (s.table r (vp / 1024))) :
    t.pte r vp = s.pte r vp := by
  simp only [Mem.pte, table_congr h]
  split_ifs with h0
  · rfl
  · exact read_congr (ht h0)

theorem frame_congr {t : Mem} (h : t.pte r vp = s.pte r vp) : t.frame r vp = s.frame r vp := by
  simp only [Mem.frame, h]

theorem table_lt (h : s.table r d ≠ 0) : d < NPDENTRIES := by
  by_contra hd
  simp [Mem.table, hd] at h

theorem pte_of_table (h : s.table r (vp / 1024) = 0) : s.pte r vp = 0 := if_pos h

theorem present_pte_table (h : Present (s.pte r vp)) : s.table r (vp / 1024) ≠ 0 :=
  fun h0 => not_present_zero (pte_of_table h0 ▸ h)

end Views

/-! ## Places -/

/-- The places a page can be in; `mem` is the local variable of that name. -/
inductive Place (ι κ : Type*) where
  | root (i : ι)
  | table (i : ι) (d : ℕ)
  | user (i : ι) (vp : ℕ)
  | mem
  | other (k : κ)
  deriving DecidableEq

variable {ι κ : Type*}

/-- What is in each place. `root` gives the page directories in use, 0 being none, and `held`
what the rest of the kernel holds. -/
def own (root : ι → ℕ) (held : κ → ℕ) (mem : ℕ) (s : Mem) : Place ι κ → ℕ
  | .root i => root i
  | .table i d => if root i = 0 then 0 else s.table (root i) d
  | .user i vp => if root i = 0 then 0 else s.frame (root i) vp
  | .mem => mem
  | .other k => held k

/-- The page behind the kernel, the first that the allocator manages. -/
def Symbols.first (L : Symbols) : ℕ := pageOf (V2P (PGROUNDUP L.endAddr))

abbrev NPAGES : ℕ := PHYSTOP / PGSIZE

def Mem.used (s : Mem) (f : ℕ) : Bool := decide (f ∉ s.freelist)

/-- What the directories and tables in use look like. -/
structure Shaped (root : ι → ℕ) (s : Mem) : Prop where
  table_ne : ∀ i d, root i ≠ 0 → d < NPDENTRIES → Present (s.read (root i, d)) →
    pageOf (s.read (root i, d)) ≠ 0
  frame_ne : ∀ i vp, root i ≠ 0 → vp < USERPAGES → Present (s.pte (root i) vp) →
    pageOf (s.pte (root i) vp) ≠ 0
  kernel : ∀ i vp, root i ≠ 0 → USERPAGES ≤ vp → Present (s.pte (root i) vp) →
    ¬ User (s.pte (root i) vp)

structure Inv (L : Symbols) (root : ι → ℕ) (held : κ → ℕ) (mem : ℕ) (s : Mem) : Prop
    extends Shaped root s where
  nodup : s.freelist.Nodup
  free_range : ∀ f ∈ s.freelist, L.first ≤ f ∧ f < NPAGES
  owns : Owns L.first NPAGES s.used (own root held mem s)

section Facts
variable {L : Symbols} {root : ι → ℕ} {held : κ → ℕ} {mem : ℕ} {s t : Mem} {i j : ι}
  {f d vp x : ℕ} {v : Bytes}

theorem used_eq_true : s.used f = true ↔ f ∉ s.freelist := by simp [Mem.used]

theorem used_eq_false : s.used f = false ↔ f ∈ s.freelist := by simp [Mem.used]

theorem Inv.not_free (h : Inv L root held mem s) {p : Place ι κ} (hp : own root held mem s p ≠ 0) :
    own root held mem s p ∉ s.freelist :=
  used_eq_true.mp (h.owns.used_own hp)

/-- The free pages are those that nobody holds. -/
theorem Inv.mem_freelist (h : Inv L root held mem s) :
    f ∈ s.freelist ↔ (L.first ≤ f ∧ f < NPAGES) ∧ ∀ p, own root held mem s p ≠ f := by
  constructor
  · exact fun hf => ⟨h.free_range f hf, h.owns.ne_own (used_eq_false.mpr hf)⟩
  · rintro ⟨hr, hno⟩
    rw [← used_eq_false, Bool.eq_false_iff, Ne, h.owns.used_iff f hr.1 hr.2]
    exact fun ⟨p, hp⟩ => hno p hp

theorem Inv.free_ne_zero (h : Inv L root held mem s) (hf : f ∈ s.freelist) : f ≠ 0 := by
  have := (h.free_range f hf).1
  have := h.owns.pos
  omega

theorem own_root (hi : root i ≠ 0) : own root held mem s (.root i) ≠ 0 := hi

theorem own_table (hi : root i ≠ 0) : own root held mem s (.table i d) = s.table (root i) d :=
  if_neg hi

theorem own_user (hi : root i ≠ 0) : own root held mem s (.user i vp) = s.frame (root i) vp :=
  if_neg hi

theorem own_present (hi : root i ≠ 0) (hvp : vp < USERPAGES) (hpres : Present (s.pte (root i) vp)) :
    own root held mem s (.user i vp : Place ι κ) = pageOf (s.pte (root i) vp) := by
  rw [own_user hi, Mem.frame, if_pos ⟨hvp, hpres⟩]

/-- The page `f` is neither the directory `r` nor a page table of it. -/
def Mem.Outside (s : Mem) (r f : ℕ) : Prop := f ≠ r ∧ ∀ d, s.table r d ≠ 0 → f ≠ s.table r d

/-- A page is no directory and no page table in use. -/
def Plain (root : ι → ℕ) (s : Mem) (f : ℕ) : Prop := ∀ i, root i ≠ 0 → s.Outside (root i) f

theorem Inv.plain_of_free (h : Inv L root held mem s) (hf : f ∈ s.freelist) : Plain root s f := by
  intro i hi
  refine ⟨?_, fun d hd => ?_⟩
  · rintro rfl
    exact h.not_free (p := .root i) hi hf
  · rintro rfl
    have hown : own root held mem s (.table i d : Place ι κ) = s.table (root i) d := own_table hi
    exact h.not_free (p := .table i d) (hown ▸ hd) (hown ▸ hf)

theorem Inv.plain_of_place (h : Inv L root held mem s) {p : Place ι κ}
    (hp : own root held mem s p = f) (hf : f ≠ 0) (hroot : ∀ i, p ≠ .root i)
    (htable : ∀ i d, p ≠ .table i d) : Plain root s f := by
  intro i hi
  refine ⟨fun he => hroot i ?_, fun d _ he => htable i d ?_⟩
  · exact h.owns.inj p (.root i) (hp.trans he) (hp ▸ hf)
  · exact h.owns.inj p (.table i d) (hp.trans (he.trans (own_table hi).symm)) (hp ▸ hf)

/-- What a user page is mapped to is in use and no directory or table. -/
theorem Inv.user_frame (h : Inv L root held mem s) (hi : root i ≠ 0) (hvp : vp < USERPAGES)
    (hp : Present (s.pte (root i) vp)) :
    pageOf (s.pte (root i) vp) ∉ s.freelist ∧ Plain root s (pageOf (s.pte (root i) vp)) := by
  have hown : own root held mem s (.user i vp : Place ι κ) = pageOf (s.pte (root i) vp) :=
    own_present hi hvp hp
  have hne := h.frame_ne i vp hi hvp hp
  exact ⟨hown ▸ h.not_free (p := .user i vp) (hown ▸ hne),
    h.plain_of_place hown hne (by simp) (by simp)⟩

/-! ## Writes that leave directories and tables alone -/

/-- The directories and page tables in use are the same pages with the same contents. -/
def Same (root : ι → ℕ) (s t : Mem) : Prop :=
  ∀ i, root i ≠ 0 → t.page (root i) = s.page (root i) ∧
    ∀ d, s.table (root i) d ≠ 0 → t.page (s.table (root i) d) = s.page (s.table (root i) d)

theorem Plain.same (h : Plain root s f) : Same root s (s.setPage f v) := fun i hi =>
  ⟨setPage_page_of_ne (h i hi).1.symm, fun d hd => setPage_page_of_ne ((h i hi).2 d hd).symm⟩

theorem Same.table (h : Same root s t) (hi : root i ≠ 0) :
    t.table (root i) d = s.table (root i) d :=
  table_congr (h i hi).1

theorem Same.pte (h : Same root s t) (hi : root i ≠ 0) : t.pte (root i) vp = s.pte (root i) vp :=
  pte_congr (h i hi).1 ((h i hi).2 _)

theorem Same.trans {u : Mem} (h : Same root s t) (k : Same root t u) : Same root s u := by
  intro i hi
  refine ⟨(k i hi).1.trans (h i hi).1, fun d hd => ?_⟩
  have hd' : t.table (root i) d = s.table (root i) d := h.table hi
  rw [← (h i hi).2 d hd, ← hd']
  exact (k i hi).2 d (hd' ▸ hd)

theorem Same.own (h : Same root s t) : own root held mem t = own root held mem s := by
  funext p
  cases p with
  | root | mem | other => rfl
  | table i d =>
    by_cases hi : root i = 0
    · simp [PageTables.own, hi]
    · simp only [PageTables.own, hi, if_false, h.table hi]
  | user i vp =>
    by_cases hi : root i = 0
    · simp [PageTables.own, hi]
    · simp only [PageTables.own, hi, if_false, frame_congr (h.pte hi)]

/-- Directories and tables are not free. -/
theorem Inv.same_of_page (h : Inv L root held mem s) (hp : ∀ g, g ∉ s.freelist → t.page g = s.page g) :
    Same root s t := by
  intro i hi
  refine ⟨hp _ (h.not_free (p := .root i) hi), fun d hd => hp _ ?_⟩
  have hown : own root held mem s (.table i d : Place ι κ) = s.table (root i) d := own_table hi
  exact hown ▸ h.not_free (p := .table i d) (hown ▸ hd)

/-- Who holds the same pages leaves the same pages free. -/
theorem Inv.free_iff (h : Inv L root held mem s) (ht : Inv L root held mem t)
    (hown : own root held mem t = own root held mem s) : f ∈ t.freelist ↔ f ∈ s.freelist := by
  rw [h.mem_freelist, ht.mem_freelist, hown]

theorem Shaped.same (hs : Shaped root s) (h : Same root s t) : Shaped root t where
  table_ne i d hi hd hp := by
    have hr : t.read (root i, d) = s.read (root i, d) := read_congr (h i hi).1
    rw [hr] at hp ⊢
    exact hs.table_ne i d hi hd hp
  frame_ne i vp hi hvp hp := by
    rw [h.pte hi] at hp ⊢
    exact hs.frame_ne i vp hi hvp hp
  kernel i vp hi hvp hp := by
    rw [h.pte hi] at hp ⊢
    exact hs.kernel i vp hi hvp hp

theorem Inv.setPage (h : Inv L root held mem s) (hf : Plain root s f) :
    Inv L root held mem (s.setPage f v) where
  toShaped := h.toShaped.same hf.same
  nodup := h.nodup
  free_range := h.free_range
  owns := by
    rw [hf.same.own]
    exact h.owns

/-! ## Writing an entry -/

def Mem.ptr (s : Mem) (r vp : ℕ) : Ptr := (s.table r (vp / 1024), vp % 1024)

theorem pte_eq_read {r : ℕ} (h : s.table r (vp / 1024) ≠ 0) : s.pte r vp = s.read (s.ptr r vp) :=
  if_neg h

/-- A page table is no directory. -/
theorem Inv.table_ne_root (h : Inv L root held mem s) (hi : root i ≠ 0) (hj : root j ≠ 0) : root j ≠ s.table (root i) d := by
  intro he
  have hown : own root held mem s (.table i d : Place ι κ) = s.table (root i) d := own_table hi
  exact absurd (h.owns.inj (.root j) (.table i d) (he.trans hown.symm) hj) (by simp)

theorem Inv.root_inj (h : Inv L root held mem s) (hi : root i ≠ 0) (he : root i = root j) :
    i = j :=
  Place.root.inj (h.owns.inj (.root i) (.root j) he hi)

theorem Inv.table_inj (h : Inv L root held mem s) (hi : root i ≠ 0) (hj : root j ≠ 0)
    (ht : s.table (root i) d ≠ 0) {e : ℕ} (he : s.table (root i) d = s.table (root j) e) :
    i = j ∧ d = e := by
  have hown : own root held mem s (.table i d : Place ι κ) = s.table (root i) d := own_table hi
  have hown' : own root held mem s (.table j e : Place ι κ) = s.table (root j) e := own_table hj
  have := h.owns.inj (.table i d) (.table j e) (hown.trans (he.trans hown'.symm)) (hown ▸ ht)
  simpa using this

section Write
variable (h : Inv L root held mem s) (hi : root i ≠ 0) (ht : s.table (root i) (vp / 1024) ≠ 0)
include h hi ht

omit ht in
theorem Inv.table_write (hj : root j ≠ 0) :
    (s.write (s.ptr (root i) vp) x).table (root j) d = s.table (root j) d :=
  table_congr (write_page_of_ne (h.table_ne_root hi hj))

theorem Inv.pte_write (hx : x < 2 ^ 32) :
    (s.write (s.ptr (root i) vp) x).pte (root i) vp = x := by
  have htab : (s.write (s.ptr (root i) vp) x).table (root i) (vp / 1024) =
      s.table (root i) (vp / 1024) := h.table_write hi hi
  have hptr : (s.write (s.ptr (root i) vp) x).ptr (root i) vp = s.ptr (root i) vp := by
    rw [Mem.ptr, htab, Mem.ptr]
  rw [pte_eq_read (htab ▸ ht), hptr]
  exact read_write hx

theorem Inv.pte_write_of_ne {vq : ℕ} (hj : root j ≠ 0) (hne : ¬ (j = i ∧ vq = vp)) :
    (s.write (s.ptr (root i) vp) x).pte (root j) vq = s.pte (root j) vq := by
  have htab : (s.write (s.ptr (root i) vp) x).table (root j) (vq / 1024) =
      s.table (root j) (vq / 1024) := h.table_write hi hj
  simp only [Mem.pte, htab]
  split_ifs with h0
  · rfl
  refine read_write_of_ne fun he => hne ?_
  obtain ⟨hp, hk⟩ := Prod.ext_iff.mp he
  obtain ⟨rfl, hd⟩ := h.table_inj hj hi h0 hp
  have hk' : vq % 1024 = vp % 1024 := hk
  exact ⟨rfl, by omega⟩

theorem Inv.own_write [DecidableEq ι] [DecidableEq κ] (hx : x < 2 ^ 32) :
    own root held mem (s.write (s.ptr (root i) vp) x) =
      Function.update (own root held mem s) (.user i vp : Place ι κ)
        (if vp < USERPAGES ∧ Present x then pageOf x else 0) := by
  funext p
  cases p with
  | root | mem | other => rfl
  | table j d =>
    by_cases hj : root j = 0
    · simp [own, hj]
    · simp only [own, hj, if_false, ne_eq, reduceCtorEq, not_false_eq_true,
        Function.update_of_ne, h.table_write hi hj]
  | user j vq =>
    by_cases he : j = i ∧ vq = vp
    · obtain ⟨rfl, rfl⟩ := he
      rw [Function.update_self, own_user hi, Mem.frame, h.pte_write hi ht hx]
    · have hne : (.user j vq : Place ι κ) ≠ .user i vp := by simpa using he
      rw [Function.update_of_ne hne]
      by_cases hj : root j = 0
      · simp [own, hj]
      · rw [own_user hj, own_user hj, frame_congr (h.pte_write_of_ne hi ht hj he)]

/-- A new entry has a page of its own below `KERNBASE` and no `PTE_U` above it. -/
theorem Inv.shaped_write (hx : x < 2 ^ 32) (huser : vp < USERPAGES → Present x → pageOf x ≠ 0)
    (hkern : USERPAGES ≤ vp → Present x → ¬ User x) :
    Shaped root (s.write (s.ptr (root i) vp) x) where
  table_ne j d hj := by
    have hr : (s.write (s.ptr (root i) vp) x).read (root j, d) = s.read (root j, d) :=
      read_congr (write_page_of_ne (h.table_ne_root hi hj))
    rw [hr]
    exact h.table_ne j d hj
  frame_ne j vq hj hvq := by
    by_cases he : j = i ∧ vq = vp
    · obtain ⟨rfl, rfl⟩ := he
      rw [h.pte_write hi ht hx]
      exact huser hvq
    · rw [h.pte_write_of_ne hi ht hj he]
      exact h.frame_ne j vq hj hvq
  kernel j vq hj hvq := by
    by_cases he : j = i ∧ vq = vp
    · obtain ⟨rfl, rfl⟩ := he
      rw [h.pte_write hi ht hx]
      exact hkern hvq
    · rw [h.pte_write_of_ne hi ht hj he]
      exact h.kernel j vq hj hvq

/-- The order of `kfree(v); *pte = 0` does not matter. -/
theorem Inv.unmap_eq (hvp : vp < USERPAGES) (hpres : Present (s.pte (root i) vp)) :
    (s.free (pageOf (s.pte (root i) vp))).write (s.ptr (root i) vp) 0 =
      (s.write (s.ptr (root i) vp) 0).free (pageOf (s.pte (root i) vp)) := by
  have hplain : Plain root s (pageOf (s.pte (root i) vp)) :=
    h.plain_of_place (own_present hi hvp hpres) (h.frame_ne i vp hi hvp hpres) (by simp)
      (by simp)
  have hptr : (s.ptr (root i) vp).1 ≠ pageOf (s.pte (root i) vp) := ((hplain i hi).2 _ ht).symm
  simp only [Mem.free, Mem.write, Mem.setPage, Function.update_of_ne hptr,
    Function.update_comm hptr]

theorem Inv.unmap_same (hvp : vp < USERPAGES) (hpres : Present (s.pte (root i) vp)) :
    Same root (s.write (s.ptr (root i) vp) 0)
      ((s.free (pageOf (s.pte (root i) vp))).write (s.ptr (root i) vp) 0) := by
  have hplain : Plain root s (pageOf (s.pte (root i) vp)) :=
    h.plain_of_place (own_present hi hvp hpres) (h.frame_ne i vp hi hvp hpres) (by simp)
      (by simp)
  have hplain' : Plain root (s.write (s.ptr (root i) vp) 0) (pageOf (s.pte (root i) vp)) := by
    intro j hj
    refine ⟨(hplain j hj).1, fun d hd => ?_⟩
    rw [h.table_write hi hj] at hd ⊢
    exact (hplain j hj).2 d hd
  rw [h.unmap_eq hi ht hvp hpres]
  exact hplain'.same (v := fun _ => 1)

end Write

/-! ## A new page table -/

/-- `walkpgdir` when it allocates the page table `b`. -/
def Mem.newTable (s : Mem) (r d b : ℕ) (rest : List ℕ) : Mem :=
  ({ s with freelist := rest }.setPage b (fun _ => 0)).write (r, d)
    (b * PGSIZE ||| PTE_P ||| PTE_W ||| PTE_U)

theorem pde_bits {b : ℕ} (hb : b < 2 ^ 20) :
    (b * PGSIZE ||| PTE_P ||| PTE_W ||| PTE_U) < 2 ^ 32 ∧
      Present (b * PGSIZE ||| PTE_P ||| PTE_W ||| PTE_U) ∧
      pageOf (b * PGSIZE ||| PTE_P ||| PTE_W ||| PTE_U) = b := by
  have he : b * PGSIZE ||| PTE_P ||| PTE_W ||| PTE_U = b * PGSIZE ||| 7 := by
    rw [Nat.or_assoc, Nat.or_assoc]
    rfl
  rw [he]
  refine ⟨entry_lt hb (by decide), ?_, pageOf_entry (by decide)⟩
  have h7 : (7 : ℕ).testBit 0 = true := by decide
  rw [present_iff, Nat.testBit_or, h7, Bool.or_true]

section NewTable
variable {b : ℕ} {rest : List ℕ}

theorem newTable_page {r g : ℕ} (hg : g ≠ r) (hb : g ≠ b) :
    (s.newTable r d b rest).page g = s.page g :=
  (write_page_of_ne hg).trans (setPage_page_of_ne hb)

theorem Inv.newTable_zero (h : Inv L root held mem s) (hi : root i ≠ 0)
    (hs : s.freelist = b :: rest) : (s.newTable (root i) d b rest).page b = fun _ => 0 := by
  have hb : b ≠ root i := (h.plain_of_free (hs ▸ List.mem_cons_self) i hi).1
  exact (write_page_of_ne hb).trans setPage_page_self

theorem Inv.newTable_read_of_ne (h : Inv L root held mem s) (hs : s.freelist = b :: rest) {e : ℕ}
    (hj : root j ≠ 0) (hne : ¬ (j = i ∧ e = d)) :
    (s.newTable (root i) d b rest).read (root j, e) = s.read (root j, e) := by
  have hp : (root j, e) ≠ (root i, d) := by
    intro he
    obtain ⟨hr, he⟩ := Prod.ext_iff.mp he
    exact hne ⟨h.root_inj hj hr, he⟩
  have hb : root j ≠ b := (h.plain_of_free (hs ▸ List.mem_cons_self) j hj).1.symm
  rw [Mem.newTable, read_write_of_ne hp]
  exact read_congr (setPage_page_of_ne hb)

theorem Inv.newTable_table_of_ne (h : Inv L root held mem s) (hs : s.freelist = b :: rest) {e : ℕ}
    (hj : root j ≠ 0) (hne : ¬ (j = i ∧ e = d)) :
    (s.newTable (root i) d b rest).table (root j) e = s.table (root j) e := by
  simp only [Mem.table, h.newTable_read_of_ne hs hj hne]

theorem Inv.newTable_table (h : Inv L root held mem s) (hd : d < NPDENTRIES)
    (hs : s.freelist = b :: rest) : (s.newTable (root i) d b rest).table (root i) d = b := by
  have hb : b < 57344 := (h.free_range b (hs ▸ List.mem_cons_self)).2
  obtain ⟨hlt, hp, hpage⟩ := pde_bits (b := b) (by omega)
  rw [Mem.table, Mem.newTable, read_write hlt, if_pos ⟨hd, hp⟩, hpage]

/-- A new page table maps nothing. -/
theorem Inv.newTable_pte (h : Inv L root held mem s) (hi : root i ≠ 0) (hd : d < NPDENTRIES)
    (ht : s.table (root i) d = 0) (hs : s.freelist = b :: rest) (hj : root j ≠ 0) :
    (s.newTable (root i) d b rest).pte (root j) vp = s.pte (root j) vp := by
  by_cases hne : j = i ∧ vp / 1024 = d
  · obtain ⟨rfl, rfl⟩ := hne
    have hb : b ≠ 0 := h.free_ne_zero (hs ▸ List.mem_cons_self)
    rw [pte_of_table ht, Mem.pte, h.newTable_table hd hs, if_neg hb, Mem.read,
      h.newTable_zero hi hs]
    exact word_zero _
  · rw [Mem.pte, Mem.pte, h.newTable_table_of_ne hs hj hne]
    split_ifs with h0
    · rfl
    · refine read_congr (newTable_page (h.table_ne_root hj hi).symm ?_)
      exact ((h.plain_of_free (hs ▸ List.mem_cons_self) j hj).2 _ h0).symm

end NewTable

/-! ## The allocator -/

theorem same_freelist {l : List ℕ} : Same root s { s with freelist := l } :=
  fun _ _ => ⟨rfl, fun _ _ => rfl⟩

theorem kalloc_nil (h : s.freelist = []) : kalloc s = .ok (none, s) := by
  simp only [kalloc, run_get_bind, h]
  rfl

theorem kalloc_cons {rest : List ℕ} (h : s.freelist = f :: rest) :
    kalloc s = .ok (some f, { s with freelist := rest }) := by
  simp only [kalloc, run_get_bind, h]
  rfl

theorem used_pop {rest : List ℕ} (h : s.freelist = f :: rest) (hn : s.freelist.Nodup) :
    { s with freelist := rest }.used = Function.update s.used f true := by
  funext g
  rw [h, List.nodup_cons] at hn
  by_cases hg : g = f
  · simp [hg, Mem.used, hn.1]
  · simp [Mem.used, h, hg]

theorem used_free : (s.free f).used = Function.update s.used f false := by
  funext g
  by_cases hg : g = f
  · simp [hg, Mem.used, Mem.free]
  · simp [Mem.used, Mem.free, hg]

theorem Symbols.first_ge (L : Symbols) (hf : L.first ≤ f) : L.endAddr ≤ KERNBASE + f * PGSIZE := by
  have hfits : L.endAddr < 0x80000000 + 0xE000000 := L.fits
  have hfirst : L.first = ((L.endAddr + 4095) % 2 ^ 32 / 4096 * 4096 - 0x80000000) / 4096 := rfl
  change L.endAddr ≤ 0x80000000 + f * 4096
  omega

theorem kfree_run (hlo : L.first ≤ f) (hhi : f < NPAGES) : kfree L f s = .ok ((), s.free f) := by
  have hend : L.endAddr ≤ 0x80000000 + f * 4096 := L.first_ge hlo
  have hstop : f * 4096 < 0xE000000 := by
    change f < 57344 at hhi
    omega
  have hok : ¬ (KERNBASE + f * PGSIZE < L.endAddr ∨ PHYSTOP ≤ f * PGSIZE) :=
    not_or.mpr ⟨Nat.not_lt.mpr hend, Nat.not_le.mpr hstop⟩
  rw [kfree, if_neg hok]
  rfl

variable [DecidableEq ι] [DecidableEq κ]

/-- The page that a function has just allocated. -/
theorem Inv.alloc (h : Inv L root held 0 s) {rest : List ℕ} (hs : s.freelist = f :: rest) :
    Inv L root held f { s with freelist := rest } where
  toShaped := h.toShaped.same same_freelist
  nodup := (List.nodup_cons.mp (hs ▸ h.nodup)).2
  free_range g hg := h.free_range g (hs ▸ List.mem_cons_of_mem f hg)
  owns := by
    have hf : f ∈ s.freelist := hs ▸ List.mem_cons_self
    have hown : own root held f { s with freelist := rest } =
        Function.update (own root held 0 s) (.mem : Place ι κ) f := by
      funext p
      cases p <;> rfl
    rw [used_pop hs h.nodup, hown]
    exact h.owns.attach (used_eq_false.mpr hf) (h.free_range f hf).2 rfl

/-- The page that a function frees again. -/
theorem Inv.unalloc (h : Inv L root held f s) (hf : f ≠ 0) : Inv L root held 0 (s.free f) where
  toShaped := by
    have hp : Plain root s f := h.plain_of_place (p := .mem) rfl hf (by simp) (by simp)
    exact (h.toShaped.same hp.same).same same_freelist
  nodup := List.nodup_cons.mpr ⟨h.not_free (p := .mem) hf, h.nodup⟩
  free_range g hg := by
    rcases List.mem_cons.mp hg with rfl | hg
    · exact h.owns.range .mem hf
    · exact h.free_range g hg
  owns := by
    have hp : Plain root s f := h.plain_of_place (p := .mem) rfl hf (by simp) (by simp)
    have hown : own root held 0 (s.free f) =
        Function.update (own root held f s) (.mem : Place ι κ) 0 := by
      have hs : Same root s (s.free f) := (hp.same (v := fun _ => 1))
      funext p
      by_cases hpm : p = .mem
      · rw [hpm, Function.update_self]
        rfl
      · rw [Function.update_of_ne hpm, ← hs.own]
        cases p <;> first | rfl | exact absurd rfl hpm
    rw [used_free, hown]
    exact h.owns.release (p := .mem) hf

/-- A page allocated elsewhere in the kernel. -/
theorem Inv.hold (h : Inv L root held 0 s) {rest : List ℕ} {k : κ} (hs : s.freelist = f :: rest)
    (hk : held k = 0) : Inv L root (Function.update held k f) 0 { s with freelist := rest } where
  toShaped := h.toShaped.same same_freelist
  nodup := (List.nodup_cons.mp (hs ▸ h.nodup)).2
  free_range g hg := h.free_range g (hs ▸ List.mem_cons_of_mem f hg)
  owns := by
    have hf : f ∈ s.freelist := hs ▸ List.mem_cons_self
    have hown : own root (Function.update held k f) 0 { s with freelist := rest } =
        Function.update (own root held 0 s) (.other k : Place ι κ) f := by
      funext p
      cases p with
      | other l =>
        by_cases hl : l = k
        · simp [own, hl]
        · simp [own, hl]
      | _ => rfl
    rw [used_pop hs h.nodup, hown]
    exact h.owns.attach (used_eq_false.mpr hf) (h.free_range f hf).2 hk

/-- A page freed elsewhere in the kernel. -/
theorem Inv.unhold (h : Inv L root held 0 s) {k : κ} (hk : held k ≠ 0) :
    Inv L root (Function.update held k 0) 0 (s.free (held k)) where
  toShaped := by
    have hp : Plain root s (held k) := h.plain_of_place (p := .other k) rfl hk (by simp) (by simp)
    exact (h.toShaped.same hp.same).same same_freelist
  nodup := List.nodup_cons.mpr ⟨h.not_free (p := .other k) hk, h.nodup⟩
  free_range g hg := by
    rcases List.mem_cons.mp hg with rfl | hg
    · exact h.owns.range (.other k) hk
    · exact h.free_range g hg
  owns := by
    have hp : Plain root s (held k) := h.plain_of_place (p := .other k) rfl hk (by simp) (by simp)
    have hown : own root (Function.update held k 0) 0 (s.free (held k)) =
        Function.update (own root held 0 s) (.other k : Place ι κ) 0 := by
      have hs : Same root s (s.free (held k)) := (hp.same (v := fun _ => 1))
      funext p
      by_cases hpk : p = .other k
      · simp [hpk, own]
      · rw [Function.update_of_ne hpk, ← hs.own]
        cases p with
        | other l =>
          have hl : l ≠ k := fun he => hpk (he ▸ rfl)
          simp [own, hl]
        | _ => rfl
    rw [used_free, hown]
    exact h.owns.release (p := .other k) hk

section Entries
variable (h : Inv L root held mem s) (hi : root i ≠ 0) (ht : s.table (root i) (vp / 1024) ≠ 0)
include h hi ht

/-- The page that was allocated becomes a user page. -/
theorem Inv.mapUser (hm : mem ≠ 0) (hvp : vp < USERPAGES) (hnone : ¬ Present (s.pte (root i) vp))
    (hx : x < 2 ^ 32) (hp : Present x) (hpage : pageOf x = mem) :
    Inv L root held 0 (s.write (s.ptr (root i) vp) x) where
  toShaped := h.shaped_write hi ht hx (fun _ _ => hpage ▸ hm) (by omega)
  nodup := h.nodup
  free_range := h.free_range
  owns := by
    have hempty : own root held mem s (.user i vp : Place ι κ) = 0 := by
      rw [own_user hi, Mem.frame, if_neg (fun hc => hnone hc.2)]
    have hown : own root held 0 (s.write (s.ptr (root i) vp) x) =
        Function.update (Function.update (own root held mem s) (.mem : Place ι κ) 0)
          (.user i vp) mem := by
      have hmem : own root held 0 (s.write (s.ptr (root i) vp) x) = Function.update
          (own root held mem (s.write (s.ptr (root i) vp) x)) (.mem : Place ι κ) 0 := by
        funext p
        cases p <;> simp [own]
      rw [hmem, h.own_write hi ht hx, if_pos ⟨hvp, hp⟩, hpage,
        Function.update_comm (by simp)]
    rw [hown]
    exact h.owns.move (p := .mem) hm hempty

/-- The kernel's own mappings hold no page. -/
theorem Inv.mapKernel (hvp : USERPAGES ≤ vp) (hx : x < 2 ^ 32) (hu : ¬ User x) :
    Inv L root held mem (s.write (s.ptr (root i) vp) x) where
  toShaped := h.shaped_write hi ht hx (by omega) (fun _ _ => hu)
  nodup := h.nodup
  free_range := h.free_range
  owns := by
    have hold : own root held mem s (.user i vp : Place ι κ) = 0 := by
      rw [own_user hi, Mem.frame, if_neg (by omega)]
    rw [h.own_write hi ht hx, if_neg (by omega), ← hold, Function.update_eq_self]
    exact h.owns

/-- `PTE_U` is not looked at when a page is given back. -/
theorem Inv.clear : Inv L root held mem
      (s.write (s.ptr (root i) vp) (s.pte (root i) vp &&& (2 ^ 32 - 1 - PTE_U))) := by
  have hlt : s.pte (root i) vp < 2 ^ 32 := by
    rw [pte_eq_read ht]
    exact read_lt _ _
  have hx : s.pte (root i) vp &&& (2 ^ 32 - 1 - PTE_U) < 2 ^ 32 :=
    Nat.lt_of_le_of_lt Nat.and_le_left hlt
  refine { toShaped := ?_, nodup := h.nodup, free_range := h.free_range, owns := ?_ }
  · refine h.shaped_write hi ht hx (fun hvp hp => ?_) (fun _ _ => not_user_clear)
    rw [pageOf_clear hlt]
    exact h.frame_ne i vp hi hvp (present_clear.mp hp)
  · have hsame : (if vp < USERPAGES ∧ Present (s.pte (root i) vp &&& (2 ^ 32 - 1 - PTE_U))
        then pageOf (s.pte (root i) vp &&& (2 ^ 32 - 1 - PTE_U)) else 0) =
        own root held mem s (.user i vp : Place ι κ) := by
      rw [own_user hi, Mem.frame, pageOf_clear hlt]
      simp only [present_clear]
    rw [h.own_write hi ht hx, hsame, Function.update_eq_self]
    exact h.owns

/-- A user page is given back and its entry cleared. -/
theorem Inv.unmap (hvp : vp < USERPAGES) (hpres : Present (s.pte (root i) vp)) :
    Inv L root held mem
      ((s.free (pageOf (s.pte (root i) vp))).write (s.ptr (root i) vp) 0) := by
  have hown : own root held mem s (.user i vp : Place ι κ) = pageOf (s.pte (root i) vp) :=
    own_present hi hvp hpres
  have hne : own root held mem s (.user i vp : Place ι κ) ≠ 0 :=
    hown ▸ h.frame_ne i vp hi hvp hpres
  have hsame := h.unmap_same hi ht hvp hpres
  have heq := h.unmap_eq hi ht hvp hpres
  refine { toShaped := ?_, nodup := ?_, free_range := ?_, owns := ?_ }
  · refine Shaped.same ?_ hsame
    exact h.shaped_write hi ht (by decide) (fun _ hp => absurd hp not_present_zero)
      (fun _ hp => absurd hp not_present_zero)
  · exact List.nodup_cons.mpr ⟨hown ▸ h.not_free hne, h.nodup⟩
  · intro g hg
    rcases List.mem_cons.mp hg with rfl | hg
    · exact hown ▸ h.owns.range _ hne
    · exact h.free_range g hg
  · rw [hsame.own, heq, h.own_write hi ht (by decide), if_neg (fun hc => not_present_zero hc.2),
      ← hown]
    have hused : ((s.write (s.ptr (root i) vp) 0).free
        (own root held mem s (.user i vp : Place ι κ))).used =
        Function.update s.used (own root held mem s (.user i vp : Place ι κ)) false := used_free
    rw [hused]
    exact h.owns.release hne

end Entries

/-! ## New page tables and directories -/

section NewTable
variable {b : ℕ} {rest : List ℕ}

theorem Inv.newTable (h : Inv L root held mem s) (hi : root i ≠ 0) (hd : d < NPDENTRIES)
    (ht : s.table (root i) d = 0) (hs : s.freelist = b :: rest) :
    Inv L root held mem (s.newTable (root i) d b rest) where
  table_ne j e hj he hp := by
    by_cases hne : j = i ∧ e = d
    · obtain ⟨rfl, rfl⟩ := hne
      have hb : b < 57344 := (h.free_range b (hs ▸ List.mem_cons_self)).2
      have hpos := (h.free_range b (hs ▸ List.mem_cons_self)).1
      have hfirst := h.owns.pos
      obtain ⟨hlt, -, hpage⟩ := pde_bits (b := b) (by omega)
      rw [Mem.newTable, read_write hlt, hpage]
      omega
    · rw [h.newTable_read_of_ne hs hj hne] at hp ⊢
      exact h.table_ne j e hj he hp
  frame_ne j vp hj hvp hp := by
    rw [h.newTable_pte hi hd ht hs hj] at hp ⊢
    exact h.frame_ne j vp hj hvp hp
  kernel j vp hj hvp hp := by
    rw [h.newTable_pte hi hd ht hs hj] at hp ⊢
    exact h.kernel j vp hj hvp hp
  nodup := (List.nodup_cons.mp (hs ▸ h.nodup)).2
  free_range g hg := h.free_range g (hs ▸ List.mem_cons_of_mem b hg)
  owns := by
    have hb : b ∈ s.freelist := hs ▸ List.mem_cons_self
    have hown : own root held mem (s.newTable (root i) d b rest) =
        Function.update (own root held mem s) (.table i d : Place ι κ) b := by
      funext p
      cases p with
      | root | mem | other => rfl
      | table j e =>
        by_cases hne : j = i ∧ e = d
        · obtain ⟨rfl, rfl⟩ := hne
          rw [Function.update_self, own_table hi, h.newTable_table hd hs]
        · have hp : (.table j e : Place ι κ) ≠ .table i d := by simpa using hne
          rw [Function.update_of_ne hp]
          by_cases hj : root j = 0
          · simp [own, hj]
          · rw [own_table hj, own_table hj, h.newTable_table_of_ne hs hj hne]
      | user j vp =>
        rw [Function.update_of_ne (by simp)]
        by_cases hj : root j = 0
        · simp [own, hj]
        · rw [own_user hj, own_user hj, frame_congr (h.newTable_pte hi hd ht hs hj)]
    have hused : (s.newTable (root i) d b rest).used = Function.update s.used b true :=
      used_pop hs h.nodup
    have hempty : own root held mem s (.table i d : Place ι κ) = 0 := by
      rw [own_table hi, ht]
    rw [hused, hown]
    exact h.owns.attach (used_eq_false.mpr hb) (h.free_range b hb).2 hempty

end NewTable

section NewRoot
variable {b : ℕ} {rest : List ℕ}

theorem table_zero {r : ℕ} (hr : s.page r = fun _ => 0) : s.table r d = 0 := by
  have h0 : s.read (r, d) = 0 := by
    rw [Mem.read, hr]
    exact word_zero _
  rw [Mem.table, h0, if_neg (fun hc => not_present_zero hc.2)]

/-- A page full of zeroes becomes a page directory. -/
theorem Inv.newRoot (h : Inv L root held mem s) (hi : root i = 0) (hs : s.freelist = b :: rest) :
    Inv L (Function.update root i b) held mem
      ({ s with freelist := rest }.setPage b (fun _ => 0)) := by
  set t := { s with freelist := rest }.setPage b (fun _ => 0) with ht
  have hb : b ∈ s.freelist := hs ▸ List.mem_cons_self
  have hpage : t.page b = fun _ => 0 := setPage_page_self
  have hsame : Same root s t := fun j hj =>
    ⟨setPage_page_of_ne (h.plain_of_free hb j hj).1.symm, fun d hd =>
      setPage_page_of_ne ((h.plain_of_free hb j hj).2 d hd).symm⟩
  have hshaped : Shaped root t := h.toShaped.same hsame
  have hpte : ∀ vp, t.pte b vp = 0 := fun vp => pte_of_table (table_zero hpage)
  have hread : ∀ d, t.read (b, d) = 0 := by
    intro d
    rw [Mem.read, hpage]
    exact word_zero _
  refine { table_ne := ?_, frame_ne := ?_, kernel := ?_, nodup := ?_, free_range := ?_, owns := ?_ }
  · intro j d hj hd hp
    by_cases hji : j = i
    · rw [hji, Function.update_self, hread] at hp
      exact absurd hp not_present_zero
    · rw [Function.update_of_ne hji] at hj hp ⊢
      exact hshaped.table_ne j d hj hd hp
  · intro j vp hj hvp hp
    by_cases hji : j = i
    · rw [hji, Function.update_self, hpte] at hp
      exact absurd hp not_present_zero
    · rw [Function.update_of_ne hji] at hj hp ⊢
      exact hshaped.frame_ne j vp hj hvp hp
  · intro j vp hj hvp hp
    by_cases hji : j = i
    · rw [hji, Function.update_self, hpte] at hp
      exact absurd hp not_present_zero
    · rw [Function.update_of_ne hji] at hj hp ⊢
      exact hshaped.kernel j vp hj hvp hp
  · exact (List.nodup_cons.mp (hs ▸ h.nodup)).2
  · exact fun g hg => h.free_range g (hs ▸ List.mem_cons_of_mem b hg)
  · have hown : own (Function.update root i b) held mem t =
        Function.update (own root held mem s) (.root i : Place ι κ) b := by
      rw [← hsame.own]
      funext p
      cases p with
      | mem | other => rfl
      | root j =>
        by_cases hji : j = i
        · simp [own, hji]
        · simp [own, hji]
      | table j d =>
        rw [Function.update_of_ne (by simp)]
        by_cases hji : j = i
        · simp [own, hji, hi, table_zero hpage]
        · simp [own, hji]
      | user j vp =>
        rw [Function.update_of_ne (by simp)]
        by_cases hji : j = i
        · simp [own, hji, hi, Mem.frame, hpte]
        · simp [own, hji]
    have hused : t.used = Function.update s.used b true := used_pop hs h.nodup
    rw [hused, hown]
    exact h.owns.attach (used_eq_false.mpr hb) (h.free_range b hb).2 hi

end NewRoot

end Facts

end Ostep.PageTables

import Ostep.ExecUndo
import Ostep.SyscallArgs

/-!
# The arguments on the new stack

`exec` lays the strings of `argv` down from the top of the stack page and the frame of `main`
below them. Everything that does not fit runs into the guard page, where `copyout` stops.
-/

namespace Ostep.Exec
open ByteWords Hoare Ownership PageTables TransitionSystem SyscallArgs

/-! ## The layout -/

/-- What a string takes, with its terminator, in whole words. -/
def strSize (arg : List UInt8) : ℕ := (arg.length + 4) / 4 * 4

def argSize (argv : List (List UInt8)) : ℕ := (argv.map strSize).sum

/-- Where the strings go. -/
def ptrsFrom : ℕ → List (List UInt8) → List ℕ
  | _, [] => []
  | sp, arg :: argv => (sp - strSize arg) :: ptrsFrom (sp - strSize arg) argv

/-- The bytes `v` with the strings stored. -/
def layDown (v : Bytes) : ℕ → List (List UInt8) → Bytes
  | _, [] => v
  | sp, arg :: argv => layDown (v.store (sp - strSize arg) (arg ++ [0])) (sp - strSize arg) argv

variable {v v' : Bytes} {sp a : ℕ} {arg : List UInt8} {argv : List (List UInt8)}

theorem length_lt_strSize (arg : List UInt8) :
    arg.length < strSize arg ∧ strSize arg ≤ arg.length + 4 ∧ strSize arg % 4 = 0 := by
  rw [strSize]
  omega

theorem argSize_cons : argSize (arg :: argv) = strSize arg + argSize argv := rfl

theorem ptrsFrom_length : (ptrsFrom sp argv).length = argv.length := by
  induction argv generalizing sp with
  | nil => rfl
  | cons arg argv ih => rw [ptrsFrom, List.length_cons, ih, List.length_cons]

theorem store_of_lt {off : ℕ} {src : List UInt8} (h : a < off) : v.store off src a = v a :=
  if_neg fun hc => absurd hc.1 (Nat.not_le.mpr h)

theorem store_of_le {off : ℕ} {src : List UInt8} (h : off + src.length ≤ a) :
    v.store off src a = v a :=
  if_neg fun hc => absurd hc.2 (Nat.not_lt.mpr h)

theorem store_of_mem {off k : ℕ} {src : List UInt8} (h : k < src.length) :
    v.store off src (off + k) = src.getD k 0 := by
  rw [Bytes.store, if_pos ⟨Nat.le_add_right off k, Nat.add_lt_add_left h off⟩, Nat.add_sub_cancel_left]

theorem layDown_above (hsp : argSize argv ≤ sp) (ha : sp ≤ a) : layDown v sp argv a = v a := by
  induction argv generalizing v sp with
  | nil => rfl
  | cons arg argv ih =>
    rw [argSize_cons] at hsp
    have hlen := length_lt_strSize arg
    rw [layDown, ih (by omega) (by omega), store_of_le]
    rw [List.length_append, List.length_singleton]
    omega

/-- Where the strings are read. -/
theorem layDown_string (hsp : argSize argv ≤ sp) {p : ℕ} (hp : (p, arg) ∈ (ptrsFrom sp argv).zip argv)
    {k : ℕ} (hk : k < arg.length + 1) : layDown v sp argv (p + k) = (arg ++ [0]).getD k 0 := by
  induction argv generalizing v sp with
  | nil => simp [ptrsFrom] at hp
  | cons arg' argv ih =>
    rw [argSize_cons] at hsp
    rw [ptrsFrom, List.zip_cons_cons, List.mem_cons] at hp
    rcases hp with hp | hp
    · obtain ⟨rfl, rfl⟩ := Prod.mk.inj hp
      rw [layDown, layDown_above (by omega) (Nat.le_add_right _ _), store_of_mem]
      rwa [List.length_append]
    · exact ih (by omega) hp

/-- An area of memory: where it starts and how long it is. -/
def strAreas (ptrs : List ℕ) (argv : List (List UInt8)) : List (ℕ × ℕ) :=
  (ptrs.zip argv).map fun x => (x.1, x.2.length + 1)

def Apart (x y : ℕ × ℕ) : Prop := x.1 + x.2 ≤ y.1 ∨ y.1 + y.2 ≤ x.1

theorem strAreas_mem (hsp : argSize argv ≤ sp) {x : ℕ × ℕ}
    (hx : x ∈ strAreas (ptrsFrom sp argv) argv) : sp - argSize argv ≤ x.1 ∧ x.1 + x.2 ≤ sp := by
  induction argv generalizing sp with
  | nil => simp [strAreas, ptrsFrom] at hx
  | cons arg argv ih =>
    rw [argSize_cons] at hsp ⊢
    have hlen := length_lt_strSize arg
    rw [strAreas, ptrsFrom, List.zip_cons_cons, List.map_cons, List.mem_cons] at hx
    rcases hx with rfl | hx
    · simp only
      omega
    · have := @ih (sp - strSize arg) (by omega) hx
      omega

theorem strAreas_apart (hsp : argSize argv ≤ sp) :
    (strAreas (ptrsFrom sp argv) argv).Pairwise Apart := by
  induction argv generalizing sp with
  | nil => exact .nil
  | cons arg argv ih =>
    rw [argSize_cons] at hsp
    rw [strAreas, ptrsFrom, List.zip_cons_cons, List.map_cons]
    refine .cons (fun x hx => .inr ?_) (ih (by omega))
    exact (strAreas_mem (by omega) hx).2

theorem ptrsFrom_mem (hsp : argSize argv ≤ sp) {p : ℕ} (hp : p ∈ ptrsFrom sp argv) :
    sp - argSize argv ≤ p ∧ p < sp ∧ (sp % 4 = 0 → p % 4 = 0) := by
  induction argv generalizing sp with
  | nil => simp [ptrsFrom] at hp
  | cons arg argv ih =>
    rw [argSize_cons] at hsp ⊢
    have hlen := length_lt_strSize arg
    rw [ptrsFrom, List.mem_cons] at hp
    rcases hp with rfl | hp
    · omega
    · have := @ih (sp - strSize arg) (by omega) hp
      omega

theorem below_eq (hsp : sp < 2 ^ 32) (h4 : sp % 4 = 0) (hle : strSize arg ≤ sp) :
    below sp (arg.length + 1) = sp - strSize arg := by
  have hlen := length_lt_strSize arg
  rw [below]
  omega

/-! ## Words -/

theorem wordBytes_length (x : ℕ) : (wordBytes x).length = 4 := rfl

theorem flatMap_wordBytes_length (ws : List ℕ) : (ws.flatMap wordBytes).length = 4 * ws.length := by
  induction ws with
  | nil => rfl
  | cons w ws ih =>
    rw [List.flatMap_cons, List.length_append, wordBytes_length, ih, List.length_cons]
    omega

theorem wordAt_wordBytes {x : ℕ} (hx : x < 2 ^ 32)
    (h : ∀ k, k < 4 → v (a + k) = (wordBytes x).getD k 0) : wordAt v a = x := by
  have h0 := h 0 (by omega)
  have h1 := h 1 (by omega)
  have h2 := h 2 (by omega)
  have h3 := h 3 (by omega)
  rw [Nat.add_zero] at h0
  rw [wordAt, h0, h1, h2, h3]
  simp only [wordBytes, List.getD_cons_zero, List.getD_cons_succ, UInt8.toNat_ofNat']
  omega

/-- A word that was stored is read back. -/
theorem wordAt_store {ws : List ℕ} {j : ℕ} (hj : j < ws.length) (hw : ∀ x ∈ ws, x < 2 ^ 32)
    (h : ∀ k, k < 4 * ws.length → v (a + k) = (ws.flatMap wordBytes).getD k 0) :
    wordAt v (a + 4 * j) = ws[j] := by
  induction ws generalizing a j with
  | nil => exact absurd hj (Nat.not_lt_zero j)
  | cons w ws ih =>
    rw [List.length_cons] at hj h
    cases j with
    | zero =>
      refine wordAt_wordBytes (hw w List.mem_cons_self) fun k hk => ?_
      rw [Nat.mul_zero, Nat.add_zero, h k (by omega), List.flatMap_cons, List.getD_append _ _ _ _ hk]
      rfl
    | succ j =>
      have hrest := ih (a := a + 4) (j := j) (by omega) (fun x hx => hw x (List.mem_cons_of_mem w hx))
        fun k hk => by
          rw [Nat.add_assoc, h (4 + k) (by omega), List.flatMap_cons,
            List.getD_append_right _ _ _ _ (Nat.le_add_right 4 k), wordBytes_length,
            Nat.add_sub_cancel_left]
      rw [List.getElem_cons_succ, ← hrest, Nat.add_assoc a, Nat.mul_succ, Nat.add_comm 4]

/-! ## Pushing -/

variable {ι κ : Type*} {L : Symbols} {root : ι → ℕ} {held : κ → ℕ}
  {i : ι} {s t u : Mem} {r n d : ℕ} {b : List UInt8}

/-- The directory of `i` has the pages up to `n + 1`, all of them for the user but the page `n`. -/
structure StackPage (L : Symbols) (root : ι → ℕ) (held : κ → ℕ) (i : ι) (n : ℕ) (t : Mem) : Prop where
  inv : PageTables.Inv L root held 0 t
  ne : root i ≠ 0
  lt : n * 4096 + 8192 < 2147483648
  present : ∀ vp, vp < n + 2 → Present (t.pte (root i) vp)
  user : ∀ vp, vp < n + 2 → vp ≠ n → User (t.pte (root i) vp)
  guard : ¬ User (t.pte (root i) n)

theorem StackPage.same (h : StackPage L root held i n t) (hsame : PageTables.Same root t u)
    (hfree : u.freelist = t.freelist) : StackPage L root held i n u where
  inv := h.inv.of_same hsame hfree
  ne := h.ne
  lt := h.lt
  present vp hvp := by
    rw [hsame.pte h.ne]
    exact h.present vp hvp
  user vp hvp hn := by
    rw [hsame.pte h.ne]
    exact h.user vp hvp hn
  guard := by
    rw [hsame.pte h.ne]
    exact h.guard

theorem StackPage.lt_word (h : StackPage L root held i n t) (ha : a < n * 4096 + 8192) : a < 2 ^ 32 := by
  have := h.lt
  omega

theorem StackPage.lt_sp (h : StackPage L root held i n t) (ha : a ≤ n * 4096 + 8192) : a < 2 ^ 32 := by
  have := h.lt
  omega

theorem StackPage.userAt_iff (h : StackPage L root held i n t) (ha : a < n * 4096 + 8192) :
    t.UserAt (root i) a ↔ a / 4096 ≠ n := by
  rw [h.inv.userAt h.ne (h.lt_word ha)]
  constructor
  · rintro ⟨-, huser⟩ rfl
    exact h.guard huser
  · exact fun hn => ⟨h.present _ (by change a / 4096 < n + 2; omega),
      h.user _ (by change a / 4096 < n + 2; omega) hn⟩

theorem StackPage.tableAt (h : StackPage L root held i n t) (ha : a < n * 4096 + 8192) :
    t.TableAt (root i) a := by
  rw [h.inv.tableAt h.ne (h.lt_word ha)]
  exact present_pte_table (h.present _ (by change a / 4096 < n + 2; omega))

theorem StackPage.outcome (h : StackPage L root held i n t)
    (hhi : d + b.length ≤ n * 4096 + 8192) :
    CopyOutcome root i t d b (copyout (root i) d b t) := by
  have hlt := h.lt
  exact h.inv.copyoutLoop h.ne (by omega) (by omega) (Nat.lt_succ_self _)

/-- Bytes that go into the stack page. -/
theorem StackPage.push (h : StackPage L root held i n t) (hlo : n * 4096 + 4096 ≤ d)
    (hhi : d + b.length ≤ n * 4096 + 8192) :
    ∃ u, copyout (root i) d b t = .ok (0, u) ∧ StackPage L root held i n u ∧
      ∀ a, n * 4096 + 4096 ≤ a → a < n * 4096 + 8192 →
        view u (root i) a = (view t (root i)).store d b a := by
  have hlt := h.lt
  have hnth : ∀ k, k < b.length → nth d k = d + k := fun k hk =>
    Nat.mod_eq_of_lt (h.lt_word (by omega))
  obtain ⟨u, hrun, hsame, hst⟩ := (h.outcome (by omega)).all fun k hk => by
    rw [hnth k hk, h.userAt_iff (by omega)]
    omega
  refine ⟨u, hrun, h.same hsame hst.freelist, fun a hlo' hhi' => ?_⟩
  have ha : a < 2 ^ 32 := h.lt_word hhi'
  have hloc : u.loc (root i) a = t.loc (root i) a := by
    rw [Mem.loc, Mem.loc, same_lookup h.inv hsame (h.inv.of_same hsame hst.freelist) h.ne ha]
  have hua : t.UserAt (root i) a := (h.userAt_iff hhi').mpr (by omega)
  rw [view, hloc, Bytes.store]
  split_ifs with hin
  · have hk : a - d < b.length := by omega
    have hstored := hst.stored _ hk
    rw [hnth _ hk, Nat.add_sub_cancel' hin.1] at hstored
    rw [hstored, List.getD_eq_getElem _ _ hk]
  · refine hst.rest _ fun k hk heq => hin ?_
    rw [hnth k hk] at heq
    have huk : t.UserAt (root i) (d + k) := (h.userAt_iff (by omega)).mpr (by omega)
    have := h.inv.loc_inj h.ne (h.lt_word (by omega)) ha huk hua heq
    omega

/-- Bytes that do not fit run into the guard page. -/
theorem StackPage.overflow (h : StackPage L root held i n t) (hlo : d < n * 4096 + 4096)
    (hhi : d + b.length ≤ n * 4096 + 8192) (hguard : n * 4096 < d + b.length)
    (hpos : 0 < b.length) : ∃ u, copyout (root i) d b t = .ok (-1, u) := by
  have hlt := h.lt
  have hnth : ∀ k, k < b.length → nth d k = d + k := fun k hk =>
    Nat.mod_eq_of_lt (h.lt_word (by omega))
  have hk : n * 4096 - d < b.length := by omega
  have hbefore : ∀ l, l < n * 4096 - d → t.UserAt (root i) (nth d l) := fun l hl => by
    rw [hnth l (by omega), h.userAt_iff (by omega)]
    omega
  have hat : ¬ t.UserAt (root i) (nth d (n * 4096 - d)) := by
    rw [hnth _ hk, h.userAt_iff (by omega)]
    omega
  have htab : t.TableAt (root i) (nth d (n * 4096 - d)) := by
    rw [hnth _ hk]
    exact h.tableAt (by omega)
  obtain ⟨u, hrun, -, -⟩ := ((h.outcome (by omega)).first _ hk hbefore hat).1 htab
  exact ⟨u, hrun⟩

theorem layDown_congr (h : v a = v' a) : layDown v sp argv a = layDown v' sp argv a := by
  induction argv generalizing v v' sp with
  | nil => exact h
  | cons arg argv ih =>
    refine ih ?_
    rw [Bytes.store, Bytes.store, h]

variable {ptrs : List ℕ}

/-- All the strings fit. -/
theorem StackPage.pushArgs_fits (h : StackPage L root held i n t)
    (hfit : n * 4096 + 4096 + argSize argv ≤ sp) (hsp : sp ≤ n * 4096 + 8192) (h4 : sp % 4 = 0)
    (hlen : ptrs.length + argv.length < MAXARG) :
    ∃ u, pushArgs (root i) argv sp ptrs t =
        .ok (some (sp - argSize argv, ptrs ++ ptrsFrom sp argv), u) ∧
      StackPage L root held i n u ∧ ∀ a, n * 4096 + 4096 ≤ a → a < n * 4096 + 8192 →
        view u (root i) a = layDown (view t (root i)) sp argv a := by
  induction argv generalizing t sp ptrs with
  | nil => exact ⟨t, by rw [ptrsFrom, List.append_nil]; rfl, h, fun _ _ _ => rfl⟩
  | cons arg argv ih =>
    rw [argSize_cons] at hfit ⊢
    have hstr := length_lt_strSize arg
    have hle : strSize arg ≤ sp := by omega
    have hbytes : (arg ++ [0]).length = arg.length + 1 := List.length_append
    rw [List.length_cons] at hlen
    have hfit₁ : n * 4096 + 4096 + argSize argv ≤ sp - strSize arg := by
      refine Nat.le_sub_of_add_le ?_
      rwa [Nat.add_assoc, Nat.add_comm (argSize argv)]
    have hva : n * 4096 + 4096 ≤ sp - strSize arg := (Nat.le_add_right _ _).trans hfit₁
    obtain ⟨t₁, hrun, h₁, hview⟩ := h.push (b := arg ++ [0]) hva
      (by omega)
    obtain ⟨u, hrest, hu, hview'⟩ := ih h₁ hfit₁ (by omega) (by omega)
      (show (ptrs ++ [sp - strSize arg]).length + argv.length < MAXARG by
        rw [List.length_append, List.length_singleton]; omega)
    refine ⟨u, ?_, hu, fun a hlo hhi => ?_⟩
    · rw [pushArgs, if_neg (by omega)]
      simp only [below_eq (h.lt_sp hsp) h4 hle]
      rw [run_bind_ok hrun, if_neg (by decide), hrest, ptrsFrom, List.append_assoc,
        Nat.sub_sub]
      rfl
    · rw [hview' a hlo hhi, layDown]
      exact layDown_congr (hview a hlo hhi)

/-- Some string does not. -/
theorem StackPage.pushArgs_over (h : StackPage L root held i n t) (hlo : n * 4096 + 4096 ≤ sp)
    (hover : sp < n * 4096 + 4096 + argSize argv) (hsum : argSize argv < sp)
    (hsp : sp ≤ n * 4096 + 8192) (h4 : sp % 4 = 0) (hlen : ptrs.length + argv.length < MAXARG) :
    ∃ u, pushArgs (root i) argv sp ptrs t = .ok (none, u) := by
  induction argv generalizing t sp ptrs with
  | nil =>
    have h0 : argSize [] = 0 := rfl
    omega
  | cons arg argv ih =>
    rw [argSize_cons] at hover hsum
    have hstr := length_lt_strSize arg
    have hle : strSize arg ≤ sp := by omega
    have hbytes : (arg ++ [0]).length = arg.length + 1 := List.length_append
    rw [List.length_cons] at hlen
    by_cases hfit : n * 4096 + 4096 ≤ sp - strSize arg
    · obtain ⟨t₁, hrun, h₁, -⟩ := h.push (b := arg ++ [0]) hfit
        (by omega)
      obtain ⟨u, hrest⟩ := ih h₁ hfit
        (by omega) (by omega) (by omega) (by omega)
        (show (ptrs ++ [sp - strSize arg]).length + argv.length < MAXARG by
          rw [List.length_append, List.length_singleton]; omega)
      refine ⟨u, ?_⟩
      rw [pushArgs, if_neg (by omega)]
      simp only [below_eq (h.lt_sp hsp) h4 hle]
      rw [run_bind_ok hrun, if_neg (by decide), hrest]
    · obtain ⟨u, hrun⟩ := h.overflow (b := arg ++ [0]) (d := sp - strSize arg) (by omega)
        (by omega) (by omega) (by omega)
      refine ⟨u, ?_⟩
      rw [pushArgs, if_neg (by omega)]
      simp only [below_eq (h.lt_sp hsp) h4 hle]
      rw [run_bind_ok hrun]
      rfl

/-! ## The frame -/

/-- The words below the strings. -/
def frameSize (argv : List (List UInt8)) : ℕ := (3 + argv.length + 1) * 4

/-- Where the frame starts if the page ends at `top`. -/
def frameAt (top : ℕ) (argv : List (List UInt8)) : ℕ := top - argSize argv - frameSize argv

/-- The stack page that ends at `top`, over the bytes `v`. -/
def fullStack (v : Bytes) (top : ℕ) (argv : List (List UInt8)) : Bytes :=
  (layDown v top argv).store (frameAt top argv)
    ((ustack (top - argSize argv) (ptrsFrom top argv)).flatMap wordBytes)

theorem wrap_sub {k : ℕ} (hk : k ≤ sp) (hsp : sp < 2 ^ 32) : (sp + (2 ^ 32 - k)) % 2 ^ 32 = sp - k := by
  omega

theorem ustack_length (sp : ℕ) (ptrs : List ℕ) : (ustack sp ptrs).length = 3 + ptrs.length + 1 := by
  rw [ustack, List.length_append, List.length_append]
  rfl

theorem frame_bytes_length (top : ℕ) (argv : List (List UInt8)) :
    ((ustack (top - argSize argv) (ptrsFrom top argv)).flatMap wordBytes).length = frameSize argv := by
  rw [flatMap_wordBytes_length, ustack_length, ptrsFrom_length, frameSize, Nat.mul_comm]

theorem StackPage.pushAll_fits (h : StackPage L root held i n t) {top : ℕ} (htop : top = n * 4096 + 8192)
    (hfit : argSize argv + frameSize argv ≤ 4096) (hlen : argv.length < MAXARG) :
    ∃ u, pushAll (root i) top argv t = .ok (some (frameAt top argv), u) ∧
      StackPage L root held i n u ∧ ∀ a, n * 4096 + 4096 ≤ a → a < n * 4096 + 8192 →
        view u (root i) a = fullStack (view t (root i)) top argv a := by
  have hlt := h.lt
  have hfit₁ : n * 4096 + 4096 + argSize argv ≤ top := by omega
  have hlow : n * 4096 + 4096 ≤ frameAt top argv := by
    rw [frameAt, Nat.sub_sub]
    exact Nat.le_sub_of_add_le (by omega)
  obtain ⟨t₁, hrun, h₁, hview⟩ := h.pushArgs_fits hfit₁ htop.le
    (by omega) (show ([] : List ℕ).length + argv.length < MAXARG by
      rwa [List.length_nil, Nat.zero_add])
  have hframe : (3 + argv.length + 1) * 4 = frameSize argv := rfl
  have hbytes := frame_bytes_length top argv
  have hesp : (top - argSize argv + (2 ^ 32 - (3 + (ptrsFrom top argv).length + 1) * 4)) % 2 ^ 32 =
      frameAt top argv := by
    rw [ptrsFrom_length, hframe, wrap_sub (by omega) (by omega), frameAt]
  have hend : frameAt top argv + frameSize argv = top - argSize argv :=
    Nat.sub_add_cancel (by omega)
  obtain ⟨u, hcopy, hu, hview'⟩ := h₁.push (d := frameAt top argv)
    (b := (ustack (top - argSize argv) (ptrsFrom top argv)).flatMap wordBytes)
    hlow (by rw [hbytes, hend, htop.symm]; exact Nat.sub_le _ _)
  refine ⟨u, ?_, hu, fun a hlo hhi => ?_⟩
  · rw [pushAll, run_bind_ok hrun]
    simp only [List.nil_append, hesp]
    rw [run_bind_ok hcopy]
    rfl
  · rw [hview' a hlo hhi, fullStack, Bytes.store, Bytes.store, hview a hlo hhi]

theorem StackPage.pushAll_over (h : StackPage L root held i n t) {top : ℕ} (htop : top = n * 4096 + 8192)
    (hover : 4096 < argSize argv + frameSize argv) (hsum : argSize argv < top)
    (hlen : argv.length < MAXARG) : ∃ u, pushAll (root i) top argv t = .ok (none, u) := by
  have hlt := h.lt
  have hsmall : frameSize argv ≤ 140 := by
    have hlen' : argv.length < 32 := hlen
    rw [frameSize]
    omega
  have hlen' : ([] : List ℕ).length + argv.length < MAXARG := by rwa [List.length_nil, Nat.zero_add]
  by_cases hstr : argSize argv ≤ 4096
  · have hfit₁ : n * 4096 + 4096 + argSize argv ≤ top := by omega
    obtain ⟨t₁, hrun, h₁, -⟩ := h.pushArgs_fits hfit₁ htop.le (by omega) hlen'
    have hframe : (3 + argv.length + 1) * 4 = frameSize argv := rfl
    have hbytes := frame_bytes_length top argv
    have hesp : (top - argSize argv + (2 ^ 32 - (3 + (ptrsFrom top argv).length + 1) * 4)) % 2 ^ 32 =
        frameAt top argv := by
      rw [ptrsFrom_length, hframe, wrap_sub (by omega) (by omega), frameAt]
    have hend : frameAt top argv + frameSize argv = top - argSize argv :=
      Nat.sub_add_cancel (by omega)
    have hguard : n * 4096 < top - argSize argv := Nat.lt_sub_of_add_lt (by omega)
    have hpos : 0 < frameSize argv := by
      rw [frameSize]
      omega
    obtain ⟨u, hcopy⟩ := h₁.overflow (d := frameAt top argv)
      (b := (ustack (top - argSize argv) (ptrsFrom top argv)).flatMap wordBytes)
      (by rw [frameAt]; omega) (by rw [hbytes, hend]; omega) (by rwa [hbytes, hend])
      (by rwa [hbytes])
    refine ⟨u, ?_⟩
    rw [pushAll, run_bind_ok hrun]
    simp only [List.nil_append, hesp]
    rw [run_bind_ok hcopy]
    rfl
  · have hstr' : top < n * 4096 + 4096 + argSize argv := by
      clear hlen hlen' hover
      omega
    obtain ⟨u, hrun⟩ := h.pushArgs_over (by omega) hstr' hsum (by omega) (by omega) hlen'
    refine ⟨u, ?_⟩
    rw [pushAll, run_bind_ok hrun]
    rfl

/-- The areas of the stack: the three words of the call of `main`, the table, the strings. -/
def areas (esp : ℕ) (argv : List (List UInt8)) (ptrs : List ℕ) : List (ℕ × ℕ) :=
  (esp, 12) :: (esp + 12, 4 * (argv.length + 1)) :: strAreas ptrs argv

/-- What a program finds at its stack pointer: a return address that nobody has, `argc`, `argv`,
and where `argv` points, the table of the strings. -/
structure ArgFrame (m : Bytes) (top esp : ℕ) (argv : List (List UInt8)) (ptrs : List ℕ) : Prop where
  ret : wordAt m esp = 0xffffffff
  argc : wordAt m (esp + 4) = argv.length
  argvp : wordAt m (esp + 8) = esp + 12
  length : ptrs.length = argv.length
  table : ∀ j (hj : j < ptrs.length), wordAt m (esp + 12 + 4 * j) = ptrs[j]
  null : wordAt m (esp + 12 + 4 * argv.length) = 0
  string : ∀ p arg, (p, arg) ∈ ptrs.zip argv → ∀ k, k < arg.length + 1 →
    m (p + k) = (arg ++ [0]).getD k 0
  aligned : ∀ p ∈ ptrs, p % 4 = 0
  inside : ∀ x ∈ areas esp argv ptrs, top - PGSIZE ≤ x.1 ∧ x.1 + x.2 ≤ top
  apart : (areas esp argv ptrs).Pairwise Apart

section Frame
variable {m : Bytes} {top : ℕ} (htop : 4096 ≤ top) (hlt : top < 2 ^ 32) (h4 : top % 4 = 0)
  (hfit : argSize argv + frameSize argv ≤ 4096)
  (hm : ∀ a, top - 4096 ≤ a → a < top → m a = fullStack v top argv a)
include hfit

theorem frame_lo : top - 4096 ≤ frameAt top argv := by
  rw [frameAt, Nat.sub_sub]
  exact Nat.sub_le_sub_left hfit top

include htop

theorem frame_end : frameAt top argv + frameSize argv = top - argSize argv :=
  Nat.sub_add_cancel (by omega)

theorem areas_inside {x : ℕ × ℕ} (hx : x ∈ areas (frameAt top argv) argv (ptrsFrom top argv)) :
    top - 4096 ≤ x.1 ∧ x.1 + x.2 ≤ top := by
  have hlo : top - 4096 ≤ frameAt top argv := frame_lo hfit
  have hend := frame_end htop hfit
  have hsize : frameSize argv = 16 + 4 * argv.length := by
    rw [frameSize]
    omega
  have hle : top - argSize argv ≤ top := Nat.sub_le _ _
  rw [areas, List.mem_cons, List.mem_cons] at hx
  rcases hx with rfl | rfl | hx
  · exact ⟨hlo, by simp only; omega⟩
  · exact ⟨by simp only; omega, by simp only; omega⟩
  · obtain ⟨h1, h2⟩ := strAreas_mem (by omega) hx
    have : frameAt top argv ≤ top - argSize argv := Nat.sub_le _ _
    exact ⟨by omega, h2⟩

theorem areas_apart : (areas (frameAt top argv) argv (ptrsFrom top argv)).Pairwise Apart := by
  have hend := frame_end htop hfit
  have hsize : frameSize argv = 16 + 4 * argv.length := by
    rw [frameSize]
    omega
  have hstr : ∀ x ∈ strAreas (ptrsFrom top argv) argv, frameAt top argv + frameSize argv ≤ x.1 :=
    fun x hx => by
      rw [hend]
      exact (strAreas_mem (by omega) hx).1
  refine .cons (fun x hx => .inl ?_) (.cons (fun x hx => .inl ?_) (strAreas_apart (by omega)))
  · rcases List.mem_cons.mp hx with rfl | hx
    · exact le_rfl
    · have := hstr x hx
      simp only
      omega
  · have := hstr x hx
    simp only
    omega

include hm

theorem frame_bytes {k : ℕ} (hk : k < 4 * (ustack (top - argSize argv) (ptrsFrom top argv)).length) :
    m (frameAt top argv + k) =
      ((ustack (top - argSize argv) (ptrsFrom top argv)).flatMap wordBytes).getD k 0 := by
  rw [← flatMap_wordBytes_length] at hk
  have hk' := hk
  rw [frame_bytes_length] at hk'
  have hlo : top - 4096 ≤ frameAt top argv := frame_lo hfit
  have hend := frame_end htop hfit
  have hle : top - argSize argv ≤ top := Nat.sub_le _ _
  rw [hm _ (by omega) (by omega), fullStack, store_of_mem hk]

include hlt

theorem frame_word {j : ℕ} (hlen : argv.length < MAXARG)
    (hj : j < (ustack (top - argSize argv) (ptrsFrom top argv)).length) :
    wordAt m (frameAt top argv + 4 * j) = (ustack (top - argSize argv) (ptrsFrom top argv))[j] := by
  refine wordAt_store hj (fun x hx => ?_) fun k hk => frame_bytes htop hfit hm hk
  have hlen' : argv.length < 32 := hlen
  simp only [ustack, List.mem_append, List.mem_cons, List.not_mem_nil, or_false] at hx
  rcases hx with ((rfl | rfl | rfl) | hx) | rfl
  · decide
  · rw [ptrsFrom_length]
    omega
  · exact Nat.mod_lt _ (by decide)
  · have := (ptrsFrom_mem (by omega) hx).2.1
    omega
  · decide

include h4

theorem argFrame (hlen : argv.length < MAXARG) :
    ArgFrame m top (frameAt top argv) argv (ptrsFrom top argv) := by
  have hword := fun j => frame_word (j := j) htop hlt hfit hm hlen
  have hlen' : argv.length < 32 := hlen
  have hptrs : (ptrsFrom top argv).length = argv.length := ptrsFrom_length
  have husize : (ustack (top - argSize argv) (ptrsFrom top argv)).length = argv.length + 4 := by
    rw [ustack_length, hptrs]
    omega
  have hstrs : argSize argv ≤ top := by omega
  refine ⟨hword 0 (by omega), ?_, ?_, hptrs, fun j hj => ?_, ?_, fun p arg hp k hk => ?_,
    fun p hp => (ptrsFrom_mem hstrs hp).2.2 h4, fun x hx => areas_inside htop hfit hx,
    areas_apart htop hfit⟩
  · rw [hword 1 (by omega)]
    exact hptrs
  · have hlt' : top - argSize argv < 2 ^ 32 := (Nat.sub_le _ _).trans_lt hlt
    have hend := frame_end htop hfit
    have hsize : frameSize argv = 12 + (argv.length + 1) * 4 := by
      rw [frameSize]
      omega
    rw [hword 2 (by omega)]
    change (top - argSize argv + (2 ^ 32 - ((ptrsFrom top argv).length + 1) * 4)) % 2 ^ 32 = _
    rw [hptrs, wrap_sub (by omega) hlt']
    omega
  · rw [Nat.add_assoc, show 12 + 4 * j = 4 * (j + 3) by omega, hword (j + 3) (by omega)]
    exact List.getElem_append_left hj
  · rw [Nat.add_assoc, show 12 + 4 * argv.length = 4 * (argv.length + 3) by omega,
      hword (argv.length + 3) (by omega)]
    simp [ustack, hptrs]
  · have hend := frame_end htop hfit
    have hstr := strAreas_mem hstrs (x := (p, arg.length + 1)) (List.mem_map.mpr ⟨(p, arg), hp, rfl⟩)
    simp only at hstr
    rw [hm _ (by omega) (by omega), fullStack, store_of_le, layDown_string hstrs hp hk]
    rw [frame_bytes_length]
    omega

end Frame

variable [DecidableEq ι] [DecidableEq κ]

omit [DecidableEq κ] in
theorem Guarded.stackPage (hs : PageTables.Inv L root held 0 s) (h : Guarded L root held i s r n t) :
    StackPage L (Function.update root i r) held i n t := by
  have hroot : Function.update root i r i = r := Function.update_self ..
  refine ⟨h.inv, ?_, ?_, ?_, ?_, ?_⟩
  · rw [hroot]
    exact h.ne_zero hs
  · have hlt : (n + 2) * 4096 < 2147483648 := h.lt
    omega
  · rw [hroot]
    exact h.present
  · rw [hroot]
    exact h.user
  · rw [hroot]
    exact h.guard

/-! ## exec -/

/-- Giving up one directory leaves the memory of another. -/
theorem freevm_view {mem : ℕ} {j : ι} (h : PageTables.Inv L root held mem s) (hi : root i ≠ 0)
    (hj : root j ≠ 0) (hne : j ≠ i) :
    ∃ t, freevm L (root i) s = .ok ((), t) ∧ ∀ a, a < 2 ^ 32 → s.UserAt (root j) a →
      t.UserAt (root j) a ∧ view t (root j) a = view s (root j) a := by
  obtain ⟨t, hrun, ht, -, hfreed, hpage⟩ := h.freevm hi
  -- What belongs to `j` is not among what is given back.
  have hkeep : ∀ p : Place ι κ, (∀ d, p ≠ .root i ∧ p ≠ .table i d ∧ p ≠ .user i d) →
      own root held mem s p ≠ 0 →
      t.page (own root held mem s p) = s.page (own root held mem s p) := fun p hp h0 => by
    refine hpage _ fun hc => ?_
    rcases hfreed _ hc with hf | hf | ⟨d, hf⟩ | ⟨vq, hf⟩
    · exact h.not_free h0 hf
    · exact (hp 0).1 (h.owns.inj p (.root i) hf h0)
    · exact (hp d).2.1 (h.owns.inj p (.table i d) (hf.symm.trans (own_table hi).symm) h0)
    · exact (hp vq).2.2 (h.owns.inj p (.user i vq) (hf.symm.trans (own_user hi).symm) h0)
  have hroot : t.page (root j) = s.page (root j) :=
    hkeep (.root j) (fun d => by simp [hne]) hj
  have hpte : ∀ vp, t.pte (root j) vp = s.pte (root j) vp := fun vp => by
    refine pte_congr hroot fun h0 => ?_
    have := hkeep (.table j (vp / 1024)) (fun d => by simp [hne]) (by rwa [own_table hj])
    rwa [own_table hj] at this
  have hj' : Function.update root i 0 j = root j := Function.update_of_ne hne ..
  refine ⟨t, hrun, fun a ha hu => ?_⟩
  have hlook : t.lookup (root j) a = s.lookup (root j) a := by
    have hlook := ht.lookup (by rwa [hj']) ha
    rw [hj'] at hlook
    rw [hlook, h.lookup hj ha, table_congr hroot, hpte]
  refine ⟨?_, ?_⟩
  · obtain ⟨e, he, huser⟩ := hu
    exact ⟨e, hlook.trans he, huser⟩
  · have hloc := h.loc_userAt hj ha hu
    have hown : own root held mem s (.user j (a / PGSIZE) : Place ι κ) ≠ 0 := by
      obtain ⟨hvp, hp⟩ := h.userAt_page hj ha hu
      rw [own_present hj hvp hp]
      exact h.frame_ne j _ hj hvp hp
    have hloc' : t.loc (root j) a = s.loc (root j) a := by rw [Mem.loc, Mem.loc, hlook]
    rw [view, view, hloc', hloc, Mem.byte, Mem.byte, hkeep _ (fun d => by simp [hne]) hown]

variable {E : Env} {B : InodeCache.Slot → ℕ} {K : List InodeCache.Slot} {w w₁ : World} {p : Process}
  {path : List UInt8} {im : Image}

/-- What `exec` does with the arguments, once the image `im` has been built. -/
structure ArgStackMeets (E : Env) (p : Process) (path : List UInt8) (argv : List (List UInt8))
    (w : World) (im : Image) : Prop where
  fits : argSize argv + frameSize argv ≤ PGSIZE → ∃ p' w' ptrs,
    exec E p path argv w = .ok ((0, p'), w') ∧ p'.pgdir = im.pgdir ∧ p'.sz = im.sz ∧
      ArgFrame (view w'.mem p'.pgdir) p'.sz p'.tf.esp argv ptrs ∧
      ∀ a, p'.sz - PGSIZE ≤ a → a < p'.sz → w'.mem.UserAt p'.pgdir a
  tooLong : PGSIZE < argSize argv + frameSize argv → ∃ w', exec E p path argv w = .ok ((-1, p), w')

theorem commit_run (path : List UInt8) (esp : ℕ) {u : Mem} (hk : p.kstack ≠ 0) (him : im.pgdir ≠ 0)
    (hfree : freevm E.L p.pgdir w.mem = .ok ((), u)) :
    commit E p im path esp w = .ok ((0, { p with
      pgdir := im.pgdir, sz := im.sz, tf := ⟨im.entry, esp⟩, name := (lastElem path).take 15 }),
      { w with mem := u }) := by
  have hsw : switchuvm ⟨im.pgdir, im.sz, p.kstack⟩ w.mem = .ok ((), w.mem) := by
    rw [switchuvm, if_neg hk, if_neg him]
    rfl
  rw [commit, run_bind_ok (onMem_ok hsw), run_bind_ok (onMem_ok hfree)]
  rfl

theorem exec_pushed {u : Mem} {esp : ℕ} (hready : execReady E p.cwd path w = .ok (some im, w₁))
    (hrun : pushAll im.pgdir im.sz argv w₁.mem = .ok (some esp, u)) :
    exec E p path argv w = commit E p im path esp { w₁ with mem := u } := by
  rw [exec, run_bind_ok hready]
  dsimp only
  rw [execPush, run_bind_ok (onMem_ok hrun)]

theorem exec_not_pushed {u x : Mem} (hready : execReady E p.cwd path w = .ok (some im, w₁))
    (hrun : pushAll im.pgdir im.sz argv w₁.mem = .ok (none, u)) (him : im.pgdir ≠ 0)
    (hfree : freevm E.L im.pgdir u = .ok ((), x)) :
    exec E p path argv w = .ok ((-1, p), { w₁ with mem := x }) := by
  have hbad : bad E im.pgdir none { w₁ with mem := u } = .ok ((), { w₁ with mem := x }) := by
    rw [Exec.bad, if_pos him]
    exact run_bind_ok (onMem_ok hfree)
  rw [exec, run_bind_ok hready]
  dsimp only
  rw [execPush, run_bind_ok (onMem_ok hrun)]
  exact run_bind_ok hbad

theorem exec_arg_stack {s : Sys ι κ} (h : (pageSystem E.L ι κ).Reachable s) (hmem : w.mem = s.mem)
    (hfs : InodeCache.Good E.sb B K w.fs) (hcwd : 0 < B p.cwd) (hp : p.pgdir = s.root i)
    (hi : s.root i ≠ 0) (hk : p.kstack ≠ 0) (hready : execReady E p.cwd path w = .ok (some im, w₁))
    (hlen : argv.length < MAXARG) (hsum : argSize argv < im.sz) :
    ArgStackMeets E p path argv w im := by
  have hinv : PageTables.Inv E.L s.root s.held 0 w.mem := by
    rw [hmem]
    exact reachable_inv h
  have hstacked : Stacked E (withSlot s.root) s.held none B K w (some im) w₁ :=
    (execReady_spec hinv.withSlot rfl hfs hcwd path).ok rfl hready
  obtain ⟨hclosed, n, hsz, hguard⟩ := hstacked
  have hstack := Guarded.stackPage hinv.withSlot hguard
  set root' := Function.update (withSlot s.root) none im.pgdir with hroot'
  have hnew : root' none = im.pgdir := Function.update_self ..
  have hold : root' (some i) = p.pgdir := (Function.update_of_ne (by simp) ..).trans hp.symm
  have hold0 : root' (some i) ≠ 0 := by
    rw [hold, hp]
    exact hi
  have htop : im.sz = n * 4096 + 8192 := by
    rw [hsz]
    exact Nat.add_mul n 2 4096
  refine ⟨fun hfit => ?_, fun hover => ?_⟩
  · obtain ⟨u, hrun, hu, hview⟩ := hstack.pushAll_fits htop hfit hlen
    obtain ⟨x, hfree, hkeep⟩ := freevm_view (j := none) hu.inv hold0 hu.ne (by simp)
    rw [hnew] at hrun hview hkeep
    rw [hold] at hfree
    have hcommit := commit_run path (frameAt im.sz argv) (w := { w₁ with mem := u }) hk (hnew ▸ hu.ne) hfree
    have huser : ∀ a, n * 4096 + 4096 ≤ a → a < n * 4096 + 8192 → u.UserAt im.pgdir a :=
      fun a hlo hhi => by
        rw [← hnew, hu.userAt_iff hhi]
        omega
    have hexec := (exec_pushed hready hrun).trans hcommit
    have hafter : ∀ a, im.sz - 4096 ≤ a → a < im.sz → x.UserAt im.pgdir a ∧
        view x im.pgdir a = fullStack (view w₁.mem im.pgdir) im.sz argv a := fun a hlo hhi => by
      obtain ⟨hua, hva⟩ := hkeep a (hstack.lt_word (by omega)) (huser a (by omega) (by omega))
      exact ⟨hua, hva.trans (hview a (by omega) (by omega))⟩
    have hlow : 4096 ≤ im.sz := by omega
    have h4 : im.sz % 4 = 0 := by omega
    refine ⟨_, _, ptrsFrom im.sz argv, hexec, rfl, rfl, ?_, fun a hlo hhi => (hafter a hlo hhi).1⟩
    exact argFrame hlow (hstack.lt_sp htop.le) h4 hfit (fun a hlo hhi => (hafter a hlo hhi).2) hlen
  · obtain ⟨u, hrun⟩ := hstack.pushAll_over htop hover hsum hlen
    rw [hnew] at hrun
    have hfresh := (pushAll_fresh hinv.withSlot hguard.toFresh im.sz argv).ok rfl hrun
    obtain ⟨x, hfree, -⟩ := Fresh.restored hinv.withSlot rfl hfresh
    exact ⟨_, exec_not_pushed hready hrun (hnew ▸ hstack.ne) hfree⟩

/-! ### A program without segments -/

/-- The header of a program without segments. -/
def bareElf : List UInt8 := [0x7f, 0x45, 0x4c, 0x46] ++ List.replicate 48 0

/-- A device delivers the program. -/
def bareEnv : Env := ⟨bootSymbols, FsBlocks.mkfsSb, fun _ _ => some bareElf⟩

attribute [local instance] FileTable.nproc_neZero

def makeDevice : List (FileTable.Proc × FileCalls.Call) := [(0, .mknod (some [97]) (some 1) (some 1))]

/-- The inodes after each of the steps of `exec` that use them, for the path `a`. -/
structure DeviceRead (B : InodeCache.Slot → ℕ) (s t u v : InodeCache.St) (ip : InodeCache.Slot) :
    Prop where
  good : InodeCache.Good FsBlocks.mkfsSb B [] s
  cwd : 0 < B 0
  namei : InodeCache.namei FsBlocks.mkfsSb 0 [97] s = .ok (some ip, t)
  ilock : InodeCache.ilock ip t = .ok ((), u)
  read : InodeCache.fileRead FsBlocks.mkfsSb bareEnv.driver ip 0 InodeCache.ELFHDR u =
    .ok (some bareElf, u)
  iunlockput : InodeCache.iunlockput ip u = .ok ((), v)

/-- The steps of `exec` up to the read of a device go through. -/
def findsDevice (cwd : InodeCache.Slot) (s : InodeCache.St) : Bool :=
  match InodeCache.namei FsBlocks.mkfsSb cwd [97] s with
  | .ok (some ip, t) =>
    match InodeCache.ilock ip t with
    | .ok (_, u) => (u.icache ip).ip.type == FsBlocks.T_DEV &&
      (InodeCache.iunlockput ip u).toOption.isSome
    | .error _ => false
  | _ => false

theorem exists_of_findsDevice {cwd : InodeCache.Slot} {s : InodeCache.St}
    (h : findsDevice cwd s = true) :
    ∃ ip t u x, InodeCache.namei FsBlocks.mkfsSb cwd [97] s = .ok (some ip, t) ∧
      InodeCache.ilock ip t = .ok ((), u) ∧ (u.icache ip).ip.type = FsBlocks.T_DEV ∧
      InodeCache.iunlockput ip u = .ok x := by
  unfold findsDevice at h
  split at h
  · rename_i ip t hnamei
    split at h
    · rename_i u hlock
      rw [Bool.and_eq_true, beq_iff_eq] at h
      obtain ⟨htype, hput⟩ := h
      cases hx : InodeCache.iunlockput ip u with
      | error e =>
        rw [hx] at hput
        cases hput
      | ok x => exact ⟨ip, t, u, x, hnamei, hlock, htype, hx⟩
    · cases h
  · cases h

theorem exists_deviceRead : ∃ B s t u v ip, DeviceRead B s t u v ip := by
  have h : ((runNext (FileCalls.next FsBlocks.mkfsSb) (FileCalls.boot FsBlocks.mkfsImage)
      makeDevice).any fun s => (s.fs.icache 0).ref == 1 && findsDevice 0 s.fs) = true := by
    decide +kernel
  obtain ⟨s, hs, hok⟩ := (Option.any_eq_true ..).mp h
  have hreach : (FileCalls.system FsBlocks.mkfsSb (FileCalls.Image FsBlocks.mkfsSb)).Reachable s :=
    ⟨_, makeDevice, ⟨_, FileCalls.mkfsImage_image, rfl⟩, run_of_runNext hs⟩
  have hgood := (FileCalls.reachable_kept hreach).held.good
  rw [Bool.and_eq_true, beq_iff_eq] at hok
  obtain ⟨href, hok⟩ := hok
  have hcwd : 0 < s.base 0 := by
    have := hgood.ref 0
    rw [href, List.count_nil] at this
    omega
  obtain ⟨ip, t, u, x, hnamei, hlock, htype, hput⟩ := exists_of_findsDevice hok
  refine ⟨_, _, t, u, x.2, ip, hgood, hcwd, hnamei, hlock, ?_, hput⟩
  rw [InodeCache.fileRead, run_get_bind, if_pos htype]
  rfl

/-- Memory after each of the steps of `exec` that use it, for a program without segments. -/
theorem exists_stack {s : Sys Unit Unit} (hs : OneProcess 0 s)
    (hlen : 56044 ≤ s.mem.freelist.length) :
    ∃ r m₁ m₂ m₃, setupkvm bootSymbols s.mem = .ok (some r, m₁) ∧
      allocuvm bootSymbols r 0 0x2000 m₁ = .ok (0x2000, m₂) ∧
      clearpteu r 0 m₂ = .ok ((), m₃) := by
  have hinv : PageTables.Inv bootSymbols (withSlot s.root) s.held 0 s.mem :=
    Inv.withSlot (reachable_inv hs.reachable)
  obtain ⟨r, m₁, hrun₁, hnew⟩ := hinv.setupkvm_enough (i := none) rfl
    (lt_of_lt_of_le (by decide) hlen)
  have hlen₁ : 56044 ≤ m₁.freelist.length + (1 + 1024) := hlen.trans (hnew.length hinv)
  have hroot : Function.update (withSlot s.root) none r none = r := Function.update_self ..
  have hr : Function.update (withSlot s.root) none r none ≠ 0 := by
    rw [hroot]
    exact hnew.ne_zero hinv
  have hpages : pages 0x2000 ≤ 2 := by decide
  obtain ⟨q, m₂, hrun₂, hout⟩ := (hnew.inv.allocuvm hr (show 0 ≤ 0x2000 from Nat.zero_le _)
    (by decide) fun vq _ hlt hp => by
      rw [hroot, hnew.empty vq (below_user (by decide) hlt)] at hp
      exact not_present_zero hp).returns
  rw [hroot] at hrun₂
  have hq : q = 0x2000 := by
    rcases hout with ⟨hq, -⟩ | ⟨-, -, hlt⟩
    · exact hq
    · have hlt' : m₁.freelist.length < 2 * (pages 0x2000 - pages 0) := hlt
      omega
  subst hq
  rcases (hnew.loaded.allocuvm (F := fun _ => True) hinv).ok rfl hrun₂ with ⟨h0, -⟩ | ⟨-, -, hloaded⟩
  · cases h0
  have hloaded' : Loaded bootSymbols (withSlot s.root) s.held none s.mem r ((0 + 2) * PGSIZE) m₂ :=
    hloaded
  obtain ⟨m₃, hrun₃, -⟩ := hloaded'.clearpteu hinv
  rw [Nat.zero_mul] at hrun₃
  exact ⟨r, m₁, m₂, m₃, hrun₁, hrun₂, hrun₃⟩

theorem onFs_ok {α : Type} {m : InodeCache.Ic α} {a : α} {t : InodeCache.St}
    (h : m w.fs = .ok (a, t)) : onFs m w = .ok (a, { w with fs := t }) := by
  rw [onFs, h]

theorem execReady_bare {B : InodeCache.Slot → ℕ} {s t u v : InodeCache.St} {ip : InodeCache.Slot}
    {m m₁ m₂ m₃ : Mem} {r : ℕ} (hfs : DeviceRead B s t u v ip)
    (h₁ : setupkvm bootSymbols m = .ok (some r, m₁))
    (h₂ : allocuvm bootSymbols r 0 0x2000 m₁ = .ok (0x2000, m₂))
    (h₃ : clearpteu r 0 m₂ = .ok ((), m₃)) :
    execReady bareEnv 0 [97] ⟨s, m, 0, 0⟩ = .ok (some ⟨r, 0x2000, 0⟩, ⟨v, m₃, 1, 1⟩) := by
  have hload : execLoad bareEnv r ip (InodeCache.field bareElf 44 2) (InodeCache.field bareElf 28 4) 0
      ⟨u, m₁, 1, 0⟩ = .ok (some 0, ⟨u, m₁, 1, 0⟩) := by
    have h0 : InodeCache.field bareElf 44 2 = 0 := by decide
    rw [h0]
    rfl
  have hfile : execFile bareEnv ip r bareElf ⟨u, m₁, 1, 0⟩ = .ok (some ⟨r, 0, 0⟩, ⟨v, m₁, 1, 1⟩) := by
    rw [execFile, run_bind_ok hload]
    dsimp only
    rw [run_bind_ok (onFs_ok hfs.iunlockput)]
    rfl
  have hopen : execOpen bareEnv ip ⟨u, m, 1, 0⟩ = .ok (some ⟨r, 0, 0⟩, ⟨v, m₁, 1, 1⟩) := by
    rw [execOpen, run_bind_ok (onFs_ok hfs.read)]
    dsimp only
    rw [if_neg (by decide), run_bind_ok (onMem_ok h₁)]
    exact hfile
  have himage : execImage bareEnv 0 [97] ⟨s, m, 0, 0⟩ = .ok (some ⟨r, 0, 0⟩, ⟨v, m₁, 1, 1⟩) := by
    have hbegin : begin_op ⟨s, m, 0, 0⟩ = .ok ((), ⟨s, m, 1, 0⟩) := rfl
    rw [execImage, run_bind_ok hbegin, run_bind_ok (onFs_ok hfs.namei)]
    dsimp only
    rw [run_bind_ok (onFs_ok hfs.ilock)]
    exact hopen
  rw [execReady, run_bind_ok himage]
  dsimp only
  have hup : PGROUNDUP 0 = 0 := by decide
  have hnew : (0 + 2 * PGSIZE) % 2 ^ 32 = 0x2000 := by decide
  rw [execStack]
  dsimp only
  rw [hup, hnew, run_bind_ok (onMem_ok h₂), if_neg (by decide), run_bind_ok (onMem_ok h₃)]
  rfl

theorem exec_arg_stack_bare : ∃ (s : Sys Unit Unit) (w w₁ : World) (im : Image),
    execReady bareEnv 0 [97] w = .ok (some im, w₁) ∧
    ArgStackMeets bareEnv ⟨⟨s.root (), 0, s.held ()⟩, ⟨0, 0⟩, [], 0⟩ [97] [[97], [98, 99]] w im := by
  obtain ⟨s, hs, hlen⟩ := exists_emptyProcess
  obtain ⟨B, f, t, u, v, ip, hfs⟩ := exists_deviceRead
  obtain ⟨r, m₁, m₂, m₃, h₁, h₂, h₃⟩ := exists_stack hs hlen
  have hready := execReady_bare hfs h₁ h₂ h₃
  set w : World := ⟨f, s.mem, 0, 0⟩
  set p : Process := ⟨⟨s.root (), 0, s.held ()⟩, ⟨0, 0⟩, [], 0⟩
  have hr : (pageSystem bareEnv.L Unit Unit).Reachable s := hs.reachable
  have hsum : argSize [[97], [98, 99]] < 0x2000 := by decide
  exact ⟨s, w, _, _, hready, exec_arg_stack hr (w := w) rfl hfs.good (p := p) hfs.cwd rfl hs.root_ne
    hs.kstack_ne hready (by decide) hsum⟩

end Ostep.Exec

import Mathlib.Data.List.Induction
import Mathlib.Tactic.Common

/-!
# Run-length coding with an absorption rule

A run is closed by the first element its head does not absorb. With equality as the rule this
is ordinary run-length coding; a coarser rule also swallows foreign elements, and expansion
then returns them as copies of the head. The loss is exactly measured by `smear`.
-/

namespace Ostep.RunLength

variable {α : Type*} (absorbs : α → α → Bool)

/-- The runs of `curr` (seen `n` times so far) followed by the given text. -/
def runsFrom (curr : α) (n : ℕ) : List α → List (ℕ × α)
  | [] => [(n, curr)]
  | c :: cs => if absorbs curr c then runsFrom curr (n + 1) cs else (n, curr) :: runsFrom c 1 cs

def expand (runs : List (ℕ × α)) : List α := runs.flatMap (fun r => List.replicate r.1 r.2)

/-- The text with every absorbed element replaced by the head that absorbed it. -/
def smear (curr : α) : List α → List α
  | [] => []
  | c :: cs => if absorbs curr c then curr :: smear curr cs else c :: smear c cs

@[simp] theorem expand_nil : expand ([] : List (ℕ × α)) = [] := rfl

@[simp] theorem expand_cons (r : ℕ × α) (rs : List (ℕ × α)) :
    expand (r :: rs) = List.replicate r.1 r.2 ++ expand rs := rfl

@[simp] theorem expand_append (rs qs : List (ℕ × α)) :
    expand (rs ++ qs) = expand rs ++ expand qs := by
  simp [expand]

theorem expand_runsFrom (curr : α) (n : ℕ) (cs : List α) :
    expand (runsFrom absorbs curr n cs) = List.replicate n curr ++ smear absorbs curr cs := by
  induction cs generalizing curr n with
  | nil => simp [runsFrom, smear]
  | cons c cs ih =>
    by_cases h : absorbs curr c
    · simp [runsFrom, smear, h, ih, List.replicate_succ']
    · simp [runsFrom, smear, h, ih]

@[simp] theorem smear_length (curr : α) (cs : List α) :
    (smear absorbs curr cs).length = cs.length := by
  induction cs generalizing curr with
  | nil => rfl
  | cons c cs ih =>
    simp only [smear]
    split_ifs <;> simp [ih]

theorem runsFrom_pos (curr : α) (n : ℕ) (hn : 0 < n) (cs : List α) :
    ∀ r ∈ runsFrom absorbs curr n cs, 0 < r.1 := by
  induction cs generalizing curr n with
  | nil => simpa [runsFrom] using hn
  | cons c cs ih =>
    simp only [runsFrom]
    split_ifs with h
    · exact ih curr (n + 1) (by omega)
    · intro r hr
      rcases List.mem_cons.mp hr with rfl | hr
      · exact hn
      · exact ih c 1 (by omega) r hr

theorem runsFrom_mem (curr : α) (n : ℕ) (cs : List α) :
    ∀ r ∈ runsFrom absorbs curr n cs, r.2 = curr ∨ r.2 ∈ cs := by
  induction cs generalizing curr n with
  | nil => simp [runsFrom]
  | cons c cs ih =>
    simp only [runsFrom]
    split_ifs with h
    · intro r hr
      rcases ih curr (n + 1) r hr with h' | h'
      · exact Or.inl h'
      · exact Or.inr (List.mem_cons_of_mem _ h')
    · intro r hr
      rcases List.mem_cons.mp hr with rfl | hr
      · exact Or.inl rfl
      · rcases ih c 1 r hr with h' | h'
        · exact Or.inr (by simp [h'])
        · exact Or.inr (List.mem_cons_of_mem _ h')

/-- An expansion ends in the character of its last run. -/
theorem expand_getLast? (runs : List (ℕ × α)) (h : ∀ r ∈ runs, 0 < r.1) :
    (expand runs).getLast? = runs.getLast?.map Prod.snd := by
  induction runs using List.reverseRecOn with
  | nil => rfl
  | append_singleton runs r _ =>
    have hr : 0 < r.1 := h r (by simp)
    obtain ⟨k, hk⟩ : ∃ k, r.1 = k + 1 := ⟨r.1 - 1, by omega⟩
    simp [hk, List.replicate_succ', ← List.append_assoc]

theorem runsFrom_replicate {c : α} (hself : absorbs c c = true) (k n : ℕ) (cs : List α) :
    runsFrom absorbs c k (List.replicate n c ++ cs) = runsFrom absorbs c (k + n) cs := by
  induction n generalizing k with
  | zero => rfl
  | succ n ih =>
    rw [List.replicate_succ, List.cons_append, runsFrom, if_pos hself, ih]
    congr 1
    omega

/-- Runs of which none goes on with the next come back from their text. -/
theorem runsFrom_expand (hself : ∀ c, absorbs c c = true) {n : ℕ} {c : α} {rs : List (ℕ × α)}
    (hpos : ∀ r ∈ rs, 0 < r.1)
    (hnew : ((n, c) :: rs).IsChain (fun r q => absorbs r.2 q.2 = false)) :
    runsFrom absorbs c n (expand rs) = (n, c) :: rs := by
  induction rs generalizing n c with
  | nil => rfl
  | cons r rs ih =>
    obtain ⟨m, x⟩ := r
    obtain ⟨hr, hchain⟩ := List.isChain_cons_cons.mp hnew
    obtain ⟨hm, hrest⟩ := List.forall_mem_cons.mp hpos
    obtain ⟨m, rfl⟩ : ∃ m', m = m' + 1 := ⟨m - 1, by simp only at hm; omega⟩
    rw [expand_cons, List.replicate_succ, List.cons_append, runsFrom, if_neg (by simpa using hr),
      runsFrom_replicate _ (hself x), Nat.add_comm 1 m, ih hrest hchain]

/-! ## Long runs -/

/-- `k` elements in a row of which the first absorbs the others. -/
def Window (k : ℕ) (cs : List α) : Prop :=
  ∃ c w, c :: w <:+: cs ∧ w.length + 1 = k ∧ ∀ d ∈ w, absorbs c d = true

theorem exists_prefix_iff {p : α → Bool} {cs : List α} {m : ℕ} :
    (∃ w, w <+: cs ∧ w.length = m ∧ ∀ d ∈ w, p d = true) ↔ m ≤ (cs.takeWhile p).length := by
  constructor
  · rintro ⟨w, ⟨t, rfl⟩, rfl, hw⟩
    rw [List.takeWhile_append_of_pos hw, List.length_append]
    omega
  · intro h
    refine ⟨(cs.takeWhile p).take m, (List.take_prefix _ _).trans (List.takeWhile_prefix p), ?_, ?_⟩
    · rw [List.length_take]
      omega
    · intro d hd
      exact List.all_eq_true.mp List.all_takeWhile d (List.mem_of_mem_take hd)

theorem window_cons {k : ℕ} (hk : 0 < k) (c : α) (cs : List α) :
    Window absorbs k (c :: cs) ↔
      k ≤ 1 + (cs.takeWhile (absorbs c)).length ∨ Window absorbs k cs := by
  have hprefix : (∃ c' w, c' :: w <+: c :: cs ∧ w.length + 1 = k ∧ ∀ d ∈ w, absorbs c' d = true) ↔
      k ≤ 1 + (cs.takeWhile (absorbs c)).length := by
    have := @exists_prefix_iff _ (absorbs c) cs (k - 1)
    constructor
    · rintro ⟨c', w, hw, hlen, hall⟩
      obtain ⟨rfl, hw'⟩ := List.cons_prefix_cons.mp hw
      have := this.mp ⟨w, hw', by omega, hall⟩
      omega
    · intro h
      obtain ⟨w, hw, hlen, hall⟩ := this.mpr (by omega)
      exact ⟨c, w, List.cons_prefix_cons.mpr ⟨rfl, hw⟩, by omega, hall⟩
  rw [← hprefix]
  constructor
  · rintro ⟨c', w, hw, hrest⟩
    rcases List.infix_cons_iff.mp hw with hw | hw
    · exact .inl ⟨c', w, hw, hrest⟩
    · exact .inr ⟨c', w, hw, hrest⟩
  · rintro (⟨c', w, hw, hrest⟩ | ⟨c', w, hw, hrest⟩)
    · exact ⟨c', w, hw.isInfix, hrest⟩
    · exact ⟨c', w, List.infix_cons hw, hrest⟩

/-- A long run is a window, the open run being `n` long already. -/
theorem exists_run_iff (htrans : ∀ a c d, absorbs a c = true → absorbs c d = true → absorbs a d = true)
    {k : ℕ} (hk : 0 < k) (curr : α) (n : ℕ) (cs : List α) :
    (∃ r ∈ runsFrom absorbs curr n cs, k ≤ r.1) ↔
      k ≤ n + (cs.takeWhile (absorbs curr)).length ∨ Window absorbs k cs := by
  induction cs generalizing curr n with
  | nil => simp [runsFrom, Window]
  | cons c cs ih =>
    rw [window_cons absorbs hk]
    by_cases h : absorbs curr c = true
    · have hle : (cs.takeWhile (absorbs c)).length ≤ (cs.takeWhile (absorbs curr)).length := by
        obtain ⟨w, hw, hlen, hall⟩ := exists_prefix_iff.mpr (Nat.le_refl (cs.takeWhile (absorbs c)).length)
        rw [← hlen]
        exact exists_prefix_iff.mp ⟨w, hw, rfl, fun d hd => htrans _ _ _ h (hall d hd)⟩
      rw [runsFrom, if_pos h, ih, List.takeWhile_cons_of_pos h, List.length_cons]
      constructor
      · rintro (h | h)
        · exact .inl (by omega)
        · exact .inr (.inr h)
      · rintro (h | h | h)
        · exact .inl (by omega)
        · exact .inl (by omega)
        · exact .inr h
    · rw [runsFrom, if_neg h, List.takeWhile_cons_of_neg h, List.length_nil, Nat.add_zero]
      simp only [List.mem_cons, exists_eq_or_imp, ih]

end Ostep.RunLength

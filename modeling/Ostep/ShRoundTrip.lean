import Ostep.ByteBuffer
import Ostep.ShGrammar
import Mathlib.Data.List.Forall2

/-!
# Printing and parsing

With a space behind every token the cursor stands at the start of a token, or at the end, whenever
a parsing function is called or returns. So each of them takes exactly the tokens of what it
parses, whatever follows that may follow.
-/

namespace Ostep.ShParser
open Hoare ByteBuffer

variable {s w : List UInt8} {i : ℕ} {ts : List Tok} {c : UInt8}

/-! ## Tokens -/

def Tok.Ok : Tok → Prop
  | .word w => WordOk w
  | .sym c => c ∈ symbols

/-- The cursor stands before these tokens. -/
def At (s : List UInt8) (i : ℕ) (ts : List Tok) : Prop :=
  ∃ pre, s = pre ++ textOf ts ∧ i = pre.length

/-- A string of the command: `w`, and a space behind it. -/
def Points (s : List UInt8) (a : Span) (w : Word) : Prop :=
  WordOk w ∧ a.eq = a.q + w.length ∧ ∃ pre rest, s = pre ++ w ++ 32 :: rest ∧ a.q = pre.length

theorem textOf_cons (t : Tok) (ts : List Tok) : textOf (t :: ts) = t.text ++ 32 :: textOf ts := by
  simp [textOf]

theorem charAt_append {pre rest : List UInt8} (h : s = pre ++ c :: rest) :
    charAt s pre.length = c := by
  rw [charAt, h, List.getD]
  simp

theorem charAt_end (h : s.length ≤ i) : charAt s i = 0 := by
  rw [charAt, List.getD, List.getElem?_eq_none h]
  rfl

theorem skip_stop {p : UInt8 → Bool} (h : p (charAt s i) = false) (n : ℕ) : skip s p n i = i := by
  cases n with
  | zero => rfl
  | succ n => rw [skip, h, if_neg Bool.false_ne_true]

theorem skip_run {p : UInt8 → Bool} {pre w rest : List UInt8} (hs : s = pre ++ w ++ rest)
    (hw : ∀ c ∈ w, p c = true) (hstop : p (charAt s (pre.length + w.length)) = false) {n : ℕ}
    (hn : w.length ≤ n) : skip s p n pre.length = pre.length + w.length := by
  induction w generalizing pre n with
  | nil => exact skip_stop hstop n
  | cons c w ih =>
    obtain ⟨n, rfl⟩ : ∃ k, n = k + 1 := ⟨n - 1, by simp at hn; omega⟩
    obtain ⟨hc, hw⟩ := List.forall_mem_cons.mp hw
    have hchar : charAt s pre.length = c := charAt_append (show s = pre ++ c :: (w ++ rest) by rw [hs]; simp)
    have hlen : (pre ++ [c]).length = pre.length + 1 := by simp
    rw [List.length_cons] at hstop hn ⊢
    rw [skip, hchar, if_pos hc, ← hlen, ih (by rw [hs]; simp) hw ?_ (by omega), hlen]
    · omega
    · rw [hlen, show pre.length + 1 + w.length = pre.length + (w.length + 1) by omega]
      exact hstop

theorem not_space_of_symbol (hc : c ∈ symbols) : whitespace.contains c = false := by
  have hall : symbols.all (fun c => !whitespace.contains c) = true := rfl
  simpa using List.all_eq_true.mp hall c hc

theorem WordChar.not_space (hc : WordChar c) : whitespace.contains c = false := by
  simpa using hc.2.1

/-- No token begins with a space. -/
theorem Tok.Ok.head {t : Tok} (h : t.Ok) : ∃ c rest, t.text = c :: rest ∧ c ≠ 0 ∧
    whitespace.contains c = false := by
  cases t with
  | word w =>
    obtain ⟨hne, hw⟩ := h
    obtain ⟨c, rest, rfl⟩ := List.exists_cons_of_ne_nil hne
    have hc := hw c List.mem_cons_self
    exact ⟨c, rest, rfl, hc.1, hc.not_space⟩
  | sym c =>
    refine ⟨c, [], rfl, ?_, not_space_of_symbol h⟩
    rintro rfl
    exact absurd (show (0 : UInt8) ∈ symbols from h) (by decide)

theorem At.charAt_nil (h : At s i []) : charAt s i = 0 ∧ i = s.length := by
  obtain ⟨pre, rfl, rfl⟩ := h
  have hnil : textOf [] = [] := rfl
  rw [hnil, List.append_nil]
  exact ⟨charAt_end (Nat.le_refl _), rfl⟩

theorem At.charAt_cons {t : Tok} {rest : List UInt8} (h : At s i (t :: ts))
    (ht : t.text = c :: rest) : charAt s i = c := by
  obtain ⟨pre, rfl, rfl⟩ := h
  rw [textOf_cons, ht]
  exact charAt_append rfl

theorem At.skipSpace (h : At s i ts) (hok : ∀ t ∈ ts, t.Ok) : skipSpace s i = i := by
  refine skip_stop ?_ _
  cases ts with
  | nil => rw [h.charAt_nil.1]; rfl
  | cons t ts =>
    obtain ⟨c, rest, htext, -, hc⟩ := (hok t List.mem_cons_self).head
    rw [h.charAt_cons htext, hc]

/-- The space behind a token leads to the next one. -/
theorem At.next {t : Tok} (h : At s i (t :: ts)) (hok : ∀ t ∈ ts, t.Ok) :
    ShParser.skipSpace s (i + t.text.length) = i + t.text.length + 1 ∧
      At s (i + t.text.length + 1) ts := by
  obtain ⟨pre, hs, rfl⟩ := h
  rw [textOf_cons] at hs
  have hlen : (pre ++ t.text).length = pre.length + t.text.length := List.length_append
  have hs' : s = (pre ++ t.text) ++ [32] ++ textOf ts := by rw [hs]; simp
  have hnext : At s (pre.length + t.text.length + 1) ts :=
    ⟨pre ++ t.text ++ [32], hs', by simp [Nat.add_assoc]⟩
  refine ⟨?_, hnext⟩
  have hstop := hnext.skipSpace hok
  have hspace : whitespace.contains (charAt s (pre.length + t.text.length + 1)) = false := by
    cases ts with
    | nil => rw [hnext.charAt_nil.1]; rfl
    | cons u us =>
      obtain ⟨c, rest, htext, -, hc⟩ := (hok u List.mem_cons_self).head
      rw [hnext.charAt_cons htext, hc]
  rw [← hlen]
  refine skip_run hs' (List.forall_mem_singleton.mpr rfl) (by simpa [hlen] using hspace) ?_
  have := congrArg List.length hs'
  simp only [List.length_append, List.length_cons, List.length_nil] at this
  rw [hlen, this]
  simp only [List.length_cons, List.length_nil]
  omega

/-! ## gettoken and peek -/

theorem gettoken_eq (s : List UInt8) (i : ℕ) : gettoken s i =
    .ok (⟨(scan s (skipSpace s i)).1, skipSpace s i, (scan s (skipSpace s i)).2⟩,
      skipSpace s (scan s (skipSpace s i)).2) := rfl

theorem At.space {t : Tok} (h : At s i (t :: ts)) : charAt s (i + t.text.length) = 32 := by
  obtain ⟨pre, hs, rfl⟩ := h
  rw [textOf_cons, ← List.append_assoc] at hs
  rw [← List.length_append]
  exact charAt_append hs

theorem scan_word (h : At s i (.word w :: ts)) (hw : WordOk w) : scan s i = (97, i + w.length) := by
  obtain ⟨c, rest, rfl⟩ := List.exists_cons_of_ne_nil hw.1
  obtain ⟨h0, -, hsym⟩ := hw.2 c List.mem_cons_self
  have hchar : charAt s i = c := h.charAt_cons rfl
  have hne : ∀ d ∈ symbols, c ≠ d := fun d hd hcd => hsym (hcd ▸ hd)
  have hone : ¬ (c = 124 ∨ c = 40 ∨ c = 41 ∨ c = 59 ∨ c = 38 ∨ c = 60) := by
    rintro (h | h | h | h | h | h) <;> exact hne _ (by decide) h
  have hspace := h.space
  obtain ⟨pre, hs, rfl⟩ := h
  rw [textOf_cons, ← List.append_assoc] at hs
  have hword : ∀ d ∈ c :: rest, (!whitespace.contains d && !symbols.contains d) = true := by
    intro d hd
    obtain ⟨-, hws, hsy⟩ := hw.2 d hd
    simp [hws, hsy]
  have hskip := skip_run hs hword (by rw [hspace]; decide)
    (show (c :: rest).length ≤ s.length - pre.length by
      rw [hs]
      simp only [List.length_append, Tok.text]
      omega)
  rw [scan, hchar]
  exact (if_neg h0).trans ((if_neg hone).trans ((if_neg (hne 62 (by decide))).trans
    (congrArg (Prod.mk 97) hskip)))

theorem scan_sym (h : At s i (.sym c :: ts)) (hc : c ∈ symbols) : scan s i = (c, i + 1) := by
  have hchar : charAt s i = c := h.charAt_cons rfl
  have hspace : charAt s (i + 1) = 32 := h.space
  have hcases : c = 60 ∨ c = 124 ∨ c = 62 ∨ c = 38 ∨ c = 59 ∨ c = 40 ∨ c = 41 := by
    simpa [symbols] using hc
  rw [scan, hchar, hspace]
  rcases hcases with rfl | rfl | rfl | rfl | rfl | rfl | rfl <;> rfl

theorem gettoken_word (h : At s i (.word w :: ts)) (hok : ∀ t ∈ (.word w :: ts), t.Ok) :
    ∃ k, gettoken s i = .ok (⟨97, i, i + w.length⟩, k) ∧ At s k ts ∧ Points s ⟨i, i + w.length⟩ w := by
  obtain ⟨hw, hts⟩ := List.forall_mem_cons.mp hok
  obtain ⟨hskip, hnext⟩ := h.next hts
  have hpoints : Points s ⟨i, i + w.length⟩ w := by
    obtain ⟨pre, hs, hi⟩ := h
    rw [textOf_cons, ← List.append_assoc] at hs
    exact ⟨hw, rfl, pre, textOf ts, hs, hi⟩
  refine ⟨_, ?_, hnext, hpoints⟩
  rw [gettoken_eq, h.skipSpace hok, scan_word h hw]
  exact congrArg (fun k => Except.ok (_, k)) hskip

theorem gettoken_sym (h : At s i (.sym c :: ts)) (hok : ∀ t ∈ (.sym c :: ts), t.Ok) :
    ∃ k a b, gettoken s i = .ok (⟨c, a, b⟩, k) ∧ At s k ts := by
  obtain ⟨hc, hts⟩ := List.forall_mem_cons.mp hok
  obtain ⟨hskip, hnext⟩ := h.next hts
  refine ⟨_, i, i + 1, ?_, hnext⟩
  rw [gettoken_eq, h.skipSpace hok, scan_sym h hc]
  exact congrArg (fun k => Except.ok (_, k)) hskip

theorem gettoken_end (h : At s i []) : gettoken s i = .ok (⟨0, i, i⟩, i) := by
  have hskip := h.skipSpace fun t ht => (List.not_mem_nil ht).elim
  have hscan : scan s i = (0, i) := by
    rw [scan, h.charAt_nil.1]
    rfl
  rw [gettoken_eq, hskip, hscan, hskip]

/-- The next token is one of these symbols. -/
def begins (toks : List UInt8) : List Tok → Bool
  | .sym c :: _ => toks.contains c
  | _ => false

theorem peek_eq {toks : List UInt8} (h : At s i ts) (hok : ∀ t ∈ ts, t.Ok)
    (htoks : toks.all symbols.contains = true) : peek s toks i = .ok (begins toks ts, i) := by
  have hrun : peek s toks i = .ok (charAt s (skipSpace s i) != 0 &&
      toks.contains (charAt s (skipSpace s i)), skipSpace s i) := rfl
  rw [hrun, h.skipSpace hok]
  congr 2
  cases ts with
  | nil => rw [h.charAt_nil.1]; rfl
  | cons t ts =>
    cases t with
    | word w =>
      obtain ⟨hne, hw⟩ := hok _ List.mem_cons_self
      obtain ⟨c, rest, rfl⟩ := List.exists_cons_of_ne_nil hne
      have hno : c ∉ toks := fun hc =>
        (hw c List.mem_cons_self).2.2 (by simpa using List.all_eq_true.mp htoks c hc)
      rw [h.charAt_cons rfl]
      simp [begins, hno]
    | sym c =>
      obtain ⟨d, rest, htext, h0, -⟩ := (hok _ List.mem_cons_self).head
      obtain ⟨rfl, -⟩ := List.cons.inj (show [c] = d :: rest from htext)
      rw [h.charAt_cons htext]
      simp [begins, h0]

/-! ## Trees over strings and over pointers -/

/-- Two commands of the same shape, whose strings are related. -/
inductive Cmd.Rel {α β : Type} (R : α → β → Prop) : Cmd α → Cmd β → Prop where
  | exec {argv : List α} {ws : List β} (h : List.Forall₂ R argv ws) :
      Cmd.Rel R (.exec argv) (.exec ws)
  | redir {c : Cmd α} {d : Cmd β} {file : α} {w : β} {mode fd : ℕ} (hc : Cmd.Rel R c d)
      (hfile : R file w) : Cmd.Rel R (.redir c file mode fd) (.redir d w mode fd)
  | pipe {l r : Cmd α} {l' r' : Cmd β} (hl : Cmd.Rel R l l') (hr : Cmd.Rel R r r') :
      Cmd.Rel R (.pipe l r) (.pipe l' r')
  | list {l r : Cmd α} {l' r' : Cmd β} (hl : Cmd.Rel R l l') (hr : Cmd.Rel R r r') :
      Cmd.Rel R (.list l r) (.list l' r')
  | back {c : Cmd α} {d : Cmd β} (hc : Cmd.Rel R c d) : Cmd.Rel R (.back c) (.back d)

theorem Cmd.Rel.addArg {α β : Type} {R : α → β → Prop} {c : Cmd α} {d : Cmd β} {a : α} {b : β}
    (h : c.Rel R d) (hab : R a b) : (c.addArg a).Rel R (d.addArg b) := by
  induction h with
  | exec h => exact .exec (List.rel_append h (.cons hab .nil))
  | redir hc hfile ih => exact .redir ih hfile
  | pipe hl hr => exact .pipe hl hr
  | list hl hr => exact .list hl hr
  | back hc => exact .back hc

/-! ## Redirections -/

variable {rs : List Redirect} {cmd : Cmd Span} {t : Cmd Word} {n : ℕ}

theorem redirects_toks_ok (h : RedirectsOk rs) : ∀ t ∈ rs.flatMap Redirect.toks, t.Ok := by
  intro t ht
  obtain ⟨r, hr, ht⟩ := List.mem_flatMap.mp ht
  rcases List.mem_cons.mp ht with rfl | ht
  · change (if r.out then (62 : UInt8) else 60) ∈ symbols
    split_ifs <;> decide
  · rw [List.mem_singleton.mp ht]
    exact h r hr

theorem parseredirs_spec (h : At s i (rs.flatMap Redirect.toks ++ ts)) (hrs : RedirectsOk rs)
    (hts : ∀ t ∈ ts, t.Ok) (hfollow : begins [60, 62] ts = false) (hc : cmd.Rel (Points s) t)
    (hn : rs.length < n) :
    ∃ c k, parseredirs s n cmd i = .ok (c, k) ∧ At s k ts ∧
      c.Rel (Points s) (rs.foldl Redirect.node t) := by
  induction rs generalizing i cmd t n with
  | nil =>
    obtain ⟨n, rfl⟩ : ∃ k, n = k + 1 := ⟨n - 1, by simp at hn; omega⟩
    have h' : At s i ts := h
    refine ⟨cmd, i, ?_, h', hc⟩
    rw [parseredirs, run_bind_ok (peek_eq h' hts rfl), hfollow]
    rfl
  | cons r rs ih =>
    obtain ⟨n, rfl⟩ : ∃ k, n = k + 1 := ⟨n - 1, by simp at hn; omega⟩
    rw [List.length_cons] at hn
    have hall : ∀ t ∈ (r :: rs).flatMap Redirect.toks ++ ts, t.Ok := fun t ht => by
      rcases List.mem_append.mp ht with ht | ht
      · exact redirects_toks_ok hrs t ht
      · exact hts t ht
    obtain ⟨hr, hrs⟩ := List.forall_mem_cons.mp hrs
    have hsplit : (r :: rs).flatMap Redirect.toks ++ ts = .sym (if r.out then 62 else 60) ::
        .word r.file :: (rs.flatMap Redirect.toks ++ ts) := by
      simp [Redirect.toks]
    rw [hsplit] at h hall
    have hpeek := peek_eq h hall (show [60, 62].all symbols.contains = true from rfl)
    obtain ⟨j, a, b, hop, hfile⟩ := gettoken_sym h hall
    obtain ⟨k, hword, hrest, hpoints⟩ := gettoken_word hfile (List.forall_mem_cons.mp hall).2
    have hbegin : begins [60, 62] (.sym (if r.out then 62 else 60) ::
        .word r.file :: (rs.flatMap Redirect.toks ++ ts)) = true := by
      change ([60, 62] : List UInt8).contains (if r.out then 62 else 60) = true
      split_ifs <;> decide
    rw [hbegin] at hpeek
    cases hout : r.out with
    | true =>
      rw [hout] at hop
      have hnode : Cmd.Rel (Points s) (.redir cmd _ (O_WRONLY ||| O_CREATE) 1) _ := .redir hc hpoints
      obtain ⟨c, k', hrun, hk, hrel⟩ := ih hrest hrs hnode (show rs.length < n by omega)
      refine ⟨c, k', ?_, hk, ?_⟩
      · rw [parseredirs, run_bind_ok hpeek]
        change (gettoken s >>= _) i = _
        rw [run_bind_ok hop, run_bind_ok hword]
        exact hrun
      · rw [List.foldl_cons, Redirect.node, hout]
        exact hrel
    | false =>
      rw [hout] at hop
      have hnode : Cmd.Rel (Points s) (.redir cmd _ O_RDONLY 0) _ := .redir hc hpoints
      obtain ⟨c, k', hrun, hk, hrel⟩ := ih hrest hrs hnode (show rs.length < n by omega)
      refine ⟨c, k', ?_, hk, ?_⟩
      · rw [parseredirs, run_bind_ok hpeek]
        change (gettoken s >>= _) i = _
        rw [run_bind_ok hop, run_bind_ok hword]
        exact hrun
      · rw [List.foldl_cons, Redirect.node, hout]
        exact hrel

/-! ## What may follow -/

/-- The tokens end here, or go on with one of these symbols. -/
def Follow (toks : List UInt8) (ts : List Tok) : Prop := ts = [] ∨ begins toks ts = true

theorem Follow.mono {A B : List UInt8} (h : Follow A ts) (hsub : A.all B.contains = true) :
    Follow B ts := by
  refine h.imp_right fun hb => ?_
  cases ts with
  | nil => exact hb
  | cons t ts =>
    cases t with
    | word w => exact hb
    | sym c => exact List.all_eq_true.mp hsub c (by simpa [begins] using hb)

theorem Follow.not {A B : List UInt8} (h : Follow A ts)
    (hdisj : A.all (fun c => !B.contains c) = true) :
    begins B ts = false := by
  rcases h with rfl | hb
  · rfl
  · cases ts with
    | nil => rfl
    | cons t ts =>
      cases t with
      | word w => rfl
      | sym c =>
        have hc := List.all_eq_true.mp hdisj c (by simpa [begins] using hb)
        simpa [begins] using hc

theorem At.length_le (h : At s i ts) : ts.length ≤ s.length := by
  obtain ⟨pre, rfl, -⟩ := h
  rw [List.length_append]
  refine Nat.le_trans ?_ (Nat.le_add_left _ _)
  induction ts with
  | nil => exact Nat.zero_le _
  | cons t ts ih =>
    rw [textOf_cons, List.length_append, List.length_cons, List.length_cons]
    omega

theorem append_ok {us : List Tok} (hts : ∀ t ∈ ts, t.Ok) (hus : ∀ t ∈ us, t.Ok) :
    ∀ t ∈ ts ++ us, t.Ok := fun t ht =>
  (List.mem_append.mp ht).elim (hts t) (hus t)

/-! ## The loops -/

theorem length_redirects (rs : List Redirect) :
    (rs.flatMap Redirect.toks).length = 2 * rs.length := by
  induction rs with
  | nil => rfl
  | cons r rs ih =>
    rw [List.flatMap_cons, List.length_append, ih, List.length_cons]
    change 2 + _ = _
    omega

theorem length_args (args : List (Word × List Redirect)) :
    args.length ≤ (args.flatMap argToks).length := by
  induction args with
  | nil => exact Nat.zero_le _
  | cons a args ih =>
    rw [List.flatMap_cons, List.length_append, List.length_cons, argToks, List.length_cons]
    omega

variable {args : List (Word × List Redirect)}

theorem args_toks_ok (h : ∀ a ∈ args, WordOk a.1 ∧ RedirectsOk a.2) :
    ∀ t ∈ args.flatMap argToks, t.Ok := by
  intro t ht
  obtain ⟨a, ha, ht⟩ := List.mem_flatMap.mp ht
  rcases List.mem_cons.mp ht with rfl | ht
  · exact (h a ha).1
  · exact redirects_toks_ok (h a ha).2 t ht

/-- One more word, and the redirections behind it. -/
def addItem (t : Cmd Word) (a : Word × List Redirect) : Cmd Word :=
  a.2.foldl Redirect.node (t.addArg a.1)

theorem execLoop_spec {argc : ℕ} (h : At s i (args.flatMap argToks ++ ts))
    (hargs : ∀ a ∈ args, WordOk a.1 ∧ RedirectsOk a.2) (hts : ∀ t ∈ ts, t.Ok)
    (hfollow : Follow [124, 41, 38, 59] ts) (hargc : argc + args.length < MAXARGS)
    (hc : cmd.Rel (Points s) t) (hn : args.length < n) :
    ∃ c k, execLoop s n cmd argc i = .ok (c, k) ∧ At s k ts ∧
      c.Rel (Points s) (args.foldl addItem t) := by
  induction args generalizing i cmd t n argc with
  | nil =>
    obtain ⟨n, rfl⟩ : ∃ k, n = k + 1 := ⟨n - 1, by simp at hn; omega⟩
    have h' : At s i ts := h
    refine ⟨cmd, i, ?_, h', hc⟩
    rw [execLoop, run_bind_ok (peek_eq h' hts rfl)]
    rcases hfollow with rfl | hb
    · change (gettoken s >>= _) i = _
      rw [run_bind_ok (gettoken_end h')]
      rfl
    · rw [hb]
      rfl
  | cons a args ih =>
    obtain ⟨n, rfl⟩ : ∃ k, n = k + 1 := ⟨n - 1, by simp at hn; omega⟩
    rw [List.length_cons] at hn hargc
    obtain ⟨⟨hword, hrs⟩, hargs'⟩ := List.forall_mem_cons.mp hargs
    have hrest := append_ok (args_toks_ok hargs') hts
    have hall := append_ok (redirects_toks_ok hrs) hrest
    have hsplit : (a :: args).flatMap argToks ++ ts =
        .word a.1 :: (a.2.flatMap Redirect.toks ++ (args.flatMap argToks ++ ts)) := by
      simp [argToks]
    rw [hsplit] at h
    have hok : ∀ t ∈ (.word a.1 :: (a.2.flatMap Redirect.toks ++ (args.flatMap argToks ++ ts))),
        t.Ok := List.forall_mem_cons.mpr ⟨hword, hall⟩
    obtain ⟨j, htok, hj, hpoints⟩ := gettoken_word h hok
    have hlen := hj.length_le
    rw [List.length_append, length_redirects] at hlen
    have hnot : begins [60, 62] (args.flatMap argToks ++ ts) = false := by
      cases args with
      | nil => exact hfollow.not rfl
      | cons b args => rfl
    obtain ⟨c₁, k₁, hredirs, hk₁, hrel₁⟩ := parseredirs_spec hj hrs hrest hnot
      (hc.addArg hpoints) (show a.2.length < s.length + 1 by omega)
    obtain ⟨c, k, hrun, hk, hrel⟩ := ih hk₁ hargs'
      (show argc + 1 + args.length < MAXARGS by omega) hrel₁ (show args.length < n by omega)
    refine ⟨c, k, ?_, hk, hrel⟩
    rw [execLoop, run_bind_ok (peek_eq h hok rfl)]
    change (gettoken s >>= _) i = _
    rw [run_bind_ok htok]
    change (if MAXARGS ≤ argc + 1 then _ else _ : Parse (Cmd Span)) j = _
    rw [if_neg (by omega), run_bind_ok hredirs]
    exact hrun

theorem amp_ok : (Tok.sym 38).Ok := show (38 : UInt8) ∈ symbols by decide

theorem backs_ok (b : ℕ) : ∀ t ∈ List.replicate b (Tok.sym 38), t.Ok := fun t ht => by
  rw [List.eq_of_mem_replicate ht]
  exact amp_ok

theorem backLoop_spec {b : ℕ} (h : At s i (List.replicate b (.sym 38) ++ ts))
    (hts : ∀ t ∈ ts, t.Ok) (hfollow : begins [38] ts = false) (hc : cmd.Rel (Points s) t)
    (hn : b < n) :
    ∃ c k, backLoop s n cmd i = .ok (c, k) ∧ At s k ts ∧ c.Rel (Points s) (withBacks t b) := by
  induction b generalizing i cmd t n with
  | zero =>
    obtain ⟨n, rfl⟩ : ∃ k, n = k + 1 := ⟨n - 1, by omega⟩
    have h' : At s i ts := h
    refine ⟨cmd, i, ?_, h', hc⟩
    rw [backLoop, run_bind_ok (peek_eq h' hts rfl), hfollow]
    rfl
  | succ b ih =>
    obtain ⟨n, rfl⟩ : ∃ k, n = k + 1 := ⟨n - 1, by omega⟩
    rw [List.replicate_succ, List.cons_append] at h
    have hok : ∀ t ∈ (.sym 38 :: (List.replicate b (.sym 38) ++ ts)), t.Ok := by
      exact List.forall_mem_cons.mpr ⟨amp_ok, append_ok (backs_ok b) hts⟩
    obtain ⟨j, x, y, htok, hj⟩ := gettoken_sym h hok
    obtain ⟨c, k, hrun, hk, hrel⟩ := ih hj (.back hc) (show b < n by omega)
    refine ⟨c, k, ?_, hk, hrel⟩
    rw [backLoop, run_bind_ok (peek_eq h hok rfl)]
    change (gettoken s >>= _) i = _
    rw [run_bind_ok htok]
    exact hrun

/-! ## Words and redirections in a row -/

theorem addArg_foldl (rs : List Redirect) (t : Cmd Word) (w : Word) :
    (rs.foldl Redirect.node t).addArg w = rs.foldl Redirect.node (t.addArg w) := by
  induction rs generalizing t with
  | nil => rfl
  | cons r rs ih =>
    have hnode : (r.node t).addArg w = r.node (t.addArg w) := by
      unfold Redirect.node
      split_ifs <;> rfl
    rw [List.foldl_cons, List.foldl_cons, ih, hnode]

theorem foldl_addItem (args : List (Word × List Redirect)) (rs : List Redirect) (ws : List Word) :
    args.foldl addItem (rs.foldl Redirect.node (.exec ws)) =
      (rs ++ args.flatMap (·.2)).foldl Redirect.node (.exec (ws ++ args.map (·.1))) := by
  induction args generalizing rs ws with
  | nil => simp
  | cons a args ih =>
    have hstep : addItem (rs.foldl Redirect.node (.exec ws)) a =
        (rs ++ a.2).foldl Redirect.node (.exec (ws ++ [a.1])) := by
      rw [addItem, addArg_foldl, List.foldl_append]
      rfl
    rw [List.foldl_cons, hstep, ih]
    simp

/-! ## One phrase of the grammar -/

theorem cons_ok (hc : c ∈ symbols) (hts : ∀ t ∈ ts, t.Ok) : ∀ t ∈ (.sym c :: ts), t.Ok :=
  List.forall_mem_cons.mpr ⟨hc, hts⟩

/-- From the tokens `toks`, whatever may follow, `parse` comes to what follows and to `tree`. -/
def Parses (s : List UInt8) (parse : ℕ → Parse (Cmd Span)) (base : ℕ) (follow : List UInt8)
    (toks : List Tok) (tree : Cmd Word) : Prop :=
  ∀ i ts n, At s i (toks ++ ts) → (∀ t ∈ ts, t.Ok) → Follow follow ts →
    base + 4 * toks.length ≤ n →
    ∃ c k, parse n i = .ok (c, k) ∧ At s k ts ∧ c.Rel (Points s) tree

variable {e : Exec} {p : Pipe} {l : Line} {b : ℕ}

theorem parses_words (hrs : RedirectsOk rs) (hlen : args.length < MAXARGS)
    (hargs : ∀ a ∈ args, WordOk a.1 ∧ RedirectsOk a.2) :
    Parses s (parseexec s) 1 [124, 41, 38, 59] (Exec.words rs args).toks
      (Exec.words rs args).tree := by
  intro i ts n h hts hfollow hn
  obtain ⟨n, rfl⟩ : ∃ k, n = k + 1 := ⟨n - 1, by omega⟩
  rw [Exec.toks, List.append_assoc] at h
  have hrest := append_ok (args_toks_ok hargs) hts
  have hall := append_ok (redirects_toks_ok hrs) hrest
  have hcount := h.length_le
  rw [List.length_append, length_redirects] at hcount
  have hnot : begins [60, 62] (args.flatMap argToks ++ ts) = false := by
    cases args with
    | nil => exact hfollow.not rfl
    | cons a args => rfl
  have hopen : begins [40] (rs.flatMap Redirect.toks ++ (args.flatMap argToks ++ ts)) = false := by
    cases rs with
    | nil =>
      cases args with
      | nil => exact hfollow.not rfl
      | cons a args => rfl
    | cons r rs =>
      change ([40] : List UInt8).contains (if r.out then 62 else 60) = false
      split_ifs <;> decide
  obtain ⟨c₁, j, hredirs, hj, hrel₁⟩ := parseredirs_spec h hrs hrest hnot
    (.exec (.nil : List.Forall₂ (Points s) [] [])) (show rs.length < s.length + 1 by omega)
  have hcount' := hj.length_le
  have hargs_le := length_args args
  rw [List.length_append] at hcount'
  obtain ⟨c, k, hrun, hk, hrel⟩ := execLoop_spec hj hargs hts hfollow
    (show 0 + args.length < MAXARGS by omega) hrel₁ (show args.length < s.length + 1 by omega)
  refine ⟨c, k, ?_, hk, ?_⟩
  · rw [parseexec, run_bind_ok (peek_eq h hall rfl), hopen]
    change (parseredirs s _ _ >>= _) i = _
    rw [run_bind_ok hredirs]
    exact hrun
  · rw [foldl_addItem] at hrel
    rw [Exec.tree]
    exact hrel

theorem parses_block (hl : Parses s (parseline s) 3 [41] l.toks l.tree)
    (hok : ∀ t ∈ l.toks, t.Ok) (hrs : RedirectsOk rs) :
    Parses s (parseexec s) 1 [124, 41, 38, 59] (Exec.block l rs).toks (Exec.block l rs).tree := by
  intro i ts n h hts hfollow hn
  have htoks : (Exec.block l rs).toks ++ ts =
      .sym 40 :: (l.toks ++ (.sym 41 :: (rs.flatMap Redirect.toks ++ ts))) := by
    simp [Exec.toks]
  have hcount : (Exec.block l rs).toks.length = l.toks.length + 2 + 2 * rs.length := by
    rw [Exec.toks, List.cons_append, List.length_cons, List.length_append, List.length_cons,
      length_redirects]
    omega
  rw [htoks] at h
  rw [hcount] at hn
  obtain ⟨n, rfl⟩ : ∃ k, n = k + 2 := ⟨n - 2, by omega⟩
  have hrest := append_ok (redirects_toks_ok hrs) hts
  have hclose := cons_ok (show (41 : UInt8) ∈ symbols by decide) hrest
  have hall := cons_ok (show (40 : UInt8) ∈ symbols by decide) (append_ok hok hclose)
  obtain ⟨j, x, y, hopen, hj⟩ := gettoken_sym h hall
  obtain ⟨c₁, k₁, hline, hk₁, hrel₁⟩ := hl j _ n hj hclose (.inr rfl) (by omega)
  obtain ⟨k₂, x', y', hpar, hk₂⟩ := gettoken_sym hk₁ hclose
  have hcount' := hk₂.length_le
  rw [List.length_append, length_redirects] at hcount'
  obtain ⟨c, k, hrun, hk, hrel⟩ := parseredirs_spec hk₂ hrs hts (hfollow.not rfl) hrel₁
    (show rs.length < s.length + 1 by omega)
  refine ⟨c, k, ?_, hk, hrel⟩
  have hpeek := peek_eq h hall (show [40].all symbols.contains = true from rfl)
  rw [parseexec, run_bind_ok hpeek]
  change parseblock s (n + 1) i = _
  rw [parseblock, run_bind_ok hpeek]
  change (gettoken s >>= _) i = _
  rw [run_bind_ok hopen, run_bind_ok hline, run_bind_ok (peek_eq hk₁ hclose rfl)]
  change (gettoken s >>= _) k₁ = _
  rw [run_bind_ok hpar]
  exact hrun

theorem parses_one (he : Parses s (parseexec s) 1 [124, 41, 38, 59] e.toks e.tree) :
    Parses s (parsepipe s) 2 [41, 38, 59] (Pipe.one e).toks (Pipe.one e).tree := by
  intro i ts n h hts hfollow hn
  obtain ⟨n, rfl⟩ : ∃ k, n = k + 1 := ⟨n - 1, by omega⟩
  rw [Pipe.toks] at h hn
  obtain ⟨c, k, hrun, hk, hrel⟩ := he i ts n h hts (hfollow.mono rfl) (by omega)
  refine ⟨c, k, ?_, hk, hrel⟩
  have hnot : begins [124] ts = false := hfollow.not rfl
  rw [parsepipe, run_bind_ok hrun, run_bind_ok (peek_eq hk hts rfl), hnot]
  rfl

theorem parses_bar (he : Parses s (parseexec s) 1 [124, 41, 38, 59] e.toks e.tree)
    (hp : Parses s (parsepipe s) 2 [41, 38, 59] p.toks p.tree) (hok : ∀ t ∈ p.toks, t.Ok) :
    Parses s (parsepipe s) 2 [41, 38, 59] (Pipe.bar e p).toks (Pipe.bar e p).tree := by
  intro i ts n h hts hfollow hn
  obtain ⟨n, rfl⟩ : ∃ k, n = k + 1 := ⟨n - 1, by omega⟩
  rw [Pipe.toks, List.length_append, List.length_cons] at hn
  rw [Pipe.toks, List.append_assoc, List.cons_append] at h
  have hbar := cons_ok (show (124 : UInt8) ∈ symbols by decide) (append_ok hok hts)
  obtain ⟨c₁, k₁, hexec, hk₁, hrel₁⟩ := he i _ n h hbar (.inr rfl) (by omega)
  obtain ⟨k₂, x, y, htok, hk₂⟩ := gettoken_sym hk₁ hbar
  obtain ⟨c, k, hrun, hk, hrel⟩ := hp k₂ ts n hk₂ hts hfollow (by omega)
  refine ⟨.pipe c₁ c, k, ?_, hk, .pipe hrel₁ hrel⟩
  rw [parsepipe, run_bind_ok hexec, run_bind_ok (peek_eq hk₁ hbar rfl)]
  change (gettoken s >>= _) k₁ = _
  rw [run_bind_ok htok, run_bind_ok hrun]
  rfl

theorem parses_last (hp : Parses s (parsepipe s) 2 [41, 38, 59] p.toks p.tree) :
    Parses s (parseline s) 3 [41] (Line.last p b).toks (Line.last p b).tree := by
  intro i ts n h hts hfollow hn
  obtain ⟨n, rfl⟩ : ∃ k, n = k + 1 := ⟨n - 1, by omega⟩
  rw [Line.toks, List.length_append] at hn
  rw [Line.toks, List.append_assoc] at h
  have hbacks : Follow [41, 38, 59] (List.replicate b (.sym 38) ++ ts) := by
    cases b with
    | zero => exact hfollow.mono rfl
    | succ b => exact .inr rfl
  obtain ⟨c₁, k₁, hpipe, hk₁, hrel₁⟩ := hp i _ n h (append_ok (backs_ok b) hts) hbacks (by omega)
  have hcount := hk₁.length_le
  rw [List.length_append, List.length_replicate] at hcount
  obtain ⟨c, k, hrun, hk, hrel⟩ := backLoop_spec hk₁ hts (hfollow.not rfl) hrel₁
    (show b < s.length + 1 by omega)
  refine ⟨c, k, ?_, hk, hrel⟩
  have hnot : begins [59] ts = false := hfollow.not rfl
  rw [parseline, run_bind_ok hpipe, run_bind_ok hrun, run_bind_ok (peek_eq hk hts rfl), hnot]
  rfl

theorem parses_seq (hp : Parses s (parsepipe s) 2 [41, 38, 59] p.toks p.tree)
    (hl : Parses s (parseline s) 3 [41] l.toks l.tree) (hok : ∀ t ∈ l.toks, t.Ok) :
    Parses s (parseline s) 3 [41] (Line.seq p b l).toks (Line.seq p b l).tree := by
  intro i ts n h hts hfollow hn
  obtain ⟨n, rfl⟩ : ∃ k, n = k + 1 := ⟨n - 1, by omega⟩
  rw [Line.toks, List.append_assoc, List.length_append, List.length_append, List.length_cons] at hn
  rw [Line.toks, List.append_assoc, List.append_assoc, List.cons_append] at h
  have hsemi := cons_ok (show (59 : UInt8) ∈ symbols by decide) (append_ok hok hts)
  have hbacks : Follow [41, 38, 59] (List.replicate b (.sym 38) ++ (.sym 59 :: (l.toks ++ ts))) := by
    cases b with
    | zero => exact .inr rfl
    | succ b => exact .inr rfl
  obtain ⟨c₁, k₁, hpipe, hk₁, hrel₁⟩ := hp i _ n h (append_ok (backs_ok b) hsemi) hbacks (by omega)
  have hcount := hk₁.length_le
  rw [List.length_append, List.length_replicate] at hcount
  obtain ⟨c₂, k₂, hback, hk₂, hrel₂⟩ := backLoop_spec hk₁ hsemi rfl hrel₁
    (show b < s.length + 1 by omega)
  obtain ⟨k₃, x, y, htok, hk₃⟩ := gettoken_sym hk₂ hsemi
  obtain ⟨c, k, hrun, hk, hrel⟩ := hl k₃ ts n hk₃ hts hfollow (by omega)
  refine ⟨.list c₂ c, k, ?_, hk, .list hrel₂ hrel⟩
  rw [parseline, run_bind_ok hpipe, run_bind_ok hback, run_bind_ok (peek_eq hk₂ hsemi rfl)]
  change (gettoken s >>= _) k₂ = _
  rw [run_bind_ok htok, run_bind_ok hrun]
  rfl

/-! ## Every tree -/

mutual

theorem Line.Ok.toks_ok : ∀ l : Line, l.Ok → ∀ t ∈ l.toks, t.Ok
  | .last p b, h => append_ok (Pipe.Ok.toks_ok p h) (backs_ok b)
  | .seq p b l, h => append_ok (append_ok (Pipe.Ok.toks_ok p h.1) (backs_ok b))
      (cons_ok (by decide) (Line.Ok.toks_ok l h.2))

theorem Pipe.Ok.toks_ok : ∀ p : Pipe, p.Ok → ∀ t ∈ p.toks, t.Ok
  | .one e, h => Exec.Ok.toks_ok e h
  | .bar e p, h => append_ok (Exec.Ok.toks_ok e h.1) (cons_ok (by decide) (Pipe.Ok.toks_ok p h.2))

theorem Exec.Ok.toks_ok : ∀ e : Exec, e.Ok → ∀ t ∈ e.toks, t.Ok
  | .words _ _, h => append_ok (redirects_toks_ok h.1) (args_toks_ok h.2.2)
  | .block l _, h => cons_ok (by decide) (append_ok (Line.Ok.toks_ok l h.1)
      (cons_ok (by decide) (redirects_toks_ok h.2)))

end

mutual

theorem parses_line (s : List UInt8) :
    ∀ l : Line, l.Ok → Parses s (parseline s) 3 [41] l.toks l.tree
  | .last p _, h => parses_last (parses_pipe s p h)
  | .seq p _ l, h => parses_seq (parses_pipe s p h.1) (parses_line s l h.2) (Line.Ok.toks_ok l h.2)

theorem parses_pipe (s : List UInt8) :
    ∀ p : Pipe, p.Ok → Parses s (parsepipe s) 2 [41, 38, 59] p.toks p.tree
  | .one e, h => parses_one (parses_exec s e h)
  | .bar e p, h => parses_bar (parses_exec s e h.1) (parses_pipe s p h.2) (Pipe.Ok.toks_ok p h.2)

theorem parses_exec (s : List UInt8) :
    ∀ e : Exec, e.Ok → Parses s (parseexec s) 1 [124, 41, 38, 59] e.toks e.tree
  | .words _ _, h => parses_words h.1 h.2.1 h.2.2
  | .block l _, h => parses_block (parses_line s l h.1) (Line.Ok.toks_ok l h.1) h.2

end

/-! ## nulterminate -/

section Cut
variable {b : List UInt8} {a : Span}

/-- Some of the spaces have become NULs. -/
def Cut (s b : List UInt8) : Prop :=
  b.length = s.length + 1 ∧ ∀ (i : ℕ) (c : UInt8), s[i]? = some c →
    b[i]? = some c ∨ c = 32 ∧ b[i]? = some 0

theorem Points.space (h : Points s a w) : s[a.eq]? = some 32 := by
  obtain ⟨-, heq, pre, rest, hs, hq⟩ := h
  rw [heq, hq, hs, ← List.length_append]
  simp

theorem cut_refl (s : List UInt8) : Cut s (s ++ [0]) :=
  ⟨by simp, fun i c hc => .inl (by
    obtain ⟨hi, -⟩ := List.getElem?_eq_some_iff.mp hc
    rw [List.getElem?_append_left hi, hc])⟩

theorem Cut.set (h : Cut s b) (hj : s[i]? = some 32) : Cut s (b.set i 0) := by
  refine ⟨by rw [List.length_set, h.1], fun j c hc => ?_⟩
  by_cases hij : i = j
  · subst hij
    obtain ⟨hi, -⟩ := List.getElem?_eq_some_iff.mp hc
    have hlt : i < b.length := by
      rw [h.1]
      omega
    refine .inr ⟨?_, List.getElem?_set_self hlt⟩
    rw [hc] at hj
    exact Option.some.inj hj
  · rw [List.getElem?_set_ne hij]
    exact h.2 j c hc

theorem Cut.set_self (h : Cut s b) (hj : s[i]? = some 32) : (b.set i 0)[i]? = some 0 := by
  obtain ⟨hi, -⟩ := List.getElem?_eq_some_iff.mp hj
  have hlt : i < b.length := by
    rw [h.1]
    omega
  exact List.getElem?_set_self hlt

theorem set_keeps {j : ℕ} (h : b[j]? = some 0) : (b.set i 0)[j]? = some 0 := by
  by_cases hij : i = j
  · subst hij
    obtain ⟨hi, -⟩ := List.getElem?_eq_some_iff.mp h
    exact List.getElem?_set_self hi
  · rw [List.getElem?_set_ne hij, h]

theorem Cmd.Rel.mono {α β : Type} {R R' : α → β → Prop} {c : Cmd α} {d : Cmd β} (h : c.Rel R d)
    (hR : ∀ a b, R a b → R' a b) : c.Rel R' d := by
  induction h with
  | exec h => exact .exec (h.imp hR)
  | redir hc hfile ih => exact .redir ih (hR _ _ hfile)
  | pipe _ _ ihl ihr => exact .pipe ihl ihr
  | list _ _ ihl ihr => exact .list ihl ihr
  | back _ ih => exact .back ih

/-- A string whose NUL is in its place. -/
def Ended (s b : List UInt8) (a : Span) (w : Word) : Prop := Points s a w ∧ b[a.eq]? = some 0

theorem foldl_cut {argv : List Span} {ws : List Word} (h : List.Forall₂ (Points s) argv ws)
    (hb : Cut s b) :
    Cut s (argv.foldl (fun buf a => buf.set a.eq 0) b) ∧
      (∀ j : ℕ, b[j]? = some 0 → (argv.foldl (fun buf a => buf.set a.eq 0) b)[j]? = some 0) ∧
      List.Forall₂ (Ended s (argv.foldl (fun buf a => buf.set a.eq 0) b)) argv ws := by
  induction h generalizing b with
  | nil => exact ⟨hb, fun j hj => hj, .nil⟩
  | cons ha _ ih =>
    obtain ⟨hcut, hkeep, hrest⟩ := ih (hb.set ha.space)
    exact ⟨hcut, fun j hj => hkeep j (set_keeps hj), .cons ⟨ha, hkeep _ (hb.set_self ha.space)⟩ hrest⟩

/-- Every NUL is written, over a space, and none is lost. -/
theorem nulterminate_spec {d : Cmd Word} {c : Cmd Span} (h : c.Rel (Points s) d) (hb : Cut s b) :
    Cut s (nulterminate c b) ∧ (∀ j : ℕ, b[j]? = some 0 → (nulterminate c b)[j]? = some 0) ∧
      c.Rel (Ended s (nulterminate c b)) d := by
  induction h generalizing b with
  | exec h =>
    obtain ⟨hcut, hkeep, hended⟩ := foldl_cut h hb
    exact ⟨hcut, hkeep, .exec hended⟩
  | redir _ hfile ih =>
    obtain ⟨hcut, hkeep, hended⟩ := ih hb
    refine ⟨hcut.set hfile.space, fun j hj => set_keeps (hkeep j hj), .redir ?_ ?_⟩
    · exact hended.mono fun a w ha => ⟨ha.1, set_keeps ha.2⟩
    · exact ⟨hfile, hcut.set_self hfile.space⟩
  | pipe _ _ ihl ihr =>
    obtain ⟨hcut, hkeep, hl⟩ := ihl hb
    obtain ⟨hcut', hkeep', hr⟩ := ihr hcut
    exact ⟨hcut', fun j hj => hkeep' j (hkeep j hj),
      .pipe (hl.mono fun a w ha => ⟨ha.1, hkeep' _ ha.2⟩) hr⟩
  | list _ _ ihl ihr =>
    obtain ⟨hcut, hkeep, hl⟩ := ihl hb
    obtain ⟨hcut', hkeep', hr⟩ := ihr hcut
    exact ⟨hcut', fun j hj => hkeep' j (hkeep j hj),
      .list (hl.mono fun a w ha => ⟨ha.1, hkeep' _ ha.2⟩) hr⟩
  | back _ ih =>
    obtain ⟨hcut, hkeep, hc⟩ := ih hb
    exact ⟨hcut, hkeep, .back hc⟩

theorem Ended.cstr (h : Ended s b a w) (hb : Cut s b) : cstr (b.drop a.q) = some w := by
  obtain ⟨⟨hw, heq, pre, rest, hs, hq⟩, hnul⟩ := h
  have hchar : ∀ k, k < w.length → b[a.q + k]? = w[k]? := fun k hk => by
    have hsk : s[a.q + k]? = some w[k] := by
      rw [hs, hq, List.append_assoc, List.getElem?_append_right (by omega),
        List.getElem?_append_left (by omega)]
      simp [hk]
    have hspace : w[k] ≠ 32 := fun h32 => by
      have hno := (hw.2 w[k] (List.getElem_mem hk)).2.1
      rw [h32] at hno
      exact hno (by decide)
    rw [(hb.2 _ _ hsk).resolve_right fun h32 => hspace h32.1, List.getElem?_eq_getElem hk]
  have hsplit : b.drop a.q = w ++ b.drop a.eq := by
    refine List.ext_getElem? fun k => ?_
    rw [List.getElem?_drop]
    by_cases hk : k < w.length
    · rw [hchar k hk, List.getElem?_append_left hk]
    · rw [List.getElem?_append_right (by omega), List.getElem?_drop, heq]
      congr 1
      omega
  rw [hsplit, cstr_append_iff w _ fun h0 => (hw.2 0 h0).1 rfl, List.head?_drop, hnul]

end Cut

/-! ## parsecmd -/

/-- The command with the strings that its pointers lead to. -/
def Cmd.strings (buf : List UInt8) : Cmd Span → Option (Cmd Word)
  | .exec argv => (argv.mapM fun a => cstr (buf.drop a.q)).map .exec
  | .redir c file mode fd => do
    let c ← c.strings buf
    let file ← cstr (buf.drop file.q)
    return .redir c file mode fd
  | .pipe l r => do
    let l ← l.strings buf
    let r ← r.strings buf
    return .pipe l r
  | .list l r => do
    let l ← l.strings buf
    let r ← r.strings buf
    return .list l r
  | .back c => (c.strings buf).map .back

theorem strings_of_rel {b : List UInt8} {c : Cmd Span} {d : Cmd Word}
    (h : c.Rel (fun a w => cstr (b.drop a.q) = some w) d) : c.strings b = some d := by
  induction h with
  | exec h =>
    rw [Cmd.strings]
    induction h with
    | nil => rfl
    | cons ha _ ih =>
      obtain ⟨ws, hws, hexec⟩ := Option.map_eq_some_iff.mp ih
      obtain rfl := Cmd.exec.inj hexec
      rw [List.mapM_cons, ha, hws]
      rfl
  | redir _ hfile ih => rw [Cmd.strings, ih, hfile]; rfl
  | pipe _ _ ihl ihr => rw [Cmd.strings, ihl, ihr]; rfl
  | list _ _ ihl ihr => rw [Cmd.strings, ihl, ihr]; rfl
  | back _ ih => rw [Cmd.strings, ih]; rfl

theorem parsecmd_print {l : Line} (h : l.Ok) :
    ∃ c buf, parsecmd l.print = .ok (c, buf) ∧ c.strings buf = some l.tree := by
  have hat : At l.print 0 (l.toks ++ []) := ⟨[], by rw [List.append_nil]; rfl, rfl⟩
  have hlen := hat.length_le
  rw [List.append_nil] at hlen
  obtain ⟨c, k, hrun, hk, hrel⟩ := parses_line l.print l h 0 [] (4 * l.print.length + 4) hat
    (fun t ht => (List.not_mem_nil ht).elim) (.inl rfl) (by omega)
  obtain ⟨hcut, -, hended⟩ := nulterminate_spec hrel (cut_refl l.print)
  refine ⟨c, nulterminate c (l.print ++ [0]), ?_, strings_of_rel ?_⟩
  · have hpeek := peek_eq hk (fun t ht => (List.not_mem_nil ht).elim)
      (show [].all symbols.contains = true from rfl)
    simp only [parsecmd, hrun, bind, Except.bind, hpeek]
    exact if_neg (not_not.mpr hk.charAt_nil.2)
  · exact hended.mono fun a w ha => ha.cstr hcut

/-- A line of the grammar is parsed back to the command it stands for, with its words, and every
command is what some line stands for. -/
theorem parsecmd_round_trip :
    (∀ l : Line, l.Ok →
      ∃ c buf, parsecmd l.print = .ok (c, buf) ∧ c.strings buf = some l.tree) ∧
    ∀ t : Cmd Word, t.Ok →
      ∃ c buf, parsecmd (views t).line.print = .ok (c, buf) ∧ c.strings buf = some t := by
  refine ⟨fun l h => parsecmd_print h, fun t h => ?_⟩
  have hview := views_of h
  obtain ⟨c, buf, hrun, hstrings⟩ := parsecmd_print hview.line_ok
  exact ⟨c, buf, hrun, by rw [hstrings, hview.line]⟩

/-- `( a < f b ; ) & ; c`. -/
theorem parsecmd_round_trip_block : ∃ c buf,
    parsecmd [40, 32, 97, 32, 60, 32, 102, 32, 98, 32, 59, 32, 41, 32, 38, 32, 59, 32, 99, 32] =
        .ok (c, buf) ∧
      c.strings buf = some (.list (.back (.list (.redir (.exec [[97], [98]]) [102] O_RDONLY 0)
        (.exec []))) (.exec [[99]])) :=
  parsecmd_round_trip.1
    (.seq (.one (.block (.seq (.one (.words [] [([97], [⟨false, [102]⟩]), ([98], [])])) 0
      (.last (.one (.words [] [])) 0)) [])) 1 (.last (.one (.words [] [([99], [])])) 0))
    ⟨⟨⟨⟨nofun, by decide, List.forall_mem_cons.mpr ⟨by decide, List.forall_mem_singleton.mpr
        (by decide)⟩⟩, nofun, by decide, nofun⟩, nofun⟩,
      nofun, by decide, List.forall_mem_singleton.mpr (by decide)⟩

end Ostep.ShParser

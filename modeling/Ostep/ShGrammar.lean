import Ostep.ShParser

/-!
# The commands of sh

What the grammar allows, as trees: a line is a pipe with `&`s and perhaps a line behind `;`, a pipe
a command and perhaps a pipe behind `|`, and a command words and redirections, or a line in
parentheses with redirections. Each stands for a `struct cmd`, and is printed with a space behind
every token. Every `struct cmd` of words and redirections is the one of such a tree.
-/

namespace Ostep.ShParser

abbrev Word := List UInt8

/-- `< file`, or `> file` where `out`. -/
structure Redirect where
  out : Bool
  file : Word

mutual

inductive Line where
  | last (pipe : Pipe) (backs : ℕ)
  | seq (pipe : Pipe) (backs : ℕ) (rest : Line)

inductive Pipe where
  | one (exec : Exec)
  | bar (exec : Exec) (rest : Pipe)

/-- Redirections come first, and behind each word. -/
inductive Exec where
  | words (rs : List Redirect) (args : List (Word × List Redirect))
  | block (line : Line) (rs : List Redirect)

end

/-! ## Trees -/

def Redirect.node (c : Cmd Word) (r : Redirect) : Cmd Word :=
  if r.out then .redir c r.file (O_WRONLY ||| O_CREATE) 1 else .redir c r.file O_RDONLY 0

def withBacks (c : Cmd Word) : ℕ → Cmd Word
  | 0 => c
  | n + 1 => withBacks (.back c) n

mutual

def Line.tree : Line → Cmd Word
  | .last p n => withBacks p.tree n
  | .seq p n rest => .list (withBacks p.tree n) rest.tree

def Pipe.tree : Pipe → Cmd Word
  | .one e => e.tree
  | .bar e rest => .pipe e.tree rest.tree

def Exec.tree : Exec → Cmd Word
  | .words rs args => (rs ++ args.flatMap (·.2)).foldl Redirect.node (.exec (args.map (·.1)))
  | .block l rs => rs.foldl Redirect.node l.tree

end

/-! ## Text -/

inductive Tok where
  | word (w : Word)
  | sym (c : UInt8)

def Tok.text : Tok → List UInt8
  | .word w => w
  | .sym c => [c]

def textOf (ts : List Tok) : List UInt8 := ts.flatMap fun t => t.text ++ [32]

def Redirect.toks (r : Redirect) : List Tok := [.sym (if r.out then 62 else 60), .word r.file]

def argToks (a : Word × List Redirect) : List Tok := .word a.1 :: a.2.flatMap Redirect.toks

mutual

def Line.toks : Line → List Tok
  | .last p n => p.toks ++ List.replicate n (.sym 38)
  | .seq p n rest => p.toks ++ List.replicate n (.sym 38) ++ .sym 59 :: rest.toks

def Pipe.toks : Pipe → List Tok
  | .one e => e.toks
  | .bar e rest => e.toks ++ .sym 124 :: rest.toks

def Exec.toks : Exec → List Tok
  | .words rs args => rs.flatMap Redirect.toks ++ args.flatMap argToks
  | .block l rs => .sym 40 :: l.toks ++ .sym 41 :: rs.flatMap Redirect.toks

end

def Line.print (l : Line) : List UInt8 := textOf l.toks

/-! ## What may be printed -/

def WordChar (c : UInt8) : Prop := c ≠ 0 ∧ c ∉ whitespace ∧ c ∉ symbols

instance : DecidablePred WordChar := fun _ => inferInstanceAs (Decidable (_ ∧ _))

def WordOk (w : Word) : Prop := w ≠ [] ∧ ∀ c ∈ w, WordChar c

instance : DecidablePred WordOk := fun w =>
  @instDecidableAnd _ _ inferInstance (List.decidableBAll WordChar w)

def RedirectsOk (rs : List Redirect) : Prop := ∀ r ∈ rs, WordOk r.file

instance : DecidablePred RedirectsOk := fun rs =>
  List.decidableBAll (fun r : Redirect => WordOk r.file) rs

mutual

def Line.Ok : Line → Prop
  | .last p _ => p.Ok
  | .seq p _ rest => p.Ok ∧ rest.Ok

def Pipe.Ok : Pipe → Prop
  | .one e => e.Ok
  | .bar e rest => e.Ok ∧ rest.Ok

/-- At most nine words. -/
def Exec.Ok : Exec → Prop
  | .words rs args => RedirectsOk rs ∧ args.length < MAXARGS ∧
      ∀ a ∈ args, WordOk a.1 ∧ RedirectsOk a.2
  | .block l rs => l.Ok ∧ RedirectsOk rs

end

/-! ## A line for every command -/

/-- A command as it stands in the four places of the grammar, in parentheses where it has to. -/
structure Views where
  exec : Exec
  pipe : Pipe
  backed : Pipe × ℕ
  line : Line

/-- One more redirection, in front of the words. -/
def Exec.addRedirect : Exec → Redirect → Exec
  | .words rs args, r => .words (rs ++ [r]) args
  | .block l rs, r => .block l (rs ++ [r])

def Views.ofExec (e : Exec) : Views := ⟨e, .one e, (.one e, 0), .last (.one e) 0⟩

def views : Cmd Word → Views
  | .exec argv => .ofExec (.words [] (argv.map (·, [])))
  | .redir c file _ fd => .ofExec ((views c).exec.addRedirect ⟨fd = 1, file⟩)
  | .pipe l r =>
    let p := .bar (views l).exec (views r).pipe
    ⟨.block (.last p 0) [], p, (p, 0), .last p 0⟩
  | .list l r =>
    let line := .seq (views l).backed.1 (views l).backed.2 (views r).line
    ⟨.block line [], .one (.block line []), (.one (.block line []), 0), line⟩
  | .back c =>
    let b := ((views c).backed.1, (views c).backed.2 + 1)
    ⟨.block (.last b.1 b.2) [], .one (.block (.last b.1 b.2) []), b, .last b.1 b.2⟩

/-- The words are as above, at most nine to a command, and the redirections those of `<` and `>`. -/
def Cmd.Ok : Cmd Word → Prop
  | .exec argv => argv.length < MAXARGS ∧ ∀ w ∈ argv, WordOk w
  | .redir c file mode fd => c.Ok ∧ WordOk file ∧
      ((mode = O_RDONLY ∧ fd = 0) ∨ (mode = O_WRONLY ||| O_CREATE ∧ fd = 1))
  | .pipe l r => l.Ok ∧ r.Ok
  | .list l r => l.Ok ∧ r.Ok
  | .back c => c.Ok

theorem withBacks_succ (c : Cmd Word) (n : ℕ) : withBacks c (n + 1) = .back (withBacks c n) := by
  induction n generalizing c with
  | zero => rfl
  | succ n ih => exact ih (.back c)

/-- All redirections are in front of the words. -/
def Exec.Plain : Exec → Prop
  | .words _ args => ∀ a ∈ args, a.2 = []
  | .block _ _ => True

theorem Exec.Plain.addRedirect {e : Exec} (h : e.Plain) (r : Redirect) : (e.addRedirect r).Plain := by
  cases e with
  | words rs args => exact h
  | block l rs => trivial

theorem Exec.Plain.tree_addRedirect {e : Exec} (h : e.Plain) (r : Redirect) :
    (e.addRedirect r).tree = r.node e.tree := by
  cases e with
  | words rs args =>
    have hnone : args.flatMap (·.2) = [] := List.flatMap_eq_nil_iff.mpr h
    simp [Exec.addRedirect, Exec.tree, hnone]
  | block l rs => simp [Exec.addRedirect, Exec.tree]

/-- The command in each of the four places is the command itself. -/
structure Views.Of (v : Views) (c : Cmd Word) : Prop where
  plain : v.exec.Plain
  exec : v.exec.tree = c
  pipe : v.pipe.tree = c
  backed : withBacks v.backed.1.tree v.backed.2 = c
  line : v.line.tree = c
  exec_ok : v.exec.Ok
  pipe_ok : v.pipe.Ok
  backed_ok : v.backed.1.Ok
  line_ok : v.line.Ok

theorem Line.Ok.block {l : Line} (h : l.Ok) : (Exec.block l []).Ok :=
  ⟨h, fun _ hr => (List.not_mem_nil hr).elim⟩

theorem Views.Of.of_exec {e : Exec} {c : Cmd Word} (hp : e.Plain) (ht : e.tree = c) (hok : e.Ok) :
    (Views.ofExec e).Of c :=
  ⟨hp, ht, ht, ht, ht, hok, hok, hok, hok⟩

theorem redirect_node {c : Cmd Word} {file : Word} {mode fd : ℕ}
    (h : (mode = O_RDONLY ∧ fd = 0) ∨ (mode = O_WRONLY ||| O_CREATE ∧ fd = 1)) :
    Redirect.node c ⟨fd = 1, file⟩ = .redir c file mode fd := by
  rcases h with ⟨rfl, rfl⟩ | ⟨rfl, rfl⟩ <;> rfl

theorem views_of {c : Cmd Word} (h : c.Ok) : (views c).Of c := by
  induction c with
  | exec argv =>
    refine .of_exec (fun a ha => ?_) ?_ ⟨fun r hr => (List.not_mem_nil hr).elim, ?_, fun a ha => ?_⟩
    · obtain ⟨w, -, rfl⟩ := List.mem_map.mp ha
      rfl
    · have hnone : (argv.map (·, ([] : List Redirect))).flatMap (·.2) = [] :=
        List.flatMap_eq_nil_iff.mpr fun a ha => by
          obtain ⟨w, -, rfl⟩ := List.mem_map.mp ha
          rfl
      rw [Exec.tree, hnone, List.map_map]
      exact congrArg Cmd.exec (List.map_id argv)
    · rw [List.length_map]
      exact h.1
    · obtain ⟨w, hw, rfl⟩ := List.mem_map.mp ha
      exact ⟨h.2 w hw, fun r hr => (List.not_mem_nil hr).elim⟩
  | redir c file mode fd ih =>
    obtain ⟨hc, hfile, hmode⟩ := h
    have hv := ih hc
    refine .of_exec (hv.plain.addRedirect _) ?_ ?_
    · rw [hv.plain.tree_addRedirect, hv.exec, redirect_node hmode]
    · have hok := hv.exec_ok
      have hr : ∀ rs, RedirectsOk rs → RedirectsOk (rs ++ [⟨fd = 1, file⟩]) := fun rs hrs r hr => by
        rcases List.mem_append.mp hr with hr | hr
        · exact hrs r hr
        · rw [List.mem_singleton.mp hr]
          exact hfile
      cases he : (views c).exec with
      | words rs args =>
        rw [he] at hok
        exact ⟨hr rs hok.1, hok.2⟩
      | block l rs =>
        rw [he] at hok
        exact ⟨hok.1, hr rs hok.2⟩
  | pipe l r ihl ihr =>
    have hl := ihl h.1
    have hr := ihr h.2
    have htree : (Pipe.bar (views l).exec (views r).pipe).tree = .pipe l r := by
      rw [Pipe.tree, hl.exec, hr.pipe]
    have hok : (Pipe.bar (views l).exec (views r).pipe).Ok := ⟨hl.exec_ok, hr.pipe_ok⟩
    have hline : (Line.last (Pipe.bar (views l).exec (views r).pipe) 0).Ok := hok
    exact ⟨trivial, htree, htree, htree, htree, hline.block, hok, hok, hok⟩
  | list l r ihl ihr =>
    have hl := ihl h.1
    have hr := ihr h.2
    have htree : (Line.seq (views l).backed.1 (views l).backed.2 (views r).line).tree = .list l r := by
      rw [Line.tree, hl.backed, hr.line]
    have hok : (Line.seq (views l).backed.1 (views l).backed.2 (views r).line).Ok :=
      ⟨hl.backed_ok, hr.line_ok⟩
    exact ⟨trivial, htree, htree, htree, htree, hok.block, hok.block, hok.block, hok⟩
  | back c ih =>
    have hc := ih h
    have htree : withBacks (views c).backed.1.tree ((views c).backed.2 + 1) = .back c := by
      rw [withBacks_succ, hc.backed]
    have hok : (Line.last (views c).backed.1 ((views c).backed.2 + 1)).Ok := hc.backed_ok
    exact ⟨trivial, htree, htree, htree, htree, hok.block, hok.block, hc.backed_ok, hok⟩

end Ostep.ShParser

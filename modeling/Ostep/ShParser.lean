import Ostep.Hoare
import Mathlib.Data.Nat.Notation

/-!
# The parser of sh

sh.c from `gettoken` to `nulterminate`. The parsing functions share the cursor `*ps`, which is the
state; `s` is the command up to its NUL, so `es` is its length. An argument or a file name is the
pair of pointers to its start and behind its end, until `nulterminate` has written the NULs.
-/

namespace Ostep.ShParser
open Hoare

abbrev MAXARGS : ℕ := 10

def O_RDONLY : ℕ := 0x000
def O_WRONLY : ℕ := 0x001
def O_CREATE : ℕ := 0x200

/-- `q` and `eq`. -/
structure Span where
  q : ℕ
  eq : ℕ
  deriving DecidableEq

/-- `struct cmd`, over what stands for a string. -/
inductive Cmd (α : Type) where
  | exec (argv : List α)
  | redir (cmd : Cmd α) (file : α) (mode fd : ℕ)
  | pipe (left right : Cmd α)
  | list (left right : Cmd α)
  | back (cmd : Cmd α)
  deriving DecidableEq

/-- A panic, or a loop or recursion that does not end. -/
inductive Fault where
  | panic (msg : String)
  | endless
  deriving DecidableEq

abbrev Parse : Type → Type := StateT ℕ (Except Fault)

/-- `" \t\r\n\v"`. -/
def whitespace : List UInt8 := [32, 9, 13, 10, 11]

/-- `"<|>&;()"`. -/
def symbols : List UInt8 := [60, 124, 62, 38, 59, 40, 41]

/-- What `gettoken` returns in its three ways. -/
structure Token where
  ret : UInt8
  q : ℕ
  eq : ℕ

section Text
variable (s : List UInt8)

/-- `*p`; behind the command is its NUL. -/
def charAt (p : ℕ) : UInt8 := s.getD p 0

/-- `while(p < es && ...) p++`, with `n` for `es - p`. -/
def skip (c : UInt8 → Bool) : ℕ → ℕ → ℕ
  | 0, p => p
  | n + 1, p => if c (charAt s p) then skip c n (p + 1) else p

def skipSpace (p : ℕ) : ℕ := skip s (whitespace.contains ·) (s.length - p) p

/-- `ret` and `s` behind the switch of `gettoken`. -/
def scan (q : ℕ) : UInt8 × ℕ :=
  let c := charAt s q
  if c = 0 then (c, q)
  else if c = 124 ∨ c = 40 ∨ c = 41 ∨ c = 59 ∨ c = 38 ∨ c = 60 then (c, q + 1)
  else if c = 62 then
    if charAt s (q + 1) = 62 then (43, q + 2) else (c, q + 1)
  else (97, skip s (fun c => !whitespace.contains c && !symbols.contains c) (s.length - q) q)

def gettoken : Parse Token := modifyGet fun ps =>
  let q := skipSpace s ps
  let (ret, eq) := scan s q
  (⟨ret, q, eq⟩, skipSpace s eq)

def peek (toks : List UInt8) : Parse Bool := modifyGet fun ps =>
  let p := skipSpace s ps
  (charAt s p != 0 && toks.contains (charAt s p), p)

def parseredirs : ℕ → Cmd Span → Parse (Cmd Span)
  | 0, _ => throw .endless
  | n + 1, cmd => do
    if ← peek s [60, 62] then do
      let tok ← gettoken s
      let file ← gettoken s
      if file.ret ≠ 97 then throw (.panic "missing file for redirection")
      else if tok.ret = 60 then parseredirs n (.redir cmd ⟨file.q, file.eq⟩ O_RDONLY 0)
      else if tok.ret = 62 ∨ tok.ret = 43 then
        parseredirs n (.redir cmd ⟨file.q, file.eq⟩ (O_WRONLY ||| O_CREATE) 1)
      else parseredirs n cmd
    else return cmd

/-- `cmd->argv[argc] = q`, where `cmd` is the command inside the redirections. -/
def Cmd.addArg {α : Type} : Cmd α → α → Cmd α
  | .exec argv, a => .exec (argv ++ [a])
  | .redir cmd file mode fd, a => .redir (cmd.addArg a) file mode fd
  | cmd, _ => cmd

/-- The loop of `parseexec`. -/
def execLoop : ℕ → Cmd Span → ℕ → Parse (Cmd Span)
  | 0, _, _ => throw .endless
  | n + 1, ret, argc => do
    if ← peek s [124, 41, 38, 59] then return ret
    else do
      let tok ← gettoken s
      if tok.ret = 0 then return ret
      else if tok.ret ≠ 97 then throw (.panic "syntax")
      else if MAXARGS ≤ argc + 1 then throw (.panic "too many args")
      else do
        let ret ← parseredirs s (s.length + 1) (ret.addArg ⟨tok.q, tok.eq⟩)
        execLoop n ret (argc + 1)

/-- `while(peek(ps, es, "&"))`. -/
def backLoop : ℕ → Cmd Span → Parse (Cmd Span)
  | 0, _ => throw .endless
  | n + 1, cmd => do
    if ← peek s [38] then do
      let _ ← gettoken s
      backLoop n (.back cmd)
    else return cmd

mutual

def parseline : ℕ → Parse (Cmd Span)
  | 0 => throw .endless
  | n + 1 => do
    let cmd ← parsepipe n
    let cmd ← backLoop s (s.length + 1) cmd
    if ← peek s [59] then do
      let _ ← gettoken s
      let rest ← parseline n
      return .list cmd rest
    else return cmd

def parsepipe : ℕ → Parse (Cmd Span)
  | 0 => throw .endless
  | n + 1 => do
    let cmd ← parseexec n
    if ← peek s [124] then do
      let _ ← gettoken s
      let rest ← parsepipe n
      return .pipe cmd rest
    else return cmd

def parseexec : ℕ → Parse (Cmd Span)
  | 0 => throw .endless
  | n + 1 => do
    if ← peek s [40] then parseblock n
    else do
      let ret ← parseredirs s (s.length + 1) (.exec [])
      execLoop s (s.length + 1) ret 0

def parseblock : ℕ → Parse (Cmd Span)
  | 0 => throw .endless
  | n + 1 => do
    if !(← peek s [40]) then throw (.panic "parseblock")
    else do
      let _ ← gettoken s
      let cmd ← parseline n
      if !(← peek s [41]) then throw (.panic "syntax - missing )")
      else do
        let _ ← gettoken s
        parseredirs s (s.length + 1) cmd

end

/-- The NULs are written over the characters behind the strings. -/
def nulterminate : Cmd Span → List UInt8 → List UInt8
  | .exec argv, buf => argv.foldl (fun buf a => buf.set a.eq 0) buf
  | .redir cmd file _ _, buf => (nulterminate cmd buf).set file.eq 0
  | .pipe left right, buf => nulterminate right (nulterminate left buf)
  | .list left right, buf => nulterminate right (nulterminate left buf)
  | .back cmd, buf => nulterminate cmd buf

/-- The command and what is in its buffer then. -/
def parsecmd : Except Fault (Cmd Span × List UInt8) := do
  let (cmd, ps) ← parseline s (4 * s.length + 4) 0
  let (_, ps) ← peek s [] ps
  if ps ≠ s.length then throw (.panic "syntax")
  else return (cmd, nulterminate cmd (s ++ [0]))

end Text

end Ostep.ShParser

import Ostep.ShRoundTrip
import Mathlib.Control.Basic

/-!
# Running a command

`runcmd` of sh.c as what its processes do to their descriptors. `fork` copies the descriptors, so
what one process closes the others keep; a redirection and the end of a pipe come to descriptor 0
or 1 because it is the lowest that is closed. The meaning of a line says which programs are
started, in which order, and what their standard input and output are.
-/

namespace Ostep.ShParser

abbrev NOFILE : ℕ := 16

/-- What a descriptor stands for; files and pipes are named by when they were opened. -/
inductive File where
  | inherited (fd : ℕ)
  | file (n : ℕ) (path : Word) (mode : ℕ)
  | pipeIn (n : ℕ)
  | pipeOut (n : ℕ)
  deriving DecidableEq

abbrev Table := ℕ → Option File

/-- What the kernel answers to the `n`th of the calls that can fail. -/
structure Kernel where
  fork : ℕ → Bool
  pipe : ℕ → Bool
  opened : ℕ → Word → ℕ → Bool

abbrev Sh : Type → Type := StateM ℕ

def ask : Sh ℕ := modifyGet fun n => (n, n + 1)

/-- The programs started; in `seq` the second job waits for the first, in `par` the shell waits
for both, and for the job of `bg` nobody waits. -/
inductive Jobs (α : Type) where
  | none
  | start (p : α)
  | seq (l r : Jobs α)
  | par (l r : Jobs α)
  | bg (j : Jobs α)

def Jobs.map {α β : Type} (f : α → β) : Jobs α → Jobs β
  | .none => .none
  | .start p => .start (f p)
  | .seq l r => .seq (l.map f) (r.map f)
  | .par l r => .par (l.map f) (r.map f)
  | .bg j => .bg (j.map f)

/-! ## Descriptors -/

/-- `fdalloc`. -/
def lowest (t : Table) : Option ℕ := (List.range NOFILE).find? fun fd => (t fd).isNone

def close (fd : ℕ) (t : Table) : Table := Function.update t fd none

def fdalloc (f : File) (t : Table) : Option (ℕ × Table) :=
  (lowest t).map fun fd => (fd, Function.update t fd (some f))

/-- `dup`, whose result sh does not look at. -/
def dup (fd : ℕ) (t : Table) : Table :=
  match t fd with
  | some f => ((fdalloc f t).map Prod.snd).getD t
  | none => t

def sysOpen (K : Kernel) (n : ℕ) (path : Word) (mode : ℕ) (t : Table) : Option Table :=
  if K.opened n path mode then (fdalloc (.file n path mode) t).map Prod.snd else none

/-- The two descriptors of a new pipe. -/
def sysPipe (K : Kernel) (n : ℕ) (t : Table) : Option (ℕ × ℕ × Table) :=
  if K.pipe n then do
    let (p₀, t) ← fdalloc (.pipeIn n) t
    let (p₁, t) ← fdalloc (.pipeOut n) t
    return (p₀, p₁, t)
  else none

/-! ## runcmd -/

/-- A program, and the descriptors that it is started with. -/
abbrev Start := List Word × Table

/-- `fork1`, with what the child does and the parent behind it; a parent without a child exits. -/
def forked {α : Type} (K : Kernel) (child : Sh (Jobs α)) (k : Jobs α → Sh (Jobs α)) (failed : Jobs α) :
    Sh (Jobs α) := do
  let n ← ask
  if K.fork n then do
    let j ← child
    k j
  else pure failed

def runcmd (K : Kernel) : Cmd Word → Table → Sh (Jobs Start)
  | .exec argv, t => pure (if argv = [] then .none else .start (argv, t))
  | .redir c file mode fd, t => do
    let n ← ask
    match sysOpen K n file mode (close fd t) with
    | some t => runcmd K c t
    | none => pure .none
  | .list l r, t => forked K (runcmd K l t) (fun jl => do return .seq jl (← runcmd K r t)) .none
  | .pipe l r, t => do
    let n ← ask
    match sysPipe K n t with
    | some (p₀, p₁, t) =>
      forked K (runcmd K l (close p₁ (close p₀ (dup p₁ (close 1 t)))))
        (fun jl => forked K (runcmd K r (close p₁ (close p₀ (dup p₀ (close 0 t)))))
          (fun jr => pure (.par jl jr)) (.bg jl)) .none
    | none => pure .none
  | .back c, t => forked K (runcmd K c t) (fun j => pure (.bg j)) .none

/-! ## The meaning -/

/-- A program, its standard input and its standard output. -/
abbrev Wired := List Word × File × File

def Cmd.jobs (K : Kernel) : Cmd Word → File → File → Sh (Jobs Wired)
  | .exec argv, i, o => pure (if argv = [] then .none else .start (argv, i, o))
  | .redir c file mode fd, i, o => do
    let n ← ask
    if K.opened n file mode then
      if fd = 0 then c.jobs K (.file n file mode) o else c.jobs K i (.file n file mode)
    else pure .none
  | .list l r, i, o => forked K (l.jobs K i o) (fun jl => do return .seq jl (← r.jobs K i o)) .none
  | .pipe l r, i, o => do
    let n ← ask
    if K.pipe n then
      forked K (l.jobs K i (.pipeOut n)) (fun jl => forked K (r.jobs K (.pipeIn n) o)
        (fun jr => pure (.par jl jr)) (.bg jl)) .none
    else pure .none
  | .back c, i, o => forked K (c.jobs K i o) (fun j => pure (.bg j)) .none

def Redirect.mode (r : Redirect) : ℕ := if r.out then O_WRONLY ||| O_CREATE else O_RDONLY

def Redirect.fd (r : Redirect) : ℕ := if r.out then 1 else 0

/-- The redirections, in the order in which they are made; one that fails ends the command. -/
def redirected (K : Kernel) :
    List Redirect → (File → File → Sh (Jobs Wired)) → File → File → Sh (Jobs Wired)
  | [], k, i, o => k i o
  | r :: rs, k, i, o => do
    let n ← ask
    if K.opened n r.file r.mode then
      if r.fd = 0 then redirected K rs k (.file n r.file r.mode) o
      else redirected K rs k i (.file n r.file r.mode)
    else pure .none

def backs (K : Kernel) : ℕ → Sh (Jobs Wired) → Sh (Jobs Wired)
  | 0, m => m
  | n + 1, m => backs K n (forked K m (fun j => pure (.bg j)) .none)

mutual

def Line.jobs (K : Kernel) : Line → File → File → Sh (Jobs Wired)
  | .last p n, i, o => backs K n (p.jobs K i o)
  | .seq p n rest, i, o =>
    forked K (backs K n (p.jobs K i o)) (fun jl => do return .seq jl (← rest.jobs K i o)) .none

def Pipe.jobs (K : Kernel) : Pipe → File → File → Sh (Jobs Wired)
  | .one e, i, o => e.jobs K i o
  | .bar e rest, i, o => do
    let n ← ask
    if K.pipe n then
      forked K (e.jobs K i (.pipeOut n)) (fun jl => forked K (rest.jobs K (.pipeIn n) o)
        (fun jr => pure (.par jl jr)) (.bg jl)) .none
    else pure .none

/-- The last redirection of the text is made first. -/
def Exec.jobs (K : Kernel) : Exec → File → File → Sh (Jobs Wired)
  | .words rs args, i, o => redirected K (rs ++ args.flatMap (·.2)).reverse
      (fun i o => pure (if args.map (·.1) = [] then .none else .start (args.map (·.1), i, o))) i o
  | .block l rs, i, o => redirected K rs.reverse (l.jobs K) i o

end

/-- The redirections are of the standard input or output. -/
def Cmd.Standard : Cmd Word → Prop
  | .exec _ => True
  | .redir c _ _ fd => (fd = 0 ∨ fd = 1) ∧ c.Standard
  | .pipe l r | .list l r => l.Standard ∧ r.Standard
  | .back c => c.Standard

/-- The descriptors of the shell, with another standard input and output. -/
def wired (T : Table) (i o : File) : Table :=
  Function.update (Function.update T 0 (some i)) 1 (some o)

/-- There is room for a pipe. -/
def Room (T : Table) : Prop := ∃ p q, 2 ≤ p ∧ p < q ∧ q < NOFILE ∧ T p = none ∧ T q = none

def place (T : Table) (p : Wired) : Start := (p.1, wired T p.2.1 p.2.2)

/-! ## The lowest descriptor -/

variable {K : Kernel} {T t : Table} {i o f : File} {n fd p q : ℕ}

@[simp] theorem wired_zero : wired T i o 0 = some i := rfl

@[simp] theorem wired_one : wired T i o 1 = some o := rfl

theorem wired_of_two_le (h : 2 ≤ fd) : wired T i o fd = T fd := by
  rw [wired, Function.update_of_ne (by omega), Function.update_of_ne (by omega)]

theorem lowest_eq (hlt : fd < NOFILE) (hfree : t fd = none) (hbelow : ∀ x < fd, t x ≠ none) :
    lowest t = some fd := by
  rw [lowest, List.find?_range_eq_some]
  refine ⟨by rw [hfree]; rfl, List.mem_range.mpr hlt, fun x hx => ?_⟩
  cases hx' : t x with
  | none => exact absurd hx' (hbelow x hx)
  | some f => rfl

theorem exists_lowest (hq : q < NOFILE) (h : t q = none) : ∃ p, lowest t = some p ∧ t p = none := by
  cases hp : lowest t with
  | some p => exact ⟨p, rfl, Option.isNone_iff_eq_none.mp
      (List.find?_some (p := fun fd => (t fd).isNone) hp)⟩
  | none =>
    have hnone := List.find?_eq_none.mp hp q (List.mem_range.mpr hq)
    simp [h] at hnone

theorem fdalloc_input (f : File) (ht : t 0 = none) :
    fdalloc f t = some (0, Function.update t 0 (some f)) := by
  rw [fdalloc, lowest_eq (by decide) ht fun x hx => absurd hx (Nat.not_lt_zero x)]
  rfl

theorem fdalloc_output (f : File) (h₀ : t 0 ≠ none) (h₁ : t 1 = none) :
    fdalloc f t = some (1, Function.update t 1 (some f)) := by
  rw [fdalloc, lowest_eq (by decide) h₁ fun x hx => by rwa [Nat.lt_one_iff.mp hx]]
  rfl

/-- `close(0)`, and what is opened next is the standard input. -/
theorem reopen_input (T : Table) (i o f : File) :
    fdalloc f (close 0 (wired T i o)) = some (0, wired T f o) := by
  have hclosed : close 0 (wired T i o) 0 = none := Function.update_self ..
  rw [fdalloc_input f hclosed, close, Function.update_idem, wired, wired,
    Function.update_comm (by decide), Function.update_idem, Function.update_comm (by decide)]

/-- `close(1)`, and what is opened next is the standard output. -/
theorem reopen_output (T : Table) (i o f : File) :
    fdalloc f (close 1 (wired T i o)) = some (1, wired T i f) := by
  have h₀ : close 1 (wired T i o) 0 ≠ none := by
    rw [close, Function.update_of_ne (by decide), wired_zero]
    exact Option.some_ne_none i
  have h₁ : close 1 (wired T i o) 1 = none := Function.update_self ..
  rw [fdalloc_output f h₀ h₁, close, Function.update_idem, wired, Function.update_idem, wired]

/-- The two ends of a pipe beside the descriptors of the shell. -/
def piped (W : Table) (p₀ p₁ n : ℕ) : Table :=
  Function.update (Function.update W p₀ (some (.pipeIn n))) p₁ (some (.pipeOut n))

theorem piped_of_ne {W : Table} {p₀ p₁ x : ℕ} (h₀ : x ≠ p₀) (h₁ : x ≠ p₁) :
    piped W p₀ p₁ n x = W x := by
  rw [piped, Function.update_of_ne h₁, Function.update_of_ne h₀]

/-- A pipe takes two free descriptors, both behind the standard ones. -/
theorem sysPipe_room (hT : Room T) (hK : K.pipe n = true) (i o : File) :
    ∃ p₀ p₁, p₀ ≠ p₁ ∧ 2 ≤ p₀ ∧ 2 ≤ p₁ ∧ T p₀ = none ∧ T p₁ = none ∧
      sysPipe K n (wired T i o) = some (p₀, p₁, piped (wired T i o) p₀ p₁ n) := by
  obtain ⟨p, q, hp, hpq, hq, hTp, hTq⟩ := hT
  have hstd : ∀ {x}, wired T i o x = none → 2 ≤ x := by
    intro x hx
    by_contra hlt
    have h01 : x = 0 ∨ x = 1 := by omega
    rcases h01 with rfl | rfl <;> cases hx
  obtain ⟨p₀, hlow₀, hfree₀⟩ := exists_lowest (q := q) (t := wired T i o) hq
    (by rw [wired_of_two_le (by omega), hTq])
  have hle₀ := hstd hfree₀
  obtain ⟨x, hx, hx2, hTx, hne⟩ : ∃ x, x < NOFILE ∧ 2 ≤ x ∧ T x = none ∧ x ≠ p₀ := by
    by_cases h : p = p₀
    · exact ⟨q, hq, by omega, hTq, by omega⟩
    · exact ⟨p, by omega, hp, hTp, h⟩
  obtain ⟨p₁, hlow₁, hfree₁⟩ := exists_lowest (q := x)
    (t := Function.update (wired T i o) p₀ (some (.pipeIn n))) hx
    (by rw [Function.update_of_ne hne, wired_of_two_le hx2, hTx])
  have hne₁ : p₁ ≠ p₀ := by
    rintro rfl
    rw [Function.update_self] at hfree₁
    cases hfree₁
  rw [Function.update_of_ne hne₁] at hfree₁
  have hle₁ := hstd hfree₁
  rw [wired_of_two_le hle₀] at hfree₀
  rw [wired_of_two_le hle₁] at hfree₁
  refine ⟨p₀, p₁, hne₁.symm, hle₀, hle₁, hfree₀, hfree₁, ?_⟩
  rw [sysPipe, if_pos hK, fdalloc, hlow₀]
  simp only [Option.map_some, Option.bind_eq_bind, Option.bind_some, fdalloc, hlow₁]
  rfl

theorem close_ends {W : Table} {p₀ p₁ : ℕ} (h₀ : 2 ≤ p₀) (h₁ : 2 ≤ p₁) (hT₀ : T p₀ = none)
    (hT₁ : T p₁ = none) (h : ∀ x, x ≠ p₀ → x ≠ p₁ → W x = wired T i o x) :
    close p₁ (close p₀ W) = wired T i o := by
  funext x
  by_cases hx₁ : x = p₁
  · rw [hx₁, close, Function.update_self, wired_of_two_le h₁, hT₁]
  · rw [close, Function.update_of_ne hx₁]
    by_cases hx₀ : x = p₀
    · rw [hx₀, close, Function.update_self, wired_of_two_le h₀, hT₀]
    · rw [close, Function.update_of_ne hx₀, h x hx₀ hx₁]

theorem left_end {p₀ p₁ : ℕ} (h₀ : 2 ≤ p₀) (h₁ : 2 ≤ p₁) (hT₀ : T p₀ = none) (hT₁ : T p₁ = none) :
    close p₁ (close p₀ (dup p₁ (close 1 (piped (wired T i o) p₀ p₁ n)))) =
      wired T i (.pipeOut n) := by
  have hend : close 1 (piped (wired T i o) p₀ p₁ n) p₁ = some (.pipeOut n) := by
    rw [close, Function.update_of_ne (by omega), piped, Function.update_self]
  have hzero : close 1 (piped (wired T i o) p₀ p₁ n) 0 = some i := by
    rw [close, Function.update_of_ne (by decide), piped_of_ne (by omega) (by omega), wired_zero]
  have hone : close 1 (piped (wired T i o) p₀ p₁ n) 1 = none := Function.update_self ..
  have hdup : dup p₁ (close 1 (piped (wired T i o) p₀ p₁ n)) =
      Function.update (close 1 (piped (wired T i o) p₀ p₁ n)) 1 (some (.pipeOut n)) := by
    simp only [dup, hend, fdalloc_output _ (by rw [hzero]; exact Option.some_ne_none i) hone,
      Option.map_some, Option.getD_some]
  rw [hdup]
  refine close_ends h₀ h₁ hT₀ hT₁ fun x hx₀ hx₁ => ?_
  by_cases hx : x = 1
  · rw [hx, Function.update_self, wired_one]
  · rw [Function.update_of_ne hx, close, Function.update_of_ne hx, piped_of_ne hx₀ hx₁, wired,
      Function.update_of_ne hx, wired, Function.update_of_ne hx]

theorem right_end {p₀ p₁ : ℕ} (hne : p₀ ≠ p₁) (h₀ : 2 ≤ p₀) (h₁ : 2 ≤ p₁) (hT₀ : T p₀ = none)
    (hT₁ : T p₁ = none) :
    close p₁ (close p₀ (dup p₀ (close 0 (piped (wired T i o) p₀ p₁ n)))) =
      wired T (.pipeIn n) o := by
  have hend : close 0 (piped (wired T i o) p₀ p₁ n) p₀ = some (.pipeIn n) := by
    rw [close, Function.update_of_ne (by omega), piped, Function.update_of_ne hne,
      Function.update_self]
  have hzero : close 0 (piped (wired T i o) p₀ p₁ n) 0 = none := Function.update_self ..
  have hdup : dup p₀ (close 0 (piped (wired T i o) p₀ p₁ n)) =
      Function.update (close 0 (piped (wired T i o) p₀ p₁ n)) 0 (some (.pipeIn n)) := by
    simp only [dup, hend, fdalloc_input _ hzero, Option.map_some, Option.getD_some]
  rw [hdup]
  refine close_ends h₀ h₁ hT₀ hT₁ fun x hx₀ hx₁ => ?_
  by_cases hx : x = 0
  · rw [hx, Function.update_self, wired_zero]
  · rw [Function.update_of_ne hx, close, Function.update_of_ne hx, piped_of_ne hx₀ hx₁]
    by_cases hx1 : x = 1
    · rw [hx1, wired_one, wired_one]
    · rw [wired_of_two_le (by omega), wired_of_two_le (by omega)]

/-! ## The processes of a command -/

theorem forked_map {α β : Type} (f : α → β) {child : Sh (Jobs α)} {child' : Sh (Jobs β)}
    {k : Jobs α → Sh (Jobs α)} {k' : Jobs β → Sh (Jobs β)} {failed : Jobs α} {failed' : Jobs β}
    (hchild : child' = Jobs.map f <$> child) (hk : ∀ j, k' (j.map f) = Jobs.map f <$> k j)
    (hfailed : failed' = failed.map f) :
    forked K child' k' failed' = Jobs.map f <$> forked K child k failed := by
  subst hchild hfailed
  unfold forked
  rw [map_bind]
  congr 1
  funext n
  split_ifs
  · rw [bind_map_left, map_bind]
    exact congrArg _ (funext hk)
  · rw [map_pure]

/-- Every program of a command is started with the standard input and output that it is meant to
have, and otherwise with the descriptors of the shell. -/
theorem runcmd_wired {c : Cmd Word} (hT : Room T) (hc : c.Standard) :
    runcmd K c (wired T i o) = Jobs.map (place T) <$> c.jobs K i o := by
  induction c generalizing i o with
  | exec argv =>
    rw [runcmd, Cmd.jobs, map_pure]
    split_ifs <;> rfl
  | redir c file mode fd ih =>
    rw [runcmd, Cmd.jobs, map_bind]
    congr 1
    funext n
    rw [sysOpen]
    split_ifs with hopen hfd
    · subst hfd
      rw [reopen_input]
      exact ih hc.2
    · obtain rfl : fd = 1 := hc.1.resolve_left hfd
      rw [reopen_output]
      exact ih hc.2
    · rw [map_pure]
      rfl
  | pipe l r ihl ihr =>
    rw [runcmd, Cmd.jobs, map_bind]
    congr 1
    funext n
    by_cases hK : K.pipe n = true
    · obtain ⟨p₀, p₁, hne, h₀, h₁, hT₀, hT₁, hpipe⟩ := sysPipe_room hT hK i o
      rw [hpipe, if_pos hK]
      refine forked_map _ ?_ (fun jl => forked_map _ ?_ (fun jr => ?_) rfl) rfl
      · rw [← ihl hc.1, ← left_end h₀ h₁ hT₀ hT₁]
      · rw [← ihr hc.2, ← right_end hne h₀ h₁ hT₀ hT₁]
      · rw [map_pure]
        rfl
    · rw [sysPipe, if_neg hK, if_neg hK, map_pure]
      rfl
  | list l r ihl ihr =>
    rw [runcmd, Cmd.jobs]
    refine forked_map _ (ihl hc.1) (fun jl => ?_) rfl
    rw [ihr hc.2, bind_map_left, map_bind]
    rfl
  | back c ih =>
    rw [runcmd, Cmd.jobs]
    exact forked_map _ (ih hc) (fun j => by rw [map_pure]; rfl) rfl

/-! ## The meaning of a line -/

theorem node_eq (c : Cmd Word) (r : Redirect) : r.node c = .redir c r.file r.mode r.fd := by
  rw [Redirect.node, Redirect.mode, Redirect.fd]
  split_ifs <;> rfl

theorem node_jobs (c : Cmd Word) (r : Redirect) :
    (r.node c).jobs K = redirected K [r] (c.jobs K) := by
  rw [node_eq]
  rfl

theorem redirected_append (rs rs' : List Redirect) (k : File → File → Sh (Jobs Wired)) :
    redirected K (rs ++ rs') k = redirected K rs (redirected K rs' k) := by
  induction rs with
  | nil => rfl
  | cons r rs ih =>
    rw [List.cons_append]
    funext i o
    rw [redirected, redirected, ih]

theorem foldl_jobs (rs : List Redirect) (c : Cmd Word) :
    (rs.foldl Redirect.node c).jobs K = redirected K rs.reverse (c.jobs K) := by
  induction rs generalizing c with
  | nil => rfl
  | cons r rs ih =>
    rw [List.foldl_cons, ih, node_jobs, List.reverse_cons, redirected_append]

theorem backs_jobs (b : ℕ) (c : Cmd Word) :
    (withBacks c b).jobs K i o = backs K b (c.jobs K i o) := by
  induction b generalizing c with
  | zero => rfl
  | succ b ih =>
    rw [withBacks, ih, backs]
    rfl

mutual

theorem Line.tree_jobs (K : Kernel) : ∀ (l : Line) (i o : File), l.tree.jobs K i o = l.jobs K i o
  | .last p n, i, o => by rw [Line.tree, backs_jobs, Line.jobs, Pipe.tree_jobs K p]
  | .seq p n rest, i, o => by
    rw [Line.tree, Cmd.jobs, backs_jobs, Line.jobs, Pipe.tree_jobs K p, Line.tree_jobs K rest]

theorem Pipe.tree_jobs (K : Kernel) : ∀ (p : Pipe) (i o : File), p.tree.jobs K i o = p.jobs K i o
  | .one e, i, o => by rw [Pipe.tree, Pipe.jobs, Exec.tree_jobs K e]
  | .bar e rest, i, o => by
    rw [Pipe.tree, Pipe.jobs, Cmd.jobs]
    simp only [Exec.tree_jobs K e, Pipe.tree_jobs K rest]

theorem Exec.tree_jobs (K : Kernel) : ∀ (e : Exec) (i o : File), e.tree.jobs K i o = e.jobs K i o
  | .words rs args, i, o => by
    rw [Exec.tree, foldl_jobs, Exec.jobs]
    rfl
  | .block l rs, i, o => by
    have hl : l.tree.jobs K = l.jobs K := funext fun i => funext fun o => Line.tree_jobs K l i o
    rw [Exec.tree, foldl_jobs, Exec.jobs, hl]

end

/-! ## The ends of the pipes -/

def Jobs.All {α : Type} (P : α → Prop) : Jobs α → Prop
  | .none => True
  | .start p => P p
  | .seq l r | .par l r => l.All P ∧ r.All P
  | .bg j => j.All P

theorem Jobs.All.map {α β : Type} {f : α → β} {P : α → Prop} {Q : β → Prop} {j : Jobs α}
    (h : j.All P) (hf : ∀ p, P p → Q (f p)) : (j.map f).All Q := by
  induction j with
  | none => trivial
  | start p => exact hf p h
  | seq l r ihl ihr => exact ⟨ihl h.1, ihr h.2⟩
  | par l r ihl ihr => exact ⟨ihl h.1, ihr h.2⟩
  | bg j ih => exact ih h

/-- `i` is no write end, `o` no read end, and they are not the ends of one pipe; pipes from the
`n`th call on are still to come. -/
structure Apart (i o : File) (n : ℕ) : Prop where
  input : ∀ k, i ≠ .pipeOut k
  output : ∀ k, o ≠ .pipeIn k
  apart : ∀ k, i = .pipeIn k → o ≠ .pipeOut k
  inBorn : ∀ k, i = .pipeIn k → k < n
  outBorn : ∀ k, o = .pipeOut k → k < n

theorem Apart.mono {m : ℕ} (h : Apart i o n) (hle : n ≤ m) : Apart i o m :=
  ⟨h.input, h.output, h.apart, fun k hk => (h.inBorn k hk).trans_le hle,
    fun k hk => (h.outBorn k hk).trans_le hle⟩

/-- From the `n`th call on, `m` starts programs of which `P` is true. -/
def Starts {α : Type} (P : α → Prop) (n : ℕ) (m : Sh (Jobs α)) : Prop :=
  n ≤ (m n).2 ∧ (m n).1.All P

theorem Starts.pure {α : Type} {P : α → Prop} {j : Jobs α} (h : j.All P) : Starts P n (pure j) :=
  ⟨Nat.le_refl n, h⟩

theorem Starts.bind {α : Type} {P : α → Prop} {m : Sh (Jobs α)} {k : Jobs α → Sh (Jobs α)}
    (h : Starts P n m) (hk : ∀ j n', n ≤ n' → j.All P → Starts P n' (k j)) :
    Starts P n (m >>= k) := by
  obtain ⟨hle, hall⟩ := hk (m n).1 (m n).2 h.1 h.2
  exact ⟨h.1.trans hle, hall⟩

theorem Starts.ask {α : Type} {P : α → Prop} {k : ℕ → Sh (Jobs α)} (h : Starts P (n + 1) (k n)) :
    Starts P n (ask >>= k) :=
  ⟨(Nat.le_succ n).trans h.1, h.2⟩

theorem Starts.forked {α : Type} {P : α → Prop} {child : Sh (Jobs α)} {k : Jobs α → Sh (Jobs α)}
    {failed : Jobs α} (hchild : Starts P (n + 1) child)
    (hk : ∀ j n', n ≤ n' → j.All P → Starts P n' (k j)) (hfailed : failed.All P) :
    Starts P n (forked K child k failed) := by
  refine .ask ?_
  split_ifs
  · exact hchild.bind fun j n' hle => hk j n' (Nat.le_of_succ_le hle)
  · exact .pure hfailed

theorem jobs_apart {c : Cmd Word} (hc : c.Standard) (h : Apart i o n) :
    Starts (fun p => ∃ m, Apart p.2.1 p.2.2 m) n (c.jobs K i o) := by
  induction c generalizing i o n with
  | exec argv =>
    refine .pure ?_
    split_ifs
    · trivial
    · exact ⟨n, h⟩
  | redir c file mode fd ih =>
    refine .ask ?_
    split_ifs
    · refine ih hc.2 ?_
      exact ⟨by simp, h.output, by simp, by simp, (h.mono (Nat.le_succ n)).outBorn⟩
    · refine ih hc.2 ?_
      exact ⟨h.input, by simp, by simp, (h.mono (Nat.le_succ n)).inBorn, by simp⟩
    · exact .pure trivial
  | pipe l r ihl ihr =>
    refine .ask ?_
    split_ifs
    · refine .forked (ihl hc.1 ?_) (fun jl n' hle hl => .forked (ihr hc.2 ?_)
        (fun jr n'' _ hr => .pure ⟨hl, hr⟩) hl) trivial
      · refine ⟨h.input, by simp, fun k hk hout => ?_, fun k hk => ?_, fun k hk => ?_⟩
        · have := h.inBorn k hk
          have := File.pipeOut.inj hout
          omega
        · have := h.inBorn k hk
          omega
        · have := File.pipeOut.inj hk
          omega
      · refine ⟨by simp, h.output, fun k hk hout => ?_, fun k hk => ?_, fun k hk => ?_⟩
        · have := h.outBorn k hout
          have := File.pipeIn.inj hk
          omega
        · have := File.pipeIn.inj hk
          omega
        · have := h.outBorn k hk
          omega
    · exact .pure trivial
  | list l r ihl ihr =>
    refine .forked (ihl hc.1 (h.mono (Nat.le_succ n))) (fun jl n' hle hl => ?_) trivial
    exact (ihr hc.2 (h.mono hle)).bind fun jr n'' _ hr => .pure ⟨hl, hr⟩
  | back c ih => exact .forked (ih hc (h.mono (Nat.le_succ n))) (fun j n' _ hj => .pure hj) trivial

/-- A program that reads from a pipe cannot keep it open: no program is started with an end of a
pipe behind its standard descriptors, or with both ends of one pipe in them. -/
theorem pipe_ends {c : Cmd Word} (hT : Room T) (hc : c.Standard)
    (hplain : ∀ fd, 2 ≤ fd → ∀ k, T fd ≠ some (.pipeIn k) ∧ T fd ≠ some (.pipeOut k))
    (h : Apart i o n) (K : Kernel) :
    (runcmd K c (wired T i o) n).1.All fun p =>
      (∀ fd k, p.2 fd = some (.pipeIn k) → fd = 0) ∧
      (∀ fd k, p.2 fd = some (.pipeOut k) → fd = 1) ∧
      ∀ k, p.2 0 = some (.pipeIn k) → p.2 1 ≠ some (.pipeOut k) := by
  have hrun : (runcmd K c (wired T i o) n).1 = ((c.jobs K i o n).1).map (place T) := by
    rw [runcmd_wired hT hc]
    rfl
  rw [hrun]
  refine (jobs_apart hc h).2.map ?_
  rintro ⟨argv, i', o'⟩ ⟨m, hm⟩
  dsimp only at hm
  refine ⟨fun fd k hfd => ?_, fun fd k hfd => ?_, fun k hin hout => ?_⟩
  · by_contra h0
    by_cases h1 : fd = 1
    · subst h1
      exact hm.output k (Option.some.inj hfd)
    · have hle : 2 ≤ fd := by omega
      exact (hplain fd hle k).1 ((wired_of_two_le hle).symm.trans hfd)
  · by_contra h1
    by_cases h0 : fd = 0
    · subst h0
      exact hm.input k (Option.some.inj hfd)
    · have hle : 2 ≤ fd := by omega
      exact (hplain fd hle k).2 ((wired_of_two_le hle).symm.trans hfd)
  · exact hm.apart k (Option.some.inj hin) (Option.some.inj hout)

/-- The descriptors with which `main` of sh leaves its first loop. -/
def console : Table := fun fd => if fd < 3 then some (.inherited fd) else none

theorem console_room : Room console := ⟨3, 4, by decide, by decide, by decide, rfl, rfl⟩

/-- `( a | b ) > f`. -/
theorem pipe_ends_redirected :
    (runcmd ⟨fun _ => true, fun _ => true, fun _ _ _ => true⟩
      (.redir (.pipe (.exec [[97]]) (.exec [[98]])) [102] O_WRONLY 1)
      (wired console (.inherited 0) (.inherited 1)) 0).1.All fun p =>
        (∀ fd k, p.2 fd = some (.pipeIn k) → fd = 0) ∧
        (∀ fd k, p.2 fd = some (.pipeOut k) → fd = 1) ∧
        ∀ k, p.2 0 = some (.pipeIn k) → p.2 1 ≠ some (.pipeOut k) := by
  have hstd : Cmd.Standard (.redir (.pipe (.exec [[97]]) (.exec [[98]])) [102] O_WRONLY 1) :=
    ⟨.inr rfl, trivial, trivial⟩
  refine pipe_ends console_room hstd (fun fd _ k => ?_) ?_ _
  · rw [console]
    split_ifs <;> simp
  · exact ⟨by simp, by simp, by simp, by simp, by simp⟩

/-! ## A line of text -/

theorem foldl_standard (rs : List Redirect) {c : Cmd Word} (hc : c.Standard) :
    (rs.foldl Redirect.node c).Standard := by
  induction rs generalizing c with
  | nil => exact hc
  | cons r rs ih =>
    rw [List.foldl_cons, node_eq]
    refine ih ⟨?_, hc⟩
    rw [Redirect.fd]
    split_ifs
    · exact .inr rfl
    · exact .inl rfl

theorem backs_standard (b : ℕ) {c : Cmd Word} (hc : c.Standard) : (withBacks c b).Standard := by
  induction b generalizing c with
  | zero => exact hc
  | succ b ih => exact ih (c := .back c) hc

mutual

theorem Line.tree_standard : ∀ l : Line, l.tree.Standard
  | .last p n => backs_standard n p.tree_standard
  | .seq p n rest => ⟨backs_standard n p.tree_standard, rest.tree_standard⟩

theorem Pipe.tree_standard : ∀ p : Pipe, p.tree.Standard
  | .one e => e.tree_standard
  | .bar e rest => ⟨e.tree_standard, rest.tree_standard⟩

theorem Exec.tree_standard : ∀ e : Exec, e.tree.Standard
  | .words _ _ => foldl_standard _ trivial
  | .block l rs => foldl_standard rs l.tree_standard

end

/-- A line that is typed, parsed and run starts the programs that it means, in its order, each
with its standard input and output and the other descriptors of the shell. -/
theorem run_line {l : Line} (hl : l.Ok) (hT : Room T) (K : Kernel) (i o : File) :
    ∃ c buf tree, parsecmd l.print = .ok (c, buf) ∧ c.strings buf = some tree ∧
      runcmd K tree (wired T i o) = Jobs.map (place T) <$> l.jobs K i o := by
  obtain ⟨c, buf, hparse, hstrings⟩ := parsecmd_print hl
  refine ⟨c, buf, l.tree, hparse, hstrings, ?_⟩
  rw [runcmd_wired hT l.tree_standard, Line.tree_jobs]

/-- `a | b ; c`. -/
def threeWords : Line :=
  .seq (.bar (.words [] [([97], [])]) (.one (.words [] [([98], [])]))) 0
    (.last (.one (.words [] [([99], [])])) 0)

theorem run_line_three : ∃ c buf tree, parsecmd threeWords.print = .ok (c, buf) ∧
    c.strings buf = some tree ∧
    (runcmd ⟨fun _ => true, fun _ => true, fun _ _ _ => true⟩ tree
      (wired console (.inherited 0) (.inherited 1)) 0).1 =
        .seq (.par (.start ([[97]], wired console (.inherited 0) (.pipeOut 1)))
          (.start ([[98]], wired console (.pipeIn 1) (.inherited 1))))
          (.start ([[99]], wired console (.inherited 0) (.inherited 1))) := by
  have hok : threeWords.Ok := by
    refine ⟨⟨⟨?_, by decide, ?_⟩, ?_, by decide, ?_⟩, ?_, by decide, ?_⟩ <;>
      simp [RedirectsOk, WordOk, WordChar, whitespace, symbols]
  obtain ⟨c, buf, tree, hparse, hstrings, hrun⟩ := run_line hok console_room
    ⟨fun _ => true, fun _ => true, fun _ _ _ => true⟩ (.inherited 0) (.inherited 1)
  exact ⟨c, buf, tree, hparse, hstrings, by rw [hrun]; rfl⟩

end Ostep.ShParser

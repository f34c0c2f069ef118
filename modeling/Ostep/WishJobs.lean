import Ostep.TransitionSystem
import Ostep.WishParallelize
import Mathlib.Data.Finset.Card
import Mathlib.Logic.Function.Basic

/-!
# The jobs of wish

The processes that run `runWish`, and the programs they turn into. Every `'&'` of a line makes
a child that goes on with the rest of the line, and every process of the chain makes one more
that runs its command; a failed `exec` falls through into the shell's code. `fork`, `exec`,
`wait` and `exit` are steps on a table of processes whose identifiers are handed out once; a
program that is not wish does with its own children what it likes.
-/

namespace Ostep.WishJobs
open TransitionSystem WishParallelize

abbrev MAXARGS : ℕ := 11

def space : UInt8 := 32

/-- `"exit"`. -/
def exitWord : List UInt8 := [101, 120, 105, 116]

/-- Where a call of `wait` stands. -/
inductive Site where
  | executeCmd
  | cleanup
  | runWish
  deriving DecidableEq, Repr

deriving instance DecidableEq for Buffer

inductive Pc where
  /-- Code that is not wish's. -/
  | program
  | getcmd
  /-- `parallelize`: `malloc(TOTALSIZE)`. -/
  | malloc (readBuff : Buffer)
  /-- `parallelize`: the head of its loop. -/
  | split (readBuff resBuf : Buffer) (baseByte currChar : ℕ)
  | parseArgs (readBuff : Buffer)
  /-- `executeCmd`: `fork()`. -/
  | executeCmd
  /-- The child of `executeCmd`. -/
  | exec
  | wait (site : Site)
  | cleanup
  | exit
  deriving DecidableEq

inductive Life where
  | unborn
  | live
  | zombie
  /-- Reaped by a `wait`. -/
  | gone
  deriving DecidableEq, Repr

structure Proc where
  life : Life
  parent : Option ℕ
  pc : Pc
  /-- Made by a `fork` of wish's code. -/
  job : Bool

structure St where
  nextpid : ℕ
  proc : ℕ → Proc

/-- The parent of orphans. -/
abbrev initproc : ℕ := 1

def St.set (s : St) (q : ℕ) (p : Proc) : St := { s with proc := Function.update s.proc q p }

def St.goto (s : St) (q : ℕ) (pc : Pc) : St := s.set q { s.proc q with pc := pc }

/-- `fork`: the child starts at `pc`. -/
def St.fork (s : St) (q : ℕ) (pc : Pc) (job : Bool) : St :=
  { nextpid := s.nextpid + 1
    proc := Function.update s.proc s.nextpid ⟨.live, some q, pc, job⟩ }

/-- `exit`: abandoned children go to `init`. -/
def St.exit (s : St) (q : ℕ) : St :=
  { s with
    proc := fun c =>
      if c = q then { s.proc q with life := .zombie }
      else if (s.proc c).parent = some q then { s.proc c with parent := some initproc }
      else s.proc c }

def St.reap (s : St) (c : ℕ) : St := s.set c { s.proc c with life := .gone }

/-- `c` is a child `wait` of `q` counts. -/
def St.Child (s : St) (q c : ℕ) : Prop :=
  ((s.proc c).life = .live ∨ (s.proc c).life = .zombie) ∧ (s.proc c).parent = some q

instance (s : St) (q c : ℕ) : Decidable (s.Child q c) := by
  unfold St.Child
  infer_instance

/-- `getcmd`, `gets` having read `input`; `none` stands for -1. -/
def getcmd (input : List UInt8) : Option Buffer :=
  let bytes := (input ++ List.replicate TOTALSIZE 0).take TOTALSIZE
  if bytes.head? = some 0 then none
  else some ⟨bytes.set ((bytes.takeWhile (· ≠ 0)).length - 1) 0, by simp [bytes]⟩

/-- The string at the start of a block which `beyond` follows in memory. -/
def text (buf : Buffer) (beyond : List UInt8) : List UInt8 :=
  (buf.bytes ++ beyond).takeWhile (· ≠ 0)

/-- `myargv[0]` after `parseArgs`. -/
def firstWord (line : List UInt8) : List UInt8 := line.takeWhile (· ≠ space)

/-- `parseArgs` stores a word before each blank, one more, and a null. -/
def ArgvFits (line : List UInt8) : Prop := line.count space + 2 ≤ MAXARGS

instance (line : List UInt8) : Decidable (ArgvFits line) := by
  unfold ArgvFits
  infer_instance

/-- One turn of `parallelize`'s loop on a byte other than `'&'`. -/
def splitStep (s : St) (q : ℕ) (readBuff resBuf : Buffer) (baseByte currChar : ℕ) : Option St :=
  (readBuff.bytes[currChar]?).bind fun c =>
    if c = 0 then
      some (s.goto q (.parseArgs (resBuf.memcpy readBuff baseByte (currChar - baseByte))))
    else if c = ampersand then none
    else some (s.goto q (.split readBuff resBuf baseByte (currChar + 1)))

/-- The `fork` of `parallelize`: the parent returns, the child walks on. -/
def splitFork (s : St) (q : ℕ) (readBuff resBuf : Buffer) (baseByte currChar : ℕ) : Option St :=
  if readBuff.bytes[currChar]? = some ampersand then
    let filled := resBuf.memcpy readBuff baseByte (currChar - baseByte)
    some ((s.fork q (.split readBuff filled (currChar + 1) (currChar + 1)) true).goto q
      (.parseArgs filled))
  else none

/-- What follows a `wait`. -/
def Site.after : Site → Pc
  | .executeCmd => .cleanup
  | .cleanup => .exit
  | .runWish => .getcmd

def Pc.afterWait : Pc → Option Pc
  | .wait site => some site.after
  | .program => some .program
  | _ => none

inductive Event where
  | gets (q : ℕ) (input : List UInt8)
  | malloc (q : ℕ) (block : Buffer)
  | split (q : ℕ)
  | fork (q : ℕ)
  | parse (q : ℕ) (beyond : List UInt8)
  | exec (q : ℕ) (ok : Bool)
  /-- `wait` reaps a child, or returns -1 for want of any. -/
  | wait (q : ℕ) (child : Option ℕ)
  | cleanup (q : ℕ)
  | exit (q : ℕ)

def Event.caller : Event → ℕ
  | .gets q _ | .malloc q _ | .split q | .fork q | .parse q _ | .exec q _ | .wait q _ | .cleanup q
  | .exit q => q

def stepOf (base : ℕ) (s : St) : Event → Option St
  | .gets q input =>
    match (s.proc q).pc with
    | .getcmd =>
      if input.length < TOTALSIZE then
        match getcmd input with
        -- `main` returns to nowhere and the kernel ends the process
        | none => some (s.goto q .exit)
        | some readBuff => some (s.goto q (.malloc readBuff))
      else none
    | _ => none
  | .malloc q block =>
    match (s.proc q).pc with
    | .malloc readBuff => some (s.goto q (.split readBuff block 0 0))
    | _ => none
  | .split q =>
    match (s.proc q).pc with
    | .split readBuff resBuf baseByte currChar => splitStep s q readBuff resBuf baseByte currChar
    | _ => none
  | .fork q =>
    match (s.proc q).pc with
    | .split readBuff resBuf baseByte currChar => splitFork s q readBuff resBuf baseByte currChar
    | .executeCmd => some ((s.fork q .exec true).goto q (.wait .executeCmd))
    | .program => some (s.fork q .program false)
    | _ => none
  | .parse q beyond =>
    match (s.proc q).pc with
    | .parseArgs readBuff =>
      -- `cd` and `path` print at most; the command is run whatever it is
      some (s.goto q (if firstWord (text readBuff beyond) = exitWord then .exit else .executeCmd))
    | _ => none
  | .exec q ok =>
    match (s.proc q).pc with
    -- past a failed `exec` the child runs on into `executeCmd`'s `wait`
    | .exec => some (s.goto q (if ok then .program else .wait .executeCmd))
    | _ => none
  | .wait q child =>
    (s.proc q).pc.afterWait.bind fun pc =>
      match child with
      | some c =>
        if (s.proc c).life = .zombie ∧ (s.proc c).parent = some q then some ((s.reap c).goto q pc)
        else none
      | none => if ∀ c < s.nextpid, ¬ s.Child q c then some (s.goto q pc) else none
  | .cleanup q =>
    match (s.proc q).pc with
    | .cleanup => some (s.goto q (if q ≠ base then .wait .cleanup else .wait .runWish))
    | _ => none
  | .exit q =>
    match (s.proc q).pc with
    | .exit => some (s.exit q)
    | .program => if q = initproc then none else some (s.exit q)
    | _ => none

/-- Every step is one of a living process. -/
def next (base : ℕ) (s : St) (e : Event) : Option St :=
  if (s.proc e.caller).life = .live then stepOf base s e else none

/-- wish has just been started as `base`; everything else is somebody else's. -/
structure Initial (base : ℕ) (s : St) : Prop where
  shell : (s.proc base).life = .live ∧ (s.proc base).pc = .getcmd ∧ base ≠ initproc
  init : (s.proc initproc).life = .live ∧ (s.proc initproc).parent = none
  others : ∀ q, (s.proc q).job = false ∧ (q ≠ base → (s.proc q).pc = .program)
  unborn : ∀ q, s.nextpid ≤ q → (s.proc q).life = .unborn
  child : ∀ q c, s.Child q c → (s.proc q).life = .live ∧ q ≠ base ∧ q ≠ c

def system (base : ℕ) : System St Event := .ofNext (Initial base) (next base)

def Pc.toParse : Pc → Option Buffer
  | .parseArgs readBuff => some readBuff
  | _ => none

/-- No process reads `exit` as its first word, or more words than `myargv` has room for. -/
def Plain (s : St) : Event → Prop
  | .parse q beyond =>
    ∀ readBuff ∈ (s.proc q).pc.toParse,
      firstWord (text readBuff beyond) ≠ exitWord ∧ ArgvFits (text readBuff beyond)
  | _ => True

instance (s : St) (e : Event) : Decidable (Plain s e) := by
  unfold Plain
  split <;> infer_instance

/-! ## Waits and children -/

/-- How many children a process of wish may have: those its `wait`s still to come will reap. -/
def Pc.waits : Pc → ℕ
  | .parseArgs _ | .executeCmd | .cleanup | .wait .cleanup | .wait .runWish => 1
  | .wait .executeCmd => 2
  | _ => 0

/-- The places only the process that started as wish comes to. -/
def Pc.atBase : Pc → Bool
  | .getcmd | .malloc _ | .wait .runWish => true
  | _ => false

/-- A living process that runs wish's code. -/
def Proc.shell (p : Proc) : Prop := p.life = .live ∧ p.pc ≠ .program

structure Inv (base : ℕ) (s : St) : Prop where
  unborn : ∀ q, s.nextpid ≤ q → (s.proc q).life = .unborn
  unborn_job : ∀ q, (s.proc q).life = .unborn → (s.proc q).job = false
  init : (s.proc initproc).life = .live ∧ (s.proc initproc).pc = .program ∧
    (s.proc initproc).parent = none
  base_only : ∀ q, (s.proc q).life = .live → (s.proc q).pc.atBase = true → q = base
  job_parent : ∀ c, (s.proc c).job = true → (s.proc c).parent ≠ none
  shell_job : ∀ q, (s.proc q).shell → q = base ∨ (s.proc q).job = true
  parent_live : ∀ q c, s.Child q c → (s.proc q).life = .live ∧ q ≠ c
  kids : ∀ q, (s.proc q).shell →
    ∃ K : Finset ℕ, K.card ≤ (s.proc q).pc.waits ∧ ∀ c, s.Child q c → c ∈ K
  family : ∀ q c, s.Child q c → (s.proc c).job = true →
    q < c ∧ (s.proc q).shell

theorem Initial.inv {base : ℕ} {s : St} (h : Initial base s) : Inv base s where
  unborn := h.unborn
  unborn_job q _ := (h.others q).1
  init := ⟨h.init.1, (h.others initproc).2 (Ne.symm h.shell.2.2), h.init.2⟩
  base_only q _ hq := by
    by_contra hne
    simp [(h.others q).2 hne, Pc.atBase] at hq
  job_parent c hc := by simp [(h.others c).1] at hc
  shell_job q hq := by
    by_contra hne
    exact hq.2 ((h.others q).2 fun h => hne (.inl h))
  parent_live q c hc := ⟨(h.child q c hc).1, (h.child q c hc).2.2⟩
  kids q hq := by
    refine ⟨∅, by simp, fun c hc => ?_⟩
    exact absurd ((h.others q).2 (h.child q c hc).2.1) hq.2
  family q c _ hjob := by simp [(h.others c).1] at hjob

@[simp] theorem goto_nextpid (s : St) (q : ℕ) (pc : Pc) : (s.goto q pc).nextpid = s.nextpid := rfl

theorem goto_proc (s : St) (q : ℕ) (pc : Pc) (c : ℕ) :
    (s.goto q pc).proc c = { s.proc c with pc := if c = q then pc else (s.proc c).pc } := by
  by_cases hc : c = q
  · subst hc
    simp [St.goto, St.set]
  · simp [St.goto, St.set, hc]

theorem goto_self {s : St} {q : ℕ} {pc : Pc} (h : (s.proc q).pc = pc) : s.goto q pc = s := by
  subst h
  simp [St.goto, St.set]

@[simp] theorem child_goto (s : St) (q : ℕ) (pc : Pc) (p c : ℕ) :
    (s.goto q pc).Child p c ↔ s.Child p c := by
  simp [St.Child, goto_proc]

/-- `q` moves on to where no fewer children are waited for. -/
theorem Inv.goto {base : ℕ} {s : St} (hs : Inv base s) {q : ℕ} {pc : Pc}
    (hbase : pc.atBase = true → q = base) (hq : (s.proc q).pc ≠ .program)
    (hpc : pc = .program → ∀ c, ¬ s.Child q c)
    (hwaits : (s.proc q).pc.waits ≤ pc.waits ∨ ∀ c, ¬ s.Child q c) : Inv base (s.goto q pc) where
  unborn c hc := by simpa [goto_proc] using hs.unborn c hc
  unborn_job c hc := by simpa [goto_proc] using hs.unborn_job c (by simpa [goto_proc] using hc)
  init := by
    have hne : initproc ≠ q := by
      rintro rfl
      exact hq hs.init.2.1
    simpa [goto_proc, hne] using hs.init
  base_only c hlive hc := by
    simp only [goto_proc] at hlive hc
    split_ifs at hc with h
    · rw [h]
      exact hbase hc
    · exact hs.base_only c hlive hc
  job_parent c hc := by simpa [goto_proc] using hs.job_parent c (by simpa [goto_proc] using hc)
  shell_job c hc := by
    have := hs.shell_job c
    grind [goto_proc, Proc.shell]
  parent_live p c hc := by
    simpa [goto_proc] using hs.parent_live p c ((child_goto ..).mp hc)
  kids p hp := by
    simp only [Proc.shell, goto_proc, child_goto] at hp ⊢
    by_cases hpq : p = q
    · subst hpq
      simp only [if_true] at hp ⊢
      obtain ⟨K, hcard, hK⟩ := hs.kids p ⟨hp.1, hq⟩
      rcases hwaits with hle | hnone
      · exact ⟨K, hcard.trans hle, hK⟩
      · exact ⟨∅, by simp, fun c hc => absurd hc (hnone c)⟩
    · simp only [hpq, if_false] at hp ⊢
      exact hs.kids p hp
  family p c hc hjob := by
    rw [child_goto] at hc
    obtain ⟨hlt, hshell⟩ := hs.family p c hc (by simpa [goto_proc] using hjob)
    refine ⟨hlt, ?_⟩
    simp only [Proc.shell, goto_proc]
    split_ifs with hpq
    · subst hpq
      exact ⟨hshell.1, fun h => hpc h c hc⟩
    · exact hshell

theorem fork_proc (s : St) (q : ℕ) (pc : Pc) (job : Bool) (c : ℕ) :
    (s.fork q pc job).proc c = if c = s.nextpid then ⟨.live, some q, pc, job⟩ else s.proc c := by
  simp [St.fork, Function.update_apply]

theorem Inv.child_lt {base : ℕ} {s : St} (hs : Inv base s) {q c : ℕ} (hc : s.Child q c) :
    c < s.nextpid := by
  by_contra h
  have := hs.unborn c (by omega)
  simp [St.Child, this] at hc

theorem Inv.live_lt {base : ℕ} {s : St} (hs : Inv base s) {q : ℕ}
    (hq : (s.proc q).life = .live) : q < s.nextpid := by
  by_contra h
  simp [hs.unborn q (by omega)] at hq

/-- The children after a `fork` of `q`. -/
theorem Inv.child_fork {base : ℕ} {s : St} (hs : Inv base s) {q : ℕ} {pc : Pc} {job : Bool}
    {p c : ℕ} :
    (s.fork q pc job).Child p c ↔ s.Child p c ∨ c = s.nextpid ∧ p = q := by
  by_cases hc : c = s.nextpid
  · subst hc
    have hnot : ¬ s.Child p s.nextpid := fun h => absurd (hs.child_lt h) (by omega)
    simp [hnot]
    simp [St.Child, fork_proc, eq_comm]
  · simp [St.Child, fork_proc, hc]

/-- `fork`: a new child that has none, below one that has room for it. -/
theorem Inv.fork {base : ℕ} {s : St} (hs : Inv base s) {q : ℕ} {pc pc' : Pc} {job : Bool}
    (hlive : (s.proc q).life = .live)
    (hjob : job = true ∧ (s.proc q).pc ≠ .program ∨ job = false ∧ pc = .program)
    (hpc : pc.waits = 0 ∧ pc.atBase = false)
    (hroom : (s.proc q).pc = .program ∧ pc' = .program ∨ (s.proc q).pc ≠ .program ∧
      pc' ≠ .program ∧ (s.proc q).pc.waits + 1 ≤ pc'.waits ∧ pc'.atBase = false) :
    Inv base ((s.fork q pc job).goto q pc') := by
  have hlt := hs.live_lt hlive
  have hne : q ≠ s.nextpid := by omega
  have hchild {p c : ℕ} := (child_goto (s.fork q pc job) q pc' p c).trans hs.child_fork
  have hnew : (s.proc s.nextpid).life = .unborn := hs.unborn _ le_rfl
  constructor
  case unborn =>
    intro c hc
    have hc : s.nextpid + 1 ≤ c := hc
    have hcne : c ≠ s.nextpid := by omega
    simpa [goto_proc, fork_proc, hcne] using hs.unborn c (by omega)
  case unborn_job =>
    intro c hc
    simp only [goto_proc, fork_proc] at hc ⊢
    by_cases h : c = s.nextpid
    · simp [h] at hc
    · simp only [h, if_false] at hc ⊢
      exact hs.unborn_job c hc
  case init =>
    have := hs.init
    grind [goto_proc, fork_proc]
  case base_only =>
    intro c hc hat
    have := hs.base_only c
    grind [goto_proc, fork_proc]
  case job_parent =>
    intro c hjob
    have := hs.job_parent c
    grind [goto_proc, fork_proc]
  case shell_job =>
    intro c hc
    have := hs.shell_job c
    grind [goto_proc, fork_proc, Proc.shell]
  case parent_live =>
    intro p c hc
    have := hs.parent_live p c
    grind [goto_proc, fork_proc]
  case kids =>
    intro p hp
    simp only [hchild]
    by_cases hpq : p = q
    · subst hpq
      have hshell : (s.proc p).shell := by
        grind [goto_proc, fork_proc, Proc.shell]
      obtain ⟨K, hcard, hK⟩ := hs.kids p hshell
      refine ⟨insert s.nextpid K, ?_, fun c hc => ?_⟩
      · have := Finset.card_insert_le s.nextpid K
        grind [goto_proc, fork_proc, Proc.shell]
      · grind
    · by_cases hpn : p = s.nextpid
      · refine ⟨∅, by simp, fun c hc => ?_⟩
        have := hs.parent_live p c
        grind
      · obtain ⟨K, hcard, hK⟩ := hs.kids p (by grind [goto_proc, fork_proc, Proc.shell])
        exact ⟨K, by grind [goto_proc, fork_proc], by grind⟩
  case family =>
    intro p c hc hcjob
    rcases hchild.mp hc with hc | ⟨rfl, rfl⟩
    · have hcn : c ≠ s.nextpid := (hs.child_lt hc).ne
      have hpn : p ≠ s.nextpid := (hs.live_lt (hs.parent_live p c hc).1).ne
      simp only [goto_proc, fork_proc, hcn, if_false] at hcjob
      have hfam := hs.family p c hc hcjob
      grind [goto_proc, fork_proc, Proc.shell]
    · simp only [goto_proc, fork_proc] at hcjob
      grind [goto_proc, fork_proc, Proc.shell]

theorem Inv.reap {base : ℕ} {s : St} (hs : Inv base s) {q c : ℕ} {pc : Pc}
    (hlive : (s.proc q).life = .live) (hzombie : (s.proc c).life = .zombie)
    (hparent : (s.proc c).parent = some q) (hbase : pc.atBase = true → q = base)
    (hpc : pc = .program ↔ (s.proc q).pc = .program)
    (hwaits : (s.proc q).pc.waits ≤ pc.waits + 1) : Inv base ((s.reap c).goto q pc) := by
  have hne : c ≠ q := by
    rintro rfl
    simp [hlive] at hzombie
  have hreap (d : ℕ) : (s.reap c).proc d =
      { s.proc d with life := if d = c then .gone else (s.proc d).life } := by
    by_cases hd : d = c
    · subst hd
      simp [St.reap, St.set]
    · simp [St.reap, St.set, hd]
  have hchild {p d : ℕ} : ((s.reap c).goto q pc).Child p d ↔ s.Child p d ∧ d ≠ c := by
    rw [child_goto]
    by_cases hd : d = c
    · simp [St.Child, hreap, hd]
    · simp [St.Child, hreap, hd]
  have hnone : ∀ d, ¬ s.Child c d := fun d hd => by
    have := hs.parent_live c d hd
    simp [hzombie] at this
  have hlt : c < s.nextpid := hs.child_lt (q := q) ⟨.inr hzombie, hparent⟩
  constructor
  case unborn =>
    intro d hd
    have := hs.unborn d hd
    have hd : s.nextpid ≤ d := hd
    grind [goto_proc]
  case unborn_job =>
    intro d hd
    have := hs.unborn_job d
    grind [goto_proc]
  case init =>
    have := hs.init
    grind [goto_proc]
  case base_only =>
    intro d hd hat
    have := hs.base_only d
    grind [goto_proc]
  case job_parent =>
    intro d hjob
    have := hs.job_parent d
    grind [goto_proc]
  case shell_job =>
    intro d hd
    have := hs.shell_job d
    grind [goto_proc, Proc.shell]
  case parent_live =>
    intro p d hd
    have := hs.parent_live p d
    grind [goto_proc]
  case kids =>
    intro p hp
    simp only [hchild]
    obtain ⟨K, hcard, hK⟩ := hs.kids p (by grind [goto_proc, Proc.shell])
    by_cases hpq : p = q
    · subst hpq
      refine ⟨K.erase c, ?_, fun d hd => Finset.mem_erase.mpr ⟨hd.2, hK d hd.1⟩⟩
      have hmem : c ∈ K := hK c ⟨.inr hzombie, hparent⟩
      have hpcs : (((s.reap c).goto p pc).proc p).pc = pc := by simp [goto_proc]
      rw [Finset.card_erase_of_mem hmem, hpcs]
      omega
    · exact ⟨K, by grind [goto_proc], fun d hd => hK d hd.1⟩
  case family =>
    intro p d hd hjob
    rw [hchild] at hd
    have hfam := hs.family p d hd.1
    have := hnone d
    grind [goto_proc, Proc.shell]

theorem exit_proc (s : St) (q c : ℕ) : (s.exit q).proc c =
    { s.proc c with
      life := if c = q then .zombie else (s.proc c).life
      parent := if c ≠ q ∧ (s.proc c).parent = some q then some initproc
        else (s.proc c).parent } := by
  unfold St.exit
  by_cases hc : c = q
  · simp [hc]
  · by_cases hp : (s.proc c).parent = some q <;> simp [hc, hp]

/-- `exit` of a process that has no children, or of one that is not wish's. -/
theorem Inv.exit {base : ℕ} {s : St} (hs : Inv base s) {q : ℕ}
    (hlive : (s.proc q).life = .live) (hne : q ≠ initproc)
    (hq : (s.proc q).pc = .program ∨ ∀ c, ¬ s.Child q c) : Inv base (s.exit q) := by
  have hinit := hs.init
  -- nobody is left below `q`, and what was is below `init` now
  have hchild {p c : ℕ} (hc : (s.exit q).Child p c) :
      p ≠ q ∧ (s.Child p c ∨ p = initproc ∧ s.Child q c) := by
    have hself := fun h : s.Child q q => (hs.parent_live q q h).2
    grind [St.Child, exit_proc]
  constructor
  case unborn =>
    intro c hc
    have hcne : c ≠ q := by
      rintro rfl
      simp [hs.unborn c hc] at hlive
    simpa [exit_proc, hcne] using hs.unborn c hc
  case unborn_job =>
    intro c hc
    have := hs.unborn_job c
    grind [exit_proc]
  case init => grind [exit_proc]
  case base_only =>
    intro c hc hat
    have := hs.base_only c
    grind [exit_proc]
  case job_parent =>
    intro c hjob
    have := hs.job_parent c
    grind [exit_proc]
  case shell_job =>
    intro c hc
    have := hs.shell_job c
    grind [exit_proc, Proc.shell]
  case parent_live =>
    intro p c hc
    have hp := hs.parent_live p c
    have hpq := hs.parent_live q c
    have := hchild hc
    grind [exit_proc, St.Child]
  case kids =>
    intro p hp
    obtain ⟨K, hcard, hK⟩ := hs.kids p (by grind [exit_proc, Proc.shell])
    refine ⟨K, by grind [exit_proc], fun c hc => ?_⟩
    have := hchild hc
    grind [exit_proc, Proc.shell]
  case family =>
    intro p c hc hjob
    have hp := hs.family p c
    have hpq := hs.family q c
    have := hchild hc
    grind [exit_proc, Proc.shell]

theorem Inv.no_child {base : ℕ} {s : St} (hs : Inv base s) {q : ℕ} (hlive : (s.proc q).life = .live)
    (hpc : (s.proc q).pc ≠ .program) (hw : (s.proc q).pc.waits = 0) (c : ℕ) : ¬ s.Child q c := by
  obtain ⟨K, hcard, hK⟩ := hs.kids q ⟨hlive, hpc⟩
  intro hc
  have : K = ∅ := Finset.card_eq_zero.mp (by omega)
  simpa [this] using hK c hc

theorem Inv.walk {base : ℕ} {s : St} (hs : Inv base s) {q : ℕ} {pc : Pc}
    (hq : (s.proc q).pc ≠ .program) (hpc : pc ≠ .program) (hbase : pc.atBase = true → q = base)
    (hwaits : (s.proc q).pc.waits ≤ pc.waits) : Inv base (s.goto q pc) :=
  hs.goto hbase hq (fun h => absurd h hpc) (.inl hwaits)

theorem Inv.split {base : ℕ} {s t : St} (hs : Inv base s) {q baseByte currChar : ℕ}
    {readBuff resBuf : Buffer} (hpc : (s.proc q).pc = .split readBuff resBuf baseByte currChar)
    (h : splitStep s q readBuff resBuf baseByte currChar = some t) : Inv base t := by
  obtain ⟨c, -, h⟩ := Option.bind_eq_some_iff.mp h
  split_ifs at h
  · obtain rfl := Option.some.inj h
    exact hs.walk (by simp [hpc]) (by simp) (by simp [Pc.atBase]) (by simp [hpc, Pc.waits])
  · obtain rfl := Option.some.inj h
    exact hs.walk (by simp [hpc]) (by simp) (by simp [Pc.atBase]) (by simp [hpc, Pc.waits])

theorem Inv.splitFork {base : ℕ} {s t : St} (hs : Inv base s) {q baseByte currChar : ℕ}
    {readBuff resBuf : Buffer} (hlive : (s.proc q).life = .live)
    (hpc : (s.proc q).pc = .split readBuff resBuf baseByte currChar)
    (h : splitFork s q readBuff resBuf baseByte currChar = some t) : Inv base t := by
  obtain ⟨-, h⟩ := Option.ite_none_right_eq_some.mp h
  obtain rfl := Option.some.inj h
  exact hs.fork hlive (.inl ⟨rfl, by simp [hpc]⟩) ⟨rfl, rfl⟩
    (.inr ⟨by simp [hpc], by simp, by simp [hpc, Pc.waits], rfl⟩)

theorem Inv.wait {base : ℕ} {s t : St} (hs : Inv base s) {q : ℕ} {child : Option ℕ}
    (hlive : (s.proc q).life = .live) (h : stepOf base s (.wait q child) = some t) :
    Inv base t := by
  obtain ⟨pc, hafter, h⟩ := Option.bind_eq_some_iff.mp h
  have hpcs : (∃ site, (s.proc q).pc = .wait site ∧ pc = site.after) ∨
      (s.proc q).pc = .program ∧ pc = .program := by
    unfold Pc.afterWait at hafter
    split at hafter <;> simp_all
  have hbase : pc.atBase = true → q = base := by
    intro hat
    refine hs.base_only q hlive ?_
    rcases hpcs with ⟨site, hpc, rfl⟩ | ⟨-, rfl⟩
    · cases site <;> simp_all [Site.after, Pc.atBase]
    · simp [Pc.atBase] at hat
  cases child with
  | some c =>
    obtain ⟨⟨hzombie, hparent⟩, h⟩ := Option.ite_none_right_eq_some.mp h
    obtain rfl := Option.some.inj h
    rcases hpcs with ⟨site, hpc, rfl⟩ | ⟨hpc, rfl⟩
    · refine hs.reap hlive hzombie hparent hbase ?_ ?_ <;>
        cases site <;> simp [hpc, Site.after, Pc.waits]
    · exact hs.reap hlive hzombie hparent hbase (by simp [hpc]) (by simp [hpc, Pc.waits])
  | none =>
    obtain ⟨hnone, h⟩ := Option.ite_none_right_eq_some.mp h
    obtain rfl := Option.some.inj h
    have hnone (c : ℕ) : ¬ s.Child q c := fun hc => hnone c (hs.child_lt hc) hc
    rcases hpcs with ⟨site, hpc, rfl⟩ | ⟨hpc, rfl⟩
    · exact hs.goto hbase (by simp [hpc]) (fun _ => hnone) (.inr hnone)
    · rwa [goto_self hpc]

theorem Inv.next {base : ℕ} {s t : St} {e : Event} (hs : Inv base s) (h : next base s e = some t)
    (hplain : Plain s e) : Inv base t := by
  unfold WishJobs.next at h
  obtain ⟨hlive, h⟩ := Option.ite_none_right_eq_some.mp h
  cases e with
  | gets q input =>
    simp only [stepOf] at h
    split at h
    · rename_i hpc
      obtain ⟨-, h⟩ := Option.ite_none_right_eq_some.mp h
      have hbase : q = base := hs.base_only q hlive (by rw [hpc]; rfl)
      split at h
      · obtain rfl := Option.some.inj h
        exact hs.walk (by simp [hpc]) (by simp) (fun _ => hbase) (by simp [hpc, Pc.waits])
      · obtain rfl := Option.some.inj h
        exact hs.walk (by simp [hpc]) (by simp) (fun _ => hbase) (by simp [hpc, Pc.waits])
    · cases h
  | malloc q block =>
    simp only [stepOf] at h
    split at h
    · rename_i hpc
      obtain rfl := Option.some.inj h
      exact hs.walk (by simp [hpc]) (by simp) (by simp [Pc.atBase]) (by simp [hpc, Pc.waits])
    · cases h
  | split q =>
    simp only [stepOf] at h
    split at h
    · rename_i hpc
      exact hs.split hpc h
    · cases h
  | fork q =>
    simp only [stepOf] at h
    split at h
    · rename_i hpc
      exact hs.splitFork hlive hpc h
    · rename_i hpc
      obtain rfl := Option.some.inj h
      exact hs.fork hlive (.inl ⟨rfl, by simp [hpc]⟩) ⟨rfl, rfl⟩
        (.inr ⟨by simp [hpc], by simp, by simp [hpc, Pc.waits], rfl⟩)
    · rename_i hpc
      obtain rfl := Option.some.inj h
      have hsame : ((s.fork q .program false).proc q).pc = .program := by
        rw [fork_proc]
        split_ifs
        · rfl
        · exact hpc
      rw [← goto_self hsame]
      exact hs.fork hlive (.inr ⟨rfl, rfl⟩) ⟨rfl, rfl⟩ (.inl ⟨hpc, rfl⟩)
    · cases h
  | parse q beyond =>
    simp only [stepOf] at h
    split at h
    · rename_i readBuff hpc
      obtain rfl := Option.some.inj h
      rw [if_neg (hplain readBuff (by simp [hpc, Pc.toParse])).1]
      exact hs.walk (by simp [hpc]) (by simp) (by simp [Pc.atBase]) (by simp [hpc, Pc.waits])
    · cases h
  | exec q ok =>
    simp only [stepOf] at h
    split at h
    · rename_i hpc
      obtain rfl := Option.some.inj h
      have hnone := hs.no_child (q := q) hlive (by simp [hpc]) (by simp [hpc, Pc.waits])
      cases ok
      · exact hs.walk (by simp [hpc]) (by simp) (by simp [Pc.atBase]) (by simp [hpc, Pc.waits])
      · exact hs.goto (by simp [Pc.atBase]) (by simp [hpc]) (fun _ => hnone) (.inr hnone)
    · cases h
  | wait q child =>
    exact hs.wait hlive h
  | cleanup q =>
    simp only [stepOf] at h
    split at h
    · rename_i hpc
      obtain rfl := Option.some.inj h
      split_ifs with hq
      · exact hs.walk (by simp [hpc]) (by simp) (by simp [Pc.atBase]) (by simp [hpc, Pc.waits])
      · exact hs.walk (by simp [hpc]) (by simp) (fun _ => by simpa using hq)
          (by simp [hpc, Pc.waits])
    · cases h
  | exit q =>
    simp only [stepOf] at h
    split at h
    · rename_i hpc
      obtain rfl := Option.some.inj h
      refine hs.exit hlive ?_ (.inr (hs.no_child (q := q) hlive (by simp [hpc]) (by simp [hpc, Pc.waits])))
      rintro rfl
      simp [hs.init.2.1] at hpc
    · rename_i hpc
      obtain ⟨hne, h⟩ := Option.ite_none_left_eq_some.mp h
      obtain rfl := Option.some.inj h
      exact hs.exit hlive hne (.inl hpc)
    · cases h

theorem reachable_inv {base : ℕ} {s : St}
    (h : ((system base).restrict fun s e _ => Plain s e).Reachable s) : Inv base s :=
  h.invariant (fun _ => Initial.inv) fun _ _ _ hs hstep => hs.next hstep.1 hstep.2

/-- Whoever is about to call `getcmd` is the process that started as wish, and every process
its code has forked so far has been reaped. -/
theorem wish_jobs {base : ℕ} {s : St}
    (h : ((system base).restrict fun s e _ => Plain s e).Reachable s) (q : ℕ)
    (hlive : (s.proc q).life = .live) (hpc : (s.proc q).pc = .getcmd) :
    q = base ∧ ∀ c, (s.proc c).job = true → (s.proc c).life = .gone := by
  have hs := reachable_inv h
  obtain rfl : q = base := hs.base_only q hlive (by rw [hpc]; rfl)
  refine ⟨rfl, fun c => ?_⟩
  have hnone := hs.no_child hlive (by simp [hpc]) (by rw [hpc]; rfl)
  -- a job that is still there leads up its parents to a child of the shell
  induction c using Nat.strong_induction_on with
  | _ c ih =>
    intro hjob
    by_contra hgone
    obtain ⟨p, hp⟩ := Option.ne_none_iff_exists'.mp (hs.job_parent c hjob)
    have hchild : s.Child p c := by
      refine ⟨?_, hp⟩
      cases hlife : (s.proc c).life with
      | unborn => simp [hs.unborn_job c hlife] at hjob
      | live => exact .inl rfl
      | zombie => exact .inr rfl
      | gone => exact absurd hlife hgone
    obtain ⟨hlt, hshell⟩ := hs.family p c hchild hjob
    rcases hs.shell_job p hshell with rfl | hpjob
    · exact hnone c hchild
    · have hpgone := ih p hlt hpjob
      simp [hshell.1] at hpgone

/-- wish as process 2, next to `init`. -/
def started : St where
  nextpid := 3
  proc q := ⟨if q = 1 ∨ q = 2 then .live else .unborn, none, if q = 2 then .getcmd else .program,
    false⟩

def blank : Buffer := zeroPadded [] (by decide)

/-- The line `a&b`: the `exec` of `a` fails, that of `b` runs a program. -/
def twoJobs : List Event :=
  [.gets 2 [97, 38, 98, 10], .malloc 2 blank, .split 2, .fork 2, .parse 2 [], .fork 2,
    .exec 4 false, .wait 4 none, .cleanup 4, .wait 4 none, .exit 4, .wait 2 (some 4), .cleanup 2,
    .split 3, .split 3, .parse 3 [], .fork 3, .exec 5 true, .exit 5, .wait 3 (some 5), .cleanup 3,
    .wait 3 none, .exit 3, .wait 2 (some 3)]

theorem started_initial : Initial 2 started where
  shell := ⟨rfl, rfl, by decide⟩
  init := ⟨rfl, rfl⟩
  others q := ⟨rfl, fun h => by simp [started, h]⟩
  unborn q hq := by
    have hq : 3 ≤ q := hq
    simp [started]
    omega
  child q c hc := by simp [St.Child, started] at hc

/-- The shell is back at its prompt after two jobs and the child that ran the second. -/
def AfterTwoJobs (s : St) : Prop :=
  (s.proc 2).life = .live ∧ (s.proc 2).pc = .getcmd ∧
    (s.proc 3).job = true ∧ (s.proc 4).job = true ∧ (s.proc 5).job = true

instance : DecidablePred AfterTwoJobs := fun s => by
  unfold AfterTwoJobs
  infer_instance

theorem wish_jobs_two : ∃ s, ((system 2).restrict fun s e _ => Plain s e).Reachable s ∧
    (s.proc 3).life = .gone ∧ (s.proc 4).life = .gone ∧ (s.proc 5).life = .gone := by
  have hrun : ((runNext (fun s e => if Plain s e then next 2 s e else none) started twoJobs).any
      fun s => AfterTwoJobs s) = true := by decide +kernel
  obtain ⟨s, hreach, hlive, hpc, h3, h4, h5⟩ := reachable_of_runNext started_initial hrun
  have hgone := (wish_jobs hreach 2 hlive hpc).2
  exact ⟨s, hreach, hgone 3 h3, hgone 4 h4, hgone 5 h5⟩

end Ostep.WishJobs

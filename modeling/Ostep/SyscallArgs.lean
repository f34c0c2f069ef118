import Ostep.ExecCall

/-!
# System call arguments

What syscall.c checks before the kernel uses an argument, and the calls that change how much
memory a process has. Every sum is one of 32 bits; it does not wrap for a process that ends at
`KERNBASE` or below, and all processes do.
-/

namespace Ostep.SyscallArgs
open ByteWords Exec Hoare PageTables TransitionSystem

/-! ## The checks -/

/-- The size, the stack pointer and the memory of the process that makes the call. -/
structure Caller where
  sz : ℕ
  esp : ℕ
  mem : Bytes

def toInt (x : ℕ) : ℤ := if x < 2 ^ 31 then x else x - 2 ^ 32

def toUint (i : ℤ) : ℕ := (i % 2 ^ 32).toNat

/-- The `uint` at an address, aligned or not. -/
def wordAt (mem : Bytes) (addr : ℕ) : ℕ :=
  (mem addr).toNat + 256 * (mem (addr + 1)).toNat + 65536 * (mem (addr + 2)).toNat +
    16777216 * (mem (addr + 3)).toNat

def fetchint (p : Caller) (addr : ℕ) : Option ℤ :=
  if p.sz ≤ addr ∨ p.sz < (addr + 4) % 2 ^ 32 then none else some (toInt (wordAt p.mem addr))

/-- The loop of `fetchstr` from `s` on, with `left` bytes before `ep`. -/
def scan (mem : Bytes) (pp : ℕ) : ℕ → ℕ → Option ℤ
  | 0, _ => none
  | left + 1, s => if mem s = 0 then some (toInt (s - pp)) else scan mem pp left (s + 1)

/-- The pointer and the length. -/
def fetchstr (p : Caller) (addr : ℕ) : Option (ℕ × ℤ) :=
  if p.sz ≤ addr then none else (scan p.mem addr (p.sz - addr) addr).map (addr, ·)

/-- Where `argint` finds the argument `n`. -/
def argAddr (p : Caller) (n : ℤ) : ℕ := toUint (p.esp + 4 + 4 * n)

def argint (p : Caller) (n : ℤ) : Option ℤ := fetchint p (argAddr p n)

def argptr (p : Caller) (n size : ℤ) : Option ℕ :=
  match argint p n with
  | none => none
  | some i =>
    if size < 0 ∨ p.sz ≤ toUint i ∨ p.sz < toUint (toUint i + size) then none else some (toUint i)

def argstr (p : Caller) (n : ℤ) : Option (ℕ × ℤ) :=
  match argint p n with
  | none => none
  | some addr => fetchstr p (toUint addr)

/-- The string of `n` bytes at `addr` ends with its terminator inside the process. -/
structure StringIn (p : Caller) (addr n : ℕ) : Prop where
  lt : addr + n < p.sz
  nul : p.mem (addr + n) = 0
  ne : ∀ k, k < n → p.mem (addr + k) ≠ 0

/-- What is accepted lies inside the process. -/
structure ArgsInside (p : Caller) : Prop where
  fetchint : ∀ addr v, fetchint p addr = some v → addr + 4 ≤ p.sz ∧ v = toInt (wordAt p.mem addr)
  argint : ∀ n v, argint p n = some v → argAddr p n + 4 ≤ p.sz
  argptr : ∀ n size a, size < 2 ^ 31 → argptr p n size = some a → 0 ≤ size ∧ a + size ≤ p.sz
  fetchstr : ∀ addr a len, fetchstr p addr = some (a, len) →
    a = addr ∧ ∃ n : ℕ, len = n ∧ StringIn p a n
  argstr : ∀ n a len, argstr p n = some (a, len) → ∃ n : ℕ, len = n ∧ StringIn p a n

variable {p : Caller} {addr : ℕ} {n size v : ℤ}

theorem toInt_of_lt {x : ℕ} (h : x < 2 ^ 31) : toInt x = x := if_pos h

theorem toUint_of_lt (h₀ : 0 ≤ v) (h : v < 2 ^ 32) : (toUint v : ℤ) = v := by
  rw [toUint, Int.emod_eq_of_lt h₀ h, Int.toNat_of_nonneg h₀]

theorem fetchint_inside (hsz : p.sz ≤ 2 ^ 31) (h : fetchint p addr = some v) :
    addr + 4 ≤ p.sz ∧ v = toInt (wordAt p.mem addr) := by
  obtain ⟨hin, hv⟩ := Option.ite_none_left_eq_some.mp h
  rw [not_or, Nat.not_le, Nat.not_lt] at hin
  exact ⟨by omega, (Option.some.inj hv).symm⟩

theorem argptr_inside (hsz : p.sz ≤ 2 ^ 31) {a : ℕ} (hsize : size < 2 ^ 31)
    (h : argptr p n size = some a) : 0 ≤ size ∧ a + size ≤ p.sz := by
  cases hi : argint p n with
  | none =>
    rw [argptr, hi] at h
    cases h
  | some i =>
    rw [argptr, hi] at h
    obtain ⟨hin, ha⟩ := Option.ite_none_left_eq_some.mp h
    obtain rfl := Option.some.inj ha
    rw [not_or, not_or, Int.not_lt, Nat.not_le, Nat.not_lt] at hin
    obtain ⟨h0, hlt, hend⟩ := hin
    have hsum := toUint_of_lt (v := toUint i + size) (by omega) (by omega)
    exact ⟨h0, by omega⟩

theorem scan_inside {pp left s : ℕ} {mem : Bytes} {len : ℤ} (hs : pp ≤ s)
    (h : scan mem pp left s = some len) (hne : ∀ k, pp + k < s → mem (pp + k) ≠ 0) :
    ∃ n : ℕ, len = toInt n ∧ pp + n < s + left ∧ mem (pp + n) = 0 ∧
      ∀ k, k < n → mem (pp + k) ≠ 0 := by
  induction left generalizing s with
  | zero => cases h
  | succ left ih =>
    rw [scan] at h
    by_cases h0 : mem s = 0
    · rw [if_pos h0] at h
      refine ⟨s - pp, (Option.some.inj h).symm, by omega, ?_, fun k hk => hne k (by omega)⟩
      rwa [Nat.add_sub_cancel' hs]
    · rw [if_neg h0] at h
      obtain ⟨n, hlen, hlt, hnul, hbefore⟩ := ih (by omega) h fun k hk => by
        by_cases hk' : pp + k = s
        · rwa [hk']
        · exact hne k (by omega)
      exact ⟨n, hlen, by omega, hnul, hbefore⟩

theorem fetchstr_inside (hsz : p.sz ≤ 2 ^ 31) {a : ℕ} {len : ℤ}
    (h : fetchstr p addr = some (a, len)) : a = addr ∧ ∃ n : ℕ, len = n ∧ StringIn p a n := by
  obtain ⟨hin, h⟩ := Option.ite_none_left_eq_some.mp h
  obtain ⟨len', hscan, heq⟩ := Option.map_eq_some_iff.mp h
  obtain ⟨rfl, rfl⟩ := Prod.mk.inj heq
  obtain ⟨n, hlen, hlt, hnul, hne⟩ := scan_inside le_rfl hscan fun k hk => by omega
  refine ⟨rfl, n, ?_, by omega, hnul, hne⟩
  rw [hlen, toInt_of_lt (by omega)]

theorem argsInside (hsz : p.sz ≤ KERNBASE) : ArgsInside p where
  fetchint _ _ h := fetchint_inside hsz h
  argint _ _ h := (fetchint_inside hsz h).1
  argptr _ _ _ hsize h := argptr_inside hsz hsize h
  fetchstr _ _ _ h := fetchstr_inside hsz h
  argstr n a len h := by
    cases hi : SyscallArgs.argint p n with
    | none =>
      rw [SyscallArgs.argstr, hi] at h
      cases h
    | some i =>
      rw [SyscallArgs.argstr, hi] at h
      exact (fetchstr_inside hsz h).2

example : argptr ⟨0x1000, 0xff0, fun _ => 0⟩ 0 0x1000 = some 0 ∧
    argptr ⟨0x1000, 0xff0, fun _ => 0⟩ 0 0x1001 = none := by decide

/-! ## Calls that change the size -/

variable (E : Env)

/-- The memory of a process, by its own addresses. -/
def view (s : Mem) (r : ℕ) : Bytes := fun a => s.byte (s.loc r a)

def caller (w : World) (p : Process) : Caller := ⟨p.sz, p.tf.esp, view w.mem p.pgdir⟩

def sys_sbrk (p : Process) : Ker (ℤ × Process) := do
  let w ← get
  match argint (caller w p) 0 with
  | none => return (-1, p)
  | some n => do
    let (r, q) ← onMem (growproc E.L p.toProc n)
    let p' := { p with toProc := q }
    if r < 0 then return (-1, p') else return (toInt p.sz, p')

/-- `fork` as far as it makes the new process, which keeps its open files elsewhere. -/
def fork (p : Process) : Ker (Option Process) := do
  match ← onMem kalloc with
  | none => return none
  | some kstack => do
    match ← onMem (copyuvm E.L p.pgdir p.sz) with
    | none => do
      onMem (kfree E.L kstack)
      return none
    | some d => do
      onFs (InodeCache.idup p.cwd)
      return some { p with pgdir := d, kstack := kstack }

variable {ι : Type} [DecidableEq ι]

/-- The processes and what they share. -/
structure Procs (ι : Type) where
  world : World
  proc : ι → Option Process

inductive Call (ι : Type)
  | exec (i : ι) (path : List UInt8) (argv : List (List UInt8))
  | fork (i j : ι)
  | sbrk (i : ι)

def Procs.step (s : Procs ι) : Call ι → Procs ι → Prop
  | .exec i path argv, t => ∃ p r p' w, s.proc i = some p ∧
      Exec.exec E p path argv s.world = .ok ((r, p'), w) ∧
      t = ⟨w, Function.update s.proc i (some p')⟩
  | .fork i j, t => ∃ p r w, s.proc i = some p ∧ s.proc j = none ∧
      fork E p s.world = .ok (r, w) ∧ t = ⟨w, Function.update s.proc j r⟩
  | .sbrk i, t => ∃ p r p' w, s.proc i = some p ∧ sys_sbrk E p s.world = .ok ((r, p'), w) ∧
      t = ⟨w, Function.update s.proc i (some p')⟩

/-- No process reaches beyond `KERNBASE`. -/
def Procs.Bounded (s : Procs ι) : Prop := ∀ i p, s.proc i = some p → p.sz ≤ KERNBASE

def procSystem (ι : Type) [DecidableEq ι] : System (Procs ι) (Call ι) := ⟨Procs.Bounded, Procs.step E⟩

/-! ## Sizes -/

variable {E : Env} {L : Symbols} {r sz newsz : ℕ} {w : World} {q : Process}

theorem allocLoop_yields {fuel a : ℕ} :
    Yields (allocLoop L r sz newsz fuel a) (fun q => q = 0 ∨ q = newsz) := by
  induction fuel generalizing a with
  | zero => exact .throw
  | succ fuel ih =>
    refine .ite (fun _ => .bind .any fun o _ => ?_) fun _ => .pure (.inr rfl)
    cases o with
    | none => exact .bind .any fun _ _ => .pure (.inl rfl)
    | some mem =>
      refine .bind .any fun _ _ => .bind .any fun ok _ => .ite (fun _ => ih) fun _ => ?_
      exact .bind .any fun _ _ => .bind .any fun _ _ => .pure (.inl rfl)

theorem allocuvm_yields (h : sz ≤ KERNBASE) :
    Yields (allocuvm L r sz newsz) (fun q => q ≤ KERNBASE) := by
  refine .ite (fun _ => .pure (Nat.zero_le _)) fun hnew => .ite (fun _ => .pure h) fun _ => ?_
  intro s q t hrun
  rcases allocLoop_yields s q t hrun with rfl | rfl
  · exact Nat.zero_le _
  · exact (Nat.not_le.mp hnew).le

theorem deallocuvm_yields (h : sz ≤ KERNBASE) :
    Yields (deallocuvm L r sz newsz) (fun q => q ≤ KERNBASE) := by
  refine .ite (fun _ => .pure h) fun hlt => .bind .any fun _ _ => .pure ?_
  exact (Nat.not_le.mp hlt).le.trans h

theorem growproc_yields {p : PageTables.Proc} (h : p.sz ≤ KERNBASE) (n : ℤ) :
    Yields (growproc L p n) (fun x => x.2.sz ≤ KERNBASE) := by
  have htail : ∀ q, q ≤ KERNBASE → Yields (if n ≠ 0 ∧ q = 0 then return (-1, p) else do
      switchuvm { p with sz := q }
      return (0, { p with sz := q }) : Kernel (ℤ × PageTables.Proc)) (fun x => x.2.sz ≤ KERNBASE) :=
    fun q hq => .ite (fun _ => .pure h) fun _ => .bind .any fun _ _ => .pure hq
  exact .ite (fun _ => .bind (allocuvm_yields h) htail) fun _ =>
    .ite (fun _ => .bind (deallocuvm_yields h) htail) fun _ => .bind (.pure h) htail

theorem onMem_yields {α : Type} {m : Kernel α} {P : α → Prop} (h : Yields m P) :
    Yields (onMem m) P := by
  intro s a t hrun
  rw [onMem] at hrun
  cases hm : m s.mem with
  | error e =>
    rw [hm] at hrun
    cases hrun
  | ok x =>
    rw [hm] at hrun
    obtain ⟨rfl, -⟩ := Prod.mk.inj (Except.ok.inj hrun)
    exact h s.mem x.1 x.2 hm

theorem execSegment_yields {ip : InodeCache.Slot} {ph : Proghdr} (h : sz ≤ KERNBASE) :
    Yields (execSegment E r ip sz ph) (fun o => ∀ q, o = some q → q ≤ KERNBASE) := by
  have hnone : ∀ q, (none : Option ℕ) = some q → q ≤ KERNBASE := fun q hq => nomatch hq
  refine .ite (fun _ => .pure fun q hq => Option.some.inj hq ▸ h) fun _ => .ite (fun _ => .pure hnone)
    fun _ => .ite (fun _ => .pure hnone) fun _ => ?_
  refine .bind (onMem_yields (allocuvm_yields h)) fun q hq => .ite (fun _ => .pure hnone) fun _ =>
    .ite (fun _ => .pure hnone) fun _ => .bind .any fun ok _ => .pure ?_
  cases ok with
  | true => exact fun q' hq' => Option.some.inj hq' ▸ hq
  | false => exact hnone

theorem execLoad_yields {ip : InodeCache.Slot} {left off : ℕ} (h : sz ≤ KERNBASE) :
    Yields (execLoad E r ip left off sz) (fun o => ∀ q, o = some q → q ≤ KERNBASE) := by
  have hnone : ∀ q, (none : Option ℕ) = some q → q ≤ KERNBASE := fun q hq => nomatch hq
  induction left generalizing off sz with
  | zero => exact .pure fun q hq => Option.some.inj hq ▸ h
  | succ left ih =>
    refine .bind .any fun o _ => ?_
    cases o with
    | none => exact .pure hnone
    | some b =>
      refine .ite (fun _ => .pure hnone) fun _ => .bind (execSegment_yields h) fun o ho => ?_
      cases o with
      | none => exact .pure hnone
      | some q => exact ih (ho q rfl)

def SmallImage (o : Option Image) : Prop := ∀ im, o = some im → im.sz ≤ KERNBASE

theorem execImage_yields {cwd : InodeCache.Slot} {path : List UInt8} :
    Yields (execImage E cwd path) SmallImage := by
  have hnone : SmallImage none := fun im him => nomatch him
  refine .bind .any fun _ _ => .bind .any fun o _ => ?_
  cases o with
  | none => exact .bind .any fun _ _ => .pure hnone
  | some ip =>
    refine .bind .any fun _ _ => .bind .any fun o _ => ?_
    cases o with
    | none => exact .bind .any fun _ _ => .pure hnone
    | some elf =>
      refine .ite (fun _ => .bind .any fun _ _ => .pure hnone) fun _ => .bind .any fun o _ => ?_
      cases o with
      | none => exact .bind .any fun _ _ => .pure hnone
      | some d =>
        refine .bind (execLoad_yields (Nat.zero_le _)) fun o ho => ?_
        cases o with
        | none => exact .bind .any fun _ _ => .pure hnone
        | some q =>
          exact .bind .any fun _ _ => .bind .any fun _ _ => .pure fun im him =>
            Option.some.inj him ▸ ho q rfl

theorem execStack_yields {im : Image} (h : im.sz ≤ KERNBASE) :
    Yields (execStack E im) SmallImage := by
  have hup : PGROUNDUP im.sz ≤ KERNBASE := by
    rw [PGROUNDUP_eq h]
    exact Nat.mul_le_mul_right PGSIZE (pages_le h)
  refine .bind (onMem_yields (allocuvm_yields hup)) fun q hq => .ite (fun _ => ?_) fun _ => ?_
  · exact .bind .any fun _ _ => .pure fun im him => nomatch him
  · exact .bind .any fun _ _ => .pure fun im him => Option.some.inj him ▸ hq

theorem exec_yields {p : Process} (h : p.sz ≤ KERNBASE) {path : List UInt8}
    {argv : List (List UInt8)} :
    Yields (Exec.exec E p path argv) (fun x => x.2.sz ≤ KERNBASE) := by
  have hready : Yields (execReady E p.cwd path) SmallImage := .bind execImage_yields fun o ho => by
    cases o with
    | none => exact .pure ho
    | some im => exact execStack_yields (ho im rfl)
  refine .bind hready fun o ho => ?_
  cases o with
  | none => exact .pure h
  | some im =>
    refine .bind .any fun o _ => ?_
    cases o with
    | none => exact .bind .any fun _ _ => .pure h
    | some esp => exact .bind .any fun _ _ => .bind .any fun _ _ => .pure (ho im rfl)

theorem fork_yields {p : Process} (h : p.sz ≤ KERNBASE) :
    Yields (fork E p) (fun o => ∀ q, o = some q → q.sz ≤ KERNBASE) := by
  have hnone : ∀ q, (none : Option Process) = some q → q.sz ≤ KERNBASE := fun q hq => nomatch hq
  refine .bind .any fun o _ => ?_
  cases o with
  | none => exact .pure hnone
  | some kstack =>
    refine .bind .any fun o _ => ?_
    cases o with
    | none => exact .bind .any fun _ _ => .pure hnone
    | some d => exact .bind .any fun _ _ => .pure fun q hq => Option.some.inj hq ▸ h

theorem sys_sbrk_yields {p : Process} (h : p.sz ≤ KERNBASE) :
    Yields (sys_sbrk E p) (fun x => x.2.sz ≤ KERNBASE) := by
  refine .get_bind fun w => ?_
  cases argint (caller w p) 0 with
  | none => exact .pure h
  | some n =>
    refine .bind (onMem_yields (growproc_yields h n)) fun x hx => ?_
    exact .ite (fun _ => .pure hx) fun _ => .pure hx

/-! ## Every run -/

theorem Procs.Bounded.update {s : Procs ι} (h : s.Bounded) {i : ι} {o : Option Process}
    (ho : ∀ q, o = some q → q.sz ≤ KERNBASE) : Procs.Bounded ⟨w, Function.update s.proc i o⟩ := by
  intro j q hq
  change Function.update s.proc i o j = some q at hq
  by_cases hj : j = i
  · rw [hj, Function.update_self] at hq
    exact ho q hq
  · rw [Function.update_of_ne hj] at hq
    exact h j q hq

theorem Procs.step_bounded {s t : Procs ι} {c : Call ι} (h : s.Bounded) (hstep : s.step E c t) :
    t.Bounded := by
  cases c with
  | exec i path argv =>
    obtain ⟨p, r, p', w, hp, hrun, rfl⟩ := hstep
    exact h.update fun q hq => Option.some.inj hq ▸ exec_yields (h i p hp) _ _ _ hrun
  | fork i j =>
    obtain ⟨p, r, w, hp, -, hrun, rfl⟩ := hstep
    exact h.update (fork_yields (h i p hp) _ _ _ hrun)
  | sbrk i =>
    obtain ⟨p, r, p', w, hp, hrun, rfl⟩ := hstep
    exact h.update fun q hq => Option.some.inj hq ▸ sys_sbrk_yields (h i p hp) _ _ _ hrun

theorem reachable_bounded {s : Procs ι} (h : (procSystem E ι).Reachable s) : s.Bounded :=
  h.invariant (fun _ => id) fun _ _ _ => Procs.step_bounded

/-- What the checks accept lies inside a process that ends at `KERNBASE` or below, and `exec`,
`fork` and `sbrk` leave no other. -/
theorem syscall_args_inside (E : Env) (ι : Type) [DecidableEq ι] :
    (∀ p : Caller, p.sz ≤ KERNBASE → ArgsInside p) ∧
      ∀ s : Procs ι, (procSystem E ι).Reachable s → ∀ i p, s.proc i = some p → p.sz ≤ KERNBASE :=
  ⟨fun _ => argsInside, fun _ => reachable_bounded⟩

end Ostep.SyscallArgs

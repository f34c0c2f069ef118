import Ostep.TransitionSystem
import Mathlib.Logic.Function.Basic
import Mathlib.Data.List.Basic

/-!
# Redo logs and atomic stores

`install` replays a list of writes. It may be cut short and started over any number of times.
The atomic store is what a redo log is for: the writes of a group become visible together, and
a crash keeps a sealed group or forgets it.
-/

namespace Ostep.RedoLog
open TransitionSystem

variable {α β : Type*} [DecidableEq α]

def install (ws : List (α × β)) (d : α → β) : α → β :=
  ws.foldl (fun d w => Function.update d w.1 w.2) d

@[simp] theorem install_nil (d : α → β) : install [] d = d := rfl

@[simp] theorem install_cons (w : α × β) (ws : List (α × β)) (d : α → β) :
    install (w :: ws) d = install ws (Function.update d w.1 w.2) := rfl

/-- Where the log writes, the old contents do not matter. -/
theorem install_congr (ws : List (α × β)) {d d' : α → β} {a : α}
    (h : a ∈ ws.map Prod.fst ∨ d a = d' a) : install ws d a = install ws d' a := by
  induction ws generalizing d d' with
  | nil => simpa using h
  | cons w ws ih =>
    rw [install_cons, install_cons]
    apply ih
    by_cases ha : a = w.1
    · exact Or.inr (by simp [ha])
    · simpa [ha] using h

theorem install_of_notMem {ws : List (α × β)} {d : α → β} {a : α} (h : a ∉ ws.map Prod.fst) :
    install ws d a = d a := by
  induction ws generalizing d with
  | nil => rfl
  | cons w ws ih =>
    rw [List.map_cons, List.mem_cons, not_or] at h
    rw [install_cons, ih h.2, Function.update_of_ne h.1]

/-- Installing part of the log changes nothing about what the whole log will leave. -/
theorem install_update_of_mem {ws : List (α × β)} {d : α → β} {a : α} {v : β}
    (h : a ∈ ws.map Prod.fst) : install ws (Function.update d a v) = install ws d := by
  funext x
  apply install_congr
  by_cases hx : x = a
  · exact Or.inl (hx ▸ h)
  · exact Or.inr (Function.update_of_ne hx v d)

/-- A log of the right contents repairs whatever it covers. -/
theorem install_eq {ws : List (α × β)} {c d : α → β} {a : α} (hws : ∀ w ∈ ws, w.2 = c w.1)
    (h : a ∉ ws.map Prod.fst → d a = c a) : install ws d a = c a := by
  induction ws generalizing d with
  | nil => exact h (by simp)
  | cons w ws ih =>
    rw [install_cons]
    apply ih (fun w' hw' => hws w' (List.mem_cons_of_mem _ hw'))
    intro hnot
    by_cases ha : a = w.1
    · rw [ha, Function.update_self, hws w List.mem_cons_self]
    · rw [Function.update_of_ne ha]
      exact h (by simpa [ha] using hnot)

/-- The contents every reader sees, the contents with the open group, and whether that group
has been handed over to be committed. -/
structure Store (α β : Type*) where
  stable : α → β
  group : α → β
  sealed : Bool

inductive Op (α β : Type*) where
  | write (a : α) (v : β)
  | commit
  | ret
  | crash

/-- The address that an operation writes. -/
def Op.target : Op α β → Option α
  | .write a _ => some a
  | _ => none

inductive Store.Step : Store α β → Op α β → Store α β → Prop where
  | write {c : Store α β} (a : α) (v : β) (h : c.sealed = false) :
      Step c (.write a v) { c with group := Function.update c.group a v }
  | commit {c : Store α β} (h : c.sealed = false) : Step c .commit { c with sealed := true }
  | ret {c : Store α β} (h : c.sealed = true) : Step c .ret ⟨c.group, c.group, false⟩
  | lose (c : Store α β) : Step c .crash ⟨c.stable, c.stable, false⟩
  | keep {c : Store α β} (h : c.sealed = true) : Step c .crash ⟨c.group, c.group, false⟩

def Store.system (c₀ : α → β) : System (Store α β) (Op α β) where
  init c := c = ⟨c₀, c₀, false⟩
  step := Store.Step

end Ostep.RedoLog

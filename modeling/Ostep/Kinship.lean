import Mathlib.Data.List.Basic
import Mathlib.Logic.Function.Basic
import Mathlib.Tactic.Common

/-!
# Families of processes in a table of slots

Slots are given to processes and taken back. A process is an embryo while its parent makes it,
then lives, and after its exit is a zombie until a parent that lives reaps it; the children of
what exits go to the root. The identifiers are any that have not been used.
-/

namespace Ostep.Kinship

inductive Kind where
  | free
  | embryo
  | live
  | zombie
  deriving DecidableEq

/-- The table, what each process is making (and whether it is the parent of it already), and
what has happened: identifiers used, children with their makers, exits with their slots, and
reports with who got them. -/
structure Family (ι π : Type*) where
  kind : ι → Kind
  pid : ι → π
  parent : ι → Option ι
  making : ι → Option (ι × Bool)
  used : List π
  forked : List (π × π)
  exited : List (ι × π)
  reported : List (π × π)

variable {ι π : Type*} [DecidableEq ι]

abbrev Family.exits (F : Family ι π) : List π := F.exited.map Prod.snd

abbrev Family.reports (F : Family ι π) : List π := F.reported.map Prod.snd

inductive Step (root : ι) (F : Family ι π) : Family ι π → Prop where
  | alloc (p i : ι) (c : π) (hp : F.kind p = .live) (hm : F.making p = none)
      (hi : F.kind i = .free) (hc : c ∉ F.used) :
      Step root F { F with
        kind := Function.update F.kind i .embryo
        pid := Function.update F.pid i c
        making := Function.update F.making p (some (i, false))
        used := c :: F.used }
  | abandon (p i : ι) (hm : F.making p = some (i, false)) :
      Step root F { F with
        kind := Function.update F.kind i .free
        making := Function.update F.making p none }
  | adopt (p i : ι) (hm : F.making p = some (i, false)) :
      Step root F { F with
        parent := Function.update F.parent i (some p)
        making := Function.update F.making p (some (i, true)) }
  | start (p i : ι) (hm : F.making p = some (i, true)) :
      Step root F { F with
        kind := Function.update F.kind i .live
        making := Function.update F.making p none
        forked := (F.pid i, F.pid p) :: F.forked }
  | exit (p : ι) (hp : F.kind p = .live) (hm : F.making p = none) (hroot : p ≠ root) :
      Step root F { F with
        kind := Function.update F.kind p .zombie
        parent := fun i => if F.parent i = some p then some root else F.parent i
        exited := (p, F.pid p) :: F.exited }
  | reap (p i : ι) (c : π) (hp : F.kind p = .live) (hi : F.kind i = .zombie)
      (hparent : F.parent i = some p) :
      Step root F { F with
        kind := Function.update F.kind i .free
        pid := Function.update F.pid i c
        parent := Function.update F.parent i none
        reported := (F.pid p, F.pid i) :: F.reported }

/-- Who the parent of `i` is: whoever made it, or the root when that has exited. -/
def Family.Child (F : Family ι π) (root i : ι) : Prop :=
  ∃ p c, F.parent i = some p ∧ F.kind p = .live ∧ (F.pid i, c) ∈ F.forked ∧
    (c ∈ F.exits ∧ p = root ∨ c ∉ F.exits ∧ F.pid p = c)

structure Wf (root : ι) (F : Family ι π) : Prop where
  used : ∀ i, F.kind i ≠ .free → F.pid i ∈ F.used
  distinct : ∀ i j, F.kind i ≠ .free → F.kind j ≠ .free → F.pid i = F.pid j → i = j
  orphan : ∀ i, F.kind i = .free → F.parent i = none
  irrefl : ∀ i, F.parent i ≠ some i
  making : ∀ p i b, F.making p = some (i, b) →
    F.kind p = .live ∧ F.kind i = .embryo ∧ F.parent i = if b then some p else none
  maker : ∀ p q i b c, F.making p = some (i, b) → F.making q = some (i, c) → p = q
  embryo : ∀ i, F.kind i = .embryo → ∃ p b, F.making p = some (i, b)
  first : F.kind root = .live ∧ F.parent root = none
  child : ∀ i, F.kind i = .live ∨ F.kind i = .zombie → i ≠ root → F.Child root i
  exits_used : ∀ c ∈ F.exits, c ∈ F.used
  running : ∀ i, F.kind i = .embryo ∨ F.kind i = .live → F.pid i ∉ F.exits
  zombie : ∀ i, F.kind i = .zombie → (i, F.pid i) ∈ F.exited ∧ F.pid i ∉ F.reports
  unreported : ∀ i c, (i, c) ∈ F.exited → c ∉ F.reports → F.kind i = .zombie ∧ F.pid i = c
  reports_exits : ∀ c ∈ F.reports, c ∈ F.exits
  reports_nodup : F.reports.Nodup

section Steps
variable {root : ι} {F : Family ι π}

theorem Wf.alloc (h : Wf root F) {p i : ι} {c : π} (hp : F.kind p = .live)
    (hm : F.making p = none) (hi : F.kind i = .free) (hc : c ∉ F.used) :
    Wf root { F with
      kind := Function.update F.kind i .embryo
      pid := Function.update F.pid i c
      making := Function.update F.making p (some (i, false))
      used := c :: F.used } := by
  have hnone := h.orphan i hi
  have hex : c ∉ F.exits := fun he => hc (h.exits_used c he)
  have hnot : ∀ q b, F.making q ≠ some (i, b) := by
    intro q b hq
    have := (h.making q i b hq).2.1
    rw [hi] at this
    cases this
  constructor <;> try dsimp only
  case used => grind [h.used]
  case distinct => grind [h.distinct, h.used]
  case orphan => grind [h.orphan]
  case irrefl => exact h.irrefl
  case making => grind [h.making]
  case maker => grind [h.maker]
  case embryo =>
    intro j hj
    rcases eq_or_ne j i with rfl | hji
    · exact ⟨p, false, Function.update_self ..⟩
    · obtain ⟨q, b, hq⟩ := h.embryo j (by rwa [Function.update_of_ne hji] at hj)
      exact ⟨q, b, by grind⟩
  case first => grind [h.first]
  case child =>
    intro j hj hne
    have hji : j ≠ i := by grind
    obtain ⟨q, d, hq, hlive, hmem, hor⟩ := h.child j (by grind) hne
    exact ⟨q, d, hq, by grind, by grind, by grind⟩
  case exits_used => exact fun d hd => List.mem_cons_of_mem c (h.exits_used d hd)
  case running => grind [h.running]
  case zombie => grind [h.zombie]
  case unreported => grind [h.unreported]
  case reports_exits => exact h.reports_exits
  case reports_nodup => exact h.reports_nodup

theorem Wf.abandon (h : Wf root F) {p i : ι} (hm : F.making p = some (i, false)) :
    Wf root { F with
      kind := Function.update F.kind i .free
      making := Function.update F.making p none } := by
  obtain ⟨hp, hi, hnone⟩ := h.making p i false hm
  have hmaker := h.maker p
  constructor <;> try dsimp only
  case used => grind [h.used]
  case distinct => grind [h.distinct]
  case orphan => grind [h.orphan]
  case irrefl => exact h.irrefl
  case making => grind [h.making]
  case maker => grind [h.maker]
  case embryo =>
    intro j hj
    obtain ⟨q, b, hq⟩ := h.embryo j (by grind)
    exact ⟨q, b, by grind⟩
  case first => grind [h.first]
  case child =>
    intro j hj hne
    obtain ⟨q, d, hq, hlive, hrest⟩ := h.child j (by grind) hne
    exact ⟨q, d, hq, by grind, hrest⟩
  case exits_used => exact h.exits_used
  case running => grind [h.running]
  case zombie => grind [h.zombie]
  case unreported => grind [h.unreported]
  case reports_exits => exact h.reports_exits
  case reports_nodup => exact h.reports_nodup

theorem Wf.adopt (h : Wf root F) {p i : ι} (hm : F.making p = some (i, false)) :
    Wf root { F with
      parent := Function.update F.parent i (some p)
      making := Function.update F.making p (some (i, true)) } := by
  obtain ⟨hp, hi, hnone⟩ := h.making p i false hm
  have hmaker := h.maker p
  constructor <;> try dsimp only
  case used => exact h.used
  case distinct => exact h.distinct
  case orphan => grind [h.orphan]
  case irrefl => grind [h.irrefl]
  case making => grind [h.making]
  case maker => grind [h.maker]
  case embryo =>
    intro j hj
    obtain ⟨q, b, hq⟩ := h.embryo j hj
    rcases eq_or_ne q p with rfl | hqp
    · exact ⟨q, true, by grind⟩
    · exact ⟨q, b, by grind⟩
  case first => grind [h.first]
  case child =>
    intro j hj hne
    obtain ⟨q, d, hq, hrest⟩ := h.child j hj hne
    exact ⟨q, d, by grind, hrest⟩
  case exits_used => exact h.exits_used
  case running => exact h.running
  case zombie => exact h.zombie
  case unreported => exact h.unreported
  case reports_exits => exact h.reports_exits
  case reports_nodup => exact h.reports_nodup

theorem Wf.start (h : Wf root F) {p i : ι} (hm : F.making p = some (i, true)) :
    Wf root { F with
      kind := Function.update F.kind i .live
      making := Function.update F.making p none
      forked := (F.pid i, F.pid p) :: F.forked } := by
  obtain ⟨hp, hi, hparent⟩ := h.making p i true hm
  have hmaker := h.maker p
  constructor <;> try dsimp only
  case used => grind [h.used]
  case distinct => grind [h.distinct]
  case orphan => grind [h.orphan]
  case irrefl => exact h.irrefl
  case making => grind [h.making]
  case maker => grind [h.maker]
  case embryo =>
    intro j hj
    obtain ⟨q, b, hq⟩ := h.embryo j (by grind)
    exact ⟨q, b, by grind⟩
  case first => grind [h.first]
  case child =>
    intro j hj hne
    rcases eq_or_ne j i with rfl | hji
    · exact ⟨p, F.pid p, hparent, by grind, List.mem_cons_self ..,
        Or.inr ⟨h.running p (Or.inr hp), rfl⟩⟩
    · obtain ⟨q, d, hq, hlive, hmem, hor⟩ := h.child j (by grind) hne
      exact ⟨q, d, hq, by grind, List.mem_cons_of_mem _ hmem, hor⟩
  case exits_used => exact h.exits_used
  case running => grind [h.running]
  case zombie => grind [h.zombie]
  case unreported => grind [h.unreported]
  case reports_exits => exact h.reports_exits
  case reports_nodup => exact h.reports_nodup

/-- The children of `p` go to the root, and their maker is now one that has exited. -/
theorem Wf.exit (h : Wf root F) {p : ι} (hp : F.kind p = .live) (hm : F.making p = none)
    (hroot : p ≠ root) :
    Wf root { F with
      kind := Function.update F.kind p .zombie
      parent := fun i => if F.parent i = some p then some root else F.parent i
      exited := (p, F.pid p) :: F.exited } := by
  have hrun := h.running p (Or.inr hp)
  constructor <;> try dsimp only
  case used => grind [h.used]
  case distinct => grind [h.distinct]
  case orphan => grind [h.orphan]
  case irrefl => grind [h.irrefl, h.first]
  case making => grind [h.making]
  case maker => exact h.maker
  case embryo => grind [h.embryo]
  case first => grind [h.first]
  case child =>
    intro j hj hne
    obtain ⟨q, d, hq, hlive, hmem, hor⟩ := h.child j (by grind) hne
    rcases eq_or_ne q p with rfl | hqp
    · have hd : F.pid q = d := by grind
      exact ⟨root, d, if_pos hq, by grind [h.first], hmem, Or.inl ⟨by grind, rfl⟩⟩
    · refine ⟨q, d, by grind, by grind, hmem, ?_⟩
      rcases hor with ⟨hd, hr⟩ | ⟨hd, rfl⟩
      · exact Or.inl ⟨List.mem_cons_of_mem _ hd, hr⟩
      · have hne : F.pid q ≠ F.pid p := fun he => hqp (h.distinct q p (by grind) (by grind) he)
        exact Or.inr ⟨fun he => (List.mem_cons.mp he).elim hne hd, rfl⟩
  case exits_used =>
    intro d hd
    rcases List.mem_cons.mp hd with rfl | hd
    · exact h.used p (by grind)
    · exact h.exits_used d hd
  case running =>
    intro j hj
    have hne : F.pid j ≠ F.pid p := by grind [h.distinct]
    exact fun he => (List.mem_cons.mp he).elim hne (h.running j (by grind))
  case zombie =>
    intro j hj
    rcases eq_or_ne j p with rfl | hjp
    · exact ⟨List.mem_cons_self .., fun hr => hrun (h.reports_exits _ hr)⟩
    · obtain ⟨hmem, hr⟩ := h.zombie j (by grind)
      exact ⟨List.mem_cons_of_mem _ hmem, hr⟩
  case unreported =>
    intro j d hd hr
    rcases List.mem_cons.mp hd with hd | hd
    · grind
    · grind [h.unreported j d hd hr]
  case reports_exits => exact fun d hd => List.mem_cons_of_mem _ (h.reports_exits d hd)
  case reports_nodup => exact h.reports_nodup

theorem Wf.reap (h : Wf root F) {p i : ι} {c : π} (hi : F.kind i = .zombie) :
    Wf root { F with
      kind := Function.update F.kind i .free
      pid := Function.update F.pid i c
      parent := Function.update F.parent i none
      reported := (F.pid p, F.pid i) :: F.reported } := by
  obtain ⟨hexited, hunreported⟩ := h.zombie i hi
  constructor <;> try dsimp only
  case used => grind [h.used]
  case distinct => grind [h.distinct]
  case orphan => grind [h.orphan]
  case irrefl => grind [h.irrefl]
  case making => grind [h.making]
  case maker => exact h.maker
  case embryo => grind [h.embryo]
  case first => grind [h.first]
  case child =>
    intro j hj hne
    have hji : j ≠ i := by grind
    obtain ⟨q, d, hq, hlive, hmem, hor⟩ := h.child j (by grind) hne
    exact ⟨q, d, by grind, by grind, by grind, by grind⟩
  case exits_used => exact h.exits_used
  case running => grind [h.running]
  case zombie =>
    intro j hj
    have hji : j ≠ i := by grind
    obtain ⟨hmem, hr⟩ := h.zombie j (by grind)
    have hne : F.pid j ≠ F.pid i := by grind [h.distinct]
    rw [Function.update_of_ne hji]
    exact ⟨hmem, fun he => (List.mem_cons.mp he).elim hne hr⟩
  case unreported =>
    intro j d hd hr
    obtain ⟨hz, rfl⟩ := h.unreported j d hd fun he => hr (List.mem_cons_of_mem _ he)
    have hji : j ≠ i := by
      rintro rfl
      exact hr (List.mem_cons_self ..)
    rw [Function.update_of_ne hji, Function.update_of_ne hji]
    exact ⟨hz, rfl⟩
  case reports_exits =>
    intro d hd
    rcases List.mem_cons.mp hd with rfl | hd
    · exact List.mem_map_of_mem hexited
    · exact h.reports_exits d hd
  case reports_nodup => exact List.nodup_cons.mpr ⟨hunreported, h.reports_nodup⟩

theorem Wf.step {F' : Family ι π} (h : Wf root F) (hstep : Step root F F') : Wf root F' := by
  cases hstep with
  | alloc p i c hp hm hi hc => exact h.alloc hp hm hi hc
  | abandon p i hm => exact h.abandon hm
  | adopt p i hm => exact h.adopt hm
  | start p i hm => exact h.start hm
  | exit p hp hm hroot => exact h.exit hp hm hroot
  | reap p i c _ hi _ => exact h.reap hi

end Steps

end Ostep.Kinship

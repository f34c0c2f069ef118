import Ostep.PathRefs
import Ostep.ReferenceCounts
import Ostep.TextWords

/-!
# The elements of a path

`namex` takes the elements of its path one by one. `namei` is `nameiparent` and a search of the
directory it returns, and each call keeps a reference to what it returns and no other.
-/

namespace Ostep.InodeCache
open Hoare TextWords
open FsBlocks (Superblock T_DIR DIRSIZ)

variable {sb : Superblock} {s t u v w : St} {k l ip dp cwd : Slot} {B : Slot → ℕ} {L : List Slot}
  {parent : Bool} {path name n : Bytes}

/-- The pieces between slashes that are not empty, each cut to `DIRSIZ` bytes. -/
def elements (path : Bytes) : List Bytes := (words (· = slash) path).map (·.take DIRSIZ)

theorem elements_dropWhile (path : Bytes) :
    elements (path.dropWhile (· = slash)) = elements path := by
  rw [elements, words_dropWhile, elements]

theorem skipelem_none (h : skipelem path = none) : elements path = [] := by
  rw [skipelem] at h
  cases hdrop : path.dropWhile (· = slash) with
  | nil =>
    rw [← elements_dropWhile, hdrop]
    rfl
  | cons c cs =>
    rw [hdrop] at h
    cases h

/-- What begins with a slash or not at all begins with no element. -/
theorem elements_eq_nil (h : path.head? ≠ some slash) : elements path = [] ↔ path = [] := by
  cases path with
  | nil => exact iff_of_true rfl rfl
  | cons c cs =>
    have hc : decide (c = slash) = false := by simpa using h
    rw [elements, words_cons (p := fun a => decide (a = slash)) hc]
    exact iff_of_false (List.cons_ne_nil _ _) (List.cons_ne_nil _ _)

theorem skipelem_some {elem rest : Bytes} (h : skipelem path = some (elem, rest)) :
    elements path = elem :: elements rest ∧ rest.length < path.length ∧
      (rest = [] ↔ elements rest = []) := by
  rw [skipelem] at h
  have hsuf := (List.dropWhile_suffix (l := path) (· = slash)).length_le
  cases hdrop : path.dropWhile (· = slash) with
  | nil =>
    rw [hdrop] at h
    cases h
  | cons c cs =>
    rw [hdrop] at h hsuf
    obtain ⟨rfl, rfl⟩ := Prod.ext_iff.mp (Option.some.inj h)
    have hc : decide (c = slash) = false := by
      have := List.head_dropWhile_not (fun a => decide (a = slash)) (l := path)
        (by rw [hdrop]; exact List.cons_ne_nil _ _)
      simpa [hdrop] using this
    dsimp only
    refine ⟨?_, ?_, ?_⟩
    · rw [elements_dropWhile, ← elements_dropWhile path, hdrop, elements, words_cons (p := fun a => decide (a = slash)) hc, elements]
      simp
    · have hrest := (List.dropWhile_suffix (l := (c :: cs).dropWhile (· ≠ slash))
        (· = slash)).length_le
      have hword := (List.dropWhile_suffix (l := cs) (· ≠ slash)).length_le
      rw [List.dropWhile_cons_of_pos (by simpa using hc)] at hrest ⊢
      rw [List.length_cons] at hsuf
      omega
    · refine (elements_eq_nil fun he => ?_).symm
      have := List.head?_dropWhile_not (fun a => decide (a = slash))
        ((c :: cs).dropWhile (· ≠ slash))
      rw [he] at this
      simp at this

/-- The loop of `namex` over the elements that are left. -/
def namexElems (sb : Superblock) (parent : Bool) :
    List Bytes → Slot → Bytes → Ic (Option (Slot × Bytes))
  | [], ip, name => namexEnd parent ip name
  | elem :: rest, ip, _ => do
    ilock ip
    let s ← get
    if (s.icache ip).ip.type ≠ T_DIR then do
      iunlockput ip
      return none
    else if parent ∧ rest = [] then do
      iunlock ip
      return some (ip, elem)
    else do
      match ← dirlookup sb ip elem with
      | none => do
        iunlockput ip
        return none
      | some (next, _) => do
        iunlockput ip
        namexElems sb parent rest next elem

/-- The loop takes the elements of the path in turn, and then ends. -/
theorem namexLoop_elements {fuel : ℕ} (hfuel : path.length ≤ fuel) :
    namexLoop sb parent fuel path ip name = namexElems sb parent (elements path) ip name := by
  induction fuel generalizing path ip name with
  | zero =>
    obtain rfl := List.eq_nil_of_length_eq_zero (Nat.le_zero.mp hfuel)
    rfl
  | succ fuel ih =>
    rw [namexLoop]
    cases hskip : skipelem path with
    | none => rw [skipelem_none hskip, namexElems]
    | some p =>
      obtain ⟨elem, rest⟩ := p
      obtain ⟨helems, hlen, hnil⟩ := skipelem_some hskip
      have hloop : ∀ next, namexLoop sb parent fuel rest next elem =
          namexElems sb parent (elements rest) next elem := fun next => ih (by omega)
      simp only [helems, namexElems, hloop, hnil]
      all_goals rfl

/-- `namex` does what the elements of its path say. -/
theorem namex_elements (sb : Superblock) (cwd : Slot) (path : Bytes) (parent : Bool) :
    namex sb cwd path parent =
      namexStart cwd path >>= fun ip => namexElems sb parent (elements path) ip [] := by
  simp only [namex, namexLoop_elements (Nat.le_refl path.length)]

/-! ## The parent and the search of it -/

/-- The search of the directory that `nameiparent` returns. -/
def lookupLast (sb : Superblock) : Option (Slot × Bytes) → Ic (Option Slot)
  | none => return none
  | some (dp, name) => do
    ilock dp
    match ← dirlookup sb dp name with
    | none => do
      iunlockput dp
      return none
    | some (next, _) => do
      iunlockput dp
      return some next

theorem ilock_locked (h : Good sb B L s) {a : Unit} (hr : ilock k s = .ok (a, t)) :
    (t.icache k).lock = true := by
  rw [ilock, run_get_bind] at hr
  rcases run_ite.mp hr with ⟨-, hr⟩ | ⟨href, hr⟩
  · exact (run_throw.mp hr).elim
  obtain ⟨_, u, hacq, hr⟩ := run_bind.mp hr
  obtain rfl := acquiresleep_run hacq
  have hk : 0 < ((s.setEntry k (fun e => { e with lock := true })).icache k).ref := by
    rw [setEntry_self]
    dsimp only
    omega
  obtain ⟨v, -, rfl⟩ := onInode_run (h.lock k true).unique hk hr
  rw [restore_self, setEntry_self]

/-- Unlocking and locking again changes nothing. -/
theorem relock (h : Good sb B L v) (href : 0 < (v.icache k).ref) (hlock : (v.icache k).lock = true)
    (hvalid : (v.icache k).valid = true) : (iunlock k >>= fun _ => ilock k) v = .ok ((), v) := by
  have hback : (v.setEntry k (fun e => { e with lock := false })).setEntry k
      (fun e => { e with lock := true }) = v := by
    rw [St.setEntry, setEntry_self]
    change { v with icache := Function.update (Function.update v.icache k _) k _ } = v
    have hself : { v.icache k with lock := true } = v.icache k := by rw [← hlock]
    rw [Function.update_idem]
    change { v with icache := Function.update v.icache k { v.icache k with lock := true } } = v
    rw [hself, Function.update_eq_self]
  have hunlock : iunlock k v = .ok ((), v.setEntry k (fun e => { e with lock := false })) := by
    rw [iunlock, run_get_bind, if_neg (by simp [hlock]; omega)]
    rfl
  have hacq : acquiresleep k (v.setEntry k (fun e => { e with lock := false })) = .ok ((), v) := by
    rw [acquiresleep, run_get_bind, setEntry_self, if_neg (by simp)]
    change Except.ok ((), (v.setEntry k _).setEntry k _) = _
    rw [hback]
  have hload : onInode k FsBlocks.ilock v = .ok ((), v) := by
    have heq : v.blocks.icache (v.icache k).inum = (v.icache k).toInode := cached_eq h.unique href
    have hrun : FsBlocks.ilock (v.icache k).inum v.blocks = .ok ((), v.blocks) := by
      rw [FsBlocks.ilock, run_get_bind, heq, if_neg (by omega), if_pos hvalid]
      rfl
    rw [onInode, view_eq h.unique href, hrun]
    change Except.ok ((), v.restore k v.blocks) = _
    rw [restore_blocks_self h.unique href]
  rw [run_bind_ok hunlock, ilock, run_get_bind, setEntry_self, if_neg (by change ¬ (v.icache k).ref < 1; omega),
    run_bind_ok hacq, hload]

theorem namexElems_last {elems : List Bytes} (h : Good sb B (ip :: L) s) (hne : elems ≠ []) :
    (namexElems sb false elems ip name >>= fun r => return r.map Prod.fst) s =
      (namexElems sb true elems ip name >>= lookupLast sb) s := by
  induction elems generalizing ip name s with
  | nil => exact absurd rfl hne
  | cons elem rest ih =>
    rw [namexElems, namexElems, bind_assoc (ilock ip), bind_assoc (ilock ip)]
    cases hlock : ilock ip s with
    | error e => rw [run_bind_error hlock, run_bind_error hlock]
    | ok p =>
      obtain ⟨a, v⟩ := p
      obtain ⟨hgood, -, -, hv⟩ := ilock_spec h hlock
      rw [run_bind_ok hlock, run_bind_ok hlock, bind_assoc get, bind_assoc get, run_get_bind,
        run_get_bind]
      by_cases htype : (v.icache ip).ip.type ≠ T_DIR
      · rw [if_pos htype, if_pos htype, bind_assoc (iunlockput ip), bind_assoc (iunlockput ip)]
        rfl
      rw [if_neg htype, if_neg htype, if_neg (by simp), bind_assoc (dirlookup sb ip elem)]
      by_cases hrest : rest = []
      · have hre := relock hgood hgood.held (ilock_locked h hlock) hv
        rw [if_pos ⟨rfl, hrest⟩, bind_assoc (iunlock ip), hrest]
        simp only [pure_bind, lookupLast]
        rw [← bind_assoc (iunlock ip), run_bind_ok hre]
        cases hlook : dirlookup sb ip elem v with
        | error e => rw [run_bind_error hlook, run_bind_error hlook]
        | ok p =>
          obtain ⟨r, w⟩ := p
          rw [run_bind_ok hlook, run_bind_ok hlook]
          cases r with
          | none => rw [bind_assoc (iunlockput ip)]; rfl
          | some q => rw [bind_assoc (iunlockput ip)]; rfl
      · rw [if_neg (fun hc => hrest hc.2), bind_assoc (dirlookup sb ip elem)]
        cases hlook : dirlookup sb ip elem v with
        | error e => rw [run_bind_error hlook, run_bind_error hlook]
        | ok p =>
          obtain ⟨r, w⟩ := p
          obtain ⟨hgood', -⟩ := dirlookup_spec hgood hgood.held hv hlook
          rw [run_bind_ok hlook, run_bind_ok hlook]
          cases r with
          | none => rw [bind_assoc (iunlockput ip), bind_assoc (iunlockput ip)]; rfl
          | some q =>
            obtain ⟨next, off⟩ := q
            dsimp only
            rw [bind_assoc (iunlockput ip), bind_assoc (iunlockput ip)]
            cases hput : iunlockput ip w with
            | error e => rw [run_bind_error hput, run_bind_error hput]
            | ok p =>
              obtain ⟨a, x⟩ := p
              have hswap : Good sb B (ip :: next :: L) w := hgood'.perm (List.Perm.swap ..)
              rw [run_bind_ok hput, run_bind_ok hput]
              exact ih (iunlockput_quiet hswap hput).1 hrest

/-- `namei` is `nameiparent` and the search of the directory it returns. -/
theorem namei_eq (h : Good sb B L s) (hcwd : 0 < B cwd) (hne : elements path ≠ []) :
    namei sb cwd path s = (nameiparent sb cwd path >>= lookupLast sb) s := by
  rw [namei, nameiparent, namex_elements, namex_elements, bind_assoc, bind_assoc]
  cases hstart : namexStart cwd path s with
  | error e => rw [run_bind_error hstart, run_bind_error hstart]
  | ok p =>
    obtain ⟨ip, v⟩ := p
    rw [run_bind_ok hstart, run_bind_ok hstart]
    exact namexElems_last (namexStart_spec h hcwd hstart).1 hne

/-- The parent comes with the last element. -/
theorem namexElems_parent {elems : List Bytes} (hne : elems ≠ [])
    (hr : namexElems sb true elems ip name s = .ok (some (dp, n), t)) :
    elems.getLast? = some n := by
  induction elems generalizing ip name s with
  | nil => exact absurd rfl hne
  | cons elem rest ih =>
    obtain ⟨_, u, -, hr⟩ := run_bind.mp hr
    rw [run_get_bind] at hr
    rcases run_ite.mp hr with ⟨-, hr⟩ | ⟨-, hr⟩
    · obtain ⟨_, v, -, hr⟩ := run_bind.mp hr
      cases (run_pure.mp hr).1
    rcases run_ite.mp hr with ⟨⟨-, rfl⟩, hr⟩ | ⟨hrest, hr⟩
    · obtain ⟨_, v, -, hr⟩ := run_bind.mp hr
      obtain ⟨heq, -⟩ := run_pure.mp hr
      obtain ⟨-, rfl⟩ := Prod.mk.inj (Option.some.inj heq)
      rfl
    · obtain ⟨found, v, -, hr⟩ := run_bind.mp hr
      cases found with
      | none =>
        obtain ⟨_, w, -, hr⟩ := run_bind.mp hr
        cases (run_pure.mp hr).1
      | some p =>
        obtain ⟨_, w, -, hr⟩ := run_bind.mp hr
        have hrest' : rest ≠ [] := fun hc => hrest ⟨rfl, hc⟩
        rw [List.getLast?_cons_of_ne_nil hrest']
        exact ih hrest' hr

/-! ## What a lookup does -/

/-- The elements visited, how the two modes agree, and the references that are left. -/
structure Looks (sb : Superblock) (cwd : Slot) (path : Bytes) (s : St) : Prop where
  visits : ∀ parent, namex sb cwd path parent =
    namexStart cwd path >>= fun ip => namexElems sb parent (elements path) ip []
  agrees : elements path ≠ [] → ∀ k t, namei sb cwd path s = .ok (some k, t) ↔
    ∃ dp name off u v w, nameiparent sb cwd path s = .ok (some (dp, name), u) ∧
      (elements path).getLast? = some name ∧ ilock dp u = .ok ((), v) ∧
      (v.icache dp).ip.type = T_DIR ∧ dirlookup sb dp name v = .ok (some (k, off), w) ∧
      iunlockput dp w = .ok ((), t)
  namei_refs : ∀ r t, namei sb cwd path s = .ok (r, t) →
    ∀ k, (t.icache k).ref = (s.icache k).ref + if r = some k then 1 else 0
  nameiparent_refs : ∀ r t, nameiparent sb cwd path s = .ok (r, t) →
    ∀ k, (t.icache k).ref = (s.icache k).ref + if r.map Prod.fst = some k then 1 else 0

theorem count_toList (o : Option Slot) (k : Slot) :
    o.toList.count k = if o = some k then 1 else 0 := by
  cases o with
  | none => rfl
  | some l => simp [List.count_singleton]

theorem namex_refs {r : Option (Slot × Bytes)} (h : Good sb B L s) (hcwd : 0 < B cwd)
    (hr : namex sb cwd path parent s = .ok (r, t)) (k : Slot) :
    (t.icache k).ref = (s.icache k).ref + if r.map Prod.fst = some k then 1 else 0 := by
  have ht := (namex_spec h hcwd hr).1.ref k
  have hs := h.ref k
  rw [List.count_append, count_toList] at ht
  omega

/-- On a file system that nobody else changes. -/
theorem path_lookup (h : Good sb B L s) (hcwd : 0 < B cwd) (path : Bytes) :
    Looks sb cwd path s where
  visits := namex_elements sb cwd path
  agrees hne k t := by
    rw [namei_eq h hcwd hne, run_bind]
    constructor
    · rintro ⟨r, u, hparent, hr⟩
      cases r with
      | none => cases (run_pure.mp hr).1
      | some p =>
        obtain ⟨dp, name⟩ := p
        obtain ⟨a, v, hlock, hr⟩ := run_bind.mp hr
        obtain ⟨found, w, hlook, hr⟩ := run_bind.mp hr
        have htype : (v.icache dp).ip.type = T_DIR := by
          rw [dirlookup, run_get_bind] at hlook
          rcases run_ite.mp hlook with ⟨-, hlook⟩ | ⟨htype, -⟩
          · exact (run_throw.mp hlook).elim
          · exact not_not.mp htype
        have hname : (elements path).getLast? = some name := by
          rw [nameiparent, namex_elements] at hparent
          obtain ⟨ip, x, -, hparent⟩ := run_bind.mp hparent
          exact namexElems_parent hne hparent
        cases found with
        | none =>
          obtain ⟨_, x, -, hr⟩ := run_bind.mp hr
          cases (run_pure.mp hr).1
        | some q =>
          obtain ⟨next, off⟩ := q
          obtain ⟨b, x, hput, hr⟩ := run_bind.mp hr
          obtain ⟨hk, rfl⟩ := run_pure.mp hr
          obtain rfl := Option.some.inj hk
          exact ⟨dp, name, off, u, v, w, hparent, hname, hlock, htype, hlook, hput⟩
    · rintro ⟨dp, name, off, u, v, w, hparent, -, hlock, -, hlook, hput⟩
      refine ⟨some (dp, name), u, hparent, ?_⟩
      rw [lookupLast, run_bind_ok hlock, run_bind_ok hlook]
      exact run_bind_ok hput
  namei_refs r t hr k := by
    obtain ⟨p, v, hnamex, hr⟩ := run_bind.mp hr
    obtain ⟨rfl, rfl⟩ := run_pure.mp hr
    exact namex_refs h hcwd hnamex k
  nameiparent_refs _ _ hr := namex_refs h hcwd hr

/-- The path `/a//bb/` in the file system that mkfs makes. -/
theorem path_lookup_boot : elements [slash, 97, slash, slash, 98, 98, slash] = [[97], [98, 98]] ∧
    Looks FsBlocks.mkfsSb 0 [slash, 97, slash, slash, 98, 98, slash]
      (FileCalls.boot FsBlocks.mkfsImage).fs :=
  ⟨by decide, path_lookup (FileCalls.boot_kept FileCalls.mkfsImage_image).held.good
    (by rw [FileCalls.boot_base]; decide) _⟩

end Ostep.InodeCache

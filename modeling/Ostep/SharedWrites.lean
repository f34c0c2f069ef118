import Ostep.FileWrite

/-!
# The bytes written through a shared file

Writers that share a `struct file` append: what they have put into the file is the pieces in the
order in which their writers took the lock of the inode, each writer's own pieces are in its
order, and the offset is behind the last one.
-/

namespace Ostep.FileWrite
open FsBlocks Hoare ByteWords TransitionSystem

abbrev T_FILE : ℕ := 2

variable {ι : Type*} {sb : Superblock} {inodestart : ℕ} {s t : State ι} {q q' : ι}

/-! ## Pieces -/

/-- The bytes of a piece that is not in the file yet. -/
def Pc.unwritten : Pc → List UInt8
  | .locked src i => chunk src i
  | _ => []

/-- By how much the offset is behind. -/
def Pc.behind : Pc → ℕ
  | .locked src i | .wrote src i _ => (chunk src i).length
  | _ => 0

/-- What a call has still to write after the piece that it is at. -/
def Pc.rest : Pc → List UInt8
  | .user _ => []
  | .loop src i => src.drop i
  | .locked src i | .wrote src i _ | .advanced src i _ => src.drop (i + (chunk src i).length)

def allBytes (cs : List (ι × List UInt8)) : List UInt8 := cs.flatMap Prod.snd

theorem chunk_append (src : List UInt8) (i : ℕ) :
    chunk src i ++ src.drop (i + (chunk src i).length) = src.drop i := by
  obtain ⟨rest, hrest⟩ : chunk src i <+: src.drop i := List.take_prefix MAXWRITE _
  rw [← List.drop_drop, ← hrest, List.drop_left]

/-- Where the process with the lock is. -/
def State.holder (s : State ι) : Pc :=
  match s.lock with
  | some q => s.pc q
  | none => .user none

theorem Inv.holder_eq (h : Inv sb s) (hq : (s.pc q).holds) : s.holder = s.pc q := by
  rw [State.holder, h.holder q hq]

theorem holder_free (h : s.lock = none) : s.holder = .user none := by rw [State.holder, h]

/-! ## The offset -/

/-- The offset of an open file never gets past its end. -/
structure Within (sb : Superblock) (s : State ι) : Prop where
  inv : Inv sb s
  type : (s.fs.inode s.f.ip).type = T_FILE
  off : s.f.off ≤ (s.fs.inode s.f.ip).size
  wrote : ∀ q src i r, s.pc q = .wrote src i r → s.f.off + r.getD 0 ≤ (s.fs.inode s.f.ip).size

theorem Inv.holds_free (h : Inv sb s) (hfree : s.lock = none) : ¬ (s.pc q).holds := by
  intro hq
  have hheld := h.holder q hq
  rw [hfree] at hheld
  cases hheld

theorem Inv.holder_unique (h : Inv sb s) (hq : (s.pc q).holds) (hq' : (s.pc q').holds) :
    q' = q := by
  have hheld := h.holder q hq
  rw [h.holder q' hq'] at hheld
  exact Option.some.inj hheld

theorem Within.of_longer (h : Within sb s) (ht : Inv sb t) (hf : t.f = s.f)
    (hlong : Longer s.f.ip s.fs t.fs)
    (hwrote : ∀ q src i r, t.pc q = .wrote src i r →
      s.pc q = .wrote src i r ∨ s.f.off + r.getD 0 ≤ (t.fs.inode s.f.ip).size) :
    Within sb t := by
  refine ⟨ht, ?_, ?_, fun q src i r hpc => ?_⟩ <;> rw [hf]
  · exact hlong.type.trans h.type
  · exact h.off.trans hlong.size
  · rcases hwrote q src i r hpc with hpc | hle
    · exact (h.wrote q src i r hpc).trans hlong.size
    · exact hle

/-- The bytes of a piece are below the new end of the file. -/
theorem Inv.write_end {src : List UInt8} {r : Option ℕ} {fs : St} (h : Inv sb s)
    (htype : (s.fs.inode s.f.ip).type = T_FILE) (hn : src.length < 2 ^ 32)
    (hoff : s.f.off ≤ (s.fs.inode s.f.ip).size)
    (hw : writei sb s.f.ip src s.f.off s.fs = .ok (r, fs)) :
    s.f.off + r.getD 0 ≤ (fs.inode s.f.ip).size := by
  rcases writei_run h.fs h.locked hn hw with ⟨rfl, rfl | hdev⟩ | ⟨-, rfl, hrewrote⟩
  · exact hoff
  · rw [htype] at hdev
    cases hdev
  · rw [← length_contents sb, hrewrote.contents,
      length_overwrite (by rwa [length_contents])]
    exact Nat.le_max_right _ _

variable [DecidableEq ι]

/-- A step of one process into a state that is not behind `writei`. -/
theorem at_wrote {p : Pc} (hp : ∀ src i r, p ≠ .wrote src i r) {src : List UInt8} {i : ℕ}
    {r : Option ℕ} (hpc : (s.at q p).pc q' = .wrote src i r) : s.pc q' = .wrote src i r := by
  by_cases heq : q' = q
  · subst heq
    exact absurd ((at_pc s q' p).symm.trans hpc) (hp src i r)
  · exact (at_pc_of_ne s p heq).symm.trans hpc

theorem Within.next {e : Event ι} (h : Within sb s) (hstep : next sb inodestart s e = some t) :
    Within sb t := by
  have hinv := h.inv.next hstep
  have hsame : Longer s.f.ip s.fs s.fs := ⟨h.inv.locked, rfl, Nat.le_refl _⟩
  cases e with
  | filewrite q src =>
    obtain ⟨-, -, rfl⟩ := filewrite_cases hstep
    exact h.of_longer hinv rfl hsame fun q' src' i r hpc =>
      .inl (at_wrote (by split_ifs <;> simp) hpc)
  | step q =>
    cases step_cases hstep with
    | enter hpc hlt hfree hl =>
      obtain rfl := h.inv.ilock hl
      exact h.of_longer hinv rfl hsame fun q' src' i r hpc => .inl (at_wrote (by simp) hpc)
    | finish hpc hle =>
      exact h.of_longer hinv rfl hsame fun q' src' i r hpc => .inl (at_wrote (by simp) hpc)
    | write hpc hw =>
      have hrun := writei_erases.ok hw
      refine h.of_longer hinv rfl (writei_longer h.inv.fs h.inv.locked (length_chunk_lt _ _) hrun)
        fun q' src' i r' hpc' => ?_
      by_cases heq : q' = q
      · subst heq
        obtain ⟨rfl, rfl, rfl⟩ := Pc.wrote.inj ((at_pc s q' _).symm.trans hpc')
        exact .inr (h.inv.write_end h.type (length_chunk_lt _ _) h.off hrun)
      · exact .inl ((at_pc_of_ne s _ heq).symm.trans hpc')
    | advance hpc =>
      have hend := h.wrote _ _ _ _ hpc
      have hmod := (Nat.mod_le _ (2 ^ 32)).trans hend
      refine ⟨hinv, h.type, hmod, fun q' src' i r' hpc' => ?_⟩
      have hwrote := at_wrote (by simp) hpc'
      have hq : q' = q := h.inv.holder_unique (by rw [hpc]; trivial) (by rw [hwrote]; trivial)
      subst hq
      have hpc'' := (at_pc s q' _).symm.trans hpc'
      cases hpc''
    | fail hpc => exact h.of_longer hinv rfl hsame fun q' src' i r hpc => .inl (at_wrote (by simp) hpc)
    | again hpc => exact h.of_longer hinv rfl hsame fun q' src' i r hpc => .inl (at_wrote (by simp) hpc)
  | fileread n =>
    obtain ⟨k, hk, hfree, rfl⟩ := fileread_cases h.inv hstep
    refine ⟨hinv, h.type, ?_, fun q src i r hpc => ?_⟩
    · rcases hk with rfl | hk
      · exact h.off
      · exact hk
    · exact absurd (show (s.pc q).holds by rw [show s.pc q = .wrote src i r from hpc]; trivial)
        (h.inv.holds_free hfree)
  | other e =>
    obtain ⟨fs, hfs, hforeign, -, rfl⟩ := other_cases hstep
    exact h.of_longer hinv rfl (next_longer h.inv.fs h.inv.locked hforeign hfs)
      fun q src i r hpc => .inl hpc

/-! ## What has been written -/

def ownBytes (q : ι) (cs : List (ι × List UInt8)) : List UInt8 :=
  cs.flatMap fun p => if p.1 = q then p.2 else []

/-- What `q` asks to have written. -/
def Event.source (q : ι) : Event ι → List UInt8
  | .filewrite q' src => if q' = q then src else []
  | _ => []

/-- The steps when nobody writes the file but through the shared `struct file`, and nobody moves
its offset by reading. -/
def Exclusive (s : State ι) : Event ι → Prop
  | .filewrite .. | .step _ => True
  | .fileread _ => False
  | .other e => e.Spares s.fs s.f.ip

instance (s : State ι) (e : Event ι) : Decidable (Exclusive s e) := by
  cases e <;> unfold Exclusive <;> infer_instance

theorem holder_at {p : Pc} (hheld : ∀ q, s.lock = some q → (s.pc q).holds)
    (hq : ¬ (s.pc q).holds) : (s.at q p).holder = s.holder := by
  cases hlock : s.lock with
  | none => rw [holder_free hlock, holder_free (s := s.at q p) hlock]
  | some q' =>
    have hne : q' ≠ q := by
      rintro rfl
      exact hq (hheld q' hlock)
    have hat : (s.at q p).lock = some q' := hlock
    simp only [State.holder, hat, hlock]
    exact at_pc_of_ne s p hne

/-- Since `s₀`, the pieces `cs` and the events `es`. -/
structure Appended (sb : Superblock) (s₀ s : State ι) (cs : List (ι × List UInt8))
    (es : List (Event ι)) : Prop where
  within : Within sb s
  ip : s.f.ip = s₀.f.ip
  writable : s.f.writable = true
  held : ∀ q, s.lock = some q → (s.pc q).holds
  whole : ∀ q src i r, s.pc q = .wrote src i r ∨ s.pc q = .advanced src i r →
    r = some (chunk src i).length
  chunks : s.chunks = s₀.chunks ++ cs
  pieces : ∀ p ∈ cs, p.2.length ≤ MAXWRITE
  bytes : ∃ done, allBytes cs = done ++ s.holder.unwritten ∧
    s.fs.contents sb s₀.f.ip = overwrite (s₀.fs.contents sb s₀.f.ip) s₀.f.off done ∧
    s.f.off + s.holder.behind = s₀.f.off + (allBytes cs).length
  own : ∀ q, ownBytes q cs ++ (s.pc q).rest = (s₀.pc q).rest ++ es.flatMap (Event.source q)

theorem ownBytes_append (q : ι) (cs ds : List (ι × List UInt8)) :
    ownBytes q (cs ++ ds) = ownBytes q cs ++ ownBytes q ds := List.flatMap_append

variable {s₀ : State ι} {cs : List (ι × List UInt8)} {es : List (Event ι)}

/-- A step of `q` that writes no piece and moves no offset. -/
theorem Appended.at {p : Pc} {e : Event ι} (h : Appended sb s₀ s cs es)
    (hwithin : Within sb (s.at q p)) (hq : ¬ (s.pc q).holds) (hp : ¬ p.holds)
    (hown : (s.pc q).rest ++ e.source q = p.rest) (hothers : ∀ q', q' ≠ q → e.source q' = []) :
    Appended sb s₀ (s.at q p) cs (es ++ [e]) := by
  refine ⟨hwithin, h.ip, h.writable, fun q' hq' => ?_, fun q' src i r hpc => ?_, h.chunks, h.pieces,
    ?_, fun q' => ?_⟩
  · have hne : q' ≠ q := by
      rintro rfl
      exact hq (h.held q' hq')
    rw [at_pc_of_ne s p hne]
    exact h.held q' hq'
  · by_cases heq : q' = q
    · subst heq
      rw [at_pc] at hpc
      rcases hpc with rfl | rfl <;> exact absurd trivial hp
    · rw [at_pc_of_ne s p heq] at hpc
      exact h.whole q' src i r hpc
  · rw [holder_at h.held hq]
    exact h.bytes
  · rw [List.flatMap_append, ← List.append_assoc, ← h.own q', List.append_assoc]
    by_cases heq : q' = q
    · subst heq
      rw [at_pc, ← hown]
      simp
    · rw [at_pc_of_ne s p heq]
      simp [hothers q' heq]

/-- A process that enters its critical section, or goes on in it. -/
theorem Appended.pc_at (p : Pc) (ds : List (ι × List UInt8)) (h : Appended sb s₀ s cs es)
    (hown : ownBytes q ds ++ p.rest = (s.pc q).rest) (hothers : ∀ q', q' ≠ q → ownBytes q' ds = [])
    (q' : ι) : ownBytes q' (cs ++ ds) ++ ((s.at q p).pc q').rest =
      (s₀.pc q').rest ++ (es ++ [Event.step q]).flatMap (Event.source q') := by
  have hnil : [Event.step q].flatMap (Event.source q') = [] := rfl
  rw [ownBytes_append, List.flatMap_append, hnil, List.append_nil, ← h.own q', List.append_assoc]
  by_cases heq : q' = q
  · subst heq
    rw [at_pc, hown]
  · rw [at_pc_of_ne s p heq, hothers q' heq, List.nil_append]

theorem Appended.whole_at {p : Pc} (h : Appended sb s₀ s cs es)
    (hp : ∀ src i r, p = .wrote src i r ∨ p = .advanced src i r → r = some (chunk src i).length)
    (q' : ι) (src : List UInt8) (i : ℕ) (r : Option ℕ)
    (hpc : (s.at q p).pc q' = .wrote src i r ∨ (s.at q p).pc q' = .advanced src i r) :
    r = some (chunk src i).length := by
  by_cases heq : q' = q
  · subst heq
    rw [at_pc] at hpc
    exact hp src i r hpc
  · rw [at_pc_of_ne s p heq] at hpc
    exact h.whole q' src i r hpc

theorem Appended.enter {src : List UInt8} {i : ℕ} (h : Appended sb s₀ s cs es)
    (hwithin : Within sb (s.enter q src i s.fs)) (hpc : s.pc q = .loop src i)
    (hfree : s.lock = none) :
    Appended sb s₀ (s.enter q src i s.fs) (cs ++ [(q, chunk src i)]) (es ++ [.step q]) := by
  have hholder : (s.enter q src i s.fs).holder = .locked src i := at_pc s q _
  refine ⟨hwithin, h.ip, h.writable, fun q' hq' => ?_, h.whole_at (by simp), ?_, fun p hp => ?_, ?_,
    fun q' => h.pc_at _ _ ?_ (fun q'' hne => ?_) q'⟩
  · obtain rfl : q = q' := Option.some.inj hq'
    change ((s.at q (.locked src i)).pc q).holds
    rw [at_pc]
    trivial
  · change s.chunks ++ _ = _
    rw [h.chunks, List.append_assoc]
  · rcases List.mem_append.mp hp with hp | hp
    · exact h.pieces p hp
    · rw [List.mem_singleton.mp hp]
      exact length_chunk_le src i
  · obtain ⟨done, hdone, hcontents, hoff⟩ := h.bytes
    rw [holder_free hfree] at hdone hoff
    have hall : allBytes (cs ++ [(q, chunk src i)]) = allBytes cs ++ chunk src i := by
      simp [allBytes]
    refine ⟨done, ?_, hcontents, ?_⟩
    · rw [hall, hholder, hdone]
      simp [Pc.unwritten]
    · rw [hall, hholder, List.length_append, ← Nat.add_assoc, ← hoff]
      rfl
  · rw [hpc]
    simpa [ownBytes, Pc.rest] using chunk_append src i
  · simp [ownBytes, Ne.symm hne]

/-- The piece goes to the end of what has been written. -/
theorem Appended.write {src : List UInt8} {i : ℕ} {r : Option ℕ} {fs : St} {l : List ℕ}
    (h : Appended sb s₀ s cs es) (hoff₀ : s₀.f.off ≤ (s₀.fs.inode s₀.f.ip).size)
    (hwithin : Within sb { s.at q (.wrote src i r) with fs := fs, txs := s.txs ++ [l] })
    (hpc : s.pc q = .locked src i)
    (hw : writei sb s.f.ip (chunk src i) s.f.off s.fs = .ok (r, fs))
    (hfit : s₀.f.off + (allBytes cs).length ≤ MAXFILE * BSIZE) :
    Appended sb s₀ { s.at q (.wrote src i r) with fs := fs, txs := s.txs ++ [l] } cs
      (es ++ [.step q]) := by
  have hholds : (s.pc q).holds := by
    rw [hpc]
    trivial
  have hlock := h.within.inv.holder q hholds
  obtain ⟨done, hdone, hcontents, hoff⟩ := h.bytes
  rw [h.within.inv.holder_eq hholds, hpc] at hdone hoff
  have hdone : allBytes cs = done ++ chunk src i := hdone
  rw [hdone, List.length_append] at hfit hoff
  have hoff : s.f.off = s₀.f.off + done.length := by
    simp only [Pc.behind] at hoff
    omega
  have hbad : ¬ Refused (s.fs.inode s.f.ip).size s.f.off (chunk src i).length := by
    have hle := h.within.off
    change s₀.f.off + (done.length + (chunk src i).length) ≤ 71680 at hfit
    change ¬ (_ ∨ _ ∨ 71680 < _)
    omega
  have hdev : (s.fs.inode s.f.ip).type ≠ T_DEV := by
    rw [h.within.type]
    decide
  obtain ⟨rfl, -, hrewrote⟩ :=
    (writei_accepted h.within.inv.core h.within.inv.covered hdev hbad).ok rfl hw
  have hholder : State.holder { s.at q (.wrote src i (some (chunk src i).length)) with
      fs := fs, txs := s.txs ++ [l] } = .wrote src i (some (chunk src i).length) := by
    simp [State.holder, State.at, hlock]
  refine ⟨hwithin, h.ip, h.writable, fun q' hq' => ?_, h.whole_at ?_, h.chunks, h.pieces,
    ⟨allBytes cs, ?_, ?_, ?_⟩, fun q' => ?_⟩
  · obtain rfl : q = q' := Option.some.inj (hlock.symm.trans hq')
    change ((s.at q _).pc q).holds
    rw [at_pc]
    trivial
  · rintro src' i' r' (heq | heq)
    · obtain ⟨rfl, rfl, rfl⟩ := Pc.wrote.inj heq
      rfl
    · cases heq
  · rw [hholder, hdone]
    simp [Pc.unwritten]
  · have hbytes := hrewrote.contents
    rw [h.ip, hcontents, hoff, overwrite_append (by rwa [length_contents]), ← hdone] at hbytes
    exact hbytes
  · rw [hholder, hdone, List.length_append]
    exact hoff ▸ Nat.add_assoc ..
  · simpa using h.pc_at (.wrote src i (some (chunk src i).length)) []
      (by rw [hpc]; rfl) (fun _ _ => rfl) q'

/-- `f->off += r`. -/
theorem Appended.advance {src : List UInt8} {i : ℕ} (h : Appended sb s₀ s cs es)
    (hwithin : Within sb { s.at q (.advanced src i (some (chunk src i).length)) with
      f := { s.f with off := s.f.off + (chunk src i).length } })
    (hpc : s.pc q = .wrote src i (some (chunk src i).length)) :
    Appended sb s₀ { s.at q (.advanced src i (some (chunk src i).length)) with
      f := { s.f with off := s.f.off + (chunk src i).length } } cs (es ++ [.step q]) := by
  have hholds : (s.pc q).holds := by
    rw [hpc]
    trivial
  have hlock := h.within.inv.holder q hholds
  obtain ⟨done, hdone, hcontents, hoff⟩ := h.bytes
  rw [h.within.inv.holder_eq hholds, hpc] at hdone hoff
  have hholder : State.holder { s.at q (.advanced src i (some (chunk src i).length)) with
      f := { s.f with off := s.f.off + (chunk src i).length } } =
        .advanced src i (some (chunk src i).length) := by
    simp [State.holder, State.at, hlock]
  refine ⟨hwithin, h.ip, h.writable, fun q' hq' => ?_, h.whole_at ?_, h.chunks, h.pieces,
    ⟨done, ?_, hcontents, ?_⟩, fun q' => ?_⟩
  · obtain rfl : q = q' := Option.some.inj (hlock.symm.trans hq')
    change ((s.at q _).pc q).holds
    rw [at_pc]
    trivial
  · rintro src' i' r' (heq | heq)
    · cases heq
    · obtain ⟨rfl, rfl, rfl⟩ := Pc.advanced.inj heq
      rfl
  · rwa [hholder]
  · rw [hholder]
    exact hoff
  · simpa using h.pc_at (.advanced src i (some (chunk src i).length)) []
      (by rw [hpc]; rfl) (fun _ _ => rfl) q'

/-- The lock is given up, and the loop goes on. -/
theorem Appended.again {src : List UInt8} {i : ℕ} (h : Appended sb s₀ s cs es)
    (hwithin : Within sb (s.leave q (.loop src (i + (chunk src i).length))))
    (hpc : s.pc q = .advanced src i (some (chunk src i).length)) :
    Appended sb s₀ (s.leave q (.loop src (i + (chunk src i).length))) cs (es ++ [.step q]) := by
  have hholds : (s.pc q).holds := by
    rw [hpc]
    trivial
  obtain ⟨done, hdone, hcontents, hoff⟩ := h.bytes
  rw [h.within.inv.holder_eq hholds, hpc] at hdone hoff
  refine ⟨hwithin, h.ip, h.writable, fun q' hq' => ?_, h.whole_at (by simp), h.chunks, h.pieces,
    ⟨done, ?_, hcontents, ?_⟩, fun q' => ?_⟩
  · cases hq'
  · rwa [holder_free rfl]
  · rw [holder_free rfl]
    exact hoff
  · simpa [State.leave] using h.pc_at (.loop src (i + (chunk src i).length)) []
      (by rw [hpc]; rfl) (fun _ _ => rfl) q'

theorem Appended.next {e : Event ι} (h : Appended sb s₀ s cs es)
    (hoff₀ : s₀.f.off ≤ (s₀.fs.inode s₀.f.ip).size) (hexcl : Exclusive s e)
    (hstep : next sb inodestart s e = some t)
    (hfit : s₀.f.off + (allBytes cs).length ≤ MAXFILE * BSIZE) :
    ∃ ds, Appended sb s₀ t ds (es ++ [e]) := by
  have hwithin := h.within.next hstep
  cases e with
  | filewrite q src =>
    obtain ⟨-, ⟨r, hpc⟩, rfl⟩ := filewrite_cases hstep
    rw [if_pos h.writable] at hwithin ⊢
    refine ⟨cs, h.at hwithin (by rw [hpc]; exact id) id ?_ fun q' hne => ?_⟩
    · rw [hpc]
      simp [Pc.rest, Event.source]
    · exact if_neg (Ne.symm hne)
  | step q =>
    cases step_cases hstep with
    | enter hpc hlt hfree hl =>
      obtain rfl := h.within.inv.ilock hl
      exact ⟨_, h.enter hwithin hpc hfree⟩
    | finish hpc hle =>
      refine ⟨cs, h.at hwithin (by rw [hpc]; exact id) id ?_ fun _ _ => rfl⟩
      rw [hpc]
      simp [Pc.rest, Event.source, hle]
    | write hpc hw => exact ⟨cs, h.write hoff₀ hwithin hpc (writei_erases.ok hw) hfit⟩
    | @advance src i r hpc =>
      obtain rfl := h.whole q src i r (.inl hpc)
      have hsize := h.within.inv.covered.size_le
      have hmod : (s.f.off + (chunk src i).length) % 2 ^ 32 = s.f.off + (chunk src i).length := by
        have hend := h.within.wrote q src i _ hpc
        change (s.fs.inode s.f.ip).size ≤ 71680 at hsize
        exact Nat.mod_eq_of_lt (Nat.lt_of_le_of_lt (hend.trans hsize) (by decide))
      rw [Option.getD_some, hmod] at hwithin ⊢
      exact ⟨cs, h.advance hwithin hpc⟩
    | fail hpc => cases h.whole q _ _ _ (.inr hpc)
    | again hpc => exact ⟨cs, h.again hwithin hpc⟩
  | fileread n => exact hexcl.elim
  | other e =>
    obtain ⟨fs, hfs, -, -, rfl⟩ := other_cases hstep
    have hsame := next_sameFile h.within.inv.fs hexcl hfs
    obtain ⟨done, hdone, hcontents, hoff⟩ := h.bytes
    refine ⟨cs, hwithin, h.ip, h.writable, h.held, h.whole, h.chunks, h.pieces,
      ⟨done, hdone, ?_, hoff⟩, fun q => ?_⟩
    · have hkept := hsame.contents h.within.inv.locked h.within.inv.covered
      rw [h.ip] at hkept
      exact hkept.trans hcontents
    · rw [List.flatMap_append, ← List.append_assoc, ← h.own q]
      simp [Event.source]

/-- A step starts at most one piece. -/
theorem next_chunks {e : Event ι} (hexcl : Exclusive s e)
    (hstep : next sb inodestart s e = some t) : s.chunks <+: t.chunks := by
  cases e with
  | filewrite q src =>
    obtain ⟨-, -, rfl⟩ := filewrite_cases hstep
    exact List.prefix_refl _
  | step q =>
    cases step_cases hstep with
    | enter => exact List.prefix_append _ _
    | _ => exact List.prefix_refl _
  | fileread n => exact hexcl.elim
  | other e =>
    obtain ⟨fs, -, -, -, rfl⟩ := other_cases hstep
    exact List.prefix_refl _

/-- The pieces since `s₀`. -/
def stream (s₀ s : State ι) : List (ι × List UInt8) := s.chunks.drop s₀.chunks.length

theorem Appended.stream_eq (h : Appended sb s₀ s cs es) : stream s₀ s = cs := by
  rw [stream, h.chunks, List.drop_left]

theorem Within.appended (h : Within sb s₀) (hwritable : s₀.f.writable = true)
    (hfree : s₀.lock = none) : Appended sb s₀ s₀ [] [] := by
  refine ⟨h, rfl, hwritable, fun q hq => ?_, fun q src i r hpc => ?_, (List.append_nil _).symm,
    fun p hp => absurd hp List.not_mem_nil, ⟨[], ?_, (overwrite_nil _ _).symm, ?_⟩, fun q => ?_⟩
  · rw [hfree] at hq
    cases hq
  · refine absurd ?_ (h.inv.holds_free (q := q) hfree)
    rcases hpc with hpc | hpc <;> rw [hpc] <;> trivial
  · rw [holder_free hfree]
    rfl
  · rw [holder_free hfree]
    rfl
  · simp [ownBytes]

theorem Appended.run (h₀ : Appended sb s₀ s₀ [] [])
    (h : ((system sb inodestart).restrict fun s e _ => Exclusive s e).Run s₀ es s)
    (hfit : s₀.f.off + (allBytes (stream s₀ s)).length ≤ MAXFILE * BSIZE) :
    Appended sb s₀ s (stream s₀ s) es := by
  induction h with
  | nil => rwa [h₀.stream_eq]
  | @snoc u t es e _ hs ih =>
    obtain ⟨rest, hrest⟩ := next_chunks hs.2 hs.1
    have hlen : (allBytes (stream s₀ u)).length ≤ (allBytes (stream s₀ t)).length := by
      rw [stream, stream, ← hrest, List.drop_append, allBytes, allBytes, List.flatMap_append,
        List.length_append]
      exact Nat.le_add_right _ _
    have hfit' : s₀.f.off + (allBytes (stream s₀ u)).length ≤ MAXFILE * BSIZE := by omega
    obtain ⟨ds, hds⟩ := (ih hfit').next h₀.within.off hs.2 hs.1 hfit'
    rwa [hds.stream_eq]

/-- Writers that share an open file of its own: once no one is in the middle of a piece, the file
from the offset at the beginning on holds the pieces in the order in which their writers took the
lock, the offset has moved on by as much, and what each writer has put into the file is what it
was asked to write, up to what its call has still to write. -/
theorem shared_writes {s₁ : State ι} {es₁ : List (Event ι)} (hopen : Opened sb s₁)
    (hstart : s₁.f.off = 0) (htype : (s₁.fs.inode s₁.f.ip).type = T_FILE)
    (hbefore : (system sb inodestart).Run s₁ es₁ s₀) (hwritable : s₀.f.writable = true)
    (hfree : s₀.lock = none)
    (h : ((system sb inodestart).restrict fun s e _ => Exclusive s e).Run s₀ es s)
    (hfit : s₀.f.off + (allBytes (stream s₀ s)).length ≤ MAXFILE * BSIZE) :
    (∀ p ∈ stream s₀ s, p.2.length ≤ MAXWRITE) ∧
    (s.lock = none →
      s.fs.contents sb s₀.f.ip =
        overwrite (s₀.fs.contents sb s₀.f.ip) s₀.f.off (allBytes (stream s₀ s)) ∧
      s.f.off = s₀.f.off + (allBytes (stream s₀ s)).length) ∧
    ∀ q, ownBytes q (stream s₀ s) ++ (s.pc q).rest =
      (s₀.pc q).rest ++ es.flatMap (Event.source q) := by
  have hwithin : Within sb s₀ := by
    refine hbefore.invariant (I := Within sb) ⟨hopen.inv, htype, ?_, fun q src i r hpc => ?_⟩
      fun s e t hs hstep => hs.next hstep
    · rw [hstart]
      exact Nat.zero_le _
    · obtain ⟨r', hr'⟩ := hopen.user q
      rw [hr'] at hpc
      cases hpc
  have hend := (hwithin.appended hwritable hfree).run h hfit
  refine ⟨hend.pieces, fun hdone => ?_, hend.own⟩
  obtain ⟨done, hbytes, hcontents, hoff⟩ := hend.bytes
  rw [holder_free hdone] at hbytes hoff
  obtain rfl : allBytes (stream s₀ s) = done := by simpa [Pc.unwritten] using hbytes
  exact ⟨hcontents, hoff⟩

/-- Two writers, the second one quicker. -/
def twoWriters : List (Event ℕ) :=
  [.filewrite 0 [1, 2], .filewrite 1 [3], .step 1, .step 1, .step 1, .step 1, .step 0, .step 0,
    .step 0, .step 0, .step 1]

theorem shared_writes_two : ∃ s : State ℕ,
    s.fs.contents mkfsSb 2 = [3, 1, 2] ∧ s.f.off = 3 := by
  obtain ⟨fs, hopen, hfs⟩ := exists_opened
  have h : ((runNext (FsBlocks.next mkfsSb) mkfsImage [.ialloc 2, .ilock 2]).any fun fs =>
      decide ((fs.inode 2).type = 2) && decide ((fs.inode 2).size = 0) &&
      (runNext (fun s e => if Exclusive s e then next mkfsSb 32 s e else none) (openedAt fs)
        twoWriters).any fun s =>
          decide (s.chunks = [(1, [3]), (0, [1, 2])]) && s.lock.isNone) = true := by
    decide +kernel
  rw [hfs, Option.any_some] at h
  simp only [Bool.and_eq_true, decide_eq_true_eq] at h
  obtain ⟨⟨htype, hsize⟩, h⟩ := h
  obtain ⟨s, hs, hp⟩ := (Option.any_eq_true ..).mp h
  simp only [Bool.and_eq_true, decide_eq_true_eq, Option.isNone_iff_eq_none] at hp
  obtain ⟨hchunks, hlock⟩ := hp
  have hstream : stream (openedAt fs) s = [(1, [3]), (0, [1, 2])] := hchunks
  have hrun : ((system mkfsSb 32).restrict fun s e _ => Exclusive s e).Run _ twoWriters s :=
    restrict_run_of_runNext hs
  have hwrites := shared_writes hopen rfl htype (.nil _) rfl rfl hrun
    (by rw [hstream]; exact (by decide : 0 + 3 ≤ MAXFILE * BSIZE))
  obtain ⟨hcontents, hoff⟩ := hwrites.2.1 hlock
  have hnil : fs.contents mkfsSb 2 = [] := by
    rw [St.contents, hsize]
    rfl
  rw [hstream] at hcontents hoff
  refine ⟨s, hcontents.trans ?_, hoff⟩
  change overwrite (fs.contents mkfsSb 2) 0 [3, 1, 2] = _
  rw [hnil]
  rfl

end Ostep.FileWrite

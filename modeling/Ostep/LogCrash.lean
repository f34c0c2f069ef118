import Ostep.LogCommit

/-!
# Crashes during commit and recovery

The disk together with its log refines the atomic store. Every sector write of `commit` and of
`recover_from_log` leaves the disk that recovery would produce as it was, but for the
`write_head` that commits, which moves it from the old contents to those of the whole group.
-/

namespace Ostep.LogCommit
open TransitionSystem
open LogOps (LOGSIZE absorb absorb_eq)
open RedoLog (Store Op install)

/-! ## Header and log entries -/

theorem readHead_writeHead {lh : List ℕ} (hb : Block) (h : lh.length ≤ LOGSIZE) :
    readHead (writeHead lh hb) = lh := by
  have hL : LOGSIZE = 30 := rfl
  have hn : (writeHead lh hb).word 0 = lh.length := rfl
  rw [readHead, hn]
  refine List.ext_getElem (by simp) (fun i hi hi' => ?_)
  have hlt : i + 1 < 128 := by omega
  simp [Block.word, writeHead, hlt, hi']

theorem entries_map_fst (log : Area) (lh : List ℕ) (d : ℕ → Block) :
    (entries log lh d).map Prod.fst = lh := by
  simp [entries, Function.comp_def]

theorem mem_entries {log : Area} {lh : List ℕ} {d : ℕ → Block} {w : ℕ × Block}
    (h : w ∈ entries log lh d) :
    ∃ i, lh[i]? = some w.1 ∧ w.2 = d (log.start + i + 1) := by
  obtain ⟨⟨b, i⟩, hp, rfl⟩ := List.mem_map.mp h
  exact ⟨i, by simpa using List.mem_zipIdx_iff_getElem?.mp hp, rfl⟩

theorem entries_drop {log : Area} {lh : List ℕ} {d : ℕ → Block} {i b : ℕ} (h : lh[i]? = some b) :
    (entries log lh d).drop i = (b, d (log.start + i + 1)) :: (entries log lh d).drop (i + 1) := by
  obtain ⟨hi, rfl⟩ := List.getElem?_eq_some_iff.mp h
  rw [List.drop_eq_getElem_cons (by simpa [entries] using hi)]
  simp [entries]

theorem entries_congr {log : Area} {lh : List ℕ} {d d' : ℕ → Block}
    (h : ∀ i < lh.length, d (log.start + i + 1) = d' (log.start + i + 1)) :
    entries log lh d = entries log lh d' := by
  refine List.map_congr_left (fun p hp => ?_)
  have hi := List.snd_lt_of_mem_zipIdx hp
  simp [h p.2 (by simpa using hi)]

theorem recovered_nil {log : Area} {d : ℕ → Block} (h : readHead (d log.start) = []) :
    recovered log d = d := by
  rw [recovered, h]
  rfl

theorem Area.HeaderOk.nil (log : Area) : log.HeaderOk [] := by simp [Area.HeaderOk]

theorem Area.Home.ne_start {log : Area} {b : ℕ} (hb : log.Home b) : b ≠ log.start := by
  rintro rfl
  exact hb ⟨Nat.le_refl _, Nat.lt_add_of_pos_right log.pos⟩

/-- The sectors that hold a header's entries are not home. -/
theorem Area.Home.ne_sector {log : Area} {lh : List ℕ} {b i : ℕ} (hok : log.HeaderOk lh)
    (hb : log.Home b) (hi : i < lh.length) : b ≠ log.start + i + 1 := by
  rintro rfl
  exact hb ⟨by omega, by have := hok.2.1; omega⟩

/-! ## The buffer cache -/

/-- A clean buffer is a copy of its sector. -/
def St.Clean (s : St) : Prop := ∀ b v, s.cache b = some ⟨v, false⟩ → v = s.disk b

def St.Dirty (s : St) (b : ℕ) (v : Block) : Prop := s.cache b = some ⟨v, true⟩

theorem St.Clean.bread {s : St} (h : s.Clean) {b : ℕ} (hb : ∀ v, ¬ s.Dirty b v) :
    s.bread b = s.disk b := by
  unfold St.bread
  cases hc : s.cache b with
  | none => rfl
  | some buf =>
    obtain ⟨v, dirty⟩ := buf
    cases dirty with
    | true => exact absurd hc (hb v)
    | false => exact h b v hc

theorem St.Dirty.bread {s : St} {b : ℕ} {v : Block} (h : s.Dirty b v) : s.bread b = v := by
  rw [St.Dirty] at h
  rw [St.bread, h]

theorem St.Clean.bwrite {s : St} (h : s.Clean) (a : ℕ) (v : Block) : (s.bwrite a v).Clean := by
  intro b w hw
  by_cases hb : b = a
  · subst hb
    simpa [St.bwrite, eq_comm] using hw
  · simpa [St.bwrite, hb] using h b w (by simpa [St.bwrite, hb] using hw)

theorem bwrite_dirty {s : St} {a b : ℕ} {v w : Block} :
    (s.bwrite a v).Dirty b w ↔ b ≠ a ∧ s.Dirty b w := by
  by_cases hb : b = a
  · simp [St.Dirty, St.bwrite, hb]
  · simp [St.Dirty, St.bwrite, hb]

theorem bwrite_disk {s : St} {a b : ℕ} {v : Block} (h : b ≠ a) :
    (s.bwrite a v).disk b = s.disk b := by
  simp [St.bwrite, h]

/-! ## Simulation -/

/-- The log is clear and the disk holds `c`. -/
structure Settled (log : Area) (s : St) (c : ℕ → Block) : Prop where
  header : readHead (s.disk log.start) = []
  lh : s.lh = []
  disk : ∀ b, log.Home b → s.disk b = c b
  dirty : ∀ b v, ¬ s.Dirty b v

/-- A group is being collected, or has not been committed yet: the disk still holds the stable
contents, and the pinned buffers make up the difference. -/
structure Holds (log : Area) (s : St) (c : Store ℕ Block) : Prop where
  header : readHead (s.disk log.start) = []
  fits : log.HeaderOk s.lh
  disk : ∀ b, log.Home b → s.disk b = c.stable b
  pinned : ∀ b ∈ s.lh, s.Dirty b (c.group b)
  dirty : ∀ b v, s.Dirty b v → b ∈ s.lh
  other : ∀ b, log.Home b → b ∉ s.lh → c.group b = c.stable b

/-- The header on disk commits to `c`; the first `tail` blocks are installed. -/
structure Replays (log : Area) (s : St) (c : ℕ → Block) (tail : ℕ) : Prop where
  header : readHead (s.disk log.start) = s.lh
  fits : log.HeaderOk s.lh
  recovers : ∀ b, log.Home b → recovered log s.disk b = c b
  rest : ∀ b, log.Home b → install ((entries log s.lh s.disk).drop tail) s.disk b = c b
  dirty : ∀ b v, s.Dirty b v → b ∈ s.lh.drop tail

structure Crashed (log : Area) (s : St) (c : ℕ → Block) : Prop where
  fits : log.HeaderOk (readHead (s.disk log.start))
  recovers : ∀ b, log.Home b → recovered log s.disk b = c b
  dirty : ∀ b v, ¬ s.Dirty b v

/-- `write_log` has copied the first `tail` blocks. -/
def Copied (log : Area) (s : St) (c : Store ℕ Block) (tail : ℕ) : Prop :=
  ∀ i b, i < tail → s.lh[i]? = some b → s.disk (log.start + i + 1) = c.group b

/-- Nothing is open: a crash loses nothing. -/
def Closed (c : Store ℕ Block) : Prop := c.sealed = false ∧ c.group = c.stable

def Stage (log : Area) (s : St) (c : Store ℕ Block) : Pc → Prop
  | .recover => Closed c ∧ Crashed log s c.stable
  | .install tail true => Closed c ∧ Replays log s c.stable tail
  | .clear true => Closed c ∧ Replays log s c.stable s.lh.length
  | .running => c.sealed = false ∧ Holds log s c
  | .writeLog tail => c.sealed = true ∧ Holds log s c ∧ Copied log s c tail
  | .writeHead => c.sealed = true ∧ Holds log s c ∧ Copied log s c s.lh.length
  | .install tail false => c.sealed = true ∧ Replays log s c.group tail
  | .clear false => c.sealed = true ∧ Replays log s c.group s.lh.length
  | .done => c.sealed = true ∧ Settled log s c.group

def Sim (log : Area) (s : St) (c : Store ℕ Block) : Prop := s.Clean ∧ Stage log s c s.pc

theorem Settled.holds {log : Area} {s : St} {c : ℕ → Block} (h : Settled log s c) :
    Holds log s ⟨c, c, false⟩ where
  header := h.header
  fits := h.lh ▸ .nil log
  disk := h.disk
  pinned b hb := by simp [h.lh] at hb
  dirty b v hv := absurd hv (h.dirty b v)
  other _ _ _ := rfl

/-- The group of an empty header changes nothing. -/
theorem Holds.settled {log : Area} {s : St} {c : Store ℕ Block} (h : Holds log s c)
    (hlh : s.lh = []) : Settled log s c.group where
  header := h.header
  lh := hlh
  disk b hb := (h.disk b hb).trans (h.other b hb (by simp [hlh])).symm
  dirty b v hv := by simpa [hlh] using h.dirty b v hv

/-- The states differ in clean buffers and in the program counter at most. -/
structure Same (s t : St) : Prop where
  disk : t.disk = s.disk
  lh : t.lh = s.lh
  dirty : ∀ b v, t.Dirty b v ↔ s.Dirty b v

theorem Settled.frame {log : Area} {s t : St} {d : ℕ → Block} (h : Settled log s d)
    (hst : Same s t) : Settled log t d where
  header := by rw [hst.disk, h.header]
  lh := by rw [hst.lh, h.lh]
  disk := by rw [hst.disk]; exact h.disk
  dirty b v hv := h.dirty b v ((hst.dirty b v).mp hv)

theorem Holds.frame {log : Area} {s t : St} {c : Store ℕ Block} (h : Holds log s c)
    (hst : Same s t) : Holds log t c where
  header := by rw [hst.disk, h.header]
  fits := by rw [hst.lh]; exact h.fits
  disk := by rw [hst.disk]; exact h.disk
  pinned b hb := (hst.dirty b _).mpr (h.pinned b (hst.lh ▸ hb))
  dirty b v hv := hst.lh ▸ h.dirty b v ((hst.dirty b v).mp hv)
  other b hb hnot := h.other b hb (hst.lh ▸ hnot)

theorem Replays.frame {log : Area} {s t : St} {d : ℕ → Block} {tail : ℕ} (h : Replays log s d tail)
    (hst : Same s t) : Replays log t d tail where
  header := by rw [hst.disk, hst.lh, h.header]
  fits := by rw [hst.lh]; exact h.fits
  recovers := by rw [hst.disk]; exact h.recovers
  rest := by rw [hst.disk, hst.lh]; exact h.rest
  dirty b v hv := hst.lh ▸ h.dirty b v ((hst.dirty b v).mp hv)

theorem Crashed.frame {log : Area} {s t : St} {d : ℕ → Block} (h : Crashed log s d)
    (hst : Same s t) : Crashed log t d where
  fits := by rw [hst.disk]; exact h.fits
  recovers := by rw [hst.disk]; exact h.recovers
  dirty b v hv := h.dirty b v ((hst.dirty b v).mp hv)

theorem Copied.frame {log : Area} {s t : St} {c : Store ℕ Block} {tail : ℕ}
    (h : Copied log s c tail) (hst : Same s t) : Copied log t c tail := by
  intro i b hi hb
  rw [hst.disk]
  exact h i b hi (hst.lh ▸ hb)

theorem Stage.frame {log : Area} {s t : St} {c : Store ℕ Block} {pc : Pc} (h : Stage log s c pc)
    (hst : Same s t) : Stage log t c pc := by
  have hlen : t.lh.length = s.lh.length := by rw [hst.lh]
  cases pc with
  | recover => exact ⟨h.1, h.2.frame hst⟩
  | install tail r => cases r <;> exact ⟨h.1, h.2.frame hst⟩
  | clear r =>
    cases r
    · exact ⟨h.1, hlen ▸ h.2.frame hst⟩
    · exact ⟨h.1, hlen ▸ h.2.frame hst⟩
  | running => exact ⟨h.1, h.2.frame hst⟩
  | writeLog tail => exact ⟨h.1, h.2.1.frame hst, h.2.2.frame hst⟩
  | writeHead => exact ⟨h.1, h.2.1.frame hst, hlen ▸ h.2.2.frame hst⟩
  | done => exact ⟨h.1, h.2.frame hst⟩

theorem Same.goto (s : St) (pc : Pc) : Same s { s with pc := pc } := ⟨rfl, rfl, fun _ _ => .rfl⟩

theorem Same.pass (s : St) (n : ℕ) : Same s { s with passed := n } := ⟨rfl, rfl, fun _ _ => .rfl⟩

/-! ## One step -/

section Step
variable {log : Area} {s : St} {c : Store ℕ Block}

theorem Crashed.readHead (h : Crashed log s c.stable) (hclean : s.Clean) :
    Replays log { s with lh := readHead (s.bread log.start) } c.stable 0 := by
  have hb : s.bread log.start = s.disk log.start := hclean.bread (h.dirty _)
  exact {
    header := by rw [hb]
    fits := by rw [hb]; exact h.fits
    recovers := h.recovers
    rest := by rw [hb]; exact h.recovers
    dirty := fun b v hv => absurd hv (h.dirty b v) }

/-- Installing one block. -/
theorem Replays.install {d : ℕ → Block} {tail b : ℕ} (h : Replays log s d tail) (hclean : s.Clean)
    (hb : s.lh[tail]? = some b) :
    Replays log (s.bwrite b (s.bread (log.start + tail + 1))) d (tail + 1) := by
  obtain ⟨hlt, hget⟩ := List.getElem?_eq_some_iff.mp hb
  have hmem : b ∈ s.lh := hget ▸ List.getElem_mem hlt
  have hhome : log.Home b := h.fits.2.2 b hmem
  have hdirty : ∀ v, ¬ s.Dirty (log.start + tail + 1) v := by
    intro v hv
    have hin := h.fits.2.2 _ (List.mem_of_mem_drop (h.dirty _ v hv))
    exact (hin.ne_sector h.fits hlt) rfl
  rw [hclean.bread hdirty]
  have hentries : entries log s.lh (Function.update s.disk b (s.disk (log.start + tail + 1))) =
      entries log s.lh s.disk :=
    entries_congr (fun i hi => Function.update_of_ne (hhome.ne_sector h.fits hi).symm _ _)
  have hhead : (Function.update s.disk b (s.disk (log.start + tail + 1))) log.start =
      s.disk log.start := Function.update_of_ne hhome.ne_start.symm _ _
  exact {
    header := (congrArg LogCommit.readHead hhead).trans h.header
    fits := h.fits
    recovers := fun a ha => by
      rw [← h.recovers a ha]
      change RedoLog.install (entries log (LogCommit.readHead
        (Function.update s.disk b (s.disk (log.start + tail + 1)) log.start)) _) _ a = _
      rw [recovered, hhead, h.header]
      change RedoLog.install (entries log s.lh
        (Function.update s.disk b (s.disk (log.start + tail + 1)))) _ a = _
      rw [hentries]
      exact congrFun (RedoLog.install_update_of_mem (by rwa [entries_map_fst])) a
    rest := fun a ha => by
      rw [← h.rest a ha, entries_drop hb]
      change RedoLog.install ((entries log s.lh
        (Function.update s.disk b (s.disk (log.start + tail + 1)))).drop (tail + 1)) _ a = _
      rw [hentries]
      rfl
    dirty := fun a v hv => by
      obtain ⟨hne, hv⟩ := bwrite_dirty.mp hv
      have hin := h.dirty a v hv
      rw [List.drop_eq_getElem_cons hlt, List.mem_cons] at hin
      exact hin.resolve_left (fun heq => hne (heq.trans hget)) }

theorem Replays.finish {d : ℕ → Block} {tail : ℕ} (h : Replays log s d tail)
    (hb : s.lh[tail]? = none) : Replays log s d s.lh.length where
  header := h.header
  fits := h.fits
  recovers := h.recovers
  rest a ha := by
    have hle := List.getElem?_eq_none_iff.mp hb
    rw [← h.rest a ha, List.drop_of_length_le (by simp [entries]),
      List.drop_of_length_le (by simpa [entries] using hle)]
  dirty b v hv := by
    have hin := h.dirty b v hv
    rwa [List.drop_of_length_le (List.getElem?_eq_none_iff.mp hb),
      ← List.drop_length (l := s.lh)] at hin

theorem Replays.clear {d : ℕ → Block} (h : Replays log s d s.lh.length) (hd : Block) :
    Settled log { s.bwrite log.start (writeHead [] hd) with lh := [] } d where
  header := by simp [St.bwrite, readHead_writeHead]
  lh := rfl
  disk b hb := by
    have hrest := h.rest b hb
    rw [List.drop_of_length_le (by simp [entries])] at hrest
    rw [← hrest]
    exact bwrite_disk hb.ne_start
  dirty b v hv := by
    obtain ⟨-, hv⟩ := bwrite_dirty.mp hv
    simpa using h.dirty b v hv

/-- Copying one block to the log. -/
theorem Holds.copy {tail b : ℕ} (h : Holds log s c) (hcopied : Copied log s c tail)
    (hb : s.lh[tail]? = some b) :
    Holds log (s.bwrite (log.start + tail + 1) (s.bread b)) c ∧
      Copied log (s.bwrite (log.start + tail + 1) (s.bread b)) c (tail + 1) := by
  obtain ⟨hlt, hget⟩ := List.getElem?_eq_some_iff.mp hb
  have hread : s.bread b = c.group b := (h.pinned b (hget ▸ List.getElem_mem hlt)).bread
  refine ⟨?_, ?_⟩
  · exact {
      header := by
        rw [← h.header]
        exact congrArg LogCommit.readHead (bwrite_disk (by omega))
      fits := h.fits
      disk := fun a ha => by rw [bwrite_disk (ha.ne_sector h.fits hlt), h.disk a ha]
      pinned := fun a ha =>
        bwrite_dirty.mpr ⟨(h.fits.2.2 a ha).ne_sector h.fits hlt, h.pinned a ha⟩
      dirty := fun a v hv => h.dirty a v (bwrite_dirty.mp hv).2
      other := h.other }
  · intro i a hi ha
    by_cases heq : i = tail
    · subst heq
      obtain rfl : b = a := Option.some.inj (hb.symm.trans ha)
      simp [St.bwrite, hread]
    · rw [bwrite_disk (by omega)]
      exact hcopied i a (by omega) ha

/-- The commit point: recovery now leaves the group. -/
theorem Holds.writeHead (h : Holds log s c) (hcopied : Copied log s c s.lh.length) (hd : Block) :
    Replays log (s.bwrite log.start (writeHead s.lh hd)) c.group 0 := by
  have hhead : LogCommit.readHead ((s.bwrite log.start (LogCommit.writeHead s.lh hd)).disk
      log.start) = s.lh := by
    simp [St.bwrite, readHead_writeHead hd h.fits.1]
  have hinstall : ∀ b, log.Home b →
      RedoLog.install (entries log s.lh (s.bwrite log.start (LogCommit.writeHead s.lh hd)).disk)
        (s.bwrite log.start (LogCommit.writeHead s.lh hd)).disk b = c.group b := by
    intro b hb
    apply RedoLog.install_eq
    · intro w hw
      obtain ⟨i, hi, hval⟩ := mem_entries hw
      rw [hval, bwrite_disk (by omega)]
      exact hcopied i w.1 (List.getElem?_eq_some_iff.mp hi).1 hi
    · intro hnot
      rw [entries_map_fst] at hnot
      rw [bwrite_disk hb.ne_start, h.disk b hb, h.other b hb hnot]
  exact {
    header := hhead
    fits := h.fits
    recovers := fun b hb => by rw [recovered, hhead]; exact hinstall b hb
    rest := hinstall
    dirty := fun b v hv => h.dirty b v (bwrite_dirty.mp hv).2 }

theorem Holds.logWrite {b : ℕ} {v : Block} (h : Holds log s c) (hb : log.Home b)
    (harray : (absorb b s.lh).length ≤ LOGSIZE) (hroom : (absorb b s.lh).length ≤ log.size - 1) :
    Holds log { s with
      cache := Function.update s.cache b (some ⟨v, true⟩), lh := absorb b s.lh }
      { c with group := Function.update c.group b v } where
  header := h.header
  fits := by
    refine ⟨harray, hroom, fun a ha => ?_⟩
    change a ∈ absorb b s.lh at ha
    rw [absorb_eq] at ha
    split_ifs at ha with hmem
    · exact h.fits.2.2 a ha
    · rcases List.mem_append.mp ha with ha | ha
      · exact h.fits.2.2 a ha
      · rw [List.mem_singleton.mp ha]
        exact hb
  disk := h.disk
  pinned a ha := by
    by_cases hab : a = b
    · subst hab
      simp [St.Dirty]
    · have hmem : a ∈ s.lh := by
        change a ∈ absorb b s.lh at ha
        rw [absorb_eq] at ha
        split_ifs at ha
        · exact ha
        · simpa [hab] using ha
      simpa [St.Dirty, hab] using h.pinned a hmem
  dirty a w hw := by
    change a ∈ absorb b s.lh
    rw [absorb_eq]
    by_cases hab : a = b
    · subst hab
      split_ifs with hmem
      · exact hmem
      · simp
    · have hmem := h.dirty a w (by simpa [St.Dirty, hab] using hw)
      split_ifs
      · exact hmem
      · exact List.mem_append_left _ hmem
  other a ha hnot := by
    change a ∉ absorb b s.lh at hnot
    rw [absorb_eq] at hnot
    have hab : a ≠ b ∧ a ∉ s.lh := by
      split_ifs at hnot with hmem
      · exact ⟨fun h => hnot (h ▸ hmem), hnot⟩
      · rw [List.mem_append, List.mem_singleton, not_or] at hnot
        exact ⟨hnot.2, hnot.1⟩
    simpa [hab.1] using h.other a ha hab.2

end Step

/-- A sector write of `commit` or of recovery is invisible in the store. -/
theorem Sim.stepOf {log : Area} {s t : St} {c : Store ℕ Block} (h : Sim log s c)
    (hstep : stepOf log s = some t) : Sim log t c := by
  obtain ⟨hclean, hstage⟩ := h
  unfold LogCommit.stepOf at hstep
  cases hpc : s.pc with
  | recover =>
    rw [hpc] at hstep hstage
    obtain rfl := Option.some.inj hstep
    exact ⟨hclean, hstage.1, (hstage.2.readHead hclean).frame (.goto _ _)⟩
  | install tail r =>
    simp only [hpc] at hstep hstage
    cases hb : s.lh[tail]? with
    | some b =>
      simp only [hb] at hstep
      obtain rfl := Option.some.inj hstep
      refine ⟨hclean.bwrite _ _, ?_⟩
      cases r <;> exact ⟨hstage.1, (hstage.2.install hclean hb).frame (.goto _ _)⟩
    | none =>
      simp only [hb] at hstep
      obtain rfl := Option.some.inj hstep
      refine ⟨hclean, ?_⟩
      cases r <;> exact ⟨hstage.1, (hstage.2.finish hb).frame (.goto _ _)⟩
  | clear r =>
    simp only [hpc] at hstep hstage
    obtain rfl := Option.some.inj hstep
    refine ⟨hclean.bwrite _ _, ?_⟩
    cases r with
    | false => exact ⟨hstage.1, (hstage.2.clear _).frame (.goto _ _)⟩
    | true =>
      obtain ⟨⟨hsealed, hgroup⟩, hrep⟩ := hstage
      have hc : c = ⟨c.stable, c.stable, false⟩ := by
        cases c
        simp_all
      rw [hc]
      exact ⟨rfl, (hrep.clear _).holds.frame (.goto _ _)⟩
  | writeLog tail =>
    simp only [hpc] at hstep hstage
    obtain ⟨hsealed, hholds, hcopied⟩ := hstage
    cases hb : s.lh[tail]? with
    | some b =>
      simp only [hb] at hstep
      obtain rfl := Option.some.inj hstep
      obtain ⟨hholds, hcopied⟩ := hholds.copy hcopied hb
      exact ⟨hclean.bwrite _ _, hsealed, hholds.frame (.goto _ _), hcopied.frame (.goto _ _)⟩
    | none =>
      simp only [hb] at hstep
      obtain rfl := Option.some.inj hstep
      refine ⟨hclean, hsealed, hholds.frame (.goto _ _), fun i b hi hb' => ?_⟩
      exact hcopied i b (Nat.lt_of_lt_of_le hi (List.getElem?_eq_none_iff.mp hb)) hb'
  | writeHead =>
    simp only [hpc] at hstep hstage
    obtain ⟨hsealed, hholds, hcopied⟩ := hstage
    obtain rfl := Option.some.inj hstep
    exact ⟨hclean.bwrite _ _, hsealed, (hholds.writeHead hcopied _).frame (.goto _ _)⟩
  | running | done => simp [hpc] at hstep

/-- What a crash leaves on disk. -/
theorem Stage.crash {log : Area} {s : St} {c : Store ℕ Block} {pc : Pc} (h : Stage log s c pc) :
    ∃ c', Store.Step c .crash c' ∧ Closed c' ∧ log.HeaderOk (readHead (s.disk log.start)) ∧
      ∀ b, log.Home b → recovered log s.disk b = c'.stable b := by
  have hlose := Store.Step.lose c
  have hkeep : c.sealed = true → _ := Store.Step.keep (c := c)
  have hold : Holds log s c → log.HeaderOk (readHead (s.disk log.start)) ∧
      ∀ b, log.Home b → recovered log s.disk b = c.stable b := by
    intro h
    rw [recovered_nil h.header, h.header]
    exact ⟨.nil log, h.disk⟩
  cases pc with
  | recover => exact ⟨_, hlose, ⟨rfl, rfl⟩, h.2.fits, h.2.recovers⟩
  | install tail r =>
    cases r with
    | false => exact ⟨_, hkeep h.1, ⟨rfl, rfl⟩, h.2.header ▸ h.2.fits, h.2.recovers⟩
    | true => exact ⟨_, hlose, ⟨rfl, rfl⟩, h.2.header ▸ h.2.fits, h.2.recovers⟩
  | clear r =>
    cases r with
    | false => exact ⟨_, hkeep h.1, ⟨rfl, rfl⟩, h.2.header ▸ h.2.fits, h.2.recovers⟩
    | true => exact ⟨_, hlose, ⟨rfl, rfl⟩, h.2.header ▸ h.2.fits, h.2.recovers⟩
  | running => exact ⟨_, hlose, ⟨rfl, rfl⟩, hold h.2⟩
  | writeLog tail => exact ⟨_, hlose, ⟨rfl, rfl⟩, hold h.2.1⟩
  | writeHead => exact ⟨_, hlose, ⟨rfl, rfl⟩, hold h.2.1⟩
  | done =>
    refine ⟨_, hkeep h.1, ⟨rfl, rfl⟩, ?_⟩
    rw [recovered_nil h.2.header, h.2.header]
    exact ⟨.nil log, h.2.disk⟩

/-- The events of the store: the sector writes and the buffer cache are not among them. -/
def label : Event → Option (Op ℕ Block)
  | .logWrite b v => some (.write b v)
  | .commit => some .commit
  | .ret => some .ret
  | .crash => some .crash
  | .step | .test | .load _ | .evict _ => none

theorem Sim.logWrite {log : Area} {s : St} {c : Store ℕ Block} {b : ℕ} {v : Block}
    (h : Sim log s c) (hpc : s.pc = .running) (hb : log.Home b)
    (harray : (absorb b s.lh).length ≤ LOGSIZE) (hroom : (absorb b s.lh).length ≤ log.size - 1) :
    ∃ c', Store.Step c (.write b v) c' ∧
      Sim log { s with
        cache := Function.update s.cache b (some ⟨v, true⟩), lh := absorb b s.lh
        passed := s.passed - 1 } c' := by
  obtain ⟨hclean, hstage⟩ := h
  rw [hpc] at hstage
  refine ⟨_, .write b v hstage.1, ?_, ?_⟩
  · intro a w hw
    by_cases hab : a = b
    · simp [hab] at hw
    · exact hclean a w (by simpa [hab] using hw)
  · exact (congrArg (Stage log _ _) hpc).mpr
      ⟨hstage.1, (hstage.2.logWrite hb harray hroom).frame (.pass _ _)⟩

theorem Sim.commit {log : Area} {s : St} {c : Store ℕ Block} (h : Sim log s c)
    (hpc : s.pc = .running) : ∃ c', Store.Step c .commit c' ∧
      Sim log { s with pc := if s.lh = [] then .done else .writeLog 0 } c' := by
  obtain ⟨hclean, hstage⟩ := h
  rw [hpc] at hstage
  obtain ⟨hsealed, hholds⟩ := hstage
  have hseal : Holds log s { c with sealed := true } := { hholds with }
  refine ⟨_, .commit hsealed, hclean, ?_⟩
  split_ifs with hlh
  · exact ⟨rfl, (hholds.settled hlh).frame (.goto _ _)⟩
  · exact ⟨rfl, hseal.frame (.goto _ _), fun i b hi => absurd hi (Nat.not_lt_zero i)⟩

theorem Sim.ret {log : Area} {s : St} {c : Store ℕ Block} (h : Sim log s c)
    (hpc : s.pc = .done) : ∃ c', Store.Step c .ret c' ∧ Sim log { s with pc := .running } c' := by
  obtain ⟨hclean, hstage⟩ := h
  rw [hpc] at hstage
  exact ⟨_, .ret hstage.1, hclean, rfl, hstage.2.holds.frame (.goto _ _)⟩

theorem Sim.crash {log : Area} {s : St} {c : Store ℕ Block} (h : Sim log s c) :
    ∃ c', Store.Step c .crash c' ∧
      Sim log { s with cache := fun _ => none, lh := [], passed := 0, pc := .recover } c' := by
  obtain ⟨c', hstep, hclosed, hok, hrec⟩ := h.2.crash
  refine ⟨c', hstep, fun b v hv => by simp at hv, hclosed, ?_⟩
  exact { fits := hok, recovers := hrec, dirty := fun b v hv => by simp [St.Dirty] at hv }

/-- Clean buffers come and go. -/
theorem Sim.cache {log : Area} {s : St} {c : Store ℕ Block} {b : ℕ} {buf : Option Buf}
    (h : Sim log s c) (hold : ∀ v, ¬ s.Dirty b v)
    (hbuf : buf = none ∨ buf = some ⟨s.disk b, false⟩) :
    Sim log { s with cache := Function.update s.cache b buf } c := by
  refine ⟨fun a v hv => ?_, h.2.frame ⟨rfl, rfl, fun a v => ?_⟩⟩
  · by_cases hab : a = b
    · subst hab
      rcases hbuf with rfl | rfl <;> simp [eq_comm] at hv
      exact hv
    · exact h.1 a v (by simpa [hab] using hv)
  · by_cases hab : a = b
    · subst hab
      rcases hbuf with rfl | rfl <;> simpa [St.Dirty] using hold v
    · simp [St.Dirty, hab]

theorem Sim.next {log : Area} {s t : St} {c : Store ℕ Block} {e : Event} (h : Sim log s c)
    (hstep : next log s e = some t) (hfits : Fits log s e) :
    (∀ op, label e = some op → ∃ c', Store.Step c op c' ∧ Sim log t c') ∧
      (label e = none → Sim log t c) := by
  cases e with
  | step => exact ⟨nofun, fun _ => h.stepOf hstep⟩
  | test =>
    obtain ⟨-, heq⟩ := Option.ite_none_right_eq_some.mp hstep
    obtain rfl := Option.some.inj heq
    exact ⟨nofun, fun _ => ⟨h.1, h.2.frame (.pass _ _)⟩⟩
  | logWrite b v =>
    obtain ⟨⟨hpc, -, hb, harray⟩, heq⟩ := Option.ite_none_right_eq_some.mp hstep
    obtain rfl := Option.some.inj heq
    exact ⟨fun op hop => Option.some.inj hop ▸ h.logWrite hpc hb harray hfits, nofun⟩
  | commit =>
    obtain ⟨⟨hpc, -⟩, heq⟩ := Option.ite_none_right_eq_some.mp hstep
    obtain rfl := Option.some.inj heq
    exact ⟨fun op hop => Option.some.inj hop ▸ h.commit hpc, nofun⟩
  | ret =>
    obtain ⟨hpc, heq⟩ := Option.ite_none_right_eq_some.mp hstep
    obtain rfl := Option.some.inj heq
    exact ⟨fun op hop => Option.some.inj hop ▸ h.ret hpc, nofun⟩
  | crash =>
    obtain rfl := Option.some.inj hstep
    exact ⟨fun op hop => Option.some.inj hop ▸ h.crash, nofun⟩
  | load b =>
    obtain ⟨hnone, heq⟩ := Option.ite_none_right_eq_some.mp hstep
    obtain rfl := Option.some.inj heq
    exact ⟨nofun, fun _ => h.cache (by simp [St.Dirty, hnone]) (Or.inr rfl)⟩
  | evict b =>
    simp only [LogCommit.next] at hstep
    cases hbuf : s.cache b with
    | none => simp [hbuf] at hstep
    | some buf =>
      rw [hbuf] at hstep
      obtain ⟨hclean, heq⟩ := Option.ite_none_left_eq_some.mp hstep
      obtain rfl := Option.some.inj heq
      refine ⟨nofun, fun _ => h.cache (fun v hv => ?_) (Or.inl rfl)⟩
      rw [St.Dirty, hbuf] at hv
      simp [Option.some.inj hv] at hclean

theorem Sim.boot {log : Area} {s : St} (h : Boot log s) :
    Sim log s ⟨recovered log s.disk, recovered log s.disk, false⟩ := by
  obtain ⟨hok, hcache, -, -, hpc⟩ := h
  refine ⟨fun b v hv => by simp [hcache] at hv, ?_⟩
  rw [hpc]
  exact ⟨⟨rfl, rfl⟩, hok, fun b _ => rfl, fun b v hv => by simp [St.Dirty, hcache] at hv⟩

theorem install_completes (log : Area) {s : St} {tail : ℕ} {r : Bool}
    (hpc : s.pc = .install tail r) :
    ∃ k t, (system log).Run s (List.replicate k .step) t ∧ t.pc = .clear r := by
  induction hn : s.lh.length - tail generalizing s tail with
  | zero =>
    have hb : s.lh[tail]? = none := List.getElem?_eq_none_iff.mpr (by omega)
    have hstep : next log s .step = some { s with pc := .clear r } := by
      simp [next, stepOf, hpc, hb]
    exact ⟨1, _, .single hstep, rfl⟩
  | succ n ih =>
    have hlt : tail < s.lh.length := by omega
    have hb : s.lh[tail]? = some s.lh[tail] := List.getElem?_eq_getElem hlt
    have hstep : next log s .step = some { s.bwrite s.lh[tail]
        (s.bread (log.start + tail + 1)) with pc := .install (tail + 1) r } := by
      simp [next, stepOf, hpc, hb]
    obtain ⟨k, t, hrun, ht⟩ := ih (s := { s.bwrite s.lh[tail]
        (s.bread (log.start + tail + 1)) with pc := .install (tail + 1) r }) rfl
      (by change s.lh.length - (tail + 1) = n; omega)
    exact ⟨k + 1, t, .cons hstep hrun, ht⟩

/-- Left alone, `recover_from_log` completes. -/
theorem recover_completes (log : Area) {s : St} (hpc : s.pc = .recover) :
    ∃ k t, (system log).Run s (List.replicate k .step) t ∧ t.pc = .running := by
  have hfirst : next log s .step = some { s with
      lh := readHead (s.bread log.start), pc := .install 0 true } := by
    simp [next, stepOf, hpc]
  obtain ⟨k, t, hrun, ht⟩ := install_completes log (s := { s with
      lh := readHead (s.bread log.start), pc := .install 0 true }) rfl
  have hlast : next log t .step = some { t.bwrite log.start (writeHead [] (t.bread log.start)) with
      lh := [], pc := .running } := by
    simp [next, stepOf, ht]
  refine ⟨k + 1 + 1, _, ?_, congrArg St.pc (rfl : _ = { t.bwrite log.start
    (writeHead [] (t.bread log.start)) with lh := [], pc := .running })⟩
  rw [List.replicate_succ']
  exact (System.Run.cons hfirst hrun).snoc hlast

end Ostep.LogCommit

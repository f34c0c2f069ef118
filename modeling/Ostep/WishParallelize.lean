import Ostep.ByteBuffer

/-!
# The command splitter of wish

`parallelize` walks the line in `readBuff`, and at each `'&'` copies the segment before it
into `resBuf` and forks: the parent returns with that buffer, the child goes on with its own
copy. The copy never writes a terminator, so what a process reads back from its buffer also
depends on the segments copied earlier and on what malloc left in the block.

The result lists the processes in fork order: each process is the child of the one before it.
-/

namespace Ostep.WishParallelize
open ByteBuffer

abbrev TOTALSIZE : ℕ := 1000

def ampersand : UInt8 := 38

/-- A malloc'd block of TOTALSIZE bytes. -/
structure Buffer where
  bytes : List UInt8
  size : bytes.length = TOTALSIZE

/-- `memcpy(dst, &src[start], n)`, the wrapper of `memmove` in wishUtils.c. -/
def Buffer.memcpy (dst src : Buffer) (start n : ℕ) : Buffer :=
  ⟨memmove dst.bytes src.bytes 0 start n, by simp [dst.size]⟩

/-- The loop of `parallelize` with `rest` the bytes from `readBuff[currChar]` on, and `fork i`
telling whether the fork made after `i` earlier ones succeeds (a failed fork returns -1, which
the code takes for the parent's side). Running off the block is `none`. -/
def parallelizeFrom (fork : ℕ → Bool) (readBuff : Buffer) (forks : ℕ) (resBuf : Buffer)
    (baseByte currChar : ℕ) : List UInt8 → Option (List Buffer)
  | [] => none
  | c :: rest =>
    if c = 0 then some [resBuf.memcpy readBuff baseByte (currChar - baseByte)]
    else if c = ampersand then
      let filled := resBuf.memcpy readBuff baseByte (currChar - baseByte)
      if fork forks then
        (parallelizeFrom fork readBuff (forks + 1) filled (currChar + 1) (currChar + 1) rest).map
          (filled :: ·)
      else some [filled]
    else parallelizeFrom fork readBuff forks resBuf baseByte (currChar + 1) rest

/-- `malloced` is the block malloc returned, with the bytes it happens to hold. The final
`free(readBuff)` writes block headers only, so `*readBuf = resBuf` is what a process keeps. -/
def parallelize (fork : ℕ → Bool) (malloced readBuff : Buffer) : Option (List Buffer) :=
  parallelizeFrom fork readBuff 0 malloced 0 0 readBuff.bytes

/-- The text `bytes` after a segment has been copied over its start. -/
def overlay (bytes seg : List UInt8) : List UInt8 := seg ++ bytes.drop seg.length

theorem overlay_length {bytes seg : List UInt8} (h : seg.length ≤ bytes.length) :
    (overlay bytes seg).length = bytes.length := by
  simp [overlay]
  omega

theorem overlay_getElem? (bytes seg : List UInt8) (n : ℕ) :
    (overlay bytes seg)[n]? = if n < seg.length then seg[n]? else bytes[n]? := by
  split_ifs with h
  · exact List.getElem?_append_left h
  · rw [overlay, List.getElem?_append_right (by omega), List.getElem?_drop]
    congr 1
    omega

theorem memcpy_bytes (dst src : Buffer) (start n : ℕ) (h : start + n ≤ TOTALSIZE) :
    (dst.memcpy src start n).bytes = overlay dst.bytes ((src.bytes.drop start).take n) := by
  have hs := src.size
  have hd := dst.size
  have hlen : ((src.bytes.drop start).take n).length = n := by
    simp
    omega
  rw [overlay, hlen]
  simpa [Buffer.memcpy] using
    memmove_eq dst.bytes src.bytes 0 start n (by omega) (by omega)

/-- What the successive processes find in their copies of `resBuf`. -/
def filledWith (bytes : List UInt8) : List (List UInt8) → List (List UInt8)
  | [] => []
  | seg :: segs => overlay bytes seg :: filledWith (overlay bytes seg) segs

@[simp] theorem filledWith_length (bytes : List UInt8) (segs : List (List UInt8)) :
    (filledWith bytes segs).length = segs.length := by
  induction segs generalizing bytes with
  | nil => rfl
  | cons seg segs ih => simp [filledWith, ih]

/-- The loop invariant: the open segment is `acc` reversed, and it ends at `currChar`. -/
theorem parallelizeFrom_eq (fork : ℕ → Bool) (hfork : ∀ i, fork i = true) (readBuff : Buffer)
    (forks : ℕ) (resBuf : Buffer) (baseByte currChar : ℕ) (acc text tail : List UInt8)
    (hbase : baseByte ≤ currChar)
    (hacc : (readBuff.bytes.drop baseByte).take (currChar - baseByte) = acc.reverse)
    (hrest : readBuff.bytes.drop currChar = text ++ 0 :: tail) (htext : 0 ∉ text) :
    (parallelizeFrom fork readBuff forks resBuf baseByte currChar (text ++ 0 :: tail)).map
        (·.map Buffer.bytes) =
      some (filledWith resBuf.bytes (text.splitOnPPrepend (· == ampersand) acc)) := by
  have hcurr : currChar < readBuff.bytes.length := by
    have := congrArg List.length hrest
    simp at this
    omega
  have hcopy : (resBuf.memcpy readBuff baseByte (currChar - baseByte)).bytes =
      overlay resBuf.bytes acc.reverse := by
    have hsize := readBuff.size
    rw [memcpy_bytes _ _ _ _ (by omega), hacc]
  induction text generalizing forks resBuf baseByte currChar acc with
  | nil => simp [parallelizeFrom, filledWith, hcopy]
  | cons c text ih =>
    have hc0 : c ≠ 0 := fun h => htext (by simp [h])
    have htext' : 0 ∉ text := fun h => htext (by simp [h])
    have hrest' : readBuff.bytes.drop (currChar + 1) = text ++ 0 :: tail := by
      rw [← List.drop_drop, hrest]
      rfl
    have hcurr' : currChar + 1 < readBuff.bytes.length := by
      have := congrArg List.length hrest'
      simp at this
      omega
    have hsize := readBuff.size
    by_cases hc : c = ampersand
    · -- the parent keeps the segment, the child restarts with an empty one
      subst hc
      have hnew := ih (forks + 1) (resBuf.memcpy readBuff baseByte (currChar - baseByte))
        (currChar + 1) (currChar + 1) [] le_rfl (by simp) hrest' htext' hcurr'
        (by rw [memcpy_bytes _ _ _ _ (by omega)]; simp)
      rw [hcopy] at hnew
      simp only [List.cons_append, parallelizeFrom, hc0, hfork, if_true, if_false,
        List.splitOnPPrepend, beq_self_eq_true, filledWith, Option.map_map]
      rw [← hcopy] at hnew ⊢
      generalize parallelizeFrom fork readBuff (forks + 1) _ _ _ _ = out at hnew ⊢
      cases out with
      | none => simp at hnew
      | some out => simpa using hnew
    · -- an ordinary character extends the open segment
      have hacc' : (readBuff.bytes.drop baseByte).take (currChar + 1 - baseByte) =
          (c :: acc).reverse := by
        rw [show currChar + 1 - baseByte = (currChar - baseByte) + 1 by omega,
          List.take_add_one, hacc, List.getElem?_drop,
          show baseByte + (currChar - baseByte) = currChar + 0 by omega, ← List.getElem?_drop,
          hrest]
        simp
      have hnew := ih forks resBuf baseByte (currChar + 1) (c :: acc) (by omega) hacc' hrest'
        htext' hcurr' (by rw [memcpy_bytes _ _ _ _ (by omega), hacc'])
      simpa [parallelizeFrom, hc0, hc, List.splitOnPPrepend] using hnew

theorem parallelize_eq (fork : ℕ → Bool) (hfork : ∀ i, fork i = true)
    (malloced readBuff : Buffer) (s tail : List UInt8) (hs : 0 ∉ s)
    (hline : readBuff.bytes = s ++ 0 :: tail) :
    (parallelize fork malloced readBuff).map (·.map Buffer.bytes) =
      some (filledWith malloced.bytes (s.splitOn ampersand)) := by
  rw [parallelize, hline]
  exact parallelizeFrom_eq fork hfork readBuff 0 malloced 0 0 [] s tail le_rfl (by simp)
    (by simpa using hline) hs

theorem splitOnPPrepend_spec (p : UInt8 → Bool) (text acc : List UInt8) :
    (text.splitOnPPrepend p acc).length = text.countP p + 1 ∧
    ∀ seg ∈ text.splitOnPPrepend p acc,
      (∀ b ∈ seg, b ∈ acc ∨ b ∈ text) ∧ seg.length ≤ acc.length + text.length := by
  induction text generalizing acc with
  | nil => simp
  | cons c text ih =>
    by_cases hc : p c
    · obtain ⟨hlen, hseg⟩ := ih []
      simp only [List.splitOnPPrepend, hc, if_true, List.length_cons, List.countP_cons_of_pos]
      refine ⟨by omega, fun seg hmem => ?_⟩
      rcases List.mem_cons.mp hmem with rfl | hmem
      · exact ⟨fun b hb => Or.inl (by simpa using hb), by simp⟩
      · obtain ⟨hin, hle⟩ := hseg seg hmem
        refine ⟨fun b hb => Or.inr (List.mem_cons_of_mem _ (by simpa using hin b hb)), ?_⟩
        simp only [List.length_nil] at hle
        omega
    · obtain ⟨hlen, hseg⟩ := ih (c :: acc)
      simp only [List.splitOnPPrepend, hc, if_false, Bool.false_eq_true, not_false_eq_true,
        List.countP_cons_of_neg]
      refine ⟨hlen, fun seg hmem => ?_⟩
      obtain ⟨hin, hle⟩ := hseg seg hmem
      refine ⟨fun b hb => ?_, by simp only [List.length_cons] at hle ⊢; omega⟩
      rcases hin b hb with h | h
      · rcases List.mem_cons.mp h with rfl | h
        · exact Or.inr (by simp)
        · exact Or.inl h
      · exact Or.inr (List.mem_cons_of_mem _ h)

theorem segments_length (s : List UInt8) :
    (s.splitOn ampersand).length = s.count ampersand + 1 :=
  (splitOnPPrepend_spec (· == ampersand) s []).1

theorem segment_spec {s seg : List UInt8} (h : seg ∈ s.splitOn ampersand) (hs : 0 ∉ s) :
    0 ∉ seg ∧ seg.length ≤ s.length := by
  obtain ⟨hin, hle⟩ := (splitOnPPrepend_spec (· == ampersand) s []).2 seg h
  refine ⟨fun h0 => hs (by simpa using hin 0 h0), by simpa using hle⟩

/-- A buffer reads as the segment just copied into it exactly when it already held a NUL at
the segment's end. -/
theorem cstr_overlay_iff (bytes seg : List UInt8) (h : 0 ∉ seg) :
    cstr (overlay bytes seg) = some seg ↔ bytes[seg.length]? = some 0 := by
  rw [overlay, cstr_append_iff seg _ h, List.head?_drop]

theorem overlay_zero_iff (bytes seg : List UInt8) (h : 0 ∉ seg) (n : ℕ) :
    (overlay bytes seg)[n]? = some 0 ↔ seg.length ≤ n ∧ bytes[n]? = some 0 := by
  rw [overlay_getElem?]
  split_ifs with hn
  · have hne : seg[n]? ≠ some 0 := fun h0 => h (List.mem_of_getElem? h0)
    simp only [hne, not_le.mpr hn, false_and]
  · simp [not_lt.mp hn]

/-- Each process reads back its own segment. -/
def ReadsOwnSegments (bytes : List UInt8) (segs : List (List UInt8)) : Prop :=
  (filledWith bytes segs).map cstr = segs.map some

/-- No segment is shorter than an earlier one, and the block held a NUL at each segment's end. -/
def Terminated (bytes : List UInt8) (segs : List (List UInt8)) : Prop :=
  segs.Pairwise (fun a b => a.length ≤ b.length) ∧ ∀ seg ∈ segs, bytes[seg.length]? = some 0

instance (bytes : List UInt8) (segs : List (List UInt8)) : Decidable (Terminated bytes segs) :=
  inferInstanceAs (Decidable (_ ∧ _))

theorem readsOwnSegments_iff (bytes : List UInt8) (segs : List (List UInt8))
    (h : ∀ seg ∈ segs, 0 ∉ seg) : ReadsOwnSegments bytes segs ↔ Terminated bytes segs := by
  induction segs generalizing bytes with
  | nil => simp [ReadsOwnSegments, Terminated, filledWith]
  | cons seg segs ih =>
    have hseg : 0 ∉ seg := h seg (by simp)
    have htail := ih (overlay bytes seg) (fun t ht => h t (List.mem_cons_of_mem _ ht))
    have hsplit : ReadsOwnSegments bytes (seg :: segs) ↔
        bytes[seg.length]? = some 0 ∧ ReadsOwnSegments (overlay bytes seg) segs := by
      simp only [ReadsOwnSegments, filledWith, List.map_cons, List.cons.injEq,
        cstr_overlay_iff bytes seg hseg]
    rw [hsplit, htail]
    simp only [Terminated, overlay_zero_iff bytes seg hseg, List.pairwise_cons,
      List.mem_cons, forall_eq_or_imp]
    constructor
    · rintro ⟨h0, hpair, hall⟩
      exact ⟨⟨fun t ht => (hall t ht).1, hpair⟩, h0, fun t ht => (hall t ht).2⟩
    · rintro ⟨⟨hle, hpair⟩, h0, hall⟩
      exact ⟨h0, hpair, fun t ht => ⟨hle t ht, hall t ht⟩⟩

/-- `parallelize` returns in one process for each segment, and each of them finds its own
segment in `*readBuf`. -/
def SplitsCommands (s : List UInt8) (out : Option (List Buffer)) : Prop :=
  ∃ procs, out = some procs ∧ procs.length = s.count ampersand + 1 ∧
    procs.map (fun b => cstr b.bytes) = (s.splitOn ampersand).map some

theorem splitsCommands_iff {s bytes : List UInt8} {out : Option (List Buffer)}
    (h : out.map (·.map Buffer.bytes) = some (filledWith bytes (s.splitOn ampersand))) :
    SplitsCommands s out ↔ ReadsOwnSegments bytes (s.splitOn ampersand) := by
  obtain ⟨procs, rfl⟩ : ∃ procs, out = some procs := by
    cases out with
    | none => simp at h
    | some procs => exact ⟨procs, rfl⟩
  rw [Option.map_some, Option.some.injEq] at h
  have hlen : procs.length = s.count ampersand + 1 := by
    rw [← segments_length, ← filledWith_length bytes, ← h, List.length_map]
  rw [ReadsOwnSegments, ← h]
  simp [SplitsCommands, hlen, Function.comp_def]

/-- The processes are always as many as the segments; they read the segments back exactly
when no segment is shorter than an earlier one and malloc's block has its NULs in place. -/
theorem parallelize_splits_iff (fork : ℕ → Bool) (hfork : ∀ i, fork i = true)
    (malloced readBuff : Buffer) (s tail : List UInt8) (hs : 0 ∉ s)
    (hline : readBuff.bytes = s ++ 0 :: tail) :
    SplitsCommands s (parallelize fork malloced readBuff) ↔
      Terminated malloced.bytes (s.splitOn ampersand) := by
  rw [splitsCommands_iff (parallelize_eq fork hfork malloced readBuff s tail hs hline)]
  exact readsOwnSegments_iff _ _ (fun seg h => (segment_spec h hs).1)

/-- A block that holds the text `s` and NULs behind it. -/
def zeroPadded (s : List UInt8) (h : s.length < TOTALSIZE) : Buffer :=
  ⟨s ++ 0 :: List.replicate (TOTALSIZE - 1 - s.length) 0, by
    have : TOTALSIZE = 1000 := rfl
    simp only [List.length_append, List.length_cons, List.length_replicate]
    omega⟩

/-- `ls&ls -l`: the lengths grow and the block is zeroed, so the splitter works. -/
theorem parallelize_splits_growing :
    SplitsCommands [108, 115, 38, 108, 115, 32, 45, 108]
      (parallelize (fun _ => true) (zeroPadded [] (by decide))
        (zeroPadded [108, 115, 38, 108, 115, 32, 45, 108] (by decide))) :=
  (parallelize_splits_iff (fun _ => true) (fun _ => rfl) _ _ _ _ (by decide) rfl).mpr (by decide)

/-- `ab&c` on a zeroed block: the child finds `cb` in its buffer, not `c`. -/
theorem parallelize_mixes_segments :
    ¬ SplitsCommands [97, 98, 38, 99]
      (parallelize (fun _ => true) (zeroPadded [] (by decide))
        (zeroPadded [97, 98, 38, 99] (by decide))) := by
  rw [splitsCommands_iff (parallelize_eq (fun _ => true) (fun _ => rfl) _ _ _ _ (by decide) rfl),
    ReadsOwnSegments]
  decide

end Ostep.WishParallelize

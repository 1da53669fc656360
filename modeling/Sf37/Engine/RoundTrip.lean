/-
Sf37.Engine.RoundTrip — a session that was saved is restored with its tokens, its vectors
and the rows that were saved, at the same positions.

* `Savable`: what a session must have to be saved, and to be taken back.
* `payload_roundTrip`, `snapshot_roundTrip`: the two formats.
-/
import Sf37.Engine.RowsBack

namespace Sf37.Engine

open Sf37.Text Sf37.Store
open Sf37.Server (Token Tokens)

variable {dev dev' : Device} {s t : Session} {il : Nat}

/-! ## Sessions that can be saved -/

/-- The same backend, context size and layer capacities. -/
structure SameLayout (dev dev' : Device) : Prop where
  cuda : dev'.cuda = dev.cuda
  ctxSize : dev'.ctxSize = dev.ctxSize
  cacheCap : ∀ il < mainLayers, dev'.cacheCap il = dev.cacheCap il

theorem SameLayout.refl (dev : Device) : SameLayout dev dev := ⟨rfl, rfl, fun _ _ => rfl⟩

/-- The tokens fit the context and the vocabulary, and on the CPU every layer has the rows
that a loader asks for. -/
structure Savable (dev : Device) (s : Session) : Prop where
  length_le : s.checkpoint.length ≤ dev.ctxSize
  tokens_lt : ∀ t ∈ s.checkpoint, t < vocabSize
  counters : dev.cuda = false → ∀ il < mainLayers,
    min s.checkpoint.length (if layerIsFull il then s.checkpoint.length else slidingWindow) ≤
      (s.layer il).n

/-- The rows that are saved of a layer. -/
theorem Savable.rows (h : Savable dev s) (hil : il < mainLayers) :
    sessionLayerLiveKvRows dev s il ≤ s.checkpoint.length ∧
      sessionLayerLiveKvRows dev s il ≤ dev.cacheCap il ∧
      (layerIsFull il = true → sessionLayerLiveKvRows dev s il = s.checkpoint.length) ∧
      (layerIsFull il = false →
        min s.checkpoint.length slidingWindow ≤ sessionLayerLiveKvRows dev s il) ∧
      (dev.cuda = false → sessionLayerLiveKvRows dev s il ≤ (s.layer il).n) := by
  have hlen := h.length_le
  have hwin := dev.window_le_cacheCap il
  have hcap := dev.cacheCap_pos il
  have hrows : sessionLayerLiveKvRows dev s il =
      if ¬ dev.cuda ∧ ¬ layerIsFull il ∧ (s.layer il).n ≠ 0 ∧
          (s.layer il).n < min s.checkpoint.length (dev.cacheCap il) then (s.layer il).n
      else min s.checkpoint.length (dev.cacheCap il) := by
    have hmin : (if dev.cacheCap il ≠ 0 ∧ dev.cacheCap il < s.checkpoint.length then dev.cacheCap il
        else s.checkpoint.length) = min s.checkpoint.length (dev.cacheCap il) := by
      split <;> omega
    rw [sessionLayerLiveKvRows, sessionLiveKvRows_eq hlen, dev.layerKvCap_eq hil, hmin]
    simp only [hil, true_and]
  rw [hrows]
  cases hfull : layerIsFull il with
  | true =>
    have hctx := dev.cacheCap_of_full hfull
    rw [if_neg (by simp)]
    refine ⟨by omega, by omega, fun _ => by omega, (fun h => by cases h), fun hcpu => ?_⟩
    have hc := h.counters hcpu il hil
    rw [hfull] at hc
    simp only [if_true] at hc
    omega
  | false =>
    have hsliding : dev.cuda = false → min s.checkpoint.length slidingWindow ≤ (s.layer il).n := by
      intro hcpu
      have hc := h.counters hcpu il hil
      rw [hfull] at hc
      simpa using hc
    cases hcuda : dev.cuda with
    | true =>
      rw [if_neg (by simp)]
      exact ⟨by omega, by omega, (fun h => by cases h), fun _ => by omega, fun h => by cases h⟩
    | false =>
      have hc := hsliding hcuda
      have hctx := dev.cacheCap_of_cpu hcuda il
      have hw : slidingWindow = 512 := rfl
      split
      next hn =>
        exact ⟨by omega, by omega, (fun h => by cases h), fun _ => hc, fun _ => Nat.le_refl _⟩
      next hn =>
        refine ⟨by omega, by omega, (fun h => by cases h), fun _ => by omega, fun _ => ?_⟩
        by_contra hlt
        refine hn ⟨by simp, by simp, ?_, by omega⟩
        omega

/-! ## The front -/

/-- The front that a loader finds of a saved session. -/
def savedLoadFront (dev : Device) (s : Session) : LoadFront :=
  ⟨s.checkpoint, sessionKvRowCounts dev s⟩

theorem savedLoadFront_rows (hil : il < mainLayers) :
    (savedLoadFront dev s).rows il = sessionLayerLiveKvRows dev s il := by
  show ((List.range mainLayers).map (sessionLayerLiveKvRows dev s)).getD il 0 = _
  rw [List.getD_eq_getElem?_getD, List.getElem?_map, List.getElem?_range hil]
  rfl

theorem rowCountsError_saved (hl : SameLayout dev dev') (h : Savable dev s) (what : String) :
    rowCountsError dev' what (sessionLiveKvRows dev s) (sessionKvRowCounts dev s) = none := by
  refine List.findSome?_eq_none_iff.mpr fun il hmem => ?_
  have hil := List.mem_range.mp hmem
  have hcap := hl.cacheCap il hil
  obtain ⟨hle, hfits, hfull, hsliding, -⟩ := h.rows hil
  have hrows : (sessionKvRowCounts dev s).getD il 0 = sessionLayerLiveKvRows dev s il :=
    savedLoadFront_rows hil
  rw [hrows, sessionLiveKvRows_eq h.length_le, rowCountError, dev'.layerKvCap_eq hil, hcap,
    if_neg (by omega), if_neg, if_neg, if_neg (by omega)]
  · rintro ⟨hs, hlt⟩
    have := hsliding (by simpa using hs)
    split at hlt <;> omega
  · rintro ⟨hf, hne⟩
    exact hne (hfull hf)

theorem Savable.length_lt (h : Savable dev s) : s.checkpoint.length < 2 ^ 32 :=
  length_lt_of_le h.length_le

theorem payloadHeaderError_saved (hl : SameLayout dev dev') (h : Savable dev s) :
    payloadHeaderError dev' (payloadExpectedBytes s.checkpoint.length (sessionLiveKvRowSum dev s))
      (payloadHeader dev s) (sessionKvRowCounts dev s) = none := by
  have hlen := h.length_le
  have hlive := sessionLiveKvRows_eq hlen
  rw [payloadHeaderError]
  show (if dev'.ctxSize < dev.ctxSize ∨ dev'.ctxSize < s.checkpoint.length then _ else
    if s.checkpoint.length < sessionLiveKvRows dev s ∨ sessionLiveKvRows dev s ≠
      (if s.checkpoint.length < dev.ctxSize then s.checkpoint.length else dev.ctxSize) then _ else
    _) = none
  rw [if_neg (by rw [hl.ctxSize]; omega), if_neg]
  · erw [rowCountsError_saved hl h]
    dsimp only
    rw [if_neg, if_neg]
    · exact fun hne => hne rfl
    · rintro (h | h | h | h | h | h | h | h | h) <;> exact h rfl
  · rw [hlive]
    rintro (hlt | hne)
    · omega
    · refine hne ?_
      split <;> omega

theorem payloadFront_saved (hl : SameLayout dev dev') (h : Savable dev s) (rest : Bytes) (m : Nat) :
    payloadFront dev' (payloadExpectedBytes s.checkpoint.length (sessionLiveKvRowSum dev s))
        ⟨u32s (payloadHeader dev s) ++ (u32s (sessionKvRowCounts dev s) ++
            (u32s s.checkpoint ++ rest)),
          payloadU32Fields * 4 + (mainLayers * 4 + (s.checkpoint.length * 4 + m))⟩ =
      .ok (savedLoadFront dev s, ⟨rest, m⟩) := by
  have hread := readU32s_append (payloadHeader dev s) (u32s (sessionKvRowCounts dev s) ++
    (u32s s.checkpoint ++ rest)) (mainLayers * 4 + (s.checkpoint.length * 4 + m))
    (payloadHeader_lt dev h.length_lt)
  have hfields : (payloadHeader dev s).length = payloadU32Fields := rfl
  have hcounts := readU32s_append (sessionKvRowCounts dev s) (u32s s.checkpoint ++ rest)
    (s.checkpoint.length * 4 + m) (counts_lt dev s)
  have htokens := readTokens_append s.checkpoint rest m h.tokens_lt
  rw [hfields] at hread
  rw [length_sessionKvRowCounts] at hcounts
  rw [payloadFront, hread]
  dsimp only
  rw [if_neg, hcounts]
  · dsimp only
    rw [payloadHeaderError_saved hl h]
    dsimp only
    have hcount : (payloadHeader dev s).getD 3 0 = s.checkpoint.length := rfl
    rw [hcount, htokens]
    rfl
  · rintro (h | h) <;> exact h rfl

theorem snapshotHeaderError_saved (hl : SameLayout dev dev') (h : Savable dev s) :
    snapshotHeaderError dev' (snapshotHeader dev s) (sessionKvRowCounts dev s) = none := by
  have hlen := h.length_le
  have hlive := sessionLiveKvRows_eq hlen
  rw [snapshotHeaderError]
  show (if dev.ctxSize ≠ dev'.ctxSize then _ else
    if dev'.ctxSize < s.checkpoint.length ∨ s.checkpoint.length < sessionLiveKvRows dev s ∨
      sessionLiveKvRows dev s ≠
      (if s.checkpoint.length < dev.ctxSize then s.checkpoint.length else dev.ctxSize) then _ else
    _) = none
  rw [if_neg (not_not.mpr hl.ctxSize.symm), if_neg]
  · erw [rowCountsError_saved hl h]
    dsimp only
    rw [if_neg]
    rintro (h | h | h | h | h) <;> exact h rfl
  · rw [hlive, hl.ctxSize]
    rintro (hlt | hlt | hne)
    · omega
    · omega
    · refine hne ?_
      split <;> omega

theorem snapshotFront_saved (hl : SameLayout dev dev') (h : Savable dev s) (rest : Bytes) (m : Nat) :
    snapshotFront dev' ⟨u32s (snapshotHeader dev s) ++ (u32s (sessionKvRowCounts dev s) ++
            (u32s s.checkpoint ++ rest)),
          snapshotU32Fields * 4 + (mainLayers * 4 + (s.checkpoint.length * 4 + m))⟩ =
      .ok (savedLoadFront dev s, ⟨rest, m⟩) := by
  have hread := readU32s_append (snapshotHeader dev s) (u32s (sessionKvRowCounts dev s) ++
    (u32s s.checkpoint ++ rest)) (mainLayers * 4 + (s.checkpoint.length * 4 + m))
    (snapshotHeader_lt dev h.length_lt)
  have hfields : (snapshotHeader dev s).length = snapshotU32Fields := rfl
  have hcounts := readU32s_append (sessionKvRowCounts dev s) (u32s s.checkpoint ++ rest)
    (s.checkpoint.length * 4 + m) (counts_lt dev s)
  have htokens := readTokens_append s.checkpoint rest m h.tokens_lt
  rw [hfields] at hread
  rw [length_sessionKvRowCounts] at hcounts
  rw [snapshotFront, hread]
  dsimp only
  rw [if_neg, hcounts]
  · dsimp only
    rw [snapshotHeaderError_saved hl h]
    dsimp only
    have hcount : (snapshotHeader dev s).getD 3 0 = s.checkpoint.length := rfl
    rw [hcount, htokens]
    rfl
  · rintro (h | h) <;> exact h rfl

/-- The front of a savable session fits the session and a device of the same layout. -/
theorem Savable.savedRows (hl : SameLayout dev dev') (h : Savable dev s) :
    SavedRows dev dev' s (savedLoadFront dev s) where
  length_eq := rfl
  rows_eq _ hil := savedLoadFront_rows hil
  rows_le _ hil := (h.rows hil).1
  rows_le_cap il hil := hl.cacheCap il hil ▸ (h.rows hil).2.1
  rows_le_n hcpu _ hil := (h.rows hil).2.2.2.2 hcpu

/-! ## The whole session -/

theorem cpuRowsMissing_eq (h : Savable dev s) : cpuRowsMissing dev s = false := by
  rw [cpuRowsMissing]
  cases hcuda : dev.cuda with
  | true => rfl
  | false =>
    simp only [Bool.false_eq_true, not_false_eq_true, decide_true, Bool.true_and,
      List.any_eq_false, List.mem_range, decide_eq_true_eq, not_lt]
    exact fun il hil => (h.rows hil).2.2.2.2 hcuda

theorem sessionPayloadBytes_eq (hvalid : s.checkpointValid = true) :
    sessionPayloadBytes dev s =
      payloadExpectedBytes s.checkpoint.length (sessionLiveKvRowSum dev s) := by
  rw [sessionPayloadBytes, if_neg (not_not.mpr hvalid)]
  rfl

/-- The payload of a session is read back whole, whatever stands behind it. -/
theorem payload_roundTrip (hl : SameLayout dev dev') (h : Savable dev s)
    (hvalid : s.checkpointValid = true) (codec : KvCodec) (t : Session) (rest : Bytes) :
    ∃ b t', sessionSavePayload dev codec s = some b ∧ b.length = sessionPayloadBytes dev s ∧
      sessionLoadPayload dev' codec .ok t (b ++ rest) b.length = (t', none) ∧
      Restored dev dev' (fun row => codec.decode (codec.encode row)) s s.checkpoint t' := by
  have hsave := sessionSavePayload_eq dev codec hvalid (cpuRowsMissing_eq h)
  obtain ⟨rows, hrows⟩ : ∃ rows, rows =
    (List.range mainLayers).flatMap (rowPairs (fun row => (codec.encode row).1) dev s) := ⟨_, rfl⟩
  obtain ⟨t', hload, hrestored⟩ := restoreSession_saved (h.savedRows hl)
    (fun il hil layer rest m => restorePayloadLayer_saved (h.savedRows hl) hil codec layer rest m)
    "payload"
    "truncated session payload" { t with imageSignature := none } rest
  rw [← hrows] at hsave hload
  have hlen := length_sessionSavePayload hsave
  refine ⟨_, t', hsave, hlen, ?_, hrestored⟩
  have hpos : payloadExpectedBytes s.checkpoint.length (sessionLiveKvRowSum dev s) ≠ 0 := by
    rw [payloadExpectedBytes, payloadU32Fields]
    omega
  have hcount : payloadExpectedBytes s.checkpoint.length (sessionLiveKvRowSum dev s) =
      payloadU32Fields * 4 + (mainLayers * 4 + (s.checkpoint.length * 4 +
        (logitsBytes + (hiddenBytes + rows.length)))) := by
    have hl' : rows.length = sessionLiveKvRowSum dev s * (2 * encodedRow) := by
      rw [hrows]
      exact length_layers dev s (length_rowPairs (fun row => (codec.encode row).2) dev s)
    rw [hl', payloadExpectedBytes, Nat.mul_assoc, logitsBytes, hiddenBytes]
    simp only [Nat.add_assoc]
  have hfront := payloadFront_saved hl h (s.logits.1 ++ (s.hidden.1 ++ (rows ++ rest)))
    (logitsBytes + (hiddenBytes + rows.length))
  rw [hlen, sessionPayloadBytes_eq hvalid, sessionLoadPayload, if_neg hpos, savedFront]
  simp only [List.append_assoc]
  rw [← hcount] at hfront
  rw [hfront]
  exact hload

/-- The snapshot of a session is read back. -/
theorem snapshot_roundTrip (hl : SameLayout dev dev') (h : Savable dev s)
    (hvalid : s.checkpointValid = true) (cap : Nat) (t : Session) :
    ∃ b t', sessionSaveSnapshot dev cap s = some b ∧ b.length = sessionSnapshotBytes dev s ∧
      sessionLoadSnapshot dev' .ok t b = (t', none) ∧ Restored dev dev' id s s.checkpoint t' := by
  have hsave := sessionSaveSnapshot_eq dev cap hvalid (cpuRowsMissing_eq h)
  have hlen := length_snapshot dev hvalid
  obtain ⟨t', hload, hrestored⟩ := restoreSession_saved (h.savedRows hl)
    (fun il hil layer rest m => restoreSnapshotLayer_saved (h.savedRows hl) hl.cuda hil layer rest m)
    "snapshot"
    "truncated session snapshot logits/hidden" { t with imageSignature := none } []
  refine ⟨_, t', hsave, hlen, ?_, hrestored⟩
  have hheader : (snapshotHeader dev s).length = snapshotU32Fields := rfl
  obtain ⟨rows, hrows⟩ : ∃ rows, rows = snapshotRows dev s := ⟨_, rfl⟩
  have hcount : (u32s (snapshotHeader dev s) ++ (savedFront dev s ++ rows)).length =
      snapshotU32Fields * 4 + (mainLayers * 4 + (s.checkpoint.length * 4 +
        (logitsBytes + (hiddenBytes + rows.length)))) := by
    rw [List.length_append, List.length_append, length_u32s, hheader, length_savedFront, logitsBytes,
      hiddenBytes]
    simp only [Nat.add_assoc]
  have hfront := snapshotFront_saved hl h (s.logits.1 ++ (s.hidden.1 ++ (rows ++ [])))
    (logitsBytes + (hiddenBytes + rows.length))
  have hpos : snapshotU32Fields * 4 + (mainLayers * 4 + (s.checkpoint.length * 4 +
      (logitsBytes + (hiddenBytes + rows.length)))) ≠ 0 := by
    rw [snapshotU32Fields]
    omega
  rw [← hrows, sessionLoadSnapshot, hcount, if_neg hpos, savedFront]
  simp only [List.append_assoc]
  rw [List.append_nil] at hfront
  rw [hfront]
  rw [List.append_nil] at hload
  rw [hrows]
  exact hload

end Sf37.Engine

/-
Sf37.Engine.SavedFiles — what a session has after it took a file that some session saved,
whatever its device and whatever its GPU did on the way.

* `restoreSession_onlyOk`: a load that succeeds is one in which no write failed.
* `payload_tokens`, `payload_logits`, `snapshot_logits`: the tokens and the logits are back.
* `payload_restored`, `snapshot_restored`: so are the saved rows, of a snapshot on the same
  backend.
-/
import Sf37.Engine.RoundTrip
import Sf37.Engine.LoadOutcome

namespace Sf37.Engine

open Sf37.Text Sf37.Store
open Sf37.Server (Token Tokens)

variable {dev dev' : Device} {codec : KvCodec} {gpu : GpuWrites} {s t : Session} {file rest : Bytes}
  {payloadBytes cap : Nat}

/-- A payload that is saved is of a valid session with all its rows. -/
theorem sessionSavePayload_some (h : sessionSavePayload dev codec s = some file) :
    s.checkpointValid = true ∧ ¬ cpuRowsMissing dev s = true ∧
      u32s (payloadHeader dev s) ++ (savedFront dev s ++
        (List.range mainLayers).flatMap (rowPairs (fun row => (codec.encode row).1) dev s)) = file := by
  rw [sessionSavePayload] at h
  split at h
  · cases h
  next hvalid =>
    split at h
    · cases h
    next hmissing => exact ⟨not_not.mp hvalid, hmissing, Option.some.inj h⟩

/-- A snapshot that is saved is of a valid session with all its rows. -/
theorem sessionSaveSnapshot_some (h : sessionSaveSnapshot dev cap s = some file) :
    s.checkpointValid = true ∧ ¬ cpuRowsMissing dev s = true ∧
      u32s (snapshotHeader dev s) ++ (savedFront dev s ++ snapshotRows dev s) = file := by
  rw [sessionSaveSnapshot] at h
  split at h
  · cases h
  next hvalid =>
    dsimp only at h
    by_cases hno : cpuRowsMissing dev s = true ∨
        (if cap < sessionSnapshotBytes dev s then sessionSnapshotBytes dev s else cap) <
          (u32s (snapshotHeader dev s) ++ (savedFront dev s ++ snapshotRows dev s)).length
    · rw [if_pos hno] at h
      cases h
    · rw [if_neg hno] at h
      exact ⟨not_not.mp hvalid, fun hm => hno (Or.inl hm), Option.some.inj h⟩

/-! ## Writes that succeed -/

theorem restoreRows_onlyOk {rd : RowReader} {slot : Nat → Nat} {n rr : Nat}
    {layer layer' : LayerCache} {src src' : Source}
    (h : restoreRows rd slot n rr layer src = (layer', .ok src')) :
    restoreRows { rd with writeOk := fun _ _ => true } slot n rr layer src = (layer', .ok src') := by
  induction n generalizing rr layer src with
  | zero => exact h
  | succ n ih =>
    rw [restoreRows] at h ⊢
    dsimp only at h ⊢
    cases hk : readBytes rd.width src with
    | mk k mid =>
      rw [hk] at h
      cases mid with
      | none => cases h
      | some mid =>
        dsimp only at h ⊢
        rw [if_neg (not_not.mpr rfl)]
        split at h
        · cases h
        cases hv : readBytes rd.width mid with
        | mk v mid' =>
          rw [hv] at h
          cases mid' with
          | none => cases h
          | some mid' =>
            dsimp only at h ⊢
            rw [if_neg (not_not.mpr rfl)]
            split at h
            · cases h
            · exact ih h

theorem restorePayloadLayer_onlyOk {front : LoadFront} {il : Nat} {layer layer' : LayerCache}
    {src src' : Source}
    (h : restorePayloadLayer dev codec gpu front il layer src = (layer', .ok src')) :
    restorePayloadLayer dev codec .ok front il layer src = (layer', .ok src') := by
  have hok : payloadRowReader dev codec .ok il =
      { payloadRowReader dev codec gpu il with writeOk := fun _ _ => true } := by
    have hall : (fun (rr : Nat) (v : Bool) => ¬ dev.cuda || GpuWrites.ok.row il rr v) =
        fun _ _ => true := by
      funext rr v
      exact Bool.or_true _
    rw [payloadRowReader, hall]
    rfl
  rw [restorePayloadLayer] at h ⊢
  split at h
  · cases h
  next heq =>
    rw [hok, restoreRows_onlyOk heq]
    exact h

theorem restoreSnapshotLayer_onlyOk {front : LoadFront} {il : Nat} {layer layer' : LayerCache}
    {src src' : Source}
    (h : restoreSnapshotLayer dev gpu front il layer src = (layer', .ok src')) :
    restoreSnapshotLayer dev .ok front il layer src = (layer', .ok src') := by
  rw [restoreSnapshotLayer] at h ⊢
  by_cases hcuda : dev.cuda = true
  · rw [if_pos hcuda] at h ⊢
    exact restoreRows_onlyOk h
  · rw [if_neg hcuda] at h ⊢
    exact h

theorem restoreLayers_onlyOk
    {step step' : Nat → LayerCache → Source → LayerCache × Except String Source}
    (hstep : ∀ il layer layer' src src', step il layer src = (layer', .ok src') →
      step' il layer src = (layer', .ok src')) (ils : List Nat) {src src' : Source}
    (h : restoreLayers step ils s src = (t, .ok src')) :
    restoreLayers step' ils s src = (t, .ok src') := by
  induction ils generalizing s src with
  | nil => exact h
  | cons il ils ih =>
    rw [restoreLayers] at h ⊢
    split at h
    · cases h
    next layer mid heq =>
      rw [hstep il _ _ _ _ heq]
      exact ih h

/-- A load that succeeds is one in which no write failed. -/
theorem restoreSession_onlyOk
    {step step' : Nat → LayerCache → Source → LayerCache × Except String Source}
    (hstep : ∀ il layer layer' src src', step il layer src = (layer', .ok src') →
      step' il layer src = (layer', .ok src')) {what vectorsTruncated : String} {front : LoadFront}
    {src : Source} (h : (restoreSession dev gpu step what vectorsTruncated s front src).2 = none) :
    restoreSession dev .ok step' what vectorsTruncated s front src =
      restoreSession dev gpu step what vectorsTruncated s front src := by
  rw [restoreSession] at h
  rw [restoreSession, restoreSession]
  cases hvec : restoreVectors s src with
  | mk s' rest =>
    rw [hvec] at h
    cases rest with
    | none => cases h
    | some src' =>
      dsimp only at h ⊢
      cases hlay : restoreLayers step (List.range mainLayers)
        { s' with checkpointValid := false } src' with
      | mk s'' res =>
        rw [hlay] at h
        cases res with
        | error e => cases h
        | ok src'' =>
          rw [restoreLayers_onlyOk hstep _ hlay]
          dsimp only at h ⊢
          split at h
          · cases h
          next hscratch => rw [if_neg hscratch, if_neg (by simp [GpuWrites.ok])]

/-! ## The front of a saved file -/

theorem u32At_append {vs : List Nat} (rest : Bytes) (h : ∀ v ∈ vs, v < 2 ^ 32) {i : Nat}
    (hi : i < vs.length) : u32At (u32s vs ++ rest) i = vs.getD i 0 := by
  have hread := readU32s_values (readU32s_append vs rest 0 h)
  dsimp only at hread
  conv_rhs => rw [hread]
  exact (getD_map_range _ hi).symm

theorem u32s_append (vs ws : List Nat) : u32s (vs ++ ws) = u32s vs ++ u32s ws :=
  List.flatMap_append

/-- The row counts stand behind the header. -/
theorem rowCountsAt_append {header counts : List Nat} (rest : Bytes)
    (hheader : ∀ v ∈ header, v < 2 ^ 32) (hcounts : ∀ v ∈ counts, v < 2 ^ 32)
    (hlen : counts.length = mainLayers) :
    rowCountsAt header.length (u32s header ++ (u32s counts ++ rest)) = counts := by
  have hall : ∀ v ∈ header ++ counts, v < 2 ^ 32 := fun v hv =>
    (List.mem_append.mp hv).elim (hheader v) (hcounts v)
  have hget : ∀ il < mainLayers,
      u32At (u32s header ++ (u32s counts ++ rest)) (header.length + il) = counts.getD il 0 := by
    intro il hil
    rw [← List.append_assoc, ← u32s_append, u32At_append rest hall (by
      rw [List.length_append]
      omega), List.getD_eq_getElem?_getD, List.getElem?_append_right (Nat.le_add_right _ _),
      Nat.add_sub_cancel_left, List.getD_eq_getElem?_getD]
  refine List.ext_getElem (by rw [rowCountsAt, List.length_map, List.length_range, hlen])
    fun i h₁ h₂ => ?_
  have hi : i < mainLayers := hlen ▸ h₂
  simp only [rowCountsAt, List.getElem_map, List.getElem_range]
  rw [hget i hi, List.getD_eq_getElem?_getD, List.getElem?_eq_getElem h₂]
  rfl

/-- The tokens stand behind the row counts. -/
theorem tokensAt_append {header counts : List Nat} {tokens : Tokens} (rest : Bytes)
    (hheader : ∀ v ∈ header, v < 2 ^ 32) (hcounts : ∀ v ∈ counts, v < 2 ^ 32)
    (htokens : ∀ t ∈ tokens, t < 2 ^ 32) (hlen : counts.length = mainLayers)
    (hthree : 3 < header.length) (hcount : header.getD 3 0 = tokens.length) :
    tokensAt header.length (u32s header ++ (u32s counts ++ (u32s tokens ++ rest))) = tokens := by
  have hall : ∀ v ∈ header ++ (counts ++ tokens), v < 2 ^ 32 := by
    intro v hv
    rcases List.mem_append.mp hv with hv | hv
    · exact hheader v hv
    · exact (List.mem_append.mp hv).elim (hcounts v) (htokens v)
  have hget : ∀ i < tokens.length,
      u32At (u32s header ++ (u32s counts ++ (u32s tokens ++ rest))) (header.length + mainLayers + i) =
        tokens.getD i 0 := by
    intro i hi
    have hjoin : u32s header ++ (u32s counts ++ (u32s tokens ++ rest)) =
        u32s (header ++ (counts ++ tokens)) ++ rest := by
      simp only [u32s_append, List.append_assoc]
    rw [hjoin, u32At_append rest hall (by simp only [List.length_append]; omega),
      List.getD_eq_getElem?_getD, List.getElem?_append_right (by omega),
      List.getElem?_append_right (by omega), List.getD_eq_getElem?_getD]
    have hindex : header.length + mainLayers + i - header.length - counts.length = i := by omega
    rw [hindex]
  rw [tokensAt, u32At_append _ hheader hthree, hcount]
  refine List.ext_getElem (by rw [List.length_map, List.length_range]) fun i _ h₂ => ?_
  simp only [List.getElem_map, List.getElem_range]
  rw [hget i h₂, List.getD_eq_getElem?_getD, List.getElem?_eq_getElem h₂]
  rfl

/-- The vectors and the rows stand behind the front of a saved session. -/
theorem drop_savedFront (header : List Nat) (dev : Device) (s : Session) (rows rest : Bytes) :
    (u32s header ++ (savedFront dev s ++ rows) ++ rest).drop
        (frontBytes header.length s.checkpoint.length) =
      s.logits.1 ++ (s.hidden.1 ++ (rows ++ rest)) := by
  have hlen : (u32s header ++ (u32s (sessionKvRowCounts dev s) ++ u32s s.checkpoint)).length =
      frontBytes header.length s.checkpoint.length := by
    rw [List.length_append, List.length_append, length_u32s, length_u32s, length_u32s,
      length_sessionKvRowCounts, frontBytes]
    omega
  have hsplit : u32s header ++ (savedFront dev s ++ rows) ++ rest =
      (u32s header ++ (u32s (sessionKvRowCounts dev s) ++ u32s s.checkpoint)) ++
        (s.logits.1 ++ (s.hidden.1 ++ (rows ++ rest))) := by
    rw [savedFront]
    simp only [List.append_assoc]
  rw [hsplit, List.drop_left' hlen]

theorem sessionLayerLiveKvRows_le (dev : Device) (s : Session) (il : Nat) :
    sessionLayerLiveKvRows dev s il ≤ s.checkpoint.length := by
  have hlive : sessionLiveKvRows dev s ≤ s.checkpoint.length := by
    rw [sessionLiveKvRows]
    split <;> omega
  rw [sessionLayerLiveKvRows]
  split <;> split at * <;> omega

/-- A saved file has no rows missing. -/
theorem rows_le_n (hmissing : ¬ cpuRowsMissing dev s = true) (hcpu : dev.cuda = false) {il : Nat}
    (hil : il < mainLayers) : sessionLayerLiveKvRows dev s il ≤ (s.layer il).n := by
  by_contra hlt
  refine hmissing ?_
  rw [cpuRowsMissing, Bool.and_eq_true, List.any_eq_true]
  exact ⟨by simp [hcpu], il, List.mem_range.mpr hil, decide_eq_true (Nat.lt_of_not_le hlt)⟩

/-! ## The tokens and the logits -/

/-- A saved payload that is accepted gives back the tokens it was saved with. -/
theorem payload_tokens {codec' : KvCodec} (hlen : s.checkpoint.length < 2 ^ 32)
    (ht : ∀ t ∈ s.checkpoint, t < 2 ^ 32) (hsave : sessionSavePayload dev codec s = some file)
    (h : (sessionLoadPayload dev' codec' gpu t (file ++ rest) payloadBytes).2 = none) :
    (sessionLoadPayload dev' codec' gpu t (file ++ rest) payloadBytes).1.checkpoint =
      s.checkpoint := by
  obtain ⟨-, -, htokens, -, -⟩ := payload_loaded h
  obtain ⟨-, -, rfl⟩ := sessionSavePayload_some hsave
  rw [htokens, savedFront]
  simp only [List.append_assoc]
  exact tokensAt_append _ (payloadHeader_lt dev hlen) (counts_lt dev s) ht
    (length_sessionKvRowCounts dev s) (show 3 < payloadU32Fields by decide) rfl

/-- A saved file that is accepted gives back the logits it was saved with. -/
theorem payload_logits (hlen : s.checkpoint.length ≤ dev.ctxSize)
    (hsave : sessionSavePayload dev codec s = some file)
    (h : (sessionLoadPayload dev' codec gpu t (file ++ rest) payloadBytes).2 = none) :
    (sessionLoadPayload dev' codec gpu t (file ++ rest) payloadBytes).1.logits = s.logits := by
  obtain ⟨-, -, -, hlogits, -⟩ := payload_loaded h
  obtain ⟨-, -, rfl⟩ := sessionSavePayload_some hsave
  have hcount : (payloadHeader dev s).getD 3 0 = s.checkpoint.length := rfl
  have hfields : (payloadHeader dev s).length = payloadU32Fields := rfl
  refine Subtype.ext ?_
  rw [hlogits, List.append_assoc, u32At_append _ (payloadHeader_lt dev (length_lt_of_le hlen))
      (show 3 < payloadU32Fields by decide), hcount,
    ← List.append_assoc, ← hfields, drop_savedFront, List.take_left' s.logits.2]

theorem snapshot_logits (hlen : s.checkpoint.length ≤ dev.ctxSize)
    (hsave : sessionSaveSnapshot dev cap s = some file)
    (h : (sessionLoadSnapshot dev' gpu t file).2 = none) :
    (sessionLoadSnapshot dev' gpu t file).1.logits = s.logits := by
  obtain ⟨-, -, hlogits, -⟩ := snapshot_loaded h
  obtain ⟨-, -, rfl⟩ := sessionSaveSnapshot_some hsave
  have hcount : (snapshotHeader dev s).getD 3 0 = s.checkpoint.length := rfl
  have hfields : (snapshotHeader dev s).length = snapshotU32Fields := rfl
  have hdrop := drop_savedFront (snapshotHeader dev s) dev s (snapshotRows dev s) []
  rw [List.append_nil, hfields] at hdrop
  refine Subtype.ext ?_
  rw [hlogits, u32At_append _ (snapshotHeader_lt dev (length_lt_of_le hlen))
      (show 3 < snapshotU32Fields by decide), hcount, hdrop,
    List.take_left' s.logits.2]

/-- A snapshot that is accepted gives back as many tokens. -/
theorem snapshot_length (hlen : s.checkpoint.length ≤ dev.ctxSize)
    (hsave : sessionSaveSnapshot dev cap s = some file)
    (h : (sessionLoadSnapshot dev' gpu t file).2 = none) :
    (sessionLoadSnapshot dev' gpu t file).1.checkpoint.length = s.checkpoint.length := by
  obtain ⟨-, hcount, -⟩ := snapshot_loaded h
  obtain ⟨-, -, rfl⟩ := sessionSaveSnapshot_some hsave
  rw [hcount, u32At_append _ (snapshotHeader_lt dev (length_lt_of_le hlen)) (show 3 < snapshotU32Fields by decide)]
  rfl

/-! ## The rows -/

/-- The front of a saved session that is accepted fits the rows that were saved. -/
theorem savedRows_of_front {front : LoadFront} {savedCtx : Nat}
    (hmissing : ¬ cpuRowsMissing dev s = true)
    (hok : FrontOk dev' front savedCtx) (htokens : front.tokens.length = s.checkpoint.length)
    (hcounts : front.rowCounts = sessionKvRowCounts dev s) : SavedRows dev dev' s front := by
  have hrows : ∀ il < mainLayers, front.rows il = sessionLayerLiveKvRows dev s il := by
    intro il hil
    rw [LoadFront.rows, hcounts]
    exact savedLoadFront_rows hil
  refine ⟨htokens, hrows, fun il _ => sessionLayerLiveKvRows_le dev s il, fun il hil => ?_,
    fun hcpu il hil => rows_le_n hmissing hcpu hil⟩
  rw [← hrows il hil]
  exact hok.rows_le_cap il hil

/-- A saved payload that is accepted gives back the vectors and the rows it was saved
with. -/
theorem payload_restored (hlen : s.checkpoint.length ≤ dev.ctxSize)
    (hsave : sessionSavePayload dev codec s = some file)
    (h : (sessionLoadPayload dev' codec gpu t (file ++ rest) payloadBytes).2 = none) :
    ∃ front, FrontOk dev' front dev.ctxSize ∧ SavedRows dev dev' s front ∧
      Restored dev dev' (fun row => codec.decode (codec.encode row)) s front.tokens
        (sessionLoadPayload dev' codec gpu t (file ++ rest) payloadBytes).1 := by
  obtain ⟨-, hmissing, rfl⟩ := sessionSavePayload_some hsave
  obtain ⟨rows, hrows⟩ : ∃ rows, rows =
    (List.range mainLayers).flatMap (rowPairs (fun row => (codec.encode row).1) dev s) := ⟨_, rfl⟩
  have hrlen : rows.length = sessionLiveKvRowSum dev s * (2 * encodedRow) := by
    rw [hrows]
    exact length_layers dev s (length_rowPairs (fun row => (codec.encode row).2) dev s)
  rw [← hrows] at h ⊢
  have hfields : (payloadHeader dev s).length = payloadU32Fields := rfl
  rw [sessionLoadPayload] at h ⊢
  split
  next hzero =>
    rw [if_pos hzero] at h
    cases h
  next hpos =>
    rw [if_neg hpos] at h
    dsimp only at h ⊢
    cases hfront : payloadFront dev' payloadBytes
        ⟨u32s (payloadHeader dev s) ++ (savedFront dev s ++ rows) ++ rest, payloadBytes⟩ with
    | error e =>
      rw [hfront] at h
      cases h
    | ok r =>
      obtain ⟨front, src⟩ := r
      rw [hfront] at h
      dsimp only at h ⊢
      obtain ⟨-, hbytes, hskip, -⟩ := payloadFront_spec hfront
      obtain ⟨hvalues, hcounts, hok⟩ := payloadFront_fields hfront
      have htokens := congrArg List.length hvalues
      rw [length_tokensAt] at htokens
      dsimp only at htokens hcounts hok
      have hdrop := drop_savedFront (payloadHeader dev s) dev s rows rest
      rw [List.append_assoc, u32At_append _ (payloadHeader_lt dev (length_lt_of_le hlen))
        (show 3 < payloadU32Fields by decide)] at htokens
      rw [List.append_assoc, u32At_append _ (payloadHeader_lt dev (length_lt_of_le hlen))
        (show 2 < payloadU32Fields by decide)] at hok
      have htokens : front.tokens.length = s.checkpoint.length := htokens
      have hok : FrontOk dev' front dev.ctxSize := hok
      have hcounts : front.rowCounts = sessionKvRowCounts dev s := by
        rw [hcounts, ← hfields, List.append_assoc, savedFront]
        simp only [List.append_assoc]
        exact rowCountsAt_append _ (payloadHeader_lt dev (length_lt_of_le hlen)) (counts_lt dev s)
          (length_sessionKvRowCounts dev s)
      have hsaved := savedRows_of_front hmissing hok htokens hcounts
      have hsrc : src = ⟨s.logits.1 ++ (s.hidden.1 ++ (rows ++ rest)),
          logitsBytes + (hiddenBytes + rows.length)⟩ := by
        rw [hskip, Source.skip, htokens, ← hfields, hdrop, hbytes, htokens, hcounts, hfields]
        refine congrArg (Source.mk _) ?_
        show payloadExpectedBytes s.checkpoint.length (sessionLiveKvRowSum dev s) -
          frontBytes payloadU32Fields s.checkpoint.length = _
        rw [payloadExpectedBytes, Nat.mul_assoc, ← hrlen, frontBytes, logitsBytes, hiddenBytes]
        omega
      rw [hsrc] at h ⊢
      obtain ⟨t', heq, hrestored⟩ := restoreSession_saved hsaved
        (fun il hil layer rest m => restorePayloadLayer_saved hsaved hil codec layer rest m)
        "payload" "truncated session payload" { t with imageSignature := none } rest
      rw [← hrows] at heq
      have hstep : ∀ il layer layer' src src',
          restorePayloadLayer dev' codec gpu front il layer src = (layer', .ok src') →
            restorePayloadLayer dev' codec .ok front il layer src = (layer', .ok src') :=
        fun il layer layer' src src' => restorePayloadLayer_onlyOk
      have honly := restoreSession_onlyOk hstep h
      rw [heq] at honly
      rw [← honly]
      exact ⟨front, hok, hsaved, hrestored⟩

/-- A saved snapshot that is accepted on the same backend gives back the vectors and the
rows it was saved with. -/
theorem snapshot_restored (hlen : s.checkpoint.length ≤ dev.ctxSize)
    (hbackend : dev'.cuda = dev.cuda) (hsave : sessionSaveSnapshot dev cap s = some file)
    (h : (sessionLoadSnapshot dev' gpu t file).2 = none) :
    ∃ front, FrontOk dev' front dev'.ctxSize ∧ SavedRows dev dev' s front ∧
      Restored dev dev' id s front.tokens (sessionLoadSnapshot dev' gpu t file).1 := by
  obtain ⟨hvalid, hmissing, rfl⟩ := sessionSaveSnapshot_some hsave
  obtain ⟨rows, hrows⟩ : ∃ rows, rows = snapshotRows dev s := ⟨_, rfl⟩
  rw [← hrows] at h ⊢
  have hfields : (snapshotHeader dev s).length = snapshotU32Fields := rfl
  obtain ⟨file, hfile⟩ : ∃ file, file =
    u32s (snapshotHeader dev s) ++ (savedFront dev s ++ rows) := ⟨_, rfl⟩
  rw [← hfile] at h ⊢
  have hflen : file.length = frontBytes snapshotU32Fields s.checkpoint.length +
      (logitsBytes + (hiddenBytes + rows.length)) := by
    rw [hfile, List.length_append, List.length_append, length_u32s, hfields, length_savedFront,
      frontBytes, logitsBytes, hiddenBytes]
    omega
  rw [sessionLoadSnapshot] at h ⊢
  split
  next hzero =>
    rw [if_pos hzero] at h
    cases h
  next hpos =>
    rw [if_neg hpos] at h
    dsimp only at h ⊢
    cases hfront : snapshotFront dev' ⟨file, file.length⟩ with
    | error e =>
      rw [hfront] at h
      cases h
    | ok r =>
      obtain ⟨front, src⟩ := r
      rw [hfront] at h
      dsimp only at h ⊢
      obtain ⟨hok, hskip, -⟩ := snapshotFront_spec hfront
      obtain ⟨htokens, hcounts⟩ := snapshotFront_fields hfront
      dsimp only at htokens hcounts
      have hdrop := drop_savedFront (snapshotHeader dev s) dev s rows []
      rw [List.append_nil, ← hfile] at hdrop
      rw [hfile, u32At_append _ (snapshotHeader_lt dev (length_lt_of_le hlen))
        (show 3 < snapshotU32Fields by decide)] at htokens
      have htokens : front.tokens.length = s.checkpoint.length := htokens
      have hcounts : front.rowCounts = sessionKvRowCounts dev s := by
        rw [hcounts, ← hfields, hfile, savedFront]
        simp only [List.append_assoc]
        exact rowCountsAt_append _ (snapshotHeader_lt dev (length_lt_of_le hlen)) (counts_lt dev s)
          (length_sessionKvRowCounts dev s)
      have hsaved := savedRows_of_front hmissing hok htokens hcounts
      have hsrc : src = ⟨s.logits.1 ++ (s.hidden.1 ++ (rows ++ [])),
          logitsBytes + (hiddenBytes + rows.length)⟩ := by
        rw [hskip, Source.skip, htokens, ← hfields, hdrop, hfields]
        refine congrArg (Source.mk _) ?_
        show file.length - frontBytes snapshotU32Fields s.checkpoint.length = _
        rw [hflen, Nat.add_sub_cancel_left]
      rw [hsrc] at h ⊢
      obtain ⟨t', heq, hrestored⟩ := restoreSession_saved hsaved
        (fun il hil layer rest m => restoreSnapshotLayer_saved hsaved hbackend hil layer rest m)
        "snapshot" "truncated session snapshot logits/hidden" { t with imageSignature := none } []
      have heq : restoreSession dev' .ok (restoreSnapshotLayer dev' .ok front) "snapshot"
          "truncated session snapshot logits/hidden" { t with imageSignature := none } front
          ⟨s.logits.1 ++ (s.hidden.1 ++ (rows ++ [])),
            logitsBytes + (hiddenBytes + rows.length)⟩ = (t', none) := hrows ▸ heq
      have hstep : ∀ il layer layer' src src',
          restoreSnapshotLayer dev' gpu front il layer src = (layer', .ok src') →
            restoreSnapshotLayer dev' .ok front il layer src = (layer', .ok src') :=
        fun il layer layer' src src' => restoreSnapshotLayer_onlyOk
      have honly := restoreSession_onlyOk hstep h
      rw [heq] at honly
      rw [← honly]
      exact ⟨front, hok, hsaved, hrestored⟩

end Sf37.Engine

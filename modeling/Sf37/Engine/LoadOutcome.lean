/-
Sf37.Engine.LoadOutcome — what a load leaves of any file, whether it succeeds or fails.

* `restoreSession_failed`: the tokens stay, and so do the rows of a session that is still
  valid.
* `payload_loaded`, `snapshot_loaded`: the session then has the tokens of the file, and
  its length is the one its header implies.
* `payloadLeft_of_loaded`: a payload that is accepted is read to its end.
-/
import Sf37.Engine.LoadSpec

namespace Sf37.Engine

open Sf37.Text Sf37.Store
open Sf37.Server (Token Tokens)

/-! ## Numbers in a file -/

/-- The `i`th number of a file. -/
def u32At (data : Bytes) (i : Nat) : Nat := ofLittleEndian ((data.drop (i * 4)).take 4)

theorem u32At_drop (data : Bytes) (n i : Nat) : u32At (data.drop (n * 4)) i = u32At data (n + i) := by
  rw [u32At, u32At, List.drop_drop, Nat.add_mul]

theorem readU32_value {src src' : Source} {v : Nat} (h : readU32 src = some (v, src')) :
    v = u32At src.data 0 := by
  obtain ⟨hrem, hdata, -⟩ := readU32_spec h
  rw [readU32, readBytes_eq hrem hdata] at h
  exact (Prod.mk.inj (Option.some.inj h)).1.symm

/-- What is read are the numbers at the front. -/
theorem readU32s_values {n : Nat} {src src' : Source} {vs : List Nat}
    (h : readU32s n src = some (vs, src')) : vs = (List.range n).map (u32At src.data) := by
  induction n generalizing src vs with
  | zero =>
    obtain ⟨rfl, -⟩ := Prod.mk.inj (Option.some.inj h)
    rfl
  | succ n ih =>
    obtain ⟨⟨v, mid⟩, hv, hrest⟩ := Option.bind_eq_some_iff.mp h
    obtain ⟨⟨ws, last⟩, hws, heq⟩ := Option.map_eq_some_iff.mp hrest
    obtain ⟨rfl, rfl⟩ := Prod.mk.inj heq
    obtain ⟨-, -, rfl⟩ := readU32_spec hv
    rw [List.range_succ_eq_map, List.map_cons, List.map_map, ← readU32_value hv, ih hws]
    refine congrArg (v :: ·) (List.map_congr_left fun i _ => ?_)
    have hdrop := u32At_drop src.data 1 i
    rw [Source.data_skip]
    rw [Nat.add_comm] at hdrop
    exact hdrop

/-- The tokens that are read are the numbers at the front. -/
theorem readTokens_values {n : Nat} {src src' : Source} {tokens : Tokens}
    (h : readTokens n src = some (tokens, src')) : tokens = (List.range n).map (u32At src.data) := by
  refine readU32s_values (?_ : readU32s n src = some (tokens, src'))
  induction n generalizing src tokens with
  | zero => exact h
  | succ n ih =>
    obtain ⟨⟨v, mid⟩, hv, hrest⟩ := Option.bind_eq_some_iff.mp h
    dsimp only at hrest
    split at hrest
    · nomatch hrest
    · obtain ⟨⟨ws, last⟩, hws, heq⟩ := Option.map_eq_some_iff.mp hrest
      obtain ⟨rfl, rfl⟩ := Prod.mk.inj heq
      rw [readU32s, hv, Option.bind_some, ih hws, Option.map_some]

theorem getD_map_range (f : Nat → Nat) {n i : Nat} (h : i < n) :
    ((List.range n).map f).getD i 0 = f i := by
  rw [List.getD_eq_getElem?_getD, List.getElem?_map, List.getElem?_range h]
  rfl

/-! ## Lengths -/

/-- The row counts of a file whose header has so many fields. -/
def rowCountsAt (fields : Nat) (data : Bytes) : List Nat :=
  (List.range mainLayers).map fun il => u32At data (fields + il)

/-- The tokens of a file whose header has so many fields. -/
def tokensAt (fields : Nat) (data : Bytes) : Tokens :=
  (List.range (u32At data 3)).map fun i => u32At data (fields + mainLayers + i)

theorem length_tokensAt (fields : Nat) (data : Bytes) :
    (tokensAt fields data).length = u32At data 3 := by
  rw [tokensAt, List.length_map, List.length_range]

/-- The length that the header of a payload implies. -/
def impliedPayloadBytes (data : Bytes) : Nat :=
  payloadExpectedBytes (u32At data 3) (rowCountsAt payloadU32Fields data).sum

/-- The length that the header of a snapshot implies. -/
def impliedSnapshotBytes (data : Bytes) : Nat :=
  snapshotU32Fields * 4 + mainLayers * 4 + u32At data 3 * 4 + vocabSize * 4 + embd * 4 +
    (rowCountsAt snapshotU32Fields data).sum * (2 * kvRowBytes)

/-- The fields that a payload's front is made of. -/
theorem payloadFront_fields {dev : Device} {payloadBytes : Nat} {src src' : Source}
    {front : LoadFront} (h : payloadFront dev payloadBytes src = .ok (front, src')) :
    front.tokens = tokensAt payloadU32Fields src.data ∧
      front.rowCounts = rowCountsAt payloadU32Fields src.data ∧
      FrontOk dev front (u32At src.data 2) := by
  rw [payloadFront] at h
  split at h
  · cases h
  next hd mid hhd =>
    obtain ⟨-, -, -, rfl⟩ := readU32s_spec hhd
    have hfields := readU32s_values hhd
    have hget : ∀ i < payloadU32Fields, hd.getD i 0 = u32At src.data i := fun i hi => by
      rw [hfields]
      exact getD_map_range _ hi
    split at h
    · cases h
    split at h
    · cases h
    next rowCounts mid hcounts =>
      obtain ⟨hlen, -, -, rfl⟩ := readU32s_spec hcounts
      have hrowCounts := readU32s_values hcounts
      split at h
      · cases h
      next herr =>
        split at h
        · cases h
        next tokens mid htokens =>
          obtain ⟨htlen, -, -, -, hlt⟩ := readTokens_spec htokens
          have hvalues := readTokens_values htokens
          obtain ⟨hctx, htctx, hlive, hrows, -⟩ := payloadHeaderError_none herr
          obtain ⟨rfl, rfl⟩ := Prod.mk.inj (Except.ok.inj h)
          have hok := frontOk_of_rows (hd.getD 2 0) (by omega) hlt hctx
            (by rw [htlen]; exact hlive) hlen hrows
          rw [hget 2 (by decide)] at hok
          refine ⟨?_, ?_, hok⟩
          · rw [hvalues, tokensAt, hget 3 (by decide), Source.skip_skip, ← Nat.add_mul]
            exact List.map_congr_left fun i _ => u32At_drop src.data _ i
          · rw [hrowCounts, rowCountsAt]
            exact List.map_congr_left fun il _ => u32At_drop src.data payloadU32Fields il

theorem snapshotFront_fields {dev : Device} {src src' : Source} {front : LoadFront}
    (h : snapshotFront dev src = .ok (front, src')) :
    front.tokens.length = u32At src.data 3 ∧
      front.rowCounts = rowCountsAt snapshotU32Fields src.data := by
  rw [snapshotFront] at h
  split at h
  · cases h
  next hd mid hhd =>
    obtain ⟨-, -, -, rfl⟩ := readU32s_spec hhd
    have hfields := readU32s_values hhd
    split at h
    · cases h
    split at h
    · cases h
    next rowCounts mid hcounts =>
      have hrowCounts := readU32s_values hcounts
      split at h
      · cases h
      · split at h
        · cases h
        next tokens mid htokens =>
          obtain ⟨htlen, -⟩ := readTokens_spec htokens
          obtain ⟨rfl, rfl⟩ := Prod.mk.inj (Except.ok.inj h)
          refine ⟨?_, ?_⟩
          · rw [htlen, hfields]
            exact getD_map_range _ (by decide)
          · rw [hrowCounts, rowCountsAt]
            exact List.map_congr_left fun il _ => u32At_drop src.data snapshotU32Fields il

/-! ## What is read -/

/-- A source that lost so many bytes, all of which were there. -/
def Took (src src' : Source) (n : Nat) : Prop :=
  n ≤ src.remaining ∧ n ≤ src.data.length ∧ src' = src.skip n

theorem Took.zero (src : Source) : Took src src 0 := ⟨Nat.zero_le _, Nat.zero_le _, rfl⟩

theorem Took.trans {src mid src' : Source} {m n : Nat} (h : Took src mid m) (h' : Took mid src' n) :
    Took src src' (m + n) := by
  obtain ⟨hrem, hdata, rfl⟩ := h
  obtain ⟨hrem', hdata', rfl⟩ := h'
  rw [Source.remaining_skip] at hrem'
  rw [Source.data_skip, List.length_drop] at hdata'
  exact ⟨by omega, by omega, src.skip_skip m n⟩

theorem took_of_readBytes {n : Nat} {src src' : Source} {b : Bytes}
    (h : readBytes n src = (b, some src')) : Took src src' n := by
  obtain ⟨hrem, hdata, -, hskip⟩ := readBytes_spec h
  exact ⟨hrem, hdata, hskip⟩

theorem restoreRows_took {rd : RowReader} {slot : Nat → Nat} {n rr : Nat} {layer layer' : LayerCache}
    {src src' : Source} (h : restoreRows rd slot n rr layer src = (layer', .ok src')) :
    Took src src' (n * (2 * rd.width)) ∧ layer'.n = layer.n := by
  induction n generalizing rr layer src with
  | zero =>
    rw [restoreRows] at h
    obtain ⟨rfl, hs⟩ := Prod.mk.inj h
    obtain rfl := Except.ok.inj hs
    rw [Nat.zero_mul]
    exact ⟨.zero src, rfl⟩
  | succ n ih =>
    rw [restoreRows] at h
    split at h
    · cases h
    next k mid hk =>
      split at h
      · cases h
      split at h
      · cases h
      next v mid' hv =>
        split at h
        · cases h
        · obtain ⟨htook, hn⟩ := ih h
          have hall := ((took_of_readBytes hk).trans (took_of_readBytes hv)).trans htook
          have hcount : (n + 1) * (2 * rd.width) = rd.width + rd.width + n * (2 * rd.width) := by
            rw [Nat.succ_mul, Nat.two_mul]
            omega
          rw [hcount]
          exact ⟨hall, hn⟩

/-- What a layer that was restored took, and its counter on the CPU. -/
theorem restorePayloadLayer_took {dev : Device} {codec : KvCodec} {gpu : GpuWrites}
    {front : LoadFront} {il : Nat} {layer layer' : LayerCache} {src src' : Source}
    (h : restorePayloadLayer dev codec gpu front il layer src = (layer', .ok src')) :
    Took src src' (front.rows il * (2 * encodedRow)) ∧
      (dev.cuda = false → layer'.n = front.rows il) := by
  rw [restorePayloadLayer] at h
  split at h
  · nomatch h
  next heq =>
    obtain ⟨rfl, hs⟩ := Prod.mk.inj h
    obtain rfl := Except.ok.inj hs
    refine ⟨(restoreRows_took heq).1, fun hcpu => ?_⟩
    rw [if_neg (by simp [hcpu])]

theorem restoreSnapshotLayer_took {dev : Device} {gpu : GpuWrites} {front : LoadFront} {il : Nat}
    {layer layer' : LayerCache} {src src' : Source}
    (h : restoreSnapshotLayer dev gpu front il layer src = (layer', .ok src')) :
    Took src src' (front.rows il * (2 * kvRowBytes)) ∧
      (dev.cuda = false → layer'.n = front.rows il) := by
  rw [restoreSnapshotLayer] at h
  by_cases hcuda : dev.cuda = true
  · rw [if_pos hcuda] at h
    refine ⟨(restoreRows_took h).1, fun hcpu => ?_⟩
    rw [hcuda] at hcpu
    nomatch hcpu
  rw [if_neg hcuda] at h
  split at h
  · nomatch h
  next hk =>
    split at h
    · nomatch h
    next hv =>
      obtain ⟨rfl, hs⟩ := Prod.mk.inj h
      obtain rfl := Except.ok.inj hs
      have hall := (took_of_readBytes hk).trans (took_of_readBytes hv)
      rw [← Nat.two_mul, Nat.mul_left_comm] at hall
      exact ⟨hall, fun _ => rfl⟩

theorem restoreLayers_ok {step : Nat → LayerCache → Source → LayerCache × Except String Source}
    {w : Nat → Nat} (ils : List Nat) (hnodup : ils.Nodup)
    (hstep : ∀ il ∈ ils, ∀ layer layer' src src', step il layer src = (layer', .ok src') →
      Took src src' (w il)) {s s' : Session} {src src' : Source}
    (h : restoreLayers step ils s src = (s', .ok src')) :
    Took src src' ((ils.map w).sum) ∧ (∀ j, j ∉ ils → s'.layer j = s.layer j) ∧
      ∀ il ∈ ils, ∃ a b, step il (s.layer il) a = (s'.layer il, .ok b) := by
  induction ils generalizing s src with
  | nil =>
    rw [restoreLayers] at h
    obtain ⟨rfl, hs⟩ := Prod.mk.inj h
    obtain rfl := Except.ok.inj hs
    exact ⟨.zero src, fun _ _ => rfl, fun il h => by cases h⟩
  | cons il ils ih =>
    obtain ⟨hnot, hnodup⟩ := List.nodup_cons.mp hnodup
    rw [restoreLayers] at h
    split at h
    · cases h
    next layer mid heq =>
      obtain ⟨htook, hframe, hsteps⟩ := ih hnodup
        (fun j hj => hstep j (List.mem_cons_of_mem il hj)) h
      refine ⟨(hstep il List.mem_cons_self _ _ _ _ heq).trans htook, fun j hj => ?_, fun j hj => ?_⟩
      · rw [hframe j fun h => hj (List.mem_cons_of_mem il h)]
        exact if_neg (by rintro rfl; exact hj List.mem_cons_self)
      · rcases List.mem_cons.mp hj with rfl | hj
        · refine ⟨src, mid, ?_⟩
          rw [hframe j hnot]
          exact heq.trans (congrArg (·, _) (if_pos rfl : (s.setLayer j layer).layer j = layer).symm)
        · obtain ⟨a, b, hab⟩ := hsteps j hj
          have hne : j ≠ il := fun heq => hnot (heq ▸ hj)
          refine ⟨a, b, ?_⟩
          rw [← hab]
          exact congrArg (fun l => step j l a) (if_neg hne : (s.setLayer il layer).layer j = _).symm

theorem restoreVectors_took {s s' : Session} {src src' : Source}
    (h : restoreVectors s src = (s', some src')) : Took src src' (logitsBytes + hiddenBytes) := by
  cases hlogits : readBytes logitsBytes src with
  | mk b rest =>
    cases rest with
    | none =>
      rw [restoreVectors_of_cut hlogits] at h
      nomatch h
    | some mid =>
      cases hhidden : readBytes hiddenBytes mid with
      | mk b' rest' =>
        rw [restoreVectors_of_reads hlogits hhidden] at h
        obtain ⟨-, rfl⟩ := Prod.mk.inj h
        exact (took_of_readBytes hlogits).trans (took_of_readBytes hhidden)

theorem restoreVectors_logits {s s' : Session} {src src' : Source}
    (h : restoreVectors s src = (s', some src')) : s'.logits.1 = src.data.take logitsBytes := by
  cases hlogits : readBytes logitsBytes src with
  | mk b rest =>
    cases rest with
    | none =>
      rw [restoreVectors_of_cut hlogits] at h
      nomatch h
    | some mid =>
      obtain ⟨-, hdata, rfl, -⟩ := readBytes_spec hlogits
      have hlen : (src.data.take logitsBytes).length = logitsBytes := by
        rw [List.length_take]
        omega
      cases hhidden : readBytes hiddenBytes mid with
      | mk b' rest' =>
        rw [restoreVectors_of_reads hlogits hhidden] at h
        rw [← congrArg (fun r : Session × Option Source => r.1.logits) h]
        exact congrArg Subtype.val (Block.overwrite_of_length _ hlen)

/-! ## Outcomes -/

/-- The tokens stay, and so do the rows of a session that is still valid. -/
theorem restoreSession_failed {dev : Device} {gpu : GpuWrites}
    {step : Nat → LayerCache → Source → LayerCache × Except String Source}
    {what vectorsTruncated : String} {s : Session} {front : LoadFront} {src : Source}
    (h : (restoreSession dev gpu step what vectorsTruncated s front src).2 ≠ none) :
    (restoreSession dev gpu step what vectorsTruncated s front src).1.checkpoint = s.checkpoint ∧
      ((restoreSession dev gpu step what vectorsTruncated s front src).1.checkpointValid = false ∨
        ((restoreSession dev gpu step what vectorsTruncated s front src).1.checkpointValid =
            s.checkpointValid ∧
          (restoreSession dev gpu step what vectorsTruncated s front src).1.layer = s.layer)) := by
  have hframe := restoreVectors_frame s src
  rw [restoreSession] at h ⊢
  cases hvec : restoreVectors s src with
  | mk s' rest =>
    rw [hvec] at h hframe
    dsimp only at h hframe ⊢
    cases rest with
    | none =>
      dsimp only
      rw [hframe]
      exact ⟨rfl, Or.inr ⟨rfl, rfl⟩⟩
    | some src' =>
      dsimp only at h ⊢
      have hrows := restoreLayers_frame step (List.range mainLayers)
        { s' with checkpointValid := false } src'
      cases hlay : restoreLayers step (List.range mainLayers)
        { s' with checkpointValid := false } src' with
      | mk s'' res =>
        rw [hlay] at h hrows
        have hcp := congrArg Session.checkpoint hrows
        dsimp only at hcp
        rw [congrArg Session.checkpoint hframe] at hcp
        have hinvalid : s''.checkpointValid = false := congrArg Session.checkpointValid hrows
        cases res with
        | error e => exact ⟨hcp, Or.inl hinvalid⟩
        | ok src'' =>
          dsimp only at h ⊢
          split at h
          next hscratch =>
            rw [if_pos hscratch]
            exact ⟨hcp, Or.inl hinvalid⟩
          next hscratch =>
            rw [if_neg hscratch]
            split at h
            next hrest =>
              rw [if_pos hrest]
              exact ⟨hcp, Or.inl hinvalid⟩
            · exact absurd rfl h

/-- What a restore that succeeds read, and where the layers come from. -/
theorem restoreSession_ok {dev : Device} {gpu : GpuWrites}
    {step : Nat → LayerCache → Source → LayerCache × Except String Source}
    {what vectorsTruncated : String} {s : Session} {front : LoadFront} {src : Source} {w : Nat → Nat}
    (hstep : ∀ il < mainLayers, ∀ layer layer' src src', step il layer src = (layer', .ok src') →
      Took src src' (w il))
    (h : (restoreSession dev gpu step what vectorsTruncated s front src).2 = none) :
    (restoreSession dev gpu step what vectorsTruncated s front src).1.checkpoint = front.tokens ∧
      (restoreSession dev gpu step what vectorsTruncated s front src).1.checkpointValid = true ∧
      src.remaining = logitsBytes + hiddenBytes + ((List.range mainLayers).map w).sum ∧
      src.remaining ≤ src.data.length ∧
      (restoreSession dev gpu step what vectorsTruncated s front src).1.logits.1 =
        src.data.take logitsBytes ∧
      ∀ il < mainLayers, ∃ layer a b, step il layer a =
        ((restoreSession dev gpu step what vectorsTruncated s front src).1.layer il, .ok b) := by
  rw [restoreSession] at h ⊢
  cases hvec : restoreVectors s src with
  | mk s' rest =>
    rw [hvec] at h
    cases rest with
    | none => nomatch h
    | some src' =>
      dsimp only at h ⊢
      cases hlay : restoreLayers step (List.range mainLayers)
        { s' with checkpointValid := false } src' with
      | mk s'' res =>
        rw [hlay] at h
        cases res with
        | error e => nomatch h
        | ok src'' =>
          dsimp only at h ⊢
          split at h
          · nomatch h
          next hscratch =>
            rw [if_neg hscratch]
            split at h
            · nomatch h
            next hrest =>
              rw [if_neg hrest]
              obtain ⟨htook, -, hsteps⟩ := restoreLayers_ok (List.range mainLayers) List.nodup_range
                (fun il hil => hstep il (List.mem_range.mp hil)) hlay
              have hvecs := restoreVectors_took hvec
              obtain ⟨hrem, hdata, hskip⟩ := hvecs.trans htook
              rw [hskip, Source.remaining_skip] at hrest
              have hframe := congrArg Session.logits (restoreLayers_frame step
                (List.range mainLayers) { s' with checkpointValid := false } src')
              rw [hlay] at hframe
              dsimp only at hframe
              refine ⟨rfl, rfl, by omega, by omega, ?_, fun il hil => ?_⟩
              · rw [hframe, restoreVectors_logits hvec]
              obtain ⟨a, b, hab⟩ := hsteps il (List.mem_range.mpr hil)
              exact ⟨_, a, b, hab⟩

/-- What a session keeps when a load fails. -/
def LoadFailed (s t : Session) : Prop :=
  t.checkpoint = s.checkpoint ∧
    (t.checkpointValid = false ∨ (t.checkpointValid = s.checkpointValid ∧ t.layer = s.layer))

/-- What a session has when a load succeeds: tokens and counters are those of a front that
passed the checks, with the context size it was saved with. -/
def LoadedFrom (dev : Device) (savedCtx : Nat) (t : Session) : Prop :=
  t.checkpointValid = true ∧ ∃ front, FrontOk dev front savedCtx ∧ t.checkpoint = front.tokens ∧
    (dev.cuda = false → ∀ il < mainLayers, (t.layer il).n = front.rows il)

theorem payload_failed {dev : Device} {codec : KvCodec} {gpu : GpuWrites} {s : Session}
    {data : Bytes} {payloadBytes : Nat}
    (h : (sessionLoadPayload dev codec gpu s data payloadBytes).2 ≠ none) :
    LoadFailed s (sessionLoadPayload dev codec gpu s data payloadBytes).1 := by
  rw [sessionLoadPayload] at h ⊢
  split
  · exact ⟨rfl, Or.inr ⟨rfl, rfl⟩⟩
  next hpos =>
    rw [if_neg hpos] at h
    dsimp only at h ⊢
    cases hfront : payloadFront dev payloadBytes ⟨data, payloadBytes⟩ with
    | error e => exact ⟨rfl, Or.inr ⟨rfl, rfl⟩⟩
    | ok r =>
      rw [hfront] at h
      exact restoreSession_failed h

theorem snapshot_failed {dev : Device} {gpu : GpuWrites} {s : Session} {snap : Bytes}
    (h : (sessionLoadSnapshot dev gpu s snap).2 ≠ none) :
    LoadFailed s (sessionLoadSnapshot dev gpu s snap).1 := by
  rw [sessionLoadSnapshot] at h ⊢
  split
  · exact ⟨rfl, Or.inr ⟨rfl, rfl⟩⟩
  next hpos =>
    rw [if_neg hpos] at h
    dsimp only at h ⊢
    cases hfront : snapshotFront dev ⟨snap, snap.length⟩ with
    | error e => exact ⟨rfl, Or.inr ⟨rfl, rfl⟩⟩
    | ok r =>
      rw [hfront] at h
      exact restoreSession_failed h

/-- A payload that is accepted has the length its header implies. -/
theorem payload_loaded {dev : Device} {codec : KvCodec} {gpu : GpuWrites} {s : Session}
    {data : Bytes} {payloadBytes : Nat}
    (h : (sessionLoadPayload dev codec gpu s data payloadBytes).2 = none) :
    payloadBytes = impliedPayloadBytes data ∧ payloadBytes ≤ data.length ∧
      (sessionLoadPayload dev codec gpu s data payloadBytes).1.checkpoint =
        tokensAt payloadU32Fields data ∧
      (sessionLoadPayload dev codec gpu s data payloadBytes).1.logits.1 =
        (data.drop (frontBytes payloadU32Fields (u32At data 3))).take logitsBytes ∧
      LoadedFrom dev (u32At data 2) (sessionLoadPayload dev codec gpu s data payloadBytes).1 := by
  rw [sessionLoadPayload] at h ⊢
  split
  next hzero =>
    rw [if_pos hzero] at h
    nomatch h
  next hpos =>
    rw [if_neg hpos] at h
    dsimp only at h ⊢
    cases hfront : payloadFront dev payloadBytes ⟨data, payloadBytes⟩ with
    | error e =>
      rw [hfront] at h
      nomatch h
    | ok r =>
      obtain ⟨front, src⟩ := r
      rw [hfront] at h
      obtain ⟨-, hbytes, hskip, hdata⟩ := payloadFront_spec hfront
      obtain ⟨hvalues, hcounts, hok⟩ := payloadFront_fields hfront
      have htokens : front.tokens.length = u32At data 3 := by
        rw [hvalues, length_tokensAt]
      dsimp only at h ⊢
      have hstep : ∀ il < mainLayers, ∀ layer layer' a b,
          restorePayloadLayer dev codec gpu front il layer a = (layer', .ok b) →
            Took a b (front.rows il * (2 * encodedRow)) :=
        fun il _ layer layer' a b hab => (restorePayloadLayer_took hab).1
      obtain ⟨hcp, hvalid, hrem, hle, hlogits, hlayers⟩ := restoreSession_ok hstep h
      refine ⟨?_, ?_, hcp.trans hvalues, ?_, hvalid, front, hok, hcp,
        fun hcpu il hil => ?_⟩
      · rw [hbytes, impliedPayloadBytes, htokens, hcounts]
      · rw [hskip, Source.remaining_skip, Source.data_skip, List.length_drop] at hle
        dsimp only at hle hdata
        omega
      · rw [hlogits, hskip, Source.data_skip, htokens]
      · obtain ⟨layer, a, b, hab⟩ := hlayers il hil
        exact (restorePayloadLayer_took hab).2 hcpu

theorem sum_map_mul (f : Nat → Nat) (w : Nat) (l : List Nat) :
    (l.map fun i => f i * w).sum = (l.map f).sum * w := by
  induction l with
  | nil => rw [List.map_nil, List.map_nil, List.sum_nil, Nat.zero_mul]
  | cons a l ih => rw [List.map_cons, List.map_cons, List.sum_cons, List.sum_cons, ih, Nat.add_mul]

theorem frontRows_eq {fields : Nat} {data : Bytes} {front : LoadFront}
    (h : front.rowCounts = rowCountsAt fields data) :
    (List.range mainLayers).map front.rows = rowCountsAt fields data := by
  refine List.map_congr_left fun il hil => ?_
  rw [LoadFront.rows, h]
  exact getD_map_range _ (List.mem_range.mp hil)

/-- A snapshot that is accepted has the length its header implies. -/
theorem snapshot_loaded {dev : Device} {gpu : GpuWrites} {s : Session} {snap : Bytes}
    (h : (sessionLoadSnapshot dev gpu s snap).2 = none) :
    snap.length = impliedSnapshotBytes snap ∧
      (sessionLoadSnapshot dev gpu s snap).1.checkpoint.length = u32At snap 3 ∧
      (sessionLoadSnapshot dev gpu s snap).1.logits.1 =
        (snap.drop (frontBytes snapshotU32Fields (u32At snap 3))).take logitsBytes ∧
      LoadedFrom dev dev.ctxSize (sessionLoadSnapshot dev gpu s snap).1 := by
  rw [sessionLoadSnapshot] at h ⊢
  split
  next hzero =>
    rw [if_pos hzero] at h
    nomatch h
  next hpos =>
    rw [if_neg hpos] at h
    dsimp only at h ⊢
    cases hfront : snapshotFront dev ⟨snap, snap.length⟩ with
    | error e =>
      rw [hfront] at h
      nomatch h
    | ok r =>
      obtain ⟨front, src⟩ := r
      rw [hfront] at h
      obtain ⟨hok, hskip, hdata⟩ := snapshotFront_spec hfront
      obtain ⟨htokens, hcounts⟩ := snapshotFront_fields hfront
      dsimp only at h ⊢
      have hstep : ∀ il < mainLayers, ∀ layer layer' a b,
          restoreSnapshotLayer dev gpu front il layer a = (layer', .ok b) →
            Took a b (front.rows il * (2 * kvRowBytes)) :=
        fun il _ layer layer' a b hab => (restoreSnapshotLayer_took hab).1
      obtain ⟨hcp, hvalid, hrem, -, hlogits, hlayers⟩ := restoreSession_ok hstep h
      refine ⟨?_, (congrArg List.length hcp).trans htokens, ?_, hvalid, front, hok, hcp,
        fun hcpu il hil => ?_⟩
      · rw [hskip, Source.remaining_skip, sum_map_mul, frontRows_eq hcounts] at hrem
        dsimp only at hrem hdata htokens
        have hv : logitsBytes = vocabSize * 4 := rfl
        have he : hiddenBytes = embd * 4 := rfl
        rw [impliedSnapshotBytes, ← htokens, ← hv, ← he]
        rw [frontBytes] at hrem hdata
        omega
      · rw [hlogits, hskip, Source.data_skip, htokens]
      · obtain ⟨layer, a, b, hab⟩ := hlayers il hil
        exact (restoreSnapshotLayer_took hab).2 hcpu

/-! ## Where a load leaves its file -/

/-- The file behind the rows that `sf37_session_load_payload` restores, where it comes so
far. -/
def payloadLeft (dev : Device) (codec : KvCodec) (gpu : GpuWrites) (s : Session) (data : Bytes)
    (payloadBytes : Nat) : Option Source :=
  match payloadFront dev payloadBytes ⟨data, payloadBytes⟩ with
  | .error _ => none
  | .ok (front, src) =>
      match restoreVectors { s with imageSignature := none } src with
      | (_, none) => none
      | (s, some src) =>
          match restoreLayers (restorePayloadLayer dev codec gpu front) (List.range mainLayers)
              { s with checkpointValid := false } src with
          | (_, .error _) => none
          | (_, .ok src) => some src

/-- A payload that is accepted is read to its end and no further. -/
theorem payloadLeft_of_loaded {dev : Device} {codec : KvCodec} {gpu : GpuWrites} {s : Session}
    {data : Bytes} {payloadBytes : Nat}
    (h : (sessionLoadPayload dev codec gpu s data payloadBytes).2 = none) :
    payloadLeft dev codec gpu s data payloadBytes = some ⟨data.drop payloadBytes, 0⟩ := by
  unfold sessionLoadPayload at h
  unfold payloadLeft
  split at h
  · nomatch h
  dsimp only at h
  cases hfront : payloadFront dev payloadBytes ⟨data, payloadBytes⟩ with
  | error e =>
    rw [hfront] at h
    nomatch h
  | ok r =>
    obtain ⟨front, src⟩ := r
    obtain ⟨-, hbytes, hskip, hdata⟩ := payloadFront_spec hfront
    rw [hfront] at h
    dsimp only at h ⊢
    unfold restoreSession at h
    cases hvec : restoreVectors { s with imageSignature := none } src with
    | mk s' rest =>
      rw [hvec] at h
      cases rest with
      | none => nomatch h
      | some src' =>
        dsimp only at h ⊢
        cases hlay : restoreLayers (restorePayloadLayer dev codec gpu front)
          (List.range mainLayers) { s' with checkpointValid := false } src' with
        | mk s'' res =>
          rw [hlay] at h
          cases res with
          | error e => nomatch h
          | ok src'' =>
            dsimp only at h ⊢
            split at h
            · nomatch h
            split at h
            · nomatch h
            next hrest =>
              have hstep : ∀ il ∈ List.range mainLayers, ∀ layer layer' a b,
                  restorePayloadLayer dev codec gpu front il layer a = (layer', .ok b) →
                    Took a b (front.rows il * (2 * encodedRow)) :=
                fun il _ layer layer' a b hab => (restorePayloadLayer_took hab).1
              obtain ⟨htook, -, -⟩ :=
                restoreLayers_ok (List.range mainLayers) List.nodup_range hstep hlay
              obtain ⟨hrem, -, hsrc⟩ := (restoreVectors_took hvec).trans htook
              have hzero : src''.remaining = 0 := not_not.mp hrest
              have hpos : 0 < logitsBytes := by decide
              rw [hskip, Source.remaining_skip] at hrem
              rw [hsrc, hskip, Source.skip_skip] at hzero ⊢
              rw [Source.remaining_skip] at hzero
              dsimp only at hrem hzero
              -- what is left is nothing, and nothing was read beyond it
              rw [show frontBytes payloadU32Fields front.tokens.length + (logitsBytes + hiddenBytes +
                ((List.range mainLayers).map fun il => front.rows il * (2 * encodedRow)).sum) =
                  payloadBytes by omega]
              simp [Source.skip]

end Sf37.Engine

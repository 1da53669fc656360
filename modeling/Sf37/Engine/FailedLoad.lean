/-
Sf37.Engine.FailedLoad — what a load that fails leaves behind.

* `restoreLayers_withinCapacity`: no row is written outside the cache of its layer.
* `restoreSession_failsCleanly_iff`: a failed load leaves an invalid session or the one it
  found, unless it ended among the logits and the hidden vector of a valid session and
  changed them.
* `loads_failCleanly_iff`: the same for both loaders, in terms of the file.
-/
import Sf37.Engine.LoadSpec
import Sf37.Engine.Eval

namespace Sf37.Engine

open Sf37.Text Sf37.Store
open Sf37.Server (Token Tokens)

/-! ## Rows stay inside -/

/-- Rows changed only inside the caches of their layers. -/
def WithinCapacity (dev : Device) (layer layer' : Nat → LayerCache) : Prop :=
  ∀ il i, dev.cacheCap il ≤ i →
    (layer' il).k i = (layer il).k i ∧ (layer' il).v i = (layer il).v i

theorem WithinCapacity.refl (dev : Device) (layer : Nat → LayerCache) :
    WithinCapacity dev layer layer := fun _ _ _ => ⟨rfl, rfl⟩

theorem restoredSlot_lt {dev : Device} {front : LoadFront} {savedCtx il rr : Nat}
    (hfront : FrontOk dev front savedCtx) (hil : il < mainLayers) (hrr : rr < front.rows il) :
    restoredSlot dev front il rr < dev.cacheCap il := by
  rw [restoredSlot]
  split
  · exact Nat.mod_lt _ (dev.cacheCap_pos il)
  · exact Nat.lt_of_lt_of_le hrr (hfront.rows_le_cap il hil)

theorem restoreRows_outside {dev : Device} {front : LoadFront} {savedCtx il : Nat}
    (hfront : FrontOk dev front savedCtx) (hil : il < mainLayers) (rd : RowReader)
    (layer : LayerCache) (src : Source) {i : Nat} (hi : dev.cacheCap il ≤ i) :
    (restoreRows rd (restoredSlot dev front il) (front.rows il) 0 layer src).1.k i = layer.k i ∧
      (restoreRows rd (restoredSlot dev front il) (front.rows il) 0 layer src).1.v i = layer.v i :=
  restoreRows_frame rd _ _ 0 layer src fun j _ hj =>
    Nat.ne_of_lt (Nat.lt_of_lt_of_le (restoredSlot_lt hfront hil (by omega)) hi)

theorem restorePayloadLayer_outside {dev : Device} {front : LoadFront} {savedCtx il : Nat}
    (hfront : FrontOk dev front savedCtx) (hil : il < mainLayers) (codec : KvCodec)
    (gpu : GpuWrites) (layer : LayerCache) (src : Source) {i : Nat} (hi : dev.cacheCap il ≤ i) :
    (restorePayloadLayer dev codec gpu front il layer src).1.k i = layer.k i ∧
      (restorePayloadLayer dev codec gpu front il layer src).1.v i = layer.v i := by
  rw [restorePayloadLayer]
  split
  next heq =>
    have h := restoreRows_outside hfront hil (payloadRowReader dev codec gpu il) layer src hi
    rw [heq] at h
    exact h
  next heq =>
    have h := restoreRows_outside hfront hil (payloadRowReader dev codec gpu il) layer src hi
    rw [heq] at h
    split <;> exact h

theorem setBlock_of_le (mem : Nat → Row) {rows i : Nat} (b : Bytes) (h : rows ≤ i) :
    setBlock mem rows b i = mem i := if_neg (Nat.not_lt.mpr h)

theorem restoreSnapshotLayer_outside {dev : Device} {front : LoadFront} {savedCtx il : Nat}
    (hfront : FrontOk dev front savedCtx) (hil : il < mainLayers) (gpu : GpuWrites)
    (layer : LayerCache) (src : Source) {i : Nat} (hi : dev.cacheCap il ≤ i) :
    (restoreSnapshotLayer dev gpu front il layer src).1.k i = layer.k i ∧
      (restoreSnapshotLayer dev gpu front il layer src).1.v i = layer.v i := by
  have hle : front.rows il ≤ i := Nat.le_trans (hfront.rows_le_cap il hil) hi
  rw [restoreSnapshotLayer]
  split
  · exact restoreRows_outside hfront hil _ layer src hi
  · split
    · exact ⟨rfl, rfl⟩
    · split
      · exact ⟨setBlock_of_le _ _ hle, rfl⟩
      · exact ⟨setBlock_of_le _ _ hle, setBlock_of_le _ _ hle⟩

/-- No row is written outside the cache of its layer. -/
theorem restoreLayers_withinCapacity {dev : Device}
    {step : Nat → LayerCache → Source → LayerCache × Except String Source} (ils : List Nat)
    (hstep : ∀ il ∈ ils, ∀ layer src i, dev.cacheCap il ≤ i →
      (step il layer src).1.k i = layer.k i ∧ (step il layer src).1.v i = layer.v i)
    (s : Session) (src : Source) :
    WithinCapacity dev s.layer (restoreLayers step ils s src).1.layer := by
  induction ils generalizing s src with
  | nil => exact .refl dev s.layer
  | cons il ils ih =>
    have hset : WithinCapacity dev s.layer (s.setLayer il (step il (s.layer il) src).1).layer := by
      intro j i hi
      by_cases hj : j = il
      · subst hj
        simp only [Session.setLayer, if_pos]
        exact hstep j List.mem_cons_self _ _ i hi
      · simp only [Session.setLayer, if_neg hj, and_self]
    rw [restoreLayers]
    split
    next layer e heq =>
      rw [heq] at hset
      exact hset
    next layer src' heq =>
      rw [heq] at hset
      have hrest := ih (fun j hj => hstep j (List.mem_cons_of_mem il hj)) (s.setLayer il layer) src'
      intro j i hi
      obtain ⟨hk, hv⟩ := hrest j i hi
      rw [hk, hv]
      exact hset j i hi

/-! ## Clean failures -/

/-- The tokens, the logits, the hidden vector and the rows are the same. -/
def SameContents (s s' : Session) : Prop :=
  s'.checkpoint = s.checkpoint ∧ s'.logits = s.logits ∧ s'.hidden = s.hidden ∧ s'.layer = s.layer

/-- Where a load fails it leaves an invalid session or the one it found. -/
def FailsCleanly (s : Session) (r : Session × Option String) : Prop :=
  r.2 ≠ none → r.1.checkpointValid = false ∨ SameContents s r.1

/-- What was read of the vectors before the file ended is what the session had. -/
def VectorsKept (s : Session) (src : Source) : Prop :=
  s.checkpointValid = true → (restoreVectors s src).2 = none →
    (restoreVectors s src).1.logits = s.logits ∧ (restoreVectors s src).1.hidden = s.hidden

theorem restoreSession_failsCleanly_iff (dev : Device) (gpu : GpuWrites)
    (step : Nat → LayerCache → Source → LayerCache × Except String Source)
    (what vectorsTruncated : String) (s : Session) (front : LoadFront) (src : Source) :
    FailsCleanly s (restoreSession dev gpu step what vectorsTruncated s front src) ↔
      VectorsKept s src := by
  have hframe := restoreVectors_frame s src
  rw [restoreSession]
  split
  next s' heq =>
    rw [VectorsKept, heq]
    rw [heq] at hframe
    dsimp only at hframe ⊢
    constructor
    · intro h hvalid _
      rcases h (Option.some_ne_none _) with hf | ⟨-, hl, hh, -⟩
      · rw [hframe] at hf
        rw [hvalid] at hf
        nomatch hf
      · exact ⟨hl, hh⟩
    · intro h _
      rw [hframe]
      cases hvalid : s.checkpointValid with
      | false => exact Or.inl rfl
      | true =>
        obtain ⟨hl, hh⟩ := h hvalid rfl
        exact Or.inr ⟨rfl, hl, hh, rfl⟩
  next s' src' heq =>
    refine iff_of_true ?_ fun _ hnone => ?_
    · have hrows := restoreLayers_frame step (List.range mainLayers)
        { s' with checkpointValid := false } src'
      split
      next s'' e heq' =>
        rw [heq'] at hrows
        exact fun _ => Or.inl (congrArg Session.checkpointValid hrows)
      next s'' src'' heq' =>
        rw [heq'] at hrows
        have hinvalid : s''.checkpointValid = false := congrArg Session.checkpointValid hrows
        split
        · exact fun _ => Or.inl hinvalid
        split
        · exact fun _ => Or.inl hinvalid
        · exact fun hfail => absurd rfl hfail
    · rw [heq] at hnone
      nomatch hnone

theorem restoreSession_withinCapacity {dev : Device} {gpu : GpuWrites}
    {step : Nat → LayerCache → Source → LayerCache × Except String Source}
    {what vectorsTruncated : String} {front : LoadFront} (s : Session) (src : Source)
    (hstep : ∀ il < mainLayers, ∀ layer src i, dev.cacheCap il ≤ i →
      (step il layer src).1.k i = layer.k i ∧ (step il layer src).1.v i = layer.v i) :
    WithinCapacity dev s.layer
      (restoreSession dev gpu step what vectorsTruncated s front src).1.layer := by
  have hframe := restoreVectors_frame s src
  rw [restoreSession]
  split
  next s' heq =>
    rw [heq] at hframe
    rw [hframe]
    exact .refl dev s.layer
  next s' src' heq =>
    rw [heq] at hframe
    have hlayer := congrArg Session.layer hframe
    dsimp only at hlayer
    have h := restoreLayers_withinCapacity (List.range mainLayers)
      (fun il hil => hstep il (List.mem_range.mp hil)) { s' with checkpointValid := false } src'
    rw [← hlayer]
    split
    next heq' =>
      rw [heq'] at h
      exact h
    next heq' =>
      rw [heq'] at h
      split
      · exact h
      split <;> exact h

/-! ## The two loaders -/

theorem payloadExpectedBytes_eq (tokenCount rowSum : Nat) :
    payloadExpectedBytes tokenCount rowSum = frontBytes payloadU32Fields tokenCount +
      (logitsBytes + hiddenBytes) + rowSum * 2 * encodedRow := by
  rw [payloadExpectedBytes, frontBytes, logitsBytes, hiddenBytes, Nat.add_mul, Nat.add_mul]
  simp only [Nat.add_assoc]

/-- Behind an accepted front the count covers the vectors. -/
theorem payloadFront_remaining {dev : Device} {payloadBytes : Nat} {data : Bytes}
    {front : LoadFront} {src : Source}
    (h : payloadFront dev payloadBytes ⟨data, payloadBytes⟩ = .ok (front, src)) :
    logitsBytes + hiddenBytes ≤ src.remaining := by
  obtain ⟨-, hbytes, rfl, -⟩ := payloadFront_spec h
  rw [Source.remaining_skip]
  rw [payloadExpectedBytes_eq] at hbytes
  exact Nat.le_sub_of_add_le (by rw [hbytes, Nat.add_comm]; exact Nat.le_add_right _ _)

/-- Where the count suffices, the vectors are kept when what the file still has of them is
what the session has. -/
theorem vectorsKept_iff_of_remaining {s : Session} {src : Source}
    (hrem : logitsBytes + hiddenBytes ≤ src.remaining) :
    VectorsKept s src ↔ (s.checkpointValid = true → src.data.length < logitsBytes + hiddenBytes →
      src.data.take logitsBytes <+: s.logits.1 ∧ src.data.drop logitsBytes <+: s.hidden.1) := by
  refine imp_congr_right fun _ => ?_
  by_cases hlogits : src.data.length < logitsBytes
  · have hread : readBytes logitsBytes src = (src.data, none) := by
      rw [readBytes, if_neg (by omega), if_pos hlogits]
    rw [restoreVectors_of_cut hread, List.take_of_length_le (Nat.le_of_lt hlogits),
      List.drop_of_length_le (Nat.le_of_lt hlogits)]
    have hself := s.logits.overwrite_eq_self_iff (Nat.le_of_lt hlogits)
    exact ⟨fun h _ => ⟨hself.mp (h rfl).1, List.nil_prefix⟩,
      fun h _ => ⟨hself.mpr (h (by omega)).1, rfl⟩⟩
  have hread : readBytes logitsBytes src = (src.data.take logitsBytes, some (src.skip logitsBytes)) :=
    readBytes_eq (by omega) (by omega)
  have htake : (src.data.take logitsBytes).length = logitsBytes := by
    rw [List.length_take]
    omega
  by_cases hhidden : src.data.length < logitsBytes + hiddenBytes
  · have hread' : readBytes hiddenBytes (src.skip logitsBytes) = (src.data.drop logitsBytes, none) := by
      rw [readBytes, Source.remaining_skip, Source.data_skip, if_neg (by omega),
        if_pos (by rw [List.length_drop]; omega)]
    rw [restoreVectors_of_reads hread hread']
    have hself := s.logits.overwrite_eq_self_iff (b := src.data.take logitsBytes) (by omega)
    have hself' := s.hidden.overwrite_eq_self_iff (b := src.data.drop logitsBytes)
      (by rw [List.length_drop]; omega)
    exact ⟨fun h _ => ⟨hself.mp (h rfl).1, hself'.mp (h rfl).2⟩,
      fun h _ => ⟨hself.mpr (h hhidden).1, hself'.mpr (h hhidden).2⟩⟩
  · have hread' : readBytes hiddenBytes (src.skip logitsBytes) =
        ((src.skip logitsBytes).data.take hiddenBytes, some ((src.skip logitsBytes).skip hiddenBytes)) :=
      readBytes_eq (by rw [Source.remaining_skip]; omega)
        (by rw [Source.data_skip, List.length_drop]; omega)
    refine iff_of_true (fun hnone => ?_) fun hlt => absurd hlt hhidden
    rw [restoreVectors_of_reads hread hread'] at hnone
    exact absurd hnone (Option.some_ne_none _)

/-- A read of a snapshot is one in full or none, so that only the logits can be changed. -/
theorem vectorsKept_iff_of_exact {s : Session} {src : Source}
    (hrem : src.remaining = src.data.length) :
    VectorsKept s src ↔ (s.checkpointValid = true → logitsBytes ≤ src.data.length →
      src.data.length < logitsBytes + hiddenBytes → src.data.take logitsBytes = s.logits.1) := by
  refine imp_congr_right fun _ => ?_
  by_cases hlogits : src.data.length < logitsBytes
  · have hread : readBytes logitsBytes src = ([], none) := by
      rw [readBytes, if_pos (by omega)]
    rw [restoreVectors_of_cut hread, Block.overwrite_nil]
    exact iff_of_true (fun _ => ⟨rfl, rfl⟩) fun hle => absurd hlogits (Nat.not_lt.mpr hle)
  have hread : readBytes logitsBytes src = (src.data.take logitsBytes, some (src.skip logitsBytes)) :=
    readBytes_eq (by omega) (by omega)
  have htake : (src.data.take logitsBytes).length = logitsBytes := by
    rw [List.length_take]
    omega
  by_cases hhidden : src.data.length < logitsBytes + hiddenBytes
  · have hread' : readBytes hiddenBytes (src.skip logitsBytes) = ([], none) := by
      rw [readBytes, Source.remaining_skip, if_pos (by omega)]
    rw [restoreVectors_of_reads hread hread', Block.overwrite_nil, Block.overwrite_of_length _ htake]
    constructor
    · intro h _ _
      exact congrArg Subtype.val (h rfl).1
    · intro h _
      exact ⟨Subtype.ext (h (by omega) hhidden), rfl⟩
  · have hread' : readBytes hiddenBytes (src.skip logitsBytes) =
        ((src.skip logitsBytes).data.take hiddenBytes, some ((src.skip logitsBytes).skip hiddenBytes)) :=
      readBytes_eq (by rw [Source.remaining_skip]; omega)
        (by rw [Source.data_skip, List.length_drop]; omega)
    refine iff_of_true (fun hnone => ?_) fun _ hlt => absurd hlt hhidden
    rw [restoreVectors_of_reads hread hread'] at hnone
    exact absurd hnone (Option.some_ne_none _)

theorem payloadFront_zero (dev : Device) (data : Bytes) (front : LoadFront) (src : Source) :
    payloadFront dev 0 ⟨data, 0⟩ ≠ .ok (front, src) := by
  intro h
  obtain ⟨-, hbytes, -, -⟩ := payloadFront_spec h
  rw [payloadExpectedBytes_eq, frontBytes, payloadU32Fields] at hbytes
  omega

/-- What a failed payload load leaves. -/
theorem payload_failsCleanly_iff (dev : Device) (codec : KvCodec) (gpu : GpuWrites) (s : Session)
    (data : Bytes) (payloadBytes : Nat) :
    FailsCleanly s (sessionLoadPayload dev codec gpu s data payloadBytes) ↔
      ∀ front src, payloadFront dev payloadBytes ⟨data, payloadBytes⟩ = .ok (front, src) →
        s.checkpointValid = true → src.data.length < logitsBytes + hiddenBytes →
          src.data.take logitsBytes <+: s.logits.1 ∧ src.data.drop logitsBytes <+: s.hidden.1 := by
  rw [sessionLoadPayload]
  split
  next hzero =>
    subst hzero
    exact iff_of_true (fun _ => Or.inr ⟨rfl, rfl, rfl, rfl⟩)
      fun front src h => absurd h (payloadFront_zero dev data front src)
  dsimp only
  split
  next herr =>
    refine iff_of_true (fun _ => Or.inr ⟨rfl, rfl, rfl, rfl⟩) fun front src h => ?_
    rw [herr] at h
    nomatch h
  next front src hok =>
    have h := (restoreSession_failsCleanly_iff dev gpu (restorePayloadLayer dev codec gpu front)
      "payload" "truncated session payload" { s with imageSignature := none } front src).trans
      (vectorsKept_iff_of_remaining (payloadFront_remaining hok))
    refine Iff.trans h ⟨fun h front' src' hok' => ?_, fun h => h front src hok⟩
    rw [hok] at hok'
    obtain ⟨rfl, rfl⟩ := Prod.mk.inj (Except.ok.inj hok')
    exact h

/-- What a failed snapshot load leaves. -/
theorem snapshot_failsCleanly_iff (dev : Device) (gpu : GpuWrites) (s : Session) (snap : Bytes) :
    FailsCleanly s (sessionLoadSnapshot dev gpu s snap) ↔
      ∀ front src, snapshotFront dev ⟨snap, snap.length⟩ = .ok (front, src) →
        s.checkpointValid = true → logitsBytes ≤ src.data.length →
          src.data.length < logitsBytes + hiddenBytes → src.data.take logitsBytes = s.logits.1 := by
  rw [sessionLoadSnapshot]
  split
  next hzero =>
    refine iff_of_true (fun _ => Or.inr ⟨rfl, rfl, rfl, rfl⟩) fun front src h _ hle => ?_
    obtain ⟨-, -, hlen⟩ := snapshotFront_spec h
    rw [frontBytes, snapshotU32Fields] at hlen
    dsimp only at hlen
    omega
  dsimp only
  split
  next herr =>
    refine iff_of_true (fun _ => Or.inr ⟨rfl, rfl, rfl, rfl⟩) fun front src h => ?_
    rw [herr] at h
    cases h
  next front src hok =>
    obtain ⟨-, hsrc, -⟩ := snapshotFront_spec hok
    have hexact : src.remaining = src.data.length := by
      rw [hsrc, Source.remaining_skip, Source.data_skip, List.length_drop]
    have h := (restoreSession_failsCleanly_iff dev gpu (restoreSnapshotLayer dev gpu front)
      "snapshot" "truncated session snapshot logits/hidden" { s with imageSignature := none } front
      src).trans (vectorsKept_iff_of_exact hexact)
    refine Iff.trans h ⟨fun h front' src' hok' => ?_, fun h => h front src hok⟩
    rw [hok] at hok'
    obtain ⟨rfl, rfl⟩ := Prod.mk.inj (Except.ok.inj hok')
    exact h

theorem payload_withinCapacity (dev : Device) (codec : KvCodec) (gpu : GpuWrites) (s : Session)
    (data : Bytes) (payloadBytes : Nat) :
    WithinCapacity dev s.layer (sessionLoadPayload dev codec gpu s data payloadBytes).1.layer := by
  rw [sessionLoadPayload]
  split
  · exact .refl dev s.layer
  dsimp only
  split
  · exact .refl dev s.layer
  next front src hok =>
    obtain ⟨⟨savedCtx, hfront⟩, -⟩ := payloadFront_spec hok
    exact restoreSession_withinCapacity { s with imageSignature := none } src
      fun il hil layer src i hi => restorePayloadLayer_outside hfront hil codec gpu layer src hi

theorem snapshot_withinCapacity (dev : Device) (gpu : GpuWrites) (s : Session) (snap : Bytes) :
    WithinCapacity dev s.layer (sessionLoadSnapshot dev gpu s snap).1.layer := by
  rw [sessionLoadSnapshot]
  split
  · exact .refl dev s.layer
  dsimp only
  split
  · exact .refl dev s.layer
  next front src hok =>
    obtain ⟨hfront, -⟩ := snapshotFront_spec hok
    exact restoreSession_withinCapacity { s with imageSignature := none } src
      fun il hil layer src i hi => restoreSnapshotLayer_outside hfront hil gpu layer src hi

/-- A failed load leaves an invalid session or the one it found exactly when it is not the
case that the session was valid and the file, accepted up to its tokens, ended among the
logits and the hidden vector with bytes that differ from the session's; of a snapshot the
logits must be there in full. No load writes a row outside the cache of its layer. -/
theorem loads_failCleanly_iff (dev : Device) (codec : KvCodec) (gpu : GpuWrites) (s : Session) :
    (∀ data payloadBytes,
      (FailsCleanly s (sessionLoadPayload dev codec gpu s data payloadBytes) ∧
        WithinCapacity dev s.layer
          (sessionLoadPayload dev codec gpu s data payloadBytes).1.layer) ↔
      ∀ front src, payloadFront dev payloadBytes ⟨data, payloadBytes⟩ = .ok (front, src) →
        s.checkpointValid = true → src.data.length < logitsBytes + hiddenBytes →
          src.data.take logitsBytes <+: s.logits.1 ∧ src.data.drop logitsBytes <+: s.hidden.1) ∧
    (∀ snap,
      (FailsCleanly s (sessionLoadSnapshot dev gpu s snap) ∧
        WithinCapacity dev s.layer (sessionLoadSnapshot dev gpu s snap).1.layer) ↔
      ∀ front src, snapshotFront dev ⟨snap, snap.length⟩ = .ok (front, src) →
        s.checkpointValid = true → logitsBytes ≤ src.data.length →
          src.data.length < logitsBytes + hiddenBytes → src.data.take logitsBytes = s.logits.1) :=
  ⟨fun data payloadBytes =>
      (and_iff_left (payload_withinCapacity dev codec gpu s data payloadBytes)).trans
        (payload_failsCleanly_iff dev codec gpu s data payloadBytes),
    fun snap =>
      (and_iff_left (snapshot_withinCapacity dev gpu s snap)).trans
        (snapshot_failsCleanly_iff dev gpu s snap)⟩

/-- A payload of no tokens that ends one byte into the logits. -/
def cutPayload : Bytes :=
  u32s [payloadMagic, payloadVersion, 16, 0, 0, mainLayers, kvHeads, headDim, vocabSize, embd, 0,
      payloadKvI8Grouped, payloadKvGroup, payloadKvGroupsPerRow kvRow payloadKvGroup, encodedRow] ++
    u32s (List.replicate mainLayers 0) ++ [1]

theorem payloadFront_cutPayload :
    payloadFront cpuDevice (payloadExpectedBytes 0 0) ⟨cutPayload, payloadExpectedBytes 0 0⟩ =
      .ok (⟨[], List.replicate mainLayers 0⟩, ⟨[1], logitsBytes + hiddenBytes⟩) := by
  have h : (payloadFront cpuDevice (payloadExpectedBytes 0 0)
      ⟨cutPayload, payloadExpectedBytes 0 0⟩).toOption =
        some (⟨[], List.replicate mainLayers 0⟩, ⟨[1], logitsBytes + hiddenBytes⟩) := by
    decide +kernel
  cases heq : payloadFront cpuDevice (payloadExpectedBytes 0 0)
      ⟨cutPayload, payloadExpectedBytes 0 0⟩ with
  | error e =>
    rw [heq] at h
    nomatch h
  | ok r =>
    rw [heq] at h
    rw [Option.some.inj h]

/-- The first logit is overwritten, and the session still counts as valid. -/
theorem cutPayload_not_failsCleanly :
    ¬ FailsCleanly (.ofTokens [1]) (sessionLoadPayload cpuDevice .ofZeros .ok (.ofTokens [1]) cutPayload
      (payloadExpectedBytes 0 0)) := by
  rw [payload_failsCleanly_iff]
  intro h
  obtain ⟨hlogits, -⟩ := h _ _ payloadFront_cutPayload rfl (by decide)
  have hone : ([1] : Bytes).take logitsBytes = [1] := List.take_of_length_le (by decide)
  have hzero : (Session.ofTokens [1]).logits.1 = List.replicate logitsBytes 0 :=
    Block.fit_nil logitsBytes
  rw [hone, hzero] at hlogits
  exact absurd (List.eq_of_mem_replicate (hlogits.subset List.mem_cons_self)) (by decide)

end Sf37.Engine

/-
Sf37.Engine.SaveSession — the two formats a session is saved in: the payload, whose rows
are encoded, and the snapshot, whose rows are copied.

Both begin with a header, the row counts of the layers and the tokens, all of them
`uint32_t`, and the logits and the hidden vector. How a row is rounded to eight bits is
left to a codec. A write or a read of the GPU that fails ends a save with an error.

* `length_sessionSavePayload`, `length_sessionSaveSnapshot`: the sizes announced.
-/
import Sf37.Engine.Session
import Sf37.Text.LittleEndian

namespace Sf37.Engine

open Sf37.Text Sf37.Store
open Sf37.Server (Token Tokens)

/-! ## Encoded rows -/

/-- The numbers of a row of keys or of values. -/
def kvRow : Nat := kvHeads * headDim

/-- `SF37_SESSION_PAYLOAD_KV_GROUP`. -/
def payloadKvGroup : Nat := 64

/-- `SF37_SESSION_PAYLOAD_KV_I8_GROUPED`. -/
def payloadKvI8Grouped : Nat := 1

/-- `payload_kv_groups_per_row`. -/
def payloadKvGroupsPerRow (elems group : Nat) : Nat :=
  if group = 0 then 0 else (elems + group - 1) / group

/-- `payload_encoded_kv_row_bytes`. -/
def payloadEncodedKvRowBytes (elems group : Nat) : Nat :=
  payloadKvGroupsPerRow elems group * 4 + elems

/-- The bytes of an encoded row. -/
def encodedRow : Nat := payloadEncodedKvRowBytes kvRow payloadKvGroup

/-- `payload_encode_kv_row_i8_grouped` and `payload_decode_kv_row_i8_grouped`. -/
structure KvCodec where
  encode : Row → Block encodedRow
  decode : Block encodedRow → Row

/-- What the codec does with rows of zeros: sixteen scales of one and zeros behind them. -/
def KvCodec.ofZeros : KvCodec where
  encode := fun _ => Block.fit _ (List.replicate 16 [0, 0, 0x80, 0x3f]).flatten
  decode := fun _ => Block.fit _ []

/-! ## Headers -/

/-- `SF37_SESSION_PAYLOAD_U32_FIELDS`. -/
def payloadU32Fields : Nat := 15

/-- `SF37_SESSION_SNAPSHOT_U32_FIELDS`. -/
def snapshotU32Fields : Nat := 11

/-- `SF37_SESSION_PAYLOAD_MAGIC`. -/
def payloadMagic : Nat := 0x37375053

/-- `SF37_SESSION_PAYLOAD_VERSION`. -/
def payloadVersion : Nat := 3

/-- `SF37_SESSION_SNAPSHOT_MAGIC`. -/
def snapshotMagic : Nat := 0x37334653

/-- `SF37_SESSION_SNAPSHOT_VERSION`. -/
def snapshotVersion : Nat := 2

/-- `backend_kind`. -/
def backendKind (dev : Device) : Nat := if dev.cuda then 1 else 0

/-- The header of a payload. -/
def payloadHeader (dev : Device) (s : Session) : List Nat :=
  [payloadMagic, payloadVersion, dev.ctxSize, s.checkpoint.length, sessionLiveKvRows dev s,
    mainLayers, kvHeads, headDim, vocabSize, embd, backendKind dev, payloadKvI8Grouped,
    payloadKvGroup, payloadKvGroupsPerRow kvRow payloadKvGroup, encodedRow]

/-- The header of a snapshot. -/
def snapshotHeader (dev : Device) (s : Session) : List Nat :=
  [snapshotMagic, snapshotVersion, dev.ctxSize, s.checkpoint.length, sessionLiveKvRows dev s,
    mainLayers, kvHeads, headDim, vocabSize, embd, backendKind dev]

/-- Numbers of four bytes. -/
def u32s (vs : List Nat) : Bytes := vs.flatMap (littleEndian 4)

/-! ## Sizes -/

/-- `sf37_session_snapshot_bytes`. -/
def sessionSnapshotBytes (dev : Device) (s : Session) : Nat :=
  if ¬ s.checkpointValid then 0
  else
    snapshotU32Fields * 4 + mainLayers * 4 + s.checkpoint.length * 4 + vocabSize * 4 + embd * 4 +
      sessionLiveKvRowSum dev s * kvRow * 2 * 4

/-- `sf37_session_payload_bytes`. -/
def sessionPayloadBytes (dev : Device) (s : Session) : Nat :=
  if ¬ s.checkpointValid then 0
  else
    payloadU32Fields * 4 + mainLayers * 4 + s.checkpoint.length * 4 + vocabSize * 4 + embd * 4 +
      sessionLiveKvRowSum dev s * 2 * encodedRow

/-! ## Saving -/

/-- The place of the `r`th row that is saved of a layer. -/
def savedSlot (dev : Device) (s : Session) (il r : Nat) : Nat :=
  let rows := sessionLayerLiveKvRows dev s il
  if dev.cuda then (s.checkpoint.length - rows + r) % dev.cacheCap il
  else (s.layer il).n - rows + r

/-- A layer of the CPU has fewer rows than are to be saved. -/
def cpuRowsMissing (dev : Device) (s : Session) : Bool :=
  ¬ dev.cuda && (List.range mainLayers).any fun il =>
    decide ((s.layer il).n < sessionLayerLiveKvRows dev s il)

/-- The rows of a layer, keys and values by turns, each as `f` writes it. -/
def rowPairs (f : Row → Bytes) (dev : Device) (s : Session) (il : Nat) : Bytes :=
  (List.range (sessionLayerLiveKvRows dev s il)).flatMap fun r =>
    f ((s.layer il).k (savedSlot dev s il r)) ++ f ((s.layer il).v (savedSlot dev s il r))

/-- The rows of a layer as they stand on the CPU, keys before values. -/
def rowBlocks (dev : Device) (s : Session) (il : Nat) : Bytes :=
  ((List.range (sessionLayerLiveKvRows dev s il)).flatMap fun r =>
      ((s.layer il).k (savedSlot dev s il r)).1) ++
    (List.range (sessionLayerLiveKvRows dev s il)).flatMap fun r =>
      ((s.layer il).v (savedSlot dev s il r)).1

/-- What both formats have behind the header and before the rows. -/
def savedFront (dev : Device) (s : Session) : Bytes :=
  u32s (sessionKvRowCounts dev s) ++ (u32s s.checkpoint ++ (s.logits.1 ++ s.hidden.1))

/-- `sf37_session_save_payload`. -/
def sessionSavePayload (dev : Device) (codec : KvCodec) (s : Session) : Option Bytes :=
  if ¬ s.checkpointValid then none
  else if cpuRowsMissing dev s then none
  else some (u32s (payloadHeader dev s) ++ (savedFront dev s ++
    (List.range mainLayers).flatMap (rowPairs (fun row => (codec.encode row).1) dev s)))

/-- The rows of a snapshot, layer by layer. -/
def snapshotRows (dev : Device) (s : Session) : Bytes :=
  (List.range mainLayers).flatMap fun il =>
    if dev.cuda then rowPairs Subtype.val dev s il else rowBlocks dev s il

/-- `sf37_session_save_snapshot`, into a buffer of some capacity that grows where the size
announced asks for it. -/
def sessionSaveSnapshot (dev : Device) (cap : Nat) (s : Session) : Option Bytes :=
  if ¬ s.checkpointValid then none
  else
    let bytes := sessionSnapshotBytes dev s
    let cap := if cap < bytes then bytes else cap
    let out := u32s (snapshotHeader dev s) ++ (savedFront dev s ++ snapshotRows dev s)
    if cpuRowsMissing dev s ∨ cap < out.length then none else some out

/-! ## Lengths -/

theorem length_u32s (vs : List Nat) : (u32s vs).length = vs.length * 4 := by
  induction vs with
  | nil => rfl
  | cons v vs ih =>
    rw [u32s, List.flatMap_cons, List.length_append, length_littleEndian, ← u32s, ih,
      List.length_cons]
    omega

theorem length_flatMap_const {α : Type} {f : α → Bytes} {w : Nat} (l : List α)
    (h : ∀ a ∈ l, (f a).length = w) : (l.flatMap f).length = l.length * w := by
  induction l with
  | nil => rw [List.flatMap_nil, List.length_nil, List.length_nil, Nat.zero_mul]
  | cons a l ih =>
    rw [List.flatMap_cons, List.length_append, h a List.mem_cons_self,
      ih fun b hb => h b (List.mem_cons_of_mem a hb), List.length_cons, Nat.succ_mul, Nat.add_comm]

theorem length_rowPairs {f : Row → Bytes} {w : Nat} (hf : ∀ row, (f row).length = w) (dev : Device)
    (s : Session) (il : Nat) :
    (rowPairs f dev s il).length = sessionLayerLiveKvRows dev s il * (2 * w) := by
  rw [rowPairs, length_flatMap_const (w := 2 * w) _ fun r _ => by
    rw [List.length_append, hf, hf, Nat.two_mul], List.length_range]

theorem length_rowBlocks (dev : Device) (s : Session) (il : Nat) :
    (rowBlocks dev s il).length = sessionLayerLiveKvRows dev s il * (2 * kvRowBytes) := by
  rw [rowBlocks, List.length_append, length_flatMap_const _ fun r _ => ((s.layer il).k _).2,
    length_flatMap_const _ fun r _ => ((s.layer il).v _).2, List.length_range,
    ← Nat.two_mul, Nat.mul_left_comm]

theorem length_layers {f : Nat → Bytes} {w : Nat} (dev : Device) (s : Session)
    (hf : ∀ il, (f il).length = sessionLayerLiveKvRows dev s il * w) :
    ((List.range mainLayers).flatMap f).length = sessionLiveKvRowSum dev s * w := by
  rw [sessionLiveKvRowSum, sessionKvRowCounts]
  induction List.range mainLayers with
  | nil => rw [List.flatMap_nil, List.map_nil, List.sum_nil, Nat.zero_mul, List.length_nil]
  | cons il ils ih =>
    rw [List.flatMap_cons, List.length_append, hf, ih, List.map_cons, List.sum_cons, Nat.add_mul]

theorem length_savedFront (dev : Device) (s : Session) :
    (savedFront dev s).length = mainLayers * 4 + s.checkpoint.length * 4 + vocabSize * 4 + embd * 4 := by
  have hl : s.logits.1.length = vocabSize * 4 := s.logits.2
  have hh : s.hidden.1.length = embd * 4 := s.hidden.2
  rw [savedFront, List.length_append, List.length_append, List.length_append, length_u32s, length_u32s,
    hl, hh, sessionKvRowCounts, List.length_map, List.length_range]
  omega

/-- A payload has the size announced. -/
theorem length_sessionSavePayload {dev : Device} {codec : KvCodec} {s : Session} {b : Bytes}
    (h : sessionSavePayload dev codec s = some b) : b.length = sessionPayloadBytes dev s := by
  rw [sessionSavePayload] at h
  split at h
  · nomatch h
  next hvalid =>
    split at h
    · nomatch h
    · obtain rfl := Option.some.inj h
      have hheader : (payloadHeader dev s).length = payloadU32Fields := rfl
      rw [sessionPayloadBytes, if_neg hvalid, List.length_append, List.length_append, length_u32s,
        hheader, length_savedFront,
        length_layers dev s (length_rowPairs (fun row => (codec.encode row).2) dev s),
        Nat.mul_assoc]
      omega

theorem length_snapshotRows (dev : Device) (s : Session) :
    (snapshotRows dev s).length = sessionLiveKvRowSum dev s * (2 * kvRowBytes) := by
  refine length_layers dev s fun il => ?_
  split
  · exact length_rowPairs (fun row => row.2) dev s il
  · exact length_rowBlocks dev s il

/-- What a snapshot writes fits the size announced, and fills it. -/
theorem length_snapshot (dev : Device) {s : Session} (hvalid : s.checkpointValid = true) :
    (u32s (snapshotHeader dev s) ++ (savedFront dev s ++ snapshotRows dev s)).length =
      sessionSnapshotBytes dev s := by
  have hheader : (snapshotHeader dev s).length = snapshotU32Fields := rfl
  have hrow : sessionLiveKvRowSum dev s * kvRow * 2 * 4 =
      sessionLiveKvRowSum dev s * (2 * kvRowBytes) := by
    have : 2 * kvRowBytes = kvRow * 2 * 4 := rfl
    rw [this, Nat.mul_assoc, Nat.mul_assoc, Nat.mul_assoc]
  rw [sessionSnapshotBytes, if_neg (not_not.mpr hvalid), List.length_append, List.length_append,
    length_u32s, hheader, length_savedFront, length_snapshotRows, hrow]
  omega

/-- A snapshot has the size announced. -/
theorem length_sessionSaveSnapshot {dev : Device} {cap : Nat} {s : Session} {b : Bytes}
    (h : sessionSaveSnapshot dev cap s = some b) : b.length = sessionSnapshotBytes dev s := by
  rw [sessionSaveSnapshot] at h
  split at h
  · nomatch h
  next hvalid =>
    dsimp only at h
    by_cases hno : cpuRowsMissing dev s = true ∨
        (if cap < sessionSnapshotBytes dev s then sessionSnapshotBytes dev s else cap) <
          (u32s (snapshotHeader dev s) ++ (savedFront dev s ++ snapshotRows dev s)).length
    · rw [if_pos hno] at h
      nomatch h
    · rw [if_neg hno] at h
      obtain rfl := Option.some.inj h
      exact length_snapshot dev (not_not.mp hvalid)

/-- A valid session is saved unless rows are missing. -/
theorem sessionSaveSnapshot_eq (dev : Device) (cap : Nat) {s : Session}
    (hvalid : s.checkpointValid = true) (hrows : cpuRowsMissing dev s = false) :
    sessionSaveSnapshot dev cap s =
      some (u32s (snapshotHeader dev s) ++ (savedFront dev s ++ snapshotRows dev s)) := by
  rw [sessionSaveSnapshot, if_neg (not_not.mpr hvalid)]
  dsimp only
  rw [if_neg]
  rw [length_snapshot dev hvalid, hrows]
  rintro (h | h)
  · nomatch h
  · split at h <;> omega

theorem sessionSavePayload_eq (dev : Device) (codec : KvCodec) {s : Session}
    (hvalid : s.checkpointValid = true) (hrows : cpuRowsMissing dev s = false) :
    sessionSavePayload dev codec s =
      some (u32s (payloadHeader dev s) ++ (savedFront dev s ++
        (List.range mainLayers).flatMap (rowPairs (fun row => (codec.encode row).1) dev s))) := by
  rw [sessionSavePayload, if_neg (not_not.mpr hvalid), if_neg (by rw [hrows]; exact Bool.false_ne_true)]

/-! ## Numbers that fit -/

theorem sessionLiveKvRows_eq {dev : Device} {s : Session} (h : s.checkpoint.length ≤ dev.ctxSize) :
    sessionLiveKvRows dev s = s.checkpoint.length := if_neg (Nat.not_lt.mpr h)

theorem length_sessionKvRowCounts (dev : Device) (s : Session) :
    (sessionKvRowCounts dev s).length = mainLayers := by
  rw [sessionKvRowCounts, List.length_map, List.length_range]

theorem maxCtx_lt : maxCtx < 2 ^ 32 := by decide

theorem length_lt_of_le {dev : Device} {s : Session} (h : s.checkpoint.length ≤ dev.ctxSize) :
    s.checkpoint.length < 2 ^ 32 :=
  Nat.lt_of_le_of_lt (Nat.le_trans h dev.ctxSize_le) maxCtx_lt

theorem sessionLiveKvRows_lt (dev : Device) (s : Session) : sessionLiveKvRows dev s < 2 ^ 32 := by
  have hctx := Nat.lt_of_le_of_lt dev.ctxSize_le maxCtx_lt
  rw [sessionLiveKvRows]
  split <;> omega

/-- The row counts fit, whatever the session. -/
theorem counts_lt (dev : Device) (s : Session) : ∀ v ∈ sessionKvRowCounts dev s, v < 2 ^ 32 := by
  intro v hv
  obtain ⟨il, -, rfl⟩ := List.mem_map.mp hv
  have hlive := sessionLiveKvRows_lt dev s
  rw [sessionLayerLiveKvRows]
  split <;> split at * <;> omega

theorem snapshotHeader_lt (dev : Device) {s : Session} (hlen : s.checkpoint.length < 2 ^ 32) :
    ∀ v ∈ snapshotHeader dev s, v < 2 ^ 32 := by
  have hctx := Nat.lt_of_le_of_lt dev.ctxSize_le maxCtx_lt
  have hlive := sessionLiveKvRows_lt dev s
  have hkind : backendKind dev < 2 ^ 32 := by
    rw [backendKind]
    split <;> decide
  intro v hv
  simp only [snapshotHeader, List.mem_cons, List.not_mem_nil, or_false] at hv
  rcases hv with rfl | rfl | rfl | rfl | rfl | rfl | rfl | rfl | rfl | rfl | rfl
  all_goals first | exact hctx | exact hlen | exact hlive | exact hkind | decide

theorem payloadHeader_lt (dev : Device) {s : Session} (hlen : s.checkpoint.length < 2 ^ 32) :
    ∀ v ∈ payloadHeader dev s, v < 2 ^ 32 := by
  have hctx := Nat.lt_of_le_of_lt dev.ctxSize_le maxCtx_lt
  have hlive := sessionLiveKvRows_lt dev s
  have hkind : backendKind dev < 2 ^ 32 := by
    rw [backendKind]
    split <;> decide
  intro v hv
  simp only [payloadHeader, List.mem_cons, List.not_mem_nil, or_false] at hv
  rcases hv with rfl | rfl | rfl | rfl | rfl | rfl | rfl | rfl | rfl | rfl | rfl | rfl | rfl | rfl | rfl
  all_goals first | exact hctx | exact hlen | exact hlive | exact hkind | decide

end Sf37.Engine

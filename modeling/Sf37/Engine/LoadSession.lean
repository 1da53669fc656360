/-
Sf37.Engine.LoadSession — restoring a session from a payload or a snapshot.

Both loaders check the header, the row counts and the tokens, read the logits and the
hidden vector where they stand, and only then call the session invalid and go on with the
rows. A read yields what the file still has; what it lacks, or a device does not give,
ends there.

* `sessionLoadPayload`, `sessionLoadSnapshot`: the loaders, with the texts of their errors.
-/
import Sf37.Engine.SaveSession

namespace Sf37.Engine

open Sf37.Text Sf37.Store
open Sf37.Server (Token Tokens)

/-! ## Reading -/

/-- `sf37_snapshot_reader`, and the file of a payload with `remaining`: the bytes that are
left and the count that is. -/
structure Source where
  data : Bytes
  remaining : Nat
  deriving DecidableEq, Repr

/-- `payload_read_bytes`, and of a snapshot, whose bytes are all there,
`snapshot_read_bytes`: what reaches the destination, and what is left after a read in
full. -/
def readBytes (n : Nat) (src : Source) : Bytes × Option Source :=
  if src.remaining < n then ([], none)
  else if src.data.length < n then (src.data, none)
  else (src.data.take n, some ⟨src.data.drop n, src.remaining - n⟩)

/-- `payload_read_u32`, `snapshot_read_u32`. -/
def readU32 (src : Source) : Option (Nat × Source) :=
  (readBytes 4 src).2.map fun rest => (ofLittleEndian (readBytes 4 src).1, rest)

/-- Numbers of four bytes, one after the other. -/
def readU32s : Nat → Source → Option (List Nat × Source)
  | 0, src => some ([], src)
  | n + 1, src =>
      (readU32 src).bind fun r => (readU32s n r.2).map fun rs => (r.1 :: rs.1, rs.2)

/-- The loop over the tokens. -/
def readTokens : Nat → Source → Option (Tokens × Source)
  | 0, src => some ([], src)
  | n + 1, src =>
      (readU32 src).bind fun r =>
        if vocabSize ≤ r.1 then none
        else (readTokens n r.2).map fun rs => (r.1 :: rs.1, rs.2)

/-! ## Checks -/

/-- What is wrong with the row count of a layer. -/
def rowCountError (dev : Device) (what : String) (liveRows il rows : Nat) : Option String :=
  if liveRows < rows then some (what ++ " has too many KV rows for layer " ++ toString il)
  else if layerIsFull il ∧ rows ≠ liveRows then
    some (what ++ " is missing full-attention KV rows")
  else if ¬ layerIsFull il ∧
      rows < (if liveRows < slidingWindow then liveRows else slidingWindow) then
    some (what ++ " is missing sliding-window KV rows")
  else if dev.layerKvCap il ≠ 0 ∧ dev.layerKvCap il < rows then
    some (what ++ " KV rows do not fit current cache")
  else none

/-- The loop over the row counts. -/
def rowCountsError (dev : Device) (what : String) (liveRows : Nat) (rowCounts : List Nat) :
    Option String :=
  (List.range mainLayers).findSome? fun il =>
    rowCountError dev what liveRows il (rowCounts.getD il 0)

/-- What a loader knows of a file before it touches the session. -/
structure LoadFront where
  tokens : Tokens
  rowCounts : List Nat
  deriving DecidableEq, Repr

/-- The rows of a layer. -/
def LoadFront.rows (front : LoadFront) (il : Nat) : Nat := front.rowCounts.getD il 0

/-- `expected_bytes`. -/
def payloadExpectedBytes (tokenCount rowSum : Nat) : Nat :=
  payloadU32Fields * 4 + mainLayers * 4 + tokenCount * 4 + vocabSize * 4 + embd * 4 +
    rowSum * 2 * encodedRow

/-- The checks of `sf37_session_load_payload` on the header and the row counts. -/
def payloadHeaderError (dev : Device) (payloadBytes : Nat) (h rowCounts : List Nat) :
    Option String :=
  let savedCtx := h.getD 2 0
  let tokenCount := h.getD 3 0
  let liveRows := h.getD 4 0
  if dev.ctxSize < savedCtx ∨ dev.ctxSize < tokenCount then
    some "KV checkpoint does not fit current context"
  else if tokenCount < liveRows ∨ liveRows ≠ (if tokenCount < savedCtx then tokenCount else savedCtx) then
    some "session payload has invalid token/cache row counts"
  else
    match rowCountsError dev "session payload" liveRows rowCounts with
    | some e => some e
    | none =>
        if h.getD 5 0 ≠ mainLayers ∨ h.getD 6 0 ≠ kvHeads ∨ h.getD 7 0 ≠ headDim ∨
            h.getD 8 0 ≠ vocabSize ∨ h.getD 9 0 ≠ embd ∨ h.getD 11 0 ≠ payloadKvI8Grouped ∨
            h.getD 12 0 ≠ payloadKvGroup ∨
            h.getD 13 0 ≠ payloadKvGroupsPerRow kvRow payloadKvGroup ∨
            h.getD 14 0 ≠ payloadEncodedKvRowBytes kvRow payloadKvGroup then
          some "session payload was written for a different SF37 layout"
        else if payloadBytes ≠ payloadExpectedBytes tokenCount rowCounts.sum then
          some "session payload byte count mismatch"
        else none

/-- `sf37_session_load_payload` up to the tokens. -/
def payloadFront (dev : Device) (payloadBytes : Nat) (src : Source) :
    Except String (LoadFront × Source) :=
  match readU32s payloadU32Fields src with
  | none => .error "truncated session payload"
  | some (h, src) =>
      if h.getD 0 0 ≠ payloadMagic ∨ h.getD 1 0 ≠ payloadVersion then
        .error "unsupported session payload version"
      else
        match readU32s mainLayers src with
        | none => .error "truncated session payload"
        | some (rowCounts, src) =>
            match payloadHeaderError dev payloadBytes h rowCounts with
            | some e => .error e
            | none =>
                match readTokens (h.getD 3 0) src with
                | none => .error "session payload has invalid token data"
                | some (tokens, src) => .ok (⟨tokens, rowCounts⟩, src)

/-- The checks of `sf37_session_load_snapshot` on the header and the row counts. -/
def snapshotHeaderError (dev : Device) (h rowCounts : List Nat) : Option String :=
  let savedCtx := h.getD 2 0
  let tokenCount := h.getD 3 0
  let liveRows := h.getD 4 0
  if savedCtx ≠ dev.ctxSize then
    some ("session snapshot ctx " ++ toString savedCtx ++ " does not match current ctx " ++
      toString dev.ctxSize)
  else if dev.ctxSize < tokenCount ∨ tokenCount < liveRows ∨
      liveRows ≠ (if tokenCount < savedCtx then tokenCount else savedCtx) then
    some "session snapshot has invalid token/cache row counts"
  else
    match rowCountsError dev "session snapshot" liveRows rowCounts with
    | some e => some e
    | none =>
        if h.getD 5 0 ≠ mainLayers ∨ h.getD 6 0 ≠ kvHeads ∨ h.getD 7 0 ≠ headDim ∨
            h.getD 8 0 ≠ vocabSize ∨ h.getD 9 0 ≠ embd then
          some "session snapshot was written for a different SF37 layout"
        else none

/-- `sf37_session_load_snapshot` up to the tokens. -/
def snapshotFront (dev : Device) (src : Source) : Except String (LoadFront × Source) :=
  match readU32s snapshotU32Fields src with
  | none => .error "truncated session snapshot header"
  | some (h, src) =>
      if h.getD 0 0 ≠ snapshotMagic ∨ h.getD 1 0 ≠ snapshotVersion then
        .error "unsupported session snapshot version"
      else
        match readU32s mainLayers src with
        | none => .error "truncated session snapshot KV row counts"
        | some (rowCounts, src) =>
            match snapshotHeaderError dev h rowCounts with
            | some e => .error e
            | none =>
                match readTokens (h.getD 3 0) src with
                | none => .error "session snapshot has invalid token data"
                | some (tokens, src) => .ok (⟨tokens, rowCounts⟩, src)

/-! ## Restoring -/

/-- The writes to the GPU that succeed: of the keys or the values of a row of a layer, and
of the hidden vector with the logits. -/
structure GpuWrites where
  row : Nat → Nat → Bool → Bool
  scratch : Bool

/-- All of them. -/
def GpuWrites.ok : GpuWrites := ⟨fun _ _ _ => true, true⟩

/-- Read the logits and the hidden vector where they stand. -/
def restoreVectors (s : Session) (src : Source) : Session × Option Source :=
  let r := readBytes logitsBytes src
  let s := { s with logits := s.logits.overwrite r.1 }
  match r.2 with
  | none => (s, none)
  | some src =>
      let r := readBytes hiddenBytes src
      ({ s with hidden := s.hidden.overwrite r.1 }, r.2)

/-- How a loader reads the rows of a layer: their size in the file, what they decode to,
which writes succeed, and the texts of what goes wrong. -/
structure RowReader where
  width : Nat
  decode : Bytes → Row
  writeOk : Nat → Bool → Bool
  truncated : String
  writeK : String
  writeV : String

/-- The loop over the rows of a layer, keys and values by turns. -/
def restoreRows (rd : RowReader) (slot : Nat → Nat) :
    Nat → Nat → LayerCache → Source → LayerCache × Except String Source
  | 0, _, layer, src => (layer, .ok src)
  | n + 1, rr, layer, src =>
      match readBytes rd.width src with
      | (_, none) => (layer, .error rd.truncated)
      | (k, some src) =>
          if ¬ rd.writeOk rr false then (layer, .error rd.writeK)
          else
            let layer := { layer with k := Ring.set layer.k (slot rr) (rd.decode k) }
            match readBytes rd.width src with
            | (_, none) => (layer, .error rd.truncated)
            | (v, some src) =>
                if ¬ rd.writeOk rr true then (layer, .error rd.writeV)
                else
                  restoreRows rd slot n (rr + 1)
                    { layer with v := Ring.set layer.v (slot rr) (rd.decode v) } src

/-- The place of the `rr`th row that is restored of a layer. -/
def restoredSlot (dev : Device) (front : LoadFront) (il rr : Nat) : Nat :=
  if dev.cuda then (front.tokens.length - front.rows il + rr) % dev.cacheCap il else rr

/-- The rows of a payload. -/
def payloadRowReader (dev : Device) (codec : KvCodec) (gpu : GpuWrites) (il : Nat) : RowReader where
  width := encodedRow
  decode := fun b => codec.decode (Block.fit encodedRow b)
  writeOk := fun rr v => ¬ dev.cuda || gpu.row il rr v
  truncated := "truncated session payload"
  writeK := "failed to restore CUDA K cache from payload"
  writeV := "failed to restore CUDA V cache from payload"

/-- One layer of `sf37_session_load_payload`. -/
def restorePayloadLayer (dev : Device) (codec : KvCodec) (gpu : GpuWrites) (front : LoadFront)
    (il : Nat) (layer : LayerCache) (src : Source) : LayerCache × Except String Source :=
  match restoreRows (payloadRowReader dev codec gpu il) (restoredSlot dev front il) (front.rows il) 0
      layer src with
  | (layer, .error e) => (layer, .error e)
  | (layer, .ok src) => (if dev.cuda then layer else { layer with n := front.rows il }, .ok src)

/-- The rows of a snapshot on the GPU. -/
def snapshotRowReader (gpu : GpuWrites) (il : Nat) : RowReader where
  width := kvRowBytes
  decode := Block.fit kvRowBytes
  writeOk := gpu.row il
  truncated := "failed to restore CUDA KV cache from snapshot"
  writeK := "failed to restore CUDA KV cache from snapshot"
  writeV := "failed to restore CUDA KV cache from snapshot"

/-- A row of a block of rows. -/
def rowOfBlock (b : Bytes) (i : Nat) : Row := Block.fit kvRowBytes (b.drop (i * kvRowBytes))

/-- Write a block of rows to the front of a memory. -/
def setBlock (mem : Nat → Row) (rows : Nat) (b : Bytes) : Nat → Row :=
  fun i => if i < rows then rowOfBlock b i else mem i

/-- One layer of `sf37_session_load_snapshot`. -/
def restoreSnapshotLayer (dev : Device) (gpu : GpuWrites) (front : LoadFront) (il : Nat)
    (layer : LayerCache) (src : Source) : LayerCache × Except String Source :=
  let rows := front.rows il
  if dev.cuda then
    restoreRows (snapshotRowReader gpu il) (restoredSlot dev front il) rows 0 layer src
  else
    let truncated := "truncated CPU KV cache in session snapshot"
    match readBytes (rows * kvRowBytes) src with
    | (_, none) => (layer, .error truncated)
    | (b, some src) =>
        let layer := { layer with k := setBlock layer.k rows b }
        match readBytes (rows * kvRowBytes) src with
        | (_, none) => (layer, .error truncated)
        | (b, some src) => ({ n := rows, k := layer.k, v := setBlock layer.v rows b }, .ok src)

/-- Put a layer in its place. -/
def Session.setLayer (s : Session) (il : Nat) (layer : LayerCache) : Session :=
  { s with layer := fun j => if j = il then layer else s.layer j }

/-- The loop over the layers. -/
def restoreLayers (step : Nat → LayerCache → Source → LayerCache × Except String Source) :
    List Nat → Session → Source → Session × Except String Source
  | [], s, src => (s, .ok src)
  | il :: ils, s, src =>
      match step il (s.layer il) src with
      | (layer, .error e) => (s.setLayer il layer, .error e)
      | (layer, .ok src) => restoreLayers step ils (s.setLayer il layer) src

/-- What a loader does behind the tokens: the vectors, the rows, and at the end the tokens.
`what` is the name of the format in its errors. -/
def restoreSession (dev : Device) (gpu : GpuWrites)
    (step : Nat → LayerCache → Source → LayerCache × Except String Source)
    (what vectorsTruncated : String) (s : Session) (front : LoadFront) (src : Source) :
    Session × Option String :=
  match restoreVectors s src with
  | (s, none) => (s, some vectorsTruncated)
  | (s, some src) =>
      match restoreLayers step (List.range mainLayers) { s with checkpointValid := false } src with
      | (s, .error e) => (s, some e)
      | (s, .ok src) =>
          if dev.cuda ∧ ¬ gpu.scratch then
            (s, some ("failed to restore CUDA session scratch from " ++ what))
          else if src.remaining ≠ 0 then (s, some ("session " ++ what ++ " has trailing bytes"))
          else ({ s with checkpoint := front.tokens, checkpointValid := true }, none)

/-- `sf37_session_load_payload`, of the bytes that the file yields and the size claimed. -/
def sessionLoadPayload (dev : Device) (codec : KvCodec) (gpu : GpuWrites) (s : Session)
    (data : Bytes) (payloadBytes : Nat) : Session × Option String :=
  if payloadBytes = 0 then (s, some "invalid session payload load")
  else
    let s := { s with imageSignature := none }
    match payloadFront dev payloadBytes ⟨data, payloadBytes⟩ with
    | .error e => (s, some e)
    | .ok (front, src) =>
        restoreSession dev gpu (restorePayloadLayer dev codec gpu front) "payload"
          "truncated session payload" s front src

/-- `sf37_session_load_snapshot`. -/
def sessionLoadSnapshot (dev : Device) (gpu : GpuWrites) (s : Session) (snap : Bytes) :
    Session × Option String :=
  if snap.length = 0 then (s, some "invalid session snapshot load")
  else
    let s := { s with imageSignature := none }
    match snapshotFront dev ⟨snap, snap.length⟩ with
    | .error e => (s, some e)
    | .ok (front, src) =>
        restoreSession dev gpu (restoreSnapshotLayer dev gpu front) "snapshot"
          "truncated session snapshot logits/hidden" s front src

end Sf37.Engine

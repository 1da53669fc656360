/-
Sf37.Engine.Session — the engine's session: its tokens, its last logits and hidden
vector, the rows of its layers and the signature of the images among them.

The arithmetic is left out: what a step computes for a position comes with it.

* `sessionRewindPreservesKv`: whether the rows a shorter session needs are there.
* `reusablePrefix_pos`: a positive answer is the count of tokens in common.
-/
import Sf37.Engine.Device
import Sf37.Server.Session

namespace Sf37.Engine

open Sf37.Text Sf37.Store
open Sf37.Server (Token Tokens ImageSignature commonLen)

/-! ## The session -/

/-- `sf37_session`. -/
structure Session where
  checkpoint : Tokens
  checkpointValid : Bool
  imageSignature : Option ImageSignature
  logits : Block logitsBytes
  hidden : Block hiddenBytes
  layer : Nat → LayerCache

/-- `session_reset`. -/
def sessionReset (dev : Device) (s : Session) : Session :=
  { s with
    checkpoint := []
    checkpointValid := true
    imageSignature := none
    layer := fun il => if dev.cuda then s.layer il else { s.layer il with n := 0 } }

/-- `sf37_session_rewind`; a negative position is zero. -/
def sessionRewind (dev : Device) (s : Session) (pos : Nat) : Session :=
  let pos := min pos s.checkpoint.length
  { s with
    checkpoint := s.checkpoint.take pos
    checkpointValid := true
    imageSignature := if pos = 0 then none else s.imageSignature
    layer := fun il => if dev.cuda then s.layer il else { s.layer il with n := pos } }

/-- What `session_rewind_preserves_kv` asks of a layer on the GPU. -/
def layerRewindPreservesKv (dev : Device) (live target il : Nat) : Bool :=
  let cap := dev.layerKvCap il
  if cap = 0 then false
  else if layerIsFull il then decide (live ≤ cap)
  else
    let retainedStart := if cap < live then live - cap else 0
    let nextHave := target + 1
    let neededStart := if slidingWindow < nextHave then nextHave - slidingWindow else 0
    decide (retainedStart ≤ neededStart)

/-- `session_rewind_preserves_kv`. -/
def sessionRewindPreservesKv (dev : Device) (s : Session) (pos : Nat) : Bool :=
  if ¬ s.checkpointValid ∨ s.checkpoint.length < pos then false
  else if pos = s.checkpoint.length then true
  else if ¬ dev.cuda then true
  else (List.range mainLayers).all (layerRewindPreservesKv dev s.checkpoint.length pos)

/-! ## Live rows -/

/-- `session_live_kv_rows`. -/
def sessionLiveKvRows (dev : Device) (s : Session) : Nat :=
  if dev.ctxSize < s.checkpoint.length then dev.ctxSize else s.checkpoint.length

/-- `session_layer_live_kv_rows`. -/
def sessionLayerLiveKvRows (dev : Device) (s : Session) (il : Nat) : Nat :=
  let rows := sessionLiveKvRows dev s
  let cap := dev.layerKvCap il
  let rows := if cap ≠ 0 ∧ cap < rows then cap else rows
  if ¬ dev.cuda ∧ il < mainLayers ∧ ¬ layerIsFull il ∧ (s.layer il).n ≠ 0 ∧
      (s.layer il).n < rows then
    (s.layer il).n
  else rows

/-- `session_kv_row_counts`. -/
def sessionKvRowCounts (dev : Device) (s : Session) : List Nat :=
  (List.range mainLayers).map (sessionLayerLiveKvRows dev s)

/-- `session_live_kv_row_sum`. -/
def sessionLiveKvRowSum (dev : Device) (s : Session) : Nat := (sessionKvRowCounts dev s).sum

/-- The place of a position's row in the cache of a layer. On the CPU the last row is that
of the last token; a negative place means that the row is not there. -/
def Session.place (dev : Device) (s : Session) (il p : Nat) : Int :=
  if dev.cuda then ((p % dev.cacheCap il : Nat) : Int)
  else ((s.layer il).n : Int) - s.checkpoint.length + p

/-- The row of keys and the row of values a session has for a position. -/
def Session.rowAt (dev : Device) (s : Session) (il p : Nat) : Row × Row :=
  ((s.layer il).k (s.place dev il p).toNat, (s.layer il).v (s.place dev il p).toNat)

/-! ## Images -/

/-- `sf37_image_features`: whether there are pixels, the rows they give where their shape
is right, the count, the dimension and the presence of rows that are given as such, the
two hashes of the signature where none of its sizes overflows, and the numbers
themselves. -/
structure ImageFeatures where
  hasPixels : Bool
  pixelRows : Option Nat
  rows : Nat
  dim : Nat
  hasData : Bool
  hashes : Option (UInt64 × UInt64)
  contents : Bytes
  deriving DecidableEq, Repr

/-- `SF37_VISION_PROJECTOR_IN`. -/
def visionProjectorIn : Nat := 6144

/-- `prompt_count_im_patch`, over the tokens counted. -/
def promptCountImPatch (imPatch : Option Token) (tokens : Tokens) : Nat :=
  match imPatch with
  | none => 0
  | some t => tokens.count t

/-- `image_features_effective_rows`. -/
def imageFeaturesEffectiveRows (f : ImageFeatures) : Option Nat :=
  if f.hasPixels then f.pixelRows else some f.rows

/-- `session_prepare_image_signature`, and the same checks at the top of
`sf37_session_sync_multimodal`: the signature, `none` inside where no rows are given. -/
def sessionPrepareImageSignature (imPatch : Option Token) (prompt : Tokens) :
    Option ImageFeatures → Option (Option ImageSignature)
  | none => some none
  | some f =>
      (imageFeaturesEffectiveRows f).bind fun rows =>
        if ¬ f.hasPixels ∧ 0 < f.rows ∧ ¬ f.hasData then none
        else if ¬ f.hasPixels ∧ 0 < f.rows ∧ f.dim ≠ embd ∧ f.dim ≠ visionProjectorIn then none
        else if promptCountImPatch imPatch prompt ≠ rows then none
        else if rows = 0 then some none
        else f.hashes.map fun h => some { a := h.1, b := h.2, rows := rows }

/-- `session_image_signature_matches`, of the signature of a sync; without image rows
there is none to match. -/
def signatureMatches (s : Session) : Option ImageSignature → Bool
  | none => true
  | some sig => decide (s.imageSignature = some sig)

/-! ## Reusable prefixes -/

/-- `sf37_session_common_prefix`. -/
def sessionCommonPrefix (s : Session) (prompt : Tokens) : Nat :=
  if s.checkpointValid then commonLen s.checkpoint prompt else 0

/-- `session_can_reuse_common`. -/
def sessionCanReuseCommon (dev : Device) (s : Session) (prompt : Tokens) (common : Nat) : Bool :=
  if ¬ s.checkpointValid then false
  else if common = 0 ∨ s.checkpoint.length < common ∨ prompt.length < common then false
  else if common = s.checkpoint.length then true
  else if common = prompt.length then false
  else sessionRewindPreservesKv dev s common

/-- `sf37_session_reusable_prefix_multimodal`, and without features
`sf37_session_reusable_prefix`. -/
def sessionReusablePrefix (dev : Device) (imPatch : Option Token) (s : Session) (prompt : Tokens)
    (features : Option ImageFeatures) : Nat :=
  if dev.ctxSize < prompt.length then 0
  else
    match sessionPrepareImageSignature imPatch prompt features with
    | none => 0
    | some sig =>
        let common := sessionCommonPrefix s prompt
        if sig.isSome ∧ 0 < promptCountImPatch imPatch (prompt.take common) ∧
            ¬ signatureMatches s sig then 0
        else if sessionCanReuseCommon dev s prompt common then common else 0

/-- A positive answer is the count of tokens in common with a valid session. -/
theorem reusablePrefix_pos {dev : Device} {imPatch : Option Token} {s : Session} {prompt : Tokens}
    {features : Option ImageFeatures}
    (h : 0 < sessionReusablePrefix dev imPatch s prompt features) :
    prompt.length ≤ dev.ctxSize ∧ s.checkpointValid = true ∧
      sessionReusablePrefix dev imPatch s prompt features = commonLen s.checkpoint prompt ∧
      0 < commonLen s.checkpoint prompt ∧
      ∃ sig, sessionPrepareImageSignature imPatch prompt features = some sig := by
  rw [sessionReusablePrefix] at h ⊢
  split at h
  · exact absurd h (by omega)
  next hctx =>
    rw [if_neg hctx]
    split at h
    · exact absurd h (by omega)
    next sig hsig =>
      dsimp only at h ⊢
      split at h
      · exact absurd h (by omega)
      next himg =>
        rw [if_neg himg]
        split at h
        next hreuse =>
          have hvalid : s.checkpointValid = true := by
            by_contra hv
            rw [sessionCanReuseCommon, if_pos hv] at hreuse
            nomatch hreuse
          rw [if_pos hreuse] at *
          rw [sessionCommonPrefix, if_pos hvalid] at *
          exact ⟨by omega, hvalid, rfl, h, sig, hsig⟩
        · exact absurd h (by omega)

end Sf37.Engine

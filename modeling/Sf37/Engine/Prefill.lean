/-
Sf37.Engine.Prefill — chunks of a prompt on the GPU, with the hidden vectors that pass
through the layers.

`Sf37.Engine.Eval` takes the rows of a position as given. Here they are computed: a layer
makes the rows of a position from its hidden vector, and the next hidden vector from the
rows that the query of the position reads. A chunk stores the rows of all its positions
before the first of its queries.

* `cudaPrefillChunkedRange`: a part of a prompt, chunk by chunk.
* `tokenByToken`: the same positions one by one.
-/
import Sf37.Engine.LayerRows
import Sf37.Run.Sweep
import Mathlib.Data.List.GetD

namespace Sf37.Engine

open Sf37.Text Sf37.Store Sf37.Run
open Sf37.Server (Token Tokens)

/-! ## The size of a chunk -/

/-- What `cuda_prefill_default_chunk` finds: the number set in the environment, where one
is, and the free memory of the GPU, where it is known. -/
structure ChunkSettings where
  chunkEnv : Option Int
  memoryInfo : Option Nat
  deriving DecidableEq, Repr

def gib : Nat := 1024 * 1024 * 1024

/-- `cuda_prefill_default_chunk`. -/
def cudaPrefillDefaultChunk (settings : ChunkSettings) (suffix : Nat) : Nat :=
  match settings.chunkEnv with
  | some parsed =>
      if parsed ≤ 0 then (if suffix ≠ 0 then suffix else 1)
      else if 262144 < parsed then 262144
      else parsed.toNat
  | none =>
      match settings.memoryInfo with
      | some freeB =>
          if 24 * gib ≤ freeB then 4096
          else if 12 * gib ≤ freeB then 2048
          else if 6 * gib ≤ freeB then 1024
          else 512
      | none => 512

theorem cudaPrefillDefaultChunk_pos (settings : ChunkSettings) (suffix : Nat) :
    0 < cudaPrefillDefaultChunk settings suffix := by
  unfold cudaPrefillDefaultChunk
  split
  · split
    · split <;> omega
    · split <;> omega
  · split
    · split
      · decide
      split
      · decide
      split <;> decide
    · decide

/-- The sizes that `cuda_decode_state_init` gives a session. -/
def Device.ofSettings (settings : ChunkSettings) (ctxSize : Nat) (hpos : 0 < ctxSize)
    (hle : ctxSize ≤ maxCtx) : Device :=
  ⟨ctxSize, hpos, hle, true, cudaPrefillDefaultChunk settings ctxSize⟩

/-- The outside world with the settings of the time. -/
def SyncEnv.withSettings (env : SyncEnv) (settings : ChunkSettings) : SyncEnv :=
  { env with
    defaultChunk := cudaPrefillDefaultChunk settings
    defaultChunk_pos := cudaPrefillDefaultChunk_pos settings }

/-! ## Layers -/

/-- The hidden vector of a position. -/
abbrev Hidden := Block hiddenBytes

/-- What the arithmetic yields, rounding aside: the vector of a token; the rows that a
layer makes of a position and its vector; the vector behind the layer, from that vector and
the rows its query reads; and the logits. -/
structure LayerMath where
  embed : Token → Hidden
  row : Nat → Nat → Hidden → Row × Row
  next : Nat → Nat → Hidden → List (Row × Row) → Hidden
  logits : Hidden → Block logitsBytes

/-- `store_kv_cache_batch_kernel`. -/
def storeKvCacheBatch (cap : Nat) : Nat → List (Row × Row) → LayerCache → LayerCache
  | _, [], cache => cache
  | pos, row :: rows, cache =>
      storeKvCacheBatch cap (pos + 1) rows (storeKvCache cap pos cache row.1 row.2)

/-- `cuda_decode_layer`. -/
def cudaDecodeLayer (dev : Device) (math : LayerMath) (il pos : Nat) (hidden : Hidden)
    (cache : LayerCache) : Hidden × LayerCache :=
  let row := math.row il pos hidden
  let cache := storeKvCacheBatch (dev.cacheCap il) pos [row] cache
  (math.next il pos hidden (dev.attended il cache pos), cache)

/-- The rows that a layer makes of a chunk. -/
def chunkRows (math : LayerMath) (il pos0 : Nat) (hidden : List Hidden) : List (Row × Row) :=
  hidden.mapIdx fun t h => math.row il (pos0 + t) h

/-- `cuda_prefill_layer`. -/
def cudaPrefillLayer (dev : Device) (math : LayerMath) (pos0 il : Nat) (hidden : List Hidden)
    (cache : LayerCache) : List Hidden × LayerCache :=
  let cache := storeKvCacheBatch (dev.cacheCap il) pos0 (chunkRows math il pos0 hidden) cache
  (hidden.mapIdx fun t h => math.next il (pos0 + t) h (dev.attended il cache (pos0 + t)), cache)

/-! ## Images -/

/-- `scatter_image_features_f32_kernel`. -/
def scatterImageFeatures (patch : Token) (tokens : Tokens) (features : List Hidden)
    (startFeatureRow : Nat) (hidden : List Hidden) : List Hidden :=
  hidden.mapIdx fun t h =>
    if tokens[t]? = some patch then
      features.getD (startFeatureRow + (tokens.take t).count patch) h
    else h

/-- The loop of `cuda_prefill_apply_image_features`, where the kernel is switched off. -/
def copyImageFeatures (patch : Token) (features : List Hidden) :
    Nat → Tokens → List Hidden → List Hidden
  | featureRow, token :: tokens, h :: hidden =>
      if token ≠ patch then h :: copyImageFeatures patch features featureRow tokens hidden
      else features.getD featureRow h ::
        copyImageFeatures patch features (featureRow + 1) tokens hidden
  | _, _, hidden => hidden

/-- `cuda_prefill_apply_image_features`, with the rows that
`cuda_prefill_prepare_image_projection` has made ready. -/
def cudaPrefillApplyImageFeatures (noScatter : Bool) (imPatch : Option Token) (prompt : Tokens)
    (pos0 nTok : Nat) (features : Option (List Hidden)) (hidden : List Hidden) :
    Option (List Hidden) :=
  match features with
  | none => some hidden
  | some rows =>
      if rows.length = 0 then some hidden
      else
        match imPatch with
        | none => none
        | some patch =>
            let tokens := (prompt.drop pos0).take nTok
            let featureRow := promptCountImPatch imPatch (prompt.take pos0)
            let chunkRows := promptCountImPatch imPatch tokens
            if chunkRows = 0 then some hidden
            else if rows.length < featureRow ∨ rows.length - featureRow < chunkRows then none
            else if noScatter then some (copyImageFeatures patch rows featureRow tokens hidden)
            else some (scatterImageFeatures patch tokens rows featureRow hidden)

/-! ## Chunks -/

/-- A chunk that was evaluated: where it starts, the vectors that went into the first
layer, and the caches that the queries of its layers read. -/
structure ChunkRun where
  pos0 : Nat
  input : List Hidden
  stored : Nat → LayerCache

/-- What all the chunks of a part are given. -/
structure PrefillJob where
  math : LayerMath
  noScatter : Bool
  imPatch : Option Token
  prompt : Tokens
  features : Option (List Hidden)

/-- `cuda_prefill_chunk`, where no call fails. -/
def PrefillJob.cudaPrefillChunk (job : PrefillJob) (dev : Device) (pos0 nTok : Nat)
    (needLogits : Bool) (s : Session) : Option (Session × ChunkRun) :=
  let embedded := ((job.prompt.drop pos0).take nTok).map job.math.embed
  match cudaPrefillApplyImageFeatures job.noScatter job.imPatch job.prompt pos0 nTok job.features
      embedded with
  | none => none
  | some input =>
      let out := sweep (cudaPrefillLayer dev job.math pos0) (List.range mainLayers) input s.layer
      let last := out.1.getD (nTok - 1) s.hidden
      some ({ s with
          hidden := last
          logits := if needLogits then job.math.logits last else s.logits
          layer := out.2 }, ⟨pos0, input, out.2⟩)

/-- What `cuda_prefill_chunked_range` returns, and the chunks it has evaluated. -/
structure RangeOut where
  session : Session
  rc : Int
  chunks : List ChunkRun

/-- The loop of `cuda_prefill_chunked_range`, `none` where it has not come to an end. -/
def PrefillJob.chunkLoop (job : PrefillJob) (dev : Device) (env : SyncEnv)
    (start stop chunkCap : Nat) : Nat → Session → Nat → List ChunkRun → Option RangeOut
  | 0, _, _, _ => none
  | fuel + 1, s, pos0, chunks =>
      if stop ≤ pos0 then some ⟨s, 1, chunks⟩
      else if env.cancelBefore pos0 then some ⟨{ s with checkpointValid := false }, -1, chunks⟩
      else
        let chunk := chunkSize start chunkCap (stop - pos0) pos0
        let needLogits := decide (pos0 + chunk = stop)
        match job.cudaPrefillChunk dev pos0 chunk needLogits s with
        | none => some ⟨{ s with checkpointValid := false }, -1, chunks⟩
        | some (s, run) =>
            let s := { s with
              checkpoint := s.checkpoint ++ (job.prompt.drop pos0).take chunk
              checkpointValid := true }
            if env.cancelAfter pos0 then
              some ⟨{ s with checkpointValid := false }, -1, chunks ++ [run]⟩
            else job.chunkLoop dev env start stop chunkCap fuel s (pos0 + chunk) (chunks ++ [run])

/-- `cuda_prefill_chunked_range`. -/
def PrefillJob.cudaPrefillChunkedRange (job : PrefillJob) (dev : Device) (env : SyncEnv)
    (start nTokens fuel : Nat) (s : Session) : Option RangeOut :=
  if nTokens = 0 then some ⟨s, 0, []⟩
  else
    let chunkCap := cudaPrefillSelectChunkCap dev env nTokens
    if chunkCap = 0 then some ⟨s, 0, []⟩
    else if job.features.isSome ∧ ¬ env.projectionOk then some ⟨s, -1, []⟩
    else job.chunkLoop dev env start (start + nTokens) chunkCap fuel s start []

/-! ## Token by token -/

/-- The vector that goes into the first layer: the next row of the images for an
`<im_patch>`, and the embedding for every other token. -/
def PrefillJob.tokenInput (job : PrefillJob) (p : Nat) : Hidden :=
  let token := job.prompt.getD p 0
  let embedded := job.math.embed token
  match job.features with
  | none => embedded
  | some rows =>
      if job.imPatch = some token then rows.getD ((job.prompt.take p).count token) embedded
      else embedded

/-- The vectors of `n` positions. -/
def PrefillJob.tokenInputs (job : PrefillJob) (start n : Nat) : List Hidden :=
  (List.range' start n).map job.tokenInput

/-- The layers of `sf37_session_eval_internal` for one position. -/
def decodeToken (dev : Device) (math : LayerMath) (pos : Nat) (hidden : Hidden)
    (layer : Nat → LayerCache) : Hidden × (Nat → LayerCache) :=
  sweep (fun il => cudaDecodeLayer dev math il pos) (List.range mainLayers) hidden layer

/-- `n` positions, one by one. -/
def PrefillJob.tokenByToken (job : PrefillJob) (dev : Device) (start n : Nat)
    (layer : Nat → LayerCache) : List Hidden × (Nat → LayerCache) :=
  feed (decodeToken dev job.math) start (job.tokenInputs start n) layer

/-- The rows that a layer makes of a position when the positions come one by one. -/
def PrefillJob.tokenRow (job : PrefillJob) (dev : Device) (start : Nat) (layer : Nat → LayerCache)
    (il p : Nat) : Row × Row :=
  let before := (job.tokenByToken dev start (p - start) layer).2
  let hidden := sweep (fun il => cudaDecodeLayer dev job.math il p) (List.range il)
    (job.tokenInput p) before
  job.math.row il p hidden.1

end Sf37.Engine

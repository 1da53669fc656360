/-
Sf37.Engine.Eval — evaluating tokens one by one or in chunks, and bringing a session in
line with a prompt.

What the arithmetic yields for a position is an argument (`StepValues`), and so is what
the outside world does: cancelled calls, GPU calls that fail, memory for the chunks.

* `sessionSync`: reset or rewind to a base, evaluate the rest, note the images.
-/
import Sf37.Engine.Session

namespace Sf37.Engine

open Sf37.Text Sf37.Store
open Sf37.Server (Token Tokens ImageSignature commonLen)

/-! ## One token -/

/-- What the arithmetic yields for a position: its rows, the hidden vector and the
logits. -/
structure StepValues where
  k : Nat → Row
  v : Nat → Row
  hidden : Block hiddenBytes
  logits : Block logitsBytes

/-- Where an evaluation on the GPU fails: at the embedding, in a layer before or after its
row is stored, or at the logits. -/
inductive EvalFault where
  | embed
  | layer (il : Nat) (stored : Bool)
  | output
  deriving DecidableEq, Repr

/-- The layers whose rows are stored. -/
def EvalFault.stores : Option EvalFault → Nat → Bool
  | none, _ => true
  | some .embed, _ => false
  | some (.layer j stored), il => decide (il < j) || (decide (il = j) && stored)
  | some .output, _ => true

/-- Store the rows of a position in some of the layers. -/
def storeStep (dev : Device) (vals : StepValues) (stored : Nat → Bool) (pos : Nat) (s : Session) :
    Session :=
  { s with
    layer := fun il =>
      if il < mainLayers ∧ stored il then dev.storeRow il pos (s.layer il) (vals.k il) (vals.v il)
      else s.layer il }

/-- The fault that `sf37_session_eval_internal` meets; on the CPU nothing fails. -/
def evalFaultMet (dev : Device) (needLogits : Bool) (fault : Option EvalFault) :
    Option EvalFault :=
  if ¬ dev.cuda then none
  else if fault = some .output ∧ ¬ needLogits then none
  else fault

/-- `sf37_session_eval_internal`. -/
def sessionEvalInternal (dev : Device) (s : Session) (token : Token) (vals : StepValues)
    (needLogits : Bool) (fault : Option EvalFault) : Session × Bool :=
  if vocabSize ≤ token then (s, false)
  else if dev.ctxSize ≤ s.checkpoint.length then (s, false)
  else
    let fault := evalFaultMet dev needLogits fault
    let stepped := storeStep dev vals (EvalFault.stores fault) s.checkpoint.length s
    match fault with
    | some _ => ({ stepped with checkpointValid := false }, false)
    | none =>
        ({ stepped with
            checkpoint := s.checkpoint ++ [token]
            checkpointValid := true
            hidden := if dev.cuda then s.hidden else vals.hidden
            logits := if needLogits then vals.logits else s.logits }, true)

/-- What the output step of `sf37_session_output_argmax` does on the GPU: it finds the
token there, or reads the logits, or fails. -/
inductive ArgmaxPath where
  | device
  | logits
  | fails
  deriving DecidableEq, Repr

/-- `sf37_session_eval_argmax`, the token aside. -/
def sessionEvalArgmax (dev : Device) (s : Session) (token : Token) (vals : StepValues)
    (fault : Option EvalFault) (path : ArgmaxPath) : Session × Bool :=
  match sessionEvalInternal dev s token vals false fault with
  | (s, false) => (s, false)
  | (s, true) =>
      if dev.cuda then
        match path with
        | .device => (s, true)
        | .logits => ({ s with logits := vals.logits }, true)
        | .fails => ({ s with checkpointValid := false }, false)
      else ({ s with logits := vals.logits }, true)

/-! ## Chunks -/

/-- Where a chunk fails: as a token does, or when the last hidden vector is read back. -/
inductive ChunkFault where
  | step (f : EvalFault)
  | hidden
  deriving DecidableEq, Repr

/-- The layers whose rows are stored. -/
def ChunkFault.stores : Option ChunkFault → Nat → Bool
  | none, _ => true
  | some (.step f), il => EvalFault.stores (some f) il
  | some .hidden, _ => true

/-- Store the rows of `n` positions in one layer. -/
def storeRows (dev : Device) (vals : Nat → StepValues) (il : Nat) :
    Nat → Nat → LayerCache → LayerCache
  | _, 0, layer => layer
  | pos, n + 1, layer =>
      storeRows dev vals il (pos + 1) n
        (dev.storeRow il pos layer ((vals pos).k il) ((vals pos).v il))

/-- The fault a chunk meets; without logits to compute that step is left out. -/
def chunkFaultMet (needLogits : Bool) (fault : Option ChunkFault) : Option ChunkFault :=
  if fault = some (.step .output) ∧ ¬ needLogits then none else fault

/-- `cuda_prefill_chunk`, without the tokens, which the caller pushes. -/
def cudaPrefillChunk (dev : Device) (vals : Nat → StepValues) (pos0 nTok : Nat)
    (needLogits : Bool) (fault : Option ChunkFault) (s : Session) : Session × Bool :=
  let fault := chunkFaultMet needLogits fault
  let last := vals (pos0 + nTok - 1)
  ({ s with
      hidden := if fault = none ∨ fault = some (.step .output) then last.hidden else s.hidden
      logits := if fault = none ∧ needLogits then last.logits else s.logits
      layer := fun il =>
        if il < mainLayers ∧ ChunkFault.stores fault il then
          storeRows dev vals il pos0 nTok (s.layer il)
        else s.layer il }, fault.isNone)

/-- What the outside world does during a sync. Positions are those of the prompt.
`cuda_prefill_default_chunk` is never zero. -/
structure SyncEnv where
  batchDisabled : Bool
  resumeMin : Nat
  defaultChunk : Nat → Nat
  defaultChunk_pos : ∀ n, 0 < defaultChunk n
  ensureState : Nat → Bool
  projectionOk : Bool
  cancelBefore : Nat → Bool
  cancelAfter : Nat → Bool
  chunkFault : Nat → Option ChunkFault
  evalFault : Nat → Option EvalFault

/-- A chunk cut down to the scratch memory of the session and to what is left. -/
def clampChunk (stateCap suffix c : Nat) : Nat :=
  let c := if stateCap ≠ 0 ∧ stateCap < c then stateCap else c
  if suffix < c then suffix else c

/-- The chunks that `cuda_prefill_select_chunk_cap` tries, in order. -/
def chunkCandidates (stateCap suffix wanted : Nat) : List Nat :=
  [4096, 2048, 1024, 512, 256].foldl (fun cs c =>
    let c := clampChunk stateCap suffix c
    if c = 0 ∨ c ∈ cs then cs else cs ++ [c]) [wanted]

/-- `cuda_prefill_select_chunk_cap`. -/
def cudaPrefillSelectChunkCap (dev : Device) (env : SyncEnv) (suffix : Nat) : Nat :=
  if suffix = 0 then 0
  else
    let wanted := clampChunk dev.prefillCap suffix (env.defaultChunk suffix)
    let wanted := if wanted = 0 then suffix else wanted
    ((chunkCandidates dev.prefillCap suffix wanted).find? env.ensureState).getD 0

/-- What a sync or a part of it leaves, and how many tokens it evaluated. -/
structure SyncOut where
  session : Session
  ok : Bool
  evaluated : Nat

/-- The next chunk of `cuda_prefill_chunked_range`. -/
def chunkSize (start chunkCap remaining pos0 : Nat) : Nat :=
  let chunk := if remaining < chunkCap then remaining else chunkCap
  if start ≠ 0 ∧ chunkCap ≠ 0 ∧ pos0 % chunkCap ≠ 0 ∧ chunkCap - pos0 % chunkCap < chunk then
    chunkCap - pos0 % chunkCap
  else chunk

/-- The loop of `cuda_prefill_chunked_range`. -/
def cudaPrefillLoop (dev : Device) (env : SyncEnv) (vals : Nat → StepValues) (prompt : Tokens)
    (start chunkCap : Nat) : Nat → Session → Nat → Nat → SyncOut
  | 0, s, _, evaluated => ⟨s, false, evaluated⟩
  | fuel + 1, s, pos0, evaluated =>
      if prompt.length ≤ pos0 then ⟨s, true, evaluated⟩
      else if env.cancelBefore pos0 then ⟨{ s with checkpointValid := false }, false, evaluated⟩
      else
        let chunk := chunkSize start chunkCap (prompt.length - pos0) pos0
        let needLogits := decide (pos0 + chunk = prompt.length)
        match cudaPrefillChunk dev vals pos0 chunk needLogits (env.chunkFault pos0) s with
        | (s, false) => ⟨{ s with checkpointValid := false }, false, evaluated⟩
        | (s, true) =>
            let s := { s with
              checkpoint := s.checkpoint ++ (prompt.drop pos0).take chunk
              checkpointValid := true }
            if env.cancelAfter pos0 then
              ⟨{ s with checkpointValid := false }, false, evaluated + chunk⟩
            else cudaPrefillLoop dev env vals prompt start chunkCap fuel s (pos0 + chunk)
              (evaluated + chunk)

/-! ## Sync -/

/-- The loop at the end of `sf37_session_sync_multimodal`. -/
def evalSuffix (dev : Device) (env : SyncEnv) (vals : Nat → StepValues) (promptLen : Nat) :
    Tokens → Session → Nat → Nat → SyncOut
  | [], s, _, evaluated => ⟨s, true, evaluated⟩
  | t :: rest, s, i, evaluated =>
      if env.cancelBefore i then ⟨s, false, evaluated⟩
      else
        match sessionEvalInternal dev s t (vals i) (decide (i + 1 = promptLen))
            (env.evalFault i) with
        | (s, false) => ⟨s, false, evaluated⟩
        | (s, true) =>
            if env.cancelAfter i then ⟨s, false, evaluated + 1⟩
            else evalSuffix dev env vals promptLen rest s (i + 1) (evaluated + 1)

/-- The session that a sync evaluates from, and how many tokens of the prompt it has. -/
def syncBase (dev : Device) (s : Session) (prompt : Tokens) (sig : Option ImageSignature) :
    Session × Nat :=
  let common := sessionCommonPrefix s prompt
  if ¬ signatureMatches s sig then (sessionReset dev s, 0)
  else if ¬ s.checkpointValid ∨ common = 0 ∨ common < s.checkpoint.length then
    (sessionReset dev s, 0)
  else if common < prompt.length then (sessionRewind dev s common, common)
  else (s, common)

/-- The signature a sync leaves. -/
def noteSignature (s : Session) : Option ImageSignature → Session
  | none => s
  | some sig => { s with imageSignature := some sig }

theorem noteSignature_layer (s : Session) (sig : Option ImageSignature) :
    (noteSignature s sig).layer = s.layer := by
  cases sig <;> rfl

theorem noteSignature_checkpoint (s : Session) (sig : Option ImageSignature) :
    (noteSignature s sig).checkpoint = s.checkpoint := by
  cases sig <;> rfl

theorem noteSignature_logits (s : Session) (sig : Option ImageSignature) :
    (noteSignature s sig).logits = s.logits := by
  cases sig <;> rfl

theorem noteSignature_place (dev : Device) (s : Session) (sig : Option ImageSignature)
    (il p : Nat) : (noteSignature s sig).place dev il p = s.place dev il p := by
  cases sig <;> rfl

theorem noteSignature_rowAt (dev : Device) (s : Session) (sig : Option ImageSignature)
    (il p : Nat) : (noteSignature s sig).rowAt dev il p = s.rowAt dev il p := by
  cases sig <;> rfl

/-- What a sync evaluates of the prompt, from its base. `suffixImageRows` counts the rows of
images among it. -/
def syncSuffix (dev : Device) (env : SyncEnv) (vals : Nat → StepValues) (prompt : Tokens)
    (base : Session) (common suffixImageRows : Nat) : SyncOut :=
  let oneByOne : SyncOut :=
    if 0 < suffixImageRows then ⟨base, false, 0⟩
    else evalSuffix dev env vals prompt.length (prompt.drop common) base common 0
  let suffix := prompt.length - common
  if dev.cuda ∧ ¬ env.batchDisabled ∧ 0 < suffix ∧ env.resumeMin ≤ suffix then
    let chunkCap := cudaPrefillSelectChunkCap dev env suffix
    if chunkCap = 0 then oneByOne
    else if 0 < suffixImageRows ∧ ¬ env.projectionOk then ⟨base, false, 0⟩
    else cudaPrefillLoop dev env vals prompt common chunkCap (suffix + 1) base common 0
  else oneByOne

/-- `sf37_session_sync_multimodal`, and without features `sf37_session_sync`. -/
def sessionSync (dev : Device) (imPatch : Option Token) (env : SyncEnv) (vals : Nat → StepValues)
    (s : Session) (prompt : Tokens) (features : Option ImageFeatures) : SyncOut :=
  if dev.ctxSize < prompt.length then ⟨s, false, 0⟩
  else
    match sessionPrepareImageSignature imPatch prompt features with
    | none => ⟨s, false, 0⟩
    | some sig =>
        let base := syncBase dev s prompt sig
        let suffixImageRows :=
          if sig.isSome then promptCountImPatch imPatch (prompt.drop base.2) else 0
        let r := syncSuffix dev env vals prompt base.1 base.2 suffixImageRows
        if r.ok then { r with session := noteSignature r.session sig } else r

/-! ## Small sessions -/

/-- A small context on the CPU. -/
def cpuDevice : Device := ⟨16, by decide, by decide, false, 0⟩

/-- Nothing fails and nothing is cancelled. -/
def SyncEnv.quiet : SyncEnv where
  batchDisabled := false
  resumeMin := 0
  defaultChunk := fun _ => 1
  defaultChunk_pos := fun _ => Nat.one_pos
  ensureState := fun _ => true
  projectionOk := true
  cancelBefore := fun _ => false
  cancelAfter := fun _ => false
  chunkFault := fun _ => none
  evalFault := fun _ => none

/-- All is zero. -/
def StepValues.zero : StepValues where
  k := fun _ => Block.fit _ []
  v := fun _ => Block.fit _ []
  hidden := Block.fit _ []
  logits := Block.fit _ []

/-- Rows that name their layer and a number. -/
def StepValues.numbered (n : UInt8) : StepValues where
  k il := Block.fit _ [n, UInt8.ofNat il]
  v il := Block.fit _ [UInt8.ofNat il, n]
  hidden := Block.fit _ [n]
  logits := Block.fit _ [n, n]

/-- A session that counts the rows of its tokens in every layer. -/
def Session.ofTokens (tokens : Tokens) : Session where
  checkpoint := tokens
  checkpointValid := true
  imageSignature := none
  logits := Block.fit _ []
  hidden := Block.fit _ []
  layer := fun _ =>
    { n := tokens.length, k := fun _ => Block.fit _ [], v := fun _ => Block.fit _ [] }

end Sf37.Engine

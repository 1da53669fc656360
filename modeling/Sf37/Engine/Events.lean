/-
Sf37.Engine.Events — the calls a session takes, one after the other.

What the arithmetic yields and what the outside world does comes with the call. A save
leaves the session as it is.

* `evalInternal_cases`, `evalArgmax_cases`: what one token leaves.
* `sync_cases`: what a sync leaves, however far it gets.
-/
import Sf37.Engine.Progress
import Sf37.Engine.LoadSession
import Sf37.Run.Guarded

namespace Sf37.Engine

open Sf37.Text Sf37.Store
open Sf37.Server (Token Tokens ImageSignature)

/-! ## Calls -/

/-- What `sf37_session_output_logits` or `sf37_session_output_argmax` leaves: logits that
were computed, nothing where the GPU found the token itself, or a failure. -/
inductive OutputEffect where
  | computed (logits : Block logitsBytes)
  | onDevice
  | failed
  deriving DecidableEq

/-- `sf37_session_output_logits`, and of the session `sf37_session_output_argmax`. -/
def sessionOutput (dev : Device) (s : Session) : OutputEffect → Session
  | .computed logits => { s with logits := logits }
  | .onDevice => s
  | .failed => if dev.cuda then { s with checkpointValid := false } else s

/-- `sf37_session_note_image_features`. -/
def sessionNoteImageFeatures (imPatch : Option Token) (s : Session) (prompt : Tokens)
    (features : Option ImageFeatures) : Session :=
  match sessionPrepareImageSignature imPatch prompt features with
  | none => s
  | some sig => noteSignature s sig

/-- The calls that change a session, and the saves. `eval` without logits is
`sf37_session_eval_no_logits`. -/
inductive SessionEvent where
  | eval (token : Token) (vals : StepValues) (needLogits : Bool) (fault : Option EvalFault)
  | evalArgmax (token : Token) (vals : StepValues) (fault : Option EvalFault) (path : ArgmaxPath)
  | sync (env : SyncEnv) (vals : Nat → StepValues) (prompt : Tokens)
      (features : Option ImageFeatures)
  | rewind (pos : Nat)
  | save
  | loadPayload (gpu : GpuWrites) (data : Bytes) (payloadBytes : Nat)
  | loadSnapshot (gpu : GpuWrites) (snap : Bytes)
  | output (effect : OutputEffect)
  | noteImages (prompt : Tokens) (features : Option ImageFeatures)

/-- What is the same for all calls of a session. -/
structure Setup where
  dev : Device
  imPatch : Option Token
  codec : KvCodec

/-- The session after a call. -/
def Setup.apply (e : Setup) (s : Session) : SessionEvent → Session
  | .eval token vals needLogits fault => (sessionEvalInternal e.dev s token vals needLogits fault).1
  | .evalArgmax token vals fault path => (sessionEvalArgmax e.dev s token vals fault path).1
  | .sync env vals prompt features => (sessionSync e.dev e.imPatch env vals s prompt features).session
  | .rewind pos => sessionRewind e.dev s pos
  | .save => s
  | .loadPayload gpu data payloadBytes =>
      (sessionLoadPayload e.dev e.codec gpu s data payloadBytes).1
  | .loadSnapshot gpu snap => (sessionLoadSnapshot e.dev gpu s snap).1
  | .output effect => sessionOutput e.dev s effect
  | .noteImages prompt features => sessionNoteImageFeatures e.imPatch s prompt features

/-- What `sf37_session_create` leaves; the memory of the rows is not cleared. -/
def Created (s : Session) : Prop :=
  s.checkpoint = [] ∧ s.checkpointValid = true ∧ s.imageSignature = none ∧ ∀ il, (s.layer il).n = 0

/-! ## One token -/

/-- What is left of a token that was evaluated. -/
def stepped (dev : Device) (s : Session) (token : Token) (vals : StepValues) (needLogits : Bool) :
    Session :=
  { storeStep dev vals (fun _ => true) s.checkpoint.length s with
    checkpoint := s.checkpoint ++ [token]
    checkpointValid := true
    hidden := if dev.cuda then s.hidden else vals.hidden
    logits := if needLogits then vals.logits else s.logits }

theorem stepped_layer (dev : Device) (s : Session) (token : Token) (vals : StepValues)
    (needLogits : Bool) {il : Nat} (hil : il < mainLayers) :
    (stepped dev s token vals needLogits).layer il =
      dev.storeRow il s.checkpoint.length (s.layer il) (vals.k il) (vals.v il) := by
  show (storeStep dev vals (fun _ => true) s.checkpoint.length s).layer il = _
  rw [storeStep_layer, if_pos ⟨hil, rfl⟩]

/-- A token is evaluated, or refused, or fails on the GPU with rows stored in some of the
layers. -/
theorem evalInternal_cases (dev : Device) (s : Session) (token : Token) (vals : StepValues)
    (needLogits : Bool) (fault : Option EvalFault) :
    (token < vocabSize ∧ s.checkpoint.length < dev.ctxSize ∧
      sessionEvalInternal dev s token vals needLogits fault =
        (stepped dev s token vals needLogits, true)) ∨
    sessionEvalInternal dev s token vals needLogits fault = (s, false) ∨
    (dev.cuda = true ∧ s.checkpoint.length < dev.ctxSize ∧ ∃ stored,
      sessionEvalInternal dev s token vals needLogits fault =
        ({ storeStep dev vals stored s.checkpoint.length s with checkpointValid := false },
          false)) := by
  rw [sessionEvalInternal]
  split
  · exact Or.inr (Or.inl rfl)
  next hvocab =>
    split
    · exact Or.inr (Or.inl rfl)
    next hctx =>
      cases hf : evalFaultMet dev needLogits fault with
      | some f => exact Or.inr (Or.inr ⟨evalFaultMet_cuda hf, Nat.lt_of_not_le hctx, _, rfl⟩)
      | none => exact Or.inl ⟨Nat.lt_of_not_le hvocab, Nat.lt_of_not_le hctx, rfl⟩

/-- After the token only the logits and the validity change. -/
theorem evalArgmax_cases (dev : Device) (s : Session) (token : Token) (vals : StepValues)
    (fault : Option EvalFault) (path : ArgmaxPath) :
    (sessionEvalInternal dev s token vals false fault).2 = false ∧
        sessionEvalArgmax dev s token vals fault path =
          sessionEvalInternal dev s token vals false fault ∨
    (sessionEvalInternal dev s token vals false fault).2 = true ∧
      ((dev.cuda = true ∧ path = .device ∧ sessionEvalArgmax dev s token vals fault path =
          sessionEvalInternal dev s token vals false fault) ∨
        (dev.cuda = true ∧ path = .fails ∧ sessionEvalArgmax dev s token vals fault path =
          ({ (sessionEvalInternal dev s token vals false fault).1 with checkpointValid := false },
            false)) ∨
        (¬ (dev.cuda = true ∧ path = .device) ∧ sessionEvalArgmax dev s token vals fault path =
          ({ (sessionEvalInternal dev s token vals false fault).1 with logits := vals.logits },
            true))) := by
  rw [sessionEvalArgmax]
  cases h : sessionEvalInternal dev s token vals false fault with
  | mk s' ok =>
    cases ok with
    | false => exact Or.inl ⟨rfl, rfl⟩
    | true =>
      refine Or.inr ⟨rfl, ?_⟩
      cases hcuda : dev.cuda with
      | false => exact Or.inr (Or.inr ⟨nofun, rfl⟩)
      | true =>
        cases path with
        | device => exact Or.inl ⟨rfl, rfl, rfl⟩
        | fails => exact Or.inr (Or.inl ⟨rfl, rfl, rfl⟩)
        | logits => exact Or.inr (Or.inr ⟨nofun, rfl⟩)

/-! ## A sync -/

/-- A sync is refused, or it gets to some position of the prompt from its base; where it
succeeds that is the end. -/
theorem sync_cases (dev : Device) (imPatch : Option Token) (env : SyncEnv)
    (vals : Nat → StepValues) (s : Session) (prompt : Tokens) (features : Option ImageFeatures) :
    ((dev.ctxSize < prompt.length ∨ sessionPrepareImageSignature imPatch prompt features = none) ∧
      sessionSync dev imPatch env vals s prompt features = ⟨s, false, 0⟩) ∨
    ∃ sig m s', prompt.length ≤ dev.ctxSize ∧
      sessionPrepareImageSignature imPatch prompt features = some sig ∧
      Stopped dev vals prompt (syncBase dev s prompt sig).1 (syncBase dev s prompt sig).2 m
        dev.prefillCap s' ∧
      (sessionSync dev imPatch env vals s prompt features).evaluated =
        m - (syncBase dev s prompt sig).2 ∧
      (((sessionSync dev imPatch env vals s prompt features).ok = false ∧
          (sessionSync dev imPatch env vals s prompt features).session = s') ∨
        ((sessionSync dev imPatch env vals s prompt features).ok = true ∧ m = prompt.length ∧
          Progress dev vals prompt (syncBase dev s prompt sig).1 (syncBase dev s prompt sig).2 m
            noneTorn s' ∧
          (s' = (syncBase dev s prompt sig).1 ∨ s'.checkpointValid = true) ∧
          (sessionSync dev imPatch env vals s prompt features).session = noteSignature s' sig)) := by
  rcases sessionSync_cases dev imPatch env vals s prompt features with
    hr | ⟨sig, r, hctx, hsig, hloop, hr⟩
  · exact Or.inl hr
  · refine Or.inr ⟨sig, ?_⟩
    obtain ⟨⟨m, hst, hev⟩, hdone⟩ := hloop
    by_cases hok : r.ok = true
    · obtain ⟨hp, hev', hv⟩ := hdone hok
      rw [if_pos hok] at hr
      rw [hr]
      refine ⟨prompt.length, r.session, hctx, hsig, .of_progress _ hp, ?_,
        Or.inr ⟨hok, rfl, hp, hv, rfl⟩⟩
      dsimp only
      omega
    · rw [if_neg hok] at hr
      rw [hr]
      exact ⟨m, r.session, hctx, hsig, hst, by omega, Or.inl ⟨by simpa using hok, rfl⟩⟩

end Sf37.Engine

/-
Sf37.Server.LiveEvents — a whole Messages or Responses stream, from its first event to its
last.

The buffers here may hold NUL bytes, which a generated token can bring: `strstr` then sees
a buffer up to the first of them only, while the senders are given pointer and length.

* `bufferUpdate`: the common algorithm of the splitters over such buffers.
* `anthropicRun`, `responsesRun`: the first event, the updates, and the end.
-/
import Sf37.Server.LiveSplit
import Sf37.Server.ParseGenerated

namespace Sf37.Server

open Sf37.Text

/-! ## Buffers -/

/-- `find_any_tool_start` of a pointer into a buffer. -/
def toolStartFrom (raw : Bytes) (pos : Nat) : Option Nat :=
  findAnyToolStart (cstr (raw.drop pos))

/-- `text_stream_safe_limit`. -/
def bufferSafeLimit (raw : Bytes) (start rawLen : Nat) (hasTools final : Bool) : Nat :=
  if rawLen ≤ start then rawLen
  else if hasTools then
    match toolStartFrom raw start with
    | some tool =>
        utf8StreamSafeLen raw start (trimToolSeparatorWs raw start (start + tool))
    | none =>
        if final then utf8StreamSafeLen raw start rawLen
        else
          let limit := markerLookBack raw start rawLen (retreat isspace raw start rawLen)
          utf8StreamSafeLen raw start (trimToolSeparatorWs raw start limit)
  else utf8StreamSafeLen raw start rawLen

section Update

variable {σ : Type} (emit : σ → Emit → Bool × σ)

/-- The `STREAM_TEXT` branch. -/
def bufferTextUpdate (hasTools : Bool) (raw : Bytes) (rawLen : Nat) (final : Bool)
    (st : ReasoningStream) (es : σ) : Bool × ReasoningStream × σ :=
  let tool := if hasTools then toolStartFrom raw st.emitPos else none
  let limit := bufferSafeLimit raw st.emitPos rawLen hasTools final
  match emitRange emit raw .text limit st es with
  | (false, st, es) => (false, st, es)
  | (true, st', es) =>
      match tool with
      | some t =>
          match emit es (.textDone true) with
          | (false, es) => (false, st', es)
          | (true, es) =>
              (true, { st' with emitPos := st.emitPos + t, mode := .suppress }, es)
      | none =>
          if final then
            match emit es (.textDone false) with
            | (false, es) => (false, st', es)
            | (true, es) => (true, { st' with mode := .suppress }, es)
          else (true, st', es)

/-- One call: the thinking branch, then the text branch if the mode is text by then. -/
def bufferUpdate (hasTools : Bool) (raw : Bytes) (rawLen : Nat) (final : Bool)
    (st : ReasoningStream) (es : σ) : Bool × ReasoningStream × σ :=
  match st.mode with
  | .thinking =>
      match thinkingUpdate emit raw rawLen final st es with
      | (false, st, es) => (false, st, es)
      | (true, st, es) =>
          if st.mode = .text then bufferTextUpdate emit hasTools raw rawLen final st es
          else (true, st, es)
  | .text => bufferTextUpdate emit hasTools raw rawLen final st es
  | .suppress => (true, st, es)

end Update

/-- One call after the other, until one fails. -/
def liveUpdates {σ : Type}
    (update : Bytes → Nat → ReasoningStream → σ → Bool × ReasoningStream × σ) :
    List (Bytes × Nat) → ReasoningStream → σ → Bool × ReasoningStream × σ
  | [], st, es => (true, st, es)
  | (raw, rawLen) :: calls, st, es =>
      match update raw rawLen st es with
      | (false, st, es) => (false, st, es)
      | (true, st, es) => liveUpdates update calls st es

/-! ## Anthropic -/

/-- `anthropic_live_start`. -/
def AnthropicLive.start (net : Nat → Bool) (st : AnthropicLive) : Bool × AnthropicLive :=
  if st.messageStarted then (true, st)
  else
    let (ok, st) := anthropicSend net st .messageStart
    (ok, { st with messageStarted := ok })

/-- `anthropic_live_stream_update`. -/
def anthropicLiveUpdate (net : Nat → Bool) (hasTools : Bool) (raw : Bytes) (rawLen : Nat)
    (final : Bool) (st : ReasoningStream) (as : AnthropicLive) :
    Bool × ReasoningStream × AnthropicLive :=
  bufferUpdate (anthropicEmit net) hasTools raw rawLen final st as

/-- `anthropic_live_tool_blocks`. -/
def anthropicLiveToolBlocks (net : Nat → Bool) (st : AnthropicLive) :
    List ToolCall → Bool × AnthropicLive
  | [] => (true, st)
  | tc :: calls =>
      match anthropicSend net st (.toolStart st.nextIndex tc.id tc.name) with
      | (false, st) => (false, st)
      | (true, st) =>
      match anthropicSend net st
          (.inputJsonDelta st.nextIndex (appendJsonObjectOrEmpty tc.arguments)) with
      | (false, st) => (false, st)
      | (true, st) =>
      match anthropicSend net st (.blockStop st.nextIndex) with
      | (false, st) => (false, st)
      | (true, st) =>
          anthropicLiveToolBlocks net { st with nextIndex := st.nextIndex + 1 } calls

/-- `stop_reason` of `anthropic_live_finish`. -/
def anthropicStopReason (calls : List ToolCall) (finish : Option Finish) : AnthropicStop :=
  if calls ≠ [] then .toolUse
  else if finish = some .length then .maxTokens
  else .endTurn

/-- `anthropic_live_finish`. -/
def anthropicLiveFinish (net : Nat → Bool) (hasTools : Bool) (raw : Bytes) (rawLen : Nat)
    (calls : List ToolCall) (finish : Option Finish) (st : ReasoningStream)
    (as : AnthropicLive) : Bool × AnthropicLive :=
  match AnthropicLive.start net as with
  | (false, as) => (false, as)
  | (true, as) =>
  match anthropicLiveUpdate net hasTools raw rawLen true st as with
  | (false, _, as) => (false, as)
  | (true, _, as) =>
  match anthropicLiveCloseBlock net as with
  | (false, as) => (false, as)
  | (true, as) =>
  match anthropicLiveToolBlocks net as calls with
  | (false, as) => (false, as)
  | (true, as) =>
  match anthropicSend net as (.messageDelta (anthropicStopReason calls finish)) with
  | (false, as) => (false, as)
  | (true, as) => anthropicSend net as .messageStop

/-- The Messages stream of `run_generation`. -/
def anthropicRun (net : Nat → Bool) (think : ThinkMode) (hasTools : Bool)
    (updates : List (Bytes × Nat)) (raw : Bytes) (rawLen : Nat) (calls : List ToolCall)
    (finish : Option Finish) : Bool × AnthropicLive :=
  match AnthropicLive.start net {} with
  | (false, as) => (false, as)
  | (true, as) =>
  match liveUpdates (fun raw rawLen => anthropicLiveUpdate net hasTools raw rawLen false) updates
      (reasoningStreamInit think) as with
  | (false, _, as) => (false, as)
  | (true, st, as) => anthropicLiveFinish net hasTools raw rawLen calls finish st as

/-! ## Responses -/

/-- `responses_live_stream_update`. -/
def responsesLiveUpdate (net : Nat → Bool) (hasTools summaryEmit : Bool)
    (finish : Option Finish) (raw : Bytes) (rawLen : Nat) (final : Bool)
    (st : ReasoningStream) (rs : ResponsesLive) : Bool × ReasoningStream × ResponsesLive :=
  bufferUpdate (responsesEmit net summaryEmit finish) hasTools raw rawLen final st rs

/-- The loop of `responses_live_finish` over the tool calls. -/
def responsesLiveCalls (net : Nat → Bool) (rs : ResponsesLive) (outputIndex : Int) (i : Nat) :
    List ToolCall → Bool × ResponsesLive
  | [] => (true, rs)
  | tc :: calls =>
      let arguments := appendJsonObjectOrEmpty tc.arguments
      match responsesLiveEvent net rs (.callItemAdded outputIndex i tc.name tc.id) with
      | (false, rs) => (false, rs)
      | (true, rs) =>
      match responsesLiveEvent net rs (.callArgumentsDelta outputIndex i arguments) with
      | (false, rs) => (false, rs)
      | (true, rs) =>
      match responsesLiveEvent net rs (.callArgumentsDone outputIndex i tc.name arguments) with
      | (false, rs) => (false, rs)
      | (true, rs) =>
      match responsesLiveEvent net rs
          (.callItemDone outputIndex i tc.name tc.id arguments) with
      | (false, rs) => (false, rs)
      | (true, rs) => responsesLiveCalls net rs (outputIndex + 1) (i + 1) calls

/-- `responses_live_finish`, up to the `[DONE]` line. -/
def responsesLiveFinish (net : Nat → Bool) (hasTools summaryEmit : Bool) (raw : Bytes)
    (rawLen : Nat) (calls : List ToolCall) (finish : Option Finish) (st : ReasoningStream)
    (rs : ResponsesLive) : Bool × ResponsesLive :=
  match responsesLiveCreated net rs with
  | (false, rs) => (false, rs)
  | (true, rs) =>
  match responsesLiveUpdate net hasTools summaryEmit finish raw rawLen true st rs with
  | (false, _, rs) => (false, rs)
  | (true, _, rs) =>
  match responsesLiveReasoningDone net rs with
  | (false, rs) => (false, rs)
  | (true, rs) =>
  match responsesLiveMessageDone net rs finish with
  | (false, rs) => (false, rs)
  | (true, rs) =>
  match responsesLiveCalls net rs rs.nextOutputIndex 0 calls with
  | (false, rs) => (false, rs)
  | (true, rs) => responsesLiveEvent net rs (.finished (responseStatusForFinish finish))

/-- The Responses stream of `run_generation`. -/
def responsesRun (net : Nat → Bool) (think : ThinkMode) (hasTools summaryEmit : Bool)
    (updates : List (Bytes × Nat)) (raw : Bytes) (rawLen : Nat) (calls : List ToolCall)
    (finish : Option Finish) : Bool × ResponsesLive :=
  match responsesLiveCreated net {} with
  | (false, rs) => (false, rs)
  | (true, rs) =>
  match liveUpdates
      (fun raw rawLen => responsesLiveUpdate net hasTools summaryEmit none raw rawLen false)
      updates (reasoningStreamInit think) rs with
  | (false, _, rs) => (false, rs)
  | (true, st, rs) =>
      responsesLiveFinish net hasTools summaryEmit raw rawLen calls finish st rs

end Sf37.Server

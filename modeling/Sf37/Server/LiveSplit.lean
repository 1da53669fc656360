/-
Sf37.Server.LiveSplit — the live splitters: `reasoning_stream_update`,
`responses_live_stream_update` and `anthropic_live_stream_update`.

Each is called with a growing buffer and cuts it into reasoning text and
content text as it grows. The three functions are one algorithm over one
state (`ReasoningStream`: the mode, whether the `<think>` prefix was looked
for, and how far text was handed out) and differ only in what they do with a
piece of text and at the end of a phase. So the algorithm is written once,
`splitUpdate`, over an emitter: a function that takes an `Emit` order, acts on
a state of its own and says whether its sends succeeded. A failed order ends
the update with `false` and the state as it stood, as the early returns of the
source do.

* `chatUpdate` sends `reasoning_content` and `content` deltas.
* `responsesUpdate` opens output items, numbers events, keeps the text of the
  two items, and drops reasoning when no summary was asked for.
* `anthropicUpdate` opens and closes content blocks; its emitter refuses to
  open a block while one of the other kind is open.

The network is a function from the number of `send_all` calls made so far to
the success of the next one, so any pattern of failures can be asked about.
Event texts are kept as data: the JSON around them carries ids and time
stamps no control flow reads.
-/
import Sf37.Server.Markers
import Sf37.Text.Utf8Hold

namespace Sf37.Server

open Sf37.Text

/-! ## State and orders -/

/-- `sf37_think_mode`. -/
inductive ThinkMode where
  | none
  | enabled
  deriving DecidableEq, Repr

/-- `stream_mode`. -/
inductive StreamMode where
  | thinking
  | text
  | suppress
  deriving DecidableEq, Repr

/-- `reasoning_stream`; the other two stream states begin with these fields. -/
structure ReasoningStream where
  mode : StreamMode
  checkedThinkPrefix : Bool
  emitPos : Nat
  deriving DecidableEq, Repr

/-- `reasoning_stream_init`. -/
def reasoningStreamInit (think : ThinkMode) : ReasoningStream where
  mode := if think = .enabled then .thinking else .text
  checkedThinkPrefix := false
  emitPos := 0

/-- What a splitter tells its emitter: text of either kind, the end of the
reasoning (by a closing tag or by the end of the text), and the end of the
content (by a tool opener or by the end of the text). -/
inductive Emit where
  | reasoning (t : Bytes)
  | reasoningDone (closed : Bool)
  | text (t : Bytes)
  | textDone (tool : Bool)
  deriving DecidableEq, Repr

/-! ## `text_stream_safe_limit` -/

/-- The look-back loop of `text_stream_safe_limit`: nothing from the last `<`
among the last 80 bytes on. -/
def markerLookBack (raw : Bytes) (start rawLen limit : Nat) : Nat :=
  let scan := if 80 < rawLen - start then rawLen - 80 else start
  match lastBefore (· == 0x3c) raw scan rawLen with
  | some marker => if marker < limit then marker else limit
  | none => limit

/-- How far content may be handed out. Without an opener in the buffer and
before the end of the text, trailing white space and what could begin an
opener is held back. -/
def textStreamSafeLimit (raw : Bytes) (start rawLen : Nat) (hasTools final : Bool) : Nat :=
  if rawLen ≤ start then rawLen
  else if hasTools then
    match findAnyToolStart (raw.drop start) with
    | some tool =>
        utf8StreamSafeLen raw start (trimToolSeparatorWs raw start (start + tool))
    | none =>
        if final then utf8StreamSafeLen raw start rawLen
        else
          let limit := markerLookBack raw start rawLen (retreat isspace raw start rawLen)
          utf8StreamSafeLen raw start (trimToolSeparatorWs raw start limit)
  else utf8StreamSafeLen raw start rawLen

/-! ## The common algorithm -/

section Split

variable {σ : Type} (emit : σ → Emit → Bool × σ)

/-- Hand out `raw[emit_pos..limit)` if that is not empty, and move on if the
send succeeds. -/
def emitRange (raw : Bytes) (mk : Bytes → Emit) (limit : Nat) (st : ReasoningStream)
    (es : σ) : Bool × ReasoningStream × σ :=
  if st.emitPos < limit then
    match emit es (mk (slice raw st.emitPos limit)) with
    | (true, es') => (true, { st with emitPos := limit }, es')
    | (false, es') => (false, st, es')
  else (true, st, es)

/-- The `<think>` prefix check: `none` while the bytes so far could still be
the beginning of the tag. -/
def checkThinkPrefix (raw : Bytes) (rawLen : Nat) (final : Bool) (st : ReasoningStream) :
    Option ReasoningStream :=
  if st.checkedThinkPrefix then some st
  else if rawLen < thinkOpen.length ∧ raw.take rawLen = thinkOpen.take rawLen ∧
      final = false then none
  else some
    { st with
      emitPos :=
        if thinkOpen.length ≤ rawLen ∧ startsWith raw thinkOpen then thinkOpen.length
        else st.emitPos
      checkedThinkPrefix := true }

/-- How far reasoning may be handed out: up to the closing tag, to the end of
the text, or short of the bytes that could begin a closing tag. -/
def thinkingLimit (raw : Bytes) (rawLen : Nat) (final : Bool) (emitPos : Nat) :
    Option Nat → Nat
  | some close => close
  | none =>
      if final then rawLen
      else
        let hold := thinkClose.length - 1
        utf8StreamSafeLen raw emitPos (if hold < rawLen then rawLen - hold else emitPos)

/-- The `STREAM_THINKING` branch. -/
def thinkingUpdate (raw : Bytes) (rawLen : Nat) (final : Bool) (st : ReasoningStream)
    (es : σ) : Bool × ReasoningStream × σ :=
  match checkThinkPrefix raw rawLen final st with
  | none => (true, st, es)
  | some st =>
      let close := findSubstrFrom raw rawLen st.emitPos thinkClose
      let limit := thinkingLimit raw rawLen final st.emitPos close
      match emitRange emit raw .reasoning limit st es with
      | (false, st, es) => (false, st, es)
      | (true, st, es) =>
          match close with
          | some c =>
              match emit es (.reasoningDone true) with
              | (false, es) => (false, st, es)
              | (true, es) =>
                  (true, { st with emitPos := c + thinkClose.length, mode := .text }, es)
          | none =>
              if final then
                match emit es (.reasoningDone false) with
                | (false, es) => (false, st, es)
                | (true, es) => (true, { st with mode := .suppress }, es)
              else (true, st, es)

/-- The `STREAM_TEXT` branch. The opener is searched from the old position,
before anything is handed out. -/
def textUpdate (hasTools : Bool) (raw : Bytes) (rawLen : Nat) (final : Bool)
    (st : ReasoningStream) (es : σ) : Bool × ReasoningStream × σ :=
  let tool := if hasTools then findAnyToolStart (raw.drop st.emitPos) else none
  let limit := textStreamSafeLimit raw st.emitPos rawLen hasTools final
  match emitRange emit raw .text limit st es with
  | (false, st, es) => (false, st, es)
  | (true, st', es) =>
      match tool with
      | some t =>
          match emit es (.textDone true) with
          | (false, es) => (false, st', es)
          | (true, es) =>
              (true, { st' with emitPos := st.emitPos + t, mode := .suppress }, es)
      | none =>
          if final then
            match emit es (.textDone false) with
            | (false, es) => (false, st', es)
            | (true, es) => (true, { st' with mode := .suppress }, es)
          else (true, st', es)

/-- One call: the thinking branch, then the text branch if the mode is text by
then. -/
def splitUpdate (hasTools : Bool) (raw : Bytes) (rawLen : Nat) (final : Bool)
    (st : ReasoningStream) (es : σ) : Bool × ReasoningStream × σ :=
  match st.mode with
  | .thinking =>
      match thinkingUpdate emit raw rawLen final st es with
      | (false, st, es) => (false, st, es)
      | (true, st, es) =>
          if st.mode = .text then textUpdate emit hasTools raw rawLen final st es
          else (true, st, es)
  | .text => textUpdate emit hasTools raw rawLen final st es
  | .suppress => (true, st, es)

end Split

/-! ## The wire -/

/-- What was sent, and how many `send_all` calls were made. -/
structure Wire (ε : Type) where
  calls : Nat := 0
  sent : List ε := []

/-- `send_all` of one event on a network given by the success of each call. -/
def sendAll {ε : Type} (net : Nat → Bool) (w : Wire ε) (ev : ε) : Bool × Wire ε :=
  if net w.calls then (true, { calls := w.calls + 1, sent := w.sent ++ [ev] })
  else (false, { w with calls := w.calls + 1 })

/-- The network on which every send succeeds. -/
def allSends : Nat → Bool := fun _ => true

@[simp] theorem sendAll_allSends {ε : Type} (w : Wire ε) (ev : ε) :
    sendAll allSends w ev = (true, { calls := w.calls + 1, sent := w.sent ++ [ev] }) := rfl

/-! ## Chat Completions -/

/-- The `delta` field an SSE chunk carries. -/
inductive ChatDelta where
  | reasoningContent (t : Bytes)
  | content (t : Bytes)
  deriving DecidableEq, Repr

/-- `sse_delta_n`. -/
def sseDeltaN (net : Nat → Bool) (w : Wire ChatDelta) (mk : Bytes → ChatDelta) (t : Bytes) :
    Bool × Wire ChatDelta :=
  if t.length = 0 then (true, w) else sendAll net w (mk t)

/-- The sends of `reasoning_stream_update`; ending a phase sends nothing. -/
def chatEmit (net : Nat → Bool) (w : Wire ChatDelta) : Emit → Bool × Wire ChatDelta
  | .reasoning t => sseDeltaN net w .reasoningContent t
  | .text t => sseDeltaN net w .content t
  | .reasoningDone _ => (true, w)
  | .textDone _ => (true, w)

/-- `reasoning_stream_update`. -/
def reasoningStreamUpdate (net : Nat → Bool) (hasTools : Bool) (raw : Bytes) (rawLen : Nat)
    (final : Bool) (st : ReasoningStream) (w : Wire ChatDelta) :
    Bool × ReasoningStream × Wire ChatDelta :=
  splitUpdate (chatEmit net) hasTools raw rawLen final st w

/-- The reasoning text among sent deltas. -/
def chatReasoning (w : Wire ChatDelta) : Bytes :=
  w.sent.flatMap fun | .reasoningContent t => t | .content _ => []

/-- The content text among sent deltas. -/
def chatContent (w : Wire ChatDelta) : Bytes :=
  w.sent.flatMap fun | .reasoningContent _ => [] | .content t => t

/-! ## Finish reasons -/

/-- `api_style`. -/
inductive ApiStyle where
  | openai
  | completions
  | responses
  | anthropic
  deriving DecidableEq, Repr

/-- The finish reasons `run_generation` works with. -/
inductive Finish where
  | stop
  | length
  | toolCalls
  | error
  deriving DecidableEq, Repr

/-! ## Responses -/

/-- The status of a Responses item. -/
inductive ResponseStatus where
  | completed
  | incomplete
  | failed
  deriving DecidableEq, Repr

/-- The events of a Responses stream, without the sequence number that
`responses_live_event_json` adds. The id of a function call item ends in its number. -/
inductive ResponsesEvent where
  | created
  | reasoningItemAdded (outputIndex : Int)
  | reasoningPartAdded (outputIndex : Int)
  | reasoningDelta (outputIndex : Int) (t : Bytes)
  | reasoningTextDone (outputIndex : Int) (t : Bytes)
  | reasoningPartDone (outputIndex : Int) (t : Bytes)
  | reasoningItemDone (outputIndex : Int) (completed : Bool) (t : Bytes)
  | messageItemAdded (outputIndex : Int)
  | messagePartAdded (outputIndex : Int)
  | textDelta (outputIndex : Int) (t : Bytes)
  | textDone (outputIndex : Int) (t : Bytes)
  | messagePartDone (outputIndex : Int) (t : Bytes)
  | messageItemDone (outputIndex : Int) (status : ResponseStatus) (t : Bytes)
  | callItemAdded (outputIndex : Int) (call : Nat) (name callId : Bytes)
  | callArgumentsDelta (outputIndex : Int) (call : Nat) (arguments : Bytes)
  | callArgumentsDone (outputIndex : Int) (call : Nat) (name arguments : Bytes)
  | callItemDone (outputIndex : Int) (call : Nat) (name callId arguments : Bytes)
  | finished (status : ResponseStatus)
  deriving DecidableEq, Repr

/-- `responses_live_stream` without the splitter's own fields and the ids. -/
structure ResponsesLive where
  createdSent : Bool := false
  reasoningOpened : Bool := false
  reasoningPartOpen : Bool := false
  reasoningDone : Bool := false
  reasoningClosedNaturally : Bool := false
  messageOpened : Bool := false
  messagePartOpen : Bool := false
  messageDone : Bool := false
  nextOutputIndex : Int := 0
  reasoningIndex : Int := -1
  messageIndex : Int := -1
  sequence : Nat := 0
  reasoningText : Bytes := []
  messageText : Bytes := []
  wire : Wire (Nat × ResponsesEvent) := {}

/-- `responses_live_event_json`: the sequence number moves on even when the
send fails. -/
def responsesLiveEvent (net : Nat → Bool) (st : ResponsesLive) (ev : ResponsesEvent) :
    Bool × ResponsesLive :=
  let (ok, wire) := sendAll net st.wire (st.sequence, ev)
  (ok, { st with sequence := st.sequence + 1, wire := wire })

/-- `responses_live_created`. -/
def responsesLiveCreated (net : Nat → Bool) (st : ResponsesLive) : Bool × ResponsesLive :=
  if st.createdSent then (true, st)
  else
    let (ok, st) := responsesLiveEvent net st .created
    (ok, { st with createdSent := ok })

/-- `responses_live_reasoning_delta`. -/
def responsesLiveReasoningDelta (net : Nat → Bool) (st : ResponsesLive) (t : Bytes) :
    Bool × ResponsesLive :=
  match responsesLiveCreated net st with
  | (false, st) => (false, st)
  | (true, st) =>
  match
    if st.reasoningOpened then (true, st)
    else
      let st := { st with
        reasoningIndex := st.nextOutputIndex
        nextOutputIndex := st.nextOutputIndex + 1 }
      match responsesLiveEvent net st (.reasoningItemAdded st.reasoningIndex) with
      | (false, st) => (false, st)
      | (true, st) => (true, { st with reasoningOpened := true }) with
  | (false, st) => (false, st)
  | (true, st) =>
  match
    if st.reasoningPartOpen then (true, st)
    else
      match responsesLiveEvent net st (.reasoningPartAdded st.reasoningIndex) with
      | (false, st) => (false, st)
      | (true, st) => (true, { st with reasoningPartOpen := true }) with
  | (false, st) => (false, st)
  | (true, st) =>
  match responsesLiveEvent net st (.reasoningDelta st.reasoningIndex t) with
  | (false, st) => (false, st)
  | (true, st) => (true, { st with reasoningText := st.reasoningText ++ t })

/-- `responses_live_reasoning_done`. Its events have the text as a C string, where
`json_escape` ends it. -/
def responsesLiveReasoningDone (net : Nat → Bool) (st : ResponsesLive) :
    Bool × ResponsesLive :=
  if !st.reasoningOpened || st.reasoningDone then (true, st)
  else
    match
      if st.reasoningPartOpen then
        match responsesLiveEvent net st
            (.reasoningTextDone st.reasoningIndex (cstr st.reasoningText)) with
        | (false, st) => (false, st)
        | (true, st) =>
            responsesLiveEvent net st
              (.reasoningPartDone st.reasoningIndex (cstr st.reasoningText))
      else (true, st) with
    | (false, st) => (false, st)
    | (true, st) =>
    let (ok, st) := responsesLiveEvent net st
      (.reasoningItemDone st.reasoningIndex st.reasoningClosedNaturally
        (cstr st.reasoningText))
    (ok, { st with reasoningDone := ok })

/-- `responses_live_text_delta`. -/
def responsesLiveTextDelta (net : Nat → Bool) (st : ResponsesLive) (t : Bytes) :
    Bool × ResponsesLive :=
  match responsesLiveCreated net st with
  | (false, st) => (false, st)
  | (true, st) =>
  match
    if st.messageOpened then (true, st)
    else
      let st := { st with
        messageIndex := st.nextOutputIndex
        nextOutputIndex := st.nextOutputIndex + 1 }
      match responsesLiveEvent net st (.messageItemAdded st.messageIndex) with
      | (false, st) => (false, st)
      | (true, st) => (true, { st with messageOpened := true }) with
  | (false, st) => (false, st)
  | (true, st) =>
  match
    if st.messagePartOpen then (true, st)
    else
      match responsesLiveEvent net st (.messagePartAdded st.messageIndex) with
      | (false, st) => (false, st)
      | (true, st) => (true, { st with messagePartOpen := true }) with
  | (false, st) => (false, st)
  | (true, st) =>
  match responsesLiveEvent net st (.textDelta st.messageIndex t) with
  | (false, st) => (false, st)
  | (true, st) => (true, { st with messageText := st.messageText ++ t })

/-- `response_status_for_finish`. -/
def responseStatusForFinish : Option Finish → ResponseStatus
  | some .length => .incomplete
  | some .error => .failed
  | _ => .completed

/-- `responses_live_message_done`. -/
def responsesLiveMessageDone (net : Nat → Bool) (st : ResponsesLive)
    (finish : Option Finish) : Bool × ResponsesLive :=
  if !st.messageOpened || st.messageDone then (true, st)
  else
    match
      if st.messagePartOpen then
        match responsesLiveEvent net st
            (.textDone st.messageIndex (cstr st.messageText)) with
        | (false, st) => (false, st)
        | (true, st) =>
            responsesLiveEvent net st (.messagePartDone st.messageIndex (cstr st.messageText))
      else (true, st) with
    | (false, st) => (false, st)
    | (true, st) =>
    let (ok, st) := responsesLiveEvent net st
      (.messageItemDone st.messageIndex (responseStatusForFinish finish)
        (cstr st.messageText))
    (ok, { st with messageDone := ok })

/-- What `responses_live_stream_update` does with each order: reasoning is
dropped unless the request asked for a summary. -/
def responsesEmit (net : Nat → Bool) (summaryEmit : Bool) (finish : Option Finish)
    (st : ResponsesLive) : Emit → Bool × ResponsesLive
  | .reasoning t =>
      if summaryEmit then responsesLiveReasoningDelta net st t else (true, st)
  | .reasoningDone closed =>
      responsesLiveReasoningDone net
        (if closed then { st with reasoningClosedNaturally := true } else st)
  | .text t => responsesLiveTextDelta net st t
  | .textDone tool =>
      responsesLiveMessageDone net st (if tool then some .toolCalls else finish)

/-- `responses_live_stream_update`. -/
def responsesLiveStreamUpdate (net : Nat → Bool) (hasTools summaryEmit : Bool)
    (finish : Option Finish) (raw : Bytes) (rawLen : Nat) (final : Bool)
    (st : ReasoningStream) (rs : ResponsesLive) : Bool × ReasoningStream × ResponsesLive :=
  splitUpdate (responsesEmit net summaryEmit finish) hasTools raw rawLen final st rs

/-! ## Anthropic -/

/-- `anthropic_block_type`. -/
inductive BlockType where
  | none
  | thinking
  | text
  deriving DecidableEq, Repr

/-- `stop_reason` of a Messages stream. -/
inductive AnthropicStop where
  | toolUse
  | maxTokens
  | endTurn
  deriving DecidableEq, Repr

/-- The events of a Messages stream, without the usage. -/
inductive AnthropicEvent where
  | messageStart
  | blockStart (index : Int) (type : BlockType)
  | delta (index : Int) (type : BlockType) (t : Bytes)
  | signatureDelta (index : Int)
  | toolStart (index : Int) (id name : Bytes)
  | inputJsonDelta (index : Int) (json : Bytes)
  | blockStop (index : Int)
  | messageDelta (reason : AnthropicStop)
  | messageStop
  deriving DecidableEq, Repr

/-- `anthropic_live_stream` without the splitter's own fields. -/
structure AnthropicLive where
  messageStarted : Bool := false
  nextIndex : Int := 0
  currentIndex : Int := -1
  currentBlock : BlockType := .none
  wire : Wire AnthropicEvent := {}

def anthropicSend (net : Nat → Bool) (st : AnthropicLive) (ev : AnthropicEvent) :
    Bool × AnthropicLive :=
  let (ok, wire) := sendAll net st.wire ev
  (ok, { st with wire := wire })

/-- `anthropic_live_open_block`: a block of the other kind must have been
closed before. -/
def anthropicLiveOpenBlock (net : Nat → Bool) (st : AnthropicLive) (type : BlockType) :
    Bool × AnthropicLive :=
  if st.currentBlock = type then (true, st)
  else if st.currentBlock ≠ .none then (false, st)
  else
    let st := { st with
      currentIndex := st.nextIndex
      nextIndex := st.nextIndex + 1
      currentBlock := type }
    anthropicSend net st (.blockStart st.currentIndex type)

/-- `anthropic_live_delta`. -/
def anthropicLiveDelta (net : Nat → Bool) (st : AnthropicLive) (type : BlockType)
    (t : Bytes) : Bool × AnthropicLive :=
  match anthropicLiveOpenBlock net st type with
  | (false, st) => (false, st)
  | (true, st) => anthropicSend net st (.delta st.currentIndex type t)

/-- `anthropic_live_close_block`. -/
def anthropicLiveCloseBlock (net : Nat → Bool) (st : AnthropicLive) : Bool × AnthropicLive :=
  if st.currentBlock = .none then (true, st)
  else
    match
      if st.currentBlock = .thinking then
        anthropicSend net st (.signatureDelta st.currentIndex)
      else (true, st) with
    | (false, st) => (false, st)
    | (true, st) =>
    match anthropicSend net st (.blockStop st.currentIndex) with
    | (false, st) => (false, st)
    | (true, st) => (true, { st with currentBlock := .none, currentIndex := -1 })

/-- What `anthropic_live_stream_update` does with each order. -/
def anthropicEmit (net : Nat → Bool) (st : AnthropicLive) : Emit → Bool × AnthropicLive
  | .reasoning t => anthropicLiveDelta net st .thinking t
  | .text t => anthropicLiveDelta net st .text t
  | .reasoningDone _ => anthropicLiveCloseBlock net st
  | .textDone _ => anthropicLiveCloseBlock net st

/-- `anthropic_live_stream_update`. -/
def anthropicLiveStreamUpdate (net : Nat → Bool) (hasTools : Bool) (raw : Bytes)
    (rawLen : Nat) (final : Bool) (st : ReasoningStream) (as : AnthropicLive) :
    Bool × ReasoningStream × AnthropicLive :=
  splitUpdate (anthropicEmit net) hasTools raw rawLen final st as

/-- The text handed to deltas of one block kind. -/
def anthropicText (type : BlockType) (as : AnthropicLive) : Bytes :=
  as.wire.sent.flatMap fun
    | .delta _ ty t => if ty = type then t else []
    | _ => []

end Sf37.Server

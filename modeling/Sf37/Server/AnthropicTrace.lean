/-
Sf37.Server.AnthropicTrace — the Messages stream, as content blocks.

Where all sends succeed the state of the stream is determined by what was handed out
(`anthropicAfter`): a thinking block, then a text block, each opened by its first piece.

* `anthropicFollows`: the emitter keeps the state in that form.
* `anthropicRun_wellFormed`: the events of a whole stream are well formed.
-/
import Sf37.Server.HandedOut
import Sf37.Server.ChunkIndependence
import Sf37.Run.Brackets

namespace Sf37.Server

open Sf37.Text Sf37.Run

/-! ## Well-formed streams -/

/-- The kinds of content blocks. -/
inductive ContentKind where
  | thinking
  | text
  | toolUse
  deriving DecidableEq, Repr

/-- The kind of a block that is not a tool's. -/
def contentKind (type : BlockType) : ContentKind :=
  if type = .thinking then .thinking else .text

/-- What an event says of a content block. -/
def anthropicMark : AnthropicEvent → Option (Mark ContentKind)
  | .messageStart => none
  | .blockStart i type => some (.opens i (contentKind type))
  | .delta i type _ => some (.within i (· == contentKind type))
  | .signatureDelta i => some (.within i (· == .thinking))
  | .toolStart i _ _ => some (.opens i .toolUse)
  | .inputJsonDelta i _ => some (.within i (· == .toolUse))
  | .blockStop i => some (.closes i fun _ => true)
  | .messageDelta _ => none
  | .messageStop => none

/-- A Messages stream: one `message_start`, content blocks one after the other, each with
its own deltas, and at the end `message_delta` and `message_stop`. -/
structure AnthropicWellFormed (trace : List AnthropicEvent) : Prop where
  start : ∃ rest, trace = .messageStart :: rest ∧ .messageStart ∉ rest
  blocks : WellBracketed anthropicMark trace
  stop : ∃ before reason, trace = before ++ [.messageDelta reason, .messageStop]

/-! ## The state by what was handed out -/

/-- What can have been handed out in a mode. -/
def Handed.InPhase (m : StreamMode) (h : Handed) : Prop :=
  match m with
  | .thinking => h.closed = none ∧ h.text = [] ∧ h.ended = none
  | .text => (h.closed = none → h.reasoning = []) ∧ h.ended = none
  | .suppress => (h.closed = none → h.reasoning = []) ∧ (h.ended = none → h.text = [])

/-- The events of the thinking block. -/
def thinkingBlock (h : Handed) : List AnthropicEvent :=
  if h.reasoning = [] then []
  else .blockStart 0 .thinking :: (h.reasoning.map (.delta 0 .thinking) ++
    if h.closed.isSome then [.signatureDelta 0, .blockStop 0] else [])

/-- The number of the text block. -/
def textBlockIndex (h : Handed) : Nat := if h.reasoning = [] then 0 else 1

/-- The events of the text block. -/
def textBlock (h : Handed) : List AnthropicEvent :=
  if h.text = [] then []
  else .blockStart (textBlockIndex h) .text ::
    (h.text.map (.delta (textBlockIndex h) .text) ++
      if h.ended.isSome then [.blockStop (textBlockIndex h)] else [])

/-- How many blocks were opened. -/
def blockCount (h : Handed) : Nat := textBlockIndex h + if h.text = [] then 0 else 1

def anthropicEvents (h : Handed) : List AnthropicEvent :=
  .messageStart :: (thinkingBlock h ++ textBlock h)

/-- The state of the stream. -/
def anthropicAfter (h : Handed) : AnthropicLive where
  messageStarted := true
  nextIndex := blockCount h
  currentIndex :=
    if h.reasoning ≠ [] ∧ h.closed = none then 0
    else if h.text ≠ [] ∧ h.ended = none then textBlockIndex h
    else -1
  currentBlock :=
    if h.reasoning ≠ [] ∧ h.closed = none then .thinking
    else if h.text ≠ [] ∧ h.ended = none then .text
    else .none
  wire := ⟨(anthropicEvents h).length, anthropicEvents h⟩

@[simp] theorem anthropicSend_allSends (as : AnthropicLive) (ev : AnthropicEvent) :
    anthropicSend allSends as ev =
      (true, { as with wire := ⟨as.wire.calls + 1, as.wire.sent ++ [ev]⟩ }) := rfl

/-- The emitter opens a block with the first piece of its kind and closes it at the end. -/
theorem anthropicFollows : Follows (anthropicEmit allSends) fun m h as =>
    h.InPhase m ∧ as = anthropicAfter h where
  reasoning := by
    rintro ⟨reasoning, closed, text, ended⟩ as t ⟨⟨hclosed, htext, hended⟩, rfl⟩
    obtain rfl : closed = none := hclosed
    obtain rfl : text = [] := htext
    obtain rfl : ended = none := hended
    refine ⟨_, ?_, ⟨rfl, rfl, rfl⟩, rfl⟩
    cases reasoning <;>
      simp [anthropicEmit, anthropicLiveDelta, anthropicLiveOpenBlock, anthropicAfter, record,
        anthropicEvents, thinkingBlock, textBlock, textBlockIndex, blockCount]
  reasoningDone := by
    rintro ⟨reasoning, closed, text, ended⟩ as c ⟨⟨hclosed, htext, hended⟩, rfl⟩
    obtain rfl : closed = none := hclosed
    obtain rfl : text = [] := htext
    obtain rfl : ended = none := hended
    refine ⟨_, ?_, ?_, rfl⟩
    · cases reasoning <;>
        simp [anthropicEmit, anthropicLiveCloseBlock, anthropicAfter, record,
          anthropicEvents, thinkingBlock, textBlock, textBlockIndex, blockCount]
    · cases c
      · exact ⟨fun h => (by cases h), fun _ => rfl⟩
      · exact ⟨fun h => (by cases h), rfl⟩
  text := by
    rintro ⟨reasoning, closed, text, ended⟩ as t ⟨⟨hclosed, hended⟩, rfl⟩
    obtain rfl : ended = none := hended
    refine ⟨_, ?_, ⟨hclosed, rfl⟩, rfl⟩
    cases closed with
    | none =>
      obtain rfl : reasoning = [] := hclosed rfl
      cases text <;>
        simp [anthropicEmit, anthropicLiveDelta, anthropicLiveOpenBlock, anthropicAfter, record,
          anthropicEvents, thinkingBlock, textBlock, textBlockIndex, blockCount]
    | some c =>
      cases text <;> cases reasoning <;>
        simp +arith [anthropicEmit, anthropicLiveDelta, anthropicLiveOpenBlock, anthropicAfter,
          record, anthropicEvents, thinkingBlock, textBlock, textBlockIndex, blockCount]
  textDone := by
    rintro ⟨reasoning, closed, text, ended⟩ as tool ⟨⟨hclosed, hended⟩, rfl⟩
    obtain rfl : ended = none := hended
    refine ⟨_, ?_, ⟨hclosed, fun h => (by cases h)⟩, rfl⟩
    cases closed with
    | none =>
      obtain rfl : reasoning = [] := hclosed rfl
      cases text <;>
        simp [anthropicEmit, anthropicLiveCloseBlock, anthropicAfter, record, anthropicEvents,
          thinkingBlock, textBlock, textBlockIndex, blockCount]
    | some c =>
      cases text <;> cases reasoning <;>
        simp +arith [anthropicEmit, anthropicLiveCloseBlock, anthropicAfter, record,
          anthropicEvents, thinkingBlock, textBlock, textBlockIndex, blockCount]

/-! ## The end of the stream -/

/-- The events of the tool blocks. -/
def toolEvents (index : Int) : List ToolCall → List AnthropicEvent
  | [] => []
  | tc :: calls =>
      .toolStart index tc.id tc.name ::
        .inputJsonDelta index (appendJsonObjectOrEmpty tc.arguments) ::
        .blockStop index :: toolEvents (index + 1) calls

theorem anthropicLiveToolBlocks_allSends (calls : List ToolCall) (as : AnthropicLive) :
    ∃ as', anthropicLiveToolBlocks allSends as calls = (true, as') ∧
      as'.wire.sent = as.wire.sent ++ toolEvents as.nextIndex calls := by
  induction calls generalizing as with
  | nil => exact ⟨as, rfl, (List.append_nil _).symm⟩
  | cons tc calls ih =>
    simp only [anthropicLiveToolBlocks, anthropicSend_allSends]
    obtain ⟨as', hrun, hsent⟩ := ih _
    refine ⟨as', hrun, ?_⟩
    rw [hsent]
    simp [toolEvents]

theorem track_toolEvents (calls : List ToolCall) (n : Nat) :
    track anthropicMark ⟨n, none⟩ (toolEvents n calls) = some ⟨n + calls.length, none⟩ := by
  induction calls generalizing n with
  | nil => rfl
  | cons tc calls ih =>
    have hblock : track anthropicMark ⟨n, none⟩
        (.toolStart n tc.id tc.name ::
          ([.inputJsonDelta n (appendJsonObjectOrEmpty tc.arguments)] ++ [.blockStop n])) =
        some ⟨n + 1, none⟩ :=
      track_item rfl (by simp [anthropicMark]) rfl rfl
    have hsplit : toolEvents n (tc :: calls) = (.toolStart n tc.id tc.name ::
        ([.inputJsonDelta n (appendJsonObjectOrEmpty tc.arguments)] ++ [.blockStop n])) ++
        toolEvents ((n + 1 : Nat) : Int) calls := rfl
    rw [hsplit, track_append, hblock, Option.bind_some, ih, List.length_cons]
    congr 2
    omega

theorem track_thinkingBlock {h : Handed} (hphase : h.InPhase .suppress) :
    track anthropicMark ⟨0, none⟩ (thinkingBlock h) = some ⟨textBlockIndex h, none⟩ := by
  unfold thinkingBlock textBlockIndex
  by_cases hr : h.reasoning = []
  · rw [if_pos hr, if_pos hr]
    rfl
  · obtain ⟨c, hclosed⟩ := Option.ne_none_iff_exists'.mp fun hc => hr (hphase.1 hc)
    have hinner : h.reasoning.map (AnthropicEvent.delta 0 .thinking) ++
        [.signatureDelta 0, .blockStop 0] =
        (h.reasoning.map (AnthropicEvent.delta 0 .thinking) ++ [.signatureDelta 0]) ++
          [.blockStop 0] := by
      rw [List.append_assoc]
      rfl
    rw [if_neg hr, if_neg hr, hclosed, Option.isSome_some, if_pos rfl, hinner]
    refine track_item rfl (fun e he => ?_) rfl rfl
    rcases List.mem_append.mp he with he | he
    · obtain ⟨t, -, rfl⟩ := List.mem_map.mp he
      exact ⟨_, rfl, rfl⟩
    · obtain rfl := List.mem_singleton.mp he
      exact ⟨_, rfl, rfl⟩

theorem track_textBlock {h : Handed} (hphase : h.InPhase .suppress) :
    track anthropicMark ⟨textBlockIndex h, none⟩ (textBlock h) = some ⟨blockCount h, none⟩ := by
  unfold textBlock blockCount
  by_cases ht : h.text = []
  · rw [if_pos ht, if_pos ht]
    rfl
  · obtain ⟨tool, hended⟩ := Option.ne_none_iff_exists'.mp fun hc => ht (hphase.2 hc)
    rw [if_neg ht, if_neg ht, hended, Option.isSome_some, if_pos rfl]
    refine track_item rfl (fun e he => ?_) rfl rfl
    obtain ⟨t, -, rfl⟩ := List.mem_map.mp he
    exact ⟨_, rfl, rfl⟩

theorem messageStart_not_mem_toolEvents (calls : List ToolCall) (index : Int) :
    AnthropicEvent.messageStart ∉ toolEvents index calls := by
  induction calls generalizing index with
  | nil => exact List.not_mem_nil
  | cons tc calls ih => simp [toolEvents, ih]

/-- What is sent at the end, after the two blocks. -/
def anthropicTail (h : Handed) (calls : List ToolCall) (finish : Option Finish) :
    List AnthropicEvent :=
  toolEvents (blockCount h) calls ++
    [.messageDelta (anthropicStopReason calls finish), .messageStop]

theorem anthropicTrace_wellFormed {h : Handed} (hphase : h.InPhase .suppress)
    (calls : List ToolCall) (finish : Option Finish) :
    AnthropicWellFormed (anthropicEvents h ++ anthropicTail h calls finish) where
  start := by
    refine ⟨thinkingBlock h ++ textBlock h ++ anthropicTail h calls finish, rfl, ?_⟩
    have htools := messageStart_not_mem_toolEvents calls (blockCount h)
    have hblocks : .messageStart ∉ thinkingBlock h ++ textBlock h := by
      unfold thinkingBlock textBlock
      split_ifs <;> simp
    have htail : .messageStart ∉ anthropicTail h calls finish := by
      simp [anthropicTail, htools]
    rw [List.mem_append]
    exact fun hmem => hmem.elim hblocks htail
  blocks := by
    refine wellBracketed_of_track (n := blockCount h + calls.length) ?_
    unfold anthropicEvents anthropicTail
    rw [List.cons_append, track_outside rfl, track_append, track_append,
      track_thinkingBlock hphase, Option.bind_some, track_textBlock hphase, Option.bind_some,
      track_append, track_toolEvents, Option.bind_some, track_outside rfl, track_outside rfl,
      track_nil]
  stop := ⟨anthropicEvents h ++ toolEvents (blockCount h) calls,
    anthropicStopReason calls finish, (List.append_assoc _ _ _).symm⟩

/-- Nothing is open at the end. -/
theorem anthropicLiveCloseBlock_after {h : Handed} (hphase : h.InPhase .suppress) :
    anthropicLiveCloseBlock allSends (anthropicAfter h) = (true, anthropicAfter h) := by
  have hreasoning : ¬(h.reasoning ≠ [] ∧ h.closed = none) := fun ⟨hr, hc⟩ => hr (hphase.1 hc)
  have htext : ¬(h.text ≠ [] ∧ h.ended = none) := fun ⟨ht, he⟩ => ht (hphase.2 he)
  unfold anthropicLiveCloseBlock
  rw [if_pos]
  simp only [anthropicAfter, if_neg hreasoning, if_neg htext]

/-- A whole Messages stream. -/
theorem anthropicRun_wellFormed (think : ThinkMode) (hasTools : Bool)
    (updates : List (Bytes × Nat)) (raw : Bytes) (rawLen : Nat) (calls : List ToolCall)
    (finish : Option Finish) :
    ∃ as, anthropicRun allSends think hasTools updates raw rawLen calls finish = (true, as) ∧
      AnthropicWellFormed as.wire.sent := by
  have hstart : AnthropicLive.start allSends {} = (true, anthropicAfter {}) := rfl
  have hrel : Handed.InPhase (reasoningStreamInit think).mode {} ∧
      anthropicAfter {} = anthropicAfter {} := by
    refine ⟨?_, rfl⟩
    cases think
    · exact ⟨fun _ => rfl, rfl⟩
    · exact ⟨rfl, rfl, rfl⟩
  obtain ⟨st₁, as₁, st₂, h, as₂, hupdates, hfinal, ⟨h₁, -, rfl⟩, ⟨hphase, rfl⟩, -⟩ :=
    run_follows anthropicFollows anthropicFollows hasTools updates raw rawLen hrel
  obtain ⟨as', hblocks, hsent⟩ := anthropicLiveToolBlocks_allSends calls (anthropicAfter h)
  have hagain : AnthropicLive.start allSends (anthropicAfter h₁) = (true, anthropicAfter h₁) := rfl
  have htrace : as'.wire.sent ++ [.messageDelta (anthropicStopReason calls finish)] ++
      [.messageStop] = anthropicEvents h ++ anthropicTail h calls finish := by
    rw [hsent, anthropicTail]
    simp [anthropicAfter]
  have hrun : anthropicRun allSends think hasTools updates raw rawLen calls finish =
      (true, { as' with wire := ⟨as'.wire.calls + 1 + 1, as'.wire.sent ++
        [.messageDelta (anthropicStopReason calls finish)] ++ [.messageStop]⟩ }) := by
    unfold anthropicRun anthropicLiveFinish anthropicLiveUpdate
    simp only [hstart, hupdates, hagain, hfinal, anthropicLiveCloseBlock_after hphase, hblocks,
      anthropicSend_allSends]
  refine ⟨_, hrun, ?_⟩
  dsimp only
  rw [htrace]
  exact anthropicTrace_wellFormed hphase calls finish

end Sf37.Server

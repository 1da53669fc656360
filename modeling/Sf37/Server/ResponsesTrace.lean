/-
Sf37.Server.ResponsesTrace — the Responses stream, as output items.

Where all sends succeed the state of the stream is determined by what was handed out
(`responsesAfter`): a reasoning item, then a message item, each opened by its first piece.
The events that end an item have its text as a C string, the deltas have it by length, so
the two agree exactly where no NUL byte was handed out.

* `responsesFollows`: the emitter keeps the state in that form.
* `responsesTrace_wellFormed_iff`: when the events of a whole stream are well formed.
-/
import Sf37.Server.AnthropicTrace

namespace Sf37.Server

open Sf37.Text Sf37.Run

/-! ## Well-formed streams -/

/-- The items of a response, each with an id of its own. -/
inductive OutputItem where
  | reasoning
  | message
  | call (i : Nat)
  deriving DecidableEq, Repr

/-- What an event says of an output item. -/
def responsesMark : ResponsesEvent → Option (Mark OutputItem)
  | .created => none
  | .reasoningItemAdded i => some (.opens i .reasoning)
  | .reasoningPartAdded i => some (.within i (· == .reasoning))
  | .reasoningDelta i _ => some (.within i (· == .reasoning))
  | .reasoningTextDone i _ => some (.within i (· == .reasoning))
  | .reasoningPartDone i _ => some (.within i (· == .reasoning))
  | .reasoningItemDone i _ _ => some (.closes i (· == .reasoning))
  | .messageItemAdded i => some (.opens i .message)
  | .messagePartAdded i => some (.within i (· == .message))
  | .textDelta i _ => some (.within i (· == .message))
  | .textDone i _ => some (.within i (· == .message))
  | .messagePartDone i _ => some (.within i (· == .message))
  | .messageItemDone i _ _ => some (.closes i (· == .message))
  | .callItemAdded i n _ _ => some (.opens i (.call n))
  | .callArgumentsDelta i n _ => some (.within i (· == .call n))
  | .callArgumentsDone i n _ _ => some (.within i (· == .call n))
  | .callItemDone i n _ _ _ => some (.closes i (· == .call n))
  | .finished _ => none

/-- The text of a delta, and the item it belongs to. -/
def deltaText : ResponsesEvent → Option (Int × Bytes)
  | .reasoningDelta i t => some (i, t)
  | .textDelta i t => some (i, t)
  | .callArgumentsDelta i _ arguments => some (i, arguments)
  | _ => none

/-- The text that an event at the end of an item, or of a part of it, gives. -/
def doneText : ResponsesEvent → Option (Int × Bytes)
  | .reasoningTextDone i t => some (i, t)
  | .reasoningPartDone i t => some (i, t)
  | .reasoningItemDone i _ t => some (i, t)
  | .textDone i t => some (i, t)
  | .messagePartDone i t => some (i, t)
  | .messageItemDone i _ t => some (i, t)
  | .callArgumentsDone i _ _ arguments => some (i, arguments)
  | .callItemDone i _ _ _ arguments => some (i, arguments)
  | _ => none

/-- What an event adds to the text of an item. -/
def deltaOf (i : Int) (e : ResponsesEvent) : Bytes :=
  match deltaText e with
  | some (j, t) => if j = i then t else []
  | none => []

/-- The deltas of an item, put together. -/
def deltasOf (i : Int) (events : List ResponsesEvent) : Bytes := events.flatMap (deltaOf i)

/-- Every text given at an end is what the deltas brought. -/
def TextsMatch (events : List ResponsesEvent) : Prop :=
  ∀ e ∈ events, ∀ i t, doneText e = some (i, t) → t = deltasOf i events

/-- A Responses stream: it starts with `response.created`, its events are numbered from 0,
and its output items stand one after the other, each with its own deltas and their text. -/
structure ResponsesWellFormed (trace : List (Nat × ResponsesEvent)) : Prop where
  start : ∃ rest, trace.map Prod.snd = .created :: rest
  numbered : trace.map Prod.fst = List.range trace.length
  items : WellBracketed responsesMark (trace.map Prod.snd)
  texts : TextsMatch (trace.map Prod.snd)

/-! ## Sending -/

/-- Events with their sequence numbers. -/
def numberEvents (events : List ResponsesEvent) : List (Nat × ResponsesEvent) :=
  events.zipIdx.map Prod.swap

theorem numberEvents_append (es es' : List ResponsesEvent) :
    numberEvents (es ++ es') = numberEvents es ++ (es'.zipIdx es.length).map Prod.swap := by
  simp [numberEvents, List.zipIdx_append]

theorem numberEvents_snd (es : List ResponsesEvent) : (numberEvents es).map Prod.snd = es := by
  simp [numberEvents, List.map_map, Function.comp_def]

theorem numberEvents_fst (es : List ResponsesEvent) :
    (numberEvents es).map Prod.fst = List.range es.length := by
  simp [numberEvents, List.map_map, Function.comp_def, List.range_eq_range']

/-- A state that has sent some events. -/
def ResponsesLive.after (rs : ResponsesLive) (events : List ResponsesEvent) : ResponsesLive :=
  { rs with sequence := events.length, wire := ⟨events.length, numberEvents events⟩ }

theorem responsesLiveEvent_after (rs : ResponsesLive) (es : List ResponsesEvent)
    (ev : ResponsesEvent) :
    responsesLiveEvent allSends (rs.after es) ev = (true, rs.after (es ++ [ev])) := by
  simp [responsesLiveEvent, ResponsesLive.after, numberEvents_append]

/-! ## What each function sends -/

section Sends

variable (rs : ResponsesLive) (es : List ResponsesEvent) (t : Bytes)

theorem responsesLiveCreated_after (hcreated : rs.createdSent = true) :
    responsesLiveCreated allSends (rs.after es) = (true, rs.after es) := by
  unfold responsesLiveCreated
  exact if_pos hcreated

/-- The first piece of reasoning opens the item and its part. -/
theorem responsesLiveReasoningDelta_first (hcreated : rs.createdSent = true)
    (hopened : rs.reasoningOpened = false) (hpart : rs.reasoningPartOpen = false) :
    responsesLiveReasoningDelta allSends (rs.after es) t =
      (true, ResponsesLive.after
        { rs with
          reasoningOpened := true
          reasoningPartOpen := true
          reasoningIndex := rs.nextOutputIndex
          nextOutputIndex := rs.nextOutputIndex + 1
          reasoningText := rs.reasoningText ++ t }
        (es ++ [.reasoningItemAdded rs.nextOutputIndex, .reasoningPartAdded rs.nextOutputIndex,
          .reasoningDelta rs.nextOutputIndex t])) := by
  simp [responsesLiveReasoningDelta, responsesLiveCreated, responsesLiveEvent,
    ResponsesLive.after, numberEvents_append, hcreated, hopened, hpart]

theorem responsesLiveReasoningDelta_next (hcreated : rs.createdSent = true)
    (hopened : rs.reasoningOpened = true) (hpart : rs.reasoningPartOpen = true) :
    responsesLiveReasoningDelta allSends (rs.after es) t =
      (true, ResponsesLive.after { rs with reasoningText := rs.reasoningText ++ t }
        (es ++ [.reasoningDelta rs.reasoningIndex t])) := by
  simp [responsesLiveReasoningDelta, responsesLiveCreated, responsesLiveEvent,
    ResponsesLive.after, numberEvents_append, hcreated, hopened, hpart]

/-- Reasoning that was not opened, or is done, has no end. -/
theorem responsesLiveReasoningDone_none
    (hnone : rs.reasoningOpened = false ∨ rs.reasoningDone = true) :
    responsesLiveReasoningDone allSends (rs.after es) = (true, rs.after es) := by
  unfold responsesLiveReasoningDone
  rw [if_pos]
  rcases hnone with h | h <;> simp [ResponsesLive.after, h]

theorem responsesLiveReasoningDone_open (hopened : rs.reasoningOpened = true)
    (hpart : rs.reasoningPartOpen = true) (hdone : rs.reasoningDone = false) :
    responsesLiveReasoningDone allSends (rs.after es) =
      (true, ResponsesLive.after { rs with reasoningDone := true }
        (es ++ [.reasoningTextDone rs.reasoningIndex (cstr rs.reasoningText),
          .reasoningPartDone rs.reasoningIndex (cstr rs.reasoningText),
          .reasoningItemDone rs.reasoningIndex rs.reasoningClosedNaturally
            (cstr rs.reasoningText)])) := by
  simp [responsesLiveReasoningDone, responsesLiveEvent, ResponsesLive.after,
    numberEvents_append, hopened, hpart, hdone]

/-- The first piece of content opens the item and its part. -/
theorem responsesLiveTextDelta_first (hcreated : rs.createdSent = true)
    (hopened : rs.messageOpened = false) (hpart : rs.messagePartOpen = false) :
    responsesLiveTextDelta allSends (rs.after es) t =
      (true, ResponsesLive.after
        { rs with
          messageOpened := true
          messagePartOpen := true
          messageIndex := rs.nextOutputIndex
          nextOutputIndex := rs.nextOutputIndex + 1
          messageText := rs.messageText ++ t }
        (es ++ [.messageItemAdded rs.nextOutputIndex, .messagePartAdded rs.nextOutputIndex,
          .textDelta rs.nextOutputIndex t])) := by
  simp [responsesLiveTextDelta, responsesLiveCreated, responsesLiveEvent, ResponsesLive.after,
    numberEvents_append, hcreated, hopened, hpart]

theorem responsesLiveTextDelta_next (hcreated : rs.createdSent = true)
    (hopened : rs.messageOpened = true) (hpart : rs.messagePartOpen = true) :
    responsesLiveTextDelta allSends (rs.after es) t =
      (true, ResponsesLive.after { rs with messageText := rs.messageText ++ t }
        (es ++ [.textDelta rs.messageIndex t])) := by
  simp [responsesLiveTextDelta, responsesLiveCreated, responsesLiveEvent, ResponsesLive.after,
    numberEvents_append, hcreated, hopened, hpart]

variable (finish : Option Finish)

/-- A message that was not opened, or is done, has no end. -/
theorem responsesLiveMessageDone_none
    (hnone : rs.messageOpened = false ∨ rs.messageDone = true) :
    responsesLiveMessageDone allSends (rs.after es) finish = (true, rs.after es) := by
  unfold responsesLiveMessageDone
  rw [if_pos]
  rcases hnone with h | h <;> simp [ResponsesLive.after, h]

theorem responsesLiveMessageDone_open (hopened : rs.messageOpened = true)
    (hpart : rs.messagePartOpen = true) (hdone : rs.messageDone = false) :
    responsesLiveMessageDone allSends (rs.after es) finish =
      (true, ResponsesLive.after { rs with messageDone := true }
        (es ++ [.textDone rs.messageIndex (cstr rs.messageText),
          .messagePartDone rs.messageIndex (cstr rs.messageText),
          .messageItemDone rs.messageIndex (responseStatusForFinish finish)
            (cstr rs.messageText)])) := by
  simp [responsesLiveMessageDone, responsesLiveEvent, ResponsesLive.after, numberEvents_append,
    hopened, hpart, hdone]

end Sends

/-! ## The state by what was handed out -/

/-- The events of the reasoning item. -/
def reasoningItem (pieces : List Bytes) (closed : Option Bool) : List ResponsesEvent :=
  if pieces = [] then []
  else .reasoningItemAdded 0 :: .reasoningPartAdded 0 :: (pieces.map (.reasoningDelta 0) ++
    match closed with
    | none => []
    | some closed =>
        [.reasoningTextDone 0 (cstr pieces.flatten),
          .reasoningPartDone 0 (cstr pieces.flatten),
          .reasoningItemDone 0 closed (cstr pieces.flatten)])

/-- The events of the message item. -/
def messageItem (index : Int) (pieces : List Bytes) (ended : Option ResponseStatus) :
    List ResponsesEvent :=
  if pieces = [] then []
  else .messageItemAdded index :: .messagePartAdded index :: (pieces.map (.textDelta index) ++
    match ended with
    | none => []
    | some status =>
        [.textDone index (cstr pieces.flatten),
          .messagePartDone index (cstr pieces.flatten),
          .messageItemDone index status (cstr pieces.flatten)])

/-- What the items of a stream hold, and how each ended. -/
structure Items where
  reasoning : List Bytes
  closed : Option Bool
  text : List Bytes
  ended : Option ResponseStatus

/-- The number of the message item. -/
def Items.messageIndex (it : Items) : Nat := if it.reasoning = [] then 0 else 1

/-- How many items were opened. -/
def Items.count (it : Items) : Nat := it.messageIndex + if it.text = [] then 0 else 1

def Items.events (it : Items) : List ResponsesEvent :=
  .created :: (reasoningItem it.reasoning it.closed ++
    messageItem it.messageIndex it.text it.ended)

/-- The state of the stream, without what was sent. -/
def Items.state (it : Items) : ResponsesLive where
  createdSent := true
  reasoningOpened := !it.reasoning.isEmpty
  reasoningPartOpen := !it.reasoning.isEmpty
  reasoningDone := !it.reasoning.isEmpty && it.closed.isSome
  reasoningClosedNaturally := it.closed == some true
  messageOpened := !it.text.isEmpty
  messagePartOpen := !it.text.isEmpty
  messageDone := !it.text.isEmpty && it.ended.isSome
  nextOutputIndex := it.count
  reasoningIndex := if it.reasoning = [] then -1 else 0
  messageIndex := if it.text = [] then -1 else it.messageIndex
  reasoningText := it.reasoning.flatten
  messageText := it.text.flatten

def responsesAfter (it : Items) : ResponsesLive := it.state.after it.events

variable (R T : List Bytes) (closed : Option Bool) (t : Bytes)

theorem responsesLiveReasoningDelta_items :
    responsesLiveReasoningDelta allSends (responsesAfter ⟨R, none, [], none⟩) t =
      (true, responsesAfter ⟨R ++ [t], none, [], none⟩) := by
  unfold responsesAfter
  cases R with
  | nil =>
    rw [responsesLiveReasoningDelta_first _ _ t rfl rfl rfl]
    simp [Items.state, Items.count, Items.messageIndex, Items.events, reasoningItem, messageItem]
  | cons r R =>
    rw [responsesLiveReasoningDelta_next _ _ t rfl rfl rfl]
    simp [Items.state, Items.count, Items.messageIndex, Items.events, reasoningItem, messageItem]

theorem responsesLiveReasoningDone_items (c : Bool) :
    responsesLiveReasoningDone allSends
        (if c then { responsesAfter ⟨R, none, [], none⟩ with reasoningClosedNaturally := true }
          else responsesAfter ⟨R, none, [], none⟩) =
      (true, responsesAfter ⟨R, some c, [], none⟩) := by
  have hstate : (if c then
        { responsesAfter ⟨R, none, [], none⟩ with reasoningClosedNaturally := true }
      else responsesAfter ⟨R, none, [], none⟩) =
      ResponsesLive.after { Items.state ⟨R, none, [], none⟩ with reasoningClosedNaturally := c }
        (Items.events ⟨R, none, [], none⟩) := by
    cases c <;> rfl
  rw [hstate]
  unfold responsesAfter
  cases R with
  | nil =>
    rw [responsesLiveReasoningDone_none _ _ (.inl rfl)]
    simp [Items.state, Items.count, Items.messageIndex, Items.events, reasoningItem, messageItem]
  | cons r R =>
    rw [responsesLiveReasoningDone_open _ _ rfl rfl rfl]
    simp [Items.state, Items.count, Items.messageIndex, Items.events, reasoningItem, messageItem]

theorem responsesLiveTextDelta_items :
    responsesLiveTextDelta allSends (responsesAfter ⟨R, closed, T, none⟩) t =
      (true, responsesAfter ⟨R, closed, T ++ [t], none⟩) := by
  unfold responsesAfter
  cases T with
  | nil =>
    rw [responsesLiveTextDelta_first _ _ t rfl rfl rfl]
    simp [Items.state, Items.count, Items.messageIndex, Items.events, messageItem]
  | cons r T =>
    rw [responsesLiveTextDelta_next _ _ t rfl rfl rfl]
    simp [Items.state, Items.count, Items.messageIndex, Items.events, messageItem]

theorem responsesLiveMessageDone_items (finish : Option Finish) :
    responsesLiveMessageDone allSends (responsesAfter ⟨R, closed, T, none⟩) finish =
      (true, responsesAfter ⟨R, closed, T, some (responseStatusForFinish finish)⟩) := by
  unfold responsesAfter
  cases T with
  | nil =>
    rw [responsesLiveMessageDone_none _ _ _ (.inl rfl)]
    simp [Items.state, Items.count, Items.messageIndex, Items.events, messageItem]
  | cons r T =>
    rw [responsesLiveMessageDone_open _ _ _ rfl rfl rfl]
    simp [Items.state, Items.count, Items.messageIndex, Items.events, messageItem]

/-- The items made of what was handed out; `status` is how the message ended. -/
def Handed.items (h : Handed) (shows : Bool) (status : ResponseStatus) : Items where
  reasoning := if shows then h.reasoning else []
  closed := h.closed
  text := h.text
  ended := h.ended.map fun _ => status

/-- The state of the stream is that of the items. `ended` says how the message may have ended. -/
def InStep (shows : Bool) (ended : Option Bool → ResponseStatus → Prop) (m : StreamMode)
    (h : Handed) (rs : ResponsesLive) : Prop :=
  h.InPhase m ∧ ∃ status, ended h.ended status ∧ rs = responsesAfter (h.items shows status)

/-- The emitter opens an item with the first piece of its kind and closes it at the end. -/
theorem responsesFollows (shows : Bool) (finish : Option Finish)
    {ended : Option Bool → ResponseStatus → Prop}
    (hends : ∀ tool, ended (some tool)
      (responseStatusForFinish (if tool then some .toolCalls else finish))) :
    Follows (responsesEmit allSends shows finish) (InStep shows ended) where
  reasoning := by
    rintro ⟨reasoning, closed, text, ended⟩ rs t ⟨⟨hclosed, htext, hended⟩, status, hstatus, rfl⟩
    obtain rfl : closed = none := hclosed
    obtain rfl : text = [] := htext
    obtain rfl : ended = none := hended
    refine ⟨_, ?_, ⟨rfl, rfl, rfl⟩, status, hstatus, rfl⟩
    cases shows with
    | false => rfl
    | true => exact responsesLiveReasoningDelta_items reasoning t
  reasoningDone := by
    rintro ⟨reasoning, closed, text, ended⟩ rs c ⟨⟨hclosed, htext, hended⟩, status, hstatus, rfl⟩
    obtain rfl : closed = none := hclosed
    obtain rfl : text = [] := htext
    obtain rfl : ended = none := hended
    refine ⟨_, responsesLiveReasoningDone_items (if shows then reasoning else []) c, ?_,
      status, hstatus, rfl⟩
    cases c
    · exact ⟨fun h => (nomatch h), fun _ => rfl⟩
    · exact ⟨fun h => (nomatch h), rfl⟩
  text := by
    rintro ⟨reasoning, closed, text, ended⟩ rs t ⟨⟨hclosed, hended⟩, status, hstatus, rfl⟩
    obtain rfl : ended = none := hended
    exact ⟨_, responsesLiveTextDelta_items (if shows then reasoning else []) text closed t,
      ⟨hclosed, rfl⟩, status, hstatus, rfl⟩
  textDone := by
    rintro ⟨reasoning, closed, text, ended⟩ rs tool ⟨⟨hclosed, hended⟩, status, -, rfl⟩
    obtain rfl : ended = none := hended
    exact ⟨_, responsesLiveMessageDone_items (if shows then reasoning else []) text closed _,
      ⟨hclosed, fun h => (nomatch h)⟩, _, hends tool, rfl⟩

/-! ## The texts of a trace -/

theorem doneText_mark {e : ResponsesEvent} {i : Int} {t : Bytes} (h : doneText e = some (i, t)) :
    ∃ m, responsesMark e = some m ∧ m.index = i := by
  cases e <;> simp_all [doneText, responsesMark, Mark.index]

theorem deltaOf_eq_nil {e : ResponsesEvent} {i : Int}
    (h : ∀ m, responsesMark e = some m → m.index ≠ i) : deltaOf i e = [] := by
  cases e <;> simp_all [deltaOf, deltaText, responsesMark, Mark.index]

theorem deltasOf_append (i : Int) (es es' : List ResponsesEvent) :
    deltasOf i (es ++ es') = deltasOf i es ++ deltasOf i es' := List.flatMap_append

/-- Pieces of a trace are about items of their own. -/
theorem textsMatch_append {es es' : List ResponsesEvent} {n n₁ n₂ : Nat}
    (h : track responsesMark ⟨n, none⟩ es = some ⟨n₁, none⟩)
    (h' : track responsesMark ⟨n₁, none⟩ es' = some ⟨n₂, none⟩) :
    TextsMatch (es ++ es') ↔ TextsMatch es ∧ TextsMatch es' := by
  have hleft : ∀ e ∈ es, ∀ i t, doneText e = some (i, t) →
      deltasOf i (es ++ es') = deltasOf i es := by
    intro e he i t hdone
    obtain ⟨m, hm, rfl⟩ := doneText_mark hdone
    have hnil : deltasOf m.index es' = [] := by
      refine List.flatMap_eq_nil_iff.mpr fun e' he' => deltaOf_eq_nil fun m' hm' => ?_
      have hlt := (track_between h he hm).2
      have hge := (track_between h' he' hm').1
      omega
    rw [deltasOf_append, hnil, List.append_nil]
  have hright : ∀ e ∈ es', ∀ i t, doneText e = some (i, t) →
      deltasOf i (es ++ es') = deltasOf i es' := by
    intro e he i t hdone
    obtain ⟨m, hm, rfl⟩ := doneText_mark hdone
    have hnil : deltasOf m.index es = [] := by
      refine List.flatMap_eq_nil_iff.mpr fun e' he' => deltaOf_eq_nil fun m' hm' => ?_
      have hlt := (track_between h he' hm').2
      have hge := (track_between h' he hm).1
      omega
    rw [deltasOf_append, hnil, List.nil_append]
  constructor
  · intro hall
    refine ⟨fun e he i t hdone => ?_, fun e he i t hdone => ?_⟩
    · rw [← hleft e he i t hdone]
      exact hall e (List.mem_append_left _ he) i t hdone
    · rw [← hright e he i t hdone]
      exact hall e (List.mem_append_right _ he) i t hdone
  · rintro ⟨hes, hes'⟩ e he i t hdone
    rcases List.mem_append.mp he with he | he
    · rw [hleft e he i t hdone]
      exact hes e he i t hdone
    · rw [hright e he i t hdone]
      exact hes' e he i t hdone

theorem deltasOf_eq_nil {es : List ResponsesEvent} (i : Int)
    (h : ∀ e ∈ es, deltaText e = none) : deltasOf i es = [] := by
  refine List.flatMap_eq_nil_iff.mpr fun e he => ?_
  rw [deltaOf, h e he]

/-- The events of one item: its opening, its deltas, and its ending, which gives the text. -/
theorem textsMatch_item {opening ending : List ResponsesEvent} {mk : Bytes → ResponsesEvent}
    {i : Int} {pieces : List Bytes} {done : Bytes}
    (hopening : ∀ e ∈ opening, deltaText e = none ∧ doneText e = none)
    (hmk : ∀ t, deltaText (mk t) = some (i, t) ∧ doneText (mk t) = none)
    (hending : ∀ e ∈ ending, deltaText e = none ∧ doneText e = some (i, done))
    (hne : ending ≠ []) :
    TextsMatch (opening ++ (pieces.map mk ++ ending)) ↔ done = pieces.flatten := by
  have hdelta : ∀ t, deltaOf i (mk t) = t := by
    intro t
    rw [deltaOf, (hmk t).1]
    exact if_pos rfl
  have hdeltas : deltasOf i (opening ++ (pieces.map mk ++ ending)) = pieces.flatten := by
    rw [deltasOf_append, deltasOf_append, deltasOf_eq_nil i fun e he => (hopening e he).1,
      deltasOf_eq_nil i fun e he => (hending e he).1, List.nil_append, List.append_nil, deltasOf,
      List.flatMap_map]
    simp [hdelta]
  constructor
  · intro h
    obtain ⟨e, he⟩ := List.exists_mem_of_ne_nil ending hne
    rw [h e (List.mem_append_right _ (List.mem_append_right _ he)) i done (hending e he).2, hdeltas]
  · rintro rfl e he j t hdone
    rcases List.mem_append.mp he with he | he
    · rw [(hopening e he).2] at hdone
      nomatch hdone
    rcases List.mem_append.mp he with he | he
    · obtain ⟨t', -, rfl⟩ := List.mem_map.mp he
      rw [(hmk t').2] at hdone
      nomatch hdone
    · rw [(hending e he).2] at hdone
      obtain ⟨rfl, rfl⟩ := Prod.ext_iff.mp (Option.some.inj hdone)
      exact hdeltas.symm

theorem textsMatch_reasoningItem {pieces : List Bytes} {closed : Option Bool}
    (hended : closed = none → pieces = []) :
    TextsMatch (reasoningItem pieces closed) ↔ NulFree pieces.flatten := by
  by_cases hnil : pieces = []
  · subst hnil
    simp [reasoningItem, TextsMatch, NulFree]
  obtain ⟨c, rfl⟩ := Option.ne_none_iff_exists'.mp fun hc => hnil (hended hc)
  rw [← cstr_iff, reasoningItem, if_neg hnil]
  change TextsMatch ([.reasoningItemAdded 0, .reasoningPartAdded 0] ++ _) ↔ _
  exact textsMatch_item (by simp [deltaText, doneText]) (fun t => ⟨rfl, rfl⟩)
    (by simp [deltaText, doneText]) (List.cons_ne_nil _ _)

theorem textsMatch_messageItem {pieces : List Bytes} {ended : Option ResponseStatus} (index : Int)
    (hended : ended = none → pieces = []) :
    TextsMatch (messageItem index pieces ended) ↔ NulFree pieces.flatten := by
  by_cases hnil : pieces = []
  · subst hnil
    simp [messageItem, TextsMatch, NulFree]
  obtain ⟨status, rfl⟩ := Option.ne_none_iff_exists'.mp fun he => hnil (hended he)
  rw [← cstr_iff, messageItem, if_neg hnil]
  change TextsMatch ([.messageItemAdded index, .messagePartAdded index] ++ _) ↔ _
  exact textsMatch_item (by simp [deltaText, doneText]) (fun t => ⟨rfl, rfl⟩)
    (by simp [deltaText, doneText]) (List.cons_ne_nil _ _)

/-! ## Tool calls -/

/-- The events of a function call item. -/
def callItem (index : Int) (i : Nat) (tc : ToolCall) : List ResponsesEvent :=
  .callItemAdded index i tc.name tc.id ::
    ([.callArgumentsDelta index i (appendJsonObjectOrEmpty tc.arguments),
      .callArgumentsDone index i tc.name (appendJsonObjectOrEmpty tc.arguments)] ++
    [.callItemDone index i tc.name tc.id (appendJsonObjectOrEmpty tc.arguments)])

/-- The events of the function call items. -/
def callItems (index : Int) (i : Nat) : List ToolCall → List ResponsesEvent
  | [] => []
  | tc :: calls => callItem index i tc ++ callItems (index + 1) (i + 1) calls

theorem responsesLiveCalls_after (calls : List ToolCall) (rs : ResponsesLive)
    (es : List ResponsesEvent) (index : Int) (i : Nat) :
    responsesLiveCalls allSends (rs.after es) index i calls =
      (true, rs.after (es ++ callItems index i calls)) := by
  induction calls generalizing es index i with
  | nil => simp [responsesLiveCalls, callItems]
  | cons tc calls ih =>
    simp only [responsesLiveCalls, responsesLiveEvent_after, ih]
    simp [callItems, callItem]

theorem track_callItem (n i : Nat) (tc : ToolCall) :
    track responsesMark ⟨n, none⟩ (callItem n i tc) = some ⟨n + 1, none⟩ := by
  have hadded : responsesMark (.callItemAdded n i tc.name tc.id) = some (.opens n (.call i)) := rfl
  refine track_item hadded ?_ rfl (beq_self_eq_true _)
  simp [responsesMark]

theorem track_callItems (calls : List ToolCall) (n i : Nat) :
    track responsesMark ⟨n, none⟩ (callItems n i calls) = some ⟨n + calls.length, none⟩ := by
  induction calls generalizing n i with
  | nil => rfl
  | cons tc calls ih =>
    have hnext := ih (n + 1) (i + 1)
    rw [callItems, track_append, track_callItem, Option.bind_some]
    rw [Int.natCast_succ] at hnext
    rw [hnext, List.length_cons]
    congr 2
    omega

theorem textsMatch_callItem (index : Int) (i : Nat) (tc : ToolCall) :
    TextsMatch (callItem index i tc) := by
  have hdone : appendJsonObjectOrEmpty tc.arguments =
      [appendJsonObjectOrEmpty tc.arguments].flatten := by simp
  change TextsMatch ([.callItemAdded index i tc.name tc.id] ++
    ([appendJsonObjectOrEmpty tc.arguments].map (.callArgumentsDelta index i) ++ _))
  exact (textsMatch_item (by simp [deltaText, doneText]) (fun t => ⟨rfl, rfl⟩)
    (by simp [deltaText, doneText]) (List.cons_ne_nil _ _)).mpr hdone

theorem textsMatch_callItems (calls : List ToolCall) (n i : Nat) :
    TextsMatch (callItems n i calls) := by
  induction calls generalizing n i with
  | nil => exact fun e he => absurd he List.not_mem_nil
  | cons tc calls ih =>
    exact (textsMatch_append (track_callItem n i tc) (track_callItems calls (n + 1) (i + 1))).mpr
      ⟨textsMatch_callItem n i tc, ih (n + 1) (i + 1)⟩

/-! ## The end of the stream -/

/-- No item is open. -/
def Items.Ended (it : Items) : Prop :=
  (it.closed = none → it.reasoning = []) ∧ (it.ended = none → it.text = [])

theorem track_reasoningItem {it : Items} (hended : it.Ended) :
    track responsesMark ⟨0, none⟩ (reasoningItem it.reasoning it.closed) =
      some ⟨it.messageIndex, none⟩ := by
  unfold reasoningItem Items.messageIndex
  by_cases hr : it.reasoning = []
  · rw [if_pos hr, if_pos hr]
    rfl
  obtain ⟨c, hclosed⟩ := Option.ne_none_iff_exists'.mp fun hc => hr (hended.1 hc)
  have hinner : ∀ e ∈ ResponsesEvent.reasoningPartAdded 0 ::
      (it.reasoning.map (.reasoningDelta 0) ++
        [.reasoningTextDone 0 (cstr it.reasoning.flatten),
          .reasoningPartDone 0 (cstr it.reasoning.flatten)]),
      ∃ fits, responsesMark e = some (.within (0 : Nat) fits) ∧ fits .reasoning = true := by
    intro e he
    simp only [List.mem_cons, List.mem_append, List.mem_map, List.not_mem_nil, or_false] at he
    rcases he with rfl | ⟨t, -, rfl⟩ | rfl | rfl <;> exact ⟨_, rfl, rfl⟩
  have hadded : responsesMark (.reasoningItemAdded 0) = some (.opens (0 : Nat) .reasoning) := rfl
  have hdone : responsesMark (.reasoningItemDone 0 c (cstr it.reasoning.flatten)) =
      some (.closes (0 : Nat) (· == .reasoning)) := rfl
  have hitem := track_item hadded hinner hdone rfl
  rw [if_neg hr, if_neg hr, hclosed]
  simpa using hitem

theorem track_messageItem {it : Items} (hended : it.Ended) :
    track responsesMark ⟨it.messageIndex, none⟩ (messageItem it.messageIndex it.text it.ended) =
      some ⟨it.count, none⟩ := by
  unfold messageItem Items.count
  by_cases ht : it.text = []
  · rw [if_pos ht, if_pos ht]
    rfl
  obtain ⟨status, hstatus⟩ := Option.ne_none_iff_exists'.mp fun he => ht (hended.2 he)
  have hinner : ∀ e ∈ ResponsesEvent.messagePartAdded it.messageIndex ::
      (it.text.map (.textDelta it.messageIndex) ++
        [.textDone it.messageIndex (cstr it.text.flatten),
          .messagePartDone it.messageIndex (cstr it.text.flatten)]),
      ∃ fits, responsesMark e = some (.within it.messageIndex fits) ∧ fits .message = true := by
    intro e he
    simp only [List.mem_cons, List.mem_append, List.mem_map, List.not_mem_nil, or_false] at he
    rcases he with rfl | ⟨t, -, rfl⟩ | rfl | rfl <;> exact ⟨_, rfl, rfl⟩
  have hadded : responsesMark (.messageItemAdded it.messageIndex) =
      some (.opens it.messageIndex .message) := rfl
  have hdone : responsesMark (.messageItemDone it.messageIndex status (cstr it.text.flatten)) =
      some (.closes it.messageIndex (· == .message)) := rfl
  have hitem := track_item hadded hinner hdone rfl
  rw [if_neg ht, if_neg ht, hstatus]
  simpa using hitem

/-- What is sent at the end, after the two items. -/
def responsesTail (it : Items) (calls : List ToolCall) (status : ResponseStatus) :
    List ResponsesEvent :=
  callItems it.count 0 calls ++ [.finished status]

/-- The texts of a stream match where no NUL byte was handed out. -/
theorem responsesTrace_wellFormed_iff {it : Items} (hended : it.Ended) (calls : List ToolCall)
    (status : ResponseStatus) :
    ResponsesWellFormed (numberEvents (it.events ++ responsesTail it calls status)) ↔
      NulFree it.reasoning.flatten ∧ NulFree it.text.flatten := by
  have hreasoning := track_reasoningItem hended
  have hmessage := track_messageItem hended
  have hcalls := track_callItems calls it.count 0
  have hitems : track responsesMark ⟨0, none⟩ (reasoningItem it.reasoning it.closed ++
      messageItem it.messageIndex it.text it.ended) = some ⟨it.count, none⟩ := by
    rw [track_append, hreasoning, Option.bind_some, hmessage]
  have hcreated : track responsesMark ⟨0, none⟩ [.created] = some ⟨0, none⟩ := rfl
  have hevents : track responsesMark ⟨0, none⟩ it.events = some ⟨it.count, none⟩ :=
    (track_outside rfl _).trans hitems
  have htail : track responsesMark ⟨it.count, none⟩ (responsesTail it calls status) =
      some ⟨it.count + calls.length, none⟩ := by
    rw [responsesTail, track_append, hcalls, Option.bind_some]
    rfl
  have htexts : TextsMatch (it.events ++ responsesTail it calls status) ↔
      NulFree it.reasoning.flatten ∧ NulFree it.text.flatten := by
    have htailTexts : TextsMatch (responsesTail it calls status) := by
      have hfinished : track responsesMark ⟨it.count + calls.length, none⟩ [.finished status] =
          some ⟨it.count + calls.length, none⟩ := rfl
      refine (textsMatch_append hcalls hfinished).mpr ⟨textsMatch_callItems calls it.count 0, ?_⟩
      simp [TextsMatch, doneText]
    have hfirst : TextsMatch [.created] := by simp [TextsMatch, doneText]
    have hsplit : it.events = [.created] ++ (reasoningItem it.reasoning it.closed ++
      messageItem it.messageIndex it.text it.ended) := rfl
    rw [textsMatch_append hevents htail, hsplit, textsMatch_append hcreated hitems,
      textsMatch_append hreasoning hmessage, textsMatch_reasoningItem hended.1,
      textsMatch_messageItem _ hended.2]
    simp only [hfirst, htailTexts, true_and, and_true]
  constructor
  · intro h
    have htrace := h.texts
    rw [numberEvents_snd] at htrace
    exact htexts.mp htrace
  · intro h
    refine ⟨⟨it.events.tail ++ responsesTail it calls status, ?_⟩, ?_, ?_, ?_⟩
    · rw [numberEvents_snd]
      rfl
    · rw [numberEvents_fst, numberEvents, List.length_map, List.length_zipIdx]
    · rw [numberEvents_snd]
      refine wellBracketed_of_track (n := it.count + calls.length) ?_
      rw [track_append, hevents, Option.bind_some, htail]
    · rw [numberEvents_snd]
      exact htexts.mpr h

/-- Where no item is open, ending them again does nothing. -/
theorem responsesLiveReasoningDone_ended {it : Items} (hended : it.Ended) :
    responsesLiveReasoningDone allSends (responsesAfter it) = (true, responsesAfter it) := by
  refine responsesLiveReasoningDone_none _ _ ?_
  cases hclosed : it.closed with
  | none => simp [Items.state, hended.1 hclosed]
  | some c => cases hr : it.reasoning <;> simp [Items.state, hclosed, hr]

theorem responsesLiveMessageDone_ended {it : Items} (hended : it.Ended) (finish : Option Finish) :
    responsesLiveMessageDone allSends (responsesAfter it) finish = (true, responsesAfter it) := by
  refine responsesLiveMessageDone_none _ _ _ ?_
  cases hstatus : it.ended with
  | none => simp [Items.state, hended.2 hstatus]
  | some status => cases ht : it.text <;> simp [Items.state, hstatus, ht]

/-- At the end of the updates no item is open. -/
theorem Handed.items_ended {h : Handed} (hphase : h.InPhase .suppress) (shows : Bool)
    (status : ResponseStatus) : (h.items shows status).Ended := by
  constructor
  · intro hclosed
    have hnil := hphase.1 hclosed
    simp [Handed.items, hnil]
  · intro hended
    exact hphase.2 (Option.map_eq_none_iff.mp hended)

theorem Handed.clean_iff (h : Handed) (shows : Bool) (status : ResponseStatus) :
    h.Clean shows ↔ NulFree (h.items shows status).reasoning.flatten ∧
      NulFree (h.items shows status).text.flatten := by
  cases shows <;> simp [Handed.Clean, Handed.items, NulFree]

/-- The first event. -/
theorem responsesLiveCreated_start (shows : Bool) :
    responsesLiveCreated allSends {} =
      (true, responsesAfter (Handed.items {} shows .completed)) := by
  cases shows <;> rfl

theorem inStep_start (shows : Bool) (think : ThinkMode)
    {ended : Option Bool → ResponseStatus → Prop} (hnone : ended none .completed) :
    InStep shows ended (reasoningStreamInit think).mode {}
      (responsesAfter (Handed.items {} shows .completed)) := by
  refine ⟨?_, .completed, hnone, rfl⟩
  cases think
  · exact ⟨fun _ => rfl, rfl⟩
  · exact ⟨rfl, rfl, rfl⟩

/-- A stream by the items that its updates leave. -/
theorem responsesRun_eq {think : ThinkMode} {hasTools shows : Bool} {updates : List (Bytes × Nat)}
    {raw : Bytes} {rawLen : Nat} {finish : Option Finish} {st₁ st₂ : ReasoningStream}
    {it₁ it : Items} (calls : List ToolCall)
    (hupdates : liveUpdates
      (fun raw rawLen => bufferUpdate (responsesEmit allSends shows none) hasTools raw rawLen false)
      updates (reasoningStreamInit think)
      (responsesAfter (Handed.items {} shows .completed)) = (true, st₁, responsesAfter it₁))
    (hfinal : bufferUpdate (responsesEmit allSends shows finish) hasTools raw rawLen true st₁
      (responsesAfter it₁) = (true, st₂, responsesAfter it)) (hended : it.Ended) :
    responsesRun allSends think hasTools shows updates raw rawLen calls finish =
      (true, it.state.after (it.events ++
        responsesTail it calls (responseStatusForFinish finish))) := by
  have hagain : ∀ it, responsesLiveCreated allSends (responsesAfter it) =
      (true, responsesAfter it) := fun it => responsesLiveCreated_after _ _ rfl
  have hcalls : responsesLiveCalls allSends (responsesAfter it) (responsesAfter it).nextOutputIndex
      0 calls = (true, it.state.after (it.events ++ callItems it.count 0 calls)) :=
    responsesLiveCalls_after calls _ _ _ 0
  unfold responsesRun responsesLiveFinish responsesLiveUpdate
  simp only [responsesLiveCreated_start shows, hupdates, hagain, hfinal,
    responsesLiveReasoningDone_ended hended, responsesLiveMessageDone_ended hended, hcalls,
    responsesLiveEvent_after, List.append_assoc]
  rfl

/-- A whole Responses stream. -/
theorem responsesRun_wellFormed_iff (think : ThinkMode) (hasTools summaryEmit : Bool)
    (updates : List (Bytes × Nat)) (raw : Bytes) (rawLen : Nat) (calls : List ToolCall)
    (finish : Option Finish) :
    ∃ rs, responsesRun allSends think hasTools summaryEmit updates raw rawLen calls finish =
        (true, rs) ∧
      (ResponsesWellFormed rs.wire.sent ↔
        Run.Guarded (streamStep hasTools) (CleanCall hasTools summaryEmit)
          (reasoningStreamInit think) (updateCalls updates ++ [⟨raw, rawLen, true⟩])) := by
  have hrel : InStep summaryEmit (fun _ _ => True) (reasoningStreamInit think).mode {}
      (responsesAfter (Handed.items {} summaryEmit .completed)) :=
    inStep_start summaryEmit think trivial
  obtain ⟨st₁, rs₁, st₂, h, rs₂, hupdates, hfinal, ⟨h₁, -, _, -, rfl⟩, ⟨hphase, status, -, rfl⟩,
      hclean⟩ :=
    run_follows (responsesFollows summaryEmit none fun _ => trivial)
      (responsesFollows summaryEmit finish fun _ => trivial) hasTools updates raw rawLen hrel
  have hended := h.items_ended hphase summaryEmit status
  have hrun := responsesRun_eq calls hupdates hfinal hended
  refine ⟨_, hrun, ?_⟩
  rw [← hclean summaryEmit, h.clean_iff summaryEmit status]
  exact responsesTrace_wellFormed_iff hended calls (responseStatusForFinish finish)

/-! ## Both streams -/

/-- A Messages and a Responses stream over the same updates: all sends succeed and the
events are well formed. -/
def LiveEventsWellFormed (think : ThinkMode) (hasTools summaryEmit : Bool)
    (updates : List (Bytes × Nat)) (raw : Bytes) (rawLen : Nat) (calls : List ToolCall)
    (finish : Option Finish) : Prop :=
  let anthropic := anthropicRun allSends think hasTools updates raw rawLen calls finish
  let responses := responsesRun allSends think hasTools summaryEmit updates raw rawLen calls finish
  (anthropic.1 = true ∧ AnthropicWellFormed anthropic.2.wire.sent) ∧
    responses.1 = true ∧ ResponsesWellFormed responses.2.wire.sent

/-- The events are well formed where no update hands out a NUL byte as content, or as
reasoning that is shown. -/
theorem liveEvents_wellFormed_iff (think : ThinkMode) (hasTools summaryEmit : Bool)
    (updates : List (Bytes × Nat)) (raw : Bytes) (rawLen : Nat) (calls : List ToolCall)
    (finish : Option Finish) :
    LiveEventsWellFormed think hasTools summaryEmit updates raw rawLen calls finish ↔
      Run.Guarded (streamStep hasTools) (CleanCall hasTools summaryEmit)
        (reasoningStreamInit think) (updateCalls updates ++ [⟨raw, rawLen, true⟩]) := by
  obtain ⟨as, hanthropic, hblocks⟩ :=
    anthropicRun_wellFormed think hasTools updates raw rawLen calls finish
  obtain ⟨rs, hresponses, hiff⟩ :=
    responsesRun_wellFormed_iff think hasTools summaryEmit updates raw rawLen calls finish
  unfold LiveEventsWellFormed
  rw [hanthropic, hresponses, ← hiff]
  simp only [hblocks, true_and]

/-- A text with a NUL byte: the `done` events end at it. -/
theorem not_liveEventsWellFormed_nul :
    ¬ LiveEventsWellFormed .none false false [] [0x61, 0, 0x62] 3 [] (some .stop) := by
  intro h
  obtain ⟨rs, hrun, hiff⟩ :=
    responsesRun_wellFormed_iff .none false false [] [0x61, 0, 0x62] 3 [] (some .stop)
  have hwell := h.2.2
  rw [hrun] at hwell
  have hclean : NulFree (slice [0x61, 0, 0x62] 0 3) := (hiff.mp hwell).1
  exact absurd hclean (by decide)

end Sf37.Server

/-
Sf37.Server.ResponsesOutput — the output array at the end of a Responses stream against the items
that the stream ended.

An item is ended by `response.output_item.done` with a status, and stands once more in the
`output` of the last event with a status worked out anew: from the finish reason, but for
reasoning that was streamed. The texts come from the splitter on one side and from the final parse
on the other.

* `doneItems_trace`: the items that a stream ends, in order.
* `outputListsItems_iff`: when the output array lists what a run handed out.
* `outputListsItems_seen`, `outputListsItems_unclosed`, `outputListsItems_passed`: the same by the
  text, which the parser takes up to its first NUL byte and the splitter may go on behind.
* `responsesOutput_iff`: the texts whose streams all agree with the final object.
-/
import Sf37.Server.HandedText
import Sf37.Server.ParsedContent
import Sf37.Server.ResponsesTrace

namespace Sf37.Server

open Sf37.Text Sf37.Run

/-! ## The output array -/

/-- An output item. Its id is the response's with a prefix for its kind, and its number among the
calls. -/
inductive ResponseItem where
  | reasoning (status : ResponseStatus) (text : Bytes)
  | message (status : ResponseStatus) (text : Bytes)
  | functionCall (call : Nat) (status : ResponseStatus) (name callId arguments : Bytes)
  deriving DecidableEq, Repr

/-- A call as an item. -/
def callOutput (status : ResponseStatus) (i : Nat) (tc : ToolCall) : ResponseItem :=
  .functionCall i status tc.name tc.id (appendJsonObjectOrEmpty tc.arguments)

/-- `append_responses_output_items`. -/
def appendResponsesOutputItems (content reasoning : Bytes) (calls : List ToolCall)
    (finish : Option Finish) (reasoningStatusOverride : Option ResponseStatus)
    (emitReasoning : Bool) : List ResponseItem :=
  let status := responseStatusForFinish finish
  let reasoningStatus := reasoningStatusOverride.getD status
  (if emitReasoning = true ∧ reasoning ≠ [] then [.reasoning reasoningStatus reasoning] else []) ++
    (if content ≠ [] then [.message status content] else []) ++ calls.mapIdx (callOutput status)

/-- The `output` of the last event of `responses_live_finish`. -/
def responsesLiveOutput (st : ResponsesLive) (content reasoning : Bytes) (calls : List ToolCall)
    (finish : Option Finish) (emitReasoning : Bool) : List ResponseItem :=
  let reasoningStatus :=
    if st.reasoningOpened then
      some (if st.reasoningClosedNaturally then ResponseStatus.completed else .incomplete)
    else none
  appendResponsesOutputItems content reasoning calls finish reasoningStatus emitReasoning

/-- The item of a `response.output_item.done` event, with its index. -/
def doneItem : ResponsesEvent → Option (Int × ResponseItem)
  | .reasoningItemDone i completed t =>
      some (i, .reasoning (if completed then .completed else .incomplete) t)
  | .messageItemDone i status t => some (i, .message status t)
  | .callItemDone i call name callId arguments =>
      some (i, .functionCall call .completed name callId arguments)
  | _ => none

/-- Items with their positions. -/
def indexed (items : List ResponseItem) : List (Int × ResponseItem) :=
  items.mapIdx fun i x => ((i : Int), x)

/-- The output array lists the items that the events ended, in the order of their indices. -/
def ListsDoneItems (events : List ResponsesEvent) (output : List ResponseItem) : Prop :=
  events.filterMap doneItem = indexed output

instance (events : List ResponsesEvent) (output : List ResponseItem) :
    Decidable (ListsDoneItems events output) := inferInstanceAs (Decidable (_ = _))

/-! ## The items of a trace -/

theorem indexed_append (xs ys : List ResponseItem) :
    indexed (xs ++ ys) = indexed xs ++ ys.mapIdx fun i x => (((xs.length + i : Nat) : Int), x) := by
  simp [indexed, List.mapIdx_append, Nat.add_comm]

theorem indexed_injective {xs ys : List ResponseItem} (h : indexed xs = indexed ys) : xs = ys := by
  have hmap : ∀ zs : List ResponseItem, (indexed zs).map Prod.snd = zs := by
    intro zs
    simp [indexed, List.mapIdx_eq_zipIdx_map, Function.comp_def]
  rw [← hmap xs, h, hmap]

/-- The item that reasoning became. -/
def Items.doneReasoning (it : Items) : List ResponseItem :=
  if it.reasoning = [] then []
  else [.reasoning (if it.closed = some true then .completed else .incomplete)
    (cstr it.reasoning.flatten)]

/-- The item that content became. -/
def Items.doneMessage (it : Items) (status : ResponseStatus) : List ResponseItem :=
  if it.text = [] then [] else [.message status (cstr it.text.flatten)]

theorem filterMap_callItems (calls : List ToolCall) (n i : Nat) :
    (callItems n i calls).filterMap doneItem =
      calls.mapIdx fun k tc => (((n + k : Nat) : Int), callOutput .completed (i + k) tc) := by
  induction calls generalizing n i with
  | nil => rfl
  | cons tc calls ih =>
    have hnext := ih (n + 1) (i + 1)
    rw [Int.natCast_succ] at hnext
    rw [callItems, List.filterMap_append, hnext, List.mapIdx_cons]
    have hitem : (callItem n i tc).filterMap doneItem = [((n : Int), callOutput .completed i tc)] :=
      rfl
    simp [hitem, callOutput, Nat.add_assoc, Nat.add_comm 1]

/-- The items that a whole stream ends. -/
theorem doneItems_trace {it : Items} {status : ResponseStatus}
    (hclosed : it.closed = none → it.reasoning = [])
    (hended : it.text ≠ [] → it.ended = some status) (calls : List ToolCall)
    (last : ResponseStatus) :
    (it.events ++ responsesTail it calls last).filterMap doneItem =
      indexed (it.doneReasoning ++ it.doneMessage status ++
        calls.mapIdx (callOutput .completed)) := by
  have hreasoning : (reasoningItem it.reasoning it.closed).filterMap doneItem =
      indexed it.doneReasoning := by
    unfold reasoningItem Items.doneReasoning
    by_cases hr : it.reasoning = []
    · rw [if_pos hr, if_pos hr]
      rfl
    · obtain ⟨c, hc⟩ := Option.ne_none_iff_exists'.mp fun hnone => hr (hclosed hnone)
      have hdeltas : ∀ ts : List Bytes,
          (ts.map (ResponsesEvent.reasoningDelta 0)).filterMap doneItem = [] := by
        intro ts
        simp [List.filterMap_map, Function.comp_def, doneItem]
      rw [if_neg hr, if_neg hr, hc]
      simp [List.filterMap_cons, List.filterMap_append, hdeltas, doneItem, indexed]
  have hmessage : (messageItem it.messageIndex it.text it.ended).filterMap doneItem =
      (it.doneMessage status).mapIdx fun i x => (((it.messageIndex + i : Nat) : Int), x) := by
    unfold messageItem Items.doneMessage
    by_cases ht : it.text = []
    · rw [if_pos ht, if_pos ht]
      rfl
    · have hdeltas : ∀ ts : List Bytes,
          (ts.map (ResponsesEvent.textDelta it.messageIndex)).filterMap doneItem = [] := by
        intro ts
        simp [List.filterMap_map, Function.comp_def, doneItem]
      rw [if_neg ht, if_neg ht, hended ht]
      simp [List.filterMap_cons, List.filterMap_append, hdeltas, doneItem]
  have hindex : it.doneReasoning.length = it.messageIndex := by
    unfold Items.doneReasoning Items.messageIndex
    split <;> rfl
  have hcount : (it.doneReasoning ++ it.doneMessage status).length = it.count := by
    rw [List.length_append, hindex]
    unfold Items.doneMessage Items.count
    split <;> rfl
  rw [indexed_append, indexed_append, hindex, hcount, ← hreasoning, ← hmessage]
  have hcalls := filterMap_callItems calls it.count 0
  have hsplit : it.events ++ responsesTail it calls last =
      [.created] ++ reasoningItem it.reasoning it.closed ++
        messageItem it.messageIndex it.text it.ended ++ callItems it.count 0 calls ++
        [.finished last] := by
    simp [Items.events, responsesTail]
  have hfirst : [ResponsesEvent.created].filterMap doneItem = [] := rfl
  have hlast : [ResponsesEvent.finished last].filterMap doneItem = [] := rfl
  rw [hsplit, List.filterMap_append, List.filterMap_append, List.filterMap_append,
    List.filterMap_append, hcalls, hfirst, hlast]
  simp [List.mapIdx_mapIdx, Function.comp_def]

/-! ## The stream of a text -/

/-- How a message ended, if it did. -/
def EndStatus (finish : Option Finish) (ended : Option Bool) (status : ResponseStatus) : Prop :=
  ∀ tool, ended = some tool →
    status = responseStatusForFinish (if tool then some .toolCalls else finish)

/-- The stream has the items of what the run hands out. -/
theorem responsesRun_items {think : ThinkMode} {hasTools : Bool} (shows : Bool) {T : Bytes}
    {cuts : List Nat} {h : Handed} (hrun : HandsOut think hasTools T cuts h)
    (calls : List ToolCall) (finish : Option Finish) :
    ∃ status, EndStatus finish h.ended status ∧ (h.items shows status).Ended ∧
      (h.ended = none → h.text = []) ∧
      responsesRun allSends think hasTools shows (cuts.map fun q => (T.take q, q)) T T.length calls
          finish =
        (true, (h.items shows status).state.after ((h.items shows status).events ++
          responsesTail (h.items shows status) calls (responseStatusForFinish finish))) := by
  have hturn : ∀ m h rs, h.ended ≠ some false → InStep shows (EndStatus none) m h rs →
      InStep shows (EndStatus finish) m h rs := by
    rintro m h rs hopen ⟨hphase, status, hstatus, rfl⟩
    refine ⟨hphase, status, fun tool htool => ?_, rfl⟩
    cases tool with
    | false => exact absurd htool hopen
    | true => exact hstatus true htool
  have hrel : InStep shows (EndStatus none) (reasoningStreamInit think).mode {}
      (responsesAfter (Handed.items {} shows .completed)) := inStep_start shows think nofun
  obtain ⟨st₁, rs₁, st₂, rs₂, hupdates, hlast, ⟨h₁, -, _, -, rfl⟩, ⟨hphase, status, hstatus, rfl⟩⟩ :=
    hrun.follows (responsesFollows shows none fun tool => by intro b hb; cases hb; rfl)
      (responsesFollows shows finish fun tool => by intro b hb; cases hb; rfl) hturn hrel
  have hended := h.items_ended hphase shows status
  exact ⟨status, hstatus, hended, hphase.2, responsesRun_eq calls hupdates hlast hended⟩

/-! ## The two compared -/

/-- The same calls with two statuses. -/
theorem mapIdx_callOutput_eq_iff (calls : List ToolCall) (status status' : ResponseStatus) :
    calls.mapIdx (callOutput status) = calls.mapIdx (callOutput status') ↔
      calls = [] ∨ status = status' := by
  cases calls with
  | nil => simp
  | cons tc calls =>
    constructor
    · intro h
      rw [List.mapIdx_cons, List.mapIdx_cons] at h
      have hhead := (List.cons.inj h).1
      simp only [callOutput, ResponseItem.functionCall.injEq] at hhead
      exact .inr hhead.2.1
    · rintro (h | rfl)
      · nomatch h
      · rfl

/-- Reasoning stands before a message. -/
theorem reasoning_message_eq_iff {r r' m m' : Option (ResponseStatus × Bytes)} :
    (r.map fun p => ResponseItem.reasoning p.1 p.2).toList ++
          (m.map fun p => ResponseItem.message p.1 p.2).toList =
        (r'.map fun p => ResponseItem.reasoning p.1 p.2).toList ++
          (m'.map fun p => ResponseItem.message p.1 p.2).toList ↔ r = r' ∧ m = m' := by
  cases r <;> cases r' <;> cases m <;> cases m' <;> simp [Prod.ext_iff, and_assoc]

/-- The item of a streamed text shows it up to the first NUL byte; without any there is none. -/
def ToldAs (streamed parsed : Bytes) : Prop :=
  cstr streamed = parsed ∧ (parsed = [] → streamed = [])

theorem toldAs_iff {streamed parsed : Bytes} (h : NulFree streamed) :
    ToldAs streamed parsed ↔ streamed = parsed := by
  unfold ToldAs
  rw [cstr_iff.mpr h]
  exact ⟨And.left, fun heq => ⟨heq, heq.trans⟩⟩

/-- Two items of one kind, if there are any. -/
theorem toldAs_eq_iff (streamed parsed : Bytes) (status status' : ResponseStatus) :
    (if streamed ≠ [] then some (status, cstr streamed) else none) =
        (if parsed ≠ [] then some (status', parsed) else none) ↔
      ToldAs streamed parsed ∧ (parsed ≠ [] → status = status') := by
  unfold ToldAs
  by_cases hs : streamed = [] <;> by_cases hp : parsed = []
  · simp [hs, hp, cstr]
  · simp [hs, hp, Ne.symm hp, cstr]
  · simp [hs, hp]
  · simp [hs, hp, and_comm]

section Compare

variable {shows : Bool} {h : Handed} {status : ResponseStatus}

/-- The reasoning item of what was handed out. -/
theorem Handed.doneReasoning_eq (hs : h.Solid) :
    (h.items shows status).doneReasoning = ((if shows = true ∧ h.reasoning.flatten ≠ [] then
      some (if h.closed = some true then ResponseStatus.completed else .incomplete,
        cstr h.reasoning.flatten)
      else none).map fun p => ResponseItem.reasoning p.1 p.2).toList := by
  unfold Items.doneReasoning Handed.items
  cases shows with
  | false => simp
  | true =>
    simp only [if_true, hs.reasoning_nil_iff]
    by_cases hr : h.reasoning.flatten = []
    · simp [hr]
    · simp [hr]

/-- The message item of what was handed out. -/
theorem Handed.doneMessage_eq (hs : h.Solid) :
    (h.items shows status).doneMessage status = ((if h.text.flatten ≠ [] then
      some (status, cstr h.text.flatten) else none).map
        fun p => ResponseItem.message p.1 p.2).toList := by
  unfold Items.doneMessage Handed.items
  simp only [hs.text_nil_iff]
  by_cases hc : h.text.flatten = []
  · rw [if_pos hc, if_neg fun hne => hne hc]
    rfl
  · rw [if_neg hc, if_pos hc]
    rfl

/-- The output array, in the same form. -/
theorem responsesLiveOutput_eq (rs : ResponsesLive) (content reasoning : Bytes)
    (calls : List ToolCall) (finish : Option Finish) (shows : Bool) :
    responsesLiveOutput rs content reasoning calls finish shows =
      ((if shows = true ∧ reasoning ≠ [] then
          some (if rs.reasoningOpened then
            (if rs.reasoningClosedNaturally then ResponseStatus.completed else .incomplete)
            else responseStatusForFinish finish, reasoning)
        else none).map fun p => ResponseItem.reasoning p.1 p.2).toList ++
      ((if content ≠ [] then some (responseStatusForFinish finish, content)
        else none).map fun p => ResponseItem.message p.1 p.2).toList ++
      calls.mapIdx (callOutput (responseStatusForFinish finish)) := by
  unfold responsesLiveOutput appendResponsesOutputItems
  by_cases hr : shows = true ∧ reasoning ≠ [] <;> by_cases hc : content ≠ [] <;>
    cases rs.reasoningOpened <;> simp [hr, hc]

/-- The two reasoning items. Their statuses are the same, for one overrides the other. -/
theorem Handed.reasoning_eq_iff (hs : h.Solid) (reasoning : Bytes) (events : List ResponsesEvent)
    (other : ResponseStatus) :
    (if shows = true ∧ h.reasoning.flatten ≠ [] then
        some (if h.closed = some true then ResponseStatus.completed else .incomplete,
          cstr h.reasoning.flatten)
        else none) =
      (if shows = true ∧ reasoning ≠ [] then
        some (if ((h.items shows status).state.after events).reasoningOpened then
          (if ((h.items shows status).state.after events).reasoningClosedNaturally then
            ResponseStatus.completed else .incomplete)
          else other, reasoning)
        else none) ↔ (shows = true → ToldAs h.reasoning.flatten reasoning) := by
  cases shows with
  | false => simp
  | true =>
    have hclosed : ((h.items true status).state.after events).reasoningClosedNaturally =
        (h.closed == some true) := rfl
    have hopened (hne : h.reasoning ≠ []) :
        ((h.items true status).state.after events).reasoningOpened = true := by
      simp [ResponsesLive.after, Items.state, Handed.items, hne]
    simp only [true_and, forall_const]
    rw [toldAs_eq_iff, and_iff_left_iff_imp]
    intro htold hne
    have hpieces : h.reasoning ≠ [] := by
      intro hnil
      rw [hs.reasoning_nil_iff] at hnil
      exact hne (by rw [← htold.1, hnil]; rfl)
    rw [hopened hpieces, hclosed]
    simp

end Compare

/-! ## The stream and the final object -/

/-- The calls of a message with the ids they are given. -/
def withIds (ids : Nat → Bytes) (calls : List ToolCall) : List ToolCall :=
  calls.mapIdx fun i tc => { tc with id := ids i }

theorem withIds_eq_nil {ids : Nat → Bytes} {calls : List ToolCall} :
    withIds ids calls = [] ↔ calls = [] := by
  simp [withIds]

/-- A Responses stream of a text, with the calls, content and reasoning of a message: all sends
succeed and the output array lists the ended items. -/
def OutputListsItems (think : ThinkMode) (hasTools shows : Bool) (T : Bytes) (cuts : List Nat)
    (m : ParsedMessage) (ids : Nat → Bytes) (finish : Finish) : Prop :=
  let calls := withIds ids m.toolCalls.v
  let run := responsesRun allSends think hasTools shows (cuts.map fun q => (T.take q, q)) T T.length
    calls (some finish)
  run.1 = true ∧ ListsDoneItems (run.2.wire.sent.map Prod.snd)
    (responsesLiveOutput run.2 m.content (m.reasoning.getD []) calls (some finish) shows)

instance (think : ThinkMode) (hasTools shows : Bool) (T : Bytes) (cuts : List Nat)
    (m : ParsedMessage) (ids : Nat → Bytes) (finish : Finish) :
    Decidable (OutputListsItems think hasTools shows T cuts m ids finish) :=
  inferInstanceAs (Decidable (_ ∧ _))

/-- The output array lists the ended items exactly when the texts are the same and no item is
ended as completed that the finish reason says otherwise. -/
theorem outputListsItems_iff {think : ThinkMode} {hasTools : Bool} (shows : Bool) {T : Bytes}
    {cuts : List Nat} {h : Handed} (hrun : HandsOut think hasTools T cuts h) (hs : h.Solid)
    (m : ParsedMessage) (ids : Nat → Bytes) (finish : Finish) :
    OutputListsItems think hasTools shows T cuts m ids finish ↔
      (shows = true → ToldAs h.reasoning.flatten (m.reasoning.getD [])) ∧
        ToldAs h.text.flatten m.content ∧
        (responseStatusForFinish (some finish) = .completed ∨
          m.calls = [] ∧ (m.content = [] ∨ h.ended ≠ some true)) := by
  obtain ⟨status, hstatus, hended, htext, hresponses⟩ :=
    responsesRun_items shows hrun (withIds ids m.toolCalls.v) (some finish)
  have hcalls : withIds ids m.toolCalls.v = [] ↔ m.calls = [] := by
    rw [withIds_eq_nil]
    exact List.map_eq_nil_iff
  have hevents : ∀ events,
      (((h.items shows status).state.after events).wire.sent).map Prod.snd = events :=
    numberEvents_snd
  have hdone : (h.items shows status).text ≠ [] → (h.items shows status).ended = some status := by
    intro hne
    obtain ⟨tool, htool⟩ := Option.ne_none_iff_exists'.mp fun hnone => hne (htext hnone)
    simp [Handed.items, htool]
  have hsame : (ToldAs h.text.flatten m.content → m.content ≠ [] →
      (status = responseStatusForFinish (some finish) ↔
        responseStatusForFinish (some finish) = .completed ∨ h.ended ≠ some true)) := by
    intro htold hne
    have hpieces : h.text ≠ [] := by
      intro hnil
      rw [hs.text_nil_iff] at hnil
      exact hne (by rw [← htold.1, hnil]; rfl)
    obtain ⟨tool, htool⟩ := Option.ne_none_iff_exists'.mp fun hnone => hpieces (htext hnone)
    have heq := hstatus tool htool
    cases tool with
    | false => simp [htool, heq]
    | true => simp [htool, heq, responseStatusForFinish, eq_comm]
  unfold OutputListsItems
  dsimp only
  rw [hresponses]
  dsimp only
  rw [hevents, ListsDoneItems, doneItems_trace hended.1 hdone, responsesLiveOutput_eq,
    Handed.doneReasoning_eq hs, Handed.doneMessage_eq hs]
  simp only [true_and]
  have hlists : ∀ xs ys zs ws : List ResponseItem, zs.length = ws.length →
      (indexed (xs ++ zs) = indexed (ys ++ ws) ↔ xs = ys ∧ zs = ws) := by
    intro xs ys zs ws hlen
    constructor
    · exact fun heq => List.append_inj' (indexed_injective heq) hlen
    · rintro ⟨rfl, rfl⟩
      rfl
  rw [hlists _ _ _ _ (by simp), reasoning_message_eq_iff, Handed.reasoning_eq_iff hs,
    toldAs_eq_iff, mapIdx_callOutput_eq_iff, hcalls, and_assoc, and_assoc]
  refine and_congr_right fun _ => and_congr_right fun htold => ?_
  by_cases hne : m.content = []
  · simp [hne, eq_comm, or_comm]
  · rw [hsame htold hne]
    simp only [ne_eq, hne, not_false_eq_true, forall_const, false_or]
    tauto

/-! ## Up to the first NUL byte -/

/-- Where the content starts before the first NUL byte, it starts for the splitter. -/
theorem contentStart_cstr {think : ThinkMode} {T : Bytes} {S : Nat}
    (hS : contentStart think (cstr T) = some S) :
    S ≤ (cstr T).length ∧ contentStart think T = some S ∧
      streamedReasoning think T = streamedReasoning think (cstr T) := by
  cases think with
  | none =>
    obtain rfl : 0 = S := Option.some.inj hS
    exact ⟨Nat.zero_le _, rfl, rfl⟩
  | enabled =>
    obtain ⟨c, hc, rfl⟩ := Option.map_eq_some_iff.mp hS
    obtain ⟨hcT, hle⟩ := Option.filter_eq_some_iff.mp (thinkCloseAt_cstr T ▸ hc)
    rw [decide_eq_true_eq] at hle
    refine ⟨by rwa [length_thinkClose], by simp [contentStart, hcT], ?_⟩
    simp only [streamedReasoning, hc, hcT, Option.getD_some, thinkBodyStart_cstr]
    rw [cstr_eq_take, slice_take (by omega)]

theorem toolStartFrom_cstr {T : Bytes} {S : Nat} (hS : S ≤ (cstr T).length) :
    toolStartFrom T S = findAnyToolStart ((cstr T).drop S) := by
  rw [toolStartFrom, cstr_drop hS]

/-- The content of the text has an opener, and tools are on. -/
def OpenerInContent (think : ThinkMode) (hasTools : Bool) (T : Bytes) : Prop :=
  hasTools = true ∧ ∃ S i, contentStart think T = some S ∧ S ≤ i ∧ ToolStartAt T i

theorem openerInContent_cstr {think : ThinkMode} {hasTools : Bool} {T : Bytes} {S : Nat}
    (hS : contentStart think (cstr T) = some S) :
    OpenerInContent think hasTools (cstr T) ↔ hasTools = true ∧ toolStartFrom T S ≠ none := by
  rw [toolStartFrom_cstr (contentStart_cstr hS).1, Ne, findAnyToolStart_eq_none_iff]
  simp only [not_forall, not_not, toolStartAt_drop]
  refine and_congr_right fun _ => ⟨?_, ?_⟩
  · rintro ⟨S', i, hS', hi, hat⟩
    obtain rfl : S = S' := Option.some.inj (hS.symm.trans hS')
    exact ⟨i - S, by rwa [Nat.add_sub_cancel' hi]⟩
  · rintro ⟨i, hat⟩
    exact ⟨S, S + i, hS, Nat.le_add_right S i, hat⟩

/-- A single call ends the content where the declarative split of the C string does. -/
theorem bufferEnd_cstr {hasTools : Bool} {T : Bytes} {S : Nat} (hS : S ≤ (cstr T).length)
    (hsee : NulFree T ∨ hasTools = true ∧ toolStartFrom T S ≠ none) :
    bufferEnd hasTools T S = contentEnd hasTools (cstr T) S := by
  unfold bufferEnd contentEnd
  rw [← toolStartFrom_cstr hS]
  cases htool : (if hasTools then toolStartFrom T S else none) with
  | none =>
    rcases hsee with hT | ⟨rfl, hne⟩
    · rw [cstr_iff.mpr hT]
    · exact absurd htool hne
  | some t =>
    have hlt : S + t < (cstr T).length := by
      cases hasTools with
      | false => nomatch htool
      | true =>
        rw [if_pos rfl, toolStartFrom_cstr hS] at htool
        have hat := (findAnyToolStart_eq_some_iff.mp htool).1.bounds.1
        rw [List.length_drop] at hat
        omega
    have htrimle : trimToolSeparatorWs T S (S + t) ≤ S + t := retreat_le _ _ _ _
    have htrim : trimToolSeparatorWs (cstr T) S (S + t) = trimToolSeparatorWs T S (S + t) := by
      refine retreat_congr fun k hk => ?_
      rw [cstr_eq_take, List.getElem?_take, if_pos (by omega)]
    dsimp only
    rw [htrim, cstr_eq_take, utf8StreamSafeLen_take (by omega)]

theorem nulFree_split {think : ThinkMode} {hasTools : Bool} {T : Bytes} (hT : NulFree T) :
    NulFree (streamedReasoning think T) ∧ NulFree (streamedContent think hasTools T) := by
  have hslice : ∀ lo hi, NulFree (slice T lo hi) := fun lo hi hzero =>
    hT (List.mem_of_mem_drop (List.mem_of_mem_take hzero))
  constructor
  · unfold streamedReasoning
    split
    · exact List.not_mem_nil
    · exact hslice _ _
  · unfold streamedContent
    split
    · exact hslice _ _
    · exact List.not_mem_nil

/-- A run that sees all of the text, or an opener of it, hands out the split of the C string. -/
theorem HandedAll.seen {think : ThinkMode} {hasTools : Bool} {T : Bytes} {h : Handed}
    (hall : HandedAll think hasTools T h)
    (hsee : NulFree T ∨ OpenerInContent think hasTools (cstr T)) :
    h.reasoning.flatten = streamedReasoning think (cstr T) ∧
      h.text.flatten = streamedContent think hasTools (cstr T) ∧
      (h.ended = some true ↔ OpenerInContent think hasTools (cstr T)) := by
  rcases hS : contentStart think (cstr T) with _ | S
  · have hno : ¬ OpenerInContent think hasTools (cstr T) := by
      rintro ⟨-, S, i, hS', -⟩
      rw [hS] at hS'
      cases hS'
    have hT := hsee.resolve_right hno
    rw [cstr_iff.mpr hT] at hS hno ⊢
    rcases hall.content with ⟨-, htext, hended⟩ | ⟨S', -, -, hS', -⟩
    · simp [hall.reasoning, htext, hended, streamedContent, hS, hno]
    · rw [hS] at hS'
      cases hS'
  · obtain ⟨hle, hS', hreasoning⟩ := contentStart_cstr hS
    have hsee' : NulFree T ∨ hasTools = true ∧ toolStartFrom T S ≠ none :=
      hsee.imp_right (openerInContent_cstr hS).mp
    rcases hall.content with ⟨hnone, -⟩ | ⟨S', E, tool, hstart, hends, htext, hended⟩
    · rw [hS'] at hnone
      cases hnone
    · obtain rfl : S = S' := Option.some.inj (hS'.symm.trans hstart)
      obtain ⟨hE, htool⟩ := hends.seen fun _ => hsee'.imp
        (fun hT hzero => hT (List.mem_of_mem_drop hzero)) And.right
      have hend := contentEnd_le hasTools hle
      refine ⟨hall.reasoning.trans hreasoning, ?_, ?_⟩
      · rw [htext, hE, bufferEnd_cstr hle hsee', streamedContent, hS]
        dsimp only
        obtain ⟨C, hC⟩ : ∃ C, C = contentEnd hasTools (cstr T) S := ⟨_, rfl⟩
        rw [← hC] at hend ⊢
        rw [cstr_eq_take T, slice_take hend]
      · rw [hended, Option.some.injEq, htool, openerInContent_cstr hS]

/-! ## The condition -/

/-- When the last event lists the items of a text that the stream sees as the parser does: the two
splits of the text agree, on the content alone if reasoning is not shown; and the finish reason is
not a cut or a failure, unless nothing was ended as completed before it: no call, and no content
before an opener. -/
def OutputMatches (think : ThinkMode) (hasTools shows : Bool) (T : Bytes) (m : ParsedMessage)
    (finish : Finish) : Prop :=
  (StreamMatchesParse think hasTools T ∨
      shows = false ∧ think = .none ∧ RepeatedContent hasTools T) ∧
    (responseStatusForFinish (some finish) = .completed ∨
      m.calls = [] ∧ (m.content = [] ∨ ¬ OpenerInContent think hasTools T))

/-- Where a run sees all of the text, or an opener of it. -/
theorem outputListsItems_seen {think : ThinkMode} {hasTools : Bool} (shows : Bool) {T : Bytes}
    {cuts : List Nat} {h : Handed} (hrun : HandsOut think hasTools T cuts h)
    (hall : HandedAll think hasTools T h)
    (hsee : NulFree T ∨ OpenerInContent think hasTools (cstr T)) (ids : Nat → Bytes)
    (finish wireFinish : Finish) :
    let m := (parseGeneratedMessageForResponse (cstr T) think finish).2.2
    OutputListsItems think hasTools shows T cuts m ids wireFinish ↔
      OutputMatches think hasTools shows (cstr T) m wireFinish := by
  intro m
  obtain ⟨hreasoning, htext, hended⟩ := hall.seen hsee
  obtain ⟨hR, hX⟩ := @nulFree_split think hasTools _ (nulFree_cstr T)
  rw [outputListsItems_iff shows hrun hall.solid, hreasoning, htext, toldAs_iff hR, toldAs_iff hX,
    Ne, hended, ← and_assoc]
  refine and_congr_left fun _ => ?_
  cases shows with
  | true =>
    have hboth := streamMatchesParse_iff think hasTools (cstr T) finish
    simpa [StreamAgrees, m] using hboth
  | false =>
    have hcontent := streamedContent_eq_iff think hasTools (cstr T) finish
    simpa [m] using hcontent

/-- Nothing is streamed as content when a single call hands out none. -/
theorem HandedAll.nothing_iff {think : ThinkMode} {hasTools : Bool} {T : Bytes} {h : Handed}
    (hall : HandedAll think hasTools T h) :
    ToldAs h.text.flatten [] ↔ ∀ S, contentStart think T = some S → bufferEnd hasTools T S = S := by
  have htold : ToldAs h.text.flatten [] ↔ h.text.flatten = [] :=
    ⟨fun h => h.2 rfl, fun h => ⟨by rw [h]; rfl, fun _ => h⟩⟩
  rw [htold]
  rcases hall.content with ⟨hnone, htext, -⟩ | ⟨S, E, tool, hS, hends, htext, -⟩
  · simp [hnone, htext]
  · obtain ⟨hSE, hE⟩ := hends.bounds (contentStart_le hS)
    simp only [htext, hS, Option.some.injEq, forall_eq']
    rw [← hends.eq_start_iff, ← List.length_eq_zero_iff, length_slice hE]
    omega

/-- Reasoning that is not closed before the first NUL byte goes on behind it. -/
theorem toldAs_unclosed {T : Bytes} (hT : ¬ NulFree T) (hc : thinkCloseAt (cstr T) = none) :
    ToldAs (streamedReasoning .enabled T) ((cstr T).drop (thinkBodyStart (cstr T))) ↔
      (cstr T).drop (thinkBodyStart (cstr T)) ≠ [] := by
  have hlen : (cstr T).length < T.length := by
    obtain ⟨rest, hrest⟩ := eq_cstr_append hT
    have := congrArg List.length hrest
    rw [List.length_append, List.length_cons] at this
    omega
  have hend : (cstr T).length < (thinkCloseAt T).getD T.length ∧
      (thinkCloseAt T).getD T.length ≤ T.length := by
    cases hcT : thinkCloseAt T with
    | none => exact ⟨hlen, Nat.le_refl _⟩
    | some c =>
      obtain ⟨⟨-, hle, hocc⟩, -⟩ := thinkCloseAt_eq_some_iff.mp hcT
      refine ⟨?_, Nat.le_trans (Nat.le_add_right c 8) hle⟩
      have hnul : NulFree thinkClose := by decide
      by_contra hbefore
      have hadd := hocc.add_le_cstr hnul (by simpa using hbefore)
      rw [thinkCloseAt_cstr, hcT, Option.filter_eq_none_iff] at hc
      exact hc c rfl (by simpa using hadd)
  have hbody : thinkBodyStart T ≤ (cstr T).length :=
    thinkBodyStart_cstr T ▸ thinkBodyStart_le (cstr T)
  have hne : streamedReasoning .enabled T ≠ [] := slice_ne_nil (by omega) hend.2
  unfold ToldAs
  rw [streamedReasoning, cstr_slice hbody (by omega), thinkBodyStart_cstr]
  exact ⟨fun h hnil => hne (h.2 hnil), fun h => ⟨rfl, fun hnil => absurd hnil h⟩⟩

/-- When the last event lists the items of a text whose thinking is not closed before the first NUL
byte: the reasoning up to there is not empty, if it is shown, and nothing of the text is streamed as
content. -/
def UnclosedMatches (think : ThinkMode) (hasTools shows : Bool) (T : Bytes) : Prop :=
  (shows = true → (cstr T).drop (thinkBodyStart (cstr T)) ≠ []) ∧
    ∀ S, contentStart think T = some S → bufferEnd hasTools T S = S

/-- Where thinking is not closed before the first NUL byte. -/
theorem outputListsItems_unclosed {think : ThinkMode} {hasTools : Bool} (shows : Bool) {T : Bytes}
    {cuts : List Nat} {h : Handed} (hrun : HandsOut think hasTools T cuts h)
    (hall : HandedAll think hasTools T h) (hT : ¬ NulFree T)
    (hS : contentStart think (cstr T) = none) (ids : Nat → Bytes) (finish wireFinish : Finish) :
    let m := (parseGeneratedMessageForResponse (cstr T) think finish).2.2
    OutputListsItems think hasTools shows T cuts m ids wireFinish ↔
      UnclosedMatches think hasTools shows T := by
  intro m
  cases think with
  | none => nomatch hS
  | enabled =>
    have hc : thinkCloseAt (cstr T) = none := Option.map_eq_none_iff.mp hS
    obtain ⟨hcontent, hreasoning, hcalls⟩ := parse_open hc finish
    rw [outputListsItems_iff shows hrun hall.solid, hall.reasoning, hreasoning, hcontent, hcalls,
      toldAs_unclosed hT hc, hall.nothing_iff]
    simp [UnclosedMatches]

/-- When the last event lists the items of a text whose content, from `S` on, goes past the first
NUL byte: no cut character holds the NUL byte back, the content before it is not empty and the
parser takes all of it; and the finish reason is not a cut or a failure, unless no run can end the
content at an opener. -/
def PassedMatches (think : ThinkMode) (hasTools : Bool) (T : Bytes) (S : Nat) (finish : Finish) :
    Prop :=
  (cstr T).length < utf8StreamSafeLen T S T.length ∧ (cstr T).drop S ≠ [] ∧
    KeepsContent think (cstr T) ∧
    (responseStatusForFinish (some finish) = .completed ∨
      ¬ (hasTools = true ∧ ∃ i, ShownOpener T S i))

/-- Content that goes past the first NUL byte, or nearly as far. -/
theorem toldAs_passed {think : ThinkMode} {T : Bytes} {S E : Nat}
    (hS : contentStart think (cstr T) = some S) (hSE : S ≤ E) (hE : E ≤ T.length)
    (hne : E ≠ (cstr T).length) (hnear : (cstr T).length ≤ E + 2) (finish : Finish) :
    ToldAs (slice T S E) (parseGeneratedMessageForResponse (cstr T) think finish).2.2.content ↔
      (cstr T).length < E ∧ (cstr T).drop S ≠ [] ∧ KeepsContent think (cstr T) := by
  obtain ⟨hle, -, -⟩ := contentStart_cstr hS
  rcases Nat.lt_or_ge (cstr T).length E with hlt | hge
  · have hshows := cstr_slice hle (Nat.le_of_lt hlt)
    have hX : slice T S E ≠ [] := slice_ne_nil (by omega) hE
    unfold ToldAs
    rw [hshows]
    constructor
    · rintro ⟨hcontent, hnil⟩
      refine ⟨hlt, fun hdrop => hX (hnil (hcontent ▸ hdrop)), ?_⟩
      rw [← slice_length] at hcontent
      exact keepsContent_of hS hcontent.symm hle (Nat.le_refl _) (Nat.le_add_right _ 2)
    · rintro ⟨-, hdrop, hkeeps⟩
      obtain ⟨hcontent, -, -⟩ := hkeeps.parse hS finish
      rw [hcontent]
      exact ⟨rfl, fun hnil => absurd hnil hdrop⟩
  · refine iff_of_false (fun htold => ?_) fun h => by omega
    have hcut : slice T S E = slice (cstr T) S E := by
      rw [cstr_eq_take, slice_take hge]
    have hfree : NulFree (slice (cstr T) S E) := fun hzero =>
      nulFree_cstr T (List.mem_of_mem_drop (List.mem_of_mem_take hzero))
    rw [hcut, toldAs_iff hfree] at htold
    have hkeeps := keepsContent_of hS htold.symm hSE hge hnear
    obtain ⟨hcontent, -, -⟩ := hkeeps.parse hS finish
    have hlen := congrArg List.length (htold.trans hcontent)
    rw [length_slice hge, List.length_drop] at hlen
    omega

/-- Where the content goes past the first NUL byte. -/
theorem outputListsItems_passed {think : ThinkMode} {hasTools : Bool} (shows : Bool) {T : Bytes}
    {S : Nat} {cuts : List Nat} {h : Handed} (hrun : HandsOut think hasTools T cuts h)
    (hall : HandedAll think hasTools T h) (hT : ¬ NulFree T)
    (hS : contentStart think (cstr T) = some S)
    (hno : ¬ OpenerInContent think hasTools (cstr T)) (ids : Nat → Bytes)
    (finish wireFinish : Finish) :
    let m := (parseGeneratedMessageForResponse (cstr T) think finish).2.2
    (OutputListsItems think hasTools shows T cuts m ids wireFinish ↔
      ((cstr T).length < utf8StreamSafeLen T S T.length ∧ (cstr T).drop S ≠ [] ∧
        KeepsContent think (cstr T)) ∧
      (responseStatusForFinish (some wireFinish) = .completed ∨ h.ended ≠ some true)) ∧
      (h.ended = some true → hasTools = true ∧ ∃ i, ShownOpener T S i) := by
  intro m
  obtain ⟨hle, hS', hreasoning⟩ := contentStart_cstr hS
  have hzero := getElem?_length_cstr hT
  have hlen : (cstr T).length < T.length := (List.getElem?_eq_some_iff.mp hzero).1
  have hnul : ¬ NulFree (T.drop S) := by
    refine fun hfree => hfree (List.mem_iff_getElem?.mpr ⟨(cstr T).length - S, ?_⟩)
    rwa [List.getElem?_drop, Nat.add_sub_cancel' hle]
  have hseen : S + (cstr (T.drop S)).length = (cstr T).length := by
    rw [cstr_drop hle, List.length_drop]
    omega
  have hnone : hasTools = true → toolStartFrom T S = none := fun ht => by
    by_contra hne
    exact hno ((openerInContent_cstr hS).mpr ⟨ht, hne⟩)
  have hfar := @utf8StreamSafeLen_ne _ S _ _ _ hlen hzero (by decide)
  have hnear := le_utf8StreamSafeLen_add_three T S T.length
  rcases hall.content with ⟨hstart, -⟩ | ⟨S', E, tool, hstart, hends, htext, hended⟩
  · rw [hS'] at hstart
    nomatch hstart
  obtain rfl : S = S' := Option.some.inj (hS'.symm.trans hstart)
  obtain ⟨hSE, hE⟩ := hends.bounds (contentStart_le hS')
  have hhidden := hends.hidden hnul hnone
  rw [hseen] at hhidden
  have htold := toldAs_passed (E := E) hS hSE hE
    (by rcases hhidden with ⟨-, rfl⟩ | ⟨-, hlt, -⟩ <;> omega)
    (by rcases hhidden with ⟨-, rfl⟩ | ⟨-, hlt, -⟩ <;> omega) finish
  have hpast : (cstr T).length < E ↔ (cstr T).length < utf8StreamSafeLen T S T.length := by
    rcases hhidden with ⟨-, rfl⟩ | ⟨-, hlt, hle', -⟩ <;> omega
  rw [hpast] at htold
  constructor
  · rw [outputListsItems_iff shows hrun hall.solid, hall.reasoning, htext, htold, hreasoning,
      toldAs_iff (@nulFree_split _ hasTools _ (nulFree_cstr T)).1]
    constructor
    · rintro ⟨-, hpassed, hfinish⟩
      obtain ⟨hcontent, -, -⟩ := hpassed.2.2.parse hS finish
      refine ⟨hpassed, hfinish.imp_right fun h => h.2.resolve_left fun hnil => ?_⟩
      exact hpassed.2.1 (hcontent ▸ hnil)
    · rintro ⟨hpassed, hfinish⟩
      obtain ⟨-, hparsed, hcalls⟩ := hpassed.2.2.parse hS finish
      exact ⟨fun _ => hparsed.symm, hpassed, hfinish.imp_right fun h => ⟨hcalls, .inr h⟩⟩
  · intro htrue
    rcases hhidden with ⟨rfl, -⟩ | ⟨-, -, -, hshown⟩
    · rw [hended] at htrue
      nomatch htrue
    · exact hshown

/-! ## Every stream of a text -/

/-- When the last event lists the ended items in every stream of the text. -/
def OutputAgrees (think : ThinkMode) (hasTools shows : Bool) (T : Bytes) (m : ParsedMessage)
    (finish : Finish) : Prop :=
  (NulFree T ∨ OpenerInContent think hasTools (cstr T)) ∧
      OutputMatches think hasTools shows (cstr T) m finish ∨
    ¬ (NulFree T ∨ OpenerInContent think hasTools (cstr T)) ∧
      match contentStart think (cstr T) with
      | none => UnclosedMatches think hasTools shows T
      | some S => PassedMatches think hasTools T S finish

/-- All streams of a text, where one is like the other. -/
theorem forall_cuts_iff {T : Bytes} {P : List Nat → Prop} {Q : Prop}
    (h : ∀ cuts : List Nat, (∀ q ∈ cuts, q ≤ T.length) → cuts.Pairwise (· ≤ ·) → (P cuts ↔ Q)) :
    (∀ cuts : List Nat, (∀ q ∈ cuts, q ≤ T.length) → cuts.Pairwise (· ≤ ·) → P cuts) ↔ Q :=
  ⟨fun hall => (h [] nofun .nil).mp (hall [] nofun .nil),
    fun hQ cuts hcuts hpw => (h cuts hcuts hpw).mpr hQ⟩

/-- The stream and the final object agree, however a text comes in, exactly for the texts of
`OutputAgrees`. -/
theorem responsesOutput_iff (think : ThinkMode) (hasTools shows : Bool) (T : Bytes)
    (ids : Nat → Bytes) (finish wireFinish : Finish) :
    let m := (parseGeneratedMessageForResponse (cstr T) think finish).2.2
    (∀ cuts : List Nat, (∀ q ∈ cuts, q ≤ T.length) → cuts.Pairwise (· ≤ ·) →
      OutputListsItems think hasTools shows T cuts m ids wireFinish) ↔
      OutputAgrees think hasTools shows T m wireFinish := by
  intro m
  unfold OutputAgrees
  by_cases hsee : NulFree T ∨ OpenerInContent think hasTools (cstr T)
  · simp only [hsee, true_and, not_true_eq_false, false_and, or_false]
    refine forall_cuts_iff fun cuts hcuts hpw => ?_
    obtain ⟨h, hrun, hhanded⟩ := handsOut_exists think hasTools hcuts hpw
    exact outputListsItems_seen shows hrun hhanded hsee ids finish wireFinish
  obtain ⟨hT, hno⟩ := not_or.mp hsee
  simp only [hsee, false_and, false_or, not_false_eq_true, true_and]
  cases hS : contentStart think (cstr T) with
  | none =>
    refine forall_cuts_iff fun cuts hcuts hpw => ?_
    obtain ⟨h, hrun, hhanded⟩ := handsOut_exists think hasTools hcuts hpw
    exact outputListsItems_unclosed shows hrun hhanded hT hS ids finish wireFinish
  | some S =>
    obtain ⟨-, hS', -⟩ := contentStart_cstr hS
    constructor
    · intro hall
      have hnil : ∀ q ∈ ([] : List Nat), q ≤ T.length := nofun
      obtain ⟨h, hrun, hhanded⟩ := handsOut_exists think hasTools hnil .nil
      obtain ⟨hiff, -⟩ :=
        outputListsItems_passed shows hrun hhanded hT hS hno ids finish wireFinish
      obtain ⟨⟨hpast, hne, hkeeps⟩, -⟩ := hiff.mp (hall [] hnil .nil)
      refine ⟨hpast, hne, hkeeps, ?_⟩
      by_contra hbad
      simp only [not_or, not_not] at hbad
      obtain ⟨hfinish, rfl, i, hi⟩ := hbad
      -- the stream that is cut at the opener ends the content there
      have hnone : toolStartFrom T S = none := by
        by_contra hsome
        exact hno ((openerInContent_cstr hS).mpr ⟨rfl, hsome⟩)
      obtain ⟨h', hrun', hended⟩ := handsOut_shown hS' hnone hi
      have hcut : ∀ q ∈ [i + 1], q ≤ T.length := fun q hq => by
        have := hi.2.1.bounds.1
        rw [List.mem_singleton.mp hq]
        omega
      have hpw : [i + 1].Pairwise (· ≤ ·) := List.pairwise_singleton _ _
      obtain ⟨h'', hrun'', hhanded''⟩ := handsOut_exists think true hcut hpw
      obtain rfl := hrun'.unique hrun''
      obtain ⟨hiff', -⟩ :=
        outputListsItems_passed shows hrun' hhanded'' hT hS hno ids finish wireFinish
      rcases (hiff'.mp (hall [i + 1] hcut hpw)).2 with hcompleted | hopen
      · exact hfinish hcompleted
      · exact hopen hended
    · rintro ⟨hpast, hne, hkeeps, hfinish⟩ cuts hcuts hpw
      obtain ⟨h, hrun, hhanded⟩ := handsOut_exists think hasTools hcuts hpw
      obtain ⟨hiff, hshown⟩ :=
        outputListsItems_passed shows hrun hhanded hT hS hno ids finish wireFinish
      exact hiff.mpr ⟨⟨hpast, hne, hkeeps⟩, hfinish.imp_right fun hnot hended =>
        hnot (hshown hended)⟩

example : OutputListsItems .none true true [0x61, 0x00] [1]
    (parseGeneratedMessageForResponse (cstr [0x61, 0x00]) .none .stop).2.2 (fun _ => []) .stop := by
  decide

/-- A text that the token limit cut in a character: the splitter holds the cut bytes back, and the
parser keeps them. And a call that ends a text which the limit cut: it is ended as completed, and
stands as incomplete in the output array. -/
theorem not_outputListsItems_cut :
    ¬ OutputListsItems .none true true [0x61, 0xe4] []
        (parseGeneratedMessageForResponse (cstr [0x61, 0xe4]) .none .length).2.2 (fun _ => [])
        .length ∧
      let T := bytes "<tool_call>\n<function=f>\n</function>\n</tool_call>"
      let m := (parseGeneratedMessageForResponse (cstr T) .none .length).2.2
      ¬ OutputListsItems .none true true T [] m (fun _ => bytes "call_1") .length := by
  decide

end Sf37.Server

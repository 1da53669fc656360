/-
Sf37.Server.LiveTail — the tail a live continuation evaluates against the tail of the
prompt that replays the conversation.

* `responsesPrepareLiveContinuation`, `anthropicPrepareLiveContinuation`: where the
  tail starts and what is kept of it.
* `tail_of_turns`: the two renderers agree from a start on that follows a whole turn.
* `renderLiveToolTail_suffix`: for the starts the two functions choose.
-/
import Sf37.Server.ChatPrompt
import Sf37.Server.RunGeneration

namespace Sf37.Server

open Sf37.Text

/-! ## Choosing a start -/

/-- `chat_msg_collect_tool_call_ids`. -/
def chatMsgCollectToolCallIds (ids : List Bytes) (m : ChatMsg) : List Bytes :=
  m.toolCallIds.foldl idListPushUnique (idListPushUnique ids m.toolCallId)

/-- The loop over the messages that are tool results in the Responses API. -/
def responsesTailStart (msgs : List ChatMsg) : Nat :=
  retreat (fun m => roleIsToolResult (m.role.getD [])) msgs 0 msgs.length

/-- The call ids a Responses continuation asks for, `none` where it gives up before the
list is filled. -/
def responsesTailCallIds (msgs : List ChatMsg) (tailStart : Nat) : Option (List Bytes) :=
  match tailStart with
  | 0 => some (msgs.foldl chatMsgCollectToolCallIds [])
  | before + 1 =>
      match msgs[before]? with
      | none => none
      | some assistant =>
          if assistant.role.getD [] ≠ bytes "assistant" ∨ assistant.calls.v = [] then none
          else some ((assistant.calls.v.map (·.id)).foldl idListPushUnique [])

/-- Where the tail of a Responses continuation starts, when there is one. -/
def responsesLiveStart (r : Request) (msgs : List ChatMsg) : Option Nat :=
  let tailStart := responsesTailStart msgs
  if r.api ≠ .responses ∨ tailStart = msgs.length then none
  else if (responsesTailCallIds msgs tailStart).getD [] = [] then none
  else some tailStart

/-- `responses_prepare_live_continuation`. -/
def responsesPrepareLiveContinuation (r : Request) (msgs : List ChatMsg) : Request :=
  let tailStart := responsesTailStart msgs
  if r.api ≠ .responses ∨ tailStart = msgs.length then r
  else
    let r := { r with
      responsesLiveCallIds := (responsesTailCallIds msgs tailStart).getD [] }
    match responsesLiveStart r msgs with
    | none => r
    | some start =>
        { r with responsesLiveSuffixText := some (renderLiveToolTail msgs start r.thinkMode) }

/-- `anthropic_msg_is_tool_result_tail`. -/
def anthropicMsgIsToolResultTail (m : ChatMsg) : Bool :=
  m.role == some (bytes "user") && (m.toolCallId != [] || m.toolCallIds != [])

/-- The loop over the system messages at the end. -/
def anthropicTailEnd (msgs : List ChatMsg) : Nat :=
  retreat (fun m => roleIsSystem m.role) msgs 0 msgs.length

/-- The loop over the tool results before them. -/
def anthropicTailStart (msgs : List ChatMsg) : Nat :=
  retreat anthropicMsgIsToolResultTail msgs 0 (anthropicTailEnd msgs)

/-- The call ids an Anthropic continuation asks for. -/
def anthropicTailCallIds (msgs : List ChatMsg) : List Bytes :=
  (msgs.drop (anthropicTailStart msgs)).foldl chatMsgCollectToolCallIds []

/-- Where the tail of an Anthropic continuation starts, when there is one. -/
def anthropicLiveStart (r : Request) (msgs : List ChatMsg) : Option Nat :=
  let tailStart := anthropicTailStart msgs
  if r.api ≠ .anthropic ∨ tailStart = anthropicTailEnd msgs then none
  else if anthropicTailCallIds msgs = [] then none
  else some tailStart

/-- `anthropic_prepare_live_continuation`. -/
def anthropicPrepareLiveContinuation (r : Request) (msgs : List ChatMsg) : Request :=
  if r.api ≠ .anthropic ∨ anthropicTailStart msgs = anthropicTailEnd msgs then r
  else
    let r := { r with anthropicLiveCallIds := anthropicTailCallIds msgs }
    match anthropicLiveStart r msgs with
    | none => r
    | some start =>
        { r with anthropicLiveSuffixText := some (renderLiveToolTail msgs start r.thinkMode) }

/-- One of the two functions keeps a tail that starts at `start`. -/
def ChoosesStart (r : Request) (msgs : List ChatMsg) (start : Nat) : Prop :=
  responsesLiveStart r msgs = some start ∨ anthropicLiveStart r msgs = some start

/-- A system message opens the conversation and there is nothing to say in its turn. -/
def SilentSystem (msgs : List ChatMsg) (toolSchemas : Bytes) : Prop :=
  firstIsSystem msgs = true ∧ toolSchemas = [] ∧ ∀ m, msgs.head? = some m → m.content = []

/-! ## Turns that are closed -/

theorem roleIsToolResult_roleAt {msgs : List ChatMsg} {m : ChatMsg} {i : Nat}
    (h : msgs[i]? = some m) : roleIsToolResult (roleAt msgs i) = roleIsToolResult m.roleOrUser := by
  unfold roleAt ChatMsg.roleOrUser
  rw [h, Option.bind_some]
  cases m.role with
  | none => decide
  | some role => rfl

theorem systemTurn_closed {msgs : List ChatMsg} {toolSchemas : Bytes}
    (hfirst : firstIsSystem msgs = true) (hsilent : ¬ SilentSystem msgs toolSchemas) :
    bytes "<|im_end|>\n" <:+ systemTurn msgs toolSchemas := by
  have hsaid : ¬ (systemText msgs toolSchemas = [] ∧ toolSchemas = []) := by
    rintro ⟨ht, hs⟩
    refine hsilent ⟨hfirst, hs, fun m hm => ?_⟩
    simpa [systemText, hfirst, hs, hm] using ht
  unfold systemTurn
  rw [if_neg hsaid]
  exact List.suffix_append _ _

/-- A turn ends with the marker, unless it is left open for the next tool result. -/
theorem messageTurn_closed {msgs : List ChatMsg} (toolOrders : List ToolSchemaOrder)
    (thinkMode : ThinkMode) (lastQuery : Int) {m : ChatMsg} {i : Nat}
    (hfirst : ¬ (i = 0 ∧ firstIsSystem msgs = true))
    (hnext : roleIsToolResult m.roleOrUser = true →
      roleIsToolResult (roleAt msgs (i + 1)) = false) :
    bytes "<|im_end|>\n" <:+ messageTurn msgs toolOrders thinkMode lastQuery m i := by
  by_cases ht : roleIsToolResult m.roleOrUser = true
  · simp only [messageTurn, if_neg hfirst, if_pos ht, toolTurn, hnext ht, Bool.false_eq_true,
      if_false]
    exact List.suffix_append _ _
  by_cases ha : m.roleOrUser = bytes "assistant"
  · simp only [messageTurn, if_neg hfirst, if_neg ht, if_pos ha, assistantTurn]
    exact List.suffix_append _ _
  · simp only [messageTurn, if_neg hfirst, if_neg ht, if_neg ha, plainTurn]
    exact List.suffix_append _ _

/-! ## The two loops -/

section Tail

variable {msgs : List ChatMsg} {start : Nat}

/-- From a start that opens a turn of its own, both loops write the same turns, as long
as the assistant does not come up. -/
theorem messageTurn_eq_liveTurn (toolOrders : List ToolSchemaOrder) (thinkMode : ThinkMode)
    (lastQuery : Int) (hstart : 1 ≤ start)
    (hopens : ¬ (roleIsToolResult (roleAt msgs (start - 1)) = true ∧
      roleIsToolResult (roleAt msgs start) = true))
    {m : ChatMsg} {i : Nat} (hi : start ≤ i) (hm : msgs[i]? = some m)
    (hrole : m.roleOrUser ≠ bytes "assistant") :
    messageTurn msgs toolOrders thinkMode lastQuery m i = liveTurn msgs start thinkMode m i := by
  have h0 : ∀ p : Prop, ¬ (i = 0 ∧ p) := by
    rintro p ⟨rfl, -⟩
    omega
  simp only [messageTurn, liveTurn, if_neg (h0 _)]
  by_cases ht : roleIsToolResult m.roleOrUser = true
  · rw [if_pos ht, if_pos ht]
    rcases Nat.lt_or_ge start i with hlt | hge
    · rw [if_pos (by omega), if_pos hlt]
    · obtain rfl : i = start := by omega
      rw [← roleIsToolResult_roleAt hm] at ht
      have hprev : roleIsToolResult (roleAt msgs (i - 1)) = false := by
        simpa [ht] using hopens
      have hnone : roleIsToolResult [] = false := rfl
      rw [if_pos (by omega), if_neg (by omega)]
      unfold toolTurn
      rw [hprev, hnone]
  · rw [if_neg ht, if_neg ht, if_neg hrole, if_neg hrole]

/-- The full rendering ends with the tail, when the tail follows a whole turn. -/
theorem tail_of_turns (bos toolSchemas : Bytes) (toolOrders : List ToolSchemaOrder)
    (thinkMode : ThinkMode) (hstart : 1 ≤ start) (hlen : start ≤ msgs.length)
    (hopens : ¬ (roleIsToolResult (roleAt msgs (start - 1)) = true ∧
      roleIsToolResult (roleAt msgs start) = true))
    (hrole : ∀ i m, start ≤ i → msgs[i]? = some m → m.roleOrUser ≠ bytes "assistant")
    (hsilent : ¬ (start = 1 ∧ SilentSystem msgs toolSchemas)) :
    renderLiveToolTail msgs start thinkMode <:+
      renderChatPromptText bos msgs toolSchemas toolOrders thinkMode := by
  obtain ⟨before, rfl⟩ : ∃ before, start = before + 1 := ⟨start - 1, by omega⟩
  obtain ⟨m, hm⟩ : ∃ m, msgs[before]? = some m := ⟨_, List.getElem?_eq_getElem (by omega)⟩
  have hdrop : (msgs.zipIdx.drop (before + 1)).flatMap
        (fun p => messageTurn msgs toolOrders thinkMode (lastQueryIdx msgs) p.1 p.2) =
      (msgs.zipIdx.drop (before + 1)).flatMap
        (fun p => liveTurn msgs (before + 1) thinkMode p.1 p.2) := by
    refine List.flatMap_congr fun p hp => ?_
    obtain ⟨k, hk⟩ := List.mem_iff_getElem?.mp hp
    rw [List.getElem?_drop, List.getElem?_zipIdx] at hk
    obtain ⟨x, hx, rfl⟩ := Option.map_eq_some_iff.mp hk
    have hi : before + 1 ≤ 0 + (before + 1 + k) := by omega
    have hx' : msgs[0 + (before + 1 + k)]? = some x := by simpa using hx
    exact messageTurn_eq_liveTurn toolOrders thinkMode _ hstart hopens hi hx'
      (hrole _ _ hi hx')
  have hclosed : bytes "<|im_end|>\n" <:+ bos ++ systemTurn msgs toolSchemas ++
      (msgs.zipIdx.take (before + 1)).flatMap
        (fun p => messageTurn msgs toolOrders thinkMode (lastQueryIdx msgs) p.1 p.2) := by
    have hlast : msgs.zipIdx.take (before + 1) = msgs.zipIdx.take before ++ [(m, before)] := by
      rw [List.take_add_one, List.getElem?_zipIdx, hm]
      simp
    rw [hlast, List.flatMap_append, List.flatMap_singleton]
    by_cases hfirst : before = 0 ∧ firstIsSystem msgs = true
    · have hturn : messageTurn msgs toolOrders thinkMode (lastQueryIdx msgs) m before = [] := by
        simp [messageTurn, hfirst]
      obtain ⟨a, ha⟩ := systemTurn_closed hfirst.2
        (fun h => hsilent ⟨by omega, h⟩ : ¬ SilentSystem msgs toolSchemas)
      rw [hturn, hfirst.1, List.take_zero, List.flatMap_nil, List.append_nil, List.append_nil,
        ← ha, ← List.append_assoc]
      exact List.suffix_append _ _
    · obtain ⟨a, ha⟩ := messageTurn_closed toolOrders thinkMode (lastQueryIdx msgs) hfirst
        (m := m) fun ht => by
          rw [← roleIsToolResult_roleAt hm] at ht
          simpa [ht] using hopens
      rw [← ha, ← List.append_assoc, ← List.append_assoc]
      exact List.suffix_append _ _
  obtain ⟨front, hfront⟩ := hclosed
  refine ⟨front, ?_⟩
  have hsplit : messageTurns msgs toolOrders thinkMode (lastQueryIdx msgs) msgs.zipIdx =
      (msgs.zipIdx.take (before + 1)).flatMap
        (fun p => messageTurn msgs toolOrders thinkMode (lastQueryIdx msgs) p.1 p.2) ++
      (msgs.zipIdx.drop (before + 1)).flatMap
        (fun p => liveTurn msgs (before + 1) thinkMode p.1 p.2) := by
    rw [messageTurns, ← hdrop, ← List.flatMap_append, List.take_append_drop]
  unfold renderLiveToolTail renderChatPromptText
  rw [hsplit, ← List.append_assoc (bos ++ systemTurn msgs toolSchemas), ← hfront]
  simp only [List.append_assoc]

end Tail

/-! ## The starts that are chosen -/

/-- A Responses tail is made of tool results and follows the assistant's calls. -/
theorem responsesLiveStart_spec {r : Request} {msgs : List ChatMsg} {start : Nat}
    (h : responsesLiveStart r msgs = some start) (hstart : 1 ≤ start) :
    start < msgs.length ∧
      (∃ m, msgs[start - 1]? = some m ∧ m.role = some (bytes "assistant")) ∧
      ∀ i m, start ≤ i → msgs[i]? = some m → roleIsToolResult (m.role.getD []) = true := by
  simp only [responsesLiveStart] at h
  split at h
  · exact absurd h (by simp)
  rename_i hapi
  split at h
  · exact absurd h (by simp)
  rename_i hids
  obtain rfl : responsesTailStart msgs = start := by simpa using h
  have hle : responsesTailStart msgs ≤ msgs.length := retreat_le _ _ _ _
  have hne : responsesTailStart msgs ≠ msgs.length := fun he => hapi (Or.inr he)
  refine ⟨by omega, ?_, fun i m hi hm => ?_⟩
  · obtain ⟨before, hb⟩ : ∃ before, responsesTailStart msgs = before + 1 :=
      ⟨responsesTailStart msgs - 1, by omega⟩
    rw [hb, responsesTailCallIds] at hids
    rw [hb]
    cases hm : msgs[before]? with
    | none => simp [hm] at hids
    | some m =>
      refine ⟨m, by simpa using hm, ?_⟩
      rw [hm] at hids
      by_cases ha : m.role.getD [] = bytes "assistant"
      · cases hrole : m.role with
        | none => exact absurd (hrole ▸ ha) (by decide)
        | some role => simpa [hrole] using ha
      · simp [ha] at hids
  · have hilen : i < msgs.length := (List.getElem?_eq_some_iff.mp hm).1
    simpa [hm] using retreat_skipped (p := fun m => roleIsToolResult (m.role.getD []))
      (s := msgs) (l := 0) (e := msgs.length) hi hilen

/-- An Anthropic tail begins with a user message and holds user and system messages. -/
theorem anthropicLiveStart_spec {r : Request} {msgs : List ChatMsg} {start : Nat}
    (h : anthropicLiveStart r msgs = some start) :
    start < msgs.length ∧
      (∀ m, msgs[start]? = some m → m.role = some (bytes "user")) ∧
      ∀ i m, start ≤ i → msgs[i]? = some m →
        m.role = some (bytes "user") ∨ roleIsSystem m.role = true := by
  simp only [anthropicLiveStart] at h
  split at h
  · exact absurd h (by simp)
  rename_i hapi
  split at h
  · exact absurd h (by simp)
  obtain rfl : anthropicTailStart msgs = start := by simpa using h
  have hend : anthropicTailEnd msgs ≤ msgs.length := retreat_le _ _ _ _
  have hle : anthropicTailStart msgs ≤ anthropicTailEnd msgs := retreat_le _ _ _ _
  have hne : anthropicTailStart msgs ≠ anthropicTailEnd msgs := fun he => hapi (Or.inr he)
  have huser : ∀ i m, anthropicTailStart msgs ≤ i → i < anthropicTailEnd msgs →
      msgs[i]? = some m → m.role = some (bytes "user") := by
    intro i m hi hie hm
    have := retreat_skipped (p := anthropicMsgIsToolResultTail) (s := msgs) (l := 0)
      (e := anthropicTailEnd msgs) hi hie
    simp only [hm, Option.any_some, anthropicMsgIsToolResultTail, Bool.and_eq_true,
      beq_iff_eq] at this
    exact this.1
  refine ⟨by omega, fun m hm => huser _ m (Nat.le_refl _) (by omega) hm, fun i m hi hm => ?_⟩
  rcases Nat.lt_or_ge i (anthropicTailEnd msgs) with hie | hie
  · exact Or.inl (huser i m hi hie hm)
  · have hilen : i < msgs.length := (List.getElem?_eq_some_iff.mp hm).1
    have := retreat_skipped (p := fun m : ChatMsg => roleIsSystem m.role) (s := msgs) (l := 0)
      (e := msgs.length) hie hilen
    exact Or.inr (by simpa [hm] using this)

/-- The tail of a live continuation is the tail of the prompt that replays the
conversation, unless all that stands before it is a system message without a turn. -/
theorem renderLiveToolTail_suffix (bos : Bytes) (r : Request) (msgs : List ChatMsg)
    (toolSchemas : Bytes) (toolOrders : List ToolSchemaOrder) (thinkMode : ThinkMode) (start : Nat)
    (hstart : 1 ≤ start) (hchosen : ChoosesStart r msgs start)
    (hsilent : ¬ (start = 1 ∧ SilentSystem msgs toolSchemas)) :
    renderLiveToolTail msgs start thinkMode <:+
      renderChatPromptText bos msgs toolSchemas toolOrders thinkMode := by
  rcases hchosen with h | h
  · obtain ⟨hlen, ⟨a, ha, harole⟩, htools⟩ := responsesLiveStart_spec h hstart
    refine tail_of_turns bos toolSchemas toolOrders thinkMode hstart (by omega) ?_
      (fun i m hi hm hrole => ?_) hsilent
    · rintro ⟨hbefore, -⟩
      rw [roleIsToolResult_roleAt ha, ChatMsg.roleOrUser, harole] at hbefore
      exact absurd hbefore (by decide)
    · have := htools i m hi hm
      cases hm' : m.role with
      | none => exact absurd (hm' ▸ this) (by decide)
      | some role =>
        rw [ChatMsg.roleOrUser, hm'] at hrole
        rw [hm', show role = bytes "assistant" from hrole] at this
        exact absurd this (by decide)
  · obtain ⟨hlen, huser, hrest⟩ := anthropicLiveStart_spec h
    refine tail_of_turns bos toolSchemas toolOrders thinkMode hstart (by omega) ?_
      (fun i m hi hm hrole => ?_) hsilent
    · rintro ⟨-, hat⟩
      obtain ⟨m, hm⟩ : ∃ m, msgs[start]? = some m := ⟨_, List.getElem?_eq_getElem hlen⟩
      rw [roleIsToolResult_roleAt hm, ChatMsg.roleOrUser, huser m hm] at hat
      exact absurd hat (by decide)
    · rw [ChatMsg.roleOrUser] at hrole
      rcases hrest i m hi hm with hu | hs
      · rw [hu] at hrole
        exact absurd hrole (by decide)
      · rcases (by simpa [roleIsSystem] using hs :
          m.role = some (bytes "system") ∨ m.role = some (bytes "developer")) with hr | hr <;>
        · rw [hr] at hrole
          exact absurd hrole (by decide)

/-- A system message and the result of a call that only the live session knows. -/
def systemThenResult (system : Bytes) : List ChatMsg :=
  [{ role := some (bytes "system"), content := system },
    { role := some (bytes "user"), content := bytes "<tool_result>x</tool_result>",
      toolCallId := bytes "t", toolCallIds := [bytes "t"] }]

theorem renderLiveToolTail_suffix_system :
    renderLiveToolTail (systemThenResult (bytes "s")) 1 .none <:+
      renderChatPromptText [] (systemThenResult (bytes "s")) [] [] .none :=
  renderLiveToolTail_suffix [] { api := .anthropic, promptText := [] } _ [] [] .none 1
    (by decide) (Or.inr (by decide)) (fun h => by
      have := h.2.2.2 _ rfl
      revert this
      decide)

/-- An empty system message has no turn, so nothing stands before the tail that its
first marker could close. -/
theorem not_renderLiveToolTail_suffix :
    ¬ ∀ (bos : Bytes) (r : Request) (msgs : List ChatMsg) (toolSchemas : Bytes)
      (toolOrders : List ToolSchemaOrder) (thinkMode : ThinkMode) (start : Nat),
      1 ≤ start → ChoosesStart r msgs start →
      renderLiveToolTail msgs start thinkMode <:+
        renderChatPromptText bos msgs toolSchemas toolOrders thinkMode := by
  intro h
  have := h [] { api := .anthropic, promptText := [] } (systemThenResult []) [] [] .none 1
    (by decide) (Or.inr (by decide))
  revert this
  decide

end Sf37.Server

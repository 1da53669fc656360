/-
Sf37.Server.ResponsesKey — the visible text remembered of a Responses reply, against
the prompt of the next turn.

The remembered text goes on in the think block that the prompt opened: reasoning,
`</think>`, content. The template writes a line break on both sides of `</think>` when
it keeps the reasoning of the reply, and no think block at all when it drops it.

* `not_prefix_of_kept`: a reply whose reasoning is kept.
* `responsesKey_never`: no remembered text is a prefix of every next prompt.
-/
import Sf37.Server.VisibleKeys

namespace Sf37.Server

open Sf37.Text

/-! ## The next request -/

/-- The reply as a message of the next request: its reasoning comes back when the
summary was emitted. -/
def responsesReply (r : Request) (reply : Reply) (calls : ToolCalls) : ChatMsg where
  role := some (bytes "assistant")
  content := reply.content
  reasoning := if r.reasoningSummaryEmit then reply.reasoning else []
  calls := calls

/-- What the next request adds: the results of the calls, or a user message when there
are no calls. -/
def FollowsUp (calls : ToolCalls) (further : List ChatMsg) : Prop :=
  if calls.v = [] then ∃ user : ChatMsg, further = [user] ∧ user.role = some (bytes "user")
  else
    (∀ m ∈ further, roleIsToolResult m.roleOrUser = true ∧
        ∃ c ∈ calls.v, m.toolCallId = c.id) ∧
      ∀ c ∈ calls.v, ∃ m ∈ further, m.toolCallId = c.id

/-- A Responses request in thinking mode, and the reply to it. -/
structure ResponsesTurn (bos toolSchemas : Bytes) (toolOrders : List ToolSchemaOrder)
    (msgs : List ChatMsg) (r : Request) (reply : Reply) (calls : ToolCalls) : Prop where
  api : r.api = .responses
  thinks : r.thinkMode = .enabled
  prompt : r.promptText = renderChatPromptText bos msgs toolSchemas toolOrders r.thinkMode
  sameCalls : reply.calls = calls.v
  callsText : reply.callsText = appendOfficialToolCallsText calls toolOrders

/-- The text `run_generation` remembers is a prefix of the next prompt. -/
def RememberedStarts (bos toolSchemas : Bytes) (toolOrders : List ToolSchemaOrder)
    (msgs : List ChatMsg) (r : Request) (reply : Reply) (calls : ToolCalls)
    (further : List ChatMsg) : Prop :=
  r.promptText ++ buildResponsesVisibleAssistantSuffix r reply <+:
    renderChatPromptText bos (msgs ++ responsesReply r reply calls :: further) toolSchemas
      toolOrders r.thinkMode

section Turn

variable {bos toolSchemas : Bytes} {toolOrders : List ToolSchemaOrder} {msgs : List ChatMsg}
  {r : Request} {reply : Reply} {calls : ToolCalls} {further : List ChatMsg}

theorem lastQueryIdx_nonneg {l : List ChatMsg} (h : l ≠ []) : 0 ≤ lastQueryIdx l := by
  have hpos : 0 < l.length := List.length_pos_iff.mpr h
  unfold lastQueryIdx
  split
  · rename_i k hk
    have hk' := (List.findIdx?_eq_some_iff_getElem.mp hk).1
    rw [List.length_reverse] at hk'
    omega
  · omega

/-- Neither the reply nor a tool result is a user query. -/
theorem followsUp_noQuery (hcalls : calls.v ≠ []) (h : FollowsUp calls further) :
    (responsesReply r reply calls :: further).any messageIsPlainUserQuery = false := by
  have hnotUser : ∀ m : ChatMsg, m.role ≠ some (bytes "user") →
      messageIsPlainUserQuery m = false := by
    intro m hm
    unfold messageIsPlainUserQuery
    rw [beq_eq_false_iff_ne.mpr hm, Bool.false_and]
  rw [FollowsUp, if_neg hcalls] at h
  have hreply : (responsesReply r reply calls).role = some (bytes "assistant") := rfl
  rw [List.any_cons, hnotUser _ (hreply ▸ by decide), Bool.false_or, List.any_eq_false]
  intro m hm
  have htool := (h.1 m hm).1
  rw [hnotUser m]
  · simp
  · intro hrole
    rw [ChatMsg.roleOrUser, hrole] at htool
    exact absurd htool (by decide)

/-- Where the reasoning of the reply is kept, the template breaks the line before
`</think>` and the remembered text does not. -/
theorem not_prefix_of_kept (h : ResponsesTurn bos toolSchemas toolOrders msgs r reply calls)
    (hcalls : calls.v ≠ []) (hq : lastQueryIdx (msgs ++ responsesReply r reply calls :: further) =
      lastQueryIdx msgs) :
    ¬ RememberedStarts bos toolSchemas toolOrders msgs r reply calls further := by
  intro hmatch
  have hrole : (responsesReply r reply calls).role = some (bytes "assistant") := rfl
  have hbody : messageTurns (msgs ++ responsesReply r reply calls :: further) toolOrders .enabled
      (lastQueryIdx msgs) msgs.zipIdx =
      messageTurns msgs toolOrders .enabled (lastQueryIdx msgs) msgs.zipIdx :=
    List.flatMap_congr fun p hp =>
      messageTurn_append hrole toolOrders .enabled (mem_zipIdx hp).1 fun _ _ => Iff.rfl
  have hkept : decide (ThinkMode.enabled = .enabled ∧ lastQueryIdx msgs < msgs.length) =
      true := by
    simpa using lastQueryIdx_lt msgs
  have hsuffix : buildResponsesVisibleAssistantSuffix r reply =
      (responsesReply r reply calls).reasoning ++ (bytes "</think>" ++ (reply.content ++
        reply.callsText)) := by
    simp [buildResponsesVisibleAssistantSuffix, h.thinks, h.sameCalls, hcalls, responsesReply]
  unfold RememberedStarts at hmatch
  rw [h.prompt, h.thinks, renderChatPromptText_append hrole, hq, hbody, hkept, hsuffix,
    renderChatPromptText] at hmatch
  simp only [assistantTurn, if_true, assistantOpening_enabled, List.append_assoc,
    List.prefix_append_right_inj] at hmatch
  have hclose : bytes "</think>" = 0x3c :: bytes "/think>" := by decide
  have hbreak : bytes "\n</think>\n" = 0x0a :: bytes "</think>\n" := by decide
  rw [hclose, hbreak, List.cons_append, List.cons_append, List.cons_prefix_cons] at hmatch
  exact absurd hmatch.1 (by decide)

/-- Results without content hold no think tag. -/
theorem count_emptyResults {l : List ChatMsg}
    (hl : ∀ m ∈ l, roleIsToolResult m.roleOrUser = true ∧ m.content = []) (ms : List ChatMsg)
    (q : Int) (n : Nat) :
    (messageTurns ms toolOrders .enabled q (l.zipIdx (n + 1))).count letterK = 0 := by
  have hturn : ∀ (prevRole nextRole : Bytes) (m : ChatMsg), m.content = [] →
      (toolTurn prevRole nextRole m).count letterK = 0 := by
    intro prevRole nextRole m hm
    unfold toolTurn
    rw [hm]
    cases roleIsToolResult prevRole <;> cases roleIsToolResult nextRole <;> decide
  rw [List.count_eq_zero, messageTurns]
  intro hmem
  obtain ⟨⟨m, i⟩, hp, hk⟩ := List.mem_flatMap.mp hmem
  obtain ⟨hi, -, hget⟩ := List.mem_zipIdx hp
  obtain ⟨htool, hcontent⟩ := hl m (hget ▸ List.getElem_mem _)
  have hfirst : ¬ (i = 0 ∧ firstIsSystem ms = true) := by
    rintro ⟨h0, -⟩
    omega
  simp only [messageTurn, if_neg hfirst, if_pos htool] at hk
  exact List.count_eq_zero.mp (hturn _ _ m hcontent) hk

/-- Where the reasoning of the reply is dropped, the remembered text holds one think tag
more than a next prompt that brings none of its own. -/
theorem not_prefix_of_dropped (h : ResponsesTurn bos toolSchemas toolOrders msgs r reply calls)
    (hq : (msgs.length : Int) ≤ lastQueryIdx (msgs ++ responsesReply r reply calls :: further))
    (hfurther : ∀ q, (messageTurns (msgs ++ responsesReply r reply calls :: further) toolOrders
      .enabled q (further.zipIdx (msgs.length + 1))).count letterK = 0) :
    ¬ RememberedStarts bos toolSchemas toolOrders msgs r reply calls further := by
  intro hmatch
  have hrole : (responsesReply r reply calls).role = some (bytes "assistant") := rfl
  have hdropped : decide (ThinkMode.enabled = .enabled ∧
      lastQueryIdx (msgs ++ responsesReply r reply calls :: further) < msgs.length) = false := by
    simp only [true_and, decide_eq_false_iff_not]
    omega
  have hcount := List.IsPrefix.count_le letterK hmatch
  have hbody := count_messageTurns_le msgs further hrole toolOrders .enabled
    (lastQueryIdx_le_append msgs (responsesReply r reply calls :: further))
  have hsuffix : reply.content.count letterK + reply.callsText.count letterK + 1 ≤
      (buildResponsesVisibleAssistantSuffix r reply).count letterK := by
    have h1 : (bytes "</think>").count letterK = 1 := by decide
    simp only [buildResponsesVisibleAssistantSuffix, h.thinks, if_true, List.count_append, h1]
    omega
  have hturn : (assistantTurn toolOrders false (responsesReply r reply calls)).count letterK =
      reply.content.count letterK + reply.callsText.count letterK := by
    have h1 : (bytes "<|im_start|>assistant\n").count letterK = 0 := by decide
    have h2 : (bytes "<|im_end|>\n").count letterK = 0 := by decide
    simp [assistantTurn, responsesReply, h.callsText, h1, h2]
  have h1 : (bytes "<|im_start|>assistant\n").count letterK = 0 := by decide
  have h2 : (bytes "<think>\n").count letterK = 1 := by decide
  rw [h.prompt, h.thinks, renderChatPromptText_append hrole, hdropped, renderChatPromptText,
    assistantOpening_enabled] at hcount
  simp only [List.count_append, hturn, hfurther, h1, h2] at hcount
  omega

/-! ## No key matches -/

theorem toolRole_isToolResult : roleIsToolResult (bytes "tool") = true := by decide

/-- Results of the calls, all empty, or an empty user message. -/
def emptyFollowUp (calls : ToolCalls) : List ChatMsg :=
  if calls.v = [] then [emptyUser]
  else calls.v.map fun c => { role := some (bytes "tool"), toolCallId := c.id }

theorem emptyFollowUp_followsUp (calls : ToolCalls) : FollowsUp calls (emptyFollowUp calls) := by
  unfold FollowsUp emptyFollowUp
  split
  · exact ⟨emptyUser, rfl, rfl⟩
  · refine ⟨fun m hm => ?_, fun c hc => ⟨_, List.mem_map.mpr ⟨c, hc, rfl⟩, rfl⟩⟩
    obtain ⟨c, hc, rfl⟩ := List.mem_map.mp hm
    exact ⟨toolRole_isToolResult, c, hc, rfl⟩

/-- The text remembered of a Responses reply is not a prefix of the next prompt for every
way to go on; and with calls, in a conversation with a user query, for none. -/
theorem responsesKey_never (h : ResponsesTurn bos toolSchemas toolOrders msgs r reply calls) :
    (¬ ∀ further, FollowsUp calls further →
      RememberedStarts bos toolSchemas toolOrders msgs r reply calls further) ∧
    (calls.v ≠ [] → msgs.any messageIsPlainUserQuery = true →
      ∀ further, FollowsUp calls further →
      ¬ RememberedStarts bos toolSchemas toolOrders msgs r reply calls further) := by
  have hkept : calls.v ≠ [] → msgs.any messageIsPlainUserQuery = true →
      ∀ further, FollowsUp calls further →
      ¬ RememberedStarts bos toolSchemas toolOrders msgs r reply calls further := by
    intro hcalls hany further hf
    apply not_prefix_of_kept h hcalls
    rw [lastQueryIdx_append, followsUp_noQuery hcalls hf, if_neg (by simp), if_pos hany]
  refine ⟨fun hall => ?_, hkept⟩
  have hmatch := hall (emptyFollowUp calls) (emptyFollowUp_followsUp calls)
  by_cases hcalls : calls.v = []
  · have hfollow : emptyFollowUp calls = [emptyUser] := if_pos hcalls
    rw [hfollow] at hmatch
    refine not_prefix_of_dropped h ?_ (fun q => count_emptyUserTurn _ _ _ q _) hmatch
    have hany : [responsesReply r reply calls, emptyUser].any messageIsPlainUserQuery = true := by
      have : messageIsPlainUserQuery emptyUser = true := by decide
      simp [this]
    have := lastQueryIdx_nonneg (l := [responsesReply r reply calls, emptyUser]) (by simp)
    rw [lastQueryIdx_append, if_pos hany]
    omega
  · by_cases hany : msgs.any messageIsPlainUserQuery = true
    · exact hkept hcalls hany _ (emptyFollowUp_followsUp calls) hmatch
    · refine not_prefix_of_dropped h ?_ (fun q => count_emptyResults (fun m hm => ?_) _ q _) hmatch
      · rw [lastQueryIdx_append, followsUp_noQuery hcalls (emptyFollowUp_followsUp calls),
          if_neg (by simp), if_neg hany, List.length_cons]
        omega
      · rw [emptyFollowUp, if_neg hcalls] at hm
        obtain ⟨c, -, rfl⟩ := List.mem_map.mp hm
        exact ⟨toolRole_isToolResult, rfl⟩

end Turn

/-- The request a question makes in the Responses API. -/
def questionRequest : Request where
  api := .responses
  promptText := renderChatPromptText [] question [] [] .enabled
  thinkMode := .enabled

/-- A plain answer. -/
def plainReply : Reply where
  finish := .stop
  wireFinish := .stop
  content := bytes "Visible answer"
  reasoning := bytes "hidden reasoning"

theorem plainReply_turn :
    ResponsesTurn [] [] [] question questionRequest plainReply {} :=
  ⟨rfl, rfl, rfl, rfl, rfl⟩

/-- A call, and the reply that makes it. -/
def weatherCalls : ToolCalls where
  v := [⟨bytes "call_1", bytes "weather", bytes "\x7b\"city\":\"Rome\"\x7d"⟩]

def callingReply : Reply where
  finish := .toolCalls
  wireFinish := .toolCalls
  reasoning := bytes "hidden reasoning"
  calls := weatherCalls.v
  callsText := appendOfficialToolCallsText weatherCalls []

theorem callingReply_turn :
    ResponsesTurn [] [] [] question questionRequest callingReply weatherCalls :=
  ⟨rfl, rfl, rfl, rfl, rfl⟩

/-- An answer without calls, and a reply with one, whose result comes back. -/
theorem responsesKey_never_weather :
    (¬ ∀ further, FollowsUp {} further →
      RememberedStarts [] [] [] question questionRequest plainReply {} further) ∧
    FollowsUp weatherCalls (emptyFollowUp weatherCalls) ∧
    ¬ RememberedStarts [] [] [] question questionRequest callingReply weatherCalls
      (emptyFollowUp weatherCalls) :=
  ⟨(responsesKey_never plainReply_turn).1, emptyFollowUp_followsUp weatherCalls,
    (responsesKey_never callingReply_turn).2 (by decide) (by decide) _
      (emptyFollowUp_followsUp weatherCalls)⟩

/-- The next prompt drops the think block that the remembered text closes. -/
theorem not_rememberedStarts :
    ¬ ∀ (bos toolSchemas : Bytes) (toolOrders : List ToolSchemaOrder) (msgs : List ChatMsg)
      (r : Request) (reply : Reply) (calls : ToolCalls) (further : List ChatMsg),
      ResponsesTurn bos toolSchemas toolOrders msgs r reply calls → FollowsUp calls further →
      RememberedStarts bos toolSchemas toolOrders msgs r reply calls further := by
  intro h
  have hfollows : FollowsUp {} [emptyUser] := ⟨emptyUser, rfl, rfl⟩
  have := h [] [] [] question questionRequest plainReply {} [emptyUser] plainReply_turn hfollows
  revert this
  unfold RememberedStarts
  decide

end Sf37.Server

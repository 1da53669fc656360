/-
Sf37.Server.ToolResults — what the results of tools can do to the structure of the
prompt they are rendered into.

The escaper breaks the closing tags of a tool result and nothing else. The number of
`</tool_response>` tags is therefore that of the template, while the turn markers of a
result reach the prompt as they stand.

* `countOcc_renderChatPromptText`: the tags of a prompt are those of the prompt with
  empty results and those of the escaped results.
* `toolResults_counts`: two runs that differ in the results.
-/
import Sf37.Server.ChatPrompt
import Sf37.Text.Count
import Mathlib.Algebra.BigOperators.Group.List.Basic
import Mathlib.Algebra.GroupWithZero.Nat

namespace Sf37.Server

open Sf37.Text

/-! ## What the escaper leaves -/

/-- A text without `<` and `&` starts an escaped text when it starts the text. -/
theorem isPrefix_escapeTags {tags : List Bytes} (htags : ∀ t ∈ tags, Guarded 0x3c t) :
    ∀ {w s : Bytes}, 0x3c ∉ w → 0x26 ∉ w → (w <+: escapeTags tags s ↔ w <+: s)
  | [], s, _, _ => by simp
  | x :: w, [], _, _ => by simp [escapeTags]
  | x :: w, c :: s, hlt, hamp => by
      rw [List.mem_cons, not_or] at hlt hamp
      rw [escapeTags]
      split
      · rename_i h
        obtain ⟨t, ht, hst⟩ := List.any_eq_true.mp h
        obtain ⟨r, hr⟩ := startsWith_iff.mp hst
        have hc : c = 0x3c := by
          have := (htags t ht).getElem?_start (s := c :: s) (i := 0)
            (occursAt_zero.mpr ⟨r, hr.symm⟩)
          simpa using this
        have hent : bytes "&lt;" = 0x26 :: bytes "lt;" := rfl
        rw [hent, List.cons_append, List.cons_prefix_cons, List.cons_prefix_cons]
        exact ⟨fun h => absurd h.1.symm hamp.1, fun h => absurd (hc.symm.trans h.1.symm) hlt.1⟩
      · rw [List.singleton_append, List.cons_prefix_cons, List.cons_prefix_cons,
          isPrefix_escapeTags htags hlt.2 hamp.2]

section Escaped

variable {tags : List Bytes} {n : Bytes}

/-- An opening tag of an escaped text is one of the text that was not escaped. -/
theorem isPrefix_cons_escapeTags (htags : ∀ t ∈ tags, Guarded 0x3c t) (g : Guarded 0x3c n)
    (hamp : 0x26 ∉ n) (c : UInt8) (s : Bytes) :
    n <+: c :: escapeTags tags s ↔ n <+: c :: s := by
  cases n with
  | nil => simp
  | cons x w =>
    rw [List.mem_cons, not_or] at hamp
    have hlt : 0x3c ∉ w := g.tail
    rw [List.cons_prefix_cons, List.cons_prefix_cons, isPrefix_escapeTags htags hlt hamp.2]

/-- No escaped tag is left. -/
theorem countOcc_escapeTags_mem (htags : ∀ t ∈ tags, Guarded 0x3c t) (hn : n ∈ tags)
    (hamp : 0x26 ∉ n) : ∀ s : Bytes, countOcc n (escapeTags tags s) = 0
  | [] => rfl
  | c :: s => by
      have ih := countOcc_escapeTags_mem htags hn hamp s
      rw [escapeTags]
      split
      · rw [countOcc_append_of_notMem (htags n hn) _ (by decide), ih]
      · rename_i h
        have hnot : ¬ n <+: c :: s := fun hp => h (List.any_eq_true.mpr
          ⟨n, hn, by simpa [startsWith] using hp⟩)
        rw [List.singleton_append, countOcc, if_neg, ih]
        rwa [isPrefix_cons_escapeTags htags (htags n hn) hamp]

/-- A tag that no escaped tag begins like stays. -/
theorem countOcc_escapeTags (htags : ∀ t ∈ tags, Guarded 0x3c t) (g : Guarded 0x3c n)
    (hamp : 0x26 ∉ n) (hother : ∀ t ∈ tags, ¬ n <+: t ∧ ¬ t <+: n) :
    ∀ s : Bytes, countOcc n (escapeTags tags s) = countOcc n s
  | [] => rfl
  | c :: s => by
      have ih := countOcc_escapeTags htags g hamp hother s
      rw [escapeTags]
      split
      · rename_i h
        obtain ⟨t, ht, hst⟩ := List.any_eq_true.mp h
        have hnot : ¬ n <+: c :: s := fun hp =>
          (List.prefix_or_prefix_of_prefix hp (by simpa [startsWith] using hst)).elim
            (hother t ht).1 (hother t ht).2
        rw [countOcc_append_of_notMem g _ (by decide), ih, countOcc, if_neg hnot, Nat.zero_add]
      · simp only [List.singleton_append, countOcc, ih,
          isPrefix_cons_escapeTags htags g hamp]

end Escaped

/-! ## The template around the results -/

/-- The message is a tool result. -/
def ChatMsg.isToolResult (m : ChatMsg) : Bool := roleIsToolResult m.roleOrUser

/-- The message, without its content if it is a tool result. -/
def ChatMsg.withoutResult (m : ChatMsg) : ChatMsg :=
  if m.isToolResult then { m with content := [] } else m

/-- The two conversations differ in the contents of tool results only. -/
def SameButResults (msgs msgs' : List ChatMsg) : Prop :=
  msgs.map ChatMsg.withoutResult = msgs'.map ChatMsg.withoutResult

/-- How often `n` stands in what the results of a conversation are written as by `f`. -/
def countInResults (n : Bytes) (f : Bytes → Bytes) (msgs : List ChatMsg) : Nat :=
  (msgs.map fun m => if m.isToolResult then countOcc n (f m.content) else 0).sum

@[simp] theorem withoutResult_role (m : ChatMsg) : m.withoutResult.role = m.role := by
  unfold ChatMsg.withoutResult
  split <;> rfl

theorem withoutResult_of_not {m : ChatMsg} (h : m.isToolResult = false) :
    m.withoutResult = m := by
  simp [ChatMsg.withoutResult, h]

theorem isToolResult_of_role {m : ChatMsg} {r : Bytes} (h : m.role = some r) :
    m.isToolResult = roleIsToolResult r := by
  simp [ChatMsg.isToolResult, ChatMsg.roleOrUser, h]

theorem plainUserQuery_withoutResult (m : ChatMsg) :
    messageIsPlainUserQuery m.withoutResult = messageIsPlainUserQuery m := by
  by_cases h : m.role = some (bytes "user")
  · rw [withoutResult_of_not]
    rw [isToolResult_of_role h]
    decide
  · have h' : (m.role == some (bytes "user")) = false := beq_eq_false_iff_ne.mpr h
    unfold messageIsPlainUserQuery
    rw [withoutResult_role, h', Bool.false_and, Bool.false_and]

theorem lastQueryIdx_withoutResult (msgs : List ChatMsg) :
    lastQueryIdx (msgs.map ChatMsg.withoutResult) = lastQueryIdx msgs := by
  have hcomp : messageIsPlainUserQuery ∘ ChatMsg.withoutResult = messageIsPlainUserQuery :=
    funext plainUserQuery_withoutResult
  simp only [lastQueryIdx, ← List.map_reverse, List.findIdx?_map, hcomp, List.length_map]

theorem roleAt_withoutResult (msgs : List ChatMsg) (i : Nat) :
    roleAt (msgs.map ChatMsg.withoutResult) i = roleAt msgs i := by
  unfold roleAt
  rw [List.getElem?_map]
  cases msgs[i]? <;> simp

theorem firstIsSystem_withoutResult (msgs : List ChatMsg) :
    firstIsSystem (msgs.map ChatMsg.withoutResult) = firstIsSystem msgs := by
  cases msgs <;> simp [firstIsSystem]

theorem systemTurn_withoutResult (msgs : List ChatMsg) (toolSchemas : Bytes) :
    systemTurn (msgs.map ChatMsg.withoutResult) toolSchemas = systemTurn msgs toolSchemas := by
  have htext : systemText (msgs.map ChatMsg.withoutResult) toolSchemas =
      systemText msgs toolSchemas := by
    unfold systemText
    rw [firstIsSystem_withoutResult]
    cases msgs with
    | nil => rfl
    | cons m msgs =>
      by_cases h : roleIsSystem m.role
      · have hm : m.withoutResult = m := by
          apply withoutResult_of_not
          rcases (by simpa [roleIsSystem] using h :
            m.role = some (bytes "system") ∨ m.role = some (bytes "developer")) with h | h <;>
          · rw [isToolResult_of_role h]
            decide
        simp [hm]
      · simp [firstIsSystem, h]
  unfold systemTurn
  rw [htext]

/-- Every turn opens with a marker. -/
theorem messageTurn_opens (msgs : List ChatMsg) (toolOrders : List ToolSchemaOrder)
    (thinkMode : ThinkMode) (lastQuery : Int) (m : ChatMsg) (i : Nat) :
    Opens 0x3c (messageTurn msgs toolOrders thinkMode lastQuery m i) := by
  have hstart : ∀ {s : Bytes}, s.head? = some 0x3c → ∀ r : Bytes, Opens 0x3c (s ++ r) := by
    intro s h r
    cases s with
    | nil => simp at h
    | cons c s => simpa using h
  by_cases h0 : i = 0 ∧ firstIsSystem msgs = true
  · simp [messageTurn, h0]
  by_cases ht : roleIsToolResult m.roleOrUser = true
  · simp only [messageTurn, if_neg h0, if_pos ht, toolTurn, List.append_assoc]
    refine Opens.append ?_ (hstart (by decide) _)
    cases roleIsToolResult (if 0 < i then roleAt msgs (i - 1) else []) with
    | true => exact opens_nil _
    | false => unfold Opens; decide +kernel
  by_cases ha : m.roleOrUser = bytes "assistant"
  · simp only [messageTurn, if_neg h0, if_neg ht, if_pos ha, assistantTurn, List.append_assoc]
    exact hstart (by decide) _
  · simp only [messageTurn, if_neg h0, if_neg ht, if_neg ha, plainTurn, List.append_assoc]
    exact hstart (by decide) _

/-! ## Counting tags in a prompt -/

section Counts

variable {n : Bytes} (g : Tag 0x3c 0x3e n)

include g

/-- A tool's turn holds the tags of the empty one and those of the result. -/
theorem countOcc_toolTurn (prevRole nextRole : Bytes) (m : ChatMsg) :
    countOcc n (toolTurn prevRole nextRole m) =
      countOcc n (toolTurn prevRole nextRole { m with content := [] }) +
        countOcc n (appendToolResultText m.content) := by
  have hclosed : ∀ o : Bytes, Closes 0x3e (o ++ toolResponseStart) := fun o =>
    Closes.append_left (by decide) (by unfold Closes; decide +kernel) o
  have hopened : ∀ r : Bytes, Opens 0x3c (toolResponseEnd ++ r) := fun r => by
    have : toolResponseEnd = 0x3c :: bytes "/tool_response>" := rfl
    simp [this]
  have hsplit : ∀ c : Bytes, countOcc n (toolTurn prevRole nextRole { m with content := c }) =
      countOcc n ((if roleIsToolResult prevRole then [] else
        bytes "<|im_start|>tool_response\n") ++ toolResponseStart) +
      (countOcc n (appendToolResultText c) +
        countOcc n (toolResponseEnd ++
          if roleIsToolResult nextRole then [] else bytes "<|im_end|>\n")) := by
    intro c
    unfold toolTurn
    rw [List.append_assoc, List.append_assoc, countOcc_append_closed g (hclosed _),
      countOcc_append_opened g.toGuarded (hopened _)]
  have hempty : countOcc n (appendToolResultText []) = 0 := rfl
  have h1 := hsplit m.content
  have h2 := hsplit []
  rw [hempty] at h2
  rw [show (⟨m.role, m.name, m.content, m.reasoning, m.toolCallId, m.toolCallIds, m.calls⟩ :
    ChatMsg) = m from rfl] at h1
  omega

theorem countOcc_messageTurn (msgs : List ChatMsg) (toolOrders : List ToolSchemaOrder)
    (thinkMode : ThinkMode) (lastQuery : Int) (m : ChatMsg) (i : Nat)
    (hfirst : i = 0 → firstIsSystem msgs = true → m.isToolResult = false) :
    countOcc n (messageTurn msgs toolOrders thinkMode lastQuery m i) =
      countOcc n (messageTurn (msgs.map ChatMsg.withoutResult) toolOrders thinkMode lastQuery
        m.withoutResult i) +
      if m.isToolResult then countOcc n (appendToolResultText m.content) else 0 := by
  have hrole : m.withoutResult.roleOrUser = m.roleOrUser := by
    simp [ChatMsg.roleOrUser]
  unfold messageTurn
  simp only [firstIsSystem_withoutResult, roleAt_withoutResult, hrole]
  by_cases h0 : i = 0 ∧ firstIsSystem msgs = true
  · simp [h0, hfirst h0.1 h0.2]
  · by_cases ht : m.isToolResult = true
    · have hr : roleIsToolResult m.roleOrUser = true := ht
      have hw : m.withoutResult = { m with content := [] } := by
        simp [ChatMsg.withoutResult, ht]
      rw [if_neg h0, if_neg h0, if_pos hr, if_pos hr, if_pos ht, hw]
      exact countOcc_toolTurn g _ _ m
    · have ht' : m.isToolResult = false := by simpa using ht
      have hr : ¬ roleIsToolResult m.roleOrUser = true := ht
      rw [withoutResult_of_not ht', if_neg hr, if_neg ht, Nat.add_zero]

/-- The tags of a prompt are those of the prompt with empty results, and those of the
results as they are written. -/
theorem countOcc_renderChatPromptText (bos : Bytes) (msgs : List ChatMsg) (toolSchemas : Bytes)
    (toolOrders : List ToolSchemaOrder) (thinkMode : ThinkMode) :
    countOcc n (renderChatPromptText bos msgs toolSchemas toolOrders thinkMode) =
      countOcc n (renderChatPromptText bos (msgs.map ChatMsg.withoutResult) toolSchemas toolOrders
        thinkMode) + countInResults n appendToolResultText msgs := by
  have hopening : Opens 0x3c (assistantOpening thinkMode) := by
    unfold assistantOpening Opens
    split <;> decide +kernel
  have hloop : ∀ (ms : List ChatMsg) (q : Int) (l : List (ChatMsg × Nat)),
      countOcc n (bos ++ systemTurn ms toolSchemas ++
        messageTurns ms toolOrders thinkMode q l ++ assistantOpening thinkMode) =
      countOcc n (bos ++ systemTurn ms toolSchemas) +
        (l.map fun p => countOcc n (messageTurn ms toolOrders thinkMode q p.1 p.2)).sum +
        countOcc n (assistantOpening thinkMode) := by
    intro ms q l
    have hopens : ∀ p ∈ l, Opens 0x3c (messageTurn ms toolOrders thinkMode q p.1 p.2) :=
      fun p _ => messageTurn_opens ms toolOrders thinkMode q p.1 p.2
    rw [countOcc_append_opened g.toGuarded hopening, messageTurns,
      countOcc_append_opened g.toGuarded (Opens.flatMap hopens),
      countOcc_flatMap g.toGuarded hopens]
  have hfirst : ∀ p ∈ msgs.zipIdx, p.2 = 0 → firstIsSystem msgs = true →
      p.1.isToolResult = false := by
    rintro ⟨m, i⟩ hp h0 hs
    cases msgs with
    | nil => simp at hp
    | cons m' msgs =>
      obtain rfl : m = m' := by
        have := List.mem_zipIdx_iff_getElem?.mp hp
        simp only [show i = 0 from h0] at this
        simpa using this.symm
      rcases (by simpa [firstIsSystem, roleIsSystem] using hs :
        m.role = some (bytes "system") ∨ m.role = some (bytes "developer")) with h | h <;>
      · rw [isToolResult_of_role h]
        decide
  have hsum : (msgs.zipIdx.map fun p => countOcc n (messageTurn msgs toolOrders thinkMode
      (lastQueryIdx msgs) p.1 p.2)).sum =
      (msgs.zipIdx.map fun p => countOcc n (messageTurn (msgs.map ChatMsg.withoutResult) toolOrders
        thinkMode (lastQueryIdx msgs) p.1.withoutResult p.2)).sum +
      countInResults n appendToolResultText msgs := by
    have hfst : countInResults n appendToolResultText msgs = (msgs.zipIdx.map fun p =>
        if p.1.isToolResult then countOcc n (appendToolResultText p.1.content) else 0).sum := by
      conv_lhs => rw [countInResults, ← List.zipIdx_map_fst 0 msgs, List.map_map]
      rfl
    rw [hfst, ← List.sum_map_add]
    exact congrArg List.sum (List.map_congr_left fun p hp =>
      countOcc_messageTurn g msgs toolOrders thinkMode _ p.1 p.2 (hfirst p hp))
  unfold renderChatPromptText
  rw [hloop, hloop, lastQueryIdx_withoutResult, systemTurn_withoutResult, List.zipIdx_map,
    List.map_map, hsum]
  simp only [Function.comp_def, Prod.map_fst, Prod.map_snd, id_eq]
  omega

end Counts

/-! ## Two conversations with other results -/

theorem toolResult_tags_guarded :
    ∀ t ∈ [toolResponseEnd, bytes "</tool_result>"], Guarded 0x3c t := by
  decide

theorem countInResults_congr {n : Bytes} {f g : Bytes → Bytes}
    (h : ∀ c, countOcc n (f c) = countOcc n (g c)) (msgs : List ChatMsg) :
    countInResults n f msgs = countInResults n g msgs := by
  unfold countInResults
  simp only [h]

/-- Between two conversations that differ in tool results only, the number of
`</tool_response>` tags is the same, and the numbers of turn markers differ by those
that stand in the results. -/
theorem toolResults_counts (bos : Bytes) (msgs msgs' : List ChatMsg) (toolSchemas : Bytes)
    (toolOrders : List ToolSchemaOrder) (thinkMode : ThinkMode) (h : SameButResults msgs msgs') :
    countOcc toolResponseEnd (renderChatPromptText bos msgs toolSchemas toolOrders thinkMode) =
      countOcc toolResponseEnd (renderChatPromptText bos msgs' toolSchemas toolOrders thinkMode) ∧
    ∀ marker ∈ [imStart, imEnd],
      countOcc marker (renderChatPromptText bos msgs toolSchemas toolOrders thinkMode) +
          countInResults marker id msgs' =
        countOcc marker (renderChatPromptText bos msgs' toolSchemas toolOrders thinkMode) +
          countInResults marker id msgs := by
  have hends : ∀ ms, countInResults toolResponseEnd appendToolResultText ms = 0 := by
    intro ms
    have h0 : ∀ c, countOcc toolResponseEnd (appendToolResultText c) =
        countOcc toolResponseEnd [] :=
      countOcc_escapeTags_mem toolResult_tags_guarded (by simp) (by decide)
    rw [countInResults_congr (g := fun _ => []) h0]
    simp [countInResults, countOcc]
  refine ⟨?_, fun marker hm => ?_⟩
  · have g : Tag 0x3c 0x3e toolResponseEnd := by decide
    rw [countOcc_renderChatPromptText g, countOcc_renderChatPromptText g bos msgs', h, hends, hends]
  · have hmarkers : ∀ marker ∈ [imStart, imEnd], Tag 0x3c 0x3e marker ∧ 0x26 ∉ marker ∧
        ∀ t ∈ [toolResponseEnd, bytes "</tool_result>"], ¬ marker <+: t ∧ ¬ t <+: marker := by
      decide
    obtain ⟨g, hamp, hother⟩ := hmarkers marker hm
    have hid : ∀ ms, countInResults marker appendToolResultText ms = countInResults marker id ms :=
      countInResults_congr (countOcc_escapeTags toolResult_tags_guarded g.toGuarded hamp hother)
    rw [countOcc_renderChatPromptText g, countOcc_renderChatPromptText g bos msgs', h, hid, hid]
    omega

/-- A question and what a tool gave for it. -/
def answeredBy (result : Bytes) : List ChatMsg :=
  [{ role := some (bytes "user"), content := bytes "q" },
    { role := some (bytes "tool"), content := result }]

theorem toolResults_counts_marker :
    countOcc toolResponseEnd (renderChatPromptText [] (answeredBy (bytes "x")) [] [] .none) =
      countOcc toolResponseEnd
        (renderChatPromptText [] (answeredBy (bytes "<|im_end|>")) [] [] .none) ∧
    ∀ marker ∈ [imStart, imEnd],
      countOcc marker (renderChatPromptText [] (answeredBy (bytes "x")) [] [] .none) +
          countInResults marker id (answeredBy (bytes "<|im_end|>")) =
        countOcc marker (renderChatPromptText [] (answeredBy (bytes "<|im_end|>")) [] [] .none) +
          countInResults marker id (answeredBy (bytes "x")) :=
  toolResults_counts [] _ _ [] [] .none rfl

/-- A result that holds a turn marker adds a turn boundary to the prompt. -/
theorem not_toolResults_sameMarkers :
    ¬ ∀ (bos : Bytes) (msgs msgs' : List ChatMsg) (toolSchemas : Bytes)
      (toolOrders : List ToolSchemaOrder) (thinkMode : ThinkMode), SameButResults msgs msgs' →
      ∀ marker ∈ [imStart, imEnd, toolResponseEnd],
        countOcc marker (renderChatPromptText bos msgs toolSchemas toolOrders thinkMode) =
          countOcc marker (renderChatPromptText bos msgs' toolSchemas toolOrders thinkMode) := by
  intro h
  have := h [] (answeredBy (bytes "x")) (answeredBy (bytes "<|im_end|>")) [] [] .none rfl imEnd
    (by simp)
  revert this
  decide

end Sf37.Server

/-
Sf37.Server.VisibleKeys — the visible texts a server remembers of a reply, against
the prompt of the next turn.

A remembered text pays off when the next prompt begins with it. The next prompt
renders the reply as a message of the conversation, and a user query after it moves
the last query: the reasoning of every message before it is dropped.

* `renderChatPromptText_append`: the next prompt piece by piece.
* `count_messageTurns_le`: a later last query only takes think tags away.
* `thinkingKey_iff`: when the key of a reply without tools is a prefix of the next
  prompt.
* `responsesKey_never`: the key of a Responses reply never is.
-/
import Sf37.Server.ChatPrompt
import Sf37.Server.RunGeneration

namespace Sf37.Server

open Sf37.Text

/-! ## A conversation that goes on -/

/-- The last query of a longer conversation. -/
theorem lastQueryIdx_append (msgs more : List ChatMsg) :
    lastQueryIdx (msgs ++ more) =
      if more.any messageIsPlainUserQuery then msgs.length + lastQueryIdx more
      else if msgs.any messageIsPlainUserQuery then lastQueryIdx msgs
      else msgs.length + more.length - 1 := by
  have hany : ∀ l : List ChatMsg, l.any messageIsPlainUserQuery = false →
      l.reverse.findIdx? messageIsPlainUserQuery = none := by
    intro l h
    rw [List.findIdx?_eq_none_iff]
    simpa using h
  have hsome : ∀ l : List ChatMsg, l.any messageIsPlainUserQuery = true →
      ∃ k, l.reverse.findIdx? messageIsPlainUserQuery = some k := by
    intro l h
    rw [← Option.isSome_iff_exists, List.findIdx?_isSome]
    simpa using h
  unfold lastQueryIdx
  rw [List.reverse_append, List.findIdx?_append, List.length_append]
  by_cases hb : more.any messageIsPlainUserQuery = true
  · obtain ⟨k, hk⟩ := hsome more hb
    rw [if_pos hb, hk, Option.some_or]
    push_cast
    omega
  · rw [if_neg hb, hany more (by simpa using hb), Option.none_or]
    by_cases ha : msgs.any messageIsPlainUserQuery = true
    · obtain ⟨k, hk⟩ := hsome msgs ha
      rw [if_pos ha, hk, Option.map_some, List.length_reverse]
      push_cast
      omega
    · rw [if_neg ha, hany msgs (by simpa using ha), Option.map_none]
      push_cast
      rfl

theorem lastQueryIdx_lt (msgs : List ChatMsg) : lastQueryIdx msgs < msgs.length := by
  unfold lastQueryIdx
  split <;> omega

theorem lastQueryIdx_le_append (msgs more : List ChatMsg) :
    lastQueryIdx msgs ≤ lastQueryIdx (msgs ++ more) := by
  have hlt := lastQueryIdx_lt msgs
  rw [lastQueryIdx_append]
  split
  · have : -1 ≤ lastQueryIdx more := by
      unfold lastQueryIdx
      split
      · rename_i k hk
        have hk' := (List.findIdx?_eq_some_iff_getElem.mp hk).1
        rw [List.length_reverse] at hk'
        omega
      · omega
    omega
  · split
    · exact Int.le_refl _
    · omega

section Append

variable {msgs further : List ChatMsg} {reply : ChatMsg}

theorem roleAt_append {i : Nat} (hi : i < msgs.length) (more : List ChatMsg) :
    roleAt (msgs ++ more) i = roleAt msgs i := by
  unfold roleAt
  rw [List.getElem?_append_left hi]

/-- What follows the conversation does not join a tool's turn. -/
theorem roleAt_append_next (hreply : reply.role = some (bytes "assistant")) {i : Nat}
    (hi : i < msgs.length) :
    roleIsToolResult (roleAt (msgs ++ reply :: further) (i + 1)) =
      roleIsToolResult (roleAt msgs (i + 1)) := by
  rcases Nat.lt_or_ge (i + 1) msgs.length with h | h
  · rw [roleAt_append h]
  · have hnone : msgs[i + 1]? = none := List.getElem?_eq_none h
    have hreplyAt : (msgs ++ reply :: further)[i + 1]? = some reply := by
      rw [List.getElem?_append_right h, show i + 1 - msgs.length = 0 by omega]
      rfl
    unfold roleAt
    rw [hnone, hreplyAt, Option.bind_some, hreply]
    decide

theorem firstIsSystem_append (hreply : reply.role = some (bytes "assistant")) :
    firstIsSystem (msgs ++ reply :: further) = firstIsSystem msgs := by
  cases msgs with
  | nil => simp [firstIsSystem, roleIsSystem, hreply]; decide
  | cons m msgs => rfl

theorem systemTurn_append (hreply : reply.role = some (bytes "assistant")) (toolSchemas : Bytes) :
    systemTurn (msgs ++ reply :: further) toolSchemas = systemTurn msgs toolSchemas := by
  have htext : systemText (msgs ++ reply :: further) toolSchemas =
      systemText msgs toolSchemas := by
    unfold systemText
    rw [firstIsSystem_append hreply]
    cases msgs with
    | nil => rfl
    | cons m msgs => rfl
  unfold systemTurn
  rw [htext]

/-- A turn of the conversation stays, when its reasoning is kept or dropped as before. -/
theorem messageTurn_append (hreply : reply.role = some (bytes "assistant"))
    (toolOrders : List ToolSchemaOrder) (thinkMode : ThinkMode) {q q' : Int} {m : ChatMsg} {i : Nat}
    (hi : i < msgs.length)
    (hthink : m.roleOrUser = bytes "assistant" → thinkMode = .enabled → (q' < i ↔ q < i)) :
    messageTurn (msgs ++ reply :: further) toolOrders thinkMode q' m i =
      messageTurn msgs toolOrders thinkMode q m i := by
  have hprev : (if 0 < i then roleAt (msgs ++ reply :: further) (i - 1) else []) =
      if 0 < i then roleAt msgs (i - 1) else [] := by
    split
    · exact roleAt_append (by omega) _
    · rfl
  unfold messageTurn toolTurn
  simp only [firstIsSystem_append hreply, hprev, roleAt_append_next hreply hi]
  by_cases ha : m.roleOrUser = bytes "assistant"
  · have hflag : (thinkMode = .enabled ∧ q' < i) ↔ (thinkMode = .enabled ∧ q < i) :=
      and_congr_right (hthink ha)
    simp only [ha, hflag]
  · simp only [if_neg ha]

/-- The prompt of the next turn: the conversation with what it drops, the reply, what
follows it, and the opening. -/
theorem renderChatPromptText_append (hreply : reply.role = some (bytes "assistant"))
    (bos toolSchemas : Bytes) (toolOrders : List ToolSchemaOrder) (thinkMode : ThinkMode) :
    renderChatPromptText bos (msgs ++ reply :: further) toolSchemas toolOrders thinkMode =
      bos ++ systemTurn msgs toolSchemas ++
        messageTurns (msgs ++ reply :: further) toolOrders thinkMode
          (lastQueryIdx (msgs ++ reply :: further)) msgs.zipIdx ++
        assistantTurn toolOrders (thinkMode = .enabled ∧
          lastQueryIdx (msgs ++ reply :: further) < msgs.length) reply ++
        messageTurns (msgs ++ reply :: further) toolOrders thinkMode
          (lastQueryIdx (msgs ++ reply :: further)) (further.zipIdx (msgs.length + 1)) ++
        assistantOpening thinkMode := by
  have hturn : messageTurn (msgs ++ reply :: further) toolOrders thinkMode
      (lastQueryIdx (msgs ++ reply :: further)) reply msgs.length =
      assistantTurn toolOrders (thinkMode = .enabled ∧
        lastQueryIdx (msgs ++ reply :: further) < msgs.length) reply := by
    have hfirst : ¬ (msgs.length = 0 ∧ firstIsSystem msgs = true) := by
      rintro ⟨h0, h1⟩
      rw [List.length_eq_zero_iff.mp h0] at h1
      exact absurd h1 (by decide)
    have ha : reply.roleOrUser = bytes "assistant" := by
      simp [ChatMsg.roleOrUser, hreply]
    have ht : roleIsToolResult (bytes "assistant") = false := by decide
    simp only [messageTurn, firstIsSystem_append hreply, if_neg hfirst, ha, ht,
      Bool.false_eq_true, if_false, if_true]
  conv_lhs => unfold renderChatPromptText
  rw [systemTurn_append hreply, List.zipIdx_append]
  simp only [messageTurns, List.zipIdx_cons, List.flatMap_append, List.flatMap_cons, hturn,
    Nat.zero_add, List.append_assoc]

end Append

/-! ## Counting the letter of the think tags -/

/-- The letter `k`, which no marker and no role of the template holds. -/
def letterK : UInt8 := 0x6b

section Counting

variable {msgs further : List ChatMsg} {reply : ChatMsg}

/-- The reasoning of a turn is dropped when the last query moves past it. -/
theorem count_messageTurn_le (hreply : reply.role = some (bytes "assistant"))
    (toolOrders : List ToolSchemaOrder) (thinkMode : ThinkMode) {q q' : Int} (hq : q ≤ q')
    {m : ChatMsg} {i : Nat} (hi : i < msgs.length) :
    (messageTurn (msgs ++ reply :: further) toolOrders thinkMode q' m i).count letterK ≤
      (messageTurn msgs toolOrders thinkMode q m i).count letterK := by
  by_cases hd : m.roleOrUser = bytes "assistant" ∧ thinkMode = .enabled ∧ ¬ (q' < i ↔ q < i)
  · obtain ⟨ha, ht, hlt⟩ := hd
    have hlt' : q < i ∧ ¬ q' < i := by
      constructor
      · exact Decidable.byContradiction fun h =>
          hlt ⟨fun h' => by omega, fun h' => absurd h' h⟩
      · exact fun h => hlt ⟨fun _ => by omega, fun _ => h⟩
    have htool : roleIsToolResult (bytes "assistant") = false := by decide
    simp only [messageTurn, firstIsSystem_append hreply, ha, htool, Bool.false_eq_true, if_false,
      if_true]
    split
    · exact Nat.le_refl _
    · simp only [assistantTurn, ht, hlt'.1, hlt'.2, and_self, and_false, decide_true, decide_false,
        Bool.false_eq_true, if_false, if_true, List.count_append, List.count_nil]
      omega
  · rw [messageTurn_append hreply toolOrders thinkMode hi]
    intro ha ht
    exact Decidable.byContradiction fun h => hd ⟨ha, ht, h⟩

/-- The two think tags of a turn whose reasoning is dropped. -/
theorem count_messageTurn_dropped (hreply : reply.role = some (bytes "assistant"))
    (toolOrders : List ToolSchemaOrder) {q q' : Int} {m : ChatMsg} {i : Nat}
    (hi : i < msgs.length) (hm : msgs[i]? = some m) (ha : m.roleOrUser = bytes "assistant")
    (hq : q < i) (hq' : ¬ q' < i) :
    (messageTurn (msgs ++ reply :: further) toolOrders .enabled q' m i).count letterK + 2 ≤
      (messageTurn msgs toolOrders .enabled q m i).count letterK := by
  have htool : roleIsToolResult (bytes "assistant") = false := by decide
  have hfirst : ¬ (i = 0 ∧ firstIsSystem msgs = true) := by
    rintro ⟨rfl, h⟩
    have hhead : msgs.head? = some m := by rw [List.head?_eq_getElem?, hm]
    rw [firstIsSystem, hhead, Option.map_some, Option.getD_some] at h
    rcases (by simpa [roleIsSystem] using h :
      m.role = some (bytes "system") ∨ m.role = some (bytes "developer")) with hr | hr <;>
    · rw [ChatMsg.roleOrUser, hr] at ha
      exact absurd ha (by decide)
  have h1 : (bytes "<think>\n").count letterK = 1 := by decide
  have h2 : (bytes "\n</think>\n").count letterK = 1 := by decide
  simp only [messageTurn, firstIsSystem_append hreply, ha, htool, Bool.false_eq_true, if_false,
    if_true, if_neg hfirst, assistantTurn, hq, hq', and_self, and_false, decide_true,
    decide_false, List.count_append, List.count_nil, h1, h2]
  omega

/-- A count over pieces is monotone, and what one piece loses the whole loses. -/
theorem count_flatMap_add_le {α : Type} {a : UInt8} {f g : α → Bytes} {k : Nat} :
    ∀ {l : List α}, (∀ x ∈ l, (f x).count a ≤ (g x).count a) →
      (k = 0 ∨ ∃ x ∈ l, (f x).count a + k ≤ (g x).count a) →
      (l.flatMap f).count a + k ≤ (l.flatMap g).count a
  | [], _, hk => by
      rcases hk with rfl | ⟨x, hx, -⟩
      · exact Nat.le_refl _
      · exact absurd hx (by simp)
  | x :: l, h, hk => by
      simp only [List.flatMap_cons, List.count_append]
      have hx := h x (by simp)
      have hl : ∀ y ∈ l, (f y).count a ≤ (g y).count a := fun y hy => h y (by simp [hy])
      rcases hk with rfl | ⟨y, hy, hle⟩
      · have := count_flatMap_add_le (k := 0) hl (Or.inl rfl)
        omega
      · rcases List.mem_cons.mp hy with rfl | hy
        · have := count_flatMap_add_le (k := 0) hl (Or.inl rfl)
          omega
        · have := count_flatMap_add_le hl (Or.inr ⟨y, hy, hle⟩)
          omega

/-- A user message with nothing in it. -/
def emptyUser : ChatMsg where
  role := some (bytes "user")

theorem count_emptyUserTurn (ms : List ChatMsg) (toolOrders : List ToolSchemaOrder)
    (thinkMode : ThinkMode) (q : Int) (n : Nat) :
    (messageTurns ms toolOrders thinkMode q ([emptyUser].zipIdx (n + 1))).count letterK = 0 := by
  have hturn : plainTurn emptyUser (n + 1) = bytes "<|im_start|>user\n<|im_end|>\n" := by
    have hname : templateRoleName emptyUser (n + 1) = bytes "user" := by
      have h1 : bytes "user" ≠ bytes "developer" := by decide
      have h2 : bytes "user" ≠ bytes "system" := by decide
      have h3 : bytes "user" ≠ [] := by decide
      simp [templateRoleName, ChatMsg.roleOrUser, emptyUser, h1, h2, h3]
    unfold plainTurn
    rw [hname]
    decide
  have htool : roleIsToolResult (bytes "user") = false := by decide
  have hass : bytes "user" ≠ bytes "assistant" := by decide
  have hfirst : ¬ (n + 1 = 0 ∧ firstIsSystem ms = true) := by
    rintro ⟨h0, -⟩
    omega
  have hrole : emptyUser.roleOrUser = bytes "user" := rfl
  simp only [messageTurns, List.zipIdx_cons, List.zipIdx_nil, List.flatMap_cons,
    List.flatMap_nil, List.append_nil, messageTurn, if_neg hfirst, hrole, htool,
    Bool.false_eq_true, if_false, if_neg hass, hturn]
  decide

theorem mem_zipIdx {p : ChatMsg × Nat} (h : p ∈ msgs.zipIdx) :
    p.2 < msgs.length ∧ msgs[p.2]? = some p.1 := by
  have hget := List.mem_zipIdx_iff_getElem?.mp h
  exact ⟨(List.getElem?_eq_some_iff.mp hget).1, hget⟩

/-- A later last query only takes think tags away. -/
theorem count_messageTurns_le (msgs further : List ChatMsg)
    (hreply : reply.role = some (bytes "assistant")) (toolOrders : List ToolSchemaOrder)
    (thinkMode : ThinkMode) {q q' : Int} (hq : q ≤ q') :
    (messageTurns (msgs ++ reply :: further) toolOrders thinkMode q' msgs.zipIdx).count letterK ≤
      (messageTurns msgs toolOrders thinkMode q msgs.zipIdx).count letterK :=
  count_flatMap_add_le (k := 0)
    (fun _ hp => count_messageTurn_le hreply toolOrders thinkMode hq (mem_zipIdx hp).1) (Or.inl rfl)

end Counting

/-! ## The key of a thinking reply -/

/-- An assistant message stands after the last query, so the prompt shows its
reasoning. -/
def AssistantAfterQuery (msgs : List ChatMsg) : Prop :=
  ∃ (i : Nat) (m : ChatMsg), msgs[i]? = some m ∧ m.roleOrUser = bytes "assistant" ∧
    lastQueryIdx msgs < i

/-- The request was made from these messages, and `remember_thinking_checkpoint` stores a
key for its reply. -/
structure StoresThinkingKey (bos : Bytes) (toolOrders : List ToolSchemaOrder)
    (msgs : List ChatMsg) (r : Request) : Prop where
  prompt : r.promptText = renderChatPromptText bos msgs [] toolOrders r.thinkMode
  preserves : r.promptPreservesReasoning = renderedPromptPreservesReasoning msgs r.thinkMode
  thinks : r.thinkMode = .enabled
  noTools : r.hasTools = false
  notPreserved : r.promptPreservesReasoning = false

/-- The reply as a message of the next request, whatever reasoning is sent along. -/
def thinkingReply (content reasoning : Bytes) : ChatMsg where
  role := some (bytes "assistant")
  content := content
  reasoning := reasoning

/-- The key of the reply is a prefix of the next prompt, for every plain user message. -/
def ThinkingKeyMatches (bos : Bytes) (toolOrders : List ToolSchemaOrder) (msgs : List ChatMsg)
    (r : Request) (content : Bytes) : Prop :=
  ∀ visible, buildToollessThinkingVisibleText r content = some visible →
    ∀ (reasoning : Bytes) (user : ChatMsg), messageIsPlainUserQuery user = true →
      visible <+: renderChatPromptText bos (msgs ++ [thinkingReply content reasoning, user]) []
        toolOrders .enabled

theorem assistantOpening_enabled :
    assistantOpening .enabled = bytes "<|im_start|>assistant\n" ++ bytes "<think>\n" := by
  decide

theorem buildToollessThinkingVisibleText_of_prompt {r : Request} {before : Bytes}
    (hthink : r.thinkMode = .enabled) (h : r.promptText = before ++ bytes "<think>\n")
    (content : Bytes) :
    buildToollessThinkingVisibleText r content = some (before ++ content) := by
  have hlen : (bytes "<think>\n").length = 8 := by decide
  unfold buildToollessThinkingVisibleText
  rw [if_pos ⟨hthink, h ▸ List.suffix_append _ _⟩, h, List.length_append, hlen,
    Nat.add_sub_cancel, List.take_left]

/-- The key of a thinking reply matches the next prompt exactly when no assistant message
stands after the last query. -/
theorem thinkingKey_iff {bos : Bytes} {toolOrders : List ToolSchemaOrder} {msgs : List ChatMsg}
    {r : Request} (h : StoresThinkingKey bos toolOrders msgs r) (content : Bytes) :
    ThinkingKeyMatches bos toolOrders msgs r content ↔ ¬ AssistantAfterQuery msgs := by
  have hprompt := h.prompt
  rw [h.thinks, renderChatPromptText, assistantOpening_enabled, ← List.append_assoc] at hprompt
  have hvisible := buildToollessThinkingVisibleText_of_prompt h.thinks hprompt content
  have hrole : ∀ reasoning, (thinkingReply content reasoning).role = some (bytes "assistant") :=
    fun _ => rfl
  have hlast : ∀ (reasoning : Bytes) (user : ChatMsg), messageIsPlainUserQuery user = true →
      lastQueryIdx (msgs ++ [thinkingReply content reasoning, user]) = msgs.length + 1 := by
    intro reasoning user huser
    have hany : [thinkingReply content reasoning, user].any messageIsPlainUserQuery = true := by
      simp [huser]
    have htwo : lastQueryIdx [thinkingReply content reasoning, user] = 1 := by
      simp [lastQueryIdx, List.findIdx?_cons, huser]
    rw [lastQueryIdx_append, if_pos hany, htwo]
  have hflag : ∀ q : Int, q = msgs.length + 1 →
      decide (ThinkMode.enabled = .enabled ∧ q < msgs.length) = false := by
    intro q hq
    simp only [true_and, decide_eq_false_iff_not]
    omega
  constructor
  · rintro hmatch ⟨i, m, hm, ha, hi⟩
    -- an empty user message adds one think tag, the prompt's own
    have huser : messageIsPlainUserQuery emptyUser = true := by decide
    have hcount := (hmatch _ hvisible [] emptyUser huser).count_le letterK
    have hilen : i < msgs.length := (List.getElem?_eq_some_iff.mp hm).1
    have hq := hlast [] emptyUser huser
    have hbody := count_flatMap_add_le (k := 2) (a := letterK) (l := msgs.zipIdx)
      (f := fun p => messageTurn (msgs ++ [thinkingReply content [], emptyUser]) toolOrders .enabled
        (lastQueryIdx (msgs ++ [thinkingReply content [], emptyUser])) p.1 p.2)
      (g := fun p => messageTurn msgs toolOrders .enabled (lastQueryIdx msgs) p.1 p.2)
      (fun p hp => count_messageTurn_le (hrole []) toolOrders .enabled
        (lastQueryIdx_le_append msgs _) (mem_zipIdx hp).1)
      (Or.inr ⟨(m, i), List.mem_zipIdx_iff_getElem?.mpr hm,
        count_messageTurn_dropped (hrole []) toolOrders hilen hm ha hi (by omega)⟩)
    have huserTurn := count_emptyUserTurn (msgs ++ [thinkingReply content [], emptyUser]) toolOrders
      .enabled (lastQueryIdx (msgs ++ [thinkingReply content [], emptyUser])) msgs.length
    have hturn : (assistantTurn toolOrders false (thinkingReply content [])).count letterK =
        content.count letterK := by
      have h1 : (bytes "<|im_start|>assistant\n").count letterK = 0 := by decide
      have h2 : (bytes "<|im_end|>\n").count letterK = 0 := by decide
      have hnone : appendOfficialToolCallsText ({} : ToolCalls) toolOrders = [] := rfl
      simp [assistantTurn, thinkingReply, hnone, h1, h2]
    have h1 : (bytes "<|im_start|>assistant\n").count letterK = 0 := by decide
    have h3 : (bytes "<think>\n").count letterK = 1 := by decide
    rw [renderChatPromptText_append (hrole []), hflag _ hq, assistantOpening_enabled] at hcount
    simp only [List.count_append, huserTurn, hturn, h1, h3] at hcount
    simp only [messageTurns] at hcount hbody
    omega
  · intro hnone visible hv reasoning user huser
    have hq := hlast reasoning user huser
    have hbody : messageTurns (msgs ++ [thinkingReply content reasoning, user]) toolOrders .enabled
        (lastQueryIdx (msgs ++ [thinkingReply content reasoning, user])) msgs.zipIdx =
        messageTurns msgs toolOrders .enabled (lastQueryIdx msgs) msgs.zipIdx := by
      refine List.flatMap_congr fun p hp => ?_
      obtain ⟨hlen, hget⟩ := mem_zipIdx hp
      refine messageTurn_append (hrole reasoning) toolOrders .enabled hlen fun ha _ => ?_
      constructor
      · intro hlt
        omega
      · exact fun hlt => absurd ⟨p.2, p.1, hget, ha, hlt⟩ hnone
    obtain rfl : visible = _ := Option.some.inj (hv.symm.trans hvisible)
    rw [renderChatPromptText_append (hrole reasoning), hflag _ hq, hbody]
    simp only [assistantTurn, thinkingReply, Bool.false_eq_true, if_false, List.append_assoc,
      List.append_nil, List.prefix_append_right_inj]
    exact List.prefix_append _ _

/-- A question, asked in thinking mode. -/
def question : List ChatMsg := [{ role := some (bytes "user"), content := bytes "q" }]

/-- The request a conversation without tools makes. -/
def toollessRequest (msgs : List ChatMsg) : Request where
  api := .openai
  promptText := renderChatPromptText [] msgs [] [] .enabled
  thinkMode := .enabled
  promptPreservesReasoning := renderedPromptPreservesReasoning msgs .enabled

theorem thinkingKey_iff_question :
    ThinkingKeyMatches [] [] question (toollessRequest question) (bytes "a") ↔
      ¬ AssistantAfterQuery question :=
  thinkingKey_iff ⟨rfl, rfl, rfl, rfl, by decide⟩ (bytes "a")

/-- A question and the beginning of an answer, to be gone on with. -/
def begunAnswer : List ChatMsg :=
  question ++ [{ role := some (bytes "assistant"), content := bytes "a" }]

/-- The guard asks for reasoning that is not empty; the prompt shows the tags around an
empty one too. -/
theorem not_thinkingKeyMatches :
    ¬ ∀ (bos : Bytes) (toolOrders : List ToolSchemaOrder) (msgs : List ChatMsg) (r : Request)
      (content : Bytes), StoresThinkingKey bos toolOrders msgs r →
      ThinkingKeyMatches bos toolOrders msgs r content := by
  intro h
  have hstores : StoresThinkingKey [] [] begunAnswer (toollessRequest begunAnswer) :=
    ⟨rfl, rfl, rfl, rfl, by decide⟩
  have := h [] [] begunAnswer (toollessRequest begunAnswer) (bytes "b") hstores _ (by rfl) []
    emptyUser (by decide)
  revert this
  decide

end Sf37.Server

/-
Sf37.Server.ChatPrompt — the chat template: what the messages of a request are
rendered as, and the tail of it that a live continuation adds.

The loops of `render_chat_prompt_text` and `render_live_tool_tail` walk the
messages by index, look at both neighbours and write one turn each; a loop here is
the messages with their indices, and a turn a function of both.

* `renderChatPromptText`, `renderLiveToolTail`: the two renderers.
* `renderedPromptPreservesReasoning`: the guard of the thinking checkpoint.
-/
import Sf37.Server.ParseGenerated

namespace Sf37.Server

open Sf37.Text

/-! ## Texts put into the prompt -/

/-- The loop of the two escapers: the `<` of a tag of `tags` is written as an
entity. -/
def escapeTags (tags : List Bytes) : Bytes → Bytes
  | [] => []
  | c :: s =>
      (if tags.any (startsWith (c :: s)) then bytes "&lt;" else [c]) ++ escapeTags tags s

/-- `append_official_parameter_text`. -/
def appendOfficialParameterText (s : Bytes) : Bytes := escapeTags [parameterEnd] s

def toolResponseStart : Bytes := bytes "<tool_response>"
def toolResponseEnd : Bytes := bytes "</tool_response>"

/-- `append_tool_result_text`. -/
def appendToolResultText (s : Bytes) : Bytes :=
  escapeTags [toolResponseEnd, bytes "</tool_result>"] s

/-- `append_tools_prompt_text`. -/
def appendToolsPromptText (toolSchemas : Bytes) : Bytes :=
  if toolSchemas = [] then []
  else
    bytes "# Tools\n\n" ++
    bytes "You have access to the following functions in JSONSchema format:\n\n" ++
    bytes "<tools>\n" ++
    toolSchemas ++
    bytes "\n</tools>\n\n" ++
    bytes "If you choose to call a function ONLY reply in the following format " ++
    bytes "with NO suffix:\n\n" ++
    bytes "<tool_call>\n" ++
    bytes "<function=example_function_name>\n" ++
    bytes "<parameter=example_parameter_1>\n" ++
    bytes "value_1\n" ++
    bytes "</parameter>\n" ++
    bytes "<parameter=example_parameter_2>\n" ++
    bytes "This is the value for the second parameter\n" ++
    bytes "that can span\n" ++
    bytes "multiple lines\n" ++
    bytes "</parameter>\n" ++
    bytes "</function>\n" ++
    bytes "</tool_call>\n\n" ++
    bytes "<IMPORTANT>\n" ++
    bytes "Reminder:\n" ++
    bytes "- Function calls MUST follow the specified format: an inner <function=...>\n" ++
    bytes "...\n" ++
    bytes "</function> block must be nested within <tool_call>\n" ++
    bytes "...\n" ++
    bytes "</tool_call> XML tags\n" ++
    bytes "- Required parameters MUST be specified\n" ++
    bytes "</IMPORTANT>"

/-! ## Tool calls -/

/-- `tool_schema_order`: the order of a tool's properties in its schema. -/
structure ToolSchemaOrder where
  name : Bytes
  prop : List Bytes
  deriving DecidableEq, Repr

/-- `tool_schema_orders_find`; no orders are the empty list. -/
def toolSchemaOrdersFind (orders : List ToolSchemaOrder) (name : Bytes) : Option ToolSchemaOrder :=
  orders.find? (·.name = name)

/-- `append_official_arg`. -/
def appendOfficialArg (arg : JsonArg) : Bytes :=
  parameterStart ++ arg.key ++ bytes ">\n" ++
    (if arg.isString then appendOfficialParameterText arg.value else arg.value) ++
    bytes "\n" ++ parameterEnd ++ bytes "\n"

/-- The two loops of `append_official_arguments_from_json`: the arguments that the
order names first, then the unused ones; `args` are the unused ones. -/
def appendArgsInOrder : List Bytes → List JsonArg → Bytes
  | [], args => args.flatMap appendOfficialArg
  | prop :: props, args =>
      match args.find? (·.key = prop) with
      | none => appendArgsInOrder props args
      | some arg => appendOfficialArg arg ++ appendArgsInOrder props (args.eraseP (·.key = prop))

/-- `append_official_arguments_from_json`. -/
def appendOfficialArgumentsFromJson (json : Bytes) (order : Option ToolSchemaOrder) :
    Option Bytes :=
  (jsonArgsParse json).map (appendArgsInOrder ((order.map (·.prop)).getD []))

/-- `raw_tool_block_is_official`. -/
def rawToolBlockIsOfficial (s : Bytes) : Bool := startsWith (s.dropWhile isspace) toolCallStart

/-- One turn of the loop of `append_official_tool_calls_text`. -/
def appendOfficialToolCall (orders : List ToolSchemaOrder) (tc : ToolCall) : Bytes :=
  toolCallStart ++ bytes "\n" ++ functionStart ++ tc.name ++ bytes ">\n" ++
    (match appendOfficialArgumentsFromJson tc.arguments (toolSchemaOrdersFind orders tc.name) with
    | some args => args
    | none =>
        parameterStart ++ bytes "arguments>\n" ++ appendOfficialParameterText tc.arguments ++
          bytes "\n" ++ parameterEnd ++ bytes "\n") ++
    functionEnd ++ bytes "\n" ++ toolCallEnd

/-- `append_official_tool_calls_text`. -/
def appendOfficialToolCallsText (calls : ToolCalls) (orders : List ToolSchemaOrder) : Bytes :=
  if calls.v = [] then []
  else if rawToolBlockIsOfficial (calls.rawDsml.getD []) then calls.rawDsml.getD []
  else calls.v.flatMap (appendOfficialToolCall orders)

/-! ## Messages -/

/-- `chat_msg`; the texts other than the role may be unset, which reads as empty. -/
structure ChatMsg where
  role : Option Bytes := none
  name : Bytes := []
  content : Bytes := []
  reasoning : Bytes := []
  toolCallId : Bytes := []
  toolCallIds : List Bytes := []
  calls : ToolCalls := {}
  deriving DecidableEq, Repr

/-- The role a message is rendered under. -/
def ChatMsg.roleOrUser (m : ChatMsg) : Bytes := m.role.getD (bytes "user")

/-- `role_is_system` and `role_is_template_initial_system`. -/
def roleIsSystem (role : Option Bytes) : Bool :=
  role == some (bytes "system") || role == some (bytes "developer")

/-- `role_is_tool_result`. -/
def roleIsToolResult (role : Bytes) : Bool := role == bytes "tool" || role == bytes "function"

/-- `template_role_name`. -/
def templateRoleName (m : ChatMsg) (idx : Nat) : Bytes :=
  let role := m.roleOrUser
  if role = bytes "developer" then bytes "system"
  else if role = bytes "system" ∧ 0 < idx ∧ m.name = bytes "observation" then
    bytes "observation"
  else if role = [] then bytes "user"
  else role

/-- `message_is_plain_user_query`. -/
def messageIsPlainUserQuery (m : ChatMsg) : Bool :=
  let start := bytes "<tool_result>"
  let end_ := bytes "</tool_result>"
  m.role == some (bytes "user") &&
    !(decide (start.length + end_.length ≤ m.content.length) &&
      startsWith m.content start && decide (end_ <:+ m.content))

/-- The last plain user query, as the loop from the end finds it; without one the
index of the last message. -/
def lastQueryIdx (msgs : List ChatMsg) : Int :=
  match msgs.reverse.findIdx? messageIsPlainUserQuery with
  | some k => msgs.length - 1 - k
  | none => msgs.length - 1

def imStart : Bytes := bytes "<|im_start|>"
def imEnd : Bytes := bytes "<|im_end|>"

/-- The role of a neighbour, empty where there is none. -/
def roleAt (msgs : List ChatMsg) (i : Nat) : Bytes := ((msgs[i]?).bind (·.role)).getD []

/-- The turn of a tool result between two roles; results that stand together
share one turn. -/
def toolTurn (prevRole nextRole : Bytes) (m : ChatMsg) : Bytes :=
  (if roleIsToolResult prevRole then [] else bytes "<|im_start|>tool_response\n") ++
    toolResponseStart ++ appendToolResultText m.content ++ toolResponseEnd ++
    (if roleIsToolResult nextRole then [] else bytes "<|im_end|>\n")

/-- The turn of a message that is neither a tool result nor the assistant's. -/
def plainTurn (m : ChatMsg) (i : Nat) : Bytes :=
  bytes "<|im_start|>" ++ templateRoleName m i ++ bytes "\n" ++ m.content ++ bytes "<|im_end|>\n"

/-- What the prompt ends with: the assistant's turn, opened. -/
def assistantOpening (thinkMode : ThinkMode) : Bytes :=
  if thinkMode = .enabled then bytes "<|im_start|>assistant\n<think>\n"
  else bytes "<|im_start|>assistant\n"

/-! ## `render_chat_prompt_text` -/

/-- `first_is_system`. -/
def firstIsSystem (msgs : List ChatMsg) : Bool :=
  (msgs.head?.map fun m => roleIsSystem m.role).getD false

/-- The text gathered in `system`. -/
def systemText (msgs : List ChatMsg) (toolSchemas : Bytes) : Bytes :=
  let content := if firstIsSystem msgs then (msgs.head?.map (·.content)).getD [] else []
  content ++
    (if toolSchemas = [] then []
    else (if content = [] then [] else bytes "\n\n") ++ appendToolsPromptText toolSchemas)

/-- The first turn, when there is something to say in it. -/
def systemTurn (msgs : List ChatMsg) (toolSchemas : Bytes) : Bytes :=
  if systemText msgs toolSchemas = [] ∧ toolSchemas = [] then []
  else bytes "<|im_start|>system\n" ++ systemText msgs toolSchemas ++ bytes "<|im_end|>\n"

/-- The assistant's turn of `render_chat_prompt_text`; `think` is whether its
reasoning is kept. -/
def assistantTurn (toolOrders : List ToolSchemaOrder) (think : Bool) (m : ChatMsg) : Bytes :=
  bytes "<|im_start|>assistant\n" ++
    (if think then bytes "<think>\n" ++ m.reasoning ++ bytes "\n</think>\n" else []) ++
    m.content ++ appendOfficialToolCallsText m.calls toolOrders ++ bytes "<|im_end|>\n"

/-- One turn of the loop of `render_chat_prompt_text`. -/
def messageTurn (msgs : List ChatMsg) (toolOrders : List ToolSchemaOrder) (thinkMode : ThinkMode)
    (lastQuery : Int) (m : ChatMsg) (i : Nat) : Bytes :=
  let role := m.roleOrUser
  if i = 0 ∧ firstIsSystem msgs then []
  else if roleIsToolResult role then
    toolTurn (if 0 < i then roleAt msgs (i - 1) else []) (roleAt msgs (i + 1)) m
  else if role = bytes "assistant" then
    assistantTurn toolOrders (thinkMode = .enabled ∧ lastQuery < i) m
  else plainTurn m i

/-- The loop of `render_chat_prompt_text`. -/
def messageTurns (msgs : List ChatMsg) (toolOrders : List ToolSchemaOrder) (thinkMode : ThinkMode)
    (lastQuery : Int) (turns : List (ChatMsg × Nat)) : Bytes :=
  turns.flatMap fun (m, i) => messageTurn msgs toolOrders thinkMode lastQuery m i

/-- `render_chat_prompt_text`; `bos` is the text of the token that begins a text
and unset schemas are empty. -/
def renderChatPromptText (bos : Bytes) (msgs : List ChatMsg) (toolSchemas : Bytes)
    (toolOrders : List ToolSchemaOrder) (thinkMode : ThinkMode) : Bytes :=
  bos ++ systemTurn msgs toolSchemas ++
    messageTurns msgs toolOrders thinkMode (lastQueryIdx msgs) msgs.zipIdx ++
    assistantOpening thinkMode

/-- `rendered_prompt_preserves_reasoning`. -/
def renderedPromptPreservesReasoning (msgs : List ChatMsg) (thinkMode : ThinkMode) : Bool :=
  decide (thinkMode = .enabled) &&
    msgs.zipIdx.any fun (m, i) =>
      m.roleOrUser == bytes "assistant" && decide (lastQueryIdx msgs < i) && m.reasoning != []

/-! ## `render_live_tool_tail` -/

/-- The assistant's turn of `render_live_tool_tail`. -/
def liveAssistantTurn (thinkMode : ThinkMode) (m : ChatMsg) : Bytes :=
  bytes "<|im_start|>assistant\n" ++
    (if thinkMode = .enabled ∧ (m.reasoning ≠ [] ∨ m.calls.v ≠ []) then
      bytes "<think>\n" ++ m.reasoning ++ bytes "</think>"
    else []) ++
    m.content ++ appendOfficialToolCallsText m.calls [] ++ bytes "<|im_end|>\n"

/-- One turn of the loop of `render_live_tool_tail`. -/
def liveTurn (msgs : List ChatMsg) (start : Nat) (thinkMode : ThinkMode) (m : ChatMsg) (i : Nat) :
    Bytes :=
  let role := m.roleOrUser
  if i = 0 ∧ roleIsSystem (some role) then []
  else if roleIsToolResult role then
    toolTurn (if start < i then roleAt msgs (i - 1) else []) (roleAt msgs (i + 1)) m
  else if role = bytes "assistant" then liveAssistantTurn thinkMode m
  else plainTurn m i

/-- `render_live_tool_tail`. -/
def renderLiveToolTail (msgs : List ChatMsg) (start : Nat) (thinkMode : ThinkMode) : Bytes :=
  bytes "<|im_end|>\n" ++
    ((msgs.zipIdx.drop start).flatMap fun (m, i) => liveTurn msgs start thinkMode m i) ++
    assistantOpening thinkMode

end Sf37.Server

/-
Sf37.Server.ParseGenerated — the final parse of a generated text:
`split_reasoning_content`, the official and the DSML tool blocks,
`parse_generated_message_ex` and `parse_generated_message_for_response`.

The source writes each parameter into the argument buffer of its call as it
reads it. Here a block is read into `ParsedCall`s first and
`ParsedCall.toolCall` writes the buffer, parameter by parameter in the same
order, so that a statement can speak of the parameters of a block. A loop of
the source is a function on fuel over the rest of the text; every turn reads at
least one byte, so the length of the text is enough.
-/
import Sf37.Server.LiveSplit
import Sf37.Text.Json

namespace Sf37.Server

open Sf37.Text

/-! ## Reasoning and content -/

/-- `split_reasoning_content` on a whole buffer: reasoning and content. -/
def splitReasoningContent (raw : Bytes) (think : ThinkMode) : Bytes × Bytes :=
  let body := if startsWith raw thinkOpen then raw.drop thinkOpen.length else raw
  match findSubstrFrom body body.length 0 thinkClose with
  | some close => (body.take close, body.drop (close + thinkClose.length))
  | none => if think = .enabled then (body, []) else ([], body)

/-! ## Values and attributes -/

/-- The entities of `xml_unescape_text`. -/
def xmlEntities : List (Bytes × UInt8) :=
  [(bytes "&lt;", 0x3c), (bytes "&gt;", 0x3e), (bytes "&amp;", 0x26), (bytes "&quot;", 0x22)]

def xmlUnescapeLoop : Nat → Bytes → Bytes
  | 0, _ => []
  | _ + 1, [] => []
  | fuel + 1, c :: s =>
      match xmlEntities.find? fun e => startsWith (c :: s) e.1 with
      | some (entity, x) => x :: xmlUnescapeLoop fuel ((c :: s).drop entity.length)
      | none => c :: xmlUnescapeLoop fuel s

/-- `xml_unescape_text`. -/
def xmlUnescapeText (s : Bytes) : Bytes := xmlUnescapeLoop s.length s

/-- The loop of `dsml_attr` at offset `p` of the tag. -/
def dsmlAttrLoop (tag name : Bytes) : Nat → Nat → Option Bytes
  | 0, _ => none
  | fuel + 1, p =>
      match strstr (tag.drop p) name with
      | none => none
      | some k =>
          let p := p + k
          if (p = 0 ∨ tag[p - 1]?.any (fun c => isspace c || c == 0x3c)) ∧
              tag[p + name.length]? = some 0x3d then
            let p := p + name.length + 1
            if tag[p]? = some 0x22 then
              let p := p + 1
              (strchr (tag.drop p) 0x22).map fun e => xmlUnescapeText (slice tag p (p + e))
            else dsmlAttrLoop tag name fuel p
          else dsmlAttrLoop tag name fuel (p + name.length)

/-- `dsml_attr`. -/
def dsmlAttr (tag name : Bytes) : Option Bytes := dsmlAttrLoop tag name (tag.length + 1) 0

/-- `raw_text_is_json_value`. -/
def rawTextIsJsonValue (s : Bytes) : Bool :=
  let p := jsonWs s
  if p = [] then false
  else
    match jsonSkipValue p with
    | none => false
    | some p => decide (jsonWs p = [])

/-- `trim_official_parameter_value`: at most one line break at each end. -/
def trimOfficialParameterValue (s : Bytes) : Bytes :=
  let s :=
    if startsWith s (bytes "\r\n") then s.drop 2
    else if startsWith s (bytes "\n") then s.drop 1
    else s
  if bytes "\r\n" <:+ s then s.take (s.length - 2)
  else if bytes "\n" <:+ s then s.take (s.length - 1)
  else s

/-! ## Calls -/

/-- `tool_call`; an unset `id` is the empty one. -/
structure ToolCall where
  id : Bytes := []
  name : Bytes
  arguments : Bytes
  deriving DecidableEq, Repr

/-- `tool_calls`. -/
structure ToolCalls where
  v : List ToolCall := []
  rawDsml : Option Bytes := none
  deriving DecidableEq, Repr

/-- A parameter as `tool_call_json_args_add` is given it. -/
structure ToolParam where
  name : Bytes
  value : Bytes
  type : Bytes
  deriving DecidableEq, Repr

/-- A call as it stands in a block. -/
structure ParsedCall where
  name : Bytes
  params : List ToolParam
  deriving DecidableEq, Repr

/-- The value text `tool_call_json_args_add` writes: minified when the type is
`false`, otherwise as a string. -/
def ToolParam.json (prm : ToolParam) : Bytes :=
  if prm.type = bytes "false" then jsonMinifyRawValue prm.value else jsonEscape prm.value

/-- `tool_call_json_args_add`. -/
def toolCallJsonArgsAdd (b : Bytes) (prm : ToolParam) : Bytes :=
  (if b = [] then [] else b ++ bytes ",") ++ jsonEscape prm.name ++ bytes ":" ++ prm.json

/-- The call with its arguments written out. -/
def ParsedCall.toolCall (c : ParsedCall) : ToolCall where
  name := c.name
  arguments := bytes "\x7b" ++ c.params.foldl toolCallJsonArgsAdd [] ++ bytes "\x7d"

/-! ## The official block -/

/-- A parameter of the official form from the two texts it is read from. The
type is guessed: a value that reads as JSON is taken as JSON. -/
def officialParam (name rawValue : Bytes) : ToolParam :=
  let value := xmlUnescapeText (trimOfficialParameterValue rawValue)
  { name, value, type := if rawTextIsJsonValue value then bytes "false" else bytes "true" }

/-- A parameter of the official form, from its tag on. -/
def parseOfficialParameter (p : Bytes) : Option (ToolParam × Bytes) :=
  let p := p.drop parameterStart.length
  match strchr p 0x3e with
  | none => none
  | some 0 => none
  | some (k + 1) =>
      let valueStart := p.drop (k + 2)
      (strstr valueStart parameterEnd).map fun e =>
        (officialParam (p.take (k + 1)) (valueStart.take e),
          valueStart.drop (e + parameterEnd.length))

/-- The parameter loop of `parse_official_tool_call_block`. -/
def parseOfficialParameters : Nat → Bytes → Option (List ToolParam × Bytes)
  | 0, _ => none
  | fuel + 1, p =>
      let p := skipAsciiWs p
      if startsWith p functionEnd then some ([], p.drop functionEnd.length)
      else if startsWith p parameterStart then
        match parseOfficialParameter p with
        | none => none
        | some (prm, p) =>
            (parseOfficialParameters fuel p).map fun (ps, p) => (prm :: ps, p)
      else none

/-- `parse_official_tool_call_block`. -/
def parseOfficialToolCallBlock (p : Bytes) : Option (ParsedCall × Bytes) :=
  if startsWith p toolCallStart then
    let p := skipAsciiWs (p.drop toolCallStart.length)
    if startsWith p functionStart then
      let p := p.drop functionStart.length
      match strchr p 0x3e with
      | none => none
      | some 0 => none
      | some (k + 1) =>
          let name := p.take (k + 1)
          let p := p.drop (k + 2)
          match parseOfficialParameters (p.length + 1) p with
          | none => none
          | some (params, p) =>
              let p := skipAsciiWs p
              if startsWith p toolCallEnd then
                some ({ name, params }, p.drop toolCallEnd.length)
              else none
    else none
  else none

/-- The block loop of `parse_official_tool_calls_message`: adjacent blocks, and
the white space after the last. -/
def parseOfficialBlocks : Nat → Bytes → Option (List ParsedCall × Bytes)
  | 0, _ => none
  | fuel + 1, p =>
      match parseOfficialToolCallBlock p with
      | none => none
      | some (tc, p) =>
          let next := skipAsciiWs p
          if startsWith next toolCallStart then
            (parseOfficialBlocks fuel next).map fun (tcs, p) => (tc :: tcs, p)
          else some ([tc], next)

/-! ## The DSML block -/

/-- The tags of one way to write a DSML block. -/
structure DsmlStyle where
  toolCallsStart : Bytes
  toolCallsEnd : Bytes
  invokeStart : Bytes
  invokeEnd : Bytes
  paramStart : Bytes
  paramEnd : Bytes

/-- `style == 0`. -/
def dsmlStyleLong : DsmlStyle :=
  { toolCallsStart, toolCallsEnd, invokeStart, invokeEnd, paramStart, paramEnd }

/-- `style == 1`. -/
def dsmlStylePlain : DsmlStyle where
  toolCallsStart := bytes "<tool_calls>"
  toolCallsEnd := bytes "</tool_calls>"
  invokeStart := bytes "<invoke"
  invokeEnd := bytes "</invoke>"
  paramStart := bytes "<parameter"
  paramEnd := bytes "</parameter>"

/-- `style == 2`. -/
def dsmlStyleShort : DsmlStyle where
  toolCallsStart := toolCallsStartShort
  toolCallsEnd := toolCallsEndShort
  invokeStart := invokeStartShort
  invokeEnd := invokeEndShort
  paramStart := paramStartShort
  paramEnd := paramEndShort

/-- The DSML openers in the order they are tried. -/
def dsmlStarts : List (Bytes × DsmlStyle) :=
  [(bytes "\n\n" ++ toolCallsStart, dsmlStyleLong), (toolCallsStart, dsmlStyleLong),
    (bytes "\n\n" ++ toolCallsStartShort, dsmlStyleShort), (toolCallsStartShort, dsmlStyleShort),
    (bytes "\n\n<tool_calls>", dsmlStylePlain), (bytes "<tool_calls>", dsmlStylePlain)]

/-- Where the DSML block starts in the searched text, and its style. -/
def findDsmlStart (search : Bytes) : Option (Nat × DsmlStyle) :=
  dsmlStarts.findSome? fun (m, style) => (strstr search m).map (·, style)

/-- A parameter of the DSML form from its tag, its name and its value text. -/
def dsmlParam (tag name rawValue : Bytes) : ToolParam :=
  let type := (dsmlAttr tag (bytes "string")).getD (bytes "true")
  { name
    value := if type = bytes "true" then xmlUnescapeText rawValue else rawValue
    type }

/-- A parameter of the DSML form, from its tag on. -/
def parseDsmlParameter (style : DsmlStyle) (p : Bytes) : Option (ToolParam × Bytes) :=
  match strchr p 0x3e with
  | none => none
  | some tagEnd =>
      let tag := p.take (tagEnd + 1)
      match dsmlAttr tag (bytes "name") with
      | none => none
      | some name =>
          let valueStart := p.drop (tagEnd + 1)
          (strstr valueStart style.paramEnd).map fun e =>
            (dsmlParam tag name (valueStart.take e),
              valueStart.drop (e + style.paramEnd.length))

/-- The parameter loop of a DSML call. -/
def parseDsmlParameters (style : DsmlStyle) : Nat → Bytes → Option (List ToolParam × Bytes)
  | 0, _ => none
  | fuel + 1, p =>
      let p := skipAsciiWs p
      if startsWith p style.invokeEnd then some ([], p.drop style.invokeEnd.length)
      else if startsWith p style.paramStart then
        match parseDsmlParameter style p with
        | none => none
        | some (prm, p) =>
            (parseDsmlParameters style fuel p).map fun (ps, p) => (prm :: ps, p)
      else none

/-- A call of a DSML block, from its tag on. -/
def parseDsmlInvoke (style : DsmlStyle) (p : Bytes) : Option (ParsedCall × Bytes) :=
  match strchr p 0x3e with
  | none => none
  | some tagEnd =>
      match dsmlAttr (p.take (tagEnd + 1)) (bytes "name") with
      | none => none
      | some name =>
          let p := p.drop (tagEnd + 1)
          (parseDsmlParameters style (p.length + 1) p).map fun (params, p) =>
            ({ name, params }, p)

/-- The call loop of a DSML block, after its opener. -/
def parseDsmlInvokes (style : DsmlStyle) : Nat → Bytes → Option (List ParsedCall × Bytes)
  | 0, _ => none
  | fuel + 1, p =>
      let p := skipAsciiWs p
      if startsWith p style.toolCallsEnd then some ([], p.drop style.toolCallsEnd.length)
      else if startsWith p style.invokeStart then
        match parseDsmlInvoke style p with
        | none => none
        | some (tc, p) =>
            (parseDsmlInvokes style fuel p).map fun (tcs, p) => (tc :: tcs, p)
      else none

/-- A DSML block, from where its opener was found. -/
def parseDsmlBlock (style : DsmlStyle) (p : Bytes) : Option (List ParsedCall × Bytes) :=
  match strstr p style.toolCallsStart with
  | none => none
  | some k =>
      let p := p.drop (k + style.toolCallsStart.length)
      parseDsmlInvokes style (p.length + 1) p

/-! ## The whole message -/

/-- Where tool blocks are searched: everywhere, or after the last closing tag
when thinking has to be closed first, or nowhere while it is open. -/
def toolSearchStart (requireThinkingClosed : Bool) (text : Bytes) : Option Nat :=
  if requireThinkingClosed then
    (findLastSubstr text thinkClose).map (· + thinkClose.length)
  else some 0

/-- The two forms of a block. -/
inductive BlockForm where
  | official
  | dsml (style : DsmlStyle)

/-- Where the searched text has the block the parser reads, and its form. The
official form goes first, wherever it stands. -/
def toolBlockStart (search : Bytes) : Option (Nat × BlockForm) :=
  match strstr search toolCallStart with
  | some o => some (o, .official)
  | none => (findDsmlStart search).map fun (d, style) => (d, .dsml style)

/-- Read a block: its calls and the text behind it. -/
def readToolBlock : BlockForm → Bytes → Option (List ParsedCall × Bytes)
  | .official, p => parseOfficialBlocks (p.length + 1) p
  | .dsml style, p => parseDsmlBlock style p

/-- What a parse hands out; `reasoning` is `none` where the source leaves NULL. -/
structure ParsedMessage where
  content : Bytes
  reasoning : Option Bytes
  calls : List ParsedCall := []
  rawDsml : Option Bytes := none
  deriving DecidableEq, Repr

/-- The message without a tool block. -/
def messageWithoutCalls (text : Bytes) (think : ThinkMode) : ParsedMessage where
  content := (splitReasoningContent text think).2
  reasoning := some (splitReasoningContent text think).1

/-- The message with the block that starts at `start` and leaves `rest` behind:
the text before the block, less separator white space, is split. -/
def messageWithCalls (text : Bytes) (think : ThinkMode) (start : Nat)
    (calls : List ParsedCall) (rest : Bytes) : ParsedMessage :=
  let before := text.take (trimToolSeparatorWs text 0 start)
  { content := (splitReasoningContent before think).2
    reasoning := some (splitReasoningContent before think).1
    calls := calls
    rawDsml := some (slice text start (text.length - rest.length)) }

/-- `parse_generated_message_ex`; `none` for `false`. -/
def parseGeneratedMessageEx (text : Bytes) (requireThinkingClosed : Bool)
    (think : ThinkMode) : Option ParsedMessage :=
  match toolSearchStart requireThinkingClosed text with
  | none => some (messageWithoutCalls text think)
  | some k =>
      match toolBlockStart (text.drop k) with
      | none => some (messageWithoutCalls text think)
      | some (d, form) =>
          (readToolBlock form (text.drop (k + d))).map fun (calls, rest) =>
            messageWithCalls text think (k + d) calls rest

/-- `parse_generated_message_for_response`: success, the finish reason and the
message. A text that does not parse is content as a whole. -/
def parseGeneratedMessageForResponse (text : Bytes) (think : ThinkMode) (finish : Finish) :
    Bool × Finish × ParsedMessage :=
  match parseGeneratedMessageEx text (think == .enabled) think with
  | some m => (true, finish, m)
  | none =>
      (false, if finish = .length then finish else .stop,
        { content := text, reasoning := none })

/-- The calls of a message as the rest of the server sees them. -/
def ParsedMessage.toolCalls (m : ParsedMessage) : ToolCalls where
  v := m.calls.map ParsedCall.toolCall
  rawDsml := m.rawDsml

end Sf37.Server

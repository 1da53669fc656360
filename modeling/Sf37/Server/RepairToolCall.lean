/-
Sf37.Server.RepairToolCall — closing the tags of a tool call that generation left open:
`repair_official_tool_call_text`, `repair_legacy_tool_call_text` and
`try_repair_tool_call_text`.

Both repairs count the tags behind the last `</think>`, whether thinking is on or not, and
append the closing tags that are missing. The searches stop at a NUL, the counts do not. The
text is taken over when it then parses to calls.

* `appendMissingTags`: what a repair appends.
* `tryRepairToolCallText`: when a text is taken over.
-/
import Sf37.Server.ParseGenerated

namespace Sf37.Server

open Sf37.Text

/-! ## Counting -/

/-- The loop of `count_substr_bounded`: it goes on behind what it found. -/
def countSubstrLoop (needle : Bytes) : Nat → Bytes → Nat
  | 0, _ => 0
  | fuel + 1, s =>
      if s.length < needle.length then 0
      else if startsWith s needle then countSubstrLoop needle fuel (s.drop needle.length) + 1
      else countSubstrLoop needle fuel (s.drop 1)

/-- `count_substr_bounded`. -/
def countSubstrBounded (s needle : Bytes) : Nat :=
  if needle = [] ∨ s.length < needle.length then 0 else countSubstrLoop needle (s.length + 1) s

/-! ## The tags -/

/-- The tags a repair counts and what it puts before each closing tag. -/
structure RepairTags where
  paramStart : Bytes
  paramEnd : Bytes
  invokeStart : Bytes
  invokeEnd : Bytes
  callsStart : Bytes
  callsEnd : Bytes
  separator : Bytes

/-- The tags of `repair_official_tool_call_text`. -/
def officialRepairTags : RepairTags where
  paramStart := parameterStart
  paramEnd := parameterEnd
  invokeStart := functionStart
  invokeEnd := functionEnd
  callsStart := toolCallStart
  callsEnd := toolCallEnd
  separator := bytes "\n"

/-- The tags of a style in `repair_legacy_tool_call_text`. -/
def DsmlStyle.repairTags (style : DsmlStyle) : RepairTags where
  paramStart := style.paramStart
  paramEnd := style.paramEnd
  invokeStart := style.invokeStart
  invokeEnd := style.invokeEnd
  callsStart := style.toolCallsStart
  callsEnd := style.toolCallsEnd
  separator := []

/-- A closing tag, some number of times. -/
def RepairTags.closing (tags : RepairTags) (tag : Bytes) (n : Nat) : Bytes :=
  (List.replicate n (tags.separator ++ tag)).flatten

/-- The closing tags, some number of each. -/
def RepairTags.missing (tags : RepairTags) (params invokes calls : Nat) : Bytes :=
  tags.closing tags.paramEnd params ++ tags.closing tags.invokeEnd invokes ++
    tags.closing tags.callsEnd calls

/-- What both repairs do once they know the tags. -/
def appendMissingTags (text scan : Bytes) (tags : RepairTags) : Option Bytes :=
  let paramsOpen := countSubstrBounded scan tags.paramStart
  let paramsClose := countSubstrBounded scan tags.paramEnd
  let invokesOpen := countSubstrBounded scan tags.invokeStart
  let invokesClose := countSubstrBounded scan tags.invokeEnd
  let callsOpen := countSubstrBounded scan tags.callsStart
  let callsClose := countSubstrBounded scan tags.callsEnd
  if paramsOpen < paramsClose ∨ invokesOpen < invokesClose ∨ callsOpen < callsClose ∨
      callsOpen = callsClose then none
  else
    some (text ++
      tags.missing (paramsOpen - paramsClose) (invokesOpen - invokesClose)
        (callsOpen - callsClose))

/-! ## The repairs -/

/-- What a repair looks at: the text behind the last `</think>`, or all of it. -/
def repairScan (text : Bytes) : Bytes :=
  match findLastSubstr (cstr text) thinkClose with
  | some k => text.drop (k + thinkClose.length)
  | none => text

/-- `repair_official_tool_call_text`. -/
def repairOfficialToolCallText (text : Bytes) : Option Bytes :=
  let scan := repairScan text
  if (strstr (cstr scan) toolCallStart).isNone then none
  else if (strstr (cstr scan) toolCallEnd).isSome then none
  else appendMissingTags text scan officialRepairTags

/-- `repair_legacy_tool_call_text`. -/
def repairLegacyToolCallText (text : Bytes) : Option Bytes :=
  let scan := repairScan text
  let styles := [dsmlStyleLong, dsmlStyleShort, dsmlStylePlain]
  match styles.find? fun style => (strstr (cstr scan) style.toolCallsStart).isSome with
  | none => none
  | some style => appendMissingTags text scan style.repairTags

/-- `try_repair_tool_call_text`. -/
def tryRepairToolCallText (text : Bytes) (hasTools : Bool) (think : ThinkMode) : Option Bytes :=
  if text = [] ∨ ¬ hasTools then none
  else
    match (repairOfficialToolCallText text).or (repairLegacyToolCallText text) with
    | none => none
    | some out =>
        let parsed := parseGeneratedMessageForResponse (cstr out) think .toolCalls
        if parsed.1 ∧ 0 < parsed.2.2.calls.length then some out else none

end Sf37.Server

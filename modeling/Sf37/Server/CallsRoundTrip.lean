/-
Sf37.Server.CallsRoundTrip — tool calls written into a prompt and parsed again.

* `appendArgsInOrder_perm`: the schema order only reorders the arguments.
* `officialBlocks_calls`: the text of the calls, as a derivation of the block grammar.
* `calls_roundTrip`: the calls come back, but for strings that read as JSON.
-/
import Sf37.Server.ParameterText
import Sf37.Server.SchemaOrder

namespace Sf37.Server

open Sf37.Text

/-! ## The order of the arguments -/

/-- The schema order only reorders the arguments. -/
theorem appendArgsInOrder_perm (props : List Bytes) (args : List JsonArg) :
    ∃ args' : List JsonArg, args'.Perm args ∧
      appendArgsInOrder props args = args'.flatMap appendOfficialArg :=
  ⟨_, Run.named_perm JsonArg.key props args, appendArgsInOrder_eq props args⟩

theorem forall₂_mem_left {α β : Type} {r : α → β → Prop} {l : List α} {l' : List β}
    (h : List.Forall₂ r l l') {a : α} (ha : a ∈ l) : ∃ b ∈ l', r a b := by
  induction h with
  | nil => exact absurd ha List.not_mem_nil
  | cons hr _ ih =>
    rcases List.mem_cons.mp ha with rfl | ha
    · exact ⟨_, List.mem_cons_self, hr⟩
    · obtain ⟨b, hb, hab⟩ := ih ha
      exact ⟨b, List.mem_cons_of_mem _ hb, hab⟩

/-! ## The text of a call -/

/-- The parameters that the reader finds in the arguments of a call. -/
def readArgs (args : List JsonArg) : List ToolParam :=
  args.map fun a => officialParam a.key (argText a)

/-- What stands between the tags of an argument does not close it early. -/
theorem argText_ends {a : JsonArg} (h : KeptArg a) : EndsFirst parameterEnd (argText a) := by
  refine parameterEnd_ends ?_
  have hkept := h.2
  split at hkept
  · rename_i hstr
    rw [if_pos hstr]
    exact not_infix_escaped a.value
  · rename_i hstr
    rwa [if_neg hstr]

theorem space_line : Space [0x0a] := fun c hc => by rw [List.mem_singleton.mp hc]; rfl

/-- The arguments up to the end of the function. -/
theorem officialParams_args {args : List JsonArg}
    (hargs : ∀ a ∈ args, a.key ≠ [] ∧ 0x3e ∉ a.key ∧ KeptArg a) (rest : Bytes) :
    OfficialParams ([0x0a] ++ (args.flatMap appendOfficialArg ++ (functionEnd ++ rest)))
      (readArgs args) rest := by
  induction args with
  | nil => exact .done [0x0a] rest space_line
  | cons a args ih =>
    obtain ⟨hne, hgt, hkept⟩ := hargs a List.mem_cons_self
    have hrest := ih fun b hb => hargs b (List.mem_cons_of_mem a hb)
    have hparam := OfficialParams.param [0x0a] a.key (argText a) space_line hne hgt
      (argText_ends hkept) hrest
    have htext : [0x0a] ++ ((a :: args).flatMap appendOfficialArg ++ (functionEnd ++ rest)) =
        [0x0a] ++ (parameterStart ++ (a.key ++ 0x3e :: (argText a ++ parameterEnd ++
          ([0x0a] ++ (args.flatMap appendOfficialArg ++ (functionEnd ++ rest)))))) := by
      simp [appendOfficialArg_eq]
    rw [htext]
    exact hparam

/-! ## What comes back -/

/-- A call whose arguments are a JSON object. -/
structure ObjectCall extends ToolCall where
  members : List (Bytes × Json)
  reads : JsonText serverJson arguments (.obj members)

/-- The name and the keys can stand in a tag. -/
structure ObjectCall.Writable (c : ObjectCall) : Prop where
  name : c.name ≠ [] ∧ 0x3e ∉ c.name
  keys : ∀ m ∈ c.members, m.1 ≠ [] ∧ 0x3e ∉ m.1

/-- The keys and strings are C strings, and the prompt keeps the values. -/
structure ObjectCall.Kept (c : ObjectCall) : Prop where
  nulFree : ∀ m ∈ c.members, NulFree m.1 ∧ ∀ s, m.2 = .str s → NulFree s
  values : ∀ args, jsonArgsParse c.arguments = some args → ∀ a ∈ args, KeptArg a

/-- A text is an object with the same keys, up to their order, and values that compare. -/
def SameObject (same : Json → Json → Prop) (ms : List (Bytes × Json)) (b : Bytes) : Prop :=
  ∃ ms' ms'', ms'.Perm ms ∧ List.Forall₂ (fun m m' => m'.1 = m.1 ∧ same m.2 m'.2) ms' ms'' ∧
    JsonText serverJson b (.obj ms'')

/-- The calls written into a prompt are parsed as the same calls, in their order. -/
def RoundTrips (same : Json → Json → Prop) (calls : List ObjectCall)
    (orders : List ToolSchemaOrder) : Prop :=
  ∃ m, parseGeneratedMessageEx
      (appendOfficialToolCallsText { v := calls.map ObjectCall.toToolCall } orders) false .none =
        some m ∧
    List.Forall₂ (fun c tc => tc.name = c.name ∧ SameObject same c.members tc.arguments) calls
      m.toolCalls.v

/-- The reader finds a value in the argument that the member may be taken for. -/
def ComesBack (a : JsonArg) (m : Bytes × Json) : Prop :=
  m.1 = a.key ∧ ∃ j, GuessedAs m.2 j ∧ (officialParam a.key (argText a)).Stands j

/-- The arguments of a call, as the prompt writer reads them. -/
theorem ObjectCall.parsed {c : ObjectCall} (h : c.Kept) : ∃ args,
    jsonArgsParse c.arguments = some args ∧ List.Forall₂ ComesBack args c.members := by
  obtain ⟨w, t, w', hw, -, harg, hspell⟩ := c.reads
  obtain ⟨members, hin, hms, hparse⟩ := jsonArgsParse_object hspell hw w'
  rw [← harg] at hparse
  refine ⟨_, hparse, ?_⟩
  have hall : ∀ m ∈ members, ComesBack m.arg (m.key, m.value) := by
    intro m hm
    have hmem : (m.key, m.value) ∈ c.members := hms ▸ List.mem_map_of_mem hm
    obtain ⟨hkey, hstr⟩ := h.nulFree _ hmem
    have hkept := h.values _ hparse _ (List.mem_map_of_mem hm)
    obtain ⟨hsame, hback⟩ := member_comesBack (hin m hm) hkept hkey hstr
    exact ⟨hsame.symm, hback⟩
  rw [hms]
  exact List.forall₂_map_left_iff.mpr (List.forall₂_map_right_iff.mpr (List.forall₂_same.mpr hall))

/-- The values of all arguments. -/
theorem comesBack_stands {args : List JsonArg} {ms : List (Bytes × Json)}
    (h : List.Forall₂ ComesBack args ms) :
    ∃ js, List.Forall₂ ToolParam.Stands (readArgs args) js ∧
      List.Forall₂ (fun m m' => m'.1 = m.1 ∧ GuessedAs m.2 m'.2) ms
        (List.zip ((readArgs args).map ToolParam.name) js) := by
  induction h with
  | nil => exact ⟨[], .nil, .nil⟩
  | cons hback _ ih =>
    obtain ⟨hkey, j, hguess, hstands⟩ := hback
    obtain ⟨js, hjs, hms⟩ := ih
    exact ⟨j :: js, .cons hstands hjs, .cons ⟨hkey.symm, hguess⟩ hms⟩

/-- The arguments that the reader writes for a call. -/
theorem toolCall_jsonText {c : ParsedCall} {js : List Json}
    (h : List.Forall₂ ToolParam.Stands c.params js) :
    JsonText serverJson c.toolCall.arguments
      (.obj (List.zip (c.params.map ToolParam.name) js)) := by
  have hmembers : (callMembers c.params js).map (fun m => (m.key, m.value)) =
      List.zip (c.params.map ToolParam.name) js := by
    rw [callMembers, List.map_zipWith, List.zip, List.zipWith_map_left]
    rfl
  have hspell := objectText_spells (callMembers_in h)
  rw [hmembers, ← toolCall_arguments h.length_eq] at hspell
  refine ⟨[], _, [], space_nil, space_nil, ?_, hspell⟩
  rw [List.nil_append, List.append_nil]

/-! ## The text of all calls -/

/-- A parsed call is the call that was written. -/
def ReadsBack (c : ObjectCall) (p : ParsedCall) : Prop :=
  p.name = c.name ∧ SameObject GuessedAs c.members p.toolCall.arguments

/-- The text of one call, in front of anything. -/
theorem officialBlock_call {c : ObjectCall} (hw : c.Writable) (hk : c.Kept)
    (orders : List ToolSchemaOrder) (rest : Bytes) :
    ∃ p, OfficialBlock (appendOfficialToolCall orders c.toToolCall ++ rest) p rest ∧
      ReadsBack c p := by
  obtain ⟨written, hparse, hback⟩ := ObjectCall.parsed hk
  obtain ⟨args, hperm, htext⟩ := appendArgsInOrder_perm
    (((toolSchemaOrdersFind orders c.name).map (·.prop)).getD []) written
  obtain ⟨ms, hms, hpermMs⟩ := List.perm_comp_forall₂ hperm hback
  have hargs : ∀ a ∈ args, a.key ≠ [] ∧ 0x3e ∉ a.key ∧ KeptArg a := by
    intro a ha
    obtain ⟨m, hm, hkey, -⟩ := forall₂_mem_left hms ha
    obtain ⟨hne, hgt⟩ := hw.keys m (hpermMs.subset hm)
    rw [hkey] at hne hgt
    exact ⟨hne, hgt, hk.values _ hparse a (hperm.subset ha)⟩
  refine ⟨{ name := c.name, params := readArgs args }, ?_, rfl, ?_⟩
  · have hblock := OfficialBlock.mk [0x0a] c.name [0x0a] space_line hw.name.1 hw.name.2
      (officialParams_args hargs ([0x0a] ++ (toolCallEnd ++ rest))) space_line
    have hsame : appendOfficialToolCall orders c.toToolCall ++ rest =
        toolCallStart ++ ([0x0a] ++ (functionStart ++ (c.name ++ 0x3e ::
          ([0x0a] ++ (args.flatMap appendOfficialArg ++
            (functionEnd ++ ([0x0a] ++ (toolCallEnd ++ rest)))))))) := by
      have hopen : bytes ">\n" = [0x3e, 0x0a] := by decide
      have hline : bytes "\n" = [0x0a] := by decide
      rw [appendOfficialToolCall, appendOfficialArgumentsFromJson, hparse, Option.map_some, htext]
      simp [hopen, hline]
    rw [hsame]
    exact hblock
  · obtain ⟨js, hjs, hguess⟩ := comesBack_stands hms
    exact ⟨ms, _, hpermMs, hguess, toolCall_jsonText hjs⟩

/-- The text of the calls, one block for each. -/
theorem officialBlocks_calls {calls : List ObjectCall} (hne : calls ≠ [])
    (hcalls : ∀ c ∈ calls, c.Writable ∧ c.Kept) (orders : List ToolSchemaOrder) :
    ∃ ps, OfficialBlocks
        ((calls.map ObjectCall.toToolCall).flatMap (appendOfficialToolCall orders)) ps [] ∧
      List.Forall₂ ReadsBack calls ps := by
  induction calls with
  | nil => exact absurd rfl hne
  | cons c calls ih =>
    obtain ⟨hw, hk⟩ := hcalls c List.mem_cons_self
    obtain ⟨p, hblock, hback⟩ := officialBlock_call hw hk orders
      ((calls.map ObjectCall.toToolCall).flatMap (appendOfficialToolCall orders))
    rw [List.map_cons, List.flatMap_cons]
    by_cases hlast : calls = []
    · subst hlast
      refine ⟨[p], .last [] hblock space_nil (fun _ h => nomatch h) (by decide), ?_⟩
      exact .cons hback .nil
    · obtain ⟨ps, hblocks, hall⟩ := ih hlast fun d hd => hcalls d (List.mem_cons_of_mem c hd)
      exact ⟨p :: ps, .more [] hblock space_nil hblocks, .cons hback hall⟩

/-- Calls written into a prompt are parsed as the same calls, but for strings that read as
JSON. -/
theorem calls_roundTrip {calls : List ObjectCall} (hne : calls ≠ [])
    (hcalls : ∀ c ∈ calls, c.Writable ∧ c.Kept) (orders : List ToolSchemaOrder) :
    RoundTrips GuessedAs calls orders := by
  obtain ⟨ps, hblocks, hback⟩ := officialBlocks_calls hne hcalls orders
  have hraw : rawToolBlockIsOfficial [] = false := by decide
  have htext : appendOfficialToolCallsText { v := calls.map ObjectCall.toToolCall } orders =
      (calls.map ObjectCall.toToolCall).flatMap (appendOfficialToolCall orders) := by
    simp [appendOfficialToolCallsText, hne, hraw]
  unfold RoundTrips
  rw [htext]
  generalize (calls.map ObjectCall.toToolCall).flatMap (appendOfficialToolCall orders) = text
    at hblocks
  have hfind : toolBlockStart text = some (0, .official) := by
    obtain ⟨r, hr⟩ := startsWith_iff.mp hblocks.starts
    have hnone : EndsFirst toolCallStart [] := fun i hi => absurd hi (Nat.not_lt_zero i)
    have hstr := strstr_append (by decide) hnone r
    rw [List.nil_append] at hstr
    rw [toolBlockStart, hr, hstr]
    rfl
  have hread : readToolBlock .official text = some (ps, []) := parseOfficialBlocks_iff.mpr hblocks
  refine ⟨messageWithCalls text .none 0 ps [], ?_, List.forall₂_map_right_iff.mpr hback⟩
  rw [parseGeneratedMessageEx]
  simp only [toolSearchStart, Bool.false_eq_true, if_false, List.drop_zero, hfind, Nat.add_zero,
    hread, Option.map_some]

/-! ## Calls made of members -/

/-- A call of a function with the members of an object. -/
def memberCall (name : Bytes) (ms : List Member) (h : ∀ m ∈ ms, m.In serverJson) : ObjectCall where
  name := name
  arguments := objectText ms
  members := ms.map fun m => (m.key, m.value)
  reads := ⟨[], _, [], space_nil, space_nil, by rw [List.nil_append, List.append_nil],
    objectText_spells h⟩

/-- A member with a string. -/
def stringMember (key value : Bytes) : Member := ⟨escaped key, key, jsonEscape value, .str value⟩

theorem stringMember_in (key value : Bytes) : (stringMember key value).In serverJson := by
  refine ⟨escaped_any key, ?_⟩
  show Spells serverJson (jsonEscape value) (.value (.str value))
  rw [jsonEscape_eq_quoted]
  exact .string (escaped_any value)

/-- A member with a list of a number and a word. -/
def listMember : Member :=
  ⟨escaped (bytes "days"), bytes "days", bytes "[3 ,true]", .arr [.num (bytes "3"), .bool true]⟩

theorem listMember_in : listMember.In serverJson := by
  refine ⟨escaped_any _, ?_⟩
  have hdigits : Digits (bytes "3") := ⟨by decide, List.all_eq_true.mp (by decide)⟩
  have hnumber : serverJson.number (bytes "3") :=
    RfcNumber.accepted ⟨[], bytes "3", [], [], rfl, .inl rfl, .inr ⟨hdigits, by decide⟩, .inl rfl,
      .inl rfl⟩
  have htrue : Spells serverJson (bytes "true") (.value (.bool true)) := .word (by simp [jsonWords])
  have hspace : Space (bytes " ") := fun c hc => List.mem_singleton.mp hc ▸ rfl
  have helements : Spells serverJson (bytes "3" ++ (bytes " " ++ 0x2c :: ([] ++
      (bytes "true" ++ ([] ++ [0x5d]))))) (.elements [.num (bytes "3"), .bool true]) :=
    .nextElement (.number hnumber) hspace space_nil
      (.lastElement htrue space_nil) (.inl (List.cons_ne_nil _ _))
  have hlist := Spells.array (D := serverJson) space_nil helements
  have htext : bytes "[3 ,true]" = 0x5b :: ([] ++ (bytes "3" ++ (bytes " " ++ 0x2c :: ([] ++
      (bytes "true" ++ ([] ++ [0x5d])))))) := by decide
  show Spells serverJson (bytes "[3 ,true]") (.value _)
  rw [htext]
  exact hlist

/-- A call with a string that has tags in it and with a list. -/
def forecastCall : ObjectCall :=
  memberCall (bytes "forecast")
    [stringMember (bytes "city") (bytes "\nBern </parameter> \"x\" <y>"), listMember] (by
      intro m hm
      rcases List.mem_cons.mp hm with rfl | hm
      · exact stringMember_in _ _
      · rw [List.mem_singleton.mp hm]
        exact listMember_in)

/-- A call with a string that reads as a number. -/
def logCall (value : Bytes) : ObjectCall :=
  memberCall (bytes "log") [stringMember (bytes "level") value] fun m hm => by
    rw [List.mem_singleton.mp hm]
    exact stringMember_in _ _

theorem forecastCall_kept : forecastCall.Writable ∧ forecastCall.Kept := by
  have hparse : jsonArgsParse forecastCall.arguments =
      some [⟨bytes "city", bytes "\nBern </parameter> \"x\" <y>", true⟩,
        ⟨bytes "days", bytes "[3,true]", false⟩] := by decide +kernel
  have hcity : ∀ e ∈ xmlEntities, ¬ e.1 <:+: bytes "\nBern </parameter> \"x\" <y>" := by
    decide +kernel
  have hdays : ∀ e ∈ xmlEntities, ¬ e.1 <:+: bytes "[3,true]" := by decide +kernel
  refine ⟨⟨by decide, fun m hm => ?_⟩, fun m hm => ?_, fun args hargs a ha => ?_⟩
  · rcases List.mem_cons.mp hm with rfl | hm
    · decide
    · rw [List.mem_singleton.mp hm]
      decide
  · rcases List.mem_cons.mp hm with rfl | hm
    · refine ⟨by decide, fun s hs => ?_⟩
      obtain rfl := Json.str.inj hs
      decide
    · rw [List.mem_singleton.mp hm]
      exact ⟨by decide, fun s hs => nomatch hs⟩
  · obtain rfl := Option.some.inj (hargs.symm.trans hparse)
    rcases List.mem_cons.mp ha with rfl | ha
    · exact ⟨hcity, by decide⟩
    · rw [List.mem_singleton.mp ha]
      exact ⟨hdays, by decide⟩

theorem logCall_writable (value : Bytes) : (logCall value).Writable where
  name := by
    show bytes "log" ≠ [] ∧ (0x3e : UInt8) ∉ bytes "log"
    decide
  keys := fun m hm => by
    rw [List.mem_singleton.mp hm]
    show bytes "level" ≠ [] ∧ (0x3e : UInt8) ∉ bytes "level"
    decide

theorem logCall_kept : (logCall (bytes "nan")).Kept := by
  have hparse : jsonArgsParse (logCall (bytes "nan")).arguments =
      some [⟨bytes "level", bytes "nan", true⟩] := by decide
  have hfree : ∀ e ∈ xmlEntities, ¬ e.1 <:+: bytes "nan" := by decide
  refine ⟨fun m hm => ?_, fun args hargs a ha => ?_⟩
  · rw [List.mem_singleton.mp hm]
    refine ⟨show NulFree (bytes "level") by decide, fun s hs => ?_⟩
    obtain rfl := Json.str.inj hs
    decide
  · obtain rfl := Option.some.inj (hargs.symm.trans hparse)
    rw [List.mem_singleton.mp ha]
    exact ⟨hfree, by decide⟩

/-- Two calls, with the arguments of the first in the order of its schema. The string `nan` of the
second comes back as the number that the reader takes it for. -/
theorem calls_roundTrip_two :
    RoundTrips GuessedAs [forecastCall, logCall (bytes "nan")]
      [⟨bytes "forecast", [bytes "days", bytes "city"]⟩] := by
  refine calls_roundTrip (List.cons_ne_nil _ _) (fun c hc => ?_) _
  rcases List.mem_cons.mp hc with rfl | hc
  · exact forecastCall_kept
  · rw [List.mem_singleton.mp hc]
    exact ⟨logCall_writable _, logCall_kept⟩

/-- The string `"1"` comes back as a number. -/
theorem not_roundTrips_number : (logCall (bytes "1")).Writable ∧
    ¬ RoundTrips (fun i j => j = i) [logCall (bytes "1")] [] := by
  refine ⟨logCall_writable _, ?_⟩
  rintro ⟨m, hparse, hall⟩
  have hwritten : m.toolCalls.v.map ToolCall.arguments = [bytes "\x7b\"level\":1\x7d"] := by
    have hread : (parseGeneratedMessageEx (appendOfficialToolCallsText
        { v := [(logCall (bytes "1")).toToolCall] } []) false .none).map
          (fun m => m.toolCalls.v.map ToolCall.arguments) =
        some [bytes "\x7b\"level\":1\x7d"] := by decide +kernel
    rw [List.map_singleton] at hparse
    rw [hparse] at hread
    exact Option.some.inj hread
  generalize m.toolCalls.v = written at hall hwritten
  cases hall with
  | cons hcall hrest =>
    cases hrest
    obtain ⟨-, ms, _, hperm, hsame, w, t, w', hw, -, htext, hspell⟩ := hcall
    obtain ⟨members, -, rfl, hargs⟩ := jsonArgsParse_object hspell hw w'
    rw [← htext, List.head_eq_of_cons_eq hwritten] at hargs
    have hnumber : jsonArgsParse (bytes "\x7b\"level\":1\x7d") =
        some [{ key := bytes "level", value := bytes "1", isString := false }] := by decide +kernel
    rw [hnumber] at hargs
    obtain ⟨member, rfl, hmember⟩ := List.map_eq_singleton_iff.mp (Option.some.inj hargs).symm
    obtain rfl := List.perm_singleton.mp hperm
    cases hsame with
    | cons hvalue _ =>
      have hstr : member.value = .str (bytes "1") := hvalue.2
      rw [Member.arg, hstr] at hmember
      exact Bool.noConfusion (congrArg JsonArg.isString hmember)

end Sf37.Server

/-
Sf37.Server.ArgumentsJson — the arguments of the calls sent to a client.

The arguments of a parsed call are written by `tool_call_json_args_add`, read again by
`json_args_parse` and written by `append_json_object_or_empty`. All three take for JSON
what `json_skip_value` takes, so a number, a comma or a byte the RFC does not know goes
through all of them, and text no one takes makes the whole object `{}`.

* `ToolParam.Sendable`: the parameters for which this goes well.
* `delivered_iff`: a call reaches the client as an object of the RFC with all its
  parameters exactly when each of them is sendable.
-/
import Sf37.Server.BlockGrammar
import Sf37.Server.ToolMapWire
import Sf37.Text.JsonMembers

namespace Sf37.Server

open Sf37.Text

/-! ## What a parameter stands for -/

/-- The value text begins with the JSON text `t`, which the server reads as `j`. -/
def ToolParam.BeginsWith (prm : ToolParam) (t : Bytes) (j : Json) : Prop :=
  ∃ w r, prm.value = w ++ (t ++ r) ∧ Space w ∧ Spells serverJson t (.value j) ∧
    jsonSkipValue (t ++ r) = some r

/-- The JSON value of a parameter: what its text begins with, or the text as a string. -/
def ToolParam.Stands (prm : ToolParam) (j : Json) : Prop :=
  if prm.type = bytes "false" then ∃ t, prm.BeginsWith t j else j = .str prm.value

/-- The client is sent an object of the RFC with every parameter of the call, in order. -/
def ParsedCall.Delivered (c : ParsedCall) : Prop :=
  ∃ ms, Spells rfc8259 (appendJsonObjectOrEmpty c.toolCall.arguments) (.value (.obj ms)) ∧
    List.Forall₂ (fun prm m => m.1 = prm.name ∧ prm.Stands m.2) c.params ms

/-! ## Sendable parameters -/

/-- The name is UTF-8, and the value is UTF-8 or begins with JSON that can be sent. -/
def ToolParam.Sendable (prm : ToolParam) : Prop :=
  ValidUtf8 prm.name ∧
    if prm.type = bytes "false" then ∃ t j, prm.BeginsWith t j ∧ SendableText t j
    else ValidUtf8 prm.value

/-! ## The argument buffer -/

/-- The parameter with the value it stands for, as a member of the argument object. -/
def ToolParam.member (prm : ToolParam) (j : Json) : Member where
  body := escaped prm.name
  key := prm.name
  text := prm.json
  value := j

theorem ToolParam.member_bytes (prm : ToolParam) (j : Json) :
    (prm.member j).bytes = jsonEscape prm.name ++ bytes ":" ++ prm.json := by
  have hcolon : bytes ":" = [0x3a] := by decide
  simp [Member.bytes, ToolParam.member, jsonEscape_eq_quoted, hcolon]

/-- The members of a call, when its parameters stand for the given values. -/
def callMembers (params : List ToolParam) (js : List Json) : List Member :=
  List.zipWith ToolParam.member params js

theorem toolCallJsonArgsAdd_eq (b : Bytes) (prm : ToolParam) (j : Json) :
    toolCallJsonArgsAdd b prm = (if b = [] then [] else b ++ [0x2c]) ++ (prm.member j).bytes := by
  have hcomma : bytes "," = [0x2c] := by decide
  rw [ToolParam.member_bytes, toolCallJsonArgsAdd, hcomma]
  simp

theorem Member.bytes_ne_nil (m : Member) : m.bytes ≠ [] := by
  simp [Member.bytes, quoted]

/-- The buffer holds the members with commas between them. -/
theorem foldl_toolCallJsonArgsAdd {params : List ToolParam} {js : List Json}
    (h : params.length = js.length) :
    ∀ b : Bytes, params.foldl toolCallJsonArgsAdd b =
      if params = [] then b
      else (if b = [] then [] else b ++ [0x2c]) ++ membersText (callMembers params js) := by
  induction params generalizing js with
  | nil =>
    intro b
    rfl
  | cons prm params ih =>
    intro b
    match js, h with
    | j :: js, h =>
      have hlen : params.length = js.length := by simpa using h
      have hne : (if b = [] then [] else b ++ [0x2c]) ++ (prm.member j).bytes ≠ [] := by
        simp [Member.bytes_ne_nil]
      rw [List.foldl_cons, toolCallJsonArgsAdd_eq b prm j, ih hlen, if_neg (List.cons_ne_nil _ _)]
      match params, js, hlen with
      | [], [], _ => simp [callMembers, membersText_singleton]
      | prm' :: params, j' :: js, _ =>
        rw [if_neg (List.cons_ne_nil _ _), if_neg hne]
        have hcons := membersText_cons (prm.member j) (prm'.member j') (callMembers params js)
        simp only [callMembers, List.zipWith_cons_cons] at hcons ⊢
        rw [hcons]
        simp

theorem toolCall_arguments {c : ParsedCall} {js : List Json} (h : c.params.length = js.length) :
    c.toolCall.arguments = objectText (callMembers c.params js) := by
  have hopen : bytes "\x7b" = [0x7b] := by decide
  have hclose : bytes "\x7d" = [0x7d] := by decide
  rw [ParsedCall.toolCall]
  simp only [foldl_toolCallJsonArgsAdd h, hopen, hclose]
  cases hparams : c.params with
  | nil => rfl
  | cons prm params => simp [objectText]

/-! ## One parameter -/

theorem ToolParam.BeginsWith.json {prm : ToolParam} {t : Bytes} {j : Json} (h : prm.BeginsWith t j)
    (htype : prm.type = bytes "false") : prm.json = squeezed t := by
  obtain ⟨w, r, hvalue, hw, hspell, hskip⟩ := h
  rw [ToolParam.json, if_pos htype, hvalue, jsonMinifyRawValue_eq hw hspell hskip]

/-- A parameter that stands for a value is a member the server reads as that value. -/
theorem ToolParam.Stands.member_in {prm : ToolParam} {j : Json} (h : prm.Stands j) :
    (prm.member j).In serverJson := by
  refine ⟨escaped_any prm.name, ?_⟩
  rw [ToolParam.Stands] at h
  split at h
  · rename_i htype
    obtain ⟨t, ht⟩ := h
    have hjson : (prm.member j).text = squeezed t := ToolParam.BeginsWith.json ht htype
    obtain ⟨w, r, -, -, hspell, -⟩ := ht
    rw [hjson]
    exact (hspell.squeezes serverJson_tame).2.mono serverJson.tight_le
  · rename_i htype
    have hjson : (prm.member j).text = jsonEscape prm.value := by
      show prm.json = _
      rw [ToolParam.json, if_neg htype]
    rw [hjson, jsonEscape_eq_quoted, h]
    exact .string (escaped_any prm.value)

/-- A value text begins with one JSON text. -/
theorem ToolParam.BeginsWith.text_eq {prm : ToolParam} {t t' : Bytes} {j j' : Json}
    (h : prm.BeginsWith t j) (h' : prm.BeginsWith t' j') : t = t' := by
  obtain ⟨w, r, hvalue, hw, hspell, hskip⟩ := h
  obtain ⟨w', r', hvalue', hw', hspell', hskip'⟩ := h'
  have hstart : jsonWs prm.value = t ++ r := by
    rw [hvalue, jsonWs_append hw (hspell.noSpace serverJson_tame r)]
  have hstart' : jsonWs prm.value = t' ++ r' := by
    rw [hvalue', jsonWs_append hw' (hspell'.noSpace serverJson_tame r')]
  have heq : t ++ r = t' ++ r' := hstart.symm.trans hstart'
  rw [heq, hskip'] at hskip
  obtain rfl : r' = r := Option.some.inj hskip
  exact List.append_cancel_right heq

/-- Whether a text can be sent does not depend on how it was read. -/
theorem sendableText_unique {t : Bytes} {j j' : Json} (h : Spells serverJson t (.value j))
    (h' : Spells serverJson t (.value j')) (hsend : SendableText t j') : j' = j := by
  by_cases hstr : ∃ s', j' = .str s'
  · obtain ⟨s', rfl⟩ := hstr
    obtain ⟨b, rfl, hb⟩ := spells_str h'
    have hj : ∃ s, j = .str s := by
      by_contra hno
      exact spells_not_str serverJson_tame h (fun s hs => hno ⟨s, hs⟩) rfl
    obtain ⟨s, rfl⟩ := hj
    obtain ⟨b', hbb, hb'⟩ := spells_str h
    obtain rfl : b = b' := by simpa [quoted] using hbb
    rw [stringBody_unique hb hb']
  · have hspell : Spells rfc8259.spaced t (.value j') := by
      cases j' with
      | str s => exact absurd ⟨s, rfl⟩ hstr
      | _ => exact hsend
    have hleft := (hspell.squeezes rfc8259_tame.spaced).2.mono rfc8259.tight_le
    exact ((squeezed_rfc_iff h j').mp hleft).1

/-- What can be sent of a text can be sent of what is left of it. -/
theorem sendableText_squeezed {t : Bytes} {j : Json} (h : Spells serverJson t (.value j)) :
    SendableText (squeezed t) j ↔ SendableText t j := by
  have hspaced : Spells rfc8259.spaced (squeezed t) (.value j) ↔
      Spells rfc8259.spaced t (.value j) := by
    constructor
    · intro hs
      have hleft := (hs.squeezes rfc8259_tame.spaced).2.mono rfc8259.tight_le
      rw [(h.squeezed_squeezes serverJson_tame).eq] at hleft
      exact ((squeezed_rfc_iff h j).mp hleft).2
    · intro hs
      have hleft := (hs.squeezes rfc8259_tame.spaced).2.mono rfc8259.tight_le
      exact hleft.mono rfc8259_tame.le_spaced
  cases j with
  | str s => exact Iff.rfl
  | _ => exact hspaced

/-- The written member is one of the RFC with the parameter's value exactly when the
parameter is sendable. -/
theorem ToolParam.Stands.sent_iff {prm : ToolParam} {j : Json} (h : prm.Stands j)
    (hname : NulFree prm.name) (hvalue : NulFree prm.value) :
    ((prm.member j).sent.In rfc8259 ∧ (prm.member j).sent.value = j) ↔ prm.Sendable := by
  have hiff := Member.sent_rfc_iff h.member_in hname
  rw [show (prm.member j).value = j from rfl] at hiff
  rw [hiff, ToolParam.Sendable]
  refine and_congr_right fun _ => ?_
  have hin := h.member_in
  rw [ToolParam.Stands] at h
  split at h
  · rename_i htype
    rw [if_pos htype]
    obtain ⟨t, ht⟩ := h
    have hjson : (prm.member j).text = squeezed t := ToolParam.BeginsWith.json ht htype
    obtain ⟨w, r, hvalue', hw, hspell, hskip⟩ := id ht
    rw [hjson, sendableText_squeezed hspell]
    constructor
    · intro hsend
      exact ⟨t, j, ht, hsend⟩
    · rintro ⟨t', j', ht', hsend⟩
      obtain rfl := ht.text_eq ht'
      obtain ⟨-, -, -, -, hspell', -⟩ := ht'
      obtain rfl := sendableText_unique hspell hspell' hsend
      exact hsend
  · rename_i htype
    rw [if_neg htype]
    subst h
    exact and_iff_left hvalue

/-! ## A parsed call has no NUL -/

theorem nulFree_drop {s : Bytes} (h : NulFree s) (n : Nat) : NulFree (s.drop n) :=
  fun hmem => h (List.mem_of_mem_drop hmem)

theorem nulFree_take {s : Bytes} (h : NulFree s) (n : Nat) : NulFree (s.take n) :=
  fun hmem => h (List.mem_of_mem_take hmem)

theorem xmlUnescapeLoop_nulFree (fuel : Nat) : ∀ {s : Bytes}, NulFree s →
    NulFree (xmlUnescapeLoop fuel s) := by
  have hentity : ∀ e ∈ xmlEntities, e.2 ≠ 0 := by decide
  induction fuel with
  | zero => exact fun _ => List.not_mem_nil
  | succ fuel ih =>
    intro s h
    match s, h with
    | [], _ => exact List.not_mem_nil
    | c :: s, h =>
      rw [xmlUnescapeLoop]
      split
      · rename_i entity x hfind
        have hx : x ≠ 0 := hentity _ (List.mem_of_find?_eq_some hfind)
        exact List.not_mem_cons_of_ne_of_not_mem hx.symm (ih (nulFree_drop h _))
      · have hc : (0 : UInt8) ≠ c := List.ne_of_not_mem_cons h
        exact List.not_mem_cons_of_ne_of_not_mem hc (ih (List.not_mem_of_not_mem_cons h))

theorem xmlUnescapeText_nulFree {s : Bytes} (h : NulFree s) : NulFree (xmlUnescapeText s) :=
  xmlUnescapeLoop_nulFree _ h

theorem trimOfficialParameterValue_nulFree {s : Bytes} (h : NulFree s) :
    NulFree (trimOfficialParameterValue s) := by
  have hend : ∀ {s : Bytes}, NulFree s →
      NulFree (if bytes "\r\n" <:+ s then s.take (s.length - 2)
        else if bytes "\n" <:+ s then s.take (s.length - 1) else s) := by
    intro s h
    split
    · exact nulFree_take h _
    · split
      · exact nulFree_take h _
      · exact h
  unfold trimOfficialParameterValue
  simp only
  split
  · exact hend (nulFree_drop h 2)
  · split
    · exact hend (nulFree_drop h 1)
    · exact hend h

theorem officialParam_nulFree {name value : Bytes} (hname : NulFree name)
    (hvalue : NulFree value) :
    NulFree (officialParam name value).name ∧ NulFree (officialParam name value).value :=
  ⟨hname, xmlUnescapeText_nulFree (trimOfficialParameterValue_nulFree hvalue)⟩

theorem dsmlAttrLoop_nulFree {tag name : Bytes} (htag : NulFree tag) (fuel : Nat) :
    ∀ {p : Nat} {v : Bytes}, dsmlAttrLoop tag name fuel p = some v → NulFree v := by
  induction fuel with
  | zero =>
    intro p v h
    cases h
  | succ fuel ih =>
    intro p v h
    rw [dsmlAttrLoop] at h
    split at h
    · cases h
    · simp only at h
      split at h
      · split at h
        · obtain ⟨e, -, rfl⟩ := Option.map_eq_some_iff.mp h
          exact xmlUnescapeText_nulFree (nulFree_take (nulFree_drop htag _) _)
        · exact ih h
      · exact ih h

theorem dsmlParam_nulFree {tag name value : Bytes} (hname : NulFree name)
    (hvalue : NulFree value) :
    NulFree (dsmlParam tag name value).name ∧ NulFree (dsmlParam tag name value).value := by
  refine ⟨hname, ?_⟩
  rw [dsmlParam]
  simp only
  split
  · exact xmlUnescapeText_nulFree hvalue
  · exact hvalue

/-- The names and the values of the parameters have no NUL. -/
def ParamsNulFree (params : List ToolParam) : Prop :=
  ∀ prm ∈ params, NulFree prm.name ∧ NulFree prm.value

theorem ParamsNulFree.cons {prm : ToolParam} {params : List ToolParam}
    (h : NulFree prm.name ∧ NulFree prm.value) (hrest : ParamsNulFree params) :
    ParamsNulFree (prm :: params) := by
  intro q hq
  rcases List.mem_cons.mp hq with rfl | hq
  · exact h
  · exact hrest q hq

theorem OfficialParams.nulFree {p : Bytes} {params : List ToolParam} {rest : Bytes}
    (h : OfficialParams p params rest) (hp : NulFree p) :
    ParamsNulFree params ∧ NulFree rest := by
  induction h with
  | done w rest _ =>
    simp only [nulFree_append] at hp
    exact ⟨fun prm hprm => absurd hprm List.not_mem_nil, hp.2.2⟩
  | param w name value _ _ _ _ _ ih =>
    rw [← List.singleton_append] at hp
    simp only [nulFree_append] at hp
    obtain ⟨-, -, hname, -, ⟨hvalue, -⟩, hrest⟩ := hp
    obtain ⟨hparams, hend⟩ := ih hrest
    exact ⟨.cons (officialParam_nulFree hname hvalue) hparams, hend⟩

theorem OfficialBlock.nulFree {p : Bytes} {c : ParsedCall} {rest : Bytes}
    (h : OfficialBlock p c rest) (hp : NulFree p) : ParamsNulFree c.params ∧ NulFree rest := by
  cases h with
  | mk w₁ name w₂ _ _ _ hparams _ =>
    rw [← List.singleton_append] at hp
    simp only [nulFree_append] at hp
    obtain ⟨-, -, -, -, -, hbody⟩ := hp
    obtain ⟨hfree, hend⟩ := OfficialParams.nulFree hparams hbody
    simp only [nulFree_append] at hend
    exact ⟨hfree, hend.2.2⟩

theorem OfficialBlocks.nulFree {p : Bytes} {cs : List ParsedCall} {rest : Bytes}
    (h : OfficialBlocks p cs rest) (hp : NulFree p) : ∀ c ∈ cs, ParamsNulFree c.params := by
  induction h with
  | last w hblock _ _ _ =>
    intro c hc
    obtain rfl := List.mem_singleton.mp hc
    exact (OfficialBlock.nulFree hblock hp).1
  | more w hblock _ _ ih =>
    intro c hc
    obtain ⟨hfree, hrest⟩ := OfficialBlock.nulFree hblock hp
    rcases List.mem_cons.mp hc with rfl | hc
    · exact hfree
    · exact ih (nulFree_append.mp hrest).2 c hc

theorem DsmlParams.nulFree {style : DsmlStyle} {p : Bytes} {params : List ToolParam}
    {rest : Bytes} (h : DsmlParams style p params rest) (hp : NulFree p) :
    ParamsNulFree params ∧ NulFree rest := by
  induction h with
  | done w rest _ =>
    simp only [nulFree_append] at hp
    exact ⟨fun prm hprm => absurd hprm List.not_mem_nil, hp.2.2⟩
  | param w attrs name value _ _ hattr _ _ ih =>
    rw [← List.singleton_append] at hp
    simp only [nulFree_append] at hp
    obtain ⟨-, hstart, hattrs, hclose, ⟨hvalue, -⟩, hrest⟩ := hp
    obtain ⟨hparams, hend⟩ := ih hrest
    have hname : NulFree name := dsmlAttrLoop_nulFree
      (nulFree_append.mpr ⟨nulFree_append.mpr ⟨hstart, hattrs⟩, hclose⟩) _ hattr
    exact ⟨.cons (dsmlParam_nulFree hname hvalue) hparams, hend⟩

theorem DsmlInvokes.nulFree {style : DsmlStyle} {p : Bytes} {cs : List ParsedCall} {rest : Bytes}
    (h : DsmlInvokes style p cs rest) (hp : NulFree p) : ∀ c ∈ cs, ParamsNulFree c.params := by
  induction h with
  | done w rest _ => exact fun c hc => absurd hc List.not_mem_nil
  | invoke w attrs name _ _ _ hparams _ ih =>
    intro c hc
    rw [← List.singleton_append] at hp
    simp only [nulFree_append] at hp
    obtain ⟨-, -, -, -, hbody⟩ := hp
    obtain ⟨hfree, hrest⟩ := DsmlParams.nulFree hparams hbody
    rcases List.mem_cons.mp hc with rfl | hc
    · exact hfree
    · exact ih hrest c hc

theorem ToolBlock.nulFree {form : BlockForm} {p : Bytes} {cs : List ParsedCall} {rest : Bytes}
    (h : ToolBlock form p cs rest) (hp : NulFree p) : ∀ c ∈ cs, ParamsNulFree c.params := by
  cases form with
  | official => exact OfficialBlocks.nulFree h hp
  | dsml style =>
    obtain ⟨a, q, rfl, -, hinvokes⟩ := h
    exact DsmlInvokes.nulFree hinvokes (nulFree_append.mp hp).2

/-- The calls of a parsed text without NUL. -/
theorem parseGeneratedMessageEx_nulFree {text : Bytes} {closed : Bool} {think : ThinkMode}
    {m : ParsedMessage} (hn : NulFree text)
    (h : parseGeneratedMessageEx text closed think = some m) :
    ∀ c ∈ m.calls, ParamsNulFree c.params := by
  have hnone : ∀ c ∈ (messageWithoutCalls text think).calls, ParamsNulFree c.params :=
    fun c hc => absurd hc List.not_mem_nil
  unfold parseGeneratedMessageEx at h
  split at h
  · cases h
    exact hnone
  · split at h
    · cases h
      exact hnone
    · rename_i hstart
      obtain ⟨⟨cs, rest⟩, hread, rfl⟩ := Option.map_eq_some_iff.mp h
      have hblock := (readToolBlock_iff (toolBlockStart_some hstart).1).mp hread
      exact ToolBlock.nulFree hblock (nulFree_drop hn _)

/-! ## Delivery -/

theorem callMembers_in {params : List ToolParam} {js : List Json}
    (h : List.Forall₂ ToolParam.Stands params js) :
    ∀ m ∈ callMembers params js, m.In serverJson := by
  induction h with
  | nil => exact fun m hm => absurd hm List.not_mem_nil
  | cons hj _ ih =>
    intro m hm
    rcases List.mem_cons.mp hm with rfl | hm
    · exact hj.member_in
    · exact ih m hm

/-- The written members are of the RFC with the parameters' values exactly when every
parameter is sendable. -/
theorem callMembers_sent_iff {params : List ToolParam} {js : List Json}
    (h : List.Forall₂ ToolParam.Stands params js) (hn : ParamsNulFree params) :
    ((∀ m ∈ (callMembers params js).map Member.sent, m.In rfc8259) ∧
      List.zip (params.map ToolParam.name) js =
        ((callMembers params js).map Member.sent).map fun m => (m.key, m.value)) ↔
      ∀ prm ∈ params, prm.Sendable := by
  induction h with
  | nil => simp [callMembers]
  | @cons prm j params js hj hrest ih =>
    obtain ⟨hname, hvalue⟩ := hn prm List.mem_cons_self
    have hone := hj.sent_iff hname hvalue
    have hkey : (prm.member j).sent.key = prm.name := cstr_iff.mpr hname
    have hall := ih fun q hq => hn q (List.mem_cons_of_mem prm hq)
    simp only [callMembers, List.zipWith_cons_cons, List.map_cons, List.forall_mem_cons,
      List.zip_cons_cons, List.cons.injEq, Prod.mk.injEq, hkey, true_and] at hall ⊢
    rw [← hone, ← hall]
    constructor
    · rintro ⟨⟨hin, hins⟩, hval, hvals⟩
      exact ⟨⟨hin, hval.symm⟩, hins, hvals⟩
    · rintro ⟨⟨hin, hval⟩, hins, hvals⟩
      exact ⟨⟨hin, hins⟩, hval.symm, hvals⟩

/-- What is sent of the arguments, when the parameters stand for values. -/
theorem appendJsonObjectOrEmpty_arguments {c : ParsedCall} {js : List Json}
    (h : List.Forall₂ ToolParam.Stands c.params js) :
    appendJsonObjectOrEmpty c.toolCall.arguments =
      objectText ((callMembers c.params js).map Member.sent) := by
  rw [toolCall_arguments h.length_eq, appendJsonObjectOrEmpty_objectText (callMembers_in h)]

theorem callMembers_sent_in {params : List ToolParam} {js : List Json}
    (h : List.Forall₂ ToolParam.Stands params js) :
    ∀ m ∈ (callMembers params js).map Member.sent, m.In serverJson ∧ m.Tight := by
  intro m hm
  obtain ⟨m', hm', rfl⟩ := List.mem_map.mp hm
  exact Member.sent_in (callMembers_in h m' hm')

/-- Names and values put together again. -/
theorem forall₂_zip {params : List ToolParam} {ms : List (Bytes × Json)} :
    List.Forall₂ (fun prm m => m.1 = prm.name ∧ prm.Stands m.2) params ms ↔
      ∃ js, List.Forall₂ ToolParam.Stands params js ∧
        ms = List.zip (params.map ToolParam.name) js := by
  constructor
  · intro h
    induction h with
    | nil => exact ⟨[], .nil, rfl⟩
    | @cons prm m params ms hm _ ih =>
      obtain ⟨js, hjs, rfl⟩ := ih
      refine ⟨m.2 :: js, .cons hm.2 hjs, ?_⟩
      rw [List.map_cons, List.zip_cons_cons, ← hm.1]
  · rintro ⟨js, hjs, rfl⟩
    induction hjs with
    | nil => exact .nil
    | cons hj _ ih => exact .cons ⟨rfl, hj⟩ ih

/-- A sendable parameter stands for a value. -/
theorem ToolParam.Sendable.stands {prm : ToolParam} (h : prm.Sendable) : ∃ j, prm.Stands j := by
  obtain ⟨-, h⟩ := h
  unfold ToolParam.Stands
  split at h
  · rename_i htype
    obtain ⟨t, j, ht, -⟩ := h
    exact ⟨j, by rw [if_pos htype]; exact ⟨t, ht⟩⟩
  · rename_i htype
    exact ⟨.str prm.value, by rw [if_neg htype]⟩

theorem exists_stands {params : List ToolParam} (h : ∀ prm ∈ params, prm.Sendable) :
    ∃ js, List.Forall₂ ToolParam.Stands params js := by
  induction params with
  | nil => exact ⟨[], .nil⟩
  | cons prm params ih =>
    obtain ⟨j, hj⟩ := (h prm List.mem_cons_self).stands
    obtain ⟨js, hjs⟩ := ih fun q hq => h q (List.mem_cons_of_mem prm hq)
    exact ⟨j :: js, .cons hj hjs⟩

/-- A call without NUL is delivered exactly when each of its parameters is sendable. -/
theorem delivered_of_sendable {c : ParsedCall} (hn : ParamsNulFree c.params) :
    c.Delivered ↔ ∀ prm ∈ c.params, prm.Sendable := by
  constructor
  · rintro ⟨ms, hspell, hall⟩
    obtain ⟨js, hjs, rfl⟩ := forall₂_zip.mp hall
    rw [appendJsonObjectOrEmpty_arguments hjs,
      objectText_rfc_iff (callMembers_sent_in hjs)] at hspell
    exact (callMembers_sent_iff hjs hn).mp hspell
  · intro h
    obtain ⟨js, hjs⟩ := exists_stands h
    refine ⟨List.zip (c.params.map ToolParam.name) js, ?_, forall₂_zip.mpr ⟨js, hjs, rfl⟩⟩
    rw [appendJsonObjectOrEmpty_arguments hjs, objectText_rfc_iff (callMembers_sent_in hjs)]
    exact (callMembers_sent_iff hjs hn).mpr h

/-- In every text that parses, the arguments of a call are sent as an object of the RFC
that has all its parameters exactly when each of them is sendable. -/
theorem delivered_iff {text : Bytes} {closed : Bool} {think : ThinkMode} {m : ParsedMessage}
    (hn : NulFree text) (h : parseGeneratedMessageEx text closed think = some m) :
    ∀ c ∈ m.calls, c.Delivered ↔ ∀ prm ∈ c.params, prm.Sendable :=
  fun c hc => delivered_of_sendable (parseGeneratedMessageEx_nulFree hn h c hc)

/-! ## A call that is sent and one that is not -/

/-- A call with one parameter of the official form. -/
def officialCallText (value : String) : Bytes :=
  bytes "<tool_call><function=f><parameter=a>" ++ bytes value ++
    bytes "</parameter></function></tool_call>"

/-- The call of such a text. -/
def officialCall (value : String) : ParsedCall where
  name := bytes "f"
  params := [officialParam (bytes "a") (bytes value)]

/-- What the parser makes of such a text. -/
def officialMessage (value : String) : ParsedMessage where
  content := []
  reasoning := some []
  calls := [officialCall value]
  rawDsml := some (officialCallText value)

/-- A number that no double holds is one of the RFC, and is sent as it is. -/
theorem delivered_iff_overflow : (officialCall "1e999").Delivered := by
  have hparse : parseGeneratedMessageEx (officialCallText "1e999") false .none =
      some (officialMessage "1e999") := by decide +kernel
  have htype : (officialParam (bytes "a") (bytes "1e999")).type = bytes "false" := by decide +kernel
  have htext : (officialParam (bytes "a") (bytes "1e999")).value = bytes "1e999" := by
    decide +kernel
  have hskip : jsonSkipValue (bytes "1e999") = some [] := by decide +kernel
  have hnumber : RfcNumber (bytes "1e999") := by
    have hone : Digits (bytes "1") := ⟨by decide, List.all_eq_true.mp (by decide)⟩
    have hnines : Digits (bytes "999") := ⟨by decide, List.all_eq_true.mp (by decide)⟩
    have hint : RfcInt (bytes "1") := .inr ⟨hone, by decide⟩
    have hexp : RfcExp (bytes "e999") :=
      .inr ⟨0x65, [], bytes "999", by decide, .inl rfl, .inl rfl, hnines⟩
    exact ⟨[], bytes "1", [], bytes "e999", by decide, .inl rfl, hint, .inl rfl, hexp⟩
  refine (delivered_iff (by decide) hparse _ List.mem_cons_self).mpr fun prm hprm => ?_
  rw [List.mem_singleton.mp hprm, ToolParam.Sendable, if_pos htype]
  refine ⟨validUtf8_nil.cons_ascii (b := 0x61) (by decide), bytes "1e999", .num (bytes "1e999"),
    ⟨[], [], by rw [htext]; rfl, space_nil, .number hnumber.accepted, hskip⟩, ?_⟩
  exact .number hnumber

/-- No number of the RFC begins with a plus sign. -/
theorem not_rfcNumber_plus (t : Bytes) : ¬ RfcNumber (0x2b :: t) := by
  intro h
  obtain ⟨c, r, heq, hc⟩ := h.head
  cases heq
  exact absurd hc (by decide)

/-- A JSON text that begins with a plus sign cannot be sent. -/
theorem not_sendable_plus {t : Bytes} {j : Json}
    (h : Spells serverJson (0x2b :: t) (.value j)) : ¬ SendableText (0x2b :: t) j := by
  intro hsend
  have hspaced : Spells rfc8259.spaced (0x2b :: t) (.value j) := by
    cases j with
    | str s =>
      obtain ⟨b, hb, -⟩ := spells_str h
      exact absurd (List.cons.inj hb).1 (by decide)
    | _ => exact hsend
  rcases hspaced.value_cases rfc8259_tame.spaced with ⟨hbad, -⟩ | ⟨hbad, -⟩ | ⟨hbad, -⟩ |
    ⟨hbad, -⟩ | ⟨-, -, hn⟩
  · exact absurd hbad (by decide)
  · exact absurd hbad (by decide)
  · exact absurd hbad (by decide)
  · exact absurd hbad (by decide)
  · exact not_rfcNumber_plus t hn

/-- A value that begins with a plus sign and reads as JSON cannot be sent. -/
theorem not_sendable_of_plus {prm : ToolParam} {v : Bytes} (htype : prm.type = bytes "false")
    (hvalue : prm.value = 0x2b :: v) : ¬ prm.Sendable := by
  rintro ⟨-, h⟩
  rw [if_pos htype] at h
  obtain ⟨t, j, ⟨w, r, hcut, hw, hspell, -⟩, hsend⟩ := h
  rw [hvalue] at hcut
  obtain rfl := space_eq_nil hw (hcut ▸ noSpace_cons (by decide) _)
  obtain ⟨c, t, rfl, -⟩ := hspell.head serverJson_tame
  obtain rfl : (0x2b : UInt8) = c := (List.cons.inj hcut).1
  exact not_sendable_plus hspell hsend

theorem officialCall_nulFree (value : String)
    (h : NulFree (officialParam (bytes "a") (bytes value)).value) :
    ParamsNulFree (officialCall value).params := by
  intro prm hprm
  obtain rfl := List.mem_singleton.mp hprm
  have hname : NulFree (bytes "a") := by decide
  exact ⟨hname, h⟩

/-- The value `+1` passes for a number and is sent as it is. -/
theorem not_delivered_plus : ∃ m,
    parseGeneratedMessageEx (officialCallText "+1") false .none = some m ∧
      ∃ c ∈ m.calls, ¬ c.Delivered := by
  have hparse : parseGeneratedMessageEx (officialCallText "+1") false .none =
      some (officialMessage "+1") := by decide +kernel
  have htype : (officialParam (bytes "a") (bytes "+1")).type = bytes "false" := by decide +kernel
  have htext : (officialParam (bytes "a") (bytes "+1")).value = [0x2b, 0x31] := by decide
  have hfree := officialCall_nulFree "+1" (by rw [htext]; decide)
  have hnot := mt (delivered_of_sendable hfree).mp
    fun h => not_sendable_of_plus htype htext (h _ List.mem_cons_self)
  exact ⟨_, hparse, _, List.mem_cons_self, hnot⟩

end Sf37.Server

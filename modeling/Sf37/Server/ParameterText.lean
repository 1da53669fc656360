/-
Sf37.Server.ParameterText — an argument as the prompt has it, and as it is read again.

The prompt has a string as it is, but for `</parameter>`, and any other value as its
minified JSON. The reader cannot tell the two apart: it takes what reads as JSON for JSON.

* `xmlUnescapeText_escaped`: the reader undoes the escaper on a text without entities.
* `KeptArg`: the arguments the prompt keeps; `officialParam_kept`: what they are read as.
-/
import Sf37.Server.ToolResults
import Sf37.Server.ArgumentsJson
import Sf37.Text.JsonArgs

namespace Sf37.Server

open Sf37.Text

/-! ## Entities -/

/-- No entity stands in the text. -/
def EntityFree (s : Bytes) : Prop := ∀ e ∈ xmlEntities, ¬ e.1 <:+: s

theorem EntityFree.tail {c : UInt8} {s : Bytes} (h : EntityFree (c :: s)) : EntityFree s :=
  fun e he hin => h e he (List.infix_cons hin)

theorem EntityFree.find_none {s : Bytes} (h : EntityFree s) :
    xmlEntities.find? (fun e => startsWith s e.1) = none := by
  refine List.find?_eq_none.mpr fun e he hstart => h e he ?_
  obtain ⟨r, rfl⟩ := startsWith_iff.mp hstart
  exact (List.prefix_append e.1 r).isInfix

/-- An entity has more bytes than the one it stands for. -/
theorem xmlEntities_length {e : Bytes × UInt8} (h : e ∈ xmlEntities) : 0 < e.1.length := by
  revert e
  decide

/-- More fuel than bytes changes nothing. -/
theorem xmlUnescapeLoop_fuel (fuel : Nat) :
    ∀ {s : Bytes}, s.length ≤ fuel → xmlUnescapeLoop fuel s = xmlUnescapeText s := by
  have hall : ∀ n fuel (s : Bytes), s.length ≤ n → n ≤ fuel →
      xmlUnescapeLoop fuel s = xmlUnescapeLoop n s := by
    intro n
    induction n with
    | zero =>
      intro fuel s hs _
      obtain rfl := List.length_eq_zero_iff.mp (Nat.le_zero.mp hs)
      cases fuel <;> rfl
    | succ n ih =>
      intro fuel s hs hfuel
      obtain ⟨fuel, rfl⟩ : ∃ k, fuel = k + 1 := ⟨fuel - 1, by omega⟩
      cases s with
      | nil => rfl
      | cons c s =>
        rw [xmlUnescapeLoop, xmlUnescapeLoop]
        rw [List.length_cons] at hs
        cases hfind : xmlEntities.find? (fun e => startsWith (c :: s) e.1) with
        | none =>
          dsimp only
          rw [ih fuel s (by omega) (by omega)]
        | some e =>
          have hpos := xmlEntities_length (List.mem_of_find?_eq_some hfind)
          dsimp only
          rw [ih fuel _ (by simp; omega) (by omega)]
  intro s hs
  exact hall s.length fuel s (Nat.le_refl _) hs

theorem xmlUnescapeText_cons {c : UInt8} {s : Bytes}
    (h : xmlEntities.find? (fun e => startsWith (c :: s) e.1) = none) :
    xmlUnescapeText (c :: s) = c :: xmlUnescapeText s := by
  rw [xmlUnescapeText, List.length_cons, xmlUnescapeLoop, h]
  rfl

theorem xmlUnescapeText_lt (s : Bytes) :
    xmlUnescapeText (bytes "&lt;" ++ s) = 0x3c :: xmlUnescapeText s := by
  have hlt : bytes "&lt;" = [0x26, 0x6c, 0x74, 0x3b] := by decide
  have hfind : xmlEntities.find? (fun e => startsWith (bytes "&lt;" ++ s) e.1) =
      some (bytes "&lt;", 0x3c) := by
    rw [xmlEntities, List.find?_cons_of_pos]
    exact startsWith_iff.mpr ⟨s, rfl⟩
  rw [hlt] at hfind ⊢
  rw [xmlUnescapeText, List.cons_append, List.length_cons, xmlUnescapeLoop, ← List.cons_append,
    hfind]
  exact congrArg _ (xmlUnescapeLoop_fuel _ (by simp; omega))

theorem xmlUnescapeText_of_entityFree {s : Bytes} (h : EntityFree s) : xmlUnescapeText s = s := by
  induction s with
  | nil => rfl
  | cons c s ih => rw [xmlUnescapeText_cons h.find_none, ih h.tail]

/-- What an entity begins with, and that its rest has neither of the two bytes that the
escaper looks at or writes. -/
theorem xmlEntities_spec {e : Bytes × UInt8} (h : e ∈ xmlEntities) :
    ∃ w, e.1 = 0x26 :: w ∧ 0x3c ∉ w ∧ 0x26 ∉ w := by
  simp only [xmlEntities, List.mem_cons, List.not_mem_nil, or_false] at h
  rcases h with rfl | rfl | rfl | rfl
  · exact ⟨bytes "lt;", rfl, by decide, by decide⟩
  · exact ⟨bytes "gt;", rfl, by decide, by decide⟩
  · exact ⟨bytes "amp;", rfl, by decide, by decide⟩
  · exact ⟨bytes "quot;", rfl, by decide, by decide⟩

theorem parameterEnd_guarded : ∀ t ∈ [parameterEnd], Guarded 0x3c t := by decide

/-- The reader undoes the escaper. -/
theorem xmlUnescapeText_escaped {s : Bytes} (h : EntityFree s) :
    xmlUnescapeText (appendOfficialParameterText s) = s := by
  unfold appendOfficialParameterText
  induction s with
  | nil => rfl
  | cons c s ih =>
    rw [escapeTags]
    split
    · rename_i htag
      obtain ⟨t, ht, hstart⟩ := List.any_eq_true.mp htag
      obtain ⟨r, hr⟩ := startsWith_iff.mp hstart
      rw [List.mem_singleton.mp ht] at hr
      have hc : c = 0x3c := (List.cons.inj hr).1
      rw [xmlUnescapeText_lt, ih h.tail, hc]
    · have hfind : xmlEntities.find?
          (fun e => startsWith (c :: escapeTags [parameterEnd] s) e.1) = none := by
        refine List.find?_eq_none.mpr fun e he hstart => ?_
        obtain ⟨w, hw, hlt, hamp⟩ := xmlEntities_spec he
        obtain ⟨r, hr⟩ := startsWith_iff.mp hstart
        rw [hw, List.cons_append] at hr
        obtain ⟨rfl, hrest⟩ := List.cons.inj hr
        have hprefix : w <+: s :=
          (isPrefix_escapeTags parameterEnd_guarded hlt hamp).mp ⟨r, hrest.symm⟩
        obtain ⟨r', rfl⟩ := hprefix
        refine h e he ?_
        rw [hw]
        exact (List.prefix_append (0x26 :: w) r').isInfix
      rw [List.singleton_append, xmlUnescapeText_cons hfind, ih h.tail]

/-! ## The value between its tags -/

/-- The value of an argument between its tags. -/
def argText (a : JsonArg) : Bytes :=
  0x0a :: ((if a.isString then appendOfficialParameterText a.value else a.value) ++ [0x0a])

theorem appendOfficialArg_eq (a : JsonArg) :
    appendOfficialArg a = parameterStart ++ (a.key ++ 0x3e :: (argText a ++ parameterEnd ++ [0x0a])) := by
  have hopen : bytes ">\n" = [0x3e, 0x0a] := by decide
  have hline : bytes "\n" = [0x0a] := by decide
  simp [appendOfficialArg, argText, hopen, hline]

/-- The line breaks around a value are taken away, and nothing else. -/
theorem trimOfficialParameterValue_lines {v : Bytes} (h : v.getLast? ≠ some 0x0d) :
    trimOfficialParameterValue (0x0a :: (v ++ [0x0a])) = v := by
  have hcr : bytes "\r\n" = [0x0d, 0x0a] := by decide
  have hline : bytes "\n" = [0x0a] := by decide
  have hstart : startsWith (0x0a :: (v ++ [0x0a])) [0x0d, 0x0a] = false := by
    simp [startsWith, List.cons_prefix_cons]
  have hstart' : startsWith (0x0a :: (v ++ [0x0a])) [0x0a] = true :=
    startsWith_iff.mpr ⟨v ++ [0x0a], rfl⟩
  have hend : ¬ [0x0d, 0x0a] <:+ v ++ [0x0a] := by
    rintro ⟨u, hu⟩
    have hv : u ++ [0x0d] = v := by
      have hu' : (u ++ [0x0d]) ++ [0x0a] = v ++ [0x0a] := by simpa using hu
      exact List.append_cancel_right hu'
    exact h (by rw [← hv, List.getLast?_concat])
  rw [trimOfficialParameterValue, hcr, hline]
  simp [hstart, hstart', hend]

/-- A tag that stands in no place of a text is first found behind it. -/
theorem endsFirst_of_not_infix {o : UInt8} {n a : Bytes} (g : Guarded o n) (h : ¬ n <:+: a) :
    EndsFirst n a := by
  intro i hi hocc
  have hself : OccursAt n (a ++ n) a.length := by
    rw [OccursAt, List.drop_left]
  have hle := g.disjoint g hocc hself hi
  rw [OccursAt, List.drop_append_of_le_length (Nat.le_of_lt hi)] at hocc
  have hn : n <+: a.drop i :=
    List.prefix_of_prefix_length_le hocc (List.prefix_append _ _) (by simp; omega)
  exact h (hn.isInfix.trans (List.drop_suffix i a).isInfix)

/-- A byte that is not of the pattern can stand around the text. -/
theorem infix_lines {n v : Bytes} {c : UInt8} (hn : n ≠ []) (hc : c ∉ n)
    (h : n <:+: c :: (v ++ [c])) : n <:+: v := by
  rcases List.infix_cons_iff.mp h with hp | h
  · obtain ⟨r, hr⟩ := hp
    cases n with
    | nil => exact absurd rfl hn
    | cons x n =>
      rw [List.cons_append] at hr
      rw [(List.cons.inj hr).1] at hc
      exact absurd List.mem_cons_self hc
  · rcases List.infix_concat_iff.mp h with hs | h
    · rcases List.suffix_concat_iff.mp hs with hnil | ⟨t, rfl, -⟩
      · exact absurd hnil hn
      · exact absurd (by simp) hc
    · exact h

theorem parameterEnd_ends {v : Bytes} (h : ¬ parameterEnd <:+: v) :
    EndsFirst parameterEnd (0x0a :: (v ++ [0x0a])) := by
  have g : Guarded 0x3c parameterEnd := parameterEnd_guarded _ (List.mem_singleton.mpr rfl)
  exact endsFirst_of_not_infix g fun hin => h (infix_lines g.ne_nil (by decide) hin)

/-- No closing tag is left of an escaped text. -/
theorem not_infix_escaped (s : Bytes) : ¬ parameterEnd <:+: appendOfficialParameterText s := by
  have hmem : parameterEnd ∈ [parameterEnd] := List.mem_singleton.mpr rfl
  have hzero := countOcc_escapeTags_mem parameterEnd_guarded hmem (by decide) s
  have hne : parameterEnd ≠ [] := by decide
  exact (countOcc_eq_zero_iff hne).mp hzero

/-- The escaper leaves what a text ends with. -/
theorem getLast?_escaped {s : Bytes} (h : s.getLast? ≠ some 0x0d) :
    (appendOfficialParameterText s).getLast? ≠ some 0x0d := by
  unfold appendOfficialParameterText
  induction s with
  | nil => exact h
  | cons c s ih =>
    rw [escapeTags]
    cases s with
    | nil =>
      rw [escapeTags, List.append_nil]
      split
      · decide
      · exact h
    | cons d s =>
      have hne : escapeTags [parameterEnd] (d :: s) ≠ [] := by
        rw [escapeTags]
        refine List.append_ne_nil_of_left_ne_nil ?_ _
        split
        · decide
        · exact List.cons_ne_nil _ _
      rw [List.getLast?_append_of_ne_nil _ hne]
      exact ih (by rwa [List.getLast?_cons_cons] at h)

/-! ## What the prompt keeps -/

/-- An argument the prompt keeps: no entity and no carriage return at the end of a string,
no entity and no closing tag in other JSON. -/
def KeptArg (a : JsonArg) : Prop :=
  EntityFree a.value ∧
    if a.isString then a.value.getLast? ≠ some 0x0d else ¬ parameterEnd <:+: a.value

/-- What a value comes back as: a string that reads as JSON is taken for the value it
spells. -/
def GuessedAs : Json → Json → Prop
  | .str s, j => if rawTextIsJsonValue s then JsonText serverJson s j else j = .str s
  | i, j => j = i

/-- The value that the reader takes out of an argument. -/
theorem officialParam_value {a : JsonArg} (h : KeptArg a) (hcr : a.value.getLast? ≠ some 0x0d) :
    officialParam a.key (argText a) =
      { name := a.key
        value := a.value
        type := if rawTextIsJsonValue a.value then bytes "false" else bytes "true" } := by
  have hvalue : xmlUnescapeText (trimOfficialParameterValue (argText a)) = a.value := by
    unfold argText
    split
    · rw [trimOfficialParameterValue_lines (getLast?_escaped hcr), xmlUnescapeText_escaped h.1]
    · rw [trimOfficialParameterValue_lines hcr, xmlUnescapeText_of_entityFree h.1]
  rw [officialParam, hvalue]

/-- What reads as JSON stands for the value it spells. -/
theorem stands_of_rawTextIsJsonValue {name value : Bytes} (h : rawTextIsJsonValue value = true) :
    ∃ j, JsonText serverJson value j ∧
      ToolParam.Stands { name, value, type := bytes "false" } j := by
  unfold rawTextIsJsonValue at h
  dsimp only at h
  split at h
  · nomatch h
  · split at h
    · nomatch h
    · rename_i r hskip
      obtain ⟨w, t, j, hvalue, hw, hr, hspell, hrest⟩ :=
        jsonSkipValue_jsonText hskip (of_decide_eq_true h)
      refine ⟨j, ⟨w, t, r, hw, hr, hvalue, hspell⟩, ?_⟩
      rw [ToolParam.Stands, if_pos rfl]
      exact ⟨t, w, r, hvalue, hw, hspell, hrest⟩

/-- JSON without white space around it reads as JSON. -/
theorem rawTextIsJsonValue_squeezed {t : Bytes} {j : Json}
    (h : Spells serverJson t (.value j)) : rawTextIsJsonValue t = true := by
  have hws : jsonWs t = t := by
    have hself := jsonWs_append space_nil (h.noSpace serverJson_tame [])
    simpa using hself
  have hskip : jsonSkipValue t = some [] := by
    simpa using h.jsonSkipValue space_nil stops_nil
  rw [rawTextIsJsonValue, hws]
  simp [h.ne_nil serverJson_tame, hskip, jsonWs, skipAsciiWs]

/-- A string comes back as it is, or as the value it spells. -/
theorem string_comesBack {name s : Bytes}
    (hkept : KeptArg { key := name, value := s, isString := true }) :
    ∃ j, GuessedAs (.str s) j ∧
      (officialParam name (argText { key := name, value := s, isString := true })).Stands j := by
  rw [officialParam_value hkept hkept.2]
  dsimp only
  by_cases hread : rawTextIsJsonValue s = true
  · obtain ⟨j, hj, hstands⟩ := @stands_of_rawTextIsJsonValue name s hread
    refine ⟨j, ?_, ?_⟩
    · rw [GuessedAs, if_pos hread]
      exact hj
    · rwa [if_pos hread]
  · refine ⟨.str s, ?_, ?_⟩
    · rw [GuessedAs, if_neg hread]
    · have htype : ¬ bytes "true" = bytes "false" := by decide
      rw [if_neg hread, ToolParam.Stands, if_neg htype]

/-- Any other value comes back as it is. -/
theorem value_comesBack {name v : Bytes} {i : Json} (hspell : Spells serverJson v (.value i))
    (hkept : KeptArg { key := name, value := squeezed v, isString := false }) :
    (officialParam name (argText { key := name, value := squeezed v, isString := false })).Stands
      i := by
  have htight : Spells serverJson (squeezed v) (.value i) :=
    (hspell.squeezes serverJson_tame).2.mono serverJson.tight_le
  rw [officialParam_value hkept (htight.getLast?_ne serverJson_tame)]
  dsimp only
  rw [if_pos (rawTextIsJsonValue_squeezed htight), ToolParam.Stands, if_pos rfl]
  have hskip : jsonSkipValue (squeezed v ++ []) = some [] :=
    htight.jsonSkipValue space_nil stops_nil
  exact ⟨squeezed v, [], [], by simp, space_nil, htight, hskip⟩

/-- A member of the arguments and what it is read as again. -/
theorem member_comesBack {m : Member} (hin : m.In serverJson) (hkept : KeptArg m.arg)
    (hkey : NulFree m.key) (hstr : ∀ s, m.value = .str s → NulFree s) :
    m.arg.key = m.key ∧ ∃ j, GuessedAs m.value j ∧
      (officialParam m.arg.key (argText m.arg)).Stands j := by
  obtain ⟨b, k, v, i⟩ := m
  have hk : cstr k = k := cstr_iff.mpr hkey
  cases i with
  | str s =>
    have hs : cstr s = s := cstr_iff.mpr (hstr s rfl)
    have harg : Member.arg ⟨b, k, v, .str s⟩ = { key := k, value := s, isString := true } := by
      rw [Member.arg, argOf, hk, hs]
    rw [harg] at hkept ⊢
    exact ⟨rfl, string_comesBack hkept⟩
  | _ =>
    refine ⟨hk, _, rfl, ?_⟩
    exact value_comesBack hin.2 hkept

end Sf37.Server

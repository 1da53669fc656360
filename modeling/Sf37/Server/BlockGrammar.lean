/-
Sf37.Server.BlockGrammar — the grammar of tool blocks, and that the parser
accepts exactly it.

The grammar relates a text to the calls its beginning writes and to the rest
behind them, piece by piece: white space, a tag, a name up to the next `>`, a
value up to the first closing tag. There is one relation for each loop of the
parser, official and DSML.

* `parseOfficialBlocks_iff`, `parseDsmlBlock_iff`: a read succeeds with some
  calls and some rest exactly when the grammar relates them. The grammar is
  unambiguous for that reason.
* `ToolBlock`: either form; `readToolBlock_iff`.
* `toolBlockStart_some`, `toolBlockStart_none`: the place the parser chooses is an opener, up to line
  breaks before it, and there is such a place exactly when there is an opener.
-/
import Sf37.Server.ParseGenerated

namespace Sf37.Server

open Sf37.Text

/-! ## The tags -/

/-- Every tag the parser reads begins with `<`, so with no white space. -/
theorem noSpace_of_head (lit : Bytes) (h : lit.head? = some 0x3c) (r : Bytes) :
    NoSpace (lit ++ r) := by
  cases lit with
  | nil => simp at h
  | cons c lit =>
    intro d hd
    obtain rfl : c = 0x3c := by simpa using h
    obtain rfl : (0x3c : UInt8) = d := by simpa using hd
    decide

/-- Two tags neither of which begins the other cannot both begin a text. -/
theorem startsWith_disjoint {m n r : Bytes} (hmn : ¬ m <+: n) (hnm : ¬ n <+: m) :
    startsWith (m ++ r) n = false := by
  rw [startsWith, decide_eq_false_iff_not]
  intro h
  exact (List.prefix_or_prefix_of_prefix h (List.prefix_append m r)).elim hnm hmn

/-! ## The official form -/

/-- Parameters up to and with `</function>`. -/
inductive OfficialParams : Bytes → List ToolParam → Bytes → Prop where
  | done (w rest : Bytes) : Space w → OfficialParams (w ++ (functionEnd ++ rest)) [] rest
  | param (w name value : Bytes) {p : Bytes} {params : List ToolParam} {rest : Bytes} :
      Space w → name ≠ [] → 0x3e ∉ name → EndsFirst parameterEnd value →
      OfficialParams p params rest →
      OfficialParams (w ++ (parameterStart ++ (name ++ 0x3e :: (value ++ parameterEnd ++ p))))
        (officialParam name value :: params) rest

/-- One `<tool_call>` block. -/
inductive OfficialBlock : Bytes → ParsedCall → Bytes → Prop where
  | mk (w₁ name w₂ : Bytes) {p : Bytes} {params : List ToolParam} {rest : Bytes} :
      Space w₁ → name ≠ [] → 0x3e ∉ name →
      OfficialParams p params (w₂ ++ (toolCallEnd ++ rest)) → Space w₂ →
      OfficialBlock (toolCallStart ++ (w₁ ++ (functionStart ++ (name ++ 0x3e :: p))))
        { name, params } rest

/-- Adjacent blocks, with the white space after the last. -/
inductive OfficialBlocks : Bytes → List ParsedCall → Bytes → Prop where
  | last {p : Bytes} {c : ParsedCall} (w : Bytes) {rest : Bytes} :
      OfficialBlock p c (w ++ rest) → Space w → NoSpace rest →
      startsWith rest toolCallStart = false → OfficialBlocks p [c] rest
  | more {p : Bytes} {c : ParsedCall} (w : Bytes) {q : Bytes} {cs : List ParsedCall}
      {rest : Bytes} :
      OfficialBlock p c (w ++ q) → Space w → OfficialBlocks q cs rest →
      OfficialBlocks p (c :: cs) rest

theorem parseOfficialParameter_iff {p : Bytes} {prm : ToolParam} {rest : Bytes} :
    parseOfficialParameter (parameterStart ++ p) = some (prm, rest) ↔
      ∃ name value, p = name ++ 0x3e :: (value ++ parameterEnd ++ rest) ∧ name ≠ [] ∧
        0x3e ∉ name ∧ EndsFirst parameterEnd value ∧ prm = officialParam name value := by
  have hne : parameterEnd ≠ [] := by decide
  unfold parseOfficialParameter
  dsimp only
  rw [List.drop_left]
  constructor
  · intro h
    split at h
    · simp at h
    · simp at h
    · rename_i k hk
      obtain ⟨name, q, rfl, hlen, hgt⟩ := strchr_eq_some_iff.mp hk
      rw [List.take_left' hlen, show k + 2 = (name ++ [0x3e]).length by simp [hlen],
        show name ++ 0x3e :: q = (name ++ [0x3e]) ++ q by simp, List.drop_left] at h
      simp only [Option.map_eq_some_iff, Prod.mk.injEq] at h
      obtain ⟨e, he, rfl, rfl⟩ := h
      obtain ⟨value, r, rfl, rfl, hfirst⟩ := (strstr_eq_some_iff hne).mp he
      refine ⟨name, value, ?_, ?_, hgt, hfirst, ?_⟩
      · rw [← List.length_append, List.drop_left]
      · rintro rfl; simp at hlen
      · rw [List.append_assoc, List.take_left]
  · rintro ⟨name, value, rfl, hname, hgt, hfirst, rfl⟩
    obtain ⟨k, hk⟩ : ∃ k, name.length = k + 1 :=
      ⟨name.length - 1, by have := List.length_pos_iff.mpr hname; omega⟩
    rw [strchr_append hgt, hk]
    simp only
    rw [List.take_left' hk, show k + 2 = (name ++ [0x3e]).length by simp [hk],
      show name ++ 0x3e :: (value ++ parameterEnd ++ rest) =
        (name ++ [0x3e]) ++ (value ++ parameterEnd ++ rest) by simp, List.drop_left,
      strstr_append hne hfirst]
    simp only [Option.map_some, Option.some.injEq, Prod.mk.injEq]
    refine ⟨?_, ?_⟩
    · rw [List.append_assoc, List.take_left]
    · rw [← List.length_append, List.drop_left]

/-- A read of official parameters follows the grammar. -/
theorem parseOfficialParameters_sound : ∀ (fuel : Nat) {p : Bytes} {params : List ToolParam}
    {rest : Bytes}, parseOfficialParameters fuel p = some (params, rest) →
      OfficialParams p params rest
  | 0, _, _, _, h => by simp [parseOfficialParameters] at h
  | fuel + 1, p, params, rest, h => by
      obtain ⟨w, hp, hw, -⟩ := skipAsciiWs_spec p
      rw [parseOfficialParameters] at h
      dsimp only at h
      split at h
      · rename_i hend
        obtain ⟨r, hr⟩ := startsWith_iff.mp hend
        rw [hr, List.drop_left] at h
        obtain ⟨rfl, rfl⟩ : [] = params ∧ r = rest := by simpa using h
        rw [hp, hr]
        exact .done w r hw
      · split at h
        · rename_i hstart
          obtain ⟨q, hq⟩ := startsWith_iff.mp hstart
          rw [hq] at h
          split at h
          · simp at h
          · rename_i prm r hprm
            obtain ⟨name, value, rfl, hname, hgt, hfirst, rfl⟩ :=
              parseOfficialParameter_iff.mp hprm
            simp only [Option.map_eq_some_iff, Prod.mk.injEq] at h
            obtain ⟨⟨ps, r'⟩, hrec, rfl, rfl⟩ := h
            rw [hp, hq]
            exact .param w name value hw hname hgt hfirst (parseOfficialParameters_sound fuel hrec)
        · simp at h

/-- With enough fuel the read finds what the grammar derives. -/
theorem parseOfficialParameters_complete {p : Bytes} {params : List ToolParam} {rest : Bytes}
    (h : OfficialParams p params rest) : ∀ fuel, p.length < fuel →
      parseOfficialParameters fuel p = some (params, rest) := by
  induction h with
  | done w rest hw =>
    intro fuel hf
    obtain ⟨n, rfl⟩ : ∃ n, fuel = n + 1 := ⟨fuel - 1, by omega⟩
    rw [parseOfficialParameters, skipAsciiWs_append hw (noSpace_of_head _ (by decide) _)]
    simp only [startsWith_append, if_true, List.drop_left]
  | @param w name value p params rest hw hname hgt hfirst _ ih =>
    intro fuel hf
    obtain ⟨n, rfl⟩ : ∃ n, fuel = n + 1 := ⟨fuel - 1, by omega⟩
    rw [parseOfficialParameters, skipAsciiWs_append hw (noSpace_of_head _ (by decide) _)]
    simp only [startsWith_append, startsWith_disjoint (m := parameterStart) (n := functionEnd)
      (by decide) (by decide), Bool.false_eq_true, if_false, if_true]
    rw [parseOfficialParameter_iff.mpr ⟨name, value, rfl, hname, hgt, hfirst, rfl⟩]
    simp only
    rw [ih n (by simp at hf; omega)]
    rfl

theorem OfficialParams.length_lt {p : Bytes} {params : List ToolParam} {rest : Bytes}
    (h : OfficialParams p params rest) : rest.length < p.length := by
  have hend : 0 < functionEnd.length := by decide
  induction h with
  | done => simp; omega
  | param => simp; omega

theorem parseOfficialToolCallBlock_iff {p : Bytes} {c : ParsedCall} {rest : Bytes} :
    parseOfficialToolCallBlock p = some (c, rest) ↔ OfficialBlock p c rest := by
  unfold parseOfficialToolCallBlock
  constructor
  · intro h
    split at h
    · rename_i hs
      obtain ⟨q, rfl⟩ := startsWith_iff.mp hs
      dsimp only at h
      rw [List.drop_left] at h
      obtain ⟨w₁, hq, hw₁, -⟩ := skipAsciiWs_spec q
      split at h
      · rename_i hf
        obtain ⟨r, hr⟩ := startsWith_iff.mp hf
        rw [hr, List.drop_left] at h
        split at h
        · simp at h
        · simp at h
        · rename_i k hk
          obtain ⟨name, body, rfl, hlen, hgt⟩ := strchr_eq_some_iff.mp hk
          rw [List.take_left' hlen, show k + 2 = (name ++ [0x3e]).length by simp [hlen],
            show name ++ 0x3e :: body = (name ++ [0x3e]) ++ body by simp, List.drop_left] at h
          split at h
          · simp at h
          · rename_i params r2 hparams
            obtain ⟨w₂, hr2, hw₂, -⟩ := skipAsciiWs_spec r2
            split at h
            · rename_i hend
              obtain ⟨r3, hr3⟩ := startsWith_iff.mp hend
              rw [hr3, List.drop_left] at h
              obtain ⟨rfl, rfl⟩ : { name, params : ParsedCall } = c ∧ r3 = rest := by
                simpa using h
              rw [hq, hr]
              refine .mk w₁ name w₂ hw₁ ?_ hgt ?_ hw₂
              · rintro rfl; simp at hlen
              · rw [← hr3, ← hr2]
                exact parseOfficialParameters_sound _ hparams
            · simp at h
      · simp at h
    · simp at h
  · rintro ⟨w₁, name, w₂, hw₁, hname, hgt, hparams, hw₂⟩
    obtain ⟨k, hk⟩ : ∃ k, name.length = k + 1 :=
      ⟨name.length - 1, by have := List.length_pos_iff.mpr hname; omega⟩
    rename_i body params
    simp only [startsWith_append, if_true, List.drop_left,
      skipAsciiWs_append hw₁ (noSpace_of_head functionStart (by decide) _)]
    rw [strchr_append hgt, hk]
    simp only
    rw [List.take_left' hk, show k + 2 = (name ++ [0x3e]).length by simp [hk],
      show name ++ 0x3e :: body = (name ++ [0x3e]) ++ body by simp, List.drop_left,
      parseOfficialParameters_complete hparams _ (Nat.lt_succ_self _)]
    simp only [startsWith_append, if_true, List.drop_left,
      skipAsciiWs_append hw₂ (noSpace_of_head toolCallEnd (by decide) _)]

theorem OfficialBlock.length_lt {p : Bytes} {c : ParsedCall} {rest : Bytes}
    (h : OfficialBlock p c rest) : rest.length < p.length := by
  obtain ⟨w₁, name, w₂, -, -, -, hparams, -⟩ := h
  have := hparams.length_lt
  simp at this ⊢
  omega

theorem OfficialBlock.starts {p : Bytes} {c : ParsedCall} {rest : Bytes}
    (h : OfficialBlock p c rest) : startsWith p toolCallStart = true := by
  obtain ⟨w₁, name, w₂, -, -, -, hparams, -⟩ := h
  exact startsWith_append _ _

theorem OfficialBlocks.starts {p : Bytes} {cs : List ParsedCall} {rest : Bytes}
    (h : OfficialBlocks p cs rest) : startsWith p toolCallStart = true := by
  cases h with
  | last w hb => exact hb.starts
  | more w hb => exact hb.starts

/-- The block loop accepts exactly the grammar. -/
theorem parseOfficialBlocks_sound : ∀ (fuel : Nat) {p : Bytes} {cs : List ParsedCall}
    {rest : Bytes}, parseOfficialBlocks fuel p = some (cs, rest) → OfficialBlocks p cs rest
  | 0, _, _, _, h => by simp [parseOfficialBlocks] at h
  | fuel + 1, p, cs, rest, h => by
      rw [parseOfficialBlocks] at h
      split at h
      · simp at h
      · rename_i tc q htc
        have hblock := parseOfficialToolCallBlock_iff.mp htc
        obtain ⟨w, hq, hw, hns⟩ := skipAsciiWs_spec q
        rw [hq] at hblock
        dsimp only at h
        split at h
        · simp only [Option.map_eq_some_iff, Prod.mk.injEq] at h
          obtain ⟨⟨tcs, r⟩, hrec, rfl, rfl⟩ := h
          exact .more w hblock hw (parseOfficialBlocks_sound fuel hrec)
        · rename_i hmore
          obtain ⟨rfl, rfl⟩ : [tc] = cs ∧ skipAsciiWs q = rest := by simpa using h
          exact .last w hblock hw hns (by simpa using hmore)

theorem parseOfficialBlocks_complete {p : Bytes} {cs : List ParsedCall} {rest : Bytes}
    (h : OfficialBlocks p cs rest) : ∀ fuel, p.length < fuel →
      parseOfficialBlocks fuel p = some (cs, rest) := by
  induction h with
  | last w hblock hw hns hstart =>
    intro fuel hf
    obtain ⟨n, rfl⟩ : ∃ n, fuel = n + 1 := ⟨fuel - 1, by omega⟩
    rw [parseOfficialBlocks, parseOfficialToolCallBlock_iff.mpr hblock]
    simp only [skipAsciiWs_append hw hns, hstart, Bool.false_eq_true, if_false]
  | @more p c w q cs rest hblock hw hrest ih =>
    intro fuel hf
    obtain ⟨n, rfl⟩ : ∃ n, fuel = n + 1 := ⟨fuel - 1, by omega⟩
    have hstart := hrest.starts
    have hns : NoSpace q := by
      obtain ⟨r, rfl⟩ := startsWith_iff.mp hstart
      exact noSpace_of_head _ (by decide) r
    have hlen := hblock.length_lt
    rw [List.length_append] at hlen
    rw [parseOfficialBlocks, parseOfficialToolCallBlock_iff.mpr hblock]
    simp only [skipAsciiWs_append hw hns, hstart, if_true]
    rw [ih n (by omega)]
    rfl

theorem parseOfficialBlocks_iff {p : Bytes} {cs : List ParsedCall} {rest : Bytes} :
    parseOfficialBlocks (p.length + 1) p = some (cs, rest) ↔ OfficialBlocks p cs rest :=
  ⟨parseOfficialBlocks_sound _, fun h => parseOfficialBlocks_complete h _ (Nat.lt_succ_self _)⟩

/-! ## The DSML form -/

/-- The tags of a style can be told apart by their beginnings. -/
structure DsmlStyle.Distinct (style : DsmlStyle) : Prop where
  start_head : style.toolCallsStart.head? = some 0x3c
  end_head : style.toolCallsEnd.head? = some 0x3c
  invoke_head : style.invokeStart.head? = some 0x3c
  invokeEnd_head : style.invokeEnd.head? = some 0x3c
  param_head : style.paramStart.head? = some 0x3c
  paramEnd_ne : style.paramEnd ≠ []
  invoke_open : 0x3e ∉ style.invokeStart
  param_open : 0x3e ∉ style.paramStart
  invoke_end : ¬ style.invokeStart <+: style.toolCallsEnd ∧
    ¬ style.toolCallsEnd <+: style.invokeStart
  param_end : ¬ style.paramStart <+: style.invokeEnd ∧
    ¬ style.invokeEnd <+: style.paramStart

theorem DsmlStyle.Distinct.start_ne {style : DsmlStyle} (h : style.Distinct) :
    style.toolCallsStart ≠ [] := by
  intro hnil
  simpa [hnil] using h.start_head

theorem dsmlStyle_distinct {style : DsmlStyle}
    (h : style = dsmlStyleLong ∨ style = dsmlStyleShort ∨ style = dsmlStylePlain) :
    style.Distinct := by
  rcases h with rfl | rfl | rfl <;> constructor <;> decide

/-- Parameters up to and with the closing tag of the call. -/
inductive DsmlParams (style : DsmlStyle) : Bytes → List ToolParam → Bytes → Prop where
  | done (w rest : Bytes) : Space w → DsmlParams style (w ++ (style.invokeEnd ++ rest)) [] rest
  | param (w attrs name value : Bytes) {p : Bytes} {params : List ToolParam} {rest : Bytes} :
      Space w → 0x3e ∉ attrs →
      dsmlAttr (style.paramStart ++ attrs ++ [0x3e]) (bytes "name") = some name →
      EndsFirst style.paramEnd value → DsmlParams style p params rest →
      DsmlParams style
        (w ++ (style.paramStart ++ (attrs ++ 0x3e :: (value ++ style.paramEnd ++ p))))
        (dsmlParam (style.paramStart ++ attrs ++ [0x3e]) name value :: params) rest

/-- Calls up to and with the closing tag of the block. -/
inductive DsmlInvokes (style : DsmlStyle) : Bytes → List ParsedCall → Bytes → Prop where
  | done (w rest : Bytes) : Space w →
      DsmlInvokes style (w ++ (style.toolCallsEnd ++ rest)) [] rest
  | invoke (w attrs name : Bytes) {p q : Bytes} {params : List ToolParam}
      {cs : List ParsedCall} {rest : Bytes} :
      Space w → 0x3e ∉ attrs →
      dsmlAttr (style.invokeStart ++ attrs ++ [0x3e]) (bytes "name") = some name →
      DsmlParams style p params q → DsmlInvokes style q cs rest →
      DsmlInvokes style (w ++ (style.invokeStart ++ (attrs ++ 0x3e :: p)))
        ({ name, params } :: cs) rest

/-- A block from where it was found: its opener may stand behind line breaks. -/
def DsmlBlock (style : DsmlStyle) (p : Bytes) (cs : List ParsedCall) (rest : Bytes) : Prop :=
  ∃ a q, p = a ++ style.toolCallsStart ++ q ∧ EndsFirst style.toolCallsStart a ∧
    DsmlInvokes style q cs rest

/-- The tag that begins a text with a given opening: up to the first `>`. -/
theorem strchr_tag {start attrs : Bytes} (hs : 0x3e ∉ start) (ha : 0x3e ∉ attrs) (p : Bytes) :
    strchr (start ++ (attrs ++ 0x3e :: p)) 0x3e = some (start ++ attrs).length ∧
      (start ++ (attrs ++ 0x3e :: p)).take ((start ++ attrs).length + 1) =
        start ++ attrs ++ [0x3e] ∧
      (start ++ (attrs ++ 0x3e :: p)).drop ((start ++ attrs).length + 1) = p := by
  have hmem : 0x3e ∉ start ++ attrs := by simp [hs, ha]
  refine ⟨?_, ?_, ?_⟩
  · rw [← List.append_assoc]
    exact strchr_append hmem p
  · rw [show start ++ (attrs ++ 0x3e :: p) = (start ++ attrs ++ [0x3e]) ++ p by simp]
    exact List.take_left' (by simp; omega)
  · rw [show start ++ (attrs ++ 0x3e :: p) = (start ++ attrs ++ [0x3e]) ++ p by simp]
    exact List.drop_left' (by simp; omega)

/-- A text that begins with an opening without `>` and has a `>` is a tag and a
rest. -/
theorem tag_of_strchr {start r : Bytes} {k : Nat} (hs : 0x3e ∉ start)
    (h : strchr (start ++ r) 0x3e = some k) :
    ∃ attrs p, r = attrs ++ 0x3e :: p ∧ 0x3e ∉ attrs ∧ k = (start ++ attrs).length := by
  obtain ⟨a, b, hab, rfl, hgt⟩ := strchr_eq_some_iff.mp h
  have hle : start.length ≤ a.length := by
    rcases Nat.lt_or_ge a.length start.length with hlt | hge
    · refine absurd (List.mem_of_getElem? (l := start) (i := a.length) ?_) hs
      have hget : (start ++ r)[a.length]? = start[a.length]? := List.getElem?_append_left hlt
      rw [← hget, hab]
      simp
    · exact hge
  obtain ⟨attrs, rfl⟩ : start <+: a :=
    List.prefix_of_prefix_length_le ⟨r, hab⟩ (List.prefix_append a (0x3e :: b)) hle
  rw [List.append_assoc, List.append_cancel_left_eq] at hab
  exact ⟨attrs, b, hab, fun hm => hgt (by simp [hm]), rfl⟩

theorem parseDsmlParameter_iff {style : DsmlStyle} (hd : style.Distinct) {p : Bytes}
    {prm : ToolParam} {rest : Bytes} :
    parseDsmlParameter style (style.paramStart ++ p) = some (prm, rest) ↔
      ∃ attrs name value, p = attrs ++ 0x3e :: (value ++ style.paramEnd ++ rest) ∧
        0x3e ∉ attrs ∧
        dsmlAttr (style.paramStart ++ attrs ++ [0x3e]) (bytes "name") = some name ∧
        EndsFirst style.paramEnd value ∧
        prm = dsmlParam (style.paramStart ++ attrs ++ [0x3e]) name value := by
  unfold parseDsmlParameter
  constructor
  · intro h
    split at h
    · simp at h
    · rename_i k hk
      obtain ⟨attrs, q, rfl, ha, rfl⟩ := tag_of_strchr hd.param_open hk
      obtain ⟨-, htake, hdrop⟩ := strchr_tag hd.param_open ha q
      dsimp only at h
      rw [htake, hdrop] at h
      split at h
      · simp at h
      · rename_i name hname
        simp only [Option.map_eq_some_iff, Prod.mk.injEq] at h
        obtain ⟨e, he, rfl, rfl⟩ := h
        obtain ⟨value, r, rfl, rfl, hfirst⟩ := (strstr_eq_some_iff hd.paramEnd_ne).mp he
        refine ⟨attrs, name, value, ?_, ha, hname, hfirst, ?_⟩
        · rw [← List.length_append, List.drop_left]
        · rw [List.append_assoc value, List.take_left]
  · rintro ⟨attrs, name, value, rfl, ha, hname, hfirst, rfl⟩
    obtain ⟨hk, htake, hdrop⟩ := strchr_tag hd.param_open ha (value ++ style.paramEnd ++ rest)
    rw [hk]
    simp only
    rw [htake, hdrop, hname]
    simp only [strstr_append hd.paramEnd_ne hfirst, Option.map_some, Option.some.injEq,
      Prod.mk.injEq]
    refine ⟨?_, ?_⟩
    · rw [List.append_assoc value, List.take_left]
    · rw [← List.length_append, List.drop_left]

/-- A read of DSML parameters follows the grammar. -/
theorem parseDsmlParameters_sound {style : DsmlStyle} (hd : style.Distinct) :
    ∀ (fuel : Nat) {p : Bytes} {params : List ToolParam} {rest : Bytes},
      parseDsmlParameters style fuel p = some (params, rest) → DsmlParams style p params rest
  | 0, _, _, _, h => by simp [parseDsmlParameters] at h
  | fuel + 1, p, params, rest, h => by
      obtain ⟨w, hp, hw, -⟩ := skipAsciiWs_spec p
      rw [parseDsmlParameters] at h
      dsimp only at h
      split at h
      · rename_i hend
        obtain ⟨r, hr⟩ := startsWith_iff.mp hend
        rw [hr, List.drop_left] at h
        obtain ⟨rfl, rfl⟩ : [] = params ∧ r = rest := by simpa using h
        rw [hp, hr]
        exact .done w r hw
      · split at h
        · rename_i hstart
          obtain ⟨q, hq⟩ := startsWith_iff.mp hstart
          rw [hq] at h
          split at h
          · simp at h
          · rename_i prm r hprm
            obtain ⟨attrs, name, value, rfl, ha, hname, hfirst, rfl⟩ :=
              (parseDsmlParameter_iff hd).mp hprm
            simp only [Option.map_eq_some_iff, Prod.mk.injEq] at h
            obtain ⟨⟨ps, r'⟩, hrec, rfl, rfl⟩ := h
            rw [hp, hq]
            exact .param w attrs name value hw ha hname hfirst
              (parseDsmlParameters_sound hd fuel hrec)
        · simp at h

theorem parseDsmlParameters_complete {style : DsmlStyle} (hd : style.Distinct) {p : Bytes}
    {params : List ToolParam} {rest : Bytes} (h : DsmlParams style p params rest) :
    ∀ fuel, p.length < fuel → parseDsmlParameters style fuel p = some (params, rest) := by
  induction h with
  | done w rest hw =>
    intro fuel hf
    obtain ⟨n, rfl⟩ : ∃ n, fuel = n + 1 := ⟨fuel - 1, by omega⟩
    rw [parseDsmlParameters, skipAsciiWs_append hw (noSpace_of_head _ hd.invokeEnd_head _)]
    simp only [startsWith_append, if_true, List.drop_left]
  | @param w attrs name value p params rest hw ha hname hfirst _ ih =>
    intro fuel hf
    obtain ⟨n, rfl⟩ : ∃ n, fuel = n + 1 := ⟨fuel - 1, by omega⟩
    rw [parseDsmlParameters, skipAsciiWs_append hw (noSpace_of_head _ hd.param_head _)]
    simp only [startsWith_append, startsWith_disjoint hd.param_end.1 hd.param_end.2,
      Bool.false_eq_true, if_false, if_true]
    rw [(parseDsmlParameter_iff hd).mpr ⟨attrs, name, value, rfl, ha, hname, hfirst, rfl⟩]
    simp only
    rw [ih n (by simp at hf; omega)]
    rfl

theorem DsmlParams.length_lt {style : DsmlStyle} (hd : style.Distinct) {p : Bytes}
    {params : List ToolParam} {rest : Bytes} (h : DsmlParams style p params rest) :
    rest.length < p.length := by
  have hend : 0 < style.invokeEnd.length := by
    cases hl : style.invokeEnd with
    | nil => simpa [hl] using hd.invokeEnd_head
    | cons => simp
  induction h with
  | done => simp; omega
  | param => simp; omega

/-- A read of DSML calls follows the grammar. -/
theorem parseDsmlInvokes_sound {style : DsmlStyle} (hd : style.Distinct) :
    ∀ (fuel : Nat) {p : Bytes} {cs : List ParsedCall} {rest : Bytes},
      parseDsmlInvokes style fuel p = some (cs, rest) → DsmlInvokes style p cs rest
  | 0, _, _, _, h => by simp [parseDsmlInvokes] at h
  | fuel + 1, p, cs, rest, h => by
      obtain ⟨w, hp, hw, -⟩ := skipAsciiWs_spec p
      rw [parseDsmlInvokes] at h
      dsimp only at h
      split at h
      · rename_i hend
        obtain ⟨r, hr⟩ := startsWith_iff.mp hend
        rw [hr, List.drop_left] at h
        obtain ⟨rfl, rfl⟩ : [] = cs ∧ r = rest := by simpa using h
        rw [hp, hr]
        exact .done w r hw
      · split at h
        · rename_i hstart
          obtain ⟨q, hq⟩ := startsWith_iff.mp hstart
          rw [hq] at h
          split at h
          · simp at h
          · rename_i tc r htc
            simp only [Option.map_eq_some_iff, Prod.mk.injEq] at h
            obtain ⟨⟨tcs, r'⟩, hrec, rfl, rfl⟩ := h
            unfold parseDsmlInvoke at htc
            split at htc
            · simp at htc
            · rename_i k hk
              obtain ⟨attrs, body, rfl, ha, rfl⟩ := tag_of_strchr hd.invoke_open hk
              obtain ⟨-, htake, hdrop⟩ := strchr_tag hd.invoke_open ha body
              rw [htake, hdrop] at htc
              split at htc
              · simp at htc
              · rename_i name hname
                simp only [Option.map_eq_some_iff, Prod.mk.injEq] at htc
                obtain ⟨⟨params, r2⟩, hparams, rfl, rfl⟩ := htc
                rw [hp, hq]
                exact .invoke w attrs name hw ha hname (parseDsmlParameters_sound hd _ hparams)
                  (parseDsmlInvokes_sound hd fuel hrec)
        · simp at h

theorem parseDsmlInvokes_complete {style : DsmlStyle} (hd : style.Distinct) {p : Bytes}
    {cs : List ParsedCall} {rest : Bytes} (h : DsmlInvokes style p cs rest) :
    ∀ fuel, p.length < fuel → parseDsmlInvokes style fuel p = some (cs, rest) := by
  induction h with
  | done w rest hw =>
    intro fuel hf
    obtain ⟨n, rfl⟩ : ∃ n, fuel = n + 1 := ⟨fuel - 1, by omega⟩
    rw [parseDsmlInvokes, skipAsciiWs_append hw (noSpace_of_head _ hd.end_head _)]
    simp only [startsWith_append, if_true, List.drop_left]
  | @invoke w attrs name p q params cs rest hw ha hname hparams _ ih =>
    intro fuel hf
    obtain ⟨n, rfl⟩ : ∃ n, fuel = n + 1 := ⟨fuel - 1, by omega⟩
    obtain ⟨hk, htake, hdrop⟩ := strchr_tag hd.invoke_open ha p
    have hlen := hparams.length_lt hd
    have hinvoke : parseDsmlInvoke style (style.invokeStart ++ (attrs ++ 0x3e :: p)) =
        some ({ name, params }, q) := by
      rw [parseDsmlInvoke, hk]
      simp only
      rw [htake, hdrop, hname]
      simp only [parseDsmlParameters_complete hd hparams _ (Nat.lt_succ_self _),
        Option.map_some]
    rw [parseDsmlInvokes, skipAsciiWs_append hw (noSpace_of_head _ hd.invoke_head _)]
    simp only [startsWith_append, startsWith_disjoint hd.invoke_end.1 hd.invoke_end.2,
      Bool.false_eq_true, if_false, if_true, hinvoke]
    rw [ih n (by simp at hf; omega)]
    rfl

theorem parseDsmlBlock_iff {style : DsmlStyle} (hd : style.Distinct) {p : Bytes}
    {cs : List ParsedCall} {rest : Bytes} :
    parseDsmlBlock style p = some (cs, rest) ↔ DsmlBlock style p cs rest := by
  unfold parseDsmlBlock DsmlBlock
  constructor
  · intro h
    split at h
    · simp at h
    · rename_i k hk
      obtain ⟨a, q, rfl, rfl, hfirst⟩ := (strstr_eq_some_iff hd.start_ne).mp hk
      dsimp only at h
      rw [← List.length_append, List.drop_left] at h
      exact ⟨a, q, rfl, hfirst, parseDsmlInvokes_sound hd _ h⟩
  · rintro ⟨a, q, rfl, hfirst, hinv⟩
    rw [strstr_append hd.start_ne hfirst]
    simp only
    rw [← List.length_append, List.drop_left]
    exact parseDsmlInvokes_complete hd hinv _ (Nat.lt_succ_self _)

/-! ## Either form -/

/-- A well-formed block: the calls the beginning of a text writes in a form, and
the rest behind them. -/
def ToolBlock : BlockForm → Bytes → List ParsedCall → Bytes → Prop
  | .official => OfficialBlocks
  | .dsml style => DsmlBlock style

/-- The forms the parser chooses among. -/
def BlockForm.Known : BlockForm → Prop
  | .official => True
  | .dsml style => style = dsmlStyleLong ∨ style = dsmlStyleShort ∨ style = dsmlStylePlain

theorem readToolBlock_iff {form : BlockForm} (hform : form.Known) {p : Bytes}
    {cs : List ParsedCall} {rest : Bytes} :
    readToolBlock form p = some (cs, rest) ↔ ToolBlock form p cs rest := by
  cases form with
  | official => exact parseOfficialBlocks_iff
  | dsml style => exact parseDsmlBlock_iff (dsmlStyle_distinct hform)

/-- A table entry is an opener, with two line breaks before it or with none. -/
theorem dsmlStarts_spec : ∀ e ∈ dsmlStarts,
    (∃ m ∈ toolStarts, e.1 = m ∨ e.1 = bytes "\n\n" ++ m) ∧ (BlockForm.dsml e.2).Known := by
  intro e he
  simp only [dsmlStarts, List.mem_cons, List.not_mem_nil, or_false] at he
  rcases he with rfl | rfl | rfl | rfl | rfl | rfl
  · exact ⟨⟨toolCallsStart, by decide, Or.inr rfl⟩, Or.inl rfl⟩
  · exact ⟨⟨toolCallsStart, by decide, Or.inl rfl⟩, Or.inl rfl⟩
  · exact ⟨⟨toolCallsStartShort, by decide, Or.inr rfl⟩, Or.inr (Or.inl rfl)⟩
  · exact ⟨⟨toolCallsStartShort, by decide, Or.inl rfl⟩, Or.inr (Or.inl rfl)⟩
  · exact ⟨⟨bytes "<tool_calls>", by decide, Or.inr (by decide)⟩, Or.inr (Or.inr rfl)⟩
  · exact ⟨⟨bytes "<tool_calls>", by decide, Or.inl rfl⟩, Or.inr (Or.inr rfl)⟩

/-- Every opener but the official one is in the table by itself. -/
theorem toolStarts_dsml : ∀ m ∈ toolStarts, m = toolCallStart ∨ m ∈ dsmlStarts.map Prod.fst := by
  decide

/-- The chosen place is an opener behind nothing but line breaks, in a known
form. -/
theorem toolBlockStart_some {search : Bytes} {d : Nat} {form : BlockForm}
    (h : toolBlockStart search = some (d, form)) :
    form.Known ∧ ∃ o, d ≤ o ∧ ToolStartAt search o ∧
      ∀ j, d ≤ j → j < o → search[j]? = some 0x0a := by
  unfold toolBlockStart at h
  split at h
  · rename_i o ho
    obtain ⟨rfl, rfl⟩ : o = d ∧ BlockForm.official = form := by simpa using h
    refine ⟨trivial, o, Nat.le_refl _, ⟨toolCallStart, by decide, ?_⟩, fun j h1 h2 => by omega⟩
    exact ((firstOcc_eq_some_iff (by decide)).mp ho).1
  · simp only [Option.map_eq_some_iff, Prod.mk.injEq, findDsmlStart] at h
    obtain ⟨⟨d', style⟩, hfind, rfl, rfl⟩ := h
    obtain ⟨e, he, hocc⟩ := List.exists_of_findSome?_eq_some hfind
    simp only [Option.map_eq_some_iff, Prod.mk.injEq] at hocc
    obtain ⟨k, hk, rfl, rfl⟩ := hocc
    obtain ⟨⟨m, hm, hform⟩, hknown⟩ := dsmlStarts_spec e he
    refine ⟨hknown, ?_⟩
    have hmne := (toolStarts_guarded m hm).1.ne_nil
    rcases hform with hem | hem
    · rw [hem] at hk
      exact ⟨k, Nat.le_refl _, ⟨m, hm, ((firstOcc_eq_some_iff hmne).mp hk).1⟩,
        fun j h1 h2 => by omega⟩
    · rw [hem] at hk
      have hocc := ((firstOcc_eq_some_iff (by simp [hmne])).mp hk).1
      have hget := occursAt_iff_getElem?.mp hocc
      have hnl : (bytes "\n\n").length = 2 := by decide
      refine ⟨k + 2, by omega, ⟨m, hm, occursAt_iff_getElem?.mpr fun j hj => ?_⟩,
        fun j h1 h2 => ?_⟩
      · rw [Nat.add_assoc, hget (2 + j) (by rw [List.length_append]; omega),
          List.getElem?_append_right (by omega), hnl, show 2 + j - 2 = j by omega]
      · obtain ⟨i, rfl⟩ : ∃ i, j = k + i := ⟨j - k, by omega⟩
        rw [hget i (by rw [List.length_append]; omega), List.getElem?_append_left (by omega)]
        have : i = 0 ∨ i = 1 := by omega
        rcases this with rfl | rfl <;> decide

/-- No place is chosen exactly when there is no opener. -/
theorem toolBlockStart_none {search : Bytes} :
    toolBlockStart search = none ↔ ∀ i, ¬ ToolStartAt search i := by
  constructor
  · intro h i ⟨m, hm, hocc⟩
    have hmne := (toolStarts_guarded m hm).1.ne_nil
    unfold toolBlockStart at h
    split at h
    · simp at h
    · rename_i hoff
      rcases toolStarts_dsml m hm with rfl | htab
      · exact (firstOcc_eq_none_iff hmne).mp hoff i hocc
      · obtain ⟨e, he, rfl⟩ := List.mem_map.mp htab
        simp only [Option.map_eq_none_iff, findDsmlStart, List.findSome?_eq_none_iff] at h
        exact (firstOcc_eq_none_iff hmne).mp (h e he) i hocc
  · intro h
    cases hs : toolBlockStart search with
    | none => rfl
    | some r =>
      obtain ⟨-, o, -, hat, -⟩ := toolBlockStart_some hs
      exact absurd hat (h o)

end Sf37.Server

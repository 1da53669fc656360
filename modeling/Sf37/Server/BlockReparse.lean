/-
Sf37.Server.BlockReparse — a parsed block, parsed again by itself, gives the same
calls.

A derivation of the grammar uses only the bytes it consumes: what follows the
block can be replaced (`ToolBlock.local`). And the choice of the block in its own
text falls on its beginning, in the same form, because everything the parser
tries first was tried on a longer text before (`toolBlockStart_self`).

* `reparse_rawDsml`: the raw block of a parse, parsed without thinking, is all
  block: the same calls, the same raw text, no content.
-/
import Sf37.Server.StreamVersusParse

namespace Sf37.Server

open Sf37.Text

/-! ## Derivations are local -/

theorem OfficialParams.local {p : Bytes} {params : List ToolParam} {rest : Bytes}
    (h : OfficialParams p params rest) :
    ∃ u, p = u ++ rest ∧ ∀ r, OfficialParams (u ++ r) params r := by
  induction h with
  | done w rest hw =>
    exact ⟨w ++ functionEnd, by simp, fun r => by simpa using OfficialParams.done w r hw⟩
  | @param w name value p params rest hw hname hgt hfirst _ ih =>
    obtain ⟨u, rfl, hu⟩ := ih
    exact ⟨w ++ (parameterStart ++ (name ++ 0x3e :: (value ++ parameterEnd ++ u))), by simp,
      fun r => by simpa using OfficialParams.param w name value hw hname hgt hfirst (hu r)⟩

theorem OfficialBlock.local {p : Bytes} {c : ParsedCall} {rest : Bytes}
    (h : OfficialBlock p c rest) : ∃ u, p = u ++ rest ∧ ∀ r, OfficialBlock (u ++ r) c r := by
  obtain ⟨w₁, name, w₂, hw₁, hname, hgt, hparams, hw₂⟩ := h
  obtain ⟨u, rfl, hu⟩ := hparams.local
  refine ⟨toolCallStart ++ (w₁ ++ (functionStart ++ (name ++ 0x3e :: (u ++ w₂ ++ toolCallEnd)))),
    by simp, fun r => ?_⟩
  simpa using OfficialBlock.mk w₁ name w₂ hw₁ hname hgt (hu (w₂ ++ (toolCallEnd ++ r))) hw₂

/-- The white space after the last block is read up to the next byte, so what
follows must not begin with any. -/
theorem OfficialBlocks.local {p : Bytes} {cs : List ParsedCall} {rest : Bytes}
    (h : OfficialBlocks p cs rest) :
    ∃ u, p = u ++ rest ∧ ∀ r, NoSpace r → startsWith r toolCallStart = false →
      OfficialBlocks (u ++ r) cs r := by
  induction h with
  | last w hblock hw _ _ =>
    obtain ⟨u, rfl, hu⟩ := hblock.local
    refine ⟨u ++ w, by simp, fun r hns hr => .last w ?_ hw hns hr⟩
    simpa using hu (w ++ r)
  | @more p c w q cs rest hblock hw _ ih =>
    obtain ⟨u, rfl, hu⟩ := ih
    obtain ⟨v, rfl, hv⟩ := hblock.local
    refine ⟨v ++ (w ++ u), by simp, fun r hns hr => .more w ?_ hw (hu r hns hr)⟩
    simpa using hv (w ++ (u ++ r))

theorem DsmlParams.local {style : DsmlStyle} {p : Bytes} {params : List ToolParam}
    {rest : Bytes} (h : DsmlParams style p params rest) :
    ∃ u, p = u ++ rest ∧ ∀ r, DsmlParams style (u ++ r) params r := by
  induction h with
  | done w rest hw =>
    exact ⟨w ++ style.invokeEnd, by simp, fun r => by simpa using DsmlParams.done w r hw⟩
  | @param w attrs name value p params rest hw ha hname hfirst _ ih =>
    obtain ⟨u, rfl, hu⟩ := ih
    exact ⟨w ++ (style.paramStart ++ (attrs ++ 0x3e :: (value ++ style.paramEnd ++ u))), by simp,
      fun r => by simpa using DsmlParams.param w attrs name value hw ha hname hfirst (hu r)⟩

theorem DsmlInvokes.local {style : DsmlStyle} {p : Bytes} {cs : List ParsedCall}
    {rest : Bytes} (h : DsmlInvokes style p cs rest) :
    ∃ u, p = u ++ rest ∧ ∀ r, DsmlInvokes style (u ++ r) cs r := by
  induction h with
  | done w rest hw =>
    exact ⟨w ++ style.toolCallsEnd, by simp, fun r => by simpa using DsmlInvokes.done w r hw⟩
  | @invoke w attrs name p q params cs rest hw ha hname hparams _ ih =>
    obtain ⟨u, rfl, hu⟩ := ih
    obtain ⟨v, rfl, hv⟩ := hparams.local
    exact ⟨w ++ (style.invokeStart ++ (attrs ++ 0x3e :: (v ++ u))), by simp,
      fun r => by simpa using DsmlInvokes.invoke w attrs name hw ha hname (hv (u ++ r)) (hu r)⟩

/-- A block of either form keeps its derivation when the text behind it goes
away. -/
theorem ToolBlock.local {form : BlockForm} {p : Bytes} {cs : List ParsedCall} {rest : Bytes}
    (h : ToolBlock form p cs rest) : ∃ u, p = u ++ rest ∧ ToolBlock form u cs [] := by
  cases form with
  | official =>
    obtain ⟨u, hp, hu⟩ := OfficialBlocks.local h
    refine ⟨u, hp, ?_⟩
    have := hu [] (fun c hc => by simp at hc) (by decide)
    rwa [List.append_nil] at this
  | dsml style =>
    obtain ⟨a, q, rfl, hfirst, hinv⟩ := h
    obtain ⟨u, rfl, hu⟩ := hinv.local
    exact ⟨a ++ style.toolCallsStart ++ u, by simp, a, u, rfl, hfirst, by simpa using hu []⟩

/-! ## The choice falls on the beginning -/

/-- A pattern of a piece of a text is a pattern of the text. -/
theorem occursAt_of_piece {n u v : Bytes} {i : Nat} (hn : n ≠ []) (a : Bytes)
    (h : OccursAt n u i) : OccursAt n (a ++ u ++ v) (a.length + i) := by
  rw [List.append_assoc]
  exact occursAt_append_left.mpr (h.append_right hn v)

theorem strstr_none_of_piece {n u v : Bytes} (hn : n ≠ []) (a : Bytes)
    (h : strstr (a ++ u ++ v) n = none) : strstr u n = none :=
  (firstOcc_eq_none_iff hn).mpr fun i hi =>
    (firstOcc_eq_none_iff hn).mp h (a.length + i) (occursAt_of_piece hn a hi)

/-- A pattern that begins a piece found at its first place is found at the
beginning of the piece. -/
theorem strstr_zero_of_piece {n u v : Bytes} (hn : n ≠ []) {a : Bytes}
    (h : strstr (a ++ u ++ v) n = some a.length) (hlen : n.length ≤ u.length) :
    strstr u n = some 0 := by
  have hocc := ((firstOcc_eq_some_iff hn).mp h).1
  refine (firstOcc_eq_some_iff hn).mpr ⟨?_, fun j hj => by omega⟩
  rw [OccursAt, List.append_assoc, List.drop_left] at hocc
  rw [occursAt_zero]
  exact List.prefix_of_prefix_length_le hocc (List.prefix_append _ _) hlen

/-- The search of a table stops at the same entry in a piece that begins where it
stopped in the text. -/
theorem findSome_self {u v a : Bytes} {style : DsmlStyle} : ∀ (tab : List (Bytes × DsmlStyle)),
    (∀ e ∈ tab, e.1 ≠ []) →
    tab.findSome? (fun e => (strstr (a ++ u ++ v) e.1).map (·, e.2)) = some (a.length, style) →
    (∀ e ∈ tab, e.2 = style → OccursAt e.1 (u ++ v) 0 → e.1.length ≤ u.length) →
    tab.findSome? (fun e => (strstr u e.1).map (·, e.2)) = some (0, style)
  | [], _, h, _ => by simp at h
  | e :: tab, hne, h, hlen => by
      have he := hne e (by simp)
      rw [List.findSome?_cons] at h ⊢
      cases hs : strstr (a ++ u ++ v) e.1 with
      | none =>
        rw [hs] at h
        rw [strstr_none_of_piece he a hs]
        exact findSome_self tab (fun e he => hne e (by simp [he])) h
          fun e he => hlen e (by simp [he])
      | some k =>
        rw [hs] at h
        obtain ⟨rfl, rfl⟩ : k = a.length ∧ e.2 = style := by simpa using h
        have hocc : OccursAt e.1 (u ++ v) 0 := by
          have := ((firstOcc_eq_some_iff he).mp hs).1
          rw [List.append_assoc] at this
          exact occursAt_append_left.mp (by simpa using this)
        rw [strstr_zero_of_piece he hs (hlen e (by simp) rfl hocc)]
        rfl

/-- A table entry is the opener of its style, with two line breaks before it or
with none. -/
theorem dsmlStarts_style : ∀ e ∈ dsmlStarts,
    e.1 = e.2.toolCallsStart ∨ e.1 = bytes "\n\n" ++ e.2.toolCallsStart := by
  intro e he
  simp only [dsmlStarts, List.mem_cons, List.not_mem_nil, or_false] at he
  rcases he with rfl | rfl | rfl | rfl | rfl | rfl
  · exact Or.inr rfl
  · exact Or.inl rfl
  · exact Or.inr rfl
  · exact Or.inl rfl
  · exact Or.inr (by decide)
  · exact Or.inl rfl

/-- The entries with two line breaks begin with a line feed, twice. -/
theorem lineBreaks_getElem? (w : Bytes) {i : Nat} (hi : i < 2) :
    (bytes "\n\n" ++ w)[i]? = some 0x0a := by
  have h : (bytes "\n\n") = [0x0a, 0x0a] := by decide
  rw [h]
  match i, hi with
  | 0, _ => rfl
  | 1, _ => rfl

/-- The text a DSML block takes up holds the whole entry it was found by. -/
theorem entry_le_block {style : DsmlStyle} (hd : style.Distinct) {u v : Bytes}
    {cs : List ParsedCall} (h : DsmlBlock style u cs []) {m : Bytes}
    (hm : m = style.toolCallsStart ∨ m = bytes "\n\n" ++ style.toolCallsStart)
    (hocc : OccursAt m (u ++ v) 0) : m.length ≤ u.length := by
  obtain ⟨b, q, rfl, -, -⟩ := h
  rcases hm with rfl | rfl
  · simp; omega
  · have hget := occursAt_iff_getElem?.mp hocc
    have hpos := List.length_pos_iff.mpr hd.start_ne
    have hnl : (bytes "\n\n").length = 2 := by decide
    have hhead : ∀ w : Bytes, (style.toolCallsStart ++ w)[0]? = some 0x3c := fun w => by
      rw [List.getElem?_append_left hpos, ← List.head?_eq_getElem?]
      exact hd.start_head
    -- the opener cannot stand where the entry has a line break
    have hb : b.length ≠ 0 ∧ b.length ≠ 1 := by
      refine ⟨fun h0 => ?_, fun h1 => ?_⟩
      · obtain rfl := List.length_eq_zero_iff.mp h0
        have := hget 0 (by rw [List.length_append]; omega)
        rw [List.nil_append, List.append_assoc, Nat.add_zero, hhead,
          lineBreaks_getElem? _ (by omega)] at this
        simp at this
      · have := hget 1 (by rw [List.length_append]; omega)
        rw [List.append_assoc, List.append_assoc, Nat.zero_add,
          List.getElem?_append_right (by omega), h1, hhead,
          lineBreaks_getElem? _ (by omega)] at this
        simp at this
    rw [List.length_append, hnl]
    simp
    omega

/-- In the text of a block the parser chooses its beginning and its form. -/
theorem toolBlockStart_self {a u v : Bytes} {form : BlockForm} {cs : List ParsedCall}
    (h : toolBlockStart (a ++ u ++ v) = some (a.length, form)) (hb : ToolBlock form u cs []) :
    toolBlockStart u = some (0, form) := by
  have hne : toolCallStart ≠ [] := by decide
  have hknown := (toolBlockStart_some h).1
  unfold toolBlockStart at h ⊢
  cases hoff : strstr (a ++ u ++ v) toolCallStart with
  | some o =>
    rw [hoff] at h
    obtain ⟨rfl, rfl⟩ : o = a.length ∧ BlockForm.official = form := by simpa using h
    obtain ⟨r, hr⟩ := startsWith_iff.mp (OfficialBlocks.starts hb)
    rw [strstr_zero_of_piece hne hoff (by rw [hr]; simp)]
  | none =>
    rw [hoff] at h
    simp only [Option.map_eq_some_iff, Prod.mk.injEq, findDsmlStart] at h
    obtain ⟨⟨d, style⟩, hfind, hda, rfl⟩ := h
    dsimp only at hda
    subst hda
    have htab : ∀ e ∈ dsmlStarts, e.1 ≠ [] := by decide
    rw [strstr_none_of_piece hne a hoff]
    simp only [findDsmlStart]
    rw [findSome_self dsmlStarts htab hfind fun e he hstyle hocc =>
      entry_le_block (dsmlStyle_distinct hknown) hb (hstyle ▸ dsmlStarts_style e he) hocc]
    rfl

/-! ## Parsing a raw block -/

/-- Where a parse with a raw block took it from. -/
theorem parse_rawDsml_place {T : Bytes} {req : Bool} {think : ThinkMode} {m : ParsedMessage}
    {raw : Bytes} (h : parseGeneratedMessageEx T req think = some m)
    (hraw : m.rawDsml = some raw) :
    ∃ k d form rest, toolSearchStart req T = some k ∧ toolBlockStart (T.drop k) = some (d, form) ∧
      k + d ≤ T.length ∧ T.drop (k + d) = raw ++ rest ∧
      ToolBlock form (raw ++ rest) m.calls rest := by
  unfold parseGeneratedMessageEx at h
  cases hk : toolSearchStart req T with
  | none =>
    rw [hk] at h
    obtain rfl : messageWithoutCalls T think = m := by simpa using h
    simp [messageWithoutCalls] at hraw
  | some k =>
    rw [hk] at h
    dsimp only at h
    cases hd : toolBlockStart (T.drop k) with
    | none =>
      rw [hd] at h
      obtain rfl : messageWithoutCalls T think = m := by simpa using h
      simp [messageWithoutCalls] at hraw
    | some r =>
      obtain ⟨d, form⟩ := r
      rw [hd] at h
      simp only [Option.map_eq_some_iff] at h
      obtain ⟨⟨cs, rest⟩, hread, rfl⟩ := h
      obtain ⟨hknown, o, hch⟩ := chosenAt_of_search hd
      have hdT := hch.le
      have hoT := hch.opener.add_le
      have hblock := (readToolBlock_iff hknown).mp hread
      obtain ⟨u, hu, -⟩ := hblock.local
      have hlen := congrArg List.length hu
      rw [List.length_drop, List.length_append] at hlen
      obtain rfl : u = raw := by
        have : slice T (k + d) (T.length - rest.length) = raw := by
          simpa [messageWithCalls] using hraw
        rw [← this, slice, hu, List.take_append_of_le_length (by omega),
          List.take_of_length_le (by omega)]
      exact ⟨k, d, form, rest, rfl, hd, by omega, hu, hu ▸ hblock⟩

/-- What a parse with a raw block says about the text. -/
theorem parse_rawDsml {T : Bytes} {req : Bool} {think : ThinkMode} {m : ParsedMessage}
    {raw : Bytes} (h : parseGeneratedMessageEx T req think = some m)
    (hraw : m.rawDsml = some raw) :
    ∃ a form rest, T = a ++ raw ++ rest ∧ form.Known ∧ ToolBlock form raw m.calls [] ∧
      toolBlockStart raw = some (0, form) := by
  obtain ⟨k, d, form, rest, -, hd, hle, htext, hblock⟩ := parse_rawDsml_place h hraw
  obtain ⟨u, hu, hself⟩ := hblock.local
  obtain rfl := List.append_cancel_right hu
  have htake : ((T.drop k).take d).length = d := by
    rw [List.length_take, List.length_drop]
    omega
  refine ⟨T.take (k + d), form, rest, ?_, (chosenAt_of_search hd).1, hself, ?_⟩
  · rw [List.append_assoc, ← htext, List.take_append_drop]
  · refine toolBlockStart_self (a := (T.drop k).take d) (v := rest) ?_ hself
    rw [htake, List.append_assoc, ← htext, ← List.drop_drop, List.take_append_drop]
    exact hd

/-- The raw block of a parse, parsed by itself without thinking, is all block: the
same calls, the same raw text, and nothing besides. -/
theorem reparse_rawDsml {T : Bytes} {req : Bool} {think : ThinkMode} {m : ParsedMessage}
    {raw : Bytes} (h : parseGeneratedMessageEx T req think = some m)
    (hraw : m.rawDsml = some raw) :
    parseGeneratedMessageEx raw false .none =
      some { content := [], reasoning := some [], calls := m.calls, rawDsml := some raw } := by
  obtain ⟨-, form, -, -, hknown, hblock, hstart⟩ := parse_rawDsml h hraw
  have hread := (readToolBlock_iff hknown).mpr hblock
  have hsplit : splitReasoningContent [] .none = ([], []) := by decide
  simp only [parseGeneratedMessageEx, toolSearchStart, Bool.false_eq_true, if_false,
    List.drop_zero, hstart, Nat.zero_add, hread, Option.map_some, messageWithCalls,
    List.length_nil, Nat.sub_zero, slice_zero, List.take_length]
  simp [trimToolSeparatorWs, retreat, hsplit]

end Sf37.Server

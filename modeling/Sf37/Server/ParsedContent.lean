/-
Sf37.Server.ParsedContent — the content that is streamed against the content that is parsed, whatever
the reasoning.

A stream may show no reasoning, and it may go on where the parser sees the text end. So beside
`StreamMatchesParse` there are two conditions on the content alone.

* `streamedContent_eq_iff`: when the content is the same, the whole text being seen by both.
* `KeepsContent.parse`, `keepsContent_of`: when the parser takes the text for content up to its
  end.
* `parse_open`: the message of a text whose thinking is never closed.
-/
import Sf37.Server.StreamVersusParse

namespace Sf37.Server

open Sf37.Text

/-! ## The same content -/

/-- With thinking off, the content that was streamed stands once more between a closing tag and
the block that the parser reads. -/
def RepeatedContent (hasTools : Bool) (T : Bytes) : Prop :=
  ∃ d form c, toolBlockStart T = some (d, form) ∧ WellFormedBlock form (T.drop d) ∧
    thinkCloseAt (T.take (trimToolSeparatorWs T 0 d)) = some c ∧
    slice T 0 (contentEnd hasTools T 0) = slice T (c + 8) (trimToolSeparatorWs T 0 d)

/-- With thinking on the reasoning is the same, unless a block is malformed. -/
theorem streamedReasoning_enabled {T : Bytes} {n : Nat} {c : Nat} (hc : thinkCloseAt T = some c)
    (hn : c + 8 ≤ n) (hnT : n ≤ T.length) :
    streamedReasoning .enabled T = (splitReasoningContent (T.take n) .enabled).1 := by
  have h7 : startsWith T thinkOpen = true → 7 ≤ n := fun _ => by omega
  rw [splitReasoningContent_eq, thinkCloseAt_take hnT h7, hc, thinkBodyStart_take h7]
  simp only [Option.filter, hn, decide_true, if_true, streamedReasoning, hc, Option.getD_some]
  rw [slice_take (by omega)]

/-- With thinking on, the same content comes with the same reasoning. -/
theorem streamAgrees_of_content_enabled {hasTools : Bool} {T : Bytes} {finish : Finish}
    (h : streamedContent .enabled hasTools T =
      (parseGeneratedMessageForResponse T .enabled finish).2.2.content) :
    StreamAgrees .enabled hasTools T
      (parseGeneratedMessageForResponse T .enabled finish).2.2 := by
  refine ⟨?_, h⟩
  cases hc : thinkCloseAt T with
  | none =>
    rw [parse_unclosed (toolSearchStart_open hc)]
    simp [messageWithoutCalls, splitReasoningContent_eq, hc, streamedReasoning]
  | some c =>
    obtain ⟨l, hsearch, hcl, -⟩ := toolSearchStart_enabled hc
    obtain ⟨⟨-, hcT, hocc⟩, -⟩ := thinkCloseAt_eq_some_iff.mp hc
    cases hb : toolBlockStart (T.drop (l + 8)) with
    | none =>
      have hall := streamedReasoning_enabled hc hcT (Nat.le_refl _)
      rw [List.take_length] at hall
      rw [parse_noBlock hsearch hb, hall]
      rfl
    | some r =>
      obtain ⟨d, form⟩ := r
      by_cases hwf : WellFormedBlock form (T.drop (l + 8 + d))
      · obtain ⟨cs, rest, hblock⟩ := hwf
        obtain ⟨-, o, hch⟩ := chosenAt_of_search hb
        have hdo := hch.le
        have hoT := hch.opener.add_le
        have hle : trimToolSeparatorWs T 0 (l + 8 + d) ≤ l + 8 + d := retreat_le _ _ _ _
        have hcn : c + 8 ≤ trimToolSeparatorWs T 0 (l + 8 + d) := by
          simpa using tag_le_trim _ 0 (d := l + 8 + d) (by simp) hocc (by simp; omega)
        rw [parse_block hsearch hb hblock, streamedReasoning_enabled hc hcn (by omega)]
        rfl
      · -- the whole text is content for the parser, and the stream began behind the tag
        rw [parse_malformed hsearch hb hwf] at h
        have hend := contentEnd_le hasTools (T := T) (S := c + 8) hcT
        have hlen := congrArg List.length h
        simp only [streamedContent, contentStart, hc, Option.map_some, length_thinkClose] at hlen
        rw [length_slice hend] at hlen
        omega

/-- With thinking off nothing is streamed as reasoning, and the parser finds some only before a
block. -/
theorem streamAgrees_of_content_none {hasTools : Bool} {T : Bytes} {finish : Finish}
    (h : streamedContent .none hasTools T =
      (parseGeneratedMessageForResponse T .none finish).2.2.content) :
    StreamAgrees .none hasTools T (parseGeneratedMessageForResponse T .none finish).2.2 ∨
      RepeatedContent hasTools T := by
  have hsearch : toolSearchStart (ThinkMode.none == .enabled) T = some 0 := rfl
  have hstream : streamedContent .none hasTools T = slice T 0 (contentEnd hasTools T 0) := rfl
  have hend := contentEnd_le hasTools (Nat.zero_le T.length)
  cases hb : toolBlockStart (T.drop 0) with
  | none =>
    have hno : ∀ i, ¬ ToolStartAt T i := by simpa using toolBlockStart_none.mp hb
    have hendeq : contentEnd hasTools T 0 = utf8StreamSafeLen T 0 T.length := by
      have hnone : findAnyToolStart (T.drop 0) = none :=
        findAnyToolStart_eq_none_iff.mpr fun i => by simpa using hno i
      simp only [contentEnd, hnone, ite_self]
    have hhold := le_utf8StreamSafeLen_add_three T 0 T.length
    refine .inl ⟨?_, h⟩
    rw [parse_noBlock hsearch hb] at h ⊢
    simp only [messageWithoutCalls, splitReasoningContent_eq] at h ⊢
    cases hc : thinkCloseAt T with
    | none => rfl
    | some c =>
      -- a closing tag: the parser drops at least the tag
      obtain ⟨⟨-, hcT, -⟩, -⟩ := thinkCloseAt_eq_some_iff.mp hc
      rw [hstream, hc] at h
      have hlen := congrArg List.length h
      rw [length_slice hend, length_slice (Nat.le_refl _)] at hlen
      omega
  | some r =>
    obtain ⟨d, form⟩ := r
    by_cases hwf : WellFormedBlock form (T.drop (0 + d))
    · obtain ⟨cs, rest, hblock⟩ := id hwf
      obtain ⟨-, o, hch⟩ := chosenAt_of_search hb
      have hdo := hch.le
      have hoT := hch.opener.add_le
      have hle : trimToolSeparatorWs T 0 d ≤ d := retreat_le _ _ _ _
      have hlenT : (T.take (trimToolSeparatorWs T 0 d)).length = trimToolSeparatorWs T 0 d := by
        simp
        omega
      rw [Nat.zero_add] at hwf
      rw [parse_block hsearch hb hblock] at h ⊢
      simp only [messageWithCalls, Nat.zero_add, StreamAgrees, splitReasoningContent_eq, hlenT]
        at h ⊢
      cases hc : thinkCloseAt (T.take (trimToolSeparatorWs T 0 d)) with
      | none =>
        rw [hc] at h
        exact .inl ⟨rfl, h⟩
      | some c =>
        rw [hc, hstream] at h
        dsimp only at h
        rw [slice_take (Nat.le_refl _)] at h
        exact .inr ⟨d, form, c, hb, hwf, hc, h⟩
    · refine .inl ⟨?_, h⟩
      rw [parse_malformed hsearch hb hwf]
      rfl

/-- When the content that is streamed is the content that is parsed. -/
theorem streamedContent_eq_iff (think : ThinkMode) (hasTools : Bool) (T : Bytes) (finish : Finish) :
    streamedContent think hasTools T =
        (parseGeneratedMessageForResponse T think finish).2.2.content ↔
      StreamMatchesParse think hasTools T ∨ think = .none ∧ RepeatedContent hasTools T := by
  constructor
  · intro h
    cases think with
    | enabled =>
      exact .inl ((streamMatchesParse_iff _ _ _ finish).mp (streamAgrees_of_content_enabled h))
    | none =>
      rcases streamAgrees_of_content_none h with hagrees | hrepeated
      · exact .inl ((streamMatchesParse_iff _ _ _ finish).mp hagrees)
      · exact .inr ⟨rfl, hrepeated⟩
  · rintro (h | ⟨rfl, d, form, c, hb, ⟨cs, rest, hblock⟩, hc, hsame⟩)
    · exact ((streamMatchesParse_iff _ _ _ finish).mpr h).2
    · have hsearch : toolSearchStart (ThinkMode.none == .enabled) T = some 0 := rfl
      obtain ⟨-, o, hch⟩ := chosenAt_of_search (k := 0) hb
      have hdo := hch.le
      have hoT := hch.opener.add_le
      have hle : trimToolSeparatorWs T 0 d ≤ d := retreat_le _ _ _ _
      have hlenT : (T.take (trimToolSeparatorWs T 0 d)).length = trimToolSeparatorWs T 0 d := by
        simp
        omega
      rw [parse_block hsearch (d := d) hb (by simpa using hblock)]
      simp only [messageWithCalls, Nat.zero_add, splitReasoningContent_eq, hlenT, hc]
      rw [slice_take (Nat.le_refl _)]
      exact hsame

/-! ## Content up to the end -/

/-- The parser takes the text behind the closing tag for content as a whole. -/
def KeepsContent (think : ThinkMode) (T : Bytes) : Prop :=
  match toolSearchStart (think == .enabled) T with
  | none => True
  | some k =>
      match toolBlockStart (T.drop k) with
      | none => think = .none → startsWith T thinkOpen = false ∧ ∀ j, ¬ OccursAt thinkClose T j
      | some (d, form) => think = .none ∧ ¬ WellFormedBlock form (T.drop (k + d))

/-- The message of a text whose thinking is never closed. -/
theorem parse_open {T : Bytes} (hc : thinkCloseAt T = none) (finish : Finish) :
    let m := (parseGeneratedMessageForResponse T .enabled finish).2.2
    m.content = [] ∧ m.reasoning.getD [] = T.drop (thinkBodyStart T) ∧ m.calls = [] := by
  rw [parse_unclosed (toolSearchStart_open hc)]
  simp [messageWithoutCalls, splitReasoningContent_eq, hc, slice_length]

theorem splitReasoningContent_le (T : Bytes) (think : ThinkMode) :
    (splitReasoningContent T think).2.length ≤ T.length := by
  have hslice : ∀ a, (slice T a T.length).length ≤ T.length := fun a => by
    rw [slice_length, List.length_drop]
    omega
  rw [splitReasoningContent_eq]
  split
  · exact hslice _
  · split
    · exact Nat.zero_le _
    · exact hslice _

/-- The message of a text that is content up to its end. -/
theorem KeepsContent.parse {think : ThinkMode} {T : Bytes} {S : Nat} (h : KeepsContent think T)
    (hS : contentStart think T = some S) (finish : Finish) :
    let m := (parseGeneratedMessageForResponse T think finish).2.2
    m.content = T.drop S ∧ m.reasoning.getD [] = streamedReasoning think T ∧ m.calls = [] := by
  unfold KeepsContent at h
  cases think with
  | enabled =>
    obtain ⟨c, hc, rfl⟩ := Option.map_eq_some_iff.mp hS
    obtain ⟨l, hsearch, -, -⟩ := toolSearchStart_enabled hc
    rw [hsearch] at h
    dsimp only at h
    cases hb : toolBlockStart (T.drop (l + 8)) with
    | none =>
      rw [parse_noBlock hsearch hb]
      simp [messageWithoutCalls, splitReasoningContent_eq, hc, streamedReasoning, slice_length]
    | some r =>
      rw [hb] at h
      cases h.1
  | none =>
    obtain rfl : 0 = S := Option.some.inj hS
    have hsearch : toolSearchStart (ThinkMode.none == .enabled) T = some 0 := rfl
    rw [hsearch] at h
    dsimp only at h
    cases hb : toolBlockStart (T.drop 0) with
    | none =>
      rw [hb] at h
      obtain ⟨hopen, hclose⟩ := h rfl
      rw [parse_noBlock hsearch hb]
      simp [messageWithoutCalls, splitReasoningContent_eq, thinkCloseAt_none_of hclose,
        streamedReasoning, thinkBodyStart, hopen, slice_length]
    | some r =>
      rw [hb] at h
      rw [parse_malformed hsearch hb h.2]
      exact ⟨rfl, rfl, rfl⟩

/-- With thinking on: content that goes as far as the text, but for a cut character. -/
theorem keepsContent_enabled {T : Bytes} {c : Nat} {finish : Finish} (hc : thinkCloseAt T = some c)
    {n : Nat} (hlen : (parseGeneratedMessageForResponse T .enabled finish).2.2.content.length = n)
    (hn : n + (c + 8) ≤ T.length) (hfar : T.length ≤ n + (c + 8) + 2) :
    KeepsContent .enabled T := by
  unfold KeepsContent
  obtain ⟨l, hsearch, hcl, hoccl⟩ := toolSearchStart_enabled hc
  obtain ⟨⟨-, hcT, hocc⟩, -⟩ := thinkCloseAt_eq_some_iff.mp hc
  rw [hsearch]
  dsimp only
  cases hb : toolBlockStart (T.drop (l + 8)) with
  | none => exact nofun
  | some r =>
    obtain ⟨d, form⟩ := r
    obtain ⟨-, o, hch⟩ := chosenAt_of_search hb
    have hdo := hch.le
    have hoT := hch.opener.add_le
    have hle : trimToolSeparatorWs T 0 (l + 8 + d) ≤ l + 8 + d := retreat_le _ _ _ _
    by_cases hwf : WellFormedBlock form (T.drop (l + 8 + d))
    · -- the content ends before the block
      obtain ⟨cs, rest, hblock⟩ := hwf
      rw [parse_block hsearch hb hblock] at hlen
      have hcn : c + 8 ≤ trimToolSeparatorWs T 0 (l + 8 + d) := by
        simpa using tag_le_trim _ 0 (d := l + 8 + d) (by simp) hocc (by simp; omega)
      have h7 : startsWith T thinkOpen = true → 7 ≤ trimToolSeparatorWs T 0 (l + 8 + d) :=
        fun _ => by omega
      simp only [messageWithCalls, splitReasoningContent_eq,
        thinkCloseAt_take (n := trimToolSeparatorWs T 0 (l + 8 + d)) (by omega) h7, hc,
        Option.filter, hcn, decide_true, if_true] at hlen
      rw [length_slice (Nat.le_refl _), List.length_take] at hlen
      omega
    · rw [parse_malformed hsearch hb hwf] at hlen
      dsimp only at hlen
      omega

/-- With thinking off: no tag takes a part of the text away. -/
theorem untagged_of_content {T : Bytes} {finish : Finish} (hb : toolBlockStart (T.drop 0) = none)
    (hfar : T.length ≤
      (parseGeneratedMessageForResponse T .none finish).2.2.content.length + 2) :
    startsWith T thinkOpen = false ∧ ∀ j, ¬ OccursAt thinkClose T j := by
  have hsearch : toolSearchStart (ThinkMode.none == .enabled) T = some 0 := rfl
  rw [parse_noBlock hsearch hb] at hfar
  simp only [messageWithoutCalls, splitReasoningContent_eq] at hfar
  cases hc : thinkCloseAt T with
  | some c =>
    obtain ⟨⟨-, hcT, -⟩, -⟩ := thinkCloseAt_eq_some_iff.mp hc
    rw [hc] at hfar
    dsimp only at hfar
    rw [length_slice (Nat.le_refl _)] at hfar
    omega
  | none =>
    rw [hc] at hfar
    simp only [reduceCtorEq, if_false] at hfar
    rw [length_slice (Nat.le_refl _)] at hfar
    have hb0 : startsWith T thinkOpen = false := by
      by_contra hopen
      rw [Bool.not_eq_false] at hopen
      have hle := thinkBodyStart_le T
      rw [thinkBodyStart, if_pos hopen, length_thinkOpen] at hle hfar
      omega
    refine ⟨hb0, fun j => thinkCloseAt_eq_none_iff.mp hc j ?_⟩
    simp [thinkBodyStart, hb0]

/-- Content that goes as far as the text, but for a cut character, is the text's. -/
theorem keepsContent_of {think : ThinkMode} {T : Bytes} {S E : Nat} {finish : Finish}
    (hS : contentStart think T = some S)
    (h : (parseGeneratedMessageForResponse T think finish).2.2.content = slice T S E)
    (hSE : S ≤ E) (hE : E ≤ T.length) (hnear : T.length ≤ E + 2) : KeepsContent think T := by
  have hlen := congrArg List.length h
  rw [length_slice hE] at hlen
  cases think with
  | enabled =>
    obtain ⟨c, hc, rfl⟩ := Option.map_eq_some_iff.mp hS
    rw [length_thinkClose] at hSE hlen
    exact keepsContent_enabled hc hlen (by omega) (by omega)
  | none =>
    obtain rfl : 0 = S := Option.some.inj hS
    have hsearch : toolSearchStart (ThinkMode.none == .enabled) T = some 0 := rfl
    rw [KeepsContent, hsearch]
    dsimp only
    cases hb : toolBlockStart (T.drop 0) with
    | none => exact fun _ => untagged_of_content hb (by rw [hlen]; omega)
    | some r =>
      obtain ⟨d, form⟩ := r
      refine ⟨rfl, fun hwf => ?_⟩
      obtain ⟨cs, rest, hblock⟩ := hwf
      obtain ⟨-, o, hch⟩ := chosenAt_of_search hb
      have hdo := hch.le
      have hoT := hch.opener.add_le
      have hle : trimToolSeparatorWs T 0 (0 + d) ≤ 0 + d := retreat_le _ _ _ _
      rw [parse_block hsearch hb hblock] at hlen
      have hcut := splitReasoningContent_le (T.take (trimToolSeparatorWs T 0 (0 + d))) .none
      rw [List.length_take] at hcut
      simp only [messageWithCalls] at hlen
      omega

end Sf37.Server

/-
Sf37.Server.ChunkIndependence — the three live splitters hand out the same text
however it was cut.

Each API's emitter is shown to be a `DeltaSink` on a network where all sends
succeed, and the run theorem of the common algorithm does the rest.

* `liveSplit_independent_of_chunks`: for every text, think mode, tool flag and
  growing sequence of prefixes, the run ends with the texts the single final
  call gives, for all three APIs, and no byte of a complete opener is ever
  handed out as content while tools are on.
-/
import Sf37.Server.LiveSplitTheorems

namespace Sf37.Server

open Sf37.Text

/-! ## The three sinks -/

/-- Chat deltas: both kinds are sent as they come. -/
def chatSink : DeltaSink (chatEmit allSends) true where
  reasoning := chatReasoning
  content := chatContent
  ready _ _ := True
  reasoning_ok w t _ := by
    by_cases ht : t.length = 0
    · have : t = [] := List.length_eq_zero_iff.mp ht
      exact ⟨w, by simp [chatEmit, sseDeltaN, ht], trivial, by simp [this], rfl⟩
    · refine ⟨_, by simp [chatEmit, sseDeltaN, ht]; rfl, trivial, ?_, ?_⟩ <;>
        simp [chatReasoning, chatContent]
  reasoningDone_ok w _ _ := ⟨w, rfl, trivial, rfl, rfl⟩
  text_ok w t _ := by
    by_cases ht : t.length = 0
    · have : t = [] := List.length_eq_zero_iff.mp ht
      exact ⟨w, by simp [chatEmit, sseDeltaN, ht], trivial, rfl, by simp [this]⟩
    · refine ⟨_, by simp [chatEmit, sseDeltaN, ht]; rfl, trivial, ?_, ?_⟩ <;>
        simp [chatReasoning, chatContent]
  textDone_ok w _ _ := ⟨w, rfl, trivial, rfl, rfl⟩

/-- An event changes neither text of a Responses stream. -/
@[simp] theorem responsesLiveEvent_allSends (rs : ResponsesLive) (ev : ResponsesEvent) :
    responsesLiveEvent allSends rs ev = (true, { rs with
      sequence := rs.sequence + 1
      wire := ⟨rs.wire.calls + 1, rs.wire.sent ++ [(rs.sequence, ev)]⟩ }) := rfl

theorem responsesLiveCreated_ok (rs : ResponsesLive) :
    ∃ rs', responsesLiveCreated allSends rs = (true, rs') ∧
      rs'.reasoningText = rs.reasoningText ∧ rs'.messageText = rs.messageText := by
  unfold responsesLiveCreated
  split
  · exact ⟨rs, rfl, rfl, rfl⟩
  · exact ⟨_, rfl, rfl, rfl⟩

theorem responsesLiveReasoningDelta_ok (rs : ResponsesLive) (t : Bytes) :
    ∃ rs', responsesLiveReasoningDelta allSends rs t = (true, rs') ∧
      rs'.reasoningText = rs.reasoningText ++ t ∧ rs'.messageText = rs.messageText := by
  obtain ⟨rs1, h1, hR, hC⟩ := responsesLiveCreated_ok rs
  simp only [responsesLiveReasoningDelta, h1]
  by_cases ho : rs1.reasoningOpened = true <;> by_cases hp : rs1.reasoningPartOpen = true <;>
    simp [ho, hp, hR, hC]

theorem responsesLiveReasoningDone_ok (rs : ResponsesLive) :
    ∃ rs', responsesLiveReasoningDone allSends rs = (true, rs') ∧
      rs'.reasoningText = rs.reasoningText ∧ rs'.messageText = rs.messageText := by
  unfold responsesLiveReasoningDone
  by_cases hd : (!rs.reasoningOpened || rs.reasoningDone) = true
  · rw [if_pos hd]
    exact ⟨rs, rfl, rfl, rfl⟩
  · rw [if_neg hd]
    by_cases hp : rs.reasoningPartOpen = true <;> simp [hp]

theorem responsesLiveTextDelta_ok (rs : ResponsesLive) (t : Bytes) :
    ∃ rs', responsesLiveTextDelta allSends rs t = (true, rs') ∧
      rs'.reasoningText = rs.reasoningText ∧ rs'.messageText = rs.messageText ++ t := by
  obtain ⟨rs1, h1, hR, hC⟩ := responsesLiveCreated_ok rs
  simp only [responsesLiveTextDelta, h1]
  by_cases ho : rs1.messageOpened = true <;> by_cases hp : rs1.messagePartOpen = true <;>
    simp [ho, hp, hR, hC]

theorem responsesLiveMessageDone_ok (rs : ResponsesLive) (finish : Option Finish) :
    ∃ rs', responsesLiveMessageDone allSends rs finish = (true, rs') ∧
      rs'.reasoningText = rs.reasoningText ∧ rs'.messageText = rs.messageText := by
  unfold responsesLiveMessageDone
  by_cases hd : (!rs.messageOpened || rs.messageDone) = true
  · rw [if_pos hd]
    exact ⟨rs, rfl, rfl, rfl⟩
  · rw [if_neg hd]
    by_cases hp : rs.messagePartOpen = true <;> simp [hp]

/-- Responses deltas: reasoning is collected only for a summary. -/
def responsesSink (summaryEmit : Bool) (finish : Option Finish) :
    DeltaSink (responsesEmit allSends summaryEmit finish) summaryEmit where
  reasoning := ResponsesLive.reasoningText
  content := ResponsesLive.messageText
  ready _ _ := True
  reasoning_ok rs t _ := by
    cases summaryEmit with
    | true =>
      obtain ⟨rs', h, hR, hC⟩ := responsesLiveReasoningDelta_ok rs t
      exact ⟨rs', h, trivial, hR, hC⟩
    | false => exact ⟨rs, rfl, trivial, by simp, rfl⟩
  reasoningDone_ok rs closed _ := by
    obtain ⟨rs', h, hR, hC⟩ := responsesLiveReasoningDone_ok
      (if closed then { rs with reasoningClosedNaturally := true } else rs)
    refine ⟨rs', h, trivial, hR.trans ?_, hC.trans ?_⟩ <;> cases closed <;> rfl
  text_ok rs t _ := by
    obtain ⟨rs', h, hR, hC⟩ := responsesLiveTextDelta_ok rs t
    exact ⟨rs', h, trivial, hR, hC⟩
  textDone_ok rs tool _ := by
    obtain ⟨rs', h, hR, hC⟩ := responsesLiveMessageDone_ok rs
      (if tool then some .toolCalls else finish)
    exact ⟨rs', h, trivial, hR, hC⟩

/-- A delta into a block of its own kind, or into no block, is accepted. -/
theorem anthropicLiveDelta_ok {as : AnthropicLive} {type : BlockType} (t : Bytes)
    (h : as.currentBlock = .none ∨ as.currentBlock = type) :
    ∃ as', anthropicLiveDelta allSends as type t = (true, as') ∧ as'.currentBlock = type ∧
      ∀ ty, anthropicText ty as' = anthropicText ty as ++ if type = ty then t else [] := by
  unfold anthropicLiveDelta anthropicLiveOpenBlock
  by_cases hty : as.currentBlock = type
  · refine ⟨(anthropicSend allSends as (.delta as.currentIndex type t)).2,
      by simp [hty, anthropicSend], hty, fun ty => ?_⟩
    simp [anthropicSend, anthropicText]
  · have hnone := h.resolve_right hty
    rw [hnone] at hty
    refine ⟨_, by simp [hnone, hty, anthropicSend]; rfl, rfl, fun ty => ?_⟩
    simp [anthropicText]

/-- Closing a block sends no text. -/
theorem anthropicLiveCloseBlock_ok (as : AnthropicLive) :
    ∃ as', anthropicLiveCloseBlock allSends as = (true, as') ∧ as'.currentBlock = .none ∧
      ∀ ty, anthropicText ty as' = anthropicText ty as := by
  unfold anthropicLiveCloseBlock
  by_cases hn : as.currentBlock = .none
  · exact ⟨as, by simp [hn], hn, fun _ => rfl⟩
  · by_cases ht : as.currentBlock = .thinking
    · refine ⟨_, by simp [ht, anthropicSend]; rfl, rfl, fun ty => ?_⟩
      simp [anthropicText]
    · refine ⟨_, by simp [hn, ht, anthropicSend]; rfl, rfl, fun ty => ?_⟩
      simp [anthropicText]

/-- Anthropic deltas: in each phase the open block is of the phase's kind, so no
block is ever refused. -/
def anthropicSink : DeltaSink (anthropicEmit allSends) true where
  reasoning := anthropicText .thinking
  content := anthropicText .text
  ready m as := match m with
    | .thinking => as.currentBlock = .none ∨ as.currentBlock = .thinking
    | .text => as.currentBlock = .none ∨ as.currentBlock = .text
    | .suppress => True
  reasoning_ok as t hr := by
    obtain ⟨as', h, hb, htext⟩ := anthropicLiveDelta_ok t hr
    exact ⟨as', h, Or.inr hb, by simp [htext], by simp [htext]⟩
  reasoningDone_ok as _ _ := by
    obtain ⟨as', h, hb, htext⟩ := anthropicLiveCloseBlock_ok as
    exact ⟨as', h, Or.inl hb, htext _, htext _⟩
  text_ok as t hr := by
    obtain ⟨as', h, hb, htext⟩ := anthropicLiveDelta_ok t hr
    exact ⟨as', h, Or.inr hb, by simp [htext], by simp [htext]⟩
  textDone_ok as _ _ := by
    obtain ⟨as', h, hb, htext⟩ := anthropicLiveCloseBlock_ok as
    exact ⟨as', h, trivial, htext _, htext _⟩

/-! ## Openers stay out of the content -/

/-- The content handed out of `T` is a stretch of `T` from the start of the
content on, and no complete opener of `T` has a byte in it. -/
def ClearOfOpeners (think : ThinkMode) (T C : Bytes) : Prop :=
  match contentStart think T with
  | none => C = []
  | some S => ∃ e, S ≤ e ∧ C = slice T S e ∧
      ∀ m ∈ toolStarts, ∀ i, OccursAt m T i → i + m.length ≤ S ∨ e ≤ i

/-- No opener is also an occurrence of the closing tag, nor the other way. -/
theorem toolStarts_second : ∀ m ∈ toolStarts, 1 < m.length ∧ m[1]? ≠ thinkClose[1]? := by
  decide

theorem thinkClose_guarded : Guarded 0x3c thinkClose := by decide

/-- An opener that starts before the content ends before it. -/
theorem opener_before_content {think : ThinkMode} {T m : Bytes} {S i : Nat}
    (hS : contentStart think T = some S) (hm : m ∈ toolStarts) (hocc : OccursAt m T i)
    (hi : i < S) : i + m.length ≤ S := by
  cases think with
  | none => simp [contentStart] at hS; omega
  | enabled =>
    simp only [contentStart, Option.map_eq_some_iff] at hS
    obtain ⟨c, hc, rfl⟩ := hS
    obtain ⟨⟨-, -, hcl⟩, -⟩ := thinkCloseAt_eq_some_iff.mp hc
    have hg := (toolStarts_guarded m hm).1
    rw [length_thinkClose] at hi ⊢
    rcases Nat.lt_trichotomy i c with hlt | rfl | hgt
    · have := hg.disjoint thinkClose_guarded hocc hcl hlt
      omega
    · -- both would have to agree on their second byte
      obtain ⟨hlen, hne⟩ := toolStarts_second m hm
      refine absurd ?_ hne
      rw [← occursAt_iff_getElem?.mp hocc 1 hlen,
        ← occursAt_iff_getElem?.mp hcl 1 (by simp)]
    · have := thinkClose_guarded.disjoint hg hcl hocc hgt
      rw [length_thinkClose] at this
      omega

/-- The end of the content is not past any opener that starts in it. -/
theorem contentEnd_le_tool {T : Bytes} {S i : Nat} (hi : S ≤ i) (htool : ToolStartAt T i) :
    contentEnd true T S ≤ i := by
  have hin : ToolStartAt (T.drop S) (i - S) := by
    rw [toolStartAt_drop, show S + (i - S) = i by omega]
    exact htool
  cases hf : findAnyToolStart (T.drop S) with
  | none => exact absurd hin (findAnyToolStart_eq_none_iff.mp hf _)
  | some t =>
    have hti : t ≤ i - S := by
      rcases Nat.lt_or_ge (i - S) t with hlt | hge
      · exact absurd hin ((findAnyToolStart_eq_some_iff.mp hf).2 _ hlt)
      · exact hge
    have htrim : S ≤ trimToolSeparatorWs T S (S + t) := le_retreat (by omega)
    have hle := retreat_le isToolSeparatorWs T S (S + t)
    have := utf8StreamSafeLen_le (s := T) htrim
    simp only [contentEnd, if_true, hf]
    rw [trimToolSeparatorWs] at this ⊢
    omega

theorem le_contentEnd (hasTools : Bool) (T : Bytes) (S : Nat) :
    S ≤ contentEnd hasTools T S := by
  unfold contentEnd
  split <;> exact le_utf8StreamSafeLen _ _ _

theorem clearOfOpeners_streamedContent (think : ThinkMode) (T : Bytes) :
    ClearOfOpeners think T (streamedContent think true T) := by
  unfold ClearOfOpeners streamedContent
  cases hS : contentStart think T with
  | none => rfl
  | some S =>
    refine ⟨contentEnd true T S, le_contentEnd _ _ _, rfl, fun m hm i hocc => ?_⟩
    rcases Nat.lt_or_ge i S with hlt | hge
    · exact Or.inl (opener_before_content hS hm hocc hlt)
    · exact Or.inr (contentEnd_le_tool hge ⟨m, hm, hocc⟩)

/-- What is handed out in the middle of a run is clear of openers too. -/
theorem SplitInv.clear {think : ThinkMode} {T R C : Bytes} {p : Nat} {st : ReasoningStream}
    (h : SplitInv think true T p st R C) : ClearOfOpeners think T C := by
  unfold SplitInv at h
  split at h
  · obtain ⟨-, rfl, -⟩ := h
    unfold ClearOfOpeners
    cases hS : contentStart think T with
    | none => rfl
    | some S =>
      refine ⟨S, Nat.le_refl _, by simp, fun m hm i hocc => ?_⟩
      rcases Nat.lt_or_ge i S with hlt | hge
      · exact Or.inl (opener_before_content hS hm hocc hlt)
      · exact Or.inr hge
  · obtain ⟨S, hS, -, hC, hheld⟩ := h
    unfold ClearOfOpeners
    rw [hS]
    refine ⟨st.emitPos, hheld.bounds.1, hC, fun m hm i hocc => ?_⟩
    rcases Nat.lt_or_ge i S with hlt | hge
    · exact Or.inl (opener_before_content hS hm hocc hlt)
    · obtain ⟨L, hSL, -, heq, hold⟩ := hheld
      have := (hold rfl).2 i hge ⟨m, hm, hocc⟩
      have := utf8StreamSafeLen_le (s := T) hSL
      exact Or.inr (by omega)
  · rw [h.2]
    exact clearOfOpeners_streamedContent think T

/-! ## Independence of the chunks -/

/-- A run over the prefixes `cuts` of `T` ends with the texts the single final
call on a fresh state gives, and never hands out a byte of an opener while tools
are on, neither on the way nor at the end. -/
def IndependentOfChunks {σ : Type}
    (update : Bytes → Nat → Bool → ReasoningStream → σ → Bool × ReasoningStream × σ)
    (fresh : σ) (reasoning content : σ → Bytes) (think : ThinkMode) (hasTools : Bool)
    (T : Bytes) (cuts : List Nat) : Prop :=
  ∃ stPre pre stRun run stOne one,
    feedPrefixes update T cuts (reasoningStreamInit think) fresh = (true, stPre, pre) ∧
    feed update T cuts (reasoningStreamInit think) fresh = (true, stRun, run) ∧
    update T T.length true (reasoningStreamInit think) fresh = (true, stOne, one) ∧
    reasoning run = reasoning one ∧ content run = content one ∧
    (hasTools = true →
      ClearOfOpeners think T (content pre) ∧ ClearOfOpeners think T (content run))

/-- Any sink makes the common algorithm independent of the chunks. -/
theorem DeltaSink.independentOfChunks {σ : Type} {emit : σ → Emit → Bool × σ} {shows : Bool}
    (sink : DeltaSink emit shows) {think : ThinkMode} {hasTools : Bool} {T : Bytes}
    {cuts : List Nat} {fresh : σ} (hcuts : ∀ q ∈ cuts, q ≤ T.length)
    (hpw : cuts.Pairwise (· ≤ ·))
    (hs : Holds sink (reasoningStreamInit think).mode fresh [] []) :
    IndependentOfChunks (splitUpdate emit hasTools) fresh sink.reasoning sink.content think
      hasTools T cuts := by
  obtain ⟨p, stPre, pre, R, C, hpre, -, hinv, hspre⟩ := feedPrefixes_inv sink cuts
    (Nat.zero_le _) (fun q hq => ⟨Nat.zero_le q, hcuts q hq⟩) hpw
    (splitInv_init think hasTools T) hs
  obtain ⟨stRun, run, hrun, hsrun⟩ := feed_eq sink hasTools think _ hcuts hpw hs
  obtain ⟨stOne, one, hone, hsone⟩ := splitUpdate_final sink (Nat.zero_le _)
    (splitInv_init think hasTools T) hs
  refine ⟨stPre, pre, stRun, run, stOne, one, hpre, hrun, hone, ?_, ?_, fun ht => ⟨?_, ?_⟩⟩
  · rw [hsrun.reasoning, hsone.reasoning]
  · rw [hsrun.content, hsone.content]
  · subst ht
    rw [hspre.content]
    exact hinv.clear
  · subst ht
    rw [hsrun.content]
    exact clearOfOpeners_streamedContent think T

/-- However a text is cut, all three live splitters hand out the same reasoning
and the same content as one call on the whole text, and no byte of a complete
opener is content while tools are on. A Responses stream may have sent its
first event, and a Messages stream its start, before the first call. -/
theorem liveSplit_independent_of_chunks (think : ThinkMode) (hasTools summaryEmit : Bool)
    (finish : Option Finish) (T : Bytes) (cuts : List Nat) (rs : ResponsesLive)
    (as : AnthropicLive) (hcuts : ∀ q ∈ cuts, q ≤ T.length) (hpw : cuts.Pairwise (· ≤ ·))
    (hrs : rs.reasoningText = [] ∧ rs.messageText = [])
    (has : as.currentBlock = .none ∧ as.wire.sent = []) :
    IndependentOfChunks (reasoningStreamUpdate allSends hasTools) {} chatReasoning chatContent
      think hasTools T cuts ∧
    IndependentOfChunks (responsesLiveStreamUpdate allSends hasTools summaryEmit finish) rs
      ResponsesLive.reasoningText ResponsesLive.messageText think hasTools T cuts ∧
    IndependentOfChunks (anthropicLiveStreamUpdate allSends hasTools) as
      (anthropicText .thinking) (anthropicText .text) think hasTools T cuts := by
  refine ⟨?_, ?_, ?_⟩
  · exact chatSink.independentOfChunks hcuts hpw ⟨fun _ => trivial, rfl, rfl⟩
  · refine (responsesSink summaryEmit finish).independentOfChunks hcuts hpw
      ⟨fun _ => trivial, ?_, hrs.2⟩
    cases summaryEmit <;> exact hrs.1
  · refine anthropicSink.independentOfChunks hcuts hpw ⟨fun _ => ?_, ?_, ?_⟩
    · cases think <;> exact Or.inl has.1
    · simp [anthropicSink, anthropicText, has.2]
    · simp [anthropicSink, anthropicText, has.2]

/-- A text whose closing tag, separator and opener are all cut in the middle. -/
theorem liveSplit_independent_of_chunks_cut :
    IndependentOfChunks (reasoningStreamUpdate allSends true) {} chatReasoning chatContent
      .enabled true (bytes "a</think>b\n<tool_call>") [3, 11, 15] ∧
    IndependentOfChunks (responsesLiveStreamUpdate allSends true true none) {}
      ResponsesLive.reasoningText ResponsesLive.messageText .enabled true
      (bytes "a</think>b\n<tool_call>") [3, 11, 15] ∧
    IndependentOfChunks (anthropicLiveStreamUpdate allSends true) {} (anthropicText .thinking)
      (anthropicText .text) .enabled true (bytes "a</think>b\n<tool_call>") [3, 11, 15] :=
  liveSplit_independent_of_chunks .enabled true true none _ _ {} {} (by decide) (by decide)
    ⟨rfl, rfl⟩ ⟨rfl, rfl⟩

end Sf37.Server

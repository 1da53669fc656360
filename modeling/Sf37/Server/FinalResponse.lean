/-
Sf37.Server.FinalResponse — what `run_generation` answers with after the decode
loop, and what it answers when no tools were offered.

`finalResponse` is the part of `run_generation` from the final parse to the
answer, for a text that decoded without error. It never asks whether tools were
offered: only the decode loop and the repair of cut-off calls do. So a request
without tools, or with `tool_choice` set to none, is answered with calls as soon
as the text has a well-formed block.

* `finalResponse_noTools_iff`: the answer has no calls, no `tool_calls` finish and
  all of the visible text exactly when there is no well-formed block and no NUL
  takes visible text away.
-/
import Sf37.Server.LiveEvents
import Sf37.Server.StreamVersusParse

namespace Sf37.Server

open Sf37.Text

/-! ## The answer -/

/-- `openai_finish_for_calls`. -/
def openaiFinishForCalls (finish : Finish) (calls : List ToolCall) : Finish :=
  if 0 < calls.length ∧ finish ≠ .length then .toolCalls else finish

/-- What `run_generation` builds an answer from: the parsed message, `wire_finish` and the
finish reason of the Chat API. -/
structure FinalResponse where
  content : Bytes
  reasoning : Option Bytes
  calls : List ToolCall
  wireFinish : Finish
  finish : Finish
  deriving DecidableEq, Repr

/-- `run_generation` from the final parse on, for `finish` other than an error.
The parser is handed `raw.ptr`, a C string: it sees what stands before a NUL.
Ids are given to the calls later and change none of this. -/
def finalResponse (raw : Bytes) (think : ThinkMode) (finish : Finish) : FinalResponse :=
  let (_, wireFinish, m) := parseGeneratedMessageForResponse (cstr raw) think finish
  let calls := m.toolCalls.v
  let wireFinish := if 0 < calls.length ∧ wireFinish ≠ .length then .toolCalls else wireFinish
  { content := m.content
    reasoning := m.reasoning
    calls := calls
    wireFinish := wireFinish
    finish := openaiFinishForCalls wireFinish calls }

/-- What an answer says about the end of its text: the `finish_reason` of the Chat and
Completions APIs, the status of a response, the `stop_reason` of a message. -/
inductive ReportedFinish where
  | finishReason (finish : Finish)
  | status (status : ResponseStatus)
  | stopReason (stop : AnthropicStop)
  deriving DecidableEq, Repr

/-- The reason as each API reports it. -/
def reportedFinish (api : ApiStyle) (r : FinalResponse) : ReportedFinish :=
  match api with
  | .openai => .finishReason r.finish
  | .completions => .finishReason r.wireFinish
  | .responses => .status (responseStatusForFinish (some r.wireFinish))
  | .anthropic => .stopReason (anthropicStopReason r.calls (some r.wireFinish))

/-! ## Visible text -/

/-- Where the visible text starts. With thinking on it is what comes behind the
first closing tag. With thinking off a closing tag ends reasoning when it comes
before any opener, and a leading opening tag is never shown. -/
def visibleStart (think : ThinkMode) (T : Bytes) : Nat :=
  match think, thinkCloseAt T with
  | .enabled, some c => c + 8
  | .enabled, none => T.length
  | .none, some c => if ∃ i, i < c ∧ ToolStartAt T i then thinkBodyStart T else c + 8
  | .none, none => thinkBodyStart T

/-- The text a reader should see after the reasoning. -/
def visibleText (think : ThinkMode) (T : Bytes) : Bytes := T.drop (visibleStart think T)

/-- The text has a well-formed block where the parser looks for one. -/
def HasBlock (think : ThinkMode) (T : Bytes) : Prop :=
  ∃ k d form, toolSearchStart (think == .enabled) T = some k ∧
    toolBlockStart (T.drop k) = some (d, form) ∧ WellFormedBlock form (T.drop (k + d))

/-- The text has a well-formed block with a call where the parser looks for one. -/
def HasCalls (think : ThinkMode) (T : Bytes) : Prop :=
  ∃ k d form cs rest, toolSearchStart (think == .enabled) T = some k ∧
    toolBlockStart (T.drop k) = some (d, form) ∧ ToolBlock form (T.drop (k + d)) cs rest ∧
    cs ≠ []

/-- No tool was called and nothing visible was dropped. -/
def AnsweredInFull (think : ThinkMode) (T : Bytes) (r : FinalResponse) : Prop :=
  r.calls = [] ∧ r.finish ≠ .toolCalls ∧ visibleText think T <:+ r.content

/-! ## The calls of an answer -/

/-- The answer has calls exactly when the text before the first NUL has, and then, unless the
text was cut, `wire_finish` says so. -/
theorem finalResponse_calls (T : Bytes) (think : ThinkMode) {finish : Finish}
    (hfinish : finish = .stop ∨ finish = .length) :
    ((finalResponse T think finish).calls ≠ [] ↔ HasCalls think (cstr T)) ∧
      (finalResponse T think finish).wireFinish =
        if (finalResponse T think finish).calls ≠ [] ∧ finish ≠ .length then .toolCalls
        else finish := by
  have hplain : ∀ ok (m : ParsedMessage), m.calls = [] → ¬ HasCalls think (cstr T) →
      parseGeneratedMessageForResponse (cstr T) think finish = (ok, finish, m) →
      ((finalResponse T think finish).calls ≠ [] ↔ HasCalls think (cstr T)) ∧
        (finalResponse T think finish).wireFinish =
          if (finalResponse T think finish).calls ≠ [] ∧ finish ≠ .length then .toolCalls
          else finish := by
    intro ok m hm hno hp
    simp [finalResponse, hp, ParsedMessage.toolCalls, hm, hno]
  cases hk : toolSearchStart (think == .enabled) (cstr T) with
  | none =>
    have hno : ¬ HasCalls think (cstr T) := fun ⟨k, d, form, _, _, h, _⟩ => by simp [hk] at h
    exact hplain _ (messageWithoutCalls _ _) rfl hno (parse_unclosed hk)
  | some k =>
    cases hd : toolBlockStart ((cstr T).drop k) with
    | none =>
      have hno : ¬ HasCalls think (cstr T) := fun ⟨k', d, form, _, _, h, hd', _⟩ => by
        obtain rfl : k = k' := by simpa [hk] using h
        simp [hd] at hd'
      exact hplain _ (messageWithoutCalls _ _) rfl hno (parse_noBlock hk hd)
    | some r =>
      obtain ⟨d, form⟩ := r
      -- the block found is the only one that is read
      have honly : ∀ cs rest, ToolBlock form ((cstr T).drop (k + d)) cs rest →
          (HasCalls think (cstr T) ↔ cs ≠ []) := fun cs rest hblock =>
        ⟨fun ⟨k', d', form', cs', rest', h, hd', hblock', hne⟩ => by
          obtain rfl : k = k' := by simpa [hk] using h
          obtain ⟨rfl, rfl⟩ : d = d' ∧ form = form' := by simpa [hd] using hd'
          have hknown := (chosenAt_of_search hd).1
          have heq := ((readToolBlock_iff hknown).mpr hblock).symm.trans
            ((readToolBlock_iff hknown).mpr hblock')
          obtain ⟨rfl, rfl⟩ := Prod.mk.inj (Option.some.inj heq)
          exact hne,
        fun hne => ⟨k, d, form, cs, rest, hk, hd, hblock, hne⟩⟩
      by_cases hwf : WellFormedBlock form ((cstr T).drop (k + d))
      · obtain ⟨cs, rest, hblock⟩ := id hwf
        rw [honly cs rest hblock]
        simp [finalResponse, parse_block hk hd hblock, ParsedMessage.toolCalls,
          messageWithCalls, List.length_pos_iff]
      · have hno : ¬ HasCalls think (cstr T) := by
          rintro ⟨k', d', form', cs, rest, h, hd', hb, -⟩
          obtain rfl : k = k' := by simpa [hk] using h
          obtain ⟨rfl, rfl⟩ : d = d' ∧ form = form' := by simpa [hd] using hd'
          exact hwf ⟨cs, rest, hb⟩
        refine hplain false { content := cstr T, reasoning := none } rfl hno ?_
        rw [parse_malformed hk hd hwf]
        rcases hfinish with rfl | rfl <;> rfl

/-! ## Without a block -/

/-- Without a block to read, the content is the visible text. -/
theorem content_noCalls {think : ThinkMode} {T : Bytes}
    (h : ∀ k, toolSearchStart (think == .enabled) T = some k →
      ∀ i, ¬ ToolStartAt (T.drop k) i) :
    (messageWithoutCalls T think).content = visibleText think T := by
  simp only [messageWithoutCalls, splitReasoningContent_eq, visibleText]
  cases think with
  | none =>
    have hno : ∀ i, ¬ ToolStartAt T i := h 0 rfl
    cases hc : thinkCloseAt T with
    | none => simp [visibleStart, hc, slice_length]
    | some c => simp [visibleStart, hc, hno, slice_length]
  | enabled =>
    cases hc : thinkCloseAt T with
    | none => simp [visibleStart, hc]
    | some c => simp [visibleStart, hc, slice_length]

/-- A finish reason that is not `tool_calls` stays so without calls. -/
theorem openaiFinish_noCalls (finish : Finish) : openaiFinishForCalls finish [] = finish := by
  simp [openaiFinishForCalls]

/-! ## With a block -/

/-- With a block the visible text runs to the end of the text and the content does
not reach it. -/
theorem visibleText_cut {think : ThinkMode} {T : Bytes} {k d : Nat} {form : BlockForm}
    (cs : List ParsedCall) (rest : Bytes)
    (hk : toolSearchStart (think == .enabled) T = some k)
    (hd : toolBlockStart (T.drop k) = some (d, form)) :
    ¬ visibleText think T <:+ (messageWithCalls T think (k + d) cs rest).content := by
  obtain ⟨-, o, hch⟩ := chosenAt_of_search hd
  have hdo := hch.le
  have hoT := hch.opener.add_le
  obtain ⟨n, hn⟩ : ∃ n, n = trimToolSeparatorWs T 0 (k + d) := ⟨_, rfl⟩
  have hnd : n ≤ k + d := hn ▸ retreat_le _ _ _ _
  have hkeep : ∀ tag i, tag ∈ thinkOpen :: thinkClose :: toolStarts → OccursAt tag T i →
      i + tag.length ≤ o → i + tag.length ≤ n := fun tag i htag hi hle =>
    hn ▸ tag_le_trim _ _ htag hi (hch.tag_le _ htag hi hle)
  have hopen7 : startsWith T thinkOpen = true → 7 ≤ n := fun hs => by
    have hocc : OccursAt thinkOpen T 0 := by simpa [startsWith, occursAt_zero] using hs
    simpa using hkeep thinkOpen 0 (by simp) hocc
      (tag_before_opener _ (by simp) hocc hch.opener (Nat.zero_le _))
  have hlenT : (T.take n).length = n := by simp; omega
  intro hsuf
  have hlen := hsuf.length_le
  simp only [visibleText, messageWithCalls, ← hn, List.length_drop] at hlen
  rw [splitReasoningContent_eq, thinkCloseAt_take (by omega) hopen7,
    thinkBodyStart_take hopen7, hlenT] at hlen
  cases think with
  | enabled =>
    cases hl : findLastSubstr T thinkClose with
    | none => simp [toolSearchStart, hl] at hk
    | some l =>
      obtain rfl : l + 8 = k := by simpa [toolSearchStart, hl] using hk
      obtain ⟨c, hc, hcl, -⟩ := findLastSubstr_thinkClose.2 l hl
      obtain ⟨⟨-, -, hocc⟩, -⟩ := thinkCloseAt_eq_some_iff.mp hc
      have hcn : c + 8 ≤ n := by
        simpa using hkeep thinkClose c (by simp) hocc (by simp; omega)
      simp only [visibleStart, hc, Option.filter, hcn, decide_true, if_true] at hlen
      rw [length_slice (by omega)] at hlen
      omega
  | none =>
    have hbn : thinkBodyStart T ≤ n := by
      unfold thinkBodyStart
      split
      · rename_i hs
        simpa using hopen7 hs
      · omega
    cases hc : thinkCloseAt T with
    | none =>
      simp only [visibleStart, hc, Option.filter, reduceCtorEq, if_false] at hlen
      rw [length_slice (by omega)] at hlen
      omega
    | some c =>
      obtain ⟨⟨hbc, -, hocc⟩, -⟩ := thinkCloseAt_eq_some_iff.mp hc
      by_cases hcn : c + 8 ≤ n
      · simp only [visibleStart, hc, Option.filter, hcn, decide_true, if_true] at hlen
        rw [length_slice (by omega)] at hlen
        split at hlen <;> omega
      · -- the closing tag is behind the block: it ends no reasoning
        have hex : ∃ i, i < c ∧ ToolStartAt T i := by
          refine ⟨o, ?_, hch.opener⟩
          rcases Nat.lt_or_ge o c with h | h
          · exact h
          · refine absurd ?_ hcn
            simpa using hkeep thinkClose c (by simp) hocc
              (tag_before_opener _ (by simp) hocc hch.opener h)
        simp only [visibleStart, hc, hex, if_true, Option.filter, hcn, decide_false,
          Bool.false_eq_true, if_false, reduceCtorEq] at hlen
        rw [length_slice (by omega)] at hlen
        omega

/-- A text whose block stands before its first NUL is visible from before that NUL
on. -/
theorem visibleStart_le_cstr {think : ThinkMode} {T : Bytes} {k d : Nat} {form : BlockForm}
    (hk : toolSearchStart (think == .enabled) (cstr T) = some k)
    (hd : toolBlockStart ((cstr T).drop k) = some (d, form)) :
    visibleStart think T ≤ (cstr T).length := by
  have hclose := thinkCloseAt_cstr T
  have hbody : thinkBodyStart T ≤ (cstr T).length := by
    unfold thinkBodyStart
    split
    · rename_i hs
      simpa using thinkOpen_le_cstr hs
    · omega
  cases think with
  | enabled =>
    cases hl : findLastSubstr (cstr T) thinkClose with
    | none => simp [toolSearchStart, hl] at hk
    | some l =>
      obtain ⟨c, hc, -, -⟩ := findLastSubstr_thinkClose.2 l hl
      rw [hc, eq_comm, Option.filter_eq_some_iff] at hclose
      simpa [visibleStart, hclose.1] using hclose.2
  | none =>
    obtain ⟨-, o, hch⟩ := chosenAt_of_search hd
    have ho : ToolStartAt T o := by
      obtain ⟨m, hm, hocc⟩ := hch.opener
      rw [cstr_eq_take, occursAt_take (toolStarts_guarded m hm).1.ne_nil] at hocc
      exact ⟨m, hm, hocc.1⟩
    cases hc : thinkCloseAt T with
    | none => simpa [visibleStart, hc] using hbody
    | some c =>
      obtain ⟨⟨-, -, hocc⟩, -⟩ := thinkCloseAt_eq_some_iff.mp hc
      simp only [visibleStart, hc]
      split
      · exact hbody
      · rename_i hno
        have hco : c ≤ o := Nat.le_of_not_lt fun hlt => hno ⟨o, hlt, ho⟩
        have hoC := hch.opener.add_le
        simpa using hocc.add_le_cstr (by decide) (by omega)

/-- Where a block is read, a text of which nothing visible gets lost has no NUL. -/
theorem nulFree_of_suffix {think : ThinkMode} {T X : Bytes} {k d : Nat} {form : BlockForm}
    (hk : toolSearchStart (think == .enabled) (cstr T) = some k)
    (hd : toolBlockStart ((cstr T).drop k) = some (d, form)) (hX : ∀ c ∈ X, c ∈ cstr T)
    (h : visibleText think T <:+ X) : NulFree T := by
  by_contra hnul
  obtain ⟨rest, hrest⟩ := eq_cstr_append hnul
  have hmem : (0 : UInt8) ∈ visibleText think T := by
    have hle := visibleStart_le_cstr hk hd
    obtain ⟨v, hv⟩ : ∃ v, v = visibleStart think T := ⟨_, rfl⟩
    rw [visibleText, ← hv, hrest, List.drop_append_of_le_length (hv ▸ hle)]
    simp
  exact nulFree_cstr T (hX 0 (h.subset hmem))

/-- The content of a message is made of the text's bytes. -/
theorem mem_content_withCalls {think : ThinkMode} {T : Bytes} {s : Nat} {cs : List ParsedCall}
    {rest : Bytes} : ∀ c ∈ (messageWithCalls T think s cs rest).content, c ∈ T := by
  intro c hc
  obtain ⟨n, hn⟩ : ∃ n, n = trimToolSeparatorWs T 0 s := ⟨_, rfl⟩
  have hslice : ∀ lo hi, c ∈ slice (T.take n) lo hi → c ∈ T := fun lo hi h =>
    List.mem_of_mem_take (List.mem_of_mem_drop (List.mem_of_mem_take h))
  simp only [messageWithCalls, ← hn, splitReasoningContent_eq] at hc
  split at hc
  · exact hslice _ _ hc
  · split at hc
    · simp at hc
    · exact hslice _ _ hc

/-! ## Tools that were not offered -/

/-- A request without tools is answered without calls and with all of the visible
text exactly when there is no well-formed block before the first NUL and the
visible text ends what is visible before that NUL. Without tools the decode loop
ends with `stop` or `length` when it does not fail. -/
theorem finalResponse_noTools_iff (T : Bytes) (think : ThinkMode) (finish : Finish)
    (hfinish : finish = .stop ∨ finish = .length) :
    AnsweredInFull think T (finalResponse T think finish) ↔
      ¬ HasBlock think (cstr T) ∧ visibleText think T <:+ visibleText think (cstr T) := by
  have hne : finish ≠ .toolCalls := by rcases hfinish with rfl | rfl <;> simp
  -- without calls everything turns on the content
  have hanswer : ∀ ok wire (m : ParsedMessage), wire ≠ .toolCalls → m.calls = [] →
      parseGeneratedMessageForResponse (cstr T) think finish = (ok, wire, m) →
      (AnsweredInFull think T (finalResponse T think finish) ↔
        visibleText think T <:+ m.content) := by
    intro ok wire m hw hm hp
    simp [AnsweredInFull, finalResponse, hp, ParsedMessage.toolCalls, hm, openaiFinish_noCalls,
      hw]
  cases hk : toolSearchStart (think == .enabled) (cstr T) with
  | none =>
    have hno : ¬ HasBlock think (cstr T) := fun ⟨k, d, form, h, _⟩ => by simp [hk] at h
    rw [hanswer _ _ _ hne rfl (parse_unclosed hk),
      content_noCalls fun k h => by simp [hk] at h]
    simp [hno]
  | some k =>
    cases hd : toolBlockStart ((cstr T).drop k) with
    | none =>
      have hno : ¬ HasBlock think (cstr T) := fun ⟨k', d, form, h, hd', _⟩ => by
        obtain rfl : k = k' := by simpa [hk] using h
        simp [hd] at hd'
      rw [hanswer _ _ _ hne rfl (parse_noBlock hk hd), content_noCalls fun k' h => ?_]
      · simp [hno]
      · obtain rfl : k = k' := by simpa [hk] using h
        exact toolBlockStart_none.mp hd
    | some r =>
      obtain ⟨d, form⟩ := r
      by_cases hwf : WellFormedBlock form ((cstr T).drop (k + d))
      · obtain ⟨cs, rest, hblock⟩ := id hwf
        have hhas : HasBlock think (cstr T) := ⟨k, d, form, hk, hd, hwf⟩
        simp only [hhas, not_true_eq_false, false_and, iff_false]
        rintro ⟨-, -, hv⟩
        replace hv : visibleText think T <:+
            (messageWithCalls (cstr T) think (k + d) cs rest).content := by
          simpa [finalResponse, parse_block hk hd hblock] using hv
        have hT : cstr T = T :=
          cstr_iff.mpr (nulFree_of_suffix hk hd mem_content_withCalls hv)
        rw [hT] at hk hd hv
        exact visibleText_cut cs rest hk hd hv
      · have hno : ¬ HasBlock think (cstr T) := fun ⟨k', d', form', h, hd', hwf'⟩ => by
          obtain rfl : k = k' := by simpa [hk] using h
          obtain ⟨rfl, rfl⟩ : d = d' ∧ form = form' := by simpa [hd] using hd'
          exact hwf hwf'
        have hwire : (if finish = .length then finish else .stop) ≠ Finish.toolCalls := by
          split
          · exact hne
          · simp
        rw [hanswer _ _ _ hwire rfl (parse_malformed hk hd hwf)]
        simp only [hno, not_false_eq_true, true_and]
        -- the whole text is content: only a NUL behind the opener loses a part
        constructor
        · intro hv
          rw [cstr_iff.mpr (nulFree_of_suffix hk hd (fun _ h => h) hv)]
        · exact fun hv => hv.trans (List.drop_suffix _ _)

/-- A request without tools whose text speaks of a block it does not finish, and one
whose text goes on behind a NUL. -/
theorem finalResponse_noTools_iff_open :
    (AnsweredInFull .none (bytes "use <tool_call>")
        (finalResponse (bytes "use <tool_call>") .none .stop) ↔
      ¬ HasBlock .none (cstr (bytes "use <tool_call>")) ∧
        visibleText .none (bytes "use <tool_call>") <:+
          visibleText .none (cstr (bytes "use <tool_call>"))) ∧
      ¬ AnsweredInFull .none [0x61, 0, 0x62] (finalResponse [0x61, 0, 0x62] .none .stop) := by
  refine ⟨finalResponse_noTools_iff _ .none .stop (Or.inl rfl), fun h => ?_⟩
  have hlost := ((finalResponse_noTools_iff _ .none .stop (Or.inl rfl)).mp h).2
  exact absurd hlost (by decide)

/-- Without tools, a well-formed block is answered with a call, the `tool_calls`
finish and none of the block's text. -/
theorem finalResponse_noTools_calls :
    let T := bytes "<tool_call>\n<function=f>\n</function>\n</tool_call>"
    let r := finalResponse T .none .stop
    r.calls.length = 1 ∧ r.finish = .toolCalls ∧ r.content = [] ∧
      visibleText .none T = T ∧ ¬ AnsweredInFull .none T r := by
  refine ⟨by decide, by decide, by decide, by decide, ?_⟩
  intro h
  have hcalls := congrArg List.length h.1
  revert hcalls
  decide

end Sf37.Server

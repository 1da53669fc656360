/-
Sf37.Server.LiveSplitTheorems — what the live splitters hand out does not
depend on how the text was cut.

The reference is a declarative split of the whole text: `streamedReasoning`
and `streamedContent` say which bytes are reasoning and which are content.
`SplitInv` relates a splitter in the middle of a text to that split, and says
why nothing handed out so far can turn out wrong: in the thinking mode no
closing tag starts before the position; in the text mode the position is the
UTF-8 hold-back of a limit `L` that no tool opener of the whole text precedes
and that no separator white space precedes either (`HeldBack`).

* `splitUpdate_growing`: a call on a longer prefix keeps `SplitInv`.
* `splitUpdate_final`: the final call, from any state with `SplitInv`, hands
  out exactly the rest of the declarative split.
* `splitInv_init`: the state before a run has it, so a run over any growing
  prefixes ends with the declarative split, whatever the prefixes were. A single final call is a run with no
  prefixes.

A `DeltaSink` is an emitter that collects the text it is given and never
refuses it; the three emitters are sinks when all sends succeed. For the
Anthropic one that is a fact about the order of the calls: its refusal to open
a second kind of block is never reached.
-/
import Sf37.Server.LiveSplit

namespace Sf37.Server

open Sf37.Text

/-! ## The declarative split -/

/-- Where the reasoning starts: after a leading `<think>`. -/
def thinkBodyStart (T : Bytes) : Nat :=
  if startsWith T thinkOpen then thinkOpen.length else 0

/-- The first closing tag after the start of the reasoning. -/
def thinkCloseAt (T : Bytes) : Option Nat :=
  findSubstrFrom T T.length (thinkBodyStart T) thinkClose

/-- Where the content starts, if it does. -/
def contentStart (think : ThinkMode) (T : Bytes) : Option Nat :=
  match think with
  | .none => some 0
  | .enabled => (thinkCloseAt T).map (· + thinkClose.length)

/-- Where the content that starts at `S` ends: before the separator white space
of the first opener when tools are on, and short of a cut character. -/
def contentEnd (hasTools : Bool) (T : Bytes) (S : Nat) : Nat :=
  match if hasTools then findAnyToolStart (T.drop S) else none with
  | some t => utf8StreamSafeLen T S (trimToolSeparatorWs T S (S + t))
  | none => utf8StreamSafeLen T S T.length

def streamedReasoning (think : ThinkMode) (T : Bytes) : Bytes :=
  match think with
  | .none => []
  | .enabled => slice T (thinkBodyStart T) ((thinkCloseAt T).getD T.length)

def streamedContent (think : ThinkMode) (hasTools : Bool) (T : Bytes) : Bytes :=
  match contentStart think T with
  | some S => slice T S (contentEnd hasTools T S)
  | none => []

/-! ## The tags -/

theorem thinkOpen_ne_nil : thinkOpen ≠ [] := by decide
theorem thinkClose_ne_nil : thinkClose ≠ [] := by decide
@[simp] theorem length_thinkOpen : thinkOpen.length = 7 := by decide
@[simp] theorem length_thinkClose : thinkClose.length = 8 := by decide

theorem thinkBodyStart_le (T : Bytes) : thinkBodyStart T ≤ T.length := by
  unfold thinkBodyStart startsWith
  split
  · rename_i h
    exact List.IsPrefix.length_le (by simpa using h)
  · omega

theorem thinkCloseAt_eq_some_iff {T : Bytes} {c : Nat} :
    thinkCloseAt T = some c ↔
      (thinkBodyStart T ≤ c ∧ c + 8 ≤ T.length ∧ OccursAt thinkClose T c) ∧
        ∀ j, thinkBodyStart T ≤ j → j < c → ¬ OccursAt thinkClose T j := by
  rw [thinkCloseAt, findSubstrFrom_eq_some_iff thinkClose_ne_nil, length_thinkClose]
  refine and_congr_right fun h => forall_congr' fun j => ?_
  refine forall_congr' fun hj => forall_congr' fun hjc => not_congr ?_
  exact ⟨fun h => h.1, fun h => ⟨h, by omega⟩⟩

theorem thinkCloseAt_eq_none_iff {T : Bytes} :
    thinkCloseAt T = none ↔ ∀ j, thinkBodyStart T ≤ j → ¬ OccursAt thinkClose T j := by
  rw [thinkCloseAt, findSubstrFrom_eq_none_iff thinkClose_ne_nil]
  refine forall_congr' fun j => forall_congr' fun _ => not_congr ?_
  exact ⟨fun h => h.1, fun h => ⟨h, h.add_length_le thinkClose_ne_nil⟩⟩

theorem contentStart_le {think : ThinkMode} {T : Bytes} {S : Nat}
    (h : contentStart think T = some S) : S ≤ T.length := by
  cases think with
  | none => simp [contentStart] at h; omega
  | enabled =>
    simp only [contentStart, Option.map_eq_some_iff] at h
    obtain ⟨c, hc, rfl⟩ := h
    have := (thinkCloseAt_eq_some_iff.mp hc).1.2.1
    rw [length_thinkClose]
    exact this

/-! ## How far content is handed out -/

theorem any_beq_iff {o : Option UInt8} {c : UInt8} : o.any (· == c) = true ↔ o = some c := by
  cases o <;> simp

theorem markerLookBack_bounds {raw : Bytes} {start l W : Nat} (hW : start ≤ W) :
    start ≤ markerLookBack raw start l W ∧ markerLookBack raw start l W ≤ W := by
  unfold markerLookBack
  dsimp only
  generalize hscan : (if 80 < l - start then l - 80 else start) = scan
  have hstart : start ≤ scan := by rw [← hscan]; split <;> omega
  split
  · rename_i m hm
    have := (lastBefore_eq_some hm).1
    split <;> omega
  · omega

/-- An opener of the text that the buffer cuts off opens at a `<` the look-back
finds, so the limit does not pass it. -/
theorem markerLookBack_le_cut {T m : Bytes} {q l start W i : Nat} (hl : l ≤ q) (hWl : W ≤ l)
    (hi : start ≤ i) (hm : m ∈ toolStarts) (hocc : OccursAt m T i) (hcut : q < i + m.length) :
    markerLookBack (T.take q) start l W ≤ i := by
  have hget : ∀ k, k < q → (T.take q)[k]? = T[k]? := fun k hk => by
    rw [List.getElem?_take, if_pos hk]
  obtain ⟨hg, hmlen⟩ := toolStarts_guarded m hm
  unfold markerLookBack
  dsimp only
  generalize hscan : (if 80 < l - start then l - 80 else start) = scan
  rcases Nat.lt_or_ge i l with hil | hil
  · have hiscan : scan ≤ i := by rw [← hscan]; split <;> omega
    have hlt : (T.take q)[i]? = some 0x3c := by
      rw [hget i (by omega)]; exact hg.getElem?_start hocc
    split
    · rename_i k hlast
      obtain ⟨-, hkl, hk, hafter⟩ := lastBefore_eq_some hlast
      have hki : k = i := by
        refine hg.cut_start hocc hil (by omega) ?_ hkl fun j hkj hjl hj => ?_
        · rw [← hget k (by omega)]
          exact any_beq_iff.mp hk
        · have := hafter j hkj hjl
          rw [hget j (by omega), hj] at this
          simp at this
      split <;> omega
    · rename_i hlast
      have := lastBefore_eq_none hlast i hiscan hil
      rw [hlt] at this
      simp at this
  · split
    · split <;> omega
    · omega

/-- The hold-back without an opener in the buffer. The buffer is a prefix of a
text `T`; whatever follows it, no opener of `T` starts before the limit `L`. -/
theorem textStreamSafeLimit_hold {T : Bytes} {q l e : Nat} (hl : l ≤ q) (he : e < l)
    (hnone : findAnyToolStart ((T.take q).drop e) = none) :
    ∃ L, textStreamSafeLimit (T.take q) e l true false = utf8StreamSafeLen T e L ∧
      L ≤ l ∧ (L = e ∨ T[L - 1]?.any isToolSeparatorWs = false) ∧
      ∀ i, e ≤ i → ToolStartAt T i → L ≤ i := by
  have hnone' : ∀ j, e ≤ j → ¬ ToolStartAt (T.take q) j := fun j hj h => by
    refine findAnyToolStart_eq_none_iff.mp hnone (j - e) ?_
    rw [toolStartAt_drop, show e + (j - e) = j by omega]
    exact h
  obtain ⟨W, hW⟩ : ∃ W, W = retreat isspace (T.take q) e l := ⟨_, rfl⟩
  have hWl : W ≤ l := hW ▸ retreat_le _ _ _ _
  have heW : e ≤ W := hW ▸ le_retreat (by omega)
  obtain ⟨M, hM⟩ : ∃ M, M = markerLookBack (T.take q) e l W := ⟨_, rfl⟩
  have hMb : e ≤ M ∧ M ≤ W := hM ▸ markerLookBack_bounds heW
  have htrim : trimToolSeparatorWs (T.take q) e M = trimToolSeparatorWs T e M :=
    retreat_congr fun k hk => by rw [List.getElem?_take, if_pos (by omega)]
  have hLM : trimToolSeparatorWs T e M ≤ M := retreat_le _ _ _ _
  refine ⟨trimToolSeparatorWs T e M, ?_, by omega, ?_, fun i hei hi => ?_⟩
  · unfold textStreamSafeLimit
    rw [if_neg (by omega), if_pos rfl, hnone]
    simp only [Bool.false_eq_true, if_false]
    rw [← hW, ← hM, htrim, utf8StreamSafeLen_take (by omega)]
  · rcases retreat_stop (p := isToolSeparatorWs) (s := T) hMb.1 with h | ⟨-, h⟩
    · exact Or.inl h
    · exact Or.inr h
  · obtain ⟨m, hm, hocc⟩ := hi
    have hcut : q < i + m.length := by
      by_contra hin
      refine hnone' i hei ⟨m, hm, (occursAt_take (toolStarts_guarded m hm).1.ne_nil).mpr ⟨hocc, ?_⟩⟩
      omega
    have := markerLookBack_le_cut hl hWl hei hm hocc hcut
    rw [← hM] at this
    omega

/-! ## Emitters that collect text -/

section Sink

variable {σ : Type}

/-- An emitter that accepts every order a splitter gives it, in the order of the
phases, and collects the text; `shows` says whether reasoning is collected. -/
structure DeltaSink (emit : σ → Emit → Bool × σ) (shows : Bool) where
  reasoning : σ → Bytes
  content : σ → Bytes
  ready : StreamMode → σ → Prop
  reasoning_ok : ∀ es t, ready .thinking es → ∃ es', emit es (.reasoning t) = (true, es') ∧
    ready .thinking es' ∧ reasoning es' = reasoning es ++ (if shows then t else []) ∧
    content es' = content es
  reasoningDone_ok : ∀ es c, ready .thinking es →
    ∃ es', emit es (.reasoningDone c) = (true, es') ∧ ready .text es' ∧
    reasoning es' = reasoning es ∧ content es' = content es
  text_ok : ∀ es t, ready .text es → ∃ es', emit es (.text t) = (true, es') ∧
    ready .text es' ∧ reasoning es' = reasoning es ∧ content es' = content es ++ t
  textDone_ok : ∀ es c, ready .text es → ∃ es', emit es (.textDone c) = (true, es') ∧
    ready .suppress es' ∧ reasoning es' = reasoning es ∧ content es' = content es

variable {emit : σ → Emit → Bool × σ} {shows : Bool} (sink : DeltaSink emit shows)

/-- What a sink holds after `R` and `C` were handed out. -/
structure Holds (m : StreamMode) (es : σ) (R C : Bytes) : Prop where
  ready : m ≠ .suppress → sink.ready m es
  reasoning : sink.reasoning es = if shows then R else []
  content : sink.content es = C

/-- Handing out reasoning up to `limit`. -/
theorem emitRange_reasoning (raw : Bytes) (limit : Nat) (st : ReasoningStream) {R C : Bytes}
    {es : σ} (h : Holds sink .thinking es R C) :
    ∃ es', emitRange emit raw .reasoning limit st es =
        (true, { st with emitPos := max st.emitPos limit }, es') ∧
      Holds sink .thinking es' (R ++ slice raw st.emitPos (max st.emitPos limit)) C := by
  unfold emitRange
  split
  · rename_i hlt
    obtain ⟨es', he, hr, hR, hC⟩ := sink.reasoning_ok es (slice raw st.emitPos limit)
      (h.ready (by simp))
    rw [he, Nat.max_eq_right (by omega)]
    refine ⟨es', rfl, ⟨fun _ => hr, ?_, by rw [hC, h.content]⟩⟩
    rw [hR, h.reasoning]
    cases shows <;> simp
  · rename_i hge
    rw [Nat.max_eq_left (by omega), slice_self, List.append_nil]
    exact ⟨es, rfl, h⟩

/-- Handing out content up to `limit`. -/
theorem emitRange_text (raw : Bytes) (limit : Nat) (st : ReasoningStream) {R C : Bytes}
    {es : σ} (h : Holds sink .text es R C) :
    ∃ es', emitRange emit raw .text limit st es =
        (true, { st with emitPos := max st.emitPos limit }, es') ∧
      Holds sink .text es' R (C ++ slice raw st.emitPos (max st.emitPos limit)) := by
  unfold emitRange
  split
  · rename_i hlt
    obtain ⟨es', he, hr, hR, hC⟩ := sink.text_ok es (slice raw st.emitPos limit)
      (h.ready (by simp))
    rw [he, Nat.max_eq_right (by omega)]
    exact ⟨es', rfl, ⟨fun _ => hr, by rw [hR, h.reasoning], by rw [hC, h.content]⟩⟩
  · rename_i hge
    rw [Nat.max_eq_left (by omega), slice_self, List.append_nil]
    exact ⟨es, rfl, h⟩

/-! ## The invariant -/

/-- Content was handed out up to `e`, the hold-back of a limit `L` within the
first `p` bytes that no opener and no separator white space before an opener
can reach. -/
def HeldBack (hasTools : Bool) (T : Bytes) (S e p : Nat) : Prop :=
  ∃ L, S ≤ L ∧ L ≤ p ∧ e = utf8StreamSafeLen T S L ∧
    (hasTools = true → (L = S ∨ T[L - 1]?.any isToolSeparatorWs = false) ∧
      ∀ i, S ≤ i → ToolStartAt T i → L ≤ i)

/-- Reasoning was handed out up to `e`, and no closing tag starts before. -/
structure ThinkPos (T : Bytes) (e p : Nat) (R : Bytes) : Prop where
  start_le : thinkBodyStart T ≤ e
  le_seen : e ≤ p
  handed : R = slice T (thinkBodyStart T) e
  no_close : ∀ i, thinkBodyStart T ≤ i → OccursAt thinkClose T i → e ≤ i

/-- A splitter in the thinking mode, before or after its prefix check. -/
def ThinkInv (T : Bytes) (p : Nat) (st : ReasoningStream) (R : Bytes) : Prop :=
  if st.checkedThinkPrefix then ThinkPos T st.emitPos p R else st.emitPos = 0 ∧ R = []

/-- A splitter that has seen the first `p` bytes of `T` and handed out `R` and
`C`. -/
def SplitInv (think : ThinkMode) (hasTools : Bool) (T : Bytes) (p : Nat)
    (st : ReasoningStream) (R C : Bytes) : Prop :=
  match st.mode with
  | .thinking => think = .enabled ∧ C = [] ∧ ThinkInv T p st R
  | .text =>
      ∃ S, contentStart think T = some S ∧ R = streamedReasoning think T ∧
        C = slice T S st.emitPos ∧ HeldBack hasTools T S st.emitPos p
  | .suppress => R = streamedReasoning think T ∧ C = streamedContent think hasTools T

theorem HeldBack.bounds {hasTools : Bool} {T : Bytes} {S e p : Nat}
    (h : HeldBack hasTools T S e p) : S ≤ e ∧ e ≤ p := by
  obtain ⟨L, hSL, hLp, rfl, -⟩ := h
  have := utf8StreamSafeLen_le (s := T) hSL
  have := le_utf8StreamSafeLen T S L
  omega

/-- Nothing was handed out yet. -/
theorem HeldBack.start (hasTools : Bool) (T : Bytes) {S p : Nat} (h : S ≤ p) :
    HeldBack hasTools T S S p :=
  ⟨S, Nat.le_refl _, h, (utf8StreamSafeLen_of_le (Nat.le_refl _)).symm,
    fun _ => ⟨Or.inl rfl, fun _ hi _ => hi⟩⟩

/-- A further limit `L`, reached from `e`, keeps the hold-back. -/
theorem HeldBack.advance {hasTools : Bool} {T : Bytes} {S e p p' L : Nat}
    (h : HeldBack hasTools T S e p) (hpp : p ≤ p') (hLp : L ≤ p')
    (hL : hasTools = true → (L = e ∨ T[L - 1]?.any isToolSeparatorWs = false) ∧
      ∀ i, e ≤ i → ToolStartAt T i → L ≤ i) :
    HeldBack hasTools T S (utf8StreamSafeLen T e L) p' := by
  have hb := h.bounds
  obtain ⟨L0, hSL0, hL0p, rfl, hold⟩ := h
  rw [utf8StreamSafeLen_compose]
  refine ⟨max L0 L, by omega, by omega, rfl, fun ht => ?_⟩
  obtain ⟨hws0, htool0⟩ := hold ht
  obtain ⟨hws, htool⟩ := hL ht
  have hle := utf8StreamSafeLen_le (s := T) hSL0
  refine ⟨?_, fun i hSi hi => ?_⟩
  · rcases Nat.le_total L0 L with hcmp | hcmp
    · rw [Nat.max_eq_right hcmp]
      rcases hws with hLe | hws
      · -- the limit did not move past the old one
        have : L = L0 := by omega
        rw [this]; exact hws0
      · exact Or.inr hws
    · rw [Nat.max_eq_left hcmp]
      exact hws0
  · have h0 := htool0 i hSi hi
    have := htool i (by omega) hi
    omega

/-- What is handed out once the first opener of the text is known. -/
theorem HeldBack.tool {T : Bytes} {S e p t : Nat} (h : HeldBack true T S e p)
    (ht : findAnyToolStart (T.drop S) = some t) :
    utf8StreamSafeLen T e (trimToolSeparatorWs T e (S + t)) = contentEnd true T S ∧
      e ≤ S + t ∧ e ≤ trimToolSeparatorWs T S (S + t) := by
  have hb := h.bounds
  obtain ⟨L, hSL, hLp, rfl, hold⟩ := h
  obtain ⟨hws, htool⟩ := hold rfl
  have hat := (findAnyToolStart_eq_some_iff.mp ht).1
  rw [toolStartAt_drop] at hat
  have hLt : L ≤ S + t := htool _ (by omega) hat
  have hle := utf8StreamSafeLen_le (s := T) hSL
  -- the limit `L` stays below the trimmed opener
  have hLtrim : L ≤ trimToolSeparatorWs T S (S + t) := by
    rcases hws with rfl | hws
    · exact le_retreat (by omega)
    · rcases Nat.eq_or_lt_of_le hSL with rfl | hlt
      · exact le_retreat (by omega)
      · have := lt_retreat_of_not (p := isToolSeparatorWs) S (show L - 1 < S + t by omega) hws
        rw [trimToolSeparatorWs]
        omega
  refine ⟨?_, by omega, by omega⟩
  rw [trimToolSeparatorWs, retreat_floor hb.1 (by omega), ← trimToolSeparatorWs,
    Nat.max_eq_right (by omega), utf8StreamSafeLen_compose, Nat.max_eq_right hLtrim]
  simp [contentEnd, ht]

/-! ## One call keeps the invariant -/

theorem HeldBack.mono {hasTools : Bool} {T : Bytes} {S e p p' : Nat}
    (h : HeldBack hasTools T S e p) (hpp : p ≤ p') : HeldBack hasTools T S e p' := by
  obtain ⟨L, hSL, hLp, he, hold⟩ := h
  exact ⟨L, hSL, by omega, he, hold⟩

/-- A text call on a buffer that shows the first opener hands out the rest of
the content, if the length it is given reaches that far. -/
theorem textUpdate_tool (final : Bool) {T R C : Bytes} {S p q l t : Nat}
    {st : ReasoningStream} {es : σ} (hpl : p ≤ l) (hlq : l ≤ q)
    (h : HeldBack true T S st.emitPos p) (hC : C = slice T S st.emitPos)
    (ht : findAnyToolStart ((T.take q).drop st.emitPos) = some t)
    (htl : trimToolSeparatorWs T S (st.emitPos + t) ≤ l)
    (hs : Holds sink .text es R C) :
    ∃ st' es', textUpdate emit true (T.take q) l final st es = (true, st', es') ∧
      st'.mode = .suppress ∧
      Holds sink .suppress es' R (slice T S (contentEnd true T S)) ∧
      contentEnd true T S ≤ l := by
  have hb := h.bounds
  have htT : findAnyToolStart (T.drop S) = some (st.emitPos + t - S) := by
    obtain ⟨L, hSL, -, heq, hold⟩ := id h
    refine findAnyToolStart_take hb.1 (fun i hi hti => ?_) ht
    have hle := utf8StreamSafeLen_le (s := T) hSL
    have := (hold rfl).2 i hi hti
    omega
  obtain ⟨hend, hle, hetrim⟩ := h.tool htT
  rw [show S + (st.emitPos + t - S) = st.emitPos + t by omega] at hend hetrim
  have hin : st.emitPos + t < q := by
    have hat := (findAnyToolStart_eq_some_iff.mp ht).1
    rw [toolStartAt_drop] at hat
    have := hat.bounds.1
    rw [List.length_take] at this
    omega
  have hge : st.emitPos ≤ contentEnd true T S := hend ▸ le_utf8StreamSafeLen _ _ _
  have hendle : contentEnd true T S ≤ l := by
    have htrimS : trimToolSeparatorWs T st.emitPos (st.emitPos + t) =
        trimToolSeparatorWs T S (st.emitPos + t) := by
      rw [trimToolSeparatorWs, retreat_floor hb.1 (by omega), ← trimToolSeparatorWs,
        Nat.max_eq_right hetrim]
    have := utf8StreamSafeLen_le (s := T) (htrimS ▸ hetrim)
    omega
  -- the call hands out exactly up to the end of the content
  have hlimit : max st.emitPos (textStreamSafeLimit (T.take q) st.emitPos l true final) =
      contentEnd true T S := by
    rcases Nat.lt_or_ge st.emitPos l with hlt | hge'
    · have htrim : trimToolSeparatorWs (T.take q) st.emitPos (st.emitPos + t) =
          trimToolSeparatorWs T st.emitPos (st.emitPos + t) :=
        retreat_congr fun k hk => by rw [List.getElem?_take, if_pos (by omega)]
      have htrimle := retreat_le isToolSeparatorWs T st.emitPos (st.emitPos + t)
      simp only [textStreamSafeLimit, if_neg (show ¬ l ≤ st.emitPos by omega), if_true, ht]
      rw [htrim, utf8StreamSafeLen_take (by rw [trimToolSeparatorWs]; omega), hend]
      omega
    · simp only [textStreamSafeLimit, if_pos hge']
      omega
  obtain ⟨es1, he1, hs1⟩ := emitRange_text sink (T.take q)
    (textStreamSafeLimit (T.take q) st.emitPos l true final) st hs
  rw [hlimit, slice_take (by omega), hC, slice_append_slice hb.1 hge] at hs1
  obtain ⟨es2, he2, hr2, hR2, hC2⟩ := sink.textDone_ok es1 true (hs1.ready (by simp))
  refine ⟨{ st with emitPos := st.emitPos + t, mode := .suppress }, es2, ?_, rfl,
    ⟨fun hne => absurd rfl hne, ?_, ?_⟩, hendle⟩
  · simp only [textUpdate, if_true, ht, he1, he2]
  · rw [hR2, hs1.reasoning]
  · rw [hC2, hs1.content]

/-- A text call that shows no opener and is not the last. -/
theorem textUpdate_hold {hasTools : Bool} {T R C : Bytes} {S p q l : Nat}
    {st : ReasoningStream} {es : σ} (hpl : p ≤ l) (hlq : l ≤ q)
    (h : HeldBack hasTools T S st.emitPos p) (hC : C = slice T S st.emitPos)
    (ht : hasTools = true → findAnyToolStart ((T.take q).drop st.emitPos) = none)
    (hs : Holds sink .text es R C) :
    ∃ es' e, textUpdate emit hasTools (T.take q) l false st es =
        (true, { st with emitPos := e }, es') ∧
      HeldBack hasTools T S e l ∧ Holds sink .text es' R (slice T S e) := by
  have hb := h.bounds
  obtain ⟨limit, hlimit⟩ : ∃ limit, limit =
    textStreamSafeLimit (T.take q) st.emitPos l hasTools false := ⟨_, rfl⟩
  have hheld : HeldBack hasTools T S (max st.emitPos limit) l ∧ limit ≤ l := by
    rcases Nat.lt_or_ge st.emitPos l with hlt | hge
    · cases hasTools with
      | true =>
        obtain ⟨L, hLeq, hLp, hLws, hLtool⟩ :=
          textStreamSafeLimit_hold (T := T) hlq hlt (ht rfl)
        have hadv := h.advance hpl hLp (fun _ => ⟨hLws, hLtool⟩)
        rw [hlimit, hLeq, Nat.max_eq_right (le_utf8StreamSafeLen _ _ _)]
        exact ⟨hadv, hadv.bounds.2⟩
      | false =>
        have hadv := h.advance hpl (Nat.le_refl l) (fun hf => by simp at hf)
        have heq : limit = utf8StreamSafeLen T st.emitPos l := by
          simp only [hlimit, textStreamSafeLimit, if_neg (show ¬ l ≤ st.emitPos by omega),
            Bool.false_eq_true, if_false]
          exact utf8StreamSafeLen_take hlq
        rw [heq, Nat.max_eq_right (le_utf8StreamSafeLen _ _ _)]
        exact ⟨hadv, hadv.bounds.2⟩
    · have heq : limit = l := by
        simp only [hlimit, textStreamSafeLimit, if_pos hge]
      rw [heq, Nat.max_eq_left hge]
      exact ⟨h.mono hpl, Nat.le_refl _⟩
  obtain ⟨hheld, hle⟩ := hheld
  obtain ⟨es1, he1, hs1⟩ := emitRange_text sink (T.take q) limit st hs
  rw [slice_take (by omega), hC, slice_append_slice hb.1 (by omega)] at hs1
  refine ⟨es1, _, ?_, hheld, hs1⟩
  have htool : (if hasTools then findAnyToolStart ((T.take q).drop st.emitPos) else none) =
      none := by
    cases hasTools with
    | true => exact ht rfl
    | false => rfl
  simp only [textUpdate, htool, ← hlimit, he1, Bool.false_eq_true, if_false]

/-- The last text call. -/
theorem textUpdate_final {hasTools : Bool} {T R C : Bytes} {S p : Nat}
    {st : ReasoningStream} {es : σ} (hp : p ≤ T.length)
    (h : HeldBack hasTools T S st.emitPos p) (hC : C = slice T S st.emitPos)
    (hs : Holds sink .text es R C) :
    ∃ st' es', textUpdate emit hasTools T T.length true st es = (true, st', es') ∧
      st'.mode = .suppress ∧
      Holds sink .suppress es' R (slice T S (contentEnd hasTools T S)) := by
  have hb := h.bounds
  by_cases htool : ∃ t, hasTools = true ∧ findAnyToolStart (T.drop st.emitPos) = some t
  · obtain ⟨t, rfl, ht⟩ := htool
    have hat := (findAnyToolStart_eq_some_iff.mp ht).1.bounds.1
    rw [List.length_drop] at hat
    have htl : trimToolSeparatorWs T S (st.emitPos + t) ≤ st.emitPos + t := retreat_le _ _ _ _
    obtain ⟨st', es', hup, hm, hs', -⟩ := textUpdate_tool sink true hp (Nat.le_refl _) h hC
      (t := t) (by rwa [List.take_length]) (by omega) hs
    rw [List.take_length] at hup
    exact ⟨st', es', hup, hm, hs'⟩
  · have hnone : (if hasTools then findAnyToolStart (T.drop st.emitPos) else none) = none := by
      cases hasTools with
      | false => rfl
      | true =>
        rw [if_pos rfl]
        cases hf : findAnyToolStart (T.drop st.emitPos) with
        | none => rfl
        | some t => exact absurd ⟨t, rfl, hf⟩ htool
    have hend : contentEnd hasTools T S = utf8StreamSafeLen T st.emitPos T.length := by
      obtain ⟨L, hSL, hLp, heq, hold⟩ := id h
      have hnoneS : (if hasTools then findAnyToolStart (T.drop S) else none) = none := by
        cases hasTools with
        | false => rfl
        | true =>
          rw [if_pos rfl] at hnone ⊢
          rw [findAnyToolStart_eq_none_iff] at hnone ⊢
          intro i hi
          rw [toolStartAt_drop] at hi
          have hLi := (hold rfl).2 (S + i) (by omega) hi
          have hle := utf8StreamSafeLen_le (s := T) hSL
          refine hnone (S + i - st.emitPos) ?_
          rw [toolStartAt_drop, show st.emitPos + (S + i - st.emitPos) = S + i by omega]
          exact hi
      simp only [contentEnd, hnoneS]
      rw [heq, utf8StreamSafeLen_compose, Nat.max_eq_right (by omega)]
    have hlimit : max st.emitPos (textStreamSafeLimit T st.emitPos T.length hasTools true) =
        contentEnd hasTools T S := by
      rw [hend]
      rcases Nat.lt_or_ge st.emitPos T.length with hlt | hge
      · have hval : textStreamSafeLimit T st.emitPos T.length hasTools true =
            utf8StreamSafeLen T st.emitPos T.length := by
          cases hasTools with
          | true =>
            rw [if_pos rfl] at hnone
            simp only [textStreamSafeLimit, if_neg (show ¬ T.length ≤ st.emitPos by omega),
              if_true, hnone]
          | false =>
            simp only [textStreamSafeLimit, if_neg (show ¬ T.length ≤ st.emitPos by omega),
              Bool.false_eq_true, if_false]
        rw [hval, Nat.max_eq_right (le_utf8StreamSafeLen _ _ _)]
      · rw [utf8StreamSafeLen_of_le hge]
        simp only [textStreamSafeLimit, if_pos hge]
        omega
    have hge : st.emitPos ≤ contentEnd hasTools T S := hend ▸ le_utf8StreamSafeLen _ _ _
    obtain ⟨es1, he1, hs1⟩ := emitRange_text sink T
      (textStreamSafeLimit T st.emitPos T.length hasTools true) st hs
    rw [hlimit, hC, slice_append_slice hb.1 hge] at hs1
    obtain ⟨es2, he2, hr2, hR2, hC2⟩ := sink.textDone_ok es1 false (hs1.ready (by simp))
    refine ⟨{ st with
        emitPos := max st.emitPos (textStreamSafeLimit T st.emitPos T.length hasTools true)
        mode := .suppress }, es2, ?_, rfl, ⟨fun hne => absurd rfl hne, ?_, ?_⟩⟩
    · simp only [textUpdate, hnone, he1, if_true, he2]
    · rw [hR2, hs1.reasoning]
    · rw [hC2, hs1.content]

/-- The prefix check waits while the few bytes could begin the tag, and otherwise
finds the start of the reasoning. -/
theorem checkThinkPrefix_inv {T R : Bytes} {p p' : Nat} {final : Bool}
    {st : ReasoningStream} (hpp : p ≤ p') (hp' : p' ≤ T.length)
    (hfin : final = true → p' = T.length) (h : ThinkInv T p st R) :
    (checkThinkPrefix (T.take p') p' final st = none ∧ final = false ∧
      ThinkInv T p' st R ∧ p' < 7) ∨
    ∃ st1, checkThinkPrefix (T.take p') p' final st = some st1 ∧
      st1.mode = st.mode ∧ st1.checkedThinkPrefix = true ∧ ThinkPos T st1.emitPos p' R := by
  unfold ThinkInv at h ⊢
  unfold checkThinkPrefix
  split at h
  · rename_i hc
    right
    rw [if_pos hc]
    exact ⟨st, rfl, rfl, hc, { h with le_seen := Nat.le_trans h.le_seen hpp }⟩
  · rename_i hc
    obtain ⟨hpos, rfl⟩ := h
    rw [if_neg hc]
    split
    · rename_i hwait
      left
      exact ⟨rfl, hwait.2.2, by simp [hpos], by simpa using hwait.1⟩
    · rename_i hgo
      right
      have hstarts : startsWith (T.take p') thinkOpen = true ↔
          startsWith T thinkOpen = true ∧ 7 ≤ p' := by
        have := occursAt_take (s := T) (p := p') (i := 0) thinkOpen_ne_nil
        simpa [startsWith, occursAt_zero] using this
      have hpe : (if thinkOpen.length ≤ p' ∧ startsWith (T.take p') thinkOpen = true
          then thinkOpen.length else st.emitPos) = thinkBodyStart T := by
        simp only [hpos, thinkBodyStart, hstarts, length_thinkOpen]
        by_cases hs : startsWith T thinkOpen = true
        · have h7 : 7 ≤ p' := by
            rcases Nat.lt_or_ge p' 7 with hlt | hge
            · have hpre : thinkOpen <+: T := by simpa [startsWith] using hs
              have hlen : 7 ≤ T.length := by simpa using hpre.length_le
              refine absurd ⟨by simpa using hlt, ?_, ?_⟩ hgo
              · obtain ⟨r, rfl⟩ := hpre
                rw [List.take_take, Nat.min_self, List.take_append_of_le_length (by simp; omega)]
              · cases final with
                | false => rfl
                | true => have := hfin rfl; omega
            · exact hge
          rw [if_pos ⟨h7, hs, h7⟩, if_pos hs]
        · rw [if_neg (fun h => hs h.2.1), if_neg hs]
      refine ⟨_, rfl, rfl, rfl, ?_⟩
      simp only [hpe]
      refine ⟨Nat.le_refl _, ?_, by simp, fun i hi _ => hi⟩
      rw [← hpe, hpos]
      split
      · rename_i h7; exact h7.1
      · omega

/-- A closing tag seen in the prefix is the closing tag of the text. -/
theorem ThinkPos.close {T R : Bytes} {e p c : Nat} (h : ThinkPos T e p R)
    (hc : findSubstrFrom (T.take p) p e thinkClose = some c) :
    thinkCloseAt T = some c ∧ e ≤ c ∧ c + 8 ≤ p := by
  rw [findSubstrFrom_eq_some_iff thinkClose_ne_nil, length_thinkClose] at hc
  obtain ⟨⟨hec, hcp, hocc⟩, hmin⟩ := hc
  rw [occursAt_take thinkClose_ne_nil] at hocc
  have hcT := hocc.1.add_length_le thinkClose_ne_nil
  have hbe := h.start_le
  refine ⟨thinkCloseAt_eq_some_iff.mpr ⟨⟨by omega, ?_, hocc.1⟩, fun j hj hjc hbad => ?_⟩,
    hec, hcp⟩
  · simpa using hcT
  · have hej := h.no_close j hj hbad
    refine hmin j hej hjc ⟨(occursAt_take thinkClose_ne_nil).mpr ⟨hbad, ?_⟩, by omega⟩
    rw [length_thinkClose]
    omega

/-- Without a closing tag in the prefix, none starts before the hold-back. -/
theorem ThinkPos.hold {T R : Bytes} {e p : Nat} (h : ThinkPos T e p R)
    (hc : findSubstrFrom (T.take p) p e thinkClose = none) :
    ThinkPos T (max e (thinkingLimit (T.take p) p false e none)) p
      (slice T (thinkBodyStart T) (max e (thinkingLimit (T.take p) p false e none))) := by
  have hbe := h.start_le
  have hep := h.le_seen
  rw [findSubstrFrom_eq_none_iff thinkClose_ne_nil, length_thinkClose] at hc
  obtain ⟨limit, hlimit⟩ : ∃ limit, limit = thinkingLimit (T.take p) p false e none := ⟨_, rfl⟩
  have hle : limit ≤ max e (p - 7) := by
    simp only [hlimit, thinkingLimit, Bool.false_eq_true, if_false, length_thinkClose]
    split
    · rcases Nat.le_total e (p - 7) with hh | hh
      · exact Nat.le_trans (utf8StreamSafeLen_le hh) (by omega)
      · exact Nat.le_trans (Nat.le_of_eq (utf8StreamSafeLen_of_le hh)) (by omega)
    · exact Nat.le_trans (utf8StreamSafeLen_le (Nat.le_refl e)) (by omega)
  rw [← hlimit]
  refine ⟨by omega, by omega, rfl, fun i hi hbad => ?_⟩
  have hei := h.no_close i hi hbad
  rcases Nat.lt_or_ge i (max e limit) with hlt | hge
  · refine absurd ⟨(occursAt_take thinkClose_ne_nil).mpr ⟨hbad, ?_⟩, ?_⟩ (hc i hei) <;>
      (try rw [length_thinkClose]) <;> omega
  · exact hge

/-- A thinking call leaves the mode as it was when it does not see the closing tag, ends the
reasoning at the tag, or, at the end of the text, ends it there. -/
theorem thinkingUpdate_inv (final : Bool) {T R : Bytes} {p p' : Nat}
    {st : ReasoningStream} {es : σ} (hpp : p ≤ p') (hp' : p' ≤ T.length)
    (hfin : final = true → p' = T.length) (hmode : st.mode = .thinking)
    (h : ThinkInv T p st R) (hs : Holds sink .thinking es R []) :
    ∃ st' es' R', thinkingUpdate emit (T.take p') p' final st es = (true, st', es') ∧
      ((st'.mode = .thinking ∧ final = false ∧ (∀ c, thinkCloseAt T = some c → p' < c + 8) ∧
          ThinkInv T p' st' R' ∧ Holds sink .thinking es' R' []) ∨
        (st'.mode = .text ∧ R' = streamedReasoning .enabled T ∧ st'.emitPos ≤ p' ∧
          contentStart .enabled T = some st'.emitPos ∧ Holds sink .text es' R' []) ∨
        (st'.mode = .suppress ∧ final = true ∧ R' = streamedReasoning .enabled T ∧
          contentStart .enabled T = none ∧ Holds sink .suppress es' R' [])) := by
  rcases checkThinkPrefix_inv hpp hp' hfin h with
    ⟨hnone, hf, hinv, hshort⟩ | ⟨st1, hsome, hm1, hc1, hpos⟩
  · refine ⟨st, es, R, by simp only [thinkingUpdate, hnone],
      Or.inl ⟨hmode, hf, fun c _ => by omega, hinv, hs⟩⟩
  cases hclose : findSubstrFrom (T.take p') p' st1.emitPos thinkClose with
  | some c =>
    obtain ⟨hcT, hec, hcp⟩ := hpos.close hclose
    obtain ⟨es1, he1, hs1⟩ := emitRange_reasoning sink (T.take p') c st1 hs
    rw [Nat.max_eq_right hec, slice_take (by omega), hpos.handed,
      slice_append_slice hpos.start_le hec] at hs1
    obtain ⟨es2, he2, hr2, hR2, hC2⟩ := sink.reasoningDone_ok es1 true (hs1.ready (by simp))
    refine ⟨{ st1 with emitPos := c + thinkClose.length, mode := .text }, es2, _, ?_,
      Or.inr (Or.inl ⟨rfl, rfl, by simpa using hcp, by simp [contentStart, hcT], ?_⟩)⟩
    · simp only [thinkingUpdate, hsome, hclose, thinkingLimit, he1, he2]
    · refine ⟨fun _ => hr2, ?_, by rw [hC2, hs1.content]⟩
      rw [hR2, hs1.reasoning]
      simp only [streamedReasoning, hcT, Option.getD_some]
  | none =>
    obtain ⟨limit, hlimit⟩ : ∃ limit, limit =
      thinkingLimit (T.take p') p' final st1.emitPos none := ⟨_, rfl⟩
    obtain ⟨es1, he1, hs1⟩ := emitRange_reasoning sink (T.take p') limit st1 hs
    cases final with
    | false =>
      have hhold := hpos.hold hclose
      rw [← hlimit] at hhold
      have hge := hpos.start_le
      rw [slice_take hhold.le_seen, hpos.handed, slice_append_slice hge (by omega)] at hs1
      refine ⟨{ st1 with emitPos := max st1.emitPos limit }, es1, _, ?_,
        Or.inl ⟨hm1.trans hmode, rfl, fun c hc => ?_, ?_, hs1⟩⟩
      · simp only [thinkingUpdate, hsome, hclose, ← hlimit, he1, Bool.false_eq_true, if_false]
      · obtain ⟨⟨hbc, -, hocc⟩, -⟩ := thinkCloseAt_eq_some_iff.mp hc
        by_contra hseen
        have hin := (occursAt_take (p := p') thinkClose_ne_nil).mpr ⟨hocc, by simpa using hseen⟩
        exact (findSubstrFrom_eq_none_iff thinkClose_ne_nil).mp hclose c
          (hpos.no_close c hbc hocc) ⟨hin, by simpa using hseen⟩
      · rw [ThinkInv, if_pos hc1]
        exact hhold
    | true =>
      obtain rfl := hfin rfl
      have hlim : limit = T.length := by simp [hlimit, thinkingLimit]
      have hge := hpos.start_le
      have hle := hpos.le_seen
      rw [hlim, Nat.max_eq_right hle, slice_take (Nat.le_refl _), hpos.handed,
        slice_append_slice hge hle] at hs1
      have hcT : thinkCloseAt T = none := by
        rw [thinkCloseAt_eq_none_iff]
        rw [List.take_length, findSubstrFrom_eq_none_iff thinkClose_ne_nil] at hclose
        exact fun j hj hbad => hclose j (hpos.no_close j hj hbad)
          ⟨hbad, hbad.add_length_le thinkClose_ne_nil⟩
      obtain ⟨es2, he2, hr2, hR2, hC2⟩ := sink.reasoningDone_ok es1 false (hs1.ready (by simp))
      refine ⟨{ st1 with emitPos := max st1.emitPos limit, mode := .suppress }, es2, _, ?_,
        Or.inr (Or.inr ⟨rfl, rfl, rfl, by simp [contentStart, hcT], fun hne => absurd rfl hne,
          ?_, by rw [hC2, hs1.content]⟩)⟩
      · simp only [thinkingUpdate, hsome, hclose, ← hlimit, he1, he2, if_true]
      · rw [hR2, hs1.reasoning]
        simp only [streamedReasoning, hcT, Option.getD_none]

/-- A text call on a longer prefix keeps the invariant. -/
theorem textUpdate_growing {think : ThinkMode} {hasTools : Bool} {T R C : Bytes} {S p p' : Nat}
    {st : ReasoningStream} {es : σ} (hpp : p ≤ p') (hm : st.mode = .text)
    (hS : contentStart think T = some S) (hR : R = streamedReasoning think T)
    (hC : C = slice T S st.emitPos) (hheld : HeldBack hasTools T S st.emitPos p)
    (hs : Holds sink .text es R C) :
    ∃ st' es' R' C', textUpdate emit hasTools (T.take p') p' false st es = (true, st', es') ∧
      SplitInv think hasTools T p' st' R' C' ∧ Holds sink st'.mode es' R' C' := by
  by_cases htool : ∃ t, hasTools = true ∧
      findAnyToolStart ((T.take p').drop st.emitPos) = some t
  · obtain ⟨t, rfl, ht⟩ := htool
    have hat := (findAnyToolStart_eq_some_iff.mp ht).1.bounds.1
    rw [List.length_drop, List.length_take] at hat
    have htl : trimToolSeparatorWs T S (st.emitPos + t) ≤ st.emitPos + t :=
      retreat_le _ _ _ _
    obtain ⟨st', es', hup, hm', hs', -⟩ := textUpdate_tool sink false hpp (Nat.le_refl _) hheld
      hC ht (by omega) hs
    refine ⟨st', es', _, _, hup, ?_, by rw [hm']; exact hs'⟩
    simp only [SplitInv, hm', streamedContent, hS]
    exact ⟨hR, trivial⟩
  · have hnone : hasTools = true →
        findAnyToolStart ((T.take p').drop st.emitPos) = none := fun h1 => by
      cases hf : findAnyToolStart ((T.take p').drop st.emitPos) with
      | none => rfl
      | some t => exact absurd ⟨t, h1, hf⟩ htool
    obtain ⟨es', e, hup, hheld', hs'⟩ := textUpdate_hold sink hpp (Nat.le_refl _) hheld hC hnone hs
    refine ⟨_, es', _, _, hup, ?_, by rw [hm]; exact hs'⟩
    simp only [SplitInv, hm]
    exact ⟨S, hS, hR, rfl, hheld'⟩

/-- A call on a longer prefix keeps the invariant. -/
theorem splitUpdate_growing {think : ThinkMode} {hasTools : Bool} {T R C : Bytes} {p p' : Nat}
    {st : ReasoningStream} {es : σ} (hpp : p ≤ p') (hp' : p' ≤ T.length)
    (h : SplitInv think hasTools T p st R C) (hs : Holds sink st.mode es R C) :
    ∃ st' es' R' C', splitUpdate emit hasTools (T.take p') p' false st es = (true, st', es') ∧
      SplitInv think hasTools T p' st' R' C' ∧ Holds sink st'.mode es' R' C' := by
  unfold splitUpdate
  cases hm : st.mode with
  | thinking =>
    simp only [SplitInv, hm] at h
    obtain ⟨rfl, rfl, hinv⟩ := h
    rw [hm] at hs
    obtain ⟨st1, es1, R1, hup, hcase⟩ :=
      thinkingUpdate_inv sink false hpp hp' (fun hf => by simp at hf) hm hinv hs
    simp only [hup]
    rcases hcase with ⟨hm1, -, -, hinv1, hs1⟩ | ⟨hm1, hR1, hle, hS, hs1⟩ | ⟨-, hf, -⟩
    · refine ⟨st1, es1, R1, [], by simp [hm1], ?_, by rw [hm1]; exact hs1⟩
      simp only [SplitInv, hm1]
      exact ⟨trivial, trivial, hinv1⟩
    · simp only [hm1, if_true]
      exact textUpdate_growing sink hle hm1 hS hR1 (slice_self T _).symm
        (HeldBack.start _ _ (Nat.le_refl _)) hs1
    · simp at hf
  | text =>
    simp only [SplitInv, hm] at h
    obtain ⟨S, hS, hR, hC, hheld⟩ := h
    rw [hm] at hs
    exact textUpdate_growing sink hpp hm hS hR hC hheld hs
  | suppress =>
    refine ⟨st, es, R, C, rfl, ?_, hs⟩
    simp only [SplitInv, hm] at h ⊢
    exact h

/-- The final call hands out the rest of the declarative split. -/
theorem splitUpdate_final {think : ThinkMode} {hasTools : Bool} {T R C : Bytes} {p : Nat}
    {st : ReasoningStream} {es : σ} (hp : p ≤ T.length)
    (h : SplitInv think hasTools T p st R C) (hs : Holds sink st.mode es R C) :
    ∃ st' es', splitUpdate emit hasTools T T.length true st es = (true, st', es') ∧
      Holds sink .suppress es' (streamedReasoning think T)
        (streamedContent think hasTools T) := by
  have htext : ∀ {S q : Nat} {R C : Bytes} {st : ReasoningStream} {es : σ}, q ≤ T.length →
      contentStart think T = some S → R = streamedReasoning think T →
      C = slice T S st.emitPos → HeldBack hasTools T S st.emitPos q →
      Holds sink .text es R C →
      ∃ st' es', textUpdate emit hasTools T T.length true st es = (true, st', es') ∧
        Holds sink .suppress es' (streamedReasoning think T)
          (streamedContent think hasTools T) := by
    intro S q R C st es hq hS hR hC hheld hs
    obtain ⟨st', es', hup, -, hs'⟩ := textUpdate_final sink hq hheld hC hs
    refine ⟨st', es', hup, ?_⟩
    simp only [streamedContent, hS]
    rwa [← hR]
  unfold splitUpdate
  cases hm : st.mode with
  | thinking =>
    simp only [SplitInv, hm] at h
    obtain ⟨rfl, rfl, hinv⟩ := h
    rw [hm] at hs
    obtain ⟨st1, es1, R1, hup, hcase⟩ :=
      thinkingUpdate_inv sink true hp (Nat.le_refl _) (fun _ => rfl) hm hinv hs
    rw [List.take_length] at hup
    simp only [hup]
    rcases hcase with ⟨-, hf, -⟩ | ⟨hm1, hR1, hle, hS, hs1⟩ | ⟨hm1, -, hR1, hS, hs1⟩
    · simp at hf
    · simp only [hm1, if_true]
      exact htext hle hS hR1 (slice_self T _).symm (HeldBack.start _ _ (Nat.le_refl _)) hs1
    · refine ⟨st1, es1, by simp [hm1], ?_⟩
      simp only [streamedContent, hS]
      rwa [← hR1]
  | text =>
    simp only [SplitInv, hm] at h
    obtain ⟨S, hS, hR, hC, hheld⟩ := h
    rw [hm] at hs
    exact htext hp hS hR hC hheld hs
  | suppress =>
    simp only [SplitInv, hm] at h
    rw [hm] at hs
    obtain ⟨rfl, rfl⟩ := h
    exact ⟨st, es, rfl, hs⟩

/-! ## Runs -/

/-- A fresh splitter. -/
theorem splitInv_init (think : ThinkMode) (hasTools : Bool) (T : Bytes) :
    SplitInv think hasTools T 0 (reasoningStreamInit think) [] [] := by
  cases think with
  | none =>
    refine ⟨0, rfl, rfl, by simp [reasoningStreamInit], ?_⟩
    exact HeldBack.start hasTools T (Nat.le_refl 0)
  | enabled => exact ⟨rfl, rfl, by simp [ThinkInv, reasoningStreamInit]⟩

end Sink

section Run

variable {σ : Type}

/-- The calls with `final = false`, on the prefixes of the given lengths. -/
def feedPrefixes
    (update : Bytes → Nat → Bool → ReasoningStream → σ → Bool × ReasoningStream × σ)
    (T : Bytes) : List Nat → ReasoningStream → σ → Bool × ReasoningStream × σ
  | [], st, es => (true, st, es)
  | p :: ps, st, es =>
      match update (T.take p) p false st es with
      | (false, st, es) => (false, st, es)
      | (true, st, es) => feedPrefixes update T ps st es

/-- The calls on prefixes, then the final call on the whole text. -/
def feed
    (update : Bytes → Nat → Bool → ReasoningStream → σ → Bool × ReasoningStream × σ)
    (T : Bytes) (cuts : List Nat) (st : ReasoningStream) (es : σ) :
    Bool × ReasoningStream × σ :=
  match feedPrefixes update T cuts st es with
  | (false, st, es) => (false, st, es)
  | (true, st, es) => update T T.length true st es

variable {emit : σ → Emit → Bool × σ} {shows : Bool} (sink : DeltaSink emit shows)

/-- Calls on growing prefixes keep the invariant. -/
theorem feedPrefixes_inv {think : ThinkMode} {hasTools : Bool} {T : Bytes} :
    ∀ (cuts : List Nat) {p : Nat} {st : ReasoningStream} {es : σ} {R C : Bytes},
      p ≤ T.length → (∀ q ∈ cuts, p ≤ q ∧ q ≤ T.length) → cuts.Pairwise (· ≤ ·) →
      SplitInv think hasTools T p st R C → Holds sink st.mode es R C →
      ∃ p' st' es' R' C', feedPrefixes (splitUpdate emit hasTools) T cuts st es =
          (true, st', es') ∧ p' ≤ T.length ∧
        SplitInv think hasTools T p' st' R' C' ∧ Holds sink st'.mode es' R' C'
  | [], p, st, es, R, C, hp, _, _, h, hs => ⟨p, st, es, R, C, rfl, hp, h, hs⟩
  | q :: cuts, p, st, es, R, C, hp, hcuts, hpw, h, hs => by
      obtain ⟨hpq, hq⟩ := hcuts q (by simp)
      obtain ⟨hqs, hpw⟩ := List.pairwise_cons.mp hpw
      obtain ⟨st1, es1, R1, C1, hup, h1, hs1⟩ := splitUpdate_growing sink hpq hq h hs
      have hrest := feedPrefixes_inv cuts hq
        (fun r hr => ⟨hqs r hr, (hcuts r (by simp [hr])).2⟩) hpw h1 hs1
      simpa only [feedPrefixes, hup] using hrest

/-- However the text was cut, the run hands out the declarative split. -/
theorem feed_eq (hasTools : Bool) (think : ThinkMode) (es : σ) {T : Bytes} {cuts : List Nat}
    (hcuts : ∀ q ∈ cuts, q ≤ T.length) (hpw : cuts.Pairwise (· ≤ ·))
    (hs : Holds sink (reasoningStreamInit think).mode es [] []) :
    ∃ st' es', feed (splitUpdate emit hasTools) T cuts (reasoningStreamInit think) es =
        (true, st', es') ∧
      Holds sink .suppress es' (streamedReasoning think T)
        (streamedContent think hasTools T) := by
  obtain ⟨p, st, es1, R, C, hrun, hp, h, hs1⟩ := feedPrefixes_inv sink cuts (Nat.zero_le _)
    (fun q hq => ⟨Nat.zero_le q, hcuts q hq⟩) hpw (splitInv_init think hasTools T) hs
  obtain ⟨st', es', hup, hs'⟩ := splitUpdate_final sink hp h hs1
  exact ⟨st', es', by simp only [feed, hrun, hup], hs'⟩

end Run

end Sf37.Server

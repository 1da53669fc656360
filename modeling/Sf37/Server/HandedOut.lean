/-
Sf37.Server.HandedOut — what the updates of a stream hand out, whoever sends it.

An update gives its orders to an emitter. `record` is the emitter that only notes them; an
emitter that never fails and stays in step with it (`Follows`) goes through the same
stream states.

* `bufferUpdate_follows`, `liveUpdates_follows`: one update, and several.
* `CleanUpdate`: an update hands out no NUL byte; `bufferUpdate_follows` says that then
  none was noted.
-/
import Sf37.Server.LiveEvents
import Sf37.Run.Guarded

namespace Sf37.Server

open Sf37.Text Sf37.Run

/-! ## Recording -/

/-- The pieces of reasoning and of text, and how each of the two ended. -/
structure Handed where
  reasoning : List Bytes := []
  closed : Option Bool := none
  text : List Bytes := []
  ended : Option Bool := none
  deriving DecidableEq, Repr

/-- The emitter that notes its orders. -/
def record (h : Handed) : Emit → Bool × Handed
  | .reasoning t => (true, { h with reasoning := h.reasoning ++ [t] })
  | .reasoningDone closed => (true, { h with closed := some closed })
  | .text t => (true, { h with text := h.text ++ [t] })
  | .textDone tool => (true, { h with ended := some tool })

/-- An emitter in step with the recording one. -/
structure Follows {σ : Type} (emit : σ → Emit → Bool × σ)
    (rel : StreamMode → Handed → σ → Prop) : Prop where
  reasoning : ∀ h es t, rel .thinking h es → ∃ es', emit es (.reasoning t) = (true, es') ∧
    rel .thinking (record h (.reasoning t)).2 es'
  reasoningDone : ∀ h es closed, rel .thinking h es →
    ∃ es', emit es (.reasoningDone closed) = (true, es') ∧
      rel (if closed then .text else .suppress) (record h (.reasoningDone closed)).2 es'
  text : ∀ h es t, rel .text h es → ∃ es', emit es (.text t) = (true, es') ∧
    rel .text (record h (.text t)).2 es'
  textDone : ∀ h es tool, rel .text h es → ∃ es', emit es (.textDone tool) = (true, es') ∧
    rel .suppress (record h (.textDone tool)).2 es'

/-! ## NUL bytes -/

/-- No piece has a NUL byte; reasoning counts where it is shown. -/
def Handed.Clean (h : Handed) (shows : Bool) : Prop :=
  (shows = true → ∀ t ∈ h.reasoning, NulFree t) ∧ ∀ t ∈ h.text, NulFree t

/-- The content that an update hands out from a position on has no NUL byte. -/
def CleanText (hasTools : Bool) (raw : Bytes) (rawLen : Nat) (final : Bool) (pos : Nat) : Prop :=
  NulFree (slice raw pos (bufferSafeLimit raw pos rawLen hasTools final))

/-- Nor does what an update hands out in the mode it is called in. -/
def CleanUpdate (hasTools shows : Bool) (raw : Bytes) (rawLen : Nat) (final : Bool)
    (st : ReasoningStream) : Prop :=
  match st.mode with
  | .thinking =>
      match checkThinkPrefix raw rawLen final st with
      | none => True
      | some st =>
          let close := findSubstrFrom raw rawLen st.emitPos thinkClose
          let limit := thinkingLimit raw rawLen final st.emitPos close
          (shows = true → NulFree (slice raw st.emitPos limit)) ∧
            ∀ c, close = some c → CleanText hasTools raw rawLen final (c + thinkClose.length)
  | .text => CleanText hasTools raw rawLen final st.emitPos
  | .suppress => True

instance (hasTools : Bool) (raw : Bytes) (rawLen : Nat) (final : Bool) (pos : Nat) :
    Decidable (CleanText hasTools raw rawLen final pos) :=
  inferInstanceAs (Decidable (NulFree _))

@[simp] theorem slice_of_le {s : Bytes} {lo hi : Nat} (h : hi ≤ lo) : slice s lo hi = [] := by
  simp [slice, Nat.sub_eq_zero_of_le h]

theorem Handed.clean_reasoning (h : Handed) (t : Bytes) (shows : Bool) :
    (record h (.reasoning t)).2.Clean shows ↔ h.Clean shows ∧ (shows = true → NulFree t) := by
  simp only [Handed.Clean, record, List.mem_append, List.mem_singleton]
  constructor
  · rintro ⟨hr, ht⟩
    exact ⟨⟨fun hs t' ht' => hr hs t' (.inl ht'), ht⟩, fun hs => hr hs t (.inr rfl)⟩
  · rintro ⟨⟨hr, ht⟩, hnew⟩
    exact ⟨fun hs t' ht' => ht'.elim (hr hs t') fun heq => heq ▸ hnew hs, ht⟩

theorem Handed.clean_text (h : Handed) (t : Bytes) (shows : Bool) :
    (record h (.text t)).2.Clean shows ↔ h.Clean shows ∧ NulFree t := by
  simp only [Handed.Clean, record, List.mem_append, List.mem_singleton]
  constructor
  · rintro ⟨hr, ht⟩
    exact ⟨⟨hr, fun t' ht' => ht t' (.inl ht')⟩, ht t (.inr rfl)⟩
  · rintro ⟨⟨hr, ht⟩, hnew⟩
    exact ⟨hr, fun t' ht' => ht'.elim (ht t') fun heq => heq ▸ hnew⟩

/-! ## One update -/

section Update

variable {σ : Type} {emit : σ → Emit → Bool × σ} {rel : StreamMode → Handed → σ → Prop}

/-- A piece of reasoning. -/
theorem emitRange_reasoning_follows (hf : Follows emit rel) (raw : Bytes) (limit : Nat)
    (st : ReasoningStream) {h : Handed} {es : σ} (hrel : rel .thinking h es) :
    ∃ pos h' es', emitRange record raw .reasoning limit st h =
        (true, { st with emitPos := pos }, h') ∧
      emitRange emit raw .reasoning limit st es = (true, { st with emitPos := pos }, es') ∧
      rel .thinking h' es' ∧ ∀ shows, h'.Clean shows ↔
        h.Clean shows ∧ (shows = true → NulFree (slice raw st.emitPos limit)) := by
  unfold emitRange
  by_cases hlt : st.emitPos < limit
  · obtain ⟨es', hemit, hrel'⟩ := hf.reasoning h es (slice raw st.emitPos limit) hrel
    refine ⟨limit, _, es', ?_, ?_, hrel', h.clean_reasoning _⟩
    · rw [if_pos hlt]
      rfl
    · rw [if_pos hlt, hemit]
  · refine ⟨st.emitPos, h, es, if_neg hlt, if_neg hlt, hrel, fun shows => ?_⟩
    rw [slice_of_le (Nat.le_of_not_lt hlt)]
    exact ⟨fun hc => ⟨hc, fun _ => List.not_mem_nil⟩, And.left⟩

/-- A piece of content. -/
theorem emitRange_text_follows (hf : Follows emit rel) (raw : Bytes) (limit : Nat)
    (st : ReasoningStream) {h : Handed} {es : σ} (hrel : rel .text h es) :
    ∃ pos h' es', emitRange record raw .text limit st h =
        (true, { st with emitPos := pos }, h') ∧
      emitRange emit raw .text limit st es = (true, { st with emitPos := pos }, es') ∧
      rel .text h' es' ∧ ∀ shows, h'.Clean shows ↔
        h.Clean shows ∧ NulFree (slice raw st.emitPos limit) := by
  unfold emitRange
  by_cases hlt : st.emitPos < limit
  · obtain ⟨es', hemit, hrel'⟩ := hf.text h es (slice raw st.emitPos limit) hrel
    refine ⟨limit, _, es', ?_, ?_, hrel', h.clean_text _⟩
    · rw [if_pos hlt]
      rfl
    · rw [if_pos hlt, hemit]
  · refine ⟨st.emitPos, h, es, if_neg hlt, if_neg hlt, hrel, fun shows => ?_⟩
    rw [slice_of_le (Nat.le_of_not_lt hlt)]
    exact ⟨fun hc => ⟨hc, List.not_mem_nil⟩, And.left⟩

/-- The `STREAM_TEXT` branch. After the final call nothing follows. -/
theorem bufferTextUpdate_follows (hf : Follows emit rel) (hasTools : Bool) (raw : Bytes)
    (rawLen : Nat) (final : Bool) (st : ReasoningStream) (hmode : st.mode = .text) {h : Handed}
    {es : σ} (hrel : rel .text h es) :
    ∃ st' h' es', bufferTextUpdate record hasTools raw rawLen final st h = (true, st', h') ∧
      bufferTextUpdate emit hasTools raw rawLen final st es = (true, st', es') ∧
      rel st'.mode h' es' ∧ (final = true → st'.mode = .suppress) ∧
      ∀ shows, h'.Clean shows ↔
        h.Clean shows ∧ CleanText hasTools raw rawLen final st.emitPos := by
  obtain ⟨pos, h₁, es₁, hrecord, hemit, hrel₁, hclean⟩ := emitRange_text_follows hf raw
    (bufferSafeLimit raw st.emitPos rawLen hasTools final) st hrel
  unfold bufferTextUpdate
  dsimp only
  rw [hrecord, hemit]
  dsimp only
  cases (if hasTools then toolStartFrom raw st.emitPos else none) with
  | some t =>
    obtain ⟨es₂, hdone, hrel₂⟩ := hf.textDone h₁ es₁ true hrel₁
    refine ⟨_, _, es₂, rfl, ?_, hrel₂, fun _ => rfl, hclean⟩
    dsimp only
    rw [hdone]
  | none =>
    cases final with
    | true =>
      obtain ⟨es₂, hdone, hrel₂⟩ := hf.textDone h₁ es₁ false hrel₁
      refine ⟨_, _, es₂, rfl, ?_, hrel₂, fun _ => rfl, hclean⟩
      dsimp only
      rw [if_pos rfl, hdone]
    | false =>
      refine ⟨_, h₁, es₁, rfl, rfl, ?_, fun hfinal => (nomatch hfinal), hclean⟩
      dsimp only
      rwa [hmode]

/-- The prefix check leaves the mode, and waits only before the final call. -/
theorem checkThinkPrefix_cases (raw : Bytes) (rawLen : Nat) (final : Bool) (st : ReasoningStream) :
    (checkThinkPrefix raw rawLen final st = none ∧ final = false) ∨
      ∃ st', checkThinkPrefix raw rawLen final st = some st' ∧ st'.mode = st.mode := by
  unfold checkThinkPrefix
  split
  · exact .inr ⟨st, rfl, rfl⟩
  split
  · rename_i hwait
    exact .inl ⟨rfl, hwait.2.2⟩
  · exact .inr ⟨_, rfl, rfl⟩

/-- One update. -/
theorem bufferUpdate_follows (hf : Follows emit rel) (hasTools : Bool) (raw : Bytes)
    (rawLen : Nat) (final : Bool) (st : ReasoningStream) {h : Handed} {es : σ}
    (hrel : rel st.mode h es) :
    ∃ st' h' es', bufferUpdate record hasTools raw rawLen final st h = (true, st', h') ∧
      bufferUpdate emit hasTools raw rawLen final st es = (true, st', es') ∧
      rel st'.mode h' es' ∧ (final = true → st'.mode = .suppress) ∧
      ∀ shows, h'.Clean shows ↔
        h.Clean shows ∧ CleanUpdate hasTools shows raw rawLen final st := by
  unfold bufferUpdate CleanUpdate
  cases hmode : st.mode with
  | suppress =>
    rw [hmode] at hrel
    exact ⟨st, h, es, rfl, rfl, hmode ▸ hrel, fun _ => hmode, fun _ => by simp⟩
  | text =>
    rw [hmode] at hrel
    exact bufferTextUpdate_follows hf hasTools raw rawLen final st hmode hrel
  | thinking =>
    rw [hmode] at hrel
    unfold thinkingUpdate
    rcases checkThinkPrefix_cases raw rawLen final st with ⟨hwait, hfinal⟩ | ⟨st₁, hst₁, hmode₁⟩
    · rw [hwait]
      dsimp only
      rw [hmode]
      refine ⟨st, h, es, rfl, rfl, hmode ▸ hrel, fun hf => ?_, fun _ => by simp⟩
      rw [hfinal] at hf
      nomatch hf
    · rw [hst₁]
      dsimp only
      obtain ⟨pos, h₁, es₁, hrecord, hemit, hrel₁, hclean⟩ := emitRange_reasoning_follows hf raw
        (thinkingLimit raw rawLen final st₁.emitPos
          (findSubstrFrom raw rawLen st₁.emitPos thinkClose)) st₁ hrel
      rw [hrecord, hemit]
      dsimp only
      cases hclose : findSubstrFrom raw rawLen st₁.emitPos thinkClose with
      | some c =>
        rw [hclose] at hclean
        obtain ⟨es₂, hdone, hrel₂⟩ := hf.reasoningDone h₁ es₁ true hrel₁
        obtain ⟨st', h', es', hr, he, hrel', hend, hclean'⟩ := bufferTextUpdate_follows hf hasTools
          raw rawLen final { st₁ with emitPos := c + thinkClose.length, mode := .text } rfl hrel₂
        refine ⟨st', h', es', ?_, ?_, hrel', hend, fun shows => ?_⟩
        · simpa [record] using hr
        · simpa [hdone] using he
        · rw [hclean' shows]
          have hsame : (record h₁ (.reasoningDone true)).2.Clean shows ↔ h₁.Clean shows := Iff.rfl
          rw [hsame, hclean shows, and_assoc]
          simp
      | none =>
        rw [hclose] at hclean
        cases final with
        | true =>
          obtain ⟨es₂, hdone, hrel₂⟩ := hf.reasoningDone h₁ es₁ false hrel₁
          refine ⟨{ st₁ with emitPos := pos, mode := .suppress }, _, es₂, rfl, ?_, hrel₂,
            fun _ => rfl, fun shows => ?_⟩
          · simp [hdone]
          · exact (hclean shows).trans (by simp)
        | false =>
          refine ⟨{ st₁ with emitPos := pos }, h₁, es₁, ?_, ?_, ?_, fun hf => (nomatch hf),
            fun shows => ?_⟩
          · simp [hmode₁, hmode]
          · simp [hmode₁, hmode]
          · dsimp only
            rwa [hmode₁, hmode]
          · exact (hclean shows).trans (by simp)

end Update

/-! ## A run of updates -/

/-- A call of an update. -/
structure UpdateCall where
  raw : Bytes
  rawLen : Nat
  final : Bool

/-- The stream state behind a call. -/
def streamStep (hasTools : Bool) (st : ReasoningStream) (c : UpdateCall) : ReasoningStream :=
  (bufferUpdate record hasTools c.raw c.rawLen c.final st {}).2.1

/-- A call hands out no NUL byte. -/
def CleanCall (hasTools shows : Bool) (st : ReasoningStream) (c : UpdateCall) : Prop :=
  CleanUpdate hasTools shows c.raw c.rawLen c.final st

/-- What was noted before does not matter for the stream state. -/
theorem streamStep_eq {hasTools : Bool} {raw : Bytes} {rawLen : Nat} {final : Bool}
    {st st' : ReasoningStream} {h h' : Handed}
    (hrun : bufferUpdate record hasTools raw rawLen final st h = (true, st', h')) :
    streamStep hasTools st ⟨raw, rawLen, final⟩ = st' := by
  have hself : Follows record fun _ _ (_ : Handed) => True :=
    ⟨fun _ _ _ _ => ⟨_, rfl, trivial⟩, fun _ _ _ _ => ⟨_, rfl, trivial⟩,
      fun _ _ _ _ => ⟨_, rfl, trivial⟩, fun _ _ _ _ => ⟨_, rfl, trivial⟩⟩
  obtain ⟨st₁, h₁, es₁, hrecord, hempty, -⟩ :=
    @bufferUpdate_follows _ _ _ hself hasTools raw rawLen final st h {} trivial
  unfold streamStep
  rw [hempty]
  rw [hrun] at hrecord
  exact (congrArg (·.2.1) hrecord).symm

section Run

variable {σ : Type} {emit emit' : σ → Emit → Bool × σ} {rel : StreamMode → Handed → σ → Prop}

/-- The calls of updates before the final one. -/
def updateCalls (updates : List (Bytes × Nat)) : List UpdateCall :=
  updates.map fun u => ⟨u.1, u.2, false⟩

/-- Updates one after the other. -/
theorem liveUpdates_follows (hf : Follows emit rel) (hasTools : Bool)
    (updates : List (Bytes × Nat)) {st : ReasoningStream} {h : Handed} {es : σ}
    (hrel : rel st.mode h es) :
    ∃ st' h' es', st' = (updateCalls updates).foldl (streamStep hasTools) st ∧
      liveUpdates (fun raw rawLen => bufferUpdate emit hasTools raw rawLen false) updates st es =
        (true, st', es') ∧ rel st'.mode h' es' ∧ ∀ shows, h'.Clean shows ↔ h.Clean shows ∧
          Run.Guarded (streamStep hasTools) (CleanCall hasTools shows) st (updateCalls updates) := by
  induction updates generalizing st h es with
  | nil => exact ⟨st, h, es, rfl, rfl, hrel, fun _ => by simp [updateCalls, Run.Guarded]⟩
  | cons u updates ih =>
    obtain ⟨raw, rawLen⟩ := u
    obtain ⟨st₁, h₁, es₁, hrecord, hemit, hrel₁, -, hclean₁⟩ :=
      bufferUpdate_follows hf hasTools raw rawLen false st hrel
    obtain ⟨st', h', es', hst', hrun, hrel', hclean'⟩ := ih hrel₁
    have hstep := streamStep_eq hrecord
    refine ⟨st', h', es', ?_, ?_, hrel', fun shows => ?_⟩
    · rw [hst', updateCalls, updateCalls, List.map_cons, List.foldl_cons, hstep]
    · unfold liveUpdates
      rw [hemit]
      exact hrun
    · rw [hclean' shows, hclean₁ shows, and_assoc, updateCalls, updateCalls, List.map_cons,
        Run.Guarded, hstep]
      rfl

/-- A whole run: the updates, and the final call of an emitter of the same kind. -/
theorem run_follows (hf : Follows emit rel) (hf' : Follows emit' rel) (hasTools : Bool)
    (updates : List (Bytes × Nat)) (raw : Bytes) (rawLen : Nat) {st : ReasoningStream} {es : σ}
    (hrel : rel st.mode {} es) :
    ∃ st₁ es₁ st₂ h₂ es₂,
      liveUpdates (fun raw rawLen => bufferUpdate emit hasTools raw rawLen false) updates st es =
        (true, st₁, es₁) ∧
      bufferUpdate emit' hasTools raw rawLen true st₁ es₁ = (true, st₂, es₂) ∧
      (∃ h₁, rel st₁.mode h₁ es₁) ∧ rel .suppress h₂ es₂ ∧ ∀ shows, h₂.Clean shows ↔
        Run.Guarded (streamStep hasTools) (CleanCall hasTools shows) st
          (updateCalls updates ++ [⟨raw, rawLen, true⟩]) := by
  obtain ⟨st₁, h₁, es₁, hst₁, hrun, hrel₁, hclean₁⟩ := liveUpdates_follows hf hasTools updates hrel
  obtain ⟨st₂, h₂, es₂, -, hemit, hrel₂, hend, hclean₂⟩ :=
    bufferUpdate_follows hf' hasTools raw rawLen true st₁ hrel₁
  rw [hend rfl] at hrel₂
  refine ⟨st₁, es₁, st₂, h₂, es₂, hrun, hemit, ⟨h₁, hrel₁⟩, hrel₂, fun shows => ?_⟩
  have hstart : Handed.Clean {} shows :=
    ⟨fun _ _ ht => absurd ht List.not_mem_nil, fun _ ht => absurd ht List.not_mem_nil⟩
  rw [hclean₂ shows, hclean₁ shows, guarded_append, ← hst₁]
  simp only [hstart, true_and, Run.Guarded, and_true]
  rfl

end Run

end Sf37.Server

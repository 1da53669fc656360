/-
Sf37.Server.HandedText — what a whole run hands out of a text.

The text is seen as growing prefixes and then as a whole. What was handed out is the reasoning of
`Sf37.Server.LiveSplitTheorems` and content up to one of the places of `Sf37.Server.HeldContent`,
in pieces none of which is empty.

* `bufferUpdate_hands`: one call.
* `handsOut_exists`: a whole run, however the text was cut.
* `handsOut_shown`: a run whose content ends at an opener behind a NUL byte.
* `HandsOut.follows`: an emitter in step with the recorded run.
-/
import Sf37.Server.HeldContent
import Sf37.Server.ChunkIndependence

namespace Sf37.Server

open Sf37.Text

/-! ## Recording as a sink -/

/-- The pieces, put together. -/
def recordSink : DeltaSink record true where
  reasoning h := h.reasoning.flatten
  content h := h.text.flatten
  ready _ _ := True
  reasoning_ok h t _ := ⟨_, rfl, trivial, by simp, rfl⟩
  reasoningDone_ok h c _ := ⟨_, rfl, trivial, rfl, rfl⟩
  text_ok h t _ := ⟨_, rfl, trivial, rfl, by simp⟩
  textDone_ok h c _ := ⟨_, rfl, trivial, rfl, rfl⟩

/-! ## Pieces -/

/-- No piece is empty. -/
structure Handed.Solid (h : Handed) : Prop where
  reasoning : ∀ t ∈ h.reasoning, t ≠ []
  text : ∀ t ∈ h.text, t ≠ []

theorem Handed.Solid.reasoning_nil_iff {h : Handed} (hs : h.Solid) :
    h.reasoning = [] ↔ h.reasoning.flatten = [] := by
  constructor
  · intro hnil
    rw [hnil, List.flatten_nil]
  · intro hflat
    refine List.eq_nil_iff_forall_not_mem.mpr fun t ht => hs.reasoning t ht ?_
    exact List.flatten_eq_nil_iff.mp hflat t ht

theorem Handed.Solid.text_nil_iff {h : Handed} (hs : h.Solid) :
    h.text = [] ↔ h.text.flatten = [] := by
  constructor
  · intro hnil
    rw [hnil, List.flatten_nil]
  · intro hflat
    refine List.eq_nil_iff_forall_not_mem.mpr fun t ht => hs.text t ht ?_
    exact List.flatten_eq_nil_iff.mp hflat t ht

theorem slice_ne_nil {s : Bytes} {lo hi : Nat} (h : lo < hi) (hs : hi ≤ s.length) :
    slice s lo hi ≠ [] := by
  intro hnil
  have hlen := congrArg List.length hnil
  rw [length_slice hs, List.length_nil] at hlen
  omega

/-- A limit within the buffer. -/
theorem thinkingLimit_le (raw : Bytes) (final : Bool) (pos : Nat) :
    thinkingLimit raw raw.length final pos (findSubstrFrom raw raw.length pos thinkClose) ≤
      max pos raw.length := by
  cases hclose : findSubstrFrom raw raw.length pos thinkClose with
  | some c =>
    have hc := ((findSubstrFrom_eq_some_iff thinkClose_ne_nil).mp hclose).1.2.1
    simp only [thinkingLimit]
    omega
  | none =>
    simp only [thinkingLimit]
    split
    · omega
    · split
      · rcases Nat.le_total pos (raw.length - (thinkClose.length - 1)) with hle | hle
        · have := utf8StreamSafeLen_le (s := raw) hle
          omega
        · rw [utf8StreamSafeLen_of_le hle]
          omega
      · rw [utf8StreamSafeLen_of_le (Nat.le_refl _)]
        omega

theorem bufferSafeLimit_le (raw : Bytes) (start : Nat) (hasTools final : Bool) :
    bufferSafeLimit raw start raw.length hasTools final ≤ raw.length := by
  unfold bufferSafeLimit
  split
  · exact Nat.le_refl _
  rename_i hlt
  have hfull : utf8StreamSafeLen raw start raw.length ≤ raw.length :=
    utf8StreamSafeLen_le (by omega)
  split
  · split
    · rename_i t ht
      rw [← List.take_length (l := raw)] at ht
      have hat := (toolStartFrom_eq_some_iff.mp ht).1.2.1.of_take.bounds.1
      have htrim : start ≤ trimToolSeparatorWs raw start (start + t) := le_retreat (by omega)
      have htrim' : trimToolSeparatorWs raw start (start + t) ≤ start + t := retreat_le _ _ _ _
      have := utf8StreamSafeLen_le (s := raw) htrim
      omega
    · split
      · exact hfull
      · have hws : start ≤ retreat isspace raw start raw.length := le_retreat (by omega)
        have hws' : retreat isspace raw start raw.length ≤ raw.length := retreat_le _ _ _ _
        have hmark := @markerLookBack_bounds raw start raw.length _ hws
        dsimp only
        obtain ⟨M, hM⟩ : ∃ M, M = markerLookBack raw start raw.length
          (retreat isspace raw start raw.length) := ⟨_, rfl⟩
        rw [← hM] at hmark ⊢
        have htrim : start ≤ trimToolSeparatorWs raw start M := le_retreat hmark.1
        have htrim' : trimToolSeparatorWs raw start M ≤ M := retreat_le _ _ _ _
        have := utf8StreamSafeLen_le (s := raw) htrim
        omega
  · exact hfull

theorem emitRange_record_reasoning {raw : Bytes} {limit : Nat} {st : ReasoningStream} {h : Handed}
    (hs : h.Solid) (hl : limit ≤ max st.emitPos raw.length) :
    ∃ pos h', emitRange record raw .reasoning limit st h = (true, { st with emitPos := pos }, h') ∧
      h'.Solid ∧ h'.ended = h.ended := by
  unfold emitRange
  split
  · rename_i hlt
    refine ⟨limit, _, rfl, ⟨?_, hs.text⟩, rfl⟩
    intro t ht
    rcases List.mem_append.mp ht with ht | ht
    · exact hs.reasoning t ht
    · rw [List.mem_singleton.mp ht]
      exact slice_ne_nil hlt (by omega)
  · exact ⟨st.emitPos, h, rfl, hs, rfl⟩

theorem emitRange_record_text {raw : Bytes} {limit : Nat} {st : ReasoningStream} {h : Handed}
    (hs : h.Solid) (hl : limit ≤ raw.length) :
    ∃ ts, emitRange record raw .text limit st h =
        (true, { st with emitPos := max st.emitPos limit }, { h with text := h.text ++ ts }) ∧
      ts.flatten = slice raw st.emitPos (max st.emitPos limit) ∧
      Handed.Solid { h with text := h.text ++ ts } := by
  unfold emitRange
  split
  · rename_i hlt
    rw [Nat.max_eq_right (by omega)]
    refine ⟨[slice raw st.emitPos limit], rfl, by simp, ⟨hs.reasoning, ?_⟩⟩
    intro t ht
    rcases List.mem_append.mp ht with ht | ht
    · exact hs.text t ht
    · rw [List.mem_singleton.mp ht]
      exact slice_ne_nil hlt hl
  · rename_i hle
    rw [Nat.max_eq_left (by omega)]
    exact ⟨[], by rw [List.append_nil], by simp, by rwa [List.append_nil]⟩

/-! ## One call -/

/-- A thinking call does not end the content. -/
theorem thinkingUpdate_record (raw : Bytes) (final : Bool) (st : ReasoningStream) {h : Handed}
    (hs : h.Solid) :
    ∃ st' h', thinkingUpdate record raw raw.length final st h = (true, st', h') ∧ h'.Solid ∧
      h'.ended = h.ended := by
  unfold thinkingUpdate
  cases hcheck : checkThinkPrefix raw raw.length final st with
  | none => exact ⟨st, h, rfl, hs, rfl⟩
  | some st₁ =>
    dsimp only
    have hlimit := thinkingLimit_le raw final st₁.emitPos
    obtain ⟨pos, h₁, hrange, hs₁, hended⟩ := emitRange_record_reasoning hs hlimit
    rw [hrange]
    dsimp only
    cases findSubstrFrom raw raw.length st₁.emitPos thinkClose with
    | some c => exact ⟨_, _, rfl, ⟨hs₁.reasoning, hs₁.text⟩, hended⟩
    | none =>
      cases final with
      | true => exact ⟨_, _, rfl, ⟨hs₁.reasoning, hs₁.text⟩, hended⟩
      | false => exact ⟨_, _, rfl, hs₁, hended⟩

/-- All that a run hands out: the content, if it starts, up to a place where it may end. -/
structure HandedAll (think : ThinkMode) (hasTools : Bool) (T : Bytes) (h : Handed) : Prop where
  solid : h.Solid
  reasoning : h.reasoning.flatten = streamedReasoning think T
  content : (contentStart think T = none ∧ h.text.flatten = [] ∧ h.ended = none) ∨
    ∃ S E tool, contentStart think T = some S ∧ EndsAt hasTools T S E tool ∧
      h.text.flatten = slice T S E ∧ h.ended = some tool

/-- The text phase: content was handed out up to the position. -/
structure HandsText (think : ThinkMode) (hasTools : Bool) (T : Bytes) (p : Nat)
    (st : ReasoningStream) (h : Handed) (S : Nat) : Prop where
  start : contentStart think T = some S
  reasoning : h.reasoning.flatten = streamedReasoning think T
  text : h.text.flatten = slice T S st.emitPos
  ended : h.ended = none
  held : HeldAt hasTools T S p st.emitPos

/-- A splitter that has seen the first `p` bytes, with what it handed out. -/
def HandsInv (think : ThinkMode) (hasTools : Bool) (T : Bytes) (p : Nat) (st : ReasoningStream)
    (h : Handed) : Prop :=
  h.Solid ∧ match st.mode with
    | .thinking => think = .enabled ∧ h.text.flatten = [] ∧ h.ended = none ∧
        ThinkInv T p st h.reasoning.flatten
    | .text => ∃ S, HandsText think hasTools T p st h S
    | .suppress => HandedAll think hasTools T h ∧ h.ended = some true

/-- A text call. -/
theorem bufferTextUpdate_hands (final : Bool) {think : ThinkMode} {hasTools : Bool} {T : Bytes}
    {S p q : Nat} {st : ReasoningStream} {h : Handed} (hpq : p ≤ q) (hq : q ≤ T.length)
    (hfin : final = true → q = T.length) (hmode : st.mode = .text) (hs : h.Solid)
    (hinv : HandsText think hasTools T p st h S) :
    ∃ st' h', bufferTextUpdate record hasTools (T.take q) q final st h = (true, st', h') ∧
      (final = false → HandsInv think hasTools T q st' h') ∧
      (final = true → HandedAll think hasTools T h') := by
  have hlen : (T.take q).length = q := by rw [List.length_take, Nat.min_eq_left hq]
  have hlimit := bufferSafeLimit_le (T.take q) st.emitPos hasTools final
  obtain ⟨ts, hrange, hts, hs₁⟩ := @emitRange_record_text _ _ st _ hs hlimit
  rw [hlen] at hlimit hrange hts
  obtain ⟨hSe, hep⟩ := hinv.held.bounds
  have hpiece : h.text.flatten ++ ts.flatten =
      slice T S (max st.emitPos (bufferSafeLimit (T.take q) st.emitPos q hasTools final)) := by
    rw [hinv.text, hts, slice_take (by omega)]
    exact slice_append_slice hSe (Nat.le_max_left _ _)
  unfold bufferTextUpdate
  dsimp only
  rw [hrange]
  dsimp only
  cases htool : (if hasTools then toolStartFrom (T.take q) st.emitPos else none) with
  | some t =>
    cases hasTools with
    | false => nomatch htool
    | true =>
      have hall : HandedAll think true T { h with text := h.text ++ ts, ended := some true } :=
        ⟨⟨hs₁.reasoning, hs₁.text⟩, hinv.reasoning, .inr ⟨S, _, true, hinv.start,
          bufferSafeLimit_opener final hinv.held hq htool, by rw [← hpiece]; simp, rfl⟩⟩
      exact ⟨_, _, rfl, fun _ => ⟨hall.solid, hall, rfl⟩, fun _ => hall⟩
  | none =>
    have hnone : hasTools = true → toolStartFrom (T.take q) st.emitPos = none := by
      rintro rfl
      exact htool
    cases final with
    | true =>
      obtain rfl := hfin rfl
      rw [List.take_length] at hnone hpiece
      exact ⟨_, _, rfl, nofun, fun _ => ⟨⟨hs₁.reasoning, hs₁.text⟩, hinv.reasoning,
        .inr ⟨S, _, false, hinv.start, bufferSafeLimit_final hinv.held (by omega) hnone,
          by rw [← hpiece]; simp, rfl⟩⟩⟩
    | false =>
      refine ⟨_, _, rfl, fun _ => ⟨hs₁, ?_⟩, nofun⟩
      dsimp only
      rw [hmode]
      exact ⟨S, hinv.start, hinv.reasoning, by rw [← hpiece]; simp, hinv.ended,
        bufferSafeLimit_held hinv.held hpq hnone⟩

/-- A thinking call, and where it leaves the splitter. -/
theorem thinkingUpdate_hands (final : Bool) {hasTools : Bool} {T : Bytes} {p q : Nat}
    {st : ReasoningStream} {h : Handed} (hpq : p ≤ q) (hq : q ≤ T.length)
    (hfin : final = true → q = T.length) (hmode : st.mode = .thinking) (hs : h.Solid)
    (htext : h.text.flatten = []) (hended : h.ended = none)
    (hthink : ThinkInv T p st h.reasoning.flatten) :
    ∃ st' h', thinkingUpdate record (T.take q) q final st h = (true, st', h') ∧ h'.Solid ∧
      ((st'.mode = .thinking ∧ final = false ∧ (∀ c, thinkCloseAt T = some c → q < c + 8) ∧
          HandsInv .enabled hasTools T q st' h') ∨
        (st'.mode = .text ∧ HandsText .enabled hasTools T q st' h' st'.emitPos) ∨
        (st'.mode = .suppress ∧ final = true ∧ HandedAll .enabled hasTools T h')) := by
  have hholds : Holds recordSink .thinking h h.reasoning.flatten [] :=
    ⟨fun _ => trivial, rfl, htext⟩
  obtain ⟨st', h', R, hup, hcases⟩ :=
    thinkingUpdate_inv recordSink final hpq hq hfin hmode hthink hholds
  obtain ⟨_, _, hrecord, hs', hended'⟩ := thinkingUpdate_record (T.take q) final st hs
  rw [List.length_take, Nat.min_eq_left hq, hup] at hrecord
  cases hrecord
  rw [hended] at hended'
  refine ⟨st', h', hup, hs', ?_⟩
  rcases hcases with ⟨hm, hf, hopen, hinv, hh⟩ | ⟨hm, rfl, hle, hS, hh⟩ | ⟨hm, hf, rfl, hS, hh⟩
  · obtain rfl : h'.reasoning.flatten = R := hh.reasoning
    refine .inl ⟨hm, hf, hopen, hs', ?_⟩
    rw [hm]
    exact ⟨rfl, hh.content, hended', hinv⟩
  · refine .inr (.inl ⟨hm, hS, hh.reasoning, ?_, hended', HeldAt.start hasTools T hle⟩)
    rw [slice_self]
    exact hh.content
  · exact .inr (.inr ⟨hm, hf, hs', hh.reasoning, .inl ⟨hS, hh.content, hended'⟩⟩)

/-- A call on a longer prefix, or on the whole text. -/
theorem bufferUpdate_hands (final : Bool) {think : ThinkMode} {hasTools : Bool} {T : Bytes}
    {p q : Nat} {st : ReasoningStream} {h : Handed} (hpq : p ≤ q) (hq : q ≤ T.length)
    (hfin : final = true → q = T.length) (hinv : HandsInv think hasTools T p st h) :
    ∃ st' h', bufferUpdate record hasTools (T.take q) q final st h = (true, st', h') ∧
      (final = false → HandsInv think hasTools T q st' h') ∧
      (final = true → HandedAll think hasTools T h') := by
  obtain ⟨hs, hinv⟩ := id hinv
  unfold bufferUpdate
  cases hmode : st.mode with
  | suppress =>
    rw [hmode] at hinv
    refine ⟨st, h, rfl, fun _ => ⟨hs, ?_⟩, fun _ => hinv.1⟩
    rw [hmode]
    exact hinv
  | text =>
    rw [hmode] at hinv
    obtain ⟨S, hinv⟩ := hinv
    exact bufferTextUpdate_hands final hpq hq hfin hmode hs hinv
  | thinking =>
    rw [hmode] at hinv
    obtain ⟨rfl, htext, hended, hthink⟩ := hinv
    obtain ⟨st₁, h₁, hup, hs₁, hcases⟩ := @thinkingUpdate_hands final hasTools _ _ _ _ _ hpq hq
      hfin hmode hs htext hended hthink
    rw [hup]
    dsimp only
    rcases hcases with ⟨hm, rfl, -, hinv₁⟩ | ⟨hm, hinv₁⟩ | ⟨hm, rfl, hall⟩
    · rw [hm, if_neg nofun]
      exact ⟨st₁, h₁, rfl, fun _ => hinv₁, nofun⟩
    · rw [if_pos hm]
      exact bufferTextUpdate_hands final (Nat.le_refl q) hq hfin hm hs₁ hinv₁
    · rw [hm, if_neg nofun]
      exact ⟨st₁, h₁, rfl, nofun, fun _ => hall⟩

/-! ## A whole run -/

/-- A whole run over the text hands out `h`: calls on prefixes of the given lengths, and the last
call. -/
def HandsOut (think : ThinkMode) (hasTools : Bool) (T : Bytes) (cuts : List Nat) (h : Handed) :
    Prop :=
  ∃ st₁ h₁ st₂,
    liveUpdates (fun raw rawLen => bufferUpdate record hasTools raw rawLen false)
      (cuts.map fun q => (T.take q, q)) (reasoningStreamInit think) {} = (true, st₁, h₁) ∧
    h₁.ended ≠ some false ∧ bufferUpdate record hasTools T T.length true st₁ h₁ = (true, st₂, h)

theorem HandsOut.unique {think : ThinkMode} {hasTools : Bool} {T : Bytes} {cuts : List Nat}
    {h h' : Handed} (hrun : HandsOut think hasTools T cuts h)
    (hrun' : HandsOut think hasTools T cuts h') : h = h' := by
  obtain ⟨st₁, h₁, st₂, hupdates, -, hlast⟩ := hrun
  obtain ⟨st₁', h₁', st₂', hupdates', -, hlast'⟩ := hrun'
  rw [hupdates] at hupdates'
  cases hupdates'
  rw [hlast] at hlast'
  cases hlast'
  rfl

/-- A fresh splitter. -/
theorem handsInv_start (think : ThinkMode) (hasTools : Bool) (T : Bytes) :
    HandsInv think hasTools T 0 (reasoningStreamInit think) {} := by
  refine ⟨⟨nofun, nofun⟩, ?_⟩
  cases think with
  | none => exact ⟨0, rfl, rfl, rfl, rfl, HeldAt.start hasTools T (Nat.le_refl 0)⟩
  | enabled => exact ⟨rfl, rfl, rfl, by simp [ThinkInv, reasoningStreamInit]⟩

/-- Before the last call the content ends only at an opener. -/
theorem HandsInv.running {think : ThinkMode} {hasTools : Bool} {T : Bytes} {p : Nat}
    {st : ReasoningStream} {h : Handed} (hinv : HandsInv think hasTools T p st h) :
    h.ended ≠ some false := by
  obtain ⟨-, hinv⟩ := hinv
  split at hinv
  · rw [hinv.2.2.1]
    nofun
  · obtain ⟨S, hinv⟩ := hinv
    rw [hinv.ended]
    nofun
  · rw [hinv.2]
    nofun

theorem liveUpdates_hands {think : ThinkMode} {hasTools : Bool} {T : Bytes} {cuts : List Nat}
    {p : Nat} {st : ReasoningStream} {h : Handed} (hp : p ≤ T.length)
    (hcuts : ∀ q ∈ cuts, p ≤ q ∧ q ≤ T.length) (hpw : cuts.Pairwise (· ≤ ·))
    (hinv : HandsInv think hasTools T p st h) :
    ∃ p' st' h', p' ≤ T.length ∧
      liveUpdates (fun raw rawLen => bufferUpdate record hasTools raw rawLen false)
        (cuts.map fun q => (T.take q, q)) st h = (true, st', h') ∧
      HandsInv think hasTools T p' st' h' := by
  induction cuts generalizing p st h with
  | nil => exact ⟨p, st, h, hp, rfl, hinv⟩
  | cons q cuts ih =>
    obtain ⟨⟨hpq, hq⟩, hrest⟩ := List.forall_mem_cons.mp hcuts
    obtain ⟨hle, hpw'⟩ := List.pairwise_cons.mp hpw
    obtain ⟨st₁, h₁, hup, hinv₁, -⟩ := bufferUpdate_hands false hpq hq nofun hinv
    obtain ⟨p', st', h', hp', hrun, hinv'⟩ :=
      ih hq (fun q' hq' => ⟨hle q' hq', (hrest q' hq').2⟩) hpw' (hinv₁ rfl)
    refine ⟨p', st', h', hp', ?_, hinv'⟩
    rw [List.map_cons, liveUpdates, hup]
    exact hrun

/-- However the text was cut, a run hands out its reasoning, and its content up to a place where
it may end. -/
theorem handsOut_exists (think : ThinkMode) (hasTools : Bool) {T : Bytes} {cuts : List Nat}
    (hcuts : ∀ q ∈ cuts, q ≤ T.length) (hpw : cuts.Pairwise (· ≤ ·)) :
    ∃ h, HandsOut think hasTools T cuts h ∧ HandedAll think hasTools T h := by
  obtain ⟨p, st₁, h₁, hp, hrun, hinv⟩ := liveUpdates_hands (Nat.zero_le _)
    (fun q hq => ⟨Nat.zero_le q, hcuts q hq⟩) hpw (handsInv_start think hasTools T)
  obtain ⟨st₂, h₂, hup, -, hall⟩ := bufferUpdate_hands true hp (Nat.le_refl _) (fun _ => rfl) hinv
  rw [List.take_length] at hup
  exact ⟨h₂, ⟨st₁, h₁, st₂, hrun, hinv.running, hup⟩, hall rfl⟩

/-! ## An opener behind a NUL byte -/

/-- A buffer that ends at the first byte of an opener is handed out up to the white space of the
opener. -/
theorem bufferSafeLimit_before {T : Bytes} {S i : Nat} (hSi : S ≤ i) (hat : ToolStartAt T i)
    (hnone : toolStartFrom (T.take (i + 1)) S = none) :
    bufferSafeLimit (T.take (i + 1)) S (i + 1) true false =
      utf8StreamSafeLen T S (trimToolSeparatorWs T S i) := by
  have hlt : (T.take (i + 1))[i]? = some 0x3c := by
    rw [List.getElem?_take, if_pos (by omega)]
    exact hat.bounds.2
  have hW : retreat isspace (T.take (i + 1)) S (i + 1) = i + 1 := by
    rw [retreat, hlt, if_neg]
    simp [isspace]
  have hmark : markerLookBack (T.take (i + 1)) S (i + 1) (i + 1) = i := by
    unfold markerLookBack
    dsimp only
    rw [lastBefore, if_pos (by split <;> omega), hlt, if_pos (by decide)]
    simp
  have htrim : trimToolSeparatorWs (T.take (i + 1)) S i = trimToolSeparatorWs T S i :=
    retreat_congr fun k hk => by rw [List.getElem?_take, if_pos (by omega)]
  have htrimle : trimToolSeparatorWs T S i ≤ i := retreat_le _ _ _ _
  unfold bufferSafeLimit
  rw [if_neg (by omega), if_pos rfl, hnone]
  simp only [Bool.false_eq_true, if_false]
  rw [hW, hmark, htrim, utf8StreamSafeLen_take (by omega)]

/-- The first call reaches the text phase when it sees where the content starts. -/
theorem bufferUpdate_start {think : ThinkMode} {hasTools : Bool} {T : Bytes} {S q : Nat}
    (hS : contentStart think T = some S) (hSq : S ≤ q) (hq : q ≤ T.length) :
    ∃ st h, st.mode = .text ∧ st.emitPos = S ∧ h.Solid ∧ h.ended = none ∧
      bufferUpdate record hasTools (T.take q) q false (reasoningStreamInit think) {} =
        bufferTextUpdate record hasTools (T.take q) q false st h := by
  cases think with
  | none =>
    obtain rfl : 0 = S := Option.some.inj hS
    exact ⟨reasoningStreamInit .none, {}, rfl, rfl, ⟨nofun, nofun⟩, rfl, rfl⟩
  | enabled =>
    obtain ⟨hs, -, htext, hended, hthink⟩ := handsInv_start .enabled hasTools T
    obtain ⟨st₁, h₁, hup, hs₁, hcases⟩ := @thinkingUpdate_hands false hasTools _ _ _ _ _
      (Nat.zero_le q) hq nofun rfl hs htext hended hthink
    have hupdate : bufferUpdate record hasTools (T.take q) q false (reasoningStreamInit .enabled)
        {} = if st₁.mode = .text then bufferTextUpdate record hasTools (T.take q) q false st₁ h₁
          else (true, st₁, h₁) := by
      have hmode : (reasoningStreamInit .enabled).mode = .thinking := rfl
      unfold bufferUpdate
      rw [hmode]
      dsimp only
      rw [hup]
    rcases hcases with ⟨-, -, hopen, -⟩ | ⟨hm, hinv⟩ | ⟨-, hf, -⟩
    · obtain ⟨c, hc, rfl⟩ := Option.map_eq_some_iff.mp hS
      have := hopen c hc
      rw [length_thinkClose] at hSq
      omega
    · refine ⟨st₁, h₁, hm, Option.some.inj (hinv.start.symm.trans hS), hs₁, hinv.ended, ?_⟩
      rw [hupdate, if_pos hm]
    · nomatch hf

/-- Cut at its first byte, a text shows the search an opener that stands behind a NUL byte. -/
theorem handsOut_shown {think : ThinkMode} {T : Bytes} {S i : Nat}
    (hS : contentStart think T = some S) (hnone : toolStartFrom T S = none)
    (hi : ShownOpener T S i) :
    ∃ h, HandsOut think true T [i + 1] h ∧ h.ended = some true := by
  obtain ⟨hSi, hat, hfree⟩ := hi
  have hin := hat.bounds.1
  have hnone₁ : toolStartFrom (T.take (i + 1)) S = none := by
    rw [toolStartFrom_eq_none_iff]
    rintro j ⟨hSj, hatj, hfreej⟩
    rw [← List.take_length (l := T), toolStartFrom_eq_none_iff] at hnone
    exact hnone j ⟨hSj, by rw [List.take_length]; exact hatj.of_take, hfreej⟩
  obtain ⟨st, h, hm, hpos, hs, hended, hup⟩ := @bufferUpdate_start _ true _ _ _ hS
    (show S ≤ i + 1 by omega) (by omega)
  have hlimit := bufferSafeLimit_before hSi hat hnone₁
  have hlen : (T.take (i + 1)).length = i + 1 := by
    rw [List.length_take]
    omega
  obtain ⟨ts, hrange, -, hs₁⟩ := @emitRange_record_text _ _ st _ hs
    (bufferSafeLimit_le (T.take (i + 1)) S true false)
  rw [hlen, hlimit, hpos, Nat.max_eq_right (le_utf8StreamSafeLen _ _ _)] at hrange
  obtain ⟨E, hE⟩ : ∃ E, E = utf8StreamSafeLen T S (trimToolSeparatorWs T S i) := ⟨_, rfl⟩
  rw [← hE] at hfree hlimit hrange
  have hfirst : bufferTextUpdate record true (T.take (i + 1)) (i + 1) false st h =
      (true, { st with emitPos := E }, { h with text := h.text ++ ts }) := by
    unfold bufferTextUpdate
    rw [hpos, hnone₁, hlimit]
    dsimp only
    rw [hrange]
    rfl
  -- from there on the last call sees the opener
  have hEi : E ≤ i := by
    have htrimle : trimToolSeparatorWs T S i ≤ i := retreat_le _ _ _ _
    have := utf8StreamSafeLen_le (s := T) (show S ≤ trimToolSeparatorWs T S i from le_retreat hSi)
    omega
  obtain ⟨t, ht⟩ : ∃ t, toolStartFrom T E = some t := by
    refine Option.ne_none_iff_exists'.mp fun hnone => ?_
    rw [← List.take_length (l := T), toolStartFrom_eq_none_iff] at hnone
    exact hnone i ⟨hEi, by rwa [List.take_length], hfree⟩
  obtain ⟨ts', hrange', -, -⟩ := @emitRange_record_text _ _ { st with emitPos := E } _ hs₁
    (bufferSafeLimit_le T E true true)
  dsimp only at hrange'
  rw [hm] at hrange'
  obtain ⟨st₂, h₂, hlast, hend⟩ : ∃ st₂ h₂,
      bufferUpdate record true T T.length true { st with emitPos := E }
        { h with text := h.text ++ ts } = (true, st₂, h₂) ∧ h₂.ended = some true := by
    unfold bufferUpdate bufferTextUpdate
    dsimp only
    rw [hm]
    dsimp only
    rw [ht, if_pos rfl, hrange']
    exact ⟨_, _, rfl, rfl⟩
  refine ⟨h₂, ⟨_, _, st₂, ?_, ?_, hlast⟩, hend⟩
  · rw [List.map_cons, List.map_nil, liveUpdates, hup, hfirst]
    rfl
  · dsimp only
    rw [hended]
    nofun

/-! ## Other emitters -/

section Emitters

variable {σ : Type} {emit emit' : σ → Emit → Bool × σ} {rel rel' : StreamMode → Handed → σ → Prop}

/-- An emitter in step with the recorded updates. -/
theorem liveUpdates_record (hf : Follows emit rel) (hasTools : Bool)
    (updates : List (Bytes × Nat)) {st st' : ReasoningStream} {h h' : Handed} {es : σ}
    (hrel : rel st.mode h es)
    (hrun : liveUpdates (fun raw rawLen => bufferUpdate record hasTools raw rawLen false)
      updates st h = (true, st', h')) :
    ∃ es', liveUpdates (fun raw rawLen => bufferUpdate emit hasTools raw rawLen false) updates st
        es = (true, st', es') ∧ rel st'.mode h' es' := by
  induction updates generalizing st h es with
  | nil =>
    cases hrun
    exact ⟨es, rfl, hrel⟩
  | cons u updates ih =>
    obtain ⟨raw, rawLen⟩ := u
    obtain ⟨st₁, h₁, es₁, hrecord, hemit, hrel₁, -⟩ :=
      bufferUpdate_follows hf hasTools raw rawLen false st hrel
    unfold liveUpdates at hrun ⊢
    rw [hrecord] at hrun
    rw [hemit]
    exact ih hrel₁ hrun

/-- An emitter in step with a whole run. The last call may go to another one, in step from then
on. -/
theorem HandsOut.follows (hf : Follows emit rel) (hf' : Follows emit' rel')
    (hturn : ∀ m h es, h.ended ≠ some false → rel m h es → rel' m h es) {think : ThinkMode}
    {hasTools : Bool} {T : Bytes} {cuts : List Nat} {h : Handed} {es : σ}
    (hrel : rel (reasoningStreamInit think).mode {} es)
    (hrun : HandsOut think hasTools T cuts h) :
    ∃ st₁ es₁ st₂ es₂,
      liveUpdates (fun raw rawLen => bufferUpdate emit hasTools raw rawLen false)
        (cuts.map fun q => (T.take q, q)) (reasoningStreamInit think) es = (true, st₁, es₁) ∧
      bufferUpdate emit' hasTools T T.length true st₁ es₁ = (true, st₂, es₂) ∧
      (∃ h₁, rel st₁.mode h₁ es₁) ∧ rel' .suppress h es₂ := by
  obtain ⟨st₁, h₁, st₂, hupdates, hrunning, hlast⟩ := hrun
  obtain ⟨es₁, hupdates', hrel₁⟩ := liveUpdates_record hf hasTools _ hrel hupdates
  obtain ⟨_, _, es₂, hrecord, hemit, hrel₂, hend, -⟩ :=
    bufferUpdate_follows hf' hasTools T T.length true st₁ (hturn _ _ _ hrunning hrel₁)
  rw [hend rfl] at hrel₂
  rw [hlast] at hrecord
  cases hrecord
  exact ⟨st₁, es₁, _, es₂, hupdates', hemit, ⟨h₁, hrel₁⟩, hrel₂⟩

end Emitters

end Sf37.Server

/-
Sf37.Server.LiveContinuation — the live records against the session they continue.

A record keeps how many tokens the session had and a continuation compares just that
number. It is safe as long as every session of that length is the one remembered.
Requests that go through see to it: they clear the records they do not continue. A
request that is refused for its length after a checkpoint was loaded, and one whose
prefill fails, leave another session behind and clear nothing.

* `serve_liveInv_iff`: a step keeps the records right exactly when the session such a
  request leaves is not mistaken for a remembered one.
* `liveAttached_held`: in a run of such steps every continuation has the tokens that
  were remembered.
-/
import Sf37.Server.RunGenerationTheorems

namespace Sf37.Server

open Sf37.Text Sf37.Run

/-! ## Right records -/

/-- No record takes the session for one it does not hold. -/
def NotMistaken (lives : List LiveState) (s : Session) : Prop :=
  ∀ live ∈ lives, live.valid = true → s.pos = live.liveTokens → s.checkpoint = live.held

/-- The live records of a state: each counts the tokens it holds, and none is mistaken
about the session. -/
structure LiveInv (st : ServerState) : Prop where
  count : ∀ live ∈ st.lives, live.valid = true → live.held.length = live.liveTokens
  right : NotMistaken st.lives st.session

/-- Whatever a live prompt helper attaches to is what was remembered. -/
structure AttachesHeld (cfg : Setup) (st : ServerState) (r : Request) : Prop where
  responsesVisible : 0 < (responsesLiveVisiblePrefixPrompt cfg st r st.session.pos).1 →
    st.session.checkpoint = st.responsesLive.held
  responses : 0 < (responsesLiveContinuationPrompt cfg st r st.session.pos).1 →
    st.session.checkpoint = st.responsesLive.held
  anthropic : 0 < (anthropicLiveContinuationPrompt cfg st r st.session.pos).1 →
    st.session.checkpoint = st.anthropicLive.held
  thinking : 0 < (thinkingLiveVisiblePrefixPrompt cfg st r st.session.pos).1 →
    st.session.checkpoint = st.thinkingLive.held

/-- The session a request leaves behind when it is refused for the context length or
when its prefill fails. -/
def abandonedSession (cfg : Setup) (st : ServerState) (r : Request) (a : Answers) :
    Option Session :=
  match choosePrompt cfg st r with
  | none => none
  | some c =>
      let look := lookupPrompt cfg st r c a
      if look.prompt = [] then none
      else if cfg.ctxSize ≤ look.prompt.length then some look.state.session
      else
        let filled := prefillSyncs cfg r c look a
        if filled.2.2 then none else some filled.1.session

/-- No request leaves a session behind that a live record takes for its own. -/
def AbandonsSafely (cfg : Setup) (st : ServerState) : Event → Prop
  | .request r a => ∀ s, abandonedSession cfg st r a = some s → NotMistaken st.lives s
  | .shutdown _ => True

/-! ## From right records to right continuations -/

theorem mem_lives {st : ServerState} :
    st.responsesLive ∈ st.lives ∧ st.anthropicLive ∈ st.lives ∧ st.thinkingLive ∈ st.lives := by
  simp [ServerState.lives]

theorem Attaches.held {cfg : Setup} {st : ServerState} {live : LiveState} {p : Nat × Tokens}
    (h : Attaches cfg st live p) (hinv : LiveInv st) (hlive : live ∈ st.lives) :
    st.session.checkpoint = live.held :=
  hinv.right live hlive h.valid h.liveTokens.symm

theorem LiveInv.attachesHeld {st : ServerState} (h : LiveInv st) (cfg : Setup) (r : Request) :
    AttachesHeld cfg st r where
  responsesVisible hp := (responsesLiveVisiblePrefixPrompt_attaches hp).held h mem_lives.1
  responses hp := (responsesLiveContinuationPrompt_attaches hp).held h mem_lives.1
  anthropic hp := (anthropicLiveContinuationPrompt_attaches hp).held h mem_lives.2.1
  thinking hp := (thinkingLiveVisiblePrefixPrompt_attaches hp).held h mem_lives.2.2

/-- With the records of a right state, being right is not being mistaken. -/
theorem liveInv_iff {st st' : ServerState} (h : LiveInv st) (hlives : st'.lives = st.lives) :
    LiveInv st' ↔ NotMistaken st.lives st'.session := by
  constructor
  · intro h'
    exact hlives ▸ h'.right
  · intro hr
    exact ⟨hlives ▸ h.count, hlives ▸ hr⟩

/-! ## Requests that go through -/

/-- The session has the tokens of a record, and maybe more. -/
def LiveState.Within (live : LiveState) (s : Session) : Prop :=
  live.valid = true → live.held.length = live.liveTokens ∧ live.held <+: s.checkpoint

/-- All records are within the session. -/
structure LiveWithin (st : ServerState) : Prop where
  responses : st.responsesLive.Within st.session
  anthropic : st.anthropicLive.Within st.session
  thinking : st.thinkingLive.Within st.session

theorem LiveWithin.liveInv {st : ServerState} (h : LiveWithin st) : LiveInv st := by
  have hall : ∀ live ∈ st.lives, live.Within st.session := by
    intro live hlive
    simp only [ServerState.lives, List.mem_cons, List.not_mem_nil, or_false] at hlive
    rcases hlive with rfl | rfl | rfl
    · exact h.responses
    · exact h.anthropic
    · exact h.thinking
  refine ⟨fun live hlive hv => (hall live hlive hv).1, fun live hlive hv hpos => ?_⟩
  obtain ⟨hlen, hpre⟩ := hall live hlive hv
  exact (hpre.eq_of_length (hlen.trans hpos.symm)).symm

theorem cleared_within (s : Session) : LiveState.Within {} s := fun h => by cases h

theorem LiveState.Within.grow {live : LiveState} {s s' : Session} (h : live.Within s)
    (hs : s.checkpoint <+: s'.checkpoint) : live.Within s' :=
  fun hv => ⟨(h hv).1, (h hv).2.trans hs⟩

/-- A longer session keeps the records within. -/
theorem LiveWithin.grow {st st' : ServerState} (h : LiveWithin st) (hlives : st'.lives = st.lives)
    (hs : st.session.checkpoint <+: st'.session.checkpoint) : LiveWithin st' := by
  simp only [ServerState.lives, List.cons.injEq, and_true] at hlives
  obtain ⟨hr, ha, ht⟩ := hlives
  exact ⟨hr ▸ h.responses.grow hs, ha ▸ h.anthropic.grow hs, ht ▸ h.thinking.grow hs⟩

theorem StoreFrame.liveWithin {reason : StoreReason} {header : Option Bytes}
    {st st' : ServerState} (h : StoreFrame reason header st st') (hw : LiveWithin st) :
    LiveWithin st' :=
  hw.grow h.lives (by rw [h.session])

/-! ### Remembering -/

theorem responsesLiveRemember_within {st : ServerState} (h : LiveWithin st) (visible : Bytes)
    (calls : List ToolCall) : LiveWithin (responsesLiveRemember st visible calls) := by
  rw [responsesLiveRemember]
  split
  · exact h
  · exact ⟨fun _ => ⟨rfl, List.prefix_rfl⟩, h.anthropic, h.thinking⟩

theorem anthropicLiveRemember_within {st : ServerState} (h : LiveWithin st)
    (calls : List ToolCall) : LiveWithin (anthropicLiveRemember st calls) := by
  rw [anthropicLiveRemember]
  split
  · exact h
  · exact ⟨h.responses, fun _ => ⟨rfl, List.prefix_rfl⟩, h.thinking⟩

theorem thinkingLiveRemember_within {st : ServerState} (h : LiveWithin st) (visible : Bytes) :
    LiveWithin (thinkingLiveRemember st visible) := by
  rw [thinkingLiveRemember]
  split
  · exact h
  · exact ⟨h.responses, h.anthropic, fun _ => ⟨rfl, List.prefix_rfl⟩⟩

theorem responsesLiveClear_within {st : ServerState} (h : LiveWithin st) :
    LiveWithin (responsesLiveClear st) :=
  ⟨cleared_within _, h.anthropic, h.thinking⟩

theorem anthropicLiveClear_within {st : ServerState} (h : LiveWithin st) :
    LiveWithin (anthropicLiveClear st) :=
  ⟨h.responses, cleared_within _, h.thinking⟩

theorem thinkingLiveClear_within {st : ServerState} (h : LiveWithin st) :
    LiveWithin (thinkingLiveClear st) :=
  ⟨h.responses, h.anthropic, cleared_within _⟩

theorem rememberApi_within {st : ServerState} (h : LiveWithin st) (r : Request) (reply : Reply) :
    LiveWithin (rememberApi st r reply) := by
  rw [rememberApi]
  cases r.api with
  | responses => exact responsesLiveRemember_within h _ _
  | anthropic =>
    dsimp only
    split
    · exact anthropicLiveRemember_within h _
    · exact anthropicLiveClear_within h
  | openai => exact h
  | completions => exact h

theorem rememberThinkingCheckpoint_within {st : ServerState} (h : LiveWithin st) (r : Request)
    (content : Bytes) : LiveWithin (rememberThinkingCheckpoint st r content) := by
  rw [rememberThinkingCheckpoint]
  split
  · exact h
  cases buildToollessThinkingVisibleText r content with
  | none => exact h
  | some visible => exact thinkingLiveRemember_within h visible

theorem rememberReply_within {st : ServerState} (h : LiveWithin st) (r : Request)
    (reply : Reply) : LiveWithin (rememberReply st r reply) := by
  rw [rememberReply]
  split
  · have hapi := rememberApi_within h r reply
    dsimp only
    split
    · exact thinkingLiveClear_within hapi
    · exact rememberThinkingCheckpoint_within hapi r reply.content
  · cases r.api with
    | responses => exact responsesLiveClear_within h
    | anthropic => exact anthropicLiveClear_within h
    | openai => exact h
    | completions => exact h

theorem decodeReply_within {st : ServerState} (h : LiveWithin st) (r : Request) (d : Decode) :
    LiveWithin (decodeReply st r d) := by
  have hdecode : LiveWithin (decodeTokens st d) :=
    h.grow rfl (List.prefix_append st.session.checkpoint d.evaluated)
  rw [decodeReply]
  cases d.reply with
  | none => exact hdecode
  | some reply => exact rememberReply_within hdecode r reply

/-! ### Clearing -/

/-- Once the records that are not continued are cleared, the others are within a session
that has the prompt. -/
theorem clearOtherLive_within {cfg : Setup} {st filled : ServerState} {r : Request} {c : Choice}
    (h : LiveInv st) (hc : c.Attached cfg st) (hlives : filled.lives = st.lives)
    (hprompt : 0 < c.cached → filled.session.checkpoint = c.prompt cfg r) :
    LiveWithin (clearOtherLive filled c) := by
  have hkeep : ∀ live ∈ st.lives,
      0 < c.cached ∧ Attaches cfg st live (c.cached, c.effectivePrompt) →
      live.Within filled.session := by
    intro live hlive hatt hv
    refine ⟨h.count live hlive hv, ?_⟩
    rw [← hatt.2.held h hlive, hprompt hatt.1]
    exact hatt.2.isPrefix hatt.1 r
  simp only [ServerState.lives, List.cons.injEq, and_true] at hlives
  obtain ⟨hr, ha, ht⟩ := hlives
  have hresponses : c.responsesLive = true → filled.responsesLive.Within filled.session :=
    fun hx => hr ▸ hkeep _ mem_lives.1 (hc.responses hx)
  have hanthropic : c.anthropicLive = true → filled.anthropicLive.Within filled.session :=
    fun hx => ha ▸ hkeep _ mem_lives.2.1 (hc.anthropic hx)
  have hthinking : c.thinkingLive = true → filled.thinkingLive.Within filled.session :=
    fun hx => ht ▸ hkeep _ mem_lives.2.2 (hc.thinking hx)
  rw [clearOtherLive]
  cases hcr : c.responsesLive <;> cases hca : c.anthropicLive <;> cases hct : c.thinkingLive <;>
    exact ⟨by first | exact cleared_within _ | exact hresponses hcr,
      by first | exact cleared_within _ | exact hanthropic hca,
      by first | exact cleared_within _ | exact hthinking hct⟩

/-- A prefill that goes through leaves the records within the session. -/
theorem settlePrefill_within {cfg : Setup} {st : ServerState} {r : Request} {c : Choice}
    {a : Answers} (h : LiveInv st) (hc : c.Attached cfg st)
    (hok : (prefillSyncs cfg r c (lookupPrompt cfg st r c a) a).2.2 = true) :
    LiveWithin (settlePrefill cfg (prefillSyncs cfg r c (lookupPrompt cfg st r c a) a).1 r c
      (lookupPrompt cfg st r c a) (prefillSyncs cfg r c (lookupPrompt cfg st r c a) a).2.1 a) := by
  have hlives := (prefillSyncs_lives cfg r c (lookupPrompt cfg st r c a) a).trans
    (lookupPrompt_lives cfg st r c a)
  have hclear := clearOtherLive_within h hc hlives fun hpos =>
    (prefillSyncs_done hok).trans (congrArg Looked.prompt (lookupPrompt_cached cfg st r a hpos))
  rw [settlePrefill]
  obtain ⟨mid, hstore, hnote, hsession⟩ := coldPromptStore_cases cfg
    (kvCacheMaybeStoreContinued cfg (clearOtherLive
      (prefillSyncs cfg r c (lookupPrompt cfg st r c a) a).1 c) a.continued) r
    (lookupPrompt cfg st r c a).prompt (coldStoreLen cfg r c (lookupPrompt cfg st r c a))
    (prefillSyncs cfg r c (lookupPrompt cfg st r c a) a).2.1 a.coldStore
  have hmid := hstore.liveWithin
    ((kvCacheMaybeStoreContinued_frame cfg _ a.continued).liveWithin hclear)
  exact hmid.grow hnote.lives (by rw [hsession])

/-! ## The step -/

theorem zeroPrompt_notMistaken {cfg : Setup} {st : ServerState} {r : Request} {c : Choice}
    {a : Answers} (h : LiveInv st) (hprompt : (lookupPrompt cfg st r c a).prompt = []) :
    NotMistaken st.lives (lookupPrompt cfg st r c a).state.session := by
  rcases lookupPrompt_session cfg st r c a with hs | hs | hs
  · rw [hs]
    exact h.right
  · intro live hlive hv hpos
    have hlen := (h.count live hlive hv).trans hpos.symm
    rw [Session.pos, hs, List.length_nil] at hlen
    rw [hs, List.length_eq_zero_iff.mp hlen]
  · exact absurd hprompt hs

/-- A request keeps the records right exactly when the session it abandons, if it does,
is not mistaken. -/
theorem runGeneration_liveInv_iff {cfg : Setup} {st : ServerState} (h : LiveInv st)
    (r : Request) (a : Answers) :
    LiveInv (runGeneration cfg st r a) ↔
      ∀ s, abandonedSession cfg st r a = some s → NotMistaken st.lives s := by
  have hnone : ∀ s, (none : Option Session) = some s → NotMistaken st.lives s := by
    intro s hs
    cases hs
  rw [runGeneration, abandonedSession]
  cases hc : choosePrompt cfg st r with
  | none => exact ⟨fun _ => hnone, fun _ => h⟩
  | some c =>
    dsimp only
    have hlook := lookupPrompt_lives cfg st r c a
    by_cases hzero : (lookupPrompt cfg st r c a).prompt = []
    · rw [if_pos (Or.inl hzero), if_pos hzero]
      exact ⟨fun _ => hnone,
        fun _ => (liveInv_iff h hlook).mpr (zeroPrompt_notMistaken h hzero)⟩
    by_cases hctx : cfg.ctxSize ≤ (lookupPrompt cfg st r c a).prompt.length
    · rw [if_pos (Or.inr hctx), if_neg hzero, if_pos hctx, liveInv_iff h hlook]
      exact ⟨fun hn s hs => Option.some.inj hs ▸ hn, fun hn => hn _ rfl⟩
    rw [if_neg (not_or.mpr ⟨hzero, hctx⟩), if_neg hzero, if_neg hctx]
    have hfilled := prefillSyncs_lives cfg r c (lookupPrompt cfg st r c a) a
    cases hok : (prefillSyncs cfg r c (lookupPrompt cfg st r c a) a).2.2 with
    | false =>
      rw [if_neg Bool.false_ne_true, if_neg Bool.false_ne_true,
        liveInv_iff h ((abandonPrefill_lives _ _ _).trans (hfilled.trans hlook)),
        abandonPrefill_session]
      exact ⟨fun hn s hs => Option.some.inj hs ▸ hn, fun hn => hn _ rfl⟩
    | true =>
      rw [if_pos rfl, if_pos rfl]
      have hset := settlePrefill_within h (choosePrompt_attached hc) hok
      refine ⟨fun _ => hnone, fun _ => ?_⟩
      split
      · exact (decodeReply_within hset r a.decode).liveInv
      · exact hset.liveInv

/-- Every event keeps the records right exactly when it abandons safely. -/
theorem serve_liveInv_iff {cfg : Setup} {st : ServerState} (h : LiveInv st) (e : Event) :
    LiveInv (serve cfg st e) ↔ AbandonsSafely cfg st e := by
  cases e with
  | request r a => exact runGeneration_liveInv_iff h r a
  | shutdown answer =>
    have hframe := kvCacheStoreCurrent_frame cfg st .shutdown answer
    refine ⟨fun _ => trivial, fun _ => (liveInv_iff h hframe.lives).mpr ?_⟩
    exact hframe.session.symm ▸ h.right

/-! ## Runs -/

theorem fresh_liveInv : LiveInv {} :=
  LiveWithin.liveInv ⟨cleared_within _, cleared_within _, cleared_within _⟩

/-- In a run whose requests abandon safely, whatever a request continues is what was
remembered. -/
theorem liveAttached_held {cfg : Setup} {st : ServerState}
    (h : Comes (serve cfg) Fresh (AbandonsSafely cfg) st) (r : Request) :
    AttachesHeld cfg st r := by
  have hinv : LiveInv st := by
    refine h.invariant ?_ ?_
    · rintro s rfl
      exact fresh_liveInv
    · intro s e hs he
      exact (serve_liveInv_iff hs e).mpr he
  exact hinv.attachesHeld cfg r

/-! ## Two runs -/

/-- A server whose tokens are bytes, with a context of twelve tokens and a disk store. -/
def byteSetup : Setup where
  ctxSize := 12
  tokenizeRenderedChat text := text.map UInt8.toNat
  renderTokensText tokens := tokens.map Nat.toUInt8
  imPatch := none
  rewindPreservesKv _ _ := true
  kv :=
    { enabled := true
      minTokens := 1
      minTokens_pos := Nat.one_pos
      coldMaxTokens := 0
      continuedIntervalTokens := 0
      boundaryTrimTokens := 0
      boundaryAlignTokens := 0 }

/-- A Responses request that is answered with one more token. -/
def answeredRequest : Event :=
  .request { api := .responses, promptText := bytes "ab" }
    { decode :=
        { evaluated := [0x63]
          reply := some { finish := .stop, wireFinish := .stop, content := bytes "c" } } }

theorem unkeyed_xyz : false = true → (imageCacheHeaderFromText (bytes "xyz")).isSome = true := nofun

/-- A chat request too long for the context, which finds a checkpoint of three tokens. -/
def refusedRequest : Event :=
  .request { api := .openai, promptText := bytes "xyzxyzxyzxyz" }
    { disk := .found { text := bytes "xyz", tokens := [0x78, 0x79, 0x7a], keyed := unkeyed_xyz } }

/-- The request that goes on from the answer. -/
def nextRequest : Request where
  api := .responses
  promptText := bytes "abcd"

/-- After an answer the next request goes on from the three tokens remembered. -/
theorem liveAttached_held_answered :
    (responsesLiveVisiblePrefixPrompt byteSetup (serve byteSetup {} answeredRequest)
        nextRequest (serve byteSetup {} answeredRequest).session.pos).1 = 3 ∧
      (serve byteSetup {} answeredRequest).session.checkpoint =
        (serve byteSetup {} answeredRequest).responsesLive.held := by
  have hsafe : AbandonsSafely byteSetup {} answeredRequest := by
    intro s hs
    have hnone : ∀ r a, answeredRequest = .request r a →
        abandonedSession byteSetup {} r a = none := by
      intro r a hra
      cases hra
      decide
    rw [hnone _ _ rfl] at hs
    cases hs
  have hn : (responsesLiveVisiblePrefixPrompt byteSetup (serve byteSetup {} answeredRequest)
      nextRequest (serve byteSetup {} answeredRequest).session.pos).1 = 3 := by decide
  have hstart : Comes (serve byteSetup) Fresh (AbandonsSafely byteSetup) {} := .start rfl
  exact ⟨hn, (liveAttached_held (hstart.step answeredRequest hsafe)
    nextRequest).responsesVisible (by rw [hn]; decide)⟩

/-- When a refused request in between loads as many tokens as were remembered, the next
one goes on from those. -/
theorem liveAttached_not_held :
    ¬ ∀ (cfg : Setup) (st : ServerState) (r : Request),
      Comes (serve cfg) Fresh (fun _ _ => True) st → AttachesHeld cfg st r := by
  intro h
  have hrun : Comes (serve byteSetup) Fresh (fun _ _ => True)
      ([answeredRequest, refusedRequest].foldl (serve byteSetup) {}) :=
    comes_run _ (Comes.start rfl) ⟨trivial, trivial, trivial⟩
  have hheld := (h byteSetup _ nextRequest hrun).responsesVisible (by decide)
  exact absurd hheld (by decide)

end Sf37.Server

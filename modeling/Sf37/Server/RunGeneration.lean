/-
Sf37.Server.RunGeneration — `run_generation` from the choice of a prompt to the live
records it leaves, as a step on the server state.

What the step cannot know is in `Answers`: what the disk has and accepts, how far the
evaluation of a prompt gets, and what the decode loop produces. The locks, the log
lines and the bytes of the answers are left out.

* `sessionSync`: a sync with the stores that its reports of progress cause.
* `choosePrompt`, `lookupPrompt`, `prefillSyncs`, `settlePrefill`, `decodeReply`: the
  stages of a request; `runGeneration` puts them together.
-/
import Sf37.Server.ServerState
import Sf37.Run.Guarded

namespace Sf37.Server

open Sf37.Text

/-! ## Requests and answers -/

/-- `request`, as far as generation asks. `images` is set when `request_has_images`
says so. -/
structure Request where
  api : ApiStyle
  promptText : Bytes
  images : Option ImageFeatures := none
  responsesLiveSuffixText : Option Bytes := none
  responsesLiveCallIds : List Bytes := []
  responsesRequiresLiveToolState : Bool := false
  anthropicLiveSuffixText : Option Bytes := none
  anthropicLiveCallIds : List Bytes := []
  anthropicRequiresLiveToolState : Bool := false
  hasTools : Bool := false
  promptPreservesReasoning : Bool := false
  reasoningSummaryEmit : Bool := false
  thinkMode : ThinkMode := .none
  deriving DecidableEq, Repr

/-- A checkpoint file the store comes up with; `imageKey` is `KV_EXT_IMAGE_KEY`, and an
image key begins with a header line. -/
structure DiskCheckpoint where
  text : Bytes
  tokens : Tokens
  imageKey : Bool := false
  keyed : imageKey = true → (imageCacheHeaderFromText text).isSome = true := by simp
  deriving DecidableEq

/-- What looking for a checkpoint comes to. -/
inductive DiskLookup where
  | miss
  | discarded
  | found (c : DiskCheckpoint)
  deriving DecidableEq

/-- A piece of a prompt evaluated between two reports of progress, and what the disk
does with a store made at the report. -/
structure Piece where
  size : Nat
  answer : StoreAnswer := .failed
  deriving DecidableEq, Repr

/-- The course of a sync: the pieces evaluated, and the fault it ends with, if any,
by whether it leaves the checkpoint valid. Without a fault what is left of the prompt
is the last piece. -/
structure SyncRun where
  pieces : List Piece := []
  last : StoreAnswer := .failed
  fault : Option Bool := none
  deriving DecidableEq, Repr

/-- What the final parse makes of the decoded text. -/
structure Reply where
  finish : Finish
  wireFinish : Finish
  content : Bytes := []
  reasoning : Bytes := []
  calls : List ToolCall := []
  /-- `append_official_tool_calls_text` on the calls. -/
  callsText : Bytes := []
  deriving DecidableEq, Repr

/-- The decode loop: the tokens it evaluates, whether the last evaluation leaves the
checkpoint valid, and the reply, unless the stream broke. -/
structure Decode where
  evaluated : Tokens := []
  valid : Bool := true
  reply : Option Reply := none
  deriving DecidableEq, Repr

/-- What a request meets with outside. -/
structure Answers where
  evict : StoreAnswer := .failed
  disk : DiskLookup := .miss
  coldSync : SyncRun := {}
  coldStore : StoreAnswer := .failed
  sync : SyncRun := {}
  continued : StoreAnswer := .failed
  streamStarted : Bool := true
  decode : Decode := {}
  deriving DecidableEq

/-! ## Sync -/

/-- `server_progress`, where it stores. -/
def serverProgress (cfg : Setup) (st : ServerState) (answer : StoreAnswer) : ServerState :=
  if 0 < st.session.pos then kvCacheMaybeStoreContinued cfg st answer else st

/-- Evaluate pieces of what is left of a prompt. -/
def evalPieces (cfg : Setup) : ServerState → Tokens → List Piece → ServerState × Tokens
  | st, rest, [] => (st, rest)
  | st, rest, piece :: pieces =>
      let st := { st with session := st.session.push (rest.take piece.size) }
      evalPieces cfg (serverProgress cfg st piece.answer) (rest.drop piece.size) pieces

/-- The session a sync evaluates from. An empty one is prefilled with the images of
the request. -/
def Session.syncStart (s : Session) (prompt : Tokens) (sig : Option ImageSignature)
    (images : Option ImageFeatures) : Session :=
  let base := s.syncBase prompt sig
  if base.checkpoint = [] then { base with rowsHeader := images.map imageCacheHeader } else base

/-- The last piece of a prompt, where one is left. -/
def evalLast (cfg : Setup) (st : ServerState) (rest : Tokens) (answer : StoreAnswer) :
    ServerState :=
  if rest = [] then st
  else serverProgress cfg { st with session := st.session.push rest } answer

/-- The session's signature after a sync. -/
def Session.noteSignature (s : Session) (sig : Option ImageSignature) : Session :=
  match sig with
  | none => s
  | some g => { s with imageSignature := some g }

/-- `sf37_session_sync_multimodal`, and without images `sf37_session_sync`. -/
def sessionSync (cfg : Setup) (st : ServerState) (prompt : Tokens)
    (images : Option ImageFeatures) (run : SyncRun) : ServerState × Bool :=
  match sessionSyncSignature cfg prompt images with
  | none => (st, false)
  | some sig =>
      let base := st.session.syncStart prompt sig images
      let evaluated :=
        evalPieces cfg { st with session := base } (prompt.drop base.checkpoint.length) run.pieces
      match run.fault with
      | some valid =>
          let st := evaluated.1
          ({ st with session := { st.session with checkpointValid := valid } }, false)
      | none =>
          let st := evalLast cfg evaluated.1 evaluated.2 run.last
          ({ st with session := st.session.noteSignature sig }, true)

/-! ## Live prompts -/

/-- `responses_live_matches_request` and `anthropic_live_matches_request`. -/
def liveMatchesRequest (live : LiveState) (ids : List Bytes) (liveTokens : Nat) : Bool :=
  ids != [] && live.valid && live.liveTokens == liveTokens &&
    live.callIds.length == ids.length && ids.all (fun id => id != [] && live.callIds.contains id)

/-- The exact tokens of the session with a text behind them, as
`sf37_kvstore_build_prompt_from_exact_prefix_and_text_suffix` makes them. -/
def promptFromLiveTokens (cfg : Setup) (st : ServerState) (suffixText : Bytes) : Nat × Tokens :=
  (st.session.pos, st.session.checkpoint ++ cfg.tokenizeRenderedChat suffixText)

/-- A continuation by call ids. -/
def liveContinuationPrompt (cfg : Setup) (st : ServerState) (live : LiveState)
    (suffixText : Option Bytes) (ids : List Bytes) (livePos : Nat) : Nat × Tokens :=
  match suffixText with
  | none => (0, [])
  | some suffix =>
      if ids = [] ∨ ¬ liveMatchesRequest live ids livePos ∨ st.session.pos ≠ livePos then (0, [])
      else promptFromLiveTokens cfg st suffix

/-- A continuation by visible text. -/
def liveVisiblePrefixPrompt (cfg : Setup) (st : ServerState) (live : LiveState)
    (promptText : Bytes) (livePos : Nat) : Nat × Tokens :=
  match live.visibleText with
  | none => (0, [])
  | some visible =>
      if live.valid ∧ live.liveTokens = livePos ∧ visible.length < promptText.length ∧
          visible <+: promptText ∧ st.session.pos = livePos then
        promptFromLiveTokens cfg st (promptText.drop visible.length)
      else (0, [])

/-- `responses_live_continuation_prompt`. -/
def responsesLiveContinuationPrompt (cfg : Setup) (st : ServerState) (r : Request)
    (livePos : Nat) : Nat × Tokens :=
  if r.api ≠ .responses then (0, [])
  else
    liveContinuationPrompt cfg st st.responsesLive r.responsesLiveSuffixText
      r.responsesLiveCallIds livePos

/-- `anthropic_live_continuation_prompt`. -/
def anthropicLiveContinuationPrompt (cfg : Setup) (st : ServerState) (r : Request)
    (livePos : Nat) : Nat × Tokens :=
  if r.api ≠ .anthropic then (0, [])
  else
    liveContinuationPrompt cfg st st.anthropicLive r.anthropicLiveSuffixText
      r.anthropicLiveCallIds livePos

/-- `responses_live_visible_prefix_prompt`. -/
def responsesLiveVisiblePrefixPrompt (cfg : Setup) (st : ServerState) (r : Request)
    (livePos : Nat) : Nat × Tokens :=
  if r.api ≠ .responses then (0, [])
  else liveVisiblePrefixPrompt cfg st st.responsesLive r.promptText livePos

/-- `thinking_live_visible_prefix_prompt`. -/
def thinkingLiveVisiblePrefixPrompt (cfg : Setup) (st : ServerState) (r : Request)
    (livePos : Nat) : Nat × Tokens :=
  if r.api = .responses then (0, [])
  else liveVisiblePrefixPrompt cfg st st.thinkingLive r.promptText livePos

/-- `live_text_prefix_prompt`. -/
def liveTextPrefixPrompt (cfg : Setup) (st : ServerState) (r : Request) : Nat × Tokens :=
  let liveText := cfg.renderTokensText st.session.checkpoint
  if st.session.checkpoint ≠ [] ∧ liveText <+: r.promptText then
    promptFromLiveTokens cfg st (r.promptText.drop liveText.length)
  else (0, [])

/-! ## The choice of a prompt -/

/-- The variables of `run_generation` that say where the prompt comes from. -/
structure Choice where
  cached : Nat := 0
  effectivePrompt : Tokens := []
  responsesLive : Bool := false
  anthropicLive : Bool := false
  thinkingLive : Bool := false
  deriving DecidableEq, Repr

/-- The continuations by a live record of the API. -/
def chooseLive (cfg : Setup) (st : ServerState) (r : Request) : Choice :=
  let visible := responsesLiveVisiblePrefixPrompt cfg st r st.session.pos
  let responses := responsesLiveContinuationPrompt cfg st r st.session.pos
  let anthropic := anthropicLiveContinuationPrompt cfg st r st.session.pos
  if r.images.isSome then {}
  else if 0 < visible.1 then
    { cached := visible.1, effectivePrompt := visible.2, responsesLive := true }
  else if 0 < responses.1 then
    { cached := responses.1, effectivePrompt := responses.2, responsesLive := true }
  else if 0 < anthropic.1 then
    { cached := anthropic.1, effectivePrompt := anthropic.2, anthropicLive := true }
  else {}

/-- The tokens of the prompt that the session has. -/
def chooseTokenPrefix (cfg : Setup) (st : ServerState) (r : Request) : Nat :=
  let prompt := cfg.tokenizeRenderedChat r.promptText
  match r.images with
  | none => sessionReusablePrefix cfg st.session prompt
  | some f =>
      if st.currentSessionHasImages ∧ st.currentImageCacheHeader = some (imageCacheHeader f) ∧
          0 < st.session.pos ∧ st.currentImageStoreMinTokens ≤ st.session.pos then
        sessionReusablePrefixMultimodal cfg st.session prompt f
      else 0

/-- The continuations by text. -/
def chooseByText (cfg : Setup) (st : ServerState) (r : Request) : Choice :=
  let thinking := thinkingLiveVisiblePrefixPrompt cfg st r st.session.pos
  let text := liveTextPrefixPrompt cfg st r
  if r.images.isSome then {}
  else if 0 < thinking.1 then
    { cached := thinking.1, effectivePrompt := thinking.2, thinkingLive := true }
  else { cached := text.1, effectivePrompt := text.2 }

/-- The choice of `run_generation`; `none` when it answers 409. -/
def choosePrompt (cfg : Setup) (st : ServerState) (r : Request) : Option Choice :=
  let live := chooseLive cfg st r
  if 0 < live.cached then some live
  else if r.responsesRequiresLiveToolState ∨ r.anthropicRequiresLiveToolState then none
  else if 0 < chooseTokenPrefix cfg st r then some { cached := chooseTokenPrefix cfg st r }
  else some (chooseByText cfg st r)

/-- The prompt chosen. -/
def Choice.prompt (c : Choice) (cfg : Setup) (r : Request) : Tokens :=
  if 0 < c.cached ∧ c.effectivePrompt ≠ [] then c.effectivePrompt
  else cfg.tokenizeRenderedChat r.promptText

/-! ## The disk -/

/-- The images the rows of a loaded checkpoint were prefilled with: those its image key
names, none under a text key. -/
def DiskCheckpoint.rowsHeader (c : DiskCheckpoint) : Option Bytes :=
  if c.imageKey then imageCacheHeaderFromText c.text else none

/-- `sf37_kvstore_try_load_text`: the checkpoint loaded. -/
def tryLoadText (cfg : Setup) (st : ServerState) (promptText : Bytes) :
    DiskLookup → ServerState × Option DiskCheckpoint
  | .miss => (st, none)
  | .discarded => ({ st with session := sessionRewind st.session 0 }, none)
  | .found c =>
      if c.text <+: promptText ∧ c.tokens ≠ [] ∧ cfg.kv.minTokens ≤ c.tokens.length ∧
          c.tokens.length ≤ cfg.ctxSize then
        ({ st with
            session := { checkpoint := c.tokens, rowsHeader := c.rowsHeader }
            continuedLastStoreTokens := c.tokens.length }, some c)
      else (st, none)

/-- `image_cache_safe_store_min_tokens`: up to behind the last image token. -/
def imageCacheSafeStoreMinTokens (cfg : Setup) (prompt : Tokens) : Nat :=
  match cfg.imPatch with
  | none => prompt.length
  | some t => prompt.length - (prompt.reverse.takeWhile (· != t)).length

/-- The state, the prompt and the number of cached tokens once the disk was asked. -/
structure Looked where
  state : ServerState
  prompt : Tokens
  cached : Nat
  deriving DecidableEq, Repr

/-- What a loaded checkpoint is used for. -/
def useLoaded (cfg : Setup) (st : ServerState) (r : Request) (lookupText : Bytes)
    (c : DiskCheckpoint) : Looked :=
  let cachedPrompt := c.tokens ++ cfg.tokenizeRenderedChat (lookupText.drop c.text.length)
  let loaded := c.tokens.length
  match r.images with
  | none => { state := st, prompt := cachedPrompt, cached := loaded }
  | some f =>
      let safeMin := imageCacheSafeStoreMinTokens cfg cachedPrompt
      if loaded < safeMin then
        { state := { st with session := sessionRewind st.session 0 }
          prompt := cfg.tokenizeRenderedChat r.promptText
          cached := 0 }
      else if c.imageKey then
        match sessionNoteImageFeatures cfg st.session cachedPrompt f with
        | none => { state := st, prompt := cachedPrompt, cached := 0 }
        | some session =>
            { state := { st with session := session }, prompt := cachedPrompt, cached := loaded }
      else { state := st, prompt := cachedPrompt, cached := loaded }

/-- `cache_lookup_text`. -/
def Request.cacheLookupText (r : Request) : Bytes :=
  match r.images with
  | none => r.promptText
  | some f => requestImageCacheText f r.promptText

/-- The eviction of a session that the request cannot use. -/
def evictCurrent (cfg : Setup) (st : ServerState) (c : Choice) (a : Answers) : ServerState :=
  if cfg.kv.enabled ∧ c.cached = 0 ∧ cfg.kv.minTokens ≤ st.session.pos then
    kvCacheStoreCurrent cfg st .evict a.evict
  else st

/-- The look-up of a checkpoint for the request. -/
def lookupPrompt (cfg : Setup) (st : ServerState) (r : Request) (c : Choice) (a : Answers) :
    Looked :=
  let st := evictCurrent cfg st c a
  if cfg.kv.enabled ∧ c.cached = 0 ∧ r.cacheLookupText ≠ [] then
    let loaded := tryLoadText cfg st r.cacheLookupText a.disk
    match loaded.2 with
    | none => { state := loaded.1, prompt := c.prompt cfg r, cached := 0 }
    | some ck => useLoaded cfg loaded.1 r r.cacheLookupText ck
  else { state := st, prompt := c.prompt cfg r, cached := c.cached }

/-! ## Prefill -/

/-- `kv_cache_chat_anchor_pos_sequences`. -/
def kvCacheChatAnchorPos (kv : KvOptions) (prompt userMarker assistantMarker : Tokens) :
    Option Nat :=
  if userMarker = [] ∨ assistantMarker = [] then none
  else
    let matchesAt (needle : Tokens) (pos : Nat) : Bool := decide (needle <+: prompt.drop pos)
    let assistantPos :=
      ((List.range prompt.length).find? (matchesAt assistantMarker)).getD prompt.length
    ((List.range assistantPos).reverse.find? (matchesAt userMarker)).filter
      (fun pos => decide (kv.minTokens ≤ pos))

/-- `kv_cache_official_chat_anchor_pos`. -/
def kvCacheOfficialChatAnchorPos (cfg : Setup) (prompt : Tokens) : Option Nat :=
  kvCacheChatAnchorPos cfg.kv prompt (cfg.tokenizeRenderedChat (bytes "<|im_start|>user\n"))
    (cfg.tokenizeRenderedChat (bytes "<|im_start|>assistant\n"))

/-- `cold_store_len`. -/
def coldStoreLen (cfg : Setup) (r : Request) (c : Choice) (look : Looked) : Nat :=
  if look.cached = 0 ∧ cfg.kv.enabled ∧ ¬ c.responsesLive ∧ ¬ c.anthropicLive ∧
      ¬ c.thinkingLive ∧ cfg.kv.minTokens ≤ look.prompt.length ∧ 0 < cfg.kv.coldMaxTokens ∧
      look.prompt.length ≤ cfg.kv.coldMaxTokens then
    if r.images.isSome then look.prompt.length
    else
      (kvCacheOfficialChatAnchorPos cfg look.prompt).getD (kvStoreLen cfg.kv look.prompt.length)
  else 0

/-- The image flags at the start of a prefill. -/
def setImageFlags (cfg : Setup) (st : ServerState) (images : Option ImageFeatures)
    (prompt : Tokens) : ServerState :=
  { st with
    currentSessionHasImages := images.isSome
    currentImageStoreMinTokens :=
      if images.isSome then imageCacheSafeStoreMinTokens cfg prompt else 0
    currentImageCacheHeader := images.map imageCacheHeader }

/-- The image flags after a sync that failed. -/
def dropImageFlags (st : ServerState) : ServerState :=
  { st with
    currentSessionHasImages := false
    currentImageStoreMinTokens := 0
    currentImageCacheHeader := none }

/-- What follows a cold store. -/
def noteColdStore (r : ServerState × Bool) (suppressed : Option Nat) (coldLen : Nat) :
    ServerState :=
  if r.2 then noteStore r.1 coldLen else restoreSuppressedContinued r.1 suppressed coldLen

/-- The sync and store of a cold prefix: the state, what is still suppressed, and
whether it went through. -/
def coldPrefixSync (cfg : Setup) (st : ServerState) (prompt : Tokens) (coldLen : Nat)
    (suppressed : Option Nat) (a : Answers) : ServerState × Option Nat × Bool :=
  if cfg.kv.enabled ∧ cfg.kv.minTokens ≤ coldLen ∧ coldLen < prompt.length then
    let synced := sessionSync cfg st (prompt.take coldLen) none a.coldSync
    if synced.2 then
      let stored := kvCacheStoreLivePrefixText cfg synced.1 prompt coldLen .cold
        (.tokenText (cfg.renderTokensText (prompt.take coldLen))) a.coldStore
      (noteColdStore stored suppressed coldLen, none, true)
    else (synced.1, suppressed, false)
  else (st, suppressed, true)

/-- The live records that the request does not continue are cleared. -/
def clearOtherLive (st : ServerState) (c : Choice) : ServerState :=
  let st := if c.responsesLive then st else responsesLiveClear st
  let st := if c.anthropicLive then st else anthropicLiveClear st
  if c.thinkingLive then st else thinkingLiveClear st

/-- The key of a cold prompt stored as a whole. -/
def coldPromptKey (cfg : Setup) (r : Request) (prompt : Tokens) : CacheKey :=
  match r.images with
  | some f => .image (imageCacheHeader f) r.promptText
  | none => .tokenText (cfg.renderTokensText prompt)

/-- The store of a cold prompt as a whole. -/
def coldPromptStore (cfg : Setup) (st : ServerState) (r : Request) (prompt : Tokens)
    (coldLen : Nat) (suppressed : Option Nat) (answer : StoreAnswer) : ServerState :=
  if coldLen = prompt.length then
    noteColdStore
      (kvCacheStoreLivePrefixText cfg st prompt coldLen .cold (coldPromptKey cfg r prompt) answer)
      suppressed coldLen
  else st

/-- The state at the start of a prefill and what is suppressed. -/
def prefillStart (cfg : Setup) (r : Request) (c : Choice) (look : Looked) :
    ServerState × Option Nat :=
  let coldLen := coldStoreLen cfg r c look
  let start :=
    if cfg.kv.minTokens ≤ coldLen then suppressContinuedStore cfg look.state coldLen
    else (look.state, none)
  (setImageFlags cfg start.1 r.images look.prompt, start.2)

/-- The two syncs of a prefill: the state, what is still suppressed, and whether both
went through. -/
def prefillSyncs (cfg : Setup) (r : Request) (c : Choice) (look : Looked) (a : Answers) :
    ServerState × Option Nat × Bool :=
  let start := prefillStart cfg r c look
  let cold := coldPrefixSync cfg start.1 look.prompt (coldStoreLen cfg r c look) start.2 a
  if cold.2.2 then
    let synced := sessionSync cfg cold.1 look.prompt r.images a.sync
    (synced.1, cold.2.1, synced.2)
  else cold

/-- What follows a prefill that failed. -/
def abandonPrefill (st : ServerState) (suppressed : Option Nat) (coldLen : Nat) : ServerState :=
  dropImageFlags (restoreSuppressedContinued st suppressed coldLen)

/-- What follows a prefill that went through. -/
def settlePrefill (cfg : Setup) (st : ServerState) (r : Request) (c : Choice) (look : Looked)
    (suppressed : Option Nat) (a : Answers) : ServerState :=
  coldPromptStore cfg (kvCacheMaybeStoreContinued cfg (clearOtherLive st c) a.continued) r
    look.prompt (coldStoreLen cfg r c look) suppressed a.coldStore

/-! ## Decode and remember -/

/-- The session after the decode loop. -/
def decodeTokens (st : ServerState) (d : Decode) : ServerState :=
  { st with
    session :=
      { st.session with
        checkpoint := st.session.checkpoint ++ d.evaluated
        checkpointValid := d.valid } }

/-- `build_responses_visible_assistant_suffix`. -/
def buildResponsesVisibleAssistantSuffix (r : Request) (reply : Reply) : Bytes :=
  (if r.thinkMode = .enabled then
    (if r.reasoningSummaryEmit ∧ reply.calls ≠ [] then reply.reasoning else []) ++
      bytes "</think>"
  else []) ++ reply.content ++ reply.callsText

/-- `build_toolless_thinking_visible_text`. -/
def buildToollessThinkingVisibleText (r : Request) (content : Bytes) : Option Bytes :=
  if r.thinkMode = .enabled ∧ bytes "<think>\n" <:+ r.promptText then
    some (r.promptText.take (r.promptText.length - 8) ++ content)
  else none

/-- `remember_thinking_checkpoint`. -/
def rememberThinkingCheckpoint (st : ServerState) (r : Request) (content : Bytes) : ServerState :=
  if r.hasTools ∨ r.promptPreservesReasoning ∨ r.thinkMode ≠ .enabled then st
  else
    match buildToollessThinkingVisibleText r content with
    | none => st
    | some visible => thinkingLiveRemember st visible

/-- The live record of the API after a reply. -/
def rememberApi (st : ServerState) (r : Request) (reply : Reply) : ServerState :=
  match r.api with
  | .responses =>
      responsesLiveRemember st (r.promptText ++ buildResponsesVisibleAssistantSuffix r reply)
        reply.calls
  | .anthropic =>
      if reply.calls ≠ [] then anthropicLiveRemember st reply.calls else anthropicLiveClear st
  | _ => st

/-- What `run_generation` remembers of a reply. -/
def rememberReply (st : ServerState) (r : Request) (reply : Reply) : ServerState :=
  if reply.finish ≠ .error ∧ reply.wireFinish ≠ .length then
    let st := rememberApi st r reply
    if reply.calls ≠ [] then thinkingLiveClear st
    else rememberThinkingCheckpoint st r reply.content
  else
    match r.api with
    | .responses => responsesLiveClear st
    | .anthropic => anthropicLiveClear st
    | _ => st

/-- Decoding, and remembering unless the stream breaks. -/
def decodeReply (st : ServerState) (r : Request) (d : Decode) : ServerState :=
  match d.reply with
  | none => decodeTokens st d
  | some reply => rememberReply (decodeTokens st d) r reply

/-! ## The step -/

/-- `run_generation`. -/
def runGeneration (cfg : Setup) (st : ServerState) (r : Request) (a : Answers) : ServerState :=
  match choosePrompt cfg st r with
  | none => st
  | some c =>
      let look := lookupPrompt cfg st r c a
      if look.prompt = [] ∨ cfg.ctxSize ≤ look.prompt.length then look.state
      else
        let filled := prefillSyncs cfg r c look a
        if filled.2.2 then
          let st := settlePrefill cfg filled.1 r c look filled.2.1 a
          if a.streamStarted then decodeReply st r a.decode else st
        else abandonPrefill filled.1 filled.2.1 (coldStoreLen cfg r c look)

/-- What happens to a server: a request is served, or it is shut down. -/
inductive Event where
  | request (r : Request) (a : Answers)
  | shutdown (answer : StoreAnswer)

/-- The state after an event. -/
def serve (cfg : Setup) (st : ServerState) : Event → ServerState
  | .request r a => runGeneration cfg st r a
  | .shutdown answer => kvCacheStoreCurrent cfg st .shutdown answer

/-- The state a server starts with. -/
def Fresh (st : ServerState) : Prop := st = {}

end Sf37.Server

/-
Sf37.Server.RunGenerationTheorems — what the stages of `run_generation` do to the
server state.

* `sessionSync_cases`: a sync is refused and changes nothing, or it goes on from the
  start of the sync, and when it goes through the session has the prompt's tokens.
* `prefillSyncs_done`, `lookupPrompt_session`: what the session has after the stages
  before decoding.
* `choosePrompt_attached`: a request that continues a live record has the tokens of the
  session in front of its prompt.
-/
import Sf37.Server.RunGeneration

namespace Sf37.Server

open Sf37.Text

/-! ## Prefills -/

/-- What evaluating a prompt can do to the state: another session whose rows have the
same images, a new count of the continued stores, and files stored on the way with the
header the server believes in. -/
structure Prefills (st st' : ServerState) : Prop where
  same : ∃ session last stored, st' =
    { st with session := session, continuedLastStoreTokens := last, stored := stored }
  rows : st'.session.rowsHeader = st.session.rowsHeader
  stored : ∀ f ∈ st'.stored, f ∈ st.stored ∨
    (f.key.header = currentHeader st ∧ f.rowsHeader = st.session.rowsHeader)

theorem Prefills.refl (st : ServerState) : Prefills st st :=
  ⟨⟨st.session, st.continuedLastStoreTokens, st.stored, rfl⟩, rfl, fun _ hf => Or.inl hf⟩

theorem Prefills.header {st st' : ServerState} (h : Prefills st st') :
    currentHeader st' = currentHeader st := by
  obtain ⟨session, last, stored, rfl⟩ := h.same
  rfl

theorem Prefills.trans {st st' st'' : ServerState} (h : Prefills st st') (h' : Prefills st' st'') :
    Prefills st st'' where
  same := by
    obtain ⟨_, _, _, rfl⟩ := h.same
    obtain ⟨session, last, stored, rfl⟩ := h'.same
    exact ⟨session, last, stored, rfl⟩
  rows := h'.rows.trans h.rows
  stored := by
    intro f hf
    rcases h'.stored f hf with hf | ⟨hkey, hrows⟩
    · exact h.stored f hf
    · exact Or.inr ⟨hkey.trans h.header, hrows.trans h.rows⟩

/-- A change of the session that leaves the images of its rows. -/
theorem prefills_session (st : ServerState) (session : Session)
    (h : session.rowsHeader = st.session.rowsHeader) :
    Prefills st { st with session := session } :=
  ⟨⟨session, st.continuedLastStoreTokens, st.stored, rfl⟩, h, fun _ hf => Or.inl hf⟩

theorem StoreFrame.session {reason : StoreReason} {header : Option Bytes} {st st' : ServerState}
    (h : StoreFrame reason header st st') : st'.session = st.session := by
  obtain ⟨last, stored, rfl⟩ := h.same
  rfl

theorem StoreFrame.prefills {reason : StoreReason} {st st' : ServerState}
    (h : StoreFrame reason (currentHeader st) st st') : Prefills st st' where
  same := by
    obtain ⟨last, stored, rfl⟩ := h.same
    exact ⟨st.session, last, stored, rfl⟩
  rows := congrArg Session.rowsHeader h.session
  stored := by
    intro f hf
    rcases h.stored f hf with hf | ⟨-, hkey, -, hrows, -, -⟩
    · exact Or.inl hf
    · exact Or.inr ⟨hkey, hrows⟩

theorem prefills_restoreSuppressed (st : ServerState) (old : Option Nat) (n : Nat) :
    Prefills st (restoreSuppressedContinued st old n) ∧
      (restoreSuppressedContinued st old n).session = st.session := by
  cases old with
  | none => exact ⟨Prefills.refl st, rfl⟩
  | some old =>
    rw [restoreSuppressedContinued]
    split
    · exact ⟨⟨⟨st.session, old, st.stored, rfl⟩, rfl, fun _ hf => Or.inl hf⟩, rfl⟩
    · exact ⟨Prefills.refl st, rfl⟩

theorem prefills_noteStore (st : ServerState) (n : Nat) :
    Prefills st (noteStore st n) ∧ (noteStore st n).session = st.session := by
  rw [noteStore]
  split
  · exact ⟨⟨⟨st.session, n, st.stored, rfl⟩, rfl, fun _ hf => Or.inl hf⟩, rfl⟩
  · exact ⟨Prefills.refl st, rfl⟩

theorem noteColdStore_prefills (p : ServerState × Bool) (suppressed : Option Nat) (n : Nat) :
    Prefills p.1 (noteColdStore p suppressed n) ∧
      (noteColdStore p suppressed n).session = p.1.session := by
  rw [noteColdStore]
  split
  · exact prefills_noteStore p.1 n
  · exact prefills_restoreSuppressed p.1 suppressed n

/-! ## Sync -/

theorem serverProgress_spec (cfg : Setup) (st : ServerState) (answer : StoreAnswer) :
    Prefills st (serverProgress cfg st answer) ∧
      (serverProgress cfg st answer).session = st.session := by
  rw [serverProgress]
  split
  · have hframe := kvCacheMaybeStoreContinued_frame cfg st answer
    exact ⟨hframe.prefills, hframe.session⟩
  · exact ⟨Prefills.refl st, rfl⟩

/-- Evaluating pieces moves tokens from what is left of the prompt to the session. -/
theorem evalPieces_spec (cfg : Setup) (pieces : List Piece) :
    ∀ (st : ServerState) (rest : Tokens),
      Prefills st (evalPieces cfg st rest pieces).1 ∧
        (evalPieces cfg st rest pieces).1.session.checkpoint ++ (evalPieces cfg st rest pieces).2 =
          st.session.checkpoint ++ rest := by
  induction pieces with
  | nil => exact fun st rest => ⟨Prefills.refl st, rfl⟩
  | cons piece pieces ih =>
    intro st rest
    have hpush := prefills_session st (st.session.push (rest.take piece.size)) rfl
    obtain ⟨hprog, hsession⟩ := serverProgress_spec cfg
      { st with session := st.session.push (rest.take piece.size) } piece.answer
    obtain ⟨hrest, htokens⟩ := ih
      (serverProgress cfg { st with session := st.session.push (rest.take piece.size) } piece.answer)
      (rest.drop piece.size)
    refine ⟨hpush.trans (hprog.trans hrest), ?_⟩
    rw [evalPieces, htokens, hsession, Session.push, List.append_assoc, List.take_append_drop]

/-- The start of a sync is empty or the session there is. -/
theorem Session.syncStart_cases (s : Session) (prompt : Tokens) (sig : Option ImageSignature)
    (images : Option ImageFeatures) :
    s.syncStart prompt sig images = { rowsHeader := images.map imageCacheHeader } ∨
      (s.syncStart prompt sig images = s ∧ s.checkpointValid = true ∧ s.checkpoint ≠ [] ∧
        s.checkpoint <+: prompt ∧ (sig = none ∨ s.imageSignature = sig)) := by
  rw [Session.syncStart]
  rcases s.syncBase_cases prompt sig with hbase | ⟨hbase, hrest⟩
  · exact Or.inl (by rw [hbase]; rfl)
  · exact Or.inr ⟨by rw [hbase, if_neg hrest.2.1], hrest⟩

theorem Session.syncStart_isPrefix (s : Session) (prompt : Tokens) (sig : Option ImageSignature)
    (images : Option ImageFeatures) : (s.syncStart prompt sig images).checkpoint <+: prompt := by
  rcases s.syncStart_cases prompt sig images with h | ⟨h, -, -, hpre, -⟩
  · rw [h]
    exact List.nil_prefix
  · rwa [h]

/-- The last piece uses up the prompt. -/
theorem evalLast_spec (cfg : Setup) (p : ServerState × Tokens) (answer : StoreAnswer) :
    Prefills p.1 (evalLast cfg p.1 p.2 answer) ∧
      (evalLast cfg p.1 p.2 answer).session.checkpoint = p.1.session.checkpoint ++ p.2 := by
  rw [evalLast]
  split
  · rename_i hrest
    exact ⟨Prefills.refl p.1, by rw [hrest, List.append_nil]⟩
  · obtain ⟨hprog, hsession⟩ := serverProgress_spec cfg
      { p.1 with session := p.1.session.push p.2 } answer
    exact ⟨(prefills_session p.1 (p.1.session.push p.2) rfl).trans hprog, by rw [hsession]; rfl⟩

/-- How a sync that is not refused ends. -/
structure SyncEnds (st : ServerState) (base : Session) (prompt : Tokens) (r : ServerState × Bool) :
    Prop where
  prefills : Prefills { st with session := base } r.1
  done : r.2 = true → r.1.session.checkpoint = prompt

/-- A sync is refused, or it evaluates from its start. -/
theorem sessionSync_cases (cfg : Setup) (st : ServerState) (prompt : Tokens)
    (images : Option ImageFeatures) (run : SyncRun) :
    (sessionSyncSignature cfg prompt images = none ∧
        sessionSync cfg st prompt images run = (st, false)) ∨
      ∃ sig, sessionSyncSignature cfg prompt images = some sig ∧
        SyncEnds st (st.session.syncStart prompt sig images) prompt
          (sessionSync cfg st prompt images run) := by
  cases hsig : sessionSyncSignature cfg prompt images with
  | none => exact Or.inl ⟨rfl, by rw [sessionSync, hsig]⟩
  | some sig =>
    refine Or.inr ⟨sig, rfl, ?_⟩
    have hpre := st.session.syncStart_isPrefix prompt sig images
    obtain ⟨base, hbase⟩ : ∃ base, base = st.session.syncStart prompt sig images := ⟨_, rfl⟩
    obtain ⟨heval, htokens⟩ := evalPieces_spec cfg run.pieces { st with session := base }
      (prompt.drop base.checkpoint.length)
    rw [← hbase] at hpre ⊢
    have hprompt : base.checkpoint ++ prompt.drop base.checkpoint.length = prompt := by
      obtain ⟨rest, rfl⟩ := hpre
      rw [List.drop_left]
    rw [hprompt] at htokens
    rw [sessionSync, hsig]
    dsimp only
    rw [← hbase]
    cases run.fault with
    | some valid => exact ⟨heval.trans (prefills_session _ _ rfl), fun h => by cases h⟩
    | none =>
      obtain ⟨hlast, hdone⟩ := evalLast_spec cfg (evalPieces cfg { st with session := base }
        (prompt.drop base.checkpoint.length) run.pieces) run.last
      rw [htokens] at hdone
      have hrows : ∀ s : Session, (s.noteSignature sig).rowsHeader = s.rowsHeader ∧
          (s.noteSignature sig).checkpoint = s.checkpoint := by
        intro s
        cases sig <;> exact ⟨rfl, rfl⟩
      exact ⟨heval.trans (hlast.trans (prefills_session _ _ (hrows _).1)),
        fun _ => (hrows _).2.trans hdone⟩

/-! ## Live records before decoding -/

/-- The three live records. -/
def ServerState.lives (st : ServerState) : List LiveState :=
  [st.responsesLive, st.anthropicLive, st.thinkingLive]

theorem Prefills.lives {st st' : ServerState} (h : Prefills st st') : st'.lives = st.lives := by
  obtain ⟨session, last, stored, rfl⟩ := h.same
  rfl

theorem StoreFrame.lives {reason : StoreReason} {header : Option Bytes} {st st' : ServerState}
    (h : StoreFrame reason header st st') : st'.lives = st.lives := by
  obtain ⟨last, stored, rfl⟩ := h.same
  rfl

theorem SyncEnds.lives {st : ServerState} {base : Session} {prompt : Tokens}
    {r : ServerState × Bool} (h : SyncEnds st base prompt r) : r.1.lives = st.lives :=
  h.prefills.lives

theorem sessionSync_lives (cfg : Setup) (st : ServerState) (prompt : Tokens)
    (images : Option ImageFeatures) (run : SyncRun) :
    (sessionSync cfg st prompt images run).1.lives = st.lives := by
  rcases sessionSync_cases cfg st prompt images run with ⟨-, h⟩ | ⟨sig, -, h⟩
  · rw [h]
  · exact h.lives

/-- A sync that goes through leaves the prompt's tokens. -/
theorem sessionSync_done {cfg : Setup} {st : ServerState} {prompt : Tokens}
    {images : Option ImageFeatures} {run : SyncRun}
    (hok : (sessionSync cfg st prompt images run).2 = true) :
    (sessionSync cfg st prompt images run).1.session.checkpoint = prompt := by
  rcases sessionSync_cases cfg st prompt images run with ⟨-, h⟩ | ⟨sig, -, h⟩
  · rw [h] at hok
    cases hok
  · exact h.done hok

/-- The cold prefix: nothing happens, its sync fails, or it goes through and what
follows is a store. -/
theorem coldPrefixSync_cases (cfg : Setup) (st : ServerState) (prompt : Tokens) (coldLen : Nat)
    (suppressed : Option Nat) (a : Answers) :
    (coldPrefixSync cfg st prompt coldLen suppressed a = (st, suppressed, true)) ∨
    (coldLen < prompt.length ∧
      (((sessionSync cfg st (prompt.take coldLen) none a.coldSync).2 = false ∧
        coldPrefixSync cfg st prompt coldLen suppressed a =
          ((sessionSync cfg st (prompt.take coldLen) none a.coldSync).1, suppressed, false)) ∨
      ((sessionSync cfg st (prompt.take coldLen) none a.coldSync).2 = true ∧
        (coldPrefixSync cfg st prompt coldLen suppressed a).2.2 = true ∧
        ∃ mid,
          StoreFrame .cold none (sessionSync cfg st (prompt.take coldLen) none a.coldSync).1 mid ∧
          Prefills mid (coldPrefixSync cfg st prompt coldLen suppressed a).1))) := by
  rw [coldPrefixSync]
  split
  swap
  · exact Or.inl rfl
  rename_i hcold
  refine Or.inr ⟨hcold.2.2, ?_⟩
  cases hok : (sessionSync cfg st (prompt.take coldLen) none a.coldSync).2 with
  | false => exact Or.inl ⟨rfl, by simp [hok]⟩
  | true =>
    refine Or.inr ⟨rfl, ?_⟩
    simp only [hok, if_true]
    exact ⟨trivial, _, kvCacheStoreLivePrefixText_frame cfg _ prompt coldLen .cold
      (.tokenText (cfg.renderTokensText (prompt.take coldLen))) a.coldStore
      (absurd rfl),
      (noteColdStore_prefills _ suppressed coldLen).1⟩

theorem coldPrefixSync_lives (cfg : Setup) (st : ServerState) (prompt : Tokens) (coldLen : Nat)
    (suppressed : Option Nat) (a : Answers) :
    (coldPrefixSync cfg st prompt coldLen suppressed a).1.lives = st.lives := by
  have hsync := sessionSync_lives cfg st (prompt.take coldLen) none a.coldSync
  rcases coldPrefixSync_cases cfg st prompt coldLen suppressed a with
    h | ⟨-, ⟨-, h⟩ | ⟨-, -, mid, hstore, hnote⟩⟩
  · rw [h]
  · rw [h]
    exact hsync
  · exact hnote.lives.trans (hstore.lives.trans hsync)

theorem prefillStart_lives (cfg : Setup) (r : Request) (c : Choice) (look : Looked) :
    (prefillStart cfg r c look).1.lives = look.state.lives := by
  rw [prefillStart]
  dsimp only [suppressContinuedStore]
  split
  · split
    · rfl
    · exact (prefills_noteStore look.state _).1.lives
  · rfl

theorem prefillSyncs_lives (cfg : Setup) (r : Request) (c : Choice) (look : Looked) (a : Answers) :
    (prefillSyncs cfg r c look a).1.lives = look.state.lives := by
  have hcold := (coldPrefixSync_lives cfg (prefillStart cfg r c look).1 look.prompt
    (coldStoreLen cfg r c look) (prefillStart cfg r c look).2 a).trans
    (prefillStart_lives cfg r c look)
  rw [prefillSyncs]
  dsimp only
  split
  · exact (sessionSync_lives cfg _ _ _ _).trans hcold
  · exact hcold

theorem prefillSyncs_done {cfg : Setup} {r : Request} {c : Choice} {look : Looked} {a : Answers}
    (hok : (prefillSyncs cfg r c look a).2.2 = true) :
    (prefillSyncs cfg r c look a).1.session.checkpoint = look.prompt := by
  rw [prefillSyncs] at hok ⊢
  dsimp only at hok ⊢
  split at hok
  · rename_i hcold
    rw [if_pos hcold]
    exact sessionSync_done hok
  · contradiction

theorem abandonPrefill_lives (st : ServerState) (suppressed : Option Nat) (n : Nat) :
    (abandonPrefill st suppressed n).lives = st.lives :=
  (prefills_restoreSuppressed st suppressed n).1.lives

theorem abandonPrefill_session (st : ServerState) (suppressed : Option Nat) (n : Nat) :
    (abandonPrefill st suppressed n).session = st.session :=
  (prefills_restoreSuppressed st suppressed n).2

theorem coldPromptKey_header (cfg : Setup) (r : Request) (prompt : Tokens) :
    (coldPromptKey cfg r prompt).header = r.images.map imageCacheHeader := by
  rw [coldPromptKey]
  cases r.images <;> rfl

/-- The store of a cold prompt is a store under the request's images. -/
theorem coldPromptStore_cases (cfg : Setup) (st : ServerState) (r : Request) (prompt : Tokens)
    (coldLen : Nat) (suppressed : Option Nat) (answer : StoreAnswer) :
    ∃ mid, StoreFrame .cold (r.images.map imageCacheHeader) st mid ∧
      Prefills mid (coldPromptStore cfg st r prompt coldLen suppressed answer) ∧
      (coldPromptStore cfg st r prompt coldLen suppressed answer).session = mid.session := by
  rw [coldPromptStore]
  split
  · obtain ⟨hp, hs⟩ := noteColdStore_prefills (kvCacheStoreLivePrefixText cfg st prompt coldLen
      .cold (coldPromptKey cfg r prompt) answer) suppressed coldLen
    refine ⟨_, ?_, hp, hs⟩
    rw [← coldPromptKey_header cfg r prompt]
    exact kvCacheStoreLivePrefixText_frame cfg st prompt coldLen .cold _ answer (absurd rfl)
  · exact ⟨st, StoreFrame.refl _ _ st, Prefills.refl st, rfl⟩

/-! ## The disk -/

theorem sessionRewind_zero (s : Session) : sessionRewind s 0 = {} :=
  if_pos (Nat.zero_min _)

/-- Nothing is loaded and the session stays or is emptied, or a checkpoint whose text
the prompt begins with is the session. -/
theorem tryLoadText_cases (cfg : Setup) (st : ServerState) (text : Bytes) (disk : DiskLookup) :
    tryLoadText cfg st text disk = (st, none) ∨
    tryLoadText cfg st text disk = ({ st with session := {} }, none) ∨
    ∃ c, disk = .found c ∧ c.text <+: text ∧ c.tokens ≠ [] ∧
      tryLoadText cfg st text disk =
        ({ st with
            session := { checkpoint := c.tokens, rowsHeader := c.rowsHeader }
            continuedLastStoreTokens := c.tokens.length }, some c) := by
  cases disk with
  | miss => exact Or.inl rfl
  | discarded => exact Or.inr (Or.inl (by rw [tryLoadText, sessionRewind_zero]))
  | found c =>
    rw [tryLoadText]
    split
    · rename_i hload
      exact Or.inr (Or.inr ⟨c, rfl, hload.1, hload.2.1, rfl⟩)
    · exact Or.inl rfl

theorem tryLoadText_lives (cfg : Setup) (st : ServerState) (text : Bytes) (disk : DiskLookup) :
    (tryLoadText cfg st text disk).1.lives = st.lives := by
  rcases tryLoadText_cases cfg st text disk with h | h | ⟨c, -, -, -, h⟩ <;> rw [h] <;> rfl

theorem useLoaded_lives (cfg : Setup) (st : ServerState) (r : Request) (text : Bytes)
    (c : DiskCheckpoint) : (useLoaded cfg st r text c).state.lives = st.lives := by
  rw [useLoaded]
  cases r.images with
  | none => rfl
  | some f =>
    dsimp only
    split
    · rfl
    split
    · cases sessionNoteImageFeatures cfg st.session _ f <;> rfl
    · rfl

/-- Evicting is at most a store. -/
theorem evictCurrent_frame (cfg : Setup) (st : ServerState) (c : Choice) (a : Answers) :
    StoreFrame .evict (currentHeader st) st (evictCurrent cfg st c a) := by
  rw [evictCurrent]
  split
  · exact kvCacheStoreCurrent_frame cfg st .evict a.evict
  · exact StoreFrame.refl _ _ st

theorem lookupPrompt_lives (cfg : Setup) (st : ServerState) (r : Request) (c : Choice)
    (a : Answers) : (lookupPrompt cfg st r c a).state.lives = st.lives := by
  have hevict := (evictCurrent_frame cfg st c a).lives
  have hload := (tryLoadText_lives cfg (evictCurrent cfg st c a) r.cacheLookupText a.disk).trans
    hevict
  rw [lookupPrompt]
  dsimp only
  split
  · cases (tryLoadText cfg (evictCurrent cfg st c a) r.cacheLookupText a.disk).2 with
    | none => exact hload
    | some ck => exact (useLoaded_lives cfg _ r _ ck).trans hload
  · exact hevict

/-- With cached tokens the disk is left alone. -/
theorem lookupPrompt_cached (cfg : Setup) (st : ServerState) (r : Request) {c : Choice}
    (a : Answers) (h : 0 < c.cached) :
    lookupPrompt cfg st r c a = { state := st, prompt := c.prompt cfg r, cached := c.cached } := by
  have h0 : c.cached ≠ 0 := Nat.pos_iff_ne_zero.mp h
  have hevict : evictCurrent cfg st c a = st := if_neg fun hc => h0 hc.2.1
  rw [lookupPrompt, hevict]
  exact if_neg fun hc => h0 hc.2.1

theorem useLoaded_prompt {cfg : Setup} {st : ServerState} {r : Request} {text : Bytes}
    {c : DiskCheckpoint} (hne : c.tokens ≠ []) :
    (useLoaded cfg st r text c).prompt ≠ [] ∨
      (useLoaded cfg st r text c).state.session.checkpoint = [] := by
  have hcached : c.tokens ++ cfg.tokenizeRenderedChat (text.drop c.text.length) ≠ [] :=
    fun h => hne (List.append_eq_nil_iff.mp h).1
  rw [useLoaded]
  cases r.images with
  | none => exact Or.inl hcached
  | some f =>
    dsimp only
    split
    · exact Or.inr (by simp [sessionRewind])
    split
    · cases sessionNoteImageFeatures cfg st.session
        (c.tokens ++ cfg.tokenizeRenderedChat (text.drop c.text.length)) f <;>
        exact Or.inl hcached
    · exact Or.inl hcached

/-- The disk leaves the session's tokens, empties it, or comes with a prompt. -/
theorem lookupPrompt_session (cfg : Setup) (st : ServerState) (r : Request) (c : Choice)
    (a : Answers) :
    (lookupPrompt cfg st r c a).state.session = st.session ∨
      (lookupPrompt cfg st r c a).state.session.checkpoint = [] ∨
      (lookupPrompt cfg st r c a).prompt ≠ [] := by
  have hevict := (evictCurrent_frame cfg st c a).session
  rw [lookupPrompt]
  dsimp only
  split
  · rcases tryLoadText_cases cfg (evictCurrent cfg st c a) r.cacheLookupText a.disk with
      h | h | ⟨ck, -, -, hne, h⟩
    · rw [h]
      exact Or.inl hevict
    · rw [h]
      exact Or.inr (Or.inl rfl)
    · rw [h]
      exact Or.inr (useLoaded_prompt hne).symm
  · exact Or.inl hevict

/-! ## Continuations -/

/-- A live record lets a request continue: it is valid, as long as the session, and the
prompt is the session's tokens with a text behind them. -/
structure Attaches (cfg : Setup) (st : ServerState) (live : LiveState) (p : Nat × Tokens) : Prop where
  valid : live.valid = true
  liveTokens : live.liveTokens = st.session.pos
  prompt : ∃ suffix, p = promptFromLiveTokens cfg st suffix

theorem liveVisiblePrefixPrompt_attaches {cfg : Setup} {st : ServerState} {live : LiveState}
    {text : Bytes} {livePos : Nat}
    (h : 0 < (liveVisiblePrefixPrompt cfg st live text livePos).1) :
    Attaches cfg st live (liveVisiblePrefixPrompt cfg st live text livePos) := by
  rw [liveVisiblePrefixPrompt] at h ⊢
  cases hv : live.visibleText with
  | none =>
    rw [hv] at h
    exact absurd h (Nat.lt_irrefl 0)
  | some visible =>
    rw [hv] at h
    dsimp only at h ⊢
    split at h
    · rename_i hc
      rw [if_pos hc]
      exact ⟨hc.1, hc.2.1.trans hc.2.2.2.2.symm, _, rfl⟩
    · exact absurd h (Nat.lt_irrefl 0)

theorem liveContinuationPrompt_attaches {cfg : Setup} {st : ServerState} {live : LiveState}
    {suffixText : Option Bytes} {ids : List Bytes} {livePos : Nat}
    (h : 0 < (liveContinuationPrompt cfg st live suffixText ids livePos).1) :
    Attaches cfg st live (liveContinuationPrompt cfg st live suffixText ids livePos) := by
  cases suffixText with
  | none => exact absurd h (Nat.lt_irrefl 0)
  | some suffix =>
    rw [liveContinuationPrompt] at h ⊢
    split at h
    · exact absurd h (Nat.lt_irrefl 0)
    · rename_i hc
      rw [if_neg hc]
      obtain ⟨-, hmatch, hpos⟩ : ids ≠ [] ∧ liveMatchesRequest live ids livePos = true ∧
          st.session.pos = livePos := by simpa only [not_or, not_not, ne_eq] using hc
      simp only [liveMatchesRequest, Bool.and_eq_true, beq_iff_eq] at hmatch
      exact ⟨hmatch.1.1.1.2, hmatch.1.1.2.trans hpos.symm, _, rfl⟩

theorem responsesLiveVisiblePrefixPrompt_attaches {cfg : Setup} {st : ServerState} {r : Request}
    {livePos : Nat} (h : 0 < (responsesLiveVisiblePrefixPrompt cfg st r livePos).1) :
    Attaches cfg st st.responsesLive (responsesLiveVisiblePrefixPrompt cfg st r livePos) := by
  rw [responsesLiveVisiblePrefixPrompt] at h ⊢
  split at h
  · exact absurd h (Nat.lt_irrefl 0)
  · rename_i hc
    rw [if_neg hc]
    exact liveVisiblePrefixPrompt_attaches h

theorem responsesLiveContinuationPrompt_attaches {cfg : Setup} {st : ServerState} {r : Request}
    {livePos : Nat} (h : 0 < (responsesLiveContinuationPrompt cfg st r livePos).1) :
    Attaches cfg st st.responsesLive (responsesLiveContinuationPrompt cfg st r livePos) := by
  rw [responsesLiveContinuationPrompt] at h ⊢
  split at h
  · exact absurd h (Nat.lt_irrefl 0)
  · rename_i hc
    rw [if_neg hc]
    exact liveContinuationPrompt_attaches h

theorem anthropicLiveContinuationPrompt_attaches {cfg : Setup} {st : ServerState} {r : Request}
    {livePos : Nat} (h : 0 < (anthropicLiveContinuationPrompt cfg st r livePos).1) :
    Attaches cfg st st.anthropicLive (anthropicLiveContinuationPrompt cfg st r livePos) := by
  rw [anthropicLiveContinuationPrompt] at h ⊢
  split at h
  · exact absurd h (Nat.lt_irrefl 0)
  · rename_i hc
    rw [if_neg hc]
    exact liveContinuationPrompt_attaches h

theorem thinkingLiveVisiblePrefixPrompt_attaches {cfg : Setup} {st : ServerState} {r : Request}
    {livePos : Nat} (h : 0 < (thinkingLiveVisiblePrefixPrompt cfg st r livePos).1) :
    Attaches cfg st st.thinkingLive (thinkingLiveVisiblePrefixPrompt cfg st r livePos) := by
  rw [thinkingLiveVisiblePrefixPrompt] at h ⊢
  split at h
  · exact absurd h (Nat.lt_irrefl 0)
  · rename_i hc
    rw [if_neg hc]
    exact liveVisiblePrefixPrompt_attaches h

/-- The live record a choice continues is attached. -/
structure Choice.Attached (c : Choice) (cfg : Setup) (st : ServerState) : Prop where
  responses : c.responsesLive = true →
    0 < c.cached ∧ Attaches cfg st st.responsesLive (c.cached, c.effectivePrompt)
  anthropic : c.anthropicLive = true →
    0 < c.cached ∧ Attaches cfg st st.anthropicLive (c.cached, c.effectivePrompt)
  thinking : c.thinkingLive = true →
    0 < c.cached ∧ Attaches cfg st st.thinkingLive (c.cached, c.effectivePrompt)

/-- A choice without a continuation attaches nothing. -/
theorem Choice.attached_plain (cfg : Setup) (st : ServerState) (n : Nat) (tokens : Tokens) :
    Choice.Attached { cached := n, effectivePrompt := tokens } cfg st :=
  ⟨Bool.noConfusion, Bool.noConfusion, Bool.noConfusion⟩

theorem chooseLive_attached (cfg : Setup) (st : ServerState) (r : Request) :
    (chooseLive cfg st r).Attached cfg st := by
  rw [chooseLive]
  split
  · exact Choice.attached_plain cfg st 0 []
  split
  · rename_i hv
    exact ⟨fun _ => ⟨hv, responsesLiveVisiblePrefixPrompt_attaches hv⟩, Bool.noConfusion,
      Bool.noConfusion⟩
  split
  · rename_i hv
    exact ⟨fun _ => ⟨hv, responsesLiveContinuationPrompt_attaches hv⟩, Bool.noConfusion,
      Bool.noConfusion⟩
  split
  · rename_i hv
    exact ⟨Bool.noConfusion, fun _ => ⟨hv, anthropicLiveContinuationPrompt_attaches hv⟩,
      Bool.noConfusion⟩
  · exact Choice.attached_plain cfg st 0 []

theorem chooseByText_attached (cfg : Setup) (st : ServerState) (r : Request) :
    (chooseByText cfg st r).Attached cfg st := by
  rw [chooseByText]
  split
  · exact Choice.attached_plain cfg st 0 []
  split
  · rename_i hv
    exact ⟨Bool.noConfusion, Bool.noConfusion,
      fun _ => ⟨hv, thinkingLiveVisiblePrefixPrompt_attaches hv⟩⟩
  · exact Choice.attached_plain cfg st _ _

theorem choosePrompt_attached {cfg : Setup} {st : ServerState} {r : Request} {c : Choice}
    (h : choosePrompt cfg st r = some c) : c.Attached cfg st := by
  rw [choosePrompt] at h
  split at h
  · exact Option.some.inj h ▸ chooseLive_attached cfg st r
  split at h
  · cases h
  split at h
  · exact Option.some.inj h ▸ Choice.attached_plain cfg st _ []
  · exact Option.some.inj h ▸ chooseByText_attached cfg st r

/-- The prompt of an attached choice begins with the tokens of the session. -/
theorem Attaches.isPrefix {cfg : Setup} {st : ServerState} {live : LiveState} {c : Choice}
    (h : Attaches cfg st live (c.cached, c.effectivePrompt)) (hpos : 0 < c.cached) (r : Request) :
    st.session.checkpoint <+: c.prompt cfg r := by
  obtain ⟨suffix, hp⟩ := h.prompt
  have hcached : c.cached = st.session.pos := congrArg Prod.fst hp
  have hprompt : c.effectivePrompt = st.session.checkpoint ++ cfg.tokenizeRenderedChat suffix :=
    congrArg Prod.snd hp
  have hne : st.session.checkpoint ≠ [] := by
    intro h0
    rw [hcached, Session.pos, h0] at hpos
    exact Nat.lt_irrefl 0 hpos
  rw [Choice.prompt, if_pos ⟨hpos, by rw [hprompt]; simp [hne]⟩, hprompt]
  exact List.prefix_append _ _

end Sf37.Server

/-
Sf37.Server.ContinuedStores — when a continued checkpoint is due in a new conversation.

One count of tokens says up to where continued checkpoints were stored. A load sets it to
the conversation that it brings back; a prompt that nothing is loaded for leaves it as
the conversations before have left it.

* `grownStates`: the states of a request in which its live tokens have just become more.
* `Below`: in a new conversation the count is the one before, or no more than the tokens.
* `restarts_iff`: the continued checkpoints of a new conversation are due exactly when the
  count before is less than the tokens it comes to.
-/
import Sf37.Server.RunGenerationTheorems
import Sf37.Run.Guarded

namespace Sf37.Server

open Sf37.Text Sf37.Run

/-! ## The states of a request -/

/-- The states in which evaluating pieces has just made the session longer. -/
def pieceStates (cfg : Setup) : ServerState → Tokens → List Piece → List ServerState
  | _, _, [] => []
  | st, rest, piece :: pieces =>
      let grown := { st with session := st.session.push (rest.take piece.size) }
      let later :=
        pieceStates cfg (serverProgress cfg grown piece.answer) (rest.drop piece.size) pieces
      if rest.take piece.size = [] then later else grown :: later

/-- The state in which the last piece has just made the session longer. -/
def lastStates (st : ServerState) (rest : Tokens) : List ServerState :=
  if rest = [] then [] else [{ st with session := st.session.push rest }]

/-- Those of a sync. -/
def syncStates (cfg : Setup) (st : ServerState) (prompt : Tokens) (images : Option ImageFeatures)
    (run : SyncRun) : List ServerState :=
  match sessionSyncSignature cfg prompt images with
  | none => []
  | some sig =>
      let base := st.session.syncStart prompt sig images
      let rest := prompt.drop base.checkpoint.length
      let evaluated := evalPieces cfg { st with session := base } rest run.pieces
      pieceStates cfg { st with session := base } rest run.pieces ++
        if run.fault = none then lastStates evaluated.1 evaluated.2 else []

/-- Those of the sync of a cold prefix. -/
def coldStates (cfg : Setup) (st : ServerState) (prompt : Tokens) (coldLen : Nat) (a : Answers) :
    List ServerState :=
  if cfg.kv.enabled ∧ cfg.kv.minTokens ≤ coldLen ∧ coldLen < prompt.length then
    syncStates cfg st (prompt.take coldLen) none a.coldSync
  else []

/-- Those of a prefill. -/
def prefillStates (cfg : Setup) (r : Request) (c : Choice) (look : Looked) (a : Answers) :
    List ServerState :=
  let start := prefillStart cfg r c look
  let coldLen := coldStoreLen cfg r c look
  let cold := coldPrefixSync cfg start.1 look.prompt coldLen start.2 a
  coldStates cfg start.1 look.prompt coldLen a ++
    if cold.2.2 then syncStates cfg cold.1 look.prompt r.images a.sync else []

/-- Those of the decode loop, which evaluates one token at a time. -/
def decodeStates (st : ServerState) (d : Decode) : List ServerState :=
  (List.range d.evaluated.length).map fun k =>
    decodeTokens st { d with evaluated := d.evaluated.take (k + 1) }

/-- The states of a request in which its live tokens have just become more. -/
def grownStates (cfg : Setup) (st : ServerState) (r : Request) (a : Answers) : List ServerState :=
  match choosePrompt cfg st r with
  | none => []
  | some c =>
      let look := lookupPrompt cfg st r c a
      if look.prompt = [] ∨ cfg.ctxSize ≤ look.prompt.length then []
      else
        let filled := prefillSyncs cfg r c look a
        prefillStates cfg r c look a ++
          if filled.2.2 ∧ a.streamStarted then
            decodeStates (settlePrefill cfg filled.1 r c look filled.2.1 a) a.decode
          else []

/-! ## New conversations -/

/-- The checkpoint that is loaded for a request. -/
def loadedCheckpoint (cfg : Setup) (st : ServerState) (r : Request) (c : Choice) (a : Answers) :
    Option DiskCheckpoint :=
  if cfg.kv.enabled ∧ c.cached = 0 ∧ r.cacheLookupText ≠ [] then
    (tryLoadText cfg (evictCurrent cfg st c a) r.cacheLookupText a.disk).2
  else none

/-- A request begins a new conversation, and no checkpoint is suppressed for it. -/
structure NewPrompt (cfg : Setup) (st : ServerState) (r : Request) (c : Choice) (a : Answers) :
    Prop where
  nothingReused : c.cached = 0
  nothingLoaded : loadedCheckpoint cfg st r c a = none
  nothingSuppressed : (prefillStart cfg r c (lookupPrompt cfg st r c a)).2 = none

/-- A count of tokens that continued checkpoints are made at. -/
def Due (cfg : Setup) (t : Nat) : Prop :=
  kvCacheContinuedStep cfg.kv ≠ 0 ∧ cfg.kv.minTokens ≤ t ∧ t % kvCacheContinuedStep cfg.kv = 0

instance (cfg : Setup) (t : Nat) : Decidable (Due cfg t) :=
  inferInstanceAs (Decidable (_ ∧ _ ∧ _))

/-- In a new conversation a continued checkpoint is due at each such count. -/
def Restarts (cfg : Setup) (st : ServerState) : Event → Prop
  | .request r a =>
      ∀ c, choosePrompt cfg st r = some c → NewPrompt cfg st r c a →
        ∀ s ∈ grownStates cfg st r a, Due cfg s.session.pos →
          continuedStoreTarget cfg.kv s.continuedLastStoreTokens s.session.pos = s.session.pos
  | .shutdown _ => True

/-- A new conversation starts with a count of continued stores less than any such count
it comes to. -/
def StartsBelow (cfg : Setup) (st : ServerState) : Event → Prop
  | .request r a =>
      ∀ c, choosePrompt cfg st r = some c → NewPrompt cfg st r c a →
        ∀ s ∈ grownStates cfg st r a, Due cfg s.session.pos →
          st.continuedLastStoreTokens < s.session.pos
  | .shutdown _ => True

theorem continuedStoreTarget_eq_iff {cfg : Setup} {last t : Nat} (hdue : Due cfg t) :
    continuedStoreTarget cfg.kv last t = t ↔ last < t := by
  obtain ⟨hstep, hmin, hmod⟩ := hdue
  have hpos := cfg.kv.minTokens_pos
  unfold continuedStoreTarget
  dsimp only
  split
  · rename_i hno
    constructor
    · intro h0
      omega
    · intro hlt
      rcases hno with h | h | h | h
      · exact absurd h hstep
      · omega
      · exact absurd hmod h
      · omega
  · rename_i hno
    simp only [not_or, not_le] at hno
    exact ⟨fun _ => hno.2.2.2, fun _ => rfl⟩

/-! ## The count of continued stores -/

/-- The count is the one before, or no more than the tokens of the session. -/
structure Below (last : Nat) (st : ServerState) : Prop where
  ge : last ≤ st.continuedLastStoreTokens
  le : st.continuedLastStoreTokens ≤ max last st.session.pos

/-- The same where the session has just become longer. -/
structure GrownBelow (last : Nat) (st : ServerState) : Prop where
  ge : last ≤ st.continuedLastStoreTokens
  lt : st.continuedLastStoreTokens ≤ last ∨ st.continuedLastStoreTokens < st.session.pos

theorem GrownBelow.lt_iff {last : Nat} {st : ServerState} (h : GrownBelow last st) :
    st.continuedLastStoreTokens < st.session.pos ↔ last < st.session.pos := by
  have := h.ge
  rcases h.lt with hl | hl <;> omega

theorem Below.start (st : ServerState) (session : Session) :
    Below st.continuedLastStoreTokens { st with session := session } :=
  ⟨Nat.le_refl _, Nat.le_max_left _ _⟩

theorem Below.session {last : Nat} {st : ServerState} (h : Below last st) {session : Session}
    (hpos : st.session.pos ≤ session.pos) : Below last { st with session := session } := by
  refine ⟨h.ge, Nat.le_trans h.le ?_⟩
  dsimp only
  omega

theorem Below.grown {last : Nat} {st : ServerState} (h : Below last st) {session : Session}
    (hpos : st.session.pos < session.pos) : GrownBelow last { st with session := session } := by
  have hle := h.le
  refine ⟨h.ge, ?_⟩
  dsimp only
  omega

theorem Below.note {last : Nat} {st : ServerState} (h : Below last st) {t : Nat}
    (ht : t ≤ st.session.pos) : Below last (noteStore st t) := by
  have hge := h.ge
  unfold noteStore
  split
  · exact ⟨by dsimp only; omega, by dsimp only; omega⟩
  · exact h

/-- A store leaves the count and the session. -/
theorem kvCacheStoreLivePrefixText_count (cfg : Setup) (st : ServerState) (tokens : Tokens)
    (storeLen : Nat) (reason : StoreReason) (key : CacheKey) (answer : StoreAnswer) :
    let stored := (kvCacheStoreLivePrefixText cfg st tokens storeLen reason key answer).1
    stored.continuedLastStoreTokens = st.continuedLastStoreTokens ∧
      stored.session = st.session := by
  intro stored
  unfold stored
  unfold kvCacheStoreLivePrefixText
  split
  · exact ⟨rfl, rfl⟩
  split
  · exact ⟨rfl, rfl⟩
  cases answer with
  | failed => exact ⟨rfl, rfl⟩
  | present => exact ⟨rfl, rfl⟩
  | written =>
    dsimp only
    split <;> exact ⟨rfl, rfl⟩

theorem Below.store {last : Nat} {st : ServerState} (h : Below last st) (cfg : Setup)
    (tokens : Tokens) (storeLen : Nat) (reason : StoreReason) (key : CacheKey)
    (answer : StoreAnswer) :
    Below last (kvCacheStoreLivePrefixText cfg st tokens storeLen reason key answer).1 := by
  obtain ⟨hcount, hsession⟩ :=
    kvCacheStoreLivePrefixText_count cfg st tokens storeLen reason key answer
  exact ⟨hcount ▸ h.ge, by rw [hcount, hsession]; exact h.le⟩

theorem continuedStoreTarget_le (kv : KvOptions) (last t : Nat) :
    continuedStoreTarget kv last t ≤ t := by
  unfold continuedStoreTarget
  dsimp only
  split
  · exact Nat.zero_le t
  · exact Nat.le_refl t

theorem Below.storeContinued {last : Nat} {st : ServerState} (h : Below last st) (cfg : Setup)
    (key : CacheKey) (answer : StoreAnswer) :
    Below last (kvCacheStoreContinued cfg st key answer) := by
  have hle := continuedStoreTarget_le cfg.kv st.continuedLastStoreTokens st.session.pos
  unfold kvCacheStoreContinued
  dsimp only
  generalize continuedStoreTarget cfg.kv st.continuedLastStoreTokens st.session.pos = target
    at hle ⊢
  split
  · exact h
  have hstore := h.store cfg st.session.checkpoint target .continued key answer
  have hsession :=
    (kvCacheStoreLivePrefixText_count cfg st st.session.checkpoint target .continued key answer).2
  split
  · rename_i heq
    rw [heq] at hstore hsession
    exact hstore.note (by rw [hsession]; exact hle)
  · rename_i heq
    rwa [heq] at hstore

theorem Below.maybeStore {last : Nat} {st : ServerState} (h : Below last st) (cfg : Setup)
    (answer : StoreAnswer) : Below last (kvCacheMaybeStoreContinued cfg st answer) := by
  unfold kvCacheMaybeStoreContinued
  split
  · exact h
  split
  · split
    · exact h
    · exact h.storeContinued cfg _ answer
  · exact h.storeContinued cfg _ answer

theorem Below.progress {last : Nat} {st : ServerState} (h : Below last st) (cfg : Setup)
    (answer : StoreAnswer) : Below last (serverProgress cfg st answer) := by
  unfold serverProgress
  split
  · exact h.maybeStore cfg answer
  · exact h

/-! ## The count over a request -/

section Request

variable {last : Nat} {cfg : Setup}

theorem pos_push_lt (s : Session) {tokens : Tokens} (hne : tokens ≠ []) :
    s.pos < (s.push tokens).pos := by
  have := List.length_pos_iff.mpr hne
  simp only [Session.pos, Session.push, List.length_append]
  omega

theorem pos_le_push (s : Session) (tokens : Tokens) : s.pos ≤ (s.push tokens).pos := by
  simp [Session.pos, Session.push]

/-- Over the pieces of a sync. -/
theorem Below.pieces : ∀ (pieces : List Piece) {st : ServerState} (rest : Tokens),
    Below last st → Below last (evalPieces cfg st rest pieces).1 ∧
      ∀ s ∈ pieceStates cfg st rest pieces, GrownBelow last s
  | [], _, _, h => ⟨h, fun _ hs => absurd hs List.not_mem_nil⟩
  | piece :: pieces, st, rest, h => by
      have hpush : Below last { st with session := st.session.push (rest.take piece.size) } :=
        h.session (pos_le_push _ _)
      obtain ⟨hend, hstates⟩ := Below.pieces pieces (rest.drop piece.size)
        (hpush.progress cfg piece.answer)
      refine ⟨hend, fun s hs => ?_⟩
      unfold pieceStates at hs
      dsimp only at hs
      split at hs
      · exact hstates s hs
      · rename_i hne
        rcases List.mem_cons.mp hs with rfl | hs
        · exact h.grown (pos_push_lt _ hne)
        · exact hstates s hs

theorem Below.lastPiece {st : ServerState} (h : Below last st) (rest : Tokens)
    (answer : StoreAnswer) :
    Below last (evalLast cfg st rest answer) ∧ ∀ s ∈ lastStates st rest, GrownBelow last s := by
  unfold evalLast lastStates
  split
  · exact ⟨h, fun _ hs => absurd hs List.not_mem_nil⟩
  · rename_i hne
    refine ⟨(h.session (pos_le_push _ _)).progress cfg answer, fun s hs => ?_⟩
    rw [List.mem_singleton.mp hs]
    exact h.grown (pos_push_lt _ hne)

/-- Over a sync, from its start on. -/
theorem Below.sync (cfg : Setup) {st : ServerState} (prompt : Tokens)
    (images : Option ImageFeatures) (run : SyncRun) (hsame : Below last st)
    (h : ∀ sig, sessionSyncSignature cfg prompt images = some sig →
      Below last { st with session := st.session.syncStart prompt sig images }) :
    Below last (sessionSync cfg st prompt images run).1 ∧
      ∀ s ∈ syncStates cfg st prompt images run, GrownBelow last s := by
  unfold sessionSync syncStates
  cases hsig : sessionSyncSignature cfg prompt images with
  | none => exact ⟨hsame, fun _ hs => absurd hs List.not_mem_nil⟩
  | some sig =>
    dsimp only
    generalize hrest : prompt.drop (st.session.syncStart prompt sig images).checkpoint.length = rest
    obtain ⟨hpieces, hstates⟩ := Below.pieces run.pieces rest (h sig hsig)
    cases run.fault with
    | some valid =>
      refine ⟨hpieces.session (Nat.le_refl _), fun s hs => hstates s ?_⟩
      simpa using hs
    | none =>
      obtain ⟨hlast, hgrown⟩ := hpieces.lastPiece (evalPieces cfg
        { st with session := st.session.syncStart prompt sig images } rest run.pieces).2 run.last
      refine ⟨hlast.session ?_, fun s hs => ?_⟩
      · cases sig <;> exact Nat.le_refl _
      · rw [if_pos rfl] at hs
        exact (List.mem_append.mp hs).elim (hstates s) (hgrown s)

/-! ### The two syncs of a prefill -/

theorem serverProgress_session (cfg : Setup) (st : ServerState) (answer : StoreAnswer) :
    (serverProgress cfg st answer).session = st.session :=
  (serverProgress_spec cfg st answer).2

theorem evalPieces_valid : ∀ (pieces : List Piece) {st : ServerState} (rest : Tokens),
    st.session.checkpointValid = true →
      (evalPieces cfg st rest pieces).1.session.checkpointValid = true
  | [], _, _, h => h
  | piece :: pieces, st, rest, _ => by
      unfold evalPieces
      refine evalPieces_valid pieces _ ?_
      rw [serverProgress_session]
      rfl

/-- A sync that goes through leaves a valid session. -/
theorem sessionSync_valid {st : ServerState} {prompt : Tokens} {images : Option ImageFeatures}
    {run : SyncRun} (hok : (sessionSync cfg st prompt images run).2 = true) :
    (sessionSync cfg st prompt images run).1.session.checkpointValid = true := by
  unfold sessionSync at hok ⊢
  cases hsig : sessionSyncSignature cfg prompt images with
  | none =>
    rw [hsig] at hok
    cases hok
  | some sig =>
    rw [hsig] at hok
    dsimp only at hok ⊢
    have hstart : (st.session.syncStart prompt sig images).checkpointValid = true := by
      rcases st.session.syncStart_cases prompt sig images with hs | ⟨hs, hv, -⟩
      · rw [hs]
      · rw [hs]
        exact hv
    have hpieces : (evalPieces cfg { st with session := st.session.syncStart prompt sig images }
        (prompt.drop (st.session.syncStart prompt sig images).checkpoint.length)
        run.pieces).1.session.checkpointValid = true :=
      evalPieces_valid run.pieces _ hstart
    cases hf : run.fault with
    | some valid =>
      rw [hf] at hok
      cases hok
    | none =>
      dsimp only
      have hnote : ∀ s : Session, (s.noteSignature sig).checkpointValid = s.checkpointValid := by
        intro s
        cases sig <;> rfl
      rw [hnote]
      unfold evalLast
      split
      · exact hpieces
      · rw [serverProgress_session]
        rfl

/-- A sync goes on from a session that has the beginning of its prompt. -/
theorem syncStart_of_taken {s : Session} {prompt : Tokens} {n : Nat} (hn : 0 < n)
    (hlt : n < prompt.length) (hcheck : s.checkpoint = prompt.take n)
    (hvalid : s.checkpointValid = true) : s.syncStart prompt none none = s := by
  have hlen : s.checkpoint.length = n := by
    rw [hcheck, List.length_take]
    omega
  have hcommon : sessionCommonPrefix s prompt = n := by
    rw [sessionCommonPrefix, if_pos hvalid,
      commonLen_of_isPrefix (hcheck ▸ List.take_prefix n prompt), hlen]
  have hne : s.checkpoint ≠ [] := by
    intro h0
    rw [h0] at hlen
    exact absurd hlen (by simp; omega)
  have hbase : s.syncBase prompt none = s := by
    rw [Session.syncBase]
    simp only [hcommon, hlen]
    rw [if_neg (by simp), if_neg (by simp [hvalid]; omega), if_pos hlt, sessionRewind, hlen,
      Nat.min_self, if_neg (by omega), ← hlen, List.take_length, ← hvalid]
  rw [Session.syncStart, hbase]
  exact if_neg hne

theorem prefillStart_count {r : Request} {c : Choice} {look : Looked}
    (hnone : (prefillStart cfg r c look).2 = none) :
    (prefillStart cfg r c look).1.continuedLastStoreTokens =
      look.state.continuedLastStoreTokens := by
  unfold prefillStart at hnone ⊢
  dsimp only [setImageFlags] at hnone ⊢
  split
  · rename_i hlen
    rw [if_pos hlen] at hnone
    unfold suppressContinuedStore at hnone ⊢
    split
    · rfl
    · rename_i htarget
      rw [if_neg htarget] at hnone
      cases hnone
  · rfl

theorem noteColdStore_below {p : ServerState × Bool} (h : Below last p.1) {n : Nat}
    (hn : n ≤ p.1.session.pos) : Below last (noteColdStore p none n) := by
  unfold noteColdStore
  split
  · exact h.note hn
  · exact h

theorem noteColdStore_session (p : ServerState × Bool) (n : Nat) :
    (noteColdStore p none n).session = p.1.session :=
  (noteColdStore_prefills p none n).2

/-- With images a cold prompt is stored as a whole. -/
theorem images_of_coldStoreLen {r : Request} {c : Choice} {look : Looked}
    (hmin : cfg.kv.minTokens ≤ coldStoreLen cfg r c look)
    (hlt : coldStoreLen cfg r c look < look.prompt.length) : r.images = none := by
  have hpos := cfg.kv.minTokens_pos
  unfold coldStoreLen at hmin hlt
  split at hlt
  · split at hlt
    · omega
    · rename_i himg
      simpa using himg
  · rename_i hcond
    rw [if_neg hcond] at hmin
    omega

theorem sessionSyncSignature_text {prompt : Tokens} {sig : Option ImageSignature}
    (h : sessionSyncSignature cfg prompt none = some sig) : sig = none := by
  simp only [sessionSyncSignature] at h
  split at h
  · cases h
  · exact (Option.some.inj h).symm

/-- Over a prefill for which nothing is suppressed. -/
theorem prefill_below {r : Request} {c : Choice} {look : Looked} (a : Answers)
    (hlast : look.state.continuedLastStoreTokens = last)
    (hnone : (prefillStart cfg r c look).2 = none) :
    Below last (prefillSyncs cfg r c look a).1 ∧ (prefillSyncs cfg r c look a).2.1 = none ∧
      ∀ s ∈ prefillStates cfg r c look a, GrownBelow last s := by
  have hcount := (prefillStart_count hnone).trans hlast
  unfold prefillSyncs prefillStates
  dsimp only
  generalize hst : (prefillStart cfg r c look).1 = st at hcount ⊢
  have hstart : ∀ session, Below last { st with session := session } := fun session =>
    hcount ▸ Below.start st session
  rw [hnone]
  unfold coldPrefixSync coldStates
  by_cases hcold : cfg.kv.enabled = true ∧ cfg.kv.minTokens ≤ coldStoreLen cfg r c look ∧
      coldStoreLen cfg r c look < look.prompt.length
  · rw [if_pos hcold, if_pos hcold]
    obtain ⟨hsynced, hstates⟩ := Below.sync cfg
      (look.prompt.take (coldStoreLen cfg r c look)) none a.coldSync
      (hstart st.session) fun _ _ => hstart _
    cases hok : (sessionSync cfg st (look.prompt.take (coldStoreLen cfg r c look)) none
        a.coldSync).2 with
    | false =>
      simp only [hok, Bool.false_eq_true, if_false, List.append_nil]
      exact ⟨hsynced, trivial, hstates⟩
    | true =>
      have hcheck := sessionSync_done hok
      have hvalid := sessionSync_valid hok
      have himages := images_of_coldStoreLen hcold.2.1 hcold.2.2
      simp only [hok, if_true]
      generalize (sessionSync cfg st (look.prompt.take (coldStoreLen cfg r c look)) none
        a.coldSync).1 = synced at hsynced hcheck hvalid ⊢
      have hpos : synced.session.pos = coldStoreLen cfg r c look := by
        rw [Session.pos, hcheck, List.length_take]
        omega
      generalize hkey : CacheKey.tokenText
        (cfg.renderTokensText (look.prompt.take (coldStoreLen cfg r c look))) = key
      obtain ⟨-, hsession⟩ := kvCacheStoreLivePrefixText_count cfg synced look.prompt
        (coldStoreLen cfg r c look) .cold key a.coldStore
      have hstored :=
        hsynced.store cfg look.prompt (coldStoreLen cfg r c look) .cold key a.coldStore
      have hnoted := noteColdStore_below hstored (Nat.le_of_eq
        (hpos.symm.trans (congrArg Session.pos hsession.symm)))
      have hsame := (noteColdStore_session (kvCacheStoreLivePrefixText cfg synced look.prompt
        (coldStoreLen cfg r c look) .cold key a.coldStore) (coldStoreLen cfg r c look)).trans
          hsession
      have hlong := Nat.lt_of_lt_of_le cfg.kv.minTokens_pos hcold.2.1
      obtain ⟨hdone, hgrown⟩ := Below.sync cfg look.prompt r.images a.sync hnoted
        (fun sig hsig => by
          -- the prompt goes on from its own beginning
          rw [himages] at hsig ⊢
          rw [hsame, sessionSyncSignature_text hsig,
            syncStart_of_taken hlong hcold.2.2 hcheck hvalid]
          exact hnoted.session (Nat.le_of_eq (congrArg Session.pos hsame)))
      refine ⟨hdone, trivial, fun s hs => ?_⟩
      exact (List.mem_append.mp hs).elim (hstates s) (hgrown s)
  · rw [if_neg hcold, if_neg hcold]
    obtain ⟨hdone, hgrown⟩ := Below.sync cfg look.prompt r.images a.sync
      (hstart st.session) fun _ _ => hstart _
    simp only [if_true, List.nil_append]
    exact ⟨hdone, trivial, hgrown⟩

theorem clearOtherLive_same (st : ServerState) (c : Choice) :
    (clearOtherLive st c).continuedLastStoreTokens = st.continuedLastStoreTokens ∧
      (clearOtherLive st c).session = st.session := by
  unfold clearOtherLive responsesLiveClear anthropicLiveClear thinkingLiveClear
  cases c.responsesLive <;> cases c.anthropicLive <;> cases c.thinkingLive <;> exact ⟨rfl, rfl⟩

/-- Behind a prefill. -/
theorem Below.settle {st : ServerState} (h : Below last st) {r : Request} {c : Choice}
    {look : Looked} (a : Answers) (hcheck : st.session.checkpoint = look.prompt) :
    Below last (settlePrefill cfg st r c look none a) := by
  obtain ⟨hcount, hsession⟩ := clearOtherLive_same st c
  have hclear : Below last (clearOtherLive st c) :=
    ⟨hcount ▸ h.ge, by rw [hcount, hsession]; exact h.le⟩
  have hcontinued := hclear.maybeStore cfg a.continued
  have hkept : (kvCacheMaybeStoreContinued cfg (clearOtherLive st c) a.continued).session =
      st.session := (kvCacheMaybeStoreContinued_frame cfg _ a.continued).session.trans hsession
  unfold settlePrefill coldPromptStore
  generalize kvCacheMaybeStoreContinued cfg (clearOtherLive st c) a.continued = mid
    at hcontinued hkept ⊢
  split
  · rename_i hlen
    obtain ⟨-, hsame⟩ := kvCacheStoreLivePrefixText_count cfg mid look.prompt
      (coldStoreLen cfg r c look) .cold (coldPromptKey cfg r look.prompt) a.coldStore
    refine noteColdStore_below (hcontinued.store cfg look.prompt _ .cold _ a.coldStore) ?_
    rw [hsame, hkept, Session.pos, hcheck, hlen]
  · exact hcontinued

/-- In the decode loop. -/
theorem Below.decode {st : ServerState} (h : Below last st) (d : Decode) :
    ∀ s ∈ decodeStates st d, GrownBelow last s := by
  intro s hs
  obtain ⟨k, hk, rfl⟩ := List.mem_map.mp hs
  refine h.grown ?_
  have hlt := List.mem_range.mp hk
  simp only [Session.pos, List.length_append, List.length_take]
  omega

theorem evictCurrent_count (st : ServerState) (c : Choice) (a : Answers) :
    (evictCurrent cfg st c a).continuedLastStoreTokens = st.continuedLastStoreTokens := by
  unfold evictCurrent
  split
  · unfold kvCacheStoreCurrent
    split
    · rfl
    · exact (kvCacheStoreLivePrefixText_count cfg st _ _ .evict _ a.evict).1
  · rfl

/-- Where nothing is loaded the count stays. -/
theorem lookupPrompt_count {st : ServerState} {r : Request} {c : Choice} {a : Answers}
    (h : loadedCheckpoint cfg st r c a = none) :
    (lookupPrompt cfg st r c a).state.continuedLastStoreTokens = st.continuedLastStoreTokens := by
  unfold loadedCheckpoint at h
  unfold lookupPrompt
  dsimp only
  split
  · rename_i hcond
    rw [if_pos hcond] at h
    rw [h]
    dsimp only
    rcases tryLoadText_cases cfg (evictCurrent cfg st c a) r.cacheLookupText a.disk with
      hl | hl | ⟨ck, -, -, -, hl⟩
    · rw [hl]
      exact evictCurrent_count st c a
    · rw [hl]
      exact evictCurrent_count st c a
    · rw [hl] at h
      cases h
  · exact evictCurrent_count st c a

/-- Over a whole request that begins a new conversation. -/
theorem grownStates_below {st : ServerState} {r : Request} {a : Answers} {c : Choice}
    (hc : choosePrompt cfg st r = some c) (hnew : NewPrompt cfg st r c a) :
    ∀ s ∈ grownStates cfg st r a, GrownBelow st.continuedLastStoreTokens s := by
  intro s hs
  unfold grownStates at hs
  rw [hc] at hs
  dsimp only at hs
  split at hs
  · exact absurd hs List.not_mem_nil
  obtain ⟨hfilled, hnone, hstates⟩ :=
    prefill_below a (lookupPrompt_count hnew.nothingLoaded) hnew.nothingSuppressed
  rcases List.mem_append.mp hs with hs | hs
  · exact hstates s hs
  split at hs
  · rename_i hdone
    rw [hnone] at hs
    exact (hfilled.settle a (prefillSyncs_done hdone.1)).decode a.decode s hs
  · exact absurd hs List.not_mem_nil

end Request

/-! ## Runs -/

/-- The continued checkpoints of an event are due when the count before is small enough. -/
theorem restarts_iff (cfg : Setup) (st : ServerState) (e : Event) :
    Restarts cfg st e ↔ StartsBelow cfg st e := by
  cases e with
  | shutdown answer => exact Iff.rfl
  | request r a =>
    refine forall_congr' fun c => forall_congr' fun hc => forall_congr' fun hnew =>
      forall_congr' fun s => forall_congr' fun hs => forall_congr' fun hdue => ?_
    rw [continuedStoreTarget_eq_iff hdue]
    exact (grownStates_below hc hnew s hs).lt_iff

/-- Over any sequence of requests, the continued checkpoints of the new conversations are
due exactly when each of these starts with a count below the tokens it comes to. -/
theorem continuedStores_restart_iff (cfg : Setup) (st : ServerState) (events : List Event) :
    Guarded (serve cfg) (Restarts cfg) st events ↔
      Guarded (serve cfg) (StartsBelow cfg) st events := by
  induction events generalizing st with
  | nil => exact Iff.rfl
  | cons e events ih => exact and_congr (restarts_iff cfg st e) (ih _)

/-- A store of continued checkpoints every two tokens. -/
def everyTwoSetup : Setup where
  ctxSize := 12
  tokenizeRenderedChat text := text.map UInt8.toNat
  renderTokensText tokens := tokens.map Nat.toUInt8
  imPatch := none
  rewindPreservesKv _ _ := true
  kv :=
    { enabled := true
      minTokens := 1
      minTokens_pos := Nat.one_pos
      coldMaxTokens := 0
      continuedIntervalTokens := 2
      boundaryTrimTokens := 0
      boundaryAlignTokens := 0 }

/-- A prompt evaluated two tokens at a time, each checkpoint written. -/
def twoByTwo (promptText : Bytes) : Event :=
  .request { api := .openai, promptText := promptText }
    { sync := { pieces := [⟨2, .written⟩], last := .written } }

/-- A conversation of two tokens after one of four gets no continued checkpoint. -/
theorem not_continuedStores_restart :
    ¬ ∀ (cfg : Setup) (events : List Event), Guarded (serve cfg) (Restarts cfg) {} events := by
  intro h
  have hrun := h everyTwoSetup [twoByTwo (bytes "aaaa"), twoByTwo (bytes "bb")]
  obtain ⟨-, hsecond, -⟩ := hrun
  have hgrown := hsecond {} (by decide) ⟨rfl, by decide, by decide⟩
  have hmem : ∃ s ∈ grownStates everyTwoSetup
      (serve everyTwoSetup {} (twoByTwo (bytes "aaaa")))
      { api := .openai, promptText := bytes "bb" }
      { sync := { pieces := [⟨2, .written⟩], last := .written } },
      Due everyTwoSetup s.session.pos ∧ continuedStoreTarget everyTwoSetup.kv
        s.continuedLastStoreTokens s.session.pos ≠ s.session.pos := by
    decide
  obtain ⟨s, hs, hdue, hno⟩ := hmem
  exact hno (hgrown s hs hdue)

end Sf37.Server

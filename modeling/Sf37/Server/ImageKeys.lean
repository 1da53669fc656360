/-
Sf37.Server.ImageKeys — the keys that sessions with and without images are stored under.

The server keeps the image header of its session beside the session and puts it in
front of the key of what it stores. The two part where the session changes and the
header does not: when a request is refused for its length after a checkpoint was
loaded, when a sync of images fails and leaves them in the session, and when a prompt
without images goes on from a session with images.

* `serve_keyInv`: a step that takes none of these ways keeps header and session together.
* `storedKey_header`: in a run of such steps every file is stored under the header of
  the images its rows were prefilled with.
-/
import Sf37.Server.RunGenerationTheorems

namespace Sf37.Server

open Sf37.Text Sf37.Run

/-! ## The invariant -/

/-- Every file is stored under the header of the images its rows were prefilled with,
and without one when there were none. -/
def FilesKeyed (st : ServerState) : Prop := ∀ f ∈ st.stored, f.key.header = f.rowsHeader

/-- The header the server believes in is the one of the session, as long as there is a
session to store. -/
def HeaderRight (header : Option Bytes) (s : Session) : Prop :=
  s.checkpointValid = true → s.checkpoint ≠ [] → header = s.rowsHeader

/-- What holds between requests. -/
structure KeyInv (st : ServerState) : Prop where
  files : FilesKeyed st
  current : HeaderRight (currentHeader st) st.session

theorem StoreFrame.filesKeyed {reason : StoreReason} {header : Option Bytes}
    {st st' : ServerState} (h : StoreFrame reason header st st') (hf : FilesKeyed st)
    (hreason : reason ≠ .cold) (hright : HeaderRight header st.session) : FilesKeyed st' := by
  intro f hmem
  rcases h.stored f hmem with hold | ⟨-, hkey, -, hrows, hvalid, hne⟩
  · exact hf f hold
  · rw [hkey, hrows]
    exact hright hvalid (hne hreason)

/-- A store under the header of the rows. -/
theorem StoreFrame.filesKeyed_of_eq {reason : StoreReason} {header : Option Bytes}
    {st st' : ServerState} (h : StoreFrame reason header st st') (hf : FilesKeyed st)
    (hrows : header = st.session.rowsHeader) : FilesKeyed st' := by
  intro f hmem
  rcases h.stored f hmem with hold | ⟨-, hkey, -, hfrows, -, -⟩
  · exact hf f hold
  · rw [hkey, hfrows, hrows]

theorem Prefills.filesKeyed {st st' : ServerState} (h : Prefills st st') (hf : FilesKeyed st)
    (hrows : currentHeader st = st.session.rowsHeader) : FilesKeyed st' := by
  intro f hmem
  rcases h.stored f hmem with hold | ⟨hkey, hfrows⟩
  · exact hf f hold
  · rw [hkey, hfrows, hrows]

theorem StoreFrame.believes {reason : StoreReason} {header : Option Bytes}
    {st st' : ServerState} (h : StoreFrame reason header st st') :
    currentHeader st' = currentHeader st := by
  obtain ⟨last, stored, rfl⟩ := h.same
  rfl

/-- A store under the server's own header keeps the invariant. -/
theorem StoreFrame.keyInv {reason : StoreReason} {st st' : ServerState}
    (h : StoreFrame reason (currentHeader st) st st') (hreason : reason ≠ .cold)
    (hinv : KeyInv st) : KeyInv st' := by
  refine ⟨h.filesKeyed hinv.files hreason hinv.current, ?_⟩
  rw [h.believes, h.session]
  exact hinv.current

/-! ## The ways that go wrong -/

/-- A request refused for its length has not loaded a checkpoint with other images than
the ones the server believes in. -/
def RefusesKeyed (st : ServerState) (look : Looked) : Prop :=
  HeaderRight (currentHeader st) look.state.session

/-- A prompt without images does not go on from a session with images. -/
def TextLeavesImages (look : Looked) : Prop :=
  look.state.session.checkpointValid = true → look.state.session.checkpoint ≠ [] →
    look.state.session.checkpoint <+: look.prompt → look.state.session.rowsHeader = none

/-- Images with the signature of the session are the images of the session: the two
hashes of a request agree on which images are the same. -/
def SignatureNamesImages (st : ServerState) (f : ImageFeatures) : Prop :=
  st.session.checkpointValid = true → st.session.checkpoint ≠ [] →
    st.session.imageSignature = some f.signature →
    st.session.rowsHeader = some (imageCacheHeader f)

/-- A prefill that fails leaves no images in the session. -/
def FailsClean (cfg : Setup) (r : Request) (c : Choice) (look : Looked) (a : Answers) : Prop :=
  (prefillSyncs cfg r c look a).2.2 = false →
    HeaderRight none (prefillSyncs cfg r c look a).1.session

/-- A request whose prompt is chosen takes none of the ways that go wrong. -/
structure RequestKeepsKeys (cfg : Setup) (st : ServerState) (r : Request) (c : Choice)
    (a : Answers) (look : Looked) : Prop where
  refused : look.prompt ≠ [] → cfg.ctxSize ≤ look.prompt.length → RefusesKeyed st look
  text : look.prompt.length < cfg.ctxSize → r.images = none → TextLeavesImages look
  images : look.prompt.length < cfg.ctxSize →
    ∀ f, r.images = some f → SignatureNamesImages st f
  failed : look.prompt.length < cfg.ctxSize → FailsClean cfg r c look a

/-- The event takes none of the ways that go wrong. -/
def KeepsKeys (cfg : Setup) (st : ServerState) : Event → Prop
  | .shutdown _ => True
  | .request r a => ∀ c, choosePrompt cfg st r = some c →
      RequestKeepsKeys cfg st r c a (lookupPrompt cfg st r c a)

/-! ## Looking on the disk -/

/-- What the session can be after the disk was asked. -/
inductive LookedSession (st : ServerState) (r : Request) : Session → Prop where
  | same : LookedSession st r st.session
  | emptied : LookedSession st r {}
  | loaded (ck : DiskCheckpoint) (sig : Option ImageSignature)
      (htext : ck.text <+: r.cacheLookupText) (hne : ck.tokens ≠ [])
      (hsig : sig ≠ none → ck.imageKey = true) :
      LookedSession st r
        { checkpoint := ck.tokens, rowsHeader := ck.rowsHeader, imageSignature := sig }

theorem useLoaded_looked {cfg : Setup} {st loaded : ServerState} {r : Request}
    {ck : DiskCheckpoint} (htext : ck.text <+: r.cacheLookupText) (hne : ck.tokens ≠ [])
    (hs : loaded.session = { checkpoint := ck.tokens, rowsHeader := ck.rowsHeader }) :
    LookedSession st r (useLoaded cfg loaded r r.cacheLookupText ck).state.session := by
  have hplain : LookedSession st r loaded.session :=
    hs ▸ .loaded ck none htext hne (absurd rfl)
  rw [useLoaded]
  cases r.images with
  | none => exact hplain
  | some f =>
    dsimp only
    split
    · exact sessionRewind_zero loaded.session ▸ .emptied
    split
    · rename_i hkey
      rw [sessionNoteImageFeatures]
      cases sessionPrepareImageSignature cfg
        (ck.tokens ++ cfg.tokenizeRenderedChat (r.cacheLookupText.drop ck.text.length)) f with
      | none => exact hplain
      | some sig =>
        dsimp only [Option.map_some]
        split
        · rw [hs]
          exact .loaded ck (some sig) htext hne fun _ => hkey
        · exact hplain
    · exact hplain

theorem lookupPrompt_looked (cfg : Setup) (st : ServerState) (r : Request) (c : Choice)
    (a : Answers) : LookedSession st r (lookupPrompt cfg st r c a).state.session := by
  have hevict := (evictCurrent_frame cfg st c a).session
  rw [lookupPrompt]
  dsimp only
  split
  · rcases tryLoadText_cases cfg (evictCurrent cfg st c a) r.cacheLookupText a.disk with
      h | h | ⟨ck, -, htext, hne, h⟩
    · rw [h]
      exact hevict.symm ▸ LookedSession.same
    · rw [h]
      exact .emptied
    · rw [h]
      exact useLoaded_looked htext hne rfl
  · exact hevict.symm ▸ LookedSession.same

/-- Asking the disk stores at most the session there was and leaves the flags. -/
theorem useLoaded_frame (cfg : Setup) (st : ServerState) (r : Request) (text : Bytes)
    (ck : DiskCheckpoint) :
    (useLoaded cfg st r text ck).state.stored = st.stored ∧
      currentHeader (useLoaded cfg st r text ck).state = currentHeader st := by
  rw [useLoaded]
  cases r.images with
  | none => exact ⟨rfl, rfl⟩
  | some f =>
    dsimp only
    split
    · exact ⟨rfl, rfl⟩
    split
    · cases sessionNoteImageFeatures cfg st.session _ f <;> exact ⟨rfl, rfl⟩
    · exact ⟨rfl, rfl⟩

theorem lookupPrompt_frame (cfg : Setup) (st : ServerState) (r : Request) (c : Choice)
    (a : Answers) :
    (lookupPrompt cfg st r c a).state.stored = (evictCurrent cfg st c a).stored ∧
      currentHeader (lookupPrompt cfg st r c a).state = currentHeader st := by
  have hevict := (evictCurrent_frame cfg st c a).believes
  rw [lookupPrompt]
  dsimp only
  split
  · rcases tryLoadText_cases cfg (evictCurrent cfg st c a) r.cacheLookupText a.disk with
      h | h | ⟨ck, -, -, -, h⟩
    · rw [h]
      exact ⟨rfl, hevict⟩
    · rw [h]
      exact ⟨rfl, hevict⟩
    · rw [h]
      exact ⟨(useLoaded_frame cfg _ r _ ck).1, (useLoaded_frame cfg _ r _ ck).2.trans hevict⟩
  · exact ⟨rfl, hevict⟩

theorem lookupPrompt_files (cfg : Setup) {st : ServerState} (h : KeyInv st) (r : Request)
    (c : Choice) (a : Answers) : FilesKeyed (lookupPrompt cfg st r c a).state := by
  have hevict := (evictCurrent_frame cfg st c a).keyInv (by decide) h
  rw [FilesKeyed, (lookupPrompt_frame cfg st r c a).1]
  exact hevict.files

/-! ## Where a sync starts -/

/-- The rows of a loaded image checkpoint have the images of the request that finds it. -/
theorem loaded_rowsHeader {f : ImageFeatures} {r : Request} {ck : DiskCheckpoint}
    (himages : r.images = some f) (htext : ck.text <+: r.cacheLookupText)
    (hkey : ck.imageKey = true) : ck.rowsHeader = some (imageCacheHeader f) := by
  obtain ⟨header, hheader⟩ := Option.isSome_iff_exists.mp (ck.keyed hkey)
  have hlookup : r.cacheLookupText = imageCacheHeader f ++ r.promptText := by
    rw [Request.cacheLookupText, himages]
    rfl
  have hfound := imageCacheHeaderFromText_of_isPrefix htext hheader
  rw [hlookup, imageCacheHeaderFromText_header] at hfound
  rw [DiskCheckpoint.rowsHeader, if_pos hkey, hheader, hfound]

/-- The signature a sync with images checks is the one of the images. -/
theorem syncSignature_images {cfg : Setup} {prompt : Tokens} {f : ImageFeatures}
    {sig : Option ImageSignature} (h : sessionSyncSignature cfg prompt (some f) = some sig) :
    sig = some f.signature := by
  simp only [sessionSyncSignature, sessionPrepareImageSignature] at h
  split at h
  · cases h
  split at h
  · rw [Option.map_some, if_pos f.signature_rows] at h
    exact (Option.some.inj h).symm
  · cases h

/-- A sync of the prompt, or of the front of it, starts with rows of the request's
images. -/
theorem syncStart_rows {cfg : Setup} {st : ServerState} {r : Request} {c : Choice} {a : Answers}
    (htextonly : r.images = none → TextLeavesImages (lookupPrompt cfg st r c a))
    (hnames : ∀ f, r.images = some f → SignatureNamesImages st f) {p : Tokens}
    (hp : p <+: (lookupPrompt cfg st r c a).prompt) {sig : Option ImageSignature}
    (hsig : sessionSyncSignature cfg p r.images = some sig) :
    ((lookupPrompt cfg st r c a).state.session.syncStart p sig r.images).rowsHeader =
      r.images.map imageCacheHeader := by
  rcases (lookupPrompt cfg st r c a).state.session.syncStart_cases p sig r.images with
    h | ⟨h, hvalid, hne, hpre, hsame⟩
  · rw [h]
  rw [h]
  cases himages : r.images with
  | none => exact htextonly himages hvalid hne (hpre.trans hp)
  | some f =>
    rw [himages] at hsig
    have hfsig := syncSignature_images hsig
    have hnoted : (lookupPrompt cfg st r c a).state.session.imageSignature = some f.signature := by
      rcases hsame with h0 | h0
      · rw [hfsig] at h0
        cases h0
      · rw [h0, hfsig]
    have hlooked := lookupPrompt_looked cfg st r c a
    generalize (lookupPrompt cfg st r c a).state.session = s at hlooked hvalid hne hnoted
    cases hlooked with
    | same => exact hnames f himages hvalid hne hnoted
    | emptied => exact absurd rfl hne
    | loaded ck sig' htext _ hkey =>
      dsimp only at hnoted ⊢
      exact loaded_rowsHeader himages htext (hkey (by rw [hnoted]; exact Option.some_ne_none _))

/-! ## The prefill -/

theorem currentHeader_setImageFlags (cfg : Setup) (st : ServerState)
    (images : Option ImageFeatures) (prompt : Tokens) :
    currentHeader (setImageFlags cfg st images prompt) = images.map imageCacheHeader := by
  cases images <;> rfl

theorem prefillStart_frame (cfg : Setup) (r : Request) (c : Choice) (look : Looked) :
    (prefillStart cfg r c look).1.session = look.state.session ∧
      (prefillStart cfg r c look).1.stored = look.state.stored ∧
      currentHeader (prefillStart cfg r c look).1 = r.images.map imageCacheHeader := by
  refine ⟨?_, ?_, currentHeader_setImageFlags cfg _ r.images look.prompt⟩
  all_goals
    dsimp only [prefillStart, setImageFlags, suppressContinuedStore, noteStore]
    split
    · split
      · rfl
      · split <;> rfl
    · rfl

/-- The state of a prefill: the files are keyed and the server believes in the images of
the request. -/
structure PrefillKeyed (header : Option Bytes) (st : ServerState) : Prop where
  files : FilesKeyed st
  header : currentHeader st = header

theorem Prefills.keyed {st st' : ServerState} {header : Option Bytes} (h : Prefills st st')
    (hk : PrefillKeyed header st) (hrows : st.session.rowsHeader = header) :
    PrefillKeyed header st' ∧ st'.session.rowsHeader = header :=
  ⟨⟨h.filesKeyed hk.files (hk.header.trans hrows.symm), h.header.trans hk.header⟩,
    h.rows.trans hrows⟩

/-- A sync whose start has rows of the right images. -/
theorem sessionSync_keyed {cfg : Setup} {st : ServerState} {prompt : Tokens}
    {images : Option ImageFeatures} {header : Option Bytes} (run : SyncRun)
    (hk : PrefillKeyed header st)
    (hstart : ∀ sig, sessionSyncSignature cfg prompt images = some sig →
      (st.session.syncStart prompt sig images).rowsHeader = header) :
    PrefillKeyed header (sessionSync cfg st prompt images run).1 ∧
      ((sessionSync cfg st prompt images run).2 = true →
        (sessionSync cfg st prompt images run).1.session.rowsHeader = header) := by
  rcases sessionSync_cases cfg st prompt images run with ⟨-, h⟩ | ⟨sig, hsig, h⟩
  · rw [h]
    exact ⟨hk, Bool.noConfusion⟩
  · have hbase : PrefillKeyed header
        { st with session := st.session.syncStart prompt sig images } := ⟨hk.files, hk.header⟩
    obtain ⟨hkeyed, hrows⟩ := h.prefills.keyed hbase (hstart sig hsig)
    exact ⟨hkeyed, fun _ => hrows⟩

/-- With images there is no cold prefix. -/
theorem coldPrefixSync_images {cfg : Setup} {r : Request} {c : Choice} {look : Looked}
    {f : ImageFeatures} (himages : r.images = some f) (st : ServerState)
    (suppressed : Option Nat) (a : Answers) :
    coldPrefixSync cfg st look.prompt (coldStoreLen cfg r c look) suppressed a =
      (st, suppressed, true) := by
  rw [coldPrefixSync]
  refine if_neg fun hcold => ?_
  obtain ⟨-, hmin, hlt⟩ := hcold
  have hpos := cfg.kv.minTokens_pos
  rw [coldStoreLen] at hmin hlt
  split at hlt
  · rw [himages] at hlt
    exact Nat.lt_irrefl _ hlt
  · rename_i h0
    rw [if_neg h0] at hmin
    exact Nat.not_lt.mpr hmin hpos

/-- The session at the start of a cold prefix is the one the disk left. -/
theorem coldPrefixSync_keyed {cfg : Setup} {st : ServerState} {prompt : Tokens} (coldLen : Nat)
    (suppressed : Option Nat) (a : Answers) (hk : PrefillKeyed none st)
    (hstart : ∀ p, p <+: prompt → ∀ sig, sessionSyncSignature cfg p none = some sig →
      (st.session.syncStart p sig none).rowsHeader = none) :
    PrefillKeyed none (coldPrefixSync cfg st prompt coldLen suppressed a).1 ∧
      ((coldPrefixSync cfg st prompt coldLen suppressed a).2.2 = true →
        (coldPrefixSync cfg st prompt coldLen suppressed a).1.session = st.session ∨
        (coldPrefixSync cfg st prompt coldLen suppressed a).1.session.rowsHeader = none) := by
  obtain ⟨hkeyed, hrows⟩ := sessionSync_keyed a.coldSync hk
    (hstart (prompt.take coldLen) (List.take_prefix _ _))
  rcases coldPrefixSync_cases cfg st prompt coldLen suppressed a with
    h | ⟨-, ⟨-, h⟩ | ⟨hok, -, mid, hstore, hnote⟩⟩
  · rw [h]
    exact ⟨hk, fun _ => Or.inl rfl⟩
  · rw [h]
    exact ⟨hkeyed, Bool.noConfusion⟩
  · have hmid : PrefillKeyed none mid :=
      ⟨hstore.filesKeyed_of_eq hkeyed.files (hrows hok).symm,
        hstore.believes.trans hkeyed.header⟩
    have hmrows : mid.session.rowsHeader = none := by rw [hstore.session, hrows hok]
    obtain ⟨hk', hrows'⟩ := hnote.keyed hmid hmrows
    exact ⟨hk', fun _ => Or.inr hrows'⟩

/-- A text sync from rows without images starts without images. -/
theorem syncStart_text {s : Session} (hrows : s.rowsHeader = none) (p : Tokens)
    (sig : Option ImageSignature) : (s.syncStart p sig none).rowsHeader = none := by
  rcases s.syncStart_cases p sig none with h | ⟨h, -⟩
  · rw [h]
    rfl
  · rw [h, hrows]

/-- The syncs of a prefill keep to the images of the request. -/
theorem prefillSyncs_keyed {cfg : Setup} {st : ServerState} {r : Request} {c : Choice}
    {a : Answers} (h : KeyInv st)
    (htextonly : r.images = none → TextLeavesImages (lookupPrompt cfg st r c a))
    (hnames : ∀ f, r.images = some f → SignatureNamesImages st f) :
    PrefillKeyed (r.images.map imageCacheHeader)
        (prefillSyncs cfg r c (lookupPrompt cfg st r c a) a).1 ∧
      ((prefillSyncs cfg r c (lookupPrompt cfg st r c a) a).2.2 = true →
        (prefillSyncs cfg r c (lookupPrompt cfg st r c a) a).1.session.rowsHeader =
          r.images.map imageCacheHeader) := by
  have hrowsOf : ∀ p, p <+: (lookupPrompt cfg st r c a).prompt → ∀ sig,
      sessionSyncSignature cfg p r.images = some sig →
      ((lookupPrompt cfg st r c a).state.session.syncStart p sig r.images).rowsHeader =
        r.images.map imageCacheHeader :=
    fun _ hp _ hsig => syncStart_rows htextonly hnames hp hsig
  have hfiles := lookupPrompt_files cfg h r c a
  obtain ⟨look, hlook⟩ : ∃ look, look = lookupPrompt cfg st r c a := ⟨_, rfl⟩
  rw [← hlook] at hrowsOf hfiles ⊢
  obtain ⟨hsession, hstored, hheader⟩ := prefillStart_frame cfg r c look
  have hk : PrefillKeyed (r.images.map imageCacheHeader) (prefillStart cfg r c look).1 :=
    ⟨by rw [FilesKeyed, hstored]; exact hfiles, hheader⟩
  rw [prefillSyncs]
  dsimp only
  cases himages : r.images with
  | some f =>
    rw [coldPrefixSync_images himages, if_pos rfl]
    rw [himages] at hk hrowsOf
    exact sessionSync_keyed a.sync hk fun sig hsig => by
      rw [hsession]
      exact hrowsOf look.prompt List.prefix_rfl sig hsig
  | none =>
    rw [himages] at hk hrowsOf
    obtain ⟨hcold, hcrows⟩ := coldPrefixSync_keyed (coldStoreLen cfg r c look)
      (prefillStart cfg r c look).2 a hk fun p hp sig hsig => by
        rw [hsession]
        exact hrowsOf p hp sig hsig
    split
    · rename_i hok
      refine sessionSync_keyed a.sync hcold fun sig hsig => ?_
      rcases hcrows hok with hs | hs
      · rw [hs, hsession]
        exact hrowsOf look.prompt List.prefix_rfl sig hsig
      · exact syncStart_text hs look.prompt sig
    · rename_i hok
      exact ⟨hcold, fun h0 => absurd h0 hok⟩

/-! ## The step -/

theorem clearOtherLive_keyed {st : ServerState} {header : Option Bytes}
    (h : PrefillKeyed header st) (c : Choice) :
    PrefillKeyed header (clearOtherLive st c) ∧ (clearOtherLive st c).session = st.session := by
  have hsame : (clearOtherLive st c).stored = st.stored ∧
      currentHeader (clearOtherLive st c) = currentHeader st ∧
      (clearOtherLive st c).session = st.session := by
    rw [clearOtherLive]
    cases c.responsesLive <;> cases c.anthropicLive <;> cases c.thinkingLive <;>
      exact ⟨rfl, rfl, rfl⟩
  exact ⟨⟨by rw [FilesKeyed, hsame.1]; exact h.files, hsame.2.1.trans h.header⟩, hsame.2.2⟩

/-- A prefill that goes through ends with the images of the request in session and
flags. -/
theorem settlePrefill_keyed {cfg : Setup} {st : ServerState} {r : Request} (c : Choice)
    (look : Looked) (suppressed : Option Nat) (a : Answers)
    (h : PrefillKeyed (r.images.map imageCacheHeader) st)
    (hrows : st.session.rowsHeader = r.images.map imageCacheHeader) :
    FilesKeyed (settlePrefill cfg st r c look suppressed a) ∧
      currentHeader (settlePrefill cfg st r c look suppressed a) =
        (settlePrefill cfg st r c look suppressed a).session.rowsHeader := by
  obtain ⟨hclear, hcs⟩ := clearOtherLive_keyed h c
  have hcrows : (clearOtherLive st c).session.rowsHeader = r.images.map imageCacheHeader := by
    rw [hcs, hrows]
  have hcont := kvCacheMaybeStoreContinued_frame cfg (clearOtherLive st c) a.continued
  obtain ⟨hk, hkrows⟩ := hcont.prefills.keyed hclear hcrows
  rw [settlePrefill]
  obtain ⟨mid, hstore, hnote, -⟩ := coldPromptStore_cases cfg
    (kvCacheMaybeStoreContinued cfg (clearOtherLive st c) a.continued) r look.prompt
    (coldStoreLen cfg r c look) suppressed a.coldStore
  have hmid : PrefillKeyed (r.images.map imageCacheHeader) mid :=
    ⟨hstore.filesKeyed_of_eq hk.files hkrows.symm, hstore.believes.trans hk.header⟩
  obtain ⟨hend, hendrows⟩ := hnote.keyed hmid (by rw [hstore.session, hkrows])
  exact ⟨hend.files, hend.header.trans hendrows.symm⟩

/-- What decoding and remembering leave: files, flags, and the images of the rows. -/
theorem rememberReply_same (st : ServerState) (r : Request) (reply : Reply) :
    (rememberReply st r reply).session = st.session ∧
      (rememberReply st r reply).stored = st.stored ∧
      currentHeader (rememberReply st r reply) = currentHeader st := by
  have hresponses : ∀ (s : ServerState) visible calls,
      (responsesLiveRemember s visible calls).session = s.session ∧
      (responsesLiveRemember s visible calls).stored = s.stored ∧
      currentHeader (responsesLiveRemember s visible calls) = currentHeader s := by
    intro s visible calls
    rw [responsesLiveRemember]
    split <;> exact ⟨rfl, rfl, rfl⟩
  have hanthropic : ∀ (s : ServerState) calls,
      (anthropicLiveRemember s calls).session = s.session ∧
      (anthropicLiveRemember s calls).stored = s.stored ∧
      currentHeader (anthropicLiveRemember s calls) = currentHeader s := by
    intro s calls
    rw [anthropicLiveRemember]
    split <;> exact ⟨rfl, rfl, rfl⟩
  have hthinking : ∀ (s : ServerState) content,
      (rememberThinkingCheckpoint s r content).session = s.session ∧
      (rememberThinkingCheckpoint s r content).stored = s.stored ∧
      currentHeader (rememberThinkingCheckpoint s r content) = currentHeader s := by
    intro s content
    rw [rememberThinkingCheckpoint]
    split
    · exact ⟨rfl, rfl, rfl⟩
    cases buildToollessThinkingVisibleText r content with
    | none => exact ⟨rfl, rfl, rfl⟩
    | some visible =>
      dsimp only [thinkingLiveRemember]
      split <;> exact ⟨rfl, rfl, rfl⟩
  have hapi : (rememberApi st r reply).session = st.session ∧
      (rememberApi st r reply).stored = st.stored ∧
      currentHeader (rememberApi st r reply) = currentHeader st := by
    rw [rememberApi]
    cases r.api with
    | responses => exact hresponses st _ _
    | anthropic =>
      dsimp only
      split
      · exact hanthropic st _
      · exact ⟨rfl, rfl, rfl⟩
    | openai => exact ⟨rfl, rfl, rfl⟩
    | completions => exact ⟨rfl, rfl, rfl⟩
  rw [rememberReply]
  split
  · dsimp only
    split
    · exact hapi
    · obtain ⟨hs, hf, hh⟩ := hthinking (rememberApi st r reply) reply.content
      exact ⟨hs.trans hapi.1, hf.trans hapi.2.1, hh.trans hapi.2.2⟩
  · cases r.api <;> exact ⟨rfl, rfl, rfl⟩

/-- Decoding adds tokens to rows whose images stay. -/
theorem decodeReply_keyInv {st : ServerState} (r : Request) (d : Decode)
    (hf : FilesKeyed st) (hrows : currentHeader st = st.session.rowsHeader) :
    KeyInv (decodeReply st r d) := by
  have hdecode : KeyInv (decodeTokens st d) := ⟨hf, fun _ _ => hrows⟩
  rw [decodeReply]
  cases d.reply with
  | none => exact hdecode
  | some reply =>
    obtain ⟨hs, hstored, hheader⟩ := rememberReply_same (decodeTokens st d) r reply
    exact ⟨by rw [FilesKeyed, hstored]; exact hdecode.files,
      by rw [hs, hheader]; exact hdecode.current⟩

/-- A request that takes none of the ways that go wrong. -/
theorem runGeneration_keyInv {cfg : Setup} {st : ServerState} (h : KeyInv st) {r : Request}
    {a : Answers} (hk : KeepsKeys cfg st (.request r a)) : KeyInv (runGeneration cfg st r a) := by
  rw [runGeneration]
  cases hc : choosePrompt cfg st r with
  | none => exact h
  | some c =>
    have hways := hk c hc
    have hfiles := lookupPrompt_files cfg h r c a
    have hheader := (lookupPrompt_frame cfg st r c a).2
    dsimp only
    by_cases hzero : (lookupPrompt cfg st r c a).prompt = []
    · rw [if_pos (Or.inl hzero)]
      refine ⟨hfiles, fun hvalid hne => ?_⟩
      rcases lookupPrompt_session cfg st r c a with hs | hs | hs
      · rw [hs] at hvalid hne ⊢
        rw [hheader]
        exact h.current hvalid hne
      · exact absurd hs hne
      · exact absurd hzero hs
    by_cases hctx : cfg.ctxSize ≤ (lookupPrompt cfg st r c a).prompt.length
    · rw [if_pos (Or.inr hctx)]
      refine ⟨hfiles, ?_⟩
      rw [hheader]
      exact hways.refused hzero hctx
    rw [if_neg (not_or.mpr ⟨hzero, hctx⟩)]
    have hlt := Nat.lt_of_not_le hctx
    obtain ⟨hkeyed, hrows⟩ := prefillSyncs_keyed (c := c) (a := a) h (hways.text hlt)
      (hways.images hlt)
    cases hok : (prefillSyncs cfg r c (lookupPrompt cfg st r c a) a).2.2 with
    | false =>
      rw [if_neg Bool.false_ne_true]
      have hrestore := prefills_restoreSuppressed
        (prefillSyncs cfg r c (lookupPrompt cfg st r c a) a).1
        (prefillSyncs cfg r c (lookupPrompt cfg st r c a) a).2.1
        (coldStoreLen cfg r c (lookupPrompt cfg st r c a))
      have hstored : (restoreSuppressedContinued
          (prefillSyncs cfg r c (lookupPrompt cfg st r c a) a).1
          (prefillSyncs cfg r c (lookupPrompt cfg st r c a) a).2.1
          (coldStoreLen cfg r c (lookupPrompt cfg st r c a))).stored =
          (prefillSyncs cfg r c (lookupPrompt cfg st r c a) a).1.stored := by
        dsimp only [restoreSuppressedContinued]
        split
        · rfl
        · split <;> rfl
      refine ⟨?_, ?_⟩
      · rw [abandonPrefill, FilesKeyed, dropImageFlags, hstored]
        exact hkeyed.files
      · rw [abandonPrefill_session]
        exact hways.failed hlt hok
    | true =>
      rw [if_pos rfl]
      obtain ⟨hsf, hsh⟩ := settlePrefill_keyed c (lookupPrompt cfg st r c a)
        (prefillSyncs cfg r c (lookupPrompt cfg st r c a) a).2.1 a hkeyed (hrows hok)
      split
      · exact decodeReply_keyInv r a.decode hsf hsh
      · exact ⟨hsf, fun _ _ => hsh⟩

/-- Every event that takes none of the ways that go wrong keeps the invariant. -/
theorem serve_keyInv {cfg : Setup} {st : ServerState} {e : Event} (h : KeyInv st)
    (hk : KeepsKeys cfg st e) : KeyInv (serve cfg st e) := by
  cases e with
  | request r a => exact runGeneration_keyInv h hk
  | shutdown answer => exact (kvCacheStoreCurrent_frame cfg st .shutdown answer).keyInv (by decide) h

/-! ## Runs -/

/-- In a run that takes none of the ways that go wrong every file is stored under the
header of the images its rows were prefilled with, and without a header when there were
none. -/
theorem storedKey_header {cfg : Setup} {st : ServerState}
    (h : Comes (serve cfg) Fresh (KeepsKeys cfg) st) {f : Stored} (hf : f ∈ st.stored) :
    f.key.header = f.rowsHeader := by
  have hinv : KeyInv st := by
    refine h.invariant ?_ ?_
    · rintro s rfl
      exact ⟨fun f hf => (List.not_mem_nil hf).elim, fun _ hne => absurd rfl hne⟩
    · intro s e hs he
      exact serve_keyInv hs he
  exact hinv.files f hf

/-! ## Two runs -/

/-- A server whose tokens are bytes, with `*` for a row of an image. -/
def starSetup : Setup where
  ctxSize := 12
  tokenizeRenderedChat text := text.map UInt8.toNat
  renderTokensText tokens := tokens.map Nat.toUInt8
  imPatch := some 0x2a
  rewindPreservesKv _ _ := true
  kv :=
    { enabled := true
      minTokens := 1
      minTokens_pos := Nat.one_pos
      coldMaxTokens := 0
      continuedIntervalTokens := 0
      boundaryTrimTokens := 0
      boundaryAlignTokens := 0 }

/-- An image of one row. -/
def starImage : ImageFeatures where
  images := 1
  patchImages := 0
  rows := 0
  dim := 0
  cacheHashA := 1
  cacheHashB := 2
  signature := { a := 3, b := 4, rows := 1 }
  signature_rows := Nat.one_pos
  wellShaped := true

/-- A request with the image. -/
def imageRequest : Event :=
  .request { api := .openai, promptText := bytes "a*", images := some starImage } {}

/-- A request without images, too long for the context, that finds a checkpoint. -/
def longRequest : Event :=
  .request { api := .openai, promptText := bytes "xyzxyzxyzxyz" }
    { disk := .found { text := bytes "xyz", tokens := [0x78, 0x79, 0x7a] } }

/-- A session with an image is stored under the image's key. -/
theorem storedKey_header_image :
    ([imageRequest, .shutdown .written].foldl (serve starSetup) {}).stored.map (·.key.header) =
        [some (imageCacheHeader starImage)] ∧
      ∀ f ∈ ([imageRequest, .shutdown .written].foldl (serve starSetup) {}).stored,
        f.key.header = f.rowsHeader := by
  have hkeeps : KeepsKeys starSetup {} imageRequest := by
    intro c hc
    have hchoice : c = {} := by
      have h0 : choosePrompt starSetup {}
          { api := .openai, promptText := bytes "a*", images := some starImage } = some {} := by
        decide
      exact Option.some.inj (hc.symm.trans h0)
    subst hchoice
    refine ⟨fun _ hctx => absurd hctx (by decide), fun _ h0 => ?_, fun _ f _ _ h0 => absurd rfl h0,
      fun _ hfail => absurd hfail (by decide)⟩
    cases h0
  have hstart : Comes (serve starSetup) Fresh (KeepsKeys starSetup) {} := .start rfl
  have hrun := comes_run [imageRequest, .shutdown .written] hstart ⟨hkeeps, trivial, trivial⟩
  exact ⟨by decide, fun f hf => storedKey_header hrun hf⟩

/-- When a refused request in between loads a text checkpoint, that is stored under the
image's key. -/
theorem storedKey_not_header :
    ¬ ∀ (cfg : Setup) (st : ServerState), Comes (serve cfg) Fresh (fun _ _ => True) st →
      ∀ f ∈ st.stored, f.reason ≠ .cold → f.key.header = f.rowsHeader := by
  intro h
  have hstart : Comes (serve starSetup) Fresh (fun _ _ => True) {} := .start rfl
  have hrun := comes_run [imageRequest, longRequest, .shutdown .written] hstart
    ⟨trivial, trivial, trivial, trivial⟩
  exact absurd (h starSetup _ hrun) (by decide)

end Sf37.Server

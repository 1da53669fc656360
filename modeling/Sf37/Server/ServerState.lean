/-
Sf37.Server.ServerState — what `run_generation` works on: the session, the three live
records, what the server believes about the images of the session, and the disk store.

A store writes a file or not as the disk answers, and `stored` lists the files written.
A live record keeps a number of tokens; `held` is not in the source and says which
tokens the session had when the record was made.

* `imageCacheHeaderFromText_header`: the header of an image key is read back from the
  key.
* `kvCacheStoreCurrent_frame`, `kvCacheMaybeStoreContinued_frame`: what a store leaves
  alone and what it adds to `stored`.
-/
import Sf37.Server.Session
import Sf37.Server.ParseGenerated

namespace Sf37.Server

open Sf37.Text

/-! ## The image cache header -/

/-- A digit as `printf` writes it. -/
def digit (n : Nat) : UInt8 := (bytes "0123456789abcdef").getD n 0x30

/-- `%0<width>llx`, on the low digits. -/
def hexText : Nat → Nat → Bytes
  | 0, _ => []
  | width + 1, n => hexText width (n / 16) ++ [digit (n % 16)]

/-- `%u`; a 32-bit number has at most ten digits. -/
def decimalText : Nat → Nat → Bytes
  | 0, _ => []
  | width + 1, n => if n < 10 then [digit n] else decimalText width (n / 10) ++ [digit (n % 10)]

/-- The first line of an image key, without its line break. -/
def imageCacheLine (f : ImageFeatures) : Bytes :=
  bytes "sf37-mm-cache-v1 image=" ++ hexText 16 f.cacheHashA.toNat ++
    hexText 16 f.cacheHashB.toNat ++ bytes " images=" ++ decimalText 10 f.images.toNat ++
    bytes " patches=" ++ decimalText 10 f.patchImages.toNat ++ bytes " rows=" ++
    decimalText 10 f.rows.toNat ++ bytes " dim=" ++ decimalText 10 f.dim.toNat

/-- The first line of the text `request_image_cache_text` makes. -/
def imageCacheHeader (f : ImageFeatures) : Bytes := imageCacheLine f ++ bytes "\n"

/-- `request_image_cache_text`. -/
def requestImageCacheText (f : ImageFeatures) (promptText : Bytes) : Bytes :=
  imageCacheHeader f ++ promptText

/-- `image_cache_header_from_text`. -/
def imageCacheHeaderFromText (text : Bytes) : Option Bytes :=
  (strchr text 0x0a).map fun nl => text.take (nl + 1)

theorem digit_ne_newline (n : Nat) : digit n ≠ 0x0a := by
  rw [digit, List.getD_eq_getElem?_getD]
  cases h : (bytes "0123456789abcdef")[n]? with
  | none => decide
  | some c =>
    have hall : ∀ c ∈ bytes "0123456789abcdef", c ≠ 0x0a := by decide +kernel
    exact hall c (List.mem_of_getElem? h)

theorem hexText_noNewline (width n : Nat) : (0x0a : UInt8) ∉ hexText width n := by
  induction width generalizing n with
  | zero => exact List.not_mem_nil
  | succ width ih =>
    intro h
    rcases List.mem_append.mp h with h | h
    · exact ih _ h
    · exact digit_ne_newline _ (List.mem_singleton.mp h).symm

theorem decimalText_noNewline (width n : Nat) : (0x0a : UInt8) ∉ decimalText width n := by
  induction width generalizing n with
  | zero => exact List.not_mem_nil
  | succ width ih =>
    intro h
    rw [decimalText] at h
    split at h
    · exact digit_ne_newline _ (List.mem_singleton.mp h).symm
    · rcases List.mem_append.mp h with h | h
      · exact ih _ h
      · exact digit_ne_newline _ (List.mem_singleton.mp h).symm

theorem imageCacheLine_noNewline (f : ImageFeatures) : (0x0a : UInt8) ∉ imageCacheLine f := by
  have hlit : ∀ s ∈ ["sf37-mm-cache-v1 image=", " images=", " patches=", " rows=", " dim="],
      (0x0a : UInt8) ∉ bytes s := by decide
  simp only [imageCacheLine, List.mem_append, not_or, hexText_noNewline, decimalText_noNewline,
    not_false_eq_true, and_true]
  exact ⟨⟨⟨⟨hlit _ (by simp), hlit _ (by simp)⟩, hlit _ (by simp)⟩, hlit _ (by simp)⟩,
    hlit _ (by simp)⟩

theorem findIdx?_append_hit {line : Bytes} (rest : Bytes) (h : (0x0a : UInt8) ∉ line) :
    (line ++ 0x0a :: rest).findIdx? (· == 0x0a) = some line.length := by
  induction line with
  | nil => rfl
  | cons c line ih =>
    obtain ⟨hc, hline⟩ := not_or.mp (mt List.mem_cons.mpr h)
    rw [List.cons_append, List.findIdx?_cons, if_neg (by simpa using Ne.symm hc), ih hline]
    rfl

/-- The header of an image key is its first line. -/
theorem imageCacheHeaderFromText_header (f : ImageFeatures) (rest : Bytes) :
    imageCacheHeaderFromText (imageCacheHeader f ++ rest) = some (imageCacheHeader f) := by
  have hsplit : imageCacheHeader f ++ rest = imageCacheLine f ++ 0x0a :: rest :=
    List.append_assoc (imageCacheLine f) (bytes "\n") rest
  rw [imageCacheHeaderFromText, strchr, hsplit,
    findIdx?_append_hit rest (imageCacheLine_noNewline f), Option.map_some, ← hsplit]
  exact congrArg some (List.take_left' (by simp [imageCacheHeader, bytes]; rfl))

/-- What begins with a line and its break begins with the same line in any text it is a
prefix of. -/
theorem imageCacheHeaderFromText_of_isPrefix {t u header : Bytes} (h : t <+: u)
    (ht : imageCacheHeaderFromText t = some header) :
    imageCacheHeaderFromText u = some header := by
  obtain ⟨v, rfl⟩ := h
  rw [imageCacheHeaderFromText, strchr] at ht ⊢
  cases hf : t.findIdx? (· == 0x0a) with
  | none => rw [hf] at ht; cases ht
  | some nl =>
    rw [hf, Option.map_some, Option.some.injEq] at ht
    have hlt : nl < t.length := (List.findIdx?_eq_some_iff_getElem.mp hf).1
    rw [List.findIdx?_append, hf, Option.some_or, Option.map_some,
      List.take_append_of_le_length hlt, ht]

/-! ## Live records -/

/-- `live_tool_state` and `visible_live_state`; the second has no call ids. `held` is
not in the source. -/
structure LiveState where
  valid : Bool := false
  liveTokens : Nat := 0
  visibleText : Option Bytes := none
  callIds : List Bytes := []
  held : Tokens := []
  deriving DecidableEq, Repr

/-- `id_list_push_unique`. -/
def idListPushUnique (ids : List Bytes) (id : Bytes) : List Bytes :=
  if id = [] ∨ id ∈ ids then ids else ids ++ [id]

/-- Why a checkpoint is stored. -/
inductive StoreReason where
  | evict
  | shutdown
  | cold
  | continued
  deriving DecidableEq, Repr

/-- The key text of a checkpoint, by how it is made. -/
inductive CacheKey where
  | tokenText (rendered : Bytes)
  | responsesVisible (text : Bytes)
  | thinkingVisible (text : Bytes)
  | image (header rest : Bytes)
  deriving DecidableEq, Repr

/-- The key text. -/
def CacheKey.text : CacheKey → Bytes
  | .tokenText rendered => rendered
  | .responsesVisible text => text
  | .thinkingVisible text => text
  | .image header rest => header ++ rest

/-- The image header a key carries. -/
def CacheKey.header : CacheKey → Option Bytes
  | .image header _ => some header
  | _ => none

/-- A checkpoint file: its key, its tokens and the images its rows were prefilled
with. -/
structure Stored where
  reason : StoreReason
  key : CacheKey
  tokens : Tokens
  rowsHeader : Option Bytes
  deriving DecidableEq, Repr

/-- `server_state`, as far as generation uses it, with the files stored so far. -/
structure ServerState where
  session : Session := {}
  continuedLastStoreTokens : Nat := 0
  responsesLive : LiveState := {}
  anthropicLive : LiveState := {}
  thinkingLive : LiveState := {}
  currentSessionHasImages : Bool := false
  currentImageCacheHeader : Option Bytes := none
  currentImageStoreMinTokens : Nat := 0
  stored : List Stored := []
  deriving DecidableEq, Repr

/-- `thinking_live_clear`. -/
def thinkingLiveClear (st : ServerState) : ServerState := { st with thinkingLive := {} }

/-- `responses_live_clear`. -/
def responsesLiveClear (st : ServerState) : ServerState := { st with responsesLive := {} }

/-- `anthropic_live_clear`. -/
def anthropicLiveClear (st : ServerState) : ServerState := { st with anthropicLive := {} }

/-- `thinking_live_remember`. -/
def thinkingLiveRemember (st : ServerState) (visibleText : Bytes) : ServerState :=
  if visibleText = [] then st
  else
    { st with
      thinkingLive :=
        { valid := true
          liveTokens := st.session.pos
          visibleText := some visibleText
          held := st.session.checkpoint } }

/-- `responses_live_remember`. -/
def responsesLiveRemember (st : ServerState) (visibleText : Bytes) (calls : List ToolCall) :
    ServerState :=
  if visibleText = [] then st
  else
    { st with
      responsesLive :=
        { valid := true
          liveTokens := st.session.pos
          visibleText := some visibleText
          callIds := (calls.map (·.id)).foldl idListPushUnique []
          held := st.session.checkpoint } }

/-- `anthropic_live_remember`. -/
def anthropicLiveRemember (st : ServerState) (calls : List ToolCall) : ServerState :=
  if calls = [] then st
  else
    let callIds := (calls.map (·.id)).foldl idListPushUnique []
    { st with
      anthropicLive :=
        { valid := decide (callIds ≠ [])
          liveTokens := st.session.pos
          callIds := callIds
          held := st.session.checkpoint } }

/-! ## The disk store -/

/-- What the disk does with a store: it fails, it has a file for the key already, or
the file is written. -/
inductive StoreAnswer where
  | failed
  | present
  | written
  deriving DecidableEq, Repr

/-- `kv_cache_continued_step`. -/
def kvCacheContinuedStep (kv : KvOptions) : Nat :=
  if ¬ kv.enabled ∨ kv.continuedIntervalTokens = 0 then 0
  else if 0 < kv.boundaryAlignTokens then
    (kv.continuedIntervalTokens + kv.boundaryAlignTokens - 1) / kv.boundaryAlignTokens *
      kv.boundaryAlignTokens
  else kv.continuedIntervalTokens

/-- `sf37_kvstore_continued_store_target`. -/
def continuedStoreTarget (kv : KvOptions) (last liveTokens : Nat) : Nat :=
  let step := kvCacheContinuedStep kv
  if step = 0 ∨ liveTokens < kv.minTokens ∨ liveTokens % step ≠ 0 ∨ liveTokens ≤ last then 0
  else liveTokens

/-- `sf37_kvstore_note_store`. -/
def noteStore (st : ServerState) (tokens : Nat) : ServerState :=
  if st.continuedLastStoreTokens < tokens then { st with continuedLastStoreTokens := tokens }
  else st

/-- `sf37_kvstore_suppress_continued_store`; `none` for -1. -/
def suppressContinuedStore (cfg : Setup) (st : ServerState) (tokens : Nat) :
    ServerState × Option Nat :=
  if continuedStoreTarget cfg.kv st.continuedLastStoreTokens tokens ≠ tokens then (st, none)
  else (noteStore st tokens, some st.continuedLastStoreTokens)

/-- `sf37_kvstore_restore_suppressed_continued`. -/
def restoreSuppressedContinued (st : ServerState) (old : Option Nat) (suppressed : Nat) :
    ServerState :=
  match old with
  | none => st
  | some old =>
      if st.continuedLastStoreTokens = suppressed then { st with continuedLastStoreTokens := old }
      else st

/-- `sf37_kvstore_store_len`. -/
def kvStoreLen (kv : KvOptions) (tokens : Nat) : Nat :=
  if kv.minTokens + kv.boundaryTrimTokens < tokens then
    let stable := tokens - kv.boundaryTrimTokens
    let stable := if 0 < kv.boundaryAlignTokens then stable - stable % kv.boundaryAlignTokens
      else stable
    if kv.minTokens ≤ stable then stable else tokens
  else tokens

/-- `kv_cache_store_live_prefix_text`: only a session that has just the tokens to store
is stored, and only a valid one can be staged. -/
def kvCacheStoreLivePrefixText (cfg : Setup) (st : ServerState) (tokens : Tokens)
    (storeLen : Nat) (reason : StoreReason) (key : CacheKey) (answer : StoreAnswer) :
    ServerState × Bool :=
  if ¬ cfg.kv.enabled ∨ storeLen < cfg.kv.minTokens then (st, false)
  else if st.session.checkpoint ≠ tokens.take storeLen then (st, false)
  else
    match answer with
    | .present => (st, true)
    | .failed => (st, false)
    | .written =>
        if st.session.checkpointValid then
          ({ st with
              stored := st.stored ++ [
                { reason := reason
                  key := key
                  tokens := tokens.take storeLen
                  rowsHeader := st.session.rowsHeader }] }, true)
        else (st, false)

/-- The image header the server thinks the session has, as both stores below ask for
it. -/
def currentHeader (st : ServerState) : Option Bytes :=
  if st.currentSessionHasImages then st.currentImageCacheHeader else none

/-- The key of `kv_cache_store_current` for a session without images. -/
def kvCacheVisibleKey (cfg : Setup) (st : ServerState) : CacheKey :=
  let shows (live : LiveState) : Bool :=
    live.valid && live.liveTokens == st.session.pos && live.visibleText.getD [] != []
  if shows st.responsesLive then .responsesVisible (st.responsesLive.visibleText.getD [])
  else if shows st.thinkingLive then .thinkingVisible (st.thinkingLive.visibleText.getD [])
  else .tokenText (cfg.renderTokensText st.session.checkpoint)

/-- `kv_cache_store_current`. -/
def kvCacheStoreCurrent (cfg : Setup) (st : ServerState) (reason : StoreReason)
    (answer : StoreAnswer) : ServerState :=
  if ¬ cfg.kv.enabled ∨ st.session.checkpoint = [] then st
  else
    let key :=
      match currentHeader st with
      | some header => .image header (cfg.renderTokensText st.session.checkpoint)
      | none => kvCacheVisibleKey cfg st
    (kvCacheStoreLivePrefixText cfg st st.session.checkpoint st.session.pos reason key answer).1

/-- A continued store of the session under a key, noted when it went through. -/
def kvCacheStoreContinued (cfg : Setup) (st : ServerState) (key : CacheKey)
    (answer : StoreAnswer) : ServerState :=
  let target := continuedStoreTarget cfg.kv st.continuedLastStoreTokens st.session.pos
  if target = 0 then st
  else
    match kvCacheStoreLivePrefixText cfg st st.session.checkpoint target .continued key answer with
    | (st, true) => noteStore st target
    | (st, false) => st

/-- `kv_cache_maybe_store_continued`. -/
def kvCacheMaybeStoreContinued (cfg : Setup) (st : ServerState) (answer : StoreAnswer) :
    ServerState :=
  if ¬ cfg.kv.enabled then st
  else
    match currentHeader st with
    | some header =>
        if st.session.pos < st.currentImageStoreMinTokens then st
        else
          kvCacheStoreContinued cfg st
            (.image header (cfg.renderTokensText st.session.checkpoint)) answer
    | none =>
        kvCacheStoreContinued cfg st
          (.tokenText (cfg.renderTokensText st.session.checkpoint)) answer

/-! ## What a store does -/

/-- A store touches nothing but the count of the continued stores and the files, and
adds at most one file: of the valid session there is, for the reason given. -/
structure StoreFrame (reason : StoreReason) (header : Option Bytes) (st st' : ServerState) :
    Prop where
  same : ∃ last stored, st' = { st with continuedLastStoreTokens := last, stored := stored }
  stored : ∀ f ∈ st'.stored, f ∈ st.stored ∨
    (f.reason = reason ∧ f.key.header = header ∧ f.tokens = st.session.checkpoint ∧
      f.rowsHeader = st.session.rowsHeader ∧ st.session.checkpointValid = true ∧
      (reason ≠ .cold → st.session.checkpoint ≠ []))

theorem StoreFrame.refl (reason : StoreReason) (header : Option Bytes) (st : ServerState) :
    StoreFrame reason header st st :=
  ⟨⟨st.continuedLastStoreTokens, st.stored, rfl⟩, fun _ hf => Or.inl hf⟩

/-- Noting a store keeps the frame. -/
theorem StoreFrame.note {reason : StoreReason} {header : Option Bytes} {st st' : ServerState}
    (h : StoreFrame reason header st st') (tokens : Nat) :
    StoreFrame reason header st (noteStore st' tokens) := by
  rw [noteStore]
  split
  · obtain ⟨last, stored, rfl⟩ := h.same
    exact ⟨⟨tokens, stored, rfl⟩, h.stored⟩
  · exact h

theorem kvCacheStoreLivePrefixText_frame (cfg : Setup) (st : ServerState) (tokens : Tokens)
    (storeLen : Nat) (reason : StoreReason) (key : CacheKey) (answer : StoreAnswer)
    (hne : reason ≠ .cold → st.session.checkpoint ≠ []) :
    StoreFrame reason key.header st
      (kvCacheStoreLivePrefixText cfg st tokens storeLen reason key answer).1 := by
  have hrefl := StoreFrame.refl reason key.header st
  unfold kvCacheStoreLivePrefixText
  split
  · exact hrefl
  split
  · exact hrefl
  rename_i htokens
  cases answer with
  | failed => exact hrefl
  | present => exact hrefl
  | written =>
    dsimp only
    split
    · rename_i hvalid
      refine ⟨⟨_, _, rfl⟩, fun f hf => ?_⟩
      rcases List.mem_append.mp hf with hf | hf
      · exact Or.inl hf
      · rw [List.mem_singleton.mp hf]
        exact Or.inr ⟨rfl, rfl, (not_not.mp htokens).symm, rfl, hvalid, hne⟩
    · exact hrefl

/-- An empty session is never due for a continued store. -/
theorem continuedStoreTarget_zero (kv : KvOptions) (last : Nat) :
    continuedStoreTarget kv last 0 = 0 := by
  rw [continuedStoreTarget]
  split <;> rfl

theorem kvCacheStoreContinued_frame (cfg : Setup) (st : ServerState) (key : CacheKey)
    (answer : StoreAnswer) :
    StoreFrame .continued key.header st (kvCacheStoreContinued cfg st key answer) := by
  rw [kvCacheStoreContinued]
  split
  · exact StoreFrame.refl _ _ _
  rename_i htarget
  have hne : st.session.checkpoint ≠ [] := by
    intro h0
    rw [Session.pos, h0] at htarget
    exact htarget (continuedStoreTarget_zero _ _)
  have hframe := kvCacheStoreLivePrefixText_frame cfg st st.session.checkpoint
    (continuedStoreTarget cfg.kv st.continuedLastStoreTokens st.session.pos) .continued key answer
    fun _ => hne
  split
  · rename_i heq
    rw [heq] at hframe
    exact hframe.note _
  · rename_i heq
    rwa [heq] at hframe

/-- A continued store carries the header the server thinks the session has. -/
theorem kvCacheMaybeStoreContinued_frame (cfg : Setup) (st : ServerState)
    (answer : StoreAnswer) :
    StoreFrame .continued (currentHeader st) st (kvCacheMaybeStoreContinued cfg st answer) := by
  rw [kvCacheMaybeStoreContinued]
  split
  · exact StoreFrame.refl _ _ _
  cases currentHeader st with
  | none => exact kvCacheStoreContinued_frame cfg st (.tokenText _) answer
  | some header =>
    dsimp only
    split
    · exact StoreFrame.refl _ _ _
    · exact kvCacheStoreContinued_frame cfg st (.image header _) answer

theorem kvCacheVisibleKey_header (cfg : Setup) (st : ServerState) :
    (kvCacheVisibleKey cfg st).header = none := by
  rw [kvCacheVisibleKey]
  dsimp only
  split
  · rfl
  · split <;> rfl

/-- So does a store of the session there is. -/
theorem kvCacheStoreCurrent_frame (cfg : Setup) (st : ServerState) (reason : StoreReason)
    (answer : StoreAnswer) :
    StoreFrame reason (currentHeader st) st (kvCacheStoreCurrent cfg st reason answer) := by
  rw [kvCacheStoreCurrent]
  split
  · exact StoreFrame.refl _ _ _
  rename_i hskip
  have hne : reason ≠ .cold → st.session.checkpoint ≠ [] := fun _ => (not_or.mp hskip).2
  cases hh : currentHeader st with
  | none =>
    have hframe := kvCacheStoreLivePrefixText_frame cfg st st.session.checkpoint st.session.pos
      reason (kvCacheVisibleKey cfg st) answer hne
    rwa [kvCacheVisibleKey_header] at hframe
  | some header =>
    exact kvCacheStoreLivePrefixText_frame cfg st st.session.checkpoint st.session.pos reason
      (.image header _) answer hne

end Sf37.Server

/-
Sf37.KvStore.LoadedText — what a session holds after it loaded a checkpoint that some
session was stored in, under the text of its tokens.

* `WrittenFile`: a file with the text and the payload of one session; a new trailer and a
  new header leave it one.
* `DirEvent.allWritten`: stores, loads and evictions leave nothing else behind.
* `loadedText_sound`: what is loaded renders to a beginning of the prompt.
-/
import Sf37.KvStore.TryLoad
import Sf37.KvStore.EngineSession
import Sf37.Engine.SavedFiles
import Sf37.Run.Guarded

namespace Sf37.KvStore

open Sf37.Text Sf37.Store Sf37.Run
open Sf37.Server (Token Tokens)
open Sf37.Engine (Device KvCodec GpuWrites Session cpuDevice sessionSavePayload sessionLoadPayload
  payload_tokens payload_roundTrip SameLayout)

/-! ## Files of sessions -/

/-- The tokens of a session are counted and numbered in a C `int`. -/
structure IntTokens (s : Session) : Prop where
  length_lt : s.checkpoint.length < 2 ^ 31
  tokens_lt : ∀ t ∈ s.checkpoint, t < 2 ^ 31

/-- A file has the payload of a session behind the text of its tokens. -/
def WrittenFile (tokenText : Token → Bytes) (fp : Bytes) : Prop :=
  ∃ dev codec s payload hdr trailer, IntTokens s ∧ sessionSavePayload dev codec s = some payload ∧
    (renderTokensText tokenText s.checkpoint).length ≤ uint32Max ∧ payload.length ≤ uint64Max ∧
    hdr.Describes (renderTokensText tokenText s.checkpoint) payload ∧
    fp = newFile hdr (renderTokensText tokenText s.checkpoint) payload trailer

/-- Every checkpoint of a directory is the file of a session. -/
def AllWritten (tokenText : Token → Bytes) (d : Directory) : Prop :=
  ∀ f ∈ d.files, f.name.length = 43 → WrittenFile tokenText f.bytes

variable {tokenText : Token → Bytes} {fp : Bytes} {d : Directory}

theorem WrittenFile.touchFile (h : WrittenFile tokenText fp) (stamp hits : Nat) :
    WrittenFile tokenText (touchFile stamp hits fp) := by
  obtain ⟨dev, codec, s, payload, hdr, trailer, hint, hsave, htext, hpayload, hd, rfl⟩ := h
  cases hread : readHeader (newFile hdr (renderTokensText tokenText s.checkpoint) payload trailer) with
  | none =>
    rw [KvStore.touchFile, hread]
    exact ⟨dev, codec, s, payload, hdr, trailer, hint, hsave, htext, hpayload, hd, rfl⟩
  | some h =>
    have hd' := hd.of_readHeader htext hpayload hread
    have htouched : ({ h with hits := hits % 2 ^ 32, lastUsed := stamp } : Header).textBytes =
        hdr.textBytes := hd'.textBytes.trans hd.textBytes.symm
    have hback := fillHeader_drop_newFile htouched (renderTokensText tokenText s.checkpoint) payload
      trailer
    rw [KvStore.touchFile, hread]
    exact ⟨dev, codec, s, payload, { h with hits := hits % 2 ^ 32, lastUsed := stamp }, trailer, hint,
      hsave, htext, hpayload, ⟨hd'.textBytes, hd'.payloadBytes⟩, hback⟩

theorem WrittenFile.rewriteTrailer (h : WrittenFile tokenText fp) (hooks : Option TrailerHooks)
    (openOk : Bool) (stamp : Nat) (text : Bytes) :
    WrittenFile tokenText (kvCacheRewriteTrailer hooks openOk stamp text fp) := by
  rcases kvCacheRewriteTrailer_cases hooks openOk stamp text fp with hsame | ⟨-, -, h', hread, hnew⟩
  · rw [hsame]
    exact h
  · obtain ⟨dev, codec, s, payload, hdr, trailer, hint, hsave, htext, hpayload, hd, rfl⟩ := h
    have hd' := hd.of_readHeader htext hpayload hread
    have hend : h'.bodyEnd = hdr.bodyEnd := by
      rw [Header.bodyEnd, Header.bodyEnd, hd'.textBytes, hd'.payloadBytes, hd.textBytes,
        hd.payloadBytes]
    rw [Rewritten, hend, ftruncate_newFile hd] at hnew
    rcases hnew with hnew | ⟨h'', htext', hpayload', hnew⟩
    · exact ⟨dev, codec, s, payload, hdr, _, hint, hsave, htext, hpayload, hd, hnew⟩
    · have hback := fillHeader_drop_newFile (htext'.trans (hd'.textBytes.trans hd.textBytes.symm))
        (renderTokensText tokenText s.checkpoint) payload (kvTrailerWrite hooks text).bytes
      exact ⟨dev, codec, s, payload, h'', _, hint, hsave, htext, hpayload,
        ⟨htext'.trans hd'.textBytes, hpayload'.trans hd'.payloadBytes⟩, hnew.trans hback⟩

/-! ## Calls -/

/-- The calls on a directory, each with the session and the engine it is made for. -/
inductive DirEvent where
  | store (dev : Device) (codec : KvCodec) (kc : KvCache) (call : StoreCall) (env : StoreEnv)
      (session : Session)
  | tryLoad (dev : Device) (codec : KvCodec) (gpu : GpuWrites) (loadFlag : Option UInt8)
      (kc : KvCache) (env : LoadEnv) (session : Session) (promptText : Bytes)
  | evict (kc : KvCache) (unlinkOk : Bytes → Bool) (now extraBytes : Nat)
      (incoming : Option EvictionContext)

/-- A call. -/
def DirEvent.step (sc : Scoring) (tokenText : Token → Bytes) (tokenize : Bytes → Tokens)
    (d : Directory) : DirEvent → Directory
  | .store dev codec kc call env session =>
      (storeLivePrefixText (engineOps dev codec .ok) sc tokenText kc call env session d).dir
  | .tryLoad dev codec gpu loadFlag kc env session promptText =>
      (tryLoadText (engineOps dev codec gpu) tokenize loadFlag kc env session promptText d).dir
  | .evict kc unlinkOk now extraBytes incoming =>
      (KvStore.evict kc sc unlinkOk now extraBytes incoming d).dir

/-- A store is made without a key override. -/
def DirEvent.KeyedByTokens (_ : Directory) : DirEvent → Prop
  | .store _ _ _ call _ session => call.cacheTextOverride.getD [] = [] ∧ IntTokens session
  | .tryLoad .. => True
  | .evict .. => True

theorem payload_le_of_fits {kc : KvCache} {textBytes payloadBytes trailerBytes est : Nat}
    (h : fileSizeFits kc textBytes payloadBytes trailerBytes = some est) :
    payloadBytes ≤ uint64Max := by
  obtain ⟨size, hsize, -⟩ := Option.bind_eq_some_iff.mp h
  rw [kvCacheFileSizeBytes] at hsize
  split at hsize
  · nomatch hsize
  · omega

/-- A file that is there after a fresh store was there, or is the new one. -/
theorem mem_storeFresh {σ : Type} {ops : SessionOps σ} {sc : Scoring} {kc : KvCache}
    {call : StoreCall} {env : StoreEnv} {session : σ} {text : Bytes} {trailerEst : Nat} {f : File}
    (hf : f ∈ (storeFresh ops sc kc call env session (sha1BytesHex text) text trailerEst d).dir.files)
    (hlen : f.name.length = 43) :
    f ∈ d.files ∨ ∃ payload, ops.stagePayload session = some payload ∧ payload.length ≤ uint64Max ∧
      f.bytes = publishedFile call
        (newHeader call env (ops.ctx session) call.storeTokens.length text payload trailerEst) text
        payload := by
  have hname : f.name ≠ tmpName (sha1BytesHex text) env.pid :=
    fun heq => length_tmpName text env.pid (heq ▸ hlen)
  rcases storeFresh_cases ops sc kc call env session (sha1BytesHex text) text trailerEst d with
    hstop | ⟨payload, est, incoming, -, hstage, hest, hr⟩
  · rw [hstop] at hf
    exact Or.inl hf
  · rw [hr] at hf
    have hframe := evict_frame kc sc env.unlinkOk env.now est (some incoming) d
    cases hok : (publish kc call env (newHeader call env (ops.ctx session) call.storeTokens.length text
      payload trailerEst) (sha1BytesHex text) text payload
      (KvStore.evict kc sc env.unlinkOk env.now est (some incoming) d).dir).2 with
    | false => exact Or.inl (hframe.sub f ((publish_failed hok hname).mp hf))
    | true =>
      rcases (mem_publish hok hname).mp hf with rfl | ⟨hmem, -⟩
      · exact Or.inr ⟨payload, hstage, payload_le_of_fits hest, rfl⟩
      · exact Or.inl (hframe.sub f hmem)

/-- Stores, loads and evictions leave nothing but files of sessions. -/
theorem DirEvent.allWritten (sc : Scoring) (tokenize : Bytes → Tokens) (h : AllWritten tokenText d)
    {e : DirEvent} (hkey : e.KeyedByTokens d) : AllWritten tokenText (e.step sc tokenText tokenize d) := by
  intro f hf hlen
  cases e with
  | store dev codec kc call env session =>
    obtain ⟨hoverride, hint⟩ := hkey
    have htext : call.text tokenText = renderTokensText tokenText call.storeTokens := by
      rw [StoreCall.text, hoverride]
      rfl
    have hf : f ∈ (storeLivePrefixText (engineOps dev codec .ok) sc tokenText kc call env session
      d).dir.files := hf
    rcases storeLivePrefixText_cases (engineOps dev codec .ok) sc tokenText kc call env session d with
      ⟨-, hr⟩ | ⟨-, -, fp, hread, hr⟩ | ⟨hreach, -, hr⟩
    · rw [hr] at hf
      exact h f hf hlen
    · rw [hr] at hf
      rcases Directory.mem_write.mp hf with rfl | ⟨hmem, -⟩
      · exact (h _ (Directory.read_eq_some_iff.mp hread) hlen).rewriteTrailer _ _ _ _
      · exact h f hmem hlen
    · rw [hr] at hf
      rcases mem_storeFresh hf hlen with hmem | ⟨payload, hstage, hpayload, hbytes⟩
      · exact h f (afterExisting_sub f hmem) hlen
      · obtain ⟨-, -, -, hlive, hfits, -⟩ := hreach
        have hrendered : call.text tokenText = renderTokensText tokenText session.checkpoint := by
          rw [htext, hlive]
          rfl
        rw [hrendered] at hbytes hfits
        exact ⟨dev, codec, session, payload, _, _, hint, hstage, hfits, hpayload, ⟨rfl, rfl⟩, hbytes⟩
  | tryLoad dev codec gpu loadFlag kc env session promptText =>
    have hf : f ∈ (tryLoadText (engineOps dev codec gpu) tokenize loadFlag kc env session promptText
      d).dir.files := hf
    rcases (tryLoadText_dir (engineOps dev codec gpu) tokenize loadFlag kc env session promptText d).1 with
      hdir | ⟨e, fp, hread, hlisted, hdir | ⟨hits, hdir⟩⟩
    · rw [hdir] at hf
      exact h f hf hlen
    · rw [hdir] at hf
      exact h f (Directory.mem_unlink.mp hf).1 hlen
    · rw [hdir] at hf
      rcases Directory.mem_write.mp hf with rfl | ⟨hmem, -⟩
      · exact (h _ (Directory.read_eq_some_iff.mp hread) hlen).touchFile _ _
      · exact h f hmem hlen
  | evict kc unlinkOk now extraBytes incoming =>
    exact h f ((evict_frame kc sc unlinkOk now extraBytes incoming d).sub f hf) hlen

/-! ## A load -/

/-- What is loaded of a file of a session are its tokens. -/
theorem loaded_tokens {dev : Device} {codec : KvCodec} {gpu : GpuWrites} {session : Session} {e : Entry}
    {promptText : Bytes} (hwritten : WrittenFile tokenText fp)
    (hread : readHeader fp = some e.toHeader) (hintact : TextIntact promptText e fp)
    (haccepted : payloadAccepted (engineOps dev codec gpu) e.toHeader
      (loadedPayload (engineOps dev codec gpu) session e fp)) :
    renderTokensText tokenText
      (loadedPayload (engineOps dev codec gpu) session e fp).1.checkpoint =
        promptText.take e.textBytes := by
  obtain ⟨dev', codec', s, payload, hdr, trailer, hint, hsave, htext, hpayload, hd, rfl⟩ := hwritten
  have hd' := hd.of_readHeader htext hpayload hread
  have hloads := haccepted.1
  rw [loadedPayload, hd'.textBytes, drop_newFile, engineOps_loadPayload] at hloads ⊢
  have hok : (sessionLoadPayload dev codec gpu session (payload ++ trailer) e.payloadBytes).2 = none :=
    Option.isNone_iff_eq_none.mp hloads
  have h31 : (2 : Nat) ^ 31 ≤ 2 ^ 32 := by decide
  dsimp only
  rw [payload_tokens (Nat.lt_of_lt_of_le hint.length_lt h31)
    (fun t ht => Nat.lt_of_lt_of_le (hint.tokens_lt t ht) h31) hsave hok]
  rw [TextIntact, hd'.textBytes, storedText_newFile] at hintact
  exact hintact

/-- A load from a directory that stores without a key override filled: the session holds as
many tokens as it says, they render to a beginning of the prompt, the effective prompt goes
on from them, and renders to the prompt. -/
theorem loadedText_sound (sc : Scoring) (tokenText : Token → Bytes) (tokenize : Bytes → Tokens)
    (hinverse : ∀ text, renderTokensText tokenText (tokenize text) = text)
    (h : Comes (DirEvent.step sc tokenText tokenize) (fun d => d.files = []) DirEvent.KeyedByTokens d)
    (dev : Device) (codec : KvCodec) (gpu : GpuWrites) (loadFlag : Option UInt8) (kc : KvCache)
    (env : LoadEnv) (session : Session) (promptText : Bytes)
    (hloaded : 0 < (tryLoadText (engineOps dev codec gpu) tokenize loadFlag kc env session promptText
      d).loaded) :
    let out := tryLoadText (engineOps dev codec gpu) tokenize loadFlag kc env session promptText d
    out.session.checkpoint.length = out.loaded ∧
      renderTokensText tokenText out.session.checkpoint <+: promptText ∧
      out.session.checkpoint <+: out.effectivePrompt ∧
      renderTokensText tokenText out.effectivePrompt = promptText := by
  have hall : AllWritten tokenText d := by
    refine h.invariant (fun d hd f hf _ => ?_) fun d e hd he => DirEvent.allWritten sc tokenize hd he
    rw [hd] at hf
    nomatch hf
  rcases tryLoadText_loads hloaded with
    ⟨e, fp, henabled, hopen, hfound, hread, hlisted, hintact, haccepted⟩
  obtain ⟨-, hsession, hcount, heffective, -⟩ :=
    tryLoadText_of_accepted henabled hopen hfound hread hlisted hintact haccepted
  intro out
  have hsession' : out.session = _ := hsession
  have hlen : e.path.length = 43 := by
    by_contra hne
    have hnone := listedEntry_of_length (f := ⟨e.path, fp⟩) hne
    rw [hlisted] at hnone
    nomatch hnone
  have hrender : renderTokensText tokenText out.session.checkpoint = promptText.take e.textBytes := by
    rw [hsession']
    exact loaded_tokens (hall _ (Directory.read_eq_some_iff.mp hread) hlen)
      (readEntryFile_spec (listedEntry_spec hlisted).2).2.2.2.1 hintact haccepted
  have heffective' : out.effectivePrompt =
      out.session.checkpoint ++ tokenize (promptText.drop e.textBytes) := heffective
  refine ⟨hcount.symm, ?_, ?_, ?_⟩
  · rw [hrender]
    exact List.take_prefix _ _
  · rw [heffective']
    exact List.prefix_append _ _
  · have hsplit : renderTokensText tokenText out.effectivePrompt =
        renderTokensText tokenText out.session.checkpoint ++
          renderTokensText tokenText (tokenize (promptText.drop e.textBytes)) := by
      rw [heffective']
      exact List.flatMap_append
    rw [hsplit, hrender, hinverse, List.take_append_drop]

/-! ## A checkpoint of one token -/

/-- A token is a byte. -/
def byteText (t : Token) : Bytes := [UInt8.ofNat t]

/-- And a byte is a token. -/
def byteTokens (text : Bytes) : Tokens := text.map UInt8.toNat

theorem byteText_inverse (text : Bytes) : renderTokensText byteText (byteTokens text) = text := by
  induction text with
  | nil => rfl
  | cons b text ih =>
    have hcons : renderTokensText byteText (byteTokens (b :: text)) =
        UInt8.ofNat b.toNat :: renderTokensText byteText (byteTokens text) := rfl
    rw [hcons, ih, UInt8.ofNat_toNat]

/-- An empty directory. -/
def emptyDirectory : Directory := ⟨[], List.nodup_nil⟩

/-- What a store of one token leaves of it. -/
def oneTokenDirectory : Directory :=
  DirEvent.step .byLastUse byteText byteTokens emptyDirectory
    (.store cpuDevice .ofZeros .small (.ofTokens [7] none) .quiet oneToken)

/-- The header of its file. -/
def storedHeader (payload : Bytes) : Header :=
  newHeader (.ofTokens [7] none) .quiet 16 1 [7] payload 0

/-- Its file. -/
def storedFile (payload : Bytes) : File :=
  ⟨kvName (sha1BytesHex [7]), newFile (storedHeader payload) [7] payload []⟩

theorem fits_oneToken {payload : Bytes} (h : payload.length = 630132) :
    fileSizeFits .small 1 payload.length 0 = some 630185 := by
  rw [h]
  decide

theorem publish_oneToken {payload : Bytes} (h : payload.length = 630132) :
    (publish .small (.ofTokens [7] none) .quiet (storedHeader payload) (sha1BytesHex [7]) [7] payload
      emptyDirectory).2 = true :=
  publish_ok_iff.mpr ⟨rfl, rfl, rfl, Option.isSome_iff_exists.mpr ⟨_, fits_oneToken h⟩, rfl⟩

theorem afterExisting_empty (ctx : Nat) (text : Bytes) :
    afterExisting .small (fun _ => true) ctx (sha1BytesHex text) text emptyDirectory =
      emptyDirectory := by
  refine afterExisting_eq ?_
  rintro ⟨⟨fp, e, hread, -⟩, -⟩
  nomatch hread

/-- A session of one token whose payload has that size is stored. -/
theorem store_oneToken {σ : Type} {ops : SessionOps σ} {session : σ} {payload : Bytes}
    (htokens : ops.tokens session = [7]) (hctx : ops.ctx session = 16)
    (hstage : ops.stagePayload session = some payload) (hlen : payload.length = 630132) :
    (storeLivePrefixText ops .byLastUse byteText .small (.ofTokens [7] none) .quiet session
      emptyDirectory).dir =
      (publish .small (.ofTokens [7] none) .quiet (storedHeader payload) (sha1BytesHex [7]) [7] payload
        emptyDirectory).1 := by
  have hreach : (StoreCall.ofTokens [7] none).Reaches byteText .small [7] := by decide
  rcases storeLivePrefixText_cases ops .byLastUse byteText .small (.ofTokens [7] none) .quiet session
    emptyDirectory with ⟨hnot, -⟩ | ⟨-, ⟨fp, e, hread, -⟩, -⟩ | ⟨-, -, hr⟩
  · rw [htokens] at hnot
    exact absurd hreach hnot
  · nomatch hread
  · have hr' : storeLivePrefixText ops .byLastUse byteText .small (.ofTokens [7] none) .quiet session
        emptyDirectory = storeFresh ops .byLastUse .small (.ofTokens [7] none) .quiet session
          (sha1BytesHex [7]) [7] 0 (afterExisting .small (fun _ => true) (ops.ctx session)
            (sha1BytesHex [7]) [7] emptyDirectory) := hr
    obtain ⟨incoming, hfresh⟩ := storeFresh_eq ops .byLastUse .small (.ofTokens [7] none) .quiet session
      (sha1BytesHex [7]) [7] 0 emptyDirectory rfl hstage (fits_oneToken hlen)
    have hevict : KvStore.evict .small .byLastUse StoreEnv.quiet.unlinkOk StoreEnv.quiet.now
        630185 (some incoming) emptyDirectory = ⟨emptyDirectory, []⟩ :=
      evict_eq_self _ _ _ _ (by decide) (by decide)
    rw [hr', afterExisting_empty, hfresh, hevict, hctx]
    rfl

/-- The only checkpoint that is then there. -/
theorem mem_store_oneToken {σ : Type} (ops : SessionOps σ) (session : σ) {payload : Bytes}
    (htokens : ops.tokens session = [7]) (hctx : ops.ctx session = 16)
    (hstage : ops.stagePayload session = some payload) (hlen : payload.length = 630132) {f : File}
    (hname : f.name.length = 43) :
    f ∈ (storeLivePrefixText ops .byLastUse byteText .small (.ofTokens [7] none) .quiet session
      emptyDirectory).dir.files ↔ f = storedFile payload := by
  have htmp : f.name ≠ tmpName (sha1BytesHex [7]) StoreEnv.quiet.pid :=
    fun heq => length_tmpName [7] StoreEnv.quiet.pid (heq ▸ hname)
  rw [store_oneToken htokens hctx hstage hlen, mem_publish (publish_oneToken hlen) htmp]
  exact or_iff_left fun hmem => nomatch hmem.1

theorem mem_oneTokenDirectory {f : File} (hname : f.name.length = 43) :
    f ∈ oneTokenDirectory.files ↔ f = storedFile (oneTokenPayload cpuDevice) := by
  have hstored := mem_store_oneToken (engineOps cpuDevice .ofZeros .ok) oneToken rfl rfl
    (save_oneToken cpuDevice) length_cpuPayload hname
  rw [oneTokenDirectory, DirEvent.step]
  exact hstored

/-- Its entry. -/
def storedEntry (payload : Bytes) : Entry :=
  { storedHeader payload with
    sha := sha1BytesHex [7]
    path := kvName (sha1BytesHex [7])
    fileSize := (storedFile payload).bytes.length }

theorem listed_storedFile {payload : Bytes} (h : payload.length = 630132) :
    listedEntry (storedFile payload) = some (storedEntry payload) := by
  have hle : payload.length ≤ uint64Max := by
    rw [h]
    decide
  have hend : (storedHeader payload).bodyEnd ≤ uint64Max := by
    show fixedHeader + 4 + 1 + payload.length ≤ uint64Max
    rw [h]
    decide
  have hw : (storedHeader payload).Writable :=
    ⟨rfl, (by decide : (0 : UInt8) ≤ reasonAgentSession), Nat.one_ne_zero,
      (by decide : 1 ≤ uint32Max), Nat.zero_le _, (by decide : 16 ≤ uint32Max), Nat.zero_le _,
      Nat.zero_le _, hle, (by decide : 1 ≤ uint32Max)⟩
  exact listedEntry_newFile hw ⟨rfl, rfl⟩ hend [7] []

theorem found_oneTokenDirectory :
    findTextPrefix .small [7, 8] 16 oneTokenDirectory =
      some (storedEntry (oneTokenPayload cpuDevice)) := by
  obtain ⟨payload, hp⟩ : ∃ payload, payload = oneTokenPayload cpuDevice := ⟨_, rfl⟩
  have hlen : payload.length = 630132 := hp ▸ length_cpuPayload
  have hmem : ∀ f : File, f.name.length = 43 → (f ∈ oneTokenDirectory.files ↔ f = storedFile payload) :=
    fun f hf => hp ▸ mem_oneTokenDirectory hf
  rw [← hp]
  have hin : storedEntry payload ∈ kvCacheRefresh oneTokenDirectory :=
    List.mem_filterMap.mpr ⟨storedFile payload, (hmem _ (length_kvName_sha1 [7])).mpr rfl,
      listed_storedFile hlen⟩
  have ha : Admissible .small [7, 8] 16 (storedEntry payload) :=
    ⟨(by decide : 1 ≤ 2), (by decide : (1 : Int) ≤ toInt32 1), rfl, Nat.le_refl 16,
      (fun h => by cases h), congrArg sha1BytesHex rfl⟩
  obtain ⟨e, he⟩ := Option.isSome_iff_exists.mp (findTextPrefix_isSome hin ha)
  obtain ⟨f, hf, hfe⟩ := List.mem_filterMap.mp (findTextPrefix_spec he).1
  have hname : f.name.length = 43 := by
    by_contra hne
    rw [listedEntry_of_length hne] at hfe
    cases hfe
  rw [(hmem f hname).mp hf, listed_storedFile hlen] at hfe
  rw [he, ← hfe]

/-- The checkpoint is loaded for a prompt that goes on from its text. -/
theorem loaded_oneTokenDirectory :
    0 < (tryLoadText (engineOps cpuDevice .ofZeros .ok) byteTokens none .small .quiet (.ofTokens [])
      [7, 8] oneTokenDirectory).loaded := by
  obtain ⟨payload, hp⟩ : ∃ payload, payload = oneTokenPayload cpuDevice := ⟨_, rfl⟩
  have hlen : payload.length = 630132 := hp ▸ length_cpuPayload
  have hfound := found_oneTokenDirectory
  rw [← hp] at hfound
  have hread : oneTokenDirectory.read (storedEntry payload).path = some (storedFile payload).bytes :=
    Directory.read_eq_some_iff.mpr
      ((mem_oneTokenDirectory (length_kvName_sha1 [7])).mpr (congrArg storedFile hp))
  have haccepted : payloadAccepted (engineOps cpuDevice .ofZeros .ok) (storedEntry payload).toHeader
      (loadedPayload (engineOps cpuDevice .ofZeros .ok) (.ofTokens []) (storedEntry payload)
        (storedFile payload).bytes) := by
    obtain ⟨b, t', hsave, -, hload, hrestored⟩ := payload_roundTrip (SameLayout.refl cpuDevice)
      (savable_oneToken cpuDevice) rfl .ofZeros (.ofTokens []) []
    obtain rfl : b = payload := (Option.some.inj (hsave.symm.trans (save_oneToken cpuDevice))).trans hp.symm
    have hrest : (storedFile b).bytes.drop (fixedHeader + 4 + (storedEntry b).textBytes) = b ++ [] :=
      drop_newFile _ [7] _ _
    have hsize : (storedEntry b).payloadBytes = b.length := rfl
    have hlength : t'.checkpoint.length = 1 := by
      rw [hrestored.checkpoint]
      rfl
    rw [loadedPayload, hrest, hsize, engineOps_loadPayload, hload]
    exact ⟨rfl, congrArg Nat.cast hlength⟩
  have hintact : TextIntact [7, 8] (storedEntry payload) (storedFile payload).bytes :=
    storedText_newFile (storedHeader payload) [7] payload []
  have hctx : findTextPrefix .small [7, 8]
      ((engineOps cpuDevice .ofZeros .ok).ctx (.ofTokens [])) oneTokenDirectory =
        some (storedEntry payload) := hfound
  exact tryLoadText_accepted_pos byteTokens none rfl (rfl : LoadEnv.quiet.openOk = true) hctx hread
    (listed_storedFile hlen) hintact haccepted

/-- The tokens of that checkpoint render to the beginning of the prompt, and the effective
prompt to all of it. -/
theorem loadedText_sound_oneToken :
    let out := tryLoadText (engineOps cpuDevice .ofZeros .ok) byteTokens none .small LoadEnv.quiet
      (.ofTokens []) [7, 8] oneTokenDirectory
    out.session.checkpoint.length = out.loaded ∧
      renderTokensText byteText out.session.checkpoint <+: [7, 8] ∧
      out.session.checkpoint <+: out.effectivePrompt ∧
      renderTokensText byteText out.effectivePrompt = [7, 8] :=
  have hstart : Comes (DirEvent.step .byLastUse byteText byteTokens) (fun d => d.files = [])
      DirEvent.KeyedByTokens emptyDirectory := .start rfl
  have hint : IntTokens oneToken := ⟨by decide, by decide⟩
  have hreached : Comes (DirEvent.step .byLastUse byteText byteTokens) (fun d => d.files = [])
      DirEvent.KeyedByTokens oneTokenDirectory :=
    hstart.step (.store cpuDevice .ofZeros .small (.ofTokens [7] none) .quiet oneToken) ⟨rfl, hint⟩
  loadedText_sound .byLastUse byteText byteTokens byteText_inverse hreached cpuDevice .ofZeros .ok none
    .small .quiet (.ofTokens []) [7, 8] loaded_oneTokenDirectory

end Sf37.KvStore

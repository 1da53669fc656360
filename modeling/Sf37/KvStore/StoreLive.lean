/-
Sf37.KvStore.StoreLive — storing the live session as a checkpoint file.

A call is given what the outside world answers: the time, whether the payload could be
staged, whether a file could be created, written, renamed or unlinked. The hooks of a
trailer are what they return for the text of the call.

* `StoreCall.Reaches`: the call passes the checks before it looks at the disk.
* `storeLivePrefixText`: a store; what it can do is in `StoreSteps`.
-/
import Sf37.KvStore.Evict
import Sf37.Server.Session

namespace Sf37.KvStore

open Sf37.Text Sf37.Store
open Sf37.Server (Token Tokens lePut32)

/-! ## What is called -/

/-- The functions of a session that the store calls. `stagePayload` is `none` where the
session has nothing to save; `loadPayload` reads the rest of a file, with the length
the header claims. None of them changes the context size. -/
structure SessionOps (σ : Type) where
  tokens : σ → Tokens
  ctx : σ → Nat
  stagePayload : σ → Option Bytes
  loadPayload : σ → Bytes → Nat → σ × Bool
  rewindToStart : σ → σ
  ctx_loadPayload : ∀ s data n, ctx (loadPayload s data n).1 = ctx s
  ctx_rewindToStart : ∀ s, ctx (rewindToStart s) = ctx s

/-- What a trailer's `write` did: the bytes that went to the file, what it returned and
the count it reported. -/
structure TrailerWrite where
  bytes : Bytes
  ok : Bool
  written : Nat
  deriving DecidableEq, Repr

/-- `sf37_kvstore_trailer_hooks`; a size is `none` where the call returns false. -/
structure TrailerHooks where
  extFlag : UInt8
  serializedSize : Option (Bytes → Option Nat)
  write : Option (Bytes → TrailerWrite)

/-- The arguments of a store. -/
structure StoreCall where
  tokens : Option Tokens
  storeLen : Int
  reason : Option Bytes
  cacheTextOverride : Option Bytes
  cacheTextExt : UInt8
  hooks : Option TrailerHooks

/-- What the outside world answers to a store. A write fault is the count of bytes that
reached the temporary file before a write, a flush or the close failed. -/
structure StoreEnv where
  now : Nat
  stamp : Nat
  pid : Bytes
  stageOk : Bool
  openOk : Bool
  createOk : Bool
  writeFault : Option Nat
  renameOk : Bool
  unlinkOk : Bytes → Bool

/-! ## Small functions -/

/-- `sf37_kvstore_reason_code`. -/
def reasonCode : Option Bytes → UInt8
  | none => 0
  | some reason =>
      if reason = bytes "cold" then 1
      else if reason = bytes "continued" then 2
      else if reason = bytes "evict" then 3
      else if reason = bytes "shutdown" then 4
      else if reason = bytes "agent-system" then 5
      else if reason = bytes "agent-session" then 6
      else 0

/-- `kv_cache_file_size_bytes`. -/
def kvCacheFileSizeBytes (textBytes payloadBytes trailerBytes : Nat) : Option Nat :=
  let fixed := fixedHeader + 4
  if uint64Max - fixed < textBytes ∨ uint64Max - fixed - textBytes < payloadBytes ∨
      uint64Max - fixed - textBytes - payloadBytes < trailerBytes then none
  else some (fixed + textBytes + payloadBytes + trailerBytes)

/-- `kv_cache_budget_required`. -/
def kvCacheBudgetRequired (fileBytes : Nat) : Option Nat :=
  let slack := fileBytes / 100
  let slack := if fileBytes % 100 ≠ 0 then slack + 1 else slack
  if uint64Max - fileBytes < slack then none else some (fileBytes + slack)

/-- `sf37_kvstore_file_size_fits`: the size of the file where it fits. -/
def fileSizeFits (kc : KvCache) (textBytes payloadBytes trailerBytes : Nat) : Option Nat :=
  (kvCacheFileSizeBytes textBytes payloadBytes trailerBytes).bind fun fileBytes =>
    if kc.budgetBytes = 0 then some fileBytes
    else
      (kvCacheBudgetRequired fileBytes).bind fun required =>
        if required ≤ kc.budgetBytes then some fileBytes else none

/-- `kv_trailer_serialized_size`. -/
def kvTrailerSerializedSize (hooks : Option TrailerHooks) (text : Bytes) : Option Nat :=
  match hooks.bind TrailerHooks.serializedSize with
  | none => some 0
  | some size => size text

/-- `kv_trailer_write`. -/
def kvTrailerWrite (hooks : Option TrailerHooks) (text : Bytes) : TrailerWrite :=
  match hooks.bind TrailerHooks.write with
  | none => ⟨[], true, 0⟩
  | some write => write text

/-- The text of a file behind its header, cut off where the file ends. -/
def storedText (fp : Bytes) (textBytes : Nat) : Bytes := (fp.drop (fixedHeader + 4)).take textBytes

/-- `kv_cache_file_text_matches`. -/
def kvCacheFileTextMatches (fp : Bytes) (sha text : Bytes) : Bool :=
  if uint32Max < text.length then false
  else
    match readHeader fp with
    | none => false
    | some hdr =>
        let stored := storedText fp hdr.textBytes
        decide (hdr.textBytes = text.length ∧ stored.length = hdr.textBytes ∧
          sha1BytesHex stored = sha ∧ stored = text)

/-! ## The file under the key -/

/-- What `kv_cache_existing_compatible` asks of the file it finds. -/
def compatibleFile (kc : KvCache) (ctx : Nat) (sha text : Bytes) (f : File) (e : Entry) : Bool :=
  decide (e.modelId = kvstoreModelId ∧
    (¬ kc.rejectDifferentQuant ∨ e.quantBits = kvstoreQuantBits) ∧ e.ctxSize ≤ ctx) &&
    kvCacheFileTextMatches f.bytes sha text

/-- `kv_cache_existing_compatible`. -/
def kvCacheExistingCompatible (kc : KvCache) (unlinkOk : Bytes → Bool) (ctx : Nat)
    (sha text : Bytes) (d : Directory) : Bool × Directory :=
  let path := kvName sha
  match d.read path with
  | none => (false, d)
  | some fp =>
      match readEntryFile ⟨path, fp⟩ sha with
      | none => (false, d)
      | some e =>
          if compatibleFile kc ctx sha text ⟨path, fp⟩ e then (true, d)
          else if unlinkOk path then (false, d.unlink path)
          else (false, d)

/-- `ftruncate`. -/
def ftruncate (fp : Bytes) (n : Nat) : Bytes := fp.take n ++ List.replicate (n - fp.length) 0

/-- `kv_cache_rewrite_trailer`, of the bytes of the file; the hooks it asks for. -/
def kvCacheRewriteTrailer (hooks : Option TrailerHooks) (openOk : Bool) (stamp : Nat)
    (text fp : Bytes) : Bytes :=
  match hooks with
  | none => fp
  | some h =>
      if h.write.isNone ∨ h.serializedSize.isNone then fp
      else
        match kvTrailerSerializedSize (some h) text with
        | none => fp
        | some trailerEst =>
            if trailerEst = 0 ∨ ¬ openOk then fp
            else
              match readHeader fp with
              | none => fp
              | some hdr =>
                  if 2 ^ 63 - 1 < hdr.bodyEnd then fp
                  else
                    let w := kvTrailerWrite (some h) text
                    let fp := ftruncate fp hdr.bodyEnd ++ w.bytes
                    if w.ok ∧ 0 < w.written then
                      fillHeader { hdr with extFlags := hdr.extFlags ||| h.extFlag
                                            lastUsed := stamp } ++ fp.drop fixedHeader
                    else fp

/-! ## The store -/

/-- What a store leaves: the directory, what it returned, and the names its eviction
pass removed. -/
structure StoreResult where
  dir : Directory
  ok : Bool
  victims : List Bytes

/-- The name of the temporary file. -/
def tmpName (sha pid : Bytes) : Bytes := kvName sha ++ bytes ".tmp." ++ pid

/-- The header of a new checkpoint. -/
def newHeader (call : StoreCall) (env : StoreEnv) (ctx tokens : Nat) (text payload : Bytes)
    (trailerEst : Nat) : Header :=
  let extFlags := match call.hooks with
    | none => 0
    | some h => if 0 < trailerEst then h.extFlag else 0
  { quantBits := kvstoreQuantBits
    modelId := kvstoreModelId
    reason := reasonCode call.reason
    extFlags := if (call.cacheTextOverride.getD []).isEmpty then extFlags
      else extFlags ||| call.cacheTextExt
    tokens := tokens
    hits := 0
    ctxSize := ctx
    createdAt := env.stamp
    lastUsed := env.stamp
    payloadBytes := payload.length
    textBytes := text.length }

/-- The bytes of a new checkpoint. -/
def newFile (hdr : Header) (text payload trailer : Bytes) : Bytes :=
  fillHeader hdr ++ (lePut32 hdr.textBytes ++ (text ++ (payload ++ trailer)))

/-- From `fopen` of the temporary file on: write, check the size, rename. -/
def publish (kc : KvCache) (call : StoreCall) (env : StoreEnv) (hdr : Header)
    (sha text payload : Bytes) (d : Directory) : Directory × Bool :=
  let tmp := tmpName sha env.pid
  if ¬ env.createOk then (d, false)
  else
    let trailer := kvTrailerWrite call.hooks text
    let full := newFile hdr text payload trailer.bytes
    let d := d.write tmp (match env.writeFault with | none => full | some n => full.take n)
    let ok := env.writeFault.isNone && trailer.ok &&
      (fileSizeFits kc text.length payload.length trailer.written).isSome && env.renameOk
    if ok then (d.rename tmp (kvName sha), true)
    else if env.unlinkOk tmp then (d.unlink tmp, false)
    else (d, false)

/-- The tokens a call stores, `sf37_kvstore_tokens_copy_prefix`. -/
def StoreCall.storeTokens (call : StoreCall) : Tokens :=
  (call.tokens.getD []).take call.storeLen.toNat

/-- `sf37_kvstore_render_tokens_text`, with the text of each token. -/
def renderTokensText (tokenText : Token → Bytes) (tokens : Tokens) : Bytes :=
  tokens.flatMap tokenText

/-- The text a call stores under. -/
def StoreCall.text (call : StoreCall) (tokenText : Token → Bytes) : Bytes :=
  if (call.cacheTextOverride.getD []).isEmpty then renderTokensText tokenText call.storeTokens
  else call.cacheTextOverride.getD []

/-- The checks a store makes before it looks at the disk. -/
def StoreCall.Reaches (call : StoreCall) (tokenText : Token → Bytes) (kc : KvCache)
    (live : Tokens) : Prop :=
  kc.enabled = true ∧ call.tokens.isSome = true ∧ kc.minTokens ≤ call.storeLen ∧
    call.storeTokens = live ∧ (call.text tokenText).length ≤ uint32Max ∧
    (kvTrailerSerializedSize call.hooks (call.text tokenText)).isSome = true

instance (call : StoreCall) (tokenText : Token → Bytes) (kc : KvCache) (live : Tokens) :
    Decidable (call.Reaches tokenText kc live) := by
  unfold StoreCall.Reaches
  infer_instance

/-- What a store does once nothing compatible is found under its key. -/
def storeFresh {σ : Type} (ops : SessionOps σ) (sc : Scoring) (kc : KvCache) (call : StoreCall)
    (env : StoreEnv) (session : σ) (sha text : Bytes) (trailerEst : Nat) (d : Directory) :
    StoreResult :=
  match (if env.stageOk then ops.stagePayload session else none) with
  | none => ⟨d, false, []⟩
  | some payload =>
      match fileSizeFits kc text.length payload.length trailerEst with
      | none => ⟨d, false, []⟩
      | some estFileBytes =>
          let incoming : EvictionContext :=
            { text := text
              modelId := kvstoreModelId
              quantBits := kvstoreQuantBits
              ctxSize := ops.ctx session
              rejectDifferentQuant := kc.rejectDifferentQuant }
          let r := evict kc sc env.unlinkOk env.now estFileBytes (some incoming) d
          let hdr := newHeader call env (ops.ctx session) call.storeTokens.length text payload
            trailerEst
          let p := publish kc call env hdr sha text payload r.dir
          ⟨p.1, p.2, r.victims⟩

/-- `sf37_kvstore_store_live_prefix_text`. -/
def storeLivePrefixText {σ : Type} (ops : SessionOps σ) (sc : Scoring)
    (tokenText : Token → Bytes) (kc : KvCache) (call : StoreCall) (env : StoreEnv)
    (session : σ) (d : Directory) : StoreResult :=
  if ¬ call.Reaches tokenText kc (ops.tokens session) then ⟨d, false, []⟩
  else
    let text := call.text tokenText
    let trailerEst := (kvTrailerSerializedSize call.hooks text).getD 0
    let sha := sha1BytesHex text
    let found := kvCacheExistingCompatible kc env.unlinkOk (ops.ctx session) sha text d
    if found.1 then
      let fp := (found.2.read (kvName sha)).getD []
      ⟨found.2.write (kvName sha)
        (kvCacheRewriteTrailer call.hooks env.openOk env.stamp text fp), true, []⟩
    else storeFresh ops sc kc call env session sha text trailerEst found.2

end Sf37.KvStore

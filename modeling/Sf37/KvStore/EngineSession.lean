/-
Sf37.KvStore.EngineSession — the engine's session under a store, and small inputs.

* `engineOps`: the functions of a session that a store calls, as the engine has them.
-/
import Sf37.KvStore.Checkpoint
import Sf37.KvStore.TryLoad
import Sf37.Engine.RoundTrip
import Sf37.Engine.Eval

namespace Sf37.KvStore

open Sf37.Text Sf37.Store
open Sf37.Server (Token Tokens)
open Sf37.Engine (Device KvCodec GpuWrites Session sessionSavePayload sessionLoadPayload
  sessionRewind Savable cpuRowsMissing_eq sessionSavePayload_eq sessionPayloadBytes
  length_sessionSavePayload cpuDevice)

/-- The session of an engine; where its device writes its rows some writes may fail. -/
def engineOps (dev : Device) (codec : KvCodec) (gpu : GpuWrites) : SessionOps Session where
  tokens := Session.checkpoint
  ctx := fun _ => dev.ctxSize
  stagePayload := sessionSavePayload dev codec
  loadPayload := fun s data payloadBytes =>
    let r := sessionLoadPayload dev codec gpu s data payloadBytes
    (r.1, r.2.isNone)
  rewindToStart := fun s => sessionRewind dev s 0
  ctx_loadPayload := fun _ _ _ => rfl
  ctx_rewindToStart := fun _ => rfl

theorem engineOps_loadPayload (dev : Device) (codec : KvCodec) (gpu : GpuWrites) (s : Session)
    (data : Bytes) (payloadBytes : Nat) :
    (engineOps dev codec gpu).loadPayload s data payloadBytes =
      ((sessionLoadPayload dev codec gpu s data payloadBytes).1,
        (sessionLoadPayload dev codec gpu s data payloadBytes).2.isNone) := rfl

/-! ## Small inputs -/

/-- The entries by their last use. -/
def Scoring.byLastUse : Scoring where
  Score := Nat
  score := fun e _ _ => e.lastUsed
  lt := fun a b => decide (a < b)
  eq := fun a b => decide (a = b)

/-- A store of one MiB that takes checkpoints of any length. -/
def KvCache.small : KvCache where
  enabled := true
  budgetBytes := 2 ^ 20
  rejectDifferentQuant := false
  minTokens := 1
  coldMaxTokens := 0
  continuedLastStoreTokens := 0

/-- Nothing fails. -/
def StoreEnv.quiet : StoreEnv where
  now := 0
  stamp := 0
  pid := bytes "1"
  stageOk := true
  openOk := true
  createOk := true
  writeFault := none
  renameOk := true
  unlinkOk := fun _ => true

def LoadEnv.quiet : LoadEnv := ⟨0, true, true, fun _ => true⟩

/-- Every token is an `a`. -/
def textOfTokens : Token → Bytes := fun _ => [0x61]

/-- Store the tokens under the text of the tokens. -/
def StoreCall.ofTokens (tokens : Tokens) (hooks : Option TrailerHooks) : StoreCall where
  tokens := some tokens
  storeLen := tokens.length
  reason := none
  cacheTextOverride := none
  cacheTextExt := 0
  hooks := hooks

/-- A session of one token on the CPU. -/
def oneToken : Session := .ofTokens [7]

theorem savable_oneToken (dev : Device) : Savable dev oneToken where
  length_le := dev.ctxSize_pos
  tokens_lt := by decide
  counters := fun _ _ _ => Nat.min_le_left _ _

/-- The payload of that session. -/
def oneTokenPayload (dev : Device) : Bytes := (sessionSavePayload dev .ofZeros oneToken).getD []

theorem save_oneToken (dev : Device) :
    sessionSavePayload dev .ofZeros oneToken = some (oneTokenPayload dev) := by
  rw [oneTokenPayload, sessionSavePayload_eq dev .ofZeros rfl (cpuRowsMissing_eq (savable_oneToken dev))]
  rfl

theorem length_oneTokenPayload (dev : Device) :
    (oneTokenPayload dev).length = sessionPayloadBytes dev oneToken :=
  length_sessionSavePayload (save_oneToken dev)

/-- The header of a checkpoint of one token. -/
def Header.oneToken (ctxSize : Nat) (text payload : Bytes) : Header where
  quantBits := kvstoreQuantBits
  modelId := kvstoreModelId
  reason := 0
  extFlags := 0
  tokens := 1
  hits := 0
  ctxSize := ctxSize
  createdAt := 0
  lastUsed := 0
  payloadBytes := payload.length
  textBytes := text.length

/-- A file with that header, under the name of the text `keyText`. -/
def oneTokenFile (ctxSize : Nat) (keyText text payload : Bytes) : File :=
  ⟨kvName (sha1BytesHex keyText), newFile (.oneToken ctxSize text payload) text payload []⟩

/-- The entry of such a file. -/
def oneTokenEntry (ctxSize : Nat) (keyText text payload : Bytes) : Entry :=
  { Header.oneToken ctxSize text payload with
    sha := sha1BytesHex keyText
    path := kvName (sha1BytesHex keyText)
    fileSize := (oneTokenFile ctxSize keyText text payload).bytes.length }

section

variable {ctxSize : Nat} {text payload : Bytes}

theorem Header.oneToken_writable (hctx : ctxSize ≤ uint32Max) (htext : text.length ≤ uint32Max)
    (hpayload : payload.length ≤ uint32Max) : (oneToken ctxSize text payload).Writable where
  quant := rfl
  reason_le := (by decide : (0 : UInt8) ≤ reasonAgentSession)
  tokens_pos := Nat.one_ne_zero
  tokens_le := (by decide : 1 ≤ uint32Max)
  hits_le := Nat.zero_le _
  ctxSize_le := hctx
  createdAt_le := Nat.zero_le _
  lastUsed_le := Nat.zero_le _
  payloadBytes_le := Nat.le_trans hpayload (by decide)
  textBytes_le := htext

theorem Header.oneToken_describes (ctxSize : Nat) (text payload : Bytes) :
    (oneToken ctxSize text payload).Describes text payload := ⟨rfl, rfl⟩

theorem bodyEnd_oneToken (ctxSize : Nat) (text payload : Bytes) :
    (Header.oneToken ctxSize text payload).bodyEnd =
      fixedHeader + 4 + text.length + payload.length := rfl

theorem bodyEnd_oneToken_le (htext : text.length ≤ uint32Max) (hpayload : payload.length ≤ uint32Max) :
    (Header.oneToken ctxSize text payload).bodyEnd ≤ uint64Max := by
  have : fixedHeader + 4 + uint32Max + uint32Max ≤ uint64Max := by decide
  rw [bodyEnd_oneToken]
  omega

theorem listedEntry_oneToken (hctx : ctxSize ≤ uint32Max) (htext : text.length ≤ uint32Max)
    (hpayload : payload.length ≤ uint32Max) (keyText : Bytes) :
    listedEntry (oneTokenFile ctxSize keyText text payload) =
      some (oneTokenEntry ctxSize keyText text payload) :=
  listedEntry_newFile (Header.oneToken_writable hctx htext hpayload)
    (Header.oneToken_describes ctxSize text payload) (bodyEnd_oneToken_le htext hpayload) _ _

end

/-- The file of a session of one token with the text `a`. -/
def intactFile : File := oneTokenFile 16 [0x61] [0x61] (oneTokenPayload cpuDevice)

/-- Its entry. -/
def intactEntry : Entry := oneTokenEntry 16 [0x61] [0x61] (oneTokenPayload cpuDevice)

theorem length_cpuPayload : (oneTokenPayload cpuDevice).length = 630132 := by
  rw [length_oneTokenPayload]
  decide

theorem length_cpuPayload_le : (oneTokenPayload cpuDevice).length ≤ uint32Max := by
  rw [length_cpuPayload]
  decide

theorem intact_writable : (Header.oneToken 16 [0x61] (oneTokenPayload cpuDevice)).Writable :=
  Header.oneToken_writable (by decide) (by decide) length_cpuPayload_le

theorem listed_intact : listedEntry intactFile = some intactEntry :=
  listedEntry_oneToken (by decide) (by decide) length_cpuPayload_le _

/-- A directory of one file. -/
def oneFile (f : File) : Directory := ⟨[f], List.nodup_singleton _⟩

theorem read_oneFile (f : File) : (oneFile f).read f.name = some f.bytes :=
  Directory.mem_files_iff.mp (List.mem_singleton_self f)

theorem totalBytes_oneFile (f : File) : totalBytes (oneFile f) = entryBytes f :=
  Nat.add_zero (entryBytes f)

end Sf37.KvStore

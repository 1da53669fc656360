/-
Sf37.KvStore.Header — the fixed header of a checkpoint file and the entry that is
read of a file.

* `readHeader_spec`, `readHeader_fillHeader`: a header that is written is read back.
* `readEntryFile_spec`: an entry has the size and the name of its file, and the file
  is long enough for the text and the payload its header tells of.
-/
import Sf37.KvStore.Sha1
import Sf37.Store.Directory
import Sf37.Server.ToolMapWire
import Sf37.Text.LittleEndian

namespace Sf37.KvStore

open Sf37.Text Sf37.Store
open Sf37.Server (lePut32 leGet32 leGet32_lePut32 length_lePut32)

/-! ## Constants -/

/-- `SF37_KVSTORE_FIXED_HEADER`. -/
def fixedHeader : Nat := 48

/-- `KV_CACHE_MAGIC0` to `KV_CACHE_MAGIC2` and `KV_CACHE_VERSION`. -/
def kvCacheMagic : Bytes := [0x4b, 0x56, 0x43, 1]

/-- `KV_CACHE_PAYLOAD_ABI`. -/
def kvCachePayloadAbi : UInt8 := 2

/-- `SF37_KVSTORE_MODEL_ID`. -/
def kvstoreModelId : UInt8 := 37

/-- `SF37_KVSTORE_QUANT_BITS`. -/
def kvstoreQuantBits : UInt8 := 3

/-- `SF37_KVSTORE_REASON_AGENT_SESSION`, the greatest reason. -/
def reasonAgentSession : UInt8 := 6

def uint32Max : Nat := 2 ^ 32 - 1

def uint64Max : Nat := 2 ^ 64 - 1

/-! ## Words -/

/-- `kv_le_put64`. -/
def kvLePut64 (v : Nat) : Bytes := (List.range 8).map fun i => UInt8.ofNat (v >>> (8 * i))

/-- `kv_le_get64`. -/
def kvLeGet64 (p : Bytes) : Nat := (p.take 8).foldr (fun b v => v <<< 8 ||| b.toNat) 0

theorem kvLePut64_eq (v : Nat) : kvLePut64 v = littleEndian 8 v := by
  simp only [kvLePut64, List.range_succ, List.range_zero, List.nil_append, List.map_cons, List.map_nil, List.cons_append, littleEndian, Nat.shiftRight_eq_div_pow,
    Nat.div_div_eq_div_mul, Nat.reduceMul, Nat.reducePow, Nat.div_one]

theorem kvLeGet64_kvLePut64 {v : Nat} (h : v ≤ uint64Max) (rest : Bytes) :
    kvLeGet64 (kvLePut64 v ++ rest) = v := by
  have hv : v < 256 ^ 8 := Nat.lt_of_le_of_lt h (by decide)
  rw [kvLeGet64, foldr_shift_or, kvLePut64_eq, ofLittleEndian_take hv]

/-! ## The header -/

/-- What `sf37_kvstore_read_header` reads: the header fields of `sf37_kvstore_entry`. -/
structure Header where
  quantBits : UInt8
  modelId : UInt8
  reason : UInt8
  extFlags : UInt8
  tokens : Nat
  hits : Nat
  ctxSize : Nat
  createdAt : Nat
  lastUsed : Nat
  payloadBytes : Nat
  textBytes : Nat
  deriving DecidableEq, Repr

/-- `sf37_kvstore_fill_header`; the length of the text is not part of it. -/
def fillHeader (h : Header) : Bytes :=
  kvCacheMagic ++ [h.quantBits, h.reason, h.extFlags, h.modelId] ++ lePut32 h.tokens ++
    lePut32 h.hits ++ lePut32 h.ctxSize ++ [kvCachePayloadAbi, 0, 0, 0] ++
    kvLePut64 h.createdAt ++ kvLePut64 h.lastUsed ++ kvLePut64 h.payloadBytes

/-- `sf37_kvstore_read_header`, of a file read from its start. -/
def readHeader (fp : Bytes) : Option Header :=
  if fp.length < fixedHeader then none
  else if fp.take 4 ≠ kvCacheMagic then none
  else if fp.getD 20 0 ≠ kvCachePayloadAbi then none
  else if fp.length < fixedHeader + 4 then none
  else
    let e : Header :=
      { quantBits := fp.getD 4 0
        reason := if fp.getD 5 0 ≤ reasonAgentSession then fp.getD 5 0 else 0
        extFlags := fp.getD 6 0
        modelId := fp.getD 7 0
        tokens := leGet32 (fp.drop 8)
        hits := leGet32 (fp.drop 12)
        ctxSize := leGet32 (fp.drop 16)
        createdAt := kvLeGet64 (fp.drop 24)
        lastUsed := kvLeGet64 (fp.drop 32)
        payloadBytes := kvLeGet64 (fp.drop 40)
        textBytes := leGet32 (fp.drop fixedHeader) }
    if e.tokens ≠ 0 ∧ e.quantBits = kvstoreQuantBits then some e else none

theorem leGet32_lt (p : Bytes) : leGet32 p < 2 ^ 32 := by
  have hbyte : ∀ (i k : Nat), k ≤ 24 → (p.getD i 0).toNat <<< k < 2 ^ 32 := by
    intro i k hk
    have hb : (p.getD i 0).toNat < 2 ^ 8 := (p.getD i 0).toNat_lt
    have hpow : 2 ^ 8 * 2 ^ k ≤ 2 ^ 32 := by
      rw [← Nat.pow_add]
      exact Nat.pow_le_pow_right (by decide) (by omega)
    rw [Nat.shiftLeft_eq]
    exact Nat.lt_of_lt_of_le (Nat.mul_lt_mul_of_pos_right hb (Nat.two_pow_pos k)) hpow
  rw [leGet32]
  exact Nat.or_lt_two_pow (Nat.or_lt_two_pow (Nat.or_lt_two_pow (hbyte 0 0 (by decide))
    (hbyte 1 8 (by decide))) (hbyte 2 16 (by decide))) (hbyte 3 24 (by decide))

/-- What a header that is read has in its place. -/
theorem readHeader_spec {fp : Bytes} {h : Header} (hread : readHeader fp = some h) :
    h.tokens ≠ 0 ∧ h.tokens < 2 ^ 32 ∧ h.textBytes = leGet32 (fp.drop fixedHeader) ∧
      h.payloadBytes = kvLeGet64 (fp.drop 40) := by
  rw [readHeader] at hread
  split at hread
  · nomatch hread
  split at hread
  · nomatch hread
  split at hread
  · nomatch hread
  split at hread
  · nomatch hread
  dsimp only at hread
  split at hread
  next hok =>
    obtain rfl := Option.some.inj hread
    exact ⟨hok.1, leGet32_lt _, rfl, rfl⟩
  · nomatch hread

/-- A header whose fields fit, as the store path writes it. -/
structure Header.Writable (h : Header) : Prop where
  quant : h.quantBits = kvstoreQuantBits
  reason_le : h.reason ≤ reasonAgentSession
  tokens_pos : h.tokens ≠ 0
  tokens_le : h.tokens ≤ uint32Max
  hits_le : h.hits ≤ uint32Max
  ctxSize_le : h.ctxSize ≤ uint32Max
  createdAt_le : h.createdAt ≤ uint64Max
  lastUsed_le : h.lastUsed ≤ uint64Max
  payloadBytes_le : h.payloadBytes ≤ uint64Max
  textBytes_le : h.textBytes ≤ uint32Max

theorem length_fillHeader (h : Header) : (fillHeader h).length = fixedHeader := rfl

/-- The fields of a header at their places. -/
theorem fillHeader_fields (h : Header) (rest : Bytes) :
    let fp := fillHeader h ++ rest
    fp.take 4 = kvCacheMagic ∧ fp.getD 20 0 = kvCachePayloadAbi ∧
      (fp.getD 4 0 = h.quantBits ∧ fp.getD 5 0 = h.reason ∧ fp.getD 6 0 = h.extFlags ∧
        fp.getD 7 0 = h.modelId) ∧
      ((∃ r, fp.drop 8 = lePut32 h.tokens ++ r) ∧ (∃ r, fp.drop 12 = lePut32 h.hits ++ r) ∧
        ∃ r, fp.drop 16 = lePut32 h.ctxSize ++ r) ∧
      ((∃ r, fp.drop 24 = kvLePut64 h.createdAt ++ r) ∧
        (∃ r, fp.drop 32 = kvLePut64 h.lastUsed ++ r) ∧
        ∃ r, fp.drop 40 = kvLePut64 h.payloadBytes ++ r) ∧
      fp.drop fixedHeader = rest :=
  ⟨rfl, rfl, ⟨rfl, rfl, rfl, rfl⟩, ⟨⟨_, rfl⟩, ⟨_, rfl⟩, ⟨_, rfl⟩⟩, ⟨⟨_, rfl⟩, ⟨_, rfl⟩, ⟨_, rfl⟩⟩, rfl⟩

/-- A header that is written is read back. -/
theorem readHeader_fillHeader {h : Header} (hw : h.Writable) (rest : Bytes) :
    readHeader (fillHeader h ++ (lePut32 h.textBytes ++ rest)) = some h := by
  obtain ⟨hmagic, habi, ⟨hquant, hreason, hext, hmodel⟩, ⟨⟨r₁, h8⟩, ⟨r₂, h12⟩, ⟨r₃, h16⟩⟩,
    ⟨⟨r₄, h24⟩, ⟨r₅, h32⟩, ⟨r₆, h40⟩⟩, h48⟩ := fillHeader_fields h (lePut32 h.textBytes ++ rest)
  have hlen : (fillHeader h ++ (lePut32 h.textBytes ++ rest)).length =
      fixedHeader + 4 + rest.length := by
    rw [List.length_append, length_fillHeader, List.length_append, length_lePut32, Nat.add_assoc]
  rw [readHeader, if_neg (by omega), if_neg (not_not.mpr hmagic), if_neg (not_not.mpr habi),
    if_neg (by omega), hquant, hreason, hext, hmodel, if_pos hw.reason_le, h8, h12, h16, h24, h32,
    h40, h48, leGet32_lePut32 hw.tokens_le, leGet32_lePut32 hw.hits_le,
    leGet32_lePut32 hw.ctxSize_le, leGet32_lePut32 hw.textBytes_le,
    kvLeGet64_kvLePut64 hw.createdAt_le, kvLeGet64_kvLePut64 hw.lastUsed_le,
    kvLeGet64_kvLePut64 hw.payloadBytes_le]
  exact if_pos ⟨hw.tokens_pos, hw.quant⟩

/-! ## Entries -/

/-- `sf37_kvstore_entry`. Its path is the name of its file in the directory. -/
structure Entry extends Header where
  sha : Bytes
  path : Bytes
  fileSize : Nat
  deriving DecidableEq, Repr

/-- What a header says of the length of its file, without a trailer. -/
def Header.bodyEnd (h : Header) : Nat := fixedHeader + 4 + h.textBytes + h.payloadBytes

/-- `sf37_kvstore_read_entry_file`, of a file of the directory. -/
def readEntryFile (f : File) (sha : Bytes) : Option Entry :=
  if f.bytes.length < fixedHeader + 4 then none
  else
    match readHeader f.bytes with
    | none => none
    | some e =>
        let fixed := fixedHeader + 4
        if uint64Max - fixed < e.textBytes ∨
            uint64Max - fixed - e.textBytes < e.payloadBytes then none
        else if f.bytes.length < fixed + e.textBytes + e.payloadBytes then none
        else some { e with sha := sha, path := f.name, fileSize := f.bytes.length }

/-- The entry `kv_cache_refresh` makes of a file it lists, if any. -/
def listedEntry (f : File) : Option Entry := (shaHexName f.name).bind (readEntryFile f)

theorem readEntryFile_spec {f : File} {sha : Bytes} {e : Entry} (h : readEntryFile f sha = some e) :
    e.sha = sha ∧ e.path = f.name ∧ e.fileSize = f.bytes.length ∧
      readHeader f.bytes = some e.toHeader ∧ e.toHeader.bodyEnd ≤ f.bytes.length ∧
      e.toHeader.bodyEnd ≤ uint64Max := by
  rw [readEntryFile] at h
  split at h
  · nomatch h
  split at h
  · nomatch h
  next hdr hhdr =>
    dsimp only at h
    split at h
    · nomatch h
    next hfits =>
      split at h
      · nomatch h
      next hlong =>
        obtain rfl := Option.some.inj h
        have h64 : fixedHeader + 4 ≤ uint64Max := by decide
        exact ⟨rfl, rfl, rfl, hhdr, Nat.le_of_not_lt hlong, by
          show fixedHeader + 4 + hdr.textBytes + hdr.payloadBytes ≤ uint64Max
          omega⟩

theorem listedEntry_spec {f : File} {e : Entry} (h : listedEntry f = some e) :
    shaHexName f.name = some e.sha ∧ readEntryFile f e.sha = some e := by
  obtain ⟨sha, hsha, he⟩ := Option.bind_eq_some_iff.mp h
  obtain rfl := (readEntryFile_spec he).1
  exact ⟨hsha, he⟩

end Sf37.KvStore

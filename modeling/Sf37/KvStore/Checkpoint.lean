/-
Sf37.KvStore.Checkpoint — the file a store writes, and what is read back of it.

* `readHeader_newFile`, `storedText_newFile`, `drop_newFile`: the header, the text and the
  payload are found where they were put.
* `listedEntry_newFile`: the file is listed under the hash of its text.
* `kvCacheRewriteTrailer_newFile`: with another trailer it is still such a file.
-/
import Sf37.KvStore.StoreSteps

namespace Sf37.KvStore

open Sf37.Text Sf37.Store
open Sf37.Server (lePut32 length_lePut32 leGet32_lePut32)

variable {hdr : Header} {text payload trailer : Bytes}

/-! ## Reading back -/

/-- The lengths in a header are those of a text and a payload. -/
structure Header.Describes (hdr : Header) (text payload : Bytes) : Prop where
  textBytes : hdr.textBytes = text.length
  payloadBytes : hdr.payloadBytes = payload.length

theorem length_newFile (hdr : Header) (text payload trailer : Bytes) :
    (newFile hdr text payload trailer).length =
      fixedHeader + 4 + text.length + payload.length + trailer.length := by
  simp only [newFile, List.length_append, length_fillHeader, length_lePut32]
  omega

theorem readHeader_newFile (hw : hdr.Writable) (text payload trailer : Bytes) :
    readHeader (newFile hdr text payload trailer) = some hdr :=
  readHeader_fillHeader hw _

theorem drop_newFile_header (hdr : Header) (text payload trailer : Bytes) :
    (newFile hdr text payload trailer).drop (fixedHeader + 4) = text ++ (payload ++ trailer) := by
  rw [newFile, ← List.append_assoc]
  exact List.drop_left' (by rw [List.length_append, length_fillHeader, length_lePut32])

theorem storedText_newFile (hdr : Header) (text payload trailer : Bytes) :
    storedText (newFile hdr text payload trailer) text.length = text := by
  rw [storedText, drop_newFile_header, List.take_left' rfl]

/-- What stands behind the text. -/
theorem drop_newFile (hdr : Header) (text payload trailer : Bytes) :
    (newFile hdr text payload trailer).drop (fixedHeader + 4 + text.length) = payload ++ trailer := by
  rw [← List.drop_drop, drop_newFile_header, List.drop_left' rfl]

/-- What stands before the trailer. -/
theorem take_newFile (hd : hdr.Describes text payload) (trailer : Bytes) :
    (newFile hdr text payload trailer).take hdr.bodyEnd = newFile hdr text payload [] := by
  have hsplit : newFile hdr text payload trailer = newFile hdr text payload [] ++ trailer := by
    simp only [newFile, List.append_assoc, List.append_nil]
  rw [hsplit]
  refine List.take_left' ?_
  rw [length_newFile, Header.bodyEnd, hd.textBytes, hd.payloadBytes, List.length_nil, Nat.add_zero]

/-- A header that is read of such a file tells the same lengths. -/
theorem Header.Describes.of_readHeader (hd : hdr.Describes text payload)
    (htext : text.length ≤ uint32Max) (hpayload : payload.length ≤ uint64Max) {h : Header}
    (hread : readHeader (newFile hdr text payload trailer) = some h) : h.Describes text payload := by
  obtain ⟨-, -, htextAt, hpayloadAt⟩ := readHeader_spec hread
  obtain ⟨-, -, -, -, ⟨-, -, rest, h40⟩, h48⟩ :=
    fillHeader_fields hdr (lePut32 hdr.textBytes ++ (text ++ (payload ++ trailer)))
  rw [newFile] at htextAt hpayloadAt
  rw [h48, leGet32_lePut32 (hd.textBytes ▸ htext)] at htextAt
  rw [h40, kvLeGet64_kvLePut64 (hd.payloadBytes ▸ hpayload)] at hpayloadAt
  exact ⟨htextAt.trans hd.textBytes, hpayloadAt.trans hd.payloadBytes⟩

/-! ## Listing -/

theorem readEntryFile_newFile (hw : hdr.Writable) (hd : hdr.Describes text payload)
    (hsize : hdr.bodyEnd ≤ uint64Max) (n sha trailer : Bytes) :
    readEntryFile ⟨n, newFile hdr text payload trailer⟩ sha =
      some { hdr with sha := sha, path := n, fileSize := (newFile hdr text payload trailer).length } := by
  have hlen := length_newFile hdr text payload trailer
  have hend : hdr.bodyEnd = fixedHeader + 4 + hdr.textBytes + hdr.payloadBytes := rfl
  have htext := hd.textBytes
  have hpayload := hd.payloadBytes
  simp only [readEntryFile, readHeader_newFile hw]
  rw [if_neg (by omega), if_neg (by omega), if_neg (by omega)]

/-- A file that is written under the hash of a text is listed. -/
theorem listedEntry_newFile (hw : hdr.Writable) (hd : hdr.Describes text payload)
    (hsize : hdr.bodyEnd ≤ uint64Max) (keyText trailer : Bytes) :
    listedEntry ⟨kvName (sha1BytesHex keyText), newFile hdr text payload trailer⟩ =
      some { hdr with sha := sha1BytesHex keyText, path := kvName (sha1BytesHex keyText)
                      fileSize := (newFile hdr text payload trailer).length } := by
  rw [listedEntry, shaHexName_kvName_sha1]
  exact readEntryFile_newFile hw hd hsize _ _ _

theorem kvCacheFileTextMatches_newFile (hw : hdr.Writable) (hd : hdr.Describes text payload)
    (trailer : Bytes) :
    kvCacheFileTextMatches (newFile hdr text payload trailer) (sha1BytesHex text) text = true := by
  have hle : text.length ≤ uint32Max := hd.textBytes ▸ hw.textBytes_le
  simp only [kvCacheFileTextMatches, readHeader_newFile hw, hd.textBytes, storedText_newFile]
  rw [if_neg (by omega)]
  exact decide_eq_true ⟨trivial, trivial, trivial, trivial⟩

/-! ## Another trailer -/

/-- The header after a trailer was written. -/
def Header.withTrailer (hdr : Header) (extFlag : UInt8) (stamp : Nat) : Header :=
  { hdr with extFlags := hdr.extFlags ||| extFlag, lastUsed := stamp }

theorem Header.bodyEnd_withTrailer (hdr : Header) (extFlag : UInt8) (stamp : Nat) :
    (hdr.withTrailer extFlag stamp).bodyEnd = hdr.bodyEnd := rfl

theorem Header.Describes.withTrailer (hd : hdr.Describes text payload) (extFlag : UInt8)
    (stamp : Nat) : (hdr.withTrailer extFlag stamp).Describes text payload :=
  ⟨hd.textBytes, hd.payloadBytes⟩

theorem Header.Writable.withTrailer (hw : hdr.Writable) (extFlag : UInt8) {stamp : Nat}
    (hstamp : stamp ≤ uint64Max) : (hdr.withTrailer extFlag stamp).Writable :=
  { hw with lastUsed_le := hstamp }

/-- A new header before the rest of a file. -/
theorem fillHeader_drop_newFile {hdr' : Header} (h : hdr'.textBytes = hdr.textBytes)
    (text payload trailer : Bytes) :
    fillHeader hdr' ++ (newFile hdr text payload trailer).drop fixedHeader =
      newFile hdr' text payload trailer := by
  rw [newFile, List.drop_left' (length_fillHeader hdr), newFile, h]

theorem ftruncate_newFile (hd : hdr.Describes text payload) (old new : Bytes) :
    ftruncate (newFile hdr text payload old) hdr.bodyEnd ++ new = newFile hdr text payload new := by
  have hlen : hdr.bodyEnd ≤ (newFile hdr text payload old).length := by
    rw [length_newFile, Header.bodyEnd, hd.textBytes, hd.payloadBytes]
    exact Nat.le_add_right _ _
  rw [ftruncate, Nat.sub_eq_zero_of_le hlen, List.replicate_zero, List.append_nil, take_newFile hd]
  simp only [newFile, List.append_assoc, List.append_nil]

/-- With another trailer a file has the same text and payload. -/
theorem kvCacheRewriteTrailer_newFile (hw : hdr.Writable) (hd : hdr.Describes text payload)
    (hsize : hdr.bodyEnd ≤ 2 ^ 63 - 1) {h : TrailerHooks} {size : Bytes → Option Nat}
    {write : Bytes → TrailerWrite} {est : Nat} (hsizes : h.serializedSize = some size)
    (hwrite : h.write = some write) (hest : size text = some est) (hpos : est ≠ 0)
    (hok : (write text).ok = true) (hwritten : 0 < (write text).written) (stamp : Nat)
    (old : Bytes) :
    kvCacheRewriteTrailer (some h) true stamp text (newFile hdr text payload old) =
      newFile (hdr.withTrailer h.extFlag stamp) text payload (write text).bytes := by
  have hserialized : kvTrailerSerializedSize (some h) text = some est := by
    simp only [kvTrailerSerializedSize, Option.bind_some, hsizes, hest]
  have htrailer : kvTrailerWrite (some h) text = write text := by
    simp only [kvTrailerWrite, Option.bind_some, hwrite]
  simp only [kvCacheRewriteTrailer, hserialized, htrailer, readHeader_newFile hw,
    ftruncate_newFile hd]
  rw [if_neg (by simp [hwrite, hsizes]), if_neg (by simp [hpos]), if_neg (by omega),
    if_pos ⟨hok, hwritten⟩]
  exact fillHeader_drop_newFile rfl _ _ _

end Sf37.KvStore

/-
Sf37.KvStore.Sha1 — the hash a checkpoint file is named by, and the names that are
read as such.

* `length_sha1BytesHex`, `sha1BytesHex_lowerHex`: forty digits of lower-case hex.
* `shaHexName_kvName`: the file of a hash is read back as that hash.
-/
import Sf37.Text.CString
import Mathlib.Algebra.Group.Nat.Defs

namespace Sf37.KvStore

open Sf37.Text

/-! ## The hash -/

/-- `sha1_ctx`; of `block` the bytes in use. -/
structure Sha1Ctx where
  h0 : UInt32
  h1 : UInt32
  h2 : UInt32
  h3 : UInt32
  h4 : UInt32
  bytes : Nat
  block : Bytes
  deriving DecidableEq, Repr

/-- `rol32`. -/
def rol32 (v : UInt32) (n : UInt32) : UInt32 := (v <<< n) ||| (v >>> (32 - n))

/-- A word of a block, its first byte the highest. -/
def blockWord (block : Bytes) (i : Nat) : UInt32 :=
  ((block.getD (i * 4) 0).toUInt32 <<< 24) ||| ((block.getD (i * 4 + 1) 0).toUInt32 <<< 16) |||
    ((block.getD (i * 4 + 2) 0).toUInt32 <<< 8) ||| (block.getD (i * 4 + 3) 0).toUInt32

/-- The words of a block and those made of them, up to `n` more. -/
def scheduleWords : Nat → List UInt32 → List UInt32
  | 0, w => w
  | n + 1, w =>
      let i := w.length
      scheduleWords n (w ++ [rol32 (w.getD (i - 3) 0 ^^^ w.getD (i - 8) 0 ^^^ w.getD (i - 14) 0 ^^^
        w.getD (i - 16) 0) 1])

/-- The five words of a round. -/
structure Sha1Round where
  a : UInt32
  b : UInt32
  cc : UInt32
  d : UInt32
  e : UInt32
  deriving DecidableEq, Repr

/-- One round of `sha1_transform`. -/
def sha1Round (w : List UInt32) (r : Sha1Round) (i : Nat) : Sha1Round :=
  let fk : UInt32 × UInt32 :=
    if i < 20 then ((r.b &&& r.cc) ||| (~~~r.b &&& r.d), 0x5a827999)
    else if i < 40 then (r.b ^^^ r.cc ^^^ r.d, 0x6ed9eba1)
    else if i < 60 then ((r.b &&& r.cc) ||| (r.b &&& r.d) ||| (r.cc &&& r.d), 0x8f1bbcdc)
    else (r.b ^^^ r.cc ^^^ r.d, 0xca62c1d6)
  { a := rol32 r.a 5 + fk.1 + r.e + fk.2 + w.getD i 0
    b := r.a
    cc := rol32 r.b 30
    d := r.cc
    e := r.d }

/-- `sha1_transform`, of a full block. -/
def sha1Transform (c : Sha1Ctx) (block : Bytes) : Sha1Ctx :=
  let w := scheduleWords 64 ((List.range 16).map (blockWord block))
  let r := (List.range 80).foldl (sha1Round w) ⟨c.h0, c.h1, c.h2, c.h3, c.h4⟩
  { c with
    h0 := c.h0 + r.a
    h1 := c.h1 + r.b
    h2 := c.h2 + r.cc
    h3 := c.h3 + r.d
    h4 := c.h4 + r.e }

/-- `sha1_init`. -/
def sha1Init : Sha1Ctx where
  h0 := 0x67452301
  h1 := 0xefcdab89
  h2 := 0x98badcfe
  h3 := 0x10325476
  h4 := 0xc3d2e1f0
  bytes := 0
  block := []

/-- The loop of `sha1_update`. Each turn takes what still fits into the block. -/
def sha1UpdateLoop : Nat → Sha1Ctx → Bytes → Sha1Ctx
  | 0, c, _ => c
  | fuel + 1, c, p =>
      if p = [] then c
      else
        let n := min (64 - c.block.length) p.length
        let block := c.block ++ p.take n
        let c := if block.length = 64 then { sha1Transform c block with block := [] }
          else { c with block := block }
        sha1UpdateLoop fuel c (p.drop n)

/-- `sha1_update`. -/
def sha1Update (c : Sha1Ctx) (p : Bytes) : Sha1Ctx :=
  sha1UpdateLoop (p.length + 1) { c with bytes := (c.bytes + p.length) % 2 ^ 64 } p

/-- The zeros `sha1_final` puts before the length. -/
def sha1Pad : Nat → Sha1Ctx → Sha1Ctx
  | 0, c => c
  | fuel + 1, c => if c.block.length = 56 then c else sha1Pad fuel (sha1Update c [0])

/-- A word, its highest byte first. -/
def wordBytes (v : UInt32) : Bytes :=
  [(v >>> 24).toUInt8, (v >>> 16).toUInt8, (v >>> 8).toUInt8, v.toUInt8]

/-- `sha1_final`. -/
def sha1Final (c : Sha1Ctx) : Bytes :=
  let bits := c.bytes * 8 % 2 ^ 64
  let c := sha1Pad 64 (sha1Update c [0x80])
  let c := sha1Update c ((List.range 8).map fun i => UInt8.ofNat (bits >>> (8 * (7 - i))))
  wordBytes c.h0 ++ wordBytes c.h1 ++ wordBytes c.h2 ++ wordBytes c.h3 ++ wordBytes c.h4

/-- The digit of a half byte. -/
def hexDigit (n : Nat) : UInt8 := (bytes "0123456789abcdef").getD n 0

/-- `hex20`. -/
def hex20 (digest : Bytes) : Bytes :=
  digest.flatMap fun b => [hexDigit (b.toNat >>> 4), hexDigit (b.toNat &&& 15)]

/-- `sf37_kvstore_sha1_bytes_hex`. -/
def sha1BytesHex (text : Bytes) : Bytes := hex20 (sha1Final (sha1Update sha1Init text))

/-! ## File names -/

/-- `isxdigit`. -/
def isxdigit (c : UInt8) : Bool :=
  (0x30 ≤ c && c ≤ 0x39) || (0x41 ≤ c && c ≤ 0x46) || (0x61 ≤ c && c ≤ 0x66)

/-- `sf37_kvstore_sha_hex_name`. -/
def shaHexName (name : Bytes) : Option Bytes :=
  if name.length ≠ 43 ∨ name.drop 40 ≠ bytes ".kv" then none
  else if (name.take 40).all isxdigit then some ((name.take 40).map tolower)
  else none

/-- The name under which `sf37_kvstore_path_for_sha` puts a hash. -/
def kvName (sha : Bytes) : Bytes := sha ++ bytes ".kv"

/-- Digits of lower-case hex. -/
def LowerHex (sha : Bytes) : Prop := ∀ c ∈ sha, isxdigit c = true ∧ tolower c = c

theorem hexDigit_lowerHex {n : Nat} (h : n < 16) :
    isxdigit (hexDigit n) = true ∧ tolower (hexDigit n) = hexDigit n := by
  have hall : ∀ n, n < 16 →
      isxdigit (hexDigit n) = true ∧ tolower (hexDigit n) = hexDigit n := by decide
  exact hall n h

theorem hex20_lowerHex (digest : Bytes) : LowerHex (hex20 digest) := by
  intro c hc
  obtain ⟨b, -, hb⟩ := List.mem_flatMap.mp hc
  have hhigh : b.toNat >>> 4 < 16 := by
    have := b.toNat_lt
    rw [Nat.shiftRight_eq_div_pow]
    omega
  have hlow : b.toNat &&& 15 < 16 := Nat.lt_of_le_of_lt Nat.and_le_right (by omega)
  rcases List.mem_cons.mp hb with rfl | hb
  · exact hexDigit_lowerHex hhigh
  · rw [List.mem_singleton.mp hb]
    exact hexDigit_lowerHex hlow

theorem length_hex20 (digest : Bytes) : (hex20 digest).length = 2 * digest.length := by
  induction digest with
  | nil => rfl
  | cons b digest ih =>
    rw [hex20, List.flatMap_cons, List.length_append] at *
    rw [ih, List.length_cons]
    simp only [List.length_cons, List.length_nil]
    omega

theorem sha1BytesHex_lowerHex (text : Bytes) : LowerHex (sha1BytesHex text) := hex20_lowerHex _

theorem length_sha1BytesHex (text : Bytes) : (sha1BytesHex text).length = 40 := by
  rw [sha1BytesHex, length_hex20]
  rfl

theorem length_kvExt : (bytes ".kv").length = 3 := by decide

/-- The file of a hash is read back as that hash. -/
theorem shaHexName_kvName {sha : Bytes} (hlen : sha.length = 40) (hhex : LowerHex sha) :
    shaHexName (kvName sha) = some sha := by
  have htake : (kvName sha).take 40 = sha := by
    rw [kvName, List.take_left' hlen]
  have hdrop : (kvName sha).drop 40 = bytes ".kv" := by
    rw [kvName, List.drop_left' hlen]
  have hsize : (kvName sha).length = 43 := by
    rw [kvName, List.length_append, hlen, length_kvExt]
  have hmap : sha.map tolower = sha := by
    rw [List.map_congr_left (g := id) fun c hc => (hhex c hc).2, List.map_id]
  rw [shaHexName, if_neg (by simp [hsize, hdrop]), htake,
    if_pos (List.all_eq_true.mpr fun c hc => (hhex c hc).1), hmap]

theorem shaHexName_kvName_sha1 (text : Bytes) :
    shaHexName (kvName (sha1BytesHex text)) = some (sha1BytesHex text) :=
  shaHexName_kvName (length_sha1BytesHex text) (sha1BytesHex_lowerHex text)

/-- A name of another length is no checkpoint's. -/
theorem shaHexName_of_length {name : Bytes} (h : name.length ≠ 43) : shaHexName name = none := by
  rw [shaHexName, if_pos (Or.inl h)]

end Sf37.KvStore

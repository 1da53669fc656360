/-
Sf37.Tokenizer.ByteSymbols — the byte-level alphabet: a character for each byte, written
in UTF-8, and back.

* `utf8PeekOne_byteSymbol`: the character at the front of a byte's symbol is the byte's.
* `decodeSymbols_byteEncode`: what is written in the alphabet is read back.
-/
import Sf37.Text.JsonStrings

namespace Sf37.Tokenizer

open Sf37.Text

/-! ## Bytes and code points -/

/-- The bytes that are their own code points. -/
def gpt2Plain (b : Nat) : Bool :=
  (33 ≤ b && b ≤ 126) || (161 ≤ b && b ≤ 172) || (174 ≤ b && b ≤ 255)

/-- The other bytes, in the order the loops meet them. -/
def gpt2Shifted : List Nat := (List.range 256).filter fun b => !gpt2Plain b

/-- `gpt2_byte_to_codepoint`. -/
def gpt2ByteToCodepoint (b : UInt8) : Nat :=
  if gpt2Plain b.toNat then b.toNat else 256 + gpt2Shifted.idxOf b.toNat

/-- `gpt2_codepoint_to_byte`; `none` is -1. -/
def gpt2CodepointToByte (cp : Nat) : Option UInt8 :=
  if gpt2Plain cp then some (UInt8.ofNat cp)
  else if 256 ≤ cp then gpt2Shifted[cp - 256]?.map UInt8.ofNat
  else none

/-! ## UTF-8 -/

/-- `utf8_put`, the same as `utf8_put_codepoint`. -/
def utf8Put (cp : Nat) : Bytes := utf8PutCodepoint cp

/-- `utf8_len_from_first_byte`. -/
def utf8LenFromFirstByte (c : UInt8) : Nat :=
  if c.toNat < 0x80 then 1
  else if c &&& 0xe0 = 0xc0 then 2
  else if c &&& 0xf0 = 0xe0 then 3
  else if c &&& 0xf8 = 0xf0 then 4
  else 1

/-- The count of bytes both readers take of what is left, which is not empty. -/
def utf8CharLen (p : Bytes) : Nat :=
  let n := utf8LenFromFirstByte (p.headD 0)
  if p.length < n then 1 else n

/-- `next_utf8_char`, from `pos` on. -/
def nextUtf8Char (p : Bytes) : Nat := utf8CharLen p

/-- The low bits of the byte at a place, shifted. -/
def utf8Bits (p : Bytes) (i mask shift : Nat) : Nat := ((p.getD i 0).toNat % mask) * shift

/-- `utf8_peek_one`, from `pos` on: the code point and the count of bytes. -/
def utf8PeekOne (p : Bytes) : Nat × Nat :=
  let n := utf8CharLen p
  if n = 1 then ((p.headD 0).toNat, 1)
  else if n = 2 then (utf8Bits p 0 0x20 64 + utf8Bits p 1 0x40 1, 2)
  else if n = 3 then (utf8Bits p 0 0x10 4096 + utf8Bits p 1 0x40 64 + utf8Bits p 2 0x40 1, 3)
  else (utf8Bits p 0 0x08 262144 + utf8Bits p 1 0x40 4096 + utf8Bits p 2 0x40 64 +
    utf8Bits p 3 0x40 1, n)

/-- The symbol of a byte. -/
def byteSymbol (b : UInt8) : Bytes := utf8Put (gpt2ByteToCodepoint b)

/-- `byte_encode`. -/
def byteEncode (p : Bytes) : Bytes := p.flatMap byteSymbol

/-- The loop of `sf37_token_text` over the text of a token that was not added. -/
def decodeSymbols : Nat → Bytes → Bytes
  | _, [] => []
  | 0, _ :: _ => []
  | fuel + 1, c :: p =>
    let (cp, n) := utf8PeekOne (c :: p)
    (match gpt2CodepointToByte cp with
      | some b => [b]
      | none => (c :: p).take n) ++ decodeSymbols fuel ((c :: p).drop n)

/-- The loop of `bpe_emit_piece` that cuts a text into characters. -/
def splitSymbols : Nat → Bytes → List Bytes
  | _, [] => []
  | 0, _ :: _ => []
  | fuel + 1, c :: p =>
    (c :: p).take (utf8CharLen (c :: p)) ::
      splitSymbols fuel ((c :: p).drop (utf8CharLen (c :: p)))

/-! ## The symbols -/

/-- The symbol is one or two bytes long as its first byte says, and spells the byte. -/
def SymbolOf (b : UInt8) : Bytes → Prop
  | [c] => utf8LenFromFirstByte c = 1 ∧ gpt2CodepointToByte c.toNat = some b
  | [c, d] => utf8LenFromFirstByte c = 2 ∧
      gpt2CodepointToByte (c.toNat % 0x20 * 64 + d.toNat % 0x40 * 1) = some b
  | _ => False

instance (b : UInt8) (p : Bytes) : Decidable (SymbolOf b p) := by
  unfold SymbolOf
  split <;> infer_instance

theorem symbolOf_byteSymbol (b : UInt8) : SymbolOf b (byteSymbol b) := by
  have hall : ∀ b : UInt8, SymbolOf b (byteSymbol b) := forall_byte (by decide +kernel)
  exact hall b

theorem byteSymbol_ne_nil (b : UInt8) : byteSymbol b ≠ [] := by
  intro h
  have hs := symbolOf_byteSymbol b
  rw [h] at hs
  exact hs

/-- The character at the front of a symbol is the symbol. -/
theorem utf8CharLen_byteSymbol (b : UInt8) (r : Bytes) :
    utf8CharLen (byteSymbol b ++ r) = (byteSymbol b).length := by
  have hs := symbolOf_byteSymbol b
  match byteSymbol b, hs with
  | [c], ⟨hlen, _⟩ =>
    simp only [utf8CharLen, List.cons_append, List.headD_cons, hlen]
    exact if_neg (by simp)
  | [c, d], ⟨hlen, _⟩ =>
    simp only [utf8CharLen, List.cons_append, List.headD_cons, hlen]
    exact if_neg (by simp)

/-- And it is the byte's. -/
theorem utf8PeekOne_byteSymbol (b : UInt8) (r : Bytes) :
    (utf8PeekOne (byteSymbol b ++ r)).2 = (byteSymbol b).length ∧
      gpt2CodepointToByte (utf8PeekOne (byteSymbol b ++ r)).1 = some b := by
  have hlen := utf8CharLen_byteSymbol b r
  have hs := symbolOf_byteSymbol b
  unfold utf8PeekOne
  rw [hlen]
  match byteSymbol b, hs with
  | [c], ⟨_, hcp⟩ => exact ⟨rfl, hcp⟩
  | [c, d], ⟨_, hcp⟩ => exact ⟨rfl, hcp⟩

theorem byteEncode_cons (b : UInt8) (p : Bytes) :
    byteEncode (b :: p) = byteSymbol b ++ byteEncode p := rfl

/-- The encoding is cut into the symbols of its bytes. -/
theorem splitSymbols_byteEncode (p : Bytes) {fuel : Nat} (h : (byteEncode p).length ≤ fuel) :
    splitSymbols fuel (byteEncode p) = p.map byteSymbol := by
  induction p generalizing fuel with
  | nil => cases fuel <;> rfl
  | cons b p ih =>
    have hpos : 0 < (byteSymbol b).length := List.length_pos_iff.mpr (byteSymbol_ne_nil b)
    rw [byteEncode_cons, List.length_append] at h
    match fuel, h with
    | 0, h => omega
    | fuel + 1, h =>
      have hne : byteSymbol b ++ byteEncode p ≠ [] := by
        intro hnil
        exact byteSymbol_ne_nil b (List.append_eq_nil_iff.mp hnil).1
      obtain ⟨c, q, hq⟩ := List.exists_cons_of_ne_nil hne
      rw [byteEncode_cons, hq, splitSymbols, ← hq, utf8CharLen_byteSymbol, List.take_left,
        List.drop_left, ih (by omega), List.map_cons]

/-- What is written in the alphabet is read back. -/
theorem decodeSymbols_byteEncode (p : Bytes) {fuel : Nat} (h : (byteEncode p).length ≤ fuel) :
    decodeSymbols fuel (byteEncode p) = p := by
  induction p generalizing fuel with
  | nil => cases fuel <;> rfl
  | cons b p ih =>
    have hpos : 0 < (byteSymbol b).length := List.length_pos_iff.mpr (byteSymbol_ne_nil b)
    rw [byteEncode_cons, List.length_append] at h
    match fuel, h with
    | 0, h => omega
    | fuel + 1, h =>
      have hne : byteSymbol b ++ byteEncode p ≠ [] := by
        intro hnil
        exact byteSymbol_ne_nil b (List.append_eq_nil_iff.mp hnil).1
      obtain ⟨c, q, hq⟩ := List.exists_cons_of_ne_nil hne
      obtain ⟨hn, hcp⟩ := utf8PeekOne_byteSymbol b (byteEncode p)
      rw [byteEncode_cons, hq, decodeSymbols, ← hq]
      simp only [hn, hcp, List.drop_left]
      rw [ih (by omega)]
      rfl

theorem byteEncode_injective : Function.Injective byteEncode := by
  intro p q h
  have hp := decodeSymbols_byteEncode p (le_refl (byteEncode p).length)
  have hq := decodeSymbols_byteEncode q (le_refl (byteEncode q).length)
  rw [← hp, ← hq, h]

theorem byteEncode_append (p q : Bytes) : byteEncode (p ++ q) = byteEncode p ++ byteEncode q :=
  List.flatMap_append

end Sf37.Tokenizer

/-
Sf37.Tokenizer.Pieces — the pre-tokenizer of `bpe_tokenize_text`: nine branches that each
take a piece off the front of what is left.

The functions below look at the text from `pos` on, and what they return is how far `pos`
moves.

* `pieceLen_pos`: a piece has a byte.
* `flatten_bpePieces`: the pieces are the text.
-/
import Sf37.Tokenizer.ByteSymbols

namespace Sf37.Tokenizer

open Sf37.Text

/-! ## Classes of bytes -/

/-- `ascii_alpha`. -/
def asciiAlpha (c : UInt8) : Bool := (0x41 ≤ c && c ≤ 0x5a) || (0x61 ≤ c && c ≤ 0x7a)

/-- `ascii_digit`. -/
def asciiDigit (c : UInt8) : Bool := 0x30 ≤ c && c ≤ 0x39

/-- `ascii_space`. -/
def asciiSpace (c : UInt8) : Bool :=
  c == 0x20 || c == 0x09 || c == 0x0a || c == 0x0d || c == 0x0b || c == 0x0c

/-- `ascii_newline`. -/
def asciiNewline (c : UInt8) : Bool := c == 0x0a || c == 0x0d

/-- `joyai_ascii_punct_symbol`. -/
def joyaiAsciiPunctSymbol (c : UInt8) : Bool :=
  (0x21 ≤ c && c ≤ 0x2f) || (0x3a ≤ c && c ≤ 0x40) || (0x5b ≤ c && c ≤ 0x60) ||
    (0x7b ≤ c && c ≤ 0x7e)

/-- `utf8_is_cjk_hira_kata`. -/
def utf8IsCjkHiraKata (cp : Nat) : Bool :=
  (0x4e00 ≤ cp && cp ≤ 0x9fa5) || (0x3040 ≤ cp && cp ≤ 0x309f) || (0x30a0 ≤ cp && cp ≤ 0x30ff)

/-! ## Runs -/

/-- `pos < len` and a test of the byte at `pos`. -/
def byteAt (test : UInt8 → Bool) : Bytes → Bool
  | [] => false
  | c :: _ => test c

/-- `joyai_letter_like_at`, with `pos < len`. -/
def joyaiLetterLikeAt : Bytes → Bool :=
  byteAt fun c => if c.toNat < 128 then asciiAlpha c else true

/-- `joyai_cjk_at`, with `pos < len`. -/
def joyaiCjkAt (p : Bytes) : Bool :=
  byteAt (fun c => 128 ≤ c.toNat) p && utf8IsCjkHiraKata (utf8PeekOne p).1

/-- `while (pos < len && test(pos)) pos = next_utf8_char(pos)`. -/
def consumeChars (test : Bytes → Bool) : Nat → Bytes → Nat
  | 0, _ => 0
  | fuel + 1, p =>
    if test p then nextUtf8Char p + consumeChars test fuel (p.drop (nextUtf8Char p)) else 0

/-- `joyai_consume_letters`. -/
def joyaiConsumeLetters (p : Bytes) : Nat := consumeChars joyaiLetterLikeAt p.length p

/-- `while (pos < len && test(text[pos])) pos++`. -/
def consumeBytes (test : UInt8 → Bool) (p : Bytes) : Nat := (p.takeWhile test).length

/-- Punctuation and the line breaks behind it. -/
def consumePunct (p : Bytes) : Nat :=
  let n := consumeBytes joyaiAsciiPunctSymbol p
  n + consumeBytes asciiNewline (p.drop n)

/-- `last_newline_end` after the loop over white space; zero is none. -/
def lastNewlineEnd : Nat → Nat → Bytes → Nat
  | _, last, [] => last
  | i, last, c :: p => lastNewlineEnd (i + 1) (if asciiNewline c then i + 1 else last) p

/-- The branch for white space. -/
def spaceLen (p : Bytes) : Nat :=
  let n := consumeBytes asciiSpace p
  let last := lastNewlineEnd 0 0 (p.take n)
  if last ≠ 0 then last
  else if 1 < n ∧
      (joyaiLetterLikeAt (p.drop n) ∨ byteAt joyaiAsciiPunctSymbol (p.drop n)) then n - 1
  else n

/-- The branches of `bpe_tokenize_text`, at a byte `c` with `p` behind it. -/
def branchLen (c : UInt8) (p : Bytes) : Nat :=
  if asciiDigit c then consumeBytes asciiDigit ((c :: p).take 3)
  else if joyaiCjkAt (c :: p) then
    let n := nextUtf8Char (c :: p)
    n + consumeChars joyaiCjkAt (c :: p).length ((c :: p).drop n)
  else if joyaiAsciiPunctSymbol c ∧ byteAt asciiAlpha p then 1 + consumeBytes asciiAlpha p
  else if joyaiLetterLikeAt (c :: p) then joyaiConsumeLetters (c :: p)
  else if ¬ asciiNewline c ∧ ¬ joyaiAsciiPunctSymbol c ∧ joyaiLetterLikeAt p then
    1 + joyaiConsumeLetters p
  else if c = 0x20 ∧ byteAt joyaiAsciiPunctSymbol p then 1 + consumePunct p
  else if joyaiAsciiPunctSymbol c then consumePunct (c :: p)
  else if asciiSpace c then spaceLen (c :: p)
  else nextUtf8Char (c :: p)

/-- The length of the piece at the front: `if (pos == start)` takes one character. -/
def pieceLen (c : UInt8) (p : Bytes) : Nat :=
  if branchLen c p = 0 then nextUtf8Char (c :: p) else branchLen c p

/-- The pieces of a text. -/
def bpePieces : Nat → Bytes → List Bytes
  | _, [] => []
  | 0, _ :: _ => []
  | fuel + 1, c :: p =>
    (c :: p).take (pieceLen c p) :: bpePieces fuel ((c :: p).drop (pieceLen c p))

/-! ## Pieces are in the text -/

theorem utf8LenFromFirstByte_pos (c : UInt8) : 0 < utf8LenFromFirstByte c := by
  unfold utf8LenFromFirstByte
  split_ifs <;> exact Nat.succ_pos _

theorem utf8CharLen_pos (p : Bytes) : 0 < utf8CharLen p := by
  unfold utf8CharLen
  simp only
  split
  · exact Nat.one_pos
  · exact utf8LenFromFirstByte_pos _

theorem pieceLen_pos (c : UInt8) (p : Bytes) : 0 < pieceLen c p := by
  unfold pieceLen
  split
  · exact utf8CharLen_pos _
  · omega

/-- The pieces are the text. -/
theorem flatten_bpePieces {fuel : Nat} {p : Bytes} (h : p.length ≤ fuel) :
    (bpePieces fuel p).flatten = p := by
  induction fuel generalizing p with
  | zero =>
    obtain rfl := List.length_eq_zero_iff.mp (Nat.le_zero.mp h)
    rfl
  | succ fuel ih =>
    match p, h with
    | [], _ => rfl
    | c :: p, h =>
      have hpos := pieceLen_pos c p
      have hrest : ((c :: p).drop (pieceLen c p)).length ≤ fuel := by
        rw [List.length_drop]
        omega
      rw [bpePieces, List.flatten_cons, ih hrest, List.take_append_drop]

end Sf37.Tokenizer

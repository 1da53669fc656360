/-
Sf37.Text.JsonLiteral — the code points of a string literal, and what the reader makes of them.

A literal is read as the RFC reads it: characters, escapes of one letter, and `\u` escapes that
are UTF-16 code units, of which a high and a low surrogate join. The reader encodes the code
points in UTF-8, a lone surrogate as if it were a character, and hands back a C string.

* `Literal.stringBody`: what the code points come to is what the reader is told to read.
* `utf8_inj`: the encoding can be taken apart again.
* `jsonString_literal`: what is read back of a text that was escaped, and of a literal.
-/
import Sf37.Text.JsonStrings

namespace Sf37.Text

/-! ## Literals -/

/-- A character of a literal, or a `\u` escape. -/
inductive Piece where
  | point (cp : Nat)
  | unit (u : Nat)
  deriving DecidableEq, Repr

/-- The escapes of one letter, with the code points they stand for. -/
def rfcEscapes : List (UInt8 × Nat) :=
  [(0x22, 0x22), (0x5c, 0x5c), (0x2f, 0x2f), (0x62, 0x08), (0x66, 0x0c), (0x6e, 0x0a), (0x72, 0x0d),
    (0x74, 0x09)]

/-- Four hexadecimal digits. -/
structure HexDigits (h : Bytes) : Prop where
  four : h.length = 4
  digits : ∀ c ∈ h, isHexDigit c = true

/-- The text between the quotes of a literal, in UTF-8, and its pieces. -/
inductive Literal : Bytes → List Piece → Prop
  | nil : Literal [] []
  | char {c : Char} {b : Bytes} {ps : List Piece} (hc : 0x20 ≤ c.toNat) (hquote : c ≠ '"')
      (hback : c ≠ '\\') (h : Literal b ps) :
      Literal (String.utf8EncodeChar c ++ b) (.point c.toNat :: ps)
  | escape {e : UInt8} {cp : Nat} {b : Bytes} {ps : List Piece} (he : (e, cp) ∈ rfcEscapes)
      (h : Literal b ps) : Literal (0x5c :: e :: b) (.point cp :: ps)
  | unicode {d b : Bytes} {ps : List Piece} (hd : HexDigits d) (h : Literal b ps) :
      Literal (0x5c :: 0x75 :: (d ++ b)) (.unit (digitsValue 16 d) :: ps)

/-- The first half of a pair of code units. -/
def HighSurrogate (u : Nat) : Prop := 0xd800 ≤ u ∧ u ≤ 0xdbff

/-- The second half. -/
def LowSurrogate (u : Nat) : Prop := 0xdc00 ≤ u ∧ u ≤ 0xdfff

instance (u : Nat) : Decidable (HighSurrogate u) := inferInstanceAs (Decidable (_ ∧ _))

instance (u : Nat) : Decidable (LowSurrogate u) := inferInstanceAs (Decidable (_ ∧ _))

/-- A code point that is no character. -/
def Surrogate (cp : Nat) : Prop := 0xd800 ≤ cp ∧ cp ≤ 0xdfff

/-- The code points of a literal: two code units that are a pair are one. -/
def codePoints : List Piece → List Nat
  | [] => []
  | .point cp :: ps => cp :: codePoints ps
  | .unit hi :: .unit lo :: ps =>
      if HighSurrogate hi ∧ LowSurrogate lo then
        (0x10000 + (hi - 0xd800) * 0x400 + (lo - 0xdc00)) :: codePoints ps
      else hi :: codePoints (.unit lo :: ps)
  | .unit u :: ps => u :: codePoints ps

/-- Code points in UTF-8, surrogates as if they were characters. -/
def utf8 (cps : List Nat) : Bytes := cps.flatMap utf8PutCodepoint

@[simp] theorem utf8_nil : utf8 [] = [] := rfl

@[simp] theorem utf8_cons (cp : Nat) (cps : List Nat) :
    utf8 (cp :: cps) = utf8PutCodepoint cp ++ utf8 cps := rfl

/-! ## The reader on a literal -/

theorem char_valid (c : Char) : c.toNat < 0x110000 ∧ ¬ Surrogate c.toNat := by
  have h : c.toNat.isValidChar := c.valid
  unfold Nat.isValidChar at h
  unfold Surrogate
  omega

/-- A character is encoded as the reader encodes its code point. -/
theorem utf8PutCodepoint_char (c : Char) :
    utf8PutCodepoint c.toNat = String.utf8EncodeChar c := by
  have hval : c.val.toNat = c.toNat := rfl
  have hmax := (char_valid c).1
  simp only [String.utf8EncodeChar, utf8PutCodepoint, hval]
  -- the two codings write the marker bits on different sides of a sum
  have hbyte : ∀ {m n : Nat}, m = n → UInt8.ofNat m = UInt8.ofNat n := congrArg _
  split_ifs <;> simp only [List.cons.injEq, and_true]
  · exact ⟨hbyte (by omega), hbyte (by omega)⟩
  · exact ⟨hbyte (by omega), hbyte (by omega), hbyte (by omega)⟩
  · exact ⟨hbyte (by omega), hbyte (by omega), hbyte (by omega), hbyte (by omega)⟩

theorem jsonSimpleEscape_of_mem {e : UInt8} {cp : Nat} (h : (e, cp) ∈ rfcEscapes) :
    jsonSimpleEscape e = some (UInt8.ofNat cp) ∧ cp ≤ 0x7f ∧ e ≠ 0x75 := by
  simp only [rfcEscapes, List.mem_cons, Prod.mk.injEq, List.not_mem_nil, or_false] at h
  rcases h with ⟨rfl, rfl⟩ | ⟨rfl, rfl⟩ | ⟨rfl, rfl⟩ | ⟨rfl, rfl⟩ | ⟨rfl, rfl⟩ | ⟨rfl, rfl⟩ |
    ⟨rfl, rfl⟩ | ⟨rfl, rfl⟩ <;> decide

theorem hexValue_lt {c : UInt8} (h : isHexDigit c = true) :
    ∃ n, hexValue c = some n ∧ n < 16 := by
  rw [isHexDigit_iff] at h
  unfold hexValue
  simp only [UInt8.le_iff_toNat_le]
  split_ifs with hd hl hu
  · exact ⟨_, rfl, by simp at hd; omega⟩
  · exact ⟨_, rfl, by simp at hl; omega⟩
  · exact ⟨_, rfl, by simp at hu; omega⟩
  · simp at hd hl hu
    omega

/-- Four digits are a code unit. -/
theorem jsonHex4_digits {d : Bytes} (h : HexDigits d) (b : Bytes) :
    jsonHex4 (d ++ b) = some (digitsValue 16 d) ∧ digitsValue 16 d ≤ 0xffff := by
  match d, h.four with
  | [x, y, z, t], _ =>
    obtain ⟨x', hx, hx'⟩ := hexValue_lt (h.digits x (by simp))
    obtain ⟨y', hy, hy'⟩ := hexValue_lt (h.digits y (by simp))
    obtain ⟨z', hz, hz'⟩ := hexValue_lt (h.digits z (by simp))
    obtain ⟨t', ht, ht'⟩ := hexValue_lt (h.digits t (by simp))
    have hvalue : digitsValue 16 [x, y, z, t] = ((x' * 16 + y') * 16 + z') * 16 + t' := by
      simp [digitsValue, hx, hy, hz, ht]
    rw [hvalue]
    refine ⟨?_, by omega⟩
    simp [jsonHex4, hx, hy, hz, ht]

/-- A code unit that is no high surrogate, or that no `\\u` escape of a low one follows, is read
alone. -/
theorem jsonUnicodeEscape_single {d b : Bytes} (h : HexDigits d)
    (hlone : ∀ lo, HighSurrogate (digitsValue 16 d) → startsWith b (bytes "\\u") = true →
      jsonHex4 (b.drop 2) = some lo → ¬ LowSurrogate lo) :
    jsonUnicodeEscape (d ++ b) = some (utf8PutCodepoint (digitsValue 16 d), b) := by
  have hdrop : (d ++ b).drop 4 = b := by rw [← h.four, List.drop_left]
  rw [jsonUnicodeEscape, (jsonHex4_digits h b).1]
  simp only [hdrop]
  split_ifs with hpair
  · obtain ⟨hle, hge, hstart⟩ := hpair
    cases hlo : jsonHex4 (b.drop 2) with
    | none => rfl
    | some lo => exact if_neg (hlone lo ⟨hle, hge⟩ hstart hlo)
  · rfl

/-- Two code units that are a pair are read together. -/
theorem jsonUnicodeEscape_pair {d d' b : Bytes} (h : HexDigits d) (h' : HexDigits d')
    (hhi : HighSurrogate (digitsValue 16 d)) (hlo : LowSurrogate (digitsValue 16 d')) :
    jsonUnicodeEscape (d ++ 0x5c :: 0x75 :: (d' ++ b)) =
      some (utf8PutCodepoint (0x10000 + (digitsValue 16 d - 0xd800) * 0x400 +
        (digitsValue 16 d' - 0xdc00)), b) := by
  have hdrop : (d ++ 0x5c :: 0x75 :: (d' ++ b)).drop 4 = 0x5c :: 0x75 :: (d' ++ b) := by
    rw [← h.four, List.drop_left]
  have hrest : (0x5c :: 0x75 :: (d' ++ b)).drop 6 = b := by
    have hlen : 6 = d'.length + 2 := by rw [h'.four]
    rw [hlen, List.drop_succ_cons, List.drop_succ_cons, List.drop_left]
  have hstart : startsWith (0x5c :: 0x75 :: (d' ++ b)) (bytes "\\u") = true := rfl
  have hnext : jsonHex4 ((0x5c :: 0x75 :: (d' ++ b)).drop 2) = some (digitsValue 16 d') :=
    (jsonHex4_digits h' b).1
  rw [jsonUnicodeEscape, (jsonHex4_digits h _).1]
  simp only [hdrop, hrest, hnext]
  rw [if_pos ⟨hhi.1, hhi.2, hstart⟩, if_pos ⟨hlo.1, hlo.2⟩]

theorem utf8PutCodepoint_ne_nil (cp : Nat) : utf8PutCodepoint cp ≠ [] := by
  unfold utf8PutCodepoint
  split_ifs <;> simp

/-- The text of a piece that is no code unit does not look like one. -/
theorem Literal.noUnit {b : Bytes} {ps : List Piece} (h : Literal b ps)
    (hps : ∀ u qs, ps ≠ .unit u :: qs) : startsWith b (bytes "\\u") = false := by
  have hlit : bytes "\\u" = [0x5c, 0x75] := by decide
  rw [hlit]
  cases h with
  | nil => rfl
  | @char c b ps hc hquote hback h =>
    have hplain : RfcPlain (String.utf8EncodeChar c) := ⟨c, rfl, hc, hquote, hback⟩
    have hne := utf8PutCodepoint_ne_nil c.toNat
    rw [utf8PutCodepoint_char] at hne
    obtain ⟨x, t, hx⟩ := List.exists_cons_of_ne_nil hne
    have hhead := (hplain.bytes x (by rw [hx]; exact List.mem_cons_self)).2.1
    rw [hx]
    simp [startsWith, hhead.symm]
  | escape he h => simp [startsWith, (jsonSimpleEscape_of_mem he).2.2.symm]
  | unicode hd h => exact absurd rfl (hps _ _)

/-- The reader gets the code points of a literal. -/
theorem Literal.stringBody {b : Bytes} {ps : List Piece} (h : Literal b ps) :
    StringBody RfcPlain b (utf8 (codePoints ps)) := by
  induction ps using codePoints.induct generalizing b with
  | case1 =>
    cases h
    exact .nil
  | case2 cp ps ih =>
    cases h with
    | @char c b ps hc hquote hback h =>
      rw [codePoints, utf8_cons, utf8PutCodepoint_char]
      exact .plain ⟨c, rfl, hc, hquote, hback⟩ (ih h)
    | escape he h =>
      obtain ⟨hread, hascii, -⟩ := jsonSimpleEscape_of_mem he
      rw [codePoints, utf8_cons, utf8PutCodepoint, if_pos hascii]
      exact .escape hread (ih h)
  | case3 hi lo ps hpair ih =>
    cases h with
    | @unicode d b ps hd h =>
      cases h with
      | @unicode d' b ps hd' h =>
        rw [codePoints, if_pos hpair, utf8_cons]
        have hread := jsonUnicodeEscape_pair (b := b) hd hd' hpair.1 hpair.2
        have hsplit : d ++ 0x5c :: 0x75 :: (d' ++ b) = (d ++ 0x5c :: 0x75 :: d') ++ b := by simp
        rw [hsplit] at hread ⊢
        exact .unicode hread (ih h)
  | case4 hi lo ps hpair ih =>
    cases h with
    | @unicode d b ps hd h =>
      rw [codePoints, if_neg hpair, utf8_cons]
      refine .unicode (jsonUnicodeEscape_single hd ?_) (ih h)
      intro lo' hhi _ hnext hlow
      cases h with
      | @unicode d' b ps hd' h =>
        have hdigits : jsonHex4 (d' ++ b) = some lo' := hnext
        rw [(jsonHex4_digits hd' b).1] at hdigits
        cases hdigits
        exact hpair ⟨hhi, hlow⟩
  | case5 u ps hps ih =>
    cases h with
    | @unicode d b ps hd h =>
      rw [codePoints, utf8_cons]
      · refine .unicode (jsonUnicodeEscape_single hd ?_) (ih h)
        intro lo _ hstart
        rw [h.noUnit hps] at hstart
        cases hstart
      · exact hps

/-- No code point of a literal is past the last one. -/
theorem Literal.bounded {b : Bytes} {ps : List Piece} (h : Literal b ps) :
    ∀ cp ∈ codePoints ps, cp < 0x110000 := by
  have hpoint : ∀ p ∈ ps, match p with
      | .point cp => cp < 0x110000
      | .unit u => u ≤ 0xffff := by
    induction h with
    | nil => exact nofun
    | @char c b ps hc hquote hback h ih =>
      exact List.forall_mem_cons.mpr ⟨(char_valid c).1, ih⟩
    | escape he h ih =>
      have hascii := (jsonSimpleEscape_of_mem he).2.1
      exact List.forall_mem_cons.mpr ⟨by simp only; omega, ih⟩
    | unicode hd h ih => exact List.forall_mem_cons.mpr ⟨(jsonHex4_digits hd []).2, ih⟩
  clear h
  induction ps using codePoints.induct with
  | case1 => exact nofun
  | case2 cp ps ih =>
    have hps := List.forall_mem_cons.mp hpoint
    exact List.forall_mem_cons.mpr ⟨hps.1, ih hps.2⟩
  | case3 hi lo ps hpair ih =>
    have hps := List.forall_mem_cons.mp hpoint
    have hlow := List.forall_mem_cons.mp hps.2
    obtain ⟨⟨hge, hle⟩, hge', hle'⟩ := hpair
    rw [codePoints, if_pos ⟨⟨hge, hle⟩, hge', hle'⟩]
    exact List.forall_mem_cons.mpr ⟨by omega, ih hlow.2⟩
  | case4 hi lo ps hpair ih =>
    have hps := List.forall_mem_cons.mp hpoint
    have hunit : hi ≤ 0xffff := hps.1
    rw [codePoints, if_neg hpair]
    exact List.forall_mem_cons.mpr ⟨by omega, ih hps.2⟩
  | case5 u ps hps' ih =>
    have hps := List.forall_mem_cons.mp hpoint
    have hunit : u ≤ 0xffff := hps.1
    rw [codePoints]
    · exact List.forall_mem_cons.mpr ⟨by omega, ih hps.2⟩
    · exact hps'

/-! ## Taking the encoding apart -/

theorem ofNat_eq_iff (m n : Nat) : UInt8.ofNat m = UInt8.ofNat n ↔ m % 256 = n % 256 := by
  rw [← UInt8.toNat_inj, UInt8.toNat_ofNat', UInt8.toNat_ofNat']

/-- The first code point of a text is known from its bytes. -/
theorem utf8PutCodepoint_append_inj {cp cp' : Nat} {r r' : Bytes} (hcp : cp < 0x110000)
    (hcp' : cp' < 0x110000) (h : utf8PutCodepoint cp ++ r = utf8PutCodepoint cp' ++ r') :
    cp = cp' ∧ r = r' := by
  unfold utf8PutCodepoint at h
  split_ifs at h <;>
    simp only [List.cons_append, List.nil_append, List.cons.injEq, ofNat_eq_iff] at h
  -- the first byte tells the length
  all_goals try (exfalso; omega)
  · exact ⟨by omega, h.2⟩
  · exact ⟨by omega, h.2.2⟩
  · exact ⟨by omega, h.2.2.2⟩
  · exact ⟨by omega, h.2.2.2.2⟩

theorem utf8_inj {cps cps' : List Nat} (h : ∀ cp ∈ cps, cp < 0x110000)
    (h' : ∀ cp ∈ cps', cp < 0x110000) (heq : utf8 cps = utf8 cps') : cps = cps' := by
  induction cps generalizing cps' with
  | nil =>
    cases cps' with
    | nil => rfl
    | cons cp' cps' =>
      have hnil := (List.append_eq_nil_iff.mp heq.symm).1
      exact absurd hnil (utf8PutCodepoint_ne_nil cp')
  | cons cp cps ih =>
    cases cps' with
    | nil => exact absurd (List.append_eq_nil_iff.mp heq).1 (utf8PutCodepoint_ne_nil cp)
    | cons cp' cps' =>
      obtain ⟨hcp, hcps⟩ := List.forall_mem_cons.mp h
      obtain ⟨hcp', hcps'⟩ := List.forall_mem_cons.mp h'
      obtain ⟨rfl, hrest⟩ := utf8PutCodepoint_append_inj hcp hcp' heq
      rw [ih hcps hcps' hrest]

/-- The encoding is UTF-8 when it encodes characters, and only then. -/
theorem validUtf8_utf8_iff {cps : List Nat} (h : ∀ cp ∈ cps, cp < 0x110000) :
    ValidUtf8 (utf8 cps) ↔ ∀ cp ∈ cps, ¬ Surrogate cp := by
  have hchars : ∀ cs : List Char,
      cs.flatMap String.utf8EncodeChar = utf8 (cs.map Char.toNat) := by
    intro cs
    rw [utf8, List.flatMap_map]
    exact List.flatMap_congr fun c _ => (utf8PutCodepoint_char c).symm
  constructor
  · rintro ⟨cs, hcs⟩ cp hcp
    rw [hchars] at hcs
    have hbound : ∀ cp ∈ cs.map Char.toNat, cp < 0x110000 := by
      intro cp hcp
      obtain ⟨c, -, rfl⟩ := List.mem_map.mp hcp
      exact (char_valid c).1
    rw [utf8_inj h hbound hcs] at hcp
    obtain ⟨c, -, rfl⟩ := List.mem_map.mp hcp
    exact (char_valid c).2
  · intro hcps
    refine ⟨cps.map Char.ofNat, ?_⟩
    rw [hchars, List.map_map, List.map_congr_left, List.map_id]
    intro cp hcp
    have hchar : cp.isValidChar := by
      have hlt := h cp hcp
      have hno := hcps cp hcp
      unfold Surrogate at hno
      unfold Nat.isValidChar
      omega
    rw [Function.comp_apply, Char.ofNat, dif_pos hchar]
    rfl

/-! ## A C string of code points -/

/-- Only U+0000 is encoded with a NUL. -/
theorem utf8PutCodepoint_nulFree {cp : Nat} (hcp : cp < 0x110000) (hzero : cp ≠ 0) :
    NulFree (utf8PutCodepoint cp) := by
  have hbyte : (0 : UInt8) = UInt8.ofNat 0 := rfl
  unfold utf8PutCodepoint NulFree
  rw [hbyte]
  split_ifs <;> simp only [List.mem_cons, List.not_mem_nil, or_false, ofNat_eq_iff] <;> omega

/-- A C string shows the code points before the first U+0000. -/
theorem cstr_utf8 {cps : List Nat} (h : ∀ cp ∈ cps, cp < 0x110000) :
    cstr (utf8 cps) = utf8 (cps.takeWhile (· ≠ 0)) := by
  induction cps with
  | nil => rfl
  | cons cp cps ih =>
    obtain ⟨hcp, hcps⟩ := List.forall_mem_cons.mp h
    by_cases hzero : cp = 0
    · subst hzero
      rfl
    · have hfree := utf8PutCodepoint_nulFree hcp hzero
      rw [utf8_cons, List.takeWhile_cons_of_pos (by simpa using hzero), utf8_cons, ← ih hcps]
      refine List.takeWhile_append_of_pos ?_
      intro c hc
      have hne : c ≠ 0 := fun heq => hfree (heq ▸ hc)
      simpa using hne

/-- All of them when there is none. -/
theorem utf8_takeWhile_iff {cps : List Nat} (h : ∀ cp ∈ cps, cp < 0x110000) :
    utf8 (cps.takeWhile (· ≠ 0)) = utf8 cps ↔ ∀ cp ∈ cps, cp ≠ 0 := by
  have hbound : ∀ cp ∈ cps.takeWhile (· ≠ 0), cp < 0x110000 :=
    fun cp hcp => h cp (List.takeWhile_subset _ hcp)
  constructor
  · intro heq
    have hall := List.takeWhile_eq_self_iff.mp (utf8_inj hbound h heq)
    simpa using hall
  · intro hall
    rw [List.takeWhile_eq_self_iff.mpr (by simpa using hall)]

/-! ## The two together -/

/-- What was escaped is read back, whatever follows. -/
theorem jsonString_jsonEscape {s : Bytes} (hs : NulFree s) (r : Bytes) :
    jsonString (jsonEscape s ++ r) = some (s, r) := by
  rw [jsonEscape_eq_quoted, jsonString_quoted (escaped_any s), cstr_iff.mpr hs]

/-- A text that was escaped is read back. A literal is read as the code points before the first
U+0000, in UTF-8; that is read back of its own escape, and it is all of them and UTF-8 exactly
when the literal denotes neither U+0000 nor a lone surrogate. -/
theorem jsonString_literal {s b : Bytes} {ps : List Piece} (hs : NulFree s) (hb : Literal b ps)
    (r r' : Bytes) :
    jsonString (jsonEscape s ++ r) = some (s, r) ∧
      ∃ v, jsonString (quoted b ++ r) = some (v, r) ∧
        v = utf8 ((codePoints ps).takeWhile (· ≠ 0)) ∧
        jsonString (jsonEscape v ++ r') = some (v, r') ∧
        (v = utf8 (codePoints ps) ∧ ValidUtf8 v ↔
          ∀ cp ∈ codePoints ps, cp ≠ 0 ∧ ¬ Surrogate cp) := by
  refine ⟨jsonString_jsonEscape hs r, cstr (utf8 (codePoints ps)), ?_, cstr_utf8 hb.bounded, ?_, ?_⟩
  · exact jsonString_quoted hb.stringBody.any r
  · exact jsonString_jsonEscape (nulFree_cstr _) r'
  · rw [cstr_utf8 hb.bounded, utf8_takeWhile_iff hb.bounded, forall₂_and]
    refine and_congr_right fun hzero => ?_
    rw [(utf8_takeWhile_iff hb.bounded).mpr hzero]
    exact validUtf8_utf8_iff hb.bounded

/-- The escape of a line, and a letter, a pair of code units and an escape of one letter. -/
theorem jsonString_literal_pair :
    jsonString (jsonEscape (bytes "a\n") ++ bytes ",") = some (bytes "a\n", bytes ",") ∧
      ∃ v, jsonString (quoted (bytes "a\\ud83d\\uDE00\\/") ++ bytes ",") = some (v, bytes ",") ∧
        v = utf8 ((codePoints [.point 0x61, .unit 0xd83d, .unit 0xde00, .point 0x2f]).takeWhile
          (· ≠ 0)) ∧
        jsonString (jsonEscape v ++ []) = some (v, []) ∧
        (v = utf8 (codePoints [.point 0x61, .unit 0xd83d, .unit 0xde00, .point 0x2f]) ∧
            ValidUtf8 v ↔
          ∀ cp ∈ codePoints [.point 0x61, .unit 0xd83d, .unit 0xde00, .point 0x2f],
            cp ≠ 0 ∧ ¬ Surrogate cp) := by
  have hescape : Literal (bytes "\\/") [.point 0x2f] :=
    .escape (e := 0x2f) (by decide) .nil
  have hlow : Literal (bytes "\\uDE00\\/") [.unit 0xde00, .point 0x2f] :=
    .unicode (d := bytes "DE00") ⟨by decide, by decide +kernel⟩ hescape
  have hhigh : Literal (bytes "\\ud83d\\uDE00\\/") [.unit 0xd83d, .unit 0xde00, .point 0x2f] :=
    .unicode (d := bytes "d83d") ⟨by decide, by decide +kernel⟩ hlow
  have hb : Literal (bytes "a\\ud83d\\uDE00\\/")
      [.point 0x61, .unit 0xd83d, .unit 0xde00, .point 0x2f] :=
    .char (c := 'a') (by decide) (by decide) (by decide) hhigh
  exact jsonString_literal (by decide) hb (bytes ",") []

/-- U+0000 ends the result, and a lone surrogate is written as three bytes that are not UTF-8. -/
theorem jsonString_literal_cut :
    (Literal (bytes "\\u0000") [.unit 0] ∧
        jsonString (quoted (bytes "\\u0000")) = some ([], []) ∧ utf8 (codePoints [.unit 0]) = [0]) ∧
      Literal (bytes "\\ud800") [.unit 0xd800] ∧
        jsonString (quoted (bytes "\\ud800")) = some ([0xed, 0xa0, 0x80], []) ∧
        ¬ ValidUtf8 [0xed, 0xa0, 0x80] := by
  refine ⟨⟨?_, by decide, by decide⟩, ?_, by decide, ?_⟩
  · exact .unicode (d := bytes "0000") ⟨by decide, by decide +kernel⟩ .nil
  · exact .unicode (d := bytes "d800") ⟨by decide, by decide +kernel⟩ .nil
  · have hbound : ∀ cp ∈ [0xd800], cp < 0x110000 := by decide
    intro h
    exact (validUtf8_utf8_iff hbound).mp h 0xd800 (by decide) (by unfold Surrogate; omega)

end Sf37.Text

/-
Sf37.Text.JsonStrings — strings of the server's JSON reader and writer in the grammar.

The reader takes every byte besides the quote and the backslash as it is, control
characters and broken UTF-8 included, so the strings it takes are those of the grammar
with `AnyPlain` for the unescaped bytes. What it hands back ends at the first NUL.

* `jsonString_quoted`, `jsonString_sound`: the reader takes these strings and no others.
* `stringBody_unique`: a string stands for one byte string.
* `jsonEscape_spells_iff`: what the writer makes of a byte string is a string of the RFC
  exactly when the byte string is UTF-8.
-/
import Sf37.Text.JsonGrammar

namespace Sf37.Text

/-! ## Bytes -/

theorem forall_byte {P : UInt8 → Prop} (h : ∀ n, n < 256 → P (UInt8.ofNat n)) (c : UInt8) :
    P c := by
  have hc := h c.toNat c.toNat_lt
  rwa [UInt8.ofNat_toNat] at hc

theorem isspace_iff {c : UInt8} :
    isspace c = true ↔ c.toNat = 0x20 ∨ 9 ≤ c.toNat ∧ c.toNat ≤ 13 := by
  simp [isspace, UInt8.le_iff_toNat_le, ← UInt8.toNat_inj]

theorem isDigit_iff {c : UInt8} : isDigit c = true ↔ 0x30 ≤ c.toNat ∧ c.toNat ≤ 0x39 := by
  simp [isDigit, UInt8.le_iff_toNat_le]

theorem isHexDigit_iff {c : UInt8} :
    isHexDigit c = true ↔ 0x30 ≤ c.toNat ∧ c.toNat ≤ 0x39 ∨ 0x61 ≤ c.toNat ∧ c.toNat ≤ 0x66 ∨
      0x41 ≤ c.toNat ∧ c.toNat ≤ 0x46 := by
  simp only [isHexDigit, hexValue, UInt8.le_iff_toNat_le, UInt8.reduceToNat]
  split_ifs <;> simp only [Option.isSome_some, Option.isSome_none, Bool.false_eq_true, true_iff,
    false_iff] <;> omega

/-- The bytes of a character: one below 0x80 that is its code, or several from there on. -/
theorem utf8EncodeChar_bytes (c : Char) :
    (∃ b : UInt8, String.utf8EncodeChar c = [b] ∧ b.toNat = c.toNat ∧ c.toNat < 0x80) ∨
      0x80 ≤ c.toNat ∧ ∀ b ∈ String.utf8EncodeChar c, 0x80 ≤ b.toNat := by
  have hval : c.val.toNat = c.toNat := rfl
  by_cases h : c.toNat < 0x80
  · refine .inl ⟨UInt8.ofNat c.toNat, ?_, ?_, h⟩
    · simp only [String.utf8EncodeChar, hval]
      rw [if_pos (by omega)]
    · rw [UInt8.toNat_ofNat']
      omega
  · refine .inr ⟨by omega, ?_⟩
    intro b hb
    simp only [String.utf8EncodeChar, hval] at hb
    rw [if_neg (by omega)] at hb
    split at hb
    · simp only [List.mem_cons, List.not_mem_nil, or_false] at hb
      rcases hb with rfl | rfl <;> rw [UInt8.toNat_ofNat'] <;> omega
    · split at hb
      · simp only [List.mem_cons, List.not_mem_nil, or_false] at hb
        rcases hb with rfl | rfl | rfl <;> rw [UInt8.toNat_ofNat'] <;> omega
      · simp only [List.mem_cons, List.not_mem_nil, or_false] at hb
        rcases hb with rfl | rfl | rfl | rfl <;> rw [UInt8.toNat_ofNat'] <;> omega

/-- A byte below 0x80 is a character. -/
theorem utf8EncodeChar_ascii {b : UInt8} (h : b.toNat < 0x80) :
    String.utf8EncodeChar (Char.ofNat b.toNat) = [b] := by
  have hall : ∀ n, n < 0x80 → String.utf8EncodeChar (Char.ofNat n) = [UInt8.ofNat n] := by
    decide
  rw [hall _ h, UInt8.ofNat_toNat]

theorem validUtf8_nil : ValidUtf8 [] := ⟨[], rfl⟩

theorem ValidUtf8.append_char {s : Bytes} (h : ValidUtf8 s) (c : Char) :
    ValidUtf8 (String.utf8EncodeChar c ++ s) := by
  obtain ⟨cs, rfl⟩ := h
  exact ⟨c :: cs, rfl⟩

theorem ValidUtf8.cons_ascii {s : Bytes} (h : ValidUtf8 s) {b : UInt8} (hb : b.toNat < 0x80) :
    ValidUtf8 (b :: s) := by
  have hchar := h.append_char (Char.ofNat b.toNat)
  rwa [utf8EncodeChar_ascii hb] at hchar

/-- What the RFC lets stand unescaped has no quote, no backslash and no control byte. -/
theorem RfcPlain.bytes {x : Bytes} (h : RfcPlain x) :
    ∀ b ∈ x, b ≠ 0x22 ∧ b ≠ 0x5c ∧ 0x20 ≤ b := by
  obtain ⟨c, rfl, hc, hquote, hback⟩ := h
  intro b hb
  rcases utf8EncodeChar_bytes c with ⟨b', hb', hcode, -⟩ | ⟨-, hhigh⟩
  · rw [hb', List.mem_singleton] at hb
    subst hb
    refine ⟨?_, ?_, ?_⟩
    · rintro rfl
      exact hquote (Char.toNat_inj.mp (hcode.symm.trans rfl))
    · rintro rfl
      exact hback (Char.toNat_inj.mp (hcode.symm.trans rfl))
    · exact UInt8.le_iff_toNat_le.mpr (by rw [hcode]; exact hc)
  · have hge := hhigh b hb
    refine ⟨?_, ?_, UInt8.le_iff_toNat_le.mpr (le_trans (by decide) hge)⟩
    · rintro rfl
      exact absurd hge (by decide)
    · rintro rfl
      exact absurd hge (by decide)

/-- An unescaped ASCII character of the RFC. -/
theorem rfcPlain_ascii {b : UInt8} (h : b.toNat < 0x80) (hquote : b ≠ 0x22) (hback : b ≠ 0x5c)
    (hctl : 0x20 ≤ b) : RfcPlain [b] := by
  have hall : ∀ n, n < 0x80 → (UInt8.ofNat n ≠ 0x22 ∧ UInt8.ofNat n ≠ 0x5c ∧ 0x20 ≤ n →
      0x20 ≤ (Char.ofNat n).toNat ∧ Char.ofNat n ≠ '"' ∧ Char.ofNat n ≠ '\\') := by
    decide
  refine ⟨Char.ofNat b.toNat, (utf8EncodeChar_ascii h).symm, hall _ h ?_⟩
  rw [UInt8.ofNat_toNat]
  exact ⟨hquote, hback, UInt8.le_iff_toNat_le.mp hctl⟩

/-! ## Escapes of code units -/

/-- Four digits are read from the four bytes at hand. -/
theorem jsonHex4_append (h : Bytes) (hlen : h.length = 4) (p : Bytes) :
    jsonHex4 (h ++ p) = jsonHex4 h := by
  match h, hlen with
  | [_, _, _, _], _ => rfl

/-- No digit is read across a quote. -/
theorem jsonHex4_quote (t r : Bytes) : jsonHex4 (t ++ 0x22 :: r) = jsonHex4 t := by
  have hquote : hexValue 0x22 = none := by decide
  match t with
  | [] => cases r with
    | nil => rfl
    | cons b r => match r with
      | [] => rfl
      | [_] => rfl
      | _ :: _ :: _ => simp [jsonHex4, hquote]
  | [a] => match r with
    | [] => rfl
    | [_] => rfl
    | _ :: _ :: _ => cases h : hexValue a <;> simp [jsonHex4, hquote, h]
  | [a, b] => match r with
    | [] => rfl
    | _ :: _ => cases h : hexValue a <;> cases h' : hexValue b <;> simp [jsonHex4, hquote, h, h']
  | [a, b, c] =>
    cases h : hexValue a <;> cases h' : hexValue b <;> cases h'' : hexValue c <;>
      simp [jsonHex4, hquote, h, h', h'']
  | _ :: _ :: _ :: _ :: _ => rfl

theorem jsonHex4_length {p : Bytes} {n : Nat} (h : jsonHex4 p = some n) : 4 ≤ p.length := by
  match p, h with
  | _ :: _ :: _ :: _ :: _, _ => simp

/-- A hexadecimal digit is neither a quote nor a backslash. -/
theorem hexValue_plain {c : UInt8} {n : Nat} (h : hexValue c = some n) :
    c ≠ 0x22 ∧ c ≠ 0x5c ∧ c ≠ 0x75 := by
  refine ⟨?_, ?_, ?_⟩ <;> rintro rfl <;> cases h

/-- Four digits of a code unit. -/
def HexText (h : Bytes) : Prop := h.length = 4 ∧ ∀ c ∈ h, c ≠ 0x22 ∧ c ≠ 0x5c

theorem hexText_take {p : Bytes} {n : Nat} (h : jsonHex4 p = some n) : HexText (p.take 4) := by
  match p, h with
  | a :: b :: c :: d :: p, h =>
    refine ⟨rfl, ?_⟩
    simp only [jsonHex4] at h
    split at h
    · rename_i ha hb hc hd
      intro x hx
      simp only [List.take_succ_cons, List.take_zero, List.mem_cons, List.not_mem_nil,
        or_false] at hx
      rcases hx with rfl | rfl | rfl | rfl
      · exact ⟨(hexValue_plain ha).1, (hexValue_plain ha).2.1⟩
      · exact ⟨(hexValue_plain hb).1, (hexValue_plain hb).2.1⟩
      · exact ⟨(hexValue_plain hc).1, (hexValue_plain hc).2.1⟩
      · exact ⟨(hexValue_plain hd).1, (hexValue_plain hd).2.1⟩
    · cases h

theorem startsWith_unicode_quote (p r : Bytes) :
    startsWith (p ++ 0x22 :: r) (bytes "\\u") = startsWith p (bytes "\\u") := by
  have hlit : bytes "\\u" = [0x5c, 0x75] := by decide
  rw [hlit]
  match p with
  | [] => simp [startsWith]
  | [c] => simp [startsWith, List.cons_prefix_cons]
  | c :: d :: p => simp [startsWith, List.cons_prefix_cons]

/-- An escape before a closing quote is read from the bytes before the quote. -/
theorem jsonUnicodeEscape_quote (t r : Bytes) :
    jsonUnicodeEscape (t ++ 0x22 :: r) =
      (jsonUnicodeEscape t).map fun y => (y.1, y.2 ++ 0x22 :: r) := by
  unfold jsonUnicodeEscape
  rw [jsonHex4_quote]
  cases hcp : jsonHex4 t with
  | none => rfl
  | some cp =>
    have hlen := jsonHex4_length hcp
    have hdrop : (t ++ 0x22 :: r).drop 4 = t.drop 4 ++ 0x22 :: r :=
      List.drop_append_of_le_length hlen
    simp only [hdrop, startsWith_unicode_quote]
    by_cases hpair : 0xd800 ≤ cp ∧ cp ≤ 0xdbff ∧ startsWith (t.drop 4) (bytes "\\u") = true
    · obtain ⟨q, hq⟩ := startsWith_iff.mp hpair.2.2
      have hq' : t.drop 4 = 0x5c :: 0x75 :: q := hq
      rw [if_pos hpair, if_pos hpair, hq']
      have htwo : (0x5c :: 0x75 :: q ++ 0x22 :: r).drop 2 = q ++ 0x22 :: r := rfl
      have htwo' : (0x5c :: 0x75 :: q : Bytes).drop 2 = q := rfl
      rw [htwo, htwo', jsonHex4_quote]
      cases hlo : jsonHex4 q with
      | none => rfl
      | some lo =>
        have hsix : (0x5c :: 0x75 :: q ++ 0x22 :: r).drop 6 =
            (0x5c :: 0x75 :: q : Bytes).drop 6 ++ 0x22 :: r :=
          List.drop_append_of_le_length (by simpa using jsonHex4_length hlo)
        by_cases hlow : 0xdc00 ≤ lo ∧ lo ≤ 0xdfff
        · simp only [if_pos hlow, hsix, Option.map_some]
        · simp only [if_neg hlow, Option.map_some]
    · rw [if_neg hpair, if_neg hpair]
      rfl

/-- An escape is four digits, or eight with another `\u` between them. -/
theorem jsonUnicodeEscape_text {t x p : Bytes} (h : jsonUnicodeEscape t = some (x, p)) :
    (∃ d, HexText d ∧ t = d ++ p) ∨
      ∃ d d', HexText d ∧ HexText d' ∧ t = d ++ 0x5c :: 0x75 :: (d' ++ p) := by
  unfold jsonUnicodeEscape at h
  cases hcp : jsonHex4 t with
  | none =>
    rw [hcp] at h
    cases h
  | some cp =>
    rw [hcp] at h
    have hfour : ∃ d, HexText d ∧ t = d ++ t.drop 4 :=
      ⟨t.take 4, hexText_take hcp, (List.take_append_drop 4 t).symm⟩
    simp only at h
    split at h
    · rename_i hpair
      obtain ⟨q, hq⟩ := startsWith_iff.mp hpair.2.2
      have hq' : t.drop 4 = 0x5c :: 0x75 :: q := hq
      split at h
      · rename_i lo hlo
        rw [hq'] at hlo
        have hlo' : jsonHex4 q = some lo := hlo
        split at h
        · simp only [Option.some.injEq, Prod.mk.injEq] at h
          obtain ⟨-, rfl⟩ := h
          refine .inr ⟨t.take 4, q.take 4, hexText_take hcp, hexText_take hlo', ?_⟩
          have hdrop : (t.drop 4).drop 6 = q.drop 4 := by rw [hq']; rfl
          rw [hdrop, List.take_append_drop, ← hq', List.take_append_drop]
        · simp only [Option.some.injEq, Prod.mk.injEq] at h
          obtain ⟨-, rfl⟩ := h
          exact .inl hfour
      · simp only [Option.some.injEq, Prod.mk.injEq] at h
        obtain ⟨-, rfl⟩ := h
        exact .inl hfour
    · simp only [Option.some.injEq, Prod.mk.injEq] at h
      obtain ⟨-, rfl⟩ := h
      exact .inl hfour

/-- An escape read before a closing quote is one of the bytes before the quote. -/
theorem jsonUnicodeEscape_before_quote {p x b r : Bytes}
    (h : jsonUnicodeEscape p = some (x, b ++ 0x22 :: r)) :
    ∃ d, p = d ++ (b ++ 0x22 :: r) ∧ jsonUnicodeEscape (d ++ b) = some (x, b) := by
  obtain ⟨d, hd⟩ : ∃ d, p = d ++ (b ++ 0x22 :: r) := by
    rcases jsonUnicodeEscape_text h with ⟨d, -, hd⟩ | ⟨d, d', -, -, hd⟩
    · exact ⟨d, hd⟩
    · exact ⟨d ++ 0x5c :: 0x75 :: d', by simpa using hd⟩
  refine ⟨d, hd, ?_⟩
  have hall := jsonUnicodeEscape_quote (d ++ b) r
  rw [List.append_assoc, ← hd, h] at hall
  obtain ⟨y, hy, hyx⟩ := Option.map_eq_some_iff.mp hall.symm
  have hfst : y.1 = x := congrArg Prod.fst hyx
  have hsnd : y.2 ++ 0x22 :: r = b ++ 0x22 :: r := congrArg Prod.snd hyx
  rw [hy, ← hfst, ← List.append_cancel_right hsnd]

/-! ## Reading -/

/-- Every byte but the quote and the backslash. -/
def AnyPlain (x : Bytes) : Prop := ∃ c : UInt8, x = [c] ∧ c ≠ 0x22 ∧ c ≠ 0x5c

/-- A body goes through the loop of `json_string` to its quote. -/
theorem jsonStringLoop_body {b s : Bytes} (h : StringBody AnyPlain b s) :
    ∀ (fuel : Nat) (acc r : Bytes), b.length < fuel →
      jsonStringLoop fuel acc (b ++ 0x22 :: r) = some (cstr (acc ++ s), r) := by
  induction h with
  | nil =>
    intro fuel acc r hf
    obtain ⟨fuel, rfl⟩ := Nat.exists_eq_succ_of_ne_zero (Nat.ne_of_gt hf)
    simp [jsonStringLoop]
  | plain hx _ ih =>
    obtain ⟨c, rfl, hquote, hback⟩ := hx
    intro fuel acc r hf
    obtain ⟨fuel, rfl⟩ := Nat.exists_eq_succ_of_ne_zero (Nat.ne_of_gt (Nat.zero_lt_of_lt hf))
    have hturn : ∀ q, jsonStringTurn (c :: q) = some ([c], q) := fun q => by
      simp [jsonStringTurn, hback]
    rw [List.append_assoc, List.singleton_append, jsonStringLoop, if_neg hquote, hturn]
    simp only
    rw [ih fuel _ r (by simpa using hf), List.append_assoc]
  | @escape e x b s he _ ih =>
    intro fuel acc r hf
    obtain ⟨fuel, rfl⟩ := Nat.exists_eq_succ_of_ne_zero (Nat.ne_of_gt (Nat.zero_lt_of_lt hf))
    have hu : e ≠ 0x75 := by
      rintro rfl
      cases he
    have hturn : jsonStringTurn (0x5c :: e :: (b ++ 0x22 :: r)) = some ([x], b ++ 0x22 :: r) := by
      simp [jsonStringTurn, hu, he]
    simp only [List.length_cons] at hf
    rw [List.cons_append, List.cons_append, jsonStringLoop, if_neg (by decide), hturn]
    simp only
    rw [ih fuel _ r (by omega), List.append_assoc, List.singleton_append]
  | @unicode h x b s hh _ ih =>
    intro fuel acc r hf
    obtain ⟨fuel, rfl⟩ := Nat.exists_eq_succ_of_ne_zero (Nat.ne_of_gt (Nat.zero_lt_of_lt hf))
    have hread := jsonUnicodeEscape_quote (h ++ b) r
    rw [hh, Option.map_some] at hread
    have hturn : jsonStringTurn (0x5c :: 0x75 :: (h ++ b ++ 0x22 :: r)) =
        some (x, b ++ 0x22 :: r) := by
      simpa [jsonStringTurn] using hread
    simp only [List.length_cons, List.length_append] at hf
    rw [List.cons_append, List.cons_append, jsonStringLoop, if_neg (by decide), hturn]
    simp only
    rw [ih fuel _ r (by omega), List.append_assoc]

/-- What the loop of `json_string` goes through is a body. -/
theorem jsonStringLoop_sound (fuel : Nat) : ∀ {acc p v r : Bytes},
    jsonStringLoop fuel acc p = some (v, r) →
      ∃ b s, p = b ++ 0x22 :: r ∧ StringBody AnyPlain b s ∧ v = cstr (acc ++ s) := by
  induction fuel with
  | zero =>
    intro acc p v r h
    cases h
  | succ fuel ih =>
    intro acc p v r h
    match p, h with
    | [], h => cases h
    | c :: p, h =>
      rw [jsonStringLoop] at h
      by_cases hquote : c = 0x22
      · rw [if_pos hquote] at h
        cases h
        exact ⟨[], [], by rw [hquote, List.nil_append], .nil, by rw [List.append_nil]⟩
      · rw [if_neg hquote] at h
        by_cases hback : c = 0x5c
        · subst hback
          match p, h with
          | [], h => cases h
          | e :: p, h =>
            by_cases hu : e = 0x75
            · subst hu
              have hturn : jsonStringTurn (0x5c :: 0x75 :: p) = jsonUnicodeEscape p := rfl
              rw [hturn] at h
              cases hx : jsonUnicodeEscape p with
              | none =>
                rw [hx] at h
                cases h
              | some y =>
                rw [hx] at h
                obtain ⟨b, s, hp, hb, hv⟩ := ih h
                obtain ⟨x, p'⟩ := y
                obtain rfl : p' = b ++ 0x22 :: r := hp
                obtain ⟨d, hd, hread⟩ := jsonUnicodeEscape_before_quote hx
                refine ⟨0x5c :: 0x75 :: (d ++ b), x ++ s, ?_, .unicode hread hb, ?_⟩
                · rw [hd]
                  simp
                · rw [hv, List.append_assoc]
            · have hturn : jsonStringTurn (0x5c :: e :: p) =
                  (jsonSimpleEscape e).map fun x => ([x], p) := by
                simp [jsonStringTurn, hu]
              rw [hturn] at h
              cases he : jsonSimpleEscape e with
              | none =>
                rw [he] at h
                cases h
              | some x =>
                rw [he] at h
                obtain ⟨b, s, hp, hb, hv⟩ := ih h
                refine ⟨0x5c :: e :: b, x :: s, by rw [hp]; rfl, .escape he hb, ?_⟩
                rw [hv, List.append_assoc, List.singleton_append]
        · have hturn : jsonStringTurn (c :: p) = some ([c], p) := by
            simp [jsonStringTurn, hback]
          rw [hturn] at h
          obtain ⟨b, s, hp, hb, hv⟩ := ih h
          refine ⟨[c] ++ b, [c] ++ s, by rw [hp]; rfl, .plain ⟨c, rfl, hquote, hback⟩ hb, ?_⟩
          rw [hv, List.append_assoc]

/-- `json_string` takes a string of the grammar, up to the first NUL. -/
theorem jsonString_quoted {b s : Bytes} (h : StringBody AnyPlain b s) (r : Bytes) :
    jsonString (quoted b ++ r) = some (cstr s, r) := by
  have hws : jsonWs (quoted b ++ r) = 0x22 :: (b ++ 0x22 :: r) := by
    simp [jsonWs, skipAsciiWs, quoted, isspace]
  rw [jsonString, hws]
  simp only [if_true]
  exact jsonStringLoop_body h _ [] r (by rw [List.length_append]; omega)

/-- `json_string` takes nothing else, after white space. -/
theorem jsonString_sound {p v r : Bytes} (h : jsonString p = some (v, r)) :
    ∃ w b s, p = w ++ (quoted b ++ r) ∧ Space w ∧ StringBody AnyPlain b s ∧ v = cstr s := by
  obtain ⟨w, hp, hw, -⟩ := skipAsciiWs_spec p
  rw [jsonString, jsonWs] at h
  match hq : skipAsciiWs p, h with
  | [], h => cases h
  | c :: q, h =>
    simp only at h
    split at h
    · rename_i hc
      obtain ⟨b, s, hb, hbody, hv⟩ := jsonStringLoop_sound _ h
      refine ⟨w, b, s, ?_, hw, hbody, hv⟩
      rw [hp, hq, hc, hb]
      simp [quoted]
    · cases h

/-- What a body can begin with. -/
theorem stringBody_cases {t s : Bytes} (h : StringBody AnyPlain t s) :
    (t = [] ∧ s = []) ∨
    (∃ c b s₁, t = c :: b ∧ s = c :: s₁ ∧ c ≠ 0x5c ∧ StringBody AnyPlain b s₁) ∨
    (∃ e x b s₁, t = 0x5c :: e :: b ∧ s = x :: s₁ ∧ jsonSimpleEscape e = some x ∧
      StringBody AnyPlain b s₁) ∨
    ∃ p x b s₁, t = 0x5c :: 0x75 :: p ∧ s = x ++ s₁ ∧ jsonUnicodeEscape p = some (x, b) ∧
      StringBody AnyPlain b s₁ := by
  cases h with
  | nil => exact .inl ⟨rfl, rfl⟩
  | plain hx hb =>
    obtain ⟨c, rfl, -, hback⟩ := hx
    exact .inr (.inl ⟨c, _, _, rfl, rfl, hback, hb⟩)
  | escape he hb => exact .inr (.inr (.inl ⟨_, _, _, _, rfl, rfl, he, hb⟩))
  | unicode hh hb => exact .inr (.inr (.inr ⟨_, _, _, _, rfl, rfl, hh, hb⟩))

/-- A string stands for one byte string. -/
theorem stringBody_unique {b s s' : Bytes} (h : StringBody AnyPlain b s)
    (h' : StringBody AnyPlain b s') : s = s' := by
  induction h generalizing s' with
  | nil =>
    rcases stringBody_cases h' with ⟨-, hs⟩ | ⟨_, _, _, ht, -⟩ | ⟨_, _, _, _, ht, -⟩ |
      ⟨_, _, _, _, ht, -⟩
    · exact hs.symm
    · cases ht
    · cases ht
    · cases ht
  | plain hx _ ih =>
    obtain ⟨c, rfl, -, hback⟩ := hx
    rcases stringBody_cases h' with ⟨ht, -⟩ | ⟨_, _, _, ht, hs, -, hb⟩ | ⟨_, _, _, _, ht, -⟩ |
      ⟨_, _, _, _, ht, -⟩
    · cases ht
    · cases ht
      rw [hs, ih hb]
      rfl
    · cases ht
      exact absurd rfl hback
    · cases ht
      exact absurd rfl hback
  | escape he _ ih =>
    rcases stringBody_cases h' with ⟨ht, -⟩ | ⟨_, _, _, ht, -, hback, -⟩ |
      ⟨_, _, _, _, ht, hs, he', hb⟩ | ⟨_, _, _, _, ht, -⟩
    · cases ht
    · cases ht
      exact absurd rfl hback
    · cases ht
      rw [hs, ih hb, Option.some.inj (he.symm.trans he')]
    · cases ht
      cases he
  | unicode hh _ ih =>
    rcases stringBody_cases h' with ⟨ht, -⟩ | ⟨_, _, _, ht, -, hback, -⟩ |
      ⟨_, _, _, _, ht, -, he, -⟩ | ⟨_, _, _, _, ht, hs, hh', hb⟩
    · cases ht
    · cases ht
      exact absurd rfl hback
    · cases ht
      cases he
    · cases ht
      cases hh.symm.trans hh'
      rw [hs, ih hb]

/-- The strings of the RFC are read. -/
theorem StringBody.any {b s : Bytes} (h : StringBody RfcPlain b s) : StringBody AnyPlain b s := by
  have hcopy : ∀ (x b s : Bytes), (∀ c ∈ x, c ≠ 0x22 ∧ c ≠ 0x5c) → StringBody AnyPlain b s →
      StringBody AnyPlain (x ++ b) (x ++ s) := by
    intro x
    induction x with
    | nil => exact fun b s _ hb => hb
    | cons c x ih =>
      intro b s hx hb
      have hrest := ih b s (fun d hd => hx d (List.mem_cons_of_mem c hd)) hb
      have hplain : AnyPlain [c] := ⟨c, rfl, hx c List.mem_cons_self⟩
      rw [← List.singleton_append, List.append_assoc, List.append_assoc]
      exact StringBody.plain hplain hrest
  induction h with
  | nil => exact .nil
  | plain hx _ ih => exact hcopy _ _ _ (fun c hc => ⟨(hx.bytes c hc).1, (hx.bytes c hc).2.1⟩) ih
  | escape he _ ih => exact .escape he ih
  | unicode hh _ ih => exact .unicode hh ih

/-- No quote stands in the text but behind a backslash, and every backslash has a byte behind
it. -/
inductive Escaping : Bytes → Prop where
  | nil : Escaping []
  | plain {c : UInt8} {t : Bytes} (hquote : c ≠ 0x22) (hback : c ≠ 0x5c) (h : Escaping t) :
      Escaping (c :: t)
  | escape {t : Bytes} (e : UInt8) (h : Escaping t) : Escaping (0x5c :: e :: t)

theorem Escaping.plains {x t : Bytes} (hx : ∀ c ∈ x, c ≠ 0x22 ∧ c ≠ 0x5c) (h : Escaping t) :
    Escaping (x ++ t) := by
  induction x with
  | nil => exact h
  | cons c x ih =>
    obtain ⟨hquote, hback⟩ := hx c List.mem_cons_self
    exact .plain hquote hback (ih fun d hd => hx d (List.mem_cons_of_mem c hd))

/-- Between the quotes of a string. -/
theorem StringBody.escaping {b s : Bytes} (h : StringBody AnyPlain b s) : Escaping b := by
  induction h with
  | nil => exact .nil
  | plain hx _ ih =>
    obtain ⟨c, rfl, hquote, hback⟩ := hx
    exact .plain hquote hback ih
  | escape _ _ ih => exact .escape _ ih
  | @unicode h x b s hh _ ih =>
    rcases jsonUnicodeEscape_text hh with ⟨d, hd, heq⟩ | ⟨d, d', hd, hd', heq⟩
    · rw [heq]
      exact .escape _ (ih.plains hd.2)
    · rw [heq]
      exact .escape _ ((Escaping.escape _ (ih.plains hd'.2)).plains hd.2)

/-- A string of the grammar at the front of a text ends where the reader says. -/
theorem quoted_append_unique {b b' s s' r r' : Bytes} (h : StringBody AnyPlain b s)
    (h' : StringBody AnyPlain b' s') (heq : quoted b ++ r = quoted b' ++ r') :
    b = b' ∧ s = s' ∧ r = r' := by
  have hread := jsonString_quoted h r
  rw [heq, jsonString_quoted h' r'] at hread
  obtain rfl : r' = r := congrArg Prod.snd (Option.some.inj hread)
  obtain rfl : b = b' := by simpa [quoted] using List.append_cancel_right heq
  exact ⟨rfl, stringBody_unique h h', rfl⟩

/-! ## Writing -/

/-- The escapes of the writer: a byte as it is, one letter, or a code unit. -/
theorem jsonEscapeByte_cases (c : UInt8) :
    (jsonEscapeByte c = [c] ∧ c ≠ 0x22 ∧ c ≠ 0x5c ∧ 0x20 ≤ c) ∨
    (∃ e, jsonEscapeByte c = [0x5c, e] ∧ jsonSimpleEscape e = some c ∧ c.toNat < 0x80) ∨
    (jsonEscapeByte c = 0x5c :: 0x75 :: hex04 c ∧ c.toNat < 0x20) := by
  unfold jsonEscapeByte
  split_ifs with hquote hback hb hf hn hr ht hctl
  · exact .inr (.inl ⟨0x22, by decide, by subst hquote; decide, by subst hquote; decide⟩)
  · exact .inr (.inl ⟨0x5c, by decide, by subst hback; decide, by subst hback; decide⟩)
  · exact .inr (.inl ⟨0x62, by decide, by subst hb; decide, by subst hb; decide⟩)
  · exact .inr (.inl ⟨0x66, by decide, by subst hf; decide, by subst hf; decide⟩)
  · exact .inr (.inl ⟨0x6e, by decide, by subst hn; decide, by subst hn; decide⟩)
  · exact .inr (.inl ⟨0x72, by decide, by subst hr; decide, by subst hr; decide⟩)
  · exact .inr (.inl ⟨0x74, by decide, by subst ht; decide, by subst ht; decide⟩)
  · exact .inr (.inr ⟨rfl, UInt8.lt_iff_toNat_lt.mp hctl⟩)
  · exact .inl ⟨rfl, hquote, hback, UInt8.not_lt.mp hctl⟩

/-- The code unit of a control byte is read back. -/
theorem jsonUnicodeEscape_hex04 {c : UInt8} (h : c.toNat < 0x20) (p : Bytes) :
    jsonUnicodeEscape (hex04 c ++ p) = some ([c], p) := by
  have hall : ∀ n, n < 0x20 → jsonHex4 (hex04 (UInt8.ofNat n)) = some n := by decide
  have hhex : jsonHex4 (hex04 c ++ p) = some c.toNat := by
    rw [jsonHex4_append _ rfl]
    have hc := hall c.toNat h
    rwa [UInt8.ofNat_toNat] at hc
  have hput : utf8PutCodepoint c.toNat = [c] := by
    rw [utf8PutCodepoint, if_pos (by omega), UInt8.ofNat_toNat]
  have hdrop : (hex04 c ++ p).drop 4 = p := rfl
  rw [jsonUnicodeEscape, hhex]
  simp only [hdrop, hput]
  rw [if_neg (by omega)]

/-- An escaped byte in front of a body. -/
theorem StringBody.cons_escaped {plain : Bytes → Prop} {c : UInt8} {b s : Bytes}
    (hc : c ≠ 0x22 → c ≠ 0x5c → 0x20 ≤ c → plain [c]) (hb : StringBody plain b s) :
    StringBody plain (jsonEscapeByte c ++ b) (c :: s) := by
  rcases jsonEscapeByte_cases c with ⟨htext, hquote, hback, hctl⟩ | ⟨e, htext, hread, -⟩ |
    ⟨htext, hctl⟩
  · rw [htext]
    exact StringBody.plain (hc hquote hback hctl) hb
  · rw [htext]
    exact StringBody.escape hread hb
  · rw [htext]
    exact StringBody.unicode (jsonUnicodeEscape_hex04 hctl b) hb

/-- The escaped bytes between the quotes. -/
abbrev escaped (s : Bytes) : Bytes := s.flatMap jsonEscapeByte

theorem jsonEscape_eq_quoted (s : Bytes) : jsonEscape s = quoted (escaped s) := by
  have hlit : bytes "\"" = [0x22] := by decide
  simp [jsonEscape, quoted, hlit]

/-- Whatever the bytes are, the reader gets them back. -/
theorem escaped_any (s : Bytes) : StringBody AnyPlain (escaped s) s := by
  induction s with
  | nil => exact .nil
  | cons c s ih => exact .cons_escaped (fun hquote hback _ => ⟨c, rfl, hquote, hback⟩) ih

/-- The string the writer makes of UTF-8 is one of the RFC. -/
theorem escaped_rfc {s : Bytes} (h : ValidUtf8 s) : StringBody RfcPlain (escaped s) s := by
  obtain ⟨cs, rfl⟩ := h
  induction cs with
  | nil => exact .nil
  | cons c cs ih =>
    rw [List.flatMap_cons, escaped, List.flatMap_append]
    rcases utf8EncodeChar_bytes c with ⟨b, hb, hcode, hlow⟩ | ⟨hge, hhigh⟩
    · rw [hb, List.flatMap_singleton, List.singleton_append]
      refine .cons_escaped (fun hquote hback hctl => ?_) ih
      exact rfcPlain_ascii (by rwa [hcode]) hquote hback hctl
    · have hcopy : (String.utf8EncodeChar c).flatMap jsonEscapeByte =
          String.utf8EncodeChar c := by
        have hsingle : ∀ b ∈ String.utf8EncodeChar c, jsonEscapeByte b = [b] := by
          intro b hb
          have hbyte := hhigh b hb
          rcases jsonEscapeByte_cases b with ⟨htext, -⟩ | ⟨-, -, -, hlt⟩ | ⟨-, hlt⟩
          · exact htext
          · omega
          · omega
        rw [List.flatMap_congr hsingle, List.flatMap_singleton']
      rw [hcopy]
      refine .plain ⟨c, rfl, by omega, ?_, ?_⟩ ih
      · rintro rfl
        exact absurd hge (by decide)
      · rintro rfl
        exact absurd hge (by decide)

/-- A text without backslash at the front of escaped bytes was copied. -/
theorem escaped_peel {x b : Bytes} (hx : ∀ c ∈ x, c ≠ 0x5c) :
    ∀ {s : Bytes}, x ++ b = escaped s → ∃ s₁, s = x ++ s₁ ∧ b = escaped s₁ := by
  induction x with
  | nil => exact fun {s} h => ⟨s, rfl, h⟩
  | cons c x ih =>
    intro s h
    match s, h with
    | [], h => cases h
    | d :: s, h =>
      have hback : c ≠ 0x5c := hx c List.mem_cons_self
      rw [escaped, List.flatMap_cons] at h
      rcases jsonEscapeByte_cases d with ⟨htext, -⟩ | ⟨e, htext, -⟩ | ⟨htext, -⟩
      · rw [htext, List.cons_append, List.singleton_append] at h
        obtain ⟨rfl, hrest⟩ := List.cons.inj h
        obtain ⟨s₁, rfl, hb⟩ := ih (fun d hd => hx d (List.mem_cons_of_mem _ hd)) hrest
        exact ⟨s₁, rfl, hb⟩
      · rw [htext] at h
        exact absurd (List.cons.inj h).1 hback
      · rw [htext] at h
        exact absurd (List.cons.inj h).1 hback

/-- A backslash at the front of escaped bytes begins the escape of a byte. -/
theorem escaped_backslash {s t : Bytes} (h : 0x5c :: t = escaped s) :
    ∃ c s₁, s = c :: s₁ ∧ c.toNat < 0x80 ∧
      ((∃ e, jsonSimpleEscape e = some c ∧ t = e :: escaped s₁) ∨
        c.toNat < 0x20 ∧ t = 0x75 :: (hex04 c ++ escaped s₁)) := by
  match s, h with
  | [], h => cases h
  | c :: s, h =>
    rw [escaped, List.flatMap_cons] at h
    refine ⟨c, s, rfl, ?_⟩
    rcases jsonEscapeByte_cases c with ⟨htext, -, hback, -⟩ | ⟨e, htext, hread, hlow⟩ |
      ⟨htext, hctl⟩
    · rw [htext] at h
      exact absurd (List.cons.inj h).1.symm hback
    · rw [htext] at h
      exact ⟨hlow, .inl ⟨e, hread, (List.cons.inj h).2⟩⟩
    · rw [htext] at h
      exact ⟨by omega, .inr ⟨hctl, (List.cons.inj h).2⟩⟩

/-- Bytes whose escapes are a string of the RFC are UTF-8. -/
theorem validUtf8_of_escaped {t s' : Bytes} (h : StringBody RfcPlain t s') :
    ∀ {s : Bytes}, t = escaped s → ValidUtf8 s := by
  induction h with
  | nil =>
    intro s h
    match s, h with
    | [], _ => exact validUtf8_nil
    | c :: s, h =>
      have hne : jsonEscapeByte c = [] := (List.append_eq_nil_iff.mp h.symm).1
      rcases jsonEscapeByte_cases c with ⟨htext, -⟩ | ⟨e, htext, -⟩ | ⟨htext, -⟩ <;>
        rw [htext] at hne <;> cases hne
  | plain hx _ ih =>
    intro s h
    obtain ⟨s₁, rfl, hb⟩ := escaped_peel (fun c hc => (hx.bytes c hc).2.1) h
    obtain ⟨c, rfl, -⟩ := hx
    exact (ih hb).append_char c
  | escape he _ ih =>
    intro s h
    obtain ⟨c, s₁, rfl, hlow, ⟨e, -, ht⟩ | ⟨-, ht⟩⟩ := escaped_backslash h
    · exact (ih (List.cons.inj ht).2).cons_ascii hlow
    · rw [(List.cons.inj ht).1] at he
      cases he
  | unicode hh _ ih =>
    intro s h
    obtain ⟨c, s₁, rfl, hlow, ⟨e, he, ht⟩ | ⟨hctl, ht⟩⟩ := escaped_backslash h
    · rw [← (List.cons.inj ht).1] at he
      cases he
    · rw [(List.cons.inj ht).2, jsonUnicodeEscape_hex04 hctl] at hh
      cases hh
      exact (ih rfl).cons_ascii hlow

/-- What the writer makes of a byte string is a string of the RFC exactly when the byte
string is UTF-8. -/
theorem jsonEscape_spells_iff (s : Bytes) :
    (∃ b s', jsonEscape s = quoted b ∧ StringBody RfcPlain b s') ↔ ValidUtf8 s := by
  constructor
  · rintro ⟨b, s', hb, hbody⟩
    rw [jsonEscape_eq_quoted] at hb
    have heq : escaped s = b := by simpa [quoted] using hb
    exact validUtf8_of_escaped hbody heq.symm
  · intro h
    exact ⟨escaped s, s, jsonEscape_eq_quoted s, escaped_rfc h⟩

end Sf37.Text

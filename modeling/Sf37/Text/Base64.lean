/-
Sf37.Text.Base64 — base64 as RFC 4648 writes it, and `base64_decode_alloc`.

The decoder is in two files of the repository; the copies differ only in what happens when
memory runs out.

* `base64Loop_encode`: the text of some bytes is read back, wherever white space stands in it.
* `base64Loop_groups`: what the loop takes in is made of groups of four.
* `base64DecodeAlloc_exact`: the two for whole texts, with or without `data:` in front.
-/
import Sf37.Text.JsonStrings

namespace Sf37.Text

/-! ## The encoding -/

def base64Alphabet : Bytes :=
  bytes "ABCDEFGHIJKLMNOPQRSTUVWXYZabcdefghijklmnopqrstuvwxyz0123456789+/"

/-- The character of six bits. -/
def base64Digit (n : Nat) : UInt8 := base64Alphabet.getD n 0

/-- The padding character. -/
def base64Pad : UInt8 := 0x3d

/-- The standard padded text of some bytes. -/
def base64Encode : Bytes → Bytes
  | [] => []
  | [a] =>
      [base64Digit (a.toNat / 4), base64Digit (a.toNat % 4 * 16), base64Pad, base64Pad]
  | [a, b] =>
      [base64Digit (a.toNat / 4), base64Digit (a.toNat % 4 * 16 + b.toNat / 16),
        base64Digit (b.toNat % 16 * 4), base64Pad]
  | a :: b :: c :: s =>
      base64Digit (a.toNat / 4) :: base64Digit (a.toNat % 4 * 16 + b.toNat / 16) ::
        base64Digit (b.toNat % 16 * 4 + c.toNat / 64) :: base64Digit (c.toNat % 64) ::
          base64Encode s

/-! ## The decoder -/

/-- `b64_value`. -/
def b64Value (c : UInt8) : Int :=
  if 0x41 ≤ c ∧ c ≤ 0x5a then c.toNat - 0x41
  else if 0x61 ≤ c ∧ c ≤ 0x7a then c.toNat - 0x61 + 26
  else if 0x30 ≤ c ∧ c ≤ 0x39 then c.toNat - 0x30 + 52
  else if c = 0x2b then 62
  else if c = 0x2f then 63
  else -1

/-- The bytes of four values; `-2` stands for the padding character. -/
def base64Group (v₀ v₁ v₂ v₃ : Int) : Option Bytes :=
  if v₀ < 0 ∨ v₁ < 0 ∨ v₂ = -1 ∨ v₃ = -1 then none
  else
    let tri := (v₀.toNat <<< 18) ||| (v₁.toNat <<< 12) |||
      ((if v₂ < 0 then 0 else v₂).toNat <<< 6) ||| (if v₃ < 0 then 0 else v₃).toNat
    some (UInt8.ofNat (tri >>> 16) ::
      ((if v₂ ≠ -2 then [UInt8.ofNat (tri >>> 8)] else []) ++
        (if v₃ ≠ -2 then [UInt8.ofNat tri] else [])))

/-- The value the loop stores for a character; `none` where it gives up. -/
def base64Char (c : UInt8) : Option Int :=
  if c = base64Pad then some (-2) else if b64Value c < 0 then none else some (b64Value c)

/-- The loop of `base64_decode_alloc`, with the values of the group at hand and what is
written. -/
def base64Loop : List Int → Bytes → Bytes → Option Bytes
  | _, out, [] => some out
  | vals, out, c :: s =>
      if isspace c then base64Loop vals out s
      else
        match base64Char c with
        | none => none
        | some v =>
            match vals ++ [v] with
            | [v₀, v₁, v₂, v₃] =>
                match base64Group v₀ v₁ v₂ v₃ with
                | none => none
                | some group => base64Loop [] (out ++ group) s
            | vals => base64Loop vals out s

/-- What is read: the text behind the first comma when it begins with `data:`. -/
def base64Payload (s : Bytes) : Bytes :=
  match s.findIdx? (· == 0x2c) with
  | some comma => if startsWith s (bytes "data:") then s.drop (comma + 1) else s
  | none => s

/-- A text without its white space. -/
def visible (s : Bytes) : Bytes := s.filter fun c => !isspace c

/-- `base64_decode_alloc`, with or without the memory for the result; `none` for `false`. -/
def base64DecodeAlloc (memory : Bool) (s : Bytes) : Option Bytes :=
  let s := base64Payload s
  let clean := (visible s).length
  if clean = 0 ∨ clean % 4 ≠ 0 then none
  else if !memory then none
  else base64Loop [] [] s

/-! ## The loop, group by group -/

/-- White space makes no difference to the loop. -/
theorem base64Loop_visible (vals : List Int) (out s : Bytes) :
    base64Loop vals out s = base64Loop vals out (visible s) := by
  induction s generalizing vals out with
  | nil => rfl
  | cons c s ih =>
    by_cases hc : isspace c = true
    · have hskip : visible (c :: s) = visible s := by simp [visible, hc]
      rw [hskip, base64Loop, if_pos hc, ih]
    · have hkeep : visible (c :: s) = c :: visible s := by simp [visible, hc]
      rw [hkeep]
      simp only [base64Loop, if_neg hc, ih]

/-- What the loop writes for four characters. -/
def base64Four (a b c d : UInt8) : Option Bytes := do
  base64Group (← base64Char a) (← base64Char b) (← base64Char c) (← base64Char d)

theorem base64Loop_group {a b c d : UInt8} (ha : isspace a = false) (hb : isspace b = false)
    (hc : isspace c = false) (hd : isspace d = false) (out s : Bytes) :
    base64Loop [] out (a :: b :: c :: d :: s) =
      (base64Four a b c d).bind fun group => base64Loop [] (out ++ group) s := by
  rw [base64Four]
  cases hva : base64Char a with
  | none => simp [base64Loop, ha, hva]
  | some v₀ =>
    cases hvb : base64Char b with
    | none => simp [base64Loop, ha, hva, hb, hvb]
    | some v₁ =>
      cases hvc : base64Char c with
      | none => simp [base64Loop, ha, hva, hb, hvb, hc, hvc]
      | some v₂ =>
        cases hvd : base64Char d with
        | none => simp [base64Loop, ha, hva, hb, hvb, hc, hvc, hd, hvd]
        | some v₃ =>
          cases hgroup : base64Group v₀ v₁ v₂ v₃ with
          | none => simp [base64Loop, ha, hva, hb, hvb, hc, hvc, hd, hvd, hgroup]
          | some group => simp [base64Loop, ha, hva, hb, hvb, hc, hvc, hd, hvd, hgroup]

/-! ## Encodings are read back -/

theorem base64Char_digit {n : Nat} (hn : n < 64) : base64Char (base64Digit n) = some (n : Int) := by
  have hall : ∀ n : Fin 64, base64Char (base64Digit n) = some ((n : Nat) : Int) := by
    decide
  exact hall ⟨n, hn⟩

theorem base64Char_pad : base64Char base64Pad = some (-2) := if_pos rfl

theorem isspace_digit {n : Nat} (hn : n < 64) : isspace (base64Digit n) = false := by
  have hall : ∀ n : Fin 64, isspace (base64Digit n) = false := by decide
  exact hall ⟨n, hn⟩

/-- Four times six bits beside each other. -/
theorem sixBits (v₀ : Nat) {v₁ v₂ v₃ : Nat} (h₁ : v₁ < 64) (h₂ : v₂ < 64) (h₃ : v₃ < 64) :
    (v₀ <<< 18) ||| (v₁ <<< 12) ||| (v₂ <<< 6) ||| v₃ =
      v₀ * 262144 + v₁ * 4096 + v₂ * 64 + v₃ := by
  have hlast : v₂ <<< 6 ||| v₃ = v₂ * 64 + v₃ := by
    rw [← Nat.shiftLeft_add_eq_or_of_lt (by omega), Nat.shiftLeft_eq]
  have hmiddle : v₁ <<< 12 ||| (v₂ * 64 + v₃) = v₁ * 4096 + (v₂ * 64 + v₃) := by
    rw [← Nat.shiftLeft_add_eq_or_of_lt (by omega), Nat.shiftLeft_eq]
  have hfirst : v₀ <<< 18 ||| (v₁ * 4096 + (v₂ * 64 + v₃)) =
      v₀ * 262144 + (v₁ * 4096 + (v₂ * 64 + v₃)) := by
    rw [← Nat.shiftLeft_add_eq_or_of_lt (by omega), Nat.shiftLeft_eq]
  rw [Nat.or_assoc, Nat.or_assoc, hlast, hmiddle, hfirst]
  omega

/-- The bytes of a group. -/
theorem tri_bytes {t : Nat} {a b c : UInt8}
    (h : t = a.toNat * 65536 + b.toNat * 256 + c.toNat) :
    UInt8.ofNat (t >>> 16) = a ∧ UInt8.ofNat (t >>> 8) = b ∧ UInt8.ofNat t = c := by
  have ha := a.toNat_lt
  have hb := b.toNat_lt
  have hc := c.toNat_lt
  simp only [← UInt8.toNat_inj, UInt8.toNat_ofNat', Nat.shiftRight_eq_div_pow]
  omega

theorem base64Four_three (a b c : UInt8) :
    base64Four (base64Digit (a.toNat / 4)) (base64Digit (a.toNat % 4 * 16 + b.toNat / 16))
      (base64Digit (b.toNat % 16 * 4 + c.toNat / 64)) (base64Digit (c.toNat % 64)) =
        some [a, b, c] := by
  have ha := a.toNat_lt
  have hb := b.toNat_lt
  have hc := c.toNat_lt
  rw [base64Four, base64Char_digit (by omega), base64Char_digit (by omega),
    base64Char_digit (by omega), base64Char_digit (by omega)]
  simp only [Option.bind_eq_bind, Option.bind_some, base64Group]
  rw [if_neg (by omega), if_neg (by omega), if_neg (by omega), if_pos (by omega),
    if_pos (by omega)]
  simp only [Int.toNat_natCast]
  rw [sixBits _ (by omega) (by omega) (by omega)]
  have hsum : a.toNat / 4 * 262144 + (a.toNat % 4 * 16 + b.toNat / 16) * 4096 +
      (b.toNat % 16 * 4 + c.toNat / 64) * 64 + c.toNat % 64 =
        a.toNat * 65536 + b.toNat * 256 + c.toNat := by omega
  obtain ⟨h16, h8, h0⟩ := tri_bytes hsum
  rw [h16, h8, h0]
  rfl

theorem base64Four_two (a b : UInt8) :
    base64Four (base64Digit (a.toNat / 4)) (base64Digit (a.toNat % 4 * 16 + b.toNat / 16))
      (base64Digit (b.toNat % 16 * 4)) base64Pad = some [a, b] := by
  have ha := a.toNat_lt
  have hb := b.toNat_lt
  rw [base64Four, base64Char_digit (by omega), base64Char_digit (by omega),
    base64Char_digit (by omega), base64Char_pad]
  simp only [Option.bind_eq_bind, Option.bind_some, base64Group]
  rw [if_neg (by omega), if_neg (by omega), if_pos (by decide), if_pos (by omega),
    if_neg (by decide)]
  simp only [Int.toNat_natCast, Int.toNat_zero]
  rw [sixBits _ (by omega) (by omega) (by omega)]
  have hsum : a.toNat / 4 * 262144 + (a.toNat % 4 * 16 + b.toNat / 16) * 4096 +
      b.toNat % 16 * 4 * 64 + 0 = a.toNat * 65536 + b.toNat * 256 + (0 : UInt8).toNat := by
    rw [UInt8.toNat_zero]
    omega
  obtain ⟨h16, h8, -⟩ := tri_bytes hsum
  rw [h16, h8]
  rfl

theorem base64Four_one (a : UInt8) :
    base64Four (base64Digit (a.toNat / 4)) (base64Digit (a.toNat % 4 * 16)) base64Pad base64Pad =
      some [a] := by
  have ha := a.toNat_lt
  rw [base64Four, base64Char_digit (by omega), base64Char_digit (by omega), base64Char_pad]
  simp only [Option.bind_eq_bind, Option.bind_some, base64Group]
  rw [if_neg (by omega), if_pos (by decide), if_neg (by decide), if_neg (by decide)]
  simp only [Int.toNat_natCast, Int.toNat_zero]
  rw [sixBits _ (by omega) (by omega) (by omega)]
  have hsum : a.toNat / 4 * 262144 + a.toNat % 4 * 16 * 4096 + 0 * 64 + 0 =
      a.toNat * 65536 + (0 : UInt8).toNat * 256 + (0 : UInt8).toNat := by
    rw [UInt8.toNat_zero]
    omega
  obtain ⟨h16, -, -⟩ := tri_bytes hsum
  rw [h16]
  rfl

theorem isspace_pad : isspace base64Pad = false := by decide

/-- The text of some bytes is read back. -/
theorem base64Loop_encode (b out : Bytes) :
    base64Loop [] out (base64Encode b) = some (out ++ b) := by
  induction b using base64Encode.induct generalizing out with
  | case1 => simp [base64Encode, base64Loop]
  | case2 a =>
    have ha := a.toNat_lt
    rw [base64Encode, base64Loop_group (isspace_digit (by omega)) (isspace_digit (by omega))
      isspace_pad isspace_pad, base64Four_one]
    rfl
  | case3 a b =>
    have ha := a.toNat_lt
    have hb := b.toNat_lt
    rw [base64Encode, base64Loop_group (isspace_digit (by omega)) (isspace_digit (by omega))
      (isspace_digit (by omega)) isspace_pad, base64Four_two]
    rfl
  | case4 a b c s ih =>
    have ha := a.toNat_lt
    have hb := b.toNat_lt
    have hc := c.toNat_lt
    rw [base64Encode, base64Loop_group (isspace_digit (by omega)) (isspace_digit (by omega))
      (isspace_digit (by omega)) (isspace_digit (by omega)), base64Four_three, Option.bind_some,
      ih]
    simp

theorem length_base64Encode (b : Bytes) : (base64Encode b).length % 4 = 0 := by
  induction b using base64Encode.induct with
  | case1 => rfl
  | case2 a => simp [base64Encode]
  | case3 a b => simp [base64Encode]
  | case4 a b c s ih =>
    simp only [base64Encode, List.length_cons]
    omega

theorem base64Encode_ne_nil {b : Bytes} (hb : b ≠ []) : base64Encode b ≠ [] := by
  induction b using base64Encode.induct with
  | case1 => exact absurd rfl hb
  | case2 a => simp [base64Encode]
  | case3 a b => simp [base64Encode]
  | case4 a b c s ih => simp [base64Encode]

/-! ## What the loop takes in -/

/-- Groups of four characters, two of the alphabet and two of the alphabet or padding. -/
inductive Base64Groups : Bytes → Prop where
  | nil : Base64Groups []
  | group {a b c d : UInt8} {s : Bytes} (ha : a ∈ base64Alphabet) (hb : b ∈ base64Alphabet)
      (hc : c ∈ base64Alphabet ∨ c = base64Pad) (hd : d ∈ base64Alphabet ∨ d = base64Pad)
      (h : Base64Groups s) : Base64Groups (a :: b :: c :: d :: s)

theorem base64Char_cases {c : UInt8} {v : Int} (h : base64Char c = some v) :
    (c = base64Pad ∧ v = -2) ∨ (c ∈ base64Alphabet ∧ 0 ≤ v) := by
  have hall : ∀ c : UInt8, base64Char c = some (-2) ∧ c = base64Pad ∨
      base64Char c = none ∨ c ∈ base64Alphabet ∧ base64Char c = some (b64Value c) ∧
        0 ≤ b64Value c := forall_byte (by decide +kernel)
  rcases hall c with ⟨hc, hpad⟩ | hc | ⟨hmem, hc, hle⟩
  · rw [hc] at h
    exact .inl ⟨hpad, (Option.some.inj h).symm⟩
  · rw [hc] at h
    cases h
  · rw [hc] at h
    obtain rfl := Option.some.inj h
    exact .inr ⟨hmem, hle⟩

/-- Padding is refused in the first two places of a group only. -/
theorem base64Four_spec {a b c d : UInt8} {group : Bytes} (h : base64Four a b c d = some group) :
    (a ∈ base64Alphabet ∧ b ∈ base64Alphabet) ∧ (c ∈ base64Alphabet ∨ c = base64Pad) ∧
      (d ∈ base64Alphabet ∨ d = base64Pad) := by
  obtain ⟨v₀, ha, h⟩ := Option.bind_eq_some_iff.mp h
  obtain ⟨v₁, hb, h⟩ := Option.bind_eq_some_iff.mp h
  obtain ⟨v₂, hc, h⟩ := Option.bind_eq_some_iff.mp h
  obtain ⟨v₃, hd, h⟩ := Option.bind_eq_some_iff.mp h
  have hfirst : 0 ≤ v₀ ∧ 0 ≤ v₁ := by
    rw [base64Group] at h
    split at h
    next => cases h
    next hbad => omega
  refine ⟨⟨?_, ?_⟩, ?_, ?_⟩
  · rcases base64Char_cases ha with ⟨-, hv⟩ | ⟨hmem, -⟩
    · omega
    · exact hmem
  · rcases base64Char_cases hb with ⟨-, hv⟩ | ⟨hmem, -⟩
    · omega
    · exact hmem
  · exact (base64Char_cases hc).elim (fun h => .inr h.1) (fun h => .inl h.1)
  · exact (base64Char_cases hd).elim (fun h => .inr h.1) (fun h => .inl h.1)

/-- What the loop takes in is made of groups. -/
theorem base64Loop_groups {n : Nat} {out s r : Bytes} (hlen : s.length = 4 * n)
    (hs : ∀ c ∈ s, isspace c = false) (h : base64Loop [] out s = some r) : Base64Groups s := by
  induction n generalizing out s with
  | zero =>
    obtain rfl := List.eq_nil_of_length_eq_zero hlen
    exact .nil
  | succ n ih =>
    match s, hlen, hs with
    | a :: b :: c :: d :: s, hlen, hs =>
      simp only [List.forall_mem_cons] at hs
      obtain ⟨ha, hb, hc, hd, hs⟩ := hs
      rw [base64Loop_group ha hb hc hd] at h
      obtain ⟨group, hgroup, hrest⟩ := Option.bind_eq_some_iff.mp h
      obtain ⟨⟨ha, hb⟩, hc, hd⟩ := base64Four_spec hgroup
      simp only [List.length_cons] at hlen
      exact .group ha hb hc hd (ih (by omega) hs hrest)

/-! ## Whole texts -/

/-- At the end of a text: nothing, one padding character or two. -/
def Padding (pad : Bytes) : Prop := pad = [] ∨ pad = [base64Pad] ∨ pad = [base64Pad, base64Pad]

/-- The padded form: characters of the alphabet, then padding, four by four. -/
def PaddedBase64 (s : Bytes) : Prop :=
  s ≠ [] ∧ s.length % 4 = 0 ∧
    ∃ digits pad, s = digits ++ pad ∧ (∀ c ∈ digits, c ∈ base64Alphabet) ∧ Padding pad

/-- Padding stands at the end only. -/
def PaddingAtEnd (s : Bytes) : Prop :=
  ∃ digits pad, s = digits ++ pad ∧ base64Pad ∉ digits ∧ Padding pad

theorem Base64Groups.length {s : Bytes} (h : Base64Groups s) : s.length % 4 = 0 := by
  induction h with
  | nil => rfl
  | group _ _ _ _ _ ih =>
    simp only [List.length_cons]
    omega

theorem Base64Groups.mem {s : Bytes} (h : Base64Groups s) :
    ∀ c ∈ s, c ∈ base64Alphabet ∨ c = base64Pad := by
  induction h with
  | nil => simp
  | group ha hb hc hd _ ih =>
    simp only [List.forall_mem_cons]
    exact ⟨.inl ha, .inl hb, hc, hd, ih⟩

theorem Base64Groups.padded {s : Bytes} (h : Base64Groups s) (hne : s ≠ [])
    (hpad : PaddingAtEnd s) : PaddedBase64 s := by
  obtain ⟨digits, pad, rfl, hno, hend⟩ := hpad
  refine ⟨hne, h.length, digits, pad, rfl, fun c hc => ?_, hend⟩
  rcases h.mem c (List.mem_append_left pad hc) with hmem | rfl
  · exact hmem
  · exact absurd hc hno

/-- Without a comma the whole text is read. -/
theorem base64Payload_plain {s : Bytes} (h : (0x2c : UInt8) ∉ s) : base64Payload s = s := by
  have hnone : s.findIdx? (· == 0x2c) = none := by
    rw [List.findIdx?_eq_none_iff]
    intro c hc
    rw [beq_eq_false_iff_ne]
    rintro rfl
    exact h hc
  rw [base64Payload, hnone]

/-- Behind `data:` and the first comma. -/
theorem base64Payload_data {head : Bytes} (hhead : (0x2c : UInt8) ∉ head) (s : Bytes) :
    base64Payload (bytes "data:" ++ (head ++ 0x2c :: s)) = s := by
  have hfirst : (0x2c : UInt8) ∉ bytes "data:" ++ head := by
    rw [List.mem_append]
    rintro (hbad | hbad)
    · exact absurd hbad (by decide)
    · exact hhead hbad
  have hno (c : UInt8) (hc : c ∈ bytes "data:" ++ head) : (c == 0x2c) = false := by
    rw [beq_eq_false_iff_ne]
    rintro rfl
    exact hfirst hc
  have hfind : (bytes "data:" ++ (head ++ 0x2c :: s)).findIdx? (· == 0x2c) =
      some (bytes "data:" ++ head).length := by
    rw [← List.append_assoc, List.findIdx?_append, List.findIdx?_eq_none_iff.mpr hno,
      List.findIdx?_cons]
    simp
  have hstart : startsWith (bytes "data:" ++ (head ++ 0x2c :: s)) (bytes "data:") = true :=
    startsWith_iff.mpr ⟨_, rfl⟩
  have hcut : bytes "data:" ++ (head ++ 0x2c :: s) = bytes "data:" ++ head ++ [0x2c] ++ s := by
    simp
  rw [base64Payload, hfind]
  simp only [hstart, if_true]
  rw [hcut, List.drop_left' (by simp only [List.length_append, List.length_singleton])]

theorem visible_noSpace (s : Bytes) : ∀ c ∈ visible s, isspace c = false := by
  intro c hc
  simpa using (List.mem_filter.mp hc).2

theorem mem_visible {s : Bytes} {c : UInt8} (hc : c ∈ s) (hspace : isspace c = false) :
    c ∈ visible s := List.mem_filter.mpr ⟨hc, by simp [hspace]⟩

theorem base64DecodeAlloc_eq {s : Bytes} (hne : visible (base64Payload s) ≠ [])
    (hlen : (visible (base64Payload s)).length % 4 = 0) :
    base64DecodeAlloc true s = base64Loop [] [] (visible (base64Payload s)) := by
  have hpos := List.length_pos_iff.mpr hne
  rw [← base64Loop_visible, base64DecodeAlloc]
  simp only [Bool.not_true]
  rw [if_neg (by omega), if_neg (by decide)]

/-- What is read where the payload is the text of some bytes. -/
theorem base64DecodeAlloc_payload {b s : Bytes} (hb : b ≠ [])
    (h : visible (base64Payload s) = base64Encode b) : base64DecodeAlloc true s = some b := by
  rw [base64DecodeAlloc_eq (h ▸ base64Encode_ne_nil hb) (h ▸ length_base64Encode b), h,
    base64Loop_encode, List.nil_append]

/-- The text of some bytes has no comma, with white space or without. -/
theorem comma_notMem {b s : Bytes} (h : visible s = base64Encode b) : (0x2c : UInt8) ∉ s := by
  intro hc
  obtain ⟨n, hn⟩ := Nat.dvd_of_mod_eq_zero (length_base64Encode b)
  have hgroups := base64Loop_groups hn (h ▸ visible_noSpace s) (base64Loop_encode b [])
  have hmem : (0x2c : UInt8) ∈ base64Encode b := h ▸ mem_visible hc (by decide)
  have hno : ¬ ((0x2c : UInt8) ∈ base64Alphabet ∨ (0x2c : UInt8) = base64Pad) := by
    decide
  exact hno (hgroups.mem _ hmem)

/-- `base64_decode_alloc` reads back the text of some bytes, wherever white space stands in it
and whether or not `data:` stands in front. What it accepts is made of groups, and where padding
stands at the end only it is of the padded form. -/
theorem base64DecodeAlloc_exact :
    (∀ b s, b ≠ [] → visible s = base64Encode b →
      base64DecodeAlloc true s = some b ∧
        ∀ head, (0x2c : UInt8) ∉ head →
          base64DecodeAlloc true (bytes "data:" ++ (head ++ 0x2c :: s)) = some b) ∧
    ∀ memory s out, base64DecodeAlloc memory s = some out →
      visible (base64Payload s) ≠ [] ∧ Base64Groups (visible (base64Payload s)) ∧
        (PaddingAtEnd (visible (base64Payload s)) → PaddedBase64 (visible (base64Payload s))) := by
  constructor
  · intro b s hb h
    constructor
    · exact base64DecodeAlloc_payload hb (by rw [base64Payload_plain (comma_notMem h), h])
    · intro head hhead
      exact base64DecodeAlloc_payload hb (by rw [base64Payload_data hhead, h])
  · intro memory s out h
    have hclean : ¬ ((visible (base64Payload s)).length = 0 ∨
        (visible (base64Payload s)).length % 4 ≠ 0) := by
      intro hbad
      rw [base64DecodeAlloc, if_pos hbad] at h
      cases h
    have hne : visible (base64Payload s) ≠ [] := fun hnil => hclean (.inl (by rw [hnil]; rfl))
    have hlen : (visible (base64Payload s)).length % 4 = 0 := by omega
    have hmemory : memory = true := by
      rw [base64DecodeAlloc, if_neg hclean] at h
      split at h
      next => cases h
      next hm => simpa using hm
    subst hmemory
    rw [base64DecodeAlloc_eq hne hlen] at h
    obtain ⟨n, hn⟩ := Nat.dvd_of_mod_eq_zero hlen
    have hgroups := base64Loop_groups hn (visible_noSpace _) h
    exact ⟨hne, hgroups, hgroups.padded hne⟩

example : base64DecodeAlloc true (bytes "data:;base64,bGln\naHQgdw==") = some (bytes "light w") := by
  decide

/-- Where padding can stand in the padded form. -/
theorem PaddedBase64.pad_last {s : Bytes} (h : PaddedBase64 s) :
    base64Pad ∉ s.take (s.length - 2) ∧ (s.getLast? ≠ some base64Pad → base64Pad ∉ s) := by
  obtain ⟨-, -, digits, pad, rfl, hdigits, hpad⟩ := h
  have hno : base64Pad ∉ digits := fun hmem => absurd (hdigits _ hmem) (by decide)
  constructor
  · intro hmem
    have hinit : (digits ++ pad).take ((digits ++ pad).length - 2) <+: digits := by
      have hle : pad.length ≤ 2 := by rcases hpad with rfl | rfl | rfl <;> decide
      rw [List.length_append, List.take_append_of_le_length (by omega)]
      exact List.take_prefix _ _
    exact hno (hinit.subset hmem)
  · intro hlast
    rcases hpad with rfl | rfl | rfl
    · rwa [List.append_nil]
    · exact absurd (by simp) hlast
    · exact absurd (by simp) hlast

/-- A data URL is accepted as it stands, and so is padding in a group before the last and before
a character of the alphabet; none of these is of the padded form. -/
theorem base64DecodeAlloc_notPadded :
    ((base64DecodeAlloc true (bytes "data:image/png;base64,QQ==")).isSome ∧
      ¬ PaddedBase64 (visible (bytes "data:image/png;base64,QQ=="))) ∧
    ((base64DecodeAlloc true (bytes "QQ==QQ==")).isSome ∧
      ¬ PaddedBase64 (visible (bytes "QQ==QQ=="))) ∧
    ((base64DecodeAlloc true (bytes "QQ=A")).isSome ∧
      ¬ PaddedBase64 (visible (bytes "QQ=A"))) := by
  have hurl : base64DecodeAlloc true (bytes "data:image/png;base64,QQ==") =
      some (bytes "A") := by decide
  have htwo : base64DecodeAlloc true (bytes "QQ==QQ==") = some (bytes "AA") := by decide
  have hinner : base64DecodeAlloc true (bytes "QQ=A") = some [0x41, 0x00] := by decide
  refine ⟨⟨by rw [hurl]; rfl, ?_⟩, ⟨by rw [htwo]; rfl, ?_⟩, ⟨by rw [hinner]; rfl, ?_⟩⟩
  · rintro ⟨-, -, digits, pad, hcut, hdigits, hpad⟩
    have hcolon : (0x3a : UInt8) ∈ digits ++ pad := hcut ▸ by decide
    rcases List.mem_append.mp hcolon with hmem | hmem
    · exact absurd (hdigits _ hmem) (by decide)
    · rcases hpad with rfl | rfl | rfl <;> exact absurd hmem (by decide)
  · exact fun h => absurd h.pad_last.1 (by decide)
  · exact fun h => absurd h.pad_last.2 (by decide)

end Sf37.Text

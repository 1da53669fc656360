/-
Sf37.Text.Utf8Find — ASCII in UTF-8 texts.

* `prefix_of_encode`, `infix_of_occursAt_encode`: where the bytes hold an ASCII pattern, the text
  holds it.
* `mem_encode_ascii`: where the bytes hold an ASCII character, the text holds it.
* `head_encode`, `last_encode`: a byte at an end of the text that is ASCII is the character there.
-/
import Sf37.Text.JsonStrings
import Sf37.Text.Weave

namespace Sf37.Text

/-- A text in UTF-8. -/
def encode (cs : List Char) : Bytes := cs.flatMap String.utf8EncodeChar

@[simp] theorem encode_nil : encode [] = [] := rfl

theorem encode_cons (c : Char) (cs : List Char) :
    encode (c :: cs) = String.utf8EncodeChar c ++ encode cs := rfl

theorem encode_append (cs ds : List Char) : encode (cs ++ ds) = encode cs ++ encode ds :=
  List.flatMap_append

theorem encode_eq_nil {cs : List Char} : encode cs = [] ↔ cs = [] := by
  cases cs with
  | nil => simp
  | cons c cs =>
    rw [encode_cons, List.append_eq_nil_iff]
    exact ⟨fun h => absurd h.1 String.utf8EncodeChar_ne_nil,
      fun h => absurd h (List.cons_ne_nil _ _)⟩

/-- Characters below 0x80. -/
def Ascii (cs : List Char) : Prop := ∀ c ∈ cs, c.toNat < 0x80

instance (cs : List Char) : Decidable (Ascii cs) := List.decidableBAll _ cs

/-- An ASCII character is one byte. -/
theorem utf8EncodeChar_of_lt {c : Char} (h : c.toNat < 0x80) :
    ∃ b : UInt8, String.utf8EncodeChar c = [b] ∧ b.toNat = c.toNat := by
  rcases utf8EncodeChar_bytes c with ⟨b, hb, hcode, -⟩ | ⟨hge, -⟩
  · exact ⟨b, hb, hcode⟩
  · omega

/-- A byte of a character that is below 0x80 is the character. -/
theorem char_of_byte {c : Char} {b : UInt8} (h : b ∈ String.utf8EncodeChar c)
    (hb : b.toNat < 0x80) : String.utf8EncodeChar c = [b] ∧ b.toNat = c.toNat := by
  rcases utf8EncodeChar_bytes c with ⟨b', hb', hcode, -⟩ | ⟨-, hhigh⟩
  · rw [hb', List.mem_singleton] at h
    exact ⟨by rw [hb', h], by rw [h, hcode]⟩
  · have := hhigh b h
    omega

/-! ## Patterns -/

theorem prefix_of_encode {ms cs : List Char} (hms : Ascii ms) (h : encode ms <+: encode cs) :
    ms <+: cs := by
  induction ms generalizing cs with
  | nil => exact List.nil_prefix
  | cons m ms ih =>
    obtain ⟨b, hb, hcode⟩ := utf8EncodeChar_of_lt (hms m List.mem_cons_self)
    have hlow : b.toNat < 0x80 := by
      rw [hcode]
      exact hms m List.mem_cons_self
    rw [encode_cons, hb, List.singleton_append] at h
    cases cs with
    | nil => simp at h
    | cons c cs =>
      rw [encode_cons] at h
      obtain ⟨x, xs, hx⟩ := List.exists_cons_of_ne_nil (String.utf8EncodeChar_ne_nil (c := c))
      rw [hx, List.cons_append, List.cons_prefix_cons] at h
      obtain ⟨rfl, h⟩ := h
      obtain ⟨hone, hcode'⟩ := char_of_byte (hx ▸ List.mem_cons_self) hlow
      obtain rfl : m = c := Char.toNat_inj.mp (hcode.symm.trans hcode')
      obtain rfl : xs = [] := (List.cons.inj (hx.symm.trans hone)).2
      rw [List.nil_append] at h
      exact List.cons_prefix_cons.mpr ⟨rfl, ih (fun c hc => hms c (List.mem_cons_of_mem _ hc)) h⟩

/-- Where the bytes hold an ASCII pattern, the text holds it. -/
theorem infix_of_occursAt_encode {ms cs : List Char} (hne : ms ≠ []) (hms : Ascii ms) {i : ℕ}
    (h : OccursAt (encode ms) (encode cs) i) : ms <:+: cs := by
  have hbytes : encode ms ≠ [] := fun h => hne (encode_eq_nil.mp h)
  induction cs generalizing i with
  | nil => exact absurd h (not_occursAt_nil hbytes i)
  | cons c cs ih =>
    rw [encode_cons] at h
    rcases Nat.lt_or_ge i (String.utf8EncodeChar c).length with hlt | hge
    · -- a pattern inside of a character begins with one of its bytes
      obtain ⟨m, ms, rfl⟩ := List.exists_cons_of_ne_nil hne
      obtain ⟨b, hb, hcode⟩ := utf8EncodeChar_of_lt (hms m List.mem_cons_self)
      have hget := occursAt_iff_getElem?.mp h 0 (List.length_pos_iff.mpr hbytes)
      rw [encode_cons, hb, List.singleton_append, List.getElem?_cons_zero, Nat.add_zero,
        List.getElem?_append_left hlt] at hget
      obtain ⟨hone, -⟩ := char_of_byte (List.mem_of_getElem? hget)
        (by rw [hcode]; exact hms m List.mem_cons_self)
      rw [hone, List.length_singleton, Nat.lt_one_iff] at hlt
      subst hlt
      rw [← encode_cons] at h
      exact (prefix_of_encode hms (occursAt_zero.mp h)).isInfix
    · rw [← Nat.add_sub_cancel' hge, ← occursAt_drop, List.drop_left] at h
      exact (ih h).trans (List.suffix_cons c cs).isInfix

/-! ## Characters -/

/-- Where the bytes hold an ASCII character, the text holds it. -/
theorem mem_encode_ascii {cs : List Char} {b : UInt8} {c : Char} (hc : c.toNat < 0x80)
    (hb : b.toNat = c.toNat) : b ∈ encode cs ↔ c ∈ cs := by
  constructor
  · intro h
    obtain ⟨d, hd, hmem⟩ := List.mem_flatMap.mp h
    obtain ⟨-, hcode⟩ := char_of_byte hmem (by omega)
    rwa [Char.toNat_inj.mp (hb.symm.trans hcode)]
  · intro h
    obtain ⟨b', hone, hcode⟩ := utf8EncodeChar_of_lt hc
    refine List.mem_flatMap.mpr ⟨c, h, ?_⟩
    rw [hone, List.mem_singleton]
    exact UInt8.toNat_inj.mp (hb.trans hcode.symm)

/-- A first byte that is ASCII is the first character. -/
theorem head_encode {cs : List Char} {b : UInt8} (h : (encode cs).head? = some b)
    (hb : b.toNat < 0x80) : ∃ c, cs.head? = some c ∧ b.toNat = c.toNat := by
  cases cs with
  | nil => cases h
  | cons c cs =>
    refine ⟨c, rfl, ?_⟩
    obtain ⟨x, xs, hx⟩ := List.exists_cons_of_ne_nil (String.utf8EncodeChar_ne_nil (c := c))
    rw [encode_cons, hx] at h
    obtain rfl : x = b := Option.some.inj h
    exact (char_of_byte (hx ▸ List.mem_cons_self) hb).2

/-- A last byte that is ASCII is the last character. -/
theorem last_encode {cs : List Char} {b : UInt8} (h : (encode cs).getLast? = some b)
    (hb : b.toNat < 0x80) : ∃ c, cs.getLast? = some c ∧ b.toNat = c.toNat := by
  rcases List.eq_nil_or_concat' cs with rfl | ⟨cs, c, rfl⟩
  · cases h
  · rw [encode_append, encode_cons, encode_nil, List.append_nil,
      List.getLast?_append_of_ne_nil _ String.utf8EncodeChar_ne_nil] at h
    exact ⟨c, List.getLast?_concat, (char_of_byte (List.mem_of_getLast? h) hb).2⟩

end Sf37.Text

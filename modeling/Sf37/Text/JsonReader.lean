/-
Sf37.Text.JsonReader — which texts `json_skip_value` takes, and where it stops.

The reader takes its own dialect and nothing else, at every place of every text. Only a number
can go on behind a value, and there `strtod` decides where it ends. The RFC's values are of the
dialect; the dialect has more.

* `jsonSkipValue_iff`: what is walked over, in any text.
* `rfc8259_le`: the values of the RFC.
* `jsonSkipValue_dialect`: the two together.
-/
import Sf37.Text.JsonMinify

namespace Sf37.Text

/-! ## The texts of the dialect -/

/-- Behind a number stands nothing that `strtod` would take along. -/
def TokenEnds (j : Json) (t r : Bytes) : Prop :=
  ∀ n, j = .num n → strtod (t ++ r) = some r

/-- A value that is no number, or the number itself. -/
theorem Spells.walks_or_number {t : Bytes} {j : Json} (h : Spells serverJson t (.value j)) :
    (Walks t ∧ ∀ n, j ≠ .num n) ∨ (j = .num t ∧ AcceptedNumber t) := by
  cases h with
  | word hj =>
    refine Or.inl ⟨walks_word hj, ?_⟩
    rintro n rfl
    simp [jsonWords] at hj
  | string hb => exact Or.inl ⟨walks_string hb, fun n h => by cases h⟩
  | number hn => exact Or.inr ⟨rfl, hn⟩
  | array hw ht => exact Or.inl ⟨walks_array hw ht ht.skips, fun n h => by cases h⟩
  | object hw ht => exact Or.inl ⟨walks_object hw ht ht.skips, fun n h => by cases h⟩

theorem jsonNumber_eq_strtod {t : Bytes} (h : NumberText t) (r : Bytes) :
    jsonNumber (t ++ r) = strtod (t ++ r) := by
  obtain ⟨c, q, rfl, hc⟩ := h.head
  have hws : jsonWs (c :: q ++ r) = c :: q ++ r :=
    jsonWs_append (w := []) space_nil (noSpace_cons (numberFirst_spec hc).1 _)
  rw [jsonNumber, hws]

/-- What is walked over is white space and a value of the dialect that ends there. -/
theorem jsonSkipValue_iff (p r : Bytes) :
    jsonSkipValue (p ++ r) = some r ↔
      ∃ w t j, p = w ++ t ∧ Space w ∧ Spells serverJson t (.value j) ∧ TokenEnds j t r := by
  constructor
  · intro h
    obtain ⟨w, t, j, hsplit, hw, ht⟩ := jsonSkipNested_sound _ _ _ h
    have hp : p = w ++ t := by
      rw [← List.append_assoc] at hsplit
      exact List.append_cancel_right hsplit
    refine ⟨w, t, j, hp, hw, ht, ?_⟩
    rintro n rfl
    rcases ht.walks_or_number with ⟨-, hno⟩ | ⟨-, hn⟩
    · exact absurd rfl (hno n)
    · rw [jsonSkipValue, hsplit, jsonSkipNested_number hn.toNumberText _ hw] at h
      rwa [jsonNumber_eq_strtod hn.toNumberText] at h
  · rintro ⟨w, t, j, rfl, hw, ht, hends⟩
    rw [List.append_assoc]
    rcases ht.walks_or_number with ⟨hwalks, -⟩ | ⟨rfl, hn⟩
    · exact hwalks _ w r (by simp; omega) hw
    · rw [jsonSkipValue, jsonSkipNested_number hn.toNumberText _ hw,
        jsonNumber_eq_strtod hn.toNumberText]
      exact hends t rfl

/-- On success the cursor has moved over a beginning of the text. -/
theorem jsonSkipValue_suffix {s r : Bytes} (h : jsonSkipValue s = some r) : ∃ p, s = p ++ r := by
  obtain ⟨w, t, j, hsplit, -, -⟩ := jsonSkipNested_sound _ _ _ h
  exact ⟨w ++ t, by rw [hsplit, List.append_assoc]⟩

/-! ## The values of the RFC -/

/-- The reader's dialect has all of them. -/
theorem rfc8259_le : rfc8259.Le serverJson where
  ws := fun _ h => rfcWs_isspace h
  plain := fun _ _ h => h.any
  number := fun _ h => h.accepted
  trailingComma := fun _ => trivial

/-- What `json_skip_value` takes, for every text. -/
theorem jsonSkipValue_dialect (s : Bytes) :
    (∀ r, jsonSkipValue s = some r → ∃ p, s = p ++ r) ∧
      (∀ p r, s = p ++ r → (jsonSkipValue s = some r ↔
        ∃ w t j, p = w ++ t ∧ Space w ∧ Spells serverJson t (.value j) ∧ TokenEnds j t r)) ∧
      ∀ w t j r, s = w ++ t ++ r → rfc8259.Ws w → Spells rfc8259 t (.value j) →
        TokenEnds j t r → jsonSkipValue s = some r := by
  refine ⟨fun r h => jsonSkipValue_suffix h, fun p r hs => hs ▸ jsonSkipValue_iff p r, ?_⟩
  rintro w t j r rfl hw ht hends
  exact (jsonSkipValue_iff (w ++ t) r).mpr
    ⟨w, t, j, rfl, rfc8259_tame.space hw, ht.mono rfc8259_le, hends⟩

/-! ## What is not of the RFC -/

theorem Spells.length_pos {D : Dialect} (hD : D.Tame) {t : Bytes} {x : Item} (h : Spells D t x) :
    0 < t.length := by
  obtain ⟨c, r, rfl, -⟩ := h.head hD
  exact Nat.zero_lt_succ r.length

/-- The bracket alone closes an array without elements. -/
theorem rfc_noElements {t : Bytes} {es : List Json} (h : Spells rfc8259 t (.elements es))
    (ht : t.length = 1) : es = [] := by
  cases h with
  | noElements => rfl
  | lastElement hv _ =>
    have := hv.length_pos rfc8259_tame
    simp only [List.length_append, List.length_singleton] at ht
    omega
  | nextElement hv _ _ hes _ =>
    have := hv.length_pos rfc8259_tame
    simp only [List.length_append, List.length_cons] at ht
    omega

/-- A comma in front of the bracket that closes an array. -/
theorem not_rfc_trailingComma (j : Json) : ¬ Spells rfc8259 (bytes "[1,]") (.value j) := by
  intro h
  have hcons : bytes "[1,]" = 0x5b :: bytes "1,]" := by decide
  rw [hcons] at h
  rcases h.value_cases rfc8259_tame with ⟨hbad, -⟩ | ⟨-, w, t, es, heq, -, hw, hes⟩ | ⟨hbad, -⟩ |
    ⟨hbad, -⟩ | ⟨hbad, -⟩
  · exact absurd hbad (by decide)
  · have hvis : NoSpace (bytes "1,]") := by
      intro c hc
      cases hc
      decide
    obtain rfl := space_eq_nil (rfc_space hw) (heq ▸ hvis)
    have hlist : bytes "1,]" = [0x31, 0x2c, 0x5d] := by decide
    rw [List.nil_append, hlist] at heq
    cases hes with
    | noElements => exact absurd heq (by decide)
    | @lastElement v w j hv hw =>
      have hv' := hv.length_pos rfc8259_tame
      cases w with
      | nil =>
        have hcut : ([0x31, 0x2c] : Bytes) ++ [0x5d] = v ++ [0x5d] := heq
        obtain rfl := List.append_cancel_right hcut
        rcases hv.value_cases rfc8259_tame with ⟨hbad, -⟩ | ⟨hbad, -⟩ | ⟨hbad, -⟩ | ⟨hbad, -⟩ |
          ⟨-, -, hn⟩
        · exact absurd hbad (by decide)
        · exact absurd hbad (by decide)
        · exact absurd hbad (by decide)
        · exact absurd hbad (by decide)
        · exact absurd ((RfcNumber.text hn).bytes 0x2c (by simp)) (by decide)
      | cons b w =>
        have hlen := congrArg List.length heq
        simp only [List.length_append, List.length_cons, List.length_nil] at hlen
        obtain ⟨a, rfl⟩ := List.length_eq_one_iff.mp (show v.length = 1 by omega)
        obtain rfl := List.length_eq_zero_iff.mp (show w.length = 0 by omega)
        obtain rfl : 0x2c = b := (List.cons.inj (List.cons.inj heq).2).1
        exact absurd (hw _ List.mem_cons_self) (by decide)
    | @nextElement v w w' t j es hv hw hw' ht hes =>
      have hv' := hv.length_pos rfc8259_tame
      have ht' := ht.length_pos rfc8259_tame
      have hlen := congrArg List.length heq
      simp only [List.length_append, List.length_cons, List.length_nil] at hlen
      exact hes.elim (fun hne => hne (rfc_noElements ht (by omega))) id
  · exact absurd hbad (by decide)
  · exact absurd hbad (by decide)
  · exact absurd hbad (by decide)

/-- A vertical tab before a value is taken for white space, a sign plus for the front of a number,
and a comma may stand before a closing bracket. -/
theorem jsonSkipValue_not_rfc :
    (jsonSkipValue (0x0b :: bytes "1") = some [] ∧
      ¬ ∃ w t j, 0x0b :: bytes "1" = w ++ t ∧ rfc8259.Ws w ∧ Spells rfc8259 t (.value j)) ∧
    jsonSkipValue (bytes "[1,]") = some [] ∧
      ¬ ∃ w t j, bytes "[1,]" = w ++ t ∧ rfc8259.Ws w ∧ Spells rfc8259 t (.value j) := by
  refine ⟨⟨by decide +kernel, ?_⟩, by decide +kernel, ?_⟩
  · rintro ⟨w, t, j, hsplit, hw, ht⟩
    match w, hsplit with
    | [], hsplit =>
      obtain ⟨c, q, hcons, hc⟩ := ht.head rfc8259_tame
      rw [hcons] at hsplit
      obtain rfl := (List.cons.inj hsplit).1
      exact absurd (show valueByte 0x0b = true from hc) (by decide)
    | c :: w, hsplit =>
      obtain rfl := (List.cons.inj hsplit).1
      exact absurd (hw _ List.mem_cons_self) (by decide)
  · rintro ⟨w, t, j, hsplit, hw, ht⟩
    have hvis : NoSpace (bytes "[1,]") := by
      intro c hc
      cases hc
      decide
    obtain rfl := space_eq_nil (rfc8259_tame.space hw) (hsplit ▸ hvis)
    exact not_rfc_trailingComma j (hsplit ▸ ht)

end Sf37.Text

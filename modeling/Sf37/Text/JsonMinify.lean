/-
Sf37.Text.JsonMinify — what `json_minify_raw_value` leaves of a value.

The loop drops white space outside strings and nothing else, so it goes through a text
piece by piece: `Squeezes t m` says that the text leaves `m` and the loop is outside
strings again behind it.

* `Spells.squeezes`: a text of a dialect leaves a text of the same value without white
  space.
* `Spells.strict`: a text of the reader's dialect leaves JSON of the RFC exactly when it
  is JSON of the RFC itself, C white space aside, and then no other JSON text stands at
  the front of what it leaves.
-/
import Sf37.Text.JsonSkip

namespace Sf37.Text

/-! ## The loop, piece by piece -/

theorem minifyLoop_nil (inString escape : Bool) : minifyLoop inString escape [] = [] := by
  cases inString <;> rfl

theorem minifyLoop_inside (escape : Bool) (c : UInt8) (s : Bytes) :
    minifyLoop true escape (c :: s) =
      c ::
        (if escape then minifyLoop true false s
        else if c = 0x5c then minifyLoop true true s
        else minifyLoop (c != 0x22) false s) := rfl

theorem minifyLoop_outside (escape : Bool) (c : UInt8) (s : Bytes) :
    minifyLoop false escape (c :: s) =
      if c = 0x22 then c :: minifyLoop true escape s
      else if isspace c then minifyLoop false escape s
      else c :: minifyLoop false escape s := rfl

/-- What the loop leaves of a text. -/
abbrev squeezed (t : Bytes) : Bytes := minifyLoop false false t

/-- The loop leaves `m` of the text and is outside strings behind it. -/
def Squeezes (t m : Bytes) : Prop := ∀ u, squeezed (t ++ u) = m ++ squeezed u

theorem Squeezes.eq {t m : Bytes} (h : Squeezes t m) : squeezed t = m := by
  have hall := h []
  rwa [List.append_nil, squeezed, squeezed, minifyLoop_nil, List.append_nil] at hall

theorem Squeezes.append {t m t' m' : Bytes} (h : Squeezes t m) (h' : Squeezes t' m') :
    Squeezes (t ++ t') (m ++ m') := by
  intro u
  rw [List.append_assoc, h, h', List.append_assoc]

theorem squeezes_nil : Squeezes [] [] := fun _ => rfl

/-- White space goes. -/
theorem squeezes_space {w : Bytes} (hw : Space w) : Squeezes w [] := by
  induction w with
  | nil => exact squeezes_nil
  | cons c w ih =>
    intro u
    have hc := hw c List.mem_cons_self
    have hquote : c ≠ 0x22 := by
      rintro rfl
      cases hc
    rw [List.cons_append, squeezed, minifyLoop_outside, if_neg hquote, if_pos hc]
    exact ih (fun d hd => hw d (List.mem_cons_of_mem c hd)) u

/-- A byte that means nothing to the loop stays. -/
theorem Squeezes.cons {c : UInt8} {t m : Bytes} (hspace : isspace c = false) (hquote : c ≠ 0x22)
    (h : Squeezes t m) : Squeezes (c :: t) (c :: m) := by
  intro u
  rw [List.cons_append, squeezed, minifyLoop_outside, if_neg hquote, hspace, if_neg (by decide)]
  exact congrArg (c :: ·) (h u)

/-- Bytes that mean nothing to the loop stay. -/
theorem squeezes_visible {t : Bytes} (h : ∀ c ∈ t, isspace c = false ∧ c ≠ 0x22) :
    Squeezes t t := by
  induction t with
  | nil => exact squeezes_nil
  | cons c t ih =>
    obtain ⟨hspace, hquote⟩ := h c List.mem_cons_self
    exact .cons hspace hquote (ih fun d hd => h d (List.mem_cons_of_mem c hd))

/-- Inside a string the loop copies. -/
theorem minifyLoop_escaping {b : Bytes} (h : Escaping b) (u : Bytes) :
    minifyLoop true false (b ++ u) = b ++ minifyLoop true false u := by
  induction h with
  | nil => rfl
  | plain hquote hback _ ih =>
    rw [List.cons_append, minifyLoop_inside, if_neg (by decide), if_neg hback,
      bne_iff_ne.mpr hquote, ih]
    rfl
  | escape e _ ih => simp [minifyLoop_inside, ih]

/-- A string stays. -/
theorem squeezes_quoted {b s : Bytes} (h : StringBody AnyPlain b s) :
    Squeezes (quoted b) (quoted b) := by
  intro u
  have hcut : quoted b ++ u = 0x22 :: (b ++ 0x22 :: u) := by simp [quoted]
  rw [hcut, squeezed, minifyLoop_outside, if_pos rfl, minifyLoop_escaping h.escaping]
  simp [minifyLoop_inside, quoted]

theorem jsonWords_visible {t : Bytes} {j : Json} (h : (t, j) ∈ jsonWords) :
    ∀ c ∈ t, isspace c = false ∧ c ≠ 0x22 := by
  simp only [jsonWords, List.mem_cons, List.not_mem_nil, or_false, Prod.mk.injEq] at h
  rcases h with ⟨rfl, -⟩ | ⟨rfl, -⟩ | ⟨rfl, -⟩ <;> decide +kernel

/-- A bracket stays. -/
theorem squeezes_bracket {c : UInt8} (hspace : isspace c = false) (hquote : c ≠ 0x22) :
    Squeezes [c] [c] := .cons hspace hquote squeezes_nil

theorem squeezes_close {w : Bytes} (hw : Space w) {c : UInt8} (hspace : isspace c = false)
    (hquote : c ≠ 0x22) {t m : Bytes} (h : Squeezes t m) : Squeezes (w ++ c :: t) (c :: m) :=
  (squeezes_space hw).append (.cons hspace hquote h)

/-- A text leaves its tokens, one behind the other. -/
theorem Lexes.squeeze {D : Dialect} (hD : D.Tame) {t : Bytes} {x : Item} {ts : List Bytes}
    (h : Lexes D t x ts) : Squeezes t ts.flatten ∧ Lexes D.tight ts.flatten x ts := by
  have hnil := D.tight_ws_nil
  induction h with
  | @word t j hj =>
    rw [List.flatten_singleton]
    exact ⟨squeezes_visible (jsonWords_visible hj), .word hj⟩
  | @string b s hb =>
    rw [List.flatten_singleton]
    exact ⟨squeezes_quoted (hD.body _ _ hb), .string hb⟩
  | @number t hn =>
    rw [List.flatten_singleton]
    exact ⟨squeezes_visible fun c hc => numberByte_visible ((hD.number t hn).bytes c hc),
      .number hn⟩
  | array hw _ ih =>
    obtain ⟨hm, hlex⟩ := ih
    exact ⟨.cons (by decide) (by decide) ((squeezes_space (hD.space hw)).append hm),
      .array hnil hlex⟩
  | noElements => exact ⟨squeezes_bracket (by decide) (by decide), .noElements⟩
  | @lastElement v w j ts _ hw ih =>
    obtain ⟨hm, hlex⟩ := ih
    have hflat : (ts ++ [[0x5d]]).flatten = ts.flatten ++ ([] ++ [0x5d]) := by simp
    rw [hflat]
    exact ⟨hm.append (squeezes_close (hD.space hw) (by decide) (by decide) squeezes_nil),
      .lastElement hlex hnil⟩
  | @nextElement v w w' t j es ts ts' _ hw hw' _ hes ihv iht =>
    obtain ⟨hm, hlex⟩ := ihv
    obtain ⟨hm', hlex'⟩ := iht
    have hflat : (ts ++ [0x2c] :: ts').flatten =
        ts.flatten ++ ([] ++ 0x2c :: ([] ++ ts'.flatten)) := by simp
    rw [hflat]
    exact ⟨hm.append (squeezes_close (hD.space hw) (by decide) (by decide)
      ((squeezes_space (hD.space hw')).append hm')), .nextElement hlex hnil hnil hlex' hes⟩
  | object hw _ ih =>
    obtain ⟨hm, hlex⟩ := ih
    exact ⟨.cons (by decide) (by decide) ((squeezes_space (hD.space hw)).append hm),
      .object hnil hlex⟩
  | noMembers => exact ⟨squeezes_bracket (by decide) (by decide), .noMembers⟩
  | @lastMember b k w₁ w₂ v w j ts hk hw₁ hw₂ _ hw ih =>
    obtain ⟨hm, hlex⟩ := ih
    have hflat : (quoted b :: [0x3a] :: (ts ++ [[0x7d]])).flatten =
        quoted b ++ ([] ++ 0x3a :: ([] ++ (ts.flatten ++ ([] ++ [0x7d])))) := by simp
    rw [hflat]
    exact ⟨(squeezes_quoted (hD.body _ _ hk)).append
      (squeezes_close (hD.space hw₁) (by decide) (by decide)
        ((squeezes_space (hD.space hw₂)).append (hm.append
          (squeezes_close (hD.space hw) (by decide) (by decide) squeezes_nil)))),
      .lastMember hk hnil hnil hlex hnil⟩
  | @nextMember b k w₁ w₂ v w w' t j ms ts ts' hk hw₁ hw₂ _ hw hw' _ hms ihv iht =>
    obtain ⟨hm, hlex⟩ := ihv
    obtain ⟨hm', hlex'⟩ := iht
    have hflat : (quoted b :: [0x3a] :: (ts ++ [0x2c] :: ts')).flatten = quoted b ++
        ([] ++ 0x3a :: ([] ++ (ts.flatten ++ ([] ++ 0x2c :: ([] ++ ts'.flatten))))) := by simp
    rw [hflat]
    exact ⟨(squeezes_quoted (hD.body _ _ hk)).append
      (squeezes_close (hD.space hw₁) (by decide) (by decide)
        ((squeezes_space (hD.space hw₂)).append (hm.append
          (squeezes_close (hD.space hw) (by decide) (by decide)
            ((squeezes_space (hD.space hw')).append hm'))))),
      .nextMember hk hnil hnil hlex hnil hnil hlex' hms⟩

/-- A text leaves a text of the same value without white space. -/
theorem Spells.squeeze {D : Dialect} (hD : D.Tame) {t : Bytes} {x : Item} (h : Spells D t x) :
    ∃ m, Squeezes t m ∧ Spells D.tight m x := by
  obtain ⟨ts, hlex⟩ := h.lexes
  obtain ⟨hm, hlex⟩ := hlex.squeeze hD
  exact ⟨_, hm, hlex.spells⟩

theorem Spells.squeezes {D : Dialect} (hD : D.Tame) {t : Bytes} {x : Item} (h : Spells D t x) :
    Squeezes t (squeezed t) ∧ Spells D.tight (squeezed t) x := by
  obtain ⟨m, hm, hspell⟩ := h.squeeze hD
  rw [hm.eq]
  exact ⟨hm, hspell⟩

/-- A text without white space stays. -/
theorem Spells.squeezes_self {E : Dialect} (hE : E.Tame) (hws : ∀ w, E.Ws w → w = [])
    {t : Bytes} {x : Item} (h : Spells E t x) : Squeezes t t := by
  induction h with
  | word hj => exact squeezes_visible (jsonWords_visible hj)
  | string hb => exact squeezes_quoted (hE.body _ _ hb)
  | number hn =>
    exact squeezes_visible fun c hc => numberByte_visible ((hE.number _ hn).bytes c hc)
  | array hw _ ih =>
    obtain rfl := hws _ hw
    exact .cons (by decide) (by decide) ih
  | noElements => exact squeezes_bracket (by decide) (by decide)
  | lastElement _ hw ih =>
    obtain rfl := hws _ hw
    exact ih.append (squeezes_bracket (by decide) (by decide))
  | nextElement _ hw hw' _ _ ihv iht =>
    obtain rfl := hws _ hw
    obtain rfl := hws _ hw'
    exact ihv.append (.cons (by decide) (by decide) iht)
  | object hw _ ih =>
    obtain rfl := hws _ hw
    exact .cons (by decide) (by decide) ih
  | noMembers => exact squeezes_bracket (by decide) (by decide)
  | lastMember hk hw₁ hw₂ _ hw ih =>
    obtain rfl := hws _ hw₁
    obtain rfl := hws _ hw₂
    obtain rfl := hws _ hw
    exact (squeezes_quoted (hE.body _ _ hk)).append
      (.cons (by decide) (by decide) (ih.append (squeezes_bracket (by decide) (by decide))))
  | nextMember hk hw₁ hw₂ _ hw hw' _ _ ihv iht =>
    obtain rfl := hws _ hw₁
    obtain rfl := hws _ hw₂
    obtain rfl := hws _ hw
    obtain rfl := hws _ hw'
    exact (squeezes_quoted (hE.body _ _ hk)).append
      (.cons (by decide) (by decide) (ihv.append (.cons (by decide) (by decide) iht)))

theorem Dialect.Tame.tight {D : Dialect} (h : D.Tame) : D.tight.Tame where
  ws := fun _ hc => Bool.noConfusion hc
  body := h.body
  number := h.number

theorem Dialect.tight_ws_eq_nil (D : Dialect) (w : Bytes) (h : D.tight.Ws w) : w = [] := by
  match w, h with
  | [], _ => rfl
  | c :: w, h => exact Bool.noConfusion (h c List.mem_cons_self)

/-- What is left of a text is left of itself. -/
theorem Spells.squeezed_squeezes {D : Dialect} (hD : D.Tame) {t : Bytes} {x : Item}
    (h : Spells D t x) : Squeezes (squeezed t) (squeezed t) :=
  (h.squeezes hD).2.squeezes_self hD.tight D.tight_ws_eq_nil

/-- `json_minify_raw_value` on a text that begins with a value. -/
theorem jsonMinifyRawValue_eq {w t r : Bytes} {j : Json} (hw : Space w)
    (h : Spells serverJson t (.value j)) (hskip : jsonSkipValue (t ++ r) = some r) :
    jsonMinifyRawValue (w ++ (t ++ r)) = squeezed t := by
  rw [jsonMinifyRawValue, jsonWs_append hw (h.noSpace serverJson_tame r)]
  simp only [hskip]
  rw [List.length_append, Nat.add_sub_cancel, List.take_left]

/-! ## What is left of a text and JSON of the RFC -/

/-- The two items are of one kind. -/
def SameKind : Item → Item → Prop
  | .value _, .value _ => True
  | .elements _, .elements _ => True
  | .members _, .members _ => True
  | _, _ => False

/-- Behind the quotes, the brackets and the words: what a value can be, by its first
byte. -/
theorem Spells.value_cases {D : Dialect} (hD : D.Tame) {c : UInt8} {r : Bytes} {j : Json}
    (h : Spells D (c :: r) (.value j)) :
    (c = 0x22 ∧ ∃ b s, c :: r = quoted b ∧ j = .str s ∧ StringBody D.plain b s) ∨
    (c = 0x5b ∧ ∃ w t es, r = w ++ t ∧ j = .arr es ∧ D.Ws w ∧ Spells D t (.elements es)) ∨
    (c = 0x7b ∧ ∃ w t ms, r = w ++ t ∧ j = .obj ms ∧ D.Ws w ∧ Spells D t (.members ms)) ∨
    ((c = 0x74 ∨ c = 0x66 ∨ c = 0x6e) ∧ (c :: r, j) ∈ jsonWords) ∨
    (numberFirst c = true ∧ j = .num (c :: r) ∧ D.number (c :: r)) := by
  generalize ht : c :: r = t at h
  generalize hx : Item.value j = x at h
  cases h with
  | word hj =>
    cases hx
    refine .inr (.inr (.inr (.inl ⟨?_, hj⟩)))
    rw [← ht] at hj
    simp only [jsonWords, List.mem_cons, List.not_mem_nil, or_false, Prod.mk.injEq] at hj
    rcases hj with ⟨hj, -⟩ | ⟨hj, -⟩ | ⟨hj, -⟩
    · exact .inl (congrArg List.head? hj |> Option.some.inj)
    · exact .inr (.inl (congrArg List.head? hj |> Option.some.inj))
    · exact .inr (.inr (congrArg List.head? hj |> Option.some.inj))
  | string hb =>
    cases hx
    exact .inl ⟨(List.cons.inj ht).1, _, _, rfl, rfl, hb⟩
  | number hn =>
    cases hx
    obtain ⟨c', r', heq, hc'⟩ := (hD.number _ hn).head
    rw [heq] at ht
    obtain ⟨rfl, rfl⟩ := List.cons.inj ht
    exact .inr (.inr (.inr (.inr ⟨hc', rfl, hn⟩)))
  | array hw hes =>
    cases hx
    obtain ⟨rfl, rfl⟩ := List.cons.inj ht
    exact .inr (.inl ⟨rfl, _, _, _, rfl, rfl, hw, hes⟩)
  | object hw hms =>
    cases hx
    obtain ⟨rfl, rfl⟩ := List.cons.inj ht
    exact .inr (.inr (.inl ⟨rfl, _, _, _, rfl, rfl, hw, hms⟩))
  | noElements => cases hx
  | lastElement _ _ => cases hx
  | nextElement _ _ _ _ _ => cases hx
  | noMembers => cases hx
  | lastMember _ _ _ _ _ => cases hx
  | nextMember _ _ _ _ _ _ _ _ => cases hx

/-- A text `m` left of `t` is at the front of a text only where the RFC reads `m` there
too, and then `t` is JSON of the RFC but for white space. -/
def StrictText (t m : Bytes) (x : Item) : Prop :=
  ∀ u u₀ t₀ x₀, SameKind x x₀ → m ++ u = t₀ ++ u₀ → Stops u → Stops u₀ →
    Spells rfc8259 t₀ x₀ → t₀ = m ∧ x₀ = x ∧ Spells rfc8259.spaced t x

theorem rfc_space {w : Bytes} (hw : rfc8259.Ws w) : Space w := rfc8259_tame.space hw

/-- Where a visible byte stands, the RFC reads no white space. -/
theorem visible_eq_ws {c d : UInt8} {w a b : Bytes} (hw : rfc8259.Ws w)
    (hc : isspace c = false) (h : c :: a = w ++ d :: b) : w = [] ∧ c = d ∧ a = b := by
  obtain rfl := space_eq_nil (rfc_space hw) (h ▸ noSpace_cons hc a)
  exact ⟨rfl, (List.cons.inj h).1, (List.cons.inj h).2⟩

theorem noSpace_eq_ws {p w q : Bytes} (hw : rfc8259.Ws w) (hp : NoSpace p) (h : p = w ++ q) :
    w = [] ∧ p = q := by
  obtain rfl := space_eq_nil (rfc_space hw) (h ▸ hp)
  exact ⟨rfl, h⟩

/-- The words differ in their first byte. -/
theorem jsonWords_unique {t t' : Bytes} {j j' : Json} (h : (t, j) ∈ jsonWords)
    (h' : (t', j') ∈ jsonWords) (hhead : t.head? = t'.head?) : t' = t ∧ j' = j := by
  simp only [jsonWords, List.mem_cons, List.not_mem_nil, or_false, Prod.mk.injEq] at h h'
  rcases h with ⟨rfl, rfl⟩ | ⟨rfl, rfl⟩ | ⟨rfl, rfl⟩ <;>
    rcases h' with ⟨rfl, rfl⟩ | ⟨rfl, rfl⟩ | ⟨rfl, rfl⟩ <;>
    first
    | exact ⟨rfl, rfl⟩
    | exact absurd hhead (by decide)

theorem jsonWords_head {t : Bytes} {j : Json} (h : (t, j) ∈ jsonWords) :
    ∃ c r, t = c :: r ∧ (c = 0x74 ∨ c = 0x66 ∨ c = 0x6e) := by
  simp only [jsonWords, List.mem_cons, List.not_mem_nil, or_false, Prod.mk.injEq] at h
  rcases h with ⟨rfl, -⟩ | ⟨rfl, -⟩ | ⟨rfl, -⟩
  · exact ⟨0x74, bytes "rue", by decide, by decide⟩
  · exact ⟨0x66, bytes "alse", by decide, by decide⟩
  · exact ⟨0x6e, bytes "ull", by decide, by decide⟩

/-- A value of the RFC at a place where a text begins with the byte `c`. -/
theorem rfcValue_at {c : UInt8} {r u t₀ u₀ : Bytes} {x₀ : Item} {j : Json}
    (hkind : SameKind (.value j) x₀) (heq : c :: r ++ u = t₀ ++ u₀) (h : Spells rfc8259 t₀ x₀) :
    ∃ r₀ j₀, t₀ = c :: r₀ ∧ x₀ = .value j₀ ∧ Spells rfc8259 (c :: r₀) (.value j₀) := by
  match x₀, hkind with
  | .value j₀, _ =>
    obtain ⟨c₀, r₀, rfl, -⟩ := h.head rfc8259_tame
    obtain rfl : c = c₀ := (List.cons.inj heq).1
    exact ⟨r₀, j₀, rfl, rfl, h⟩

theorem strict_word {t : Bytes} {j : Json} (hj : (t, j) ∈ jsonWords) :
    StrictText t t (.value j) := by
  intro u u₀ t₀ x₀ hkind heq _ _ h
  obtain ⟨c, r, rfl, hc⟩ := jsonWords_head hj
  obtain ⟨r₀, j₀, rfl, rfl, h⟩ := rfcValue_at hkind heq h
  have hall : ∀ c : UInt8, c = 0x74 ∨ c = 0x66 ∨ c = 0x6e →
      c ≠ 0x22 ∧ c ≠ 0x5b ∧ c ≠ 0x7b ∧ ¬ (isDigit c = true ∨ c = 0x2d) :=
    forall_byte (by decide +kernel)
  obtain ⟨h1, h2, h3, h4⟩ := hall c hc
  rcases h.value_cases rfc8259_tame with ⟨hbad, -⟩ | ⟨hbad, -⟩ | ⟨hbad, -⟩ | ⟨-, hj₀⟩ |
    ⟨-, -, hn₀⟩
  · exact absurd hbad h1
  · exact absurd hbad h2
  · exact absurd hbad h3
  · obtain ⟨ht, rfl⟩ := jsonWords_unique hj hj₀ rfl
    exact ⟨ht, rfl, .word hj⟩
  · obtain ⟨c₀, r₁, heq₀, hc₀⟩ := RfcNumber.head hn₀
    cases heq₀
    exact absurd hc₀ h4

theorem strict_string {b s : Bytes} (hb : StringBody AnyPlain b s) :
    StrictText (quoted b) (quoted b) (.value (.str s)) := by
  intro u u₀ t₀ x₀ hkind heq _ _ h
  obtain ⟨r₀, j₀, rfl, rfl, h⟩ := rfcValue_at hkind heq h
  rcases h.value_cases rfc8259_tame with ⟨-, b₀, s₀, ht₀, rfl, hb₀⟩ | ⟨hbad, -⟩ | ⟨hbad, -⟩ |
    ⟨hbad, -⟩ | ⟨hbad, -⟩
  · rw [ht₀] at heq ⊢
    have hrfc : StringBody RfcPlain b₀ s₀ := hb₀
    obtain ⟨rfl, rfl, -⟩ := quoted_append_unique hb hrfc.any heq
    exact ⟨rfl, rfl, .string hrfc⟩
  · exact absurd hbad (by decide)
  · exact absurd hbad (by decide)
  · exact absurd hbad (by decide)
  · exact absurd hbad (by decide)

theorem strict_number {t : Bytes} (hn : AcceptedNumber t) :
    StrictText t t (.value (.num t)) := by
  intro u u₀ t₀ x₀ hkind heq hu hu₀ h
  obtain ⟨c, r, rfl, hc⟩ := hn.head
  obtain ⟨r₀, j₀, rfl, rfl, h⟩ := rfcValue_at hkind heq h
  obtain ⟨-, h1, h2, h3⟩ := numberFirst_spec hc
  rcases h.value_cases rfc8259_tame with ⟨hbad, -⟩ | ⟨hbad, -⟩ | ⟨hbad, -⟩ | ⟨-, hword⟩ |
    ⟨-, rfl, hn₀⟩
  · exact absurd hbad h1
  · exact absurd hbad h3
  · exact absurd hbad h2
  · have hno := hn.noWord _ _ u hword
    rw [heq, Bool.eq_false_iff] at hno
    exact absurd (startsWith_iff.mpr ⟨u₀, rfl⟩) hno
  · have hrfc : RfcNumber (c :: r₀) := hn₀
    have hread := strtod_rfcNumber hrfc hu₀
    rw [← heq, hn.read u hu] at hread
    obtain rfl : u = u₀ := Option.some.inj hread
    have ht := List.append_cancel_right heq
    rw [← ht] at hrfc ⊢
    exact ⟨rfl, rfl, .number hrfc⟩

theorem strict_array {w t : Bytes} {es : List Json} (hw : Space w)
    (ht : Spells serverJson t (.elements es)) (ih : StrictText t (squeezed t) (.elements es)) :
    StrictText (0x5b :: (w ++ t)) (0x5b :: squeezed t) (.value (.arr es)) := by
  intro u u₀ t₀ x₀ hkind heq hu hu₀ h
  obtain ⟨r₀, j₀, rfl, rfl, h⟩ := rfcValue_at hkind heq h
  rcases h.value_cases rfc8259_tame with ⟨hbad, -⟩ | ⟨-, w₀, t₀, es₀, rfl, rfl, hw₀, hes₀⟩ |
    ⟨hbad, -⟩ | ⟨hbad, -⟩ | ⟨hbad, -⟩
  · exact absurd hbad (by decide)
  · have htail : squeezed t ++ u = w₀ ++ (t₀ ++ u₀) := by simpa using heq
    have hvis := (ht.squeezes serverJson_tame).2.noSpace serverJson_tame.tight u
    obtain ⟨rfl, htail⟩ := noSpace_eq_ws hw₀ hvis htail
    obtain ⟨rfl, hitem, hspell⟩ := ih u u₀ t₀ (.elements es₀) trivial htail hu hu₀ hes₀
    cases hitem
    exact ⟨rfl, rfl, .array hw hspell⟩
  · exact absurd hbad (by decide)
  · exact absurd hbad (by decide)
  · exact absurd hbad (by decide)

theorem strict_object {w t : Bytes} {ms : List (Bytes × Json)} (hw : Space w)
    (ht : Spells serverJson t (.members ms)) (ih : StrictText t (squeezed t) (.members ms)) :
    StrictText (0x7b :: (w ++ t)) (0x7b :: squeezed t) (.value (.obj ms)) := by
  intro u u₀ t₀ x₀ hkind heq hu hu₀ h
  obtain ⟨r₀, j₀, rfl, rfl, h⟩ := rfcValue_at hkind heq h
  rcases h.value_cases rfc8259_tame with ⟨hbad, -⟩ | ⟨hbad, -⟩ |
    ⟨-, w₀, t₀, ms₀, rfl, rfl, hw₀, hms₀⟩ | ⟨hbad, -⟩ | ⟨hbad, -⟩
  · exact absurd hbad (by decide)
  · exact absurd hbad (by decide)
  · have htail : squeezed t ++ u = w₀ ++ (t₀ ++ u₀) := by simpa using heq
    have hvis := (ht.squeezes serverJson_tame).2.noSpace serverJson_tame.tight u
    obtain ⟨rfl, htail⟩ := noSpace_eq_ws hw₀ hvis htail
    obtain ⟨rfl, hitem, hspell⟩ := ih u u₀ t₀ (.members ms₀) trivial htail hu hu₀ hms₀
    cases hitem
    exact ⟨rfl, rfl, .object hw hspell⟩
  · exact absurd hbad (by decide)
  · exact absurd hbad (by decide)

/-- What the RFC reads where a value of the reader leaves `m`. -/
theorem StrictText.value {t m : Bytes} {j : Json} (h : StrictText t m (.value j))
    {u v₀ u₀ : Bytes} {j₀ : Json} (heq : m ++ u = v₀ ++ u₀) (hu : Stops u) (hu₀ : Stops u₀)
    (hv₀ : Spells rfc8259 v₀ (.value j₀)) :
    u = u₀ ∧ v₀ = m ∧ j₀ = j ∧ Spells rfc8259.spaced t (.value j) := by
  obtain ⟨rfl, hitem, hspell⟩ := h u u₀ v₀ (.value j₀) trivial heq hu hu₀ hv₀
  cases hitem
  exact ⟨List.append_cancel_left heq, rfl, rfl, hspell⟩

/-- A text of the reader does not leave a closing bracket where a value stands. -/
theorem squeezed_ne_close {v : Bytes} {j : Json} (hv : Spells serverJson v (.value j))
    {a u₀ : Bytes} {c : UInt8} (hc : c = 0x5d ∨ c = 0x7d)
    (heq : squeezed v ++ a = [c] ++ u₀) : False := by
  obtain ⟨d, r, hd, hbyte⟩ := (hv.squeezes serverJson_tame).2.head serverJson_tame.tight
  rw [hd] at heq
  obtain rfl : d = c := (List.cons.inj heq).1
  obtain ⟨-, h1, h2, -⟩ := valueByte_spec hbyte
  exact hc.elim h1 h2

theorem strict_lastElement {v w : Bytes} {j : Json} (hv : Spells serverJson v (.value j))
    (hw : Space w) (ih : StrictText v (squeezed v) (.value j)) :
    StrictText (v ++ (w ++ [0x5d])) (squeezed v ++ [0x5d]) (.elements [j]) := by
  intro u u₀ t₀ x₀ hkind heq hu hu₀ h
  have hclose : Stops (0x5d :: u) := stops_cons (by decide) u
  rw [List.append_assoc, List.singleton_append] at heq
  cases h with
  | noElements => exact (squeezed_ne_close hv (.inl rfl) heq).elim
  | @lastElement v₀ w₀ j₀ hv₀ hw₀ =>
    have hcut : squeezed v ++ 0x5d :: u = v₀ ++ (w₀ ++ 0x5d :: u₀) := by simpa using heq
    have hstop : Stops (w₀ ++ 0x5d :: u₀) :=
      stops_space (rfc_space hw₀) (stops_cons (by decide) u₀)
    obtain ⟨hrest, rfl, rfl, hspell⟩ := ih.value hcut hclose hstop hv₀
    obtain ⟨rfl, -, -⟩ := visible_eq_ws hw₀ (by decide) hrest
    exact ⟨rfl, rfl, .lastElement hspell hw⟩
  | @nextElement v₀ w₀ w₀' t₀ j₀ es₀ hv₀ hw₀ hw₀' ht₀ hes₀ =>
    have hcut : squeezed v ++ 0x5d :: u = v₀ ++ (w₀ ++ 0x2c :: (w₀' ++ (t₀ ++ u₀))) := by
      simpa using heq
    have hstop : Stops (w₀ ++ 0x2c :: (w₀' ++ (t₀ ++ u₀))) :=
      stops_space (rfc_space hw₀) (stops_cons (by decide) _)
    obtain ⟨hrest, -, -, -⟩ := ih.value hcut hclose hstop hv₀
    obtain ⟨-, hbad, -⟩ := visible_eq_ws hw₀ (by decide) hrest
    exact absurd hbad (by decide)
  | word _ => exact hkind.elim
  | string _ => exact hkind.elim
  | number _ => exact hkind.elim
  | array _ _ => exact hkind.elim
  | object _ _ => exact hkind.elim
  | noMembers => exact hkind.elim
  | lastMember _ _ _ _ _ => exact hkind.elim
  | nextMember _ _ _ _ _ _ _ _ => exact hkind.elim

theorem strict_nextElement {v w w' t : Bytes} {j : Json} {es : List Json}
    (hv : Spells serverJson v (.value j)) (hw : Space w) (hw' : Space w')
    (ht : Spells serverJson t (.elements es)) (ihv : StrictText v (squeezed v) (.value j))
    (iht : StrictText t (squeezed t) (.elements es)) :
    StrictText (v ++ (w ++ 0x2c :: (w' ++ t))) (squeezed v ++ 0x2c :: squeezed t)
      (.elements (j :: es)) := by
  intro u u₀ t₀ x₀ hkind heq hu hu₀ h
  have hcomma : Stops (0x2c :: (squeezed t ++ u)) := stops_cons (by decide) _
  rw [List.append_assoc, List.cons_append] at heq
  cases h with
  | noElements => exact (squeezed_ne_close hv (.inl rfl) heq).elim
  | @lastElement v₀ w₀ j₀ hv₀ hw₀ =>
    have hcut : squeezed v ++ 0x2c :: (squeezed t ++ u) = v₀ ++ (w₀ ++ 0x5d :: u₀) := by
      simpa using heq
    have hstop : Stops (w₀ ++ 0x5d :: u₀) :=
      stops_space (rfc_space hw₀) (stops_cons (by decide) u₀)
    obtain ⟨hrest, -, -, -⟩ := ihv.value hcut hcomma hstop hv₀
    obtain ⟨-, hbad, -⟩ := visible_eq_ws hw₀ (by decide) hrest
    exact absurd hbad (by decide)
  | @nextElement v₀ w₀ w₀' t₀ j₀ es₀ hv₀ hw₀ hw₀' ht₀ hes₀ =>
    have hcut : squeezed v ++ 0x2c :: (squeezed t ++ u) =
        v₀ ++ (w₀ ++ 0x2c :: (w₀' ++ (t₀ ++ u₀))) := by
      simpa using heq
    have hstop : Stops (w₀ ++ 0x2c :: (w₀' ++ (t₀ ++ u₀))) :=
      stops_space (rfc_space hw₀) (stops_cons (by decide) _)
    obtain ⟨hrest, rfl, rfl, hspell⟩ := ihv.value hcut hcomma hstop hv₀
    obtain ⟨rfl, -, htail⟩ := visible_eq_ws hw₀ (by decide) hrest
    have hvis := (ht.squeezes serverJson_tame).2.noSpace serverJson_tame.tight u
    obtain ⟨rfl, htail⟩ := noSpace_eq_ws hw₀' hvis htail
    obtain ⟨rfl, hitem, hspell'⟩ := iht u u₀ t₀ (.elements es₀) trivial htail hu hu₀ ht₀
    cases hitem
    exact ⟨rfl, rfl, .nextElement hspell hw hw' hspell' hes₀⟩
  | word _ => exact hkind.elim
  | string _ => exact hkind.elim
  | number _ => exact hkind.elim
  | array _ _ => exact hkind.elim
  | object _ _ => exact hkind.elim
  | noMembers => exact hkind.elim
  | lastMember _ _ _ _ _ => exact hkind.elim
  | nextMember _ _ _ _ _ _ _ _ => exact hkind.elim

/-- The key and the colon of a member of the RFC. -/
theorem rfcKey_at {b k b₀ k₀ w₁ w₂ p m q : Bytes} (hk : StringBody AnyPlain b k)
    (hk₀ : StringBody RfcPlain b₀ k₀) (hw₁ : rfc8259.Ws w₁) (hw₂ : rfc8259.Ws w₂)
    (hp : p = m) (hvis : NoSpace m)
    (heq : quoted b ++ 0x3a :: p = quoted b₀ ++ (w₁ ++ 0x3a :: (w₂ ++ q))) :
    b₀ = b ∧ k₀ = k ∧ w₁ = [] ∧ w₂ = [] ∧ m = q := by
  subst hp
  obtain ⟨rfl, rfl, hrest⟩ := quoted_append_unique hk hk₀.any heq
  obtain ⟨rfl, -, htail⟩ := visible_eq_ws hw₁ (by decide) hrest
  obtain ⟨rfl, hq⟩ := noSpace_eq_ws hw₂ hvis htail
  exact ⟨rfl, rfl, rfl, rfl, hq⟩

theorem strict_noElements : StrictText [0x5d] [0x5d] (.elements []) := by
  intro u u₀ t₀ x₀ hkind heq _ _ h
  have hne : ∀ {v₀ a : Bytes} {j₀ : Json}, Spells rfc8259 v₀ (.value j₀) →
      ([0x5d] : Bytes) ++ u = v₀ ++ a → False := by
    intro v₀ a j₀ hv₀ hcut
    obtain ⟨c, r, rfl, hc⟩ := hv₀.head rfc8259_tame
    exact (valueByte_spec hc).2.1 (List.cons.inj hcut).1.symm
  cases h with
  | noElements => exact ⟨rfl, rfl, .noElements⟩
  | lastElement hv₀ _ =>
    rw [List.append_assoc] at heq
    exact (hne hv₀ heq).elim
  | nextElement hv₀ _ _ _ _ =>
    rw [List.append_assoc] at heq
    exact (hne hv₀ heq).elim
  | word _ => exact hkind.elim
  | string _ => exact hkind.elim
  | number _ => exact hkind.elim
  | array _ _ => exact hkind.elim
  | object _ _ => exact hkind.elim
  | noMembers => exact hkind.elim
  | lastMember _ _ _ _ _ => exact hkind.elim
  | nextMember _ _ _ _ _ _ _ _ => exact hkind.elim

theorem strict_noMembers : StrictText [0x7d] [0x7d] (.members []) := by
  intro u u₀ t₀ x₀ hkind heq _ _ h
  cases h with
  | noMembers => exact ⟨rfl, rfl, .noMembers⟩
  | lastMember _ _ _ _ _ => exact absurd (List.cons.inj heq).1 (by decide)
  | nextMember _ _ _ _ _ _ _ _ => exact absurd (List.cons.inj heq).1 (by decide)
  | word _ => exact hkind.elim
  | string _ => exact hkind.elim
  | number _ => exact hkind.elim
  | array _ _ => exact hkind.elim
  | object _ _ => exact hkind.elim
  | noElements => exact hkind.elim
  | lastElement _ _ => exact hkind.elim
  | nextElement _ _ _ _ _ => exact hkind.elim

/-- A key does not begin with the brace that closes an object. -/
theorem quoted_ne_close {b a u₀ : Bytes} (heq : quoted b ++ a = [0x7d] ++ u₀) : False :=
  absurd (List.cons.inj heq).1 (by decide)

theorem strict_lastMember {b k w₁ w₂ v w : Bytes} {j : Json} (hk : StringBody AnyPlain b k)
    (hw₁ : Space w₁) (hw₂ : Space w₂) (hv : Spells serverJson v (.value j)) (hw : Space w)
    (ih : StrictText v (squeezed v) (.value j)) :
    StrictText (quoted b ++ (w₁ ++ 0x3a :: (w₂ ++ (v ++ (w ++ [0x7d])))))
      (quoted b ++ 0x3a :: (squeezed v ++ [0x7d])) (.members [(k, j)]) := by
  intro u u₀ t₀ x₀ hkind heq hu hu₀ h
  have hclose : Stops (0x7d :: u) := stops_cons (by decide) u
  have hvis := (hv.squeezes serverJson_tame).2.noSpace serverJson_tame.tight (0x7d :: u)
  have hleft : quoted b ++ 0x3a :: (squeezed v ++ [0x7d]) ++ u =
      quoted b ++ 0x3a :: (squeezed v ++ 0x7d :: u) := by simp
  rw [hleft] at heq
  cases h with
  | noMembers => exact (quoted_ne_close heq).elim
  | @lastMember b₀ k₀ w₃ w₄ v₀ w₀ j₀ hk₀ hw₃ hw₄ hv₀ hw₀ =>
    have hcut : quoted b ++ 0x3a :: (squeezed v ++ 0x7d :: u) =
        quoted b₀ ++ (w₃ ++ 0x3a :: (w₄ ++ (v₀ ++ (w₀ ++ 0x7d :: u₀)))) := by simpa using heq
    obtain ⟨rfl, rfl, rfl, rfl, hval⟩ := rfcKey_at hk hk₀ hw₃ hw₄ rfl hvis hcut
    have hstop : Stops (w₀ ++ 0x7d :: u₀) :=
      stops_space (rfc_space hw₀) (stops_cons (by decide) u₀)
    obtain ⟨hrest, rfl, rfl, hspell⟩ := ih.value hval hclose hstop hv₀
    obtain ⟨rfl, -, -⟩ := visible_eq_ws hw₀ (by decide) hrest
    exact ⟨rfl, rfl, .lastMember (D := rfc8259.spaced) hk₀ hw₁ hw₂ hspell hw⟩
  | @nextMember b₀ k₀ w₃ w₄ v₀ w₀ w₀' t₀ j₀ ms₀ hk₀ hw₃ hw₄ hv₀ hw₀ hw₀' ht₀ hms₀ =>
    have hcut : quoted b ++ 0x3a :: (squeezed v ++ 0x7d :: u) =
        quoted b₀ ++ (w₃ ++ 0x3a :: (w₄ ++ (v₀ ++ (w₀ ++ 0x2c :: (w₀' ++ (t₀ ++ u₀)))))) := by
      simpa using heq
    obtain ⟨rfl, rfl, rfl, rfl, hval⟩ := rfcKey_at hk hk₀ hw₃ hw₄ rfl hvis hcut
    have hstop : Stops (w₀ ++ 0x2c :: (w₀' ++ (t₀ ++ u₀))) :=
      stops_space (rfc_space hw₀) (stops_cons (by decide) _)
    obtain ⟨hrest, -, -, -⟩ := ih.value hval hclose hstop hv₀
    obtain ⟨-, hbad, -⟩ := visible_eq_ws hw₀ (by decide) hrest
    exact absurd hbad (by decide)
  | word _ => exact hkind.elim
  | string _ => exact hkind.elim
  | number _ => exact hkind.elim
  | array _ _ => exact hkind.elim
  | object _ _ => exact hkind.elim
  | noElements => exact hkind.elim
  | lastElement _ _ => exact hkind.elim
  | nextElement _ _ _ _ _ => exact hkind.elim

theorem strict_nextMember {b k w₁ w₂ v w w' t : Bytes} {j : Json} {ms : List (Bytes × Json)}
    (hk : StringBody AnyPlain b k) (hw₁ : Space w₁) (hw₂ : Space w₂)
    (hv : Spells serverJson v (.value j)) (hw : Space w) (hw' : Space w')
    (ht : Spells serverJson t (.members ms)) (ihv : StrictText v (squeezed v) (.value j))
    (iht : StrictText t (squeezed t) (.members ms)) :
    StrictText (quoted b ++ (w₁ ++ 0x3a :: (w₂ ++ (v ++ (w ++ 0x2c :: (w' ++ t))))))
      (quoted b ++ 0x3a :: (squeezed v ++ 0x2c :: squeezed t)) (.members ((k, j) :: ms)) := by
  intro u u₀ t₀ x₀ hkind heq hu hu₀ h
  have hcomma : Stops (0x2c :: (squeezed t ++ u)) := stops_cons (by decide) _
  have hvis := (hv.squeezes serverJson_tame).2.noSpace serverJson_tame.tight
    (0x2c :: (squeezed t ++ u))
  have hleft : quoted b ++ 0x3a :: (squeezed v ++ 0x2c :: squeezed t) ++ u =
      quoted b ++ 0x3a :: (squeezed v ++ 0x2c :: (squeezed t ++ u)) := by simp
  rw [hleft] at heq
  cases h with
  | noMembers => exact (quoted_ne_close heq).elim
  | @lastMember b₀ k₀ w₃ w₄ v₀ w₀ j₀ hk₀ hw₃ hw₄ hv₀ hw₀ =>
    have hcut : quoted b ++ 0x3a :: (squeezed v ++ 0x2c :: (squeezed t ++ u)) =
        quoted b₀ ++ (w₃ ++ 0x3a :: (w₄ ++ (v₀ ++ (w₀ ++ 0x7d :: u₀)))) := by simpa using heq
    obtain ⟨rfl, rfl, rfl, rfl, hval⟩ := rfcKey_at hk hk₀ hw₃ hw₄ rfl hvis hcut
    have hstop : Stops (w₀ ++ 0x7d :: u₀) :=
      stops_space (rfc_space hw₀) (stops_cons (by decide) u₀)
    obtain ⟨hrest, -, -, -⟩ := ihv.value hval hcomma hstop hv₀
    obtain ⟨-, hbad, -⟩ := visible_eq_ws hw₀ (by decide) hrest
    exact absurd hbad (by decide)
  | @nextMember b₀ k₀ w₃ w₄ v₀ w₀ w₀' t₀ j₀ ms₀ hk₀ hw₃ hw₄ hv₀ hw₀ hw₀' ht₀ hms₀ =>
    have hcut : quoted b ++ 0x3a :: (squeezed v ++ 0x2c :: (squeezed t ++ u)) =
        quoted b₀ ++ (w₃ ++ 0x3a :: (w₄ ++ (v₀ ++ (w₀ ++ 0x2c :: (w₀' ++ (t₀ ++ u₀)))))) := by
      simpa using heq
    obtain ⟨rfl, rfl, rfl, rfl, hval⟩ := rfcKey_at hk hk₀ hw₃ hw₄ rfl hvis hcut
    have hstop : Stops (w₀ ++ 0x2c :: (w₀' ++ (t₀ ++ u₀))) :=
      stops_space (rfc_space hw₀) (stops_cons (by decide) _)
    obtain ⟨hrest, rfl, rfl, hspell⟩ := ihv.value hval hcomma hstop hv₀
    obtain ⟨rfl, -, htail⟩ := visible_eq_ws hw₀ (by decide) hrest
    have hvis' := (ht.squeezes serverJson_tame).2.noSpace serverJson_tame.tight u
    obtain ⟨rfl, htail⟩ := noSpace_eq_ws hw₀' hvis' htail
    obtain ⟨rfl, hitem, hspell'⟩ := iht u u₀ t₀ (.members ms₀) trivial htail hu hu₀ ht₀
    cases hitem
    exact ⟨rfl, rfl, .nextMember (D := rfc8259.spaced) hk₀ hw₁ hw₂ hspell hw hw' hspell' hms₀⟩
  | word _ => exact hkind.elim
  | string _ => exact hkind.elim
  | number _ => exact hkind.elim
  | array _ _ => exact hkind.elim
  | object _ _ => exact hkind.elim
  | noElements => exact hkind.elim
  | lastElement _ _ => exact hkind.elim
  | nextElement _ _ _ _ _ => exact hkind.elim

/-- What a text of the reader leaves is JSON of the RFC only where the text itself is, C
white space aside, and then the RFC reads the same value. -/
theorem Spells.strict {t : Bytes} {x : Item} (h : Spells serverJson t x) :
    StrictText t (squeezed t) x := by
  have hself : ∀ {v : Bytes} {y : Item}, Spells serverJson v y → Squeezes v (squeezed v) :=
    fun hv => (hv.squeezes serverJson_tame).1
  induction h with
  | word hj =>
    rw [(squeezes_visible (jsonWords_visible hj)).eq]
    exact strict_word hj
  | string hb =>
    rw [(squeezes_quoted hb).eq]
    exact strict_string hb
  | number hn =>
    rw [(squeezes_visible fun c hc => numberByte_visible (hn.bytes c hc)).eq]
    exact strict_number hn
  | array hw ht ih =>
    rw [(Squeezes.cons (by decide) (by decide) ((squeezes_space hw).append (hself ht))).eq]
    exact strict_array hw ht ih
  | noElements =>
    rw [(squeezes_bracket (c := 0x5d) (by decide) (by decide)).eq]
    exact strict_noElements
  | lastElement hv hw ih =>
    rw [((hself hv).append (squeezes_close hw (by decide) (by decide) squeezes_nil)).eq]
    exact strict_lastElement hv hw ih
  | nextElement hv hw hw' ht _ ihv iht =>
    rw [((hself hv).append (squeezes_close hw (by decide) (by decide)
      ((squeezes_space hw').append (hself ht)))).eq]
    exact strict_nextElement hv hw hw' ht ihv iht
  | object hw ht ih =>
    rw [(Squeezes.cons (by decide) (by decide) ((squeezes_space hw).append (hself ht))).eq]
    exact strict_object hw ht ih
  | noMembers =>
    rw [(squeezes_bracket (c := 0x7d) (by decide) (by decide)).eq]
    exact strict_noMembers
  | lastMember hk hw₁ hw₂ hv hw ih =>
    rw [((squeezes_quoted hk).append (squeezes_close hw₁ (by decide) (by decide)
      ((squeezes_space hw₂).append ((hself hv).append
        (squeezes_close hw (by decide) (by decide) squeezes_nil))))).eq]
    exact strict_lastMember hk hw₁ hw₂ hv hw ih
  | nextMember hk hw₁ hw₂ hv hw hw' ht _ ihv iht =>
    rw [((squeezes_quoted hk).append (squeezes_close hw₁ (by decide) (by decide)
      ((squeezes_space hw₂).append ((hself hv).append
        (squeezes_close hw (by decide) (by decide)
          ((squeezes_space hw').append (hself ht))))))).eq]
    exact strict_nextMember hk hw₁ hw₂ hv hw hw' ht ihv iht

/-- A value leaves JSON of the RFC exactly when it is JSON of the RFC, C white space
aside. -/
theorem squeezed_rfc_iff {t : Bytes} {j : Json} (h : Spells serverJson t (.value j)) (j₀ : Json) :
    Spells rfc8259 (squeezed t) (.value j₀) ↔ j₀ = j ∧ Spells rfc8259.spaced t (.value j) := by
  have hforth : ∀ {j₀}, Spells rfc8259 (squeezed t) (.value j₀) →
      j₀ = j ∧ Spells rfc8259.spaced t (.value j) := by
    intro j₀ h₀
    obtain ⟨-, hitem, hspell⟩ := h.strict [] [] _ (.value j₀) trivial rfl stops_nil stops_nil h₀
    cases hitem
    exact ⟨rfl, hspell⟩
  constructor
  · exact hforth
  · rintro ⟨rfl, hspell⟩
    exact (hspell.squeezes rfc8259_tame.spaced).2.mono rfc8259.tight_le

end Sf37.Text

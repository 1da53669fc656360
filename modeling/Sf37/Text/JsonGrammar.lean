/-
Sf37.Text.JsonGrammar — the JSON grammar, and what a text of it stands for.

One grammar serves for the RFC and for what a lenient reader takes: a `Dialect` says
what is white space, which bytes a string may hold unescaped, what a number is and
whether a comma may stand before a closing bracket. `rfc8259` is the RFC's.

`Spells D t x` says that `t` is the text of the item `x`. The items besides a value are
the rest of an array after its bracket and the rest of an object after its brace, so
the rules run along the text the way a reader does. Numbers stand for their text.

`Lexes` adds the tokens of the text: the strings with their quotes, the words, the numbers and
the single bytes of the brackets, commas and colons.

* `Spells.mono`: a text of a dialect is one of every dialect that allows more.
-/
import Sf37.Text.Json

namespace Sf37.Text

/-! ## Values -/

/-- What a JSON text stands for. A number is kept as it is written. -/
inductive Json where
  | null
  | bool (b : Bool)
  | num (t : Bytes)
  | str (s : Bytes)
  | arr (es : List Json)
  | obj (ms : List (Bytes × Json))

/-- What a piece of a text can be: a value, the elements of an array with the bracket
that closes it, or the members of an object with the brace that closes it. -/
inductive Item where
  | value (j : Json)
  | elements (es : List Json)
  | members (ms : List (Bytes × Json))

/-- What one reader or another takes for JSON. -/
structure Dialect where
  ws : UInt8 → Bool
  plain : Bytes → Prop
  number : Bytes → Prop
  trailingComma : Prop

/-- White space of the dialect. -/
def Dialect.Ws (D : Dialect) (w : Bytes) : Prop := ∀ c ∈ w, D.ws c = true

/-! ## Grammar -/

/-- The text between the quotes of a string, and the bytes it stands for. A `\u` escape
of a high surrogate takes the low one behind it along. -/
inductive StringBody (plain : Bytes → Prop) : Bytes → Bytes → Prop where
  | nil : StringBody plain [] []
  | plain {x b s : Bytes} (hx : plain x) (hb : StringBody plain b s) :
      StringBody plain (x ++ b) (x ++ s)
  | escape {e x : UInt8} {b s : Bytes} (he : jsonSimpleEscape e = some x)
      (hb : StringBody plain b s) : StringBody plain (0x5c :: e :: b) (x :: s)
  | unicode {h x b s : Bytes} (hh : jsonUnicodeEscape (h ++ b) = some (x, b))
      (hb : StringBody plain b s) : StringBody plain (0x5c :: 0x75 :: (h ++ b)) (x ++ s)

/-- A string with its quotes. -/
def quoted (b : Bytes) : Bytes := 0x22 :: (b ++ [0x22])

/-- The three words. -/
def jsonWords : List (Bytes × Json) :=
  [(bytes "true", .bool true), (bytes "false", .bool false), (bytes "null", .null)]

/-- `t` is the text of the item. -/
inductive Spells (D : Dialect) : Bytes → Item → Prop where
  | word {t : Bytes} {j : Json} (h : (t, j) ∈ jsonWords) : Spells D t (.value j)
  | string {b s : Bytes} (h : StringBody D.plain b s) : Spells D (quoted b) (.value (.str s))
  | number {t : Bytes} (h : D.number t) : Spells D t (.value (.num t))
  | array {w t : Bytes} {es : List Json} (hw : D.Ws w) (ht : Spells D t (.elements es)) :
      Spells D (0x5b :: (w ++ t)) (.value (.arr es))
  | noElements : Spells D [0x5d] (.elements [])
  | lastElement {v w : Bytes} {j : Json} (hv : Spells D v (.value j)) (hw : D.Ws w) :
      Spells D (v ++ (w ++ [0x5d])) (.elements [j])
  | nextElement {v w w' t : Bytes} {j : Json} {es : List Json} (hv : Spells D v (.value j))
      (hw : D.Ws w) (hw' : D.Ws w') (ht : Spells D t (.elements es))
      (hes : es ≠ [] ∨ D.trailingComma) :
      Spells D (v ++ (w ++ 0x2c :: (w' ++ t))) (.elements (j :: es))
  | object {w t : Bytes} {ms : List (Bytes × Json)} (hw : D.Ws w)
      (ht : Spells D t (.members ms)) : Spells D (0x7b :: (w ++ t)) (.value (.obj ms))
  | noMembers : Spells D [0x7d] (.members [])
  | lastMember {b k w₁ w₂ v w : Bytes} {j : Json} (hk : StringBody D.plain b k)
      (hw₁ : D.Ws w₁) (hw₂ : D.Ws w₂) (hv : Spells D v (.value j)) (hw : D.Ws w) :
      Spells D (quoted b ++ (w₁ ++ 0x3a :: (w₂ ++ (v ++ (w ++ [0x7d]))))) (.members [(k, j)])
  | nextMember {b k w₁ w₂ v w w' t : Bytes} {j : Json} {ms : List (Bytes × Json)}
      (hk : StringBody D.plain b k) (hw₁ : D.Ws w₁) (hw₂ : D.Ws w₂)
      (hv : Spells D v (.value j)) (hw : D.Ws w) (hw' : D.Ws w')
      (ht : Spells D t (.members ms)) (hms : ms ≠ [] ∨ D.trailingComma) :
      Spells D (quoted b ++ (w₁ ++ 0x3a :: (w₂ ++ (v ++ (w ++ 0x2c :: (w' ++ t))))))
        (.members ((k, j) :: ms))

/-- `t` is the text of the item, cut into tokens with white space between them. -/
inductive Lexes (D : Dialect) : Bytes → Item → List Bytes → Prop where
  | word {t : Bytes} {j : Json} (h : (t, j) ∈ jsonWords) : Lexes D t (.value j) [t]
  | string {b s : Bytes} (h : StringBody D.plain b s) :
      Lexes D (quoted b) (.value (.str s)) [quoted b]
  | number {t : Bytes} (h : D.number t) : Lexes D t (.value (.num t)) [t]
  | array {w t : Bytes} {es : List Json} {ts : List Bytes} (hw : D.Ws w)
      (ht : Lexes D t (.elements es) ts) :
      Lexes D (0x5b :: (w ++ t)) (.value (.arr es)) ([0x5b] :: ts)
  | noElements : Lexes D [0x5d] (.elements []) [[0x5d]]
  | lastElement {v w : Bytes} {j : Json} {ts : List Bytes} (hv : Lexes D v (.value j) ts)
      (hw : D.Ws w) : Lexes D (v ++ (w ++ [0x5d])) (.elements [j]) (ts ++ [[0x5d]])
  | nextElement {v w w' t : Bytes} {j : Json} {es : List Json} {ts ts' : List Bytes}
      (hv : Lexes D v (.value j) ts) (hw : D.Ws w) (hw' : D.Ws w')
      (ht : Lexes D t (.elements es) ts') (hes : es ≠ [] ∨ D.trailingComma) :
      Lexes D (v ++ (w ++ 0x2c :: (w' ++ t))) (.elements (j :: es)) (ts ++ [0x2c] :: ts')
  | object {w t : Bytes} {ms : List (Bytes × Json)} {ts : List Bytes} (hw : D.Ws w)
      (ht : Lexes D t (.members ms) ts) :
      Lexes D (0x7b :: (w ++ t)) (.value (.obj ms)) ([0x7b] :: ts)
  | noMembers : Lexes D [0x7d] (.members []) [[0x7d]]
  | lastMember {b k w₁ w₂ v w : Bytes} {j : Json} {ts : List Bytes}
      (hk : StringBody D.plain b k) (hw₁ : D.Ws w₁) (hw₂ : D.Ws w₂)
      (hv : Lexes D v (.value j) ts) (hw : D.Ws w) :
      Lexes D (quoted b ++ (w₁ ++ 0x3a :: (w₂ ++ (v ++ (w ++ [0x7d]))))) (.members [(k, j)])
        (quoted b :: [0x3a] :: (ts ++ [[0x7d]]))
  | nextMember {b k w₁ w₂ v w w' t : Bytes} {j : Json} {ms : List (Bytes × Json)}
      {ts ts' : List Bytes} (hk : StringBody D.plain b k) (hw₁ : D.Ws w₁) (hw₂ : D.Ws w₂)
      (hv : Lexes D v (.value j) ts) (hw : D.Ws w) (hw' : D.Ws w')
      (ht : Lexes D t (.members ms) ts') (hms : ms ≠ [] ∨ D.trailingComma) :
      Lexes D (quoted b ++ (w₁ ++ 0x3a :: (w₂ ++ (v ++ (w ++ 0x2c :: (w' ++ t))))))
        (.members ((k, j) :: ms)) (quoted b :: [0x3a] :: (ts ++ [0x2c] :: ts'))

theorem Spells.lexes {D : Dialect} {t : Bytes} {x : Item} (h : Spells D t x) :
    ∃ ts, Lexes D t x ts := by
  induction h with
  | word hj => exact ⟨_, .word hj⟩
  | string hb => exact ⟨_, .string hb⟩
  | number hn => exact ⟨_, .number hn⟩
  | array hw _ ih =>
    obtain ⟨ts, ih⟩ := ih
    exact ⟨_, .array hw ih⟩
  | noElements => exact ⟨_, .noElements⟩
  | lastElement _ hw ih =>
    obtain ⟨ts, ih⟩ := ih
    exact ⟨_, .lastElement ih hw⟩
  | nextElement _ hw hw' _ hes ihv iht =>
    obtain ⟨ts, ihv⟩ := ihv
    obtain ⟨ts', iht⟩ := iht
    exact ⟨_, .nextElement ihv hw hw' iht hes⟩
  | object hw _ ih =>
    obtain ⟨ts, ih⟩ := ih
    exact ⟨_, .object hw ih⟩
  | noMembers => exact ⟨_, .noMembers⟩
  | lastMember hk hw₁ hw₂ _ hw ih =>
    obtain ⟨ts, ih⟩ := ih
    exact ⟨_, .lastMember hk hw₁ hw₂ ih hw⟩
  | nextMember hk hw₁ hw₂ _ hw hw' _ hms ihv iht =>
    obtain ⟨ts, ihv⟩ := ihv
    obtain ⟨ts', iht⟩ := iht
    exact ⟨_, .nextMember hk hw₁ hw₂ ihv hw hw' iht hms⟩

theorem Lexes.spells {D : Dialect} {t : Bytes} {x : Item} {ts : List Bytes} (h : Lexes D t x ts) :
    Spells D t x := by
  induction h with
  | word hj => exact .word hj
  | string hb => exact .string hb
  | number hn => exact .number hn
  | array hw _ ih => exact .array hw ih
  | noElements => exact .noElements
  | lastElement _ hw ih => exact .lastElement ih hw
  | nextElement _ hw hw' _ hes ihv iht => exact .nextElement ihv hw hw' iht hes
  | object hw _ ih => exact .object hw ih
  | noMembers => exact .noMembers
  | lastMember hk hw₁ hw₂ _ hw ih => exact .lastMember hk hw₁ hw₂ ih hw
  | nextMember hk hw₁ hw₂ _ hw hw' _ hms ihv iht =>
    exact .nextMember hk hw₁ hw₂ ihv hw hw' iht hms

/-! ## The RFC -/

/-- `ws` of RFC 8259. -/
def rfcWs (c : UInt8) : Bool := c == 0x20 || c == 0x09 || c == 0x0a || c == 0x0d

/-- `unescaped` of RFC 8259, in UTF-8. -/
def RfcPlain (x : Bytes) : Prop :=
  ∃ c : Char, x = String.utf8EncodeChar c ∧ 0x20 ≤ c.toNat ∧ c ≠ '"' ∧ c ≠ '\\'

/-- `1*DIGIT`. -/
def Digits (ds : Bytes) : Prop := ds ≠ [] ∧ ∀ c ∈ ds, isDigit c = true

/-- `int`: no digit follows a leading zero. -/
def RfcInt (ds : Bytes) : Prop := ds = [0x30] ∨ Digits ds ∧ ds.head? ≠ some 0x30

/-- `[ frac ]`. -/
def RfcFrac (t : Bytes) : Prop := t = [] ∨ ∃ ds, t = 0x2e :: ds ∧ Digits ds

/-- `[ exp ]`. -/
def RfcExp (t : Bytes) : Prop :=
  t = [] ∨ ∃ e sign ds, t = e :: (sign ++ ds) ∧ (e = 0x65 ∨ e = 0x45) ∧
    (sign = [] ∨ sign = [0x2b] ∨ sign = [0x2d]) ∧ Digits ds

/-- `number = [ minus ] int [ frac ] [ exp ]`. -/
def RfcNumber (t : Bytes) : Prop :=
  ∃ minus int frac exp, t = minus ++ (int ++ (frac ++ exp)) ∧
    (minus = [] ∨ minus = [0x2d]) ∧ RfcInt int ∧ RfcFrac frac ∧ RfcExp exp

/-- RFC 8259. -/
def rfc8259 : Dialect where
  ws := rfcWs
  plain := RfcPlain
  number := RfcNumber
  trailingComma := False

/-- A byte string is UTF-8. -/
def ValidUtf8 (s : Bytes) : Prop := ∃ cs : List Char, s = cs.flatMap String.utf8EncodeChar

/-! ## Dialects compared -/

/-- Everything one dialect allows the other allows too. -/
structure Dialect.Le (D E : Dialect) : Prop where
  ws : ∀ c, D.ws c = true → E.ws c = true
  plain : ∀ b s, StringBody D.plain b s → StringBody E.plain b s
  number : ∀ t, D.number t → E.number t
  trailingComma : D.trailingComma → E.trailingComma

theorem Dialect.Le.wsAll {D E : Dialect} (h : D.Le E) {w : Bytes} (hw : D.Ws w) : E.Ws w :=
  fun c hc => h.ws c (hw c hc)

theorem Lexes.mono {D E : Dialect} (h : D.Le E) {t : Bytes} {x : Item} {ts : List Bytes}
    (hs : Lexes D t x ts) : Lexes E t x ts := by
  induction hs with
  | word hj => exact .word hj
  | string hb => exact .string (h.plain _ _ hb)
  | number hn => exact .number (h.number _ hn)
  | array hw _ ih => exact .array (h.wsAll hw) ih
  | noElements => exact .noElements
  | lastElement _ hw ih => exact .lastElement ih (h.wsAll hw)
  | nextElement _ hw hw' _ hes ihv iht =>
    exact .nextElement ihv (h.wsAll hw) (h.wsAll hw') iht (hes.imp_right h.trailingComma)
  | object hw _ ih => exact .object (h.wsAll hw) ih
  | noMembers => exact .noMembers
  | lastMember hk hw₁ hw₂ _ hw ih =>
    exact .lastMember (h.plain _ _ hk) (h.wsAll hw₁) (h.wsAll hw₂) ih (h.wsAll hw)
  | nextMember hk hw₁ hw₂ _ hw hw' _ hms ihv iht =>
    exact .nextMember (h.plain _ _ hk) (h.wsAll hw₁) (h.wsAll hw₂) ihv (h.wsAll hw)
      (h.wsAll hw') iht (hms.imp_right h.trailingComma)

theorem Spells.mono {D E : Dialect} (h : D.Le E) {t : Bytes} {x : Item} (hs : Spells D t x) :
    Spells E t x := by
  obtain ⟨ts, hlex⟩ := hs.lexes
  exact (hlex.mono h).spells

/-- The dialect without white space. -/
def Dialect.tight (D : Dialect) : Dialect := { D with ws := fun _ => false }

theorem Dialect.tight_le (D : Dialect) : D.tight.Le D where
  ws := fun _ h => Bool.noConfusion h
  plain := fun _ _ h => h
  number := fun _ h => h
  trailingComma := id

theorem Dialect.tight_ws_nil (D : Dialect) : D.tight.Ws [] := fun _ h => absurd h List.not_mem_nil

/-- The dialect with C white space. -/
def Dialect.spaced (D : Dialect) : Dialect := { D with ws := isspace }

/-! ## First bytes -/

/-- The first byte of a value says which rule it comes from. -/
inductive ValueHead : UInt8 → Prop where
  | quote : ValueHead 0x22
  | bracket : ValueHead 0x5b
  | brace : ValueHead 0x7b
  | word {c : UInt8} (h : c = 0x74 ∨ c = 0x66 ∨ c = 0x6e) : ValueHead c
  | number {c : UInt8} (h : isDigit c = true ∨ c = 0x2d ∨ c = 0x2b ∨ c = 0x2e) : ValueHead c

end Sf37.Text

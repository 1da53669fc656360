/-
Sf37.Text.JsonTokens — the tokens of a JSON text, and that `json_minify_raw_value` keeps them.

`jsonTokens` cuts a text the flat way: strings at their quotes, the punctuation byte by byte,
and what stands between white space and punctuation in one piece.

* `Lexes.tokens`: in a text of the reader's dialect these are the tokens of the grammar.
* `jsonMinifyRawValue_keeps`: what is left of a text that begins with a value is a value all
  through, of the same tokens, and nothing else.
-/
import Sf37.Text.JsonReader

namespace Sf37.Text

/-! ## Tokens -/

/-- Where the lexer is: in a token that is no string, or in none, or in a string. -/
inductive Lexing where
  | bare (token : Bytes)
  | string (token : Bytes) (escape : Bool)

/-- `[`, `]`, `{`, `}`, `,` and `:`. -/
def jsonPunctuation (c : UInt8) : Bool :=
  c == 0x5b || c == 0x5d || c == 0x7b || c == 0x7d || c == 0x2c || c == 0x3a

theorem jsonPunctuation_iff {c : UInt8} :
    jsonPunctuation c = true ↔ c.toNat = 0x5b ∨ c.toNat = 0x5d ∨ c.toNat = 0x7b ∨
      c.toNat = 0x7d ∨ c.toNat = 0x2c ∨ c.toNat = 0x3a := by
  simp only [jsonPunctuation, Bool.or_eq_true, beq_iff_eq, ← UInt8.toNat_inj, UInt8.reduceToNat,
    or_assoc]

/-- A token that has begun. -/
def begun (token : Bytes) : List Bytes := if token = [] then [] else [token]

def lexLoop : Lexing → Bytes → List Bytes
  | .bare token, [] => begun token
  | .string token _, [] => [token]
  | .bare token, c :: s =>
      if c = 0x22 then begun token ++ lexLoop (.string [c] false) s
      else if isspace c then begun token ++ lexLoop (.bare []) s
      else if jsonPunctuation c then begun token ++ [c] :: lexLoop (.bare []) s
      else lexLoop (.bare (token ++ [c])) s
  | .string token escape, c :: s =>
      let token := token ++ [c]
      if escape then lexLoop (.string token false) s
      else if c = 0x5c then lexLoop (.string token true) s
      else if c = 0x22 then token :: lexLoop (.bare []) s
      else lexLoop (.string token false) s

@[simp] theorem lexLoop_bare_nil (token : Bytes) : lexLoop (.bare token) [] = begun token := rfl

theorem lexLoop_bare_cons (token : Bytes) (c : UInt8) (s : Bytes) :
    lexLoop (.bare token) (c :: s) =
      if c = 0x22 then begun token ++ lexLoop (.string [c] false) s
      else if isspace c then begun token ++ lexLoop (.bare []) s
      else if jsonPunctuation c then begun token ++ [c] :: lexLoop (.bare []) s
      else lexLoop (.bare (token ++ [c])) s := rfl

theorem lexLoop_string_cons (token : Bytes) (escape : Bool) (c : UInt8) (s : Bytes) :
    lexLoop (.string token escape) (c :: s) =
      if escape then lexLoop (.string (token ++ [c]) false) s
      else if c = 0x5c then lexLoop (.string (token ++ [c]) true) s
      else if c = 0x22 then (token ++ [c]) :: lexLoop (.bare []) s
      else lexLoop (.string (token ++ [c]) false) s := rfl

/-- The tokens of a text. -/
def jsonTokens (s : Bytes) : List Bytes := lexLoop (.bare []) s

/-! ## The lexer, piece by piece -/

theorem begun_nil : begun [] = [] := rfl

theorem begun_of_ne_nil {token : Bytes} (h : token ≠ []) : begun token = [token] := if_neg h

theorem jsonTokens_space {w : Bytes} (hw : Space w) (u : Bytes) :
    jsonTokens (w ++ u) = jsonTokens u := by
  induction w with
  | nil => rfl
  | cons c w ih =>
    have hc := hw c List.mem_cons_self
    have hquote : c ≠ 0x22 := by
      rintro rfl
      cases hc
    rw [List.cons_append, jsonTokens, lexLoop_bare_cons, if_neg hquote, if_pos hc, begun_nil,
      List.nil_append]
    exact ih fun d hd => hw d (List.mem_cons_of_mem c hd)

theorem jsonPunctuation_spec {c : UInt8} (h : jsonPunctuation c = true) :
    c ≠ 0x22 ∧ isspace c = false := by
  rw [jsonPunctuation_iff] at h
  simp only [Bool.eq_false_iff, ne_eq, isspace_iff, ← UInt8.toNat_inj, UInt8.reduceToNat]
  omega

theorem jsonTokens_punctuation {c : UInt8} (hc : jsonPunctuation c = true) (u : Bytes) :
    jsonTokens (c :: u) = [c] :: jsonTokens u := by
  obtain ⟨hquote, hspace⟩ := jsonPunctuation_spec hc
  rw [jsonTokens, lexLoop_bare_cons, if_neg hquote, hspace, if_neg (by decide), if_pos hc,
    begun_nil]
  rfl

/-- White space and punctuation behind it. -/
theorem jsonTokens_close {w : Bytes} (hw : Space w) {c : UInt8} (hc : jsonPunctuation c = true)
    (u : Bytes) : jsonTokens (w ++ c :: u) = [c] :: jsonTokens u := by
  rw [jsonTokens_space hw, jsonTokens_punctuation hc]

theorem lexLoop_escaping {b : Bytes} (h : Escaping b) (token u : Bytes) :
    lexLoop (.string token false) (b ++ 0x22 :: u) = (token ++ (b ++ [0x22])) :: jsonTokens u := by
  induction h generalizing token with
  | nil => simp [lexLoop_string_cons, jsonTokens]
  | plain hquote hback _ ih =>
    rw [List.cons_append, lexLoop_string_cons, if_neg (by decide), if_neg hback, if_neg hquote, ih]
    simp
  | escape e _ ih => simp [lexLoop_string_cons, ih]

/-- A string is one token. -/
theorem jsonTokens_quoted {b : Bytes} (h : Escaping b) (u : Bytes) :
    jsonTokens (quoted b ++ u) = quoted b :: jsonTokens u := by
  have hcut : quoted b ++ u = 0x22 :: (b ++ 0x22 :: u) := by simp [quoted]
  rw [hcut, jsonTokens, lexLoop_bare_cons, if_pos rfl, begun_nil, List.nil_append,
    lexLoop_escaping h]
  rfl

/-- A byte of a word or a number. -/
def BareByte (c : UInt8) : Prop :=
  c ≠ 0x22 ∧ isspace c = false ∧ jsonPunctuation c = false

theorem stopByte_cases {c : UInt8} (h : stopByte c = true) :
    c ≠ 0x22 ∧ (isspace c = true ∨ jsonPunctuation c = true) := by
  rw [stopByte_iff] at h
  rw [isspace_iff, jsonPunctuation_iff]
  simp only [ne_eq, ← UInt8.toNat_inj, UInt8.reduceToNat]
  omega

/-- A token that has begun ends where a value does. -/
theorem lexLoop_stops {token : Bytes} (htoken : token ≠ []) {u : Bytes} (hu : Stops u) :
    lexLoop (.bare token) u = token :: jsonTokens u := by
  cases u with
  | nil => simp [jsonTokens, begun, htoken]
  | cons c u =>
    obtain ⟨hquote, hstop⟩ := stopByte_cases (hu c rfl)
    rw [lexLoop_bare_cons, if_neg hquote, begun_of_ne_nil htoken]
    rcases hstop with hspace | hpunct
    · rw [if_pos hspace, ← List.singleton_append,
        ← jsonTokens_space (w := [c]) (fun d hd => List.mem_singleton.mp hd ▸ hspace)]
      simp [jsonTokens, lexLoop_bare_cons, hquote, hspace, begun]
    · obtain ⟨-, hspace⟩ := jsonPunctuation_spec hpunct
      rw [hspace, if_neg (by decide), if_pos hpunct, jsonTokens_punctuation hpunct]
      rfl

/-- A word and a number are one token. -/
theorem lexLoop_bare {t : Bytes} (ht : ∀ c ∈ t, BareByte c) {token u : Bytes}
    (hne : token ++ t ≠ []) (hu : Stops u) :
    lexLoop (.bare token) (t ++ u) = (token ++ t) :: jsonTokens u := by
  induction t generalizing token with
  | nil =>
    rw [List.append_nil] at hne ⊢
    exact lexLoop_stops hne hu
  | cons c t ih =>
    obtain ⟨hquote, hspace, hpunct⟩ := ht c List.mem_cons_self
    rw [List.cons_append, lexLoop_bare_cons, if_neg hquote, hspace, if_neg (by decide), hpunct,
      if_neg (by decide), ih (fun d hd => ht d (List.mem_cons_of_mem c hd)) (by simp)]
    simp

theorem jsonTokens_bare {t : Bytes} (ht : ∀ c ∈ t, BareByte c) (hne : t ≠ []) {u : Bytes}
    (hu : Stops u) : jsonTokens (t ++ u) = t :: jsonTokens u := lexLoop_bare ht hne hu

theorem jsonWords_bare {t : Bytes} {j : Json} (h : (t, j) ∈ jsonWords) :
    (∀ c ∈ t, BareByte c) ∧ t ≠ [] := by
  simp only [BareByte, jsonWords, List.mem_cons, List.not_mem_nil, or_false, Prod.mk.injEq] at h ⊢
  rcases h with ⟨rfl, -⟩ | ⟨rfl, -⟩ | ⟨rfl, -⟩ <;> decide +kernel

theorem NumberText.bare {t : Bytes} (h : NumberText t) : (∀ c ∈ t, BareByte c) ∧ t ≠ [] := by
  obtain ⟨c, r, hcut, -⟩ := h.head
  refine ⟨fun c hc => ?_, by simp [hcut]⟩
  have hbyte := h.bytes c hc
  rw [numberByte_iff] at hbyte
  simp only [BareByte, Bool.eq_false_iff, ne_eq, isspace_iff, jsonPunctuation_iff,
    ← UInt8.toNat_inj, UInt8.reduceToNat]
  omega

/-! ## The tokens of the grammar -/

/-- The flat lexer finds the tokens of the grammar. -/
theorem Lexes.tokens {D : Dialect} (hD : D.Tame) {t : Bytes} {x : Item} {ts : List Bytes}
    (h : Lexes D t x ts) {u : Bytes} (hu : Stops u) :
    jsonTokens (t ++ u) = ts ++ jsonTokens u := by
  induction h generalizing u with
  | word hj => exact jsonTokens_bare (jsonWords_bare hj).1 (jsonWords_bare hj).2 hu
  | string hb => exact jsonTokens_quoted (hD.body _ _ hb).escaping u
  | number hn => exact jsonTokens_bare (hD.number _ hn).bare.1 (hD.number _ hn).bare.2 hu
  | array hw _ ih =>
    rw [List.cons_append, jsonTokens_punctuation (by decide), List.append_assoc,
      jsonTokens_space (hD.space hw), ih hu]
    rfl
  | noElements => exact jsonTokens_punctuation (by decide) u
  | @lastElement v w j ts _ hw ih =>
    have hrest : Stops (w ++ 0x5d :: u) := stops_space (hD.space hw) (stops_cons (by decide) u)
    rw [List.append_assoc, List.append_assoc, List.singleton_append, ih hrest,
      jsonTokens_close (hD.space hw) (by decide)]
    simp
  | @nextElement v w w' t j es ts ts' _ hw hw' _ _ ihv iht =>
    have hrest : Stops (w ++ 0x2c :: (w' ++ (t ++ u))) :=
      stops_space (hD.space hw) (stops_cons (by decide) _)
    rw [List.append_assoc, List.append_assoc, List.cons_append, List.append_assoc, ihv hrest,
      jsonTokens_close (hD.space hw) (by decide), jsonTokens_space (hD.space hw'), iht hu]
    simp
  | object hw _ ih =>
    rw [List.cons_append, jsonTokens_punctuation (by decide), List.append_assoc,
      jsonTokens_space (hD.space hw), ih hu]
    rfl
  | noMembers => exact jsonTokens_punctuation (by decide) u
  | @lastMember b k w₁ w₂ v w j ts hk hw₁ hw₂ _ hw ih =>
    have hrest : Stops (w ++ 0x7d :: u) := stops_space (hD.space hw) (stops_cons (by decide) u)
    have hcut : quoted b ++ (w₁ ++ 0x3a :: (w₂ ++ (v ++ (w ++ [0x7d])))) ++ u =
        quoted b ++ (w₁ ++ 0x3a :: (w₂ ++ (v ++ (w ++ 0x7d :: u)))) := by simp
    rw [hcut, jsonTokens_quoted (hD.body _ _ hk).escaping,
      jsonTokens_close (hD.space hw₁) (by decide), jsonTokens_space (hD.space hw₂), ih hrest,
      jsonTokens_close (hD.space hw) (by decide)]
    simp
  | @nextMember b k w₁ w₂ v w w' t j ms ts ts' hk hw₁ hw₂ _ hw hw' _ _ ihv iht =>
    have hrest : Stops (w ++ 0x2c :: (w' ++ (t ++ u))) :=
      stops_space (hD.space hw) (stops_cons (by decide) _)
    have hcut : quoted b ++ (w₁ ++ 0x3a :: (w₂ ++ (v ++ (w ++ 0x2c :: (w' ++ t))))) ++ u =
        quoted b ++ (w₁ ++ 0x3a :: (w₂ ++ (v ++ (w ++ 0x2c :: (w' ++ (t ++ u)))))) := by simp
    rw [hcut, jsonTokens_quoted (hD.body _ _ hk).escaping,
      jsonTokens_close (hD.space hw₁) (by decide), jsonTokens_space (hD.space hw₂), ihv hrest,
      jsonTokens_close (hD.space hw) (by decide), jsonTokens_space (hD.space hw'), iht hu]
    simp

/-- The tokens of a whole text. -/
theorem Lexes.tokens_eq {D : Dialect} (hD : D.Tame) {t : Bytes} {x : Item} {ts : List Bytes}
    (h : Lexes D t x ts) : jsonTokens t = ts := by
  have := h.tokens hD stops_nil
  have hnil : jsonTokens [] = [] := rfl
  rwa [List.append_nil, hnil, List.append_nil] at this

example : jsonTokens (bytes "[\"a b\\\"\", 1 ,-2.5e3]") =
    [bytes "[", bytes "\"a b\\\"\"", bytes ",", bytes "1", bytes ",", bytes "-2.5e3",
      bytes "]"] := by decide

/-- A token is a string, or no white space is in it. -/
def TokenText (token : Bytes) : Prop :=
  (∃ b s, StringBody AnyPlain b s ∧ token = quoted b) ∨ ∀ c ∈ token, isspace c = false

theorem tokenText_string {b s : Bytes} (h : StringBody AnyPlain b s) : TokenText (quoted b) :=
  .inl ⟨b, s, h, rfl⟩

theorem tokenText_bare {t : Bytes} (h : ∀ c ∈ t, BareByte c) : TokenText t :=
  .inr fun c hc => (h c hc).2.1

theorem tokenText_byte {c : UInt8} (h : isspace c = false) : TokenText [c] :=
  .inr fun _ hd => List.mem_singleton.mp hd ▸ h

theorem Lexes.tokenText {D : Dialect} (hD : D.Tame) {t : Bytes} {x : Item} {ts : List Bytes}
    (h : Lexes D t x ts) : ∀ token ∈ ts, TokenText token := by
  induction h with
  | word hj =>
    rw [List.forall_mem_singleton]
    exact tokenText_bare (jsonWords_bare hj).1
  | string hb =>
    rw [List.forall_mem_singleton]
    exact tokenText_string (hD.body _ _ hb)
  | number hn =>
    rw [List.forall_mem_singleton]
    exact tokenText_bare (hD.number _ hn).bare.1
  | array _ _ ih => exact List.forall_mem_cons.mpr ⟨tokenText_byte (by decide), ih⟩
  | noElements => exact (List.forall_mem_singleton).mpr (tokenText_byte (by decide))
  | lastElement _ _ ih =>
    exact List.forall_mem_append.mpr
      ⟨ih, (List.forall_mem_singleton).mpr (tokenText_byte (by decide))⟩
  | nextElement _ _ _ _ _ ihv iht =>
    exact List.forall_mem_append.mpr
      ⟨ihv, List.forall_mem_cons.mpr ⟨tokenText_byte (by decide), iht⟩⟩
  | object _ _ ih => exact List.forall_mem_cons.mpr ⟨tokenText_byte (by decide), ih⟩
  | noMembers => exact (List.forall_mem_singleton).mpr (tokenText_byte (by decide))
  | lastMember hk _ _ _ _ ih =>
    exact List.forall_mem_cons.mpr ⟨tokenText_string (hD.body _ _ hk),
      List.forall_mem_cons.mpr ⟨tokenText_byte (by decide), List.forall_mem_append.mpr
        ⟨ih, (List.forall_mem_singleton).mpr (tokenText_byte (by decide))⟩⟩⟩
  | nextMember hk _ _ _ _ _ _ _ ihv iht =>
    exact List.forall_mem_cons.mpr ⟨tokenText_string (hD.body _ _ hk),
      List.forall_mem_cons.mpr ⟨tokenText_byte (by decide), List.forall_mem_append.mpr
        ⟨ihv, List.forall_mem_cons.mpr ⟨tokenText_byte (by decide), iht⟩⟩⟩⟩

/-! ## What is left of a value -/

/-- A text is left of `t`: of the same value and the same tokens, all of them tokens of the
grammar, and nothing between them. -/
structure MinifiedFrom (t m : Bytes) : Prop where
  accepted : jsonSkipValue m = some []
  lexes : ∃ w v j, t = w ++ v ∧ Space w ∧
    Lexes serverJson v (.value j) (jsonTokens t) ∧ Lexes serverJson m (.value j) (jsonTokens m)
  tokens : jsonTokens m = jsonTokens t
  tight : m = (jsonTokens m).flatten ∧ ∀ token ∈ jsonTokens m, TokenText token
  again : jsonMinifyRawValue m = m

/-- `json_minify_raw_value` of a text that begins with a value, up to where `json_skip_value`
stops. -/
theorem jsonMinifyRawValue_keeps {t r : Bytes} (h : jsonSkipValue t = some r) :
    MinifiedFrom (t.take (t.length - r.length)) (jsonMinifyRawValue t) := by
  obtain ⟨p, rfl⟩ := jsonSkipValue_suffix h
  have hused : (p ++ r).take ((p ++ r).length - r.length) = p := by
    rw [List.length_append, Nat.add_sub_cancel, List.take_left]
  rw [hused]
  obtain ⟨w, v, j, rfl, hw, hspell, hends⟩ := (jsonSkipValue_iff p r).mp h
  obtain ⟨ts, hlex⟩ := hspell.lexes
  obtain ⟨hm, htight⟩ := hlex.squeeze serverJson_tame
  have hskip : jsonSkipValue (v ++ r) = some r :=
    (jsonSkipValue_iff v r).mpr ⟨[], v, j, rfl, space_nil, hspell, hends⟩
  have hmin : jsonMinifyRawValue (w ++ v ++ r) = ts.flatten := by
    rw [List.append_assoc, jsonMinifyRawValue_eq hw hspell hskip, hm.eq]
  have hleft : Lexes serverJson ts.flatten (.value j) ts := htight.mono serverJson.tight_le
  have hskip' : jsonSkipValue ts.flatten = some [] := by
    have := hleft.spells.jsonSkipValue space_nil stops_nil
    rwa [List.nil_append, List.append_nil] at this
  have htokens : jsonTokens (w ++ v) = ts := by
    rw [jsonTokens_space hw, hlex.tokens_eq serverJson_tame]
  have htokens' : jsonTokens ts.flatten = ts := hleft.tokens_eq serverJson_tame
  have hagain : jsonMinifyRawValue ts.flatten = ts.flatten := by
    have heq := jsonMinifyRawValue_eq space_nil hleft.spells
      (show jsonSkipValue (ts.flatten ++ []) = some [] by rw [List.append_nil, hskip'])
    rw [List.nil_append, List.append_nil] at heq
    rw [heq, (htight.squeeze serverJson_tame.tight).1.eq]
  rw [hmin]
  exact {
    accepted := hskip'
    lexes := ⟨w, v, j, rfl, hw, htokens ▸ hlex, htokens'.symm ▸ hleft⟩
    tokens := htokens'.trans htokens.symm
    tight := ⟨by rw [htokens'], htokens'.symm ▸ hlex.tokenText serverJson_tame⟩
    again := hagain }

/-- Escaped quotes and spaces inside a string stay, a NaN and an overflow are numbers like the
others, and the text behind the value goes. -/
theorem jsonMinifyRawValue_keeps_array :
    let t := bytes " [nan , 1e999 , \"a\\\" b\" ] x"
    jsonSkipValue t = some (bytes " x") ∧
      jsonMinifyRawValue t = bytes "[nan,1e999,\"a\\\" b\"]" ∧
      MinifiedFrom (t.take (t.length - (bytes " x").length)) (jsonMinifyRawValue t) := by
  have hskip : jsonSkipValue (bytes " [nan , 1e999 , \"a\\\" b\" ] x") = some (bytes " x") := by
    decide +kernel
  exact ⟨hskip, by decide +kernel, jsonMinifyRawValue_keeps hskip⟩

end Sf37.Text

/-
Sf37.Text.JsonDoc — the flat JSON tokenizer that the tokenizer's reader and the quantizer share.

`jsonParseText` makes a list of tokens of a text, each with its place and the token it stands
in. What the walks over it look at are the types, the texts and the parents: a `View`.

* `Flat`: a text cut into tokens, without regard to how they nest.
* `parseLoop_flat`: the tokenizer takes one token of the text after the other.
* `Lexes.flat`: a text of the grammar is cut that way.
-/
import Sf37.Text.JsonTokens

namespace Sf37.Text.JsonDoc

/-! ## Tokens -/

/-- `sf37_json_type` and `json_type`. -/
inductive TokType
  | object
  | array
  | string
  | primitive
  deriving DecidableEq

/-- `sf37_json_tok` and `json_tok`; no parent is -1. -/
structure Tok where
  type : TokType
  start : ℕ
  stop : ℤ
  parent : Option ℕ
  size : ℕ

/-- `sf37_json_doc` and `json_doc`. -/
structure Doc where
  v : List Tok
  js : Bytes

/-- `json_add`. -/
def jsonAdd (v : List Tok) (type : TokType) (start : ℕ) (stop : ℤ) (parent : Option ℕ) :
    List Tok :=
  let v := v ++ [⟨type, start, stop, parent, 0⟩]
  match parent with
  | some p => v.modify p fun t => { t with size := t.size + 1 }
  | none => v

/-- The loop over a string: how far off the quote is that ends it. -/
def closeQuote : Bool → Bytes → Option ℕ
  | _, [] => none
  | true, _ :: p => (closeQuote false p).map (· + 1)
  | false, c :: p =>
    if c = 0x5c then (closeQuote true p).map (· + 1)
    else if c = 0x22 then some 0
    else (closeQuote false p).map (· + 1)

/-- The loop of `json_parse_text` at the place `i`; `none` is an error. A turn takes at least
one byte, so the length of the text is enough fuel. -/
def parseLoop : ℕ → ℕ → List Tok → Option ℕ → Bytes → Option (List Tok × Option ℕ)
  | _, _, v, parent, [] => some (v, parent)
  | 0, _, v, parent, _ :: _ => some (v, parent)
  | fuel + 1, i, v, parent, c :: p =>
    if isspace c ∨ c = 0x3a ∨ c = 0x2c then parseLoop fuel (i + 1) v parent p
    else if c = 0x7b ∨ c = 0x5b then
      parseLoop fuel (i + 1) (jsonAdd v (if c = 0x7b then .object else .array) i (-1) parent)
        (some v.length) p
    else if c = 0x7d ∨ c = 0x5d then
      match parent with
      | none => none
      | some k =>
        parseLoop fuel (i + 1) (v.modify k fun t => { t with stop := i + 1 })
          ((v[k]?).bind Tok.parent) p
    else if c = 0x22 then
      match closeQuote false p with
      | none => none
      | some n =>
        parseLoop fuel (i + 1 + n + 1) (jsonAdd v .string (i + 1) (i + 1 + n) parent) parent
          (p.drop (n + 1))
    else
      let n := ((c :: p).takeWhile fun c => !stopByte c).length
      parseLoop fuel (i + n) (jsonAdd v .primitive i (i + n) parent) parent ((c :: p).drop n)

theorem parseLoop_cons (fuel i : ℕ) (v : List Tok) (parent : Option ℕ) (c : UInt8) (p : Bytes) :
    parseLoop (fuel + 1) i v parent (c :: p) =
      if isspace c ∨ c = 0x3a ∨ c = 0x2c then parseLoop fuel (i + 1) v parent p
      else if c = 0x7b ∨ c = 0x5b then
        parseLoop fuel (i + 1) (jsonAdd v (if c = 0x7b then .object else .array) i (-1) parent)
          (some v.length) p
      else if c = 0x7d ∨ c = 0x5d then
        match parent with
        | none => none
        | some k =>
          parseLoop fuel (i + 1) (v.modify k fun t => { t with stop := i + 1 })
            ((v[k]?).bind Tok.parent) p
      else if c = 0x22 then
        match closeQuote false p with
        | none => none
        | some n =>
          parseLoop fuel (i + 1 + n + 1) (jsonAdd v .string (i + 1) (i + 1 + n) parent) parent
            (p.drop (n + 1))
      else
        let n := ((c :: p).takeWhile fun c => !stopByte c).length
        parseLoop fuel (i + n) (jsonAdd v .primitive i (i + n) parent) parent
          ((c :: p).drop n) := rfl

/-- A length as an `int`, up to which a loop runs. -/
def intLength (n : ℕ) : ℕ := if n % 4294967296 < 2147483648 then n % 4294967296 else 0

/-- `json_parse_text`; the reader of `tokenizer.json` also wants an object at the root. -/
def jsonParseText (js : Bytes) : Option Doc := do
  let text := js.take (intLength js.length)
  let (v, parent) ← parseLoop text.length 0 [] none text
  if parent.isSome then none else some ⟨v, js⟩

/-! ## Views -/

/-- What the walks see of a token. -/
structure View where
  type : TokType
  text : Bytes
  parent : Option ℕ
  deriving DecidableEq

/-- Objects and arrays. -/
def TokType.isBranch : TokType → Bool
  | .object | .array => true
  | _ => false

/-- The text of a token. -/
def tokText (js : Bytes) (t : Tok) : Bytes := slice js t.start t.stop.toNat

def view (js : Bytes) (t : Tok) : View :=
  ⟨t.type, if t.type.isBranch then [] else tokText js t, t.parent⟩

/-- The views of a document. -/
def Doc.views (d : Doc) : List View := d.v.map (view d.js)

/-- What one token of a text does to the views and to the parent. -/
def stepView (s : List View × Option ℕ) : Bytes → Option (List View × Option ℕ)
  | [] => some s
  | c :: b =>
    if c = 0x3a ∨ c = 0x2c then some s
    else if c = 0x7b ∨ c = 0x5b then
      some (s.1 ++ [⟨if c = 0x7b then .object else .array, [], s.2⟩], some s.1.length)
    else if c = 0x7d ∨ c = 0x5d then s.2.map fun k => (s.1, (s.1[k]?).bind View.parent)
    else if c = 0x22 then some (s.1 ++ [⟨.string, b.dropLast, s.2⟩], s.2)
    else some (s.1 ++ [⟨.primitive, c :: b, s.2⟩], s.2)

/-- Every parent is an object or an array. -/
def Parents (vs : List View) (parent : Option ℕ) : Prop :=
  ∀ k, parent = some k ∨ (∃ w ∈ vs, w.parent = some k) →
    ∃ w, vs[k]? = some w ∧ w.type.isBranch = true

section Views

variable {js : Bytes} {v : List Tok} {parent : Option ℕ}

/-- Sizes are not seen. -/
theorem map_view_jsonAdd (type : TokType) (start : ℕ) (stop : ℤ) :
    (jsonAdd v type start stop parent).map (view js) =
      v.map (view js) ++ [view js ⟨type, start, stop, parent, 0⟩] := by
  unfold jsonAdd
  cases parent with
  | none => exact List.map_append
  | some p =>
    have happend : (v ++ [Tok.mk type start stop (some p) 0]).map (view js) =
        v.map (view js) ++ [view js ⟨type, start, stop, some p, 0⟩] := List.map_append
    rw [← happend]
    refine List.ext_getElem? fun i => ?_
    rw [List.getElem?_map, List.getElem?_modify, List.getElem?_map]
    split
    · cases (v ++ [⟨type, start, stop, some p, 0⟩])[i]? <;> rfl
    · simp

/-- The end of an object or an array is not seen. -/
theorem map_view_close (hparents : Parents (v.map (view js)) parent) {k : ℕ} (hk : parent = some k)
    (stop : ℤ) : (v.modify k fun t => { t with stop := stop }).map (view js) =
      v.map (view js) := by
  obtain ⟨w, hw, hbranch⟩ := hparents k (.inl hk)
  refine List.ext_getElem? fun i => ?_
  rw [List.getElem?_map, List.getElem?_modify, List.getElem?_map]
  split
  next heq =>
    subst heq
    rw [List.getElem?_map] at hw
    obtain ⟨t, ht, rfl⟩ := Option.map_eq_some_iff.mp hw
    rw [ht]
    have htype : t.type.isBranch = true := hbranch
    simp [view, htype]
  next => simp

theorem bind_parent_view (k : ℕ) :
    ((v.map (view js))[k]?).bind View.parent = (v[k]?).bind Tok.parent := by
  rw [List.getElem?_map]
  cases v[k]? <;> rfl

end Views

/-- A token leaves every parent an object or an array. -/
theorem Parents.step {s s' : List View × Option ℕ} (h : Parents s.1 s.2) {token : Bytes}
    (hstep : stepView s token = some s') : Parents s'.1 s'.2 := by
  have hgrow (w : View) (hw : w.parent = s.2) (next : Option ℕ)
      (hnext : ∀ k, next = some k → s.2 = some k ∨ k = s.1.length ∧ w.type.isBranch = true) :
      Parents (s.1 ++ [w]) next := by
    have hold {k : ℕ} (hk : s.2 = some k ∨ ∃ x ∈ s.1, x.parent = some k) :
        ∃ x, (s.1 ++ [w])[k]? = some x ∧ x.type.isBranch = true := by
      obtain ⟨x, hx, hbranch⟩ := h k hk
      refine ⟨x, ?_, hbranch⟩
      rw [List.getElem?_append_left (List.getElem?_eq_some_iff.mp hx).1, hx]
    rintro k (hk | ⟨x, hx, hk⟩)
    · rcases hnext k hk with hsame | ⟨rfl, hbranch⟩
      · exact hold (.inl hsame)
      · exact ⟨w, by rw [List.getElem?_append_right le_rfl, Nat.sub_self]; rfl, hbranch⟩
    · rcases List.mem_append.mp hx with hx | hx
      · exact hold (.inr ⟨x, hx, hk⟩)
      · rw [List.mem_singleton.mp hx, hw] at hk
        exact hold (.inl hk)
  cases token with
  | nil => exact Option.some.inj hstep ▸ h
  | cons c b =>
    rw [stepView] at hstep
    split at hstep
    · exact Option.some.inj hstep ▸ h
    split at hstep
    · obtain rfl := Option.some.inj hstep
      refine hgrow _ rfl _ fun k hk => .inr ⟨(Option.some.inj hk).symm, ?_⟩
      dsimp only
      split <;> rfl
    split at hstep
    · obtain ⟨p, hp, rfl⟩ := Option.map_eq_some_iff.mp hstep
      rintro k (hk | hk)
      · obtain ⟨w, hw, hparent⟩ := Option.bind_eq_some_iff.mp hk
        exact h k (.inr ⟨w, List.mem_of_getElem? hw, hparent⟩)
      · exact h k (.inr hk)
    split at hstep
    · exact Option.some.inj hstep ▸ hgrow _ rfl _ fun k hk => .inl hk
    · exact Option.some.inj hstep ▸ hgrow _ rfl _ fun k hk => .inl hk

/-! ## Texts cut into tokens -/

/-- A text cut into tokens, with white space between them. -/
inductive Flat : Bytes → List Bytes → Prop
  | nil : Flat [] []
  | space {c : UInt8} {t : Bytes} {ts : List Bytes} (hc : isspace c = true) (h : Flat t ts) :
      Flat (c :: t) ts
  | punctuation {c : UInt8} {t : Bytes} {ts : List Bytes} (hc : jsonPunctuation c = true)
      (h : Flat t ts) : Flat (c :: t) ([c] :: ts)
  | string {b t : Bytes} {ts : List Bytes} (hb : Escaping b) (h : Flat t ts) :
      Flat (quoted b ++ t) (quoted b :: ts)
  | bare {b t : Bytes} {ts : List Bytes} (hb : ∀ c ∈ b, BareByte c) (hne : b ≠ [])
      (hstops : Stops t) (h : Flat t ts) : Flat (b ++ t) (b :: ts)

theorem Flat.spaces {w t : Bytes} {ts : List Bytes} (hw : Space w) (h : Flat t ts) :
    Flat (w ++ t) ts := by
  induction w with
  | nil => exact h
  | cons c w ih =>
    exact .space (hw c List.mem_cons_self) (ih fun d hd => hw d (List.mem_cons_of_mem c hd))

/-- The loop over a string ends at its quote. -/
theorem closeQuote_escaping {b : Bytes} (h : Escaping b) (u : Bytes) :
    closeQuote false (b ++ 0x22 :: u) = some b.length := by
  induction h with
  | nil => rfl
  | plain hquote hback _ ih =>
    rw [List.cons_append, closeQuote, if_neg hback, if_neg hquote, ih]
    rfl
  | escape e _ ih =>
    rw [List.cons_append, List.cons_append, closeQuote, if_pos rfl, closeQuote, ih]
    rfl

/-- The bytes of a word or a number are not special. -/
theorem bareByte_spec {c : UInt8} (h : BareByte c) :
    ¬ (isspace c = true ∨ c = 0x3a ∨ c = 0x2c) ∧ ¬ (c = 0x7b ∨ c = 0x5b) ∧
      ¬ (c = 0x7d ∨ c = 0x5d) ∧ c ≠ 0x22 ∧ stopByte c = false := by
  obtain ⟨hquote, hspace, hpunctuation⟩ := h
  rw [Bool.eq_false_iff, ne_eq, jsonPunctuation_iff] at hpunctuation
  rw [Bool.eq_false_iff, ne_eq, isspace_iff] at hspace
  simp only [Bool.eq_false_iff, ne_eq, isspace_iff, stopByte_iff, ← UInt8.toNat_inj,
    UInt8.reduceToNat] at hquote ⊢
  omega

theorem takeWhile_bare {b : Bytes} (hb : ∀ c ∈ b, BareByte c) {t : Bytes} (ht : Stops t) :
    (b ++ t).takeWhile (fun c => !stopByte c) = b := by
  have hnone : t.takeWhile (fun c => !stopByte c) = [] := by
    cases t with
    | nil => rfl
    | cons c t => rw [List.takeWhile_cons, ht c rfl]; rfl
  have hpos : ∀ c ∈ b, (!stopByte c) = true := fun c hc => by
    rw [(bareByte_spec (hb c hc)).2.2.2.2]
    rfl
  rw [List.takeWhile_append_of_pos hpos, hnone, List.append_nil]

/-- The loop takes the token behind `before` in one turn, and leaves the views and the parent `s`. -/
def TakesToken (js before token t : Bytes) (v : List Tok) (parent : Option ℕ)
    (s : List View × Option ℕ) : Prop :=
  ∃ v', (∀ fuel, parseLoop (fuel + 1) before.length v parent (token ++ t) =
    parseLoop fuel (before ++ token).length v' s.2 t) ∧ v'.map (view js) = s.1

section Tokens

variable {js before t : Bytes} {v : List Tok} {parent : Option ℕ} {s : List View × Option ℕ}

theorem takesToken_punctuation {c : UInt8} (hc : jsonPunctuation c = true)
    (hparents : Parents (v.map (view js)) parent)
    (hstep : stepView (v.map (view js), parent) [c] = some s) :
    TakesToken js before [c] t v parent s := by
  have hplace : (before ++ [c]).length = before.length + 1 := by
    rw [List.length_append, List.length_singleton]
  rw [stepView] at hstep
  rw [TakesToken, hplace, List.singleton_append]
  by_cases hsep : c = 0x3a ∨ c = 0x2c
  · rw [if_pos hsep] at hstep
    obtain rfl := Option.some.inj hstep
    exact ⟨v, fun fuel => by rw [parseLoop_cons, if_pos (.inr hsep)], rfl⟩
  have hplain : ¬ (isspace c = true ∨ c = 0x3a ∨ c = 0x2c) := by
    rw [(jsonPunctuation_spec hc).2]
    simpa using hsep
  rw [if_neg hsep] at hstep
  by_cases hopen : c = 0x7b ∨ c = 0x5b
  · rw [if_pos hopen] at hstep
    obtain rfl := Option.some.inj hstep
    refine ⟨jsonAdd v (if c = 0x7b then .object else .array) before.length (-1) parent,
      fun fuel => ?_, ?_⟩
    · rw [parseLoop_cons, if_neg hplain, if_pos hopen, List.length_map]
    · rw [map_view_jsonAdd]
      by_cases hbrace : c = 0x7b
      · simp only [hbrace, if_true]
        rfl
      · simp only [hbrace, if_false]
        rfl
  rw [if_neg hopen] at hstep
  have hclose : c = 0x7d ∨ c = 0x5d := by
    simp only [jsonPunctuation, Bool.or_eq_true, beq_iff_eq] at hc
    tauto
  rw [if_pos hclose] at hstep
  obtain ⟨p, hp, rfl⟩ := Option.map_eq_some_iff.mp hstep
  have hp' : parent = some p := hp
  refine ⟨v.modify p fun t => { t with stop := (before.length : ℤ) + 1 }, fun fuel => ?_, ?_⟩
  · rw [parseLoop_cons, if_neg hplain, if_neg hopen, if_pos hclose, hp']
    dsimp only
    rw [bind_parent_view]
  · exact map_view_close hparents hp' ((before.length : ℤ) + 1)

theorem takesToken_string {b : Bytes} (hb : Escaping b) (hjs : js = before ++ (quoted b ++ t))
    (hstep : stepView (v.map (view js), parent) (quoted b) = some s) :
    TakesToken js before (quoted b) t v parent s := by
  have hcut : quoted b ++ t = 0x22 :: (b ++ 0x22 :: t) := by simp [quoted]
  have hdrop : (b ++ 0x22 :: t).drop (b.length + 1) = t := by
    rw [List.drop_append, List.drop_of_length_le (by omega), Nat.add_sub_cancel_left]
    rfl
  have hplace : (before ++ quoted b).length = before.length + 1 + b.length + 1 := by
    simp only [quoted, List.length_append, List.length_cons, List.length_nil]
    omega
  have hslice : slice js (before.length + 1) (before.length + 1 + b.length) = b := by
    have hone : before.length + 1 = (before ++ [0x22]).length := by
      rw [List.length_append, List.length_singleton]
    have hjs' : js = before ++ [0x22] ++ (b ++ 0x22 :: t) := by
      rw [hjs, hcut, List.append_assoc]
      rfl
    rw [slice, hjs', hone, List.drop_left, Nat.add_sub_cancel_left, List.take_left]
  obtain rfl : (v.map (view js) ++ [⟨.string, b, parent⟩], parent) = s := by
    have hlast : (b ++ [0x22]).dropLast = b := List.dropLast_concat
    rw [quoted, stepView, if_neg (by decide), if_neg (by decide), if_neg (by decide),
      if_pos rfl, hlast] at hstep
    exact Option.some.inj hstep
  refine ⟨jsonAdd v .string (before.length + 1) (before.length + 1 + b.length) parent,
    fun fuel => ?_, ?_⟩
  · rw [hcut, parseLoop_cons, if_neg (by decide), if_neg (by decide), if_neg (by decide),
      if_pos rfl, closeQuote_escaping hb, hplace]
    dsimp only
    rw [hdrop]
  · rw [map_view_jsonAdd]
    exact congrArg (v.map (view js) ++ [View.mk .string · parent]) hslice

theorem takesToken_bare {b : Bytes} (hb : ∀ c ∈ b, BareByte c) (hne : b ≠ []) (hstops : Stops t)
    (hjs : js = before ++ (b ++ t))
    (hstep : stepView (v.map (view js), parent) b = some s) :
    TakesToken js before b t v parent s := by
  have hwhole := takeWhile_bare hb hstops
  have hslice : slice js before.length (before.length + b.length) = b := by
    rw [slice, hjs, List.drop_left, Nat.add_sub_cancel_left, List.take_left]
  obtain ⟨c, b', rfl⟩ := List.exists_cons_of_ne_nil hne
  obtain ⟨hsep, hopen, hclose, hquote, -⟩ := bareByte_spec (hb c List.mem_cons_self)
  obtain rfl : (v.map (view js) ++ [⟨.primitive, c :: b', parent⟩], parent) = s := by
    rw [stepView, if_neg (fun h => hsep (.inr h)), if_neg hopen, if_neg hclose,
      if_neg hquote] at hstep
    exact Option.some.inj hstep
  refine ⟨jsonAdd v .primitive before.length (before.length + (c :: b').length) parent,
    fun fuel => ?_, ?_⟩
  · rw [List.cons_append, parseLoop_cons, if_neg hsep, if_neg hopen, if_neg hclose, if_neg hquote,
      ← List.cons_append, hwhole]
    dsimp only
    rw [List.drop_left, ← List.length_append]
  · rw [map_view_jsonAdd]
    exact congrArg (v.map (view js) ++ [View.mk .primitive · parent]) hslice

end Tokens

/-- Behind any text the loop reads the rest of it as the tokens. -/
def ReadsAs (js t : Bytes) (ts : List Bytes) : Prop :=
  ∀ (before : Bytes) (fuel : ℕ) (v : List Tok) (parent : Option ℕ) (s' : List View × Option ℕ),
    js = before ++ t → t.length ≤ fuel → Parents (v.map (view js)) parent →
    ts.foldlM stepView (v.map (view js), parent) = some s' →
    ∃ v', parseLoop fuel before.length v parent t = some (v', s'.2) ∧ v'.map (view js) = s'.1

theorem ReadsAs.space {js t : Bytes} {ts : List Bytes} (h : ReadsAs js t ts) {c : UInt8}
    (hc : isspace c = true) : ReadsAs js (c :: t) ts := by
  intro before fuel v parent s' hjs hfuel hparents hs'
  obtain ⟨k, rfl⟩ := Nat.exists_eq_succ_of_ne_zero (by simp at hfuel; omega : fuel ≠ 0)
  have hplace : before.length + 1 = (before ++ [c]).length := by
    rw [List.length_append, List.length_singleton]
  rw [parseLoop_cons, if_pos (.inl hc), hplace]
  exact h _ _ _ _ _ (by rw [hjs, List.append_assoc]; rfl) (by simpa using hfuel) hparents hs'

/-- A token goes before, where the loop takes it. -/
theorem ReadsAs.token {js t token : Bytes} {ts : List Bytes} (h : ReadsAs js t ts)
    (hne : token ≠ [])
    (htakes : ∀ before v parent s, js = before ++ (token ++ t) →
      Parents (v.map (view js)) parent → stepView (v.map (view js), parent) token = some s →
      TakesToken js before token t v parent s) : ReadsAs js (token ++ t) (token :: ts) := by
  intro before fuel v parent s' hjs hfuel hparents hs'
  have hpos := List.length_pos_iff.mpr hne
  rw [List.length_append] at hfuel
  obtain ⟨k, rfl⟩ := Nat.exists_eq_succ_of_ne_zero (by omega : fuel ≠ 0)
  rw [List.foldlM_cons] at hs'
  obtain ⟨⟨vs, next⟩, hstep, hs'⟩ := Option.bind_eq_some_iff.mp hs'
  have hnext := Parents.step hparents hstep
  obtain ⟨v', hturn, rfl⟩ := htakes before v parent _ hjs hparents hstep
  rw [hturn]
  exact h _ _ _ _ _ (by rw [hjs, List.append_assoc]) (by omega) hnext hs'

/-- The tokenizer takes one token of the text after the other. -/
theorem parseLoop_flat {t : Bytes} {ts : List Bytes} (h : Flat t ts) (js : Bytes) :
    ReadsAs js t ts := by
  induction h with
  | nil =>
    intro before fuel v parent s' _ _ _ hs'
    obtain rfl := Option.some.inj hs'
    refine ⟨v, ?_, rfl⟩
    cases fuel <;> rfl
  | space hc _ ih => exact ih.space hc
  | punctuation hc _ ih =>
    exact ih.token (List.cons_ne_nil _ _) fun _ _ _ _ _ hparents hstep =>
      takesToken_punctuation hc hparents hstep
  | string hb _ ih =>
    exact ih.token (by simp [quoted]) fun _ _ _ _ hjs _ hstep => takesToken_string hb hjs hstep
  | bare hb hne hstops _ ih =>
    exact ih.token hne fun _ _ _ _ hjs _ hstep => takesToken_bare hb hne hstops hjs hstep

/-- The tokenizer on a whole text. -/
theorem jsonParseText_flat {js : Bytes} (hlen : js.length < 2147483648) {ts : List Bytes}
    (h : Flat js ts) {vs : List View} (hvs : ts.foldlM stepView ([], none) = some (vs, none)) :
    ∃ d, jsonParseText js = some d ∧ d.views = vs := by
  have hint : intLength js.length = js.length := by
    rw [intLength, Nat.mod_eq_of_lt (by omega), if_pos hlen]
  have hparents : Parents (([] : List Tok).map (view js)) none := by
    rintro k (hk | ⟨w, hw, -⟩)
    · cases hk
    · cases hw
  obtain ⟨v, hv, hviews⟩ := parseLoop_flat h js [] _ [] none _ rfl le_rfl hparents hvs
  refine ⟨⟨v, js⟩, ?_, hviews⟩
  rw [jsonParseText, hint, List.take_length]
  dsimp only
  rw [show (0 : ℕ) = ([] : Bytes).length from rfl, hv]
  rfl

/-! ## The grammar -/

/-- A text of the grammar is cut into its tokens. -/
theorem Lexes.flat {D : Dialect} (hD : D.Tame) {t : Bytes} {x : Item} {ts : List Bytes}
    (h : Lexes D t x ts) {u : Bytes} {us : List Bytes} (hu : Stops u) (hus : Flat u us) :
    Flat (t ++ u) (ts ++ us) := by
  induction h generalizing u us with
  | word hj => exact .bare (jsonWords_bare hj).1 (jsonWords_bare hj).2 hu hus
  | string hb => exact .string (hD.body _ _ hb).escaping hus
  | number hn => exact .bare (hD.number _ hn).bare.1 (hD.number _ hn).bare.2 hu hus
  | array hw _ ih =>
    rw [List.cons_append, List.append_assoc]
    exact .punctuation (by decide) (.spaces (hD.space hw) (ih hu hus))
  | noElements => exact .punctuation (by decide) hus
  | @lastElement v w j ts _ hw ih =>
    have hrest : Stops (w ++ 0x5d :: u) := stops_space (hD.space hw) (stops_cons (by decide) u)
    rw [List.append_assoc, List.append_assoc, List.singleton_append, List.append_assoc]
    exact ih hrest (.spaces (hD.space hw) (.punctuation (by decide) hus))
  | @nextElement v w w' t j es ts ts' _ hw hw' _ _ ihv iht =>
    have hrest : Stops (w ++ 0x2c :: (w' ++ (t ++ u))) :=
      stops_space (hD.space hw) (stops_cons (by decide) _)
    have htokens : ts ++ [0x2c] :: ts' ++ us = ts ++ ([0x2c] :: (ts' ++ us)) := by
      rw [List.append_assoc, List.cons_append]
    rw [List.append_assoc, List.append_assoc, List.cons_append, List.append_assoc, htokens]
    exact ihv hrest (.spaces (hD.space hw) (.punctuation (by decide)
      (.spaces (hD.space hw') (iht hu hus))))
  | object hw _ ih =>
    rw [List.cons_append, List.append_assoc]
    exact .punctuation (by decide) (.spaces (hD.space hw) (ih hu hus))
  | noMembers => exact .punctuation (by decide) hus
  | @lastMember b k w₁ w₂ v w j ts hk hw₁ hw₂ _ hw ih =>
    have hrest : Stops (w ++ 0x7d :: u) := stops_space (hD.space hw) (stops_cons (by decide) u)
    have hcut : quoted b ++ (w₁ ++ 0x3a :: (w₂ ++ (v ++ (w ++ [0x7d])))) ++ u =
        quoted b ++ (w₁ ++ 0x3a :: (w₂ ++ (v ++ (w ++ 0x7d :: u)))) := by simp
    have htokens : quoted b :: [0x3a] :: (ts ++ [[0x7d]]) ++ us =
        quoted b :: [0x3a] :: (ts ++ ([0x7d] :: us)) := by simp
    rw [hcut, htokens]
    exact .string (hD.body _ _ hk).escaping (.spaces (hD.space hw₁) (.punctuation (by decide)
      (.spaces (hD.space hw₂) (ih hrest (.spaces (hD.space hw) (.punctuation (by decide) hus))))))
  | @nextMember b k w₁ w₂ v w w' t j ms ts ts' hk hw₁ hw₂ _ hw hw' _ _ ihv iht =>
    have hrest : Stops (w ++ 0x2c :: (w' ++ (t ++ u))) :=
      stops_space (hD.space hw) (stops_cons (by decide) _)
    have hcut : quoted b ++ (w₁ ++ 0x3a :: (w₂ ++ (v ++ (w ++ 0x2c :: (w' ++ t))))) ++ u =
        quoted b ++ (w₁ ++ 0x3a :: (w₂ ++ (v ++ (w ++ 0x2c :: (w' ++ (t ++ u)))))) := by simp
    have htokens : quoted b :: [0x3a] :: (ts ++ [0x2c] :: ts') ++ us =
        quoted b :: [0x3a] :: (ts ++ ([0x2c] :: (ts' ++ us))) := by simp
    rw [hcut, htokens]
    exact .string (hD.body _ _ hk).escaping (.spaces (hD.space hw₁) (.punctuation (by decide)
      (.spaces (hD.space hw₂) (ihv hrest (.spaces (hD.space hw) (.punctuation (by decide)
        (.spaces (hD.space hw') (iht hu hus))))))))

end Sf37.Text.JsonDoc

/-
Sf37.Text.JsonSkip — what `json_skip_value` walks over, in the grammar.

`serverJson` is the dialect of the server's reader: C white space, any byte in a string,
the numbers of `strtod` and commas before closing brackets.

* `jsonSkipNested_sound`: what is walked over is the text of a value of `serverJson`.
* `Spells.skips`: every text of a value is walked over, whatever ends it.
-/
import Sf37.Text.JsonNumbers

namespace Sf37.Text

/-! ## The dialect of the reader -/

/-- What `json_skip_value` takes for JSON. -/
def serverJson : Dialect where
  ws := isspace
  plain := AnyPlain
  number := AcceptedNumber
  trailingComma := True

/-- A dialect whose texts are cut into the same pieces as the server's. -/
structure Dialect.Tame (D : Dialect) : Prop where
  ws : ∀ c, D.ws c = true → isspace c = true
  body : ∀ b s, StringBody D.plain b s → StringBody AnyPlain b s
  number : ∀ t, D.number t → NumberText t

theorem serverJson_tame : serverJson.Tame where
  ws := fun _ h => h
  body := fun _ _ h => h
  number := fun _ h => h.toNumberText

theorem rfcWs_isspace {c : UInt8} (h : rfcWs c = true) : isspace c = true := by
  simp only [rfcWs, Bool.or_eq_true, beq_iff_eq] at h
  rcases h with ((rfl | rfl) | rfl) | rfl <;> rfl

theorem rfc8259_tame : rfc8259.Tame where
  ws := fun _ h => rfcWs_isspace h
  body := fun _ _ h => h.any
  number := fun _ h => h.text

theorem Dialect.Tame.spaced {D : Dialect} (h : D.Tame) : D.spaced.Tame where
  ws := fun _ h => h
  body := h.body
  number := h.number

theorem Dialect.Tame.space {D : Dialect} (h : D.Tame) {w : Bytes} (hw : D.Ws w) : Space w :=
  fun c hc => h.ws c (hw c hc)

/-- The dialect with C white space allows more. -/
theorem Dialect.Tame.le_spaced {D : Dialect} (h : D.Tame) : D.Le D.spaced where
  ws := h.ws
  plain := fun _ _ h => h
  number := fun _ h => h
  trailingComma := id

/-! ## First bytes -/

/-- A byte a value can begin with. -/
def valueByte (c : UInt8) : Bool :=
  c == 0x22 || c == 0x5b || c == 0x7b || c == 0x74 || c == 0x66 || c == 0x6e || numberFirst c

/-- A byte an item can begin with. -/
def itemByte : Item → UInt8 → Bool
  | .value _, c => valueByte c
  | .elements _, c => valueByte c || c == 0x5d
  | .members _, c => c == 0x22 || c == 0x7d

theorem Spells.head {D : Dialect} (hD : D.Tame) {t : Bytes} {x : Item} (h : Spells D t x) :
    ∃ c r, t = c :: r ∧ itemByte x c = true := by
  induction h with
  | word hj =>
    simp only [jsonWords, List.mem_cons, List.not_mem_nil, or_false, Prod.mk.injEq] at hj
    rcases hj with ⟨rfl, -⟩ | ⟨rfl, -⟩ | ⟨rfl, -⟩
    · exact ⟨0x74, bytes "rue", by decide, rfl⟩
    · exact ⟨0x66, bytes "alse", by decide, rfl⟩
    · exact ⟨0x6e, bytes "ull", by decide, rfl⟩
  | string _ => exact ⟨_, _, rfl, rfl⟩
  | number hn =>
    obtain ⟨c, r, rfl, hc⟩ := (hD.number _ hn).head
    exact ⟨c, r, rfl, by simp [itemByte, valueByte, hc]⟩
  | array _ _ _ => exact ⟨_, _, rfl, rfl⟩
  | noElements => exact ⟨_, _, rfl, rfl⟩
  | lastElement _ _ ih =>
    obtain ⟨c, r, rfl, hc⟩ := ih
    exact ⟨c, _, rfl, by simp only [itemByte] at hc ⊢; rw [hc]; rfl⟩
  | nextElement _ _ _ _ _ ih _ =>
    obtain ⟨c, r, rfl, hc⟩ := ih
    exact ⟨c, _, rfl, by simp only [itemByte] at hc ⊢; rw [hc]; rfl⟩
  | object _ _ _ => exact ⟨_, _, rfl, rfl⟩
  | noMembers => exact ⟨_, _, rfl, rfl⟩
  | lastMember _ _ _ _ _ _ => exact ⟨_, _, rfl, rfl⟩
  | nextMember _ _ _ _ _ _ _ _ _ _ => exact ⟨_, _, rfl, rfl⟩

/-- What a byte at the front of a value cannot be. -/
theorem valueByte_spec {c : UInt8} (h : valueByte c = true) :
    isspace c = false ∧ c ≠ 0x5d ∧ c ≠ 0x7d ∧ c ≠ 0x2c ∧ c ≠ 0x3a := by
  simp only [valueByte, Bool.or_eq_true, beq_iff_eq, numberFirst_iff, ← UInt8.toNat_inj,
    UInt8.reduceToNat] at h
  simp only [Bool.eq_false_iff, ne_eq, isspace_iff, ← UInt8.toNat_inj, UInt8.reduceToNat]
  omega

theorem itemByte_visible {x : Item} {c : UInt8} (h : itemByte x c = true) :
    isspace c = false := by
  cases x with
  | value j => exact (valueByte_spec h).1
  | elements es =>
    rcases Bool.or_eq_true _ _ ▸ h with h | h
    · exact (valueByte_spec h).1
    · rw [eq_of_beq h]
      rfl
  | members ms =>
    rcases Bool.or_eq_true _ _ ▸ h with h | h <;> rw [eq_of_beq h] <;> rfl

/-- A text does not begin with white space, whatever follows it. -/
theorem Spells.noSpace {D : Dialect} (hD : D.Tame) {t : Bytes} {x : Item} (h : Spells D t x)
    (u : Bytes) : NoSpace (t ++ u) := by
  obtain ⟨c, r, rfl, hc⟩ := h.head hD
  intro d hd
  cases hd
  exact itemByte_visible hc

/-- White space in front of a text that begins with none is none. -/
theorem space_eq_nil {w p : Bytes} (hw : Space w) (h : NoSpace (w ++ p)) : w = [] := by
  match w, hw, h with
  | [], _, _ => rfl
  | c :: w, hw, h =>
    have hc := h c rfl
    rw [hw c List.mem_cons_self] at hc
    cases hc

theorem jsonWs_spec (p : Bytes) : ∃ w, p = w ++ jsonWs p ∧ Space w ∧ NoSpace (jsonWs p) :=
  skipAsciiWs_spec p

theorem jsonWs_append {w p : Bytes} (hw : Space w) (hp : NoSpace p) : jsonWs (w ++ p) = p :=
  skipAsciiWs_append hw hp

theorem noSpace_cons {c : UInt8} (h : isspace c = false) (p : Bytes) : NoSpace (c :: p) :=
  fun _ hd => Option.some.inj hd ▸ h

/-! ## What is walked over is in the grammar -/

/-- The skipper at hand walks over values. -/
def WalksValues (skip : Bytes → Option Bytes) : Prop :=
  ∀ p r, skip p = some r →
    ∃ w t j, p = w ++ (t ++ r) ∧ Space w ∧ Spells serverJson t (.value j)

theorem jsonSkipElements_sound {skip : Bytes → Option Bytes} (hskip : WalksValues skip)
    (fuel : Nat) : ∀ {p r : Bytes}, NoSpace p → jsonSkipElements skip fuel p = some r →
      ∃ t es, p = t ++ r ∧ Spells serverJson t (.elements es) := by
  induction fuel with
  | zero =>
    intro p r _ h
    cases h
  | succ fuel ih =>
    intro p r hp h
    match p, hp, h with
    | [], _, h => cases h
    | c :: p, hp, h =>
      rw [jsonSkipElements] at h
      by_cases hc : c = 0x5d
      · rw [if_pos hc] at h
        cases h
        exact ⟨[0x5d], [], by rw [hc]; rfl, .noElements⟩
      · rw [if_neg hc] at h
        cases hv : skip (c :: p) with
        | none =>
          rw [hv] at h
          cases h
        | some q =>
          rw [hv] at h
          obtain ⟨w, v, j, hcut, hw, hspell⟩ := hskip _ _ hv
          rw [hcut] at hp ⊢
          obtain rfl := space_eq_nil hw hp
          obtain ⟨w₁, hq, hw₁, -⟩ := jsonWs_spec q
          match hd : jsonWs q, h with
          | [], h =>
            simp only [hd] at h
            cases h
          | d :: q', h =>
            rw [hd] at hq
            simp only [hd] at h
            split at h
            · rename_i hcomma
              obtain ⟨w₂, hq', hw₂, hq'₂⟩ := jsonWs_spec q'
              obtain ⟨t, es, ht, hes⟩ := ih hq'₂ h
              refine ⟨v ++ (w₁ ++ 0x2c :: (w₂ ++ t)), j :: es, ?_,
                .nextElement hspell hw₁ hw₂ hes (.inr trivial)⟩
              rw [hq, hcomma, hq', ht]
              simp
            · split at h
              · rename_i hclose
                cases h
                refine ⟨v ++ (w₁ ++ [0x5d]), [j], ?_, .lastElement hspell hw₁⟩
                rw [hq, hclose]
                simp
              · cases h

theorem jsonSkipMembers_sound {skip : Bytes → Option Bytes} (hskip : WalksValues skip)
    (fuel : Nat) : ∀ {p r : Bytes}, NoSpace p → jsonSkipMembers skip fuel p = some r →
      ∃ t ms, p = t ++ r ∧ Spells serverJson t (.members ms) := by
  induction fuel with
  | zero =>
    intro p r _ h
    cases h
  | succ fuel ih =>
    intro p r hp h
    match p, hp, h with
    | [], _, h => cases h
    | c :: p, hp, h =>
      rw [jsonSkipMembers] at h
      by_cases hc : c = 0x7d
      · rw [if_pos hc] at h
        cases h
        exact ⟨[0x7d], [], by rw [hc]; rfl, .noMembers⟩
      · rw [if_neg hc] at h
        cases hk : jsonString (c :: p) with
        | none =>
          rw [hk] at h
          cases h
        | some y =>
          obtain ⟨key, q⟩ := y
          rw [hk] at h
          obtain ⟨w, b, k, hcut, hw, hbody, -⟩ := jsonString_sound hk
          rw [hcut] at hp ⊢
          obtain rfl := space_eq_nil hw hp
          obtain ⟨w₁, hq, hw₁, -⟩ := jsonWs_spec q
          match hd : jsonWs q, h with
          | [], h =>
            simp only [hd] at h
            cases h
          | d :: q', h =>
            rw [hd] at hq
            simp only [hd] at h
            split at h
            · cases h
            · rename_i hcolon
              have hcolon : d = 0x3a := not_not.mp hcolon
              cases hv : skip q' with
              | none =>
                rw [hv] at h
                cases h
              | some q₂ =>
                rw [hv] at h
                obtain ⟨w₂, v, j, hq', hw₂, hspell⟩ := hskip _ _ hv
                obtain ⟨w₃, hq₂, hw₃, -⟩ := jsonWs_spec q₂
                match he : jsonWs q₂, h with
                | [], h =>
                  simp only [he] at h
                  cases h
                | e :: q₃, h =>
                  rw [he] at hq₂
                  simp only [he] at h
                  split at h
                  · rename_i hcomma
                    obtain ⟨w₄, hq₃, hw₄, hvis⟩ := jsonWs_spec q₃
                    obtain ⟨t, ms, ht, hms⟩ := ih hvis h
                    refine ⟨quoted b ++ (w₁ ++ 0x3a :: (w₂ ++ (v ++ (w₃ ++ 0x2c :: (w₄ ++ t))))),
                      (k, j) :: ms, ?_,
                      .nextMember hbody hw₁ hw₂ hspell hw₃ hw₄ hms (.inr trivial)⟩
                    rw [hq, hcolon, hq', hq₂, hcomma, hq₃, ht]
                    simp
                  · split at h
                    · rename_i hclose
                      cases h
                      refine ⟨quoted b ++ (w₁ ++ 0x3a :: (w₂ ++ (v ++ (w₃ ++ [0x7d])))), [(k, j)],
                        ?_, .lastMember hbody hw₁ hw₂ hspell hw₃⟩
                      rw [hq, hcolon, hq', hq₂, hclose]
                      simp
                    · cases h

/-- What a value begins with is none of the three words. -/
theorem jsonNumber_sound {p r : Bytes} (hp : NoSpace p) (h : jsonNumber p = some r) :
    ∃ t, p = t ++ r ∧ AcceptedNumber t := by
  have hws : jsonWs p = p := by
    simpa using jsonWs_append (w := []) (fun c hc => absurd hc List.not_mem_nil) hp
  rw [jsonNumber, hws] at h
  exact strtod_accepts hp h

/-- `json_skip_value` walks over white space and a value, to every depth. -/
theorem jsonSkipNested_sound (fuel : Nat) : WalksValues (jsonSkipNested fuel) := by
  induction fuel with
  | zero =>
    intro p r h
    cases h
  | succ fuel ih =>
    intro p r h
    obtain ⟨w, hp, hw, hvis⟩ := jsonWs_spec p
    rw [jsonSkipNested] at h
    match hq : jsonWs p, h with
    | [], h => cases h
    | c :: q, h =>
      rw [hq] at hp hvis
      simp only at h
      suffices hval : ∃ t j, c :: q = t ++ r ∧ Spells serverJson t (.value j) by
        obtain ⟨t, j, ht, hj⟩ := hval
        exact ⟨w, t, j, by rw [hp, ht], hw, hj⟩
      have hword : ∀ (t : Bytes) (j : Json), (t, j) ∈ jsonWords → startsWith (c :: q) t = true →
          (c :: q).drop t.length = r → ∃ t j, c :: q = t ++ r ∧ Spells serverJson t (.value j) := by
        intro t j hmem hstart hdrop
        obtain ⟨r', hr'⟩ := startsWith_iff.mp hstart
        refine ⟨t, j, ?_, .word hmem⟩
        rw [hr', List.drop_left] at hdrop
        rw [hr', hdrop]
      split at h
      · obtain ⟨y, hy, rfl⟩ := Option.map_eq_some_iff.mp h
        obtain ⟨w', b, s, hcut, hw', hbody, -⟩ := jsonString_sound (v := y.1) hy
        rw [hcut] at hvis ⊢
        obtain rfl := space_eq_nil hw' hvis
        exact ⟨quoted b, .str s, rfl, .string hbody⟩
      · split at h
        · rename_i hc
          obtain ⟨w', hq', hw', hvis'⟩ := jsonWs_spec q
          obtain ⟨t, ms, ht, hms⟩ := jsonSkipMembers_sound ih _ hvis' h
          refine ⟨0x7b :: (w' ++ t), .obj ms, ?_, .object hw' hms⟩
          rw [hc, hq', ht]
          simp
        · split at h
          · rename_i hc
            obtain ⟨w', hq', hw', hvis'⟩ := jsonWs_spec q
            obtain ⟨t, es, ht, hes⟩ := jsonSkipElements_sound ih _ hvis' h
            refine ⟨0x5b :: (w' ++ t), .arr es, ?_, .array hw' hes⟩
            rw [hc, hq', ht]
            simp
          · split at h
            · rename_i hstart
              exact hword (bytes "true") (.bool true) (by simp [jsonWords]) hstart
                (Option.some.inj h)
            · split at h
              · rename_i hstart
                exact hword (bytes "false") (.bool false) (by simp [jsonWords]) hstart
                  (Option.some.inj h)
              · split at h
                · rename_i hstart
                  exact hword (bytes "null") .null (by simp [jsonWords]) hstart
                    (Option.some.inj h)
                · obtain ⟨t, ht, hn⟩ := jsonNumber_sound hvis h
                  exact ⟨t, .num t, ht, .number hn⟩

/-! ## What is in the grammar is walked over -/

/-- The item is walked over, in front of whatever can follow it. -/
def Skips (t : Bytes) : Item → Prop
  | .value _ => ∀ fuel w u, t.length ≤ fuel → Space w → Stops u →
      jsonSkipNested fuel (w ++ (t ++ u)) = some u
  | .elements _ => ∀ fuel n u, t.length ≤ fuel → t.length ≤ n →
      jsonSkipElements (jsonSkipNested fuel) n (t ++ u) = some u
  | .members _ => ∀ fuel n u, t.length ≤ fuel → t.length ≤ n →
      jsonSkipMembers (jsonSkipNested fuel) n (t ++ u) = some u

/-- The text of a value is walked over, whatever follows it. -/
def Walks (t : Bytes) : Prop :=
  ∀ fuel w u, t.length ≤ fuel → Space w → jsonSkipNested fuel (w ++ (t ++ u)) = some u

theorem Walks.skips {t : Bytes} (h : Walks t) (j : Json) : Skips t (.value j) :=
  fun fuel w u hf hw _ => h fuel w u hf hw

/-- `json_skip_value` after white space. -/
theorem jsonSkipNested_visible (fuel : Nat) {w : Bytes} {c : UInt8} {p : Bytes} (hw : Space w)
    (hc : isspace c = false) :
    jsonSkipNested (fuel + 1) (w ++ c :: p) =
      if c = 0x22 then (jsonString (c :: p)).map Prod.snd
      else if c = 0x7b then jsonSkipMembers (jsonSkipNested fuel) (p.length + 1) (jsonWs p)
      else if c = 0x5b then jsonSkipElements (jsonSkipNested fuel) (p.length + 1) (jsonWs p)
      else if startsWith (c :: p) (bytes "true") then some (p.drop 3)
      else if startsWith (c :: p) (bytes "false") then some (p.drop 4)
      else if startsWith (c :: p) (bytes "null") then some (p.drop 3)
      else jsonNumber (c :: p) := by
  rw [jsonSkipNested, jsonWs_append hw (noSpace_cons hc p)]

theorem startsWith_cons_false {c l : UInt8} {p lit rest : Bytes} (hlit : lit = l :: rest)
    (hc : c ≠ l) : startsWith (c :: p) lit = false := by
  simp [startsWith, hlit, List.cons_prefix_cons, hc.symm]

/-- A byte a number begins with is not what strings, arrays and objects begin with. -/
theorem numberFirst_spec {c : UInt8} (h : numberFirst c = true) :
    isspace c = false ∧ c ≠ 0x22 ∧ c ≠ 0x7b ∧ c ≠ 0x5b := by
  rw [numberFirst_iff] at h
  simp only [Bool.eq_false_iff, ne_eq, isspace_iff, ← UInt8.toNat_inj, UInt8.reduceToNat]
  omega

theorem walks_word {t : Bytes} {j : Json} (h : (t, j) ∈ jsonWords) : Walks t := by
  intro fuel w u hf hw
  simp only [jsonWords, List.mem_cons, List.not_mem_nil, or_false, Prod.mk.injEq] at h
  have htrue : bytes "true" = [0x74, 0x72, 0x75, 0x65] := by decide
  have hfalse : bytes "false" = [0x66, 0x61, 0x6c, 0x73, 0x65] := by decide
  have hnull : bytes "null" = [0x6e, 0x75, 0x6c, 0x6c] := by decide
  cases fuel with
  | zero =>
    rcases h with ⟨rfl, -⟩ | ⟨rfl, -⟩ | ⟨rfl, -⟩ <;> exact absurd hf (by decide)
  | succ fuel =>
    rcases h with ⟨rfl, -⟩ | ⟨rfl, -⟩ | ⟨rfl, -⟩
    · rw [htrue, List.cons_append, jsonSkipNested_visible fuel hw (by decide), htrue]
      simp [startsWith, List.cons_prefix_cons]
    · rw [hfalse, List.cons_append, jsonSkipNested_visible fuel hw (by decide), htrue, hfalse]
      simp [startsWith, List.cons_prefix_cons]
    · rw [hnull, List.cons_append, jsonSkipNested_visible fuel hw (by decide), htrue, hfalse,
        hnull]
      simp [startsWith, List.cons_prefix_cons]

theorem walks_string {b s : Bytes} (h : StringBody AnyPlain b s) : Walks (quoted b) := by
  intro fuel w u hf hw
  match fuel, hf with
  | fuel + 1, _ =>
    have hcons : quoted b ++ u = 0x22 :: (b ++ [0x22] ++ u) := rfl
    rw [hcons, jsonSkipNested_visible fuel hw (by decide), ← hcons, jsonString_quoted h]
    rfl

theorem jsonNumber_append {t u : Bytes} (h : AcceptedNumber t) (hu : Stops u) :
    jsonNumber (t ++ u) = some u := by
  obtain ⟨c, r, rfl, hc⟩ := h.head
  have hws : jsonWs (c :: r ++ u) = c :: r ++ u :=
    jsonWs_append (w := []) (fun c hc => absurd hc List.not_mem_nil)
      (noSpace_cons (numberFirst_spec hc).1 _)
  rw [jsonNumber, hws, h.read u hu]

/-- A text that begins like a number is read as one. -/
theorem jsonSkipNested_number {t : Bytes} (h : NumberText t) (fuel : Nat) {w : Bytes}
    (hw : Space w) (u : Bytes) :
    jsonSkipNested (fuel + 1) (w ++ (t ++ u)) = jsonNumber (t ++ u) := by
  obtain ⟨c, r, rfl, hc⟩ := h.head
  obtain ⟨hspace, h1, h2, h3⟩ := numberFirst_spec hc
  have hword : ∀ t j, (t, j) ∈ jsonWords → startsWith (c :: (r ++ u)) t = false :=
    fun t j ht => h.noWord t j u ht
  rw [List.cons_append, jsonSkipNested_visible fuel hw hspace, if_neg h1, if_neg h2, if_neg h3]
  simp only [hword (bytes "true") (.bool true) (by simp [jsonWords]),
    hword (bytes "false") (.bool false) (by simp [jsonWords]),
    hword (bytes "null") .null (by simp [jsonWords]), Bool.false_eq_true, if_false]

theorem skips_number {t : Bytes} (h : AcceptedNumber t) : Skips t (.value (.num t)) := by
  intro fuel w u hf hw hu
  obtain ⟨c, r, hcons, -⟩ := h.head
  match fuel, hf with
  | 0, hf =>
    rw [hcons] at hf
    exact absurd hf (by simp)
  | fuel + 1, _ =>
    rw [jsonSkipNested_number h.toNumberText fuel hw]
    exact jsonNumber_append h hu

theorem walks_array {w t : Bytes} {es : List Json} (hw : Space w)
    (ht : Spells serverJson t (.elements es)) (ih : Skips t (.elements es)) :
    Walks (0x5b :: (w ++ t)) := by
  intro fuel w' u hf hw'
  match fuel, hf with
  | fuel + 1, hf =>
    simp only [List.length_cons, List.length_append] at hf
    rw [List.cons_append, jsonSkipNested_visible fuel hw' (by decide), if_neg (by decide),
      if_neg (by decide), if_pos rfl, List.append_assoc,
      jsonWs_append hw (ht.noSpace serverJson_tame u)]
    exact ih fuel _ u (by omega) (by simp; omega)

theorem walks_object {w t : Bytes} {ms : List (Bytes × Json)} (hw : Space w)
    (ht : Spells serverJson t (.members ms)) (ih : Skips t (.members ms)) :
    Walks (0x7b :: (w ++ t)) := by
  intro fuel w' u hf hw'
  match fuel, hf with
  | fuel + 1, hf =>
    simp only [List.length_cons, List.length_append] at hf
    rw [List.cons_append, jsonSkipNested_visible fuel hw' (by decide), if_neg (by decide),
      if_pos rfl, List.append_assoc, jsonWs_append hw (ht.noSpace serverJson_tame u)]
    exact ih fuel _ u (by omega) (by simp; omega)

/-- One turn of the array loop, on a value with a comma behind it. -/
theorem jsonSkipElements_comma {skip : Bytes → Option Bytes} {p q r : Bytes} (n : Nat)
    (hp : p ≠ [] ∧ ∀ c, p.head? = some c → c ≠ 0x5d) (hskip : skip p = some q)
    (hws : jsonWs q = 0x2c :: r) :
    jsonSkipElements skip (n + 1) p = jsonSkipElements skip n (jsonWs r) := by
  match p, hp with
  | c :: p, hp =>
    have hc : c ≠ 0x5d := hp.2 c rfl
    simp [jsonSkipElements, hc, hskip, hws]

/-- One turn of the array loop, on a value with the bracket behind it. -/
theorem jsonSkipElements_close {skip : Bytes → Option Bytes} {p q r : Bytes} (n : Nat)
    (hp : p ≠ [] ∧ ∀ c, p.head? = some c → c ≠ 0x5d) (hskip : skip p = some q)
    (hws : jsonWs q = 0x5d :: r) : jsonSkipElements skip (n + 1) p = some r := by
  match p, hp with
  | c :: p, hp =>
    have hc : c ≠ 0x5d := hp.2 c rfl
    simp [jsonSkipElements, hc, hskip, hws]

/-- A value does not begin with the bracket that closes an array. -/
theorem Spells.head_ne_close {t : Bytes} {j : Json} (h : Spells serverJson t (.value j))
    (u : Bytes) : t ++ u ≠ [] ∧ ∀ c, (t ++ u).head? = some c → c ≠ 0x5d := by
  obtain ⟨c, r, rfl, hc⟩ := h.head serverJson_tame
  refine ⟨by simp, fun d hd => ?_⟩
  cases hd
  exact (valueByte_spec hc).2.1

theorem Skips.value {t : Bytes} {j : Json} (h : Skips t (.value j)) {fuel : Nat}
    (hf : t.length ≤ fuel) {w u : Bytes} (hw : Space w) (hu : Stops u) :
    jsonSkipNested fuel (w ++ (t ++ u)) = some u := h fuel w u hf hw hu

theorem space_nil : Space [] := fun _ h => absurd h List.not_mem_nil

theorem skips_lastElement {v w : Bytes} {j : Json} (hv : Spells serverJson v (.value j))
    (hw : Space w) (ih : Skips v (.value j)) : Skips (v ++ (w ++ [0x5d])) (.elements [j]) := by
  intro fuel n u hf hn
  simp only [List.length_append, List.length_cons, List.length_nil] at hf hn
  obtain ⟨n, rfl⟩ := Nat.exists_eq_add_of_le' (show 1 ≤ n by omega)
  have hrest : Stops (w ++ 0x5d :: u) := stops_space hw (stops_cons (by decide) u)
  have hskip := ih.value (show _ ≤ fuel by omega) space_nil hrest
  have hcut : v ++ (w ++ [0x5d]) ++ u = v ++ (w ++ 0x5d :: u) := by simp
  rw [hcut]
  exact jsonSkipElements_close n (hv.head_ne_close _) hskip
    (jsonWs_append hw (noSpace_cons (by decide) u))

theorem skips_nextElement {v w w' t : Bytes} {j : Json} {es : List Json}
    (hv : Spells serverJson v (.value j)) (hw : Space w) (hw' : Space w')
    (ht : Spells serverJson t (.elements es)) (ihv : Skips v (.value j))
    (iht : Skips t (.elements es)) :
    Skips (v ++ (w ++ 0x2c :: (w' ++ t))) (.elements (j :: es)) := by
  intro fuel n u hf hn
  simp only [List.length_append, List.length_cons] at hf hn
  obtain ⟨n, rfl⟩ := Nat.exists_eq_add_of_le' (show 1 ≤ n by omega)
  have hrest : Stops (w ++ 0x2c :: (w' ++ (t ++ u))) :=
    stops_space hw (stops_cons (by decide) _)
  have hskip := ihv.value (show _ ≤ fuel by omega) space_nil hrest
  have hcut : v ++ (w ++ 0x2c :: (w' ++ t)) ++ u = v ++ (w ++ 0x2c :: (w' ++ (t ++ u))) := by
    simp
  rw [hcut, jsonSkipElements_comma n (hv.head_ne_close _) hskip
    (jsonWs_append hw (noSpace_cons (by decide) _)),
    jsonWs_append hw' (ht.noSpace serverJson_tame u)]
  exact iht fuel n u (by omega) (by omega)

/-- One turn of the object loop, on a member with a comma behind it. -/
theorem jsonSkipMembers_comma {skip : Bytes → Option Bytes} (n : Nat) {b k w p q r : Bytes}
    (hk : StringBody AnyPlain b k) (hw : Space w) (hskip : skip p = some q)
    (hws : jsonWs q = 0x2c :: r) :
    jsonSkipMembers skip (n + 1) (quoted b ++ (w ++ 0x3a :: p)) =
      jsonSkipMembers skip n (jsonWs r) := by
  have hread := jsonString_quoted hk (w ++ 0x3a :: p)
  have hcolon : jsonWs (w ++ 0x3a :: p) = 0x3a :: p :=
    jsonWs_append hw (noSpace_cons (by decide) p)
  rw [quoted, List.cons_append, List.append_assoc, List.singleton_append] at hread ⊢
  simp [jsonSkipMembers, hread, hcolon, hskip, hws]

/-- One turn of the object loop, on a member with the brace behind it. -/
theorem jsonSkipMembers_close {skip : Bytes → Option Bytes} (n : Nat) {b k w p q r : Bytes}
    (hk : StringBody AnyPlain b k) (hw : Space w) (hskip : skip p = some q)
    (hws : jsonWs q = 0x7d :: r) :
    jsonSkipMembers skip (n + 1) (quoted b ++ (w ++ 0x3a :: p)) = some r := by
  have hread := jsonString_quoted hk (w ++ 0x3a :: p)
  have hcolon : jsonWs (w ++ 0x3a :: p) = 0x3a :: p :=
    jsonWs_append hw (noSpace_cons (by decide) p)
  rw [quoted, List.cons_append, List.append_assoc, List.singleton_append] at hread ⊢
  simp [jsonSkipMembers, hread, hcolon, hskip, hws]

theorem skips_lastMember {b k w₁ w₂ v w : Bytes} {j : Json} (hk : StringBody AnyPlain b k)
    (hw₁ : Space w₁) (hw₂ : Space w₂) (hw : Space w) (ih : Skips v (.value j)) :
    Skips (quoted b ++ (w₁ ++ 0x3a :: (w₂ ++ (v ++ (w ++ [0x7d]))))) (.members [(k, j)]) := by
  intro fuel n u hf hn
  simp only [List.length_append, List.length_cons, List.length_nil] at hf hn
  obtain ⟨n, rfl⟩ := Nat.exists_eq_add_of_le' (show 1 ≤ n by omega)
  have hskip := ih.value (show _ ≤ fuel by omega) hw₂
    (stops_space hw (stops_cons (by decide) u) : Stops (w ++ 0x7d :: u))
  have hcut : quoted b ++ (w₁ ++ 0x3a :: (w₂ ++ (v ++ (w ++ [0x7d])))) ++ u =
      quoted b ++ (w₁ ++ 0x3a :: (w₂ ++ (v ++ (w ++ 0x7d :: u)))) := by simp
  rw [hcut]
  exact jsonSkipMembers_close n hk hw₁ hskip (jsonWs_append hw (noSpace_cons (by decide) u))

theorem skips_nextMember {b k w₁ w₂ v w w' t : Bytes} {j : Json} {ms : List (Bytes × Json)}
    (hk : StringBody AnyPlain b k) (hw₁ : Space w₁) (hw₂ : Space w₂) (hw : Space w)
    (hw' : Space w') (ht : Spells serverJson t (.members ms)) (ihv : Skips v (.value j))
    (iht : Skips t (.members ms)) :
    Skips (quoted b ++ (w₁ ++ 0x3a :: (w₂ ++ (v ++ (w ++ 0x2c :: (w' ++ t))))))
      (.members ((k, j) :: ms)) := by
  intro fuel n u hf hn
  simp only [List.length_append, List.length_cons] at hf hn
  obtain ⟨n, rfl⟩ := Nat.exists_eq_add_of_le' (show 1 ≤ n by omega)
  have hskip := ihv.value (show _ ≤ fuel by omega) hw₂
    (stops_space hw (stops_cons (by decide) _) : Stops (w ++ 0x2c :: (w' ++ (t ++ u))))
  have hcut : quoted b ++ (w₁ ++ 0x3a :: (w₂ ++ (v ++ (w ++ 0x2c :: (w' ++ t))))) ++ u =
      quoted b ++ (w₁ ++ 0x3a :: (w₂ ++ (v ++ (w ++ 0x2c :: (w' ++ (t ++ u)))))) := by simp
  rw [hcut, jsonSkipMembers_comma n hk hw₁ hskip
    (jsonWs_append hw (noSpace_cons (by decide) _)),
    jsonWs_append hw' (ht.noSpace serverJson_tame u)]
  exact iht fuel n u (by omega) (by omega)

/-- Every text of the reader's dialect is walked over. -/
theorem Spells.skips {t : Bytes} {x : Item} (h : Spells serverJson t x) : Skips t x := by
  induction h with
  | word hj => exact (walks_word hj).skips _
  | string hb => exact (walks_string hb).skips _
  | number hn => exact skips_number hn
  | array hw ht ih => exact (walks_array hw ht ih).skips _
  | noElements =>
    intro fuel n u _ hn
    obtain ⟨n, rfl⟩ := Nat.exists_eq_add_of_le' hn
    rfl
  | lastElement hv hw ih => exact skips_lastElement hv hw ih
  | nextElement hv hw hw' ht _ ihv iht => exact skips_nextElement hv hw hw' ht ihv iht
  | object hw ht ih => exact (walks_object hw ht ih).skips _
  | noMembers =>
    intro fuel n u _ hn
    obtain ⟨n, rfl⟩ := Nat.exists_eq_add_of_le' hn
    rfl
  | lastMember hk hw₁ hw₂ _ hw ih => exact skips_lastMember hk hw₁ hw₂ hw ih
  | nextMember hk hw₁ hw₂ _ hw hw' ht _ ihv iht =>
    exact skips_nextMember hk hw₁ hw₂ hw hw' ht ihv iht

/-- `json_skip_value` stops behind the value. -/
theorem Spells.jsonSkipValue {t : Bytes} {j : Json} (h : Spells serverJson t (.value j))
    {w u : Bytes} (hw : Space w) (hu : Stops u) : jsonSkipValue (w ++ (t ++ u)) = some u :=
  h.skips.value (by simp; omega) hw hu

end Sf37.Text

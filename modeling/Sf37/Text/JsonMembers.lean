/-
Sf37.Text.JsonMembers — the members of an object, as `json_args_parse` reads them and as
`append_json_object_or_empty` writes them.

* `jsonArgsLoop_last`, `jsonArgsLoop_next`: what one turn of the member loop reads.
* `membersText_spells`: members joined by commas are an object.
* `membersText_rfc`: such an object is one of the RFC only where every key and every
  value is.
-/
import Sf37.Text.JsonMinify

namespace Sf37.Text

/-! ## Reading members -/

/-- What `json_args_parse` keeps of a member: a string decoded, another value minified. -/
def argOf (k v : Bytes) : Json → JsonArg
  | .str s => { key := cstr k, value := cstr s, isString := true }
  | _ => { key := cstr k, value := squeezed v, isString := false }

theorem spells_str {D : Dialect} {v s : Bytes} (h : Spells D v (.value (.str s))) :
    ∃ b, v = quoted b ∧ StringBody D.plain b s := by
  cases h with
  | word hj => simp [jsonWords] at hj
  | string hb => exact ⟨_, rfl, hb⟩

theorem spells_not_str {D : Dialect} (hD : D.Tame) {v : Bytes} {j : Json}
    (h : Spells D v (.value j)) (hj : ∀ s, j ≠ .str s) : v.head? ≠ some 0x22 := by
  obtain ⟨c, r, rfl, -⟩ := h.head hD
  intro hhead
  obtain rfl : c = 0x22 := Option.some.inj hhead
  rcases h.value_cases hD with ⟨-, b, s, -, hs, -⟩ | ⟨hbad, -⟩ | ⟨hbad, -⟩ | ⟨hbad, -⟩ | ⟨hbad, -⟩
  · exact hj s hs
  · exact absurd hbad (by decide)
  · exact absurd hbad (by decide)
  · exact absurd hbad (by decide)
  · exact absurd hbad (by decide)

/-- The value of a member. -/
theorem jsonArgValue_eq {v u : Bytes} {j : Json} (h : Spells serverJson v (.value j))
    (hu : Stops u) (k : Bytes) :
    jsonArgValue (v ++ u) = some ((argOf k v j).value, (argOf k v j).isString, u) := by
  have hquote : bytes "\"" = [0x22] := by decide
  by_cases hstr : ∃ s, j = .str s
  · obtain ⟨s, rfl⟩ := hstr
    obtain ⟨b, rfl, hb⟩ := spells_str h
    have hstart : startsWith (quoted b ++ u) (bytes "\"") = true := by
      rw [hquote]
      exact startsWith_iff.mpr ⟨b ++ [0x22] ++ u, rfl⟩
    rw [jsonArgValue, if_pos hstart, jsonString_quoted hb]
    rfl
  · have hj : ∀ s, j ≠ .str s := fun s hs => hstr ⟨s, hs⟩
    have hhead := spells_not_str serverJson_tame h hj
    have hstart : startsWith (v ++ u) (bytes "\"") = false := by
      obtain ⟨c, r, rfl, -⟩ := h.head serverJson_tame
      exact startsWith_cons_false hquote (fun hc => hhead (hc ▸ rfl))
    have hws : jsonWs (v ++ u) = v ++ u :=
      jsonWs_append space_nil (h.noSpace serverJson_tame u)
    have hskip : jsonSkipValue (v ++ u) = some u := h.jsonSkipValue space_nil hu
    have hmin : jsonMinifyRawValue v = squeezed v := by
      have hself := jsonMinifyRawValue_eq space_nil h (h.jsonSkipValue space_nil stops_nil)
      rwa [List.append_nil, List.nil_append] at hself
    have hraw : jsonRawValue (v ++ u) = some (v, u) := by
      rw [jsonRawValue, hws, hskip, Option.map_some, List.length_append, Nat.add_sub_cancel,
        List.take_left]
    have harg : argOf k v j = { key := cstr k, value := squeezed v, isString := false } := by
      cases j with
      | str s => exact absurd rfl (hj s)
      | _ => rfl
    rw [jsonArgValue, hstart, if_neg (by decide), hraw, harg]
    simp only [Option.map_some, hmin]

theorem jsonWs_self {p : Bytes} (hp : NoSpace p) : jsonWs p = p := jsonWs_append space_nil hp

theorem startsWith_comma (p : Bytes) : startsWith (0x2c :: p) (bytes ",") = true := by
  have hlit : bytes "," = [0x2c] := by decide
  rw [hlit]
  exact startsWith_iff.mpr ⟨p, rfl⟩

/-- One turn of the member loop, up to what stands behind the value. -/
theorem jsonArgsLoop_member (fuel : Nat) {b k w₁ w₂ v u : Bytes} {j : Json}
    (hk : StringBody AnyPlain b k) (hw₁ : Space w₁) (hw₂ : Space w₂)
    (hv : Spells serverJson v (.value j)) (hu : Stops u) :
    jsonArgsLoop (fuel + 1) (quoted b ++ (w₁ ++ 0x3a :: (w₂ ++ (v ++ u)))) =
      (jsonArgsLoop fuel (jsonWs
        (if startsWith (jsonWs u) (bytes ",") then (jsonWs u).drop 1 else jsonWs u))).map
        (argOf k v j :: ·) := by
  have hcons : quoted b ++ (w₁ ++ 0x3a :: (w₂ ++ (v ++ u))) =
      0x22 :: (b ++ [0x22] ++ (w₁ ++ 0x3a :: (w₂ ++ (v ++ u)))) := rfl
  have hread := jsonString_quoted hk (w₁ ++ 0x3a :: (w₂ ++ (v ++ u)))
  rw [hcons] at hread ⊢
  rw [jsonArgsLoop, if_neg (by decide), hread]
  have hws : jsonWs (w₁ ++ 0x3a :: (w₂ ++ (v ++ u))) = 0x3a :: (w₂ ++ (v ++ u)) :=
    jsonWs_append hw₁ (noSpace_cons (by decide) _)
  have hws₂ : jsonWs (w₂ ++ (v ++ u)) = v ++ u :=
    jsonWs_append hw₂ (hv.noSpace serverJson_tame u)
  have hkey : (argOf k v j).key = cstr k := by cases j <;> rfl
  simp only [hws, ne_eq, not_true_eq_false, if_false, hws₂, jsonArgValue_eq hv hu k]
  rw [← hkey]

/-- The last member and the brace behind it. -/
theorem jsonArgsLoop_last (fuel : Nat) {b k w₁ w₂ v w : Bytes} {j : Json}
    (hk : StringBody AnyPlain b k) (hw₁ : Space w₁) (hw₂ : Space w₂)
    (hv : Spells serverJson v (.value j)) (hw : Space w) (u : Bytes) :
    jsonArgsLoop (fuel + 2) (quoted b ++ (w₁ ++ 0x3a :: (w₂ ++ (v ++ (w ++ 0x7d :: u))))) =
      some [argOf k v j] := by
  have hbrace : NoSpace (0x7d :: u) := noSpace_cons (by decide) u
  have hstart : startsWith (0x7d :: u) (bytes ",") = false :=
    startsWith_cons_false (show bytes "," = 0x2c :: [] by decide) (by decide)
  rw [jsonArgsLoop_member (fuel + 1) hk hw₁ hw₂ hv (stops_space hw (stops_cons (by decide) u)),
    jsonWs_append hw hbrace, hstart, if_neg (by decide), jsonWs_self hbrace]
  rfl

/-- A member with a comma behind it. -/
theorem jsonArgsLoop_next (fuel : Nat) {b k w₁ w₂ v w w' q : Bytes} {j : Json}
    (hk : StringBody AnyPlain b k) (hw₁ : Space w₁) (hw₂ : Space w₂)
    (hv : Spells serverJson v (.value j)) (hw : Space w) (hw' : Space w') (hq : NoSpace q) :
    jsonArgsLoop (fuel + 1) (quoted b ++ (w₁ ++ 0x3a :: (w₂ ++ (v ++ (w ++ 0x2c :: (w' ++ q)))))) =
      (jsonArgsLoop fuel q).map (argOf k v j :: ·) := by
  rw [jsonArgsLoop_member fuel hk hw₁ hw₂ hv (stops_space hw (stops_cons (by decide) _)),
    jsonWs_append hw (noSpace_cons (by decide) _), startsWith_comma, if_pos rfl,
    List.drop_one, List.tail_cons, jsonWs_append hw' hq]

/-! ## Members joined by commas -/

/-- The text of a key, the text of a value, and what the two stand for. -/
structure Member where
  body : Bytes
  key : Bytes
  text : Bytes
  value : Json

/-- `"key":value`. -/
def Member.bytes (m : Member) : Bytes := quoted m.body ++ 0x3a :: m.text

/-- The members with the commas between them. -/
def membersText (ms : List Member) : Bytes :=
  ((ms.map Member.bytes).intersperse [0x2c]).flatten

/-- The key and the value are of the dialect. -/
def Member.In (D : Dialect) (m : Member) : Prop :=
  StringBody D.plain m.body m.key ∧ Spells D m.text (.value m.value)

theorem membersText_cons (m m' : Member) (ms : List Member) :
    membersText (m :: m' :: ms) = m.bytes ++ 0x2c :: membersText (m' :: ms) := by
  simp [membersText, List.intersperse_cons_cons]

theorem membersText_singleton (m : Member) : membersText [m] = m.bytes := by
  simp [membersText]

theorem length_le_membersText (ms : List Member) : ms.length ≤ (membersText ms).length := by
  induction ms with
  | nil => exact Nat.zero_le _
  | cons m ms ih =>
    match ms, ih with
    | [], _ =>
      rw [membersText_singleton]
      simp [Member.bytes]
      omega
    | m' :: ms, ih =>
      rw [membersText_cons]
      simp only [List.length_append, List.length_cons] at ih ⊢
      omega

/-- Members of a dialect make an object of it. -/
theorem membersText_spells {D : Dialect} {ms : List Member} (h : ∀ m ∈ ms, m.In D) :
    Spells D (membersText ms ++ [0x7d]) (.members (ms.map fun m => (m.key, m.value))) := by
  have hnil : D.Ws [] := fun c hc => absurd hc List.not_mem_nil
  induction ms with
  | nil => exact .noMembers
  | cons m ms ih =>
    obtain ⟨hk, hv⟩ := h m List.mem_cons_self
    match ms, ih with
    | [], _ =>
      rw [membersText_singleton]
      have hlast := Spells.lastMember hk hnil hnil hv hnil
      simpa [Member.bytes] using hlast
    | m' :: ms, ih =>
      have hrest := ih fun n hn => h n (List.mem_cons_of_mem m hn)
      have hnext := Spells.nextMember hk hnil hnil hv hnil hnil hrest (.inl (by simp))
      rw [membersText_cons]
      simpa [Member.bytes] using hnext

/-- The argument the member is read as. -/
def Member.arg (m : Member) : JsonArg := argOf m.key m.text m.value

/-- The members are read back. -/
theorem jsonArgsLoop_membersText {ms : List Member} (h : ∀ m ∈ ms, m.In serverJson) (u : Bytes) :
    ∀ fuel, ms.length < fuel →
      jsonArgsLoop fuel (membersText ms ++ 0x7d :: u) = some (ms.map Member.arg) := by
  induction ms with
  | nil =>
    intro fuel hf
    obtain ⟨fuel, rfl⟩ := Nat.exists_eq_add_of_le' hf
    rfl
  | cons m ms ih =>
    intro fuel hf
    obtain ⟨hk, hv⟩ := h m List.mem_cons_self
    match ms, ih with
    | [], _ =>
      obtain ⟨fuel, rfl⟩ := Nat.exists_eq_add_of_le' hf
      have hlast := jsonArgsLoop_last fuel hk space_nil space_nil hv space_nil u
      rw [membersText_singleton]
      simpa [Member.bytes, Member.arg] using hlast
    | m' :: ms, ih =>
      obtain ⟨fuel, rfl⟩ := Nat.exists_eq_add_of_le' (show 1 ≤ fuel by simp at hf; omega)
      have hrest := ih (fun n hn => h n (List.mem_cons_of_mem m hn)) fuel (by simp at hf ⊢; omega)
      have hvis : NoSpace (membersText (m' :: ms) ++ 0x7d :: u) := by
        have hspell := membersText_spells fun n hn => h n (List.mem_cons_of_mem m hn)
        simpa using hspell.noSpace serverJson_tame u
      have hnext := jsonArgsLoop_next fuel hk space_nil space_nil hv space_nil space_nil hvis
      rw [hrest] at hnext
      rw [membersText_cons]
      simpa [Member.bytes, Member.arg] using hnext

/-! ## Which members the RFC reads -/

/-- The value has no white space to drop. -/
def Member.Tight (m : Member) : Prop := squeezed m.text = m.text

/-- The RFC reads the first member as it stands, up to the byte behind it. -/
theorem rfcMember_at {m : Member} {c d : UInt8} {b₀ k₀ w₁ w₂ v₀ w a q : Bytes} {j₀ : Json}
    (hm : m.In serverJson) (htight : m.Tight) (hc : stopByte c = true) (hcs : isspace c = false)
    (hd : stopByte d = true) (hk₀ : StringBody RfcPlain b₀ k₀) (hw₁ : rfc8259.Ws w₁)
    (hw₂ : rfc8259.Ws w₂) (hv₀ : Spells rfc8259 v₀ (.value j₀)) (hw : rfc8259.Ws w)
    (heq : m.bytes ++ c :: a = quoted b₀ ++ (w₁ ++ 0x3a :: (w₂ ++ (v₀ ++ (w ++ d :: q))))) :
    m.In rfc8259 ∧ k₀ = m.key ∧ j₀ = m.value ∧ w = [] ∧ c = d ∧ a = q := by
  obtain ⟨hk, hv⟩ := hm
  have hvis := hv.noSpace serverJson_tame (c :: a)
  have hcut : quoted m.body ++ 0x3a :: (m.text ++ c :: a) =
      quoted b₀ ++ (w₁ ++ 0x3a :: (w₂ ++ (v₀ ++ (w ++ d :: q)))) := by
    rw [← heq]
    simp [Member.bytes]
  obtain ⟨hb, hkey, rfl, rfl, hval⟩ := rfcKey_at hk hk₀ hw₁ hw₂ rfl hvis hcut
  have hstrict := hv.strict
  rw [htight] at hstrict
  obtain ⟨hrest, rfl, hj, -⟩ := hstrict.value hval (stops_cons hc a)
    (stops_space (rfc_space hw) (stops_cons hd q)) hv₀
  obtain ⟨rfl, hcd, haq⟩ := visible_eq_ws hw hcs hrest
  exact ⟨⟨hkey ▸ hb ▸ hk₀, hj ▸ hv₀⟩, hkey, hj, rfl, hcd, haq⟩

/-- Members without white space are an object of the RFC only where each of them is of
the RFC, and the RFC reads their keys and values. -/
theorem membersText_rfc {ms : List Member} (hms : ∀ m ∈ ms, m.In serverJson ∧ m.Tight) :
    ∀ ms₀ : List (Bytes × Json),
      Spells rfc8259 (membersText ms ++ [0x7d]) (.members ms₀) →
        (∀ m ∈ ms, m.In rfc8259) ∧ ms₀ = ms.map fun m => (m.key, m.value) := by
  induction ms with
  | nil =>
    intro ms₀ h
    generalize ht : membersText [] ++ [0x7d] = t at h
    have ht : [0x7d] = t := ht
    cases h with
    | noMembers => exact ⟨fun m hm => absurd hm List.not_mem_nil, rfl⟩
    | lastMember _ _ _ _ _ => exact absurd (List.cons.inj ht).1 (by decide)
    | nextMember _ _ _ _ _ _ _ _ => exact absurd (List.cons.inj ht).1 (by decide)
  | cons m ms ih =>
    intro ms₀ h
    obtain ⟨hm, htight⟩ := hms m List.mem_cons_self
    have hrest := ih fun n hn => hms n (List.mem_cons_of_mem m hn)
    generalize ht : membersText (m :: ms) ++ [0x7d] = t at h
    match ms, hrest with
    | [], _ =>
      rw [membersText_singleton] at ht
      cases h with
      | noMembers =>
        exact (quoted_ne_close (by simpa [Member.bytes] using ht)).elim
      | lastMember hk₀ hw₁ hw₂ hv₀ hw =>
        obtain ⟨hin, rfl, rfl, -⟩ := rfcMember_at hm htight (by decide) (by decide) (by decide)
          hk₀ hw₁ hw₂ hv₀ hw ht
        exact ⟨fun n hn => List.mem_singleton.mp hn ▸ hin, rfl⟩
      | nextMember hk₀ hw₁ hw₂ hv₀ hw _ _ _ =>
        obtain ⟨-, -, -, -, hbad, -⟩ := rfcMember_at hm htight (by decide) (by decide) (by decide)
          hk₀ hw₁ hw₂ hv₀ hw ht
        exact absurd hbad (by decide)
    | m' :: ms, hrest =>
      rw [membersText_cons, List.append_assoc, List.cons_append] at ht
      cases h with
      | noMembers =>
        exact (quoted_ne_close (by simpa [Member.bytes] using ht)).elim
      | lastMember hk₀ hw₁ hw₂ hv₀ hw =>
        obtain ⟨-, -, -, -, hbad, -⟩ := rfcMember_at hm htight (by decide) (by decide) (by decide)
          hk₀ hw₁ hw₂ hv₀ hw ht
        exact absurd hbad (by decide)
      | nextMember hk₀ hw₁ hw₂ hv₀ hw hw' ht₀ _ =>
        obtain ⟨hin, rfl, rfl, -, -, htail⟩ := rfcMember_at hm htight (by decide) (by decide)
          (by decide) hk₀ hw₁ hw₂ hv₀ hw ht
        have hvis : NoSpace (membersText (m' :: ms) ++ [0x7d]) := by
          have hspell := membersText_spells fun n hn =>
            (hms n (List.mem_cons_of_mem m hn)).1
          simpa using hspell.noSpace serverJson_tame []
        obtain ⟨rfl, htail⟩ := noSpace_eq_ws hw' hvis htail
        rw [List.nil_append] at htail
        obtain ⟨hall, rfl⟩ := hrest _ (htail ▸ ht₀)
        refine ⟨fun n hn => ?_, rfl⟩
        rcases List.mem_cons.mp hn with rfl | hn
        · exact hin
        · exact hall n hn

/-- An object of joined members, as a whole. -/
def objectText (ms : List Member) : Bytes := 0x7b :: (membersText ms ++ [0x7d])

theorem objectText_spells {D : Dialect} {ms : List Member} (h : ∀ m ∈ ms, m.In D) :
    Spells D (objectText ms) (.value (.obj (ms.map fun m => (m.key, m.value)))) :=
  Spells.object (w := []) (fun _ hc => absurd hc List.not_mem_nil) (membersText_spells h)

/-- A text of joined members is an object of the RFC exactly when every member is of the
RFC. -/
theorem objectText_rfc_iff {ms : List Member} (hms : ∀ m ∈ ms, m.In serverJson ∧ m.Tight)
    (ms₀ : List (Bytes × Json)) :
    Spells rfc8259 (objectText ms) (.value (.obj ms₀)) ↔
      (∀ m ∈ ms, m.In rfc8259) ∧ ms₀ = ms.map fun m => (m.key, m.value) := by
  constructor
  · intro h
    rcases h.value_cases rfc8259_tame with ⟨hbad, -⟩ | ⟨hbad, -⟩ |
      ⟨-, w, t, ms₁, ht, hj, hw, hspell⟩ | ⟨hbad, -⟩ | ⟨hbad, -⟩
    · exact absurd hbad (by decide)
    · exact absurd hbad (by decide)
    · cases hj
      have hvis : NoSpace (membersText ms ++ [0x7d]) := by
        have hall := membersText_spells fun n hn => (hms n hn).1
        simpa using hall.noSpace serverJson_tame []
      obtain ⟨rfl, rfl⟩ := noSpace_eq_ws hw hvis ht
      exact membersText_rfc hms _ hspell
    · exact absurd hbad (by decide)
    · exact absurd hbad (by decide)
  · rintro ⟨h, rfl⟩
    exact objectText_spells h

/-- `json_args_parse` reads an object of joined members. -/
theorem jsonArgsParse_objectText {ms : List Member} (h : ∀ m ∈ ms, m.In serverJson) :
    jsonArgsParse (objectText ms) = some (ms.map Member.arg) := by
  have hvis : NoSpace (membersText ms ++ [0x7d]) := by
    simpa using (membersText_spells h).noSpace serverJson_tame []
  have hlen : ms.length < (membersText ms ++ [0x7d]).length + 1 := by
    have hle := length_le_membersText ms
    simp
    omega
  rw [jsonArgsParse, objectText, jsonWs_self (noSpace_cons (by decide) _)]
  simp only [if_true, jsonWs_self hvis]
  exact jsonArgsLoop_membersText h [] _ hlen

/-! ## Members written again -/

/-- A member as `append_json_object_or_empty` writes it. -/
def Member.sent (m : Member) : Member where
  body := escaped (cstr m.key)
  key := cstr m.key
  text := match m.value with
    | .str s => jsonEscape (cstr s)
    | _ => squeezed m.text
  value := match m.value with
    | .str s => .str (cstr s)
    | j => j

theorem Member.jsonMember_arg (m : Member) : jsonMember m.arg = m.sent.bytes := by
  have hcolon : Sf37.Text.bytes ":" = [0x3a] := by decide
  obtain ⟨b, k, v, j⟩ := m
  cases j <;>
    simp [jsonMember, Member.arg, argOf, Member.sent, Member.bytes, hcolon, jsonEscape_eq_quoted]

/-- `append_json_object_or_empty` on an object of joined members. -/
theorem appendJsonObjectOrEmpty_objectText {ms : List Member} (h : ∀ m ∈ ms, m.In serverJson) :
    appendJsonObjectOrEmpty (objectText ms) = objectText (ms.map Member.sent) := by
  have hopen : bytes "\x7b" = [0x7b] := by decide
  have hclose : bytes "\x7d" = [0x7d] := by decide
  have hcomma : bytes "," = [0x2c] := by decide
  have hmap : (ms.map Member.arg).map jsonMember = (ms.map Member.sent).map Member.bytes := by
    simp [Member.jsonMember_arg]
  rw [appendJsonObjectOrEmpty, jsonArgsParse_objectText h]
  simp only [hopen, hclose, hcomma, hmap]
  rfl

/-- A written member is read again, and has no white space to drop. -/
theorem Member.sent_in {m : Member} (h : m.In serverJson) :
    m.sent.In serverJson ∧ m.sent.Tight := by
  obtain ⟨b, k, v, j⟩ := m
  have hkey : StringBody AnyPlain (escaped (cstr k)) (cstr k) := escaped_any (cstr k)
  by_cases hstr : ∃ s, j = .str s
  · obtain ⟨s, rfl⟩ := hstr
    have htext : (Member.mk b k v (.str s)).sent.text = quoted (escaped (cstr s)) :=
      jsonEscape_eq_quoted (cstr s)
    refine ⟨⟨hkey, ?_⟩, ?_⟩
    · rw [htext]
      exact .string (escaped_any (cstr s))
    · rw [Member.Tight, htext]
      exact (squeezes_quoted (escaped_any (cstr s))).eq
  · have htext : (Member.mk b k v j).sent.text = squeezed v ∧ (Member.mk b k v j).sent.value = j := by
      cases j with
      | str s => exact absurd ⟨s, rfl⟩ hstr
      | _ => exact ⟨rfl, rfl⟩
    refine ⟨⟨hkey, ?_⟩, ?_⟩
    · rw [htext.1, htext.2]
      exact (h.2.squeezes serverJson_tame).2.mono serverJson.tight_le
    · rw [Member.Tight, htext.1]
      exact (h.2.squeezed_squeezes serverJson_tame).eq

/-- A JSON text the server sends on as the same value: a string of UTF-8 without NUL, or
JSON of the RFC but for white space. -/
def SendableText (t : Bytes) : Json → Prop
  | .str s => ValidUtf8 s ∧ NulFree s
  | j => Spells rfc8259.spaced t (.value j)

/-- Whether a written member is one of the RFC that carries what the member stood for. -/
theorem Member.sent_rfc_iff {m : Member} (h : m.In serverJson) (hkey : NulFree m.key) :
    (m.sent.In rfc8259 ∧ m.sent.value = m.value) ↔
      ValidUtf8 m.key ∧ SendableText m.text m.value := by
  have hutf8 : ∀ s, StringBody RfcPlain (escaped s) s ↔ ValidUtf8 s := fun s =>
    ⟨fun hb => validUtf8_of_escaped hb rfl, escaped_rfc⟩
  have hin : m.sent.In rfc8259 ↔
      ValidUtf8 m.key ∧ Spells rfc8259 m.sent.text (.value m.sent.value) := by
    rw [← hutf8 m.key]
    exact and_congr_left fun _ => by simp only [Member.sent, cstr_iff.mpr hkey]; rfl
  rw [hin, and_assoc]
  refine and_congr_right fun _ => ?_
  obtain ⟨b, k, v, j⟩ := m
  by_cases hstr : ∃ s, j = .str s
  · obtain ⟨s, rfl⟩ := hstr
    simp only [Member.sent, SendableText, jsonEscape_eq_quoted, Json.str.injEq, ← cstr_iff]
    constructor
    · rintro ⟨hspell, hcut⟩
      obtain ⟨b', hb', hbody⟩ := spells_str hspell
      have hesc : escaped (cstr s) = b' := by simpa [quoted] using hb'
      rw [hcut] at hesc
      exact ⟨validUtf8_of_escaped hbody hesc.symm, hcut⟩
    · rintro ⟨hvalid, hcut⟩
      rw [hcut]
      exact ⟨.string (escaped_rfc hvalid), rfl⟩
  · have hj : (Member.mk b k v j).sent.text = squeezed v ∧ (Member.mk b k v j).sent.value = j := by
      cases j with
      | str s => exact absurd ⟨s, rfl⟩ hstr
      | _ => exact ⟨rfl, rfl⟩
    have hgoal : (Spells rfc8259 (squeezed v) (.value j) ∧ j = j) ↔
        Spells rfc8259.spaced v (.value j) := by
      rw [squeezed_rfc_iff h.2]
      simp
    rw [hj.1, hj.2]
    cases j with
    | str s => exact absurd ⟨s, rfl⟩ hstr
    | _ => exact hgoal

end Sf37.Text

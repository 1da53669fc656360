/-
Sf37.Text.JsonArgs — what `json_args_parse` makes of any object.

* `JsonText`: a text of one value, with white space around it.
* `jsonArgsParse_object`: an object is read member by member.
* `jsonSkipValue_jsonText`: a text that is skipped to its end is of one value.
-/
import Sf37.Text.JsonMembers

namespace Sf37.Text

/-- The text of a value, with white space around it. -/
def JsonText (D : Dialect) (b : Bytes) (j : Json) : Prop :=
  ∃ w t w', D.Ws w ∧ D.Ws w' ∧ b = w ++ (t ++ w') ∧ Spells D t (.value j)

/-- The members of an object are read one after the other. -/
def ReadsArgs (t : Bytes) : Item → Prop
  | .members ms => ∃ members : List Member, (∀ m ∈ members, m.In serverJson) ∧
      ms = members.map (fun m => (m.key, m.value)) ∧
      ∀ u fuel, t.length < fuel → jsonArgsLoop fuel (t ++ u) = some (members.map Member.arg)
  | _ => True

theorem Spells.readsArgs {t : Bytes} {x : Item} (h : Spells serverJson t x) : ReadsArgs t x := by
  induction h with
  | noMembers =>
    refine ⟨[], fun m hm => absurd hm List.not_mem_nil, rfl, fun u fuel hf => ?_⟩
    obtain ⟨fuel, rfl⟩ := Nat.exists_eq_add_of_le' hf
    rfl
  | @lastMember b k w₁ w₂ v w j hk hw₁ hw₂ hv hw _ =>
    refine ⟨[⟨b, k, v, j⟩], fun m hm => ?_, rfl, fun u fuel hf => ?_⟩
    · rw [List.mem_singleton.mp hm]
      exact ⟨hk, hv⟩
    · obtain ⟨fuel, rfl⟩ : ∃ n, fuel = n + 2 := ⟨fuel - 2, by simp [quoted] at hf; omega⟩
      have hlast := jsonArgsLoop_last fuel hk hw₁ hw₂ hv hw u
      simpa [Member.arg] using hlast
  | @nextMember b k w₁ w₂ v w w' t j ms hk hw₁ hw₂ hv hw hw' ht _ _ iht =>
    obtain ⟨members, hin, hms, hread⟩ := iht
    refine ⟨⟨b, k, v, j⟩ :: members, fun m hm => ?_, ?_, fun u fuel hf => ?_⟩
    · rcases List.mem_cons.mp hm with rfl | hm
      · exact ⟨hk, hv⟩
      · exact hin m hm
    · rw [hms, List.map_cons]
    · obtain ⟨fuel, rfl⟩ : ∃ n, fuel = n + 1 := ⟨fuel - 1, by omega⟩
      have hrest := hread u fuel (by simp [quoted] at hf; omega)
      have hnext := jsonArgsLoop_next fuel hk hw₁ hw₂ hv hw hw' (ht.noSpace serverJson_tame u)
      rw [hrest] at hnext
      simpa [Member.arg] using hnext
  | _ => exact trivial

/-- `json_args_parse` reads an object, whatever stands behind it. -/
theorem jsonArgsParse_object {t : Bytes} {ms : List (Bytes × Json)}
    (h : Spells serverJson t (.value (.obj ms))) {w : Bytes} (hw : Space w) (r : Bytes) :
    ∃ members : List Member, (∀ m ∈ members, m.In serverJson) ∧
      ms = members.map (fun m => (m.key, m.value)) ∧
      jsonArgsParse (w ++ (t ++ r)) = some (members.map Member.arg) := by
  cases h with
  | word hj => simp [jsonWords] at hj
  | @object w' t _ hw' ht =>
    obtain ⟨members, hin, hms, hread⟩ := ht.readsArgs
    refine ⟨members, hin, hms, ?_⟩
    have hstart : jsonWs (w ++ (0x7b :: (w' ++ t) ++ r)) = 0x7b :: (w' ++ (t ++ r)) := by
      rw [List.cons_append, List.append_assoc, jsonWs_append hw (noSpace_cons (by decide) _)]
    rw [jsonArgsParse, hstart]
    simp only [if_true]
    rw [jsonWs_append hw' (ht.noSpace serverJson_tame r)]
    exact hread r _ (by simp; omega)

/-! ## Whole texts -/

/-- `json_skip_value` walks over a value with nothing behind it. -/
theorem jsonSkipValue_jsonText {b r : Bytes} (hskip : jsonSkipValue (jsonWs b) = some r)
    (hr : jsonWs r = []) : ∃ w t j, b = w ++ (t ++ r) ∧ Space w ∧ Space r ∧
      Spells serverJson t (.value j) ∧ jsonSkipValue (t ++ r) = some r := by
  obtain ⟨w, hb, hw, hvis⟩ := jsonWs_spec b
  obtain ⟨w', t, j, hcut, hw', hspell⟩ := jsonSkipNested_sound _ _ _ hskip
  rw [hcut] at hvis
  obtain rfl := space_eq_nil hw' hvis
  rw [List.nil_append] at hcut
  obtain ⟨wr, hsplit, hwr, -⟩ := jsonWs_spec r
  rw [hr, List.append_nil] at hsplit
  refine ⟨w, t, j, ?_, hw, hsplit ▸ hwr, hspell, ?_⟩
  · rw [← hcut]
    exact hb
  · rw [← hcut]
    exact hskip

/-! ## The end of a value -/

theorem Spells.ne_nil {D : Dialect} (hD : D.Tame) {t : Bytes} {x : Item} (h : Spells D t x) :
    t ≠ [] := by
  obtain ⟨c, r, rfl, -⟩ := h.head hD
  exact List.cons_ne_nil c r

/-- The last byte of JSON is no carriage return. -/
theorem Spells.getLast?_ne {D : Dialect} (hD : D.Tame) {t : Bytes} {x : Item} (h : Spells D t x) :
    t.getLast? ≠ some 0x0d := by
  induction h with
  | word hj =>
    simp only [jsonWords, List.mem_cons, List.not_mem_nil, or_false, Prod.mk.injEq] at hj
    rcases hj with ⟨rfl, -⟩ | ⟨rfl, -⟩ | ⟨rfl, -⟩ <;> decide
  | string hb => simp [quoted, List.getLast?_cons]
  | number hn =>
    intro hlast
    have hbyte := (hD.number _ hn).bytes _ (List.mem_of_getLast? hlast)
    exact absurd hbyte (by decide)
  | @array w t es _ ht ih =>
    rwa [← List.cons_append, List.getLast?_append_of_ne_nil _ (ht.ne_nil hD)]
  | noElements => decide
  | lastElement hv hw _ => simp [List.getLast?_append]
  | @nextElement v w w' t j es _ _ _ ht _ _ ih =>
    rwa [← List.cons_append, ← List.append_assoc, ← List.append_assoc,
      List.getLast?_append_of_ne_nil _ (ht.ne_nil hD)]
  | @object w t ms _ ht ih =>
    rwa [← List.cons_append, List.getLast?_append_of_ne_nil _ (ht.ne_nil hD)]
  | noMembers => decide
  | lastMember _ _ _ _ _ _ => simp [quoted, List.getLast?_append, List.getLast?_cons]
  | @nextMember b k w₁ w₂ v w w' t j ms _ _ _ _ _ _ ht _ _ ih =>
    have hsplit : quoted b ++ (w₁ ++ 0x3a :: (w₂ ++ (v ++ (w ++ 0x2c :: (w' ++ t))))) =
        (quoted b ++ (w₁ ++ 0x3a :: (w₂ ++ (v ++ (w ++ 0x2c :: w'))))) ++ t := by simp
    rwa [hsplit, List.getLast?_append_of_ne_nil _ (ht.ne_nil hD)]

end Sf37.Text

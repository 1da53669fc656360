/-
Sf37.Text.Utf8Boundary — `utf8_stream_safe_len` on UTF-8.

* `utf8EncodeChar_lead`: the lead byte of a character tells its length, and continuation bytes
  follow.
* `utf8Step_char`: a turn at a character goes over it, when it ends within the limit.
* `utf8StreamSafeLen_char`: the scan ends between two characters.
* `utf8StreamSafeLen_laws`: what holds of the hold-back on any bytes, and on UTF-8.
-/
import Sf37.Text.JsonStrings
import Sf37.Text.Utf8Hold

namespace Sf37.Text

/-- A place between two characters of the text from `start` on. -/
def CharBoundary (s : Bytes) (start i : Nat) : Prop :=
  ∃ cs ds : List Char, s.drop start = (cs ++ ds).flatMap String.utf8EncodeChar ∧
    i = start + (cs.flatMap String.utf8EncodeChar).length

/-! ## Characters -/

/-- The lead byte of a character tells its length, and continuation bytes follow. -/
theorem utf8EncodeChar_lead (c : Char) :
    ∃ b t, String.utf8EncodeChar c = b :: t ∧ utf8Need b = t.length + 1 ∧
      t.all (fun x => x &&& 0xc0 == 0x80) = true := by
  have hcont : ∀ n, (UInt8.ofNat (n % 64 + 0x80) &&& 0xc0 == 0x80) = true := by
    have hall : ∀ n < 64, (UInt8.ofNat (n + 0x80) &&& 0xc0 == 0x80) = true := by decide
    exact fun n => hall (n % 64) (Nat.mod_lt _ (by decide))
  have hlead : (∀ n < 0x80, utf8Need (UInt8.ofNat n) = 1) ∧
      (∀ n < 32, utf8Need (UInt8.ofNat (n + 0xc0)) = 2) ∧
      (∀ n < 16, utf8Need (UInt8.ofNat (n + 0xe0)) = 3) ∧
      ∀ n < 8, utf8Need (UInt8.ofNat (n + 0xf0)) = 4 := by decide
  obtain ⟨hone, htwo, hthree, hfour⟩ := hlead
  simp only [String.utf8EncodeChar]
  split
  · exact ⟨_, [], rfl, hone _ (by omega), rfl⟩
  split
  · refine ⟨_, _, rfl, htwo _ (Nat.mod_lt _ (by decide)), ?_⟩
    simp only [List.all_cons, hcont, List.all_nil, Bool.and_self]
  split
  · refine ⟨_, _, rfl, hthree _ (Nat.mod_lt _ (by decide)), ?_⟩
    simp only [List.all_cons, hcont, List.all_nil, Bool.and_self]
  · refine ⟨_, _, rfl, hfour _ (Nat.mod_lt _ (by decide)), ?_⟩
    simp only [List.all_cons, hcont, List.all_nil, Bool.and_self]

/-- A turn at a character goes over it, when it ends within the limit. -/
theorem utf8Step_char (limit : Nat) {s : Bytes} {i : Nat} {c : Char} {rest : Bytes}
    (h : s.drop i = String.utf8EncodeChar c ++ rest) :
    utf8Step s limit i =
      if i + (String.utf8EncodeChar c).length ≤ limit then
        some (i + (String.utf8EncodeChar c).length)
      else none := by
  obtain ⟨b, t, hchar, hneed, hcont⟩ := utf8EncodeChar_lead c
  rw [hchar, List.cons_append] at h
  rw [hchar, List.length_cons]
  have hlead : s.getD i 0 = b := by
    have hget := congrArg (·[0]?) h
    rw [List.getElem?_drop, Nat.add_zero] at hget
    rw [List.getD_eq_getElem?_getD, hget]
    rfl
  have htail : slice s (i + 1) (i + (t.length + 1)) = t := by
    rw [slice, ← List.drop_drop, h, List.drop_succ_cons, List.drop_zero,
      show i + (t.length + 1) - (i + 1) = t.length by omega, List.take_left]
  have hok : utf8ContOk s i (t.length + 1) = true := by rw [utf8ContOk, htail, hcont]
  unfold utf8Step
  rw [hlead, hneed]
  dsimp only
  rw [if_neg (Nat.succ_ne_zero _), hok, if_pos rfl]
  split
  · by_cases hfits : i + (t.length + 1) ≤ limit
    · rw [if_neg (by omega), if_pos hfits]
    · rw [if_pos (by omega), if_neg hfits]
  · rw [if_neg (by omega)]

/-- The scan ends between two characters. -/
theorem utf8StreamSafeLen_char {s : Bytes} {limit : Nat} (hlimit : limit ≤ s.length)
    (cs : List Char) {i : Nat} (h : s.drop i = cs.flatMap String.utf8EncodeChar) :
    ∃ ds es, cs = ds ++ es ∧
      utf8StreamSafeLen s i limit = i + (ds.flatMap String.utf8EncodeChar).length := by
  induction cs generalizing i with
  | nil =>
    have hend : s.length ≤ i := List.drop_eq_nil_iff.mp h
    exact ⟨[], [], rfl, utf8StreamSafeLen_of_le (hlimit.trans hend)⟩
  | cons c cs ih =>
    rw [List.flatMap_cons] at h
    have hstep := utf8Step_char limit h
    split at hstep
    · have hrest : s.drop (i + (String.utf8EncodeChar c).length) =
          cs.flatMap String.utf8EncodeChar := by
        rw [← List.drop_drop, h, List.drop_left]
      obtain ⟨ds, es, rfl, hend⟩ := ih hrest
      refine ⟨c :: ds, es, rfl, ?_⟩
      rw [utf8StreamSafeLen_step hstep, hend, List.flatMap_cons, List.length_append, Nat.add_assoc]
    · exact ⟨[], c :: cs, rfl, utf8StreamSafeLen_none hstep⟩

/-! ## The laws -/

theorem utf8StreamSafeLen_boundary {s : Bytes} {start limit : Nat} (hlimit : limit ≤ s.length)
    (h : ValidUtf8 (s.drop start)) : CharBoundary s start (utf8StreamSafeLen s start limit) := by
  obtain ⟨cs, hcs⟩ := h
  obtain ⟨ds, es, rfl, hend⟩ := utf8StreamSafeLen_char hlimit cs hcs
  exact ⟨ds, es, hcs, hend⟩

theorem utf8StreamSafeLen_continue (s : Bytes) (start : Nat) {l l' : Nat} (h : l ≤ l') :
    utf8StreamSafeLen s (utf8StreamSafeLen s start l) l' = utf8StreamSafeLen s start l' := by
  rw [utf8StreamSafeLen_compose, Nat.max_eq_right h]

/-- A larger limit holds back no more. -/
theorem utf8StreamSafeLen_mono (s : Bytes) (start : Nat) {l l' : Nat} (h : l ≤ l') :
    utf8StreamSafeLen s start l ≤ utf8StreamSafeLen s start l' := by
  rw [← utf8StreamSafeLen_continue s start h]
  exact le_utf8StreamSafeLen s _ l'

/-- The hold-back is between the start and the limit and at most three bytes short of it, grows
with the limit, can be continued, and on UTF-8 ends between two characters. -/
theorem utf8StreamSafeLen_laws (s : Bytes) {start l l' : Nat} (hl : start ≤ l) (hl' : l ≤ l') :
    (start ≤ utf8StreamSafeLen s start l ∧ utf8StreamSafeLen s start l ≤ l) ∧
      l ≤ utf8StreamSafeLen s start l + 3 ∧
      utf8StreamSafeLen s start l ≤ utf8StreamSafeLen s start l' ∧
      utf8StreamSafeLen s (utf8StreamSafeLen s start l) l' = utf8StreamSafeLen s start l' ∧
      (l ≤ s.length → ValidUtf8 (s.drop start) →
        CharBoundary s start (utf8StreamSafeLen s start l)) :=
  ⟨⟨le_utf8StreamSafeLen s start l, utf8StreamSafeLen_le hl⟩,
    le_utf8StreamSafeLen_add_three s start l, utf8StreamSafeLen_mono s start hl',
    utf8StreamSafeLen_continue s start hl', fun hlen h => utf8StreamSafeLen_boundary hlen h⟩

theorem utf8StreamSafeLen_laws_bar :
    utf8StreamSafeLen (bytes "a｜b") (utf8StreamSafeLen (bytes "a｜b") 0 3) 5 =
        utf8StreamSafeLen (bytes "a｜b") 0 5 ∧
      CharBoundary (bytes "a｜b") 0 (utf8StreamSafeLen (bytes "a｜b") 0 3) := by
  have h := utf8StreamSafeLen_laws (bytes "a｜b") (Nat.zero_le 3) (show 3 ≤ 5 by decide)
  have hvalid : ValidUtf8 ((bytes "a｜b").drop 0) := ⟨['a', '｜', 'b'], by decide⟩
  exact ⟨h.2.2.2.1, h.2.2.2.2 (by decide) hvalid⟩

end Sf37.Text

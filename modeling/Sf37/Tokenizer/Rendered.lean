/-
Sf37.Tokenizer.Rendered — rendered chat text: added tokens are taken out where they stand,
the longest first, and the spans between them go through the pre-tokenizer.

`added_token_at` compares with `strncmp`, which stops at a NUL: an added text that holds
one is found where the rest of the text is what comes before the NUL, and the scan then
jumps behind the end of the text. `none` is such a run.

* `strncmpEqual_iff`: what is found.
* `local_addedTokenAt`: added tokens are found or not whatever follows them.
* `overruns_iff`: the scan leaves the text where it comes to a cut added text.
-/
import Sf37.Tokenizer.Merge
import Sf37.Tokenizer.Pieces
import Sf37.Run.Scan

namespace Sf37.Tokenizer

open Sf37.Text Sf37.Run

/-! ## Added tokens -/

/-- `strncmp(p, q, n) == 0`; behind its end a string has a NUL. -/
def strncmpEqual : Nat → Bytes → Bytes → Bool
  | 0, _, _ => true
  | n + 1, p, q =>
    p.headD 0 == q.headD 0 && (p.headD 0 == 0 || strncmpEqual n p.tail q.tail)

/-- The test of `added_token_at` behind the one for a greater length. -/
def AddedAt (p : Bytes) (a : AddedToken) : Prop :=
  a.text ≠ [] ∧ strncmpEqual a.text.length p a.text = true

instance (p : Bytes) (a : AddedToken) : Decidable (AddedAt p a) :=
  inferInstanceAs (Decidable (_ ∧ _))

/-- The added token `added_token_at` keeps. -/
def bestAdded (v : Vocab) (p : Bytes) : Option AddedToken :=
  v.added.foldl (pick (fun _ => True) (AddedAt p) fun a => a.text.length) none

/-- `added_token_at`: the token and its length. -/
def addedTokenAt (v : Vocab) (p : Bytes) : Option (Nat × Nat) :=
  (bestAdded v p).map fun a => (a.id, a.text.length)

/-! ## Rendered text -/

/-- `bpe_tokenize_text`. -/
def bpeTokenizeText (v : Vocab) (text : Bytes) : List Nat :=
  (bpePieces text.length text).flatMap (bpeEmitPiece v)

/-- `tokenize_span`. -/
def tokenizeSpan (v : Vocab) (p : Bytes) : List Nat := bpeTokenizeText v p

/-- `tokenize_rendered_chat_vocab`: what it appends, or `none` where it reads behind the
text. -/
def tokenizeRenderedChatVocab (v : Vocab) (text : Bytes) : Option (List Nat) :=
  scan (addedTokenAt v) (tokenizeSpan v) (fun token => [token]) 0 [] text

/-- `sf37_tokenize_rendered_chat`. -/
def tokenizeRenderedChat (v : Vocab) (text : Bytes) (out : List Nat) : Option (List Nat) :=
  if v.ready then (tokenizeRenderedChatVocab v text).map (out ++ ·) else some out

/-! ## What is found -/

theorem strncmpEqual_append {n : Nat} {p : Bytes} (h : n ≤ p.length) (b q : Bytes) :
    strncmpEqual n (p ++ b) q = strncmpEqual n p q := by
  induction n generalizing p q with
  | zero => rfl
  | succ n ih =>
    match p, h with
    | c :: p, h =>
      have hrest := ih (Nat.le_of_succ_le_succ h) q.tail
      rw [List.cons_append, strncmpEqual, strncmpEqual]
      simp only [List.headD_cons, List.tail_cons, hrest]

/-- A text without a NUL is found where it stands; one with a NUL where what comes before
the NUL is all that is left. -/
theorem strncmpEqual_iff {p : Bytes} (hp : NulFree p) (t : Bytes) :
    strncmpEqual t.length p t = true ↔ if NulFree t then t <+: p else cstr t = p := by
  induction t generalizing p with
  | nil => simp [strncmpEqual, NulFree]
  | cons d t ih =>
    cases p with
    | nil =>
      by_cases hd : d = 0
      · subst hd
        simp [strncmpEqual, NulFree, cstr]
      · have hcstr : cstr (d :: t) ≠ [] := by simp [cstr, hd]
        simp [strncmpEqual, Ne.symm hd, hcstr]
    | cons c p =>
      obtain ⟨hc, hp⟩ := not_or.mp (mt List.mem_cons.mpr hp)
      have hc0 : c ≠ 0 := fun h => hc h.symm
      by_cases hcd : c = d
      · subst hcd
        have hnul : NulFree (c :: t) ↔ NulFree t := by simp [NulFree, hc]
        have hcstr : cstr (c :: t) = c :: cstr t := by simp [cstr, hc0]
        simp only [List.length_cons, strncmpEqual, List.headD_cons, List.tail_cons,
          beq_self_eq_true, Bool.true_and, beq_eq_false_iff_ne.mpr hc0, Bool.false_or, ih hp,
          hnul, hcstr, List.cons.injEq, true_and, List.cons_prefix_cons]
      · have hfirst : ¬ (d :: t <+: c :: p) := fun h =>
          hcd (List.cons_prefix_cons.mp h).1.symm
        have hcstr : cstr (d :: t) ≠ c :: p := by
          intro h
          by_cases hd : d = 0
          · simp [cstr, hd] at h
          · simp only [cstr, List.takeWhile_cons, bne_iff_ne, ne_eq, hd, not_false_eq_true,
              if_true, List.cons.injEq] at h
            exact hcd h.1.symm
        simp [strncmpEqual, hcd, hfirst, hcstr]

/-- `added_token_at` keeps the longest of the added tokens it finds. -/
theorem bestAdded_best (v : Vocab) (p : Bytes) :
    Best (fun a => True ∧ AddedAt p a) (fun a => a.text.length) v.added (bestAdded v p) :=
  foldl_best (turn_pick (fun _ => True) (AddedAt p) fun a => a.text.length) v.added

theorem addedTokenAt_none_iff {v : Vocab} {p : Bytes} :
    addedTokenAt v p = none ↔ ∀ a ∈ v.added, ¬ AddedAt p a := by
  rw [addedTokenAt, Option.map_eq_none_iff, (bestAdded_best v p).eq_none_iff]
  simp only [true_and]

theorem addedTokenAt_some {v : Vocab} {p : Bytes} {id n : Nat}
    (h : addedTokenAt v p = some (id, n)) :
    ∃ a ∈ v.added, AddedAt p a ∧ id = a.id ∧ n = a.text.length ∧
      ∀ a' ∈ v.added, AddedAt p a' → a'.text.length ≤ n := by
  obtain ⟨a, ha, heq⟩ := Option.map_eq_some_iff.mp h
  have hbest := bestAdded_best v p
  rw [ha] at hbest
  obtain ⟨hmem, ⟨-, hat⟩, hmax⟩ := hbest
  obtain ⟨rfl, rfl⟩ := Prod.mk.inj heq
  exact ⟨a, hmem, hat, rfl, rfl, fun a' ha' hat' => hmax a' ha' ⟨trivial, hat'⟩⟩

theorem hits_addedTokenAt (v : Vocab) : Hits (addedTokenAt v) := by
  intro p id n h
  obtain ⟨a, -, hat, -, rfl, -⟩ := addedTokenAt_some h
  exact List.length_pos_iff.mpr hat.1

/-- The longest added token found is no longer than what is left, or some added token is. -/
theorem addedAt_length_le {v : Vocab} {p : Bytes} {k : Nat}
    (h : ∀ id n, addedTokenAt v p = some (id, n) → n ≤ k) {a : AddedToken} (ha : a ∈ v.added)
    (hat : AddedAt p a) : a.text.length ≤ k := by
  cases hfound : addedTokenAt v p with
  | none => exact absurd hat (addedTokenAt_none_iff.mp hfound a ha)
  | some out =>
    obtain ⟨id, n⟩ := out
    obtain ⟨-, -, -, -, -, hmax⟩ := addedTokenAt_some hfound
    exact (hmax a ha hat).trans (h id n hfound)

/-- Added tokens are found or not whatever follows them. -/
theorem local_addedTokenAt (v : Vocab) : Local (addedTokenAt v) := by
  intro p b hwhole hpart
  have hsame : ∀ a ∈ v.added, AddedAt (p ++ b) a ↔ AddedAt p a := by
    intro a ha
    constructor
    · intro hat
      have hle := addedAt_length_le hwhole ha hat
      exact ⟨hat.1, strncmpEqual_append hle b a.text ▸ hat.2⟩
    · intro hat
      have hle := addedAt_length_le hpart ha hat
      exact ⟨hat.1, (strncmpEqual_append hle b a.text).trans hat.2⟩
  rw [addedTokenAt, addedTokenAt, bestAdded, bestAdded, foldl_pick_congr _ hsame]

/-! ## Runs that leave the text -/

/-- The scan comes to a place where the rest of the text is what an added text has before
its first NUL. -/
def CutText (v : Vocab) (text : Bytes) : Prop :=
  ∃ c p, Visits (addedTokenAt v) text (c :: p) ∧
    ∃ a ∈ v.added, ¬ NulFree a.text ∧ cstr a.text = c :: p

theorem length_cstr_lt {t : Bytes} (h : ¬ NulFree t) : (cstr t).length < t.length := by
  have hshort : cstr t <+: t := List.takeWhile_prefix _
  refine Nat.lt_of_le_of_ne hshort.length_le fun hlen => h (cstr_iff.mp ?_)
  exact hshort.eq_of_length hlen

/-- The scan leaves the text where it comes to a cut added text. -/
theorem overruns_iff {v : Vocab} {text : Bytes} (htext : NulFree text) :
    Overruns (addedTokenAt v) text ↔ CutText v text := by
  constructor
  · rintro ⟨c, p, id, n, hvisits, hhit, hn⟩
    have hp : NulFree (c :: p) := fun h => htext (hvisits.suffix.mem h)
    obtain ⟨a, ha, hat, -, rfl, -⟩ := addedTokenAt_some hhit
    have hcmp := (strncmpEqual_iff hp a.text).mp hat.2
    refine ⟨c, p, hvisits, a, ha, ?_⟩
    split at hcmp
    · exact absurd hcmp.length_le (Nat.not_le.mpr hn)
    · rename_i hnul
      exact ⟨hnul, hcmp⟩
  · rintro ⟨c, p, hvisits, a, ha, hnul, hcut⟩
    have hp : NulFree (c :: p) := fun h => htext (hvisits.suffix.mem h)
    have hat : AddedAt (c :: p) a := by
      refine ⟨fun hnil => ?_, (strncmpEqual_iff hp a.text).mpr ?_⟩
      · rw [hnil] at hcut
        cases hcut
      · rw [if_neg hnul]
        exact hcut
    have hlen := length_cstr_lt hnul
    rw [hcut] at hlen
    cases hfound : addedTokenAt v (c :: p) with
    | none => exact absurd hat (addedTokenAt_none_iff.mp hfound a ha)
    | some out =>
      obtain ⟨id, n⟩ := out
      obtain ⟨-, -, -, -, -, hmax⟩ := addedTokenAt_some hfound
      exact ⟨c, p, id, n, hvisits, hfound, Nat.lt_of_lt_of_le hlen (hmax a ha hat)⟩

/-- Added texts without a NUL are never cut. -/
theorem not_cutText {v : Vocab} (h : ∀ a ∈ v.added, NulFree a.text) (text : Bytes) :
    ¬ CutText v text := by
  rintro ⟨c, p, -, a, ha, hnul, -⟩
  exact hnul (h a ha)

theorem tokenizeRenderedChatVocab_isSome_iff {v : Vocab} {text : Bytes} (htext : NulFree text) :
    (∃ tokens, tokenizeRenderedChatVocab v text = some tokens) ↔ ¬ CutText v text := by
  rw [← overruns_iff htext]
  exact scan_isSome_iff (hits_addedTokenAt v) [] text

end Sf37.Tokenizer

/-
Sf37.Engine.TopScores — the loops that keep the best scores keep the beginning of the sorted
scores.

* `descending_succ`: one more logit goes behind those that are not below it.
* `topkDesc_eq`, `sessionTopLogprobs_id`, `topKCandidates_eq`: what the three loops keep.
* `loops_descending`: all three keep the same.
-/
import Sf37.Engine.Sampler

namespace Sf37.Engine

open Sf37.Run

variable {β : Type} [LinearOrder β]

/-! ## The order -/

instance : Std.Total (Above (β := β)) where
  total a b := by
    rcases lt_trichotomy a.logit b.logit with h | h | h
    · exact .inr (.inl h)
    · rcases Nat.le_total a.id b.id with hid | hid
      · exact .inl (.inr ⟨h, hid⟩)
      · exact .inr (.inr ⟨h.symm, hid⟩)
    · exact .inl (.inl h)

instance : IsTrans (Scored β) Above where
  trans a b c hab hbc := by
    rcases hab with hab | ⟨hab, hid⟩
    · rcases hbc with hbc | ⟨hbc, -⟩
      · exact .inl (hbc.trans hab)
      · exact .inl (hbc ▸ hab)
    · rcases hbc with hbc | ⟨hbc, hid'⟩
      · exact .inl (hab ▸ hbc)
      · exact .inr ⟨hab.trans hbc, hid.trans hid'⟩

instance : Std.Antisymm (Above (β := β)) where
  antisymm a b hab hba := by
    obtain ⟨i, v⟩ := a
    obtain ⟨j, w⟩ := b
    simp only [Above] at hab hba
    rcases hab with hab | ⟨rfl, hid⟩
    · rcases hba with hba | ⟨rfl, -⟩
      · exact absurd hab hba.asymm
      · exact absurd hab (lt_irrefl _)
    · rcases hba with hba | ⟨-, hid'⟩
      · exact absurd hba (lt_irrefl _)
      · rw [Nat.le_antisymm hid hid']

/-- The candidates that are not below a logit. -/
def notBelow (v : β) (c : Scored β) : Bool := !decide (c.logit < v)

theorem notBelow_iff {v : β} {i : ℕ} {c : Scored β} (h : c.id < i) :
    notBelow v c = true ↔ Above c ⟨i, v⟩ := by
  rw [notBelow, Bool.not_eq_true', decide_eq_false_iff_not, not_lt, Above, le_iff_lt_or_eq]
  constructor
  · rintro (hlt | heq)
    · exact .inl hlt
    · exact .inr ⟨heq.symm, h.le⟩
  · rintro (hlt | ⟨heq, -⟩)
    · exact .inl hlt
    · exact .inr heq.symm

/-! ## One more logit -/

section Scores

variable {logits : ℕ → β} {n : ℕ}

omit [LinearOrder β] in
theorem scores_succ : scores logits (n + 1) = scores logits n ++ [⟨n, logits n⟩] := by
  rw [scores, List.range_succ, List.map_append, ← scores, List.map_singleton]

omit [LinearOrder β] in
theorem mem_scores {c : Scored β} : c ∈ scores logits n ↔ c.id < n ∧ logits c.id = c.logit := by
  rw [scores, List.mem_map]
  constructor
  · rintro ⟨i, hi, rfl⟩
    exact ⟨List.mem_range.mp hi, rfl⟩
  · rintro ⟨hlt, hv⟩
    exact ⟨c.id, List.mem_range.mpr hlt, by rw [hv]⟩

theorem mem_descending {c : Scored β} : c ∈ descending logits n ↔ c ∈ scores logits n :=
  List.mem_insertionSort Above

theorem descending_sorted : (descending logits n).Pairwise Above :=
  List.pairwise_insertionSort Above _

theorem id_lt_of_mem_descending {c : Scored β} (h : c ∈ descending logits n) : c.id < n :=
  (mem_scores.mp (mem_descending.mp h)).1

theorem descending_zero : descending logits 0 = [] := rfl

theorem length_descending : (descending logits n).length = n := by
  rw [descending, List.length_insertionSort, scores, List.length_map, List.length_range]

/-- One more logit goes behind those that are not below it. -/
theorem descending_succ : descending logits (n + 1) =
    insertAfter (notBelow (logits n)) ⟨n, logits n⟩ (descending logits n) := by
  rw [descending, scores_succ, insertionSort_append, ← descending]
  intro c hc
  exact notBelow_iff (mem_scores.mp hc).1

end Scores

/-! ## The loop of the experts -/

/-- A slot of indices: -1 where there is none. -/
def slotId : Option (Scored β) → ℤ
  | none => -1
  | some c => c.id

/-- Slot `p` holds the `p`-th index. -/
theorem topkDesc_eq (score : ℕ → β) (n k : ℕ) (idx : ℕ → ℤ) (p : ℕ) : topkDesc score n k idx p =
    if p < k then slotId (descending score n)[p]? else idx p := by
  rw [topkDesc]
  induction n generalizing p with
  | zero => simp [descending_zero, slotId]
  | succ n ih =>
    rw [List.range_succ, List.foldl_append, List.foldl_cons, List.foldl_nil, descending_succ]
    rw [insertSlots_holds slotId (notBelow (score n)) ⟨n, score n⟩ (descending score n)]
    · by_cases hp : p < k
      · rw [if_pos hp, if_pos hp]
      · rw [if_neg hp, if_neg hp, ih, if_neg hp]
    · rfl
    · intro c hc
      have hscore : score c.id = c.logit := (mem_scores.mp (mem_descending.mp hc)).2
      have hid : ¬ (c.id : ℤ) < 0 := by omega
      simp [slotId, notBelow, hscore, hid]
    · exact fun _ => rfl
    · exact fun j hj => by rw [ih, if_pos hj]

/-! ## The loop of the log probabilities -/

section TopLogprobs

variable {γ : Type} [OrderBot β]

/-- A slot of scores before the logarithms are filled in. -/
def slotScore : Option (Scored β) → TokenScore β γ
  | none => ⟨-1, ⊥, none⟩
  | some c => ⟨c.id, c.logit, none⟩

theorem slotScore_id (o : Option (Scored β)) : (slotScore (γ := γ) o).id = slotId o := by
  cases o <;> rfl

/-- Slot `p` holds the `p`-th token and its logit. -/
theorem topLogprobsLoop_eq (logits : ℕ → β) (vocab k : ℕ) (out : ℕ → TokenScore β γ)
    (p : ℕ) : topLogprobsLoop logits vocab k out p =
      if p < k then slotScore (descending logits vocab)[p]? else out p := by
  rw [topLogprobsLoop]
  induction vocab generalizing p with
  | zero => simp [descending_zero, slotScore]
  | succ n ih =>
    rw [List.range_succ, List.foldl_append, List.foldl_cons, List.foldl_nil, descending_succ]
    rw [insertSlots_holds slotScore (notBelow (logits n)) ⟨n, logits n⟩ (descending logits n)]
    · by_cases hp : p < k
      · rw [if_pos hp, if_pos hp]
      · rw [if_neg hp, if_neg hp, ih, if_neg hp]
    · rfl
    · intro c _
      have hid : ¬ (c.id : ℤ) < 0 := by omega
      rw [notBelow, Bool.not_not]
      exact (congrArg (· || _) (decide_eq_false hid)).trans (Bool.false_or _)
    · intro o
      cases o <;> rfl
    · exact fun j hj => by rw [ih, if_pos hj]

omit [LinearOrder β] [OrderBot β] in
/-- The loop that fills in the logarithms changes no token. -/
theorem fillLogprobs_id (logprob : β → γ) (places : List ℕ) (out : ℕ → TokenScore β γ) (p : ℕ) :
    (places.foldl (fun out i =>
      Function.update out i { out i with logprob := some (logprob (out i).logit) }) out p).id =
        (out p).id := by
  induction places generalizing out with
  | nil => rfl
  | cons i places ih =>
    rw [List.foldl_cons, ih]
    by_cases h : p = i
    · subst h
      rw [Function.update_self]
    · rw [Function.update_of_ne h]

/-- The tokens of the slots. -/
theorem sessionTopLogprobs_id (logprob : β → γ) (logits : ℕ → β) (vocab : ℕ) {k : ℤ}
    (hk : 0 < k) (out : ℕ → TokenScore β γ) {p : ℕ} (hp : p < min k.toNat vocab) :
    ((sessionTopLogprobs logprob logits vocab k out).2 p).id =
      slotId (descending logits vocab)[p]? := by
  have hcap : (if (vocab : ℤ) < k then vocab else k.toNat) = min k.toNat vocab := by
    split <;> omega
  rw [sessionTopLogprobs, if_neg (not_le.mpr hk)]
  dsimp only
  rw [hcap, fillLogprobs_id, topLogprobsLoop_eq, if_pos hp, slotScore_id]

end TopLogprobs

/-! ## The loop of the sampler -/

/-- One turn keeps the beginning of the sorted logits. -/
theorem topKTurn_filled {logits : ℕ → β} {n topK : ℕ} (hk : 0 < topK)
    {s : ℕ × (ℕ → Scored β)} (h : Filled topK (descending logits n) s.1 s.2) :
    Filled topK (descending logits (n + 1)) (topKTurn logits topK s n).1
      (topKTurn logits topK s n).2 := by
  rw [topKTurn, descending_succ]
  have hkeep : ∀ c ∈ descending logits n, notBelow (logits n) c = true ↔ Above c ⟨n, logits n⟩ :=
    fun c hc => notBelow_iff (id_lt_of_mem_descending hc)
  have hclosed : ∀ p c, (descending logits n)[p]? = some c → notBelow (logits n) c = true →
      p < placeOf (notBelow (logits n)) (descending logits n) := fun p c hp hc =>
    lt_placeOf_of_keep descending_sorted hkeep hp hc
  split
  next hfull =>
    refine h.full hfull.1 hk hclosed ?_
    rw [notBelow, Bool.not_eq_true', decide_eq_false_iff_not, not_lt]
    exact hfull.2
  next hfull =>
    refine h.sink hk hclosed (fun hn => ?_) fun c _ => ?_
    · rw [notBelow, Bool.not_eq_false', decide_eq_true_eq, ← not_le]
      exact fun hle => hfull ⟨hn, hle⟩
    · rw [notBelow, Bool.not_not]

theorem topKLoop_filled (logits : ℕ → β) (nVocab : ℕ) {topK : ℕ} (hk : 0 < topK)
    (slots : ℕ → Scored β) : Filled topK (descending logits nVocab)
      (topKLoop logits nVocab topK slots).1 (topKLoop logits nVocab topK slots).2 := by
  rw [topKLoop]
  induction nVocab with
  | zero => exact ⟨by simp [descending_zero], nofun⟩
  | succ n ih =>
    rw [List.range_succ, List.foldl_append]
    exact topKTurn_filled hk ih

/-- The candidates of the sampler are the first of the sorted ones, as many as the caps let
through. -/
theorem topKCandidates_eq (logits : ℕ → β) (nVocab : ℕ) {topK : ℤ} (hk : 0 < topK)
    (slots : ℕ → Scored β) : topKCandidates logits nVocab topK slots =
      (descending logits nVocab).take (min topK.toNat 1024) := by
  have hcap : cappedTopK nVocab topK = min (min topK.toNat 1024) nVocab := by
    rw [cappedTopK]
    split <;> split <;> omega
  have hlen : (descending logits nVocab).length = nVocab := length_descending
  rcases Nat.eq_zero_or_pos nVocab with rfl | hpos
  · rw [descending_zero, List.take_nil]
    rfl
  have hfilled := topKLoop_filled logits nVocab (by omega : 0 < cappedTopK nVocab topK) slots
  obtain ⟨hn, hall⟩ := hfilled
  rw [topKCandidates]
  refine List.ext_getElem? fun p => ?_
  dsimp only
  rw [List.getElem?_map, List.getElem?_take]
  by_cases hp : p < (topKLoop logits nVocab (cappedTopK nVocab topK) slots).1
  · rw [List.getElem?_range hp, if_pos (by omega), hall p hp]
    rfl
  · rw [List.getElem?_eq_none (by rw [List.length_range]; omega)]
    split
    next hlt => rw [Option.map_none, List.getElem?_eq_none (by omega)]
    next hlt => rfl

/-! ## The three loops -/

/-- The three loops keep the first of the sorted scores, with the first token first where scores
are the same; the sampler keeps at most 1024. -/
theorem loops_descending {γ : Type} [OrderBot β] (score : ℕ → β) (n : ℕ) :
    (∀ (k : ℕ) (idx : ℕ → ℤ) (p : ℕ), topkDesc score n k idx p =
      if p < k then slotId (descending score n)[p]? else idx p) ∧
    ∀ k : ℤ, 0 < k →
      (∀ (logprob : β → γ) (out : ℕ → TokenScore β γ), ∀ p < min k.toNat n,
        ((sessionTopLogprobs logprob score n k out).2 p).id = slotId (descending score n)[p]?) ∧
      ∀ slots : ℕ → Scored β, topKCandidates score n k slots =
        (descending score n).take (min k.toNat 1024) :=
  ⟨topkDesc_eq score n, fun _ hk =>
    ⟨fun logprob out _ hp => sessionTopLogprobs_id logprob score n hk out hp,
      topKCandidates_eq score n hk⟩⟩

/-- Of 1025 logits the sampler keeps 1024, and a logit of `-INFINITY` is listed behind the
others. -/
theorem loops_not_descending :
    (¬ topKCandidates (fun i => i) 1025 1025 (fun _ => ⟨0, 0⟩) =
      (descending (fun i => i) 1025).take 1025) ∧
    ((sessionTopLogprobs (fun v : WithBot ℕ => v) (fun i => if i = 0 then ⊥ else (i : WithBot ℕ))
      2 2 (fun _ => ⟨0, ⊥, none⟩)).2 1).id = 0 := by
  constructor
  · rw [topKCandidates_eq _ _ (by decide)]
    intro h
    have h := congrArg List.length h
    rw [List.length_take, List.length_take, length_descending] at h
    revert h
    decide
  · decide

end Sf37.Engine

/-
Sf37.Engine.Sampler — the choice of tokens by their scores: the experts of a layer, the best
log probabilities, and the sampler, in exact arithmetic.

A logit is an element of a linear order, whose least element is `-INFINITY`; there is no NaN. The
Makefile builds with `-ffast-math`, where `isfinite` is always true, so no loop passes a logit by
and no result is held back. The weight `expf((v - max_logit) / temperature)` is
`weight max_logit v`, and the draw of the random number is `u`.

* `topkDesc`, `sessionTopLogprobs`, `topKLoop`: three loops that keep the best.
* `sampleFullVocab`, `sampleTopPMinP`: the sampler.
-/
import Sf37.Run.Draw
import Sf37.Run.TopK
import Mathlib.Algebra.Order.Field.Rat
import Mathlib.Order.BoundedOrder.Basic

namespace Sf37.Engine

open Sf37.Run

variable {β : Type} [LinearOrder β]

/-! ## Logits -/

/-- A token with its logit; `sf37_sample_candidate`, whose weight is worked out from the logit. -/
structure Scored (β : Type) where
  id : ℕ
  logit : β

/-- The tokens with their logits. -/
def scores (logits : ℕ → β) (nVocab : ℕ) : List (Scored β) :=
  (List.range nVocab).map fun i => ⟨i, logits i⟩

/-- The logit is greater, or it is the same and the token comes first. -/
def Above (a b : Scored β) : Prop := b.logit < a.logit ∨ a.logit = b.logit ∧ a.id ≤ b.id

instance : DecidableRel (Above (β := β)) := fun _ _ => inferInstanceAs (Decidable (_ ∨ _))

/-- The tokens from the greatest logit on, and from the first token on where logits are the
same. -/
def descending (logits : ℕ → β) (nVocab : ℕ) : List (Scored β) :=
  (scores logits nVocab).insertionSort Above

/-! ## The loops that keep the best -/

/-- `sf37_topk_desc`. -/
def topkDesc (score : ℕ → β) (n k : ℕ) (idx : ℕ → ℤ) : ℕ → ℤ :=
  (List.range n).foldl
    (fun idx i => insertSlots k (fun s => decide (s < 0) || decide (score s.toNat < score i))
      (fun _ => (i : ℤ)) idx)
    (fun p => if p < k then -1 else idx p)

/-- `sf37_token_score`; where `logprob` is `none` it is `-INFINITY`. -/
structure TokenScore (β γ : Type) where
  id : ℤ
  logit : β
  logprob : Option γ

/-- The loop of `sf37_session_top_logprobs` over the logits. -/
def topLogprobsLoop {γ : Type} [OrderBot β] (logits : ℕ → β) (vocab k : ℕ)
    (out : ℕ → TokenScore β γ) : ℕ → TokenScore β γ :=
  (List.range vocab).foldl
    (fun out i => insertSlots k (fun s => decide (s.id < 0) || decide (s.logit < logits i))
      (fun s => { s with id := i, logit := logits i }) out)
    (fun p => if p < k then ⟨-1, ⊥, none⟩ else out p)

/-- `sf37_session_top_logprobs`: what it returns, and `out`. `logprob` takes the logarithm of
the sum from a logit. -/
def sessionTopLogprobs {γ : Type} [OrderBot β] (logprob : β → γ) (logits : ℕ → β) (vocab : ℕ)
    (k : ℤ) (out : ℕ → TokenScore β γ) : ℕ × (ℕ → TokenScore β γ) :=
  if k ≤ 0 then (0, out)
  else
    let k := if (vocab : ℤ) < k then vocab else k.toNat
    let out := topLogprobsLoop logits vocab k out
    (k, ((List.range k).takeWhile fun i => decide (0 ≤ (out i).id)).foldl
      (fun out i => Function.update out i { out i with logprob := some (logprob (out i).logit) })
      out)

/-- A turn of the loop of `sample_top_p_min_p` over the logits: `n`, and `ids` and `vals`. -/
def topKTurn (logits : ℕ → β) (topK : ℕ) (s : ℕ × (ℕ → Scored β)) (i : ℕ) :
    ℕ × (ℕ → Scored β) :=
  if s.1 = topK ∧ logits i ≤ (s.2 (s.1 - 1)).logit then s
  else sinkSlots topK (fun c => decide (c.logit < logits i)) ⟨i, logits i⟩ s.1 s.2

/-- The loop of `sample_top_p_min_p` over the logits. -/
def topKLoop (logits : ℕ → β) (nVocab topK : ℕ) (slots : ℕ → Scored β) :
    ℕ × (ℕ → Scored β) :=
  (List.range nVocab).foldl (topKTurn logits topK) (0, slots)

/-- The two caps of `top_k`. -/
def cappedTopK (nVocab : ℕ) (topK : ℤ) : ℕ :=
  let topK := if 1024 < topK then 1024 else topK.toNat
  if nVocab < topK then nVocab else topK

/-- The candidates that `sample_top_p_min_p` keeps. -/
def topKCandidates (logits : ℕ → β) (nVocab : ℕ) (topK : ℤ) (slots : ℕ → Scored β) :
    List (Scored β) :=
  let (n, slots) := topKLoop logits nVocab (cappedTopK nVocab topK) slots
  (List.range n).map slots

/-! ## The sampler -/

/-- `sample_argmax`. -/
def sampleArgmax (logits : ℕ → β) (nVocab : ℕ) : ℤ :=
  if nVocab = 0 then -1
  else ((List.range' 1 (nVocab - 1)).foldl
    (fun (best, bestV) i => if bestV < logits i then ((i : ℤ), logits i) else (best, bestV))
    (0, logits 0)).1

/-- The end of both functions, behind the sum of the weights of the sorted candidates: they are
cut and one of them is drawn. `other` is the token for a cut that leaves none. -/
def sampleSorted (prob : Scored β → ℚ) (cand : List (Scored β)) (topP minP u : ℚ) (other : ℤ) :
    ℤ :=
  let sum := (cand.map prob).sum
  if sum ≤ 0 then other
  else
    let minProb := (cand.head?.map prob).getD 0 / sum * minP
    let (filteredSum, filtered) := filterLoop prob sum minProb topP 0 0 cand
    if filtered = 0 then other
    else
      match drawLoop prob (u * filteredSum) (cand.take filtered) with
      | some c => c.id
      | none => (cand[filtered - 1]?.map fun c => (c.id : ℤ)).getD other

/-- `qsort` with `sample_candidate_cmp_desc`: candidates with the same logit may come in any
order. -/
structure Qsort (β : Type) [LinearOrder β] where
  sort : List (Scored β) → List (Scored β)
  perm : ∀ cand, (sort cand).Perm cand
  sorted : ∀ cand, (sort cand).Pairwise fun a b => b.logit ≤ a.logit

/-- The first loop of `sample_full_vocab`: `max_logit` and `best`. -/
def maxLoop [OrderBot β] (logits : ℕ → β) (nVocab : ℕ) : β × ℕ :=
  (scores logits nVocab).foldl (fun s c => if s.1 < c.logit then (c.logit, c.id) else s) (⊥, 0)

/-- `sample_full_vocab`; `finite` counts every logit. -/
def sampleFullVocab [OrderBot β] (weight : β → β → ℚ) (Q : Qsort β) (logits : ℕ → β) (nVocab : ℕ)
    (topP minP u : ℚ) : ℤ :=
  let (maxLogit, best) := maxLoop logits nVocab
  if nVocab = 0 then sampleArgmax logits nVocab
  else
    let prob := fun c : Scored β => weight maxLogit c.logit
    let minRel := if 0 < minP then minP else 0
    if 1 ≤ topP then
      let cand := (scores logits nVocab).filter fun c => !decide (prob c < minRel)
      let sum := (cand.map prob).sum
      if sum ≤ 0 then best
      else ((drawLoop prob (u * sum) cand).map fun c => (c.id : ℤ)).getD best
    else sampleSorted prob (Q.sort (scores logits nVocab)) topP minRel u best

/-- `sample_top_p_min_p`. -/
def sampleTopPMinP [OrderBot β] (weight : β → β → ℚ) (Q : Qsort β) (logits : ℕ → β)
    (nVocab : ℕ) (temperature : ℚ) (topK : ℤ) (topP minP u : ℚ) (slots : ℕ → Scored β) : ℤ :=
  if temperature ≤ 0 then sampleArgmax logits nVocab
  else
    let topP := if topP ≤ 0 ∨ 1 < topP then 1 else topP
    let minP := if minP < 0 then 0 else minP
    if topK ≤ 0 then sampleFullVocab weight Q logits nVocab topP minP u
    else
      match topKCandidates logits nVocab topK slots with
      | [] => sampleArgmax logits nVocab
      | first :: rest =>
        sampleSorted (fun c => weight first.logit c.logit) (first :: rest) topP minP u first.id

end Sf37.Engine

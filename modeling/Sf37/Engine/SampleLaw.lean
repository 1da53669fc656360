/-
Sf37.Engine.SampleLaw — which tokens the sampler draws, and how often.

The sampler has three ways: over all logits in their order, over all logits sorted, and over
the best `top_k`. Each draws from the same tokens, every token on an interval of random
fractions as long as its share of the weights.

* `maxLoop_eq`: the first pass finds the head of the sorted logits.
* `sampleSorted_law`: the end that two of the ways share.
* `sampleUnsorted_law`: the way that does not sort.
* `sampleTopPMinP_law`: the sampler.
-/
import Sf37.Engine.TopScores
import Mathlib.Order.Bounds.Defs
import Mathlib.Tactic.NormNum

namespace Sf37.Engine

open Sf37.Run

variable {β : Type}

/-! ## The filtered candidates -/

/-- The candidates that are left: before the first one below `minP` times the largest weight,
and up to the first part that has `topP` of the whole weight. -/
def filtered (prob : Scored β → ℚ) (topP minP : ℚ) (cand : List (Scored β)) : List (Scored β) :=
  cutAfter prob (topP * (cand.map prob).sum)
    (cutBelow prob (minP * (cand.head?.map prob).getD 0) cand)

theorem filtered_front (prob : Scored β → ℚ) (topP minP : ℚ) (cand : List (Scored β)) :
    filtered prob topP minP cand <+: cand :=
  (cutAfter_front prob _ _).trans (cutBelow_front prob _ cand)

theorem filtered_ne_nil (prob : Scored β → ℚ) (topP minP : ℚ) {cand : List (Scored β)}
    (h : cand ≠ []) : filtered prob topP minP cand ≠ [] := by
  cases cand with
  | nil => exact absurd rfl h
  | cons c cs => simp [filtered, cutBelow, cutAfter]

/-- No weight is below a bound that is not positive. -/
theorem filtered_clamp {prob : Scored β → ℚ} {topP minP : ℚ} {cand : List (Scored β)}
    (hpos : ∀ c ∈ cand, 0 < prob c) :
    filtered prob topP (if 0 < minP then minP else 0) cand = filtered prob topP minP cand := by
  split
  next h => rfl
  next h =>
    have hhead : 0 ≤ (cand.head?.map prob).getD 0 := by
      cases cand with
      | nil => exact le_rfl
      | cons c cs => exact (hpos c List.mem_cons_self).le
    have hbound := mul_nonpos_of_nonpos_of_nonneg (not_lt.mp h) hhead
    rw [filtered, filtered, zero_mul, cutBelow_all fun c hc => (hpos c hc).le,
      cutBelow_all fun c hc => hbound.trans (hpos c hc).le]

/-- With the largest weight 1 the tokens whose weight reaches `minP` are those that sorting and
cutting leaves. -/
theorem filtered_whole {prob : Scored β → ℚ} {minP : ℚ} {first : Scored β}
    {rest : List (Scored β)} (hpos : ∀ c ∈ first :: rest, 0 < prob c) (hone : prob first = 1)
    (hsorted : (first :: rest).Pairwise fun a b => prob b ≤ prob a) :
    filtered prob 1 minP (first :: rest) =
      first :: rest.filter fun c => decide (minP ≤ prob c) := by
  have hcut := cutBelow_front prob (minP * prob first) (first :: rest)
  rw [filtered, List.head?_cons, Option.map_some, Option.getD_some,
    cutAfter_all (fun c hc => hpos c (hcut.subset hc)), cutBelow, hone, mul_one,
    takeWhile_sorted hsorted.of_cons]
  rw [one_mul]
  exact sum_prefix_le hpos hcut

/-! ## Tokens of candidates -/

/-- No token has two logits. -/
theorem eq_of_id_eq {logits : ℕ → β} {n : ℕ} {a b : Scored β} (ha : a ∈ scores logits n)
    (hb : b ∈ scores logits n) (h : a.id = b.id) : a = b := by
  have hla := (mem_scores.mp ha).2
  have hlb := (mem_scores.mp hb).2
  rw [h, hlb] at hla
  cases a
  cases b
  simp_all

theorem scores_nodup (logits : ℕ → β) (n : ℕ) : (scores logits n).Nodup := by
  induction n with
  | zero => simp [scores]
  | succ n ih =>
    rw [scores_succ, List.nodup_append]
    refine ⟨ih, List.nodup_singleton _, fun a ha b hb => ?_⟩
    rintro rfl
    rw [List.mem_singleton.mp hb] at ha
    exact lt_irrefl n (mem_scores.mp ha).1

/-- What a draw from the filtered candidates is to be. -/
structure Law (prob : Scored β → ℚ) (F : List (Scored β)) (draw : ℚ → ℤ) : Prop where
  nonempty : F ≠ []
  mem : ∀ u, 0 ≤ u → u < 1 → ∃ c ∈ F, draw u = c.id
  share : DrawnByWeight prob F fun u c => draw u = c.id

/-- The order of the candidates does not matter. -/
theorem Law.perm {prob : Scored β → ℚ} {F F' : List (Scored β)} {draw : ℚ → ℤ}
    (hperm : F.Perm F') (h : Law prob F draw) : Law prob F' draw where
  nonempty hnil := h.nonempty (hnil ▸ hperm).eq_nil
  mem u h0 h1 := by
    obtain ⟨c, hc, hdraw⟩ := h.mem u h0 h1
    exact ⟨c, hperm.mem_iff.mp hc, hdraw⟩
  share := h.share.perm hperm

/-- A draw that takes the weights of `F` from a fraction of its whole weight. -/
theorem law_of_drawLoop {prob : Scored β → ℚ} {F : List (Scored β)} {draw : ℚ → ℤ}
    (hpos : ∀ c ∈ F, 0 < prob c) (hne : F ≠ []) (hids : F.Nodup)
    (hinj : ∀ a ∈ F, ∀ b ∈ F, a.id = b.id → a = b)
    (hdraw : ∀ u, 0 ≤ u → u < 1 → ∀ c, drawLoop prob (u * (F.map prob).sum) F = some c →
      draw u = c.id) : Law prob F draw where
  nonempty := hne
  mem u h0 h1 := by
    have hW := sum_weights_pos hpos hne
    have hle : u * (F.map prob).sum ≤ (F.map prob).sum := by
      have := mul_le_mul_of_nonneg_right h1.le hW.le
      rwa [one_mul] at this
    obtain ⟨c, hc, h⟩ := drawLoop_isSome hne hle
    exact ⟨c, hc, hdraw u h0 h1 c h⟩
  share c hc := by
    obtain ⟨lo, hi, hlen, hin, hout⟩ := drawLoop_drawn hpos hids c hc
    refine ⟨lo, hi, hlen, fun u hu => ?_, fun u hu => hout ?_⟩
    · obtain ⟨h0, h1, h⟩ := hin hu
      exact ⟨h0, h1, hdraw u h0 h1 c h⟩
    · obtain ⟨h0, h1, h⟩ := hu
      have hW := sum_weights_pos hpos hne
      have hle : u * (F.map prob).sum ≤ (F.map prob).sum := by
        have := mul_le_mul_of_nonneg_right h1.le hW.le
        rwa [one_mul] at this
      obtain ⟨d, hd, hloop⟩ := drawLoop_isSome hne hle
      have hsame : d = c := by
        refine hinj d hd c hc ?_
        have := (hdraw u h0 h1 d hloop).symm.trans h
        exact_mod_cast this
      exact ⟨h0, h1, hsame ▸ hloop⟩

/-! ## The sorted ways -/

/-- The end that two of the ways share. -/
theorem sampleSorted_law {prob : Scored β → ℚ} {cand : List (Scored β)} {topP minP : ℚ}
    {other : ℤ} (hpos : ∀ c ∈ cand, 0 < prob c) (hne : cand ≠ []) (hnodup : cand.Nodup)
    (hinj : ∀ a ∈ cand, ∀ b ∈ cand, a.id = b.id → a = b) :
    Law prob (filtered prob topP minP cand) fun u => sampleSorted prob cand topP minP u other := by
  have hsum := sum_weights_pos hpos hne
  have hfront := filtered_front prob topP minP cand
  have hF := filtered_ne_nil prob topP minP hne
  refine law_of_drawLoop (fun c hc => hpos c (hfront.subset hc)) hF
    (hfront.sublist.nodup hnodup)
    (fun a ha b hb => hinj a (hfront.subset ha) b (hfront.subset hb)) fun u _ _ c h => ?_
  have hbound : (cand.head?.map prob).getD 0 / (cand.map prob).sum * minP * (cand.map prob).sum =
      minP * (cand.head?.map prob).getD 0 := by
    rw [mul_right_comm, div_mul_cancel₀ _ hsum.ne', mul_comm]
  have hloop : filterLoop prob (cand.map prob).sum
      ((cand.head?.map prob).getD 0 / (cand.map prob).sum * minP) topP 0 0 cand =
        (((filtered prob topP minP cand).map prob).sum, (filtered prob topP minP cand).length) := by
    have h := filterLoop_eq prob ((cand.head?.map prob).getD 0 / (cand.map prob).sum * minP) topP
      hsum cand
    dsimp only at h
    rwa [hbound] at h
  have htake : cand.take (filtered prob topP minP cand).length = filtered prob topP minP cand :=
    List.prefix_iff_eq_take.mp hfront |>.symm
  rw [sampleSorted, if_neg (not_le.mpr hsum)]
  dsimp only
  rw [hloop]
  dsimp only
  rw [if_neg (by simpa using hF), htake, h]

/-! ## The way that does not sort -/

section Unsorted

variable [LinearOrder β]

/-- The first pass finds the head of the sorted logits. -/
theorem maxLoop_eq [OrderBot β] (logits : ℕ → β) (n : ℕ) : maxLoop logits n =
    (((descending logits n).head?.map Scored.logit).getD ⊥,
      ((descending logits n).head?.map Scored.id).getD 0) := by
  induction n with
  | zero => rfl
  | succ n ih =>
    rw [maxLoop] at ih ⊢
    rw [scores_succ, List.foldl_append, ih, descending_succ, List.foldl_cons, List.foldl_nil]
    cases hlist : descending logits n with
    | nil =>
      have hlength : (descending logits n).length = n := length_descending
      obtain rfl : n = 0 := by simpa [hlist] using hlength.symm
      rcases eq_or_ne (logits 0) ⊥ with hv | hv
      · simp [insertAfter, hv]
      · simp [insertAfter, bot_lt_iff_ne_bot.mpr hv]
    | cons c cs =>
      by_cases h : c.logit < logits n
      · simp [insertAfter, notBelow, h]
      · simp [insertAfter, notBelow, h]

/-- The way over all logits in their order. -/
theorem sampleUnsorted_law {prob : Scored β → ℚ} {logits : ℕ → β} {n : ℕ} {minP : ℚ}
    {first : Scored β} {rest : List (Scored β)} (hlist : descending logits n = first :: rest)
    (hpos : ∀ c ∈ scores logits n, 0 < prob c) (hone : prob first = 1)
    (hsorted : (first :: rest).Pairwise fun a b => prob b ≤ prob a) :
    Law prob (filtered prob 1 minP (first :: rest)) fun u =>
      let minRel := if 0 < minP then minP else 0
      let cand := (scores logits n).filter fun c => !decide (prob c < minRel)
      let sum := (cand.map prob).sum
      if sum ≤ 0 then first.id
      else ((drawLoop prob (u * sum) cand).map fun c => (c.id : ℤ)).getD first.id := by
  have hperm : (first :: rest).Perm (scores logits n) :=
    hlist ▸ List.perm_insertionSort Above _
  have hposAll : ∀ c ∈ first :: rest, 0 < prob c := fun c hc => hpos c (hperm.mem_iff.mp hc)
  have hkeep : ((scores logits n).filter fun c =>
      !decide (prob c < if 0 < minP then minP else 0)) =
        (scores logits n).filter fun c => decide (minP ≤ prob c) := by
    refine List.filter_congr fun c hc => ?_
    rw [← decide_not, decide_eq_decide, not_lt]
    have := hpos c hc
    split
    · rfl
    · constructor <;> intro <;> linarith
  rw [filtered_whole hposAll hone hsorted]
  dsimp only
  rw [hkeep]
  by_cases hmin : minP ≤ 1
  · have hcand : (first :: rest.filter fun c => decide (minP ≤ prob c)).Perm
        ((scores logits n).filter fun c => decide (minP ≤ prob c)) := by
      have h := hperm.filter fun c => decide (minP ≤ prob c)
      rwa [List.filter_cons_of_pos (by simpa [hone] using hmin)] at h
    have hne : ((scores logits n).filter fun c => decide (minP ≤ prob c)) ≠ [] := by
      intro h
      rw [h] at hcand
      exact List.cons_ne_nil _ _ hcand.eq_nil
    have hnodup := (scores_nodup logits n).filter fun c => decide (minP ≤ prob c)
    have hinj : ∀ a ∈ (scores logits n).filter fun c => decide (minP ≤ prob c),
        ∀ b ∈ (scores logits n).filter fun c => decide (minP ≤ prob c), a.id = b.id → a = b :=
      fun a ha b hb => eq_of_id_eq (List.mem_of_mem_filter ha) (List.mem_of_mem_filter hb)
    have hcandPos : ∀ c ∈ (scores logits n).filter fun c => decide (minP ≤ prob c), 0 < prob c :=
      fun c hc => hpos c (List.mem_of_mem_filter hc)
    generalize (scores logits n).filter (fun c => decide (minP ≤ prob c)) = cand
      at hcand hne hnodup hinj hcandPos ⊢
    simp only [if_neg (not_le.mpr (sum_weights_pos hcandPos hne))]
    refine Law.perm hcand.symm (law_of_drawLoop hcandPos hne hnodup hinj ?_)
    intro u _ _ c h
    rw [h]
    rfl
  · -- no weight reaches `minP`: the sum is zero, and the first is taken
    have hbelow : ∀ c ∈ first :: rest, ¬ minP ≤ prob c := by
      intro c hc hle
      rcases List.mem_cons.mp hc with rfl | hc
      · exact hmin (hone ▸ hle)
      · exact hmin (hle.trans (hone ▸ List.rel_of_pairwise_cons hsorted hc))
    have hnone : ((scores logits n).filter fun c => decide (minP ≤ prob c)) = [] :=
      List.filter_eq_nil_iff.mpr fun c hc => by simpa using hbelow c (hperm.mem_iff.mpr hc)
    have hrest : (rest.filter fun c => decide (minP ≤ prob c)) = [] :=
      List.filter_eq_nil_iff.mpr fun c hc => by simpa using hbelow c (List.mem_cons_of_mem first hc)
    have hfirst : ∀ c ∈ [first], 0 < prob c := fun c hc =>
      hposAll c (List.mem_singleton.mp hc ▸ List.mem_cons_self)
    rw [hnone, hrest]
    simp only [List.map_nil, List.sum_nil, le_refl, if_true]
    refine law_of_drawLoop hfirst (List.cons_ne_nil first []) (List.nodup_singleton _) ?_ ?_
    · intro a ha b hb _
      rw [List.mem_singleton.mp ha, List.mem_singleton.mp hb]
    · intro u h0 _ c h
      obtain ⟨front, back, heq, -, -⟩ := drawLoop_mem (mul_nonneg h0
        (sum_weights_pos hfirst (List.cons_ne_nil first [])).le) h
      have hc : c ∈ [first] := heq ▸ List.mem_append_right front List.mem_cons_self
      rw [List.mem_singleton.mp hc]

end Unsorted

/-! ## The sampler -/

section Sampler

variable [LinearOrder β]

/-- The sorted logits begin with the greatest. -/
theorem descending_head {logits : ℕ → β} {n : ℕ} {m : β}
    (hm : IsGreatest {v | ∃ i < n, logits i = v} m) :
    ∃ first rest, descending logits n = first :: rest ∧ first.logit = m := by
  obtain ⟨⟨i, hi, hv⟩, hmax⟩ := hm
  have hmem : (⟨i, m⟩ : Scored β) ∈ descending logits n :=
    mem_descending.mpr (mem_scores.mpr ⟨hi, hv⟩)
  have hsorted : (descending logits n).Pairwise Above := descending_sorted
  cases hlist : descending logits n with
  | nil => simp [hlist] at hmem
  | cons first rest =>
    have hfirst : first ∈ descending logits n := hlist ▸ List.mem_cons_self
    obtain ⟨hid, hlogit⟩ := mem_scores.mp (mem_descending.mp hfirst)
    refine ⟨first, rest, rfl, le_antisymm (hmax ⟨first.id, hid, hlogit⟩) ?_⟩
    rw [hlist] at hmem hsorted
    rcases List.mem_cons.mp hmem with heq | hmem
    · rw [← heq]
    · rcases List.rel_of_pairwise_cons hsorted hmem with hlt | ⟨heq, -⟩
      · exact hlt.le
      · exact heq.ge

theorem descending_pairwise (logits : ℕ → β) (n : ℕ) :
    (descending logits n).Pairwise fun a b => b.logit ≤ a.logit :=
  descending_sorted.imp fun h => h.elim le_of_lt fun h => h.1.ge

variable [OrderBot β]

/-- What the sampler draws where no logit is `-INFINITY`: a token of the filtered candidates, each
on an interval of the fractions as long as its share of their weights, where tokens with the same
logit stand in an order that does not depend on the fraction. -/
theorem sampleTopPMinP_law (weight : β → β → ℚ) (Q : Qsort β) {logits : ℕ → β}
    {nVocab : ℕ} {m : β} (hm : IsGreatest {v | ∃ i < nVocab, logits i = v} m)
    (hfinite : ∀ i < nVocab, ⊥ < logits i) (hpos : ∀ v, ⊥ < v → 0 < weight m v)
    (hmono : StrictMonoOn (weight m) (Set.Ioi ⊥)) (hone : weight m m = 1)
    {temperature : ℚ} (htemp : 0 < temperature) (topK : ℤ) (topP minP : ℚ)
    (slots : ℕ → Scored β) :
    ∃ order : List (Scored β), order.Perm (scores logits nVocab) ∧
      order.Pairwise (fun a b => b.logit ≤ a.logit) ∧
      Law (fun c => weight m c.logit)
        (filtered (fun c => weight m c.logit) (if topP ≤ 0 ∨ 1 < topP then 1 else topP) minP
          (if topK ≤ 0 then order else order.take (min topK.toNat 1024)))
        fun u => sampleTopPMinP weight Q logits nVocab temperature topK topP minP u slots := by
  obtain ⟨first, rest, hlist, rfl⟩ := descending_head hm
  have hsome : nVocab ≠ 0 := by
    rintro rfl
    exact List.cons_ne_nil _ _ hlist.symm
  have hperm : (descending logits nVocab).Perm (scores logits nVocab) :=
    List.perm_insertionSort Above _
  have hlogit : ∀ c ∈ scores logits nVocab, ⊥ < c.logit := by
    intro c hc
    obtain ⟨hid, hv⟩ := mem_scores.mp hc
    exact hv ▸ hfinite c.id hid
  have hprob : ∀ c ∈ scores logits nVocab, 0 < weight first.logit c.logit := fun c hc =>
    hpos c.logit (hlogit c hc)
  have hclamp : (if minP < 0 then 0 else minP) = if 0 < minP then minP else 0 := by
    split <;> split <;> linarith
  have hclamp' : (if 0 < (if 0 < minP then minP else 0) then (if 0 < minP then minP else 0)
      else 0) = if 0 < minP then minP else 0 := by
    by_cases h : 0 < minP
    · simp [h]
    · simp [h]
  simp only [sampleTopPMinP, if_neg (not_le.mpr htemp), hclamp]
  have hinj : ∀ a ∈ scores logits nVocab, ∀ b ∈ scores logits nVocab,
      a.id = b.id → a = b := fun a ha b hb => eq_of_id_eq ha hb
  by_cases hk : topK ≤ 0
  · simp only [if_pos hk, sampleFullVocab, maxLoop_eq, hlist, List.head?_cons, Option.map_some,
      Option.getD_some, hclamp', if_neg hsome]
    have hle : (if topP ≤ 0 ∨ 1 < topP then 1 else topP) ≤ 1 := by
      split
      next h => exact le_rfl
      next h => exact not_lt.mp fun h1 => h (.inr h1)
    by_cases hp : 1 ≤ if topP ≤ 0 ∨ 1 < topP then 1 else topP
    · refine ⟨first :: rest, hlist ▸ hperm, hlist ▸ descending_pairwise logits nVocab, ?_⟩
      rw [le_antisymm hle hp]
      simp only [le_refl, if_true]
      refine sampleUnsorted_law hlist hprob hone ?_
      rw [← hlist]
      refine (descending_pairwise logits nVocab).imp_of_mem fun ha hb h => ?_
      exact hmono.monotoneOn (hlogit _ (mem_descending.mp hb)) (hlogit _ (mem_descending.mp ha)) h
    · refine ⟨Q.sort (scores logits nVocab), Q.perm _, Q.sorted _, ?_⟩
      have hsort := Q.perm (scores logits nVocab)
      have hsortPos : ∀ c ∈ Q.sort (scores logits nVocab), 0 < weight first.logit c.logit :=
        fun c hc => hprob c (hsort.mem_iff.mp hc)
      simp only [if_neg hp]
      rw [← filtered_clamp hsortPos]
      refine sampleSorted_law hsortPos (fun hnil => ?_)
        (hsort.nodup_iff.mpr (scores_nodup logits nVocab))
        fun a ha b hb => hinj a (hsort.mem_iff.mp ha) b (hsort.mem_iff.mp hb)
      rw [hnil] at hsort
      rw [← hsort.nil_eq, hlist] at hperm
      exact List.cons_ne_nil _ _ hperm.eq_nil
  · have hpos' : 0 < topK := not_le.mp hk
    obtain ⟨k, hmin⟩ : ∃ k, min topK.toNat 1024 = k + 1 :=
      Nat.exists_eq_succ_of_ne_zero (by omega)
    refine ⟨first :: rest, hlist ▸ hperm, hlist ▸ descending_pairwise logits nVocab, ?_⟩
    have hsub : ∀ c ∈ first :: rest.take k, c ∈ scores logits nVocab := by
      intro c hc
      rw [← List.take_succ_cons, ← hlist] at hc
      exact hperm.mem_iff.mp (List.mem_of_mem_take hc)
    have hsubPos : ∀ c ∈ first :: rest.take k, 0 < weight first.logit c.logit :=
      fun c hc => hprob c (hsub c hc)
    simp only [if_neg hk, topKCandidates_eq logits nVocab hpos' slots, hlist, hmin,
      List.take_succ_cons]
    rw [← filtered_clamp hsubPos]
    refine sampleSorted_law hsubPos (List.cons_ne_nil _ _) ?_
      fun a ha b hb => hinj a (hsub a ha) b (hsub b hb)
    rw [← List.take_succ_cons, ← hlist]
    exact (hperm.nodup_iff.mpr (scores_nodup logits nVocab)).sublist (List.take_sublist _ _)

end Sampler

/-! ## Three logits -/

/-- `qsort` that leaves candidates with the same logit in the order of their tokens. -/
def stableQsort [LinearOrder β] : Qsort β where
  sort cand := cand.insertionSort Above
  perm cand := List.perm_insertionSort Above cand
  sorted cand := (List.pairwise_insertionSort Above cand).imp fun h =>
    h.elim le_of_lt fun h => h.1.ge

/-- A weight that doubles with each step, and that is zero for `-INFINITY`. -/
def doubling : WithBot ℕ → ℚ := WithBot.recBotCoe 0 fun v => 2 ^ v

/-- Three logits, two of them the same, and weights that double with each step. -/
theorem sampleTopPMinP_law_three :
    let logits : ℕ → WithBot ℕ := fun i => ((if i = 1 then 1 else 3 : ℕ) : WithBot ℕ)
    ∃ order : List (Scored (WithBot ℕ)), order.Perm (scores logits 3) ∧
      order.Pairwise (fun a b => b.logit ≤ a.logit) ∧
      Law (fun c => doubling c.logit / doubling 3)
        (filtered (fun c => doubling c.logit / doubling 3)
          (if (9 / 10 : ℚ) ≤ 0 ∨ 1 < (9 / 10 : ℚ) then 1 else 9 / 10) (1 / 10)
          (if (40 : ℤ) ≤ 0 then order else order.take (min (40 : ℤ).toNat 1024)))
        fun u => sampleTopPMinP (fun m v => doubling v / doubling m) stableQsort logits 3
          1 40 (9 / 10) (1 / 10) u fun _ => ⟨0, ⊥⟩ := by
  intro logits
  have hpos : ∀ v : WithBot ℕ, ⊥ < v → 0 < doubling v := by
    intro v hv
    obtain ⟨n, rfl⟩ := WithBot.ne_bot_iff_exists.mp hv.ne'
    exact pow_pos two_pos n
  have hthree : (0 : ℚ) < doubling 3 := hpos 3 (by decide)
  refine sampleTopPMinP_law (m := 3) (fun m v => doubling v / doubling m) stableQsort ⟨?_, ?_⟩ ?_
    (fun v hv => div_pos (hpos v hv) hthree) ?_ (div_self hthree.ne') one_pos 40 (9 / 10) (1 / 10)
    fun _ => ⟨0, ⊥⟩
  · exact ⟨0, by decide, rfl⟩
  · rintro v ⟨i, hi, rfl⟩
    revert i
    decide
  · decide
  · intro v hv w hw h
    obtain ⟨n, rfl⟩ := WithBot.ne_bot_iff_exists.mp (Set.mem_Ioi.mp hv).ne'
    obtain ⟨k, rfl⟩ := WithBot.ne_bot_iff_exists.mp (Set.mem_Ioi.mp hw).ne'
    exact div_lt_div_of_pos_right (pow_lt_pow_right₀ one_lt_two (WithBot.coe_lt_coe.mp h)) hthree

/-- The sampler does not draw from the filtered candidates when the largest weight is not 1,
nor when `top_p` is 0, nor when a logit is `-INFINITY`. -/
theorem sampleTopPMinP_notLaw :
    (¬ ∃ order : List (Scored (WithBot ℕ)), order.Perm (scores (fun i => (i : WithBot ℕ)) 2) ∧
      order.Pairwise (fun a b => b.logit ≤ a.logit) ∧
      Law (fun c => doubling c.logit) (filtered (fun c => doubling c.logit) 1 (3 / 4) order)
        fun u => sampleTopPMinP (fun _ v => doubling v) stableQsort (fun i => (i : WithBot ℕ)) 2
          1 0 1 (3 / 4) u fun _ => ⟨0, ⊥⟩) ∧
    (¬ ∃ order : List (Scored (WithBot ℕ)), order.Perm (scores (fun i => (i : WithBot ℕ)) 2) ∧
      order.Pairwise (fun a b => b.logit ≤ a.logit) ∧
      Law (fun c => doubling c.logit / doubling 1)
        (filtered (fun c => doubling c.logit / doubling 1) 0 0 order)
        fun u => sampleTopPMinP (fun m v => doubling v / doubling m) stableQsort
          (fun i => (i : WithBot ℕ)) 2 1 0 0 0 u fun _ => ⟨0, ⊥⟩) ∧
    ¬ ∃ order : List (Scored (WithBot ℕ)),
      order.Perm ((scores (fun i => if i = 0 then ⊥ else (0 : WithBot ℕ)) 2).filter
        fun c => decide (⊥ < c.logit)) ∧
      order.Pairwise (fun a b => b.logit ≤ a.logit) ∧
      Law (fun c => doubling c.logit / doubling 0)
        (filtered (fun c => doubling c.logit / doubling 0) 1 0 order)
        fun u => sampleTopPMinP (fun m v => doubling v / doubling m) stableQsort
          (fun i => if i = 0 then ⊥ else (0 : WithBot ℕ)) 2 1 0 1 0 u fun _ => ⟨0, ⊥⟩ := by
  have hzero : doubling 0 = 1 := pow_zero 2
  have hone : doubling 1 = 2 := pow_one 2
  have horder : ∀ order : List (Scored (WithBot ℕ)),
      order.Perm (scores (fun i => (i : WithBot ℕ)) 2) →
      order.Pairwise (fun a b => b.logit ≤ a.logit) → order = [⟨1, 1⟩, ⟨0, 0⟩] := by
    intro order hperm hsorted
    have hswap : order.Perm [⟨1, 1⟩, ⟨0, 0⟩] := hperm.trans (List.Perm.swap _ _ [])
    refine List.Perm.eq_of_pairwise (fun a b ha hb => ?_) hsorted (by simp) hswap
    rw [hswap.mem_iff] at ha
    simp only [List.mem_cons, List.not_mem_nil, or_false] at ha hb
    rcases ha with rfl | rfl <;> rcases hb with rfl | rfl <;> simp
  refine ⟨?_, ?_, ?_⟩
  · rintro ⟨order, hperm, hsorted, hlaw⟩
    obtain rfl := horder order hperm hsorted
    obtain ⟨c, hc, hdraw⟩ := hlaw.mem 0 le_rfl one_pos
    have hF : filtered (fun c : Scored (WithBot ℕ) => doubling c.logit) 1 (3 / 4)
        [⟨1, 1⟩, ⟨0, 0⟩] = [⟨1, 1⟩] := by
      norm_num [filtered, cutBelow, cutAfter, hzero, hone]
    rw [hF, List.mem_singleton] at hc
    subst hc
    revert hdraw
    decide +kernel
  · rintro ⟨order, hperm, hsorted, hlaw⟩
    obtain rfl := horder order hperm hsorted
    obtain ⟨c, hc, hdraw⟩ := hlaw.mem 0 le_rfl one_pos
    have hF : filtered (fun c : Scored (WithBot ℕ) => doubling c.logit / doubling 1) 0 0
        [⟨1, 1⟩, ⟨0, 0⟩] = [⟨1, 1⟩] := by
      norm_num [filtered, cutBelow, cutAfter, hzero, hone]
    rw [hF, List.mem_singleton] at hc
    subst hc
    revert hdraw
    decide +kernel
  · rintro ⟨order, hperm, -, hlaw⟩
    obtain rfl : order = [⟨1, 0⟩] := List.perm_singleton.mp hperm
    obtain ⟨c, hc, hdraw⟩ := hlaw.mem 0 le_rfl one_pos
    have hF : filtered (fun c : Scored (WithBot ℕ) => doubling c.logit / doubling 0) 1 0
        [⟨1, 0⟩] = [⟨1, 0⟩] := by
      norm_num [filtered, cutBelow, cutAfter, hzero, hone]
    rw [hF, List.mem_singleton] at hc
    subst hc
    revert hdraw
    decide +kernel

end Sf37.Engine

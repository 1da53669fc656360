/-
Sf37.Run.Draw — drawing from a list by weight, and cutting a list sorted by weight.

A random fraction of the whole weight is taken down by the weights of the elements one after
the other until nothing is left. The fractions that end at an element form an interval as long
as its share of the whole.

* `drawLoop_mem`: where the loop ends.
* `drawLoop_drawn`: each element is drawn on an interval as long as its share.
* `filterLoop_eq`: the loop that cuts below a bound and after a first part that is enough.
* `cutBelow_all`, `cutAfter_all`, `takeWhile_sorted`: cuts that can be told from the weights.
-/
import Mathlib.Algebra.Order.Field.Basic
import Mathlib.Algebra.Order.BigOperators.Group.List
import Mathlib.Data.List.TakeWhile
import Mathlib.Order.Interval.Set.Basic
import Mathlib.Tactic.Linarith
import Mathlib.Tactic.Ring

namespace Sf37.Run

variable {α K : Type}

/-! ## Drawing -/

section Drawing

variable [Field K] [LinearOrder K]

/-- The loop that takes the weights from `r` and stops where nothing is left. -/
def drawLoop (w : α → K) : K → List α → Option α
  | _, [] => none
  | r, c :: cs => if r - w c ≤ 0 then some c else drawLoop w (r - w c) cs

/-- Each element of `l` is drawn on an interval of fractions as long as its share of the
whole. -/
def DrawnByWeight (w : α → K) (l : List α) (drawn : K → α → Prop) : Prop :=
  ∀ c ∈ l, ∃ lo hi : K, hi - lo = w c / (l.map w).sum ∧
    Set.Ioo lo hi ⊆ {u | 0 ≤ u ∧ u < 1 ∧ drawn u c} ∧
    {u | 0 ≤ u ∧ u < 1 ∧ drawn u c} ⊆ Set.Icc lo hi

/-- The order of the elements does not matter. -/
theorem DrawnByWeight.perm {w : α → K} {l l' : List α} {drawn : K → α → Prop} (hperm : l.Perm l')
    (h : DrawnByWeight w l drawn) : DrawnByWeight w l' drawn := by
  intro c hc
  rw [← (hperm.map w).sum_eq]
  exact h c (hperm.mem_iff.mpr hc)

variable [IsStrictOrderedRing K]

/-- Where the loop ends. -/
theorem drawLoop_mem {w : α → K} {r : K} {l : List α} {c : α} (h0 : 0 ≤ r)
    (h : drawLoop w r l = some c) : ∃ front back, l = front ++ c :: back ∧
      (front.map w).sum ≤ r ∧ r ≤ (front.map w).sum + w c := by
  induction l generalizing r with
  | nil => cases h
  | cons a l ih =>
    rw [drawLoop] at h
    split at h
    next hle =>
      obtain rfl := Option.some.inj h
      exact ⟨[], l, rfl, by simpa using h0, by simpa using hle⟩
    next hgt =>
      obtain ⟨front, back, rfl, hlo, hhi⟩ := ih (by linarith) h
      refine ⟨a :: front, back, rfl, ?_, ?_⟩ <;>
        rw [List.map_cons, List.sum_cons] <;> linarith

/-- The loop ends at an element when what stands before it is not enough and it is enough with
it. -/
theorem drawLoop_at {w : α → K} {r : K} {front back : List α} {c : α}
    (hpos : ∀ a ∈ front, 0 < w a) (hlo : (front.map w).sum < r)
    (hhi : r ≤ (front.map w).sum + w c) : drawLoop w r (front ++ c :: back) = some c := by
  induction front generalizing r with
  | nil =>
    rw [List.map_nil, List.sum_nil, zero_add] at hhi
    rw [List.nil_append, drawLoop, if_pos (sub_nonpos.mpr hhi)]
  | cons a front ih =>
    rw [List.map_cons, List.sum_cons] at hlo hhi
    have hrest : 0 ≤ (front.map w).sum := by
      refine List.sum_nonneg fun x hx => ?_
      obtain ⟨b, hb, rfl⟩ := List.mem_map.mp hx
      exact (hpos b (List.mem_cons_of_mem a hb)).le
    rw [List.cons_append, drawLoop, if_neg (by linarith)]
    exact ih (fun b hb => hpos b (List.mem_cons_of_mem a hb)) (by linarith) (by linarith)

/-- The loop ends as long as `r` is not more than the whole. -/
theorem drawLoop_isSome {w : α → K} {r : K} {l : List α} (hne : l ≠ [])
    (hr : r ≤ (l.map w).sum) : ∃ c ∈ l, drawLoop w r l = some c := by
  induction l generalizing r with
  | nil => exact absurd rfl hne
  | cons a l ih =>
    rw [drawLoop]
    split
    next hle => exact ⟨a, List.mem_cons_self, rfl⟩
    next hgt =>
      rw [List.map_cons, List.sum_cons] at hr
      have hrest : l ≠ [] := by
        rintro rfl
        rw [List.map_nil, List.sum_nil, add_zero] at hr
        exact hgt (sub_nonpos.mpr hr)
      obtain ⟨c, hc, h⟩ := ih (r := r - w a) hrest (by linarith)
      exact ⟨c, List.mem_cons_of_mem a hc, h⟩

theorem sum_weights_pos {w : α → K} {l : List α} (hpos : ∀ a ∈ l, 0 < w a) (hne : l ≠ []) :
    0 < (l.map w).sum := by
  refine List.sum_pos _ (fun x hx => ?_) (by simpa using hne)
  obtain ⟨b, hb, rfl⟩ := List.mem_map.mp hx
  exact hpos b hb

/-- A part of a list weighs no more than the whole. -/
theorem sum_prefix_le {w : α → K} {part l : List α} (hpos : ∀ a ∈ l, 0 < w a) (h : part <+: l) :
    (part.map w).sum ≤ (l.map w).sum := by
  obtain ⟨rest, rfl⟩ := h
  have hrest : 0 ≤ (rest.map w).sum := by
    refine List.sum_nonneg fun x hx => ?_
    obtain ⟨b, hb, rfl⟩ := List.mem_map.mp hx
    exact (hpos b (List.mem_append_right part hb)).le
  rw [List.map_append, List.sum_append]
  linarith

theorem drawLoop_drawn {w : α → K} {l : List α} (hpos : ∀ a ∈ l, 0 < w a) (hnodup : l.Nodup) :
    DrawnByWeight w l fun u c => drawLoop w (u * (l.map w).sum) l = some c := by
  intro c hc
  obtain ⟨front, back, rfl⟩ := List.append_of_mem hc
  have hW := sum_weights_pos hpos (List.ne_nil_of_mem hc)
  have hsum : ((front ++ c :: back).map w).sum =
      (front.map w).sum + w c + (back.map w).sum := by
    rw [List.map_append, List.sum_append, List.map_cons, List.sum_cons, add_assoc]
  have hpart : ∀ part : List α, (∀ a ∈ part, a ∈ front ++ c :: back) → 0 ≤ (part.map w).sum := by
    intro part hpart
    refine List.sum_nonneg fun x hx => ?_
    obtain ⟨b, hb, rfl⟩ := List.mem_map.mp hx
    exact (hpos b (hpart b hb)).le
  have hfront := hpart front fun a ha => List.mem_append_left _ ha
  have hback := hpart back fun a ha => List.mem_append_right _ (List.mem_cons_of_mem c ha)
  generalize ((front ++ c :: back).map w).sum = W at hW hsum ⊢
  refine ⟨(front.map w).sum / W, ((front.map w).sum + w c) / W, by ring, ?_, ?_⟩
  · rintro u ⟨hlo, hhi⟩
    rw [div_lt_iff₀ hW] at hlo
    rw [lt_div_iff₀ hW] at hhi
    refine ⟨?_, ?_, ?_⟩
    · by_contra hneg
      rw [not_le] at hneg
      have := mul_neg_of_neg_of_pos hneg hW
      linarith
    · by_contra hge
      rw [not_lt] at hge
      have := mul_le_mul_of_nonneg_right hge hW.le
      linarith
    · exact drawLoop_at (fun a ha => hpos a (List.mem_append_left _ ha)) hlo hhi.le
  · rintro u ⟨h0, -, h⟩
    obtain ⟨front', back', heq, hlo, hhi⟩ := drawLoop_mem (mul_nonneg h0 hW.le) h
    have hno : c ∉ front := fun hmem =>
      (List.nodup_append.mp hnodup).2.2 c hmem c List.mem_cons_self rfl
    have hno' : c ∉ back := (List.nodup_cons.mp (List.nodup_append.mp hnodup).2.1).1
    have hsame : front = front' := ((List.append_cons_inj_of_notMem hno hno').mp heq).1
    subst hsame
    exact ⟨(div_le_iff₀ hW).mpr hlo, (le_div_iff₀ hW).mpr hhi⟩

end Drawing

/-! ## Cutting -/

/-- The elements before the first one, other than the head, whose weight is below the bound. -/
def cutBelow [LinearOrder K] (w : α → K) (bound : K) : List α → List α
  | [] => []
  | c :: cs => c :: cs.takeWhile fun d => decide (bound ≤ w d)

/-- The elements up to the first one where the weights together are enough. -/
def cutAfter [Field K] [LinearOrder K] (w : α → K) : K → List α → List α
  | _, [] => []
  | need, c :: cs => c :: if need ≤ w c then [] else cutAfter w (need - w c) cs

theorem cutBelow_front [LinearOrder K] (w : α → K) (bound : K) (l : List α) :
    cutBelow w bound l <+: l := by
  cases l with
  | nil => exact List.nil_prefix
  | cons c cs => exact (List.cons_prefix_cons.mpr ⟨rfl, List.takeWhile_prefix _⟩)

/-- Nothing is cut where no weight is below the bound. -/
theorem cutBelow_all [LinearOrder K] {w : α → K} {bound : K} {l : List α}
    (h : ∀ a ∈ l, bound ≤ w a) : cutBelow w bound l = l := by
  cases l with
  | nil => rfl
  | cons c cs =>
    rw [cutBelow, List.takeWhile_eq_self_iff.mpr fun d hd =>
      decide_eq_true (h d (List.mem_cons_of_mem c hd))]

theorem cutAfter_front [Field K] [LinearOrder K] (w : α → K) (need : K) (l : List α) :
    cutAfter w need l <+: l := by
  induction l generalizing need with
  | nil => exact List.nil_prefix
  | cons c cs ih =>
    rw [cutAfter]
    refine List.cons_prefix_cons.mpr ⟨rfl, ?_⟩
    split
    · exact List.nil_prefix
    · exact ih _

/-- Nothing is cut where all together are no more than enough. -/
theorem cutAfter_all [Field K] [LinearOrder K] [IsStrictOrderedRing K] {w : α → K} {need : K}
    {l : List α} (hpos : ∀ a ∈ l, 0 < w a) (h : (l.map w).sum ≤ need) : cutAfter w need l = l := by
  induction l generalizing need with
  | nil => rfl
  | cons c cs ih =>
    have hrest : ∀ a ∈ cs, 0 < w a := fun a ha => hpos a (List.mem_cons_of_mem c ha)
    rw [List.map_cons, List.sum_cons] at h
    rw [cutAfter]
    congr 1
    rcases List.eq_nil_or_concat cs with rfl | ⟨front, last, hcs⟩
    · split <;> rfl
    · have hne : cs ≠ [] := by simp [hcs]
      have hsum := sum_weights_pos hrest hne
      rw [if_neg (by linarith), ih hrest (by linarith)]

/-- In a list sorted by weight the elements before the first one below a bound are those not
below it. -/
theorem takeWhile_sorted [LinearOrder K] {w : α → K} {bound : K} {l : List α}
    (hsorted : l.Pairwise fun a b => w b ≤ w a) :
    l.takeWhile (fun d => decide (bound ≤ w d)) = l.filter fun d => decide (bound ≤ w d) := by
  induction l with
  | nil => rfl
  | cons c cs ih =>
    obtain ⟨hhead, htail⟩ := List.pairwise_cons.mp hsorted
    rw [List.takeWhile_cons, List.filter_cons]
    split
    next hle => rw [ih htail]
    next hlt =>
      refine (List.filter_eq_nil_iff.mpr fun d hd => ?_).symm
      rw [decide_eq_true_eq, not_le] at hlt ⊢
      exact (hhead d hd).trans_lt hlt

section Filter

variable [Field K] [LinearOrder K]

/-- The loop that cuts the sorted candidates: `filtered_sum` and `filtered`, which is also the
loop's counter. -/
def filterLoop (w : α → K) (sum minProb topP : K) : K → ℕ → List α → K × ℕ
  | filteredSum, filtered, [] => (filteredSum, filtered)
  | filteredSum, filtered, c :: cs =>
    if 0 < filtered ∧ w c / sum < minProb then (filteredSum, filtered)
    else if topP ≤ (filteredSum + w c) / sum then (filteredSum + w c, filtered + 1)
    else filterLoop w sum minProb topP (filteredSum + w c) (filtered + 1) cs

variable [IsStrictOrderedRing K]

/-- The loop behind the first candidate. -/
theorem filterLoop_behind {w : α → K} {sum minProb topP : K} (hsum : 0 < sum) (l : List α)
    (filteredSum : K) {filtered : ℕ} (hn : 0 < filtered) :
    let cut := cutAfter w (topP * sum - filteredSum)
      (l.takeWhile fun d => decide (minProb * sum ≤ w d))
    filterLoop w sum minProb topP filteredSum filtered l =
      (filteredSum + (cut.map w).sum, filtered + cut.length) := by
  induction l generalizing filteredSum filtered with
  | nil => simp [filterLoop, cutAfter]
  | cons c cs ih =>
    have hbelow : w c / sum < minProb ↔ ¬ minProb * sum ≤ w c := by
      rw [div_lt_iff₀ hsum, not_le]
    have henough : topP ≤ (filteredSum + w c) / sum ↔ topP * sum - filteredSum ≤ w c := by
      rw [le_div_iff₀ hsum, sub_le_iff_le_add']
    dsimp only
    rw [filterLoop, List.takeWhile_cons]
    by_cases hc : minProb * sum ≤ w c
    · rw [if_neg (by rw [hbelow]; tauto), if_pos (decide_eq_true hc), cutAfter]
      by_cases hdone : topP * sum - filteredSum ≤ w c
      · rw [if_pos (henough.mpr hdone), if_pos hdone]
        simp
      · rw [if_neg (mt henough.mp hdone), if_neg hdone, ih _ (Nat.succ_pos _)]
        rw [← sub_sub, List.map_cons, List.sum_cons, List.length_cons, add_assoc,
          Nat.succ_add_eq_add_succ]
    · rw [if_pos ⟨hn, hbelow.mpr hc⟩, if_neg (by simpa using hc)]
      simp [cutAfter]

/-- The loop cuts below the bound and after the first part that is enough. -/
theorem filterLoop_eq (w : α → K) {sum : K} (minProb topP : K) (hsum : 0 < sum) (l : List α) :
    let cut := cutAfter w (topP * sum) (cutBelow w (minProb * sum) l)
    filterLoop w sum minProb topP 0 0 l = ((cut.map w).sum, cut.length) := by
  cases l with
  | nil => simp [filterLoop, cutAfter, cutBelow]
  | cons c cs =>
    have henough : topP ≤ (0 + w c) / sum ↔ topP * sum ≤ w c := by
      rw [le_div_iff₀ hsum, zero_add]
    dsimp only
    rw [filterLoop, if_neg (fun h => lt_irrefl 0 h.1), cutBelow, cutAfter]
    by_cases hdone : topP * sum ≤ w c
    · rw [if_pos (henough.mpr hdone), if_pos hdone]
      simp
    · rw [if_neg (mt henough.mp hdone), if_neg hdone, filterLoop_behind hsum cs _ Nat.one_pos]
      rw [zero_add, List.map_cons, List.sum_cons, List.length_cons, Nat.add_comm]

end Filter

end Sf37.Run

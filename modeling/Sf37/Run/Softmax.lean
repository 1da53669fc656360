/-
Sf37.Run.Softmax — softmax in exact arithmetic, in two passes, in one, and from parts.

A row has a score and a value. The sum of the weights and the sum of the weighted values may be
scaled by any factor `exp (-m)`, so a running maximum, or the maxima of parts, make no difference.

* `Scaled`: what the two sums are, up to the factor.
* `Scaled.next`: a row more, with a new maximum.
* `scaled_passes`: all the rows with one maximum.
* `Scaled.toMax`: what is summed over one maximum is brought to another.
* `Scaled.softmax`: the quotient is the softmax.
* `mixed_eq_iff`: parts that are brought to two different maxima give the softmax only by chance.
-/
import Mathlib.Algebra.BigOperators.Ring.Finset
import Mathlib.Algebra.BigOperators.Ring.List
import Mathlib.Algebra.Order.BigOperators.Group.Finset
import Mathlib.Algebra.Order.BigOperators.Group.List
import Mathlib.Algebra.Order.Field.Basic
import Mathlib.Order.WithBot
import Mathlib.Tactic.FieldSimp
import Mathlib.Tactic.LinearCombination
import Mathlib.Tactic.Ring

namespace Sf37.Run

/-! ## Sums over rows -/

section Sums

variable {K : Type} [Field K] {exp : K → K} {rows : List (K × K)}

/-- The sum of the weights. -/
def weightSum (exp : K → K) (rows : List (K × K)) : K := (rows.map fun r => exp r.1).sum

/-- The sum of the weighted values. -/
def valueSum (exp : K → K) (rows : List (K × K)) : K := (rows.map fun r => exp r.1 * r.2).sum

/-- The weighted mean of the values; 0 when there is no row. -/
def softmax (exp : K → K) (rows : List (K × K)) : K := valueSum exp rows / weightSum exp rows

/-- `exp (a - b)`, where `⊥` is minus infinity. -/
def expDiff (exp : K → K) : WithBot K → WithBot K → K
  | some a, some b => exp (a - b)
  | _, _ => 0

/-- The two sums with the factor `exp (-m)`. -/
def Scaled (exp : K → K) (rows : List (K × K)) : WithBot K → K → K → Prop
  | none, sum, acc => rows = [] ∧ sum = 0 ∧ acc = 0
  | some m, sum, acc => sum = exp (-m) * weightSum exp rows ∧ acc = exp (-m) * valueSum exp rows

theorem expDiff_coe (a b : K) : expDiff exp a b = exp (a - b) := rfl

theorem expDiff_bot (b : WithBot K) : expDiff exp ⊥ b = 0 := rfl

theorem scaled_coe {m sum acc : K} : Scaled exp rows m sum acc ↔
    sum = exp (-m) * weightSum exp rows ∧ acc = exp (-m) * valueSum exp rows := Iff.rfl

theorem scaled_nil : Scaled exp [] ⊥ 0 0 := ⟨rfl, rfl, rfl⟩

theorem weightSum_append (rows rest : List (K × K)) :
    weightSum exp (rows ++ rest) = weightSum exp rows + weightSum exp rest := by
  rw [weightSum, List.map_append, List.sum_append]
  rfl

theorem valueSum_append (rows rest : List (K × K)) :
    valueSum exp (rows ++ rest) = valueSum exp rows + valueSum exp rest := by
  rw [valueSum, List.map_append, List.sum_append]
  rfl

theorem weightSum_flatMap {σ : Type} (parts : List σ) (f : σ → List (K × K)) :
    weightSum exp (parts.flatMap f) = (parts.map fun p => weightSum exp (f p)).sum := by
  induction parts with
  | nil => rfl
  | cons p parts ih => rw [List.flatMap_cons, weightSum_append, ih, List.map_cons, List.sum_cons]

theorem valueSum_flatMap {σ : Type} (parts : List σ) (f : σ → List (K × K)) :
    valueSum exp (parts.flatMap f) = (parts.map fun p => valueSum exp (f p)).sum := by
  induction parts with
  | nil => rfl
  | cons p parts ih => rw [List.flatMap_cons, valueSum_append, ih, List.map_cons, List.sum_cons]

end Sums

/-! ## The exponential function -/

section Softmax

variable {K : Type} [Field K] [LinearOrder K]

/-- The laws of the exponential function. -/
structure Exponential (exp : K → K) : Prop where
  pos : ∀ a, 0 < exp a
  add : ∀ a b, exp (a + b) = exp a * exp b

variable {exp : K → K} {rows : List (K × K)}

theorem Exponential.sub (h : Exponential exp) (a b : K) : exp (a - b) = exp (-b) * exp a := by
  rw [sub_eq_neg_add, h.add]

theorem Exponential.neg_mul (h : Exponential exp) (a : K) : exp (-a) * exp a = 1 := by
  have hzero : exp 0 * exp 0 = exp 0 := by rw [← h.add, add_zero]
  rw [← h.add, neg_add_cancel]
  exact (mul_eq_left₀ (h.pos 0).ne').mp hzero

/-- A row more, with a new maximum. -/
theorem Scaled.next (h : Exponential exp) {m : WithBot K} {sum acc : K}
    (hscaled : Scaled exp rows m sum acc) (n s v : K) :
    Scaled exp (rows ++ [(s, v)]) (n : WithBot K)
      (sum * expDiff exp m n + exp (s - n)) (acc * expDiff exp m n + v * exp (s - n)) := by
  have hweight : weightSum exp [(s, v)] = exp s := by simp [weightSum]
  have hvalue : valueSum exp [(s, v)] = exp s * v := by simp [valueSum]
  rw [scaled_coe, weightSum_append, valueSum_append, hweight, hvalue, h.sub s n]
  cases m with
  | bot =>
    obtain ⟨rfl, rfl, rfl⟩ := hscaled
    rw [expDiff_bot, weightSum, valueSum, List.map_nil, List.map_nil, List.sum_nil]
    constructor <;> ring
  | coe m =>
    obtain ⟨rfl, rfl⟩ := hscaled
    have hone := h.neg_mul m
    rw [expDiff_coe, h.sub m n]
    constructor
    · linear_combination (exp (-n) * weightSum exp rows) * hone
    · linear_combination (exp (-n) * valueSum exp rows) * hone

/-- All the rows with one maximum. -/
theorem scaled_passes (h : Exponential exp) (rows : List (K × K)) (m : K) :
    Scaled exp rows (m : WithBot K) (rows.map fun r => exp (r.1 - m)).sum
      (rows.map fun r => exp (r.1 - m) * r.2).sum := by
  simp only [h.sub, mul_assoc]
  exact ⟨List.sum_map_mul_left .., List.sum_map_mul_left ..⟩

/-- What was summed over a maximum, brought to another. -/
theorem Scaled.toMax (h : Exponential exp) {n : WithBot K} {sum acc : K}
    (hscaled : Scaled exp rows n sum acc) (m : K) :
    sum * expDiff exp n m = exp (-m) * weightSum exp rows ∧
      acc * expDiff exp n m = exp (-m) * valueSum exp rows := by
  cases n with
  | bot =>
    obtain ⟨hnil, hsum, hacc⟩ := hscaled
    rw [hnil, hsum, hacc, expDiff_bot]
    simp [weightSum, valueSum]
  | coe n =>
    obtain ⟨hsum, hacc⟩ := hscaled
    have hone := h.neg_mul n
    rw [hsum, hacc, expDiff_coe, h.sub n m]
    constructor
    · linear_combination (exp (-m) * weightSum exp rows) * hone
    · linear_combination (exp (-m) * valueSum exp rows) * hone

variable [IsStrictOrderedRing K]

theorem weightSum_pos (h : Exponential exp) (hrows : rows ≠ []) : 0 < weightSum exp rows := by
  refine List.sum_pos _ (fun w hw => ?_) (by simpa using hrows)
  obtain ⟨r, -, rfl⟩ := List.mem_map.mp hw
  exact h.pos _

/-- The quotient of the two sums is the softmax. -/
theorem Scaled.softmax (h : Exponential exp) {m : WithBot K} {sum acc : K}
    (hscaled : Scaled exp rows m sum acc) :
    acc * (if 0 < sum then 1 / sum else 0) = Run.softmax exp rows := by
  cases m with
  | bot =>
    obtain ⟨rfl, rfl, rfl⟩ := hscaled
    simp [Run.softmax, valueSum]
  | coe m =>
    obtain ⟨rfl, rfl⟩ := hscaled
    by_cases hrows : rows = []
    · subst hrows
      simp [Run.softmax, valueSum]
    · have hweight := weightSum_pos h hrows
      have hfactor := h.pos (-m)
      rw [if_pos (mul_pos hfactor hweight), Run.softmax]
      field_simp

/-! ## Two maxima -/

/-- The quotient of the two sums when each part is brought to a maximum of its own. -/
def mixed (exp : K → K) (n : ℕ) (f : ℕ → List (K × K)) (m : ℕ → K) : K :=
  (∑ s ∈ Finset.range n, exp (-m s) * valueSum exp (f s)) /
    ∑ s ∈ Finset.range n, exp (-m s) * weightSum exp (f s)

theorem sum_parts_pos (h : Exponential exp) {n : ℕ} {f : ℕ → List (K × K)} (g : ℕ → K)
    (hg : ∀ s, 0 < g s) (hrows : ∃ s < n, f s ≠ []) :
    0 < ∑ s ∈ Finset.range n, g s * weightSum exp (f s) := by
  have hweight : ∀ s, 0 ≤ weightSum exp (f s) := fun s =>
    List.sum_nonneg fun w hw => by
      obtain ⟨r, -, rfl⟩ := List.mem_map.mp hw
      exact (h.pos _).le
  obtain ⟨s, hs, hne⟩ := hrows
  exact Finset.sum_pos' (fun s _ => mul_nonneg (hg s).le (hweight s))
    ⟨s, Finset.mem_range.mpr hs, mul_pos (hg s) (weightSum_pos h hne)⟩

omit [LinearOrder K] [IsStrictOrderedRing K] in
theorem sum_range_flatMap (g : List (K × K) → K) (hnil : g [] = 0)
    (hadd : ∀ rows rest, g (rows ++ rest) = g rows + g rest) (n : ℕ) (f : ℕ → List (K × K)) :
    ∑ s ∈ Finset.range n, g (f s) = g ((List.range n).flatMap f) := by
  induction n with
  | zero => exact hnil.symm
  | succ n ih =>
    rw [Finset.sum_range_succ, ih, List.range_succ, List.flatMap_append, hadd, List.flatMap_singleton]

omit [LinearOrder K] [IsStrictOrderedRing K] in
/-- Terms that cancel in each class cancel in all the classes that are taken. -/
theorem sum_classes_eq_zero {n : ℕ} {x : ℕ → K} (cls : ℕ → ℕ) (taken : ℕ → Prop)
    [DecidablePred taken]
    (hzero : ∀ c, taken c → ∑ s ∈ Finset.range n with cls s = c, x s = 0) :
    ∑ s ∈ Finset.range n with taken (cls s), x s = 0 := by
  rw [← Finset.sum_fiberwise_of_maps_to (g := cls) (t := ((Finset.range n).filter fun s =>
    taken (cls s)).image cls) fun s hs => Finset.mem_image_of_mem cls hs]
  refine Finset.sum_eq_zero fun c hc => ?_
  obtain ⟨s, hs, rfl⟩ := Finset.mem_image.mp hc
  have htaken := (Finset.mem_filter.mp hs).2
  rw [← hzero (cls s) htaken, Finset.filter_filter]
  refine Finset.sum_congr (Finset.filter_congr fun t _ => ?_) fun _ _ => rfl
  constructor
  · exact And.right
  · intro heq
    exact ⟨heq ▸ htaken, heq⟩

omit [LinearOrder K] [IsStrictOrderedRing K] in
/-- A sum of which some terms have another factor. -/
theorem sum_two_factors (n : ℕ) (late : ℕ → Prop) [DecidablePred late] (u v : K) (x : ℕ → K) :
    ∑ s ∈ Finset.range n, (if late s then v else u) * x s =
      u * ∑ s ∈ Finset.range n, x s + (v - u) * ∑ s ∈ Finset.range n with late s, x s := by
  rw [Finset.sum_filter, Finset.mul_sum, Finset.mul_sum, ← Finset.sum_add_distrib]
  refine Finset.sum_congr rfl fun s _ => ?_
  split <;> ring

omit [LinearOrder K] [IsStrictOrderedRing K] in
theorem cross_eq_iff (u v a b x y : K) :
    (u * a + (v - u) * x) * b = a * (u * b + (v - u) * y) ↔ u = v ∨ x * b = a * y := by
  constructor
  · intro h
    have hzero : (v - u) * (x * b - a * y) = 0 := by linear_combination h
    rcases mul_eq_zero.mp hzero with h | h
    · exact Or.inl (sub_eq_zero.mp h).symm
    · exact Or.inr (sub_eq_zero.mp h)
  · rintro (rfl | h)
    · ring
    · linear_combination (v - u) * h

theorem softmax_eq_iff (h : Exponential exp) {rest : List (K × K)} (hrows : rows ≠ [])
    (hrest : rest ≠ []) : softmax exp rows = softmax exp rest ↔
      valueSum exp rows * weightSum exp rest = valueSum exp rest * weightSum exp rows :=
  div_eq_div_iff (weightSum_pos h hrows).ne' (weightSum_pos h hrest).ne'

/-- Parts of which some are brought to `l` and the others to `m` give the softmax when these
weigh the same, or when the parts at `l` have the mean of all. -/
theorem mixed_eq_iff (h : Exponential exp) {n : ℕ} {f : ℕ → List (K × K)} (late : ℕ → Prop)
    [DecidablePred late] (m l : K) (hrows : ∃ s < n, f s ≠ []) :
    mixed exp n f (fun s => if late s then l else m) = softmax exp ((List.range n).flatMap f) ↔
      exp (l - m) = 1 ∨ (∑ s ∈ Finset.range n with late s, valueSum exp (f s)) *
        weightSum exp ((List.range n).flatMap f) = valueSum exp ((List.range n).flatMap f) *
          ∑ s ∈ Finset.range n with late s, weightSum exp (f s) := by
  have hfactor : ∀ s, exp (-(if late s then l else m)) = if late s then exp (-l) else exp (-m) :=
    fun s => by split <;> rfl
  have hall := sum_parts_pos h (fun _ => 1) (fun _ => one_pos) hrows
  have hmixed := sum_parts_pos h (fun s => exp (-(if late s then l else m))) (fun _ => h.pos _)
    hrows
  have hvalues := sum_range_flatMap (valueSum exp) rfl valueSum_append n f
  have hweights := sum_range_flatMap (weightSum exp) rfl weightSum_append n f
  simp only [one_mul] at hall
  rw [hweights] at hall
  rw [mixed, softmax, div_eq_div_iff hmixed.ne' hall.ne']
  simp only [hfactor]
  rw [sum_two_factors, sum_two_factors, hvalues, hweights]
  have hone : exp (l - m) = 1 ↔ exp (-m) = exp (-l) := by
    have hmul := h.neg_mul l
    rw [h.sub l m]
    constructor
    · intro heq
      have hne := (h.pos l).ne'
      exact mul_right_cancel₀ hne (heq.trans hmul.symm)
    · intro heq
      rw [heq, hmul]
  rw [hone]
  exact cross_eq_iff ..

end Softmax

end Sf37.Run

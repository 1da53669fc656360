/-
Sf37.Run.Windows — a line cut into windows of one length, the last of them moved back.

The windows start at the multiples of their length; where the last one would stand out over
the end it is moved back to end there.

* `windowStart_add_le`: on a line that is long enough every window lies inside.
* `exists_window`: together they reach every point.
-/
import Mathlib.Data.Rat.Floor

namespace Sf37.Run

/-- How many windows a line is cut into. -/
def windowCount (len window : Nat) : Nat :=
  if len ≤ window then 1 else ⌈((len : ℚ) - window) / window + 1⌉₊

/-- Where a window starts. -/
def windowStart (len window i : Nat) : Nat :=
  if 1 < windowCount len window ∧ len < window * i + window then len - window else window * i

variable {len window i x : Nat}

theorem windowCount_of_le (h : len ≤ window) : windowCount len window = 1 := if_pos h

theorem windowCount_pos (len window : Nat) : 0 < windowCount len window := by
  unfold windowCount
  split
  · exact Nat.one_pos
  next h =>
    refine Nat.ceil_pos.mpr ?_
    have hlen : (window : ℚ) ≤ len := by exact_mod_cast Nat.le_of_not_le h
    have hdiv : (0 : ℚ) ≤ ((len : ℚ) - window) / window :=
      div_nonneg (sub_nonneg.mpr hlen) (Nat.cast_nonneg _)
    exact lt_of_lt_of_le zero_lt_one (le_add_of_nonneg_left hdiv)

/-- The windows are as many as it takes to reach the end. -/
theorem le_windowCount_mul (len : Nat) (hpos : 0 < window) :
    len ≤ windowCount len window * window := by
  unfold windowCount
  split
  next h => omega
  next h =>
    have hwindow : (0 : ℚ) < window := by exact_mod_cast hpos
    have hceil := Nat.le_ceil (((len : ℚ) - window) / window + 1)
    have hlen : (len : ℚ) ≤ ⌈((len : ℚ) - window) / window + 1⌉₊ * window := by
      calc (len : ℚ) = (((len : ℚ) - window) / window + 1) * window := by field_simp; ring
        _ ≤ _ := mul_le_mul_of_nonneg_right hceil hwindow.le
    exact_mod_cast hlen

@[simp] theorem windowStart_zero (len window : Nat) : windowStart len window 0 = 0 := by
  unfold windowStart
  split
  next h =>
    have hle : ¬ len ≤ window := fun hle => by
      rw [windowCount_of_le hle] at h
      exact Nat.lt_irrefl 1 h.1
    omega
  next => exact Nat.mul_zero _

/-- On a line that is long enough every window lies inside. -/
theorem windowStart_add_le (h : window ≤ len) (hi : i < windowCount len window) :
    windowStart len window i + window ≤ len := by
  unfold windowStart
  split
  next => omega
  next hin =>
    by_cases hone : 1 < windowCount len window
    · simp only [hone, true_and, not_lt] at hin
      exact hin
    · obtain rfl : i = 0 := by omega
      simpa using h

/-- Every point lies in one of the windows. -/
theorem exists_window (hpos : 0 < window) (hx : x < len) :
    ∃ i < windowCount len window,
      windowStart len window i ≤ x ∧ x < windowStart len window i + window := by
  have hdiv : window * (x / window) ≤ x := Nat.mul_div_le x window
  have hmod : x < window * (x / window) + window := by
    have := Nat.lt_mul_div_succ x hpos
    rwa [Nat.mul_add, Nat.mul_one] at this
  refine ⟨x / window, ?_, ?_⟩
  · have hend := le_windowCount_mul len hpos
    rw [Nat.div_lt_iff_lt_mul hpos]
    omega
  · unfold windowStart
    split
    next hout => omega
    next => exact ⟨hdiv, hmod⟩

end Sf37.Run

/-
Sf37.Run.Nearest — rounding to a nearest integer, and the rounded number clamped to
`0..n`.

* `Nearest.intCast`: an integer is left as it is.
* `clamped_error`: how far the clamped number is off, by how far the number is outside.
* `clamped_of_nonpos`, `clamped_of_le`: outside, the clamped number is the end.
-/
import Mathlib.Algebra.Order.Round
import Mathlib.Data.Rat.Floor
import Mathlib.Tactic.Linarith

namespace Sf37.Run

/-- A rounding to a nearest integer, with any rule for numbers half way. -/
structure Nearest where
  round : ℚ → ℤ
  near (x : ℚ) : |x - round x| ≤ 1 / 2

namespace Nearest

variable (R : Nearest)

theorem le_add_half (x : ℚ) : (R.round x : ℚ) ≤ x + 1 / 2 := by
  have h := (abs_le.mp (R.near x)).1
  linarith

theorem sub_half_le (x : ℚ) : x - 1 / 2 ≤ (R.round x : ℚ) := by
  have h := (abs_le.mp (R.near x)).2
  linarith

theorem le_of_le {x : ℚ} {n : ℤ} (h : x ≤ n) : R.round x ≤ n := by
  have hround := R.le_add_half x
  have hlt : (R.round x : ℚ) < ((n + 1 : ℤ) : ℚ) := by
    push_cast
    linarith
  exact Int.lt_add_one_iff.mp (by exact_mod_cast hlt)

theorem le_of_ge {x : ℚ} {n : ℤ} (h : (n : ℚ) ≤ x) : n ≤ R.round x := by
  have hround := R.sub_half_le x
  have hlt : ((n - 1 : ℤ) : ℚ) < (R.round x : ℚ) := by
    push_cast
    linarith
  exact Int.sub_one_lt_iff.mp (by exact_mod_cast hlt)

/-- An integer is left as it is. -/
@[simp] theorem intCast (n : ℤ) : R.round n = n :=
  le_antisymm (R.le_of_le le_rfl) (R.le_of_ge le_rfl)

/-- Numbers half way go up. -/
def halfUp : Nearest where
  round := fun x => ⌊x + 1 / 2⌋
  near x := by
    have h := abs_sub_round x
    rwa [round_eq] at h

end Nearest

/-! ## Clamped -/

/-- `n` moved into `0..top`. -/
def clamped (top n : ℤ) : ℤ := max 0 (min top n)

theorem clamped_of_mem {top n : ℤ} (h0 : 0 ≤ n) (h1 : n ≤ top) : clamped top n = n := by
  rw [clamped, min_eq_right h1, max_eq_right h0]

theorem clamped_of_nonpos {top n : ℤ} (h : n ≤ 0) : clamped top n = 0 :=
  max_eq_left ((min_le_right _ _).trans h)

theorem clamped_of_le {top n : ℤ} (htop : 0 ≤ top) (h : top ≤ n) : clamped top n = top := by
  rw [clamped, min_eq_left h, max_eq_right htop]

variable (R : Nearest)

/-- A number at most `e` outside of `0..top`, and `e` at least a half. -/
theorem clamped_error {top : ℤ} {x e : ℚ} (htop : 0 ≤ top) (he : 1 / 2 ≤ e) (hlo : -e ≤ x)
    (hhi : x ≤ top + e) : |clamped top (R.round x) - x| ≤ e := by
  have hdown := R.le_add_half x
  have hup := R.sub_half_le x
  rcases le_total (R.round x) 0 with hneg | hpos
  · rw [clamped_of_nonpos hneg]
    have : (R.round x : ℚ) ≤ 0 := by exact_mod_cast hneg
    rw [abs_le]
    constructor <;> push_cast <;> linarith
  rcases le_total top (R.round x) with hbig | hsmall
  · rw [clamped_of_le htop hbig]
    have : (top : ℚ) ≤ (R.round x : ℚ) := by exact_mod_cast hbig
    rw [abs_le]
    constructor <;> linarith
  · rw [clamped_of_mem hpos hsmall, abs_le]
    constructor <;> linarith

end Sf37.Run

/-
Sf37.Quantize.AsymError — how far a value is off when its group is quantized without
an imatrix.

The zero point is clamped to the codes, so a group is covered as long as zero is at most one
step outside of its values. Behind that the end that is farther from zero is off by more than
a step.

* `groupLo_spec`, `groupHi_spec`: the extreme values of a group.
* `scaled_error`: with zero near the values, a code is off by at most one.
* `asymGroup_bounded_iff`: the groups that are covered.
-/
import Sf37.Run.Extreme
import Sf37.Quantize.AsymBlock
import Mathlib.Tactic.FieldSimp
import Mathlib.Tactic.Positivity

namespace Sf37.Quantize

open Sf37.Run

/-! ## The extreme values -/

/-- A place of the loops over a group. -/
theorem mem_group {i : ℕ} : i ∈ List.range' 1 63 ↔ 0 < i ∧ i < 64 := by
  rw [List.mem_range'_1]
  omega

/-- The lowest value of a group. -/
theorem groupLo_spec (gx : ℕ → ℚ) :
    (∀ i < 64, groupLo gx ≤ gx i) ∧ ∃ i < 64, groupLo gx = gx i := by
  obtain ⟨⟨hle, hall⟩, hmem⟩ := foldl_lower gx (List.range' 1 63) (gx 0)
  refine ⟨fun i hi => ?_, ?_⟩
  · rcases Nat.eq_zero_or_pos i with rfl | hpos
    · exact hle
    · exact hall i (mem_group.mpr ⟨hpos, hi⟩)
  · rcases hmem with heq | ⟨i, hi, heq⟩
    · exact ⟨0, by omega, heq⟩
    · exact ⟨i, (mem_group.mp hi).2, heq⟩

/-- The highest value of a group. -/
theorem groupHi_spec (gx : ℕ → ℚ) :
    (∀ i < 64, gx i ≤ groupHi gx) ∧ ∃ i < 64, groupHi gx = gx i := by
  obtain ⟨⟨hle, hall⟩, hmem⟩ := foldl_upper gx (List.range' 1 63) (gx 0)
  refine ⟨fun i hi => ?_, ?_⟩
  · rcases Nat.eq_zero_or_pos i with rfl | hpos
    · exact hle
    · exact hall i (mem_group.mpr ⟨hpos, hi⟩)
  · rcases hmem with heq | ⟨i, hi, heq⟩
    · exact ⟨0, by omega, heq⟩
    · exact ⟨i, (mem_group.mp hi).2, heq⟩

theorem groupLo_le_groupHi (gx : ℕ → ℚ) : groupLo gx ≤ groupHi gx :=
  ((groupLo_spec gx).1 0 (by omega)).trans ((groupHi_spec gx).1 0 (by omega))

theorem groupLo_eq {gx : ℕ → ℚ} {v : ℚ} (h : ∀ i < 64, v ≤ gx i) {j : ℕ} (hj : j < 64)
    (hv : gx j = v) : groupLo gx = v := by
  obtain ⟨hall, i, hi, heq⟩ := groupLo_spec gx
  exact le_antisymm (hv ▸ hall j hj) (heq ▸ h i hi)

theorem groupHi_of {gx : ℕ → ℚ} {v : ℚ} (h : ∀ i < 64, gx i ≤ v) {j : ℕ} (hj : j < 64)
    (hv : gx j = v) : groupHi gx = v := by
  obtain ⟨hall, i, hi, heq⟩ := groupHi_spec gx
  exact le_antisymm (heq ▸ h i hi) (hv ▸ hall j hj)

/-- All values of a group are one value when the extreme ones are. -/
theorem constant_iff (gx : ℕ → ℚ) :
    (∀ i < 64, gx i = gx 0) ↔ groupHi gx = groupLo gx := by
  constructor
  · intro h
    rw [groupLo_eq (fun i hi => (h i hi).ge) (by omega : 0 < 64) rfl,
      groupHi_of (fun i hi => (h i hi).le) (by omega : 0 < 64) rfl]
  · intro h i hi
    refine le_antisymm ?_ ?_
    · exact ((groupHi_spec gx).1 i hi).trans (h ▸ (groupLo_spec gx).1 0 (by omega))
    · exact ((groupHi_spec gx).1 0 (by omega)).trans (h ▸ (groupLo_spec gx).1 i hi)

/-! ## Steps -/

/-- Every value comes back to within one step. -/
def StepBounded (R : Nearest) (qmax : ℤ) (gx : ℕ → ℚ) : Prop :=
  ∀ i < 64, |(((asymGroup R qmax gx).q i : ℚ) - (asymGroup R qmax gx).zp) *
    (asymGroup R qmax gx).scale - gx i| ≤ (asymGroup R qmax gx).scale

/-- The assertion of `ds4q_nearest_int` holds for every argument. -/
def ArgsInRange (R : Nearest) (qmax : ℤ) (gx : ℕ → ℚ) : Prop :=
  ∀ a ∈ nearestIntArgs R qmax gx, |a| ≤ 4194303

/-- Zero is at most one step outside of the values. -/
def ZeroNear (qmax : ℤ) (gx : ℕ → ℚ) : Prop :=
  (qmax + 1) * groupLo gx ≤ groupHi gx ∧ groupLo gx ≤ (qmax + 1) * groupHi gx

section Values

variable (R : Nearest) {top : ℤ} {t y : ℚ}

/-- With the zero point for `t` at most one outside of the codes, a value between the ends
gets a code that is off by at most one. -/
theorem scaled_error (htop : 0 ≤ top) (hlo : -1 ≤ t) (hhi : t ≤ top + 1) (hy : -t ≤ y)
    (hy' : y ≤ top - t) :
    |(clamped top (R.round (y + clamped top (R.round t))) : ℚ) -
        (y + clamped top (R.round t))| ≤ 1 ∧
      |y + (clamped top (R.round t) : ℚ)| ≤ top + 1 := by
  have hz := abs_le.mp (clamped_error R (e := 1) htop (by norm_num) hlo hhi)
  have htop' : (0 : ℚ) ≤ top := by exact_mod_cast htop
  refine ⟨clamped_error R htop (by norm_num) (by linarith [hz.1]) (by linarith [hz.2]), ?_⟩
  rw [abs_le]
  constructor
  · linarith [hz.1]
  · linarith [hz.2]

/-- Zero more than one step below the values: the highest value is off by more than a step. -/
theorem above_error (htop : 0 ≤ top) (h : t < -1) :
    1 < |(clamped top (R.round (top - t + clamped top (R.round t))) : ℚ) -
      (top - t + clamped top (R.round t))| := by
  have hz : clamped top (R.round t) = 0 :=
    clamped_of_nonpos (R.le_of_le (by push_cast; linarith))
  have hq : clamped top (R.round (top - t)) = top :=
    clamped_of_le htop (R.le_of_ge (by linarith))
  rw [hz, Int.cast_zero, add_zero, hq, lt_abs]
  right
  linarith

/-- Zero more than one step above the values: the lowest value is off by more than a step. -/
theorem below_error (htop : 0 ≤ top) (h : top + 1 < t) :
    1 < |(clamped top (R.round (-t + clamped top (R.round t))) : ℚ) -
      (-t + clamped top (R.round t))| := by
  have hz : clamped top (R.round t) = top :=
    clamped_of_le htop (R.le_of_ge (by linarith))
  have hq : clamped top (R.round (-t + top)) = 0 :=
    clamped_of_nonpos (R.le_of_le (by push_cast; linarith))
  rw [hz, hq, Int.cast_zero, lt_abs]
  left
  linarith

end Values

/-! ## Groups of several values -/

section Spread

variable {qmax : ℤ} {gx : ℕ → ℚ}

/-- The step of a group. -/
def step (qmax : ℤ) (gx : ℕ → ℚ) : ℚ := (groupHi gx - groupLo gx) / qmax

theorem step_pos (hq : 0 < qmax) (h : groupHi gx ≠ groupLo gx) : 0 < step qmax gx := by
  have hlt : groupLo gx < groupHi gx := lt_of_le_of_ne (groupLo_le_groupHi gx) h.symm
  have hq' : (0 : ℚ) < qmax := by exact_mod_cast hq
  exact div_pos (by linarith) hq'

/-- The highest value, in steps. -/
theorem groupHi_div_step (hq : 0 < qmax) (h : groupHi gx ≠ groupLo gx) :
    groupHi gx / step qmax gx = qmax - -groupLo gx / step qmax gx := by
  have hs := step_pos hq h
  have hq' : (qmax : ℚ) ≠ 0 := by exact_mod_cast hq.ne'
  have hspan : groupHi gx - groupLo gx = qmax * step qmax gx := by
    rw [step]
    field_simp
  have : groupHi gx = qmax * step qmax gx + groupLo gx := by linarith
  rw [this]
  field_simp
  ring

/-- A value is between the ends, in steps. -/
theorem value_div_step (hq : 0 < qmax) (h : groupHi gx ≠ groupLo gx) {i : ℕ} (hi : i < 64) :
    -(-groupLo gx / step qmax gx) ≤ gx i / step qmax gx ∧
      gx i / step qmax gx ≤ qmax - -groupLo gx / step qmax gx := by
  have hs := step_pos hq h
  rw [← groupHi_div_step hq h, neg_div, neg_neg]
  exact ⟨div_le_div_of_nonneg_right ((groupLo_spec gx).1 i hi) hs.le,
    div_le_div_of_nonneg_right ((groupHi_spec gx).1 i hi) hs.le⟩

/-- Zero is near, in steps. -/
theorem zeroNear_iff (hq : 0 < qmax) (h : groupHi gx ≠ groupLo gx) :
    ZeroNear qmax gx ↔ -1 ≤ -groupLo gx / step qmax gx ∧
      -groupLo gx / step qmax gx ≤ qmax + 1 := by
  have hs := step_pos hq h
  have hq' : (0 : ℚ) < qmax := by exact_mod_cast hq
  have hspan : qmax * step qmax gx = groupHi gx - groupLo gx := by
    rw [step]
    field_simp
  rw [le_div_iff₀ hs, div_le_iff₀ hs, ZeroNear]
  constructor
  · rintro ⟨hlo, hhi⟩
    constructor <;> nlinarith
  · rintro ⟨hlo, hhi⟩
    constructor <;> nlinarith

theorem groupScale_spread (R : Nearest) (h : groupHi gx ≠ groupLo gx) :
    groupScale R qmax gx =
      (step qmax gx, clamped qmax (R.round (-groupLo gx / step qmax gx))) := by
  rw [groupScale]
  simp only [ne_eq, h, not_false_eq_true, if_true]
  rfl

theorem inverse_mul {s v : ℚ} (hs : s ≠ 0) : v * inverse s = v / s := by
  rw [inverse, if_pos hs, mul_one_div]

/-- A value off by some steps. -/
theorem error_div_step {s q z v : ℚ} (hs : 0 < s) :
    |(q - z) * s - v| = |q - (v / s + z)| * s := by
  have hmul : (q - z) * s - v = (q - (v / s + z)) * s := by
    field_simp
    ring
  rw [hmul, abs_mul, abs_of_pos hs]

theorem stepBounded_spread (R : Nearest) (hq : 0 < qmax) (h : groupHi gx ≠ groupLo gx) :
    StepBounded R qmax gx ↔ ∀ i < 64,
      |(clamped qmax (R.round (gx i / step qmax gx +
          clamped qmax (R.round (-groupLo gx / step qmax gx)))) : ℚ) -
        (gx i / step qmax gx + clamped qmax (R.round (-groupLo gx / step qmax gx)))| ≤ 1 := by
  have hs := step_pos hq h
  refine forall₂_congr fun i _ => ?_
  simp only [asymGroup, groupScale_spread R h]
  rw [error_div_step hs, inverse_mul hs.ne', mul_le_iff_le_one_left hs]

/-- Where zero is near, every value comes back and every argument is small. -/
theorem bounded_of_zeroNear (R : Nearest) (hq : 0 < qmax) (hsmall : qmax < 4194303)
    (h : groupHi gx ≠ groupLo gx) (hnear : ZeroNear qmax gx) :
    StepBounded R qmax gx ∧ ArgsInRange R qmax gx := by
  obtain ⟨hlo, hhi⟩ := (zeroNear_iff hq h).mp hnear
  have hq' : (0 : ℚ) < qmax := by exact_mod_cast hq
  have hsmall' : (qmax : ℚ) + 1 ≤ 4194303 := by exact_mod_cast hsmall
  have hvalue (i : ℕ) (hi : i < 64) := scaled_error R hq.le hlo hhi
    (value_div_step hq h hi).1 (value_div_step hq h hi).2
  refine ⟨(stepBounded_spread R hq h).mpr fun i hi => (hvalue i hi).1, fun a ha => ?_⟩
  rw [nearestIntArgs, if_pos h] at ha
  rcases List.mem_append.mp ha with ha | ha
  · rw [List.mem_singleton.mp ha, ← step, abs_le]
    constructor <;> linarith
  · obtain ⟨i, hi, rfl⟩ := List.mem_map.mp ha
    rw [groupScale_spread R h, inverse_mul (step_pos hq h).ne']
    exact (hvalue i (List.mem_range.mp hi)).2.trans hsmall'

/-- Where zero is not near, one of the ends is off by more than a step. -/
theorem not_stepBounded (R : Nearest) (hq : 0 < qmax) (h : groupHi gx ≠ groupLo gx)
    (hfar : ¬ ZeroNear qmax gx) : ¬ StepBounded R qmax gx := by
  rw [stepBounded_spread R hq h]
  rw [zeroNear_iff hq h] at hfar
  intro hall
  rcases lt_or_ge (-groupLo gx / step qmax gx) (-1) with habove | hlo
  · obtain ⟨i, hi, heq⟩ := (groupHi_spec gx).2
    have hbad := above_error R hq.le habove
    rw [← groupHi_div_step hq h, heq] at hbad
    exact absurd (hall i hi) (not_le.mpr hbad)
  · obtain ⟨i, hi, heq⟩ := (groupLo_spec gx).2
    have hbad := below_error R hq.le (not_le.mp fun hhi => hfar ⟨hlo, hhi⟩)
    have hneg : -(-groupLo gx / step qmax gx) = gx i / step qmax gx := by
      rw [neg_div, neg_neg, ← heq]
    rw [hneg] at hbad
    exact absurd (hall i hi) (not_le.mpr hbad)

end Spread

/-! ## Groups of one value -/

/-- A group of one value comes back as it is. -/
theorem bounded_of_constant (R : Nearest) {qmax : ℤ} (hq : 0 < qmax) (hsmall : qmax < 4194303)
    {gx : ℕ → ℚ} (h : ∀ i < 64, gx i = gx 0) :
    StepBounded R qmax gx ∧ ArgsInRange R qmax gx := by
  have hone := (constant_iff gx).mp h
  have hhi : groupHi gx = gx 0 := groupHi_of (fun i hi => (h i hi).le) (by omega : 0 < 64) rfl
  have hq' : (0 : ℚ) < qmax := by exact_mod_cast hq
  -- what the scale and the zero point make of the value
  have hmade : 0 < (groupScale R qmax gx).1 ∧ ∃ n : ℤ, 0 ≤ n ∧ n ≤ qmax ∧
      gx 0 * inverse (groupScale R qmax gx).1 + (groupScale R qmax gx).2 = n := by
    rw [groupScale]
    simp only [ne_eq, hone, not_true_eq_false, if_false]
    rw [← hone, hhi]
    rcases lt_trichotomy (gx 0) 0 with hneg | hzero | hpos
    · have hs : 0 < |gx 0| / qmax := div_pos (abs_pos.mpr hneg.ne) hq'
      refine ⟨by simpa [hneg.ne] using hs, 0, le_rfl, hq.le, ?_⟩
      simp only [hneg.ne, not_false_eq_true, if_true, if_neg (not_lt.mpr hneg.le)]
      have hne : gx 0 ≠ 0 := hneg.ne
      rw [inverse_mul hs.ne', abs_of_neg hneg]
      field_simp
      simp
    · refine ⟨by simp [hzero], 0, le_rfl, hq.le, ?_⟩
      simp [hzero]
    · have hs : 0 < |gx 0| / qmax := div_pos (abs_pos.mpr hpos.ne') hq'
      refine ⟨by simpa [hpos.ne'] using hs, qmax, hq.le, le_rfl, ?_⟩
      simp only [hpos.ne', not_false_eq_true, if_true, if_pos hpos]
      rw [inverse_mul hs.ne', abs_of_pos hpos]
      field_simp
      simp
  obtain ⟨hs, n, hn, hle, hsum⟩ := hmade
  refine ⟨fun i hi => ?_, fun a ha => ?_⟩
  · simp only [asymGroup]
    rw [h i hi, hsum, R.intCast, clamped_of_mem hn hle, error_div_step hs, ← inverse_mul hs.ne',
      hsum, sub_self, abs_zero, zero_mul]
    exact hs.le
  · rw [nearestIntArgs, if_neg (not_not.mpr hone), List.nil_append] at ha
    obtain ⟨i, hi, rfl⟩ := List.mem_map.mp ha
    rw [h i (List.mem_range.mp hi), hsum, abs_le]
    have hn' : (0 : ℚ) ≤ n := by exact_mod_cast hn
    have hle' : (n : ℚ) ≤ 4194303 := by exact_mod_cast hle.trans hsmall.le
    constructor <;> linarith

/-! ## All groups -/

/-- The groups of a block whose values come back to within a step and whose arguments are in
range: those of one value and those with zero at most one step outside of the values. -/
theorem asymGroup_bounded_iff (t : AsymType) (R : Nearest) (gx : ℕ → ℚ) :
    (StepBounded R t.qmax gx ∧ ArgsInRange R t.qmax gx) ↔
      (∀ i < 64, gx i = gx 0) ∨ ZeroNear t.qmax gx := by
  have hq : 0 < (t.qmax : ℤ) := by cases t <;> decide
  have hsmall : (t.qmax : ℤ) < 4194303 := by cases t <;> decide
  constructor
  · rintro ⟨hstep, -⟩
    by_contra hnot
    rw [not_or, constant_iff] at hnot
    exact not_stepBounded R hq hnot.1 hnot.2 hstep
  · intro h
    by_cases hone : ∀ i < 64, gx i = gx 0
    · exact bounded_of_constant R hq hsmall hone
    · refine bounded_of_zeroNear R hq hsmall (fun heq => hone ((constant_iff gx).mpr heq)) ?_
      exact h.resolve_left hone

/-- Values from `lo` to `hi`, without zero. -/
def awayFromZero (lo hi : ℚ) (i : ℕ) : ℚ := if i = 0 then hi else lo

theorem awayFromZero_ends (lo hi : ℚ) (h : lo ≤ hi) :
    groupLo (awayFromZero lo hi) = lo ∧ groupHi (awayFromZero lo hi) = hi := by
  constructor
  · refine groupLo_eq (fun i _ => ?_) (by omega : 1 < 64) rfl
    unfold awayFromZero
    split
    · exact h
    · exact le_rfl
  · refine groupHi_of (fun i _ => ?_) (by omega : 0 < 64) rfl
    unfold awayFromZero
    split
    · exact le_rfl
    · exact h

/-- Values from 10 to 17 are off by more than a step, and for values from 1000000 to 1000001
an argument is out of range. -/
theorem asymGroup_notBounded :
    ¬ StepBounded .halfUp AsymType.q3K.qmax (awayFromZero 10 17) ∧
      ¬ ArgsInRange .halfUp AsymType.q3K.qmax (awayFromZero 1000000 1000001) := by
  constructor
  · obtain ⟨hlo, hhi⟩ := awayFromZero_ends 10 17 (by norm_num)
    refine not_stepBounded _ (by decide) (by rw [hlo, hhi]; norm_num) fun hnear => ?_
    have := hnear.1
    rw [hlo, hhi] at this
    norm_num [AsymType.qmax] at this
  · obtain ⟨hlo, hhi⟩ := awayFromZero_ends 1000000 1000001 (by norm_num)
    intro hall
    have hmem : (-7000000 : ℚ) ∈
        nearestIntArgs .halfUp AsymType.q3K.qmax (awayFromZero 1000000 1000001) := by
      rw [nearestIntArgs, hlo, hhi, if_pos (by norm_num)]
      refine List.mem_append_left _ (List.mem_singleton.mpr ?_)
      norm_num [AsymType.qmax]
    have := hall _ hmem
    norm_num at this

end Sf37.Quantize

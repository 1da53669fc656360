/-
Sf37.Image.Sizes — the sizes an image is given before it is cut into patches.

The quotients that the source takes as doubles are rationals here.

* `le_cropSide_iff`: a side is as long as the window after the crop size was chosen if it was
  before.
* `preprocess_oblong_iff`, `padding_oblong_iff`: neither padding nor scaling down makes an
  oblong image, or changes one.
-/
import Sf37.Run.Windows

namespace Sf37.Image

/-! ## The sizes of the source -/

/-- `SF37_IMAGE_MAIN_SIZE`. -/
def mainSize : Nat := 728

/-- `SF37_IMAGE_PATCH_SIZE`. -/
def patchSize : Nat := 504

/-- `SF37_IMAGE_MAX_SIZE`. -/
def maxSize : Nat := 3024

/-- `determine_window_size`. -/
def determineWindowSize (longSide shortSide : Nat) : Nat :=
  if shortSide = 0 then 0
  else
    let ratio : ℚ := longSide / shortSide
    if longSide ≤ mainSize then
      if ratio > 3 / 2 then shortSide else 0
    else if ratio > 4 then
      if shortSide < patchSize then shortSide else patchSize
    else patchSize

/-- `get_size_for_padding`. -/
def getSizeForPadding (w h : Nat) : Nat × Nat :=
  let ratio : ℚ := if h ≠ 0 then w / h else 1
  if (w < 32 ∨ h < 32) ∧ (ratio > 4 ∨ ratio < 1 / 4) then
    let size := if w > h then w else h
    (size, size)
  else (w, h)

/-- `get_size_for_preprocess`. -/
def getSizeForPreprocess (w h : Nat) : Nat × Nat :=
  let maxSide := if w > h then w else h
  if maxSide > maxSize then
    let scale : ℚ := maxSize / maxSide
    let w := ⌊(w : ℚ) * scale⌋₊
    let h := ⌊(h : ℚ) * scale⌋₊
    (if w = 0 then 1 else w, if h = 0 then 1 else h)
  else (w, h)

/-- One side of `get_size_for_crop`. -/
def cropSide (w window : Nat) : Nat :=
  let wr : ℚ := w / window
  if wr < 1 then w
  else
    let dec : ℚ := wr - (w / window : Nat)
    let n := ⌊wr⌋₊ + if dec > 1 / 5 then 1 else 0
    window * n

/-- `get_size_for_crop`. -/
def getSizeForCrop (w h window : Nat) : Nat × Nat :=
  if window = 0 then (w, h) else (cropSide w window, cropSide h window)

/-! ## What they come to -/

variable {w h window : Nat}

theorem cropSide_of_lt (hlt : w < window) : cropSide w window = w := by
  have hwindow : (0 : ℚ) < window := by exact_mod_cast Nat.zero_lt_of_lt hlt
  have hratio : (w : ℚ) / window < 1 := by
    rw [div_lt_one hwindow]
    exact_mod_cast hlt
  simp only [cropSide, if_pos hratio]

/-- A side that is as long as the window stays so. -/
theorem le_cropSide (hpos : 0 < window) (hle : window ≤ w) : window ≤ cropSide w window := by
  have hwindow : (0 : ℚ) < window := by exact_mod_cast hpos
  have hratio : 1 ≤ (w : ℚ) / window := by
    rw [one_le_div hwindow]
    exact_mod_cast hle
  have hfloor : 1 ≤ ⌊(w : ℚ) / window⌋₊ := Nat.le_floor (by simpa using hratio)
  simp only [cropSide, if_neg (not_lt.mpr hratio)]
  exact Nat.le_mul_of_pos_right window (by omega)

theorem le_cropSide_iff (hpos : 0 < window) : window ≤ cropSide w window ↔ window ≤ w := by
  constructor
  · intro h
    by_contra hlt
    rw [cropSide_of_lt (Nat.lt_of_not_le hlt)] at h
    exact hlt h
  · exact le_cropSide hpos

theorem ratio_gt_iff {a b k : Nat} (hb : 0 < b) : (a : ℚ) / b > k ↔ k * b < a := by
  have hb' : (0 : ℚ) < b := by exact_mod_cast hb
  rw [gt_iff_lt, lt_div_iff₀ hb']
  exact_mod_cast Iff.rfl

/-- A long image that is lower than a patch and not very flat. -/
def Oblong (w h : Nat) : Prop :=
  mainSize < max w h ∧ max w h ≤ 4 * min w h ∧ min w h < patchSize

instance (w h : Nat) : Decidable (Oblong w h) := by
  unfold Oblong
  infer_instance

/-- Of these alone the window is longer than the short side. -/
theorem determineWindowSize_le_iff (hpos : 0 < min w h) :
    determineWindowSize (max w h) (min w h) ≤ min w h ↔ ¬ Oblong w h := by
  have hfour : ((max w h : Nat) : ℚ) / (min w h : Nat) > 4 ↔ 4 * min w h < max w h :=
    ratio_gt_iff (k := 4) hpos
  have hsmaller : (if min w h < patchSize then min w h else patchSize) ≤ min w h := by
    split <;> omega
  simp only [determineWindowSize, Oblong, hfour, if_neg (Nat.ne_of_gt hpos)]
  split_ifs <;> omega

theorem oblong_le_maxSize (h' : Oblong w h) : max w h ≤ maxSize := by
  simp only [Oblong, patchSize, maxSize] at *
  omega

/-- The long side of an image that is scaled down. -/
theorem floor_scale_self {m : Nat} (hpos : 0 < m) :
    ⌊(m : ℚ) * ((maxSize : ℚ) / m)⌋₊ = maxSize := by
  have hm : (m : ℚ) ≠ 0 := by exact_mod_cast Nat.ne_of_gt hpos
  rw [mul_div_cancel₀ _ hm, Nat.floor_natCast]

theorem floor_scale_le {m a : Nat} (ha : a ≤ m) :
    ⌊(a : ℚ) * ((maxSize : ℚ) / m)⌋₊ ≤ maxSize := by
  rcases Nat.eq_zero_or_pos m with rfl | hpos
  · simp
  have hscaled : (a : ℚ) * ((maxSize : ℚ) / m) ≤ (m : ℚ) * ((maxSize : ℚ) / m) :=
    mul_le_mul_of_nonneg_right (by exact_mod_cast ha) (by positivity)
  exact (Nat.floor_mono hscaled).trans (floor_scale_self hpos).le

theorem getSizeForPreprocess_max (hlong : maxSize < max w h) :
    max (getSizeForPreprocess w h).1 (getSizeForPreprocess w h).2 = maxSize := by
  have hside : (if w > h then w else h) = max w h := by
    split_ifs <;> omega
  have hpos : 0 < max w h := Nat.lt_of_le_of_lt (Nat.zero_le _) hlong
  have hw := floor_scale_le (Nat.le_max_left w h)
  have hh := floor_scale_le (Nat.le_max_right w h)
  have hself := floor_scale_self hpos
  have hmax : maxSize = 3024 := rfl
  simp only [getSizeForPreprocess, hside, if_pos hlong]
  rcases Nat.le_total h w with hle | hle
  · rw [Nat.max_eq_left hle] at hw hh hself ⊢
    split_ifs <;> omega
  · rw [Nat.max_eq_right hle] at hw hh hself ⊢
    split_ifs <;> omega

theorem getSizeForPreprocess_of_le (hle : max w h ≤ maxSize) :
    getSizeForPreprocess w h = (w, h) := by
  have hside : (if w > h then w else h) = max w h := by
    split_ifs <;> omega
  simp only [getSizeForPreprocess, hside, if_neg (not_lt.mpr hle)]

/-- Scaling down neither makes an oblong image nor changes one. -/
theorem preprocess_oblong_iff :
    Oblong (getSizeForPreprocess w h).1 (getSizeForPreprocess w h).2 ↔ Oblong w h := by
  rcases Nat.lt_or_ge maxSize (max w h) with hlt | hle
  · constructor
    · intro hob
      have hmax := getSizeForPreprocess_max hlt
      simp only [Oblong, hmax, patchSize, maxSize] at hob
      omega
    · intro hob
      exact absurd (oblong_le_maxSize hob) (Nat.not_le.mpr hlt)
  · rw [getSizeForPreprocess_of_le hle]

theorem ratio_lt_quarter_iff (hh : 0 < h) : (w : ℚ) / h < 1 / 4 ↔ 4 * w < h := by
  have hh' : (0 : ℚ) < h := by exact_mod_cast hh
  rw [div_lt_div_iff₀ hh' (by norm_num), one_mul, mul_comm]
  exact_mod_cast Iff.rfl

/-- Nor does padding. -/
theorem padding_oblong_iff (hh : 0 < h) :
    Oblong (getSizeForPadding w h).1 (getSizeForPadding w h).2 ↔ Oblong w h := by
  have hfour : (w : ℚ) / h > 4 ↔ 4 * h < w := ratio_gt_iff (k := 4) hh
  have hquarter : (w : ℚ) / h < 1 / 4 ↔ 4 * w < h := ratio_lt_quarter_iff hh
  simp only [getSizeForPadding, if_pos (Nat.ne_of_gt hh), hfour, hquarter]
  split
  next hflat =>
    simp only [Oblong, mainSize, patchSize]
    split_ifs <;> omega
  next => rfl

/-- A padded image is as it was, or a square as long as its long side. -/
theorem getSizeForPadding_cases (w h : Nat) :
    getSizeForPadding w h = (w, h) ∨
      getSizeForPadding w h = (if w > h then w else h, if w > h then w else h) := by
  simp only [getSizeForPadding]
  split_ifs <;> simp

/-- What is padded is no longer flat. -/
theorem getSizeForPadding_not_flat (hh : 0 < h) :
    ¬ (min (getSizeForPadding w h).1 (getSizeForPadding w h).2 = 1 ∧
      4 < max (getSizeForPadding w h).1 (getSizeForPadding w h).2) := by
  have hfour : (w : ℚ) / h > 4 ↔ 4 * h < w := ratio_gt_iff (k := 4) hh
  have hquarter : (w : ℚ) / h < 1 / 4 ↔ 4 * w < h := ratio_lt_quarter_iff hh
  simp only [getSizeForPadding, if_pos (Nat.ne_of_gt hh), hfour, hquarter]
  split_ifs <;> omega

/-- A side that was scaled down. -/
def scaled (m a : Nat) : Nat :=
  if ⌊(a : ℚ) * ((maxSize : ℚ) / m)⌋₊ = 0 then 1 else ⌊(a : ℚ) * ((maxSize : ℚ) / m)⌋₊

theorem scaled_self {m : Nat} (hpos : 0 < m) : scaled m m = maxSize := by
  rw [scaled, floor_scale_self hpos, if_neg (by decide)]

theorem getSizeForPreprocess_of_gt (hlong : maxSize < max w h) :
    getSizeForPreprocess w h = (scaled (max w h) w, scaled (max w h) h) := by
  have hside : (if w > h then w else h) = max w h := by
    split_ifs <;> omega
  simp only [getSizeForPreprocess, hside, if_pos hlong, scaled]

theorem scaled_le {m a : Nat} (ha : a ≤ m) : scaled m a ≤ maxSize := by
  have hfloor := floor_scale_le ha
  have hmax : maxSize = 3024 := rfl
  unfold scaled
  split_ifs <;> omega

/-- A shorter side gets shorter, unless it is a single row. -/
theorem scaled_lt {m a : Nat} (hm : maxSize < m) (ha : 1 < a) : scaled m a < a := by
  have ha' : (0 : ℚ) < a := by exact_mod_cast Nat.zero_lt_of_lt ha
  have hm' : (maxSize : ℚ) < m := by exact_mod_cast hm
  have hfloor : ⌊(a : ℚ) * ((maxSize : ℚ) / m)⌋₊ < a := by
    rw [Nat.floor_lt' (by omega)]
    have hratio : (maxSize : ℚ) / m < 1 := by
      rw [div_lt_one (lt_of_le_of_lt (Nat.cast_nonneg _) hm')]
      exact hm'
    exact mul_lt_of_lt_one_right ha' hratio
  unfold scaled
  split_ifs <;> omega

theorem cropSide_self (hpos : 0 < window) : cropSide window window = window := by
  have hwindow : (window : ℚ) ≠ 0 := by exact_mod_cast Nat.ne_of_gt hpos
  norm_num [cropSide, div_self hwindow, Nat.div_self hpos]

theorem cropSide_maxSize : cropSide maxSize patchSize = maxSize := by
  have hratio : ((maxSize : Nat) : ℚ) / (patchSize : Nat) = 6 := by norm_num [maxSize, patchSize]
  have hfloor : ⌊(6 : ℚ)⌋₊ = 6 := by norm_num
  have hdiv : maxSize / patchSize = 6 := rfl
  simp only [cropSide, hratio, hdiv, hfloor]
  norm_num [maxSize, patchSize]

/-- The window of an image that was scaled down: the length of a patch, or its short side. -/
theorem determineWindowSize_scaled (h : Nat) :
    determineWindowSize maxSize h = patchSize ∨ determineWindowSize maxSize h = h := by
  have hlong : ¬ maxSize ≤ mainSize := by decide
  simp only [determineWindowSize, if_neg hlong]
  split_ifs <;> omega

/-- An image that is scaled down is scaled up again, or its crop is of another size. -/
theorem crop_ne_of_scaled {m a : Nat} (hm : maxSize < m) (ha : 1 < a) :
    let window := determineWindowSize maxSize (scaled m a)
    cropSide maxSize window ≠ m ∨ cropSide (scaled m a) window ≠ a := by
  intro window
  have hpos : 0 < scaled m a := by
    unfold scaled
    split_ifs <;> omega
  rcases determineWindowSize_scaled (scaled m a) with hw | hw
  · refine Or.inl ?_
    simp only [window, hw, cropSide_maxSize]
    omega
  · refine Or.inr ?_
    have hlt := scaled_lt hm ha
    simp only [window, hw, cropSide_self hpos]
    omega

/-! ## Nothing vanishes -/

theorem getSizeForPadding_pos (hw : 0 < w) (hh : 0 < h) :
    0 < (getSizeForPadding w h).1 ∧ 0 < (getSizeForPadding w h).2 := by
  simp only [getSizeForPadding]
  split_ifs <;> exact ⟨by omega, by omega⟩

theorem getSizeForPreprocess_pos (hw : 0 < w) (hh : 0 < h) :
    0 < (getSizeForPreprocess w h).1 ∧ 0 < (getSizeForPreprocess w h).2 := by
  simp only [getSizeForPreprocess]
  split_ifs <;> exact ⟨by omega, by omega⟩

theorem getSizeForCrop_pos (hw : 0 < w) (hh : 0 < h) :
    0 < (getSizeForCrop w h window).1 ∧ 0 < (getSizeForCrop w h window).2 := by
  have hside : ∀ a, 0 < a → 0 < window → 0 < cropSide a window := by
    intro a ha hpos
    rcases Nat.lt_or_ge a window with hlt | hge
    · rwa [cropSide_of_lt hlt]
    · exact Nat.lt_of_lt_of_le hpos (le_cropSide hpos hge)
  unfold getSizeForCrop
  split
  next => exact ⟨hw, hh⟩
  next hne => exact ⟨hside w hw (Nat.pos_of_ne_zero hne), hside h hh (Nat.pos_of_ne_zero hne)⟩

end Sf37.Image

/-
Sf37.Image.CutWithin — which images are cut inside their bounds.

A side that is shorter than the window is left as it is and counted as one patch, but the patch
is as high and as wide as the window. So the images that are long, lower than a patch and not
very flat cannot be cut; all others can.

* `fits_iff_not_oblong`: where the window is no longer than the sides of the crop source.
* `cutWithin_iff`: with every allocation succeeding, these are the images that are added.
-/
import Sf37.Image.AddSource

namespace Sf37.Image

variable {F : Type} {m : PixelMath F} {b : Batch F} {decoded : ImageU8}

/-! ## The window and the crop source -/

theorem oblong_prepSize_iff (decoded : ImageU8) :
    Oblong (prepSize decoded).1 (prepSize decoded).2 ↔ Oblong decoded.w decoded.h := by
  rw [prepSize, preprocess_oblong_iff, padSize, padding_oblong_iff decoded.h_pos]

theorem prepSize_pos (decoded : ImageU8) : 0 < (prepSize decoded).1 ∧ 0 < (prepSize decoded).2 := by
  obtain ⟨hw, hh⟩ := getSizeForPadding_pos decoded.w_pos decoded.h_pos
  exact getSizeForPreprocess_pos hw hh

/-- An image that is cut lies under its window exactly when it is oblong. -/
theorem fits_iff_not_oblong (hwindow : (imageCut decoded).window ≠ 0) :
    ((imageCut decoded).window ≤ (imageCut decoded).cropW ∧
      (imageCut decoded).window ≤ (imageCut decoded).cropH) ↔ ¬ Oblong decoded.w decoded.h := by
  obtain ⟨hw, hh⟩ := prepSize_pos decoded
  obtain ⟨hcropW, hcropH⟩ := cutOf_crop hwindow
  have hpos := Nat.pos_of_ne_zero hwindow
  have hmin : (imageCut decoded).window =
      determineWindowSize (max (prepSize decoded).1 (prepSize decoded).2)
        (min (prepSize decoded).1 (prepSize decoded).2) := by
    rw [imageCut, cutOf_eq]
  have hle := determineWindowSize_le_iff (w := (prepSize decoded).1) (h := (prepSize decoded).2)
    (Nat.lt_min.mpr ⟨hw, hh⟩)
  rw [← hmin, oblong_prepSize_iff, Nat.le_min] at hle
  rw [imageCut] at hpos hle ⊢
  rw [hcropW, hcropH, le_cropSide_iff hpos, le_cropSide_iff hpos]
  exact hle

/-- An oblong image is cut. -/
theorem window_ne_zero_of_oblong (h : Oblong decoded.w decoded.h) :
    (imageCut decoded).window ≠ 0 := by
  obtain ⟨hw, hh⟩ := prepSize_pos decoded
  have hob := (oblong_prepSize_iff decoded).mpr h
  have hle := determineWindowSize_le_iff (w := (prepSize decoded).1) (h := (prepSize decoded).2)
    (Nat.lt_min.mpr ⟨hw, hh⟩)
  rw [imageCut, cutOf_eq]
  dsimp only
  intro hzero
  rw [hzero] at hle
  exact hle.mp (Nat.zero_le _) hob

/-! ## With every allocation succeeding -/

/-- Every allocation succeeds. -/
def Allocs.all : Allocs where
  pad := true
  resize := true
  pixelValues := true
  patchesPerImage := true
  cropSource := true
  crop := fun _ => true
  patchFloats := fun _ => true
  patchPixelValues := fun _ => true
  patchNewlineMask := fun _ => true
  mainFloats := true

theorem prepares_all (b : Batch F) (decoded : ImageU8) : Prepares .all b decoded :=
  ⟨Or.inr rfl, Or.inr rfl, Or.inr ⟨rfl, rfl⟩⟩

theorem patchesAllocated_all (cells : List (Nat × Nat)) (cap patches : Nat) :
    PatchesAllocated .all cells cap patches := by
  induction cells generalizing cap patches with
  | nil =>
    unfold PatchesAllocated
    trivial
  | cons cell cells ih =>
    unfold PatchesAllocated
    exact ⟨⟨rfl, rfl, Or.inr ⟨rfl, rfl⟩⟩, ih _ _⟩

/-- The image that the patches of a decoded image are cut from, if it is cut. -/
def cropSourceOf (m : PixelMath F) (a : Allocs) (decoded : ImageU8) : Option ImageU8 :=
  (padded a decoded).bind fun base =>
    (prepared m a base).bind fun img =>
      if (cutOf img.w img.h).window = 0 then none
      else cropSource m a (cutOf img.w img.h) base img

/-- A patch covers a pixel. -/
def Cut.Covers (c : Cut) (cell : Nat × Nat) (y x : Nat) : Prop :=
  (c.y cell.1 ≤ y ∧ y < c.y cell.1 + c.window) ∧ c.x cell.2 ≤ x ∧ x < c.x cell.2 + c.window

/-- A decoded image is added, and what it is cut from lies under its patches: each inside it, as
many as there are rows and columns, and no pixel left out. -/
structure CutWithin (m : PixelMath F) (b : Batch F) (decoded : ImageU8) : Prop where
  succeeds : (processSourceImage m .all b decoded).1 = true
  patches : (processSourceImage m .all b decoded).2.patchImages =
    b.patchImages + if (imageCut decoded).window = 0 then 0
      else (imageCut decoded).xNum * (imageCut decoded).yNum
  within : (imageCut decoded).window ≠ 0 →
    ∃ src, cropSourceOf m .all decoded = some src ∧
      (∀ cell ∈ (imageCut decoded).cells, (imageCut decoded).Inside src cell) ∧
      ∀ y < src.h, ∀ x < src.w, ∃ cell ∈ (imageCut decoded).cells,
        (imageCut decoded).Covers cell y x

/-- The crop source has the size it was cut for. -/
theorem cropSourceOf_all (m : PixelMath F) (hwindow : (imageCut decoded).window ≠ 0) :
    ∃ src, cropSourceOf m .all decoded = some src ∧ src.w = (imageCut decoded).cropW ∧
      src.h = (imageCut decoded).cropH := by
  obtain ⟨hpadNone, hpadSome⟩ := padded_cases .all decoded
  obtain ⟨base, hpad⟩ := Option.ne_none_iff_exists'.mp (mt hpadNone.mp (by simp [Allocs.all]))
  obtain ⟨hprepNone, hprepSome⟩ := prepared_cases m .all base
  obtain ⟨img, hprep⟩ := Option.ne_none_iff_exists'.mp (mt hprepNone.mp (by simp [Allocs.all]))
  obtain ⟨hbw, hbh⟩ := hpadSome base hpad
  obtain ⟨hiw, hih⟩ := hprepSome img hprep
  have hcut : cutOf img.w img.h = imageCut decoded := by
    rw [imageCut, prepSize, padSize, ← hbw, ← hbh, hiw, hih]
  have hflat : ¬ (min base.w base.h = 1 ∧ 4 < max base.w base.h) := by
    rw [hbw, hbh]
    exact getSizeForPadding_not_flat decoded.h_pos
  rw [← hcut] at hwindow ⊢
  obtain ⟨hsrcNone, hsrcSome⟩ := cropSource_cases m .all hiw hih hflat hwindow
  obtain ⟨src, hsrc⟩ := Option.ne_none_iff_exists'.mp (mt hsrcNone.mp (by simp [Allocs.all]))
  refine ⟨src, ?_, hsrcSome src hsrc⟩
  simp only [cropSourceOf, hpad, Option.bind_some, hprep, if_neg hwindow, hsrc]

/-- The patches reach every pixel of the crop source. -/
theorem Cut.exists_covers {c : Cut} (hwindow : c.window ≠ 0) {y x : Nat} (hy : y < c.cropH)
    (hx : x < c.cropW) : ∃ cell ∈ c.cells, c.Covers cell y x := by
  have hpos := Nat.pos_of_ne_zero hwindow
  obtain ⟨yy, hyy, hcoverY⟩ := Run.exists_window hpos hy
  obtain ⟨xx, hxx, hcoverX⟩ := Run.exists_window hpos hx
  exact ⟨(yy, xx), Cut.mem_cells.mpr ⟨hyy, hxx⟩, hcoverY, hcoverX⟩

theorem cutWithin_of_not_oblong (m : PixelMath F) (b : Batch F)
    (h : ¬ Oblong decoded.w decoded.h) : CutWithin m b decoded := by
  have hprepares := prepares_all b decoded
  have hcuts : (imageCut decoded).window ≠ 0 → Cuts .all decoded := fun hwindow =>
    ⟨Or.inr rfl, ((fits_iff_not_oblong hwindow).mpr h).1, ((fits_iff_not_oblong hwindow).mpr h).2⟩
  have hcompleted : Completed .all b decoded := ⟨patchesAllocated_all _ _ _, rfl⟩
  have hends : (processSourceImage m .all b decoded).1 = true ∧
      (processSourceImage m .all b decoded).2.patchImages =
        b.patchImages + if (imageCut decoded).window = 0 then 0
          else (imageCut decoded).xNum * (imageCut decoded).yNum := by
    have hout := processSourceImage_outcome m .all b decoded
    generalize processSourceImage m .all b decoded = r at hout ⊢
    obtain ⟨ok, b'⟩ := r
    cases hout with
    | unprepared hno => exact absurd hprepares hno
    | uncut _ hw hno _ => exact absurd (hcuts hw) hno
    | noFirst _ _ _ hno _ => exact absurd ⟨rfl, rfl, Or.inr ⟨rfl, rfl⟩⟩ hno
    | late _ _ _ _ hno _ _ => exact absurd hcompleted hno
    | noMain _ _ hno _ => nomatch hno
    | whole _ hw _ hadds => exact ⟨rfl, hadds.patchImages.trans (by rw [if_pos hw])⟩
    | cut _ hw _ _ hadds =>
      exact ⟨rfl, hadds.patchImages.trans (by rw [if_neg hw, Cut.length_cells])⟩
  refine ⟨hends.1, hends.2, fun hwindow => ?_⟩
  obtain ⟨src, hsrc, hsw, hsh⟩ := cropSourceOf_all m hwindow
  refine ⟨src, hsrc, ?_, fun y hy x hx => ?_⟩
  · exact Cut.inside_of_fits hsw hsh (hcuts hwindow).fitsW (hcuts hwindow).fitsH
  · exact Cut.exists_covers hwindow (hsh ▸ hy) (hsw ▸ hx)

theorem not_cutWithin_of_oblong (m : PixelMath F) (b : Batch F) (h : Oblong decoded.w decoded.h) :
    ¬ CutWithin m b decoded := by
  intro hcut
  have hwindow := window_ne_zero_of_oblong h
  have hno : ¬ Cuts .all decoded := fun hc =>
    (fits_iff_not_oblong hwindow).mp ⟨hc.fitsW, hc.fitsH⟩ h
  have hends : (processSourceImage m .all b decoded).1 = false := by
    have hout := processSourceImage_outcome m .all b decoded
    generalize processSourceImage m .all b decoded = r at hout ⊢
    obtain ⟨ok, b'⟩ := r
    cases hout with
    | whole _ hw _ _ => exact absurd hw hwindow
    | cut _ _ hc _ _ => exact absurd hc hno
    | _ => rfl
  rw [hcut.succeeds] at hends
  nomatch hends

/-- With every allocation succeeding an image is cut inside its bounds exactly when it is not
oblong: longer than 728, lower than 504, and no more than four times as long as it is low. -/
theorem cutWithin_iff (m : PixelMath F) (b : Batch F) (decoded : ImageU8) :
    CutWithin m b decoded ↔ ¬ Oblong decoded.w decoded.h :=
  ⟨fun hcut h => not_cutWithin_of_oblong m b h hcut, cutWithin_of_not_oblong m b⟩

/-- Pixel arithmetic that makes everything black. -/
def blackMath : PixelMath Nat := ⟨fun _ _ _ _ _ => (0, 0, 0), fun _ _ => []⟩

/-- A black image. -/
def blackImage (w h : Nat) (hw : 0 < w) (hh : 0 < h) : ImageU8 :=
  ⟨w, h, fun _ _ => (0, 0, 0), hw, hh⟩

/-- An image of 800 by 400 pixels is refused. -/
theorem not_cutWithin_800_400 :
    ¬ CutWithin blackMath .empty (blackImage 800 400 (by decide) (by decide)) :=
  not_cutWithin_of_oblong _ _ (by decide)

end Sf37.Image

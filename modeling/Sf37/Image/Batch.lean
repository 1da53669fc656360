/-
Sf37.Image.Batch — adding images to a batch.

A decoded image is padded, scaled down, cut into patches and normalized; the patches and the
image are appended to two arrays that grow by themselves. What the float code makes of the
pixels is a parameter, and so is which allocations of a call succeed.

* `padded_cases`, `prepared_cases`, `cropSource_cases`: the sizes an image is given on the way.
* `patchLoop_spec`: what the loop over the patches leaves.
-/
import Sf37.Image.Sizes

namespace Sf37.Image

/-! ## Images -/

/-- Three bytes of a pixel. -/
abbrev Rgb : Type := UInt8 × UInt8 × UInt8

/-- `image_u8`; `p` gives the pixel of a row and a column. -/
structure ImageU8 where
  w : Nat
  h : Nat
  p : Nat → Nat → Rgb
  w_pos : 0 < w
  h_pos : 0 < h

/-- `image_alloc`, and the pixels that are then written. `ok` says whether `malloc` succeeds. -/
def imageAlloc (ok : Bool) (w h : Nat) (p : Nat → Nat → Rgb) : Option ImageU8 :=
  if hs : 0 < w ∧ 0 < h then
    if ok then some ⟨w, h, p, hs.1, hs.2⟩ else none
  else none

/-- What the float code computes: the pixel of a resized image, and the normalized floats. -/
structure PixelMath (F : Type) where
  resampled : ImageU8 → Nat → Nat → Nat → Nat → Rgb
  normalized : ImageU8 → Nat → List F

variable {F : Type}

/-- `image_resize_bilinear`. -/
def imageResizeBilinear (m : PixelMath F) (ok : Bool) (src : ImageU8) (w h : Nat) :
    Option ImageU8 :=
  imageAlloc ok w h (m.resampled src w h)

/-- `image_crop`. -/
def imageCrop (ok : Bool) (src : ImageU8) (x y w h : Nat) : Option ImageU8 :=
  if src.w < x ∨ src.h < y ∨ src.w - x < w ∨ src.h - y < h then none
  else imageAlloc ok w h fun yy xx => src.p (y + yy) (x + xx)

/-- `image_square_pad_top_left`. -/
def imageSquarePadTopLeft (ok : Bool) (src : ImageU8) : Option ImageU8 :=
  let size := if src.w > src.h then src.w else src.h
  imageAlloc ok size size fun y x => if y < src.h ∧ x < src.w then src.p y x else (0, 0, 0)

/-- `image_to_normalized_nchw`. -/
def imageToNormalizedNchw (m : PixelMath F) (ok : Bool) (src : ImageU8) (outSize : Nat) :
    Option (List F) :=
  if outSize = 0 then none else if ok then some (m.normalized src outSize) else none

/-! ## The batch -/

/-- `sf37_image_batch`. The arrays are what their slots hold; `cap_patches_per_image` and
`cap_patch_newline_mask` are always the two capacities. -/
structure Batch (F : Type) where
  pixelValues : Nat → List F
  images : Nat
  capImages : Nat
  patchPixelValues : Nat → List F
  patchImages : Nat
  capPatchImages : Nat
  patchesPerImage : Nat → Nat
  patchNewlineMask : Nat → Bool

/-- A batch that was zeroed. -/
def Batch.empty : Batch F := ⟨fun _ => [], 0, 0, fun _ => [], 0, 0, fun _ => 0, fun _ => false⟩

/-- Which allocations of a call succeed, those of a patch by its row and column. -/
structure Allocs where
  pad : Bool
  resize : Bool
  pixelValues : Bool
  patchesPerImage : Bool
  cropSource : Bool
  crop : Nat × Nat → Bool
  patchFloats : Nat × Nat → Bool
  patchPixelValues : Nat × Nat → Bool
  patchNewlineMask : Nat × Nat → Bool
  mainFloats : Bool

/-- `while (cap < need) cap *= 2u`, in at most `fuel` turns. -/
def doubleUpTo (need : Nat) : Nat → Nat → Nat
  | 0, cap => cap
  | fuel + 1, cap => if cap < need then doubleUpTo need fuel (cap * 2) else cap

/-- The capacity that an array is grown to. -/
def grownCap (cap need : Nat) : Nat :=
  doubleUpTo need need (if cap ≠ 0 then cap * 2 else 1)

/-- `ensure_main_cap`. Where the second `realloc` fails the first array has been moved, which
its slots do not tell. -/
def ensureMainCap (a : Allocs) (b : Batch F) (need : Nat) : Option (Batch F) :=
  if need ≤ b.capImages then some b
  else if ¬ a.pixelValues then none
  else if ¬ a.patchesPerImage then none
  else some { b with capImages := grownCap b.capImages need }

/-- `ensure_patch_cap`, for the patch of a cell. -/
def ensurePatchCap (a : Allocs) (cell : Nat × Nat) (b : Batch F) (need : Nat) :
    Option (Batch F) :=
  if need ≤ b.capPatchImages then some b
  else if ¬ a.patchPixelValues cell then none
  else if ¬ a.patchNewlineMask cell then none
  else some { b with capPatchImages := grownCap b.capPatchImages need }

/-- `append_main_pixels`. -/
def appendMainPixels (a : Allocs) (b : Batch F) (pixels : List F) : Option (Batch F) :=
  (ensureMainCap a b (b.images + 1)).map fun b =>
    { b with
      pixelValues := Function.update b.pixelValues b.images pixels
      images := b.images + 1 }

/-- `append_patch_pixels`. -/
def appendPatchPixels (a : Allocs) (cell : Nat × Nat) (b : Batch F) (pixels : List F)
    (newline : Bool) : Option (Batch F) :=
  (ensurePatchCap a cell b (b.patchImages + 1)).map fun b =>
    { b with
      patchPixelValues := Function.update b.patchPixelValues b.patchImages pixels
      patchNewlineMask := Function.update b.patchNewlineMask b.patchImages newline
      patchImages := b.patchImages + 1 }

/-! ## One image -/

/-- The source of the patches and how it is cut. -/
structure Cut where
  window : Nat
  cropW : Nat
  cropH : Nat
  deriving DecidableEq, Repr

/-- `x_num`. -/
def Cut.xNum (c : Cut) : Nat := Run.windowCount c.cropW c.window

/-- `y_num`. -/
def Cut.yNum (c : Cut) : Nat := Run.windowCount c.cropH c.window

/-- The left edge of the patches of a column. -/
def Cut.x (c : Cut) (xx : Nat) : Nat := Run.windowStart c.cropW c.window xx

/-- The upper edge of the patches of a row. -/
def Cut.y (c : Cut) (yy : Nat) : Nat := Run.windowStart c.cropH c.window yy

/-- The cells in the order of the two loops, each a row and a column. -/
def Cut.cells (c : Cut) : List (Nat × Nat) :=
  (List.range c.yNum).flatMap fun yy => (List.range c.xNum).map fun xx => (yy, xx)

/-- The body of the two loops. -/
def appendPatch (m : PixelMath F) (a : Allocs) (c : Cut) (cropSrc : ImageU8) (b : Batch F)
    (cell : Nat × Nat) : Option (Batch F) :=
  match imageCrop (a.crop cell) cropSrc (c.x cell.2) (c.y cell.1) c.window c.window with
  | none => none
  | some patch =>
      match imageToNormalizedNchw m (a.patchFloats cell) patch patchSize with
      | none => none
      | some pf =>
          let newline := cell.2 + 1 = c.xNum ∧ ¬ cell.1 + 1 = c.yNum
          appendPatchPixels a cell b pf (decide newline)

/-- The two loops, with `patch_count`; they stop at the first failure. -/
def patchLoop (m : PixelMath F) (a : Allocs) (c : Cut) (cropSrc : ImageU8) :
    List (Nat × Nat) → Nat → Batch F → Bool × Nat × Batch F
  | [], patchCount, b => (true, patchCount, b)
  | cell :: cells, patchCount, b =>
      match appendPatch m a c cropSrc b cell with
      | none => (false, patchCount, b)
      | some b => patchLoop m a c cropSrc cells (patchCount + 1) b

/-- The padding of `process_source_image`. -/
def padded (a : Allocs) (decoded : ImageU8) : Option ImageU8 :=
  let pad := getSizeForPadding decoded.w decoded.h
  if pad.1 ≠ decoded.w ∨ pad.2 ≠ decoded.h then imageSquarePadTopLeft a.pad decoded
  else some decoded

/-- Its scaling down. -/
def prepared (m : PixelMath F) (a : Allocs) (img : ImageU8) : Option ImageU8 :=
  let prep := getSizeForPreprocess img.w img.h
  if prep.1 ≠ img.w ∨ prep.2 ≠ img.h then imageResizeBilinear m a.resize img prep.1 prep.2
  else some img

/-- How a prepared image is cut. -/
def cutOf (prepW prepH : Nat) : Cut :=
  let longSide := if prepW > prepH then prepW else prepH
  let shortSide := if prepW < prepH then prepW else prepH
  let window := determineWindowSize longSide shortSide
  let crop := getSizeForCrop prepW prepH window
  ⟨window, crop.1, crop.2⟩

/-- What it is cut from: `base` is the image before it was scaled down. -/
def cropSource (m : PixelMath F) (a : Allocs) (c : Cut) (base img : ImageU8) : Option ImageU8 :=
  if c.cropW ≠ base.w ∨ c.cropH ≠ base.h then
    imageResizeBilinear m a.cropSource img c.cropW c.cropH
  else some img

/-- The patches of a prepared image. -/
def appendPatches (m : PixelMath F) (a : Allocs) (c : Cut) (base img : ImageU8) (b : Batch F) :
    Bool × Nat × Batch F :=
  if c.window = 0 then (true, 0, b)
  else
    match cropSource m a c base img with
    | none => (false, 0, b)
    | some cropSrc => patchLoop m a c cropSrc c.cells 0 b

/-- `process_source_image`. -/
def processSourceImage (m : PixelMath F) (a : Allocs) (b : Batch F) (decoded : ImageU8) :
    Bool × Batch F :=
  match padded a decoded with
  | none => (false, b)
  | some base =>
      match prepared m a base with
      | none => (false, b)
      | some img =>
          let imageIndex := b.images
          match ensureMainCap a b (imageIndex + 1) with
          | none => (false, b)
          | some b =>
              match appendPatches m a (cutOf img.w img.h) base img b with
              | (false, _, b) => (false, b)
              | (true, patchCount, b) =>
                  match imageToNormalizedNchw m a.mainFloats img mainSize with
                  | none => (false, b)
                  | some mainPixels =>
                      match appendMainPixels a b mainPixels with
                      | none => (false, b)
                      | some b =>
                          (true, { b with patchesPerImage :=
                                     Function.update b.patchesPerImage imageIndex patchCount })

/-- A call: what `load_image_source_rgb` makes of the source, and the allocations after it. -/
structure Call where
  decoded : Option ImageU8
  allocs : Allocs

/-- `sf37_image_batch_add_source`, and whether it returns 0. -/
def addSource (m : PixelMath F) (b : Batch F) (c : Call) : Bool × Batch F :=
  match c.decoded with
  | none => (false, b)
  | some decoded => processSourceImage m c.allocs b decoded

/-! ## Images and their sizes -/

theorem imageAlloc_eq_some_iff {ok : Bool} {w h : Nat} {p : Nat → Nat → Rgb} {img : ImageU8} :
    imageAlloc ok w h p = some img ↔ ok = true ∧ img.w = w ∧ img.h = h ∧ img.p = p := by
  unfold imageAlloc
  constructor
  · intro h
    split at h
    · split at h
      next hok =>
        obtain rfl := Option.some.inj h
        exact ⟨hok, rfl, rfl, rfl⟩
      next => nomatch h
    · nomatch h
  · rintro ⟨hok, rfl, rfl, rfl⟩
    rw [dif_pos ⟨img.w_pos, img.h_pos⟩, if_pos hok]

theorem imageAlloc_eq_none_iff {ok : Bool} {w h : Nat} {p : Nat → Nat → Rgb} (hw : 0 < w)
    (hh : 0 < h) : imageAlloc ok w h p = none ↔ ok = false := by
  rw [imageAlloc, dif_pos ⟨hw, hh⟩]
  cases ok <;> simp

/-- An image that is given a size unless it has it. -/
theorem resized_cases {cond : Prop} [Decidable cond] {ok : Bool} {w h : Nat}
    {p : Nat → Nat → Rgb} {img : ImageU8} (hw : 0 < w) (hh : 0 < h)
    (hsame : ¬ cond → img.w = w ∧ img.h = h) :
    ((if cond then imageAlloc ok w h p else some img) = none ↔ cond ∧ ok = false) ∧
      ∀ out, (if cond then imageAlloc ok w h p else some img) = some out →
        out.w = w ∧ out.h = h := by
  by_cases hcond : cond
  · refine ⟨?_, fun out hout => ?_⟩
    · rw [if_pos hcond, imageAlloc_eq_none_iff hw hh]
      exact (and_iff_right hcond).symm
    · rw [if_pos hcond] at hout
      obtain ⟨-, how, hoh, -⟩ := imageAlloc_eq_some_iff.mp hout
      exact ⟨how, hoh⟩
  · refine ⟨?_, fun out hout => ?_⟩
    · rw [if_neg hcond]
      exact ⟨nofun, fun h => absurd h.1 hcond⟩
    · rw [if_neg hcond] at hout
      obtain rfl := Option.some.inj hout
      exact hsame hcond

/-- The size of a padded image. -/
theorem padded_cases (a : Allocs) (decoded : ImageU8) :
    (padded a decoded = none ↔
        getSizeForPadding decoded.w decoded.h ≠ (decoded.w, decoded.h) ∧ a.pad = false) ∧
      ∀ base, padded a decoded = some base →
        base.w = (getSizeForPadding decoded.w decoded.h).1 ∧
          base.h = (getSizeForPadding decoded.w decoded.h).2 := by
  obtain ⟨hw, hh⟩ := getSizeForPadding_pos decoded.w_pos decoded.h_pos
  have hcond : ((getSizeForPadding decoded.w decoded.h).1 ≠ decoded.w ∨
      (getSizeForPadding decoded.w decoded.h).2 ≠ decoded.h) ↔
        getSizeForPadding decoded.w decoded.h ≠ (decoded.w, decoded.h) := by
    rw [ne_eq, ne_eq, ne_eq, Prod.ext_iff, not_and_or]
  rcases getSizeForPadding_cases decoded.w decoded.h with hsame | hsquare
  · simp [padded, hsame]
  · have hw' : (getSizeForPadding decoded.w decoded.h).1 =
        if decoded.w > decoded.h then decoded.w else decoded.h := congrArg Prod.fst hsquare
    have hh' : (getSizeForPadding decoded.w decoded.h).2 =
        if decoded.w > decoded.h then decoded.w else decoded.h := congrArg Prod.snd hsquare
    simp only [padded, hcond, imageSquarePadTopLeft]
    rw [hw', hh']
    refine resized_cases (hw' ▸ hw) (hh' ▸ hh) fun h => ?_
    have heq := not_not.mp h
    exact ⟨(congrArg Prod.fst heq).symm.trans hw', (congrArg Prod.snd heq).symm.trans hh'⟩

/-- The size of one that was scaled down. -/
theorem prepared_cases (m : PixelMath F) (a : Allocs) (img : ImageU8) :
    (prepared m a img = none ↔ getSizeForPreprocess img.w img.h ≠ (img.w, img.h) ∧
        a.resize = false) ∧
      ∀ out, prepared m a img = some out →
        out.w = (getSizeForPreprocess img.w img.h).1 ∧
          out.h = (getSizeForPreprocess img.w img.h).2 := by
  obtain ⟨hw, hh⟩ := getSizeForPreprocess_pos img.w_pos img.h_pos
  have hcond : ((getSizeForPreprocess img.w img.h).1 ≠ img.w ∨
      (getSizeForPreprocess img.w img.h).2 ≠ img.h) ↔
        getSizeForPreprocess img.w img.h ≠ (img.w, img.h) := by
    rw [ne_eq, ne_eq, ne_eq, Prod.ext_iff, not_and_or]
  simp only [prepared, imageResizeBilinear, hcond]
  refine resized_cases hw hh fun h => ?_
  rw [not_not.mp h]
  exact ⟨rfl, rfl⟩

theorem getSizeForPreprocess_changed {w h : Nat} (hne : getSizeForPreprocess w h ≠ (w, h)) :
    maxSize < max w h := by
  by_contra hle
  exact hne (getSizeForPreprocess_of_le (Nat.le_of_not_lt hle))

theorem cutOf_eq (w h : Nat) : cutOf w h =
    ⟨determineWindowSize (max w h) (min w h),
      (getSizeForCrop w h (determineWindowSize (max w h) (min w h))).1,
      (getSizeForCrop w h (determineWindowSize (max w h) (min w h))).2⟩ := by
  have hlong : (if w > h then w else h) = max w h := by split_ifs <;> omega
  have hshort : (if w < h then w else h) = min w h := by split_ifs <;> omega
  simp only [cutOf, hlong, hshort]

/-- The size of the crop source of an image that is cut. -/
theorem cutOf_crop {w h : Nat} (hwindow : (cutOf w h).window ≠ 0) :
    (cutOf w h).cropW = cropSide w (cutOf w h).window ∧
      (cutOf w h).cropH = cropSide h (cutOf w h).window := by
  rw [cutOf_eq] at hwindow ⊢
  dsimp only at hwindow ⊢
  rw [getSizeForCrop, if_neg hwindow]
  exact ⟨rfl, rfl⟩

/-- An image whose crop has the size it had before it was scaled down was not scaled down. -/
theorem not_scaled_of_crop {w h : Nat} (hw : 0 < w) (hh : 0 < h)
    (hflat : ¬ (min w h = 1 ∧ 4 < max w h))
    (hwindow : (cutOf (getSizeForPreprocess w h).1 (getSizeForPreprocess w h).2).window ≠ 0)
    (hcropW : (cutOf (getSizeForPreprocess w h).1 (getSizeForPreprocess w h).2).cropW = w)
    (hcropH : (cutOf (getSizeForPreprocess w h).1 (getSizeForPreprocess w h).2).cropH = h) :
    getSizeForPreprocess w h = (w, h) := by
  by_contra hne
  have hlong := getSizeForPreprocess_changed hne
  have hmax : maxSize = 3024 := rfl
  obtain ⟨hcw, hch⟩ := cutOf_crop hwindow
  rw [hcropW] at hcw
  rw [hcropH] at hch
  rw [getSizeForPreprocess_of_gt hlong, cutOf_eq] at hcw hch
  dsimp only at hcw hch
  rcases Nat.le_total h w with hle | hle
  · have hside := scaled_le hle
    rw [Nat.max_eq_left hle] at hcw hch hlong
    rw [scaled_self hw, Nat.max_eq_left hside, Nat.min_eq_right hside] at hcw hch
    rcases crop_ne_of_scaled hlong (a := h) (by omega) with hc | hc
    · exact hc hcw.symm
    · exact hc hch.symm
  · have hside := scaled_le hle
    rw [Nat.max_eq_right hle] at hcw hch hlong
    rw [scaled_self hh, Nat.max_eq_right hside, Nat.min_eq_left hside] at hcw hch
    rcases crop_ne_of_scaled hlong (a := w) (by omega) with hc | hc
    · exact hc hch.symm
    · exact hc hcw.symm

/-- The size of what the patches are cut from. -/
theorem cropSource_cases (m : PixelMath F) (a : Allocs) {base img : ImageU8}
    (hw : img.w = (getSizeForPreprocess base.w base.h).1)
    (hh : img.h = (getSizeForPreprocess base.w base.h).2)
    (hflat : ¬ (min base.w base.h = 1 ∧ 4 < max base.w base.h))
    (hwindow : (cutOf img.w img.h).window ≠ 0) :
    (cropSource m a (cutOf img.w img.h) base img = none ↔
        ((cutOf img.w img.h).cropW ≠ base.w ∨ (cutOf img.w img.h).cropH ≠ base.h) ∧
          a.cropSource = false) ∧
      ∀ src, cropSource m a (cutOf img.w img.h) base img = some src →
        src.w = (cutOf img.w img.h).cropW ∧ src.h = (cutOf img.w img.h).cropH := by
  obtain ⟨hcw, hch⟩ := cutOf_crop hwindow
  have hpos : 0 < (cutOf img.w img.h).cropW ∧ 0 < (cutOf img.w img.h).cropH := by
    rw [cutOf_eq]
    exact getSizeForCrop_pos img.w_pos img.h_pos
  refine resized_cases hpos.1 hpos.2 fun hsame => ?_
  rw [not_or, not_not, not_not] at hsame
  rw [hw, hh] at hsame hwindow
  have hprep := not_scaled_of_crop base.w_pos base.h_pos hflat hwindow hsame.1 hsame.2
  rw [hw, hh]
  refine ⟨?_, ?_⟩
  · rw [hsame.1, hprep]
  · rw [hsame.2, hprep]

/-! ## The loop over the patches -/

/-- The patch of a cell lies in the image. -/
def Cut.Inside (c : Cut) (src : ImageU8) (cell : Nat × Nat) : Prop :=
  c.x cell.2 + c.window ≤ src.w ∧ c.y cell.1 + c.window ≤ src.h

/-- The allocations for the patch of a cell succeed, in a batch of some capacity that has some
patches. -/
def PatchAllocated (a : Allocs) (cap patches : Nat) (cell : Nat × Nat) : Prop :=
  a.crop cell = true ∧ a.patchFloats cell = true ∧
    (patches + 1 ≤ cap ∨ (a.patchPixelValues cell = true ∧ a.patchNewlineMask cell = true))

instance (a : Allocs) (cap patches : Nat) (cell : Nat × Nat) :
    Decidable (PatchAllocated a cap patches cell) := by
  unfold PatchAllocated
  infer_instance

/-- The capacity after one more patch. -/
def ensuredCap (cap need : Nat) : Nat := if need ≤ cap then cap else grownCap cap need

/-- The allocations for the patches of some cells succeed, one after the other. -/
def PatchesAllocated (a : Allocs) : List (Nat × Nat) → Nat → Nat → Prop
  | [], _, _ => True
  | cell :: cells, cap, patches =>
      PatchAllocated a cap patches cell ∧
        PatchesAllocated a cells (ensuredCap cap (patches + 1)) (patches + 1)

instance decidablePatchesAllocated (a : Allocs) :
    ∀ (cells : List (Nat × Nat)) (cap patches : Nat),
      Decidable (PatchesAllocated a cells cap patches)
  | [], _, _ => isTrue trivial
  | _ :: cells, cap, patches =>
      @instDecidableAnd _ _ _
        (decidablePatchesAllocated a cells (ensuredCap cap (patches + 1)) (patches + 1))

/-- Some patches were appended, and nothing else was touched. -/
structure Batch.Extends (n : Nat) (b b' : Batch F) : Prop where
  images : b'.images = b.images
  pixelValues : b'.pixelValues = b.pixelValues
  capImages : b.capImages ≤ b'.capImages
  patchesPerImage : b'.patchesPerImage = b.patchesPerImage
  patchImages : b'.patchImages = b.patchImages + n
  patches : ∀ i < b.patchImages, b'.patchPixelValues i = b.patchPixelValues i ∧
    b'.patchNewlineMask i = b.patchNewlineMask i

theorem Batch.Extends.refl (b : Batch F) : b.Extends 0 b :=
  ⟨rfl, rfl, Nat.le_refl _, rfl, rfl, fun _ _ => ⟨rfl, rfl⟩⟩

theorem Batch.Extends.trans {n n' : Nat} {b b' b'' : Batch F} (h : b.Extends n b')
    (h' : b'.Extends n' b'') : b.Extends (n + n') b'' where
  images := h'.images.trans h.images
  pixelValues := h'.pixelValues.trans h.pixelValues
  capImages := Nat.le_trans h.capImages h'.capImages
  patchesPerImage := h'.patchesPerImage.trans h.patchesPerImage
  patchImages := by rw [h'.patchImages, h.patchImages, Nat.add_assoc]
  patches := fun i hi => by
    have hi' : i < b'.patchImages := by
      rw [h.patchImages]
      exact Nat.lt_add_right n hi
    obtain ⟨hp, hm⟩ := h.patches i hi
    obtain ⟨hp', hm'⟩ := h'.patches i hi'
    exact ⟨hp'.trans hp, hm'.trans hm⟩

theorem imageCrop_eq_none_iff (ok : Bool) (src : ImageU8) (x y : Nat) {w h : Nat} (hw : 0 < w)
    (hh : 0 < h) :
    imageCrop ok src x y w h = none ↔ ¬ (x + w ≤ src.w ∧ y + h ≤ src.h) ∨ ok = false := by
  unfold imageCrop
  split
  next hout =>
    refine ⟨fun _ => Or.inl ?_, fun _ => rfl⟩
    omega
  next hin =>
    rw [imageAlloc_eq_none_iff hw hh]
    refine ⟨Or.inr, fun h => h.resolve_left fun hnot => hnot ?_⟩
    omega

theorem ensurePatchCap_cases (a : Allocs) (cell : Nat × Nat) (b : Batch F) (need : Nat) :
    ensurePatchCap a cell b need =
      if need ≤ b.capPatchImages ∨
          (a.patchPixelValues cell = true ∧ a.patchNewlineMask cell = true) then
        some { b with capPatchImages := ensuredCap b.capPatchImages need }
      else none := by
  unfold ensurePatchCap ensuredCap
  by_cases hle : need ≤ b.capPatchImages
  · rw [if_pos hle, if_pos (Or.inl hle), if_pos hle]
  · cases hp : a.patchPixelValues cell <;> cases hm : a.patchNewlineMask cell <;> simp [hle]

section

variable {m : PixelMath F} {a : Allocs} {c : Cut} {src : ImageU8} {cell : Nat × Nat}
  {b : Batch F}

/-- One turn of the loop fails where the patch does not lie in the image or something cannot be
allocated. -/
theorem appendPatch_eq_none_iff (m : PixelMath F) (a : Allocs) (src : ImageU8) (cell : Nat × Nat)
    (b : Batch F) (hwindow : 0 < c.window) :
    appendPatch m a c src b cell = none ↔
      ¬ c.Inside src cell ∨ ¬ PatchAllocated a b.capPatchImages b.patchImages cell := by
  have hcrop := imageCrop_eq_none_iff (a.crop cell) src (c.x cell.2) (c.y cell.1) hwindow hwindow
  have hsize : ¬ patchSize = 0 := by decide
  unfold appendPatch PatchAllocated
  cases hpatch : imageCrop (a.crop cell) src (c.x cell.2) (c.y cell.1) c.window c.window with
  | none =>
    rw [hpatch] at hcrop
    refine ⟨fun _ => (hcrop.mp rfl).imp id fun hno h => ?_, fun _ => rfl⟩
    rw [hno] at h
    nomatch h.1
  | some patch =>
    rw [hpatch] at hcrop
    have hok := mt hcrop.mpr nofun
    rw [not_or, not_not, Bool.not_eq_false] at hok
    have hinside : c.Inside src cell := hok.1
    simp only [imageToNormalizedNchw, if_neg hsize]
    cases hf : a.patchFloats cell with
    | false => simp
    | true =>
      simp only [if_true, appendPatchPixels, ensurePatchCap_cases, Option.map_eq_none_iff, hok.2,
        hinside, true_and, not_true_eq_false, false_or]
      split
      next hcap => exact ⟨nofun, fun hno => absurd hcap hno⟩
      next hcap => exact ⟨fun _ => hcap, fun _ => rfl⟩

/-- Otherwise it appends one patch. -/
theorem appendPatch_extends {b' : Batch F} (h : appendPatch m a c src b cell = some b') :
    b.Extends 1 b' ∧ b'.capPatchImages = ensuredCap b.capPatchImages (b.patchImages + 1) := by
  unfold appendPatch at h
  split at h
  · nomatch h
  dsimp only at h
  split at h
  · nomatch h
  rw [appendPatchPixels, ensurePatchCap_cases] at h
  split at h
  next =>
    obtain rfl := Option.some.inj h
    refine ⟨⟨rfl, rfl, Nat.le_refl _, rfl, rfl, fun i hi => ?_⟩, rfl⟩
    exact ⟨Function.update_of_ne (Nat.ne_of_lt hi) _ _, Function.update_of_ne (Nat.ne_of_lt hi) _ _⟩
  next => nomatch h

/-- The loop appends some patches: all of them where it can allocate them. -/
theorem patchLoop_spec (m : PixelMath F) (a : Allocs) (src : ImageU8) (hwindow : 0 < c.window)
    (cells : List (Nat × Nat))
    (hinside : ∀ cell ∈ cells, c.Inside src cell) (patchCount : Nat) (b : Batch F) :
    let r := patchLoop m a c src cells patchCount b
    ∃ n, r.2.1 = patchCount + n ∧ b.Extends n r.2.2 ∧
      (r.1 = true ↔ PatchesAllocated a cells b.capPatchImages b.patchImages) ∧
      (r.1 = true → n = cells.length) ∧
      ∀ cell rest, cells = cell :: rest →
        PatchAllocated a b.capPatchImages b.patchImages cell → 0 < n := by
  induction cells generalizing patchCount b with
  | nil => exact ⟨0, rfl, .refl b, ⟨fun _ => trivial, fun _ => rfl⟩, fun _ => rfl, nofun⟩
  | cons cell cells ih =>
    have hnone := appendPatch_eq_none_iff m a src cell b hwindow
    simp only [hinside cell List.mem_cons_self, not_true_eq_false, false_or] at hnone
    simp only [patchLoop, PatchesAllocated, List.length_cons]
    cases happend : appendPatch m a c src b cell with
    | none =>
      rw [happend] at hnone
      have hno := hnone.mp rfl
      refine ⟨0, rfl, .refl b, ⟨nofun, fun h => absurd h.1 hno⟩, nofun, ?_⟩
      rintro _ _ ⟨⟩ hyes
      exact absurd hyes hno
    | some b' =>
      rw [happend] at hnone
      have hfirst : PatchAllocated a b.capPatchImages b.patchImages cell :=
        not_not.mp (mt hnone.mpr nofun)
      obtain ⟨hext, hcap⟩ := appendPatch_extends happend
      obtain ⟨n, hcount, hrest, hok, hall, -⟩ :=
        ih (fun cell hc => hinside cell (List.mem_cons_of_mem _ hc)) (patchCount + 1) b'
      rw [hcap, hext.patchImages] at hok
      refine ⟨1 + n, hcount.trans (Nat.add_assoc _ _ _), hext.trans hrest, ?_, fun h => ?_, ?_⟩
      · rw [and_iff_right hfirst]
        exact hok
      · rw [hall h, Nat.add_comm]
      · exact fun _ _ _ _ => Nat.add_pos_left Nat.one_pos n

end

-- The cells of a cut are counted with rationals; nothing should try to evaluate this.
attribute [irreducible] PatchesAllocated

end Sf37.Image

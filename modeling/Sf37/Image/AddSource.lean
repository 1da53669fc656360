/-
Sf37.Image.AddSource — the ways a call that adds an image can end.

* `Outcome`: which allocation, or which size, ends a call, and with which batch.
* `processSourceImage_outcome`: every call ends in one of these ways.
-/
import Sf37.Image.Batch

namespace Sf37.Image

variable {F : Type}

/-! ## How a call can end -/

/-- The images, patches, counts and newline flags that a batch has recorded are the same. -/
structure Batch.SameRecord (b b' : Batch F) : Prop where
  images : b'.images = b.images
  patchImages : b'.patchImages = b.patchImages
  main : ∀ i < b.images, b'.pixelValues i = b.pixelValues i ∧
    b'.patchesPerImage i = b.patchesPerImage i
  patches : ∀ i < b.patchImages, b'.patchPixelValues i = b.patchPixelValues i ∧
    b'.patchNewlineMask i = b.patchNewlineMask i

/-- One image with some patches was added behind what was there. -/
structure Batch.Adds (n : Nat) (b b' : Batch F) : Prop where
  images : b'.images = b.images + 1
  patchImages : b'.patchImages = b.patchImages + n
  count : b'.patchesPerImage b.images = n
  main : ∀ i < b.images, b'.pixelValues i = b.pixelValues i ∧
    b'.patchesPerImage i = b.patchesPerImage i
  patches : ∀ i < b.patchImages, b'.patchPixelValues i = b.patchPixelValues i ∧
    b'.patchNewlineMask i = b.patchNewlineMask i

/-- The size of a decoded image after padding. -/
def padSize (img : ImageU8) : Nat × Nat := getSizeForPadding img.w img.h

/-- Its size after scaling down. -/
def prepSize (img : ImageU8) : Nat × Nat := getSizeForPreprocess (padSize img).1 (padSize img).2

/-- How it is cut. -/
def imageCut (img : ImageU8) : Cut := cutOf (prepSize img).1 (prepSize img).2

/-- The allocations before the patches succeed. -/
structure Prepares (a : Allocs) (b : Batch F) (img : ImageU8) : Prop where
  pad : padSize img = (img.w, img.h) ∨ a.pad = true
  resize : prepSize img = padSize img ∨ a.resize = true
  grow : b.images + 1 ≤ b.capImages ∨ (a.pixelValues = true ∧ a.patchesPerImage = true)

/-- The source of the patches is there, and the window is no longer than its sides. -/
structure Cuts (a : Allocs) (img : ImageU8) : Prop where
  source : ((imageCut img).cropW = (padSize img).1 ∧ (imageCut img).cropH = (padSize img).2) ∨
    a.cropSource = true
  fitsW : (imageCut img).window ≤ (imageCut img).cropW
  fitsH : (imageCut img).window ≤ (imageCut img).cropH

/-- The allocations from the first patch on succeed. -/
structure Completed (a : Allocs) (b : Batch F) (img : ImageU8) : Prop where
  patches : PatchesAllocated a (imageCut img).cells b.capPatchImages b.patchImages
  mainFloats : a.mainFloats = true

/-- How a call can end, and with which batch. -/
inductive Outcome (a : Allocs) (b : Batch F) (img : ImageU8) : Bool → Batch F → Prop
  | unprepared (h : ¬ Prepares a b img) : Outcome a b img false b
  | uncut (hp : Prepares a b img) (hw : (imageCut img).window ≠ 0) (h : ¬ Cuts a img)
      {b' : Batch F} (hs : b.SameRecord b') : Outcome a b img false b'
  | noFirst (hp : Prepares a b img) (hw : (imageCut img).window ≠ 0) (hc : Cuts a img)
      (h : ¬ PatchAllocated a b.capPatchImages b.patchImages (0, 0))
      {b' : Batch F} (hs : b.SameRecord b') : Outcome a b img false b'
  | late (hp : Prepares a b img) (hw : (imageCut img).window ≠ 0) (hc : Cuts a img)
      (hfirst : PatchAllocated a b.capPatchImages b.patchImages (0, 0))
      (h : ¬ Completed a b img) {b' : Batch F} (himages : b'.images = b.images)
      (hpatches : b.patchImages < b'.patchImages) : Outcome a b img false b'
  | noMain (hp : Prepares a b img) (hw : (imageCut img).window = 0) (h : a.mainFloats = false)
      {b' : Batch F} (hs : b.SameRecord b') : Outcome a b img false b'
  | whole (hp : Prepares a b img) (hw : (imageCut img).window = 0) (h : a.mainFloats = true)
      {b' : Batch F} (hadds : b.Adds 0 b') : Outcome a b img true b'
  | cut (hp : Prepares a b img) (hw : (imageCut img).window ≠ 0) (hc : Cuts a img)
      (h : Completed a b img) {b' : Batch F}
      (hadds : b.Adds (imageCut img).cells.length b') : Outcome a b img true b'

theorem Cut.cells_eq_cons (c : Cut) : ∃ rest, c.cells = (0, 0) :: rest := by
  have hposY := Run.windowCount_pos c.cropH c.window
  have hposX := Run.windowCount_pos c.cropW c.window
  obtain ⟨y, hy⟩ := Nat.exists_eq_succ_of_ne_zero (Nat.ne_of_gt hposY)
  obtain ⟨x, hx⟩ := Nat.exists_eq_succ_of_ne_zero (Nat.ne_of_gt hposX)
  rw [Cut.cells, Cut.yNum, Cut.xNum, hy, hx, List.range_succ_eq_map, List.range_succ_eq_map]
  exact ⟨_, rfl⟩

theorem Cut.length_cells (c : Cut) : c.cells.length = c.xNum * c.yNum := by
  simp [Cut.cells, List.length_flatMap, Nat.mul_comm]

theorem Cut.mem_cells {c : Cut} {cell : Nat × Nat} :
    cell ∈ c.cells ↔ cell.1 < c.yNum ∧ cell.2 < c.xNum := by
  obtain ⟨yy, xx⟩ := cell
  simp [Cut.cells]

/-- All patches lie in the image where the first one does. -/
theorem Cut.inside_of_fits {c : Cut} {src : ImageU8} (hw : src.w = c.cropW) (hh : src.h = c.cropH)
    (hfitsW : c.window ≤ c.cropW) (hfitsH : c.window ≤ c.cropH) :
    ∀ cell ∈ c.cells, c.Inside src cell := by
  intro cell hcell
  obtain ⟨hy, hx⟩ := Cut.mem_cells.mp hcell
  refine ⟨?_, ?_⟩
  · rw [hw]
    exact Run.windowStart_add_le hfitsW hx
  · rw [hh]
    exact Run.windowStart_add_le hfitsH hy

theorem Cut.inside_first_iff {c : Cut} {src : ImageU8} (hw : src.w = c.cropW)
    (hh : src.h = c.cropH) :
    c.Inside src (0, 0) ↔ c.window ≤ c.cropW ∧ c.window ≤ c.cropH := by
  simp [Cut.Inside, Cut.x, Cut.y, hw, hh]

theorem le_doubleUpTo {need fuel cap : Nat} (h : need ≤ cap * 2 ^ fuel) :
    need ≤ doubleUpTo need fuel cap := by
  induction fuel generalizing cap with
  | zero => simpa [doubleUpTo] using h
  | succ fuel ih =>
    unfold doubleUpTo
    split
    next =>
      refine ih ?_
      rwa [Nat.mul_assoc, ← Nat.pow_succ']
    next hge => exact Nat.le_of_not_lt hge

/-- An array is grown to what is needed. -/
theorem le_ensuredCap (cap need : Nat) : need ≤ ensuredCap cap need := by
  unfold ensuredCap grownCap
  split
  next h => exact h
  next =>
    refine le_doubleUpTo (Nat.le_trans (Nat.le_of_lt (Nat.lt_two_pow_self (n := need))) ?_)
    refine Nat.le_mul_of_pos_left _ ?_
    split <;> omega

theorem cap_le_ensuredCap (cap need : Nat) : cap ≤ ensuredCap cap need := by
  rcases Nat.lt_or_ge cap need with hlt | hge
  · exact Nat.le_of_lt (Nat.lt_of_lt_of_le hlt (le_ensuredCap cap need))
  · rw [ensuredCap, if_pos hge]

theorem ensureMainCap_cases (a : Allocs) (b : Batch F) (need : Nat) :
    ensureMainCap a b need =
      if need ≤ b.capImages ∨ (a.pixelValues = true ∧ a.patchesPerImage = true) then
        some { b with capImages := ensuredCap b.capImages need }
      else none := by
  unfold ensureMainCap ensuredCap
  by_cases hle : need ≤ b.capImages
  · rw [if_pos hle, if_pos (Or.inl hle), if_pos hle]
  · cases hp : a.pixelValues <;> cases hm : a.patchesPerImage <;> simp [hle]

/-- With room for it the image is appended. -/
theorem appendMainPixels_of_le (a : Allocs) {b : Batch F} (hroom : b.images + 1 ≤ b.capImages)
    (pixels : List F) :
    appendMainPixels a b pixels = some { b with
      pixelValues := Function.update b.pixelValues b.images pixels
      images := b.images + 1 } := by
  rw [appendMainPixels, ensureMainCap, if_pos hroom]
  rfl

/-- What stands after the patches and the image were appended. -/
theorem Batch.Extends.adds {n : Nat} {b b' : Batch F} (h : b.Extends n b') (pixels : List F) :
    b.Adds n { b' with
      pixelValues := Function.update b'.pixelValues b'.images pixels
      images := b'.images + 1
      patchesPerImage := Function.update b'.patchesPerImage b.images n } where
  images := congrArg (· + 1) h.images
  patchImages := h.patchImages
  count := Function.update_self _ _ _
  main := fun i hi => by
    have hne : i ≠ b'.images := by
      rw [h.images]
      exact Nat.ne_of_lt hi
    refine ⟨?_, ?_⟩
    · exact (Function.update_of_ne hne _ _).trans (congrFun h.pixelValues i)
    · exact (Function.update_of_ne (Nat.ne_of_lt hi) _ _).trans (congrFun h.patchesPerImage i)
  patches := h.patches

/-- More room for images is not part of the record. -/
theorem Batch.Extends.sameRecord {b b' : Batch F} (h : b.Extends 0 b') : b.SameRecord b' where
  images := h.images
  patchImages := h.patchImages
  main := fun i _ => ⟨congrFun h.pixelValues i, congrFun h.patchesPerImage i⟩
  patches := h.patches

section

variable {m : PixelMath F} {a : Allocs} {b : Batch F} {decoded base img : ImageU8}

/-- How the patches of a prepared image can end. -/
theorem appendPatches_spec (hbase : (base.w, base.h) = padSize decoded)
    (himg : (img.w, img.h) = prepSize decoded) (hwindow : (imageCut decoded).window ≠ 0) :
    let r := appendPatches m a (imageCut decoded) base img b
    (¬ Cuts a decoded → r = (false, 0, b)) ∧
      (¬ PatchAllocated a b.capPatchImages b.patchImages (0, 0) → r = (false, 0, b)) ∧
      (Cuts a decoded → PatchAllocated a b.capPatchImages b.patchImages (0, 0) →
        ∃ n, 0 < n ∧ r.2.1 = n ∧ b.Extends n r.2.2 ∧
          (r.1 = true ↔
            PatchesAllocated a (imageCut decoded).cells b.capPatchImages b.patchImages) ∧
          (r.1 = true → n = (imageCut decoded).cells.length)) := by
  have hpos : 0 < (imageCut decoded).window := Nat.pos_of_ne_zero hwindow
  have hcut : imageCut decoded = cutOf img.w img.h := by
    rw [imageCut, ← himg]
  have hflat : ¬ (min base.w base.h = 1 ∧ 4 < max base.w base.h) := by
    have h := getSizeForPadding_not_flat (w := decoded.w) decoded.h_pos
    rw [← padSize, ← hbase] at h
    exact h
  have hprep : (img.w, img.h) = getSizeForPreprocess base.w base.h := by
    rw [himg, prepSize, ← hbase]
  obtain ⟨hsrcNone, hsrcSome⟩ := cropSource_cases m a (congrArg Prod.fst hprep)
    (congrArg Prod.snd hprep) hflat (hcut ▸ hwindow)
  rw [← hcut] at hsrcNone hsrcSome
  have hbw : base.w = (padSize decoded).1 := congrArg Prod.fst hbase
  have hbh : base.h = (padSize decoded).2 := congrArg Prod.snd hbase
  rw [hbw, hbh] at hsrcNone
  intro r
  have hr : r = appendPatches m a (imageCut decoded) base img b := rfl
  rw [appendPatches, if_neg hwindow] at hr
  cases hsrc : cropSource m a (imageCut decoded) base img with
  | none =>
    rw [hsrc] at hr
    obtain ⟨hne, hno⟩ := hsrcNone.mp hsrc
    refine ⟨fun _ => hr, fun _ => hr, fun hcuts => ?_⟩
    rcases hcuts.source with ⟨hw, hh⟩ | hok
    · exact absurd hne (by simp [hw, hh])
    · rw [hno] at hok
      nomatch hok
  | some src =>
    obtain ⟨hsw, hsh⟩ := hsrcSome src hsrc
    rw [hsrc] at hr
    obtain ⟨rest, hcells⟩ := (imageCut decoded).cells_eq_cons
    have hsource : ((imageCut decoded).cropW = (padSize decoded).1 ∧
        (imageCut decoded).cropH = (padSize decoded).2) ∨ a.cropSource = true := by
      by_contra hno
      rw [not_or, Bool.not_eq_true, not_and_or] at hno
      rw [hsrcNone.mpr hno] at hsrc
      nomatch hsrc
    have hfirst := appendPatch_eq_none_iff m a src (0, 0) b hpos
    rw [Cut.inside_first_iff hsw hsh] at hfirst
    have hstop : appendPatch m a (imageCut decoded) src b (0, 0) = none → r = (false, 0, b) := by
      intro hnone
      rw [hr, hcells]
      simp only [patchLoop, hnone]
    refine ⟨fun hcuts => hstop (hfirst.mpr (Or.inl fun hfits => ?_)),
      fun hno => hstop (hfirst.mpr (Or.inr hno)), fun hcuts hok => ?_⟩
    · exact hcuts ⟨hsource, hfits.1, hfits.2⟩
    · obtain ⟨n, hcount, hext, hall, hlen, hsome⟩ := patchLoop_spec m a src hpos
        (imageCut decoded).cells (Cut.inside_of_fits hsw hsh hcuts.fitsW hcuts.fitsH) 0 b
      simp only [← hr, Nat.zero_add] at hcount hext hall hlen
      exact ⟨n, hsome _ _ hcells hok, hcount, hext, hall, hlen⟩

/-- A batch with room for one more image. -/
def Batch.grown (b : Batch F) : Batch F :=
  { b with capImages := ensuredCap b.capImages (b.images + 1) }

@[simp] theorem Batch.grown_capPatchImages (b : Batch F) :
    b.grown.capPatchImages = b.capPatchImages := rfl

@[simp] theorem Batch.grown_patchImages (b : Batch F) : b.grown.patchImages = b.patchImages := rfl

theorem Batch.grown_extends (b : Batch F) : b.Extends 0 b.grown where
  images := rfl
  pixelValues := rfl
  capImages := cap_le_ensuredCap _ _
  patchesPerImage := rfl
  patchImages := rfl
  patches := fun _ _ => ⟨rfl, rfl⟩

/-- A call whose image was prepared, in terms of what the patches come to. -/
theorem processSourceImage_of_prepared (hpad : padded a decoded = some base)
    (hprep : prepared m a base = some img) (himg : (img.w, img.h) = prepSize decoded)
    (hgrow : b.images + 1 ≤ b.capImages ∨ (a.pixelValues = true ∧ a.patchesPerImage = true))
    {ok : Bool} {n : Nat} {b' : Batch F}
    (hpatches : appendPatches m a (imageCut decoded) base img b.grown = (ok, n, b'))
    (himages : b'.images = b.images) (hcap : b.grown.capImages ≤ b'.capImages) :
    processSourceImage m a b decoded =
      if ok = true ∧ a.mainFloats = true then
        (true, { b' with
          pixelValues := Function.update b'.pixelValues b'.images (m.normalized img mainSize)
          images := b'.images + 1
          patchesPerImage := Function.update b'.patchesPerImage b.images n })
      else (false, b') := by
  have hcut : cutOf img.w img.h = imageCut decoded := by
    rw [imageCut, ← himg]
  have hsize : ¬ mainSize = 0 := by decide
  have hensure : ensureMainCap a b (b.images + 1) = some b.grown := by
    rw [ensureMainCap_cases, if_pos hgrow]
    rfl
  have hroom : b'.images + 1 ≤ b'.capImages := by
    rw [himages]
    exact Nat.le_trans (le_ensuredCap b.capImages (b.images + 1)) hcap
  simp only [processSourceImage, hpad, hprep, hensure, hcut, hpatches, imageToNormalizedNchw,
    if_neg hsize]
  cases ok with
  | false => simp
  | true =>
    cases hfloats : a.mainFloats with
    | false => simp
    | true => simp [appendMainPixels_of_le a hroom]

/-- How a call ends whose image was prepared. -/
theorem outcome_of_prepared (hpad : padded a decoded = some base)
    (hprep : prepared m a base = some img) (hbase : (base.w, base.h) = padSize decoded)
    (himg : (img.w, img.h) = prepSize decoded) (hp : Prepares a b decoded) :
    Outcome a b decoded (processSourceImage m a b decoded).1
      (processSourceImage m a b decoded).2 := by
  have hsame := (Batch.grown_extends b).sameRecord
  by_cases hw : (imageCut decoded).window = 0
  · have hproc := processSourceImage_of_prepared hpad hprep himg hp.grow
      (if_pos hw : appendPatches m a (imageCut decoded) base img b.grown = (true, 0, b.grown))
      rfl (Nat.le_refl _)
    rw [hproc]
    cases hfloats : a.mainFloats with
    | false => exact .noMain hp hw hfloats hsame
    | true => exact .whole hp hw hfloats ((Batch.grown_extends b).adds _)
  · obtain ⟨huncut, hnoFirst, happend⟩ :=
      appendPatches_spec (m := m) (a := a) (b := b.grown) hbase himg hw
    simp only [Batch.grown_capPatchImages, Batch.grown_patchImages] at hnoFirst happend
    have hstop : appendPatches m a (imageCut decoded) base img b.grown = (false, 0, b.grown) →
        processSourceImage m a b decoded = (false, b.grown) := fun h =>
      processSourceImage_of_prepared hpad hprep himg hp.grow h rfl (Nat.le_refl _)
    by_cases hc : Cuts a decoded
    · by_cases hfirst : PatchAllocated a b.capPatchImages b.patchImages (0, 0)
      · obtain ⟨n, hpos, hcount, hext, hall, hlen⟩ := happend hc hfirst
        obtain ⟨⟨ok, n', b'⟩, hpatches⟩ :
            ∃ r, appendPatches m a (imageCut decoded) base img b.grown = r := ⟨_, rfl⟩
        rw [hpatches] at hcount hext hall hlen
        obtain rfl : n' = n := hcount
        have hproc := processSourceImage_of_prepared hpad hprep himg hp.grow hpatches
          hext.images hext.capImages
        have hadds := ((Batch.grown_extends b).trans hext).adds (m.normalized img mainSize)
        rw [Nat.zero_add] at hadds
        rw [hproc]
        by_cases hdone : Completed a b decoded
        · have hok : ok = true := hall.mpr hdone.patches
          rw [if_pos ⟨hok, hdone.mainFloats⟩]
          exact .cut hp hw hc hdone (hlen hok ▸ hadds)
        · rw [if_neg fun h => hdone ⟨hall.mp h.1, h.2⟩]
          refine .late hp hw hc hfirst hdone hext.images ?_
          show b.patchImages < b'.patchImages
          rw [hext.patchImages]
          exact Nat.lt_add_of_pos_right hpos
      · rw [hstop (hnoFirst hfirst)]
        exact .noFirst hp hw hc hfirst hsame
    · rw [hstop (huncut hc)]
      exact .uncut hp hw hc hsame

end

/-- A call ends in one of these ways. -/
theorem processSourceImage_outcome (m : PixelMath F) (a : Allocs) (b : Batch F)
    (decoded : ImageU8) :
    Outcome a b decoded (processSourceImage m a b decoded).1
      (processSourceImage m a b decoded).2 := by
  have hfail : processSourceImage m a b decoded = (false, b) → ¬ Prepares a b decoded →
      Outcome a b decoded (processSourceImage m a b decoded).1
        (processSourceImage m a b decoded).2 := by
    intro hproc hno
    rw [hproc]
    exact .unprepared hno
  have hfalse : ∀ {x : Bool}, x = false → ¬ x = true := by simp
  obtain ⟨hpadNone, hpadSome⟩ := padded_cases a decoded
  cases hpad : padded a decoded with
  | none =>
    obtain ⟨hne, hno⟩ := hpadNone.mp hpad
    refine hfail (by simp only [processSourceImage, hpad]) fun hp => ?_
    exact hp.pad.elim hne (hfalse hno)
  | some base =>
    obtain ⟨hbw, hbh⟩ := hpadSome base hpad
    have hbase : (base.w, base.h) = padSize decoded := Prod.ext hbw hbh
    have hprepSize : getSizeForPreprocess base.w base.h = prepSize decoded := by
      rw [prepSize, ← hbase]
    obtain ⟨hprepNone, hprepSome⟩ := prepared_cases m a base
    cases hprep : prepared m a base with
    | none =>
      obtain ⟨hne, hno⟩ := hprepNone.mp hprep
      rw [hprepSize, hbase] at hne
      refine hfail (by simp only [processSourceImage, hpad, hprep]) fun hp => ?_
      exact hp.resize.elim hne (hfalse hno)
    | some img =>
      obtain ⟨hiw, hih⟩ := hprepSome img hprep
      have himg : (img.w, img.h) = prepSize decoded := hprepSize ▸ Prod.ext hiw hih
      by_cases hgrow : b.images + 1 ≤ b.capImages ∨
          (a.pixelValues = true ∧ a.patchesPerImage = true)
      · have hp : Prepares a b decoded := by
          refine ⟨?_, ?_, hgrow⟩
          · by_contra hno
            rw [not_or, Bool.not_eq_true] at hno
            exact absurd (hpadNone.mpr hno) (by simp [hpad])
          · by_contra hno
            rw [not_or, Bool.not_eq_true] at hno
            rw [hprepSize, hbase] at hprepNone
            exact absurd (hprepNone.mpr hno) (by simp [hprep])
        exact outcome_of_prepared hpad hprep hbase himg hp
      · refine hfail ?_ fun hp => hgrow hp.grow
        simp only [processSourceImage, hpad, hprep, ensureMainCap_cases, if_neg hgrow]

end Sf37.Image

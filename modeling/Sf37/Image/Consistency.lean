/-
Sf37.Image.Consistency — the counts of a batch, over calls that fail and calls that do not.

Where the patches of an image begin is the sum of the counts before it, so the counts have to
add up to the patches there are. They do unless a call fails behind the first patch it has
appended: nothing takes that patch away again.

* `keepsRecord_iff`: what one call keeps.
* `addSources_keep_iff`: what a run of calls keeps.
* `placeholderForImage_adds`: the placeholder of an image while others are added.
-/
import Sf37.Image.AddSource
import Sf37.Text.CString
import Mathlib.Algebra.Order.BigOperators.Group.List

namespace Sf37.Image

open Sf37.Text

variable {F : Type} {m : PixelMath F} {b b' : Batch F} {c : Call} {n : Nat}

/-! ## One call -/

/-- The counts of the images add up to the patches. -/
def Batch.Consistent (b : Batch F) : Prop :=
  ((List.range b.images).map b.patchesPerImage).sum = b.patchImages

instance (b : Batch F) : Decidable b.Consistent := inferInstanceAs (Decidable (_ = _))

theorem consistent_empty : (Batch.empty : Batch F).Consistent := rfl

theorem Batch.SameRecord.consistent (h : b.SameRecord b') (hb : b.Consistent) :
    b'.Consistent := by
  rw [Batch.Consistent, h.images, h.patchImages, ← hb]
  refine congrArg List.sum (List.map_congr_left fun i hi => ?_)
  exact (h.main i (List.mem_range.mp hi)).2

theorem Batch.Adds.consistent (h : b.Adds n b') (hb : b.Consistent) : b'.Consistent := by
  have hsame : (List.range b.images).map b'.patchesPerImage =
      (List.range b.images).map b.patchesPerImage :=
    List.map_congr_left fun i hi => (h.main i (List.mem_range.mp hi)).2
  rw [Batch.Consistent, h.images, h.patchImages, List.range_succ, List.map_append,
    List.sum_append, hsame, hb]
  simp [h.count]

/-- A call leaves the counts in order, and everything as it was where it fails. -/
structure KeepsRecord (m : PixelMath F) (b : Batch F) (c : Call) : Prop where
  consistent : (addSource m b c).2.Consistent
  unchanged : (addSource m b c).1 = false → b.SameRecord (addSource m b c).2

/-- Where a call appends a first patch, no allocation it asks for after that fails. -/
def NoLateFailure (b : Batch F) (c : Call) : Prop :=
  ∀ img, c.decoded = some img → (imageCut img).window ≠ 0 → Prepares c.allocs b img →
    Cuts c.allocs img → PatchAllocated c.allocs b.capPatchImages b.patchImages (0, 0) →
    Completed c.allocs b img

theorem Batch.SameRecord.refl (b : Batch F) : b.SameRecord b :=
  ⟨rfl, rfl, fun _ _ => ⟨rfl, rfl⟩, fun _ _ => ⟨rfl, rfl⟩⟩

/-- What one call keeps. -/
theorem keepsRecord_iff (m : PixelMath F) (c : Call) (hb : b.Consistent) :
    KeepsRecord m b c ↔ NoLateFailure b c := by
  have hsame : ∀ {r : Batch F}, addSource m b c = (false, r) → b.SameRecord r →
      KeepsRecord m b c := by
    intro r hr hs
    refine ⟨?_, fun _ => ?_⟩
    · rw [hr]
      exact hs.consistent hb
    · rw [hr]
      exact hs
  have hadded : ∀ {r : Batch F} {n : Nat}, addSource m b c = (true, r) → b.Adds n r →
      KeepsRecord m b c := by
    intro r n hr ha
    refine ⟨?_, fun hfail => ?_⟩
    · rw [hr]
      exact ha.consistent hb
    · rw [hr] at hfail
      nomatch hfail
  cases hdecoded : c.decoded with
  | none =>
    have hr : addSource m b c = (false, b) := by rw [addSource, hdecoded]
    refine ⟨fun _ img himg => ?_, fun _ => hsame hr (.refl b)⟩
    rw [hdecoded] at himg
    nomatch himg
  | some decoded =>
    have hcall : addSource m b c = processSourceImage m c.allocs b decoded := by
      rw [addSource, hdecoded]
    have hlate : NoLateFailure b c ↔ ((imageCut decoded).window ≠ 0 →
        Prepares c.allocs b decoded → Cuts c.allocs decoded →
          PatchAllocated c.allocs b.capPatchImages b.patchImages (0, 0) →
            Completed c.allocs b decoded) := by
      simp only [NoLateFailure, hdecoded, Option.some.injEq, forall_eq']
    rw [hlate]
    have hout := processSourceImage_outcome m c.allocs b decoded
    rw [← hcall] at hout
    obtain ⟨⟨ok, r⟩, hr⟩ : ∃ r, addSource m b c = r := ⟨_, rfl⟩
    rw [hr] at hout
    cases hout with
    | unprepared hno =>
      exact ⟨fun _ _ hp => absurd hp hno, fun _ => hsame hr (.refl _)⟩
    | uncut _ _ hno hs => exact ⟨fun _ _ _ hc => absurd hc hno, fun _ => hsame hr hs⟩
    | noFirst _ _ _ hno hs => exact ⟨fun _ _ _ _ hf => absurd hf hno, fun _ => hsame hr hs⟩
    | late hp hw hc hf hno himages hmore =>
      refine ⟨fun hkeeps => ?_, fun h => absurd (h hw hp hc hf) hno⟩
      have hs := hkeeps.unchanged (by rw [hr])
      rw [hr] at hs
      exact absurd hs.patchImages (Nat.ne_of_gt hmore)
    | noMain _ hw _ hs => exact ⟨fun _ hne => absurd hw hne, fun _ => hsame hr hs⟩
    | whole _ hw _ ha => exact ⟨fun _ hne => absurd hw hne, fun _ => hadded hr ha⟩
    | cut _ _ _ hdone ha => exact ⟨fun _ _ _ _ _ => hdone, fun _ => hadded hr ha⟩

/-! ## A run of calls -/

/-- Calls one after the other. -/
def addSources (m : PixelMath F) (b : Batch F) (calls : List Call) : Batch F :=
  calls.foldl (fun b c => (addSource m b c).2) b

theorem addSources_concat (m : PixelMath F) (b : Batch F) (calls : List Call) (c : Call) :
    addSources m b (calls ++ [c]) = (addSource m (addSources m b calls) c).2 := by
  rw [addSources, List.foldl_append]
  rfl

/-- Every call of a run that starts with a zeroed batch. -/
def EachCall (m : PixelMath F) (calls : List Call) (P : Batch F → Call → Prop) : Prop :=
  ∀ before c after, calls = before ++ c :: after → P (addSources m .empty before) c

/-- In a run whose calls so far kept the counts, or could not fail late, they are in order. -/
theorem consistent_addSources {P : Batch F → Call → Prop}
    (hP : ∀ b c, Batch.Consistent b → P b c → KeepsRecord m b c) {calls : List Call}
    (h : EachCall m calls P) (before : List Call) {after : List Call}
    (hcalls : calls = before ++ after) : (addSources m .empty before).Consistent := by
  induction before using List.reverseRecOn generalizing after with
  | nil => exact consistent_empty
  | append_singleton before c ih =>
    have hsplit : calls = before ++ c :: after := by
      rw [hcalls, List.append_assoc, List.singleton_append]
    rw [addSources_concat]
    exact (hP _ c (ih hsplit) (h before c after hsplit)).consistent

/-- The counts are in order after every call of a run, and every failed call leaves the batch
as it was, exactly when no call of the run fails behind its first patch. -/
theorem addSources_keep_iff (m : PixelMath F) (calls : List Call) :
    EachCall m calls (KeepsRecord m) ↔ EachCall m calls NoLateFailure := by
  constructor
  · intro h before c after hcalls
    have hb := consistent_addSources (fun _ _ _ hk => hk) h before hcalls
    exact (keepsRecord_iff m c hb).mp (h before c after hcalls)
  · intro h before c after hcalls
    have hb := consistent_addSources (fun _ c hb hk => (keepsRecord_iff m c hb).mpr hk) h before
      hcalls
    exact (keepsRecord_iff m c hb).mpr (h before c after hcalls)

/-- An image of two pixels that is cut into two patches, where the second cannot be allocated. -/
def twoPatches : Call where
  decoded := some ⟨2, 1, fun _ _ => (0, 0, 0), by decide, by decide⟩
  allocs :=
    { pad := true, resize := true, pixelValues := true, patchesPerImage := true
      cropSource := true, crop := fun cell => decide (cell = (0, 0)), patchFloats := fun _ => true
      patchPixelValues := fun _ => true, patchNewlineMask := fun _ => true, mainFloats := true }

/-- Its first patch stays in the batch, of which no image has it. -/
theorem not_keepsRecord_twoPatches :
    ¬ EachCall ⟨fun _ _ _ _ _ => (0, 0, 0), fun _ _ => ([] : List Nat)⟩ [twoPatches]
      (KeepsRecord ⟨fun _ _ _ _ _ => (0, 0, 0), fun _ _ => []⟩) := by
  intro h
  have hkeeps := h [] twoPatches [] rfl
  have hcounts := hkeeps.consistent
  revert hcounts
  decide +kernel

/-! ## Placeholders -/

/-- `append_placeholder_rows`, behind what is there. -/
def appendPlaceholderRows (out start stop : Bytes) (rows : Nat) : Bytes :=
  out ++ start ++ (List.replicate rows (bytes "<im_patch>")).flatten ++ stop

/-- The placeholder of an image of some patches, with a line break behind those that have the
newline flag. -/
def placeholder (newline : Nat → Bool) (np : Nat) : Bytes :=
  let patches := (List.range np).foldl (fun out i =>
    let out := appendPlaceholderRows out (bytes "<patch_start>") (bytes "<patch_end>") 81
    if newline i then out ++ bytes "<patch_newline>" else out) []
  appendPlaceholderRows patches (bytes "<im_start>") (bytes "<im_end>") 169

/-- `sf37_image_batch_placeholder_for_image`, where the text can be allocated. -/
def placeholderForImage (b : Batch F) (imageIndex : Nat) : Option Bytes :=
  if b.images ≤ imageIndex then none
  else
    let patchBase := ((List.range imageIndex).map b.patchesPerImage).sum
    let np := b.patchesPerImage imageIndex
    if b.patchImages < patchBase ∨ b.patchImages - patchBase < np then none
    else some (placeholder (fun i => b.patchNewlineMask (patchBase + i)) np)

/-- The patches of an image end before those of the next one begin. -/
theorem patches_le_of_consistent (hb : b.Consistent) {i : Nat} (hi : i < b.images) :
    ((List.range i).map b.patchesPerImage).sum + b.patchesPerImage i ≤ b.patchImages := by
  have hnext : ((List.range i).map b.patchesPerImage).sum + b.patchesPerImage i =
      ((List.range (i + 1)).map b.patchesPerImage).sum := by
    simp [List.range_succ]
  have hsub : (List.range (i + 1)).Sublist (List.range b.images) :=
    List.range_sublist.mpr hi
  rw [hnext, ← hb]
  exact (hsub.map b.patchesPerImage).sum_le_sum fun _ _ => Nat.zero_le _

theorem placeholderForImage_eq (hb : b.Consistent) {i : Nat} (hi : i < b.images) :
    placeholderForImage b i = some (placeholder (fun k =>
      b.patchNewlineMask (((List.range i).map b.patchesPerImage).sum + k)) (b.patchesPerImage i)) := by
  have hle := patches_le_of_consistent hb hi
  rw [placeholderForImage, if_neg (Nat.not_le.mpr hi)]
  dsimp only
  rw [if_neg (by omega)]

theorem placeholder_congr {f g : Nat → Bool} {np : Nat} (h : ∀ k < np, f k = g k) :
    placeholder f np = placeholder g np := by
  unfold placeholder
  refine congrArg (fun out => appendPlaceholderRows out _ _ _) ?_
  refine List.foldl_ext _ _ _ fun out k hk => ?_
  simp only [h k (List.mem_range.mp hk)]

/-- Adding an image leaves the placeholders of the others alone, and its own is made of the
patches that came with it. -/
theorem placeholderForImage_adds (hb : b.Consistent) (h : b.Adds n b') :
    (∀ i < b.images, placeholderForImage b' i = placeholderForImage b i) ∧
      placeholderForImage b' b.images =
        some (placeholder (fun k => b'.patchNewlineMask (b.patchImages + k)) n) := by
  have hb' := h.consistent hb
  have hcounts : ∀ i ≤ b.images, (List.range i).map b'.patchesPerImage =
      (List.range i).map b.patchesPerImage := fun i hi =>
    List.map_congr_left fun k hk =>
      (h.main k (Nat.lt_of_lt_of_le (List.mem_range.mp hk) hi)).2
  refine ⟨fun i hi => ?_, ?_⟩
  · have hle := patches_le_of_consistent hb hi
    have hi' : i < b'.images := by
      rw [h.images]
      exact Nat.lt_succ_of_lt hi
    rw [placeholderForImage_eq hb hi, placeholderForImage_eq hb' hi',
      hcounts i (Nat.le_of_lt hi), (h.main i hi).2]
    refine congrArg some (placeholder_congr fun k hk => ?_)
    exact (h.patches _ (by omega)).2
  · have hi' : b.images < b'.images := by
      rw [h.images]
      exact Nat.lt_succ_self _
    rw [placeholderForImage_eq hb' hi', hcounts _ (Nat.le_refl _), h.count, hb]

end Sf37.Image

/-
Sf37.Image.Placeholders — the markers of a prompt and the placeholders of a batch:
`sf37_image_batch_apply_placeholders`.

* `countMarkers_eq`: the counting loop finds every marker.
* `replaceLoop_eq`: the replacing loop puts a placeholder for each and leaves the rest.
* `countOcc_placeholder`: how many markers a placeholder has of its own.
* `applyPlaceholders_spec`: when a call fails, and what it makes where it does not.
-/
import Sf37.Image.Consistency
import Sf37.Text.Weave

namespace Sf37.Image

open Sf37.Text

variable {F : Type} {b : Batch F}

/-! ## The source -/

/-- The marker. -/
def imPatch : Bytes := bytes "<im_patch>"

/-- The loop that counts the markers. A turn takes the marker away, so as many turns as bytes
are enough. -/
def countMarkers : Nat → Bytes → Nat
  | 0, _ => 0
  | fuel + 1, p =>
      match strstr p imPatch with
      | none => 0
      | some i => 1 + countMarkers fuel (p.drop (i + imPatch.length))

/-- `sf37_image_batch_placeholder_text`, where the text can be allocated. -/
def placeholderText (b : Batch F) : Option Bytes :=
  (List.range b.images).foldlM (fun out i => (placeholderForImage b i).map (out ++ ·)) []

/-- The loop over the images, some of them left. -/
def replaceLoop (b : Batch F) : Nat → Nat → Bytes → Bytes → Option Bytes
  | 0, _, cur, out => some (out ++ cur)
  | n + 1, i, cur, out =>
      match strstr cur imPatch with
      | none => none
      | some hit =>
          match placeholderForImage b i with
          | none => none
          | some one =>
              replaceLoop b n (i + 1) (cur.drop (hit + imPatch.length)) (out ++ cur.take hit ++ one)

/-- The text of the error for counts that differ. -/
def countError (count images : Nat) : Bytes :=
  bytes "prompt has " ++ bytes (toString count) ++ bytes " <im_patch> placeholders but " ++
    bytes (toString images) ++ bytes " images were supplied"

/-- `sf37_image_batch_apply_placeholders`, where the text can be allocated. The count has 32
bits. -/
def applyPlaceholders (b : Batch F) (text : Bytes) : Except Bytes Bytes :=
  if b.images = 0 then .ok text
  else
    let count := countMarkers (text.length + 1) text % 2 ^ 32
    if count ≠ 0 ∧ count ≠ b.images then .error (countError count b.images)
    else
      let out :=
        if count = 0 then
          (placeholderText b).map ((if text = [] then [] else text ++ [0x0a]) ++ ·)
        else replaceLoop b b.images 0 text []
      match out with
      | none => .error (bytes "out of memory building image placeholders")
      | some out => .ok out

/-! ## The two loops -/

theorem imPatch_tag : Tag 0x3c 0x3e imPatch := by decide

theorem imPatch_ne_nil : imPatch ≠ [] := imPatch_tag.ne_nil

/-- The counting loop finds every marker. -/
theorem countMarkers_eq {fuel : Nat} {p : Bytes} (h : p.length < fuel) :
    countMarkers fuel p = countOcc imPatch p := by
  induction fuel generalizing p with
  | zero => omega
  | succ fuel ih =>
    rw [countMarkers]
    cases hfind : strstr p imPatch with
    | none =>
      have hclear := (clear_iff imPatch_ne_nil).mpr
        ((firstOcc_eq_none_iff imPatch_ne_nil).mp hfind)
      exact hclear.symm
    | some i =>
      obtain ⟨hocc, hmin⟩ := (firstOcc_eq_some_iff imPatch_ne_nil).mp hfind
      have hend := hocc.add_length_le imPatch_ne_nil
      have hpos := List.length_pos_iff.mpr imPatch_ne_nil
      have hclear : Clear imPatch (p.take i) := by
        refine (clear_iff imPatch_ne_nil).mpr fun j hj => ?_
        obtain ⟨hj, hle⟩ := (occursAt_take imPatch_ne_nil).mp hj
        exact hmin j (by omega) hj
      obtain ⟨r, hr⟩ := hocc
      have hcut : p = p.take i ++ (imPatch ++ r) := by rw [hr, List.take_append_drop]
      have hrest : p.drop (i + imPatch.length) = r := by
        rw [← List.drop_drop, ← hr, List.drop_left]
      have hcount := countOcc_piece imPatch_tag hclear r
      rw [← hcut] at hcount
      have hless : r.length < fuel := by
        rw [← hrest, List.length_drop]
        omega
      simp only [hrest, ih hless, hcount]
      omega

/-- The replacing loop puts the placeholders in the place of the markers and leaves the rest. -/
theorem replaceLoop_eq {ones : List Bytes} {i : Nat} {pieces : List Bytes}
    (hones : ∀ k (h : k < ones.length), placeholderForImage b (i + k) = some (ones.get ⟨k, h⟩))
    (hlen : pieces.length = ones.length + 1) (hpieces : ∀ p ∈ pieces, Clear imPatch p)
    (out : Bytes) :
    replaceLoop b ones.length i (weave pieces (ones.map fun _ => imPatch)) out =
      some (out ++ weave pieces ones) := by
  induction ones generalizing i pieces out with
  | nil =>
    match pieces, hlen with
    | [p], _ => rfl
  | cons one ones ih =>
    match pieces, hlen with
    | p :: pieces, hlen =>
      obtain ⟨hp, hpieces⟩ := List.forall_mem_cons.mp hpieces
      have hfirst : placeholderForImage b i = some one := hones 0 (by simp)
      have hfind : strstr (p ++ (imPatch ++ weave pieces (ones.map fun _ => imPatch))) imPatch =
          some p.length := firstOcc_piece imPatch_tag.toGuarded hp _
      have hnext (k : Nat) (h : k < ones.length) :
          placeholderForImage b (i + 1 + k) = some (ones.get ⟨k, h⟩) := by
        have := hones (k + 1) (by simpa using h)
        rwa [show i + (k + 1) = i + 1 + k by omega] at this
      rw [List.length_cons, List.map_cons, weave, replaceLoop, hfind]
      simp only [hfirst]
      rw [List.take_left, ← List.drop_drop, List.drop_left, List.drop_left,
        ih hnext (by simpa using hlen) hpieces, weave]
      simp

/-! ## Placeholders -/

/-- Markers one behind the other. -/
theorem markers_spec (rows : Nat) : Opens 0x3c (List.replicate rows imPatch).flatten ∧
    countOcc imPatch (List.replicate rows imPatch).flatten = rows := by
  induction rows with
  | zero => exact ⟨opens_nil _, rfl⟩
  | succ rows ih =>
    rw [List.replicate_succ, List.flatten_cons]
    refine ⟨imPatch_tag.opens.append ih.1, ?_⟩
    rw [countOcc_append_opened imPatch_tag.toGuarded ih.1, ih.2,
      countOcc_self imPatch_tag.toGuarded]
    omega

/-- The markers of a part of a placeholder. -/
theorem countOcc_rows {start stop : Bytes} (hstart : Opens 0x3c start) (hstop : Opens 0x3c stop)
    (out : Bytes) (rows : Nat) :
    countOcc imPatch (appendPlaceholderRows out start stop rows) =
      countOcc imPatch out + countOcc imPatch start + rows + countOcc imPatch stop := by
  obtain ⟨hopens, hcount⟩ := markers_spec rows
  rw [appendPlaceholderRows, ← imPatch, countOcc_append_opened imPatch_tag.toGuarded hstop,
    countOcc_append_opened imPatch_tag.toGuarded hopens,
    countOcc_append_opened imPatch_tag.toGuarded hstart, hcount]

theorem opens_rows {start stop out : Bytes} (hout : Opens 0x3c out) (hstart : Opens 0x3c start)
    (hstop : Opens 0x3c stop) (rows : Nat) :
    Opens 0x3c (appendPlaceholderRows out start stop rows) := by
  exact ((hout.append hstart).append (markers_spec rows).1).append hstop

theorem patchTag_opens : Opens 0x3c (bytes "<patch_start>") ∧ Opens 0x3c (bytes "<patch_end>") ∧
    Opens 0x3c (bytes "<patch_newline>") ∧ Opens 0x3c (bytes "<im_start>") ∧
      Opens 0x3c (bytes "<im_end>") :=
  ⟨(show Guarded 0x3c (bytes "<patch_start>") by decide).opens,
    (show Guarded 0x3c (bytes "<patch_end>") by decide).opens,
    (show Guarded 0x3c (bytes "<patch_newline>") by decide).opens,
    (show Guarded 0x3c (bytes "<im_start>") by decide).opens,
    (show Guarded 0x3c (bytes "<im_end>") by decide).opens⟩

theorem patchTag_clear : countOcc imPatch (bytes "<patch_start>") = 0 ∧
    countOcc imPatch (bytes "<patch_end>") = 0 ∧ countOcc imPatch (bytes "<patch_newline>") = 0 ∧
      countOcc imPatch (bytes "<im_start>") = 0 ∧ countOcc imPatch (bytes "<im_end>") = 0 := by
  decide

/-- What the loop over the patches writes. -/
theorem patches_spec (newline : Nat → Bool) (np : Nat) :
    let patches := (List.range np).foldl (fun out i =>
      let out := appendPlaceholderRows out (bytes "<patch_start>") (bytes "<patch_end>") 81
      if newline i then out ++ bytes "<patch_newline>" else out) []
    Opens 0x3c patches ∧ countOcc imPatch patches = 81 * np := by
  obtain ⟨hstart, hend, hnewline, -, -⟩ := patchTag_opens
  obtain ⟨cstart, cend, cnewline, -, -⟩ := patchTag_clear
  induction np with
  | zero => exact ⟨opens_nil _, rfl⟩
  | succ np ih =>
    simp only [List.range_succ, List.foldl_append, List.foldl_cons, List.foldl_nil] at ih ⊢
    generalize (List.range np).foldl _ [] = out at ih ⊢
    have hopens := opens_rows ih.1 hstart hend 81
    have hcount := countOcc_rows hstart hend out 81
    rw [ih.2, cstart, cend] at hcount
    split
    · refine ⟨hopens.append hnewline, ?_⟩
      rw [countOcc_append_opened imPatch_tag.toGuarded hnewline, hcount, cnewline]
      omega
    · refine ⟨hopens, ?_⟩
      rw [hcount]
      omega

/-- How many markers a placeholder has. -/
theorem countOcc_placeholder (newline : Nat → Bool) (np : Nat) :
    countOcc imPatch (placeholder newline np) = 81 * np + 169 := by
  obtain ⟨-, -, -, hstart, hend⟩ := patchTag_opens
  obtain ⟨-, -, -, cstart, cend⟩ := patchTag_clear
  obtain ⟨-, hcount⟩ := patches_spec newline np
  dsimp only at hcount
  rw [placeholder, countOcc_rows hstart hend, hcount, cstart, cend]

theorem placeholder_closed (newline : Nat → Bool) (np : Nat) :
    Closed 0x3c 0x3e (placeholder newline np) := by
  obtain ⟨-, -, -, hstart, hend⟩ := patchTag_opens
  obtain ⟨hopens, -⟩ := patches_spec newline np
  have hlast : Tag 0x3c 0x3e (bytes "<im_end>") := by decide
  have hall := opens_rows hopens hstart hend 169
  refine ⟨?_, hall, hlast.closes.append_left hlast.ne_nil _⟩
  rw [placeholder, appendPlaceholderRows]
  exact List.append_ne_nil_of_right_ne_nil _ hlast.ne_nil

/-- The placeholder of an image. -/
def imagePlaceholder (b : Batch F) (i : Nat) : Bytes :=
  placeholder (fun k => b.patchNewlineMask (((List.range i).map b.patchesPerImage).sum + k))
    (b.patchesPerImage i)

theorem placeholderForImage_some (hb : b.Consistent) {i : Nat} (hi : i < b.images) :
    placeholderForImage b i = some (imagePlaceholder b i) := placeholderForImage_eq hb hi

theorem placeholderText_eq (hb : b.Consistent) :
    placeholderText b = some ((List.range b.images).flatMap (imagePlaceholder b)) := by
  have hloop : ∀ n ≤ b.images,
      (List.range n).foldlM (fun out i => (placeholderForImage b i).map (out ++ ·)) ([] : Bytes) =
        some ((List.range n).flatMap (imagePlaceholder b)) := by
    intro n hn
    induction n with
    | zero => rfl
    | succ n ih =>
      rw [List.range_succ, List.foldlM_append, ih (by omega)]
      simp [placeholderForImage_some hb (show n < b.images by omega)]
  exact hloop b.images (Nat.le_refl _)

/-- The markers of all images. -/
theorem countOcc_flatMap_placeholders (l : List Nat) :
    countOcc imPatch (l.flatMap (imagePlaceholder b)) =
      (l.map fun i => 81 * b.patchesPerImage i + 169).sum := by
  have hopens : ∀ i ∈ l, Opens 0x3c (imagePlaceholder b i) := fun _ _ =>
    (placeholder_closed _ _).opens
  rw [countOcc_flatMap imPatch_tag.toGuarded hopens]
  refine congrArg List.sum (List.map_congr_left fun i _ => ?_)
  exact countOcc_placeholder _ _

/-! ## A whole call -/

/-- A batch without images leaves the text alone. -/
theorem applyPlaceholders_noImages (h : b.images = 0) (text : Bytes) :
    applyPlaceholders b text = .ok text := if_pos h

/-- Every marker of the text is replaced by the placeholder of its image, and nothing else. -/
def MarkersReplaced (b : Batch F) (text out : Bytes) : Prop :=
  ∃ pieces ones, pieces.length = b.images + 1 ∧ (∀ p ∈ pieces, Clear imPatch p) ∧
    ones.map some = (List.range b.images).map (placeholderForImage b) ∧
    text = weave pieces (List.replicate b.images imPatch) ∧ out = weave pieces ones

/-- What a call makes of a text without markers. -/
theorem applyPlaceholders_none (hb : b.Consistent) (himages : b.images ≠ 0) {text : Bytes}
    (htext : countOcc imPatch text = 0) :
    applyPlaceholders b text = .ok ((if text = [] then [] else text ++ [0x0a]) ++
      (List.range b.images).flatMap (imagePlaceholder b)) := by
  rw [applyPlaceholders, if_neg himages, countMarkers_eq (Nat.lt_succ_self _), htext,
    placeholderText_eq hb]
  rfl

/-- What a call makes of a text with a marker for each image. -/
theorem applyPlaceholders_each (hb : b.Consistent) (himages : b.images ≠ 0) {text : Bytes}
    (htext : countOcc imPatch text = b.images) (hsmall : countOcc imPatch text < 2 ^ 32) :
    ∃ out, applyPlaceholders b text = .ok out ∧ MarkersReplaced b text out ∧
      countOcc imPatch out =
        ((List.range b.images).map fun i => 81 * b.patchesPerImage i + 169).sum := by
  obtain ⟨pieces, hlen, hpieces, hcut⟩ := exists_pieces imPatch_tag text
  rw [htext] at hlen hcut
  let ones := (List.range b.images).map (imagePlaceholder b)
  have honesLen : ones.length = b.images := by simp [ones]
  have hones (k : Nat) (h : k < ones.length) :
      placeholderForImage b (0 + k) = some (ones.get ⟨k, h⟩) := by
    rw [Nat.zero_add, placeholderForImage_some hb (honesLen ▸ h)]
    simp [ones]
  have hreplicate : ones.map (fun _ => imPatch) = List.replicate b.images imPatch := by
    rw [List.map_const', honesLen]
  have hloop := replaceLoop_eq hones (by rw [honesLen, hlen]) hpieces []
  rw [hreplicate, ← hcut, honesLen, List.nil_append] at hloop
  refine ⟨weave pieces ones, ?_, ⟨pieces, ones, hlen, hpieces, ?_, hcut, rfl⟩, ?_⟩
  · rw [applyPlaceholders, if_neg himages, countMarkers_eq (Nat.lt_succ_self _),
      Nat.mod_eq_of_lt hsmall, htext]
    simp only [ne_eq, not_true_eq_false, and_false, if_false, if_neg himages, hloop]
  · rw [List.map_map]
    refine List.map_congr_left fun i hi => ?_
    exact (placeholderForImage_some hb (List.mem_range.mp hi)).symm
  · have hclosed : ∀ t ∈ ones, Closed 0x3c 0x3e t := by
      intro t ht
      obtain ⟨i, -, rfl⟩ := List.mem_map.mp ht
      exact placeholder_closed _ _
    rw [countOcc_weave imPatch_tag (by rw [honesLen, hlen]) hpieces hclosed, List.map_map]
    refine congrArg List.sum (List.map_congr_left fun i _ => ?_)
    exact countOcc_placeholder _ _

/-- For a consistent batch with images, a call fails exactly when the text has markers and not
one for each image. Where it has one for each they are replaced, and what a call makes has the
markers of the images. -/
theorem applyPlaceholders_spec (hb : b.Consistent) (himages : b.images ≠ 0) {text : Bytes}
    (hsmall : countOcc imPatch text < 2 ^ 32) :
    ((∃ e, applyPlaceholders b text = .error e) ↔
      countOcc imPatch text ≠ 0 ∧ countOcc imPatch text ≠ b.images) ∧
    (countOcc imPatch text = b.images →
      ∃ out, applyPlaceholders b text = .ok out ∧ MarkersReplaced b text out) ∧
    ∀ out, applyPlaceholders b text = .ok out →
      countOcc imPatch out =
        ((List.range b.images).map fun i => 81 * b.patchesPerImage i + 169).sum := by
  rcases eq_or_ne (countOcc imPatch text) 0 with hzero | hsome
  · have hcall := applyPlaceholders_none hb himages hzero
    refine ⟨?_, fun hall => absurd (hall.symm.trans hzero) himages, fun out hout => ?_⟩
    · simp [hcall, hzero]
    · obtain rfl := Except.ok.inj (hcall.symm.trans hout)
      have hopens : Opens 0x3c ((List.range b.images).flatMap (imagePlaceholder b)) :=
        Opens.flatMap fun _ _ => (placeholder_closed _ _).opens
      have hhead : countOcc imPatch (if text = [] then [] else text ++ [0x0a]) = 0 := by
        split
        next => rfl
        next =>
          have hforeign : (0x0a : UInt8) ∉ imPatch := by decide
          rw [countOcc_append_foreign hforeign, hzero]
          decide
      rw [countOcc_append_opened imPatch_tag.toGuarded hopens, hhead, Nat.zero_add,
        countOcc_flatMap_placeholders]
  · rcases eq_or_ne (countOcc imPatch text) b.images with hall | hdiff
    · obtain ⟨out, hout, hreplaced, hcount⟩ := applyPlaceholders_each hb himages hall hsmall
      refine ⟨?_, fun _ => ⟨out, hout, hreplaced⟩, fun out' hout' => ?_⟩
      · simp [hout, hall]
      · obtain rfl := Except.ok.inj (hout.symm.trans hout')
        exact hcount
    · have hcall : applyPlaceholders b text =
          .error (countError (countOcc imPatch text) b.images) := by
        rw [applyPlaceholders, if_neg himages, countMarkers_eq (Nat.lt_succ_self _),
          Nat.mod_eq_of_lt hsmall]
        exact if_pos ⟨hsome, hdiff⟩
      refine ⟨?_, fun h => absurd h hdiff, fun out hout => ?_⟩
      · simp [hcall, hsome, hdiff]
      · rw [hcall] at hout
        cases hout

/-- An image of two patches, the first with a line break behind it, and one of a single patch. -/
def twoImageBatch : Batch Nat :=
  { Batch.empty with
    images := 2, patchImages := 3
    patchesPerImage := fun i => if i = 0 then 2 else 1, patchNewlineMask := fun i => decide (i = 0) }

theorem applyPlaceholders_spec_twoImages :
    let text := bytes "look: <im_patch>!\n<im_patch>"
    twoImageBatch.Consistent ∧ twoImageBatch.images ≠ 0 ∧ countOcc imPatch text < 2 ^ 32 ∧
      (∃ out, applyPlaceholders twoImageBatch text = .ok out ∧
        MarkersReplaced twoImageBatch text out ∧ countOcc imPatch out = 581) := by
  have hb : twoImageBatch.Consistent := by decide
  have htwo : countOcc imPatch (bytes "look: <im_patch>!\n<im_patch>") = 2 := by decide
  have hsmall : countOcc imPatch (bytes "look: <im_patch>!\n<im_patch>") < 2 ^ 32 := by
    rw [htwo]
    decide
  obtain ⟨-, hreplaced, hcount⟩ := applyPlaceholders_spec hb (by decide) hsmall
  obtain ⟨out, hout, hmarkers⟩ := hreplaced htwo
  exact ⟨hb, by decide, hsmall, out, hout, hmarkers, hcount out hout⟩

/-- Markers and nothing else. -/
def markers (n : Nat) : Bytes := (List.replicate n imPatch).flatten

theorem countOcc_markers (n : Nat) : countOcc imPatch (markers n) = n := (markers_spec n).2

/-- Where the count of the markers begins again at 0 they are left alone. -/
theorem applyPlaceholders_markers (hb : b.Consistent) (himages : b.images ≠ 0) {n : Nat}
    (hn : n % 2 ^ 32 = 0) : ∃ out, applyPlaceholders b (markers n) = .ok out := by
  rw [applyPlaceholders, if_neg himages, countMarkers_eq (Nat.lt_succ_self _), countOcc_markers,
    hn, placeholderText_eq hb]
  exact ⟨_, rfl⟩

/-- An image of two patches, the first with a line break behind it. -/
def twoPatchBatch : Batch Nat :=
  { Batch.empty with
    images := 1, patchImages := 2
    patchesPerImage := fun _ => 2, patchNewlineMask := fun i => decide (i = 0) }

/-- A batch without images takes a text with a marker, and one with an image takes a text with
so many that their count begins again. -/
theorem applyPlaceholders_takesMarkers :
    (countOcc imPatch imPatch = 1 ∧ (Batch.empty : Batch Nat).Consistent ∧
      applyPlaceholders (Batch.empty : Batch Nat) imPatch = .ok imPatch) ∧
    (countOcc imPatch (markers 4294967296) = 4294967296 ∧ twoPatchBatch.Consistent ∧
      twoPatchBatch.images = 1 ∧
        ∃ out, applyPlaceholders twoPatchBatch (markers 4294967296) = .ok out) := by
  have hb : twoPatchBatch.Consistent := by decide
  have himages : twoPatchBatch.images ≠ 0 := by decide
  refine ⟨⟨by decide, consistent_empty, applyPlaceholders_noImages rfl _⟩, ?_⟩
  exact ⟨countOcc_markers _, hb, rfl, applyPlaceholders_markers hb himages (by decide)⟩

end Sf37.Image

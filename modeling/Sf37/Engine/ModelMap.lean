/-
Sf37.Engine.ModelMap — the parts of the model file that are mapped for the device:
`sf37_weights_model_map_spans` and `accelerator_prepare_model_tensor_spans`.

Both sort the byte ranges of tensors and merge them in one pass. The first joins ranges that
touch. The second joins over a gap as long as the joined range is not too large. What the caches
of CUDA answer is a parameter; the progress that is printed is left out, and so is the growth of
the arrays.

* `includeAll_eq`: what the bound tensors add to the spans.
* `mergeLoop_eq`: the merge in place is the merge of `Run.Spans`.
* `prepareLoop_eq`: so is the grouping, when nothing stops it.
* `modelMapSpans_spec`, `prepareModelTensorSpans_spec`: what the two functions give.
* `modelMap_covers`: the spans are the bytes of the bound tensors, and what is cached covers the
  tensors that are accepted.
-/
import Mathlib.Data.List.ReduceOption
import Mathlib.Data.List.Sort
import Sf37.Gguf.Open
import Sf37.Run.Spans

namespace Sf37.Engine

open Sf37.Run Sf37.Gguf

/-! ## The bound tensors -/

/-- `sf37_layer_weights`. -/
structure LayerWeights where
  qProj : Option Tensor
  kProj : Option Tensor
  vProj : Option Tensor
  oProj : Option Tensor
  gProj : Option Tensor
  qNorm : Option Tensor
  kNorm : Option Tensor
  inputNorm : Option Tensor
  postNorm : Option Tensor
  mlpGate : Option Tensor
  mlpUp : Option Tensor
  mlpDown : Option Tensor
  routerGate : Option Tensor
  routerBias : Option Tensor
  moeGate : Option Tensor
  moeUp : Option Tensor
  moeDown : Option Tensor
  shareGate : Option Tensor
  shareUp : Option Tensor
  shareDown : Option Tensor

/-- `sf37_vision_block`. -/
structure VisionBlock where
  inProjWeight : Option Tensor
  inProjBias : Option Tensor
  outProjWeight : Option Tensor
  outProjBias : Option Tensor
  ln1Weight : Option Tensor
  ln1Bias : Option Tensor
  ln2Weight : Option Tensor
  ln2Bias : Option Tensor
  ls1Gamma : Option Tensor
  ls2Gamma : Option Tensor
  mlpFcWeight : Option Tensor
  mlpFcBias : Option Tensor
  mlpProjWeight : Option Tensor
  mlpProjBias : Option Tensor

/-- `sf37_vision_weights`. -/
structure VisionWeights where
  conv1Weight : Option Tensor
  lnPreWeight : Option Tensor
  lnPreBias : Option Tensor
  positionalEmbedding : Option Tensor
  block : List VisionBlock
  down1Weight : Option Tensor
  down1Bias : Option Tensor
  down2Weight : Option Tensor
  down2Bias : Option Tensor
  projector : Option Tensor

/-- The tensors of `sf37_engine`. -/
structure BoundTensors where
  embedTokens : Option Tensor
  lmHead : Option Tensor
  finalNorm : Option Tensor
  layer : List LayerWeights
  vision : VisionWeights

def LayerWeights.tensors (l : LayerWeights) : List (Option Tensor) :=
  [l.qProj, l.kProj, l.vProj, l.oProj, l.gProj, l.qNorm, l.kNorm, l.inputNorm, l.postNorm,
    l.mlpGate, l.mlpUp, l.mlpDown, l.routerGate, l.routerBias, l.moeGate, l.moeUp, l.moeDown,
    l.shareGate, l.shareUp, l.shareDown]

def VisionBlock.tensors (b : VisionBlock) : List (Option Tensor) :=
  [b.inProjWeight, b.inProjBias, b.outProjWeight, b.outProjBias, b.ln1Weight, b.ln1Bias,
    b.ln2Weight, b.ln2Bias, b.ls1Gamma, b.ls2Gamma, b.mlpFcWeight, b.mlpFcBias, b.mlpProjWeight,
    b.mlpProjBias]

/-! ## The spans of the bound tensors -/

/-- `sf37_model_map_span` and `sf37_accelerator_tensor_span`. -/
abbrev ModelMapSpan := Span Nat

/-- `sf37_model_map_span_vec`. -/
structure ModelMapSpanVec where
  v : List ModelMapSpan
  maxTensorBytes : Nat

def u64Max : Nat := 18446744073709551615

/-- What is added to `uint64_t` wraps around. -/
def u64Add (a b : Nat) : Nat := (a + b) % 18446744073709551616

/-- `model_map_span_include_tensor`: `lo`, `hi` and `max_tensor_bytes` after it. -/
def modelMapSpanIncludeTensor (t : Tensor) (lo hi maxTensorBytes : Nat) : Nat × Nat × Nat :=
  if t.nbytes = 0 then (lo, hi, maxTensorBytes)
  else
    let stop := u64Add t.absOffset t.nbytes
    (if lo = u64Max ∨ t.absOffset < lo then t.absOffset else lo,
      if hi < stop then stop else hi,
      if maxTensorBytes < t.nbytes then t.nbytes else maxTensorBytes)

/-- `model_map_span_vec_append`. -/
def ModelMapSpanVec.append (spans : ModelMapSpanVec) (lo hi : Nat) : ModelMapSpanVec :=
  if lo = u64Max ∨ hi ≤ lo then spans else { spans with v := spans.v ++ [⟨lo, hi⟩] }

/-- `model_map_span_vec_include_one`. -/
def ModelMapSpanVec.includeOne (spans : ModelMapSpanVec) : Option Tensor → ModelMapSpanVec
  | none => spans
  | some t =>
    if t.nbytes = 0 then spans
    else
      let (lo, hi, maxTensorBytes) := modelMapSpanIncludeTensor t u64Max 0 spans.maxTensorBytes
      { spans with maxTensorBytes := maxTensorBytes }.append lo hi

/-- Calls of `model_map_span_vec_include_one`, one after another. -/
def ModelMapSpanVec.includeAll (spans : ModelMapSpanVec) (ts : List (Option Tensor)) :
    ModelMapSpanVec :=
  ts.foldl ModelMapSpanVec.includeOne spans

/-- `model_map_span_vec_include_layer`. -/
def ModelMapSpanVec.includeLayer (spans : ModelMapSpanVec) (l : LayerWeights) : ModelMapSpanVec :=
  spans.includeAll l.tensors

/-- `model_map_span_vec_include_output`. -/
def ModelMapSpanVec.includeOutput (spans : ModelMapSpanVec) (e : BoundTensors) :
    ModelMapSpanVec :=
  spans.includeAll [e.finalNorm, e.lmHead]

/-- A turn of the loop of `model_map_span_vec_include_vision`. -/
def ModelMapSpanVec.includeBlock (spans : ModelMapSpanVec) (b : VisionBlock) : ModelMapSpanVec :=
  spans.includeAll b.tensors

/-- `model_map_span_vec_include_vision`. -/
def ModelMapSpanVec.includeVision (spans : ModelMapSpanVec) (v : VisionWeights) :
    ModelMapSpanVec :=
  let spans := spans.includeAll [v.conv1Weight, v.lnPreWeight, v.lnPreBias, v.positionalEmbedding]
  let spans := v.block.foldl ModelMapSpanVec.includeBlock spans
  spans.includeAll [v.down1Weight, v.down1Bias, v.down2Weight, v.down2Bias, v.projector]

/-- `model_map_span_cmp` and `accelerator_tensor_span_cmp`. -/
def modelMapSpanCmp (sa sb : ModelMapSpan) : Int :=
  if sa.off < sb.off then -1
  else if sa.off > sb.off then 1
  else if sa.stop < sb.stop then -1
  else if sa.stop > sb.stop then 1
  else 0

/-- `qsort` of spans: those that compare equal are equal, so there is one sorted order. -/
def sortSpans (l : List ModelMapSpan) : List ModelMapSpan :=
  l.insertionSort fun sa sb => modelMapSpanCmp sa sb ≤ 0

/-- `spans->v[i]`. -/
def spanAt (v : List ModelMapSpan) (i : Nat) : ModelMapSpan := v.getD i ⟨0, 0⟩

/-- A turn of the merge in place, over the array and `out`. -/
def mergeTurn (st : List ModelMapSpan × Nat) (i : Nat) : List ModelMapSpan × Nat :=
  let (v, out) := st
  if out = 0 ∨ (spanAt v i).off > (spanAt v (out - 1)).stop then
    (v.set out (spanAt v i), out + 1)
  else if (spanAt v i).stop > (spanAt v (out - 1)).stop then
    (v.set (out - 1) { spanAt v (out - 1) with stop := (spanAt v i).stop }, out)
  else (v, out)

/-- The merge in place: the array up to `out`. -/
def mergeLoop (v : List ModelMapSpan) : List ModelMapSpan :=
  let (v, out) := (List.range' 0 v.length).foldl mergeTurn (v, 0)
  v.take out

/-- What `sf37_weights_model_map_spans` includes. -/
def ModelMapSpanVec.includeBound (spans : ModelMapSpanVec) (e : BoundTensors)
    (includeOutput includeVision : Bool) : ModelMapSpanVec :=
  let spans := spans.includeOne e.embedTokens
  let spans := e.layer.foldl ModelMapSpanVec.includeLayer spans
  let spans := if includeOutput then spans.includeOutput e else spans
  if includeVision then spans.includeVision e.vision else spans

/-- `sf37_weights_model_map_spans`. -/
def sf37WeightsModelMapSpans (e : BoundTensors) (includeOutput includeVision : Bool) :
    Bool × ModelMapSpanVec :=
  let spans := ModelMapSpanVec.includeBound ⟨[], 0⟩ e includeOutput includeVision
  if spans.v.length = 0 ∨ spans.maxTensorBytes = 0 then (false, spans)
  else
    let merged := mergeLoop (sortSpans spans.v)
    (merged.length != 0, { spans with v := merged })

/-! ## What is cached -/

/-- A range of the file; those of `span_offsets` and `span_sizes`, and those that are cached. -/
structure ModelRange where
  off : Nat
  bytes : Nat
  deriving DecidableEq

/-- The ranges `sf37_cuda_prepare_model` hands on. -/
def ModelMapSpanVec.ranges (spans : ModelMapSpanVec) : List ModelRange :=
  spans.v.map fun s => ⟨s.off, s.stop - s.off⟩

/-- The loop of `accelerator_span_filter_contains`. -/
def spanFilterScan (off stop : Nat) : List ModelRange → Bool
  | [] => false
  | s :: spans =>
    let spanEnd := u64Add s.off s.bytes
    if spanEnd < s.off then false
    else if off ≥ s.off ∧ stop ≤ spanEnd then true
    else spanFilterScan off stop spans

/-- `accelerator_span_filter_contains`. -/
def acceleratorSpanFilterContains (off bytes : Nat) (spans : List ModelRange) : Bool :=
  if spans.length = 0 then true
  else if bytes = 0 then true
  else
    let stop := u64Add off bytes
    if stop < off then false else spanFilterScan off stop spans

/-- The spans of the tensors that are accepted; nothing when one is not in the file. -/
def collectTensorSpans (size : Nat) (spans : List ModelRange) :
    List Tensor → Option (List ModelMapSpan)
  | [] => some []
  | t :: tensors =>
    if t.nbytes = 0 then collectTensorSpans size spans tensors
    else if t.absOffset > size ∨ t.nbytes > size - t.absOffset then none
    else if !acceleratorSpanFilterContains t.absOffset t.nbytes spans then
      collectTensorSpans size spans tensors
    else (⟨t.absOffset, u64Add t.absOffset t.nbytes⟩ :: ·) <$> collectTensorSpans size spans tensors

/-- What the preload depends on: `max_span`, the limit when there is one, the answers of
`sf37_cuda_cache_model_range` after what was cached, and `SF37_CUDA_STRICT_WEIGHT_CACHE`. -/
structure Preload where
  maxSpan : Nat
  startupLimit : Option Nat
  cacheModelRange : List ModelRange → ModelRange → Bool
  strict : Bool

/-- `prepared`, and what was cached. -/
structure Prepared where
  prepared : Nat
  cached : List ModelRange

/-- The inner loop: the end of the group that begins at `off`, and the spans behind it. -/
def extendGroup (maxSpan off : Nat) : Nat → List ModelMapSpan → Nat × List ModelMapSpan
  | stop, [] => (stop, [])
  | stop, s :: spans =>
    if s.off ≤ u64Add stop 65536 ∧ s.stop - off ≤ maxSpan then
      extendGroup maxSpan off (if s.stop > stop then s.stop else stop) spans
    else (stop, s :: spans)

/-- The loop over the groups, with what was prepared, and whether it goes on after it. A turn takes
a span or more, so as many turns as spans are enough. -/
def prepareLoop (p : Preload) : Nat → List ModelMapSpan → Prepared → Bool × Prepared
  | 0, _, st => (true, st)
  | _ + 1, [], st => (true, st)
  | fuel + 1, s :: spans, st =>
    let (stop, spans) := extendGroup p.maxSpan s.off s.stop spans
    let range : ModelRange := ⟨s.off, stop - s.off⟩
    let overBudget := match p.startupLimit with
      | none => false
      | some limit => decide (st.prepared ≥ limit ∨ range.bytes > limit - st.prepared)
    if overBudget then (true, st)
    else if !p.cacheModelRange st.cached range then (!p.strict, st)
    else prepareLoop p fuel spans ⟨u64Add st.prepared range.bytes, st.cached ++ [range]⟩

/-- `accelerator_prepare_model_tensor_spans`. -/
def acceleratorPrepareModelTensorSpans (p : Preload) (g : GgufFile) (spans : List ModelRange) :
    Bool × Prepared :=
  if g.size = 0 then (false, ⟨0, []⟩)
  else if g.nTensors = 0 then (true, ⟨0, []⟩)
  else if spans.any fun s => s.off > g.size || s.bytes == 0 || s.bytes > g.size - s.off then
    (false, ⟨0, []⟩)
  else
    match collectTensorSpans g.size spans (g.tensors.take g.nTensors) with
    | none => (false, ⟨0, []⟩)
    | some tensorSpans => prepareLoop p tensorSpans.length (sortSpans tensorSpans) ⟨0, []⟩

/-! ## What is included -/

/-- The tensors that `sf37_weights_model_map_spans` looks at, in order. -/
def BoundTensors.tensors (e : BoundTensors) (includeOutput includeVision : Bool) :
    List (Option Tensor) :=
  e.embedTokens :: e.layer.flatMap LayerWeights.tensors ++
    (if includeOutput then [e.finalNorm, e.lmHead] else []) ++
    if includeVision then
      [e.vision.conv1Weight, e.vision.lnPreWeight, e.vision.lnPreBias,
        e.vision.positionalEmbedding] ++ e.vision.block.flatMap VisionBlock.tensors ++
        [e.vision.down1Weight, e.vision.down1Bias, e.vision.down2Weight, e.vision.down2Bias,
          e.vision.projector]
    else []

/-- Those among them that are bound and have bytes. -/
def included (ts : List (Option Tensor)) : List Tensor :=
  ts.reduceOption.filter fun t => t.nbytes ≠ 0

/-- The bytes of a tensor. -/
def tensorSpan (t : Tensor) : ModelMapSpan := ⟨t.absOffset, t.absOffset + t.nbytes⟩

/-- The bytes of the tensor are in a file of `size` bytes. -/
def InFile (size : Nat) (t : Tensor) : Prop := t.absOffset + t.nbytes ≤ size

instance (size : Nat) (t : Tensor) : Decidable (InFile size t) :=
  inferInstanceAs (Decidable (t.absOffset + t.nbytes ≤ size))

theorem u64Add_eq {a b : Nat} (h : a + b < 18446744073709551616) : u64Add a b = a + b :=
  Nat.mod_eq_of_lt h

theorem includeOne_eq {size : Nat} (hsize : size < 18446744073709551616) {t : Tensor}
    (hbytes : t.nbytes ≠ 0) (ht : InFile size t) (spans : ModelMapSpanVec) :
    spans.includeOne (some t) =
      ⟨spans.v ++ [tensorSpan t], max spans.maxTensorBytes t.nbytes⟩ := by
  unfold InFile at ht
  have hstop : u64Add t.absOffset t.nbytes = t.absOffset + t.nbytes := u64Add_eq (by omega)
  have hlo : ¬ (t.absOffset = u64Max ∨ t.absOffset + t.nbytes ≤ t.absOffset) := by
    unfold u64Max
    omega
  have hmax : (if spans.maxTensorBytes < t.nbytes then t.nbytes else spans.maxTensorBytes) =
      max spans.maxTensorBytes t.nbytes := by
    split <;> omega
  simp only [ModelMapSpanVec.includeOne, if_neg hbytes, modelMapSpanIncludeTensor, true_or,
    if_true, hstop, hmax]
  rw [if_pos (by omega), ModelMapSpanVec.append, if_neg hlo]
  rfl

/-- What the tensors add to the spans. -/
theorem includeAll_eq {size : Nat} (hsize : size < 18446744073709551616)
    {ts : List (Option Tensor)} (h : ∀ t ∈ included ts, InFile size t) (spans : ModelMapSpanVec) :
    (spans.includeAll ts).v = spans.v ++ (included ts).map tensorSpan ∧
      ((spans.includeAll ts).maxTensorBytes = 0 ↔ spans.maxTensorBytes = 0 ∧ included ts = []) := by
  induction ts generalizing spans with
  | nil => exact ⟨(List.append_nil _).symm, (and_iff_left rfl).symm⟩
  | cons o ts ih =>
    cases o with
    | none => exact ih h spans
    | some t =>
      by_cases hbytes : t.nbytes = 0
      · have hskip : included (some t :: ts) = included ts := by
          rw [included, List.reduceOption_cons_of_some,
            List.filter_cons_of_neg (by simpa using hbytes)]
          rfl
        have hone : spans.includeOne (some t) = spans := if_pos hbytes
        rw [hskip] at h ⊢
        rw [ModelMapSpanVec.includeAll, List.foldl_cons, hone]
        exact ih h spans
      · have hkeep : included (some t :: ts) = t :: included ts := by
          rw [included, List.reduceOption_cons_of_some,
            List.filter_cons_of_pos (by simpa using hbytes)]
          rfl
        rw [hkeep] at h ⊢
        obtain ⟨ht, hts⟩ := List.forall_mem_cons.mp h
        obtain ⟨hv, hmax⟩ := ih hts ⟨spans.v ++ [tensorSpan t], max spans.maxTensorBytes t.nbytes⟩
        rw [ModelMapSpanVec.includeAll, List.foldl_cons, includeOne_eq hsize hbytes ht]
        refine ⟨hv.trans ?_, hmax.trans ?_⟩
        · rw [List.map_cons, List.append_assoc]
          rfl
        · refine iff_of_false (fun hzero => hbytes ?_) (fun hnil => List.cons_ne_nil _ _ hnil.2)
          have hle := hzero.1
          dsimp only at hle
          omega

theorem includeAll_append (spans : ModelMapSpanVec) (ts us : List (Option Tensor)) :
    spans.includeAll (ts ++ us) = (spans.includeAll ts).includeAll us :=
  List.foldl_append

/-- The loops and calls look at all of the tensors in order. -/
theorem includeBound_eq (e : BoundTensors) (includeOutput includeVision : Bool)
    (spans : ModelMapSpanVec) :
    spans.includeBound e includeOutput includeVision =
      spans.includeAll (e.tensors includeOutput includeVision) := by
  have hlayer : ∀ spans : ModelMapSpanVec, spans.includeAll (e.layer.flatMap LayerWeights.tensors) =
      e.layer.foldl ModelMapSpanVec.includeLayer spans := fun spans => List.foldl_flatMap
  have hblock : ∀ spans : ModelMapSpanVec,
      spans.includeAll (e.vision.block.flatMap VisionBlock.tensors) =
        e.vision.block.foldl ModelMapSpanVec.includeBlock spans := fun spans => List.foldl_flatMap
  have hnil : ∀ spans : ModelMapSpanVec, spans.includeAll [] = spans := fun spans => rfl
  have hcons : ∀ (spans : ModelMapSpanVec) (o : Option Tensor) (ts : List (Option Tensor)),
      spans.includeAll (o :: ts) = (spans.includeOne o).includeAll ts := fun spans o ts => rfl
  rw [BoundTensors.tensors, includeAll_append, includeAll_append, hcons, hlayer]
  cases includeOutput <;> cases includeVision
  · rfl
  · rw [if_pos rfl, includeAll_append, includeAll_append, hblock]
    rfl
  · rfl
  · rw [if_pos rfl, if_pos rfl, includeAll_append, includeAll_append, hblock]
    rfl

/-! ## The merge in place -/

/-- The first loop joins spans that touch. -/
def touches (cur s : ModelMapSpan) : Bool := decide (s.off ≤ cur.stop)

theorem spanAt_append (l : List ModelMapSpan) (s : ModelMapSpan) (rest : List ModelMapSpan) :
    spanAt (l ++ s :: rest) l.length = s := by
  rw [spanAt, List.getD_eq_getElem?_getD, List.getElem?_append_right le_rfl, Nat.sub_self]
  rfl

/-- The places of a turn: the spans before `out` are `kept` and `cur`, and `s` comes behind what is
left over. -/
theorem spanAt_turn (kept gap rest : List ModelMapSpan) (cur s : ModelMapSpan) :
    spanAt (kept ++ cur :: (gap ++ s :: rest)) kept.length = cur ∧
      spanAt (kept ++ cur :: (gap ++ s :: rest)) (kept.length + 1 + gap.length) = s := by
  refine ⟨spanAt_append kept cur _, ?_⟩
  have hs := spanAt_append (kept ++ cur :: gap) s rest
  rwa [List.append_assoc, List.cons_append, List.length_append, List.length_cons,
    show kept.length + (gap.length + 1) = kept.length + 1 + gap.length by omega] at hs

/-- A turn that joins `s` to `cur`. -/
theorem mergeTurn_join {cur s : ModelMapSpan} (h : touches cur s = true)
    (kept gap rest : List ModelMapSpan) :
    mergeTurn (kept ++ cur :: (gap ++ s :: rest), kept.length + 1)
        (kept.length + 1 + gap.length) =
      (kept ++ ⟨cur.off, max cur.stop s.stop⟩ :: (gap ++ [s] ++ rest), kept.length + 1) := by
  obtain ⟨hcur, hs⟩ := spanAt_turn kept gap rest cur s
  have htouch : s.off ≤ cur.stop := of_decide_eq_true h
  simp only [mergeTurn, Nat.add_sub_cancel, hcur, hs]
  rw [if_neg (by omega), List.append_assoc, List.singleton_append]
  split
  next hlonger => rw [List.set_append_right _ _ le_rfl, Nat.sub_self, List.set_cons_zero,
    Nat.max_eq_right (Nat.le_of_lt hlonger)]
  next hshorter => rw [Nat.max_eq_left (Nat.not_lt.mp hshorter)]

/-- A turn that puts `s` behind `cur`. -/
theorem mergeTurn_next {cur s : ModelMapSpan} (h : touches cur s = false)
    (kept gap rest : List ModelMapSpan) :
    ∃ gap' : List ModelMapSpan, gap'.length = gap.length ∧
      mergeTurn (kept ++ cur :: (gap ++ s :: rest), kept.length + 1)
          (kept.length + 1 + gap.length) =
        (kept ++ [cur] ++ s :: (gap' ++ rest), kept.length + 1 + 1) := by
  obtain ⟨hcur, hs⟩ := spanAt_turn kept gap rest cur s
  have hapart : cur.stop < s.off := Nat.not_le.mp (of_decide_eq_false h)
  simp only [mergeTurn, Nat.add_sub_cancel, hcur, hs]
  rw [if_pos (.inr hapart), List.set_append_right _ _ (Nat.le_add_right _ 1),
    Nat.add_sub_cancel_left, List.set_cons_succ]
  cases gap with
  | nil => exact ⟨[], rfl, by simp⟩
  | cons g gap => exact ⟨gap ++ [s], by simp, by simp⟩

/-- The turns over the rest. -/
theorem mergeTurns_eq (rest kept gap : List ModelMapSpan) (cur : ModelMapSpan) :
    let (v, out) := (List.range' (kept.length + 1 + gap.length) rest.length).foldl mergeTurn
      (kept ++ cur :: (gap ++ rest), kept.length + 1)
    v.take out = kept ++ mergeFrom touches cur rest := by
  induction rest generalizing kept gap cur with
  | nil =>
    have hlen : (kept ++ [cur]).length = kept.length + 1 := List.length_append
    change (kept ++ cur :: (gap ++ [])).take (kept.length + 1) = kept ++ [cur]
    rw [List.append_cons, ← hlen, List.take_left]
  | cons s rest ih =>
    rw [List.length_cons, List.range'_succ, List.foldl_cons, mergeFrom]
    cases h : touches cur s with
    | true =>
      have hrest := ih kept (gap ++ [s]) ⟨cur.off, max cur.stop s.stop⟩
      rw [List.length_append, List.length_singleton, ← Nat.add_assoc] at hrest
      rw [mergeTurn_join h]
      exact hrest
    | false =>
      obtain ⟨gap', hgap, hturn⟩ := mergeTurn_next h kept gap rest
      have hrest := ih (kept ++ [cur]) gap' s
      rw [List.length_append, List.length_singleton, hgap,
        Nat.add_right_comm (kept.length + 1)] at hrest
      rw [hturn, if_neg Bool.false_ne_true, List.append_cons kept cur (mergeFrom touches s rest)]
      exact hrest

/-- The merge in place is the merge. -/
theorem mergeLoop_eq (v : List ModelMapSpan) : mergeLoop v = merge touches v := by
  cases v with
  | nil => rfl
  | cons s rest => exact mergeTurns_eq rest [] [] s

/-! ## The order of the spans -/

theorem modelMapSpanCmp_le_iff (sa sb : ModelMapSpan) :
    modelMapSpanCmp sa sb ≤ 0 ↔ sa.off < sb.off ∨ sa.off = sb.off ∧ sa.stop ≤ sb.stop := by
  unfold modelMapSpanCmp
  split_ifs <;> omega

/-- Behind `qsort` the spans are sorted by their front. -/
theorem sorted_sortSpans (l : List ModelMapSpan) : Sorted (sortSpans l) := by
  have htotal : Std.Total fun sa sb : ModelMapSpan => modelMapSpanCmp sa sb ≤ 0 :=
    ⟨fun sa sb => by rw [modelMapSpanCmp_le_iff, modelMapSpanCmp_le_iff]; omega⟩
  have htrans : IsTrans ModelMapSpan fun sa sb => modelMapSpanCmp sa sb ≤ 0 :=
    ⟨fun sa sb sc => by simp only [modelMapSpanCmp_le_iff]; omega⟩
  refine (List.pairwise_insertionSort (fun sa sb => modelMapSpanCmp sa sb ≤ 0) l).imp ?_
  intro sa sb h
  rw [modelMapSpanCmp_le_iff] at h
  omega

theorem mem_sortSpans {l : List ModelMapSpan} {s : ModelMapSpan} : s ∈ sortSpans l ↔ s ∈ l :=
  List.mem_insertionSort _

/-! ## The grouping -/

/-- The second loop joins over a gap while the group is not too large. -/
def groups (maxSpan : Nat) (cur s : ModelMapSpan) : Bool :=
  decide (s.off ≤ u64Add cur.stop 65536 ∧ s.stop - cur.off ≤ maxSpan)

/-- The inner loop makes the first group. -/
theorem extendGroup_eq (maxSpan off stop : Nat) (spans : List ModelMapSpan) :
    mergeFrom (groups maxSpan) ⟨off, stop⟩ spans =
        ⟨off, (extendGroup maxSpan off stop spans).1⟩ ::
          merge (groups maxSpan) (extendGroup maxSpan off stop spans).2 ∧
      (extendGroup maxSpan off stop spans).2.length ≤ spans.length := by
  induction spans generalizing stop with
  | nil => exact ⟨rfl, le_rfl⟩
  | cons s spans ih =>
    have hmax : (if s.stop > stop then s.stop else stop) = max stop s.stop := by
      split <;> omega
    rw [mergeFrom, extendGroup, hmax]
    by_cases h : s.off ≤ u64Add stop 65536 ∧ s.stop - off ≤ maxSpan
    · have hjoin : groups maxSpan ⟨off, stop⟩ s = true := decide_eq_true h
      rw [if_pos h, if_pos hjoin]
      exact ⟨(ih _).1, (ih _).2.trans (Nat.le_succ _)⟩
    · have hapart : ¬ groups maxSpan ⟨off, stop⟩ s = true := fun hjoin =>
        h (of_decide_eq_true hjoin)
      rw [if_neg h, if_neg hapart]
      exact ⟨rfl, le_rfl⟩

/-- The range of a span. -/
def spanRange (s : ModelMapSpan) : ModelRange := ⟨s.off, s.stop - s.off⟩

/-- With no budget, and a cache that takes every range, the groups are what the merge gives. -/
theorem prepareLoop_eq {p : Preload} (hlimit : p.startupLimit = none)
    (hcache : ∀ cached range, p.cacheModelRange cached range = true) {fuel : Nat}
    {spans : List ModelMapSpan} (hfuel : spans.length ≤ fuel) (st : Prepared) :
    (prepareLoop p fuel spans st).1 = true ∧
      (prepareLoop p fuel spans st).2.cached =
        st.cached ++ (merge (groups p.maxSpan) spans).map spanRange := by
  induction fuel generalizing spans st with
  | zero =>
    obtain rfl := List.length_eq_zero_iff.mp (Nat.le_zero.mp hfuel)
    exact ⟨rfl, (List.append_nil _).symm⟩
  | succ fuel ih =>
    cases spans with
    | nil => exact ⟨rfl, (List.append_nil _).symm⟩
    | cons s spans =>
      obtain ⟨hmerge, hlen⟩ := extendGroup_eq p.maxSpan s.off s.stop spans
      rw [merge, hmerge, prepareLoop]
      simp only [hlimit, hcache, Bool.false_eq_true, if_false, Bool.not_true]
      obtain ⟨hok, hcached⟩ := ih (hlen.trans (Nat.le_of_succ_le_succ hfuel)) ⟨u64Add st.prepared
        ((extendGroup p.maxSpan s.off s.stop spans).1 - s.off),
        st.cached ++ [⟨s.off, (extendGroup p.maxSpan s.off s.stop spans).1 - s.off⟩]⟩
      refine ⟨hok, hcached.trans ?_⟩
      rw [List.map_cons, List.append_assoc]
      rfl

/-! ## The spans of the bound tensors cover their bytes -/

/-- The bytes of a range are in a file of `size` bytes, and there are some. -/
def ModelRange.InFile (size : Nat) (r : ModelRange) : Prop :=
  r.bytes ≠ 0 ∧ r.off + r.bytes ≤ size

/-- What the first function gives. -/
theorem modelMapSpans_eq {size : Nat} (hsize : size < 18446744073709551616) (e : BoundTensors)
    (includeOutput includeVision : Bool)
    (hin : ∀ t ∈ included (e.tensors includeOutput includeVision), InFile size t) :
    let ts := included (e.tensors includeOutput includeVision)
    let out := sf37WeightsModelMapSpans e includeOutput includeVision
    out.2.v = merge touches (sortSpans (ts.map tensorSpan)) ∧ (out.1 = true ↔ ts ≠ []) := by
  obtain ⟨hv, hmax⟩ := includeAll_eq hsize hin ⟨[], 0⟩
  rw [← includeBound_eq] at hv hmax
  rw [List.nil_append] at hv
  unfold sf37WeightsModelMapSpans
  dsimp only
  split
  next hnone =>
    have hnil : included (e.tensors includeOutput includeVision) = [] := by
      rcases hnone with hlen | hzero
      · rwa [List.length_eq_zero_iff, hv, List.map_eq_nil_iff] at hlen
      · exact (hmax.mp hzero).2
    rw [hv, hnil]
    exact ⟨rfl, iff_of_false nofun fun h => h rfl⟩
  next hsome =>
    rw [mergeLoop_eq, hv]
    refine ⟨rfl, iff_of_true ?_ fun hnil => ?_⟩
    · obtain ⟨s, hs⟩ := List.exists_mem_of_length_pos (Nat.pos_of_ne_zero fun h => hsome (.inl h))
      rw [hv] at hs
      obtain ⟨m, hm, -⟩ := within_merge touches (sorted_sortSpans _) s
        (mem_sortSpans.mpr hs)
      rw [bne_iff_ne]
      exact (List.length_pos_of_mem hm).ne'
    · rw [hv, hnil] at hsome
      exact hsome (.inl rfl)

/-- What is made of the bytes of tensors is in the file and has each of them in one span. -/
theorem mergeTensors_spec {size : Nat} (joins : ModelMapSpan → ModelMapSpan → Bool)
    {ts : List Tensor} (h : ∀ t ∈ ts, t.nbytes ≠ 0 ∧ InFile size t) :
    (∀ s ∈ merge joins (sortSpans (ts.map tensorSpan)), s.off < s.stop ∧ s.stop ≤ size) ∧
      ∀ t ∈ ts, ∃ s ∈ merge joins (sortSpans (ts.map tensorSpan)), (tensorSpan t).Within s := by
  have hmem : ∀ s ∈ sortSpans (ts.map tensorSpan), s.off < s.stop ∧ s.stop ≤ size := by
    intro s hs
    obtain ⟨t, ht, rfl⟩ := List.mem_map.mp (mem_sortSpans.mp hs)
    exact ⟨Nat.lt_add_of_pos_right (Nat.pos_of_ne_zero (h t ht).1), (h t ht).2⟩
  refine ⟨fun s hs => ⟨merge_lt (fun s hs => (hmem s hs).1) s hs, ?_⟩, fun t ht => ?_⟩
  · obtain ⟨m, hm, hstop⟩ := (merge_ends s hs).2
    exact hstop ▸ (hmem m hm).2
  · exact within_merge joins (sorted_sortSpans _) _ (mem_sortSpans.mpr (List.mem_map_of_mem ht))

theorem nbytes_of_mem_included {ts : List (Option Tensor)} {t : Tensor} (ht : t ∈ included ts) :
    t.nbytes ≠ 0 :=
  of_decide_eq_true (List.mem_filter.mp ht).2

/-- The spans are sorted and do not touch, and have the bytes of the tensors. -/
theorem modelMapSpans_spec {size : Nat} (hsize : size < 18446744073709551616) (e : BoundTensors)
    (includeOutput includeVision : Bool)
    (hin : ∀ t ∈ included (e.tensors includeOutput includeVision), InFile size t) :
    let ts := included (e.tensors includeOutput includeVision)
    let spans := (sf37WeightsModelMapSpans e includeOutput includeVision).2
    (spans.v.Pairwise fun a b => a.stop < b.off) ∧
      (∀ s ∈ spans.v, s.off < s.stop ∧ s.stop ≤ size) ∧
      (∀ x, (∃ s ∈ spans.v, s.Has x) ↔ ∃ t ∈ ts, (tensorSpan t).Has x) ∧
      ∀ t ∈ ts, ∃ s ∈ spans.v, (tensorSpan t).Within s := by
  have hsorted := sorted_sortSpans
    ((included (e.tensors includeOutput includeVision)).map tensorSpan)
  have htouches : ∀ a b, touches a b = true → b.off ≤ a.stop := fun a b h => of_decide_eq_true h
  have hapart : ∀ a b, touches a b = false → a.stop < b.off := fun a b h =>
    Nat.not_le.mp (of_decide_eq_false h)
  obtain ⟨hmerged, hwithin⟩ := mergeTensors_spec touches
    fun t ht => ⟨nbytes_of_mem_included ht, hin t ht⟩
  dsimp only
  rw [(modelMapSpans_eq hsize e includeOutput includeVision hin).1]
  refine ⟨merge_apart hapart hsorted, hmerged, fun x => ?_, hwithin⟩
  rw [merge_has htouches hsorted]
  simp only [mem_sortSpans, List.mem_map, exists_exists_and_eq_and]

/-- The filter takes what is within one of the ranges. -/
theorem spanFilterScan_eq_true {size : Nat} (hsize : size < 18446744073709551616) {off stop : Nat}
    {spans : List ModelRange} (hin : ∀ r ∈ spans, r.InFile size) {r : ModelRange} (hr : r ∈ spans)
    (hoff : r.off ≤ off) (hstop : stop ≤ r.off + r.bytes) :
    spanFilterScan off stop spans = true := by
  induction spans with
  | nil => exact absurd hr List.not_mem_nil
  | cons s spans ih =>
    obtain ⟨hs, hspans⟩ := List.forall_mem_cons.mp hin
    have hadd : u64Add s.off s.bytes = s.off + s.bytes := u64Add_eq (by have := hs.2; omega)
    rw [spanFilterScan, hadd, if_neg (Nat.not_lt.mpr (Nat.le_add_right _ _))]
    split
    next => rfl
    next hmiss =>
      rcases List.mem_cons.mp hr with rfl | hr
      · exact absurd ⟨hoff, hstop⟩ hmiss
      · exact ih hspans hr

theorem acceleratorSpanFilterContains_eq_true {size : Nat} (hsize : size < 18446744073709551616)
    {t : Tensor} (ht : InFile size t) {spans : List ModelRange}
    (hin : ∀ r ∈ spans, r.InFile size) {r : ModelRange} (hr : r ∈ spans)
    (hoff : r.off ≤ t.absOffset) (hstop : t.absOffset + t.nbytes ≤ r.off + r.bytes) :
    acceleratorSpanFilterContains t.absOffset t.nbytes spans = true := by
  unfold InFile at ht
  unfold acceleratorSpanFilterContains
  split
  · rfl
  split
  · rfl
  dsimp only
  rw [u64Add_eq (by omega), if_neg (Nat.not_lt.mpr (Nat.le_add_right _ _))]
  exact spanFilterScan_eq_true hsize hin hr hoff hstop

/-! ## What is cached covers the accepted tensors -/

/-- The tensors the preload accepts. -/
def accepted (ranges : List ModelRange) (tensors : List Tensor) : List Tensor :=
  tensors.filter fun t =>
    t.nbytes != 0 && acceleratorSpanFilterContains t.absOffset t.nbytes ranges

/-- What is collected are the bytes of the accepted tensors, when all are in the file. -/
theorem collectTensorSpans_eq_some {size : Nat} (hsize : size < 18446744073709551616)
    {ranges : List ModelRange} {tensors : List Tensor} {spans : List ModelMapSpan} :
    collectTensorSpans size ranges tensors = some spans ↔
      (∀ t ∈ tensors, t.nbytes ≠ 0 → InFile size t) ∧
        spans = (accepted ranges tensors).map tensorSpan := by
  induction tensors generalizing spans with
  | nil =>
    rw [collectTensorSpans, Option.some_inj]
    exact ⟨fun h => ⟨nofun, h.symm⟩, fun h => h.2.symm⟩
  | cons t tensors ih =>
    rw [collectTensorSpans, List.forall_mem_cons, accepted, List.filter_cons, ← accepted]
    by_cases hbytes : t.nbytes = 0
    · rw [if_pos hbytes, ih, if_neg (by simp [hbytes])]
      exact and_congr_left fun _ => (and_iff_right fun h => absurd hbytes h).symm
    rw [if_neg hbytes]
    by_cases hin : t.absOffset > size ∨ t.nbytes > size - t.absOffset
    · rw [if_pos hin]
      refine iff_of_false nofun fun h => ?_
      have ht := h.1.1 hbytes
      unfold InFile at ht
      omega
    have ht : InFile size t := by
      unfold InFile
      omega
    have hadd : u64Add t.absOffset t.nbytes = t.absOffset + t.nbytes :=
      u64Add_eq (Nat.lt_of_le_of_lt ht hsize)
    rw [if_neg hin, and_iff_right fun _ => ht]
    cases haccept : acceleratorSpanFilterContains t.absOffset t.nbytes ranges with
    | false =>
      rw [Bool.not_false, if_pos rfl, Bool.and_false, if_neg Bool.false_ne_true, ih]
    | true =>
      rw [if_neg (by simp), if_pos (by simpa using hbytes), hadd, Option.map_eq_map,
        Option.map_eq_some_iff]
      constructor
      · rintro ⟨rest, hrest, rfl⟩
        obtain ⟨hall, rfl⟩ := ih.mp hrest
        exact ⟨hall, rfl⟩
      · rintro ⟨hall, rfl⟩
        exact ⟨_, ih.mpr ⟨hall, rfl⟩, rfl⟩

/-- A range covers a tensor. -/
def Covers (r : ModelRange) (t : Tensor) : Prop :=
  r.off ≤ t.absOffset ∧ t.absOffset + t.nbytes ≤ r.off + r.bytes

/-- The range of a span that is not empty has its places. -/
theorem spanRange_covers {s : ModelMapSpan} (hs : s.off < s.stop) {t : Tensor}
    (h : (tensorSpan t).Within s) : Covers (spanRange s) t := by
  obtain ⟨hoff, hstop⟩ := h
  exact ⟨hoff, hstop.trans (Nat.add_sub_of_le (Nat.le_of_lt hs)).ge⟩

theorem spanRange_inFile {size : Nat} {s : ModelMapSpan} (hs : s.off < s.stop ∧ s.stop ≤ size) :
    (spanRange s).InFile size := by
  refine ⟨Nat.sub_ne_zero_of_lt hs.1, ?_⟩
  rw [spanRange, Nat.add_sub_of_le (Nat.le_of_lt hs.1)]
  exact hs.2

/-- With no budget, and a cache that takes every range, what is cached covers every tensor that is
accepted and is in the file. -/
theorem prepareModelTensorSpans_spec {p : Preload} (hlimit : p.startupLimit = none)
    (hcache : ∀ cached range, p.cacheModelRange cached range = true) {g : GgufFile}
    (hsize : g.size < 18446744073709551616) (ranges : List ModelRange) :
    let out := acceleratorPrepareModelTensorSpans p g ranges
    (out.1 = true →
      ∀ t ∈ accepted ranges (g.tensors.take g.nTensors), ∃ r ∈ out.2.cached, Covers r t) ∧
      (∀ r ∈ out.2.cached, r.InFile g.size) ∧
      (g.size ≠ 0 → (∀ r ∈ ranges, r.InFile g.size) →
        (∀ t ∈ g.tensors.take g.nTensors, InFile g.size t) → out.1 = true) := by
  unfold acceleratorPrepareModelTensorSpans
  dsimp only
  split
  next hempty => exact ⟨nofun, nofun, fun h => absurd hempty h⟩
  split
  next hnone => exact ⟨fun _ => by simp [hnone, accepted], nofun, fun _ _ _ => rfl⟩
  split
  next hrange =>
    refine ⟨nofun, nofun, fun _ hin => ?_⟩
    obtain ⟨r, hr, hbad⟩ := List.any_eq_true.mp hrange
    have hr := hin r hr
    unfold ModelRange.InFile at hr
    simp only [Bool.or_eq_true, decide_eq_true_eq, beq_iff_eq] at hbad
    omega
  split
  next hcollect =>
    refine ⟨nofun, nofun, fun _ _ hin => ?_⟩
    have hsome : collectTensorSpans g.size ranges (g.tensors.take g.nTensors) = some _ :=
      (collectTensorSpans_eq_some hsize).mpr ⟨fun t ht _ => hin t ht, rfl⟩
    rw [hcollect] at hsome
    exact nomatch hsome
  next spans hcollect =>
    obtain ⟨hin, rfl⟩ := (collectTensorSpans_eq_some hsize).mp hcollect
    have hts : ∀ t ∈ accepted ranges (g.tensors.take g.nTensors),
        t.nbytes ≠ 0 ∧ InFile g.size t := by
      intro t ht
      obtain ⟨hmem, haccept⟩ := List.mem_filter.mp ht
      have hbytes : t.nbytes ≠ 0 := by simpa using (Bool.and_eq_true_iff.mp haccept).1
      exact ⟨hbytes, hin t hmem hbytes⟩
    obtain ⟨hmerged, hwithin⟩ := mergeTensors_spec (groups p.maxSpan) hts
    have hlen : (sortSpans ((accepted ranges (g.tensors.take g.nTensors)).map tensorSpan)).length ≤
        ((accepted ranges (g.tensors.take g.nTensors)).map tensorSpan).length :=
      (List.length_insertionSort _ _).le
    obtain ⟨hok, hcached⟩ := prepareLoop_eq hlimit hcache hlen ⟨0, []⟩
    rw [List.nil_append] at hcached
    refine ⟨fun _ t ht => ?_, ?_, fun _ _ _ => hok⟩
    · obtain ⟨s, hs, hin⟩ := hwithin t ht
      rw [hcached]
      exact ⟨_, List.mem_map_of_mem hs, spanRange_covers (hmerged s hs).1 hin⟩
    · rw [hcached]
      exact List.forall_mem_map.mpr fun s hs => spanRange_inFile (hmerged s hs)

/-- The spans of the bound tensors are sorted, do not touch and have the bytes of the tensors, so
that the filter accepts each of them; and what is cached without a budget covers every tensor that
is accepted and is in the file. -/
theorem modelMap_covers {size : Nat} (hsize : size < 18446744073709551616) (e : BoundTensors)
    (includeOutput includeVision : Bool)
    (hin : ∀ t ∈ included (e.tensors includeOutput includeVision), InFile size t) :
    let ts := included (e.tensors includeOutput includeVision)
    let spans := (sf37WeightsModelMapSpans e includeOutput includeVision).2
    ((sf37WeightsModelMapSpans e includeOutput includeVision).1 = true ↔ ts ≠ []) ∧
    ((spans.v.Pairwise fun a b => a.stop < b.off) ∧ (∀ s ∈ spans.v, s.off < s.stop) ∧
      ∀ x, (∃ s ∈ spans.v, s.Has x) ↔ ∃ t ∈ ts, (tensorSpan t).Has x) ∧
    ((∀ r ∈ spans.ranges, r.InFile size) ∧
      ∀ t ∈ ts, acceleratorSpanFilterContains t.absOffset t.nbytes spans.ranges = true) ∧
    ∀ (p : Preload) (g : GgufFile) (ranges : List ModelRange), p.startupLimit = none →
      (∀ cached range, p.cacheModelRange cached range = true) → g.size = size →
      let out := acceleratorPrepareModelTensorSpans p g ranges
      (out.1 = true →
        ∀ t ∈ accepted ranges (g.tensors.take g.nTensors), ∃ r ∈ out.2.cached, Covers r t) ∧
      (∀ r ∈ out.2.cached, r.InFile g.size) ∧
      (g.size ≠ 0 → (∀ r ∈ ranges, r.InFile g.size) →
        (∀ t ∈ g.tensors.take g.nTensors, InFile g.size t) → out.1 = true) := by
  obtain ⟨hapart, hspans, hbytes, hwithin⟩ :=
    modelMapSpans_spec hsize e includeOutput includeVision hin
  have hranges : ∀ r ∈ (sf37WeightsModelMapSpans e includeOutput includeVision).2.ranges,
      r.InFile size := List.forall_mem_map.mpr fun s hs => spanRange_inFile (hspans s hs)
  refine ⟨(modelMapSpans_eq hsize e includeOutput includeVision hin).2,
    ⟨hapart, fun s hs => (hspans s hs).1, hbytes⟩, ⟨hranges, fun t ht => ?_⟩, ?_⟩
  · obtain ⟨s, hs, hts⟩ := hwithin t ht
    obtain ⟨hoff, hstop⟩ := spanRange_covers (hspans s hs).1 hts
    exact acceleratorSpanFilterContains_eq_true hsize (hin t ht) hranges
      (List.mem_map_of_mem hs) hoff hstop
  · intro p g ranges hlimit hcache hg
    exact prepareModelTensorSpans_spec hlimit hcache (hg ▸ hsize) ranges

/-- Two tensors that touch and one apart from them, which the preload puts in one range. -/
def threeTensors : List Tensor :=
  [⟨[], 1, [10], 0, 0, 32, 10⟩, ⟨[], 1, [8], 0, 10, 42, 8⟩, ⟨[], 1, [4], 0, 68, 100, 4⟩]

def threeBound : BoundTensors where
  embedTokens := threeTensors[1]?
  lmHead := threeTensors[2]?
  finalNorm := threeTensors[0]?
  layer := []
  vision := ⟨none, none, none, none, [], none, none, none, none, none⟩

theorem modelMap_covers_three :
    let spans := (sf37WeightsModelMapSpans threeBound true false).2
    let out := acceleratorPrepareModelTensorSpans ⟨67108864, none, fun _ _ => true, true⟩
      ⟨104, 3, 0, 3, 32, 32, [], threeTensors⟩ spans.ranges
    spans.v = [⟨32, 50⟩, ⟨100, 104⟩] ∧ out.2.cached = [⟨32, 72⟩] ∧ out.1 = true := by
  have h := modelMap_covers (show 104 < 18446744073709551616 by decide) threeBound true false
    (by decide)
  have hout := h.2.2.2 ⟨67108864, none, fun _ _ => true, true⟩
    ⟨104, 3, 0, 3, 32, 32, [], threeTensors⟩
    (sf37WeightsModelMapSpans threeBound true false).2.ranges rfl (fun _ _ => rfl) rfl
  exact ⟨by decide, by decide, hout.2.2 (by decide) h.2.2.1.1 (by decide)⟩

end Sf37.Engine

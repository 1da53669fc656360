/-
Sf37.Quantize.Plan — `sf37_build_plan`: the type, the size and the offset of each tensor,
and the sizes of the metadata.

Sizes are `size_t`. Those of the metadata are sums of lengths of strings in memory and are
reduced once, at the end.

* `planLoop_some`: what is planned for each tensor, and the offsets one after the other.
* `sized_of_planned`: the engine has a size for a planned tensor, and it is the planned one.
-/
import Sf37.Gguf.TensorSize
import Sf37.Quantize.Database

namespace Sf37.Quantize

open Sf37.Text Sf37.Gguf

/-! ## The importance matrix -/

/-- `imatrix_entry`: its name and the count of its values. -/
structure ImatrixEntry where
  name : Bytes
  nValues : Nat

/-- `imatrix_store`. -/
structure ImatrixStore where
  file : Bytes
  dataset : Option Bytes
  entries : List ImatrixEntry
  chunks : Int
  strict : Bool

/-- `imatrix_enabled`. -/
def imatrixEnabled (im : ImatrixStore) : Prop := 0 < im.entries.length

instance (im : ImatrixStore) : Decidable (imatrixEnabled im) :=
  inferInstanceAs (Decidable (_ < _))

def kvImatrixFile : Bytes := bytes "quantize.imatrix.file"
def kvImatrixDataset : Bytes := bytes "quantize.imatrix.dataset"
def kvImatrixNEntries : Bytes := bytes "quantize.imatrix.entries_count"
def kvImatrixNChunks : Bytes := bytes "quantize.imatrix.chunks_count"

/-! ## The types of the tensors -/

/-- `sf37_contains`. -/
def contains (s needle : Bytes) : Prop := (strstr s needle).isSome = true

instance (s needle : Bytes) : Decidable (contains s needle) :=
  inferInstanceAs (Decidable (_ = true))

/-- `sf37_is_routed_gate`. -/
abbrev isRoutedGate (name : Bytes) : Prop := contains name (bytes ".moe.gate_proj.weight")

/-- `sf37_is_routed_up`. -/
abbrev isRoutedUp (name : Bytes) : Prop := contains name (bytes ".moe.up_proj.weight")

/-- `sf37_is_routed_down`. -/
abbrev isRoutedDown (name : Bytes) : Prop := contains name (bytes ".moe.down_proj.weight")

/-- `sf37_is_router`. -/
abbrev isRouter (name : Bytes) : Prop :=
  contains name (bytes ".moe.gate.weight") ∨ contains name (bytes ".moe.router_bias")

/-- `sf37_keep_bf16`. -/
abbrev keepBf16 (name : Bytes) : Prop :=
  name = bytes "lm_head.weight" ∨ name = bytes "model.embed_tokens.weight" ∨
    name = bytes "vit_large_projector.weight"

/-- `sf37_is_quant_type`. -/
abbrev isQuantType (type : DsType) : Prop :=
  type = .q80 ∨ type = .q2K ∨ type = .q3K ∨ type = .q4K ∨ type = .iq2Xxs

/-- `sf37_policy_type`. -/
def policyType (name : Bytes) (info : StInfo) : Option DsType := do
  let src ← sourceType info.dtype
  if src = .f32 then some .f32
  else if keepBf16 name then some .bf16
  else if info.shape.length < 2 then some src
  else if 3 < info.shape.length then some src
  else if isRouter name then some src
  else
    let ncols := info.shape.getLastD 0
    if isRoutedGate name ∨ isRoutedUp name then
      some (if ncols % blockSize .q3K = 0 then .q3K else src)
    else if isRoutedDown name then some (if ncols % blockSize .q2K = 0 then .q2K else src)
    else some (if ncols % blockSize .q80 = 0 then .q80 else src)

/-! ## Sizes -/

/-- `ds4q_pad`. -/
def pad (x n : Nat) : Nat := (x + n - 1) % 2 ^ 64 / n * n % 2 ^ 64

/-- `tensor_nbytes`. -/
def tensorNbytes (type : DsType) (ne : List Nat) : Nat :=
  ne.tail.foldl (fun nbytes d => nbytes * d % 2 ^ 64) (rowSize type (ne.headD 0))

/-- `tensor_meta`; `n_dims` is the length of `ne`. -/
structure TensorMeta where
  name : Bytes
  ne : List Nat
  type : DsType
  newOffset : Nat
  size : Nat

/-- `gguf_string_size`. -/
def ggufStringSize (s : Bytes) : Nat := 8 + s.length

/-- `sf37_tensor_info_size`. -/
def tensorInfoSize (t : TensorMeta) : Nat :=
  ggufStringSize t.name + 4 + t.ne.length * 8 + 4 + 8

/-- `sf37_kv_size_string`. -/
def kvSizeString (key value : Bytes) : Nat := ggufStringSize key + 4 + ggufStringSize value

/-- `sf37_kv_size_u32`. -/
def kvSizeU32 (key : Bytes) : Nat := ggufStringSize key + 4 + 4

/-- `sf37_kv_size_bool`. -/
def kvSizeBool (key : Bytes) : Nat := ggufStringSize key + 4 + 1

/-- `extra_imatrix_kv_size`. -/
def extraImatrixKvSize (im : ImatrixStore) : Nat :=
  if imatrixEnabled im then
    (ggufStringSize kvImatrixFile + 4 + ggufStringSize im.file) +
    (ggufStringSize kvImatrixNEntries + 4 + 8) +
    (match im.dataset with
      | some dataset => ggufStringSize kvImatrixDataset + 4 + ggufStringSize dataset
      | none => 0) +
    (if 0 < im.chunks then ggufStringSize kvImatrixNChunks + 4 + 8 else 0)
  else 0

/-- `sf37_kv_bytes`. -/
def kvBytes (hfDir : Bytes) (im : ImatrixStore) : Nat :=
  kvSizeString (bytes "general.architecture") (bytes "sf37") +
  kvSizeString (bytes "general.name") (bytes "Super Fast Step 3.7 Flash") +
  kvSizeU32 (bytes "general.alignment") +
  kvSizeU32 (bytes "general.file_type") +
  kvSizeU32 (bytes "sf37.version") +
  kvSizeString (bytes "sf37.source") hfDir +
  kvSizeU32 (bytes "sf37.block_count") +
  kvSizeU32 (bytes "sf37.mtp_layer_count") +
  kvSizeU32 (bytes "sf37.embedding_length") +
  kvSizeU32 (bytes "sf37.feed_forward_length") +
  kvSizeU32 (bytes "sf37.expert_feed_forward_length") +
  kvSizeU32 (bytes "sf37.expert_count") +
  kvSizeU32 (bytes "sf37.expert_used_count") +
  kvSizeU32 (bytes "sf37.context_length") +
  kvSizeBool (bytes "sf37.vision_included") +
  kvSizeString (bytes "sf37.q3_layout") (bytes "q3_asym_g64_f16scale_u8zp_payload3_pad110") +
  kvSizeString (bytes "sf37.q2_layout") (bytes "q2_asym_g64_f16scale_u8zp_payload2_pad84") +
  kvSizeString (bytes "sf37.quant_policy") (bytes
    ("routed_gate=q3_asym,routed_up=q3_asym,routed_down=q2_asym,rank2_rest=q8_0," ++
      "router_norm_misc=source")) +
  kvSizeString (bytes "sf37.keep_bf16")
    (bytes "lm_head.weight,model.embed_tokens.weight,vit_large_projector.weight") +
  kvSizeString (bytes "sf37.tensor_name_format")
    (bytes "hf_safetensors_names_with_reversed_gguf_dimensions") +
  extraImatrixKvSize im

/-! ## The plan -/

/-- `sf37_tensor`; `src_n_dims` is the length of `src_shape`. -/
structure Sf37Tensor where
  metadata : TensorMeta
  hfName : Bytes
  dtype : Bytes
  srcShape : List Nat

/-- `sf37_plan`. -/
structure Plan where
  v : List Sf37Tensor
  tensorBytes : Nat
  metaSize : Nat
  dataOffset : Nat
  alignment : Nat

def ggufDefaultAlignment : Nat := 32

/-- A type in blocks that rows do not fill gives way to the source type. -/
def checkedType (info : StInfo) (type : DsType) : Option DsType :=
  if isQuantType type ∧ info.shape.reverse.headD 0 % blockSize type ≠ 0 then
    sourceType info.dtype
  else some type

/-- `DS4Q_MAX_DIMS`. -/
def maxDims : Nat := 4

/-- The stores into `meta.ne` from the place `d` on; one behind the end of the array has no
defined effect. -/
def storeNe (shape : List Nat) : Nat → Nat → List Nat → Option (List Nat)
  | 0, _, ne => some ne
  | n + 1, d, ne =>
    if d < ne.length then storeNe shape n (d + 1) (ne.set d (shape.getD (shape.length - 1 - d) 0))
    else none

/-- The first `n_dims` places of `meta.ne`. -/
def metaNe (shape : List Nat) : Option (List Nat) :=
  (storeNe shape shape.length 0 (List.replicate maxDims 0)).map (·.take shape.length)

/-- What a turn of the loop of `sf37_build_plan` makes of a tensor. -/
def planTensor (name : Bytes) (info : StInfo) (off : Nat) : Option Sf37Tensor := do
  let type ← policyType name info
  let ne ← metaNe info.shape
  let type ← checkedType info type
  some ⟨⟨name, ne, type, off, tensorNbytes type ne⟩, name, info.dtype, info.shape⟩

/-- The loop of `sf37_build_plan`, with `off` and `tensor_info`. -/
def planLoop (db : StDb) :
    List WeightMapEntry → Nat → Nat → Option (List Sf37Tensor × Nat × Nat)
  | [], off, tensorInfo => some ([], off, tensorInfo)
  | w :: weights, off, tensorInfo => do
    let (te, _) ← dbTensor db w.name
    let st ← planTensor w.name te.info off
    let (v, off, tensorInfo) ← planLoop db weights
      ((off + pad st.metadata.size ggufDefaultAlignment) % 2 ^ 64)
      (tensorInfo + tensorInfoSize st.metadata)
    some (st :: v, off, tensorInfo)

/-- How many tensors are planned. -/
def plannedCount (db : StDb) (limit : Int) : Nat :=
  if 0 < limit ∧ limit < db.weights.length then limit.toNat else db.weights.length

/-- `sf37_build_plan`. -/
def buildPlan (db : StDb) (limit : Int) (hfDir : Bytes) (im : ImatrixStore) : Option Plan := do
  let (v, off, tensorInfo) ← planLoop db (db.weights.take (plannedCount db limit)) 0 0
  let metaSize := (4 + 4 + 8 + 8 + kvBytes hfDir im + tensorInfo) % 2 ^ 64
  some ⟨v, off, metaSize, pad metaSize ggufDefaultAlignment, ggufDefaultAlignment⟩

/-! ## What is planned -/

/-- The offsets come one after the other, each after the padded data of the one before. -/
def OffsetsFrom : Nat → List Sf37Tensor → Nat → Prop
  | off, [], last => last = off
  | off, t :: ts, last =>
    t.metadata.newOffset = off ∧
      OffsetsFrom ((off + pad t.metadata.size ggufDefaultAlignment) % 2 ^ 64) ts last

/-- A tensor is planned as the database has it. -/
def PlannedFrom (db : StDb) (t : Sf37Tensor) : Prop :=
  ∃ te s, dbTensor db t.hfName = some (te, s) ∧
    planTensor t.hfName te.info t.metadata.newOffset = some t

/-- Shapes of up to four dimensions are reversed. -/
theorem metaNe_eq (shape : List Nat) :
    metaNe shape = if shape.length ≤ maxDims then some shape.reverse else none := by
  match shape with
  | [] => rfl
  | [_] => rfl
  | [_, _] => rfl
  | [_, _, _] => rfl
  | [_, _, _, _] => rfl
  | _ :: _ :: _ :: _ :: _ :: _ => rw [if_neg (by simp [maxDims])]; rfl

theorem metaNe_some {shape ne : List Nat} (h : metaNe shape = some ne) : ne = shape.reverse := by
  rw [metaNe_eq] at h
  split at h
  · exact (Option.some.inj h).symm
  · cases h

theorem planTensor_some {name : Bytes} {info : StInfo} {off : Nat} {t : Sf37Tensor}
    (h : planTensor name info off = some t) :
    ∃ type, (policyType name info = some type ∨ sourceType info.dtype = some type) ∧
      (isQuantType type → info.shape.reverse.headD 0 % blockSize type = 0) ∧
      t = ⟨⟨name, info.shape.reverse, type, off, tensorNbytes type info.shape.reverse⟩, name,
        info.dtype, info.shape⟩ := by
  obtain ⟨type, hpolicy, h⟩ := Option.bind_eq_some_iff.mp h
  obtain ⟨ne, hne, h⟩ := Option.bind_eq_some_iff.mp h
  obtain ⟨type', htype, h⟩ := Option.bind_eq_some_iff.mp h
  obtain rfl := metaNe_some hne
  unfold checkedType at htype
  split at htype
  · refine ⟨type', .inr htype, fun hquant => ?_, (Option.some.inj h).symm⟩
    rcases sourceType_eq_some htype with rfl | rfl | rfl <;> simp [isQuantType] at hquant
  · rename_i hrows
    obtain rfl := Option.some.inj htype
    exact ⟨type, .inl hpolicy, fun hquant => by_contra fun hne => hrows ⟨hquant, hne⟩,
      (Option.some.inj h).symm⟩

theorem planTensor_fields {name : Bytes} {info : StInfo} {off : Nat} {t : Sf37Tensor}
    (h : planTensor name info off = some t) :
    t.hfName = name ∧ t.metadata.name = name ∧ t.metadata.newOffset = off ∧
      t.metadata.ne = info.shape.reverse ∧ t.srcShape = info.shape ∧ t.dtype = info.dtype := by
  obtain ⟨type, -, -, rfl⟩ := planTensor_some h
  exact ⟨rfl, rfl, rfl, rfl, rfl, rfl⟩

/-- What the loop plans. -/
theorem planLoop_some {db : StDb} {weights : List WeightMapEntry} {off tensorInfo off' : Nat}
    {tensorInfo' : Nat} {v : List Sf37Tensor}
    (h : planLoop db weights off tensorInfo = some (v, off', tensorInfo')) :
    (∀ t ∈ v, PlannedFrom db t) ∧ v.map Sf37Tensor.hfName = weights.map WeightMapEntry.name ∧
      OffsetsFrom off v off' ∧
      tensorInfo' = tensorInfo + (v.map fun t => tensorInfoSize t.metadata).sum := by
  induction weights generalizing off tensorInfo v with
  | nil =>
    cases h
    exact ⟨fun _ ht => absurd ht List.not_mem_nil, rfl, rfl, rfl⟩
  | cons w weights ih =>
    obtain ⟨⟨te, s⟩, hte, h⟩ := Option.bind_eq_some_iff.mp h
    obtain ⟨st, hst, h⟩ := Option.bind_eq_some_iff.mp h
    obtain ⟨⟨ts, off'', tensorInfo''⟩, hrest, h⟩ := Option.bind_eq_some_iff.mp h
    cases h
    obtain ⟨hall, hnames, hoffsets, hsum⟩ := ih hrest
    obtain ⟨hname, -, hoff, -, -, -⟩ := planTensor_fields hst
    refine ⟨List.forall_mem_cons.mpr ⟨⟨te, s, ?_, ?_⟩, hall⟩, ?_, ⟨hoff, hoffsets⟩, ?_⟩
    · rw [hname]
      exact hte
    · rw [hname, hoff]
      exact hst
    · rw [List.map_cons, List.map_cons, hname, hnames]
    · rw [hsum, List.map_cons, List.sum_cons, Nat.add_assoc]

/-! ## Planned sizes -/

/-- The engine knows the type as the quantizer does, and a block of it takes no more room
than its elements in the source type. -/
structure Narrows (src type : DsType) : Prop where
  known : typeTable type.id = some ⟨blockSize type, (typeTraits type).typeSize⟩
  size_le : (typeTraits type).typeSize ≤ (typeTraits src).typeSize * blockSize type

theorem narrows_self {dtype : Bytes} {src : DsType} (h : sourceType dtype = some src) :
    Narrows src src := by
  rcases sourceType_eq_some h with rfl | rfl | rfl <;> exact ⟨by decide, by decide⟩

/-- The types of the policy. -/
theorem narrows_policyType {name : Bytes} {info : StInfo} {src type : DsType}
    (hsrc : sourceType info.dtype = some src) (h : policyType name info = some type) :
    Narrows src type := by
  have hself := narrows_self hsrc
  have hsource := sourceType_eq_some hsrc
  have hsmall : ∀ type', type' = .bf16 ∨ type' = .q80 ∨ type' = .q2K ∨ type' = .q3K →
      Narrows src type' := by
    rintro _ (rfl | rfl | rfl | rfl) <;> rcases hsource with rfl | rfl | rfl <;>
      exact ⟨by decide, by decide⟩
  unfold policyType at h
  rw [hsrc] at h
  simp only [Option.bind_eq_bind, Option.bind_some] at h
  split_ifs at h with hf32 <;> cases h
  · exact hf32 ▸ hself
  all_goals first | exact hself | exact hsmall _ (by simp)

/-- Products of sizes that wrap around. -/
theorem foldl_mul_mod (m a : Nat) (xs : List Nat) :
    xs.foldl (fun n d => n * d % m) (a % m) = a * xs.prod % m := by
  induction xs generalizing a with
  | nil => simp
  | cons x xs ih =>
    rw [List.foldl_cons, Nat.mod_mul_mod, ih, List.prod_cons, Nat.mul_assoc]

/-- The planned size is the engine's. -/
theorem tensorNbytes_eq {src type : DsType} (htype : Narrows src type) {ne : List Nat}
    (hne : 0 < ne.length) (hrows : ne.headD 0 % blockSize type = 0)
    (hfit : tensorBytes type.id ne < 2 ^ 64) : tensorNbytes type ne = tensorBytes type.id ne := by
  have hblock : 0 < blockSize type := by cases type <;> decide
  match ne, hne with
  | d :: ds, _ =>
    obtain ⟨q, hq⟩ := Nat.dvd_of_mod_eq_zero hrows
    rw [List.headD_cons] at hq
    subst hq
    have hbytes : tensorBytes type.id ((blockSize type * q) :: ds) =
        (typeTraits type).typeSize * q * ds.prod := by
      rw [tensorBytes, htype.known]
      simp only [List.prod_cons, Nat.mul_assoc, Nat.mul_div_cancel_left _ hblock]
      rw [← Nat.mul_assoc, Nat.mul_comm]
    rw [hbytes] at hfit ⊢
    rw [tensorNbytes, rowSize, List.headD_cons, List.tail_cons, if_neg (by simp),
      Nat.mul_div_cancel_left _ hblock, foldl_mul_mod, Nat.mod_eq_of_lt hfit]

/-- The engine knows the type of a planned tensor. -/
theorem narrows_of_planned {name : Bytes} {info : StInfo} {src : DsType} {off : Nat}
    {t : Sf37Tensor} (hsrc : sourceType info.dtype = some src)
    (h : planTensor name info off = some t) : Narrows src t.metadata.type := by
  obtain ⟨type, htype, -, rfl⟩ := planTensor_some h
  rcases htype with hpolicy | hsource
  · exact narrows_policyType hsrc hpolicy
  · rw [hsrc] at hsource
    cases hsource
    exact narrows_self hsrc

/-- The engine has a size for a planned tensor, and it is the planned one. -/
theorem sized_of_planned {name : Bytes} {info : StInfo} {src : DsType} {off : Nat}
    {t : Sf37Tensor} (hstored : info.Stored src) (h : planTensor name info off = some t) :
    (∃ ti, Sized t.metadata.type.id t.metadata.ne ti) ∧
      t.metadata.size = tensorBytes t.metadata.type.id t.metadata.ne := by
  have hnarrows := narrows_of_planned hstored.source h
  obtain ⟨type, -, hquant, rfl⟩ := planTensor_some h
  change Narrows src type at hnarrows
  have hrows : info.shape.reverse.headD 0 % blockSize type = 0 := by
    by_cases hq : isQuantType type
    · exact hquant hq
    · have hone : blockSize type = 1 := by
        cases type <;> first | rfl | exact absurd (by simp [isQuantType]) hq
      rw [hone, Nat.mod_one]
  have hprod : info.shape.reverse.prod = info.shape.prod := (List.reverse_perm _).prod_eq
  have hdata : info.shape.prod * (typeTraits src).typeSize < 2 ^ 64 := by
    have hsize := hstored.size
    have hlt := info.stop_lt
    omega
  have hbytes : tensorBytes type.id info.shape.reverse < 2 ^ 64 := by
    rw [tensorBytes, hnarrows.known, hprod]
    calc info.shape.prod / blockSize type * (typeTraits type).typeSize
        ≤ info.shape.prod / blockSize type * ((typeTraits src).typeSize * blockSize type) :=
          Nat.mul_le_mul_left _ hnarrows.size_le
      _ = info.shape.prod / blockSize type * blockSize type * (typeTraits src).typeSize := by
          rw [Nat.mul_comm (typeTraits src).typeSize, Nat.mul_assoc]
      _ ≤ info.shape.prod * (typeTraits src).typeSize :=
          Nat.mul_le_mul_right _ (Nat.div_mul_le_self _ _)
      _ < 2 ^ 64 := hdata
  have hlen : 0 < info.shape.reverse.length := by
    rw [List.length_reverse]
    exact hstored.rank_pos
  refine ⟨⟨_, hnarrows.known, hlen, ?_, ?_, Nat.dvd_of_mod_eq_zero hrows, ?_, ?_⟩,
    tensorNbytes_eq hnarrows hlen hrows hbytes⟩
  · have hrank := hstored.rank_le
    rw [List.length_reverse]
    exact hrank.trans (by decide)
  · intro d hd
    exact hstored.pos d (List.mem_reverse.mp hd)
  · have htwo : 1 ≤ (typeTraits src).typeSize := by cases src <;> decide
    rw [hprod]
    exact Nat.lt_of_le_of_lt (Nat.le_mul_of_pos_right _ htwo) hdata
  · rw [tensorBytes, hnarrows.known] at hbytes
    exact hbytes

end Sf37.Quantize

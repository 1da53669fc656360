/-
Sf37.Quantize.WriteGguf — `sf37_generate_tensor` and `sf37_write_gguf`.

The values of the tensors are floating-point numbers: of a conversion the model has the
size of what it gives and its error exits, and the bytes are those of a function that
stands for the arithmetic. A file may grow to a room; a write that passes it fails.

* `writeMetadata_eq`: what is written before the padding is the text of a layout.
* `length_layoutText`: its size is what the plan counts.
-/
import Sf37.Gguf.Layout
import Sf37.Quantize.Plan
import Sf37.Run.FileWriter

namespace Sf37.Quantize

open Sf37.Text Sf37.Gguf Sf37.Run Sf37.Run.FileWriter

/-! ## `sf37_generate_tensor` -/

/-- The bytes a conversion gives for a tensor of a name, its source values, the type and
the dimensions. -/
abbrev Conversion : Type := Bytes → StValue → DsType → List Nat → Nat → UInt8

/-- `tensor_to_f32`: the count of the values. -/
def tensorToF32 (t : StValue) : Option Nat :=
  let n := t.shape.prod
  if t.dtype = bytes "F32" then if t.data.length ≠ n * 4 then none else some n
  else if t.dtype = bytes "BF16" then if t.data.length ≠ n * 2 then none else some n
  else if t.dtype = bytes "F16" then if t.data.length ≠ n * 2 then none else some n
  else if t.dtype = bytes "F8_E4M3" then if t.data.length ≠ n then none else some n
  else none

/-- `imatrix_find` for one name and no expert: whether there are values. -/
def imatrixFind (im : ImatrixStore) (name : Bytes) (ncols : Nat) : Option Bool :=
  if imatrixEnabled im then
    match hmapGet ImatrixEntry.name im.entries name with
    | some e => if e.nValues = ncols then some true else none
    | none => if im.strict then none else some false
  else some false

/-- `f32_to_type`: the size of what it gives. -/
def f32ToType (n : Nat) (type : DsType) (ncols : Nat) : Option Nat :=
  if ncols = 0 ∨ n % ncols ≠ 0 then none
  else if type = .f32 then some (n * 4)
  else if type = .f16 then some (n * 2)
  else if type = .bf16 then some (n * 2)
  else if (typeTraits type).canQuantize = false then none
  else if ncols % blockSize type ≠ 0 then none
  else some (n / ncols * rowSize type ncols)

/-- `sf37_f32_to_type_parallel`: the size of what it gives. -/
def f32ToTypeParallel (n : Nat) (type : DsType) (ncols nThreads : Nat) (imatrix : Bool)
    (expertRows nExperts : Nat) : Option Nat :=
  if ¬ isQuantType type then f32ToType n type ncols
  else if nThreads ≤ 1 ∧ (imatrix = false ∨ expertRows = 0) then f32ToType n type ncols
  else if ncols = 0 ∨ n % ncols ≠ 0 then none
  else if ncols % blockSize type ≠ 0 then none
  else
    let nrows := n / ncols
    if nrows ≤ 1 ∧ (imatrix = false ∨ expertRows = 0) then f32ToType n type ncols
    else if 0 < expertRows ∧ 0 < nExperts ∧ nrows ≠ expertRows * nExperts then none
    else some (nrows * rowSize type ncols)

/-- `sf37_is_routed_tensor`. -/
abbrev isRoutedTensor (name : Bytes) : Prop :=
  isRoutedGate name ∨ isRoutedUp name ∨ isRoutedDown name

/-- The experts of a tensor that may have an importance matrix, with their rows. -/
def expertsOf (im : ImatrixStore) (t : Sf37Tensor) : Option (Nat × Nat) :=
  match t.metadata.ne with
  | [_, expertRows, nExperts] =>
    if imatrixEnabled im ∧ isRoutedTensor t.hfName ∧ isQuantType t.metadata.type then
      some (expertRows, nExperts)
    else none
  | _ => none

/-- The size of a converted tensor. -/
def convertedSize (im : ImatrixStore) (nThreads : Nat) (t : Sf37Tensor) (n : Nat) : Option Nat :=
  let ncols := t.metadata.ne.headD 0
  match expertsOf im t with
  | some (expertRows, nExperts) => do
    let imatrix ← imatrixFind im t.hfName (ncols * nExperts)
    f32ToTypeParallel n t.metadata.type ncols nThreads imatrix expertRows nExperts
  | none => f32ToTypeParallel n t.metadata.type ncols nThreads false 0 0

/-- `sf37_generate_tensor`. -/
def generateTensor (convert : Conversion) (db : StDb) (t : Sf37Tensor) (nThreads : Nat)
    (im : ImatrixStore) : Option Bytes := do
  let sv ← dbRead db t.hfName
  let srcType ← sourceType sv.dtype
  if t.metadata.type = srcType then some sv.data
  else do
    let n ← tensorToF32 sv
    let size ← convertedSize im nThreads t n
    some ((List.range size).map (convert t.hfName sv t.metadata.type t.metadata.ne))

/-! ## `sf37_write_gguf` -/

def ggufTypeUint32 : Nat := 4
def ggufTypeBool : Nat := 7
def ggufTypeString : Nat := 8
def ggufTypeUint64 : Nat := 10

/-- `write_u32`. -/
def writeU32 (room v : Nat) : FileWriter UInt8 Unit := append room (littleEndian 4 v)

/-- `write_u64`. -/
def writeU64 (room v : Nat) : FileWriter UInt8 Unit := append room (littleEndian 8 v)

/-- `write_gguf_string`. -/
def writeGgufString (room : Nat) (s : Bytes) : FileWriter UInt8 Unit := do
  writeU64 room s.length
  append room s

/-- `sf37_write_kv_string`. -/
def writeKvString (room : Nat) (key value : Bytes) : FileWriter UInt8 Unit := do
  writeGgufString room key
  writeU32 room ggufTypeString
  writeGgufString room value

/-- `sf37_write_kv_u32`. -/
def writeKvU32 (room : Nat) (key : Bytes) (value : Nat) : FileWriter UInt8 Unit := do
  writeGgufString room key
  writeU32 room ggufTypeUint32
  writeU32 room value

/-- `sf37_write_kv_bool`. -/
def writeKvBool (room : Nat) (key : Bytes) (value : Bool) : FileWriter UInt8 Unit := do
  writeGgufString room key
  writeU32 room ggufTypeBool
  append room [if value then 1 else 0]

/-- A pair of `write_imatrix_kvs` that is a number. -/
def writeKvU64 (room : Nat) (key : Bytes) (value : Nat) : FileWriter UInt8 Unit := do
  writeGgufString room key
  writeU32 room ggufTypeUint64
  writeU64 room value

/-- The pair of the data set. -/
def writeImatrixDataset (room : Nat) : Option Bytes → FileWriter UInt8 Unit
  | some dataset => writeKvString room kvImatrixDataset dataset
  | none => pure ()

/-- The pair of the chunks. -/
def writeImatrixChunks (room : Nat) (chunks : Int) : FileWriter UInt8 Unit :=
  if 0 < chunks then writeKvU64 room kvImatrixNChunks chunks.toNat else pure ()

/-- `write_imatrix_kvs`. -/
def writeImatrixKvs (room : Nat) (im : ImatrixStore) : FileWriter UInt8 Unit :=
  if imatrixEnabled im then do
    writeKvString room kvImatrixFile im.file
    writeKvU64 room kvImatrixNEntries im.entries.length
    writeImatrixDataset room im.dataset
    writeImatrixChunks room im.chunks
  else pure ()

/-- `extra_imatrix_kv_count`. -/
def extraImatrixKvCount (im : ImatrixStore) : Nat :=
  if imatrixEnabled im then
    2 + (if im.dataset.isSome then 1 else 0) + (if 0 < im.chunks then 1 else 0)
  else 0

/-- `sf37_kv_count`. -/
def kvCount (im : ImatrixStore) : Nat := 20 + extraImatrixKvCount im

/-- `sf37_write_kvs`. -/
def writeKvs (room : Nat) (hfDir : Bytes) (im : ImatrixStore) : FileWriter UInt8 Unit := do
  writeKvString room (bytes "general.architecture") (bytes "sf37")
  writeKvString room (bytes "general.name") (bytes "Super Fast Step 3.7 Flash")
  writeKvU32 room (bytes "general.alignment") ggufDefaultAlignment
  writeKvU32 room (bytes "general.file_type") 0
  writeKvU32 room (bytes "sf37.version") 1
  writeKvString room (bytes "sf37.source") hfDir
  writeKvU32 room (bytes "sf37.block_count") 45
  writeKvU32 room (bytes "sf37.mtp_layer_count") 3
  writeKvU32 room (bytes "sf37.embedding_length") 4096
  writeKvU32 room (bytes "sf37.feed_forward_length") 11264
  writeKvU32 room (bytes "sf37.expert_feed_forward_length") 1280
  writeKvU32 room (bytes "sf37.expert_count") 288
  writeKvU32 room (bytes "sf37.expert_used_count") 8
  writeKvU32 room (bytes "sf37.context_length") 262144
  writeKvBool room (bytes "sf37.vision_included") true
  writeKvString room (bytes "sf37.q3_layout") (bytes "q3_asym_g64_f16scale_u8zp_payload3_pad110")
  writeKvString room (bytes "sf37.q2_layout") (bytes "q2_asym_g64_f16scale_u8zp_payload2_pad84")
  writeKvString room (bytes "sf37.quant_policy") (bytes
    ("routed_gate=q3_asym,routed_up=q3_asym,routed_down=q2_asym,rank2_rest=q8_0," ++
      "router_norm_misc=source"))
  writeKvString room (bytes "sf37.keep_bf16")
    (bytes "lm_head.weight,model.embed_tokens.weight,vit_large_projector.weight")
  writeKvString room (bytes "sf37.tensor_name_format")
    (bytes "hf_safetensors_names_with_reversed_gguf_dimensions")
  writeImatrixKvs room im

/-- A turn of the loop over the tensor infos. -/
def writeTensorInfo (room : Nat) (t : TensorMeta) : FileWriter UInt8 Unit := do
  writeGgufString room t.name
  writeU32 room t.ne.length
  forM t.ne (writeU64 room)
  writeU32 room t.type.id
  writeU64 room t.newOffset

/-- `sf37_write_gguf` up to `ftell`. -/
def writeMetadata (room : Nat) (plan : Plan) (hfDir : Bytes) (im : ImatrixStore) :
    FileWriter UInt8 Unit := do
  append room (bytes "GGUF")
  writeU32 room 3
  writeU64 room plan.v.length
  writeU64 room (kvCount im)
  writeKvs room hfDir im
  forM plan.v fun t => writeTensorInfo room t.metadata

/-- The loop of `write_padding`. -/
def writePaddingLoop (room : Nat) : Nat → Nat → FileWriter UInt8 Unit
  | 0, _ => pure ()
  | fuel + 1, n =>
    if n = 0 then pure ()
    else do
      append room (List.replicate (min n 4096) 0)
      writePaddingLoop room fuel (n - min n 4096)

/-- `write_padding`. -/
def writePadding (room n : Nat) : FileWriter UInt8 Unit := writePaddingLoop room n n

/-- A turn of the loop over the data. -/
def writeTensor (room : Nat) (convert : Conversion) (db : StDb) (nThreads : Nat)
    (im : ImatrixStore) (alignment : Nat) (t : Sf37Tensor) : FileWriter UInt8 Unit := do
  let data ← lift (generateTensor convert db t nThreads im)
  if data.length ≠ t.metadata.size then die
  else do
    append room data
    writePadding room (pad data.length alignment - data.length)

/-- `sf37_write_gguf`, on an empty file. -/
def writeGguf (room : Nat) (convert : Conversion) (db : StDb) (plan : Plan) (hfDir : Bytes)
    (nThreads : Nat) (im : ImatrixStore) : FileWriter UInt8 Unit := do
  writeMetadata room plan hfDir im
  let pos ← position
  if plan.dataOffset < pos then die
  else do
    writePadding room (plan.dataOffset - pos)
    forM plan.v (writeTensor room convert db nThreads im plan.alignment)

/-! ## The metadata as a layout -/

/-- A pair whose value is a string. -/
def pairString (key value : Bytes) : Pair := ⟨key, ggufTypeString, stringText value⟩

/-- A pair whose value is a number of 32 bits. -/
def pairU32 (key : Bytes) (value : Nat) : Pair := ⟨key, ggufTypeUint32, littleEndian 4 value⟩

/-- A pair whose value is a truth value. -/
def pairBool (key : Bytes) (value : Bool) : Pair := ⟨key, ggufTypeBool, [if value then 1 else 0]⟩

/-- A pair whose value is a number of 64 bits. -/
def pairU64 (key : Bytes) (value : Nat) : Pair := ⟨key, ggufTypeUint64, littleEndian 8 value⟩

/-- The pairs of the importance matrix. -/
def imatrixPairs (im : ImatrixStore) : List Pair :=
  if imatrixEnabled im then
    pairString kvImatrixFile im.file :: pairU64 kvImatrixNEntries im.entries.length ::
      ((im.dataset.toList.map (pairString kvImatrixDataset)) ++
        if 0 < im.chunks then [pairU64 kvImatrixNChunks im.chunks.toNat] else [])
  else []

/-- The pairs that come before the importance matrix. -/
def modelPairs (hfDir : Bytes) : List Pair :=
  [pairString (bytes "general.architecture") (bytes "sf37"),
    pairString (bytes "general.name") (bytes "Super Fast Step 3.7 Flash"),
    pairU32 (bytes "general.alignment") ggufDefaultAlignment,
    pairU32 (bytes "general.file_type") 0,
    pairU32 (bytes "sf37.version") 1,
    pairString (bytes "sf37.source") hfDir,
    pairU32 (bytes "sf37.block_count") 45,
    pairU32 (bytes "sf37.mtp_layer_count") 3,
    pairU32 (bytes "sf37.embedding_length") 4096,
    pairU32 (bytes "sf37.feed_forward_length") 11264,
    pairU32 (bytes "sf37.expert_feed_forward_length") 1280,
    pairU32 (bytes "sf37.expert_count") 288,
    pairU32 (bytes "sf37.expert_used_count") 8,
    pairU32 (bytes "sf37.context_length") 262144,
    pairBool (bytes "sf37.vision_included") true,
    pairString (bytes "sf37.q3_layout") (bytes "q3_asym_g64_f16scale_u8zp_payload3_pad110"),
    pairString (bytes "sf37.q2_layout") (bytes "q2_asym_g64_f16scale_u8zp_payload2_pad84"),
    pairString (bytes "sf37.quant_policy") (bytes
      ("routed_gate=q3_asym,routed_up=q3_asym,routed_down=q2_asym,rank2_rest=q8_0," ++
        "router_norm_misc=source")),
    pairString (bytes "sf37.keep_bf16")
      (bytes "lm_head.weight,model.embed_tokens.weight,vit_large_projector.weight"),
    pairString (bytes "sf37.tensor_name_format")
      (bytes "hf_safetensors_names_with_reversed_gguf_dimensions")]

/-- The info of a planned tensor. -/
def tensorInfo (t : TensorMeta) : TensorInfo := ⟨t.name, t.ne, t.type.id, t.newOffset⟩

/-- What a plan's metadata say. -/
def layoutOf (plan : Plan) (hfDir : Bytes) (im : ImatrixStore) : Layout :=
  ⟨modelPairs hfDir ++ imatrixPairs im, plan.v.map fun t => tensorInfo t.metadata⟩

@[simp] theorem writeGgufString_eq (room : Nat) (s : Bytes) :
    writeGgufString room s = append room (stringText s) := by
  rw [writeGgufString, writeU64, append_bind_append, stringText]

@[simp] theorem writeKvString_eq (room : Nat) (key value : Bytes) :
    writeKvString room key value = append room (pairString key value).text := by
  simp [writeKvString, writeU32, Pair.text, pairString]

@[simp] theorem writeKvU32_eq (room : Nat) (key : Bytes) (value : Nat) :
    writeKvU32 room key value = append room (pairU32 key value).text := by
  simp [writeKvU32, writeU32, Pair.text, pairU32]

@[simp] theorem writeKvBool_eq (room : Nat) (key : Bytes) (value : Bool) :
    writeKvBool room key value = append room (pairBool key value).text := by
  simp [writeKvBool, writeU32, Pair.text, pairBool]

@[simp] theorem writeKvU64_eq (room : Nat) (key : Bytes) (value : Nat) :
    writeKvU64 room key value = append room (pairU64 key value).text := by
  simp [writeKvU64, writeU32, writeU64, Pair.text, pairU64]

theorem writeImatrixKvs_eq (room : Nat) (im : ImatrixStore) :
    writeImatrixKvs room im = append room ((imatrixPairs im).flatMap Pair.text) := by
  unfold writeImatrixKvs imatrixPairs writeImatrixChunks
  split
  · cases im.dataset <;> split <;> simp [writeImatrixDataset]
  · simp

/-- The metadata pairs are written as the layout has them. -/
theorem writeKvs_eq (room : Nat) (hfDir : Bytes) (im : ImatrixStore) :
    writeKvs room hfDir im =
      append room ((modelPairs hfDir ++ imatrixPairs im).flatMap Pair.text) := by
  simp only [writeKvs, writeImatrixKvs_eq, writeKvString_eq, writeKvU32_eq, writeKvBool_eq,
    append_bind_append, modelPairs, List.cons_append, List.nil_append, List.flatMap_cons]

theorem writeTensorInfo_eq (room : Nat) (t : TensorMeta) :
    writeTensorInfo room t = append room (tensorInfo t).text := by
  have hdims : forM t.ne (writeU64 room) = append room (t.ne.flatMap (littleEndian 8)) :=
    forM_append room (littleEndian 8) t.ne
  simp only [writeTensorInfo, hdims, writeGgufString_eq, writeU32, writeU64, append_bind_append,
    tensorInfo, TensorInfo.text]

theorem length_modelPairs (hfDir : Bytes) : (modelPairs hfDir).length = 20 := rfl

theorem length_imatrixPairs (im : ImatrixStore) :
    (imatrixPairs im).length = extraImatrixKvCount im := by
  unfold imatrixPairs extraImatrixKvCount
  split
  · cases im.dataset <;> split <;> rfl
  · rfl

/-- What is written before the padding. -/
theorem writeMetadata_eq (room : Nat) (plan : Plan) (hfDir : Bytes) (im : ImatrixStore) :
    writeMetadata room plan hfDir im = append room (layoutOf plan hfDir im).text := by
  have hkv : kvCount im = (layoutOf plan hfDir im).pairs.length := by
    rw [layoutOf, List.length_append, length_modelPairs, length_imatrixPairs, kvCount]
  have hinfos : plan.v.length = (layoutOf plan hfDir im).infos.length := by
    rw [layoutOf, List.length_map]
  have hloop : (forM plan.v fun t => writeTensorInfo room t.metadata) =
      append room ((layoutOf plan hfDir im).infos.flatMap TensorInfo.text) := by
    rw [layoutOf, List.flatMap_map]
    simp only [writeTensorInfo_eq, forM_append]
  rw [writeMetadata, hloop, writeKvs_eq, hkv, hinfos]
  simp only [writeU32, writeU64, append_bind_append, Layout.text, Gguf.headerText,
    List.append_assoc]
  rfl

/-! ## The planned size of the metadata -/

theorem length_pairText (k : Pair) : k.text.length = 12 + k.key.length + k.value.length := by
  simp only [Pair.text, List.length_append, length_stringText, length_littleEndian]
  omega

theorem length_modelText (hfDir : Bytes) (im : ImatrixStore) :
    ((modelPairs hfDir ++ imatrixPairs im).flatMap Pair.text).length = kvBytes hfDir im := by
  have him : ((imatrixPairs im).flatMap Pair.text).length = extraImatrixKvSize im := by
    unfold imatrixPairs extraImatrixKvSize
    split
    · cases im.dataset <;> split <;>
        simp [length_pairText, pairString, pairU64, length_stringText, ggufStringSize] <;> omega
    · rfl
  rw [List.flatMap_append, List.length_append, him]
  simp only [modelPairs, List.flatMap_cons, List.flatMap_nil, List.length_append, length_pairText,
    pairString, pairU32, pairBool, length_stringText, length_littleEndian, List.length_singleton,
    List.length_nil, kvBytes, kvSizeString, kvSizeU32, kvSizeBool, ggufStringSize]
  omega

theorem length_infoText (t : TensorMeta) : (tensorInfo t).text.length = tensorInfoSize t := by
  have hdims : (t.ne.flatMap (littleEndian 8)).length = t.ne.length * 8 := by
    induction t.ne with
    | nil => rfl
    | cons d ne ih =>
      rw [List.flatMap_cons, List.length_append, ih, length_littleEndian, List.length_cons]
      omega
  simp only [tensorInfo, TensorInfo.text, List.length_append, length_stringText,
    length_littleEndian, hdims, tensorInfoSize, ggufStringSize]
  omega

/-- The size of the metadata, as the plan counts it. -/
theorem length_layoutText (plan : Plan) (hfDir : Bytes) (im : ImatrixStore) :
    (layoutOf plan hfDir im).text.length =
      4 + 4 + 8 + 8 + kvBytes hfDir im +
        (plan.v.map fun t => tensorInfoSize t.metadata).sum := by
  have hinfos : ((layoutOf plan hfDir im).infos.flatMap TensorInfo.text).length =
      (plan.v.map fun t => tensorInfoSize t.metadata).sum := by
    rw [layoutOf, List.flatMap_map, List.length_flatMap]
    simp only [length_infoText]
  rw [Layout.text, List.length_append, List.length_append, length_headerText, hinfos, layoutOf,
    length_modelText]
  omega

/-! ## The data -/

theorem writePaddingLoop_eq (room : Nat) {fuel n : Nat} (h : n ≤ fuel) :
    writePaddingLoop room fuel n = append room (List.replicate n 0) := by
  induction fuel generalizing n with
  | zero =>
    obtain rfl := Nat.le_zero.mp h
    simp [writePaddingLoop]
  | succ fuel ih =>
    rw [writePaddingLoop]
    split
    · rename_i hn
      simp [hn]
    · rw [ih (by omega), append_bind_append, List.replicate_append_replicate]
      congr 2
      omega

@[simp] theorem writePadding_eq (room n : Nat) :
    writePadding room n = append room (List.replicate n 0) :=
  writePaddingLoop_eq room le_rfl

/-- The data of a tensor with the padding behind it. -/
def padded (alignment : Nat) (data : Bytes) : Bytes :=
  data ++ List.replicate (pad data.length alignment - data.length) 0

/-- The loop over the data writes what is generated, one padded tensor after the other. -/
theorem writeTensors_some {room : Nat} {convert : Conversion} {db : StDb} {nThreads : Nat}
    {im : ImatrixStore} {alignment : Nat} {v : List Sf37Tensor} {file after : Bytes} {u : Unit}
    (h : (forM v (writeTensor room convert db nThreads im alignment)) file = some (u, after)) :
    ∃ datas, List.Forall₂ (fun t data => generateTensor convert db t nThreads im = some data ∧
        data.length = t.metadata.size) v datas ∧
      append room (datas.flatMap (padded alignment)) file = some ((), after) := by
  induction v generalizing file with
  | nil =>
    refine ⟨[], .nil, ?_⟩
    rw [List.flatMap_nil, append_nil]
    exact h
  | cons t v ih =>
    rw [List.forM_cons] at h
    obtain ⟨_, mid, hfirst, hrest⟩ := bind_iff.mp h
    obtain ⟨data, file', hlift, hwrite⟩ := bind_iff.mp hfirst
    obtain ⟨hdata, rfl⟩ := lift_iff.mp hlift
    split at hwrite
    · cases hwrite
    · rename_i hsize
      rw [writePadding_eq, append_bind_append] at hwrite
      obtain ⟨datas, hdatas, hafter⟩ := ih hrest
      refine ⟨data :: datas, .cons ⟨hdata, not_not.mp hsize⟩ hdatas, ?_⟩
      rw [List.flatMap_cons, ← append_bind_append]
      exact bind_iff.mpr ⟨(), mid, hwrite, hafter⟩

/-- What `sf37_write_gguf` writes. -/
theorem writeGguf_some {room : Nat} {convert : Conversion} {db : StDb} {plan : Plan}
    {hfDir : Bytes} {nThreads : Nat} {im : ImatrixStore} {file : Bytes} {u : Unit}
    (h : writeGguf room convert db plan hfDir nThreads im [] = some (u, file)) :
    (layoutOf plan hfDir im).text.length ≤ plan.dataOffset ∧
    ∃ datas, List.Forall₂ (fun t data => generateTensor convert db t nThreads im = some data ∧
        data.length = t.metadata.size) plan.v datas ∧
      file = (layoutOf plan hfDir im).text ++
        (List.replicate (plan.dataOffset - (layoutOf plan hfDir im).text.length) 0 ++
          datas.flatMap (padded plan.alignment)) ∧ file.length ≤ room := by
  rw [writeGguf, writeMetadata_eq] at h
  obtain ⟨_, meta', hmeta, hrest⟩ := bind_iff.mp h
  rw [position_bind] at hrest
  obtain ⟨hroom, rfl⟩ := append_iff.mp hmeta
  rw [List.nil_append] at hrest
  split at hrest
  · cases hrest
  · rename_i hpos
    rw [writePadding_eq] at hrest
    obtain ⟨_, mid, hpad, hdata⟩ := bind_iff.mp hrest
    obtain ⟨datas, hdatas, hafter⟩ := writeTensors_some hdata
    have hall : append room ((layoutOf plan hfDir im).text ++
        (List.replicate (plan.dataOffset - (layoutOf plan hfDir im).text.length) 0 ++
          datas.flatMap (padded plan.alignment))) [] = some ((), file) := by
      rw [← append_bind_append, ← append_bind_append]
      refine bind_iff.mpr ⟨(), _, hmeta, bind_iff.mpr ⟨(), mid, ?_, hafter⟩⟩
      rw [List.nil_append]
      exact hpad
    obtain ⟨hfits, hfile⟩ := append_iff.mp hall
    rw [List.nil_append] at hfile
    refine ⟨Nat.not_lt.mp hpos, datas, hdatas, hfile, ?_⟩
    rw [hfile]
    rcases hfits with hnil | hle
    · rw [hnil]
      exact Nat.zero_le _
    · rwa [List.length_nil, Nat.zero_add] at hle

end Sf37.Quantize

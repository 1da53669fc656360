/-
Sf37.Quantize.ReadBack — the engine opens what the quantizer writes.

Sizes and offsets are computed when the file is planned, when it is written and when it is
loaded. The written metadata are the text of a layout, so the loader takes them back; the
planned offsets are where the data then stand.

* `data_at_offset`: a tensor's data stand at its planned offset.
* `wellFormed_layoutOf`, `alignment_layoutOf`: the layout is one the loader takes, with the
  alignment of the plan.
* `readBack`: the planned size of the metadata is what is written, and each planned tensor
  is found, with its data.
-/
import Sf37.Gguf.StaysInside
import Sf37.Quantize.WriteGguf
import Mathlib.Algebra.Group.Nat.Defs

namespace Sf37.Quantize

open Sf37.Text Sf37.Gguf Sf37.Run Sf37.Run.FileWriter

/-! ## Where the data stand -/

theorem le_pad {x : Nat} (h : x < 2 ^ 63) : x ≤ pad x ggufDefaultAlignment := by
  unfold pad ggufDefaultAlignment
  omega

theorem length_padded {data : Bytes} (h : data.length < 2 ^ 63) :
    (padded ggufDefaultAlignment data).length = pad data.length ggufDefaultAlignment := by
  have hle := le_pad h
  rw [padded, List.length_append, List.length_replicate]
  omega

/-- The data of the tensors stand at their planned offsets. -/
theorem data_at_offset {Generated : Sf37Tensor → Bytes → Prop} {v : List Sf37Tensor}
    {datas : List Bytes} {off last : Nat} (hoff : OffsetsFrom off v last)
    (hdatas : List.Forall₂ (fun t data => Generated t data ∧ data.length = t.metadata.size) v datas)
    (hfit : off + (datas.flatMap (padded ggufDefaultAlignment)).length < 2 ^ 63) :
    ∀ t ∈ v, ∃ data before after, Generated t data ∧ data.length = t.metadata.size ∧
      datas.flatMap (padded ggufDefaultAlignment) = before ++ (data ++ after) ∧
      t.metadata.newOffset = off + before.length := by
  induction hdatas generalizing off with
  | nil => exact fun _ ht => absurd ht List.not_mem_nil
  | @cons t data v datas hdata _ ih =>
    obtain ⟨hfirst, hrest⟩ := hoff
    rw [List.flatMap_cons, List.length_append] at hfit
    have hlen : data.length < 2 ^ 63 := by
      rw [padded, List.length_append] at hfit
      omega
    have hpadded := length_padded hlen
    rw [hdata.2] at hpadded
    rw [← hpadded, Nat.mod_eq_of_lt (by omega)] at hrest
    refine List.forall_mem_cons.mpr ⟨?_, fun t' ht' => ?_⟩
    · refine ⟨data, [], List.replicate (pad data.length ggufDefaultAlignment - data.length) 0 ++
        datas.flatMap (padded ggufDefaultAlignment), hdata.1, hdata.2, ?_, hfirst⟩
      rw [List.flatMap_cons, List.nil_append, ← List.append_assoc]
      rfl
    · obtain ⟨data', before, after, hgen, hsize, hsplit, hplace⟩ := ih hrest (by omega) t' ht'
      refine ⟨data', padded ggufDefaultAlignment data ++ before, after, hgen, hsize, ?_, ?_⟩
      · rw [List.flatMap_cons, hsplit, List.append_assoc]
      · rw [hplace, List.length_append, Nat.add_assoc]

/-! ## The layout -/

/-- The pairs the quantizer writes. -/
inductive WrittenPair : Pair → Prop where
  | string (key value : Bytes) : WrittenPair (pairString key value)
  | u32 (key : Bytes) (value : Nat) : WrittenPair (pairU32 key value)
  | bool (key : Bytes) (value : Bool) : WrittenPair (pairBool key value)
  | u64 (key : Bytes) (value : Nat) : WrittenPair (pairU64 key value)

theorem written_modelPairs (hfDir : Bytes) : ∀ k ∈ modelPairs hfDir, WrittenPair k := by
  simp only [modelPairs, List.forall_mem_cons]
  refine ⟨.string _ _, .string _ _, .u32 _ _, .u32 _ _, .u32 _ _, .string _ _, .u32 _ _, .u32 _ _,
    .u32 _ _, .u32 _ _, .u32 _ _, .u32 _ _, .u32 _ _, .u32 _ _, .bool _ _, .string _ _,
    .string _ _, .string _ _, .string _ _, .string _ _, fun _ h => absurd h List.not_mem_nil⟩

theorem written_imatrixPairs (im : ImatrixStore) : ∀ k ∈ imatrixPairs im, WrittenPair k := by
  intro k hk
  unfold imatrixPairs at hk
  split at hk
  · simp only [List.mem_cons, List.mem_append, List.mem_map] at hk
    rcases hk with rfl | rfl | ⟨dataset, -, rfl⟩ | hk
    · exact .string _ _
    · exact .u64 _ _
    · exact .string _ _
    · split at hk
      · rw [List.mem_singleton.mp hk]
        exact .u64 _ _
      · exact absurd hk List.not_mem_nil
  · exact absurd hk List.not_mem_nil

theorem WrittenPair.wellFormed {k : Pair} (h : WrittenPair k) (hlen : k.text.length < 2 ^ 64) :
    k.WellFormed := by
  rw [length_pairText] at hlen
  have hkey : k.key.length < 2 ^ 64 := by omega
  cases h with
  | string key value =>
    have hvalue : (stringText value).length < 2 ^ 64 :=
      Nat.lt_of_le_of_lt (Nat.le_add_left _ _) hlen
    rw [length_stringText] at hvalue
    exact ⟨hkey, (by decide : ggufTypeString < 2 ^ 32), ⟨value, by omega, rfl⟩⟩
  | u32 key value =>
    exact ⟨hkey, (by decide : ggufTypeUint32 < 2 ^ 32),
      ⟨(by decide : ggufValueSize ggufTypeUint32 ≠ 0), length_littleEndian 4 value⟩⟩
  | bool key value =>
    exact ⟨hkey, (by decide : ggufTypeBool < 2 ^ 32),
      ⟨(by decide : ggufValueSize ggufTypeBool ≠ 0), rfl⟩⟩
  | u64 key value =>
    exact ⟨hkey, (by decide : ggufTypeUint64 < 2 ^ 32),
      ⟨(by decide : ggufValueSize ggufTypeUint64 ≠ 0), length_littleEndian 8 value⟩⟩

/-- No pair asks for another alignment than the planned one. -/
theorem alignment_modelPairs (hfDir : Bytes) :
    ∀ k ∈ modelPairs hfDir, cstr k.key = alignmentKey →
      ofLittleEndian k.value = ggufDefaultAlignment := by
  have hother : ∀ key : Bytes, cstr key ≠ alignmentKey → ∀ (type : Nat) (value : Bytes),
      cstr (Pair.mk key type value).key = alignmentKey →
        ofLittleEndian (Pair.mk key type value).value = ggufDefaultAlignment :=
    fun key hkey _ _ h => absurd h hkey
  simp only [modelPairs, List.forall_mem_cons]
  refine ⟨hother _ (by decide) _ _, hother _ (by decide) _ _, fun _ => by decide,
    hother _ (by decide) _ _, hother _ (by decide) _ _, hother _ (by decide) _ _,
    hother _ (by decide) _ _, hother _ (by decide) _ _, hother _ (by decide) _ _,
    hother _ (by decide) _ _, hother _ (by decide) _ _, hother _ (by decide) _ _,
    hother _ (by decide) _ _, hother _ (by decide) _ _, hother _ (by decide) _ _,
    hother _ (by decide) _ _, hother _ (by decide) _ _, hother _ (by decide) _ _,
    hother _ (by decide) _ _, hother _ (by decide) _ _, fun _ h => absurd h List.not_mem_nil⟩

theorem alignment_imatrixPairs (im : ImatrixStore) :
    ∀ k ∈ imatrixPairs im, cstr k.key ≠ alignmentKey := by
  intro k hk
  unfold imatrixPairs at hk
  split at hk
  · simp only [List.mem_cons, List.mem_append, List.mem_map] at hk
    rcases hk with rfl | rfl | ⟨dataset, -, rfl⟩ | hk
    · exact (by decide : cstr kvImatrixFile ≠ alignmentKey)
    · exact (by decide : cstr kvImatrixNEntries ≠ alignmentKey)
    · exact (by decide : cstr kvImatrixDataset ≠ alignmentKey)
    · split at hk
      · rw [List.mem_singleton.mp hk]
        exact (by decide : cstr kvImatrixNChunks ≠ alignmentKey)
      · exact absurd hk List.not_mem_nil
  · exact absurd hk List.not_mem_nil

/-- The alignment the loader finds is the planned one. -/
theorem alignment_layoutOf (plan : Plan) (hfDir : Bytes) (im : ImatrixStore) :
    (layoutOf plan hfDir im).alignment = ggufDefaultAlignment := by
  have hpairs : ∀ k ∈ modelPairs hfDir ++ imatrixPairs im,
      k.Aligns → ofLittleEndian k.value = ggufDefaultAlignment := by
    intro k hk haligns
    rcases List.mem_append.mp hk with hk | hk
    · exact alignment_modelPairs hfDir k hk haligns.1
    · exact absurd haligns.1 (alignment_imatrixPairs im k hk)
  have hfold : ∀ pairs : List Pair,
      (∀ k ∈ pairs, k.Aligns → ofLittleEndian k.value = ggufDefaultAlignment) →
      pairs.foldl Pair.alignment ggufDefaultAlignment = ggufDefaultAlignment := by
    intro pairs
    induction pairs with
    | nil => exact fun _ => rfl
    | cons k pairs ih =>
      intro h
      obtain ⟨hk, hrest⟩ := List.forall_mem_cons.mp h
      have hstep : Pair.alignment ggufDefaultAlignment k = ggufDefaultAlignment := by
        unfold Pair.alignment
        split
        · rename_i haligns
          exact hk haligns
        · rfl
      rw [List.foldl_cons, hstep, ih hrest]
  exact hfold _ hpairs

theorem length_le_flatMap {α : Type} {f : α → Bytes} {xs : List α} {x : α} (h : x ∈ xs) :
    (f x).length ≤ (xs.flatMap f).length := by
  obtain ⟨before, after, rfl⟩ := List.append_of_mem h
  rw [List.flatMap_append, List.flatMap_cons, List.length_append, List.length_append]
  omega

theorem length_le_length_flatMap {α : Type} {f : α → Bytes} {xs : List α}
    (h : ∀ x ∈ xs, 1 ≤ (f x).length) : xs.length ≤ (xs.flatMap f).length := by
  induction xs with
  | nil => exact Nat.zero_le _
  | cons x xs ih =>
    obtain ⟨hx, hxs⟩ := List.forall_mem_cons.mp h
    have hrest := ih hxs
    rw [List.flatMap_cons, List.length_cons, List.length_append]
    omega

/-- What is planned, on the way from the database to the layout. -/
structure Planned (db : StDb) (v : List Sf37Tensor) : Prop where
  names : ∀ t ∈ v, NulFree t.hfName
  planned : ∀ t ∈ v, PlannedFrom db t
  stored : ∀ t ∈ v, ∀ te s, dbTensor db t.hfName = some (te, s) → ∃ src, te.info.Stored src

theorem Planned.sized {db : StDb} {v : List Sf37Tensor} (h : Planned db v) {t : Sf37Tensor}
    (ht : t ∈ v) : (∃ ti, Sized t.metadata.type.id t.metadata.ne ti) ∧
      t.metadata.size = Gguf.tensorBytes t.metadata.type.id t.metadata.ne := by
  obtain ⟨te, s, hte, hplan⟩ := h.planned t ht
  obtain ⟨src, hsrc⟩ := h.stored t ht te s hte
  exact sized_of_planned hsrc hplan

theorem wellFormed_tensorInfo {t : TensorMeta} (hsized : ∃ ti, Sized t.type.id t.ne ti)
    (hlen : (tensorInfo t).text.length < 2 ^ 63) (hoffset : t.newOffset < 2 ^ 64) :
    (tensorInfo t).WellFormed := by
  obtain ⟨ti, hti⟩ := hsized
  have hprod : 0 < t.ne.prod := List.prod_pos hti.pos
  rw [length_infoText, tensorInfoSize, ggufStringSize] at hlen
  refine ⟨?_, fun d hd => ?_, ?_, hoffset, ti, hti⟩
  · change t.name.length < 2 ^ 64
    omega
  · exact Nat.lt_of_le_of_lt (Nat.le_of_dvd hprod (List.dvd_prod hd)) hti.elems
  · change t.type.id < 2 ^ 32
    cases t.type <;> decide

/-- The loader takes the layout. -/
theorem wellFormed_layoutOf {db : StDb} {plan : Plan} {hfDir : Bytes} {im : ImatrixStore}
    (hplan : Planned db plan.v) (hlen : (layoutOf plan hfDir im).text.length < 2 ^ 63)
    (hoffsets : ∀ t ∈ plan.v, t.metadata.newOffset < 2 ^ 64) :
    (layoutOf plan hfDir im).WellFormed := by
  rw [Layout.text, List.length_append, List.length_append, length_headerText] at hlen
  have hpair : ∀ k ∈ modelPairs hfDir ++ imatrixPairs im, k.text.length < 2 ^ 63 := by
    intro k hk
    have := length_le_flatMap (f := Pair.text) hk
    change 24 + (((modelPairs hfDir ++ imatrixPairs im).flatMap Pair.text).length + _) < _ at hlen
    omega
  have hinfo : ∀ i ∈ (layoutOf plan hfDir im).infos, i.text.length < 2 ^ 63 := by
    intro i hi
    have := length_le_flatMap (f := TensorInfo.text) hi
    omega
  refine ⟨?_, ?_, ?_, ?_⟩
  · have hcount : (imatrixPairs im).length ≤ 4 := by
      rw [length_imatrixPairs, extraImatrixKvCount]
      split_ifs <;> decide
    rw [layoutOf, List.length_append, length_modelPairs]
    omega
  · have hone : ∀ i ∈ (layoutOf plan hfDir im).infos, 1 ≤ i.text.length := by
      intro i hi
      obtain ⟨t, -, rfl⟩ := List.mem_map.mp hi
      rw [length_infoText, tensorInfoSize]
      omega
    have hcount := length_le_length_flatMap hone
    omega
  · intro k hk
    have hwritten : WrittenPair k := by
      rcases List.mem_append.mp hk with hk | hk
      · exact written_modelPairs hfDir k hk
      · exact written_imatrixPairs im k hk
    exact hwritten.wellFormed (Nat.lt_trans (hpair k hk) (by decide))
  · intro i hi
    obtain ⟨t, ht, rfl⟩ := List.mem_map.mp hi
    exact wellFormed_tensorInfo (hplan.sized ht).1 (hinfo _ hi) (hoffsets t ht)

/-! ## The opened file -/

/-- `find_tensor`. -/
def findTensor (g : GgufFile) (name : Bytes) : Option Tensor :=
  g.tensors.find? fun t => cstr t.name == cstr name

/-- The engine finds a planned tensor as the database has it, of the planned type and size,
and its data are what is generated for it. -/
def FoundIn (convert : Conversion) (db : StDb) (nThreads : Nat) (im : ImatrixStore)
    (file : Bytes) (g : GgufFile) (t : Sf37Tensor) : Prop :=
  ∃ te s gt data, dbTensor db t.hfName = some (te, s) ∧ findTensor g t.hfName = some gt ∧
    gt.name = t.hfName ∧ gt.ndim = te.info.shape.length ∧ gt.dim = te.info.shape.reverse ∧
    gt.type = t.metadata.type.id ∧ gt.nbytes = t.metadata.size ∧
    generateTensor convert db t nThreads im = some data ∧ data.length = t.metadata.size ∧
    (file.drop gt.absOffset).take gt.nbytes = data

/-- Tensors of one name are planned alike, but for their offsets. -/
theorem planTensor_newOffset {name : Bytes} {info : StInfo} {off off' : Nat} {t t' : Sf37Tensor}
    (h : planTensor name info off = some t) (h' : planTensor name info off' = some t') :
    t = { t' with metadata := { t'.metadata with newOffset := off } } := by
  obtain ⟨type, hpolicy, h⟩ := Option.bind_eq_some_iff.mp h
  obtain ⟨ne, hne, h⟩ := Option.bind_eq_some_iff.mp h
  obtain ⟨type', hchecked, h⟩ := Option.bind_eq_some_iff.mp h
  rw [planTensor, hpolicy] at h'
  simp only [Option.bind_eq_bind, Option.bind_some, hne, hchecked] at h'
  cases h
  cases h'
  rfl

/-- Data do not depend on the offset. -/
theorem generateTensor_newOffset (convert : Conversion) (db : StDb) (t : Sf37Tensor)
    (nThreads : Nat) (im : ImatrixStore) (off : Nat) :
    generateTensor convert db { t with metadata := { t.metadata with newOffset := off } }
      nThreads im = generateTensor convert db t nThreads im := rfl

theorem pad_eq_alignU64 {x : Nat} (h : x < 2 ^ 63) :
    pad x ggufDefaultAlignment = alignU64 x ggufDefaultAlignment := by
  have hsum : (x + 32 - 1) % 2 ^ 64 = x + 31 := Nat.mod_eq_of_lt (by omega)
  have hprod : (x + 31) / 32 * 32 % 2 ^ 64 = (x + 31) / 32 * 32 := Nat.mod_eq_of_lt (by omega)
  unfold pad alignU64 ggufDefaultAlignment
  rw [hsum, hprod, if_neg (by decide)]
  by_cases hrest : x % 32 = 0
  · rw [if_neg (not_not.mpr hrest)]
    omega
  · rw [if_pos hrest, Nat.mod_eq_of_lt (by omega)]
    omega

/-- The opened file has a planned tensor. -/
theorem foundIn_opened {convert : Conversion} {db : StDb} {nThreads : Nat} {im : ImatrixStore}
    {plan : Plan} {hfDir file : Bytes} (hplan : Planned db plan.v)
    (hdata : ∀ t ∈ plan.v, ∃ data, generateTensor convert db t nThreads im = some data ∧
      data.length = t.metadata.size ∧
      (file.drop (absOffset (layoutOf plan hfDir im).dataOffset
        (tensorInfo t.metadata).tensor)).take data.length = data)
    {t : Sf37Tensor} (ht : t ∈ plan.v) :
    FoundIn convert db nThreads im file ((layoutOf plan hfDir im).opened file.length) t := by
  have htensors : ((layoutOf plan hfDir im).opened file.length).tensors = plan.v.map fun t =>
      place (layoutOf plan hfDir im).dataOffset (tensorInfo t.metadata).tensor := by
    rw [Layout.opened, layoutOf, List.map_map]
    rfl
  have hfound : ∃ gt,
      findTensor ((layoutOf plan hfDir im).opened file.length) t.hfName = some gt := by
    rw [← Option.isSome_iff_exists, findTensor, List.find?_isSome, htensors]
    obtain ⟨te, s, -, hst⟩ := hplan.planned t ht
    refine ⟨_, List.mem_map.mpr ⟨t, ht, rfl⟩, ?_⟩
    change (cstr t.metadata.name == cstr t.hfName) = true
    rw [(planTensor_fields hst).2.1]
    exact beq_self_eq_true _
  obtain ⟨gt, hgt⟩ := hfound
  have hmem := List.mem_of_find?_eq_some hgt
  rw [htensors] at hmem
  obtain ⟨t', ht', rfl⟩ := List.mem_map.mp hmem
  obtain ⟨te, s, hte, hst⟩ := hplan.planned t ht
  obtain ⟨te', s', hte', hst'⟩ := hplan.planned t' ht'
  have hname : t'.hfName = t.hfName := by
    have hsame := List.find?_some hgt
    change (cstr t'.metadata.name == cstr t.hfName) = true at hsame
    rw [beq_iff_eq, (planTensor_fields hst').2.1, cstr_iff.mpr (hplan.names t' ht'),
      cstr_iff.mpr (hplan.names t ht)] at hsame
    exact hsame
  rw [hname] at hte' hst'
  rw [hte] at hte'
  cases hte'
  obtain ⟨data, hgen, hsize, hstands⟩ := hdata t' ht'
  have hsame := planTensor_newOffset hst hst'
  have hgen' : generateTensor convert db t nThreads im = some data := by
    rw [hsame, generateTensor_newOffset]
    exact hgen
  have hmeta : t.metadata = { t'.metadata with newOffset := t.metadata.newOffset } :=
    congrArg Sf37Tensor.metadata hsame
  have hnbytes := (hplan.sized ht').2
  obtain ⟨-, hmname, -, hne, -, -⟩ := planTensor_fields hst'
  refine ⟨te, s, _, data, hte, hgt, hmname, ?_, hne, ?_, ?_, hgen', ?_, ?_⟩
  · change t'.metadata.ne.length = te.info.shape.length
    rw [hne, List.length_reverse]
  · rw [hmeta]
    rfl
  · rw [hmeta]
    exact hnbytes.symm
  · rw [hmeta]
    exact hsize
  · change (file.drop _).take (Gguf.tensorBytes t'.metadata.type.id t'.metadata.ne) = data
    rw [← hnbytes, ← hsize]
    exact hstands

theorem buildPlan_some {db : StDb} {limit : Int} {hfDir : Bytes} {im : ImatrixStore} {plan : Plan}
    (h : buildPlan db limit hfDir im = some plan) :
    (∀ t ∈ plan.v, PlannedFrom db t) ∧
      plan.v.map Sf37Tensor.hfName =
        (db.weights.take (plannedCount db limit)).map WeightMapEntry.name ∧
      (∃ last, OffsetsFrom 0 plan.v last) ∧
      plan.metaSize = (4 + 4 + 8 + 8 + kvBytes hfDir im +
        (plan.v.map fun t => tensorInfoSize t.metadata).sum) % 2 ^ 64 ∧
      plan.dataOffset = pad plan.metaSize ggufDefaultAlignment ∧
      plan.alignment = ggufDefaultAlignment := by
  obtain ⟨⟨v, off, infoBytes⟩, hloop, h⟩ := Option.bind_eq_some_iff.mp h
  obtain ⟨hall, hnames, hoffsets, hsum⟩ := planLoop_some hloop
  rw [Nat.zero_add] at hsum
  subst hsum
  cases h
  exact ⟨hall, hnames, ⟨off, hoffsets⟩, rfl, rfl, rfl⟩

theorem planned_of_buildPlan {db : StDb} {limit : Int} {hfDir : Bytes} {im : ImatrixStore}
    {plan : Plan}
    (hstored : ∀ w ∈ db.weights, ∀ te s, dbTensor db w.name = some (te, s) →
      ∃ src, te.info.Stored src)
    (h : buildPlan db limit hfDir im = some plan) : Planned db plan.v := by
  obtain ⟨hall, hnames, -⟩ := buildPlan_some h
  have hmem : ∀ t ∈ plan.v, ∃ w ∈ db.weights, w.name = t.hfName := by
    intro t ht
    have hname := List.mem_map_of_mem (f := Sf37Tensor.hfName) ht
    rw [hnames] at hname
    obtain ⟨w, hw, heq⟩ := List.mem_map.mp hname
    exact ⟨w, List.mem_of_mem_take hw, heq⟩
  refine ⟨fun t ht => ?_, hall, fun t ht te s hte => ?_⟩
  · obtain ⟨w, -, hw⟩ := hmem t ht
    exact hw ▸ w.name_nulFree
  · obtain ⟨w, hw, heq⟩ := hmem t ht
    exact hstored w hw te s (heq ▸ hte)

/-- A file as `sf37_write_gguf` leaves it: the metadata, and behind them the data of each
tensor at the place the loader computes. -/
structure WrittenFile (convert : Conversion) (db : StDb) (nThreads : Nat) (im : ImatrixStore)
    (plan : Plan) (l : Layout) (file : Bytes) : Prop where
  opens : file.length < 2 ^ 63
  metadata : l.text <+: file
  metaSize : l.text.length = plan.metaSize
  data : ∀ t ∈ plan.v, ∃ data, generateTensor convert db t nThreads im = some data ∧
    data.length = t.metadata.size ∧ t.metadata.newOffset < 2 ^ 64 ∧
    absOffset l.dataOffset (tensorInfo t.metadata).tensor + data.length ≤ file.length ∧
    (file.drop (absOffset l.dataOffset (tensorInfo t.metadata).tensor)).take data.length = data

theorem writtenFile {db : StDb} {limit : Int} {hfDir : Bytes} {im : ImatrixStore}
    {convert : Conversion} {nThreads room : Nat} {plan : Plan} {file : Bytes} {u : Unit}
    (hroom : room < 2 ^ 63) (hplan : buildPlan db limit hfDir im = some plan)
    (hwrite : writeGguf room convert db plan hfDir nThreads im [] = some (u, file)) :
    WrittenFile convert db nThreads im plan (layoutOf plan hfDir im) file := by
  obtain ⟨-, -, ⟨last, hoffsets⟩, hmeta, hdataOffset, halignment⟩ := buildPlan_some hplan
  obtain ⟨hle, datas, hdatas, hfile, hlen⟩ := writeGguf_some hwrite
  rw [halignment] at hfile
  have hopens : file.length < 2 ^ 63 := Nat.lt_of_le_of_lt hlen hroom
  have htext : (layoutOf plan hfDir im).text <+: file := hfile ▸ List.prefix_append _ _
  have hshort := Nat.lt_of_le_of_lt htext.length_le hopens
  have hsize : (layoutOf plan hfDir im).text.length = plan.metaSize := by
    rw [hmeta, ← length_layoutText, Nat.mod_eq_of_lt (Nat.lt_trans hshort (by decide))]
  have hplace : (layoutOf plan hfDir im).dataOffset = plan.dataOffset := by
    rw [hdataOffset, ← hsize, pad_eq_alignU64 hshort, Layout.dataOffset, alignment_layoutOf]
  obtain ⟨front, hfront, hfrontLen⟩ : ∃ front,
      file = front ++ datas.flatMap (padded ggufDefaultAlignment) ∧
        front.length = plan.dataOffset := by
    refine ⟨_, by rw [hfile, ← List.append_assoc], ?_⟩
    rw [List.length_append, List.length_replicate]
    omega
  have hfileLen := congrArg List.length hfront
  rw [List.length_append, hfrontLen] at hfileLen
  refine ⟨hopens, htext, hsize, fun t ht => ?_⟩
  obtain ⟨data, before, after, hgen, hdsize, hsplit, hoff⟩ :=
    data_at_offset hoffsets hdatas (by omega) t ht
  rw [Nat.zero_add] at hoff
  rw [hsplit, List.length_append, List.length_append] at hfileLen
  have habs : absOffset (layoutOf plan hfDir im).dataOffset (tensorInfo t.metadata).tensor =
      (front ++ before).length := by
    rw [absOffset, hplace, List.length_append, hfrontLen, ← hoff]
    refine Nat.mod_eq_of_lt ?_
    change plan.dataOffset + t.metadata.newOffset < 2 ^ 64
    omega
  refine ⟨data, hgen, hdsize, by omega, ?_, ?_⟩
  · rw [habs, List.length_append]
    omega
  · rw [habs, hfront, hsplit, ← List.append_assoc, List.drop_left, List.take_left]

/-- The engine opens the file. -/
theorem ggufOpenText_writtenFile {convert : Conversion} {db : StDb} {nThreads : Nat}
    {im : ImatrixStore} {plan : Plan} {hfDir file : Bytes} (hplan : Planned db plan.v)
    (hwritten : WrittenFile convert db nThreads im plan (layoutOf plan hfDir im) file) :
    ggufOpenText ⟨file, hwritten.opens⟩ = .ok ((layoutOf plan hfDir im).opened file.length) := by
  have hle := hwritten.metadata.length_le
  have hshort := Nat.lt_of_le_of_lt hle hwritten.opens
  refine ggufOpenText_ok_iff.mpr ⟨?_, layoutOf plan hfDir im,
    wellFormed_layoutOf hplan hshort fun t ht => ?_, hwritten.metadata, ?_, rfl⟩
  · have hkv : 8 ≤ kvBytes hfDir im := by
      have hmem : pairString (bytes "general.architecture") (bytes "sf37") ∈
          modelPairs hfDir ++ imatrixPairs im := List.mem_cons_self
      have hfirst := length_le_flatMap (f := Pair.text) hmem
      rw [length_modelText, length_pairText] at hfirst
      omega
    rw [length_layoutText] at hle
    change 32 ≤ file.length
    omega
  · obtain ⟨data, -, -, hoff, -⟩ := hwritten.data t ht
    exact hoff
  · intro i hi
    obtain ⟨t, ht, rfl⟩ := List.mem_map.mp hi
    obtain ⟨data, -, hdsize, -, hend, -⟩ := hwritten.data t ht
    change absOffset _ (tensorInfo t.metadata).tensor +
      Gguf.tensorBytes t.metadata.type.id t.metadata.ne ≤ file.length
    rw [← (hplan.sized ht).2, ← hdsize]
    exact hend

/-- The quantizer's file is read back by the engine: what is written before the padding is
as much as planned, the file is opened, and each planned tensor is found. -/
theorem readBack {db : StDb} {limit : Int} {hfDir : Bytes} {im : ImatrixStore}
    {convert : Conversion} {nThreads room : Nat} {plan : Plan} {file : Bytes}
    (hstored : ∀ w ∈ db.weights, ∀ te s, dbTensor db w.name = some (te, s) →
      ∃ src, te.info.Stored src)
    (hroom : room < 2 ^ 63) (hplan : buildPlan db limit hfDir im = some plan)
    (hwrite : writeGguf room convert db plan hfDir nThreads im [] = some ((), file))
    (errlen : Nat) :
    (∃ metadata, writeMetadata room plan hfDir im [] = some ((), metadata) ∧
      metadata.length = plan.metaSize ∧ metadata <+: file) ∧
    plan.v.map Sf37Tensor.hfName =
      (db.weights.take (plannedCount db limit)).map WeightMapEntry.name ∧
    ∃ (opens : file.length < 2 ^ 63) (g : GgufFile), ggufOpen errlen ⟨file, opens⟩ = .ok g ∧
      ∀ t ∈ plan.v, FoundIn convert db nThreads im file g t := by
  have hplanned := planned_of_buildPlan hstored hplan
  have hwritten := writtenFile hroom hplan hwrite
  refine ⟨⟨(layoutOf plan hfDir im).text, ?_, hwritten.metaSize, hwritten.metadata⟩,
    (buildPlan_some hplan).2.1, hwritten.opens, (layoutOf plan hfDir im).opened file.length, ?_, ?_⟩
  · obtain ⟨-, -, -, -, hlen⟩ := writeGguf_some hwrite
    have hle := hwritten.metadata.length_le
    rw [writeMetadata_eq]
    refine append_iff.mpr ⟨.inr ?_, rfl⟩
    rw [List.length_nil, Nat.zero_add]
    exact hle.trans hlen
  · rw [ggufOpen, ggufOpenText_writtenFile hplanned hwritten]
  · intro t ht
    refine foundIn_opened hplanned (fun t ht => ?_) ht
    obtain ⟨data, hgen, hdsize, -, -, hstands⟩ := hwritten.data t ht
    exact ⟨data, hgen, hdsize, hstands⟩

/-! ## A small database -/

/-- A tensor of two F32 values. -/
def smallF32 : TensorEntry := ⟨bytes "a.weight", ⟨bytes "F32", [1, 2], 0, 8, by decide⟩⟩

/-- A tensor of three BF16 values. -/
def smallBf16 : TensorEntry := ⟨bytes "b.bias", ⟨bytes "BF16", [3], 8, 14, by decide⟩⟩

/-- The two in one shard, without its header. -/
def smallDb : StDb where
  weights := [⟨smallF32.name, bytes "model.safetensors", by decide⟩,
    ⟨smallBf16.name, bytes "model.safetensors", by decide⟩]
  shard _ := some ⟨0, [smallF32, smallBf16],
    [0, 0, 128, 63, 0, 0, 0, 64, 128, 63, 0, 64, 64, 64]⟩

/-- No importance matrix. -/
def noImatrix : ImatrixStore := ⟨[], none, [], 0, false⟩

theorem stored_smallDb : ∀ w ∈ smallDb.weights, ∀ te s, dbTensor smallDb w.name = some (te, s) →
    ∃ src, te.info.Stored src := by
  have hf32 : smallF32.info.Stored .f32 := ⟨by decide, by decide, by decide, by decide, by decide⟩
  have hbf16 : smallBf16.info.Stored .bf16 :=
    ⟨by decide, by decide, by decide, by decide, by decide⟩
  intro w hw te s h
  simp only [smallDb, List.mem_cons, List.not_mem_nil, or_false] at hw
  rcases hw with rfl | rfl
  · cases h
    exact ⟨_, hf32⟩
  · cases h
    exact ⟨_, hbf16⟩

/-- The file of the two tensors; nothing is converted. -/
theorem readBack_small : ∃ plan file,
    buildPlan smallDb 0 (bytes "hf") noImatrix = some plan ∧
    writeGguf 4096 (fun _ _ _ _ _ => 0) smallDb plan (bytes "hf") 8 noImatrix [] =
      some ((), file) ∧
    (∃ metadata, writeMetadata 4096 plan (bytes "hf") noImatrix [] = some ((), metadata) ∧
      metadata.length = plan.metaSize ∧ metadata <+: file) ∧
    plan.v.map Sf37Tensor.hfName =
      (smallDb.weights.take (plannedCount smallDb 0)).map WeightMapEntry.name ∧
    ∃ (opens : file.length < 2 ^ 63) (g : GgufFile), ggufOpen 256 ⟨file, opens⟩ = .ok g ∧
      ∀ t ∈ plan.v, FoundIn (fun _ _ _ _ _ => 0) smallDb 8 noImatrix file g t := by
  have hruns : ((buildPlan smallDb 0 (bytes "hf") noImatrix).bind fun plan =>
      writeGguf 4096 (fun _ _ _ _ _ => 0) smallDb plan (bytes "hf") 8 noImatrix []).isSome =
        true := by
    decide +kernel
  obtain ⟨⟨u, file⟩, hfile⟩ := Option.isSome_iff_exists.mp hruns
  obtain ⟨plan, hplan, hwrite⟩ := Option.bind_eq_some_iff.mp hfile
  exact ⟨plan, file, hplan, hwrite, readBack stored_smallDb (by decide) hplan hwrite 256⟩

end Sf37.Quantize

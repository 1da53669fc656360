/-
Sf37.Quantize.SafetensorsPlan — from the headers of a folder's safetensors files to the plan of
`sf37_build_plan`.

A `Folder` has an index of weights and, for each of its files, the tensors that the header
lists. `Folder.Intake` says that every shard is loaded as its header says and that the plan has
a record for each weight, with its shape reversed.

* `planLoop_isSome`: what a plan needs of each weight.
* `intake_iff`: the intake is faithful exactly when numbers fit and each planned tensor is of a
  source type and of at most `maxDims` dimensions.
-/
import Sf37.Quantize.SafetensorsHeader
import Sf37.Text.LittleEndian

namespace Sf37.Quantize

open Sf37.Text Sf37.Text.JsonDoc

/-! ## Shards -/

/-- The entry of the database; shapes have no negative dimensions. -/
def Loaded.entry (e : Loaded) : TensorEntry :=
  ⟨e.name, e.dtype, e.shape.map Int.toNat, e.start, e.stop % 18446744073709551616,
    Nat.mod_lt _ (by decide)⟩

/-- The header of a file, behind its length. -/
def headerOf (file : Bytes) : Option Bytes :=
  let headerLen := ofLittleEndian (file.take 8)
  let header := (file.drop 8).take headerLen
  if file.length < 8 ∨ header.length ≠ headerLen then none else some header

/-- `shard_load`, of the bytes of a file. -/
def shardLoad (file : Bytes) : Option Shard := do
  let header ← headerOf file
  let tensors ← shardTensors header
  some ⟨(8 + header.length) % 18446744073709551616, tensors.map Loaded.entry, file⟩

/-- A file of the format. -/
def ValidFile (file : Bytes) (ts : List Listed) : Prop :=
  ∃ header data, file = littleEndian 8 header.length ++ (header ++ data) ∧ ValidHeader header ts

/-- A folder: the index, the files, and what their headers list. -/
structure Folder where
  weights : List WeightMapEntry
  file : Bytes → Bytes
  listed : Bytes → List Listed
  valid : ∀ w ∈ weights, ValidFile (file w.file) (listed w.file)
  nodup : (weights.map WeightMapEntry.name).Nodup
  indexed : ∀ w ∈ weights, ∃ t ∈ listed w.file, t.name = w.name

/-- `db_open`, and what `shard_load` makes of each file. -/
def Folder.db (F : Folder) : StDb := ⟨F.weights, fun file => shardLoad (F.file file)⟩

/-- What the database has of a tensor. -/
def Listed.info (t : Listed) : StInfo := t.loaded.entry.info

/-- The record that the plan has for a tensor. -/
structure RecordOf (t : Listed) (r : Sf37Tensor) : Prop where
  names : r.hfName = t.name ∧ r.metadata.name = t.name
  source : r.dtype = t.dtype ∧ r.srcShape = t.shape.map Count.value
  ne : r.metadata.ne = (t.shape.map Count.value).reverse
  type : (policyType t.name t.info).bind (checkedType t.info) = some r.metadata.type
  size : r.metadata.size = tensorNbytes r.metadata.type (t.shape.map Count.value).reverse

/-- The weights that are planned. -/
def Folder.planned (F : Folder) (limit : Int) : List WeightMapEntry :=
  F.weights.take (plannedCount F.db limit)

/-- Every shard is loaded as its header says, and the plan has the records of the weights. -/
structure Folder.Intake (F : Folder) (limit : Int) (hfDir : Bytes) (im : ImatrixStore) :
    Prop where
  loaded : ∀ w ∈ F.weights,
    (headerOf (F.file w.file)).bind shardTensors = some ((F.listed w.file).map Listed.loaded)
  plan : ∃ plan, buildPlan F.db limit hfDir im = some plan ∧
    List.Forall₂ (fun w r => ∃ t ∈ F.listed w.file, t.name = w.name ∧ RecordOf t r)
      (F.planned limit) plan.v ∧ OffsetsFrom 0 plan.v plan.tensorBytes

/-! ## Loading a file -/

theorem headerOf_file {header : Bytes} (hlen : header.length < 2147483648) (data : Bytes) :
    headerOf (littleEndian 8 header.length ++ (header ++ data)) = some header := by
  have hlen8 : (littleEndian 8 header.length).length = 8 := length_littleEndian ..
  have hfit : header.length < 256 ^ 8 := hlen.trans (by decide)
  rw [headerOf, ofLittleEndian_take hfit, List.drop_left' hlen8, List.take_left, if_neg]
  rw [List.length_append, hlen8]
  omega

theorem Lists.names_sublist {ms : List (Bytes × Node)} {ts : List Listed} (h : Lists ms ts) :
    (ts.map Listed.name).Sublist (ms.map Prod.fst) := by
  induction h with
  | nil => exact .slnil
  | metadata n _ ih => exact ih.cons _
  | tensor _ _ ih => exact ih.cons_cons _

/-- A header lists each name once. -/
theorem ValidHeader.nodup {js : Bytes} {ts : List Listed} (h : ValidHeader js ts) :
    (ts.map Listed.name).Nodup := by
  obtain ⟨ms, w, t, w', j, hlists, hnodup, -⟩ := h.text
  exact hlists.names_sublist.nodup hnodup

/-- The tensors of a file are loaded as the header says exactly when its numbers fit. -/
theorem shardTensors_file {file : Bytes} {ts : List Listed} (h : ValidFile file ts) :
    (headerOf file).bind shardTensors = some (ts.map Listed.loaded) ↔ ∀ t ∈ ts, t.Fits := by
  obtain ⟨header, data, rfl, hheader⟩ := h
  rw [headerOf_file hheader.length_lt, Option.bind_some]
  exact shardTensors_iff hheader

theorem shardLoad_file {file : Bytes} {ts : List Listed}
    (h : (headerOf file).bind shardTensors = some (ts.map Listed.loaded)) :
    ∃ s, shardLoad file = some s ∧ s.tensors = ts.map fun t => t.loaded.entry := by
  obtain ⟨header, hheader, htensors⟩ := Option.bind_eq_some_iff.mp h
  refine ⟨⟨(8 + header.length) % 18446744073709551616, (ts.map Listed.loaded).map Loaded.entry,
    file⟩, ?_, List.map_map⟩
  rw [shardLoad, hheader, Option.bind_eq_bind, Option.bind_some, htensors]
  rfl

/-! ## The plan -/

/-- A tensor has a record when its type is known and its dimensions have room. -/
theorem planTensor_isSome {name : Bytes} {info : StInfo} {off : Nat} :
    (planTensor name info off).isSome = true ↔
      (sourceType info.dtype).isSome = true ∧ info.shape.length ≤ maxDims := by
  rw [planTensor, metaNe_eq]
  cases hsrc : sourceType info.dtype with
  | none =>
    have hpolicy : policyType name info = none := by rw [policyType, hsrc]; rfl
    rw [hpolicy]
    simp
  | some src =>
    obtain ⟨type, hpolicy⟩ : ∃ type, policyType name info = some type := by
      rw [policyType, hsrc, Option.bind_eq_bind, Option.bind_some]
      dsimp only
      repeat' split
      all_goals exact ⟨_, rfl⟩
    have htype : ∃ type', checkedType info type = some type' := by
      rw [checkedType, hsrc]
      split <;> exact ⟨_, rfl⟩
    obtain ⟨type', htype⟩ := htype
    rw [hpolicy]
    by_cases hrank : info.shape.length ≤ maxDims
    · simp [hrank, htype]
    · simp [hrank]

/-- What a plan needs of each weight. -/
theorem planLoop_isSome {db : StDb} {weights : List WeightMapEntry} {off tensorInfo : Nat} :
    (planLoop db weights off tensorInfo).isSome = true ↔
      ∀ w ∈ weights, ∃ te s, dbTensor db w.name = some (te, s) ∧
        (sourceType te.info.dtype).isSome = true ∧ te.info.shape.length ≤ maxDims := by
  induction weights generalizing off tensorInfo with
  | nil => exact ⟨fun _ _ h => absurd h List.not_mem_nil, fun _ => rfl⟩
  | cons w weights ih =>
    rw [List.forall_mem_cons, planLoop]
    cases hte : dbTensor db w.name with
    | none => simp
    | some found =>
      obtain ⟨te, s⟩ := found
      have hst := @planTensor_isSome w.name te.info off
      cases hplan : planTensor w.name te.info off with
      | none =>
        rw [hplan] at hst
        simp only [Option.bind_eq_bind, Option.bind_some, hplan, Option.bind_none,
          Option.isSome_none, Bool.false_eq_true, false_iff]
        rintro ⟨⟨te', s', hsame, hok⟩, -⟩
        obtain ⟨rfl, rfl⟩ := Prod.mk.inj (Option.some.inj hsame)
        exact absurd (hst.mpr hok) Bool.false_ne_true
      | some st =>
        rw [hplan] at hst
        simp only [Option.bind_eq_bind, Option.bind_some, hplan]
        have hrest := @ih ((off + pad st.metadata.size ggufDefaultAlignment) % 2 ^ 64)
          (tensorInfo + tensorInfoSize st.metadata)
        rw [← hrest]
        cases planLoop db weights _ _ with
        | none => simp
        | some rest =>
          simp only [Option.bind_some, Option.isSome_some, and_true, true_iff]
          exact ⟨te, s, rfl, hst.mp rfl⟩

/-- The records come in the order of the weights. -/
theorem planLoop_forall₂ {db : StDb} {weights : List WeightMapEntry} {off tensorInfo : Nat}
    {v : List Sf37Tensor} {last : Nat × Nat}
    (h : planLoop db weights off tensorInfo = some (v, last)) :
    List.Forall₂ (fun w r => ∃ te s off, dbTensor db w.name = some (te, s) ∧
      planTensor w.name te.info off = some r) weights v := by
  induction weights generalizing off tensorInfo v last with
  | nil =>
    cases h
    exact .nil
  | cons w weights ih =>
    obtain ⟨⟨te, s⟩, hte, h⟩ := Option.bind_eq_some_iff.mp h
    obtain ⟨st, hst, h⟩ := Option.bind_eq_some_iff.mp h
    obtain ⟨⟨ts, rest⟩, hrest, h⟩ := Option.bind_eq_some_iff.mp h
    cases h
    exact .cons ⟨te, s, off, hte, hst⟩ (ih hrest)

theorem Listed.shape_info (t : Listed) : t.info.shape = t.shape.map Count.value := by
  change (t.shape.map fun n => (n.value : Int)).map Int.toNat = _
  rw [List.map_map]
  rfl

/-- The record of a tensor. -/
theorem recordOf_planTensor {t : Listed} {off : Nat} {r : Sf37Tensor}
    (h : planTensor t.name t.info off = some r) : RecordOf t r := by
  obtain ⟨type, hpolicy, h⟩ := Option.bind_eq_some_iff.mp h
  obtain ⟨ne, hne, h⟩ := Option.bind_eq_some_iff.mp h
  obtain ⟨type', htype, h⟩ := Option.bind_eq_some_iff.mp h
  obtain rfl := Option.some.inj h
  rw [metaNe_some hne, t.shape_info]
  exact ⟨⟨rfl, rfl⟩, ⟨rfl, rfl⟩, rfl, by rw [hpolicy]; exact htype, rfl⟩

theorem hmapGet_nodup {α : Type} {key : α → Bytes} {l : List α} (h : (l.map key).Nodup) {a : α}
    (ha : a ∈ l) : hmapGet key l (key a) = some a :=
  find?_nodup h ha fun _ => beq_iff_eq

/-! ## The intake -/

section Intake

variable {F : Folder} {w : WeightMapEntry} {t : Listed}

/-- The database has the tensor that the header of the weight's file lists. -/
theorem Folder.dbTensor_eq (hw : w ∈ F.weights) (ht : t ∈ F.listed w.file) (hname : t.name = w.name)
    (hload : (headerOf (F.file w.file)).bind shardTensors =
      some ((F.listed w.file).map Listed.loaded)) :
    ∃ s, dbTensor F.db w.name = some (t.loaded.entry, s) := by
  obtain ⟨header, data, -, hheader⟩ := F.valid w hw
  obtain ⟨s, hs, htensors⟩ := shardLoad_file hload
  have hnodup : (s.tensors.map TensorEntry.name).Nodup := by
    rw [htensors, List.map_map]
    exact hheader.nodup
  have hmem : t.loaded.entry ∈ s.tensors := by
    rw [htensors]
    exact List.mem_map_of_mem ht
  have hentry : hmapGet TensorEntry.name s.tensors w.name = some t.loaded.entry := by
    rw [← hname]
    exact hmapGet_nodup hnodup hmem
  have hfile : F.db.shard w.file = some s := hs
  refine ⟨s, ?_⟩
  rw [dbTensor, show F.db.weights = F.weights from rfl, hmapGet_nodup F.nodup hw]
  simp only [Option.bind_eq_bind, Option.bind_some, hfile, hentry]

/-- Every shard is loaded as its header says exactly when all numbers fit. -/
theorem Folder.loaded_iff (F : Folder) :
    (∀ w ∈ F.weights, (headerOf (F.file w.file)).bind shardTensors =
      some ((F.listed w.file).map Listed.loaded)) ↔
      ∀ w ∈ F.weights, ∀ t ∈ F.listed w.file, t.Fits :=
  forall₂_congr fun w hw => shardTensors_file (F.valid w hw)

theorem Folder.mem_of_planned {limit : Int} (h : w ∈ F.planned limit) : w ∈ F.weights :=
  List.mem_of_mem_take h

/-- There is a plan exactly when every planned tensor is of a source type and of at most four
dimensions. -/
theorem Folder.planLoop_isSome {limit : Int}
    (hload : ∀ w ∈ F.weights, (headerOf (F.file w.file)).bind shardTensors =
      some ((F.listed w.file).map Listed.loaded)) :
    (planLoop F.db (F.planned limit) 0 0).isSome = true ↔
      ∀ w ∈ F.planned limit, ∀ t ∈ F.listed w.file, t.name = w.name →
        (sourceType t.dtype).isSome = true ∧ t.shape.length ≤ maxDims := by
  have hrank (t : Listed) : t.info.shape.length = t.shape.length := by
    rw [t.shape_info, List.length_map]
  rw [Quantize.planLoop_isSome]
  refine forall₂_congr fun w hw => ⟨?_, fun h => ?_⟩
  · rintro ⟨te, s, hte, hok⟩ t ht hname
    obtain ⟨s', hs'⟩ := dbTensor_eq (mem_of_planned hw) ht hname (hload w (mem_of_planned hw))
    rw [hte] at hs'
    obtain ⟨rfl, -⟩ := Prod.mk.inj (Option.some.inj hs')
    rw [← hrank t]
    exact hok
  · obtain ⟨t, ht, hname⟩ := F.indexed w (mem_of_planned hw)
    obtain ⟨s, hs⟩ := dbTensor_eq (mem_of_planned hw) ht hname (hload w (mem_of_planned hw))
    have hok := h t ht hname
    rw [← hrank t] at hok
    exact ⟨_, s, hs, hok⟩

/-- The records of a plan are those of the listed tensors. -/
theorem Folder.records {limit : Int}
    (hload : ∀ w ∈ F.weights, (headerOf (F.file w.file)).bind shardTensors =
      some ((F.listed w.file).map Listed.loaded))
    {v : List Sf37Tensor} {last : Nat × Nat}
    (h : planLoop F.db (F.planned limit) 0 0 = some (v, last)) :
    List.Forall₂ (fun w r => ∃ t ∈ F.listed w.file, t.name = w.name ∧ RecordOf t r)
      (F.planned limit) v := by
  have hall := (List.forall₂_and_left (p := (· ∈ F.planned limit)) _ _).mpr
    ⟨fun _ h => h, planLoop_forall₂ h⟩
  refine hall.imp ?_
  rintro w r ⟨hw, te, s, off, hte, hr⟩
  obtain ⟨t, ht, hname⟩ := F.indexed w (mem_of_planned hw)
  obtain ⟨s', hs'⟩ := dbTensor_eq (mem_of_planned hw) ht hname (hload w (mem_of_planned hw))
  rw [hte] at hs'
  obtain ⟨rfl, -⟩ := Prod.mk.inj (Option.some.inj hs')
  rw [← hname] at hr
  exact ⟨t, ht, hname, recordOf_planTensor hr⟩

/-- What a faithful intake tells. -/
theorem Folder.Intake.bounds {limit : Int} {hfDir : Bytes} {im : ImatrixStore}
    (h : F.Intake limit hfDir im) :
    (∀ w ∈ F.weights, ∀ t ∈ F.listed w.file, t.Fits) ∧
      ∀ w ∈ F.planned limit, ∀ t ∈ F.listed w.file, t.name = w.name →
        (sourceType t.dtype).isSome = true ∧ t.shape.length ≤ maxDims := by
  obtain ⟨hload, plan, hplan, -⟩ := h
  obtain ⟨v, hv, -⟩ := Option.bind_eq_some_iff.mp hplan
  exact ⟨F.loaded_iff.mp hload,
    (planLoop_isSome hload).mp (Option.isSome_iff_exists.mpr ⟨v, hv⟩)⟩

end Intake

/-! ## Folders of a few tensors -/

theorem stringBody_ascii {s : Bytes} (h : Unescaped s) (hascii : ∀ c ∈ s, c.toNat < 0x80) :
    StringBody RfcPlain s s := by
  induction s with
  | nil => exact .nil
  | cons c s ih =>
    obtain ⟨hctl, hquote, hback⟩ := h c List.mem_cons_self
    exact .plain (rfcPlain_ascii (hascii c List.mem_cons_self) hquote hback hctl)
      (ih (fun d hd => h d (List.mem_cons_of_mem c hd))
        fun d hd => hascii d (List.mem_cons_of_mem c hd))

theorem Count.rfc (n : Count) : n.node.Rfc := by
  rw [Count.node, Node.Rfc]
  exact ⟨[], n.text, [], [], by simp, .inl rfl, n.int, .inl rfl, .inl rfl⟩

theorem elementsRfc_counts (ns : List Count) : elementsRfc (ns.map Count.node) := by
  induction ns with
  | nil =>
    rw [List.map_nil, elementsRfc]
    trivial
  | cons n ns ih =>
    rw [List.map_cons, elementsRfc]
    exact ⟨n.rfc, ih⟩

/-- The header of one tensor. -/
def Listed.header (t : Listed) : Bytes := (Node.obj [(t.name, .obj t.fields)]).tokens.flatten

def Listed.file (t : Listed) : Bytes := littleEndian 8 t.header.length ++ (t.header ++ [])

theorem stringBody_key (key : Bytes) (hkey : Unescaped key ∧ ∀ c ∈ key, c.toNat < 0x80) :
    ∃ s, StringBody RfcPlain key s := ⟨key, stringBody_ascii hkey.1 hkey.2⟩

theorem Listed.fields_rfc {t : Listed} (hdtype : StringBody RfcPlain t.dtype t.dtype) :
    (Node.obj t.fields).Rfc := by
  rw [Node.Rfc, Listed.fields]
  simp only [membersRfc, Node.Rfc, elementsRfc, and_true]
  exact ⟨stringBody_key _ (by decide +kernel), ⟨_, hdtype⟩, stringBody_key _ (by decide +kernel),
    elementsRfc_counts t.shape, stringBody_key _ (by decide +kernel), t.start.rfc, t.stop.rfc⟩

theorem validHeader_header {t : Listed} (hname : StringBody RfcPlain t.name t.name)
    (hdtype : StringBody RfcPlain t.dtype t.dtype) (hlen : t.header.length < 2147483648) :
    ValidHeader t.header [t] := by
  have hrfc : (Node.obj [(t.name, .obj t.fields)]).Rfc := by
    rw [Node.Rfc, membersRfc]
    exact ⟨⟨_, hname⟩, Listed.fields_rfc hdtype, by rw [membersRfc]; trivial⟩
  obtain ⟨j, hj⟩ := Node.lexes _ hrfc
  have hnil : rfc8259.Ws [] := fun _ h => absurd h List.not_mem_nil
  exact ⟨hlen, _, [], _, [], j, .tensor .rfl .nil, List.nodup_singleton _,
    (List.append_nil _).symm, hnil, hnil, hj⟩

/-- A number without a sign and of one digit. -/
def digit (c : UInt8) (h : c = 0x30 ∨ c = 0x31 ∨ c = 0x34) : Count where
  text := [c]
  int := by
    rcases h with rfl | rfl | rfl
    · exact .inl rfl
    · exact .inr ⟨⟨by decide, by decide +kernel⟩, by decide⟩
    · exact .inr ⟨⟨by decide, by decide +kernel⟩, by decide⟩

/-- One `float`, with as many dimensions as wanted. -/
def oneFloat (rank : Nat) (h : rank ≤ stMaxDims) : Listed where
  name := bytes "w"
  dtype := bytes "F32"
  shape := List.replicate rank (digit 0x31 (by decide))
  start := digit 0x30 (by decide)
  stop := digit 0x34 (by decide)
  name_unescaped := by decide
  name_ne := by decide
  dtype_unescaped := by decide
  rank_le := by rwa [List.length_replicate]

theorem oneFloat_length {rank : Nat} (h : rank ≤ stMaxDims) :
    (oneFloat rank h).header.length < 2147483648 := by
  have hall : ∀ rank (h : rank ≤ stMaxDims), (oneFloat rank h).header.length ≤ 100 := by
    unfold stMaxDims
    decide
  exact (hall rank h).trans_lt (by decide)

def oneFloatFolder (rank : Nat) (h : rank ≤ stMaxDims) : Folder where
  weights := [⟨bytes "w", bytes "model.safetensors", by decide⟩]
  file := fun _ => (oneFloat rank h).file
  listed := fun _ => [oneFloat rank h]
  valid := fun _ _ => ⟨(oneFloat rank h).header, [], rfl, validHeader_header
    (stringBody_ascii (s := bytes "w") (oneFloat rank h).name_unescaped (by decide +kernel))
    (stringBody_ascii (s := bytes "F32") (oneFloat rank h).dtype_unescaped (by decide +kernel))
    (oneFloat_length h)⟩
  nodup := List.nodup_singleton _
  indexed := fun w hw => ⟨oneFloat rank h, List.mem_singleton_self _, by
    rw [List.mem_singleton.mp hw]
    rfl⟩

/-! ## The intake is faithful -/

/-- The intake is faithful exactly when all numbers fit and every planned tensor is of a source
type and of at most four dimensions. -/
theorem intake_iff (F : Folder) (limit : Int) (hfDir : Bytes) (im : ImatrixStore) :
    F.Intake limit hfDir im ↔
      (∀ w ∈ F.weights, ∀ t ∈ F.listed w.file, t.Fits) ∧
      ∀ w ∈ F.planned limit, ∀ t ∈ F.listed w.file, t.name = w.name →
        (sourceType t.dtype).isSome = true ∧ t.shape.length ≤ maxDims := by
  refine ⟨Folder.Intake.bounds, ?_⟩
  rintro ⟨hfits, hok⟩
  have hload := F.loaded_iff.mpr hfits
  obtain ⟨⟨v, off, tensorInfo⟩, hv⟩ :=
    Option.isSome_iff_exists.mp ((Folder.planLoop_isSome hload).mpr hok)
  obtain ⟨-, -, hoffsets, -⟩ := planLoop_some hv
  exact ⟨hload, ⟨v, off, _, _, _⟩, Option.bind_eq_some_iff.mpr ⟨_, hv, rfl⟩,
    Folder.records hload hv, hoffsets⟩

/-- The members of a header with metadata before the tensors. -/
def headerMembers (ts : List Listed) : List (Bytes × Node) :=
  (metadataName, .obj [(bytes "format", .str (bytes "pt"))]) ::
    ts.map fun t => (t.name, .obj t.fields)

/-- Its text, with a line feed before it and blanks behind. -/
def headerText (ts : List Listed) : Bytes :=
  bytes "\n" ++ ((Node.obj (headerMembers ts)).tokens.flatten ++ bytes "   ")

theorem lists_tensors (ts : List Listed) :
    Lists (ts.map fun t => (t.name, .obj t.fields)) ts := by
  induction ts with
  | nil => exact .nil
  | cons t ts ih => exact .tensor .rfl ih

theorem validHeader_text {ts : List Listed} (hnames : (ts.map Listed.name).Nodup)
    (hascii : ∀ t ∈ ts, ∀ c ∈ t.name ++ t.dtype, c.toNat < 0x80)
    (hlen : (headerText ts).length < 2147483648) : ValidHeader (headerText ts) ts := by
  have hbody : ∀ t ∈ ts, StringBody RfcPlain t.name t.name ∧ StringBody RfcPlain t.dtype t.dtype :=
    fun t ht => ⟨stringBody_ascii t.name_unescaped fun c hc =>
        hascii t ht c (List.mem_append_left _ hc),
      stringBody_ascii t.dtype_unescaped fun c hc => hascii t ht c (List.mem_append_right _ hc)⟩
  have htensors : membersRfc (ts.map fun t => (t.name, .obj t.fields)) := by
    clear hnames hascii hlen
    induction ts with
    | nil =>
      rw [List.map_nil, membersRfc]
      trivial
    | cons t ts ih =>
      obtain ⟨hname, hdtype⟩ := hbody t List.mem_cons_self
      rw [List.map_cons, membersRfc]
      exact ⟨⟨_, hname⟩, Listed.fields_rfc hdtype,
        ih fun u hu => hbody u (List.mem_cons_of_mem t hu)⟩
  have hrfc : (Node.obj (headerMembers ts)).Rfc := by
    rw [Node.Rfc, headerMembers, membersRfc, Node.Rfc, membersRfc, membersRfc, Node.Rfc]
    exact ⟨stringBody_key _ (by decide +kernel), ⟨stringBody_key _ (by decide +kernel),
      stringBody_key _ (by decide +kernel), trivial⟩, htensors⟩
  obtain ⟨j, hj⟩ := Node.lexes _ hrfc
  refine ⟨hlen, headerMembers ts, bytes "\n", _, bytes "   ", j,
    .metadata _ (lists_tensors ts), ?_, rfl, ?_, ?_, hj⟩
  · rw [headerMembers, List.map_cons, List.map_map, List.nodup_cons]
    refine ⟨fun hmem => ?_, hnames⟩
    obtain ⟨t, -, ht⟩ := List.mem_map.mp hmem
    exact t.name_ne ht
  · exact List.all_eq_true.mp (show (bytes "\n").all _ = true by decide)
  · exact List.all_eq_true.mp (show (bytes "   ").all _ = true by decide)

/-- A tensor of another type, of three dimensions. -/
def twoHalves : Listed where
  name := bytes "v"
  dtype := bytes "BF16"
  shape := [digit 0x31 (by decide), digit 0x31 (by decide), digit 0x31 (by decide)]
  start := digit 0x34 (by decide)
  stop := digit 0x34 (by decide)
  name_unescaped := by decide
  name_ne := by decide
  dtype_unescaped := by decide
  rank_le := by decide

/-- Two tensors in one file, the first of four dimensions. -/
def paddedFolder : Folder where
  weights := [⟨bytes "v", bytes "model.safetensors", by decide⟩,
    ⟨bytes "w", bytes "model.safetensors", by decide⟩]
  file := fun _ => littleEndian 8 (headerText [oneFloat 4 (by decide), twoHalves]).length ++
    (headerText [oneFloat 4 (by decide), twoHalves] ++ [])
  listed := fun _ => [oneFloat 4 (by decide), twoHalves]
  valid := fun _ _ => ⟨headerText [oneFloat 4 (by decide), twoHalves], [], rfl,
    validHeader_text (by decide) (by decide +kernel) (by decide +kernel)⟩
  nodup := by decide
  indexed := fun w hw => by
    rcases List.mem_cons.mp hw with rfl | hw
    · exact ⟨twoHalves, by simp, rfl⟩
    · exact ⟨oneFloat 4 (by decide), by simp, by rw [List.mem_singleton.mp hw]; rfl⟩

theorem intake_padded : paddedFolder.Intake 0 [] ⟨[], none, [], 0, false⟩ := by
  have hfits : ∀ c h, (digit c h).Fits := by
    rintro c (rfl | rfl | rfl) <;> decide
  have hlisted : ∀ t ∈ paddedFolder.listed (bytes "model.safetensors"), t.Fits ∧
      (sourceType t.dtype).isSome = true ∧ t.shape.length ≤ maxDims := by
    intro t ht
    rcases List.mem_cons.mp ht with rfl | ht
    · exact ⟨⟨fun n hn => List.eq_of_mem_replicate hn ▸ hfits 0x31 _, hfits 0x30 (by decide),
        hfits 0x34 (by decide)⟩, by decide, by decide⟩
    · rw [List.mem_singleton.mp ht]
      exact ⟨⟨fun n hn => by simp [twoHalves] at hn; exact hn ▸ hfits 0x31 _,
        hfits 0x34 (by decide), hfits 0x34 (by decide)⟩, by decide, by decide⟩
  exact (intake_iff _ _ _ _).mpr ⟨fun w hw t ht => (hlisted t ht).1,
    fun w hw t ht _ => (hlisted t ht).2⟩

/-- Five dimensions have no room in a record. -/
theorem intake_rank_five :
    ¬ (oneFloatFolder 5 (by decide)).Intake 0 [] ⟨[], none, [], 0, false⟩ := by
  intro h
  have hok := h.bounds.2 ⟨bytes "w", bytes "model.safetensors", by decide⟩
    List.mem_cons_self _ (List.mem_singleton_self _) rfl
  exact absurd hok.2 (by decide)

end Sf37.Quantize

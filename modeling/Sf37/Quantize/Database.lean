/-
Sf37.Quantize.Database — the tensor types of the quantizer and the safetensors database it
reads.

A hash map is the list of its entries: `hmap_get` probes from where `hmap_build` began and
so comes to the first entry with the key. Shapes have no negative dimensions. A shard that
can not be loaded ends the program.

* `StInfo.Stored`: BF16, F16 or F32 data of the right size, rank 1 to 4 and no empty
  dimension.
* `StInfo.Stored.nbytes`: its offsets say what its shape says.
-/
import Sf37.Text.CString
import Mathlib.Algebra.BigOperators.Group.List.Basic

namespace Sf37.Quantize

open Sf37.Text

/-! ## Tensor types -/

/-- The types of `ds4q_type` that the quantizer names. -/
inductive DsType where
  | f32
  | f16
  | q80
  | q2K
  | q3K
  | q4K
  | iq2Xxs
  | bf16
  deriving DecidableEq

/-- The number of the type, as in GGUF files. -/
def DsType.id : DsType → Nat
  | .f32 => 0
  | .f16 => 1
  | .q80 => 8
  | .q2K => 10
  | .q3K => 11
  | .q4K => 12
  | .iq2Xxs => 16
  | .bf16 => 30

def qkK : Nat := 256

/-- `ds4q_traits`. -/
structure Traits where
  blockSize : Nat
  typeSize : Nat
  canQuantize : Bool

/-- `ds4q_type_traits`. -/
def typeTraits : DsType → Traits
  | .f32 => ⟨1, 4, false⟩
  | .f16 => ⟨1, 2, false⟩
  | .q80 => ⟨32, 34, true⟩
  | .q2K => ⟨qkK, 84, true⟩
  | .q3K => ⟨qkK, 110, true⟩
  | .q4K => ⟨qkK, 144, true⟩
  | .iq2Xxs => ⟨qkK, 66, true⟩
  | .bf16 => ⟨1, 2, false⟩

/-- `ds4q_block_size`. -/
def blockSize (type : DsType) : Nat := (typeTraits type).blockSize

/-- `ds4q_row_size`. -/
def rowSize (type : DsType) (ne : Nat) : Nat :=
  if ne % blockSize type ≠ 0 then 0
  else (typeTraits type).typeSize * (ne / blockSize type) % 2 ^ 64

/-- `sf37_source_type`; any other dtype is an error exit. -/
def sourceType (dtype : Bytes) : Option DsType :=
  if dtype = bytes "BF16" then some .bf16
  else if dtype = bytes "F32" then some .f32
  else if dtype = bytes "F16" then some .f16
  else none

/-! ## The database -/

/-- `st_info`: `start` and `stop` are `begin` and `end`, as `uint64_t`. -/
structure StInfo where
  dtype : Bytes
  shape : List Nat
  start : Nat
  stop : Nat
  stop_lt : stop < 2 ^ 64

/-- `tensor_entry`. -/
structure TensorEntry where
  name : Bytes
  info : StInfo

/-- A shard that is loaded: where its data begin, its tensors and the bytes of its file. -/
structure Shard where
  dataBase : Nat
  tensors : List TensorEntry
  file : Bytes

/-- `weight_map_entry`, of C strings. -/
structure WeightMapEntry where
  name : Bytes
  file : Bytes
  name_nulFree : NulFree name

/-- `st_db`; `shard` is what `shard_load` makes of a file's name. -/
structure StDb where
  weights : List WeightMapEntry
  shard : Bytes → Option Shard

/-- `hmap_get` of the map that `hmap_build` makes of the keys of some entries, with the
entry it then stands for. -/
def hmapGet {α : Type} (key : α → Bytes) (entries : List α) (name : Bytes) : Option α :=
  entries.find? fun e => key e == name

/-- `db_tensor`. -/
def dbTensor (db : StDb) (name : Bytes) : Option (TensorEntry × Shard) := do
  let w ← hmapGet WeightMapEntry.name db.weights name
  let s ← db.shard w.file
  let te ← hmapGet TensorEntry.name s.tensors name
  some (te, s)

/-- `st_value`; `nbytes` is the length of the data. -/
structure StValue where
  dtype : Bytes
  shape : List Nat
  data : Bytes

/-- `end - begin`, as a `size_t`. -/
def StInfo.nbytes (info : StInfo) : Nat := (info.stop + 2 ^ 64 - info.start) % 2 ^ 64

/-- `s->data_base + te->info.begin`. -/
def Shard.place (s : Shard) (info : StInfo) : Nat := (s.dataBase + info.start) % 2 ^ 64

/-- `db_read`; `fseeko` takes no place that is negative as an `off_t`. -/
def dbRead (db : StDb) (name : Bytes) : Option StValue := do
  let (te, s) ← dbTensor db name
  let data := (s.file.drop (s.place te.info)).take te.info.nbytes
  if 2 ^ 63 ≤ s.place te.info ∨ data.length ≠ te.info.nbytes then none
  else some ⟨te.info.dtype, te.info.shape, data⟩

/-! ## Tensors with data of the right size -/

/-- The tensor has data of a source type, as many as its shape says, and one to four
dimensions that are not empty. -/
structure StInfo.Stored (info : StInfo) (src : DsType) : Prop where
  source : sourceType info.dtype = some src
  size : info.stop = info.start + info.shape.prod * (typeTraits src).typeSize
  rank_pos : 0 < info.shape.length
  rank_le : info.shape.length ≤ 4
  pos : ∀ d ∈ info.shape, 0 < d

theorem sourceType_eq_some {dtype : Bytes} {src : DsType} (h : sourceType dtype = some src) :
    src = .bf16 ∨ src = .f32 ∨ src = .f16 := by
  unfold sourceType at h
  split_ifs at h <;> simp_all

/-- The data of the right size. -/
theorem StInfo.Stored.nbytes {info : StInfo} {src : DsType} (h : info.Stored src) :
    info.nbytes = info.shape.prod * (typeTraits src).typeSize := by
  have hsize := h.size
  have hlt := info.stop_lt
  rw [StInfo.nbytes, show info.stop + 2 ^ 64 - info.start =
    info.shape.prod * (typeTraits src).typeSize + 2 ^ 64 by omega, Nat.add_mod_right]
  exact Nat.mod_eq_of_lt (by omega)

end Sf37.Quantize

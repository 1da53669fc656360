/-
Sf37.Gguf.Open — `gguf_open`: the header, the metadata pairs and the tensor infos of a
mapped file, and where the tensors' data stand.

`malloc` and `calloc` give what they are asked for. The walks end on every file: each loop
is a recursion on its count, and `skip_value` one on the levels that arrays may nest.
-/
import Sf37.Gguf.TensorSize

namespace Sf37.Gguf

open Sf37.Text Sf37.Run

/-! ## The records -/

/-- `sf37_kv`. -/
structure Kv where
  key : Bytes
  type : Nat
  valuePos : Nat
  deriving DecidableEq

/-- `sf37_tensor`; of `dim` the first `ndim` entries. -/
structure Tensor where
  name : Bytes
  ndim : Nat
  dim : List Nat
  type : Nat
  relOffset : Nat
  absOffset : Nat
  nbytes : Nat
  deriving DecidableEq

/-- `sf37_gguf`. -/
structure GgufFile where
  size : Nat
  version : Nat
  nKv : Nat
  nTensors : Nat
  alignment : Nat
  dataOffset : Nat
  kv : List Kv
  tensors : List Tensor
  deriving DecidableEq

def ggufMagic : Bytes := bytes "GGUF"
def ggufVersion : Nat := 3

/-! ## The walks of `gguf_open` -/

/-- The magic number at the front. -/
def ggufStart : Walk Unit := do
  cursorNeed 4
  let magic ← load 4
  if magic ≠ ggufMagic then Reader.stop (.failed (bytes "model is not a GGUF file"))
  else advance 4

/-- `cursor_u32(&tmp, &alignment) && alignment`, with a cursor of its own. -/
def peekAlignment (alignment : Nat) : Walk Nat := fun file pos =>
  match cursorU32 file pos with
  | .ok (v, _) => .ok (if v ≠ 0 then v else alignment, pos)
  | .error (.failed _) => .ok (alignment, pos)
  | .error e => .error e

def alignmentKey : Bytes := bytes "general.alignment"

/-- The alignment when a pair has come. -/
def kvAlignment (key : Bytes) (type alignment : Nat) : Walk Nat :=
  if cstr key = alignmentKey ∧ type = ggufValueUint32 then peekAlignment alignment
  else pure alignment

/-- A turn of the loop over the metadata, with `g->alignment`. -/
def ggufKv (alignment : Nat) : Walk (Kv × Nat) := do
  let key ← cursorString
  let type ← cursorU32
  let valuePos ← position
  let alignment ← kvAlignment key.text type alignment
  skipValue 3 type
  pure (⟨key.text, type, valuePos⟩, alignment)

/-- What `%.*s` prints of a string whose length was made an `int`: with a negative
precision all up to a NUL. -/
def printed (s : Str) : Walk Bytes := fun file pos =>
  let precision := s.text.length % 2 ^ 32
  if precision < 2 ^ 31 then .ok (cstr (s.text.take precision), pos)
  else if 0 ∈ file.drop s.ptr then .ok (cstr (file.drop s.ptr), pos)
  else .error .outside

/-- A turn of the loop over the tensor infos. -/
def ggufTensor (_ : Unit) : Walk (Tensor × Unit) := do
  let name ← cursorString
  let ndim ← cursorU32
  if ndim = 0 ∨ maxDims < ndim then do
    let shown ← printed name
    Reader.stop (.failed (bytes "tensor " ++ shown ++ bytes " has unsupported ndim " ++
      decimal ndim))
  else do
    let (dim, _) ← Reader.turns (fun _ => do
      let d ← cursorU64
      pure (d, ())) ndim ()
    let type ← cursorU32
    let relOffset ← cursorU64
    let nbytes ← tensorNbytes type dim ndim
    if nbytes = 0 then
      Reader.stop (.failed (bytes "tensor " ++ cstr name.text ++
        bytes " has unsupported type/layout " ++ decimal type))
    else pure (⟨name.text, ndim, dim, type, relOffset, 0, nbytes⟩, ())

/-- `gguf_open` up to the end of the tensor infos, where `c.pos` then is. -/
def ggufWalk (size : Nat) : Walk GgufFile := do
  ggufStart
  let version ← cursorU32
  let nTensors ← cursorU64
  let nKv ← cursorU64
  if version ≠ ggufVersion then
    Reader.stop (.failed (bytes "unsupported GGUF version " ++ decimal version))
  else do
    let (kv, alignment) ← Reader.turns ggufKv nKv 32
    let (tensors, _) ← Reader.turns ggufTensor nTensors ()
    pure ⟨size, version, nKv, nTensors, alignment, 0, kv, tensors⟩

/-! ## Where the data stand -/

/-- `align_u64`. -/
def alignU64 (x n : Nat) : Nat :=
  if n = 0 then x
  else if x % n ≠ 0 then (x + (n - x % n)) % 2 ^ 64 else x

/-- `t->abs_offset`. -/
def absOffset (dataOffset : Nat) (t : Tensor) : Nat := (dataOffset + t.relOffset) % 2 ^ 64

/-- The last loop of `gguf_open`. -/
def placeTensors (size dataOffset : Nat) : List Tensor → Except Stop (List Tensor)
  | [] => .ok []
  | t :: ts =>
    if size < absOffset dataOffset t ∨ size - absOffset dataOffset t < t.nbytes then
      .error (.failed (bytes "tensor " ++ cstr t.name ++ bytes " points outside GGUF file"))
    else
      match placeTensors size dataOffset ts with
      | .ok ts => .ok ({ t with absOffset := absOffset dataOffset t } :: ts)
      | .error e => .error e

/-- `gguf_open` after the walk. -/
def ggufPlace (g : GgufFile) (pos : Nat) : Except Stop GgufFile :=
  let dataOffset := alignU64 pos g.alignment
  match placeTensors g.size dataOffset g.tensors with
  | .ok tensors => .ok { g with dataOffset, tensors }
  | .error e => .error e

/-- `gguf_open` on a file, with `err` of any size. -/
def ggufOpenText (file : File) : Except Stop GgufFile :=
  if file.data.length < 32 then .error (.failed (bytes "model file is too small to be GGUF"))
  else
    match ggufWalk file.data.length file.data 0 with
    | .ok (g, pos) => ggufPlace g pos
    | .error e => .error e

/-- `gguf_open`, with `err` of `errlen` bytes. -/
def ggufOpen (errlen : Nat) (file : File) : Except Stop GgufFile :=
  match ggufOpenText file with
  | .error (.failed error) => .error (.failed (error.take (errlen - 1)))
  | out => out

end Sf37.Gguf

/-
Sf37.Quantize.AsymBlock — the asymmetric Q3 and Q2 blocks of the routed experts: what the
quantizer's writers put into a block, and what the engine reads out of it.

A block holds 256 values in four groups of 64: a scale, a zero point and 64 codes for each.
Arithmetic is exact; the scale of a group is kept as 16 bits, by a conversion that the reader
may take for anything.

* `asymGroup`: how a group is quantized without an importance vector.
* `writeBlock`: the bytes of a block; `quantizeChunk`: the blocks of some rows.
* `blockDecode`, `asymMatvec`: the engine's readers.
-/
import Sf37.Run.Nearest
import Sf37.Run.BitPacking
import Mathlib.Algebra.BigOperators.Intervals

namespace Sf37.Quantize

open Sf37.Run

/-! ## The groups -/

/-- The loop of a group's writer for `lo`. -/
def groupLo (gx : ℕ → ℚ) : ℚ :=
  (List.range' 1 63).foldl (fun lo i => if gx i < lo then gx i else lo) (gx 0)

/-- The loop of a group's writer for `hi`. -/
def groupHi (gx : ℕ → ℚ) : ℚ :=
  (List.range' 1 63).foldl (fun hi i => if hi < gx i then gx i else hi) (gx 0)

/-- What a writer works out for a group. -/
structure AsymGroup where
  scale : ℚ
  zp : ℤ
  q : ℕ → ℤ

/-- The scale and the zero point of a group whose codes go up to `qmax`. -/
def groupScale (R : Nearest) (qmax : ℤ) (gx : ℕ → ℚ) : ℚ × ℤ :=
  let lo := groupLo gx
  let hi := groupHi gx
  if hi ≠ lo then
    let scale := (hi - lo) / qmax
    (scale, clamped qmax (R.round (-lo / scale)))
  else if hi ≠ 0 then (|hi| / qmax, if 0 < hi then 0 else qmax)
  else (1, 0)

/-- `inv`. -/
def inverse (scale : ℚ) : ℚ := if scale ≠ 0 then 1 / scale else 0

/-- The loop body of `ds4q_write_q3_k_block_asym_g64` and `ds4q_write_q2_k_block_asym_g64`
without its stores, in exact arithmetic and with the scale as it is. -/
def asymGroup (R : Nearest) (qmax : ℤ) (gx : ℕ → ℚ) : AsymGroup where
  scale := (groupScale R qmax gx).1
  zp := (groupScale R qmax gx).2
  q i := clamped qmax
    (R.round (gx i * inverse (groupScale R qmax gx).1 + (groupScale R qmax gx).2))

/-- The arguments of `ds4q_nearest_int` for a group. -/
def nearestIntArgs (R : Nearest) (qmax : ℤ) (gx : ℕ → ℚ) : List ℚ :=
  (if groupHi gx ≠ groupLo gx then [-groupLo gx / ((groupHi gx - groupLo gx) / qmax)] else []) ++
    (List.range 64).map fun i =>
      gx i * inverse (groupScale R qmax gx).1 + (groupScale R qmax gx).2

/-- The two kinds of blocks. -/
inductive AsymType where
  | q3K
  | q2K
  deriving DecidableEq, Repr

namespace AsymType

/-- The greatest code. -/
def qmax : AsymType → ℕ
  | q3K => 7
  | q2K => 3

/-- `type_size`, the same as `SF37_Q3_BLOCK_SIZE` and `SF37_Q2_BLOCK_SIZE`. -/
def blockSize : AsymType → ℕ
  | q3K => 110
  | q2K => 84

/-- `payload`: the bytes for the codes of a group. -/
def payload : AsymType → ℕ
  | q3K => 24
  | q2K => 16

end AsymType

/-! ## The writers -/

/-- The codes of a block, for its four groups: what the writers put into it. -/
structure AsymCodes (t : AsymType) where
  hscale : ℕ → UInt16
  zp : ℕ → Fin (t.qmax + 1)
  q : ℕ → ℕ → Fin (t.qmax + 1)

/-- The stores of the Q3 writers for the code `q` at `i`. -/
def q3Stores (qout i : ℕ) (q : UInt8) : List (ℕ × UInt8) :=
  let bit := 3 * i
  let byte := bit / 8
  let shift := bit % 8
  (qout + byte, q <<< UInt8.ofNat shift) ::
    if 5 < shift then [(qout + byte + 1, q >>> UInt8.ofNat (8 - shift))] else []

/-- The store of the Q2 writers for the code `q` at `i`. -/
def q2Stores (qout i : ℕ) (q : UInt8) : List (ℕ × UInt8) :=
  [(qout + i / 4, q <<< UInt8.ofNat (i % 4 * 2))]

def AsymType.stores : AsymType → ℕ → ℕ → UInt8 → List (ℕ × UInt8)
  | .q3K => q3Stores
  | .q2K => q2Stores

/-- `memcpy` of a scale, the low byte first. -/
def writeU16 (y : Mem) (a : ℕ) (v : UInt16) : Mem :=
  Function.update (Function.update y a v.toUInt8) (a + 1) (v >>> 8).toUInt8

/-- The loop over the codes of a group. -/
def storeCodes (t : AsymType) (y : Mem) (qout : ℕ) (q : ℕ → UInt8) : Mem :=
  (List.range 64).foldl (fun y i => orBytes y (t.stores qout i (q i))) y

/-- The stores of a writer for the group `g` of the block at `block`. -/
def storeGroup (t : AsymType) (c : AsymCodes t) (block : ℕ) (y : Mem) (g : ℕ) : Mem :=
  let y := writeU16 y (block + g * 2) (c.hscale g)
  let y := Function.update y (block + 8 + g) (UInt8.ofNat (c.zp g))
  storeCodes t y (block + 12 + g * t.payload) fun i => UInt8.ofNat (c.q g i)

/-- The stores of `ds4q_write_q3_k_block_asym_g64` and `ds4q_write_q2_k_block_asym_g64`, with
the `memset` before them. -/
def writeBlock (t : AsymType) (c : AsymCodes t) (block : ℕ) (y : Mem) : Mem :=
  (List.range 4).foldl (storeGroup t c block) (overwrite block t.blockSize (fun _ => 0) y)

/-- A number in `0..top`, as a code. -/
def toCode (top : ℕ) (n : ℤ) : Fin (top + 1) := Fin.ofNat (top + 1) (clamped top n).toNat

/-- The codes that the writers without an importance vector work out; `toF16` is
`ds4q_f32_to_f16`. -/
def codesOf (R : Nearest) (toF16 : ℚ → UInt16) (t : AsymType) (x : ℕ → ℚ) : AsymCodes t where
  hscale g := toF16 (asymGroup R t.qmax fun i => x (g * 64 + i)).scale
  zp g := toCode t.qmax (asymGroup R t.qmax fun i => x (g * 64 + i)).zp
  q g i := toCode t.qmax ((asymGroup R t.qmax fun i => x (g * 64 + i)).q i)

/-- `ds4q_write_q3_k_block_asym_g64`. -/
def writeQ3KBlockAsymG64 (R : Nearest) (toF16 : ℚ → UInt16) (x : ℕ → ℚ) : ℕ → Mem → Mem :=
  writeBlock .q3K (codesOf R toF16 .q3K x)

/-- `ds4q_write_q2_k_block_asym_g64`. -/
def writeQ2KBlockAsymG64 (R : Nearest) (toF16 : ℚ → UInt16) (x : ℕ → ℚ) : ℕ → Mem → Mem :=
  writeBlock .q2K (codesOf R toF16 .q2K x)

/-- `memcpy` of `len` bytes from `tmp`. -/
def copyBytes (y tmp : Mem) (dst src len : ℕ) : Mem := overwrite dst len (fun k => tmp (src + k)) y

/-- One turn of the weighted writers. `picked g` says whether `ds4q_pick_weighted_asym_group`
found the codes that `c` has for the group; where it did not, the group is copied from a block
that `plain` wrote. -/
def weightedTurn (t : AsymType) (picked : ℕ → Bool) (c plain : AsymCodes t) (block : ℕ) (y : Mem)
    (g : ℕ) : Mem :=
  if picked g then storeGroup t c block y g
  else
    let tmp := writeBlock t plain 0 fun _ => 0
    let y := copyBytes y tmp (block + g * 2) (g * 2) 2
    let y := Function.update y (block + 8 + g) (tmp (8 + g))
    copyBytes y tmp (block + 12 + g * t.payload) (12 + g * t.payload) t.payload

/-- `ds4q_write_q3_k_block_asym_g64_weighted` and `ds4q_write_q2_k_block_asym_g64_weighted`. -/
def writeBlockWeighted (t : AsymType) (picked : ℕ → Bool) (c plain : AsymCodes t) (block : ℕ)
    (y : Mem) : Mem :=
  (List.range 4).foldl (weightedTurn t picked c plain block)
    (overwrite block t.blockSize (fun _ => 0) y)

/-- `ds4q_row_size` of rows of `ncols` values. -/
def AsymType.rowSize (t : AsymType) (ncols : ℕ) : ℕ := ncols / 256 * t.blockSize

/-- `ds4q_quantize_q3_k` and `ds4q_quantize_q2_k_asym`; `write off` is the writer of the block
whose values stand at `off` in the source. -/
def quantizeChunk (t : AsymType) (write : ℕ → ℕ → Mem → Mem) (dst start nrows ncols : ℕ)
    (y : Mem) : Mem :=
  let startRow := start / ncols
  let out := dst + startRow * t.rowSize ncols
  (List.range nrows).foldl (fun y row =>
    (List.range (ncols / 256)).foldl (fun y b =>
      write (start + row * ncols + b * 256)
        (out + row * t.rowSize ncols + b * t.blockSize) y) y) y

/-- The experts of a tensor, one call for each. -/
def quantizeExperts (t : AsymType) (write : ℕ → ℕ → Mem → Mem) (dst experts rows ncols : ℕ)
    (y : Mem) : Mem :=
  (List.range experts).foldl (fun y e =>
    quantizeChunk t write dst (e * rows * ncols) rows ncols y) y

/-! ## The readers -/

/-- `read_u16le`. -/
def readU16le (y : Mem) (a : ℕ) : UInt16 := (y a).toUInt16 ||| (y (a + 1)).toUInt16 <<< 8

/-- `q3_get`. -/
def q3Get (y : Mem) (p i : ℕ) : ℕ :=
  let bit := i * 3
  let byte := bit / 8
  let shift := bit % 8
  let v := (y (p + byte)).toNat >>> shift
  let v := if 5 < shift then v ||| (y (p + byte + 1)).toNat <<< (8 - shift) else v
  v &&& 7

/-- The code that the Q2 readers take. -/
def q2Get (y : Mem) (p i : ℕ) : ℕ := ((y (p + i / 4)).toNat >>> (i % 4 * 2)) &&& 3

def AsymType.get : AsymType → Mem → ℕ → ℕ → ℕ
  | .q3K => q3Get
  | .q2K => q2Get

/-- The zero point of the group `g`. -/
def readZp (t : AsymType) (y : Mem) (block g : ℕ) : ℕ := (y (block + 8 + g)).toNat &&& t.qmax

/-- One value of a block, decoded; `toF32` is `sf37_f16_to_f32`. -/
def readValue (t : AsymType) (toF32 : UInt16 → ℚ) (y : Mem) (block g i : ℕ) : ℚ :=
  ((t.get y (block + 12 + g * t.payload) i : ℚ) - readZp t y block g) *
    toF32 (readU16le y (block + g * 2))

/-- `sf37_q3_asym_block_decode` and `sf37_q2_asym_block_decode`: the value at `k`. -/
def blockDecode (t : AsymType) (toF32 : UInt16 → ℚ) (y : Mem) (block k : ℕ) : ℚ :=
  readValue t toF32 y block (k / 64) (k % 64)

/-- `sf37_q3_asym_block_dot` and `sf37_q2_asym_block_dot`. -/
def blockDot (t : AsymType) (toF32 : UInt16 → ℚ) (y : Mem) (block : ℕ) (x : ℕ → ℚ) : ℚ :=
  (List.range 4).foldl (fun sum g =>
    (List.range 64).foldl (fun sum i =>
      sum + readValue t toF32 y block g i * x (g * 64 + i)) sum) 0

/-- `sf37_q3_asym_matvec` and `sf37_q2_asym_matvec`: the row `r`. -/
def asymMatvec (t : AsymType) (toF32 : UInt16 → ℚ) (y : Mem) (weights inDim : ℕ) (x : ℕ → ℚ)
    (r : ℕ) : ℚ :=
  let blocks := inDim / 256
  let row := weights + r * (blocks * t.blockSize)
  (List.range blocks).foldl (fun acc b =>
    acc + blockDot t toF32 y (row + b * t.blockSize) fun k => x (b * 256 + k)) 0

/-- `expert_bytes`: where the rows of an expert are. -/
def expertBytes (t : AsymType) (data expert outDim inDim : ℕ) : ℕ :=
  data + expert * outDim * (inDim / 256 * t.blockSize)

end Sf37.Quantize

/-
Sf37.Quantize.GenerateExpert — one routed matrix of the FP4 checkpoint, from the names of its
tensors to the bytes of the output.

The values of a matrix are nibbles of a table, scaled by blocks of 32. They are made one after
the other, so the array of them is the list of what is stored. A name of an importance vector
is cut where its buffer ends.

* `generateOneExpert`: what is copied into the output for one expert.
* `generateExperts`: the output, one expert after the other.
-/
import Sf37.Quantize.ExpertRows

namespace Sf37.Quantize.Experts

open Sf37.Text Sf37.Gguf Sf37.Engine.Imatrix Sf37.Quantize.Imatrix Sf37.Quantize.Rows

/-! ## Values -/

/-- `fp4_table`. -/
def fp4Table (q : UInt8) : F32 :=
  match q.toNat with
  | 1 => 0x3f000000
  | 2 => 0x3f800000
  | 3 => 0x3fc00000
  | 4 => 0x40000000
  | 5 => 0x40400000
  | 6 => 0x40800000
  | 7 => 0x40c00000
  | 9 => 0xbf000000
  | 10 => 0xbf800000
  | 11 => 0xbfc00000
  | 12 => 0xc0000000
  | 13 => 0xc0400000
  | 14 => 0xc0800000
  | 15 => 0xc0c00000
  | _ => 0

/-- `e8m0_to_f32`. -/
def e8m0ToF32 (e : UInt8) : F32 := if e = 0 then 0x00400000 else e.toUInt32 <<< 23

/-- The two values of a byte. -/
def fp4Pair (ops : FloatOps) (s : F32) (q : UInt8) : List F32 :=
  [ops.mul (fp4Table (q &&& 0x0f)) s, ops.mul (fp4Table ((q >>> 4) &&& 0x0f)) s]

/-- `dequant_fp4_weight`. -/
def dequantFp4Weight (ops : FloatOps) (w scale : StValue) : Option (List F32) :=
  if w.dtype ≠ bytes "I8" ∨ scale.dtype ≠ bytes "F8_E8M0" then none
  else
    match w.shape, scale.shape with
    | [outDim, packedIn], [scaleRows, scaleBlocks] =>
      let inDim := packedIn * 2
      if inDim % 32 ≠ 0 then none
      else
        let nBlocks := inDim / 32
        if scaleRows ≠ outDim ∨ scaleBlocks ≠ nBlocks then none
        else
          some ((List.range outDim).flatMap fun r => (List.range nBlocks).flatMap fun b =>
            (List.range 16).flatMap fun j =>
              fp4Pair ops (e8m0ToF32 (scale.data.getD (r * nBlocks + b) 0))
                (w.data.getD ((r * nBlocks + b) * 16 + j) 0))
    | _, _ => none

/-! ## Importance vectors -/

/-- The names under which `imatrix_find` looks for the vector of an expert, as its three passes
come to them. -/
def imatrixCandidates (names : List Bytes) (expertId : ℕ) : List Bytes :=
  names.map (fun name => (name ++ bytes ".expert." ++ decimal expertId).take 4095) ++
    names.map (fun name => (name ++ bytes ".expert_" ++ decimal expertId).take 4095) ++ names

/-- `imatrix_find` for an expert. -/
def imatrixFind (im : Store) (names : List Bytes) (ncols expertId nExperts : ℕ) :
    Option (Option (ℕ → F32)) :=
  if imatrixEnabled im.sizes then
    match (imatrixCandidates names expertId).findSome? (hmapGet Entry.name im.entries) with
    | some e =>
      if e.values.length = ncols then some (some fun c => e.values.getD c 0)
      else if 0 < nExperts ∧ e.values.length = ncols * nExperts then
        some (some fun c => e.values.getD (expertId * ncols + c) 0)
      else none
    | none => if im.strict then none else some none
  else some none

/-! ## An expert -/

/-- `expert_job`, without what the workers change, and the arithmetic. -/
structure ExpertJob where
  ops : FloatOps
  Q : Quantizer
  db : StDb
  ggufName : Bytes
  target : DsType
  nExperts : ℕ
  imatrix : Store
  layer : ℤ
  wid : Bytes
  ncols : ℕ
  nrows : ℕ

namespace ExpertJob

variable (J : ExpertJob)

/-- `per_expert` -/
def perExpert : ℕ := J.nrows * rowSize J.target J.ncols

def tensorPrefix (xid : ℕ) : Bytes :=
  bytes "layers." ++ bytes (toString J.layer) ++ bytes ".ffn.experts." ++ decimal xid ++ bytes "." ++
    J.wid

def weightName (xid : ℕ) : Bytes := J.tensorPrefix xid ++ bytes ".weight"

def scaleName (xid : ℕ) : Bytes := J.tensorPrefix xid ++ bytes ".scale"

/-- `generate_one_expert`, behind its two reads and before its `memcpy`. -/
def convert (xid : ℕ) (w s : StValue) : Option Bytes :=
  if w.shape.length = 2 ∧ w.shape[0]? = some J.nrows ∧ (w.shape[1]?.map (· * 2)) = some J.ncols then do
    let f32 ← dequantFp4Weight J.ops w s
    let imat ← imatrixFind J.imatrix [J.ggufName, J.weightName xid] J.ncols xid J.nExperts
    let rows ← Rows.f32ToType J.ops J.Q (fun i => f32.getD i 0) f32.length J.target J.ncols imat
    let q := rows.flatMap Prod.snd
    if q.length = J.perExpert then some q else none
  else none

/-- `generate_one_expert`: what it copies into the output. -/
def generateOneExpert (xid : ℕ) : Option Bytes := do
  let w ← dbRead J.db (J.weightName xid)
  let s ← dbRead J.db (J.scaleName xid)
  J.convert xid w s

/-- The experts below `n`, one after the other. -/
def generateUpTo : ℕ → Option Bytes
  | 0 => some []
  | n + 1 => do
    let before ← generateUpTo n
    let bytes ← J.generateOneExpert n
    some (before ++ bytes)

/-- The output of `generate_expert`, one expert after the other. -/
def generateExperts : Option Bytes := J.generateUpTo J.nExperts

end ExpertJob

/-! ## What an expert takes of the output -/

section Output

variable {J : ExpertJob} {xid : ℕ}

theorem length_convert {w s : StValue} {q : Bytes} (h : J.convert xid w s = some q) :
    q.length = J.perExpert := by
  unfold ExpertJob.convert at h
  split at h
  · obtain ⟨f32, -, h⟩ := Option.bind_eq_some_iff.mp h
    obtain ⟨imat, -, h⟩ := Option.bind_eq_some_iff.mp h
    obtain ⟨rows, -, h⟩ := Option.bind_eq_some_iff.mp h
    simp only at h
    split at h
    · rename_i hlen
      rw [← Option.some.inj h]
      exact hlen
    · cases h
  · cases h

/-- Every expert fills its own part of the output. -/
theorem length_generateOneExpert {q : Bytes} (h : J.generateOneExpert xid = some q) :
    q.length = J.perExpert := by
  obtain ⟨w, -, h⟩ := Option.bind_eq_some_iff.mp h
  obtain ⟨s, -, h⟩ := Option.bind_eq_some_iff.mp h
  exact length_convert h

theorem length_generateUpTo {n : ℕ} {out : Bytes} (h : J.generateUpTo n = some out) :
    out.length = n * J.perExpert := by
  induction n generalizing out with
  | zero =>
    cases h
    exact (Nat.zero_mul _).symm
  | succ n ih =>
    obtain ⟨before, hbefore, h⟩ := Option.bind_eq_some_iff.mp h
    obtain ⟨q, hq, h⟩ := Option.bind_eq_some_iff.mp h
    rw [← Option.some.inj h, List.length_append, ih hbefore, length_generateOneExpert hq,
      Nat.succ_mul]

/-- The output is there when every expert is. -/
theorem generateUpTo_some {n : ℕ} (h : ∀ x < n, ∃ q, J.generateOneExpert x = some q) :
    ∃ out, J.generateUpTo n = some out := by
  induction n with
  | zero => exact ⟨[], rfl⟩
  | succ n ih =>
    obtain ⟨before, hbefore⟩ := ih fun x hx => h x (Nat.lt_succ_of_lt hx)
    obtain ⟨q, hq⟩ := h n (Nat.lt_succ_self n)
    exact ⟨before ++ q, by rw [ExpertJob.generateUpTo, hbefore, hq]; rfl⟩

theorem generateUpTo_none {n x : ℕ} (hx : x < n) (h : J.generateOneExpert x = none) :
    J.generateUpTo n = none := by
  induction n with
  | zero => exact absurd hx (Nat.not_lt_zero x)
  | succ n ih =>
    rw [ExpertJob.generateUpTo]
    rcases Nat.lt_succ_iff_lt_or_eq.mp hx with hlt | rfl
    · rw [ih hlt]
      rfl
    · rw [h]
      cases J.generateUpTo x <;> rfl

/-- Where the byte of an expert stands. -/
theorem generateUpTo_byte {n : ℕ} {out : Bytes} (h : J.generateUpTo n = some out) {x : ℕ}
    (hx : x < n) {q : Bytes} (hq : J.generateOneExpert x = some q) {k : ℕ} (hk : k < q.length) :
    out[x * J.perExpert + k]? = q[k]? := by
  induction n generalizing out with
  | zero => exact absurd hx (Nat.not_lt_zero x)
  | succ n ih =>
    obtain ⟨before, hbefore, h⟩ := Option.bind_eq_some_iff.mp h
    obtain ⟨r, hr, h⟩ := Option.bind_eq_some_iff.mp h
    rw [← Option.some.inj h]
    have hlen := length_generateUpTo hbefore
    rcases Nat.lt_succ_iff_lt_or_eq.mp hx with hlt | rfl
    · have hinside : x * J.perExpert + k < before.length := by
        rw [hlen]
        rw [length_generateOneExpert hq] at hk
        calc x * J.perExpert + k < (x + 1) * J.perExpert := by rw [Nat.succ_mul]; omega
          _ ≤ n * J.perExpert := Nat.mul_le_mul_right _ hlt
      rw [List.getElem?_append_left hinside]
      exact ih hbefore hlt
    · rw [hq] at hr
      cases hr
      rw [List.getElem?_append_right (by omega), hlen, Nat.add_sub_cancel_left]

end Output

end Sf37.Quantize.Experts

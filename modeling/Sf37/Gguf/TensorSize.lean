/-
Sf37.Gguf.TensorSize — the tensor types the engine knows and `tensor_nbytes`.

* `Sized`: the tensors that have a size.
* `nbytesIs_iff`: the results of `tensor_nbytes` that are not zero are the exact sizes of
  these.
-/
import Sf37.Gguf.Cursor
import Mathlib.Algebra.BigOperators.Ring.List
import Mathlib.Algebra.BigOperators.Group.List.Lemmas
import Mathlib.Algebra.Order.Ring.Nat
import Mathlib.Algebra.Order.BigOperators.GroupWithZero.List

namespace Sf37.Gguf

open Sf37.Text Sf37.Run

/-! ## Tensor types -/

def maxDims : Nat := 8
def qk8 : Nat := 32
def qkK : Nat := 256

def tensorF32 : Nat := 0
def tensorF16 : Nat := 1
def tensorQ80 : Nat := 8
def tensorQ2K : Nat := 10
def tensorQ3K : Nat := 11
def tensorBf16 : Nat := 30

/-- `sf37_type_info`: so many elements make a block of so many bytes. -/
structure TypeInfo where
  block : Nat
  bytes : Nat
  deriving DecidableEq

/-- `sf37_type_table`, where it has a name (`type_supported`). -/
def typeTable (type : Nat) : Option TypeInfo :=
  if type = tensorF32 then some ⟨1, 4⟩
  else if type = tensorF16 then some ⟨1, 2⟩
  else if type = tensorQ80 then some ⟨qk8, 34⟩
  else if type = tensorQ2K then some ⟨qkK, 84⟩
  else if type = tensorQ3K then some ⟨qkK, 110⟩
  else if type = tensorBf16 then some ⟨1, 2⟩
  else none

/-- The product `tensor_nbytes` makes of the dimensions. -/
def tensorElems : Nat → List Nat → Walk Nat
  | elems, [] => pure elems
  | elems, d :: dim => do
    let elems ← checkedMul elems d (bytes "tensor elements")
    tensorElems elems dim

/-- `tensor_nbytes`. -/
def tensorNbytes (type : Nat) (dim : List Nat) (ndim : Nat) : Walk Nat :=
  match typeTable type with
  | none => pure 0
  | some ti =>
    if ndim = 0 ∨ maxDims < ndim then pure 0
    else do
      let elems ← tensorElems 1 (dim.take ndim)
      if ti.block = 1 then checkedMul elems ti.bytes (bytes "tensor bytes")
      else if dim.headD 0 % ti.block ≠ 0 ∨ elems % ti.block ≠ 0 then pure 0
      else checkedMul (elems / ti.block) ti.bytes (bytes "quant tensor bytes")

/-! ## The size of a tensor -/

/-- The bytes of a tensor of a known type, in whole blocks. -/
def tensorBytes (type : Nat) (dim : List Nat) : Nat :=
  match typeTable type with
  | none => 0
  | some ti => dim.prod / ti.block * ti.bytes

/-- The tensors that have a size: no dimension is zero, rows are whole blocks, and the
numbers of elements and of bytes fit. -/
structure Sized (type : Nat) (dim : List Nat) (ti : TypeInfo) : Prop where
  known : typeTable type = some ti
  ndim_pos : 0 < dim.length
  ndim_le : dim.length ≤ maxDims
  pos : ∀ d ∈ dim, 0 < d
  rows : ti.block ∣ dim.headD 0
  elems : dim.prod < 2 ^ 64
  bytes : dim.prod / ti.block * ti.bytes < 2 ^ 64

theorem typeTable_pos {type : Nat} {ti : TypeInfo} (h : typeTable type = some ti) :
    0 < ti.block ∧ 0 < ti.bytes := by
  unfold typeTable at h
  split_ifs at h <;> cases h <;> decide

theorem stops_tensorElems (elems : Nat) (dim : List Nat) :
    Stops Mapped Stop.outside (tensorElems elems dim) Nowhere := by
  induction dim generalizing elems with
  | nil => exact stops_pure _ _
  | cons d dim ih =>
    exact (stops_checkedMul elems d _).bind_nowhere (reads_checkedMul elems d _) fun e => ih e

/-- The products of `tensor_nbytes` fit one after the other. -/
def ProductsFit : Nat → List Nat → Prop
  | _, [] => True
  | e, d :: dim => e * d < 2 ^ 64 ∧ ProductsFit (e * d) dim

theorem reads_tensorElems (elems : Nat) (dim : List Nat) :
    Reads Mapped (tensorElems elems dim) fun _ v p =>
      p = [] ∧ ProductsFit elems dim ∧ v = elems * dim.prod := by
  induction dim generalizing elems with
  | nil =>
    refine (reads_pure elems).congr fun _ v p => ?_
    simp only [ProductsFit, List.prod_nil, Nat.mul_one, true_and]
    exact and_comm
  | cons d dim ih =>
    refine ((reads_checkedMul elems d _).bind fun e => ih e).congr fun _ v p => ⟨?_, ?_⟩
    · rintro ⟨e, q, r, ⟨rfl, hfits, rfl⟩, ⟨rfl, hrest, rfl⟩, rfl⟩
      exact ⟨rfl, ⟨hfits, hrest⟩, by rw [List.prod_cons, Nat.mul_assoc]⟩
    · rintro ⟨rfl, ⟨hfits, hrest⟩, rfl⟩
      exact ⟨_, [], [], ⟨rfl, hfits, rfl⟩, ⟨rfl, hrest, by rw [List.prod_cons, Nat.mul_assoc]⟩, rfl⟩

/-- Without zero dimensions it is enough that the last product fits. -/
theorem productsFit_iff {e : Nat} {dim : List Nat} (he : 0 < e) (hdim : ∀ d ∈ dim, 0 < d) :
    ProductsFit e dim ↔ dim = [] ∨ e * dim.prod < 2 ^ 64 := by
  induction dim generalizing e with
  | nil => simp [ProductsFit]
  | cons d dim ih =>
    obtain ⟨hd, hrest⟩ := List.forall_mem_cons.mp hdim
    have hprod : 0 < dim.prod := List.prod_pos hrest
    have hle : e * d ≤ e * d * dim.prod := Nat.le_mul_of_pos_right _ hprod
    rw [ProductsFit, ih (Nat.mul_pos he hd) hrest, List.prod_cons, ← Nat.mul_assoc]
    constructor
    · rintro ⟨hfits, rfl | h⟩
      · exact .inr (by simpa using hfits)
      · exact .inr h
    · rintro (h | h)
      · cases h
      · exact ⟨Nat.lt_of_le_of_lt hle h, .inr h⟩

/-- What `tensor_nbytes` returns. -/
def NbytesIs (type : Nat) (dim : List Nat) (v : Nat) : Prop :=
  match typeTable type with
  | none => v = 0
  | some ti =>
    if dim.length = 0 ∨ maxDims < dim.length then v = 0
    else ProductsFit 1 dim ∧
      if ti.block = 1 then v = dim.prod * ti.bytes ∧ dim.prod * ti.bytes < 2 ^ 64
      else if dim.headD 0 % ti.block ≠ 0 ∨ dim.prod % ti.block ≠ 0 then v = 0
      else v = dim.prod / ti.block * ti.bytes ∧ dim.prod / ti.block * ti.bytes < 2 ^ 64

theorem reads_tensorNbytes (type : Nat) (dim : List Nat) :
    Reads Mapped (tensorNbytes type dim dim.length) fun _ v p => p = [] ∧ NbytesIs type dim v := by
  unfold tensorNbytes NbytesIs
  cases typeTable type with
  | none => exact (reads_pure 0).congr fun _ _ _ => and_comm
  | some ti =>
    simp only [List.take_length]
    refine Reads.congr (Reads.ite (reads_pure 0) ((reads_tensorElems 1 dim).bind fun elems =>
      Reads.ite (reads_checkedMul elems ti.bytes _)
        (Reads.ite (reads_pure 0) (reads_checkedMul (elems / ti.block) ti.bytes _)))) ?_
    intro pos v p
    split_ifs with hndim hblock hrows
    · exact and_comm
    · constructor
      · rintro ⟨elems, q, r, ⟨rfl, hfit, rfl⟩, hr, rfl⟩
        rw [Nat.one_mul] at hr
        exact ⟨hr.2.2, hfit, hr.1, hr.2.1⟩
      · rintro ⟨rfl, hfit, hv, hbytes⟩
        exact ⟨_, [], [], ⟨rfl, hfit, rfl⟩, by rw [Nat.one_mul]; exact ⟨hv, hbytes, rfl⟩, rfl⟩
    · constructor
      · rintro ⟨elems, q, r, ⟨rfl, hfit, rfl⟩, hr, rfl⟩
        rw [Nat.one_mul, if_pos hrows] at hr
        exact ⟨hr.2, hfit, hr.1⟩
      · rintro ⟨rfl, hfit, hv⟩
        exact ⟨_, [], [], ⟨rfl, hfit, rfl⟩,
          by beta_reduce; rw [Nat.one_mul, if_pos hrows]; exact ⟨hv, rfl⟩, rfl⟩
    · constructor
      · rintro ⟨elems, q, r, ⟨rfl, hfit, rfl⟩, hr, rfl⟩
        rw [Nat.one_mul, if_neg hrows] at hr
        exact ⟨hr.2.2, hfit, hr.1, hr.2.1⟩
      · rintro ⟨rfl, hfit, hv, hbytes⟩
        exact ⟨_, [], [], ⟨rfl, hfit, rfl⟩,
          by beta_reduce; rw [Nat.one_mul, if_neg hrows]; exact ⟨hv, hbytes, rfl⟩, rfl⟩

theorem stops_tensorNbytes (type : Nat) (dim : List Nat) (ndim : Nat) :
    Stops Mapped Stop.outside (tensorNbytes type dim ndim) Nowhere := by
  unfold tensorNbytes
  cases typeTable type with
  | none => exact stops_pure _ _
  | some ti =>
    exact (stops_pure _ _).ite_nowhere ((stops_tensorElems 1 _).bind_nowhere
      (reads_tensorElems 1 _) fun elems => (stops_checkedMul elems ti.bytes _).ite_nowhere
        ((stops_pure _ _).ite_nowhere (stops_checkedMul _ ti.bytes _)))

/-- The sizes that are not zero are the exact ones. -/
theorem nbytesIs_iff {type : Nat} {dim : List Nat} {v : Nat} :
    NbytesIs type dim v ∧ v ≠ 0 ↔ (∃ ti, Sized type dim ti) ∧ v = tensorBytes type dim := by
  unfold NbytesIs tensorBytes
  cases hti : typeTable type with
  | none =>
    constructor
    · rintro ⟨rfl, h⟩
      exact absurd rfl h
    · rintro ⟨⟨ti, h⟩, -⟩
      rw [h.known] at hti
      cases hti
  | some ti =>
    obtain ⟨hblock, hbytes⟩ := typeTable_pos hti
    simp only
    constructor
    · rintro ⟨h, hv⟩
      split at h
      · exact absurd h hv
      · rename_i hndim
        obtain ⟨hfit, h⟩ := h
        have hsize : v = dim.prod / ti.block * ti.bytes ∧ ti.block ∣ dim.headD 0 ∧ v < 2 ^ 64 := by
          split at h
          · rename_i hone
            rw [hone, Nat.div_one]
            exact ⟨h.1, Nat.one_dvd _, h.1 ▸ h.2⟩
          · split at h
            · exact absurd h hv
            · rename_i hrows
              exact ⟨h.1, Nat.dvd_of_mod_eq_zero (by omega), h.1 ▸ h.2⟩
        obtain ⟨rfl, hrows, hlt⟩ := hsize
        have hprod : dim.prod ≠ 0 := by
          intro hzero
          rw [hzero, Nat.zero_div, Nat.zero_mul] at hv
          exact hv rfl
        have hpos : ∀ d ∈ dim, 0 < d := fun d hd =>
          Nat.pos_of_ne_zero fun h0 => hprod (List.prod_eq_zero (h0 ▸ hd))
        have hfits := (productsFit_iff Nat.one_pos hpos).mp hfit
        rw [Nat.one_mul] at hfits
        refine ⟨⟨ti, hti, by omega, by omega, hpos, hrows, ?_, hlt⟩, rfl⟩
        exact hfits.resolve_left fun hnil => hndim (.inl (by rw [hnil]; rfl))
    · rintro ⟨⟨ti', h⟩, rfl⟩
      obtain rfl : ti = ti' := Option.some.inj (hti.symm.trans h.known)
      have hndim : ¬ (dim.length = 0 ∨ maxDims < dim.length) := by
        have := h.ndim_pos
        have := h.ndim_le
        omega
      have hfit : ProductsFit 1 dim := (productsFit_iff Nat.one_pos h.pos).mpr
        (.inr (by rw [Nat.one_mul]; exact h.elems))
      have hhead : dim.headD 0 ∣ dim.prod := by
        match dim, h.ndim_pos with
        | d :: dim, _ => exact List.dvd_prod List.mem_cons_self
      have hprod : 0 < dim.prod := List.prod_pos h.pos
      have hdvd : ti.block ∣ dim.prod := h.rows.trans hhead
      have hquot : 0 < dim.prod / ti.block := Nat.div_pos (Nat.le_of_dvd hprod hdvd) hblock
      refine ⟨?_, Nat.ne_of_gt (Nat.mul_pos hquot hbytes)⟩
      rw [if_neg hndim]
      refine ⟨hfit, ?_⟩
      have hall := h.bytes
      split
      · rename_i hone
        rw [hone, Nat.div_one] at hall ⊢
        exact ⟨rfl, hall⟩
      · rw [if_neg]
        · exact ⟨rfl, hall⟩
        · rintro (h' | h')
          · exact h' (Nat.mod_eq_zero_of_dvd h.rows)
          · exact h' (Nat.mod_eq_zero_of_dvd hdvd)

end Sf37.Gguf

/-
Sf37.Store.Block — a stretch of memory of a fixed size.

* `Block.overwrite_of_length`: a full read replaces all of it.
* `Block.fit_val`: what has the size fits as it is.
-/
import Sf37.Text.CString

namespace Sf37.Store

open Sf37.Text

/-- Memory of `n` bytes. -/
abbrev Block (n : Nat) := { b : Bytes // b.length = n }

namespace Block

variable {n : Nat}

/-- Bytes cut or filled up to a size. -/
def fit (n : Nat) (b : Bytes) : Block n :=
  ⟨b.take n ++ List.replicate (n - b.length) 0, by
    rw [List.length_append, List.length_take, List.length_replicate]
    omega⟩

/-- Write bytes to the front of a stretch. -/
def overwrite (m : Block n) (b : Bytes) : Block n :=
  ⟨b.take n ++ m.1.drop b.length, by
    rw [List.length_append, List.length_take, List.length_drop, m.2]
    omega⟩

theorem fit_of_length {b : Bytes} (h : b.length = n) : fit n b = ⟨b, h⟩ := by
  refine Subtype.ext ?_
  show b.take n ++ List.replicate (n - b.length) 0 = b
  rw [List.take_of_length_le (Nat.le_of_eq h), h, Nat.sub_self, List.replicate_zero,
    List.append_nil]

theorem fit_val (m : Block n) : fit n m.1 = m := fit_of_length m.2

theorem fit_append (m : Block n) (rest : Bytes) : fit n (m.1 ++ rest) = m := by
  refine Subtype.ext ?_
  show (m.1 ++ rest).take n ++ List.replicate (n - (m.1 ++ rest).length) 0 = m.1
  rw [List.take_left' m.2, List.length_append, m.2, Nat.sub_add_eq, Nat.sub_self, Nat.zero_sub,
    List.replicate_zero, List.append_nil]

theorem fit_nil (n : Nat) : (fit n []).1 = List.replicate n 0 := by
  show ([] : Bytes).take n ++ List.replicate (n - 0) 0 = _
  rw [List.take_nil, List.nil_append, Nat.sub_zero]

theorem head?_fit (h : 0 < n) (b : UInt8) (bs : Bytes) : (fit n (b :: bs)).1.head? = some b := by
  obtain ⟨n, rfl⟩ := Nat.exists_eq_succ_of_ne_zero (Nat.ne_of_gt h)
  rfl

theorem overwrite_nil (m : Block n) : m.overwrite [] = m := by
  refine Subtype.ext ?_
  show ([] : Bytes).take n ++ m.1.drop 0 = m.1
  rw [List.take_nil]
  rfl

theorem overwrite_of_length (m : Block n) {b : Bytes} (h : b.length = n) :
    m.overwrite b = ⟨b, h⟩ := by
  refine Subtype.ext ?_
  show b.take n ++ m.1.drop b.length = b
  rw [List.take_of_length_le (Nat.le_of_eq h), h, List.drop_of_length_le (Nat.le_of_eq m.2),
    List.append_nil]

/-- Writing what is there already changes nothing, and nothing else does. -/
theorem overwrite_eq_self_iff (m : Block n) {b : Bytes} (h : b.length ≤ n) :
    m.overwrite b = m ↔ b <+: m.1 := by
  rw [Subtype.ext_iff]
  show b.take n ++ m.1.drop b.length = m.1 ↔ _
  rw [List.take_of_length_le h]
  constructor
  · intro heq
    exact heq ▸ List.prefix_append _ _
  · rintro ⟨r, hr⟩
    rw [← hr, List.drop_left]

end Block

end Sf37.Store

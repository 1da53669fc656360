/-
Sf37.Run.Parts — work divided into consecutive parts, and writes to places of their own.

* `flatMap_range'_parts`: the parts of consecutive sizes together are the whole range.
* `sum_shares`: the shares of a division with its remainder add up.
* `getElem?_flatMap_rows`, `foldl_update_row`: rows of one length in a list and in a memory.
* `writeAll_perm`: writes to different places may come in any order.
-/
import Mathlib.Algebra.BigOperators.Group.List.Basic
import Mathlib.Data.List.Range
import Mathlib.Data.List.Nodup
import Mathlib.Logic.Function.Basic
import Mathlib.Algebra.GroupWithZero.Nat

namespace Sf37.Run

/-! ## Consecutive parts -/

/-- The parts of the given sizes, one behind the other: where each begins, and its size. -/
def parts : ℕ → List ℕ → List (ℕ × ℕ)
  | _, [] => []
  | base, n :: sizes => (base, n) :: parts (base + n) sizes

/-- Together they are the whole range. -/
theorem flatMap_range'_parts (base : ℕ) (sizes : List ℕ) :
    ((parts base sizes).flatMap fun p => List.range' p.1 p.2) = List.range' base sizes.sum := by
  induction sizes generalizing base with
  | nil => rfl
  | cons n sizes ih =>
    rw [parts, List.flatMap_cons, ih, List.sum_cons]
    exact List.range'_append_1

/-- Each part lies within the whole range. -/
theorem parts_within {base : ℕ} {sizes : List ℕ} {p : ℕ × ℕ} (h : p ∈ parts base sizes) :
    base ≤ p.1 ∧ p.1 + p.2 ≤ base + sizes.sum := by
  induction sizes generalizing base with
  | nil => simp [parts] at h
  | cons n sizes ih =>
    rw [parts] at h
    rw [List.sum_cons]
    rcases List.mem_cons.mp h with rfl | h
    · exact ⟨le_rfl, by omega⟩
    · have := ih h
      omega

/-- `n` divided by `k`, with one more for the first ones as long as a remainder is left. -/
def shares (n k : ℕ) : List ℕ := (List.range k).map fun i => n / k + if i < n % k then 1 else 0

/-- The shares add up. -/
theorem sum_shares {n k : ℕ} (hk : 0 < k) : (shares n k).sum = n := by
  have hpart : ∀ m q r : ℕ, ((List.range m).map fun i => q + if i < r then 1 else 0).sum =
      m * q + min m r := by
    intro m q r
    induction m with
    | zero => simp
    | succ m ih =>
      rw [List.range_succ, List.map_append, List.sum_append, ih, Nat.succ_mul]
      simp only [List.map_cons, List.map_nil, List.sum_cons, List.sum_nil]
      split <;> omega
  have hlt := Nat.mod_lt n hk
  rw [shares, hpart, Nat.min_eq_right hlt.le, Nat.div_add_mod]

/-! ## Rows of one length -/

/-- Places in rows of one length are the same when row and column are. -/
theorem row_inj {n a b i j : ℕ} (hi : i < n) (hj : j < n) (h : a * n + i = b * n + j) :
    a = b ∧ i = j := by
  have hpos : 0 < n := Nat.zero_lt_of_lt hi
  have ha : (a * n + i) / n = a := by
    rw [Nat.add_comm, Nat.add_mul_div_right _ _ hpos, Nat.div_eq_of_lt hi, Nat.zero_add]
  have hb : (b * n + j) / n = b := by
    rw [Nat.add_comm, Nat.add_mul_div_right _ _ hpos, Nat.div_eq_of_lt hj, Nat.zero_add]
  have hab : a = b := by rw [← ha, h, hb]
  subst hab
  exact ⟨rfl, Nat.add_left_cancel h⟩

/-- Rows of one length in a list. -/
theorem getElem?_flatMap_rows {σ : Type} (f : ℕ → List σ) {n m e i : ℕ}
    (hlen : ∀ k, (f k).length = n) (he : e < m) (hi : i < n) :
    ((List.range m).flatMap f)[e * n + i]? = (f e)[i]? := by
  induction m with
  | zero => omega
  | succ m ih =>
    have hwhole : ((List.range m).flatMap f).length = m * n := by
      simp [List.length_flatMap, hlen]
    rw [List.range_succ, List.flatMap_append, List.flatMap_singleton]
    rcases Nat.lt_succ_iff_lt_or_eq.mp he with hlt | rfl
    · have hle : (e + 1) * n ≤ m * n := Nat.mul_le_mul_right n hlt
      rw [Nat.succ_mul] at hle
      rw [List.getElem?_append_left (by omega), ih hlt]
    · rw [List.getElem?_append_right (by omega), hwhole, Nat.add_sub_cancel_left]

/-- A loop that updates a row of a memory. -/
theorem foldl_update_row {σ : Type} (f : ℕ → σ → σ) (base n : ℕ) (memory : ℕ → σ) (p : ℕ) :
    (List.range n).foldl (fun memory i =>
      Function.update memory (base + i) (f i (memory (base + i)))) memory p =
        if base ≤ p ∧ p < base + n then f (p - base) (memory p) else memory p := by
  induction n with
  | zero => rw [if_neg (by omega)]; rfl
  | succ n ih =>
    rw [List.range_succ, List.foldl_append, List.foldl_cons, List.foldl_nil]
    by_cases hp : p = base + n
    · subst hp
      rw [Function.update_self, ih, if_neg (by omega), if_pos (by omega), Nat.add_sub_cancel_left]
    · rw [Function.update_of_ne hp, ih]
      by_cases hin : base ≤ p ∧ p < base + n
      · rw [if_pos hin, if_pos (by omega)]
      · rw [if_neg hin, if_neg (by omega)]

/-! ## Writes -/

section Writes

variable {ι σ : Type} [DecidableEq ι]

/-- Writes to the places of a memory, one after the other. -/
def writeAll (writes : List (ι × σ)) (memory : ι → σ) : ι → σ :=
  writes.foldl (fun memory w => Function.update memory w.1 w.2) memory

theorem writeAll_of_not_mem {writes : List (ι × σ)} {i : ι} (h : i ∉ writes.map Prod.fst)
    (memory : ι → σ) : writeAll writes memory i = memory i := by
  induction writes generalizing memory with
  | nil => rfl
  | cons w writes ih =>
    rw [List.map_cons, List.mem_cons, not_or] at h
    rw [writeAll, List.foldl_cons]
    exact (ih h.2 _).trans (Function.update_of_ne h.1 _ _)

/-- A place that is written once holds what is written. -/
theorem writeAll_of_mem {writes : List (ι × σ)} (hnodup : (writes.map Prod.fst).Nodup) {i : ι}
    {v : σ} (h : (i, v) ∈ writes) (memory : ι → σ) : writeAll writes memory i = v := by
  induction writes generalizing memory with
  | nil => simp at h
  | cons w writes ih =>
    rw [List.map_cons, List.nodup_cons] at hnodup
    rw [writeAll, List.foldl_cons]
    rcases List.mem_cons.mp h with rfl | h
    · exact (writeAll_of_not_mem hnodup.1 _).trans (Function.update_self _ _ _)
    · exact ih hnodup.2 h _

/-- Writes to different places may come in any order. -/
theorem writeAll_perm {writes order : List (ι × σ)} (hnodup : (writes.map Prod.fst).Nodup)
    (hperm : order.Perm writes) : writeAll order = writeAll writes := by
  have horder : (order.map Prod.fst).Nodup := (hperm.map Prod.fst).nodup_iff.mpr hnodup
  funext memory i
  by_cases hi : i ∈ writes.map Prod.fst
  · obtain ⟨⟨j, v⟩, hmem, rfl⟩ := List.mem_map.mp hi
    rw [writeAll_of_mem hnodup hmem, writeAll_of_mem horder (hperm.mem_iff.mpr hmem)]
  · rw [writeAll_of_not_mem hi,
      writeAll_of_not_mem fun h => hi ((hperm.map Prod.fst).mem_iff.mp h)]

end Writes

end Sf37.Run

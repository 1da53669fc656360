/-
Sf37.Store.Ring — a memory in which the value of position `p` has its place at
`p % cap`.

* `mod_ne_of_lt`: positions less than `cap` apart do not meet.
-/
import Mathlib.Order.Basic
import Mathlib.Data.Nat.ModEq

namespace Sf37.Store.Ring

variable {α : Type} {cap p : Nat}

/-- Write one place. -/
def set (mem : Nat → α) (i : Nat) (x : α) : Nat → α := fun j => if j = i then x else mem j

theorem set_self (mem : Nat → α) (i : Nat) (x : α) : set mem i x i = x := if_pos rfl

theorem set_of_ne {i j : Nat} (mem : Nat → α) (x : α) (h : j ≠ i) : set mem i x j = mem j :=
  if_neg h

/-- Two positions less than `cap` apart have different places. -/
theorem mod_ne_of_lt {q : Nat} (h : p < q) (hq : q < p + cap) : p % cap ≠ q % cap := by
  intro heq
  have hdvd : cap ∣ q - p := (Nat.modEq_iff_dvd' (Nat.le_of_lt h)).mp heq
  have := Nat.le_of_dvd (by omega) hdvd
  omega

end Sf37.Store.Ring

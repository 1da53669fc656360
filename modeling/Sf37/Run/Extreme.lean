/-
Sf37.Run.Extreme — a loop that keeps the lowest or the highest value it has met.

* `foldl_lower`, `foldl_upper`: what is kept bounds all values and is one of them.
-/
import Mathlib.Order.OrderDual
import Mathlib.Order.Basic
import Mathlib.Order.Lattice

namespace Sf37.Run

variable {ι β : Type} [LinearOrder β]

/-- The lower of two values is kept in each turn. -/
theorem foldl_lower (f : ι → β) (l : List ι) (a : β) :
    (l.foldl (fun m i => if f i < m then f i else m) a ≤ a ∧
      ∀ i ∈ l, l.foldl (fun m i => if f i < m then f i else m) a ≤ f i) ∧
    (l.foldl (fun m i => if f i < m then f i else m) a = a ∨
      ∃ i ∈ l, l.foldl (fun m i => if f i < m then f i else m) a = f i) := by
  induction l generalizing a with
  | nil => simp
  | cons j l ih =>
    obtain ⟨⟨hle, hall⟩, hmem⟩ := ih (if f j < a then f j else a)
    have hstep : (if f j < a then f j else a) ≤ a ∧ (if f j < a then f j else a) ≤ f j := by
      split
      next hlt => exact ⟨le_of_lt hlt, le_rfl⟩
      next hge => exact ⟨le_rfl, not_lt.mp hge⟩
    rw [List.foldl_cons]
    refine ⟨⟨hle.trans hstep.1, fun i hi => ?_⟩, ?_⟩
    · rcases List.mem_cons.mp hi with rfl | hi
      · exact hle.trans hstep.2
      · exact hall i hi
    · rcases hmem with heq | ⟨i, hi, heq⟩
      · have hpick : (if f j < a then f j else a) = f j ∨ (if f j < a then f j else a) = a := by
          split <;> simp
        rcases hpick with hj | ha
        · exact .inr ⟨j, List.mem_cons_self, heq.trans hj⟩
        · exact .inl (heq.trans ha)
      · exact .inr ⟨i, List.mem_cons_of_mem j hi, heq⟩

/-- The higher of two values is kept in each turn. -/
theorem foldl_upper (f : ι → β) (l : List ι) (a : β) :
    (a ≤ l.foldl (fun m i => if m < f i then f i else m) a ∧
      ∀ i ∈ l, f i ≤ l.foldl (fun m i => if m < f i then f i else m) a) ∧
    (l.foldl (fun m i => if m < f i then f i else m) a = a ∨
      ∃ i ∈ l, l.foldl (fun m i => if m < f i then f i else m) a = f i) :=
  foldl_lower (β := βᵒᵈ) f l a

end Sf37.Run

/-
Sf37.Run.Trim — a loop that takes the first of the elements away, in some order, until
what is left weighs no more than a target.

* `Trims.perm`, `Trims.fits`: what went and what is left are all there was, and that fits.
* `Trims.first`: what went comes before all that is left.
* `Trims.pairwise`: what went earlier comes before what went later.
* `Trims.needed`: nothing went once the rest would have fitted.
-/
import Mathlib.Algebra.BigOperators.Group.List.Basic
import Mathlib.Algebra.GroupWithZero.Nat

namespace Sf37.Run

variable {α : Type} {before : α → α → Prop} {weight : α → Nat} {target : Nat}

/-- The loop on a list, what it takes away in this order, and what it leaves. -/
inductive Trims (before : α → α → Prop) (weight : α → Nat) (target : Nat) :
    List α → List α → List α → Prop
  | stop {xs left : List α} (hperm : xs.Perm left) (h : (left.map weight).sum ≤ target) :
      Trims before weight target xs [] left
  | take {xs rest removed left : List α} {v : α} (hover : target < (xs.map weight).sum)
      (hperm : xs.Perm (v :: rest)) (hfirst : ∀ x ∈ rest, before v x)
      (hrest : Trims before weight target rest removed left) :
      Trims before weight target xs (v :: removed) left

variable {xs removed left : List α}

theorem Trims.perm (h : Trims before weight target xs removed left) :
    (removed ++ left).Perm xs := by
  induction h with
  | stop hperm => exact hperm.symm
  | take _ hperm _ _ ih => exact (ih.cons _).trans hperm.symm

theorem Trims.fits (h : Trims before weight target xs removed left) :
    (left.map weight).sum ≤ target := by
  induction h with
  | stop _ h => exact h
  | take _ _ _ _ ih => exact ih

theorem Trims.first (h : Trims before weight target xs removed left) :
    ∀ v ∈ removed, ∀ x ∈ left, before v x := by
  induction h with
  | stop => exact nofun
  | take _ _ hfirst hrest ih =>
    intro v hv x hx
    rcases List.mem_cons.mp hv with rfl | hv
    · exact hfirst x (hrest.perm.mem_iff.mp (List.mem_append_right _ hx))
    · exact ih v hv x hx

theorem Trims.pairwise (h : Trims before weight target xs removed left) :
    removed.Pairwise before := by
  induction h with
  | stop => exact .nil
  | take _ _ hfirst hrest ih =>
    refine List.pairwise_cons.mpr ⟨fun x hx => ?_, ih⟩
    exact hfirst x (hrest.perm.mem_iff.mp (List.mem_append_left _ hx))

theorem Trims.needed (h : Trims before weight target xs removed left) {gone later : List α} {v : α}
    (hsplit : removed = gone ++ v :: later) :
    target < ((v :: later ++ left).map weight).sum := by
  induction h generalizing gone with
  | stop => simp at hsplit
  | @take xs rest removed left w hover hperm hfirst hrest ih =>
    cases gone with
    | nil =>
      obtain ⟨rfl, rfl⟩ := List.cons.inj hsplit
      have hall : (w :: (removed ++ left)).Perm xs := (hrest.perm.cons w).trans hperm.symm
      rw [List.cons_append, (hall.map weight).sum_eq]
      exact hover
    | cons g gone => exact ih (List.cons.inj hsplit).2

end Sf37.Run

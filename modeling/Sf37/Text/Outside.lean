/-
Sf37.Text.Outside — what stands outside of the tags of a text.

All tags begin with one element, which comes again in none of them, so no two of them overlap.

* `outside_tag`: a tag at the front goes.
* `outside_cons`: an element where no tag begins stays.
-/
import Sf37.Text.Occurrence

namespace Sf37.Text

variable {α : Type}

/-- Tags that begin with `o`, none of which begins another. -/
structure Tags (o : α) (tags : List (List α)) : Prop where
  guarded : ∀ n ∈ tags, Guarded o n
  same : ∀ m ∈ tags, ∀ n ∈ tags, m <+: n → m = n

/-- The place `i` is in a tag. -/
def Covered (tags : List (List α)) (s : List α) (i : Nat) : Prop :=
  ∃ n ∈ tags, ∃ j < i + 1, OccursAt n s j ∧ i < j + n.length

instance [DecidableEq α] (tags : List (List α)) (s : List α) (i : Nat) :
    Decidable (Covered tags s i) :=
  inferInstanceAs (Decidable (∃ n ∈ tags, ∃ j < i + 1, OccursAt n s j ∧ i < j + n.length))

/-- The elements in no tag, in order. -/
def outside [DecidableEq α] (tags : List (List α)) (s : List α) : List α :=
  (List.range s.length).filterMap fun i => if Covered tags s i then none else s[i]?

variable {o : α} {tags : List (List α)}

/-- Behind a tag at the front the same places are covered. -/
theorem covered_tag (h : Tags o tags) {n : List α} (hn : n ∈ tags) (t : List α) (i : Nat) :
    Covered tags (n ++ t) (n.length + i) ↔ Covered tags t i := by
  have hfront : OccursAt n (n ++ t) 0 := occursAt_zero.mpr (List.prefix_append n t)
  constructor
  · rintro ⟨m, hm, j, hj, hocc, hend⟩
    have hbehind : n.length ≤ j := by
      rcases Nat.eq_zero_or_pos j with rfl | hpos
      · have hmn : m = n := by
          rcases List.prefix_or_prefix_of_prefix (occursAt_zero.mp hocc)
            (List.prefix_append n t) with hpre | hpre
          · exact h.same m hm n hn hpre
          · exact (h.same n hn m hm hpre).symm
        subst hmn
        omega
      · simpa using (h.guarded n hn).disjoint (h.guarded m hm) hfront hocc hpos
    obtain ⟨k, rfl⟩ := Nat.exists_eq_add_of_le hbehind
    exact ⟨m, hm, k, by omega, occursAt_append_left.mp hocc, by omega⟩
  · rintro ⟨m, hm, j, hj, hocc, hend⟩
    exact ⟨m, hm, n.length + j, by omega, occursAt_append_left.mpr hocc, by omega⟩

/-- Where no tag begins, the places behind are covered as in the rest. -/
theorem covered_cons {c : α} {t : List α} (h : ∀ n ∈ tags, ¬ n <+: c :: t) (i : Nat) :
    Covered tags (c :: t) (i + 1) ↔ Covered tags t i := by
  constructor
  · rintro ⟨m, hm, j, hj, hocc, hend⟩
    cases j with
    | zero => exact absurd (occursAt_zero.mp hocc) (h m hm)
    | succ j => exact ⟨m, hm, j, by omega, hocc, by omega⟩
  · rintro ⟨m, hm, j, hj, hocc, hend⟩
    exact ⟨m, hm, j + 1, by omega, hocc, by omega⟩

variable [DecidableEq α]

theorem outside_nil : outside tags [] = [] := rfl

/-- A tag at the front goes. -/
theorem outside_tag (h : Tags o tags) {n : List α} (hn : n ∈ tags) (t : List α) :
    outside tags (n ++ t) = outside tags t := by
  have hfront : OccursAt n (n ++ t) 0 := occursAt_zero.mpr (List.prefix_append n t)
  have hnone : (List.range n.length).filterMap
      (fun i => if Covered tags (n ++ t) i then none else (n ++ t)[i]?) = [] := by
    refine List.filterMap_eq_nil_iff.mpr fun i hi => if_pos ?_
    exact ⟨n, hn, 0, by omega, hfront, by simpa using List.mem_range.mp hi⟩
  rw [outside, List.length_append, List.range_add, List.filterMap_append, hnone, List.nil_append,
    List.filterMap_map, outside]
  refine List.filterMap_congr fun i _ => ?_
  simp only [Function.comp_apply, covered_tag h hn,
    List.getElem?_append_right (Nat.le_add_right _ i), Nat.add_sub_cancel_left]

/-- An element where no tag begins stays. -/
theorem outside_cons {c : α} {t : List α} (h : ∀ n ∈ tags, ¬ n <+: c :: t) :
    outside tags (c :: t) = c :: outside tags t := by
  have hfirst : ¬ Covered tags (c :: t) 0 := by
    rintro ⟨m, hm, j, hj, hocc, -⟩
    obtain rfl : j = 0 := by omega
    exact h m hm (occursAt_zero.mp hocc)
  rw [outside, List.length_cons, List.range_succ_eq_map, List.filterMap_cons_some (b := c),
    List.filterMap_map, outside]
  · congr 1
    refine List.filterMap_congr fun i _ => ?_
    simp only [Function.comp_apply, Nat.succ_eq_add_one, covered_cons h, List.getElem?_cons_succ]
  · rw [if_neg hfirst]
    rfl

end Sf37.Text

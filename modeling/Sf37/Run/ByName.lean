/-
Sf37.Run.ByName — items taken in the order of a list of names, where both may repeat a name.

An entry of the order takes the first item of its name that is left. So the entry that has a
name for the r-th time takes the r-th item of that name.

* `named_cons`, `unnamed_cons`: the first entry takes the first item of its name away.
* `named_perm`: what is taken and what is left are the items.
* `unnamed_eq_filter`: when what is left has none of the names.
-/
import Mathlib.Data.List.Count
import Mathlib.Data.List.Perm.Basic

namespace Sf37.Run

variable {α κ : Type} [DecidableEq κ] (key : α → κ)

/-! ## Taken and left -/

/-- What the entries of the order take, in their order. -/
def named (order : List κ) (items : List α) : List α :=
  (List.range order.length).filterMap fun j =>
    order[j]?.bind fun p => (items.filter (key · = p))[(order.take j).count p]?

/-- What is left, in its own order: the items with as many of their name before them as the
order has, or more. -/
def unnamed (order : List κ) (items : List α) : List α :=
  (List.range items.length).filterMap fun i =>
    items[i]?.bind fun a =>
      if ((items.take i).map key).count (key a) < order.count (key a) then none else some a

@[simp] theorem named_nil (items : List α) : named key [] items = [] := rfl

@[simp] theorem unnamed_nil (order : List κ) : unnamed key order [] = [] := rfl

theorem filter_eraseP {p q : κ} (items : List α) :
    (items.eraseP (key · = p)).filter (key · = q) =
      if q = p then (items.filter (key · = q)).tail else items.filter (key · = q) := by
  induction items with
  | nil => simp
  | cons a items ih =>
    by_cases ha : key a = p
    · by_cases hq : q = p
      · simp [ha, hq]
      · have hne : ¬ p = q := fun h => hq h.symm
        simp [ha, hq, hne]
    · by_cases hq : q = p
      · subst hq
        simpa [ha] using ih
      · rw [if_neg hq] at ih ⊢
        rw [List.eraseP_cons_of_neg (by simpa using ha), List.filter_cons, List.filter_cons, ih]

/-- The first entry takes the first item of its name. -/
theorem named_cons (p : κ) (order : List κ) (items : List α) :
    named key (p :: order) items =
      (items.find? (key · = p)).toList ++ named key order (items.eraseP (key · = p)) := by
  rw [named, List.length_cons, List.range_succ_eq_map, List.filterMap_cons, List.filterMap_map]
  have hrest : List.filterMap ((fun j => (p :: order)[j]?.bind fun q =>
      (items.filter (key · = q))[((p :: order).take j).count q]?) ∘ Nat.succ)
        (List.range order.length) = named key order (items.eraseP (key · = p)) := by
    refine List.filterMap_congr fun j _ => ?_
    simp only [Function.comp_apply, Nat.succ_eq_add_one, List.getElem?_cons_succ,
      List.take_succ_cons]
    refine congrArg _ (funext fun q => ?_)
    rw [filter_eraseP, List.count_cons]
    by_cases hq : q = p
    · simp [hq]
    · have hne : ¬ p = q := fun h => hq h.symm
      simp [hq, hne]
  rw [hrest]
  have hfirst : ((p :: order)[0]?.bind fun q =>
      (items.filter (key · = q))[((p :: order).take 0).count q]?) = items.find? (key · = p) := by
    simp [← List.head?_eq_getElem?]
  rw [hfirst]
  cases items.find? (key · = p) <;> rfl

/-- The first item is taken when the order names it, and uses an entry up. -/
theorem unnamed_cons_item (order : List κ) (a : α) (items : List α) :
    unnamed key order (a :: items) =
      if key a ∈ order then unnamed key (order.erase (key a)) items
      else a :: unnamed key order items := by
  -- the test of an item behind the first, where one more item stands before it
  have hrest (order' : List κ)
      (htest : ∀ n k, n + (if key a = k then 1 else 0) < order.count k ↔ n < order'.count k) :
      (List.range items.length).filterMap ((fun i => (a :: items)[i]?.bind fun b =>
        if (((a :: items).take i).map key).count (key b) < order.count (key b) then none
        else some b) ∘ Nat.succ) = unnamed key order' items := by
    refine List.filterMap_congr fun i _ => ?_
    simp only [Function.comp_apply, Nat.succ_eq_add_one, List.getElem?_cons_succ,
      List.take_succ_cons, List.map_cons, List.count_cons, beq_iff_eq]
    refine congrArg _ (funext fun b => ?_)
    simp only [htest]
  rw [unnamed, List.length_cons, List.range_succ_eq_map, List.filterMap_cons, List.filterMap_map]
  simp only [List.getElem?_cons_zero, Option.bind_some, List.take_zero, List.map_nil,
    List.count_nil]
  by_cases hmem : key a ∈ order
  · have hpos := List.count_pos_iff.mpr hmem
    rw [if_pos hmem, if_pos hpos]
    refine hrest _ fun n k => ?_
    rw [List.count_erase]
    by_cases hk : key a = k
    · subst hk
      simp only [if_true, beq_self_eq_true]
      omega
    · simp [hk]
  · have hzero := List.count_eq_zero.mpr hmem
    rw [if_neg hmem, if_neg (by omega)]
    refine congrArg (a :: ·) (hrest _ fun n k => ?_)
    by_cases hk : key a = k
    · subst hk
      omega
    · simp [hk]

/-- The first entry takes the first item of its name away. -/
theorem unnamed_cons (p : κ) (order : List κ) (items : List α) :
    unnamed key (p :: order) items = unnamed key order (items.eraseP (key · = p)) := by
  induction items generalizing order with
  | nil => rfl
  | cons a items ih =>
    by_cases ha : key a = p
    · subst ha
      rw [unnamed_cons_item, if_pos List.mem_cons_self, List.erase_cons_head,
        List.eraseP_cons_of_pos (by simp)]
    · have hmem : key a ∈ p :: order ↔ key a ∈ order := by simp [ha]
      have herase : (p :: order).erase (key a) = p :: order.erase (key a) :=
        List.erase_cons_tail (by simpa using fun h => ha h.symm)
      rw [List.eraseP_cons_of_neg (by simpa using ha), unnamed_cons_item, unnamed_cons_item,
        herase, ih, ih]
      simp only [hmem]

/-- What is left keeps its order. -/
theorem unnamed_sublist (order : List κ) (items : List α) :
    (unnamed key order items).Sublist items := by
  induction items generalizing order with
  | nil => exact .slnil
  | cons a items ih =>
    rw [unnamed_cons_item]
    split
    · exact (ih _).cons a
    · exact (ih _).cons_cons a

theorem unnamed_order_nil (items : List α) : unnamed key [] items = items := by
  induction items with
  | nil => rfl
  | cons a items ih => rw [unnamed_cons_item, if_neg List.not_mem_nil, ih]

/-- What the first entry takes stood among the items. -/
theorem find?_toList_append_eraseP (q : α → Bool) (items : List α) :
    ((items.find? q).toList ++ items.eraseP q).Perm items := by
  cases hfind : items.find? q with
  | none =>
    have hno : ∀ a ∈ items, ¬ q a = true := List.find?_eq_none.mp hfind
    rw [List.eraseP_of_forall_not hno]
    exact .refl _
  | some a =>
    obtain ⟨ha, front, back, rfl, hfront⟩ := List.find?_eq_some_iff_append.mp hfind
    have hno : ∀ b ∈ front, ¬ q b = true := fun b hb => by simpa using hfront b hb
    rw [List.eraseP_append_right _ hno, List.eraseP_cons_of_pos ha, Option.toList_some,
      List.singleton_append]
    exact List.perm_middle.symm

/-- What is taken and what is left are the items. -/
theorem named_perm (order : List κ) (items : List α) :
    (named key order items ++ unnamed key order items).Perm items := by
  induction order generalizing items with
  | nil =>
    rw [named_nil, unnamed_order_nil]
    exact .refl _
  | cons p order ih =>
    rw [named_cons, unnamed_cons, List.append_assoc]
    exact ((ih _).append_left _).trans (find?_toList_append_eraseP _ items)

theorem unnamed_eq_filter_count {order : List κ} {items : List α}
    (h : ∀ p ∈ order, (items.map key).count p ≤ order.count p) :
    unnamed key order items = items.filter (key · ∉ order) := by
  induction items generalizing order with
  | nil => rfl
  | cons a items ih =>
    rw [unnamed_cons_item]
    split
    next hmem =>
      have hleft : ∀ p ∈ order.erase (key a),
          (items.map key).count p ≤ (order.erase (key a)).count p := by
        intro p hp
        have := h p (List.mem_of_mem_erase hp)
        rw [List.map_cons, List.count_cons] at this
        rw [List.count_erase]
        by_cases hk : key a = p
        · subst hk
          simp only [beq_self_eq_true, if_true] at this ⊢
          omega
        · simpa [hk] using this
      rw [ih hleft, List.filter_cons_of_neg (by simpa using hmem)]
      refine List.filter_congr fun b hb => ?_
      -- an item with the name of the first one finds an entry left
      have hiff : key b ∈ order.erase (key a) ↔ key b ∈ order := by
        by_cases hk : key b = key a
        · have hcount := h _ hmem
          have hpos : 0 < (items.map key).count (key a) :=
            List.count_pos_iff.mpr (hk ▸ List.mem_map_of_mem hb)
          rw [List.map_cons, List.count_cons_self] at hcount
          have herase : 0 < (order.erase (key a)).count (key a) := by
            rw [List.count_erase_self]
            omega
          rw [hk]
          exact ⟨fun _ => hmem, fun _ => List.count_pos_iff.mp herase⟩
        · exact List.mem_erase_of_ne hk
      simp only [hiff]
    next hmem =>
      have hleft : ∀ p ∈ order, (items.map key).count p ≤ order.count p := by
        intro p hp
        have := h p hp
        rw [List.map_cons, List.count_cons] at this
        omega
      rw [ih hleft, List.filter_cons_of_pos (by simpa using hmem)]

/-- Where no name comes more often than in the order, what is left has none of its names. -/
theorem unnamed_eq_filter {order : List κ} {items : List α}
    (h : ∀ p ∈ order, items.countP (key · = p) ≤ order.countP (· = p)) :
    unnamed key order items = items.filter (key · ∉ order) := by
  refine unnamed_eq_filter_count key fun p hp => ?_
  rw [List.count_eq_countP, List.count_eq_countP, List.countP_map]
  exact h p hp

end Sf37.Run

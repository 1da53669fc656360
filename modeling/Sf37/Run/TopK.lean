/-
Sf37.Run.TopK — loops that keep the first elements of a sorted list in an array of slots.

The loops put each new element into its place and shift what is behind it by one slot. An
element comes behind those that precede it in the order and were met before it, so what the
slots hold is the beginning of the sorted list at every time.

* `insertionSort_append`: where the last element of a list goes when the list is sorted.
* `shiftRight_eq`, `sink_eq`: the two loops that make room for an element.
* `insertSlots_holds`: one turn that searches from the first slot.
* `Filled.sink`: one turn that sinks from the last slot.
-/
import Mathlib.Data.List.Sort
import Mathlib.Data.List.TakeWhile

namespace Sf37.Run

/-! ## The place of a new element -/

section Place

variable {α : Type} {r : α → α → Prop} {keep : α → Bool} {x : α}

/-- `x` behind the first elements that it does not come before. -/
def insertAfter (keep : α → Bool) (x : α) (l : List α) : List α :=
  l.takeWhile keep ++ x :: l.dropWhile keep

/-- What comes before `x` in a sorted list comes before everything else. -/
theorem rel_of_mem_dropWhile [DecidableRel r] [Std.Total r] [IsTrans α r] {l : List α}
    (hsorted : l.Pairwise r) (hkeep : ∀ y ∈ l, keep y = true ↔ r y x) :
    ∀ y ∈ l.dropWhile keep, r x y := by
  induction l with
  | nil => simp
  | cons a l ih =>
    intro y hy
    have hstep := ih hsorted.of_cons fun z hz => hkeep z (List.mem_cons_of_mem a hz)
    rw [List.dropWhile_cons] at hy
    split at hy
    next hk => exact hstep y hy
    next hk =>
      have hax : r x a := (total_of r a x).resolve_left fun h =>
        hk ((hkeep a List.mem_cons_self).mpr h)
      rcases List.mem_cons.mp hy with rfl | hy
      · exact hax
      · exact Trans.trans hax (List.rel_of_pairwise_cons hsorted hy)

/-- The last element of a list goes behind those that precede it. -/
theorem insertionSort_append [DecidableRel r] [Std.Total r] [IsTrans α r] [Std.Antisymm r]
    {l : List α} (hkeep : ∀ y ∈ l, keep y = true ↔ r y x) :
    (l ++ [x]).insertionSort r = insertAfter keep x (l.insertionSort r) := by
  have hkeep' : ∀ y ∈ l.insertionSort r, keep y = true ↔ r y x := fun y hy =>
    hkeep y ((List.mem_insertionSort r).mp hy)
  have hperm : (insertAfter keep x (l.insertionSort r)).Perm ((l ++ [x]).insertionSort r) := by
    rw [insertAfter]
    refine List.perm_middle.trans ?_
    rw [List.takeWhile_append_dropWhile]
    exact ((List.perm_insertionSort r l).cons x).trans
      (List.perm_append_singleton x l).symm |>.trans (List.perm_insertionSort r _).symm
  have hsorted : (insertAfter keep x (l.insertionSort r)).Pairwise r := by
    have hl := List.pairwise_insertionSort r l
    have hfront : ∀ y ∈ (l.insertionSort r).takeWhile keep, r y x := fun y hy =>
      (hkeep' y (( List.takeWhile_prefix keep).subset hy)).mp (List.mem_takeWhile_imp hy)
    have hback := rel_of_mem_dropWhile hl hkeep'
    rw [insertAfter, List.pairwise_append]
    refine ⟨hl.sublist ( List.takeWhile_prefix keep).sublist, ?_, fun y hy z hz => ?_⟩
    · exact List.pairwise_cons.mpr ⟨hback, hl.sublist ( List.dropWhile_suffix keep).sublist⟩
    · rcases List.mem_cons.mp hz with rfl | hz
      · exact hfront y hy
      · exact Trans.trans (hfront y hy) (hback z hz)
  exact (hperm.eq_of_pairwise' hsorted (List.pairwise_insertionSort r _)).symm

/-- How many elements stay in front of a new one. -/
def placeOf (keep : α → Bool) (l : List α) : ℕ := (l.takeWhile keep).length

theorem placeOf_le (l : List α) : placeOf keep l ≤ l.length :=
  ( List.takeWhile_prefix keep).length_le

/-- The elements in front of the place stay. -/
theorem keep_of_lt_placeOf {l : List α} {p : ℕ} (h : p < placeOf keep l) :
    ∃ y, l[p]? = some y ∧ keep y = true := by
  rw [placeOf] at h
  refine ⟨(l.takeWhile keep)[p], ?_, List.mem_takeWhile_imp (List.getElem_mem h)⟩
  conv_lhs => rw [← List.takeWhile_append_dropWhile (p := keep) (l := l)]
  rw [List.getElem?_append_left h, List.getElem?_eq_getElem h]

/-- The element at the place does not stay. -/
theorem not_keep_placeOf {l : List α} {y : α} (h : l[placeOf keep l]? = some y) :
    keep y = false := by
  induction l with
  | nil => simp at h
  | cons a l ih =>
    rw [placeOf, List.takeWhile_cons] at h
    split at h
    next hk => exact ih (by simpa [placeOf] using h)
    next hk =>
      simp at h
      simpa [h] using hk

/-- In a sorted list the elements that stay are those in front of the place. -/
theorem lt_placeOf_of_keep [DecidableRel r] [IsTrans α r] {l : List α} (hsorted : l.Pairwise r)
    (hkeep : ∀ y ∈ l, keep y = true ↔ r y x) {p : ℕ} {y : α} (hp : l[p]? = some y)
    (hy : keep y = true) : p < placeOf keep l := by
  by_contra hge
  rw [not_lt] at hge
  obtain ⟨hlt, rfl⟩ := List.getElem?_eq_some_iff.mp hp
  have hplace : placeOf keep l < l.length := lt_of_le_of_lt hge hlt
  have hno : keep l[placeOf keep l] = false := not_keep_placeOf (List.getElem?_eq_getElem hplace)
  rcases hge.lt_or_eq with h | h
  · have hrel := List.pairwise_iff_getElem.mp hsorted _ _ hplace hlt h
    have := Trans.trans hrel ((hkeep _ (List.getElem_mem hlt)).mp hy)
    rw [(hkeep _ (List.getElem_mem hplace)).mpr this] at hno
    exact Bool.noConfusion hno
  · simp only [h] at hno
    rw [hy] at hno
    exact Bool.noConfusion hno

theorem getElem?_insertAfter (l : List α) (p : ℕ) : (insertAfter keep x l)[p]? =
    if p < placeOf keep l then l[p]? else if p = placeOf keep l then some x else l[p - 1]? := by
  have hsplit : l.takeWhile keep ++ l.dropWhile keep = l := List.takeWhile_append_dropWhile
  rw [insertAfter]
  split
  next hlt =>
    rw [List.getElem?_append_left hlt]
    conv_rhs => rw [← hsplit]
    rw [List.getElem?_append_left hlt]
  next hge =>
    rw [not_lt] at hge
    rw [List.getElem?_append_right hge]
    split
    next heq => simp [heq, placeOf]
    next hne =>
      have hlt : placeOf keep l < p := lt_of_le_of_ne hge (Ne.symm hne)
      conv_rhs => rw [← hsplit]
      obtain ⟨d, rfl⟩ := Nat.exists_eq_add_of_lt hlt
      rw [List.getElem?_append_right (by rw [← placeOf]; omega)]
      simp [placeOf, Nat.add_assoc]

end Place

/-! ## Slots -/

section Slots

variable {σ : Type}

/-- The slots behind `t` up to `j`, each with what the slot in front of it held. -/
def shifted (slots : ℕ → σ) (t j : ℕ) (p : ℕ) : σ :=
  if t < p ∧ p ≤ j then slots (p - 1) else slots p

/-- The loop that shifts the slots behind `j` to the right, from the slot `m` on. -/
def shiftRight (j : ℕ) : ℕ → (ℕ → σ) → ℕ → σ
  | 0, slots => slots
  | m + 1, slots =>
    if j < m + 1 then shiftRight j m (Function.update slots (m + 1) (slots m)) else slots

theorem shiftRight_eq (j m : ℕ) (slots : ℕ → σ) :
    shiftRight j m slots = shifted slots j m := by
  induction m generalizing slots with
  | zero =>
    funext p
    rw [shiftRight, shifted, if_neg (by omega)]
  | succ m ih =>
    funext p
    rw [shiftRight]
    split
    next hlt =>
      rw [ih, shifted, shifted]
      rcases lt_trichotomy p (m + 1) with hp | rfl | hp
      · rw [Function.update_of_ne (by omega), Function.update_of_ne (by omega)]
        by_cases hj : j < p
        · rw [if_pos (by omega), if_pos (by omega)]
        · rw [if_neg (by omega), if_neg (by omega)]
      · rw [if_neg (by omega), if_pos (by omega), Function.update_self, Nat.add_sub_cancel]
      · rw [if_neg (by omega), if_neg (by omega), Function.update_of_ne (by omega)]
    next hge => rw [shifted, if_neg (by omega)]

/-- The loop that goes down from the slot `j` as long as the slot in front is below the new
element, and shifts what it passes. -/
def sink (below : σ → Bool) : ℕ → (ℕ → σ) → (ℕ → σ) × ℕ
  | 0, slots => (slots, 0)
  | j + 1, slots =>
    if below (slots j) then sink below j (Function.update slots (j + 1) (slots j))
    else (slots, j + 1)

/-- The loop stops at `t` when the slots from there on are below, and the one in front is
not. -/
theorem sink_eq {below : σ → Bool} {t j : ℕ} {slots : ℕ → σ} (htj : t ≤ j)
    (hstop : ∀ p < t, below (slots p) = false) (hgo : ∀ p < j, t ≤ p → below (slots p) = true) :
    sink below j slots = (shifted slots t j, t) := by
  induction j generalizing slots with
  | zero =>
    obtain rfl := Nat.le_zero.mp htj
    rw [sink]
    congr 1
    funext p
    rw [shifted, if_neg (by omega)]
  | succ j ih =>
    rw [sink]
    rcases Nat.lt_or_ge t (j + 1) with hlt | hge
    · have hle : t ≤ j := Nat.le_of_lt_succ hlt
      rw [if_pos (hgo j (by omega) hle), ih hle]
      · congr 1
        funext p
        rw [← shiftRight_eq, ← shiftRight_eq]
        rw [shiftRight, if_pos hlt]
      · intro p hp
        rw [Function.update_of_ne (by omega)]
        exact hstop p hp
      · intro p hp htp
        rw [Function.update_of_ne (by omega)]
        exact hgo p (by omega) htp
    · obtain rfl : t = j + 1 := le_antisymm htj hge
      rw [hstop j (by omega), if_neg Bool.false_ne_true]
      congr 1
      funext p
      rw [shifted, if_neg (by omega)]

/-- A turn that searches from the first slot: where a slot is open, room is made at the first
such slot and the new element is put there. -/
def insertSlots (k : ℕ) (opens : σ → Bool) (put : σ → σ) (slots : ℕ → σ) : ℕ → σ :=
  match (List.range k).find? fun j => opens (slots j) with
  | none => slots
  | some j =>
    let slots := shiftRight j (k - 1) slots
    Function.update slots j (put (slots j))

/-- A turn that sinks from the last slot of `n`. -/
def sinkSlots (k : ℕ) (below : σ → Bool) (new : σ) (n : ℕ) (slots : ℕ → σ) : ℕ × (ℕ → σ) :=
  let j := if n < k then n else n - 1
  let n := if n < k then n + 1 else n
  let (slots, j) := sink below j slots
  (n, Function.update slots j new)

end Slots

/-! ## One turn -/

section Turn

variable {α σ : Type} {keep : α → Bool} {x : α}

/-- A turn that searches from the first slot takes the beginning of a list to the beginning of
the list with the new element in its place, and no other slot changes. -/
theorem insertSlots_holds (enc : Option α → σ) (keep : α → Bool) (x : α) (l : List α) {k : ℕ}
    {opens : σ → Bool} {put : σ → σ} {slots : ℕ → σ} (hnone : opens (enc none) = true)
    (hsome : ∀ y ∈ l, opens (enc (some y)) = !keep y) (hput : ∀ o, put (enc o) = enc (some x))
    (h : ∀ p < k, slots p = enc l[p]?) (p : ℕ) :
    insertSlots k opens put slots p =
      if p < k then enc (insertAfter keep x l)[p]? else slots p := by
  have hopens : ∀ j < k, opens (slots j) = true ↔ ¬ ∃ y, l[j]? = some y ∧ keep y = true := by
    intro j hj
    rw [h j hj]
    cases hl : l[j]? with
    | none => simp [hnone]
    | some y => simp [hsome y (List.mem_of_getElem? hl)]
  have hclosed : ∀ j < k, j < placeOf keep l → opens (slots j) = false := by
    intro j hj hlt
    rw [Bool.eq_false_iff, ne_eq, hopens j hj, not_not]
    exact keep_of_lt_placeOf hlt
  rw [getElem?_insertAfter, insertSlots]
  rcases Nat.lt_or_ge (placeOf keep l) k with hlt | hge
  · have hfind : (List.range k).find? (fun j => opens (slots j)) = some (placeOf keep l) := by
      rw [List.find?_range_eq_some]
      refine ⟨?_, List.mem_range.mpr hlt, fun j hj => ?_⟩
      · rw [hopens _ hlt]
        rintro ⟨y, hy, hk⟩
        rw [not_keep_placeOf hy] at hk
        exact Bool.noConfusion hk
      · rw [hclosed j (hj.trans hlt) hj]
        rfl
    rw [hfind]
    dsimp only
    rw [shiftRight_eq]
    rcases lt_trichotomy p (placeOf keep l) with hp | rfl | hp
    · rw [Function.update_of_ne hp.ne, shifted, if_neg (by omega), if_pos (by omega), if_pos hp,
        h p (by omega)]
    · rw [Function.update_self, if_pos hlt, if_neg (lt_irrefl _), if_pos rfl, shifted,
        if_neg (by omega), h _ hlt, hput]
    · rw [Function.update_of_ne hp.ne', shifted]
      by_cases hpk : p < k
      · rw [if_pos (by omega), if_pos hpk, if_neg (by omega), if_neg (by omega),
          h _ (by omega)]
      · rw [if_neg (by omega), if_neg hpk]
  · have hfind : (List.range k).find? (fun j => opens (slots j)) = none := by
      rw [List.find?_eq_none]
      intro j hj
      have hj := List.mem_range.mp hj
      rw [hclosed j hj (by omega)]
      exact Bool.false_ne_true
    rw [hfind]
    dsimp only
    split
    next hp => rw [if_pos (by omega), h p hp]
    next hp => rfl

/-- What slots hold that are filled from the front: the first elements of a list. -/
def Filled (k : ℕ) (l : List α) (n : ℕ) (slots : ℕ → α) : Prop :=
  n = min l.length k ∧ ∀ p < n, l[p]? = some (slots p)

/-- Slots that are full keep the first elements when the last one is not below the new
element. -/
theorem Filled.full {k n : ℕ} {l : List α} {slots : ℕ → α} (h : Filled k l n slots) (hn : n = k)
    (hk : 0 < k) (hclosed : ∀ p y, l[p]? = some y → keep y = true → p < placeOf keep l)
    (hlast : keep (slots (n - 1)) = true) : Filled k (insertAfter keep x l) n slots := by
  obtain ⟨hlen, hall⟩ := h
  have hplace := hclosed (n - 1) _ (hall (n - 1) (by omega)) hlast
  refine ⟨?_, fun p hp => ?_⟩
  · have hins : (insertAfter keep x l).length = l.length + 1 := by
      rw [insertAfter, List.length_append, List.length_cons, ← Nat.add_assoc, ← List.length_append,
        List.takeWhile_append_dropWhile]
    omega
  · rw [getElem?_insertAfter, if_pos (by omega)]
    exact hall p hp

/-- A turn that sinks from the last slot. -/
theorem Filled.sink {k n : ℕ} {l : List α} {slots : ℕ → α} (h : Filled k l n slots)
    (hk : 0 < k) (hclosed : ∀ p y, l[p]? = some y → keep y = true → p < placeOf keep l)
    (hlast : n = k → keep (slots (n - 1)) = false) {below : α → Bool}
    (hbelow : ∀ y ∈ l, below y = !keep y) :
    Filled k (insertAfter keep x l) (sinkSlots k below x n slots).1
      (sinkSlots k below x n slots).2 := by
  obtain ⟨hlen, hall⟩ := h
  have hins : (insertAfter keep x l).length = l.length + 1 := by
    rw [insertAfter, List.length_append, List.length_cons, ← Nat.add_assoc, ← List.length_append,
      List.takeWhile_append_dropWhile]
  have hkept : ∀ p < n, below (slots p) = true ↔ ¬ p < placeOf keep l := by
    intro p hp
    have hget := hall p hp
    rw [hbelow _ (List.mem_of_getElem? hget), Bool.not_eq_true']
    constructor
    · intro hno hlt
      obtain ⟨y, hy, hkeep⟩ := keep_of_lt_placeOf hlt
      obtain rfl : slots p = y := Option.some.inj (hget.symm.trans hy)
      rw [hno] at hkeep
      exact Bool.noConfusion hkeep
    · intro hge
      rw [Bool.eq_false_iff]
      exact fun hkeep => hge (hclosed p _ hget hkeep)
  have hroom : placeOf keep l ≤ if n < k then n else n - 1 := by
    have hle : placeOf keep l ≤ l.length := placeOf_le l
    split
    · omega
    · have hn : n = k := by omega
      by_contra hlt
      rw [not_le] at hlt
      have hno := hlast hn
      obtain ⟨y, hy, hkeep⟩ := keep_of_lt_placeOf hlt
      obtain rfl : slots (n - 1) = y := Option.some.inj ((hall (n - 1) (by omega)).symm.trans hy)
      rw [hno] at hkeep
      exact Bool.noConfusion hkeep
  have hjn : (if n < k then n else n - 1) ≤ n := by split <;> omega
  have hsink : Run.sink below (if n < k then n else n - 1) slots =
      (shifted slots (placeOf keep l) (if n < k then n else n - 1), placeOf keep l) := sink_eq hroom
    (fun p hp => Bool.eq_false_iff.mpr fun hb => (hkept p (by omega)).mp hb hp)
    (fun p hp ht => (hkept p (by omega)).mpr (by omega))
  rw [sinkSlots, hsink]
  refine ⟨?_, fun p hp => ?_⟩
  · dsimp only
    split <;> omega
  · dsimp only at hp ⊢
    rw [getElem?_insertAfter]
    rcases lt_trichotomy p (placeOf keep l) with hlt | rfl | hgt
    · rw [if_pos hlt, Function.update_of_ne hlt.ne, shifted, if_neg (by omega)]
      exact hall p (by omega)
    · rw [if_neg (lt_irrefl _), if_pos rfl, Function.update_self]
    · rw [if_neg (by omega), if_neg (by omega), Function.update_of_ne hgt.ne', shifted]
      have hpj : p ≤ if n < k then n else n - 1 := by
        split at hp <;> split <;> omega
      rw [if_pos ⟨hgt, hpj⟩]
      exact hall (p - 1) (by omega)

end Turn

end Sf37.Run

/-
Sf37.Store.Keyed — lists whose elements are found by a key.

A radix tree and a linked list over the same elements are one list here: found by
key, in the order of the links. `Unique key l` says that the tree has one element
for each key.

* `lookup_eq_some_iff`: what is found is what is there.
* `perm_cons_remove`: an element and what is left when it is removed.
* `mem_update`: an update touches the elements under its key only.
* `Indexes.insert`, `Indexes.erase`: a tree that is kept beside a list.
-/
import Mathlib.Data.List.Nodup
import Mathlib.Data.List.Perm.Basic
import Mathlib.Logic.Function.Basic

namespace Sf37.Store

variable {α κ : Type} [DecidableEq κ]

/-- The element under a key. -/
def lookup (key : α → κ) (k : κ) (l : List α) : Option α := l.find? fun x => key x = k

/-- Everything but the element under a key. -/
def remove (key : α → κ) (k : κ) (l : List α) : List α := l.filter fun x => key x ≠ k

/-- Change the element under a key. -/
def update (key : α → κ) (k : κ) (f : α → α) (l : List α) : List α :=
  l.map fun x => if key x = k then f x else x

/-- No two elements have the same key. -/
def Unique (key : α → κ) (l : List α) : Prop := (l.map key).Nodup

section
variable {key : α → κ} {k : κ} {l : List α} {x y : α}

/-! ## Looking up -/

omit [DecidableEq κ] in
theorem Unique.eq (h : Unique key l) (hx : x ∈ l) (hy : y ∈ l) (hk : key x = key y) : x = y :=
  List.inj_on_of_nodup_map h hx hy hk

theorem lookup_eq_some_iff (h : Unique key l) : lookup key k l = some x ↔ x ∈ l ∧ key x = k := by
  constructor
  · intro hx
    exact ⟨List.mem_of_find?_eq_some hx, by simpa using List.find?_some hx⟩
  · intro ⟨hx, hk⟩
    cases hf : lookup key k l with
    | none => exact absurd hk (by simpa using List.find?_eq_none.mp hf x hx)
    | some y =>
      have hy : y ∈ l := List.mem_of_find?_eq_some hf
      have hky : key y = k := by simpa using List.find?_some hf
      rw [h.eq hy hx (hky.trans hk.symm)]

theorem lookup_eq_none_iff : lookup key k l = none ↔ ∀ x ∈ l, key x ≠ k := by
  simp [lookup]

/-! ## Removing -/

theorem mem_remove : x ∈ remove key k l ↔ x ∈ l ∧ key x ≠ k := by simp [remove]

theorem Unique.remove (h : Unique key l) : Unique key (remove key k l) :=
  List.Nodup.sublist (List.filter_sublist.map key) h

theorem remove_eq_self (h : ∀ x ∈ l, key x ≠ k) : remove key k l = l :=
  List.filter_eq_self.mpr fun x hx => by simpa using h x hx

/-- The elements on the two sides stay. -/
theorem remove_split {a b : List α} (h : Unique key (a ++ x :: b)) :
    remove key (key x) (a ++ x :: b) = a ++ b := by
  rw [Unique, List.map_append, List.map_cons] at h
  obtain ⟨-, hxb, hdisj⟩ := List.nodup_append.mp h
  rw [remove, List.filter_append, List.filter_cons_of_neg (by simp), ← List.filter_append]
  refine remove_eq_self fun y hy hk => ?_
  rcases List.mem_append.mp hy with hy | hy
  · exact hdisj (key y) (List.mem_map_of_mem hy) (key x) (by simp) hk
  · exact (List.nodup_cons.mp hxb).1 (hk ▸ List.mem_map_of_mem hy)

/-- An element with what is left without it is the whole list. -/
theorem perm_cons_remove (h : Unique key l) (hx : x ∈ l) : l.Perm (x :: remove key (key x) l) := by
  induction l with
  | nil => simp at hx
  | cons y l ih =>
    obtain ⟨hy, hl⟩ := List.nodup_cons.mp h
    rcases List.mem_cons.mp hx with rfl | hxl
    · have hne : ∀ z ∈ l, key z ≠ key x := fun z hz hk => hy (List.mem_map.mpr ⟨z, hz, hk⟩)
      have hrem : remove key (key x) (x :: l) = l := by
        rw [remove, List.filter_cons_of_neg (by simp)]
        exact remove_eq_self hne
      rw [hrem]
    · have hne : key y ≠ key x := fun hk => hy (List.mem_map.mpr ⟨x, hxl, hk.symm⟩)
      have hrem : remove key (key x) (y :: l) = y :: remove key (key x) l :=
        List.filter_cons_of_pos (by simpa using hne)
      rw [hrem]
      exact ((ih hl hxl).cons y).trans (List.Perm.swap x y _)

theorem length_remove_lt (key : α → κ) (hx : x ∈ l) : (remove key (key x) l).length < l.length := by
  refine List.length_filter_lt_length_iff_exists.mpr ⟨x, hx, by simp⟩

/-- Removing the last element drops it. -/
theorem remove_getLast (h : Unique key l) (hx : l.getLast? = some x) :
    remove key (key x) l = l.dropLast := by
  obtain ⟨ys, rfl⟩ := List.getLast?_eq_some_iff.mp hx
  have hdisj : ∀ y ∈ ys, key y ≠ key x := by
    intro y hy hk
    rw [Unique, List.map_append] at h
    exact (List.nodup_append.mp h).2.2 _ (List.mem_map_of_mem hy) (key x) (by simp) hk
  rw [remove, List.filter_append, List.dropLast_concat]
  have hlast : [x].filter (fun y => decide (key y ≠ key x)) = [] := by simp
  rw [hlast, List.append_nil]
  exact remove_eq_self hdisj

/-! ## Changing -/

theorem map_update {β : Type} {f : α → α} {g : α → β} (hg : ∀ x, g (f x) = g x) :
    (update key k f l).map g = l.map g := by
  rw [update, List.map_map]
  refine List.map_congr_left fun x _ => ?_
  dsimp only [Function.comp]
  split
  · exact hg x
  · rfl

theorem Unique.update {f : α → α} (h : Unique key l) (hf : ∀ x, key (f x) = key x) :
    Unique key (update key k f l) := by
  rw [Unique, map_update hf]
  exact h

theorem mem_update {f : α → α} :
    y ∈ update key k f l ↔ (∃ x ∈ l, key x = k ∧ y = f x) ∨ (y ∈ l ∧ key y ≠ k) := by
  simp only [update, List.mem_map]
  constructor
  · rintro ⟨x, hx, rfl⟩
    by_cases hk : key x = k
    · exact Or.inl ⟨x, hx, hk, by rw [if_pos hk]⟩
    · exact Or.inr (by rw [if_neg hk]; exact ⟨hx, hk⟩)
  · rintro (⟨x, hx, hk, rfl⟩ | ⟨hy, hk⟩)
    · exact ⟨x, hx, by rw [if_pos hk]⟩
    · exact ⟨y, hy, by rw [if_neg hk]⟩

theorem update_update {f g : α → α} (hf : ∀ x, key (f x) = key x) :
    update key k g (update key k f l) = update key k (fun x => g (f x)) l := by
  rw [update, update, List.map_map]
  refine List.map_congr_left fun x _ => ?_
  dsimp only [Function.comp]
  by_cases hk : key x = k
  · simp only [if_pos hk, if_pos ((hf x).trans hk)]
  · simp only [if_neg hk]

theorem remove_update {f : α → α} (hf : ∀ x, key (f x) = key x) :
    remove key k (update key k f l) = remove key k l := by
  induction l with
  | nil => rfl
  | cons x l ih =>
    rw [update, List.map_cons]
    by_cases hk : key x = k
    · rw [if_pos hk, remove, List.filter_cons_of_neg (by simp [hf, hk]), remove,
        List.filter_cons_of_neg (by simp [hk])]
      exact ih
    · rw [if_neg hk, remove, List.filter_cons_of_pos (by simp [hk]), remove,
        List.filter_cons_of_pos (by simp [hk])]
      exact congrArg _ ih

theorem lookup_update {f : α → α} (hf : ∀ x, key (f x) = key x) :
    lookup key k (update key k f l) = (lookup key k l).map f := by
  induction l with
  | nil => rfl
  | cons x l ih =>
    rw [update, List.map_cons, lookup, lookup]
    by_cases hk : key x = k
    · rw [if_pos hk, List.find?_cons_of_pos (by simp [hf, hk]),
        List.find?_cons_of_pos (by simp [hk]), Option.map_some]
    · rw [if_neg hk, List.find?_cons_of_neg (by simp [hk]), List.find?_cons_of_neg (by simp [hk])]
      exact ih

/-! ## Trees beside a list -/

theorem erase_append_cons [DecidableEq α] {a b : List α} (h : (a ++ x :: b).Nodup) :
    (a ++ x :: b).erase x = a ++ b := by
  have hx : x ∉ a := fun hm => (List.nodup_append.mp h).2.2 x hm x List.mem_cons_self rfl
  rw [List.erase_append_right _ hx, List.erase_cons_head]

/-- The marked elements are those of a list. -/
def Marks (used : α → Bool) (l : List α) : Prop := ∀ a, used a = true ↔ a ∈ l

omit [DecidableEq κ] in
theorem Marks.insert [DecidableEq α] {used : α → Bool} (h : Marks used l) (new : α) :
    Marks (Function.update used new true) (new :: l) := by
  intro a
  rw [List.mem_cons, ← h]
  by_cases ha : a = new
  · simp [ha]
  · simp [ha]

omit [DecidableEq κ] in
theorem Marks.erase [DecidableEq α] {used : α → Bool} {l' : List α} (h : Marks used l)
    (hl' : ∀ a, a ∈ l' ↔ a ∈ l ∧ a ≠ x) : Marks (Function.update used x false) l' := by
  intro a
  rw [hl', ← h]
  by_cases ha : a = x
  · simp [ha]
  · simp [ha]

/-- A tree finds the elements of a list by their keys. -/
def Indexes (tree : κ → Option α) (l : List α) (key : α → κ) : Prop :=
  ∀ k a, tree k = some a ↔ a ∈ l ∧ key a = k

omit [DecidableEq κ] in
/-- Different elements have different keys. -/
theorem Indexes.inj {tree : κ → Option α} (h : Indexes tree l key) (hx : x ∈ l) (hy : y ∈ l)
    (hk : key x = key y) : x = y := by
  have h1 := (h (key x) x).mpr ⟨hx, rfl⟩
  have h2 := (h (key x) y).mpr ⟨hy, hk.symm⟩
  exact Option.some.inj (h1.symm.trans h2)

/-- A new element under a new key. -/
theorem Indexes.insert [DecidableEq α] {tree : κ → Option α} {new : α} (h : Indexes tree l key)
    (hnew : new ∉ l) (hk : ∀ a ∈ l, key a ≠ k) :
    Indexes (Function.update tree k (some new)) (new :: l) (Function.update key new k) := by
  intro i a
  rw [List.mem_cons]
  by_cases ha : a = new
  · subst ha
    rw [Function.update_self, Function.update_apply]
    split
    next hi => simp [hi]
    next hi =>
      have hno : ¬ tree i = some a := fun hf => hnew ((h i a).mp hf).1
      simp [hno, Ne.symm hi]
  · rw [Function.update_of_ne ha, Function.update_apply]
    split
    next hi =>
      subst hi
      have hno : ¬ (a ∈ l ∧ key a = i) := fun hf => hk a hf.1 hf.2
      simp only [Option.some.injEq, ha, false_or, hno, iff_false]
      exact fun heq => ha heq.symm
    next =>
      rw [h i a]
      simp [ha]

/-- An element goes, with its key. -/
theorem Indexes.erase {tree : κ → Option α} {l' : List α} (h : Indexes tree l key) (hx : x ∈ l)
    (hl' : ∀ a, a ∈ l' ↔ a ∈ l ∧ a ≠ x) :
    Indexes (Function.update tree (key x) none) l' key := by
  intro i a
  rw [hl']
  by_cases hi : i = key x
  · subst hi
    simp only [Function.update_self, reduceCtorEq, false_iff, not_and]
    rintro ⟨ha, hne⟩ hk
    exact hne (h.inj ha hx hk)
  · rw [Function.update_of_ne hi, h i a]
    constructor
    · rintro ⟨ha, rfl⟩
      exact ⟨⟨ha, fun heq => hi (by rw [heq])⟩, rfl⟩
    · rintro ⟨⟨ha, -⟩, hk⟩
      exact ⟨ha, hk⟩

end

end Sf37.Store

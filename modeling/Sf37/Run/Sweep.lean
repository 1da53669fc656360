/-
Sf37.Run.Sweep — values that pass through a row of cells, each with a memory of its own.

All values can pass through one cell before the next cell is looked at, or one value can
pass through all cells before the next value comes.

* `feed_append`: feeding the values of two lists one after the other.
* `sweep_feed`: cell by cell and value by value come to the same.
-/
import Mathlib.Logic.Function.Basic

namespace Sf37.Run

variable {ι H C : Type}

/-- Values pass through a cell one after the other; `t` counts them. -/
def feed (f : Nat → H → C → H × C) : Nat → List H → C → List H × C
  | _, [], c => ([], c)
  | t, h :: hs, c =>
      let first := f t h c
      let rest := feed f (t + 1) hs first.2
      (first.1 :: rest.1, rest.2)

@[simp] theorem feed_nil (f : Nat → H → C → H × C) (t : Nat) (c : C) :
    feed f t [] c = ([], c) := rfl

theorem feed_cons (f : Nat → H → C → H × C) (t : Nat) (h : H) (hs : List H) (c : C) :
    feed f t (h :: hs) c =
      ((f t h c).1 :: (feed f (t + 1) hs (f t h c).2).1, (feed f (t + 1) hs (f t h c).2).2) :=
  rfl

@[simp] theorem length_feed (f : Nat → H → C → H × C) (t : Nat) (hs : List H) (c : C) :
    (feed f t hs c).1.length = hs.length := by
  induction hs generalizing t c with
  | nil => rfl
  | cons h hs ih => simp [feed_cons, ih]

/-- Feeding one list after the other. -/
theorem feed_append (f : Nat → H → C → H × C) (t : Nat) (hs hs' : List H) (c : C) :
    feed f t (hs ++ hs') c =
      ((feed f t hs c).1 ++ (feed f (t + hs.length) hs' (feed f t hs c).2).1,
        (feed f (t + hs.length) hs' (feed f t hs c).2).2) := by
  induction hs generalizing t c with
  | nil => rfl
  | cons h hs ih =>
    simp only [List.cons_append, feed_cons, ih, List.length_cons]
    rw [Nat.add_right_comm, Nat.add_assoc]

section Sweep

variable [DecidableEq ι]

/-- A value passes through cells one after the other. -/
def sweep (f : ι → H → C → H × C) : List ι → H → (ι → C) → H × (ι → C)
  | [], h, mem => (h, mem)
  | i :: is, h, mem =>
      let out := f i h (mem i)
      sweep f is out.1 (Function.update mem i out.2)

@[simp] theorem sweep_nil (f : ι → H → C → H × C) (h : H) (mem : ι → C) :
    sweep f [] h mem = (h, mem) := rfl

theorem sweep_cons (f : ι → H → C → H × C) (i : ι) (is : List ι) (h : H) (mem : ι → C) :
    sweep f (i :: is) h mem =
      sweep f is (f i h (mem i)).1 (Function.update mem i (f i h (mem i)).2) := rfl

theorem sweep_append (f : ι → H → C → H × C) (is js : List ι) (h : H) (mem : ι → C) :
    sweep f (is ++ js) h mem = sweep f js (sweep f is h mem).1 (sweep f is h mem).2 := by
  induction is generalizing h mem with
  | nil => rfl
  | cons i is ih => simp only [List.cons_append, sweep_cons, ih]

/-- The memories of the other cells stay. -/
theorem sweep_frame (f : ι → H → C → H × C) {i : ι} {is : List ι} (hi : i ∉ is) (h : H)
    (mem : ι → C) : (sweep f is h mem).2 i = mem i := by
  induction is generalizing h mem with
  | nil => rfl
  | cons j is ih =>
    obtain ⟨hne, hrest⟩ := not_or.mp (mt List.mem_cons.mpr hi)
    rw [sweep_cons, ih hrest, Function.update_of_ne hne]

/-- A cell's memory is what the value leaves that the cells before have passed on. -/
theorem sweep_cell (f : ι → H → C → H × C) {i : ι} {is js : List ι} (hi : i ∉ is) (hj : i ∉ js)
    (h : H) (mem : ι → C) :
    (sweep f (is ++ i :: js) h mem).2 i = (f i (sweep f is h mem).1 (mem i)).2 := by
  rw [sweep_append, sweep_cons, sweep_frame f hj, Function.update_self, sweep_frame f hi]

/-- Nor does the memory of another cell matter. -/
theorem sweep_update (f : ι → H → C → H × C) {i : ι} {is : List ι} (hi : i ∉ is) (h : H)
    (mem : ι → C) (c : C) :
    sweep f is h (Function.update mem i c) =
      ((sweep f is h mem).1, Function.update (sweep f is h mem).2 i c) := by
  induction is generalizing h mem with
  | nil => rfl
  | cons j is ih =>
    obtain ⟨hne, hrest⟩ := not_or.mp (mt List.mem_cons.mpr hi)
    rw [sweep_cons, sweep_cons, Function.update_of_ne (Ne.symm hne),
      Function.update_comm hne, ih hrest]

/-- Cells that do the same to the values that come. -/
theorem sweep_congr {f g : ι → H → C → H × C} {P : H → Prop} {is : List ι}
    (heq : ∀ i ∈ is, ∀ h c, P h → f i h c = g i h c ∧ P (g i h c).1) {h : H} (hP : P h)
    (mem : ι → C) : sweep f is h mem = sweep g is h mem := by
  induction is generalizing h mem with
  | nil => rfl
  | cons i is ih =>
    obtain ⟨hcell, hnext⟩ := heq i List.mem_cons_self h (mem i) hP
    rw [sweep_cons, sweep_cons, hcell]
    exact ih (fun j hj => heq j (List.mem_cons_of_mem i hj)) hnext _

/-- The first value goes ahead of the others through all the cells. -/
theorem sweep_feed_cons (f : ι → Nat → H → C → H × C) (t : Nat) {is : List ι} (hnodup : is.Nodup)
    (h : H) (hs : List H) (mem : ι → C) :
    sweep (fun i => feed (f i) t) is (h :: hs) mem =
      let first := sweep (fun i => f i t) is h mem
      let rest := sweep (fun i => feed (f i) (t + 1)) is hs first.2
      (first.1 :: rest.1, rest.2) := by
  induction is generalizing h hs mem with
  | nil => rfl
  | cons i is ih =>
    obtain ⟨hi, hrest⟩ := List.nodup_cons.mp hnodup
    simp only [sweep_cons, feed_cons]
    rw [ih hrest]
    -- what the cell has after all values is what it has after the first, fed with the others
    have hmem : (sweep (fun i => f i t) is (f i t h (mem i)).1
        (Function.update mem i (f i t h (mem i)).2)).2 i = (f i t h (mem i)).2 := by
      rw [sweep_frame _ hi, Function.update_self]
    simp only [hmem]
    simp only [sweep_update _ hi, Function.update_idem]

/-- Cell by cell is value by value. -/
theorem sweep_feed (f : ι → Nat → H → C → H × C) {is : List ι} (hnodup : is.Nodup) (t : Nat)
    (hs : List H) (mem : ι → C) :
    sweep (fun i => feed (f i) t) is hs mem =
      feed (fun t h mem => sweep (fun i => f i t) is h mem) t hs mem := by
  induction hs generalizing t mem with
  | nil =>
    induction is generalizing mem with
    | nil => rfl
    | cons i is ih =>
      rw [sweep_cons, feed_nil, Function.update_eq_self]
      exact ih (List.nodup_cons.mp hnodup).2 mem
  | cons h hs ih =>
    rw [sweep_feed_cons f t hnodup, feed_cons]
    simp only [ih]

end Sweep

end Sf37.Run

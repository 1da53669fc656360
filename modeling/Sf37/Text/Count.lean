/-
Sf37.Text.Count — how often a tag stands in a text, and where texts may be joined
without making one.

A tag opens with one element, closes with another, and holds neither in between. So
no tag crosses a joint whose right side begins with the opening element or whose
left side ends with the closing one, and there the counts add up.

* `countOcc_append_opened`, `countOcc_append_closed`: the two joints.
* `countOcc_flatMap`: a text made of pieces that each open.
-/
import Sf37.Text.Occurrence
import Mathlib.Algebra.GroupWithZero.Nat

namespace Sf37.Text

variable {α β : Type}

/-! ## Tags -/

/-- `o` opens the pattern, `c` closes it, and neither comes back inside it. -/
structure Tag (o c : α) (n : List α) : Prop extends Guarded o n where
  last : n.getLast? = some c
  init : c ∉ n.dropLast

instance [DecidableEq α] (o c : α) (n : List α) : Decidable (Tag o c n) :=
  decidable_of_iff (Guarded o n ∧ n.getLast? = some c ∧ c ∉ n.dropLast)
    ⟨fun h => ⟨h.1, h.2.1, h.2.2⟩, fun h => ⟨h.toGuarded, h.last, h.init⟩⟩

/-- The text is empty or begins with the element. -/
def Opens (o : α) (s : List α) : Prop := ∀ x, s.head? = some x → x = o

/-- The text is empty or ends with the element. -/
def Closes (c : α) (s : List α) : Prop := ∀ x, s.getLast? = some x → x = c

@[simp] theorem opens_nil (o : α) : Opens o ([] : List α) := by simp [Opens]

@[simp] theorem opens_cons {o x : α} {s : List α} : Opens o (x :: s) ↔ x = o := by simp [Opens]

theorem Opens.append {o : α} {s t : List α} (hs : Opens o s) (ht : Opens o t) :
    Opens o (s ++ t) := by
  cases s with
  | nil => exact ht
  | cons x s => simpa using hs

theorem Closes.append_left {c : α} {s : List α} (hne : s ≠ []) (h : Closes c s) (t : List α) :
    Closes c (t ++ s) := by
  intro x hx
  rw [List.getLast?_append_of_ne_nil t hne] at hx
  exact h x hx

theorem Opens.flatMap {o : α} {f : β → List α} : ∀ {l : List β}, (∀ x ∈ l, Opens o (f x)) →
    Opens o (l.flatMap f)
  | [], _ => opens_nil o
  | x :: l, h => by
      rw [List.flatMap_cons]
      exact (h x (by simp)).append (Opens.flatMap fun y hy => h y (by simp [hy]))

/-- An occurrence across a joint holds the left side in front of something more. -/
theorem crossing {n s t : List α} (h : n <+: s ++ t) (hs : ¬ n <+: s) :
    ∃ y r, n = s ++ y :: r ∧ y :: r <+: t := by
  rcases List.prefix_or_prefix_of_prefix h (List.prefix_append s t) with hp | ⟨r, rfl⟩
  · exact absurd hp hs
  · cases r with
    | nil => exact absurd (by simp) hs
    | cons y r => exact ⟨y, r, rfl, (List.prefix_append_right_inj s).mp h⟩

/-! ## Joints -/

variable [DecidableEq α]

/-- At how many offsets of a text the pattern starts. -/
def countOcc (n : List α) : List α → Nat
  | [] => 0
  | c :: s => (if n <+: c :: s then 1 else 0) + countOcc n s

theorem countOcc_eq_zero_iff {n : List α} (hn : n ≠ []) {s : List α} :
    countOcc n s = 0 ↔ ¬ n <:+: s := by
  induction s with
  | nil => simp [countOcc, hn]
  | cons c s ih =>
    rw [countOcc, List.infix_cons_iff, not_or, ← ih]
    split <;> simp_all

/-- Counts add up where no occurrence crosses the joint. -/
theorem countOcc_append {n t : List α} : ∀ {s : List α},
    (∀ k, k < s.length → n <+: s.drop k ++ t → n <+: s.drop k) →
    countOcc n (s ++ t) = countOcc n s + countOcc n t
  | [], _ => by simp [countOcc]
  | x :: s, h => by
      have ih := countOcc_append (n := n) (t := t) (s := s) fun k hk => by
        simpa using h (k + 1) (by simpa using hk)
      have h0 : n <+: x :: (s ++ t) ↔ n <+: x :: s :=
        ⟨fun hp => by simpa using h 0 (by simp) (by simpa using hp),
          fun hp => hp.trans (List.prefix_append (x :: s) t)⟩
      simp only [List.cons_append, countOcc, h0, ih]
      omega

theorem countOcc_append_opened {o : α} {n t : List α} (g : Guarded o n) (ht : Opens o t)
    (s : List α) : countOcc n (s ++ t) = countOcc n s + countOcc n t := by
  refine countOcc_append fun k hk h => Decidable.byContradiction fun hs => ?_
  obtain ⟨y, r, rfl, hy⟩ := crossing h hs
  have hyo : y = o := ht y (by
    obtain ⟨u, rfl⟩ := hy
    rfl)
  -- the opening element of `t` stands inside the pattern
  cases hd : s.drop k with
  | nil => simp at hd; omega
  | cons x u =>
    have := g.tail
    simp [hd, hyo] at this

theorem countOcc_append_closed {o c : α} {n s : List α} (g : Tag o c n) (hs : Closes c s)
    (t : List α) : countOcc n (s ++ t) = countOcc n s + countOcc n t := by
  refine countOcc_append fun k hk h => Decidable.byContradiction fun hn => ?_
  obtain ⟨y, r, rfl, -⟩ := crossing h hn
  have hlast : (s.drop k).getLast? = s.getLast? := by
    rw [List.getLast?_drop, if_neg (by omega)]
  obtain ⟨x, hx⟩ : ∃ x, (s.drop k).getLast? = some x :=
    ⟨_, List.getLast?_eq_some_getLast (by simp; omega)⟩
  have hxc : x = c := hs x (hlast ▸ hx)
  apply g.init
  rw [List.dropLast_append_of_ne_nil (by simp)]
  exact List.mem_append_left _ (hxc ▸ List.mem_of_getLast? hx)

/-- A text without the opening element holds nothing. -/
theorem countOcc_append_of_notMem {o : α} {n : List α} (g : Guarded o n) (t : List α) :
    ∀ {s : List α}, o ∉ s → countOcc n (s ++ t) = countOcc n t
  | [], _ => rfl
  | x :: s, h => by
      rw [List.mem_cons, not_or] at h
      have hx : ¬ n <+: x :: (s ++ t) := fun hp => h.1 (by
        have := g.getElem?_start (occursAt_zero.mpr hp)
        simpa using this.symm)
      simp only [List.cons_append, countOcc, if_neg hx, countOcc_append_of_notMem g t h.2,
        Nat.zero_add]

/-! ## Pieces that each open -/

theorem countOcc_flatMap {o : α} {n : List α} (g : Guarded o n) {f : β → List α} :
    ∀ {l : List β}, (∀ x ∈ l, Opens o (f x)) →
      countOcc n (l.flatMap f) = (l.map fun x => countOcc n (f x)).sum
  | [], _ => rfl
  | x :: l, h => by
      have hl : ∀ y ∈ l, Opens o (f y) := fun y hy => h y (by simp [hy])
      rw [List.flatMap_cons, countOcc_append_opened g (Opens.flatMap hl), countOcc_flatMap g hl,
        List.map_cons, List.sum_cons]

end Sf37.Text

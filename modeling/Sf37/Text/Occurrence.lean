/-
Sf37.Text.Occurrence — occurrences of a pattern in a list, and the three
scans every text routine of the server is built from.

* `OccursAt n s i` says that the pattern `n` starts at offset `i` of `s`.
  `firstOcc` and `lastOcc` compute the first and the last such offset, and
  their `_iff` lemmas are the only facts about them a proof needs.
* `retreat p s lo e` walks `e` down while the element before it satisfies
  `p`, never below `lo`: the shape of every trailing-whitespace trim.
* `lastBefore p s lo e` looks back from `e` for the nearest element that
  satisfies `p`, never below `lo`.

`Guarded c n` is the property that makes markers behave: the element `c`
opens the pattern and does not come back inside it. Two guarded patterns
with the same opening element never overlap (`Guarded.disjoint`), and a
guarded pattern cut off by the end of a prefix starts at the last `c` of
that prefix (`Guarded.cut_start`). Nothing here is about bytes; the element
type is arbitrary.
-/
import Mathlib.Data.List.Infix

namespace Sf37.Text

variable {α : Type}

/-! ## Occurrences -/

/-- The pattern `n` starts at offset `i` of `s`. -/
def OccursAt (n s : List α) (i : Nat) : Prop := n <+: s.drop i

instance [DecidableEq α] (n s : List α) (i : Nat) : Decidable (OccursAt n s i) :=
  inferInstanceAs (Decidable (n <+: s.drop i))

theorem occursAt_zero {n s : List α} : OccursAt n s 0 ↔ n <+: s := by
  simp [OccursAt]

/-- Offsets into a suffix are offsets into the whole, shifted. -/
theorem occursAt_drop {n s : List α} {k i : Nat} :
    OccursAt n (s.drop k) i ↔ OccursAt n s (k + i) := by
  simp [OccursAt, List.drop_drop]

theorem not_occursAt_nil {n : List α} (hn : n ≠ []) (i : Nat) : ¬ OccursAt n [] i := by
  simp [OccursAt, hn]

/-- An occurrence of a nonempty pattern lies inside the list. -/
theorem OccursAt.add_length_le {n s : List α} {i : Nat} (hn : n ≠ [])
    (h : OccursAt n s i) : i + n.length ≤ s.length := by
  have hlen : n.length ≤ (s.drop i).length := List.IsPrefix.length_le h
  have hpos : 0 < n.length := List.length_pos_iff.mpr hn
  rw [List.length_drop] at hlen
  omega

/-- An occurrence is read off element by element. -/
theorem occursAt_iff_getElem? {n s : List α} {i : Nat} :
    OccursAt n s i ↔ ∀ k, k < n.length → s[i + k]? = n[k]? := by
  rw [OccursAt, List.prefix_iff_getElem?]
  constructor
  · intro h k hk
    rw [List.getElem?_eq_getElem hk, ← h k hk, List.getElem?_drop]
  · intro h k hk
    rw [List.getElem?_drop, h k hk, List.getElem?_eq_getElem hk]

/-- Inside a prefix an occurrence must end before the cut. -/
theorem occursAt_take {n s : List α} {p i : Nat} (hn : n ≠ []) :
    OccursAt n (s.take p) i ↔ OccursAt n s i ∧ i + n.length ≤ p := by
  constructor
  · intro h
    have hlen := h.add_length_le hn
    rw [List.length_take] at hlen
    refine ⟨occursAt_iff_getElem?.mpr fun k hk => ?_, by omega⟩
    rw [← occursAt_iff_getElem?.mp h k hk, List.getElem?_take, if_pos (by omega)]
  · rintro ⟨h, hp⟩
    refine occursAt_iff_getElem?.mpr fun k hk => ?_
    rw [List.getElem?_take, if_pos (by omega)]
    exact occursAt_iff_getElem?.mp h k hk

theorem occursAt_append_left {n t s : List α} {i : Nat} :
    OccursAt n (t ++ s) (t.length + i) ↔ OccursAt n s i := by
  rw [← occursAt_drop, List.drop_left]

/-- Appending text keeps the occurrences that were there. -/
theorem OccursAt.append_right {n s : List α} {i : Nat} (hn : n ≠ [])
    (h : OccursAt n s i) (t : List α) : OccursAt n (s ++ t) i := by
  have hlen := h.add_length_le hn
  have htake : (s ++ t).take s.length = s := List.take_left
  rw [← htake] at h
  exact ((occursAt_take hn).mp h).1

/-! ## Guarded patterns -/

/-- `c` opens the pattern and does not come back inside it. -/
structure Guarded (c : α) (n : List α) : Prop where
  head : n.head? = some c
  tail : c ∉ n.tail

instance [DecidableEq α] (c : α) (n : List α) : Decidable (Guarded c n) :=
  decidable_of_iff (n.head? = some c ∧ c ∉ n.tail)
    ⟨fun h => ⟨h.1, h.2⟩, fun h => ⟨h.head, h.tail⟩⟩

theorem Guarded.ne_nil {c : α} {n : List α} (g : Guarded c n) : n ≠ [] := by
  rintro rfl
  simpa using g.head

/-- The opening element stands at the start of an occurrence. -/
theorem Guarded.getElem?_start {c : α} {n s : List α} {i : Nat} (g : Guarded c n)
    (h : OccursAt n s i) : s[i]? = some c := by
  have h0 := occursAt_iff_getElem?.mp h 0 (List.length_pos_iff.mpr g.ne_nil)
  rwa [Nat.add_zero, ← List.head?_eq_getElem?, g.head] at h0

/-- The opening element stands nowhere else inside an occurrence. -/
theorem Guarded.getElem?_inside {c : α} {n s : List α} {i j : Nat} (g : Guarded c n)
    (h : OccursAt n s i) (hij : i < j) (hj : j < i + n.length) : s[j]? ≠ some c := by
  obtain ⟨k, rfl⟩ : ∃ k, j = i + (k + 1) := ⟨j - i - 1, by omega⟩
  rw [occursAt_iff_getElem?.mp h (k + 1) (by omega)]
  intro hc
  apply g.tail
  rw [List.mem_iff_getElem?]
  refine ⟨k, ?_⟩
  rwa [List.getElem?_tail]

/-- Two patterns guarded by one element never overlap. -/
theorem Guarded.disjoint {c : α} {m n s : List α} {i j : Nat} (gm : Guarded c m)
    (gn : Guarded c n) (hm : OccursAt m s i) (hn : OccursAt n s j) (hij : i < j) :
    i + m.length ≤ j := by
  rcases Nat.lt_or_ge j (i + m.length) with h | h
  · exact absurd (gn.getElem?_start hn) (gm.getElem?_inside hm hij h)
  · exact h

/-- An occurrence that starts before `p` and ends after it opens at the
last `c` before `p`. -/
theorem Guarded.cut_start {c : α} {n s : List α} {i p m : Nat} (g : Guarded c n)
    (h : OccursAt n s i) (hip : i < p) (hp : p < i + n.length)
    (hm : s[m]? = some c) (hmp : m < p) (hlast : ∀ k, m < k → k < p → s[k]? ≠ some c) :
    m = i := by
  rcases Nat.lt_trichotomy m i with hlt | heq | hgt
  · exact absurd (g.getElem?_start h) (hlast i hlt hip)
  · exact heq
  · exact absurd hm (g.getElem?_inside h hgt (by omega))

/-! ## Walking back over a tail -/

/-- Walk `e` down while the element before it satisfies `p`, never below
`lo`. -/
def retreat (p : α → Bool) (s : List α) (lo : Nat) : Nat → Nat
  | 0 => 0
  | e + 1 => if lo < e + 1 ∧ s[e]?.any p = true then retreat p s lo e else e + 1

theorem retreat_le (p : α → Bool) (s : List α) (lo e : Nat) : retreat p s lo e ≤ e := by
  induction e with
  | zero => simp [retreat]
  | succ e ih =>
    rw [retreat]
    split
    · omega
    · exact Nat.le_refl _

theorem le_retreat {p : α → Bool} {s : List α} {lo e : Nat} (h : lo ≤ e) :
    lo ≤ retreat p s lo e := by
  induction e with
  | zero => simpa [retreat] using h
  | succ e ih =>
    rw [retreat]
    split
    · exact ih (by omega)
    · exact h

/-- Everything walked over satisfies `p`. -/
theorem retreat_skipped {p : α → Bool} {s : List α} {l e k : Nat}
    (hk : retreat p s l e ≤ k) (hke : k < e) : s[k]?.any p = true := by
  induction e with
  | zero => omega
  | succ e ih =>
    rw [retreat] at hk
    split at hk
    · rename_i hc
      rcases Nat.lt_or_ge k e with h | h
      · exact ih hk h
      · have : k = e := by omega
        rw [this]; exact hc.2
    · omega

/-- The walk stops at `lo` or just after an element that fails `p`. -/
theorem retreat_stop {p : α → Bool} {s : List α} {lo e : Nat} (h : lo ≤ e) :
    retreat p s lo e = lo ∨
      (lo < retreat p s lo e ∧ s[retreat p s lo e - 1]?.any p = false) := by
  induction e with
  | zero => left; simp [retreat]; omega
  | succ e ih =>
    rw [retreat]
    split
    · rename_i hc
      exact ih (by omega)
    · rename_i hc
      rcases Nat.lt_or_ge lo (e + 1) with hlt | hge
      · right
        refine ⟨hlt, ?_⟩
        simpa [hlt] using hc
      · left; omega

/-- The walk never passes an element that fails `p`. -/
theorem lt_retreat_of_not {p : α → Bool} {s : List α} (lo : Nat) {e k : Nat} (hke : k < e)
    (hk : s[k]?.any p = false) : k < retreat p s lo e := by
  rcases Nat.lt_or_ge k (retreat p s lo e) with h | h
  · exact h
  · simp [retreat_skipped h hke] at hk

/-- Raising the floor of the walk only raises the result to the floor. -/
theorem retreat_floor {p : α → Bool} {s : List α} {lo lo' e : Nat} (hlo : lo ≤ lo')
    (he : lo' ≤ e) : retreat p s lo' e = max lo' (retreat p s lo e) := by
  induction e with
  | zero => simp [retreat]; omega
  | succ e ih =>
    by_cases hp : s[e]?.any p = true
    · by_cases hlt : lo' < e + 1
      · rw [retreat, if_pos ⟨hlt, hp⟩, ih (by omega), retreat, if_pos ⟨by omega, hp⟩]
      · have hle := retreat_le p s lo (e + 1)
        rw [retreat, if_neg (by simp [hlt])]
        omega
    · rw [retreat, if_neg (by simp [hp]), retreat, if_neg (by simp [hp])]
      omega

/-- Starting the walk behind elements it passes over changes nothing. -/
theorem retreat_over {p : α → Bool} {s : List α} {lo d e : Nat} (hlo : lo ≤ d) (hde : d ≤ e)
    (h : ∀ k, d ≤ k → k < e → s[k]?.any p = true) : retreat p s lo e = retreat p s lo d := by
  induction e with
  | zero => rw [show d = 0 by omega]
  | succ e ih =>
    rcases Nat.lt_or_ge e d with hlt | hge
    · rw [show d = e + 1 by omega]
    · rw [retreat, if_pos ⟨by omega, h e hge (by omega)⟩]
      exact ih hge fun k hk hke => h k hk (by omega)

/-- The walk reads only the elements below its start. -/
theorem retreat_congr {p : α → Bool} {s t : List α} {lo e : Nat}
    (h : ∀ k, k < e → s[k]? = t[k]?) : retreat p s lo e = retreat p t lo e := by
  induction e with
  | zero => rfl
  | succ e ih =>
    rw [retreat, retreat, h e (by omega), ih fun k hk => h k (by omega)]

/-! ## Looking back -/

/-- The nearest element before `e`, not below `lo`, that satisfies `p`. -/
def lastBefore (p : α → Bool) (s : List α) (lo : Nat) : Nat → Option Nat
  | 0 => none
  | e + 1 =>
      if lo < e + 1 then
        if s[e]?.any p = true then some e else lastBefore p s lo e
      else none

theorem lastBefore_eq_some {p : α → Bool} {s : List α} {lo e m : Nat}
    (h : lastBefore p s lo e = some m) :
    lo ≤ m ∧ m < e ∧ s[m]?.any p = true ∧
      ∀ k, m < k → k < e → s[k]?.any p = false := by
  induction e with
  | zero => simp [lastBefore] at h
  | succ e ih =>
    rw [lastBefore] at h
    split at h
    · split at h
      · rename_i hlo hp
        obtain rfl : e = m := by simpa using h
        exact ⟨by omega, by omega, hp, fun k _ _ => by omega⟩
      · rename_i hlo hp
        obtain ⟨h1, h2, h3, h4⟩ := ih h
        refine ⟨h1, by omega, h3, fun k hk hke => ?_⟩
        rcases Nat.lt_or_ge k e with hlt | hge
        · exact h4 k hk hlt
        · have : k = e := by omega
          rw [this]; simpa using hp
    · simp at h

theorem lastBefore_eq_none {p : α → Bool} {s : List α} {lo e : Nat}
    (h : lastBefore p s lo e = none) :
    ∀ k, lo ≤ k → k < e → s[k]?.any p = false := by
  induction e with
  | zero => intro k _ hk; omega
  | succ e ih =>
    rw [lastBefore] at h
    intro k hlo hk
    rw [if_pos (by omega)] at h
    split at h
    · simp at h
    · rename_i hp
      rcases Nat.lt_or_ge k e with hlt | hge
      · exact ih h k hlo hlt
      · have : k = e := by omega
        rw [this]; simpa using hp

/-! ## First and last occurrence -/

/-- `o` is the first offset that satisfies `P`, or `none` when there is none. -/
def IsFirst (P : Nat → Prop) : Option Nat → Prop
  | none => ∀ i, ¬ P i
  | some i => P i ∧ ∀ j, j < i → ¬ P j

/-- There is only one first offset. -/
theorem IsFirst.unique {P : Nat → Prop} {o o' : Option Nat} (h : IsFirst P o)
    (h' : IsFirst P o') : o = o' := by
  cases o with
  | none =>
    cases o' with
    | none => rfl
    | some j => exact absurd h'.1 (h j)
  | some i =>
    cases o' with
    | none => exact absurd h.1 (h' i)
    | some j =>
      rcases Nat.lt_trichotomy i j with hlt | heq | hgt
      · exact absurd h.1 (h'.2 i hlt)
      · rw [heq]
      · exact absurd h'.1 (h.2 j hgt)

/-- First offsets depend on the predicate only up to equivalence. -/
theorem IsFirst.congr {P Q : Nat → Prop} {o : Option Nat} (h : IsFirst P o)
    (hpq : ∀ i, P i ↔ Q i) : IsFirst Q o := by
  cases o with
  | none => exact fun i hi => h i ((hpq i).mpr hi)
  | some i => exact ⟨(hpq i).mp h.1, fun j hj hq => h.2 j hj ((hpq j).mpr hq)⟩

variable [DecidableEq α]

/-- The offset of the first occurrence. -/
def firstOcc (n : List α) : List α → Option Nat
  | [] => if n = [] then some 0 else none
  | c :: s => if n <+: c :: s then some 0 else (firstOcc n s).map (· + 1)

/-- The offset of the last occurrence that starts inside the list. -/
def lastOcc (n : List α) : List α → Option Nat
  | [] => none
  | c :: s =>
      match lastOcc n s with
      | some i => some (i + 1)
      | none => if n <+: c :: s then some 0 else none

theorem firstOcc_eq_none_iff {n s : List α} (hn : n ≠ []) :
    firstOcc n s = none ↔ ∀ i, ¬ OccursAt n s i := by
  induction s with
  | nil => simp [firstOcc, hn, not_occursAt_nil hn]
  | cons c s ih =>
    by_cases hp : n <+: c :: s
    · simp only [firstOcc, if_pos hp, reduceCtorEq, false_iff]
      exact fun h => h 0 (occursAt_zero.mpr hp)
    · simp only [firstOcc, if_neg hp, Option.map_eq_none_iff, ih]
      constructor
      · intro h i
        cases i with
        | zero => exact fun h0 => hp (occursAt_zero.mp h0)
        | succ i => exact h i
      · exact fun h i => h (i + 1)

theorem firstOcc_eq_some_iff {n s : List α} (hn : n ≠ []) {i : Nat} :
    firstOcc n s = some i ↔ OccursAt n s i ∧ ∀ j, j < i → ¬ OccursAt n s j := by
  induction s generalizing i with
  | nil => simp [firstOcc, hn, not_occursAt_nil hn]
  | cons c s ih =>
    by_cases hp : n <+: c :: s
    · simp only [firstOcc, if_pos hp, Option.some.injEq]
      constructor
      · rintro rfl
        exact ⟨occursAt_zero.mpr hp, fun j hj => by omega⟩
      · rintro ⟨-, hmin⟩
        rcases Nat.eq_zero_or_pos i with h0 | hpos
        · exact h0.symm
        · exact absurd (occursAt_zero.mpr hp) (hmin 0 hpos)
    · simp only [firstOcc, if_neg hp, Option.map_eq_some_iff]
      constructor
      · rintro ⟨j, hj, rfl⟩
        obtain ⟨hocc, hmin⟩ := ih.mp hj
        refine ⟨hocc, fun k hk => ?_⟩
        cases k with
        | zero => exact fun h0 => hp (occursAt_zero.mp h0)
        | succ k => exact hmin k (by omega)
      · rintro ⟨hocc, hmin⟩
        cases i with
        | zero => exact absurd (occursAt_zero.mp hocc) hp
        | succ i =>
          exact ⟨i, ih.mpr ⟨hocc, fun j hj => hmin (j + 1) (by omega)⟩, rfl⟩

theorem firstOcc_isFirst {n : List α} (hn : n ≠ []) (s : List α) :
    IsFirst (OccursAt n s) (firstOcc n s) := by
  cases h : firstOcc n s with
  | none => exact (firstOcc_eq_none_iff hn).mp h
  | some i => exact (firstOcc_eq_some_iff hn).mp h

theorem lastOcc_eq_none_iff {n s : List α} (hn : n ≠ []) :
    lastOcc n s = none ↔ ∀ i, ¬ OccursAt n s i := by
  induction s with
  | nil => simp [lastOcc, not_occursAt_nil hn]
  | cons c s ih =>
    cases hl : lastOcc n s with
    | some i =>
      have hne : ¬ ∀ j, ¬ OccursAt n s j := fun h => by simp [ih.mpr h] at hl
      simp only [lastOcc, hl, reduceCtorEq, false_iff]
      exact fun h => hne fun j => h (j + 1)
    | none =>
      have hrest := ih.mp hl
      simp only [lastOcc, hl]
      constructor
      · intro h i
        cases i with
        | zero => intro h0; simp [occursAt_zero.mp h0] at h
        | succ i => exact hrest i
      · intro h
        rw [if_neg fun hp => h 0 (occursAt_zero.mpr hp)]

theorem lastOcc_eq_some_iff {n s : List α} (hn : n ≠ []) {i : Nat} :
    lastOcc n s = some i ↔ OccursAt n s i ∧ ∀ j, i < j → ¬ OccursAt n s j := by
  induction s generalizing i with
  | nil => simp [lastOcc, not_occursAt_nil hn]
  | cons c s ih =>
    cases hl : lastOcc n s with
    | some k =>
      obtain ⟨hocc, hmax⟩ := ih.mp hl
      simp only [lastOcc, hl, Option.some.injEq]
      constructor
      · rintro rfl
        refine ⟨hocc, fun j hj => ?_⟩
        cases j with
        | zero => omega
        | succ j => exact hmax j (by omega)
      · rintro ⟨hi, hmax'⟩
        cases i with
        | zero => exact absurd hocc (hmax' (k + 1) (by omega))
        | succ i =>
          rcases Nat.lt_trichotomy i k with h | h | h
          · exact absurd hocc (hmax' (k + 1) (by omega))
          · rw [h]
          · exact absurd hi (hmax i h)
    | none =>
      have hrest := (lastOcc_eq_none_iff hn).mp hl
      by_cases hp : n <+: c :: s
      · simp only [lastOcc, hl, if_pos hp, Option.some.injEq]
        constructor
        · rintro rfl
          refine ⟨occursAt_zero.mpr hp, fun j hj => ?_⟩
          cases j with
          | zero => omega
          | succ j => exact hrest j
        · rintro ⟨hi, -⟩
          cases i with
          | zero => rfl
          | succ i => exact absurd hi (hrest i)
      · simp only [lastOcc, hl, if_neg hp, reduceCtorEq, false_iff, not_and]
        intro hi
        cases i with
        | zero => exact absurd (occursAt_zero.mp hi) hp
        | succ i => exact absurd hi (hrest i)

end Sf37.Text

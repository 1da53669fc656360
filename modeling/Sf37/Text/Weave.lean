/-
Sf37.Text.Weave — a text cut at a tag, and the pieces put together with other tags.

* `exists_pieces`: a text is pieces without the tag and the tag between them.
* `firstOcc_piece`: behind a piece a search finds the tag that follows it.
* `countOcc_weave`: texts between the pieces that open and close like the tag make no tag with
  them.
-/
import Sf37.Text.Count

namespace Sf37.Text

variable {α : Type}

/-! ## Pieces -/

/-- The pieces with the tags between them. -/
def weave : List (List α) → List (List α) → List α
  | [], _ => []
  | p :: _, [] => p
  | p :: ps, t :: ts => p ++ (t ++ weave ps ts)

theorem Guarded.opens {o : α} {n : List α} (g : Guarded o n) : Opens o n :=
  fun _ hx => Option.some.inj (hx.symm.trans g.head)

theorem Tag.closes {o c : α} {n : List α} (g : Tag o c n) : Closes c n :=
  fun _ hx => Option.some.inj (hx.symm.trans g.last)

theorem infix_iff_occursAt {n s : List α} : n <:+: s ↔ ∃ i, OccursAt n s i := by
  constructor
  · rintro ⟨a, b, rfl⟩
    refine ⟨a.length, ?_⟩
    rw [OccursAt, List.append_assoc, List.drop_left]
    exact List.prefix_append n b
  · rintro ⟨i, hi⟩
    exact hi.isInfix.trans (List.drop_suffix i s).isInfix

variable [DecidableEq α]

/-- No pattern stands in the piece. -/
def Clear (n p : List α) : Prop := countOcc n p = 0

theorem clear_iff {n p : List α} (hn : n ≠ []) : Clear n p ↔ ∀ i, ¬ OccursAt n p i := by
  rw [Clear, countOcc_eq_zero_iff hn, infix_iff_occursAt, not_exists]

/-- Behind a piece a search finds the pattern that follows it. -/
theorem firstOcc_piece {o : α} {n p : List α} (g : Guarded o n) (hp : Clear n p) (r : List α) :
    firstOcc n (p ++ (n ++ r)) = some p.length := by
  have hocc : OccursAt n (p ++ (n ++ r)) p.length := by
    rw [OccursAt, List.drop_left]
    exact List.prefix_append n r
  refine (firstOcc_eq_some_iff g.ne_nil).mpr ⟨hocc, fun j hj hbad => ?_⟩
  -- it would end before the one that follows, and so inside the piece
  have hend := g.disjoint g hbad hocc hj
  have hinside := (occursAt_take g.ne_nil).mpr ⟨hbad, hend⟩
  rw [List.take_left] at hinside
  exact (clear_iff g.ne_nil).mp hp j hinside

/-- No occurrence crosses an element that is not in the pattern. -/
theorem countOcc_append_foreign {n : List α} {x : α} (hx : x ∉ n) (s t : List α) :
    countOcc n (s ++ x :: t) = countOcc n s + countOcc n (x :: t) := by
  refine countOcc_append fun k _ h => Decidable.byContradiction fun hs => ?_
  obtain ⟨y, r, rfl, hy⟩ := crossing h hs
  obtain ⟨rfl, -⟩ := List.cons_prefix_cons.mp hy
  exact hx (by simp)

theorem countOcc_self {o : α} {n : List α} (g : Guarded o n) : countOcc n n = 1 := by
  have hzero : ∀ i, ¬ OccursAt n n.tail i := by
    intro i hi
    have hlen := hi.add_length_le g.ne_nil
    have hpos := List.length_pos_iff.mpr g.ne_nil
    rw [List.length_tail] at hlen
    omega
  have htail := (clear_iff g.ne_nil).mpr hzero
  cases n with
  | nil => exact absurd rfl g.ne_nil
  | cons x n =>
    rw [countOcc, if_pos List.prefix_rfl]
    exact congrArg (1 + ·) htail

/-- A piece and the tag behind it. -/
theorem countOcc_piece {o c : α} {n p : List α} (g : Tag o c n) (hp : Clear n p) (r : List α) :
    countOcc n (p ++ (n ++ r)) = countOcc n r + 1 := by
  have hright : Opens o (n ++ r) := by
    intro x hx
    rw [List.head?_append_of_ne_nil n g.ne_nil] at hx
    exact g.opens x hx
  rw [countOcc_append_opened g.toGuarded hright, countOcc_append_closed g g.closes,
    countOcc_self g.toGuarded, hp]
  omega

/-- A text is pieces without the tag and the tag between them. -/
theorem exists_pieces {o c : α} {n : List α} (g : Tag o c n) (s : List α) :
    ∃ ps, ps.length = countOcc n s + 1 ∧ (∀ p ∈ ps, Clear n p) ∧
      s = weave ps (List.replicate (countOcc n s) n) := by
  induction hlen : s.length using Nat.strongRecOn generalizing s with
  | ind k ih =>
    cases hfirst : firstOcc n s with
    | none =>
      have hclear : Clear n s :=
        (clear_iff g.ne_nil).mpr ((firstOcc_eq_none_iff g.ne_nil).mp hfirst)
      have hzero : countOcc n s = 0 := hclear
      exact ⟨[s], by rw [hzero]; rfl, by simpa using hclear, by rw [hzero]; rfl⟩
    | some i =>
      obtain ⟨hocc, hmin⟩ := (firstOcc_eq_some_iff g.ne_nil).mp hfirst
      have hend := hocc.add_length_le g.ne_nil
      obtain ⟨r, hr⟩ := hocc
      have hcut : s = s.take i ++ (n ++ r) := by rw [hr, List.take_append_drop]
      have hclear : Clear n (s.take i) := by
        refine (clear_iff g.ne_nil).mpr fun j hj => ?_
        obtain ⟨hj, hle⟩ := (occursAt_take g.ne_nil).mp hj
        have hpos := List.length_pos_iff.mpr g.ne_nil
        exact hmin j (by omega) hj
      have hcount : countOcc n s = countOcc n r + 1 := by
        have := countOcc_piece g hclear r
        rwa [← hcut] at this
      have hless : r.length < k := by
        have hpos := List.length_pos_iff.mpr g.ne_nil
        have := congrArg List.length hr
        rw [List.length_append, List.length_drop] at this
        omega
      obtain ⟨ps, hps, hall, hweave⟩ := ih r.length hless r rfl
      refine ⟨s.take i :: ps, by rw [List.length_cons, hps, hcount], ?_, ?_⟩
      · exact List.forall_mem_cons.mpr ⟨hclear, hall⟩
      · rw [hcount, List.replicate_succ, weave, ← hweave, ← hcut]

/-- A text that opens and closes like the tag. -/
structure Closed (o c : α) (t : List α) : Prop where
  ne_nil : t ≠ []
  opens : Opens o t
  closes : Closes c t

/-- Between pieces without the tag only the texts between them have some. -/
theorem countOcc_weave {o c : α} {n : List α} (g : Tag o c n) {ps ts : List (List α)}
    (hlen : ps.length = ts.length + 1) (hps : ∀ p ∈ ps, Clear n p)
    (hts : ∀ t ∈ ts, Closed o c t) :
    countOcc n (weave ps ts) = (ts.map (countOcc n)).sum := by
  induction ts generalizing ps with
  | nil =>
    match ps, hlen with
    | [p], _ => exact hps p (by simp)
  | cons t ts ih =>
    match ps, hlen with
    | p :: ps, hlen =>
      obtain ⟨hp, hps⟩ := List.forall_mem_cons.mp hps
      obtain ⟨ht, hts⟩ := List.forall_mem_cons.mp hts
      have hright : Opens o (t ++ weave ps ts) := by
        intro x hx
        rw [List.head?_append_of_ne_nil t ht.ne_nil] at hx
        exact ht.opens x hx
      have hp : countOcc n p = 0 := hp
      rw [weave, countOcc_append_opened g.toGuarded hright, countOcc_append_closed g ht.closes,
        ih (by simpa using hlen) hps hts, List.map_cons, List.sum_cons, hp, Nat.zero_add]

end Sf37.Text

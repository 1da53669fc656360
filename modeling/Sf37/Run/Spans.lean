/-
Sf37.Run.Spans — half-open spans of a linear order and their merge in one pass.

The pass goes over spans that are sorted by their front and joins a span to the one before it
when a test says so; the test is a parameter.

* `within_merge`: each span is within a merged one.
* `merge_ends`: a merged span begins and ends where some of the spans do.
* `merge_has`: when only spans that touch are joined, no place is added.
* `merge_apart`: when all spans that touch are joined, the merged ones do not touch.
-/
import Mathlib.Data.List.Basic
import Mathlib.Order.MinMax

namespace Sf37.Run

/-- The places from `off` on that are before `stop`. -/
structure Span (α : Type) where
  off : α
  stop : α
  deriving DecidableEq

variable {α : Type} [LinearOrder α]

/-- The place `x` is in the span. -/
def Span.Has (s : Span α) (x : α) : Prop := s.off ≤ x ∧ x < s.stop

/-- All of the span is in `t`. -/
def Span.Within (s t : Span α) : Prop := t.off ≤ s.off ∧ s.stop ≤ t.stop

/-- Sorted by their front. -/
def Sorted (l : List (Span α)) : Prop := l.Pairwise fun a b => a.off ≤ b.off

/-- The pass over the rest, where `cur` is the span that is being made. -/
def mergeFrom (joins : Span α → Span α → Bool) : Span α → List (Span α) → List (Span α)
  | cur, [] => [cur]
  | cur, s :: rest =>
    if joins cur s then mergeFrom joins ⟨cur.off, max cur.stop s.stop⟩ rest
    else cur :: mergeFrom joins s rest

/-- One pass over the spans. -/
def merge (joins : Span α → Span α → Bool) : List (Span α) → List (Span α)
  | [] => []
  | s :: rest => mergeFrom joins s rest

variable {joins : Span α → Span α → Bool}

theorem Sorted.join {cur s : Span α} {rest : List (Span α)} (h : Sorted (cur :: s :: rest))
    (stop : α) : Sorted (⟨cur.off, stop⟩ :: rest) :=
  List.pairwise_cons.mpr
    ⟨fun _ ht => List.rel_of_pairwise_cons h (List.mem_cons_of_mem s ht), h.of_cons.of_cons⟩

/-- The span that is being made ends in one that begins with it. -/
theorem within_mergeFrom_cur (joins : Span α → Span α → Bool) (cur : Span α)
    (rest : List (Span α)) :
    ∃ m ∈ mergeFrom joins cur rest, m.off = cur.off ∧ cur.stop ≤ m.stop := by
  induction rest generalizing cur with
  | nil => exact ⟨cur, List.mem_singleton_self cur, rfl, le_rfl⟩
  | cons s rest ih =>
    rw [mergeFrom]
    split
    · obtain ⟨m, hm, hoff, hstop⟩ := ih ⟨cur.off, max cur.stop s.stop⟩
      exact ⟨m, hm, hoff, (le_max_left _ _).trans hstop⟩
    · exact ⟨cur, List.mem_cons_self, rfl, le_rfl⟩

theorem within_mergeFrom {cur : Span α} {rest : List (Span α)} (h : Sorted (cur :: rest)) :
    ∀ s ∈ cur :: rest, ∃ m ∈ mergeFrom joins cur rest, s.Within m := by
  have hcur : ∀ {c : Span α} {l : List (Span α)}, ∃ m ∈ mergeFrom joins c l, c.Within m := by
    intro c l
    obtain ⟨m, hm, hoff, hstop⟩ := within_mergeFrom_cur joins c l
    exact ⟨m, hm, hoff.le, hstop⟩
  induction rest generalizing cur with
  | nil =>
    intro s hs
    rw [List.mem_singleton.mp hs]
    exact hcur
  | cons t rest ih =>
    intro s hs
    rcases List.mem_cons.mp hs with rfl | hs
    · exact hcur
    rw [mergeFrom]
    split
    · rcases List.mem_cons.mp hs with rfl | hs
      · obtain ⟨m, hm, hoff, hstop⟩ :=
          within_mergeFrom_cur joins ⟨cur.off, max cur.stop s.stop⟩ rest
        refine ⟨m, hm, ?_, (le_max_right _ _).trans hstop⟩
        exact hoff.le.trans (List.rel_of_pairwise_cons h List.mem_cons_self)
      · exact ih (h.join _) s (List.mem_cons_of_mem _ hs)
    · obtain ⟨m, hm, hwithin⟩ := ih h.of_cons s hs
      exact ⟨m, List.mem_cons_of_mem cur hm, hwithin⟩

/-- Each span is within a merged one. -/
theorem within_merge (joins : Span α → Span α → Bool) {l : List (Span α)} (h : Sorted l) :
    ∀ s ∈ l, ∃ m ∈ merge joins l, s.Within m := by
  cases l with
  | nil => nofun
  | cons cur rest => exact within_mergeFrom h

theorem mergeFrom_ends {cur : Span α} {rest : List (Span α)} :
    ∀ m ∈ mergeFrom joins cur rest,
      (∃ s ∈ cur :: rest, m.off = s.off) ∧ ∃ s ∈ cur :: rest, m.stop = s.stop := by
  induction rest generalizing cur with
  | nil =>
    intro m hm
    exact ⟨⟨m, hm, rfl⟩, m, hm, rfl⟩
  | cons t rest ih =>
    intro m hm
    rw [mergeFrom] at hm
    split at hm
    · obtain ⟨⟨s, hs, hoff⟩, s', hs', hstop⟩ := ih m hm
      constructor
      · rcases List.mem_cons.mp hs with rfl | hs
        · exact ⟨cur, List.mem_cons_self, hoff⟩
        · exact ⟨s, List.mem_cons_of_mem cur (List.mem_cons_of_mem t hs), hoff⟩
      · rcases List.mem_cons.mp hs' with rfl | hs'
        · rcases max_choice cur.stop t.stop with hmax | hmax
          · exact ⟨cur, List.mem_cons_self, hstop.trans hmax⟩
          · exact ⟨t, List.mem_cons_of_mem cur List.mem_cons_self, hstop.trans hmax⟩
        · exact ⟨s', List.mem_cons_of_mem cur (List.mem_cons_of_mem t hs'), hstop⟩
    · rcases List.mem_cons.mp hm with rfl | hm
      · exact ⟨⟨m, List.mem_cons_self, rfl⟩, m, List.mem_cons_self, rfl⟩
      · obtain ⟨⟨s, hs, hoff⟩, s', hs', hstop⟩ := ih m hm
        exact ⟨⟨s, List.mem_cons_of_mem cur hs, hoff⟩, s', List.mem_cons_of_mem cur hs', hstop⟩

/-- A merged span begins and ends where some of the spans do. -/
theorem merge_ends {l : List (Span α)} :
    ∀ m ∈ merge joins l, (∃ s ∈ l, m.off = s.off) ∧ ∃ s ∈ l, m.stop = s.stop := by
  cases l with
  | nil => nofun
  | cons cur rest => exact mergeFrom_ends

theorem mergeFrom_lt {cur : Span α} {rest : List (Span α)}
    (h : ∀ s ∈ cur :: rest, s.off < s.stop) :
    ∀ m ∈ mergeFrom joins cur rest, m.off < m.stop := by
  induction rest generalizing cur with
  | nil => exact h
  | cons t rest ih =>
    obtain ⟨hcur, ht, hrest⟩ := List.forall_mem_cons.mp h |>.imp_right List.forall_mem_cons.mp
    rw [mergeFrom]
    split
    · exact ih (List.forall_mem_cons.mpr ⟨lt_max_of_lt_left hcur, hrest⟩)
    · exact List.forall_mem_cons.mpr ⟨hcur, ih (List.forall_mem_cons.mpr ⟨ht, hrest⟩)⟩

/-- From spans that are not empty none that is empty is made. -/
theorem merge_lt {l : List (Span α)} (h : ∀ s ∈ l, s.off < s.stop) :
    ∀ m ∈ merge joins l, m.off < m.stop := by
  cases l with
  | nil => nofun
  | cons cur rest => exact mergeFrom_lt h

/-- What two spans that touch have is what both have. -/
theorem join_has {cur s : Span α} (hsorted : cur.off ≤ s.off) (htouch : s.off ≤ cur.stop) {x : α} :
    Span.Has ⟨cur.off, max cur.stop s.stop⟩ x ↔ cur.Has x ∨ s.Has x := by
  constructor
  · rintro ⟨hoff, hstop⟩
    rcases lt_or_ge x cur.stop with hlt | hge
    · exact .inl ⟨hoff, hlt⟩
    · exact .inr ⟨htouch.trans hge, (lt_max_iff.mp hstop).resolve_left (not_lt.mpr hge)⟩
  · rintro (⟨hoff, hstop⟩ | ⟨hoff, hstop⟩)
    · exact ⟨hoff, lt_max_of_lt_left hstop⟩
    · exact ⟨hsorted.trans hoff, lt_max_of_lt_right hstop⟩

theorem mergeFrom_has (hjoins : ∀ a b, joins a b = true → b.off ≤ a.stop) {cur : Span α}
    {rest : List (Span α)} (h : Sorted (cur :: rest)) (x : α) :
    (∃ m ∈ mergeFrom joins cur rest, m.Has x) ↔ ∃ s ∈ cur :: rest, s.Has x := by
  induction rest generalizing cur with
  | nil => rfl
  | cons t rest ih =>
    rw [mergeFrom]
    split
    next hjoin =>
      rw [ih (h.join _), List.exists_mem_cons_iff, List.exists_mem_cons_iff,
        List.exists_mem_cons_iff,
        join_has (List.rel_of_pairwise_cons h List.mem_cons_self) (hjoins _ _ hjoin), or_assoc]
    next =>
      rw [List.exists_mem_cons_iff, ih h.of_cons]
      exact (List.exists_mem_cons_iff (Span.Has · x) cur (t :: rest)).symm

/-- When only spans that touch are joined, the merged ones have the same places. -/
theorem merge_has (hjoins : ∀ a b, joins a b = true → b.off ≤ a.stop) {l : List (Span α)}
    (h : Sorted l) (x : α) : (∃ m ∈ merge joins l, m.Has x) ↔ ∃ s ∈ l, s.Has x := by
  cases l with
  | nil => rfl
  | cons cur rest => exact mergeFrom_has hjoins h x

theorem mergeFrom_apart (hjoins : ∀ a b, joins a b = false → a.stop < b.off) {cur : Span α}
    {rest : List (Span α)} (h : Sorted (cur :: rest)) :
    (mergeFrom joins cur rest).Pairwise fun a b => a.stop < b.off := by
  induction rest generalizing cur with
  | nil => exact List.pairwise_singleton _ _
  | cons t rest ih =>
    rw [mergeFrom]
    split
    next => exact ih (h.join _)
    next hjoin =>
      refine List.pairwise_cons.mpr ⟨fun m hm => ?_, ih h.of_cons⟩
      obtain ⟨s, hs, hoff⟩ := (mergeFrom_ends m hm).1
      have hts : t.off ≤ s.off := by
        rcases List.mem_cons.mp hs with rfl | hs
        · exact le_rfl
        · exact List.rel_of_pairwise_cons h.of_cons hs
      rw [hoff]
      exact (hjoins _ _ (Bool.eq_false_iff.mpr hjoin)).trans_le hts

/-- When all spans that touch are joined, the merged ones do not touch. -/
theorem merge_apart (hjoins : ∀ a b, joins a b = false → a.stop < b.off) {l : List (Span α)}
    (h : Sorted l) : (merge joins l).Pairwise fun a b => a.stop < b.off := by
  cases l with
  | nil => exact List.Pairwise.nil
  | cons cur rest => exact mergeFrom_apart hjoins h

end Sf37.Run

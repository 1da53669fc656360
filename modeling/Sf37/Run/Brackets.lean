/-
Sf37.Run.Brackets — traces whose events open items, belong to them and close them.

Items are numbered from 0 as they are opened, and only one is open at a time. `track`
follows a trace event by event and stops where this is not so.

* `track_append`, `track_item`: following a trace piece by piece.
* `wellBracketed_of_track`: in a trace that is followed to its end with no item open, each
  item is opened once and closed once, and what is said of it stands between.
-/
import Mathlib.Data.List.Range
import Mathlib.Data.Int.Init

namespace Sf37.Run

variable {ε κ : Type}

/-- What an event says of an item: that it is opened, under a key; that something happens
to it; or that it is closed. Where the event says something of the key too, `fits` tells
which keys it can be. -/
inductive Mark (κ : Type) where
  | opens (i : Int) (key : κ)
  | within (i : Int) (fits : κ → Bool)
  | closes (i : Int) (fits : κ → Bool)

/-- The number of the item that a mark is about. -/
def Mark.index : Mark κ → Int
  | .opens i _ => i
  | .within i _ => i
  | .closes i _ => i

/-- How many items were opened, and the one that is open. -/
structure Tracker (κ : Type) where
  next : Nat
  opened : Option (Int × κ)

/-- One event; events without a mark stand between items. -/
def Tracker.step (t : Tracker κ) : Option (Mark κ) → Option (Tracker κ)
  | none => if t.opened.isNone then some t else none
  | some (.opens i key) =>
      if t.opened.isNone ∧ i = t.next then some ⟨t.next + 1, some (i, key)⟩ else none
  | some (.within i fits) =>
      if t.opened.any fun o => decide (i = o.1) && fits o.2 then some t else none
  | some (.closes i fits) =>
      if t.opened.any fun o => decide (i = o.1) && fits o.2 then some ⟨t.next, none⟩ else none

/-- All events of a trace. -/
def track (mark : ε → Option (Mark κ)) : Tracker κ → List ε → Option (Tracker κ)
  | t, [] => some t
  | t, e :: es => (t.step (mark e)).bind fun t' => track mark t' es

variable {mark : ε → Option (Mark κ)} {t t' : Tracker κ} {es es' : List ε}

@[simp] theorem track_nil (mark : ε → Option (Mark κ)) (t : Tracker κ) : track mark t [] = some t :=
  rfl

theorem track_cons (mark : ε → Option (Mark κ)) (t : Tracker κ) (e : ε) (es : List ε) :
    track mark t (e :: es) = (t.step (mark e)).bind fun t' => track mark t' es := rfl

theorem track_append (mark : ε → Option (Mark κ)) (t : Tracker κ) (es es' : List ε) :
    track mark t (es ++ es') = (track mark t es).bind fun t' => track mark t' es' := by
  induction es generalizing t with
  | nil => rfl
  | cons e es ih =>
    rw [List.cons_append, track_cons, track_cons]
    cases t.step (mark e) with
    | none => rfl
    | some t₁ => exact ih t₁

/-! ## Whole items -/

/-- What happens to the open item. -/
theorem track_within {n : Nat} {i : Int} {key : κ} (es : List ε)
    (h : ∀ e ∈ es, ∃ fits, mark e = some (.within i fits) ∧ fits key = true) :
    track mark ⟨n, some (i, key)⟩ es = some ⟨n, some (i, key)⟩ := by
  induction es with
  | nil => rfl
  | cons e es ih =>
    obtain ⟨fits, hmark, hfits⟩ := h e List.mem_cons_self
    rw [track_cons, hmark]
    simp only [Tracker.step, Option.any_some, hfits, decide_true, Bool.and_self, if_true,
      Option.bind_some]
    exact ih fun e he => h e (List.mem_cons_of_mem _ he)

/-- An item from its opening to its end. -/
theorem track_item {n : Nat} {key : κ} {first last : ε} {inner : List ε} {fits : κ → Bool}
    (hfirst : mark first = some (.opens n key))
    (hinner : ∀ e ∈ inner, ∃ fits, mark e = some (.within n fits) ∧ fits key = true)
    (hlast : mark last = some (.closes n fits)) (hfits : fits key = true) :
    track mark ⟨n, none⟩ (first :: (inner ++ [last])) = some ⟨n + 1, none⟩ := by
  rw [track_cons, hfirst]
  simp only [Tracker.step, Option.isNone_none, and_self, if_true, Option.bind_some]
  rw [track_append, track_within inner hinner, Option.bind_some, track_cons, hlast]
  simp [Tracker.step, hfits]

/-- An event between items. -/
theorem track_outside {n : Nat} {e : ε} (h : mark e = none) (es : List ε) :
    track mark ⟨n, none⟩ (e :: es) = track mark ⟨n, none⟩ es := by
  rw [track_cons, h]
  rfl

/-! ## What was followed to its end -/

/-- The number of the item that an event opens. -/
def openedIndex (mark : ε → Option (Mark κ)) (e : ε) : Option Int :=
  match mark e with
  | some (.opens i _) => some i
  | _ => none

/-- Items are numbered from 0 in the order of their openings. Every event about an item is
about one that is opened; between its opening and its one closing there are only events of
its own, and there are none elsewhere. -/
structure WellBracketed (mark : ε → Option (Mark κ)) (trace : List ε) : Prop where
  consecutive : ∃ n : Nat, trace.filterMap (openedIndex mark) = (List.range n).map Int.ofNat
  opened : ∀ e ∈ trace, ∀ m, mark e = some m → ∃ o ∈ trace, openedIndex mark o = some m.index
  closed : ∀ before e after i key, trace = before ++ e :: after →
    mark e = some (.opens i key) → ∃ inner c rest, after = inner ++ c :: rest ∧
      (∀ x ∈ inner, ∃ fits, mark x = some (.within i fits) ∧ fits key = true) ∧
      (∃ fits, mark c = some (.closes i fits) ∧ fits key = true) ∧
      ∀ x ∈ before ++ rest, ∀ m, mark x = some m → m.index ≠ i

/-- The open item has been counted. -/
def Tracker.Counted (t : Tracker κ) : Prop := ∀ o, t.opened = some o → 0 ≤ o.1 ∧ o.1 < t.next

theorem opened_of_any {o : Option (Int × κ)} {i : Int} {fits : κ → Bool}
    (h : o.any (fun o => decide (i = o.1) && fits o.2) = true) :
    ∃ key, o = some (i, key) ∧ fits key = true := by
  cases o with
  | none => nomatch h
  | some o =>
    obtain ⟨hi, hfits⟩ := Bool.and_eq_true_iff.mp h
    exact ⟨o.2, by rw [of_decide_eq_true hi], hfits⟩

/-- Where a step goes. -/
theorem Tracker.step_cases {m : Option (Mark κ)} (h : t.step m = some t') :
    (m = none ∧ t.opened = none ∧ t' = t) ∨
    (∃ key, m = some (.opens t.next key) ∧ t.opened = none ∧
      t' = ⟨t.next + 1, some (t.next, key)⟩) ∨
    (∃ i key fits, m = some (.within i fits) ∧ t.opened = some (i, key) ∧ fits key = true ∧
      t' = t) ∨
    ∃ i key fits, m = some (.closes i fits) ∧ t.opened = some (i, key) ∧ fits key = true ∧
      t' = ⟨t.next, none⟩ := by
  unfold Tracker.step at h
  split at h
  · split at h
    · rename_i hno
      exact .inl ⟨rfl, Option.isNone_iff_eq_none.mp hno, (Option.some.inj h).symm⟩
    · nomatch h
  · split at h
    · rename_i key hno
      obtain ⟨hnone, rfl⟩ := hno
      exact .inr (.inl ⟨key, rfl, Option.isNone_iff_eq_none.mp hnone, (Option.some.inj h).symm⟩)
    · nomatch h
  · split at h
    · rename_i i fits hany
      obtain ⟨key, ho, hfits⟩ := opened_of_any hany
      exact .inr (.inr (.inl ⟨i, key, fits, rfl, ho, hfits, (Option.some.inj h).symm⟩))
    · nomatch h
  · split at h
    · rename_i i fits hany
      obtain ⟨key, ho, hfits⟩ := opened_of_any hany
      exact .inr (.inr (.inr ⟨i, key, fits, rfl, ho, hfits, (Option.some.inj h).symm⟩))
    · nomatch h

/-- The marks of a trace are about the items that are opened in it, or about the one that is
open before it. -/
theorem track_index (hc : t.Counted) (h : track mark t es = some t') :
    t'.Counted ∧ t.next ≤ t'.next ∧ ∀ e ∈ es, ∀ m, mark e = some m →
      m.index < t'.next ∧ (t.next ≤ m.index ∨ ∃ key, t.opened = some (m.index, key)) := by
  induction es generalizing t with
  | nil =>
    obtain rfl := Option.some.inj h
    exact ⟨hc, Nat.le_refl _, fun e he => absurd he List.not_mem_nil⟩
  | cons e es ih =>
    rw [track_cons] at h
    obtain ⟨t₁, hstep, hrest⟩ := Option.bind_eq_some_iff.mp h
    rcases Tracker.step_cases hstep with ⟨hm, ho, rfl⟩ | ⟨key, hm, ho, rfl⟩ |
      ⟨i, key, fits, hm, ho, -, rfl⟩ | ⟨i, key, fits, hm, ho, -, rfl⟩
    · obtain ⟨hc', hle, hall⟩ := ih hc hrest
      refine ⟨hc', hle, fun x hx m hmark => ?_⟩
      rcases List.mem_cons.mp hx with rfl | hx
      · rw [hm] at hmark
        nomatch hmark
      · exact hall x hx m hmark
    · have hc₁ : Tracker.Counted ⟨t.next + 1, some ((t.next : Int), key)⟩ := by
        intro o heq
        rw [← Option.some.inj heq]
        constructor <;> dsimp only <;> omega
      obtain ⟨hc', hle, hall⟩ := ih hc₁ hrest
      dsimp only at hle hall
      refine ⟨hc', by omega, fun x hx m hmark => ?_⟩
      rcases List.mem_cons.mp hx with rfl | hx
      · rw [hm] at hmark
        obtain rfl := Option.some.inj hmark
        simp only [Mark.index]
        omega
      · obtain ⟨hlt, hor⟩ := hall x hx m hmark
        refine ⟨hlt, .inl ?_⟩
        rcases hor with hge | ⟨k, hk⟩
        · omega
        · have := congrArg Prod.fst (Option.some.inj hk)
          dsimp only at this
          omega
    · obtain ⟨hc', hle, hall⟩ := ih hc hrest
      refine ⟨hc', hle, fun x hx m hmark => ?_⟩
      rcases List.mem_cons.mp hx with rfl | hx
      · rw [hm] at hmark
        obtain rfl := Option.some.inj hmark
        have hlt := (hc _ ho).2
        simp only [Mark.index]
        exact ⟨by dsimp only at hlt; omega, .inr ⟨key, ho⟩⟩
      · exact hall x hx m hmark
    · have hc₁ : Tracker.Counted (⟨t.next, none⟩ : Tracker κ) := fun o heq => nomatch heq
      obtain ⟨hc', hle, hall⟩ := ih hc₁ hrest
      dsimp only at hle hall
      refine ⟨hc', hle, fun x hx m hmark => ?_⟩
      rcases List.mem_cons.mp hx with rfl | hx
      · rw [hm] at hmark
        obtain rfl := Option.some.inj hmark
        have hlt := (hc _ ho).2
        simp only [Mark.index]
        exact ⟨by dsimp only at hlt; omega, .inr ⟨key, ho⟩⟩
      · obtain ⟨hlt, hor⟩ := hall x hx m hmark
        exact ⟨hlt, hor.imp_right fun ⟨k, hk⟩ => nomatch hk⟩

/-- Between items, the marks are about the items opened from there on. -/
theorem track_between {n n' : Nat} {o : Option (Int × κ)}
    (h : track mark ⟨n, none⟩ es = some ⟨n', o⟩) {e : ε} (he : e ∈ es) {m : Mark κ}
    (hm : mark e = some m) : n ≤ m.index ∧ m.index < n' := by
  have hnone : Tracker.Counted (⟨n, none⟩ : Tracker κ) := fun o heq => nomatch heq
  obtain ⟨hlt, hor⟩ := (track_index hnone h).2.2 e he m hm
  exact ⟨hor.elim id fun ⟨_, hk⟩ => (nomatch hk), hlt⟩

/-- The items opened in a trace, in their order. -/
theorem track_opens (h : track mark t es = some t') :
    t.next ≤ t'.next ∧ es.filterMap (openedIndex mark) =
      (List.range' t.next (t'.next - t.next)).map Int.ofNat := by
  induction es generalizing t with
  | nil =>
    obtain rfl := Option.some.inj h
    simp
  | cons e es ih =>
    rw [track_cons] at h
    obtain ⟨t₁, hstep, hrest⟩ := Option.bind_eq_some_iff.mp h
    rw [List.filterMap_cons]
    rcases Tracker.step_cases hstep with ⟨hm, ho, rfl⟩ | ⟨key, hm, ho, rfl⟩ |
      ⟨i, key, fits, hm, ho, -, rfl⟩ | ⟨i, key, fits, hm, ho, -, rfl⟩
    · simpa only [openedIndex, hm] using ih hrest
    · obtain ⟨hle, hopens⟩ := ih hrest
      dsimp only at hle hopens
      have hcount : t'.next - t.next = t'.next - (t.next + 1) + 1 := by omega
      simp only [openedIndex, hm]
      refine ⟨by omega, ?_⟩
      rw [hcount, List.range'_succ, List.map_cons, ← hopens]
      rfl
    · simpa only [openedIndex, hm] using ih hrest
    · simpa only [openedIndex, hm] using ih hrest

/-- The open item is closed. -/
theorem track_closes {n : Nat} {i : Int} {key : κ} (hnone : t'.opened = none)
    (h : track mark ⟨n, some (i, key)⟩ es = some t') :
    ∃ inner c rest, es = inner ++ c :: rest ∧
      (∀ x ∈ inner, ∃ fits, mark x = some (.within i fits) ∧ fits key = true) ∧
      (∃ fits, mark c = some (.closes i fits) ∧ fits key = true) ∧
      track mark ⟨n, none⟩ rest = some t' := by
  induction es with
  | nil =>
    obtain rfl := Option.some.inj h
    nomatch hnone
  | cons e es ih =>
    rw [track_cons] at h
    obtain ⟨t₁, hstep, hrest⟩ := Option.bind_eq_some_iff.mp h
    rcases Tracker.step_cases hstep with ⟨hm, ho, rfl⟩ | ⟨k, hm, ho, rfl⟩ |
      ⟨j, k, fits, hm, ho, hfits, rfl⟩ | ⟨j, k, fits, hm, ho, hfits, rfl⟩
    · nomatch ho
    · nomatch ho
    · obtain ⟨rfl, rfl⟩ := Prod.ext_iff.mp (Option.some.inj ho)
      obtain ⟨inner, c, rest, rfl, hinner, hc, htrack⟩ := ih hrest
      refine ⟨e :: inner, c, rest, rfl, fun x hx => ?_, hc, htrack⟩
      rcases List.mem_cons.mp hx with rfl | hx
      · exact ⟨fits, hm, hfits⟩
      · exact hinner x hx
    · obtain ⟨rfl, rfl⟩ := Prod.ext_iff.mp (Option.some.inj ho)
      exact ⟨[], e, es, rfl, fun x hx => absurd hx List.not_mem_nil, ⟨fits, hm, hfits⟩, hrest⟩

/-- A trace that is followed from the start to its end with no item open. -/
theorem wellBracketed_of_track {n : Nat} (h : track mark ⟨0, none⟩ es = some ⟨n, none⟩) :
    WellBracketed mark es := by
  have hstart : Tracker.Counted (⟨0, none⟩ : Tracker κ) := fun o heq => nomatch heq
  obtain ⟨-, hopens⟩ := track_opens h
  have hrange : es.filterMap (openedIndex mark) = (List.range n).map Int.ofNat := by
    rw [hopens, List.range_eq_range', Nat.sub_zero]
  refine ⟨⟨n, hrange⟩, fun e he m hm => ?_, fun before e after i key htrace hmark => ?_⟩
  · obtain ⟨hlt, hor⟩ := (track_index hstart h).2.2 e he m hm
    have hge : 0 ≤ m.index := hor.elim id fun ⟨_, hk⟩ => nomatch hk
    have hmem : m.index ∈ es.filterMap (openedIndex mark) := by
      rw [hrange]
      exact List.mem_map.mpr ⟨m.index.toNat, List.mem_range.mpr (by dsimp only at hlt; omega),
        Int.toNat_of_nonneg hge⟩
    exact List.mem_filterMap.mp hmem
  · rw [htrace, track_append] at h
    obtain ⟨t₁, hbefore, hafter⟩ := Option.bind_eq_some_iff.mp h
    rw [track_cons, hmark] at hafter
    obtain ⟨t₂, hstep, hrest⟩ := Option.bind_eq_some_iff.mp hafter
    obtain ⟨hc₁, -, hfirst⟩ := track_index hstart hbefore
    rcases Tracker.step_cases hstep with ⟨hm, -⟩ | ⟨k, hm, -, rfl⟩ | ⟨j, k, fits, hm, -⟩ |
      ⟨j, k, fits, hm, -⟩
    · nomatch hm
    · obtain ⟨rfl, rfl⟩ := Mark.opens.inj (Option.some.inj hm)
      obtain ⟨inner, c, rest, rfl, hinner, hc, htrack⟩ := track_closes rfl hrest
      refine ⟨inner, c, rest, rfl, hinner, hc, fun x hx m hmx => ?_⟩
      rcases List.mem_append.mp hx with hx | hx
      · have := (hfirst x hx m hmx).1
        omega
      · have hnone : Tracker.Counted (⟨t₁.next + 1, none⟩ : Tracker κ) := fun o heq => nomatch heq
        rcases ((track_index hnone htrack).2.2 x hx m hmx).2 with hge | ⟨k, hk⟩
        · dsimp only at hge
          omega
        · nomatch hk
    · nomatch hm
    · nomatch hm

end Sf37.Run

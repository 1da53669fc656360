/-
Sf37.Run.Tickets — a counter that hands out tickets.

A party takes the value of the counter and counts it up. The tickets that are held are
different from each other and below the counter. A ticket below the counter that nobody holds
is settled, and the steps of the parties settle one ticket after the other.

* `Tickets.move`: a step of one party.
* `settled_move`: the tickets that are settled then.
-/
import Sf37.Run.Mutex

namespace Sf37.Run

variable {α : Type} {held : α → Option ℕ} {next next' : ℕ} {ws : List α} {i : ℕ} {a b : α}

structure Tickets (held : α → Option ℕ) (next : ℕ) (ws : List α) : Prop where
  below : ∀ (i x : ℕ), Stands (held · = some x) ws i → x < next
  unique : ∀ (i j x : ℕ), Stands (held · = some x) ws i → Stands (held · = some x) ws j → i = j

/-- A ticket that has been handed out and is not held any more. -/
def Settled (held : α → Option ℕ) (next : ℕ) (ws : List α) (x : ℕ) : Prop :=
  x < next ∧ ∀ i, ¬ Stands (held · = some x) ws i

/-- What a step of a party does with the tickets. -/
inductive TicketMove : Option ℕ → Option ℕ → ℕ → ℕ → Prop where
  | keeps {t : Option ℕ} {next : ℕ} : TicketMove t t next next
  | takes {next : ℕ} : TicketMove none (some next) next (next + 1)
  | drops {x next : ℕ} : TicketMove (some x) none next next

theorem TicketMove.le {t t' : Option ℕ} (h : TicketMove t t' next next') : next ≤ next' := by
  cases h with
  | keeps => exact Nat.le_refl _
  | takes => exact Nat.le_succ _
  | drops => exact Nat.le_refl _

theorem Tickets.move (h : Tickets held next ws) (hat : ws[i]? = some a)
    (hmove : TicketMove (held a) (held b) next next') : Tickets held next' (ws.set i b) := by
  have hself : ∀ x, Stands (held · = some x) (ws.set i b) i ↔ held b = some x := fun x =>
    stands_at (set_at hat)
  have hother : ∀ x j, j ≠ i →
      (Stands (held · = some x) (ws.set i b) j ↔ Stands (held · = some x) ws j) := fun x j hj =>
    stands_set_other hj
  generalize ha : held a = t, hb : held b = t' at hmove
  cases hmove with
  | keeps =>
    have hall : ∀ x j,
        (Stands (held · = some x) (ws.set i b) j ↔ Stands (held · = some x) ws j) := fun x j =>
      stands_set_same hat (by rw [ha, hb]) j
    exact ⟨fun j x hj => h.below j x ((hall x j).mp hj), fun j k x hj hk =>
      h.unique j k x ((hall x j).mp hj) ((hall x k).mp hk)⟩
  | takes =>
    -- nobody else has the value of the counter
    have hnew : ∀ x j, Stands (held · = some x) (ws.set i b) j → j = i ∧ x = next ∨
        Stands (held · = some x) ws j := by
      intro x j hj
      by_cases hji : j = i
      · subst hji
        exact .inl ⟨rfl, Option.some.inj (((hself x).mp hj).symm.trans hb)⟩
      · exact .inr ((hother x j hji).mp hj)
    refine ⟨fun j x hj => ?_, fun j k x hj hk => ?_⟩
    · rcases hnew x j hj with ⟨-, rfl⟩ | hold
      · exact Nat.lt_succ_self _
      · exact Nat.lt_succ_of_lt (h.below j x hold)
    · rcases hnew x j hj with ⟨rfl, rfl⟩ | hj' <;> rcases hnew x k hk with ⟨rfl, hx⟩ | hk'
      · rfl
      · exact absurd (h.below k _ hk') (Nat.lt_irrefl _)
      · subst hx
        exact absurd (h.below j _ hj') (Nat.lt_irrefl _)
      · exact h.unique j k x hj' hk'
  | drops =>
    have hold : ∀ x j, Stands (held · = some x) (ws.set i b) j → Stands (held · = some x) ws j := by
      intro x j hj
      by_cases hji : j = i
      · subst hji
        rw [hself x, hb] at hj
        cases hj
      · exact (hother x j hji).mp hj
    exact ⟨fun j x hj => h.below j x (hold x j hj), fun j k x hj hk =>
      h.unique j k x (hold x j hj) (hold x k hk)⟩

/-- A ticket is settled when it is dropped, and by no other step. -/
theorem settled_move (hat : ws[i]? = some a)
    (hmove : TicketMove (held a) (held b) next next') {x : ℕ}
    (hx : Settled held next' (ws.set i b) x) :
    Settled held next ws x ∨ held a = some x ∧ held b = none := by
  obtain ⟨hlt, hnobody⟩ := hx
  by_cases hmine : held a = some x
  · right
    refine ⟨hmine, ?_⟩
    generalize hb : held b = t' at hmove
    rw [hmine] at hmove
    cases hmove with
    | keeps => exact absurd ((stands_at (set_at hat)).mpr hb) (hnobody i)
    | drops => rfl
  · left
    have hnot : ∀ j, ¬ Stands (held · = some x) ws j := by
      intro j hj
      by_cases hji : j = i
      · subst hji
        exact hmine ((stands_at hat).mp hj)
      · exact hnobody j ((stands_set_other hji).mpr hj)
    refine ⟨?_, hnot⟩
    generalize ha : held a = t, hb : held b = t' at hmove
    cases hmove with
    | keeps => exact hlt
    | drops => exact hlt
    | takes =>
      refine Nat.lt_of_le_of_ne (Nat.le_of_lt_succ hlt) fun heq => ?_
      exact hnobody i ((stands_at (set_at hat)).mpr (heq ▸ hb))

end Sf37.Run

/-
Sf37.Run.FileWriter — writing to the end of a file that has a limited room.

* `append_bind_append`, `forM_append`: what is written in steps is written at once.
* `append_iff`, `bind_iff`: what a file then holds.
-/
import Mathlib.Data.List.Basic

namespace Sf37.Run

variable {σ α β ι : Type}

/-- A program that writes to the end of a file; `none` is an error exit. -/
abbrev FileWriter (σ α : Type) : Type := StateT (List σ) Option α

namespace FileWriter

/-- An error exit. -/
def die : FileWriter σ α := fun _ => none

/-- A result from outside, with an error exit where there is none. -/
def lift (o : Option α) : FileWriter σ α := fun file => o.map fun a => (a, file)

/-- A write to the end. It is an error when the file has not that much room; of nothing
nothing is written. -/
def append (room : Nat) (p : List σ) : FileWriter σ Unit := fun file =>
  if p.isEmpty ∨ file.length + p.length ≤ room then some ((), file ++ p) else none

/-- How much has been written. -/
def position : FileWriter σ Nat := fun file => some (file.length, file)

theorem append_iff {room : Nat} {p file after : List σ} {u : Unit} :
    append room p file = some (u, after) ↔
      (p = [] ∨ file.length + p.length ≤ room) ∧ after = file ++ p := by
  unfold append
  split
  · rename_i h
    rw [List.isEmpty_iff] at h
    rw [and_iff_right h, Option.some.injEq, Prod.mk.injEq, eq_comm (a := file ++ p)]
    exact and_iff_right rfl
  · rename_i h
    rw [List.isEmpty_iff] at h
    exact ⟨nofun, fun h' => absurd h'.1 h⟩

theorem bind_iff {w : FileWriter σ α} {next : α → FileWriter σ β} {file after : List σ} {b : β} :
    (w >>= next) file = some (b, after) ↔
      ∃ a mid, w file = some (a, mid) ∧ next a mid = some (b, after) := by
  change (w file).bind (fun out => next out.1 out.2) = some (b, after) ↔ _
  rw [Option.bind_eq_some_iff]
  exact Prod.exists

theorem lift_iff {o : Option α} {file after : List σ} {a : α} :
    lift o file = some (a, after) ↔ o = some a ∧ after = file := by
  rw [lift, Option.map_eq_some_iff]
  constructor
  · rintro ⟨b, hb, h⟩
    cases h
    exact ⟨hb, rfl⟩
  · rintro ⟨rfl, rfl⟩
    exact ⟨a, rfl, rfl⟩

theorem position_bind (next : Nat → FileWriter σ α) (file : List σ) :
    (position >>= next) file = next file.length file := rfl

@[simp] theorem append_nil (room : Nat) : append room ([] : List σ) = pure () := by
  funext file
  simp [append]
  rfl

/-- Two writes are one. -/
@[simp] theorem append_bind_append (room : Nat) (p q : List σ) :
    (append room p >>= fun _ => append room q) = append room (p ++ q) := by
  funext file
  refine Option.ext fun out => ?_
  obtain ⟨u, after⟩ := out
  change (append room p >>= fun _ => append room q) file = some (u, after) ↔
    append room (p ++ q) file = some (u, after)
  rw [bind_iff, append_iff, List.append_eq_nil_iff, List.length_append, ← List.append_assoc,
    ← Nat.add_assoc]
  constructor
  · rintro ⟨_, mid, hfirst, hsecond⟩
    obtain ⟨hp, rfl⟩ := append_iff.mp hfirst
    obtain ⟨hq, rfl⟩ := append_iff.mp hsecond
    rw [List.length_append] at hq
    refine ⟨?_, rfl⟩
    rcases hq with rfl | hq
    · exact hp.imp (fun h => ⟨h, rfl⟩) id
    · exact .inr hq
  · rintro ⟨h, rfl⟩
    have hp : p = [] ∨ file.length + p.length ≤ room :=
      h.imp And.left (Nat.le_trans (Nat.le_add_right _ _))
    have hq : q = [] ∨ (file ++ p).length + q.length ≤ room := by
      rw [List.length_append]
      exact h.imp_left And.right
    exact ⟨(), file ++ p, append_iff.mpr ⟨hp, rfl⟩, append_iff.mpr ⟨hq, rfl⟩⟩

/-- The writes of a loop are one. -/
@[simp] theorem forM_append (room : Nat) (text : ι → List σ) (xs : List ι) :
    (forM xs fun x => append room (text x)) = append room (xs.flatMap text) := by
  induction xs with
  | nil => rw [List.forM_nil, List.flatMap_nil, append_nil]
  | cons x xs ih => rw [List.forM_cons, ih, append_bind_append, List.flatMap_cons]

end FileWriter

end Sf37.Run

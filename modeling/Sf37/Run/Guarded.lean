/-
Sf37.Run.Guarded — the states a machine comes to when every event it takes meets a
guard.

* `Comes.invariant`: what holds at the start and is kept by every guarded step holds
  in every state of a guarded run.
* `comes_run`: the states of a list of events whose guards are checked along the way.
-/
import Mathlib.Logic.Basic

namespace Sf37.Run

variable {σ ε : Type} {step : σ → ε → σ} {start : σ → Prop} {guard : σ → ε → Prop}

/-- The states reached from a start by events that meet the guard. -/
inductive Comes (step : σ → ε → σ) (start : σ → Prop) (guard : σ → ε → Prop) : σ → Prop where
  | start {s : σ} (h : start s) : Comes step start guard s
  | step {s : σ} (h : Comes step start guard s) (e : ε) (hg : guard s e) :
      Comes step start guard (step s e)

/-- The invariant rule. -/
theorem Comes.invariant {Inv : σ → Prop} (hstart : ∀ s, start s → Inv s)
    (hstep : ∀ s e, Inv s → guard s e → Inv (step s e)) {s : σ}
    (h : Comes step start guard s) : Inv s := by
  induction h with
  | start h => exact hstart _ h
  | step _ e hg ih => exact hstep _ e ih hg

/-- The guards of the events, each in the state it is met in. -/
def Guarded (step : σ → ε → σ) (guard : σ → ε → Prop) : σ → List ε → Prop
  | _, [] => True
  | s, e :: es => guard s e ∧ Guarded step guard (step s e) es

theorem guarded_append {s : σ} {es es' : List ε} :
    Guarded step guard s (es ++ es') ↔
      Guarded step guard s es ∧ Guarded step guard (es.foldl step s) es' := by
  induction es generalizing s with
  | nil => exact ⟨fun h => ⟨trivial, h⟩, And.right⟩
  | cons e es ih =>
    rw [List.cons_append, Guarded, Guarded, ih, and_assoc]
    rfl

/-- Running a list of events whose guards hold. -/
theorem comes_run (es : List ε) {s : σ} (h : Comes step start guard s)
    (hg : Guarded step guard s es) : Comes step start guard (es.foldl step s) := by
  induction es generalizing s with
  | nil => exact h
  | cons e es ih => exact ih (h.step e hg.1) hg.2

end Sf37.Run

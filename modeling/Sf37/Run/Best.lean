/-
Sf37.Run.Best — one pass over a list that keeps the best candidate it has seen.

A turn may look at the candidate's place in the order before it asks whether it is a
candidate at all: what cannot win is not asked. `Turn` says what a turn may do, `Best` what
the pass then keeps.

* `Turn.best`: one turn keeps `Best`.
* `turn_pick`: a turn that tests in this order is such a turn.
* `foldl_pick_congr`: such a pass depends on the tests only.
* `foldl_pick_map`: such a pass over something that the elements carry.
* `foldl_best`: the whole pass keeps `Best`.
-/
import Mathlib.Order.Basic
import Mathlib.Tactic.SplitIfs
import Mathlib.Order.Lattice

namespace Sf37.Run

variable {α β : Type} [LinearOrder β] {cand : α → Prop} {key : α → β}

/-- What a pass keeps after some elements: nothing where none of them is a candidate,
otherwise a candidate with the greatest key. -/
def Best (cand : α → Prop) (key : α → β) (xs : List α) : Option α → Prop
  | none => ∀ x ∈ xs, ¬ cand x
  | some b => b ∈ xs ∧ cand b ∧ ∀ x ∈ xs, cand x → key x ≤ key b

/-- A turn of the pass: an element is left that is no candidate or that the best one so far
surpasses, and a candidate is taken that is not worse. -/
inductive Turn (cand : α → Prop) (key : α → β) : Option α → α → Option α → Prop
  | noCandidate {best : Option α} {x : α} (h : ¬ cand x) : Turn cand key best x best
  | surpassed {b x : α} (h : key x ≤ key b) : Turn cand key (some b) x (some b)
  | taken {best : Option α} {x : α} (h : cand x) (hle : ∀ b, best = some b → key b ≤ key x) :
      Turn cand key best x (some x)

@[simp] theorem best_nil : Best cand key [] none := by simp [Best]

theorem Best.eq_none_iff {xs : List α} {r : Option α} (h : Best cand key xs r) :
    r = none ↔ ∀ x ∈ xs, ¬ cand x := by
  cases r with
  | none => exact ⟨fun _ => h, fun _ => rfl⟩
  | some b =>
    obtain ⟨hmem, hb, -⟩ := h
    exact ⟨nofun, fun hno => absurd hb (hno b hmem)⟩

/-- One turn. -/
theorem Turn.best {xs : List α} {best r : Option α} {x : α} (hturn : Turn cand key best x r)
    (h : Best cand key xs best) : Best cand key (xs ++ [x]) r := by
  cases hturn with
  | noCandidate hx =>
    cases best with
    | none =>
      intro y hy
      rcases List.mem_append.mp hy with hy | hy
      · exact h y hy
      · obtain rfl := List.mem_singleton.mp hy
        exact hx
    | some b =>
      obtain ⟨hmem, hb, hmax⟩ := h
      refine ⟨List.mem_append_left _ hmem, hb, fun y hy hcand => ?_⟩
      rcases List.mem_append.mp hy with hy | hy
      · exact hmax y hy hcand
      · obtain rfl := List.mem_singleton.mp hy
        exact absurd hcand hx
  | @surpassed b _ hle =>
    obtain ⟨hmem, hb, hmax⟩ := h
    refine ⟨List.mem_append_left _ hmem, hb, fun y hy hcand => ?_⟩
    rcases List.mem_append.mp hy with hy | hy
    · exact hmax y hy hcand
    · obtain rfl := List.mem_singleton.mp hy
      exact hle
  | taken hx hle =>
    refine ⟨List.mem_append_right _ (List.mem_singleton.mpr rfl), hx, fun y hy hcand => ?_⟩
    rcases List.mem_append.mp hy with hy | hy
    · cases best with
      | none => exact absurd hcand (h y hy)
      | some b => exact le_trans (h.2.2 y hy hcand) (hle b rfl)
    · obtain rfl := List.mem_singleton.mp hy
      exact le_rfl

/-- A turn that looks at the rules, then at the best one so far, and makes the test last. -/
def pick (rules test : α → Prop) [DecidablePred rules] [DecidablePred test] (key : α → β)
    (best : Option α) (x : α) : Option α :=
  if ¬ rules x then best
  else if ∃ b ∈ best, key x ≤ key b then best
  else if test x then some x
  else best

theorem turn_pick (rules test : α → Prop) [DecidablePred rules] [DecidablePred test] (key : α → β)
    (best : Option α) (x : α) :
    Turn (fun x => rules x ∧ test x) key best x (pick rules test key best x) := by
  unfold pick
  split
  next hrules => exact .noCandidate fun h => hrules h.1
  next hrules =>
    split
    next hsur =>
      obtain ⟨b, hb, hle⟩ := hsur
      obtain rfl := Option.mem_def.mp hb
      exact .surpassed hle
    next hsur =>
      split
      next htest =>
        refine .taken ⟨not_not.mp hrules, htest⟩ fun b hb => ?_
        exact le_of_not_ge fun hle => hsur ⟨b, hb, hle⟩
      next htest => exact .noCandidate fun h => htest h.2

/-- A pass only depends on the tests of the elements it meets. -/
theorem foldl_pick_congr {rules test test' : α → Prop} [DecidablePred rules] [DecidablePred test]
    [DecidablePred test'] (key : α → β) {xs : List α} (h : ∀ x ∈ xs, test x ↔ test' x)
    (best : Option α) :
    xs.foldl (pick rules test key) best = xs.foldl (pick rules test' key) best := by
  induction xs generalizing best with
  | nil => rfl
  | cons x xs ih =>
    obtain ⟨hx, hxs⟩ := List.forall_mem_cons.mp h
    have hturn : pick rules test key best x = pick rules test' key best x := by
      simp only [pick, hx]
    rw [List.foldl_cons, List.foldl_cons, hturn, ih hxs]

/-- A pass over the elements is one over what the turns look at of them. -/
theorem foldl_pick_map {γ : Type} (rules test : α → Prop) [DecidablePred rules]
    [DecidablePred test] (key : α → β) (g : γ → α) (xs : List γ) (best : Option γ) :
    (xs.foldl (pick (fun x => rules (g x)) (fun x => test (g x)) fun x => key (g x)) best).map g =
      (xs.map g).foldl (pick rules test key) (best.map g) := by
  induction xs generalizing best with
  | nil => rfl
  | cons x xs ih =>
    have hturn :
        (pick (fun x => rules (g x)) (fun x => test (g x)) (fun x => key (g x)) best x).map g =
          pick rules test key (best.map g) (g x) := by
      have hsur : (∃ b ∈ best.map g, key (g x) ≤ key b) ↔ ∃ b ∈ best, key (g x) ≤ key (g b) := by
        simp only [Option.mem_def, Option.map_eq_some_iff]
        grind
      simp only [pick, hsur]
      split_ifs <;> rfl
    rw [List.foldl_cons, ih, hturn, List.map_cons, List.foldl_cons]

/-- A pass that goes on after some elements. -/
theorem foldl_best_append {f : Option α → α → Option α}
    (hf : ∀ best x, Turn cand key best x (f best x)) (ys : List α) {xs : List α} {best : Option α}
    (h : Best cand key xs best) : Best cand key (xs ++ ys) (ys.foldl f best) := by
  induction ys generalizing xs best with
  | nil => simpa using h
  | cons y ys ih =>
    have hstep := ih ((hf best y).best h)
    simpa using hstep

/-- The whole pass. -/
theorem foldl_best {f : Option α → α → Option α}
    (hf : ∀ best x, Turn cand key best x (f best x)) (xs : List α) :
    Best cand key xs (xs.foldl f none) :=
  foldl_best_append hf xs best_nil

end Sf37.Run

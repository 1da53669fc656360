/-
Sf37.Store.RadixTree — trees whose edges spell keys, and the contexts of their nodes.

A node keeps its own value, if its path is a key, and has one edge with a longer label or
any number of edges with one letter each. A leaf without children may be kept as a value
in the slot of its edge.

* `find_plug_path`, `find_plug_outside`: what a node in its context holds, and what
  stands outside of it.
* `nodes_plug`, `keys_plug`: the counts of a tree change by what changes in the context.
-/
import Mathlib.Data.List.Basic
import Mathlib.Data.List.Infix

namespace Sf37.Store

/-- A node: the value of its own path, and its edges. -/
inductive RadixTree (α V : Type) where
  | run (key : Option V) (label : List α) (child : V ⊕ RadixTree α V)
  | branch (key : Option V) (children : List (α × (V ⊕ RadixTree α V)))

/-- What an edge leads to: the value of a leaf, or a node. -/
abbrev RadixSlot (α V : Type) := V ⊕ RadixTree α V

/-- A node without one of its slots. -/
inductive RadixFrame (α V : Type) where
  | run (key : Option V) (label : List α)
  | branch (key : Option V) (before : List (α × RadixSlot α V)) (letter : α)
      (after : List (α × RadixSlot α V))

variable {α V : Type}

namespace RadixTree

/-- The value of the path to the node itself. -/
def value : RadixTree α V → Option V
  | .run key _ _ => key
  | .branch key _ => key

def setValue : RadixTree α V → Option V → RadixTree α V
  | .run _ label child, key => .run key label child
  | .branch _ children, key => .branch key children

@[simp] theorem value_run (key : Option V) (label : List α) (child : RadixSlot α V) :
    (run key label child).value = key := rfl

@[simp] theorem value_branch (key : Option V) (children : List (α × RadixSlot α V)) :
    (branch key children).value = key := rfl

@[simp] theorem setValue_run (key v : Option V) (label : List α) (child : RadixSlot α V) :
    (run key label child).setValue v = run v label child := rfl

@[simp] theorem setValue_branch (key v : Option V) (children : List (α × RadixSlot α V)) :
    (branch key children).setValue v = branch v children := rfl

/-! ## What a tree holds -/

section Find

variable [DecidableEq α]

mutual

/-- The value under a key. -/
def find : RadixTree α V → List α → Option V
  | .run key label child, k =>
      if k = [] then key
      else if label <+: k then findSlot child (k.drop label.length) else none
  | .branch key _, [] => key
  | .branch _ children, c :: k => findChild children c k

def findSlot : V ⊕ RadixTree α V → List α → Option V
  | .inl v, k => if k = [] then some v else none
  | .inr t, k => t.find k

def findChild : List (α × (V ⊕ RadixTree α V)) → α → List α → Option V
  | [], _, _ => none
  | (d, child) :: rest, c, k => if d = c then findSlot child k else findChild rest c k

end

@[simp] theorem find_nil (t : RadixTree α V) : t.find [] = t.value := by
  cases t with
  | run key label child => rfl
  | branch key children => rfl

theorem find_run_cons (key : Option V) (label : List α) (child : RadixSlot α V) (c : α)
    (k : List α) :
    (run key label child).find (c :: k) =
      if label <+: c :: k then findSlot child ((c :: k).drop label.length) else none :=
  if_neg (t := key) (List.cons_ne_nil c k)

@[simp] theorem find_branch_cons (key : Option V) (children : List (α × RadixSlot α V)) (c : α)
    (k : List α) : (branch key children).find (c :: k) = findChild children c k := rfl

@[simp] theorem findSlot_inl (v : V) (k : List α) :
    findSlot (.inl v : RadixSlot α V) k = if k = [] then some v else none := rfl

@[simp] theorem findSlot_inr (t : RadixTree α V) (k : List α) :
    findSlot (.inr t) k = t.find k := rfl

@[simp] theorem findChild_nil (c : α) (k : List α) :
    findChild ([] : List (α × RadixSlot α V)) c k = none := rfl

theorem findChild_cons (d : α) (child : RadixSlot α V) (rest : List (α × RadixSlot α V)) (c : α)
    (k : List α) :
    findChild ((d, child) :: rest) c k = if d = c then findSlot child k else findChild rest c k :=
  rfl

theorem findChild_of_not_mem {children : List (α × RadixSlot α V)} {c : α}
    (h : c ∉ children.map Prod.fst) (k : List α) : findChild children c k = none := by
  induction children with
  | nil => exact findChild_nil c k
  | cons e rest ih =>
    obtain ⟨d, child⟩ := e
    rw [List.map_cons, List.mem_cons, not_or] at h
    rw [findChild_cons, if_neg (Ne.symm h.1), ih h.2]

theorem findChild_append {before : List (α × RadixSlot α V)} {c : α}
    (h : c ∉ before.map Prod.fst) (after : List (α × RadixSlot α V)) (k : List α) :
    findChild (before ++ after) c k = findChild after c k := by
  induction before with
  | nil => rfl
  | cons e rest ih =>
    obtain ⟨d, child⟩ := e
    rw [List.map_cons, List.mem_cons, not_or] at h
    rw [List.cons_append, findChild_cons, if_neg (Ne.symm h.1), ih h.2]

/-- A slot that is looked up under another letter does not matter. -/
theorem findChild_middle {before after : List (α × RadixSlot α V)} {d c : α} (h : d ≠ c)
    (slot : RadixSlot α V) (k : List α) :
    findChild (before ++ (d, slot) :: after) c k = findChild (before ++ after) c k := by
  induction before with
  | nil => rw [List.nil_append, findChild_cons, if_neg h, List.nil_append]
  | cons e rest ih =>
    obtain ⟨b, child⟩ := e
    simp only [List.cons_append, findChild_cons, ih]

/-- Only what a slot holds matters. -/
theorem findChild_congr {before after : List (α × RadixSlot α V)} {d : α}
    {slot slot' : RadixSlot α V} (h : ∀ k, findSlot slot' k = findSlot slot k) (c : α)
    (k : List α) :
    findChild (before ++ (d, slot') :: after) c k =
      findChild (before ++ (d, slot) :: after) c k := by
  induction before with
  | nil => simp only [List.nil_append, findChild_cons, h]
  | cons e rest ih =>
    obtain ⟨b, child⟩ := e
    simp only [List.cons_append, findChild_cons, ih]

theorem find_setValue (t : RadixTree α V) (v : Option V) (k : List α) :
    (t.setValue v).find k = if k = [] then v else t.find k := by
  cases t <;> cases k <;> simp [find_run_cons]

/-- A run with an empty node at its end. -/
theorem find_run_append (key : Option V) {label : List α} (hlabel : label ≠ [])
    (child : RadixSlot α V) (k : List α) :
    (run key label child).find (label ++ k) = findSlot child k := by
  obtain ⟨c, l, rfl⟩ := List.exists_cons_of_ne_nil hlabel
  rw [List.cons_append, find_run_cons, if_pos ⟨k, rfl⟩]
  simp

theorem find_run_outside (key : Option V) {label k : List α} (hk : k ≠ [])
    (h : ¬ label <+: k) (child : RadixSlot α V) : (run key label child).find k = none := by
  obtain ⟨c, l, rfl⟩ := List.exists_cons_of_ne_nil hk
  rw [find_run_cons, if_neg h]

end Find

/-! ## The entries of a tree -/

mutual

/-- The keys of a tree with their values, in the order of the edges. -/
def entries : RadixTree α V → List (List α × V)
  | .run key label child =>
      (key.map fun v => ([], v)).toList ++
        (slotEntries child).map fun e => (label ++ e.1, e.2)
  | .branch key children => (key.map fun v => ([], v)).toList ++ childEntries children

def slotEntries : V ⊕ RadixTree α V → List (List α × V)
  | .inl v => [([], v)]
  | .inr t => t.entries

def childEntries : List (α × (V ⊕ RadixTree α V)) → List (List α × V)
  | [] => []
  | (c, child) :: rest => ((slotEntries child).map fun e => (c :: e.1, e.2)) ++ childEntries rest

end

mutual

/-- The nodes of a tree. A value in a slot is none. -/
def nodes : RadixTree α V → Nat
  | .run _ _ child => slotNodes child + 1
  | .branch _ children => childNodes children + 1

def slotNodes : V ⊕ RadixTree α V → Nat
  | .inl _ => 0
  | .inr t => t.nodes

def childNodes : List (α × (V ⊕ RadixTree α V)) → Nat
  | [] => 0
  | (_, child) :: rest => slotNodes child + childNodes rest

end

@[simp] theorem entries_run (key : Option V) (label : List α) (child : RadixSlot α V) :
    (run key label child).entries =
      (key.map fun v => ([], v)).toList ++
        (slotEntries child).map fun e => (label ++ e.1, e.2) := rfl

@[simp] theorem entries_branch (key : Option V) (children : List (α × RadixSlot α V)) :
    (branch key children).entries =
      (key.map fun v => ([], v)).toList ++ childEntries children := rfl

@[simp] theorem slotEntries_inl (v : V) :
    slotEntries (.inl v : RadixSlot α V) = [([], v)] := rfl

@[simp] theorem slotEntries_inr (t : RadixTree α V) : slotEntries (.inr t) = t.entries := rfl

@[simp] theorem childEntries_nil : childEntries ([] : List (α × RadixSlot α V)) = [] := rfl

@[simp] theorem childEntries_cons (c : α) (child : RadixSlot α V)
    (rest : List (α × RadixSlot α V)) :
    childEntries ((c, child) :: rest) =
      ((slotEntries child).map fun e => (c :: e.1, e.2)) ++ childEntries rest := rfl

@[simp] theorem nodes_run (key : Option V) (label : List α) (child : RadixSlot α V) :
    (run key label child).nodes = slotNodes child + 1 := rfl

@[simp] theorem nodes_branch (key : Option V) (children : List (α × RadixSlot α V)) :
    (branch key children).nodes = childNodes children + 1 := rfl

@[simp] theorem slotNodes_inl (v : V) : slotNodes (.inl v : RadixSlot α V) = 0 := rfl

@[simp] theorem slotNodes_inr (t : RadixTree α V) : slotNodes (.inr t) = t.nodes := rfl

@[simp] theorem childNodes_nil : childNodes ([] : List (α × RadixSlot α V)) = 0 := rfl

@[simp] theorem childNodes_cons (c : α) (child : RadixSlot α V)
    (rest : List (α × RadixSlot α V)) :
    childNodes ((c, child) :: rest) = slotNodes child + childNodes rest := rfl

theorem childEntries_append (a b : List (α × RadixSlot α V)) :
    childEntries (a ++ b) = childEntries a ++ childEntries b := by
  induction a with
  | nil => simp
  | cons e rest ih =>
    obtain ⟨c, child⟩ := e
    simp [ih]

theorem childNodes_append (a b : List (α × RadixSlot α V)) :
    childNodes (a ++ b) = childNodes a + childNodes b := by
  induction a with
  | nil => simp
  | cons e rest ih =>
    obtain ⟨c, child⟩ := e
    simp only [List.cons_append, childNodes_cons, ih, Nat.add_assoc]

theorem nodes_setValue (t : RadixTree α V) (v : Option V) : (t.setValue v).nodes = t.nodes := by
  cases t <;> simp

theorem keys_setValue (t : RadixTree α V) (v : Option V) :
    (t.setValue v).entries.length + t.value.toList.length =
      t.entries.length + v.toList.length := by
  cases t with
  | run key label child =>
    cases key <;> cases v <;> simp
  | branch key children =>
    cases key <;> cases v <;> simp

end RadixTree

/-! ## Contexts -/

namespace RadixFrame

/-- The node with a slot in its place again. -/
def fill : RadixFrame α V → RadixSlot α V → RadixTree α V
  | .run key label, slot => .run key label slot
  | .branch key before letter after, slot => .branch key (before ++ (letter, slot) :: after)

/-- The label of the edge. -/
def label : RadixFrame α V → List α
  | .run _ label => label
  | .branch _ _ letter _ => [letter]

/-- The edge is the first with its label. -/
def Clear : RadixFrame α V → Prop
  | .run _ label => label ≠ []
  | .branch _ before letter _ => letter ∉ before.map Prod.fst

@[simp] theorem fill_run (key : Option V) (label : List α) (slot : RadixSlot α V) :
    (run key label).fill slot = .run key label slot := rfl

@[simp] theorem fill_branch (key : Option V) (before : List (α × RadixSlot α V)) (letter : α)
    (after : List (α × RadixSlot α V)) (slot : RadixSlot α V) :
    (branch key before letter after).fill slot =
      .branch key (before ++ (letter, slot) :: after) := rfl

end RadixFrame

/-- The tree around a node, from its parents, the nearest first. -/
def plug : List (RadixFrame α V) → RadixTree α V → RadixTree α V
  | [], t => t
  | f :: stack, t => plug stack (f.fill (.inr t))

/-- What the labels from the root to a node spell. -/
def pathOf : List (RadixFrame α V) → List α
  | [] => []
  | f :: stack => pathOf stack ++ f.label

@[simp] theorem plug_nil (t : RadixTree α V) : plug [] t = t := rfl

@[simp] theorem plug_cons (f : RadixFrame α V) (stack : List (RadixFrame α V))
    (t : RadixTree α V) : plug (f :: stack) t = plug stack (f.fill (.inr t)) := rfl

@[simp] theorem pathOf_nil : pathOf ([] : List (RadixFrame α V)) = [] := rfl

@[simp] theorem pathOf_cons (f : RadixFrame α V) (stack : List (RadixFrame α V)) :
    pathOf (f :: stack) = pathOf stack ++ f.label := rfl

theorem plug_append (a b : List (RadixFrame α V)) (t : RadixTree α V) :
    plug (a ++ b) t = plug b (plug a t) := by
  induction a generalizing t with
  | nil => rfl
  | cons f a ih => exact ih _

theorem pathOf_append (a b : List (RadixFrame α V)) : pathOf (a ++ b) = pathOf b ++ pathOf a := by
  induction a with
  | nil => exact (List.append_nil _).symm
  | cons f a ih => rw [List.cons_append, pathOf, pathOf, ih, List.append_assoc]

namespace RadixFrame

open RadixTree

section Find

variable [DecidableEq α]

omit [DecidableEq α] in
theorem label_ne_nil {f : RadixFrame α V} (h : f.Clear) : f.label ≠ [] := by
  cases f with
  | run key label => exact h
  | branch key before letter after => exact List.cons_ne_nil letter []

theorem find_fill_label {f : RadixFrame α V} (h : f.Clear) (slot : RadixSlot α V) (k : List α) :
    (f.fill slot).find (f.label ++ k) = findSlot slot k := by
  cases f with
  | run key label => exact find_run_append key h slot k
  | branch key before letter after =>
    rw [fill, label, List.singleton_append, find_branch_cons, findChild_append h, findChild_cons,
      if_pos rfl]

theorem find_fill_outside {f : RadixFrame α V} {k : List α} (h : ¬ f.label <+: k)
    (slot slot' : RadixSlot α V) : (f.fill slot).find k = (f.fill slot').find k := by
  cases f with
  | run key word =>
    replace h : ¬ word <+: k := h
    cases k with
    | nil => simp
    | cons c k => rw [fill, fill, find_run_cons, find_run_cons, if_neg h, if_neg h]
  | branch key before letter after =>
    cases k with
    | nil => simp
    | cons c k =>
      have hne : letter ≠ c := by
        rintro rfl
        exact h ⟨k, rfl⟩
      rw [fill, fill, find_branch_cons, find_branch_cons, findChild_middle hne,
        findChild_middle hne]

/-- Only what the slot holds matters. -/
theorem find_fill_congr (f : RadixFrame α V) {slot slot' : RadixSlot α V}
    (h : ∀ k, findSlot slot' k = findSlot slot k) (k : List α) :
    (f.fill slot').find k = (f.fill slot).find k := by
  cases k with
  | nil => cases f <;> simp
  | cons c k =>
    cases f with
    | run key word => rw [fill, fill, find_run_cons, find_run_cons, h]
    | branch key before letter after =>
      rw [fill, fill, find_branch_cons, find_branch_cons, findChild_congr h]

end Find

theorem nodes_fill (f : RadixFrame α V) (slot slot' : RadixSlot α V) :
    (f.fill slot').nodes + slotNodes slot = (f.fill slot).nodes + slotNodes slot' := by
  cases f with
  | run key label => simp only [fill_run, nodes_run]; omega
  | branch key before letter after =>
    simp only [fill_branch, nodes_branch, childNodes_append, childNodes_cons]
    omega

theorem keys_fill (f : RadixFrame α V) (slot slot' : RadixSlot α V) :
    (f.fill slot').entries.length + (slotEntries slot).length =
      (f.fill slot).entries.length + (slotEntries slot').length := by
  cases f with
  | run key label =>
    simp only [fill_run, entries_run, List.length_append, List.length_map]
    omega
  | branch key before letter after =>
    simp only [fill_branch, entries_branch, childEntries_append, childEntries_cons,
      List.length_append, List.length_map]
    omega

end RadixFrame

section Plug

open RadixTree

variable [DecidableEq α]

/-- What a node holds stands in the tree under its path. -/
theorem find_plug_path {stack : List (RadixFrame α V)} (h : ∀ f ∈ stack, f.Clear)
    (t : RadixTree α V) (k : List α) : (plug stack t).find (pathOf stack ++ k) = t.find k := by
  induction stack generalizing t k with
  | nil => rfl
  | cons f stack ih =>
    rw [plug, pathOf, List.append_assoc, ih fun g hg => h g (List.mem_cons_of_mem f hg),
      RadixFrame.find_fill_label (h f List.mem_cons_self), findSlot_inr]

/-- What stands elsewhere is not changed with the node. -/
theorem find_plug_outside {stack : List (RadixFrame α V)} (h : ∀ f ∈ stack, f.Clear)
    {k : List α} (hk : ¬ pathOf stack <+: k) (t t' : RadixTree α V) :
    (plug stack t').find k = (plug stack t).find k := by
  induction stack generalizing t t' with
  | nil => exact absurd (List.nil_prefix) hk
  | cons f stack ih =>
    have hstack : ∀ g ∈ stack, g.Clear := fun g hg => h g (List.mem_cons_of_mem f hg)
    rw [plug, plug]
    by_cases hpre : pathOf stack <+: k
    · obtain ⟨r, rfl⟩ := hpre
      rw [find_plug_path hstack, find_plug_path hstack]
      refine RadixFrame.find_fill_outside (fun hlabel => hk ?_) _ _
      rw [pathOf]
      exact (List.prefix_append_right_inj _).mpr hlabel
    · exact ih hstack hpre _ _

/-- Only what the node holds matters. -/
theorem find_plug_congr (stack : List (RadixFrame α V)) {t t' : RadixTree α V}
    (h : ∀ k, t'.find k = t.find k) (k : List α) :
    (plug stack t').find k = (plug stack t).find k := by
  induction stack generalizing t t' with
  | nil => exact h k
  | cons f stack ih =>
    refine ih fun r => f.find_fill_congr (fun u => ?_) r
    rw [findSlot_inr, findSlot_inr, h]

/-- A node changed under one key is a tree changed under one key. -/
theorem find_plug_update {stack : List (RadixFrame α V)} (h : ∀ f ∈ stack, f.Clear)
    {t t' : RadixTree α V} {r : List α} {v : Option V}
    (ht : ∀ k, t'.find k = if k = r then v else t.find k) (k : List α) :
    (plug stack t').find k = if k = pathOf stack ++ r then v else (plug stack t).find k := by
  by_cases hpre : pathOf stack <+: k
  · obtain ⟨s, rfl⟩ := hpre
    rw [find_plug_path h, find_plug_path h, ht]
    simp only [List.append_cancel_left_eq]
  · rw [if_neg (fun hk => hpre ⟨r, hk.symm⟩), find_plug_outside h hpre]

/-- A slot changed under one key. -/
theorem find_fill_update {f : RadixFrame α V} (h : f.Clear) {slot slot' : RadixSlot α V}
    {r : List α} {v : Option V}
    (hslot : ∀ k, findSlot slot' k = if k = r then v else findSlot slot k) (k : List α) :
    (f.fill slot').find k = if k = f.label ++ r then v else (f.fill slot).find k := by
  by_cases hpre : f.label <+: k
  · obtain ⟨s, rfl⟩ := hpre
    rw [RadixFrame.find_fill_label h, RadixFrame.find_fill_label h, hslot]
    simp only [List.append_cancel_left_eq]
  · rw [if_neg (fun hk => hpre ⟨r, hk.symm⟩), RadixFrame.find_fill_outside hpre]

end Plug

open RadixTree in
theorem nodes_plug (stack : List (RadixFrame α V)) (t t' : RadixTree α V) :
    (plug stack t').nodes + t.nodes = (plug stack t).nodes + t'.nodes := by
  induction stack generalizing t t' with
  | nil => exact Nat.add_comm _ _
  | cons f stack ih =>
    have hrest := ih (f.fill (.inr t)) (f.fill (.inr t'))
    have hfill := f.nodes_fill (.inr t) (.inr t')
    simp only [slotNodes_inr] at hfill
    rw [plug, plug]
    omega

open RadixTree in
theorem keys_plug (stack : List (RadixFrame α V)) (t t' : RadixTree α V) :
    (plug stack t').entries.length + t.entries.length =
      (plug stack t).entries.length + t'.entries.length := by
  induction stack generalizing t t' with
  | nil => exact Nat.add_comm _ _
  | cons f stack ih =>
    have hrest := ih (f.fill (.inr t)) (f.fill (.inr t'))
    have hfill := f.keys_fill (.inr t) (.inr t')
    simp only [slotEntries_inr] at hfill
    rw [plug, plug]
    omega

end Sf37.Store

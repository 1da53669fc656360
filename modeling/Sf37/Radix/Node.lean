/-
Sf37.Radix.Node — the nodes of `rax.c` and the walk to a key.

The pointers of the source are the values of a tree: what is written through a parent link
is put back into the context of the node. A child slot that `leafbitmap` marks holds a
value.

* `raxLowWalk_stop`: where a walk stops, and why.
* `raxFind_eq`: the search finds what the tree holds.
* `Sound.plug`: a sound node in a sound tree can be changed for another.
-/
import Sf37.Store.RadixTree
import Sf37.Text.CString

namespace Sf37.Radix

open Store RadixTree Text

/-- `RAX_NODE_MAX_SIZE` -/
def raxNodeMaxSize : Nat := 65535

/-- `raxNode`: a run is a compressed node. -/
abbrev RaxNode (V : Type) := RadixTree UInt8 V

/-- A child pointer, or the value of an inline leaf. -/
abbrev RaxSlot (V : Type) := RadixSlot UInt8 V

/-- A parent on the stack, without the slot that was followed. -/
abbrev RaxFrame (V : Type) := RadixFrame UInt8 V

/-- `rax` -/
structure Rax (V : Type) where
  head : RaxNode V
  numele : Nat
  numnodes : Nat

variable {V : Type}

/-- `raxNew` -/
def raxNew : Rax V where
  head := .branch none []
  numele := 0
  numnodes := 1

/-- `iscompr` -/
def iscompr : RaxNode V → Bool
  | .run _ _ _ => true
  | .branch _ _ => false

/-- `size` -/
def size : RaxNode V → Nat
  | .run _ label _ => label.length
  | .branch _ children => children.length

/-- A node for one edge: it is compressed when the edge has several letters. -/
def chain (key : Option V) : Bytes → RaxSlot V → RaxNode V
  | [c], child => .branch key [(c, child)]
  | label, child => .run key label child

/-- `raxNewValueNode` -/
def raxNewValueNode (data : V) : RaxNode V := .branch (some data) []

/-- A slot behind `raxMaterializeInlineLeaf`. -/
def materialized : RaxSlot V → RaxSlot V
  | .inl v => .inr (raxNewValueNode v)
  | .inr t => .inr t

/-- `raxNodeFindChildPos` -/
def raxNodeFindChildPos (children : List (UInt8 × RaxSlot V)) (c : UInt8) : Nat :=
  children.findIdx fun e => decide (c < e.1)

/-- `raxIsInlineLeaf` for the slot whose tag would not fit the bitmap behind an insertion. -/
def spills (children : List (UInt8 × RaxSlot V)) (pos : Nat) : Bool :=
  decide (pos ≤ 12) && (children[12]?).any fun e => e.2.isLeft

/-- `raxAddChildNoAlloc` with what is put into the new slot, and the nodes it makes. -/
def raxAddChild (children : List (UInt8 × RaxSlot V)) (c : UInt8) (slot : RaxSlot V) :
    List (UInt8 × RaxSlot V) × Nat :=
  let pos := raxNodeFindChildPos children c
  let (children, made) :=
    if spills children pos then
      (children.modify 12 fun e => (e.1, materialized e.2), 1)
    else (children, 0)
  (children.take pos ++ (c, slot) :: children.drop pos, made)

/-! ## The walk -/

/-- What `raxLowWalk` hands back: the parents of the stop node, the node, what is left of the key,
the split position, and the slot of an inline leaf. -/
structure RaxWalk (V : Type) where
  stack : List (RaxFrame V)
  node : RaxNode V
  rest : Bytes
  splitpos : Nat := 0
  inlineLeaf : Option (RaxFrame V × V) := none

/-- How many bytes of a compressed node the key goes along with. -/
def matching : Bytes → Bytes → Nat
  | a :: label, b :: s => if a = b then matching label s + 1 else 0
  | _, _ => 0

mutual

/-- `raxLowWalk` -/
def raxLowWalk (stack : List (RaxFrame V)) : RadixTree UInt8 V → Bytes → RaxWalk V
  | .run key label child, s =>
      if s = [] ∨ label = [] then { stack, node := .run key label child, rest := s }
      else
        let j := matching label s
        if j ≠ label.length then
          { stack, node := .run key label child, rest := s.drop j, splitpos := j }
        else
          match child with
          | .inl v =>
              { stack, node := .run key label (.inl v), rest := s.drop j,
                inlineLeaf := some (.run key label, v) }
          | .inr t => raxLowWalk (.run key label :: stack) t (s.drop j)
  | .branch key children, [] => { stack, node := .branch key children, rest := [] }
  | .branch key children, c :: s => raxWalkChild stack key [] children c s

/-- The scan of `raxLowWalk` for the child of a letter. -/
def raxWalkChild (stack : List (RaxFrame V)) (key : Option V)
    (before : List (UInt8 × RaxSlot V)) :
    List (UInt8 × (V ⊕ RadixTree UInt8 V)) → UInt8 → Bytes → RaxWalk V
  | [], c, s => { stack, node := .branch key before, rest := c :: s }
  | (d, slot) :: after, c, s =>
      if d = c then
        match slot with
        | .inl v =>
            { stack, node := .branch key (before ++ (d, .inl v) :: after), rest := s,
              inlineLeaf := some (.branch key before d after, v) }
        | .inr t => raxLowWalk (.branch key before d after :: stack) t s
      else raxWalkChild stack key (before ++ [(d, slot)]) after c s

end

/-- `raxFind` -/
def raxFind (t : Rax V) (s : Bytes) : Option V :=
  let w := raxLowWalk [] t.head s
  match w.inlineLeaf, w.rest with
  | some (_, v), [] => some v
  | _, rest =>
      if rest ≠ [] ∨ (iscompr w.node ∧ w.splitpos ≠ 0) then none
      else w.node.value

/-! ## Sound trees -/

/-- What every node of a tree keeps: the sizes of compressed nodes, the order of the letters, inline
leaves only where the bitmap can mark them, and a key at every end. -/
inductive Sound : RaxNode V → Prop where
  | run {key : Option V} {label : Bytes} {child : RaxSlot V} (long : 2 ≤ label.length)
      (fits : label.length ≤ raxNodeMaxSize) (below : ∀ t, child = .inr t → Sound t) :
      Sound (.run key label child)
  | branch {key : Option V} {children : List (UInt8 × RaxSlot V)}
      (sorted : (children.map Prod.fst).Pairwise (· < ·))
      (marked : ∀ i c v, children[i]? = some (c, .inl v) → i < 13)
      (ended : children = [] → key.isSome) (below : ∀ c t, (c, .inr t) ∈ children → Sound t) :
      Sound (.branch key children)

/-- The tree is empty or sound. -/
def SoundHead (t : RaxNode V) : Prop := t = .branch none [] ∨ Sound t

def SoundSlot (slot : RaxSlot V) : Prop := ∀ t, slot = .inr t → Sound t

theorem soundSlot_inl (v : V) : SoundSlot (.inl v) := fun _ h => by cases h

theorem soundSlot_inr {t : RaxNode V} (h : Sound t) : SoundSlot (.inr t) := by
  rintro _ ⟨⟩
  exact h

/-- A node with another slot in the place of one. -/
theorem Sound.fill {f : RaxFrame V} {slot slot' : RaxSlot V} (h : Sound (f.fill slot))
    (hslot : SoundSlot slot') (hleaf : slot'.isLeft → slot.isLeft) : Sound (f.fill slot') := by
  cases f with
  | run key label =>
    cases h with
    | run long fits below => exact .run long fits hslot
  | branch key before letter after =>
    cases h with
    | branch sorted marked ended below =>
      refine .branch (by simpa using sorted) (fun i c v hi => ?_) (fun h => by simp at h)
        fun c t hmem => ?_
      · by_cases hlen : i = before.length
        · subst hlen
          simp only [List.getElem?_append_right (Nat.le_refl _), Nat.sub_self,
            List.getElem?_cons_zero, Option.some.injEq, Prod.mk.injEq] at hi
          obtain ⟨rfl, rfl⟩ := hi
          obtain ⟨w, rfl⟩ := Sum.isLeft_iff.mp (hleaf rfl)
          refine marked before.length letter w ?_
          simp
        · refine marked i c v ?_
          rcases Nat.lt_or_gt_of_ne hlen with hlt | hgt
          · rw [List.getElem?_append_left hlt] at hi ⊢
            exact hi
          · rw [List.getElem?_append_right (Nat.le_of_lt hgt)] at hi ⊢
            obtain ⟨n, hn⟩ := Nat.exists_eq_add_of_lt hgt
            have hpos : i - before.length = n + 1 := by omega
            rw [hpos, List.getElem?_cons_succ] at hi ⊢
            exact hi
      · rw [List.mem_append, List.mem_cons] at hmem
        rcases hmem with hmem | hmem | hmem
        · exact below c t (List.mem_append_left _ hmem)
        · exact hslot t (Prod.mk.inj hmem).2.symm
        · exact below c t (List.mem_append_right _ (List.mem_cons_of_mem _ hmem))

theorem Sound.slot {f : RaxFrame V} {slot : RaxSlot V} (h : Sound (f.fill slot)) :
    SoundSlot slot := by
  cases f with
  | run key label =>
    cases h with
    | run long fits below => exact below
  | branch key before letter after =>
    cases h with
    | branch sorted marked ended below =>
      rintro t rfl
      exact below letter t (List.mem_append_right _ List.mem_cons_self)

/-- A letter stands only once in a sound node. -/
theorem Sound.clear {f : RaxFrame V} {slot : RaxSlot V} (h : Sound (f.fill slot)) : f.Clear := by
  cases f with
  | run key label =>
    cases h with
    | run long fits below =>
      rintro rfl
      exact absurd long (by decide)
  | branch key before letter after =>
    cases h with
    | branch sorted marked ended below =>
      intro hmem
      rw [List.map_append, List.pairwise_append] at sorted
      exact absurd (sorted.2.2 letter hmem letter (by simp)) (UInt8.lt_irrefl letter)

theorem Sound.of_plug {stack : List (RaxFrame V)} {t : RaxNode V} (h : Sound (plug stack t)) :
    Sound t := by
  induction stack generalizing t with
  | nil => exact h
  | cons f stack ih => exact (ih h).slot t rfl

theorem Sound.clear_of_plug {stack : List (RaxFrame V)} {t : RaxNode V}
    (h : Sound (plug stack t)) : ∀ f ∈ stack, f.Clear := by
  induction stack generalizing t with
  | nil => exact fun f hf => absurd hf List.not_mem_nil
  | cons f stack ih =>
    intro g hg
    rcases List.mem_cons.mp hg with rfl | hg
    · exact (@Sound.of_plug V stack _ h).clear
    · exact ih h g hg

/-- A sound node in a sound tree can be changed for another. -/
theorem Sound.plug {stack : List (RaxFrame V)} {t t' : RaxNode V} (h : Sound (plug stack t))
    (h' : Sound t') : Sound (plug stack t') := by
  induction stack generalizing t t' with
  | nil => exact h'
  | cons f stack ih =>
    have hf : Sound (f.fill (.inr t)) := @Sound.of_plug V stack _ h
    exact ih h (hf.fill (soundSlot_inr h') (by simp))

/-- Only a tree without parents is empty. -/
theorem SoundHead.plug_cons {f : RaxFrame V} {stack : List (RaxFrame V)} {t : RaxNode V}
    (h : SoundHead (plug (f :: stack) t)) : Sound (plug (f :: stack) t) := by
  rcases h with h | h
  · exfalso
    induction stack generalizing f t with
    | nil =>
      cases f with
      | run key label => cases h
      | branch key before letter after => simp at h
    | cons g stack ih => exact ih (f := g) h
  · exact h

/-! ## Where a walk stops -/

theorem matching_le (label s : Bytes) : matching label s ≤ label.length := by
  induction label generalizing s with
  | nil => simp [matching]
  | cons a label ih =>
    cases s with
    | nil => simp [matching]
    | cons b s =>
      rw [matching]
      split
      · exact Nat.succ_le_succ (ih s)
      · exact Nat.zero_le _

/-- The bytes that go along are the same. -/
theorem matching_append (label s : Bytes) :
    label.take (matching label s) ++ s.drop (matching label s) = s := by
  induction label generalizing s with
  | nil => simp [matching]
  | cons a label ih =>
    cases s with
    | nil => simp [matching]
    | cons b s =>
      rw [matching]
      split
      · rename_i hab
        simp [hab, ih s]
      · rfl

/-- The next bytes differ. -/
theorem matching_next {label s : Bytes} {a b : UInt8} {l r : Bytes}
    (hl : label.drop (matching label s) = a :: l) (hr : s.drop (matching label s) = b :: r) :
    a ≠ b := by
  induction label generalizing s with
  | nil => simp at hl
  | cons c label ih =>
    cases s with
    | nil => simp at hr
    | cons d s =>
      rw [matching] at hl hr
      split at hl
      · rename_i hcd
        rw [if_pos hcd, List.drop_succ_cons] at hr
        exact ih (by simpa using hl) hr
      · rename_i hcd
        rw [if_neg hcd, List.drop_zero] at hr
        simp only [List.drop_zero, List.cons.injEq] at hl hr
        rw [← hl.1, ← hr.1]
        exact hcd

/-- How a walk stops at a node with `r` of the key left. -/
inductive Stop (stack : List (RaxFrame V)) (node : RaxNode V) (r : Bytes) : RaxWalk V → Prop where
  /-- The key ends at the node. -/
  | here (hr : r = []) : Stop stack node r { stack, node, rest := [] }
  /-- The edge leads to a value. -/
  | inline (f : RaxFrame V) (v : V) (rest : Bytes) (hnode : node = f.fill (.inl v))
      (hr : r = f.label ++ rest) : Stop stack node r { stack, node, rest, inlineLeaf := some (f, v) }
  /-- The key leaves a compressed node, or ends in it. -/
  | split (key : Option V) (common tail : Bytes) (child : RaxSlot V) (rest : Bytes)
      (hnode : node = .run key (common ++ tail) child) (htail : tail ≠ []) (hr : r = common ++ rest)
      (hne : r ≠ []) (hnext : ∀ a b l s, tail = a :: l → rest = b :: s → a ≠ b) :
      Stop stack node r { stack, node, rest, splitpos := common.length }
  /-- There is no edge with the next letter. -/
  | missing (key : Option V) (children : List (UInt8 × RaxSlot V)) (c : UInt8) (rest : Bytes)
      (hnode : node = .branch key children) (hr : r = c :: rest)
      (hc : c ∉ children.map Prod.fst) : Stop stack node r { stack, node, rest := c :: rest }

/-- A walk from a node on: the parents passed, the node where it stops and what is left there. -/
def WalkStops (stack : List (RaxFrame V)) (h : RaxNode V) (s : Bytes) (w : RaxWalk V) : Prop :=
  ∃ frames node r, plug frames node = h ∧ pathOf frames ++ r = s ∧ Stop (frames ++ stack) node r w

theorem WalkStops.push {f : RaxFrame V} {stack : List (RaxFrame V)} {t : RaxNode V} {s : Bytes}
    {w : RaxWalk V} (h : WalkStops (f :: stack) t s w) :
    WalkStops stack (f.fill (.inr t)) (f.label ++ s) w := by
  obtain ⟨frames, node, r, rfl, rfl, hstop⟩ := h
  refine ⟨frames ++ [f], node, r, plug_append frames [f] node, ?_, ?_⟩
  · rw [pathOf_append, pathOf, pathOf, List.nil_append, List.append_assoc]
  · rwa [List.append_assoc, List.singleton_append]

theorem WalkStops.stay {stack : List (RaxFrame V)} {h : RaxNode V} {s : Bytes} {w : RaxWalk V}
    (hstop : Stop stack h s w) : WalkStops stack h s w :=
  ⟨[], h, s, rfl, rfl, hstop⟩

mutual

theorem raxLowWalk_stops : ∀ (h : RadixTree UInt8 V) (s : Bytes) (stack : List (RaxFrame V)),
    Sound h → WalkStops stack h s (raxLowWalk stack h s)
  | .run key label child, s, stack, hsound => by
    have hlabel : label ≠ [] := by
      cases hsound with
      | run long fits below =>
        rintro rfl
        exact absurd long (by decide)
    rw [raxLowWalk]
    by_cases hs : s = []
    · subst hs
      rw [if_pos (.inl rfl)]
      exact .stay (.here rfl)
    rw [if_neg (not_or.mpr ⟨hs, hlabel⟩)]
    have hcut := matching_append label s
    by_cases hj : matching label s = label.length
    · rw [hj, List.take_length] at hcut
      simp only [hj, ne_eq, not_true_eq_false, if_false]
      cases child with
      | inl v =>
        exact .stay (.inline (.run key label) v _ rfl hcut.symm)
      | inr t =>
        have hwalk := raxLowWalk_stops t (s.drop label.length) (.run key label :: stack)
          (Sound.slot (f := .run key label) hsound t rfl)
        have hpush := hwalk.push
        rwa [RadixFrame.label, hcut] at hpush
    · simp only [ne_eq, hj, not_false_eq_true, if_true]
      have hlen := matching_le label s
      have hstop := @Stop.split V stack (.run key label child) s key
        (label.take (matching label s)) (label.drop (matching label s)) child
        (s.drop (matching label s)) (by rw [List.take_append_drop]) (by simp; omega) hcut.symm hs
        fun a b l r hl hr => matching_next hl hr
      rw [List.length_take, Nat.min_eq_left hlen] at hstop
      exact .stay hstop
  | .branch key children, [], stack, _ => by
    rw [raxLowWalk]
    exact .stay (.here rfl)
  | .branch key children, c :: s, stack, hsound => by
    rw [raxLowWalk]
    exact raxWalkChild_stops children key [] c s stack hsound (by simp)

theorem raxWalkChild_stops : ∀ (after : List (UInt8 × (V ⊕ RadixTree UInt8 V)))
    (key : Option V) (before : List (UInt8 × RaxSlot V)) (c : UInt8) (s : Bytes)
    (stack : List (RaxFrame V)), Sound (.branch key (before ++ after)) →
    c ∉ before.map Prod.fst →
    WalkStops stack (.branch key (before ++ after)) (c :: s) (raxWalkChild stack key before after c s)
  | [], key, before, c, s, stack, _, hc => by
    rw [raxWalkChild, List.append_nil]
    exact .stay (.missing key before c s rfl rfl hc)
  | (d, .inl v) :: after, key, before, c, s, stack, hsound, hc => by
    rw [raxWalkChild]
    by_cases hd : d = c
    · subst hd
      rw [if_pos rfl]
      exact .stay (.inline (.branch key before d after) v s rfl rfl)
    · rw [if_neg hd]
      have hrest := raxWalkChild_stops after key (before ++ [(d, .inl v)]) c s stack
        (by simpa using hsound) (by simpa [Ne.symm hd] using hc)
      simpa using hrest
  | (d, .inr t) :: after, key, before, c, s, stack, hsound, hc => by
    rw [raxWalkChild]
    by_cases hd : d = c
    · subst hd
      rw [if_pos rfl]
      have hwalk := raxLowWalk_stops t s (.branch key before d after :: stack)
        (Sound.slot (f := .branch key before d after) hsound t rfl)
      exact hwalk.push
    · rw [if_neg hd]
      have hrest := raxWalkChild_stops after key (before ++ [(d, .inr t)]) c s stack
        (by simpa using hsound) (by simpa [Ne.symm hd] using hc)
      simpa using hrest

end

/-- The walk of an operation. -/
theorem raxLowWalk_stop {head : RaxNode V} (h : SoundHead head) (s : Bytes) :
    WalkStops [] head s (raxLowWalk [] head s) := by
  rcases h with rfl | h
  · cases s with
    | nil => exact .stay (.here rfl)
    | cons c s => exact .stay (.missing none [] c s rfl rfl (by simp))
  · exact raxLowWalk_stops head s [] h

theorem SoundHead.clear {stack : List (RaxFrame V)} {t : RaxNode V}
    (h : SoundHead (plug stack t)) : ∀ f ∈ stack, f.Clear := by
  cases stack with
  | nil => exact fun f hf => absurd hf List.not_mem_nil
  | cons f stack => exact h.plug_cons.clear_of_plug

/-- A node with an edge is sound, also at the head. -/
theorem SoundHead.fill {stack : List (RaxFrame V)} {f : RaxFrame V} {slot : RaxSlot V}
    (h : SoundHead (plug stack (f.fill slot))) : Sound (f.fill slot) := by
  cases stack with
  | nil =>
    rcases h with h | h
    · cases f <;> simp at h
    · exact h
  | cons g stack => exact Sound.of_plug h.plug_cons

/-- A key that leaves a compressed node is not under it. -/
theorem find_split {key : Option V} {common tail rest : Bytes} {child : RaxSlot V}
    (htail : tail ≠ []) (hne : common ++ rest ≠ [])
    (hnext : ∀ a b l s, tail = a :: l → rest = b :: s → a ≠ b) :
    (RadixTree.run key (common ++ tail) child).find (common ++ rest) = none := by
  refine find_run_outside key hne (fun hpre => ?_) child
  rw [List.prefix_append_right_inj] at hpre
  obtain ⟨a, l, rfl⟩ := List.exists_cons_of_ne_nil htail
  obtain ⟨u, hu⟩ := hpre
  exact hnext a a l (l ++ u) rfl hu.symm rfl

/-- The search finds what the tree holds. -/
theorem raxFind_eq {t : Rax V} (h : SoundHead t.head) (s : Bytes) :
    raxFind t s = t.head.find s := by
  obtain ⟨stack, node, r, hplug, rfl, hstop⟩ := raxLowWalk_stop h s
  rw [← hplug] at h
  have hfind := find_plug_path h.clear node r
  rw [hplug] at hfind
  rw [hfind, raxFind]
  generalize raxLowWalk [] t.head (pathOf stack ++ r) = w at hstop
  cases hstop with
  | here hr =>
    subst hr
    simp
  | inline f v rest hnode hr =>
    subst hnode hr
    rw [RadixFrame.find_fill_label h.fill.clear, findSlot_inl]
    cases rest <;> simp
  | split key common tail child rest hnode htail hr hne hnext =>
    subst hnode hr
    rw [find_split htail hne hnext]
    cases rest with
    | nil =>
      have hcommon : common ≠ [] := by simpa using hne
      simp [iscompr, hcommon]
    | cons b rest => simp
  | missing key children c rest hnode hr hc =>
    subst hnode hr
    rw [find_branch_cons, findChild_of_not_mem hc]
    simp

end Sf37.Radix

/-
Sf37.Radix.Insert — `raxInsert` and `raxTryInsert`.

* `raxInsertRest_spec`: what the loop that makes the missing nodes leaves of a node.
* `raxSplit_spec`: what the split of a compressed node leaves of it.
* `raxGenericInsert_spec`: an insertion changes the tree under its key only, tells whether
  the key is new, and keeps the tree sound and the counts right.
-/
import Sf37.Radix.Node

namespace Sf37.Radix

open Store RadixTree Text

variable {V : Type}

/-! ## The source -/

/-- The loop of `raxGenericInsert` from a node without the next letter on: the node, the nodes made
and the keys added. -/
def raxInsertRest (data : V) (key : Option V) (children : List (UInt8 × RaxSlot V)) :
    Bytes → RaxNode V × Nat × Nat
  | [] => (.branch (some data) children, 0, if key.isSome then 0 else 1)
  | c :: s =>
      if children = [] ∧ s ≠ [] then
        if (c :: s).length ≤ raxNodeMaxSize then (.run key (c :: s) (.inl data), 0, 1)
        else
          let (child, made, added) := raxInsertRest data none [] ((c :: s).drop raxNodeMaxSize)
          (.run key ((c :: s).take raxNodeMaxSize) (.inr child), made + 1, added)
      else if s = [] ∧ raxNodeFindChildPos children c < 13 then
        let (children, spilled) := raxAddChild children c (.inl data)
        (.branch key children, spilled, 1)
      else
        let (child, made, added) := raxInsertRest data none [] s
        let (children, spilled) := raxAddChild children c (.inr child)
        (.branch key children, made + 1 + spilled, added)
termination_by s => s.length
decreasing_by
  · simp only [raxNodeMaxSize, List.length_drop, List.length_cons]
    omega
  · simp

/-- The first algorithm: the key leaves a compressed node at `j`. -/
def raxSplit (data : V) (key : Option V) (label : Bytes) (child : RaxSlot V) (j : Nat)
    (rest : Bytes) : RaxNode V × Nat × Nat :=
  match label.drop j with
  | [] => (.run key label child, 0, 0)
  | d :: postfixed =>
      let (next, postfixes) :=
        if postfixed = [] then (child, 0) else (.inr (chain none postfixed child), 1)
      let (h, made, added) := raxInsertRest data (if j = 0 then key else none) [(d, next)] rest
      if j = 0 then (h, postfixes + made, added)
      else (chain key (label.take j) (.inr h), 1 + postfixes + made, added)

/-- The second algorithm: the key ends in a compressed node at `j`. -/
def raxSplitKey (data : V) (key : Option V) (label : Bytes) (child : RaxSlot V) (j : Nat) :
    RaxNode V :=
  chain key (label.take j) (.inr (chain (some data) (label.drop j) child))

/-- `raxGenericInsert`: the tree, what it returns, and `*old`. -/
def raxGenericInsert (t : Rax V) (s : Bytes) (data : V) (overwrite : Bool) :
    Rax V × Bool × Option V :=
  let w := raxLowWalk [] t.head s
  match w.inlineLeaf with
  | some (f, cur) =>
      if w.rest = [] then
        (if overwrite then { t with head := plug w.stack (f.fill (.inl data)) } else t, false,
          some cur)
      else
        -- `raxMaterializeInlineLeaf`, and on from the leaf
        let (leaf, made, added) := raxInsertRest data (some cur) [] w.rest
        ({ head := plug (f :: w.stack) leaf, numele := t.numele + added,
           numnodes := t.numnodes + 1 + made }, true, none)
  | none =>
      if w.rest = [] ∧ (iscompr w.node = false ∨ w.splitpos = 0) then
        let set := plug w.stack (w.node.setValue (some data))
        match w.node.value with
        | some old => (if overwrite then { t with head := set } else t, false, some old)
        | none => ({ t with head := set, numele := t.numele + 1 }, true, none)
      else
        match w.node with
        | .run key label child =>
            if w.rest ≠ [] then
              let (h, made, added) := raxSplit data key label child w.splitpos w.rest
              ({ head := plug w.stack h, numele := t.numele + added,
                 numnodes := t.numnodes + made }, true, none)
            else
              ({ head := plug w.stack (raxSplitKey data key label child w.splitpos),
                 numele := t.numele + 1, numnodes := t.numnodes + 1 }, true, none)
        | .branch key children =>
            let (h, made, added) := raxInsertRest data key children w.rest
            ({ head := plug w.stack h, numele := t.numele + added,
               numnodes := t.numnodes + made }, true, none)

/-- `raxInsert` -/
def raxInsert (t : Rax V) (s : Bytes) (data : V) : Rax V × Bool × Option V :=
  raxGenericInsert t s data true

/-- `raxTryInsert` -/
def raxTryInsert (t : Rax V) (s : Bytes) (data : V) : Rax V × Bool × Option V :=
  raxGenericInsert t s data false

/-! ## A node of one edge -/

theorem chain_find (key : Option V) {label : Bytes} (hlabel : label ≠ []) (child : RaxSlot V)
    (k : Bytes) : (chain key label child).find k = (RadixTree.run key label child).find k := by
  match label, hlabel with
  | [c], _ =>
    cases k with
    | nil => simp [chain]
    | cons d k =>
      rw [chain, find_branch_cons, findChild_cons, find_run_cons]
      by_cases hc : c = d
      · subst hc
        rw [if_pos rfl, if_pos ⟨k, rfl⟩]
        rfl
      · rw [if_neg hc, if_neg (fun h => hc (List.cons_prefix_cons.mp h).1), findChild_nil]
  | c :: d :: label, _ => rfl

theorem chain_nodes (key : Option V) {label : Bytes} (hlabel : label ≠ []) (child : RaxSlot V) :
    (chain key label child).nodes = slotNodes child + 1 := by
  match label, hlabel with
  | [c], _ => simp [chain]
  | c :: d :: label, _ => simp [chain]

theorem chain_keys (key : Option V) {label : Bytes} (hlabel : label ≠ []) (child : RaxSlot V) :
    (chain key label child).entries.length = key.toList.length + (slotEntries child).length := by
  match label, hlabel with
  | [c], _ => cases key <;> simp [chain, Nat.add_comm]
  | c :: d :: label, _ => cases key <;> simp [chain, Nat.add_comm]

theorem chain_sound {key : Option V} {label : Bytes} (hlabel : label ≠ [])
    (hfits : label.length ≤ raxNodeMaxSize) {child : RaxSlot V} (hchild : SoundSlot child) :
    Sound (chain key label child) := by
  match label, hlabel with
  | [c], _ =>
    refine .branch (by simp) (fun i d v hi => ?_) (by simp) fun d t hmem => ?_
    · cases i with
      | zero => decide
      | succ i => simp at hi
    · rw [List.mem_singleton, Prod.mk.injEq] at hmem
      exact hchild t hmem.2.symm
  | c :: d :: label, _ => exact .run (by simp) hfits hchild

/-- A run is one run behind another. -/
theorem find_run_append_run (key : Option V) {a b : Bytes} (ha : a ≠ []) (hb : b ≠ [])
    (child : RaxSlot V) (k : Bytes) :
    (RadixTree.run key (a ++ b) child).find k =
      (RadixTree.run key a (.inr (.run none b child))).find k := by
  by_cases hk : k = []
  · subst hk
    simp
  · by_cases hpre : a <+: k
    · obtain ⟨r, rfl⟩ := hpre
      rw [find_run_append key ha, findSlot_inr]
      by_cases hb' : b <+: r
      · obtain ⟨u, rfl⟩ := hb'
        rw [find_run_append none hb, ← List.append_assoc,
          find_run_append key (List.append_ne_nil_of_left_ne_nil ha b)]
      · rw [find_run_outside key hk fun h => hb' ((List.prefix_append_right_inj a).mp h)]
        cases r with
        | nil => simp
        | cons d r => rw [find_run_cons, if_neg hb']
    · rw [find_run_outside key hk hpre,
        find_run_outside key hk fun h => hpre ((List.prefix_append a b).trans h)]

/-- A run above a node that is changed under one key. -/
theorem find_run_update (key : Option V) {label x : Bytes} (hlabel : label ≠ [])
    {t t' : RaxNode V} {v : Option V} (h : ∀ r, t'.find r = if r = x then v else t.find r)
    (k : Bytes) : (RadixTree.run key label (.inr t')).find k =
      if k = label ++ x then v else (RadixTree.run key label (.inr t)).find k := by
  have hclear : (RadixFrame.run key label : RaxFrame V).Clear := hlabel
  refine find_fill_update hclear (fun r => ?_) k
  rw [findSlot_inr, findSlot_inr, h]

/-- A run above one key. -/
theorem find_run_single (key : Option V) {label x : Bytes} (hlabel : label ≠ [])
    {slot : RaxSlot V} {v : V} (h : ∀ r, findSlot slot r = if r = x then some v else none)
    (k : Bytes) :
    (RadixTree.run key label slot).find k =
      if k = label ++ x then some v else (RadixTree.branch key ([] : List (UInt8 × RaxSlot V))).find k
    := by
  by_cases hk : k = []
  · subst hk
    rw [if_neg (by simp [hlabel])]
    simp
  · obtain ⟨c, r, rfl⟩ := List.exists_cons_of_ne_nil hk
    rw [find_branch_cons, findChild_nil]
    by_cases hpre : label <+: c :: r
    · obtain ⟨u, hu⟩ := hpre
      rw [← hu, find_run_append key hlabel, h]
      simp only [List.append_cancel_left_eq]
    · rw [find_run_outside key hk hpre, if_neg]
      intro heq
      exact hpre ⟨x, heq.symm⟩

/-! ## A child more -/

/-- What the children of a sound node keep. -/
structure SoundChildren (children : List (UInt8 × RaxSlot V)) : Prop where
  sorted : (children.map Prod.fst).Pairwise (· < ·)
  marked : ∀ i c v, children[i]? = some (c, .inl v) → i < 13
  below : ∀ e ∈ children, SoundSlot e.2

theorem Sound.children {key : Option V} {children : List (UInt8 × RaxSlot V)}
    (h : Sound (.branch key children)) : SoundChildren children := by
  cases h with
  | branch sorted marked ended below =>
    exact ⟨sorted, marked, fun e he t ht => below e.1 t (ht ▸ he)⟩

theorem SoundChildren.sound {key : Option V} {children : List (UInt8 × RaxSlot V)}
    (h : SoundChildren children) (hended : children = [] → key.isSome) :
    Sound (.branch key children) :=
  .branch h.sorted h.marked hended fun c t hmem => h.below (c, .inr t) hmem t rfl

theorem soundChildren_nil : SoundChildren ([] : List (UInt8 × RaxSlot V)) where
  sorted := List.Pairwise.nil
  marked := by simp
  below := by simp

theorem SoundChildren.single {c : UInt8} {slot : RaxSlot V} (h : SoundSlot slot) :
    SoundChildren [(c, slot)] where
  sorted := by simp
  marked i d v hi := by
    cases i with
    | zero => decide
    | succ i => simp at hi
  below := by simpa using h

/-- The letter that would not fit the bitmap is the thirteenth, and its value becomes a node. -/
theorem spills_cases {children : List (UInt8 × RaxSlot V)} {pos : Nat}
    (h : spills children pos = true) :
    ∃ before d v after, children = before ++ (d, .inl v) :: after ∧ before.length = 12 ∧
      pos ≤ 12 ∧ (children.modify 12 fun e => (e.1, materialized e.2)) =
        before ++ (d, .inr (raxNewValueNode v)) :: after := by
  rw [spills, Bool.and_eq_true, decide_eq_true_eq, Option.any_eq_true] at h
  obtain ⟨hpos, ⟨d, slot⟩, hget, hleft⟩ := h
  obtain ⟨v, rfl⟩ := Sum.isLeft_iff.mp hleft
  obtain ⟨hlt, hval⟩ := List.getElem?_eq_some_iff.mp hget
  refine ⟨children.take 12, d, v, children.drop 13, ?_, ?_, hpos, ?_⟩
  · conv_lhs => rw [← List.take_append_drop 12 children, List.drop_eq_getElem_cons hlt, hval]
  · rw [List.length_take, Nat.min_eq_left (Nat.le_of_lt hlt)]
  · rw [List.modify_eq_take_cons_drop hlt, hval]
    rfl

/-- The children as they are when the new one comes in, and the nodes made of them. -/
def roomFor (children : List (UInt8 × RaxSlot V)) (c : UInt8) : List (UInt8 × RaxSlot V) × Nat :=
  if spills children (raxNodeFindChildPos children c) then
    (children.modify 12 fun e => (e.1, materialized e.2), 1)
  else (children, 0)

theorem raxAddChild_eq (children : List (UInt8 × RaxSlot V)) (c : UInt8) (slot : RaxSlot V) :
    raxAddChild children c slot =
      ((roomFor children c).1.take (raxNodeFindChildPos children c) ++
        (c, slot) :: (roomFor children c).1.drop (raxNodeFindChildPos children c),
        (roomFor children c).2) := by
  rw [raxAddChild, roomFor]

/-- What changes when room is made: the thirteenth slot may become a node. -/
theorem roomFor_cases (children : List (UInt8 × RaxSlot V)) (c : UInt8) :
    (roomFor children c = (children, 0) ∧ ∀ d v, raxNodeFindChildPos children c ≤ 12 →
        children[12]? ≠ some (d, .inl v)) ∨
      ∃ before d v after, children = before ++ (d, .inl v) :: after ∧ before.length = 12 ∧
        roomFor children c = (before ++ (d, .inr (raxNewValueNode v)) :: after, 1) := by
  rw [roomFor]
  by_cases h : spills children (raxNodeFindChildPos children c) = true
  · right
    obtain ⟨before, d, v, after, hchildren, hlen, -, hmodify⟩ := spills_cases h
    exact ⟨before, d, v, after, hchildren, hlen, by rw [if_pos h, hmodify]⟩
  · left
    refine ⟨by rw [if_neg h], fun d v hpos hget => h ?_⟩
    rw [spills, hget, decide_eq_true hpos]
    rfl

theorem roomFor_letters (children : List (UInt8 × RaxSlot V)) (c : UInt8) :
    (roomFor children c).1.map Prod.fst = children.map Prod.fst := by
  rcases roomFor_cases children c with ⟨h, -⟩ | ⟨before, d, v, after, rfl, -, h⟩ <;> simp [h]

theorem roomFor_find (children : List (UInt8 × RaxSlot V)) (c d : UInt8) (k : Bytes) :
    findChild (roomFor children c).1 d k = findChild children d k := by
  rcases roomFor_cases children c with ⟨h, -⟩ | ⟨before, b, v, after, rfl, -, h⟩
  · rw [h]
  · rw [h]
    refine findChild_congr (fun r => ?_) d k
    cases r <;> simp [raxNewValueNode]

theorem roomFor_nodes (children : List (UInt8 × RaxSlot V)) (c : UInt8) :
    childNodes (roomFor children c).1 = childNodes children + (roomFor children c).2 := by
  rcases roomFor_cases children c with ⟨h, -⟩ | ⟨before, b, v, after, rfl, -, h⟩
  · simp only [h, Nat.add_zero]
  · simp only [h, childNodes_append, childNodes_nil, childNodes_cons, slotNodes_inl, slotNodes_inr,
      raxNewValueNode, nodes_branch]
    omega

theorem roomFor_keys (children : List (UInt8 × RaxSlot V)) (c : UInt8) :
    (childEntries (roomFor children c).1).length = (childEntries children).length := by
  rcases roomFor_cases children c with ⟨h, -⟩ | ⟨before, b, v, after, rfl, -, h⟩
  · rw [h]
  · simp [h, childEntries_append, raxNewValueNode]

theorem raxNewValueNode_sound (v : V) : Sound (raxNewValueNode v) :=
  soundChildren_nil.sound fun _ => rfl

/-- Room is made for the tags of the bitmap too. -/
theorem roomFor_sound {children : List (UInt8 × RaxSlot V)} (h : SoundChildren children)
    (c : UInt8) : SoundChildren (roomFor children c).1 ∧
      ∀ i d v, raxNodeFindChildPos children c ≤ i →
        (roomFor children c).1[i]? = some (d, .inl v) → i < 12 := by
  rcases roomFor_cases children c with ⟨hroom, hspill⟩ | ⟨before, b, w, after, rfl, hlen, hroom⟩
  · rw [hroom]
    refine ⟨h, fun i d v hpos hget => ?_⟩
    have hi := h.marked i d v hget
    by_cases h12 : i = 12
    · subst h12
      exact absurd hget (hspill d v hpos)
    · omega
  · rw [hroom]
    have hget : ∀ i d v, (before ++ (b, .inr (raxNewValueNode w)) :: after)[i]? =
        some (d, .inl v) → i ≠ 12 ∧ (before ++ (b, .inl w) :: after)[i]? = some (d, .inl v) := by
      intro i d v hi
      have hne : i ≠ 12 := by
        rintro rfl
        rw [List.getElem?_append_right (by omega), hlen] at hi
        simp at hi
      refine ⟨hne, ?_⟩
      rcases Nat.lt_or_gt_of_ne hne with hlt | hgt
      · rw [List.getElem?_append_left (by omega)] at hi ⊢
        exact hi
      · obtain ⟨n, hn⟩ := Nat.exists_eq_add_of_lt hgt
        rw [List.getElem?_append_right (by omega), hlen, show i - 12 = n + 1 by omega,
          List.getElem?_cons_succ] at hi ⊢
        exact hi
    refine ⟨⟨by simpa using h.sorted, fun i d v hi => h.marked i d v (hget i d v hi).2,
      fun e he => ?_⟩, fun i d v _ hi => ?_⟩
    · rw [List.mem_append, List.mem_cons] at he
      rcases he with he | rfl | he
      · exact h.below e (List.mem_append_left _ he)
      · exact soundSlot_inr (raxNewValueNode_sound w)
      · exact h.below e (List.mem_append_right _ (List.mem_cons_of_mem _ he))
    · have hi' := h.marked i d v (hget i d v hi).2
      have hne := (hget i d v hi).1
      omega

theorem raxAddChild_find {children : List (UInt8 × RaxSlot V)} {c : UInt8}
    (hc : c ∉ children.map Prod.fst) (slot : RaxSlot V) (d : UInt8) (k : Bytes) :
    findChild (raxAddChild children c slot).1 d k =
      if d = c then findSlot slot k else findChild children d k := by
  rw [raxAddChild_eq, ← roomFor_find children c d]
  rw [← roomFor_letters children c] at hc
  generalize (roomFor children c).1 = room at hc ⊢
  have hbefore : c ∉ (room.take (raxNodeFindChildPos children c)).map Prod.fst :=
    fun h => hc ((List.take_sublist _ room).map Prod.fst |>.subset h)
  split
  · rename_i hd
    subst hd
    rw [findChild_append hbefore, findChild_cons, if_pos rfl]
  · rename_i hd
    rw [findChild_middle (Ne.symm hd), List.take_append_drop]

theorem raxAddChild_nodes (children : List (UInt8 × RaxSlot V)) (c : UInt8) (slot : RaxSlot V) :
    childNodes (raxAddChild children c slot).1 =
      childNodes children + slotNodes slot + (raxAddChild children c slot).2 := by
  have hroom := roomFor_nodes children c
  rw [raxAddChild_eq]
  generalize (roomFor children c) = room at hroom ⊢
  rw [← List.take_append_drop (raxNodeFindChildPos children c) room.1, childNodes_append] at hroom
  simp only [childNodes_append, childNodes_cons]
  omega

theorem raxAddChild_keys (children : List (UInt8 × RaxSlot V)) (c : UInt8) (slot : RaxSlot V) :
    (childEntries (raxAddChild children c slot).1).length =
      (childEntries children).length + (slotEntries slot).length := by
  have hroom := roomFor_keys children c
  rw [raxAddChild_eq]
  generalize (roomFor children c) = room at hroom ⊢
  rw [← List.take_append_drop (raxNodeFindChildPos children c) room.1, childEntries_append,
    List.length_append] at hroom
  simp only [childEntries_append, childEntries_cons, List.length_append, List.length_map]
  omega

/-- The letters before the place of a new letter are smaller, those behind it are greater. -/
theorem findIdx_sorted {l : Bytes} (h : l.Pairwise (· < ·)) {c : UInt8} (hc : c ∉ l) :
    (∀ a ∈ l.take (l.findIdx fun a => decide (c < a)), a < c) ∧
      ∀ a ∈ l.drop (l.findIdx fun a => decide (c < a)), c < a := by
  induction l with
  | nil => simp
  | cons a l ih =>
    rw [List.mem_cons, not_or] at hc
    rw [List.pairwise_cons] at h
    rw [List.findIdx_cons]
    by_cases hca : c < a
    · rw [decide_eq_true hca, cond_true, List.take_zero, List.drop_zero]
      refine ⟨by simp, fun b hb => ?_⟩
      rcases List.mem_cons.mp hb with rfl | hb
      · exact hca
      · exact UInt8.lt_trans hca (h.1 b hb)
    · obtain ⟨hbefore, hbehind⟩ := ih h.2 hc.2
      rw [decide_eq_false hca, cond_false, List.take_succ_cons, List.drop_succ_cons]
      refine ⟨fun b hb => ?_, hbehind⟩
      rcases List.mem_cons.mp hb with rfl | hb
      · exact UInt8.lt_of_le_of_ne (UInt8.not_lt.mp hca) (Ne.symm hc.1)
      · exact hbefore b hb

theorem raxAddChild_sound {children : List (UInt8 × RaxSlot V)} (h : SoundChildren children)
    {c : UInt8} (hc : c ∉ children.map Prod.fst) {slot : RaxSlot V} (hslot : SoundSlot slot)
    (hfits : slot.isLeft → raxNodeFindChildPos children c < 13) :
    SoundChildren (raxAddChild children c slot).1 := by
  obtain ⟨hroom, hspill⟩ := roomFor_sound h c
  have hletters := roomFor_letters children c
  have hpos : raxNodeFindChildPos children c =
      (children.map Prod.fst).findIdx fun a => decide (c < a) := by
    rw [raxNodeFindChildPos, List.findIdx_map]
    rfl
  obtain ⟨hsmall, hgreat⟩ := findIdx_sorted h.sorted hc
  rw [← hpos, ← hletters, ← List.map_take] at hsmall
  rw [← hpos, ← hletters, ← List.map_drop] at hgreat
  have hle : raxNodeFindChildPos children c ≤ (roomFor children c).1.length := by
    rw [← List.length_map (f := Prod.fst), hletters, List.length_map]
    exact List.findIdx_le_length
  rw [raxAddChild_eq]
  generalize raxNodeFindChildPos children c = pos at *
  generalize (roomFor children c).1 = room at *
  have hlen : (room.take pos).length = pos := by rw [List.length_take, Nat.min_eq_left hle]
  refine ⟨?_, fun i d v hi => ?_, fun e he => ?_⟩
  · have hsorted := hroom.sorted
    rw [← List.take_append_drop pos room, List.map_append, List.pairwise_append] at hsorted
    rw [List.map_append, List.map_cons, List.pairwise_append, List.pairwise_cons]
    refine ⟨hsorted.1, ⟨hgreat, hsorted.2.1⟩, fun a ha b hb => ?_⟩
    rcases List.mem_cons.mp hb with rfl | hb
    · exact hsmall a ha
    · exact hsorted.2.2 a ha b hb
  · rcases Nat.lt_trichotomy i pos with hlt | rfl | hgt
    · rw [List.getElem?_append_left (by omega), List.getElem?_take_of_lt hlt] at hi
      exact hroom.marked i d v hi
    · rw [List.getElem?_append_right (by omega), hlen, Nat.sub_self, List.getElem?_cons_zero,
        Option.some.injEq, Prod.mk.injEq] at hi
      exact hfits (by rw [hi.2]; rfl)
    · obtain ⟨n, rfl⟩ := Nat.exists_eq_add_of_lt hgt
      rw [List.getElem?_append_right (by omega), hlen,
        show pos + n + 1 - pos = n + 1 by omega, List.getElem?_cons_succ,
        List.getElem?_drop] at hi
      have := hspill (pos + n) d v (Nat.le_add_right pos n) hi
      omega
  · rw [List.mem_append, List.mem_cons] at he
    rcases he with he | rfl | he
    · exact hroom.below e (List.mem_of_mem_take he)
    · exact hslot
    · exact hroom.below e (List.mem_of_mem_drop he)

/-! ## The loop -/

/-- A node that a key is put under, with the nodes made and the keys added. -/
structure Grown (data : V) (s : Bytes) (t : RaxNode V) (out : RaxNode V × Nat × Nat) : Prop where
  find : ∀ k, out.1.find k = if k = s then some data else t.find k
  sound : Sound out.1
  nodes : out.1.nodes = t.nodes + out.2.1
  keys : out.1.entries.length = t.entries.length + out.2.2

/-- A new child: what is put into its slot holds the rest of the key. -/
theorem Grown.child {data : V} (key : Option V) {children : List (UInt8 × RaxSlot V)} {c : UInt8}
    {s : Bytes} {slot : RaxSlot V} {made added : Nat} (hsound : SoundChildren children)
    (hc : c ∉ children.map Prod.fst)
    (hfind : ∀ r, findSlot slot r = if r = s then some data else none) (hslot : SoundSlot slot)
    (hfits : slot.isLeft → raxNodeFindChildPos children c < 13)
    (hmade : slotNodes slot = made) (hadded : (slotEntries slot).length = added) :
    Grown data (c :: s) (.branch key children) (.branch key (raxAddChild children c slot).1,
      made + (raxAddChild children c slot).2, added) where
  find k := by
    cases k with
    | nil => simp
    | cons d k =>
      rw [find_branch_cons, find_branch_cons, raxAddChild_find hc]
      by_cases hd : d = c
      · subst hd
        rw [if_pos rfl, hfind, findChild_of_not_mem hc]
        simp
      · rw [if_neg hd, if_neg (by simp [hd])]
  sound := by
    refine (raxAddChild_sound hsound hc hslot hfits).sound fun h => ?_
    rw [raxAddChild_eq] at h
    simp at h
  nodes := by
    have h := raxAddChild_nodes children c slot
    simp only [RadixTree.nodes_branch]
    omega
  keys := by
    have h := raxAddChild_keys children c slot
    simp only [entries_branch, List.length_append]
    omega

/-- A run on a node without children. -/
theorem Grown.run {data : V} (key : Option V) {label x : Bytes} {slot : RaxSlot V}
    {made added : Nat} (hlong : 2 ≤ label.length) (hmax : label.length ≤ raxNodeMaxSize)
    (hfind : ∀ r, findSlot slot r = if r = x then some data else none) (hslot : SoundSlot slot)
    (hmade : slotNodes slot = made) (hadded : (slotEntries slot).length = added) :
    Grown data (label ++ x) (.branch key []) (.run key label slot, made, added) where
  find k := find_run_single key (List.ne_nil_of_length_pos (by omega)) hfind k
  sound := .run hlong hmax hslot
  nodes := by
    simp only [RadixTree.nodes_run, RadixTree.nodes_branch, childNodes_nil]
    omega
  keys := by
    simp only [entries_run, entries_branch, childEntries_nil, List.length_append, List.length_map,
      List.length_nil]
    omega

theorem findSlot_inl_iff (data : V) (r : Bytes) :
    findSlot (.inl data : RaxSlot V) r = if r = [] then some data else none := by
  rw [findSlot_inl]

/-- The new node of a loop that goes on holds the rest of the key only. -/
theorem Grown.single {data : V} {s : Bytes} {child : RaxNode V} {made added : Nat}
    (h : Grown data s (.branch none []) (child, made, added)) :
    (∀ r, findSlot (.inr child) r = if r = s then some data else none) ∧
      slotNodes (.inr child) = made + 1 ∧ (slotEntries (.inr child)).length = added := by
  refine ⟨fun r => ?_, ?_, ?_⟩
  · rw [findSlot_inr, h.find]
    cases r <;> simp
  · have hnodes := h.nodes
    simp only [RadixTree.nodes_branch, childNodes_nil, slotNodes_inr] at hnodes ⊢
    omega
  · have hkeys := h.keys
    simp only [entries_branch, childEntries_nil, slotEntries_inr, Option.map_none,
      Option.toList_none, List.nil_append, List.length_nil] at hkeys ⊢
    omega

/-- The loop puts the rest of the key under a node that has no edge for it. -/
theorem raxInsertRest_spec (data : V) (key : Option V) (children : List (UInt8 × RaxSlot V))
    (s : Bytes) (hsound : SoundChildren children)
    (hnext : ∀ c r, s = c :: r → c ∉ children.map Prod.fst) :
    Grown data s (.branch key children) (raxInsertRest data key children s) := by
  induction key, children, s using raxInsertRest.induct data with
  | case1 key children =>
    rw [raxInsertRest]
    refine ⟨fun k => ?_, hsound.sound fun _ => rfl, rfl, ?_⟩
    · cases k <;> simp
    · cases key <;> simp
  | case2 key children c s h hle =>
    obtain ⟨rfl, hs⟩ := h
    rw [raxInsertRest, if_pos ⟨rfl, hs⟩, if_pos hle]
    have hlen := List.length_pos_iff.mpr hs
    have hrun := Grown.run key (by rw [List.length_cons]; omega) hle
      (findSlot_inl_iff data) (soundSlot_inl data) rfl rfl
    rwa [List.append_nil] at hrun
  | case3 key children c s h hle child made added hrest ih =>
    obtain ⟨rfl, hs⟩ := h
    rw [raxInsertRest, if_pos ⟨rfl, hs⟩, if_neg hle, hrest]
    have hgrown := ih soundChildren_nil (by simp)
    rw [hrest] at hgrown
    obtain ⟨hfind, hmade, hadded⟩ := hgrown.single
    have hlen : ((c :: s).take raxNodeMaxSize).length = raxNodeMaxSize :=
      List.length_take_of_le (Nat.le_of_lt (Nat.lt_of_not_le hle))
    have hlong : 2 ≤ ((c :: s).take raxNodeMaxSize).length := by
      rw [hlen]
      decide
    have hrun := Grown.run key hlong (Nat.le_of_eq hlen) hfind (soundSlot_inr hgrown.sound) hmade
      hadded
    rwa [List.take_append_drop] at hrun
  | case4 key children c s h hs children' spilled hadd =>
    obtain ⟨rfl, hpos⟩ := hs
    rw [raxInsertRest, if_neg h, if_pos ⟨rfl, hpos⟩, hadd]
    have hchild := Grown.child key hsound (hnext c [] rfl) (findSlot_inl_iff data)
      (soundSlot_inl data) (fun _ => hpos) rfl rfl
    rw [hadd] at hchild
    simpa using hchild
  | case5 key children c s h hs child made added hrest children' spilled hadd ih =>
    rw [raxInsertRest, if_neg h, if_neg hs, hrest]
    have hgrown := ih soundChildren_nil (by simp)
    rw [hrest] at hgrown
    obtain ⟨hfind, hmade, hadded⟩ := hgrown.single
    have hchild := Grown.child key hsound (hnext c s rfl) hfind
      (soundSlot_inr hgrown.sound) (by simp) hmade hadded
    simpa only [hadd] using hchild

/-! ## The splits -/

/-- The node behind the first letter of a compressed node. -/
theorem find_run_cons_next (key : Option V) (d : UInt8) (postfixed : Bytes) (child : RaxSlot V)
    (k : Bytes) :
    (RadixTree.branch key [(d, if postfixed = [] then child
        else .inr (chain none postfixed child))]).find k =
      (RadixTree.run key (d :: postfixed) child).find k := by
  by_cases hp : postfixed = []
  · subst hp
    rw [if_pos rfl]
    exact chain_find key (List.cons_ne_nil d []) child k
  · rw [if_neg hp]
    have hrun := find_run_append_run key (List.cons_ne_nil d []) hp child k
    rw [List.singleton_append] at hrun
    rw [hrun, ← chain_find key (List.cons_ne_nil d [])]
    exact RadixFrame.find_fill_congr (.branch key [] d []) (fun r => by
      rw [findSlot_inr, findSlot_inr, chain_find none hp]) k

/-- The first algorithm puts the key under the node. -/
theorem raxSplit_spec {data : V} {key : Option V} {common tail : Bytes} {child : RaxSlot V}
    {c : UInt8} {r : Bytes} (hsound : Sound (.run key (common ++ tail) child)) (htail : tail ≠ [])
    (hnext : ∀ a l, tail = a :: l → a ≠ c) :
    Grown data (common ++ c :: r) (.run key (common ++ tail) child)
      (raxSplit data key (common ++ tail) child common.length (c :: r)) := by
  obtain ⟨d, postfixed, rfl⟩ := List.exists_cons_of_ne_nil htail
  have hdc := hnext d postfixed rfl
  obtain ⟨hmax, hchild⟩ : (common ++ d :: postfixed).length ≤ raxNodeMaxSize ∧ SoundSlot child := by
    cases hsound with
    | run long fits below => exact ⟨fits, below⟩
  rw [List.length_append, List.length_cons] at hmax
  rw [raxSplit, List.drop_left, List.take_left]
  simp only
  -- the slot of the split node
  have hfind := fun key' => find_run_cons_next (V := V) key' d postfixed child
  obtain ⟨hslot, hnodes, hkeys⟩ : SoundSlot (if postfixed = [] then child
        else .inr (chain none postfixed child)) ∧
      slotNodes (if postfixed = [] then child else .inr (chain none postfixed child)) =
        slotNodes child + (if postfixed = [] then 0 else 1) ∧
      (slotEntries (if postfixed = [] then child else .inr (chain none postfixed child))).length =
        (slotEntries child).length := by
    by_cases hp : postfixed = []
    · simp only [if_pos hp]
      exact ⟨hchild, rfl, trivial⟩
    · simp only [if_neg hp, slotNodes_inr, slotEntries_inr, chain_nodes none hp, chain_keys none hp]
      exact ⟨soundSlot_inr (chain_sound hp (by omega) hchild), trivial, by simp⟩
  have hpair : (if postfixed = [] then (child, 0) else (.inr (chain none postfixed child), 1)) =
      ((if postfixed = [] then child else .inr (chain none postfixed child) : RaxSlot V),
        if postfixed = [] then 0 else 1) := by
    split <;> rfl
  rw [hpair]
  generalize (if postfixed = [] then child else .inr (chain none postfixed child) : RaxSlot V) =
    next at hfind hslot hnodes hkeys
  generalize (if postfixed = [] then 0 else 1) = postfixes at hnodes
  have hrest := raxInsertRest_spec data (if common.length = 0 then key else none) [(d, next)]
    (c :: r) (.single hslot) (by
      rintro _ _ ⟨rfl, rfl⟩
      simpa using Ne.symm hdc)
  simp only
  generalize raxInsertRest data (if common.length = 0 then key else none) [(d, next)] (c :: r) =
    out at hrest
  obtain ⟨h, made, added⟩ := out
  have hgrown := hrest.nodes
  have hmore := hrest.keys
  simp only [RadixTree.nodes_branch, childNodes_nil, childNodes_cons, entries_branch,
    childEntries_nil, childEntries_cons, List.length_append, List.length_map,
    List.length_nil] at hgrown hmore
  by_cases hj : common.length = 0
  · obtain rfl := List.length_eq_zero_iff.mp hj
    simp only [List.length_nil, if_true] at hrest hmore ⊢
    refine ⟨fun k => ?_, hrest.sound, ?_, ?_⟩
    · rw [hrest.find, hfind key]
      rfl
    · simp only [RadixTree.nodes_run]
      omega
    · simp only [List.nil_append, entries_run, List.length_append, List.length_map]
      omega
  · have hcommon : common ≠ [] := List.length_pos_iff.mp (Nat.pos_of_ne_zero hj)
    simp only [if_neg hj, Option.map_none, Option.toList_none, List.length_nil] at hrest hmore ⊢
    refine ⟨fun k => ?_, chain_sound hcommon (by omega) (soundSlot_inr hrest.sound), ?_, ?_⟩
    · rw [chain_find key hcommon]
      refine (find_run_update key hcommon hrest.find k).trans ?_
      congr 1
      rw [find_run_append_run key hcommon (List.cons_ne_nil d postfixed)]
      exact RadixFrame.find_fill_congr (.run key common) (fun r => by
        rw [findSlot_inr, findSlot_inr, hfind none]) k
    · simp only [chain_nodes key hcommon, RadixTree.nodes_run, slotNodes_inr]
      omega
    · simp only [chain_keys key hcommon, entries_run, slotEntries_inr, List.length_append,
        List.length_map, Option.length_toList, Option.isSome_map]
      omega

/-- The second algorithm puts the key into the node. -/
theorem raxSplitKey_spec {data : V} {key : Option V} {common tail : Bytes} {child : RaxSlot V}
    (hsound : Sound (.run key (common ++ tail) child)) (hcommon : common ≠ []) (htail : tail ≠ []) :
    Grown data common (.run key (common ++ tail) child)
      (raxSplitKey data key (common ++ tail) child common.length, 1, 1) := by
  obtain ⟨hmax, hchild⟩ : (common ++ tail).length ≤ raxNodeMaxSize ∧ SoundSlot child := by
    cases hsound with
    | run long fits below => exact ⟨fits, below⟩
  rw [List.length_append] at hmax
  rw [raxSplitKey, List.drop_left, List.take_left]
  refine ⟨fun k => ?_, chain_sound hcommon (by omega)
    (soundSlot_inr (chain_sound htail (by omega) hchild)), ?_, ?_⟩
  · have hset : ∀ k, (chain (some data) tail child).find k =
        if k = [] then some data else (RadixTree.run none tail child).find k := by
      intro k
      rw [chain_find (some data) htail]
      exact find_setValue (.run none tail child) (some data) k
    rw [chain_find key hcommon, find_run_append_run key hcommon htail,
      find_run_update key hcommon hset, List.append_nil]
  · simp only [chain_nodes key hcommon, chain_nodes (some data) htail, slotNodes_inr,
      RadixTree.nodes_run]
  · simp only [chain_keys key hcommon, chain_keys (some data) htail, slotEntries_inr, entries_run,
      List.length_append, List.length_map, Option.length_toList, Option.isSome_map,
      Option.isSome_some, if_true]
    omega

/-! ## The insertion -/

/-- A tree of the source: it is sound, and its two counts are right. -/
structure Rax.Ok (t : Rax V) : Prop where
  sound : SoundHead t.head
  numele : t.numele = t.head.entries.length
  numnodes : t.numnodes = t.head.nodes

theorem raxNew_ok : (raxNew : Rax V).Ok where
  sound := .inl rfl
  numele := by simp [raxNew]
  numnodes := by simp [raxNew]

theorem raxNew_find (k : Bytes) : raxFind (raxNew : Rax V) k = none := by
  rw [raxFind_eq raxNew_ok.sound]
  cases k <;> simp [raxNew]

/-- An insertion from a tree: what it leaves, whether the key is new, and the old value. -/
structure Inserted (t : Rax V) (s : Bytes) (data : V) (overwrite : Bool)
    (out : Rax V × Bool × Option V) : Prop where
  ok : out.1.Ok
  find : ∀ k, raxFind out.1 k =
    if k = s ∧ (overwrite = true ∨ raxFind t s = none) then some data else raxFind t k
  fresh : out.2.1 = (raxFind t s).isNone
  old : out.2.2 = raxFind t s

theorem SoundHead.plug_sound {stack : List (RaxFrame V)} {t t' : RaxNode V}
    (h : SoundHead (plug stack t)) (h' : Sound t') : Sound (plug stack t') := by
  cases stack with
  | nil => exact h'
  | cons f stack => exact h.plug_cons.plug h'

theorem SoundHead.node {stack : List (RaxFrame V)} {t : RaxNode V}
    (h : SoundHead (plug stack t)) : SoundHead t := by
  cases stack with
  | nil => exact h
  | cons f stack => exact .inr (Sound.of_plug h.plug_cons)

theorem setValue_sound {t : RaxNode V} (h : SoundHead t) (v : V) :
    Sound (t.setValue (some v)) := by
  rcases h with rfl | h
  · exact soundChildren_nil.sound fun _ => rfl
  · cases h with
    | run long fits below => exact .run long fits below
    | branch sorted marked ended below => exact .branch sorted marked (fun _ => rfl) below

section Inserted

variable {t : Rax V} {stack : List (RaxFrame V)} {node node' : RaxNode V} {r : Bytes} {data : V}

theorem find_at (h : t.Ok) (hplug : plug stack node = t.head) (r : Bytes) :
    raxFind t (pathOf stack ++ r) = node.find r := by
  have hclear := (hplug.symm ▸ h.sound : SoundHead (plug stack node)).clear
  rw [raxFind_eq h.sound, ← hplug, find_plug_path hclear]

/-- A node grown by a key makes a tree grown by a key. -/
theorem inserted_grown {made added : Nat} (h : t.Ok) (hplug : plug stack node = t.head)
    (hnew : node.find r = none) (hg : Grown data r node (node', made, added)) (overwrite : Bool) :
    Inserted t (pathOf stack ++ r) data overwrite
      ({ head := plug stack node', numele := t.numele + added, numnodes := t.numnodes + made },
        true, none) := by
  have hhead : SoundHead (plug stack node) := hplug.symm ▸ h.sound
  have hsound := hhead.plug_sound hg.sound
  have hnone : raxFind t (pathOf stack ++ r) = none := (find_at h hplug r).trans hnew
  refine ⟨⟨.inr hsound, ?_, ?_⟩, fun k => ?_, by rw [hnone]; rfl, hnone.symm⟩
  · have hkeys := keys_plug stack node node'
    have hmore := hg.keys
    have hnum := h.numele
    rw [← hplug] at hnum
    simp only at hmore ⊢
    omega
  · have hnodes := nodes_plug stack node node'
    have hmore := hg.nodes
    have hnum := h.numnodes
    rw [← hplug] at hnum
    simp only at hmore ⊢
    omega
  · rw [raxFind_eq (.inr hsound), find_plug_update hhead.clear hg.find, hplug,
      ← raxFind_eq h.sound]
    simp only [hnone, or_true, and_true]

/-- A value set where there is one already. -/
theorem inserted_set {old : V} {overwrite : Bool} (h : t.Ok) (hplug : plug stack node = t.head)
    (hold : node.find r = some old)
    (hfind : ∀ k, node'.find k = if k = r then some data else node.find k) (hsound : Sound node')
    (hnodes : node'.nodes = node.nodes)
    (hkeys : node'.entries.length = node.entries.length) :
    Inserted t (pathOf stack ++ r) data overwrite
      (if overwrite then { t with head := plug stack node' } else t, false, some old) := by
  have hhead : SoundHead (plug stack node) := hplug.symm ▸ h.sound
  have hsome : raxFind t (pathOf stack ++ r) = some old := (find_at h hplug r).trans hold
  cases overwrite with
  | false =>
    refine ⟨h, fun k => ?_, by rw [hsome]; rfl, hsome.symm⟩
    have hno : ¬ (k = pathOf stack ++ r ∧ (false = true ∨ some old = none)) := by simp
    rw [hsome, if_neg hno]
    rfl
  | true =>
    have hplugged := hhead.plug_sound hsound
    refine ⟨⟨.inr hplugged, ?_, ?_⟩, fun k => ?_, by rw [hsome]; rfl, hsome.symm⟩
    · have hmore := keys_plug stack node node'
      have hnum := h.numele
      rw [← hplug] at hnum
      simp only [if_true]
      omega
    · have hmore := nodes_plug stack node node'
      have hnum := h.numnodes
      rw [← hplug] at hnum
      simp only [if_true]
      omega
    · simp only [if_true]
      rw [raxFind_eq (.inr hplugged), find_plug_update hhead.clear hfind, hplug,
        ← raxFind_eq h.sound]
      simp

end Inserted

/-- A key under an inline leaf, which becomes a node. -/
theorem grown_inline {data v : V} {f : RaxFrame V} {rest : Bytes} {leaf : RaxNode V}
    {made added : Nat} (hsound : Sound (f.fill (.inl v)))
    (hg : Grown data rest (.branch (some v) []) (leaf, made, added)) :
    Grown data (f.label ++ rest) (f.fill (.inl v)) (f.fill (.inr leaf), 1 + made, added) := by
  refine ⟨fun k => ?_, hsound.fill (soundSlot_inr hg.sound) (by simp), ?_, ?_⟩
  · refine find_fill_update hsound.clear (fun r => ?_) k
    rw [findSlot_inr, hg.find, findSlot_inl]
    cases r <;> simp
  · have hfill := f.nodes_fill (.inl v) (.inr leaf)
    have hmore := hg.nodes
    simp only [slotNodes_inl, slotNodes_inr, RadixTree.nodes_branch,
      childNodes_nil] at hfill hmore ⊢
    omega
  · have hfill := f.keys_fill (.inl v) (.inr leaf)
    have hmore := hg.keys
    simp only [slotEntries_inl, slotEntries_inr, entries_branch, childEntries_nil, Option.map_some,
      Option.toList_some, List.append_nil, List.length_singleton] at hfill hmore ⊢
    omega

/-- An insertion changes the tree under its key only, and tells what was there. -/
theorem raxGenericInsert_spec {t : Rax V} (h : t.Ok) (s : Bytes) (data : V) (overwrite : Bool) :
    Inserted t s data overwrite (raxGenericInsert t s data overwrite) := by
  obtain ⟨stack, node, r, hplug, rfl, hstop⟩ := raxLowWalk_stop h.sound s
  rw [raxGenericInsert]
  generalize raxLowWalk [] t.head (pathOf stack ++ r) = w at hstop
  rw [List.append_nil] at hstop
  have hhead : SoundHead (plug stack node) := hplug.symm ▸ h.sound
  cases hstop with
  | here hr =>
    subst hr
    simp only [true_and, or_true, if_true]
    have hset := find_setValue node (some data)
    have hsound := setValue_sound hhead.node data
    have hkeys := keys_setValue node (some data)
    cases hval : node.value with
    | some old =>
      rw [hval] at hkeys
      exact inserted_set h hplug (by rw [find_nil, hval]) hset hsound (nodes_setValue node _)
        (by simpa using hkeys)
    | none =>
      rw [hval] at hkeys
      have hg : Grown data [] node (node.setValue (some data), 0, 1) :=
        ⟨hset, hsound, nodes_setValue node _, hkeys⟩
      exact inserted_grown h hplug (by rw [find_nil, hval]) hg overwrite
  | inline f v rest hnode hr =>
    subst hnode hr
    have hsound := hhead.fill
    by_cases hrest : rest = []
    · subst hrest
      simp only [if_true]
      have hold : (f.fill (.inl v)).find (f.label ++ []) = some v := by
        rw [RadixFrame.find_fill_label hsound.clear, findSlot_inl, if_pos rfl]
      refine inserted_set h hplug hold (find_fill_update hsound.clear fun r => ?_)
        (hsound.fill (soundSlot_inl data) (by simp)) ?_ ?_
      · rw [findSlot_inl, findSlot_inl]
        split <;> rfl
      · have hfill := f.nodes_fill (.inl v) (.inl data)
        simpa using hfill
      · have hfill := f.keys_fill (.inl v) (.inl data)
        simpa using hfill
    · simp only [if_neg hrest]
      have hg := raxInsertRest_spec data (some v) [] rest soundChildren_nil (by simp)
      generalize raxInsertRest data (some v) [] rest = out at hg
      obtain ⟨leaf, made, added⟩ := out
      have hins := inserted_grown h hplug (r := f.label ++ rest) ?_ (grown_inline hsound hg)
        overwrite
      · rw [← Nat.add_assoc] at hins
        exact hins
      · rw [RadixFrame.find_fill_label hsound.clear, findSlot_inl, if_neg hrest]
  | split key common tail child rest hnode htail hr hne hnext =>
    subst hnode hr
    have hsound : Sound (.run key (common ++ tail) child) := by
      rcases hhead.node with hnode | hnode
      · cases hnode
      · exact hnode
    have hnew : (RadixTree.run key (common ++ tail) child).find (common ++ rest) = none :=
      find_split htail hne hnext
    cases rest with
    | nil =>
      have hcommon : common ≠ [] := by simpa using hne
      simp only [iscompr, List.length_eq_zero_iff, hcommon, Bool.true_eq_false, or_self, and_false,
        if_false, ne_eq, not_true_eq_false]
      rw [List.append_nil] at hnew ⊢
      exact inserted_grown h hplug hnew (raxSplitKey_spec hsound hcommon htail) overwrite
    | cons c rest =>
      simp only [reduceCtorEq, false_and, if_false, ne_eq, not_false_eq_true, if_true]
      exact inserted_grown h hplug hnew
        (raxSplit_spec hsound htail fun a l hl => hnext a c l rest hl rfl) overwrite
  | missing key children c rest hnode hr hc =>
    subst hnode hr
    simp only [reduceCtorEq, false_and, if_false]
    have hchildren : SoundChildren children := by
      rcases hhead.node with hnode | hnode
      · cases hnode
        exact soundChildren_nil
      · exact hnode.children
    have hnew : (RadixTree.branch key children).find (c :: rest) = none := by
      rw [find_branch_cons, findChild_of_not_mem hc]
    refine inserted_grown h hplug hnew (raxInsertRest_spec data key children (c :: rest) hchildren ?_)
      overwrite
    rintro _ _ ⟨rfl, rfl⟩
    exact hc

end Sf37.Radix

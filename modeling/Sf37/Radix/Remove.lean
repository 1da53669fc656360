/-
Sf37.Radix.Remove — `raxRemove`.

A removal takes the key out of its node or slot, frees the nodes that only led to it, and
joins the chain of nodes that is left with one edge each. The chain is read twice: once to
find the size of the new node, which stops before a node would grow too long, and once to
copy the letters, which does not. `raxRemove` has no result where the second goes past the
size that the first found.

* `raxRemove_spec`: a removal changes the tree under its key only, tells what was there,
  and keeps the tree sound and the counts right.
* `raxRemove_isSome`: it stays inside the new node when no key is longer than a node.
-/
import Sf37.Radix.Insert

namespace Sf37.Radix

open Store RadixTree Text

variable {V : Type}

/-! ## The source -/

/-- `raxRemoveChildAtPtr` and `raxRemoveChild` -/
def raxRemoveChildAtPtr : RaxFrame V → RaxNode V
  | .run key _ => .branch key []
  | .branch key before _ after => .branch key (before ++ after)

/-- `h->iskey || (!h->iscompr && h->size != 1)` -/
def endsChain (h : RaxNode V) : Bool := h.value.isSome || (!iscompr h && size h != 1)

/-- `raxRemoveCleanup` from the useless node `h`: the node that stays and its parents, whether it may
be joined with others, and the nodes freed. -/
def raxRemoveCleanup (h : RaxNode V) :
    List (RaxFrame V) → RaxNode V × List (RaxFrame V) × Bool × Nat
  | [] => (h, [], false, 0)
  | f :: stack =>
      if endsChain (f.fill (.inr h)) ∨ stack.isEmpty then
        let new := raxRemoveChildAtPtr f
        (new, stack, size new == 1 && new.value.isNone, 1)
      else
        let (new, stack, trycompress, freed) := raxRemoveCleanup (f.fill (.inr h)) stack
        (new, stack, trycompress, freed + 1)

/-- The way up to the first node of the chain, and its parents. -/
def raxSeekStart : RaxNode V → List (RaxFrame V) → RaxNode V × List (RaxFrame V)
  | h, [] => (h, [])
  | h, f :: stack =>
      if endsChain (f.fill (.inr h)) then (h, f :: stack)
      else raxSeekStart (f.fill (.inr h)) stack

/-- The scan of the chain: `nodes` and `comprsize`. Every node of the chain has one edge. -/
def raxScanChain : RadixTree UInt8 V → Nat → Nat → Nat × Nat
  | .run _ _ (.inr t), nodes, comprsize =>
      if endsChain t ∨ raxNodeMaxSize < comprsize + size t then (nodes, comprsize)
      else raxScanChain t (nodes + 1) (comprsize + size t)
  | .branch _ [(_, .inr t)], nodes, comprsize =>
      if endsChain t ∨ raxNodeMaxSize < comprsize + size t then (nodes, comprsize)
      else raxScanChain t (nodes + 1) (comprsize + size t)
  | _, nodes, comprsize => (nodes, comprsize)

/-- The second scan: the letters copied, what stands behind them, and the nodes freed. -/
def raxCopyChain : RadixTree UInt8 V → Bytes × RaxSlot V × Nat
  | .run _ label (.inr t) =>
      if endsChain t then (label, .inr t, 1)
      else
        let (letters, next, freed) := raxCopyChain t
        (label ++ letters, next, freed + 1)
  | .branch _ [(c, .inr t)] =>
      if endsChain t then ([c], .inr t, 1)
      else
        let (letters, next, freed) := raxCopyChain t
        (c :: letters, next, freed + 1)
  | .run _ label (.inl v) => (label, .inl v, 1)
  | .branch _ [(c, .inl v)] => ([c], .inl v, 1)
  | .branch key children => ([], .inr (.branch key children), 0)

/-- The end of `raxRemove`, from the node `h` on: there is no result when the letters copied go past
the size of the new node. -/
def raxPostDelete (t : Rax V) (h : RaxNode V) (stack : List (RaxFrame V)) (trycompress : Bool) :
    Option (Rax V) :=
  if trycompress then
    let (start, parents) := raxSeekStart h stack
    let (nodes, comprsize) := raxScanChain start 1 (size start)
    if 1 < nodes then
      let (letters, next, freed) := raxCopyChain start
      if comprsize < letters.length then none
      else
        some { t with head := plug parents (.run none letters next),
                      numnodes := t.numnodes + 1 - freed }
    else some { t with head := plug parents start }
  else some { t with head := plug stack h }

/-- `raxRemove`: the tree, what it returns, and `*old`. -/
def raxRemove (t : Rax V) (s : Bytes) : Option (Rax V × Bool × Option V) :=
  let w := raxLowWalk [] t.head s
  match w.inlineLeaf with
  | some (f, v) =>
      if w.rest = [] then
        let t := { t with numele := t.numele - 1 }
        let h := raxRemoveChildAtPtr f
        if size h = 0 ∧ h.value.isNone then
          let (h, stack, trycompress, freed) := raxRemoveCleanup h w.stack
          (raxPostDelete { t with numnodes := t.numnodes - freed } h stack trycompress).map
            fun t => (t, true, some v)
        else
          (raxPostDelete t h w.stack (size h == 1 && h.value.isNone)).map fun t => (t, true, some v)
      else some (t, false, none)
  | none =>
      if w.rest ≠ [] ∨ (iscompr w.node ∧ w.splitpos ≠ 0) then some (t, false, none)
      else
        match w.node.value with
        | none => some (t, false, none)
        | some v =>
            let t := { t with numele := t.numele - 1 }
            let h := w.node.setValue none
            if size h = 0 then
              let (h, stack, trycompress, freed) := raxRemoveCleanup h w.stack
              (raxPostDelete { t with numnodes := t.numnodes - freed } h stack trycompress).map
                fun t => (t, true, some v)
            else (raxPostDelete t h w.stack (size h == 1)).map fun t => (t, true, some v)

/-! ## A child less -/

theorem label_not_mem_after {key : Option V} {before after : List (UInt8 × RaxSlot V)}
    {letter : UInt8} {slot : RaxSlot V} (h : Sound (.branch key (before ++ (letter, slot) :: after))) :
    letter ∉ (before ++ after).map Prod.fst := by
  cases h with
  | branch sorted marked ended below =>
    rw [List.map_append, List.map_cons, List.pairwise_append, List.pairwise_cons] at sorted
    rw [List.map_append, List.mem_append, not_or]
    exact ⟨fun hmem => UInt8.lt_irrefl letter (sorted.2.2 letter hmem letter List.mem_cons_self),
      fun hmem => UInt8.lt_irrefl letter (sorted.2.1.1 letter hmem)⟩

/-- Without its child a node holds nothing behind the edge. -/
theorem raxRemoveChildAtPtr_find {f : RaxFrame V} {slot : RaxSlot V} (h : Sound (f.fill slot))
    (k : Bytes) : (raxRemoveChildAtPtr f).find k =
      if f.label <+: k then none else (f.fill slot).find k := by
  cases f with
  | run key word =>
    have hword : word ≠ [] := h.clear
    rw [raxRemoveChildAtPtr, RadixFrame.label, RadixFrame.fill]
    cases k with
    | nil => simp [hword]
    | cons c k =>
      rw [find_branch_cons, findChild_nil, find_run_cons]
      split <;> rfl
  | branch key before letter after =>
    rw [raxRemoveChildAtPtr, RadixFrame.label, RadixFrame.fill]
    cases k with
    | nil => simp
    | cons c k =>
      rw [find_branch_cons, find_branch_cons]
      by_cases hc : letter = c
      · subst hc
        rw [if_pos ⟨k, rfl⟩, findChild_of_not_mem (label_not_mem_after h)]
      · rw [if_neg (fun hpre => hc (List.cons_prefix_cons.mp hpre).1), findChild_middle hc]

theorem raxRemoveChildAtPtr_nodes (f : RaxFrame V) (slot : RaxSlot V) :
    (raxRemoveChildAtPtr f).nodes + slotNodes slot = (f.fill slot).nodes := by
  cases f with
  | run key word => simp [raxRemoveChildAtPtr, Nat.add_comm]
  | branch key before letter after =>
    simp only [raxRemoveChildAtPtr, RadixFrame.fill_branch, nodes_branch, childNodes_append,
      childNodes_cons]
    omega

theorem raxRemoveChildAtPtr_keys (f : RaxFrame V) (slot : RaxSlot V) :
    (raxRemoveChildAtPtr f).entries.length + (slotEntries slot).length =
      (f.fill slot).entries.length := by
  cases f with
  | run key word => simp [raxRemoveChildAtPtr]
  | branch key before letter after =>
    simp only [raxRemoveChildAtPtr, RadixFrame.fill_branch, entries_branch, childEntries_append,
      childEntries_cons, List.length_append, List.length_map]
    omega

/-- A node that is left with a key or a child is sound. -/
theorem raxRemoveChildAtPtr_sound {f : RaxFrame V} {slot : RaxSlot V} (h : Sound (f.fill slot))
    (hlive : size (raxRemoveChildAtPtr f) = 0 → (raxRemoveChildAtPtr f).value.isSome) :
    Sound (raxRemoveChildAtPtr f) := by
  cases f with
  | run key word => exact soundChildren_nil.sound fun _ => hlive rfl
  | branch key before letter after =>
    obtain ⟨sorted, marked, below⟩ := Sound.children h
    refine SoundChildren.sound ⟨?_, fun i c v hi => ?_, fun e he => below e ?_⟩ fun hnil => ?_
    · rw [List.map_append] at sorted ⊢
      exact sorted.sublist ((List.Sublist.refl _).append (List.sublist_cons_self _ _))
    · by_cases hlt : i < before.length
      · refine marked i c v ?_
        rw [List.getElem?_append_left hlt] at hi ⊢
        exact hi
      · have hnext := marked (i + 1) c v ?_
        · omega
        · rw [List.getElem?_append_right (by omega)] at hi ⊢
          rw [show i + 1 - before.length = i - before.length + 1 by omega, List.getElem?_cons_succ]
          exact hi
    · rw [List.mem_append] at he
      rw [List.mem_append, List.mem_cons]
      exact he.imp_right .inr
    · exact hlive (by rw [raxRemoveChildAtPtr, size, hnil]; rfl)

/-! ## The useless nodes -/

/-- A parent in the middle of a chain has no key and no other child. -/
theorem endsChain_frame {f : RaxFrame V} {slot : RaxSlot V} (h : endsChain (f.fill slot) = false) :
    (∃ word, f = .run none word) ∨ ∃ c, f = .branch none [] c [] := by
  rw [endsChain, Bool.or_eq_false_iff] at h
  cases f with
  | run key word =>
    cases key with
    | none => exact .inl ⟨word, rfl⟩
    | some v => simp at h
  | branch key before letter after =>
    cases key with
    | some v => simp at h
    | none =>
      have hlen : before.length + (after.length + 1) = 1 := by
        simpa [iscompr, size] using h.2
      obtain rfl := List.length_eq_zero_iff.mp (show before.length = 0 by omega)
      obtain rfl := List.length_eq_zero_iff.mp (show after.length = 0 by omega)
      exact .inr ⟨letter, rfl⟩

/-- A node in the middle of a chain is a parent with its slot. -/
theorem endsChain_fill {t : RaxNode V} (h : endsChain t = false) :
    ∃ (f : RaxFrame V) (slot : RaxSlot V), t = f.fill slot := by
  cases t with
  | run key label slot => exact ⟨.run key label, slot, rfl⟩
  | branch key children =>
    cases children with
    | cons e rest => exact ⟨.branch key [] e.1 rest, e.2, rfl⟩
    | nil => simp [endsChain, iscompr, size] at h

/-- A chain of nodes that leads to no key. -/
inductive Useless : RaxNode V → Prop where
  | leaf : Useless (.branch none [])
  | parent {f : RaxFrame V} {h : RaxNode V} (below : Useless h)
      (chain : endsChain (f.fill (.inr h)) = false) : Useless (f.fill (.inr h))

theorem Useless.find {h : RaxNode V} (hu : Useless h) (k : Bytes) : h.find k = none := by
  induction hu generalizing k with
  | leaf => cases k <;> simp
  | parent below chain ih =>
    rcases endsChain_frame chain with ⟨word, rfl⟩ | ⟨c, rfl⟩
    · cases k with
      | nil => simp
      | cons d k => simp [find_run_cons, ih]
    · cases k with
      | nil => simp
      | cons d k => simp [findChild_cons, ih]

theorem Useless.keys {h : RaxNode V} (hu : Useless h) : h.entries.length = 0 := by
  induction hu with
  | leaf => simp
  | parent below chain ih =>
    rcases endsChain_frame chain with ⟨word, rfl⟩ | ⟨c, rfl⟩
    · simpa using ih
    · simpa using ih

/-- What the removal of useless nodes leaves of a tree: the node that stays with its parents,
whether it may be joined with others, and the nodes freed. -/
structure Cleaned (h : RaxNode V) (stack : List (RaxFrame V))
    (out : RaxNode V × List (RaxFrame V) × Bool × Nat) : Prop where
  find : ∀ k, (plug out.2.1 out.1).find k = (plug stack h).find k
  sound : SoundHead (plug out.2.1 out.1)
  keys : (plug out.2.1 out.1).entries.length = (plug stack h).entries.length
  nodes : (plug out.2.1 out.1).nodes + out.2.2.2 + h.nodes = (plug stack h).nodes + 1
  joins : out.2.2.1 = true → endsChain out.1 = false

theorem raxRemoveChildAtPtr_live {f : RaxFrame V} {slot : RaxSlot V}
    (h : endsChain (f.fill slot) = true) (hsize : size (raxRemoveChildAtPtr f) = 0) :
    (raxRemoveChildAtPtr f).value.isSome := by
  rw [endsChain, Bool.or_eq_true] at h
  cases f with
  | run key word => simpa [raxRemoveChildAtPtr, iscompr] using h
  | branch key before letter after =>
    rcases h with h | h
    · exact h
    · simp only [RadixFrame.fill_branch, raxRemoveChildAtPtr, iscompr, size, List.length_append,
        List.length_cons, Bool.not_false, Bool.true_and, bne_iff_ne, ne_eq] at h hsize
      omega

theorem endsChain_of_single {t : RaxNode V} (h : (size t == 1 && t.value.isNone) = true) :
    endsChain t = false := by
  rw [Bool.and_eq_true, beq_iff_eq, Option.isNone_iff_eq_none] at h
  simp [endsChain, h.1, h.2]

/-- The parent of a useless node without it. -/
theorem raxRemoveChild_cleaned {f : RaxFrame V} {stack : List (RaxFrame V)} {h₀ h : RaxNode V}
    (hsound : Sound (plug (f :: stack) h₀)) (hu : Useless h)
    (hstop : endsChain (f.fill (.inr h)) = true ∨ stack = []) :
    Cleaned h (f :: stack) (raxRemoveChildAtPtr f, stack,
      size (raxRemoveChildAtPtr f) == 1 && (raxRemoveChildAtPtr f).value.isNone, 1) := by
  have hf : Sound (f.fill (.inr h₀)) := Sound.of_plug hsound
  refine ⟨fun k => ?_, ?_, ?_, ?_, endsChain_of_single⟩
  · refine find_plug_congr stack (fun r => ?_) k
    rw [raxRemoveChildAtPtr_find hf]
    split
    · rename_i hpre
      obtain ⟨u, rfl⟩ := hpre
      rw [RadixFrame.find_fill_label hf.clear, findSlot_inr, hu.find]
    · rename_i hpre
      exact RadixFrame.find_fill_outside hpre _ _
  · by_cases hends : endsChain (f.fill (.inr h)) = true
    · refine .inr (SoundHead.plug_sound (.inr hsound) ?_)
      exact raxRemoveChildAtPtr_sound hf (raxRemoveChildAtPtr_live hends)
    · obtain rfl := hstop.resolve_left hends
      left
      rw [Bool.not_eq_true] at hends
      rcases endsChain_frame hends with ⟨word, rfl⟩ | ⟨c, rfl⟩ <;> rfl
  · have hrest := keys_plug stack (raxRemoveChildAtPtr f) (f.fill (.inr h))
    have hfill := raxRemoveChildAtPtr_keys f (.inr h)
    simp only [slotEntries_inr, hu.keys] at hfill
    simp only [plug_cons]
    omega
  · have hrest := nodes_plug stack (raxRemoveChildAtPtr f) (f.fill (.inr h))
    have hfill := raxRemoveChildAtPtr_nodes f (.inr h)
    simp only [slotNodes_inr] at hfill
    simp only [plug_cons]
    omega

/-- The useless nodes go, and the tree holds what it held. -/
theorem raxRemoveCleanup_spec {f : RaxFrame V} {stack : List (RaxFrame V)} {h₀ h : RaxNode V}
    (hsound : Sound (plug (f :: stack) h₀)) (hu : Useless h) :
    Cleaned h (f :: stack) (raxRemoveCleanup h (f :: stack)) := by
  induction stack generalizing f h₀ h with
  | nil =>
    rw [raxRemoveCleanup, if_pos (.inr rfl)]
    exact raxRemoveChild_cleaned hsound hu (.inr rfl)
  | cons g stack ih =>
    rw [raxRemoveCleanup]
    by_cases hends : endsChain (f.fill (.inr h)) = true
    · rw [if_pos (.inl hends)]
      exact raxRemoveChild_cleaned hsound hu (.inl hends)
    · have hchain := (Bool.not_eq_true _).mp hends
      rw [if_neg (not_or.mpr ⟨hends, by simp⟩)]
      have hup : Sound (plug (g :: stack) (f.fill (.inr h₀))) := hsound
      have hrest := ih hup (.parent hu hchain)
      refine ⟨hrest.find, hrest.sound, hrest.keys, ?_, hrest.joins⟩
      -- the node under the parent has been freed already
      have hnodes := hrest.nodes
      have hfill : (f.fill (.inr h)).nodes = h.nodes + 1 := by
        rcases endsChain_frame hchain with ⟨word, rfl⟩ | ⟨c, rfl⟩ <;>
          simp
      have hplug : plug (f :: g :: stack) h = plug (g :: stack) (f.fill (.inr h)) := rfl
      rw [hplug]
      generalize raxRemoveCleanup (f.fill (.inr h)) (g :: stack) = out at hnodes
      obtain ⟨new, parents, trycompress, freed⟩ := out
      simp only at hnodes ⊢
      omega

/-! ## The chain -/

theorem raxSeekStart_plug (h : RaxNode V) (stack : List (RaxFrame V)) :
    plug (raxSeekStart h stack).2 (raxSeekStart h stack).1 = plug stack h := by
  induction stack generalizing h with
  | nil => rfl
  | cons f stack ih =>
    rw [raxSeekStart]
    split
    · rfl
    · exact ih (f.fill (.inr h))

theorem raxSeekStart_joins {h : RaxNode V} (hjoins : endsChain h = false)
    (stack : List (RaxFrame V)) : endsChain (raxSeekStart h stack).1 = false := by
  induction stack generalizing h with
  | nil => exact hjoins
  | cons f stack ih =>
    rw [raxSeekStart]
    split
    · exact hjoins
    · rename_i hends
      exact ih ((Bool.not_eq_true _).mp hends)

/-- A chain of nodes: the letters on the way, what stands behind them, and its length. -/
inductive Chain : RaxNode V → Bytes → RaxSlot V → Nat → Prop where
  | last {f : RaxFrame V} {slot : RaxSlot V} (joins : endsChain (f.fill slot) = false)
      (ends : ∀ t, slot = .inr t → endsChain t = true) : Chain (f.fill slot) f.label slot 1
  | more {f : RaxFrame V} {t : RaxNode V} {letters : Bytes} {next : RaxSlot V} {n : Nat}
      (joins : endsChain (f.fill (.inr t)) = false) (rest : Chain t letters next n) :
      Chain (f.fill (.inr t)) (f.label ++ letters) next (n + 1)

theorem Chain.joins {t : RaxNode V} {letters : Bytes} {next : RaxSlot V} {n : Nat}
    (h : Chain t letters next n) : endsChain t = false := by
  cases h with
  | last joins ends => exact joins
  | more joins rest => exact joins

theorem raxCopyChain_inl {f : RaxFrame V} {v : V} (h : endsChain (f.fill (.inl v)) = false) :
    raxCopyChain (f.fill (.inl v)) = (f.label, .inl v, 1) := by
  rcases endsChain_frame h with ⟨word, rfl⟩ | ⟨c, rfl⟩ <;>
    simp [RadixFrame.label, raxCopyChain]

theorem raxCopyChain_inr {f : RaxFrame V} {t : RaxNode V}
    (h : endsChain (f.fill (.inr t)) = false) : raxCopyChain (f.fill (.inr t)) =
      if endsChain t then (f.label, .inr t, 1)
      else (f.label ++ (raxCopyChain t).1, (raxCopyChain t).2.1, (raxCopyChain t).2.2 + 1) := by
  rcases endsChain_frame h with ⟨word, rfl⟩ | ⟨c, rfl⟩ <;>
    simp [RadixFrame.label, raxCopyChain]

theorem raxScanChain_inl {f : RaxFrame V} {v : V} (h : endsChain (f.fill (.inl v)) = false)
    (nodes comprsize : Nat) :
    raxScanChain (f.fill (.inl v)) nodes comprsize = (nodes, comprsize) := by
  rcases endsChain_frame h with ⟨word, rfl⟩ | ⟨c, rfl⟩ <;> simp [raxScanChain]

theorem raxScanChain_inr {f : RaxFrame V} {t : RaxNode V}
    (h : endsChain (f.fill (.inr t)) = false) (nodes comprsize : Nat) :
    raxScanChain (f.fill (.inr t)) nodes comprsize =
      if endsChain t ∨ raxNodeMaxSize < comprsize + size t then (nodes, comprsize)
      else raxScanChain t (nodes + 1) (comprsize + size t) := by
  rcases endsChain_frame h with ⟨word, rfl⟩ | ⟨c, rfl⟩ <;> simp [raxScanChain]

/-- The second scan copies the chain. -/
theorem Chain.copy {t : RaxNode V} {letters : Bytes} {next : RaxSlot V} {n : Nat}
    (h : Chain t letters next n) : raxCopyChain t = (letters, next, n) := by
  induction h with
  | @last f slot joins ends =>
    cases slot with
    | inl v => exact raxCopyChain_inl joins
    | inr t => rw [raxCopyChain_inr joins, if_pos (ends t rfl)]
  | more joins rest ih =>
    rw [raxCopyChain_inr joins, rest.joins, ih]
    rfl

/-- A node that may be joined begins a chain. -/
theorem exists_chain {t : RaxNode V} (h : endsChain t = false) :
    ∃ letters next n, Chain t letters next n := by
  induction hn : t.nodes using Nat.strongRecOn generalizing t with
  | ind n ih =>
    obtain ⟨f, slot, rfl⟩ := endsChain_fill h
    cases slot with
    | inl v => exact ⟨f.label, .inl v, 1, .last h fun t ht => by cases ht⟩
    | inr t =>
      by_cases hends : endsChain t = true
      · refine ⟨f.label, .inr t, 1, .last h fun t' ht => ?_⟩
        cases ht
        exact hends
      · have hless : t.nodes < n := by
          rw [← hn]
          rcases endsChain_frame h with ⟨word, rfl⟩ | ⟨c, rfl⟩ <;>
            simp
        obtain ⟨letters, next, m, hrest⟩ := ih t.nodes hless ((Bool.not_eq_true _).mp hends) rfl
        exact ⟨f.label ++ letters, next, m + 1, .more h hrest⟩

section Chain

variable {f : RaxFrame V} {slot next : RaxSlot V} {t : RaxNode V} {letters : Bytes} {n : Nat}

theorem single_find (h : endsChain (f.fill slot) = false) (hlabel : f.label ≠ []) (k : Bytes) :
    (f.fill slot).find k = (RadixTree.run none f.label slot).find k := by
  rcases endsChain_frame h with ⟨word, rfl⟩ | ⟨c, rfl⟩
  · rfl
  · exact chain_find none hlabel slot k

theorem single_nodes (h : endsChain (f.fill slot) = false) :
    (f.fill slot).nodes = slotNodes slot + 1 := by
  rcases endsChain_frame h with ⟨word, rfl⟩ | ⟨c, rfl⟩ <;>
    simp

theorem single_keys (h : endsChain (f.fill slot) = false) :
    (f.fill slot).entries.length = (slotEntries slot).length := by
  rcases endsChain_frame h with ⟨word, rfl⟩ | ⟨c, rfl⟩ <;>
    simp

theorem single_size (h : endsChain (f.fill slot) = false) :
    size (f.fill slot) = f.label.length := by
  rcases endsChain_frame h with ⟨word, rfl⟩ | ⟨c, rfl⟩ <;> rfl

theorem single_label (h : Sound (f.fill slot)) : 0 < f.label.length :=
  List.length_pos_iff.mpr (RadixFrame.label_ne_nil h.clear)

theorem Chain.ne_nil (h : Chain t letters next n) (hsound : Sound t) : letters ≠ [] := by
  cases h with
  | last joins ends => exact RadixFrame.label_ne_nil hsound.clear
  | more joins rest =>
    exact List.append_ne_nil_of_left_ne_nil (RadixFrame.label_ne_nil hsound.clear) _

/-- One node with the letters of the chain holds what the chain holds. -/
theorem Chain.find (h : Chain t letters next n) (hsound : Sound t) (k : Bytes) :
    (RadixTree.run none letters next).find k = t.find k := by
  induction h generalizing k with
  | last joins ends => exact (single_find joins (RadixFrame.label_ne_nil hsound.clear) k).symm
  | @more f t letters next n joins rest ih =>
    have hlabel := RadixFrame.label_ne_nil hsound.clear
    have hbelow : Sound t := hsound.slot t rfl
    rw [find_run_append_run none hlabel (rest.ne_nil hbelow), single_find joins hlabel]
    refine RadixFrame.find_fill_congr (.run none f.label) (fun u => ?_) k
    rw [findSlot_inr, findSlot_inr, ih hbelow]

theorem Chain.nodes (h : Chain t letters next n) : slotNodes next + n = t.nodes := by
  induction h with
  | last joins ends => rw [single_nodes joins]
  | more joins rest ih =>
    rw [single_nodes joins, slotNodes]
    omega

theorem Chain.keys (h : Chain t letters next n) :
    (slotEntries next).length = t.entries.length := by
  induction h with
  | last joins ends => rw [single_keys joins]
  | more joins rest ih => rw [single_keys joins, slotEntries, ih]

theorem Chain.soundSlot (h : Chain t letters next n) (hsound : Sound t) : SoundSlot next := by
  induction h with
  | last joins ends => exact hsound.slot
  | more joins rest ih => exact ih (hsound.slot _ rfl)

theorem Chain.size_pos (h : Chain t letters next n) (hsound : Sound t) : 0 < size t := by
  cases h with
  | last joins ends =>
    rw [single_size joins]
    exact single_label hsound
  | more joins rest =>
    rw [single_size joins]
    exact single_label hsound

theorem Chain.size_le (h : Chain t letters next n) : size t ≤ letters.length := by
  cases h with
  | last joins ends => exact Nat.le_of_eq (single_size joins)
  | more joins rest =>
    rw [single_size joins, List.length_append]
    exact Nat.le_add_right _ _

/-- What the first scan finds of a chain from a node on. -/
structure Scanned (t : RaxNode V) (letters : Bytes) (nodes comprsize : Nat) (out : Nat × Nat) :
    Prop where
  nodes_le : nodes ≤ out.1
  size_le : out.2 + size t ≤ comprsize + letters.length
  counted : comprsize + out.1 ≤ out.2 + nodes
  fits : comprsize ≤ raxNodeMaxSize → out.2 ≤ raxNodeMaxSize
  whole : comprsize + letters.length ≤ raxNodeMaxSize + size t →
    out.2 + size t = comprsize + letters.length

theorem raxScanChain_spec (h : Chain t letters next n) (hsound : Sound t)
    (nodes comprsize : Nat) :
    Scanned t letters nodes comprsize (raxScanChain t nodes comprsize) := by
  induction h generalizing nodes comprsize with
  | @last f slot joins ends =>
    have hscan : raxScanChain (f.fill slot) nodes comprsize = (nodes, comprsize) := by
      cases slot with
      | inl v => exact raxScanChain_inl joins nodes comprsize
      | inr t => rw [raxScanChain_inr joins, if_pos (.inl (ends t rfl))]
    have hsize := single_size joins
    rw [hscan]
    constructor <;> simp only <;> omega
  | @more f t letters next n joins rest ih =>
    have hsize := single_size joins
    have hbelow : Sound t := hsound.slot t rfl
    have hpos := rest.size_pos hbelow
    have hle := rest.size_le
    have hlen : (f.label ++ letters).length = f.label.length + letters.length := List.length_append
    rw [raxScanChain_inr joins, rest.joins]
    by_cases hover : raxNodeMaxSize < comprsize + size t
    · rw [if_pos (.inr hover)]
      constructor <;> simp only <;> omega
    · rw [if_neg (by simpa using hover)]
      obtain ⟨hn, hs, hc, hf, hw⟩ := ih hbelow (nodes + 1) (comprsize + size t)
      constructor <;> omega

end Chain

/-! ## The removal -/

/-- A tree that a deletion leaves in the place of another one with the same keys. -/
structure Finished (t : Rax V) (head : RaxNode V) (out : Rax V) : Prop where
  sound : SoundHead out.head
  find : ∀ k, out.head.find k = head.find k
  keys : out.head.entries.length = head.entries.length
  numele : out.numele = t.numele
  numnodes : out.numnodes = out.head.nodes

/-- A chain of nodes has a key behind it. -/
theorem Sound.exists_key {t : RaxNode V} (h : Sound t) : ∃ k v, t.find k = some v := by
  have hslot : ∀ slot : RaxSlot V, (∀ t, slot = .inr t → ∃ k v, t.find k = some v) →
      ∃ k v, findSlot slot k = some v := by
    intro slot hbelow
    cases slot with
    | inl v => exact ⟨[], v, by simp⟩
    | inr t => simpa using hbelow t rfl
  induction h with
  | @run key label child long fits below ih =>
    obtain ⟨k, v, hk⟩ := hslot child ih
    have hlabel : label ≠ [] := fun hnil => by simp [hnil] at long
    exact ⟨label ++ k, v, by rw [find_run_append key hlabel, hk]⟩
  | @branch key children sorted marked ended below ih =>
    cases children with
    | nil =>
      obtain ⟨v, hv⟩ := Option.isSome_iff_exists.mp (ended rfl)
      exact ⟨[], v, by rw [find_nil, value, hv]⟩
    | cons e rest =>
      obtain ⟨c, slot⟩ := e
      obtain ⟨k, v, hk⟩ := hslot slot fun t ht => ih c t (ht ▸ List.mem_cons_self)
      exact ⟨c :: k, v, by rw [find_branch_cons, findChild_cons, if_pos rfl, hk]⟩

theorem SoundHead.sound_of_joins {t : RaxNode V} (h : SoundHead t) (hjoins : endsChain t = false) :
    Sound t := by
  rcases h with rfl | h
  · cases hjoins
  · exact h

theorem single_fits {t : RaxNode V} (h : endsChain t = false) (hsound : Sound t) :
    size t ≤ raxNodeMaxSize := by
  cases hsound with
  | run long fits below => exact fits
  | @branch key children sorted marked ended below =>
    simp only [endsChain, iscompr, Bool.or_eq_false_iff, Bool.not_false, Bool.true_and,
      bne_eq_false_iff_eq] at h
    rw [h.2]
    decide

section Finished

variable {t out : Rax V} {h : RaxNode V} {stack : List (RaxFrame V)} {trycompress : Bool}

theorem raxPostDelete_spec (hsound : SoundHead (plug stack h))
    (hjoins : trycompress = true → endsChain h = false)
    (hnum : t.numnodes = (plug stack h).nodes)
    (hout : raxPostDelete t h stack trycompress = some out) : Finished t (plug stack h) out := by
  rw [raxPostDelete] at hout
  cases trycompress with
  | false =>
    cases hout
    exact ⟨hsound, fun k => rfl, rfl, rfl, hnum⟩
  | true =>
    have hplug := raxSeekStart_plug h stack
    have hstart := raxSeekStart_joins (hjoins rfl) stack
    generalize raxSeekStart h stack = seek at hplug hstart hout
    obtain ⟨start, parents⟩ := seek
    simp only at hplug hstart hout
    rw [← hplug] at hsound hnum ⊢
    have hs : Sound start := hsound.node.sound_of_joins hstart
    obtain ⟨letters, next, freed, hchain⟩ := exists_chain hstart
    have hscan := raxScanChain_spec hchain hs 1 (size start)
    have hfits := hscan.fits (single_fits hstart hs)
    rw [hchain.copy] at hout
    generalize raxScanChain start 1 (size start) = scan at hscan hfits hout
    obtain ⟨nodes, comprsize⟩ := scan
    simp only [if_true] at hscan hfits hout
    by_cases hjoin : 1 < nodes
    · rw [if_pos hjoin] at hout
      split at hout
      · cases hout
      · rename_i hover
        cases hout
        have hlong : 2 ≤ letters.length := by
          have hpos := hchain.size_pos hs
          have hcounted := hscan.counted
          have hle := hscan.size_le
          simp only at hcounted hle
          omega
        have hrun : Sound (.run none letters next) :=
          .run hlong (by omega) (hchain.soundSlot hs)
        refine ⟨.inr (hsound.plug_sound hrun), find_plug_congr parents (hchain.find hs), ?_, rfl,
          ?_⟩
        · have hkeys := keys_plug parents start (.run none letters next)
          have hmore := hchain.keys
          simp only [entries_run, Option.map_none, Option.toList_none, List.nil_append,
            List.length_map] at hkeys
          simp only
          omega
        · have hnodes := nodes_plug parents start (.run none letters next)
          have hmore := hchain.nodes
          simp only [RadixTree.nodes_run] at hnodes
          simp only
          omega
    · rw [if_neg hjoin] at hout
      cases hout
      exact ⟨hsound, fun k => rfl, rfl, rfl, hnum⟩

/-- The copy stays inside the new node when every key fits one. -/
theorem raxPostDelete_isSome (t : Rax V) (hsound : SoundHead (plug stack h))
    (hjoins : trycompress = true → endsChain h = false)
    (hshort : ∀ k v, (plug stack h).find k = some v → k.length ≤ raxNodeMaxSize) :
    (raxPostDelete t h stack trycompress).isSome := by
  rw [raxPostDelete]
  cases trycompress with
  | false => rfl
  | true =>
    have hplug := raxSeekStart_plug h stack
    have hstart := raxSeekStart_joins (hjoins rfl) stack
    generalize raxSeekStart h stack = seek at hplug hstart
    obtain ⟨start, parents⟩ := seek
    simp only at hplug hstart ⊢
    rw [← hplug] at hsound hshort
    have hs : Sound start := hsound.node.sound_of_joins hstart
    obtain ⟨letters, next, freed, hchain⟩ := exists_chain hstart
    have hscan := raxScanChain_spec hchain hs 1 (size start)
    rw [hchain.copy]
    generalize raxScanChain start 1 (size start) = scan at hscan
    obtain ⟨nodes, comprsize⟩ := scan
    simp only [if_true]
    -- the letters of the chain are part of a key
    obtain ⟨r, v, hr⟩ : ∃ r v, findSlot next r = some v := by
      cases next with
      | inl v => exact ⟨[], v, by simp⟩
      | inr t => simpa using (hchain.soundSlot hs t rfl).exists_key
    have hkey := hshort (pathOf parents ++ (letters ++ r)) v (by
      rw [find_plug_path hsound.clear, ← hchain.find hs,
        find_run_append none (hchain.ne_nil hs), hr])
    rw [List.length_append, List.length_append] at hkey
    have hwhole := hscan.whole (by omega)
    simp only at hwhole
    split
    · rw [if_neg (by omega)]
      rfl
    · rfl

end Finished

/-- The rest of a removal, from the node without the key on. -/
def raxFinish (t : Rax V) (h : RaxNode V) (stack : List (RaxFrame V)) : Option (Rax V) :=
  if size h = 0 ∧ h.value.isNone then
    let (h, stack, trycompress, freed) := raxRemoveCleanup h stack
    raxPostDelete { t with numnodes := t.numnodes - freed } h stack trycompress
  else raxPostDelete t h stack (size h == 1 && h.value.isNone)

theorem SoundHead.useless {h : RaxNode V} (hsound : SoundHead h)
    (hdead : size h = 0 ∧ h.value.isNone) : h = .branch none [] := by
  rcases hsound with h | h
  · exact h
  · cases h with
    | run long fits below =>
      rw [size] at hdead
      omega
    | @branch key children sorted marked ended below =>
      obtain rfl := List.length_eq_zero_iff.mp hdead.1
      have hkey := ended rfl
      rw [Option.isSome_iff_ne_none] at hkey
      exact absurd (Option.isNone_iff_eq_none.mp hdead.2) hkey

theorem cleaned_of_dead {stack : List (RaxFrame V)} {node : RaxNode V}
    (hnode : SoundHead (plug stack node)) :
    Cleaned (.branch none []) stack (raxRemoveCleanup (.branch none []) stack) := by
  cases stack with
  | nil => exact ⟨fun k => rfl, .inl rfl, rfl, by simp [raxRemoveCleanup],
      fun htry => by simp [raxRemoveCleanup] at htry⟩
  | cons f stack => exact raxRemoveCleanup_spec hnode.plug_cons .leaf

section Finish

variable {t out : Rax V} {node h : RaxNode V} {stack : List (RaxFrame V)}

theorem raxFinish_spec (hnode : SoundHead (plug stack node)) (hsound : SoundHead h)
    (hnum : t.numnodes = (plug stack h).nodes) (hout : raxFinish t h stack = some out) :
    Finished t (plug stack h) out := by
  rw [raxFinish] at hout
  by_cases hdead : size h = 0 ∧ h.value.isNone
  · rw [if_pos hdead] at hout
    obtain rfl := hsound.useless hdead
    have hclean := cleaned_of_dead hnode
    generalize raxRemoveCleanup (.branch none []) stack = clean at hclean hout
    obtain ⟨h, parents, trycompress, freed⟩ := clean
    have hnodes := hclean.nodes
    simp only [nodes_branch, childNodes_nil] at hnodes
    have hdone := raxPostDelete_spec hclean.sound hclean.joins (by simp only; omega) hout
    exact ⟨hdone.sound, fun k => (hdone.find k).trans (hclean.find k),
      hdone.keys.trans hclean.keys, hdone.numele, hdone.numnodes⟩
  · rw [if_neg hdead] at hout
    have hs : Sound h := hsound.resolve_left fun hnil => hdead (by rw [hnil]; exact ⟨rfl, rfl⟩)
    exact raxPostDelete_spec (.inr (hnode.plug_sound hs)) endsChain_of_single hnum hout

theorem raxFinish_isSome (t : Rax V) (hnode : SoundHead (plug stack node)) (hsound : SoundHead h)
    (hshort : ∀ k v, (plug stack h).find k = some v → k.length ≤ raxNodeMaxSize) :
    (raxFinish t h stack).isSome := by
  rw [raxFinish]
  by_cases hdead : size h = 0 ∧ h.value.isNone
  · rw [if_pos hdead]
    obtain rfl := hsound.useless hdead
    have hclean := cleaned_of_dead hnode
    generalize raxRemoveCleanup (.branch none []) stack = clean at hclean
    obtain ⟨h, parents, trycompress, freed⟩ := clean
    exact raxPostDelete_isSome _ hclean.sound hclean.joins fun k v hk =>
      hshort k v ((hclean.find k).symm.trans hk)
  · rw [if_neg hdead]
    have hs : Sound h := hsound.resolve_left fun hnil => hdead (by rw [hnil]; exact ⟨rfl, rfl⟩)
    exact raxPostDelete_isSome _ (.inr (hnode.plug_sound hs)) endsChain_of_single hshort

end Finish

/-- A removal from a tree: what it leaves, whether the key was there, and the old value. -/
structure Removed (t : Rax V) (s : Bytes) (out : Rax V × Bool × Option V) : Prop where
  ok : out.1.Ok
  find : ∀ k, raxFind out.1 k = if k = s then none else raxFind t k
  found : out.2.1 = (raxFind t s).isSome
  old : out.2.2 = raxFind t s

/-- A node without one of its keys. -/
structure TakesKey (node : RaxNode V) (r : Bytes) (v : V) (node' : RaxNode V) : Prop where
  found : node.find r = some v
  sound : SoundHead node'
  find : ∀ k, node'.find k = if k = r then none else node.find k
  keys : node'.entries.length + 1 = node.entries.length
  nodes : node'.nodes = node.nodes

/-- The key that ends at the node. -/
theorem takesKey_setValue {node : RaxNode V} {v : V} (hnode : SoundHead node)
    (hval : node.value = some v) : TakesKey node [] v (node.setValue none) where
  found := by rw [find_nil, hval]
  sound := by
    rcases hnode with rfl | hnode
    · cases hval
    · cases hnode with
      | run long fits below => exact .inr (.run long fits below)
      | @branch key children sorted marked ended below =>
        cases children with
        | nil => exact .inl rfl
        | cons e rest => exact .inr (.branch sorted marked (fun hnil => by cases hnil) below)
  find := find_setValue node none
  keys := by
    have hkeys := keys_setValue node none
    rw [hval] at hkeys
    simpa using hkeys
  nodes := nodes_setValue node none

/-- The key whose value stands in place of a child. -/
theorem takesKey_inline {f : RaxFrame V} {v : V} (hsound : Sound (f.fill (.inl v))) :
    TakesKey (f.fill (.inl v)) f.label v (raxRemoveChildAtPtr f) where
  found := by
    rw [← List.append_nil f.label, RadixFrame.find_fill_label hsound.clear, findSlot_inl, if_pos rfl]
  sound := by
    by_cases hdead : size (raxRemoveChildAtPtr f) = 0 ∧ (raxRemoveChildAtPtr f).value.isNone
    · left
      cases f with
      | run key word =>
        rw [raxRemoveChildAtPtr, value, Option.isNone_iff_eq_none] at hdead
        rw [raxRemoveChildAtPtr, hdead.2]
      | branch key before letter after =>
        rw [raxRemoveChildAtPtr, value, Option.isNone_iff_eq_none] at hdead
        rw [raxRemoveChildAtPtr, hdead.2, List.length_eq_zero_iff.mp hdead.1]
    · refine .inr (raxRemoveChildAtPtr_sound hsound fun hsize => ?_)
      rw [Option.isSome_iff_ne_none]
      exact fun hnone => hdead ⟨hsize, by rw [hnone]; rfl⟩
  find k := by
    rw [raxRemoveChildAtPtr_find hsound]
    by_cases hpre : f.label <+: k
    · obtain ⟨u, rfl⟩ := hpre
      rw [if_pos (List.prefix_append _ _), RadixFrame.find_fill_label hsound.clear, findSlot_inl]
      cases u <;> simp
    · rw [if_neg hpre, if_neg]
      rintro rfl
      exact hpre (List.prefix_refl _)
  keys := raxRemoveChildAtPtr_keys f (.inl v)
  nodes := raxRemoveChildAtPtr_nodes f (.inl v)

/-- A removal finds no key, or takes it out of the node that holds it and goes on from there. -/
theorem raxRemove_cases {t : Rax V} (h : t.Ok) (s : Bytes) :
    (raxFind t s = none ∧ raxRemove t s = some (t, false, none)) ∨
      ∃ stack node r node' v, plug stack node = t.head ∧ pathOf stack ++ r = s ∧
        TakesKey node r v node' ∧
        raxRemove t s =
          (raxFinish { t with numele := t.numele - 1 } node' stack).map fun t =>
            (t, true, some v) := by
  obtain ⟨stack, node, r, hplug, rfl, hstop⟩ := raxLowWalk_stop h.sound s
  have hat := fun r => find_at h hplug r
  rw [raxRemove]
  generalize raxLowWalk [] t.head (pathOf stack ++ r) = w at hstop
  rw [List.append_nil] at hstop
  have hhead : SoundHead (plug stack node) := hplug.symm ▸ h.sound
  cases hstop with
  | here hr =>
    subst hr
    simp only [ne_eq, not_true_eq_false, false_or, and_false, if_false]
    cases hval : node.value with
    | none => exact .inl ⟨by rw [hat, find_nil, hval], rfl⟩
    | some v =>
      refine .inr ⟨stack, node, [], node.setValue none, v, hplug, rfl,
        takesKey_setValue hhead.node hval, ?_⟩
      have hnone : (node.setValue none).value = none := by cases node <;> rfl
      simp only [raxFinish, hnone, Option.isNone_none, and_true, Bool.and_true]
      split <;> rfl
  | inline f v rest hnode hr =>
    subst hnode hr
    by_cases hrest : rest = []
    · subst hrest
      right
      simp only [if_true]
      refine ⟨stack, f.fill (.inl v), f.label, raxRemoveChildAtPtr f, v, hplug,
        by rw [List.append_nil], takesKey_inline hhead.fill, ?_⟩
      simp only [raxFinish]
      split <;> rfl
    · left
      refine ⟨?_, by simp only [if_neg hrest]⟩
      rw [hat, RadixFrame.find_fill_label hhead.fill.clear, findSlot_inl, if_neg hrest]
  | split key common tail child rest hnode htail hr hne hnext =>
    subst hnode hr
    left
    refine ⟨by rw [hat, find_split htail hne hnext], ?_⟩
    have hstop : rest ≠ [] ∨ (iscompr (RadixTree.run key (common ++ tail) child) = true ∧
        common.length ≠ 0) := by
      by_cases hrest : rest = []
      · refine .inr ⟨rfl, fun hlen => hne ?_⟩
        rw [hrest, List.length_eq_zero_iff.mp hlen]
        rfl
      · exact .inl hrest
    simp only
    rw [if_pos hstop]
  | missing key children c rest hnode hr hc =>
    subst hnode hr
    left
    refine ⟨by rw [hat, find_branch_cons, findChild_of_not_mem hc], ?_⟩
    simp

/-- A removal changes the tree under its key only, and tells what was there. -/
theorem raxRemove_spec {t : Rax V} (h : t.Ok) (s : Bytes) {out : Rax V × Bool × Option V}
    (hout : raxRemove t s = some out) : Removed t s out := by
  rcases raxRemove_cases h s with ⟨hnone, heq⟩ |
    ⟨stack, node, r, node', v, hplug, rfl, ⟨hval, hsound, hfind, hkeys, hnodes⟩, heq⟩
  · rw [heq] at hout
    cases hout
    refine ⟨h, fun k => ?_, by rw [hnone]; rfl, hnone.symm⟩
    split
    · rename_i hk
      rw [hk, hnone]
    · rfl
  · rw [heq, Option.map_eq_some_iff] at hout
    obtain ⟨t', hfinish, rfl⟩ := hout
    have hnode : SoundHead (plug stack node) := hplug.symm ▸ h.sound
    have hsome : raxFind t (pathOf stack ++ r) = some v := (find_at h hplug r).trans hval
    have hnum := h.numnodes
    have hele := h.numele
    rw [← hplug] at hnum hele
    have hplugged := nodes_plug stack node node'
    have hcounted := keys_plug stack node node'
    have hdone := raxFinish_spec hnode hsound (by simp only; omega) hfinish
    refine ⟨⟨hdone.sound, ?_, hdone.numnodes⟩, fun k => ?_, by rw [hsome]; rfl, hsome.symm⟩
    · rw [hdone.numele, hdone.keys]
      simp only
      omega
    · rw [raxFind_eq hdone.sound, hdone.find, find_plug_update hnode.clear hfind, hplug,
        raxFind_eq h.sound]

/-- No removal goes past a new node when every key fits one. -/
theorem raxRemove_isSome {t : Rax V} (h : t.Ok)
    (hshort : ∀ k, (raxFind t k).isSome → k.length ≤ raxNodeMaxSize) (s : Bytes) :
    (raxRemove t s).isSome := by
  rcases raxRemove_cases h s with ⟨hnone, heq⟩ |
    ⟨stack, node, r, node', v, hplug, rfl, ⟨hval, hsound, hfind, hkeys, hnodes⟩, heq⟩
  · rw [heq]
    rfl
  · have hnode : SoundHead (plug stack node) := hplug.symm ▸ h.sound
    rw [heq, Option.isSome_map]
    refine raxFinish_isSome _ hnode hsound fun k w hk => hshort k ?_
    rw [find_plug_update hnode.clear hfind, hplug, ← raxFind_eq h.sound] at hk
    split at hk
    · cases hk
    · rw [hk]
      rfl

end Sf37.Radix

/-
Sf37.Radix.Overrun — a removal that copies past the node it made.

The first scan of `raxRemove` stops before a node would grow longer than a node may be, and
the second copies all the letters of the chain. A key that is longer than a node is such a
chain as soon as a key beside it goes.

* `raxLowWalk_plug`: the walk along the path of a node.
* `raxInsertRest_chain`: what an insertion makes for the rest of a key is a chain.
* `raxRemove_overruns`: two insertions and a removal, from an empty tree.
-/
import Sf37.Radix.Remove

namespace Sf37.Radix

open Store RadixTree Text

variable {V : Type}

/-! ## The walk along a path -/

theorem matching_common (common : Bytes) {x d : UInt8} (hd : x ≠ d) (l s : Bytes) :
    matching (common ++ x :: l) (common ++ d :: s) = common.length := by
  induction common with
  | nil => simp [matching, hd]
  | cons c common ih => simp [matching, ih]

theorem matching_append_self (label s : Bytes) : matching label (label ++ s) = label.length := by
  induction label with
  | nil => cases s <;> rfl
  | cons c label ih => simp [matching, ih]

theorem raxWalkChild_append (stack : List (RaxFrame V)) (key : Option V) {c : UInt8}
    (before seen : List (UInt8 × RaxSlot V)) (hc : c ∉ before.map Prod.fst)
    (after : List (UInt8 × RaxSlot V)) (s : Bytes) :
    raxWalkChild stack key seen (before ++ after) c s =
      raxWalkChild stack key (seen ++ before) after c s := by
  induction before generalizing seen with
  | nil => rw [List.nil_append, List.append_nil]
  | cons e before ih =>
    obtain ⟨d, slot⟩ := e
    rw [List.map_cons, List.mem_cons, not_or] at hc
    cases slot <;>
      rw [List.cons_append, raxWalkChild, if_neg (Ne.symm hc.1), ih _ hc.2, List.append_assoc,
        List.singleton_append]

/-- The walk goes along the edge of a node. -/
theorem raxLowWalk_fill {f : RaxFrame V} (h : f.Clear) (stack : List (RaxFrame V)) (t : RaxNode V)
    (s : Bytes) :
    raxLowWalk stack (f.fill (.inr t)) (f.label ++ s) = raxLowWalk (f :: stack) t s := by
  cases f with
  | run key word =>
    have hword : word ≠ [] := h
    rw [RadixFrame.fill, RadixFrame.label, raxLowWalk]
    simp [matching_append_self, hword]
  | branch key before letter after =>
    rw [RadixFrame.fill, RadixFrame.label, List.singleton_append, raxLowWalk,
      raxWalkChild_append stack key before [] h, raxWalkChild, if_pos rfl, List.nil_append]

/-- The walk to the value in a slot. -/
theorem raxLowWalk_inline {f : RaxFrame V} (h : f.Clear) (stack : List (RaxFrame V)) (v : V)
    (s : Bytes) : raxLowWalk stack (f.fill (.inl v)) (f.label ++ s) =
      { stack, node := f.fill (.inl v), rest := s, inlineLeaf := some (f, v) } := by
  cases f with
  | run key word =>
    have hword : word ≠ [] := h
    rw [RadixFrame.fill, RadixFrame.label, raxLowWalk]
    simp [matching_append_self, hword]
  | branch key before letter after =>
    rw [RadixFrame.fill, RadixFrame.label, List.singleton_append, raxLowWalk,
      raxWalkChild_append stack key before [] h, raxWalkChild, if_pos rfl, List.nil_append]

theorem raxLowWalk_plug {frames : List (RaxFrame V)} (h : ∀ f ∈ frames, f.Clear)
    (stack : List (RaxFrame V)) (node : RaxNode V) (s : Bytes) :
    raxLowWalk stack (plug frames node) (pathOf frames ++ s) =
      raxLowWalk (frames ++ stack) node s := by
  induction frames generalizing node s with
  | nil => rfl
  | cons f frames ih =>
    rw [plug, pathOf, List.append_assoc, ih fun g hg => h g (List.mem_cons_of_mem f hg),
      raxLowWalk_fill (h f List.mem_cons_self), List.cons_append]

/-- The removal of a value in a slot. -/
theorem raxRemove_inline {f : RaxFrame V} {stack : List (RaxFrame V)} {t : Rax V} {v : V}
    (hhead : t.head = plug stack (f.fill (.inl v))) (hclear : ∀ g ∈ f :: stack, g.Clear) :
    raxRemove t (pathOf stack ++ f.label) =
      (raxFinish { t with numele := t.numele - 1 } (raxRemoveChildAtPtr f) stack).map fun t =>
        (t, true, some v) := by
  have hwalk := raxLowWalk_inline (hclear f List.mem_cons_self) stack v []
  rw [List.append_nil] at hwalk
  rw [raxRemove, hhead, raxLowWalk_plug (fun g hg => hclear g (List.mem_cons_of_mem f hg)),
    List.append_nil, hwalk]
  simp only [raxFinish, if_true]
  split <;> rfl

/-! ## Chains -/

/-- The frame of a node for one edge. -/
def chainFrame : Bytes → RaxFrame V
  | [c] => .branch none [] c []
  | label => .run none label

@[simp] theorem chainFrame_fill (label : Bytes) (slot : RaxSlot V) :
    (chainFrame label).fill slot = chain none label slot := by
  match label with
  | [] => rfl
  | [c] => rfl
  | c :: d :: label => rfl

@[simp] theorem chainFrame_label (label : Bytes) :
    (chainFrame label : RaxFrame V).label = label := by
  match label with
  | [] => rfl
  | [c] => rfl
  | c :: d :: label => rfl

theorem chainFrame_clear {label : Bytes} (h : label ≠ []) :
    (chainFrame label : RaxFrame V).Clear := by
  match label, h with
  | [c], _ => exact List.not_mem_nil
  | c :: d :: label, _ => exact List.cons_ne_nil c _

theorem chain_joins (label : Bytes) (slot : RaxSlot V) :
    endsChain (chain none label slot) = false := by
  match label with
  | [] => rfl
  | [c] => rfl
  | c :: d :: label => rfl

theorem chain_size (label : Bytes) (slot : RaxSlot V) :
    size (chain none label slot) = label.length := by
  match label with
  | [] => rfl
  | [c] => rfl
  | c :: d :: label => rfl

theorem Chain.cons_chain {t : RaxNode V} {letters : Bytes} {next : RaxSlot V} {n : Nat}
    (h : Chain t letters next n) (label : Bytes) :
    Chain (chain none label (.inr t)) (label ++ letters) next (n + 1) := by
  have hjoins : endsChain ((chainFrame label).fill (.inr t)) = false := by
    rw [chainFrame_fill, chain_joins]
  simpa using Chain.more hjoins h

/-- What an insertion makes for the rest of a key is a chain to its value. -/
theorem raxInsertRest_chain (data : V) {s : Bytes} (hs : s ≠ []) :
    ∃ n, Chain (raxInsertRest data none [] s).1 s (.inl data) n := by
  induction hn : s.length using Nat.strongRecOn generalizing s with
  | ind n ih =>
    have hlast : ∀ s : Bytes, Chain (chain none s (.inl data)) s (.inl data) 1 := by
      intro s
      have hjoins : endsChain ((chainFrame s).fill (.inl data)) = false := by
        rw [chainFrame_fill, chain_joins]
      simpa using Chain.last hjoins fun t ht => by cases ht
    obtain ⟨c, r, rfl⟩ := List.exists_cons_of_ne_nil hs
    rw [raxInsertRest]
    by_cases hr : r = []
    · subst hr
      exact ⟨1, by simpa [raxNodeFindChildPos, raxAddChild, spills, chain] using hlast [c]⟩
    · obtain ⟨d, r, rfl⟩ := List.exists_cons_of_ne_nil hr
      rw [if_pos ⟨rfl, hr⟩]
      by_cases hfits : (c :: d :: r).length ≤ raxNodeMaxSize
      · rw [if_pos hfits]
        exact ⟨1, hlast (c :: d :: r)⟩
      · rw [if_neg hfits]
        have hdrop : (c :: d :: r).drop raxNodeMaxSize ≠ [] := by
          rw [ne_eq, List.drop_eq_nil_iff]
          exact hfits
        have hless : ((c :: d :: r).drop raxNodeMaxSize).length < n := by
          rw [← hn, List.length_drop, raxNodeMaxSize, List.length_cons]
          omega
        obtain ⟨m, hrest⟩ := ih _ hless hdrop rfl
        have hchain := hrest.cons_chain ((c :: d :: r).take raxNodeMaxSize)
        rw [List.take_append_drop] at hchain
        exact ⟨m + 1, hchain⟩

theorem Chain.inline {t : RaxNode V} {letters : Bytes} {next : RaxSlot V} {v : V} {n : Nat}
    (h : Chain t letters next n) (hnext : next = .inl v) (hsound : Sound t) :
    ∃ frames f, t = plug frames (f.fill (.inl v)) ∧ letters = pathOf frames ++ f.label ∧
      (∀ g ∈ f :: frames, g.Clear) ∧
      ∀ g ∈ f :: frames, ∀ slot : RaxSlot V, endsChain (g.fill slot) = false := by
  have hslot : ∀ {f : RaxFrame V} {slot : RaxSlot V}, endsChain (f.fill slot) = false →
      ∀ slot' : RaxSlot V, endsChain (f.fill slot') = false := by
    intro f slot hjoins slot'
    rcases endsChain_frame hjoins with ⟨word, rfl⟩ | ⟨c, rfl⟩ <;> rfl
  induction h with
  | @last f slot joins ends =>
    subst hnext
    refine ⟨[], f, rfl, rfl, ?_, ?_⟩
    · simpa using hsound.clear
    · simpa using hslot joins
  | @more f t letters next n joins rest ih =>
    obtain ⟨frames, g, rfl, rfl, hclear, hjoins⟩ := ih hnext (hsound.slot t rfl)
    refine ⟨frames ++ [f], g, (plug_append frames [f] _).symm, ?_, fun e he => ?_, fun e he => ?_⟩
    · rw [pathOf_append, pathOf, pathOf, List.nil_append, List.append_assoc]
    · rw [← List.cons_append, List.mem_append, List.mem_singleton] at he
      rcases he with he | rfl
      · exact hclear e he
      · exact hsound.clear
    · rw [← List.cons_append, List.mem_append, List.mem_singleton] at he
      rcases he with he | rfl
      · exact hjoins e he
      · exact hslot joins

/-- The useless nodes of a chain go, up to the node with another child. -/
theorem raxRemoveCleanup_chain {frames : List (RaxFrame V)}
    (hframes : ∀ g ∈ frames, ∀ slot : RaxSlot V, endsChain (g.fill slot) = false)
    {g : RaxFrame V} (hg : ∀ slot : RaxSlot V, endsChain (g.fill slot) = true)
    (h : RaxNode V) (parents : List (RaxFrame V)) :
    raxRemoveCleanup h (frames ++ g :: parents) =
      (raxRemoveChildAtPtr g, parents,
        size (raxRemoveChildAtPtr g) == 1 && (raxRemoveChildAtPtr g).value.isNone,
        frames.length + 1) := by
  induction frames generalizing h with
  | nil =>
    rw [List.nil_append, raxRemoveCleanup, if_pos (.inl (hg _))]
    rfl
  | cons f frames ih =>
    rw [List.cons_append, raxRemoveCleanup, if_neg]
    · rw [ih (fun e he => hframes e (List.mem_cons_of_mem f he))]
      rfl
    · rw [hframes f List.mem_cons_self]
      simp

/-! ## The copy -/

/-- The chain that is copied is longer than the new node when it is longer than any node, and its
first two nodes fit one. -/
theorem raxPostDelete_overrun (r : Rax V) {f : RaxFrame V} {t h : RaxNode V}
    {stack parents : List (RaxFrame V)} {letters : Bytes} {next : RaxSlot V} {n : Nat}
    (hseek : raxSeekStart h stack = (f.fill (.inr t), parents))
    (hjoins : endsChain (f.fill (.inr t)) = false) (hchain : Chain t letters next n)
    (hsound : Sound (f.fill (.inr t))) (htwo : f.label.length + size t ≤ raxNodeMaxSize)
    (hlong : raxNodeMaxSize < f.label.length + letters.length) :
    raxPostDelete r h stack true = none := by
  have hbelow : Sound t := hsound.slot t rfl
  have hsize := single_size hjoins
  have hwhole : Chain (f.fill (.inr t)) (f.label ++ letters) next (n + 1) := .more hjoins hchain
  have hscan := raxScanChain_spec hchain hbelow 2 (f.label.length + size t)
  have hfits := hscan.fits htwo
  have hnodes := hscan.nodes_le
  have hstep : raxScanChain (f.fill (.inr t)) 1 (size (f.fill (.inr t))) =
      raxScanChain t 2 (f.label.length + size t) := by
    rw [hsize, raxScanChain_inr hjoins, if_neg]
    simpa [hchain.joins] using htwo
  rw [raxPostDelete, if_pos rfl, hseek]
  simp only
  rw [hstep, hwhole.copy]
  generalize raxScanChain t 2 (f.label.length + size t) = scan at hfits hnodes
  obtain ⟨nodes, comprsize⟩ := scan
  simp only [List.length_append] at hfits hnodes ⊢
  rw [if_pos (by omega), if_pos (by omega)]

/-! ## Two keys -/

/-- The node that a second key splits. -/
theorem raxInsertRest_beside (data : V) {x d : UInt8} (hd : x ≠ d) (next : RaxSlot V) (e : Bytes) :
    ∃ g : RaxFrame V, (raxInsertRest data none [(x, next)] (d :: e)).1 =
        g.fill (if e = [] then .inl data else .inr (raxInsertRest data none [] e).1) ∧
      g.label = [d] ∧ g.Clear ∧ raxRemoveChildAtPtr g = .branch none [(x, next)] ∧
      ∀ slot : RaxSlot V, endsChain (g.fill slot) = true := by
  have hadd : ∀ slot : RaxSlot V, (raxAddChild [(x, next)] d slot).1 =
      if d < x then [(d, slot), (x, next)] else [(x, next), (d, slot)] := by
    intro slot
    by_cases hlt : d < x <;> simp [raxAddChild, raxNodeFindChildPos, spills, List.findIdx_cons, hlt]
  have hpos : raxNodeFindChildPos [(x, next)] d < 13 := by
    by_cases hlt : d < x <;> simp [raxNodeFindChildPos, List.findIdx_cons, hlt]
  have hnode : (raxInsertRest data none [(x, next)] (d :: e)).1 = .branch none
      (raxAddChild [(x, next)] d
        (if e = [] then .inl data else .inr (raxInsertRest data none [] e).1)).1 := by
    rw [raxInsertRest, if_neg (by simp)]
    by_cases he : e = []
    · rw [if_pos ⟨he, hpos⟩, if_pos he]
    · rw [if_neg (by simp [he]), if_neg he]
  rw [hnode, hadd]
  by_cases hlt : d < x
  · refine ⟨.branch none [] d [(x, next)], ?_, rfl, List.not_mem_nil, rfl, fun slot => rfl⟩
    rw [if_pos hlt]
    rfl
  · refine ⟨.branch none [(x, next)] d [], ?_, rfl, ?_, rfl, fun slot => rfl⟩
    · rw [if_neg hlt]
      rfl
    · have hclear : d ∉ [(x, next)].map Prod.fst := by simpa using Ne.symm hd
      exact hclear

/-- A tree of one key that is longer than a node. -/
theorem raxInsert_long (a : V) {key : Bytes} (h : raxNodeMaxSize < key.length) :
    (raxInsert raxNew key a).1.head = .run none (key.take raxNodeMaxSize)
      (.inr (raxInsertRest a none [] (key.drop raxNodeMaxSize)).1) := by
  obtain ⟨c, s, rfl⟩ := List.exists_cons_of_length_pos (Nat.zero_lt_of_lt h)
  have hs : s ≠ [] := by
    rintro rfl
    exact absurd h (by simp [raxNodeMaxSize])
  have hwalk : raxLowWalk [] (.branch none [] : RaxNode V) (c :: s) =
      { stack := [], node := .branch none [], rest := c :: s } := by
    rw [raxLowWalk, raxWalkChild]
  rw [raxInsert, raxGenericInsert, raxNew, hwalk]
  simp only [reduceCtorEq, false_and, if_false, plug_nil]
  rw [raxInsertRest, if_pos ⟨rfl, hs⟩, if_neg (Nat.not_le_of_lt h)]

/-- The tree of one run behind the split of a second key. -/
theorem raxInsert_split (b : V) {t : Rax V} {common post : Bytes} {x d : UInt8} (e : Bytes)
    {child : RaxSlot V} (hhead : t.head = .run none (common ++ x :: post) child) (hd : x ≠ d) :
    (raxInsert t (common ++ d :: e) b).1.head =
      plug (if common = [] then [] else [chainFrame common])
        (raxInsertRest b none
          [(x, if post = [] then child else .inr (chain none post child))] (d :: e)).1 := by
  have hwalk : raxLowWalk [] t.head (common ++ d :: e) =
      { stack := [], node := t.head, rest := d :: e, splitpos := common.length } := by
    rw [hhead, raxLowWalk, matching_common common hd]
    simp
  rw [raxInsert, raxGenericInsert, hwalk]
  simp only [reduceCtorEq, false_and, if_false, hhead, ne_eq, not_false_eq_true, if_true, plug_nil]
  rw [raxSplit, List.drop_left, List.take_left]
  by_cases hcommon : common = []
  · subst hcommon
    by_cases hpost : post = [] <;> simp [hpost]
  · by_cases hpost : post = [] <;> simp [hpost, hcommon]

/-- The chain that is left of the long key, behind the branch with one child. -/
theorem chain_beside {child : RaxNode V} {tail : Bytes} {v : V} {n : Nat} (x : UInt8) (post : Bytes)
    (h : Chain child tail (.inl v) n) :
    ∃ n, Chain (.branch none [(x, if post = [] then .inr child
      else .inr (chain none post (.inr child)))]) (x :: post ++ tail) (.inl v) n := by
  by_cases hpost : post = []
  · subst hpost
    exact ⟨n + 1, h.cons_chain [x]⟩
  · rw [if_neg hpost]
    exact ⟨n + 1 + 1, (h.cons_chain post).cons_chain [x]⟩

section Beside

variable {child : RaxNode V} {common post tail : Bytes} {x : UInt8} {a : V} {n : Nat}

/-- The two nodes at the start fit one node, and the chain does not. -/
theorem raxPostDelete_beside (r : Rax V) (hchild : Chain child tail (.inl a) n)
    (hsound : Sound child) (htail : tail ≠ [])
    (hlen : (common ++ x :: post).length = raxNodeMaxSize) :
    raxPostDelete r (.branch none [(x, if post = [] then .inr child
      else .inr (chain none post (.inr child)))])
      (if common = [] then [] else [chainFrame common]) true = none := by
  have htail' := List.length_pos_iff.mpr htail
  rw [List.length_append, List.length_cons] at hlen
  have hpostsound : SoundSlot (if post = [] then .inr child
      else .inr (chain none post (.inr child)) : RaxSlot V) := by
    split
    · exact soundSlot_inr hsound
    · rename_i hpost
      exact soundSlot_inr (chain_sound hpost (by omega) (soundSlot_inr hsound))
  have hbranch : Sound (chain none [x] (if post = [] then .inr child
      else .inr (chain none post (.inr child)) : RaxSlot V)) :=
    chain_sound (List.cons_ne_nil x []) (by rw [List.length_singleton]; decide) hpostsound
  obtain ⟨m, hchain⟩ := chain_beside x post hchild
  by_cases hcommon : common = []
  · subst hcommon
    rw [List.length_nil] at hlen
    have hpost : post ≠ [] := by
      rintro rfl
      exact absurd hlen (by decide)
    rw [if_neg hpost] at hbranch ⊢
    rw [if_pos rfl]
    refine raxPostDelete_overrun r (f := chainFrame [x]) rfl rfl (hchild.cons_chain post) hbranch ?_
      ?_
    · rw [chainFrame_label, chain_size, List.length_singleton]
      omega
    · rw [chainFrame_label, List.length_singleton, List.length_append]
      omega
  · rw [if_neg hcommon]
    have hjoins := fun slot : RaxSlot V => (chainFrame_fill common slot).symm ▸
      chain_joins common slot
    have hstart := (chainFrame_fill common _).symm ▸
      @chain_sound V none _ hcommon (by omega) _ (soundSlot_inr hbranch)
    have hseek : ∀ h : RaxNode V, raxSeekStart h [chainFrame common] =
        ((chainFrame common).fill (.inr h), []) := fun h => by
      rw [raxSeekStart, hjoins]
      rfl
    refine raxPostDelete_overrun r (hseek _) (hjoins _) hchain hstart ?_ ?_
    · rw [chainFrame_label, size, List.length_singleton]
      omega
    · rw [chainFrame_label, List.length_append, List.length_cons]
      omega

end Beside

/-- A key longer than a node and a key beside it: the removal of the second has no result. -/
theorem raxRemove_overruns (a b : V) {key : Bytes} {j : Nat} {d : UInt8} (e : Bytes)
    (hlong : raxNodeMaxSize < key.length) (hj : j < raxNodeMaxSize) (hd : key[j]? ≠ some d) :
    raxRemove (raxInsert (raxInsert raxNew key a).1 (key.take j ++ d :: e) b).1
      (key.take j ++ d :: e) = none := by
  -- the long key up to the letter, the letter, the rest of the node and the rest of the key
  obtain ⟨common, x, post, tail, rfl, hlen, rfl, htail⟩ : ∃ common x post tail,
      key = common ++ x :: post ++ tail ∧ (common ++ x :: post).length = raxNodeMaxSize ∧
        common.length = j ∧ tail ≠ [] := by
    have hlt : j < (key.take raxNodeMaxSize).length := by
      rw [List.length_take]
      omega
    refine ⟨(key.take raxNodeMaxSize).take j, (key.take raxNodeMaxSize)[j],
      (key.take raxNodeMaxSize).drop (j + 1), key.drop raxNodeMaxSize, ?_, ?_, ?_, ?_⟩
    · rw [← List.drop_eq_getElem_cons hlt, List.take_append_drop, List.take_append_drop]
    · rw [← List.drop_eq_getElem_cons hlt, List.take_append_drop,
        List.length_take_of_le (Nat.le_of_lt hlong)]
    · exact List.length_take_of_le (Nat.le_of_lt hlt)
    · rw [ne_eq, List.drop_eq_nil_iff]
      exact Nat.not_le_of_lt hlong
  have hxd : x ≠ d := by
    rintro rfl
    simp at hd
  have htake : (common ++ x :: post ++ tail).take common.length = common := by simp
  rw [htake]
  have hhead := raxInsert_long a hlong
  rw [List.take_left' hlen, List.drop_left' hlen] at hhead
  obtain ⟨n, hchild⟩ := raxInsertRest_chain a htail
  have hsound := (raxInsertRest_spec a none [] tail soundChildren_nil (by simp)).sound
  generalize (raxInsertRest a none [] tail).1 = child at hhead hchild hsound
  have hsplit := raxInsert_split b e hhead hxd
  generalize (raxInsert (raxInsert raxNew (common ++ x :: post ++ tail) a).1
    (common ++ d :: e) b).1 = t at hsplit
  have hpost := fun r : Rax V => raxPostDelete_beside r hchild hsound htail hlen
  generalize hnext : (if post = [] then .inr child else .inr (chain none post (.inr child)) :
    RaxSlot V) = next at hsplit hpost
  generalize hparents : (if common = [] then [] else [chainFrame common] :
    List (RaxFrame V)) = parents at hsplit hpost
  have hpath : pathOf parents = common := by
    rw [← hparents]
    split
    · rename_i hcommon
      exact hcommon.symm
    · simp
  have hclear : ∀ f ∈ parents, f.Clear := by
    rw [← hparents]
    split
    · simp
    · rename_i hcommon
      simpa using chainFrame_clear hcommon
  obtain ⟨g, hnode, hlabel, hg, hremove, hends⟩ := raxInsertRest_beside b hxd next e
  rw [hnode] at hsplit
  by_cases he : e = []
  · subst he
    rw [if_pos rfl] at hsplit
    have hrun := raxRemove_inline hsplit (by simpa using ⟨hg, hclear⟩)
    rw [hpath, hlabel] at hrun
    rw [hrun, hremove, raxFinish, if_neg (by simp [size]), Option.map_eq_none_iff]
    exact hpost _
  · rw [if_neg he] at hsplit
    obtain ⟨m, hrest⟩ := raxInsertRest_chain b he
    have hrestsound := (raxInsertRest_spec b none [] e soundChildren_nil (by simp)).sound
    obtain ⟨frames, f, hplug, hletters, hframes, hjoins⟩ := hrest.inline rfl hrestsound
    rw [hplug] at hsplit
    have hsplit' : t.head = plug (frames ++ g :: parents) (f.fill (.inl b)) := by
      rw [hsplit, plug_append]
      rfl
    have hrun := raxRemove_inline hsplit' (by
      intro k hk
      rw [← List.cons_append, List.mem_append] at hk
      rcases hk with hk | hk
      · exact hframes k hk
      · rcases List.mem_cons.mp hk with rfl | hk
        · exact hg
        · exact hclear k hk)
    have hkey : pathOf (frames ++ g :: parents) ++ f.label = common ++ d :: e := by
      rw [pathOf_append, pathOf, hpath, hlabel, hletters]
      simp
    have hleaf : raxRemoveChildAtPtr f = .branch none [] := by
      rcases endsChain_frame (hjoins f List.mem_cons_self (.inl b)) with ⟨word, rfl⟩ | ⟨c, rfl⟩ <;>
        rfl
    rw [hkey, hleaf, raxFinish, if_pos ⟨rfl, rfl⟩,
      raxRemoveCleanup_chain (fun k hk => hjoins k (List.mem_cons_of_mem f hk)) hends, hremove]
      at hrun
    rw [hrun, Option.map_eq_none_iff]
    exact hpost _

/-- A key of 65536 letters and another first letter. -/
theorem raxRemove_overruns_zeros :
    raxRemove (raxInsert (raxInsert raxNew (List.replicate 65536 (0 : UInt8)) 'a').1 [1] 'b').1
      [1] = none := by
  have hlen : (List.replicate 65536 (0 : UInt8)).length = 65536 := List.length_replicate
  exact raxRemove_overruns 'a' 'b' [] (j := 0) (by rw [hlen]; decide) (by decide)
    (by rw [List.getElem?_replicate]; decide)

end Sf37.Radix

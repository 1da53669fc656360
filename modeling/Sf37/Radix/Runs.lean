/-
Sf37.Radix.Runs — runs of insertions and removals on a tree.

* `mem_entries_iff`, `entries_ordered`: the entries of a sound tree are what it holds, in the
  order of their keys.
* `runRax_refines`: a run returns what a map returns, and leaves what the map holds.
* `runRax_isSome`: a run of keys that fit a node has a result.
* `runRax_counts`: the counts of the tree are right behind every run, and it is freed to the
  last node, with each value passed once.
-/
import Sf37.Radix.Remove
import Mathlib.Data.Set.Card

namespace Sf37.Radix

open Store RadixTree Text
open Function (update)

variable {V : Type}

/-! ## The entries of a sound tree -/

/-- The entries of a slot are what it holds. -/
def Listed (slot : RaxSlot V) : Prop :=
  ∀ k v, (k, v) ∈ slotEntries slot ↔ findSlot slot k = some v

theorem listed_inl (v : V) : Listed (.inl v) := by
  intro k w
  rw [slotEntries, List.mem_singleton, Prod.mk.injEq, findSlot_inl]
  by_cases hk : k = []
  · simp [hk, eq_comm]
  · simp [hk]

theorem mem_childEntries_iff {children : List (UInt8 × RaxSlot V)}
    (hsorted : (children.map Prod.fst).Pairwise (· < ·)) (hslots : ∀ e ∈ children, Listed e.2)
    (k : Bytes) (v : V) :
    (k, v) ∈ childEntries children ↔ ∃ c r, k = c :: r ∧ findChild children c r = some v := by
  induction children with
  | nil => simp
  | cons e rest ih =>
    obtain ⟨d, slot⟩ := e
    rw [List.map_cons, List.pairwise_cons] at hsorted
    have hslot : Listed slot := hslots (d, slot) List.mem_cons_self
    rw [childEntries, List.mem_append, ih hsorted.2 fun e he => hslots e (List.mem_cons_of_mem _ he)]
    constructor
    · rintro (hmem | ⟨c, r, rfl, hfind⟩)
      · obtain ⟨⟨r, w⟩, hr, heq⟩ := List.mem_map.mp hmem
        obtain ⟨rfl, rfl⟩ := Prod.mk.inj heq
        exact ⟨d, r, rfl, by rw [findChild_cons, if_pos rfl, (hslot r w).mp hr]⟩
      · refine ⟨c, r, rfl, ?_⟩
        have hc : c ∈ rest.map Prod.fst := by
          by_contra hnot
          rw [findChild_of_not_mem hnot] at hfind
          cases hfind
        rw [findChild_cons, if_neg (UInt8.ne_of_lt (hsorted.1 c hc)), hfind]
    · rintro ⟨c, r, rfl, hfind⟩
      rw [findChild_cons] at hfind
      by_cases hd : d = c
      · subst hd
        rw [if_pos rfl] at hfind
        exact .inl (List.mem_map.mpr ⟨(r, v), (hslot r v).mpr hfind, rfl⟩)
      · rw [if_neg hd] at hfind
        exact .inr ⟨c, r, rfl, hfind⟩

/-- The value of the node itself is its first entry. -/
theorem mem_own_iff (key : Option V) (k : Bytes) (v : V) :
    (k, v) ∈ (key.map fun v => (([] : Bytes), v)).toList ↔ k = [] ∧ key = some v := by
  cases key with
  | none => simp
  | some w => simp [eq_comm]

/-- The entries of a tree are what it holds. -/
theorem mem_entries_iff {t : RaxNode V} (h : Sound t) (k : Bytes) (v : V) :
    (k, v) ∈ t.entries ↔ t.find k = some v := by
  have hbelow : ∀ slot : RaxSlot V,
      (∀ t, slot = .inr t → ∀ k v, (k, v) ∈ t.entries ↔ t.find k = some v) → Listed slot := by
    intro slot hslot
    cases slot with
    | inl v => exact listed_inl v
    | inr t =>
      intro k v
      rw [slotEntries, findSlot_inr]
      exact hslot t rfl k v
  induction h generalizing k v with
  | @run key label child long fits below ih =>
    have hlabel : label ≠ [] := fun hnil => by simp [hnil] at long
    have hchild := hbelow child fun t ht k v => ih t ht k v
    rw [entries, List.mem_append, mem_own_iff, List.mem_map]
    by_cases hk : k = []
    · subst hk
      simp [hlabel]
    · by_cases hpre : label <+: k
      · obtain ⟨r, rfl⟩ := hpre
        rw [find_run_append key hlabel, ← hchild r v]
        simp [hlabel]
      · rw [find_run_outside key hk hpre]
        refine ⟨fun hmem => ?_, fun hfind => by cases hfind⟩
        rcases hmem with ⟨hnil, -⟩ | ⟨e, -, heq⟩
        · exact absurd hnil hk
        · exact absurd ⟨e.1, (Prod.mk.inj heq).1⟩ hpre
  | @branch key children sorted marked ended below ih =>
    have hslots : ∀ e ∈ children, Listed e.2 := fun e he =>
      hbelow e.2 fun t ht k v => ih e.1 t (ht ▸ he) k v
    rw [entries, List.mem_append, mem_own_iff, mem_childEntries_iff sorted hslots]
    cases k with
    | nil => simp
    | cons c r => simp

/-- A tree in the order of its keys. -/
def Ordered (l : List (Bytes × V)) : Prop := (l.map Prod.fst).Pairwise (· < ·)

theorem childEntries_head {children : List (UInt8 × RaxSlot V)} {e : Bytes × V}
    (h : e ∈ childEntries children) : ∃ c r, e.1 = c :: r ∧ c ∈ children.map Prod.fst := by
  induction children with
  | nil => simp at h
  | cons d rest ih =>
    obtain ⟨d, slot⟩ := d
    rw [childEntries, List.mem_append] at h
    rcases h with h | h
    · obtain ⟨a, -, rfl⟩ := List.mem_map.mp h
      exact ⟨d, a.1, rfl, List.mem_cons_self⟩
    · obtain ⟨c, r, hr, hc⟩ := ih h
      exact ⟨c, r, hr, List.mem_cons_of_mem _ hc⟩

theorem childEntries_ordered {children : List (UInt8 × RaxSlot V)}
    (hsorted : (children.map Prod.fst).Pairwise (· < ·))
    (hslots : ∀ e ∈ children, Ordered (slotEntries e.2)) : Ordered (childEntries children) := by
  induction children with
  | nil =>
    rw [childEntries]
    exact List.Pairwise.nil
  | cons e rest ih =>
    obtain ⟨d, slot⟩ := e
    rw [List.map_cons, List.pairwise_cons] at hsorted
    rw [Ordered, childEntries, List.map_append, List.pairwise_append]
    refine ⟨?_, ih hsorted.2 fun e he => hslots e (List.mem_cons_of_mem _ he), ?_⟩
    · rw [List.map_map, List.pairwise_map]
      refine (List.pairwise_map.mp (hslots (d, slot) List.mem_cons_self)).imp fun hlt => ?_
      exact List.cons_lt_cons_iff.mpr (.inr ⟨rfl, hlt⟩)
    · intro a ha b hb
      obtain ⟨x, hx, rfl⟩ := List.mem_map.mp ha
      obtain ⟨y, -, rfl⟩ := List.mem_map.mp hx
      obtain ⟨z, hz, rfl⟩ := List.mem_map.mp hb
      obtain ⟨c, r, hr, hc⟩ := childEntries_head hz
      rw [hr]
      exact List.cons_lt_cons_iff.mpr (.inl (hsorted.1 c hc))

/-- The entries of a sound tree stand in the order of their keys. -/
theorem entries_ordered {t : RaxNode V} (h : Sound t) : Ordered t.entries := by
  have hbelow : ∀ slot : RaxSlot V, (∀ t, slot = .inr t → Ordered t.entries) →
      Ordered (slotEntries slot) := by
    intro slot hslot
    cases slot with
    | inl v => exact List.pairwise_singleton _ _
    | inr t => exact hslot t rfl
  have hown : ∀ (key : Option V) (l : List (Bytes × V)), Ordered l → (∀ e ∈ l, e.1 ≠ []) →
      Ordered ((key.map fun v => (([] : Bytes), v)).toList ++ l) := by
    intro key l hl hne
    cases key with
    | none => exact hl
    | some v =>
      refine List.pairwise_cons.mpr ⟨fun k hk => ?_, hl⟩
      obtain ⟨e, he, rfl⟩ := List.mem_map.mp hk
      obtain ⟨c, r, hr⟩ := List.exists_cons_of_ne_nil (hne e he)
      rw [hr]
      exact List.nil_lt_cons c r
  induction h with
  | @run key label child long fits below ih =>
    have hlabel : label ≠ [] := fun hnil => by simp [hnil] at long
    rw [entries]
    refine hown key _ ?_ fun e he => ?_
    · rw [Ordered, List.map_map, List.pairwise_map]
      exact (List.pairwise_map.mp (hbelow child ih)).imp fun hlt => List.append_left_lt hlt
    · obtain ⟨a, -, rfl⟩ := List.mem_map.mp he
      exact List.append_ne_nil_of_left_ne_nil hlabel a.1
  | @branch key children sorted marked ended below ih =>
    rw [entries]
    refine hown key _ (childEntries_ordered sorted fun e he => hbelow e.2 fun t ht =>
      ih e.1 t (ht ▸ he)) fun e he => ?_
    obtain ⟨c, r, hr, -⟩ := childEntries_head he
    rw [hr]
    exact List.cons_ne_nil c r

/-! ## The keys that are counted -/

/-- What is in a tree that is empty or sound. -/
theorem SoundHead.mem_entries {t : RaxNode V} (h : SoundHead t) (k : Bytes) (v : V) :
    (k, v) ∈ t.entries ↔ t.find k = some v := by
  rcases h with rfl | h
  · cases k <;> simp
  · exact mem_entries_iff h k v

theorem SoundHead.ordered {t : RaxNode V} (h : SoundHead t) : Ordered t.entries := by
  rcases h with rfl | h
  · simp [Ordered]
  · exact entries_ordered h

theorem SoundHead.nodup {t : RaxNode V} (h : SoundHead t) : (t.entries.map Prod.fst).Nodup := by
  refine List.Pairwise.imp (fun {a b} hlt => ?_) h.ordered
  rintro rfl
  exact List.lt_irrefl a hlt

/-- `numele` is the number of the keys that are found. -/
theorem numele_eq {t : Rax V} (h : t.Ok) :
    t.numele = Set.ncard {k | (raxFind t k).isSome} := by
  classical
  have hset : {k | (raxFind t k).isSome} = ↑(t.head.entries.map Prod.fst).toFinset := by
    ext k
    rw [Set.mem_ofPred_eq, raxFind_eq h.sound, Option.isSome_iff_exists, List.coe_toFinset,
      Set.mem_ofPred_eq, List.mem_map]
    constructor
    · rintro ⟨v, hv⟩
      exact ⟨(k, v), (h.sound.mem_entries k v).mpr hv, rfl⟩
    · rintro ⟨e, he, rfl⟩
      exact ⟨e.2, (h.sound.mem_entries e.1 e.2).mp he⟩
  rw [hset, Set.ncard_coe_finset, List.toFinset_card_of_nodup h.sound.nodup, List.length_map, h.numele]

/-! ## Runs -/

/-- A call of the tree's interface that changes it. -/
inductive RaxCall (V : Type) where
  | insert (s : Bytes) (data : V)
  | tryInsert (s : Bytes) (data : V)
  | remove (s : Bytes)

/-- The key of a call. -/
def RaxCall.key : RaxCall V → Bytes
  | .insert s _ | .tryInsert s _ | .remove s => s

/-- The call on a tree: the tree, what is returned, and `*old`. -/
def RaxCall.onRax (t : Rax V) : RaxCall V → Option (Rax V × Bool × Option V)
  | .insert s data => some (raxInsert t s data)
  | .tryInsert s data => some (raxTryInsert t s data)
  | .remove s => raxRemove t s

/-- The call on a map. -/
def RaxCall.onMap (m : Bytes → Option V) : RaxCall V → (Bytes → Option V) × Bool × Option V
  | .insert s data => (update m s (some data), (m s).isNone, m s)
  | .tryInsert s data => (if (m s).isNone then update m s (some data) else m, (m s).isNone, m s)
  | .remove s => (update m s none, (m s).isSome, m s)

/-- A run of calls, with what they return. -/
def runRax (t : Rax V) : List (RaxCall V) → Option (Rax V × List (Bool × Option V))
  | [] => some (t, [])
  | c :: calls => do
      let (t, out) ← c.onRax t
      let (t, outs) ← runRax t calls
      return (t, out :: outs)

def runMap (m : Bytes → Option V) : List (RaxCall V) → (Bytes → Option V) × List (Bool × Option V)
  | [] => (m, [])
  | c :: calls =>
      let (m, out) := c.onMap m
      let (m, outs) := runMap m calls
      (m, out :: outs)

/-- A call does to the tree what it does to the map that the tree holds. -/
theorem onRax_spec {t : Rax V} (h : t.Ok) (c : RaxCall V) {t' : Rax V} {out : Bool × Option V}
    (hout : c.onRax t = some (t', out)) : t'.Ok ∧ (raxFind t', out) = c.onMap (raxFind t) := by
  have hinsert : ∀ (s : Bytes) (data : V) (overwrite : Bool),
      raxGenericInsert t s data overwrite = (t', out) → Inserted t s data overwrite (t', out) :=
    fun s data overwrite heq => heq ▸ raxGenericInsert_spec h s data overwrite
  cases c with
  | insert s data =>
    obtain ⟨hok, hfind, hfresh, hold⟩ := hinsert s data true (Option.some.inj hout)
    refine ⟨hok, Prod.ext (funext fun k => (hfind k).trans ?_) (Prod.ext hfresh hold)⟩
    simp [RaxCall.onMap, Function.update_apply]
  | tryInsert s data =>
    obtain ⟨hok, hfind, hfresh, hold⟩ := hinsert s data false (Option.some.inj hout)
    refine ⟨hok, Prod.ext (funext fun k => (hfind k).trans ?_) (Prod.ext hfresh hold)⟩
    by_cases hs : raxFind t s = none
    · simp [RaxCall.onMap, Function.update_apply, hs]
    · simp [RaxCall.onMap, hs]
  | remove s =>
    obtain ⟨hok, hfind, hfound, hold⟩ := raxRemove_spec h s hout
    refine ⟨hok, Prod.ext (funext fun k => (hfind k).trans ?_) (Prod.ext hfound hold)⟩
    simp [RaxCall.onMap, Function.update_apply]

/-- A run from a tree. -/
theorem runRax_spec {t : Rax V} (h : t.Ok) (calls : List (RaxCall V)) {t' : Rax V}
    {outs : List (Bool × Option V)} (hrun : runRax t calls = some (t', outs)) :
    t'.Ok ∧ (raxFind t', outs) = runMap (raxFind t) calls := by
  induction calls generalizing t t' outs with
  | nil =>
    cases hrun
    exact ⟨h, rfl⟩
  | cons c calls ih =>
    rw [runRax, Option.bind_eq_bind, Option.bind_eq_some_iff] at hrun
    obtain ⟨⟨t₁, out⟩, hcall, hrun⟩ := hrun
    rw [Option.bind_eq_bind, Option.bind_eq_some_iff] at hrun
    obtain ⟨⟨t₂, rest⟩, hrest, hpure⟩ := hrun
    cases hpure
    obtain ⟨hok, hmap⟩ := onRax_spec h c hcall
    obtain ⟨hok', hmap'⟩ := ih hok hrest
    refine ⟨hok', ?_⟩
    rw [runMap, ← hmap]
    simp only
    rw [← hmap']

/-- Keys that fit a node stay so. -/
def Short (m : Bytes → Option V) : Prop := ∀ k, (m k).isSome → k.length ≤ raxNodeMaxSize

theorem onMap_short {m : Bytes → Option V} (h : Short m) (c : RaxCall V)
    (hkey : c.key.length ≤ raxNodeMaxSize) : Short (c.onMap m).1 := by
  have hset : ∀ (s : Bytes) (v : Option V), s.length ≤ raxNodeMaxSize → Short (update m s v) := by
    intro s v hs k hk
    rw [Function.update_apply] at hk
    split at hk
    · rename_i heq
      exact heq ▸ hs
    · exact h k hk
  cases c with
  | insert s data => exact hset s _ hkey
  | tryInsert s data =>
    rw [RaxCall.onMap]
    simp only
    split
    · exact hset s _ hkey
    · exact h
  | remove s => exact hset s none hkey

theorem runRax_isSome {t : Rax V} (h : t.Ok) (hshort : Short (raxFind t))
    (calls : List (RaxCall V)) (hkeys : ∀ c ∈ calls, c.key.length ≤ raxNodeMaxSize) :
    (runRax t calls).isSome := by
  induction calls generalizing t with
  | nil => rfl
  | cons c calls ih =>
    have hcall : (c.onRax t).isSome := by
      cases c with
      | insert s data => rfl
      | tryInsert s data => rfl
      | remove s => exact raxRemove_isSome h hshort s
    obtain ⟨⟨t₁, out⟩, hcall⟩ := Option.isSome_iff_exists.mp hcall
    obtain ⟨hok, hmap⟩ := onRax_spec h c hcall
    have hshort₁ : Short (raxFind t₁) := by
      have hstep := onMap_short hshort c (hkeys c List.mem_cons_self)
      rwa [← hmap] at hstep
    obtain ⟨⟨t₂, rest⟩, hrest⟩ := Option.isSome_iff_exists.mp
      (ih hok hshort₁ fun d hd => hkeys d (List.mem_cons_of_mem c hd))
    rw [runRax, hcall]
    simp only [Option.bind_eq_bind, Option.bind_some, hrest]
    rfl

/-- What a map holds that nothing has been put into. -/
theorem raxNew_map : raxFind (raxNew : Rax V) = fun _ => none := funext raxNew_find

/-- Every run from an empty tree does and returns what it would on a map, and a run of keys that fit
a node does not stop. -/
theorem runRax_refines (calls : List (RaxCall V)) :
    (∀ t outs, runRax raxNew calls = some (t, outs) →
        (raxFind t, outs) = runMap (fun _ => none) calls) ∧
      ((∀ c ∈ calls, c.key.length ≤ raxNodeMaxSize) → (runRax raxNew calls).isSome) := by
  refine ⟨fun t outs hrun => ?_, fun hkeys => ?_⟩
  · rw [(runRax_spec raxNew_ok calls hrun).2, raxNew_map]
  · refine runRax_isSome raxNew_ok (fun k hk => ?_) calls hkeys
    rw [raxNew_find] at hk
    cases hk

/-! ## The end of a tree -/

mutual

/-- `raxRecursiveFree` with what is left of `numnodes` and the values that the callback gets, in
order; `null` tells which values are null pointers. -/
def raxRecursiveFree (null : V → Bool) : RadixTree UInt8 V → Int → Int × List V
  | .run key _ child, n =>
      let (n, freed) := raxFreeSlot null child n
      (n - 1, freed ++ key.toList.filter fun v => !null v)
  | .branch key children, n =>
      let (n, freed) := raxFreeChildren null children n
      (n - 1, freed ++ key.toList.filter fun v => !null v)

def raxFreeSlot (null : V → Bool) : V ⊕ RadixTree UInt8 V → Int → Int × List V
  | .inl v, n => (n, [v].filter fun v => !null v)
  | .inr t, n => raxRecursiveFree null t n

/-- The children, from the last to the first. -/
def raxFreeChildren (null : V → Bool) :
    List (UInt8 × (V ⊕ RadixTree UInt8 V)) → Int → Int × List V
  | [], n => (n, [])
  | (_, slot) :: rest, n =>
      let (n, after) := raxFreeChildren null rest n
      let (n, freed) := raxFreeSlot null slot n
      (n, after ++ freed)

end

/-- `raxFreeWithCallback`: there is no result when the assertion fails. -/
def raxFreeWithCallback (null : V → Bool) (t : Rax V) : Option (List V) :=
  let (numnodes, freed) := raxRecursiveFree null t.head t.numnodes
  if numnodes = 0 then some freed else none

/-- `raxFree` -/
def raxFree (t : Rax V) : Option Unit := (raxFreeWithCallback (fun _ => true) t).map fun _ => ()

/-- What is freed of a part of a tree: its nodes, and each value once. -/
structure Freed (null : V → Bool) (nodes : Nat) (entries : List (Bytes × V)) (n : Int)
    (out : Int × List V) : Prop where
  nodes : out.1 = n - nodes
  values : out.2.Perm ((entries.map Prod.snd).filter fun v => !null v)

mutual

theorem raxRecursiveFree_spec (null : V → Bool) : ∀ (t : RadixTree UInt8 V) (n : Int),
    Freed null t.nodes t.entries n (raxRecursiveFree null t n)
  | .run key label child, n => by
    obtain ⟨hn, hv⟩ := raxFreeSlot_spec null child n
    rw [raxRecursiveFree]
    generalize raxFreeSlot null child n = out at hn hv
    obtain ⟨m, freed⟩ := out
    refine ⟨?_, ?_⟩
    · simp only [nodes_run] at hn ⊢
      omega
    · rw [entries, List.map_append, List.filter_append, List.map_map]
      refine List.perm_append_comm.trans (List.Perm.append ?_ hv)
      cases key <;> simp
  | .branch key children, n => by
    obtain ⟨hn, hv⟩ := raxFreeChildren_spec null children n
    rw [raxRecursiveFree]
    generalize raxFreeChildren null children n = out at hn hv
    obtain ⟨m, freed⟩ := out
    refine ⟨?_, ?_⟩
    · simp only [nodes_branch] at hn ⊢
      omega
    · rw [entries, List.map_append, List.filter_append]
      refine List.perm_append_comm.trans (List.Perm.append ?_ hv)
      cases key <;> simp

theorem raxFreeSlot_spec (null : V → Bool) : ∀ (slot : V ⊕ RadixTree UInt8 V) (n : Int),
    Freed null (slotNodes slot) (slotEntries slot) n (raxFreeSlot null slot n)
  | .inl v, n => by
    rw [raxFreeSlot]
    exact ⟨by simp, by simp⟩
  | .inr t, n => by
    rw [raxFreeSlot, slotNodes, slotEntries]
    exact raxRecursiveFree_spec null t n

theorem raxFreeChildren_spec (null : V → Bool) :
    ∀ (children : List (UInt8 × (V ⊕ RadixTree UInt8 V))) (n : Int),
    Freed null (childNodes children) (childEntries children) n (raxFreeChildren null children n)
  | [], n => by
    rw [raxFreeChildren]
    exact ⟨by simp, by simp⟩
  | (c, slot) :: rest, n => by
    obtain ⟨hn, hv⟩ := raxFreeChildren_spec null rest n
    rw [raxFreeChildren]
    generalize raxFreeChildren null rest n = after at hn hv
    obtain ⟨m, after⟩ := after
    obtain ⟨hn', hv'⟩ := raxFreeSlot_spec null slot m
    simp only
    generalize raxFreeSlot null slot m = out at hn' hv'
    obtain ⟨m', freed⟩ := out
    refine ⟨?_, ?_⟩
    · simp only [childNodes_cons] at hn hn' ⊢
      omega
    · rw [childEntries, List.map_append, List.filter_append, List.map_map]
      exact List.perm_append_comm.trans (List.Perm.append hv' hv)

end

theorem raxFreeWithCallback_eq (null : V → Bool) {t : Rax V} (h : t.Ok) :
    raxFreeWithCallback null t = some (raxRecursiveFree null t.head t.numnodes).2 := by
  have hn := (raxRecursiveFree_spec null t.head t.numnodes).nodes
  rw [h.numnodes, Int.sub_self] at hn
  rw [raxFreeWithCallback]
  simp only
  rw [h.numnodes, if_pos hn]

theorem raxFree_ok {t : Rax V} (h : t.Ok) : raxFree t = some () := by
  rw [raxFree, raxFreeWithCallback_eq _ h]
  rfl

/-- `numele` counts the keys behind every run, and the tree is freed to the last node, with every
value that is not null passed to the callback once. -/
theorem runRax_counts (null : V → Bool) (calls : List (RaxCall V)) {t : Rax V}
    {outs : List (Bool × Option V)} (hrun : runRax raxNew calls = some (t, outs)) :
    t.numele = Set.ncard {k | ((runMap (fun _ => none) calls).1 k).isSome} ∧
      ∃ (entries : List (Bytes × V)) (freed : List V), (entries.map Prod.fst).Nodup ∧
        (∀ k v, (k, v) ∈ entries ↔ (runMap (fun _ => none) calls).1 k = some v) ∧
        raxFreeWithCallback null t = some freed ∧
        freed.Perm ((entries.map Prod.snd).filter fun v => !null v) := by
  obtain ⟨hok, hmap⟩ := runRax_spec raxNew_ok calls hrun
  rw [raxNew_map] at hmap
  have hfind : raxFind t = (runMap (fun _ => none) calls).1 := congrArg Prod.fst hmap
  refine ⟨hfind ▸ numele_eq hok, t.head.entries, (raxRecursiveFree null t.head t.numnodes).2,
    hok.sound.nodup, fun k v => ?_, raxFreeWithCallback_eq null hok,
    (raxRecursiveFree_spec null t.head t.numnodes).values⟩
  rw [← hfind, raxFind_eq hok.sound, hok.sound.mem_entries]

/-- Two keys on one path, and the first gone. -/
theorem runRax_counts_two :
    ∃ (t : Rax Char) (outs : List (Bool × Option Char)) (entries : List (Bytes × Char))
      (freed : List Char),
      runRax raxNew [.insert [1] 'a', .insert [1, 2] 'b', .remove [1]] = some (t, outs) ∧
        raxFreeWithCallback (fun _ => false) t = some freed ∧
        freed.Perm ((entries.map Prod.snd).filter fun v => !(fun _ => false) v) := by
  obtain ⟨⟨t, outs⟩, hrun⟩ := Option.isSome_iff_exists.mp
    (runRax_isSome raxNew_ok (by simp [Short, raxNew_find])
      [.insert [1] 'a', .insert [1, 2] 'b', .remove [1]] (by simp [RaxCall.key, raxNodeMaxSize]))
  obtain ⟨-, entries, freed, -, -, hfree, hperm⟩ := runRax_counts (fun _ => false) _ hrun
  exact ⟨t, outs, entries, freed, hrun, hfree, hperm⟩

end Sf37.Radix

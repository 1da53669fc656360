/-
Sf37.Server.ToolMemoryTrees — the memory of tool blocks with its two radix trees.

The records are those of `ToolHeap`; what is looked up, put in and taken out by id and by
text goes through `rax.c`. An operation has no result where the source gives up with "out of
memory", where a removal goes past a node of its tree, or where an assertion fails.

* `toolMemoryPut_view`, `toolMemoryRemoveEntry_view`: the trees stand for the maps of
  `ToolHeap`, and no operation gives up while the keys fit a node.
* `toolTrees_run`: so it is with every run, up to the end of the memory.
-/
import Sf37.Server.ToolMemoryInvariant
import Sf37.Radix.Runs

namespace Sf37.Server.Trees

open Sf37.Text Sf37.Store Sf37.Radix Sf37.Run
open Sf37.Server.Heap (Addr ToolHeap ToolMemoryCall chargeOff countOff vacated)
open Function (update)

/-- `tool_memory`: the records, and the trees in the place of their maps. -/
structure ToolTrees where
  heap : ToolHeap
  byId : Rax Addr
  byBlock : Rax Addr

/-- Records with maps. -/
def withMaps (ids blocks : Bytes → Option Addr) (h : ToolHeap) : ToolHeap :=
  { h with byId := ids, byBlock := blocks }

/-- The memory with what the trees hold. -/
def view (t : ToolTrees) : ToolHeap := withMaps (raxFind t.byId) (raxFind t.byBlock) t.heap

/-! ## The source -/

/-- `tool_memory_find_block_locked` -/
def toolMemoryFindBlock (t : ToolTrees) (dsml : Bytes) : Option Addr :=
  if dsml = [] then none else raxFind t.byBlock dsml

/-- `tool_memory_get_block_locked` -/
def toolMemoryGetBlock (t : ToolTrees) (dsml : Bytes) (new : Addr) : Option (ToolTrees × Addr) :=
  match toolMemoryFindBlock t dsml with
  | some b => some (t, b)
  | none =>
      let h := t.heap
      let (byBlock, inserted, _) := raxInsert t.byBlock dsml new
      if inserted then
        some ({ t with
          byBlock
          heap := { h with
            blockUsed := update h.blockUsed new true
            blockDsml := update h.blockDsml new dsml
            blockBytes := update h.blockBytes new (dsml.length + 1 + sizeofBlock)
            blockRefs := update h.blockRefs new 0
            blockSeen := update h.blockSeen new 0
            blockEntries := update h.blockEntries new none
            bytes := h.bytes + (dsml.length + 1 + sizeofBlock) } }, new)
      else none

/-- `tool_memory_release_block_locked` -/
def toolMemoryReleaseBlock (t : ToolTrees) (b : Addr) : Option ToolTrees :=
  let h := { t.heap with blockRefs := update t.heap.blockRefs b (t.heap.blockRefs b - 1) }
  if 0 < h.blockRefs b then some { t with heap := h }
  else do
    let (byBlock, _) ← raxRemove t.byBlock (h.blockDsml b)
    let h := chargeOff h (h.blockBytes b)
    return { t with byBlock, heap := { h with blockUsed := update h.blockUsed b false } }

/-- `if (e->block) tool_block_unlink_entry(e->block, e);` -/
def leaveBlock (h : ToolHeap) (e : Addr) : ToolHeap :=
  match h.entryBlock e with
  | some b => Heap.toolBlockUnlinkEntry h b e
  | none => h

/-- What `tool_memory_remove_entry_locked` does to the records between the tree and the block -/
def detached (h : ToolHeap) (e : Addr) : ToolHeap :=
  let h := leaveBlock (Heap.toolMemoryUnlink h e) e
  let h := countOff (chargeOff h (h.entryBytes e))
  { h with entryUsed := update h.entryUsed e false }

/-- `tool_memory_remove_entry_locked` up to the release of the block -/
def toolMemoryDetachEntry (t : ToolTrees) (e : Addr) : Option ToolTrees := do
  let (byId, _) ← raxRemove t.byId (t.heap.entryId e)
  return { t with byId, heap := detached t.heap e }

/-- `tool_memory_remove_entry_locked` -/
def toolMemoryRemoveEntry (t : ToolTrees) (e : Addr) : Option ToolTrees :=
  match t.heap.entryBlock e with
  | some b => do toolMemoryReleaseBlock (← toolMemoryDetachEntry t e) b
  | none => toolMemoryDetachEntry t e

/-- The loop of `tool_memory_prune_locked` -/
def toolMemoryPruneLoop : Nat → ToolTrees → Option ToolTrees
  | 0, t => some t
  | fuel + 1, t =>
      if Heap.toolMemoryMaxEntries t.heap < t.heap.entries ∨
          Heap.toolMemoryMaxBytes t.heap < t.heap.bytes then
        match t.heap.links.tail with
        | some tail => do toolMemoryPruneLoop fuel (← toolMemoryRemoveEntry t tail)
        | none => some t
      else some t

/-- `tool_memory_prune_locked` -/
def toolMemoryPrune (t : ToolTrees) : Option ToolTrees := toolMemoryPruneLoop t.heap.entries t

/-- `tool_memory_find_entry_locked` -/
def toolMemoryFindEntry (t : ToolTrees) (id : Bytes) : Option Addr :=
  if id = [] then none else raxFind t.byId id

/-- `tool_memory_put_locked` from the new entry on, up to the pruning -/
def toolMemoryInsert (t : ToolTrees) (id dsml : Bytes) (source : ToolMemorySource)
    (newEntry newBlock : Addr) : Option ToolTrees := do
  let (t, b) ← toolMemoryGetBlock t dsml newBlock
  let e := newEntry
  let h := t.heap
  let h := { h with
    entryUsed := update h.entryUsed e true
    entryId := update h.entryId e id
    entryBlock := update h.entryBlock e (some b)
    entryBytes := update h.entryBytes e (id.length + 1 + sizeofEntry)
    entryStamp := update h.entryStamp e (h.clock + 1)
    clock := h.clock + 1
    entrySource := update h.entrySource e source
    blockNext := update h.blockNext e (h.blockEntries b)
    blockEntries := update h.blockEntries b (some e)
    blockRefs := update h.blockRefs b (h.blockRefs b + 1) }
  let (byId, inserted, _) := raxInsert t.byId id e
  if inserted then
    let h := Heap.toolMemoryLinkHead h e
    return { t with
      byId, heap := { h with entries := h.entries + 1, bytes := h.bytes + h.entryBytes e } }
  else none

/-- `tool_memory_put_locked` -/
def toolMemoryPut (t : ToolTrees) (id dsml : Bytes) (source : ToolMemorySource)
    (newEntry newBlock : Addr) : Option ToolTrees :=
  if id = [] ∨ dsml = [] then some t
  else
    match toolMemoryFindEntry t id with
    | some old =>
        let h := t.heap
        if (h.entryBlock old).any (fun b => decide (h.blockDsml b = dsml)) then
          let h := if source = .ram then
            { h with entrySource := update h.entrySource old .ram } else h
          toolMemoryPrune { t with heap := Heap.toolMemoryTouch h old }
        else do
          let t ← toolMemoryRemoveEntry t old
          let t ← toolMemoryInsert t id dsml source newEntry newBlock
          toolMemoryPrune t
    | none => do
        let t ← toolMemoryInsert t id dsml source newEntry newBlock
        toolMemoryPrune t

/-- `tool_memory_lookup_locked` -/
def toolMemoryLookup (t : ToolTrees) (id : Bytes) :
    ToolTrees × Option (Bytes × ToolMemorySource × Addr) :=
  match toolMemoryFindEntry t id with
  | none => (t, none)
  | some e =>
      match t.heap.entryBlock e with
      | none => (t, none)
      | some b =>
          ({ t with heap := Heap.toolMemoryTouch t.heap e },
            some (t.heap.blockDsml b, t.heap.entrySource e, b))

/-- `while (m->tail) tool_memory_remove_entry_locked(m, m->tail);` -/
def toolMemoryFreeLoop : Nat → ToolTrees → Option ToolTrees
  | 0, t => if t.heap.links.tail = none then some t else none
  | fuel + 1, t =>
      match t.heap.links.tail with
      | some tail => do toolMemoryFreeLoop fuel (← toolMemoryRemoveEntry t tail)
      | none => some t

/-- `tool_memory_free` -/
def toolMemoryFree (t : ToolTrees) : Option Unit := do
  let t ← toolMemoryFreeLoop t.heap.entries t
  raxFree t.byId
  raxFree t.byBlock

/-- A call of one of the operations -/
def call (t : ToolTrees) : ToolMemoryCall → Option ToolTrees
  | .put id dsml source newEntry newBlock => toolMemoryPut t id dsml source newEntry newBlock
  | .lookup id => some (toolMemoryLookup t id).1
  | .prune => toolMemoryPrune t
  | .removeEntry e => toolMemoryRemoveEntry t e

/-- `tool_memory_init_locked` -/
def toolMemoryInit (maxEntries maxBytes : Nat) : ToolTrees where
  heap := { maxEntries := maxEntries, maxBytes := maxBytes }
  byId := raxNew
  byBlock := raxNew

/-! ## The trees stand for the maps -/

/-- The trees are sound, and their keys fit a node. -/
structure Kept (t : ToolTrees) : Prop where
  ids : t.byId.Ok
  blocks : t.byBlock.Ok
  idsShort : Short (raxFind t.byId)
  blocksShort : Short (raxFind t.byBlock)

/-- What an operation does to the memory with the maps. -/
def Does (r : Option ToolTrees) (h : ToolHeap) : Prop := ∃ t, r = some t ∧ Kept t ∧ view t = h

theorem Does.bind {r : Option ToolTrees} {h h' : ToolHeap} {f : ToolTrees → Option ToolTrees}
    (hr : Does r h) (hf : ∀ t, Kept t → view t = h → Does (f t) h') : Does (r >>= f) h' := by
  obtain ⟨t, rfl, hk, hv⟩ := hr
  exact hf t hk hv

/-- A key more that fits a node. -/
theorem short_update {m : Bytes → Option Addr} (h : Short m) {k : Bytes} (v : Option Addr)
    (hk : v.isSome → k.length ≤ raxNodeMaxSize) : Short (update m k v) := by
  intro k' hk'
  rw [Function.update_apply] at hk'
  split at hk'
  · rename_i heq
    exact heq ▸ hk hk'
  · exact h k' hk'

/-- A key that goes from a tree. -/
theorem remove_update {t : Rax Addr} (h : t.Ok) (hshort : Short (raxFind t)) (s : Bytes) :
    ∃ t' out, raxRemove t s = some (t', out) ∧ t'.Ok ∧ Short (raxFind t') ∧
      raxFind t' = update (raxFind t) s none := by
  obtain ⟨⟨t', out⟩, hout⟩ := Option.isSome_iff_exists.mp (raxRemove_isSome h hshort s)
  have hspec := raxRemove_spec h s hout
  have hfind : raxFind t' = update (raxFind t) s none := funext fun k => by
    rw [hspec.find, Function.update_apply]
  exact ⟨t', out, hout, hspec.ok, hfind ▸ short_update hshort none (by simp), hfind⟩

/-- A new key that comes into a tree. -/
theorem insert_update {t : Rax Addr} (h : t.Ok) (hshort : Short (raxFind t)) {s : Bytes}
    (hnew : raxFind t s = none) (hs : s.length ≤ raxNodeMaxSize) (v : Addr) :
    (raxInsert t s v).1.Ok ∧ Short (raxFind (raxInsert t s v).1) ∧ (raxInsert t s v).2.1 = true ∧
      raxFind (raxInsert t s v).1 = update (raxFind t) s (some v) := by
  have hspec : Inserted t s v true (raxInsert t s v) := raxGenericInsert_spec h s v true
  have hfind : raxFind (raxInsert t s v).1 = update (raxFind t) s (some v) := funext fun k => by
    rw [hspec.find, Function.update_apply]
    simp
  exact ⟨hspec.ok, hfind ▸ short_update hshort _ fun _ => hs, by rw [hspec.fresh, hnew]; rfl, hfind⟩

/-! ## What does not look at the maps -/

section WithMaps

variable (ids blocks : Bytes → Option Addr) (h : ToolHeap)

theorem chargeOff_withMaps (n : Nat) :
    chargeOff (withMaps ids blocks h) n = withMaps ids blocks (chargeOff h n) := by
  rw [chargeOff, chargeOff, apply_ite (withMaps ids blocks)]
  rfl

theorem countOff_withMaps :
    countOff (withMaps ids blocks h) = withMaps ids blocks (countOff h) := by
  rw [countOff, countOff, apply_ite (withMaps ids blocks)]
  rfl

theorem leaveBlock_withMaps (e : Addr) :
    leaveBlock (withMaps ids blocks h) e = withMaps ids blocks (leaveBlock h e) := by
  have hsame : (withMaps ids blocks h).entryBlock e = h.entryBlock e := rfl
  rw [leaveBlock, leaveBlock, hsame]
  cases h.entryBlock e <;> rfl

theorem toolMemoryTouch_withMaps (e : Addr) :
    Heap.toolMemoryTouch (withMaps ids blocks h) e =
      withMaps ids blocks (Heap.toolMemoryTouch h e) := by
  rw [Heap.toolMemoryTouch, Heap.toolMemoryTouch, apply_ite (withMaps ids blocks)]
  rfl

theorem toolMemoryDetachEntry_withMaps (e : Addr) :
    Heap.toolMemoryDetachEntry (withMaps ids blocks h) e =
      withMaps (update ids (h.entryId e) none) blocks (detached h e) := by
  have hstart : Heap.toolMemoryDetachEntry (withMaps ids blocks h) e =
      let h' := leaveBlock (withMaps (update ids (h.entryId e) none) blocks
        (Heap.toolMemoryUnlink h e)) e
      let h' := countOff (chargeOff h' (h'.entryBytes e))
      { h' with entryUsed := update h'.entryUsed e false } := rfl
  rw [hstart, leaveBlock_withMaps]
  simp only
  rw [chargeOff_withMaps, countOff_withMaps]
  rfl

theorem toolMemoryReleaseBlock_byId (b : Addr) :
    (Heap.toolMemoryReleaseBlock h b).byId = h.byId := by
  rw [Heap.toolMemoryReleaseBlock]
  simp only [chargeOff]
  split
  · rfl
  · split <;> rfl

end WithMaps

/-! ## The operations -/

section Operations

variable {t : ToolTrees}

theorem toolMemoryReleaseBlock_view (h : Kept t) (b : Addr) :
    Does (toolMemoryReleaseBlock t b) (Heap.toolMemoryReleaseBlock (view t) b) := by
  have hrefs : (view t).blockRefs = t.heap.blockRefs := rfl
  rw [toolMemoryReleaseBlock, Heap.toolMemoryReleaseBlock]
  simp only [hrefs, Function.update_self]
  by_cases hmore : 0 < t.heap.blockRefs b - 1
  · rw [if_pos hmore, if_pos hmore]
    exact ⟨_, rfl, ⟨h.ids, h.blocks, h.idsShort, h.blocksShort⟩, rfl⟩
  · rw [if_neg hmore, if_neg hmore]
    obtain ⟨byBlock, out, hout, hok, hshort, hfind⟩ :=
      remove_update h.blocks h.blocksShort (t.heap.blockDsml b)
    rw [hout]
    refine ⟨_, rfl, ⟨h.ids, hok, h.idsShort, hshort⟩, ?_⟩
    simp only [view, hfind]
    symm
    exact congrArg (fun h : ToolHeap => { h with blockUsed := update h.blockUsed b false })
      (chargeOff_withMaps (raxFind t.byId)
        (update (raxFind t.byBlock) (t.heap.blockDsml b) none)
        { t.heap with blockRefs := update t.heap.blockRefs b (t.heap.blockRefs b - 1) }
        (t.heap.blockBytes b))

theorem toolMemoryDetachEntry_view (h : Kept t) (e : Addr) :
    Does (toolMemoryDetachEntry t e) (Heap.toolMemoryDetachEntry (view t) e) := by
  obtain ⟨byId, out, hout, hok, hshort, hfind⟩ := remove_update h.ids h.idsShort (t.heap.entryId e)
  rw [toolMemoryDetachEntry, hout, view, toolMemoryDetachEntry_withMaps, ← hfind]
  exact ⟨_, rfl, ⟨hok, h.blocks, hshort, h.blocksShort⟩, rfl⟩

theorem toolMemoryRemoveEntry_view (h : Kept t) (e : Addr) :
    Does (toolMemoryRemoveEntry t e) (Heap.toolMemoryRemoveEntry (view t) e) := by
  have hdetach := toolMemoryDetachEntry_view h e
  rw [toolMemoryRemoveEntry, Heap.toolMemoryRemoveEntry]
  have hblock : (view t).entryBlock e = t.heap.entryBlock e := rfl
  rw [hblock]
  cases t.heap.entryBlock e with
  | none => exact hdetach
  | some b =>
    refine hdetach.bind fun t' hk hv => ?_
    simp only
    rw [← hv]
    exact toolMemoryReleaseBlock_view hk b

theorem toolMemoryPruneLoop_view (fuel : Nat) (h : Kept t) :
    Does (toolMemoryPruneLoop fuel t) (Heap.toolMemoryPruneLoop fuel (view t)) := by
  induction fuel generalizing t with
  | zero => exact ⟨t, rfl, h, rfl⟩
  | succ fuel ih =>
    have hover : (Heap.toolMemoryMaxEntries (view t) < (view t).entries ∨
        Heap.toolMemoryMaxBytes (view t) < (view t).bytes) ↔
        (Heap.toolMemoryMaxEntries t.heap < t.heap.entries ∨
          Heap.toolMemoryMaxBytes t.heap < t.heap.bytes) := Iff.rfl
    have htail : (view t).links.tail = t.heap.links.tail := rfl
    rw [toolMemoryPruneLoop, Heap.toolMemoryPruneLoop, htail]
    by_cases ho : Heap.toolMemoryMaxEntries t.heap < t.heap.entries ∨
        Heap.toolMemoryMaxBytes t.heap < t.heap.bytes
    · rw [if_pos ho, if_pos (hover.mpr ho)]
      cases t.heap.links.tail with
      | none => exact ⟨t, rfl, h, rfl⟩
      | some tail =>
        refine (toolMemoryRemoveEntry_view h tail).bind fun t' hk hv => ?_
        simp only
        rw [← hv]
        exact ih hk
    · rw [if_neg ho, if_neg (mt hover.mp ho)]
      exact ⟨t, rfl, h, rfl⟩

theorem toolMemoryPrune_view (h : Kept t) :
    Does (toolMemoryPrune t) (Heap.toolMemoryPrune (view t)) :=
  toolMemoryPruneLoop_view t.heap.entries h

theorem toolMemoryGetBlock_view (h : Kept t) {dsml : Bytes} (hne : dsml ≠ [])
    (hfits : dsml.length ≤ raxNodeMaxSize) (new : Addr) :
    ∃ t' b, toolMemoryGetBlock t dsml new = some (t', b) ∧ Kept t' ∧ t'.byId = t.byId ∧
      (view t', b) = Heap.toolMemoryGetBlock (view t) dsml new := by
  have hfind : Heap.toolMemoryFindBlock (view t) dsml = toolMemoryFindBlock t dsml := rfl
  rw [toolMemoryGetBlock, Heap.toolMemoryGetBlock, hfind]
  cases hb : toolMemoryFindBlock t dsml with
  | some b => exact ⟨t, b, rfl, h, rfl, rfl⟩
  | none =>
    rw [toolMemoryFindBlock, if_neg hne] at hb
    obtain ⟨hok, hshort, hnew, hfind⟩ := insert_update h.blocks h.blocksShort hb hfits new
    generalize raxInsert t.byBlock dsml new = out at hok hshort hnew hfind
    obtain ⟨byBlock, inserted, old⟩ := out
    simp only at hok hshort hnew hfind
    subst hnew
    refine ⟨_, new, rfl, ⟨h.ids, hok, h.idsShort, hshort⟩, rfl, ?_⟩
    simp only [view, hfind]
    rfl

theorem toolMemoryInsert_view (h : Kept t) {id dsml : Bytes} (hne : dsml ≠ [])
    (hnew : raxFind t.byId id = none) (hid : id.length ≤ raxNodeMaxSize)
    (hfits : dsml.length ≤ raxNodeMaxSize) (source : ToolMemorySource) (e b : Addr) :
    Does (toolMemoryInsert t id dsml source e b)
      (Heap.toolMemoryInsert (view t) id dsml source e b) := by
  obtain ⟨t', b', hget, hk, hsame, hv⟩ := toolMemoryGetBlock_view h hne hfits b
  rw [← hsame] at hnew
  obtain ⟨hok, hshort, hinserted, hfind⟩ := insert_update hk.ids hk.idsShort hnew hid e
  rw [toolMemoryInsert, Heap.toolMemoryInsert, hget, ← hv]
  simp only [Option.bind_eq_bind, Option.bind_some]
  generalize raxInsert t'.byId id e = out at hok hshort hinserted hfind
  obtain ⟨byId, inserted, old⟩ := out
  simp only at hok hshort hinserted hfind
  subst hinserted
  refine ⟨_, rfl, ⟨hok, hk.blocks, hshort, hk.blocksShort⟩, ?_⟩
  simp only [view, hfind]
  rfl

/-- An entry that is removed is not found any more. -/
theorem removeEntry_byId (t : ToolTrees) (e : Addr) :
    (Heap.toolMemoryRemoveEntry (view t) e).byId (t.heap.entryId e) = none := by
  have hdetach : (Heap.toolMemoryDetachEntry (view t) e).byId (t.heap.entryId e) = none := by
    rw [view, toolMemoryDetachEntry_withMaps]
    exact Function.update_self ..
  rw [Heap.toolMemoryRemoveEntry]
  split
  · rwa [toolMemoryReleaseBlock_byId]
  · exact hdetach

theorem toolMemoryPut_view (h : Kept t)
    (hids : ∀ id p, (view t).byId id = some p → (view t).entryId p = id) {id dsml : Bytes}
    (hid : id.length ≤ raxNodeMaxSize) (hfits : dsml.length ≤ raxNodeMaxSize)
    (source : ToolMemorySource) (e b : Addr) :
    Does (toolMemoryPut t id dsml source e b) (Heap.toolMemoryPut (view t) id dsml source e b) := by
  have hentry : Heap.toolMemoryFindEntry (view t) id = toolMemoryFindEntry t id := rfl
  rw [toolMemoryPut, Heap.toolMemoryPut, hentry]
  by_cases hskip : id = [] ∨ dsml = []
  · rw [if_pos hskip, if_pos hskip]
    exact ⟨t, rfl, h, rfl⟩
  rw [if_neg hskip, if_neg hskip]
  obtain ⟨hidne, hne⟩ := not_or.mp hskip
  cases hfound : toolMemoryFindEntry t id with
  | none =>
    rw [toolMemoryFindEntry, if_neg hidne] at hfound
    refine (toolMemoryInsert_view h hne hfound hid hfits source e b).bind fun t' hk hv => ?_
    simp only
    rw [← hv]
    exact toolMemoryPrune_view hk
  | some old =>
    rw [toolMemoryFindEntry, if_neg hidne] at hfound
    have hold : t.heap.entryId old = id := hids id old hfound
    simp only
    by_cases hsame : (t.heap.entryBlock old).any (fun b => decide (t.heap.blockDsml b = dsml)) = true
    · have hsame' : ((view t).entryBlock old).any
          (fun b => decide ((view t).blockDsml b = dsml)) = true := hsame
      rw [if_pos hsame, if_pos hsame']
      have htouch : ∀ h' : ToolHeap, Does
          (toolMemoryPrune { t with heap := Heap.toolMemoryTouch h' old })
          (Heap.toolMemoryPrune (Heap.toolMemoryTouch
            (withMaps (raxFind t.byId) (raxFind t.byBlock) h') old)) := by
        intro h'
        rw [toolMemoryTouch_withMaps]
        exact toolMemoryPrune_view ⟨h.ids, h.blocks, h.idsShort, h.blocksShort⟩
      by_cases hram : source = .ram
      · rw [if_pos hram, if_pos hram]
        exact htouch _
      · rw [if_neg hram, if_neg hram]
        exact htouch _
    · have hsame' : ¬ ((view t).entryBlock old).any
          (fun b => decide ((view t).blockDsml b = dsml)) = true := hsame
      rw [if_neg hsame, if_neg hsame']
      refine (toolMemoryRemoveEntry_view h old).bind fun t' hk hv => ?_
      have hgone : raxFind t'.byId id = none := by
        have hgone := removeEntry_byId t old
        rwa [← hv, hold] at hgone
      refine (toolMemoryInsert_view hk hne hgone hid hfits source e b).bind fun t'' hk' hv' => ?_
      rw [← hv, ← hv']
      exact toolMemoryPrune_view hk'

theorem toolMemoryLookup_view (h : Kept t) (id : Bytes) :
    Kept (toolMemoryLookup t id).1 ∧
      (view (toolMemoryLookup t id).1, (toolMemoryLookup t id).2) =
        Heap.toolMemoryLookup (view t) id := by
  have hentry : Heap.toolMemoryFindEntry (view t) id = toolMemoryFindEntry t id := rfl
  have hblock : (view t).entryBlock = t.heap.entryBlock := rfl
  rw [toolMemoryLookup, Heap.toolMemoryLookup, hentry, hblock]
  cases toolMemoryFindEntry t id with
  | none => exact ⟨h, rfl⟩
  | some e =>
    simp only
    cases t.heap.entryBlock e with
    | none => exact ⟨h, rfl⟩
    | some b =>
      refine ⟨⟨h.ids, h.blocks, h.idsShort, h.blocksShort⟩, ?_⟩
      rw [view, view, toolMemoryTouch_withMaps]
      rfl

/-! ## Runs -/

/-- The id and the text of a call fit a node of the trees. -/
def CallFits : ToolMemoryCall → Prop
  | .put id dsml _ _ _ => id.length ≤ raxNodeMaxSize ∧ dsml.length ≤ raxNodeMaxSize
  | _ => True

theorem call_view (h : Kept t) (hs : Heap.Sound (view t)) (c : ToolMemoryCall) (hc : CallFits c) :
    Does (call t c) (Heap.call (view t) c) := by
  cases c with
  | put id dsml source e b =>
    obtain ⟨m, ⟨ps, bs, chain, R⟩, -, -⟩ := hs
    exact toolMemoryPut_view h (fun id p hp => ((R.byId id p).mp hp).2) hc.1 hc.2 source e b
  | lookup id =>
    obtain ⟨hk, hv⟩ := toolMemoryLookup_view h id
    exact ⟨_, rfl, hk, congrArg Prod.fst hv⟩
  | prune => exact toolMemoryPrune_view h
  | removeEntry e => exact toolMemoryRemoveEntry_view h e

theorem run_view (h : Kept t) (hs : Heap.Sound (view t)) (calls : List ToolMemoryCall)
    (hcalls : Guarded Heap.call Heap.Callable (view t) calls) (hfits : ∀ c ∈ calls, CallFits c) :
    ∃ t', calls.foldlM call t = some t' ∧ Kept t' ∧ Heap.Sound (view t') ∧
      view t' = calls.foldl Heap.call (view t) := by
  induction calls generalizing t with
  | nil => exact ⟨t, rfl, h, hs, rfl⟩
  | cons c calls ih =>
    obtain ⟨t₁, hcall, hk, hv⟩ := call_view h hs c (hfits c List.mem_cons_self)
    have hs₁ : Heap.Sound (view t₁) := hv ▸ Heap.sound_call (view t) c hs hcalls.1
    obtain ⟨t', hrun, hk', hs', hv'⟩ := ih hk hs₁ (hv ▸ hcalls.2)
      fun d hd => hfits d (List.mem_cons_of_mem c hd)
    refine ⟨t', ?_, hk', hs', ?_⟩
    · rw [List.foldlM_cons, hcall]
      exact hrun
    · rw [hv', List.foldl_cons, hv]

/-- The end of the memory: every entry is removed. -/
theorem toolMemoryFreeLoop_spec (fuel : Nat) (h : Kept t) (hs : Heap.Sound (view t))
    (hfuel : t.heap.entries ≤ fuel) :
    ∃ t', toolMemoryFreeLoop fuel t = some t' ∧ Kept t' := by
  induction fuel generalizing t with
  | zero =>
    obtain ⟨m, ⟨ps, bs, chain, R⟩, hm, -⟩ := hs
    have hlen : t.heap.entries = ps.length := R.length_eq hm.toWf
    have hnil : ps = [] := List.length_eq_zero_iff.mp (by omega)
    have htail : t.heap.links.tail = none := by
      have htail := R.links.tail
      rwa [hnil] at htail
    exact ⟨t, by rw [toolMemoryFreeLoop, if_pos htail], h⟩
  | succ fuel ih =>
    rw [toolMemoryFreeLoop]
    cases htail : t.heap.links.tail with
    | none => exact ⟨t, rfl, h⟩
    | some p =>
      obtain ⟨t₁, hremove, hk, hv⟩ := toolMemoryRemoveEntry_view h p
      obtain ⟨m, ⟨ps, bs, chain, R⟩, hm, hst⟩ := hs
      have hlast : ps.getLast? = some p := R.links.tail.symm.trans htail
      have hp := List.mem_of_getLast? hlast
      have hs₁ : Heap.Sound (view t₁) := hv ▸ Heap.sound_call (view t) (.removeEntry p)
        ⟨m, ⟨ps, bs, chain, R⟩, hm, hst⟩ ((R.entryUsed p).mpr hp)
      have hin : Heap.entryView (view t) p ∈ m.list := by
        rw [R.list]
        exact List.mem_map_of_mem hp
      obtain ⟨bs', chain', R'⟩ := R.removeEntry hm.toWf hp
      have hlen : (Heap.toolMemoryRemoveEntry (view t) p).entries = (ps.erase p).length :=
        R'.length_eq (toolMemoryRemoveEntry_wf hm.toWf hin)
      have hless : t₁.heap.entries ≤ fuel := by
        have hcount : t.heap.entries = ps.length := R.length_eq hm.toWf
        have herase := List.length_erase_of_mem hp
        have hpos := List.length_pos_of_mem hp
        rw [← hv] at hlen
        have hsame : t₁.heap.entries = (ps.erase p).length := hlen
        omega
      simp only [hremove, Option.bind_eq_bind, Option.bind_some]
      exact ih hk hs₁ hless

theorem toolMemoryFree_ok (h : Kept t) (hs : Heap.Sound (view t)) :
    toolMemoryFree t = some () := by
  obtain ⟨t', hloop, hk⟩ := toolMemoryFreeLoop_spec t.heap.entries h hs (Nat.le_refl _)
  rw [toolMemoryFree, hloop]
  simp only [Option.bind_eq_bind, Option.bind_some, raxFree_ok hk.ids, raxFree_ok hk.blocks]

/-- The tree of ids counts the entries. -/
theorem byId_numele (h : Kept t) (hs : Heap.Sound (view t)) :
    t.byId.numele = t.heap.entries := by
  classical
  obtain ⟨m, ⟨ps, bs, chain, R⟩, hm, -⟩ := hs
  have hlen : t.heap.entries = ps.length := R.length_eq hm.toWf
  have hnodup : (ps.map (view t).entryId).Nodup :=
    R.links.nodup.map_on fun p hp q hq hid => R.id_inj hp hq hid
  have hset : {k | (raxFind t.byId k).isSome} = ↑(ps.map (view t).entryId).toFinset := by
    ext id
    rw [Set.mem_ofPred_eq, Option.isSome_iff_exists, List.coe_toFinset, Set.mem_ofPred_eq,
      List.mem_map]
    exact exists_congr fun p => R.byId id p
  rw [numele_eq h.ids, hset, Set.ncard_coe_finset, List.toFinset_card_of_nodup hnodup,
    List.length_map, hlen]

end Operations

/-- Every run of calls whose ids and texts fit a node gives up nowhere, does to the trees what it
does to the maps, and leaves trees that are freed to the last node. -/
theorem toolTrees_run (maxEntries maxBytes : Nat) {calls : List ToolMemoryCall}
    (hcalls : Guarded Heap.call Heap.Callable
      ({ maxEntries := maxEntries, maxBytes := maxBytes } : ToolHeap) calls)
    (hfits : ∀ c ∈ calls, CallFits c) :
    ∃ t, calls.foldlM call (toolMemoryInit maxEntries maxBytes) = some t ∧
      view t = calls.foldl Heap.call { maxEntries := maxEntries, maxBytes := maxBytes } ∧
      (∀ id, (toolMemoryLookup t id).2 = (Heap.toolMemoryLookup (view t) id).2) ∧
      t.byId.numele = t.heap.entries ∧ toolMemoryFree t = some () := by
  have hinit : view (toolMemoryInit maxEntries maxBytes) =
      { maxEntries := maxEntries, maxBytes := maxBytes } := by
    rw [view, toolMemoryInit, raxNew_map]
    rfl
  have hkept : Kept (toolMemoryInit maxEntries maxBytes) :=
    ⟨raxNew_ok, raxNew_ok, by simp [Short, toolMemoryInit, raxNew_find],
      by simp [Short, toolMemoryInit, raxNew_find]⟩
  have hsound : Heap.Sound (view (toolMemoryInit maxEntries maxBytes)) :=
    Heap.sound_empty _ ⟨maxEntries, maxBytes, hinit⟩
  obtain ⟨t, hrun, hk, hs, hv⟩ := run_view hkept hsound calls (hinit ▸ hcalls) hfits
  exact ⟨t, hrun, hinit ▸ hv, fun id => congrArg Prod.snd (toolMemoryLookup_view hk id).2,
    byId_numele hk hs, toolMemoryFree_ok hk hs⟩

theorem toolTrees_run_eviction :
    ∃ t, Heap.evictionRun.foldlM call (toolMemoryInit 1 0) = some t ∧
      view t = Heap.evictionRun.foldl Heap.call { maxEntries := 1, maxBytes := 0 } ∧
      (∀ id, (toolMemoryLookup t id).2 = (Heap.toolMemoryLookup (view t) id).2) ∧
      t.byId.numele = t.heap.entries ∧ toolMemoryFree t = some () :=
  toolTrees_run 1 0 ⟨by decide, by decide, trivial, by decide, trivial, trivial⟩
    (by simp [Heap.evictionRun, CallFits, raxNodeMaxSize])

end Sf37.Server.Trees

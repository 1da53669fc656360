/-
Sf37.Server.ToolMemory — the memory of generated tool blocks: which call id was
generated in which block text.

An entry points at the block it was generated in; here it names the block's text,
which `by_block` finds the block by. `list` is the doubly linked list from `head`
to `tail`, the most recently used entry first, and `by_id` finds in it. A block
keeps its entries in a chain, the newest first.

* `ToolMemory.Wf`: what every operation keeps: ids and texts are unique, a block's
  chain is its entries, the counters are right and within their limits.
* `toolMemoryPut_wf`, `toolMemoryLookup_wf`, `toolMemoryRemember_wf`.
* `toolMemoryPruneLoop_spec`, `toolMemoryPruneLoop_keeps`: pruning drops from the tail
  and stops at entries that fit.
-/
import Sf37.Server.ParseGenerated
import Sf37.Store.Keyed
import Mathlib.Algebra.Order.BigOperators.Group.List
import Mathlib.Algebra.Order.Group.Nat
import Mathlib.Algebra.GroupWithZero.Nat

namespace Sf37.Server

open Sf37.Text Sf37.Store

/-! ## Data -/

/-- `tool_memory_source`. -/
inductive ToolMemorySource where
  | ram | disk
  deriving DecidableEq, Repr

/-- `tool_memory_entry`; `dsml` is the text of its block. -/
structure ToolMemoryEntry where
  id : Bytes
  dsml : Bytes
  stamp : Nat
  source : ToolMemorySource
  deriving DecidableEq, Repr

/-- `tool_memory_block`; `entries` is the chain along `block_next`, by ids. -/
structure ToolMemoryBlock where
  dsml : Bytes
  refs : Nat := 0
  seen : Nat := 0
  entries : List Bytes := []
  deriving DecidableEq, Repr

/-- `tool_memory`. -/
structure ToolMemory where
  list : List ToolMemoryEntry := []
  blocks : List ToolMemoryBlock := []
  entries : Nat := 0
  maxEntries : Nat := 0
  bytes : Nat := 0
  maxBytes : Nat := 0
  clock : Nat := 0
  scanClock : Nat := 0
  deriving DecidableEq, Repr

/-- `sizeof(tool_memory_entry)`. -/
def sizeofEntry : Nat := 64

/-- `sizeof(tool_memory_block)`. -/
def sizeofBlock : Nat := 48

/-- What an entry is charged. -/
def ToolMemoryEntry.bytes (e : ToolMemoryEntry) : Nat := e.id.length + 1 + sizeofEntry

/-- What a block is charged. -/
def ToolMemoryBlock.bytes (b : ToolMemoryBlock) : Nat := b.dsml.length + 1 + sizeofBlock

/-- `SF37_TOOL_MEMORY_DEFAULT_MAX_IDS`. -/
def toolMemoryDefaultMaxIds : Nat := 100000

/-- `SF37_TOOL_MEMORY_MAX_BYTES`. -/
def toolMemoryDefaultMaxBytes : Nat := 512 * 1024 * 1024

/-- `tool_memory_max_entries`. -/
def toolMemoryMaxEntries (m : ToolMemory) : Nat :=
  if 0 < m.maxEntries then m.maxEntries else toolMemoryDefaultMaxIds

/-- `tool_memory_max_bytes`. -/
def toolMemoryMaxBytes (m : ToolMemory) : Nat :=
  if 0 < m.maxBytes then m.maxBytes else toolMemoryDefaultMaxBytes

/-! ## Operations -/

/-- `tool_memory_find_entry_locked`. -/
def toolMemoryFindEntry (m : ToolMemory) (id : Bytes) : Option ToolMemoryEntry :=
  if id = [] then none else lookup (·.id) id m.list

/-- `tool_memory_find_block_locked`. -/
def toolMemoryFindBlock (m : ToolMemory) (dsml : Bytes) : Option ToolMemoryBlock :=
  if dsml = [] then none else lookup (·.dsml) dsml m.blocks

/-- `tool_memory_touch`: stamp the entry and move it to the head. -/
def toolMemoryTouch (m : ToolMemory) (e : ToolMemoryEntry) : ToolMemory :=
  { m with
    clock := m.clock + 1
    list := { e with stamp := m.clock + 1 } :: remove (·.id) e.id m.list }

/-- `tool_memory_get_block_locked`. -/
def toolMemoryGetBlock (m : ToolMemory) (dsml : Bytes) : ToolMemory :=
  match toolMemoryFindBlock m dsml with
  | some _ => m
  | none =>
      let b : ToolMemoryBlock := { dsml := dsml }
      { m with blocks := b :: m.blocks, bytes := m.bytes + b.bytes }

/-- `tool_block_unlink_entry`. -/
def toolBlockUnlinkEntry (b : ToolMemoryBlock) (id : Bytes) : ToolMemoryBlock :=
  { b with entries := b.entries.erase id }

/-- `tool_memory_release_block_locked`. -/
def toolMemoryReleaseBlock (m : ToolMemory) (b : ToolMemoryBlock) : ToolMemory :=
  if 0 < b.refs - 1 then
    { m with blocks := update (·.dsml) b.dsml (fun b => { b with refs := b.refs - 1 }) m.blocks }
  else { m with blocks := remove (·.dsml) b.dsml m.blocks, bytes := m.bytes - b.bytes }

/-- `tool_memory_remove_entry_locked`; the counters stop at zero. -/
def toolMemoryRemoveEntry (m : ToolMemory) (e : ToolMemoryEntry) : ToolMemory :=
  let m := { m with
    list := remove (·.id) e.id m.list
    blocks := update (·.dsml) e.dsml (toolBlockUnlinkEntry · e.id) m.blocks
    bytes := m.bytes - e.bytes
    entries := m.entries - 1 }
  match lookup (·.dsml) e.dsml m.blocks with
  | some b => toolMemoryReleaseBlock m b
  | none => m

/-- The test of `tool_memory_prune_locked`. -/
def toolMemoryOver (m : ToolMemory) : Prop :=
  toolMemoryMaxEntries m < m.entries ∨ toolMemoryMaxBytes m < m.bytes

instance (m : ToolMemory) : Decidable (toolMemoryOver m) :=
  inferInstanceAs (Decidable (_ ∨ _))

def toolMemoryPruneLoop : Nat → ToolMemory → ToolMemory
  | 0, m => m
  | fuel + 1, m =>
      if toolMemoryOver m then
        match m.list.getLast? with
        | some tail => toolMemoryPruneLoop fuel (toolMemoryRemoveEntry m tail)
        | none => m
      else m

/-- `tool_memory_prune_locked`. -/
def toolMemoryPrune (m : ToolMemory) : ToolMemory := toolMemoryPruneLoop m.list.length m

/-- `tool_memory_put_locked` from the new entry on. -/
def toolMemoryInsert (m : ToolMemory) (id dsml : Bytes) (source : ToolMemorySource) : ToolMemory :=
  let m := toolMemoryGetBlock m dsml
  let e : ToolMemoryEntry := { id := id, dsml := dsml, stamp := m.clock + 1, source := source }
  { m with
    clock := m.clock + 1
    blocks := update (·.dsml) dsml
      (fun b => { b with entries := id :: b.entries, refs := b.refs + 1 }) m.blocks
    list := e :: m.list
    entries := m.entries + 1
    bytes := m.bytes + e.bytes }

/-- `tool_memory_put_locked`. -/
def toolMemoryPut (m : ToolMemory) (id dsml : Bytes) (source : ToolMemorySource) : ToolMemory :=
  if id = [] ∨ dsml = [] then m
  else
    match toolMemoryFindEntry m id with
    | some old =>
        if old.dsml = dsml then
          let old := if source = .ram then { old with source := .ram } else old
          toolMemoryPrune (toolMemoryTouch m old)
        else toolMemoryPrune (toolMemoryInsert (toolMemoryRemoveEntry m old) id dsml source)
    | none => toolMemoryPrune (toolMemoryInsert m id dsml source)

/-- `tool_memory_lookup_locked`: the entry found is touched. -/
def toolMemoryLookup (m : ToolMemory) (id : Bytes) : ToolMemory × Option ToolMemoryEntry :=
  match toolMemoryFindEntry m id with
  | some e => (toolMemoryTouch m e, some e)
  | none => (m, none)

/-- The part of `server_state` tool replay uses. -/
structure ReplayState where
  toolMem : ToolMemory := {}
  disableExactDsmlToolReplay : Bool := false
  deriving DecidableEq, Repr

/-- `tool_memory_put_source`. -/
def toolMemoryPutSource (s : ReplayState) (id dsml : Bytes) (source : ToolMemorySource) :
    ReplayState :=
  if s.disableExactDsmlToolReplay then s
  else { s with toolMem := toolMemoryPut s.toolMem id dsml source }

/-- `tool_memory_remember`. -/
def toolMemoryRemember (s : ReplayState) (calls : ToolCalls) : ReplayState :=
  match calls.rawDsml with
  | none => s
  | some raw =>
      if s.disableExactDsmlToolReplay ∨ raw = [] then s
      else
        { s with
          toolMem := calls.v.foldl (fun m c => toolMemoryPut m c.id raw .ram) s.toolMem }

/-- `tool_memory_has_id`. -/
def toolMemoryHasId (s : ReplayState) (id : Bytes) : Bool :=
  !s.disableExactDsmlToolReplay && (toolMemoryFindEntry s.toolMem id).isSome

/-! ## The invariant -/

/-- The call ids with their texts, from the head on. -/
def ToolMemory.pairs (m : ToolMemory) : List (Bytes × Bytes) := m.list.map fun e => (e.id, e.dsml)

/-- What an entry with this id is charged. -/
def entryBytes (id : Bytes) : Nat := id.length + 1 + sizeofEntry

/-- The list and the blocks belong together. Nothing here depends on the order of
the list. -/
structure ToolMemory.Linked (m : ToolMemory) : Prop where
  ids : (m.pairs.map Prod.fst).Nodup
  texts : Unique (·.dsml) m.blocks
  chain : ∀ b ∈ m.blocks, b.entries.Perm ((m.pairs.filter (·.2 = b.dsml)).map Prod.fst)
  refs : ∀ b ∈ m.blocks, b.refs = b.entries.length
  held : ∀ q ∈ m.pairs, ∃ b ∈ m.blocks, b.dsml = q.2
  named : ∀ q ∈ m.pairs, q.1 ≠ [] ∧ q.2 ≠ []
  entries : m.entries = m.pairs.length
  bytes : m.bytes = (m.pairs.map (entryBytes ·.1)).sum + (m.blocks.map (·.bytes)).sum
  seen : ∀ b ∈ m.blocks, b.seen ≤ m.scanClock

/-- Everything the memory keeps besides its limits: a block stays while an entry
points at it. -/
structure ToolMemory.Wf (m : ToolMemory) : Prop extends m.Linked where
  used : ∀ b ∈ m.blocks, b.entries ≠ []

theorem ToolMemory.Wf.unique {m : ToolMemory} (h : m.Wf) : Unique (·.id) m.list := by
  have := h.ids
  rwa [ToolMemory.pairs, List.map_map] at this

theorem ToolMemory.mem_pairs {m : ToolMemory} {q : Bytes × Bytes} :
    q ∈ m.pairs ↔ ∃ e ∈ m.list, e.id = q.1 ∧ e.dsml = q.2 := by
  simp [ToolMemory.pairs, Prod.ext_iff]

/-- The order of the list does not matter. -/
theorem ToolMemory.Wf.perm {m m' : ToolMemory} (h : m.Wf) (hp : m'.pairs.Perm m.pairs)
    (hb : m'.blocks = m.blocks) (he : m'.entries = m.entries) (hy : m'.bytes = m.bytes)
    (hs : m.scanClock ≤ m'.scanClock) : m'.Wf where
  ids := (hp.map Prod.fst).nodup_iff.mpr h.ids
  texts := hb ▸ h.texts
  chain b hbm := (h.chain b (hb ▸ hbm)).trans ((hp.symm.filter _).map _)
  refs b hbm := h.refs b (hb ▸ hbm)
  used b hbm := h.used b (hb ▸ hbm)
  held q hq := hb ▸ h.held q (hp.mem_iff.mp hq)
  named q hq := h.named q (hp.mem_iff.mp hq)
  entries := by rw [he, h.entries, hp.length_eq]
  bytes := by rw [hy, h.bytes, hb, (hp.map (entryBytes ·.1)).sum_nat]
  seen b hbm := Nat.le_trans (h.seen b (hb ▸ hbm)) hs

theorem toolMemoryFindEntry_eq_some {m : ToolMemory} (h : m.Wf) {id : Bytes}
    {e : ToolMemoryEntry} (hf : toolMemoryFindEntry m id = some e) : e ∈ m.list ∧ e.id = id := by
  rw [toolMemoryFindEntry] at hf
  split at hf
  · cases hf
  · exact (lookup_eq_some_iff h.unique).mp hf

/-- Touching an entry, with whatever source. -/
theorem toolMemoryTouch_pairs {m : ToolMemory} (h : m.Wf) {old e : ToolMemoryEntry}
    (hold : old ∈ m.list) (hid : e.id = old.id) (hdsml : e.dsml = old.dsml) :
    (toolMemoryTouch m e).pairs.Perm m.pairs := by
  have hp := (perm_cons_remove h.unique hold).map fun e => (e.id, e.dsml)
  rw [List.map_cons, ← hid, ← hdsml] at hp
  exact hp.symm

theorem toolMemoryTouch_wf {m : ToolMemory} (h : m.Wf) {old e : ToolMemoryEntry}
    (hold : old ∈ m.list) (hid : e.id = old.id) (hdsml : e.dsml = old.dsml) :
    (toolMemoryTouch m e).Wf :=
  h.perm (toolMemoryTouch_pairs h hold hid hdsml) rfl rfl rfl (Nat.le_refl _)

/-! ## Removing an entry -/

/-- An entry's block, as the chains have it. -/
theorem ToolMemory.Wf.block_of {m : ToolMemory} (h : m.Wf) {q : Bytes × Bytes} (hq : q ∈ m.pairs) :
    ∃ b ∈ m.blocks, b.dsml = q.2 ∧ q.1 ∈ b.entries := by
  obtain ⟨b, hb, hd⟩ := h.held q hq
  refine ⟨b, hb, hd, (h.chain b hb).mem_iff.mpr (List.mem_map.mpr ⟨q, ?_, rfl⟩)⟩
  exact List.mem_filter.mpr ⟨hq, by simpa using hd.symm⟩

/-- A removal in one piece: the block goes with its last entry. -/
theorem toolMemoryRemoveEntry_eq {m : ToolMemory} (h : m.Wf) {e : ToolMemoryEntry}
    {b : ToolMemoryBlock} (hb : b ∈ m.blocks) (hd : b.dsml = e.dsml) :
    toolMemoryRemoveEntry m e =
      if 1 < b.refs then
        { m with
          list := remove (·.id) e.id m.list
          entries := m.entries - 1
          bytes := m.bytes - e.bytes
          blocks := update (·.dsml) e.dsml
            (fun b => { b with entries := b.entries.erase e.id, refs := b.refs - 1 }) m.blocks }
      else
        { m with
          list := remove (·.id) e.id m.list
          entries := m.entries - 1
          bytes := m.bytes - e.bytes - b.bytes
          blocks := remove (·.dsml) e.dsml m.blocks } := by
  have hkey : ∀ b : ToolMemoryBlock, (toolBlockUnlinkEntry b e.id).dsml = b.dsml := fun _ => rfl
  have hlook : lookup (·.dsml) e.dsml m.blocks = some b :=
    (lookup_eq_some_iff h.texts).mpr ⟨hb, hd⟩
  have hdsml : (toolBlockUnlinkEntry b e.id).dsml = e.dsml := hd
  simp only [toolMemoryRemoveEntry, lookup_update hkey, hlook, Option.map_some,
    toolMemoryReleaseBlock, hdsml, update_update hkey, remove_update hkey]
  have hrefs : 0 < (toolBlockUnlinkEntry b e.id).refs - 1 ↔ 1 < b.refs := Nat.sub_pos_iff_lt
  by_cases hmore : 1 < b.refs
  · rw [if_pos hmore, if_pos (hrefs.mpr hmore)]
    rfl
  · rw [if_neg hmore, if_neg (mt hrefs.mp hmore)]
    rfl

theorem toolMemoryRemoveEntry_list (m : ToolMemory) (e : ToolMemoryEntry) :
    (toolMemoryRemoveEntry m e).list = remove (·.id) e.id m.list := by
  simp only [toolMemoryRemoveEntry]
  split
  · rw [toolMemoryReleaseBlock]
    split <;> rfl
  · rfl

/-- The other settings are not touched. -/
theorem toolMemoryRemoveEntry_limits (m : ToolMemory) (e : ToolMemoryEntry) :
    (toolMemoryRemoveEntry m e).maxEntries = m.maxEntries ∧
      (toolMemoryRemoveEntry m e).maxBytes = m.maxBytes := by
  simp only [toolMemoryRemoveEntry]
  split
  · rw [toolMemoryReleaseBlock]
    split <;> exact ⟨rfl, rfl⟩
  · exact ⟨rfl, rfl⟩

/-- The memory without one of its pairs: what the pairs left say of the blocks. -/
structure ToolMemory.Without (m : ToolMemory) (q : Bytes × Bytes) (rest : List (Bytes × Bytes)) :
    Prop where
  ids : (rest.map Prod.fst).Nodup
  sub : ∀ r ∈ rest, r ∈ m.pairs
  length : m.pairs.length = rest.length + 1
  bytes : (m.pairs.map (entryBytes ·.1)).sum =
    entryBytes q.1 + (rest.map (entryBytes ·.1)).sum
  own : ∀ b ∈ m.blocks, b.dsml = q.2 → q.1 ∈ b.entries ∧
    (b.entries.erase q.1).Perm ((rest.filter (·.2 = b.dsml)).map Prod.fst)
  others : ∀ b ∈ m.blocks, b.dsml ≠ q.2 →
    b.entries.Perm ((rest.filter (·.2 = b.dsml)).map Prod.fst)

theorem ToolMemory.Wf.without {m : ToolMemory} (h : m.Wf) {q : Bytes × Bytes}
    {rest : List (Bytes × Bytes)} (hp : m.pairs.Perm (q :: rest)) : m.Without q rest where
  ids := (List.nodup_cons.mp ((hp.map Prod.fst).nodup_iff.mp h.ids)).2
  sub r hr := hp.mem_iff.mpr (List.mem_cons_of_mem q hr)
  length := hp.length_eq
  bytes := (hp.map (entryBytes ·.1)).sum_nat
  own b hb hd := by
    have hc := (h.chain b hb).trans ((hp.filter _).map _)
    rw [List.filter_cons_of_pos (by simp [hd]), List.map_cons] at hc
    exact ⟨hc.mem_iff.mpr (by simp), by simpa using hc.erase q.1⟩
  others b hb hd := by
    have hc := (h.chain b hb).trans ((hp.filter _).map _)
    rwa [List.filter_cons_of_neg (by simpa using fun hk => hd hk.symm)] at hc

/-- Removing an entry that is not the last of its block. -/
theorem ToolMemory.Wf.unlink {m m' : ToolMemory} (h : m.Wf) {e : ToolMemoryEntry}
    (w : m.Without (e.id, e.dsml) m'.pairs) {b : ToolMemoryBlock} (hb : b ∈ m.blocks)
    (hd : b.dsml = e.dsml) (hrefs : 1 < b.refs) (hentries : m'.entries = m.entries - 1)
    (hbytes : m'.bytes = m.bytes - e.bytes) (hclock : m'.scanClock = m.scanClock)
    (hblocks : m'.blocks = update (·.dsml) e.dsml
      (fun b => { b with entries := b.entries.erase e.id, refs := b.refs - 1 }) m.blocks) :
    m'.Wf := by
  obtain ⟨hin, hown⟩ := w.own b hb hd
  have hlen := List.length_erase_of_mem hin
  have hbrefs := h.refs b hb
  have hcases : ∀ c ∈ m'.blocks,
      c = { b with entries := b.entries.erase e.id, refs := b.refs - 1 } ∨
      (c ∈ m.blocks ∧ c.dsml ≠ e.dsml) := by
    intro c hc
    rw [hblocks] at hc
    rcases mem_update.mp hc with ⟨x, hx, hk, rfl⟩ | hc
    · obtain rfl := h.texts.eq hx hb (hk.trans hd.symm)
      exact Or.inl rfl
    · exact Or.inr hc
  refine ⟨⟨w.ids, hblocks ▸ h.texts.update fun _ => rfl, fun c hc => ?_, fun c hc => ?_,
    fun q hq => ?_, fun q hq => h.named q (w.sub q hq), ?_, ?_, fun c hc => ?_⟩, fun c hc => ?_⟩
  · rcases hcases c hc with rfl | ⟨hcm, hne⟩
    · exact hown
    · exact w.others c hcm hne
  · rcases hcases c hc with rfl | ⟨hcm, -⟩
    · dsimp only at hlen ⊢
      rw [hlen, hbrefs]
    · exact h.refs c hcm
  · obtain ⟨c, hc, hcd⟩ := h.held q (w.sub q hq)
    rw [hblocks]
    by_cases hk : c.dsml = e.dsml
    · exact ⟨_, mem_update.mpr (Or.inl ⟨c, hc, hk, rfl⟩), hcd⟩
    · exact ⟨c, mem_update.mpr (Or.inr ⟨hc, hk⟩), hcd⟩
  · rw [hentries, h.entries, w.length]
    rfl
  · have hsum : (m'.blocks.map (·.bytes)).sum = (m.blocks.map (·.bytes)).sum := by
      rw [hblocks]
      exact congrArg List.sum (map_update fun _ => rfl)
    rw [hbytes, h.bytes, w.bytes, hsum, Nat.add_assoc]
    exact Nat.add_sub_cancel_left (entryBytes e.id) _
  · rw [hclock]
    rcases hcases c hc with rfl | ⟨hcm, -⟩
    · exact h.seen b hb
    · exact h.seen c hcm
  · rcases hcases c hc with rfl | ⟨hcm, -⟩
    · intro hnil
      dsimp only at hnil hlen
      rw [hnil, List.length_nil] at hlen
      omega
    · exact h.used c hcm

/-- Removing the last entry of a block with the block. -/
theorem ToolMemory.Wf.release {m m' : ToolMemory} (h : m.Wf) {e : ToolMemoryEntry}
    (w : m.Without (e.id, e.dsml) m'.pairs) {b : ToolMemoryBlock} (hb : b ∈ m.blocks)
    (hd : b.dsml = e.dsml) (hrefs : ¬ 1 < b.refs) (hentries : m'.entries = m.entries - 1)
    (hbytes : m'.bytes = m.bytes - e.bytes - b.bytes) (hclock : m'.scanClock = m.scanClock)
    (hblocks : m'.blocks = remove (·.dsml) e.dsml m.blocks) : m'.Wf := by
  obtain ⟨hin, hown⟩ := w.own b hb hd
  have hcases : ∀ c ∈ m'.blocks, c ∈ m.blocks ∧ c.dsml ≠ e.dsml := by
    intro c hc
    rw [hblocks] at hc
    exact mem_remove.mp hc
  -- no pair left points at the block
  have hgone : ∀ q ∈ m'.pairs, q.2 ≠ e.dsml := by
    intro q hq hk
    have hlen := List.length_erase_of_mem hin
    have hmem : q.1 ∈ b.entries.erase e.id :=
      hown.mem_iff.mpr (List.mem_map.mpr ⟨q, List.mem_filter.mpr ⟨hq, by simp [hk, hd]⟩, rfl⟩)
    have := List.length_pos_of_mem hmem
    have := h.refs b hb
    dsimp only at hlen
    omega
  refine ⟨⟨w.ids, hblocks ▸ h.texts.remove, fun c hc => ?_,
    fun c hc => h.refs c (hcases c hc).1, fun q hq => ?_, fun q hq => h.named q (w.sub q hq),
    ?_, ?_, fun c hc => hclock ▸ h.seen c (hcases c hc).1⟩,
    fun c hc => h.used c (hcases c hc).1⟩
  · exact w.others c (hcases c hc).1 (hcases c hc).2
  · obtain ⟨c, hc, hcd⟩ := h.held q (w.sub q hq)
    rw [hblocks]
    exact ⟨c, mem_remove.mpr ⟨hc, hcd ▸ hgone q hq⟩, hcd⟩
  · rw [hentries, h.entries, w.length]
    rfl
  · have hsum := ((perm_cons_remove h.texts hb).map (·.bytes)).sum_nat
    rw [List.map_cons, List.sum_cons, hd] at hsum
    have hcharge : entryBytes e.id = e.bytes := rfl
    rw [hbytes, h.bytes, w.bytes, hblocks, hsum, hcharge]
    omega

theorem toolMemoryRemoveEntry_wf {m : ToolMemory} (h : m.Wf) {e : ToolMemoryEntry}
    (he : e ∈ m.list) : (toolMemoryRemoveEntry m e).Wf := by
  have hp : m.pairs.Perm ((e.id, e.dsml) :: (toolMemoryRemoveEntry m e).pairs) := by
    rw [ToolMemory.pairs, ToolMemory.pairs, toolMemoryRemoveEntry_list]
    exact (perm_cons_remove h.unique he).map fun e => (e.id, e.dsml)
  have w := h.without hp
  obtain ⟨b, hb, hd⟩ := h.held (e.id, e.dsml) (hp.mem_iff.mpr (by simp))
  have heq := toolMemoryRemoveEntry_eq h hb hd
  by_cases hrefs : 1 < b.refs
  · rw [if_pos hrefs] at heq
    rw [heq] at w ⊢
    exact h.unlink w hb hd hrefs rfl rfl rfl rfl
  · rw [if_neg hrefs] at heq
    rw [heq] at w ⊢
    exact h.release w hb hd hrefs rfl rfl rfl rfl

/-! ## A new entry -/

/-- The block for a text is there, and nothing else has changed. -/
theorem toolMemoryGetBlock_linked {m : ToolMemory} (h : m.Wf) {dsml : Bytes} (hne : dsml ≠ []) :
    (toolMemoryGetBlock m dsml).Linked ∧ (toolMemoryGetBlock m dsml).pairs = m.pairs ∧
      (∃ b ∈ (toolMemoryGetBlock m dsml).blocks, b.dsml = dsml) ∧
      ∀ b ∈ (toolMemoryGetBlock m dsml).blocks, b.dsml ≠ dsml → b.entries ≠ [] := by
  rw [toolMemoryGetBlock]
  cases hf : toolMemoryFindBlock m dsml with
  | some b =>
    rw [toolMemoryFindBlock, if_neg hne] at hf
    exact ⟨h.toLinked, rfl, ⟨b, (lookup_eq_some_iff h.texts).mp hf⟩, fun c hc _ => h.used c hc⟩
  | none =>
    rw [toolMemoryFindBlock, if_neg hne] at hf
    have hnew := lookup_eq_none_iff.mp hf
    refine ⟨⟨h.ids, ?_, fun b hb => ?_, fun b hb => ?_, fun q hq => ?_, h.named, h.entries, ?_,
      fun b hb => ?_⟩, rfl, ⟨_, List.mem_cons_self, rfl⟩, fun b hb hd => ?_⟩
    · refine List.nodup_cons.mpr ⟨fun hmem => ?_, h.texts⟩
      obtain ⟨b, hb, hd⟩ := List.mem_map.mp hmem
      exact hnew b hb hd
    · rcases List.mem_cons.mp hb with rfl | hb
      · -- no pair has a text without a block
        have hnone : m.pairs.filter (·.2 = dsml) = [] := by
          refine List.filter_eq_nil_iff.mpr fun q hq hk => ?_
          obtain ⟨c, hc, hcd⟩ := h.held q hq
          exact hnew c hc (hcd.trans (by simpa using hk))
        exact hnone ▸ List.Perm.refl []
      · exact h.chain b hb
    · rcases List.mem_cons.mp hb with rfl | hb
      · rfl
      · exact h.refs b hb
    · obtain ⟨c, hc, hcd⟩ := h.held q hq
      exact ⟨c, List.mem_cons_of_mem _ hc, hcd⟩
    · dsimp only
      rw [List.map_cons, List.sum_cons, h.bytes]
      exact (Nat.add_assoc _ _ _).trans (congrArg _ (Nat.add_comm _ _))
    · rcases List.mem_cons.mp hb with rfl | hb
      · exact Nat.zero_le _
      · exact h.seen b hb
    · rcases List.mem_cons.mp hb with rfl | hb
      · exact absurd rfl hd
      · exact h.used b hb

theorem toolMemoryInsert_pairs {m : ToolMemory} (h : m.Wf) (id : Bytes) {dsml : Bytes}
    (hne : dsml ≠ []) (source : ToolMemorySource) :
    (toolMemoryInsert m id dsml source).pairs = (id, dsml) :: m.pairs := by
  have hp := (toolMemoryGetBlock_linked h hne).2.1
  exact congrArg ((id, dsml) :: ·) hp

theorem toolMemoryInsert_wf {m : ToolMemory} (h : m.Wf) {id dsml : Bytes}
    (hnew : id ∉ m.pairs.map Prod.fst) (hid : id ≠ []) (hne : dsml ≠ [])
    (source : ToolMemorySource) : (toolMemoryInsert m id dsml source).Wf := by
  have hpairs := toolMemoryInsert_pairs h id hne source
  obtain ⟨hl, hp, hhere, hused⟩ := toolMemoryGetBlock_linked h hne
  obtain ⟨g, hg⟩ : ∃ g, g = toolMemoryGetBlock m dsml := ⟨_, rfl⟩
  rw [← hg] at hl hp hhere hused
  obtain ⟨m', hm'⟩ : ∃ m', m' = toolMemoryInsert m id dsml source := ⟨_, rfl⟩
  rw [← hm'] at hpairs ⊢
  have hblocks : m'.blocks = update (·.dsml) dsml
      (fun b => { b with entries := id :: b.entries, refs := b.refs + 1 }) g.blocks := by
    rw [hm', hg]
    rfl
  have hbytes : m'.bytes = g.bytes + entryBytes id := by
    rw [hm', hg]
    rfl
  have hcases : ∀ c ∈ m'.blocks,
      (∃ b ∈ g.blocks, b.dsml = dsml ∧
        c = { b with entries := id :: b.entries, refs := b.refs + 1 }) ∨
      (c ∈ g.blocks ∧ c.dsml ≠ dsml) := by
    intro c hc
    rw [hblocks] at hc
    exact mem_update.mp hc
  refine ⟨⟨?_, hblocks ▸ hl.texts.update fun _ => rfl, fun c hc => ?_, fun c hc => ?_,
    fun q hq => ?_, fun q hq => ?_, ?_, ?_, fun c hc => ?_⟩, fun c hc => ?_⟩
  · rw [hpairs]
    exact List.nodup_cons.mpr ⟨hnew, h.ids⟩
  · rw [hpairs, ← hp]
    rcases hcases c hc with ⟨b, hb, hd, rfl⟩ | ⟨hcm, hcd⟩
    · rw [List.filter_cons_of_pos (by simp [hd]), List.map_cons]
      exact (hl.chain b hb).cons id
    · rw [List.filter_cons_of_neg (by simpa using fun hk => hcd hk.symm)]
      exact hl.chain c hcm
  · rcases hcases c hc with ⟨b, hb, -, rfl⟩ | ⟨hcm, -⟩
    · exact congrArg (· + 1) (hl.refs b hb)
    · exact hl.refs c hcm
  · rw [hblocks]
    have hin : ∃ b ∈ g.blocks, b.dsml = q.2 := by
      rw [hpairs] at hq
      rcases List.mem_cons.mp hq with rfl | hq
      · exact hhere
      · exact hl.held q (hp ▸ hq)
    obtain ⟨b, hb, hd⟩ := hin
    by_cases hk : b.dsml = dsml
    · exact ⟨_, mem_update.mpr (Or.inl ⟨b, hb, hk, rfl⟩), hd⟩
    · exact ⟨b, mem_update.mpr (Or.inr ⟨hb, hk⟩), hd⟩
  · rw [hpairs] at hq
    rcases List.mem_cons.mp hq with rfl | hq
    · exact ⟨hid, hne⟩
    · exact h.named q hq
  · have : m'.entries = g.entries + 1 := by
      rw [hm', hg]
      rfl
    rw [this, hl.entries, hpairs, hp]
    rfl
  · have hsum : (m'.blocks.map (·.bytes)).sum = (g.blocks.map (·.bytes)).sum := by
      rw [hblocks]
      exact congrArg List.sum (map_update fun _ => rfl)
    rw [hbytes, hl.bytes, hsum, hpairs, hp, List.map_cons, List.sum_cons]
    dsimp only
    omega
  · have : m'.scanClock = g.scanClock := by
      rw [hm', hg]
      rfl
    rw [this]
    rcases hcases c hc with ⟨b, hb, -, rfl⟩ | ⟨hcm, -⟩
    · exact hl.seen b hb
    · exact hl.seen c hcm
  · rcases hcases c hc with ⟨b, -, -, rfl⟩ | ⟨hcm, hcd⟩
    · exact List.cons_ne_nil _ _
    · exact hused c hcm hcd

/-! ## Pruning -/

/-- Two memories with the same settings have the same limits. -/
def ToolMemory.SameLimits (m m' : ToolMemory) : Prop :=
  m'.maxEntries = m.maxEntries ∧ m'.maxBytes = m.maxBytes

theorem ToolMemory.SameLimits.eq {m m' : ToolMemory} (h : m.SameLimits m') :
    toolMemoryMaxEntries m' = toolMemoryMaxEntries m ∧
      toolMemoryMaxBytes m' = toolMemoryMaxBytes m := by
  rw [toolMemoryMaxEntries, toolMemoryMaxEntries, toolMemoryMaxBytes, toolMemoryMaxBytes, h.1, h.2]
  exact ⟨rfl, rfl⟩

/-- An empty memory is within its limits. -/
theorem ToolMemory.Wf.not_over_of_nil {m : ToolMemory} (h : m.Wf) (hnil : m.list = []) :
    ¬ toolMemoryOver m := by
  have hpairs : m.pairs = [] := by rw [ToolMemory.pairs, hnil, List.map_nil]
  have hblocks : m.blocks = [] := by
    refine List.eq_nil_iff_forall_not_mem.mpr fun b hb => h.used b hb ?_
    have := h.chain b hb
    rw [hpairs] at this
    exact this.eq_nil
  have hentries := h.entries
  have hbytes := h.bytes
  rw [hpairs] at hentries hbytes
  rw [hblocks] at hbytes
  rw [toolMemoryOver, hentries, hbytes]
  simp

/-- The tail goes, everything before it stays. -/
theorem toolMemoryRemoveEntry_tail {m : ToolMemory} (h : m.Wf) {e : ToolMemoryEntry}
    (he : m.list.getLast? = some e) :
    (toolMemoryRemoveEntry m e).pairs = m.pairs.dropLast := by
  rw [ToolMemory.pairs, ToolMemory.pairs, toolMemoryRemoveEntry_list, remove_getLast h.unique he,
    List.map_dropLast]

theorem toolMemoryPruneLoop_spec : ∀ (fuel : Nat) {m : ToolMemory}, m.Wf →
    m.list.length ≤ fuel →
    (toolMemoryPruneLoop fuel m).Wf ∧ ¬ toolMemoryOver (toolMemoryPruneLoop fuel m) ∧
      m.SameLimits (toolMemoryPruneLoop fuel m) ∧
      (toolMemoryPruneLoop fuel m).pairs <+: m.pairs := by
  intro fuel
  induction fuel with
  | zero =>
    intro m h hlen
    have hnil : m.list = [] := List.length_eq_zero_iff.mp (Nat.le_zero.mp hlen)
    exact ⟨h, h.not_over_of_nil hnil, ⟨rfl, rfl⟩, List.prefix_refl _⟩
  | succ fuel ih =>
    intro m h hlen
    rw [toolMemoryPruneLoop]
    by_cases hover : toolMemoryOver m
    · rw [if_pos hover]
      cases he : m.list.getLast? with
      | none =>
        have hnil : m.list = [] := List.getLast?_eq_none_iff.mp he
        exact absurd hover (h.not_over_of_nil hnil)
      | some e =>
        have hmem : e ∈ m.list := List.mem_of_getLast? he
        have hshort : (toolMemoryRemoveEntry m e).list.length ≤ fuel := by
          rw [toolMemoryRemoveEntry_list]
          have := length_remove_lt (fun x : ToolMemoryEntry => x.id) hmem
          omega
        obtain ⟨hwf, hin, hlim, hpre⟩ := ih (toolMemoryRemoveEntry_wf h hmem) hshort
        have hstep := toolMemoryRemoveEntry_limits m e
        refine ⟨hwf, hin, ⟨hlim.1.trans hstep.1, hlim.2.trans hstep.2⟩, hpre.trans ?_⟩
        rw [toolMemoryRemoveEntry_tail h he]
        exact List.dropLast_prefix _
    · rw [if_neg hover]
      exact ⟨h, hover, ⟨rfl, rfl⟩, List.prefix_refl _⟩

/-- A group of entries of one text at the head fits into the limits by itself. -/
def FitsLimits (m : ToolMemory) (ids : List Bytes) (dsml : Bytes) : Prop :=
  ids.length ≤ toolMemoryMaxEntries m ∧
    (ids.map entryBytes).sum + (dsml.length + 1 + sizeofBlock) ≤ toolMemoryMaxBytes m

/-- With entries of one text only there is one block. -/
theorem ToolMemory.Wf.bytes_of_one {m : ToolMemory} (h : m.Wf) {ids : List Bytes} {dsml : Bytes}
    (hne : ids ≠ []) (hp : m.pairs = ids.map (·, dsml)) :
    m.bytes = (ids.map entryBytes).sum + (dsml.length + 1 + sizeofBlock) := by
  have hall : ∀ b ∈ m.blocks, b.dsml = dsml := by
    intro b hb
    obtain ⟨id, hid⟩ := List.exists_mem_of_ne_nil _ (h.used b hb)
    obtain ⟨q, hq, -⟩ := List.mem_map.mp ((h.chain b hb).mem_iff.mp hid)
    rw [hp, List.mem_filter] at hq
    obtain ⟨⟨_, -, rfl⟩, hd⟩ := And.imp_left List.mem_map.mp hq
    simpa using Eq.symm (of_decide_eq_true hd)
  obtain ⟨id, hid⟩ := List.exists_mem_of_ne_nil _ hne
  obtain ⟨b, hb, hd⟩ := h.held (id, dsml) (hp ▸ List.mem_map_of_mem hid)
  have hperm := perm_cons_remove h.texts hb
  have hrest : remove (·.dsml) b.dsml m.blocks = [] := by
    refine List.eq_nil_iff_forall_not_mem.mpr fun c hc => ?_
    obtain ⟨hcm, hcd⟩ := mem_remove.mp hc
    exact hcd ((hall c hcm).trans hd.symm)
  rw [hrest] at hperm
  rw [h.bytes, (hperm.map (·.bytes)).sum_nat, hp, List.map_map]
  simp only [List.map_cons, List.map_nil, List.sum_cons, List.sum_nil, Nat.add_zero,
    ToolMemoryBlock.bytes, hd]
  rfl

/-- Pruning stops at a group that fits. -/
theorem toolMemoryPruneLoop_keeps {ids : List Bytes} {dsml : Bytes} (hne : ids ≠ []) :
    ∀ (fuel : Nat) {m : ToolMemory}, m.Wf → FitsLimits m ids dsml →
    ids.map (·, dsml) <+: m.pairs →
    ids.map (·, dsml) <+: (toolMemoryPruneLoop fuel m).pairs := by
  intro fuel
  induction fuel with
  | zero => intro m _ _ hp; exact hp
  | succ fuel ih =>
    intro m h hfits hp
    rw [toolMemoryPruneLoop]
    by_cases hover : toolMemoryOver m
    · rw [if_pos hover]
      cases he : m.list.getLast? with
      | none => exact hp
      | some e =>
        obtain ⟨rest, hrest⟩ := hp
        -- something is left behind the group, or the memory were not over its limits
        have hrne : rest ≠ [] := by
          rintro rfl
          rw [List.append_nil] at hrest
          have hbytes := h.bytes_of_one hne hrest.symm
          have hentries := h.entries
          rw [← hrest, List.length_map] at hentries
          rcases hover with ho | ho
          · exact absurd hfits.1 (by omega)
          · exact absurd hfits.2 (by omega)
        refine ih (toolMemoryRemoveEntry_wf h (List.mem_of_getLast? he)) ?_ ?_
        · have hl := ToolMemory.SameLimits.eq (toolMemoryRemoveEntry_limits m e)
          rw [FitsLimits, hl.1, hl.2]
          exact hfits
        · rw [toolMemoryRemoveEntry_tail h he, ← hrest, List.dropLast_append_of_ne_nil hrne]
          exact List.prefix_append _ _
    · rw [if_neg hover]
      exact hp

/-! ## `tool_memory_put_locked` -/

/-- The pairs that are not under an id. -/
def otherPairs (id : Bytes) (ps : List (Bytes × Bytes)) : List (Bytes × Bytes) :=
  ps.filter (·.1 ≠ id)

theorem pairs_remove (m : ToolMemory) (id : Bytes) :
    (remove (·.id) id m.list).map (fun e => (e.id, e.dsml)) = otherPairs id m.pairs := by
  rw [remove, otherPairs, ToolMemory.pairs, List.filter_map]
  rfl

theorem mem_otherPairs {id : Bytes} {ps : List (Bytes × Bytes)} {q : Bytes × Bytes} :
    q ∈ otherPairs id ps ↔ q ∈ ps ∧ q.1 ≠ id := by simp [otherPairs]

/-- A put without its pruning: the pair comes to the head, in place of what stood
under its id. -/
theorem toolMemoryPut_eq {m : ToolMemory} (h : m.Wf) {id dsml : Bytes} (hid : id ≠ [])
    (hne : dsml ≠ []) (source : ToolMemorySource) :
    ∃ m', toolMemoryPut m id dsml source = toolMemoryPrune m' ∧ m'.Wf ∧ m.SameLimits m' ∧
      m'.pairs = (id, dsml) :: otherPairs id m.pairs := by
  have hinsert : ∀ m₁ : ToolMemory, m₁.Wf → m.SameLimits m₁ →
      m₁.pairs = otherPairs id m.pairs →
      (toolMemoryInsert m₁ id dsml source).Wf ∧ m.SameLimits (toolMemoryInsert m₁ id dsml source) ∧
        (toolMemoryInsert m₁ id dsml source).pairs = (id, dsml) :: otherPairs id m.pairs := by
    intro m₁ h₁ hl hp
    have hnew : id ∉ m₁.pairs.map Prod.fst := by
      rw [hp]
      intro hmem
      obtain ⟨q, hq, hk⟩ := List.mem_map.mp hmem
      exact (mem_otherPairs.mp hq).2 hk
    refine ⟨toolMemoryInsert_wf h₁ hnew hid hne source, ?_, ?_⟩
    · rw [toolMemoryInsert, toolMemoryGetBlock]
      cases toolMemoryFindBlock m₁ dsml <;> exact hl
    · rw [toolMemoryInsert_pairs h₁ id hne, hp]
  rw [toolMemoryPut, if_neg (by simp [hid, hne])]
  cases hf : toolMemoryFindEntry m id with
  | none =>
    rw [toolMemoryFindEntry, if_neg hid] at hf
    have hnone := lookup_eq_none_iff.mp hf
    refine ⟨_, rfl, hinsert m h ⟨rfl, rfl⟩ ?_⟩
    refine (List.filter_eq_self.mpr fun q hq => ?_).symm
    obtain ⟨e, he, hk, -⟩ := ToolMemory.mem_pairs.mp hq
    simpa using fun hq1 => hnone e he (hk.trans hq1)
  | some old =>
    obtain ⟨hold, hoid⟩ := toolMemoryFindEntry_eq_some h hf
    by_cases hd : old.dsml = dsml
    · have htouch : ∀ e : ToolMemoryEntry, e.id = old.id → e.dsml = old.dsml →
          (toolMemoryTouch m e).Wf ∧ m.SameLimits (toolMemoryTouch m e) ∧
            (toolMemoryTouch m e).pairs = (id, dsml) :: otherPairs id m.pairs := by
        intro e heid hed
        refine ⟨toolMemoryTouch_wf h hold heid hed, ⟨rfl, rfl⟩, ?_⟩
        have := pairs_remove m e.id
        rw [toolMemoryTouch, ToolMemory.pairs, List.map_cons, this, heid, hed, hoid, hd]
      refine ⟨_, if_pos hd, ?_⟩
      split
      · exact htouch _ rfl rfl
      · exact htouch _ rfl rfl
    · refine ⟨_, if_neg hd, hinsert _ (toolMemoryRemoveEntry_wf h hold)
        (toolMemoryRemoveEntry_limits m old) ?_⟩
      rw [ToolMemory.pairs, toolMemoryRemoveEntry_list, pairs_remove, hoid]

/-- A memory that keeps its invariant and its limits. -/
structure ToolMemory.Ok (m : ToolMemory) : Prop extends m.Wf where
  within : ¬ toolMemoryOver m

/-- What a put does: nothing, or the pair comes to the head and pairs drop off the
tail. -/
theorem toolMemoryPut_spec {m : ToolMemory} (h : m.Ok) (id dsml : Bytes)
    (source : ToolMemorySource) :
    (toolMemoryPut m id dsml source).Ok ∧ m.SameLimits (toolMemoryPut m id dsml source) ∧
      (id = [] ∨ dsml = [] → toolMemoryPut m id dsml source = m) ∧
      (id ≠ [] → dsml ≠ [] →
        (toolMemoryPut m id dsml source).pairs <+: (id, dsml) :: otherPairs id m.pairs) := by
  by_cases hskip : id = [] ∨ dsml = []
  · have heq : toolMemoryPut m id dsml source = m := by rw [toolMemoryPut, if_pos hskip]
    rw [heq]
    refine ⟨h, ⟨rfl, rfl⟩, fun _ => rfl, fun hid hne => ?_⟩
    rcases hskip with hs | hs
    · exact absurd hs hid
    · exact absurd hs hne
  · obtain ⟨hid, hne⟩ := not_or.mp hskip
    obtain ⟨m', heq, hwf, hlim, hp⟩ := toolMemoryPut_eq h.toWf hid hne source
    obtain ⟨hpwf, hin, hplim, hpre⟩ := toolMemoryPruneLoop_spec m'.list.length hwf (Nat.le_refl _)
    rw [heq, ← hp]
    exact ⟨⟨hpwf, hin⟩, ⟨hplim.1.trans hlim.1, hplim.2.trans hlim.2⟩,
      fun hs => absurd hs hskip, fun _ _ => hpre⟩

/-- A put keeps the group of its text at the head when the group with it fits. -/
theorem toolMemoryPut_keeps {m : ToolMemory} (h : m.Ok) {id dsml : Bytes} (hid : id ≠ [])
    (hne : dsml ≠ []) (source : ToolMemorySource) {ids : List Bytes} (hnew : id ∉ ids)
    (hfits : FitsLimits m (id :: ids) dsml) (hp : ids.map (·, dsml) <+: m.pairs) :
    (id :: ids).map (·, dsml) <+: (toolMemoryPut m id dsml source).pairs := by
  obtain ⟨m', heq, hwf, hlim, hpairs⟩ := toolMemoryPut_eq h.toWf hid hne source
  rw [heq]
  refine toolMemoryPruneLoop_keeps (List.cons_ne_nil _ _) _ hwf ?_ ?_
  · rw [FitsLimits, hlim.eq.1, hlim.eq.2]
    exact hfits
  · obtain ⟨rest, hrest⟩ := hp
    rw [hpairs, ← hrest, otherPairs, List.filter_append, List.map_cons]
    refine List.cons_prefix_cons.mpr ⟨rfl, ?_⟩
    rw [List.filter_eq_self.mpr]
    · exact List.prefix_append _ _
    · intro q hq
      obtain ⟨i, hi, rfl⟩ := List.mem_map.mp hq
      simpa using fun hk : i = id => hnew (hk ▸ hi)

/-! ## Looking up and remembering -/

theorem toolMemoryTouch_ok {m : ToolMemory} (h : m.Ok) {e : ToolMemoryEntry}
    (he : e ∈ m.list) : (toolMemoryTouch m e).Ok :=
  ⟨toolMemoryTouch_wf h.toWf he rfl rfl, h.within⟩

/-- A look-up finds the text under the id and only moves the entry. -/
theorem toolMemoryLookup_spec {m : ToolMemory} (h : m.Ok) (id : Bytes) :
    (toolMemoryLookup m id).1.Ok ∧ m.SameLimits (toolMemoryLookup m id).1 ∧
      (toolMemoryLookup m id).1.pairs.Perm m.pairs ∧
      ∀ e, (toolMemoryLookup m id).2 = some e → e.id = id ∧ (id, e.dsml) ∈ m.pairs := by
  rw [toolMemoryLookup]
  cases hf : toolMemoryFindEntry m id with
  | none => exact ⟨h, ⟨rfl, rfl⟩, List.Perm.refl _, fun e he => by cases he⟩
  | some e =>
    obtain ⟨he, hid⟩ := toolMemoryFindEntry_eq_some h.toWf hf
    refine ⟨toolMemoryTouch_ok h he, ⟨rfl, rfl⟩,
      toolMemoryTouch_pairs h.toWf he rfl rfl, fun e' he' => ?_⟩
    obtain rfl : e = e' := by simpa using he'
    exact ⟨hid, ToolMemory.mem_pairs.mpr ⟨e, he, hid, rfl⟩⟩

/-- The loop of `tool_memory_remember`. -/
def rememberLoop (raw : Bytes) (m : ToolMemory) (ids : List Bytes) : ToolMemory :=
  ids.foldl (fun m id => toolMemoryPut m id raw .ram) m

theorem toolMemoryRemember_eq {s : ReplayState} {calls : ToolCalls} {raw : Bytes}
    (hraw : calls.rawDsml = some raw) (hne : raw ≠ [])
    (hon : s.disableExactDsmlToolReplay = false) :
    toolMemoryRemember s calls =
      { s with toolMem := rememberLoop raw s.toolMem (calls.v.map (·.id)) } := by
  simp only [toolMemoryRemember, hraw, hon, hne, rememberLoop, List.foldl_map]
  simp

theorem rememberLoop_spec (raw : Bytes) : ∀ (ids : List Bytes) {m : ToolMemory}, m.Ok →
    (rememberLoop raw m ids).Ok ∧ m.SameLimits (rememberLoop raw m ids) ∧
      ∀ q ∈ (rememberLoop raw m ids).pairs, q ∈ m.pairs ∨ (q.1 ∈ ids ∧ q.2 = raw) := by
  intro ids
  induction ids with
  | nil => intro m h; exact ⟨h, ⟨rfl, rfl⟩, fun q hq => Or.inl hq⟩
  | cons id ids ih =>
    intro m h
    obtain ⟨hok, hlim, hskip, hpre⟩ := toolMemoryPut_spec h id raw .ram
    obtain ⟨hok', hlim', hmem⟩ := ih hok
    refine ⟨hok', ⟨hlim'.1.trans hlim.1, hlim'.2.trans hlim.2⟩, fun q hq => ?_⟩
    rcases hmem q hq with hq | ⟨hq, hd⟩
    · by_cases hs : id = [] ∨ raw = []
      · rw [hskip hs] at hq
        exact Or.inl hq
      · obtain ⟨hid, hne⟩ := not_or.mp hs
        rcases List.mem_cons.mp ((hpre hid hne).subset hq) with rfl | hq
        · exact Or.inr ⟨List.mem_cons_self, rfl⟩
        · exact Or.inl (mem_otherPairs.mp hq).1
    · exact Or.inr ⟨List.mem_cons_of_mem _ hq, hd⟩

theorem FitsLimits.sublist {m : ToolMemory} {ids ids' : List Bytes} {dsml : Bytes}
    (h : FitsLimits m ids dsml) (hs : ids'.Sublist ids) : FitsLimits m ids' dsml :=
  ⟨Nat.le_trans hs.length_le h.1,
    Nat.le_trans (Nat.add_le_add_right ((hs.map entryBytes).sum_le_sum fun _ _ => Nat.zero_le _) _) h.2⟩

/-- Remembering a group that fits keeps all of it, the last first. -/
theorem rememberLoop_keeps {raw : Bytes} (hne : raw ≠ []) : ∀ (ids done : List Bytes)
    {m : ToolMemory}, m.Ok → (∀ id ∈ ids, id ≠ []) → (ids.reverse ++ done).Nodup →
    FitsLimits m (ids.reverse ++ done) raw → done.map (·, raw) <+: m.pairs →
    (ids.reverse ++ done).map (·, raw) <+: (rememberLoop raw m ids).pairs := by
  intro ids
  induction ids with
  | nil => intro done m _ _ _ _ hp; exact hp
  | cons id ids ih =>
    intro done m h hids hnd hfits hp
    rw [List.reverse_cons, List.append_assoc] at hnd hfits ⊢
    obtain ⟨hok, hlim, -, -⟩ := toolMemoryPut_spec h id raw .ram
    have hnew : id ∉ done := by
      have := (List.nodup_append.mp hnd).2.1
      exact (List.nodup_cons.mp this).1
    refine ih (id :: done) hok (fun i hi => hids i (List.mem_cons_of_mem id hi)) hnd ?_ ?_
    · rw [FitsLimits, hlim.eq.1, hlim.eq.2]
      exact hfits
    · exact toolMemoryPut_keeps h (hids id List.mem_cons_self) hne .ram hnew
        (hfits.sublist (List.sublist_append_right _ _)) hp

/-- After remembering, all the ids are under the text exactly when the group
fits. -/
theorem rememberLoop_all_iff {m : ToolMemory} (h : m.Ok) {raw : Bytes} (hne : raw ≠ [])
    {ids : List Bytes} (hsome : ids ≠ []) (hids : ∀ id ∈ ids, id ≠ []) (hnd : ids.Nodup) :
    (∀ id ∈ ids, (id, raw) ∈ (rememberLoop raw m ids).pairs) ↔ FitsLimits m ids raw := by
  obtain ⟨hok, hlim, -⟩ := rememberLoop_spec raw ids h
  constructor
  · intro hall
    have hsub : (ids.map (·, raw)).Subperm (rememberLoop raw m ids).pairs := by
      refine List.subperm_of_subset (hnd.map fun a b hab => (Prod.ext_iff.mp hab).1) ?_
      intro q hq
      obtain ⟨id, hid, rfl⟩ := List.mem_map.mp hq
      exact hall id hid
    obtain ⟨l, hl, hls⟩ := hsub
    obtain ⟨id, hid⟩ := List.exists_mem_of_ne_nil _ hsome
    obtain ⟨b, hb, hd⟩ := hok.held _ (hall id hid)
    have hblock := ((perm_cons_remove hok.texts hb).map (·.bytes)).sum_nat
    have hentries := hok.entries
    have hbytes := hok.bytes
    have hin := hok.within
    have hlen := hl.length_eq
    have hsum := (hl.map (entryBytes ·.1)).sum_nat
    have hle := hls.length_le
    have hsle := (hls.map (entryBytes ·.1)).sum_le_sum fun _ _ => Nat.zero_le _
    have hcharge : b.bytes = raw.length + 1 + sizeofBlock := by rw [ToolMemoryBlock.bytes, hd]
    rw [toolMemoryOver, hlim.eq.1, hlim.eq.2] at hin
    rw [List.map_map] at hsum
    rw [List.length_map] at hlen
    rw [List.map_cons, List.sum_cons] at hblock
    have hids : (ids.map ((fun q : Bytes × Bytes => entryBytes q.1) ∘ fun x => (x, raw))).sum =
      (ids.map entryBytes).sum := rfl
    constructor
    · omega
    · omega
  · intro hfits id hid
    have hrev : FitsLimits m (ids.reverse ++ []) raw := by
      rw [List.append_nil]
      refine ⟨by rw [List.length_reverse]; exact hfits.1, ?_⟩
      rw [((List.reverse_perm ids).map entryBytes).sum_nat]
      exact hfits.2
    have hkeep := rememberLoop_keeps hne ids [] h hids (by simpa using hnd) hrev
      (List.nil_prefix)
    exact hkeep.subset (List.mem_map_of_mem (by simpa using hid))

end Sf37.Server

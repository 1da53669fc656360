/-
Sf37.Server.ToolMemoryHeap — the memory of tool blocks as the records, links and trees
it is made of, and which lists of `ToolMemory` they stand for.

A field of the records is a map from addresses; which addresses are allocated is a map
of its own, and `xmalloc` gives an address that is not. The two radix trees are finite
maps. `guardFired` records that one of the guards against an underflow of the counters
had to step in.

* `Rep`: which lists the records stand for.
* `Rep.findEntry`, `Rep.findBlock`: the trees find what the lists hold.
* `Rep.touch`: an entry touched comes to the head of the list.
-/
import Sf37.Server.ToolMemory
import Sf37.Store.Linked

namespace Sf37.Server.Heap

open Sf37.Text Sf37.Store

/-- Where a record stands. -/
abbrev Addr := Nat

/-- `tool_memory`, with the fields of its entries and blocks by address. -/
structure ToolHeap where
  byId : Bytes → Option Addr := fun _ => none
  byBlock : Bytes → Option Addr := fun _ => none
  links : Links Addr := {}
  entryUsed : Addr → Bool := fun _ => false
  entryId : Addr → Bytes := fun _ => []
  entryBlock : Addr → Option Addr := fun _ => none
  entryBytes : Addr → Nat := fun _ => 0
  entryStamp : Addr → Nat := fun _ => 0
  entrySource : Addr → ToolMemorySource := fun _ => .ram
  blockNext : Addr → Option Addr := fun _ => none
  blockUsed : Addr → Bool := fun _ => false
  blockDsml : Addr → Bytes := fun _ => []
  blockBytes : Addr → Nat := fun _ => 0
  blockRefs : Addr → Nat := fun _ => 0
  blockSeen : Addr → Nat := fun _ => 0
  blockEntries : Addr → Option Addr := fun _ => none
  entries : Nat := 0
  maxEntries : Nat := 0
  bytes : Nat := 0
  maxBytes : Nat := 0
  clock : Nat := 0
  guardFired : Bool := false

open Function (update)

/-! ## Operations -/

/-- `tool_memory_link_head`. -/
def toolMemoryLinkHead (h : ToolHeap) (e : Addr) : ToolHeap :=
  { h with links := h.links.linkHead e }

/-- `tool_memory_unlink`. -/
def toolMemoryUnlink (h : ToolHeap) (e : Addr) : ToolHeap :=
  { h with links := h.links.unlink e }

/-- `tool_memory_touch`. -/
def toolMemoryTouch (h : ToolHeap) (e : Addr) : ToolHeap :=
  let h := { h with
    clock := h.clock + 1
    entryStamp := update h.entryStamp e (h.clock + 1) }
  if h.links.head = some e then h
  else toolMemoryLinkHead (toolMemoryUnlink h e) e

/-- `b->entries` with the links between the entries of the blocks. -/
def chainOf (h : ToolHeap) (b : Addr) : Chain Addr where
  first := h.blockEntries b
  next := h.blockNext

/-- `tool_block_unlink_entry`; no chain is longer than the memory has entries. -/
def toolBlockUnlinkEntry (h : ToolHeap) (b e : Addr) : ToolHeap :=
  let c := Chain.unlinkFrom e (h.entries + 1) none (chainOf h b)
  { h with blockEntries := update h.blockEntries b c.first, blockNext := c.next }

/-- `tool_memory_find_block_locked`. -/
def toolMemoryFindBlock (h : ToolHeap) (dsml : Bytes) : Option Addr :=
  if dsml = [] then none else h.byBlock dsml

/-- `tool_memory_get_block_locked`; `new` is what `xmalloc` would give. -/
def toolMemoryGetBlock (h : ToolHeap) (dsml : Bytes) (new : Addr) : ToolHeap × Addr :=
  match toolMemoryFindBlock h dsml with
  | some b => (h, b)
  | none =>
      ({ h with
        blockUsed := update h.blockUsed new true
        blockDsml := update h.blockDsml new dsml
        blockBytes := update h.blockBytes new (dsml.length + 1 + sizeofBlock)
        blockRefs := update h.blockRefs new 0
        blockSeen := update h.blockSeen new 0
        blockEntries := update h.blockEntries new none
        byBlock := update h.byBlock dsml (some new)
        bytes := h.bytes + (dsml.length + 1 + sizeofBlock) }, new)

/-- `if (m->bytes >= n) m->bytes -= n; else m->bytes = 0;` -/
def chargeOff (h : ToolHeap) (n : Nat) : ToolHeap :=
  if n ≤ h.bytes then { h with bytes := h.bytes - n }
  else { h with bytes := 0, guardFired := true }

/-- `if (m->entries > 0) m->entries--;` -/
def countOff (h : ToolHeap) : ToolHeap :=
  if 0 < h.entries then { h with entries := h.entries - 1 } else { h with guardFired := true }

/-- `tool_memory_release_block_locked`. -/
def toolMemoryReleaseBlock (h : ToolHeap) (b : Addr) : ToolHeap :=
  let h := { h with blockRefs := update h.blockRefs b (h.blockRefs b - 1) }
  if 0 < h.blockRefs b then h
  else
    let h := chargeOff { h with byBlock := update h.byBlock (h.blockDsml b) none } (h.blockBytes b)
    { h with blockUsed := update h.blockUsed b false }

/-- `tool_memory_remove_entry_locked` up to the release of the block. -/
def toolMemoryDetachEntry (h : ToolHeap) (e : Addr) : ToolHeap :=
  let h := toolMemoryUnlink { h with byId := update h.byId (h.entryId e) none } e
  let h := match h.entryBlock e with
    | some b => toolBlockUnlinkEntry h b e
    | none => h
  let h := countOff (chargeOff h (h.entryBytes e))
  { h with entryUsed := update h.entryUsed e false }

/-- `tool_memory_remove_entry_locked`. -/
def toolMemoryRemoveEntry (h : ToolHeap) (e : Addr) : ToolHeap :=
  match h.entryBlock e with
  | some b => toolMemoryReleaseBlock (toolMemoryDetachEntry h e) b
  | none => toolMemoryDetachEntry h e

/-- `tool_memory_max_entries`. -/
def toolMemoryMaxEntries (h : ToolHeap) : Nat :=
  if 0 < h.maxEntries then h.maxEntries else toolMemoryDefaultMaxIds

/-- `tool_memory_max_bytes`. -/
def toolMemoryMaxBytes (h : ToolHeap) : Nat :=
  if 0 < h.maxBytes then h.maxBytes else toolMemoryDefaultMaxBytes

/-- The loop of `tool_memory_prune_locked`. -/
def toolMemoryPruneLoop : Nat → ToolHeap → ToolHeap
  | 0, h => h
  | fuel + 1, h =>
      if toolMemoryMaxEntries h < h.entries ∨ toolMemoryMaxBytes h < h.bytes then
        match h.links.tail with
        | some tail => toolMemoryPruneLoop fuel (toolMemoryRemoveEntry h tail)
        | none => h
      else h

/-- `tool_memory_prune_locked`. -/
def toolMemoryPrune (h : ToolHeap) : ToolHeap := toolMemoryPruneLoop h.entries h

/-- `tool_memory_find_entry_locked`. -/
def toolMemoryFindEntry (h : ToolHeap) (id : Bytes) : Option Addr :=
  if id = [] then none else h.byId id

/-- `tool_memory_put_locked` from the new entry on, up to the pruning; `newEntry` and
`newBlock` are what `xmalloc` would give. -/
def toolMemoryInsert (h : ToolHeap) (id dsml : Bytes) (source : ToolMemorySource)
    (newEntry newBlock : Addr) : ToolHeap :=
  let (h, b) := toolMemoryGetBlock h dsml newBlock
  let e := newEntry
  let h := { h with
    entryUsed := update h.entryUsed e true
    entryId := update h.entryId e id
    entryBlock := update h.entryBlock e (some b)
    entryBytes := update h.entryBytes e (id.length + 1 + sizeofEntry)
    entryStamp := update h.entryStamp e (h.clock + 1)
    clock := h.clock + 1
    entrySource := update h.entrySource e source
    blockNext := update h.blockNext e (h.blockEntries b)
    blockEntries := update h.blockEntries b (some e)
    blockRefs := update h.blockRefs b (h.blockRefs b + 1)
    byId := update h.byId id (some e) }
  let h := toolMemoryLinkHead h e
  { h with entries := h.entries + 1, bytes := h.bytes + h.entryBytes e }

/-- `tool_memory_put_locked`. -/
def toolMemoryPut (h : ToolHeap) (id dsml : Bytes) (source : ToolMemorySource)
    (newEntry newBlock : Addr) : ToolHeap :=
  if id = [] ∨ dsml = [] then h
  else
    match toolMemoryFindEntry h id with
    | some old =>
        if (h.entryBlock old).any (fun b => decide (h.blockDsml b = dsml)) then
          let h := if source = .ram then
            { h with entrySource := update h.entrySource old .ram } else h
          toolMemoryPrune (toolMemoryTouch h old)
        else
          toolMemoryPrune
            (toolMemoryInsert (toolMemoryRemoveEntry h old) id dsml source newEntry newBlock)
    | none => toolMemoryPrune (toolMemoryInsert h id dsml source newEntry newBlock)

/-- `tool_memory_lookup_locked`: the text under an id, with its source and its block. -/
def toolMemoryLookup (h : ToolHeap) (id : Bytes) :
    ToolHeap × Option (Bytes × ToolMemorySource × Addr) :=
  match toolMemoryFindEntry h id with
  | none => (h, none)
  | some e =>
      match h.entryBlock e with
      | none => (h, none)
      | some b => (toolMemoryTouch h e, some (h.blockDsml b, h.entrySource e, b))

/-! ## The lists that the records stand for -/

/-- The text of an entry's block. -/
def textOf (h : ToolHeap) (p : Addr) : Bytes := ((h.entryBlock p).map h.blockDsml).getD []

/-- An entry, as it stands in the list. -/
def entryView (h : ToolHeap) (p : Addr) : ToolMemoryEntry where
  id := h.entryId p
  dsml := textOf h p
  stamp := h.entryStamp p
  source := h.entrySource p

/-- A block, with the entries of its chain. -/
def blockView (h : ToolHeap) (chain : Addr → List Addr) (b : Addr) : ToolMemoryBlock where
  dsml := h.blockDsml b
  refs := h.blockRefs b
  seen := h.blockSeen b
  entries := (chain b).map h.entryId

/-- The records stand for this memory: `ps` are the entries from head to tail, `bs` the
blocks, and `chain` the entries of each block. -/
structure Rep (h : ToolHeap) (m : ToolMemory) (ps bs : List Addr) (chain : Addr → List Addr) :
    Prop where
  links : h.links.Holds ps
  list : m.list = ps.map (entryView h)
  entryUsed : ∀ p, h.entryUsed p = true ↔ p ∈ ps
  byId : ∀ id p, h.byId id = some p ↔ p ∈ ps ∧ h.entryId p = id
  inBlock : ∀ p ∈ ps, ∃ b ∈ bs, h.entryBlock p = some b
  entryBytes : ∀ p ∈ ps, h.entryBytes p = entryBytes (h.entryId p)
  blocksNodup : bs.Nodup
  blocks : m.blocks = bs.map (blockView h chain)
  blockUsed : ∀ b, h.blockUsed b = true ↔ b ∈ bs
  byBlock : ∀ d b, h.byBlock d = some b ↔ b ∈ bs ∧ h.blockDsml b = d
  blockBytes : ∀ b ∈ bs, h.blockBytes b = (h.blockDsml b).length + 1 + sizeofBlock
  chains : ∀ b ∈ bs, (chainOf h b).Holds (chain b)
  mem_chain : ∀ b ∈ bs, ∀ p, p ∈ chain b ↔ p ∈ ps ∧ h.entryBlock p = some b
  entries : h.entries = m.entries
  maxEntries : h.maxEntries = m.maxEntries
  bytes : h.bytes = m.bytes
  maxBytes : h.maxBytes = m.maxBytes
  clock : h.clock = m.clock
  guards : h.guardFired = false

/-- The records stand for this memory. -/
def Represents (h : ToolHeap) (m : ToolMemory) : Prop := ∃ ps bs chain, Rep h m ps bs chain

section Rep

variable {h : ToolHeap} {m : ToolMemory} {ps bs : List Addr} {chain : Addr → List Addr}

/-- Different entries have different ids. -/
theorem Rep.id_inj (R : Rep h m ps bs chain) {p q : Addr} (hp : p ∈ ps) (hq : q ∈ ps)
    (hid : h.entryId p = h.entryId q) : p = q :=
  Indexes.inj R.byId hp hq hid

/-- Different blocks have different texts. -/
theorem Rep.dsml_inj (R : Rep h m ps bs chain) {b c : Addr} (hb : b ∈ bs) (hc : c ∈ bs)
    (hd : h.blockDsml b = h.blockDsml c) : b = c :=
  Indexes.inj R.byBlock hb hc hd

/-- A change of one block on the lists is a change of its record. -/
theorem Rep.update_blocks (R : Rep h m ps bs chain) {b : Addr} (hb : b ∈ bs) {h' : ToolHeap}
    {chain' : Addr → List Addr} {f : ToolMemoryBlock → ToolMemoryBlock}
    (hself : f (blockView h chain b) = blockView h' chain' b)
    (hother : ∀ c ∈ bs, c ≠ b → blockView h chain c = blockView h' chain' c) :
    Store.update (·.dsml) (h.blockDsml b) f m.blocks = bs.map (blockView h' chain') := by
  rw [R.blocks, Store.update, List.map_map]
  refine List.map_congr_left fun c hc => ?_
  dsimp only [Function.comp]
  by_cases hk : c = b
  · subst hk
    rw [if_pos (show (blockView h chain c).dsml = h.blockDsml c from rfl), hself]
  · have hne : (blockView h chain c).dsml ≠ h.blockDsml b := fun hd => hk (R.dsml_inj hc hb hd)
    rw [if_neg hne, hother c hc hk]

theorem textOf_eq {p b : Addr} (hb : h.entryBlock p = some b) : textOf h p = h.blockDsml b := by
  simp [textOf, hb]

theorem Rep.block_mem (R : Rep h m ps bs chain) {p b : Addr} (hp : p ∈ ps)
    (hb : h.entryBlock p = some b) : b ∈ bs := by
  obtain ⟨c, hc, hcb⟩ := R.inBlock p hp
  obtain rfl : b = c := Option.some.inj (hb.symm.trans hcb)
  exact hc

theorem Rep.length_eq (R : Rep h m ps bs chain) (hm : m.Wf) : h.entries = ps.length := by
  rw [R.entries, hm.entries, ToolMemory.pairs, List.length_map, R.list, List.length_map]

/-! ## Looking up -/

/-- The tree of ids finds what the list holds. -/
theorem Rep.findEntry (R : Rep h m ps bs chain) (hm : m.Wf) (id : Bytes) :
    Server.toolMemoryFindEntry m id = (toolMemoryFindEntry h id).map (entryView h) := by
  unfold Server.toolMemoryFindEntry toolMemoryFindEntry
  split
  · rfl
  cases hf : h.byId id with
  | some p =>
    obtain ⟨hp, hid⟩ := (R.byId id p).mp hf
    refine (lookup_eq_some_iff hm.unique).mpr ⟨?_, hid⟩
    rw [R.list]
    exact List.mem_map_of_mem hp
  | none =>
    refine lookup_eq_none_iff.mpr fun e he hid => ?_
    rw [R.list] at he
    obtain ⟨p, hp, rfl⟩ := List.mem_map.mp he
    have := (R.byId id p).mpr ⟨hp, hid⟩
    rw [hf] at this
    exact absurd this (by simp)

/-- The tree of blocks finds what is kept. -/
theorem Rep.findBlock (R : Rep h m ps bs chain) (hm : m.Wf) (dsml : Bytes) :
    Server.toolMemoryFindBlock m dsml = (toolMemoryFindBlock h dsml).map (blockView h chain) := by
  unfold Server.toolMemoryFindBlock toolMemoryFindBlock
  split
  · rfl
  cases hf : h.byBlock dsml with
  | some b =>
    obtain ⟨hb, hd⟩ := (R.byBlock dsml b).mp hf
    refine (lookup_eq_some_iff hm.texts).mpr ⟨?_, hd⟩
    rw [R.blocks]
    exact List.mem_map_of_mem hb
  | none =>
    refine lookup_eq_none_iff.mpr fun x hx hd => ?_
    rw [R.blocks] at hx
    obtain ⟨b, hb, rfl⟩ := List.mem_map.mp hx
    have := (R.byBlock dsml b).mpr ⟨hb, hd⟩
    rw [hf] at this
    exact absurd this (by simp)

/-! ## Touching -/

/-- The entries on the two sides of one, and nothing twice. -/
theorem mem_sides {ps a b : List Addr} {p : Addr} (hsplit : ps = a ++ p :: b) (hnd : ps.Nodup)
    (q : Addr) : q ∈ a ++ b ↔ q ∈ ps ∧ q ≠ p := by
  rw [hsplit] at hnd ⊢
  have h1 : q ∈ a → q ≠ p := fun hq hk => (List.nodup_append.mp hnd).2.2 q hq p (by simp) hk
  have h2 : q ∈ b → q ≠ p := fun hq hk =>
    (List.nodup_cons.mp (List.nodup_append.mp hnd).2.1).1 (hk ▸ hq)
  simp only [List.mem_append, List.mem_cons]
  tauto

/-- The list without one of its entries. -/
theorem Rep.remove_list (R : Rep h m ps bs chain) (hm : m.Wf) {a b : List Addr} {p : Addr}
    (hsplit : ps = a ++ p :: b) :
    remove (·.id) (h.entryId p) m.list = (a ++ b).map (entryView h) := by
  have hlist : m.list = a.map (entryView h) ++ entryView h p :: b.map (entryView h) := by
    rw [R.list, hsplit, List.map_append, List.map_cons]
  have hu := hm.unique
  rw [hlist] at hu ⊢
  exact (remove_split hu).trans List.map_append.symm

theorem toolMemoryTouch_eq (h : ToolHeap) (e : Addr) :
    toolMemoryTouch h e = { h with
      clock := h.clock + 1
      entryStamp := update h.entryStamp e (h.clock + 1)
      links := if h.links.head = some e then h.links else (h.links.unlink e).linkHead e } := by
  simp only [toolMemoryTouch, toolMemoryLinkHead, toolMemoryUnlink]
  split <;> rfl

/-- A touched entry stands at the head. -/
theorem touch_holds {l : Links Addr} {a b : List Addr} {p : Addr} (hl : l.Holds (a ++ p :: b)) :
    (if l.head = some p then l else (l.unlink p).linkHead p).Holds (p :: (a ++ b)) := by
  split
  · rename_i hhead
    cases a with
    | nil => exact hl
    | cons x a =>
      rw [hl.head] at hhead
      obtain rfl : x = p := by simpa using hhead
      have := hl.nodup
      simp at this
  · exact hl.unlink.linkHead fun hmem => ((mem_sides rfl hl.nodup p).mp hmem).2 rfl

theorem Rep.touch (R : Rep h m ps bs chain) (hm : m.Wf) {p : Addr} (hp : p ∈ ps)
    (source : ToolMemorySource) :
    Represents (toolMemoryTouch { h with entrySource := update h.entrySource p source } p)
      (Server.toolMemoryTouch m { entryView h p with source := source }) := by
  obtain ⟨a, b, hsplit⟩ := List.append_of_mem hp
  have hside := mem_sides hsplit R.links.nodup
  have hmem : ∀ q, q ∈ p :: (a ++ b) ↔ q ∈ ps := by
    intro q
    rw [List.mem_cons, hside]
    by_cases hq : q = p
    · simp [hq, hp]
    · simp [hq]
  have hlinks := R.links
  rw [hsplit] at hlinks
  refine ⟨p :: (a ++ b), bs, chain, ?_⟩
  rw [toolMemoryTouch_eq]
  refine
    { links := touch_holds hlinks
      list := ?_
      entryUsed := fun q => (R.entryUsed q).trans (hmem q).symm
      byId := fun id q => (R.byId id q).trans (and_congr_left fun _ => (hmem q).symm)
      inBlock := fun q hq => R.inBlock q ((hmem q).mp hq)
      entryBytes := fun q hq => R.entryBytes q ((hmem q).mp hq)
      blocksNodup := R.blocksNodup
      blocks := R.blocks
      blockUsed := R.blockUsed
      byBlock := R.byBlock
      blockBytes := R.blockBytes
      chains := R.chains
      mem_chain := fun c hc q => (R.mem_chain c hc q).trans (and_congr_left fun _ => (hmem q).symm)
      entries := R.entries
      maxEntries := R.maxEntries
      bytes := R.bytes
      maxBytes := R.maxBytes
      clock := congrArg (· + 1) R.clock
      guards := R.guards }
  have hrest : remove (·.id) (entryView h p).id m.list = (a ++ b).map (entryView h) :=
    R.remove_list hm hsplit
  simp only [Server.toolMemoryTouch, hrest, List.map_cons, ← R.clock]
  congr 1
  · simp [entryView, textOf]
  · refine List.map_congr_left fun q hq => ?_
    have hqp : q ≠ p := ((hside q).mp hq).2
    simp [entryView, textOf, hqp]

end Rep

end Sf37.Server.Heap

/-
Sf37.Server.ToolMemoryInvariant — what holds of the memory of tool blocks after any
sequence of its operations.

* `ToolMemory.Stamped`: the stamps fall along the list.
* `WellFormed`: the list, the two trees, the chains and the counters fit together.
* `toolMemory_wellFormed`: they do in every state, and the limits hold.
-/
import Sf37.Server.ToolMemoryRefines
import Sf37.Run.Guarded

namespace Sf37.Server

open Sf37.Text Sf37.Store Sf37.Run

/-! ## Stamps -/

/-- The stamps fall along the list, and the clock is not behind them. -/
structure ToolMemory.Stamped (m : ToolMemory) : Prop where
  falls : m.list.Pairwise fun e f => f.stamp < e.stamp
  clock : ∀ e ∈ m.list, e.stamp ≤ m.clock

theorem ToolMemory.Stamped.sublist {m m' : ToolMemory} (h : m.Stamped)
    (hl : m'.list.Sublist m.list) (hc : m'.clock = m.clock) : m'.Stamped where
  falls := h.falls.sublist hl
  clock e he := hc ▸ h.clock e (hl.subset he)

/-- A new stamp comes to the head. -/
theorem ToolMemory.Stamped.push {m m' : ToolMemory} (h : m.Stamped) {e : ToolMemoryEntry}
    {l : List ToolMemoryEntry} (hl : l.Sublist m.list) (hlist : m'.list = e :: l)
    (hstamp : e.stamp = m.clock + 1) (hc : m'.clock = m.clock + 1) : m'.Stamped where
  falls := by
    rw [hlist]
    refine List.pairwise_cons.mpr ⟨fun f hf => ?_, h.falls.sublist hl⟩
    rw [hstamp]
    exact Nat.lt_succ_of_le (h.clock f (hl.subset hf))
  clock f hf := by
    rw [hlist] at hf
    rw [hc]
    rcases List.mem_cons.mp hf with rfl | hf
    · exact Nat.le_of_eq hstamp
    · exact Nat.le_succ_of_le (h.clock f (hl.subset hf))

theorem toolMemoryTouch_stamped {m : ToolMemory} (h : m.Stamped) (e : ToolMemoryEntry) :
    (toolMemoryTouch m e).Stamped :=
  h.push List.filter_sublist rfl rfl rfl

theorem toolMemoryRemoveEntry_clock (m : ToolMemory) (e : ToolMemoryEntry) :
    (toolMemoryRemoveEntry m e).clock = m.clock := by
  simp only [toolMemoryRemoveEntry]
  split
  · rw [toolMemoryReleaseBlock]
    split <;> rfl
  · rfl

theorem toolMemoryRemoveEntry_stamped {m : ToolMemory} (h : m.Stamped) (e : ToolMemoryEntry) :
    (toolMemoryRemoveEntry m e).Stamped := by
  refine h.sublist ?_ (toolMemoryRemoveEntry_clock m e)
  rw [toolMemoryRemoveEntry_list]
  exact List.filter_sublist

theorem toolMemoryInsert_stamped {m : ToolMemory} (h : m.Stamped) (id dsml : Bytes)
    (source : ToolMemorySource) : (toolMemoryInsert m id dsml source).Stamped := by
  have hget : (toolMemoryGetBlock m dsml).list = m.list ∧
      (toolMemoryGetBlock m dsml).clock = m.clock := by
    unfold toolMemoryGetBlock
    split <;> exact ⟨rfl, rfl⟩
  obtain ⟨hlist, hclock⟩ := hget
  have hg : (toolMemoryGetBlock m dsml).Stamped := h.sublist (hlist ▸ List.Sublist.refl _) hclock
  exact hg.push (List.Sublist.refl _) rfl rfl rfl

theorem toolMemoryPruneLoop_stamped (fuel : Nat) {m : ToolMemory} (h : m.Stamped) :
    (toolMemoryPruneLoop fuel m).Stamped := by
  induction fuel generalizing m with
  | zero => exact h
  | succ fuel ih =>
    rw [toolMemoryPruneLoop]
    split
    · split
      · exact ih (toolMemoryRemoveEntry_stamped h _)
      · exact h
    · exact h

theorem toolMemoryPut_stamped {m : ToolMemory} (h : m.Stamped) (id dsml : Bytes)
    (source : ToolMemorySource) : (toolMemoryPut m id dsml source).Stamped := by
  rw [toolMemoryPut]
  split
  · exact h
  split
  · rename_i old _
    by_cases hd : old.dsml = dsml
    · rw [if_pos hd]
      exact toolMemoryPruneLoop_stamped _ (toolMemoryTouch_stamped h _)
    · rw [if_neg hd]
      exact toolMemoryPruneLoop_stamped _
        (toolMemoryInsert_stamped (toolMemoryRemoveEntry_stamped h old) id dsml source)
  · exact toolMemoryPruneLoop_stamped _ (toolMemoryInsert_stamped h id dsml source)

theorem toolMemoryLookup_stamped {m : ToolMemory} (h : m.Stamped) (id : Bytes) :
    (toolMemoryLookup m id).1.Stamped := by
  rw [toolMemoryLookup]
  split
  · exact toolMemoryTouch_stamped h _
  · exact h

/-! ## Removing within the limits -/

theorem toolMemoryRemoveEntry_ok {m : ToolMemory} (h : m.Ok) {e : ToolMemoryEntry}
    (he : e ∈ m.list) : (toolMemoryRemoveEntry m e).Ok := by
  refine ⟨toolMemoryRemoveEntry_wf h.toWf he, ?_⟩
  have hlim := ToolMemory.SameLimits.eq (toolMemoryRemoveEntry_limits m e)
  obtain ⟨b, hb, hd⟩ := h.held (e.id, e.dsml) (ToolMemory.mem_pairs.mpr ⟨e, he, rfl, rfl⟩)
  have heq := toolMemoryRemoveEntry_eq h.toWf hb hd
  have hin := h.within
  rw [toolMemoryOver, not_or, Nat.not_lt, Nat.not_lt] at hin ⊢
  rw [hlim.1, hlim.2, heq]
  split
  · exact ⟨Nat.le_trans (Nat.sub_le _ _) hin.1, Nat.le_trans (Nat.sub_le _ _) hin.2⟩
  · exact ⟨Nat.le_trans (Nat.sub_le _ _) hin.1,
      Nat.le_trans (Nat.sub_le _ _) (Nat.le_trans (Nat.sub_le _ _) hin.2)⟩

/-- Within the limits there is nothing to prune. -/
theorem toolMemoryPrune_eq_self {m : ToolMemory} (h : ¬ toolMemoryOver m) :
    toolMemoryPrune m = m := by
  unfold toolMemoryPrune
  cases m.list.length with
  | zero => rfl
  | succ n => rw [toolMemoryPruneLoop, if_neg h]

namespace Heap

/-! ## The invariant -/

variable {h : ToolHeap} {m : ToolMemory} {ps bs : List Addr} {chain : Addr → List Addr}

/-- `ps` are the entries from head to tail, `bs` the blocks, and `chain` the entries of
each block; the fields of the memory say just this. -/
structure WellFormed (h : ToolHeap) (ps bs : List Addr) (chain : Addr → List Addr) : Prop where
  list : h.links.Holds ps
  entryUsed : ∀ p, h.entryUsed p = true ↔ p ∈ ps
  byId : ∀ id p, h.byId id = some p ↔ p ∈ ps ∧ h.entryId p = id
  entries : h.entries = ps.length
  stamps : ps.Pairwise fun p q => h.entryStamp q < h.entryStamp p
  pointed : ∀ p ∈ ps, ∃ b, h.entryBlock p = some b
  blocksNodup : bs.Nodup
  blocks : ∀ b, b ∈ bs ↔ ∃ p ∈ ps, h.entryBlock p = some b
  blockUsed : ∀ b, h.blockUsed b = true ↔ b ∈ bs
  byBlock : ∀ d b, h.byBlock d = some b ↔ b ∈ bs ∧ h.blockDsml b = d
  chains : ∀ b ∈ bs, (chainOf h b).Holds (chain b)
  mem_chain : ∀ b ∈ bs, ∀ p, p ∈ chain b ↔ p ∈ ps ∧ h.entryBlock p = some b
  refs : ∀ b ∈ bs, h.blockRefs b = (chain b).length
  entryBytes : ∀ p ∈ ps, h.entryBytes p = (h.entryId p).length + 1 + sizeofEntry
  blockBytes : ∀ b ∈ bs, h.blockBytes b = (h.blockDsml b).length + 1 + sizeofBlock
  bytes : h.bytes = (ps.map h.entryBytes).sum + (bs.map h.blockBytes).sum
  guards : h.guardFired = false

/-- The counters are within the limits. -/
def Within (h : ToolHeap) : Prop :=
  h.entries ≤ toolMemoryMaxEntries h ∧ h.bytes ≤ toolMemoryMaxBytes h

theorem Rep.wellFormed (R : Rep h m ps bs chain) (hm : m.Wf) (hs : m.Stamped) :
    WellFormed h ps bs chain where
  list := R.links
  entryUsed := R.entryUsed
  byId := R.byId
  entries := R.length_eq hm
  stamps := by
    have hfalls := hs.falls
    rw [R.list] at hfalls
    exact List.pairwise_map.mp hfalls
  pointed p hp := by
    obtain ⟨b, -, hb⟩ := R.inBlock p hp
    exact ⟨b, hb⟩
  blocksNodup := R.blocksNodup
  blocks b := by
    constructor
    · intro hb
      have hin : blockView h chain b ∈ m.blocks := by
        rw [R.blocks]
        exact List.mem_map_of_mem hb
      have hne : chain b ≠ [] := fun hk => hm.used _ hin (by simp [blockView, hk])
      obtain ⟨p, hp⟩ := List.exists_mem_of_ne_nil _ hne
      exact ⟨p, (R.mem_chain b hb p).mp hp⟩
    · rintro ⟨p, hp, hb⟩
      exact R.block_mem hp hb
  blockUsed := R.blockUsed
  byBlock := R.byBlock
  chains := R.chains
  mem_chain := R.mem_chain
  refs b hb := by
    have hin : blockView h chain b ∈ m.blocks := by
      rw [R.blocks]
      exact List.mem_map_of_mem hb
    exact (hm.refs _ hin).trans (List.length_map _)
  entryBytes := R.entryBytes
  blockBytes := R.blockBytes
  bytes := by
    have h1 : (m.pairs.map fun q => Server.entryBytes q.1) = ps.map h.entryBytes := by
      rw [ToolMemory.pairs, R.list, List.map_map, List.map_map]
      exact List.map_congr_left fun p hp => (R.entryBytes p hp).symm
    have h2 : m.blocks.map (·.bytes) = bs.map h.blockBytes := by
      rw [R.blocks, List.map_map]
      exact List.map_congr_left fun b hb => (R.blockBytes b hb).symm
    rw [R.bytes, hm.bytes, h1, h2]
  guards := R.guards

theorem Rep.within (R : Rep h m ps bs chain) (hm : m.Ok) : Within h := by
  have hin := hm.within
  rw [toolMemoryOver, not_or, Nat.not_lt, Nat.not_lt] at hin
  simp only [Server.toolMemoryMaxEntries, Server.toolMemoryMaxBytes, ← R.entries, ← R.maxEntries,
    ← R.bytes, ← R.maxBytes] at hin
  exact hin

/-! ## Runs -/

/-- A call of one of the operations. -/
inductive ToolMemoryCall where
  | put (id dsml : Bytes) (source : ToolMemorySource) (newEntry newBlock : Addr)
  | lookup (id : Bytes)
  | prune
  | removeEntry (e : Addr)

/-- The memory after a call. -/
def call (h : ToolHeap) : ToolMemoryCall → ToolHeap
  | .put id dsml source newEntry newBlock => toolMemoryPut h id dsml source newEntry newBlock
  | .lookup id => (toolMemoryLookup h id).1
  | .prune => toolMemoryPrune h
  | .removeEntry e => toolMemoryRemoveEntry h e

/-- `xmalloc` gives addresses that are not in use, and only entries are removed. -/
def Callable (h : ToolHeap) : ToolMemoryCall → Prop
  | .put id _ _ newEntry newBlock =>
      (vacated h id).entryUsed newEntry = false ∧ (vacated h id).blockUsed newBlock = false
  | .lookup _ => True
  | .prune => True
  | .removeEntry e => h.entryUsed e = true

instance (h : ToolHeap) (c : ToolMemoryCall) : Decidable (Callable h c) :=
  match c with
  | .put .. => inferInstanceAs (Decidable (_ ∧ _))
  | .lookup _ => inferInstanceAs (Decidable True)
  | .prune => inferInstanceAs (Decidable True)
  | .removeEntry _ => inferInstanceAs (Decidable (_ = _))

/-- The empty memory, with its limits. -/
def Empty (h : ToolHeap) : Prop :=
  ∃ maxEntries maxBytes, h = { maxEntries := maxEntries, maxBytes := maxBytes }

/-- The records stand for a memory that keeps its invariants. -/
def Sound (h : ToolHeap) : Prop := ∃ m, Represents h m ∧ m.Ok ∧ m.Stamped

theorem sound_empty (h : ToolHeap) (he : Empty h) : Sound h := by
  obtain ⟨maxEntries, maxBytes, rfl⟩ := he
  refine ⟨{ maxEntries := maxEntries, maxBytes := maxBytes }, ⟨[], [], fun _ => [], ?_⟩, ?_, ?_⟩
  · constructor <;> simp [Links.holds_nil]
  · refine ⟨⟨?_, by simp⟩, by simp [toolMemoryOver]⟩
    constructor <;> simp [ToolMemory.pairs, Store.Unique]
  · constructor <;> simp

/-- One call keeps all of it. -/
theorem sound_call (h : ToolHeap) (c : ToolMemoryCall) (hs : Sound h) (hc : Callable h c) :
    Sound (call h c) := by
  obtain ⟨m, R, hm, hst⟩ := hs
  cases c with
  | put id dsml source newEntry newBlock =>
    exact ⟨_, R.put hm.toWf hc.1 hc.2, (toolMemoryPut_spec hm id dsml source).1,
      toolMemoryPut_stamped hst id dsml source⟩
  | lookup id =>
    exact ⟨_, R.lookup hm.toWf id, (toolMemoryLookup_spec hm id).1, toolMemoryLookup_stamped hst id⟩
  | prune =>
    have hprune := R.prune hm.toWf
    rw [toolMemoryPrune_eq_self hm.within] at hprune
    exact ⟨m, hprune, hm, hst⟩
  | removeEntry e =>
    obtain ⟨ps, bs, chain, R⟩ := R
    have hp := (R.entryUsed e).mp hc
    obtain ⟨bs', chain', R'⟩ := R.removeEntry hm.toWf hp
    have hin : entryView h e ∈ m.list := by
      rw [R.list]
      exact List.mem_map_of_mem hp
    exact ⟨_, ⟨_, _, _, R'⟩, toolMemoryRemoveEntry_ok hm hin, toolMemoryRemoveEntry_stamped hst _⟩

/-- After any calls from the empty memory it is well formed and within its limits. -/
theorem toolMemory_wellFormed (hr : Comes call Empty Callable h) :
    (∃ ps bs chain, WellFormed h ps bs chain) ∧ Within h := by
  obtain ⟨m, ⟨ps, bs, chain, R⟩, hm, hst⟩ := hr.invariant sound_empty sound_call
  exact ⟨⟨ps, bs, chain, R.wellFormed hm.toWf hst⟩, R.within hm⟩

/-- Two ids in one block of a memory for one entry, the second looked up and removed. -/
def evictionRun : List ToolMemoryCall :=
  [.put [97] [120] .ram 1 2, .put [98] [120] .disk 3 4, .lookup [98], .removeEntry 3, .prune]

theorem toolMemory_wellFormed_eviction :
    (∃ ps bs chain, WellFormed (evictionRun.foldl call { maxEntries := 1 }) ps bs chain) ∧
      Within (evictionRun.foldl call { maxEntries := 1 }) :=
  toolMemory_wellFormed (comes_run evictionRun (.start ⟨1, 0, rfl⟩)
    ⟨by decide, by decide, trivial, by decide, trivial, trivial⟩)

end Heap

end Sf37.Server

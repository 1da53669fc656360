/-
Sf37.Server.ToolMemoryRefines — the memory of tool blocks as records and links behaves
like the lists of `ToolMemory`.

* `Rep.removeEntry`, `Rep.insert`: an entry goes, with its block when it was the last
  one there; an entry comes.
* `Represents.prune`, `Represents.put`, `Represents.lookup`: the operations on the records
  are the operations on the lists.
-/
import Sf37.Server.ToolMemoryHeap

namespace Sf37.Server.Heap

open Sf37.Text Sf37.Store
open Function (update)

variable {h : ToolHeap} {m : ToolMemory} {ps bs : List Addr} {chain : Addr → List Addr}

/-! ## Detaching an entry -/

/-- `tool_memory_remove_entry_locked` on the lists, up to the release of the block. -/
def detached (m : ToolMemory) (e : ToolMemoryEntry) : ToolMemory :=
  { m with
    list := remove (·.id) e.id m.list
    blocks := Store.update (·.dsml) e.dsml (Server.toolBlockUnlinkEntry · e.id) m.blocks
    bytes := m.bytes - e.bytes
    entries := m.entries - 1 }

theorem toolMemoryDetachEntry_eq {p b : Addr} (hb : h.entryBlock p = some b)
    (hbytes : h.entryBytes p ≤ h.bytes) (hentries : 0 < h.entries) :
    toolMemoryDetachEntry h p = { h with
      byId := update h.byId (h.entryId p) none
      links := h.links.unlink p
      blockEntries := update h.blockEntries b
        (Chain.unlinkFrom p (h.entries + 1) none (chainOf h b)).first
      blockNext := (Chain.unlinkFrom p (h.entries + 1) none (chainOf h b)).next
      bytes := h.bytes - h.entryBytes p
      entries := h.entries - 1
      entryUsed := update h.entryUsed p false } := by
  simp only [toolMemoryDetachEntry, toolMemoryUnlink, hb, toolBlockUnlinkEntry, chargeOff,
    if_pos hbytes, countOff, if_pos hentries]
  rfl

/-- The charges of an entry and of its block are part of the sum. -/
theorem ToolMemory.Wf.charges {m : ToolMemory} (hm : m.Wf) {e : ToolMemoryEntry}
    (he : e ∈ m.list) {b : ToolMemoryBlock} (hb : b ∈ m.blocks) :
    e.bytes + b.bytes ≤ m.bytes ∧ 0 < m.entries := by
  have hq : (e.id, e.dsml) ∈ m.pairs := ToolMemory.mem_pairs.mpr ⟨e, he, rfl, rfl⟩
  have h1 : e.bytes ≤ (m.pairs.map fun q => entryBytes q.1).sum :=
    List.le_sum_of_mem (List.mem_map_of_mem (f := fun q : Bytes × Bytes => entryBytes q.1) hq)
  have h2 : b.bytes ≤ (m.blocks.map (·.bytes)).sum :=
    List.le_sum_of_mem (List.mem_map_of_mem (f := fun b : ToolMemoryBlock => b.bytes) hb)
  have h3 := hm.bytes
  have h4 := hm.entries
  have h5 := List.length_pos_of_mem hq
  omega

/-- An entry and its id go out of a chain and its ids together. -/
theorem erase_map_id (R : Rep h m ps bs chain) {p : Addr} (hp : p ∈ ps) :
    ∀ {l : List Addr}, (∀ q ∈ l, q ∈ ps) →
      (l.map h.entryId).erase (h.entryId p) = (l.erase p).map h.entryId
  | [], _ => rfl
  | q :: l, hl => by
      rw [List.map_cons, List.erase_cons, List.erase_cons]
      by_cases hq : q = p
      · simp [hq]
      · have hid : h.entryId q ≠ h.entryId p := fun hk => hq (R.id_inj (hl q (by simp)) hp hk)
        rw [if_neg (by simpa using hid), if_neg (by simpa using hq), List.map_cons,
          erase_map_id R hp fun x hx => hl x (List.mem_cons_of_mem q hx)]

/-- The chains when an entry is unlinked from its block. -/
theorem Rep.unlink_chains (R : Rep h m ps bs chain) (hm : m.Wf) {p b : Addr} (hp : p ∈ ps)
    (hb : h.entryBlock p = some b) {first : Addr → Option Addr} {next : Addr → Option Addr}
    (hfirst : first = update h.blockEntries b
      (Chain.unlinkFrom p (h.entries + 1) none (chainOf h b)).first)
    (hnext : next = (Chain.unlinkFrom p (h.entries + 1) none (chainOf h b)).next) :
    ∀ c ∈ bs, Chain.Holds ⟨first c, next⟩ (update chain b ((chain b).erase p) c) := by
  intro c hc
  have hbs := R.block_mem hp hb
  have hlen : (chain b).length ≤ h.entries + 1 := by
    have hle : (chain b).length ≤ ps.length :=
      (List.subperm_of_subset (R.chains b hbs).nodup fun q hq =>
        ((R.mem_chain b hbs q).mp hq).1).length_le
    rw [R.length_eq hm]
    omega
  have hunlink := (R.chains b hbs).unlink ((R.mem_chain b hbs p).mpr ⟨hp, hb⟩) hlen
  by_cases hk : c = b
  · subst hk
    rw [Function.update_self]
    exact hunlink.1.congr (by rw [hfirst, Function.update_self]) fun _ _ => by rw [hnext]
  · rw [Function.update_of_ne hk]
    refine (R.chains c hc).congr (by rw [hfirst, Function.update_of_ne hk]; rfl) fun q hq => ?_
    refine (congrFun hnext q).trans (hunlink.2 q fun hqb => ?_)
    have h1 := ((R.mem_chain c hc q).mp hq).2
    have h2 := ((R.mem_chain b hbs q).mp hqb).2
    exact hk (Option.some.inj (h1.symm.trans h2))

theorem Rep.detach (R : Rep h m ps bs chain) (hm : m.Wf) {p b : Addr} (hp : p ∈ ps)
    (hb : h.entryBlock p = some b) :
    Rep (toolMemoryDetachEntry h p) (detached m (entryView h p)) (ps.erase p) bs
      (update chain b ((chain b).erase p)) := by
  obtain ⟨a, a', hsplit⟩ := List.append_of_mem hp
  have hbs := R.block_mem hp hb
  have hinlist : entryView h p ∈ m.list := by
    rw [R.list]
    exact List.mem_map_of_mem hp
  have hinblocks : blockView h chain b ∈ m.blocks := by
    rw [R.blocks]
    exact List.mem_map_of_mem hbs
  obtain ⟨hcharge, hpos⟩ := ToolMemory.Wf.charges hm hinlist hinblocks
  have hebytes : h.entryBytes p = (entryView h p).bytes := R.entryBytes p hp
  have hrest : ps.erase p = a ++ a' := by
    rw [hsplit]
    exact erase_append_cons (hsplit ▸ R.links.nodup)
  have hmem : ∀ q, q ∈ ps.erase p ↔ q ∈ ps ∧ q ≠ p := fun q => by
    rw [R.links.nodup.mem_erase_iff, and_comm]
  rw [toolMemoryDetachEntry_eq hb (by rw [hebytes, R.bytes]; omega) (by rw [R.entries]; exact hpos)]
  exact
    { links := hrest ▸ (hsplit ▸ R.links : h.links.Holds (a ++ p :: a')).unlink
      list := hrest ▸ R.remove_list hm hsplit
      entryUsed := Marks.erase R.entryUsed hmem
      byId := Indexes.erase R.byId hp hmem
      inBlock := fun q hq => R.inBlock q ((hmem q).mp hq).1
      entryBytes := fun q hq => R.entryBytes q ((hmem q).mp hq).1
      blocksNodup := R.blocksNodup
      blocks := by
        have htext : (entryView h p).dsml = h.blockDsml b := textOf_eq hb
        have hids := erase_map_id R hp fun q hq => ((R.mem_chain b hbs q).mp hq).1
        rw [detached, htext]
        refine R.update_blocks hbs ?_ fun c _ hk => ?_
        · simp only [blockView, Server.toolBlockUnlinkEntry, Function.update_self, entryView, hids]
        · simp only [blockView, Function.update_of_ne hk]
      blockUsed := R.blockUsed
      byBlock := R.byBlock
      blockBytes := R.blockBytes
      chains := R.unlink_chains hm hp hb rfl rfl
      mem_chain := fun c hc q => by
        rw [hmem]
        by_cases hk : c = b
        · subst hk
          rw [Function.update_self, (R.chains c hc).nodup.mem_erase_iff, R.mem_chain c hc]
          tauto
        · rw [Function.update_of_ne hk, R.mem_chain c hc]
          have : h.entryBlock q = some c → q ≠ p := by
            rintro hq rfl
            exact hk (Option.some.inj (hq.symm.trans hb))
          tauto
      entries := by rw [R.entries]; rfl
      maxEntries := R.maxEntries
      bytes := by rw [hebytes, R.bytes]; rfl
      maxBytes := R.maxBytes
      clock := R.clock
      guards := R.guards }

/-! ## Releasing a block -/

theorem Rep.release_keep (R : Rep h m ps bs chain) {b : Addr} (hb : b ∈ bs)
    (hrefs : 0 < h.blockRefs b - 1) :
    Rep (toolMemoryReleaseBlock h b) (Server.toolMemoryReleaseBlock m (blockView h chain b)) ps bs
      chain := by
  have hview : 0 < (blockView h chain b).refs - 1 := hrefs
  simp only [toolMemoryReleaseBlock, Server.toolMemoryReleaseBlock, if_pos hview,
    Function.update_self, if_pos hrefs]
  refine { R with blocks := R.update_blocks hb ?_ fun c _ hk => ?_ }
  · simp only [blockView, Function.update_self]
  · simp only [blockView, Function.update_of_ne hk]

theorem Rep.release_free (R : Rep h m ps bs chain) (hu : Unique (·.dsml) m.blocks) {b : Addr}
    (hb : b ∈ bs) (hrefs : ¬ 0 < h.blockRefs b - 1) (hnone : chain b = [])
    (hbytes : h.blockBytes b ≤ h.bytes) :
    Rep (toolMemoryReleaseBlock h b) (Server.toolMemoryReleaseBlock m (blockView h chain b)) ps
      (bs.erase b) chain := by
  have hview : ¬ 0 < (blockView h chain b).refs - 1 := hrefs
  have hmem : ∀ c, c ∈ bs.erase b ↔ c ∈ bs ∧ c ≠ b := fun c => by
    rw [R.blocksNodup.mem_erase_iff, and_comm]
  simp only [toolMemoryReleaseBlock, Server.toolMemoryReleaseBlock, if_neg hview,
    Function.update_self, if_neg hrefs, chargeOff, if_pos hbytes]
  refine
    { links := R.links
      list := R.list
      entryUsed := R.entryUsed
      byId := R.byId
      inBlock := fun q hq => ?_
      entryBytes := R.entryBytes
      blocksNodup := R.blocksNodup.erase b
      blocks := ?_
      blockUsed := Marks.erase R.blockUsed hmem
      byBlock := Indexes.erase R.byBlock hb hmem
      blockBytes := fun c hc => R.blockBytes c ((hmem c).mp hc).1
      chains := fun c hc => R.chains c ((hmem c).mp hc).1
      mem_chain := fun c hc => R.mem_chain c ((hmem c).mp hc).1
      entries := R.entries
      maxEntries := R.maxEntries
      bytes := ?_
      maxBytes := R.maxBytes
      clock := R.clock
      guards := R.guards }
  · obtain ⟨c, hc, hqc⟩ := R.inBlock q hq
    refine ⟨c, (hmem c).mpr ⟨hc, ?_⟩, hqc⟩
    rintro rfl
    have := (R.mem_chain c hb q).mpr ⟨hq, hqc⟩
    rw [hnone] at this
    cases this
  · obtain ⟨x, y, hsplit⟩ := List.append_of_mem hb
    have herase : bs.erase b = x ++ y := by
      rw [hsplit]
      exact erase_append_cons (hsplit ▸ R.blocksNodup)
    have hblocks : m.blocks =
        x.map (blockView h chain) ++ blockView h chain b :: y.map (blockView h chain) := by
      rw [R.blocks, hsplit, List.map_append, List.map_cons]
    rw [hblocks] at hu
    calc remove (·.dsml) (blockView h chain b).dsml m.blocks
        = (bs.erase b).map (blockView h chain) := by
          rw [herase, hblocks, remove_split hu, List.map_append]
      _ = _ := by
          refine List.map_congr_left fun c hc => ?_
          simp only [blockView, Function.update_of_ne ((hmem c).mp hc).2]
  · rw [R.blockBytes b hb, R.bytes]
    rfl

theorem Rep.removeEntry (R : Rep h m ps bs chain) (hm : m.Wf) {p : Addr} (hp : p ∈ ps) :
    ∃ bs' chain', Rep (toolMemoryRemoveEntry h p) (Server.toolMemoryRemoveEntry m (entryView h p))
      (ps.erase p) bs' chain' := by
  obtain ⟨b, hbs, hb⟩ := R.inBlock p hp
  have hinlist : entryView h p ∈ m.list := by
    rw [R.list]
    exact List.mem_map_of_mem hp
  have hinblocks : blockView h chain b ∈ m.blocks := by
    rw [R.blocks]
    exact List.mem_map_of_mem hbs
  obtain ⟨hcharge, hpos⟩ := ToolMemory.Wf.charges hm hinlist hinblocks
  have hebytes : h.entryBytes p = (entryView h p).bytes := R.entryBytes p hp
  have hbbytes : h.blockBytes b = (blockView h chain b).bytes := R.blockBytes b hbs
  have D := R.detach hm hp hb
  have heq := toolMemoryDetachEntry_eq hb (by rw [hebytes, R.bytes]; omega)
    (by rw [R.entries]; exact hpos)
  have hrefs : (toolMemoryDetachEntry h p).blockRefs b = h.blockRefs b := by rw [heq]
  have hdsml : (toolMemoryDetachEntry h p).blockDsml b = (entryView h p).dsml := by
    rw [heq]
    exact (textOf_eq hb).symm
  have hcost : (toolMemoryDetachEntry h p).blockBytes b ≤ (toolMemoryDetachEntry h p).bytes := by
    rw [heq]
    dsimp only
    rw [hbbytes, hebytes, R.bytes]
    omega
  have hu : Unique (·.dsml) (detached m (entryView h p)).blocks := hm.texts.update fun _ => rfl
  have hlook : lookup (·.dsml) (entryView h p).dsml (detached m (entryView h p)).blocks =
      some (blockView (toolMemoryDetachEntry h p) (update chain b ((chain b).erase p)) b) := by
    refine (lookup_eq_some_iff hu).mpr ⟨?_, hdsml⟩
    rw [D.blocks]
    exact List.mem_map_of_mem hbs
  have habs : Server.toolMemoryRemoveEntry m (entryView h p) =
      Server.toolMemoryReleaseBlock (detached m (entryView h p))
        (blockView (toolMemoryDetachEntry h p) (update chain b ((chain b).erase p)) b) := by
    rw [detached] at hlook ⊢
    simp only [Server.toolMemoryRemoveEntry, hlook]
  simp only [toolMemoryRemoveEntry, hb, habs]
  by_cases hmore : 0 < (toolMemoryDetachEntry h p).blockRefs b - 1
  · exact ⟨_, _, D.release_keep hbs hmore⟩
  · refine ⟨_, _, D.release_free hu hbs hmore ?_ hcost⟩
    -- the chain of a block is as long as its count
    have hlen : h.blockRefs b = (chain b).length :=
      (hm.refs _ hinblocks).trans (List.length_map _)
    have hpc : p ∈ chain b := (R.mem_chain b hbs p).mpr ⟨hp, hb⟩
    have herase := List.length_erase_of_mem hpc
    rw [Function.update_self]
    exact List.length_eq_zero_iff.mp (by omega)

/-! ## A new entry -/

theorem Rep.getBlock (R : Rep h m ps bs chain) (hm : m.Wf) {dsml : Bytes} (hne : dsml ≠ [])
    {new : Addr} (hnew : h.blockUsed new = false) :
    ∃ bs' chain', Rep (toolMemoryGetBlock h dsml new).1 (Server.toolMemoryGetBlock m dsml) ps bs'
      chain' ∧ (toolMemoryGetBlock h dsml new).2 ∈ bs' ∧
      (toolMemoryGetBlock h dsml new).1.blockDsml (toolMemoryGetBlock h dsml new).2 = dsml := by
  have hfind := R.findBlock hm dsml
  unfold toolMemoryGetBlock Server.toolMemoryGetBlock
  rw [hfind]
  cases hf : toolMemoryFindBlock h dsml with
  | some b =>
    have hby := hf
    rw [toolMemoryFindBlock, if_neg hne] at hby
    obtain ⟨hb, hd⟩ := (R.byBlock dsml b).mp hby
    exact ⟨bs, chain, R, hb, hd⟩
  | none =>
    have hby := hf
    rw [toolMemoryFindBlock, if_neg hne] at hby
    have hnbs : new ∉ bs := fun hk => by
      rw [(R.blockUsed new).mpr hk] at hnew
      cases hnew
    have hold : ∀ c ∈ bs, c ≠ new := fun c hc hk => hnbs (hk ▸ hc)
    have hfresh : ∀ c ∈ bs, h.blockDsml c ≠ dsml := fun c hc hd => by
      rw [(R.byBlock dsml c).mpr ⟨hc, hd⟩] at hby
      nomatch hby
    refine ⟨new :: bs, update chain new [], ?_, List.mem_cons_self, Function.update_self _ _ _⟩
    refine
      { links := R.links
        list := ?_
        entryUsed := R.entryUsed
        byId := R.byId
        inBlock := fun q hq => ?_
        entryBytes := R.entryBytes
        blocksNodup := List.nodup_cons.mpr ⟨hnbs, R.blocksNodup⟩
        blocks := ?_
        blockUsed := Marks.insert R.blockUsed new
        byBlock := Indexes.insert R.byBlock hnbs hfresh
        blockBytes := fun c hc => ?_
        chains := fun c hc => ?_
        mem_chain := fun c hc q => ?_
        entries := R.entries
        maxEntries := R.maxEntries
        bytes := ?_
        maxBytes := R.maxBytes
        clock := R.clock
        guards := R.guards }
    · refine R.list.trans (List.map_congr_left fun q hq => ?_)
      obtain ⟨c, hc, hqc⟩ := R.inBlock q hq
      simp only [entryView, textOf, hqc, Option.map_some, Function.update_of_ne (hold c hc)]
    · obtain ⟨c, hc, hqc⟩ := R.inBlock q hq
      exact ⟨c, List.mem_cons_of_mem new hc, hqc⟩
    · simp only [Option.map_none, R.blocks, List.map_cons]
      congr 1
      · simp [blockView]
      · refine List.map_congr_left fun c hc => ?_
        simp only [blockView, Function.update_of_ne (hold c hc)]
    · dsimp only
      rcases List.mem_cons.mp hc with rfl | hc
      · simp only [Function.update_self]
      · simp only [Function.update_of_ne (hold c hc)]
        exact R.blockBytes c hc
    · rcases List.mem_cons.mp hc with rfl | hc
      · rw [Function.update_self]
        exact Chain.holds_nil (by simp [chainOf])
      · rw [Function.update_of_ne (hold c hc)]
        exact (R.chains c hc).congr (by simp [chainOf, hold c hc]) fun _ _ => rfl
    · rcases List.mem_cons.mp hc with rfl | hc
      · rw [Function.update_self]
        simp only [List.not_mem_nil, false_iff, not_and]
        exact fun hq hqc => hnbs (R.block_mem hq hqc)
      · rw [Function.update_of_ne (hold c hc)]
        exact R.mem_chain c hc q
    · simp only [Option.map_none]
      rw [R.bytes]
      rfl

/-- The chains when a new entry is put in front of those of a block. -/
theorem Rep.push_chains (R : Rep h m ps bs chain) (b : Addr) {e : Addr} (he : e ∉ ps)
    {first next : Addr → Option Addr} (hfirst : first = update h.blockEntries b (some e))
    (hnext : next = update h.blockNext e (h.blockEntries b)) :
    ∀ c ∈ bs, Chain.Holds ⟨first c, next⟩ (update chain b (e :: chain b) c) := by
  intro c hc
  have hin : ∀ q ∈ chain c, q ∈ ps := fun q hq => ((R.mem_chain c hc q).mp hq).1
  by_cases hk : c = b
  · subst hk
    rw [Function.update_self]
    refine ((R.chains c hc).push fun hm => he (hin e hm)).congr ?_ fun _ _ => ?_
    · rw [hfirst, Function.update_self]
      rfl
    · rw [hnext]
      rfl
  · rw [Function.update_of_ne hk]
    refine (R.chains c hc).congr (by rw [hfirst, Function.update_of_ne hk]; rfl) fun q hq => ?_
    rw [hnext]
    have hqe : q ≠ e := fun hk => he (hk ▸ hin q hq)
    exact Function.update_of_ne hqe _ _

/-- Every entry, the new one too, is in the chain of its own block. -/
theorem Rep.mem_push_chain (R : Rep h m ps bs chain) (b : Addr) {e : Addr} (he : e ∉ ps)
    {c : Addr} (hc : c ∈ bs) (q : Addr) :
    q ∈ update chain b (e :: chain b) c ↔
      q ∈ e :: ps ∧ update h.entryBlock e (some b) q = some c := by
  by_cases hq : q = e
  · subst hq
    rw [Function.update_self]
    by_cases hk : c = b
    · subst hk
      simp
    · have hno : q ∉ chain c := fun hm => he ((R.mem_chain c hc q).mp hm).1
      rw [Function.update_of_ne hk]
      simp [hno, Ne.symm hk]
  · rw [Function.update_of_ne hq, List.mem_cons]
    by_cases hk : c = b
    · subst hk
      rw [Function.update_self, List.mem_cons, R.mem_chain c hc]
      simp [hq]
    · rw [Function.update_of_ne hk, R.mem_chain c hc]
      simp [hq]

/-- A new entry at the head of the list and of the chain of its block. -/
theorem Rep.linkEntry (R : Rep h m ps bs chain) {id : Bytes} {b e : Addr} (hb : b ∈ bs)
    (he : e ∉ ps) (hid : ∀ q ∈ ps, h.entryId q ≠ id) (source : ToolMemorySource) :
    Rep { h with
        links := h.links.linkHead e
        entryUsed := update h.entryUsed e true
        entryId := update h.entryId e id
        entryBlock := update h.entryBlock e (some b)
        entryBytes := update h.entryBytes e (id.length + 1 + sizeofEntry)
        entryStamp := update h.entryStamp e (h.clock + 1)
        clock := h.clock + 1
        entrySource := update h.entrySource e source
        blockNext := update h.blockNext e (h.blockEntries b)
        blockEntries := update h.blockEntries b (some e)
        blockRefs := update h.blockRefs b (h.blockRefs b + 1)
        byId := update h.byId id (some e)
        entries := h.entries + 1
        bytes := h.bytes + (id.length + 1 + sizeofEntry) }
      { m with
        clock := m.clock + 1
        blocks := Store.update (·.dsml) (h.blockDsml b)
          (fun b => { b with entries := id :: b.entries, refs := b.refs + 1 }) m.blocks
        list := { id := id, dsml := h.blockDsml b, stamp := m.clock + 1, source := source } :: m.list
        entries := m.entries + 1
        bytes := m.bytes + (id.length + 1 + sizeofEntry) }
      (e :: ps) bs (update chain b (e :: chain b)) := by
  have hold : ∀ q ∈ ps, q ≠ e := fun q hq hk => he (hk ▸ hq)
  have hin : ∀ c ∈ bs, ∀ q ∈ chain c, q ∈ ps := fun c hc q hq => ((R.mem_chain c hc q).mp hq).1
  -- the ids of the entries that were there are as before
  have hids : ∀ c ∈ bs, (chain c).map (update h.entryId e id) = (chain c).map h.entryId :=
    fun c hc => List.map_congr_left fun q hq => Function.update_of_ne (hold q (hin c hc q hq)) _ _
  refine
    { links := R.links.linkHead he
      list := ?_
      entryUsed := Marks.insert R.entryUsed e
      byId := Indexes.insert R.byId he hid
      inBlock := fun q hq => ?_
      entryBytes := fun q hq => ?_
      blocksNodup := R.blocksNodup
      blocks := R.update_blocks hb ?_ fun c hc hk => ?_
      blockUsed := R.blockUsed
      byBlock := R.byBlock
      blockBytes := R.blockBytes
      chains := R.push_chains b he rfl rfl
      mem_chain := fun c hc q => R.mem_push_chain b he hc q
      entries := by rw [R.entries]
      maxEntries := R.maxEntries
      bytes := by rw [R.bytes]
      maxBytes := R.maxBytes
      clock := by rw [R.clock]
      guards := R.guards }
  · rw [List.map_cons, R.list]
    refine congrArg₂ List.cons ?_ (List.map_congr_left fun q hq => ?_)
    · simp [entryView, textOf, R.clock]
    · simp only [entryView, textOf, Function.update_of_ne (hold q hq)]
  · dsimp only
    rcases List.mem_cons.mp hq with rfl | hq
    · exact ⟨b, hb, Function.update_self _ _ _⟩
    · rw [Function.update_of_ne (hold q hq)]
      exact R.inBlock q hq
  · dsimp only
    rcases List.mem_cons.mp hq with rfl | hq
    · rw [Function.update_self, Function.update_self]
      rfl
    · rw [Function.update_of_ne (hold q hq), Function.update_of_ne (hold q hq)]
      exact R.entryBytes q hq
  · simp only [blockView, Function.update_self, List.map_cons, hids b hb]
  · simp only [blockView, Function.update_of_ne hk, hids c hc]

theorem toolMemoryInsert_eq (h : ToolHeap) (id dsml : Bytes) (source : ToolMemorySource)
    (e new : Addr) :
    toolMemoryInsert h id dsml source e new =
      let g := (toolMemoryGetBlock h dsml new).1
      let b := (toolMemoryGetBlock h dsml new).2
      { g with
        links := g.links.linkHead e
        entryUsed := update g.entryUsed e true
        entryId := update g.entryId e id
        entryBlock := update g.entryBlock e (some b)
        entryBytes := update g.entryBytes e (id.length + 1 + sizeofEntry)
        entryStamp := update g.entryStamp e (g.clock + 1)
        clock := g.clock + 1
        entrySource := update g.entrySource e source
        blockNext := update g.blockNext e (g.blockEntries b)
        blockEntries := update g.blockEntries b (some e)
        blockRefs := update g.blockRefs b (g.blockRefs b + 1)
        byId := update g.byId id (some e)
        entries := g.entries + 1
        bytes := g.bytes + (id.length + 1 + sizeofEntry) } := by
  simp only [toolMemoryInsert, toolMemoryLinkHead, Function.update_self]

theorem Rep.insert (R : Rep h m ps bs chain) (hm : m.Wf) {id dsml : Bytes}
    (hid : id ∉ m.pairs.map Prod.fst) (hne : dsml ≠ []) (source : ToolMemorySource) {e new : Addr}
    (he : h.entryUsed e = false) (hnew : h.blockUsed new = false) :
    Represents (toolMemoryInsert h id dsml source e new)
      (Server.toolMemoryInsert m id dsml source) := by
  obtain ⟨bs', chain', G, hb, hd⟩ := R.getBlock hm hne hnew
  have hlist : (Server.toolMemoryGetBlock m dsml).list = m.list := by
    unfold Server.toolMemoryGetBlock
    split <;> rfl
  have heps : e ∉ ps := fun hk => by
    rw [(R.entryUsed e).mpr hk] at he
    cases he
  have hfresh : ∀ q ∈ ps, (toolMemoryGetBlock h dsml new).1.entryId q ≠ id := by
    intro q hq hk
    have hmem := List.mem_map_of_mem (f := entryView (toolMemoryGetBlock h dsml new).1) hq
    rw [← G.list, hlist] at hmem
    exact hid (List.mem_map.mpr ⟨(id, _), ToolMemory.mem_pairs.mpr ⟨_, hmem, hk, rfl⟩, rfl⟩)
  have L := G.linkEntry hb heps hfresh source
  rw [hd] at L
  exact ⟨_, _, _, toolMemoryInsert_eq h id dsml source e new ▸ L⟩

/-! ## The operations -/

theorem Rep.prune : ∀ (fuel : Nat) {h : ToolHeap} {m : ToolMemory}, Represents h m → m.Wf →
    Represents (toolMemoryPruneLoop fuel h) (Server.toolMemoryPruneLoop fuel m)
  | 0, _, _, R, _ => R
  | fuel + 1, h, m, ⟨ps, bs, chain, R⟩, hm => by
      have hover : toolMemoryOver m ↔
          toolMemoryMaxEntries h < h.entries ∨ toolMemoryMaxBytes h < h.bytes := by
        simp only [toolMemoryOver, Server.toolMemoryMaxEntries, Server.toolMemoryMaxBytes,
          toolMemoryMaxEntries, toolMemoryMaxBytes, R.entries, R.maxEntries, R.bytes, R.maxBytes]
      unfold toolMemoryPruneLoop Server.toolMemoryPruneLoop
      by_cases ho : toolMemoryOver m
      · rw [if_pos ho, if_pos (hover.mp ho), R.links.tail, R.list, List.getLast?_map]
        cases hl : ps.getLast? with
        | none => exact ⟨ps, bs, chain, R⟩
        | some p =>
          have hp := List.mem_of_getLast? hl
          obtain ⟨bs', chain', R'⟩ := R.removeEntry hm hp
          have hin : entryView h p ∈ m.list := by
            rw [R.list]
            exact List.mem_map_of_mem hp
          exact Rep.prune fuel ⟨_, _, _, R'⟩ (toolMemoryRemoveEntry_wf hm hin)
      · rw [if_neg ho, if_neg (mt hover.mpr ho)]
        exact ⟨ps, bs, chain, R⟩

theorem Represents.prune (R : Represents h m) (hm : m.Wf) :
    Represents (toolMemoryPrune h) (Server.toolMemoryPrune m) := by
  have hlen : h.entries = m.list.length := by
    obtain ⟨ps, bs, chain, R⟩ := R
    rw [R.length_eq hm, R.list, List.length_map]
  unfold toolMemoryPrune Server.toolMemoryPrune
  rw [hlen]
  exact Rep.prune _ R hm

/-- The memory a new entry is put into: the one under its id has gone. -/
def vacated (h : ToolHeap) (id : Bytes) : ToolHeap :=
  match toolMemoryFindEntry h id with
  | some old => toolMemoryRemoveEntry h old
  | none => h

theorem Represents.put (R : Represents h m) (hm : m.Wf) {id dsml : Bytes}
    {source : ToolMemorySource} {e new : Addr} (he : (vacated h id).entryUsed e = false)
    (hnew : (vacated h id).blockUsed new = false) :
    Represents (toolMemoryPut h id dsml source e new) (Server.toolMemoryPut m id dsml source) := by
  obtain ⟨ps, bs, chain, R⟩ := R
  have hfind := R.findEntry hm id
  unfold toolMemoryPut Server.toolMemoryPut
  unfold vacated at he hnew
  by_cases hskip : id = [] ∨ dsml = []
  · rw [if_pos hskip, if_pos hskip]
    exact ⟨ps, bs, chain, R⟩
  obtain ⟨hid, hne⟩ := not_or.mp hskip
  rw [if_neg hskip, if_neg hskip, hfind]
  cases hf : toolMemoryFindEntry h id with
  | none =>
    rw [hf] at he hnew hfind
    have hnot : id ∉ m.pairs.map Prod.fst := by
      intro hmem
      obtain ⟨q, hq, hk⟩ := List.mem_map.mp hmem
      obtain ⟨x, hx, hxi, -⟩ := ToolMemory.mem_pairs.mp hq
      rw [Server.toolMemoryFindEntry, if_neg hid] at hfind
      exact lookup_eq_none_iff.mp hfind x hx (hxi.trans hk)
    exact (R.insert hm hnot hne source he hnew).prune (toolMemoryInsert_wf hm hnot hid hne source)
  | some p =>
    rw [hf] at he hnew
    have hby := hf
    rw [toolMemoryFindEntry, if_neg hid] at hby
    obtain ⟨hp, hpid⟩ := (R.byId id p).mp hby
    obtain ⟨b, hbs, hb⟩ := R.inBlock p hp
    have hin : entryView h p ∈ m.list := by
      rw [R.list]
      exact List.mem_map_of_mem hp
    have htext : (entryView h p).dsml = h.blockDsml b := textOf_eq hb
    simp only [Option.map_some, hb, Option.any_some, decide_eq_true_eq]
    by_cases hd : h.blockDsml b = dsml
    · rw [if_pos hd, if_pos (htext.trans hd)]
      by_cases hs : source = .ram
      · rw [if_pos hs, if_pos hs]
        exact (R.touch hm hp .ram).prune (toolMemoryTouch_wf hm hin rfl rfl)
      · rw [if_neg hs, if_neg hs]
        have T := R.touch hm hp (h.entrySource p)
        rw [Function.update_eq_self] at T
        exact T.prune (toolMemoryTouch_wf hm hin rfl rfl)
    · rw [if_neg hd, if_neg fun hk => hd (htext.symm.trans hk)]
      obtain ⟨bs', chain', R'⟩ := R.removeEntry hm hp
      have hwf := toolMemoryRemoveEntry_wf hm hin
      have hnot : id ∉ (Server.toolMemoryRemoveEntry m (entryView h p)).pairs.map Prod.fst := by
        intro hmem
        obtain ⟨q, hq, hk⟩ := List.mem_map.mp hmem
        obtain ⟨x, hx, hxi, -⟩ := ToolMemory.mem_pairs.mp hq
        rw [toolMemoryRemoveEntry_list] at hx
        exact (mem_remove.mp hx).2 ((hxi.trans hk).trans hpid.symm)
      exact (R'.insert hwf hnot hne source he hnew).prune
        (toolMemoryInsert_wf hwf hnot hid hne source)

theorem Represents.lookup (R : Represents h m) (hm : m.Wf) (id : Bytes) :
    Represents (toolMemoryLookup h id).1 (Server.toolMemoryLookup m id).1 := by
  obtain ⟨ps, bs, chain, R⟩ := R
  have hfind := R.findEntry hm id
  unfold toolMemoryLookup Server.toolMemoryLookup
  rw [hfind]
  cases hf : toolMemoryFindEntry h id with
  | none => exact ⟨ps, bs, chain, R⟩
  | some p =>
    have hby := hf
    unfold toolMemoryFindEntry at hby
    split at hby
    · cases hby
    obtain ⟨hp, -⟩ := (R.byId id p).mp hby
    obtain ⟨b, -, hb⟩ := R.inBlock p hp
    have T := R.touch hm hp (h.entrySource p)
    rw [Function.update_eq_self] at T
    simp only [hb, Option.map_some]
    exact T

end Sf37.Server.Heap

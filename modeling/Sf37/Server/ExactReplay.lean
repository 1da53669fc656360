/-
Sf37.Server.ExactReplay — what an attached block is.

A block is attached to a message by the ids of its calls alone, so it says nothing
about the calls the client sent back. What it does say is what was generated: over
any life of the server, with restarts and maps on disk, an attached block is the
block of a generation that was given the ids, and parsed by itself it gives that
generation's calls.

* `ReplayHistory.inv`: whatever is remembered or stored was generated.
* `attachedBlock_generated`: the parse of an attached block.
-/
import Sf37.Server.ToolReplay
import Sf37.Server.BlockReparse

namespace Sf37.Server

open Sf37.Text

/-! ## Histories -/

/-- A generated text with a tool block, and the ids its calls were given. -/
structure Generation where
  text : Bytes
  requireThinkingClosed : Bool
  think : ThinkMode
  message : ParsedMessage
  raw : Bytes
  ids : List Bytes
  nulFree : NulFree text
  parsed : parseGeneratedMessageEx text requireThinkingClosed think = some message
  block : message.rawDsml = some raw
  length : ids.length = message.toolCalls.v.length
  idsNulFree : ∀ id ∈ ids, NulFree id

/-- The calls `run_generation` remembers. -/
def Generation.calls (g : Generation) : ToolCalls := g.message.toolCalls.withIds g.ids

/-- A life of the server: its state, the maps on disk, and what was generated. It
loads no map it has not written. -/
inductive ReplayHistory : ReplayState → List Bytes → List Generation → Prop where
  | start (maxEntries : Nat) (disable : Bool) :
      ReplayHistory { toolMem := { maxEntries := maxEntries }, disableExactDsmlToolReplay := disable }
        [] []
  | restart {s : ReplayState} {files : List Bytes} {log : List Generation} (maxEntries : Nat)
      (disable : Bool) (h : ReplayHistory s files log) :
      ReplayHistory { toolMem := { maxEntries := maxEntries }, disableExactDsmlToolReplay := disable }
        files log
  | remember {s : ReplayState} {files : List Bytes} {log : List Generation} (g : Generation)
      (h : ReplayHistory s files log) :
      ReplayHistory (toolMemoryRemember s g.calls) files (g :: log)
  | attach {s : ReplayState} {files : List Bytes} {log : List Generation} (msgs : List ToolCalls)
      (stats : ToolReplayStats) (h : ReplayHistory s files log) :
      ReplayHistory (toolMemoryAttachToMessages s msgs stats).1 files log
  | load {s : ReplayState} {files : List Bytes} {log : List Generation} (f : Bytes)
      (wanted : Option (List Bytes)) (hf : f ∈ files) (h : ReplayHistory s files log) :
      ReplayHistory (kvToolMapLoadFromPos s f wanted).1 files log
  | write {s : ReplayState} {files : List Bytes} {log : List Generation} (text : Bytes)
      (h : ReplayHistory s files log) :
      ReplayHistory (kvToolMapWrite s text).state ((kvToolMapWrite s text).file :: files) log

/-! ## The invariant -/

/-- The id was given to a call generated in this block. -/
def Generated (log : List Generation) (q : Bytes × Bytes) : Prop :=
  ∃ g ∈ log, q.1 ∈ g.ids ∧ g.raw = q.2

theorem Generated.cons {log : List Generation} {q : Bytes × Bytes} (h : Generated log q)
    (g : Generation) : Generated (g :: log) q := by
  obtain ⟨g', hg', hq⟩ := h
  exact ⟨g', List.mem_cons_of_mem g hg', hq⟩

/-- A generated id and its block are strings. -/
theorem Generated.nulFree {log : List Generation} {q : Bytes × Bytes} (h : Generated log q) :
    NulFree q.1 ∧ NulFree q.2 := by
  obtain ⟨g, -, hid, hraw⟩ := h
  obtain ⟨a, -, rest, htext, -⟩ := parse_rawDsml g.parsed g.block
  refine ⟨g.idsNulFree _ hid, fun hz => g.nulFree ?_⟩
  rw [htext, hraw]
  simp [hz]

/-- A map on disk with generated entries. -/
def GeneratedFile (log : List Generation) (f : Bytes) : Prop :=
  ∃ recs : List (Bytes × Bytes), f = toolMapFile recs ∧ recs.length ≤ uint32Max ∧
    (∀ q ∈ recs, FitsRecord q) ∧ ∀ q ∈ recs, Generated log q

/-- Everything remembered or stored was generated. -/
structure HistoryInv (s : ReplayState) (files : List Bytes) (log : List Generation) : Prop where
  ok : s.Ok
  mem : ∀ q ∈ s.toolMem.pairs, Generated log q
  files : ∀ f ∈ files, GeneratedFile log f

theorem remember_inv {s : ReplayState} {files : List Bytes} {log : List Generation}
    (h : HistoryInv s files log) (g : Generation) :
    HistoryInv (toolMemoryRemember s g.calls) files (g :: log) := by
  have hk := toolMemoryRemember_ok h.ok g.calls
  refine ⟨hk.ok, fun q hq => ?_, fun f hf => ?_⟩
  · rcases hk.pairs q hq with hq | ⟨hid, hraw⟩
    · exact (h.mem q hq).cons g
    · refine ⟨g, List.mem_cons_self, ?_, ?_⟩
      · rwa [Generation.calls, ToolCalls.withIds, map_id_zipWith _ _ g.length] at hid
      · exact Option.some_inj.mp (g.block.symm.trans hraw)
  · obtain ⟨recs, heq, hlen, hfits, hgen⟩ := h.files f hf
    exact ⟨recs, heq, hlen, hfits, fun q hq => (hgen q hq).cons g⟩

theorem load_inv {s : ReplayState} {files : List Bytes} {log : List Generation}
    (h : HistoryInv s files log) {f : Bytes} (hf : f ∈ files) (wanted : Option (List Bytes)) :
    HistoryInv (kvToolMapLoadFromPos s f wanted).1 files log := by
  obtain ⟨recs, rfl, hlen, hfits, hgen⟩ := h.files f hf
  obtain ⟨hok, hlim⟩ := kvToolMapLoadFromPos_ok h.ok.mem (toolMapFile recs) wanted
  refine ⟨⟨hok, hlim.2.trans h.ok.maxBytes⟩, fun q hq => ?_, h.files⟩
  rcases kvToolMapLoadFromPos_pairs h.ok.mem hlen hfits (fun q hq => (hgen q hq).nulFree)
    wanted q hq with hq | hq
  · exact h.mem q hq
  · exact hgen q hq

theorem write_inv {s : ReplayState} {files : List Bytes} {log : List Generation}
    (h : HistoryInv s files log) (text : Bytes) :
    HistoryInv (kvToolMapWrite s text).state ((kvToolMapWrite s text).file :: files) log := by
  obtain ⟨hok, hp⟩ := kvToolMapWrite_ok h.ok text
  refine ⟨hok, fun q hq => h.mem q (hp ▸ hq), fun f hf => ?_⟩
  rcases List.mem_cons.mp hf with rfl | hf
  · cases hon : s.disableExactDsmlToolReplay with
    | true =>
      rw [kvToolMapWrite_off hon]
      exact ⟨[], rfl, Nat.zero_le _, fun q hq => (List.not_mem_nil hq).elim,
        fun q hq => (List.not_mem_nil hq).elim⟩
    | false =>
      obtain ⟨-, -, recs, hfile, hlen, hfits, -, hmem⟩ :=
        kvToolMapWrite_spec h.ok.mem h.ok.maxBytes hon text
      exact ⟨recs, hfile, hlen, hfits, fun q hq => h.mem q ((hmem q).mp hq).1⟩
  · exact h.files f hf

/-- Every history keeps the invariant. -/
theorem ReplayHistory.inv {s : ReplayState} {files : List Bytes} {log : List Generation}
    (h : ReplayHistory s files log) : HistoryInv s files log := by
  induction h with
  | start maxEntries disable =>
    exact ⟨replayStart_ok maxEntries disable, fun q hq => (List.not_mem_nil hq).elim,
      fun f hf => (List.not_mem_nil hf).elim⟩
  | restart maxEntries disable _ ih =>
    exact ⟨replayStart_ok maxEntries disable, fun q hq => (List.not_mem_nil hq).elim, ih.files⟩
  | remember g _ ih => exact remember_inv ih g
  | attach msgs stats _ ih =>
    obtain ⟨hok, hsub⟩ := toolMemoryAttachToMessages_ok ih.ok msgs stats
    exact ⟨hok, fun q hq => ih.mem q (hsub q hq), ih.files⟩
  | load f wanted hf _ ih => exact load_inv ih hf wanted
  | write text _ ih => exact write_inv ih text

/-! ## Attached blocks -/

/-- An attached block is generated under the id of every call of its message, and
parses, all of it, into the calls of any generation of that block. -/
theorem attachedBlock_generated {s : ReplayState} {files : List Bytes} {log : List Generation}
    (h : ReplayHistory s files log) (msgs : List ToolCalls) (stats : ToolReplayStats) {i : Nat}
    {calls after : ToolCalls} {raw : Bytes} (hcalls : msgs[i]? = some calls)
    (hnone : calls.rawDsml = none)
    (hafter : (toolMemoryAttachToMessages s msgs stats).2.1[i]? = some after)
    (hraw : after.rawDsml = some raw) :
    after.v = calls.v ∧ calls.v ≠ [] ∧ (∀ c ∈ calls.v, Generated log (c.id, raw)) ∧
      ∃ parsed, parseGeneratedMessageEx raw false .none = some parsed ∧
        parsed.content = [] ∧ parsed.rawDsml = some raw ∧
        ∀ g ∈ log, g.raw = raw → parsed.toolCalls.v = g.message.toolCalls.v := by
  have hinv := h.inv
  rw [toolMemoryAttachToMessages] at hafter
  split at hafter
  · -- with replay off the messages are left as they are
    obtain rfl : calls = after := by simpa [hcalls] using hafter
    exact absurd (hnone.symm.trans hraw) (Option.some_ne_none raw).symm
  · obtain ⟨-, -, -, hall⟩ := attachMessages_spec msgs stats hinv.ok.mem
    obtain ⟨hv, hset⟩ := (List.forall₂_iff_get.mp hall).2 i
      (List.getElem?_eq_some_iff.mp hcalls).1 (List.getElem?_eq_some_iff.mp hafter).1
    simp only [List.get_eq_getElem] at hv hset
    rw [(List.getElem?_eq_some_iff.mp hcalls).2] at hv hset
    rw [(List.getElem?_eq_some_iff.mp hafter).2] at hv hset
    obtain ⟨hne, hin⟩ := hset raw hnone hraw
    have hgen : ∀ c ∈ calls.v, Generated log (c.id, raw) := fun c hc => hinv.mem _ (hin c hc)
    refine ⟨hv, hne, hgen, ?_⟩
    -- any generation of the block says how it parses
    have hparse : ∀ g : Generation, g.raw = raw → parseGeneratedMessageEx raw false .none = some
        { content := [], reasoning := some [], calls := g.message.calls, rawDsml := some raw } := by
      rintro g rfl
      exact reparse_rawDsml g.parsed g.block
    obtain ⟨c, hc⟩ := List.exists_mem_of_ne_nil _ hne
    obtain ⟨g, -, -, hg⟩ := hgen c hc
    refine ⟨_, hparse g hg, rfl, rfl, fun g' _ hg' => ?_⟩
    have hsame := Option.some_inj.mp ((hparse g hg).symm.trans (hparse g' hg'))
    have hcalls : g.message.calls = g'.message.calls := (ParsedMessage.mk.inj hsame).2.2.1
    exact congrArg (List.map ParsedCall.toolCall) hcalls

/-- A text with two official calls. -/
def twoCallsText : Bytes :=
  bytes "<tool_call>\n<function=f>\n</function>\n</tool_call><tool_call>\n<function=g>\n</function>\n</tool_call>"

/-- Its generation, with ids. -/
def twoCalls : Generation where
  text := twoCallsText
  requireThinkingClosed := false
  think := .none
  message :=
    { content := []
      reasoning := some []
      calls := [⟨bytes "f", []⟩, ⟨bytes "g", []⟩]
      rawDsml := some twoCallsText }
  raw := twoCallsText
  ids := [bytes "call_1", bytes "call_2"]
  nulFree := by decide
  parsed := by decide
  block := rfl
  length := rfl
  idsNulFree := by decide

/-- The server that has just generated the two calls. -/
def afterTwoCalls : ReplayState :=
  toolMemoryRemember { toolMem := { maxEntries := 100000 } } twoCalls.calls

theorem afterTwoCalls_history : ReplayHistory afterTwoCalls [] [twoCalls] :=
  .remember twoCalls (.start 100000 false)

/-- The client sends both calls back. -/
theorem attachedBlock_generated_both :
    let calls : ToolCalls := twoCalls.calls.v |> fun v => { v := v }
    ({ calls with rawDsml := some twoCallsText } : ToolCalls).v = calls.v ∧ calls.v ≠ [] ∧
      (∀ c ∈ calls.v, Generated [twoCalls] (c.id, twoCallsText)) ∧
      ∃ parsed, parseGeneratedMessageEx twoCallsText false .none = some parsed ∧
        parsed.content = [] ∧ parsed.rawDsml = some twoCallsText ∧
        ∀ g ∈ [twoCalls], g.raw = twoCallsText → parsed.toolCalls.v = g.message.toolCalls.v := by
  intro calls
  have hafter : (toolMemoryAttachToMessages afterTwoCalls [calls] {}).2.1[0]? =
      some { calls with rawDsml := some twoCallsText } := by decide
  exact attachedBlock_generated afterTwoCalls_history [calls] {} rfl rfl hafter rfl

/-- The client sends back the first call only, with other arguments: the block with
both calls is attached all the same. -/
theorem attachedBlock_not_message :
    let call : ToolCall := ⟨bytes "call_1", bytes "f", bytes "\x7b\"x\":1\x7d"⟩
    let calls : ToolCalls := { v := [call] }
    ReplayHistory afterTwoCalls [] [twoCalls] ∧
      (toolMemoryAttachToMessages afterTwoCalls [calls] {}).2.1 =
        [{ v := [call], rawDsml := some twoCallsText }] ∧
      ∃ parsed, parseGeneratedMessageEx twoCallsText false .none = some parsed ∧
        parsed.toolCalls.v.length = 2 ∧ calls.v.length = 1 ∧
        parsed.toolCalls.v.map (·.arguments) = [bytes "\x7b\x7d", bytes "\x7b\x7d"] := by
  refine ⟨.remember twoCalls (.start 100000 false), by decide, ?_⟩
  refine ⟨_, twoCalls.parsed, ?_⟩
  decide

end Sf37.Server

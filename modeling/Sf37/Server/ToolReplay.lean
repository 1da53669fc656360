/-
Sf37.Server.ToolReplay — the life of the tool memory: remembering generated calls,
attaching remembered blocks to the messages of a request, storing and loading tool
maps.

* `toolMemoryAttachCalls_spec`: a block is attached when every call of the message
  has an id remembered under that block.
* `ReplayReachable.ok`: every state a server comes to has a well-formed memory.
-/
import Sf37.Server.ToolMapWire

namespace Sf37.Server

open Sf37.Text Sf37.Store

/-! ## Attaching -/

/-- `tool_replay_stats`. -/
structure ToolReplayStats where
  mem : Nat := 0
  disk : Nat := 0
  canonical : Nat := 0
  missingIds : Nat := 0
  deriving DecidableEq, Repr

/-- The variables of the inner loop of `tool_memory_attach_to_messages`; `matched`
is the text of the matched block. -/
structure AttachState where
  matched : Option Bytes := none
  matchedSource : ToolMemorySource := .disk
  exactMatch : Bool := true
  missing : Nat := 0
  deriving DecidableEq, Repr

/-- One turn of the inner loop. -/
def attachTurn (m : ToolMemory) (a : AttachState) (c : ToolCall) : ToolMemory × AttachState :=
  match toolMemoryLookup m c.id with
  | (m, none) => (m, { a with exactMatch := false, missing := a.missing + 1 })
  | (m, some e) =>
      let a :=
        match a.matched with
        | none => { a with matched := some e.dsml, matchedSource := e.source }
        | some block => if block = e.dsml then a else { a with exactMatch := false }
      (m, if e.source = .ram then { a with matchedSource := .ram } else a)

def attachLoop : List ToolCall → ToolMemory → AttachState → ToolMemory × AttachState
  | [], m, a => (m, a)
  | c :: calls, m, a => let r := attachTurn m a c; attachLoop calls r.1 r.2

/-- `tool_memory_attach_to_messages` on the calls of one message. -/
def toolMemoryAttachCalls (m : ToolMemory) (calls : ToolCalls) (stats : ToolReplayStats) :
    ToolMemory × ToolCalls × ToolReplayStats :=
  if calls.v = [] ∨ calls.rawDsml.isSome then (m, calls, stats)
  else
    match attachLoop calls.v m {} with
    | (m, a) =>
        match a.exactMatch, a.matched with
        | true, some block =>
            (m, { calls with rawDsml := some block },
              if a.matchedSource = .ram then { stats with mem := stats.mem + 1 }
              else { stats with disk := stats.disk + 1 })
        | _, _ =>
            (m, calls, { stats with
              canonical := stats.canonical + 1
              missingIds := stats.missingIds + a.missing })

def attachMessages : List ToolCalls → ToolMemory → ToolReplayStats →
    ToolMemory × List ToolCalls × ToolReplayStats
  | [], m, stats => (m, [], stats)
  | calls :: msgs, m, stats =>
      let r := toolMemoryAttachCalls m calls stats
      let rest := attachMessages msgs r.1 r.2.2
      (rest.1, r.2.1 :: rest.2.1, rest.2.2)

/-- Without exact replay every message with calls is rendered anew. -/
def attachNothing (msgs : List ToolCalls) (stats : ToolReplayStats) : ToolReplayStats :=
  msgs.foldl (fun stats calls =>
    if calls.v = [] ∨ calls.rawDsml.isSome then stats
    else { stats with
      canonical := stats.canonical + 1
      missingIds := stats.missingIds + calls.v.length }) stats

/-- `tool_memory_attach_to_messages`, on the calls of each message. -/
def toolMemoryAttachToMessages (s : ReplayState) (msgs : List ToolCalls)
    (stats : ToolReplayStats) : ReplayState × List ToolCalls × ToolReplayStats :=
  if s.disableExactDsmlToolReplay then (s, msgs, attachNothing msgs stats)
  else
    let r := attachMessages msgs s.toolMem stats
    ({ s with toolMem := r.1 }, r.2.1, r.2.2)

/-! ## What attaching says -/

/-- What the calls read so far have shown: the matched block is the one of each of
them, as long as the match is exact. -/
def AttachInv (m : ToolMemory) (done : List ToolCall) (a : AttachState) : Prop :=
  a.exactMatch = true →
    (a.matched = none → done = []) ∧
    ∀ block, a.matched = some block → ∀ c ∈ done, (c.id, block) ∈ m.pairs

theorem attachTurn_spec {m : ToolMemory} (h : m.Ok) {done : List ToolCall} {a : AttachState}
    (hinv : AttachInv m done a) (c : ToolCall) :
    (attachTurn m a c).1.Ok ∧ m.SameLimits (attachTurn m a c).1 ∧
      (attachTurn m a c).1.pairs.Perm m.pairs ∧
      AttachInv (attachTurn m a c).1 (done ++ [c]) (attachTurn m a c).2 := by
  obtain ⟨hok, hlim, hp, hfound⟩ := toolMemoryLookup_spec h c.id
  rw [attachTurn]
  cases hl : toolMemoryLookup m c.id with
  | mk m' found =>
    rw [hl] at hok hlim hp hfound
    cases found with
    | none => exact ⟨hok, hlim, hp, fun hx => by cases hx⟩
    | some e =>
      obtain ⟨-, hin⟩ := hfound e rfl
      refine ⟨hok, hlim, hp, ?_⟩
      -- what the turn does to the match, whatever the source
      have hinv' : ∀ a' : AttachState,
          (a'.matched = some e.dsml ∧ a.matched = none ∧ a'.exactMatch = a.exactMatch) ∨
          (a'.matched = some e.dsml ∧ a.matched = some e.dsml ∧ a'.exactMatch = a.exactMatch) ∨
          a'.exactMatch = false → AttachInv m' (done ++ [c]) a' := by
        rintro a' (⟨hm', hm, hx⟩ | ⟨hm', hm, hx⟩ | hx) hexact
        · refine ⟨fun hn => absurd (hm'.symm.trans hn) (Option.some_ne_none _), ?_⟩
          intro block hb d hd
          obtain rfl : e.dsml = block := by simpa using hm'.symm.trans hb
          have hdone := (hinv (hx ▸ hexact)).1 hm
          rw [hdone, List.nil_append, List.mem_singleton] at hd
          exact hd ▸ hp.mem_iff.mpr hin
        · refine ⟨fun hn => absurd (hm'.symm.trans hn) (Option.some_ne_none _), ?_⟩
          intro block hb d hd
          obtain rfl : e.dsml = block := by simpa using hm'.symm.trans hb
          rcases List.mem_append.mp hd with hd | hd
          · exact hp.mem_iff.mpr ((hinv (hx ▸ hexact)).2 _ hm d hd)
          · rw [List.mem_singleton.mp hd]
            exact hp.mem_iff.mpr hin
        · rw [hx] at hexact
          cases hexact
      refine hinv' _ ?_
      cases ha : a.matched with
      | none => exact Or.inl (by dsimp only; split <;> exact ⟨rfl, rfl, rfl⟩)
      | some block =>
        by_cases hb : block = e.dsml
        · subst hb
          exact Or.inr (Or.inl (by dsimp only; rw [if_pos rfl]; split <;> exact ⟨ha, rfl, rfl⟩))
        · exact Or.inr (Or.inr (by dsimp only; rw [if_neg hb]; split <;> rfl))

theorem attachLoop_spec : ∀ (calls done : List ToolCall) {m : ToolMemory} (a : AttachState),
    m.Ok → AttachInv m done a →
    (attachLoop calls m a).1.Ok ∧ m.SameLimits (attachLoop calls m a).1 ∧
      (attachLoop calls m a).1.pairs.Perm m.pairs ∧
      AttachInv (attachLoop calls m a).1 (done ++ calls) (attachLoop calls m a).2 := by
  intro calls
  induction calls with
  | nil =>
    intro done m a h hinv
    rw [List.append_nil]
    exact ⟨h, ⟨rfl, rfl⟩, List.Perm.refl _, hinv⟩
  | cons c calls ih =>
    intro done m a h hinv
    obtain ⟨hok, hlim, hp, hinv'⟩ := attachTurn_spec h hinv c
    obtain ⟨hok', hlim', hp', hinv''⟩ := ih (done ++ [c]) _ hok hinv'
    rw [List.append_assoc] at hinv''
    exact ⟨hok', ⟨hlim'.1.trans hlim.1, hlim'.2.trans hlim.2⟩, hp'.trans hp, hinv''⟩

/-- Attaching keeps what is remembered. A block it sets is the one each call of the
message is remembered under. -/
theorem toolMemoryAttachCalls_spec {m : ToolMemory} (h : m.Ok) (calls : ToolCalls)
    (stats : ToolReplayStats) :
    (toolMemoryAttachCalls m calls stats).1.Ok ∧
      m.SameLimits (toolMemoryAttachCalls m calls stats).1 ∧
      (toolMemoryAttachCalls m calls stats).1.pairs.Perm m.pairs ∧
      (toolMemoryAttachCalls m calls stats).2.1.v = calls.v ∧
      ∀ raw, calls.rawDsml = none → (toolMemoryAttachCalls m calls stats).2.1.rawDsml = some raw →
        calls.v ≠ [] ∧ ∀ c ∈ calls.v, (c.id, raw) ∈ m.pairs := by
  rw [toolMemoryAttachCalls]
  by_cases hskip : calls.v = [] ∨ calls.rawDsml.isSome = true
  · rw [if_pos hskip]
    refine ⟨h, ⟨rfl, rfl⟩, List.Perm.refl _, rfl, fun raw hnone hsome => ?_⟩
    rw [hnone] at hsome
    cases hsome
  · rw [if_neg hskip]
    obtain ⟨hok, hlim, hp, hinv⟩ := attachLoop_spec calls.v [] {} h
      fun _ => ⟨fun _ => rfl, fun _ hb => by cases hb⟩
    cases hl : attachLoop calls.v m {} with
    | mk m' a =>
      rw [hl, List.nil_append] at hinv
      rw [hl] at hok hlim hp
      dsimp only
      cases hx : a.exactMatch with
      | false =>
        exact ⟨hok, hlim, hp, rfl, fun raw hnone hsome =>
          absurd (hnone.symm.trans hsome) (Option.some_ne_none raw).symm⟩
      | true =>
        cases hb : a.matched with
        | none =>
          exact ⟨hok, hlim, hp, rfl, fun raw hnone hsome =>
            absurd (hnone.symm.trans hsome) (Option.some_ne_none raw).symm⟩
        | some block =>
          refine ⟨hok, hlim, hp, rfl, fun raw _ hsome => ?_⟩
          obtain rfl : block = raw := by simpa using hsome
          exact ⟨fun hv => hskip (Or.inl hv),
            fun c hc => hp.mem_iff.mp ((hinv hx).2 block hb c hc)⟩

theorem attachMessages_spec : ∀ (msgs : List ToolCalls) {m : ToolMemory} (stats : ToolReplayStats),
    m.Ok →
    (attachMessages msgs m stats).1.Ok ∧ m.SameLimits (attachMessages msgs m stats).1 ∧
      (attachMessages msgs m stats).1.pairs.Perm m.pairs ∧
      List.Forall₂ (fun calls after => after.v = calls.v ∧
        ∀ raw, calls.rawDsml = none → after.rawDsml = some raw →
          calls.v ≠ [] ∧ ∀ c ∈ calls.v, (c.id, raw) ∈ m.pairs)
        msgs (attachMessages msgs m stats).2.1 := by
  intro msgs
  induction msgs with
  | nil =>
    intro m stats h
    exact ⟨h, ⟨rfl, rfl⟩, List.Perm.refl _, .nil⟩
  | cons calls msgs ih =>
    intro m stats h
    obtain ⟨hok, hlim, hp, hv, hraw⟩ := toolMemoryAttachCalls_spec h calls stats
    obtain ⟨hok', hlim', hp', hall⟩ := ih (toolMemoryAttachCalls m calls stats).2.2 hok
    refine ⟨hok', ⟨hlim'.1.trans hlim.1, hlim'.2.trans hlim.2⟩, hp'.trans hp,
      .cons ⟨hv, hraw⟩ (hall.imp fun calls after hc => ⟨hc.1, fun raw hn hs => ?_⟩)⟩
    obtain ⟨hne, hin⟩ := hc.2 raw hn hs
    exact ⟨hne, fun c hcm => hp.mem_iff.mp (hin c hcm)⟩

/-! ## Ids -/

/-- Calls with these ids. -/
def ToolCalls.withIds (calls : ToolCalls) (ids : List Bytes) : ToolCalls :=
  { calls with v := calls.v.zipWith (fun c id => { c with id := id }) ids }

/-- The ids of calls that were given ids. -/
theorem map_id_zipWith : ∀ (v : List ToolCall) (ids : List Bytes), ids.length = v.length →
    (v.zipWith (fun c id => { c with id := id }) ids).map (·.id) = ids := by
  intro v
  induction v with
  | nil => intro ids h; exact (List.length_eq_zero_iff.mp h).symm
  | cons c v ih =>
    intro ids h
    cases ids with
    | nil => rfl
    | cons id ids => exact congrArg (id :: ·) (ih ids (Nat.succ.inj h))

/-! ## Reachable states -/

/-- The states of a server's tool replay: it starts empty, with the limit it was
given, and remembers calls, attaches blocks to requests, loads maps and writes
them. A put prunes. -/
inductive ReplayReachable : ReplayState → Prop where
  | start (maxEntries : Nat) (disable : Bool) :
      ReplayReachable { toolMem := { maxEntries := maxEntries }, disableExactDsmlToolReplay := disable }
  | remember {s : ReplayState} (calls : ToolCalls) (h : ReplayReachable s) :
      ReplayReachable (toolMemoryRemember s calls)
  | attach {s : ReplayState} (msgs : List ToolCalls) (stats : ToolReplayStats)
      (h : ReplayReachable s) : ReplayReachable (toolMemoryAttachToMessages s msgs stats).1
  | load {s : ReplayState} (fp : Bytes) (wanted : Option (List Bytes)) (h : ReplayReachable s) :
      ReplayReachable (kvToolMapLoadFromPos s fp wanted).1
  | write {s : ReplayState} (text : Bytes) (h : ReplayReachable s) :
      ReplayReachable (kvToolMapWrite s text).state

/-- What holds of every reachable state. -/
structure ReplayState.Ok (s : ReplayState) : Prop where
  mem : s.toolMem.Ok
  maxBytes : s.toolMem.maxBytes = 0

theorem replayStart_ok (maxEntries : Nat) (disable : Bool) :
    ReplayState.Ok { toolMem := { maxEntries := maxEntries }, disableExactDsmlToolReplay := disable } where
  mem := by
    have hwf : ToolMemory.Wf { maxEntries := maxEntries } :=
      ⟨⟨List.nodup_nil, List.nodup_nil, fun b hb => (List.not_mem_nil hb).elim,
        fun b hb => (List.not_mem_nil hb).elim, fun q hq => (List.not_mem_nil hq).elim,
        fun q hq => (List.not_mem_nil hq).elim, rfl, rfl,
        fun b hb => (List.not_mem_nil hb).elim⟩, fun b hb => (List.not_mem_nil hb).elim⟩
    exact ⟨hwf, hwf.not_over_of_nil rfl⟩
  maxBytes := rfl

/-- What remembering calls can do to a state. -/
structure Remembers (s s' : ReplayState) (calls : ToolCalls) : Prop where
  ok : s'.Ok
  limits : s.toolMem.SameLimits s'.toolMem
  replay : s'.disableExactDsmlToolReplay = s.disableExactDsmlToolReplay
  pairs : ∀ q ∈ s'.toolMem.pairs,
    q ∈ s.toolMem.pairs ∨ (q.1 ∈ calls.v.map (·.id) ∧ calls.rawDsml = some q.2)

theorem toolMemoryRemember_ok {s : ReplayState} (h : s.Ok) (calls : ToolCalls) :
    Remembers s (toolMemoryRemember s calls) calls := by
  have hsame : Remembers s s calls := ⟨h, ⟨rfl, rfl⟩, rfl, fun q hq => Or.inl hq⟩
  cases hraw : calls.rawDsml with
  | none =>
    have heq : toolMemoryRemember s calls = s := by simp only [toolMemoryRemember, hraw]
    exact heq.symm ▸ hsame
  | some raw =>
    by_cases hskip : s.disableExactDsmlToolReplay = true ∨ raw = []
    · have heq : toolMemoryRemember s calls = s := by
        simp only [toolMemoryRemember, hraw, if_pos hskip]
      exact heq.symm ▸ hsame
    · obtain ⟨hon, hne⟩ := not_or.mp hskip
      obtain ⟨hok, hlim, hmem⟩ := rememberLoop_spec raw (calls.v.map (·.id)) h.mem
      rw [toolMemoryRemember_eq hraw hne (by simpa using hon)]
      refine ⟨⟨hok, hlim.2.trans h.maxBytes⟩, hlim, rfl, fun q hq => ?_⟩
      rcases hmem q hq with hq | ⟨hq, hd⟩
      · exact Or.inl hq
      · exact Or.inr ⟨hq, hraw.trans (congrArg some hd.symm)⟩

theorem toolMemoryAttachToMessages_ok {s : ReplayState} (h : s.Ok) (msgs : List ToolCalls)
    (stats : ToolReplayStats) :
    (toolMemoryAttachToMessages s msgs stats).1.Ok ∧
      ∀ q ∈ (toolMemoryAttachToMessages s msgs stats).1.toolMem.pairs, q ∈ s.toolMem.pairs := by
  rw [toolMemoryAttachToMessages]
  split
  · exact ⟨h, fun q hq => hq⟩
  · obtain ⟨hok, hlim, hp, -⟩ := attachMessages_spec msgs stats h.mem
    exact ⟨⟨hok, hlim.2.trans h.maxBytes⟩, fun q hq => hp.mem_iff.mp hq⟩

/-- Writing with replay off writes nothing. -/
theorem kvToolMapWrite_off {s : ReplayState} (hoff : s.disableExactDsmlToolReplay = true)
    (text : Bytes) : kvToolMapWrite s text = { state := s, ok := true } := by
  rw [kvToolMapWrite, if_pos (Or.inl hoff)]

theorem kvToolMapWrite_ok {s : ReplayState} (h : s.Ok) (text : Bytes) :
    (kvToolMapWrite s text).state.Ok ∧
      (kvToolMapWrite s text).state.toolMem.pairs = s.toolMem.pairs := by
  cases hon : s.disableExactDsmlToolReplay with
  | true =>
    rw [kvToolMapWrite_off hon]
    exact ⟨h, rfl⟩
  | false =>
    obtain ⟨hk, -⟩ := kvToolMapWrite_spec h.mem h.maxBytes hon text
    exact ⟨⟨hk.mem, hk.limits.2.trans h.maxBytes⟩, hk.pairs⟩

/-- Every reachable memory is well formed and within its limits. -/
theorem ReplayReachable.ok {s : ReplayState} (h : ReplayReachable s) : s.Ok := by
  induction h with
  | start maxEntries disable => exact replayStart_ok maxEntries disable
  | remember calls _ ih => exact (toolMemoryRemember_ok ih calls).ok
  | attach msgs stats _ ih => exact (toolMemoryAttachToMessages_ok ih msgs stats).1
  | load fp wanted _ ih =>
    obtain ⟨hok, hlim⟩ := kvToolMapLoadFromPos_ok ih.mem fp wanted
    exact ⟨hok, hlim.2.trans ih.maxBytes⟩
  | write text _ ih => exact (kvToolMapWrite_ok ih text).1

end Sf37.Server

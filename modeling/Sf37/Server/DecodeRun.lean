/-
Sf37.Server.DecodeRun — the decode loop of `run_generation`: the tokens it takes, the stop
search with its moving start, the exits, and the finish reason after the loop.

What the engine and the client do is given turn by turn. A run ends at one of the exits of
the loop; `LoopExit` names them. `RunEnds` says from the tokens alone where a run without
failures ends.

* `loopAt_reaches`: what holds before a turn the loop comes to.
* `stopSearch_isFullScan`: each search of a run finds what a search of the whole buffer
  finds.
* `decodeRun_ends`: a run without failures ends where its tokens say.
* `finish_truthful_iff`: the reason that is reported is the one the loop ended with, unless
  a stop is found at the last token allowed or the text is found to have calls.
-/
import Sf37.Server.StopStream
import Sf37.Server.ToolMap
import Sf37.Server.RepairToolCall
import Sf37.Server.FinalResponse

namespace Sf37.Server

open Sf37.Text

/-! ## The loop -/

/-- What a request and the engine fix for the loop. -/
structure DecodeInputs where
  stops : StopList
  maxTokens : Nat
  hasTools : Bool
  stream : Bool
  think : ThinkMode
  eos : Int
  imEnd : Int
  ctx : Nat
  tokenText : Int → Bytes

/-- What a turn meets with: whether shutdown was requested, the token selected, and
whether the sends and the evaluation succeed. -/
structure Turn where
  shutdown : Bool := false
  token : Int
  streamOk : Bool := true
  evalOk : Bool := true
  deriving DecidableEq, Repr

/-- The variables of the loop. -/
structure LoopState where
  raw : Bytes := []
  completionTokens : Nat := 0
  finish : Finish := .stop
  stopScanFrom : Nat := 0
  sawToolStart : Bool := false
  sawToolEnd : Bool := false
  pos : Nat
  deriving DecidableEq, Repr

/-- Where the loop is left. -/
inductive LoopExit where
  | tokensUsed
  | shutdown
  | noToken
  | endToken
  | streamBroken
  | stopString
  | evalFailed
  | toolCall
  | contextFull
  deriving DecidableEq, Repr

/-- `observe_tool_markers`. -/
def observeToolMarkers (scan : Bytes) (sawStart sawEnd : Bool) : Bool × Bool :=
  let start := findAnyToolStart scan
  let endScan := if sawStart then some scan else start.map scan.drop
  (sawStart || start.isSome,
    sawEnd || endScan.any fun scan => (findAnyToolEnd scan).isSome)

/-- The part of a turn that looks for tool calls: the state, and whether a block is closed. -/
def observeTools (g : DecodeInputs) (s : LoopState) : LoopState × Bool :=
  if ¬ g.hasTools ∨ s.raw = [] then (s, false)
  else
    match toolSearchStart (g.think == .enabled) (cstr s.raw) with
    | none => (s, false)
    | some k =>
        let scan := (cstr s.raw).drop k
        let saw := observeToolMarkers scan s.sawToolStart s.sawToolEnd
        let s := { s with sawToolStart := saw.1, sawToolEnd := saw.2 }
        if (findNextDsmlToolBlock scan).isSome then ({ s with finish := .toolCalls }, true)
        else (s, false)

/-- The end of a turn: the evaluation of the token and the check of the context. -/
def evalToken (g : DecodeInputs) (t : Turn) (s : LoopState) (toolEnd : Bool) :
    LoopState × Option LoopExit :=
  if ¬ t.evalOk then ({ s with finish := .error }, some .evalFailed)
  else
    let s := { s with pos := s.pos + 1 }
    if toolEnd then (s, some .toolCall)
    else if g.ctx ≤ s.pos then ({ s with finish := .length }, some .contextFull)
    else (s, none)

/-- A token is taken into the buffer and the stops are looked for. -/
def takeToken (g : DecodeInputs) (t : Turn) (s : LoopState) : LoopState × Option LoopExit :=
  let s := { s with
    raw := s.raw ++ g.tokenText t.token
    completionTokens := s.completionTokens + 1 }
  let hit := stopListFindFrom g.stops s.raw s.stopScanFrom
  if g.stream ∧ ¬ t.streamOk then (s, some .streamBroken)
  else
    match hit with
    | some (stopPos, _) =>
        ({ s with raw := s.raw.take stopPos, finish := .stop }, some .stopString)
    | none =>
        let s := { s with stopScanFrom := nextScanFrom g.stops s.raw.length s.stopScanFrom }
        let observed := observeTools g s
        evalToken g t observed.1 observed.2

/-- One turn of the loop. -/
def decodeTurn (g : DecodeInputs) (t : Turn) (s : LoopState) : LoopState × Option LoopExit :=
  if t.shutdown then ({ s with finish := .error }, some .shutdown)
  else if t.token < 0 then ({ s with finish := .error }, some .noToken)
  else if t.token = g.eos ∨ t.token = g.imEnd then ({ s with finish := .stop }, some .endToken)
  else takeToken g t s

/-- The loop from a turn on, with some turns left. -/
def decodeTurns (g : DecodeInputs) (turns : Nat → Turn) : Nat → Nat → LoopState →
    LoopState × LoopExit
  | 0, _, s => (s, .tokensUsed)
  | n + 1, i, s =>
      match decodeTurn g (turns i) s with
      | (s, some e) => (s, e)
      | (s, none) => decodeTurns g turns n (i + 1) s

/-- The loop, in a session at a position. -/
def decodeRun (g : DecodeInputs) (turns : Nat → Turn) (pos : Nat) : LoopState × LoopExit :=
  decodeTurns g turns g.maxTokens 0 { pos }

/-! ## After the loop -/

/-- A run out of tokens without another reason is one that was cut. -/
def overrideFinish (g : DecodeInputs) (s : LoopState) : LoopState :=
  if g.maxTokens ≤ s.completionTokens ∧ 0 < g.maxTokens ∧ s.finish = .stop then
    { s with finish := .length }
  else s

/-- The repair of an open tool call. -/
def repairFinish (g : DecodeInputs) (s : LoopState) : LoopState :=
  if g.hasTools ∧ s.sawToolStart ∧ ¬ s.sawToolEnd ∧ s.finish ≠ .error then
    match tryRepairToolCallText s.raw g.hasTools g.think with
    | some repaired => { s with raw := repaired, finish := .toolCalls, sawToolEnd := true }
    | none => if s.finish = .length ∨ g.stream then { s with finish := .error } else s
  else s

/-- The finish reason of a run, and whether shutdown was requested after it. -/
def settleFinish (g : DecodeInputs) (shutdown : Bool) (s : LoopState) : LoopState :=
  let s := overrideFinish g s
  let s := if shutdown ∧ s.finish ≠ .error then { s with finish := .error } else s
  repairFinish g s

/-- What the answer to a run says about its end; an error is answered without a reason. -/
def runFinish (api : ApiStyle) (g : DecodeInputs) (shutdown : Bool) (s : LoopState) :
    Option ReportedFinish :=
  let s := settleFinish g shutdown s
  if s.finish = .error then none
  else some (reportedFinish api (finalResponse s.raw g.think s.finish))

/-! ## The turns of a run -/

/-- The text of the first tokens. -/
def textOf (g : DecodeInputs) (turns : Nat → Turn) (k : Nat) : Bytes :=
  (List.range k).flatMap fun i => g.tokenText (turns i).token

theorem textOf_succ (g : DecodeInputs) (turns : Nat → Turn) (k : Nat) :
    textOf g turns (k + 1) = textOf g turns k ++ g.tokenText (turns k).token := by
  simp [textOf, List.range_succ]

/-- The state before a turn, if the loop comes to it. -/
def loopAt (g : DecodeInputs) (turns : Nat → Turn) (s : LoopState) : Nat → Option LoopState
  | 0 => some s
  | k + 1 =>
      match loopAt g turns s k with
      | none => none
      | some s =>
          match decodeTurn g (turns k) s with
          | (s, none) => some s
          | (_, some _) => none

/-- The loop goes on after a turn. -/
structure GoesOn (g : DecodeInputs) (t : Turn) (s s' : LoopState) : Prop where
  token : ¬ (t.token = g.eos ∨ t.token = g.imEnd)
  raw : s'.raw = s.raw ++ g.tokenText t.token
  count : s'.completionTokens = s.completionTokens + 1
  noStop : stopListFindFrom g.stops s'.raw s.stopScanFrom = none
  scan : s'.stopScanFrom = nextScanFrom g.stops s'.raw.length s.stopScanFrom
  finish : s'.finish = s.finish
  pos : s'.pos = s.pos + 1
  room : s'.pos < g.ctx

theorem observeTools_open {g : DecodeInputs} {s r : LoopState}
    (h : observeTools g s = (r, false)) :
    ∃ sawStart sawEnd, r = { s with sawToolStart := sawStart, sawToolEnd := sawEnd } := by
  rw [observeTools] at h
  split at h
  · exact ⟨_, _, (Prod.mk.inj h).1.symm⟩
  split at h
  · exact ⟨_, _, (Prod.mk.inj h).1.symm⟩
  · dsimp only at h
    split at h
    · nomatch (Prod.mk.inj h).2
    · exact ⟨_, _, (Prod.mk.inj h).1.symm⟩

theorem evalToken_next {g : DecodeInputs} {t : Turn} {s s' : LoopState} {toolEnd : Bool}
    (h : evalToken g t s toolEnd = (s', none)) :
    toolEnd = false ∧ s' = { s with pos := s.pos + 1 } ∧ s.pos + 1 < g.ctx := by
  rw [evalToken] at h
  split at h
  · nomatch h
  dsimp only at h
  split at h
  · nomatch h
  next htool =>
    split at h
    · nomatch h
    next hroom =>
      obtain ⟨rfl, -⟩ := Prod.mk.inj h
      exact ⟨Bool.eq_false_iff.mpr htool, rfl, Nat.lt_of_not_le hroom⟩

theorem decodeTurn_next {g : DecodeInputs} {t : Turn} {s s' : LoopState}
    (h : decodeTurn g t s = (s', none)) : GoesOn g t s s' := by
  rw [decodeTurn] at h
  split at h
  · nomatch h
  split at h
  · nomatch h
  split at h
  · nomatch h
  next htoken =>
    rw [takeToken] at h
    dsimp only at h
    split at h
    · nomatch h
    split at h
    · nomatch h
    next hfind =>
      generalize hobserved : observeTools g _ = observed at h
      obtain ⟨r, toolEnd⟩ := observed
      obtain ⟨rfl, rfl, hroom⟩ := evalToken_next h
      obtain ⟨sawStart, sawEnd, rfl⟩ := observeTools_open hobserved
      exact ⟨htoken, rfl, rfl, hfind, rfl, rfl, rfl, hroom⟩

theorem loopAt_succ {g : DecodeInputs} {turns : Nat → Turn} {s s' : LoopState} {k : Nat}
    (h : loopAt g turns s (k + 1) = some s') :
    ∃ r, loopAt g turns s k = some r ∧ GoesOn g (turns k) r s' := by
  rw [loopAt] at h
  split at h
  · nomatch h
  next r hr =>
    split at h
    next r' hturn =>
      obtain rfl := Option.some.inj h
      exact ⟨r, hr, decodeTurn_next hturn⟩
    · nomatch h

/-! ## The turns a run comes to -/

/-- A token ends the turn of the assistant. -/
def EndToken (g : DecodeInputs) (t : Turn) : Prop := t.token = g.eos ∨ t.token = g.imEnd

/-- Where the search of a turn starts. -/
def scanStart (g : DecodeInputs) (turns : Nat → Turn) (k : Nat) : Nat :=
  nextScanFrom g.stops (textOf g turns k).length 0

/-- A stop in view of the search of a turn, in the text with that turn's token. -/
def StopSeen (g : DecodeInputs) (turns : Nat → Turn) (k i : Nat) : Prop :=
  StopInView g.stops (textOf g turns (k + 1)) (scanStart g turns k) i

/-- Nothing in the first tokens ends a run. -/
structure Reaches (g : DecodeInputs) (turns : Nat → Turn) (pos k : Nat) : Prop where
  noEnd : ∀ i < k, ¬ EndToken g (turns i)
  noStop : ∀ i < k, ∀ p, ¬ StopSeen g turns i p
  room : ∀ i < k, pos + i + 1 < g.ctx

theorem stopSearch_isFirst (g : DecodeInputs) (turns : Nat → Turn) (k : Nat) :
    IsFirst (StopSeen g turns k) ((stopListFindFrom g.stops (textOf g turns (k + 1))
      (scanStart g turns k)).map Prod.fst) :=
  stopListFindFrom_isFirst g.stops _ _

/-- What holds before a turn the loop comes to. -/
theorem loopAt_reaches {g : DecodeInputs} {turns : Nat → Turn} {pos k : Nat} {s : LoopState}
    (h : loopAt g turns { pos } k = some s) :
    Reaches g turns pos k ∧ s.raw = textOf g turns k ∧ s.completionTokens = k ∧ s.pos = pos + k ∧
      s.finish = .stop ∧ s.stopScanFrom = scanStart g turns k := by
  induction k generalizing s with
  | zero =>
    obtain rfl := Option.some.inj h
    refine ⟨⟨nofun, nofun, nofun⟩, rfl, rfl, rfl, rfl, ?_⟩
    simp [scanStart, nextScanFrom, textOf]
  | succ k ih =>
    obtain ⟨r, hr, hon⟩ := loopAt_succ h
    obtain ⟨hreach, hraw, hcount, hpos, hfinish, hscan⟩ := ih hr
    have hraw' : s.raw = textOf g turns (k + 1) := by rw [hon.raw, hraw, textOf_succ]
    have hsearch := stopSearch_isFirst g turns k
    rw [← hraw', ← hscan, hon.noStop] at hsearch
    have hroom := hon.room
    rw [hon.pos, hpos] at hroom
    refine ⟨⟨fun i hi => ?_, fun i hi => ?_, fun i hi => ?_⟩, hraw', ?_, ?_,
      hon.finish.trans hfinish, ?_⟩
    · rcases Nat.lt_or_eq_of_le (Nat.le_of_lt_succ hi) with hlt | rfl
      · exact hreach.noEnd i hlt
      · exact hon.token
    · rcases Nat.lt_or_eq_of_le (Nat.le_of_lt_succ hi) with hlt | rfl
      · exact hreach.noStop i hlt
      · exact hsearch
    · omega
    · rw [hon.count, hcount]
    · rw [hon.pos, hpos, Nat.add_assoc]
    · rw [hon.scan, hscan, hraw', scanStart, scanStart, nextScanFrom, nextScanFrom, nextScanFrom]
      split <;> simp_all

/-! ## The stop search -/

theorem textOf_nulFree {g : DecodeInputs} {turns : Nat → Turn}
    (h : ∀ i, NulFree (g.tokenText (turns i).token)) (k : Nat) : NulFree (textOf g turns k) := by
  intro hmem
  obtain ⟨i, -, hi⟩ := List.mem_flatMap.mp hmem
  exact h i hi

/-- The moving start of the search skips no stop: what is behind it was searched before. -/
theorem stopSearch_resumes {g : DecodeInputs} {turns : Nat → Turn} {k : Nat}
    (hfree : ∀ i, NulFree (g.tokenText (turns i).token))
    (hclean : ∀ i, ¬ StopAt g.stops (textOf g turns k) i) :
    IsFirst (StopAt g.stops (textOf g turns (k + 1)))
      ((stopListFindFrom g.stops (textOf g turns (k + 1)) (scanStart g turns k)).map Prod.fst) := by
  refine stopListFindFrom_resume (p := (textOf g turns k).length) (textOf_nulFree hfree _)
    (fun i => ?_) ?_
  · rw [textOf_succ, List.take_left]
    exact hclean i
  · rw [scanStart, nextScanFrom]
    split <;> omega

/-- Without NULs no stop is in the text of the turns a run has come through. -/
theorem Reaches.clean {g : DecodeInputs} {turns : Nat → Turn} {pos k : Nat}
    (hfree : ∀ i, NulFree (g.tokenText (turns i).token)) (h : Reaches g turns pos k) :
    ∀ j ≤ k, ∀ i, ¬ StopAt g.stops (textOf g turns j) i := by
  intro j
  induction j with
  | zero => exact fun _ i ⟨v, hv, hocc⟩ => not_occursAt_nil (g.stops.nonempty v hv) i hocc
  | succ j ih =>
    intro hjk
    have hsearch := stopSearch_resumes hfree (ih (by omega))
    have hseen := stopSearch_isFirst g turns j
    cases hfind : stopListFindFrom g.stops (textOf g turns (j + 1)) (scanStart g turns j) with
    | none =>
      rw [hfind] at hsearch
      exact hsearch
    | some hit =>
      rw [hfind] at hseen
      exact absurd hseen.1 (h.noStop j hjk hit.1)

/-- Wherever a run comes, no stop was in the text before, and the search with the moving start
finds the first stop of all the text, if there is one. The texts of the tokens hold no NUL. -/
theorem stopSearch_isFullScan {g : DecodeInputs} {turns : Nat → Turn} {pos k : Nat} {s : LoopState}
    (hfree : ∀ i, NulFree (g.tokenText (turns i).token))
    (h : loopAt g turns { pos } k = some s) :
    (∀ j ≤ k, ∀ i, ¬ StopAt g.stops (textOf g turns j) i) ∧
      s.raw ++ g.tokenText (turns k).token = textOf g turns (k + 1) ∧
      IsFirst (StopAt g.stops (textOf g turns (k + 1)))
        ((stopListFindFrom g.stops (textOf g turns (k + 1)) s.stopScanFrom).map Prod.fst) := by
  obtain ⟨hreach, hraw, -, -, -, hscan⟩ := loopAt_reaches h
  refine ⟨hreach.clean hfree, by rw [hraw, textOf_succ], ?_⟩
  rw [hscan]
  exact stopSearch_resumes hfree (hreach.clean hfree k (Nat.le_refl k))

/-- A small request: tokens are byte values, 0 ends the turn and has no text. -/
def byteGeneration (stops : StopList) (maxTokens : Nat) : DecodeInputs where
  stops := stops
  maxTokens := maxTokens
  hasTools := false
  stream := false
  think := .none
  eos := 0
  imEnd := 0
  ctx := 100
  tokenText := fun t => if t = 0 then [] else [UInt8.ofNat t.toNat]

/-- The tokens of a text, then the end token. -/
def byteTurns (text : Bytes) (i : Nat) : Turn where
  token := (text.getD i 0).toNat

theorem byteTurns_nulFree (stops : StopList) (maxTokens : Nat) (text : Bytes) (i : Nat) :
    NulFree ((byteGeneration stops maxTokens).tokenText (byteTurns text i).token) := by
  intro hmem
  simp only [byteGeneration, byteTurns] at hmem
  split at hmem
  · simp at hmem
  next hne =>
    have hzero : (text.getD i 0) = 0 := by simpa [eq_comm] using hmem
    exact hne (by rw [hzero]; rfl)

theorem stopSearch_isFullScan_straddling :
    let g := byteGeneration ⟨[bytes "bc"], by decide⟩ 4
    let turns := byteTurns (bytes "abcd")
    stopListFindFrom g.stops (textOf g turns 3) 1 = some (1, 2) ∧
      IsFirst (StopAt g.stops (textOf g turns 3))
        ((stopListFindFrom g.stops (textOf g turns 3) 1).map Prod.fst) := by
  have hat : loopAt (byteGeneration ⟨[bytes "bc"], by decide⟩ 4) (byteTurns (bytes "abcd"))
      { pos := 1 } 2 =
        some { raw := bytes "ab", completionTokens := 2, stopScanFrom := 1, pos := 3 } := by
    decide
  exact ⟨by decide, (stopSearch_isFullScan (byteTurns_nulFree _ _ _) hat).2.2⟩

/-! ## The finish reason -/

theorem decodeTurns_at {g : DecodeInputs} {turns : Nat → Turn} {s₀ : LoopState} (n : Nat) {i : Nat}
    {s : LoopState} (h : loopAt g turns s₀ i = some s) :
    ∃ k r, i ≤ k ∧ loopAt g turns s₀ k = some r ∧
      ((k = i + n ∧ decodeTurns g turns n i s = (r, .tokensUsed)) ∨
        ∃ r' e, k < i + n ∧ decodeTurn g (turns k) r = (r', some e) ∧
          decodeTurns g turns n i s = (r', e)) := by
  induction n generalizing i s with
  | zero => exact ⟨i, s, Nat.le_refl i, h, .inl ⟨rfl, rfl⟩⟩
  | succ n ih =>
    rw [decodeTurns]
    generalize hturn : decodeTurn g (turns i) s = turned
    obtain ⟨s', _ | e⟩ := turned
    · have hnext : loopAt g turns s₀ (i + 1) = some s' := by rw [loopAt, h]; simp only [hturn]
      obtain ⟨k, r, hik, hr, hend⟩ := ih hnext
      rw [Nat.add_right_comm] at hend
      exact ⟨k, r, by omega, hr, hend⟩
    · exact ⟨i, s, Nat.le_refl i, h, .inr ⟨s', e, by omega, hturn, rfl⟩⟩

/-- Nothing fails in a turn. -/
structure Turn.Quiet (t : Turn) : Prop where
  shutdown : t.shutdown = false
  token : 0 ≤ t.token
  streamOk : t.streamOk = true
  evalOk : t.evalOk = true

/-- What ends a run in a turn without failures: after so many tokens, at an exit, with a
text. -/
inductive TurnEnds (g : DecodeInputs) (turns : Nat → Turn) (pos k : Nat) :
    Nat → LoopExit → Bytes → Prop where
  | endToken : EndToken g (turns k) → TurnEnds g turns pos k k .endToken (textOf g turns k)
  | stopString {p : Nat} : ¬ EndToken g (turns k) → IsFirst (StopSeen g turns k) (some p) →
      TurnEnds g turns pos k (k + 1) .stopString ((textOf g turns (k + 1)).take p)
  | contextFull : ¬ EndToken g (turns k) → (∀ p, ¬ StopSeen g turns k p) →
      g.ctx ≤ pos + k + 1 →
      TurnEnds g turns pos k (k + 1) .contextFull (textOf g turns (k + 1))

/-- Where a run without failures ends. -/
inductive RunEnds (g : DecodeInputs) (turns : Nat → Turn) (pos n : Nat) (T : Bytes) :
    LoopExit → Prop where
  | inTurn {k : Nat} {e : LoopExit} : k < g.maxTokens → Reaches g turns pos k →
      TurnEnds g turns pos k n e T → RunEnds g turns pos n T e
  | tokensUsed : n = g.maxTokens → T = textOf g turns n → Reaches g turns pos n →
      RunEnds g turns pos n T .tokensUsed

theorem Reaches.mono {g : DecodeInputs} {turns : Nat → Turn} {pos j k : Nat}
    (h : Reaches g turns pos k) (hjk : j ≤ k) : Reaches g turns pos j :=
  ⟨fun i hi => h.noEnd i (by omega), fun i hi => h.noStop i (by omega),
    fun i hi => h.room i (by omega)⟩

theorem TurnEnds.not_reaches {g : DecodeInputs} {turns : Nat → Turn} {pos k n : Nat}
    {e : LoopExit} {T : Bytes} (h : TurnEnds g turns pos k n e T) :
    ¬ Reaches g turns pos (k + 1) := by
  intro hreach
  have hk := Nat.lt_succ_self k
  cases h with
  | endToken hend => exact hreach.noEnd k hk hend
  | stopString _ hfirst => exact hreach.noStop k hk _ hfirst.1
  | contextFull _ _ hfull => exact absurd (hreach.room k hk) (by omega)

theorem TurnEnds.unique {g : DecodeInputs} {turns : Nat → Turn} {pos k n n' : Nat}
    {e e' : LoopExit} {T T' : Bytes} (h : TurnEnds g turns pos k n e T)
    (h' : TurnEnds g turns pos k n' e' T') : n = n' ∧ e = e' ∧ T = T' := by
  cases h with
  | endToken hend =>
    cases h' with
    | endToken _ => exact ⟨rfl, rfl, rfl⟩
    | stopString hno _ => exact absurd hend hno
    | contextFull hno _ _ => exact absurd hend hno
  | stopString hno hfirst =>
    cases h' with
    | endToken hend => exact absurd hend hno
    | stopString _ hfirst' =>
      obtain rfl := Option.some.inj (hfirst.unique hfirst')
      exact ⟨rfl, rfl, rfl⟩
    | contextFull _ hnone _ => exact absurd hfirst.1 (hnone _)
  | contextFull hno hnone _ =>
    cases h' with
    | endToken hend => exact absurd hend hno
    | stopString _ hfirst => exact absurd hfirst.1 (hnone _)
    | contextFull _ _ _ => exact ⟨rfl, rfl, rfl⟩

/-- The tokens leave no choice where a run ends. -/
theorem RunEnds.unique {g : DecodeInputs} {turns : Nat → Turn} {pos n n' : Nat}
    {e e' : LoopExit} {T T' : Bytes} (h : RunEnds g turns pos n T e)
    (h' : RunEnds g turns pos n' T' e') : n = n' ∧ e = e' ∧ T = T' := by
  -- the turn that ends the one is where the other comes to and not past
  have hsame : ∀ {k k' n e T}, TurnEnds g turns pos k n e T → Reaches g turns pos k' →
      k' ≤ k := fun h hreach =>
    Nat.le_of_not_lt fun hlt => h.not_reaches (hreach.mono hlt)
  cases h with
  | inTurn hk hreach hend =>
    cases h' with
    | inTurn hk' hreach' hend' =>
      obtain rfl := Nat.le_antisymm (hsame hend' hreach) (hsame hend hreach')
      exact hend.unique hend'
    | tokensUsed hn hT hreach' =>
      have := hsame hend hreach'
      omega
  | tokensUsed hn hT hreach =>
    cases h' with
    | inTurn hk' hreach' hend' =>
      have := hsame hend' hreach
      omega
    | tokensUsed hn' hT' hreach' =>
      obtain rfl := hn.trans hn'.symm
      exact ⟨rfl, rfl, hT.trans hT'.symm⟩

/-- The finish reason the loop is left with. -/
def exitFinish : LoopExit → Finish
  | .contextFull => .length
  | _ => .stop

theorem takeToken_outcome {g : DecodeInputs} {t : Turn} {s s' : LoopState} {e : LoopExit}
    (htools : g.hasTools = false) (ht : t.Quiet) (h : takeToken g t s = (s', some e)) :
    s'.completionTokens = s.completionTokens + 1 ∧ s'.finish = exitFinish e ∧
      ((e = .stopString ∧ ∃ hit, stopListFindFrom g.stops (s.raw ++ g.tokenText t.token)
          s.stopScanFrom = some hit ∧ s'.raw = (s.raw ++ g.tokenText t.token).take hit.1) ∨
        (e = .contextFull ∧ stopListFindFrom g.stops (s.raw ++ g.tokenText t.token)
          s.stopScanFrom = none ∧ g.ctx ≤ s.pos + 1 ∧ s'.raw = s.raw ++ g.tokenText t.token)) := by
  rw [takeToken] at h
  dsimp only at h
  rw [if_neg (by simp [ht.streamOk])] at h
  split at h
  next hfind =>
    obtain ⟨rfl, he⟩ := Prod.mk.inj h
    obtain rfl := Option.some.inj he
    exact ⟨rfl, rfl, .inl ⟨rfl, _, hfind, rfl⟩⟩
  next hfind =>
    rw [observeTools, if_pos (Or.inl (by simp [htools])), evalToken,
      if_neg (by simp [ht.evalOk])] at h
    dsimp only at h
    rw [if_neg (by simp)] at h
    split at h
    next hfull =>
      obtain ⟨rfl, he⟩ := Prod.mk.inj h
      obtain rfl := Option.some.inj he
      exact ⟨rfl, rfl, .inr ⟨rfl, hfind, hfull, rfl⟩⟩
    · nomatch h

/-- A run without failures ends where its tokens say. -/
theorem decodeRun_ends {g : DecodeInputs} {turns : Nat → Turn} (htools : g.hasTools = false)
    (hquiet : ∀ i, (turns i).Quiet) (pos : Nat) :
    RunEnds g turns pos (decodeRun g turns pos).1.completionTokens
        (decodeRun g turns pos).1.raw (decodeRun g turns pos).2 ∧
      (decodeRun g turns pos).1.finish = exitFinish (decodeRun g turns pos).2 := by
  have hstart : loopAt g turns { pos } 0 = some { pos } := rfl
  obtain ⟨k, s, -, hs, hend⟩ := decodeTurns_at g.maxTokens hstart
  obtain ⟨hreach, hraw, hcount, hpos, hfinish, hscan⟩ := loopAt_reaches hs
  rw [Nat.zero_add] at hend
  rcases hend with ⟨rfl, hrun⟩ | ⟨s', e, hk, hturn, hrun⟩
  · rw [decodeRun, hrun]
    dsimp only
    rw [hcount, hraw]
    exact ⟨.tokensUsed rfl rfl hreach, hfinish⟩
  · rw [decodeRun, hrun]
    dsimp only
    rw [decodeTurn, if_neg (by simp [(hquiet k).shutdown]),
      if_neg (Int.not_lt.mpr (hquiet k).token)] at hturn
    split at hturn
    next htoken =>
      obtain ⟨rfl, he⟩ := Prod.mk.inj hturn
      obtain rfl := Option.some.inj he
      dsimp only
      rw [hcount, hraw]
      exact ⟨.inTurn hk hreach (.endToken htoken), rfl⟩
    next htoken =>
      obtain ⟨hnum, hfin, hexit⟩ := takeToken_outcome htools (hquiet k) hturn
      have hsearch := stopSearch_isFirst g turns k
      rw [textOf_succ, ← hraw, ← hscan] at hsearch
      refine ⟨?_, hfin⟩
      rw [hnum, hcount]
      rcases hexit with ⟨rfl, hit, hfind, htext⟩ | ⟨rfl, hfind, hfull, htext⟩
      · rw [hfind] at hsearch
        rw [htext, hraw, ← textOf_succ]
        exact .inTurn hk hreach (.stopString htoken hsearch)
      · rw [hfind] at hsearch
        rw [htext, hraw, ← textOf_succ]
        exact .inTurn hk hreach (.contextFull htoken hsearch (by omega))

/-- How an API says that a text was cut. -/
def lengthReason : ApiStyle → ReportedFinish
  | .responses => .status .incomplete
  | .anthropic => .stopReason .maxTokens
  | _ => .finishReason .length

/-- How an API says that a text came to its end. -/
def stopReason : ApiStyle → ReportedFinish
  | .responses => .status .completed
  | .anthropic => .stopReason .endTurn
  | _ => .finishReason .stop

/-- The reason reported is the one the loop ended with: the length where the tokens or the
context ran out, the stop where an end token or a stop string came. -/
def Truthful (api : ApiStyle) (r : Option ReportedFinish) (e : LoopExit) : Prop :=
  (r = some (lengthReason api) ↔ e = .tokensUsed ∨ e = .contextFull) ∧
    (r = some (stopReason api) ↔ e = .endToken ∨ e = .stopString)

/-- The last token allowed completes a stop string, and nothing ends the run before. -/
def StopOnLastToken (g : DecodeInputs) (turns : Nat → Turn) (pos : Nat) : Prop :=
  ∃ T, RunEnds g turns pos g.maxTokens T .stopString

/-- The run leaves a text with calls, and the API reports calls in its place: the Messages API
always, the Chat and Completions APIs unless the text was cut. -/
def CallsReported (api : ApiStyle) (g : DecodeInputs) (turns : Nat → Turn) (pos : Nat) : Prop :=
  ∃ n T e, RunEnds g turns pos n T e ∧ HasCalls g.think (cstr T) ∧
    (api = .anthropic ∨ (api ≠ .responses ∧ (e = .endToken ∨ e = .stopString)))

theorem settleFinish_quiet {g : DecodeInputs} (htools : g.hasTools = false) (s : LoopState) :
    settleFinish g false s = overrideFinish g s := by
  simp [settleFinish, repairFinish, htools]

theorem RunEnds.exits {g : DecodeInputs} {turns : Nat → Turn} {pos n : Nat} {T : Bytes}
    {e : LoopExit} (h : RunEnds g turns pos n T e) :
    e = .tokensUsed ∨ e = .contextFull ∨ e = .endToken ∨ e = .stopString := by
  cases h with
  | tokensUsed _ _ _ => simp
  | inTurn _ _ hend => cases hend <;> simp

/-- Where the count makes a stop a cut: the tokens ran out, or a stop string came with the
last of them. -/
theorem RunEnds.cut_iff {g : DecodeInputs} {turns : Nat → Turn} {pos n : Nat} {T : Bytes}
    {e : LoopExit} (h : RunEnds g turns pos n T e) :
    (g.maxTokens ≤ n ∧ exitFinish e = .stop) ↔
      e = .tokensUsed ∨ (e = .stopString ∧ n = g.maxTokens) := by
  cases h with
  | tokensUsed hn _ _ => simp [exitFinish, hn]
  | inTurn hk _ hend =>
    cases hend with
    | endToken _ => simp [exitFinish, hk]
    | stopString _ _ =>
      simp only [exitFinish, and_true, true_and, reduceCtorEq, false_or]
      omega
    | contextFull _ _ _ => simp [exitFinish]

theorem settleFinish_ends {g : DecodeInputs} {turns : Nat → Turn} {pos : Nat} {s : LoopState}
    {e : LoopExit} (htools : g.hasTools = false) (hmax : 0 < g.maxTokens)
    (h : RunEnds g turns pos s.completionTokens s.raw e) (hfin : s.finish = exitFinish e) :
    (settleFinish g false s).raw = s.raw ∧ (settleFinish g false s).finish =
      if e = .tokensUsed ∨ (e = .stopString ∧ s.completionTokens = g.maxTokens) then .length
      else exitFinish e := by
  rw [settleFinish_quiet htools]
  have hcut := h.cut_iff
  rw [← hfin] at hcut
  unfold overrideFinish
  split
  next hover => rw [if_pos (hcut.mp ⟨hover.1, hover.2.2⟩)]; exact ⟨rfl, rfl⟩
  next hover =>
    rw [if_neg fun hc => hover ⟨(hcut.mpr hc).1, hmax, (hcut.mpr hc).2⟩]
    exact ⟨rfl, hfin⟩

/-- A cut text is reported as cut, but by the Messages API as calls if it has any. -/
theorem reportedFinish_length (api : ApiStyle) {raw : Bytes} {think : ThinkMode} :
    (reportedFinish api (finalResponse raw think .length) = lengthReason api ↔
        ¬ (api = .anthropic ∧ HasCalls think (cstr raw))) ∧
      reportedFinish api (finalResponse raw think .length) ≠ stopReason api := by
  obtain ⟨hcalls, hwire⟩ := finalResponse_calls raw think (Or.inr rfl)
  have hfinish : (finalResponse raw think .length).finish =
      openaiFinishForCalls (finalResponse raw think .length).wireFinish
        (finalResponse raw think .length).calls := rfl
  rw [← hcalls]
  simp only [ne_eq, not_true_eq_false, and_false, if_false] at hwire
  have hkeep : openaiFinishForCalls .length (finalResponse raw think .length).calls = .length := by
    simp [openaiFinishForCalls]
  rw [hwire, hkeep] at hfinish
  by_cases hc : (finalResponse raw think .length).calls = [] <;>
    cases api <;> simp [reportedFinish, lengthReason, stopReason, hwire, hfinish, hc,
      responseStatusForFinish, anthropicStopReason]

/-- A text that came to its end is reported so, unless it has calls that the API reports. -/
theorem reportedFinish_stop (api : ApiStyle) {raw : Bytes} {think : ThinkMode} :
    (reportedFinish api (finalResponse raw think .stop) = stopReason api ↔
        api = .responses ∨ ¬ HasCalls think (cstr raw)) ∧
      reportedFinish api (finalResponse raw think .stop) ≠ lengthReason api := by
  obtain ⟨hcalls, hwire⟩ := finalResponse_calls raw think (Or.inl rfl)
  have hfinish : (finalResponse raw think .stop).finish =
      openaiFinishForCalls (finalResponse raw think .stop).wireFinish
        (finalResponse raw think .stop).calls := rfl
  rw [← hcalls]
  by_cases hc : (finalResponse raw think .stop).calls = []
  · simp only [hc, ne_eq, not_true_eq_false, false_and, if_false] at hwire
    rw [hwire, hc, openaiFinish_noCalls] at hfinish
    cases api <;> simp [reportedFinish, lengthReason, stopReason, hwire, hfinish, hc,
      responseStatusForFinish, anthropicStopReason]
  · simp only [hc, ne_eq, not_false_eq_true, reduceCtorEq, and_self, if_true] at hwire
    have hkeep : openaiFinishForCalls .toolCalls (finalResponse raw think .stop).calls =
        .toolCalls := by simp [openaiFinishForCalls]
    rw [hwire, hkeep] at hfinish
    cases api <;> simp [reportedFinish, lengthReason, stopReason, hwire, hfinish, hc,
      responseStatusForFinish, anthropicStopReason]

/-- Where nothing fails, the reason that is reported is the one the loop ended with, except
where a stop is found at the last token allowed, which is reported as a cut, and where calls
are reported that the text left behind happens to have. -/
theorem finish_truthful_iff {g : DecodeInputs} {turns : Nat → Turn} (api : ApiStyle)
    (htools : g.hasTools = false) (hquiet : ∀ i, (turns i).Quiet) (hmax : 0 < g.maxTokens)
    (pos : Nat) :
    Truthful api (runFinish api g false (decodeRun g turns pos).1) (decodeRun g turns pos).2 ↔
      ¬ StopOnLastToken g turns pos ∧ ¬ CallsReported api g turns pos := by
  obtain ⟨hends, hfin⟩ := decodeRun_ends htools hquiet pos
  generalize (decodeRun g turns pos).1 = s at hends hfin ⊢
  generalize (decodeRun g turns pos).2 = e at hends hfin ⊢
  have hlast : StopOnLastToken g turns pos ↔
      e = .stopString ∧ s.completionTokens = g.maxTokens := by
    constructor
    · rintro ⟨T, h⟩
      obtain ⟨hn, he, -⟩ := hends.unique h
      exact ⟨he, hn⟩
    · rintro ⟨rfl, hn⟩
      exact ⟨s.raw, hn ▸ hends⟩
  have hcalls : CallsReported api g turns pos ↔ HasCalls g.think (cstr s.raw) ∧
      (api = .anthropic ∨ (api ≠ .responses ∧ (e = .endToken ∨ e = .stopString))) := by
    constructor
    · rintro ⟨n, T, e', h, hhas⟩
      obtain ⟨-, rfl, rfl⟩ := hends.unique h
      exact hhas
    · exact fun h => ⟨_, _, _, hends, h⟩
  obtain ⟨hraw, hset⟩ := settleFinish_ends htools hmax hends hfin
  have hrun : runFinish api g false s =
      some (reportedFinish api (finalResponse s.raw g.think (settleFinish g false s).finish)) := by
    have hne : (settleFinish g false s).finish ≠ .error := by
      rw [hset]
      split
      · simp
      · cases e <;> simp [exitFinish]
    rw [runFinish]
    simp only [if_neg hne, hraw]
  rw [hlast, hcalls, hrun, hset, Truthful, Option.some.injEq, Option.some.injEq]
  obtain ⟨hlenL, hlenS⟩ := @reportedFinish_length api s.raw g.think
  obtain ⟨hstopS, hstopL⟩ := @reportedFinish_stop api s.raw g.think
  generalize HasCalls g.think (cstr s.raw) = has at hlenL hstopS ⊢
  obtain rfl | rfl | rfl | rfl := hends.exits
  · rw [if_pos (Or.inl rfl), hlenL]
    cases api <;> simp [hlenS]
  · rw [if_neg (by simp), exitFinish, hlenL]
    cases api <;> simp [hlenS]
  · rw [if_neg (by simp)]
    simp only [exitFinish, hstopS, hstopL]
    cases api <;> simp
  · by_cases hn : s.completionTokens = g.maxTokens
    · rw [if_pos (Or.inr ⟨rfl, hn⟩)]
      simp only [hlenS, hn]
      simp
    · rw [if_neg (by simp [hn])]
      simp only [exitFinish, hstopS, hstopL]
      cases api <;> simp [hn]

theorem byteTurns_quiet (text : Bytes) (i : Nat) : (byteTurns text i).Quiet :=
  ⟨rfl, Int.natCast_nonneg _, rfl, rfl⟩

/-- A stop string with the second of three tokens; and a stop string with the last of two,
which a NUL in the first hides from the search. -/
theorem finish_truthful_iff_stop :
    let g := byteGeneration ⟨[bytes "b"], by decide⟩
    let hidden : Nat → Turn := fun i => { token := [0x100, 0x62].getD i 0 }
    (Truthful .openai (runFinish .openai (g 3) false (decodeRun (g 3) (byteTurns (bytes "abc")) 1).1)
        (decodeRun (g 3) (byteTurns (bytes "abc")) 1).2 ↔
      ¬ StopOnLastToken (g 3) (byteTurns (bytes "abc")) 1 ∧
        ¬ CallsReported .openai (g 3) (byteTurns (bytes "abc")) 1) ∧
    textOf (g 2) hidden 2 = [0, 0x62] ∧ ¬ StopOnLastToken (g 2) hidden 1 := by
  intro g hidden
  have hquiet : ∀ i, (hidden i).Quiet := fun i => by
    rcases i with _ | _ | i
    · exact ⟨rfl, by decide, rfl, rfl⟩
    · exact ⟨rfl, by decide, rfl, rfl⟩
    · exact ⟨rfl, Int.le_refl 0, rfl, rfl⟩
  refine ⟨finish_truthful_iff .openai rfl (byteTurns_quiet _) (by decide) 1, by decide, ?_⟩
  have htruth : Truthful .openai (runFinish .openai (g 2) false (decodeRun (g 2) hidden 1).1)
      (decodeRun (g 2) hidden 1).2 := ⟨by decide, by decide⟩
  exact ((finish_truthful_iff .openai rfl hquiet (by decide) 1).mp htruth).1

/-- The stop comes with the last token: the run is reported as cut. A text with a block ends
at an end token: the run is reported as one that calls tools. -/
theorem finish_not_truthful :
    (let g := byteGeneration ⟨[bytes "b"], by decide⟩ 2
      let run := decodeRun g (byteTurns (bytes "ab")) 1
      run.2 = .stopString ∧
        runFinish .openai g false run.1 = some (.finishReason .length) ∧
        ¬ Truthful .openai (runFinish .openai g false run.1) run.2) ∧
    (let g := { byteGeneration ⟨[], by decide⟩ 2 with
        tokenText := fun _ => bytes "<tool_call>\n<function=f>\n</function>\n</tool_call>" }
      let run := decodeRun g (byteTurns [1]) 1
      run.2 = .endToken ∧
        runFinish .openai g false run.1 = some (.finishReason .toolCalls) ∧
        ¬ Truthful .openai (runFinish .openai g false run.1) run.2) := by
  refine ⟨⟨by decide, by decide, fun h => ?_⟩, by decide, by decide, fun h => ?_⟩
  · exact absurd (h.1.mp (by decide)) (by decide)
  · exact absurd (h.2.mpr (by decide)) (by decide)

end Sf37.Server

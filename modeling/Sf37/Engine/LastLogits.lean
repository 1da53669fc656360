/-
Sf37.Engine.LastLogits — whose logits the host has after a sync.

A sync evaluates nothing when the prompt is what the session has, and then the host's
logits are those of an earlier call: the last token may have come in without logits, or
the session may have been cut short. `LogitsWorld` remembers the tokens for which the
host's logits were computed.

* `LogitsWorld.Inv.step`: what is remembered is right.
* `sync_lastLogits`: in a run where no sync finds its prompt in the session with other
  logits, the logits after a sync are those of the prompt's last token.
-/
import Sf37.Engine.Checkpoints
import Sf37.Engine.SavedFiles

namespace Sf37.Engine

open Sf37.Text Sf37.Store Sf37.Run
open Sf37.Server (Token Tokens ImageSignature)

/-! ## Whose logits -/

/-- The session, and the tokens for which the logits of the host were computed. -/
structure LogitsWorld where
  session : Session
  logitsFor : Option Tokens

/-- A call, and of a load the tokens for which the logits in the file were computed. -/
structure LogitsEvent where
  call : SessionEvent
  fileFor : Option Tokens

/-- After a load: those of the file, or the ones of before where they still stand. -/
def afterLogitsLoad (w : LogitsWorld) (fileFor : Option Tokens) (r : Session × Option String) :
    Option Tokens :=
  if r.2 = none then fileFor else if r.1.logits = w.session.logits then w.logitsFor else none

/-- The tokens for which the logits of the host were computed, after a call. -/
def logitsForAfter (e : Setup) (w : LogitsWorld) (ev : LogitsEvent) : Option Tokens :=
  let s := w.session
  match ev.call with
  | .eval token vals needLogits fault =>
      if (sessionEvalInternal e.dev s token vals needLogits fault).2 ∧ needLogits then
        some (s.checkpoint ++ [token])
      else w.logitsFor
  | .evalArgmax token vals fault path =>
      if (sessionEvalArgmax e.dev s token vals fault path).2 ∧ ¬ (e.dev.cuda ∧ path = .device) then
        some (s.checkpoint ++ [token])
      else w.logitsFor
  | .sync env vals prompt features =>
      let r := sessionSync e.dev e.imPatch env vals s prompt features
      if 0 < r.evaluated ∧ r.session.checkpoint.length = prompt.length then some prompt
      else w.logitsFor
  | .loadPayload gpu data payloadBytes =>
      afterLogitsLoad w ev.fileFor (sessionLoadPayload e.dev e.codec gpu s data payloadBytes)
  | .loadSnapshot gpu snap => afterLogitsLoad w ev.fileFor (sessionLoadSnapshot e.dev gpu s snap)
  | .rewind _ | .save | .output _ | .noteImages _ _ => w.logitsFor

/-- The world after a call. -/
def LogitsWorld.step (e : Setup) (w : LogitsWorld) (ev : LogitsEvent) : LogitsWorld :=
  ⟨e.apply w.session ev.call, logitsForAfter e w ev⟩

/-- A file that some session of the model saved, whose logits were those of some tokens. -/
def SavedWith (logitsOf : Tokens → Block logitsBytes) (save : Device → Session → Option Bytes)
    (file : Bytes) (fileFor : Option Tokens) : Prop :=
  ∃ dev s, s.checkpoint.length ≤ dev.ctxSize ∧ save dev s = some file ∧
    ∀ ts, fileFor = some ts → s.logits = logitsOf ts

/-- The calls of a run: without images, in which the logits are a function of the tokens,
and a file that is loaded is one that was saved. -/
def LogitsCall (e : Setup) (logitsOf : Tokens → Block logitsBytes) (w : LogitsWorld)
    (ev : LogitsEvent) : Prop :=
  match ev.call with
  | .eval token vals _ _ | .evalArgmax token vals _ _ =>
      vals.logits = logitsOf (w.session.checkpoint ++ [token])
  | .sync _ vals prompt features =>
      features = none ∧ ∀ i < prompt.length, (vals i).logits = logitsOf (prompt.take (i + 1))
  | .rewind _ | .save => True
  | .loadPayload gpu data payloadBytes =>
      (sessionLoadPayload e.dev e.codec gpu w.session data payloadBytes).2 = none →
        ∃ file rest, data = file ++ rest ∧
          SavedWith logitsOf (fun dev s => sessionSavePayload dev e.codec s) file ev.fileFor
  | .loadSnapshot gpu snap =>
      (sessionLoadSnapshot e.dev gpu w.session snap).2 = none →
        ∃ cap, SavedWith logitsOf (fun dev s => sessionSaveSnapshot dev cap s) snap ev.fileFor
  | .output _ | .noteImages _ _ => False

/-- A sync that finds its prompt in the session finds the logits of its last token there. -/
def FindsLogits (w : LogitsWorld) (ev : LogitsEvent) : Prop :=
  match ev.call with
  | .sync _ _ prompt _ =>
      prompt ≠ [] → w.session.checkpointValid = true → w.session.checkpoint = prompt →
        w.logitsFor = some prompt
  | _ => True

/-! ## The invariant -/

/-- What is remembered is right. -/
def LogitsWorld.Inv (logitsOf : Tokens → Block logitsBytes) (w : LogitsWorld) : Prop :=
  ∀ ts, w.logitsFor = some ts → w.session.logits = logitsOf ts

variable {e : Setup} {logitsOf : Tokens → Block logitsBytes} {w : LogitsWorld}

theorem evalInternal_logits (dev : Device) (s : Session) (token : Token) (vals : StepValues)
    (needLogits : Bool) (fault : Option EvalFault) :
    (sessionEvalInternal dev s token vals needLogits fault).1.logits =
      if (sessionEvalInternal dev s token vals needLogits fault).2 ∧ needLogits then vals.logits
      else s.logits := by
  rcases evalInternal_cases dev s token vals needLogits fault with
    ⟨-, -, heq⟩ | heq | ⟨-, -, stored, heq⟩ <;> rw [heq]
  · show (if needLogits then vals.logits else s.logits) = _
    simp only [true_and]
  · rfl
  · rfl

theorem evalArgmax_logits (dev : Device) (s : Session) (token : Token) (vals : StepValues)
    (fault : Option EvalFault) (path : ArgmaxPath) :
    (sessionEvalArgmax dev s token vals fault path).1.logits =
      if (sessionEvalArgmax dev s token vals fault path).2 ∧ ¬ (dev.cuda ∧ path = .device) then
        vals.logits
      else s.logits := by
  have hstep : (sessionEvalInternal dev s token vals false fault).1.logits = s.logits := by
    rw [evalInternal_logits]
    simp
  rcases evalArgmax_cases dev s token vals fault path with
    ⟨hno, heq⟩ | ⟨-, ⟨hcuda, hpath, heq⟩ | ⟨-, -, heq⟩ | ⟨hdev, heq⟩⟩
  · rw [heq, hno, hstep]
    rfl
  · rw [heq, hstep, if_neg fun h => h.2 ⟨hcuda, hpath⟩]
  · rw [heq]
    exact hstep
  · rw [heq, if_pos ⟨rfl, hdev⟩]

theorem sync_evaluated_le (dev : Device) (imPatch : Option Token) (env : SyncEnv)
    (vals : Nat → StepValues) (s : Session) (prompt : Tokens) (features : Option ImageFeatures) :
    (sessionSync dev imPatch env vals s prompt features).evaluated ≤ prompt.length := by
  rcases sync_cases dev imPatch env vals s prompt features with
    ⟨-, hr⟩ | ⟨sig, m, s', -, -, ⟨torn, hp, -⟩, hev, -⟩
  · rw [hr]
    exact Nat.zero_le _
  · have := hp.le_length
    omega

/-- A sync reads the logits of the last token where it evaluates that, and no others. -/
theorem sync_logits (dev : Device) (imPatch : Option Token) (env : SyncEnv)
    (vals : Nat → StepValues) (s : Session) (prompt : Tokens) (features : Option ImageFeatures) :
    (sessionSync dev imPatch env vals s prompt features).session.logits =
      if 0 < (sessionSync dev imPatch env vals s prompt features).evaluated ∧
          (sessionSync dev imPatch env vals s prompt features).session.checkpoint.length =
            prompt.length then (vals (prompt.length - 1)).logits
      else s.logits := by
  rcases sync_cases dev imPatch env vals s prompt features with
    ⟨-, hr⟩ | ⟨sig, m, s', -, -, ⟨torn, hp, -⟩, hev, hres⟩
  · rw [hr]
    simp
  · have hbase : (syncBase dev s prompt sig).1.logits = s.logits := by
      obtain ⟨-, -, -, hreset | ⟨-, -, -, -, heq⟩⟩ := syncBase_spec dev s prompt sig
      · rw [hreset]
        rfl
      · rw [heq]
        dsimp only
        split <;> rfl
    have hlen := hp.length (syncBase_spec dev s prompt sig).1
    have hsess : (sessionSync dev imPatch env vals s prompt features).session.logits = s'.logits ∧
        (sessionSync dev imPatch env vals s prompt features).session.checkpoint = s'.checkpoint := by
      rcases hres with ⟨-, heq⟩ | ⟨-, -, -, -, heq⟩
      · rw [heq]
        exact ⟨rfl, rfl⟩
      · rw [heq]
        exact ⟨noteSignature_logits s' sig, noteSignature_checkpoint s' sig⟩
    rw [hsess.1, hsess.2, hp.logits, hbase, hev, hlen]
    by_cases hend : m = prompt.length ∧ (syncBase dev s prompt sig).2 < m
    · rw [if_pos hend, if_pos ⟨by omega, hend.1⟩]
    · rw [if_neg hend, if_neg fun h => hend ⟨h.2, by omega⟩]

/-- What is remembered stays right. -/
theorem LogitsWorld.Inv.step (h : w.Inv logitsOf) (ev : LogitsEvent)
    (hcall : LogitsCall e logitsOf w ev) : (w.step e ev).Inv logitsOf := by
  obtain ⟨call, fileFor⟩ := ev
  intro ts hts
  cases call with
  | eval token vals needLogits fault =>
    show (sessionEvalInternal e.dev w.session token vals needLogits fault).1.logits = _
    have hfor : (if _ ∧ _ then some (w.session.checkpoint ++ [token]) else w.logitsFor) = some ts := hts
    rw [evalInternal_logits]
    split at hfor
    next hread =>
      rw [if_pos hread, ← Option.some.inj hfor]
      exact hcall
    next hread =>
      rw [if_neg hread]
      exact h ts hfor
  | evalArgmax token vals fault path =>
    show (sessionEvalArgmax e.dev w.session token vals fault path).1.logits = _
    have hfor : (if _ ∧ _ then some (w.session.checkpoint ++ [token]) else w.logitsFor) = some ts := hts
    rw [evalArgmax_logits]
    split at hfor
    next hread =>
      rw [if_pos hread, ← Option.some.inj hfor]
      exact hcall
    next hread =>
      rw [if_neg hread]
      exact h ts hfor
  | sync env vals prompt features =>
    show (sessionSync e.dev e.imPatch env vals w.session prompt features).session.logits = _
    have hfor : (if _ ∧ _ then some prompt else w.logitsFor) = some ts := hts
    rw [sync_logits]
    split at hfor
    next hread =>
      have hpos := sync_evaluated_le e.dev e.imPatch env vals w.session prompt features
      have hpos : 0 < prompt.length := by omega
      have hlast := hcall.2 (prompt.length - 1) (by omega)
      rw [if_pos hread, ← Option.some.inj hfor, hlast]
      rw [Nat.sub_add_cancel hpos, List.take_length]
    next hread =>
      rw [if_neg hread]
      exact h ts hfor
  | rewind pos => exact h ts hts
  | save => exact h ts hts
  | loadPayload gpu data payloadBytes =>
    show (sessionLoadPayload e.dev e.codec gpu w.session data payloadBytes).1.logits = _
    have hfor : (if _ then fileFor else if _ then w.logitsFor else none) = some ts := hts
    split at hfor
    next hok =>
      obtain ⟨file, rest, rfl, dev, s, hlen, hsave, hlogits⟩ := hcall hok
      rw [payload_logits hlen hsave hok]
      exact hlogits ts hfor
    next hno =>
      split at hfor
      next hsame =>
        rw [hsame]
        exact h ts hfor
      · nomatch hfor
  | loadSnapshot gpu snap =>
    show (sessionLoadSnapshot e.dev gpu w.session snap).1.logits = _
    have hfor : (if _ then fileFor else if _ then w.logitsFor else none) = some ts := hts
    split at hfor
    next hok =>
      obtain ⟨cap, dev, s, hlen, hsave, hlogits⟩ := hcall hok
      rw [snapshot_logits hlen hsave hok]
      exact hlogits ts hfor
    next hno =>
      split at hfor
      next hsame =>
        rw [hsame]
        exact h ts hfor
      · nomatch hfor
  | output effect => exact absurd hcall not_false
  | noteImages prompt features => exact absurd hcall not_false

/-! ## The logits after a sync -/

/-- A session that was just created, whose logits were computed for nothing. -/
def LogitsWorld.Start (w : LogitsWorld) : Prop := Created w.session ∧ w.logitsFor = none

/-- The worlds of runs in which no sync finds its prompt in the session with the logits of
something else. -/
def LogitsReachable (e : Setup) (logitsOf : Tokens → Block logitsBytes) : LogitsWorld → Prop :=
  Comes (LogitsWorld.step e) LogitsWorld.Start fun w ev =>
    LogitsCall e logitsOf w ev ∧ FindsLogits w ev

theorem LogitsReachable.inv (h : LogitsReachable e logitsOf w) : w.Inv logitsOf := by
  refine Comes.invariant (fun w hw ts hts => ?_) (fun w ev hw hg => hw.step ev hg.1) h
  rw [hw.2] at hts
  nomatch hts

/-- A sync that evaluates nothing found its prompt in the session. -/
theorem sync_found {dev : Device} {imPatch : Option Token} {env : SyncEnv}
    {vals : Nat → StepValues} {s : Session} {prompt : Tokens} {features : Option ImageFeatures}
    (hne : prompt ≠ []) (hok : (sessionSync dev imPatch env vals s prompt features).ok = true) :
    (sessionSync dev imPatch env vals s prompt features).session.checkpoint.length =
        prompt.length ∧
      ((sessionSync dev imPatch env vals s prompt features).evaluated = 0 →
        s.checkpointValid = true ∧ s.checkpoint = prompt) := by
  have hpos : 0 < prompt.length := List.length_pos_of_ne_nil hne
  rcases sync_cases dev imPatch env vals s prompt features with
    ⟨-, hr⟩ | ⟨sig, m, s', -, -, -, hev, ⟨hno, -⟩ | ⟨-, hm, hp, -, heq⟩⟩
  · rw [hr] at hok
    nomatch hok
  · rw [hno] at hok
    nomatch hok
  · obtain ⟨hblen, -, -, hcases⟩ := syncBase_spec dev s prompt sig
    have hlen := hp.length hblen
    rw [heq, noteSignature_checkpoint]
    refine ⟨hlen.trans hm, fun hzero => ?_⟩
    rcases hcases with hreset | ⟨-, hvalid, -, hbegins, hbase⟩
    · rw [hreset] at hev
      dsimp only at hev
      omega
    · rw [hbase] at hev
      dsimp only at hev
      have hle := hbegins.length_le
      exact ⟨hvalid, hbegins.eq_of_length (by omega)⟩

/-- In such a run the logits after a successful sync are those of the prompt's last
token. -/
theorem sync_lastLogits (h : LogitsReachable e logitsOf w) {env : SyncEnv}
    {vals : Nat → StepValues} {prompt : Tokens}
    (hvals : ∀ i < prompt.length, (vals i).logits = logitsOf (prompt.take (i + 1)))
    (hfinds : FindsLogits w ⟨.sync env vals prompt none, none⟩) (hne : prompt ≠ [])
    (hok : (sessionSync e.dev e.imPatch env vals w.session prompt none).ok = true) :
    (sessionSync e.dev e.imPatch env vals w.session prompt none).session.logits =
      logitsOf prompt := by
  have hpos : 0 < prompt.length := List.length_pos_of_ne_nil hne
  obtain ⟨hlen, hfound⟩ := sync_found hne hok
  have hlast := hvals (prompt.length - 1) (by omega)
  rw [Nat.sub_add_cancel hpos, List.take_length] at hlast
  rw [sync_logits]
  split
  · exact hlast
  next hno =>
    obtain ⟨hvalid, heq⟩ := hfound (by
      by_contra hz
      exact hno ⟨by omega, hlen⟩)
    exact h.inv prompt (hfinds hne hvalid heq)

/-- Logits that count the tokens. -/
def countLogits (tokens : Tokens) : Block logitsBytes := Block.fit _ [UInt8.ofNat tokens.length]

/-- The values of a prompt, whose logits count the tokens. -/
def countVals (prompt : Tokens) (i : Nat) : StepValues :=
  { StepValues.zero with logits := countLogits (prompt.take (i + 1)) }

/-- A sync that brings in one token. -/
def firstSync : LogitsEvent := ⟨.sync .quiet (countVals [1]) [1] none, none⟩

/-- One that brings in a second. -/
def secondSync : LogitsEvent := ⟨.sync .quiet (countVals [1, 2]) [1, 2] none, none⟩

/-- The session of both. -/
def appendedWorld : LogitsWorld :=
  LogitsWorld.step cpuSetup (LogitsWorld.step cpuSetup ⟨.ofTokens [], none⟩ firstSync) secondSync

/-- A sync with the tokens that the session has evaluates nothing and finds the logits. -/
theorem sync_lastLogits_again :
    (sessionSync cpuDevice none .quiet (countVals [1, 2]) appendedWorld.session [1, 2] none).evaluated
        = 0 ∧
      (sessionSync cpuDevice none .quiet (countVals [1, 2]) appendedWorld.session [1, 2]
        none).session.logits = countLogits [1, 2] := by
  have hreached : LogitsReachable cpuSetup countLogits appendedWorld :=
    .step (.step (.start ⟨created_ofTokens, rfl⟩) firstSync
        ⟨⟨rfl, fun _ _ => rfl⟩, fun _ _ h => absurd h (by decide)⟩)
      secondSync ⟨⟨rfl, fun _ _ => rfl⟩, fun _ _ h => absurd h (by decide)⟩
  exact ⟨by decide, sync_lastLogits hreached (fun _ _ => rfl) (fun _ _ _ => by decide) (by decide)
    (by decide)⟩

/-- A second token without logits. -/
def secondNoLogits : LogitsEvent :=
  ⟨.eval 2 (countVals [1, 2] 1) false none, none⟩

/-- The session of two tokens, whose logits are those of the first. -/
def behindWorld : LogitsWorld :=
  LogitsWorld.step cpuSetup (LogitsWorld.step cpuSetup ⟨.ofTokens [], none⟩ firstSync) secondNoLogits

/-- A sync with the two tokens succeeds, and the logits are those of the first. -/
theorem not_lastLogits_noLogits :
    Comes (LogitsWorld.step cpuSetup) LogitsWorld.Start (LogitsCall cpuSetup countLogits)
        behindWorld ∧
      (sessionSync cpuDevice none .quiet (countVals [1, 2]) behindWorld.session [1, 2] none).ok =
        true ∧
      (sessionSync cpuDevice none .quiet (countVals [1, 2]) behindWorld.session [1, 2]
        none).session.logits ≠ countLogits [1, 2] := by
  refine ⟨.step (.step (.start ⟨created_ofTokens, rfl⟩) firstSync ⟨rfl, fun _ _ => rfl⟩)
    secondNoLogits rfl, by decide, fun heq => ?_⟩
  have hlogits : (sessionSync cpuDevice none .quiet (countVals [1, 2]) behindWorld.session [1, 2]
    none).session.logits = countLogits [1] := rfl
  have hhead := congrArg (fun b : Block logitsBytes => b.1.head?) (hlogits.symm.trans heq)
  have hone : (countLogits [1]).1.head? = some 1 := Block.head?_fit (by decide) 1 []
  have htwo : (countLogits [1, 2]).1.head? = some 2 := Block.head?_fit (by decide) 2 []
  rw [hone, htwo] at hhead
  exact absurd hhead (by decide)

end Sf37.Engine

/-
Sf37.Engine.Checkpoints — every session that calls lead to can be saved and is restored.

Calls can lead to one that cannot: a load that fails on the CPU leaves some layers with
the file's count of rows beside the tokens of before, and the next token makes such a
session valid again. So can a file whose tokens are more than the context it names, and a
prompt with tokens outside the vocabulary.

* `CanBeSaved.apply`: a call that meets `KeepsCounters` keeps what a save needs.
* `checkpoint_roundTrip`: the round trip of the sessions of such runs, in both formats.
-/
import Sf37.Engine.Events
import Sf37.Engine.RoundTrip
import Sf37.Engine.LoadOutcome

namespace Sf37.Engine

open Sf37.Text Sf37.Store Sf37.Run
open Sf37.Server (Token Tokens ImageSignature)

variable {dev : Device} {s : Session} {il : Nat}

/-! ## What a save needs -/

/-- The rows that a loader asks for of a layer, where there are so many tokens. -/
def rowsAsked (il tokens : Nat) : Nat :=
  min tokens (if layerIsFull il then tokens else slidingWindow)

/-- What is kept of a session: its tokens fit, and while it is valid its counters on the
CPU are large enough. -/
structure CanBeSaved (dev : Device) (s : Session) : Prop where
  length_le : s.checkpoint.length ≤ dev.ctxSize
  tokens_lt : ∀ t ∈ s.checkpoint, t < vocabSize
  counters : s.checkpointValid = true → dev.cuda = false → ∀ il < mainLayers,
    rowsAsked il s.checkpoint.length ≤ (s.layer il).n

theorem CanBeSaved.savable (h : CanBeSaved dev s) (hvalid : s.checkpointValid = true) :
    Savable dev s :=
  ⟨h.length_le, h.tokens_lt, h.counters hvalid⟩

/-- The condition on a call: a token is evaluated in a valid session, or on the GPU;
prompts are made of the vocabulary; and a payload that is accepted on the CPU has no more
tokens than the context it was saved with. -/
def KeepsCounters (e : Setup) (s : Session) : SessionEvent → Prop
  | .eval _ _ _ _ | .evalArgmax _ _ _ _ => e.dev.cuda = true ∨ s.checkpointValid = true
  | .sync _ _ prompt _ => ∀ t ∈ prompt, t < vocabSize
  | .loadPayload gpu data payloadBytes => e.dev.cuda = true ∨
      ((sessionLoadPayload e.dev e.codec gpu s data payloadBytes).2 = none →
        u32At data 3 ≤ u32At data 2)
  | _ => True

theorem CanBeSaved.of_created (h : Created s) : CanBeSaved dev s := by
  obtain ⟨hcp, -, -, -⟩ := h
  refine ⟨?_, ?_, fun _ _ il _ => ?_⟩
  · rw [hcp]
    exact Nat.zero_le _
  · rw [hcp]
    exact nofun
  · rw [hcp, rowsAsked, List.length_nil, Nat.zero_min]
    exact Nat.zero_le _

/-- Only the vectors, the signature and the validity were changed, and an invalid session
has not become valid. -/
theorem CanBeSaved.congr {s' : Session} (h : CanBeSaved dev s) (hc : s'.checkpoint = s.checkpoint)
    (hl : s'.layer = s.layer) (hv : s'.checkpointValid = true → s.checkpointValid = true) :
    CanBeSaved dev s' := by
  refine ⟨hc ▸ h.length_le, hc ▸ h.tokens_lt, fun hvalid hcpu il hil => ?_⟩
  rw [hc, hl]
  exact h.counters (hv hvalid) hcpu il hil

/-! ## Counters -/

theorem storeRow_n (hcpu : dev.cuda = false) (il pos : Nat) (layer : LayerCache) (k v : Row) :
    min (layer.n + 1) dev.ctxSize ≤ (dev.storeRow il pos layer k v).n := by
  have hpos := dev.ctxSize_pos
  rw [Device.storeRow, if_neg (by simp [hcpu]), kvCachePush, dev.cacheCap_of_cpu hcpu]
  dsimp only
  split
  · dsimp only
    omega
  · omega

theorem storeRows_n (hcpu : dev.cuda = false) (vals : Nat → StepValues) (il pos count : Nat)
    (layer : LayerCache) :
    min (layer.n + count) dev.ctxSize ≤ (storeRows dev vals il pos count layer).n := by
  induction count generalizing pos layer with
  | zero =>
    rw [storeRows]
    omega
  | succ count ih =>
    have hstep := storeRow_n hcpu il pos layer ((vals pos).k il) ((vals pos).v il)
    have hrest := ih (pos + 1) (dev.storeRow il pos layer ((vals pos).k il) ((vals pos).v il))
    rw [storeRows]
    omega

theorem rowsAsked_le (il tokens : Nat) : rowsAsked il tokens ≤ tokens := Nat.min_le_left _ _

/-- More tokens ask for at most as many rows more. -/
theorem rowsAsked_add_le (il tokens count : Nat) :
    rowsAsked il (tokens + count) ≤ rowsAsked il tokens + count := by
  rw [rowsAsked, rowsAsked]
  split <;> omega

/-! ## One call -/

theorem CanBeSaved.stepped (h : CanBeSaved dev s) (hvalid : dev.cuda = true ∨ s.checkpointValid = true)
    {token : Token} (htoken : token < vocabSize) (hctx : s.checkpoint.length < dev.ctxSize)
    (vals : StepValues) (needLogits : Bool) :
    CanBeSaved dev (stepped dev s token vals needLogits) := by
  refine ⟨?_, ?_, fun _ hcpu il hil => ?_⟩
  · show (s.checkpoint ++ [token]).length ≤ _
    rw [List.length_append]
    exact hctx
  · intro t ht
    rcases List.mem_append.mp ht with ht | ht
    · exact h.tokens_lt t ht
    · exact List.mem_singleton.mp ht ▸ htoken
  · have hv : s.checkpointValid = true := hvalid.resolve_left (by simp [hcpu])
    have hn := h.counters hv hcpu il hil
    have hstep := storeRow_n hcpu il s.checkpoint.length (s.layer il) (vals.k il) (vals.v il)
    have hasked := rowsAsked_add_le il s.checkpoint.length 1
    have hle := rowsAsked_le il (s.checkpoint.length + 1)
    show rowsAsked il (s.checkpoint ++ [token]).length ≤
      ((storeStep dev vals (fun _ => true) s.checkpoint.length s).layer il).n
    rw [storeStep_layer, if_pos ⟨hil, rfl⟩, List.length_append, List.length_singleton]
    omega

theorem CanBeSaved.evalInternal (h : CanBeSaved dev s)
    (hvalid : dev.cuda = true ∨ s.checkpointValid = true) (token : Token) (vals : StepValues)
    (needLogits : Bool) (fault : Option EvalFault) :
    CanBeSaved dev (sessionEvalInternal dev s token vals needLogits fault).1 := by
  rcases evalInternal_cases dev s token vals needLogits fault with
    ⟨htoken, hctx, heq⟩ | heq | ⟨hcuda, -, stored, heq⟩
  · rw [heq]
    exact h.stepped hvalid htoken hctx vals needLogits
  · rw [heq]
    exact h
  · rw [heq]
    exact ⟨h.length_le, h.tokens_lt, fun hv => nomatch hv⟩

theorem CanBeSaved.evalArgmax (h : CanBeSaved dev s)
    (hvalid : dev.cuda = true ∨ s.checkpointValid = true) (token : Token) (vals : StepValues)
    (fault : Option EvalFault) (path : ArgmaxPath) :
    CanBeSaved dev (sessionEvalArgmax dev s token vals fault path).1 := by
  have hstep := h.evalInternal hvalid token vals false fault
  rcases evalArgmax_cases dev s token vals fault path with
    ⟨-, heq⟩ | ⟨-, ⟨-, -, heq⟩ | ⟨-, -, heq⟩ | ⟨-, heq⟩⟩ <;> rw [heq]
  · exact hstep
  · exact hstep
  · exact hstep.congr rfl rfl nofun
  · exact hstep.congr rfl rfl id

theorem CanBeSaved.rewind (h : CanBeSaved dev s) (pos : Nat) :
    CanBeSaved dev (sessionRewind dev s pos) := by
  have hlen : (s.checkpoint.take (min pos s.checkpoint.length)).length =
      min pos s.checkpoint.length := by
    rw [List.length_take]
    omega
  refine ⟨?_, fun t ht => h.tokens_lt t (List.mem_of_mem_take ht), fun _ hcpu il _ => ?_⟩
  · have := h.length_le
    show (s.checkpoint.take (min pos s.checkpoint.length)).length ≤ _
    omega
  · show rowsAsked il (s.checkpoint.take (min pos s.checkpoint.length)).length ≤
      (if dev.cuda then s.layer il else { s.layer il with n := min pos s.checkpoint.length }).n
    rw [hlen, if_neg (by simp [hcpu])]
    exact rowsAsked_le il _

/-- The counters of the base of a sync. -/
theorem syncBase_counters (h : CanBeSaved dev s) (hcpu : dev.cuda = false) (prompt : Tokens)
    (sig : Option ImageSignature) (hil : il < mainLayers) :
    rowsAsked il (syncBase dev s prompt sig).2 ≤ ((syncBase dev s prompt sig).1.layer il).n := by
  obtain ⟨-, -, -, hreset | ⟨-, hvalid, -, -, hbase⟩⟩ := syncBase_spec dev s prompt sig
  · rw [hreset]
    exact Nat.le_trans (rowsAsked_le il 0) (Nat.zero_le _)
  · rw [hbase]
    dsimp only
    split
    · show rowsAsked il s.checkpoint.length ≤ (if dev.cuda then s.layer il else
        { s.layer il with n := min s.checkpoint.length s.checkpoint.length }).n
      rw [if_neg (by simp [hcpu]), Nat.min_self]
      exact rowsAsked_le il _
    · exact h.counters hvalid hcpu il hil

/-- However far a sync gets, what it leaves can be saved. -/
theorem canBeSaved_of_stopped (h : CanBeSaved dev s) {vals : Nat → StepValues} {prompt : Tokens}
    (hprompt : ∀ t ∈ prompt, t < vocabSize) (hctx : prompt.length ≤ dev.ctxSize)
    (sig : Option ImageSignature) {m bound : Nat} {s' : Session}
    (hst : Stopped dev vals prompt (syncBase dev s prompt sig).1 (syncBase dev s prompt sig).2 m
      bound s') : CanBeSaved dev s' := by
  obtain ⟨torn, hp, -, -, htorn⟩ := hst
  obtain ⟨hblen, hbase, -, -⟩ := syncBase_spec dev s prompt sig
  have hlen := hp.length hblen
  have hstart := hp.start_le
  have hle := hp.le_length
  refine ⟨by omega, fun t ht => ?_, fun hvalid hcpu il hil => ?_⟩
  · rw [hp.checkpoint, hbase] at ht
    rcases List.mem_append.mp ht with ht | ht
    · exact hprompt t (List.mem_of_mem_take ht)
    · exact hprompt t (List.mem_of_mem_take (List.mem_of_mem_drop ht))
  · have hzero : torn il = 0 := by
      by_contra hne
      have := (htorn ⟨il, hne⟩).2
      rw [hcpu] at this
      nomatch this
    have hn := storeRows_n hcpu vals il (syncBase dev s prompt sig).2
      (m - (syncBase dev s prompt sig).2) ((syncBase dev s prompt sig).1.layer il)
    have hb := syncBase_counters h hcpu prompt sig hil
    have hasked := rowsAsked_add_le il (syncBase dev s prompt sig).2
      (m - (syncBase dev s prompt sig).2)
    have hm := rowsAsked_le il m
    rw [Nat.add_sub_cancel' hstart] at hasked
    rw [hp.layer il, if_pos hil, hzero, Nat.add_zero, hlen]
    omega

theorem CanBeSaved.sync (h : CanBeSaved dev s) (imPatch : Option Token) (env : SyncEnv)
    (vals : Nat → StepValues) {prompt : Tokens} (hprompt : ∀ t ∈ prompt, t < vocabSize)
    (features : Option ImageFeatures) :
    CanBeSaved dev (sessionSync dev imPatch env vals s prompt features).session := by
  rcases sync_cases dev imPatch env vals s prompt features with
    ⟨-, hr⟩ | ⟨sig, m, s', hctx, -, hst, -, ⟨-, heq⟩ | ⟨-, -, -, -, heq⟩⟩
  · rw [hr]
    exact h
  · rw [heq]
    exact canBeSaved_of_stopped h hprompt hctx sig hst
  · have hs' := canBeSaved_of_stopped h hprompt hctx sig hst
    rw [heq]
    cases sig with
    | none => exact hs'
    | some _ => exact hs'.congr rfl rfl id

theorem CanBeSaved.loadFailed (h : CanBeSaved dev s) {t : Session} (hf : LoadFailed s t) :
    CanBeSaved dev t := by
  obtain ⟨hc, hinvalid | ⟨hv, hl⟩⟩ := hf
  · refine ⟨hc ▸ h.length_le, hc ▸ h.tokens_lt, fun hvalid => ?_⟩
    rw [hinvalid] at hvalid
    nomatch hvalid
  · exact h.congr hc hl (hv ▸ id)

theorem canBeSaved_of_loadedFrom {savedCtx : Nat} {t : Session} (h : LoadedFrom dev savedCtx t)
    (hctx : dev.cuda = true ∨ t.checkpoint.length ≤ savedCtx) : CanBeSaved dev t := by
  obtain ⟨-, front, hfront, hcp, hcounters⟩ := h
  refine ⟨hcp ▸ hfront.tokens_le, hcp ▸ hfront.tokens_lt, fun _ hcpu il hil => ?_⟩
  have hle : t.checkpoint.length ≤ savedCtx := hctx.resolve_left (by simp [hcpu])
  rw [hcounters hcpu il hil, rowsAsked]
  rw [hcp] at hle ⊢
  cases hfull : layerIsFull il with
  | true =>
    have := hfront.rows_full il hil hfull
    simp only [if_true]
    omega
  | false =>
    have := hfront.rows_sliding il hil hfull
    simp only [Bool.false_eq_true, if_false]
    omega

/-- A call that meets the condition keeps what a save needs. -/
theorem CanBeSaved.apply {e : Setup} {s : Session} (h : CanBeSaved e.dev s) (ev : SessionEvent)
    (hg : KeepsCounters e s ev) : CanBeSaved e.dev (e.apply s ev) := by
  cases ev with
  | eval token vals needLogits fault => exact h.evalInternal hg token vals needLogits fault
  | evalArgmax token vals fault path => exact h.evalArgmax hg token vals fault path
  | sync env vals prompt features => exact h.sync e.imPatch env vals hg features
  | rewind pos => exact h.rewind pos
  | save => exact h
  | loadPayload gpu data payloadBytes =>
    by_cases hok : (sessionLoadPayload e.dev e.codec gpu s data payloadBytes).2 = none
    · obtain ⟨-, -, htokens, -, hloaded⟩ := payload_loaded hok
      have hlength := (congrArg List.length htokens).trans (length_tokensAt _ _)
      exact canBeSaved_of_loadedFrom hloaded (hg.imp_right fun hle => hlength.trans_le (hle hok))
    · exact h.loadFailed (payload_failed hok)
  | loadSnapshot gpu snap =>
    by_cases hok : (sessionLoadSnapshot e.dev gpu s snap).2 = none
    · obtain ⟨-, -, -, hloaded⟩ := snapshot_loaded hok
      obtain ⟨-, front, hfront, hcp, -⟩ := id hloaded
      exact canBeSaved_of_loadedFrom hloaded (Or.inr (hcp ▸ hfront.tokens_le))
    · exact h.loadFailed (snapshot_failed hok)
  | output effect =>
    cases effect with
    | computed logits => exact h.congr rfl rfl id
    | onDevice => exact h
    | failed =>
      show CanBeSaved e.dev (if e.dev.cuda then { s with checkpointValid := false } else s)
      split
      · exact h.congr rfl rfl nofun
      · exact h
  | noteImages prompt features =>
    show CanBeSaved e.dev (sessionNoteImageFeatures e.imPatch s prompt features)
    rw [sessionNoteImageFeatures]
    split
    · exact h
    next sig _ =>
      cases sig with
      | none => exact h
      | some _ => exact h.congr rfl rfl id

/-- The sessions of runs whose calls meet the condition. -/
def Reachable (e : Setup) : Session → Prop := Comes e.apply Created (KeepsCounters e)

theorem Reachable.canBeSaved {e : Setup} (h : Reachable e s) : CanBeSaved e.dev s :=
  Comes.invariant (fun _ => .of_created) (fun _ ev hs => hs.apply ev) h

/-! ## The round trip -/

/-- A session is saved in the sizes announced, and both files are read back in full and
restore it, whatever the session was that takes them. -/
def RoundTrips (e : Setup) (dev' : Device) (s : Session) : Prop :=
  (∀ t rest, ∃ b t', sessionSavePayload e.dev e.codec s = some b ∧
    b.length = sessionPayloadBytes e.dev s ∧
    sessionLoadPayload dev' e.codec .ok t (b ++ rest) b.length = (t', none) ∧
    Restored e.dev dev' (fun row => e.codec.decode (e.codec.encode row)) s s.checkpoint t') ∧
  ∀ cap t, ∃ b t', sessionSaveSnapshot e.dev cap s = some b ∧
    b.length = sessionSnapshotBytes e.dev s ∧ sessionLoadSnapshot dev' .ok t b = (t', none) ∧
    Restored e.dev dev' id s s.checkpoint t'

/-- A file is rejected whose length is not the one its header implies, or that ends before
it. -/
def LengthsChecked (dev : Device) (codec : KvCodec) : Prop :=
  (∀ gpu t data payloadBytes,
    payloadBytes ≠ impliedPayloadBytes data ∨ data.length < payloadBytes →
      (sessionLoadPayload dev codec gpu t data payloadBytes).2 ≠ none) ∧
  ∀ gpu t snap, snap.length ≠ impliedSnapshotBytes snap →
    (sessionLoadSnapshot dev gpu t snap).2 ≠ none

theorem lengthsChecked (dev : Device) (codec : KvCodec) : LengthsChecked dev codec := by
  refine ⟨fun gpu t data payloadBytes h hok => ?_, fun gpu t snap h hok => ?_⟩
  · obtain ⟨himplied, hle, -⟩ := payload_loaded hok
    rcases h with hne | hlt
    · exact hne himplied
    · omega
  · exact h (snapshot_loaded hok).1

theorem Reachable.roundTrips {e : Setup} (h : Reachable e s) (hvalid : s.checkpointValid = true)
    {dev' : Device} (hl : SameLayout e.dev dev') : RoundTrips e dev' s :=
  ⟨fun t rest => payload_roundTrip hl (h.canBeSaved.savable hvalid) hvalid e.codec t rest,
    fun cap t => snapshot_roundTrip hl (h.canBeSaved.savable hvalid) hvalid cap t⟩

/-- Every valid session of a run whose calls meet the condition makes the round trip, and
files of a wrong length are rejected. -/
theorem checkpoint_roundTrip {e : Setup} {s : Session} (h : Reachable e s)
    (hvalid : s.checkpointValid = true) {dev' : Device} (hl : SameLayout e.dev dev') :
    RoundTrips e dev' s ∧ LengthsChecked dev' e.codec :=
  ⟨h.roundTrips hvalid hl, lengthsChecked dev' e.codec⟩

/-- A small engine on the CPU, whose rows are zeros. -/
def cpuSetup : Setup := ⟨cpuDevice, none, .ofZeros⟩

theorem created_ofTokens : Created (.ofTokens []) := ⟨rfl, rfl, rfl, fun _ => rfl⟩

/-- Two tokens, a payload that is refused, a rewind and a sync that goes on from there. -/
def roundTripCalls : List SessionEvent :=
  [.eval 1 (.numbered 1) true none, .eval 2 (.numbered 2) true none, .loadPayload .ok [] 0,
    .rewind 1, .sync .quiet (fun pos => .numbered (UInt8.ofNat (pos + 3))) [1, 5, 6] none]

theorem checkpoint_roundTrip_calls :
    RoundTrips cpuSetup cpuDevice (roundTripCalls.foldl cpuSetup.apply (.ofTokens [])) ∧
      LengthsChecked cpuDevice cpuSetup.codec := by
  have hrefused : ∀ s, (sessionLoadPayload cpuDevice cpuSetup.codec .ok s [] 0).2 ≠ none := fun s =>
    (lengthsChecked cpuDevice cpuSetup.codec).1 .ok s [] 0 (Or.inl (by decide))
  have hprompt : ∀ t ∈ [1, 5, 6], t < vocabSize := by decide
  have hreach : Reachable cpuSetup (roundTripCalls.foldl cpuSetup.apply (.ofTokens [])) :=
    comes_run roundTripCalls (.start created_ofTokens) ⟨Or.inr rfl, Or.inr rfl,
      Or.inr fun hok => absurd hok (hrefused _), trivial, hprompt, trivial⟩
  exact checkpoint_roundTrip hreach rfl (SameLayout.refl cpuDevice)

/-! ## A session that is not saved -/

/-- The payload of a session of one token, cut off behind the rows of its first layer. -/
def cutBehindFirstLayer : Bytes :=
  u32s (payloadHeader cpuDevice (.ofTokens [1])) ++ (savedFront cpuDevice (.ofTokens [1]) ++
    rowPairs (fun row => (KvCodec.ofZeros.encode row).1) cpuDevice (.ofTokens [1]) 0)

theorem savable_ofTokens : Savable cpuDevice (.ofTokens [1]) :=
  ⟨by decide, by decide, fun _ _ _ => Nat.min_le_left _ _⟩

theorem rows_ofTokens (hil : il < mainLayers) :
    sessionLayerLiveKvRows cpuDevice (.ofTokens [1]) il = 1 := by
  obtain ⟨hle, -, hfull, hsliding, -⟩ := savable_ofTokens.rows hil
  have hone : (Session.ofTokens [1]).checkpoint.length = 1 := rfl
  have hw : slidingWindow = 512 := rfl
  cases hf : layerIsFull il with
  | true => exact hfull hf
  | false =>
    have := hsliding hf
    omega

theorem readBytes_nil {n : Nat} (m : Nat) (h : 0 < n) : readBytes n ⟨[], m⟩ = ([], none) := by
  rw [readBytes]
  split
  · rfl
  · exact if_pos h

/-- Nothing is left for the next layer. -/
theorem restorePayloadLayer_nil {front : LoadFront} (codec : KvCodec) (layer : LayerCache) (m : Nat)
    (h : front.rows il = 1) :
    restorePayloadLayer dev codec .ok front il layer ⟨[], m⟩ =
      (layer, .error "truncated session payload") := by
  have hread : readBytes (payloadRowReader dev codec .ok il).width ⟨[], m⟩ = ([], none) :=
    readBytes_nil m (by decide : 0 < encodedRow)
  rw [restorePayloadLayer, h, restoreRows, hread]
  rfl

/-- Loading it leaves the tokens of before, and one row in the first layer. -/
theorem load_cutBehindFirstLayer (t : Session) :
    (sessionLoadPayload cpuDevice .ofZeros .ok t cutBehindFirstLayer
        (sessionPayloadBytes cpuDevice (.ofTokens [1]))).1.checkpoint = t.checkpoint ∧
      ((sessionLoadPayload cpuDevice .ofZeros .ok t cutBehindFirstLayer
        (sessionPayloadBytes cpuDevice (.ofTokens [1]))).1.layer 0).n = 1 := by
  obtain ⟨s₁, hs₁⟩ : ∃ s₁ : Session, s₁ = .ofTokens [1] := ⟨_, rfl⟩
  have hrows : ∀ il < mainLayers, sessionLayerLiveKvRows cpuDevice s₁ il = 1 := fun il hil =>
    hs₁ ▸ rows_ofTokens hil
  have hsav : Savable cpuDevice s₁ := hs₁ ▸ savable_ofTokens
  have hvalid : s₁.checkpointValid = true := hs₁ ▸ rfl
  rw [cutBehindFirstLayer, ← hs₁]
  obtain ⟨f, hf⟩ : ∃ f, f = rowPairs (fun row => (KvCodec.ofZeros.encode row).1) cpuDevice s₁ :=
    ⟨_, rfl⟩
  obtain ⟨m, hm⟩ : ∃ m, m = ((List.range' 1 44).flatMap f).length := ⟨_, rfl⟩
  have hsplit : List.range mainLayers = 0 :: 1 :: List.range' 2 43 := rfl
  have htotal : sessionLiveKvRowSum cpuDevice s₁ * 2 * encodedRow = (f 0).length + m := by
    have hall := length_layers (f := f) cpuDevice s₁
      (hf ▸ length_rowPairs (fun row => (KvCodec.ofZeros.encode row).2) cpuDevice s₁)
    rw [hsplit, List.flatMap_cons, List.length_append] at hall
    rw [Nat.mul_assoc, ← hall, hm]
    rfl
  have hcount : payloadExpectedBytes s₁.checkpoint.length (sessionLiveKvRowSum cpuDevice s₁) =
      payloadU32Fields * 4 + (mainLayers * 4 + (s₁.checkpoint.length * 4 +
        (logitsBytes + (hiddenBytes + ((f 0).length + m))))) := by
    rw [payloadExpectedBytes, htotal, logitsBytes, hiddenBytes]
    simp only [Nat.add_assoc]
  have hpos : payloadExpectedBytes s₁.checkpoint.length (sessionLiveKvRowSum cpuDevice s₁) ≠ 0 := by
    rw [payloadExpectedBytes, payloadU32Fields]
    omega
  have hfront := payloadFront_saved (SameLayout.refl cpuDevice) hsav
    (s₁.logits.1 ++ (s₁.hidden.1 ++ (f 0 ++ []))) (logitsBytes + (hiddenBytes + ((f 0).length + m)))
  rw [← hcount] at hfront
  obtain ⟨layer', hlayer, hrestored⟩ := restorePayloadLayer_saved (hsav.savedRows (SameLayout.refl cpuDevice))
    (by decide : 0 < mainLayers) .ofZeros (t.layer 0) [] m
  rw [← hf] at hlayer
  have hnext : ∀ layer, restorePayloadLayer cpuDevice .ofZeros .ok (savedLoadFront cpuDevice s₁) 1
      layer ⟨[], m⟩ = (layer, .error "truncated session payload") := fun layer =>
    restorePayloadLayer_nil .ofZeros layer m
      ((savedLoadFront_rows (by decide)).trans (hrows 1 (by decide)))
  rw [sessionPayloadBytes_eq hvalid, sessionLoadPayload, if_neg hpos, savedFront, ← hf]
  simp only [List.append_assoc]
  rw [List.append_nil] at hfront hlayer
  rw [hfront]
  dsimp only
  rw [restoreSession, restoreVectors_append]
  dsimp only
  rw [hsplit, restoreLayers, hlayer]
  dsimp only
  rw [restoreLayers, hnext]
  exact ⟨rfl, (hrestored.1 rfl).trans (hrows 0 (by decide))⟩

/-- A third token behind two, of which the first layer has one row. -/
theorem not_saved_of_behind {t : Session} (hc : t.checkpoint = [1, 2]) (hn : (t.layer 0).n = 1) :
    (sessionEvalInternal cpuDevice t 3 .zero true none).1.checkpointValid = true ∧
      sessionSavePayload cpuDevice .ofZeros
        (sessionEvalInternal cpuDevice t 3 .zero true none).1 = none := by
  have heval : sessionEvalInternal cpuDevice t 3 .zero true none =
      (stepped cpuDevice t 3 .zero true, true) := by
    rw [sessionEvalInternal, if_neg (by decide), if_neg (by rw [hc]; decide)]
    rfl
  have hlen : (stepped cpuDevice t 3 .zero true).checkpoint.length = 3 := by
    show (t.checkpoint ++ [3]).length = 3
    rw [hc]
    rfl
  have hcount : ((stepped cpuDevice t 3 .zero true).layer 0).n = 2 := by
    show (kvCachePush cpuDevice.ctxSize (t.layer 0) _ _).n = 2
    rw [kvCachePush, hn, if_neg (by decide)]
    exact congrArg (· + 1) hn
  have hrows : sessionLayerLiveKvRows cpuDevice (stepped cpuDevice t 3 .zero true) 0 = 3 := by
    rw [sessionLayerLiveKvRows, sessionLiveKvRows, hlen]
    rfl
  have hmissing : cpuRowsMissing cpuDevice (stepped cpuDevice t 3 .zero true) = true := by
    rw [cpuRowsMissing, Bool.and_eq_true, List.any_eq_true]
    exact ⟨by decide, 0, by decide, by rw [hcount, hrows]; decide⟩
  have hvalid : (stepped cpuDevice t 3 .zero true).checkpointValid = true := rfl
  rw [heval]
  refine ⟨hvalid, ?_⟩
  dsimp only
  rw [sessionSavePayload, if_neg (not_not.mpr hvalid), if_pos hmissing]

/-- A session of two tokens. -/
def twoTokens : Session :=
  cpuSetup.apply (cpuSetup.apply (.ofTokens []) (.eval 1 .zero true none)) (.eval 2 .zero true none)

/-- Then the cut payload of one token. -/
def afterFailedLoad : Session :=
  cpuSetup.apply twoTokens
    (.loadPayload .ok cutBehindFirstLayer (sessionPayloadBytes cpuDevice (.ofTokens [1])))

theorem afterFailedLoad_eq : afterFailedLoad =
    (sessionLoadPayload cpuDevice .ofZeros .ok twoTokens cutBehindFirstLayer
      (sessionPayloadBytes cpuDevice (.ofTokens [1]))).1 := by
  rw [afterFailedLoad, Setup.apply]
  rfl

/-- And a third token: the session counts as valid and is not saved. -/
theorem not_saved_afterFailedLoad :
    (cpuSetup.apply afterFailedLoad (.eval 3 .zero true none)).checkpointValid = true ∧
      sessionSavePayload cpuDevice .ofZeros
        (cpuSetup.apply afterFailedLoad (.eval 3 .zero true none)) = none := by
  obtain ⟨hcp, hn⟩ := load_cutBehindFirstLayer twoTokens
  have hc : twoTokens.checkpoint = [1, 2] := rfl
  have heval : ∀ t, cpuSetup.apply t (.eval 3 .zero true none) =
      (sessionEvalInternal cpuDevice t 3 .zero true none).1 := fun _ => rfl
  rw [← afterFailedLoad_eq, hc] at hcp
  rw [← afterFailedLoad_eq] at hn
  rw [heval]
  exact not_saved_of_behind hcp hn

end Sf37.Engine

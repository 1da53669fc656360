/-
Sf37.Engine.KeptRows — every row that the next step reads, over runs of evaluations,
rewinds and loads.

A session alone does not tell which rows its layers still have: a rewind forgets how long
the session was, and a file may bring fewer rows than a cache holds. `RowsWorld` remembers
the right row of each position, and from which position on a layer has them.

* `RowsReach.inv`: over a run whose rewinds find their rows, what is remembered is right.
* `nextStep_attends`: the next token, and every token of a next chunk, reads exactly the
  rows of its window, each the one stored or restored for its position.
-/
import Sf37.Engine.LayerRows
import Sf37.Engine.SavedFiles
import Sf37.Engine.Reuse
import Sf37.Engine.Events

namespace Sf37.Engine

open Sf37.Text Sf37.Store
open Sf37.Server (Token Tokens ImageSignature)

variable {dev dev' : Device} {codec : KvCodec} {il pos : Nat}

/-! ## What is remembered -/

/-- A session, the right rows of the positions of its tokens, and the first position that
a layer still has. -/
structure RowsWorld where
  session : Session
  want : Nat → Nat → Row × Row
  kept : Nat → Nat

/-- Behind the evaluation of tokens from a position on. -/
def RowsWorld.stored (dev : Device) (w : RowsWorld) (start : Nat) (vals : Nat → StepValues)
    (s : Session) : RowsWorld where
  session := s
  want il := wantAfter (w.want il) start vals il
  kept il := dev.keptAfter il (if start = 0 then 0 else w.kept il) s.checkpoint.length

/-- Behind a rewind. -/
def RowsWorld.rewound (dev : Device) (w : RowsWorld) (pos : Nat) : RowsWorld :=
  { w with
    session := sessionRewind dev w.session pos
    kept := fun il => if pos = 0 then 0 else w.kept il }

/-- Behind a reset. -/
def RowsWorld.reset (dev : Device) (w : RowsWorld) : RowsWorld :=
  { w with session := sessionReset dev w.session, kept := fun _ => 0 }

/-- Behind the load of a file that was saved in a world, whose rows `g` gives back. -/
def RowsWorld.loaded (dev : Device) (w : RowsWorld) (g : Row → Row) (t : Session) : RowsWorld where
  session := t
  want il p := (g (w.want il p).1, g (w.want il p).2)
  kept il := max (w.session.checkpoint.length - sessionLayerLiveKvRows dev w.session il) (w.kept il)

theorem rewound_checkpoint (dev : Device) (w : RowsWorld) (pos : Nat) :
    (w.rewound dev pos).session.checkpoint =
      w.session.checkpoint.take (min pos w.session.checkpoint.length) := rfl

theorem rewound_kept {pos : Nat} (h : pos ≠ 0) (dev : Device) (w : RowsWorld) (il : Nat) :
    (w.rewound dev pos).kept il = w.kept il := if_neg h

theorem loaded_kept (dev : Device) (w : RowsWorld) (g : Row → Row) (t : Session) (il : Nat) :
    (w.loaded dev g t).kept il =
      max (w.session.checkpoint.length - sessionLayerLiveKvRows dev w.session il) (w.kept il) := rfl

/-- A rewind to a position finds what the next step reads: the layers still have those
rows, and on the CPU their counters are those of the tokens. -/
def RowsWorld.CanRewind (dev : Device) (w : RowsWorld) (pos : Nat) : Prop :=
  pos = 0 ∨ ∀ il < mainLayers, w.kept il ≤ attendedFrom il pos ∧
    (dev.cuda = false → (w.session.layer il).n = w.session.checkpoint.length)

/-! ## Runs -/

/-- The worlds of runs of calls that succeed, in which every rewind finds what the next step
reads, also the one inside a sync, and a snapshot that has tokens is loaded on the backend
it was saved on. -/
inductive RowsReach (codec : KvCodec) : Device → RowsWorld → Prop where
  | created {dev : Device} {s : Session} (h : Created s) (want : Nat → Nat → Row × Row) :
      RowsReach codec dev ⟨s, want, fun _ => 0⟩
  | eval {dev : Device} {w : RowsWorld} (h : RowsReach codec dev w) (token : Token)
      (vals : StepValues) (needLogits : Bool) (fault : Option EvalFault)
      (hok : (sessionEvalInternal dev w.session token vals needLogits fault).2 = true) :
      RowsReach codec dev (w.stored dev w.session.checkpoint.length (fun _ => vals)
        (sessionEvalInternal dev w.session token vals needLogits fault).1)
  | evalArgmax {dev : Device} {w : RowsWorld} (h : RowsReach codec dev w) (token : Token)
      (vals : StepValues) (fault : Option EvalFault) (path : ArgmaxPath)
      (hok : (sessionEvalArgmax dev w.session token vals fault path).2 = true) :
      RowsReach codec dev (w.stored dev w.session.checkpoint.length (fun _ => vals)
        (sessionEvalArgmax dev w.session token vals fault path).1)
  | sync {dev : Device} {w : RowsWorld} (h : RowsReach codec dev w) (imPatch : Option Token)
      (env : SyncEnv) (vals : Nat → StepValues) (prompt : Tokens) (features : Option ImageFeatures)
      (sig : Option ImageSignature)
      (hsig : sessionPrepareImageSignature imPatch prompt features = some sig)
      (hrewind : signatureMatches w.session sig = true → w.session.checkpoint <+: prompt →
        w.session.checkpoint.length < prompt.length →
          w.CanRewind dev w.session.checkpoint.length)
      (hok : (sessionSync dev imPatch env vals w.session prompt features).ok = true) :
      RowsReach codec dev (w.stored dev (syncBase dev w.session prompt sig).2 vals
        (sessionSync dev imPatch env vals w.session prompt features).session)
  | reset {dev : Device} {w : RowsWorld} (h : RowsReach codec dev w) :
      RowsReach codec dev (w.reset dev)
  | rewind {dev : Device} {w : RowsWorld} (h : RowsReach codec dev w) (pos : Nat)
      (hpreserves : sessionRewindPreservesKv dev w.session pos = true)
      (hrewind : w.CanRewind dev pos) : RowsReach codec dev (w.rewound dev pos)
  | loadPayload {dev dev' : Device} {w w' : RowsWorld} (h : RowsReach codec dev w)
      (h' : RowsReach codec dev' w') (gpu : GpuWrites) (file rest : Bytes) (payloadBytes : Nat)
      (hsave : sessionSavePayload dev' codec w'.session = some file)
      (hok : (sessionLoadPayload dev codec gpu w.session (file ++ rest) payloadBytes).2 = none) :
      RowsReach codec dev (w'.loaded dev' (fun row => codec.decode (codec.encode row))
        (sessionLoadPayload dev codec gpu w.session (file ++ rest) payloadBytes).1)
  | loadSnapshot {dev dev' : Device} {w w' : RowsWorld} (h : RowsReach codec dev w)
      (h' : RowsReach codec dev' w') (gpu : GpuWrites) (snap : Bytes) (cap : Nat)
      (hsave : sessionSaveSnapshot dev' cap w'.session = some snap)
      (hbackend : dev.cuda = dev'.cuda ∨ w'.session.checkpoint = [])
      (hok : (sessionLoadSnapshot dev gpu w.session snap).2 = none) :
      RowsReach codec dev (w'.loaded dev' id (sessionLoadSnapshot dev gpu w.session snap).1)

/-! ## The invariant -/

/-- The layers have the right rows from the positions remembered on, and these are early
enough for the next step. -/
structure RowsWorld.Inv (dev : Device) (w : RowsWorld) : Prop where
  length_le : w.session.checkpoint.length ≤ dev.ctxSize
  kept_le : ∀ il < mainLayers, w.kept il ≤ attendedFrom il w.session.checkpoint.length
  keeps : ∀ il < mainLayers,
    LayerKeeps dev il (w.session.layer il) w.session.checkpoint.length (w.kept il) (w.want il)

variable {w w' : RowsWorld}

/-- The rows of tokens that were evaluated from a base. -/
theorem RowsWorld.Inv.stored (base : Session) {s : Session} {start : Nat} (n : Nat)
    {vals : Nat → StepValues} (hstart : start + n = s.checkpoint.length)
    (hctx : s.checkpoint.length ≤ dev.ctxSize)
    (hkept : ∀ il < mainLayers,
      (if start = 0 then 0 else w.kept il) ≤ attendedFrom il s.checkpoint.length)
    (hkeeps : ∀ il < mainLayers,
      LayerKeeps dev il (base.layer il) start (if start = 0 then 0 else w.kept il) (w.want il))
    (hlayer : ∀ il < mainLayers, s.layer il = storeRows dev vals il start n (base.layer il)) :
    (w.stored dev start vals s).Inv dev := by
  refine ⟨hctx, fun il hil => ?_, fun il hil => ?_⟩
  · show dev.keptAfter il (if start = 0 then 0 else w.kept il) s.checkpoint.length ≤ _
    exact keptAfter_le_attendedFrom dev hctx (hkept il hil)
  · show LayerKeeps dev il (s.layer il) s.checkpoint.length
      (dev.keptAfter il (if start = 0 then 0 else w.kept il) s.checkpoint.length)
      (wantAfter (w.want il) start vals il)
    rw [hlayer il hil, ← hstart]
    refine ((hkeeps il hil).storeRows (by omega) vals).mono ?_
    split
    · exact dev.le_keptAfter il _ _
    · exact Nat.le_refl _

theorem RowsWorld.Inv.created {s : Session} (h : Created s) (want : Nat → Nat → Row × Row) :
    (RowsWorld.mk s want fun _ => 0).Inv dev := by
  obtain ⟨hcp, -, -, hn⟩ := h
  have hlen : s.checkpoint.length = 0 := by rw [hcp]; rfl
  refine ⟨by show s.checkpoint.length ≤ _; omega, fun il _ => Nat.zero_le _, fun il _ => ?_⟩
  show LayerKeeps dev il (s.layer il) s.checkpoint.length 0 (want il)
  rw [hlen]
  exact .empty dev il 0 (want il) fun _ => hn il

/-- One token that was evaluated. -/
theorem RowsWorld.Inv.oneToken (h : w.Inv dev) (token : Token) {vals : StepValues} {s : Session}
    (hctx : w.session.checkpoint.length < dev.ctxSize)
    (hcp : s.checkpoint = w.session.checkpoint ++ [token])
    (hlayer : ∀ il < mainLayers, s.layer il =
      dev.storeRow il w.session.checkpoint.length (w.session.layer il) (vals.k il) (vals.v il)) :
    (w.stored dev w.session.checkpoint.length (fun _ => vals) s).Inv dev := by
  have hlen : w.session.checkpoint.length + 1 = s.checkpoint.length := by
    rw [hcp, List.length_append, List.length_singleton]
  refine .stored w.session 1 hlen (by omega) (fun il hil => ?_) (fun il hil => ?_) hlayer
  · have := h.kept_le il hil
    have : attendedFrom il w.session.checkpoint.length ≤ attendedFrom il s.checkpoint.length :=
      attendedFrom_mono (by omega)
    split <;> omega
  · split
    next hzero =>
      have hkeeps := h.keeps il hil
      rw [hzero] at hkeeps ⊢
      exact .empty dev il 0 _ fun hcpu => Nat.le_zero.mp (hkeeps.count hcpu).1
    · exact h.keeps il hil

theorem RowsWorld.Inv.eval (h : w.Inv dev) {token : Token} {vals : StepValues} {needLogits : Bool}
    {fault : Option EvalFault}
    (hok : (sessionEvalInternal dev w.session token vals needLogits fault).2 = true) :
    (w.stored dev w.session.checkpoint.length (fun _ => vals)
      (sessionEvalInternal dev w.session token vals needLogits fault).1).Inv dev := by
  rcases evalInternal_cases dev w.session token vals needLogits fault with
    ⟨-, hctx, heq⟩ | heq | ⟨-, -, stored, heq⟩
  · rw [heq]
    exact h.oneToken token hctx rfl fun il hil =>
      stepped_layer dev w.session token vals needLogits hil
  · rw [heq] at hok
    nomatch hok
  · rw [heq] at hok
    nomatch hok

theorem RowsWorld.Inv.evalArgmax (h : w.Inv dev) {token : Token} {vals : StepValues}
    {fault : Option EvalFault} {path : ArgmaxPath}
    (hok : (sessionEvalArgmax dev w.session token vals fault path).2 = true) :
    (w.stored dev w.session.checkpoint.length (fun _ => vals)
      (sessionEvalArgmax dev w.session token vals fault path).1).Inv dev := by
  rcases evalArgmax_cases dev w.session token vals fault path with
    ⟨hno, heq⟩ | ⟨hstep, ⟨-, -, heq⟩ | ⟨-, -, heq⟩ | ⟨-, heq⟩⟩
  · rw [heq, hno] at hok
    nomatch hok
  · rw [heq]
    exact h.eval hstep
  · rw [heq] at hok
    nomatch hok
  · rw [heq]
    have hinv := h.eval hstep
    exact ⟨hinv.length_le, hinv.kept_le, hinv.keeps⟩

/-- The rows of the first tokens, where a rewind finds what it needs. -/
theorem RowsWorld.Inv.rewoundKeeps (h : w.Inv dev) (hpos : pos ≤ w.session.checkpoint.length)
    (hcan : w.CanRewind dev pos) (hil : il < mainLayers) :
    (if pos = 0 then 0 else w.kept il) ≤ attendedFrom il pos ∧
      LayerKeeps dev il ((sessionRewind dev w.session pos).layer il) pos
        (if pos = 0 then 0 else w.kept il) (w.want il) := by
  have hlayer : (sessionRewind dev w.session pos).layer il =
      if dev.cuda then w.session.layer il else { w.session.layer il with n := pos } := by
    show (if dev.cuda then w.session.layer il
      else { w.session.layer il with n := min pos w.session.checkpoint.length }) = _
    rw [Nat.min_eq_left hpos]
  rw [hlayer]
  by_cases hzero : pos = 0
  · rw [if_pos hzero, hzero]
    refine ⟨Nat.zero_le _, .empty dev il 0 _ fun hcpu => ?_⟩
    rw [if_neg (by simp [hcpu])]
  · rw [if_neg hzero]
    obtain ⟨hkept, hn⟩ := hcan.resolve_left hzero il hil
    exact ⟨hkept, (h.keeps il hil).rewind hpos hn⟩

theorem RowsWorld.Inv.rewind (h : w.Inv dev) (hpos : pos ≤ w.session.checkpoint.length)
    (hcan : w.CanRewind dev pos) : (w.rewound dev pos).Inv dev := by
  have hlen : (w.rewound dev pos).session.checkpoint.length = pos := by
    show (w.session.checkpoint.take (min pos w.session.checkpoint.length)).length = pos
    rw [List.length_take]
    omega
  have hctx := h.length_le
  refine ⟨by omega, fun il hil => ?_, fun il hil => ?_⟩
  · rw [hlen]
    exact (h.rewoundKeeps hpos hcan hil).1
  · rw [hlen]
    exact (h.rewoundKeeps hpos hcan hil).2

theorem resetKeeps (dev : Device) (s : Session) (il : Nat) (want : Nat → Row × Row) :
    LayerKeeps dev il ((sessionReset dev s).layer il) 0 0 want := by
  refine .empty dev il 0 want fun hcpu => ?_
  show (if dev.cuda then s.layer il else { s.layer il with n := 0 }).n = 0
  rw [if_neg (by simp [hcpu])]

theorem RowsWorld.Inv.reset (dev : Device) (w : RowsWorld) : (w.reset dev).Inv dev :=
  ⟨Nat.zero_le _, fun _ _ => Nat.zero_le _, fun il _ => resetKeeps dev w.session il (w.want il)⟩

theorem RowsWorld.Inv.sync (h : w.Inv dev) {imPatch : Option Token} {env : SyncEnv}
    {vals : Nat → StepValues} {prompt : Tokens} {features : Option ImageFeatures}
    {sig : Option ImageSignature}
    (hsig : sessionPrepareImageSignature imPatch prompt features = some sig)
    (hrewind : signatureMatches w.session sig = true → w.session.checkpoint <+: prompt →
      w.session.checkpoint.length < prompt.length → w.CanRewind dev w.session.checkpoint.length)
    (hok : (sessionSync dev imPatch env vals w.session prompt features).ok = true) :
    (w.stored dev (syncBase dev w.session prompt sig).2 vals
      (sessionSync dev imPatch env vals w.session prompt features).session).Inv dev := by
  obtain ⟨sig', s', hctx, hsig', hp, -, hsess, -⟩ := sessionSync_ok hok
  obtain rfl : sig' = sig := Option.some.inj (hsig'.symm.trans hsig)
  obtain ⟨hblen, -, hle, hcases⟩ := syncBase_spec dev w.session prompt sig'
  have hlen := hp.length hblen
  obtain ⟨start, hstart⟩ : ∃ n, n = (syncBase dev w.session prompt sig').2 := ⟨_, rfl⟩
  obtain ⟨base, hbase⟩ : ∃ b, b = (syncBase dev w.session prompt sig').1 := ⟨_, rfl⟩
  have hbaseKeeps : ∀ il < mainLayers,
      (if start = 0 then 0 else w.kept il) ≤ attendedFrom il start ∧
        LayerKeeps dev il (base.layer il) start (if start = 0 then 0 else w.kept il) (w.want il) := by
    intro il hil
    rcases hcases with hreset | ⟨hmatch, -, hne, hbegins, heq⟩
    · rw [hreset] at hstart hbase
      rw [hstart, hbase, if_pos rfl]
      exact ⟨Nat.zero_le _, resetKeeps dev w.session il (w.want il)⟩
    · have hpos : 0 < w.session.checkpoint.length := List.length_pos_of_ne_nil hne
      rw [heq] at hstart hbase
      dsimp only at hstart hbase
      rw [hstart, hbase]
      by_cases hlt : w.session.checkpoint.length < prompt.length
      · rw [if_pos hlt]
        exact h.rewoundKeeps (Nat.le_refl _) (hrewind hmatch hbegins hlt) hil
      · rw [if_neg hlt, if_neg (by omega)]
        exact ⟨h.kept_le il hil, h.keeps il hil⟩
  rw [hsess]
  rw [← hstart, ← hbase] at hp
  rw [← hstart] at hle ⊢
  have hcp : (noteSignature s' sig').checkpoint.length = prompt.length := by
    rw [noteSignature_checkpoint]
    exact hlen
  refine .stored base (prompt.length - start) (by rw [hcp]; omega) (by rw [hcp]; exact hctx)
    (fun il hil => ?_) (fun il hil => (hbaseKeeps il hil).2) fun il hil => ?_
  · rw [hcp]
    exact Nat.le_trans (hbaseKeeps il hil).1 (attendedFrom_mono hle)
  · rw [noteSignature_layer, hp.layer il, if_pos hil]
    rfl

/-- The session has the rows that were saved, of a world in which they were right. -/
theorem RowsWorld.Inv.loaded (h' : w'.Inv dev') {g : Row → Row} {front : LoadFront} {t : Session}
    {savedCtx : Nat} (hctx : w'.session.checkpoint.length ≤ savedCtx) (hok : FrontOk dev front savedCtx)
    (hsaved : SavedRows dev' dev w'.session front)
    (hrestored : Restored dev' dev g w'.session front.tokens t) : (w'.loaded dev' g t).Inv dev := by
  have hlen : t.checkpoint.length = w'.session.checkpoint.length := by
    rw [hrestored.checkpoint, hsaved.length_eq]
  have htokens := hok.tokens_le
  rw [hsaved.length_eq] at htokens
  refine ⟨by show t.checkpoint.length ≤ _; omega, fun il hil => ?_, fun il hil => ?_⟩
  · show max (w'.session.checkpoint.length - sessionLayerLiveKvRows dev' w'.session il)
      (w'.kept il) ≤ attendedFrom il t.checkpoint.length
    have hfull := hok.rows_full il hil
    have hsliding := hok.rows_sliding il hil
    have hkept := h'.kept_le il hil
    rw [hsaved.rows_eq il hil, hsaved.length_eq] at hfull hsliding
    rw [hlen]
    have hrows : w'.session.checkpoint.length - sessionLayerLiveKvRows dev' w'.session il ≤
        attendedFrom il w'.session.checkpoint.length := by
      rw [attendedFrom]
      split
      next hf =>
        have := hfull hf
        omega
      next hf =>
        have := hsliding (by simpa using hf)
        omega
    omega
  · show LayerKeeps dev il (t.layer il) t.checkpoint.length
      (max (w'.session.checkpoint.length - sessionLayerLiveKvRows dev' w'.session il) (w'.kept il))
      fun p => (g (w'.want il p).1, g (w'.want il p).2)
    have hrows := hsaved.rows_le il hil
    refine ⟨fun hcpu => ?_, fun p hp hlt => ?_⟩
    · have hn := hrestored.counters hcpu il hil
      omega
    · rw [← Session.rowAt_eq, hrestored.rows il hil p (by omega) (by omega), Session.rowAt_eq,
        (h'.keeps il hil).rows p (by omega) (by omega)]

/-- A session without tokens. -/
theorem RowsWorld.Inv.loadedEmpty {g : Row → Row} {t : Session} {savedCtx : Nat}
    (hempty : w'.session.checkpoint = []) (hkept : w'.Inv dev')
    (hlen : t.checkpoint.length = 0) (hfrom : LoadedFrom dev savedCtx t) :
    (w'.loaded dev' g t).Inv dev := by
  obtain ⟨-, front, hok, hcp, hn⟩ := hfrom
  have hlen' : w'.session.checkpoint.length = 0 := by rw [hempty]; rfl
  refine ⟨by show t.checkpoint.length ≤ _; omega, fun il hil => ?_, fun il hil => ?_⟩
  · show max (w'.session.checkpoint.length - _) (w'.kept il) ≤ attendedFrom il t.checkpoint.length
    have h := hkept.kept_le il hil
    rw [hlen'] at h
    rw [hlen, hlen']
    omega
  · show LayerKeeps dev il (t.layer il) t.checkpoint.length _ _
    rw [hlen]
    refine .empty dev il _ _ fun hcpu => ?_
    have hle := hok.rows_le il hil
    rw [← hcp, hlen] at hle
    have := hn hcpu il hil
    omega

/-- What is remembered stays right. -/
theorem RowsReach.inv (h : RowsReach codec dev w) : w.Inv dev := by
  induction h with
  | created h want => exact .created h want
  | eval h token vals needLogits fault hok ih => exact ih.eval hok
  | evalArgmax h token vals fault path hok ih => exact ih.evalArgmax hok
  | sync h imPatch env vals prompt features sig hsig hrewind hok ih =>
    exact ih.sync hsig hrewind hok
  | reset h ih => exact .reset _ _
  | rewind h pos hpreserves hrewind ih =>
    refine ih.rewind ?_ hrewind
    rw [sessionRewindPreservesKv] at hpreserves
    by_contra hlt
    rw [if_pos (Or.inr (by omega))] at hpreserves
    nomatch hpreserves
  | loadPayload h h' gpu file rest payloadBytes hsave hok ih ih' =>
    obtain ⟨front, hfront, hsaved, hrestored⟩ := payload_restored ih'.length_le hsave hok
    exact ih'.loaded ih'.length_le hfront hsaved hrestored
  | @loadSnapshot dev dev' w w' h h' gpu snap cap hsave hbackend hok ih ih' =>
    by_cases hempty : w'.session.checkpoint = []
    · obtain ⟨-, -, -, hfrom⟩ := snapshot_loaded hok
      have hlen := snapshot_length ih'.length_le hsave hok
      rw [hempty] at hlen
      exact .loadedEmpty hempty ih' hlen hfrom
    · obtain ⟨front, hfront, hsaved, hrestored⟩ :=
        snapshot_restored ih'.length_le (hbackend.resolve_right hempty) hsave hok
      have hctx := hfront.tokens_le
      rw [hsaved.length_eq] at hctx
      exact ih'.loaded hctx hfront hsaved hrestored

/-! ## The next step -/

/-- The next token reads the rows of its window, the right one of each position. -/
def NextTokenReads (dev : Device) (w : RowsWorld) : Prop :=
  ∀ token vals needLogits fault,
    (sessionEvalInternal dev w.session token vals needLogits fault).2 = true →
      ∀ il < mainLayers,
        ReadsWindow dev il
          ((sessionEvalInternal dev w.session token vals needLogits fault).1.layer il)
          w.session.checkpoint.length
          (wantAfter (w.want il) w.session.checkpoint.length (fun _ => vals) il)

/-- So does every token of the next chunk. -/
def NextChunkReads (dev : Device) (w : RowsWorld) : Prop :=
  dev.cuda = true → ∀ vals n needLogits fault, n ≤ dev.prefillCap →
    w.session.checkpoint.length + n ≤ dev.ctxSize →
      (cudaPrefillChunk dev vals w.session.checkpoint.length n needLogits fault w.session).2 = true →
        ∀ il < mainLayers, ∀ pos, w.session.checkpoint.length ≤ pos →
          pos < w.session.checkpoint.length + n →
            ReadsWindow dev il
              ((cudaPrefillChunk dev vals w.session.checkpoint.length n needLogits fault
                w.session).1.layer il) pos
              (wantAfter (w.want il) w.session.checkpoint.length vals il)

theorem RowsWorld.Inv.nextToken (h : w.Inv dev) : NextTokenReads dev w := by
  intro token vals needLogits fault hok il hil
  rcases evalInternal_cases dev w.session token vals needLogits fault with
    ⟨-, hctx, heq⟩ | heq | ⟨-, -, stored, heq⟩
  · rw [heq]
    dsimp only
    rw [stepped_layer dev w.session token vals needLogits hil]
    exact ((h.keeps il hil).storeRow hctx fun _ => vals).attended
      (dev.keptAfter_le hctx (h.kept_le il hil)) (Nat.lt_succ_self _) hctx fun _ => rfl
  · rw [heq] at hok
    nomatch hok
  · rw [heq] at hok
    nomatch hok

theorem RowsWorld.Inv.nextChunk (h : w.Inv dev) : NextChunkReads dev w := by
  intro hcuda vals n needLogits fault hn hctx hok il hil pos hpos hlt
  have hlayer : (cudaPrefillChunk dev vals w.session.checkpoint.length n needLogits fault
      w.session).1.layer il =
        storeRows dev vals il w.session.checkpoint.length n (w.session.layer il) := by
    rw [cudaPrefillChunk] at hok ⊢
    dsimp only at hok ⊢
    cases hf : chunkFaultMet needLogits fault with
    | some f =>
      rw [hf] at hok
      cases hok
    | none => exact if_pos ⟨hil, rfl⟩
  rw [hlayer]
  exact (h.keeps il hil).chunkReads (h.kept_le il hil) hcuda hn hctx vals hpos hlt

/-- In such a run the next step reads every row it needs: each the one that was stored or
restored for its position. -/
theorem nextStep_attends (h : RowsReach codec dev w) : NextTokenReads dev w ∧ NextChunkReads dev w :=
  ⟨h.inv.nextToken, h.inv.nextChunk⟩

/-- A GPU whose sliding layers have room for 768 rows. -/
def gpuDevice : Device := ⟨1024, by decide, by decide, true, 256⟩

/-- A session of so many tokens, evaluated one by one. -/
def evaluated (dev : Device) (vals : Nat → StepValues) : Nat → Session
  | 0 => .ofTokens []
  | n + 1 => (sessionEvalInternal dev (evaluated dev vals n) 1 (vals n) true none).1

/-- Nothing fails. -/
theorem evalInternal_quiet {s : Session} (h : s.checkpoint.length < dev.ctxSize)
    (vals : StepValues) :
    sessionEvalInternal dev s 1 vals true none = (stepped dev s 1 vals true, true) := by
  have hfault : evalFaultMet dev true none = none := by
    rw [evalFaultMet]
    split
    · rfl
    · exact if_neg fun h => by cases h.1
  rw [sessionEvalInternal, if_neg (by decide), if_neg (by omega), hfault]
  rfl

/-- Each of them is evaluated, and its rows are stored. -/
theorem evaluated_spec (dev : Device) (vals : Nat → StepValues) {n : Nat} (h : n ≤ dev.ctxSize) :
    (evaluated dev vals n).checkpoint.length = n ∧ (evaluated dev vals n).checkpointValid = true ∧
      ∀ il < mainLayers, (evaluated dev vals n).layer il =
        storeRows dev vals il 0 n ((Session.ofTokens []).layer il) := by
  induction n with
  | zero => exact ⟨rfl, rfl, fun il _ => rfl⟩
  | succ n ih =>
    obtain ⟨hlen, -, hlayer⟩ := ih (by omega)
    have hstep : evaluated dev vals (n + 1) = stepped dev (evaluated dev vals n) 1 (vals n) true := by
      rw [evaluated, evalInternal_quiet (by omega)]
    rw [hstep]
    refine ⟨?_, rfl, fun il hil => ?_⟩
    · show ((evaluated dev vals n).checkpoint ++ [1]).length = n + 1
      rw [List.length_append, hlen]
      rfl
    · rw [stepped_layer dev _ 1 _ true hil, storeRows_add, Nat.zero_add, ← hlayer il hil, hlen]
      rfl

/-- No row is right before there are tokens. -/
def noRows : RowsWorld := ⟨.ofTokens [], fun _ _ => (Block.fit _ [], Block.fit _ []), fun _ => 0⟩

theorem noRows_reach (codec : KvCodec) (dev : Device) : RowsReach codec dev noRows :=
  .created ⟨rfl, rfl, rfl, fun _ => rfl⟩ noRows.want

/-- The world of such a session. -/
def evaluatedWorld (dev : Device) (vals : Nat → StepValues) : Nat → RowsWorld
  | 0 => noRows
  | n + 1 => (evaluatedWorld dev vals n).stored dev n (fun _ => vals n) (evaluated dev vals (n + 1))

theorem evaluatedWorld_session (dev : Device) (vals : Nat → StepValues) (n : Nat) :
    (evaluatedWorld dev vals n).session = evaluated dev vals n := by
  cases n <;> rfl

theorem evaluatedWorld_reach (codec : KvCodec) (dev : Device) (vals : Nat → StepValues) {n : Nat}
    (h : n ≤ dev.ctxSize) : RowsReach codec dev (evaluatedWorld dev vals n) := by
  induction n with
  | zero => exact noRows_reach codec dev
  | succ n ih =>
    obtain ⟨hlen, -, -⟩ := evaluated_spec dev vals (n := n) (by omega)
    have hsession := evaluatedWorld_session dev vals n
    have hok : (sessionEvalInternal dev (evaluatedWorld dev vals n).session 1 (vals n) true none).2 =
        true := by
      rw [hsession, evalInternal_quiet (by omega)]
    have hreach := (ih (by omega)).eval 1 (vals n) true none hok
    rw [hsession, hlen] at hreach
    exact hreach

theorem evaluatedWorld_kept (hcuda : dev.cuda = true) (vals : Nat → StepValues) {n : Nat}
    (h : n ≤ dev.ctxSize) (il : Nat) :
    (evaluatedWorld dev vals n).kept il = n - dev.cacheCap il := by
  induction n with
  | zero => exact (Nat.zero_sub _).symm
  | succ n ih =>
    obtain ⟨hlen, -, -⟩ := evaluated_spec dev vals h
    show dev.keptAfter il (if n = 0 then 0 else (evaluatedWorld dev vals n).kept il)
      (evaluated dev vals (n + 1)).checkpoint.length = _
    rw [hlen, Device.keptAfter, if_pos hcuda, ih (by omega)]
    split <;> omega

theorem evaluated_tokens (dev : Device) (vals : Nat → StepValues) {n : Nat} (h : n ≤ dev.ctxSize) :
    ∀ t ∈ (evaluated dev vals n).checkpoint, t = 1 := by
  induction n with
  | zero => exact nofun
  | succ n ih =>
    obtain ⟨hlen, -, -⟩ := evaluated_spec dev vals (n := n) (by omega)
    rw [evaluated, evalInternal_quiet (by omega)]
    intro t ht
    rcases List.mem_append.mp ht with ht | ht
    · exact ih (by omega) t ht
    · exact List.mem_singleton.mp ht

theorem liveRows_of_cuda (hcuda : dev.cuda = true) {s : Session}
    (hlen : s.checkpoint.length ≤ dev.ctxSize) (hil : il < mainLayers) :
    sessionLayerLiveKvRows dev s il = min s.checkpoint.length (dev.cacheCap il) := by
  have hcap := dev.cacheCap_pos il
  rw [sessionLayerLiveKvRows, sessionLiveKvRows_eq hlen, dev.layerKvCap_eq hil,
    if_neg (fun h => h.1 hcuda)]
  split <;> omega

/-- Rows that name their position and their layer. -/
def numberedVals (p : Nat) : StepValues := .numbered (UInt8.ofNat p)

/-- A thousand tokens, cut to 980. -/
def rewoundWorld : RowsWorld := (evaluatedWorld gpuDevice numberedVals 1000).rewound gpuDevice 980

/-- Its snapshot. -/
def rewoundSnapshot : Bytes := (sessionSaveSnapshot gpuDevice 0 rewoundWorld.session).getD []

/-- Another session, synced to a prompt. -/
def syncedWorld : RowsWorld :=
  noRows.stored gpuDevice 0 numberedVals
    (sessionSync gpuDevice none .quiet numberedVals (.ofTokens []) [7, 8, 9] none).session

/-- It takes the snapshot, and is cut to 900 tokens. -/
def reloadedWorld : RowsWorld :=
  (rewoundWorld.loaded gpuDevice id
    (sessionLoadSnapshot gpuDevice .ok syncedWorld.session rewoundSnapshot).1).rewound gpuDevice 900

/-- The rows that a thousand tokens leave are those that both rewinds ask for. -/
theorem gpuDevice_kept (il : Nat) : 1000 - gpuDevice.cacheCap il ≤ attendedFrom il 900 := by
  have hctx : gpuDevice.ctxSize = 1024 := rfl
  have hw : slidingWindow = 512 := rfl
  rw [attendedFrom]
  cases hfull : layerIsFull il with
  | true =>
    rw [gpuDevice.cacheCap_of_full hfull, if_pos rfl]
    omega
  | false =>
    have hcap : gpuDevice.cacheCap il = 768 := if_pos ⟨rfl, by simp [hfull]⟩
    rw [hcap, if_neg (by simp)]
    omega

theorem rewoundWorld_reach (codec : KvCodec) :
    RowsReach codec gpuDevice rewoundWorld ∧ rewoundWorld.session.checkpoint.length = 980 := by
  obtain ⟨hlen, hvalid, -⟩ := evaluated_spec gpuDevice numberedVals (show 1000 ≤ gpuDevice.ctxSize by decide)
  have hsession := evaluatedWorld_session gpuDevice numberedVals 1000
  refine ⟨(evaluatedWorld_reach codec gpuDevice numberedVals (by decide)).rewind 980 ?_
    (Or.inr fun il hil => ⟨?_, fun hcpu => nomatch hcpu⟩), ?_⟩
  · rw [sessionRewindPreservesKv, hsession, hvalid, hlen]
    decide
  · rw [evaluatedWorld_kept rfl numberedVals (by decide)]
    exact Nat.le_trans (gpuDevice_kept il) (attendedFrom_mono (by decide))
  · rw [rewoundWorld, rewound_checkpoint, hsession, hlen, List.length_take, hlen]
    rfl

theorem nextStep_attends_reloaded :
    NextTokenReads gpuDevice reloadedWorld ∧ NextChunkReads gpuDevice reloadedWorld := by
  obtain ⟨hrewound, hlen⟩ := rewoundWorld_reach .ofZeros
  have hsynced : RowsReach .ofZeros gpuDevice syncedWorld :=
    (noRows_reach .ofZeros gpuDevice).sync none .quiet numberedVals [7, 8, 9] none none rfl
      (fun _ _ _ => Or.inl rfl) rfl
  have hsavable : Savable gpuDevice rewoundWorld.session := by
    refine ⟨hrewound.inv.length_le, fun t ht => ?_, nofun⟩
    rw [rewoundWorld, rewound_checkpoint, evaluatedWorld_session] at ht
    rw [evaluated_tokens gpuDevice numberedVals (by decide) t (List.mem_of_mem_take ht)]
    decide
  obtain ⟨snap, t, hsave, -, hload, hrestored⟩ := snapshot_roundTrip (SameLayout.refl gpuDevice)
    hsavable rfl 0 syncedWorld.session
  have hsnap : rewoundSnapshot = snap := by rw [rewoundSnapshot, hsave, Option.getD_some]
  have hloaded := hsynced.loadSnapshot hrewound .ok snap 0 hsave (Or.inl rfl) (by rw [hload])
  have hcp : (sessionLoadSnapshot gpuDevice .ok syncedWorld.session snap).1.checkpoint.length =
      980 := by
    rw [hload, hrestored.checkpoint, hlen]
  rw [reloadedWorld, hsnap]
  refine nextStep_attends (hloaded.rewind 900 ?_ (Or.inr fun il hil => ⟨?_, fun hcpu => nomatch hcpu⟩))
  · show sessionRewindPreservesKv gpuDevice
      (sessionLoadSnapshot gpuDevice .ok syncedWorld.session snap).1 900 = true
    rw [sessionRewindPreservesKv, hcp, hload, hrestored.valid]
    decide
  · have hkept := gpuDevice_kept il
    have hsame : rewoundWorld.kept il = 1000 - gpuDevice.cacheCap il := by
      rw [rewoundWorld, rewound_kept (by decide), evaluatedWorld_kept rfl numberedVals (by decide)]
    rw [loaded_kept, liveRows_of_cuda rfl hrewound.inv.length_le hil, hlen, hsame]
    omega

/-! ## A second rewind -/

/-- The keys of position 89 are not those of the others. -/
def markedVals (p : Nat) : StepValues :=
  { StepValues.zero with k := fun _ => Block.fit _ [if p = 89 then 1 else 0] }

/-- A thousand tokens, cut to 743 and then to 600. -/
def rewoundTwice : Session :=
  sessionRewind gpuDevice (sessionRewind gpuDevice (evaluated gpuDevice markedVals 1000) 743) 600

/-- Both rewinds are said to preserve the rows, and the next token reads the row of
position 857 for that of position 89. -/
theorem not_readsWindow_rewoundTwice :
    sessionRewindPreservesKv gpuDevice (evaluated gpuDevice markedVals 1000) 743 = true ∧
      sessionRewindPreservesKv gpuDevice
        (sessionRewind gpuDevice (evaluated gpuDevice markedVals 1000) 743) 600 = true ∧
      (sessionEvalInternal gpuDevice rewoundTwice 1 (markedVals 600) true none).2 = true ∧
      ¬ ReadsWindow gpuDevice 1
        ((sessionEvalInternal gpuDevice rewoundTwice 1 (markedVals 600) true none).1.layer 1) 600
        fun p => ((markedVals p).k 1, (markedVals p).v 1) := by
  obtain ⟨hlen, hvalid, hlayer⟩ := evaluated_spec gpuDevice markedVals
    (show 1000 ≤ gpuDevice.ctxSize by decide)
  obtain ⟨s, hs⟩ : ∃ s, s = evaluated gpuDevice markedVals 1000 := ⟨_, rfl⟩
  have htwice : rewoundTwice = sessionRewind gpuDevice (sessionRewind gpuDevice s 743) 600 := by
    rw [hs, rewoundTwice]
  rw [← hs] at hlen hvalid hlayer ⊢
  have honce : (sessionRewind gpuDevice s 743).checkpoint.length = 743 := by
    show (s.checkpoint.take (min 743 s.checkpoint.length)).length = 743
    rw [hlen, List.length_take, hlen]
    rfl
  have hlen' : rewoundTwice.checkpoint.length = 600 := by
    rw [htwice]
    show ((sessionRewind gpuDevice s 743).checkpoint.take
      (min 600 (sessionRewind gpuDevice s 743).checkpoint.length)).length = 600
    rw [honce, List.length_take, honce]
    rfl
  have hlayers : rewoundTwice.layer 1 = s.layer 1 := by
    rw [htwice]
    rfl
  have hroom : rewoundTwice.checkpoint.length < gpuDevice.ctxSize := by
    rw [hlen']
    decide
  have heval := evalInternal_quiet hroom (markedVals 600)
  have hkeeps : LayerKeeps gpuDevice 1 (s.layer 1) 1000 232
      (wantAfter (noRows.want 1) 0 markedVals 1) := by
    have hempty : LayerKeeps gpuDevice 1 ((Session.ofTokens []).layer 1) 0 0 (noRows.want 1) :=
      .empty gpuDevice 1 0 (noRows.want 1) fun _ => rfl
    have h := hempty.storeRows (show 0 + 1000 ≤ gpuDevice.ctxSize by decide) markedVals
    rw [← hlayer 1 (by decide)] at h
    exact h
  have hrow : (s.layer 1).k 89 = (markedVals 857).k 1 :=
    congrArg Prod.fst (hkeeps.rows 857 (by decide) (by decide))
  refine ⟨?_, ?_, by rw [heval], fun hreads => ?_⟩
  · rw [sessionRewindPreservesKv, hvalid, hlen]
    decide
  · have hvalid' : (sessionRewind gpuDevice s 743).checkpointValid = true := rfl
    rw [sessionRewindPreservesKv, hvalid', honce]
    decide
  · rw [heval] at hreads
    dsimp only at hreads
    rw [stepped_layer gpuDevice rewoundTwice 1 (markedVals 600) true (by decide), hlen', hlayers,
      storeRow_cuda rfl, ReadsWindow] at hreads
    have hhead := congrArg (fun rows : List (Row × Row) => rows.head?.map Prod.fst) hreads
    have hkey : some (Ring.set (s.layer 1).k (600 % gpuDevice.cacheCap 1) ((markedVals 600).k 1) 89) =
        some ((markedVals 89).k 1) := hhead
    rw [Ring.set_of_ne _ _ (by decide), hrow] at hkey
    have hbytes := congrArg (fun b : Row => b.1.head?) (Option.some.inj hkey)
    have hzero : ((markedVals 857).k 1).1.head? = some 0 := Block.head?_fit (by decide) 0 []
    have hone : ((markedVals 89).k 1).1.head? = some 1 := Block.head?_fit (by decide) 1 []
    rw [hzero, hone] at hbytes
    exact absurd hbytes (by decide)

end Sf37.Engine

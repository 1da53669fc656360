/-
Sf37.Engine.ForgetsHistory — the rows after a sync are those of a session that was just
created.

A row is a function of the tokens up to its position and, where they are `<im_patch>`, of
the rows of image features that came with them, or of their absence. `InputsWorld`
remembers both for the tokens of the session. A sync goes by the tokens and by one
signature of all images, and these do not tell with which features a token that is reused
was evaluated: a text prompt finds the rows of images, and a rewind or a token that is
evaluated leaves the signature as it is.

* `InputsWorld.Inv.step`: the rows the next step reads are those of the inputs.
* `sync_forgets`: where the reused tokens have the features of the call, the rows are
  those of a fresh session.
-/
import Sf37.Engine.LayerRows
import Sf37.Engine.Events
import Sf37.Engine.KeptRows
import Mathlib.Data.List.TakeDrop

namespace Sf37.Engine

open Sf37.Text Sf37.Store Sf37.Run
open Sf37.Server (Token Tokens ImageSignature)

variable {X : Type} {dev : Device} {il : Nat}

/-! ## Inputs -/

/-- The rows of image features, and the rows of a layer for a token with those before it. -/
structure Arithmetic (X : Type) where
  featureRow : ImageFeatures → Nat → X
  rows : Nat → List (Token × Option X) → Row × Row

/-- The tokens of a prompt with what `cuda_prefill_apply_image_features` puts in their
place: the patches take the rows of the features one by one. -/
def Arithmetic.promptInputs (a : Arithmetic X) (imPatch : Option Token) (prompt : Tokens)
    (features : Option ImageFeatures) : List (Token × Option X) :=
  prompt.mapIdx fun i t =>
    (t, if imPatch = some t then
      features.map fun f => a.featureRow f (promptCountImPatch imPatch (prompt.take i))
    else none)

theorem Arithmetic.map_promptInputs (a : Arithmetic X) (imPatch : Option Token) (prompt : Tokens)
    (features : Option ImageFeatures) :
    (a.promptInputs imPatch prompt features).map Prod.fst = prompt := by
  refine List.ext_getElem (by simp [Arithmetic.promptInputs]) fun i h₁ h₂ => ?_
  simp [Arithmetic.promptInputs]

theorem Arithmetic.length_promptInputs (a : Arithmetic X) (imPatch : Option Token)
    (prompt : Tokens) (features : Option ImageFeatures) :
    (a.promptInputs imPatch prompt features).length = prompt.length :=
  List.length_mapIdx

/-- What is computed for a position are the rows of its inputs. -/
def Arithmetic.Computes (a : Arithmetic X) (vals : StepValues) (inputs : List (Token × Option X)) :
    Prop :=
  ∀ il < mainLayers, (vals.k il, vals.v il) = a.rows il inputs

/-- The rows that are right for some inputs. -/
def Arithmetic.want (a : Arithmetic X) (inputs : List (Token × Option X)) (il p : Nat) : Row × Row :=
  a.rows il (inputs.take (p + 1))

/-! ## Runs -/

/-- A session, and what its tokens were evaluated with. -/
structure InputsWorld (X : Type) where
  session : Session
  inputs : List (Token × Option X)

/-- The inputs of a sync that goes on from some of the tokens. -/
def InputsWorld.syncInputs (a : Arithmetic X) (imPatch : Option Token) (w : InputsWorld X)
    (prompt : Tokens) (features : Option ImageFeatures) (start : Nat) : List (Token × Option X) :=
  w.inputs.take start ++ (a.promptInputs imPatch prompt features).drop start

/-- What the tokens were evaluated with, after a call. -/
def inputsAfter (a : Arithmetic X) (e : Setup) (w : InputsWorld X) :
    SessionEvent → List (Token × Option X)
  | .eval token vals needLogits fault =>
      if (sessionEvalInternal e.dev w.session token vals needLogits fault).2 then
        w.inputs ++ [(token, none)]
      else w.inputs
  | .evalArgmax token vals fault _ =>
      if (sessionEvalInternal e.dev w.session token vals false fault).2 then
        w.inputs ++ [(token, none)]
      else w.inputs
  | .sync env vals prompt features =>
      if e.dev.ctxSize < prompt.length then w.inputs
      else
        match sessionPrepareImageSignature e.imPatch prompt features with
        | none => w.inputs
        | some sig =>
            let start := (syncBase e.dev w.session prompt sig).2
            (w.syncInputs a e.imPatch prompt features start).take
              (start + (sessionSync e.dev e.imPatch env vals w.session prompt features).evaluated)
  | .rewind pos => w.inputs.take pos
  | _ => w.inputs

/-- The world after a call. -/
def InputsWorld.step (a : Arithmetic X) (e : Setup) (w : InputsWorld X) (ev : SessionEvent) :
    InputsWorld X :=
  ⟨e.apply w.session ev, inputsAfter a e w ev⟩

/-- The calls of a run: syncs and tokens, for which the rows of their inputs are computed,
and rewinds to positions for which the rows that the next step reads are there. -/
def RowsCall (a : Arithmetic X) (e : Setup) (w : InputsWorld X) : SessionEvent → Prop
  | .eval token vals _ _ | .evalArgmax token vals _ _ =>
      a.Computes vals (w.inputs ++ [(token, none)])
  | .sync _ vals prompt features =>
      ∀ sig, sessionPrepareImageSignature e.imPatch prompt features = some sig →
        ∀ i < prompt.length, (syncBase e.dev w.session prompt sig).2 ≤ i →
          a.Computes (vals i) ((w.syncInputs a e.imPatch prompt features
            (syncBase e.dev w.session prompt sig).2).take (i + 1))
  | .rewind pos =>
      ∀ il < mainLayers, ∀ p < (sessionRewind e.dev w.session pos).checkpoint.length,
        attendedFrom il (sessionRewind e.dev w.session pos).checkpoint.length ≤ p →
          (sessionRewind e.dev w.session pos).rowAt e.dev il p = a.want w.inputs il p
  | .save => True
  | _ => False

/-- The worlds of such runs. -/
def InputsReach (a : Arithmetic X) (e : Setup) : InputsWorld X → Prop :=
  Comes (InputsWorld.step a e) (fun w => Created w.session ∧ w.inputs = []) (RowsCall a e)

/-! ## The invariant -/

/-- The inputs are those of the tokens, and the layers have the rows that the next step
reads. -/
structure InputsWorld.Inv (a : Arithmetic X) (dev : Device) (w : InputsWorld X) : Prop where
  tokens : w.inputs.map Prod.fst = w.session.checkpoint
  length_le : w.session.checkpoint.length ≤ dev.ctxSize
  counts : dev.cuda = false → ∀ il < mainLayers,
    (w.session.layer il).n = w.session.checkpoint.length
  keeps : ∀ il < mainLayers,
    LayerKeeps dev il (w.session.layer il) w.session.checkpoint.length
      (attendedFrom il w.session.checkpoint.length) (a.want w.inputs il)

variable {a : Arithmetic X} {e : Setup} {w : InputsWorld X}

theorem InputsWorld.Inv.length (h : w.Inv a dev) : w.inputs.length = w.session.checkpoint.length := by
  rw [← h.tokens, List.length_map]

theorem want_take (inputs : List (Token × Option X)) {n p : Nat} (h : p < n) :
    a.want (inputs.take n) il p = a.want inputs il p := by
  rw [Arithmetic.want, Arithmetic.want, List.take_take, Nat.min_eq_left h]

theorem want_append (inputs more : List (Token × Option X)) {p : Nat} (h : p < inputs.length) :
    a.want (inputs ++ more) il p = a.want inputs il p := by
  rw [Arithmetic.want, Arithmetic.want, List.take_append_of_le_length h]

/-- Only the vectors, the signature and the validity were changed. -/
theorem InputsWorld.Inv.congr {s : Session} (h : w.Inv a dev)
    (hc : s.checkpoint = w.session.checkpoint) (hl : s.layer = w.session.layer) :
    InputsWorld.Inv a dev ⟨s, w.inputs⟩ := by
  refine ⟨h.tokens.trans hc.symm, ?_, ?_, ?_⟩
  · show s.checkpoint.length ≤ _
    rw [hc]
    exact h.length_le
  · show _ → ∀ il < mainLayers, (s.layer il).n = s.checkpoint.length
    rw [hc, hl]
    exact h.counts
  · show ∀ il < mainLayers, LayerKeeps dev il (s.layer il) s.checkpoint.length
      (attendedFrom il s.checkpoint.length) (a.want w.inputs il)
    rw [hc, hl]
    exact h.keeps

theorem InputsWorld.Inv.created (h : Created w.session) (hinputs : w.inputs = []) :
    w.Inv a dev := by
  obtain ⟨hcp, -, -, hn⟩ := h
  have hlen : w.session.checkpoint.length = 0 := by rw [hcp]; rfl
  refine ⟨by rw [hinputs, hcp]; rfl, by omega, fun _ il _ => by rw [hn, hlen], fun il _ => ?_⟩
  rw [hlen]
  exact .empty dev il _ _ fun _ => hn il

/-! ## One token -/

/-- Rows of positions behind the tokens, which were stored before a step failed, are in
the place of none that the next step reads. -/
theorem LayerKeeps.torn {layer : LayerCache} {len n : Nat} {want : Nat → Row × Row}
    (h : LayerKeeps dev il layer len (attendedFrom il len) want) (hcuda : dev.cuda = true)
    (hctx : len + n ≤ dev.ctxSize) (hroom : len + n - dev.cacheCap il ≤ attendedFrom il len)
    (vals : Nat → StepValues) :
    LayerKeeps dev il (Engine.storeRows dev vals il len n layer) len (attendedFrom il len) want := by
  have hafter : dev.keptAfter il (attendedFrom il len) (len + n) = attendedFrom il len := by
    rw [Device.keptAfter, if_pos hcuda]
    omega
  have hrows := (h.storeRows hctx vals).rows
  refine ⟨fun hcpu => ?_, fun p hp hlt => ?_⟩
  · rw [hcuda] at hcpu
    cases hcpu
  · have hrow := hrows p (by split <;> omega) (by omega)
    rw [Device.rowsAt, Device.rowSlot, if_pos hcuda, wantAfter, if_pos hlt] at hrow
    rw [Device.rowsAt, Device.rowSlot, if_pos hcuda]
    exact hrow

theorem InputsWorld.Inv.stepped (h : w.Inv a dev) {token : Token} {vals : StepValues}
    (hctx : w.session.checkpoint.length < dev.ctxSize)
    (hvals : a.Computes vals (w.inputs ++ [(token, none)])) (needLogits : Bool) :
    InputsWorld.Inv a dev
      ⟨Engine.stepped dev w.session token vals needLogits, w.inputs ++ [(token, none)]⟩ := by
  have hlen : (w.session.checkpoint ++ [token]).length = w.session.checkpoint.length + 1 := by
    rw [List.length_append]
    rfl
  refine ⟨?_, ?_, fun hcpu il hil => ?_, fun il hil => ?_⟩
  · show (w.inputs ++ [(token, none)]).map Prod.fst = w.session.checkpoint ++ [token]
    rw [List.map_append, h.tokens]
    rfl
  · show (w.session.checkpoint ++ [token]).length ≤ _
    omega
  · show ((Engine.stepped dev w.session token vals needLogits).layer il).n =
      (w.session.checkpoint ++ [token]).length
    have hn := h.counts hcpu il hil
    rw [stepped_layer dev w.session token vals needLogits hil, storeRow_cpu hcpu _ _ _ (by omega), hlen]
    exact congrArg (· + 1) hn
  · show LayerKeeps dev il ((Engine.stepped dev w.session token vals needLogits).layer il)
      (w.session.checkpoint ++ [token]).length
      (attendedFrom il (w.session.checkpoint ++ [token]).length) _
    rw [stepped_layer dev w.session token vals needLogits hil, hlen]
    have hkept := dev.keptAfter_le hctx (Nat.le_refl (attendedFrom il w.session.checkpoint.length))
    refine (((h.keeps il hil).storeRow hctx fun _ => vals).mono
      (Nat.le_trans hkept (attendedFrom_mono (Nat.le_succ _)))).congr fun p _ hp => ?_
    rw [wantAfter]
    split
    next hlt =>
      rw [want_append]
      rw [h.length]
      exact hlt
    next hge =>
      rw [hvals il hil, Arithmetic.want, List.take_of_length_le]
      rw [List.length_append, h.length, List.length_singleton]
      omega

theorem InputsWorld.Inv.evalInternal (h : w.Inv a dev) {token : Token} {vals : StepValues}
    (hvals : a.Computes vals (w.inputs ++ [(token, none)])) (needLogits : Bool)
    (fault : Option EvalFault) :
    InputsWorld.Inv a dev
      ⟨(sessionEvalInternal dev w.session token vals needLogits fault).1,
        if (sessionEvalInternal dev w.session token vals needLogits fault).2 then
          w.inputs ++ [(token, none)] else w.inputs⟩ := by
  rcases evalInternal_cases dev w.session token vals needLogits fault with
    ⟨-, hctx, heq⟩ | heq | ⟨hcuda, hctx, stored, heq⟩
  · rw [heq]
    exact h.stepped hctx hvals needLogits
  · rw [heq]
    exact h
  · rw [heq]
    refine ⟨h.tokens, h.length_le, fun hcpu => ?_, fun il hil => ?_⟩
    · rw [hcuda] at hcpu
      nomatch hcpu
    · show LayerKeeps dev il ((storeStep dev vals stored w.session.checkpoint.length w.session).layer il)
        w.session.checkpoint.length (attendedFrom il w.session.checkpoint.length) (a.want w.inputs il)
      rw [storeStep_layer]
      split
      · exact (h.keeps il hil).torn (n := 1) hcuda hctx (sub_cacheCap_le dev il hctx) fun _ => vals
      · exact h.keeps il hil

theorem InputsWorld.Inv.evalArgmax (h : w.Inv a dev) {token : Token} {vals : StepValues}
    (hvals : a.Computes vals (w.inputs ++ [(token, none)])) (fault : Option EvalFault)
    (path : ArgmaxPath) :
    InputsWorld.Inv a dev
      ⟨(sessionEvalArgmax dev w.session token vals fault path).1,
        if (sessionEvalInternal dev w.session token vals false fault).2 then
          w.inputs ++ [(token, none)] else w.inputs⟩ := by
  have hstep := h.evalInternal hvals false fault
  rcases evalArgmax_cases dev w.session token vals fault path with
    ⟨-, heq⟩ | ⟨-, ⟨-, -, heq⟩ | ⟨-, -, heq⟩ | ⟨-, heq⟩⟩ <;> rw [heq]
  · exact hstep
  · exact hstep
  · exact hstep.congr rfl rfl
  · exact hstep.congr rfl rfl

/-! ## Rewinds -/

theorem length_rewind (dev : Device) (s : Session) (pos : Nat) :
    (sessionRewind dev s pos).checkpoint.length = min pos s.checkpoint.length := by
  show (s.checkpoint.take (min pos s.checkpoint.length)).length = _
  rw [List.length_take]
  omega

theorem InputsWorld.Inv.rewind (h : w.Inv a dev) {pos : Nat}
    (hrows : ∀ il < mainLayers, ∀ p < (sessionRewind dev w.session pos).checkpoint.length,
      attendedFrom il (sessionRewind dev w.session pos).checkpoint.length ≤ p →
        (sessionRewind dev w.session pos).rowAt dev il p = a.want w.inputs il p) :
    InputsWorld.Inv a dev ⟨sessionRewind dev w.session pos, w.inputs.take pos⟩ := by
  have hlen := length_rewind dev w.session pos
  have hn : dev.cuda = false → ∀ il,
      ((sessionRewind dev w.session pos).layer il).n = min pos w.session.checkpoint.length := by
    intro hcpu il
    show (if dev.cuda then w.session.layer il
      else { w.session.layer il with n := min pos w.session.checkpoint.length }).n = _
    rw [if_neg (by simp [hcpu])]
  refine ⟨?_, ?_, fun hcpu il _ => (hn hcpu il).trans hlen.symm, fun il hil => ⟨fun hcpu => ?_,
    fun p hp hlt => ?_⟩⟩
  · show (w.inputs.take pos).map Prod.fst = w.session.checkpoint.take (min pos w.session.checkpoint.length)
    rw [List.map_take, h.tokens, ← List.take_eq_take_min]
  · show (sessionRewind dev w.session pos).checkpoint.length ≤ _
    have := h.length_le
    omega
  · show ((sessionRewind dev w.session pos).layer il).n ≤ _ ∧
      (sessionRewind dev w.session pos).checkpoint.length ≤ _
    have := hn hcpu il
    dsimp only
    omega
  · rw [← Session.rowAt_eq, hrows il hil p hlt hp, want_take]
    have hlt : p < (sessionRewind dev w.session pos).checkpoint.length := hlt
    omega

/-! ## Syncs -/

/-- What a sync evaluates from. -/
theorem InputsWorld.Inv.syncBase (h : w.Inv a dev) (prompt : Tokens) (sig : Option ImageSignature) :
    (syncBase dev w.session prompt sig).2 ≤ w.session.checkpoint.length ∧
      w.session.checkpoint.take (syncBase dev w.session prompt sig).2 =
        prompt.take (syncBase dev w.session prompt sig).2 ∧
      ∀ il < mainLayers,
        (dev.cuda = false → ((syncBase dev w.session prompt sig).1.layer il).n =
          (syncBase dev w.session prompt sig).2) ∧
        LayerKeeps dev il ((syncBase dev w.session prompt sig).1.layer il)
          (syncBase dev w.session prompt sig).2
          (attendedFrom il (syncBase dev w.session prompt sig).2) (a.want w.inputs il) := by
  obtain ⟨-, -, -, hreset | ⟨-, -, -, hbegins, heq⟩⟩ := syncBase_spec dev w.session prompt sig
  · rw [hreset]
    have hn : dev.cuda = false → ∀ il, ((sessionReset dev w.session).layer il).n = 0 := by
      intro hcpu il
      show (if dev.cuda then w.session.layer il else { w.session.layer il with n := 0 }).n = 0
      rw [if_neg (by simp [hcpu])]
    exact ⟨Nat.zero_le _, rfl, fun il _ => ⟨fun hcpu => hn hcpu il,
      .empty dev il _ _ fun hcpu => hn hcpu il⟩⟩
  · rw [heq]
    dsimp only
    refine ⟨Nat.le_refl _, ?_, fun il hil => ?_⟩
    · rw [List.take_length]
      exact List.prefix_iff_eq_take.mp hbegins
    · split
      · have hlayer : (sessionRewind dev w.session w.session.checkpoint.length).layer il =
            w.session.layer il := by
          show (if dev.cuda then w.session.layer il else { w.session.layer il with
            n := min w.session.checkpoint.length w.session.checkpoint.length }) = _
          split
          · rfl
          next hcuda =>
            rw [Nat.min_self, ← h.counts (by simpa using hcuda) il hil]
        rw [hlayer]
        exact ⟨fun hcpu => h.counts hcpu il hil, h.keeps il hil⟩
      · exact ⟨fun hcpu => h.counts hcpu il hil, h.keeps il hil⟩

/-- However far a sync gets, the rows are those of what it evaluated. -/
theorem InputsWorld.Inv.stopped (h : w.Inv a dev) {imPatch : Option Token}
    {vals : Nat → StepValues} {prompt : Tokens} {features : Option ImageFeatures}
    {sig : Option ImageSignature} {m : Nat} {s : Session} (hctx : prompt.length ≤ dev.ctxSize)
    (hvals : ∀ i < prompt.length, (Engine.syncBase dev w.session prompt sig).2 ≤ i →
      a.Computes (vals i) ((w.syncInputs a imPatch prompt features
        (Engine.syncBase dev w.session prompt sig).2).take (i + 1)))
    (hst : Stopped dev vals prompt (Engine.syncBase dev w.session prompt sig).1
      (Engine.syncBase dev w.session prompt sig).2 m dev.prefillCap s) :
    InputsWorld.Inv a dev ⟨s, (w.syncInputs a imPatch prompt features
      (Engine.syncBase dev w.session prompt sig).2).take m⟩ := by
  obtain ⟨hblen, hbcp, hle, -⟩ := syncBase_spec dev w.session prompt sig
  obtain ⟨hstart, htake, hbase⟩ := h.syncBase prompt sig
  obtain ⟨torn, hp, hbound, hend, htorn⟩ := hst
  have hlen := hp.length hblen
  obtain ⟨start, hs⟩ : ∃ n, n = (Engine.syncBase dev w.session prompt sig).2 := ⟨_, rfl⟩
  obtain ⟨base, hb⟩ : ∃ b, b = (Engine.syncBase dev w.session prompt sig).1 := ⟨_, rfl⟩
  rw [← hs] at hp hle hstart htake hbase hvals hbcp ⊢
  rw [← hb] at hp hbase hbcp
  have hsm := hp.start_le
  have hmp := hp.le_length
  refine ⟨?_, by show s.checkpoint.length ≤ _; omega, fun hcpu il hil => ?_, fun il hil => ?_⟩
  · show ((w.syncInputs a imPatch prompt features start).take m).map Prod.fst = s.checkpoint
    rw [hp.checkpoint, hbcp, List.map_take, InputsWorld.syncInputs, List.map_append, List.map_take,
      h.tokens, List.map_drop, a.map_promptInputs, htake, List.take_append_drop]
    have hfront : prompt.take start = (prompt.take m).take start := by
      rw [List.take_take, Nat.min_eq_left hsm]
    rw [hfront, List.take_append_drop]
  · show (s.layer il).n = s.checkpoint.length
    have hnone : torn il = 0 := by
      by_contra hne
      have hcuda := (htorn ⟨il, hne⟩).2
      rw [hcpu] at hcuda
      nomatch hcuda
    have hn := (hbase il hil).1 hcpu
    rw [hp.layer il, if_pos hil, hnone, (storeRows_cpu vals hcpu il start _ _ (by omega)).1, hlen]
    omega
  · show LayerKeeps dev il (s.layer il) s.checkpoint.length (attendedFrom il s.checkpoint.length) _
    have hrows := (hbase il hil).2.storeRows (n := m - start) (by omega) vals
    rw [hp.layer il, if_pos hil, storeRows_add, hlen]
    rw [Nat.add_sub_cancel' hsm] at hrows ⊢
    have hmono : attendedFrom il start ≤ attendedFrom il m := attendedFrom_mono hsm
    have hkept : (if m - start = 0 then attendedFrom il start
        else dev.keptAfter il (attendedFrom il start) m) ≤ attendedFrom il m := by
      split
      · exact hmono
      · exact keptAfter_le_attendedFrom dev (by omega) hmono
    have hwant : ∀ p < m, wantAfter (a.want w.inputs il) start vals il p =
        a.want ((w.syncInputs a imPatch prompt features start).take m) il p := by
      intro p hpm
      rw [want_take _ hpm, wantAfter]
      split
      next hlt =>
        rw [InputsWorld.syncInputs, want_append, want_take _ hlt]
        rw [List.length_take, h.length]
        omega
      next hge => exact hvals p (by omega) (by omega) il hil
    have hfilled := (hrows.mono hkept).congr fun p _ hpm => hwant p hpm
    by_cases hnone : torn il = 0
    · rw [hnone]
      exact hfilled
    · exact hfilled.torn (htorn ⟨il, hnone⟩).2 (by have := hend il; omega)
        (sub_cacheCap_le_of_chunk il (htorn ⟨il, hnone⟩).2 (hbound il) (by have := hend il; omega)) vals

theorem InputsWorld.Inv.sync (h : w.Inv a dev) {imPatch : Option Token} (env : SyncEnv)
    {vals : Nat → StepValues} {prompt : Tokens} {features : Option ImageFeatures}
    {sig : Option ImageSignature} (hctx : prompt.length ≤ dev.ctxSize)
    (hsig : sessionPrepareImageSignature imPatch prompt features = some sig)
    (hvals : ∀ i < prompt.length, (Engine.syncBase dev w.session prompt sig).2 ≤ i →
      a.Computes (vals i) ((w.syncInputs a imPatch prompt features
        (Engine.syncBase dev w.session prompt sig).2).take (i + 1))) :
    InputsWorld.Inv a dev
      ⟨(sessionSync dev imPatch env vals w.session prompt features).session,
        (w.syncInputs a imPatch prompt features (Engine.syncBase dev w.session prompt sig).2).take
          ((Engine.syncBase dev w.session prompt sig).2 +
            (sessionSync dev imPatch env vals w.session prompt features).evaluated)⟩ := by
  rcases sync_cases dev imPatch env vals w.session prompt features with
    ⟨hno, -⟩ | ⟨sig', m, s', -, hsig', hst, hev, hres⟩
  · rcases hno with hno | hno
    · omega
    · rw [hsig] at hno
      nomatch hno
  · obtain rfl : sig' = sig := Option.some.inj (hsig'.symm.trans hsig)
    have hinv := h.stopped hctx hvals hst
    obtain ⟨torn, hp, -⟩ := hst
    rw [hev, Nat.add_sub_cancel' hp.start_le]
    rcases hres with ⟨-, heq⟩ | ⟨-, -, -, -, heq⟩
    · rw [heq]
      exact hinv
    · rw [heq]
      exact hinv.congr (noteSignature_checkpoint s' sig') (noteSignature_layer s' sig')

/-! ## Every call -/

/-- The rows that the next step reads stay those of the inputs. -/
theorem InputsWorld.Inv.step (h : w.Inv a e.dev) (ev : SessionEvent) (hcall : RowsCall a e w ev) :
    (w.step a e ev).Inv a e.dev := by
  cases ev with
  | eval token vals needLogits fault => exact h.evalInternal hcall needLogits fault
  | evalArgmax token vals fault path => exact h.evalArgmax hcall fault path
  | sync env vals prompt features =>
    show InputsWorld.Inv a e.dev
      ⟨(sessionSync e.dev e.imPatch env vals w.session prompt features).session, inputsAfter a e w _⟩
    rw [inputsAfter]
    split
    next hctx =>
      rcases sync_cases e.dev e.imPatch env vals w.session prompt features with
        ⟨-, heq⟩ | ⟨-, -, -, hle, -⟩
      · rw [heq]
        exact h
      · omega
    next hctx =>
      split
      next hsig =>
        rcases sync_cases e.dev e.imPatch env vals w.session prompt features with
          ⟨-, heq⟩ | ⟨sig, -, -, -, hsig', -⟩
        · rw [heq]
          exact h
        · rw [hsig] at hsig'
          nomatch hsig'
      next sig hsig => exact h.sync env (Nat.le_of_not_lt hctx) hsig (hcall sig hsig)
  | rewind pos => exact h.rewind hcall
  | save => exact h
  | loadPayload gpu data payloadBytes => exact absurd hcall not_false
  | loadSnapshot gpu snap => exact absurd hcall not_false
  | output effect => exact absurd hcall not_false
  | noteImages prompt features => exact absurd hcall not_false

theorem InputsReach.inv (h : InputsReach a e w) : w.Inv a e.dev :=
  Comes.invariant (fun _ hw => .created hw.1 hw.2) (fun _ ev hw hcall => hw.step ev hcall) h

/-! ## A successful sync -/

/-- A sync that goes on from the session's tokens finds that each `<im_patch>` among them
was evaluated with the feature row, or without one, that the call gives it. -/
def FindsPatches (a : Arithmetic X) (e : Setup) (w : InputsWorld X) (prompt : Tokens)
    (features : Option ImageFeatures) : Prop :=
  ∀ sig, sessionPrepareImageSignature e.imPatch prompt features = some sig →
    signatureMatches w.session sig = true → w.session.checkpointValid = true →
      w.session.checkpoint <+: prompt →
        w.inputs = (a.promptInputs e.imPatch prompt features).take w.session.checkpoint.length

/-- A session has the tokens of a prompt, and every row the next step reads is that of
the prompt and its features. -/
def HasRowsOf (a : Arithmetic X) (e : Setup) (s : Session) (prompt : Tokens)
    (features : Option ImageFeatures) : Prop :=
  s.checkpoint = prompt ∧ ∀ il < mainLayers, ∀ p < prompt.length,
    attendedFrom il prompt.length ≤ p →
      s.rowAt e.dev il p = a.want (a.promptInputs e.imPatch prompt features) il p

theorem InputsReach.hasRowsOf (h : InputsReach a e w) {env : SyncEnv} {vals : Nat → StepValues}
    {prompt : Tokens} {features : Option ImageFeatures}
    (hcall : RowsCall a e w (.sync env vals prompt features))
    (hfinds : FindsPatches a e w prompt features)
    (hok : (sessionSync e.dev e.imPatch env vals w.session prompt features).ok = true) :
    HasRowsOf a e (sessionSync e.dev e.imPatch env vals w.session prompt features).session prompt
      features := by
  rcases sync_cases e.dev e.imPatch env vals w.session prompt features with
    ⟨-, heq⟩ | ⟨sig, m, s', hctx, hsig, hst, hev, ⟨hno, -⟩ | ⟨-, hm, hp, -, heq⟩⟩
  · rw [heq] at hok
    nomatch hok
  · rw [hno] at hok
    nomatch hok
  · have hinv := h.inv.sync env hctx hsig (hcall sig hsig)
    have hinputs : w.syncInputs a e.imPatch prompt features (syncBase e.dev w.session prompt sig).2 =
        a.promptInputs e.imPatch prompt features := by
      rw [InputsWorld.syncInputs]
      obtain ⟨-, -, -, hreset | ⟨hmatch, hvalid, -, hbegins, hbase⟩⟩ :=
        syncBase_spec e.dev w.session prompt sig
      · rw [hreset]
        rfl
      · rw [hbase, hfinds sig hsig hmatch hvalid hbegins, List.take_take, Nat.min_self,
          List.take_append_drop]
    rw [hev, Nat.add_sub_cancel' hp.start_le, hinputs, hm,
      List.take_of_length_le (Nat.le_of_eq (a.length_promptInputs _ _ _))] at hinv
    have hcp := hinv.tokens
    rw [a.map_promptInputs] at hcp
    refine ⟨hcp.symm, fun il hil p hlt hp => ?_⟩
    have hlen := congrArg List.length hcp
    rw [Session.rowAt_eq]
    exact (hinv.keeps il hil).rows p (by rw [← hlen]; exact hp) (by rw [← hlen]; exact hlt)

/-- After a successful sync that finds the patches it reuses, the tokens are the prompt and
every row that the next step reads is the one that a session which was just created would
have after the same call. -/
theorem sync_forgets (h : InputsReach a e w) {env : SyncEnv} {vals : Nat → StepValues}
    {prompt : Tokens} {features : Option ImageFeatures}
    (hcall : RowsCall a e w (.sync env vals prompt features))
    (hfinds : FindsPatches a e w prompt features)
    (hok : (sessionSync e.dev e.imPatch env vals w.session prompt features).ok = true) :
    (sessionSync e.dev e.imPatch env vals w.session prompt features).session.checkpoint = prompt ∧
      ∀ (fresh : Session) (env' : SyncEnv) (vals' : Nat → StepValues), Created fresh →
        RowsCall a e ⟨fresh, []⟩ (.sync env' vals' prompt features) →
        (sessionSync e.dev e.imPatch env' vals' fresh prompt features).ok = true →
          ∀ il < mainLayers, ∀ p < prompt.length, attendedFrom il prompt.length ≤ p →
            (sessionSync e.dev e.imPatch env vals w.session prompt features).session.rowAt
                e.dev il p =
              (sessionSync e.dev e.imPatch env' vals' fresh prompt features).session.rowAt
                e.dev il p := by
  obtain ⟨htokens, hrows⟩ := h.hasRowsOf hcall hfinds hok
  refine ⟨htokens, fun fresh env' vals' hfresh hcall' hok' il hil p hlt hp => ?_⟩
  have hreach : InputsReach a e ⟨fresh, []⟩ := .start ⟨hfresh, rfl⟩
  obtain ⟨-, hrows'⟩ := hreach.hasRowsOf hcall' (fun _ _ _ _ _ => by rw [hfresh.1]; rfl) hok'
  rw [hrows il hil p hlt hp, hrows' il hil p hlt hp]

/-- A session without tokens evaluates all of the prompt. -/
theorem rowsCall_fresh {fresh : Session} (h : Created fresh) {env : SyncEnv}
    {vals : Nat → StepValues} {prompt : Tokens} {features : Option ImageFeatures}
    (hvals : ∀ i < prompt.length,
      a.Computes (vals i) ((a.promptInputs e.imPatch prompt features).take (i + 1))) :
    RowsCall a e ⟨fresh, []⟩ (.sync env vals prompt features) := by
  intro sig hsig i hi _
  obtain ⟨-, -, -, hreset | ⟨-, -, hne, -⟩⟩ := syncBase_spec e.dev fresh prompt sig
  · show a.Computes (vals i) ((InputsWorld.syncInputs a e.imPatch ⟨fresh, []⟩ prompt features
      (syncBase e.dev fresh prompt sig).2).take (i + 1))
    rw [hreset]
    exact hvals i hi
  · exact absurd h.1 hne

/-! ## A patch without its image -/

/-- Keys that tell whether a row of an image is among the inputs. -/
def imageMark (inputs : List (Token × Option Unit)) : Row :=
  Block.fit _ [if inputs.any fun i => i.2.isSome then 1 else 0]

/-- Rows that tell no more than that. -/
def markArithmetic : Arithmetic Unit where
  featureRow := fun _ _ => ()
  rows := fun _ inputs => (imageMark inputs, Block.fit _ [])

/-- What is computed of some inputs. -/
def markVals (inputs : List (Token × Option Unit)) : StepValues :=
  { StepValues.zero with k := fun _ => imageMark inputs }

theorem computes_markVals (inputs : List (Token × Option Unit)) :
    markArithmetic.Computes (markVals inputs) inputs :=
  fun _ _ => rfl

/-- A small model on the GPU whose patches are token 5. -/
def patchSetup : Setup := ⟨gpuDevice, some 5, .ofZeros⟩

/-- One row of an image. -/
def oneImageRow : ImageFeatures where
  hasPixels := false
  pixelRows := none
  rows := 1
  dim := embd
  hasData := true
  hashes := some (1, 2)
  contents := []

/-- A world without tokens. -/
def noInputs : InputsWorld Unit := ⟨.ofTokens [], []⟩

/-- What is computed for a patch with its image. -/
def imageVals (i : Nat) : StepValues :=
  markVals ((markArithmetic.promptInputs (some 5) [1, 5] (some oneImageRow)).take (i + 1))

/-- A sync with them. -/
def imageSync : SessionEvent := .sync .quiet imageVals [1, 5] (some oneImageRow)

theorem imageSync_call : RowsCall markArithmetic patchSetup noInputs imageSync :=
  have hcreated : Created (.ofTokens []) := ⟨rfl, rfl, rfl, fun _ => rfl⟩
  rowsCall_fresh hcreated fun _ _ => computes_markVals _

theorem sync_forgets_again :
    (sessionSync gpuDevice (some 5) .quiet imageVals
        (noInputs.step markArithmetic patchSetup imageSync).session [1, 5]
        (some oneImageRow)).session.checkpoint = [1, 5] ∧
      ∀ (fresh : Session) (env' : SyncEnv) (vals' : Nat → StepValues), Created fresh →
        RowsCall markArithmetic patchSetup ⟨fresh, []⟩
          (.sync env' vals' [1, 5] (some oneImageRow)) →
        (sessionSync gpuDevice (some 5) env' vals' fresh [1, 5] (some oneImageRow)).ok = true →
          ∀ il < mainLayers, ∀ p < [1, 5].length, attendedFrom il [1, 5].length ≤ p →
            (sessionSync gpuDevice (some 5) .quiet imageVals
                (noInputs.step markArithmetic patchSetup imageSync).session [1, 5]
                (some oneImageRow)).session.rowAt gpuDevice il p =
              (sessionSync gpuDevice (some 5) env' vals' fresh [1, 5]
                (some oneImageRow)).session.rowAt gpuDevice il p := by
  have hbase : ∀ sig, sessionPrepareImageSignature (some 5) [1, 5] (some oneImageRow) = some sig →
      (syncBase gpuDevice (noInputs.step markArithmetic patchSetup imageSync).session [1, 5] sig).2 =
        2 := by
    intro sig hsig
    have hsig' : some (some ⟨1, 2, 1⟩) = some sig := hsig
    rw [← Option.some.inj hsig']
    decide
  refine sync_forgets (e := patchSetup)
    (.step (.start ⟨⟨rfl, rfl, rfl, fun _ => rfl⟩, rfl⟩) imageSync imageSync_call)
    (fun sig hsig i hi hstart => ?_) (fun _ _ _ _ _ => by decide) (by decide)
  have hlen : i < 2 := hi
  have := hbase sig hsig
  have hstart : (syncBase gpuDevice (noInputs.step markArithmetic patchSetup imageSync).session
    [1, 5] sig).2 ≤ i := hstart
  omega

/-- The patch is taken back. -/
def withoutPatch : InputsWorld Unit :=
  (noInputs.step markArithmetic patchSetup imageSync).step markArithmetic patchSetup (.rewind 1)

/-- It comes back as a token that was generated. -/
def patchAsToken : InputsWorld Unit :=
  withoutPatch.step markArithmetic patchSetup
    (.eval 5 (markVals [(1, none), (5, none)]) true none)

/-- On the GPU a rewind leaves the rows where they are. -/
theorem rowAt_rewind (hcuda : dev.cuda = true) (s : Session) (pos p : Nat) :
    (sessionRewind dev s pos).rowAt dev il p = s.rowAt dev il p := by
  rw [Session.rowAt, Session.rowAt, Session.place, Session.place, if_pos hcuda, if_pos hcuda]
  show ((if dev.cuda then s.layer il else _).k _, (if dev.cuda then s.layer il else _).v _) = _
  rw [if_pos hcuda]

theorem reach_patchAsToken : InputsReach markArithmetic patchSetup patchAsToken := by
  have himage : InputsReach markArithmetic patchSetup
      (noInputs.step markArithmetic patchSetup imageSync) :=
    .step (.start ⟨⟨rfl, rfl, rfl, fun _ => rfl⟩, rfl⟩) imageSync imageSync_call
  have hlen : (noInputs.step markArithmetic patchSetup imageSync).session.checkpoint.length = 2 := by
    decide
  refine .step (.step himage (.rewind 1) fun il hil p hp _ => ?_) _ ?_
  · have hp : p < (sessionRewind gpuDevice
      (noInputs.step markArithmetic patchSetup imageSync).session 1).checkpoint.length := hp
    rw [length_rewind, hlen] at hp
    have hkeeps := himage.inv.keeps il hil
    rw [hlen] at hkeeps
    have hfrom : attendedFrom il 2 = 0 := by
      rw [attendedFrom]
      split <;> rfl
    rw [rowAt_rewind rfl, Session.rowAt_eq, hlen]
    exact hkeeps.rows p (by rw [hfrom]; exact Nat.zero_le p) (by omega)
  · have hinputs : withoutPatch.inputs ++ [(5, none)] = [(1, none), (5, none)] := by decide
    show markArithmetic.Computes _ (withoutPatch.inputs ++ [(5, none)])
    rw [hinputs]
    exact computes_markVals _

/-- The sync with the image finds its signature and keeps the row that was computed
without it. -/
theorem not_forgets_patchAsToken :
    InputsReach markArithmetic patchSetup patchAsToken ∧
      RowsCall markArithmetic patchSetup patchAsToken imageSync ∧
      RowsCall markArithmetic patchSetup noInputs imageSync ∧
      (sessionSync gpuDevice (some 5) .quiet imageVals patchAsToken.session [1, 5]
        (some oneImageRow)).ok = true ∧
      (sessionSync gpuDevice (some 5) .quiet imageVals (.ofTokens []) [1, 5]
        (some oneImageRow)).ok = true ∧
      (sessionSync gpuDevice (some 5) .quiet imageVals patchAsToken.session [1, 5]
          (some oneImageRow)).session.rowAt gpuDevice 1 1 ≠
        (sessionSync gpuDevice (some 5) .quiet imageVals (.ofTokens []) [1, 5]
          (some oneImageRow)).session.rowAt gpuDevice 1 1 := by
  have hbase : ∀ sig, sessionPrepareImageSignature (some 5) [1, 5] (some oneImageRow) = some sig →
      (syncBase gpuDevice patchAsToken.session [1, 5] sig).2 = 2 := by
    intro sig hsig
    have hsig' : some (some ⟨1, 2, 1⟩) = some sig := hsig
    rw [← Option.some.inj hsig']
    decide
  refine ⟨reach_patchAsToken, fun sig hsig i hi hstart => ?_, imageSync_call, by decide,
    by decide, fun heq => ?_⟩
  · have hlen : i < 2 := hi
    have := hbase sig hsig
    have hstart : (syncBase gpuDevice patchAsToken.session [1, 5] sig).2 ≤ i := hstart
    omega
  · have hkeys : imageMark [] = imageMark [(5, some ())] := congrArg Prod.fst heq
    have hbytes := congrArg (fun b : Row => b.1.head?) hkeys
    have hzero : (imageMark []).1.head? = some 0 := Block.head?_fit (by decide) 0 []
    have hone : (imageMark [(5, some ())]).1.head? = some 1 := Block.head?_fit (by decide) 1 []
    rw [hzero, hone] at hbytes
    exact absurd hbytes (by decide)

end Sf37.Engine

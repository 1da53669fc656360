/-
Sf37.Engine.Progress — how far a sync gets, whatever cancels it or fails.

* `Progress`: the tokens, rows and logits of a session that evaluated a prompt from a
  base up to some position.
* `syncSuffix_spec`: evaluating the rest of a prompt leaves such a session; when it
  succeeds the position is the end of the prompt.
* `syncBase_spec`, `sessionSync_cases`: where a sync begins, and that it does this.
-/
import Sf37.Engine.Eval

namespace Sf37.Engine

open Sf37.Text Sf37.Store
open Sf37.Server (Token Tokens ImageSignature commonLen commonLen_le_left take_commonLen)

variable {dev : Device} {vals : Nat → StepValues} {prompt : Tokens} {base s s' : Session}
  {start m m' : Nat} {torn torn' : Nat → Nat}

/-! ## Rows -/

theorem storeRows_add (dev : Device) (vals : Nat → StepValues) (il pos a b : Nat)
    (layer : LayerCache) :
    storeRows dev vals il pos (a + b) layer =
      storeRows dev vals il (pos + a) b (storeRows dev vals il pos a layer) := by
  induction a generalizing pos layer with
  | zero => rw [Nat.zero_add, Nat.add_zero, storeRows]
  | succ a ih => rw [Nat.succ_add, storeRows, ih, storeRows, Nat.succ_add_eq_add_succ]

/-- What a session has of a prompt that was evaluated from a base up to a position. Of
some layers rows behind that position may be stored already. -/
structure Progress (dev : Device) (vals : Nat → StepValues) (prompt : Tokens) (base : Session)
    (start m : Nat) (torn : Nat → Nat) (s : Session) : Prop where
  start_le : start ≤ m
  le_length : m ≤ prompt.length
  checkpoint : s.checkpoint = base.checkpoint ++ (prompt.take m).drop start
  layer : ∀ il, s.layer il =
    if il < mainLayers then storeRows dev vals il start (m - start + torn il) (base.layer il)
    else base.layer il
  signature : s.imageSignature = base.imageSignature
  logits : s.logits = if m = prompt.length ∧ start < m then (vals (prompt.length - 1)).logits
    else base.logits

/-- No layer has rows behind the position. -/
def noneTorn : Nat → Nat := fun _ => 0

theorem Progress.refl (dev : Device) (vals : Nat → StepValues) (base : Session)
    (h : start ≤ prompt.length) :
    Progress dev vals prompt base start start noneTorn base where
  start_le := Nat.le_refl _
  le_length := h
  checkpoint := by
    rw [List.drop_of_length_le (by rw [List.length_take]; omega), List.append_nil]
  layer il := by
    split
    · rw [Nat.sub_self, noneTorn, storeRows]
    · rfl
  signature := rfl
  logits := by rw [if_neg (by omega)]

theorem Progress.trans (h : Progress dev vals prompt base start m noneTorn s)
    (h' : Progress dev vals prompt s m m' torn s') :
    Progress dev vals prompt base start m' torn s' where
  start_le := Nat.le_trans h.start_le h'.start_le
  le_length := h'.le_length
  checkpoint := by
    have hs := h.start_le
    have hm := h'.start_le
    have hl := h'.le_length
    rw [h'.checkpoint, h.checkpoint, List.append_assoc]
    refine congrArg (base.checkpoint ++ ·) ?_
    have hsplit : prompt.take m' = prompt.take m ++ (prompt.take m').drop m := by
      conv_lhs => rw [← List.take_append_drop m (prompt.take m')]
      rw [List.take_take, Nat.min_eq_left hm]
    conv_rhs => rw [hsplit]
    rw [List.drop_append_of_le_length (by rw [List.length_take]; omega)]
  layer il := by
    have hs := h.start_le
    have hm := h'.start_le
    rw [h'.layer il, h.layer il]
    split
    · have hsum : m' - start + torn il = (m - start) + (m' - m + torn il) := by omega
      conv_rhs => rw [hsum, storeRows_add, Nat.add_sub_cancel' hs]
      rfl
    · rfl
  signature := h'.signature.trans h.signature
  logits := by
    have hs := h.start_le
    have hm := h'.start_le
    have hl := h'.le_length
    rw [h'.logits, h.logits]
    by_cases hend : m' = prompt.length
    · by_cases hmm : m = m'
      · rw [if_neg (by omega)]
        by_cases hsm : start < m
        · rw [if_pos ⟨by omega, hsm⟩, if_pos ⟨hend, by omega⟩]
        · rw [if_neg (by omega), if_neg (by omega)]
      · rw [if_pos ⟨hend, by omega⟩, if_pos ⟨hend, by omega⟩]
    · rw [if_neg (by omega), if_neg (by omega), if_neg (by omega)]

/-- Only the fields that a progress does not speak of were changed. -/
theorem Progress.congr (h : Progress dev vals prompt base start m torn s)
    (hc : s'.checkpoint = s.checkpoint) (hl : s'.layer = s.layer)
    (hi : s'.imageSignature = s.imageSignature) (hg : s'.logits = s.logits) :
    Progress dev vals prompt base start m torn s' :=
  ⟨h.start_le, h.le_length, hc.trans h.checkpoint, fun il => by rw [hl, h.layer il],
    hi.trans h.signature, hg.trans h.logits⟩

theorem Progress.length (h : Progress dev vals prompt base start m torn s)
    (hbase : base.checkpoint.length = start) : s.checkpoint.length = m := by
  have hs := h.start_le
  have hl := h.le_length
  rw [h.checkpoint, List.length_append, hbase, List.length_drop, List.length_take]
  omega

/-! ## One token -/

/-- What a step leaves that stops short: rows of the positions behind, at most so many and
only in a session that is no longer valid. -/
def Stopped (dev : Device) (vals : Nat → StepValues) (prompt : Tokens) (base : Session)
    (start m bound : Nat) (s : Session) : Prop :=
  ∃ torn, Progress dev vals prompt base start m torn s ∧ (∀ il, torn il ≤ bound) ∧
    (∀ il, m + torn il ≤ prompt.length) ∧
    ((∃ il, torn il ≠ 0) → s.checkpointValid = false ∧ dev.cuda = true)

theorem Stopped.of_progress (bound : Nat) (h : Progress dev vals prompt base start m noneTorn s) :
    Stopped dev vals prompt base start m bound s :=
  ⟨noneTorn, h, fun _ => Nat.zero_le _, fun _ => h.le_length, fun ⟨_, hn⟩ => absurd rfl hn⟩

theorem Stopped.trans {bound : Nat} (h : Progress dev vals prompt base start m noneTorn s)
    (h' : Stopped dev vals prompt s m m' bound s') :
    Stopped dev vals prompt base start m' bound s' := by
  obtain ⟨torn, hp, hb, hl, hv⟩ := h'
  exact ⟨torn, h.trans hp, hb, hl, hv⟩

theorem Stopped.mono {bound bound' : Nat} (h : Stopped dev vals prompt base start m bound s)
    (hb : bound ≤ bound') : Stopped dev vals prompt base start m bound' s := by
  obtain ⟨torn, hp, hle, hl, hv⟩ := h
  exact ⟨torn, hp, fun il => Nat.le_trans (hle il) hb, hl, hv⟩

/-- A session that is no longer valid may have stopped anywhere. -/
theorem Stopped.invalid {bound : Nat} (h : Stopped dev vals prompt base start m bound s) :
    Stopped dev vals prompt base start m bound { s with checkpointValid := false } := by
  obtain ⟨torn, hp, hb, hl, hv⟩ := h
  exact ⟨torn, hp.congr rfl rfl rfl rfl, hb, hl, fun ht => ⟨rfl, (hv ht).2⟩⟩

theorem evalFaultMet_cuda {need : Bool} {fault : Option EvalFault} {f : EvalFault}
    (h : evalFaultMet dev need fault = some f) : dev.cuda = true := by
  rw [evalFaultMet] at h
  by_cases hcuda : dev.cuda = true
  · exact hcuda
  · rw [if_pos hcuda] at h
    nomatch h

theorem storeStep_layer (dev : Device) (vals : StepValues) (stored : Nat → Bool) (pos : Nat)
    (s : Session) (il : Nat) :
    (storeStep dev vals stored pos s).layer il =
      if il < mainLayers ∧ stored il then dev.storeRow il pos (s.layer il) (vals.k il) (vals.v il)
      else s.layer il := rfl

theorem sessionEvalInternal_ok {i : Nat} {t : Token} {rest : Tokens} {need : Bool}
    {fault : Option EvalFault} (hi : s.checkpoint.length = i) (ht : prompt.drop i = t :: rest)
    (hneed : need = decide (i + 1 = prompt.length))
    (h : (sessionEvalInternal dev s t (vals i) need fault).2 = true) :
    Progress dev vals prompt s i (i + 1) noneTorn
        (sessionEvalInternal dev s t (vals i) need fault).1 ∧
      (sessionEvalInternal dev s t (vals i) need fault).1.checkpointValid = true := by
  have hlt : i < prompt.length := by
    by_contra hge
    rw [List.drop_of_length_le (by omega)] at ht
    nomatch ht
  rw [sessionEvalInternal] at h ⊢
  split at h
  · nomatch h
  next hv =>
    split at h
    · nomatch h
    next hc =>
      rw [if_neg hv, if_neg hc]
      cases hf : evalFaultMet dev need fault with
      | some f =>
        rw [hf] at h
        nomatch h
      | none =>
        refine ⟨⟨Nat.le_succ i, hlt, ?_, fun il => ?_, rfl, ?_⟩, rfl⟩
        · show s.checkpoint ++ [t] = _
          have hget : prompt[i]? = some t := by
            rw [← List.head?_drop, ht]
            rfl
          rw [List.drop_take, ht, Nat.add_sub_cancel_left]
          rfl
        · show (storeStep dev (vals i) _ s.checkpoint.length s).layer il = _
          rw [storeStep_layer, hi]
          by_cases hil : il < mainLayers
          · rw [if_pos ⟨hil, rfl⟩, if_pos hil, Nat.add_sub_cancel_left, noneTorn, Nat.add_zero,
              storeRows, storeRows]
          · rw [if_neg fun hx => hil hx.1, if_neg hil]
        · show (if need then (vals i).logits else s.logits) = _
          rw [hneed]
          by_cases hend : i + 1 = prompt.length
          · rw [if_pos (decide_eq_true hend), if_pos ⟨hend, by omega⟩, ← hend, Nat.add_sub_cancel]
          · rw [if_neg (by simpa using hend), if_neg fun hx => hend hx.1]

theorem sessionEvalInternal_stopped (dev : Device) (vals : Nat → StepValues) {i : Nat} (t : Token) (need : Bool) (fault : Option EvalFault)
    (hi : s.checkpoint.length = i) (hlt : i < prompt.length)
    (h : (sessionEvalInternal dev s t (vals i) need fault).2 = false) :
    Stopped dev vals prompt s i i 1 (sessionEvalInternal dev s t (vals i) need fault).1 := by
  have hrefl := Progress.refl dev vals s (Nat.le_of_lt hlt)
  rw [sessionEvalInternal] at h ⊢
  split at h
  next hv =>
    rw [if_pos hv]
    exact .of_progress 1 hrefl
  next hv =>
    rw [if_neg hv]
    split at h
    next hc =>
      rw [if_pos hc]
      exact .of_progress 1 hrefl
    next hc =>
      rw [if_neg hc]
      cases hf : evalFaultMet dev need fault with
      | none =>
        rw [hf] at h
        nomatch h
      | some f =>
        have hcuda := evalFaultMet_cuda hf
        refine ⟨fun il => if il < mainLayers ∧ EvalFault.stores (some f) il then 1 else 0,
          ⟨Nat.le_refl _, Nat.le_of_lt hlt, hrefl.checkpoint, fun il => ?_, rfl, hrefl.logits⟩,
          fun il => ?_, fun il => ?_, fun _ => ⟨rfl, hcuda⟩⟩
        rotate_left
        · dsimp only
          split <;> omega
        · dsimp only
          split <;> omega
        · show (storeStep dev (vals i) _ s.checkpoint.length s).layer il = _
          rw [storeStep_layer, hi, Nat.sub_self, Nat.zero_add]
          by_cases hil : il < mainLayers
          · by_cases hst : EvalFault.stores (some f) il = true
            · rw [if_pos ⟨hil, hst⟩, if_pos hil, if_pos ⟨hil, hst⟩, storeRows, storeRows]
            · rw [if_neg fun hx => hst hx.2, if_pos hil, if_neg fun hx => hst hx.2, storeRows]
          · rw [if_neg fun hx => hil hx.1, if_neg hil]

/-! ## The loops -/

/-- What a loop leaves that begins at a position. -/
structure LoopSpec (dev : Device) (vals : Nat → StepValues) (prompt : Tokens) (base : Session)
    (start evaluated bound : Nat) (r : SyncOut) : Prop where
  stopped : ∃ m, Stopped dev vals prompt base start m bound r.session ∧
    r.evaluated = evaluated + (m - start)
  done : r.ok = true → Progress dev vals prompt base start prompt.length noneTorn r.session ∧
    r.evaluated = evaluated + (prompt.length - start) ∧
    (r.session = base ∨ r.session.checkpointValid = true)

theorem LoopSpec.of_stopped {bound : Nat} {s : Session} (evaluated : Nat)
    (h : Stopped dev vals prompt base start m bound s) :
    LoopSpec dev vals prompt base start evaluated bound
      ⟨s, false, evaluated + (m - start)⟩ :=
  ⟨⟨m, h, rfl⟩, nofun⟩

theorem LoopSpec.trans {bound evaluated evaluated' : Nat} {r : SyncOut}
    (h : Progress dev vals prompt base start m noneTorn s)
    (hvalid : s.checkpointValid = true) (hev : evaluated' = evaluated + (m - start))
    (h' : LoopSpec dev vals prompt s m evaluated' bound r) :
    LoopSpec dev vals prompt base start evaluated bound r := by
  obtain ⟨⟨m', hst, hcount⟩, hdone⟩ := h'
  have hs := h.start_le
  have hl := h.le_length
  refine ⟨⟨m', hst.trans h, ?_⟩, fun hok => ?_⟩
  · obtain ⟨torn, hp, -⟩ := hst
    have := hp.start_le
    omega
  · obtain ⟨hp, hc, hv⟩ := hdone hok
    exact ⟨h.trans hp, by omega, Or.inr (hv.elim (fun heq => heq ▸ hvalid) id)⟩

theorem evalSuffix_spec (dev : Device) (vals : Nat → StepValues) (env : SyncEnv) (rest : Tokens)
    {i evaluated : Nat}
    (hi : s.checkpoint.length = i) (hrest : prompt.drop i = rest) (hle : i ≤ prompt.length) :
    LoopSpec dev vals prompt s i evaluated 1
      (evalSuffix dev env vals prompt.length rest s i evaluated) := by
  have hrefl := Progress.refl dev vals s hle
  induction rest generalizing s i evaluated with
  | nil =>
    obtain rfl : i = prompt.length := by
      have := List.drop_eq_nil_iff.mp hrest
      omega
    rw [evalSuffix]
    exact ⟨⟨_, .of_progress 1 hrefl, by rw [Nat.sub_self]; rfl⟩,
      fun _ => ⟨hrefl, by rw [Nat.sub_self]; rfl, Or.inl rfl⟩⟩
  | cons t rest ih =>
    have hlt : i < prompt.length := by
      by_contra hge
      rw [List.drop_of_length_le (by omega)] at hrest
      nomatch hrest
    have hzero : evaluated = evaluated + (i - i) := by omega
    have hone : evaluated + 1 = evaluated + (i + 1 - i) := by omega
    rw [evalSuffix]
    split
    · have h := LoopSpec.of_stopped evaluated (.of_progress 1 hrefl)
      rwa [← hzero] at h
    split
    next s' hev =>
      have hst := sessionEvalInternal_stopped dev vals t _ _ hi hlt
        (congrArg Prod.snd hev)
      rw [hev] at hst
      have h := LoopSpec.of_stopped evaluated hst
      rwa [← hzero] at h
    next s' hev =>
      obtain ⟨hp, hvalid⟩ := sessionEvalInternal_ok hi hrest rfl (congrArg Prod.snd hev)
      rw [hev] at hp hvalid
      split
      · have h := LoopSpec.of_stopped evaluated (.of_progress 1 hp)
        rwa [← hone] at h
      · refine LoopSpec.trans hp hvalid hone (ih (hp.length hi) ?_ hlt (.refl dev vals s' hlt))
        rw [← List.tail_drop, hrest, List.tail_cons]

theorem chunkSize_bounds (start : Nat) {chunkCap remaining : Nat} (pos0 : Nat) (hcap : 0 < chunkCap)
    (hrem : 0 < remaining) :
    0 < chunkSize start chunkCap remaining pos0 ∧
      chunkSize start chunkCap remaining pos0 ≤ chunkCap ∧
      chunkSize start chunkCap remaining pos0 ≤ remaining := by
  have hmod := Nat.mod_lt pos0 hcap
  unfold chunkSize
  dsimp only
  split <;> split at * <;> omega

theorem cudaPrefillChunk_ok {pos0 n : Nat} {fault : Option ChunkFault}
    (hle : pos0 + n ≤ prompt.length) (hpos : 0 < n)
    (h : (cudaPrefillChunk dev vals pos0 n (decide (pos0 + n = prompt.length)) fault s).2 = true) :
    Progress dev vals prompt s pos0 (pos0 + n) noneTorn
      { (cudaPrefillChunk dev vals pos0 n (decide (pos0 + n = prompt.length)) fault s).1 with
        checkpoint := s.checkpoint ++ (prompt.drop pos0).take n
        checkpointValid := true } := by
  obtain ⟨need, hneed⟩ : ∃ b, b = decide (pos0 + n = prompt.length) := ⟨_, rfl⟩
  rw [← hneed] at h ⊢
  have hnone : chunkFaultMet need fault = none := Option.isNone_iff_eq_none.mp h
  refine ⟨Nat.le_add_right _ _, hle, ?_, fun il => ?_, rfl, ?_⟩
  · show s.checkpoint ++ (prompt.drop pos0).take n = _
    rw [List.drop_take, Nat.add_sub_cancel_left]
  · show (if il < mainLayers ∧ ChunkFault.stores (chunkFaultMet need fault) il then _ else _) = _
    rw [Nat.add_sub_cancel_left, hnone]
    by_cases hil : il < mainLayers
    · rw [if_pos ⟨hil, rfl⟩, if_pos hil]
      rfl
    · rw [if_neg fun hx => hil hx.1, if_neg hil]
  · show (if chunkFaultMet need fault = none ∧ need then (vals (pos0 + n - 1)).logits
      else s.logits) = _
    rw [hneed]
    by_cases hend : pos0 + n = prompt.length
    · rw [if_pos ⟨hneed ▸ hnone, decide_eq_true hend⟩, if_pos ⟨hend, by omega⟩, ← hend]
    · rw [if_neg fun hx => hend (of_decide_eq_true hx.2), if_neg fun hx => hend hx.1]

theorem cudaPrefillChunk_stopped {pos0 n : Nat} (vals : Nat → StepValues) {need : Bool}
    {fault : Option ChunkFault} (hcuda : dev.cuda = true) (hle : pos0 + n ≤ prompt.length)
    (h : (cudaPrefillChunk dev vals pos0 n need fault s).2 = false) :
    Stopped dev vals prompt s pos0 pos0 n
      { (cudaPrefillChunk dev vals pos0 n need fault s).1 with checkpointValid := false } := by
  have hsome : chunkFaultMet need fault ≠ none := fun hn => by
    rw [cudaPrefillChunk, hn] at h
    nomatch h
  obtain ⟨f, hf⟩ : ∃ f, f = chunkFaultMet need fault := ⟨_, rfl⟩
  have hrefl : Progress dev vals prompt s pos0 pos0 noneTorn s := .refl dev vals s (by omega)
  refine ⟨fun il => if il < mainLayers ∧ ChunkFault.stores f il then n else 0,
    ⟨Nat.le_refl _, by omega, hrefl.checkpoint, fun il => ?_, rfl, ?_⟩, fun il => ?_, fun il => ?_,
    fun _ => ⟨rfl, hcuda⟩⟩
  · show (if il < mainLayers ∧ ChunkFault.stores (chunkFaultMet need fault) il then
      storeRows dev vals il pos0 n (s.layer il) else s.layer il) = _
    rw [← hf, Nat.sub_self, Nat.zero_add]
    by_cases hil : il < mainLayers
    · by_cases hst : ChunkFault.stores f il = true
      · rw [if_pos ⟨hil, hst⟩, if_pos hil, if_pos ⟨hil, hst⟩]
      · rw [if_neg fun hx => hst hx.2, if_pos hil, if_neg fun hx => hst hx.2, storeRows]
    · rw [if_neg fun hx => hil hx.1, if_neg hil]
  · show (if chunkFaultMet need fault = none ∧ need then (vals (pos0 + n - 1)).logits
      else s.logits) = _
    rw [if_neg fun hx => hsome hx.1, if_neg (by omega)]
  · dsimp only
    split <;> omega
  · dsimp only
    split <;> omega

theorem cudaPrefillLoop_spec (vals : Nat → StepValues) (env : SyncEnv) (start₀ : Nat) {chunkCap fuel i evaluated : Nat}
    (hcuda : dev.cuda = true) (hcap : 0 < chunkCap) (hfuel : prompt.length - i < fuel)
    (hi : s.checkpoint.length = i) (hle : i ≤ prompt.length) :
    LoopSpec dev vals prompt s i evaluated chunkCap
      (cudaPrefillLoop dev env vals prompt start₀ chunkCap fuel s i evaluated) := by
  have hrefl := Progress.refl dev vals s hle
  induction fuel generalizing s i evaluated with
  | zero => omega
  | succ fuel ih =>
    have hzero : evaluated = evaluated + (i - i) := by omega
    rw [cudaPrefillLoop]
    split
    next hend =>
      obtain rfl : i = prompt.length := by omega
      exact ⟨⟨_, .of_progress chunkCap hrefl, by rw [Nat.sub_self]; rfl⟩,
        fun _ => ⟨hrefl, by rw [Nat.sub_self]; rfl, Or.inl rfl⟩⟩
    next hlt =>
      split
      · have h := LoopSpec.of_stopped evaluated (Stopped.of_progress chunkCap hrefl).invalid
        rwa [← hzero] at h
      dsimp only
      obtain ⟨chunk, hchunk⟩ : ∃ c, c = chunkSize start₀ chunkCap (prompt.length - i) i :=
        ⟨_, rfl⟩
      obtain ⟨hpos, hclecap, hcle⟩ := chunkSize_bounds start₀ i hcap
        (show 0 < prompt.length - i by omega)
      rw [← hchunk] at hpos hclecap hcle ⊢
      have hstep : evaluated + chunk = evaluated + (i + chunk - i) := by omega
      split
      next s' hev =>
        have hst := cudaPrefillChunk_stopped vals hcuda
          (show i + chunk ≤ prompt.length by omega) (congrArg Prod.snd hev)
        rw [hev] at hst
        have h := LoopSpec.of_stopped evaluated (hst.mono hclecap)
        rwa [← hzero] at h
      next s' hev =>
        have hp := cudaPrefillChunk_ok (show i + chunk ≤ prompt.length by omega) hpos
          (congrArg Prod.snd hev)
        rw [hev] at hp
        have hcp : s'.checkpoint = s.checkpoint := (congrArg (fun r => r.1.checkpoint) hev).symm
        rw [hcp]
        split
        · have h := LoopSpec.of_stopped evaluated (Stopped.of_progress chunkCap hp).invalid
          rwa [← hstep] at h
        · refine LoopSpec.trans hp rfl hstep
            (ih (by omega) (hp.length hi) (by omega) (.refl dev vals _ (by omega)))

/-! ## A sync -/

theorem Device.prefillCap_pos (dev : Device) : 0 < dev.prefillCap := by
  rw [Device.prefillCap]
  split <;> omega

theorem clampChunk_le {stateCap suffix c : Nat} (h : 0 < stateCap) :
    clampChunk stateCap suffix c ≤ stateCap := by
  unfold clampChunk
  dsimp only
  split <;> split at * <;> omega

theorem clampChunk_pos {stateCap suffix c : Nat} (h : 0 < stateCap) (hs : 0 < suffix) (hc : 0 < c) :
    0 < clampChunk stateCap suffix c := by
  unfold clampChunk
  dsimp only
  split <;> split at * <;> omega

theorem chunkCandidates_le {stateCap suffix wanted : Nat} (h : 0 < stateCap)
    (hw : wanted ≤ stateCap) : ∀ c ∈ chunkCandidates stateCap suffix wanted, c ≤ stateCap := by
  have hfold : ∀ (l cs : List Nat), (∀ c ∈ cs, c ≤ stateCap) →
      ∀ c ∈ l.foldl (fun cs c =>
        let c := clampChunk stateCap suffix c
        if c = 0 ∨ c ∈ cs then cs else cs ++ [c]) cs, c ≤ stateCap := by
    intro l
    induction l with
    | nil => exact fun cs hcs => hcs
    | cons x l ih =>
      intro cs hcs
      rw [List.foldl_cons]
      refine ih _ fun c hc => ?_
      dsimp only at hc
      split at hc
      · exact hcs c hc
      · rcases List.mem_append.mp hc with hc | hc
        · exact hcs c hc
        · exact List.mem_singleton.mp hc ▸ clampChunk_le h
  exact hfold _ _ fun c hc => List.mem_singleton.mp hc ▸ hw

theorem cudaPrefillSelectChunkCap_le (dev : Device) (env : SyncEnv) (suffix : Nat) :
    cudaPrefillSelectChunkCap dev env suffix ≤ dev.prefillCap := by
  have hcap := dev.prefillCap_pos
  rw [cudaPrefillSelectChunkCap]
  split
  · exact Nat.zero_le _
  next hs =>
    have hpos := clampChunk_pos hcap (Nat.pos_of_ne_zero hs) (env.defaultChunk_pos suffix)
    dsimp only
    rw [if_neg (Nat.ne_of_gt hpos)]
    cases hf : (chunkCandidates dev.prefillCap suffix
      (clampChunk dev.prefillCap suffix (env.defaultChunk suffix))).find? env.ensureState with
    | none => exact Nat.zero_le _
    | some c => exact chunkCandidates_le hcap (clampChunk_le hcap) c (List.mem_of_find?_eq_some hf)

theorem syncSuffix_spec (env : SyncEnv) (images : Nat) {common : Nat}
    (hi : base.checkpoint.length = common) (hle : common ≤ prompt.length) :
    LoopSpec dev vals prompt base common 0 dev.prefillCap
      (syncSuffix dev env vals prompt base common images) := by
  have hcap := dev.prefillCap_pos
  have hfail : LoopSpec dev vals prompt base common 0 dev.prefillCap ⟨base, false, 0⟩ := by
    have h := LoopSpec.of_stopped 0
      (Stopped.of_progress dev.prefillCap (Progress.refl dev vals base hle))
    rwa [Nat.sub_self] at h
  have hone : LoopSpec dev vals prompt base common 0 dev.prefillCap
      (if 0 < images then ⟨base, false, 0⟩
        else evalSuffix dev env vals prompt.length (prompt.drop common) base common 0) := by
    split
    · exact hfail
    · obtain ⟨⟨m, hst, hev⟩, hdone⟩ := evalSuffix_spec dev vals env _ hi rfl hle
      exact ⟨⟨m, hst.mono hcap, hev⟩, hdone⟩
  rw [syncSuffix]
  split
  next hcuda =>
    dsimp only
    split
    · exact hone
    next hzero =>
      split
      · exact hfail
      · obtain ⟨⟨m, hst, hev⟩, hdone⟩ := cudaPrefillLoop_spec vals env common
          hcuda.1 (Nat.pos_of_ne_zero hzero) (Nat.lt_succ_self _) hi hle
        exact ⟨⟨m, hst.mono (cudaPrefillSelectChunkCap_le dev env _), hev⟩, hdone⟩
  · exact hone

/-- The base has the tokens it says, and they begin the prompt. -/
theorem syncBase_spec (dev : Device) (s : Session) (prompt : Tokens) (sig : Option ImageSignature) :
    (syncBase dev s prompt sig).1.checkpoint.length = (syncBase dev s prompt sig).2 ∧
      (syncBase dev s prompt sig).1.checkpoint = prompt.take (syncBase dev s prompt sig).2 ∧
      (syncBase dev s prompt sig).2 ≤ prompt.length ∧
      (syncBase dev s prompt sig = (sessionReset dev s, 0) ∨
        (signatureMatches s sig = true ∧ s.checkpointValid = true ∧ s.checkpoint ≠ [] ∧
          s.checkpoint <+: prompt ∧
          syncBase dev s prompt sig = (if s.checkpoint.length < prompt.length then
            sessionRewind dev s s.checkpoint.length else s, s.checkpoint.length))) := by
  have hreset : ([] : Tokens) = prompt.take 0 := rfl
  rw [syncBase]
  by_cases hsig : ¬ signatureMatches s sig = true
  · simp only [if_pos hsig]
    exact ⟨rfl, rfl, Nat.zero_le _, Or.inl trivial⟩
  simp only [if_neg hsig]
  by_cases hre : ¬ s.checkpointValid = true ∨ sessionCommonPrefix s prompt = 0 ∨
      sessionCommonPrefix s prompt < s.checkpoint.length
  · simp only [if_pos hre]
    exact ⟨rfl, rfl, Nat.zero_le _, Or.inl trivial⟩
  simp only [if_neg hre]
  obtain ⟨hvalid, h0, hlen⟩ : s.checkpointValid = true ∧ sessionCommonPrefix s prompt ≠ 0 ∧
      s.checkpoint.length ≤ sessionCommonPrefix s prompt := by
    simpa only [not_or, not_not, not_lt, ne_eq] using hre
  have hcommon : sessionCommonPrefix s prompt = commonLen s.checkpoint prompt := if_pos hvalid
  have hle := commonLen_le_left s.checkpoint prompt
  have hpos : sessionCommonPrefix s prompt = s.checkpoint.length := by omega
  have hbegins : s.checkpoint <+: prompt := Sf37.Server.prefix_of_commonLen (hcommon ▸ hlen)
  have htake : s.checkpoint = prompt.take s.checkpoint.length :=
    List.prefix_iff_eq_take.mp hbegins
  have hne : s.checkpoint ≠ [] := fun h => h0 (by simpa [h] using hpos)
  rw [hpos]
  by_cases hlt : s.checkpoint.length < prompt.length
  · simp only [if_pos hlt]
    have hcp : (sessionRewind dev s s.checkpoint.length).checkpoint = s.checkpoint := by
      show s.checkpoint.take (min s.checkpoint.length s.checkpoint.length) = _
      rw [Nat.min_self, List.take_length]
    rw [hcp]
    exact ⟨rfl, htake, Nat.le_of_lt hlt, Or.inr ⟨not_not.mp hsig, hvalid, hne, hbegins, trivial⟩⟩
  · simp only [if_neg hlt]
    exact ⟨trivial, htake, hbegins.length_le, Or.inr ⟨not_not.mp hsig, hvalid, hne, hbegins, trivial⟩⟩

/-- A sync is refused, or it evaluates the prompt from its base. -/
theorem sessionSync_cases (dev : Device) (imPatch : Option Token) (env : SyncEnv)
    (vals : Nat → StepValues) (s : Session) (prompt : Tokens) (features : Option ImageFeatures) :
    ((dev.ctxSize < prompt.length ∨ sessionPrepareImageSignature imPatch prompt features = none) ∧
      sessionSync dev imPatch env vals s prompt features = ⟨s, false, 0⟩) ∨
    ∃ sig r, prompt.length ≤ dev.ctxSize ∧
      sessionPrepareImageSignature imPatch prompt features = some sig ∧
      LoopSpec dev vals prompt (syncBase dev s prompt sig).1 (syncBase dev s prompt sig).2 0
        dev.prefillCap r ∧
      sessionSync dev imPatch env vals s prompt features =
        (if r.ok then { r with session := noteSignature r.session sig } else r) := by
  rw [sessionSync]
  split
  next hctx => exact Or.inl ⟨Or.inl hctx, rfl⟩
  next hctx =>
    split
    next hsig => exact Or.inl ⟨Or.inr hsig, rfl⟩
    next sig hsig =>
      obtain ⟨hlen, -, hle, -⟩ := syncBase_spec dev s prompt sig
      exact Or.inr ⟨sig, _, Nat.le_of_not_lt hctx, hsig, syncSuffix_spec env _ hlen hle, rfl⟩

end Sf37.Engine

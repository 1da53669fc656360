/-
Sf37.Server.StopStream — streaming with stop sequences: the decode loop of
`run_generation` around `reasoning_stream_update`.

After each piece the loop looks for a stop sequence and tells the splitter how
much of the buffer is certain: up to the stop, or all but the last
`max_len - 1` bytes. The splitter searches tool openers in the whole buffer all
the same, and once it sees one it hands out the text before it, whatever length
it was told, or drops that text when the length lies before its position.

* `stopListFindFrom_resume`: the search with a moving start finds the first
  stop of the buffer, since an earlier one would have been found before.
* `decodeLoop_inv`: what one piece keeps is kept by the loop.
* `stopStream_exact_of_reach`: in every run in which, after each piece, the text
  before the first opener lies within the length handed over, and which does not
  end in the middle of a character, nothing is lost and nothing leaks.
-/
import Sf37.Server.ChunkIndependence

namespace Sf37.Server

open Sf37.Text

/-! ## Stop lists -/

/-- `stop_list`: `stop_list_push` drops empty strings, so none is in it. -/
structure StopList where
  v : List Bytes
  nonempty : ∀ s ∈ v, s ≠ []

/-- `stop_list_push`. -/
def stopListPush (stops : StopList) (s : Bytes) : StopList :=
  if h : s = [] then stops
  else
    { v := stops.v ++ [s]
      nonempty := fun t ht => by
        rcases List.mem_append.mp ht with ht | ht
        · exact stops.nonempty t ht
        · rw [List.mem_singleton.mp ht]; exact h }

/-- `max_len`, which `stop_list_push` keeps as the longest length pushed. -/
def StopList.maxLen (stops : StopList) : Nat := stops.v.foldl (fun m s => max m s.length) 0

/-- One turn of `stop_list_find_from`: a stop found earlier than the best so far
replaces it. `strstr` sees the text from `start` up to the next NUL. -/
def stopFindTurn (text : Bytes) (start : Nat) (best : Option (Nat × Nat)) (s : Bytes) :
    Option (Nat × Nat) :=
  match strstr (cstr (text.drop start)) s with
  | none => best
  | some k =>
      match best with
      | none => some (start + k, s.length)
      | some (pos, len) =>
          if start + k < pos then some (start + k, s.length) else some (pos, len)

/-- `stop_list_find_from`: position and length of the stop that starts first; of
two that start together, the one listed first. -/
def stopListFindFrom (stops : StopList) (text : Bytes) (start : Nat) : Option (Nat × Nat) :=
  stops.v.foldl (stopFindTurn text start) none

/-- `stop_list_stream_safe_len`. -/
def stopListStreamSafeLen (stops : StopList) (textLen : Nat) : Nat :=
  if stops.v.length = 0 ∨ stops.maxLen ≤ 1 then textLen else textLen - (stops.maxLen - 1)

/-! ## The decode loop -/

/-- The variables of the decode loop that streaming depends on. -/
structure DecodeState where
  raw : Bytes := []
  stopScanFrom : Nat := 0
  stream : ReasoningStream
  wire : Wire ChatDelta := {}

/-- `stream_len`: how much of the buffer the splitter is told about. -/
def streamLen (stops : StopList) (raw : Bytes) (stopScanFrom : Nat) : Nat :=
  let len :=
    match stopListFindFrom stops raw stopScanFrom with
    | some (stopPos, _) => stopPos
    | none => stopListStreamSafeLen stops raw.length
  if raw.length < len then raw.length else len

/-- `stop_scan_from` for the next turn. -/
def nextScanFrom (stops : StopList) (rawLen stopScanFrom : Nat) : Nat :=
  if 1 < stops.maxLen then rawLen - (stops.maxLen - 1) else stopScanFrom

/-- One turn of the loop: success of the sends, the stop hit, and the state with
the buffer not yet cut. -/
def decodePiece (net : Nat → Bool) (hasTools : Bool) (stops : StopList) (d : DecodeState)
    (piece : Bytes) : Bool × Option Nat × DecodeState :=
  let raw := d.raw ++ piece
  let hit := (stopListFindFrom stops raw d.stopScanFrom).map Prod.fst
  let (ok, stream, wire) := reasoningStreamUpdate net hasTools raw
    (streamLen stops raw d.stopScanFrom) false d.stream d.wire
  (ok, hit,
    { raw, stream, wire
      stopScanFrom :=
        if hit.isSome then d.stopScanFrom else nextScanFrom stops raw.length d.stopScanFrom })

/-- The loop over the pieces the model samples: it ends at the first stop. -/
def decodeLoop (net : Nat → Bool) (hasTools : Bool) (stops : StopList) :
    List Bytes → DecodeState → Bool × Option Nat × DecodeState
  | [], d => (true, none, d)
  | piece :: pieces, d =>
      match decodePiece net hasTools stops d piece with
      | (false, hit, d) => (false, hit, d)
      | (true, some stopPos, d) => (true, some stopPos, d)
      | (true, none, d) => decodeLoop net hasTools stops pieces d

/-- The buffer after the loop, cut at the stop. -/
def cutAtStop (raw : Bytes) (hit : Option Nat) : Bytes :=
  match hit with
  | some stopPos => raw.take stopPos
  | none => raw

/-- The loop and the final call. -/
def decodeAndFinish (net : Nat → Bool) (hasTools : Bool) (stops : StopList)
    (pieces : List Bytes) (d : DecodeState) : Bool × ReasoningStream × Wire ChatDelta :=
  match decodeLoop net hasTools stops pieces d with
  | (false, _, d) => (false, d.stream, d.wire)
  | (true, hit, d) =>
      let raw := cutAtStop d.raw hit
      reasoningStreamUpdate net hasTools raw raw.length true d.stream d.wire

/-- The state the loop starts in. -/
def decodeInit (think : ThinkMode) : DecodeState := { stream := reasoningStreamInit think }

/-! ## Searching for stops -/

/-- A stop sequence starts at offset `i`. -/
def StopAt (stops : StopList) (s : Bytes) (i : Nat) : Prop := ∃ v ∈ stops.v, OccursAt v s i

instance (stops : StopList) (s : Bytes) (i : Nat) : Decidable (StopAt stops s i) :=
  inferInstanceAs (Decidable (∃ v ∈ stops.v, OccursAt v s i))

theorem le_foldl_max (l : List Bytes) (m : Nat) :
    m ≤ l.foldl (fun m s => max m s.length) m ∧
      ∀ s ∈ l, s.length ≤ l.foldl (fun m s => max m s.length) m := by
  induction l generalizing m with
  | nil => simp
  | cons a l ih =>
    obtain ⟨h1, h2⟩ := ih (max m a.length)
    simp only [List.foldl_cons, List.mem_cons]
    refine ⟨by omega, fun s hs => ?_⟩
    rcases hs with rfl | hs
    · omega
    · exact h2 s hs

theorem StopList.length_le_maxLen {stops : StopList} {v : Bytes} (h : v ∈ stops.v) :
    v.length ≤ stops.maxLen :=
  (le_foldl_max stops.v 0).2 v h

/-- A stop of a buffer lies inside it and is no longer than the longest. -/
theorem StopAt.bounds {stops : StopList} {s : Bytes} {i : Nat} (h : StopAt stops s i) :
    ∃ n, 0 < n ∧ n ≤ stops.maxLen ∧ i + n ≤ s.length ∧
      ∀ p, i + n ≤ p → StopAt stops (s.take p) i := by
  obtain ⟨v, hv, hocc⟩ := h
  have hne := stops.nonempty v hv
  exact ⟨v.length, List.length_pos_iff.mpr hne, StopList.length_le_maxLen hv,
    hocc.add_length_le hne, fun p hp => ⟨v, hv, (occursAt_take hne).mpr ⟨hocc, hp⟩⟩⟩

/-- A stop at `i`, in what `strstr` sees of the text from `start` on. -/
def StopInView (stops : StopList) (text : Bytes) (start i : Nat) : Prop :=
  start ≤ i ∧ StopAt stops (cstr (text.drop start)) (i - start)

theorem StopInView.stopAt {stops : StopList} {text : Bytes} {start i : Nat}
    (h : StopInView stops text start i) : StopAt stops text i := by
  obtain ⟨hle, v, hv, hocc⟩ := h
  rw [cstr_eq_take, occursAt_take (stops.nonempty v hv), occursAt_drop,
    show start + (i - start) = i by omega] at hocc
  exact ⟨v, hv, hocc.1⟩

/-- Without a NUL all of the text is in view. -/
theorem stopInView_iff {stops : StopList} {text : Bytes} {start i : Nat} (h : NulFree text) :
    StopInView stops text start i ↔ start ≤ i ∧ StopAt stops text i := by
  refine ⟨fun hv => ⟨hv.1, hv.stopAt⟩, fun ⟨hle, v, hv, hocc⟩ => ⟨hle, v, hv, ?_⟩⟩
  rw [cstr_iff.mpr fun hmem => h (List.mem_of_mem_drop hmem), occursAt_drop,
    show start + (i - start) = i by omega]
  exact hocc

/-- A turn takes in the first occurrence of one more stop. -/
theorem stopFindTurn_isFirst {text v : Bytes} {start : Nat} {P : Nat → Prop}
    {best : Option (Nat × Nat)} (hv : v ≠ []) (h : IsFirst P (best.map Prod.fst)) :
    IsFirst (fun i => P i ∨ (start ≤ i ∧ OccursAt v (cstr (text.drop start)) (i - start)))
      ((stopFindTurn text start best v).map Prod.fst) := by
  unfold stopFindTurn
  generalize cstr (text.drop start) = view
  cases hs : strstr view v with
  | none =>
    exact h.congr fun i => ⟨Or.inl, fun hi => hi.resolve_right fun ⟨_, hocc⟩ =>
      (firstOcc_eq_none_iff hv).mp hs _ hocc⟩
  | some k =>
    obtain ⟨hocc, hmin⟩ := (firstOcc_eq_some_iff hv).mp hs
    have hmin' : ∀ j, start ≤ j → j < start + k → ¬ OccursAt v view (j - start) :=
      fun j hj hjk hbad => hmin (j - start) (by omega) hbad
    have hocc' : OccursAt v view (start + k - start) := by
      rwa [show start + k - start = k by omega]
    cases best with
    | none =>
      exact ⟨Or.inr ⟨by omega, hocc'⟩,
        fun j hj hbad => hbad.elim (h j) fun hb => hmin' j hb.1 hj hb.2⟩
    | some b =>
      obtain ⟨hb, hbmin⟩ := h
      dsimp only
      split
      · rename_i hlt
        exact ⟨Or.inr ⟨by omega, hocc'⟩,
          fun j hj hbad => hbad.elim (hbmin j (by simp at hj ⊢; omega))
            fun hb => hmin' j hb.1 hj hb.2⟩
      · rename_i hge
        refine ⟨Or.inl hb, fun j hj hbad => hbad.elim (hbmin j hj) fun hb => ?_⟩
        exact hmin' j hb.1 (by simp at hj; omega) hb.2

/-- The search finds the first stop in view. -/
theorem stopListFindFrom_isFirst (stops : StopList) (text : Bytes) (start : Nat) :
    IsFirst (StopInView stops text start)
      ((stopListFindFrom stops text start).map Prod.fst) := by
  -- folding over a part of the list takes in the stops of that part
  have hfold : ∀ (l : List Bytes) (P : Nat → Prop) (best : Option (Nat × Nat)),
      (∀ v ∈ l, v ≠ []) → IsFirst P (best.map Prod.fst) →
      IsFirst (fun i => P i ∨ ∃ v ∈ l, start ≤ i ∧ OccursAt v (cstr (text.drop start)) (i - start))
        ((l.foldl (stopFindTurn text start) best).map Prod.fst) := by
    intro l
    induction l with
    | nil => intro P best _ h; exact h.congr fun i => by simp
    | cons v l ih =>
      intro P best hne h
      exact (ih _ _ (fun w hw => hne w (by simp [hw]))
        (stopFindTurn_isFirst (hne v (by simp)) h)).congr fun i => by simp [or_assoc]
  refine (hfold stops.v (fun _ => False) none stops.nonempty (fun _ h => h)).congr fun i => ?_
  simp only [false_or, StopInView, StopAt]
  exact ⟨fun ⟨v, hv, hi, hocc⟩ => ⟨hi, v, hv, hocc⟩, fun ⟨hi, v, hv, hocc⟩ => ⟨v, hv, hi, hocc⟩⟩

/-- A search from the start of a text without a NUL finds its first stop. -/
theorem stopListFindFrom_zero {stops : StopList} {text : Bytes} (hfree : NulFree text) :
    IsFirst (StopAt stops text) ((stopListFindFrom stops text 0).map Prod.fst) :=
  (stopListFindFrom_isFirst stops text 0).congr fun i => by simp [stopInView_iff hfree]

/-- Once a prefix of a text without a NUL is known to hold no stop, searching from
`max_len - 1` bytes before its end finds the first stop of the whole. -/
theorem stopListFindFrom_resume {stops : StopList} {text : Bytes} {p start : Nat}
    (hfree : NulFree text) (hclean : ∀ i, ¬ StopAt stops (text.take p) i)
    (hstart : start ≤ p - (stops.maxLen - 1)) :
    IsFirst (StopAt stops text) ((stopListFindFrom stops text start).map Prod.fst) := by
  refine (stopListFindFrom_isFirst stops text start).congr fun i => ?_
  rw [stopInView_iff hfree]
  refine ⟨fun h => h.2, fun h => ⟨?_, h⟩⟩
  obtain ⟨n, hn, hnmax, hin, htake⟩ := h.bounds
  rcases Nat.lt_or_ge i start with hlt | hge
  · exact absurd (htake p (by omega)) (hclean i)
  · exact hge

/-! ## The loop -/

/-- After the first `l` bytes of `T` were handed over as certain, in a buffer that
shows the first `q` bytes: the position is held back while no opener shows, and
everything due before the opener was handed out once one does. -/
structure Streamed (T : Bytes) (q l : Nat) (st : ReasoningStream) (w : Wire ChatDelta) :
    Prop where
  text : st.mode = .text → HeldBack true T 0 st.emitPos l ∧
    findAnyToolStart (T.take q) = none ∧ Holds chatSink .text w [] (slice T 0 st.emitPos)
  suppress : st.mode = .suppress → contentEnd true T 0 ≤ l ∧
    (∃ t, findAnyToolStart (T.take q) = some t ∧ trimToolSeparatorWs T 0 t ≤ l) ∧
    Holds chatSink .suppress w [] (slice T 0 (contentEnd true T 0))
  mode : st.mode ≠ .thinking

/-- One call with a longer buffer and a length that does not shrink. -/
theorem streamed_step {T : Bytes} {q l q' l' : Nat} {st : ReasoningStream}
    {w : Wire ChatDelta} (h : Streamed T q l st w) (hq : q ≤ q') (hl : l ≤ l') (hlq : l' ≤ q')
    (hreach : ∀ t, findAnyToolStart (T.take q') = some t → trimToolSeparatorWs T 0 t ≤ l') :
    ∃ st' w', reasoningStreamUpdate allSends true (T.take q') l' false st w = (true, st', w') ∧
      Streamed T q' l' st' w' := by
  unfold reasoningStreamUpdate splitUpdate
  cases hm : st.mode with
  | thinking => exact absurd hm h.mode
  | suppress =>
    obtain ⟨hend, ⟨t, ht, htl⟩, hs⟩ := h.suppress hm
    have ht' : findAnyToolStart (T.take q') = some t := by
      have := findAnyToolStart_take (T := T.take q') (p := q) (S := 0) (e := 0) (Nat.le_refl 0)
        (fun i _ _ => Nat.zero_le i) (t := t) (by simpa [List.take_take, Nat.min_eq_left hq])
      simpa using this
    exact ⟨st, w, rfl, ⟨by simp [hm], fun _ => ⟨by omega, ⟨t, ht', hreach t ht'⟩, hs⟩, h.mode⟩⟩
  | text =>
    obtain ⟨hheld, hnone, hs⟩ := h.text hm
    -- the first opener from the position on is the first opener of the buffer
    have hshow : ∀ t, findAnyToolStart ((T.take q').drop st.emitPos) = some t →
        findAnyToolStart (T.take q') = some (st.emitPos + t) := fun t ht => by
      have := findAnyToolStart_take (T := T.take q') (p := q') (S := 0) (e := st.emitPos)
        (Nat.zero_le _) (fun i _ hi => ?_) (t := t) (by simpa [List.take_take] using ht)
      · simpa using this
      · obtain ⟨L, -, -, heq, hold⟩ := id hheld
        have := (hold rfl).2 i (Nat.zero_le _) hi.of_take
        have := utf8StreamSafeLen_le (s := T) (Nat.zero_le L)
        omega
    cases ht : findAnyToolStart ((T.take q').drop st.emitPos) with
    | some t =>
      have hfirst := hshow t ht
      obtain ⟨st', w', hup, hm', hs', hend⟩ := textUpdate_tool chatSink false hl hlq hheld rfl ht
        (hreach _ hfirst) hs
      exact ⟨st', w', hup, ⟨by simp [hm'], fun _ => ⟨hend, ⟨_, hfirst, hreach _ hfirst⟩, hs'⟩,
        by simp [hm']⟩⟩
    | none =>
      obtain ⟨w', e, hup, hheld', hs'⟩ := textUpdate_hold chatSink hl hlq hheld rfl
        (fun _ => ht) hs
      refine ⟨_, w', hup, ⟨fun _ => ⟨hheld', ?_, hs'⟩, by simp [hm], by simp [hm]⟩⟩
      rw [findAnyToolStart_eq_none_iff]
      intro i hi
      obtain ⟨L, -, -, heq, hold⟩ := id hheld
      have hLi := (hold rfl).2 i (Nat.zero_le _) hi.of_take
      have := utf8StreamSafeLen_le (s := T) (Nat.zero_le L)
      refine findAnyToolStart_eq_none_iff.mp ht (i - st.emitPos) ?_
      rw [toolStartAt_drop, show st.emitPos + (i - st.emitPos) = i by omega]
      exact hi

/-- Without stops that are longer than a byte nothing is held back. -/
theorem stopListStreamSafeLen_eq (stops : StopList) (n : Nat) :
    stopListStreamSafeLen stops n = n - (stops.maxLen - 1) := by
  unfold stopListStreamSafeLen
  split
  · rename_i h
    have : stops.maxLen ≤ 1 := by
      rcases h with h | h
      · simp [StopList.maxLen, List.length_eq_zero_iff.mp h]
      · exact h
    omega
  · rfl

/-- Every piece the loop takes in stays in the buffer. -/
theorem decodeLoop_extends (net : Nat → Bool) (hasTools : Bool) (stops : StopList) :
    ∀ (pieces : List Bytes) (d : DecodeState),
      d.raw <+: (decodeLoop net hasTools stops pieces d).2.2.raw
  | [], d => List.prefix_refl _
  | piece :: pieces, d => by
      have hgrow : d.raw <+: (decodePiece net hasTools stops d piece).2.2.raw :=
        List.prefix_append _ _
      unfold decodeLoop
      split
      · rename_i heq; rw [heq] at hgrow; exact hgrow
      · rename_i heq; rw [heq] at hgrow; exact hgrow
      · rename_i heq
        rw [heq] at hgrow
        exact hgrow.trans (decodeLoop_extends net hasTools stops pieces _)

/-- After each piece, what comes before the first opener of the buffer, less
separator white space, lies within the length handed over. -/
def StepsInReach (stops : StopList) : List Bytes → Bytes → Nat → Prop
  | [], _, _ => True
  | piece :: pieces, raw, stopScanFrom =>
      let raw := raw ++ piece
      (∀ t ∈ findAnyToolStart raw,
        trimToolSeparatorWs raw 0 t ≤ streamLen stops raw stopScanFrom) ∧
      (stopListFindFrom stops raw stopScanFrom = none →
        StepsInReach stops pieces raw (nextScanFrom stops raw.length stopScanFrom))

instance decStepsInReach (stops : StopList) : ∀ (pieces : List Bytes) (raw : Bytes)
    (stopScanFrom : Nat), Decidable (StepsInReach stops pieces raw stopScanFrom)
  | [], _, _ => isTrue trivial
  | piece :: pieces, raw, stopScanFrom =>
      have := decStepsInReach stops pieces (raw ++ piece)
        (nextScanFrom stops (raw ++ piece).length stopScanFrom)
      inferInstanceAs (Decidable (_ ∧ _))

/-- The loop has met no stop yet. -/
structure BeforeStop (stops : StopList) (T : Bytes) (d : DecodeState) : Prop where
  seen : d.raw <+: T
  clean : ∀ i, ¬ StopAt stops d.raw i
  scan : d.stopScanFrom ≤ d.raw.length - (stops.maxLen - 1)
  streamed : Streamed T d.raw.length (d.raw.length - (stops.maxLen - 1)) d.stream d.wire

/-- The loop has ended, at a stop or at the last piece. -/
def AfterLoop (stops : StopList) (T : Bytes) (hit : Option Nat) (d : DecodeState) : Prop :=
  d.raw = T ∧ IsFirst (StopAt stops T) hit ∧
    ∃ l, (∀ s, StopAt stops T s → l ≤ s) ∧ (∀ s, hit = some s → l = s) ∧ l ≤ T.length ∧
      Streamed T T.length l d.stream d.wire

/-- One piece, in reach, from a state that has met no stop. -/
theorem decodePiece_inv {stops : StopList} {T piece : Bytes} {d : DecodeState}
    (hfree : NulFree T) (h : BeforeStop stops T d) (hT : d.raw ++ piece <+: T)
    (hreach : ∀ t, findAnyToolStart (d.raw ++ piece) = some t →
      trimToolSeparatorWs (d.raw ++ piece) 0 t ≤
        streamLen stops (d.raw ++ piece) d.stopScanFrom) :
    ∃ hit d', decodePiece allSends true stops d piece = (true, hit, d') ∧
      d'.raw = d.raw ++ piece ∧
      (stopListFindFrom stops (d.raw ++ piece) d.stopScanFrom).map Prod.fst = hit ∧
      (hit = none → BeforeStop stops T d' ∧
        d'.stopScanFrom = nextScanFrom stops (d.raw ++ piece).length d.stopScanFrom) ∧
      (hit.isSome → d.raw ++ piece = T → AfterLoop stops T hit d') := by
  obtain ⟨raw, hraw⟩ : ∃ raw, raw = d.raw ++ piece := ⟨_, rfl⟩
  rw [← hraw] at hT hreach ⊢
  have hq : d.raw.length ≤ raw.length := by rw [hraw]; simp
  have hTq : raw.length ≤ T.length := hT.length_le
  have htake : T.take raw.length = raw := (List.prefix_iff_eq_take.mp hT).symm
  have hbefore : raw.take d.raw.length = d.raw := by rw [hraw]; exact List.take_left
  obtain ⟨hit, hhit⟩ : ∃ hit,
    (stopListFindFrom stops raw d.stopScanFrom).map Prod.fst = hit := ⟨_, rfl⟩
  have hfirst : IsFirst (StopAt stops raw) hit := by
    rw [← hhit]
    exact stopListFindFrom_resume (p := d.raw.length) (fun hmem => hfree (hT.subset hmem))
      (by rw [hbefore]; exact h.clean) h.scan
  obtain ⟨l, hl⟩ : ∃ l, l = streamLen stops raw d.stopScanFrom := ⟨_, rfl⟩
  -- the length handed over: up to the stop, or short of the longest stop
  have hlen : (∀ s, hit = some s → l = s) ∧
      (hit = none → l = raw.length - (stops.maxLen - 1)) ∧ l ≤ raw.length := by
    rw [hl, streamLen]
    cases hf : stopListFindFrom stops raw d.stopScanFrom with
    | none =>
      rw [hf] at hhit
      subst hhit
      simp only [stopListStreamSafeLen_eq]
      refine ⟨by simp, fun _ => ?_, ?_⟩ <;> split <;> omega
    | some r =>
      rw [hf] at hhit
      subst hhit
      obtain ⟨n, hn, -, hin, -⟩ := StopAt.bounds hfirst.1
      simp only [Option.map_some, Option.some.injEq, reduceCtorEq, false_implies, true_and]
      refine ⟨fun s hs => ?_, ?_⟩ <;> split <;> omega
  obtain ⟨hlhit, hlnone, hlq⟩ := hlen
  have hgrow : d.raw.length - (stops.maxLen - 1) ≤ l := by
    cases hit with
    | none => have := hlnone rfl; omega
    | some s =>
      rw [hlhit s rfl]
      obtain ⟨n, hn, hnmax, hin, hkeep⟩ := StopAt.bounds hfirst.1
      rcases Nat.lt_or_ge d.raw.length (s + n) with hlt | hge
      · omega
      · have := hkeep _ hge
        rw [hbefore] at this
        exact absurd this (h.clean s)
  rw [← hl] at hreach
  have htrim : ∀ t, findAnyToolStart (T.take raw.length) = some t →
      trimToolSeparatorWs T 0 t ≤ l := fun t ht => by
    rw [htake] at ht
    have hin := (findAnyToolStart_eq_some_iff.mp ht).1.bounds.1
    have hle := hreach t ht
    rwa [trimToolSeparatorWs, retreat_congr (t := T) fun k hk => by
      rw [← htake, List.getElem?_take, if_pos (by omega)]] at hle
  obtain ⟨st', w', hup, hst⟩ := streamed_step h.streamed hq hgrow hlq htrim
  rw [htake, hl] at hup
  refine ⟨hit, ⟨raw, if hit.isSome then d.stopScanFrom
    else nextScanFrom stops raw.length d.stopScanFrom, st', w'⟩, ?_, rfl, hhit, ?_, ?_⟩
  · unfold decodePiece
    simp only [← hraw, hhit, hup]
  · rintro rfl
    have hscan : nextScanFrom stops raw.length d.stopScanFrom ≤
        raw.length - (stops.maxLen - 1) := by
      have := h.scan
      unfold nextScanFrom
      split <;> omega
    exact ⟨⟨hT, hfirst, hscan, by rw [← hlnone rfl]; exact hst⟩, rfl⟩
  · intro hsome hrawT
    obtain ⟨s, rfl⟩ := Option.isSome_iff_exists.mp hsome
    rw [hrawT] at hfirst hst hlq
    refine ⟨hrawT, hfirst, l, fun s' hs' => ?_, fun s' hs' => hlhit s' hs', hlq, hst⟩
    rw [hlhit s rfl]
    rcases Nat.lt_or_ge s' s with hlt | hge
    · exact absurd hs' (hfirst.2 s' hlt)
    · exact hge

/-- A run of pieces in reach ends in a state that has handed out what it should. -/
theorem decodeLoop_inv {stops : StopList} {T : Bytes} (hfree : NulFree T) : ∀ (pieces : List Bytes)
    (d : DecodeState), (decodeLoop allSends true stops pieces d).2.2.raw = T →
      BeforeStop stops T d → StepsInReach stops pieces d.raw d.stopScanFrom →
      ∃ hit d', decodeLoop allSends true stops pieces d = (true, hit, d') ∧
        AfterLoop stops T hit d'
  | [], d, hT, h, _ => by
      obtain rfl : d.raw = T := hT
      refine ⟨none, d, rfl, rfl, h.clean, d.raw.length - (stops.maxLen - 1),
        fun s hs => absurd hs (h.clean s), by simp, by omega, h.streamed⟩
  | piece :: pieces, d, hT, h, hreach => by
      have hpre : d.raw ++ piece <+: T := by
        have hgrow := decodeLoop_extends allSends true stops pieces
          (decodePiece allSends true stops d piece).2.2
        rw [← hT, decodeLoop]
        split
        · rename_i heq; rw [show d.raw ++ piece = _ from congrArg (·.2.2.raw) heq]
        · rename_i heq; rw [show d.raw ++ piece = _ from congrArg (·.2.2.raw) heq]
        · rename_i heq
          rw [heq] at hgrow
          rwa [show d.raw ++ piece = _ from congrArg (·.2.2.raw) heq]
      obtain ⟨hit, d', hstep, hraw, hhit, hnone, hsome⟩ := decodePiece_inv hfree h hpre hreach.1
      rw [decodeLoop, hstep] at hT ⊢
      cases hit with
      | some s =>
        refine ⟨some s, d', rfl, hsome rfl ?_⟩
        rw [← hraw]
        exact hT
      | none =>
        obtain ⟨hbefore, hscan⟩ := hnone rfl
        refine decodeLoop_inv hfree pieces d' hT hbefore ?_
        rw [hraw, hscan]
        exact hreach.2 (Option.map_eq_none_iff.mp hhit)

/-! ## The whole run -/

/-- Where the text to be shown ends: at the first stop, or before the separator
white space of the first opener, whichever comes first. -/
def dueLen (stops : StopList) (T : Bytes) : Nat :=
  min (((stopListFindFrom stops T 0).map Prod.fst).getD T.length)
    (((findAnyToolStart T).map (trimToolSeparatorWs T 0)).getD T.length)

/-- Nothing at or behind a stop was sent. -/
def NothingLeaked (stops : StopList) (T C : Bytes) : Prop :=
  C <+: T ∧ ∀ s, StopAt stops T s → C.length ≤ s

/-- Every byte before the first stop and before the first opener was sent. -/
def NothingLost (stops : StopList) (T C : Bytes) : Prop :=
  ∀ i, i < T.length → (∀ s, StopAt stops T s → i < s) →
    (∀ t, findAnyToolStart T = some t → i < trimToolSeparatorWs T 0 t) → i < C.length

theorem streamed_content {T : Bytes} {l : Nat} {st : ReasoningStream} {w : Wire ChatDelta}
    (h : Streamed T T.length l st w) :
    ∃ e, e ≤ l ∧ chatContent w = T.take e := by
  cases hm : st.mode with
  | thinking => exact absurd hm h.mode
  | text =>
    obtain ⟨hheld, -, hs⟩ := h.text hm
    exact ⟨st.emitPos, hheld.bounds.2, by rw [← slice_zero]; exact hs.content⟩
  | suppress =>
    obtain ⟨hend, -, hs⟩ := h.suppress hm
    exact ⟨_, hend, by rw [← slice_zero]; exact hs.content⟩

/-- Cutting the text behind the limit keeps the hold-back. -/
theorem HeldBack.cut {T : Bytes} {e p n : Nat} (h : HeldBack true T 0 e p) (hpn : p ≤ n) :
    HeldBack true (T.take n) 0 e p := by
  obtain ⟨L, hL, hLp, heq, hold⟩ := h
  refine ⟨L, hL, hLp, ?_, fun _ => ?_⟩
  · rw [utf8StreamSafeLen_take (by omega)]
    exact heq
  · obtain ⟨hws, htool⟩ := hold rfl
    refine ⟨hws.imp_right fun h => ?_, fun i hi hti => htool i hi hti.of_take⟩
    rcases Nat.eq_zero_or_pos L with rfl | hpos
    · rcases hws with h0 | h0
      · rw [List.getElem?_take]
        split
        · exact h
        · rfl
      · rw [List.getElem?_take]
        split
        · exact h
        · rfl
    · rw [List.getElem?_take, if_pos (by omega)]
      exact h

/-- The final call sends the rest of what is due. -/
theorem finish_due {stops : StopList} {T : Bytes} {hit : Option Nat} {d : DecodeState}
    (hfree : NulFree T) (h : AfterLoop stops T hit d)
    (hwhole : utf8StreamSafeLen T 0 (dueLen stops T) = dueLen stops T) :
    ∃ st w, reasoningStreamUpdate allSends true (cutAtStop d.raw hit) (cutAtStop d.raw hit).length
        true d.stream d.wire = (true, st, w) ∧ chatContent w = T.take (dueLen stops T) := by
  obtain ⟨hraw, hfirst, l, -, hlhit, hlT, hst⟩ := h
  obtain ⟨E, hE⟩ : ∃ E, E = hit.getD T.length := ⟨_, rfl⟩
  have hET : E ≤ T.length := by
    rw [hE]
    cases hit with
    | none => exact Nat.le_refl _
    | some s => obtain ⟨n, -, -, hin, -⟩ := StopAt.bounds hfirst.1; simp; omega
  have hlE : l ≤ E := by
    rw [hE]
    cases hit with
    | none => exact hlT
    | some s => exact Nat.le_of_eq (hlhit s rfl)
  have hcut : cutAtStop d.raw hit = T.take E := by
    rw [hE, hraw]
    cases hit with
    | none => simp [cutAtStop]
    | some s => rfl
  have hlenE : (T.take E).length = E := by simp; omega
  have hstop : ((stopListFindFrom stops T 0).map Prod.fst).getD T.length = E := by
    rw [hE, (stopListFindFrom_zero hfree).unique hfirst]
  rw [hcut, hlenE]
  cases hm : d.stream.mode with
  | thinking => exact absurd hm hst.mode
  | suppress =>
    obtain ⟨-, ⟨t, ht, htl⟩, hs⟩ := hst.suppress hm
    rw [List.take_length] at ht
    have hdue : dueLen stops T = trimToolSeparatorWs T 0 t := by
      simp only [dueLen, hstop, ht, Option.map_some, Option.getD_some]
      omega
    have hend : contentEnd true T 0 = dueLen stops T := by
      rw [← hwhole, hdue]
      simp only [contentEnd, if_true, List.drop_zero, ht, Nat.zero_add]
    refine ⟨d.stream, d.wire, by simp [reasoningStreamUpdate, splitUpdate, hm], ?_⟩
    rw [← hend, ← slice_zero]
    exact hs.content
  | text =>
    obtain ⟨hheld, hnone, hs⟩ := hst.text hm
    rw [List.take_length] at hnone
    have hdue : dueLen stops T = E := by
      simp only [dueLen, hstop, hnone, Option.map_none, Option.getD_none]
      omega
    rw [hdue] at hwhole ⊢
    have hs' : Holds chatSink .text d.wire [] (slice (T.take E) 0 d.stream.emitPos) := by
      rw [slice_take (Nat.le_trans hheld.bounds.2 hlE)]
      exact hs
    obtain ⟨st, w, hup, -, hsf⟩ := textUpdate_final chatSink (p := l) (by omega)
      (hheld.cut hlE) rfl hs'
    rw [hlenE] at hup
    refine ⟨st, w, by simp only [reasoningStreamUpdate, splitUpdate, hm, hup], ?_⟩
    have hnoneE : findAnyToolStart ((T.take E).drop 0) = none := by
      rw [List.drop_zero, findAnyToolStart_eq_none_iff]
      exact fun i hi => findAnyToolStart_eq_none_iff.mp hnone i hi.of_take
    have hend : contentEnd true (T.take E) 0 = E := by
      simp only [contentEnd, if_true, hnoneE, hlenE]
      rw [utf8StreamSafeLen_take (Nat.le_refl _), hwhole]
    have hcontent : chatContent w = slice (T.take E) 0 (contentEnd true (T.take E) 0) :=
      hsf.content
    rw [hcontent, hend, slice_zero, List.take_take, Nat.min_self]

/-- The buffer is made of the pieces. -/
theorem decodeLoop_nulFree (net : Nat → Bool) (hasTools : Bool) (stops : StopList) :
    ∀ (pieces : List Bytes) (d : DecodeState), (∀ piece ∈ pieces, NulFree piece) →
      NulFree d.raw → NulFree (decodeLoop net hasTools stops pieces d).2.2.raw
  | [], _, _, hd => hd
  | piece :: pieces, d, hpieces, hd => by
      have hstep : NulFree (decodePiece net hasTools stops d piece).2.2.raw :=
        nulFree_append.mpr ⟨hd, hpieces piece (by simp)⟩
      unfold decodeLoop
      split
      · rename_i heq; rw [heq] at hstep; exact hstep
      · rename_i heq; rw [heq] at hstep; exact hstep
      · rename_i heq
        rw [heq] at hstep
        exact decodeLoop_nulFree net hasTools stops pieces _
          (fun p hp => hpieces p (by simp [hp])) hstep

/-- In a run with tools on and thinking off in which, after each piece, the text
before the first opener lies within the length handed over, and in which the text
due does not end inside a character, no byte at or behind a stop is ever sent,
neither during the loop nor after it, and every byte before the first stop and
before the first opener is sent by the end. No piece has a NUL. -/
theorem stopStream_exact_of_reach (stops : StopList) (pieces : List Bytes)
    (hfree : ∀ piece ∈ pieces, NulFree piece)
    (hreach : StepsInReach stops pieces [] 0)
    (hwhole :
      let T := (decodeLoop allSends true stops pieces (decodeInit .none)).2.2.raw
      utf8StreamSafeLen T 0 (dueLen stops T) = dueLen stops T) :
    let run := decodeLoop allSends true stops pieces (decodeInit .none)
    let fin := decodeAndFinish allSends true stops pieces (decodeInit .none)
    run.1 = true ∧ NothingLeaked stops run.2.2.raw (chatContent run.2.2.wire) ∧
      fin.1 = true ∧ NothingLeaked stops run.2.2.raw (chatContent fin.2.2) ∧
      NothingLost stops run.2.2.raw (chatContent fin.2.2) := by
  intro run fin
  obtain ⟨T, hT⟩ : ∃ T, run.2.2.raw = T := ⟨_, rfl⟩
  have hinit : BeforeStop stops T (decodeInit .none) :=
    ⟨List.nil_prefix, fun i ⟨v, hv, hocc⟩ => not_occursAt_nil (stops.nonempty v hv) i hocc,
      Nat.zero_le _,
      ⟨fun _ => ⟨(HeldBack.start true T (Nat.le_refl 0)).mono (Nat.zero_le _), rfl,
        fun _ => trivial, rfl, rfl⟩, fun hm => by simp [decodeInit, reasoningStreamInit] at hm,
        by simp [decodeInit, reasoningStreamInit]⟩⟩
  have hfreeT : NulFree T :=
    hT ▸ decodeLoop_nulFree allSends true stops pieces _ hfree (by decide)
  obtain ⟨hit, d, hrun, hafter⟩ := decodeLoop_inv hfreeT pieces _ hT hinit hreach
  have hrun' : run = (true, hit, d) := hrun
  obtain ⟨-, hfirst, l, hlstop, hlhit, hlT, hst⟩ := id hafter
  obtain ⟨st, w, hup, hcontent⟩ := finish_due hfreeT hafter (by rw [← hT]; exact hwhole)
  have hfin : fin = (true, st, w) := by
    simp only [fin, decodeAndFinish, hrun]
    exact hup
  have hdueT : dueLen stops T ≤ T.length := by
    simp only [dueLen]
    cases hf : stopListFindFrom stops T 0 with
    | none => exact Nat.min_le_left _ _
    | some r =>
      have := @stopListFindFrom_zero stops T hfreeT
      rw [hf] at this
      obtain ⟨n, -, -, hin, -⟩ := StopAt.bounds this.1
      simp; omega
  have hlen : (T.take (dueLen stops T)).length = dueLen stops T := by simp; omega
  rw [hrun', hfin, hafter.1]
  simp only [hcontent, true_and]
  refine ⟨?_, ⟨List.take_prefix _ _, fun s hs => ?_⟩, fun i hiT hstop htool => ?_⟩
  · obtain ⟨e, hel, hC⟩ := streamed_content hst
    rw [hC]
    refine ⟨List.take_prefix _ _, fun s hs => ?_⟩
    have := hlstop s hs
    simp
    omega
  · -- what is due ends at the first stop at the latest
    have hfirst0 := @stopListFindFrom_zero stops T hfreeT
    rw [hlen]
    simp only [dueLen]
    cases hf : stopListFindFrom stops T 0 with
    | none => rw [hf] at hfirst0; exact absurd hs (hfirst0 s)
    | some r =>
      rw [hf] at hfirst0
      have : r.1 ≤ s := by
        rcases Nat.lt_or_ge s r.1 with hlt | hge
        · exact absurd hs (hfirst0.2 s hlt)
        · exact hge
      simp
      omega
  · rw [hlen]
    simp only [dueLen]
    have h1 : i < ((stopListFindFrom stops T 0).map Prod.fst).getD T.length := by
      have hfirst0 := @stopListFindFrom_zero stops T hfreeT
      cases hf : stopListFindFrom stops T 0 with
      | none => exact hiT
      | some r => rw [hf] at hfirst0; exact hstop _ hfirst0.1
    have h2 : i < ((findAnyToolStart T).map (trimToolSeparatorWs T 0)).getD T.length := by
      cases hf : findAnyToolStart T with
      | none => exact hiT
      | some t => exact htool t hf
    omega

/-- A stop cut in two by the pieces, before an opener. -/
theorem stopStream_exact_of_reach_cut :
    let stops : StopList := ⟨[bytes "STOP"], by decide⟩
    let pieces := [bytes "hello ST", bytes "OP", bytes "<tool_call>"]
    let run := decodeLoop allSends true stops pieces (decodeInit .none)
    let fin := decodeAndFinish allSends true stops pieces (decodeInit .none)
    run.1 = true ∧ NothingLeaked stops run.2.2.raw (chatContent run.2.2.wire) ∧
      fin.1 = true ∧ NothingLeaked stops run.2.2.raw (chatContent fin.2.2) ∧
      NothingLost stops run.2.2.raw (chatContent fin.2.2) :=
  stopStream_exact_of_reach _ _ (by decide) (by decide) (by decide)

/-- An opener arrives while the text before it is held back for a long stop: the
text is dropped. A stop and an opener arrive together: the stop and the text
behind it are sent. -/
theorem stopStream_loses_and_leaks :
    (let stops : StopList := ⟨[bytes "ABCDEFGHIJKLMNOP"], by decide⟩
      let pieces := [bytes "ab", bytes "<tool_call>"]
      let run := decodeLoop allSends true stops pieces (decodeInit .none)
      let fin := decodeAndFinish allSends true stops pieces (decodeInit .none)
      fin.1 = true ∧ chatContent fin.2.2 = [] ∧
        ¬ NothingLost stops run.2.2.raw (chatContent fin.2.2)) ∧
    (let stops : StopList := ⟨[bytes "STOP"], by decide⟩
      let pieces := [bytes "aSTOP<tool_call>"]
      let run := decodeLoop allSends true stops pieces (decodeInit .none)
      let fin := decodeAndFinish allSends true stops pieces (decodeInit .none)
      fin.1 = true ∧ chatContent fin.2.2 = bytes "aSTOP" ∧
        ¬ NothingLeaked stops run.2.2.raw (chatContent fin.2.2)) := by
  refine ⟨⟨by decide, by decide, fun h => ?_⟩, by decide,
    by decide, fun h => ?_⟩
  · refine absurd (h 0 (by decide) (fun s hs => ?_) (fun t ht => ?_)) (by decide)
    · rcases Nat.eq_zero_or_pos s with rfl | hpos
      · exact absurd hs (by decide)
      · exact hpos
    · have hfirst : findAnyToolStart (bytes "ab<tool_call>") = some 2 := by decide
      obtain rfl : t = 2 := Option.some.inj (ht.symm.trans hfirst)
      decide
  · exact absurd (h.2 1 (by decide)) (by decide)

end Sf37.Server

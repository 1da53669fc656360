/-
Sf37.Engine.LoadSpec — what the parts of the two loaders do.

* `readU32s_spec`, `readTokens_spec`: what a read in full leaves.
* `payloadFront_spec`, `snapshotFront_spec`: what holds of a file whose front is accepted.
* `restoreLayers_frame`, `restoreVectors_frame`: what the loops do not touch.
-/
import Sf37.Engine.LoadSession

namespace Sf37.Engine

open Sf37.Text Sf37.Store
open Sf37.Server (Token Tokens)

/-! ## Reads -/

/-- What is left behind some bytes. -/
def Source.skip (src : Source) (n : Nat) : Source := ⟨src.data.drop n, src.remaining - n⟩

@[simp]
theorem Source.data_skip (src : Source) (n : Nat) : (src.skip n).data = src.data.drop n := rfl

@[simp]
theorem Source.remaining_skip (src : Source) (n : Nat) :
    (src.skip n).remaining = src.remaining - n := rfl

theorem Source.skip_skip (src : Source) (m n : Nat) : (src.skip m).skip n = src.skip (m + n) := by
  rw [Source.skip, Source.skip, Source.skip, List.drop_drop, Nat.sub_sub]

/-- A read in full takes the bytes at the front. -/
theorem readBytes_spec {n : Nat} {src src' : Source} {b : Bytes}
    (h : readBytes n src = (b, some src')) :
    n ≤ src.remaining ∧ n ≤ src.data.length ∧ b = src.data.take n ∧ src' = src.skip n := by
  rw [readBytes] at h
  split at h
  · nomatch h
  next hrem =>
    split at h
    · nomatch h
    next hdata =>
      obtain ⟨hb, hs⟩ := Prod.mk.inj h
      exact ⟨by omega, by omega, hb.symm, (Option.some.inj hs).symm⟩

/-- A read that the file and the count allow is one in full. -/
theorem readBytes_eq {n : Nat} {src : Source} (hrem : n ≤ src.remaining)
    (hdata : n ≤ src.data.length) : readBytes n src = (src.data.take n, some (src.skip n)) := by
  rw [readBytes, if_neg (by omega), if_neg (by omega)]
  rfl

theorem readU32_spec {src src' : Source} {v : Nat} (h : readU32 src = some (v, src')) :
    4 ≤ src.remaining ∧ 4 ≤ src.data.length ∧ src' = src.skip 4 := by
  rw [readU32] at h
  obtain ⟨rest, hrest, heq⟩ := Option.map_eq_some_iff.mp h
  obtain ⟨-, rfl⟩ := Prod.mk.inj heq
  obtain ⟨hrem, hdata, -, hskip⟩ := readBytes_spec (Prod.ext rfl hrest : readBytes 4 src = (_, some rest))
  exact ⟨hrem, hdata, hskip⟩

theorem readU32s_spec {n : Nat} {src src' : Source} {vs : List Nat}
    (h : readU32s n src = some (vs, src')) :
    vs.length = n ∧ n * 4 ≤ src.remaining ∧ n * 4 ≤ src.data.length ∧ src' = src.skip (n * 4) := by
  induction n generalizing src vs with
  | zero =>
    obtain ⟨rfl, rfl⟩ := Prod.mk.inj (Option.some.inj h)
    exact ⟨rfl, by omega, by omega, rfl⟩
  | succ n ih =>
    obtain ⟨⟨v, mid⟩, hv, hrest⟩ := Option.bind_eq_some_iff.mp h
    obtain ⟨⟨ws, last⟩, hws, heq⟩ := Option.map_eq_some_iff.mp hrest
    obtain ⟨rfl, rfl⟩ := Prod.mk.inj heq
    obtain ⟨hrem, hdata, rfl⟩ := readU32_spec hv
    obtain ⟨hlen, hrem', hdata', rfl⟩ := ih hws
    simp only [Source.skip, List.length_drop] at hrem' hdata'
    refine ⟨by rw [List.length_cons, hlen], by omega, by omega, ?_⟩
    rw [Source.skip_skip, Nat.succ_mul, Nat.add_comm]

theorem readTokens_spec {n : Nat} {src src' : Source} {tokens : Tokens}
    (h : readTokens n src = some (tokens, src')) :
    tokens.length = n ∧ n * 4 ≤ src.remaining ∧ n * 4 ≤ src.data.length ∧
      src' = src.skip (n * 4) ∧ ∀ t ∈ tokens, t < vocabSize := by
  induction n generalizing src tokens with
  | zero =>
    obtain ⟨rfl, rfl⟩ := Prod.mk.inj (Option.some.inj h)
    exact ⟨rfl, by omega, by omega, rfl, nofun⟩
  | succ n ih =>
    obtain ⟨⟨v, mid⟩, hv, hrest⟩ := Option.bind_eq_some_iff.mp h
    dsimp only at hrest
    split at hrest
    · nomatch hrest
    next hvocab =>
      obtain ⟨⟨ws, last⟩, hws, heq⟩ := Option.map_eq_some_iff.mp hrest
      obtain ⟨rfl, rfl⟩ := Prod.mk.inj heq
      obtain ⟨hrem, hdata, rfl⟩ := readU32_spec hv
      obtain ⟨hlen, hrem', hdata', rfl, hlt⟩ := ih hws
      simp only [Source.skip, List.length_drop] at hrem' hdata'
      refine ⟨by rw [List.length_cons, hlen], by omega, by omega, ?_, fun t ht => ?_⟩
      · rw [Source.skip_skip, Nat.succ_mul, Nat.add_comm]
      · rcases List.mem_cons.mp ht with rfl | ht
        · exact Nat.lt_of_not_le hvocab
        · exact hlt t ht

/-! ## The front of a file -/

/-- What holds of the front of a file that a loader accepts. -/
structure FrontOk (dev : Device) (front : LoadFront) (savedCtx : Nat) : Prop where
  tokens_le : front.tokens.length ≤ dev.ctxSize
  tokens_lt : ∀ t ∈ front.tokens, t < vocabSize
  savedCtx_le : savedCtx ≤ dev.ctxSize
  counts : front.rowCounts.length = mainLayers
  rows_le : ∀ il < mainLayers, front.rows il ≤ min front.tokens.length savedCtx
  rows_full : ∀ il < mainLayers, layerIsFull il = true →
    front.rows il = min front.tokens.length savedCtx
  rows_sliding : ∀ il < mainLayers, layerIsFull il = false →
    min (min front.tokens.length savedCtx) slidingWindow ≤ front.rows il
  rows_le_cap : ∀ il < mainLayers, front.rows il ≤ dev.cacheCap il

theorem rowCountError_none {dev : Device} {what : String} {liveRows il rows : Nat}
    (hil : il < mainLayers) (h : rowCountError dev what liveRows il rows = none) :
    rows ≤ liveRows ∧ (layerIsFull il = true → rows = liveRows) ∧
      (layerIsFull il = false → min liveRows slidingWindow ≤ rows) ∧ rows ≤ dev.cacheCap il := by
  have hcap := dev.cacheCap_pos il
  rw [rowCountError, dev.layerKvCap_eq hil] at h
  by_cases hle : liveRows < rows
  · rw [if_pos hle] at h
    nomatch h
  rw [if_neg hle] at h
  by_cases hfull : layerIsFull il = true ∧ rows ≠ liveRows
  · rw [if_pos hfull] at h
    nomatch h
  rw [if_neg hfull] at h
  by_cases hsliding : ¬ layerIsFull il = true ∧
      rows < (if liveRows < slidingWindow then liveRows else slidingWindow)
  · rw [if_pos hsliding] at h
    nomatch h
  rw [if_neg hsliding] at h
  by_cases hfits : dev.cacheCap il ≠ 0 ∧ dev.cacheCap il < rows
  · rw [if_pos hfits] at h
    nomatch h
  refine ⟨by omega, fun hf => ?_, fun hf => ?_, by omega⟩
  · by_contra hne
    exact hfull ⟨hf, hne⟩
  · by_contra hlt
    refine hsliding ⟨by simp [hf], ?_⟩
    split <;> omega

theorem rowCountsError_none {dev : Device} {what : String} {liveRows : Nat} {rowCounts : List Nat}
    (h : rowCountsError dev what liveRows rowCounts = none) {il : Nat} (hil : il < mainLayers) :
    rowCountError dev what liveRows il (rowCounts.getD il 0) = none :=
  List.findSome?_eq_none_iff.mp h il (List.mem_range.mpr hil)

theorem frontOk_of_rows {dev : Device} {what : String} {tokens : Tokens} {rowCounts : List Nat}
    (savedCtx : Nat) {liveRows : Nat} (htok : tokens.length ≤ dev.ctxSize)
    (hlt : ∀ t ∈ tokens, t < vocabSize) (hctx : savedCtx ≤ dev.ctxSize)
    (hlive : liveRows = if tokens.length < savedCtx then tokens.length else savedCtx)
    (hcounts : rowCounts.length = mainLayers)
    (h : rowCountsError dev what liveRows rowCounts = none) :
    FrontOk dev ⟨tokens, rowCounts⟩ savedCtx := by
  obtain rfl : liveRows = min tokens.length savedCtx := by
    rw [hlive]
    split <;> omega
  refine ⟨htok, hlt, hctx, hcounts, ?_, ?_, ?_, ?_⟩ <;> intro il hil
  · exact (rowCountError_none hil (rowCountsError_none h hil)).1
  · exact (rowCountError_none hil (rowCountsError_none h hil)).2.1
  · exact (rowCountError_none hil (rowCountsError_none h hil)).2.2.1
  · exact (rowCountError_none hil (rowCountsError_none h hil)).2.2.2

/-- The bytes of a file up to its logits. -/
def frontBytes (fields tokenCount : Nat) : Nat := (fields + mainLayers + tokenCount) * 4

theorem payloadHeaderError_none {dev : Device} {payloadBytes : Nat} {h rowCounts : List Nat}
    (herr : payloadHeaderError dev payloadBytes h rowCounts = none) :
    h.getD 2 0 ≤ dev.ctxSize ∧ h.getD 3 0 ≤ dev.ctxSize ∧
      h.getD 4 0 = (if h.getD 3 0 < h.getD 2 0 then h.getD 3 0 else h.getD 2 0) ∧
      rowCountsError dev "session payload" (h.getD 4 0) rowCounts = none ∧
      payloadBytes = payloadExpectedBytes (h.getD 3 0) rowCounts.sum := by
  obtain ⟨live, hlive⟩ : ∃ live, live = if h.getD 3 0 < h.getD 2 0 then h.getD 3 0 else h.getD 2 0 :=
    ⟨_, rfl⟩
  rw [payloadHeaderError, ← hlive] at herr
  rw [← hlive]
  split at herr
  · nomatch herr
  next hctx =>
    split at herr
    · nomatch herr
    next hrowsOf =>
      split at herr
      · nomatch herr
      next hrows =>
        split at herr
        · nomatch herr
        · split at herr
          · nomatch herr
          next hbytes =>
            exact ⟨by omega, by omega, not_not.mp fun hne => hrowsOf (Or.inr hne), hrows,
              not_not.mp hbytes⟩

/-- What holds of a payload whose front is accepted. -/
theorem payloadFront_spec {dev : Device} {payloadBytes : Nat} {src src' : Source}
    {front : LoadFront} (h : payloadFront dev payloadBytes src = .ok (front, src')) :
    (∃ savedCtx, FrontOk dev front savedCtx) ∧
      payloadBytes = payloadExpectedBytes front.tokens.length front.rowCounts.sum ∧
      src' = src.skip (frontBytes payloadU32Fields front.tokens.length) ∧
      frontBytes payloadU32Fields front.tokens.length ≤ src.data.length := by
  rw [payloadFront] at h
  split at h
  · nomatch h
  next hd mid hhd =>
    obtain ⟨-, -, hdata₁, rfl⟩ := readU32s_spec hhd
    split at h
    · nomatch h
    split at h
    · nomatch h
    next rowCounts mid hcounts =>
      obtain ⟨hlen, -, hdata₂, rfl⟩ := readU32s_spec hcounts
      split at h
      · nomatch h
      next herr =>
        split at h
        · nomatch h
        next tokens mid htokens =>
          obtain ⟨htlen, -, hdata₃, rfl, hlt⟩ := readTokens_spec htokens
          obtain ⟨hctx, htctx, hlive, hrows, hbytes⟩ := payloadHeaderError_none herr
          obtain ⟨rfl, rfl⟩ := Prod.mk.inj (Except.ok.inj h)
          simp only [Source.skip, List.length_drop] at hdata₂ hdata₃
          refine ⟨⟨_, frontOk_of_rows _ (by omega) hlt hctx (by rw [htlen]; exact hlive) hlen hrows⟩,
            by rw [htlen]; exact hbytes, ?_, ?_⟩
          · rw [Source.skip_skip, Source.skip_skip, frontBytes, htlen]
            congr 1
            omega
          · rw [frontBytes, htlen]
            omega

theorem snapshotHeaderError_none {dev : Device} {h rowCounts : List Nat}
    (herr : snapshotHeaderError dev h rowCounts = none) :
    h.getD 2 0 = dev.ctxSize ∧ h.getD 3 0 ≤ dev.ctxSize ∧
      h.getD 4 0 = (if h.getD 3 0 < h.getD 2 0 then h.getD 3 0 else h.getD 2 0) ∧
      rowCountsError dev "session snapshot" (h.getD 4 0) rowCounts = none := by
  obtain ⟨live, hlive⟩ : ∃ live, live = if h.getD 3 0 < h.getD 2 0 then h.getD 3 0 else h.getD 2 0 :=
    ⟨_, rfl⟩
  rw [snapshotHeaderError, ← hlive] at herr
  rw [← hlive]
  split at herr
  · nomatch herr
  next hctx =>
    split at herr
    · nomatch herr
    next hrowsOf =>
      split at herr
      · nomatch herr
      next hrows =>
        exact ⟨not_not.mp hctx, by omega,
          not_not.mp fun hne => hrowsOf (Or.inr (Or.inr hne)), hrows⟩

/-- What holds of a snapshot whose front is accepted. -/
theorem snapshotFront_spec {dev : Device} {src src' : Source} {front : LoadFront}
    (h : snapshotFront dev src = .ok (front, src')) :
    FrontOk dev front dev.ctxSize ∧
      src' = src.skip (frontBytes snapshotU32Fields front.tokens.length) ∧
      frontBytes snapshotU32Fields front.tokens.length ≤ src.data.length := by
  rw [snapshotFront] at h
  split at h
  · nomatch h
  next hd mid hhd =>
    obtain ⟨-, -, hdata₁, rfl⟩ := readU32s_spec hhd
    split at h
    · nomatch h
    split at h
    · nomatch h
    next rowCounts mid hcounts =>
      obtain ⟨hlen, -, hdata₂, rfl⟩ := readU32s_spec hcounts
      split at h
      · nomatch h
      next herr =>
        split at h
        · nomatch h
        next tokens mid htokens =>
          obtain ⟨htlen, -, hdata₃, rfl, hlt⟩ := readTokens_spec htokens
          obtain ⟨hctx, htctx, hlive, hrows⟩ := snapshotHeaderError_none herr
          obtain ⟨rfl, rfl⟩ := Prod.mk.inj (Except.ok.inj h)
          simp only [Source.skip, List.length_drop] at hdata₂ hdata₃
          refine ⟨frontOk_of_rows _ (by omega) hlt (Nat.le_refl _)
            (by rw [htlen, ← hctx]; exact hlive) hlen hrows, ?_, ?_⟩
          · rw [Source.skip_skip, Source.skip_skip, frontBytes, htlen]
            congr 1
            omega
          · rw [frontBytes, htlen]
            omega

/-! ## Frames -/

/-- The rows of a layer change only in the places of the rows that are read. -/
theorem restoreRows_frame (rd : RowReader) (slot : Nat → Nat) (n rr : Nat) (layer : LayerCache)
    (src : Source) {i : Nat} (h : ∀ j, rr ≤ j → j < rr + n → slot j ≠ i) :
    (restoreRows rd slot n rr layer src).1.k i = layer.k i ∧
      (restoreRows rd slot n rr layer src).1.v i = layer.v i := by
  induction n generalizing rr layer src with
  | zero => exact ⟨rfl, rfl⟩
  | succ n ih =>
    have hne : i ≠ slot rr := (h rr (Nat.le_refl _) (by omega)).symm
    have hk : ∀ row, Ring.set layer.k (slot rr) row i = layer.k i := fun row =>
      Ring.set_of_ne _ _ hne
    rw [restoreRows]
    split
    · exact ⟨rfl, rfl⟩
    split
    · exact ⟨rfl, rfl⟩
    dsimp only
    split
    · exact ⟨hk _, rfl⟩
    split
    · exact ⟨hk _, rfl⟩
    · obtain ⟨hk', hv'⟩ := ih (rr + 1) _ _ fun j hj hj' => h j (by omega) (by omega)
      rw [hk', hv']
      exact ⟨hk _, Ring.set_of_ne _ _ hne⟩

theorem restoreLayers_frame
    (step : Nat → LayerCache → Source → LayerCache × Except String Source) (ils : List Nat)
    (s : Session) (src : Source) :
    (restoreLayers step ils s src).1 =
      { s with layer := (restoreLayers step ils s src).1.layer } := by
  induction ils generalizing s src with
  | nil => rfl
  | cons il ils ih =>
    rw [restoreLayers]
    split
    · rfl
    next layer src' _ => exact ih (s.setLayer il layer) src'

theorem restoreVectors_frame (s : Session) (src : Source) :
    (restoreVectors s src).1 =
      { s with
        logits := (restoreVectors s src).1.logits
        hidden := (restoreVectors s src).1.hidden } := by
  rw [restoreVectors]
  dsimp only
  split <;> rfl

theorem restoreVectors_of_cut {s : Session} {src : Source} {b : Bytes}
    (h : readBytes logitsBytes src = (b, none)) :
    restoreVectors s src = ({ s with logits := s.logits.overwrite b }, none) := by
  rw [restoreVectors, h]

theorem restoreVectors_of_reads {s : Session} {src mid : Source} {b b' : Bytes}
    {rest : Option Source} (h : readBytes logitsBytes src = (b, some mid))
    (h' : readBytes hiddenBytes mid = (b', rest)) :
    restoreVectors s src =
      ({ s with logits := s.logits.overwrite b, hidden := s.hidden.overwrite b' }, rest) := by
  rw [restoreVectors, h]
  dsimp only
  rw [h']

end Sf37.Engine

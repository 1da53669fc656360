/-
Sf37.Engine.RowsBack — the rows that were saved are restored at the same positions.

The backend, the context size and the capacities may differ between the session that was
saved and the one that takes the file, as long as the rows fit.

* `SavedRows`: a front that fits the saved session and the device that loads.
* `restoreSession_saved`: behind such a front the vectors and the rows are restored.
-/
import Sf37.Engine.ReadBack

namespace Sf37.Engine

open Sf37.Text Sf37.Store
open Sf37.Server (Token Tokens)

variable {dev dev' : Device} {s t : Session} {front : LoadFront} {il : Nat}

/-! ## Places -/

/-- The front of a file of a saved session, whose rows fit the device that loads it. -/
structure SavedRows (dev dev' : Device) (s : Session) (front : LoadFront) : Prop where
  length_eq : front.tokens.length = s.checkpoint.length
  rows_eq : ∀ il < mainLayers, front.rows il = sessionLayerLiveKvRows dev s il
  rows_le : ∀ il < mainLayers, sessionLayerLiveKvRows dev s il ≤ s.checkpoint.length
  rows_le_cap : ∀ il < mainLayers, sessionLayerLiveKvRows dev s il ≤ dev'.cacheCap il
  rows_le_n : dev.cuda = false → ∀ il < mainLayers,
    sessionLayerLiveKvRows dev s il ≤ (s.layer il).n

/-- The place of a row that is saved is that of its position. -/
theorem SavedRows.rowAt_saved (h : SavedRows dev dev' s front) (hil : il < mainLayers) (r : Nat) :
    s.rowAt dev il (s.checkpoint.length - sessionLayerLiveKvRows dev s il + r) =
      ((s.layer il).k (savedSlot dev s il r), (s.layer il).v (savedSlot dev s il r)) := by
  have hle := h.rows_le il hil
  have hplace : (s.place dev il (s.checkpoint.length - sessionLayerLiveKvRows dev s il + r)).toNat =
      savedSlot dev s il r := by
    rw [Session.place, savedSlot]
    cases hcuda : dev.cuda with
    | true => simp only [if_true, Int.toNat_natCast]
    | false =>
      have hn := h.rows_le_n hcuda il hil
      simp only [Bool.false_eq_true, if_false]
      omega
  rw [Session.rowAt, hplace]

/-- The place of a row that is restored is that of its position. -/
theorem rowAt_restored (dev : Device) (il : Nat) (front : LoadFront) (t : Session)
    (htokens : t.checkpoint = front.tokens)
    (hcount : dev.cuda = false → (t.layer il).n = front.rows il)
    (hle : front.rows il ≤ front.tokens.length) (r : Nat) :
    t.rowAt dev il (front.tokens.length - front.rows il + r) =
      ((t.layer il).k (restoredSlot dev front il r), (t.layer il).v (restoredSlot dev front il r)) := by
  have hplace : (t.place dev il (front.tokens.length - front.rows il + r)).toNat =
      restoredSlot dev front il r := by
    rw [Session.place, restoredSlot, htokens]
    cases hcuda : dev.cuda with
    | true => simp only [if_true, Int.toNat_natCast]
    | false =>
      have hn := hcount hcuda
      simp only [Bool.false_eq_true, if_false]
      omega
  rw [Session.rowAt, hplace]

/-! ## The rows -/

/-- A layer has the rows that were saved, each as `g` gives it back. -/
def LayerRestored (dev dev' : Device) (s : Session) (front : LoadFront) (g : Row → Row) (il : Nat)
    (layer : LayerCache) : Prop :=
  (dev'.cuda = false → layer.n = sessionLayerLiveKvRows dev s il) ∧
    ∀ r < sessionLayerLiveKvRows dev s il,
      layer.k (restoredSlot dev' front il r) =
          g ((s.layer il).k (savedSlot dev s il r)) ∧
        layer.v (restoredSlot dev' front il r) =
          g ((s.layer il).v (savedSlot dev s il r))

theorem rowPairs_eq (f : Row → Bytes) (dev : Device) (s : Session) (il : Nat) :
    rowPairs f dev s il = pairsFrom f (fun r => (s.layer il).k (savedSlot dev s il r))
      (fun r => (s.layer il).v (savedSlot dev s il r)) 0 (sessionLayerLiveKvRows dev s il) := by
  rw [rowPairs, pairsFrom, List.range_eq_range']

/-- Two rows of a layer have different places. -/
theorem restoredSlot_ne (h : SavedRows dev dev' s front) (hil : il < mainLayers)
    {i j : Nat} (hij : i < j) (hj : j < sessionLayerLiveKvRows dev s il) :
    restoredSlot dev' front il i ≠ restoredSlot dev' front il j := by
  have hfits := h.rows_le_cap il hil
  rw [restoredSlot, restoredSlot]
  split
  · exact Ring.mod_ne_of_lt (by omega) (by omega)
  · omega

/-- Rows that were written by turns are read back by turns. -/
theorem restoreRows_saved (h : SavedRows dev dev' s front) (hil : il < mainLayers)
    (rd : RowReader) (f : Row → Bytes) (g : Row → Row) (hok : ∀ rr b, rd.writeOk rr b = true)
    (hw : ∀ row, (f row).length = rd.width) (hg : ∀ row, rd.decode (f row) = g row)
    (layer : LayerCache) (rest : Bytes) (m : Nat) :
    ∃ layer', restoreRows rd (restoredSlot dev' front il)
        (front.rows il) 0 layer
        ⟨rowPairs f dev s il ++ rest, (rowPairs f dev s il).length + m⟩ = (layer', .ok ⟨rest, m⟩) ∧
      ∀ r < sessionLayerLiveKvRows dev s il,
        layer'.k (restoredSlot dev' front il r) =
            g ((s.layer il).k (savedSlot dev s il r)) ∧
          layer'.v (restoredSlot dev' front il r) =
            g ((s.layer il).v (savedSlot dev s il r)) := by
  obtain ⟨layer', heq, -, hrows⟩ := restoreRows_append
    (fun r => (s.layer il).k (savedSlot dev s il r)) (fun r => (s.layer il).v (savedSlot dev s il r))
    hok hw rest m 0 (sessionLayerLiveKvRows dev s il) layer
    (fun i j _ hij hj => restoredSlot_ne h hil hij (by omega))
  refine ⟨layer', ?_, fun r hr => ?_⟩
  · rw [h.rows_eq il hil, length_rowPairs hw, rowPairs_eq]
    exact heq
  · obtain ⟨hk, hv⟩ := hrows r (Nat.zero_le r) (by omega)
    rw [hk, hv, hg, hg]
    exact ⟨rfl, rfl⟩

theorem restorePayloadLayer_saved (h : SavedRows dev dev' s front)
    (hil : il < mainLayers) (codec : KvCodec) (layer : LayerCache) (rest : Bytes) (m : Nat) :
    ∃ layer', restorePayloadLayer dev' codec .ok front il layer
        ⟨rowPairs (fun row => (codec.encode row).1) dev s il ++ rest,
          (rowPairs (fun row => (codec.encode row).1) dev s il).length + m⟩ =
        (layer', .ok ⟨rest, m⟩) ∧
      LayerRestored dev dev' s front (fun row => codec.decode (codec.encode row)) il layer' := by
  obtain ⟨layer', heq, hrows⟩ := restoreRows_saved h hil
    (payloadRowReader dev' codec .ok il) (fun row => (codec.encode row).1)
    (fun row => codec.decode (codec.encode row))
    (fun rr b => Bool.or_true _) (fun row => (codec.encode row).2)
    (fun row => congrArg codec.decode (Block.fit_val (codec.encode row))) layer rest m
  refine ⟨if dev'.cuda then layer' else { layer' with n := front.rows il },
    ?_, fun hcpu => ?_, fun r hr => ?_⟩
  · rw [restorePayloadLayer, heq]
  · rw [if_neg (by simp [hcpu])]
    exact h.rows_eq il hil
  · have hrow := hrows r hr
    split <;> exact hrow

theorem rowOfBlock_flatMap (f : Nat → Row) {n i : Nat} (h : i < n) :
    rowOfBlock ((List.range n).flatMap fun r => (f r).1) i = f i := by
  obtain ⟨m, rfl⟩ : ∃ m, n = i + (1 + m) := ⟨n - i - 1, by omega⟩
  have hlen : ((List.range i).flatMap fun r => (f r).1).length = i * kvRowBytes := by
    rw [length_flatMap_const _ fun r _ => (f r).2, List.length_range]
  have hdrop : ((List.range (i + (1 + m))).flatMap fun r => (f r).1).drop (i * kvRowBytes) =
      (f i).1 ++ ((List.range m).map (fun r => i + (1 + r))).flatMap fun r => (f r).1 := by
    rw [List.range_add, List.flatMap_append, List.drop_left' hlen, List.range_add, List.map_append,
      List.flatMap_append, List.map_map]
    refine congrArg (· ++ _) ?_
    show (f (i + 0)).1 ++ [] = (f i).1
    rw [List.append_nil, Nat.add_zero]
  rw [rowOfBlock, hdrop]
  exact Block.fit_append (f i) _

theorem restoreSnapshotLayer_saved (h : SavedRows dev dev' s front)
    (hbackend : dev'.cuda = dev.cuda) (hil : il < mainLayers) (layer : LayerCache) (rest : Bytes) (m : Nat) :
    ∃ layer', restoreSnapshotLayer dev' .ok front il layer
        ⟨(if dev.cuda then rowPairs Subtype.val dev s il else rowBlocks dev s il) ++ rest,
          (if dev.cuda then rowPairs Subtype.val dev s il else rowBlocks dev s il).length + m⟩ =
        (layer', .ok ⟨rest, m⟩) ∧
      LayerRestored dev dev' s front id il layer' := by
  by_cases hcuda : dev.cuda = true
  · have hcuda' : dev'.cuda = true := hbackend.trans hcuda
    obtain ⟨layer', heq, hrows⟩ := restoreRows_saved h hil
      (snapshotRowReader .ok il) Subtype.val id
      (fun rr b => rfl) (fun row => row.2) (fun row => Block.fit_val row) layer rest m
    refine ⟨layer', ?_, fun hcpu => ?_, hrows⟩
    · rw [if_pos hcuda, restoreSnapshotLayer, if_pos hcuda']
      exact heq
    · rw [hcuda'] at hcpu
      nomatch hcpu
  · have hcuda' : ¬ dev'.cuda = true := fun h => hcuda (hbackend.symm.trans h)
    have hrows := h.rows_eq il hil
    obtain ⟨rows, hrows'⟩ : ∃ rows, rows = sessionLayerLiveKvRows dev s il := ⟨_, rfl⟩
    obtain ⟨ks, hks⟩ : ∃ ks, ks = (List.range rows).flatMap fun r =>
      ((s.layer il).k (savedSlot dev s il r)).1 := ⟨_, rfl⟩
    obtain ⟨vs, hvs⟩ : ∃ vs, vs = (List.range rows).flatMap fun r =>
      ((s.layer il).v (savedSlot dev s il r)).1 := ⟨_, rfl⟩
    have hklen : ks.length = rows * kvRowBytes := by
      rw [hks, length_flatMap_const _ fun r _ => ((s.layer il).k _).2, List.length_range]
    have hvlen : vs.length = rows * kvRowBytes := by
      rw [hvs, length_flatMap_const _ fun r _ => ((s.layer il).v _).2, List.length_range]
    have hblocks : rowBlocks dev s il = ks ++ vs := by
      rw [rowBlocks, hks, hvs, hrows']
    refine ⟨⟨rows, setBlock layer.k rows ks, setBlock layer.v rows vs⟩, ?_, fun _ => hrows',
      fun r hr => ?_⟩
    · rw [if_neg hcuda, hblocks, restoreSnapshotLayer, if_neg hcuda', hrows, ← hrows',
        List.append_assoc, List.length_append, hklen, hvlen, Nat.add_assoc]
      dsimp only
      rw [readBytes_append _ _ hklen]
      dsimp only
      rw [readBytes_append _ _ hvlen]
    · have hslot : restoredSlot dev' front il r = r := if_neg hcuda'
      rw [hslot]
      rw [← hrows'] at hr
      show setBlock layer.k rows ks r = _ ∧ setBlock layer.v rows vs r = _
      rw [setBlock, if_pos hr, setBlock, if_pos hr, hks, hvs, rowOfBlock_flatMap _ hr,
        rowOfBlock_flatMap _ hr]
      exact ⟨rfl, rfl⟩

/-! ## The whole session -/

/-- The vectors and the saved rows, each as `g` gives it back, are those of the session;
the tokens are those of the file. -/
structure Restored (dev dev' : Device) (g : Row → Row) (s : Session) (tokens : Tokens)
    (t : Session) : Prop where
  valid : t.checkpointValid = true
  checkpoint : t.checkpoint = tokens
  logits : t.logits = s.logits
  hidden : t.hidden = s.hidden
  counters : dev'.cuda = false → ∀ il < mainLayers, (t.layer il).n = sessionLayerLiveKvRows dev s il
  rows : ∀ il < mainLayers, ∀ p < s.checkpoint.length,
    s.checkpoint.length - sessionLayerLiveKvRows dev s il ≤ p →
      t.rowAt dev' il p = (g (s.rowAt dev il p).1, g (s.rowAt dev il p).2)

theorem Restored.of_layers (h : SavedRows dev dev' s front) {g : Row → Row}
    {layer : Nat → LayerCache}
    (hlayers : ∀ il < mainLayers, LayerRestored dev dev' s front g il (layer il))
    (signature : Option Sf37.Server.ImageSignature) :
    Restored dev dev' g s front.tokens
      ⟨front.tokens, true, signature, s.logits, s.hidden, layer⟩ where
  valid := rfl
  checkpoint := rfl
  logits := rfl
  hidden := rfl
  counters hcpu il hil := (hlayers il hil).1 hcpu
  rows il hil p hp hsaved := by
    have hle := h.rows_le il hil
    obtain ⟨r, hr, rfl⟩ : ∃ r < sessionLayerLiveKvRows dev s il,
        p = s.checkpoint.length - sessionLayerLiveKvRows dev s il + r :=
      ⟨p - (s.checkpoint.length - sessionLayerLiveKvRows dev s il), by omega, by omega⟩
    have hfront := h.rows_eq il hil
    have ht := rowAt_restored dev' il front
      ⟨front.tokens, true, signature, s.logits, s.hidden, layer⟩ rfl
      (fun hcpu => ((hlayers il hil).1 hcpu).trans hfront.symm)
      (by rw [hfront, h.length_eq]; exact hle) r
    rw [hfront, h.length_eq] at ht
    obtain ⟨hk, hv⟩ := (hlayers il hil).2 r hr
    refine Eq.trans ht ?_
    rw [h.rowAt_saved hil r]
    exact Prod.ext hk hv

/-- A loader that finds the front, the vectors and the layers of a saved session restores
it. -/
theorem restoreSession_saved {step : Nat → LayerCache → Source → LayerCache × Except String Source}
    {f : Nat → Bytes} {g : Row → Row} (h : SavedRows dev dev' s front)
    (hstep : ∀ il < mainLayers, ∀ layer rest m, ∃ layer',
      step il layer ⟨f il ++ rest, (f il).length + m⟩ = (layer', .ok ⟨rest, m⟩) ∧
        LayerRestored dev dev' s front g il layer')
    (what vectorsTruncated : String) (t : Session) (rest : Bytes) :
    ∃ t', restoreSession dev' .ok step what vectorsTruncated t front
        ⟨s.logits.1 ++ (s.hidden.1 ++ ((List.range mainLayers).flatMap f ++ rest)),
          logitsBytes + (hiddenBytes + ((List.range mainLayers).flatMap f).length)⟩ = (t', none) ∧
      Restored dev dev' g s front.tokens t' := by
  obtain ⟨t', heq, hgood, -⟩ := restoreLayers_append step (List.range mainLayers)
    List.nodup_range (fun il hmem => hstep il (List.mem_range.mp hmem))
    { t with logits := s.logits, hidden := s.hidden, checkpointValid := false } rest 0
  have hframe := restoreLayers_frame step (List.range mainLayers)
    { t with logits := s.logits, hidden := s.hidden, checkpointValid := false }
    ⟨(List.range mainLayers).flatMap f ++ rest, ((List.range mainLayers).flatMap f).length + 0⟩
  rw [heq] at hframe
  dsimp only at hframe
  refine ⟨{ t' with checkpoint := front.tokens, checkpointValid := true }, ?_, ?_⟩
  · rw [restoreSession, restoreVectors_append]
    dsimp only
    rw [Nat.add_zero] at heq
    rw [heq]
    dsimp only
    rw [if_neg (by simp [GpuWrites.ok]), if_neg (by simp)]
  · rw [hframe]
    exact .of_layers h (fun il hil => hgood il (List.mem_range.mpr hil)) t.imageSignature

end Sf37.Engine

/-
Sf37.Engine.ReadBack — the loaders read back what the writers wrote, piece by piece.

A file is cut into chunks: numbers of four bytes, tokens, the two vectors, and the rows
of each layer. Each lemma says that a chunk is read and the rest is left.

* `readU32s_append`, `readTokens_append`, `restoreRows_append`: one kind of chunk each.
* `restoreLayers_append`: the layers, one after the other.
-/
import Sf37.Engine.LoadSpec

namespace Sf37.Engine

open Sf37.Text Sf37.Store
open Sf37.Server (Token Tokens)

/-! ## Numbers -/

/-- What the count is made of that a reader still has. -/
theorem readBytes_append {n : Nat} {b : Bytes} (rest : Bytes) (m : Nat) (h : b.length = n) :
    readBytes n ⟨b ++ rest, n + m⟩ = (b, some ⟨rest, m⟩) := by
  rw [readBytes_eq (Nat.le_add_right n m) (by rw [List.length_append]; omega), Source.skip]
  rw [List.take_left' h, List.drop_left' h, Nat.add_sub_cancel_left]

theorem readU32_append {v : Nat} (rest : Bytes) (m : Nat) (h : v < 2 ^ 32) :
    readU32 ⟨littleEndian 4 v ++ rest, 4 + m⟩ = some (v, ⟨rest, m⟩) := by
  rw [readU32, readBytes_append rest m (length_littleEndian 4 v)]
  dsimp only [Option.map_some]
  rw [ofLittleEndian_littleEndian h]

theorem u32s_cons (v : Nat) (vs : List Nat) : u32s (v :: vs) = littleEndian 4 v ++ u32s vs :=
  List.flatMap_cons

theorem readU32s_append (vs : List Nat) (rest : Bytes) (m : Nat) (h : ∀ v ∈ vs, v < 2 ^ 32) :
    readU32s vs.length ⟨u32s vs ++ rest, vs.length * 4 + m⟩ = some (vs, ⟨rest, m⟩) := by
  induction vs with
  | nil => rw [List.length_nil, readU32s, Nat.zero_mul, Nat.zero_add]; rfl
  | cons v vs ih =>
    have hcount : (v :: vs).length * 4 + m = 4 + (vs.length * 4 + m) := by
      rw [List.length_cons]
      omega
    rw [hcount, u32s_cons, List.append_assoc, List.length_cons, readU32s,
      readU32_append _ _ (h v List.mem_cons_self), Option.bind_some,
      ih fun w hw => h w (List.mem_cons_of_mem v hw), Option.map_some]

theorem vocabSize_lt : vocabSize < 2 ^ 32 := by decide

theorem readTokens_append (tokens : Tokens) (rest : Bytes) (m : Nat)
    (h : ∀ t ∈ tokens, t < vocabSize) :
    readTokens tokens.length ⟨u32s tokens ++ rest, tokens.length * 4 + m⟩ =
      some (tokens, ⟨rest, m⟩) := by
  induction tokens with
  | nil => rw [List.length_nil, readTokens, Nat.zero_mul, Nat.zero_add]; rfl
  | cons t tokens ih =>
    have ht := h t List.mem_cons_self
    have hcount : (t :: tokens).length * 4 + m = 4 + (tokens.length * 4 + m) := by
      rw [List.length_cons]
      omega
    rw [hcount, u32s_cons, List.append_assoc, List.length_cons, readTokens,
      readU32_append _ _ (Nat.lt_trans ht vocabSize_lt), Option.bind_some]
    dsimp only
    rw [if_neg (Nat.not_le.mpr ht), ih fun w hw => h w (List.mem_cons_of_mem t hw), Option.map_some]

/-! ## Vectors -/

theorem restoreVectors_append (s : Session) (logits : Block logitsBytes) (hidden : Block hiddenBytes)
    (rest : Bytes) (m : Nat) :
    restoreVectors s ⟨logits.1 ++ (hidden.1 ++ rest), logitsBytes + (hiddenBytes + m)⟩ =
      ({ s with logits := logits, hidden := hidden }, some ⟨rest, m⟩) := by
  rw [restoreVectors_of_reads (readBytes_append _ _ logits.2) (readBytes_append _ _ hidden.2),
    Block.overwrite_of_length _ logits.2, Block.overwrite_of_length _ hidden.2]

/-! ## Rows -/

/-- Rows of keys and values by turns, from the `rr`th on. -/
def pairsFrom (f : Row → Bytes) (k v : Nat → Row) (rr n : Nat) : Bytes :=
  (List.range' rr n).flatMap fun r => f (k r) ++ f (v r)

theorem restoreRows_append {rd : RowReader} {slot : Nat → Nat} {f : Row → Bytes}
    (k v : Nat → Row) (hok : ∀ rr b, rd.writeOk rr b = true) (hw : ∀ row, (f row).length = rd.width)
    (rest : Bytes) (m rr n : Nat) (layer : LayerCache)
    (hinj : ∀ i j, rr ≤ i → i < j → j < rr + n → slot i ≠ slot j) :
    ∃ layer', restoreRows rd slot n rr layer
        ⟨pairsFrom f k v rr n ++ rest, n * (2 * rd.width) + m⟩ = (layer', .ok ⟨rest, m⟩) ∧
      layer'.n = layer.n ∧
      ∀ j, rr ≤ j → j < rr + n →
        layer'.k (slot j) = rd.decode (f (k j)) ∧ layer'.v (slot j) = rd.decode (f (v j)) := by
  induction n generalizing rr layer with
  | zero =>
    refine ⟨layer, ?_, rfl, fun j hj hj' => absurd hj' (by omega)⟩
    rw [restoreRows, Nat.zero_mul, Nat.zero_add]
    rfl
  | succ n ih =>
    have hsplit : pairsFrom f k v rr (n + 1) ++ rest =
        f (k rr) ++ (f (v rr) ++ (pairsFrom f k v (rr + 1) n ++ rest)) := by
      rw [pairsFrom, List.range'_succ, List.flatMap_cons, List.append_assoc, List.append_assoc]
      rfl
    have hcount : (n + 1) * (2 * rd.width) + m =
        rd.width + (rd.width + (n * (2 * rd.width) + m)) := by
      rw [Nat.succ_mul, Nat.two_mul]
      omega
    have hframe := restoreRows_frame rd slot n (rr + 1)
      { layer with
        k := Ring.set layer.k (slot rr) (rd.decode (f (k rr)))
        v := Ring.set layer.v (slot rr) (rd.decode (f (v rr))) }
      ⟨pairsFrom f k v (rr + 1) n ++ rest, n * (2 * rd.width) + m⟩ (i := slot rr)
      fun j hj hj' => (hinj rr j (Nat.le_refl _) (by omega) (by omega)).symm
    obtain ⟨layer', heq, hn, hrows⟩ := ih (rr + 1)
      { layer with
        k := Ring.set layer.k (slot rr) (rd.decode (f (k rr)))
        v := Ring.set layer.v (slot rr) (rd.decode (f (v rr))) }
      fun i j hi hij hj => hinj i j (by omega) hij (by omega)
    rw [heq] at hframe
    refine ⟨layer', ?_, hn, fun j hj hj' => ?_⟩
    · rw [hsplit, hcount, restoreRows, readBytes_append _ _ (hw (k rr))]
      dsimp only
      rw [if_neg (by rw [hok]; exact not_not.mpr rfl), readBytes_append _ _ (hw (v rr))]
      dsimp only
      rw [if_neg (by rw [hok]; exact not_not.mpr rfl)]
      exact heq
    · by_cases hjr : j = rr
      · subst hjr
        exact ⟨hframe.1.trans (Ring.set_self _ _ _), hframe.2.trans (Ring.set_self _ _ _)⟩
      · exact hrows j (by omega) (by omega)

/-! ## Layers -/

theorem Session.setLayer_self (s : Session) (il : Nat) (layer : LayerCache) :
    (s.setLayer il layer).layer il = layer := if_pos rfl

theorem Session.setLayer_of_ne (s : Session) {il j : Nat} (layer : LayerCache) (h : j ≠ il) :
    (s.setLayer il layer).layer j = s.layer j := if_neg h

/-- The layers, each of which reads back its own bytes. -/
theorem restoreLayers_append
    (step : Nat → LayerCache → Source → LayerCache × Except String Source) {f : Nat → Bytes}
    {Good : Nat → LayerCache → Prop} (ils : List Nat) (hnodup : ils.Nodup)
    (hstep : ∀ il ∈ ils, ∀ layer rest m, ∃ layer',
      step il layer ⟨f il ++ rest, (f il).length + m⟩ = (layer', .ok ⟨rest, m⟩) ∧ Good il layer')
    (s : Session) (rest : Bytes) (m : Nat) :
    ∃ s', restoreLayers step ils s ⟨ils.flatMap f ++ rest, (ils.flatMap f).length + m⟩ =
        (s', .ok ⟨rest, m⟩) ∧
      (∀ il ∈ ils, Good il (s'.layer il)) ∧ ∀ j, j ∉ ils → s'.layer j = s.layer j := by
  induction ils generalizing s with
  | nil =>
    refine ⟨s, ?_, nofun, fun j _ => rfl⟩
    rw [restoreLayers, List.flatMap_nil, List.length_nil, Nat.zero_add]
    rfl
  | cons il ils ih =>
    obtain ⟨hnot, hnodup⟩ := List.nodup_cons.mp hnodup
    obtain ⟨layer', heq, hgood⟩ := hstep il List.mem_cons_self (s.layer il)
      (ils.flatMap f ++ rest) ((ils.flatMap f).length + m)
    obtain ⟨s', hs', hgoods, hframe⟩ := ih hnodup
      (fun j hj => hstep j (List.mem_cons_of_mem il hj)) (s.setLayer il layer')
    refine ⟨s', ?_, fun j hj => ?_, fun j hj => ?_⟩
    · rw [List.flatMap_cons, List.append_assoc, List.length_append, Nat.add_assoc, restoreLayers, heq]
      exact hs'
    · rcases List.mem_cons.mp hj with rfl | hj
      · rw [hframe j hnot, s.setLayer_self]
        exact hgood
      · exact hgoods j hj
    · rw [hframe j fun h => hj (List.mem_cons_of_mem il h),
        s.setLayer_of_ne layer' (by rintro rfl; exact hj List.mem_cons_self)]

end Sf37.Engine

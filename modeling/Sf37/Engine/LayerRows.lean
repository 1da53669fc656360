/-
Sf37.Engine.LayerRows — the rows a layer has, by position, and those the next step reads.

A layer keeps the rows from some position on: what stands before was overwritten, or was
never restored. `want` says which row is the right one for each position.

* `LayerKeeps.storeRows`: storing more rows keeps those that the places allow.
* `LayerKeeps.attended`: a query reads the right rows, from the window's start to its own.
-/
import Sf37.Engine.Eval

namespace Sf37.Engine

open Sf37.Text Sf37.Store

variable {dev : Device} {il len kept kept' pos : Nat} {layer : LayerCache} {want : Nat → Row × Row}

/-! ## Places -/

/-- The place of a position's row in a layer that has the rows of `len` tokens. -/
def Device.rowSlot (dev : Device) (il : Nat) (layer : LayerCache) (len p : Nat) : Nat :=
  if dev.cuda then p % dev.cacheCap il else layer.n + p - len

/-- The rows of keys and of values in that place. -/
def Device.rowsAt (dev : Device) (il : Nat) (layer : LayerCache) (len p : Nat) : Row × Row :=
  (layer.k (dev.rowSlot il layer len p), layer.v (dev.rowSlot il layer len p))

/-- It is the place that a session has for the position. -/
theorem Session.rowAt_eq (dev : Device) (s : Session) (il p : Nat) :
    s.rowAt dev il p = dev.rowsAt il (s.layer il) s.checkpoint.length p := by
  have hplace : (s.place dev il p).toNat = dev.rowSlot il (s.layer il) s.checkpoint.length p := by
    rw [Session.place, Device.rowSlot]
    split
    · exact Int.toNat_natCast _
    · omega
  rw [Session.rowAt, Device.rowsAt, hplace]

/-- The first position that the query of a position attends to. -/
def attendedFrom (il pos : Nat) : Nat := if layerIsFull il then 0 else pos + 1 - slidingWindow

theorem attendedFrom_mono {pos' : Nat} (h : pos ≤ pos') : attendedFrom il pos ≤ attendedFrom il pos' := by
  rw [attendedFrom, attendedFrom]
  split <;> omega

/-- A layer has room for the rows from there on. -/
theorem sub_cacheCap_le (dev : Device) (il : Nat) (h : pos < dev.ctxSize) :
    pos + 1 - dev.cacheCap il ≤ attendedFrom il pos := by
  have hwindow := dev.window_le_cacheCap il
  rw [attendedFrom]
  split
  next hfull =>
    rw [dev.cacheCap_of_full hfull]
    omega
  · omega

/-- Where the context is larger than the window, a chunk leaves room for the window. -/
theorem prefillCap_le {ctxSize cacheCap : Nat} (hcap : 0 < cacheCap)
    (h : rawWindow ctxSize < ctxSize) :
    cudaSlidingCachePrefillCap ctxSize cacheCap ≤ max 1 (cacheCap - rawWindow ctxSize) := by
  rw [cudaSlidingCachePrefillCap, if_neg (Nat.ne_of_gt hcap), if_neg (by omega)]
  split
  · exact Nat.le_max_left _ _
  · exact Nat.le_max_right _ _

/-- A chunk leaves the rows that its own queries need. -/
theorem sub_cacheCap_le_of_chunk (il : Nat) (hcuda : dev.cuda = true) {n : Nat} (hn : n ≤ dev.prefillCap)
    (h : len + n ≤ dev.ctxSize) : len + n - dev.cacheCap il ≤ attendedFrom il len := by
  have hwindow := dev.window_le_cacheCap il
  have hraw := rawWindow_eq dev.ctxSize_pos
  rw [attendedFrom]
  split
  next hfull =>
    rw [dev.cacheCap_of_full hfull]
    omega
  next hfull =>
    have hcap : dev.cacheCap il = cudaSlidingCacheCap dev.ctxSize dev.requestedPrefillCap := by
      rw [Device.cacheCap, if_pos ⟨hcuda, hfull⟩]
    by_cases hsmall : dev.ctxSize ≤ slidingWindow
    · omega
    have hprefill : dev.prefillCap ≤ max 1 (dev.cacheCap il - rawWindow dev.ctxSize) := by
      rw [Device.prefillCap, ← hcap]
      split
      · exact Nat.le_max_left _ _
      · exact prefillCap_le (dev.cacheCap_pos il) (by omega)
    omega

/-! ## Rows that a layer keeps -/

/-- A layer that is to have the rows of `len` tokens has those from `kept` on. On the CPU
it may count fewer rows than tokens. -/
structure LayerKeeps (dev : Device) (il : Nat) (layer : LayerCache) (len kept : Nat)
    (want : Nat → Row × Row) : Prop where
  count : dev.cuda = false → layer.n ≤ len ∧ len ≤ kept + layer.n
  rows : ∀ p, kept ≤ p → p < len → dev.rowsAt il layer len p = want p

/-- The first position a layer still has once the rows of `len` tokens were stored. -/
def Device.keptAfter (dev : Device) (il kept len : Nat) : Nat :=
  if dev.cuda then max kept (len - dev.cacheCap il) else kept

theorem Device.le_keptAfter (dev : Device) (il kept len : Nat) : kept ≤ dev.keptAfter il kept len := by
  rw [Device.keptAfter]
  split <;> omega

theorem Device.keptAfter_keptAfter (dev : Device) (il kept : Nat) {len len' : Nat} (h : len ≤ len') :
    dev.keptAfter il (dev.keptAfter il kept len) len' = dev.keptAfter il kept len' := by
  rw [Device.keptAfter, Device.keptAfter, Device.keptAfter]
  split <;> omega

/-- A query finds the rows it needs, also after its own was stored. -/
theorem Device.keptAfter_le (dev : Device) (hpos : pos < dev.ctxSize)
    (h : kept ≤ attendedFrom il pos) : dev.keptAfter il kept (pos + 1) ≤ attendedFrom il pos := by
  have := sub_cacheCap_le dev il hpos
  rw [Device.keptAfter]
  split <;> omega

/-- Nor does what was stored before take the place of a row that is needed. -/
theorem keptAfter_le_attendedFrom (dev : Device) (hlen : len ≤ dev.ctxSize)
    (h : kept ≤ attendedFrom il len) : dev.keptAfter il kept len ≤ attendedFrom il len := by
  cases len with
  | zero =>
    rw [Device.keptAfter]
    split <;> omega
  | succ n =>
    have hcap : n + 1 - dev.cacheCap il ≤ attendedFrom il n := sub_cacheCap_le dev il (by omega)
    have hmono : attendedFrom il n ≤ attendedFrom il (n + 1) := attendedFrom_mono (Nat.le_succ n)
    rw [Device.keptAfter]
    split <;> omega

theorem LayerKeeps.mono (h : LayerKeeps dev il layer len kept want) (hle : kept ≤ kept') :
    LayerKeeps dev il layer len kept' want :=
  ⟨fun hcpu => ⟨(h.count hcpu).1, by have := (h.count hcpu).2; omega⟩,
    fun p hp hlt => h.rows p (Nat.le_trans hle hp) hlt⟩

theorem LayerKeeps.congr {want' : Nat → Row × Row} (h : LayerKeeps dev il layer len kept want)
    (heq : ∀ p, kept ≤ p → p < len → want p = want' p) : LayerKeeps dev il layer len kept want' :=
  ⟨h.count, fun p hp hlt => (h.rows p hp hlt).trans (heq p hp hlt)⟩

/-- Without tokens there is nothing to keep. -/
theorem LayerKeeps.empty (dev : Device) (il kept : Nat) (want : Nat → Row × Row)
    (h : dev.cuda = false → layer.n = 0) : LayerKeeps dev il layer 0 kept want :=
  ⟨fun hcpu => by rw [h hcpu]; exact ⟨Nat.le_refl 0, Nat.zero_le _⟩, fun p _ hlt => nomatch hlt⟩

/-! ## Storing -/

/-- The rows that are wanted once those of the positions from `start` on are stored. -/
def wantAfter (want : Nat → Row × Row) (start : Nat) (vals : Nat → StepValues) (il p : Nat) :
    Row × Row :=
  if p < start then want p else ((vals p).k il, (vals p).v il)

theorem wantAfter_wantAfter (want : Nat → Row × Row) (start n : Nat) (vals : Nat → StepValues)
    (il : Nat) :
    wantAfter (wantAfter want start vals il) (start + n) vals il = wantAfter want start vals il := by
  funext p
  rw [wantAfter, wantAfter]
  split
  · rfl
  · rw [if_neg (by omega)]

theorem storeRow_cpu (hcpu : dev.cuda = false) (pos : Nat) (k v : Row) (h : layer.n < dev.ctxSize) :
    dev.storeRow il pos layer k v =
      ⟨layer.n + 1, Ring.set layer.k layer.n k, Ring.set layer.v layer.n v⟩ := by
  rw [Device.storeRow, if_neg (by simp [hcpu]), kvCachePush,
    if_neg (by rw [dev.cacheCap_of_cpu hcpu]; omega)]

theorem storeRow_cuda (hcuda : dev.cuda = true) (pos : Nat) (k v : Row) :
    dev.storeRow il pos layer k v =
      { layer with
        k := Ring.set layer.k (pos % dev.cacheCap il) k
        v := Ring.set layer.v (pos % dev.cacheCap il) v } :=
  if_pos hcuda

/-- Storing the row of the next position. -/
theorem LayerKeeps.storeRow (h : LayerKeeps dev il layer len kept want) (hctx : len < dev.ctxSize)
    (vals : Nat → StepValues) :
    LayerKeeps dev il (dev.storeRow il len layer ((vals len).k il) ((vals len).v il)) (len + 1)
      (dev.keptAfter il kept (len + 1)) (wantAfter want len vals il) := by
  cases hcuda : dev.cuda with
  | true =>
    have hkept : dev.keptAfter il kept (len + 1) = max kept (len + 1 - dev.cacheCap il) := if_pos hcuda
    rw [storeRow_cuda hcuda]
    refine ⟨fun hcpu => ?_, fun p hp hlt => ?_⟩
    · rw [hcuda] at hcpu
      nomatch hcpu
    have hslot : ∀ layer len, dev.rowSlot il layer len p = p % dev.cacheCap il :=
      fun layer len => if_pos hcuda
    rw [Device.rowsAt, hslot, wantAfter]
    dsimp only
    by_cases heq : p = len
    · rw [heq, Ring.set_self, Ring.set_self, if_neg (Nat.lt_irrefl _)]
    · have hne : p % dev.cacheCap il ≠ len % dev.cacheCap il := Ring.mod_ne_of_lt (by omega) (by omega)
      have hold := h.rows p (by omega) (by omega)
      rw [Device.rowsAt, hslot] at hold
      rw [Ring.set_of_ne _ _ hne, Ring.set_of_ne _ _ hne, if_pos (by omega)]
      exact hold
  | false =>
    have hkept : dev.keptAfter il kept (len + 1) = kept := if_neg (by simp [hcuda])
    obtain ⟨hn, hlen⟩ := h.count hcuda
    rw [storeRow_cpu hcuda len _ _ (by omega), hkept]
    refine ⟨fun _ => ⟨by dsimp only; omega, by dsimp only; omega⟩, fun p hp hlt => ?_⟩
    have hslot : ∀ layer len, dev.rowSlot il layer len p = layer.n + p - len :=
      fun layer len => if_neg (by simp [hcuda])
    rw [Device.rowsAt, hslot, wantAfter]
    dsimp only
    have hsame : layer.n + 1 + p - (len + 1) = layer.n + p - len := by omega
    rw [hsame]
    by_cases heq : p = len
    · rw [heq, Nat.add_sub_cancel, Ring.set_self, Ring.set_self, if_neg (Nat.lt_irrefl _)]
    · have hne : layer.n + p - len ≠ layer.n := by omega
      have hold := h.rows p hp (by omega)
      rw [Device.rowsAt, hslot] at hold
      rw [Ring.set_of_ne _ _ hne, Ring.set_of_ne _ _ hne, if_pos (by omega)]
      exact hold

/-- Storing the rows of the next positions. -/
theorem LayerKeeps.storeRows (h : LayerKeeps dev il layer len kept want) {n : Nat}
    (hctx : len + n ≤ dev.ctxSize) (vals : Nat → StepValues) :
    LayerKeeps dev il (storeRows dev vals il len n layer) (len + n)
      (if n = 0 then kept else dev.keptAfter il kept (len + n)) (wantAfter want len vals il) := by
  induction n generalizing len kept layer want with
  | zero =>
    rw [if_pos rfl]
    exact h.congr fun p _ hlt => (if_pos hlt).symm
  | succ n ih =>
    have hrest := ih (h.storeRow (by omega) vals) (by omega)
    rw [wantAfter_wantAfter, Nat.add_assoc, Nat.add_comm 1 n] at hrest
    rw [Engine.storeRows, if_neg (Nat.succ_ne_zero n)]
    refine hrest.mono ?_
    split
    next hn =>
      rw [hn]
    · rw [dev.keptAfter_keptAfter il kept (by omega)]

/-! ## Reading -/

/-- A query reads the rows of its window, and on a layer of full attention those of all
positions, up to its own. -/
def ReadsWindow (dev : Device) (il : Nat) (layer : LayerCache) (pos : Nat)
    (want : Nat → Row × Row) : Prop :=
  dev.attended il layer pos =
    (List.range' (attendedFrom il pos) (pos + 1 - attendedFrom il pos)).map want

theorem map_range'_congr {α : Type} {f g : Nat → α} {a b n : Nat} (h : ∀ i < n, f (a + i) = g (b + i)) :
    (List.range' a n).map f = (List.range' b n).map g := by
  refine List.ext_getElem (by simp) fun i h₁ h₂ => ?_
  rw [List.getElem_map, List.getElem_map, List.getElem_range', List.getElem_range', Nat.one_mul]
  exact h i (by simpa using h₁)

/-- A query reads the right rows, from the start of its window, or of all, to its own. On
the CPU it is that of the last token. -/
theorem LayerKeeps.attended (h : LayerKeeps dev il layer len kept want)
    (hkept : kept ≤ attendedFrom il pos) (hpos : pos < len) (hctx : len ≤ dev.ctxSize)
    (hlast : dev.cuda = false → len = pos + 1) : ReadsWindow dev il layer pos want := by
  rw [ReadsWindow]
  have hwindow := dev.window_le_cacheCap il
  have hw : slidingWindow = 512 := rfl
  have hfrom : attendedFrom il pos = if layerIsFull il then 0 else pos + 1 - slidingWindow := rfl
  cases hcuda : dev.cuda with
  | true =>
    have hcap : layerIsFull il = true → dev.cacheCap il = dev.ctxSize := dev.cacheCap_of_full
    have hslots : dev.attendedSlots il layer pos =
        (List.range' (attendedFrom il pos) (pos + 1 - attendedFrom il pos)).map
          (· % dev.cacheCap il) := by
      have hstart : (if ¬ layerIsFull il = true ∧ slidingWindow < pos + 1 ∧
            (if dev.cacheCap il < pos + 1 then pos + 1 - dev.cacheCap il else 0) <
              pos + 1 - slidingWindow then pos + 1 - slidingWindow
          else if dev.cacheCap il < pos + 1 then pos + 1 - dev.cacheCap il else 0) =
          attendedFrom il pos := by
        rw [hfrom]
        cases hfull : layerIsFull il with
        | true =>
          have := hcap hfull
          rw [if_neg (by simp), if_pos rfl, if_neg (by omega)]
        | false =>
          simp only [Bool.false_eq_true, not_false_eq_true, true_and, if_false]
          obtain ⟨first, hfirst⟩ : ∃ first, first =
            if dev.cacheCap il < pos + 1 then pos + 1 - dev.cacheCap il else 0 := ⟨_, rfl⟩
          have hle : first ≤ pos + 1 - slidingWindow := by
            rw [hfirst]
            split <;> omega
          rw [← hfirst]
          split <;> omega
      rw [Device.attendedSlots]
      dsimp only
      rw [if_pos hcuda, hstart]
    rw [Device.attended, hslots, List.map_map]
    refine map_range'_congr fun i hi => ?_
    have hrow := h.rows (attendedFrom il pos + i) (by omega) (by omega)
    rw [Device.rowsAt, Device.rowSlot, if_pos hcuda] at hrow
    exact hrow
  | false =>
    obtain ⟨hn, hlen⟩ := h.count hcuda
    obtain rfl := hlast hcuda
    have hslots : dev.attendedSlots il layer pos =
        List.range' (layer.n + attendedFrom il pos - (pos + 1)) (pos + 1 - attendedFrom il pos) := by
      have hstart : (if ¬ layerIsFull il = true ∧ slidingWindow < layer.n then
          layer.n - slidingWindow else 0) = layer.n + attendedFrom il pos - (pos + 1) := by
        rw [hfrom] at hkept ⊢
        cases hfull : layerIsFull il with
        | true =>
          rw [hfull] at hkept
          simp only [if_true] at hkept
          rw [if_neg (by simp), if_pos rfl]
          omega
        | false =>
          rw [hfull] at hkept
          simp only [Bool.false_eq_true, not_false_eq_true, true_and, if_false] at hkept ⊢
          split <;> omega
      have hcount : layer.n - (layer.n + attendedFrom il pos - (pos + 1)) =
          pos + 1 - attendedFrom il pos := by omega
      rw [Device.attendedSlots]
      dsimp only
      rw [if_neg (by simp [hcuda]), hstart, hcount]
    rw [Device.attended, hslots]
    refine map_range'_congr fun i hi => ?_
    have hrow := h.rows (attendedFrom il pos + i) (by omega) (by omega)
    rw [Device.rowsAt, Device.rowSlot, if_neg (by simp [hcuda])] at hrow
    have hplace : layer.n + (attendedFrom il pos + i) - (pos + 1) =
        layer.n + attendedFrom il pos - (pos + 1) + i := by omega
    rw [hplace] at hrow
    exact hrow

/-- The queries of a chunk read the right rows although all rows of the chunk were stored
before. -/
theorem LayerKeeps.chunkReads (h : LayerKeeps dev il layer len kept want)
    (hkept : kept ≤ attendedFrom il len) (hcuda : dev.cuda = true) {n : Nat}
    (hn : n ≤ dev.prefillCap) (hctx : len + n ≤ dev.ctxSize) (vals : Nat → StepValues)
    (hpos : len ≤ pos) (hlt : pos < len + n) :
    ReadsWindow dev il (Engine.storeRows dev vals il len n layer) pos
      (wantAfter want len vals il) := by
  have hold := Nat.le_trans hkept (attendedFrom_mono hpos)
  have hroom := Nat.le_trans (sub_cacheCap_le_of_chunk il hcuda hn hctx) (attendedFrom_mono hpos)
  have hafter : dev.keptAfter il kept (len + n) = max kept (len + n - dev.cacheCap il) :=
    if_pos hcuda
  refine (h.storeRows hctx vals).attended ?_ hlt hctx fun hcpu => ?_
  · split <;> omega
  · rw [hcuda] at hcpu
    nomatch hcpu

/-! ## Fewer tokens -/

/-- With fewer tokens the rows of the first are where they were; on the CPU the counter
must have been that of the tokens. -/
theorem LayerKeeps.rewind (h : LayerKeeps dev il layer len kept want) (hpos : pos ≤ len)
    (hcount : dev.cuda = false → layer.n = len) :
    LayerKeeps dev il (if dev.cuda then layer else { layer with n := pos }) pos kept want := by
  refine ⟨fun hcpu => ?_, fun p hp hlt => ?_⟩
  · rw [if_neg (by simp [hcpu])]
    exact ⟨Nat.le_refl _, Nat.le_add_left _ _⟩
  · rw [← h.rows p hp (by omega), Device.rowsAt, Device.rowsAt, Device.rowSlot, Device.rowSlot]
    cases hcuda : dev.cuda with
    | true => rfl
    | false =>
      have := hcount hcuda
      simp only [Bool.false_eq_true, if_false]
      rw [this, Nat.add_sub_cancel_left, Nat.add_sub_cancel_left]

end Sf37.Engine

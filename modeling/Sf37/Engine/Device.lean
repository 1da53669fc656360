/-
Sf37.Engine.Device — the sizes of the model and the key/value caches of its layers.

A layer keeps a row of keys and a row of values for each position. On the CPU they
stand one behind the other and a counter says how many there are; on the GPU position
`p` has the place `p % cache_cap`.

* `Device.window_le_cacheCap`: every layer has room for the window, or for the context.
-/
import Sf37.Store.Block
import Sf37.Store.Ring
import Mathlib.Order.Basic

namespace Sf37.Engine

open Sf37.Text Sf37.Store

/-! ## Sizes -/

/-- `SF37_MAIN_LAYERS`. -/
def mainLayers : Nat := 45

/-- `SF37_VOCAB`. -/
def vocabSize : Nat := 128896

/-- `SF37_EMBD`. -/
def embd : Nat := 4096

/-- `SF37_CTX`. -/
def maxCtx : Nat := 262144

/-- `SF37_KV_HEADS`. -/
def kvHeads : Nat := 8

/-- `SF37_HEAD_DIM`. -/
def headDim : Nat := 128

/-- `SF37_SLIDING_WINDOW`. -/
def slidingWindow : Nat := 512

/-- `SF37_CUDA_SLIDING_CACHE_MAX`. -/
def cudaSlidingCacheMax : Nat := 8192

/-- The bytes of a row of floats. -/
def kvRowBytes : Nat := kvHeads * headDim * 4

def logitsBytes : Nat := vocabSize * 4

def hiddenBytes : Nat := embd * 4

/-- A row of keys or of values. -/
abbrev Row := Block kvRowBytes

/-- `layer_is_full`. -/
def layerIsFull (il : Nat) : Bool := il % 4 == 0

/-! ## Capacities -/

/-- What a session is created with: its context size, whether it uses the GPU, and the
chunk that `cuda_prefill_default_chunk` chose for it. -/
structure Device where
  ctxSize : Nat
  ctxSize_pos : 0 < ctxSize
  ctxSize_le : ctxSize ≤ maxCtx
  cuda : Bool
  requestedPrefillCap : Nat

/-- `sf37_align_up_u32`. -/
def alignUpU32 (v align : Nat) : Nat :=
  if align = 0 then v
  else
    let rem := v % align
    if rem = 0 then v
    else if 2 ^ 32 - 1 - (align - rem) < v then 2 ^ 32 - 1
    else v + (align - rem)

/-- The window, where the context is not smaller. -/
def rawWindow (ctxSize : Nat) : Nat :=
  let rawWindow := if ctxSize < slidingWindow then ctxSize else slidingWindow
  if rawWindow = 0 then 1 else rawWindow

/-- `cuda_sliding_cache_cap`. -/
def cudaSlidingCacheCap (ctxSize prefillCap : Nat) : Nat :=
  if ctxSize = 0 then 1
  else
    let wanted := rawWindow ctxSize + prefillCap
    let wanted := if ctxSize < wanted then ctxSize else wanted
    let wanted := if wanted = 0 then 1 else wanted
    let wanted := alignUpU32 wanted 256
    let wanted := if ctxSize < wanted then ctxSize else wanted
    let wanted := if cudaSlidingCacheMax < wanted then cudaSlidingCacheMax else wanted
    if wanted < rawWindow ctxSize then rawWindow ctxSize else wanted

/-- `cuda_sliding_cache_prefill_cap`. -/
def cudaSlidingCachePrefillCap (ctxSize cacheCap : Nat) : Nat :=
  if cacheCap = 0 then 0
  else if ctxSize ≤ rawWindow ctxSize then cacheCap
  else if cacheCap ≤ rawWindow ctxSize then 1
  else cacheCap - rawWindow ctxSize

/-- The capacity of a layer's cache: `cache_cap` as `cuda_decode_state_init` sets it, and
`cap` of `kv_cache_init`. -/
def Device.cacheCap (dev : Device) (il : Nat) : Nat :=
  if dev.cuda ∧ ¬ layerIsFull il then cudaSlidingCacheCap dev.ctxSize dev.requestedPrefillCap
  else dev.ctxSize

/-- `prefill_cap` as `cuda_decode_state_init` sets it. -/
def Device.prefillCap (dev : Device) : Nat :=
  let cap := cudaSlidingCachePrefillCap dev.ctxSize
    (cudaSlidingCacheCap dev.ctxSize dev.requestedPrefillCap)
  if cap = 0 then 1 else cap

/-- `session_layer_kv_cap`. -/
def Device.layerKvCap (dev : Device) (il : Nat) : Nat :=
  if mainLayers ≤ il then 0
  else if dev.cuda ∧ dev.cacheCap il ≠ 0 then dev.cacheCap il
  else dev.ctxSize

theorem rawWindow_eq {ctxSize : Nat} (h : 0 < ctxSize) :
    rawWindow ctxSize = min ctxSize slidingWindow := by
  have : slidingWindow = 512 := rfl
  unfold rawWindow
  dsimp only
  split <;> split <;> omega

theorem cudaSlidingCacheCap_bounds {ctxSize : Nat} (h : 0 < ctxSize) (prefillCap : Nat) :
    rawWindow ctxSize ≤ cudaSlidingCacheCap ctxSize prefillCap ∧
      cudaSlidingCacheCap ctxSize prefillCap ≤ ctxSize := by
  have hraw := rawWindow_eq h
  rw [cudaSlidingCacheCap, if_neg (by omega)]
  obtain ⟨w, hw⟩ : ∃ w, w = alignUpU32 (if (if ctxSize < rawWindow ctxSize + prefillCap then ctxSize
      else rawWindow ctxSize + prefillCap) = 0 then 1 else
      if ctxSize < rawWindow ctxSize + prefillCap then ctxSize
      else rawWindow ctxSize + prefillCap) 256 := ⟨_, rfl⟩
  dsimp only
  rw [← hw]
  split <;> split <;> split <;> omega

/-- A layer has room for the window, or for the whole context. -/
theorem Device.window_le_cacheCap (dev : Device) (il : Nat) :
    min dev.ctxSize slidingWindow ≤ dev.cacheCap il := by
  have hpos := dev.ctxSize_pos
  rw [Device.cacheCap]
  split
  · exact rawWindow_eq hpos ▸ (cudaSlidingCacheCap_bounds hpos _).1
  · exact Nat.min_le_left _ _

theorem Device.cacheCap_pos (dev : Device) (il : Nat) : 0 < dev.cacheCap il := by
  have hpos := dev.ctxSize_pos
  have hw := dev.window_le_cacheCap il
  have : slidingWindow = 512 := rfl
  omega

theorem Device.cacheCap_of_full (dev : Device) {il : Nat} (h : layerIsFull il = true) :
    dev.cacheCap il = dev.ctxSize := by
  rw [Device.cacheCap, if_neg (by simp [h])]

theorem Device.cacheCap_of_cpu {dev : Device} (h : dev.cuda = false) (il : Nat) :
    dev.cacheCap il = dev.ctxSize := by
  rw [Device.cacheCap, if_neg (by simp [h])]

/-- The capacity a session goes by is that of the cache. -/
theorem Device.layerKvCap_eq (dev : Device) {il : Nat} (h : il < mainLayers) :
    dev.layerKvCap il = dev.cacheCap il := by
  rw [Device.layerKvCap, if_neg (by omega)]
  split
  · rfl
  next hc =>
    have hcpu : dev.cuda = false := by
      have := dev.cacheCap_pos il
      cases hcuda : dev.cuda with
      | false => rfl
      | true => exact absurd ⟨hcuda, by omega⟩ hc
    exact (dev.cacheCap_of_cpu hcpu il).symm

/-! ## A layer's cache -/

/-- `sf37_layer_kv_cache`, and the two cache tensors of a layer on the GPU, where the
counter is not used. -/
structure LayerCache where
  n : Nat
  k : Nat → Row
  v : Nat → Row

/-- `kv_cache_push`. -/
def kvCachePush (cap : Nat) (layer : LayerCache) (k v : Row) : LayerCache :=
  let layer : LayerCache :=
    if cap ≤ layer.n then
      { n := cap - 1
        k := fun i => if i < cap - 1 then layer.k (i + 1) else layer.k i
        v := fun i => if i < cap - 1 then layer.v (i + 1) else layer.v i }
    else layer
  { n := layer.n + 1, k := Ring.set layer.k layer.n k, v := Ring.set layer.v layer.n v }

/-- `store_kv_cache_batch_kernel`, of one position. -/
def storeKvCache (cap pos : Nat) (layer : LayerCache) (k v : Row) : LayerCache :=
  { layer with k := Ring.set layer.k (pos % cap) k, v := Ring.set layer.v (pos % cap) v }

/-- Store the row of a position. -/
def Device.storeRow (dev : Device) (il pos : Nat) (layer : LayerCache) (k v : Row) : LayerCache :=
  if dev.cuda then storeKvCache (dev.cacheCap il) pos layer k v
  else kvCachePush (dev.cacheCap il) layer k v

/-- The places that `attention_decode` reads of a cache, and on the GPU
`attention_decode_heads_at_kernel`, for the query of a position. -/
def Device.attendedSlots (dev : Device) (il : Nat) (layer : LayerCache) (pos : Nat) : List Nat :=
  let sliding := ¬ layerIsFull il
  if dev.cuda then
    let cacheCap := dev.cacheCap il
    let haveRows := pos + 1
    let start := if cacheCap < haveRows then haveRows - cacheCap else 0
    let start := if sliding ∧ slidingWindow < haveRows ∧ start < haveRows - slidingWindow then
      haveRows - slidingWindow else start
    (List.range' start (pos + 1 - start)).map (· % cacheCap)
  else
    let start := if sliding ∧ slidingWindow < layer.n then layer.n - slidingWindow else 0
    List.range' start (layer.n - start)

/-- The rows that the query of a position attends to. -/
def Device.attended (dev : Device) (il : Nat) (layer : LayerCache) (pos : Nat) : List (Row × Row) :=
  (dev.attendedSlots il layer pos).map fun i => (layer.k i, layer.v i)

end Sf37.Engine

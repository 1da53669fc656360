/-
Sf37.Engine.ChunkedPrefill — the size of the chunks does not matter.

A chunk is never larger than what the ring of a sliding layer has beyond the window. So
the rows that its first query needs are still there when the rows of its last position
have been stored, and evaluating a chunk is evaluating its positions one by one.

* `cudaPrefillLayer_eq_feed`: one layer, for all the positions of a chunk.
* `chunkLayers_eq_feed`: all layers.
* `cudaPrefillChunkedRange_spec`: a part of a prompt, from any position on.
-/
import Sf37.Engine.Prefill
import Sf37.Engine.Progress

namespace Sf37.Engine

open Sf37.Text Sf37.Store Sf37.Run
open Sf37.Server (Token Tokens)

variable {dev : Device} {math : LayerMath}

/-! ## Storing rows -/

/-- Positions whose rows are given. -/
def rowValues (rows : Nat → Nat → Row × Row) (p : Nat) : StepValues :=
  { StepValues.zero with
    k := fun il => (rows il p).1
    v := fun il => (rows il p).2 }

theorem storeKvCacheBatch_eq (hcuda : dev.cuda = true) (il : Nat) (rows : Nat → Nat → Row × Row)
    (pos n : Nat) (cache : LayerCache) :
    storeKvCacheBatch (dev.cacheCap il) pos ((List.range' pos n).map (rows il)) cache =
      storeRows dev (rowValues rows) il pos n cache := by
  induction n generalizing pos cache with
  | zero => rfl
  | succ n ih =>
    have hstore : dev.storeRow il pos cache (rows il pos).1 (rows il pos).2 =
        storeKvCache (dev.cacheCap il) pos cache (rows il pos).1 (rows il pos).2 := if_pos hcuda
    rw [List.range'_succ, List.map_cons, storeKvCacheBatch, ih, storeRows, ← hstore]
    rfl

/-- On the GPU any cache keeps what it has. -/
theorem LayerKeeps.asIs (hcuda : dev.cuda = true) (il len : Nat) (cache : LayerCache) :
    LayerKeeps dev il cache len 0 (dev.rowsAt il cache len) :=
  ⟨fun hcpu => absurd hcpu (by simp [hcuda]), fun _ _ _ => rfl⟩

/-- A query reads the same whether the rows behind it in the chunk were stored or not. -/
theorem attended_storeRows (hcuda : dev.cuda = true) (il : Nat) {pos n t : Nat}
    (hn : n ≤ dev.prefillCap) (hctx : pos + n ≤ dev.ctxSize) (ht : t < n)
    (vals : Nat → StepValues) (cache : LayerCache) :
    dev.attended il (storeRows dev vals il pos n cache) (pos + t) =
      dev.attended il (storeRows dev vals il pos (t + 1) cache) (pos + t) := by
  have hkeeps := LayerKeeps.asIs hcuda il pos cache
  have hall := hkeeps.chunkReads (Nat.zero_le _) hcuda hn hctx vals (Nat.le_add_right pos t)
    (Nat.add_lt_add_left ht pos)
  have hfirst := hkeeps.chunkReads (Nat.zero_le _) hcuda (Nat.le_trans ht hn) (n := t + 1)
    (Nat.le_trans (Nat.add_le_add_left ht pos) hctx) vals (Nat.le_add_right pos t)
    (Nat.lt_succ_self (pos + t))
  exact hall.trans hfirst.symm

/-! ## One layer -/

theorem chunkRows_cons (il pos : Nat) (h : Hidden) (hs : List Hidden) :
    chunkRows math il pos (h :: hs) = math.row il pos h :: chunkRows math il (pos + 1) hs := by
  rw [chunkRows, List.mapIdx_cons, Nat.add_zero, chunkRows]
  simp only [Nat.add_assoc, Nat.add_comm 1]

/-- One position after the other: each is stored and then read for. -/
theorem feed_cudaDecodeLayer (il pos : Nat) (hs : List Hidden) (cache : LayerCache) :
    feed (cudaDecodeLayer dev math il) pos hs cache =
      (hs.mapIdx fun t h => math.next il (pos + t) h (dev.attended il
          (storeKvCacheBatch (dev.cacheCap il) pos
            ((chunkRows math il pos hs).take (t + 1)) cache) (pos + t)),
        storeKvCacheBatch (dev.cacheCap il) pos (chunkRows math il pos hs) cache) := by
  induction hs generalizing pos cache with
  | nil => rfl
  | cons h hs ih =>
    rw [feed_cons, ih, chunkRows_cons, List.mapIdx_cons]
    simp only [cudaDecodeLayer, storeKvCacheBatch, List.take_succ_cons, List.take_zero,
      Nat.add_zero, Nat.add_assoc, Nat.add_comm 1]

/-- The rows a layer makes of a chunk, by position. -/
theorem chunkRows_take (il pos : Nat) (hs : List Hidden) {n : Nat} (hn : n ≤ hs.length) :
    (chunkRows math il pos hs).take n = (List.range' pos n).map fun p =>
      (chunkRows math il pos hs).getD (p - pos) (math.row il p (Block.fit _ [])) := by
  have hlen : (chunkRows math il pos hs).length = hs.length := by
    simp [chunkRows]
  refine List.ext_getElem (by simp [hlen, hn]) fun t h₁ h₂ => ?_
  have ht : t < (chunkRows math il pos hs).length := by
    rw [List.length_take] at h₁
    omega
  simp [List.getElem?_eq_getElem ht]

/-- For one layer, a chunk is its positions one by one. -/
theorem cudaPrefillLayer_eq_feed (hcuda : dev.cuda = true) (il : Nat) {pos : Nat}
    {hs : List Hidden} (hn : hs.length ≤ dev.prefillCap) (hctx : pos + hs.length ≤ dev.ctxSize)
    (cache : LayerCache) :
    cudaPrefillLayer dev math pos il hs cache = feed (cudaDecodeLayer dev math il) pos hs cache := by
  have hlen : (chunkRows math il pos hs).length = hs.length := by
    simp [chunkRows]
  obtain ⟨rows, hrows⟩ : ∃ rows : Nat → Nat → Row × Row, rows = fun il p =>
    (chunkRows math il pos hs).getD (p - pos) (math.row il p (Block.fit _ [])) := ⟨_, rfl⟩
  have hstore : ∀ n ≤ hs.length, storeKvCacheBatch (dev.cacheCap il) pos
      ((chunkRows math il pos hs).take n) cache =
        storeRows dev (rowValues rows) il pos n cache := by
    intro n hle
    rw [chunkRows_take il pos hs hle, ← storeKvCacheBatch_eq hcuda, hrows]
  have hall := hstore hs.length (Nat.le_refl _)
  rw [← hlen, List.take_length, hlen] at hall
  have hreads : ∀ t < hs.length,
      dev.attended il (storeKvCacheBatch (dev.cacheCap il) pos (chunkRows math il pos hs) cache)
          (pos + t) =
        dev.attended il (storeKvCacheBatch (dev.cacheCap il) pos
          ((chunkRows math il pos hs).take (t + 1)) cache) (pos + t) := by
    intro t ht
    rw [hall, hstore (t + 1) ht, attended_storeRows hcuda il hn hctx ht]
  rw [feed_cudaDecodeLayer, cudaPrefillLayer]
  refine Prod.ext (List.ext_getElem (by simp) fun t h₁ h₂ => ?_) rfl
  rw [List.getElem_mapIdx, List.getElem_mapIdx]
  exact congrArg _ (hreads t (by simpa using h₁))

/-! ## All layers -/

/-- Passing a chunk through all layers is passing its positions through them one by one. -/
theorem chunkLayers_eq_feed (hcuda : dev.cuda = true) {pos : Nat} {hs : List Hidden}
    (hn : hs.length ≤ dev.prefillCap) (hctx : pos + hs.length ≤ dev.ctxSize)
    (layer : Nat → LayerCache) :
    sweep (cudaPrefillLayer dev math pos) (List.range mainLayers) hs layer =
      feed (decodeToken dev math) pos hs layer := by
  have hlayers : sweep (cudaPrefillLayer dev math pos) (List.range mainLayers) hs layer =
      sweep (fun il => feed (cudaDecodeLayer dev math il) pos) (List.range mainLayers) hs layer :=
    sweep_congr (P := fun xs => xs.length = hs.length)
      (fun il _ xs cache hxs => ⟨cudaPrefillLayer_eq_feed hcuda il (hxs ▸ hn) (hxs ▸ hctx) cache,
        (length_feed _ _ _ _).trans hxs⟩) rfl layer
  rw [hlayers, sweep_feed _ List.nodup_range]
  rfl

/-! ## The vectors of a chunk -/

/-- The loop and the kernel do the same. -/
theorem copyImageFeatures_eq (patch : Token) (features : List Hidden) (row : Nat)
    (tokens : Tokens) (hidden : List Hidden) :
    copyImageFeatures patch features row tokens hidden =
      scatterImageFeatures patch tokens features row hidden := by
  induction tokens generalizing row hidden with
  | nil =>
    rw [copyImageFeatures, scatterImageFeatures]
    · exact List.ext_getElem (by simp) (by simp)
    · simp
  | cons token tokens ih =>
    cases hidden with
    | nil => rfl
    | cons h hidden =>
      rw [copyImageFeatures, scatterImageFeatures, List.mapIdx_cons]
      by_cases htoken : token = patch
      · rw [if_neg (by simp [htoken]), ih, scatterImageFeatures]
        simp [htoken, List.take_succ_cons, Nat.add_assoc, Nat.add_comm 1]
      · rw [if_pos htoken, ih, scatterImageFeatures]
        simp [htoken, List.take_succ_cons]

section Inputs

variable {job : PrefillJob} {pos n : Nat}

@[simp] theorem PrefillJob.length_tokenInputs (job : PrefillJob) (pos n : Nat) :
    (job.tokenInputs pos n).length = n := by
  simp [PrefillJob.tokenInputs]

theorem PrefillJob.getElem_tokenInputs {t : Nat} (ht : t < (job.tokenInputs pos n).length) :
    (job.tokenInputs pos n)[t] = job.tokenInput (pos + t) := by
  simp [PrefillJob.tokenInputs]

/-- Where a token is no `<im_patch>` its embedding goes in. -/
theorem PrefillJob.tokenInput_embed {p : Nat} (hp : p < job.prompt.length)
    (h : job.features.isSome → job.imPatch ≠ some job.prompt[p]) :
    job.tokenInput p = job.math.embed job.prompt[p] := by
  have htoken : job.prompt.getD p 0 = job.prompt[p] := List.getD_eq_getElem _ _ hp
  unfold PrefillJob.tokenInput
  rw [htoken]
  cases hf : job.features with
  | none => rfl
  | some rows => exact if_neg (h (by simp [hf]))

theorem PrefillJob.tokenInputs_embed (hrange : pos + n ≤ job.prompt.length)
    (h : ∀ token ∈ (job.prompt.drop pos).take n, job.features.isSome → job.imPatch ≠ some token) :
    ((job.prompt.drop pos).take n).map job.math.embed = job.tokenInputs pos n := by
  have hlen : ((job.prompt.drop pos).take n).length = n := by
    simp
    omega
  refine List.ext_getElem (by rw [List.length_map, hlen, length_tokenInputs]) fun t h₁ h₂ => ?_
  have ht : t < ((job.prompt.drop pos).take n).length := by simpa using h₁
  have htoken : ((job.prompt.drop pos).take n)[t] = job.prompt[pos + t] := by simp
  rw [PrefillJob.getElem_tokenInputs, List.getElem_map, htoken]
  refine (PrefillJob.tokenInput_embed (by omega) ?_).symm
  exact h _ (htoken ▸ List.getElem_mem ht)

/-- The kernel gives every `<im_patch>` its row. -/
theorem PrefillJob.scatter_tokenInputs {rows : List Hidden} {patch : Token}
    (hrange : pos + n ≤ job.prompt.length) (hfeatures : job.features = some rows)
    (hpatch : job.imPatch = some patch) :
    scatterImageFeatures patch ((job.prompt.drop pos).take n) rows
        ((job.prompt.take pos).count patch)
        (((job.prompt.drop pos).take n).map job.math.embed) = job.tokenInputs pos n := by
  have hlen : ((job.prompt.drop pos).take n).length = n := by
    simp
    omega
  refine List.ext_getElem (by
    rw [scatterImageFeatures, List.length_mapIdx, List.length_map, hlen, length_tokenInputs])
    fun t h₁ h₂ => ?_
  have ht : t < n := by simpa using h₂
  have hp : pos + t < job.prompt.length := by omega
  have htoken : ((job.prompt.drop pos).take n)[t]? = some job.prompt[pos + t] := by
    rw [List.getElem?_eq_getElem (by omega)]
    simp
  have hcount : (job.prompt.take pos).count patch +
      (((job.prompt.drop pos).take n).take t).count patch =
        (job.prompt.take (pos + t)).count patch := by
    rw [List.take_take, Nat.min_eq_left (Nat.le_of_lt ht), List.take_add, List.count_append]
  have hget : job.prompt.getD (pos + t) 0 = job.prompt[pos + t] := List.getD_eq_getElem _ _ hp
  rw [PrefillJob.getElem_tokenInputs, PrefillJob.tokenInput, hfeatures, hpatch, hget]
  simp only [scatterImageFeatures, List.getElem_mapIdx, htoken, hcount, List.getElem_map,
    List.getElem_take, List.getElem_drop, Option.some.injEq]
  by_cases heq : job.prompt[pos + t] = patch
  · rw [if_pos heq, if_pos heq.symm, heq]
  · rw [if_neg heq, if_neg (Ne.symm heq)]

/-- There are as many image rows as the prompt has `<im_patch>` tokens, which a sync checks. -/
def PrefillJob.RowsMatch (job : PrefillJob) : Prop :=
  ∀ rows, job.features = some rows → promptCountImPatch job.imPatch job.prompt = rows.length

/-- A chunk begins with the vectors of its positions. -/
theorem PrefillJob.applyImageFeatures_eq (hrange : pos + n ≤ job.prompt.length)
    (hrows : job.RowsMatch) :
    cudaPrefillApplyImageFeatures job.noScatter job.imPatch job.prompt pos n job.features
        (((job.prompt.drop pos).take n).map job.math.embed) = some (job.tokenInputs pos n) := by
  unfold cudaPrefillApplyImageFeatures
  cases hfeatures : job.features with
  | none => exact congrArg some (job.tokenInputs_embed hrange (by simp [hfeatures]))
  | some rows =>
    have hmatch := hrows rows hfeatures
    cases hpatch : job.imPatch with
    | none =>
      have hzero : rows.length = 0 := by rw [← hmatch, hpatch]; rfl
      simp only [hzero, if_true]
      exact congrArg some (job.tokenInputs_embed hrange (by simp [hpatch]))
    | some patch =>
      rw [hpatch] at hmatch
      have hcount : (job.prompt.take pos).count patch +
          ((job.prompt.drop pos).take n).count patch ≤ rows.length := by
        have hsplit : (job.prompt.take (pos + n)).count patch ≤ job.prompt.count patch :=
          (List.take_sublist _ _).count_le _
        rw [List.take_add, List.count_append] at hsplit
        exact hmatch ▸ hsplit
      have hnone : ((job.prompt.drop pos).take n).count patch = 0 →
          ((job.prompt.drop pos).take n).map job.math.embed = job.tokenInputs pos n := by
        intro hzero
        refine job.tokenInputs_embed hrange fun token hmem _ heq => ?_
        rw [hpatch] at heq
        exact List.count_eq_zero.mp hzero (Option.some.inj heq ▸ hmem)
      dsimp only
      by_cases hempty : rows.length = 0
      · rw [if_pos hempty]
        exact congrArg some (hnone (by omega))
      rw [if_neg hempty]
      have hpatches : ∀ tokens, promptCountImPatch (some patch) tokens = tokens.count patch :=
        fun _ => rfl
      by_cases hzero : promptCountImPatch (some patch) ((job.prompt.drop pos).take n) = 0
      · rw [if_pos hzero]
        exact congrArg some (hnone hzero)
      rw [if_neg hzero, if_neg (by rw [hpatches, hpatches]; omega), copyImageFeatures_eq,
        hpatches, job.scatter_tokenInputs hrange hfeatures hpatch, ite_self]

end Inputs

/-! ## Token by token -/

section Tokens

variable {job : PrefillJob} {start : Nat} {layer : Nat → LayerCache}

theorem PrefillJob.tokenInputs_add (job : PrefillJob) (start a b : Nat) :
    job.tokenInputs start (a + b) = job.tokenInputs start a ++ job.tokenInputs (start + a) b := by
  unfold PrefillJob.tokenInputs
  rw [← List.range'_append_1, List.map_append]

/-- What `a + b` positions leave is what `b` leave behind the first `a`. -/
theorem PrefillJob.tokenByToken_add (job : PrefillJob) (dev : Device) (start a b : Nat)
    (layer : Nat → LayerCache) :
    (job.tokenByToken dev start (a + b) layer).2 =
      (job.tokenByToken dev (start + a) b (job.tokenByToken dev start a layer).2).2 := by
  unfold PrefillJob.tokenByToken
  rw [job.tokenInputs_add, feed_append, job.length_tokenInputs]

/-- The layers before a layer, and those behind it. -/
theorem range_mainLayers {il : Nat} (hil : il < mainLayers) :
    List.range mainLayers =
      List.range il ++ il :: List.range' (il + 1) (mainLayers - (il + 1)) := by
  have hlen : mainLayers = il + (1 + (mainLayers - (il + 1))) := by omega
  conv => lhs; rw [hlen]
  rw [← List.range'_succ, List.range_eq_range', List.range_eq_range', Nat.add_comm 1]
  exact List.range'_append_1.symm.trans (by simp)

/-- The cache of a layer is what the layer leaves of the values that come to it. -/
theorem sweep_layer {H : Type} (f : Nat → H → LayerCache → H × LayerCache) {il : Nat}
    (hil : il < mainLayers) (h : H) (layer : Nat → LayerCache) :
    (sweep f (List.range mainLayers) h layer).2 il =
      (f il (sweep f (List.range il) h layer).1 (layer il)).2 := by
  rw [range_mainLayers hil]
  exact sweep_cell f (by simp) (by simp) h layer

/-- Behind a position a layer has one more row, made of the vector that the layers before
have passed on. -/
theorem decodeToken_layer (dev : Device) (math : LayerMath) {il : Nat} (hil : il < mainLayers)
    (pos : Nat) (hidden : Hidden) (layer : Nat → LayerCache) :
    (decodeToken dev math pos hidden layer).2 il =
      storeKvCacheBatch (dev.cacheCap il) pos
        [math.row il pos (sweep (fun il => cudaDecodeLayer dev math il pos) (List.range il) hidden
          layer).1] (layer il) :=
  sweep_layer _ hil hidden layer

/-- Token by token, a layer's cache has the rows of the positions stored one by one. -/
theorem PrefillJob.tokenByToken_layer (hcuda : dev.cuda = true) {il : Nat} (hil : il < mainLayers)
    (n : Nat) :
    (job.tokenByToken dev start n layer).2 il =
      storeRows dev (rowValues (job.tokenRow dev start layer)) il start n (layer il) := by
  induction n with
  | zero => rfl
  | succ n ih =>
    have hone : job.tokenInputs (start + n) 1 = [job.tokenInput (start + n)] := rfl
    have hrow := decodeToken_layer dev job.math hil (start + n)
      (job.tokenInput (start + n)) (job.tokenByToken dev start n layer).2
    rw [job.tokenByToken_add, storeRows_add, ← ih, ← storeKvCacheBatch_eq hcuda]
    unfold PrefillJob.tokenByToken at hrow ⊢
    rw [hone, feed_cons, feed_nil, hrow, List.range'_one, List.map_singleton,
      PrefillJob.tokenRow, Nat.add_sub_cancel_left]
    rfl

end Tokens

/-! ## Chunk by chunk -/

section Chunks

variable {job : PrefillJob} {start stop : Nat} {layer : Nat → LayerCache}

/-- A chunk leaves what its positions leave one by one. -/
theorem PrefillJob.cudaPrefillChunk_eq (hcuda : dev.cuda = true) (hrows : job.RowsMatch)
    {pos n : Nat} (hrange : pos + n ≤ job.prompt.length) (hctx : pos + n ≤ dev.ctxSize)
    (hn : n ≤ dev.prefillCap) (needLogits : Bool) (s : Session) :
    ∃ s', job.cudaPrefillChunk dev pos n needLogits s =
        some (s', ⟨pos, job.tokenInputs pos n, (job.tokenByToken dev pos n s.layer).2⟩) ∧
      s'.layer = (job.tokenByToken dev pos n s.layer).2 := by
  have hlayers : sweep (cudaPrefillLayer dev job.math pos) (List.range mainLayers)
      (job.tokenInputs pos n) s.layer = job.tokenByToken dev pos n s.layer :=
    chunkLayers_eq_feed hcuda (by rwa [job.length_tokenInputs]) (by rwa [job.length_tokenInputs]) _
  unfold PrefillJob.cudaPrefillChunk
  dsimp only
  rw [job.applyImageFeatures_eq hrange hrows]
  dsimp only
  rw [hlayers]
  exact ⟨_, rfl, rfl⟩

/-- The positions of a chunk. -/
def ChunkRun.positions (c : ChunkRun) : List Nat := List.range' c.pos0 c.input.length

/-- A chunk of a part that goes from `start` to `stop`: its vectors are those of its
positions, and its queries read the caches that the positions up to its end leave. -/
structure ChunkDone (job : PrefillJob) (dev : Device) (start stop : Nat)
    (layer : Nat → LayerCache) (c : ChunkRun) : Prop where
  start_le : start ≤ c.pos0
  le_stop : c.pos0 + c.input.length ≤ stop
  size_le : c.input.length ≤ dev.prefillCap
  inputs : c.input = job.tokenInputs c.pos0 c.input.length
  stored : c.stored = (job.tokenByToken dev start (c.pos0 - start + c.input.length) layer).2

/-- The chunks up to a position, and the caches they leave. -/
structure ChunksDone (job : PrefillJob) (dev : Device) (start stop : Nat)
    (layer : Nat → LayerCache) (reached : Nat) (chunks : List ChunkRun)
    (left : Nat → LayerCache) : Prop where
  covers : chunks.flatMap ChunkRun.positions = List.range' start (reached - start)
  done : ∀ c ∈ chunks, ChunkDone job dev start stop layer c
  rows : left = (job.tokenByToken dev start (reached - start) layer).2

/-- One more chunk. -/
theorem ChunksDone.snoc {reached n : Nat} {chunks : List ChunkRun} {left : Nat → LayerCache}
    (h : ChunksDone job dev start stop layer reached chunks left) (hstart : start ≤ reached)
    (hstop : reached + n ≤ stop) (hn : n ≤ dev.prefillCap) :
    ChunksDone job dev start stop layer (reached + n)
      (chunks ++ [⟨reached, job.tokenInputs reached n, (job.tokenByToken dev reached n left).2⟩])
      (job.tokenByToken dev reached n left).2 := by
  have hmore : reached + n - start = reached - start + n := by omega
  have hfrom : start + (reached - start) = reached := by omega
  have hrows : (job.tokenByToken dev reached n left).2 =
      (job.tokenByToken dev start (reached - start + n) layer).2 := by
    rw [job.tokenByToken_add, hfrom, h.rows]
  refine ⟨?_, fun c hc => ?_, by rw [hrows, hmore]⟩
  · rw [List.flatMap_append, h.covers, hmore, ← List.range'_append_1, hfrom]
    simp [ChunkRun.positions]
  · rcases List.mem_append.mp hc with hc | hc
    · exact h.done c hc
    · rw [List.mem_singleton.mp hc]
      refine ⟨hstart, ?_, ?_, ?_, ?_⟩
      · simpa using hstop
      · simpa using hn
      · simp
      · simp [hrows]

/-- How a loop ends: at the stop, or where it was cancelled. -/
def RangeOut.EndsAt (out : RangeOut) (env : SyncEnv) (start stop reached : Nat) : Prop :=
  out.rc = 1 ∧ reached = stop ∨
    out.rc = -1 ∧ ∃ p, start ≤ p ∧ p < stop ∧ (env.cancelBefore p = true ∨ env.cancelAfter p = true)

/-- The loop comes to an end, and has evaluated the positions it came to. -/
theorem PrefillJob.chunkLoop_spec (env : SyncEnv) (hcuda : dev.cuda = true) (hrows : job.RowsMatch)
    (hprompt : stop ≤ job.prompt.length) (hctx : stop ≤ dev.ctxSize) {chunkCap : Nat}
    (hcap : 0 < chunkCap) (hle : chunkCap ≤ dev.prefillCap) :
    ∀ (fuel : Nat) {s : Session} {pos : Nat} {chunks : List ChunkRun}, stop - pos < fuel →
      start ≤ pos → pos ≤ stop → ChunksDone job dev start stop layer pos chunks s.layer →
        ∃ out reached, job.chunkLoop dev env start stop chunkCap fuel s pos chunks = some out ∧
          out.EndsAt env start stop reached ∧
          ChunksDone job dev start stop layer reached out.chunks out.session.layer
  | 0, _, _, _, hfuel, _, _, _ => absurd hfuel (Nat.not_lt_zero _)
  | fuel + 1, s, pos, chunks, hfuel, hstart, hstop, hdone => by
      unfold PrefillJob.chunkLoop
      by_cases hend : stop ≤ pos
      · rw [if_pos hend]
        exact ⟨_, pos, rfl, .inl ⟨rfl, Nat.le_antisymm hstop hend⟩, hdone⟩
      rw [if_neg hend]
      have hlt : pos < stop := Nat.lt_of_not_le hend
      cases hbefore : env.cancelBefore pos with
      | true => exact ⟨_, pos, rfl, .inr ⟨rfl, pos, hstart, hlt, .inl hbefore⟩, hdone⟩
      | false =>
        obtain ⟨hpos, hchunk, hrem⟩ :=
          chunkSize_bounds start pos hcap (Nat.sub_pos_of_lt hlt)
        simp only [Bool.false_eq_true, if_false]
        generalize chunkSize start chunkCap (stop - pos) pos = n at hpos hchunk hrem ⊢
        have hnext : pos + n ≤ stop := by omega
        obtain ⟨s', hs', hlayer⟩ := job.cudaPrefillChunk_eq hcuda hrows
          (Nat.le_trans hnext hprompt) (Nat.le_trans hnext hctx) (Nat.le_trans hchunk hle)
          (decide (pos + n = stop)) s
        have hmore : ChunksDone job dev start stop layer (pos + n) (chunks ++
            [⟨pos, job.tokenInputs pos n, (job.tokenByToken dev pos n s.layer).2⟩]) s'.layer := by
          rw [hlayer]
          exact hdone.snoc hstart hnext (Nat.le_trans hchunk hle)
        rw [hs']
        cases hafter : env.cancelAfter pos with
        | true => exact ⟨_, pos + n, rfl, .inr ⟨rfl, pos, hstart, hlt, .inr hafter⟩, hmore⟩
        | false =>
          exact chunkLoop_spec env hcuda hrows hprompt hctx hcap hle fuel (by omega) (by omega) hnext
            hmore

end Chunks

/-! ## Any part of a prompt -/

/-- The earlier rows that the first query of a part needs are in their places. -/
def EarlierRows (dev : Device) (layer : Nat → LayerCache) (start : Nat)
    (want : Nat → Nat → Row × Row) : Prop :=
  ∀ il < mainLayers, ∀ p, attendedFrom il start ≤ p → p < start →
    dev.rowsAt il (layer il) start p = want il p

/-- The row of a position: before the part as it is wanted, in the part as it is token by
token. -/
def PrefillJob.positionRow (job : PrefillJob) (dev : Device) (start : Nat)
    (layer : Nat → LayerCache) (want : Nat → Nat → Row × Row) (il p : Nat) : Row × Row :=
  if p < start then want il p else job.tokenRow dev start layer il p

/-- What a chunk gets and sees. -/
structure PrefillJob.ChunkSees (job : PrefillJob) (dev : Device) (start : Nat)
    (layer : Nat → LayerCache) (want : Nat → Nat → Row × Row) (c : ChunkRun) : Prop where
  inputs : c.input = job.tokenInputs c.pos0 c.input.length
  images : ∀ rows patch, job.features = some rows → job.imPatch = some patch →
    ∀ t < c.input.length, job.prompt[c.pos0 + t]? = some patch →
      c.input[t]? = rows[(job.prompt.take (c.pos0 + t)).count patch]?
  places : ∀ il < mainLayers, ∀ p ∈ c.positions, ∀ q, attendedFrom il p ≤ q →
    ∀ later ∈ c.positions, q < later → later % dev.cacheCap il ≠ q % dev.cacheCap il
  reads : ∀ il < mainLayers, ∀ p ∈ c.positions,
    ReadsWindow dev il (c.stored il) p (job.positionRow dev start layer want il)

section Part

variable {job : PrefillJob} {start stop : Nat} {layer : Nat → LayerCache}

/-- The next image row goes to the next `<im_patch>`. -/
theorem PrefillJob.getElem?_tokenInputs_image {rows : List Hidden} {patch : Token} {pos n t : Nat}
    (hrows : job.RowsMatch) (hfeatures : job.features = some rows)
    (hpatch : job.imPatch = some patch) (ht : t < n) (htoken : job.prompt[pos + t]? = some patch) :
    (job.tokenInputs pos n)[t]? = rows[(job.prompt.take (pos + t)).count patch]? := by
  obtain ⟨hp, hget⟩ := List.getElem?_eq_some_iff.mp htoken
  have hcount : (job.prompt.take (pos + t)).count patch < rows.length := by
    have hall := hrows rows hfeatures
    have hsplit := congrArg (List.count patch) (List.take_append_drop (pos + t + 1) job.prompt)
    rw [hpatch] at hall
    rw [List.count_append, List.take_add_one, htoken, Option.toList_some, List.count_append] at hsplit
    have hone : [patch].count patch = 1 := by simp
    have hpatches : promptCountImPatch (some patch) job.prompt = job.prompt.count patch := rfl
    omega
  have htoken' : job.prompt.getD (pos + t) 0 = patch := by
    rw [List.getD_eq_getElem _ _ hp, hget]
  rw [List.getElem?_eq_getElem (by simpa using ht), PrefillJob.getElem_tokenInputs,
    PrefillJob.tokenInput, hfeatures, hpatch, htoken', List.getElem?_eq_getElem hcount]
  simp [List.getElem?_eq_getElem hcount]

/-- The queries of a chunk see the rows of their positions. -/
theorem ChunkDone.sees (hcuda : dev.cuda = true) (hctx : stop ≤ dev.ctxSize)
    (hrows : job.RowsMatch) {want : Nat → Nat → Row × Row}
    (hearlier : EarlierRows dev layer start want) {c : ChunkRun} (h : ChunkDone job dev start stop layer c) :
    job.ChunkSees dev start layer want c := by
  have hstart := h.start_le
  have hstop := h.le_stop
  refine ⟨h.inputs, fun rows patch hfeatures hpatch t ht htoken => ?_,
    fun il hil p hp q hq later hlater hlt => ?_, fun il hil p hp => ?_⟩
  · rw [h.inputs]
    exact PrefillJob.getElem?_tokenInputs_image hrows hfeatures hpatch ht htoken
  · have hp := List.mem_range'_1.mp hp
    have hlater := List.mem_range'_1.mp hlater
    have hroom := Nat.le_trans (sub_cacheCap_le_of_chunk il hcuda h.size_le
      (Nat.le_trans hstop hctx)) (attendedFrom_mono hp.1)
    exact Ne.symm (Ring.mod_ne_of_lt hlt (by omega))
  · have hp := List.mem_range'_1.mp hp
    have hkeeps : LayerKeeps dev il (layer il) start (attendedFrom il start) (want il) :=
      ⟨fun hcpu => absurd hcpu (by simp [hcuda]), hearlier il hil⟩
    -- the rows up to the chunk, then those of the chunk
    have hbefore := hkeeps.storeRows (n := c.pos0 - start) (by omega)
      (rowValues (job.tokenRow dev start layer))
    have hpos : start + (c.pos0 - start) = c.pos0 := by omega
    rw [hpos] at hbefore
    have hfrom : attendedFrom il start ≤ attendedFrom il c.pos0 := attendedFrom_mono hstart
    have hreads := hbefore.chunkReads (n := c.input.length)
      (by
        split
        · exact hfrom
        · exact keptAfter_le_attendedFrom dev (by omega) hfrom)
      hcuda h.size_le (Nat.le_trans hstop hctx) (rowValues (job.tokenRow dev start layer)) hp.1 hp.2
    have hstored : storeRows dev (rowValues (job.tokenRow dev start layer)) il c.pos0 c.input.length
        (storeRows dev (rowValues (job.tokenRow dev start layer)) il start (c.pos0 - start)
          (layer il)) = c.stored il := by
      have hadd := storeRows_add dev (rowValues (job.tokenRow dev start layer)) il start
        (c.pos0 - start) c.input.length (layer il)
      rw [hpos] at hadd
      rw [← hadd, h.stored, PrefillJob.tokenByToken_layer hcuda hil]
    have hwant := wantAfter_wantAfter (want il) start (c.pos0 - start)
      (rowValues (job.tokenRow dev start layer)) il
    rw [hpos] at hwant
    rw [hstored, hwant] at hreads
    exact hreads

end Part

/-- A part of a prompt is evaluated to its end unless it is cancelled, whatever the size of
the context, the free memory and the settings: the chunks are its positions in order, every
query sees the rows of its window, every `<im_patch>` has its row, and the caches are those
that the positions leave one by one. -/
theorem PrefillJob.cudaPrefillChunkedRange_spec (atStart now : ChunkSettings) {ctxSize : Nat}
    (hpos : 0 < ctxSize) (hle : ctxSize ≤ maxCtx) (job : PrefillJob) (env : SyncEnv) (s : Session)
    {start n : Nat} (want : Nat → Nat → Row × Row) (hprompt : start + n ≤ job.prompt.length)
    (hctx : start + n ≤ ctxSize) (hrows : job.RowsMatch)
    (hearlier : EarlierRows (.ofSettings atStart ctxSize hpos hle) s.layer start want)
    (hready : cudaPrefillSelectChunkCap (.ofSettings atStart ctxSize hpos hle)
      (env.withSettings now) n ≠ 0)
    (hprojection : env.projectionOk = true) {fuel : Nat} (hfuel : n < fuel) :
    let dev := Device.ofSettings atStart ctxSize hpos hle
    ∃ out reached,
      job.cudaPrefillChunkedRange dev (env.withSettings now) start n fuel s = some out ∧
      out.EndsAt (env.withSettings now) start (start + n) reached ∧
      out.chunks.flatMap ChunkRun.positions = List.range' start (reached - start) ∧
      (∀ c ∈ out.chunks, job.ChunkSees dev start s.layer want c) ∧
      out.session.layer = (job.tokenByToken dev start (reached - start) s.layer).2 := by
  intro dev
  have hcuda : dev.cuda = true := rfl
  have hn : n ≠ 0 := by
    intro hzero
    rw [hzero] at hready
    exact hready rfl
  have hnone : ChunksDone job dev start (start + n) s.layer start [] s.layer :=
    ⟨by simp, fun c hc => absurd hc List.not_mem_nil, by rw [Nat.sub_self]; rfl⟩
  obtain ⟨out, reached, hout, hends, hdone⟩ := PrefillJob.chunkLoop_spec (env.withSettings now)
    hcuda hrows hprompt hctx (Nat.pos_of_ne_zero hready) (cudaPrefillSelectChunkCap_le dev _ n)
    fuel (by omega) (Nat.le_refl _) (Nat.le_add_right _ _) hnone
  refine ⟨out, reached, ?_, hends, hdone.covers, fun c hc => (hdone.done c hc).sees hcuda hctx hrows
    hearlier, hdone.rows⟩
  have hproj : ¬ (job.features.isSome = true ∧ ¬ (env.withSettings now).projectionOk = true) :=
    fun h => h.2 hprojection
  unfold PrefillJob.cudaPrefillChunkedRange
  rw [if_neg hn]
  dsimp only
  rw [if_neg hready, if_neg hproj]
  exact hout

/-- A prompt with an image of one row in its middle. -/
def imageJob : PrefillJob where
  math :=
    { embed := fun _ => Block.fit _ []
      row := fun _ _ _ => (Block.fit _ [], Block.fit _ [])
      next := fun _ _ h _ => h
      logits := fun _ => Block.fit _ [] }
  noScatter := false
  imPatch := some 5
  prompt := [7, 5, 7]
  features := some [Block.fit _ [1]]

/-- Two of its positions behind the first, two at a time. -/
theorem PrefillJob.cudaPrefillChunkedRange_spec_image :
    let dev := Device.ofSettings ⟨none, some (8 * gib)⟩ 1024 (by decide) (by decide)
    let s := Session.ofTokens [7]
    ∃ out reached,
      imageJob.cudaPrefillChunkedRange dev (SyncEnv.quiet.withSettings ⟨some 2, none⟩) 1 2 3 s =
        some out ∧
      out.EndsAt (SyncEnv.quiet.withSettings ⟨some 2, none⟩) 1 (1 + 2) reached ∧
      out.chunks.flatMap ChunkRun.positions = List.range' 1 (reached - 1) ∧
      (∀ c ∈ out.chunks,
        imageJob.ChunkSees dev 1 s.layer (fun il => dev.rowsAt il (s.layer il) 1) c) ∧
      out.session.layer = (imageJob.tokenByToken dev 1 (reached - 1) s.layer).2 :=
  PrefillJob.cudaPrefillChunkedRange_spec ⟨none, some (8 * gib)⟩ ⟨some 2, none⟩ (by decide)
    (by decide) imageJob .quiet (.ofTokens [7]) _ (by decide) (by decide)
    (fun rows hrows => by rw [← Option.some.inj hrows]; rfl) (fun _ _ _ _ _ => rfl) (by decide)
    rfl (by decide)

end Sf37.Engine

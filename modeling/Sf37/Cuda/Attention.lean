/-
Sf37.Cuda.Attention — the attention kernels for heads of 128, in exact arithmetic.

A number is an element of an ordered field, minus infinity is `⊥`, a `float4` is a function of its
component, and a kernel's output is the list of its writes. What the threads of a warp do between
two barriers is one step, and so is what those of a block do, but for a read of the second kernel
that no barrier parts from a write.

* `attentionDecodeHeadsAtKernel`: two passes over the rows, one thread for each place.
* `attentionDecodeHeads128WarpAtKernel`, `attentionPrefillHeads128WarpKernel`: one pass, a warp for
  each head.
* `attentionDecodeHeads128KvgroupAtKernel`: one pass, a block for each head of the cache.
* `attentionDecodeHeads128KvgroupSplitKernel`, `attentionDecodeHeads128SplitReduceKernel`: one
  pass over each part of the rows, and the parts brought together.
-/
import Sf37.Run.Softmax
import Sf37.Run.Threads

namespace Sf37.Cuda

open Run

/-- A `uint32_t`. -/
def u32 (n : ℕ) : ℕ := n % 4294967296

/-- What the kernels are launched with. -/
structure AttentionArgs (K : Type) where
  q : ℕ → K
  kCache : ℕ → K
  vCache : ℕ → K
  headGate : ℕ → K
  cacheCap : ℕ
  qHeads : ℕ
  kvHeads : ℕ
  sliding : Bool
  window : ℕ

variable {K : Type}

namespace AttentionArgs

/-- The first position that is read. -/
def start (a : AttentionArgs K) (pos : ℕ) : ℕ :=
  let have_ := u32 (pos + 1)
  let start := if have_ > a.cacheCap then have_ - a.cacheCap else 0
  if a.sliding ∧ have_ > a.window then
    let sw := have_ - a.window
    if sw > start then sw else start
  else start

/-- `for (r = start; r <= pos; r++)` -/
def rows (a : AttentionArgs K) (pos : ℕ) : List ℕ :=
  List.range' (a.start pos) (pos + 1 - a.start pos)

/-- `q_heads / kv_heads` -/
def repeats (a : AttentionArgs K) : ℕ := a.qHeads / a.kvHeads

/-- Where the cache holds head `kvh` of position `r`. -/
def slot (a : AttentionArgs K) (headDim kvh r : ℕ) : ℕ :=
  r % a.cacheCap * (a.kvHeads * headDim) + kvh * headDim

end AttentionArgs

/-- All the writes of a launch. -/
def launch {σ : Type} (grid threads : ℕ) (kernel : ℕ → ℕ → List σ) : List σ :=
  (List.range grid).flatMap fun block => (List.range threads).flatMap fun thread =>
    kernel block thread

/-! ## The rows of a query -/

namespace AttentionArgs

/-- The positions a query at `pos` attends to. -/
def positions (a : AttentionArgs K) (pos : ℕ) : List ℕ :=
  let first := max (pos + 1 - a.cacheCap) (if a.sliding then pos + 1 - a.window else 0)
  List.range' first (pos + 1 - first)

/-- The score of a row: the scaled product of the query at `qh` with the row's key. -/
def score [Field K] (rsqrtf : K → K) (a : AttentionArgs K) (qh kvh r : ℕ) : K :=
  (∑ i ∈ Finset.range 128, a.q (qh + i) * a.kCache (a.slot 128 kvh r + i)) * rsqrtf 128

/-- The scores of rows, each with the row's value in column `d`. -/
def scored [Field K] (rsqrtf : K → K) (a : AttentionArgs K) (qh kvh d : ℕ) (rows : List ℕ) :
    List (K × K) :=
  rows.map fun r => (a.score rsqrtf qh kvh r, a.vCache (a.slot 128 kvh r + d))

/-- The query and the gates of token `t`. -/
def token (a : AttentionArgs K) (t : ℕ) : AttentionArgs K :=
  { a with q := fun i => a.q (t * (a.qHeads * 128) + i),
           headGate := fun h => a.headGate (t * a.qHeads + h) }

end AttentionArgs

variable [Field K] [LinearOrder K] (expf rsqrtf : K → K)

/-- `sf37_sigmoid_dev` -/
def sigmoidDev (x : K) : K :=
  if x ≥ 0 then
    let z := expf (-x)
    1 / (1 + z)
  else
    let z := expf x
    z / (1 + z)

/-! ## Two passes -/

def attentionDecodeHeadsAtKernel (a : AttentionArgs K) (pos headDim gid : ℕ) : List (ℕ × K) :=
  let n := a.qHeads * headDim
  if gid ≥ n ∨ a.cacheCap = 0 then [] else
  let h := gid / headDim
  let d := gid - h * headDim
  let kvh := h / a.repeats
  let score := fun r =>
    (List.range headDim).foldl (fun score i =>
      score + a.q (h * headDim + i) * a.kCache (a.slot headDim kvh r + i)) 0 * rsqrtf headDim
  let maxScore := (a.rows pos).foldl (fun (maxScore : WithBot K) r =>
    if (score r : WithBot K) > maxScore then (score r : WithBot K) else maxScore) ⊥
  let (denom, acc) := (a.rows pos).foldl (fun (denom, acc) r =>
    let w := expDiff expf (score r) maxScore
    (denom + w, acc + w * a.vCache (a.slot headDim kvh r + d))) ((0 : K), (0 : K))
  let inv := if denom > 0 then 1 / denom else 0
  [(gid, acc * inv * sigmoidDev expf (a.headGate h))]

/-! ## One pass -/

/-- `__shfl_down_sync`: the value of the lane `off` further on, its own beyond the last lane. -/
def shflDown (off : ℕ) (v : ℕ → K) (lane : ℕ) : K :=
  if lane + off < 32 then v (lane + off) else v lane

/-- `warp_sum_f32` -/
def warpSumF32 (v : ℕ → K) : ℕ → K := halving (fun off v lane => v lane + shflDown off v lane) 5 v

/-- `dot4_f32` -/
def dot4F32 (a b : Fin 4 → K) : K := a 0 * b 0 + a 1 * b 1 + a 2 * b 2 + a 3 * b 3

/-- What a lane keeps: `max_s`, `sum_s` and its four values, `o0` to `o3` or `ov`. -/
structure Online (K : Type) where
  maxS : WithBot K
  sumS : K
  o : Fin 4 → K

def Online.init : Online K := { maxS := ⊥, sumS := 0, o := fun _ => 0 }

/-- A row more. -/
def Online.next (s : Online K) (score : K) (v : Fin 4 → K) : Online K :=
  let newM := max s.maxS (score : WithBot K)
  let oldScale := expDiff expf s.maxS newM
  let rowScale := expDiff expf score newM
  { maxS := newM, sumS := s.sumS * oldScale + rowScale,
    o := fun c => s.o c * oldScale + v c * rowScale }

/-- What a lane writes for its component `c`. -/
def Online.out (s : Online K) (headGate : K) (c : Fin 4) : K :=
  let gate := sigmoidDev expf headGate
  let inv := if s.sumS > 0 then 1 / s.sumS else 0
  s.o c * inv * gate

/-- A lane of the two warp kernels. Its columns are 32 apart. -/
def warpLane (a : AttentionArgs K) (pos qh kvh gate out lane : ℕ) : List (ℕ × K) :=
  let scale := rsqrtf 128
  let dot := fun r lane =>
    a.q (qh + (lane + 0)) * a.kCache (a.slot 128 kvh r + (lane + 0)) +
      a.q (qh + (lane + 32)) * a.kCache (a.slot 128 kvh r + (lane + 32)) +
      a.q (qh + (lane + 64)) * a.kCache (a.slot 128 kvh r + (lane + 64)) +
      a.q (qh + (lane + 96)) * a.kCache (a.slot 128 kvh r + (lane + 96))
  let s := (a.rows pos).foldl (fun s r =>
    let score := warpSumF32 (dot r) 0 * scale
    s.next expf score fun c => a.vCache (a.slot 128 kvh r + (lane + 32 * c))) Online.init
  [(out + (lane + 0), s.out expf (a.headGate gate) 0),
    (out + (lane + 32), s.out expf (a.headGate gate) 1),
    (out + (lane + 64), s.out expf (a.headGate gate) 2),
    (out + (lane + 96), s.out expf (a.headGate gate) 3)]

def attentionDecodeHeads128WarpAtKernel (a : AttentionArgs K) (pos block thread : ℕ) :
    List (ℕ × K) :=
  let lane := thread % 32
  let warp := thread / 32
  let h := u32 (block * 8 + warp)
  if h ≥ a.qHeads ∨ a.cacheCap = 0 then []
  else warpLane expf rsqrtf a pos (h * 128) (h / a.repeats) h (h * 128) lane

def attentionPrefillHeads128WarpKernel (a : AttentionArgs K) (pos0 nTok block thread : ℕ) :
    List (ℕ × K) :=
  let warp := thread / 32
  let lane := thread % 32
  let globalWarp := u32 (block * 8 + warp)
  let total := u32 (nTok * a.qHeads)
  if globalWarp ≥ total then [] else
  let t := globalWarp / a.qHeads
  let h := globalWarp - t * a.qHeads
  let qDim := a.qHeads * 128
  warpLane expf rsqrtf a (u32 (pos0 + t)) (t * qDim + h * 128) (h / a.repeats) (t * a.qHeads + h)
    (t * qDim + h * 128) lane

/-- A `float4` of the head that starts at `base`. -/
def float4 (memory : ℕ → K) (base i : ℕ) (c : Fin 4) : K := memory (base + (4 * i + c))

/-- How the threads of a block fill `kv_sh` with the rows from `r0` on. -/
def kvShWrites (a : AttentionArgs K) (kvh r0 nr threads : ℕ) : List (ℕ × (Fin 4 → K)) :=
  (List.range threads).flatMap fun tid => (strided (nr * 64) threads tid).map fun off =>
    let rr := off / 64
    let c4 := off % 64
    let src := if c4 < 32 then a.kCache else a.vCache
    (off, float4 src (a.slot 128 kvh (r0 + rr)) (c4 % 32))

/-- A row of `kv_sh`, for all lanes of a warp and for one of them. -/
def Online.shared (s : Online K) (qv : ℕ → Fin 4 → K) (kvSh : ℕ → Fin 4 → K) (rr lane : ℕ) :
    Online K :=
  let scale := rsqrtf 128
  let score := warpSumF32 (fun lane => dot4F32 (qv lane) (kvSh (rr * 64 + lane))) 0 * scale
  s.next expf score (kvSh (rr * 64 + 32 + lane))

def attentionDecodeHeads128KvgroupAtKernel (a : AttentionArgs K) (pos : ℕ)
    (kvSh : ℕ → Fin 4 → K) (block thread : ℕ) : List (ℕ × K) :=
  if a.cacheCap = 0 then [] else
  let kvh := block
  let lane := thread % 32
  let localHead := thread / 32
  let h := kvh * a.repeats + localHead
  let qv := float4 a.q (h * 128)
  let (s, _) := (a.rows pos).foldl (fun (s, kvSh) r =>
    let kvSh := writeAll (kvShWrites a kvh r 1 (a.repeats * 32)) kvSh
    (s.shared expf rsqrtf qv kvSh 0 lane, kvSh)) (Online.init, kvSh)
  (List.finRange 4).map fun c => (h * 128 + (4 * lane + c.val), s.out expf (a.headGate h) c)

/-! ## The rows in parts -/

/-- What a thread of the split kernel has at its end. -/
def splitThread (a : AttentionArgs K) (start end_ chunkRows split : ℕ) (kvSh : ℕ → Fin 4 → K)
    (kvh thread : ℕ) : Online K :=
  let lane := thread % 32
  let localHead := thread / 32
  let h := kvh * a.repeats + localHead
  let splitStart := u32 (start + u32 (split * chunkRows))
  let splitEnd := u32 (splitStart + chunkRows)
  let splitEnd := if splitEnd > end_ then end_ else splitEnd
  let qv := float4 a.q (h * 128)
  -- for (r0 = split_start; r0 < split_end; r0 += 4)
  let (s, _) := (strided splitEnd 4 splitStart).foldl (fun (s, kvSh) r0 =>
    let nr := if splitEnd - r0 < 4 then splitEnd - r0 else 4
    let kvSh := writeAll (kvShWrites a kvh r0 nr (a.repeats * 32)) kvSh
    let s := (List.range nr).foldl (fun s rr => s.shared expf rsqrtf qv kvSh rr lane) s
    (s, kvSh)) (Online.init, kvSh)
  s

/-- `stat_idx` -/
def statIdx (a : AttentionArgs K) (split kvh thread : ℕ) : ℕ :=
  split * a.qHeads + (kvh * a.repeats + thread / 32)

/-- What a thread of the split kernel writes to `partial_out`, `partial_m` and `partial_s`. -/
def attentionDecodeHeads128KvgroupSplitKernel (a : AttentionArgs K)
    (start end_ chunkRows split : ℕ) (kvSh : ℕ → Fin 4 → K) (kvh thread : ℕ) :
    List (ℕ × (Fin 4 → K)) × List (ℕ × WithBot K) × List (ℕ × K) :=
  let lane := thread % 32
  let s := splitThread expf rsqrtf a start end_ chunkRows split kvSh kvh thread
  let idx := statIdx a split kvh thread
  ([(idx * 32 + lane, s.o)], if lane = 0 then [(idx, s.maxS)] else [],
    if lane = 0 then [(idx, s.sumS)] else [])

/-- `float4_component` -/
def float4Component (v : Fin 4 → K) (c : ℕ) : K :=
  if c = 0 then v 0 else if c = 1 then v 1 else if c = 2 then v 2 else v 3

/-- A reduction over the 128 values of `red`. -/
def reduce128 {σ : Type} (op : σ → σ → σ) (red : ℕ → σ) : σ :=
  halving (fun stride red tid =>
    if tid < stride then op (red tid) (red (tid + stride)) else red tid) 7 red 0

/-- No barrier stands between the read of `red[0]` as `max_s` and the write of `local_sum`: the
warps in `late` read it when the first one has written its sum there. -/
def attentionDecodeHeads128SplitReduceKernel (late : ℕ → Bool) (partialOut : ℕ → Fin 4 → K)
    (partialM : ℕ → WithBot K) (partialS headGate : ℕ → K) (splitCount qHeads h tid : ℕ) :
    List (ℕ × K) :=
  let idx := fun s => s * qHeads + h
  let red0 := reduce128 max fun tid =>
    (strided splitCount 128 tid).foldl (fun localM s => max localM (partialM (idx s))) ⊥
  let localSum := fun (maxS : WithBot K) tid => (strided splitCount 128 tid).foldl
    (fun localSum s => localSum + partialS (idx s) * expDiff expf (partialM (idx s)) maxS) 0
  let maxS := fun tid =>
    if tid / 32 ≠ 0 ∧ late (tid / 32) then ((localSum red0 0 : K) : WithBot K) else red0
  let denom := reduce128 (· + ·) fun tid => localSum (maxS tid) tid
  let partialM := writeAll ((List.range 128).flatMap fun tid =>
    (strided splitCount 128 tid).map fun s =>
      (idx s, ((expDiff expf (partialM (idx s)) (maxS tid) : K) : WithBot K))) partialM
  let inv := if denom > 0 then 1 / denom else 0
  let gate := sigmoidDev expf (headGate h)
  let lane4 := tid / 4
  let comp := tid % 4
  let acc := (List.range splitCount).foldl (fun acc s =>
    let w := (partialM (idx s)).unbotD 0
    let v := partialOut (idx s * 32 + lane4)
    acc + float4Component v comp * w) 0
  [(h * 128 + tid, acc * inv * gate)]

/-- How many parts `attention_decode_heads128_split_launch` makes, when it launches. -/
def splitCount (a : AttentionArgs K) (start end_ chunkRows : ℕ) : Option ℕ :=
  if end_ ≤ start ∨ a.cacheCap = 0 ∨ a.kvHeads = 0 ∨ a.qHeads = 0 then none else
  let rows := end_ - start
  let splitCount := u32 (rows + chunkRows - 1) / chunkRows
  if splitCount ≤ 1 then none
  else if splitCount > 65535 ∨ a.kvHeads > 65535 then none
  else some splitCount

/-! ## Launches -/

def twoPassLaunch (a : AttentionArgs K) (pos : ℕ) : List (ℕ × K) :=
  launch ((a.qHeads * 128 + 255) / 256) 256 fun block thread =>
    attentionDecodeHeadsAtKernel expf rsqrtf a pos 128 (block * 256 + thread)

def warpLaunch (a : AttentionArgs K) (pos : ℕ) : List (ℕ × K) :=
  launch (u32 (a.qHeads + 7) / 8) 256 (attentionDecodeHeads128WarpAtKernel expf rsqrtf a pos)

/-- `kvSh` is what the shared memory of a block holds at first. -/
def kvgroupLaunch (a : AttentionArgs K) (pos : ℕ) (kvSh : ℕ → ℕ → Fin 4 → K) : List (ℕ × K) :=
  launch a.kvHeads (a.repeats * 32) fun block =>
    attentionDecodeHeads128KvgroupAtKernel expf rsqrtf a pos (kvSh block) block

def prefillLaunch (a : AttentionArgs K) (pos0 nTok : ℕ) : List (ℕ × K) :=
  launch ((nTok * a.qHeads + 7) / 8) 256
    (attentionPrefillHeads128WarpKernel expf rsqrtf a pos0 nTok)

/-- What each thread of the first launch of `attention_decode_heads128_split_launch` writes. -/
def splitLaunch (a : AttentionArgs K) (start end_ chunkRows splitCount : ℕ)
    (kvSh : ℕ → ℕ → ℕ → Fin 4 → K) :
    List (List (ℕ × (Fin 4 → K)) × List (ℕ × WithBot K) × List (ℕ × K)) :=
  (List.range splitCount).flatMap fun split => launch a.kvHeads (a.repeats * 32) fun kvh thread =>
    [attentionDecodeHeads128KvgroupSplitKernel expf rsqrtf a start end_ chunkRows split
      (kvSh split kvh) kvh thread]

/-- The two launches of `attention_decode_heads128_split_launch` write `writes` to `out_heads`.
The writes of the first come in any order, and its memory holds anything before. In each block of
the second any warps may be late. -/
def SplitRuns (a : AttentionArgs K) (start end_ chunkRows : ℕ) (writes : List (ℕ × K)) : Prop :=
  ∃ n, splitCount a start end_ chunkRows = some n ∧
  ∃ kvSh, ∃ threads, threads = splitLaunch expf rsqrtf a start end_ chunkRows n kvSh ∧
  ∃ (out : List (ℕ × (Fin 4 → K))) (m : List (ℕ × WithBot K)) (s : List (ℕ × K)),
    out.Perm (threads.flatMap fun t => t.1) ∧ m.Perm (threads.flatMap fun t => t.2.1) ∧
    s.Perm (threads.flatMap fun t => t.2.2) ∧
  ∃ (partialOut : ℕ → Fin 4 → K) (partialM : ℕ → WithBot K) (partialS : ℕ → K),
  ∃ late : ℕ → ℕ → Bool,
    writes = launch a.qHeads 128 fun h => attentionDecodeHeads128SplitReduceKernel expf (late h)
      (writeAll out partialOut) (writeAll m partialM) (writeAll s partialS) a.headGate n a.qHeads h

/-- What the environment says of the paths. -/
structure AttentionEnv where
  noWarpAttention : Bool
  noKvGroupAttention : Bool
  splitEnabled : Bool
  splitMinRows : ℕ
  splitChunkRows : ℕ

/-- `sf37_cuda_attention_decode_heads_at` for heads of 128, behind its checks, writes `writes`. The
split launch may also fail, when there is no memory for it. -/
def DecodeHeadsAt (env : AttentionEnv) (a : AttentionArgs K) (pos : ℕ)
    (writes : List (ℕ × K)) : Prop :=
  if env.noWarpAttention then writes = twoPassLaunch expf rsqrtf a pos
  else if a.repeats ≤ 16 ∧ ¬ env.noKvGroupAttention then
    let have_ := u32 (pos + 1)
    let start := a.start pos
    (env.splitEnabled ∧ have_ > start ∧ have_ - start ≥ env.splitMinRows ∧
      SplitRuns expf rsqrtf a start (u32 (pos + 1)) env.splitChunkRows writes) ∨
    ∃ kvSh, writes = kvgroupLaunch expf rsqrtf a pos kvSh
  else writes = warpLaunch expf rsqrtf a pos

end Sf37.Cuda

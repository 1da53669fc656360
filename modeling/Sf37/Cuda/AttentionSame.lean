/-
Sf37.Cuda.AttentionSame — when all the attention kernels compute the same.

The second of the two split kernels reads the highest score where its first thread writes its sum,
and no barrier parts the two. A warp that is late takes that sum for the highest score.

* `gives_twoPass`, `gives_warp`, `gives_kvgroup`, `gives_prefill`: what each launch leaves in the
  output.
* `gives_split`: what the split launch leaves, with the warps that are late.
* `splitRuns_give_iff`: when that is right in every run.
* `attentionPaths_same_iff`: when all the paths leave the gate times the softmax-weighted sum.
-/
import Mathlib.Analysis.Complex.Exponential
import Mathlib.Analysis.Real.Sqrt
import Sf37.Cuda.AttentionSplit

namespace Sf37.Cuda

open Run

variable {K : Type}

/-! ## The columns of a lane -/

theorem lane_lt {lane i : ℕ} (hlane : lane < 32) (hi : i ∈ [0, 32, 64, 96]) : lane + i < 128 := by
  simp only [List.mem_cons, List.not_mem_nil, or_false] at hi
  omega

theorem lane_of_column {d : ℕ} (hd : d < 128) : ∃ i ∈ [0, 32, 64, 96], d % 32 + i = d := by
  rcases (by omega : d / 32 = 0 ∨ d / 32 = 1 ∨ d / 32 = 2 ∨ d / 32 = 3) with h | h | h | h
  · exact ⟨0, by simp, by omega⟩
  · exact ⟨32, by simp, by omega⟩
  · exact ⟨64, by simp, by omega⟩
  · exact ⟨96, by simp, by omega⟩

/-! ## The launches -/

section Launches

variable [Field K] [LinearOrder K] {expf rsqrtf : K → K}

theorem attention_of_head (a : AttentionArgs K) (pos hd : ℕ) {d : ℕ} (hdim : d < 128) :
    a.attention expf rsqrtf pos (hd * 128 + d) =
      a.headOut expf rsqrtf pos (hd * 128) (hd / a.repeats) hd d := by
  rw [AttentionArgs.attention, show (hd * 128 + d) / 128 = hd by omega,
    show (hd * 128 + d) % 128 = d by omega]

theorem headOut_token (a : AttentionArgs K) (t pos qh kvh gate d : ℕ) :
    (a.token t).headOut expf rsqrtf pos qh kvh gate d =
      a.headOut expf rsqrtf pos (t * (a.qHeads * 128) + qh) kvh (t * a.qHeads + gate) d := by
  simp only [AttentionArgs.headOut, AttentionArgs.scored, AttentionArgs.score,
    AttentionArgs.token, Nat.add_assoc]
  rfl

variable [IsStrictOrderedRing K]

theorem gives_twoPass (h : Exponential expf) {a : AttentionArgs K} (ha : a.Ready) {pos : ℕ}
    (hpos : pos + 1 < 4294967296) :
    Gives (twoPassLaunch expf rsqrtf a pos) (a.qHeads * 128) (a.attention expf rsqrtf pos) := by
  refine gives_launch (fun block _ thread _ w hw => ?_) fun p hp => ?_
  · by_cases hgid : block * 256 + thread < a.qHeads * 128
    · rw [attentionDecodeHeadsAtKernel_eq h a hpos ha.cap hgid] at hw
      rw [List.mem_singleton.mp hw]
      exact ⟨hgid, rfl⟩
    · rw [attentionDecodeHeadsAtKernel, if_pos (by omega)] at hw
      cases hw
  · refine ⟨p / 256, by omega, p % 256, Nat.mod_lt _ (by decide), ?_⟩
    rw [Nat.div_add_mod', attentionDecodeHeadsAtKernel_eq h a hpos ha.cap hp]
    exact List.mem_singleton_self _

theorem gives_warp (h : Exponential expf) {a : AttentionArgs K} (ha : a.Ready) {pos : ℕ}
    (hpos : pos + 1 < 4294967296) :
    Gives (warpLaunch expf rsqrtf a pos) (a.qHeads * 128) (a.attention expf rsqrtf pos) := by
  have hheads := ha.heads
  rw [warpLaunch, u32_of_lt hheads]
  refine gives_launch (fun block hblock thread hthread w hw => ?_) fun p hp => ?_
  · rw [attentionDecodeHeads128WarpAtKernel, u32_of_lt (by omega)] at hw
    split at hw
    · cases hw
    next hhead =>
      rw [warpLane_eq h a hpos] at hw
      obtain ⟨i, hi, rfl⟩ := List.mem_map.mp hw
      have hcol := lane_lt (Nat.mod_lt thread (by decide)) hi
      exact ⟨by dsimp only; omega, (attention_of_head a pos _ hcol).symm⟩
  · obtain ⟨i, hi, hcol⟩ := lane_of_column (Nat.mod_lt p (by decide : 0 < 128))
    have hcap := ha.cap
    refine ⟨p / 128 / 8, by omega, p / 128 % 8 * 32 + p % 128 % 32, by omega, ?_⟩
    rw [attentionDecodeHeads128WarpAtKernel, u32_of_lt (by omega), if_neg (by omega),
      warpLane_eq h a hpos, List.map_map]
    refine List.mem_map.mpr ⟨i, hi, ?_⟩
    show (p / 128 / 8 * 8 + (p / 128 % 8 * 32 + p % 128 % 32) / 32) * 128 +
      ((p / 128 % 8 * 32 + p % 128 % 32) % 32 + i) = p
    omega

theorem gives_kvgroup (h : Exponential expf) {a : AttentionArgs K} (ha : a.Ready) {pos : ℕ}
    (hpos : pos + 1 < 4294967296) (kvSh : ℕ → ℕ → Fin 4 → K) :
    Gives (kvgroupLaunch expf rsqrtf a pos kvSh) (a.qHeads * 128)
      (a.attention expf rsqrtf pos) := by
  refine gives_launch (fun kvh hkvh thread hthread w hw => ?_) fun p hp => ?_
  · rw [attentionDecodeHeads128KvgroupAtKernel_eq h a hpos ha.cap _ hthread] at hw
    obtain ⟨c, -, rfl⟩ := List.mem_map.mp hw
    obtain ⟨hhead, hgroup⟩ := ha.group hkvh (l := thread / 32) (by omega)
    have hcol : 4 * (thread % 32) + c.val < 128 := by omega
    refine ⟨by dsimp only; omega, ?_⟩
    dsimp only
    rw [attention_of_head a pos _ hcol, hgroup]
  · obtain ⟨hkvh, hl, hsplit⟩ := ha.group_of_head (by omega : p / 128 < a.qHeads)
    refine ⟨_, hkvh, p / 128 % a.repeats * 32 + p % 128 / 4, by omega, ?_⟩
    rw [attentionDecodeHeads128KvgroupAtKernel_eq h a hpos ha.cap _ (by omega), List.map_map]
    refine List.mem_map.mpr ⟨⟨p % 4, Nat.mod_lt _ (by decide)⟩, List.mem_finRange _, ?_⟩
    show (p / 128 / a.repeats * a.repeats + (p / 128 % a.repeats * 32 + p % 128 / 4) / 32) * 128 +
      (4 * ((p / 128 % a.repeats * 32 + p % 128 / 4) % 32) + p % 4) = p
    rw [show (p / 128 % a.repeats * 32 + p % 128 / 4) / 32 = p / 128 % a.repeats by omega, hsplit]
    omega

/-! ## Prefill -/

/-- What a thread of the prefill kernel writes: its warp `g` is a head of a token. -/
theorem attentionPrefillHeads128WarpKernel_eq (h : Exponential expf) (a : AttentionArgs K)
    {pos0 nTok block thread g : ℕ} (hpos : pos0 + nTok < 4294967296)
    (hwarps : nTok * a.qHeads < 4294967296) (hwarp : block * 8 + thread / 32 = g)
    (hg : g < nTok * a.qHeads) :
    attentionPrefillHeads128WarpKernel expf rsqrtf a pos0 nTok block thread =
      [0, 32, 64, 96].map fun i => (g * 128 + (thread % 32 + i),
        (a.token (g / a.qHeads)).attention expf rsqrtf (pos0 + g / a.qHeads)
          (g % a.qHeads * 128 + (thread % 32 + i))) := by
  have hheads : 0 < a.qHeads := Nat.pos_of_ne_zero fun hzero => by simp [hzero] at hg
  have ht : g / a.qHeads < nTok := (Nat.div_lt_iff_lt_mul hheads).mpr hg
  have hsplit := Nat.div_add_mod' g a.qHeads
  have hhd : g - g / a.qHeads * a.qHeads = g % a.qHeads := by omega
  have hplace : g / a.qHeads * (a.qHeads * 128) + g % a.qHeads * 128 = g * 128 := by
    rw [← Nat.mul_assoc, ← Nat.add_mul, hsplit]
  rw [attentionPrefillHeads128WarpKernel, hwarp, u32_of_lt (by omega), u32_of_lt hwarps,
    if_neg (by omega)]
  dsimp only
  rw [hhd, hsplit, hplace, u32_of_lt (by omega), warpLane_eq h a (by omega)]
  refine List.map_congr_left fun i hi => Prod.ext rfl ?_
  have hcol := lane_lt (Nat.mod_lt thread (by decide)) hi
  dsimp only
  rw [attention_of_head _ _ _ hcol, headOut_token, hsplit, hplace]
  rfl

theorem gives_prefill (h : Exponential expf) {a : AttentionArgs K} {pos0 nTok : ℕ}
    (hpos : pos0 + nTok < 4294967296) (hwarps : nTok * a.qHeads + 7 < 4294967296) :
    Gives (prefillLaunch expf rsqrtf a pos0 nTok) (nTok * (a.qHeads * 128)) fun p =>
      (a.token (p / (a.qHeads * 128))).attention expf rsqrtf (pos0 + p / (a.qHeads * 128))
        (p % (a.qHeads * 128)) := by
  rw [← Nat.mul_assoc]
  refine gives_launch (fun block hblock thread hthread w hw => ?_) fun p hp => ?_
  · obtain ⟨g, hg⟩ : ∃ g, block * 8 + thread / 32 = g := ⟨_, rfl⟩
    by_cases hlt : g < nTok * a.qHeads
    · rw [attentionPrefillHeads128WarpKernel_eq h a hpos (by omega) hg hlt] at hw
      obtain ⟨i, hi, rfl⟩ := List.mem_map.mp hw
      have hcol := lane_lt (Nat.mod_lt thread (by decide)) hi
      have hplace : (g * 128 + (thread % 32 + i)) / 128 = g := by omega
      have hrest : (g * 128 + (thread % 32 + i)) % 128 = thread % 32 + i := by omega
      refine ⟨by dsimp only; omega, ?_⟩
      dsimp only
      rw [Nat.mul_comm a.qHeads, ← Nat.div_div_eq_div_mul, Nat.mod_mul, hplace, hrest,
        Nat.add_comm (thread % 32 + i), Nat.mul_comm 128 (g % a.qHeads)]
    · rw [attentionPrefillHeads128WarpKernel, hg, u32_of_lt (by omega), u32_of_lt (by omega),
        if_pos (by omega)] at hw
      cases hw
  · obtain ⟨i, hi, hcol⟩ := lane_of_column (Nat.mod_lt p (by decide : 0 < 128))
    refine ⟨p / 128 / 8, by omega, p / 128 % 8 * 32 + p % 128 % 32, by omega, ?_⟩
    rw [attentionPrefillHeads128WarpKernel_eq (g := p / 128) h a hpos (by omega) (by omega)
      (by omega), List.map_map]
    refine List.mem_map.mpr ⟨i, hi, ?_⟩
    show p / 128 * 128 + ((p / 128 % 8 * 32 + p % 128 % 32) % 32 + i) = p
    omega

/-! ## The parts -/

namespace AttentionArgs

/-- The rows of a part, for a head and a column. -/
def partRows (rsqrtf : K → K) (a : AttentionArgs K) (pos chunkRows hd d s : ℕ) : List (K × K) :=
  a.scored rsqrtf (hd * 128) (hd / a.repeats) d (part (a.start pos) (pos + 1) chunkRows s)

omit [LinearOrder K] [IsStrictOrderedRing K] in
theorem flatMap_partRows (a : AttentionArgs K) (pos chunkRows hd d : ℕ) (l : List ℕ) :
    l.flatMap (a.partRows rsqrtf pos chunkRows hd d) = a.scored rsqrtf (hd * 128) (hd / a.repeats) d
      (l.flatMap (part (a.start pos) (pos + 1) chunkRows)) :=
  (scored_flatMap a ..).symm

/-- The highest score of a head. -/
def highestScore (rsqrtf : K → K) (a : AttentionArgs K) (pos hd : ℕ) : WithBot K :=
  ((a.positions pos).map (a.score rsqrtf (hd * 128) (hd / a.repeats))).maximum

omit [IsStrictOrderedRing K] in
theorem highestScore_coe (rsqrtf : K → K) (a : AttentionArgs K) {pos : ℕ} (h : a.positions pos ≠ [])
    (hd : ℕ) : ∃ top : K, a.highestScore rsqrtf pos hd = top :=
  (WithBot.ne_bot_iff_exists.mp (List.maximum_ne_bot_of_ne_nil (by simpa using h))).imp
    fun _ => Eq.symm

/-- The sum of the first thread of the second kernel: the weights of its parts. -/
def firstSum (expf rsqrtf : K → K) (a : AttentionArgs K) (pos chunkRows n hd : ℕ) : K :=
  (((strided n 128 0).flatMap (part (a.start pos) (pos + 1) chunkRows)).map fun r =>
    expDiff expf (a.score rsqrtf (hd * 128) (hd / a.repeats) r : K) (a.highestScore rsqrtf pos hd)).sum

/-- The positions of the parts that a warp of the second kernel brings together. -/
def warpPositions (a : AttentionArgs K) (pos chunkRows n warp : ℕ) : List ℕ :=
  ((List.range n).filter fun s => s % 128 / 32 = warp).flatMap
    (part (a.start pos) (pos + 1) chunkRows)

/-- It makes no difference when a warp takes the sum of the first thread for the highest score:
either the two weigh the same, or the rows of each warp behind the first have the mean of all. -/
def LateReadHarmless (expf rsqrtf : K → K) (a : AttentionArgs K) (pos chunkRows n : ℕ) : Prop :=
  ∀ hd < a.qHeads,
    expDiff expf (a.firstSum expf rsqrtf pos chunkRows n hd : K) (a.highestScore rsqrtf pos hd) = 1 ∨
      ∀ warp, 0 < warp → a.warpPositions pos chunkRows n warp ≠ [] → ∀ d < 128,
        softmax expf (a.scored rsqrtf (hd * 128) (hd / a.repeats) d
            (a.warpPositions pos chunkRows n warp)) =
          softmax expf (a.scored rsqrtf (hd * 128) (hd / a.repeats) d (a.positions pos))

/-- What the split kernel and its reduction leave for a head and a column. -/
def lateOut (expf rsqrtf : K → K) (a : AttentionArgs K) (pos chunkRows n : ℕ) (late : ℕ → ℕ → Bool)
    (hd d : ℕ) : K :=
  mixed expf n (a.partRows rsqrtf pos chunkRows hd d) (fun s => lateMax (late hd)
    ((a.highestScore rsqrtf pos hd).unbotD 0) (a.firstSum expf rsqrtf pos chunkRows n hd) (s % 128)) *
      sigmoidDev expf (a.headGate hd)

end AttentionArgs

omit [Field K] [LinearOrder K] [IsStrictOrderedRing K] in
/-- The parts that are made. -/
theorem parts_of_splitCount {a : AttentionArgs K} {pos chunkRows n : ℕ} (hpos : pos < 2147483648)
    (hchunk : 0 < chunkRows) (hle : chunkRows ≤ 2147483648)
    (hn : splitCount a (a.start pos) (u32 (pos + 1)) chunkRows = some n) :
    0 < n ∧ (∀ split < n, a.start pos + split * chunkRows < pos + 1) ∧
      (List.range n).flatMap (part (a.start pos) (pos + 1) chunkRows) = a.positions pos := by
  rw [u32_of_lt (by omega), splitCount] at hn
  split at hn
  · cases hn
  dsimp only at hn
  rw [u32_of_lt (by omega)] at hn
  split at hn
  · cases hn
  split at hn
  · cases hn
  obtain rfl := Option.some.inj hn
  refine ⟨by omega, fun split hsplit => ?_, ?_⟩
  · rw [Nat.lt_div_iff_mul_lt hchunk] at hsplit
    omega
  · rw [flatMap_part hchunk, AttentionArgs.positions, ← a.start_eq (by omega)]

theorem part_ne_nil {start end_ chunkRows split : ℕ} (hchunk : 0 < chunkRows)
    (h : start + split * chunkRows < end_) : part start end_ chunkRows split ≠ [] := by
  rw [part, Ne, List.range'_eq_nil_iff]
  split <;> omega

omit [Field K] [LinearOrder K] [IsStrictOrderedRing K] in
theorem positions_ne_nil {a : AttentionArgs K} {pos chunkRows n : ℕ} (hpos : pos < 2147483648)
    (hchunk : 0 < chunkRows) (hle : chunkRows ≤ 2147483648)
    (hn : splitCount a (a.start pos) (u32 (pos + 1)) chunkRows = some n) : a.positions pos ≠ [] := by
  obtain ⟨hcount, hpart, hall⟩ := parts_of_splitCount hpos hchunk hle hn
  rw [← hall, Ne, List.flatMap_eq_nil_iff]
  exact fun hnil => part_ne_nil hchunk (hpart 0 hcount) (hnil 0 (List.mem_range.mpr hcount))

/-- The split kernel and its reduction, with warps that are late. -/
theorem gives_split (h : Exponential expf) (rsqrtf : K → K) {a : AttentionArgs K} (ha : a.Ready)
    {pos chunkRows n : ℕ} (hpos : pos < 2147483648) (hchunk : 0 < chunkRows)
    (hle : chunkRows ≤ 2147483648)
    (hn : splitCount a (a.start pos) (u32 (pos + 1)) chunkRows = some n)
    (kvSh : ℕ → ℕ → ℕ → Fin 4 → K) {out : List (ℕ × (Fin 4 → K))} {m : List (ℕ × WithBot K)}
    {s : List (ℕ × K)}
    (hout : out.Perm ((splitLaunch expf rsqrtf a (a.start pos) (u32 (pos + 1)) chunkRows n
      kvSh).flatMap fun t => t.1))
    (hm : m.Perm ((splitLaunch expf rsqrtf a (a.start pos) (u32 (pos + 1)) chunkRows n
      kvSh).flatMap fun t => t.2.1))
    (hs : s.Perm ((splitLaunch expf rsqrtf a (a.start pos) (u32 (pos + 1)) chunkRows n
      kvSh).flatMap fun t => t.2.2))
    (partialOut : ℕ → Fin 4 → K) (partialM : ℕ → WithBot K) (partialS : ℕ → K)
    (late : ℕ → ℕ → Bool) :
    Gives (launch a.qHeads 128 fun hd => attentionDecodeHeads128SplitReduceKernel expf (late hd)
      (writeAll out partialOut) (writeAll m partialM) (writeAll s partialS) a.headGate n a.qHeads hd)
        (a.qHeads * 128) fun p => a.lateOut expf rsqrtf pos chunkRows n late (p / 128) (p % 128) := by
  obtain ⟨hcount, hpart, hall⟩ := parts_of_splitCount hpos hchunk hle hn
  rw [u32_of_lt (by omega)] at hout hm hs
  have hhead : ∀ hd < a.qHeads, ∀ tid < 128, attentionDecodeHeads128SplitReduceKernel expf (late hd)
      (writeAll out partialOut) (writeAll m partialM) (writeAll s partialS) a.headGate n a.qHeads
        hd tid = [(hd * 128 + tid, a.lateOut expf rsqrtf pos chunkRows n late hd tid)] := by
    intro hd hhd tid htid
    have hmax : ∀ split < n, writeAll m partialM (split * a.qHeads + hd) =
        highest (a.partRows rsqrtf pos chunkRows hd tid split) := by
      intro split hsplit
      rw [writeAll_partialStat ha (fun t => t.2.1) Online.maxS (fun _ _ _ _ => rfl) hle (by omega) hm
        hsplit (hpart split hsplit) hhd, partLane_maxS (d := tid)]
      rfl
    have hrows : (List.range n).flatMap (a.partRows rsqrtf pos chunkRows hd tid) =
        a.scored rsqrtf (hd * 128) (hd / a.repeats) tid (a.positions pos) := by
      rw [a.flatMap_partRows, hall]
    have hhighest : highest (a.scored rsqrtf (hd * 128) (hd / a.repeats) tid (a.positions pos)) =
        a.highestScore rsqrtf pos hd := by
      rw [highest, AttentionArgs.scored, List.map_map]
      rfl
    obtain ⟨top, htop⟩ : ∃ top : K, a.highestScore rsqrtf pos hd = top :=
      a.highestScore_coe rsqrtf (positions_ne_nil hpos hchunk hle hn) hd
    have hfirst : ((strided n 128 0).map fun split =>
        expf (-top) * weightSum expf (a.partRows rsqrtf pos chunkRows hd tid split)).sum =
          a.firstSum expf rsqrtf pos chunkRows n hd := by
      rw [List.sum_map_mul_left, ← weightSum_flatMap, ← (scaled_passes h _ top).1,
        AttentionArgs.firstSum, htop]
      rw [a.flatMap_partRows, AttentionArgs.scored, List.map_map]
      rfl
    rw [attentionDecodeHeads128SplitReduceKernel_eq h (late hd) hhd hcount
      (a.partRows rsqrtf pos chunkRows hd tid) ?_ hmax ?_ (by rw [hrows, hhighest, htop]) hfirst,
      AttentionArgs.lateOut, htop]
    · rfl
    · rw [AttentionArgs.partRows, AttentionArgs.scored, Ne, List.map_eq_nil_iff]
      exact part_ne_nil hchunk (hpart 0 hcount)
    · intro split hsplit
      have hlt := hpart split hsplit
      rw [writeAll_partialOut ha hle (by omega) hout hsplit hlt hhd (by omega),
        writeAll_partialStat ha (fun t => t.2.1) Online.maxS (fun _ _ _ _ => rfl) hle (by omega) hm
          hsplit hlt hhd,
        writeAll_partialStat ha (fun t => t.2.2) Online.sumS (fun _ _ _ _ => rfl) hle (by omega) hs
          hsplit hlt hhd]
      exact scaled_partLane h a _ _ _ _ _ _
  refine gives_launch (fun hd hhd tid htid w hw => ?_) fun p hp => ?_
  · rw [hhead hd hhd tid htid] at hw
    rw [List.mem_singleton.mp hw]
    dsimp only
    rw [show (hd * 128 + tid) / 128 = hd by omega, show (hd * 128 + tid) % 128 = tid by omega]
    exact ⟨by omega, rfl⟩
  · refine ⟨p / 128, by omega, p % 128, Nat.mod_lt _ (by decide), ?_⟩
    rw [hhead _ (by omega) _ (Nat.mod_lt _ (by decide)), Nat.div_add_mod']
    exact List.mem_singleton_self _

/-! ## Late warps -/

theorem sigmoidDev_pos (h : Exponential expf) (x : K) :
    0 < sigmoidDev expf x := by
  have hx := h.pos x
  have hneg := h.pos (-x)
  rw [sigmoidDev]
  split
  · exact div_pos one_pos (add_pos one_pos hneg)
  · exact div_pos hx (add_pos one_pos hx)

/-- Late warps leave what they should if and only if the highest score and what they take for it
weigh the same, or their parts have the mean of all. -/
theorem lateOut_eq_iff (h : Exponential expf) (rsqrtf : K → K) {a : AttentionArgs K} {pos chunkRows n : ℕ}
    (hpos : pos < 2147483648) (hchunk : 0 < chunkRows) (hle : chunkRows ≤ 2147483648)
    (hn : splitCount a (a.start pos) (u32 (pos + 1)) chunkRows = some n) (late : ℕ → ℕ → Bool)
    (hd : ℕ) {d : ℕ} (hdim : d < 128) :
    a.lateOut expf rsqrtf pos chunkRows n late hd d = a.attention expf rsqrtf pos (hd * 128 + d) ↔
      expDiff expf (a.firstSum expf rsqrtf pos chunkRows n hd : K) (a.highestScore rsqrtf pos hd) = 1 ∨
        (∑ s ∈ Finset.range n with s % 128 / 32 ≠ 0 ∧ late hd (s % 128 / 32),
          valueSum expf (a.partRows rsqrtf pos chunkRows hd d s)) *
            weightSum expf (a.scored rsqrtf (hd * 128) (hd / a.repeats) d (a.positions pos)) =
        valueSum expf (a.scored rsqrtf (hd * 128) (hd / a.repeats) d (a.positions pos)) *
          ∑ s ∈ Finset.range n with s % 128 / 32 ≠ 0 ∧ late hd (s % 128 / 32),
            weightSum expf (a.partRows rsqrtf pos chunkRows hd d s) := by
  obtain ⟨hcount, hpart, hall⟩ := parts_of_splitCount hpos hchunk hle hn
  obtain ⟨top, htop⟩ := a.highestScore_coe rsqrtf (positions_ne_nil hpos hchunk hle hn) hd
  have hrows : ∃ s < n, a.partRows rsqrtf pos chunkRows hd d s ≠ [] := by
    refine ⟨0, hcount, ?_⟩
    rw [AttentionArgs.partRows, AttentionArgs.scored, Ne, List.map_eq_nil_iff]
    exact part_ne_nil hchunk (hpart 0 hcount)
  have hmixed := mixed_eq_iff h (fun s => s % 128 / 32 ≠ 0 ∧ late hd (s % 128 / 32)) top
    (a.firstSum expf rsqrtf pos chunkRows n hd) hrows
  rw [a.flatMap_partRows, hall] at hmixed
  rw [attention_of_head a pos hd hdim, AttentionArgs.headOut, AttentionArgs.lateOut, htop,
    mul_left_inj' (sigmoidDev_pos h _).ne', expDiff_coe]
  exact hmixed

/-- The parts of a warp have the mean of all. -/
theorem warp_mean_iff (h : Exponential expf) {a : AttentionArgs K} {pos chunkRows n hd d warp : ℕ}
    (hrows : a.positions pos ≠ []) :
    (a.warpPositions pos chunkRows n warp ≠ [] →
      softmax expf (a.scored rsqrtf (hd * 128) (hd / a.repeats) d
          (a.warpPositions pos chunkRows n warp)) =
        softmax expf (a.scored rsqrtf (hd * 128) (hd / a.repeats) d (a.positions pos))) ↔
    (∑ s ∈ Finset.range n with s % 128 / 32 = warp,
      valueSum expf (a.partRows rsqrtf pos chunkRows hd d s)) *
        weightSum expf (a.scored rsqrtf (hd * 128) (hd / a.repeats) d (a.positions pos)) =
    valueSum expf (a.scored rsqrtf (hd * 128) (hd / a.repeats) d (a.positions pos)) *
      ∑ s ∈ Finset.range n with s % 128 / 32 = warp,
        weightSum expf (a.partRows rsqrtf pos chunkRows hd d s) := by
  have hvalue : ∑ s ∈ Finset.range n with s % 128 / 32 = warp,
      valueSum expf (a.partRows rsqrtf pos chunkRows hd d s) =
        valueSum expf (a.scored rsqrtf (hd * 128) (hd / a.repeats) d
          (a.warpPositions pos chunkRows n warp)) := by
    rw [AttentionArgs.warpPositions, ← a.flatMap_partRows, valueSum_flatMap]
    rfl
  have hweight : ∑ s ∈ Finset.range n with s % 128 / 32 = warp,
      weightSum expf (a.partRows rsqrtf pos chunkRows hd d s) =
        weightSum expf (a.scored rsqrtf (hd * 128) (hd / a.repeats) d
          (a.warpPositions pos chunkRows n warp)) := by
    rw [AttentionArgs.warpPositions, ← a.flatMap_partRows, weightSum_flatMap]
    rfl
  rw [hvalue, hweight]
  by_cases hnil : a.warpPositions pos chunkRows n warp = []
  · rw [hnil]
    simp [AttentionArgs.scored, valueSum, weightSum]
  · rw [← softmax_eq_iff h (by simpa [AttentionArgs.scored] using hnil)
      (by simpa [AttentionArgs.scored] using hrows)]
    exact forall_prop_of_true hnil

/-- Every run of the two launches leaves what it should if and only if a late read is harmless. -/
theorem splitRuns_give_iff (h : Exponential expf) {a : AttentionArgs K} (ha : a.Ready)
    {pos chunkRows : ℕ} (hpos : pos < 2147483648) (hchunk : 0 < chunkRows)
    (hle : chunkRows ≤ 2147483648) :
    (∀ writes, SplitRuns expf rsqrtf a (a.start pos) (u32 (pos + 1)) chunkRows writes →
      Gives writes (a.qHeads * 128) (a.attention expf rsqrtf pos)) ↔
    ∀ n, splitCount a (a.start pos) (u32 (pos + 1)) chunkRows = some n →
      a.LateReadHarmless expf rsqrtf pos chunkRows n := by
  constructor
  · intro hgives n hn hd hhd
    by_cases hone : expDiff expf (a.firstSum expf rsqrtf pos chunkRows n hd : K)
        (a.highestScore rsqrtf pos hd) = 1
    · exact Or.inl hone
    refine Or.inr fun warp hwarp hne d hdim => ?_
    -- only this warp is late
    have hlate := gives_split h rsqrtf ha hpos hchunk hle hn (fun _ _ _ _ => 0) (.refl _) (.refl _)
      (.refl _) (fun _ _ => 0) (fun _ => ⊥) (fun _ => 0) fun _ w => decide (w = warp)
    have hright := hgives _ ⟨n, hn, fun _ _ _ _ => 0, _, rfl, _, _, _, .refl _, .refl _, .refl _,
      fun _ _ => 0, fun _ => ⊥, fun _ => 0, fun _ w => decide (w = warp), rfl⟩
    have hsame := hlate.unique hright (i := hd * 128 + d) (by omega)
    rw [show (hd * 128 + d) / 128 = hd by omega, show (hd * 128 + d) % 128 = d by omega] at hsame
    have hsum := ((lateOut_eq_iff h rsqrtf hpos hchunk hle hn _ hd hdim).mp hsame).resolve_left hone
    have hfilter : ∀ s, (s % 128 / 32 ≠ 0 ∧ decide (s % 128 / 32 = warp) = true) ↔
        s % 128 / 32 = warp := fun s => by
      rw [decide_eq_true_iff]
      omega
    simp only [hfilter] at hsum
    exact (warp_mean_iff h (positions_ne_nil hpos hchunk hle hn)).mpr hsum hne
  · rintro hharmless writes ⟨n, hn, kvSh, threads, rfl, out, m, s, hout, hm, hs, partialOut, partialM,
      partialS, late, rfl⟩
    refine (gives_split h rsqrtf ha hpos hchunk hle hn kvSh hout hm hs partialOut partialM partialS late).congr
      fun p hp => ?_
    have hsame := lateOut_eq_iff h rsqrtf hpos hchunk hle hn late (p / 128)
      (Nat.mod_lt p (by decide : 0 < 128))
    rw [Nat.div_add_mod'] at hsame
    refine hsame.mpr ((hharmless n hn (p / 128) (by omega)).imp_right fun hmeans => ?_)
    have hzero := sum_classes_eq_zero (n := n) (fun s => s % 128 / 32)
      (fun warp => warp ≠ 0 ∧ late (p / 128) warp = true)
      (x := fun s => valueSum expf (a.partRows rsqrtf pos chunkRows (p / 128) (p % 128) s) *
        weightSum expf (a.scored rsqrtf (p / 128 * 128) (p / 128 / a.repeats) (p % 128)
          (a.positions pos)) -
        valueSum expf (a.scored rsqrtf (p / 128 * 128) (p / 128 / a.repeats) (p % 128)
          (a.positions pos)) *
            weightSum expf (a.partRows rsqrtf pos chunkRows (p / 128) (p % 128) s))
      fun warp hwarp => by
        rw [Finset.sum_sub_distrib, ← Finset.sum_mul, ← Finset.mul_sum, sub_eq_zero]
        exact (warp_mean_iff h (positions_ne_nil hpos hchunk hle hn)).mp fun hne =>
          hmeans warp (Nat.pos_of_ne_zero hwarp.1) hne _ (Nat.mod_lt _ (by decide))
    rwa [Finset.sum_sub_distrib, ← Finset.sum_mul, ← Finset.mul_sum, sub_eq_zero] at hzero

/-! ## All of them -/

/-- All the paths leave the gate times the softmax-weighted sum of the values at the positions
that are attended to, in whatever order the threads write. -/
structure SameAttention (expf rsqrtf : K → K) (a : AttentionArgs K) (pos chunkRows : ℕ) : Prop where
  twoPass : Gives (twoPassLaunch expf rsqrtf a pos) (a.qHeads * 128) (a.attention expf rsqrtf pos)
  warp : Gives (warpLaunch expf rsqrtf a pos) (a.qHeads * 128) (a.attention expf rsqrtf pos)
  kvgroup : ∀ kvSh, Gives (kvgroupLaunch expf rsqrtf a pos kvSh) (a.qHeads * 128)
    (a.attention expf rsqrtf pos)
  split : ∀ writes, SplitRuns expf rsqrtf a (a.start pos) (u32 (pos + 1)) chunkRows writes →
    Gives writes (a.qHeads * 128) (a.attention expf rsqrtf pos)
  launched : ∀ env, env.splitChunkRows = chunkRows → ∀ writes,
    DecodeHeadsAt expf rsqrtf env a pos writes →
      Gives writes (a.qHeads * 128) (a.attention expf rsqrtf pos)
  prefill : ∀ pos0 nTok, pos0 + nTok ≤ 2147483648 → nTok * a.qHeads ≤ 2147483648 →
    Gives (prefillLaunch expf rsqrtf a pos0 nTok) (nTok * (a.qHeads * 128)) fun p =>
      (a.token (p / (a.qHeads * 128))).attention expf rsqrtf (pos0 + p / (a.qHeads * 128))
        (p % (a.qHeads * 128))

/-- Whichever of them the launcher takes. -/
theorem decodeHeadsAt_gives (h : Exponential expf) {a : AttentionArgs K} (ha : a.Ready)
    {env : AttentionEnv} {pos : ℕ} (hpos : pos < 2147483648)
    (hsplit : ∀ writes, SplitRuns expf rsqrtf a (a.start pos) (u32 (pos + 1)) env.splitChunkRows
      writes → Gives writes (a.qHeads * 128) (a.attention expf rsqrtf pos))
    {writes : List (ℕ × K)} (hruns : DecodeHeadsAt expf rsqrtf env a pos writes) :
    Gives writes (a.qHeads * 128) (a.attention expf rsqrtf pos) := by
  rw [DecodeHeadsAt] at hruns
  split at hruns
  · rw [hruns]
    exact gives_twoPass h ha (by omega)
  split at hruns
  · rcases hruns with ⟨-, -, -, hruns⟩ | ⟨kvSh, rfl⟩
    · exact hsplit writes hruns
    · exact gives_kvgroup h ha (by omega) kvSh
  · rw [hruns]
    exact gives_warp h ha (by omega)

/-- All the paths are the same if and only if a late read is harmless. -/
theorem attentionPaths_same_iff (h : Exponential expf) (rsqrtf : K → K) {a : AttentionArgs K}
    (ha : a.Ready) {pos chunkRows : ℕ} (hpos : pos < 2147483648) (hchunk : 0 < chunkRows)
    (hle : chunkRows ≤ 2147483648) :
    SameAttention expf rsqrtf a pos chunkRows ↔
      ∀ n, splitCount a (a.start pos) (u32 (pos + 1)) chunkRows = some n →
        a.LateReadHarmless expf rsqrtf pos chunkRows n := by
  rw [← splitRuns_give_iff h ha hpos hchunk hle]
  refine ⟨SameAttention.split, fun hsplit => ?_⟩
  exact {
    twoPass := gives_twoPass h ha (by omega)
    warp := gives_warp h ha (by omega)
    kvgroup := gives_kvgroup h ha (by omega)
    split := hsplit
    launched := fun env henv writes hruns =>
      decodeHeadsAt_gives h ha hpos (by rwa [henv]) hruns
    prefill := fun pos0 nTok hpos0 hwarps => gives_prefill h (by omega) (by omega) }

omit [IsStrictOrderedRing K] in
/-- Up to 32 parts are all brought together by the first warp. -/
theorem lateReadHarmless_of_le (expf rsqrtf : K → K) (a : AttentionArgs K) (pos chunkRows : ℕ)
    {n : ℕ} (hn : n ≤ 32) : a.LateReadHarmless expf rsqrtf pos chunkRows n := by
  refine fun hd _ => Or.inr fun warp hwarp hne => absurd ?_ hne
  rw [AttentionArgs.warpPositions, List.flatMap_eq_nil_iff]
  intro s hs
  obtain ⟨hs, hclass⟩ := List.mem_filter.mp hs
  have hlt := List.mem_range.mp hs
  have hclass := of_decide_eq_true hclass
  omega

end Launches

/-! ## Runs -/

theorem exponential_real : Exponential Real.exp := ⟨Real.exp_pos, Real.exp_add⟩

/-- Two heads over one head of a ring of four rows, at a position where the ring is full. -/
noncomputable def ringArgs : AttentionArgs ℝ where
  q i := i
  kCache i := 1 / (i + 1)
  vCache i := i
  headGate := fun _ => 1
  cacheCap := 4
  qHeads := 2
  kvHeads := 1
  sliding := true
  window := 512

/-- A layer of full attention where only the row of position 8192 has values. -/
noncomputable def lateArgs : AttentionArgs ℝ where
  q := fun _ => 0
  kCache := fun _ => 0
  vCache i := if i < 8192 * 1024 then 0 else 1
  headGate := fun _ => 0
  cacheCap := 16384
  qHeads := 64
  kvHeads := 8
  sliding := false
  window := 512

theorem lateArgs_ready : lateArgs.Ready := ⟨by decide, by decide, by decide, by decide, by decide⟩

theorem lateArgs_score (rsqrtf : ℝ → ℝ) (qh kvh r : ℕ) : lateArgs.score rsqrtf qh kvh r = 0 := by
  simp [AttentionArgs.score, lateArgs]

theorem lateArgs_positions : lateArgs.positions 8192 = List.range' 0 8192 ++ [8192] := by
  have hfirst : max (8192 + 1 - lateArgs.cacheCap)
      (if lateArgs.sliding then 8192 + 1 - lateArgs.window else 0) = 0 := by
    simp [lateArgs]
  rw [AttentionArgs.positions, hfirst]
  exact (List.range'_append_1 (s := 0) (m := 8192) (n := 1)).symm

theorem lateArgs_parts :
    splitCount lateArgs (lateArgs.start 8192) (u32 (8192 + 1)) 256 = some 33 := by
  simp [splitCount, lateArgs, AttentionArgs.start, u32]

theorem lateArgs_value {r : ℕ} (h : r < 8192) :
    lateArgs.vCache (lateArgs.slot 128 0 r + 0) = 0 := by
  have hslot : lateArgs.slot 128 0 r + 0 < 8192 * 1024 := by
    simp only [AttentionArgs.slot, lateArgs]
    omega
  simp only [lateArgs]
  exact if_pos hslot

/-- At position 8192 it has 33 parts of 256 rows, and the last one is that of a second warp. -/
theorem lateArgs_not_harmless (rsqrtf : ℝ → ℝ) :
    ¬ lateArgs.LateReadHarmless Real.exp rsqrtf 8192 256 33 := by
  intro hharmless
  have hhighest : lateArgs.highestScore rsqrtf 8192 0 = (0 : ℝ) := by
    have hrows : lateArgs.positions 8192 ≠ [] := by
      rw [lateArgs_positions]
      simp
    obtain ⟨top, htop⟩ := lateArgs.highestScore_coe rsqrtf hrows 0
    obtain ⟨r, -, hr⟩ := List.mem_map.mp (List.maximum_mem htop)
    rw [lateArgs_score] at hr
    rw [htop, ← hr]
  have hfirst : lateArgs.firstSum Real.exp rsqrtf 8192 256 33 0 = 256 := by
    have hthread : strided 33 128 0 = [0] := rfl
    have hpart : (part (lateArgs.start 8192) (8192 + 1) 256 0).length = 256 := List.length_range' ..
    rw [AttentionArgs.firstSum, hthread, List.flatMap_singleton, hhighest]
    simp only [lateArgs_score, expDiff_coe, sub_self, Real.exp_zero, List.map_const', List.sum_replicate,
      hpart]
    norm_num
  have hwarp : lateArgs.warpPositions 8192 256 33 1 = [8192] := rfl
  rcases hharmless 0 (by decide) with hone | hmeans
  · rw [hfirst, hhighest, expDiff_coe, Real.exp_eq_one_iff] at hone
    norm_num at hone
  · have hmean := hmeans 1 Nat.one_pos (by rw [hwarp]; simp) 0 (by decide)
    obtain ⟨rows, hrows⟩ : ∃ rows, rows = lateArgs.scored rsqrtf 0 0 0 (List.range' 0 8192) := ⟨_, rfl⟩
    have hvalues : valueSum Real.exp rows = 0 := by
      refine List.sum_eq_zero fun x hx => ?_
      obtain ⟨row, hrow, rfl⟩ := List.mem_map.mp hx
      rw [hrows] at hrow
      obtain ⟨r, hr, rfl⟩ := List.mem_map.mp hrow
      rw [lateArgs_value (by simpa using hr), mul_zero]
    have hpos : 0 < weightSum Real.exp rows := by
      refine weightSum_pos exponential_real ?_
      rw [hrows, AttentionArgs.scored]
      simp
    have hlast : lateArgs.scored rsqrtf 0 0 0 [8192] = [(0, 1)] := by
      rw [AttentionArgs.scored, List.map_singleton, lateArgs_score]
      norm_num [lateArgs, AttentionArgs.slot]
    have hall : lateArgs.scored rsqrtf 0 0 0 (List.range' 0 8192 ++ [8192]) = rows ++ [(0, 1)] := by
      rw [hrows, ← hlast, AttentionArgs.scored, List.map_append]
      rfl
    have hone : weightSum Real.exp [(0, 1)] = 1 := by simp [weightSum]
    have hvalue : valueSum Real.exp [(0, 1)] = 1 := by simp [valueSum]
    rw [hwarp, lateArgs_positions, Nat.zero_mul, Nat.zero_div, hall, hlast, softmax, softmax,
      weightSum_append, valueSum_append, hvalues, hone, hvalue, zero_add, div_one, eq_comm,
      div_eq_one_iff_eq (by linarith)] at hmean
    linarith

theorem attentionPaths_same_iff_parts :
    SameAttention Real.exp (fun x => 1 / Real.sqrt x) ringArgs 5 2 ∧
      ¬ SameAttention Real.exp (fun x => 1 / Real.sqrt x) lateArgs 8192 256 := by
  have hready : ringArgs.Ready := ⟨by decide, by decide, by decide, by decide, by decide⟩
  constructor
  · refine (attentionPaths_same_iff exponential_real _ hready (by decide) (by decide)
      (by decide)).mpr fun n hn => ?_
    obtain rfl : n = 2 := Option.some.inj hn.symm
    exact lateReadHarmless_of_le Real.exp _ ringArgs 5 2 (by decide)
  · intro hsame
    exact lateArgs_not_harmless _ ((attentionPaths_same_iff exponential_real _ lateArgs_ready
      (by decide) (by decide) (by decide)).mp hsame 33 lateArgs_parts)

/-- A late warp of a head of 33 parts spoils what the two passes leave. -/
theorem attentionPaths_not_same :
    ∃ writes, SplitRuns Real.exp (fun x => 1 / Real.sqrt x) lateArgs (lateArgs.start 8192)
        (u32 (8192 + 1)) 256 writes ∧
      ¬ Gives writes (64 * 128) (lateArgs.attention Real.exp (fun x => 1 / Real.sqrt x) 8192) ∧
      Gives (twoPassLaunch Real.exp (fun x => 1 / Real.sqrt x) lateArgs 8192) (64 * 128)
        (lateArgs.attention Real.exp (fun x => 1 / Real.sqrt x) 8192) := by
  by_contra hnone
  refine lateArgs_not_harmless (fun x => 1 / Real.sqrt x) ?_
  refine (splitRuns_give_iff exponential_real lateArgs_ready (by decide) (by decide) (by decide)).mp
    (fun writes hruns => ?_) 33 lateArgs_parts
  by_contra hgives
  exact hnone ⟨writes, hruns, hgives, gives_twoPass exponential_real lateArgs_ready (by decide)⟩

end Sf37.Cuda

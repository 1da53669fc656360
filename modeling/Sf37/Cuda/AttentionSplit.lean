/-
Sf37.Cuda.AttentionSplit — the rows in parts, and the parts brought together.

* `splitThread_eq`: what a thread of the split kernel has at its end.
* `reduce128_max`, `reduce128_add`: the reductions of the second kernel.
* `attentionDecodeHeads128SplitReduceKernel_eq`: what a thread of the second kernel writes.
* `writeAll_partialOut`, `writeAll_partialStat`: what the first launch leaves for the second.
* `scaled_partLane`: that is the two sums of a part, up to a factor.
-/
import Mathlib.Data.Fintype.Basic
import Mathlib.Tactic.FinCases
import Sf37.Cuda.AttentionKernels

namespace Sf37.Cuda

open Run

variable {K : Type}

/-- `float4_component` takes a component. -/
theorem float4Component_eq (v : Fin 4 → K) (c : Fin 4) : float4Component v c = v c := by
  fin_cases c <;> rfl

/-! ## A part -/

/-- The rows of a part. -/
def part (start end_ chunkRows split : ℕ) : List ℕ :=
  let first := start + split * chunkRows
  List.range' first (if end_ - first < chunkRows then end_ - first else chunkRows)

/-- Together the parts are all the rows. -/
theorem flatMap_part {start end_ chunkRows : ℕ} (hpos : 0 < chunkRows) :
    ((List.range ((end_ - start + chunkRows - 1) / chunkRows)).flatMap
      (part start end_ chunkRows)) = List.range' start (end_ - start) := by
  rw [← flatMap_blocks hpos, strided_eq_map, List.flatMap_map]
  rfl

section Split

variable [Field K] [LinearOrder K] {expf rsqrtf : K → K}

/-- What a thread of the split kernel has after its part. -/
theorem splitThread_eq (a : AttentionArgs K)
    {start end_ chunkRows split kvh thread : ℕ} (hchunk : chunkRows ≤ 2147483648)
    (hend : end_ ≤ 2147483648) (hsplit : start + split * chunkRows < end_)
    (kvSh : ℕ → Fin 4 → K) (hthread : thread < a.repeats * 32) :
    splitThread expf rsqrtf a start end_ chunkRows split kvSh kvh thread =
      (part start end_ chunkRows split).foldl (fun s r =>
        s.next expf (a.score rsqrtf ((kvh * a.repeats + thread / 32) * 128) kvh r)
          fun c => a.vCache (a.slot 128 kvh r + (4 * (thread % 32) + c))) Online.init := by
  have hstart : u32 (start + u32 (split * chunkRows)) = start + split * chunkRows := by
    rw [u32_of_lt (n := split * chunkRows) (by omega), u32_of_lt (by omega)]
  obtain ⟨first, hfirst⟩ : ∃ first, first = start + split * chunkRows := ⟨_, rfl⟩
  have hwrap : u32 (first + chunkRows) = first + chunkRows := u32_of_lt (by omega)
  obtain ⟨last, hstop⟩ : ∃ last,
      last = if first + chunkRows > end_ then end_ else first + chunkRows := ⟨_, rfl⟩
  have hpart : part start end_ chunkRows split = List.range' first (last - first) := by
    rw [part, ← hfirst]
    congr 1
    split at hstop <;> split <;> omega
  have hfold := foldl_fst (fun (p : Online K × (ℕ → Fin 4 → K)) r0 =>
      let nr := if last - r0 < 4 then last - r0 else 4
      let kvSh := writeAll (kvShWrites a kvh r0 nr (a.repeats * 32)) p.2
      let s := (List.range nr).foldl (fun s rr => s.shared expf rsqrtf
        (float4 a.q ((kvh * a.repeats + thread / 32) * 128)) kvSh rr (thread % 32)) p.1
      (s, kvSh))
    (fun s r0 => (List.range' r0 (if last - r0 < 4 then last - r0 else 4)).foldl (fun s r =>
      s.next expf (a.score rsqrtf ((kvh * a.repeats + thread / 32) * 128) kvh r)
        fun c => a.vCache (a.slot 128 kvh r + (4 * (thread % 32) + c))) s)
    (l := strided last 4 first) (fun p r0 _ => by
      dsimp only
      rw [List.range'_eq_map_range, List.foldl_map]
      refine List.foldl_ext _ _ _ fun s rr hrr => Online.shared_eq a
        (kvShHolds_writeAll a kvh r0 _ (by omega) (List.Perm.refl _) p.2) s _
        (List.mem_range.mp hrr) (Nat.mod_lt _ (by decide))) (Online.init, kvSh)
  rw [← List.foldl_flatMap, flatMap_blocks (by decide), ← hpart] at hfold
  rw [splitThread, hstart, ← hfirst, hwrap, ← hstop]
  exact hfold

/-! ## The reductions -/

omit [Field K] in
theorem reduce128_max (red : ℕ → WithBot K) : reduce128 max red = (Finset.range 128).sup red :=
  halving_fold max (fun _ => max_eq_left bot_le) (k := 7) (fun _ _ _ _ hi => if_pos hi) red

omit [LinearOrder K] in
theorem reduce128_add (red : ℕ → K) : reduce128 (· + ·) red = ∑ tid ∈ Finset.range 128, red tid :=
  halving_fold (· + ·) add_zero (k := 7) (fun _ _ _ _ hi => if_pos hi) red

omit [Field K] in
theorem foldl_max_eq (m : ℕ → WithBot K) (l : List ℕ) :
    l.foldl (fun localM s => max localM (m s)) ⊥ = l.toFinset.sup m := by
  induction l using List.reverseRecOn with
  | nil => rfl
  | append_singleton l s ih =>
    rw [List.foldl_append, List.foldl_cons, List.foldl_nil, ih, List.toFinset_append,
      Finset.sup_union, List.toFinset_cons, List.toFinset_nil, Finset.sup_insert, Finset.sup_empty,
      sup_bot_eq]

omit [Field K] in
/-- All threads together find the highest. -/
theorem reduce128_strided (m : ℕ → WithBot K) (n : ℕ) :
    reduce128 max (fun tid => (strided n 128 tid).foldl (fun localM s => max localM (m s)) ⊥) =
      (Finset.range n).sup m := by
  simp only [reduce128_max, foldl_max_eq]
  refine le_antisymm (Finset.sup_le fun tid htid => Finset.sup_le fun s hs => ?_)
    (Finset.sup_le fun s hs => ?_)
  · have hmem := (mem_strided (Finset.mem_range.mp htid)).mp (List.mem_toFinset.mp hs)
    exact Finset.le_sup (Finset.mem_range.mpr hmem.1)
  · have hmod : s % 128 < 128 := Nat.mod_lt _ (by decide)
    have hmem : s ∈ (strided n 128 (s % 128)).toFinset :=
      List.mem_toFinset.mpr ((mem_strided hmod).mpr ⟨Finset.mem_range.mp hs, rfl⟩)
    exact (Finset.le_sup (f := m) hmem).trans (Finset.le_sup (f := fun tid =>
      (strided n 128 tid).toFinset.sup m) (Finset.mem_range.mpr hmod))

/-- The highest score. -/
def highest (rows : List (K × K)) : WithBot K := (rows.map Prod.fst).maximum

omit [Field K] in
theorem highest_append (rows rest : List (K × K)) :
    highest (rows ++ rest) = max (highest rows) (highest rest) := by
  rw [highest, List.map_append, List.maximum_append]
  rfl

omit [Field K] in
theorem highest_flatMap (f : ℕ → List (K × K)) (n : ℕ) :
    (Finset.range n).sup (fun s => highest (f s)) = highest ((List.range n).flatMap f) := by
  induction n with
  | zero => rfl
  | succ n ih =>
    rw [Finset.range_add_one, Finset.sup_insert, ih, List.range_succ, List.flatMap_append,
      List.flatMap_singleton, highest_append, max_comm]

/-- What a thread of the second kernel takes for the highest score. -/
def lateMax (late : ℕ → Bool) (m l : K) (tid : ℕ) : K :=
  if tid / 32 ≠ 0 ∧ late (tid / 32) then l else m

/-- What a thread of the second kernel writes, when the parts are as the first kernel leaves
them: the late warps bring theirs to the sum of the first thread. -/
theorem attentionDecodeHeads128SplitReduceKernel_eq [IsStrictOrderedRing K] (h : Exponential expf)
    (late : ℕ → Bool) {partialOut : ℕ → Fin 4 → K} {partialM : ℕ → WithBot K}
    {partialS headGate : ℕ → K} {n qHeads hd tid : ℕ} (hhd : hd < qHeads) (hn : 0 < n)
    (rows : ℕ → List (K × K)) (hrows : rows 0 ≠ [])
    (hmax : ∀ s < n, partialM (s * qHeads + hd) = highest (rows s))
    (hparts : ∀ s < n, Scaled expf (rows s) (partialM (s * qHeads + hd))
      (partialS (s * qHeads + hd))
      (float4Component (partialOut ((s * qHeads + hd) * 32 + tid / 4)) (tid % 4)))
    {m l : K} (hm : highest ((List.range n).flatMap rows) = m)
    (hl : ((strided n 128 0).map fun s => expf (-m) * weightSum expf (rows s)).sum = l) :
    attentionDecodeHeads128SplitReduceKernel expf late partialOut partialM partialS headGate n qHeads
      hd tid = [(hd * 128 + tid, mixed expf n rows (fun s => lateMax late m l (s % 128)) *
        sigmoidDev expf (headGate hd))] := by
  have hred0 : reduce128 max (fun tid => (strided n 128 tid).foldl
      (fun localM s => max localM (partialM (s * qHeads + hd))) ⊥) = (m : WithBot K) := by
    rw [reduce128_strided, ← hm, ← highest_flatMap]
    exact Finset.sup_congr rfl fun s hs => hmax s (Finset.mem_range.mp hs)
  have hfirst : (strided n 128 0).foldl (fun localSum s => localSum + partialS (s * qHeads + hd) *
      expDiff expf (partialM (s * qHeads + hd)) m) 0 = l := by
    rw [foldl_add, zero_add, ← hl]
    refine congrArg List.sum (List.map_congr_left fun s hs => ?_)
    exact ((hparts s ((mem_strided (by decide)).mp hs).1).toMax h m).1
  have hread : ∀ tid, (if tid / 32 ≠ 0 ∧ late (tid / 32) then (l : WithBot K) else (m : WithBot K)) =
      ((lateMax late m l tid : K) : WithBot K) := by
    intro tid
    rw [lateMax]
    split <;> rfl
  have hdenom : (reduce128 (· + ·) fun tid => (strided n 128 tid).foldl (fun localSum s =>
      localSum + partialS (s * qHeads + hd) * expDiff expf (partialM (s * qHeads + hd))
        (lateMax late m l tid : K)) 0) =
      ∑ s ∈ Finset.range n, expf (-lateMax late m l (s % 128)) * weightSum expf (rows s) := by
    rw [reduce128_add]
    refine Eq.trans (Finset.sum_congr rfl fun tid htid => ?_) (sum_strided
      (fun s => expf (-lateMax late m l (s % 128)) * weightSum expf (rows s)) (by decide : 0 < 128))
    rw [foldl_add, zero_add]
    refine congrArg List.sum (List.map_congr_left fun s hs => ?_)
    obtain ⟨hlt, hmod⟩ := (mem_strided (Finset.mem_range.mp htid)).mp hs
    rw [hmod]
    exact ((hparts s hlt).toMax h _).1
  have hweight : ∀ s ∈ List.range n, float4Component (partialOut ((s * qHeads + hd) * 32 + tid / 4))
      (tid % 4) * (writeAll ((List.range 128).flatMap fun tid => (strided n 128 tid).map fun s =>
        (s * qHeads + hd, ((expDiff expf (partialM (s * qHeads + hd))
          (lateMax late m l tid : K) : K) : WithBot K))) partialM (s * qHeads + hd)).unbotD 0 =
      expf (-lateMax late m l (s % 128)) * valueSum expf (rows s) := by
    intro s hs
    rw [writeAll_of_same (v := ((expDiff expf (partialM (s * qHeads + hd))
      (lateMax late m l (s % 128) : K) : K) : WithBot K))]
    · exact ((hparts s (List.mem_range.mp hs)).toMax h _).2
    · obtain ⟨tid, htid, hmem⟩ :=
        List.mem_flatMap.mp ((flatMap_strided (n := n) (by decide : 0 < 128)).mem_iff.mpr hs)
      obtain ⟨-, hmod⟩ := (mem_strided (List.mem_range.mp htid)).mp hmem
      exact ⟨_, List.mem_flatMap.mpr ⟨tid, htid, List.mem_map.mpr ⟨s, hmem, rfl⟩⟩, rfl⟩
    · intro w hw hplace
      obtain ⟨tid, htid, hw⟩ := List.mem_flatMap.mp hw
      obtain ⟨t, ht, rfl⟩ := List.mem_map.mp hw
      obtain ⟨-, hmod⟩ := (mem_strided (List.mem_range.mp htid)).mp ht
      obtain rfl : t = s := Nat.eq_of_mul_eq_mul_right (Nat.zero_lt_of_lt hhd)
        (Nat.add_right_cancel hplace)
      rw [hmod]
  have hpos := sum_parts_pos h (fun s => expf (-lateMax late m l (s % 128))) (fun _ => h.pos _)
    ⟨0, hn, hrows⟩
  simp only [attentionDecodeHeads128SplitReduceKernel, hred0, hfirst, hread, hdenom]
  rw [foldl_add, zero_add, List.map_congr_left hweight, if_pos hpos, mul_one_div]
  rfl

end Split

/-! ## What the first launch leaves -/

/-- The statistics of a head of a part belong to one warp. -/
theorem statIdx_inj {a : AttentionArgs K} (ha : a.Ready) {split kvh thread split' hd : ℕ}
    (hkvh : kvh < a.kvHeads) (hthread : thread < a.repeats * 32) (hhd : hd < a.qHeads)
    (h : statIdx a split kvh thread = split' * a.qHeads + hd) :
    split = split' ∧ kvh = hd / a.repeats ∧ thread / 32 = hd % a.repeats := by
  obtain ⟨hlt, hgroup⟩ := ha.group hkvh (l := thread / 32) (by omega)
  obtain ⟨hsplit, hhead⟩ := row_inj hlt hhd h
  refine ⟨hsplit, by rw [← hhead, hgroup], ?_⟩
  rw [← hhead, Nat.mul_add_mod_self_right, Nat.mod_eq_of_lt (by omega)]

/-- Another thread with its place is the same lane of the same head and part. -/
theorem eq_thread_of_head {a : AttentionArgs K} (ha : a.Ready)
    {split hd lane split' kvh' thread' : ℕ} (hkvh' : kvh' < a.kvHeads)
    (hthread' : thread' < a.repeats * 32) (hhd : hd < a.qHeads)
    (hidx : statIdx a split' kvh' thread' = split * a.qHeads + hd) (hlane : thread' % 32 = lane) :
    split' = split ∧ kvh' = hd / a.repeats ∧ thread' = hd % a.repeats * 32 + lane := by
  obtain ⟨hsplit, hkvh, hl⟩ := statIdx_inj ha hkvh' hthread' hhd hidx
  exact ⟨hsplit, hkvh, by omega⟩

section Memory

variable [Field K] [LinearOrder K] {expf rsqrtf : K → K}

theorem mem_splitLaunch {a : AttentionArgs K} {start end_ chunkRows n : ℕ}
    {kvSh : ℕ → ℕ → ℕ → Fin 4 → K}
    {t : List (ℕ × (Fin 4 → K)) × List (ℕ × WithBot K) × List (ℕ × K)} :
    t ∈ splitLaunch expf rsqrtf a start end_ chunkRows n kvSh ↔
      ∃ split < n, ∃ kvh < a.kvHeads, ∃ thread < a.repeats * 32,
        t = attentionDecodeHeads128KvgroupSplitKernel expf rsqrtf a start end_ chunkRows split
          (kvSh split kvh) kvh thread := by
  simp only [splitLaunch, List.mem_flatMap, List.mem_range, mem_launch, List.mem_singleton]

/-- A place that the threads of the split kernel write with one value holds it. -/
theorem writeAll_split {a : AttentionArgs K} {start end_ chunkRows n : ℕ}
    {kvSh : ℕ → ℕ → ℕ → Fin 4 → K} {σ : Type}
    (proj : List (ℕ × (Fin 4 → K)) × List (ℕ × WithBot K) × List (ℕ × K) → List (ℕ × σ))
    {order : List (ℕ × σ)}
    (horder : order.Perm ((splitLaunch expf rsqrtf a start end_ chunkRows n kvSh).flatMap proj))
    {split kvh i : ℕ} {v : σ} (hsplit : split < n) (hkvh : kvh < a.kvHeads)
    (thread : ℕ) (hthread : thread < a.repeats * 32)
    (hmem : (i, v) ∈ proj (attentionDecodeHeads128KvgroupSplitKernel expf rsqrtf a start end_
      chunkRows split (kvSh split kvh) kvh thread))
    (hsame : ∀ split' kvh' thread', kvh' < a.kvHeads → thread' < a.repeats * 32 →
      ∀ w ∈ proj (attentionDecodeHeads128KvgroupSplitKernel expf rsqrtf a start end_
        chunkRows split' (kvSh split' kvh') kvh' thread'), w.1 = i → w.2 = v)
    (memory : ℕ → σ) : writeAll order memory i = v := by
  refine writeAll_of_same ⟨(i, v), ?_, rfl⟩ (fun w hw hwi => ?_) memory
  · refine horder.mem_iff.mpr (List.mem_flatMap.mpr ⟨_, ?_, hmem⟩)
    exact mem_splitLaunch.mpr ⟨split, hsplit, kvh, hkvh, thread, hthread, rfl⟩
  · obtain ⟨t, ht, hw⟩ := List.mem_flatMap.mp (horder.mem_iff.mp hw)
    obtain ⟨split', -, kvh', hkvh', thread', hthread', rfl⟩ := mem_splitLaunch.mp ht
    exact hsame split' kvh' thread' hkvh' hthread' w hw hwi

/-- What a lane for head `hd` has after a part. -/
def partLane (expf rsqrtf : K → K) (a : AttentionArgs K) (start end_ chunkRows split hd lane : ℕ) :
    Online K :=
  (part start end_ chunkRows split).foldl (fun s r =>
    s.next expf (a.score rsqrtf (hd * 128) (hd / a.repeats) r)
      fun c => a.vCache (a.slot 128 (hd / a.repeats) r + (4 * lane + c))) Online.init

theorem splitThread_partLane {a : AttentionArgs K} (ha : a.Ready)
    {start end_ chunkRows split kvh thread : ℕ} (hchunk : chunkRows ≤ 2147483648)
    (hend : end_ ≤ 2147483648) (hsplit : start + split * chunkRows < end_)
    (kvSh : ℕ → Fin 4 → K) (hkvh : kvh < a.kvHeads) (hthread : thread < a.repeats * 32) :
    splitThread expf rsqrtf a start end_ chunkRows split kvSh kvh thread =
      partLane expf rsqrtf a start end_ chunkRows split (kvh * a.repeats + thread / 32)
        (thread % 32) := by
  rw [splitThread_eq a hchunk hend hsplit kvSh hthread, partLane,
    (ha.group hkvh (l := thread / 32) (by omega)).2]

/-- The thread of a lane of a head, and what it has after a part. -/
theorem thread_of_head (expf rsqrtf : K → K) {a : AttentionArgs K} (ha : a.Ready)
    {start end_ chunkRows split hd : ℕ} (hchunk : chunkRows ≤ 2147483648)
    (hend : end_ ≤ 2147483648) (hsplit : start + split * chunkRows < end_) (hhd : hd < a.qHeads)
    (kvSh : ℕ → Fin 4 → K) (lane : ℕ) (hlane : lane < 32) :
    splitThread expf rsqrtf a start end_ chunkRows split kvSh (hd / a.repeats)
        (hd % a.repeats * 32 + lane) = partLane expf rsqrtf a start end_ chunkRows split hd lane ∧
      statIdx a split (hd / a.repeats) (hd % a.repeats * 32 + lane) = split * a.qHeads + hd := by
  obtain ⟨hkvh, hl, hgroup⟩ := ha.group_of_head hhd
  have hdiv : (hd % a.repeats * 32 + lane) / 32 = hd % a.repeats := by omega
  have hmod : (hd % a.repeats * 32 + lane) % 32 = lane := by omega
  constructor
  · rw [splitThread_partLane ha hchunk hend hsplit _ hkvh (by omega), hdiv, hmod, hgroup]
  · rw [statIdx, hdiv, hgroup]

/-- What the first launch leaves in `partial_out`. -/
theorem writeAll_partialOut {a : AttentionArgs K} (ha : a.Ready)
    {start end_ chunkRows n split hd lane : ℕ} {kvSh : ℕ → ℕ → ℕ → Fin 4 → K}
    {out : List (ℕ × (Fin 4 → K))} (hchunk : chunkRows ≤ 2147483648) (hend : end_ ≤ 2147483648)
    (hout : out.Perm ((splitLaunch expf rsqrtf a start end_ chunkRows n kvSh).flatMap fun t => t.1))
    (hlt : split < n) (hsplit : start + split * chunkRows < end_) (hhd : hd < a.qHeads)
    (hlane : lane < 32) (memory : ℕ → Fin 4 → K) :
    writeAll out memory ((split * a.qHeads + hd) * 32 + lane) =
      (partLane expf rsqrtf a start end_ chunkRows split hd lane).o := by
  obtain ⟨hkvh, hl, -⟩ := ha.group_of_head hhd
  obtain ⟨hthread, hidx⟩ := thread_of_head expf rsqrtf ha hchunk hend hsplit hhd
    (kvSh split (hd / a.repeats)) lane hlane
  refine writeAll_split (fun t => t.1) hout hlt hkvh (hd % a.repeats * 32 + lane) (by omega) ?_ ?_
    memory
  · rw [attentionDecodeHeads128KvgroupSplitKernel, hidx, hthread,
      show (hd % a.repeats * 32 + lane) % 32 = lane by omega]
    exact List.mem_singleton_self _
  · intro split' kvh' thread' hkvh' hthread' w hw hwi
    rw [attentionDecodeHeads128KvgroupSplitKernel] at hw
    obtain rfl := List.mem_singleton.mp hw
    dsimp only at hwi ⊢
    have hidx' : statIdx a split' kvh' thread' = split * a.qHeads + hd := by omega
    have hlane' : thread' % 32 = lane := by omega
    obtain ⟨rfl, rfl, rfl⟩ := eq_thread_of_head ha hkvh' hthread' hhd hidx' hlane'
    rw [hthread]

/-- What the first launch leaves in `partial_m` and `partial_s`. -/
theorem writeAll_partialStat {a : AttentionArgs K} (ha : a.Ready)
    {start end_ chunkRows n split hd : ℕ} {kvSh : ℕ → ℕ → ℕ → Fin 4 → K} {σ : Type}
    (proj : List (ℕ × (Fin 4 → K)) × List (ℕ × WithBot K) × List (ℕ × K) → List (ℕ × σ))
    (stat : Online K → σ)
    (hproj : ∀ split kvSh kvh thread, proj (attentionDecodeHeads128KvgroupSplitKernel expf rsqrtf a
      start end_ chunkRows split kvSh kvh thread) = if thread % 32 = 0 then
        [(statIdx a split kvh thread, stat (splitThread expf rsqrtf a start end_ chunkRows split
          kvSh kvh thread))] else [])
    {order : List (ℕ × σ)} (hchunk : chunkRows ≤ 2147483648) (hend : end_ ≤ 2147483648)
    (horder : order.Perm ((splitLaunch expf rsqrtf a start end_ chunkRows n kvSh).flatMap proj))
    (hlt : split < n) (hsplit : start + split * chunkRows < end_) (hhd : hd < a.qHeads)
    (memory : ℕ → σ) : writeAll order memory (split * a.qHeads + hd) =
      stat (partLane expf rsqrtf a start end_ chunkRows split hd 0) := by
  obtain ⟨hkvh, hl, -⟩ := ha.group_of_head hhd
  obtain ⟨hthread, hidx⟩ := thread_of_head expf rsqrtf ha hchunk hend hsplit hhd
    (kvSh split (hd / a.repeats)) 0 (by decide)
  refine writeAll_split proj horder hlt hkvh (hd % a.repeats * 32 + 0) (by omega) ?_ ?_ memory
  · rw [hproj, if_pos (by omega), hidx, hthread]
    exact List.mem_singleton_self _
  · intro split' kvh' thread' hkvh' hthread' w hw hwi
    rw [hproj] at hw
    split at hw
    next hfirst =>
      obtain rfl := List.mem_singleton.mp hw
      obtain ⟨rfl, rfl, rfl⟩ := eq_thread_of_head ha hkvh' hthread' hhd hwi hfirst
      exact congrArg stat hthread
    · cases hw

omit [Field K] [LinearOrder K] in
theorem scored_flatMap [Field K] (a : AttentionArgs K) (qh kvh d : ℕ) (l : List ℕ)
    (rows : ℕ → List ℕ) : a.scored rsqrtf qh kvh d (l.flatMap rows) =
      l.flatMap fun s => a.scored rsqrtf qh kvh d (rows s) := by
  rw [AttentionArgs.scored, List.map_flatMap]
  rfl

/-- The highest score of a part. -/
theorem partLane_maxS (a : AttentionArgs K) (start end_ chunkRows split hd lane d : ℕ) :
    (partLane expf rsqrtf a start end_ chunkRows split hd lane).maxS =
      highest (a.scored rsqrtf (hd * 128) (hd / a.repeats) d (part start end_ chunkRows split)) := by
  rw [partLane, highest, AttentionArgs.scored, List.map_map]
  generalize part start end_ chunkRows split = rows
  induction rows using List.reverseRecOn with
  | nil => rfl
  | append_singleton rows r ih =>
    rw [List.foldl_append, List.map_append, List.map_singleton, List.maximum_concat, ← ih]
    rfl

/-- The statistics of a head of a part, which its first lane writes, go with the values of each. -/
theorem scaled_partLane (h : Exponential expf) (a : AttentionArgs K)
    (start end_ chunkRows split hd tid : ℕ) :
    Scaled expf (a.scored rsqrtf (hd * 128) (hd / a.repeats) tid (part start end_ chunkRows split))
      (partLane expf rsqrtf a start end_ chunkRows split hd 0).maxS
      (partLane expf rsqrtf a start end_ chunkRows split hd 0).sumS
      (float4Component (partLane expf rsqrtf a start end_ chunkRows split hd (tid / 4)).o
        (tid % 4)) := by
  have hagree : (partLane expf rsqrtf a start end_ chunkRows split hd 0).maxS =
        (partLane expf rsqrtf a start end_ chunkRows split hd (tid / 4)).maxS ∧
      (partLane expf rsqrtf a start end_ chunkRows split hd 0).sumS =
        (partLane expf rsqrtf a start end_ chunkRows split hd (tid / 4)).sumS :=
    Online.foldl_agree _ _ _ _ rfl rfl
  have hcol : 4 * (tid / 4) + tid % 4 = tid := Nat.div_add_mod tid 4
  have hafter := Online.after_foldl h (part start end_ chunkRows split)
    (a.score rsqrtf (hd * 128) (hd / a.repeats))
    (fun r c => a.vCache (a.slot 128 (hd / a.repeats) r + (4 * (tid / 4) + c)))
    ⟨tid % 4, Nat.mod_lt _ (by decide)⟩
  simp only [List.map_map, Function.comp_def, hcol] at hafter
  rw [hagree.1, hagree.2, float4Component_eq _ ⟨tid % 4, Nat.mod_lt _ (by decide)⟩]
  exact hafter

end Memory

end Sf37.Cuda

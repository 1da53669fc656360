/-
Sf37.Cuda.AttentionKernels — what a thread of each attention kernel writes.

* `AttentionArgs.attention`: what the output should hold.
* `warpLane_eq`, `attentionDecodeHeadsAtKernel_eq`, `attentionDecodeHeads128KvgroupAtKernel_eq`:
  the kernels with one pass in a warp, with two passes, and with a shared memory.
* `gives_launch`: what the threads of a launch leave in the output.
-/
import Sf37.Cuda.Attention

namespace Sf37.Cuda

open Run

variable {K : Type}

/-! ## What is computed -/

namespace AttentionArgs

/-- Column `d` of a head: the gate times the softmax-weighted sum of the values. -/
def headOut [Field K] [LinearOrder K] (expf rsqrtf : K → K) (a : AttentionArgs K)
    (pos qh kvh gate d : ℕ) : K :=
  softmax expf (a.scored rsqrtf qh kvh d (a.positions pos)) * sigmoidDev expf (a.headGate gate)

/-- What place `i` of the output should hold. -/
def attention [Field K] [LinearOrder K] (expf rsqrtf : K → K) (a : AttentionArgs K)
    (pos i : ℕ) : K :=
  let h := i / 128
  a.headOut expf rsqrtf pos (h * 128) (h / a.repeats) h (i % 128)

end AttentionArgs

/-! ## The positions -/

theorem u32_of_lt {n : ℕ} (h : n < 4294967296) : u32 n = n := Nat.mod_eq_of_lt h

theorem AttentionArgs.start_eq (a : AttentionArgs K) {pos : ℕ} (hpos : pos + 1 < 4294967296) :
    a.start pos = max (pos + 1 - a.cacheCap) (if a.sliding then pos + 1 - a.window else 0) := by
  rw [start, u32_of_lt hpos]
  cases a.sliding <;> simp only [Bool.false_eq_true, if_true, if_false, true_and, false_and]
  · split <;> omega
  · split <;> split <;> (try split) <;> omega

theorem AttentionArgs.rows_eq (a : AttentionArgs K) {pos : ℕ} (hpos : pos + 1 < 4294967296) :
    a.rows pos = a.positions pos := by
  rw [rows, positions, a.start_eq hpos]

/-! ## A warp -/

section Warp

variable [Field K]

/-- The first lane of a warp has the sum of all its lanes. -/
theorem warpSumF32_zero (v : ℕ → K) : warpSumF32 v 0 = ∑ lane ∈ Finset.range 32, v lane := by
  refine halving_fold (· + ·) add_zero (k := 5) (fun j hj v i hi => ?_) v
  have hle : 2 ^ j ≤ 2 ^ 4 := Nat.pow_le_pow_right (by decide) (Nat.lt_succ_iff.mp hj)
  rw [shflDown, if_pos (by omega)]

/-- The columns of the kernels with `o0` to `o3`. -/
theorem sum_warp (f : ℕ → K) : ∑ lane ∈ Finset.range 32,
    (f (lane + 0) + f (lane + 32) + f (lane + 64) + f (lane + 96)) =
      ∑ i ∈ Finset.range 128, f i := by
  rw [Finset.sum_range_add f 96 32, Finset.sum_range_add f 64 32, Finset.sum_range_add f 32 32]
  simp only [Finset.sum_add_distrib, Nat.add_zero, Nat.add_comm]

/-- The columns of the kernels with `float4`. -/
theorem sum_float4 (f : ℕ → K) (n : ℕ) : ∑ lane ∈ Finset.range n,
    (f (4 * lane) + f (4 * lane + 1) + f (4 * lane + 2) + f (4 * lane + 3)) =
      ∑ i ∈ Finset.range (4 * n), f i := by
  induction n with
  | zero => rfl
  | succ n ih =>
    rw [Finset.sum_range_succ, ih, Nat.mul_succ, Finset.sum_range_succ, Finset.sum_range_succ,
      Finset.sum_range_succ, Finset.sum_range_succ]
    simp only [add_assoc]

end Warp

/-! ## Rows in one pass -/

section Online

variable [Field K] [LinearOrder K] {expf : K → K}

/-- What a lane has after the rows `rows`, each with a score and four values. -/
def Online.After (expf : K → K) (rows : List (K × (Fin 4 → K))) (s : Online K) : Prop :=
  ∀ c, Scaled expf (rows.map fun r => (r.1, r.2 c)) s.maxS s.sumS (s.o c)

/-- A row more. -/
theorem Online.After.next (h : Exponential expf) {rows : List (K × (Fin 4 → K))} {s : Online K}
    (hs : s.After expf rows) (score : K) (v : Fin 4 → K) :
    (s.next expf score v).After expf (rows ++ [(score, v)]) := by
  obtain ⟨n, hn⟩ : ∃ n : K, max s.maxS (score : WithBot K) = n := by
    cases s.maxS with
    | bot => exact ⟨score, max_eq_right bot_le⟩
    | coe m => exact ⟨max m score, (WithBot.coe_max m score).symm⟩
  intro c
  rw [Online.next, hn, List.map_append]
  exact (hs c).next h n score (v c)

/-- After all the rows of a loop. -/
theorem Online.after_foldl (h : Exponential expf) (rows : List ℕ) (score : ℕ → K)
    (v : ℕ → Fin 4 → K) :
    (rows.foldl (fun s r => s.next expf (score r) (v r)) Online.init).After expf
      (rows.map fun r => (score r, v r)) := by
  induction rows using List.reverseRecOn with
  | nil => exact fun _ => scaled_nil
  | append_singleton rows r ih =>
    rw [List.foldl_append, List.map_append]
    exact ih.next h (score r) (v r)

/-- The maximum and the sum do not depend on the values: the lanes of a warp agree on them. -/
theorem Online.foldl_agree (rows : List ℕ) (score : ℕ → K) (v v' : ℕ → Fin 4 → K) {s s' : Online K}
    (hmax : s.maxS = s'.maxS) (hsum : s.sumS = s'.sumS) :
    (rows.foldl (fun s r => s.next expf (score r) (v r)) s).maxS =
        (rows.foldl (fun s r => s.next expf (score r) (v' r)) s').maxS ∧
      (rows.foldl (fun s r => s.next expf (score r) (v r)) s).sumS =
        (rows.foldl (fun s r => s.next expf (score r) (v' r)) s').sumS := by
  induction rows generalizing s s' with
  | nil => exact ⟨hmax, hsum⟩
  | cons r rows ih =>
    refine ih ?_ ?_
    · show max s.maxS _ = max s'.maxS _
      rw [hmax]
    · show s.sumS * _ + _ = s'.sumS * _ + _
      rw [hmax, hsum]

/-- What is written is the gate times the softmax. -/
theorem Online.After.out [IsStrictOrderedRing K] (h : Exponential expf)
    {rows : List (K × (Fin 4 → K))} {s : Online K} (hs : s.After expf rows) (headGate : K)
    (c : Fin 4) : s.out expf headGate c =
      softmax expf (rows.map fun r => (r.1, r.2 c)) * sigmoidDev expf headGate := by
  rw [Online.out, ← (hs c).softmax h]

end Online

/-! ## Rows in two passes -/

section Folds

theorem foldl_add {M : Type} [AddCommMonoid M] (f : ℕ → M) (l : List ℕ) (b : M) :
    l.foldl (fun sum i => sum + f i) b = b + (l.map f).sum := by
  induction l generalizing b with
  | nil => exact (add_zero b).symm
  | cons i l ih => rw [List.foldl_cons, ih, List.map_cons, List.sum_cons, add_assoc]

theorem foldl_add_pair {M : Type} [AddCommMonoid M] (f g : ℕ → M) (l : List ℕ) (b c : M) :
    l.foldl (fun (p : M × M) i => (p.1 + f i, p.2 + g i)) (b, c) =
      (b + (l.map f).sum, c + (l.map g).sum) := by
  induction l generalizing b c with
  | nil => simp
  | cons i l ih => simp only [List.foldl_cons, ih, List.map_cons, List.sum_cons, add_assoc]

/-- The highest score is a number when there is a row. -/
theorem foldl_max [LinearOrder K] (score : ℕ → K) {l : List ℕ} (hl : l ≠ []) :
    ∃ m : K, l.foldl (fun (maxScore : WithBot K) r =>
      if (score r : WithBot K) > maxScore then (score r : WithBot K) else maxScore) ⊥ = m := by
  induction l using List.reverseRecOn with
  | nil => exact absurd rfl hl
  | append_singleton l r ih =>
    rw [List.foldl_append, List.foldl_cons, List.foldl_nil]
    rcases eq_or_ne l [] with rfl | hl
    · exact ⟨score r, if_pos (WithBot.bot_lt_coe _)⟩
    · obtain ⟨m, hm⟩ := ih hl
      rw [hm]
      split
      · exact ⟨_, rfl⟩
      · exact ⟨_, rfl⟩

/-- A loop whose first part goes its own way. -/
theorem foldl_fst {σ τ : Type} (f : σ × τ → ℕ → σ × τ) (g : σ → ℕ → σ) {l : List ℕ}
    (hstep : ∀ p, ∀ i ∈ l, (f p i).1 = g p.1 i) (p : σ × τ) :
    (l.foldl f p).1 = l.foldl g p.1 := by
  induction l generalizing p with
  | nil => rfl
  | cons i l ih =>
    rw [List.foldl_cons, ih fun p j hj => hstep p j (List.mem_cons_of_mem _ hj),
      hstep p i (List.mem_cons_self ..)]
    rfl

end Folds

/-! ## Shared memory -/

section Shared

/-- The shared memory holds `nr` rows from `r0` on: of each the key and the value. -/
def KvShHolds (a : AttentionArgs K) (kvh r0 nr : ℕ) (kvSh : ℕ → Fin 4 → K) : Prop :=
  ∀ rr < nr, ∀ i < 32, kvSh (rr * 64 + i) = float4 a.kCache (a.slot 128 kvh (r0 + rr)) i ∧
    kvSh (rr * 64 + 32 + i) = float4 a.vCache (a.slot 128 kvh (r0 + rr)) i

/-- The threads of a block fill it, whatever it held before. -/
theorem kvShHolds_writeAll (a : AttentionArgs K) (kvh r0 nr : ℕ) {threads : ℕ} (hpos : 0 < threads)
    {order : List (ℕ × (Fin 4 → K))} (horder : order.Perm (kvShWrites a kvh r0 nr threads))
    (kvSh : ℕ → Fin 4 → K) : KvShHolds a kvh r0 nr (writeAll order kvSh) := by
  have hgives : Gives (kvShWrites a kvh r0 nr threads) (nr * 64) fun off =>
      float4 (if off % 64 < 32 then a.kCache else a.vCache) (a.slot 128 kvh (r0 + off / 64))
        (off % 64 % 32) := by
    refine gives_of_writes (fun w hw => ?_) fun off hoff => ?_
    · obtain ⟨tid, htid, hw⟩ := List.mem_flatMap.mp hw
      obtain ⟨off, hoff, rfl⟩ := List.mem_map.mp hw
      exact ⟨((mem_strided (List.mem_range.mp htid)).mp hoff).1, rfl⟩
    · have hmem := (flatMap_strided (n := nr * 64) hpos).mem_iff.mpr (List.mem_range.mpr hoff)
      obtain ⟨tid, htid, hoff⟩ := List.mem_flatMap.mp hmem
      exact ⟨_, List.mem_flatMap.mpr ⟨tid, htid, List.mem_map.mpr ⟨off, hoff, rfl⟩⟩, rfl⟩
  intro rr hrr i hi
  constructor
  · rw [hgives order horder kvSh, if_pos (by omega)]
    dsimp only
    rw [if_pos (by omega), show (rr * 64 + i) / 64 = rr by omega,
      show (rr * 64 + i) % 64 % 32 = i by omega]
  · rw [hgives order horder kvSh, if_pos (by omega)]
    dsimp only
    rw [if_neg (by omega), show (rr * 64 + 32 + i) / 64 = rr by omega,
      show (rr * 64 + 32 + i) % 64 % 32 = i by omega]

variable [Field K] [LinearOrder K] {expf rsqrtf : K → K}

/-- A row of it is a row of the cache. -/
theorem Online.shared_eq (a : AttentionArgs K) {kvh r0 nr : ℕ} {kvSh : ℕ → Fin 4 → K}
    (hsh : KvShHolds a kvh r0 nr kvSh) (s : Online K) (qh : ℕ) {rr lane : ℕ} (hrr : rr < nr)
    (hlane : lane < 32) : s.shared expf rsqrtf (float4 a.q qh) kvSh rr lane =
      s.next expf (a.score rsqrtf qh kvh (r0 + rr))
        fun c => a.vCache (a.slot 128 kvh (r0 + rr) + (4 * lane + c)) := by
  have hsum : warpSumF32 (fun lane => dot4F32 (float4 a.q qh lane) (kvSh (rr * 64 + lane))) 0 =
      ∑ i ∈ Finset.range 128, a.q (qh + i) * a.kCache (a.slot 128 kvh (r0 + rr) + i) := by
    rw [warpSumF32_zero,
      ← sum_float4 (fun i => a.q (qh + i) * a.kCache (a.slot 128 kvh (r0 + rr) + i)) 32]
    refine Finset.sum_congr rfl fun i hi => ?_
    rw [(hsh rr hrr i (Finset.mem_range.mp hi)).1]
    rfl
  rw [Online.shared, hsum, (hsh rr hrr lane hlane).2]
  rfl

end Shared

/-! ## The kernels -/

section Kernels

variable [Field K] [LinearOrder K] [IsStrictOrderedRing K] {expf rsqrtf : K → K}

/-- What a lane of the warp kernels writes. -/
theorem warpLane_eq (h : Exponential expf) (a : AttentionArgs K) {pos : ℕ}
    (hpos : pos + 1 < 4294967296) (qh kvh gate out lane : ℕ) :
    warpLane expf rsqrtf a pos qh kvh gate out lane = [0, 32, 64, 96].map fun i =>
      (out + (lane + i), a.headOut expf rsqrtf pos qh kvh gate (lane + i)) := by
  have hscore : ∀ r, warpSumF32 (fun lane =>
      a.q (qh + (lane + 0)) * a.kCache (a.slot 128 kvh r + (lane + 0)) +
        a.q (qh + (lane + 32)) * a.kCache (a.slot 128 kvh r + (lane + 32)) +
        a.q (qh + (lane + 64)) * a.kCache (a.slot 128 kvh r + (lane + 64)) +
        a.q (qh + (lane + 96)) * a.kCache (a.slot 128 kvh r + (lane + 96))) 0 * rsqrtf 128 =
      a.score rsqrtf qh kvh r := by
    intro r
    rw [warpSumF32_zero, AttentionArgs.score,
      sum_warp fun i => a.q (qh + i) * a.kCache (a.slot 128 kvh r + i)]
  have hafter := Online.after_foldl h (a.positions pos) (a.score rsqrtf qh kvh)
    fun r c => a.vCache (a.slot 128 kvh r + (lane + 32 * c))
  simp only [warpLane, hscore, a.rows_eq hpos, hafter.out h, List.map_map]
  rfl

/-- What a thread of the two passes writes. -/
theorem attentionDecodeHeadsAtKernel_eq (h : Exponential expf) (a : AttentionArgs K) {pos gid : ℕ}
    (hpos : pos + 1 < 4294967296) (hcap : a.cacheCap ≠ 0) (hgid : gid < a.qHeads * 128) :
    attentionDecodeHeadsAtKernel expf rsqrtf a pos 128 gid =
      [(gid, a.attention expf rsqrtf pos gid)] := by
  have hscore : ∀ r, (List.range 128).foldl (fun score i =>
      score + a.q (gid / 128 * 128 + i) * a.kCache (a.slot 128 (gid / 128 / a.repeats) r + i)) 0 *
        rsqrtf (128 : ℕ) = a.score rsqrtf (gid / 128 * 128) (gid / 128 / a.repeats) r := by
    intro r
    rw [foldl_add, zero_add, AttentionArgs.score]
    rfl
  have hcol : gid - gid / 128 * 128 = gid % 128 := by omega
  rw [attentionDecodeHeadsAtKernel, if_neg (by omega)]
  simp only [hscore, hcol, a.rows_eq hpos]
  rw [foldl_add_pair]
  simp only [zero_add]
  rw [AttentionArgs.attention, AttentionArgs.headOut]
  by_cases hrows : a.positions pos = []
  · simp [hrows, AttentionArgs.scored, softmax, valueSum]
  obtain ⟨m, hm⟩ := foldl_max (a.score rsqrtf (gid / 128 * 128) (gid / 128 / a.repeats)) hrows
  have hscaled := scaled_passes h (a.scored rsqrtf (gid / 128 * 128) (gid / 128 / a.repeats)
    (gid % 128) (a.positions pos)) m
  simp only [hm, expDiff_coe]
  rw [← hscaled.softmax h, AttentionArgs.scored, List.map_map, List.map_map]
  rfl

/-- What a thread of a block for a head of the cache writes. -/
theorem attentionDecodeHeads128KvgroupAtKernel_eq (h : Exponential expf) (a : AttentionArgs K)
    {pos kvh thread : ℕ} (hpos : pos + 1 < 4294967296) (hcap : a.cacheCap ≠ 0)
    (kvSh : ℕ → Fin 4 → K) (hthread : thread < a.repeats * 32) :
    attentionDecodeHeads128KvgroupAtKernel expf rsqrtf a pos kvSh kvh thread =
      (List.finRange 4).map fun c =>
        ((kvh * a.repeats + thread / 32) * 128 + (4 * (thread % 32) + c.val),
          a.headOut expf rsqrtf pos ((kvh * a.repeats + thread / 32) * 128) kvh
            (kvh * a.repeats + thread / 32) (4 * (thread % 32) + c.val)) := by
  have hfold := foldl_fst (fun (p : Online K × (ℕ → Fin 4 → K)) r =>
      let kvSh := writeAll (kvShWrites a kvh r 1 (a.repeats * 32)) p.2
      (p.1.shared expf rsqrtf (float4 a.q ((kvh * a.repeats + thread / 32) * 128)) kvSh 0
        (thread % 32), kvSh))
    (fun s r => s.next expf (a.score rsqrtf ((kvh * a.repeats + thread / 32) * 128) kvh r)
      fun c => a.vCache (a.slot 128 kvh r + (4 * (thread % 32) + c)))
    (l := a.rows pos) (fun p r hr => Online.shared_eq a
      (kvShHolds_writeAll a kvh r 1 (by omega) (List.Perm.refl _) p.2) p.1 _ Nat.one_pos
      (Nat.mod_lt _ (by decide))) (Online.init, kvSh)
  have hafter := Online.after_foldl h (a.positions pos)
    (a.score rsqrtf ((kvh * a.repeats + thread / 32) * 128) kvh)
    fun r c => a.vCache (a.slot 128 kvh r + (4 * (thread % 32) + c))
  rw [a.rows_eq hpos] at hfold
  rw [← hfold] at hafter
  rw [attentionDecodeHeads128KvgroupAtKernel, if_neg hcap, a.rows_eq hpos]
  refine List.map_congr_left fun c _ => Prod.ext rfl ?_
  refine (hafter.out h _ c).trans ?_
  rw [AttentionArgs.headOut, AttentionArgs.scored, List.map_map]
  rfl

end Kernels

/-! ## Launches -/

/-- What the launchers check and are promised. -/
structure AttentionArgs.Ready (a : AttentionArgs K) : Prop where
  cap : a.cacheCap ≠ 0
  kv : a.kvHeads ≠ 0
  whole : a.qHeads % a.kvHeads = 0
  few : a.repeats ≤ 16
  heads : a.qHeads + 7 < 4294967296

theorem mem_launch {σ : Type} {grid threads : ℕ} {kernel : ℕ → ℕ → List σ} {w : σ} :
    w ∈ launch grid threads kernel ↔
      ∃ block < grid, ∃ thread < threads, w ∈ kernel block thread := by
  simp only [launch, List.mem_flatMap, List.mem_range]

namespace AttentionArgs.Ready

variable {a : AttentionArgs K}

theorem heads_eq (h : a.Ready) : a.kvHeads * a.repeats = a.qHeads :=
  Nat.mul_div_cancel' (Nat.dvd_of_mod_eq_zero h.whole)

/-- The heads of a group are heads, and the group is theirs. -/
theorem group (h : a.Ready) {kvh l : ℕ} (hkvh : kvh < a.kvHeads) (hl : l < a.repeats) :
    kvh * a.repeats + l < a.qHeads ∧ (kvh * a.repeats + l) / a.repeats = kvh := by
  constructor
  · have hle := Nat.mul_le_mul_right a.repeats (Nat.succ_le_of_lt hkvh)
    rw [h.heads_eq, Nat.succ_mul] at hle
    omega
  · rw [Nat.add_comm, Nat.add_mul_div_right _ _ (Nat.zero_lt_of_lt hl), Nat.div_eq_of_lt hl,
      Nat.zero_add]

/-- Each head is in a group. -/
theorem group_of_head (h : a.Ready) {hd : ℕ} (hhd : hd < a.qHeads) :
    hd / a.repeats < a.kvHeads ∧ hd % a.repeats < a.repeats ∧
      hd / a.repeats * a.repeats + hd % a.repeats = hd := by
  have hpos : 0 < a.repeats := by
    rw [← h.heads_eq] at hhd
    exact Nat.pos_of_ne_zero fun hzero => by simp [hzero] at hhd
  refine ⟨?_, Nat.mod_lt _ hpos, Nat.div_add_mod' _ _⟩
  rw [Nat.div_lt_iff_lt_mul hpos, h.heads_eq]
  exact hhd

end AttentionArgs.Ready

/-- Every thread puts what it should, and every place has its thread. -/
theorem gives_launch {σ : Type} {grid threads n : ℕ} {kernel : ℕ → ℕ → List (ℕ × σ)} {f : ℕ → σ}
    (hwrites : ∀ block < grid, ∀ thread < threads, ∀ w ∈ kernel block thread,
      w.1 < n ∧ w.2 = f w.1)
    (hall : ∀ p < n, ∃ block < grid, ∃ thread < threads, p ∈ (kernel block thread).map Prod.fst) :
    Gives (launch grid threads kernel) n f := by
  refine gives_of_writes (fun w hw => ?_) fun p hp => ?_
  · obtain ⟨block, hblock, thread, hthread, hw⟩ := mem_launch.mp hw
    exact hwrites block hblock thread hthread w hw
  · obtain ⟨block, hblock, thread, hthread, hmem⟩ := hall p hp
    obtain ⟨w, hw, rfl⟩ := List.mem_map.mp hmem
    exact ⟨w, mem_launch.mpr ⟨block, hblock, thread, hthread, hw⟩, rfl⟩

end Sf37.Cuda

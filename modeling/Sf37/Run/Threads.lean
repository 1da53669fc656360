/-
Sf37.Run.Threads — what threads compute together.

* `mem_strided`, `flatMap_strided`: a loop in which each thread takes every `threads`-th place.
* `halving_fold`: a reduction that halves the number of places.
* `gives_of_writes`: writes of all threads, in any order.
-/
import Mathlib.Algebra.BigOperators.Group.Finset.Basic
import Mathlib.Data.Finset.Fold
import Mathlib.Data.Finset.Lattice.Fold
import Mathlib.Data.List.Perm.Lattice
import Sf37.Run.Parts

namespace Sf37.Run

/-! ## Strided loops -/

/-- `for (i = tid; i < n; i += threads)` -/
def strided (n threads tid : ℕ) : List ℕ :=
  List.range' tid ((n - tid + threads - 1) / threads) threads

theorem strided_eq_map (n threads tid : ℕ) : strided n threads tid =
    (List.range ((n - tid + threads - 1) / threads)).map fun i => tid + i * threads := by
  refine List.ext_getElem (by simp [strided]) fun i _ _ => ?_
  rw [List.getElem_map, List.getElem_range]
  simp only [strided, List.getElem_range', Nat.mul_comm]

theorem mem_strided {n threads tid i : ℕ} (htid : tid < threads) :
    i ∈ strided n threads tid ↔ i < n ∧ i % threads = tid := by
  have hpos : 0 < threads := Nat.zero_lt_of_lt htid
  rw [strided, List.mem_range']
  constructor
  · rintro ⟨j, hj, rfl⟩
    rw [Nat.lt_div_iff_mul_lt hpos] at hj
    refine ⟨?_, by rw [Nat.add_mul_mod_self_left, Nat.mod_eq_of_lt htid]⟩
    rw [Nat.mul_comm threads j]
    omega
  · rintro ⟨hi, rfl⟩
    have hsplit := Nat.div_add_mod i threads
    refine ⟨i / threads, ?_, by omega⟩
    rw [Nat.lt_div_iff_mul_lt hpos, Nat.mul_comm]
    omega

theorem strided_nodup {n threads : ℕ} (hpos : 0 < threads) (tid : ℕ) :
    (strided n threads tid).Nodup :=
  List.nodup_range' threads hpos

/-- Together the threads take every place once. -/
theorem flatMap_strided {n threads : ℕ} (hpos : 0 < threads) :
    ((List.range threads).flatMap (strided n threads)).Perm (List.range n) := by
  refine (List.perm_ext_iff_of_nodup ?_ List.nodup_range).mpr fun i => ?_
  · refine List.nodup_flatMap.mpr ⟨fun tid _ => strided_nodup hpos tid, ?_⟩
    refine List.Pairwise.imp_of_mem ?_ List.nodup_range
    intro a b ha hb hne i hia hib
    rw [mem_strided (List.mem_range.mp ha)] at hia
    rw [mem_strided (List.mem_range.mp hb)] at hib
    exact hne (hia.2.symm.trans hib.2)
  · rw [List.mem_flatMap, List.mem_range]
    constructor
    · rintro ⟨tid, htid, hi⟩
      exact ((mem_strided (List.mem_range.mp htid)).mp hi).1
    · intro hi
      have hmod := Nat.mod_lt i hpos
      exact ⟨i % threads, List.mem_range.mpr hmod, (mem_strided hmod).mpr ⟨hi, rfl⟩⟩

theorem strided_of_le {n threads tid : ℕ} (hpos : 0 < threads) (h : n ≤ tid) :
    strided n threads tid = [] := by
  rw [strided, Nat.sub_eq_zero_of_le h, Nat.zero_add, Nat.div_eq_of_lt (Nat.sub_one_lt_of_lt hpos)]
  rfl

theorem strided_of_lt {n threads tid : ℕ} (hpos : 0 < threads) (h : tid < n) :
    strided n threads tid = tid :: strided n threads (tid + threads) := by
  have hcount : (n - tid + threads - 1) / threads =
      (n - (tid + threads) + threads - 1) / threads + 1 := by
    rw [← Nat.add_div_right _ hpos]
    rcases Nat.lt_or_ge (tid + threads) n with hlt | hge
    · congr 1
      omega
    · rw [Nat.sub_eq_zero_of_le hge, Nat.div_eq_of_lt_le (k := 1) (by omega) (by omega),
        Nat.div_eq_of_lt_le (k := 1) (by omega) (by omega)]
  rw [strided, hcount, List.range'_succ]
  rfl

/-- A loop over blocks of consecutive places takes them all. -/
theorem flatMap_blocks {n size : ℕ} (hpos : 0 < size) (first : ℕ) :
    ((strided n size first).flatMap fun i =>
      List.range' i (if n - i < size then n - i else size)) = List.range' first (n - first) := by
  induction hleft : n - first using Nat.strong_induction_on generalizing first with
  | _ left ih =>
    rcases Nat.lt_or_ge first n with hlt | hge
    · rw [strided_of_lt hpos hlt, List.flatMap_cons, ih (n - (first + size)) (by omega) _ rfl]
      by_cases hlast : n - first < size
      · rw [if_pos hlast, show n - (first + size) = 0 by omega, hleft]
        exact List.append_nil _
      · rw [if_neg hlast, List.range'_append_1]
        congr 1
        omega
    · rw [strided_of_le hpos hge, ← hleft, Nat.sub_eq_zero_of_le hge]
      rfl

/-- The sums of all threads are the sum. -/
theorem sum_strided {M : Type} [AddCommMonoid M] (f : ℕ → M) {n threads : ℕ} (hpos : 0 < threads) :
    ∑ tid ∈ Finset.range threads, ((strided n threads tid).map f).sum =
      ((List.range n).map f).sum := by
  rw [← ((flatMap_strided hpos).map f).sum_eq, List.map_flatMap, List.flatMap_def, List.sum_flatten,
    List.map_map]
  rfl

/-! ## Halving -/

section Halving

variable {σ : Type}

/-- `for (off = 2^(k-1); off > 0; off >>= 1)` -/
def halving (step : ℕ → (ℕ → σ) → ℕ → σ) : ℕ → (ℕ → σ) → ℕ → σ
  | 0, v => v
  | k + 1, v => halving step k (step (2 ^ k) v)

theorem fold_range_add (op : σ → σ → σ) [Std.Commutative op] [Std.Associative op] {b : σ}
    (hb : ∀ a, op a b = a) (f : ℕ → σ) (n m : ℕ) :
    (Finset.range (n + m)).fold op b f =
      op ((Finset.range n).fold op b f) ((Finset.range m).fold op b fun i => f (i + n)) := by
  have hassoc : ∀ a b c, op (op a b) c = op a (op b c) := Std.Associative.assoc
  have hcomm : ∀ a b, op a b = op b a := Std.Commutative.comm
  induction m with
  | zero => rw [Nat.add_zero, Finset.range_zero, Finset.fold_empty, hb]
  | succ m ih =>
    rw [← Nat.add_assoc, Finset.range_add_one, Finset.fold_insert Finset.notMem_range_self, ih,
      Finset.range_add_one, Finset.fold_insert Finset.notMem_range_self, Nat.add_comm m n,
      ← hassoc, ← hassoc, hcomm (f (n + m))]

/-- When each place below `off` takes the one `off` further on, the first place ends with all. -/
theorem halving_fold (op : σ → σ → σ) [Std.Commutative op] [Std.Associative op] {b : σ}
    (hb : ∀ a, op a b = a) {step : ℕ → (ℕ → σ) → ℕ → σ} {k : ℕ}
    (hstep : ∀ j < k, ∀ v i, i < 2 ^ j → step (2 ^ j) v i = op (v i) (v (i + 2 ^ j)))
    (v : ℕ → σ) : halving step k v 0 = (Finset.range (2 ^ k)).fold op b v := by
  induction k generalizing v with
  | zero => simp [halving, hb]
  | succ k ih =>
    have hlast : (Finset.range (2 ^ k)).fold op b (step (2 ^ k) v) =
        (Finset.range (2 ^ k)).fold op b fun i => op (v i) (v (i + 2 ^ k)) :=
      Finset.fold_congr fun i hi => hstep k (Nat.lt_succ_self k) v i (Finset.mem_range.mp hi)
    have hdouble : (Finset.range (2 ^ k)).fold op (op b b) (fun i => op (v i) (v (i + 2 ^ k))) =
        op ((Finset.range (2 ^ k)).fold op b v)
          ((Finset.range (2 ^ k)).fold op b fun i => v (i + 2 ^ k)) := Finset.fold_op_distrib
    rw [hb] at hdouble
    rw [halving, ih fun j hj => hstep j (Nat.lt_succ_of_lt hj), hlast, hdouble, Nat.pow_succ,
      Nat.mul_two, fold_range_add op hb]

end Halving

/-! ## Writes in any order -/

section Writes

variable {σ : Type}

/-- In whatever order the writes come, they leave `f` in the first `n` places and nothing else. -/
def Gives (writes : List (ℕ × σ)) (n : ℕ) (f : ℕ → σ) : Prop :=
  ∀ order : List (ℕ × σ), order.Perm writes → ∀ memory i,
    writeAll order memory i = if i < n then f i else memory i

theorem Gives.congr {writes : List (ℕ × σ)} {n : ℕ} {f g : ℕ → σ} (h : Gives writes n f)
    (hfg : ∀ i < n, f i = g i) : Gives writes n g := by
  intro order hperm memory i
  rw [h order hperm memory i]
  split
  next hi => exact hfg i hi
  · rfl

theorem Gives.unique {writes : List (ℕ × σ)} {n : ℕ} {f g : ℕ → σ} (hf : Gives writes n f)
    (hg : Gives writes n g) {i : ℕ} (hi : i < n) : f i = g i := by
  have h := (hf writes (.refl _) f i).symm.trans (hg writes (.refl _) f i)
  rwa [if_pos hi, if_pos hi] at h

/-- A place is written, and only with one value. -/
theorem writeAll_of_same {writes : List (ℕ × σ)} {i : ℕ} {v : σ} (hmem : ∃ w ∈ writes, w.1 = i)
    (hsame : ∀ w ∈ writes, w.1 = i → w.2 = v) (memory : ℕ → σ) : writeAll writes memory i = v := by
  induction writes using List.reverseRecOn with
  | nil =>
    obtain ⟨w, hw, -⟩ := hmem
    cases hw
  | append_singleton writes w ih =>
    rw [writeAll, List.foldl_append, List.foldl_cons, List.foldl_nil]
    by_cases hi : i = w.1
    · subst hi
      rw [Function.update_self]
      exact hsame w List.mem_concat_self rfl
    · rw [Function.update_of_ne hi]
      obtain ⟨u, hu, hui⟩ := hmem
      have hold : u ∈ writes := by
        rcases List.mem_append.mp hu with hu | hu
        · exact hu
        · rw [List.mem_singleton.mp hu] at hui
          exact absurd hui.symm hi
      exact ih ⟨u, hold, hui⟩ fun w hw => hsame w (List.mem_append_left _ hw)

/-- Every write puts what it should, and every place is written. -/
theorem gives_of_writes {writes : List (ℕ × σ)} {n : ℕ} {f : ℕ → σ}
    (hwrites : ∀ w ∈ writes, w.1 < n ∧ w.2 = f w.1)
    (hall : ∀ i < n, ∃ w ∈ writes, w.1 = i) : Gives writes n f := by
  intro order hperm memory i
  by_cases hi : i < n
  · obtain ⟨w, hw, hwi⟩ := hall i hi
    rw [if_pos hi]
    refine writeAll_of_same ⟨w, hperm.mem_iff.mpr hw, hwi⟩ (fun w hw hwi => ?_) memory
    rw [(hwrites w (hperm.mem_iff.mp hw)).2, hwi]
  · rw [if_neg hi]
    refine writeAll_of_not_mem (fun hmem => ?_) memory
    obtain ⟨w, hw, rfl⟩ := List.mem_map.mp hmem
    exact hi (hwrites w (hperm.mem_iff.mp hw)).1

end Writes

end Sf37.Run

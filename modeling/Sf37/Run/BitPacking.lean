/-
Sf37.Run.BitPacking — numbers of `w` bits one behind the other in zeroed bytes, and records
of bytes one behind the other in memory.

* `bitAt_packStores`: one packed number changes its own bits and no other.
* `unpack_packAll`: the numbers are read back.
* `packStores_within`: which bytes are written.
* `foldl_range_mul`: rows of records are one row of records.
-/
import Mathlib.Data.Nat.Bitwise
import Mathlib.Logic.Function.Basic
import Mathlib.Tactic.Ring

namespace Sf37.Run

/-- Bytes by their addresses. -/
abbrev Mem := ℕ → UInt8

/-! ## Stores -/

/-- `y[a] |= v`, for an address and a value. -/
def orByte (y : Mem) (s : ℕ × UInt8) : Mem := Function.update y s.1 (y s.1 ||| s.2)

/-- Several such stores. -/
def orBytes (y : Mem) (stores : List (ℕ × UInt8)) : Mem := stores.foldl orByte y

@[simp] theorem orBytes_nil (y : Mem) : orBytes y [] = y := rfl

@[simp] theorem orBytes_cons (y : Mem) (s : ℕ × UInt8) (stores : List (ℕ × UInt8)) :
    orBytes y (s :: stores) = orBytes (orByte y s) stores := rfl

theorem orByte_of_ne {y : Mem} {s : ℕ × UInt8} {a : ℕ} (h : a ≠ s.1) : orByte y s a = y a := by
  simp [orByte, h]

/-- Every other byte is as before. -/
theorem orBytes_of_notMem {stores : List (ℕ × UInt8)} {a : ℕ} (h : ∀ s ∈ stores, a ≠ s.1)
    (y : Mem) : orBytes y stores a = y a := by
  induction stores generalizing y with
  | nil => rfl
  | cons s stores ih =>
    rw [orBytes_cons, ih (fun s' hs' => h s' (List.mem_cons_of_mem s hs')),
      orByte_of_ne (h s List.mem_cons_self)]

/-! ## Bits -/

/-- The bit at place `b`, counted from the lowest bit of the byte at `base`. -/
def bitAt (y : Mem) (base b : ℕ) : Bool := (y (base + b / 8)).toNat.testBit (b % 8)

theorem bitAt_orByte (y : Mem) (base k : ℕ) (v : UInt8) (b : ℕ) :
    bitAt (orByte y (base + k, v)) base b =
      (bitAt y base b || (decide (b / 8 = k) && v.toNat.testBit (b % 8))) := by
  unfold bitAt
  by_cases h : b / 8 = k
  · simp [orByte, h]
  · rw [orByte_of_ne (by dsimp only; omega)]
    simp [h]

theorem testBit_shiftLeft (q : UInt8) {s j : ℕ} (hs : s < 8) (hj : j < 8) :
    (q <<< UInt8.ofNat s).toNat.testBit j = (decide (s ≤ j) && q.toNat.testBit (j - s)) := by
  have hmod : (UInt8.ofNat s).toNat % 8 = s := by simp; omega
  rw [UInt8.toNat_shiftLeft, hmod, Nat.testBit_mod_two_pow, Nat.testBit_shiftLeft]
  simp [hj]

theorem testBit_shiftRight (q : UInt8) {s : ℕ} (hs : s < 8) (j : ℕ) :
    (q >>> UInt8.ofNat s).toNat.testBit j = q.toNat.testBit (s + j) := by
  have hmod : (UInt8.ofNat s).toNat % 8 = s := by simp; omega
  rw [UInt8.toNat_shiftRight, hmod, Nat.testBit_shiftRight]

/-- A number has no bits from its width on. -/
theorem testBit_of_le {n w j : ℕ} (h : n < 2 ^ w) (hj : w ≤ j) : n.testBit j = false :=
  Nat.testBit_lt_two_pow (h.trans_le (Nat.pow_le_pow_right (by decide) hj))

/-! ## Packing -/

/-- The stores that put a number of `w` bits to the place `bit`: the second one only when the
number reaches into the next byte. -/
def packStores (w base bit : ℕ) (q : UInt8) : List (ℕ × UInt8) :=
  (base + bit / 8, q <<< UInt8.ofNat (bit % 8)) ::
    if 8 < bit % 8 + w then [(base + (bit / 8 + 1), q >>> UInt8.ofNat (8 - bit % 8))] else []

/-- The number's own bits are set, and no other. -/
theorem bitAt_packStores {w : ℕ} (hw : w ≤ 8) (y : Mem) (base bit : ℕ) {q : UInt8}
    (hq : q.toNat < 2 ^ w) (b : ℕ) :
    bitAt (orBytes y (packStores w base bit q)) base b =
      (bitAt y base b || (decide (bit ≤ b) && q.toNat.testBit (b - bit))) := by
  have hj : b % 8 < 8 := Nat.mod_lt _ (by decide)
  have hs : bit % 8 < 8 := Nat.mod_lt _ (by decide)
  have hfirst : bitAt (orByte y (base + bit / 8, q <<< UInt8.ofNat (bit % 8))) base b =
      (bitAt y base b ||
        (decide (b / 8 = bit / 8 ∧ bit % 8 ≤ b % 8) && q.toNat.testBit (b - bit))) := by
    rw [bitAt_orByte, testBit_shiftLeft q hs hj]
    by_cases hb : b / 8 = bit / 8
    · have hsub : b % 8 - bit % 8 = b - bit := by omega
      simp [hb, hsub]
    · simp [hb]
  rw [packStores, orBytes_cons]
  split
  next hover =>
    rw [orBytes_cons, orBytes_nil, bitAt_orByte, hfirst, testBit_shiftRight q (by omega)]
    by_cases hb : b / 8 = bit / 8
    · have hne : ¬ b / 8 = bit / 8 + 1 := by omega
      have hle : bit % 8 ≤ b % 8 ↔ bit ≤ b := by omega
      simp [hb, hle]
    · by_cases hnext : b / 8 = bit / 8 + 1
      · have hsub : 8 - bit % 8 + b % 8 = b - bit := by omega
        have hle : bit ≤ b := by omega
        simp [hnext, hsub, hle]
      · have hfalse : (decide (bit ≤ b) && q.toNat.testBit (b - bit)) = false := by
          by_cases hle : bit ≤ b
          · rw [testBit_of_le hq (by omega), Bool.and_false]
          · simp [hle]
        rw [hfalse]
        simp [hb, hnext]
  next hover =>
    rw [orBytes_nil, hfirst]
    by_cases hb : b / 8 = bit / 8
    · have hle : bit % 8 ≤ b % 8 ↔ bit ≤ b := by omega
      simp [hb, hle]
    · have hfalse : (decide (bit ≤ b) && q.toNat.testBit (b - bit)) = false := by
        by_cases hle : bit ≤ b
        · rw [testBit_of_le hq (by omega), Bool.and_false]
        · simp [hle]
      rw [hfalse]
      simp [hb]

/-- Which bytes are written. -/
theorem packStores_within {w base bit : ℕ} (hw : 0 < w) {q : UInt8} {s : ℕ × UInt8}
    (h : s ∈ packStores w base bit q) : base ≤ s.1 ∧ 8 * (s.1 - base) < bit + w := by
  rw [packStores] at h
  rcases List.mem_cons.mp h with rfl | h
  · dsimp only
    omega
  · split at h
    · rw [List.mem_singleton.mp h]
      dsimp only
      omega
    · exact absurd h List.not_mem_nil

/-- The first `n` numbers, one behind the other. -/
def packAll (w base : ℕ) (q : ℕ → UInt8) (n : ℕ) (y : Mem) : Mem :=
  (List.range n).foldl (fun y i => orBytes y (packStores w base (w * i) (q i))) y

theorem packAll_succ (w base : ℕ) (q : ℕ → UInt8) (n : ℕ) (y : Mem) :
    packAll w base q (n + 1) y =
      orBytes (packAll w base q n y) (packStores w base (w * n) (q n)) := by
  simp [packAll, List.range_succ]

theorem bitAt_packAll {w : ℕ} (hw : w ≤ 8) (hpos : 0 < w) (base : ℕ) {q : ℕ → UInt8}
    (hq : ∀ i, (q i).toNat < 2 ^ w) (n : ℕ) (y : Mem) (b : ℕ) :
    bitAt (packAll w base q n y) base b =
      (bitAt y base b || (decide (b < w * n) && (q (b / w)).toNat.testBit (b % w))) := by
  induction n with
  | zero => simp [packAll]
  | succ n ih =>
    rw [packAll_succ, bitAt_packStores hw _ _ _ (hq n), ih, Bool.or_assoc]
    congr 1
    rw [Nat.mul_succ]
    rcases Nat.lt_or_ge b (w * n) with hlt | hge
    · have hle : ¬ w * n ≤ b := by omega
      have hlt' : b < w * n + w := by omega
      simp [hlt, hle, hlt']
    · rcases Nat.lt_or_ge b (w * n + w) with hin | hout
      · have hdiv : b / w = n := Nat.div_eq_of_lt_le (by rw [Nat.mul_comm]; exact hge)
          (by rw [Nat.mul_comm, Nat.mul_succ]; exact hin)
        have hmod : b % w = b - w * n := by
          rw [Nat.mod_eq_sub_mul_div, hdiv]
        simp [hge, hin, hdiv, hmod, Nat.not_lt.mpr hge]
      · rw [testBit_of_le (hq n) (by omega)]
        simp [Nat.not_lt.mpr hge, Nat.not_lt.mpr hout]

/-- A byte outside of the packed ones is as before. -/
theorem packAll_frame {w base : ℕ} (hpos : 0 < w) (q : ℕ → UInt8) (n : ℕ) (y : Mem) {a : ℕ}
    (ha : a < base ∨ w * n ≤ 8 * (a - base)) : packAll w base q n y a = y a := by
  induction n with
  | zero => rfl
  | succ n ih =>
    rw [Nat.mul_succ] at ha
    rw [packAll_succ, orBytes_of_notMem _ _, ih (by omega)]
    intro s hs
    have := packStores_within hpos hs
    omega

/-! ## Reading -/

/-- A number of `w` bits from the place `bit` on. -/
def unpack (w : ℕ) (y : Mem) (base bit : ℕ) : ℕ :=
  ((y (base + bit / 8)).toNat >>> (bit % 8) |||
    if 8 < bit % 8 + w then (y (base + (bit / 8 + 1))).toNat <<< (8 - bit % 8) else 0) % 2 ^ w

theorem byte_testBit_of_le (c : UInt8) {j : ℕ} (hj : 8 ≤ j) : c.toNat.testBit j = false :=
  testBit_of_le (w := 8) c.toNat_lt hj

theorem testBit_unpack {w : ℕ} (hw : w ≤ 8) (y : Mem) (base bit j : ℕ) :
    (unpack w y base bit).testBit j = (decide (j < w) && bitAt y base (bit + j)) := by
  rw [unpack, Nat.testBit_mod_two_pow, Nat.testBit_or, Nat.testBit_shiftRight]
  by_cases hj : j < w
  · simp only [hj, decide_true, Bool.true_and, bitAt]
    rcases Nat.lt_or_ge (bit % 8 + j) 8 with hin | hout
    · have hdiv : (bit + j) / 8 = bit / 8 := by omega
      have hmod : (bit + j) % 8 = bit % 8 + j := by omega
      rw [hdiv, hmod]
      split
      · have hnot : ¬ 8 - bit % 8 ≤ j := by omega
        simp [Nat.testBit_shiftLeft, hnot]
      · simp
    · have hdiv : (bit + j) / 8 = bit / 8 + 1 := by omega
      have hmod : (bit + j) % 8 = j - (8 - bit % 8) := by omega
      have hover : 8 < bit % 8 + w := by omega
      have hle : 8 - bit % 8 ≤ j := by omega
      rw [hdiv, hmod, byte_testBit_of_le _ hout, if_pos hover, Nat.testBit_shiftLeft]
      simp [hle]
  · simp [hj]

/-- The numbers are read back from bytes that were zero. -/
theorem unpack_packAll {w : ℕ} (hw : w ≤ 8) (hpos : 0 < w) {base n : ℕ} {q : ℕ → UInt8}
    (hq : ∀ i, (q i).toNat < 2 ^ w) {y : Mem} (hzero : ∀ k, 8 * k < w * n → y (base + k) = 0)
    {i : ℕ} (hi : i < n) : unpack w (packAll w base q n y) base (w * i) = (q i).toNat := by
  refine Nat.eq_of_testBit_eq fun j => ?_
  rw [testBit_unpack hw, bitAt_packAll hw hpos base hq]
  by_cases hj : j < w
  · have hlt : w * i + j < w * n := by
      have := Nat.mul_le_mul_left w hi
      rw [Nat.mul_succ] at this
      omega
    have hdiv : (w * i + j) / w = i := by
      rw [Nat.mul_add_div hpos, Nat.div_eq_of_lt hj, Nat.add_zero]
    have hmod : (w * i + j) % w = j := by rw [Nat.mul_add_mod, Nat.mod_eq_of_lt hj]
    have hclear : bitAt y base (w * i + j) = false := by
      rw [bitAt, hzero _ (by omega)]
      simp
    simp [hj, hlt, hdiv, hmod, hclear]
  · rw [testBit_of_le (hq i) (by omega)]
    simp [hj]

/-! ## Records -/

/-- A record of `len` bytes from `lo` on, in place of what was there. -/
def overwrite (lo len : ℕ) (c : ℕ → UInt8) (y : Mem) : Mem := fun a =>
  if lo ≤ a ∧ a < lo + len then c (a - lo) else y a

/-- A loop over rows and places in them is a loop over all places. -/
theorem foldl_range_mul {σ : Type} (f : σ → ℕ → σ) (n m : ℕ) (s : σ) :
    (List.range n).foldl (fun s i => (List.range m).foldl (fun s j => f s (i * m + j)) s) s =
      (List.range (n * m)).foldl f s := by
  induction n with
  | zero => simp
  | succ n ih =>
    rw [List.range_succ, List.foldl_append, ih, List.foldl_cons, List.foldl_nil, Nat.succ_mul,
      List.range_add, List.foldl_append, List.foldl_map]

end Sf37.Run

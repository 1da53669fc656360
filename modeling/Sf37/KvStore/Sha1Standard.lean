/-
Sf37.KvStore.Sha1Standard — the hash of the checkpoint files is SHA-1.

The standard speaks of strings of bits and of words as bit vectors, the code of bytes and
of a context that is updated in pieces.

* `vars_sha1Transform`: a block that is transformed is the standard's next hash value.
* `sha1Update_holds`: a context holds the hash of the bytes it was given.
* `sha1Pad_holds`, `pad_bitsOf`: what `sha1_final` adds is the standard's padding.
* `sha1_isStandard`: the digest of a text, whole or in pieces.
-/
import Sf37.KvStore.Sha1
import Sf37.Hash.Sha1
import Sf37.Run.Buffer
import Mathlib.Data.Nat.Bitwise
import Mathlib.Tactic.Ring

namespace Sf37.KvStore

open Sf37.Text Sf37.Hash Sf37.Run
open Sf37.Hash.Sha1 (bitsOf toBits ofBits messageWord Vars)

/-! ## Bits of bytes -/

@[simp] theorem length_toBits (w n : Nat) : (toBits w n).length = w := by simp [toBits]

@[simp] theorem bitsOf_nil : bitsOf [] = [] := rfl

theorem bitsOf_cons (b : UInt8) (bs : Bytes) : bitsOf (b :: bs) = toBits 8 b.toNat ++ bitsOf bs :=
  rfl

theorem bitsOf_append (bs cs : Bytes) : bitsOf (bs ++ cs) = bitsOf bs ++ bitsOf cs := by
  simp [bitsOf]

@[simp] theorem length_bitsOf (bs : Bytes) : (bitsOf bs).length = 8 * bs.length := by
  induction bs with
  | nil => rfl
  | cons b bs ih => simp [bitsOf_cons, ih]; omega

theorem drop_bitsOf (bs : Bytes) (j : Nat) : (bitsOf bs).drop (8 * j) = bitsOf (bs.drop j) := by
  induction j generalizing bs with
  | zero => rfl
  | succ j ih =>
    cases bs with
    | nil => rfl
    | cons b bs =>
      rw [bitsOf_cons, Nat.mul_succ, Nat.add_comm, ← List.drop_drop,
        List.drop_left' (length_toBits 8 _), ih, List.drop_succ_cons]

theorem take_bitsOf (bs : Bytes) (j : Nat) : (bitsOf bs).take (8 * j) = bitsOf (bs.take j) := by
  induction j generalizing bs with
  | zero => rfl
  | succ j ih =>
    cases bs with
    | nil => rfl
    | cons b bs =>
      rw [bitsOf_cons, Nat.mul_succ, Nat.add_comm, List.take_add,
        List.take_left' (length_toBits 8 _), List.drop_left' (length_toBits 8 _), ih,
        List.take_succ_cons, bitsOf_cons]

/-- Bits behind a number that is read already. -/
theorem foldl_bits (v : Nat) (bs : List Bool) :
    bs.foldl (fun v b => 2 * v + b.toNat) v = 2 ^ bs.length * v + ofBits bs := by
  induction bs generalizing v with
  | nil => simp [ofBits]
  | cons b bs ih =>
    rw [ofBits, List.foldl_cons, List.foldl_cons, ih, ih (2 * 0 + b.toNat), List.length_cons,
      Nat.pow_succ]
    ring

theorem ofBits_toBits_byte (b : UInt8) : ofBits (toBits 8 b.toNat) = b.toNat := by
  have hall : ∀ n < 256, ofBits (toBits 8 n) = n := by decide +kernel
  exact hall _ b.toNat_lt

theorem ofBits_snoc (bs : Bytes) (b : UInt8) :
    ofBits (bitsOf (bs ++ [b])) = 256 * ofBits (bitsOf bs) + b.toNat := by
  rw [bitsOf_append, ofBits, List.foldl_append, ← ofBits, foldl_bits, bitsOf_cons, bitsOf_nil,
    List.append_nil, ofBits_toBits_byte, length_toBits]
  rfl

/-- Four bytes as a number. -/
theorem ofBits_four (b₀ b₁ b₂ b₃ : UInt8) :
    ofBits (bitsOf [b₀, b₁, b₂, b₃]) =
      ((b₀.toNat * 256 + b₁.toNat) * 256 + b₂.toNat) * 256 + b₃.toNat := by
  have h₁ := ofBits_snoc [] b₀
  have h₂ := ofBits_snoc [b₀] b₁
  have h₃ := ofBits_snoc [b₀, b₁] b₂
  have h₄ := ofBits_snoc [b₀, b₁, b₂] b₃
  simp only [List.nil_append, List.cons_append, bitsOf_nil, ofBits, List.foldl_nil] at *
  omega

/-! ## A block -/

/-- The hash value of a context. -/
def Sha1Ctx.vars (c : Sha1Ctx) : Vars :=
  ⟨c.h0.toBitVec, c.h1.toBitVec, c.h2.toBitVec, c.h3.toBitVec, c.h4.toBitVec⟩

theorem vars_setBlock (c : Sha1Ctx) (block : Bytes) :
    ({ c with block := block } : Sha1Ctx).vars = c.vars := rfl

/-- The working variables of a round. -/
def Sha1Round.vars (r : Sha1Round) : Vars :=
  ⟨r.a.toBitVec, r.b.toBitVec, r.cc.toBitVec, r.d.toBitVec, r.e.toBitVec⟩

theorem toNat_blockWord (block : Bytes) (i : Nat) :
    (blockWord block i).toNat =
      (((block.getD (i * 4) 0).toNat * 256 + (block.getD (i * 4 + 1) 0).toNat) * 256 +
        (block.getD (i * 4 + 2) 0).toNat) * 256 + (block.getD (i * 4 + 3) 0).toNat := by
  rw [blockWord]
  have h₀ := (block.getD (i * 4) 0).toNat_lt
  have h₁ := (block.getD (i * 4 + 1) 0).toNat_lt
  have h₂ := (block.getD (i * 4 + 2) 0).toNat_lt
  have h₃ := (block.getD (i * 4 + 3) 0).toNat_lt
  generalize block.getD (i * 4) 0 = b₀ at *
  generalize block.getD (i * 4 + 1) 0 = b₁ at *
  generalize block.getD (i * 4 + 2) 0 = b₂ at *
  generalize block.getD (i * 4 + 3) 0 = b₃ at *
  have hshift : ∀ b k : Nat, b < 2 ^ 8 → k ≤ 24 → b <<< k % 2 ^ 32 = b <<< k := by
    intro b k hb hk
    have hpow : 2 ^ 8 * 2 ^ k ≤ 2 ^ 32 := by
      rw [← Nat.pow_add]
      exact Nat.pow_le_pow_right (by decide) (by omega)
    rw [Nat.shiftLeft_eq]
    exact Nat.mod_eq_of_lt
      (Nat.lt_of_lt_of_le (Nat.mul_lt_mul_of_pos_right hb (Nat.two_pow_pos k)) hpow)
  have hor : ∀ {a b : Nat} (k : Nat), b < 2 ^ k → a <<< k ||| b = a * 2 ^ k + b := by
    intro a b k hb
    rw [← Nat.shiftLeft_add_eq_or_of_lt hb, Nat.shiftLeft_eq]
  calc _ = (b₀.toNat <<< 24 % 2 ^ 32 ||| b₁.toNat <<< 16 % 2 ^ 32 |||
        b₂.toNat <<< 8 % 2 ^ 32 ||| b₃.toNat) := by
        simp only [UInt32.toNat_or, UInt32.toNat_shiftLeft, UInt8.toNat_toUInt32]
        rfl
    _ = b₀.toNat <<< 24 ||| (b₁.toNat <<< 16 ||| (b₂.toNat <<< 8 ||| b₃.toNat)) := by
        rw [hshift _ 24 h₀ (by omega), hshift _ 16 h₁ (by omega), hshift _ 8 h₂ (by omega),
          Nat.or_assoc, Nat.or_assoc]
    _ = _ := by
        rw [hor 8 h₃, hor 16 (by omega), hor 24 (by omega)]
        omega

/-- A word of a block is the standard's. -/
theorem toBitVec_blockWord {block : Bytes} (hlen : block.length = 64) {t : Nat} (ht : t < 16) :
    (blockWord block t).toBitVec = messageWord (bitsOf block) t := by
  obtain ⟨b₀, b₁, b₂, b₃, rest, hb⟩ : ∃ b₀ b₁ b₂ b₃ rest,
      block.drop (4 * t) = b₀ :: b₁ :: b₂ :: b₃ :: rest := by
    have hdrop : (block.drop (4 * t)).length = 64 - 4 * t := by rw [List.length_drop, hlen]
    rcases h : block.drop (4 * t) with _ | ⟨b₀, _ | ⟨b₁, _ | ⟨b₂, _ | ⟨b₃, rest⟩⟩⟩⟩ <;>
      simp only [h, List.length_cons, List.length_nil] at hdrop
    case cons.cons.cons.cons => exact ⟨b₀, b₁, b₂, b₃, rest, rfl⟩
    all_goals omega
  have hget : ∀ j, block.getD (t * 4 + j) 0 = (block.drop (4 * t)).getD j 0 := by
    intro j
    rw [List.getD_eq_getElem?_getD, List.getD_eq_getElem?_getD, List.getElem?_drop, Nat.mul_comm]
  have h0 := hget 0
  rw [Nat.add_zero] at h0
  have hword : messageWord (bitsOf block) t = BitVec.ofNat 32 (blockWord block t).toNat := by
    rw [messageWord, toNat_blockWord, h0, hget 1, hget 2, hget 3, hb,
      show 32 * t = 8 * (4 * t) by omega, drop_bitsOf, take_bitsOf _ 4, hb]
    exact congrArg _ (ofBits_four b₀ b₁ b₂ b₃)
  rw [hword]
  apply BitVec.eq_of_toNat_eq
  rw [BitVec.toNat_ofNat]
  exact (Nat.mod_eq_of_lt (UInt32.toNat_lt _)).symm

theorem toBitVec_rol32_one (v : UInt32) : (rol32 v 1).toBitVec = Sha1.rotl 1 v.toBitVec := rfl

theorem toBitVec_rol32_five (v : UInt32) : (rol32 v 5).toBitVec = Sha1.rotl 5 v.toBitVec := rfl

theorem toBitVec_rol32_thirty (v : UInt32) : (rol32 v 30).toBitVec = Sha1.rotl 30 v.toBitVec := rfl

/-- The words made of a block are the standard's. -/
theorem scheduleWords_eq {m : List Bool} (n : Nat) {w : List UInt32} (hlen : 16 ≤ w.length)
    (hw : ∀ t < w.length, (w.getD t 0).toBitVec = Sha1.schedule m t) :
    ∀ t < w.length + n, ((scheduleWords n w).getD t 0).toBitVec = Sha1.schedule m t := by
  induction n generalizing w with
  | zero => exact hw
  | succ n ih =>
    intro t ht
    rw [scheduleWords]
    refine ih (by rw [List.length_append]; omega) (fun t ht => ?_) t
      (by rw [List.length_append, List.length_singleton]; omega)
    rw [List.length_append, List.length_singleton] at ht
    rw [List.getD_eq_getElem?_getD]
    by_cases hold : t < w.length
    · rw [List.getElem?_append_left hold, ← List.getD_eq_getElem?_getD]
      exact hw t hold
    · obtain rfl : t = w.length := by omega
      rw [List.getElem?_concat_length, Option.getD_some, toBitVec_rol32_one, Sha1.schedule,
        if_neg (by omega)]
      simp only [UInt32.toBitVec_xor]
      rw [hw _ (by omega), hw _ (by omega), hw _ (by omega), hw _ (by omega)]

/-- The function and the constant of a round. -/
theorem ch_eq (x y z : Sha1.Word) : (x &&& y) ||| (~~~x &&& z) = Sha1.ch x y z := by
  apply BitVec.eq_of_getLsbD_eq
  intro i hi
  simp only [Sha1.ch, BitVec.getLsbD_or, BitVec.getLsbD_and, BitVec.getLsbD_not, BitVec.getLsbD_xor]
  cases x.getLsbD i <;> cases y.getLsbD i <;> cases z.getLsbD i <;> simp [hi]

theorem maj_eq (x y z : Sha1.Word) :
    (x &&& y) ||| (x &&& z) ||| (y &&& z) = Sha1.maj x y z := by
  apply BitVec.eq_of_getLsbD_eq
  intro i _
  simp only [Sha1.maj, BitVec.getLsbD_or, BitVec.getLsbD_and, BitVec.getLsbD_xor]
  cases x.getLsbD i <;> cases y.getLsbD i <;> cases z.getLsbD i <;> rfl

/-- A round is a step of the standard. -/
theorem vars_sha1Round {m : List Bool} {w : List UInt32} {t : Nat} (r : Sha1Round)
    (hw : (w.getD t 0).toBitVec = Sha1.schedule m t) :
    (sha1Round w r t).vars = Sha1.step m t r.vars := by
  simp only [sha1Round, Sha1Round.vars, Sha1.step, UInt32.toBitVec_add, toBitVec_rol32_five,
    toBitVec_rol32_thirty, hw, Sha1.f, Sha1.k]
  by_cases h₁ : t < 20
  · rw [if_pos h₁, if_pos (by omega : t ≤ 19), if_pos (by omega : t ≤ 19), ← ch_eq]
    rfl
  rw [if_neg h₁, if_neg (by omega : ¬ t ≤ 19), if_neg (by omega : ¬ t ≤ 19)]
  by_cases h₂ : t < 40
  · rw [if_pos h₂, if_pos (by omega : t ≤ 39), if_pos (by omega : t ≤ 39)]
    rfl
  rw [if_neg h₂, if_neg (by omega : ¬ t ≤ 39), if_neg (by omega : ¬ t ≤ 39)]
  by_cases h₃ : t < 60
  · rw [if_pos h₃, if_pos (by omega : t ≤ 59), if_pos (by omega : t ≤ 59), ← maj_eq]
    rfl
  rw [if_neg h₃, if_neg (by omega : ¬ t ≤ 59), if_neg (by omega : ¬ t ≤ 59)]
  rfl

theorem vars_foldl_sha1Round {m : List Bool} {w : List UInt32} (r : Sha1Round) {n : Nat}
    (hw : ∀ t < n, (w.getD t 0).toBitVec = Sha1.schedule m t) :
    ((List.range n).foldl (sha1Round w) r).vars = Sha1.steps m r.vars n := by
  induction n with
  | zero => rfl
  | succ n ih =>
    rw [List.range_succ, List.foldl_append, List.foldl_cons, List.foldl_nil, Sha1.steps,
      vars_sha1Round _ (hw n (by omega)), ih fun t ht => hw t (by omega)]

/-- A block that is transformed is the standard's next hash value. -/
theorem vars_sha1Transform (c : Sha1Ctx) {block : Bytes} (hlen : block.length = 64) :
    (sha1Transform c block).vars = Sha1.next c.vars (bitsOf block) := by
  have hfirst : ∀ t < ((List.range 16).map (blockWord block)).length,
      (((List.range 16).map (blockWord block)).getD t 0).toBitVec =
        Sha1.schedule (bitsOf block) t := by
    intro t ht
    rw [List.length_map, List.length_range] at ht
    rw [List.getD_eq_getElem?_getD, List.getElem?_map, List.getElem?_range ht, Option.map_some,
      Option.getD_some, Sha1.schedule, if_pos ht, toBitVec_blockWord hlen ht]
  have hwords := scheduleWords_eq 64 (by simp) hfirst
  rw [List.length_map, List.length_range] at hwords
  have hrounds := vars_foldl_sha1Round ⟨c.h0, c.h1, c.h2, c.h3, c.h4⟩ hwords
  have hstart : Sha1Round.vars ⟨c.h0, c.h1, c.h2, c.h3, c.h4⟩ = c.vars := rfl
  rw [hstart] at hrounds
  rw [sha1Transform, Sha1.next, ← hrounds]
  simp only [Sha1Ctx.vars, Sha1Round.vars, UInt32.toBitVec_add, BitVec.add_comm]

theorem bytes_sha1Transform (c : Sha1Ctx) (block : Bytes) :
    (sha1Transform c block).bytes = c.bytes := by
  obtain ⟨h0, h1, h2, h3, h4, h⟩ : ∃ h0 h1 h2 h3 h4,
      sha1Transform c block = ⟨h0, h1, h2, h3, h4, c.bytes, c.block⟩ := by
    unfold sha1Transform
    exact ⟨_, _, _, _, _, rfl⟩
  rw [h]

/-! ## The context -/

/-- The standard's next hash value, of a block of bytes. -/
def nextOfBytes (v : Vars) (block : Bytes) : Vars := Sha1.next v (bitsOf block)

/-- A context that was given some bytes since `sha1_init`. -/
structure Sha1Ctx.Holds (c : Sha1Ctx) (m : Bytes) : Prop where
  buffers : Buffers nextOfBytes 64 Sha1.initial m c.vars c.block
  count : c.bytes = m.length % 2 ^ 64

theorem sha1Init_holds : sha1Init.Holds [] := ⟨.nil, rfl⟩

theorem Sha1Ctx.Holds.length {c : Sha1Ctx} {m : Bytes} (h : c.Holds m) :
    c.block.length = m.length % 64 := h.buffers.length

/-- What a turn of the loop of an update does with the bytes it takes. -/
def takeUp (c : Sha1Ctx) (xs : Bytes) : Sha1Ctx :=
  if (c.block ++ xs).length = 64 then { sha1Transform c (c.block ++ xs) with block := [] }
  else { c with block := c.block ++ xs }

theorem sha1UpdateLoop_turn (fuel : Nat) (c : Sha1Ctx) {p : Bytes} (hp : p ≠ []) :
    sha1UpdateLoop (fuel + 1) c p =
      sha1UpdateLoop fuel (takeUp c (p.take (min (64 - c.block.length) p.length)))
        (p.drop (min (64 - c.block.length) p.length)) := by
  rw [sha1UpdateLoop, if_neg hp]
  rfl

theorem takeUp_buffers {c : Sha1Ctx} {m xs : Bytes}
    (h : Buffers nextOfBytes 64 Sha1.initial m c.vars c.block)
    (hxs : xs.length ≤ 64 - c.block.length) :
    Buffers nextOfBytes 64 Sha1.initial (m ++ xs) (takeUp c xs).vars (takeUp c xs).block ∧
      (takeUp c xs).bytes = c.bytes := by
  have hlen := h.length
  rw [takeUp]
  by_cases hfull : (c.block ++ xs).length = 64
  · have hvars := vars_sha1Transform c hfull
    have hbytes := bytes_sha1Transform c (c.block ++ xs)
    rw [if_pos hfull]
    generalize sha1Transform c (c.block ++ xs) = c' at hvars hbytes ⊢
    have hfill := h.fill (by decide) xs (by rwa [List.length_append] at hfull)
    rw [nextOfBytes, ← hvars] at hfill
    rw [vars_setBlock]
    exact ⟨hfill, hbytes⟩
  · rw [if_neg hfull]
    rw [List.length_append] at hfull
    exact ⟨h.within (by decide) xs (by omega), rfl⟩

/-- The loop of an update takes up all bytes. -/
theorem sha1UpdateLoop_buffers {fuel : Nat} {c : Sha1Ctx} {m p : Bytes} (hfuel : p.length < fuel)
    (h : Buffers nextOfBytes 64 Sha1.initial m c.vars c.block) :
    Buffers nextOfBytes 64 Sha1.initial (m ++ p) (sha1UpdateLoop fuel c p).vars
        (sha1UpdateLoop fuel c p).block ∧
      (sha1UpdateLoop fuel c p).bytes = c.bytes := by
  induction fuel generalizing c m p with
  | zero => omega
  | succ fuel ih =>
    by_cases hp : p = []
    · rw [sha1UpdateLoop, if_pos hp, hp, List.append_nil]
      exact ⟨h, rfl⟩
    rw [sha1UpdateLoop_turn fuel c hp]
    have hlen := h.length
    have hpos := List.length_pos_iff.mpr hp
    obtain ⟨n, hn⟩ : ∃ n, n = min (64 - c.block.length) p.length := ⟨_, rfl⟩
    rw [← hn]
    have htake : (p.take n).length ≤ 64 - c.block.length := by
      rw [List.length_take]
      omega
    have hrest : (p.drop n).length < fuel := by
      rw [List.length_drop]
      omega
    obtain ⟨hturn, hbytes⟩ := takeUp_buffers h htake
    have hstep := ih hrest hturn
    rw [List.append_assoc, List.take_append_drop] at hstep
    exact ⟨hstep.1, hstep.2.trans hbytes⟩

theorem sha1Update_holds {c : Sha1Ctx} {m : Bytes} (h : c.Holds m) (p : Bytes) :
    (sha1Update c p).Holds (m ++ p) := by
  obtain ⟨hbuffers, hbytes⟩ := sha1UpdateLoop_buffers (p := p)
    (c := { c with bytes := (c.bytes + p.length) % 2 ^ 64 }) (Nat.lt_succ_self _) h.buffers
  refine ⟨hbuffers, hbytes.trans ?_⟩
  rw [List.length_append]
  dsimp only
  rw [h.count, Nat.mod_add_mod]

theorem foldl_sha1Update_holds {c : Sha1Ctx} {m : Bytes} (h : c.Holds m) (chunks : List Bytes) :
    (chunks.foldl sha1Update c).Holds (m ++ chunks.flatten) := by
  induction chunks generalizing c m with
  | nil => simpa using h
  | cons p chunks ih =>
    have hstep := ih (sha1Update_holds h p)
    rwa [List.append_assoc, ← List.flatten_cons] at hstep

/-! ## Padding -/

/-- The zero bytes between the mark and the length. -/
def zeroBytes (n : Nat) : Nat := (120 - (n + 1) % 64) % 64

theorem zeroBytes_spec (n : Nat) : (n + 1 + zeroBytes n) % 64 = 56 ∧ zeroBytes n < 64 := by
  unfold zeroBytes
  omega

theorem sha1Pad_holds {fuel k : Nat} {c : Sha1Ctx} {m : Bytes} (h : c.Holds m)
    (hk : (m.length + k) % 64 = 56) (hlt : k < 64) (hfuel : k ≤ fuel) :
    (sha1Pad fuel c).Holds (m ++ List.replicate k 0) := by
  induction fuel generalizing c m k with
  | zero =>
    obtain rfl := Nat.le_zero.mp hfuel
    simpa [sha1Pad] using h
  | succ fuel ih =>
    have hlen := h.length
    rw [sha1Pad]
    split
    next hfull =>
      obtain rfl : k = 0 := by omega
      simpa using h
    next hfull =>
      obtain ⟨k, rfl⟩ : ∃ j, k = j + 1 := ⟨k - 1, by omega⟩
      have hstep := ih (k := k) (sha1Update_holds h [0])
        (by rw [List.length_append, List.length_singleton]; omega) (by omega) (by omega)
      rwa [List.append_assoc, List.singleton_append, ← List.replicate_succ] at hstep

/-- The bytes of the length. -/
def lengthBytes (bits : Nat) : Bytes :=
  (List.range 8).map fun i => UInt8.ofNat (bits >>> (8 * (7 - i)))

theorem bitsOf_lengthBytes (v : Nat) : bitsOf (lengthBytes v) = toBits 64 v := by
  have hbyte : ∀ s, toBits 8 (UInt8.ofNat (v >>> s)).toNat =
      (List.range 8).map fun j => v.testBit (s + (7 - j)) := by
    intro s
    rw [toBits, UInt8.toNat_ofNat']
    refine List.map_congr_left fun j hj => ?_
    have hj := List.mem_range.mp hj
    rw [Nat.testBit_mod_two_pow, Nat.testBit_shiftRight]
    simp
    omega
  rw [lengthBytes, bitsOf, List.flatMap_map]
  simp only [hbyte]
  rfl

theorem bitsOf_replicate_zero (k : Nat) :
    bitsOf (List.replicate k 0) = List.replicate (8 * k) false := by
  induction k with
  | zero => rfl
  | succ k ih =>
    rw [List.replicate_succ, bitsOf_cons, ih, Nat.mul_succ, Nat.add_comm,
      List.replicate_add]
    rfl

/-- A message with what `sha1_final` adds to it. -/
def padBytes (m : Bytes) : Bytes :=
  m ++ [0x80] ++ List.replicate (zeroBytes m.length) 0 ++ lengthBytes (8 * m.length)

/-- It is the standard's padding. -/
theorem pad_bitsOf (m : Bytes) : Sha1.pad (bitsOf m) = bitsOf (padBytes m) := by
  have hzeros : Sha1.padZeros (8 * m.length) = 7 + 8 * zeroBytes m.length := by
    unfold Sha1.padZeros zeroBytes
    omega
  have hmark : bitsOf [0x80] = [true] ++ List.replicate 7 false := by decide
  rw [Sha1.pad, padBytes, length_bitsOf, hzeros, bitsOf_append, bitsOf_append, bitsOf_append,
    bitsOf_lengthBytes, bitsOf_replicate_zero, hmark, List.replicate_add]
  simp only [List.append_assoc]

/-- The hash values of a message are the states of the stream. -/
theorem hashValue_bitsOf (m : Bytes) (k : Nat) :
    Sha1.hashValue (bitsOf m) k = blocks nextOfBytes 64 Sha1.initial m k := by
  induction k with
  | zero => rfl
  | succ k ih =>
    have hblock : Sha1.block (bitsOf m) k = bitsOf ((m.drop (64 * k)).take 64) := by
      rw [Sha1.block, show 512 * k = 8 * (64 * k) by omega, drop_bitsOf, take_bitsOf _ 64]
    rw [Sha1.hashValue, blocks, ih, hblock, nextOfBytes]

/-! ## The digest -/

theorem hexDigit_eq {n : Nat} (h : n < 16) : hexDigit n = Sha1.hexDigit n := by
  have hall : ∀ n < 16, hexDigit n = Sha1.hexDigit n := by decide
  exact hall n h

theorem hex20_append (xs ys : Bytes) : hex20 (xs ++ ys) = hex20 xs ++ hex20 ys := by
  simp [hex20]

theorem hex20_wordBytes (v : UInt32) : hex20 (wordBytes v) = Sha1.hexWord v.toBitVec := by
  have hbyte : ∀ b : UInt8, hex20 [b] =
      [Sha1.hexDigit (b.toNat / 16), Sha1.hexDigit (b.toNat % 16)] := by
    intro b
    have hb := b.toNat_lt
    have hhigh : b.toNat >>> 4 = b.toNat / 16 := Nat.shiftRight_eq_div_pow _ _
    have hlow : b.toNat &&& 15 = b.toNat % 16 := Nat.and_two_pow_sub_one_eq_mod _ 4
    rw [← hexDigit_eq (by omega), ← hexDigit_eq (by omega), ← hhigh, ← hlow]
    rfl
  have hshift : ∀ k : UInt32, k.toNat < 32 →
      (v >>> k).toUInt8.toNat = v.toNat / 2 ^ k.toNat % 256 := by
    intro k hk
    rw [UInt32.toNat_toUInt8, UInt32.toNat_shiftRight, Nat.mod_eq_of_lt hk,
      Nat.shiftRight_eq_div_pow]
  have h₀ : (v >>> 24).toUInt8.toNat = v.toNat / 2 ^ 24 % 256 := hshift 24 (by decide)
  have h₁ : (v >>> 16).toUInt8.toNat = v.toNat / 2 ^ 16 % 256 := hshift 16 (by decide)
  have h₂ : (v >>> 8).toUInt8.toNat = v.toNat / 2 ^ 8 % 256 := hshift 8 (by decide)
  have h₃ : v.toUInt8.toNat = v.toNat % 256 := UInt32.toNat_toUInt8 v
  have hv : v.toBitVec.toNat = v.toNat := rfl
  have hlt := v.toNat_lt
  have hfour : ∀ b₀ b₁ b₂ b₃ : UInt8,
      hex20 [b₀, b₁, b₂, b₃] = hex20 [b₀] ++ hex20 [b₁] ++ hex20 [b₂] ++ hex20 [b₃] :=
    fun _ _ _ _ => rfl
  rw [wordBytes, hfour, hbyte, hbyte, hbyte, hbyte, h₀, h₁, h₂, h₃, Sha1.hexWord, hv]
  simp only [List.range_succ, List.range_zero, List.nil_append, List.map_cons, List.map_nil,
    List.cons_append, Nat.reduceSub, Nat.reducePow, List.cons.injEq, and_true]
  refine ⟨congrArg _ ?_, congrArg _ ?_, congrArg _ ?_, congrArg _ ?_, congrArg _ ?_,
    congrArg _ ?_, congrArg _ ?_, congrArg _ ?_⟩ <;> omega

/-- What `sha1_final` gives of a context that holds a message. -/
theorem hex20_sha1Final {c : Sha1Ctx} {m : Bytes} (h : c.Holds m) (hlen : m.length < 2 ^ 61) :
    hex20 (sha1Final c) = Sha1.hex (Sha1.sha1 (bitsOf m)) := by
  have hbits : c.bytes * 8 % 2 ^ 64 = 8 * m.length := by
    rw [h.count]
    omega
  have hmark := sha1Update_holds h [0x80]
  have hzeros := zeroBytes_spec m.length
  rw [← List.length_singleton (a := (0x80 : UInt8)), ← List.length_append] at hzeros
  have hpad := sha1Pad_holds hmark hzeros.1 hzeros.2 (by omega : _ ≤ 64)
  have hfinal := sha1Update_holds hpad (lengthBytes (8 * m.length))
  have hvars := hfinal.buffers.state
  rw [← padBytes, ← hashValue_bitsOf, ← pad_bitsOf] at hvars
  have hcount : (padBytes m).length / 64 = (Sha1.pad (bitsOf m)).length / 512 := by
    rw [pad_bitsOf, length_bitsOf]
    omega
  rw [hcount, ← Sha1.sha1] at hvars
  rw [sha1Final, hbits, ← lengthBytes, ← hvars]
  simp only [hex20_append, hex20_wordBytes]
  rfl

/-- For every text whose length in bits is a number of 64 bits, the digest is SHA-1, and it is
the same for the text in pieces. -/
theorem sha1_isStandard {m : Bytes} (hlen : m.length < 2 ^ 61) :
    sha1BytesHex m = Sha1.hex (Sha1.sha1 (bitsOf m)) ∧
      ∀ chunks : List Bytes, chunks.flatten = m →
        hex20 (sha1Final (chunks.foldl sha1Update sha1Init)) =
          Sha1.hex (Sha1.sha1 (bitsOf m)) := by
  refine ⟨?_, fun chunks hchunks => ?_⟩
  · exact hex20_sha1Final (sha1Update_holds sha1Init_holds m) hlen
  · have hholds := foldl_sha1Update_holds sha1Init_holds chunks
    rw [List.nil_append, hchunks] at hholds
    exact hex20_sha1Final hholds hlen

theorem sha1_isStandard_abc :
    sha1BytesHex (bytes "abc") = bytes "a9993e364706816aba3e25717850c26c9cd0d89d" ∧
      sha1BytesHex (bytes "abc") = Sha1.hex (Sha1.sha1 (bitsOf (bytes "abc"))) ∧
      hex20 (sha1Final ([bytes "a", [], bytes "bc"].foldl sha1Update sha1Init)) =
        Sha1.hex (Sha1.sha1 (bitsOf (bytes "abc"))) := by
  have hlen : (bytes "abc").length < 2 ^ 61 := by decide
  have hall := sha1_isStandard hlen
  exact ⟨by decide +kernel, hall.1, hall.2 [bytes "a", [], bytes "bc"] (by decide +kernel)⟩

end Sf37.KvStore

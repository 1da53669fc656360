/-
Sf37.Quantize.AsymReadBack — the engine reads out of the blocks of an expert tensor what the
quantizer put there.

* `GroupHolds`: the readers find the codes, the zero point and the scale of a group.
* `storeGroup_holds`, `storeGroup_frame`: a writer puts them there and leaves the others.
* `quantizeExperts_eq`: the whole tensor is its blocks, one behind the other.
* `asym_readBack`: every value of every expert is read back.
-/
import Sf37.Quantize.AsymBlock

namespace Sf37.Quantize

open Sf37.Run

/-! ## Codes as packed bits -/

/-- The bits of a code. -/
def AsymType.bits : AsymType → ℕ
  | .q3K => 3
  | .q2K => 2

theorem AsymType.bits_pos (t : AsymType) : 0 < t.bits := by cases t <;> decide

theorem AsymType.bits_le (t : AsymType) : t.bits ≤ 8 := by cases t <;> decide

theorem AsymType.qmax_succ (t : AsymType) : t.qmax + 1 = 2 ^ t.bits := by cases t <;> rfl

/-- The payload holds the 64 codes and nothing else. -/
theorem AsymType.payload_eq (t : AsymType) : t.bits * 64 = 8 * t.payload := by cases t <;> rfl

/-- The four payloads end in the block. -/
theorem AsymType.payload_le (t : AsymType) : 12 + 4 * t.payload ≤ t.blockSize := by
  cases t <;> decide

/-- Both writers pack their codes. -/
theorem stores_eq_packStores (t : AsymType) (qout i : ℕ) (q : UInt8) :
    t.stores qout i q = packStores t.bits qout (t.bits * i) q := by
  cases t with
  | q3K =>
    show q3Stores qout i q = packStores 3 qout (3 * i) q
    have hover : 5 < 3 * i % 8 ↔ 8 < 3 * i % 8 + 3 := by omega
    simp only [q3Stores, packStores, hover, Nat.add_assoc]
  | q2K =>
    show q2Stores qout i q = packStores 2 qout (2 * i) q
    have hover : ¬ 8 < 2 * i % 8 + 2 := by omega
    have hbyte : i / 4 = 2 * i / 8 := by omega
    have hshift : i % 4 * 2 = 2 * i % 8 := by omega
    simp only [q2Stores, packStores, hover, if_false, hbyte, hshift]

theorem storeCodes_eq_packAll (t : AsymType) (y : Mem) (qout : ℕ) (q : ℕ → UInt8) :
    storeCodes t y qout q = packAll t.bits qout q 64 y := by
  simp only [storeCodes, packAll, stores_eq_packStores]

/-- Both readers unpack. -/
theorem get_eq_unpack (t : AsymType) (y : Mem) (p i : ℕ) :
    t.get y p i = unpack t.bits y p (t.bits * i) := by
  cases t with
  | q3K =>
    show q3Get y p i = unpack 3 y p (3 * i)
    have hand (v : ℕ) : v &&& 7 = v % 2 ^ 3 := Nat.and_two_pow_sub_one_eq_mod v 3
    have hover : 5 < 3 * i % 8 ↔ 8 < 3 * i % 8 + 3 := by omega
    simp only [q3Get, unpack, hand, Nat.mul_comm i 3, hover, Nat.add_assoc]
    split
    · rfl
    · rw [Nat.or_zero]
  | q2K =>
    show q2Get y p i = unpack 2 y p (2 * i)
    have hand (v : ℕ) : v &&& 3 = v % 2 ^ 2 := Nat.and_two_pow_sub_one_eq_mod v 2
    have hover : ¬ 8 < 2 * i % 8 + 2 := by omega
    have hbyte : i / 4 = 2 * i / 8 := by omega
    have hshift : i % 4 * 2 = 2 * i % 8 := by omega
    simp only [q2Get, unpack, hand, hover, if_false, hbyte, hshift, Nat.or_zero]

/-- What is read depends on the bytes of the payload only, wherever they stand. -/
theorem get_congr {t : AsymType} {y y' : Mem} {p p' i : ℕ} (hi : i < 64)
    (h : ∀ k < t.payload, y (p + k) = y' (p' + k)) : t.get y p i = t.get y' p' i := by
  have hbits := t.payload_eq
  have hle := Nat.mul_le_mul_left t.bits hi
  rw [Nat.mul_succ] at hle
  rw [get_eq_unpack, get_eq_unpack, unpack, unpack]
  have hw := t.bits_pos
  rw [h _ (by omega)]
  split
  · rw [h _ (by omega)]
  · rfl

/-! ## Scales -/

theorem readU16le_writeU16 (y : Mem) (a : ℕ) (v : UInt16) : readU16le (writeU16 y a v) a = v := by
  have hlow : writeU16 y a v a = v.toUInt8 := by
    simp [writeU16]
  have hhigh : writeU16 y a v (a + 1) = (v >>> 8).toUInt8 := by simp [writeU16]
  rw [readU16le, hlow, hhigh]
  refine UInt16.toNat_inj.mp (Nat.eq_of_testBit_eq fun j => ?_)
  have hv : v.toNat < 2 ^ 16 := v.toNat_lt
  simp only [UInt16.toNat_or, UInt16.toNat_shiftLeft, UInt8.toNat_toUInt16, UInt16.toNat_toUInt8,
    UInt16.toNat_shiftRight, Nat.testBit_or, Nat.testBit_mod_two_pow, Nat.testBit_shiftLeft]
  have h8 : (8 : UInt16).toNat % 16 = 8 := by decide
  rw [h8]
  simp only [Nat.testBit_shiftRight]
  rcases Nat.lt_or_ge j 8 with hj | hj
  · have hnot : ¬ 8 ≤ j := by omega
    simp [hj, hnot]
  · have hadd : 8 + (j - 8) = j := by omega
    rcases Nat.lt_or_ge j 16 with hj' | hj'
    · have hsub : j - 8 < 8 := by omega
      simp [hj, hj', hadd, hsub, Nat.not_lt.mpr hj]
    · rw [testBit_of_le hv hj']
      simp [Nat.not_lt.mpr hj', Nat.not_lt.mpr hj]

/-! ## Groups -/

/-- The readers find the group `g` of a block. -/
structure GroupHolds (t : AsymType) (c : AsymCodes t) (block : ℕ) (y : Mem) (g : ℕ) : Prop where
  scale : readU16le y (block + g * 2) = c.hscale g
  zp : readZp t y block g = c.zp g
  code : ∀ i < 64, t.get y (block + 12 + g * t.payload) i = c.q g i

/-- The places of a group's bytes in a block. -/
def GroupByte (t : AsymType) (g k : ℕ) : Prop :=
  k = g * 2 ∨ k = g * 2 + 1 ∨ k = 8 + g ∨ ∃ j < t.payload, k = 12 + g * t.payload + j

/-- Two groups have no byte in common. -/
theorem GroupByte.disjoint {t : AsymType} {g g' k : ℕ} (hg : g < 4) (hg' : g' < 4)
    (h : GroupByte t g k) (h' : GroupByte t g' k) : g = g' := by
  rcases h with h | h | h | ⟨j, hj, h⟩ <;> rcases h' with h' | h' | h' | ⟨j', hj', h'⟩ <;>
    first
    | omega
    | skip
  by_contra hne
  rcases Nat.lt_or_gt_of_ne hne with hlt | hlt
  · have := Nat.mul_le_mul_right t.payload hlt
    rw [Nat.succ_mul] at this
    omega
  · have := Nat.mul_le_mul_right t.payload hlt
    rw [Nat.succ_mul] at this
    omega

/-- The bytes of a group stand in the block. -/
theorem GroupByte.lt {t : AsymType} {g k : ℕ} (hg : g < 4) (h : GroupByte t g k) :
    k < t.blockSize := by
  have hsize := t.payload_le
  have hmul := Nat.mul_le_mul_right t.payload hg
  rw [Nat.succ_mul] at hmul
  rcases h with rfl | rfl | rfl | ⟨j, hj, rfl⟩ <;> omega

theorem writeU16_of_ne {y : Mem} {a b : ℕ} {v : UInt16} (h : b ≠ a) (h' : b ≠ a + 1) :
    writeU16 y a v b = y b := by
  rw [writeU16, Function.update_of_ne h', Function.update_of_ne h]

theorem storeCodes_frame {t : AsymType} {y : Mem} {qout : ℕ} (q : ℕ → UInt8) {a : ℕ}
    (h : ∀ k < t.payload, a ≠ qout + k) : storeCodes t y qout q a = y a := by
  have hbits := t.payload_eq
  rw [storeCodes_eq_packAll]
  refine packAll_frame t.bits_pos q 64 y ?_
  rcases Nat.lt_or_ge a qout with hlt | hge
  · exact .inl hlt
  · have := h (a - qout)
    omega

/-- Storing a group leaves every other byte. -/
theorem storeGroup_frame {t : AsymType} (c : AsymCodes t) {block : ℕ} (y : Mem) {g a : ℕ}
    (h : ∀ k, GroupByte t g k → a ≠ block + k) : storeGroup t c block y g a = y a := by
  have hcodes (j : ℕ) (hj : j < t.payload) : a ≠ block + 12 + g * t.payload + j := by
    have := h _ (.inr (.inr (.inr ⟨j, hj, rfl⟩)))
    omega
  have hzp := h _ (.inr (.inr (.inl rfl)))
  rw [storeGroup, storeCodes_frame _ hcodes, Function.update_of_ne (by omega),
    writeU16_of_ne (h _ (.inl rfl)) (h _ (.inr (.inl rfl)))]

theorem code_toNat {t : AsymType} (q : Fin (t.qmax + 1)) : (UInt8.ofNat q).toNat = q ∧
    (UInt8.ofNat q).toNat < 2 ^ t.bits := by
  have hq := q.isLt
  have hpow := t.qmax_succ
  have hsmall : t.qmax + 1 ≤ 8 := by cases t <;> decide
  have hnat : (UInt8.ofNat q).toNat = q := by
    rw [UInt8.toNat_ofNat']
    exact Nat.mod_eq_of_lt (by omega)
  exact ⟨hnat, by omega⟩

/-- A group is stored where the readers look for it. -/
theorem storeGroup_holds {t : AsymType} (c : AsymCodes t) {block : ℕ} {y : Mem} {g : ℕ}
    (hg : g < 4) (hzero : ∀ k < t.payload, y (block + 12 + g * t.payload + k) = 0) :
    GroupHolds t c block (storeGroup t c block y g) g := by
  have hbefore (a : ℕ) (ha : a < block + 12) (v : Mem) (q : ℕ → UInt8) :
      storeCodes t v (block + 12 + g * t.payload) q a = v a :=
    storeCodes_frame q fun k _ => by omega
  have hscale := readU16le_writeU16 y (block + g * 2) (c.hscale g)
  refine ⟨?_, ?_, fun i hi => ?_⟩
  · rw [readU16le] at hscale ⊢
    rw [storeGroup, hbefore _ (by omega), hbefore _ (by omega),
      Function.update_of_ne (by omega), Function.update_of_ne (by omega)]
    exact hscale
  · rw [readZp, storeGroup, hbefore _ (by omega), Function.update_self, (code_toNat _).1]
    have hand (v : ℕ) : v &&& t.qmax = v % 2 ^ t.bits := by
      have hq : t.qmax = 2 ^ t.bits - 1 := by
        have := t.qmax_succ
        omega
      rw [hq, Nat.and_two_pow_sub_one_eq_mod]
    rw [hand, ← t.qmax_succ, Nat.mod_eq_of_lt (c.zp g).isLt]
  · rw [storeGroup, storeCodes_eq_packAll, get_eq_unpack,
      unpack_packAll t.bits_le t.bits_pos (fun j => (code_toNat _).2) _ hi, (code_toNat _).1]
    intro k hk
    have hk' : k < t.payload := by
      have := t.payload_eq
      omega
    rw [Function.update_of_ne (by omega), writeU16_of_ne (by omega) (by omega)]
    exact hzero k hk'

/-- What the readers find depends on the bytes of the group only, wherever the block
stands. -/
theorem GroupHolds.congr {t : AsymType} {c : AsymCodes t} {block block' : ℕ} {y y' : Mem} {g : ℕ}
    (h : GroupHolds t c block y g) (heq : ∀ k, GroupByte t g k → y' (block' + k) = y (block + k)) :
    GroupHolds t c block' y' g := by
  refine ⟨?_, ?_, fun i hi => ?_⟩
  · have hlow := heq _ (.inl rfl)
    have hhigh := heq _ (.inr (.inl rfl))
    rw [← Nat.add_assoc, ← Nat.add_assoc] at hhigh
    rw [← h.scale, readU16le, readU16le, hlow, hhigh]
  · have hzp := heq _ (.inr (.inr (.inl rfl)))
    rw [← Nat.add_assoc, ← Nat.add_assoc] at hzp
    rw [← h.zp, readZp, readZp, hzp]
  · rw [← h.code i hi]
    refine get_congr hi fun j hj => ?_
    have hcode := heq _ (.inr (.inr (.inr ⟨j, hj, rfl⟩)))
    rw [← Nat.add_assoc, ← Nat.add_assoc, ← Nat.add_assoc, ← Nat.add_assoc] at hcode
    exact hcode

/-! ## Blocks -/

/-- A writer of blocks: the codes it puts into a block, where the readers find them, and that
it writes no byte outside of the block. -/
structure BlockWriter (t : AsymType) where
  codes : AsymCodes t
  write : ℕ → Mem → Mem
  holds (block : ℕ) (y : Mem) {g : ℕ} (hg : g < 4) : GroupHolds t codes block (write block y) g
  frame (block : ℕ) (y : Mem) {a : ℕ} (ha : ¬ (block ≤ a ∧ a < block + t.blockSize)) :
    write block y a = y a

/-- One turn of a writer: it puts the codes into a group whose payload is zero and leaves the
bytes of the other groups. -/
structure GroupTurn (t : AsymType) (c : AsymCodes t) (block : ℕ) (turn : Mem → ℕ → Mem) : Prop where
  holds {y : Mem} {g : ℕ} (hg : g < 4)
    (hzero : ∀ k < t.payload, y (block + 12 + g * t.payload + k) = 0) :
    GroupHolds t c block (turn y g) g
  frame (y : Mem) {g a : ℕ} (hg : g < 4) (h : ∀ k, GroupByte t g k → a ≠ block + k) :
    turn y g a = y a

theorem storeGroup_turn {t : AsymType} (c : AsymCodes t) (block : ℕ) :
    GroupTurn t c block (storeGroup t c block) where
  holds hg hzero := storeGroup_holds c hg hzero
  frame y _ _ _ h := storeGroup_frame c y h

/-- The turns of a writer, one after the other. -/
theorem GroupTurn.foldl {t : AsymType} {c : AsymCodes t} {block : ℕ} {turn : Mem → ℕ → Mem}
    (hturn : GroupTurn t c block turn) {y : Mem}
    (hzero : ∀ g < 4, ∀ k < t.payload, y (block + 12 + g * t.payload + k) = 0) :
    ∀ n ≤ 4, (∀ g < n, GroupHolds t c block ((List.range n).foldl turn y) g) ∧
      ∀ a, (∀ g < n, ∀ k, GroupByte t g k → a ≠ block + k) →
        (List.range n).foldl turn y a = y a := by
  intro n
  induction n with
  | zero =>
    intro _
    exact ⟨fun g hg => absurd hg (Nat.not_lt_zero g), fun a _ => rfl⟩
  | succ n ih =>
    intro hn
    obtain ⟨hholds, hframe⟩ := ih (by omega)
    simp only [List.range_succ, List.foldl_append, List.foldl_cons, List.foldl_nil]
    refine ⟨fun g hg => ?_, fun a ha => ?_⟩
    · rcases Nat.lt_succ_iff_lt_or_eq.mp hg with hlt | rfl
      · refine (hholds g hlt).congr fun k hk => hturn.frame _ (by omega) fun k' hk' heq => ?_
        obtain rfl := Nat.add_left_cancel heq
        exact absurd (hk.disjoint (by omega) (by omega) hk') (by omega)
      · refine hturn.holds (by omega) fun j hj => ?_
        rw [hframe _ fun g' hg' k hk heq => ?_]
        · exact hzero g (by omega) j hj
        · have hown : GroupByte t g k := .inr (.inr (.inr ⟨j, hj, by omega⟩))
          exact absurd (hk.disjoint (by omega) (by omega) hown) (by omega)
    · rw [hturn.frame _ (by omega) (ha n (by omega)), hframe a fun g hg => ha g (by omega)]

/-- A writer that clears the block and takes the groups in turn. -/
def BlockWriter.ofTurns {t : AsymType} (c : AsymCodes t) (turn : ℕ → Mem → ℕ → Mem)
    (hturn : ∀ block, GroupTurn t c block (turn block)) : BlockWriter t where
  codes := c
  write block y := (List.range 4).foldl (turn block) (overwrite block t.blockSize (fun _ => 0) y)
  holds block y g hg := by
    refine ((hturn block).foldl (fun g hg j hj => ?_) 4 le_rfl).1 g hg
    have hin : GroupByte t g (12 + g * t.payload + j) := .inr (.inr (.inr ⟨j, hj, rfl⟩))
    have := hin.lt hg
    exact if_pos ⟨by omega, by omega⟩
  frame block y a ha := by
    rw [((hturn block).foldl (fun g hg j hj => ?_) 4 le_rfl).2 a fun g hg k hk heq => ?_]
    · exact if_neg ha
    · have hin : GroupByte t g (12 + g * t.payload + j) := .inr (.inr (.inr ⟨j, hj, rfl⟩))
      have := hin.lt hg
      exact if_pos ⟨by omega, by omega⟩
    · have := hk.lt hg
      exact ha ⟨by omega, by omega⟩

/-- The writers without an importance vector. -/
def plainWriter {t : AsymType} (c : AsymCodes t) : BlockWriter t :=
  .ofTurns c (storeGroup t c) (storeGroup_turn c)

theorem plainWriter_write {t : AsymType} (c : AsymCodes t) :
    (plainWriter c).write = writeBlock t c := rfl

/-- The codes of a weighted writer. -/
def pickedCodes {t : AsymType} (picked : ℕ → Bool) (c plain : AsymCodes t) : AsymCodes t where
  hscale g := if picked g then c.hscale g else plain.hscale g
  zp g := if picked g then c.zp g else plain.zp g
  q g := if picked g then c.q g else plain.q g

theorem overwrite_of {lo len a : ℕ} (c : ℕ → UInt8) (y : Mem) (h : a < lo ∨ lo + len ≤ a) :
    overwrite lo len c y a = y a := if_neg (by omega)

theorem overwrite_add {lo len k : ℕ} (c : ℕ → UInt8) (y : Mem) (h : k < len) :
    overwrite lo len c y (lo + k) = c k := by
  rw [overwrite, if_pos ⟨by omega, by omega⟩, Nat.add_sub_cancel_left]

/-- A copied group has the bytes of the block it is copied from. -/
theorem weightedTurn_copied {t : AsymType} {picked : ℕ → Bool} (c plain : AsymCodes t)
    {block : ℕ} (y : Mem) {g k : ℕ} (hg : g < 4) (hpick : picked g = false)
    (hk : GroupByte t g k) :
    weightedTurn t picked c plain block y g (block + k) = writeBlock t plain 0 (fun _ => 0) k := by
  simp only [weightedTurn, hpick, Bool.false_eq_true, if_false, copyBytes]
  generalize writeBlock t plain 0 (fun _ => 0) = tmp
  rcases hk with rfl | rfl | rfl | ⟨j, hj, rfl⟩
  · rw [overwrite_of _ _ (by omega), Function.update_of_ne (by omega)]
    exact overwrite_add (k := 0) _ _ (by omega)
  · rw [overwrite_of _ _ (by omega), Function.update_of_ne (by omega), ← Nat.add_assoc,
      overwrite_add _ _ (by omega)]
  · rw [overwrite_of _ _ (by omega), ← Nat.add_assoc, Function.update_self]
  · rw [← Nat.add_assoc, ← Nat.add_assoc, overwrite_add _ _ hj]

theorem weightedTurn_turn {t : AsymType} (picked : ℕ → Bool) (c plain : AsymCodes t)
    (block : ℕ) : GroupTurn t (pickedCodes picked c plain) block
      (weightedTurn t picked c plain block) where
  holds {y g} hg hzero := by
    cases hpick : picked g with
    | true =>
      have h := storeGroup_holds c hg hzero
      rw [weightedTurn, if_pos hpick]
      exact ⟨by simp [pickedCodes, hpick, h.scale], by simp [pickedCodes, hpick, h.zp],
        fun i hi => by simp [pickedCodes, hpick, h.code i hi]⟩
    | false =>
      have h := (plainWriter plain).holds 0 (fun _ => 0) hg
      have h' : GroupHolds t (plainWriter plain).codes block
          (weightedTurn t picked c plain block y g) g := h.congr fun k hk => by
        rw [weightedTurn_copied c plain y hg hpick hk, Nat.zero_add]
        rfl
      exact ⟨by simp [pickedCodes, hpick, h'.scale, plainWriter, BlockWriter.ofTurns],
        by simp [pickedCodes, hpick, h'.zp, plainWriter, BlockWriter.ofTurns],
        fun i hi => by simp [pickedCodes, hpick, h'.code i hi, plainWriter, BlockWriter.ofTurns]⟩
  frame y g a hg h := by
    rw [weightedTurn]
    split
    · exact storeGroup_frame c y h
    · have hcodes (j : ℕ) (hj : j < t.payload) : a ≠ block + 12 + g * t.payload + j := by
        have := h _ (.inr (.inr (.inr ⟨j, hj, rfl⟩)))
        omega
      have hzp := h _ (.inr (.inr (.inl rfl)))
      have hlow := h _ (.inl rfl)
      have hhigh := h _ (.inr (.inl rfl))
      simp only [copyBytes]
      rw [overwrite_of _ _ ?_, Function.update_of_ne (by omega), overwrite_of _ _ (by omega)]
      rcases Nat.lt_or_ge a (block + 12 + g * t.payload) with hlt | hge
      · exact .inl hlt
      · have := hcodes (a - (block + 12 + g * t.payload))
        omega

/-- The weighted writers. -/
def weightedWriter {t : AsymType} (picked : ℕ → Bool) (c plain : AsymCodes t) : BlockWriter t :=
  .ofTurns (pickedCodes picked c plain) (weightedTurn t picked c plain)
    (weightedTurn_turn picked c plain)

theorem weightedWriter_write {t : AsymType} (picked : ℕ → Bool) (c plain : AsymCodes t) :
    (weightedWriter picked c plain).write = writeBlockWeighted t picked c plain := rfl

/-- What a writer is given for a block: the codes worked out for it, or, with an importance
vector, the codes found for the groups that `picked` names and those of a plain block for the
others. -/
inductive BlockCodes (t : AsymType) where
  | plain (c : AsymCodes t)
  | weighted (picked : ℕ → Bool) (c copied : AsymCodes t)

/-- The writer of a block. -/
def BlockCodes.write {t : AsymType} : BlockCodes t → ℕ → Mem → Mem
  | .plain c => writeBlock t c
  | .weighted picked c copied => writeBlockWeighted t picked c copied

/-- The codes that are put into a block. -/
def BlockCodes.codes {t : AsymType} : BlockCodes t → AsymCodes t
  | .plain c => c
  | .weighted picked c copied => pickedCodes picked c copied

/-- Either writer puts its codes where the readers find them. -/
def BlockCodes.writer {t : AsymType} : BlockCodes t → BlockWriter t
  | .plain c => plainWriter c
  | .weighted picked c copied => weightedWriter picked c copied

@[simp] theorem BlockCodes.writer_write {t : AsymType} (b : BlockCodes t) :
    b.writer.write = b.write := by
  cases b with
  | plain c => exact plainWriter_write c
  | weighted picked c copied => exact weightedWriter_write picked c copied

@[simp] theorem BlockCodes.writer_codes {t : AsymType} (b : BlockCodes t) :
    b.writer.codes = b.codes := by
  cases b <;> rfl

/-! ## Tensors -/

section Tensor

variable (t : AsymType) (writers : ℕ → BlockWriter t) (dst experts rows nb : ℕ)

/-- The writer of the block `n`, counted over the whole tensor. -/
def writeNth (y : Mem) (n : ℕ) : Mem := (writers (n * 256)).write (dst + n * t.blockSize) y

/-- A call for some rows writes their blocks one after the other. -/
theorem quantizeChunk_eq (row0 nrows : ℕ) (y : Mem) :
    quantizeChunk t (fun off => (writers off).write) dst (row0 * (nb * 256)) nrows (nb * 256) y =
      (List.range (nrows * nb)).foldl (fun y n => writeNth t writers dst y (row0 * nb + n)) y := by
  rcases Nat.eq_zero_or_pos nb with rfl | hnb
  · simp [quantizeChunk]
  have hblocks : nb * 256 / 256 = nb := Nat.mul_div_cancel nb (by decide)
  have hstart : row0 * (nb * 256) / (nb * 256) = row0 := Nat.mul_div_cancel row0 (by omega)
  rw [quantizeChunk, hblocks, hstart, AsymType.rowSize, hblocks,
    ← foldl_range_mul (fun y n => writeNth t writers dst y (row0 * nb + n))]
  refine congrArg (fun f => List.foldl f y (List.range nrows)) (funext fun y => funext fun row => ?_)
  refine congrArg (fun f => List.foldl f y (List.range nb)) (funext fun y => funext fun b => ?_)
  have hoff : row0 * (nb * 256) + row * (nb * 256) + b * 256 = (row0 * nb + (row * nb + b)) * 256 := by
    ring
  have haddr : dst + row0 * (nb * t.blockSize) + row * (nb * t.blockSize) + b * t.blockSize =
      dst + (row0 * nb + (row * nb + b)) * t.blockSize := by
    ring
  rw [writeNth, hoff, haddr]

/-- The experts of a tensor are its blocks, one behind the other. -/
theorem quantizeExperts_eq (y : Mem) :
    quantizeExperts t (fun off => (writers off).write) dst experts rows (nb * 256) y =
      (List.range (experts * (rows * nb))).foldl (writeNth t writers dst) y := by
  rw [quantizeExperts, ← foldl_range_mul (writeNth t writers dst)]
  refine congrArg (fun f => List.foldl f y (List.range experts)) (funext fun y => funext fun e => ?_)
  rw [quantizeChunk_eq, Nat.mul_assoc]

/-- Blocks written one after the other are all there. -/
theorem writeNth_holds (y : Mem) (total : ℕ) {n : ℕ} (hn : n < total) {g : ℕ} (hg : g < 4) :
    GroupHolds t (writers (n * 256)).codes (dst + n * t.blockSize)
      ((List.range total).foldl (writeNth t writers dst) y) g := by
  induction total with
  | zero => exact absurd hn (Nat.not_lt_zero n)
  | succ total ih =>
    rw [List.range_succ, List.foldl_append, List.foldl_cons, List.foldl_nil]
    rcases Nat.lt_succ_iff_lt_or_eq.mp hn with hlt | rfl
    · refine (ih hlt).congr fun k hk => (writers _).frame _ _ ?_
      have hk := hk.lt hg
      have hmul := Nat.mul_le_mul_right t.blockSize hlt
      rw [Nat.succ_mul] at hmul
      omega
    · exact (writers _).holds _ _ hg

end Tensor

/-! ## Readers -/

/-- The row of a place and the place in the row. -/
theorem place_in_row (b : ℕ) {k n : ℕ} (hk : k < n) : (b * n + k) / n = b ∧ (b * n + k) % n = k := by
  constructor
  · rw [Nat.mul_comm, Nat.mul_add_div (by omega), Nat.div_eq_of_lt hk, Nat.add_zero]
  · rw [Nat.mul_comm, Nat.mul_add_mod, Nat.mod_eq_of_lt hk]

theorem foldl_add_range (f : ℕ → ℚ) (n : ℕ) (a : ℚ) :
    (List.range n).foldl (fun acc i => acc + f i) a = a + ∑ i ∈ Finset.range n, f i := by
  induction n with
  | zero => simp
  | succ n ih =>
    rw [List.range_succ, List.foldl_append, ih, List.foldl_cons, List.foldl_nil,
      Finset.sum_range_succ, add_assoc]

theorem sum_range_mul (f : ℕ → ℚ) (n m : ℕ) :
    ∑ i ∈ Finset.range n, ∑ j ∈ Finset.range m, f (i * m + j) =
      ∑ k ∈ Finset.range (n * m), f k := by
  induction n with
  | zero => simp
  | succ n ih =>
    rw [Finset.sum_range_succ, ih, Nat.succ_mul, Finset.sum_range_add]

/-- The dot product of a block is over its decoded values. -/
theorem blockDot_eq (t : AsymType) (toF32 : UInt16 → ℚ) (y : Mem) (block : ℕ) (x : ℕ → ℚ) :
    blockDot t toF32 y block x =
      ∑ k ∈ Finset.range 256, blockDecode t toF32 y block k * x k := by
  have hinner (sum : ℚ) (g : ℕ) : (List.range 64).foldl (fun sum i =>
      sum + readValue t toF32 y block g i * x (g * 64 + i)) sum =
        sum + ∑ i ∈ Finset.range 64, blockDecode t toF32 y block (g * 64 + i) * x (g * 64 + i) := by
    rw [foldl_add_range]
    refine congrArg (sum + ·) (Finset.sum_congr rfl fun i hi => ?_)
    obtain ⟨hdiv, hmod⟩ := place_in_row g (Finset.mem_range.mp hi)
    rw [blockDecode, hdiv, hmod]
  rw [blockDot]
  simp only [hinner]
  have hall := sum_range_mul (fun k => blockDecode t toF32 y block k * x k) 4 64
  have hcount : 4 * 64 = 256 := by decide
  rw [hcount] at hall
  rw [foldl_add_range, zero_add, hall]

/-- A row of the product is over the decoded values of the row. -/
theorem asymMatvec_eq (t : AsymType) (toF32 : UInt16 → ℚ) (y : Mem) (weights nb : ℕ) (x : ℕ → ℚ)
    (r : ℕ) : asymMatvec t toF32 y weights (nb * 256) x r =
      ∑ col ∈ Finset.range (nb * 256), blockDecode t toF32 y
        (weights + r * (nb * t.blockSize) + col / 256 * t.blockSize) (col % 256) * x col := by
  have hblocks : nb * 256 / 256 = nb := Nat.mul_div_cancel nb (by decide)
  have hall := sum_range_mul (fun col => blockDecode t toF32 y
    (weights + r * (nb * t.blockSize) + col / 256 * t.blockSize) (col % 256) * x col) nb 256
  rw [asymMatvec, hblocks, ← hall]
  simp only [blockDot_eq]
  rw [foldl_add_range, zero_add]
  refine Finset.sum_congr rfl fun b _ => ?_
  refine Finset.sum_congr rfl fun k hk => ?_
  obtain ⟨hdiv, hmod⟩ := place_in_row b (Finset.mem_range.mp hk)
  rw [hdiv, hmod]

/-! ## Every value is read back -/

/-- The codes of the block that a value of a tensor stands in; `blocks off` is the block whose
values stand at `off` in the source. -/
def codesAt {t : AsymType} (blocks : ℕ → BlockCodes t) (rows ncols e r col : ℕ) : AsymCodes t :=
  (blocks ((e * rows + r) * ncols + col / 256 * 256)).codes

/-- The value that was written for an expert, a row and a column. -/
def written {t : AsymType} (toF32 : UInt16 → ℚ) (blocks : ℕ → BlockCodes t)
    (rows ncols e r col : ℕ) : ℚ :=
  let c := codesAt blocks rows ncols e r col
  ((c.q (col % 256 / 64) (col % 64) : ℕ) - ((c.zp (col % 256 / 64) : ℕ) : ℚ)) *
    toF32 (c.hscale (col % 256 / 64))

/-- The groups of an expert, where the engine looks for them. -/
theorem expert_holds (t : AsymType) (blocks : ℕ → BlockCodes t) (dst experts rows nb : ℕ)
    (y : Mem) {e r col : ℕ} (he : e < experts) (hr : r < rows) (hcol : col < nb * 256) {g : ℕ}
    (hg : g < 4) : GroupHolds t (codesAt blocks rows (nb * 256) e r col)
      (expertBytes t dst e rows (nb * 256) + r * (nb * t.blockSize) + col / 256 * t.blockSize)
      (quantizeExperts t (fun off => (blocks off).write) dst experts rows (nb * 256) y) g := by
  have hwrite : (fun off => (blocks off).write) = fun off => (blocks off).writer.write := by
    simp only [BlockCodes.writer_write]
  have hblocks : nb * 256 / 256 = nb := Nat.mul_div_cancel nb (by decide)
  have hb : col / 256 < nb := Nat.div_lt_of_lt_mul (by omega)
  have hlt : (e * rows + r) * nb + col / 256 < experts * (rows * nb) := by
    calc (e * rows + r) * nb + col / 256 < (e * rows + r + 1) * nb := by
          rw [Nat.succ_mul]
          omega
      _ ≤ ((e + 1) * rows) * nb := by
          refine Nat.mul_le_mul_right nb ?_
          rw [Nat.succ_mul]
          omega
      _ ≤ experts * (rows * nb) := by
          rw [Nat.mul_assoc]
          exact Nat.mul_le_mul_right _ he
  have hoff : (e * rows + r) * (nb * 256) + col / 256 * 256 =
      ((e * rows + r) * nb + col / 256) * 256 := by
    ring
  have haddr : expertBytes t dst e rows (nb * 256) + r * (nb * t.blockSize) +
      col / 256 * t.blockSize = dst + ((e * rows + r) * nb + col / 256) * t.blockSize := by
    rw [expertBytes, hblocks]
    ring
  rw [codesAt, hoff, haddr, hwrite, quantizeExperts_eq t fun off => (blocks off).writer,
    ← BlockCodes.writer_codes]
  exact writeNth_holds t (fun off => (blocks off).writer) dst y _ hlt hg

/-- For every expert, row and column the engine finds the code, the zero point and the scale
that were written there; its decoder and its products are over these; and no writer leaves the
payload of a group. -/
theorem asym_readBack (t : AsymType) (blocks : ℕ → BlockCodes t) (dst experts rows nb : ℕ)
    (y : Mem) :
    (∀ (e : Fin experts) (r : Fin rows) (col : Fin (nb * 256)),
      let memory := quantizeExperts t (fun off => (blocks off).write) dst experts rows (nb * 256) y
      let block := expertBytes t dst e rows (nb * 256) + r * (nb * t.blockSize) +
        col / 256 * t.blockSize
      let c := codesAt blocks rows (nb * 256) e r col
      let g := (col : ℕ) % 256 / 64
      t.get memory (block + 12 + g * t.payload) (col % 64) = c.q g (col % 64) ∧
        readZp t memory block g = c.zp g ∧
        readU16le memory (block + g * 2) = c.hscale g ∧
        ∀ toF32, blockDecode t toF32 memory block (col % 256) =
          written toF32 blocks rows (nb * 256) e r col) ∧
    (∀ (e : Fin experts) (r : Fin rows) (toF32 : UInt16 → ℚ) (x : ℕ → ℚ),
      asymMatvec t toF32
          (quantizeExperts t (fun off => (blocks off).write) dst experts rows (nb * 256) y)
          (expertBytes t dst e rows (nb * 256)) (nb * 256) x r =
        ∑ col ∈ Finset.range (nb * 256), written toF32 blocks rows (nb * 256) e r col * x col) ∧
    ∀ (qout : ℕ) (i : Fin 64) (q : UInt8), ∀ s ∈ t.stores qout i q,
      qout ≤ s.1 ∧ s.1 < qout + t.payload := by
  have hvalue {e r col : ℕ} (he : e < experts) (hr : r < rows) (hcol : col < nb * 256)
      (toF32 : UInt16 → ℚ) : blockDecode t toF32
        (quantizeExperts t (fun off => (blocks off).write) dst experts rows (nb * 256) y)
        (expertBytes t dst e rows (nb * 256) + r * (nb * t.blockSize) + col / 256 * t.blockSize)
        (col % 256) = written toF32 blocks rows (nb * 256) e r col := by
    have h := expert_holds t blocks dst experts rows nb y he hr hcol
      (g := col % 256 / 64) (by omega)
    have hmod : col % 256 % 64 = col % 64 := by omega
    rw [blockDecode, readValue, hmod, h.code _ (by omega), h.zp, h.scale, written]
  refine ⟨fun e r col => ?_, fun e r toF32 x => ?_, fun qout i q s hs => ?_⟩
  · have h := expert_holds t blocks dst experts rows nb y e.isLt r.isLt col.isLt
      (g := col % 256 / 64) (by omega)
    exact ⟨h.code _ (by omega), h.zp, h.scale, hvalue e.isLt r.isLt col.isLt⟩
  · rw [asymMatvec_eq]
    refine Finset.sum_congr rfl fun col hcol => ?_
    rw [hvalue e.isLt r.isLt (Finset.mem_range.mp hcol)]
  · rw [stores_eq_packStores] at hs
    have hwithin := packStores_within t.bits_pos hs
    have hpayload := t.payload_eq
    have hmul := Nat.mul_le_mul_left t.bits i.isLt
    rw [Nat.mul_succ] at hmul
    omega

/-- The weights of an expert from codes that are all 5, with zero point 2 and scale bits 9. -/
example : readZp .q3K (quantizeExperts .q3K (fun _ => (BlockCodes.plain
    ⟨fun _ => 9, fun _ => 2, fun _ _ => 5⟩ : BlockCodes .q3K).write) 0 2 1 256 fun _ => 0) 110 3 =
    2 := by
  decide +kernel

end Sf37.Quantize

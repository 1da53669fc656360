/-
Sf37.Engine.KvRowCodec — rows of the saved cache, coded in groups of 8-bit numbers with a
scale, in exact arithmetic.

The count of groups is worked out in 32 bits, where the sum of the two lengths may overflow;
the row is then not coded to its end.

* `groupsPerRow_saved`: short of the overflow the count is the one of the saved rows.
* `mem_groupPlaces`: the places of a group.
* `encodeRow_q`, `decodeRow_eq`: what is written where.
* `reencoded`: a decoded group is coded the same again.
* `rowKeeps_iff`: the lengths for which a row survives.
-/
import Sf37.Run.Extreme
import Sf37.Run.Nearest
import Sf37.Engine.SaveSession
import Mathlib.Logic.Function.Basic
import Mathlib.Tactic.FieldSimp

namespace Sf37.Engine.KvRow

open Sf37.Run

/-! ## The codec -/

/-- `payload_kv_groups_per_row`. -/
def payloadKvGroupsPerRow (elems group : UInt32) : UInt32 :=
  if group = 0 then 0 else (elems + group - 1) / group

/-- The places `begin` up to `end` of the group `g`. -/
def groupPlaces (elems group : UInt32) (g : ℕ) : List ℕ :=
  let first := UInt32.ofNat g * group
  let stop := if elems < first + group then elems else first + group
  List.range' first.toNat (stop.toNat - first.toNat)

/-- `max_abs`. -/
def maxAbs (src : ℕ → ℚ) (places : List ℕ) : ℚ :=
  places.foldl (fun m i => if m < |src i| then |src i| else m) 0

/-- `scale`. -/
def scaleOf (m : ℚ) : ℚ := if 0 < m then m / 127 else 1

/-- `qi`, for `v / scale`. -/
def codeOf (R : Nearest) (v : ℚ) : ℤ :=
  let qi := R.round v
  let qi := if 127 < qi then 127 else qi
  if qi < -127 then -127 else qi

/-- A coded row: the scales, and the codes behind them. -/
structure EncodedRow where
  scales : ℕ → ℚ
  q : ℕ → ℤ

/-- One turn of `payload_encode_kv_row_i8_grouped`. -/
def encodeGroup (R : Nearest) (src : ℕ → ℚ) (elems group : UInt32) (dst : EncodedRow) (g : ℕ) :
    EncodedRow :=
  let places := groupPlaces elems group g
  let scale := scaleOf (maxAbs src places)
  { scales := Function.update dst.scales g scale
    q := places.foldl (fun q i => Function.update q i (codeOf R (src i / scale))) dst.q }

/-- `payload_encode_kv_row_i8_grouped` of a row of finite values, into `dst`. -/
def payloadEncodeKvRowI8Grouped (R : Nearest) (src : ℕ → ℚ) (elems group : UInt32)
    (dst : EncodedRow) : EncodedRow :=
  (List.range (payloadKvGroupsPerRow elems group).toNat).foldl (encodeGroup R src elems group) dst

/-- `payload_decode_kv_row_i8_grouped`, into `dst`. -/
def payloadDecodeKvRowI8Grouped (src : EncodedRow) (elems group : UInt32) (dst : ℕ → ℚ) :
    ℕ → ℚ :=
  (List.range (payloadKvGroupsPerRow elems group).toNat).foldl (fun dst g =>
    (groupPlaces elems group g).foldl
      (fun dst i => Function.update dst i (src.q i * src.scales g)) dst) dst

/-! ## Places -/

section Places

variable {elems group : UInt32}

/-- The count of groups, with the overflow of the sum. -/
theorem groupsPerRow_toNat (hg : group ≠ 0) : (payloadKvGroupsPerRow elems group).toNat =
    (elems.toNat + (group.toNat - 1)) % 4294967296 / group.toNat := by
  have hpos : 0 < group.toNat := by
    rcases Nat.eq_zero_or_pos group.toNat with h | h
    · exact absurd (UInt32.toNat_inj.mp h) hg
    · exact h
  have hone : (group - 1).toNat = group.toNat - 1 := by
    have hle : (1 : UInt32) ≤ group := UInt32.le_iff_toNat_le.mpr (Nat.succ_le_of_lt hpos)
    rw [UInt32.toNat_sub_of_le _ _ hle]
    rfl
  have hassoc : elems + group - 1 = elems + (group - 1) := by
    rw [UInt32.sub_eq_add_neg, UInt32.sub_eq_add_neg, UInt32.add_assoc]
  rw [payloadKvGroupsPerRow, if_neg hg, UInt32.toNat_div, hassoc, UInt32.toNat_add, hone]

/-- Short of the overflow it is the count that the sizes of the saved rows are worked out
with. -/
theorem groupsPerRow_saved (hg : group ≠ 0) (h : elems.toNat + group.toNat ≤ 4294967296) :
    (payloadKvGroupsPerRow elems group).toNat =
      Engine.payloadKvGroupsPerRow elems.toNat group.toNat := by
  have hne : group.toNat ≠ 0 := fun h0 => hg (UInt32.toNat_inj.mp h0)
  have hsub : elems.toNat + (group.toNat - 1) = elems.toNat + group.toNat - 1 := by omega
  rw [groupsPerRow_toNat hg, Nat.mod_eq_of_lt (by omega), Engine.payloadKvGroupsPerRow, if_neg hne,
    hsub]

/-- The places of a group, as long as the loop comes to it. -/
theorem mem_groupPlaces {g i : ℕ} (hg : g < (payloadKvGroupsPerRow elems group).toNat) :
    i ∈ groupPlaces elems group g ↔ i / group.toNat = g ∧ i < elems.toNat := by
  have hne : group ≠ 0 := by
    rintro rfl
    simp [payloadKvGroupsPerRow] at hg
  rw [groupsPerRow_toNat hne] at hg
  have hpos : 0 < group.toNat := by
    rcases Nat.eq_zero_or_pos group.toNat with h | h
    · exact absurd (UInt32.toNat_inj.mp h) hne
    · exact h
  have hend : (g + 1) * group.toNat ≤ (elems.toNat + (group.toNat - 1)) % 4294967296 :=
    (Nat.le_div_iff_mul_le hpos).mp hg
  have hmod := Nat.mod_lt (elems.toNat + (group.toNat - 1)) (by decide : 0 < 4294967296)
  rw [Nat.succ_mul] at hend
  have hgsmall : g < 4294967296 := by
    have := Nat.le_mul_of_pos_right g hpos
    omega
  have hfirst : (UInt32.ofNat g * group).toNat = g * group.toNat := by
    rw [UInt32.toNat_mul, UInt32.toNat_ofNat_of_lt' hgsmall]
    exact Nat.mod_eq_of_lt (by omega)
  have hstop : (UInt32.ofNat g * group + group).toNat = g * group.toNat + group.toNat := by
    rw [UInt32.toNat_add, hfirst]
    exact Nat.mod_eq_of_lt (by omega)
  have hdiv : i / group.toNat = g ↔ g * group.toNat ≤ i ∧ i < g * group.toNat + group.toNat := by
    rw [Nat.div_eq_iff hpos]
    constructor <;> rintro ⟨h1, h2⟩ <;> constructor <;> omega
  rw [groupPlaces, List.mem_range'_1, hdiv, hfirst]
  split
  next hlt =>
    rw [UInt32.lt_iff_toNat_lt, hstop] at hlt
    omega
  next hge =>
    rw [UInt32.lt_iff_toNat_lt, hstop] at hge
    rw [hstop]
    omega

/-- Every place is in a group exactly when the sum of the two lengths does not overflow. -/
theorem covered_iff (hg : group ≠ 0) :
    (∀ i < elems.toNat, i / group.toNat < (payloadKvGroupsPerRow elems group).toNat) ↔
      elems.toNat + group.toNat ≤ 4294967296 := by
  have hpos : 0 < group.toNat := by
    rcases Nat.eq_zero_or_pos group.toNat with h | h
    · exact absurd (UInt32.toNat_inj.mp h) hg
    · exact h
  have helems := elems.toNat_lt
  have hgroup := group.toNat_lt
  rw [groupsPerRow_toNat hg]
  constructor
  · intro h
    by_contra hover
    have hlast := h (elems.toNat - 1) (by omega)
    have hmod : (elems.toNat + (group.toNat - 1)) % 4294967296 =
        elems.toNat + (group.toNat - 1) - 4294967296 := by
      rw [Nat.mod_eq_sub_mod (by omega), Nat.mod_eq_of_lt (by omega)]
    rw [hmod] at hlast
    exact absurd (Nat.div_le_div_right (c := group.toNat)
      (by omega : elems.toNat + (group.toNat - 1) - 4294967296 ≤ elems.toNat - 1))
      (Nat.not_le.mpr hlast)
  · intro h i hi
    rw [Nat.mod_eq_of_lt (by omega)]
    calc i / group.toNat < i / group.toNat + 1 := Nat.lt_succ_self _
      _ = (i + group.toNat) / group.toNat := (Nat.add_div_right i hpos).symm
      _ ≤ (elems.toNat + (group.toNat - 1)) / group.toNat := Nat.div_le_div_right (by omega)

end Places

/-! ## What is written where -/

/-- Updates of several places, each with its own value. -/
theorem foldl_update {α : Type} (f : ℕ → α) (places : List ℕ) (q : ℕ → α) (i : ℕ) :
    places.foldl (fun q i => Function.update q i (f i)) q i =
      if i ∈ places then f i else q i := by
  induction places generalizing q with
  | nil => simp
  | cons j places ih =>
    rw [List.foldl_cons, ih]
    by_cases hmem : i ∈ places
    · simp [hmem]
    · by_cases hij : i = j
      · simp [hij]
      · simp [hmem, hij]

/-- The scale of the group that a place is in. -/
def placeScale (src : ℕ → ℚ) (elems group : UInt32) (i : ℕ) : ℚ :=
  scaleOf (maxAbs src (groupPlaces elems group (i / group.toNat)))

section Written

variable (R : Nearest) (src : ℕ → ℚ) (elems group : UInt32) (enc : EncodedRow)

theorem encodeGroups_scales (n : ℕ) (g : ℕ) :
    ((List.range n).foldl (encodeGroup R src elems group) enc).scales g =
      if g < n then scaleOf (maxAbs src (groupPlaces elems group g)) else enc.scales g := by
  induction n with
  | zero => simp
  | succ n ih =>
    rw [List.range_succ, List.foldl_append, List.foldl_cons, List.foldl_nil]
    simp only [encodeGroup]
    by_cases hg : g = n
    · simp [hg]
    · have hlt : g < n + 1 ↔ g < n := by omega
      rw [Function.update_of_ne hg, ih]
      simp only [hlt]

theorem encodeGroups_q {n : ℕ} (hn : n ≤ (payloadKvGroupsPerRow elems group).toNat) (i : ℕ) :
    ((List.range n).foldl (encodeGroup R src elems group) enc).q i =
      if i / group.toNat < n ∧ i < elems.toNat then codeOf R (src i / placeScale src elems group i)
      else enc.q i := by
  induction n with
  | zero => simp
  | succ n ih =>
    rw [List.range_succ, List.foldl_append, List.foldl_cons, List.foldl_nil]
    simp only [encodeGroup]
    rw [foldl_update, ih (by omega)]
    simp only [mem_groupPlaces (Nat.lt_of_succ_le hn)]
    by_cases hi : i < elems.toNat
    · by_cases hg : i / group.toNat = n
      · simp [hi, hg, placeScale]
      · have hlt : i / group.toNat < n + 1 ↔ i / group.toNat < n := by omega
        simp only [hg, hi, if_false, hlt, and_true]
    · simp [hi]

/-- The code of a place, or what stood there. -/
theorem encodeRow_q (i : ℕ) : (payloadEncodeKvRowI8Grouped R src elems group enc).q i =
    if i / group.toNat < (payloadKvGroupsPerRow elems group).toNat ∧ i < elems.toNat then
      codeOf R (src i / placeScale src elems group i)
    else enc.q i :=
  encodeGroups_q R src elems group enc le_rfl i

theorem encodeRow_scales (g : ℕ) : (payloadEncodeKvRowI8Grouped R src elems group enc).scales g =
    if g < (payloadKvGroupsPerRow elems group).toNat then
      scaleOf (maxAbs src (groupPlaces elems group g))
    else enc.scales g :=
  encodeGroups_scales R src elems group enc _ g

/-- The decoded value of a place, or what stood there. -/
theorem decodeRow_eq (dst : ℕ → ℚ) (i : ℕ) : payloadDecodeKvRowI8Grouped enc elems group dst i =
    if i / group.toNat < (payloadKvGroupsPerRow elems group).toNat ∧ i < elems.toNat then
      enc.q i * enc.scales (i / group.toNat)
    else dst i := by
  have hall : ∀ n ≤ (payloadKvGroupsPerRow elems group).toNat,
      (List.range n).foldl (fun dst g => (groupPlaces elems group g).foldl
        (fun dst i => Function.update dst i (enc.q i * enc.scales g)) dst) dst i =
        if i / group.toNat < n ∧ i < elems.toNat then enc.q i * enc.scales (i / group.toNat)
        else dst i := by
    intro n
    induction n with
    | zero => simp
    | succ n ih =>
      intro hn
      rw [List.range_succ, List.foldl_append, List.foldl_cons, List.foldl_nil,
        foldl_update (fun i => (enc.q i : ℚ) * enc.scales n), ih (by omega)]
      simp only [mem_groupPlaces (Nat.lt_of_succ_le hn)]
      by_cases hi : i < elems.toNat
      · by_cases hg : i / group.toNat = n
        · simp [hi, hg]
        · have hlt : i / group.toNat < n + 1 ↔ i / group.toNat < n := by omega
          simp only [hg, hi, if_false, hlt, and_true]
      · simp [hi]
  exact hall _ le_rfl

end Written

/-! ## One group -/

theorem maxAbs_spec (src : ℕ → ℚ) (places : List ℕ) :
    (0 ≤ maxAbs src places ∧ ∀ i ∈ places, |src i| ≤ maxAbs src places) ∧
      (maxAbs src places = 0 ∨ ∃ i ∈ places, maxAbs src places = |src i|) :=
  foldl_upper (fun i => |src i|) places 0

theorem maxAbs_eq {src : ℕ → ℚ} {places : List ℕ} {m : ℚ} (h : ∀ i ∈ places, |src i| ≤ m)
    (hmem : m = 0 ∨ ∃ i ∈ places, m = |src i|) : maxAbs src places = m := by
  obtain ⟨⟨hnonneg, hall⟩, hex⟩ := maxAbs_spec src places
  refine le_antisymm ?_ ?_
  · rcases hex with heq | ⟨i, hi, heq⟩
    · rcases hmem with rfl | ⟨i, -, rfl⟩
      · exact heq.le
      · exact heq.le.trans (abs_nonneg _)
    · exact heq.le.trans (h i hi)
  · rcases hmem with rfl | ⟨i, hi, rfl⟩
    · exact hnonneg
    · exact hall i hi

theorem scaleOf_pos (m : ℚ) : 0 < scaleOf m := by
  unfold scaleOf
  split
  next hpos => linarith
  next hzero => norm_num

/-- No value is more than 127 scales. -/
theorem abs_div_scaleOf {m v : ℚ} (h : |v| ≤ m) : |v / scaleOf m| ≤ 127 := by
  have hs := scaleOf_pos m
  rw [abs_div, abs_of_pos hs, div_le_iff₀ hs, scaleOf]
  split
  next hpos => linarith
  next hzero => linarith

/-- Between the ends a code is the nearest number. -/
theorem codeOf_eq (R : Nearest) {v : ℚ} (h : |v| ≤ 127) : codeOf R v = R.round v := by
  obtain ⟨hlo, hhi⟩ := abs_le.mp h
  have hle : R.round v ≤ 127 := R.le_of_le hhi
  have hge : -127 ≤ R.round v := R.le_of_ge (by push_cast; exact hlo)
  simp only [codeOf]
  rw [if_neg (by omega), if_neg (by omega)]

theorem abs_codeOf_le (R : Nearest) {v : ℚ} (h : |v| ≤ 127) : |(codeOf R v : ℚ)| ≤ 127 := by
  obtain ⟨hlo, hhi⟩ := abs_le.mp h
  have hle : R.round v ≤ 127 := R.le_of_le hhi
  have hge : -127 ≤ R.round v := R.le_of_ge (by push_cast; exact hlo)
  rw [codeOf_eq R h, abs_le]
  constructor
  · exact_mod_cast hge
  · exact_mod_cast hle

/-- A code times the scale is at most half a scale off. -/
theorem codeOf_error (R : Nearest) {m v : ℚ} (h : |v| ≤ m) :
    |(codeOf R (v / scaleOf m) : ℚ) * scaleOf m - v| ≤ scaleOf m / 2 := by
  have hs := scaleOf_pos m
  have hnear := R.near (v / scaleOf m)
  rw [codeOf_eq R (abs_div_scaleOf h)]
  have hmul : (R.round (v / scaleOf m) : ℚ) * scaleOf m - v =
      -((v / scaleOf m - R.round (v / scaleOf m)) * scaleOf m) := by
    field_simp
    ring
  rw [hmul, abs_neg, abs_mul, abs_of_pos hs]
  calc |v / scaleOf m - R.round (v / scaleOf m)| * scaleOf m ≤ 1 / 2 * scaleOf m :=
        mul_le_mul_of_nonneg_right hnear hs.le
    _ = scaleOf m / 2 := by ring

/-- The greatest value is coded by 127 or -127. -/
theorem codeOf_max (R : Nearest) {m v : ℚ} (hm : 0 < m) (h : m = |v|) :
    |(codeOf R (v / scaleOf m) : ℚ)| = 127 := by
  have hv : v / scaleOf m = 127 ∨ v / scaleOf m = -127 := by
    rw [scaleOf, if_pos hm]
    rcases abs_choice v with habs | habs
    · left
      rw [← habs, ← h]
      field_simp
    · right
      have : v = -m := by linarith
      rw [this]
      field_simp
  rw [codeOf_eq R (abs_div_scaleOf h.ge)]
  rcases hv with hv | hv
  · have := R.intCast 127
    push_cast at this
    rw [hv, this]
    norm_num
  · have := R.intCast (-127)
    push_cast at this
    rw [hv, this]
    norm_num

/-- The codes of a group, decoded, have the greatest value of the group. -/
theorem maxAbs_decoded (R : Nearest) {src dec : ℕ → ℚ} {places : List ℕ}
    (hdec : ∀ i ∈ places, dec i = codeOf R (src i / scaleOf (maxAbs src places)) *
      scaleOf (maxAbs src places)) : maxAbs dec places = maxAbs src places := by
  obtain ⟨⟨hnonneg, hall⟩, hex⟩ := maxAbs_spec src places
  have hs := scaleOf_pos (maxAbs src places)
  have hbound (i : ℕ) (hi : i ∈ places) : |dec i| ≤
      if 0 < maxAbs src places then maxAbs src places else 0 := by
    rw [hdec i hi, abs_mul, abs_of_pos hs]
    split
    next hpos =>
      have hcode := abs_codeOf_le R (abs_div_scaleOf (hall i hi))
      have hscale : scaleOf (maxAbs src places) = maxAbs src places / 127 := if_pos hpos
      rw [hscale] at hcode ⊢
      have := mul_le_mul_of_nonneg_right hcode (div_pos hpos (by norm_num : (0 : ℚ) < 127)).le
      linarith
    next hzero =>
      have hsrc : src i = 0 := abs_eq_zero.mp (le_antisymm ((hall i hi).trans (not_lt.mp hzero))
        (abs_nonneg _))
      have hround := R.intCast 0
      rw [Int.cast_zero] at hround
      rw [hsrc, zero_div, codeOf_eq R (by norm_num), hround]
      simp
  rcases lt_or_eq_of_le hnonneg with hpos | hzero
  · simp only [hpos, if_true] at hbound
    obtain ⟨i, hi, heq⟩ := hex.resolve_left hpos.ne'
    refine maxAbs_eq hbound (.inr ⟨i, hi, ?_⟩)
    have hscale : scaleOf (maxAbs src places) = maxAbs src places / 127 := if_pos hpos
    rw [hdec i hi, abs_mul, codeOf_max R hpos heq, abs_of_pos hs, hscale]
    field_simp
  · rw [← hzero] at hbound ⊢
    simp only [lt_irrefl, if_false] at hbound
    exact maxAbs_eq hbound (.inl rfl)

/-- A code is coded by itself again. -/
theorem reencoded (R : Nearest) {m v : ℚ} (h : |v| ≤ m) :
    codeOf R (codeOf R (v / scaleOf m) * scaleOf m / scaleOf m) = codeOf R (v / scaleOf m) := by
  have hs := scaleOf_pos m
  rw [mul_div_cancel_right₀ _ hs.ne', codeOf_eq R (abs_codeOf_le R (abs_div_scaleOf h)),
    R.intCast]

/-! ## Whole rows -/

/-- A row survives saving and loading, whatever stands in the buffers before: each value moves
by at most half the scale of its group, a group of zeros stays one, and the decoded row is coded
the same again. -/
def RowKeeps (R : Nearest) (src : ℕ → ℚ) (elems group : UInt32) : Prop :=
  ∀ (enc₀ enc₁ : EncodedRow) (dst : ℕ → ℚ),
    let enc := payloadEncodeKvRowI8Grouped R src elems group enc₀
    let dec := payloadDecodeKvRowI8Grouped enc elems group dst
    let again := payloadEncodeKvRowI8Grouped R dec elems group enc₁
    (∀ i < elems.toNat, |dec i - src i| ≤ enc.scales (i / group.toNat) / 2) ∧
      (∀ g, (∀ i < elems.toNat, i / group.toNat = g → src i = 0) →
        ∀ i < elems.toNat, i / group.toNat = g → dec i = 0) ∧
      ∀ i < elems.toNat, again.q i = enc.q i ∧
        again.scales (i / group.toNat) = enc.scales (i / group.toNat)

/-- A row survives where every place is in a group. -/
theorem rowKeeps_of_covered (R : Nearest) (src : ℕ → ℚ) {elems group : UInt32}
    (hcover : ∀ i < elems.toNat, i / group.toNat < (payloadKvGroupsPerRow elems group).toNat) :
    RowKeeps R src elems group := by
  intro enc₀ enc₁ dst
  have hscale (i : ℕ) (hi : i < elems.toNat) :
      (payloadEncodeKvRowI8Grouped R src elems group enc₀).scales (i / group.toNat) =
        placeScale src elems group i := by
    rw [encodeRow_scales, if_pos (hcover i hi), placeScale]
  have hdec (i : ℕ) (hi : i < elems.toNat) : payloadDecodeKvRowI8Grouped
      (payloadEncodeKvRowI8Grouped R src elems group enc₀) elems group dst i =
        codeOf R (src i / placeScale src elems group i) * placeScale src elems group i := by
    rw [decodeRow_eq, if_pos ⟨hcover i hi, hi⟩, encodeRow_q, if_pos ⟨hcover i hi, hi⟩,
      hscale i hi]
  have hmem (i : ℕ) (hi : i < elems.toNat) : i ∈ groupPlaces elems group (i / group.toNat) :=
    (mem_groupPlaces (hcover i hi)).mpr ⟨rfl, hi⟩
  have hle (i : ℕ) (hi : i < elems.toNat) :
      |src i| ≤ maxAbs src (groupPlaces elems group (i / group.toNat)) :=
    (maxAbs_spec src _).1.2 i (hmem i hi)
  dsimp only
  refine ⟨fun i hi => ?_, fun g hzero i hi hg => ?_, fun i hi => ?_⟩
  · rw [hdec i hi, hscale i hi]
    exact codeOf_error R (hle i hi)
  · have hround := R.intCast 0
    rw [Int.cast_zero] at hround
    rw [hdec i hi, hzero i hi hg, zero_div, codeOf_eq R (by norm_num), hround]
    simp
  · have hsame : maxAbs (payloadDecodeKvRowI8Grouped
        (payloadEncodeKvRowI8Grouped R src elems group enc₀) elems group dst)
        (groupPlaces elems group (i / group.toNat)) =
        maxAbs src (groupPlaces elems group (i / group.toNat)) := by
      refine maxAbs_decoded R fun j hj => ?_
      obtain ⟨hg, hj⟩ := (mem_groupPlaces (hcover i hi)).mp hj
      rw [hdec j hj, placeScale, hg]
    constructor
    · rw [encodeRow_q, encodeRow_q, if_pos ⟨hcover i hi, hi⟩, if_pos ⟨hcover i hi, hi⟩, hdec i hi,
        placeScale, placeScale, hsame]
      exact reencoded R (hle i hi)
    · rw [hscale i hi, encodeRow_scales, if_pos (hcover i hi), hsame, placeScale]

/-- A row survives exactly when the sum of its length and the size of the groups fits 32
bits. -/
theorem rowKeeps_iff (R : Nearest) (src : ℕ → ℚ) (elems group : UInt32) (hg : group ≠ 0) :
    RowKeeps R src elems group ↔ elems.toNat + group.toNat ≤ 4294967296 := by
  rw [← covered_iff hg]
  constructor
  · intro h i hi
    by_contra hout
    -- a place that no group reaches keeps what stood in the buffer
    have hmoved := (h ⟨fun _ => 0, fun _ => 0⟩ ⟨fun _ => 0, fun _ => 0⟩ fun i => src i + 1).1 i hi
    rw [decodeRow_eq, if_neg fun hin => hout hin.1, encodeRow_scales, if_neg hout] at hmoved
    norm_num at hmoved
  · exact rowKeeps_of_covered R src

/-- Rows of 1024 values in groups of 64. -/
theorem rowKeeps_iff_saved : RowKeeps .halfUp (fun i => (i : ℚ) / 13) 1024 64 :=
  (rowKeeps_iff .halfUp (fun i => (i : ℚ) / 13) 1024 64 (by decide)).mpr (by decide)

/-- A row of two values in groups of 2^32 - 1 has no group at all. -/
theorem not_rowKeeps_overflow : ¬ RowKeeps .halfUp (fun _ => 0) 2 4294967295 := by
  intro h
  have hmoved := (h ⟨fun _ => 0, fun _ => 0⟩ ⟨fun _ => 0, fun _ => 0⟩ fun _ => 1).1 0 (by decide)
  rw [decodeRow_eq, if_neg (by decide), encodeRow_scales, if_neg (by decide)] at hmoved
  norm_num at hmoved

end Sf37.Engine.KvRow

/-
Sf37.Text.LittleEndian — numbers as a fixed count of bytes, the lowest first.

* `ofLittleEndian_littleEndian`: a number that fits reads back.
* `littleEndian_ofLittleEndian`: and bytes are those of the number they spell.
* `ofLittleEndian_lt`: what is read fits.
-/
import Sf37.Text.CString
import Mathlib.Algebra.Group.Nat.Defs

namespace Sf37.Text

/-- The low `k` bytes of a number. -/
def littleEndian : Nat → Nat → Bytes
  | 0, _ => []
  | k + 1, v => UInt8.ofNat v :: littleEndian k (v / 256)

/-- The number some bytes spell. -/
def ofLittleEndian : Bytes → Nat
  | [] => 0
  | b :: p => b.toNat + 256 * ofLittleEndian p

@[simp]
theorem length_littleEndian (k v : Nat) : (littleEndian k v).length = k := by
  induction k generalizing v with
  | zero => rfl
  | succ k ih => rw [littleEndian, List.length_cons, ih]

theorem ofLittleEndian_lt (p : Bytes) : ofLittleEndian p < 256 ^ p.length := by
  induction p with
  | nil => exact Nat.one_pos
  | cons b p ih =>
    have hb := b.toNat_lt
    rw [ofLittleEndian, List.length_cons, Nat.pow_succ]
    omega

/-- A number that fits reads back. -/
theorem ofLittleEndian_littleEndian {k v : Nat} (h : v < 256 ^ k) :
    ofLittleEndian (littleEndian k v) = v := by
  induction k generalizing v with
  | zero =>
    rw [Nat.pow_zero] at h
    rw [littleEndian, ofLittleEndian]
    omega
  | succ k ih =>
    have hdiv : v / 256 < 256 ^ k := by
      rw [Nat.pow_succ] at h
      exact Nat.div_lt_of_lt_mul (by omega)
    have hbyte : (UInt8.ofNat v).toNat = v % 256 := UInt8.toNat_ofNat'
    rw [littleEndian, ofLittleEndian, ih hdiv, hbyte]
    omega

/-- Bytes are those of the number they spell. -/
theorem littleEndian_ofLittleEndian (p : Bytes) :
    littleEndian p.length (ofLittleEndian p) = p := by
  induction p with
  | nil => rfl
  | cons b p ih =>
    have hb : b.toNat < 256 := b.toNat_lt
    have hdiv : (b.toNat + 256 * ofLittleEndian p) / 256 = ofLittleEndian p := by omega
    have hbyte : UInt8.ofNat (b.toNat + 256 * ofLittleEndian p) = b := by
      rw [← UInt8.toNat_inj, UInt8.toNat_ofNat']
      omega
    rw [List.length_cons, ofLittleEndian, littleEndian, hdiv, hbyte, ih]

/-- Reading the bytes of a number at the front of others. -/
theorem ofLittleEndian_take {k v : Nat} (h : v < 256 ^ k) (rest : Bytes) :
    ofLittleEndian ((littleEndian k v ++ rest).take k) = v := by
  rw [List.take_left' (length_littleEndian k v), ofLittleEndian_littleEndian h]

/-- The byte by byte reading with shifts is the same number. -/
theorem foldr_shift_or (p : Bytes) :
    p.foldr (fun b v => v <<< 8 ||| b.toNat) 0 = ofLittleEndian p := by
  induction p with
  | nil => rfl
  | cons b p ih =>
    have hb : b.toNat < 2 ^ 8 := b.toNat_lt
    rw [List.foldr_cons, ih, ← Nat.shiftLeft_add_eq_or_of_lt hb, Nat.shiftLeft_eq, ofLittleEndian]
    omega

end Sf37.Text

/-
Sf37.Hash.Sha1 — SHA-1 as FIPS 180-4 states it, on strings of bits.
-/
import Mathlib.Tactic.Common
import Mathlib.Algebra.Group.Nat.Defs

namespace Sf37.Hash.Sha1

/-- A word of 32 bits. -/
abbrev Word := BitVec 32

/-! ## Bits -/

/-- The number that bits stand for, the first one the highest. -/
def ofBits (bs : List Bool) : Nat := bs.foldl (fun v b => 2 * v + b.toNat) 0

/-- The `w` low bits of a number, the highest one first. -/
def toBits (w n : Nat) : List Bool := (List.range w).map fun i => n.testBit (w - 1 - i)

/-- The bits of a string of bytes. -/
def bitsOf (bs : List UInt8) : List Bool := bs.flatMap fun b => toBits 8 b.toNat

/-! ## Functions and constants (4.1.1, 4.2.1) -/

def ch (x y z : Word) : Word := (x &&& y) ^^^ (~~~x &&& z)

def parity (x y z : Word) : Word := x ^^^ y ^^^ z

def maj (x y z : Word) : Word := (x &&& y) ^^^ (x &&& z) ^^^ (y &&& z)

/-- `f_t`. -/
def f (t : Nat) : Word → Word → Word → Word :=
  if t ≤ 19 then ch else if t ≤ 39 then parity else if t ≤ 59 then maj else parity

/-- `K_t`. -/
def k (t : Nat) : Word :=
  if t ≤ 19 then 0x5a827999 else if t ≤ 39 then 0x6ed9eba1
  else if t ≤ 59 then 0x8f1bbcdc else 0xca62c1d6

/-- `ROTL^n`. -/
def rotl (n : Nat) (x : Word) : Word := x.rotateLeft n

/-! ## Padding and parsing (5.1.1, 5.2.1) -/

/-- The smallest `k` with `l + 1 + k` congruent to 448 modulo 512. -/
def padZeros (l : Nat) : Nat := (959 - l % 512) % 512

def pad (m : List Bool) : List Bool :=
  m ++ [true] ++ List.replicate (padZeros m.length) false ++ toBits 64 m.length

/-- `M^(i)`, from `i = 0`. -/
def block (m : List Bool) (i : Nat) : List Bool := (m.drop (512 * i)).take 512

/-- `M_t^(i)`. -/
def messageWord (b : List Bool) (t : Nat) : Word :=
  BitVec.ofNat 32 (ofBits ((b.drop (32 * t)).take 32))

/-! ## The computation (5.3.1, 6.1.2) -/

/-- `W_t`. -/
def schedule (b : List Bool) (t : Nat) : Word :=
  if t < 16 then messageWord b t
  else
    rotl 1 (schedule b (t - 3) ^^^ schedule b (t - 8) ^^^ schedule b (t - 14) ^^^
      schedule b (t - 16))

/-- The five words of a hash value, and the working variables. -/
structure Vars where
  a : Word
  b : Word
  c : Word
  d : Word
  e : Word
  deriving DecidableEq, Repr

/-- `H^(0)`. -/
def initial : Vars := ⟨0x67452301, 0xefcdab89, 0x98badcfe, 0x10325476, 0xc3d2e1f0⟩

/-- The step of `t`. -/
def step (m : List Bool) (t : Nat) (v : Vars) : Vars where
  a := rotl 5 v.a + f t v.b v.c v.d + v.e + k t + schedule m t
  b := v.a
  c := rotl 30 v.b
  d := v.c
  e := v.d

/-- The working variables before the step of `t`. -/
def steps (m : List Bool) (h : Vars) : Nat → Vars
  | 0 => h
  | t + 1 => step m t (steps m h t)

/-- The next hash value. -/
def next (h : Vars) (m : List Bool) : Vars :=
  let v := steps m h 80
  ⟨v.a + h.a, v.b + h.b, v.c + h.c, v.d + h.d, v.e + h.e⟩

/-- `H^(i)` of a padded message. -/
def hashValue (m : List Bool) : Nat → Vars
  | 0 => initial
  | i + 1 => next (hashValue m i) (block m i)

/-- The digest of a message. -/
def sha1 (m : List Bool) : Vars := hashValue (pad m) ((pad m).length / 512)

/-! ## The digest in lower-case hex -/

/-- A digit, as ASCII. -/
def hexDigit (n : Nat) : UInt8 := UInt8.ofNat (if n < 10 then 0x30 + n else 0x61 + (n - 10))

/-- A word, its highest digit first. -/
def hexWord (w : Word) : List UInt8 :=
  (List.range 8).map fun i => hexDigit (w.toNat / 16 ^ (7 - i) % 16)

def hex (v : Vars) : List UInt8 :=
  hexWord v.a ++ hexWord v.b ++ hexWord v.c ++ hexWord v.d ++ hexWord v.e

end Sf37.Hash.Sha1

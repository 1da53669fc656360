/-
Sf37.Gguf.Cursor — the cursor a GGUF file is walked with: `cursor_*` and `skip_value`.

A byte outside the file that is read is an outcome of its own, `Stop.outside`.

* `ValueText`: the texts of the metadata values, as a grammar.
* `reads_skipValue`: `skip_value` walks over exactly these.
* `stops_skipValue`: and never reads outside the file.
-/
import Sf37.Run.Reader
import Sf37.Text.LittleEndian
import Mathlib.Algebra.Group.Nat.Defs

namespace Sf37.Gguf

open Sf37.Text Sf37.Run

/-- A file as `fstat` and `mmap` give it; its size is an `off_t`. -/
structure File where
  data : Bytes
  fits : data.length < 2 ^ 63

/-- Why a walk stops: it fails with a text, the program exits with a message, or a byte
outside the file is read. -/
inductive Stop where
  | failed (error : Bytes)
  | exited (message : Bytes)
  | outside
  deriving DecidableEq

theorem Stop.failed_ne (error : Bytes) : Stop.failed error ≠ .outside := nofun

theorem Stop.exited_ne (message : Bytes) : Stop.exited message ≠ .outside := nofun

/-- A walk over the bytes of a file; its place is `c->pos`. -/
abbrev Walk (α : Type) := Reader UInt8 Stop α

/-- The size of a mapped file. -/
def Mapped (data : Bytes) : Prop := data.length < 2 ^ 63

/-! ## The cursor -/

/-- A decimal number, as `PRIu64` and `%u` print it. -/
def decimal (n : Nat) : Bytes := bytes (toString n)

/-- `cursor_fail`. -/
def cursorFail {α : Type} (msg : Bytes) : Walk α := fun _ pos =>
  .error (.failed (msg ++ bytes " at byte " ++ decimal pos))

/-- `cursor_need`. -/
def cursorNeed (n : Nat) : Walk Unit := fun file pos =>
  if file.length < n ∨ file.length - n < pos then
    cursorFail (bytes "truncated GGUF") file pos
  else .ok ((), pos)

/-- `c->pos`. -/
def position : Walk Nat := fun _ pos => .ok (pos, pos)

/-- The `n` bytes at the cursor, as `memcpy` reads them. -/
def load (n : Nat) : Walk Bytes := fun file pos =>
  if pos + n ≤ file.length then .ok ((file.drop pos).take n, pos) else .error .outside

/-- `c->pos += n`. -/
def advance (n : Nat) : Walk Unit := fun _ pos => .ok ((), (pos + n) % 2 ^ 64)

/-- `cursor_u32` and `cursor_u64`, of `k` bytes. -/
def cursorNumber (k : Nat) : Walk Nat := do
  cursorNeed k
  let v ← load k
  advance k
  pure (ofLittleEndian v)

/-- `cursor_u32`. -/
def cursorU32 : Walk Nat := cursorNumber 4

/-- `cursor_u64`. -/
def cursorU64 : Walk Nat := cursorNumber 8

/-- `cursor_skip`. -/
def cursorSkip (n : Nat) : Walk Unit := do
  cursorNeed n
  advance n

/-- A string in the mapped file: where it stands, and the bytes there. -/
structure Str where
  ptr : Nat
  text : Bytes

/-- `cursor_string`. -/
def cursorString : Walk Str := do
  let len ← cursorU64
  cursorNeed len
  let ptr ← position
  let text ← load len
  advance len
  pure ⟨ptr, text⟩

/-- `checked_mul_u64`. -/
def checkedMul (a b : Nat) (what : Bytes) : Walk Nat :=
  if a ≠ 0 ∧ (2 ^ 64 - 1) / a < b then
    Reader.stop (.exited (bytes "sf37: overflow computing " ++ what ++ bytes "\n"))
  else pure (a * b % 2 ^ 64)

/-! ## Metadata values -/

def ggufValueUint8 : Nat := 0
def ggufValueInt8 : Nat := 1
def ggufValueUint16 : Nat := 2
def ggufValueInt16 : Nat := 3
def ggufValueUint32 : Nat := 4
def ggufValueInt32 : Nat := 5
def ggufValueFloat32 : Nat := 6
def ggufValueBool : Nat := 7
def ggufValueString : Nat := 8
def ggufValueArray : Nat := 9
def ggufValueUint64 : Nat := 10
def ggufValueInt64 : Nat := 11
def ggufValueFloat64 : Nat := 12

/-- `gguf_value_size`. -/
def ggufValueSize (type : Nat) : Nat :=
  if type = ggufValueUint8 ∨ type = ggufValueInt8 ∨ type = ggufValueBool then 1
  else if type = ggufValueUint16 ∨ type = ggufValueInt16 then 2
  else if type = ggufValueUint32 ∨ type = ggufValueInt32 ∨ type = ggufValueFloat32 then 4
  else if type = ggufValueUint64 ∨ type = ggufValueInt64 ∨ type = ggufValueFloat64 then 8
  else 0

/-- `skip_value`, with the levels of nesting left: `depth` is three less these. -/
def skipValue : Nat → Nat → Walk Unit
  | 0, _ => cursorFail (bytes "nested GGUF array is too deep")
  | left + 1, type =>
    if type = ggufValueString then do
      let _ ← cursorString
      pure ()
    else if type = ggufValueArray then do
      let elemType ← cursorU32
      let n ← cursorU64
      let elemSize := ggufValueSize elemType
      if elemSize ≠ 0 then do
        let size ← checkedMul n elemSize (bytes "metadata array")
        cursorSkip size
      else do
        let _ ← Reader.turns (fun _ => do
          skipValue left elemType
          pure ((), ())) n ()
        pure ()
    else
      let size := ggufValueSize type
      if size = 0 then cursorFail (bytes "unknown GGUF metadata type") else cursorSkip size

/-! ## What the cursor takes -/

/-- The bytes of a number of `k` bytes. -/
def NumberText (k v : Nat) (p : Bytes) : Prop := v < 256 ^ k ∧ p = littleEndian k v

/-- The bytes of a string: its length, then itself. -/
def stringText (s : Bytes) : Bytes := littleEndian 8 s.length ++ s

theorem length_stringText (s : Bytes) : (stringText s).length = 8 + s.length := by
  rw [stringText, List.length_append, length_littleEndian]

/-- The failure of `cursor_need`. -/
def truncated (pos : Nat) : Stop :=
  .failed (bytes "truncated GGUF" ++ bytes " at byte " ++ decimal pos)

theorem reads_cursorFail {α : Type} (msg : Bytes) :
    Reads Mapped (cursorFail msg : Walk α) TakesNone := by
  intro file _ pos _ a after
  constructor
  · intro h
    cases h
  · rintro ⟨p, h, -⟩
    exact h.elim

theorem stops_cursorFail {α : Type} (msg : Bytes) :
    Stops Mapped Stop.outside (cursorFail msg : Walk α) Nowhere := by
  intro file _ pos _
  constructor
  · intro h
    cases h
  · exact False.elim

theorem reads_position : Reads Mapped position fun pos a p => a = pos ∧ p = [] := by
  intro file _ pos _ a after
  constructor
  · intro h
    cases h
    exact ⟨[], ⟨rfl, rfl⟩, standsAt_nil _ _, rfl⟩
  · rintro ⟨p, ⟨rfl, rfl⟩, -, rfl⟩
    rfl

theorem stops_position : Stops Mapped Stop.outside position Nowhere := by
  intro file _ pos _
  constructor
  · intro h
    cases h
  · exact False.elim

theorem load_eq {n : Nat} {file : Bytes} {pos : Nat} (h : pos + n ≤ file.length) :
    load n file pos = .ok ((file.drop pos).take n, pos) := if_pos h

theorem advance_eq {n : Nat} {file : Bytes} {pos : Nat} (hfile : Mapped file)
    (h : pos + n ≤ file.length) : advance n file pos = .ok ((), pos + n) := by
  unfold Mapped at hfile
  have hmod : (pos + n) % 2 ^ 64 = pos + n := Nat.mod_eq_of_lt (by omega)
  rw [advance, hmod]

/-- `cursor_need` in front of what takes the bytes asked for. -/
theorem readsNext_need {α : Type} {n : Nat} {r : Walk α} {value : Nat → Bytes → α}
    (h : ∀ file, Mapped file → ∀ pos, pos + n ≤ file.length →
      r file pos = .ok (value pos ((file.drop pos).take n), pos + n)) :
    ReadsNext Mapped (do
      cursorNeed n
      r) n value truncated := by
  intro file hfile pos hpos
  by_cases hle : pos + n ≤ file.length
  · have hneed : cursorNeed n file pos = .ok ((), pos) := if_neg (by omega)
    rw [if_pos hle, Reader.bind_of_ok hneed, h file hfile pos hle]
  · have hneed : cursorNeed n file pos = .error (truncated pos) := if_pos (by omega)
    rw [if_neg hle, Reader.bind_of_error hneed]

theorem readsNext_cursorNumber (k : Nat) :
    ReadsNext Mapped (cursorNumber k) k (fun _ p => ofLittleEndian p) truncated := by
  refine readsNext_need fun file hfile pos h => ?_
  rw [Reader.bind_of_ok (load_eq h), Reader.bind_of_ok (advance_eq hfile h)]
  rfl

theorem readsNext_cursorSkip (n : Nat) :
    ReadsNext Mapped (cursorSkip n) n (fun _ _ => ()) truncated :=
  readsNext_need fun _ hfile _ h => advance_eq hfile h

theorem reads_cursorNumber (k : Nat) :
    Reads Mapped (cursorNumber k) fun _ v p => NumberText k v p := by
  refine (readsNext_cursorNumber k).reads.congr fun pos v p => ⟨?_, ?_⟩
  · rintro ⟨rfl, rfl⟩
    exact ⟨ofLittleEndian_lt p, (littleEndian_ofLittleEndian p).symm⟩
  · rintro ⟨hv, rfl⟩
    exact ⟨length_littleEndian k v, (ofLittleEndian_littleEndian hv).symm⟩

theorem stops_cursorNumber (k : Nat) : Stops Mapped Stop.outside (cursorNumber k) Nowhere :=
  (readsNext_cursorNumber k).stops fun _ h => nomatch h

theorem reads_cursorSkip (n : Nat) : Reads Mapped (cursorSkip n) fun _ _ p => p.length = n :=
  (readsNext_cursorSkip n).reads.congr fun _ _ _ => and_iff_left rfl

theorem stops_cursorSkip (n : Nat) : Stops Mapped Stop.outside (cursorSkip n) Nowhere :=
  (readsNext_cursorSkip n).stops fun _ h => nomatch h

/-- The part of `cursor_string` after the length. -/
theorem readsNext_stringBody (len : Nat) :
    ReadsNext Mapped (do
      cursorNeed len
      let ptr ← position
      let text ← load len
      advance len
      pure (⟨ptr, text⟩ : Str)) len (fun pos p => ⟨pos, p⟩) truncated := by
  refine readsNext_need fun file hfile pos h => ?_
  have hptr : position file pos = .ok (pos, pos) := rfl
  rw [Reader.bind_of_ok hptr, Reader.bind_of_ok (load_eq h),
    Reader.bind_of_ok (advance_eq hfile h)]
  rfl

theorem reads_cursorString :
    Reads Mapped cursorString fun pos s p =>
      s.text.length < 2 ^ 64 ∧ s.ptr = pos + 8 ∧ p = stringText s.text := by
  refine ((reads_cursorNumber 8).bind fun len => (readsNext_stringBody len).reads).congr ?_
  intro pos s p
  constructor
  · rintro ⟨len, q, t, ⟨hlen, rfl⟩, ⟨rfl, rfl⟩, rfl⟩
    exact ⟨hlen, by rw [length_littleEndian], rfl⟩
  · rintro ⟨hlen, hptr, rfl⟩
    refine ⟨s.text.length, _, s.text, ⟨hlen, rfl⟩, ⟨rfl, ?_⟩, rfl⟩
    rw [length_littleEndian, ← hptr]

theorem stops_cursorString : Stops Mapped Stop.outside cursorString Nowhere :=
  (stops_cursorNumber 8).bind_nowhere (reads_cursorNumber 8) fun len =>
    (readsNext_stringBody len).stops fun _ h => nomatch h

/-! ## Checked products -/

theorem checkedMul_eq (a b : Nat) (what : Bytes) :
    checkedMul a b what = if a * b < 2 ^ 64 then pure (a * b) else
      Reader.stop (.exited (bytes "sf37: overflow computing " ++ what ++ bytes "\n")) := by
  unfold checkedMul
  have hiff : (a ≠ 0 ∧ (2 ^ 64 - 1) / a < b) ↔ ¬ a * b < 2 ^ 64 := by
    rcases Nat.eq_zero_or_pos a with rfl | ha
    · simp
    · rw [Nat.div_lt_iff_lt_mul ha, Nat.mul_comm b a]
      omega
  by_cases h : a * b < 2 ^ 64
  · rw [if_neg (fun hc => hiff.mp hc h), if_pos h, Nat.mod_eq_of_lt h]
  · rw [if_pos (hiff.mpr h), if_neg h]

theorem reads_checkedMul (a b : Nat) (what : Bytes) :
    Reads Mapped (checkedMul a b what) fun _ v p => v = a * b ∧ a * b < 2 ^ 64 ∧ p = [] := by
  rw [checkedMul_eq]
  refine (Reads.ite (reads_pure _) (reads_stop _)).congr fun pos v p => ?_
  split
  · rename_i h
    exact ⟨fun hr => ⟨hr.1, h, hr.2⟩, fun hr => ⟨hr.1, hr.2.2⟩⟩
  · rename_i h
    exact ⟨False.elim, fun hr => h hr.2.1⟩

theorem stops_checkedMul (a b : Nat) (what : Bytes) :
    Stops Mapped Stop.outside (checkedMul a b what) Nowhere := by
  rw [checkedMul_eq]
  exact (stops_pure _ _).ite_nowhere (stops_stop (Stop.exited_ne _))

/-! ## The metadata values -/

/-- The texts of the `n` elements of an array: `elem` are those of one element, and
scalars stand side by side. -/
def ElementsText (elem : Bytes → Prop) (elemType n : Nat) (p : Bytes) : Prop :=
  if ggufValueSize elemType ≠ 0 then
    n * ggufValueSize elemType < 2 ^ 64 ∧ p.length = n * ggufValueSize elemType
  else ∃ ps : List Bytes, ps.length = n ∧ (∀ q ∈ ps, elem q) ∧ p = ps.flatten

/-- The texts of the values of a type, with the levels left that arrays may nest. -/
def ValueText : Nat → Nat → Bytes → Prop
  | 0, _, _ => False
  | left + 1, type, p =>
    if type = ggufValueString then ∃ s, s.length < 2 ^ 64 ∧ p = stringText s
    else if type = ggufValueArray then
      ∃ elemType n q, elemType < 2 ^ 32 ∧ n < 2 ^ 64 ∧
        ElementsText (ValueText left elemType) elemType n q ∧
        p = littleEndian 4 elemType ++ (littleEndian 8 n ++ q)
    else ggufValueSize type ≠ 0 ∧ p.length = ggufValueSize type

/-- A turn of the loop of `skip_value`. -/
theorem reads_skipElement {elem : Walk Unit} {E : Bytes → Prop}
    (h : Reads Mapped elem fun _ _ p => E p) (_ : Unit) :
    Reads Mapped (do
      elem
      pure ((), ())) fun _ (_ : Unit × Unit) p => E p := by
  refine (h.bind fun _ => reads_pure ((), ())).congr fun pos out p => ⟨?_, fun hp => ?_⟩
  · rintro ⟨-, q, -, hq, ⟨-, rfl⟩, rfl⟩
    rwa [List.append_nil]
  · exact ⟨(), p, [], hp, ⟨rfl, rfl⟩, (List.append_nil p).symm⟩

/-- The loop of `skip_value`. -/
theorem reads_skipElements {elem : Walk Unit} {E : Bytes → Prop}
    (h : Reads Mapped elem fun _ _ p => E p) (n : Nat) :
    Reads Mapped (do
      let _ ← Reader.turns (fun _ => do
        elem
        pure ((), ())) n ()
      pure ()) fun _ _ p =>
        ∃ ps : List Bytes, ps.length = n ∧ (∀ q ∈ ps, E q) ∧ p = ps.flatten := by
  have hturn : ∀ (u : Unit) (pos : Nat) (v u' : Unit) (q : Bytes),
      E q ↔ ∃ b, E b ∧ v = () ∧ u' = () ∧ q = id b := by
    intro u pos v u' q
    exact ⟨fun h => ⟨q, h, rfl, rfl, rfl⟩, fun ⟨b, h, _, _, hb⟩ => hb ▸ h⟩
  refine ((Reads.turns (reads_skipElement h) n ()).bind fun _ => reads_pure ()).congr
    fun pos _ p => ⟨?_, ?_⟩
  · rintro ⟨⟨us, _⟩, q, _, htakes, ⟨-, rfl⟩, rfl⟩
    obtain ⟨ps, hlen, hps, -, -, rfl⟩ := (takesTurns_iff hturn).mp htakes
    exact ⟨ps, hlen, hps, by rw [List.append_nil, List.flatMap_id]⟩
  · rintro ⟨ps, hlen, hps, rfl⟩
    exact ⟨_, ps.flatten, [], (takesTurns_iff hturn).mpr
      ⟨ps, hlen, hps, rfl, rfl, List.flatMap_id.symm⟩, ⟨rfl, rfl⟩, (List.append_nil _).symm⟩

/-- `skip_value` walks over exactly the texts of values. -/
theorem reads_skipValue (left type : Nat) :
    Reads Mapped (skipValue left type) fun _ _ p => ValueText left type p := by
  induction left generalizing type with
  | zero => exact (reads_cursorFail _).congr fun _ _ _ => Iff.rfl
  | succ left ih =>
    refine Reads.congr (Reads.ite
      (reads_cursorString.bind fun _ => reads_pure ())
      (Reads.ite
        ((reads_cursorNumber 4).bind fun elemType => (reads_cursorNumber 8).bind fun n =>
          Reads.ite
            ((reads_checkedMul n (ggufValueSize elemType) _).bind fun size =>
              reads_cursorSkip size)
            (reads_skipElements (ih elemType) n))
        (Reads.ite (reads_cursorFail _) (reads_cursorSkip (ggufValueSize type))))) ?_
    intro pos _ p
    simp only [ValueText]
    split
    · constructor
      · rintro ⟨s, q, _, ⟨hs, -, rfl⟩, ⟨-, rfl⟩, rfl⟩
        exact ⟨s.text, hs, List.append_nil _⟩
      · rintro ⟨s, hs, rfl⟩
        exact ⟨⟨pos + 8, s⟩, _, [], ⟨hs, rfl, rfl⟩, ⟨trivial, rfl⟩, (List.append_nil _).symm⟩
    · split
      · constructor
        · rintro ⟨elemType, _, _, ⟨htype, rfl⟩, ⟨n, _, q, ⟨hn, rfl⟩, hq, rfl⟩, rfl⟩
          refine ⟨elemType, n, q, htype, hn, ?_, rfl⟩
          unfold ElementsText
          split at hq
          · rename_i hsize
            obtain ⟨size, _, r, ⟨rfl, hfits, rfl⟩, hr, rfl⟩ := hq
            rw [if_pos hsize]
            exact ⟨hfits, hr⟩
          · rename_i hsize
            rw [if_neg hsize]
            exact hq
        · rintro ⟨elemType, n, q, htype, hn, hq, rfl⟩
          refine ⟨elemType, _, _, ⟨htype, rfl⟩, ⟨n, _, q, ⟨hn, rfl⟩, ?_, rfl⟩, rfl⟩
          unfold ElementsText at hq
          split at hq
          · rename_i hsize
            rw [if_pos hsize]
            exact ⟨_, [], q, ⟨rfl, hq.1, rfl⟩, hq.2, rfl⟩
          · rename_i hsize
            rw [if_neg hsize]
            exact hq
      · by_cases hsize : ggufValueSize type = 0
        · simp [hsize, TakesNone]
        · simp [hsize]

/-- `skip_value` reads nothing outside the file. -/
theorem stops_skipValue (left type : Nat) :
    Stops Mapped Stop.outside (skipValue left type) Nowhere := by
  induction left generalizing type with
  | zero => exact stops_cursorFail _
  | succ left ih =>
    have hturn : ∀ elemType, ∀ _ : Unit, Stops Mapped Stop.outside (do
        skipValue left elemType
        pure ((), ())) Nowhere := fun elemType _ =>
      (ih elemType).bind_nowhere (reads_skipValue left elemType) fun _ => stops_pure _ _
    refine Stops.ite_nowhere
      (stops_cursorString.bind_nowhere reads_cursorString fun _ => stops_pure _ _)
      (Stops.ite_nowhere
        ((stops_cursorNumber 4).bind_nowhere (reads_cursorNumber 4) fun elemType =>
          (stops_cursorNumber 8).bind_nowhere (reads_cursorNumber 8) fun n =>
            Stops.ite_nowhere
              ((stops_checkedMul n (ggufValueSize elemType) _).bind_nowhere
                (reads_checkedMul n (ggufValueSize elemType) _) stops_cursorSkip)
              (Stops.bind_nowhere
                (Reads.turns (reads_skipElement (reads_skipValue left elemType)) n ())
                (Stops.turns_nowhere (reads_skipElement (reads_skipValue left elemType))
                  (hturn elemType) n ()) fun _ => stops_pure _ _))
        (Stops.ite_nowhere (stops_cursorFail _) (stops_cursorSkip _)))

end Sf37.Gguf

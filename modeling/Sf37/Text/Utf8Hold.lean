/-
Sf37.Text.Utf8Hold — `utf8_stream_safe_len`, the hold-back that keeps a
streamed piece from ending inside a multi-byte character.

The scan goes from character to character. At each one it knows from the lead
byte how many bytes the character needs; it stops when they would pass the
limit, and steps over a byte that cannot lead or whose continuation bytes are
wrong. `utf8Step` is one turn of the loop, and every fact below is about the
chain of turns:

* a turn allowed under one limit is allowed under every larger one
  (`utf8Step_mono`), so scans under two limits follow the same path;
* `utf8StreamSafeLen_compose`: going on from where a scan stopped, under any
  other limit, ends where a scan under the larger limit ends;
* the result is between the start and the limit, and at most three bytes
  short of the limit.
-/
import Sf37.Text.CString

namespace Sf37.Text

/-- Bytes a character needs by its lead byte, `0` for a byte that cannot lead. -/
def utf8Need (c : UInt8) : Nat :=
  if c < 0x80 then 1
  else if c &&& 0xe0 = 0xc0 then 2
  else if c &&& 0xf0 = 0xe0 then 3
  else if c &&& 0xf8 = 0xf0 then 4
  else 0

/-- The bytes after the lead byte at `i` are continuation bytes. -/
def utf8ContOk (s : Bytes) (i need : Nat) : Bool :=
  (slice s (i + 1) (i + need)).all fun c => c &&& 0xc0 == 0x80

/-- One turn of the loop at `i`: where the next turn starts, or `none` when
the loop ends. -/
def utf8Step (s : Bytes) (limit i : Nat) : Option Nat :=
  if i < limit then
    let need := utf8Need (s.getD i 0)
    if need = 0 then some (i + 1)
    else if limit < i + need then none
    else if utf8ContOk s i need then some (i + need)
    else some (i + 1)
  else none

/-- The turns from `i`. The source keeps `safe` beside `i`; the two are equal
whenever the loop test runs, so one number carries both. -/
def utf8Scan (s : Bytes) (limit : Nat) : Nat → Nat → Nat
  | 0, i => i
  | fuel + 1, i =>
      match utf8Step s limit i with
      | none => i
      | some j => utf8Scan s limit fuel j

/-- `utf8_stream_safe_len`: every turn moves on, so `limit - start` turns are
enough. -/
def utf8StreamSafeLen (s : Bytes) (start limit : Nat) : Nat :=
  utf8Scan s limit (limit - start) start

/-! ## One turn -/

theorem utf8Need_le (c : UInt8) : utf8Need c ≤ 4 := by
  unfold utf8Need
  repeat' split
  all_goals omega

/-- A turn moves forward and stays within the limit. -/
theorem utf8Step_bounds {s : Bytes} {limit i j : Nat} (h : utf8Step s limit i = some j) :
    i < j ∧ j ≤ limit := by
  unfold utf8Step at h
  split at h
  · dsimp only at h
    split at h
    · obtain rfl := Option.some.inj h; omega
    · split at h
      · simp at h
      · split at h
        · obtain rfl := Option.some.inj h; omega
        · obtain rfl := Option.some.inj h; omega
  · simp at h

/-- A turn allowed under a limit is the same turn under a larger one. -/
theorem utf8Step_mono {s : Bytes} {l l' i j : Nat} (hl : l ≤ l')
    (h : utf8Step s l i = some j) : utf8Step s l' i = some j := by
  unfold utf8Step at h ⊢
  split at h
  · rw [if_pos (by omega)]
    dsimp only at h ⊢
    split at h
    · rename_i hz; rw [if_pos hz]; exact h
    · rename_i hz
      rw [if_neg hz]
      split at h
      · simp at h
      · rw [if_neg (by omega)]; exact h
  · simp at h

/-- A turn can only be refused within three bytes of the limit. -/
theorem utf8Step_none {s : Bytes} {limit i : Nat} (h : utf8Step s limit i = none) :
    limit ≤ i + 3 := by
  unfold utf8Step at h
  split at h
  · dsimp only at h
    have hneed := utf8Need_le (s.getD i 0)
    split at h
    · simp at h
    · split at h
      · omega
      · split at h <;> simp at h
  · omega

/-- A turn reads only the bytes below the limit. -/
theorem utf8Step_take {s : Bytes} {limit p i : Nat} (h : limit ≤ p) :
    utf8Step (s.take p) limit i = utf8Step s limit i := by
  unfold utf8Step
  split
  · have hget : (s.take p).getD i 0 = s.getD i 0 := by
      simp [List.getD_eq_getElem?_getD, show i < p by omega]
    simp only [hget]
    split
    · rfl
    · split
      · rfl
      · rename_i hlim
        rw [utf8ContOk, utf8ContOk, slice_take (by omega)]
  · rfl

/-! ## The scan -/

theorem utf8Scan_bounds (s : Bytes) (limit : Nat) : ∀ (fuel i : Nat),
    i ≤ utf8Scan s limit fuel i ∧ utf8Scan s limit fuel i ≤ max i limit
  | 0, i => ⟨Nat.le_refl i, Nat.le_max_left i limit⟩
  | fuel + 1, i => by
      rw [utf8Scan]
      cases h : utf8Step s limit i with
      | none => exact ⟨Nat.le_refl i, Nat.le_max_left i limit⟩
      | some j =>
          have hb := utf8Step_bounds h
          have ih := utf8Scan_bounds s limit fuel j
          simp only
          omega

/-- With a turn of fuel for each byte left, the scan runs to its end. -/
theorem utf8Scan_stops {s : Bytes} {limit : Nat} : ∀ (fuel i : Nat), limit ≤ i + fuel →
    utf8Step s limit (utf8Scan s limit fuel i) = none
  | 0, i, h => by simp [utf8Scan, utf8Step]; omega
  | fuel + 1, i, h => by
      rw [utf8Scan]
      cases hs : utf8Step s limit i with
      | none => exact hs
      | some j =>
          have hb := utf8Step_bounds hs
          exact utf8Scan_stops fuel j (by omega)

/-- Fuel beyond the end of the scan changes nothing. -/
theorem utf8Scan_fuel {s : Bytes} {limit : Nat} : ∀ (fuel fuel' i : Nat),
    limit ≤ i + fuel → limit ≤ i + fuel' →
    utf8Scan s limit fuel i = utf8Scan s limit fuel' i
  | 0, fuel', i, h, _ => by
      cases fuel' with
      | zero => rfl
      | succ f => simp [utf8Scan, utf8Step, show ¬ i < limit by omega]
  | fuel + 1, 0, i, _, h' => by simp [utf8Scan, utf8Step, show ¬ i < limit by omega]
  | fuel + 1, fuel' + 1, i, h, h' => by
      rw [utf8Scan, utf8Scan]
      cases hs : utf8Step s limit i with
      | none => rfl
      | some j =>
          have hb := utf8Step_bounds hs
          exact utf8Scan_fuel fuel fuel' j (by omega) (by omega)

/-- The scan goes on from the place a turn leads to. -/
theorem utf8StreamSafeLen_step {s : Bytes} {limit i j : Nat}
    (h : utf8Step s limit i = some j) :
    utf8StreamSafeLen s i limit = utf8StreamSafeLen s j limit := by
  have hb := utf8Step_bounds h
  rw [utf8StreamSafeLen, show limit - i = (limit - i - 1) + 1 by omega, utf8Scan, h]
  exact utf8Scan_fuel _ _ _ (by omega) (by omega)

theorem utf8StreamSafeLen_none {s : Bytes} {limit i : Nat}
    (h : utf8Step s limit i = none) : utf8StreamSafeLen s i limit = i := by
  rw [utf8StreamSafeLen]
  cases limit - i with
  | zero => rfl
  | succ n => rw [utf8Scan, h]

theorem le_utf8StreamSafeLen (s : Bytes) (start limit : Nat) :
    start ≤ utf8StreamSafeLen s start limit :=
  (utf8Scan_bounds _ _ _ _).1

theorem utf8StreamSafeLen_le {s : Bytes} {start limit : Nat} (h : start ≤ limit) :
    utf8StreamSafeLen s start limit ≤ limit := by
  have := (utf8Scan_bounds s limit (limit - start) start).2
  rw [utf8StreamSafeLen]
  omega

/-- At most three bytes are held back. -/
theorem le_utf8StreamSafeLen_add_three (s : Bytes) (start limit : Nat) :
    limit ≤ utf8StreamSafeLen s start limit + 3 :=
  utf8Step_none (utf8Scan_stops _ _ (by omega))

example : utf8StreamSafeLen (bytes "a｜b") 0 3 = 1 := by decide

theorem utf8Step_utf8StreamSafeLen (s : Bytes) (start limit : Nat) :
    utf8Step s limit (utf8StreamSafeLen s start limit) = none :=
  utf8Scan_stops _ _ (by omega)

/-- The scan does not stop before a character of one byte. -/
theorem utf8StreamSafeLen_ne {s : Bytes} {start limit i : Nat} {c : UInt8} (hi : i < limit)
    (hget : s[i]? = some c) (hc : c < 0x80) : utf8StreamSafeLen s start limit ≠ i := by
  intro heq
  have hstop := utf8Step_utf8StreamSafeLen s start limit
  rw [heq] at hstop
  have hneed : utf8Need (s.getD i 0) = 1 := by
    rw [List.getD_eq_getElem?_getD, hget, Option.getD_some, utf8Need, if_pos hc]
  have hcont : utf8ContOk s i 1 = true := by simp [utf8ContOk]
  unfold utf8Step at hstop
  rw [if_pos hi, hneed] at hstop
  dsimp only at hstop
  rw [if_neg nofun, if_neg (by omega), if_pos hcont] at hstop
  nomatch hstop

/-- Under a limit at or below the start nothing is scanned. -/
theorem utf8StreamSafeLen_of_le {s : Bytes} {start limit : Nat} (h : limit ≤ start) :
    utf8StreamSafeLen s start limit = start :=
  utf8StreamSafeLen_none (by simp [utf8Step, show ¬ start < limit by omega])

/-- Going on under a larger limit is scanning under the larger limit. -/
theorem utf8Scan_extend {s : Bytes} {l l' : Nat} (hl : l ≤ l') : ∀ (fuel i : Nat),
    utf8StreamSafeLen s (utf8Scan s l fuel i) l' = utf8StreamSafeLen s i l'
  | 0, i => rfl
  | fuel + 1, i => by
      rw [utf8Scan]
      cases h : utf8Step s l i with
      | none => rfl
      | some j =>
          have hstep := utf8Step_mono hl h
          simp only
          rw [utf8Scan_extend hl fuel j, utf8StreamSafeLen_step hstep]

/-- Continuing from where a scan stopped, under any limit, ends where one scan
under the larger of the two limits ends. -/
theorem utf8StreamSafeLen_compose (s : Bytes) (start l l' : Nat) :
    utf8StreamSafeLen s (utf8StreamSafeLen s start l) l' =
      utf8StreamSafeLen s start (max l l') := by
  rcases Nat.le_total l l' with h | h
  · rw [Nat.max_eq_right h]
    exact utf8Scan_extend h _ _
  · rw [Nat.max_eq_left h]
    apply utf8StreamSafeLen_none
    cases hs : utf8Step s l' (utf8StreamSafeLen s start l) with
    | none => rfl
    | some j =>
        have := utf8Step_mono h hs
        rw [utf8Step_utf8StreamSafeLen] at this
        simp at this

/-- The scan reads only the bytes below the limit. -/
theorem utf8StreamSafeLen_take {s : Bytes} {start limit p : Nat} (h : limit ≤ p) :
    utf8StreamSafeLen (s.take p) start limit = utf8StreamSafeLen s start limit := by
  have hscan : ∀ fuel i, utf8Scan (s.take p) limit fuel i = utf8Scan s limit fuel i := by
    intro fuel
    induction fuel with
    | zero => intro i; rfl
    | succ fuel ih =>
      intro i
      rw [utf8Scan, utf8Scan, utf8Step_take h]
      cases utf8Step s limit i with
      | none => rfl
      | some j => exact ih j
  exact hscan _ _

end Sf37.Text

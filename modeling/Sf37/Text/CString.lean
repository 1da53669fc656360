/-
Sf37.Text.CString — the C string routines the server code is written with,
over byte lists.

A NUL-terminated string is the list of its bytes before the terminator, a
pointer into it is an offset or the suffix it points at, and a NULL result is
`none`. `bytes` turns a string literal of the source into its UTF-8 bytes; it
reduces in the kernel, so a constant of the source can be written the way the
source writes it.

`isspace` is the C-locale one: the server never calls `setlocale`.
-/
import Sf37.Text.Occurrence
import Mathlib.Data.List.TakeWhile

namespace Sf37.Text

/-- A `char` buffer. -/
abbrev Bytes := List UInt8

/-- The bytes of a string literal. -/
def bytes (s : String) : Bytes := s.toUTF8.data.toList

/-- C `isspace` in the C locale. -/
def isspace (c : UInt8) : Bool := c == 0x20 || (0x09 ≤ c && c ≤ 0x0d)

/-- C `tolower` in the C locale. -/
def tolower (c : UInt8) : UInt8 := if 0x41 ≤ c ∧ c ≤ 0x5a then c + 0x20 else c

/-- C `strstr`: the offset of the first `needle`. -/
def strstr (s needle : Bytes) : Option Nat := firstOcc needle s

/-- C `strncmp(p, lit, strlen(lit)) == 0`. -/
def startsWith (p lit : Bytes) : Bool := decide (lit <+: p)

/-- C `strchr`. -/
def strchr (s : Bytes) (c : UInt8) : Option Nat := s.findIdx? (· == c)

/-- `skip_ascii_ws` and `json_ws`: the suffix after leading white space. -/
def skipAsciiWs (p : Bytes) : Bytes := p.dropWhile isspace

/-- `find_last_substr`: restarting `strstr` one byte further on visits every
occurrence, so the last match is the last occurrence. -/
def findLastSubstr (s needle : Bytes) : Option Nat :=
  if needle = [] then none else lastOcc needle s

/-- `find_substr_from`: the first `needle` at or after `start` that ends
within the first `len` bytes. -/
def findSubstrFrom (s : Bytes) (len start : Nat) (needle : Bytes) : Option Nat :=
  if needle.length = 0 ∨ len ≤ start ∨ len < needle.length then none
  else (firstOcc needle ((s.take len).drop start)).map (start + ·)

/-- The bytes `s[lo..hi)`, as handed to a sender as pointer and length. -/
def slice (s : Bytes) (lo hi : Nat) : Bytes := (s.drop lo).take (hi - lo)

/-- What a `char *` made from a buffer shows: the bytes before the first NUL. -/
def cstr (b : Bytes) : Bytes := b.takeWhile (· != 0)

/-- No byte is NUL: the list is the content of a C string. -/
def NulFree (s : Bytes) : Prop := (0 : UInt8) ∉ s

instance (s : Bytes) : Decidable (NulFree s) := inferInstanceAs (Decidable (_ ∉ _))

/-- A C string shows all of a text exactly when the text has no NUL. -/
theorem cstr_iff {b : Bytes} : cstr b = b ↔ NulFree b := by
  unfold cstr NulFree
  rw [List.takeWhile_eq_self_iff]
  constructor
  · intro h hmem
    exact absurd (h 0 hmem) (by decide)
  · intro h c hc
    exact bne_iff_ne.mpr fun heq => h (heq ▸ hc)

theorem nulFree_append {a b : Bytes} : NulFree (a ++ b) ↔ NulFree a ∧ NulFree b := by
  simp [NulFree]

theorem nulFree_cstr (s : Bytes) : NulFree (cstr s) := fun h =>
  absurd (List.mem_takeWhile_imp h) (by decide)

theorem length_cstr_le (b : Bytes) : (cstr b).length ≤ b.length :=
  ( List.takeWhile_prefix _).length_le

theorem cstr_eq_take (b : Bytes) : cstr b = b.take (cstr b).length :=
  List.prefix_iff_eq_take.mp ( List.takeWhile_prefix _)

theorem cstr_append_free {a : Bytes} (h : NulFree a) (b : Bytes) : cstr (a ++ b) = a ++ cstr b :=
  List.takeWhile_append_of_pos fun _ hc => bne_iff_ne.mpr fun heq => h (heq ▸ hc)

theorem cstr_append_nul (a b : Bytes) : cstr (a ++ 0 :: b) = cstr a := by
  induction a with
  | nil => rfl
  | cons c a ih =>
    rw [cstr, cstr, List.cons_append, List.takeWhile_cons, List.takeWhile_cons, ← cstr, ← cstr, ih]

/-- A text with a NUL is what a C string shows of it, the NUL and a rest. -/
theorem eq_cstr_append {b : Bytes} (h : ¬ NulFree b) : ∃ rest, b = cstr b ++ 0 :: rest := by
  have hsplit : cstr b ++ b.dropWhile (· != 0) = b := List.takeWhile_append_dropWhile
  have hhead := List.head?_dropWhile_not (· != 0) b
  cases hr : b.dropWhile (· != 0) with
  | nil => exact absurd (cstr_iff.mp (by simpa [hr] using hsplit)) h
  | cons c rest =>
    obtain rfl : c = 0 := by simpa [hr] using hhead
    exact ⟨rest, by rw [← hr, hsplit]⟩

/-- A prefix that the NUL is behind shows the same. -/
theorem cstr_take {b : Bytes} {n : Nat} (h : (cstr b).length ≤ n) : cstr (b.take n) = cstr b := by
  by_cases hb : NulFree b
  · rw [cstr_iff.mpr hb] at h
    rw [List.take_of_length_le h]
  · obtain ⟨rest, hrest⟩ := eq_cstr_append hb
    obtain ⟨k, rfl⟩ := Nat.exists_eq_add_of_le h
    have htake : b.take ((cstr b).length + k) = cstr b ++ (0 :: rest).take k := by
      obtain ⟨c, hc⟩ : ∃ c, c = cstr b := ⟨_, rfl⟩
      rw [← hc] at hrest ⊢
      rw [hrest, List.take_length_add_append]
    rw [htake]
    cases k with
    | zero => rw [List.take_zero, List.append_nil, cstr_iff.mpr (nulFree_cstr b)]
    | succ k => rw [List.take_succ_cons, cstr_append_nul, cstr_iff.mpr (nulFree_cstr b)]

/-- A pointer into the string shows the rest of it. -/
theorem cstr_drop {b : Bytes} {n : Nat} (h : n ≤ (cstr b).length) :
    cstr (b.drop n) = (cstr b).drop n := by
  have hfree : NulFree ((cstr b).drop n) := fun hzero => nulFree_cstr b (List.mem_of_mem_drop hzero)
  by_cases hb : NulFree b
  · rw [cstr_iff.mpr hb] at hfree ⊢
    exact cstr_iff.mpr hfree
  · obtain ⟨rest, hrest⟩ := eq_cstr_append hb
    have hdrop : b.drop n = (cstr b).drop n ++ 0 :: rest := by
      obtain ⟨c, hc⟩ : ∃ c, c = cstr b := ⟨_, rfl⟩
      rw [← hc] at hrest h ⊢
      rw [hrest, List.drop_append_of_le_length h]
    rw [hdrop, cstr_append_nul, cstr_iff.mpr hfree]

/-- The first NUL. -/
theorem getElem?_length_cstr {b : Bytes} (h : ¬ NulFree b) : b[(cstr b).length]? = some 0 := by
  obtain ⟨rest, hrest⟩ := eq_cstr_append h
  obtain ⟨n, hn⟩ : ∃ n, n = (cstr b).length := ⟨_, rfl⟩
  rw [← hn, hrest, hn]
  simp

/-- What starts before the NUL and has none ends before it. -/
theorem OccursAt.add_le_cstr {n b : Bytes} {i : Nat} (hn : NulFree n) (h : OccursAt n b i)
    (hi : i ≤ (cstr b).length) : i + n.length ≤ (cstr b).length := by
  by_contra hlt
  have hin : (cstr b).length - i < n.length := by omega
  have hget := occursAt_iff_getElem?.mp h _ hin
  rw [show i + ((cstr b).length - i) = (cstr b).length by omega] at hget
  by_cases hb : NulFree b
  · rw [cstr_iff.mpr hb, List.getElem?_eq_none (Nat.le_refl _),
      List.getElem?_eq_getElem (by simpa [cstr_iff.mpr hb] using hin)] at hget
    exact absurd hget (by simp)
  · rw [getElem?_length_cstr hb] at hget
    exact hn (List.mem_of_getElem? hget.symm)

/-! ## `find_substr_from` -/

theorem findSubstrFrom_eq_some_iff {s needle : Bytes} {len start i : Nat}
    (hn : needle ≠ []) :
    findSubstrFrom s len start needle = some i ↔
      (start ≤ i ∧ i + needle.length ≤ len ∧ OccursAt needle s i) ∧
        ∀ j, start ≤ j → j < i → ¬ (OccursAt needle s j ∧ j + needle.length ≤ len) := by
  have hpos : 0 < needle.length := List.length_pos_iff.mpr hn
  unfold findSubstrFrom
  split
  · rename_i hc
    simp only [reduceCtorEq, false_iff, not_and]
    rintro ⟨h1, h2, -⟩
    omega
  · simp only [Option.map_eq_some_iff, firstOcc_eq_some_iff hn, occursAt_drop,
      occursAt_take hn]
    constructor
    · rintro ⟨k, ⟨⟨hocc, hk⟩, hmin⟩, rfl⟩
      refine ⟨⟨by omega, hk, hocc⟩, fun j hj hjk => ?_⟩
      have := hmin (j - start) (by omega)
      rwa [show start + (j - start) = j by omega] at this
    · rintro ⟨⟨h1, h2, h3⟩, hmin⟩
      refine ⟨i - start, ⟨?_, fun j hj => hmin (start + j) (by omega) (by omega)⟩, by omega⟩
      rw [show start + (i - start) = i by omega]
      exact ⟨h3, h2⟩

theorem findSubstrFrom_eq_none_iff {s needle : Bytes} {len start : Nat}
    (hn : needle ≠ []) :
    findSubstrFrom s len start needle = none ↔
      ∀ j, start ≤ j → ¬ (OccursAt needle s j ∧ j + needle.length ≤ len) := by
  have hpos : 0 < needle.length := List.length_pos_iff.mpr hn
  unfold findSubstrFrom
  split
  · rename_i hc
    simp only [true_iff, not_and]
    intro j hj hocc
    omega
  · simp only [Option.map_eq_none_iff, firstOcc_eq_none_iff hn, occursAt_drop,
      occursAt_take hn]
    constructor
    · intro h j hj
      have := h (j - start)
      rwa [show start + (j - start) = j by omega] at this
    · exact fun h i => h (start + i) (by omega)

/-! ## Reading a text piece by piece

The tests and searches a parser is made of, as equations between a text, the
piece read and the rest. -/

/-- White space only. -/
def Space (w : Bytes) : Prop := ∀ c ∈ w, isspace c = true

/-- The first `n` of `a ++ n` is the one at its end. -/
def EndsFirst (n a : Bytes) : Prop := ∀ i, i < a.length → ¬ OccursAt n (a ++ n) i

/-- The text does not begin with white space. -/
def NoSpace (p : Bytes) : Prop := ∀ c, p.head? = some c → isspace c = false

theorem startsWith_iff {p lit : Bytes} : startsWith p lit = true ↔ ∃ r, p = lit ++ r := by
  simp only [startsWith, decide_eq_true_eq]
  exact ⟨fun ⟨r, h⟩ => ⟨r, h.symm⟩, fun ⟨r, h⟩ => ⟨r, h.symm⟩⟩

@[simp] theorem startsWith_append (lit r : Bytes) : startsWith (lit ++ r) lit = true :=
  startsWith_iff.mpr ⟨r, rfl⟩

/-- The white space skipped, and a rest that begins with none. -/
theorem skipAsciiWs_spec (p : Bytes) :
    ∃ w, p = w ++ skipAsciiWs p ∧ Space w ∧ NoSpace (skipAsciiWs p) := by
  refine ⟨p.takeWhile isspace, List.takeWhile_append_dropWhile.symm,
    fun c hc => List.mem_takeWhile_imp hc, fun c hc => ?_⟩
  have := List.head?_dropWhile_not isspace p
  rw [skipAsciiWs] at hc
  rw [hc] at this
  simpa using this

theorem skipAsciiWs_append {w p : Bytes} (hw : Space w) (hp : NoSpace p) :
    skipAsciiWs (w ++ p) = p := by
  rw [skipAsciiWs, List.dropWhile_append_of_pos hw]
  cases p with
  | nil => rfl
  | cons c p => rw [List.dropWhile_cons_of_neg (by simpa using hp c rfl)]

theorem strchr_eq_some_iff {s : Bytes} {c : UInt8} {k : Nat} :
    strchr s c = some k ↔ ∃ a b, s = a ++ c :: b ∧ a.length = k ∧ c ∉ a := by
  rw [strchr, List.findIdx?_eq_some_iff_getElem]
  constructor
  · rintro ⟨hk, hc, hmin⟩
    refine ⟨s.take k, s.drop (k + 1), ?_, by simp; omega, fun hmem => ?_⟩
    · have hget : s[k] = c := by simpa using hc
      rw [← hget, List.cons_getElem_drop_succ, List.take_append_drop]
    · obtain ⟨j, hj, hjc⟩ := List.mem_iff_getElem.mp hmem
      have hjk : j < k := by simp at hj; omega
      exact hmin j hjk (by simpa using hjc)
  · rintro ⟨a, b, rfl, rfl, hc⟩
    refine ⟨by simp, by simp, fun j hj hbad => hc ?_⟩
    rw [List.getElem_append_left hj] at hbad
    rw [← (by simpa using hbad : a[j] = c)]
    exact List.getElem_mem hj

theorem strstr_eq_some_iff {s n : Bytes} {k : Nat} (hn : n ≠ []) :
    strstr s n = some k ↔ ∃ a b, s = a ++ n ++ b ∧ a.length = k ∧ EndsFirst n a := by
  rw [strstr, firstOcc_eq_some_iff hn]
  have hcut : ∀ (a b : Bytes) (i : Nat), i < a.length →
      (OccursAt n (a ++ n ++ b) i ↔ OccursAt n (a ++ n) i) := fun a b i hi => by
    have htake : (a ++ n ++ b).take (a ++ n).length = a ++ n := List.take_left
    have := occursAt_take (s := a ++ n ++ b) (p := (a ++ n).length) (i := i) hn
    rw [htake, List.length_append] at this
    exact ⟨fun h => this.mpr ⟨h, by omega⟩, fun h => (this.mp h).1⟩
  constructor
  · rintro ⟨hocc, hmin⟩
    have hlen := hocc.add_length_le hn
    obtain ⟨b, hb⟩ := hocc
    have hs : s = s.take k ++ n ++ b := by
      rw [List.append_assoc, hb, List.take_append_drop]
    have hka : (s.take k).length = k := by simp; omega
    refine ⟨s.take k, b, hs, hka, fun i hi => ?_⟩
    rw [← hcut _ b i hi, ← hs]
    exact hmin i (by omega)
  · rintro ⟨a, b, rfl, rfl, hfirst⟩
    refine ⟨?_, fun i hi => ?_⟩
    · rw [OccursAt, List.append_assoc, List.drop_left]
      exact List.prefix_append _ _
    · rw [hcut a b i hi]
      exact hfirst i hi

theorem strstr_append {n a : Bytes} (hn : n ≠ []) (h : EndsFirst n a) (b : Bytes) :
    strstr (a ++ n ++ b) n = some a.length :=
  (strstr_eq_some_iff hn).mpr ⟨a, b, rfl, rfl, h⟩

theorem strchr_append {c : UInt8} {a : Bytes} (h : c ∉ a) (b : Bytes) :
    strchr (a ++ c :: b) c = some a.length :=
  strchr_eq_some_iff.mpr ⟨a, b, rfl, rfl, h⟩

/-! ## Slices -/

@[simp] theorem slice_self (s : Bytes) (i : Nat) : slice s i i = [] := by simp [slice]

theorem slice_zero (s : Bytes) (n : Nat) : slice s 0 n = s.take n := by simp [slice]

theorem slice_length (s : Bytes) (a : Nat) : slice s a s.length = s.drop a := by
  rw [slice, List.take_of_length_le (by simp)]

/-- Two adjacent slices join. -/
theorem slice_append_slice {s : Bytes} {a b c : Nat} (hab : a ≤ b) (hbc : b ≤ c) :
    slice s a b ++ slice s b c = slice s a c := by
  rw [slice, slice, slice, show c - a = (b - a) + (c - b) by omega, List.take_add,
    List.drop_drop, show a + (b - a) = b by omega]

theorem length_slice {s : Bytes} {a b : Nat} (hb : b ≤ s.length) :
    (slice s a b).length = b - a := by
  simp only [slice, List.length_take, List.length_drop]
  omega

/-- Cutting the text behind a slice leaves the slice. -/
theorem slice_take {s : Bytes} {a b p : Nat} (h : b ≤ p) :
    slice (s.take p) a b = slice s a b := by
  rw [slice, slice, List.drop_take, List.take_take, Nat.min_eq_left (by omega)]

/-- A slice that begins before the first NUL and ends behind it. -/
theorem cstr_slice {s : Bytes} {a b : Nat} (ha : a ≤ (cstr s).length) (hb : (cstr s).length ≤ b) :
    cstr (slice s a b) = (cstr s).drop a := by
  have htake := cstr_take hb
  rw [slice, ← List.drop_take, cstr_drop (by rwa [htake]), htake]

/-- Two slices with one start are equal exactly when they have one length. -/
theorem slice_eq_iff {s : Bytes} {a b c : Nat} (hb : a ≤ b) (hb' : b ≤ s.length)
    (hc : a ≤ c) (hc' : c ≤ s.length) : slice s a b = slice s a c ↔ b = c := by
  constructor
  · intro h
    have hlen := congrArg List.length h
    rw [length_slice hb', length_slice hc'] at hlen
    omega
  · rintro rfl; rfl

end Sf37.Text

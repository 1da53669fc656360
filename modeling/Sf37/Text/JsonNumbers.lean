/-
Sf37.Text.JsonNumbers — what `strtod` takes for a number of a JSON text.

`strtod` reads as far as it can, so whether a text is a number depends on what follows.
In a JSON text a number is followed by white space, a comma, a closing bracket or the
end, and none of these can continue a number.

* `strtod_accepts`: what `strtod` takes somewhere, it takes before every such rest.
* `strtod_rfcNumber`: a number of the RFC is taken as a whole.
-/
import Sf37.Text.JsonStrings

namespace Sf37.Text

/-! ## What stands behind a number -/

/-- White space, a comma or a closing bracket. -/
def stopByte (c : UInt8) : Bool := isspace c || c == 0x2c || c == 0x5d || c == 0x7d

theorem stopByte_iff {c : UInt8} :
    stopByte c = true ↔ (c.toNat = 0x20 ∨ 9 ≤ c.toNat ∧ c.toNat ≤ 13) ∨ c.toNat = 0x2c ∨
      c.toNat = 0x5d ∨ c.toNat = 0x7d := by
  simp only [stopByte, Bool.or_eq_true, beq_iff_eq, isspace_iff, ← UInt8.toNat_inj,
    UInt8.reduceToNat, or_assoc]

/-- The text ends here or goes on with a byte that ends a value. -/
def Stops (u : Bytes) : Prop := ∀ c, u.head? = some c → stopByte c = true

theorem stops_nil : Stops [] := fun _ h => nomatch h

theorem stops_cons {c : UInt8} (h : stopByte c = true) (u : Bytes) : Stops (c :: u) :=
  fun _ hd => Option.some.inj hd ▸ h

theorem stops_space {w u : Bytes} (hw : Space w) (hu : Stops u) : Stops (w ++ u) := by
  match w, hw with
  | [], _ => exact hu
  | c :: w, hw =>
    refine stops_cons ?_ (w ++ u)
    rw [stopByte, hw c List.mem_cons_self]
    rfl

/-- What a byte that ends a value cannot be. -/
theorem stopByte_spec {c : UInt8} (h : stopByte c = true) :
    isDigit c = false ∧ isHexDigit c = false ∧ c ≠ 0x2e ∧ c ≠ 0x65 ∧ c ≠ 0x45 ∧ c ≠ 0x70 ∧
      c ≠ 0x50 ∧ c ≠ 0x78 ∧ c ≠ 0x58 := by
  rw [stopByte_iff] at h
  simp only [Bool.eq_false_iff, ne_eq, isDigit_iff, isHexDigit_iff, ← UInt8.toNat_inj,
    UInt8.reduceToNat]
  omega

/-! ## Digits and exponent -/

/-- The rest cannot go on with the digits. -/
def DigitsEnd (digit : UInt8 → Bool) (u : Bytes) : Prop :=
  ∀ c, u.head? = some c → digit c = false ∧ c ≠ 0x2e

theorem Stops.digitsEnd {u : Bytes} (hu : Stops u) :
    DigitsEnd isDigit u ∧ DigitsEnd isHexDigit u := by
  refine ⟨fun c hc => ?_, fun c hc => ?_⟩
  · obtain ⟨hdigit, -, hpoint, -⟩ := stopByte_spec (hu c hc)
    exact ⟨hdigit, hpoint⟩
  · obtain ⟨-, hdigit, hpoint, -⟩ := stopByte_spec (hu c hc)
    exact ⟨hdigit, hpoint⟩

/-- A text in front of a rest leaves the first byte of the whole to one of the two. -/
theorem head_append {P : UInt8 → Prop} {n u : Bytes} (hn : ∀ c, n.head? = some c → P c)
    (hu : ∀ c, u.head? = some c → P c) : ∀ c, (n ++ u).head? = some c → P c := by
  match n, hn with
  | [], _ => exact hu
  | _ :: _, hn => exact hn

theorem takeWhile_append_end {p : UInt8 → Bool} {a u : Bytes} (ha : ∀ c ∈ a, p c = true)
    (hu : ∀ c, u.head? = some c → p c = false) :
    (a ++ u).takeWhile p = a ∧ (a ++ u).dropWhile p = u := by
  have htake : u.takeWhile p = [] := by
    cases u with
    | nil => rfl
    | cons c u => exact List.takeWhile_cons_of_neg (by simp [hu c rfl])
  have hdrop : u.dropWhile p = u := by
    cases u with
    | nil => rfl
    | cons c u => exact List.dropWhile_cons_of_neg (by simp [hu c rfl])
  constructor
  · rw [List.takeWhile_append_of_pos ha, htake, List.append_nil]
  · rw [List.dropWhile_append_of_pos ha, hdrop]

/-- Digits without a point. -/
theorem strtodDigits_whole {digit : UInt8 → Bool} {ds u : Bytes} (hne : ds ≠ [])
    (hds : ∀ c ∈ ds, digit c = true) (hu : DigitsEnd digit u) :
    strtodDigits digit (ds ++ u) = some u := by
  obtain ⟨htake, hdrop⟩ := takeWhile_append_end hds (fun c hc => (hu c hc).1)
  rw [strtodDigits, htake, hdrop]
  cases u with
  | nil => simp [hne]
  | cons c u => simp [hne, (hu c rfl).2]

/-- Digits with a point. -/
theorem strtodDigits_point {digit : UInt8 → Bool} {ds fs u : Bytes} (hne : ds ≠ [] ∨ fs ≠ [])
    (hpoint : digit 0x2e = false) (hds : ∀ c ∈ ds, digit c = true)
    (hfs : ∀ c ∈ fs, digit c = true) (hu : ∀ c, u.head? = some c → digit c = false) :
    strtodDigits digit (ds ++ 0x2e :: (fs ++ u)) = some u := by
  obtain ⟨htake, hdrop⟩ := takeWhile_append_end (u := 0x2e :: (fs ++ u)) hds
    (fun c hc => Option.some.inj hc ▸ hpoint)
  obtain ⟨hftake, hfdrop⟩ := takeWhile_append_end hfs hu
  rw [strtodDigits, htake, hdrop]
  simp only [if_true, hftake, hfdrop]
  rw [if_neg]
  rintro ⟨h1, h2⟩
  exact hne.elim (fun h => h h1) (fun h => h h2)

/-- `strtod` takes digits without or with a point. -/
theorem strtodDigits_cases {digit : UInt8 → Bool} {p q : Bytes}
    (h : strtodDigits digit p = some q) :
    ∃ whole frac, (∀ c ∈ whole, digit c = true) ∧ (∀ c ∈ frac, digit c = true) ∧
      (whole ≠ [] ∧ p = whole ++ q ∨
        (whole ≠ [] ∨ frac ≠ []) ∧ p = whole ++ 0x2e :: (frac ++ q)) := by
  have hsplit := List.takeWhile_append_dropWhile (p := digit) (l := p)
  have hmem : ∀ {l : Bytes}, ∀ c ∈ l.takeWhile digit, digit c = true :=
    fun c hc => List.mem_takeWhile_imp hc
  rw [strtodDigits] at h
  match hafter : p.dropWhile digit, h with
  | [], h =>
    simp only at h
    split at h
    · cases h
    · rename_i hne
      cases h
      rw [hafter] at hsplit
      exact ⟨_, [], hmem, fun c hc => absurd hc List.not_mem_nil, .inl ⟨hne, hsplit.symm⟩⟩
  | c :: r, h =>
    rw [hafter] at hsplit
    simp only at h
    split at h
    · rename_i hc
      split at h
      · cases h
      · rename_i hne
        cases h
        refine ⟨p.takeWhile digit, r.takeWhile digit, hmem, hmem, .inr ⟨?_, ?_⟩⟩
        · by_cases hw : p.takeWhile digit = []
          · exact .inr fun hf => hne ⟨hw, hf⟩
          · exact .inl hw
        · rw [List.takeWhile_append_dropWhile, ← hc, hsplit]
    · split at h
      · cases h
      · rename_i hne
        cases h
        exact ⟨_, [], hmem, fun c hc => absurd hc List.not_mem_nil, .inl ⟨hne, hsplit.symm⟩⟩

/-- The digits `strtod` takes are taken before every rest that cannot go on with them. -/
theorem strtodDigits_spec {digit : UInt8 → Bool} (hpoint : digit 0x2e = false)
    {p q : Bytes} (h : strtodDigits digit p = some q) :
    ∃ n, p = n ++ q ∧ n ≠ [] ∧ (∀ c ∈ n, digit c = true ∨ c = 0x2e) ∧
      ∀ u, DigitsEnd digit u → strtodDigits digit (n ++ u) = some u := by
  obtain ⟨whole, frac, hwhole, hfrac, ⟨hne, hp⟩ | ⟨hne, hp⟩⟩ := strtodDigits_cases h
  · exact ⟨whole, hp, hne, fun c hc => .inl (hwhole c hc), fun u hu =>
      strtodDigits_whole hne hwhole hu⟩
  · refine ⟨whole ++ 0x2e :: frac, by simpa using hp, by simp, ?_, fun u hu => ?_⟩
    · intro c hc
      rcases List.mem_append.mp hc with hc | hc
      · exact .inl (hwhole c hc)
      · rcases List.mem_cons.mp hc with hc | hc
        · exact .inr hc
        · exact .inl (hfrac c hc)
    · have hread := strtodDigits_point hne hpoint hwhole hfrac (fun c hc => (hu c hc).1)
      simpa using hread

/-- A byte of an exponent. -/
def ExpByte (letter c : UInt8) : Prop :=
  c = letter ∨ c = letter - 0x20 ∨ c = 0x2b ∨ c = 0x2d ∨ isDigit c = true

/-- An exponent `strtod` takes is taken before every rest that is no digit. -/
theorem strtodExponent_digits {letter c : UInt8} (hc : c = letter ∨ c = letter - 0x20)
    {sign ds u : Bytes} (hsign : sign = [] ∨ sign = [0x2b] ∨ sign = [0x2d]) (hds : Digits ds)
    (hu : ∀ c, u.head? = some c → isDigit c = false) :
    strtodExponent letter (c :: (sign ++ (ds ++ u))) = u := by
  obtain ⟨htake, hdrop⟩ := takeWhile_append_end hds.2 hu
  match ds, hds with
  | d :: ds, hds =>
    have hd : isDigit d = true := hds.2 d List.mem_cons_self
    have hminus : d ≠ 0x2d := by
      rintro rfl
      exact absurd hd (by decide)
    have hplus : d ≠ 0x2b := by
      rintro rfl
      exact absurd hd (by decide)
    rcases hsign with rfl | rfl | rfl
    · simp only [List.cons_append] at htake hdrop
      simp [strtodExponent, hc, hminus, hplus, htake, hdrop]
    · simp only [List.cons_append] at htake hdrop
      simp [strtodExponent, hc, htake, hdrop]
    · simp only [List.cons_append] at htake hdrop
      simp [strtodExponent, hc, htake, hdrop]

theorem strtodExponent_none {letter : UInt8} {u : Bytes}
    (hu : ∀ c, u.head? = some c → c ≠ letter ∧ c ≠ letter - 0x20) :
    strtodExponent letter u = u := by
  match u, hu with
  | [], _ => rfl
  | c :: u, hu =>
    have hc : ¬ (c = letter ∨ c = letter - 0x20) := fun h =>
      h.elim (hu c rfl).1 (hu c rfl).2
    simp only [strtodExponent, if_neg hc]

/-- The exponent behind its letter: a sign or none, and digits. -/
theorem strtodExponent_letter {letter c : UInt8} (hc : c = letter ∨ c = letter - 0x20)
    (q : Bytes) :
    ∃ sign r, q = sign ++ r ∧ (sign = [] ∨ sign = [0x2b] ∨ sign = [0x2d]) ∧
      strtodExponent letter (c :: q) =
        if r.takeWhile isDigit = [] then c :: q else r.dropWhile isDigit := by
  match q with
  | [] =>
    refine ⟨[], [], rfl, .inl rfl, ?_⟩
    simp [strtodExponent]
  | s :: r =>
    by_cases hminus : s = 0x2d
    · subst hminus
      refine ⟨[0x2d], r, rfl, .inr (.inr rfl), ?_⟩
      simp [strtodExponent, hc]
    · by_cases hplus : s = 0x2b
      · subst hplus
        refine ⟨[0x2b], r, rfl, .inr (.inl rfl), ?_⟩
        simp [strtodExponent, hc]
      · refine ⟨[], s :: r, rfl, .inl rfl, ?_⟩
        simp only [strtodExponent, if_pos hc, hminus, hplus, or_self, if_false]

/-- `strtod` takes an exponent or nothing. -/
theorem strtodExponent_cases (letter : UInt8) (p : Bytes) :
    strtodExponent letter p = p ∨
      ∃ c sign ds, (c = letter ∨ c = letter - 0x20) ∧
        (sign = [] ∨ sign = [0x2b] ∨ sign = [0x2d]) ∧ Digits ds ∧
        p = c :: (sign ++ (ds ++ strtodExponent letter p)) := by
  match p with
  | [] => exact .inl rfl
  | c :: p =>
    by_cases hc : c = letter ∨ c = letter - 0x20
    · obtain ⟨sign, r, rfl, hsign, hread⟩ := strtodExponent_letter hc p
      rw [hread]
      split
      · exact .inl rfl
      · rename_i hne
        refine .inr ⟨c, sign, r.takeWhile isDigit, hc, hsign,
          ⟨hne, fun c hc => List.mem_takeWhile_imp hc⟩, ?_⟩
        rw [List.takeWhile_append_dropWhile]
    · exact .inl (strtodExponent_none fun d hd => by
        cases hd
        exact ⟨fun h => hc (.inl h), fun h => hc (.inr h)⟩)

/-- The exponent `strtod` takes is taken before everything a value can be followed by. -/
theorem strtodExponent_spec {letter : UInt8} (hletter : letter = 0x65 ∨ letter = 0x70)
    (p : Bytes) :
    ∃ n, p = n ++ strtodExponent letter p ∧ (∀ c ∈ n, ExpByte letter c) ∧
      (∀ c, n.head? = some c → c = letter ∨ c = letter - 0x20) ∧
      ∀ u, Stops u → strtodExponent letter (n ++ u) = u := by
  rcases strtodExponent_cases letter p with hnone | ⟨c, sign, ds, hc, hsign, hds, hp⟩
  · refine ⟨[], by rw [hnone, List.nil_append], fun c hc => absurd hc List.not_mem_nil,
      (fun c hc => nomatch hc), fun u hu => strtodExponent_none fun c hc => ?_⟩
    obtain ⟨-, -, -, he, hE, hp, hP, -⟩ := stopByte_spec (hu c hc)
    rcases hletter with rfl | rfl
    · exact ⟨he, hE⟩
    · exact ⟨hp, hP⟩
  · refine ⟨c :: (sign ++ ds), by simpa using hp, ?_, fun d hd => Option.some.inj hd ▸ hc,
      fun u hu => ?_⟩
    · intro d hd
      rcases List.mem_cons.mp hd with rfl | hd
      · exact hc.imp_right .inl
      · rcases List.mem_append.mp hd with hd | hd
        · rcases hsign with rfl | rfl | rfl
          · cases hd
          · exact .inr (.inr (.inl (List.mem_singleton.mp hd)))
          · exact .inr (.inr (.inr (.inl (List.mem_singleton.mp hd))))
        · exact .inr (.inr (.inr (.inr (hds.2 d hd))))
    · have hread := strtodExponent_digits hc hsign hds (u := u)
        (fun d hd => (stopByte_spec (hu d hd)).1)
      simpa using hread

/-! ## Numbers without a sign -/

/-- A byte a number can begin with, after its sign. -/
def digitOrPoint (c : UInt8) : Bool := isDigit c || c == 0x2e

theorem digitOrPoint_iff {c : UInt8} :
    digitOrPoint c = true ↔ (0x30 ≤ c.toNat ∧ c.toNat ≤ 0x39) ∨ c.toNat = 0x2e := by
  simp only [digitOrPoint, Bool.or_eq_true, beq_iff_eq, isDigit_iff, ← UInt8.toNat_inj,
    UInt8.reduceToNat]

/-- The text does not go on with an `x`. -/
def NoHexMark (p : Bytes) : Prop := ∀ d, p.head? = some d → d ≠ 0x78 ∧ d ≠ 0x58

theorem digitOrPoint_no_mark {c : UInt8} (h : digitOrPoint c = true) : c ≠ 0x78 ∧ c ≠ 0x58 := by
  rw [digitOrPoint_iff] at h
  simp only [ne_eq, ← UInt8.toNat_inj, UInt8.reduceToNat]
  omega

theorem tolower_toNat (c : UInt8) :
    (tolower c).toNat = if 0x41 ≤ c.toNat ∧ c.toNat ≤ 0x5a then c.toNat + 0x20 else c.toNat := by
  simp only [tolower, UInt8.le_iff_toNat_le, UInt8.reduceToNat]
  split
  next h =>
    simp only [UInt8.toNat_add, UInt8.reduceToNat]
    omega
  next => rfl

theorem startsWithNoCase_iff {p lit : Bytes} :
    startsWithNoCase p lit = true ↔ ∃ a q, p = a ++ q ∧ a.map tolower = lit := by
  rw [startsWithNoCase, startsWith_iff]
  constructor
  · rintro ⟨r, hr⟩
    obtain ⟨a, q, rfl, ha, -⟩ := List.map_eq_append_iff.mp hr
    exact ⟨a, q, rfl, ha⟩
  · rintro ⟨a, q, rfl, rfl⟩
    exact ⟨q.map tolower, by rw [List.map_append]⟩

/-- Where a text begins with another first letter. -/
theorem startsWithNoCase_head {p lit rest : Bytes} {l : UInt8} (hlit : lit = l :: rest)
    (hp : ∀ c, p.head? = some c → tolower c ≠ l) : startsWithNoCase p lit = false := by
  by_contra hbad
  rw [Bool.not_eq_false, startsWithNoCase_iff] at hbad
  obtain ⟨a, q, rfl, ha⟩ := hbad
  rw [hlit] at ha
  obtain ⟨c, a, rfl, hc, -⟩ := List.map_eq_cons_iff.mp ha
  exact hp c rfl hc

/-- A digit or a point begins neither an infinity nor a NaN. -/
theorem startsWithNoCase_digit {c : UInt8} (h : digitOrPoint c = true) (p : Bytes) :
    startsWithNoCase (c :: p) (bytes "infinity") = false ∧
      startsWithNoCase (c :: p) (bytes "inf") = false ∧
        startsWithNoCase (c :: p) (bytes "nan") = false := by
  rw [digitOrPoint_iff] at h
  have hother : ∀ l : UInt8, 0x40 ≤ l.toNat → ∀ d, (c :: p).head? = some d → tolower d ≠ l := by
    rintro l hl d hd rfl
    cases hd
    rw [tolower_toNat] at hl
    split at hl <;> omega
  exact ⟨startsWithNoCase_head (show bytes "infinity" = 0x69 :: bytes "nfinity" by decide)
      (hother 0x69 (by decide)),
    startsWithNoCase_head (show bytes "inf" = 0x69 :: bytes "nf" by decide)
      (hother 0x69 (by decide)),
    startsWithNoCase_head (show bytes "nan" = 0x6e :: bytes "an" by decide)
      (hother 0x6e (by decide))⟩

/-- The mark of a hexadecimal number. -/
theorem startsWithNoCase_hex (p : Bytes) :
    startsWithNoCase p (bytes "0x") = true ↔
      ∃ d t, p = 0x30 :: d :: t ∧ (d = 0x78 ∨ d = 0x58) := by
  have hall : ∀ c : UInt8, (tolower c = 0x30 ↔ c = 0x30) ∧
      (tolower c = 0x78 ↔ c = 0x78 ∨ c = 0x58) := by
    intro c
    simp only [← UInt8.toNat_inj, tolower_toNat, UInt8.reduceToNat]
    split <;> omega
  rw [startsWithNoCase_iff, show bytes "0x" = [0x30, 0x78] by decide]
  constructor
  · rintro ⟨a, q, rfl, ha⟩
    obtain ⟨c, a, rfl, hc, ha⟩ := List.map_eq_cons_iff.mp ha
    obtain ⟨d, a, rfl, hd, ha⟩ := List.map_eq_cons_iff.mp ha
    obtain rfl := List.map_eq_nil_iff.mp ha
    obtain rfl := (hall c).1.mp hc
    exact ⟨d, q, rfl, (hall d).2.mp hd⟩
  · rintro ⟨d, t, rfl, hd⟩
    exact ⟨[0x30, d], t, rfl, by simp [(hall d).2.mpr hd, (hall 0x30).1.mpr rfl]⟩

/-- A decimal number. -/
theorem strtodUnsigned_decimal {c : UInt8} {p q : Bytes}
    (hc : digitOrPoint c = true) (hx : NoHexMark p)
    (hdigits : strtodDigits isDigit (c :: p) = some q) :
    strtodUnsigned (c :: p) = some (strtodExponent 0x65 q) := by
  obtain ⟨hinfinity, hinf, hnan⟩ := startsWithNoCase_digit hc p
  have hhex : startsWithNoCase (c :: p) (bytes "0x") = false := by
    by_contra hbad
    rw [Bool.not_eq_false, startsWithNoCase_hex] at hbad
    obtain ⟨d, t, heq, hd⟩ := hbad
    cases heq
    exact hd.elim (hx d rfl).1 (hx d rfl).2
  simp [strtodUnsigned, hinfinity, hinf, hnan, hhex, hdigits]

/-- A hexadecimal number. -/
theorem strtodUnsigned_hex {d : UInt8} {p q : Bytes} (hd : d = 0x78 ∨ d = 0x58)
    (hdigits : strtodDigits isHexDigit p = some q) :
    strtodUnsigned (0x30 :: d :: p) = some (strtodExponent 0x70 q) := by
  obtain ⟨hinfinity, hinf, hnan⟩ := startsWithNoCase_digit (c := 0x30) (by decide) (d :: p)
  have hhex : startsWithNoCase (0x30 :: d :: p) (bytes "0x") = true :=
    (startsWithNoCase_hex _).mpr ⟨d, p, rfl, hd⟩
  simp [strtodUnsigned, hinfinity, hinf, hnan, hhex, hdigits]

/-! ## Infinities and NaNs -/

/-- A number in letters. -/
inductive NumberWord : Bytes → Prop where
  | infinity {a : Bytes} (h : a.map tolower = bytes "infinity") : NumberWord a
  | inf {a : Bytes} (h : a.map tolower = bytes "inf") : NumberWord a
  | nan {a : Bytes} (h : a.map tolower = bytes "nan") : NumberWord a
  | nanTag {a tag : Bytes} (h : a.map tolower = bytes "nan")
      (htag : ∀ c ∈ tag, nanTagByte c = true) : NumberWord (a ++ 0x28 :: (tag ++ [0x29]))

theorem length_of_lower {a lit : Bytes} (h : a.map tolower = lit) : a.length = lit.length := by
  rw [← h, List.length_map]

theorem startsWithNoCase_append {a lit : Bytes} (h : a.map tolower = lit) (u : Bytes) :
    startsWithNoCase (a ++ u) lit = true := startsWithNoCase_iff.mpr ⟨a, u, rfl, h⟩

/-- Letters do not begin like others with another first letter. -/
theorem startsWithNoCase_other {a lit rest : Bytes} {l l' : UInt8} (h : a.map tolower = l :: lit)
    (hl : l ≠ l') (u : Bytes) : startsWithNoCase (a ++ u) (l' :: rest) = false := by
  obtain ⟨c, a, rfl, rfl, -⟩ := List.map_eq_cons_iff.mp h
  refine startsWithNoCase_head rfl fun d hd => ?_
  cases hd
  exact hl

/-- Behind `inf` no number goes on in letters where a value can end. -/
theorem not_infinity {a u : Bytes} (h : a.map tolower = bytes "inf") (hu : Stops u) :
    startsWithNoCase (a ++ u) (bytes "infinity") = false := by
  by_contra hbad
  rw [Bool.not_eq_false, startsWithNoCase_iff] at hbad
  obtain ⟨b, q, heq, hb⟩ := hbad
  have hlen : a.length = 3 := length_of_lower h
  have hblen : b.length = 8 := length_of_lower hb
  have hfour : u.head? = b[3]? := by
    have := congrArg (fun l : Bytes => l[3]?) heq
    rw [List.getElem?_append_right (by omega), List.getElem?_append_left (by omega), hlen] at this
    rw [← this, List.head?_eq_getElem?]
  have hletter : (b.map tolower)[3]? = some 0x69 := by rw [hb]; decide
  rw [List.getElem?_map] at hletter
  obtain ⟨c, hc, hlower⟩ := Option.map_eq_some_iff.mp hletter
  have hstop := hu c (hfour.trans hc)
  rw [stopByte_iff] at hstop
  have hlower := congrArg UInt8.toNat hlower
  rw [tolower_toNat] at hlower
  simp only [UInt8.reduceToNat] at hlower
  split at hlower <;> omega

theorem not_bracket {u : Bytes} (hu : Stops u) : startsWith u (bytes "(") = false := by
  by_contra hbad
  rw [Bool.not_eq_false, startsWith_iff] at hbad
  obtain ⟨r, rfl⟩ := hbad
  exact absurd (hu 0x28 rfl) (by decide)

theorem strtodUnsigned_nan {a u : Bytes} (h : a.map tolower = bytes "nan") :
    strtodUnsigned (a ++ u) =
      let tag := (u.drop 1).takeWhile nanTagByte
      if startsWith u (bytes "(") ∧ startsWith (u.drop (1 + tag.length)) (bytes ")") then
        some (u.drop (2 + tag.length))
      else some u := by
  have hnan : bytes "nan" = 0x6e :: bytes "an" := by decide
  have hinfinity : startsWithNoCase (a ++ u) (bytes "infinity") = false :=
    startsWithNoCase_other (h.trans hnan) (by decide : (0x6e : UInt8) ≠ 0x69) u
  have hinf : startsWithNoCase (a ++ u) (bytes "inf") = false :=
    startsWithNoCase_other (h.trans hnan) (by decide : (0x6e : UInt8) ≠ 0x69) u
  have hdrop : (a ++ u).drop 3 = u := by
    rw [show 3 = a.length from (length_of_lower h).symm, List.drop_left]
  rw [strtodUnsigned, hinfinity, hinf, if_neg Bool.false_ne_true, if_neg Bool.false_ne_true,
    if_pos (startsWithNoCase_append h u), hdrop]

/-- A number in letters is taken before everything a value can be followed by. -/
theorem NumberWord.read {n : Bytes} (h : NumberWord n) {u : Bytes} (hu : Stops u) :
    strtodUnsigned (n ++ u) = some u := by
  have hdrop : ∀ {a lit : Bytes}, a.map tolower = lit → ∀ v, (a ++ v).drop lit.length = v :=
    fun h v => by rw [← length_of_lower h, List.drop_left]
  cases h with
  | infinity h =>
    rw [strtodUnsigned, if_pos (startsWithNoCase_append h u)]
    exact congrArg some (hdrop h u)
  | inf h =>
    rw [strtodUnsigned, not_infinity h hu, if_neg Bool.false_ne_true,
      if_pos (startsWithNoCase_append h u)]
    exact congrArg some (hdrop h u)
  | nan h =>
    rw [strtodUnsigned_nan h]
    simp only [not_bracket hu, Bool.false_eq_true, false_and, if_false]
  | @nanTag a tag h htag =>
    rw [List.append_assoc, strtodUnsigned_nan h]
    have htake : ((tag ++ [0x29]) ++ u).takeWhile nanTagByte = tag := by
      rw [List.append_assoc]
      refine (takeWhile_append_end htag fun c hc => ?_).1
      cases hc
      decide
    have hopen : startsWith (0x28 :: ((tag ++ [0x29]) ++ u)) (bytes "(") = true :=
      startsWith_iff.mpr ⟨_, rfl⟩
    have hclose : startsWith ((0x28 :: ((tag ++ [0x29]) ++ u)).drop (1 + tag.length))
        (bytes ")") = true := by
      refine startsWith_iff.mpr ⟨u, ?_⟩
      rw [Nat.add_comm, List.drop_succ_cons, List.append_assoc, List.drop_left]
      rfl
    have hrest : (0x28 :: ((tag ++ [0x29]) ++ u)).drop (2 + tag.length) = u := by
      rw [show 2 + tag.length = (tag ++ [0x29]).length + 1 by simp; omega, List.drop_succ_cons,
        List.drop_left]
    simp only [List.cons_append, List.drop_succ_cons, List.drop_zero, htake, hopen, hclose, hrest,
      and_self, if_true]

/-- What `strtod` takes without a sign: letters, or a decimal or a hexadecimal number. -/
theorem strtodUnsigned_cases {p q : Bytes} (h : strtodUnsigned p = some q) :
    (∃ n, NumberWord n ∧ p = n ++ q) ∨
      (∃ q₁, strtodDigits isDigit p = some q₁ ∧ strtodExponent 0x65 q₁ = q) ∨
      ∃ d t q₁, p = 0x30 :: d :: t ∧ (d = 0x78 ∨ d = 0x58) ∧
        strtodDigits isHexDigit t = some q₁ ∧ strtodExponent 0x70 q₁ = q := by
  rw [strtodUnsigned] at h
  split at h
  next hinfinity =>
    obtain ⟨a, v, rfl, ha⟩ := startsWithNoCase_iff.mp hinfinity
    rw [show 8 = a.length from (length_of_lower ha).symm, List.drop_left] at h
    cases h
    exact .inl ⟨a, .infinity ha, rfl⟩
  next =>
  split at h
  next hinf =>
    obtain ⟨a, v, rfl, ha⟩ := startsWithNoCase_iff.mp hinf
    rw [show 3 = a.length from (length_of_lower ha).symm, List.drop_left] at h
    cases h
    exact .inl ⟨a, .inf ha, rfl⟩
  next =>
  split at h
  next hnan =>
    obtain ⟨a, v, rfl, ha⟩ := startsWithNoCase_iff.mp hnan
    rw [show 3 = a.length from (length_of_lower ha).symm, List.drop_left] at h
    dsimp only at h
    split at h
    next htag =>
      cases h
      obtain ⟨hopen, hclose⟩ := htag
      obtain ⟨v, rfl⟩ := startsWith_iff.mp hopen
      have hdrop : (bytes "(" ++ v).drop 1 = v := rfl
      have hsplit := List.takeWhile_append_dropWhile (p := nanTagByte) (l := v)
      have hbytes : ∀ c ∈ v.takeWhile nanTagByte, nanTagByte c = true :=
        fun c hc => List.mem_takeWhile_imp hc
      rw [hdrop] at hclose ⊢
      generalize v.takeWhile nanTagByte = tag at hsplit hbytes hclose ⊢
      generalize v.dropWhile nanTagByte = rest at hsplit
      subst hsplit
      rw [← List.drop_drop, hdrop, List.drop_left] at hclose
      obtain ⟨r, rfl⟩ := startsWith_iff.mp hclose
      refine .inl ⟨_, .nanTag ha hbytes, ?_⟩
      have hrest : (bytes "(" ++ (tag ++ (bytes ")" ++ r))).drop (2 + tag.length) = r := by
        have hlen : 2 + tag.length = (bytes "(" ++ tag ++ bytes ")").length := by
          simp [show (bytes "(").length = 1 from rfl, show (bytes ")").length = 1 from rfl]
          omega
        rw [hlen, ← List.append_assoc, ← List.append_assoc, List.drop_left]
      rw [hrest, List.append_assoc]
      simp [show bytes "(" = [0x28] by decide, show bytes ")" = [0x29] by decide]
    next =>
      cases h
      exact .inl ⟨a, .nan ha, rfl⟩
  next =>
    split at h
    next q₁ hhex =>
      split at hhex
      next hmark =>
        obtain ⟨d, t, rfl, hd⟩ := (startsWithNoCase_hex p).mp hmark
        exact .inr (.inr ⟨d, t, q₁, rfl, hd, hhex, Option.some.inj h⟩)
      next => cases hhex
    next =>
      obtain ⟨q₁, hq₁, hexp⟩ := Option.map_eq_some_iff.mp h
      exact .inr (.inl ⟨q₁, hq₁, hexp⟩)

/-! ## Numbers -/

/-- A byte of a number. -/
def numberByte (c : UInt8) : Bool :=
  nanTagByte c || c == 0x2e || c == 0x2b || c == 0x2d || c == 0x28 || c == 0x29

theorem nanTagByte_iff {c : UInt8} :
    nanTagByte c = true ↔ (0x30 ≤ c.toNat ∧ c.toNat ≤ 0x39) ∨ (0x61 ≤ c.toNat ∧ c.toNat ≤ 0x7a) ∨
      (0x41 ≤ c.toNat ∧ c.toNat ≤ 0x5a) ∨ c.toNat = 0x5f := by
  simp only [nanTagByte, Bool.or_eq_true, Bool.and_eq_true, decide_eq_true_eq, beq_iff_eq,
    isDigit_iff, UInt8.le_iff_toNat_le, ← UInt8.toNat_inj, UInt8.reduceToNat, or_assoc]

theorem numberByte_iff {c : UInt8} :
    numberByte c = true ↔ ((0x30 ≤ c.toNat ∧ c.toNat ≤ 0x39) ∨
      (0x61 ≤ c.toNat ∧ c.toNat ≤ 0x7a) ∨ (0x41 ≤ c.toNat ∧ c.toNat ≤ 0x5a) ∨ c.toNat = 0x5f) ∨
      c.toNat = 0x2e ∨ c.toNat = 0x2b ∨ c.toNat = 0x2d ∨ c.toNat = 0x28 ∨ c.toNat = 0x29 := by
  simp only [numberByte, Bool.or_eq_true, nanTagByte_iff, beq_iff_eq, ← UInt8.toNat_inj,
    UInt8.reduceToNat, or_assoc]

/-- A byte a number can begin with. -/
def numberFirst (c : UInt8) : Bool :=
  digitOrPoint c || c == 0x2d || c == 0x2b || tolower c == 0x69 || tolower c == 0x6e

theorem numberFirst_iff {c : UInt8} :
    numberFirst c = true ↔ (0x30 ≤ c.toNat ∧ c.toNat ≤ 0x39) ∨ c.toNat = 0x2e ∨ c.toNat = 0x2d ∨
      c.toNat = 0x2b ∨ c.toNat = 0x69 ∨ c.toNat = 0x49 ∨ c.toNat = 0x6e ∨ c.toNat = 0x4e := by
  simp only [numberFirst, Bool.or_eq_true, digitOrPoint_iff, beq_iff_eq, ← UInt8.toNat_inj,
    tolower_toNat, UInt8.reduceToNat]
  split <;> omega

/-- A text of number bytes that begins like a number, and not like one of the three words. -/
structure NumberText (n : Bytes) : Prop where
  head : ∃ c t, n = c :: t ∧ numberFirst c = true
  noWord : ∀ t j u, (t, j) ∈ jsonWords → startsWith (n ++ u) t = false
  bytes : ∀ c ∈ n, numberByte c = true

/-- A number `strtod` takes wherever it stands in a JSON text. -/
structure AcceptedNumber (n : Bytes) : Prop extends NumberText n where
  read : ∀ u, Stops u → strtod (n ++ u) = some u

theorem numberByte_digit {c : UInt8} (h : isDigit c = true ∨ c = 0x2e) :
    numberByte c = true ∧ digitOrPoint c = true := by
  simp only [isDigit_iff, ← UInt8.toNat_inj, UInt8.reduceToNat] at h
  rw [numberByte_iff, digitOrPoint_iff]
  omega

theorem numberByte_hex {c : UInt8} (h : isHexDigit c = true ∨ c = 0x2e) : numberByte c = true := by
  simp only [isHexDigit_iff, ← UInt8.toNat_inj, UInt8.reduceToNat] at h
  rw [numberByte_iff]
  omega

theorem numberByte_exp {letter c : UInt8} (hletter : letter = 0x65 ∨ letter = 0x70)
    (h : ExpByte letter c) : numberByte c = true := by
  rcases h with rfl | rfl | rfl | rfl | h
  · rcases hletter with rfl | rfl <;> decide
  · rcases hletter with rfl | rfl <;> decide
  · decide
  · decide
  · exact (numberByte_digit (.inl h)).1

/-- No number has a byte that means something else to the reader. -/
theorem numberByte_visible {c : UInt8} (h : numberByte c = true) :
    isspace c = false ∧ c ≠ 0x22 := by
  rw [numberByte_iff] at h
  simp only [Bool.eq_false_iff, ne_eq, isspace_iff, ← UInt8.toNat_inj, UInt8.reduceToNat]
  omega

/-- A text with another first byte does not begin like a word. -/
theorem noWord_of_head {c : UInt8} (hc : c ≠ 0x74 ∧ c ≠ 0x66 ∧ c ≠ 0x6e) (r t : Bytes) {j : Json}
    (h : (t, j) ∈ jsonWords) : startsWith (c :: r) t = false := by
  by_contra hbad
  rw [Bool.not_eq_false, startsWith_iff] at hbad
  obtain ⟨v, hv⟩ := hbad
  simp only [jsonWords, List.mem_cons, List.not_mem_nil, or_false, Prod.mk.injEq] at h
  rcases h with ⟨rfl, -⟩ | ⟨rfl, -⟩ | ⟨rfl, -⟩
  · exact hc.1 (List.cons.inj hv).1
  · exact hc.2.1 (List.cons.inj hv).1
  · exact hc.2.2 (List.cons.inj hv).1

theorem digitOrPoint_noWord {c : UInt8} (h : digitOrPoint c = true) :
    c ≠ 0x74 ∧ c ≠ 0x66 ∧ c ≠ 0x6e := by
  rw [digitOrPoint_iff] at h
  simp only [ne_eq, ← UInt8.toNat_inj, UInt8.reduceToNat]
  omega

/-- A text behind a sign or with a digit or a point in front. -/
theorem numberText_cons {c : UInt8} {t : Bytes}
    (hc : digitOrPoint c = true ∨ c = 0x2d ∨ c = 0x2b)
    (hbytes : ∀ d ∈ c :: t, numberByte d = true) : NumberText (c :: t) where
  head := by
    refine ⟨c, t, rfl, ?_⟩
    rw [numberFirst_iff]
    simp only [digitOrPoint_iff, ← UInt8.toNat_inj, UInt8.reduceToNat] at hc
    omega
  noWord := by
    intro w j u hw
    refine noWord_of_head ?_ (t ++ u) w hw
    rcases hc with hc | rfl | rfl
    · exact digitOrPoint_noWord hc
    · decide
    · decide
  bytes := hbytes

/-- The letters of a number. -/
theorem lower_numberByte {a lit : Bytes} (h : a.map tolower = lit)
    (hlit : ∀ c ∈ lit, nanTagByte c = true) : ∀ c ∈ a, numberByte c = true := by
  intro c hc
  have hlower := hlit (tolower c) (h ▸ List.mem_map_of_mem hc)
  rw [nanTagByte_iff, tolower_toNat] at hlower
  rw [numberByte_iff]
  split at hlower <;> omega

/-- A number in letters begins with those of `inf` or of `nan`. -/
theorem NumberWord.letters {n : Bytes} (h : NumberWord n) :
    ∃ a v, n = a ++ v ∧ (a.map tolower = bytes "inf" ∨ a.map tolower = bytes "nan") := by
  cases h with
  | infinity h =>
    refine ⟨n.take 3, n.drop 3, (List.take_append_drop 3 n).symm, .inl ?_⟩
    rw [List.map_take, h]
    decide
  | inf h => exact ⟨n, [], (List.append_nil n).symm, .inl h⟩
  | nan h => exact ⟨n, [], (List.append_nil n).symm, .inr h⟩
  | nanTag h _ => exact ⟨_, _, rfl, .inr h⟩

theorem NumberWord.head {n : Bytes} (h : NumberWord n) :
    ∃ c t, n = c :: t ∧ (tolower c = 0x69 ∨ tolower c = 0x6e) := by
  obtain ⟨a, v, rfl, ha | ha⟩ := h.letters
  · obtain ⟨c, r, rfl, hc, -⟩ := List.map_eq_cons_iff.mp
      (ha.trans (show bytes "inf" = 0x69 :: bytes "nf" by decide))
    exact ⟨c, r ++ v, rfl, .inl hc⟩
  · obtain ⟨c, r, rfl, hc, -⟩ := List.map_eq_cons_iff.mp
      (ha.trans (show bytes "nan" = 0x6e :: bytes "an" by decide))
    exact ⟨c, r ++ v, rfl, .inr hc⟩

theorem NumberWord.text {n : Bytes} (h : NumberWord n) : NumberText n where
  head := by
    obtain ⟨c, t, rfl, hc⟩ := h.head
    refine ⟨c, t, rfl, ?_⟩
    simp only [numberFirst, Bool.or_eq_true, beq_iff_eq]
    exact hc.imp (.inr) id
  noWord := by
    intro t j u ht
    obtain ⟨a, v, rfl, ha⟩ := h.letters
    by_contra hbad
    rw [Bool.not_eq_false, startsWith_iff] at hbad
    obtain ⟨r, hr⟩ := hbad
    have hlen : a.length = 3 := by rcases ha with ha | ha <;> exact length_of_lower ha
    have hword : 3 ≤ t.length ∧ (t.take 3).map tolower ≠ bytes "inf" ∧
        (t.take 3).map tolower ≠ bytes "nan" := by
      simp only [jsonWords, List.mem_cons, List.not_mem_nil, or_false, Prod.mk.injEq] at ht
      rcases ht with ⟨rfl, -⟩ | ⟨rfl, -⟩ | ⟨rfl, -⟩ <;> decide
    have htake : a = t.take 3 := by
      have := congrArg (List.take 3) hr
      rwa [List.append_assoc, ← hlen, List.take_left, hlen,
        List.take_append_of_le_length hword.1] at this
    rw [htake] at ha
    exact ha.elim hword.2.1 hword.2.2
  bytes := by
    cases h with
    | infinity h => exact lower_numberByte h (List.all_eq_true.mp (by decide))
    | inf h => exact lower_numberByte h (List.all_eq_true.mp (by decide))
    | nan h => exact lower_numberByte h (List.all_eq_true.mp (by decide))
    | nanTag h htag =>
      intro c hc
      simp only [List.mem_append, List.mem_cons, List.not_mem_nil, or_false] at hc
      rcases hc with hc | rfl | hc | rfl
      · exact lower_numberByte h (List.all_eq_true.mp (by decide)) c hc
      · decide
      · rw [numberByte_iff, ← nanTagByte_iff]
        exact .inl (htag c hc)
      · decide

/-- The first byte of a number is no sign and no white space where there is no sign. -/
theorem strtod_unsigned {c : UInt8} (h : isspace c = false) (hsign : ¬ (c = 0x2d ∨ c = 0x2b))
    (p : Bytes) : strtod (c :: p) = strtodUnsigned (c :: p) := by
  have hws : skipAsciiWs (c :: p) = c :: p := by
    simp [skipAsciiWs, h]
  rw [strtod, hws]
  simp only [if_neg hsign]

theorem digitOrPoint_plain {c : UInt8} (h : digitOrPoint c = true) :
    isspace c = false ∧ ¬ (c = 0x2d ∨ c = 0x2b) := by
  rw [digitOrPoint_iff] at h
  simp only [Bool.eq_false_iff, ne_eq, isspace_iff, ← UInt8.toNat_inj, UInt8.reduceToNat]
  omega

theorem lower_plain {c : UInt8} (h : tolower c = 0x69 ∨ tolower c = 0x6e) :
    isspace c = false ∧ ¬ (c = 0x2d ∨ c = 0x2b) := by
  simp only [← UInt8.toNat_inj, tolower_toNat, UInt8.reduceToNat] at h
  simp only [Bool.eq_false_iff, ne_eq, isspace_iff, ← UInt8.toNat_inj, UInt8.reduceToNat]
  split at h <;> omega

theorem strtod_signed {c : UInt8} (h : c = 0x2d ∨ c = 0x2b) (p : Bytes) :
    strtod (c :: p) = strtodUnsigned p := by
  have hws : skipAsciiWs (c :: p) = c :: p := by
    rcases h with rfl | rfl <;> simp [skipAsciiWs, isspace]
  rw [strtod, hws]
  simp only [if_pos h]

/-- A decimal number is taken before everything a value can be followed by. -/
theorem strtodDigits_decimal {p q₁ : Bytes} (hdigits : strtodDigits isDigit p = some q₁) :
    ∃ n, p = n ++ strtodExponent 0x65 q₁ ∧ (∃ c t, n = c :: t ∧ digitOrPoint c = true) ∧
      (∀ c ∈ n, numberByte c = true) ∧ ∀ u, Stops u → strtodUnsigned (n ++ u) = some u := by
  obtain ⟨n₁, rfl, hne, hbytes, hread⟩ := strtodDigits_spec (by decide) hdigits
  obtain ⟨n₂, hq₁, hbytes', hhead, hread'⟩ := strtodExponent_spec (.inl rfl) q₁
  match n₁, hne with
  | c :: n₁, _ =>
    have hc := numberByte_digit (hbytes c List.mem_cons_self)
    refine ⟨c :: (n₁ ++ n₂), ?_, ⟨_, _, rfl, hc.2⟩, ?_, fun u hu => ?_⟩
    · rw [List.cons_append, List.cons_append, List.append_assoc, ← hq₁]
    · intro d hd
      rcases List.mem_append.mp (List.cons_append ▸ hd) with hd | hd
      · exact (numberByte_digit (hbytes d hd)).1
      · exact numberByte_exp (.inl rfl) (hbytes' d hd)
    · have hend : DigitsEnd isDigit (n₂ ++ u) := by
        refine head_append (fun d hd => ?_) hu.digitsEnd.1
        rcases hhead d hd with rfl | rfl <;> decide
      have hmark : NoHexMark (n₁ ++ (n₂ ++ u)) := by
        refine head_append (fun d hd => ?_) (head_append (fun d hd => ?_) fun d hd => ?_)
        · have hmem : d ∈ c :: n₁ := List.mem_cons_of_mem c (List.mem_of_mem_head? hd)
          exact digitOrPoint_no_mark (numberByte_digit (hbytes d hmem)).2
        · rcases hhead d hd with rfl | rfl <;> decide
        · exact (stopByte_spec (hu d hd)).2.2.2.2.2.2.2
      rw [List.cons_append, List.append_assoc,
        strtodUnsigned_decimal hc.2 hmark (hread _ hend), hread' u hu]

/-- A hexadecimal number is taken before everything a value can be followed by. -/
theorem strtodDigits_hex {d : UInt8} {t q₁ : Bytes} (hd : d = 0x78 ∨ d = 0x58)
    (hdigits : strtodDigits isHexDigit t = some q₁) :
    ∃ n, 0x30 :: d :: t = n ++ strtodExponent 0x70 q₁ ∧
      (∃ c t, n = c :: t ∧ digitOrPoint c = true) ∧
      (∀ c ∈ n, numberByte c = true) ∧ ∀ u, Stops u → strtodUnsigned (n ++ u) = some u := by
  obtain ⟨n₁, rfl, hne, hbytes, hread⟩ := strtodDigits_spec (by decide) hdigits
  obtain ⟨n₂, hq₁, hbytes', hhead, hread'⟩ := strtodExponent_spec (.inr rfl) q₁
  refine ⟨0x30 :: d :: (n₁ ++ n₂), ?_, ⟨_, _, rfl, by decide⟩, ?_, fun u hu => ?_⟩
  · rw [List.cons_append, List.cons_append, List.append_assoc, ← hq₁]
  · intro c hc
    rcases List.mem_cons.mp hc with rfl | hc
    · decide
    · rcases List.mem_cons.mp hc with rfl | hc
      · rcases hd with rfl | rfl <;> decide
      · rcases List.mem_append.mp hc with hc | hc
        · exact numberByte_hex (hbytes c hc)
        · exact numberByte_exp (.inr rfl) (hbytes' c hc)
  · have hend : DigitsEnd isHexDigit (n₂ ++ u) := by
      refine head_append (fun d hd => ?_) hu.digitsEnd.2
      rcases hhead d hd with rfl | rfl <;> decide
    rw [List.cons_append, List.cons_append, List.append_assoc,
      strtodUnsigned_hex hd (hread _ hend), hread' u hu]

/-- What `strtod` takes without a sign is taken before everything a value can be followed by. -/
theorem strtodUnsigned_accepts {p q : Bytes} (h : strtodUnsigned p = some q) :
    ∃ n, p = n ++ q ∧ NumberText n ∧ (∀ c, n.head? = some c → isspace c = false ∧
      ¬ (c = 0x2d ∨ c = 0x2b)) ∧ ∀ u, Stops u → strtodUnsigned (n ++ u) = some u := by
  rcases strtodUnsigned_cases h with ⟨n, hn, rfl⟩ | ⟨q₁, hdigits, rfl⟩ |
    ⟨d, t, q₁, rfl, hd, hdigits, rfl⟩
  · refine ⟨n, rfl, hn.text, fun d hd => ?_, fun u hu => hn.read hu⟩
    obtain ⟨c, t, rfl, hc⟩ := hn.head
    cases hd
    exact lower_plain hc
  · obtain ⟨n, hp, ⟨c, t, rfl, hc⟩, hbytes, hread⟩ := strtodDigits_decimal hdigits
    exact ⟨c :: t, hp, numberText_cons (.inl hc) hbytes,
      fun d hd => Option.some.inj hd ▸ digitOrPoint_plain hc, hread⟩
  · obtain ⟨n, hp, ⟨c, t, rfl, hc⟩, hbytes, hread⟩ := strtodDigits_hex hd hdigits
    exact ⟨c :: t, hp, numberText_cons (.inl hc) hbytes,
      fun d hd => Option.some.inj hd ▸ digitOrPoint_plain hc, hread⟩

/-- What `strtod` takes somewhere, it takes before everything a value can be followed by. -/
theorem strtod_accepts {p q : Bytes} (hp : NoSpace p) (h : strtod p = some q) :
    ∃ n, p = n ++ q ∧ AcceptedNumber n := by
  match p, hp, h with
  | [], _, h => cases h
  | c :: p, hp, h =>
    by_cases hsign : c = 0x2d ∨ c = 0x2b
    · rw [strtod_signed hsign] at h
      obtain ⟨n, rfl, htext, -, hread⟩ := strtodUnsigned_accepts h
      refine ⟨c :: n, rfl, numberText_cons (.inr hsign) ?_, fun u hu => ?_⟩
      · intro d hd
        rcases List.mem_cons.mp hd with rfl | hd
        · rcases hsign with rfl | rfl <;> decide
        · exact htext.bytes d hd
      · rw [List.cons_append, strtod_signed hsign, hread u hu]
    · rw [strtod_unsigned (hp c rfl) hsign] at h
      obtain ⟨n, hn, htext, hplain, hread⟩ := strtodUnsigned_accepts h
      refine ⟨n, hn, htext, fun u hu => ?_⟩
      obtain ⟨d, t, rfl, -⟩ := htext.head
      obtain ⟨hspace, hnosign⟩ := hplain d rfl
      rw [List.cons_append, strtod_unsigned hspace hnosign, ← List.cons_append, hread u hu]

/-! ## Numbers of the RFC -/

theorem RfcInt.digits {t : Bytes} (h : RfcInt t) : Digits t := by
  rcases h with rfl | ⟨h, -⟩
  · exact ⟨by decide, List.forall_mem_singleton.mpr (by decide)⟩
  · exact h

/-- An exponent of the RFC is taken as a whole. -/
theorem strtodExponent_rfc {exp u : Bytes} (hexp : RfcExp exp) (hu : Stops u) :
    strtodExponent 0x65 (exp ++ u) = u ∧ DigitsEnd isDigit (exp ++ u) ∧
      NoHexMark (exp ++ u) := by
  have hstop : NoHexMark u := fun d hd => (stopByte_spec (hu d hd)).2.2.2.2.2.2.2
  rcases hexp with rfl | ⟨c, sign, ds, rfl, hc, hsign, hds⟩
  · refine ⟨strtodExponent_none fun d hd => ?_, hu.digitsEnd.1, hstop⟩
    obtain ⟨-, -, -, he, hE, -⟩ := stopByte_spec (hu d hd)
    exact ⟨he, hE⟩
  · have hc' : c = 0x65 ∨ c = 0x65 - 0x20 := hc
    have hread := strtodExponent_digits hc' hsign hds (fun d hd => (hu.digitsEnd.1 d hd).1)
    refine ⟨by simpa using hread, fun d hd => ?_, fun d hd => ?_⟩
    · cases hd
      rcases hc with rfl | rfl <;> decide
    · cases hd
      rcases hc with rfl | rfl <;> decide

/-- A number of the RFC without its sign is taken as a whole. -/
theorem strtodUnsigned_rfc {c : UInt8} {int frac exp u : Bytes} (hint : RfcInt (c :: int))
    (hfrac : RfcFrac frac) (hexp : RfcExp exp) (hu : Stops u) :
    strtodUnsigned (c :: (int ++ (frac ++ (exp ++ u)))) = some u := by
  obtain ⟨hread, hend, hmark⟩ := strtodExponent_rfc hexp hu
  have hdigits := hint.digits
  have hhead : digitOrPoint c = true :=
    (numberByte_digit (.inl (hdigits.2 c List.mem_cons_self))).2
  have hfracMark : NoHexMark (frac ++ (exp ++ u)) := by
    refine head_append (fun d hd => ?_) hmark
    rcases hfrac with rfl | ⟨fs, rfl, -⟩
    · cases hd
    · cases hd
      decide
  have hallMark : NoHexMark (int ++ (frac ++ (exp ++ u))) := by
    refine head_append (fun d hd => ?_) hfracMark
    have hdigit := hdigits.2 d (List.mem_cons_of_mem c (List.mem_of_mem_head? hd))
    exact digitOrPoint_no_mark (numberByte_digit (.inl hdigit)).2
  rcases hfrac with rfl | ⟨fs, rfl, hfs⟩
  · have hwhole := strtodDigits_whole hdigits.1 hdigits.2 hend
    rw [List.nil_append] at hallMark ⊢
    rw [strtodUnsigned_decimal hhead hallMark hwhole, hread]
  · have hpoint := strtodDigits_point (.inl hdigits.1) (by decide) hdigits.2 hfs.2
      (fun d hd => (hend d hd).1)
    rw [List.cons_append] at hallMark ⊢
    rw [strtodUnsigned_decimal hhead hallMark hpoint, hread]

/-- A number of the RFC is taken as a whole. -/
theorem strtod_rfcNumber {n u : Bytes} (h : RfcNumber n) (hu : Stops u) :
    strtod (n ++ u) = some u := by
  obtain ⟨minus, int, frac, exp, rfl, hminus, hint, hfrac, hexp⟩ := h
  match int, hint with
  | [], hint => exact absurd rfl hint.digits.1
  | c :: int, hint =>
    have hread := strtodUnsigned_rfc hint hfrac hexp hu
    have hhead : digitOrPoint c = true :=
      (numberByte_digit (.inl (hint.digits.2 c List.mem_cons_self))).2
    obtain ⟨hspace, hsign⟩ := digitOrPoint_plain hhead
    rcases hminus with rfl | rfl
    · rw [← hread, ← strtod_unsigned hspace hsign]
      simp
    · rw [← hread, ← strtod_signed (c := 0x2d) (.inl rfl)]
      simp

/-- A number of the RFC begins with a digit or a minus sign. -/
theorem RfcNumber.head {n : Bytes} (h : RfcNumber n) :
    ∃ c t, n = c :: t ∧ (isDigit c = true ∨ c = 0x2d) := by
  obtain ⟨minus, int, frac, exp, rfl, hminus, hint, -, -⟩ := h
  match int, hint with
  | [], hint => exact absurd rfl hint.digits.1
  | d :: int, hint =>
    rcases hminus with rfl | rfl
    · exact ⟨_, _, rfl, .inl (hint.digits.2 d List.mem_cons_self)⟩
    · exact ⟨_, _, rfl, .inr rfl⟩

/-- A number of the RFC is a text of number bytes. -/
theorem RfcNumber.text {n : Bytes} (h : RfcNumber n) : NumberText n := by
  obtain ⟨minus, int, frac, exp, rfl, hminus, hint, hfrac, hexp⟩ := h
  have hdigit : ∀ {ds : Bytes}, Digits ds → ∀ c ∈ ds, numberByte c = true := fun hds c hc =>
    (numberByte_digit (.inl (hds.2 c hc))).1
  match int, hint with
  | [], hint => exact absurd rfl hint.digits.1
  | d :: int, hint =>
    obtain ⟨c, t, hcons, hc⟩ := RfcNumber.head
      ⟨minus, d :: int, frac, exp, rfl, hminus, hint, hfrac, hexp⟩
    rw [hcons]
    refine numberText_cons (hc.imp (fun hc => (numberByte_digit (.inl hc)).2) .inl) ?_
    rw [← hcons]
    intro c hc
    · rcases List.mem_append.mp hc with hc | hc
      · rcases hminus with rfl | rfl
        · cases hc
        · cases List.mem_singleton.mp hc
          decide
      · rcases List.mem_append.mp hc with hc | hc
        · exact hdigit hint.digits c hc
        · rcases List.mem_append.mp hc with hc | hc
          · rcases hfrac with rfl | ⟨fs, rfl, hfs⟩
            · cases hc
            · rcases List.mem_cons.mp hc with rfl | hc
              · decide
              · exact hdigit hfs c hc
          · rcases hexp with rfl | ⟨e, sign, ds, rfl, he, hsign, hds⟩
            · cases hc
            · rcases List.mem_cons.mp hc with rfl | hc
              · rcases he with rfl | rfl <;> decide
              · rcases List.mem_append.mp hc with hc | hc
                · rcases hsign with rfl | rfl | rfl
                  · cases hc
                  · cases List.mem_singleton.mp hc
                    decide
                  · cases List.mem_singleton.mp hc
                    decide
                · exact hdigit hds c hc

/-- A number of the RFC is accepted. -/
theorem RfcNumber.accepted {n : Bytes} (h : RfcNumber n) : AcceptedNumber n where
  toNumberText := h.text
  read := fun _ hu => strtod_rfcNumber h hu

end Sf37.Text

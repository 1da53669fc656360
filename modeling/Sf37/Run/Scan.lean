/-
Sf37.Run.Scan — a scan that takes hits out of a list and hands on what stands between them.

At each place the scan asks for a hit; it jumps over a hit, and over one element where
there is none. A hit may be longer than what is left: then the scan leaves the list.

* `scan_isSome_iff`: the scan stays in the list when no place it visits has such a hit.
* `scan_texts`: what is handed on stands for the whole list.
* `scan_append`, `scan_flatten`: where hits begin and none reaches over them, the scan of a
  list is the scans of its parts.
-/
import Mathlib.Data.List.Basic

namespace Sf37.Run

variable {σ τ ρ : Type}

/-- The scan. The first number counts the elements of a hit that are still ahead, the first
list is what stands since the last hit. -/
def scan (hitAt : List σ → Option (τ × Nat)) (span : List σ → List ρ) (hit : τ → List ρ) :
    Nat → List σ → List σ → Option (List ρ)
  | 0, held, [] => some (span held)
  | _ + 1, _, [] => none
  | k + 1, held, _ :: p => scan hitAt span hit k held p
  | 0, held, c :: p =>
    match hitAt (c :: p) with
    | some (t, n) =>
      (scan hitAt span hit (n - 1) [] p).map fun rest => span held ++ (hit t ++ rest)
    | none => scan hitAt span hit 0 (held ++ [c]) p

/-- The scan that starts at the first list comes to the second. -/
inductive Visits (hitAt : List σ → Option (τ × Nat)) : List σ → List σ → Prop where
  | here (p : List σ) : Visits hitAt p p
  | next {c : σ} {p r : List σ} (h : hitAt (c :: p) = none) (hr : Visits hitAt p r) :
      Visits hitAt (c :: p) r
  | jump {c : σ} {p r : List σ} {t : τ} {n : Nat} (h : hitAt (c :: p) = some (t, n))
      (hn : n ≤ (c :: p).length) (hr : Visits hitAt ((c :: p).drop n) r) :
      Visits hitAt (c :: p) r

theorem Visits.suffix {hitAt : List σ → Option (τ × Nat)} {p r : List σ} (h : Visits hitAt p r) :
    r <:+ p := by
  induction h with
  | here p => exact List.suffix_rfl
  | @next c p r _ _ ih => exact ih.trans (List.suffix_cons c p)
  | jump _ _ _ ih => exact ih.trans (List.drop_suffix _ _)

/-- A place with a hit that is longer than what is left. -/
def Overruns (hitAt : List σ → Option (τ × Nat)) (text : List σ) : Prop :=
  ∃ c p t n, Visits hitAt text (c :: p) ∧ hitAt (c :: p) = some (t, n) ∧ (c :: p).length < n

variable {hitAt : List σ → Option (τ × Nat)} {span : List σ → List ρ} {hit : τ → List ρ}

/-- Hits are not empty. -/
def Hits (hitAt : List σ → Option (τ × Nat)) : Prop :=
  ∀ p t n, hitAt p = some (t, n) → 0 < n

/-! ## One step of the scan -/

theorem scan_nil (held : List σ) : scan hitAt span hit 0 held [] = some (span held) := rfl

theorem scan_ahead_nil (k : Nat) (held : List σ) : scan hitAt span hit (k + 1) held [] = none :=
  rfl

theorem scan_ahead_cons (k : Nat) (held : List σ) (c : σ) (p : List σ) :
    scan hitAt span hit (k + 1) held (c :: p) = scan hitAt span hit k held p := rfl

theorem scan_cons (held : List σ) (c : σ) (p : List σ) :
    scan hitAt span hit 0 held (c :: p) =
      match hitAt (c :: p) with
      | some (t, n) =>
        (scan hitAt span hit (n - 1) [] p).map fun rest => span held ++ (hit t ++ rest)
      | none => scan hitAt span hit 0 (held ++ [c]) p := rfl

theorem scan_skip {k : Nat} {held p : List σ} (h : k ≤ p.length) :
    scan hitAt span hit k held p = scan hitAt span hit 0 held (p.drop k) := by
  induction k generalizing p with
  | zero => rfl
  | succ k ih =>
    match p, h with
    | c :: p, h =>
      rw [scan_ahead_cons, List.drop_succ_cons]
      exact ih (Nat.le_of_succ_le_succ h)

theorem scan_skip_none {k : Nat} {held p : List σ} (h : p.length < k) :
    scan hitAt span hit k held p = none := by
  induction p generalizing k with
  | nil =>
    match k, h with
    | k + 1, _ => exact scan_ahead_nil k held
  | cons c p ih =>
    match k, h with
    | k + 1, h =>
      rw [scan_ahead_cons]
      exact ih (Nat.lt_of_succ_lt_succ h)

theorem scan_none {c : σ} {p : List σ} (h : hitAt (c :: p) = none) (held : List σ) :
    scan hitAt span hit 0 held (c :: p) = scan hitAt span hit 0 (held ++ [c]) p := by
  rw [scan_cons, h]

theorem scan_hit (hpos : Hits hitAt) {c : σ} {p : List σ} {t : τ} {n : Nat}
    (h : hitAt (c :: p) = some (t, n)) (hn : n ≤ (c :: p).length) (held : List σ) :
    scan hitAt span hit 0 held (c :: p) =
      (scan hitAt span hit 0 [] ((c :: p).drop n)).map fun rest =>
        span held ++ (hit t ++ rest) := by
  have hn0 := hpos _ _ _ h
  obtain ⟨k, rfl⟩ := Nat.exists_eq_succ_of_ne_zero (Nat.ne_of_gt hn0)
  rw [scan_cons, h]
  simp only [Nat.succ_eq_add_one, Nat.add_sub_cancel, List.drop_succ_cons]
  rw [scan_skip (Nat.le_of_succ_le_succ hn)]

theorem scan_overrun {c : σ} {p : List σ} {t : τ} {n : Nat}
    (h : hitAt (c :: p) = some (t, n)) (hn : (c :: p).length < n) (held : List σ) :
    scan hitAt span hit 0 held (c :: p) = none := by
  rw [List.length_cons] at hn
  rw [scan_cons, h]
  simp only
  rw [scan_skip_none (by omega), Option.map_none]

/-- The induction over the places a scan visits. -/
theorem scan_induction (hpos : Hits hitAt) {P : List σ → Prop} (hnil : P [])
    (hnone : ∀ c p, hitAt (c :: p) = none → P p → P (c :: p))
    (hhit : ∀ c p t n, hitAt (c :: p) = some (t, n) → n ≤ (c :: p).length →
      P ((c :: p).drop n) → P (c :: p))
    (hover : ∀ c p t n, hitAt (c :: p) = some (t, n) → (c :: p).length < n → P (c :: p))
    (text : List σ) : P text := by
  induction hlen : text.length using Nat.strongRecOn generalizing text with
  | ind len ih =>
    match text with
    | [] => exact hnil
    | c :: p =>
      cases hc : hitAt (c :: p) with
      | none =>
        rw [List.length_cons] at hlen
        exact hnone c p hc (ih p.length (by omega) p rfl)
      | some out =>
        obtain ⟨t, n⟩ := out
        by_cases hn : n ≤ (c :: p).length
        · have hn0 := hpos _ _ _ hc
          refine hhit c p t n hc hn (ih _ ?_ _ rfl)
          rw [List.length_drop]
          omega
        · exact hover c p t n hc (Nat.not_le.mp hn)

/-! ## Staying in the list -/

theorem overruns_nil : ¬ Overruns hitAt [] := by
  rintro ⟨c, p, t, n, hvisits, -⟩
  cases hvisits

theorem overruns_next {c : σ} {p : List σ} (h : hitAt (c :: p) = none) :
    Overruns hitAt (c :: p) ↔ Overruns hitAt p := by
  constructor
  · rintro ⟨d, q, t, n, hvisits, hq, hn⟩
    cases hvisits with
    | here => rw [h] at hq; cases hq
    | next _ hr => exact ⟨d, q, t, n, hr, hq, hn⟩
    | jump h' => rw [h] at h'; cases h'
  · rintro ⟨d, q, t, n, hvisits, hq, hn⟩
    exact ⟨d, q, t, n, .next h hvisits, hq, hn⟩

theorem overruns_jump {c : σ} {p : List σ} {t : τ} {n : Nat} (h : hitAt (c :: p) = some (t, n))
    (hn : n ≤ (c :: p).length) :
    Overruns hitAt (c :: p) ↔ Overruns hitAt ((c :: p).drop n) := by
  constructor
  · rintro ⟨d, q, t', n', hvisits, hq, hn'⟩
    cases hvisits with
    | here =>
      rw [h] at hq
      cases hq
      exact absurd hn (Nat.not_le.mpr hn')
    | next h' => rw [h] at h'; cases h'
    | jump h' _ hr =>
      rw [h] at h'
      cases h'
      exact ⟨d, q, t', n', hr, hq, hn'⟩
  · rintro ⟨d, q, t', n', hvisits, hq, hn'⟩
    exact ⟨d, q, t', n', .jump h hn hvisits, hq, hn'⟩

/-- The scan stays in the list when no place it visits has a hit that is too long. -/
theorem scan_isSome_iff (hpos : Hits hitAt) (held text : List σ) :
    (∃ out, scan hitAt span hit 0 held text = some out) ↔ ¬ Overruns hitAt text := by
  induction text using scan_induction hpos generalizing held with
  | hnil => exact ⟨fun _ => overruns_nil, fun _ => ⟨_, rfl⟩⟩
  | hnone c p hc ih => rw [scan_none hc, overruns_next hc, ih]
  | hhit c p t n hc hn ih =>
    rw [scan_hit hpos hc hn, overruns_jump hc hn, ← ih []]
    simp only [Option.map_eq_some_iff]
    exact ⟨fun ⟨_, out, hout, _⟩ => ⟨out, hout⟩, fun ⟨out, hout⟩ => ⟨_, out, hout, rfl⟩⟩
  | hover c p t n hc hn =>
    rw [scan_overrun hc hn]
    refine ⟨nofun, fun h => absurd ⟨c, p, t, n, .here _, hc, hn⟩ h⟩

/-! ## What is handed on -/

/-- When spans and the hits met are handed on as what stands for them, all of it stands for
the list. -/
theorem scan_texts (hpos : Hits hitAt) {text : ρ → List σ}
    (hspan : ∀ p, (span p).flatMap text = p) (held p : List σ)
    (hhit : ∀ c q t n, Visits hitAt p (c :: q) → hitAt (c :: q) = some (t, n) →
      n ≤ (c :: q).length → (hit t).flatMap text = (c :: q).take n)
    {out : List ρ} (h : scan hitAt span hit 0 held p = some out) :
    out.flatMap text = held ++ p := by
  induction p using scan_induction hpos generalizing held out with
  | hnil =>
    cases h
    rw [hspan, List.append_nil]
  | hnone c p hc ih =>
    rw [scan_none hc] at h
    rw [ih _ (fun d q t n hvisits => hhit d q t n (.next hc hvisits)) h, List.append_assoc]
    rfl
  | hhit c p t n hc hn ih =>
    rw [scan_hit hpos hc hn] at h
    obtain ⟨rest, hrest, rfl⟩ := Option.map_eq_some_iff.mp h
    have htail := ih [] (fun d q t' n' hvisits => hhit d q t' n' (.jump hc hn hvisits)) hrest
    rw [List.flatMap_append, List.flatMap_append, hspan, hhit c p t n (.here _) hc hn, htail,
      List.nil_append, List.take_append_drop]
  | hover c p t n hc hn =>
    rw [scan_overrun hc hn] at h
    cases h

/-! ## Scanning in parts -/

/-- In the scan of two lists one after the other a hit begins in the first and ends in the
second. -/
def Crosses (hitAt : List σ → Option (τ × Nat)) (a b : List σ) : Prop :=
  ∃ c p t n, Visits hitAt (a ++ b) (c :: p) ∧ hitAt (c :: p) = some (t, n) ∧
    b.length < (c :: p).length ∧ (c :: p).length < n + b.length ∧ n ≤ (c :: p).length

/-- A hit that ends in a list does not depend on what follows the list, and neither does
that there is none. -/
def Local (hitAt : List σ → Option (τ × Nat)) : Prop :=
  ∀ p b, (∀ t n, hitAt (p ++ b) = some (t, n) → n ≤ p.length) →
    (∀ t n, hitAt p = some (t, n) → n ≤ p.length) → hitAt (p ++ b) = hitAt p

theorem Crosses.next {c : σ} {p b : List σ} (h : hitAt (c :: (p ++ b)) = none)
    (hcross : Crosses hitAt p b) : Crosses hitAt (c :: p) b := by
  obtain ⟨d, q, t, n, hvisits, hrest⟩ := hcross
  exact ⟨d, q, t, n, .next h hvisits, hrest⟩

theorem drop_cons_append {c : σ} {p b : List σ} {n : Nat} (hn : n ≤ (c :: p).length) :
    (c :: (p ++ b)).drop n = (c :: p).drop n ++ b := by
  rw [← List.cons_append, List.drop_append_of_le_length hn]

theorem le_length_cons_append {c : σ} {p b : List σ} {n : Nat} (hn : n ≤ (c :: p).length) :
    n ≤ (c :: (p ++ b)).length := by
  rw [← List.cons_append, List.length_append]
  exact Nat.le_trans hn (Nat.le_add_right _ _)

theorem Crosses.jump {c : σ} {p b : List σ} {t : τ} {n : Nat}
    (h : hitAt (c :: (p ++ b)) = some (t, n)) (hn : n ≤ (c :: p).length)
    (hcross : Crosses hitAt ((c :: p).drop n) b) : Crosses hitAt (c :: p) b := by
  obtain ⟨d, q, t', n', hvisits, hrest⟩ := hcross
  rw [← drop_cons_append hn] at hvisits
  exact ⟨d, q, t', n', .jump h (le_length_cons_append hn) hvisits, hrest⟩

/-- A place of the first list has the same hit with the second list behind it. -/
theorem hitAt_append (hlocal : Local hitAt) {c : σ} {p b : List σ}
    (hcross : ¬ Crosses hitAt (c :: p) b) (ha : ¬ Overruns hitAt (c :: p))
    (hab : ¬ Overruns hitAt (c :: (p ++ b))) : hitAt (c :: (p ++ b)) = hitAt (c :: p) := by
  have hlen : (c :: (p ++ b)).length = (c :: p).length + b.length := by
    rw [← List.cons_append, List.length_append]
  refine hlocal (c :: p) b (fun t n h => ?_) fun t n h => ?_
  · by_contra hn
    by_cases hall : n ≤ (c :: (p ++ b)).length
    · refine hcross ⟨c, p ++ b, t, n, .here _, h, ?_, ?_, hall⟩
      · rw [hlen, List.length_cons]
        omega
      · omega
    · exact hab ⟨c, p ++ b, t, n, .here _, h, Nat.not_le.mp hall⟩
  · by_contra hn
    exact ha ⟨c, p, t, n, .here _, h, Nat.not_le.mp hn⟩

/-- Where a hit begins and none reaches over it, the scan of a list is the scans of its two
parts. -/
theorem scan_append (hpos : Hits hitAt) (hlocal : Local hitAt) (hspan : span [] = [])
    {a b : List σ} (hb : ∃ d q t n, b = d :: q ∧ hitAt b = some (t, n))
    (hcross : ¬ Crosses hitAt a b) (ha : ¬ Overruns hitAt a) (hab : ¬ Overruns hitAt (a ++ b))
    (held : List σ) :
    ∃ x y, scan hitAt span hit 0 held a = some x ∧ scan hitAt span hit 0 [] b = some y ∧
      scan hitAt span hit 0 held (a ++ b) = some (x ++ y) := by
  induction a using scan_induction hpos generalizing held with
  | hnil =>
    obtain ⟨d, q, t, n, rfl, hhit⟩ := hb
    have hn : n ≤ (d :: q).length := by
      by_contra hn
      exact hab ⟨d, q, t, n, .here _, hhit, Nat.not_le.mp hn⟩
    obtain ⟨y, hy⟩ : ∃ y, scan hitAt span hit 0 [] ((d :: q).drop n) = some y :=
      (scan_isSome_iff hpos [] _).mpr ((overruns_jump hhit hn).not.mp hab)
    refine ⟨span held, hit t ++ y, rfl, ?_, ?_⟩
    · rw [scan_hit hpos hhit hn, hy, Option.map_some, hspan, List.nil_append]
    · rw [List.nil_append, scan_hit hpos hhit hn, hy, Option.map_some]
  | hnone c p hc ih =>
    have hboth : hitAt (c :: (p ++ b)) = none := (hitAt_append hlocal hcross ha hab).trans hc
    obtain ⟨x, y, hx, hy, hxy⟩ := ih (fun h => hcross (h.next hboth))
      ((overruns_next hc).not.mp ha) ((overruns_next hboth).not.mp hab) (held ++ [c])
    refine ⟨x, y, by rw [scan_none hc, hx], hy, ?_⟩
    rw [List.cons_append, scan_none hboth, hxy]
  | hhit c p t n hc hn ih =>
    have hboth : hitAt (c :: (p ++ b)) = some (t, n) := (hitAt_append hlocal hcross ha hab).trans hc
    have hab' := (overruns_jump hboth (le_length_cons_append hn)).not.mp hab
    rw [drop_cons_append hn] at hab'
    obtain ⟨x, y, hx, hy, hxy⟩ := ih (fun h => hcross (h.jump hboth hn))
      ((overruns_jump hc hn).not.mp ha) hab' []
    refine ⟨span held ++ (hit t ++ x), y, by rw [scan_hit hpos hc hn, hx, Option.map_some], hy, ?_⟩
    rw [List.cons_append, scan_hit hpos hboth (le_length_cons_append hn), drop_cons_append hn, hxy,
      Option.map_some]
    simp only [List.append_assoc]
  | hover c p t n hc hn => exact absurd ⟨c, p, t, n, .here _, hc, hn⟩ ha

theorem Visits.trans {p q r : List σ} (hpq : Visits hitAt p q) (hqr : Visits hitAt q r) :
    Visits hitAt p r := by
  induction hpq with
  | here => exact hqr
  | next h _ ih => exact .next h (ih hqr)
  | jump h hn _ ih => exact .jump h hn (ih hqr)

/-- The scan of two lists comes to the second. -/
theorem visits_append (hpos : Hits hitAt) (hlocal : Local hitAt) {a b : List σ}
    (hcross : ¬ Crosses hitAt a b) (ha : ¬ Overruns hitAt a) (hab : ¬ Overruns hitAt (a ++ b)) :
    Visits hitAt (a ++ b) b := by
  induction a using scan_induction hpos with
  | hnil => exact .here b
  | hnone c p hc ih =>
    have hboth : hitAt (c :: (p ++ b)) = none := (hitAt_append hlocal hcross ha hab).trans hc
    exact .next hboth (ih (fun h => hcross (h.next hboth)) ((overruns_next hc).not.mp ha)
      ((overruns_next hboth).not.mp hab))
  | hhit c p t n hc hn ih =>
    have hboth : hitAt (c :: (p ++ b)) = some (t, n) := (hitAt_append hlocal hcross ha hab).trans hc
    have hab' := (overruns_jump hboth (le_length_cons_append hn)).not.mp hab
    rw [drop_cons_append hn] at hab'
    have hvisits := ih (fun h => hcross (h.jump hboth hn)) ((overruns_jump hc hn).not.mp ha) hab'
    rw [← drop_cons_append hn] at hvisits
    exact .jump hboth (le_length_cons_append hn) hvisits
  | hover c p t n hc hn => exact absurd ⟨c, p, t, n, .here _, hc, hn⟩ ha

/-- What crosses from a later list crosses in the scan that comes to it. -/
theorem Crosses.of_visits {a b c : List σ} (h : Visits hitAt (a ++ (b ++ c)) (b ++ c))
    (hcross : Crosses hitAt b c) : Crosses hitAt (a ++ b) c := by
  obtain ⟨d, q, t, n, hvisits, hrest⟩ := hcross
  refine ⟨d, q, t, n, ?_, hrest⟩
  rw [List.append_assoc]
  exact h.trans hvisits

theorem Overruns.of_visits {p q : List σ} (h : Visits hitAt p q) (hq : Overruns hitAt q) :
    Overruns hitAt p := by
  obtain ⟨d, r, t, n, hvisits, hrest⟩ := hq
  exact ⟨d, r, t, n, h.trans hvisits, hrest⟩

/-- A hit begins the list, whatever follows it. -/
def BeginsWithHit (hitAt : List σ → Option (τ × Nat)) (p : List σ) : Prop :=
  ∀ r, ∃ d q t n, p ++ r = d :: q ∧ hitAt (p ++ r) = some (t, n)

/-- No hit reaches from one of the lists into a later one. -/
def CrossesNowhere (hitAt : List σ → Option (τ × Nat)) (ps : List (List σ)) : Prop :=
  ∀ as bs, ps = as ++ bs → ¬ Crosses hitAt as.flatten bs.flatten

/-- The scan of lists that each begin with a hit is the scans of them. -/
theorem scan_flatten (hpos : Hits hitAt) (hlocal : Local hitAt) (hspan : span [] = [])
    {ps : List (List σ)} (hbegin : ∀ p ∈ ps, BeginsWithHit hitAt p)
    (hcross : CrossesNowhere hitAt ps) (hps : ∀ p ∈ ps, ¬ Overruns hitAt p)
    (hall : ¬ Overruns hitAt ps.flatten) :
    ∃ xs, List.Forall₂ (fun p x => scan hitAt span hit 0 [] p = some x) ps xs ∧
      scan hitAt span hit 0 [] ps.flatten = some xs.flatten := by
  induction ps with
  | nil => exact ⟨[], .nil, by rw [List.flatten_nil, scan_nil, hspan]; rfl⟩
  | cons p ps ih =>
    obtain ⟨-, hbegin'⟩ := List.forall_mem_cons.mp hbegin
    obtain ⟨hp, hps'⟩ := List.forall_mem_cons.mp hps
    have hfirst : ¬ Crosses hitAt p ps.flatten := by
      have h := hcross [p] ps rfl
      rwa [List.flatten_singleton] at h
    rw [List.flatten_cons] at hall
    have hvisits := visits_append hpos hlocal hfirst hp hall
    have hrest : CrossesNowhere hitAt ps := by
      rintro as bs rfl h
      rw [List.flatten_append] at hvisits
      exact hcross (p :: as) bs rfl (h.of_visits hvisits)
    obtain ⟨xs, hxs, hflat⟩ := ih hbegin' hrest hps' fun h => hall (h.of_visits hvisits)
    cases ps with
    | nil =>
      cases hxs
      obtain ⟨x, hx⟩ : ∃ x, scan hitAt span hit 0 [] p = some x :=
        (scan_isSome_iff hpos [] p).mpr hp
      exact ⟨[x], .cons hx .nil, by simpa using hx⟩
    | cons p' ps =>
      have hb : ∃ d q t n, (p' :: ps).flatten = d :: q ∧
          hitAt (p' :: ps).flatten = some (t, n) := by
        rw [List.flatten_cons]
        exact (List.forall_mem_cons.mp hbegin').1 ps.flatten
      obtain ⟨x, y, hx, hy, hxy⟩ : ∃ x y, scan hitAt span hit 0 [] p = some x ∧
          scan hitAt span hit 0 [] (p' :: ps).flatten = some y ∧
          scan hitAt span hit 0 [] (p ++ (p' :: ps).flatten) = some (x ++ y) :=
        scan_append hpos hlocal hspan hb hfirst hp hall []
      rw [hflat] at hy
      cases hy
      exact ⟨x :: xs, .cons hx hxs, by rw [List.flatten_cons, hxy, List.flatten_cons]⟩

end Sf37.Run

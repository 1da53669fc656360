/-
Sf37.Run.Reader — readers of a text, one after the other.

A reader starts at a place of a text and comes to a value and a place further on, or
stops. `Reads` says which pieces of a text a reader takes for which value, both ways:
what it takes is such a piece, and every such piece is taken.

* `ReadsNext`: a reader of a fixed count of elements.
* `Reads.bind`, `Reads.turns`: what two readers, and what the turns of a loop, take.
* `Stops.bind`, `Stops.turns`: where they stop.
-/
import Mathlib.Data.List.Basic

namespace Sf37.Run

variable {σ ε α β ρ : Type}

/-- From a place of a text to a value and the place after it, or to why it stops. -/
def Reader (σ ε α : Type) : Type := List σ → Nat → Except ε (α × Nat)

instance : Monad (Reader σ ε) where
  pure a := fun _ pos => .ok (a, pos)
  bind r next := fun text pos =>
    match r text pos with
    | .ok (a, mid) => next a text mid
    | .error e => .error e

/-- A reader that stops at once. -/
def Reader.stop (e : ε) : Reader σ ε α := fun _ _ => .error e

theorem Reader.pure_ok {a b : α} {text : List σ} {pos after : Nat} :
    (pure a : Reader σ ε α) text pos = .ok (b, after) ↔ b = a ∧ after = pos := by
  constructor
  · intro h
    cases h
    exact ⟨rfl, rfl⟩
  · rintro ⟨rfl, rfl⟩
    rfl

theorem Reader.bind_of_ok {r : Reader σ ε α} {next : α → Reader σ ε β} {text : List σ}
    {pos mid : Nat} {a : α} (h : r text pos = .ok (a, mid)) :
    (r >>= next) text pos = next a text mid := by
  change (match r text pos with
    | .ok (a, mid) => next a text mid
    | .error e => .error e) = _
  rw [h]

theorem Reader.bind_of_error {r : Reader σ ε α} {next : α → Reader σ ε β} {text : List σ}
    {pos : Nat} {e : ε} (h : r text pos = .error e) : (r >>= next) text pos = .error e := by
  change (match r text pos with
    | .ok (a, mid) => next a text mid
    | .error e => .error e) = _
  rw [h]

theorem Reader.bind_ok {r : Reader σ ε α} {next : α → Reader σ ε β} {text : List σ}
    {pos after : Nat} {b : β} :
    (r >>= next) text pos = .ok (b, after) ↔
      ∃ a mid, r text pos = .ok (a, mid) ∧ next a text mid = .ok (b, after) := by
  cases hr : r text pos with
  | error e =>
    rw [Reader.bind_of_error hr]
    simp
  | ok am =>
    obtain ⟨a, mid⟩ := am
    rw [Reader.bind_of_ok hr]
    simp

theorem Reader.bind_error {r : Reader σ ε α} {next : α → Reader σ ε β} {text : List σ}
    {pos : Nat} {e : ε} :
    (r >>= next) text pos = .error e ↔
      r text pos = .error e ∨
        ∃ a mid, r text pos = .ok (a, mid) ∧ next a text mid = .error e := by
  cases hr : r text pos with
  | error e =>
    rw [Reader.bind_of_error hr]
    simp
  | ok am =>
    obtain ⟨a, mid⟩ := am
    rw [Reader.bind_of_ok hr]
    simp

/-- The turns of a counted loop, with what is carried from turn to turn. -/
def Reader.turns (body : ρ → Reader σ ε (α × ρ)) : Nat → ρ → Reader σ ε (List α × ρ)
  | 0, s => pure ([], s)
  | n + 1, s => do
    let (a, s') ← body s
    let (as, last) ← Reader.turns body n s'
    pure (a :: as, last)

/-! ## What readers take -/

/-- `p` stands at a place of a text. -/
def StandsAt (p text : List σ) (pos : Nat) : Prop := p <+: text.drop pos

theorem standsAt_nil (text : List σ) (pos : Nat) : StandsAt [] text pos := List.nil_prefix

theorem StandsAt.le {p text : List σ} {pos : Nat} (h : StandsAt p text pos)
    (hpos : pos ≤ text.length) : pos + p.length ≤ text.length := by
  have hlen := List.IsPrefix.length_le h
  rw [List.length_drop] at hlen
  omega

theorem standsAt_append {p q text : List σ} {pos : Nat} :
    StandsAt (p ++ q) text pos ↔ StandsAt p text pos ∧ StandsAt q text (pos + p.length) := by
  unfold StandsAt
  rw [← List.drop_drop]
  constructor
  · rintro ⟨rest, h⟩
    rw [← h, List.append_assoc]
    exact ⟨List.prefix_append _ _, by rw [List.drop_left]; exact List.prefix_append _ _⟩
  · rintro ⟨⟨rest, h⟩, hq⟩
    rw [← h, List.drop_left] at hq
    rw [← h]
    exact (List.prefix_append_right_inj p).mpr hq

variable {T : List σ → Prop}

/-- On the texts of `T` the reader takes a piece `p` at `pos` for `a` exactly when
`P pos a p`. -/
def Reads (T : List σ → Prop) (r : Reader σ ε α) (P : Nat → α → List σ → Prop) : Prop :=
  ∀ text, T text → ∀ pos, pos ≤ text.length → ∀ a after,
    r text pos = .ok (a, after) ↔ ∃ p, P pos a p ∧ StandsAt p text pos ∧ after = pos + p.length

/-- The reader takes no piece. -/
def TakesNone (_ : Nat) (_ : α) (_ : List σ) : Prop := False

/-- One piece after the other. -/
def TakesBoth (P : Nat → α → List σ → Prop) (Q : α → Nat → β → List σ → Prop) (pos : Nat) (b : β)
    (p : List σ) : Prop :=
  ∃ a q s, P pos a q ∧ Q a (pos + q.length) b s ∧ p = q ++ s

/-- The pieces of the turns of a loop. -/
def TakesTurns (P : ρ → Nat → α × ρ → List σ → Prop) :
    Nat → ρ → Nat → List α × ρ → List σ → Prop
  | 0, s, _, out, p => out = ([], s) ∧ p = []
  | n + 1, s, pos, out, p =>
      ∃ a s' q as last r, P s pos (a, s') q ∧ TakesTurns P n s' (pos + q.length) (as, last) r ∧
        out = (a :: as, last) ∧ p = q ++ r

theorem Reads.congr {r : Reader σ ε α} {P Q : Nat → α → List σ → Prop} (h : Reads T r P)
    (heq : ∀ pos a p, P pos a p ↔ Q pos a p) : Reads T r Q := by
  intro text ht pos hpos a after
  simp only [h text ht pos hpos a after, heq]

theorem reads_pure (a : α) :
    Reads T (pure a : Reader σ ε α) fun _ b p => b = a ∧ p = [] := by
  intro text _ pos _ b after
  rw [Reader.pure_ok]
  constructor
  · rintro ⟨rfl, rfl⟩
    exact ⟨[], ⟨rfl, rfl⟩, standsAt_nil _ _, rfl⟩
  · rintro ⟨p, ⟨rfl, rfl⟩, -, rfl⟩
    exact ⟨rfl, rfl⟩

theorem reads_stop (e : ε) : Reads T (Reader.stop e : Reader σ ε α) TakesNone := by
  intro text _ pos _ a after
  constructor
  · intro h
    cases h
  · rintro ⟨p, h, -⟩
    exact h.elim

/-- The second reader is only looked at for values that the first can come to. -/
theorem Reads.bind_of {r : Reader σ ε α} {next : α → Reader σ ε β} {P : Nat → α → List σ → Prop}
    {Q : α → Nat → β → List σ → Prop} (h : Reads T r P)
    (hnext : ∀ pos a p, P pos a p → Reads T (next a) (Q a)) :
    Reads T (r >>= next) (TakesBoth P Q) := by
  intro text ht pos hpos b after
  rw [Reader.bind_ok]
  constructor
  · rintro ⟨a, mid, hr, hn⟩
    obtain ⟨q, hP, hq, rfl⟩ := (h text ht pos hpos a mid).mp hr
    obtain ⟨s, hQ, hs, rfl⟩ := (hnext pos a q hP text ht _ (hq.le hpos) b after).mp hn
    exact ⟨q ++ s, ⟨a, q, s, hP, hQ, rfl⟩, standsAt_append.mpr ⟨hq, hs⟩,
      by rw [List.length_append, Nat.add_assoc]⟩
  · rintro ⟨p, ⟨a, q, s, hP, hQ, rfl⟩, hp, rfl⟩
    obtain ⟨hq, hs⟩ := standsAt_append.mp hp
    refine ⟨a, pos + q.length, (h text ht pos hpos a _).mpr ⟨q, hP, hq, rfl⟩, ?_⟩
    rw [List.length_append, ← Nat.add_assoc]
    exact (hnext pos a q hP text ht _ (hq.le hpos) b _).mpr ⟨s, hQ, hs, rfl⟩

theorem Reads.bind {r : Reader σ ε α} {next : α → Reader σ ε β} {P : Nat → α → List σ → Prop}
    {Q : α → Nat → β → List σ → Prop} (h : Reads T r P) (hnext : ∀ a, Reads T (next a) (Q a)) :
    Reads T (r >>= next) (TakesBoth P Q) :=
  h.bind_of fun _ a _ _ => hnext a

/-- A reader that stops in the end. -/
theorem reads_bind_stop (r : Reader σ ε β) (e : β → ε) :
    Reads T (r >>= fun b => (Reader.stop (e b) : Reader σ ε α)) TakesNone := by
  intro text _ pos _ a after
  rw [Reader.bind_ok]
  constructor
  · rintro ⟨b, mid, -, h⟩
    cases h
  · rintro ⟨p, h, -⟩
    exact h.elim

/-- A reader of the next `n` elements. -/
def ReadsNext (T : List σ → Prop) (r : Reader σ ε α) (n : Nat) (value : Nat → List σ → α)
    (e : Nat → ε) : Prop :=
  ∀ text, T text → ∀ pos, pos ≤ text.length →
    r text pos = if pos + n ≤ text.length then
      .ok (value pos ((text.drop pos).take n), pos + n) else .error (e pos)

theorem ReadsNext.reads {r : Reader σ ε α} {n : Nat} {value : Nat → List σ → α} {e : Nat → ε}
    (h : ReadsNext T r n value e) :
    Reads T r fun pos a p => p.length = n ∧ a = value pos p := by
  intro text ht pos hpos a after
  rw [h text ht pos hpos]
  constructor
  · intro hr
    split at hr
    · rename_i hle
      have hlen : ((text.drop pos).take n).length = n := by
        rw [List.length_take, List.length_drop]
        omega
      obtain ⟨rfl, rfl⟩ := Prod.mk.inj (Except.ok.inj hr)
      exact ⟨_, ⟨hlen, rfl⟩, List.take_prefix _ _, by rw [hlen]⟩
    · cases hr
  · rintro ⟨p, ⟨rfl, rfl⟩, hp, rfl⟩
    rw [if_pos (hp.le hpos), ← List.prefix_iff_eq_take.mp hp]

theorem Reads.ite {c : Prop} [Decidable c] {r s : Reader σ ε α} {P Q : Nat → α → List σ → Prop}
    (hr : Reads T r P) (hs : Reads T s Q) :
    Reads T (if c then r else s) fun pos a p => if c then P pos a p else Q pos a p := by
  by_cases h : c
  · simpa only [if_pos h] using hr
  · simpa only [if_neg h] using hs

/-- Step and run: the turns of a loop take what its turns take. -/
theorem Reads.turns {body : ρ → Reader σ ε (α × ρ)} {P : ρ → Nat → α × ρ → List σ → Prop}
    (h : ∀ s, Reads T (body s) (P s)) (n : Nat) (s : ρ) :
    Reads T (Reader.turns body n s) (TakesTurns P n s) := by
  induction n generalizing s with
  | zero => exact reads_pure _
  | succ n ih =>
    refine ((h s).bind fun as => (ih as.2).bind fun rest => reads_pure _).congr ?_
    intro pos out p
    constructor
    · rintro ⟨⟨a, s'⟩, q, -, hP, ⟨⟨as, last⟩, r, -, hturns, ⟨rfl, rfl⟩, rfl⟩, rfl⟩
      exact ⟨a, s', q, as, last, r, hP, hturns, rfl, by rw [List.append_nil]⟩
    · rintro ⟨a, s', q, as, last, r, hP, hturns, rfl, rfl⟩
      exact ⟨(a, s'), q, r, hP, ⟨(as, last), r, [], hturns, ⟨rfl, rfl⟩, by rw [List.append_nil]⟩,
        rfl⟩

/-- What is made of items that stand side by side, each from its place. -/
def placed (make : Nat → β → α) (text : β → List σ) : Nat → List β → List α
  | _, [] => []
  | pos, b :: bs => make pos b :: placed make text (pos + (text b).length) bs

@[simp] theorem length_placed (make : Nat → β → α) (text : β → List σ) (pos : Nat) (bs : List β) :
    (placed make text pos bs).length = bs.length := by
  induction bs generalizing pos with
  | nil => rfl
  | cons b bs ih => rw [placed, List.length_cons, ih, List.length_cons]

/-- When the places do not matter. -/
theorem placed_const (make : β → α) (text : β → List σ) (pos : Nat) (bs : List β) :
    placed (fun _ => make) text pos bs = bs.map make := by
  induction bs generalizing pos with
  | nil => rfl
  | cons b bs ih => rw [placed, ih, List.map_cons]

/-- The pieces of a loop each of whose turns takes the text of one item. -/
theorem takesTurns_iff {P : ρ → Nat → α × ρ → List σ → Prop} {W : β → Prop}
    {make : Nat → β → α} {next : ρ → β → ρ} {text : β → List σ}
    (hP : ∀ s pos a s' q, P s pos (a, s') q ↔
      ∃ b, W b ∧ a = make pos b ∧ s' = next s b ∧ q = text b)
    {n pos : Nat} {s last : ρ} {as : List α} {p : List σ} :
    TakesTurns P n s pos (as, last) p ↔
      ∃ bs : List β, bs.length = n ∧ (∀ b ∈ bs, W b) ∧ as = placed make text pos bs ∧
        last = bs.foldl next s ∧ p = bs.flatMap text := by
  induction n generalizing s pos as p with
  | zero =>
    constructor
    · rintro ⟨heq, rfl⟩
      cases heq
      exact ⟨[], rfl, fun _ h => absurd h List.not_mem_nil, rfl, rfl, rfl⟩
    · rintro ⟨bs, hlen, -, rfl, rfl, rfl⟩
      obtain rfl := List.length_eq_zero_iff.mp hlen
      exact ⟨rfl, rfl⟩
  | succ n ih =>
    constructor
    · rintro ⟨a, s', q, as', _, r, hq, hturns, heq, rfl⟩
      cases heq
      obtain ⟨b, hb, rfl, rfl, rfl⟩ := (hP _ _ _ _ _).mp hq
      obtain ⟨bs, hlen, hbs, rfl, rfl, rfl⟩ := ih.mp hturns
      exact ⟨b :: bs, congrArg Nat.succ hlen, List.forall_mem_cons.mpr ⟨hb, hbs⟩, rfl, rfl, rfl⟩
    · rintro ⟨bs, hlen, hbs, rfl, rfl, rfl⟩
      match bs, hlen, hbs with
      | b :: bs, hlen, hbs =>
        obtain ⟨hb, hbs⟩ := List.forall_mem_cons.mp hbs
        exact ⟨make pos b, next s b, text b, placed make text (pos + (text b).length) bs, _,
          bs.flatMap text, (hP _ _ _ _ _).mpr ⟨b, hb, rfl, rfl, rfl⟩,
          ih.mpr ⟨bs, Nat.succ.inj hlen, hbs, rfl, rfl, rfl⟩, rfl, rfl⟩

/-! ## Where readers stop -/

/-- On the texts of `T` the reader stops with `e` exactly where `F` says so. -/
def Stops (T : List σ → Prop) (e : ε) (r : Reader σ ε α) (F : List σ → Nat → Prop) : Prop :=
  ∀ text, T text → ∀ pos, pos ≤ text.length → (r text pos = .error e ↔ F text pos)

/-- Nowhere. -/
def Nowhere (_ : List σ) (_ : Nat) : Prop := False

/-- Where the first reader stops, or the second after a piece the first takes. -/
def StopsInEither (F : List σ → Nat → Prop) (P : Nat → α → List σ → Prop)
    (G : α → List σ → Nat → Prop) (text : List σ) (pos : Nat) : Prop :=
  F text pos ∨ ∃ a p, P pos a p ∧ StandsAt p text pos ∧ G a text (pos + p.length)

theorem Stops.congr {e : ε} {r : Reader σ ε α} {F G : List σ → Nat → Prop} (h : Stops T e r F)
    (heq : ∀ text pos, F text pos ↔ G text pos) : Stops T e r G :=
  fun text ht pos hpos => (h text ht pos hpos).trans (heq text pos)

theorem stops_pure (e : ε) (a : α) : Stops T e (pure a : Reader σ ε α) Nowhere := by
  intro text _ pos _
  constructor
  · intro h
    cases h
  · intro h
    exact h.elim

theorem stops_stop {e e' : ε} (h : e' ≠ e) :
    Stops T e (Reader.stop e' : Reader σ ε α) Nowhere := by
  intro text _ pos _
  constructor
  · intro heq
    exact h (Except.error.inj heq)
  · intro h
    exact h.elim

theorem ReadsNext.stops {r : Reader σ ε α} {n : Nat} {value : Nat → List σ → α} {e : Nat → ε}
    (h : ReadsNext T r n value e) {e' : ε} (hne : ∀ pos, e pos ≠ e') : Stops T e' r Nowhere := by
  intro text ht pos hpos
  rw [h text ht pos hpos]
  refine ⟨fun hr => ?_, False.elim⟩
  split at hr
  · cases hr
  · exact hne pos (Except.error.inj hr)

theorem Stops.bind {e : ε} {r : Reader σ ε α} {next : α → Reader σ ε β}
    {P : Nat → α → List σ → Prop} {F : List σ → Nat → Prop} {G : α → List σ → Nat → Prop}
    (hreads : Reads T r P) (hr : Stops T e r F) (hnext : ∀ a, Stops T e (next a) (G a)) :
    Stops T e (r >>= next) (StopsInEither F P G) := by
  intro text ht pos hpos
  rw [Reader.bind_error, hr text ht pos hpos]
  constructor
  · rintro (h | ⟨a, mid, hok, herr⟩)
    · exact .inl h
    · obtain ⟨p, hP, hp, rfl⟩ := (hreads text ht pos hpos a mid).mp hok
      exact .inr ⟨a, p, hP, hp, (hnext a text ht _ (hp.le hpos)).mp herr⟩
  · rintro (h | ⟨a, p, hP, hp, hG⟩)
    · exact .inl h
    · exact .inr ⟨a, pos + p.length, (hreads text ht pos hpos a _).mpr ⟨p, hP, hp, rfl⟩,
        (hnext a text ht _ (hp.le hpos)).mpr hG⟩

/-- The reader comes to places in the text. -/
def Within (T : List σ → Prop) (r : Reader σ ε α) : Prop :=
  ∀ text, T text → ∀ pos, pos ≤ text.length → ∀ a after,
    r text pos = .ok (a, after) → after ≤ text.length

theorem Reads.within {r : Reader σ ε α} {P : Nat → α → List σ → Prop} (h : Reads T r P) :
    Within T r := by
  intro text ht pos hpos a after hr
  obtain ⟨p, -, hp, rfl⟩ := (h text ht pos hpos a after).mp hr
  exact hp.le hpos

/-- Two readers that never stop with `e`. -/
theorem Within.bind_nowhere {e : ε} {r : Reader σ ε α} {next : α → Reader σ ε β}
    (hwithin : Within T r) (hr : Stops T e r Nowhere) (hnext : ∀ a, Stops T e (next a) Nowhere) :
    Stops T e (r >>= next) Nowhere := by
  intro text ht pos hpos
  refine ⟨fun h => ?_, False.elim⟩
  rcases Reader.bind_error.mp h with h | ⟨a, mid, hok, herr⟩
  · exact (hr text ht pos hpos).mp h
  · exact (hnext a text ht mid (hwithin text ht pos hpos a mid hok)).mp herr

theorem Stops.bind_nowhere_of {e : ε} {r : Reader σ ε α} {next : α → Reader σ ε β}
    {P : Nat → α → List σ → Prop} (hreads : Reads T r P) (hr : Stops T e r Nowhere)
    (hnext : ∀ pos a p, P pos a p → Stops T e (next a) Nowhere) :
    Stops T e (r >>= next) Nowhere := by
  intro text ht pos hpos
  refine ⟨fun h => ?_, False.elim⟩
  rcases Reader.bind_error.mp h with h | ⟨a, mid, hok, herr⟩
  · exact (hr text ht pos hpos).mp h
  · obtain ⟨p, hP, hp, rfl⟩ := (hreads text ht pos hpos a mid).mp hok
    exact (hnext pos a p hP text ht _ (hp.le hpos)).mp herr

theorem Stops.bind_nowhere {e : ε} {r : Reader σ ε α} {next : α → Reader σ ε β}
    {P : Nat → α → List σ → Prop} (hreads : Reads T r P) (hr : Stops T e r Nowhere)
    (hnext : ∀ a, Stops T e (next a) Nowhere) : Stops T e (r >>= next) Nowhere :=
  hreads.within.bind_nowhere hr hnext

/-- A reader that stops in the end, with something else. -/
theorem Stops.bind_stop {e : ε} {r : Reader σ ε β} {F : List σ → Nat → Prop} {e' : β → ε}
    (h : Stops T e r F) (hne : ∀ b, e' b ≠ e) :
    Stops T e (r >>= fun b => (Reader.stop (e' b) : Reader σ ε α)) F := by
  intro text ht pos hpos
  rw [Reader.bind_error, h text ht pos hpos]
  refine or_iff_left ?_
  rintro ⟨b, mid, -, hstop⟩
  exact hne b (Except.error.inj hstop)

theorem Stops.ite {c : Prop} [Decidable c] {e : ε} {r s : Reader σ ε α}
    {F G : List σ → Nat → Prop} (hr : Stops T e r F) (hs : Stops T e s G) :
    Stops T e (if c then r else s) fun text pos => if c then F text pos else G text pos := by
  by_cases h : c
  · simpa only [if_pos h] using hr
  · simpa only [if_neg h] using hs

theorem Stops.ite_nowhere {c : Prop} [Decidable c] {e : ε} {r s : Reader σ ε α}
    (hr : Stops T e r Nowhere) (hs : Stops T e s Nowhere) :
    Stops T e (if c then r else s) Nowhere := by
  by_cases h : c
  · rwa [if_pos h]
  · rwa [if_neg h]

/-- In some turn of a loop, after the pieces of the turns before it. -/
def StopsInTurn (P : ρ → Nat → α × ρ → List σ → Prop) (F : ρ → List σ → Nat → Prop) (n : Nat)
    (s : ρ) (text : List σ) (pos : Nat) : Prop :=
  ∃ k < n, ∃ as s' p, TakesTurns P k s pos (as, s') p ∧ StandsAt p text pos ∧
    F s' text (pos + p.length)

/-- Step and run: where the turns of a loop stop. -/
theorem Stops.turns {e : ε} {body : ρ → Reader σ ε (α × ρ)}
    {P : ρ → Nat → α × ρ → List σ → Prop} {F : ρ → List σ → Nat → Prop}
    (hreads : ∀ s, Reads T (body s) (P s)) (h : ∀ s, Stops T e (body s) (F s)) (n : Nat) (s : ρ) :
    Stops T e (Reader.turns body n s) (StopsInTurn P F n s) := by
  induction n generalizing s with
  | zero =>
    refine (stops_pure e _).congr fun text pos => ⟨False.elim, ?_⟩
    rintro ⟨k, hk, -⟩
    exact absurd hk (Nat.not_lt_zero k)
  | succ n ih =>
    refine ((h s).bind (hreads s) fun as => (ih as.2).bind (Reads.turns hreads n as.2)
      fun rest => stops_pure e _).congr ?_
    intro text pos
    constructor
    · rintro (hF | ⟨⟨a, s'⟩, q, hP, hq, ⟨k, hk, as, s'', p, htakes, hp, hF⟩ | ⟨_, _, _, _, hno⟩⟩)
      · exact ⟨0, Nat.succ_pos n, [], s, [], ⟨rfl, rfl⟩, standsAt_nil _ _, hF⟩
      · refine ⟨k + 1, Nat.succ_lt_succ hk, a :: as, s'', q ++ p,
          ⟨a, s', q, as, s'', p, hP, htakes, rfl, rfl⟩, standsAt_append.mpr ⟨hq, hp⟩, ?_⟩
        rw [List.length_append, ← Nat.add_assoc]
        exact hF
      · exact absurd hno id
    · rintro ⟨k, hk, as, s'', p, htakes, hp, hF⟩
      cases k with
      | zero =>
        obtain ⟨heq, rfl⟩ := htakes
        cases heq
        exact .inl hF
      | succ k =>
        obtain ⟨a, s', q, as', last, r, hP, hrest, heq, rfl⟩ := htakes
        cases heq
        obtain ⟨hq, hr⟩ := standsAt_append.mp hp
        rw [List.length_append, ← Nat.add_assoc] at hF
        exact .inr ⟨(a, s'), q, hP, hq,
          .inl ⟨k, Nat.lt_of_succ_lt_succ hk, as', s'', r, hrest, hr, hF⟩⟩

/-- A loop none of whose turns stops with `e`. -/
theorem Stops.turns_nowhere {e : ε} {body : ρ → Reader σ ε (α × ρ)}
    {P : ρ → Nat → α × ρ → List σ → Prop} (hreads : ∀ s, Reads T (body s) (P s))
    (h : ∀ s, Stops T e (body s) Nowhere) (n : Nat) (s : ρ) :
    Stops T e (Reader.turns body n s) Nowhere := by
  refine (Stops.turns hreads h n s).congr fun text pos => ⟨?_, False.elim⟩
  rintro ⟨k, -, as, s', p, -, -, h⟩
  exact h

end Sf37.Run

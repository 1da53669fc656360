/-
Sf37.Run.Probing — tables with open addressing: linear probing in a cyclic list of slots.

A key has a home slot; a walk from there ends at a free slot or at the key's own. Keys are compared
through `same`, which may have no answer for an entry.

* `probe_some`: where a walk ends, and what it has passed.
* `Probed`: every entry is reached from its home over entries with other keys.
* `probe_total`: a walk ends when a slot is free and every comparison has an answer.
* `probe_stuck`: a key whose own entry can not be compared is not found.
* `Probed.exists_free`: a table with more slots than there are keys has a free slot.
* `Represents.put`, `Represents.get`: a table stands for the last values of its keys.
-/
import Mathlib.Data.List.Nodup
import Mathlib.Data.List.Perm.Subperm
import Mathlib.Data.Nat.ModEq

namespace Sf37.Run

/-! ## Walks -/

section Walks

variable {ε κ : Type} {same : ε → Option Bool} {slots : List (Option ε)}

/-- A walk over the slots from `i` on, to a free slot or to an entry that is the same. -/
def probe (same : ε → Option Bool) (slots : List (Option ε)) : ℕ → ℕ → Option ℕ
  | 0, _ => none
  | fuel + 1, i =>
    match slots[i]? with
    | none => none
    | some none => some i
    | some (some e) =>
      match same e with
      | none => none
      | some true => some i
      | some false => probe same slots fuel ((i + 1) % slots.length)

/-- The slot `d` places behind a home, around the end. -/
def slotAt (slots : List (Option ε)) (home d : ℕ) : Option (Option ε) :=
  slots[(home + d) % slots.length]?

theorem next_slot (home d n : ℕ) : ((home + d) % n + 1) % n = (home + (d + 1)) % n := by
  rw [Nat.mod_add_mod, Nat.add_assoc]

theorem probe_succ (fuel home d : ℕ) :
    probe same slots (fuel + 1) ((home + d) % slots.length) =
      match slotAt slots home d with
      | none => none
      | some none => some ((home + d) % slots.length)
      | some (some e) =>
        match same e with
        | none => none
        | some true => some ((home + d) % slots.length)
        | some false => probe same slots fuel ((home + (d + 1)) % slots.length) := by
  rw [probe, slotAt, next_slot]

/-- Where a walk ends, and what it has passed. -/
theorem probe_some {fuel home d j : ℕ}
    (h : probe same slots fuel ((home + d) % slots.length) = some j) :
    ∃ d', d ≤ d' ∧ d' < d + fuel ∧ j = (home + d') % slots.length ∧
      (∀ i, d ≤ i → i < d' → ∃ e, slotAt slots home i = some (some e) ∧ same e = some false) ∧
      (slotAt slots home d' = some none ∨
        ∃ e, slotAt slots home d' = some (some e) ∧ same e = some true) := by
  induction fuel generalizing d with
  | zero => cases h
  | succ fuel ih =>
    rw [probe_succ] at h
    split at h
    next => cases h
    next hfree =>
      exact ⟨d, le_rfl, by omega, (Option.some.inj h).symm, fun i hle hlt => by omega, .inl hfree⟩
    next e he =>
      split at h
      next => cases h
      next hsame =>
        exact ⟨d, le_rfl, by omega, (Option.some.inj h).symm, fun i hle hlt => by omega,
          .inr ⟨e, he, hsame⟩⟩
      next hother =>
        obtain ⟨d', hle, hlt, hj, hpassed, hend⟩ := ih h
        refine ⟨d', by omega, by omega, hj, fun i hi hid => ?_, hend⟩
        rcases Nat.eq_or_lt_of_le hi with rfl | hi
        · exact ⟨e, he, hother⟩
        · exact hpassed i hi hid

/-- A walk ends when there is a free slot ahead and every comparison has an answer. -/
theorem probe_of_free {home d m : ℕ} (hn : 0 < slots.length)
    (hanswers : ∀ e, some e ∈ slots → (same e).isSome = true)
    (hfree : slotAt slots home (d + m) = some none) {fuel : ℕ} (hfuel : m < fuel) :
    ∃ j, probe same slots fuel ((home + d) % slots.length) = some j := by
  induction fuel generalizing d m with
  | zero => exact absurd hfuel (Nat.not_lt_zero m)
  | succ fuel ih =>
    have hlt : (home + d) % slots.length < slots.length := Nat.mod_lt _ hn
    rw [probe_succ]
    cases hslot : slotAt slots home d with
    | none =>
      rw [slotAt, List.getElem?_eq_none_iff] at hslot
      omega
    | some slot =>
      cases slot with
      | none => exact ⟨_, rfl⟩
      | some e =>
        obtain ⟨b, hb⟩ := Option.isSome_iff_exists.mp (hanswers e (List.mem_of_getElem? hslot))
        dsimp only
        rw [hb]
        cases b with
        | true => exact ⟨_, rfl⟩
        | false =>
          cases m with
          | zero =>
            rw [Nat.add_zero, hslot] at hfree
            cases hfree
          | succ m =>
            rw [Nat.add_comm m 1, ← Nat.add_assoc] at hfree
            exact ih hfree (by omega)

/-- Every slot is ahead of a home. -/
theorem exists_ahead {n : ℕ} (hn : 0 < n) (home : ℕ) {j : ℕ} (hj : j < n) :
    ∃ d, d < n ∧ (home + d) % n = j := by
  have hlt := Nat.mod_lt home hn
  rcases Nat.lt_or_ge j (home % n) with hbefore | hahead
  · refine ⟨j + n - home % n, by omega, ?_⟩
    rw [← Nat.mod_add_mod, show home % n + (j + n - home % n) = j + n by omega, Nat.add_mod_right,
      Nat.mod_eq_of_lt hj]
  · refine ⟨j - home % n, by omega, ?_⟩
    rw [← Nat.mod_add_mod, show home % n + (j - home % n) = j by omega, Nat.mod_eq_of_lt hj]

/-- A walk around the table ends when a slot is free and every comparison has an answer. -/
theorem probe_total (hanswers : ∀ e, some e ∈ slots → (same e).isSome = true)
    (hfree : none ∈ slots) (home : ℕ) :
    ∃ j, probe same slots slots.length (home % slots.length) = some j := by
  obtain ⟨j, hj, hslot⟩ := List.mem_iff_getElem.mp hfree
  have hn : 0 < slots.length := Nat.zero_lt_of_lt hj
  obtain ⟨d, hd, hat⟩ := exists_ahead hn home hj
  have hfree' : slotAt slots home (0 + d) = some none := by
    rw [Nat.zero_add, slotAt, hat, List.getElem?_eq_getElem hj, hslot]
  exact probe_of_free (d := 0) hn hanswers hfree' hd

end Walks

/-! ## Tables -/

section Tables

variable {ε κ ν : Type} (key : ε → κ) (val : ε → ν) (home : κ → ℕ)

/-- Every entry is reached from its home over entries with other keys. -/
def Probed (slots : List (Option ε)) : Prop :=
  ∀ j e, slots[j]? = some (some e) →
    ∃ d, d < slots.length ∧ j = (home (key e) + d) % slots.length ∧
      ∀ i, i < d → ∃ e', slotAt slots (home (key e)) i = some (some e') ∧ key e' ≠ key e

/-- What a comparison with the key `k` answers is right. -/
def Compares (k : κ) (same : ε → Option Bool) : Prop :=
  ∀ e b, same e = some b → (b = true ↔ key e = k)

/-- The value that was put last under a key. -/
def lastPut [DecidableEq κ] (puts : List (κ × ν)) (k : κ) : Option ν :=
  (puts.reverse.find? fun p => decide (p.1 = k)).map Prod.snd

/-- The table has the keys that were put, each with the value that was put last. -/
structure Represents [DecidableEq κ] (slots : List (Option ε)) (puts : List (κ × ν)) : Prop where
  probed : Probed key home slots
  holds : ∀ k v, lastPut puts k = some v ↔ ∃ e, some e ∈ slots ∧ key e = k ∧ val e = v

variable {key val home} {slots : List (Option ε)} {k : κ} {same : ε → Option Bool}

theorem lastPut_concat [DecidableEq κ] (puts : List (κ × ν)) (p : κ × ν) (k : κ) :
    lastPut (puts ++ [p]) k = if p.1 = k then some p.2 else lastPut puts k := by
  rw [lastPut, List.reverse_append, List.reverse_singleton, List.singleton_append,
    List.find?_cons]
  split
  next h => rw [if_pos (of_decide_eq_true h)]; rfl
  next h => rw [if_neg (of_decide_eq_false h)]; rfl

theorem lastPut_eq_none [DecidableEq κ] {puts : List (κ × ν)} {k : κ} :
    lastPut puts k = none ↔ k ∉ puts.map Prod.fst := by
  rw [lastPut, Option.map_eq_none_iff, List.find?_eq_none]
  simp only [List.mem_reverse, decide_eq_true_eq, List.mem_map, not_exists, not_and]

theorem lastPut_mem [DecidableEq κ] {puts : List (κ × ν)} {k : κ} {v : ν}
    (h : lastPut puts k = some v) : (k, v) ∈ puts := by
  obtain ⟨p, hp, rfl⟩ := Option.map_eq_some_iff.mp h
  have hk := List.find?_some hp
  rw [← of_decide_eq_true hk]
  exact List.mem_reverse.mp (List.mem_of_find?_eq_some hp)

/-- Entries of one key are one. -/
theorem Probed.unique (h : Probed key home slots) {i j : ℕ} {e e' : ε}
    (hi : slots[i]? = some (some e)) (hj : slots[j]? = some (some e')) (hkey : key e = key e') :
    i = j := by
  obtain ⟨d, hd, hi', hbefore⟩ := h i e hi
  obtain ⟨d', hd', hj', hbefore'⟩ := h j e' hj
  rcases Nat.lt_trichotomy d d' with hlt | rfl | hlt
  · obtain ⟨x, hx, hne⟩ := hbefore' d hlt
    rw [← hkey, slotAt, ← hi', hi] at hx
    cases hx
    exact absurd hkey hne
  · rw [hi', hj', hkey]
  · obtain ⟨x, hx, hne⟩ := hbefore d' hlt
    rw [hkey, slotAt, ← hj', hj] at hx
    cases hx
    exact absurd hkey.symm hne

/-- A walk from the home of a key ends at a free slot when no entry has the key, or at the entry
of the key. -/
theorem Probed.probe (h : Probed key home slots) (hsame : Compares key k same) {j : ℕ}
    (hj : probe same slots slots.length (home k % slots.length) = some j) :
    slots[j]? = some none ∧ (∀ e, some e ∈ slots → key e ≠ k) ∨
      ∃ e, slots[j]? = some (some e) ∧ key e = k ∧ same e = some true := by
  obtain ⟨d, -, hd, rfl, hpassed, hend⟩ := probe_some (d := 0) hj
  rcases hend with hfree | ⟨e, he, htrue⟩
  · refine .inl ⟨hfree, fun e he hkey => ?_⟩
    obtain ⟨i, hi⟩ := List.mem_iff_getElem?.mp he
    obtain ⟨d', hd', rfl, hbefore⟩ := h i e hi
    rw [hkey] at hi hbefore
    rcases Nat.lt_trichotomy d d' with hlt | rfl | hlt
    · obtain ⟨x, hx, -⟩ := hbefore d hlt
      rw [hfree] at hx
      cases hx
    · rw [slotAt, hi] at hfree
      cases hfree
    · obtain ⟨x, hx, hfalse⟩ := hpassed d' (Nat.zero_le _) hlt
      rw [slotAt, hi] at hx
      cases hx
      exact absurd ((hsame e false hfalse).mpr hkey) Bool.false_ne_true
  · exact .inr ⟨e, he, (hsame e true htrue).mp rfl, htrue⟩

/-- A key whose own entry can not be compared is not found. -/
theorem probe_stuck (h : Probed key home slots) (hsame : Compares key k same) {e : ε}
    (he : some e ∈ slots) (hkey : key e = k) (hnone : same e = none) :
    Run.probe same slots slots.length (home k % slots.length) = none := by
  cases hj : Run.probe same slots slots.length (home k % slots.length) with
  | none => rfl
  | some j =>
    rcases h.probe hsame hj with ⟨-, hother⟩ | ⟨x, hx, hkx, htrue⟩
    · exact absurd hkey (hother e he)
    · obtain ⟨i, hi⟩ := List.mem_iff_getElem?.mp he
      obtain rfl := h.unique hi hx (hkey.trans hkx.symm)
      rw [hi] at hx
      cases hx
      rw [hnone] at htrue
      cases htrue

/-- A new value in an entry. -/
theorem Probed.revalue (h : Probed key home slots) {j : ℕ} {e e' : ε}
    (hj : slots[j]? = some (some e)) (hkey : key e' = key e) :
    Probed key home (slots.set j (some e')) := by
  have hset (i : ℕ) (x : ε) (hx : slots[i]? = some (some x)) :
      ∃ x', (slots.set j (some e'))[i]? = some (some x') ∧ key x' = key x := by
    by_cases hij : j = i
    · subst hij
      rw [hj] at hx
      cases hx
      exact ⟨e', List.getElem?_set_self (List.getElem?_eq_some_iff.mp hj).1, hkey⟩
    · exact ⟨x, by rw [List.getElem?_set_ne hij, hx], rfl⟩
  intro i x hx
  have hold : ∃ y, slots[i]? = some (some y) ∧ key x = key y := by
    by_cases hij : j = i
    · subst hij
      rw [List.getElem?_set_self (List.getElem?_eq_some_iff.mp hj).1] at hx
      cases hx
      exact ⟨e, hj, hkey⟩
    · rw [List.getElem?_set_ne hij] at hx
      exact ⟨x, hx, rfl⟩
  obtain ⟨y, hy, hxy⟩ := hold
  obtain ⟨d, hd, hi, hbefore⟩ := h i y hy
  rw [List.length_set, hxy]
  refine ⟨d, hd, hi, fun i' hi' => ?_⟩
  obtain ⟨z, hz, hne⟩ := hbefore i' hi'
  obtain ⟨z', hz', hkz⟩ := hset _ z hz
  refine ⟨z', ?_, hkz ▸ hne⟩
  rw [slotAt, List.length_set]
  exact hz'

/-- A new entry at the free slot where the walk ended. -/
theorem Probed.insert (h : Probed key home slots) (hsame : Compares key k same) {j : ℕ}
    (hj : Run.probe same slots slots.length (home k % slots.length) = some j)
    (hfree : slots[j]? = some none) {e : ε} (hkey : key e = k) :
    Probed key home (slots.set j (some e)) := by
  have hset (i : ℕ) (x : ε) (hx : slots[i]? = some (some x)) :
      (slots.set j (some e))[i]? = some (some x) := by
    rw [List.getElem?_set_ne, hx]
    rintro rfl
    rw [hfree] at hx
    cases hx
  intro i x hx
  by_cases hij : j = i
  · subst hij
    rw [List.getElem?_set_self (List.getElem?_eq_some_iff.mp hfree).1] at hx
    cases hx
    obtain ⟨d, -, hd, hat, hpassed, -⟩ := probe_some (d := 0) hj
    rw [List.length_set, hkey]
    refine ⟨d, by omega, hat, fun i hi => ?_⟩
    obtain ⟨y, hy, hfalse⟩ := hpassed i (Nat.zero_le _) hi
    refine ⟨y, ?_, fun hyk => Bool.false_ne_true ((hsame y false hfalse).mpr hyk)⟩
    rw [slotAt, List.length_set]
    exact hset _ y hy
  · rw [List.getElem?_set_ne hij] at hx
    obtain ⟨d, hd, hi, hbefore⟩ := h i x hx
    rw [List.length_set]
    refine ⟨d, hd, hi, fun i' hi' => ?_⟩
    obtain ⟨y, hy, hne⟩ := hbefore i' hi'
    refine ⟨y, ?_, hne⟩
    rw [slotAt, List.length_set]
    exact hset _ y hy

/-- What an entry in a free slot adds. -/
theorem exists_set_free {β : Type} (f : ε → β) {j : ℕ} (hfree : slots[j]? = some none) (x : ε)
    (b : β) :
    (∃ e, some e ∈ slots.set j (some x) ∧ f e = b) ↔
      (∃ e, some e ∈ slots ∧ f e = b) ∨ b = f x := by
  have hlt := (List.getElem?_eq_some_iff.mp hfree).1
  constructor
  · rintro ⟨e, he, rfl⟩
    obtain ⟨i, hi⟩ := List.mem_iff_getElem?.mp he
    by_cases hij : j = i
    · subst hij
      rw [List.getElem?_set_self hlt] at hi
      exact .inr (congrArg f (Option.some.inj (Option.some.inj hi)).symm)
    · rw [List.getElem?_set_ne hij] at hi
      exact .inl ⟨e, List.mem_of_getElem? hi, rfl⟩
  · rintro (⟨e, he, rfl⟩ | rfl)
    · obtain ⟨i, hi⟩ := List.mem_iff_getElem?.mp he
      refine ⟨e, List.mem_of_getElem? (i := i) ?_, rfl⟩
      rw [List.getElem?_set_ne, hi]
      rintro rfl
      rw [hfree] at hi
      cases hi
    · exact ⟨x, List.mem_of_getElem? (List.getElem?_set_self hlt), rfl⟩

/-- What is the same in a new entry and the one it replaces is there as before. -/
theorem exists_set_entry {β : Type} (f : ε → β) {j : ℕ} {x y : ε}
    (hj : slots[j]? = some (some y)) (hf : f x = f y) (b : β) :
    (∃ e, some e ∈ slots.set j (some x) ∧ f e = b) ↔ ∃ e, some e ∈ slots ∧ f e = b := by
  have hlt := (List.getElem?_eq_some_iff.mp hj).1
  constructor
  · rintro ⟨e, he, rfl⟩
    obtain ⟨i, hi⟩ := List.mem_iff_getElem?.mp he
    by_cases hij : j = i
    · subst hij
      rw [List.getElem?_set_self hlt] at hi
      cases hi
      exact ⟨y, List.mem_of_getElem? hj, hf.symm⟩
    · rw [List.getElem?_set_ne hij] at hi
      exact ⟨e, List.mem_of_getElem? hi, rfl⟩
  · rintro ⟨e, he, rfl⟩
    obtain ⟨i, hi⟩ := List.mem_iff_getElem?.mp he
    by_cases hij : j = i
    · subst hij
      rw [hj] at hi
      cases hi
      exact ⟨x, List.mem_of_getElem? (List.getElem?_set_self hlt), hf⟩
    · refine ⟨e, List.mem_of_getElem? (i := i) ?_, rfl⟩
      rw [List.getElem?_set_ne hij, hi]

/-- A table with more slots than there are keys has a free slot. -/
theorem Probed.exists_free (h : Probed key home slots) (ks : List κ)
    (hks : ∀ e, some e ∈ slots → key e ∈ ks) (hlt : ks.length < slots.length) : none ∈ slots := by
  by_contra hfull
  have hsome : ∀ i (hi : i < slots.length), ∃ e, slots[i] = some e := by
    intro i hi
    cases hslot : slots[i] with
    | none => exact absurd (hslot ▸ List.getElem_mem hi) hfull
    | some e => exact ⟨e, rfl⟩
  have hinj : (slots.map fun slot => slot.map key).Nodup := by
    rw [List.nodup_iff_injective_getElem]
    intro i j hij
    obtain ⟨i, hi⟩ := i
    obtain ⟨j, hj⟩ := j
    rw [List.length_map] at hi hj
    obtain ⟨e, he⟩ := hsome i hi
    obtain ⟨e', he'⟩ := hsome j hj
    simp only [List.getElem_map, he, he', Option.map_some, Option.some.injEq] at hij
    refine Fin.ext (h.unique ?_ ?_ hij)
    · rw [List.getElem?_eq_getElem hi, he]
    · rw [List.getElem?_eq_getElem hj, he']
  have hsub : (slots.map fun slot => slot.map key) ⊆ ks.map some := by
    intro slot hslot
    obtain ⟨o, ho, rfl⟩ := List.mem_map.mp hslot
    cases o with
    | none => exact absurd ho hfull
    | some e => exact List.mem_map_of_mem (hks e ho)
  have hle := (hinj.subperm hsub).length_le
  rw [List.length_map, List.length_map] at hle
  omega

section Represents

variable [DecidableEq κ] {puts : List (κ × ν)}

theorem Represents.nil (n : ℕ) : Represents key val home (List.replicate n none) [] where
  probed := fun j e h => by
    rw [List.getElem?_replicate] at h
    split at h <;> cases h
  holds := fun k v => by
    constructor
    · intro h
      cases h
    · rintro ⟨e, he, -⟩
      cases List.eq_of_mem_replicate he

theorem Represents.mem_keys (h : Represents key val home slots puts) :
    k ∈ puts.map Prod.fst ↔ ∃ e, some e ∈ slots ∧ key e = k := by
  rw [← not_iff_not, ← lastPut_eq_none]
  constructor
  · rintro hnone ⟨e, he, hkey⟩
    have hlast := (h.holds k (val e)).mpr ⟨e, he, hkey, rfl⟩
    rw [hnone] at hlast
    cases hlast
  · intro hno
    cases hlast : lastPut puts k with
    | none => rfl
    | some v =>
      obtain ⟨e, he, hkey, -⟩ := (h.holds k v).mp hlast
      exact absurd ⟨e, he, hkey⟩ hno

/-- What a walk finds is the last value of the key. -/
theorem Represents.get (h : Represents key val home slots puts) (hsame : Compares key k same)
    {j : ℕ} (hj : probe same slots slots.length (home k % slots.length) = some j) :
    (slots[j]?).join.map val = lastPut puts k := by
  rcases h.probed.probe hsame hj with ⟨hfree, hother⟩ | ⟨e, he, hkey, -⟩
  · rw [hfree, Eq.comm, Option.join_some, Option.map_none, lastPut_eq_none, h.mem_keys]
    rintro ⟨e, he, hkey⟩
    exact hother e he hkey
  · rw [he, Option.join_some, Option.map_some, Eq.comm]
    exact (h.holds k (val e)).mpr ⟨e, List.mem_of_getElem? he, hkey, rfl⟩

/-- A value is stored where the walk ended. -/
theorem Represents.put (h : Represents key val home slots puts) (hsame : Compares key k same)
    {j : ℕ} (hj : probe same slots slots.length (home k % slots.length) = some j) {e : ε}
    (hkey : key e = k) :
    Represents key val home (slots.set j (some e)) (puts ++ [(k, val e)]) := by
  have hend := h.probed.probe hsame hj
  have hlt : j < slots.length := by
    rcases hend with ⟨hfree, -⟩ | ⟨x, hx, -⟩
    · exact (List.getElem?_eq_some_iff.mp hfree).1
    · exact (List.getElem?_eq_some_iff.mp hx).1
  refine ⟨?_, fun k' v => ?_⟩
  · rcases hend with ⟨hfree, -⟩ | ⟨x, hx, hxk, -⟩
    · exact h.probed.insert hsame hj hfree hkey
    · exact h.probed.revalue hx (hkey.trans hxk.symm)
  -- an entry elsewhere is an entry of another key that was there before
  have helse (x : ε) : (∃ i, i ≠ j ∧ slots[i]? = some (some x)) ↔ some x ∈ slots ∧ key x ≠ k := by
    constructor
    · rintro ⟨i, hij, hx⟩
      refine ⟨List.mem_of_getElem? hx, fun hxk => ?_⟩
      rcases hend with ⟨-, hother⟩ | ⟨y, hy, hyk, -⟩
      · exact hother x (List.mem_of_getElem? hx) hxk
      · exact hij (h.probed.unique hx hy (hxk.trans hyk.symm))
    · rintro ⟨hx, hxk⟩
      obtain ⟨i, hi⟩ := List.mem_iff_getElem?.mp hx
      refine ⟨i, fun hij => ?_, hi⟩
      subst hij
      rcases hend with ⟨hfree, -⟩ | ⟨y, hy, hyk, -⟩
      · rw [hi] at hfree
        cases hfree
      · rw [hi] at hy
        cases hy
        exact hxk hyk
  have hmem (x : ε) : some x ∈ slots.set j (some e) ↔ x = e ∨ some x ∈ slots ∧ key x ≠ k := by
    rw [← helse, List.mem_iff_getElem?]
    constructor
    · rintro ⟨i, hi⟩
      by_cases hij : j = i
      · subst hij
        rw [List.getElem?_set_self hlt] at hi
        exact .inl (Option.some.inj (Option.some.inj hi)).symm
      · rw [List.getElem?_set_ne hij] at hi
        exact .inr ⟨i, fun h => hij h.symm, hi⟩
    · rintro (rfl | ⟨i, hij, hi⟩)
      · exact ⟨j, List.getElem?_set_self hlt⟩
      · exact ⟨i, by rw [List.getElem?_set_ne (Ne.symm hij), hi]⟩
  rw [lastPut_concat]
  dsimp only
  by_cases hk : k = k'
  · subst hk
    rw [if_pos rfl]
    constructor
    · intro hv
      exact ⟨e, (hmem e).mpr (.inl rfl), hkey, Option.some.inj hv⟩
    · rintro ⟨x, hx, hxk, rfl⟩
      rcases (hmem x).mp hx with rfl | ⟨-, hne⟩
      · rfl
      · exact absurd hxk hne
  · rw [if_neg hk, h.holds]
    constructor
    · rintro ⟨x, hx, rfl, hv⟩
      exact ⟨x, (hmem x).mpr (.inr ⟨hx, fun hxk => hk hxk.symm⟩), rfl, hv⟩
    · rintro ⟨x, hx, hxk, hv⟩
      rcases (hmem x).mp hx with rfl | ⟨hx, -⟩
      · exact absurd (hkey.symm.trans hxk) hk
      · exact ⟨x, hx, hxk, hv⟩

end Represents

end Tables

end Sf37.Run

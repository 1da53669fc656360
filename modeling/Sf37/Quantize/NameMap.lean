/-
Sf37.Quantize.NameMap — the hash map from names to the places of their entries.

`hmap_build` takes the first free slot behind the home of a key and compares no keys, so a
name that comes twice has two slots. `hmap_get` stops at the first slot with the key, or at a
free one. The sizes are numbers without an end; in the source they are of type `int`.

* `hmapCap_spec`: the table has more slots than keys.
* `walk_eq`: masking with `cap - 1` goes around the end of the table.
* `nameMap_first`: the map finds the first entry of a name.
-/
import Sf37.Quantize.Database
import Sf37.Run.FirstPut

namespace Sf37.Quantize.NameMap

open Sf37.Text Sf37.Run

/-! ## The source -/

/-- `hslot`: a key and its value, where there is a key. -/
abbrev HSlot := Option (Bytes × ℕ)

/-- `fnv1a_str` -/
def fnv1aStr (s : Bytes) : UInt64 :=
  s.foldl (fun h c => (h ^^^ c.toUInt64) * 1099511628211) 1469598103934665603

/-- The loop that doubles `cap` while it is below `n * 3`. -/
def capLoop (n : ℕ) : ℕ → ℕ → ℕ
  | 0, cap => cap
  | fuel + 1, cap => if cap < n * 3 then capLoop n fuel (cap * 2) else cap

def hmapCap (n : ℕ) : ℕ := capLoop n (n * 3) 1

/-- A loop over the slots from `p` on, to a free one or to an entry where it stops. Without a
result it does not end. -/
def walk (stop : Bytes × ℕ → Bool) (slots : List HSlot) : ℕ → ℕ → Option ℕ
  | 0, _ => none
  | fuel + 1, p =>
      match slots[p]? with
      | none => none
      | some none => some p
      | some (some e) =>
          if stop e then some p else walk stop slots fuel ((p + 1) &&& (slots.length - 1))

/-- A walk from `h & (cap - 1)` on. -/
def walkFrom (stop : Bytes × ℕ → Bool) (slots : List HSlot) (key : Bytes) : Option ℕ :=
  walk stop slots slots.length ((fnv1aStr key).toNat &&& (slots.length - 1))

/-- One turn of `hmap_build`. -/
def hmapPut (slots : List HSlot) (entry : Bytes × ℕ) : Option (List HSlot) :=
  (walkFrom (fun _ => false) slots entry.1).map fun p => slots.set p (some entry)

/-- `hmap_build` -/
def hmapBuild (keys : List Bytes) : Option (List HSlot) :=
  keys.zipIdx.foldlM hmapPut (List.replicate (hmapCap keys.length) none)

/-- `hmap_get`, with `none` for -1. -/
def hmapGet (slots : List HSlot) (key : Bytes) : Option (Option ℕ) :=
  (walkFrom (fun e => e.1 == key) slots key).map fun p => (slots[p]?.getD none).map Prod.snd

/-! ## The table -/

theorem capLoop_spec {n fuel cap k : ℕ} (hcap : cap = 2 ^ k) (hfuel : n * 3 ≤ cap + fuel) :
    n * 3 ≤ capLoop n fuel cap ∧ ∃ k, capLoop n fuel cap = 2 ^ k := by
  induction fuel generalizing cap k with
  | zero => exact ⟨hfuel, k, hcap⟩
  | succ fuel ih =>
    rw [capLoop]
    split
    · have hpos : 0 < cap := hcap ▸ Nat.two_pow_pos k
      exact ih (k := k + 1) (by rw [hcap, Nat.pow_succ]) (by omega)
    · rename_i hge
      exact ⟨Nat.le_of_not_lt hge, k, hcap⟩

/-- More slots than keys, and a power of two of them. -/
theorem hmapCap_spec (n : ℕ) : n < hmapCap n ∧ ∃ k, hmapCap n = 2 ^ k := by
  have hspec : n * 3 ≤ hmapCap n ∧ ∃ k, hmapCap n = 2 ^ k :=
    capLoop_spec (k := 0) rfl (Nat.le_add_left (n * 3) 1)
  obtain ⟨hle, k, hk⟩ := hspec
  have hpos : 0 < hmapCap n := hk ▸ Nat.two_pow_pos k
  exact ⟨by omega, k, hk⟩

/-- The walk of a table whose length is a power of two. -/
theorem walk_eq {k : ℕ} {slots : List HSlot} (hcap : slots.length = 2 ^ k)
    (stop : Bytes × ℕ → Bool) (fuel p : ℕ) :
    walk stop slots fuel p = probe (fun e => some (stop e)) slots fuel p := by
  induction fuel generalizing p with
  | zero => rfl
  | succ fuel ih =>
    have hnext : (p + 1) &&& (slots.length - 1) = (p + 1) % slots.length := by
      rw [hcap, Nat.and_two_pow_sub_one_eq_mod]
    rw [walk, probe, hnext, ih]
    cases slots[p]? with
    | none => rfl
    | some slot =>
      cases slot with
      | none => rfl
      | some e =>
        dsimp only
        cases stop e <;> rfl

theorem walkFrom_eq {k : ℕ} {slots : List HSlot} (hcap : slots.length = 2 ^ k)
    (stop : Bytes × ℕ → Bool) (key : Bytes) :
    walkFrom stop slots key =
      probe (fun e => some (stop e)) slots slots.length ((fnv1aStr key).toNat % slots.length) := by
  have hhome : (fnv1aStr key).toNat &&& (slots.length - 1) =
      (fnv1aStr key).toNat % slots.length := by
    rw [hcap, Nat.and_two_pow_sub_one_eq_mod]
  rw [walkFrom, walk_eq hcap, hhome]

/-- The table of some keys. -/
abbrev Keyed (keys : List Bytes) (slots : List HSlot) : Prop :=
  FirstPut (fun key => (fnv1aStr key).toNat) keys slots

/-- Keys put in one after the other. -/
theorem hmapPut_foldlM {k : ℕ} : ∀ (rest : List Bytes) {keys : List Bytes} {slots : List HSlot},
    Keyed keys slots → slots.length = 2 ^ k → (keys ++ rest).length < slots.length →
    ∃ slots', (rest.zipIdx keys.length).foldlM hmapPut slots = some slots' ∧
      slots'.length = slots.length ∧ Keyed (keys ++ rest) slots'
  | [], keys, slots, h, _, _ => ⟨slots, rfl, rfl, (List.append_nil keys).symm ▸ h⟩
  | key :: rest, keys, slots, h, hcap, hroom => by
    rw [List.length_append, List.length_cons] at hroom
    obtain ⟨j, hj, hput⟩ := h.put (by omega) key
    have hturn : hmapPut slots (key, keys.length) =
        some (slots.set j (some (key, keys.length))) := by
      rw [hmapPut, walkFrom_eq hcap, hj]
      rfl
    obtain ⟨slots', hrest, hlen, h'⟩ := hmapPut_foldlM rest hput (List.length_set.trans hcap) (by
      rw [List.length_append, List.length_append, List.length_singleton, List.length_set]
      omega)
    rw [List.length_append, List.length_singleton] at hrest
    rw [List.append_assoc] at h'
    refine ⟨slots', ?_, hlen.trans List.length_set, h'⟩
    rw [List.zipIdx_cons, List.foldlM_cons, hturn]
    exact hrest

/-- The map of some entries is made, and a look-up in it ends at the first entry of the name. -/
theorem nameMap_first {α : Type} (key : α → Bytes) (entries : List α) (name : Bytes) :
    ∃ slots place, hmapBuild (entries.map key) = some slots ∧ hmapGet slots name = some place ∧
      place = entries.findIdx? (fun e => key e == name) ∧
      (place.bind fun i => entries[i]?) = Quantize.hmapGet key entries name := by
  obtain ⟨hmore, k, hk⟩ := hmapCap_spec (entries.map key).length
  have hlen : (List.replicate (hmapCap (entries.map key).length) (none : HSlot)).length =
      hmapCap (entries.map key).length := List.length_replicate
  obtain ⟨slots, hbuild, hsame, h⟩ := hmapPut_foldlM (entries.map key)
    (FirstPut.nil (hmapCap (entries.map key).length)) (hlen.trans hk)
    (by rw [hlen]; exact hmore)
  have hsize : slots.length = 2 ^ k := hsame.trans (hlen.trans hk)
  obtain ⟨j, hj, hfirst⟩ := h.get (by rw [hsize, ← hk]; exact hmore) name
  refine ⟨slots, entries.findIdx? fun e => key e == name, hbuild, ?_, rfl, ?_⟩
  · rw [hmapGet, walkFrom_eq hsize, hj, Option.map_some, hfirst, List.nil_append,
      List.findIdx?_map]
    rfl
  · rw [Quantize.hmapGet, List.find?_eq_bind_findIdx?_getElem?]

end Sf37.Quantize.NameMap

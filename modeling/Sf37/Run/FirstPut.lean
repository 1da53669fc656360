/-
Sf37.Run.FirstPut — tables with open addressing that are filled without comparing keys.

Every key is put into the first free slot behind its home, with its place in the order of the
keys. A key that comes again takes one more slot, behind the one it has, so a walk for it meets
the first.

* `FirstPut`: what is in front of an entry on the way from its home.
* `FirstPut.walk`: where a walk ends, and what it has passed.
* `FirstPut.put`, `FirstPut.get`: one key more, and a walk for a key.
-/
import Sf37.Run.Mutex
import Sf37.Run.Probing

namespace Sf37.Run

section FirstPut

variable {κ : Type} (home : κ → ℕ)

/-- The keys that have been put into a table, in their order. -/
structure FirstPut (keys : List κ) (slots : List (Option (κ × ℕ))) : Prop where
  /-- A key is reached from its home over entries, and over no later one of its own. -/
  reached : ∀ i k, keys[i]? = some k → ∃ d, slotAt slots (home k) d = some (some (k, i)) ∧
    ∀ d' < d, ∃ e, slotAt slots (home k) d' = some (some e) ∧ (e.1 = k → e.2 < i)
  stored : ∀ k i, some (k, i) ∈ slots → keys[i]? = some k
  count : slots.countP Option.isSome = keys.length

variable {home} {keys : List κ} {slots : List (Option (κ × ℕ))}

theorem FirstPut.nil (n : ℕ) : FirstPut home [] (List.replicate n none) where
  reached i k hk := by cases hk
  stored k i hmem := by cases (List.mem_replicate.mp hmem).2
  count := by simp [List.countP_replicate]

theorem FirstPut.exists_free (h : FirstPut home keys slots) (hroom : keys.length < slots.length) :
    none ∈ slots := by
  by_contra hfull
  have hall : slots.countP Option.isSome = slots.length := by
    refine List.countP_eq_length.mpr fun slot hslot => ?_
    cases slot with
    | none => exact absurd hslot hfull
    | some e => rfl
  rw [h.count] at hall
  omega

/-- Where a walk ends, and what it has passed. -/
theorem FirstPut.walk (h : FirstPut home keys slots) (hroom : keys.length < slots.length)
    (stop : κ × ℕ → Bool) (a : ℕ) :
    ∃ d, probe (fun e => some (stop e)) slots slots.length (a % slots.length) =
        some ((a + d) % slots.length) ∧
      (∀ d' < d, ∃ e, slotAt slots a d' = some (some e) ∧ stop e = false) ∧
      (slotAt slots a d = some none ∨ ∃ e, slotAt slots a d = some (some e) ∧ stop e = true) := by
  have hends : ∃ j, probe (fun e => some (stop e)) slots slots.length (a % slots.length) = some j :=
    probe_total (fun _ _ => rfl) (h.exists_free hroom) a
  obtain ⟨j, hj⟩ := hends
  obtain ⟨d, -, -, hat, hpassed, hend⟩ := probe_some (d := 0) hj
  refine ⟨d, by rw [hj, hat], fun d' hd => ?_, ?_⟩
  · obtain ⟨e, he, hstop⟩ := hpassed d' (Nat.zero_le d') hd
    exact ⟨e, he, Option.some.inj hstop⟩
  · exact hend.imp id fun ⟨e, he, hstop⟩ => ⟨e, he, Option.some.inj hstop⟩

/-- An entry stays where it is when a free slot is taken. -/
theorem slotAt_set {a d j : ℕ} (hfree : slots[j]? = some none) (x : Option (κ × ℕ)) {e : κ × ℕ}
    (hat : slotAt slots a d = some (some e)) : slotAt (slots.set j x) a d = some (some e) := by
  rw [slotAt] at hat
  rw [slotAt, List.length_set, List.getElem?_set_ne, hat]
  rintro rfl
  rw [hfree] at hat
  cases hat

/-- One key more, in the slot where a walk that stops at no entry ends. -/
theorem FirstPut.put (h : FirstPut home keys slots) (hroom : keys.length < slots.length) (k : κ) :
    ∃ j, probe (fun _ => some false) slots slots.length (home k % slots.length) = some j ∧
      FirstPut home (keys ++ [k]) (slots.set j (some (k, keys.length))) := by
  obtain ⟨d, hwalk, hpassed, hend⟩ := h.walk hroom (fun _ => false) (home k)
  have hfree : slots[(home k + d) % slots.length]? = some none := by
    rcases hend with hat | ⟨e, -, hstop⟩
    · exact hat
    · cases hstop
  have hlt := (List.getElem?_eq_some_iff.mp hfree).1
  refine ⟨(home k + d) % slots.length, hwalk, fun i x hx => ?_, fun x i hmem => ?_, ?_⟩
  · rw [List.getElem?_append] at hx
    split at hx
    · obtain ⟨d', hd', hbefore⟩ := h.reached i x hx
      refine ⟨d', slotAt_set hfree _ hd', fun d'' hlt' => ?_⟩
      obtain ⟨e, he, hearlier⟩ := hbefore d'' hlt'
      exact ⟨e, slotAt_set hfree _ he, hearlier⟩
    · rename_i hge
      obtain ⟨hi, rfl⟩ : i - keys.length = 0 ∧ k = x := by
        rw [List.getElem?_singleton] at hx
        split at hx
        · exact ⟨‹_›, Option.some.inj hx⟩
        · cases hx
      obtain rfl : i = keys.length := by omega
      refine ⟨d, ?_, fun d' hd' => ?_⟩
      · rw [slotAt, List.length_set, List.getElem?_set_self hlt]
      · obtain ⟨e, he, -⟩ := hpassed d' hd'
        refine ⟨e, slotAt_set hfree _ he, fun _ => ?_⟩
        have hold := h.stored e.1 e.2 (List.mem_of_getElem? he)
        exact (List.getElem?_eq_some_iff.mp hold).1
  · rcases List.mem_or_eq_of_mem_set hmem with hold | hnew
    · have hx := h.stored x i hold
      rw [List.getElem?_append_left (List.getElem?_eq_some_iff.mp hx).1, hx]
    · cases hnew
      rw [List.getElem?_append_right (Nat.le_refl _), Nat.sub_self]
      rfl
  · have hcount := countP_set (b := some (k, keys.length)) Option.isSome hfree
    rw [h.count] at hcount
    rw [List.length_append]
    exact hcount

/-- A walk for a key comes to the first of it. -/
theorem FirstPut.get [BEq κ] [LawfulBEq κ] (h : FirstPut home keys slots)
    (hroom : keys.length < slots.length) (k : κ) :
    ∃ j, probe (fun e => some (e.1 == k)) slots slots.length (home k % slots.length) = some j ∧
      (slots[j]?.getD none).map Prod.snd = keys.findIdx? (· == k) := by
  obtain ⟨d, hwalk, hpassed, hend⟩ := h.walk hroom (fun e => e.1 == k) (home k)
  refine ⟨(home k + d) % slots.length, hwalk, ?_⟩
  -- no entry of the key is in front of the end of the walk
  have hbehind : ∀ d' e, slotAt slots (home k) d' = some (some e) → e.1 = k → d ≤ d' := by
    intro d' e he hkey
    by_contra hlt
    obtain ⟨e', he', hother⟩ := hpassed d' (Nat.lt_of_not_le hlt)
    rw [he] at he'
    cases he'
    simp [hkey] at hother
  rcases hend with hfree | ⟨⟨x, i⟩, he, hstop⟩
  · have hnone : keys.findIdx? (· == k) = none := by
      rw [List.findIdx?_eq_none_iff]
      intro x hx
      by_contra hfound
      obtain rfl : x = k := by simpa using hfound
      obtain ⟨i, hi⟩ := List.mem_iff_getElem?.mp hx
      obtain ⟨d', hat, hbefore⟩ := h.reached i x hi
      rcases Nat.eq_or_lt_of_le (hbehind d' _ hat rfl) with rfl | hlt
      · rw [hat] at hfree
        cases hfree
      · obtain ⟨e, he, -⟩ := hbefore d hlt
        rw [he] at hfree
        cases hfree
    have hat : slots[(home k + d) % slots.length]? = some none := hfree
    rw [hnone, hat]
    rfl
  · obtain rfl : x = k := by simpa using hstop
    have hfirst : keys.findIdx? (· == x) = some i := by
      have hi := h.stored x i (List.mem_of_getElem? he)
      obtain ⟨hlt, hget⟩ := List.getElem?_eq_some_iff.mp hi
      rw [List.findIdx?_eq_some_iff_getElem]
      refine ⟨hlt, by simp [hget], fun i' hi' => ?_⟩
      by_contra hsame
      have hx' : keys[i']? = some x := by
        rw [List.getElem?_eq_getElem (Nat.lt_trans hi' hlt)]
        simpa using hsame
      obtain ⟨d', hat, hbefore⟩ := h.reached i' x hx'
      rcases Nat.eq_or_lt_of_le (hbehind d' _ hat rfl) with rfl | hd
      · rw [hat] at he
        cases he
        omega
      · obtain ⟨e', he', hearlier⟩ := hbefore d hd
        rw [he] at he'
        cases he'
        exact absurd (hearlier rfl) (Nat.not_lt_of_lt hi')
    have hat : slots[(home x + d) % slots.length]? = some (some (x, i)) := he
    rw [hfirst, hat]
    rfl

end FirstPut

end Sf37.Run

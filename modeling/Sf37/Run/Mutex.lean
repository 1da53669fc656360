/-
Sf37.Run.Mutex — which party of a machine holds a mutex.

The parties that stand in a locked part of their code are the owner of the mutex, and no
other. A machine shows this for every step by one of three rules: the step leaves the locked
parts as they are, takes the mutex when it is free, or gives it back. Where the parties are a
list of the places they stand at, the three rules are one.

* `Owns.keep`, `Owns.take`, `Owns.release`: the three rules.
* `Owns.unique`: no two parties stand in a locked part.
* `Owns.move`: a step of one party of a list.
* `countP_le_one`: how many of a list stand in a locked part.
-/
import Mathlib

namespace Sf37.Run

section Owner

variable {ι : Type}

/-- The party that owns the mutex is the one in a locked part. -/
def Owns (owner : Option ι) (locked : ι → Prop) : Prop := ∀ q, owner = some q ↔ locked q

theorem Owns.keep {owner : Option ι} {locked locked' : ι → Prop} (h : Owns owner locked)
    (hsame : ∀ q, locked' q ↔ locked q) : Owns owner locked' :=
  fun q => (h q).trans (hsame q).symm

theorem Owns.take {locked locked' : ι → Prop} {p : ι} (h : Owns none locked)
    (hp : locked' p) (hsame : ∀ q, q ≠ p → (locked' q ↔ locked q)) : Owns (some p) locked' := by
  intro q
  by_cases hq : q = p
  · subst hq
    exact ⟨fun _ => hp, fun _ => rfl⟩
  · rw [hsame q hq, ← h q]
    exact ⟨fun heq => absurd (Option.some.inj heq).symm hq, fun heq => absurd heq (by simp)⟩

theorem Owns.release {owner : Option ι} {locked locked' : ι → Prop} {p : ι} (h : Owns owner locked)
    (hp : locked p) (hp' : ¬ locked' p) (hsame : ∀ q, q ≠ p → (locked' q ↔ locked q)) :
    Owns none locked' := by
  intro q
  refine ⟨fun heq => absurd heq (by simp), fun hq => ?_⟩
  by_cases heq : q = p
  · exact absurd (heq ▸ hq) hp'
  · have howner := (h q).mpr ((hsame q heq).mp hq)
    rw [(h p).mpr hp] at howner
    exact absurd (Option.some.inj howner).symm heq

theorem Owns.unique {owner : Option ι} {locked : ι → Prop} (h : Owns owner locked) {p q : ι}
    (hp : locked p) (hq : locked q) : p = q :=
  Option.some.inj (((h p).mpr hp).symm.trans ((h q).mpr hq))

theorem Owns.free {owner : Option ι} {locked : ι → Prop} (h : Owns owner locked)
    (hnone : ∀ q, ¬ locked q) : owner = none :=
  Option.eq_none_iff_forall_ne_some.mpr fun q hq => hnone q ((h q).mp hq)

end Owner

/-! ## Parties in a list -/

section Places

variable {α : Type} {p : α → Prop} {ws : List α} {i : ℕ} {a b : α}

/-- The party stands at a place of the kind. -/
def Stands (p : α → Prop) (ws : List α) (i : ℕ) : Prop := ∃ a, ws[i]? = some a ∧ p a

theorem stands_at (hat : ws[i]? = some a) : Stands p ws i ↔ p a := by
  rw [Stands, hat]
  exact ⟨fun ⟨c, hc, hp⟩ => Option.some.inj hc ▸ hp, fun hp => ⟨a, rfl, hp⟩⟩

theorem set_at (hat : ws[i]? = some a) : (ws.set i b)[i]? = some b :=
  List.getElem?_set_self (List.getElem?_eq_some_iff.mp hat).1

theorem stands_set_other {j : ℕ} (hj : j ≠ i) : Stands p (ws.set i b) j ↔ Stands p ws j := by
  rw [Stands, List.getElem?_set_ne (Ne.symm hj), Stands]

theorem stands_set_same (hat : ws[i]? = some a) (hsame : p b ↔ p a) (j : ℕ) :
    Stands p (ws.set i b) j ↔ Stands p ws j := by
  by_cases hj : j = i
  · subst hj
    rw [stands_at (set_at hat), stands_at hat, hsame]
  · exact stands_set_other hj

/-- What a step of a party does with a mutex. -/
inductive LockMove (i : ℕ) (pa pb : Prop) : Option ℕ → Option ℕ → Prop where
  | keeps {owner : Option ℕ} (hsame : pb ↔ pa) : LockMove i pa pb owner owner
  | takes (hb : pb) : LockMove i pa pb none (some i)
  | gives {owner : Option ℕ} (ha : pa) (hb : ¬ pb) : LockMove i pa pb owner none

theorem Owns.move {owner owner' : Option ℕ} (h : Owns owner (Stands p ws))
    (hat : ws[i]? = some a) (hmove : LockMove i (p a) (p b) owner owner') :
    Owns owner' (Stands p (ws.set i b)) := by
  cases hmove with
  | keeps hsame => exact h.keep (stands_set_same hat hsame)
  | takes hb => exact h.take ((stands_at (set_at hat)).mpr hb) fun j hj => stands_set_other hj
  | gives ha hb =>
    exact h.release ((stands_at hat).mpr ha) (fun hin => hb ((stands_at (set_at hat)).mp hin))
      fun j hj => stands_set_other hj

/-- A sum over the places of the parties, when one of them goes on. -/
theorem sum_map_set (f : α → ℕ) (hat : ws[i]? = some a) :
    ((ws.set i b).map f).sum + f a = (ws.map f).sum + f b := by
  obtain ⟨hlt, hget⟩ := List.getElem?_eq_some_iff.mp hat
  have hsplit : ws = ws.take i ++ a :: ws.drop (i + 1) := by
    rw [← hget, ← List.drop_eq_getElem_cons hlt, List.take_append_drop]
  have hset : ws.set i b = ws.take i ++ b :: ws.drop (i + 1) :=
    List.set_eq_take_append_cons_drop.trans (if_pos hlt)
  rw [hset]
  conv_rhs => rw [hsplit]
  simp only [List.map_append, List.map_cons, List.sum_append, List.sum_cons]
  omega

/-- And a count of them. -/
theorem countP_set (f : α → Bool) (hat : ws[i]? = some a) :
    (ws.set i b).countP f + (f a).toNat = ws.countP f + (f b).toNat := by
  have hsum : ∀ l : List α, l.countP f = (l.map fun c => (f c).toNat).sum := by
    intro l
    induction l with
    | nil => rfl
    | cons c l ih =>
      rw [List.countP_cons, ih, List.map_cons, List.sum_cons]
      cases f c
      · exact (Nat.zero_add _).symm
      · exact Nat.add_comm _ _
  rw [hsum, hsum]
  exact sum_map_set (fun c => (f c).toNat) hat

/-- Where two parties never stand in a part of the code at once, it holds one at most. -/
theorem countP_le_one {f : α → Bool}
    (h : ∀ i j, Stands (f · = true) ws i → Stands (f · = true) ws j → i = j) : ws.countP f ≤ 1 := by
  induction ws with
  | nil => exact Nat.zero_le _
  | cons a ws ih =>
    rw [List.countP_cons]
    by_cases ha : f a = true
    · have hnone : ws.countP f = 0 := by
        refine List.countP_eq_zero.mpr fun b hb hfb => ?_
        obtain ⟨j, hj⟩ := List.mem_iff_getElem?.mp hb
        exact absurd (h 0 (j + 1) ⟨a, rfl, ha⟩ ⟨b, hj, hfb⟩) (by omega)
      rw [hnone, if_pos ha]
    · rw [if_neg ha]
      refine ih fun i j hi hj => ?_
      exact Nat.succ.inj (h (i + 1) (j + 1) hi hj)

end Places

end Sf37.Run

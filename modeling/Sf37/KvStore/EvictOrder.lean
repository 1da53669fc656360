/-
Sf37.KvStore.EvictOrder — which files an eviction pass removes, and how many.

The scores may be any total preorder that stays as it is during the pass.

* `lowestScore_goesFirst`: the entry that a turn chooses may go before all others.
* `evictLoop_fuel`: the loop ends by itself.
* `evictLoop_trims`: the loop is one that trims the list of entries to the target.
* `evict_exact`: what this says of a pass.
* `evict_noBudget`: a budget of zero is none, and nothing is removed.
-/
import Sf37.KvStore.Evict
import Sf37.Run.Trim
import Mathlib.Algebra.GroupWithZero.Nat

namespace Sf37.KvStore

open Sf37.Text Sf37.Store Sf37.Run
open Sf37.Server (lePut32)

/-! ## The order -/

/-- The scores are a total preorder: `a` is at most `b` where `b` is not below `a`. -/
structure Scoring.TotalPreorder (sc : Scoring) : Prop where
  total : ∀ a b, sc.lt a b = true → sc.lt b a = false
  trans : ∀ a b c, sc.lt b a = false → sc.lt c b = false → sc.lt c a = false
  eq_iff : ∀ a b, sc.eq a b = true ↔ sc.lt a b = false ∧ sc.lt b a = false

/-- An entry may go before another one: its score is not above the other's, and among equal
scores it is not the one that was used later. -/
def Scoring.GoesFirst (sc : Scoring) (score : Entry → sc.Score) (v x : Entry) : Prop :=
  sc.lt (score x) (score v) = false ∧
    (sc.eq (score x) (score v) = true → v.lastUsed ≤ x.lastUsed)

variable {sc : Scoring} {score : Entry → sc.Score}

theorem Scoring.TotalPreorder.irrefl (hsc : sc.TotalPreorder) (a : sc.Score) :
    sc.lt a a = false := by
  cases h : sc.lt a a with
  | false => rfl
  | true => exact h.symm.trans (hsc.total a a h)

theorem Scoring.GoesFirst.refl (hsc : sc.TotalPreorder) (v : Entry) : sc.GoesFirst score v v :=
  ⟨hsc.irrefl _, fun _ => Nat.le_refl _⟩

theorem Scoring.GoesFirst.trans (hsc : sc.TotalPreorder) {u v x : Entry}
    (huv : sc.GoesFirst score u v) (hvx : sc.GoesFirst score v x) : sc.GoesFirst score u x := by
  refine ⟨hsc.trans _ _ _ huv.1 hvx.1, fun heq => ?_⟩
  -- where the ends are equal, all three are
  obtain ⟨hxu, hux⟩ := (hsc.eq_iff _ _).mp heq
  have hvu : sc.eq (score v) (score u) = true :=
    (hsc.eq_iff _ _).mpr ⟨huv.1, hsc.trans _ _ _ hvx.1 hux⟩
  have hxv : sc.eq (score x) (score v) = true :=
    (hsc.eq_iff _ _).mpr ⟨hvx.1, hsc.trans _ _ _ hux huv.1⟩
  exact Nat.le_trans (huv.2 hvu) (hvx.2 hxv)

/-- The test of a turn decides which of two entries may go first. -/
theorem goesFirst_of_taken (hsc : sc.TotalPreorder) {e victim : Entry}
    (h : sc.lt (score e) (score victim) = true ∨
      (sc.eq (score e) (score victim) = true ∧ e.lastUsed < victim.lastUsed)) :
    sc.GoesFirst score e victim := by
  rcases h with hlt | ⟨heq, hused⟩
  · refine ⟨hsc.total _ _ hlt, fun heq => ?_⟩
    have hno := ((hsc.eq_iff _ _).mp heq).2
    rw [hlt] at hno
    nomatch hno
  · exact ⟨((hsc.eq_iff _ _).mp heq).2, fun _ => Nat.le_of_lt hused⟩

theorem goesFirst_of_not_taken {e victim : Entry}
    (h : ¬ (sc.lt (score e) (score victim) = true ∨
      (sc.eq (score e) (score victim) = true ∧ e.lastUsed < victim.lastUsed))) :
    sc.GoesFirst score victim e := by
  obtain ⟨hlt, hused⟩ := not_or.mp h
  refine ⟨Bool.eq_false_iff.mpr hlt, fun heq => ?_⟩
  exact Nat.le_of_not_lt fun hless => hused ⟨heq, hless⟩

/-- The entry that a turn chooses may go before all others. -/
theorem lowestScore_goesFirst (hsc : sc.TotalPreorder) (score : Entry → sc.Score)
    (victim : Entry) (es : List Entry) :
    ∀ x ∈ victim :: es, sc.GoesFirst score (lowestScore sc score victim es) x := by
  induction es generalizing victim with
  | nil =>
    intro x hx
    obtain rfl := List.mem_singleton.mp hx
    exact .refl hsc x
  | cons e es ih =>
    rw [lowestScore]
    intro x hx
    split
    next htaken =>
      have hfirst := ih e
      rcases List.mem_cons.mp hx with rfl | hx
      · exact (hfirst e List.mem_cons_self).trans hsc (goesFirst_of_taken hsc htaken)
      · exact hfirst x hx
    next htaken =>
      have hfirst := ih victim
      have hvictim := hfirst victim List.mem_cons_self
      rcases List.mem_cons.mp hx with rfl | hx
      · exact hvictim
      rcases List.mem_cons.mp hx with rfl | hx
      · exact hvictim.trans hsc (goesFirst_of_not_taken htaken)
      · exact hfirst x (List.mem_cons_of_mem _ hx)

/-! ## The loop -/

/-- The loop ends by itself: every turn takes an entry off the list. -/
theorem evictLoop_fuel (unlinkOk : Bytes → Bool) (target : Nat) {fuel : Nat} (total : Nat)
    {es : List Entry} (d : Directory) (h : es.length ≤ fuel) :
    evictLoop sc score unlinkOk target fuel total es d =
      evictLoop sc score unlinkOk target es.length total es d := by
  induction fuel generalizing total es d with
  | zero => rw [Nat.le_zero.mp h]
  | succ fuel ih =>
    cases es with
    | nil => rfl
    | cons e es =>
      have hlen := List.length_erase_of_mem (lowestScore_mem sc score e es)
      rw [List.length_cons, Nat.add_sub_cancel] at hlen
      rw [List.length_cons] at h
      have hless : ((e :: es).erase (lowestScore sc score e es)).length ≤ fuel := by omega
      have hleft := fun total d => ih total d hless
      simp only [hlen] at hleft
      rw [List.length_cons, evictLoop, evictLoop]
      simp only [hleft]

/-- The loop trims the list of entries: it is done with the right sum before each turn. -/
theorem evictLoop_trims (hsc : sc.TotalPreorder) (score : Entry → sc.Score)
    {unlinkOk : Bytes → Bool} (hunlink : ∀ n, unlinkOk n = true) (target : Nat) {fuel : Nat}
    {es : List Entry} {d : Directory} (hfuel : es.length ≤ fuel)
    (hes : es.Perm (kvCacheRefresh d)) :
    let r := evictLoop sc score unlinkOk target fuel (es.map Entry.fileSize).sum es d
    ∃ removed : List Entry, r.victims = removed.map Entry.path ∧
      Trims (sc.GoesFirst score) Entry.fileSize target es removed (kvCacheRefresh r.dir) := by
  induction fuel generalizing es d with
  | zero =>
    obtain rfl := List.length_eq_zero_iff.mp (Nat.le_zero.mp hfuel)
    exact ⟨[], rfl, .stop hes (by simp [← hes.nil_eq, evictLoop])⟩
  | succ fuel ih =>
    cases es with
    | nil => exact ⟨[], rfl, .stop hes (by simp [← hes.nil_eq, evictLoop])⟩
    | cons e es =>
      rw [evictLoop]
      by_cases hover : ((e :: es).map Entry.fileSize).sum ≤ target
      · rw [if_pos hover]
        exact ⟨[], rfl, .stop hes (by rwa [← (hes.map Entry.fileSize).sum_eq])⟩
      rw [if_neg hover, if_pos (hunlink _)]
      have hmem := lowestScore_mem sc score e es
      have hfirst := lowestScore_goesFirst hsc score e es
      obtain ⟨victim, hv⟩ : ∃ v, v = lowestScore sc score e es := ⟨_, rfl⟩
      rw [← hv] at hmem hfirst ⊢
      have hlen := List.length_erase_of_mem hmem
      have hrest := (hes.erase victim).trans (refresh_unlink (hes.mem_iff.mp hmem))
      have hless : ((e :: es).erase victim).length ≤ fuel := by
        rw [hlen, List.length_cons] at *
        omega
      obtain ⟨removed, hpaths, htrims⟩ := ih hless hrest
      rw [sum_erase hmem, Nat.add_sub_cancel_left]
      refine ⟨victim :: removed, congrArg (victim.path :: ·) hpaths, ?_⟩
      refine .take (Nat.lt_of_not_le hover) (List.perm_cons_erase hmem) (fun x hx => ?_) htrims
      exact hfirst x (List.mem_of_mem_erase hx)

/-! ## A pass -/

/-- What a pass does where every unlink succeeds: it ends, what it removes and what is left
are what there was, what is left fits next to the bytes to come, what it removes may go before
what is left and goes in this order, and nothing goes once the rest would fit. -/
theorem evict_exact {kc : KvCache} (hsc : sc.TotalPreorder) {unlinkOk : Bytes → Bool} (now : Nat)
    {extra : Nat} (incoming : Option EvictionContext) {d : Directory}
    (hunlink : ∀ n, unlinkOk n = true) (henabled : kc.enabled = true) (hbudget : 0 < kc.budgetBytes)
    (hextra : extra ≤ kc.budgetBytes) (hd : totalBytes d < 2 ^ 64) :
    let r := evict kc sc unlinkOk now extra incoming d
    let score := fun e => sc.score e now incoming
    let target := kc.budgetBytes - extra
    let left := kvCacheRefresh r.dir
    (∀ fuel, (kvCacheRefresh d).length ≤ fuel →
        evictLoop sc score unlinkOk target fuel (totalBytes d) (kvCacheRefresh d) d = r) ∧
      ((left.map Entry.fileSize).sum ≤ target ∨ left = []) ∧
      ∃ removed : List Entry,
        r.victims = removed.map Entry.path ∧ (removed ++ left).Perm (kvCacheRefresh d) ∧
          removed.Pairwise (sc.GoesFirst score) ∧
          (∀ v ∈ removed, ∀ x ∈ left, sc.GoesFirst score v x) ∧
          ∀ gone v later, removed = gone ++ v :: later →
            target < ((v :: later ++ left).map Entry.fileSize).sum := by
  have hsum := sum_refresh d
  have hevict : evict kc sc unlinkOk now extra incoming d =
      evictLoop sc (fun e => sc.score e now incoming) unlinkOk (kc.budgetBytes - extra)
        (kvCacheRefresh d).length ((kvCacheRefresh d).map Entry.fileSize).sum
        (kvCacheRefresh d) d := by
    rw [evict, if_neg (by simp [henabled]; omega), if_neg (by omega)]
    dsimp only
    rw [hsum, Nat.mod_eq_of_lt hd]
  intro r score target left
  obtain ⟨removed, hpaths, htrims⟩ := evictLoop_trims hsc score hunlink target
    (Nat.le_refl _) (List.Perm.refl (kvCacheRefresh d))
  rw [← hevict] at hpaths htrims
  refine ⟨fun fuel hfuel => ?_, .inl htrims.fits, removed, hpaths, htrims.perm, htrims.pairwise,
    htrims.first, fun gone v later => htrims.needed⟩
  rw [evictLoop_fuel unlinkOk target _ d hfuel, ← hsum]
  exact hevict.symm

/-! ## Small stores -/

/-- A checkpoint file without text and payload, used at a time. -/
def bareFile (name : UInt8) (lastUsed : Nat) : File where
  name := List.replicate 40 name ++ bytes ".kv"
  bytes := fillHeader
    { quantBits := kvstoreQuantBits, modelId := kvstoreModelId, reason := 1, extFlags := 0,
      tokens := 1, hits := 0, ctxSize := 16, createdAt := 1, lastUsed := lastUsed,
      payloadBytes := 0, textBytes := 0 } ++ lePut32 0

/-- Two such files. -/
def twoBareFiles : Directory where
  files := [bareFile 0x61 9, bareFile 0x62 7]
  unique := (by decide : ([bareFile 0x61 9, bareFile 0x62 7].map File.name).Nodup)

/-- All scores equal. -/
def Scoring.level : Scoring where
  Score := Unit
  score := fun _ _ _ => ()
  lt := fun _ _ => false
  eq := fun _ _ => true

theorem Scoring.level_totalPreorder : Scoring.level.TotalPreorder :=
  ⟨nofun, fun _ _ _ _ _ => rfl, fun _ _ => ⟨fun _ => ⟨rfl, rfl⟩, fun _ => rfl⟩⟩

/-- A store with a budget. -/
def KvCache.ofBudget (budgetBytes : Nat) : KvCache where
  enabled := true
  budgetBytes := budgetBytes
  rejectDifferentQuant := false
  minTokens := 1
  coldMaxTokens := 0
  continuedLastStoreTokens := 0

theorem evict_exact_twoBareFiles :
    (evict (.ofBudget 60) .level (fun _ => true) 9 0 none twoBareFiles).victims =
        [(bareFile 0x62 7).name] ∧
      (((kvCacheRefresh (evict (.ofBudget 60) .level (fun _ => true) 9 0 none twoBareFiles).dir).map
          Entry.fileSize).sum ≤ 60 ∨
        kvCacheRefresh (evict (.ofBudget 60) .level (fun _ => true) 9 0 none twoBareFiles).dir =
          []) :=
  ⟨by decide,
    (evict_exact Scoring.level_totalPreorder 9 none (fun _ => rfl)
      (rfl : (KvCache.ofBudget 60).enabled = true) (by decide) (by decide) (by decide)).2.1⟩

/-- A budget of zero is none: nothing is removed. -/
theorem evict_noBudget :
    ¬ (((kvCacheRefresh (evict (.ofBudget 0) .level (fun _ => true) 9 0 none twoBareFiles).dir).map
          Entry.fileSize).sum ≤ (KvCache.ofBudget 0).budgetBytes - 0 ∨
        kvCacheRefresh (evict (.ofBudget 0) .level (fun _ => true) 9 0 none twoBareFiles).dir =
          []) := by
  decide

end Sf37.KvStore

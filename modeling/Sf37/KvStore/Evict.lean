/-
Sf37.KvStore.Evict — the list of a store's files and the pass that removes some of
them to make room.

The scores are doubles: a pass takes the score of an entry and the two comparisons as
they are.

* `Evicted.Frame`, `evict_frame`, `evict_victims`: a pass only removes files, and tells which.
* `totalBytes_evict_le`: where every unlink succeeds, what is left fits next to what is
  to come.
-/
import Sf37.KvStore.Header
import Mathlib.Algebra.Order.BigOperators.Group.List
import Mathlib.Data.List.Perm.Subperm
import Mathlib.Algebra.GroupWithZero.Nat

namespace Sf37.KvStore

open Sf37.Text Sf37.Store

/-! ## The store -/

/-- `sf37_kvstore`, with the options its functions here read. The list of entries is
made anew by every function that looks at it. -/
structure KvCache where
  enabled : Bool
  budgetBytes : Nat
  rejectDifferentQuant : Bool
  minTokens : Int
  coldMaxTokens : Int
  continuedLastStoreTokens : Nat
  deriving DecidableEq, Repr

/-- `sf37_kvstore_eviction_context`. -/
structure EvictionContext where
  text : Bytes
  modelId : UInt8
  quantBits : UInt8
  ctxSize : Nat
  rejectDifferentQuant : Bool
  deriving DecidableEq, Repr

/-- `sf37_kvstore_entry_eviction_score` of an entry at a time, before an incoming file,
and how scores compare. -/
structure Scoring where
  Score : Type
  score : Entry → Nat → Option EvictionContext → Score
  lt : Score → Score → Bool
  eq : Score → Score → Bool

/-- `kv_cache_refresh`. -/
def kvCacheRefresh (d : Directory) : List Entry := d.files.filterMap listedEntry

/-- The size of a file that is a valid checkpoint, nothing for another. -/
def entryBytes (f : File) : Nat :=
  match listedEntry f with
  | none => 0
  | some e => e.fileSize

/-- The size of all valid checkpoint files. -/
def totalBytes (d : Directory) : Nat := d.weight entryBytes

theorem entryBytes_le (f : File) : entryBytes f ≤ f.bytes.length := by
  rw [entryBytes]
  split
  · exact Nat.zero_le _
  next e he => exact Nat.le_of_eq (readEntryFile_spec (listedEntry_spec he).2).2.2.1

theorem entryBytes_of_listed {f : File} {e : Entry} (h : listedEntry f = some e) :
    entryBytes f = f.bytes.length := by
  rw [entryBytes, h]
  exact (readEntryFile_spec (listedEntry_spec h).2).2.2.1

theorem entryBytes_of_name {f : File} (h : f.name.length ≠ 43) : entryBytes f = 0 := by
  rw [entryBytes, listedEntry, shaHexName_of_length h]
  rfl

/-! ## The eviction pass -/

/-- What is left of a directory after a pass, and the names it removed. -/
structure Evicted where
  dir : Directory
  victims : List Bytes

/-- The entry to go next: the lowest score, the least recently used of equal ones. -/
def lowestScore (sc : Scoring) (score : Entry → sc.Score) : Entry → List Entry → Entry
  | victim, [] => victim
  | victim, e :: es =>
      if sc.lt (score e) (score victim) ∨
          (sc.eq (score e) (score victim) ∧ e.lastUsed < victim.lastUsed) then
        lowestScore sc score e es
      else lowestScore sc score victim es

/-- The loop of `sf37_kvstore_evict`; each turn takes one entry off the list. -/
def evictLoop (sc : Scoring) (score : Entry → sc.Score) (unlinkOk : Bytes → Bool)
    (target : Nat) : Nat → Nat → List Entry → Directory → Evicted
  | 0, _, _, d => ⟨d, []⟩
  | _ + 1, _, [], d => ⟨d, []⟩
  | fuel + 1, total, e :: es, d =>
      if total ≤ target then ⟨d, []⟩
      else
        let victim := lowestScore sc score e es
        let left := (e :: es).erase victim
        if unlinkOk victim.path then
          let r := evictLoop sc score unlinkOk target fuel (total - victim.fileSize) left
            (d.unlink victim.path)
          { r with victims := victim.path :: r.victims }
        else evictLoop sc score unlinkOk target fuel 0 left d

/-- `sf37_kvstore_evict`, at a time. -/
def evict (kc : KvCache) (sc : Scoring) (unlinkOk : Bytes → Bool) (now : Nat) (extraBytes : Nat)
    (incoming : Option EvictionContext) (d : Directory) : Evicted :=
  if ¬ kc.enabled ∨ kc.budgetBytes = 0 then ⟨d, []⟩
  else if kc.budgetBytes < extraBytes then ⟨d, []⟩
  else
    let entry := kvCacheRefresh d
    evictLoop sc (fun e => sc.score e now incoming) unlinkOk (kc.budgetBytes - extraBytes)
      entry.length ((entry.map Entry.fileSize).sum % 2 ^ 64) entry d

/-! ## What a pass does to the directory -/

/-- A pass removed the files under the names it tells, and nothing else. -/
structure Evicted.Frame (r : Evicted) (d : Directory) : Prop where
  sub : ∀ f ∈ r.dir.files, f ∈ d.files
  keep : ∀ f ∈ d.files, f.name ∉ r.victims → f ∈ r.dir.files
  gone : ∀ f ∈ r.dir.files, f.name ∉ r.victims

theorem Evicted.Frame.none (d : Directory) : Evicted.Frame ⟨d, []⟩ d :=
  ⟨fun _ h => h, fun _ h _ => h, fun _ _ => List.not_mem_nil⟩

theorem evictLoop_frame (sc : Scoring) (score : Entry → sc.Score) (unlinkOk : Bytes → Bool)
    (target : Nat) (fuel total : Nat) (es : List Entry) (d : Directory) :
    (evictLoop sc score unlinkOk target fuel total es d).Frame d := by
  induction fuel generalizing total es d with
  | zero => exact .none d
  | succ fuel ih =>
    cases es with
    | nil => exact .none d
    | cons e es =>
      rw [evictLoop]
      split
      · exact .none d
      dsimp only
      split
      case isFalse => exact ih _ _ _
      case isTrue =>
        obtain ⟨victim, hv⟩ : ∃ v, v = lowestScore sc score e es := ⟨_, rfl⟩
        rw [← hv]
        obtain ⟨hsub, hkeep, hgone⟩ := ih (total - victim.fileSize) ((e :: es).erase victim)
          (d.unlink victim.path)
        refine ⟨fun f hf => (Directory.mem_unlink.mp (hsub f hf)).1, fun f hf hn => ?_,
          fun f hf hmem => ?_⟩
        · rw [List.mem_cons, not_or] at hn
          exact hkeep f (Directory.mem_unlink.mpr ⟨hf, hn.1⟩) hn.2
        · rcases List.mem_cons.mp hmem with heq | hmem
          · exact (Directory.mem_unlink.mp (hsub f hf)).2 heq
          · exact hgone f hf hmem

theorem evict_frame (kc : KvCache) (sc : Scoring) (unlinkOk : Bytes → Bool) (now extra : Nat)
    (incoming : Option EvictionContext) (d : Directory) :
    (evict kc sc unlinkOk now extra incoming d).Frame d := by
  rw [evict]
  split
  · exact .none d
  split
  · exact .none d
  · exact evictLoop_frame ..

theorem lowestScore_mem (sc : Scoring) (score : Entry → sc.Score) (victim : Entry)
    (es : List Entry) : lowestScore sc score victim es ∈ victim :: es := by
  induction es generalizing victim with
  | nil => exact List.mem_singleton_self _
  | cons e es ih =>
    rw [lowestScore]
    split
    · exact List.mem_cons_of_mem _ (ih e)
    · rcases List.mem_cons.mp (ih victim) with h | h
      · exact List.mem_cons.mpr (Or.inl h)
      · exact List.mem_cons_of_mem _ (List.mem_cons_of_mem _ h)

theorem listed_path {f : File} {e : Entry} (h : listedEntry f = some e) : e.path = f.name :=
  (readEntryFile_spec (listedEntry_spec h).2).2.1

theorem evictLoop_victims (sc : Scoring) (score : Entry → sc.Score) (unlinkOk : Bytes → Bool)
    (target fuel total : Nat) (es : List Entry) (d : Directory) :
    ∀ n ∈ (evictLoop sc score unlinkOk target fuel total es d).victims, ∃ e ∈ es, e.path = n := by
  induction fuel generalizing total es d with
  | zero => exact nofun
  | succ fuel ih =>
    cases es with
    | nil => exact nofun
    | cons e es =>
      rw [evictLoop]
      split
      · exact nofun
      have hmem := lowestScore_mem sc score e es
      have hrest : ∀ {n : Bytes}, (∃ x ∈ (e :: es).erase (lowestScore sc score e es), x.path = n) →
          ∃ x ∈ e :: es, x.path = n := by
        rintro n ⟨x, hx, hn⟩
        exact ⟨x, List.mem_of_mem_erase hx, hn⟩
      dsimp only
      intro n hn
      split at hn
      · rcases List.mem_cons.mp hn with rfl | hn
        · exact ⟨_, hmem, rfl⟩
        · exact hrest (ih _ _ _ n hn)
      · exact hrest (ih _ _ _ n hn)

/-- What a pass removes was in the directory. -/
theorem evict_victims {kc : KvCache} {sc : Scoring} {unlinkOk : Bytes → Bool} {now extra : Nat}
    {incoming : Option EvictionContext} {d : Directory} {n : Bytes}
    (h : n ∈ (evict kc sc unlinkOk now extra incoming d).victims) : ∃ f ∈ d.files, f.name = n := by
  rw [evict] at h
  split at h
  · nomatch h
  split at h
  · nomatch h
  · obtain ⟨e, he, rfl⟩ := evictLoop_victims _ _ _ _ _ _ _ _ n h
    obtain ⟨f, hf, hfe⟩ := List.mem_filterMap.mp he
    exact ⟨f, hf, (listed_path hfe).symm⟩

/-! ## What is left fits -/

theorem sum_refresh (d : Directory) :
    ((kvCacheRefresh d).map Entry.fileSize).sum = totalBytes d := by
  rw [kvCacheRefresh, totalBytes, Directory.weight]
  induction d.files with
  | nil => rfl
  | cons f fs ih =>
    rw [List.map_cons, List.sum_cons, ← ih, entryBytes]
    cases h : listedEntry f with
    | none => rw [List.filterMap_cons_none h, Nat.zero_add]
    | some e => rw [List.filterMap_cons_some h, List.map_cons, List.sum_cons]

/-- Taking the file of an entry away takes the entry off the list. -/
theorem refresh_unlink {d : Directory} {e : Entry} (h : e ∈ kvCacheRefresh d) :
    ((kvCacheRefresh d).erase e).Perm (kvCacheRefresh (d.unlink e.path)) := by
  obtain ⟨f, hf, hfe⟩ := List.mem_filterMap.mp h
  have hperm := (perm_cons_remove d.unique hf).filterMap listedEntry
  rw [List.filterMap_cons_some hfe, ← listed_path hfe] at hperm
  exact (List.perm_cons_erase h).symm.trans hperm |>.cons_inv

theorem sum_erase {es : List Entry} {v : Entry} (h : v ∈ es) :
    (es.map Entry.fileSize).sum = v.fileSize + ((es.erase v).map Entry.fileSize).sum := by
  rw [((List.perm_cons_erase h).map Entry.fileSize).sum_eq, List.map_cons, List.sum_cons]

theorem evictLoop_total_le (sc : Scoring) (score : Entry → sc.Score) {unlinkOk : Bytes → Bool}
    (hunlink : ∀ n, unlinkOk n = true) (target fuel : Nat) (es : List Entry) (d : Directory)
    (hfuel : es.length ≤ fuel) (hes : es.Perm (kvCacheRefresh d)) :
    totalBytes (evictLoop sc score unlinkOk target fuel (es.map Entry.fileSize).sum es d).dir
      ≤ target := by
  have htotal : ∀ (es : List Entry) (d : Directory), es.Perm (kvCacheRefresh d) →
      totalBytes d = (es.map Entry.fileSize).sum := fun es d hp => by
    rw [← sum_refresh, (hp.map Entry.fileSize).sum_eq]
  induction fuel generalizing es d with
  | zero =>
    obtain rfl := List.length_eq_zero_iff.mp (Nat.le_zero.mp hfuel)
    rw [evictLoop, htotal [] d hes]
    exact Nat.zero_le _
  | succ fuel ih =>
    cases es with
    | nil =>
      rw [evictLoop, htotal [] d hes]
      exact Nat.zero_le _
    | cons e es =>
      rw [evictLoop]
      split
      next hle => exact (htotal _ d hes).trans_le hle
      dsimp only
      rw [if_pos (hunlink _)]
      have hmem := lowestScore_mem sc score e es
      obtain ⟨victim, hv⟩ : ∃ v, v = lowestScore sc score e es := ⟨_, rfl⟩
      rw [← hv] at hmem ⊢
      have hsum := sum_erase hmem
      have hlen := List.length_erase_of_mem hmem
      rw [hsum, Nat.add_sub_cancel_left]
      refine ih _ _ (by rw [hlen, List.length_cons] at *; omega) ?_
      exact (hes.erase victim).trans (refresh_unlink (hes.mem_iff.mp hmem))

/-- Where every unlink succeeds, what is left after a pass fits into the budget next to
the bytes to come. -/
theorem totalBytes_evict_le {kc : KvCache} (sc : Scoring) {unlinkOk : Bytes → Bool} (now : Nat)
    {extra : Nat} (incoming : Option EvictionContext) {d : Directory}
    (hunlink : ∀ n, unlinkOk n = true) (henabled : kc.enabled = true) (hbudget : 0 < kc.budgetBytes)
    (hextra : extra ≤ kc.budgetBytes) (hd : totalBytes d < 2 ^ 64) :
    totalBytes (evict kc sc unlinkOk now extra incoming d).dir + extra ≤ kc.budgetBytes := by
  rw [evict, if_neg (by simp [henabled]; omega), if_neg (by omega)]
  dsimp only
  rw [← sum_refresh] at hd
  rw [Nat.mod_eq_of_lt hd]
  have h := evictLoop_total_le sc (fun e => sc.score e now incoming) hunlink
    (kc.budgetBytes - extra) _ _ d (Nat.le_refl _) (List.Perm.refl _)
  omega

/-- A file too large to stay next to what is to come goes. -/
theorem evict_takes {kc : KvCache} (sc : Scoring) {unlinkOk : Bytes → Bool} (now : Nat)
    {extra : Nat} (incoming : Option EvictionContext) {d : Directory} {f : File}
    (hunlink : ∀ n, unlinkOk n = true) (henabled : kc.enabled = true)
    (hextra : extra ≤ kc.budgetBytes) (hd : totalBytes d < 2 ^ 64) (hf : f ∈ d.files)
    (hlarge : kc.budgetBytes < entryBytes f + extra) (hbudget : 0 < kc.budgetBytes) :
    f.name ∈ (evict kc sc unlinkOk now extra incoming d).victims := by
  by_contra hkept
  have hroom := totalBytes_evict_le sc now incoming hunlink henabled hbudget hextra hd
  have hstays := (evict_frame kc sc unlinkOk now extra incoming d).keep f hf hkept
  rw [totalBytes, Directory.weight_unlink hstays] at hroom
  omega

/-- Where everything fits a pass does nothing. -/
theorem evict_eq_self {kc : KvCache} (sc : Scoring) (unlinkOk : Bytes → Bool) (now : Nat)
    {extra : Nat} (incoming : Option EvictionContext) {d : Directory}
    (hfits : totalBytes d ≤ kc.budgetBytes - extra) (hd : totalBytes d < 2 ^ 64) :
    evict kc sc unlinkOk now extra incoming d = ⟨d, []⟩ := by
  rw [evict]
  split
  · rfl
  split
  · rfl
  dsimp only
  rw [sum_refresh, Nat.mod_eq_of_lt hd]
  cases kvCacheRefresh d with
  | nil => rfl
  | cons e es =>
    rw [List.length_cons, evictLoop]
    exact if_pos hfits

theorem totalBytes_le_of_sub {d d' : Directory} (h : ∀ f ∈ d'.files, f ∈ d.files) :
    totalBytes d' ≤ totalBytes d := by
  have hsub : d'.files.Subperm d.files :=
    List.subperm_of_subset (List.Nodup.of_map _ d'.unique) fun f hf => h f hf
  obtain ⟨l, hl, hsl⟩ := hsub
  rw [totalBytes, totalBytes, Directory.weight, Directory.weight, ← (hl.map entryBytes).sum_eq]
  exact (hsl.map entryBytes).sum_le_sum fun _ _ => Nat.zero_le _

theorem Evicted.Frame.totalBytes_le {r : Evicted} {d : Directory} (h : r.Frame d) :
    totalBytes r.dir ≤ totalBytes d :=
  totalBytes_le_of_sub h.sub

/-! ## Opening -/

/-- `sf37_kvstore_open`, of a directory that is there or could be made. -/
def kvstoreOpen (sc : Scoring) (unlinkOk : Bytes → Bool) (now : Nat) (budgetMb : Nat)
    (rejectDifferentQuant : Bool) (minTokens coldMaxTokens : Int) (d : Directory) :
    KvCache × Directory :=
  let budgetMb := if budgetMb = 0 then 4096 else budgetMb
  let kc : KvCache :=
    { enabled := true
      budgetBytes := budgetMb * 1024 * 1024 % 2 ^ 64
      rejectDifferentQuant := rejectDifferentQuant
      minTokens := minTokens
      coldMaxTokens := coldMaxTokens
      continuedLastStoreTokens := 0 }
  (kc, (evict kc sc unlinkOk now 0 none d).dir)

end Sf37.KvStore

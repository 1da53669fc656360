/-
Sf37.KvStore.FindPrefix — which checkpoint a prompt is looked up to.

The list of a store is made anew from its directory, and one pass over it keeps the best
entry so far; an entry that cannot win is not hashed.

* `findTextPrefixTurn_eq`: a turn of the pass in terms of the rules, the order and the hash.
* `findTextPrefix_longest`: the pass finds an admissible entry with the longest text, and -1
  when there is none.
-/
import Sf37.KvStore.Evict
import Sf37.Run.Best
import Mathlib.Data.Prod.Lex

namespace Sf37.KvStore

open Sf37.Text Sf37.Store
open Sf37.Server (lePut32)

/-! ## The pass -/

/-- A `uint32_t` taken as an `int`. -/
def toInt32 (v : Nat) : Int :=
  if v % 2 ^ 32 < 2 ^ 31 then (v % 2 ^ 32 : Nat) else (v % 2 ^ 32 : Nat) - 2 ^ 32

/-- `kv_cache_refresh`, with the list it finds and what `opendir` gives. -/
def kvCacheRefreshList (kc : KvCache) (entry : List Entry) (dir : Option Directory) : List Entry :=
  if ¬ kc.enabled then entry
  else
    match dir with
    | none => []
    | some d => kvCacheRefresh d

/-- One turn of the loop of `sf37_kvstore_find_text_prefix`: an entry with its index, and the
best one so far with its own. -/
def findTextPrefixTurn (kc : KvCache) (promptText : Bytes) (modelId quantBits ctxSize : Int)
    (best : Option (Entry × Nat)) (i : Entry × Nat) : Option (Entry × Nat) :=
  let e := i.1
  if promptText.length < e.textBytes then best
  else if toInt32 e.tokens < kc.minTokens then best
  else if e.modelId ≠ UInt8.ofInt modelId then best
  else if (ctxSize % 2 ^ 32).toNat < e.ctxSize then best
  else if kc.rejectDifferentQuant = true ∧ e.quantBits ≠ UInt8.ofInt quantBits then best
  else if best.any (fun b => e.textBytes < b.1.textBytes) then best
  else if best.any (fun b => e.textBytes = b.1.textBytes ∧ e.tokens ≤ b.1.tokens) then best
  else if sha1BytesHex (promptText.take e.textBytes) = e.sha then some i
  else best

/-- `sf37_kvstore_find_text_prefix`: the index in the list that `kv_cache_refresh` leaves. -/
def kvstoreFindTextPrefix (kc : KvCache) (entry : List Entry) (dir : Option Directory)
    (promptText : Option Bytes) (modelId quantBits ctxSize : Int) : Int :=
  match promptText with
  | none => -1
  | some promptText =>
      match (kvCacheRefreshList kc entry dir).zipIdx.foldl
          (findTextPrefixTurn kc promptText modelId quantBits ctxSize) none with
      | none => -1
      | some best => best.2

/-! ## What it finds -/

/-- The rules an entry has to meet to be looked at. -/
structure EntryRules (kc : KvCache) (promptText : Bytes) (modelId quantBits ctxSize : Int)
    (e : Entry) : Prop where
  text : e.textBytes ≤ promptText.length
  tokens : kc.minTokens ≤ toInt32 e.tokens
  model : e.modelId = UInt8.ofInt modelId
  ctx : e.ctxSize ≤ (ctxSize % 2 ^ 32).toNat
  quant : kc.rejectDifferentQuant = true → e.quantBits = UInt8.ofInt quantBits

/-- The text of an entry is the beginning of the prompt, as far as its name tells. -/
def Hashed (promptText : Bytes) (e : Entry) : Prop :=
  sha1BytesHex (promptText.take e.textBytes) = e.sha

instance (promptText : Bytes) (e : Entry) : Decidable (Hashed promptText e) :=
  inferInstanceAs (Decidable (_ = _))

/-- An entry may be the result: it meets the rules and is one of a beginning of the prompt. -/
structure AdmissibleEntry (kc : KvCache) (promptText : Bytes) (modelId quantBits ctxSize : Int)
    (e : Entry) : Prop where
  text : e.textBytes ≤ promptText.length
  tokens : kc.minTokens ≤ (e.tokens : Int)
  model : e.modelId = UInt8.ofInt modelId
  ctx : e.ctxSize ≤ (ctxSize % 2 ^ 32).toNat
  quant : kc.rejectDifferentQuant = true → e.quantBits = UInt8.ofInt quantBits
  sha : sha1BytesHex (promptText.take e.textBytes) = e.sha

/-- The order of the entries: by their text, then by their tokens. -/
def entryKey (e : Entry) : Nat ×ₗ Nat := toLex (e.textBytes, e.tokens)

theorem entryKey_le_iff {e b : Entry} : entryKey e ≤ entryKey b ↔
    e.textBytes < b.textBytes ∨ (e.textBytes = b.textBytes ∧ e.tokens ≤ b.tokens) :=
  Prod.Lex.toLex_le_toLex

theorem textBytes_le_of_entryKey_le {e b : Entry} (h : entryKey e ≤ entryKey b) :
    e.textBytes ≤ b.textBytes :=
  (entryKey_le_iff.mp h).elim Nat.le_of_lt fun heq => Nat.le_of_eq heq.1

section

variable {kc : KvCache} {promptText : Bytes} {modelId quantBits ctxSize : Int}

theorem entryRules_iff {e : Entry} : EntryRules kc promptText modelId quantBits ctxSize e ↔
    ¬ promptText.length < e.textBytes ∧ ¬ toInt32 e.tokens < kc.minTokens ∧
      ¬ e.modelId ≠ UInt8.ofInt modelId ∧ ¬ (ctxSize % 2 ^ 32).toNat < e.ctxSize ∧
      ¬ (kc.rejectDifferentQuant = true ∧ e.quantBits ≠ UInt8.ofInt quantBits) := by
  simp only [not_lt, ne_eq, not_not, not_and]
  exact ⟨fun ⟨a, b, c, d, e⟩ => ⟨a, b, c, d, e⟩, fun ⟨a, b, c, d, e⟩ => ⟨a, b, c, d, e⟩⟩

instance (kc : KvCache) (promptText : Bytes) (modelId quantBits ctxSize : Int) (e : Entry) :
    Decidable (EntryRules kc promptText modelId quantBits ctxSize e) :=
  decidable_of_iff' _ entryRules_iff

/-- A turn looks at the rules, then at the best entry so far, and hashes last. -/
theorem findTextPrefixTurn_eq (best : Option (Entry × Nat)) (i : Entry × Nat) :
    findTextPrefixTurn kc promptText modelId quantBits ctxSize best i =
      Run.pick (fun i => EntryRules kc promptText modelId quantBits ctxSize i.1)
        (fun i => Hashed promptText i.1) (fun i => entryKey i.1) best i := by
  have hsur : (∃ b ∈ best, entryKey i.1 ≤ entryKey b.1) ↔
      best.any (fun b => i.1.textBytes < b.1.textBytes) = true ∨
        best.any (fun b => i.1.textBytes = b.1.textBytes ∧ i.1.tokens ≤ b.1.tokens) = true := by
    cases best <;> simp [entryKey_le_iff]
  simp only [findTextPrefixTurn, Run.pick, hsur, entryRules_iff, Hashed]
  grind

/-- Where the token counts are no more than an `int` takes, a candidate of the pass is an
admissible entry. -/
theorem candidate_iff {e : Entry} (htokens : e.tokens < 2 ^ 31) :
    (EntryRules kc promptText modelId quantBits ctxSize e ∧ Hashed promptText e) ↔
      AdmissibleEntry kc promptText modelId quantBits ctxSize e := by
  have hcast : toInt32 e.tokens = e.tokens := by
    rw [toInt32, Nat.mod_eq_of_lt (by omega), if_pos htokens]
  constructor
  · rintro ⟨⟨htext, htok, hmodel, hctx, hquant⟩, hsha⟩
    exact ⟨htext, hcast ▸ htok, hmodel, hctx, hquant, hsha⟩
  · rintro ⟨htext, htok, hmodel, hctx, hquant, hsha⟩
    exact ⟨⟨htext, hcast ▸ htok, hmodel, hctx, hquant⟩, hsha⟩

/-- What the pass keeps of a list. -/
theorem findTextPrefixPass_best (kc : KvCache) (promptText : Bytes)
    (modelId quantBits ctxSize : Int) (listed : List Entry) :
    Run.Best (fun i => EntryRules kc promptText modelId quantBits ctxSize i.1 ∧
        Hashed promptText i.1) (fun i => entryKey i.1) listed.zipIdx
      (listed.zipIdx.foldl (findTextPrefixTurn kc promptText modelId quantBits ctxSize) none) := by
  refine Run.foldl_best (fun best i => ?_) listed.zipIdx
  rw [findTextPrefixTurn_eq]
  exact Run.turn_pick _ _ _ best i

end

/-- What is found is an admissible entry with the longest text, and nothing is found only
where there is none. -/
theorem findTextPrefix_longest (kc : KvCache) (entry : List Entry) (dir : Option Directory)
    (promptText : Bytes) (modelId quantBits ctxSize : Int)
    (htokens : ∀ e ∈ kvCacheRefreshList kc entry dir, e.tokens < 2 ^ 31) :
    let listed := kvCacheRefreshList kc entry dir
    let found := kvstoreFindTextPrefix kc entry dir (some promptText) modelId quantBits ctxSize
    (found = -1 ↔ ∀ e ∈ listed, ¬ AdmissibleEntry kc promptText modelId quantBits ctxSize e) ∧
      (found ≠ -1 → ∃ i e, found = Int.ofNat i ∧ listed[i]? = some e ∧
        AdmissibleEntry kc promptText modelId quantBits ctxSize e ∧
        ∀ x ∈ listed, AdmissibleEntry kc promptText modelId quantBits ctxSize x →
          x.textBytes ≤ e.textBytes) := by
  intro listed found
  have hindex : ∀ x ∈ listed, ∃ i, (x, i) ∈ listed.zipIdx := by
    intro x hx
    obtain ⟨i, hi⟩ := List.mem_iff_getElem?.mp hx
    exact ⟨i, List.mk_mem_zipIdx_iff_getElem?.mpr hi⟩
  have hmem : ∀ x i, (x, i) ∈ listed.zipIdx → listed[i]? = some x := fun x i h =>
    List.mk_mem_zipIdx_iff_getElem?.mp h
  have hbest := findTextPrefixPass_best kc promptText modelId quantBits ctxSize listed
  cases hpass : listed.zipIdx.foldl
      (findTextPrefixTurn kc promptText modelId quantBits ctxSize) none with
  | none =>
    rw [hpass] at hbest
    have hfound : found = -1 := by
      simp only [found, kvstoreFindTextPrefix]
      rw [hpass]
    refine ⟨⟨fun _ e he ha => ?_, fun _ => hfound⟩, fun hne => absurd hfound hne⟩
    obtain ⟨i, hi⟩ := hindex e he
    exact hbest (e, i) hi ((candidate_iff (htokens e he)).mpr ha)
  | some best =>
    obtain ⟨e, i⟩ := best
    rw [hpass] at hbest
    obtain ⟨hi, hcand, hmax⟩ := hbest
    have hget := hmem e i hi
    have hlisted := List.mem_of_getElem? hget
    have ha := (candidate_iff (htokens e hlisted)).mp hcand
    have hfound : found = Int.ofNat i := by
      simp only [found, kvstoreFindTextPrefix]
      rw [hpass]
      rfl
    refine ⟨⟨fun hno => ?_, fun hno => absurd ha (hno e hlisted)⟩,
      fun _ => ⟨i, e, hfound, hget, ha, ?_⟩⟩
    · rw [hfound] at hno
      exact absurd hno (by simp)
    · intro x hx hax
      obtain ⟨j, hj⟩ := hindex x hx
      exact textBytes_le_of_entryKey_le (hmax (x, j) hj ((candidate_iff (htokens x hx)).mpr hax))

/-- A store without a lower limit on the tokens but one. -/
def lookedUpStore : KvCache := ⟨true, 0, true, 1, 0, 0⟩

/-- A checkpoint without a payload. -/
def lookedUpFile (text : Bytes) (tokens : Nat) : File :=
  ⟨kvName (sha1BytesHex text), fillHeader ⟨kvstoreQuantBits, kvstoreModelId, 0, 0, tokens, 0, 16,
    0, 0, 0, text.length⟩ ++ (lePut32 text.length ++ text)⟩

/-- The files of `a`, of `ab` and of `b`. -/
def lookedUpFiles : List File :=
  [lookedUpFile [0x61] 2, lookedUpFile [0x61, 0x62] 1, lookedUpFile [0x62] 3]

theorem lookedUpFiles_unique : Store.Unique File.name lookedUpFiles := by
  rw [Store.Unique, lookedUpFiles, List.map_cons, List.map_cons, List.map_cons]
  decide +kernel

def lookedUpDirectory : Directory where
  files := lookedUpFiles
  unique := lookedUpFiles_unique

/-- The lookup of the prompt `abc` there: it begins with two of the texts, and the longer one is
found. -/
theorem findTextPrefix_longest_lookedUp :
    let listed := kvCacheRefreshList lookedUpStore [] (some lookedUpDirectory)
    let found := kvstoreFindTextPrefix lookedUpStore [] (some lookedUpDirectory)
      (some [0x61, 0x62, 0x63]) 37 3 16
    found = 1 ∧
      (found = -1 ↔ ∀ e ∈ listed, ¬ AdmissibleEntry lookedUpStore [0x61, 0x62, 0x63] 37 3 16 e) ∧
      (found ≠ -1 → ∃ i e, found = Int.ofNat i ∧ listed[i]? = some e ∧
        AdmissibleEntry lookedUpStore [0x61, 0x62, 0x63] 37 3 16 e ∧
        ∀ x ∈ listed, AdmissibleEntry lookedUpStore [0x61, 0x62, 0x63] 37 3 16 x →
          x.textBytes ≤ e.textBytes) :=
  ⟨by decide +kernel,
    findTextPrefix_longest lookedUpStore [] (some lookedUpDirectory) [0x61, 0x62, 0x63] 37 3 16
      (by decide +kernel)⟩

end Sf37.KvStore

/-
Sf37.KvStore.TryLoad — finding the checkpoint of the longest prefix of a prompt and
loading it.

* `findTextPrefix_spec`: what is found is an admissible entry.
* `findTextPrefix_isSome`, `findTextPrefix_max`: an entry is found when there is an
  admissible one, and none has a longer text.
* `loadableHeader_eq`: of an entry that was found only the text can be wrong.
* `tryLoadText_of_damaged`, `tryLoadText_of_rejected`, `tryLoadText_of_accepted`: what a load
  does with a wrong text, a payload that does not load, and one that does.
-/
import Sf37.KvStore.StoreLive
import Sf37.KvStore.FindPrefix

namespace Sf37.KvStore

open Sf37.Text Sf37.Store
open Sf37.Server (Tokens)

/-! ## Finding -/

/-- The rules of `sf37_kvstore_find_text_prefix` that look at one entry only. -/
def Admissible (kc : KvCache) (promptText : Bytes) (ctx : Nat) (e : Entry) : Prop :=
  e.textBytes ≤ promptText.length ∧ kc.minTokens ≤ toInt32 e.tokens ∧ e.modelId = kvstoreModelId ∧
    e.ctxSize ≤ ctx ∧ (kc.rejectDifferentQuant = true → e.quantBits = kvstoreQuantBits) ∧
    sha1BytesHex (promptText.take e.textBytes) = e.sha

/-- The best entry so far is no worse than this one. -/
def Surpassed (best : Option Entry) (e : Entry) : Prop :=
  ∃ b, best = some b ∧ (e.textBytes < b.textBytes ∨ (e.textBytes = b.textBytes ∧ e.tokens ≤ b.tokens))

instance (best : Option Entry) (e : Entry) : Decidable (Surpassed best e) :=
  match best with
  | none => isFalse fun ⟨_, h, _⟩ => nomatch h
  | some b =>
      decidable_of_iff (e.textBytes < b.textBytes ∨ (e.textBytes = b.textBytes ∧ e.tokens ≤ b.tokens))
        ⟨fun h => ⟨b, rfl, h⟩, fun ⟨_, hb, h⟩ => Option.some.inj hb ▸ h⟩

/-- The loop of `sf37_kvstore_find_text_prefix`. -/
def findTextPrefixLoop (kc : KvCache) (promptText : Bytes) (ctx : Nat) :
    Option Entry → List Entry → Option Entry
  | best, [] => best
  | best, e :: es =>
      if promptText.length < e.textBytes ∨ toInt32 e.tokens < kc.minTokens ∨
          e.modelId ≠ kvstoreModelId ∨ ctx < e.ctxSize ∨
          (kc.rejectDifferentQuant = true ∧ e.quantBits ≠ kvstoreQuantBits) then
        findTextPrefixLoop kc promptText ctx best es
      else if Surpassed best e then findTextPrefixLoop kc promptText ctx best es
      else if sha1BytesHex (promptText.take e.textBytes) = e.sha then
        findTextPrefixLoop kc promptText ctx (some e) es
      else findTextPrefixLoop kc promptText ctx best es

/-- `sf37_kvstore_find_text_prefix`, with the model and the quantization of the callers. -/
def findTextPrefix (kc : KvCache) (promptText : Bytes) (ctx : Nat) (d : Directory) : Option Entry :=
  findTextPrefixLoop kc promptText ctx none (kvCacheRefresh d)

/-- The rules an entry has to meet before it is compared with the best one. -/
def LookedAt (kc : KvCache) (promptText : Bytes) (ctx : Nat) (e : Entry) : Prop :=
  e.textBytes ≤ promptText.length ∧ kc.minTokens ≤ toInt32 e.tokens ∧ e.modelId = kvstoreModelId ∧
    e.ctxSize ≤ ctx ∧ (kc.rejectDifferentQuant = true → e.quantBits = kvstoreQuantBits)

instance (kc : KvCache) (promptText : Bytes) (ctx : Nat) (e : Entry) :
    Decidable (LookedAt kc promptText ctx e) := by
  unfold LookedAt
  infer_instance

theorem lookedAt_and_hashed_iff {kc : KvCache} {promptText : Bytes} {ctx : Nat} {e : Entry} :
    (LookedAt kc promptText ctx e ∧ Hashed promptText e) ↔ Admissible kc promptText ctx e := by
  simp only [LookedAt, Hashed, Admissible, and_assoc]

/-- The loop is a pass that keeps the best entry. -/
theorem findTextPrefixLoop_eq_foldl (kc : KvCache) (promptText : Bytes) (ctx : Nat)
    (es : List Entry) (best : Option Entry) :
    findTextPrefixLoop kc promptText ctx best es =
      es.foldl (Run.pick (LookedAt kc promptText ctx) (Hashed promptText) entryKey) best := by
  induction es generalizing best with
  | nil => rfl
  | cons e es ih =>
    have hrules : (promptText.length < e.textBytes ∨ toInt32 e.tokens < kc.minTokens ∨
        e.modelId ≠ kvstoreModelId ∨ ctx < e.ctxSize ∨
          (kc.rejectDifferentQuant = true ∧ e.quantBits ≠ kvstoreQuantBits)) ↔
        ¬ LookedAt kc promptText ctx e := by
      unfold LookedAt
      grind
    have hsur : Surpassed best e ↔ ∃ b ∈ best, entryKey e ≤ entryKey b := by
      simp only [Surpassed, entryKey_le_iff, Option.mem_def]
    have htest : sha1BytesHex (promptText.take e.textBytes) = e.sha ↔ Hashed promptText e := Iff.rfl
    have hturn : findTextPrefixLoop kc promptText ctx best (e :: es) =
        findTextPrefixLoop kc promptText ctx
          (Run.pick (LookedAt kc promptText ctx) (Hashed promptText) entryKey best e) es := by
      simp only [findTextPrefixLoop, hrules, hsur, htest, Run.pick]
      split_ifs <;> rfl
    rw [hturn, ih, List.foldl_cons]

/-- What the lookup keeps of the list. -/
theorem findTextPrefix_best (kc : KvCache) (promptText : Bytes) (ctx : Nat) (d : Directory) :
    Run.Best (Admissible kc promptText ctx) entryKey (kvCacheRefresh d)
      (findTextPrefix kc promptText ctx d) := by
  rw [findTextPrefix, findTextPrefixLoop_eq_foldl]
  refine Run.foldl_best (fun best e => ?_) _
  have hturn := Run.turn_pick (LookedAt kc promptText ctx) (Hashed promptText) entryKey best e
  simpa only [lookedAt_and_hashed_iff] using hturn

/-- What is found is an admissible entry. -/
theorem findTextPrefix_spec {kc : KvCache} {promptText : Bytes} {ctx : Nat} {d : Directory}
    {e : Entry} (h : findTextPrefix kc promptText ctx d = some e) :
    e ∈ kvCacheRefresh d ∧ Admissible kc promptText ctx e := by
  have hbest := findTextPrefix_best kc promptText ctx d
  rw [h] at hbest
  exact ⟨hbest.1, hbest.2.1⟩

/-- An entry is found when there is an admissible one. -/
theorem findTextPrefix_isSome {kc : KvCache} {promptText : Bytes} {ctx : Nat} {d : Directory}
    {e : Entry} (he : e ∈ kvCacheRefresh d) (ha : Admissible kc promptText ctx e) :
    (findTextPrefix kc promptText ctx d).isSome = true := by
  rw [Option.isSome_iff_ne_none]
  intro hnone
  exact (findTextPrefix_best kc promptText ctx d).eq_none_iff.mp hnone e he ha

/-- No admissible entry has a longer text than the one that is found. -/
theorem findTextPrefix_max {kc : KvCache} {promptText : Bytes} {ctx : Nat} {d : Directory}
    {e x : Entry} (h : findTextPrefix kc promptText ctx d = some e) (hx : x ∈ kvCacheRefresh d)
    (ha : Admissible kc promptText ctx x) : x.textBytes ≤ e.textBytes := by
  have hbest := findTextPrefix_best kc promptText ctx d
  rw [h] at hbest
  exact textBytes_le_of_entryKey_le (hbest.2.2 x hx ha)

/-- The entry of the list at the index that a lookup gave. -/
def entryAt (entry : List Entry) : Int → Option Entry
  | .ofNat i => entry[i]?
  | .negSucc _ => none

/-- With the model, the quantization and the context of the callers the lookup gives the index
of that entry. -/
theorem findTextPrefix_eq_entryAt {kc : KvCache} (henabled : kc.enabled = true)
    (entry : List Entry) (d : Directory) (promptText : Bytes) {ctx : Nat} (hctx : ctx < 2 ^ 32) :
    findTextPrefix kc promptText ctx d =
      entryAt (kvCacheRefresh d) (kvstoreFindTextPrefix kc entry (some d) (some promptText)
        kvstoreModelId.toNat kvstoreQuantBits.toNat ctx) := by
  have hlist : kvCacheRefreshList kc entry (some d) = kvCacheRefresh d := by
    simp [kvCacheRefreshList, henabled]
  have hrules : ∀ e : Entry, EntryRules kc promptText kvstoreModelId.toNat kvstoreQuantBits.toNat ctx e ↔
      LookedAt kc promptText ctx e := by
    intro e
    have hmod : ((ctx : Int) % 2 ^ 32).toNat = ctx := by omega
    have hmodel : UInt8.ofInt kvstoreModelId.toNat = kvstoreModelId := rfl
    have hquant : UInt8.ofInt kvstoreQuantBits.toNat = kvstoreQuantBits := rfl
    rw [entryRules_iff, LookedAt, hmod, hmodel, hquant]
    grind
  have hfold := Run.foldl_pick_map (LookedAt kc promptText ctx) (Hashed promptText) entryKey
    (fun i : Entry × Nat => i.1) (kvCacheRefresh d).zipIdx none
  have hpass : (kvCacheRefresh d).zipIdx.foldl (findTextPrefixTurn kc promptText
        kvstoreModelId.toNat kvstoreQuantBits.toNat ctx) none =
      (kvCacheRefresh d).zipIdx.foldl (Run.pick (fun i => LookedAt kc promptText ctx i.1)
        (fun i => Hashed promptText i.1) fun i => entryKey i.1) none := by
    congr 1
    funext best i
    simp only [findTextPrefixTurn_eq, Run.pick, hrules]
  rw [List.zipIdx_map_fst, ← hpass] at hfold
  have hbest := findTextPrefixPass_best kc promptText kvstoreModelId.toNat
    kvstoreQuantBits.toNat ctx (kvCacheRefresh d)
  rw [findTextPrefix, findTextPrefixLoop_eq_foldl]
  refine hfold.symm.trans ?_
  simp only [kvstoreFindTextPrefix, hlist]
  split
  next hnone => rw [hnone]; rfl
  next best hsome =>
    rw [hsome] at hbest ⊢
    exact (List.mk_mem_zipIdx_iff_getElem?.mp hbest.1).symm

/-! ## Loading -/

/-- What the outside world answers to a load. -/
structure LoadEnv where
  stamp : Nat
  openOk : Bool
  touchOk : Bool
  unlinkOk : Bytes → Bool

/-- What a load leaves. `trailer` is the rest of the file, where the hooks are given it;
the fields of `sf37_kvstore_load_result` are those of the header that was read. -/
structure LoadOutcome (σ : Type) where
  kc : KvCache
  session : σ
  dir : Directory
  loaded : Nat
  effectivePrompt : Tokens
  result : Option (Header × Bool × Bytes)
  trailer : Option Bytes

/-- `sf37_kvstore_byte_prefix_match`. -/
def bytePrefixMatch (text prefixText : Bytes) : Bool :=
  decide (prefixText.length ≤ text.length ∧ text.take prefixText.length = prefixText)

/-- The checks of `sf37_kvstore_try_load_text` on the header and the text of a file: the
header, where they pass. -/
def loadableHeader (promptText : Bytes) (sha fp : Bytes) : Option Header :=
  (readHeader fp).bind fun hdr =>
    let cachedText := storedText fp hdr.textBytes
    if hdr.modelId ≠ kvstoreModelId then none
    else if promptText.length < hdr.textBytes then none
    else if cachedText.length ≠ hdr.textBytes then none
    else if sha1BytesHex cachedText ≠ sha then none
    else if ¬ bytePrefixMatch promptText cachedText then none
    else some hdr

/-- `sf37_kvstore_touch_file`, of the bytes of the file. -/
def touchFile (stamp hits : Nat) (fp : Bytes) : Bytes :=
  match readHeader fp with
  | none => fp
  | some h => fillHeader { h with hits := hits % 2 ^ 32, lastUsed := stamp } ++ fp.drop fixedHeader

/-- What is done with the file of a checkpoint that was loaded. -/
def afterLoad (kc : KvCache) (env : LoadEnv) (hdr : Header) (path fp : Bytes) (d : Directory) :
    Directory × Bool :=
  if 0 < kc.coldMaxTokens ∧ kc.coldMaxTokens < toInt32 hdr.tokens then
    (if env.unlinkOk path then d.unlink path else d, true)
  else
    (if env.touchOk then d.write path (touchFile env.stamp (hdr.hits + 1) fp) else d, false)

/-- `sf37_kvstore_build_prompt_from_exact_prefix_and_text_suffix`. -/
def buildPromptFromExactPrefixAndTextSuffix (tokenizeRenderedChat : Bytes → Tokens)
    (exactPrefix : Tokens) (suffixText : Bytes) : Tokens :=
  exactPrefix ++ tokenizeRenderedChat suffixText

/-- A payload that was read in full: what the session then has of it. -/
def payloadAccepted {σ : Type} (ops : SessionOps σ) (hdr : Header) (r : σ × Bool) : Prop :=
  r.2 = true ∧ ((ops.tokens r.1).length : Int) = toInt32 hdr.tokens

instance {σ : Type} (ops : SessionOps σ) (hdr : Header) (r : σ × Bool) :
    Decidable (payloadAccepted ops hdr r) := by
  unfold payloadAccepted
  infer_instance

/-- `sf37_kvstore_try_load_text`. -/
def tryLoadText {σ : Type} (ops : SessionOps σ) (tokenizeRenderedChat : Bytes → Tokens)
    (loadFlag : Option UInt8) (kc : KvCache) (env : LoadEnv) (session : σ) (promptText : Bytes)
    (d : Directory) : LoadOutcome σ :=
  let miss : LoadOutcome σ := ⟨kc, session, d, 0, [], none, none⟩
  if ¬ kc.enabled then miss
  else
    match findTextPrefix kc promptText (ops.ctx session) d with
    | none => miss
    | some e =>
        if ¬ env.openOk then miss
        else
          let fp := (d.read e.path).getD []
          match loadableHeader promptText e.sha fp with
          | none => miss
          | some hdr =>
              let rest := fp.drop (fixedHeader + 4 + hdr.textBytes)
              let r := ops.loadPayload session rest hdr.payloadBytes
              if payloadAccepted ops hdr r then
                let tokens := ops.tokens r.1
                let prompt := buildPromptFromExactPrefixAndTextSuffix tokenizeRenderedChat tokens
                  (promptText.drop hdr.textBytes)
                let trailer := loadFlag.bind fun flag =>
                  if hdr.extFlags &&& flag ≠ 0 then some (rest.drop hdr.payloadBytes) else none
                let after := afterLoad kc env hdr e.path fp d
                ⟨{ kc with continuedLastStoreTokens := tokens.length }, r.1, after.1, tokens.length,
                  prompt, some (hdr, after.2, e.path), trailer⟩
              else
                let d := if env.unlinkOk e.path then d.unlink e.path else d
                ⟨kc, ops.rewindToStart r.1, d, 0, [], none, none⟩

/-! ## What a load does -/

/-- The text of a file is the beginning of the prompt that its entry was found for. -/
def TextIntact (promptText : Bytes) (e : Entry) (fp : Bytes) : Prop :=
  storedText fp e.textBytes = promptText.take e.textBytes

/-- An entry that is found is one of a file. -/
theorem exists_file_of_found {kc : KvCache} {promptText : Bytes} {ctx : Nat} {d : Directory}
    {e : Entry} (h : findTextPrefix kc promptText ctx d = some e) :
    ∃ fp, d.read e.path = some fp ∧ listedEntry ⟨e.path, fp⟩ = some e := by
  obtain ⟨f, hf, hfe⟩ := List.mem_filterMap.mp (findTextPrefix_spec h).1
  have hpath := listed_path hfe
  refine ⟨f.bytes, ?_, ?_⟩
  · rw [hpath]
    exact Directory.mem_files_iff.mp hf
  · rw [hpath]
    exact hfe

/-- Of an entry that was found only the text can be wrong. -/
theorem loadableHeader_eq {kc : KvCache} {promptText fp : Bytes} {ctx : Nat} {d : Directory}
    {e : Entry} (h : findTextPrefix kc promptText ctx d = some e)
    (hlisted : listedEntry ⟨e.path, fp⟩ = some e) :
    loadableHeader promptText e.sha fp =
      if storedText fp e.textBytes = promptText.take e.textBytes then some e.toHeader else none := by
  obtain ⟨hlen, -, hmodel, -, -, hsha⟩ := (findTextPrefix_spec h).2
  obtain ⟨-, -, -, hread, hend, -⟩ := readEntryFile_spec (listedEntry_spec hlisted).2
  have hstored : (storedText fp e.textBytes).length = e.textBytes := by
    rw [storedText, List.length_take, List.length_drop]
    rw [Header.bodyEnd] at hend
    dsimp only at hend
    omega
  simp only [loadableHeader, hread, Option.bind_some]
  rw [if_neg (not_not.mpr hmodel), if_neg (by omega), if_neg (not_not.mpr hstored)]
  by_cases hintact : storedText fp e.textBytes = promptText.take e.textBytes
  · rw [if_pos hintact, hintact, if_neg (not_not.mpr hsha), if_neg]
    rw [not_not, bytePrefixMatch, List.length_take, Nat.min_eq_left hlen]
    exact decide_eq_true ⟨hlen, rfl⟩
  · rw [if_neg hintact]
    split
    · rfl
    · rw [if_pos]
      rw [bytePrefixMatch, hstored]
      intro hmatch
      exact hintact (of_decide_eq_true hmatch).2.symm

section

variable {σ : Type} {ops : SessionOps σ} {tokenize : Bytes → Tokens} {loadFlag : Option UInt8}
  {kc : KvCache} {env : LoadEnv} {session : σ} {promptText fp : Bytes} {d : Directory} {e : Entry}

/-- What a load reads behind the text of the file that was found. -/
def loadedPayload (ops : SessionOps σ) (session : σ) (e : Entry) (fp : Bytes) : σ × Bool :=
  ops.loadPayload session (fp.drop (fixedHeader + 4 + e.textBytes)) e.payloadBytes

/-- A wrong text leaves everything as it is. -/
theorem tryLoadText_of_damaged (hfound : findTextPrefix kc promptText (ops.ctx session) d = some e)
    (hread : d.read e.path = some fp) (hlisted : listedEntry ⟨e.path, fp⟩ = some e)
    (hdamaged : ¬ TextIntact promptText e fp) :
    tryLoadText ops tokenize loadFlag kc env session promptText d =
      ⟨kc, session, d, 0, [], none, none⟩ := by
  have hnone := (loadableHeader_eq hfound hlisted).trans (if_neg hdamaged)
  unfold tryLoadText
  simp only [hfound, hread, Option.getD_some, hnone, ite_self]

/-- A payload that does not load takes its file with it. -/
theorem tryLoadText_of_rejected (henabled : kc.enabled = true) (hopen : env.openOk = true)
    (hfound : findTextPrefix kc promptText (ops.ctx session) d = some e)
    (hread : d.read e.path = some fp) (hlisted : listedEntry ⟨e.path, fp⟩ = some e)
    (hintact : TextIntact promptText e fp)
    (hrejected : ¬ payloadAccepted ops e.toHeader (loadedPayload ops session e fp)) :
    tryLoadText ops tokenize loadFlag kc env session promptText d =
      ⟨kc, ops.rewindToStart (loadedPayload ops session e fp).1,
        if env.unlinkOk e.path then d.unlink e.path else d, 0, [], none, none⟩ := by
  have hsome := (loadableHeader_eq hfound hlisted).trans (if_pos hintact)
  unfold tryLoadText
  simp only [hfound, hread, Option.getD_some, hsome]
  rw [if_neg (not_not.mpr henabled), if_neg (not_not.mpr hopen)]
  exact if_neg hrejected

/-- A payload that loads gives the session as many tokens as its header says. -/
theorem tryLoadText_of_accepted (henabled : kc.enabled = true) (hopen : env.openOk = true)
    (hfound : findTextPrefix kc promptText (ops.ctx session) d = some e)
    (hread : d.read e.path = some fp) (hlisted : listedEntry ⟨e.path, fp⟩ = some e)
    (hintact : TextIntact promptText e fp)
    (haccepted : payloadAccepted ops e.toHeader (loadedPayload ops session e fp)) :
    let out := tryLoadText ops tokenize loadFlag kc env session promptText d
    0 < out.loaded ∧ out.session = (loadedPayload ops session e fp).1 ∧
      out.loaded = (ops.tokens out.session).length ∧
      out.effectivePrompt = ops.tokens out.session ++ tokenize (promptText.drop e.textBytes) ∧
      (∃ consumed, out.result = some (e.toHeader, consumed, e.path)) ∧
      out.kc = { kc with continuedLastStoreTokens := out.loaded } ∧
      out.dir = (afterLoad kc env e.toHeader e.path fp d).1 := by
  have hsome := (loadableHeader_eq hfound hlisted).trans (if_pos hintact)
  obtain ⟨-, -, -, hheader, -, -⟩ := readEntryFile_spec (listedEntry_spec hlisted).2
  obtain ⟨hpos, hlt, -, -⟩ := readHeader_spec hheader
  have hlength := haccepted.2
  unfold tryLoadText
  simp only [hfound, hread, Option.getD_some, hsome]
  rw [if_neg (not_not.mpr henabled), if_neg (not_not.mpr hopen)]
  unfold loadedPayload at haccepted hlength ⊢
  rw [if_pos haccepted]
  refine ⟨?_, rfl, rfl, rfl, ⟨_, rfl⟩, rfl, rfl⟩
  show 0 < (ops.tokens _).length
  rw [toInt32, Nat.mod_eq_of_lt hlt] at hlength
  split at hlength <;> omega

/-- A payload that loads gives tokens. -/
theorem tryLoadText_accepted_pos (tokenize : Bytes → Tokens) (loadFlag : Option UInt8)
    (henabled : kc.enabled = true) (hopen : env.openOk = true)
    (hfound : findTextPrefix kc promptText (ops.ctx session) d = some e)
    (hread : d.read e.path = some fp) (hlisted : listedEntry ⟨e.path, fp⟩ = some e)
    (hintact : TextIntact promptText e fp)
    (haccepted : payloadAccepted ops e.toHeader (loadedPayload ops session e fp)) :
    0 < (tryLoadText ops tokenize loadFlag kc env session promptText d).loaded :=
  (tryLoadText_of_accepted henabled hopen hfound hread hlisted hintact haccepted).1

/-- What a load can do to the directory: nothing, or to the file it selected, which goes or
has its header made anew. The budget stays. -/
theorem tryLoadText_dir (ops : SessionOps σ) (tokenize : Bytes → Tokens) (loadFlag : Option UInt8)
    (kc : KvCache) (env : LoadEnv) (session : σ) (promptText : Bytes) (d : Directory) :
    let out := tryLoadText ops tokenize loadFlag kc env session promptText d
    (out.dir = d ∨ ∃ e fp, d.read e.path = some fp ∧ listedEntry ⟨e.path, fp⟩ = some e ∧
      (out.dir = d.unlink e.path ∨
        ∃ hits, out.dir = d.write e.path (touchFile env.stamp hits fp))) ∧
      out.kc.budgetBytes = kc.budgetBytes ∧ out.kc.enabled = kc.enabled := by
  intro out
  have hmiss : out = ⟨kc, session, d, 0, [], none, none⟩ →
      (out.dir = d ∨ ∃ e fp, d.read e.path = some fp ∧ listedEntry ⟨e.path, fp⟩ = some e ∧
        (out.dir = d.unlink e.path ∨
          ∃ hits, out.dir = d.write e.path (touchFile env.stamp hits fp))) ∧
        out.kc.budgetBytes = kc.budgetBytes ∧ out.kc.enabled = kc.enabled := by
    intro h
    rw [h]
    exact ⟨Or.inl rfl, rfl, rfl⟩
  have hout : out = tryLoadText ops tokenize loadFlag kc env session promptText d := rfl
  by_cases henabled : kc.enabled = true
  case neg =>
    refine hmiss ?_
    rw [hout, tryLoadText, if_pos henabled]
  cases hfound : findTextPrefix kc promptText (ops.ctx session) d with
  | none =>
    refine hmiss ?_
    rw [hout, tryLoadText, if_neg (not_not.mpr henabled)]
    simp only [hfound]
  | some e =>
    by_cases hopen : env.openOk = true
    case neg =>
      refine hmiss ?_
      rw [hout, tryLoadText, if_neg (not_not.mpr henabled)]
      simp only [hfound]
      exact if_pos hopen
    obtain ⟨fp, hread, hlisted⟩ := exists_file_of_found hfound
    by_cases hintact : TextIntact promptText e fp
    case neg => exact hmiss (tryLoadText_of_damaged hfound hread hlisted hintact)
    by_cases haccepted : payloadAccepted ops e.toHeader (loadedPayload ops session e fp)
    · obtain ⟨-, -, -, -, -, hkc, hdir⟩ := tryLoadText_of_accepted henabled hopen hfound hread
        hlisted hintact haccepted
      have hkc' : out.kc = { kc with continuedLastStoreTokens := out.loaded } := hkc
      refine ⟨?_, by rw [hkc'], by rw [hkc']⟩
      have hdir' : out.dir = _ := hdir
      rw [hdir', afterLoad]
      split
      · dsimp only
        split
        · exact Or.inr ⟨e, fp, hread, hlisted, Or.inl rfl⟩
        · exact Or.inl rfl
      · dsimp only
        split
        · exact Or.inr ⟨e, fp, hread, hlisted, Or.inr ⟨_, rfl⟩⟩
        · exact Or.inl rfl
    · have hrejected : out = _ :=
        tryLoadText_of_rejected henabled hopen hfound hread hlisted hintact haccepted
      rw [hrejected]
      refine ⟨?_, rfl, rfl⟩
      dsimp only
      split
      · exact Or.inr ⟨e, fp, hread, hlisted, Or.inl rfl⟩
      · exact Or.inl rfl

/-- What was loaded was selected, opened and accepted. -/
theorem tryLoadText_loads
    (h : 0 < (tryLoadText ops tokenize loadFlag kc env session promptText d).loaded) :
    ∃ e fp, kc.enabled = true ∧ env.openOk = true ∧
      findTextPrefix kc promptText (ops.ctx session) d = some e ∧ d.read e.path = some fp ∧
      listedEntry ⟨e.path, fp⟩ = some e ∧ TextIntact promptText e fp ∧
      payloadAccepted ops e.toHeader (loadedPayload ops session e fp) := by
  by_cases henabled : kc.enabled = true
  case neg =>
    rw [tryLoadText, if_pos henabled] at h
    exact absurd h (Nat.lt_irrefl 0)
  cases hfound : findTextPrefix kc promptText (ops.ctx session) d with
  | none =>
    rw [tryLoadText, if_neg (not_not.mpr henabled)] at h
    simp only [hfound] at h
    exact absurd h (Nat.lt_irrefl 0)
  | some e =>
    obtain ⟨fp, hread, hlisted⟩ := exists_file_of_found hfound
    by_cases hopen : env.openOk = true
    case neg =>
      rw [tryLoadText, if_neg (not_not.mpr henabled)] at h
      simp only [hfound] at h
      rw [if_pos hopen] at h
      exact absurd h (Nat.lt_irrefl 0)
    by_cases hintact : TextIntact promptText e fp
    case neg =>
      rw [tryLoadText_of_damaged hfound hread hlisted hintact] at h
      exact absurd h (Nat.lt_irrefl 0)
    by_cases haccepted : payloadAccepted ops e.toHeader (loadedPayload ops session e fp)
    · exact ⟨e, fp, henabled, hopen, rfl, hread, hlisted, hintact, haccepted⟩
    · rw [tryLoadText_of_rejected henabled hopen hfound hread hlisted hintact haccepted] at h
      exact absurd h (Nat.lt_irrefl 0)

theorem length_touchFile (stamp hits : Nat) {fp : Bytes} (h : fixedHeader ≤ fp.length) :
    (touchFile stamp hits fp).length = fp.length := by
  rw [touchFile]
  split
  · rfl
  · rw [List.length_append, length_fillHeader, List.length_drop]
    omega

/-- A load makes no room less. -/
theorem totalBytes_tryLoadText_le (ops : SessionOps σ) (tokenize : Bytes → Tokens)
    (loadFlag : Option UInt8) (kc : KvCache) (env : LoadEnv) (session : σ) (promptText : Bytes)
    (d : Directory) :
    totalBytes (tryLoadText ops tokenize loadFlag kc env session promptText d).dir ≤ totalBytes d := by
  rcases (tryLoadText_dir ops tokenize loadFlag kc env session promptText d).1 with
    hdir | ⟨e, fp, hread, hlisted, hdir | ⟨hits, hdir⟩⟩
  · rw [hdir]
  · rw [hdir]
    exact Directory.weight_unlink_le entryBytes _
  · have hmem := Directory.read_eq_some_iff.mp hread
    obtain ⟨-, -, -, -, hend, -⟩ := readEntryFile_spec (listedEntry_spec hlisted).2
    have hlen : (touchFile env.stamp hits fp).length = fp.length := by
      refine length_touchFile _ _ (Nat.le_trans ?_ hend)
      rw [Header.bodyEnd]
      omega
    have hnew := entryBytes_le ⟨e.path, touchFile env.stamp hits fp⟩
    dsimp only at hnew
    rw [hdir, totalBytes, totalBytes, Directory.weight_write, Directory.weight_unlink hmem,
      entryBytes_of_listed hlisted]
    dsimp only
    omega

end

end Sf37.KvStore

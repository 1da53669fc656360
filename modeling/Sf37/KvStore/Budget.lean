/-
Sf37.KvStore.Budget — the size of all checkpoints of a store, over any run of its calls.

* `totalBytes_rewritten`, `storeFresh_total_le`: what the two ways of a store weigh.
* `KvState.step_withinBudget`: one call keeps the budget where its trailer fits.
* `run_withinBudget`: so does every run of such calls.
-/
import Sf37.KvStore.TryLoad
import Sf37.KvStore.EngineSession
import Sf37.Run.Guarded

namespace Sf37.KvStore

open Sf37.Text Sf37.Store Sf37.Run
open Sf37.Server (Token Tokens)
open Sf37.Engine (Session cpuDevice)

variable {σ : Type} {ops : SessionOps σ} {sc : Scoring} {tokenText : Token → Bytes}
  {tokenize : Bytes → Tokens} {kc : KvCache} {call : StoreCall} {env : StoreEnv} {session : σ}
  {d : Directory} {text : Bytes} {trailerEst : Nat}

/-! ## Calls -/

/-- What a store is between two calls. -/
structure KvState where
  kc : KvCache
  dir : Directory

/-- The calls of a store, each with the session it is made for. -/
inductive KvEvent (σ : Type) where
  | store (call : StoreCall) (env : StoreEnv) (session : σ)
  | tryLoad (loadFlag : Option UInt8) (env : LoadEnv) (session : σ) (promptText : Bytes)
  | evict (unlinkOk : Bytes → Bool) (now extraBytes : Nat) (incoming : Option EvictionContext)

/-- A call. -/
def KvState.step (ops : SessionOps σ) (sc : Scoring) (tokenText : Token → Bytes)
    (tokenize : Bytes → Tokens) (s : KvState) : KvEvent σ → KvState
  | .store call env session =>
      ⟨s.kc, (storeLivePrefixText ops sc tokenText s.kc call env session s.dir).dir⟩
  | .tryLoad loadFlag env session promptText =>
      let out := tryLoadText ops tokenize loadFlag s.kc env session promptText s.dir
      ⟨out.kc, out.dir⟩
  | .evict unlinkOk now extraBytes incoming =>
      ⟨s.kc, (KvStore.evict s.kc sc unlinkOk now extraBytes incoming s.dir).dir⟩

/-- A store was opened with a budget, on files whose sizes add up in 64 bits. -/
def Opened (sc : Scoring) (s : KvState) : Prop :=
  ∃ now budgetMb rejectDifferentQuant minTokens coldMaxTokens d,
    totalBytes d < 2 ^ 64 ∧ 0 < s.kc.budgetBytes ∧
      (s.kc, s.dir) =
        kvstoreOpen sc (fun _ => true) now budgetMb rejectDifferentQuant minTokens coldMaxTokens d

theorem KvState.dir_eq {s : KvState} (h : s = ⟨kc, d⟩) : s.dir = d := by
  rw [h]

/-! ## Trailers that fit -/

/-- A trailer that is written over that of a stored file fits next to the other files. -/
def RewriteFits (kc : KvCache) (call : StoreCall) (env : StoreEnv) (ctx : Nat) (text : Bytes)
    (d : Directory) : Prop :=
  let sha := sha1BytesHex text
  AsksTrailer call.hooks text → env.openOk = true → ∀ fp e, d.read (kvName sha) = some fp →
    readEntryFile ⟨kvName sha, fp⟩ sha = some e →
    compatibleFile kc ctx sha text ⟨kvName sha, fp⟩ e = true →
    totalBytes (d.unlink (kvName sha)) + e.bodyEnd + (kvTrailerWrite call.hooks text).bytes.length ≤
      kc.budgetBytes

/-- The trailer of a new file that gets as far as its name is no longer than it was said to be,
or there is room for it as things stand. -/
def FreshFits (ops : SessionOps σ) (kc : KvCache) (call : StoreCall) (env : StoreEnv) (session : σ)
    (text : Bytes) (trailerEst : Nat) (d : Directory) : Prop :=
  let trailer := (kvTrailerWrite call.hooks text).bytes.length
  ∀ payload, env.stageOk = true → ops.stagePayload session = some payload →
    (fileSizeFits kc text.length payload.length trailerEst).isSome = true →
    Publishes kc call env text payload →
    trailer ≤ trailerEst ∨
      totalBytes d + (fixedHeader + 4 + text.length + payload.length + trailer) ≤ kc.budgetBytes

/-- The trailer of a store that reaches its key fits, and where it makes room every unlink
succeeds. -/
def StoreFits (ops : SessionOps σ) (tokenText : Token → Bytes) (s : KvState) : KvEvent σ → Prop
  | .store call env session =>
      let text := call.text tokenText
      call.Reaches tokenText s.kc (ops.tokens session) →
        RewriteFits s.kc call env (ops.ctx session) text s.dir ∧
          (¬ Compatible s.kc (ops.ctx session) (sha1BytesHex text) text s.dir →
            (∀ n, env.unlinkOk n = true) ∧
              FreshFits ops s.kc call env session text
                ((kvTrailerSerializedSize call.hooks text).getD 0) s.dir)
  | .tryLoad .. => True
  | .evict .. => True

/-- What is kept. -/
structure WithinBudget (s : KvState) : Prop where
  enabled : s.kc.enabled = true
  budget_pos : 0 < s.kc.budgetBytes
  budget_lt : s.kc.budgetBytes < 2 ^ 64
  total_le : totalBytes s.dir ≤ s.kc.budgetBytes

/-! ## Sizes -/

theorem le_of_budgetRequired {fileBytes required : Nat}
    (h : kvCacheBudgetRequired fileBytes = some required) : fileBytes ≤ required := by
  unfold kvCacheBudgetRequired at h
  dsimp only at h
  generalize (if fileBytes % 100 ≠ 0 then fileBytes / 100 + 1 else fileBytes / 100) = slack at h
  split at h
  · nomatch h
  · have := Option.some.inj h
    omega

theorem fileSizeFits_some {textBytes payloadBytes trailerBytes est : Nat}
    (h : fileSizeFits kc textBytes payloadBytes trailerBytes = some est) (hb : 0 < kc.budgetBytes) :
    est = fixedHeader + 4 + textBytes + payloadBytes + trailerBytes ∧ est ≤ kc.budgetBytes := by
  obtain ⟨size, hsize, hrest⟩ := Option.bind_eq_some_iff.mp h
  rw [if_neg (by omega)] at hrest
  obtain ⟨required, hrequired, hle⟩ := Option.bind_eq_some_iff.mp hrest
  have hslack := le_of_budgetRequired hrequired
  rw [kvCacheFileSizeBytes] at hsize
  split at hsize
  · nomatch hsize
  split at hle
  · have heq := Option.some.inj hsize
    obtain rfl := Option.some.inj hle
    exact ⟨heq.symm, by omega⟩
  · nomatch hle

/-- A file whose trailer was rewritten. -/
theorem totalBytes_rewritten {fp : Bytes} {h : Header} {n fp' : Bytes}
    (hrewritten : Rewritten call.hooks text fp h fp') :
    totalBytes (d.write n fp') ≤
      totalBytes (d.unlink n) + h.bodyEnd + (kvTrailerWrite call.hooks text).bytes.length := by
  have hle := entryBytes_le ⟨n, fp'⟩
  dsimp only at hle
  rw [hrewritten.length] at hle
  rw [totalBytes, totalBytes, Directory.weight_write]
  omega

/-- A trailer fits where there is room for it behind everything. -/
theorem rewriteFits_of_room {ctx n : Nat} (hn : (kvTrailerWrite call.hooks text).bytes.length = n)
    (h : totalBytes d + n ≤ kc.budgetBytes) : RewriteFits kc call env ctx text d := by
  intro _ _ fp e hread hentry _
  obtain ⟨-, -, -, -, hend, -⟩ := readEntryFile_spec hentry
  have hlisted : listedEntry ⟨kvName (sha1BytesHex text), fp⟩ = some e := by
    rw [listedEntry, shaHexName_kvName_sha1]
    exact hentry
  rw [← entryBytes_of_listed hlisted] at hend
  have hweight := Directory.weight_unlink (w := entryBytes) (Directory.read_eq_some_iff.mp hread)
  rw [totalBytes, hweight] at h
  rw [totalBytes, hn]
  dsimp only at h
  omega

theorem totalBytes_afterExisting_le (kc : KvCache) (unlinkOk : Bytes → Bool) (ctx : Nat)
    (sha text : Bytes) (d : Directory) :
    totalBytes (afterExisting kc unlinkOk ctx sha text d) ≤ totalBytes d :=
  totalBytes_le_of_sub fun f hf => afterExisting_sub f hf

/-- A new file finds the room that was made for it, or room that was there. -/
theorem storeFresh_total_le (hunlink : ∀ n, env.unlinkOk n = true) (henabled : kc.enabled = true)
    (hpos : 0 < kc.budgetBytes) (hlt : kc.budgetBytes < 2 ^ 64) (hd : totalBytes d ≤ kc.budgetBytes)
    (hfits : FreshFits ops kc call env session text trailerEst d) :
    totalBytes (storeFresh ops sc kc call env session (sha1BytesHex text) text trailerEst d).dir ≤
      kc.budgetBytes := by
  rcases storeFresh_cases ops sc kc call env session (sha1BytesHex text) text trailerEst d with
    hstop | ⟨payload, est, incoming, hstageOk, hstage, hest, hr⟩
  · rw [hstop]
    exact hd
  · rw [hr]
    obtain ⟨hsize, hle⟩ := fileSizeFits_some hest hpos
    have hroom := totalBytes_evict_le sc env.now (some incoming) hunlink henabled hpos hle
      (Nat.lt_of_le_of_lt hd hlt)
    have hless := (evict_frame kc sc env.unlinkOk env.now est (some incoming) d).totalBytes_le
    have hpublish := publish_total_le kc call env
      (newHeader call env (ops.ctx session) call.storeTokens.length text payload trailerEst) text text
      payload (KvStore.evict kc sc env.unlinkOk env.now est (some incoming) d).dir
    refine Nat.le_trans hpublish ?_
    split
    next hok =>
      have hroomFor := hfits payload hstageOk hstage (Option.isSome_iff_exists.mpr ⟨_, hest⟩)
        (publish_ok_iff.mp hok)
      rw [publishedFile, length_newFile]
      rcases hroomFor with hshort | hthere <;> omega
    · omega

/-! ## One call -/

/-- A store whose trailer fits keeps the budget. -/
theorem store_total_le {s : KvState} (h : WithinBudget s)
    (hfits : StoreFits ops tokenText s (.store call env session)) :
    totalBytes (storeLivePrefixText ops sc tokenText s.kc call env session s.dir).dir ≤
      s.kc.budgetBytes := by
  rcases storeLivePrefixText_cases ops sc tokenText s.kc call env session s.dir with
    ⟨-, hr⟩ | ⟨hreach, hcompatible, fp, hread, hr⟩ | ⟨hreach, hnot, hr⟩
  · rw [hr]
    exact h.total_le
  · rw [hr]
    obtain ⟨fp', e, hread', hentry, hok⟩ := hcompatible
    obtain rfl := Option.some.inj (hread.symm.trans hread')
    rcases kvCacheRewriteTrailer_cases call.hooks env.openOk env.stamp (call.text tokenText) fp with
      hsame | ⟨hasks, hopen, hdr, hhdr, hrewritten⟩
    · rw [hsame]
      have hfile := Directory.read_eq_some_iff.mp hread
      have hweight := Directory.weight_unlink (w := entryBytes) hfile
      have htotal := h.total_le
      rw [totalBytes, hweight] at htotal
      rw [totalBytes, Directory.weight_write]
      dsimp only at htotal ⊢
      omega
    · obtain ⟨-, -, -, hheader, -, -⟩ := readEntryFile_spec hentry
      obtain rfl := Option.some.inj (hhdr.symm.trans hheader)
      have hroom := (hfits hreach).1 hasks hopen fp e hread hentry hok
      exact Nat.le_trans (totalBytes_rewritten hrewritten) hroom
  · rw [hr]
    have hless := totalBytes_afterExisting_le s.kc env.unlinkOk (ops.ctx session)
      (sha1BytesHex (call.text tokenText)) (call.text tokenText) s.dir
    obtain ⟨hunlink, hfresh⟩ := (hfits hreach).2 hnot
    refine storeFresh_total_le hunlink h.enabled h.budget_pos h.budget_lt
      (Nat.le_trans hless h.total_le) fun payload hstageOk hstage hest hpublish => ?_
    rcases hfresh payload hstageOk hstage hest hpublish with hshort | hthere
    · exact Or.inl hshort
    · exact Or.inr (Nat.le_trans (Nat.add_le_add_right hless _) hthere)

/-- A call whose trailer fits keeps the budget. -/
theorem KvState.step_withinBudget {s : KvState} {e : KvEvent σ} (h : WithinBudget s)
    (hfits : StoreFits ops tokenText s e) : WithinBudget (s.step ops sc tokenText tokenize e) := by
  cases e with
  | store call env session =>
    exact { h with total_le := store_total_le h hfits }
  | tryLoad loadFlag env session promptText =>
    obtain ⟨-, hbudget, henabled⟩ :=
      tryLoadText_dir ops tokenize loadFlag s.kc env session promptText s.dir
    have hless := totalBytes_tryLoadText_le ops tokenize loadFlag s.kc env session promptText s.dir
    have htotal := h.total_le
    refine ⟨henabled.trans h.enabled, ?_, ?_, ?_⟩
    · exact hbudget.symm ▸ h.budget_pos
    · exact hbudget.symm ▸ h.budget_lt
    · exact hbudget.symm ▸ Nat.le_trans hless htotal
  | evict unlinkOk now extraBytes incoming =>
    have hless := (evict_frame s.kc sc unlinkOk now extraBytes incoming s.dir).totalBytes_le
    exact { h with total_le := Nat.le_trans hless h.total_le }

theorem Opened.withinBudget {s : KvState} (h : Opened sc s) : WithinBudget s := by
  obtain ⟨now, budgetMb, rejectDifferentQuant, minTokens, coldMaxTokens, d, hd, hpos, hopen⟩ := h
  obtain ⟨hkc, hdir⟩ := Prod.mk.inj hopen
  have henabled : s.kc.enabled = true := by
    rw [hkc]
  have hlt : s.kc.budgetBytes < 2 ^ 64 := by
    rw [hkc]
    exact Nat.mod_lt _ (by decide)
  refine ⟨henabled, hpos, hlt, ?_⟩
  rw [hdir, ← hkc]
  exact totalBytes_evict_le sc now none (fun _ => rfl) henabled hpos (Nat.zero_le _) hd

/-! ## A store with one file -/

/-- A store of one MiB, opened on a directory with one checkpoint. -/
def oneFileStore : KvState := ⟨.small, oneFile intactFile⟩

theorem totalBytes_intact : totalBytes (oneFile intactFile) = 630185 := by
  have hlen : intactFile.bytes.length = 630185 := by
    rw [intactFile, oneTokenFile, length_newFile, length_cpuPayload]
    rfl
  rw [totalBytes_oneFile, entryBytes_of_listed listed_intact, hlen]

theorem opened_oneFileStore : Opened .byLastUse oneFileStore := by
  have htotal := totalBytes_intact
  refine ⟨0, 1, false, 1, 0, oneFile intactFile, by omega, by decide, ?_⟩
  have hkeep : KvStore.evict .small .byLastUse (fun _ => true) 0 0 none (oneFile intactFile) =
      ⟨oneFile intactFile, []⟩ := by
    refine evict_eq_self _ _ _ _ ?_ (by omega)
    rw [htotal]
    decide
  exact congrArg (fun r : Evicted => (KvCache.small, r.dir)) hkeep.symm

/-- Hooks that write a trailer, and say how long it is. -/
def trailerHooks (trailer : Bytes) : TrailerHooks where
  extFlag := 1
  serializedSize := some fun _ => some trailer.length
  write := some fun _ => ⟨trailer, true, trailer.length⟩

/-- The text of the checkpoint stored again, with such a trailer. -/
def storeAgain (trailer : Bytes) : StoreResult :=
  storeLivePrefixText (engineOps cpuDevice .ofZeros .ok) .byLastUse textOfTokens .small
    (.ofTokens [7] (some (trailerHooks trailer))) .quiet oneToken (oneFile intactFile)

theorem compatible_intact :
    Compatible .small 16 (sha1BytesHex [0x61]) [0x61] (oneFile intactFile) := by
  refine ⟨_, _, read_oneFile intactFile, (listedEntry_spec listed_intact).2, ?_⟩
  have hmatches : kvCacheFileTextMatches intactFile.bytes (sha1BytesHex [0x61]) [0x61] = true :=
    kvCacheFileTextMatches_newFile intact_writable (Header.oneToken_describes _ _ _) _
  rw [compatibleFile, Bool.and_eq_true]
  exact ⟨by decide, hmatches⟩

/-- The file after that. -/
def fileWithTrailer (trailer : Bytes) : Bytes :=
  newFile ((Header.oneToken 16 [0x61] (oneTokenPayload cpuDevice)).withTrailer 1 0) [0x61]
    (oneTokenPayload cpuDevice) trailer

theorem storeAgain_eq {trailer : Bytes} (h : 0 < trailer.length) :
    storeAgain trailer =
      ⟨(oneFile intactFile).write intactFile.name (fileWithTrailer trailer), true, []⟩ := by
  have hreach : (StoreCall.ofTokens [7] (some (trailerHooks trailer))).Reaches textOfTokens .small
      [7] := ⟨rfl, rfl, (by decide : (1 : Int) ≤ 1), rfl, (by decide : 1 ≤ uint32Max), rfl⟩
  have hend : (Header.oneToken 16 [0x61] (oneTokenPayload cpuDevice)).bodyEnd ≤ 2 ^ 63 - 1 := by
    rw [bodyEnd_oneToken, length_cpuPayload]
    decide
  have hrewrite := kvCacheRewriteTrailer_newFile intact_writable
    (Header.oneToken_describes 16 [0x61] (oneTokenPayload cpuDevice)) hend
    (h := trailerHooks trailer) rfl rfl rfl (Nat.ne_of_gt h) rfl h 0 []
  rcases storeLivePrefixText_cases (engineOps cpuDevice .ofZeros .ok) .byLastUse textOfTokens .small
    (.ofTokens [7] (some (trailerHooks trailer))) .quiet oneToken (oneFile intactFile) with
    ⟨hnot, -⟩ | ⟨-, -, fp, hread, hr⟩ | ⟨-, hnot, -⟩
  · exact absurd hreach hnot
  · have hfile : (oneFile intactFile).read intactFile.name = some fp := hread
    obtain rfl := Option.some.inj (hfile.symm.trans (read_oneFile intactFile))
    refine hr.trans ?_
    exact congrArg (fun b => StoreResult.mk ((oneFile intactFile).write intactFile.name b) true [])
      hrewrite
  · exact absurd compatible_intact hnot

theorem listed_fileWithTrailer (trailer : Bytes) :
    (listedEntry ⟨intactFile.name, fileWithTrailer trailer⟩).isSome = true := by
  have hw := intact_writable.withTrailer 1 (Nat.zero_le uint64Max)
  have hd := (Header.oneToken_describes 16 [0x61] (oneTokenPayload cpuDevice)).withTrailer 1 0
  have hend : (Header.oneToken 16 [0x61] (oneTokenPayload cpuDevice)).bodyEnd ≤ uint64Max :=
    bodyEnd_oneToken_le (by decide) length_cpuPayload_le
  rw [← Header.bodyEnd_withTrailer _ 1 0] at hend
  exact Option.isSome_iff_exists.mpr ⟨_, listedEntry_newFile hw hd hend [0x61] trailer⟩

theorem step_oneFileStore (trailer : Bytes) :
    oneFileStore.step (engineOps cpuDevice .ofZeros .ok) .byLastUse textOfTokens (fun _ => [])
      (.store (.ofTokens [7] (some (trailerHooks trailer))) .quiet oneToken) =
      ⟨.small, (storeAgain trailer).dir⟩ := by
  unfold KvState.step storeAgain oneFileStore
  rfl

/-- It is the only one, and longer by the trailer. -/
theorem totalBytes_storeAgain {trailer : Bytes} (h : 0 < trailer.length) :
    totalBytes (storeAgain trailer).dir = 630185 + trailer.length ∧
      entryBytes ⟨intactFile.name, fileWithTrailer trailer⟩ = 630185 + trailer.length := by
  obtain ⟨e, he⟩ := Option.isSome_iff_exists.mp (listed_fileWithTrailer trailer)
  have hsize : entryBytes ⟨intactFile.name, fileWithTrailer trailer⟩ = 630185 + trailer.length := by
    rw [entryBytes_of_listed he, fileWithTrailer, length_newFile, List.length_singleton,
      length_cpuPayload, fixedHeader]
  have hmem : intactFile ∈ (oneFile intactFile).files := List.mem_singleton_self intactFile
  have hone := totalBytes_oneFile intactFile
  rw [totalBytes, Directory.weight_unlink hmem] at hone
  rw [storeAgain_eq h, totalBytes, Directory.weight_write, hsize]
  exact ⟨by omega, rfl⟩

/-- The text `b`, with a trailer of one byte. -/
def storeOther : StoreCall :=
  { StoreCall.ofTokens [7] (some (trailerHooks [0])) with cacheTextOverride := some [0x62] }

theorem storeOther_fits :
    fileSizeFits .small 1 (oneTokenPayload cpuDevice).length 1 = some 630186 := by
  rw [length_cpuPayload]
  decide

theorem storeOther_publishes : Publishes .small storeOther .quiet [0x62] (oneTokenPayload cpuDevice) := by
  have hwritten : (kvTrailerWrite storeOther.hooks [0x62]).written = 1 := rfl
  refine ⟨rfl, rfl, rfl, ?_, rfl⟩
  rw [hwritten, List.length_singleton, storeOther_fits]
  rfl

/-- Where that text is not stored, a new file is made of it. -/
theorem storeOther_eq (hread : d.read (kvName (sha1BytesHex [0x62])) = none) :
    storeLivePrefixText (engineOps cpuDevice .ofZeros .ok) .byLastUse textOfTokens .small
      storeOther .quiet oneToken d =
      storeFresh (engineOps cpuDevice .ofZeros .ok) .byLastUse .small storeOther .quiet oneToken
        (sha1BytesHex [0x62]) [0x62] 1 d := by
  have hreach : storeOther.Reaches textOfTokens .small [7] :=
    ⟨rfl, rfl, (by decide : (1 : Int) ≤ 1), rfl, (by decide : 1 ≤ uint32Max), rfl⟩
  have hafter : afterExisting .small (fun _ => true) 16 (sha1BytesHex [0x62]) [0x62] d = d := by
    refine afterExisting_eq ?_
    rintro ⟨⟨fp, e, hfound, -⟩, -⟩
    rw [hread] at hfound
    nomatch hfound
  rcases storeLivePrefixText_cases (engineOps cpuDevice .ofZeros .ok) .byLastUse textOfTokens .small
    storeOther .quiet oneToken d with
    ⟨hnot, -⟩ | ⟨-, ⟨fp, e, hfound, -⟩, -⟩ | ⟨-, -, hr⟩
  · exact absurd hreach hnot
  · have hnone := hread.symm.trans hfound
    nomatch hnone
  · have hr' : storeLivePrefixText (engineOps cpuDevice .ofZeros .ok) .byLastUse textOfTokens .small
        storeOther .quiet oneToken d = storeFresh (engineOps cpuDevice .ofZeros .ok) .byLastUse .small
          storeOther .quiet oneToken (sha1BytesHex [0x62]) [0x62] 1
          (afterExisting .small (fun _ => true) 16 (sha1BytesHex [0x62]) [0x62] d) := hr
    rw [hr', hafter]

theorem storeAgain_dir {trailer : Bytes} (h : 0 < trailer.length) :
    (storeAgain trailer).dir =
      (oneFile intactFile).write intactFile.name (fileWithTrailer trailer) := by
  rw [storeAgain_eq h]

theorem storeAgain_read : (storeAgain [0]).dir.read (kvName (sha1BytesHex [0x62])) = none := by
  have hne : kvName (sha1BytesHex [0x62]) ≠ intactFile.name := by decide +kernel
  rw [storeAgain_dir (by decide), Directory.read_eq_none_iff]
  intro f hf hname
  rcases Directory.mem_write.mp hf with rfl | ⟨hf, -⟩
  · exact hne hname.symm
  · rw [List.mem_singleton.mp hf] at hname
    exact hne hname.symm

/-- A file for which there is no room next to it goes. -/
theorem storeOther_evicts {n b : Bytes} (hread : d.read (kvName (sha1BytesHex [0x62])) = none)
    (hf : ⟨n, b⟩ ∈ d.files) (hlarge : KvCache.small.budgetBytes < entryBytes ⟨n, b⟩ + 630186)
    (hd : totalBytes d < 2 ^ 64) :
    let r := storeLivePrefixText (engineOps cpuDevice .ofZeros .ok) .byLastUse textOfTokens .small
      storeOther .quiet oneToken d
    n ∈ r.victims ∧ r.ok = true := by
  obtain ⟨hok, incoming, hvictims⟩ := storeFresh_publishes (engineOps cpuDevice .ofZeros .ok)
    .byLastUse .small storeOther .quiet oneToken (sha1BytesHex [0x62]) [0x62] 1 d rfl
    (save_oneToken cpuDevice) storeOther_fits storeOther_publishes
  intro r
  have hr : r = _ := storeOther_eq hread
  rw [hr, hvictims]
  exact ⟨evict_takes _ _ _ (fun _ => rfl) rfl (by decide) hd hf hlarge (by decide), hok⟩

theorem again_fits :
    StoreFits (engineOps cpuDevice .ofZeros .ok) textOfTokens oneFileStore
      (.store (.ofTokens [7] (some (trailerHooks [0]))) .quiet oneToken) := by
  have hroom : totalBytes oneFileStore.dir + 1 ≤ oneFileStore.kc.budgetBytes := by
    have hbudget : oneFileStore.kc.budgetBytes = 2 ^ 20 := rfl
    have hdir : totalBytes oneFileStore.dir = 630185 := totalBytes_intact
    omega
  have hlength : (kvTrailerWrite (some (trailerHooks [0])) [0x61]).bytes.length = 1 := rfl
  intro _
  exact ⟨rewriteFits_of_room hlength hroom, fun hnot => absurd compatible_intact hnot⟩

theorem storeOther_fitsAfter (hd : totalBytes d + 1 ≤ KvCache.small.budgetBytes) :
    StoreFits (engineOps cpuDevice .ofZeros .ok) textOfTokens ⟨.small, d⟩
      (.store storeOther .quiet oneToken) := by
  have hlength : (kvTrailerWrite storeOther.hooks [0x62]).bytes.length = 1 := rfl
  intro _
  refine ⟨rewriteFits_of_room hlength hd, fun _ => ⟨fun _ => rfl, fun _ _ _ _ _ => Or.inl ?_⟩⟩
  exact Nat.le_of_eq hlength

/-! ## Runs -/

/-- In a run of stores, loads and evictions whose trailers fit, the checkpoints are never
more than the budget. -/
theorem run_withinBudget (ops : SessionOps σ) (sc : Scoring) (tokenText : Token → Bytes)
    (tokenize : Bytes → Tokens) {s : KvState}
    (h : Comes (KvState.step ops sc tokenText tokenize) (Opened sc) (StoreFits ops tokenText) s) :
    totalBytes s.dir ≤ s.kc.budgetBytes :=
  have hinv : WithinBudget s :=
    h.invariant (fun _ => Opened.withinBudget) fun _ _ => KvState.step_withinBudget
  hinv.total_le

/-- A trailer goes behind the stored checkpoint, and a store of another text takes it away to
make room. -/
theorem run_withinBudget_evicts :
    let ops := engineOps cpuDevice .ofZeros .ok
    let s := oneFileStore.step ops .byLastUse textOfTokens (fun _ => [])
      (.store (.ofTokens [7] (some (trailerHooks [0]))) .quiet oneToken)
    let s' := s.step ops .byLastUse textOfTokens (fun _ => []) (.store storeOther .quiet oneToken)
    let r := storeLivePrefixText ops .byLastUse textOfTokens .small storeOther .quiet oneToken s.dir
    (intactFile.name ∈ r.victims ∧ r.ok = true) ∧ totalBytes s'.dir ≤ s'.kc.budgetBytes := by
  intro ops s s'
  have hs : s = ⟨.small, (storeAgain [0]).dir⟩ := step_oneFileStore [0]
  have hdir : s.dir = (storeAgain [0]).dir := KvState.dir_eq hs
  obtain ⟨htotal, hsize⟩ := @totalBytes_storeAgain [0] (by decide)
  rw [List.length_singleton] at htotal hsize
  have hmem : ⟨intactFile.name, fileWithTrailer [0]⟩ ∈ (storeAgain [0]).dir.files := by
    rw [storeAgain_dir (by decide)]
    exact Directory.mem_write.mpr (Or.inl rfl)
  have hlarge : KvCache.small.budgetBytes <
      entryBytes ⟨intactFile.name, fileWithTrailer [0]⟩ + 630186 := by
    rw [hsize]
    decide
  have hfits : StoreFits ops textOfTokens s (.store storeOther .quiet oneToken) := by
    have hbudget : KvCache.small.budgetBytes = 2 ^ 20 := rfl
    rw [hs]
    exact storeOther_fitsAfter (by omega)
  constructor
  · rw [hdir]
    exact storeOther_evicts storeAgain_read hmem hlarge (by omega)
  · exact run_withinBudget ops .byLastUse textOfTokens (fun _ => [])
      (((Comes.start opened_oneFileStore).step _ again_fits).step _ hfits)

/-- With a trailer of one MiB the store says it is done, and the checkpoint is more than the
budget. -/
theorem overBudget_storeAgain :
    Opened .byLastUse oneFileStore ∧ (storeAgain (List.replicate (2 ^ 20) 0)).ok = true ∧
      oneFileStore.kc.budgetBytes < totalBytes (storeAgain (List.replicate (2 ^ 20) 0)).dir := by
  obtain ⟨trailer, htrailer⟩ : ∃ trailer : Bytes, trailer = List.replicate (2 ^ 20) 0 := ⟨_, rfl⟩
  have hlen : trailer.length = 2 ^ 20 := by
    rw [htrailer, List.length_replicate]
  rw [← htrailer]
  refine ⟨opened_oneFileStore, congrArg StoreResult.ok (storeAgain_eq (by omega)), ?_⟩
  have hbudget : oneFileStore.kc.budgetBytes = 2 ^ 20 := rfl
  rw [hbudget, (totalBytes_storeAgain (by omega)).1]
  omega

end Sf37.KvStore

/-
Sf37.KvStore.FailedStore — what is left of a directory when a store returns false.

* `storeFresh_failed`: making room and publishing, when it fails, leaves the checkpoints
  that the eviction pass did not remove, and no new one.
* `failedStore_losesNothing_iff`: a store that fails loses nothing unless it took a valid
  file under its own key away.
-/
import Sf37.KvStore.EngineSession

namespace Sf37.KvStore

open Sf37.Text Sf37.Store
open Sf37.Server (Token Tokens)
open Sf37.Engine (Device KvCodec GpuWrites Session cpuDevice sessionSavePayload)

variable {σ : Type} {ops : SessionOps σ} {sc : Scoring} {tokenText : Token → Bytes} {kc : KvCache}
  {call : StoreCall} {env : StoreEnv} {session : σ} {d : Directory} {text : Bytes}
  {trailerEst : Nat}

/-! ## What is promised -/

/-- A valid checkpoint: it is listed, and its text hashes to its name. -/
def ValidFile (f : File) : Prop :=
  ∃ e, listedEntry f = some e ∧ sha1BytesHex (storedText f.bytes e.textBytes) = e.sha

/-- The valid checkpoints that the eviction pass did not remove are there with the same
bytes, and no checkpoint is there that was not. -/
def LosesNothing (d : Directory) (r : StoreResult) : Prop :=
  (∀ f ∈ d.files, ValidFile f → f.name ∉ r.victims → f ∈ r.dir.files) ∧
    ∀ f ∈ r.dir.files, (listedEntry f).isSome = true → f ∈ d.files

/-- The store comes to look under its key, and takes a valid checkpoint away that it finds
incompatible there. -/
def TakesOwnAway (tokenText : Token → Bytes) (kc : KvCache) (call : StoreCall) (env : StoreEnv)
    (live : Tokens) (ctx : Nat) (d : Directory) : Prop :=
  let text := call.text tokenText
  let sha := sha1BytesHex text
  call.Reaches tokenText kc live ∧ Incompatible kc ctx sha text d ∧
    (∃ fp, d.read (kvName sha) = some fp ∧ ValidFile ⟨kvName sha, fp⟩) ∧
    env.unlinkOk (kvName sha) = true

theorem ValidFile.length_name {f : File} (h : ValidFile f) : f.name.length = 43 := by
  obtain ⟨e, he, -⟩ := h
  by_contra hlen
  rw [listedEntry_of_length hlen] at he
  cases he

/-! ## Making room and publishing -/

/-- Every checkpoint that was there and was not removed is there, none is new, and what
was removed was there. -/
theorem storeFresh_failed
    (h : (storeFresh ops sc kc call env session (sha1BytesHex text) text trailerEst d).ok = false) :
    let r := storeFresh ops sc kc call env session (sha1BytesHex text) text trailerEst d
    (∀ f ∈ d.files, f.name.length = 43 → f.name ∉ r.victims → f ∈ r.dir.files) ∧
      (∀ f ∈ r.dir.files, f.name.length = 43 → f ∈ d.files) ∧
      ∀ n ∈ r.victims, ∃ f ∈ d.files, f.name = n := by
  have hname : ∀ f : File, f.name.length = 43 → f.name ≠ tmpName (sha1BytesHex text) env.pid :=
    fun f hf heq => length_tmpName text env.pid (heq ▸ hf)
  rcases storeFresh_cases ops sc kc call env session (sha1BytesHex text) text trailerEst d with
    hstop | ⟨payload, est, incoming, -, -, -, hr⟩
  · rw [hstop]
    exact ⟨fun f hf _ _ => hf, fun f hf _ => hf, nofun⟩
  · rw [hr] at h ⊢
    have hframe := evict_frame kc sc env.unlinkOk env.now est (some incoming) d
    refine ⟨fun f hf hlen hkept => ?_, fun f hf hlen => ?_, fun n hn => evict_victims hn⟩
    · exact (publish_failed h (hname f hlen)).mpr (hframe.keep f hf hkept)
    · exact hframe.sub f ((publish_failed h (hname f hlen)).mp hf)

/-! ## The whole store -/

/-- A file under the key that is in the way, and valid, is the one that is taken away. -/
theorem losesNothing_of_not_taken {r : StoreResult}
    (hkeep : ∀ f ∈ (afterExisting kc env.unlinkOk (ops.ctx session) (sha1BytesHex text) text d).files,
      f.name.length = 43 → f.name ∉ r.victims → f ∈ r.dir.files)
    (hnone : ∀ f ∈ r.dir.files, f.name.length = 43 →
      f ∈ (afterExisting kc env.unlinkOk (ops.ctx session) (sha1BytesHex text) text d).files)
    (h : Incompatible kc (ops.ctx session) (sha1BytesHex text) text d →
      env.unlinkOk (kvName (sha1BytesHex text)) = true →
      ∀ fp, d.read (kvName (sha1BytesHex text)) = some fp →
        ¬ ValidFile ⟨kvName (sha1BytesHex text), fp⟩) : LosesNothing d r := by
  refine ⟨fun f hf hvalid hkept => hkeep f ?_ hvalid.length_name hkept, fun f hf hlisted => ?_⟩
  · by_cases hgone : Incompatible kc (ops.ctx session) (sha1BytesHex text) text d ∧
        env.unlinkOk (kvName (sha1BytesHex text)) = true
    · rw [afterExisting_of_incompatible hgone.1 hgone.2, Directory.mem_unlink]
      refine ⟨hf, fun hkey => h hgone.1 hgone.2 f.bytes ?_ ?_⟩
      · rw [← hkey]
        exact Directory.mem_files_iff.mp hf
      · rw [← hkey]
        exact hvalid
    · rw [afterExisting_eq hgone]
      exact hf
  · refine afterExisting_sub f (hnone f hf ?_)
    by_contra hlen
    rw [listedEntry_of_length hlen] at hlisted
    nomatch hlisted

/-- A store that fails loses nothing, except where it took a valid checkpoint under its own
key away before it had one to put there. -/
theorem failedStore_losesNothing_iff (ops : SessionOps σ) (sc : Scoring)
    (tokenText : Token → Bytes) (kc : KvCache) (call : StoreCall) (env : StoreEnv) (session : σ)
    (d : Directory) (h : (storeLivePrefixText ops sc tokenText kc call env session d).ok = false) :
    LosesNothing d (storeLivePrefixText ops sc tokenText kc call env session d) ↔
      ¬ TakesOwnAway tokenText kc call env (ops.tokens session) (ops.ctx session) d := by
  rcases storeLivePrefixText_cases ops sc tokenText kc call env session d with
    ⟨hreach, hr⟩ | ⟨-, -, fp, -, hr⟩ | ⟨hreach, -, hr⟩
  · rw [hr]
    exact iff_of_true ⟨fun f hf _ _ => hf, fun f hf _ => hf⟩ fun htaken => hreach htaken.1
  · rw [hr] at h
    nomatch h
  · rw [hr] at h ⊢
    obtain ⟨hkeep, hnone, hvictims⟩ := storeFresh_failed h
    constructor
    · rintro ⟨hlost, -⟩ ⟨-, hincompatible, ⟨fp, hread, hvalid⟩, hunlink⟩
      rw [afterExisting_of_incompatible hincompatible hunlink] at hlost hnone hvictims
      have hkept := hlost _ (Directory.read_eq_some_iff.mp hread) hvalid fun hmem => by
        obtain ⟨f, hf, hname⟩ := hvictims _ hmem
        exact (Directory.mem_unlink.mp hf).2 hname
      exact (Directory.mem_unlink.mp (hnone _ hkept hvalid.length_name)).2 rfl
    · intro hnot
      refine losesNothing_of_not_taken hkeep hnone fun hincompatible hunlink fp hread hvalid => ?_
      exact hnot ⟨hreach, hincompatible, ⟨fp, hread, hvalid⟩, hunlink⟩

/-! ## A store that loses a file -/

/-- There is no room to stage a payload. -/
def StoreEnv.unstaged : StoreEnv := { StoreEnv.quiet with stageOk := false }

/-- The store of a session with a context of 16 tokens. -/
def storeUnstaged (d : Directory) : StoreResult :=
  storeLivePrefixText (engineOps cpuDevice .ofZeros .ok) .byLastUse textOfTokens .small
    (.ofTokens [7] none) .unstaged oneToken d

/-- A context of 32 tokens on the CPU. -/
def roomyDevice : Device := ⟨32, by decide, by decide, false, 0⟩

theorem length_roomyPayload_le : (oneTokenPayload roomyDevice).length ≤ uint32Max := by
  rw [length_oneTokenPayload]
  decide

/-- A file of the same text, of a session with such a context. -/
def roomyFile : File := oneTokenFile 32 [0x61] [0x61] (oneTokenPayload roomyDevice)

theorem listed_roomyFile :
    listedEntry roomyFile =
      some (oneTokenEntry 32 [0x61] [0x61] (oneTokenPayload roomyDevice)) :=
  listedEntry_oneToken (by decide) (by decide) length_roomyPayload_le _

/-- It is in the way of the store. -/
theorem incompatible_roomyFile :
    Incompatible .small 16 (sha1BytesHex [0x61]) [0x61] (oneFile roomyFile) := by
  refine ⟨_, _, read_oneFile roomyFile, (listedEntry_spec listed_roomyFile).2, ?_⟩
  rw [compatibleFile, Bool.and_eq_false_iff]
  left
  exact decide_eq_false fun h => absurd h.2.2 (by decide : ¬ 32 ≤ 16)

theorem validFile_roomyFile : ValidFile roomyFile :=
  ⟨_, listed_roomyFile, congrArg sha1BytesHex (storedText_newFile _ _ _ _)⟩

theorem storeUnstaged_eq :
    storeUnstaged (oneFile roomyFile) = ⟨(oneFile roomyFile).unlink roomyFile.name, false, []⟩ := by
  have hreach : (StoreCall.ofTokens [7] none).Reaches textOfTokens .small [7] := by
    decide
  have hgone : afterExisting .small (fun _ => true) 16 (sha1BytesHex [0x61]) [0x61]
      (oneFile roomyFile) = (oneFile roomyFile).unlink roomyFile.name :=
    afterExisting_of_incompatible incompatible_roomyFile rfl
  rcases storeLivePrefixText_cases (engineOps cpuDevice .ofZeros .ok) .byLastUse textOfTokens .small
    (.ofTokens [7] none) .unstaged oneToken (oneFile roomyFile) with
    ⟨hnot, -⟩ | ⟨-, hcompatible, -⟩ | ⟨-, -, hr⟩
  · exact absurd hreach hnot
  · exact absurd hcompatible incompatible_roomyFile.not_compatible
  · refine hr.trans ?_
    show storeFresh _ _ _ _ _ _ _ _ _
      (afterExisting .small (fun _ => true) 16 (sha1BytesHex [0x61]) [0x61] _) = _
    rw [hgone]
    rfl

/-- What the promise comes to in this store. -/
theorem failedStore_losesNothing_iff_unstaged :
    LosesNothing (oneFile roomyFile) (storeUnstaged (oneFile roomyFile)) ↔
      ¬ TakesOwnAway textOfTokens .small (.ofTokens [7] none) .unstaged [7] 16
        (oneFile roomyFile) :=
  failedStore_losesNothing_iff (engineOps cpuDevice .ofZeros .ok) .byLastUse textOfTokens .small
    (.ofTokens [7] none) .unstaged oneToken (oneFile roomyFile)
    (congrArg StoreResult.ok storeUnstaged_eq)

/-- The store fails, and the file that could be loaded is gone. -/
theorem not_losesNothing_unstaged :
    (storeUnstaged (oneFile roomyFile)).ok = false ∧
      ¬ LosesNothing (oneFile roomyFile) (storeUnstaged (oneFile roomyFile)) := by
  rw [storeUnstaged_eq]
  refine ⟨rfl, fun h => ?_⟩
  have hmem := h.1 roomyFile (List.mem_singleton_self _) validFile_roomyFile List.not_mem_nil
  exact (Directory.mem_unlink.mp hmem).2 rfl

end Sf37.KvStore

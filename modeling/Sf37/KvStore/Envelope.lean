/-
Sf37.KvStore.Envelope — the layout of a checkpoint file, as the functions that read it
and write into it see it.

* `newFile_readBack`, `newFile_located`, `newFile_patched`: every reader finds the fields
  and the borders that the store path wrote, and every writer keeps them.
-/
import Sf37.KvStore.EngineSession
import Sf37.Engine.LoadOutcome
import Sf37.Server.LiveTail

namespace Sf37.KvStore

open Sf37.Text Sf37.Store
open Sf37.Server (Tokens ChatMsg ReplayState chatMsgCollectToolCallIds idListPushUnique
  kvToolMapLoadFromPos lePut32)
open Sf37.Engine (Device KvCodec GpuWrites Session Source sessionLoadPayload payloadLeft payloadLeft_of_loaded)

variable {hdr : Header} {text payload trailer : Bytes}

/-! ## Restoring tool calls from the trailers -/

/-- `INT64_MAX`, the greatest `off_t`. -/
def int64Max : Nat := 2 ^ 63 - 1

/-- `KV_EXT_TOOL_MAP`. -/
def kvExtToolMap : UInt8 := 1

/-- `collect_tool_call_ids`. -/
def collectToolCallIds (msgs : List ChatMsg) : List Bytes :=
  msgs.foldl
    (fun ids m => (m.calls.v.map (·.id)).foldl idListPushUnique (chatMsgCollectToolCallIds ids m)) []

/-- What `kv_cache_restore_tool_memory_for_messages` does with one file. -/
def restoreToolMap (wanted : List Bytes) (s : ReplayState) (fp : Bytes) : ReplayState :=
  match readHeader fp with
  | none => s
  | some hdr =>
      let skip := (hdr.textBytes + hdr.payloadBytes) % 2 ^ 64
      if hdr.modelId = 37 ∧ hdr.extFlags &&& kvExtToolMap ≠ 0 ∧ skip ≤ int64Max then
        (kvToolMapLoadFromPos s (fp.drop (fixedHeader + 4 + skip)) (some wanted)).1
      else s

/-- One turn of the loop over the directory; a file may not open. -/
def restoreFromFile (openOk : Bytes → Bool) (wanted : List Bytes) (s : ReplayState) (f : File) :
    ReplayState :=
  if (shaHexName f.name).isNone ∨ ¬ openOk f.name then s else restoreToolMap wanted s f.bytes

/-- `kv_cache_restore_tool_memory_for_messages`. -/
def kvCacheRestoreToolMemoryForMessages (kc : KvCache) (openOk : Bytes → Bool) (d : Directory)
    (s : ReplayState) (msgs : List ChatMsg) : ReplayState :=
  if s.disableExactDsmlToolReplay ∨ ¬ kc.enabled then s
  else
    let wanted := collectToolCallIds msgs
    if wanted = [] then s
    else d.files.foldl (restoreFromFile openOk wanted) s

/-! ## The layout -/

/-- What the store path can lay out in a file: the fields fit their places, and no file is
longer than an `off_t` can say. -/
structure Laid (hdr : Header) (text payload trailer : Bytes) : Prop where
  writable : hdr.Writable
  describes : hdr.Describes text payload
  fits : (newFile hdr text payload trailer).length ≤ int64Max

theorem Laid.bodyEnd_le (hl : Laid hdr text payload trailer) : hdr.bodyEnd ≤ int64Max := by
  have hfits := hl.fits
  rw [length_newFile] at hfits
  rw [Header.bodyEnd, hl.describes.textBytes, hl.describes.payloadBytes]
  omega

/-- What the readers of the header make of a file. -/
structure ReadBack (hdr : Header) (text payload trailer : Bytes) : Prop where
  header : readHeader (newFile hdr text payload trailer) = some hdr
  entry : ∀ n sha, readEntryFile ⟨n, newFile hdr text payload trailer⟩ sha =
    some { hdr with
           sha := sha, path := n, fileSize := (newFile hdr text payload trailer).length }

theorem newFile_readBack (hl : Laid hdr text payload trailer) :
    ReadBack hdr text payload trailer where
  header := readHeader_newFile hl.writable text payload trailer
  entry n sha := by
    refine readEntryFile_newFile hl.writable hl.describes ?_ n sha trailer
    exact Nat.le_trans hl.bodyEnd_le (by decide)

/-! ## Borders -/

/-- What a load of a file does that holds the beginning of the prompt: the payload goes to
the session, the trailer to the hooks. -/
structure LoadsParts {σ : Type} (ops : SessionOps σ) (tokenize : Bytes → Tokens)
    (loadFlag : Option UInt8) (session : σ) (promptText : Bytes) (hdr : Header)
    (text payload trailer : Bytes) (out : LoadOutcome σ) : Prop where
  accepted : payloadAccepted ops hdr (ops.loadPayload session (payload ++ trailer) payload.length) →
    out.session = (ops.loadPayload session (payload ++ trailer) payload.length).1 ∧
      out.effectivePrompt = ops.tokens out.session ++ tokenize (promptText.drop text.length) ∧
      out.trailer =
        loadFlag.bind fun flag => if hdr.extFlags &&& flag ≠ 0 then some trailer else none
  rejected : ¬ payloadAccepted ops hdr (ops.loadPayload session (payload ++ trailer) payload.length) →
    out.session =
        ops.rewindToStart (ops.loadPayload session (payload ++ trailer) payload.length).1 ∧
      out.trailer = none

theorem tryLoadText_newFile {σ : Type} {ops : SessionOps σ} {tokenize : Bytes → Tokens}
    {loadFlag : Option UInt8} {kc : KvCache} {env : LoadEnv} {session : σ} {promptText : Bytes}
    {d : Directory} {e : Entry} (hl : Laid hdr text payload trailer) (henabled : kc.enabled = true)
    (hopen : env.openOk = true) (hfound : findTextPrefix kc promptText (ops.ctx session) d = some e)
    (hread : d.read e.path = some (newFile hdr text payload trailer))
    (hbegins : promptText.take text.length = text) :
    LoadsParts ops tokenize loadFlag session promptText hdr text payload trailer
      (tryLoadText ops tokenize loadFlag kc env session promptText d) := by
  obtain ⟨fp, hfp, hlisted⟩ := exists_file_of_found hfound
  obtain rfl : newFile hdr text payload trailer = fp := Option.some.inj (hread.symm.trans hfp)
  obtain ⟨-, -, -, hheader, -⟩ := readEntryFile_spec (listedEntry_spec hlisted).2
  have hhdr : e.toHeader = hdr :=
    Option.some.inj (hheader.symm.trans (newFile_readBack hl).header)
  have htext : e.textBytes = text.length :=
    (congrArg Header.textBytes hhdr).trans hl.describes.textBytes
  have hpayload : hdr.payloadBytes = payload.length := hl.describes.payloadBytes
  have hintact : storedText (newFile hdr text payload trailer) e.textBytes =
      promptText.take e.textBytes := by
    rw [htext, storedText_newFile, hbegins]
  have hsome := (loadableHeader_eq hfound hlisted).trans (if_pos hintact)
  rw [hhdr] at hsome
  unfold tryLoadText
  simp only [hfound, hread, Option.getD_some, hsome, hl.describes.textBytes, drop_newFile, hpayload]
  rw [if_neg (not_not.mpr henabled), if_neg (not_not.mpr hopen)]
  constructor
  · intro haccepted
    rw [if_pos haccepted]
    exact ⟨rfl, rfl, by simp only [List.drop_left']⟩
  · intro hrejected
    rw [if_neg hrejected]
    exact ⟨rfl, rfl⟩

/-- The hooks have a trailer for the text, and the file opens: `kv_cache_rewrite_trailer` goes
on to the file. -/
structure RewritesTrailer (hooks : TrailerHooks) (openOk : Bool) (keyText : Bytes) : Prop where
  writes : hooks.write.isSome
  sizes : ∃ est, kvTrailerSerializedSize (some hooks) keyText = some est ∧ est ≠ 0
  opens : openOk = true

/-- The header after `kv_cache_rewrite_trailer` went on to the file: it is written anew when the
trailer came out and is not empty. -/
def headerRewritten (hooks : TrailerHooks) (stamp : Nat) (keyText : Bytes) (hdr : Header) : Header :=
  let w := kvTrailerWrite (some hooks) keyText
  if w.ok ∧ 0 < w.written then hdr.withTrailer hooks.extFlag stamp else hdr

/-- The trailer is written anew behind the same text and payload. -/
theorem kvCacheRewriteTrailer_eq (hl : Laid hdr text payload trailer) {hooks : TrailerHooks}
    {openOk : Bool} {keyText : Bytes} (h : RewritesTrailer hooks openOk keyText) (stamp : Nat) :
    kvCacheRewriteTrailer (some hooks) openOk stamp keyText (newFile hdr text payload trailer) =
      newFile (headerRewritten hooks stamp keyText hdr) text payload
        (kvTrailerWrite (some hooks) keyText).bytes := by
  have hend := hl.bodyEnd_le
  rw [int64Max] at hend
  obtain ⟨est, hest, hpos⟩ := h.sizes
  have hsizes : hooks.serializedSize.isSome := by
    cases hs : hooks.serializedSize with
    | none => simp [kvTrailerSerializedSize, hs] at hest; omega
    | some size => rfl
  simp only [kvCacheRewriteTrailer, hest, (newFile_readBack hl).header,
    ftruncate_newFile hl.describes]
  rw [if_neg (by simp [Option.isNone_iff_eq_none, Option.isSome_iff_ne_none.mp h.writes,
    Option.isSome_iff_ne_none.mp hsizes]), if_neg (by simp [hpos, h.opens]), if_neg (by omega)]
  unfold headerRewritten
  split
  next hok =>
    rw [if_pos hok]
    exact fillHeader_drop_newFile rfl _ _ _
  next hok => rw [if_neg hok]

/-- Without a trailer to write the file is left alone. -/
theorem kvCacheRewriteTrailer_same {hooks : Option TrailerHooks} {openOk : Bool} {keyText : Bytes}
    (h : ∀ hooks' ∈ hooks, ¬ RewritesTrailer hooks' openOk keyText) (stamp : Nat) (fp : Bytes) :
    kvCacheRewriteTrailer hooks openOk stamp keyText fp = fp := by
  unfold kvCacheRewriteTrailer
  cases hooks with
  | none => rfl
  | some hooks =>
    dsimp only
    split
    · rfl
    next hset =>
      split
      · rfl
      next est hest =>
        refine if_pos ?_
        by_contra hgo
        obtain ⟨hpos, hopen⟩ := not_or.mp hgo
        have hwrite : hooks.write.isSome := Option.isSome_iff_ne_none.mpr fun hnone =>
          hset (Or.inl (by rw [hnone]; rfl))
        exact h hooks rfl ⟨hwrite, ⟨est, hest, hpos⟩, not_not.mp hopen⟩

/-- Where the functions that go into a file find its parts. -/
structure Located (hdr : Header) (text payload trailer : Bytes) : Prop where
  tryLoadText : ∀ {σ : Type} (ops : SessionOps σ) (tokenize : Bytes → Tokens)
    (loadFlag : Option UInt8) (kc : KvCache) (env : LoadEnv) (session : σ) (promptText : Bytes)
    (d : Directory) (e : Entry), kc.enabled = true → env.openOk = true →
    findTextPrefix kc promptText (ops.ctx session) d = some e →
    d.read e.path = some (newFile hdr text payload trailer) →
    promptText.take text.length = text →
    LoadsParts ops tokenize loadFlag session promptText hdr text payload trailer
      (tryLoadText ops tokenize loadFlag kc env session promptText d)
  sessionLoadPayload : ∀ (dev : Device) (codec : KvCodec) (gpu : GpuWrites) (s : Session),
    (sessionLoadPayload dev codec gpu s (payload ++ trailer) payload.length).2 = none →
      payloadLeft dev codec gpu s (payload ++ trailer) payload.length = some ⟨trailer, 0⟩
  rewriteTrailer : ∀ (hooks : TrailerHooks) (openOk : Bool) (stamp : Nat) (keyText : Bytes),
    RewritesTrailer hooks openOk keyText →
    (kvCacheRewriteTrailer (some hooks) openOk stamp keyText
        (newFile hdr text payload trailer)).drop fixedHeader =
      lePut32 text.length ++ text ++ payload ++ (kvTrailerWrite (some hooks) keyText).bytes
  restoreToolMemory : ∀ (kc : KvCache) (openOk : Bytes → Bool) (d : Directory) (s : ReplayState)
    (msgs : List ChatMsg) (before after : List File) (name : Bytes),
    s.disableExactDsmlToolReplay = false → kc.enabled = true → collectToolCallIds msgs ≠ [] →
    (shaHexName name).isSome → openOk name = true →
    d.files = before ++ ⟨name, newFile hdr text payload trailer⟩ :: after →
    kvCacheRestoreToolMemoryForMessages kc openOk d s msgs =
      let wanted := collectToolCallIds msgs
      let s := before.foldl (restoreFromFile openOk wanted) s
      let s := if hdr.modelId = 37 ∧ hdr.extFlags &&& kvExtToolMap ≠ 0 then
          (kvToolMapLoadFromPos s trailer (some wanted)).1
        else s
      after.foldl (restoreFromFile openOk wanted) s

theorem restoreToolMap_newFile (hl : Laid hdr text payload trailer) (wanted : List Bytes)
    (s : ReplayState) :
    restoreToolMap wanted s (newFile hdr text payload trailer) =
      if hdr.modelId = 37 ∧ hdr.extFlags &&& kvExtToolMap ≠ 0 then
        (kvToolMapLoadFromPos s trailer (some wanted)).1
      else s := by
  have hend := hl.bodyEnd_le
  rw [Header.bodyEnd, hl.describes.textBytes, hl.describes.payloadBytes] at hend
  have hmod : (text.length + payload.length) % 2 ^ 64 = text.length + payload.length :=
    Nat.mod_eq_of_lt (by unfold int64Max at hend; omega)
  have hskip : text.length + payload.length ≤ int64Max := by omega
  have hdrop : (newFile hdr text payload trailer).drop
      (fixedHeader + 4 + (text.length + payload.length)) = trailer := by
    rw [← Nat.add_assoc, ← List.drop_drop, drop_newFile, List.drop_left' rfl]
  simp only [restoreToolMap, (newFile_readBack hl).header, hl.describes.textBytes,
    hl.describes.payloadBytes, hmod, hdrop, hskip, and_true]

theorem restoreToolMemory_newFile (hl : Laid hdr text payload trailer) (kc : KvCache)
    (openOk : Bytes → Bool) (d : Directory) (s : ReplayState) (msgs : List ChatMsg)
    (before after : List File) (name : Bytes) (hreplay : s.disableExactDsmlToolReplay = false)
    (henabled : kc.enabled = true) (hwanted : collectToolCallIds msgs ≠ [])
    (hname : (shaHexName name).isSome) (hopen : openOk name = true)
    (hfiles : d.files = before ++ ⟨name, newFile hdr text payload trailer⟩ :: after) :
    kvCacheRestoreToolMemoryForMessages kc openOk d s msgs =
      let wanted := collectToolCallIds msgs
      let s := before.foldl (restoreFromFile openOk wanted) s
      let s := if hdr.modelId = 37 ∧ hdr.extFlags &&& kvExtToolMap ≠ 0 then
          (kvToolMapLoadFromPos s trailer (some wanted)).1
        else s
      after.foldl (restoreFromFile openOk wanted) s := by
  have hturn : ∀ wanted s, restoreFromFile openOk wanted s
      ⟨name, newFile hdr text payload trailer⟩ =
        restoreToolMap wanted s (newFile hdr text payload trailer) := fun wanted s =>
    if_neg (by simp [Option.isNone_iff_eq_none, Option.isSome_iff_ne_none.mp hname, hopen])
  rw [kvCacheRestoreToolMemoryForMessages, if_neg (by simp [hreplay, henabled])]
  dsimp only
  rw [if_neg hwanted, hfiles, List.foldl_append, List.foldl_cons, hturn, restoreToolMap_newFile hl]

theorem newFile_located (hl : Laid hdr text payload trailer) : Located hdr text payload trailer where
  tryLoadText _ _ _ _ _ _ _ _ _ henabled hopen hfound hread hbegins :=
    tryLoadText_newFile hl henabled hopen hfound hread hbegins
  sessionLoadPayload dev codec gpu s h := by
    have hleft := payloadLeft_of_loaded h
    rwa [List.drop_left' rfl] at hleft
  rewriteTrailer hooks openOk stamp keyText h := by
    have hbytes : (headerRewritten hooks stamp keyText hdr).textBytes = text.length := by
      rw [← hl.describes.textBytes, headerRewritten]
      split <;> rfl
    rw [kvCacheRewriteTrailer_eq hl h, newFile, hbytes, List.drop_left' (length_fillHeader _)]
    simp only [List.append_assoc]
  restoreToolMemory := restoreToolMemory_newFile hl

/-! ## Changes -/

/-- What the functions that write into a file make of it. -/
structure Patched (hdr : Header) (text payload trailer : Bytes) : Prop where
  touchFile : ∀ stamp hits, stamp ≤ uint64Max → ∃ hdr',
    hdr' = { hdr with hits := hits % 2 ^ 32, lastUsed := stamp } ∧
    touchFile stamp hits (newFile hdr text payload trailer) = newFile hdr' text payload trailer ∧
    readHeader (newFile hdr' text payload trailer) = some hdr'
  rewriteTrailer : ∀ (hooks : TrailerHooks) (openOk : Bool) (stamp : Nat) (keyText : Bytes),
    stamp ≤ uint64Max → RewritesTrailer hooks openOk keyText → ∃ hdr' trailer',
    hdr' = headerRewritten hooks stamp keyText hdr ∧
    trailer' = (kvTrailerWrite (some hooks) keyText).bytes ∧
    kvCacheRewriteTrailer (some hooks) openOk stamp keyText (newFile hdr text payload trailer) =
      newFile hdr' text payload trailer' ∧
    readHeader (newFile hdr' text payload trailer') = some hdr'
  leaveTrailer : ∀ (hooks : Option TrailerHooks) (openOk : Bool) (stamp : Nat) (keyText : Bytes),
    (∀ hooks' ∈ hooks, ¬ RewritesTrailer hooks' openOk keyText) →
    kvCacheRewriteTrailer hooks openOk stamp keyText (newFile hdr text payload trailer) =
      newFile hdr text payload trailer

theorem touchFile_newFile (hl : Laid hdr text payload trailer) (stamp hits : Nat) :
    touchFile stamp hits (newFile hdr text payload trailer) =
      newFile { hdr with hits := hits % 2 ^ 32, lastUsed := stamp } text payload trailer := by
  simp only [touchFile, (newFile_readBack hl).header]
  exact fillHeader_drop_newFile rfl _ _ _

theorem newFile_patched (hl : Laid hdr text payload trailer) :
    Patched hdr text payload trailer where
  touchFile stamp hits hstamp := by
    refine ⟨_, rfl, touchFile_newFile hl stamp hits, readHeader_newFile ?_ _ _ _⟩
    exact { hl.writable with
      hits_le := Nat.le_pred_of_lt (Nat.mod_lt hits (Nat.two_pow_pos 32))
      lastUsed_le := hstamp }
  rewriteTrailer hooks openOk stamp keyText hstamp h := by
    refine ⟨_, _, rfl, rfl, kvCacheRewriteTrailer_eq hl h stamp, readHeader_newFile ?_ _ _ _⟩
    rw [headerRewritten]
    split
    · exact hl.writable.withTrailer hooks.extFlag hstamp
    · exact hl.writable
  leaveTrailer hooks openOk stamp keyText h := kvCacheRewriteTrailer_same h stamp _

/-- The envelope of a checkpoint: what the store path lays out is read back, its parts are
found, and only what may change changes. -/
theorem envelope_roundTrip (hl : Laid hdr text payload trailer) :
    ReadBack hdr text payload trailer ∧ Located hdr text payload trailer ∧
      Patched hdr text payload trailer :=
  ⟨newFile_readBack hl, newFile_located hl, newFile_patched hl⟩

theorem envelope_roundTrip_short :
    ReadBack (.oneToken 16 [0x61] [1, 2]) [0x61] [1, 2] [3] ∧
      Located (.oneToken 16 [0x61] [1, 2]) [0x61] [1, 2] [3] ∧
      Patched (.oneToken 16 [0x61] [1, 2]) [0x61] [1, 2] [3] :=
  envelope_roundTrip
    ⟨Header.oneToken_writable (by decide) (by decide) (by decide), Header.oneToken_describes _ _ _,
      by rw [length_newFile]; decide⟩

end Sf37.KvStore

/-
Sf37.KvStore.StoreSteps — what a store can do to the directory.

* `kvCacheExistingCompatible_cases`: the file under the key is kept, taken away or not there.
* `kvCacheRewriteTrailer_cases`: a trailer goes behind the body of a file.
* `publish_ok_iff`, `publish_failed`, `publish_done`, `publish_total_le`: a new file is there
  under its key or not at all, and what the files then weigh.
* `storeLivePrefixText_cases`: a store does nothing, rewrites a trailer, or goes on to make
  room and publish.
-/
import Sf37.KvStore.StoreLive

namespace Sf37.KvStore

open Sf37.Text Sf37.Store
open Sf37.Server (Token Tokens)

/-! ## The names of files -/

theorem length_kvName_sha1 (text : Bytes) : (kvName (sha1BytesHex text)).length = 43 := by
  by_contra h
  have hnone := shaHexName_of_length h
  rw [shaHexName_kvName_sha1] at hnone
  nomatch hnone

/-- The temporary file is no checkpoint. -/
theorem length_tmpName (text pid : Bytes) : (tmpName (sha1BytesHex text) pid).length ≠ 43 := by
  rw [tmpName, List.length_append, List.length_append, length_kvName_sha1]
  have : (bytes ".tmp.").length = 5 := by decide
  omega

theorem listedEntry_of_length {f : File} (h : f.name.length ≠ 43) : listedEntry f = none := by
  rw [listedEntry, shaHexName_of_length h]
  rfl

/-! ## The file under the key -/

/-- The file under the key that `kv_cache_existing_compatible` takes away. -/
def Incompatible (kc : KvCache) (ctx : Nat) (sha text : Bytes) (d : Directory) : Prop :=
  ∃ fp e, d.read (kvName sha) = some fp ∧ readEntryFile ⟨kvName sha, fp⟩ sha = some e ∧
    compatibleFile kc ctx sha text ⟨kvName sha, fp⟩ e = false

/-- The file under the key that a store takes for its own. -/
def Compatible (kc : KvCache) (ctx : Nat) (sha text : Bytes) (d : Directory) : Prop :=
  ∃ fp e, d.read (kvName sha) = some fp ∧ readEntryFile ⟨kvName sha, fp⟩ sha = some e ∧
    compatibleFile kc ctx sha text ⟨kvName sha, fp⟩ e = true

variable {kc : KvCache} {unlinkOk : Bytes → Bool} {ctx : Nat} {sha text payload : Bytes}
  {d : Directory} {call : StoreCall} {env : StoreEnv} {hdr : Header}

theorem kvCacheExistingCompatible_of_compatible (h : Compatible kc ctx sha text d) :
    kvCacheExistingCompatible kc unlinkOk ctx sha text d = (true, d) := by
  obtain ⟨fp, e, hread, hentry, hok⟩ := h
  simp only [kvCacheExistingCompatible, hread, hentry, hok, if_pos]

theorem kvCacheExistingCompatible_of_incompatible (h : Incompatible kc ctx sha text d) :
    kvCacheExistingCompatible kc unlinkOk ctx sha text d =
      (false, if unlinkOk (kvName sha) then d.unlink (kvName sha) else d) := by
  obtain ⟨fp, e, hread, hentry, hok⟩ := h
  simp only [kvCacheExistingCompatible, hread, hentry, hok]
  rw [if_neg Bool.false_ne_true]
  split <;> rfl

theorem Incompatible.not_compatible (h : Incompatible kc ctx sha text d) :
    ¬ Compatible kc ctx sha text d := by
  obtain ⟨fp, e, hread, hentry, hno⟩ := h
  rintro ⟨fp', e', hread', hentry', hyes⟩
  obtain rfl := Option.some.inj (hread.symm.trans hread')
  obtain rfl := Option.some.inj (hentry.symm.trans hentry')
  rw [hno] at hyes
  nomatch hyes

/-- The file under the key is the store's own, is in its way, or is not there. -/
theorem kvCacheExistingCompatible_cases (kc : KvCache) (unlinkOk : Bytes → Bool) (ctx : Nat)
    (sha text : Bytes) (d : Directory) :
    Compatible kc ctx sha text d ∨ Incompatible kc ctx sha text d ∨
      (¬ Compatible kc ctx sha text d ∧ ¬ Incompatible kc ctx sha text d ∧
        kvCacheExistingCompatible kc unlinkOk ctx sha text d = (false, d)) := by
  by_cases hcompat : Compatible kc ctx sha text d
  · exact Or.inl hcompat
  by_cases hincompat : Incompatible kc ctx sha text d
  · exact Or.inr (Or.inl hincompat)
  refine Or.inr (Or.inr ⟨hcompat, hincompat, ?_⟩)
  unfold kvCacheExistingCompatible
  dsimp only
  cases hread : d.read (kvName sha) with
  | none => rfl
  | some fp =>
    dsimp only
    cases hentry : readEntryFile ⟨kvName sha, fp⟩ sha with
    | none => rfl
    | some e =>
      cases hok : compatibleFile kc ctx sha text ⟨kvName sha, fp⟩ e with
      | true => exact absurd ⟨fp, e, hread, hentry, hok⟩ hcompat
      | false => exact absurd ⟨fp, e, hread, hentry, hok⟩ hincompat

/-! ## The trailer of a file that is there -/

/-- The hooks of a call ask for a trailer. -/
def AsksTrailer (hooks : Option TrailerHooks) (text : Bytes) : Prop :=
  ∃ h, hooks = some h ∧ h.write.isSome = true ∧ h.serializedSize.isSome = true ∧
    ∃ est, kvTrailerSerializedSize hooks text = some est ∧ est ≠ 0

theorem length_ftruncate (fp : Bytes) (n : Nat) : (ftruncate fp n).length = n := by
  rw [ftruncate, List.length_append, List.length_take, List.length_replicate]
  omega

/-- A trailer is rewritten behind the body that the header tells of, and then the header
may be made anew. -/
def Rewritten (hooks : Option TrailerHooks) (text fp : Bytes) (h : Header) (fp' : Bytes) : Prop :=
  let behind := ftruncate fp h.bodyEnd ++ (kvTrailerWrite hooks text).bytes
  fp' = behind ∨
    ∃ h' : Header, h'.textBytes = h.textBytes ∧ h'.payloadBytes = h.payloadBytes ∧
      fp' = fillHeader h' ++ behind.drop fixedHeader

theorem kvCacheRewriteTrailer_cases (hooks : Option TrailerHooks) (openOk : Bool) (stamp : Nat)
    (text fp : Bytes) :
    kvCacheRewriteTrailer hooks openOk stamp text fp = fp ∨
      (AsksTrailer hooks text ∧ openOk = true ∧ ∃ h, readHeader fp = some h ∧
        Rewritten hooks text fp h (kvCacheRewriteTrailer hooks openOk stamp text fp)) := by
  unfold kvCacheRewriteTrailer
  cases hooks with
  | none => exact Or.inl rfl
  | some h =>
    dsimp only
    split
    · exact Or.inl rfl
    next hhooks =>
      rw [not_or] at hhooks
      split
      · exact Or.inl rfl
      next est hest =>
        split
        · exact Or.inl rfl
        next hask =>
          rw [not_or, not_not] at hask
          split
          · exact Or.inl rfl
          next hd hhd =>
            split
            · exact Or.inl rfl
            · refine Or.inr ⟨⟨h, rfl, ?_, ?_, est, hest, hask.1⟩, hask.2, hd, hhd, ?_⟩
              · simpa [Option.isSome_iff_ne_none] using hhooks.1
              · simpa [Option.isSome_iff_ne_none] using hhooks.2
              · split
                · exact Or.inr ⟨{ hd with extFlags := hd.extFlags ||| h.extFlag, lastUsed := stamp },
                    rfl, rfl, rfl⟩
                · exact Or.inl rfl

theorem Rewritten.length {hooks : Option TrailerHooks} {fp fp' : Bytes}
    (h : Rewritten hooks text fp hdr fp') :
    fp'.length = hdr.bodyEnd + (kvTrailerWrite hooks text).bytes.length := by
  have hbody : fixedHeader ≤ hdr.bodyEnd := by
    rw [Header.bodyEnd]
    omega
  rcases h with rfl | ⟨h', -, -, rfl⟩
  · rw [List.length_append, length_ftruncate]
  · rw [List.length_append, List.length_drop, length_fillHeader, List.length_append,
      length_ftruncate]
    omega

/-! ## Publishing -/

/-- The bytes that `publish` makes. -/
def publishedFile (call : StoreCall) (hdr : Header) (text payload : Bytes) : Bytes :=
  newFile hdr text payload (kvTrailerWrite call.hooks text).bytes

/-- A publication that fails leaves the other files, and nothing else. -/
theorem publish_failed (h : (publish kc call env hdr sha text payload d).2 = false) {f : File}
    (hf : f.name ≠ tmpName sha env.pid) :
    f ∈ (publish kc call env hdr sha text payload d).1.files ↔ f ∈ d.files := by
  have hwrite : ∀ b, f ∈ (d.write (tmpName sha env.pid) b).files ↔ f ∈ d.files := fun b => by
    rw [Directory.mem_write]
    exact ⟨fun hm => hm.elim (fun heq => absurd (congrArg File.name heq) hf) And.left,
      fun hm => Or.inr ⟨hm, hf⟩⟩
  unfold publish at h ⊢
  dsimp only at h ⊢
  split at h
  next hcreate => rw [if_pos hcreate]
  next hcreate =>
    rw [if_neg hcreate]
    split at h
    · nomatch h
    next hok =>
      rw [if_neg hok]
      split
      · rw [Directory.mem_unlink, hwrite]
        exact and_iff_left hf
      · exact hwrite _

/-- The new file is made and written, the size its trailer reports fits, and the rename is
done. -/
def Publishes (kc : KvCache) (call : StoreCall) (env : StoreEnv) (text payload : Bytes) : Prop :=
  env.createOk = true ∧ env.writeFault = none ∧ (kvTrailerWrite call.hooks text).ok = true ∧
    (fileSizeFits kc text.length payload.length
      (kvTrailerWrite call.hooks text).written).isSome = true ∧ env.renameOk = true

theorem publish_ok_iff :
    (publish kc call env hdr sha text payload d).2 = true ↔ Publishes kc call env text payload := by
  unfold publish Publishes
  dsimp only
  cases hcreate : env.createOk with
  | false =>
    rw [if_pos Bool.false_ne_true]
    exact ⟨nofun, fun h => nomatch h.1⟩
  | true =>
    rw [if_neg (not_not.mpr rfl)]
    constructor
    · intro h
      split at h
      next hok =>
        simp only [Bool.and_eq_true, Option.isNone_iff_eq_none] at hok
        obtain ⟨⟨⟨hfault, htrailer⟩, hfits⟩, hrename⟩ := hok
        exact ⟨rfl, hfault, htrailer, hfits, hrename⟩
      · split at h <;> nomatch h
    · rintro ⟨-, hfault, htrailer, hfits, hrename⟩
      rw [hfault, htrailer, hfits, hrename]
      rfl

/-- A publication that succeeds puts the new file under its key; the trailer was written
and the size it reported fits. -/
theorem publish_done (h : (publish kc call env hdr sha text payload d).2 = true) :
    (publish kc call env hdr sha text payload d).1 =
        (d.write (tmpName sha env.pid) (publishedFile call hdr text payload)).rename
          (tmpName sha env.pid) (kvName sha) ∧
      (fileSizeFits kc text.length payload.length
        (kvTrailerWrite call.hooks text).written).isSome = true := by
  refine ⟨?_, (publish_ok_iff.mp h).2.2.2.1⟩
  unfold publish at h ⊢
  dsimp only at h ⊢
  split at h
  · nomatch h
  next hcreate =>
    rw [if_neg hcreate]
    split at h
    next hok =>
      rw [if_pos hok]
      simp only [Bool.and_eq_true, Option.isNone_iff_eq_none] at hok
      obtain ⟨⟨⟨hfault, -⟩, -⟩, -⟩ := hok
      rw [hfault]
      rfl
    · split at h <;> nomatch h

theorem mem_publish (h : (publish kc call env hdr sha text payload d).2 = true) {f : File}
    (hf : f.name ≠ tmpName sha env.pid) :
    f ∈ (publish kc call env hdr sha text payload d).1.files ↔
      f = ⟨kvName sha, publishedFile call hdr text payload⟩ ∨
        (f ∈ d.files ∧ f.name ≠ kvName sha) := by
  rw [(publish_done h).1, Directory.mem_rename Directory.read_write_self, Directory.mem_write]
  constructor
  · rintro (heq | ⟨heq | hm, -, hkey⟩)
    · exact Or.inl heq
    · exact absurd (congrArg File.name heq) hf
    · exact Or.inr ⟨hm.1, hkey⟩
  · rintro (heq | ⟨hm, hkey⟩)
    · exact Or.inl heq
    · exact Or.inr ⟨Or.inr ⟨hm, hf⟩, hf, hkey⟩

/-- The temporary file counts for nothing, and the new one for its length. -/
theorem publish_total_le (kc : KvCache) (call : StoreCall) (env : StoreEnv) (hdr : Header)
    (keyText text payload : Bytes) (d : Directory) :
    let p := publish kc call env hdr (sha1BytesHex keyText) text payload d
    totalBytes p.1 ≤
      totalBytes d + if p.2 = true then (publishedFile call hdr text payload).length else 0 := by
  intro p
  have hp : p = publish kc call env hdr (sha1BytesHex keyText) text payload d := rfl
  have htmp : ∀ b, entryBytes ⟨tmpName (sha1BytesHex keyText) env.pid, b⟩ = 0 := fun b =>
    entryBytes_of_name (length_tmpName keyText env.pid)
  have hwrite : ∀ b, totalBytes (d.write (tmpName (sha1BytesHex keyText) env.pid) b) ≤ totalBytes d := by
    intro b
    have h := Directory.weight_write_le (d := d) (n := tmpName (sha1BytesHex keyText) env.pid)
      (b := b) entryBytes
    rwa [htmp, Nat.add_zero] at h
  cases hok : p.2 with
  | true =>
    rw [if_pos rfl, hp, (publish_done (hp ▸ hok)).1]
    have hrename := Directory.weight_rename (m := kvName (sha1BytesHex keyText)) entryBytes
      (Directory.read_write_self (d := d) (n := tmpName (sha1BytesHex keyText) env.pid)
        (b := publishedFile call hdr text payload))
    rw [htmp, Nat.add_zero] at hrename
    exact Nat.le_trans hrename (Nat.add_le_add (hwrite _) (entryBytes_le _))
  | false =>
    rw [if_neg Bool.false_ne_true, Nat.add_zero]
    rw [hp] at hok ⊢
    unfold publish at hok ⊢
    dsimp only at hok ⊢
    split at hok
    next hcreate => rw [if_pos hcreate]
    next hcreate =>
      rw [if_neg hcreate]
      split at hok
      · nomatch hok
      next hnot =>
        rw [if_neg hnot]
        split
        · exact Nat.le_trans (Directory.weight_unlink_le entryBytes _) (hwrite _)
        · exact hwrite _

/-! ## The store -/

/-- What a store finds under its key, and goes on with. -/
def afterExisting (kc : KvCache) (unlinkOk : Bytes → Bool) (ctx : Nat) (sha text : Bytes)
    (d : Directory) : Directory :=
  (kvCacheExistingCompatible kc unlinkOk ctx sha text d).2

variable {σ : Type} {ops : SessionOps σ} {sc : Scoring} {tokenText : Token → Bytes} {session : σ}
  {trailerEst : Nat}

theorem afterExisting_of_incompatible (h : Incompatible kc ctx sha text d)
    (hunlink : unlinkOk (kvName sha) = true) :
    afterExisting kc unlinkOk ctx sha text d = d.unlink (kvName sha) := by
  rw [afterExisting, kvCacheExistingCompatible_of_incompatible h, if_pos hunlink]

/-- A file is taken away only where it is in the way and unlink succeeds. -/
theorem afterExisting_eq (h : ¬ (Incompatible kc ctx sha text d ∧ unlinkOk (kvName sha) = true)) :
    afterExisting kc unlinkOk ctx sha text d = d := by
  rw [afterExisting]
  rcases kvCacheExistingCompatible_cases kc unlinkOk ctx sha text d with hc | hi | ⟨-, -, hsame⟩
  · rw [kvCacheExistingCompatible_of_compatible hc]
  · rw [kvCacheExistingCompatible_of_incompatible hi, if_neg fun hu => h ⟨hi, hu⟩]
  · rw [hsame]

theorem afterExisting_sub (f : File) (h : f ∈ (afterExisting kc unlinkOk ctx sha text d).files) :
    f ∈ d.files := by
  by_cases hgone : Incompatible kc ctx sha text d ∧ unlinkOk (kvName sha) = true
  · rw [afterExisting_of_incompatible hgone.1 hgone.2] at h
    exact (Directory.mem_unlink.mp h).1
  · rwa [afterExisting_eq hgone] at h

/-- A fresh store stops before it looks for room, or makes room and publishes. -/
theorem storeFresh_cases (ops : SessionOps σ) (sc : Scoring) (kc : KvCache) (call : StoreCall)
    (env : StoreEnv) (session : σ) (sha text : Bytes) (trailerEst : Nat) (d : Directory) :
    storeFresh ops sc kc call env session sha text trailerEst d = ⟨d, false, []⟩ ∨
      ∃ payload est incoming,
        env.stageOk = true ∧ ops.stagePayload session = some payload ∧
        fileSizeFits kc text.length payload.length trailerEst = some est ∧
        let r := evict kc sc env.unlinkOk env.now est (some incoming) d
        let hdr := newHeader call env (ops.ctx session) call.storeTokens.length text payload
          trailerEst
        storeFresh ops sc kc call env session sha text trailerEst d =
          ⟨(publish kc call env hdr sha text payload r.dir).1,
            (publish kc call env hdr sha text payload r.dir).2, r.victims⟩ := by
  unfold storeFresh
  cases hstage : (if env.stageOk then ops.stagePayload session else none) with
  | none => exact Or.inl rfl
  | some payload =>
    dsimp only
    cases hfits : fileSizeFits kc text.length payload.length trailerEst with
    | none => exact Or.inl rfl
    | some est =>
      split at hstage
      next hok => exact Or.inr ⟨payload, est, _, hok, hstage, hfits, rfl⟩
      · nomatch hstage

/-- A fresh store whose payload is staged and whose file is said to fit. -/
theorem storeFresh_eq (ops : SessionOps σ) (sc : Scoring) (kc : KvCache) (call : StoreCall)
    (env : StoreEnv) (session : σ) (sha text : Bytes) (trailerEst : Nat) (d : Directory)
    {payload : Bytes} {est : Nat} (hstage : env.stageOk = true) (hpayload : ops.stagePayload session = some payload)
    (hfits : fileSizeFits kc text.length payload.length trailerEst = some est) :
    ∃ incoming,
      let r := evict kc sc env.unlinkOk env.now est (some incoming) d
      let hdr := newHeader call env (ops.ctx session) call.storeTokens.length text payload
        trailerEst
      storeFresh ops sc kc call env session sha text trailerEst d =
        ⟨(publish kc call env hdr sha text payload r.dir).1,
          (publish kc call env hdr sha text payload r.dir).2, r.victims⟩ := by
  unfold storeFresh
  rw [if_pos hstage, hpayload]
  dsimp only
  rw [hfits]
  exact ⟨_, rfl⟩

/-- Where that file is published as well, the store is done, after a pass for the room it was said
to take. -/
theorem storeFresh_publishes (ops : SessionOps σ) (sc : Scoring) (kc : KvCache) (call : StoreCall)
    (env : StoreEnv) (session : σ) (sha text : Bytes) (trailerEst : Nat) (d : Directory)
    {payload : Bytes} {est : Nat} (hstage : env.stageOk = true)
    (hpayload : ops.stagePayload session = some payload)
    (hfits : fileSizeFits kc text.length payload.length trailerEst = some est)
    (hpublishes : Publishes kc call env text payload) :
    let r := storeFresh ops sc kc call env session sha text trailerEst d
    r.ok = true ∧
      ∃ incoming, r.victims = (evict kc sc env.unlinkOk env.now est (some incoming) d).victims := by
  obtain ⟨incoming, hr⟩ := storeFresh_eq ops sc kc call env session sha text trailerEst d hstage
    hpayload hfits
  exact ⟨(congrArg StoreResult.ok hr).trans (publish_ok_iff.mpr hpublishes), incoming,
    congrArg StoreResult.victims hr⟩

/-- A store does nothing, rewrites the trailer of a file that is its own, or goes on with
what it found. -/
theorem storeLivePrefixText_cases (ops : SessionOps σ) (sc : Scoring) (tokenText : Token → Bytes)
    (kc : KvCache) (call : StoreCall) (env : StoreEnv) (session : σ) (d : Directory) :
    let text := call.text tokenText
    let sha := sha1BytesHex text
    let r := storeLivePrefixText ops sc tokenText kc call env session d
    (¬ call.Reaches tokenText kc (ops.tokens session) ∧ r = ⟨d, false, []⟩) ∨
      (call.Reaches tokenText kc (ops.tokens session) ∧
        Compatible kc (ops.ctx session) sha text d ∧
        ∃ fp, d.read (kvName sha) = some fp ∧
          r = ⟨d.write (kvName sha)
            (kvCacheRewriteTrailer call.hooks env.openOk env.stamp text fp), true, []⟩) ∨
      (call.Reaches tokenText kc (ops.tokens session) ∧
        ¬ Compatible kc (ops.ctx session) sha text d ∧
        r = storeFresh ops sc kc call env session sha text
          ((kvTrailerSerializedSize call.hooks text).getD 0)
          (afterExisting kc env.unlinkOk (ops.ctx session) sha text d)) := by
  intro text sha r
  by_cases hreach : call.Reaches tokenText kc (ops.tokens session)
  · have hr : r = storeLivePrefixText ops sc tokenText kc call env session d := rfl
    unfold storeLivePrefixText at hr
    rw [if_neg (not_not.mpr hreach)] at hr
    dsimp only at hr
    by_cases hcompat : Compatible kc (ops.ctx session) sha text d
    · obtain ⟨fp, e, hread, hrest⟩ := id hcompat
      refine Or.inr (Or.inl ⟨hreach, hcompat, fp, hread, ?_⟩)
      rw [kvCacheExistingCompatible_of_compatible hcompat, if_pos rfl, hread] at hr
      exact hr
    · refine Or.inr (Or.inr ⟨hreach, hcompat, ?_⟩)
      have hnot : (kvCacheExistingCompatible kc env.unlinkOk (ops.ctx session) sha text d).1 = false := by
        rcases kvCacheExistingCompatible_cases kc env.unlinkOk (ops.ctx session) sha text d with
          hc | hi | ⟨-, -, hsame⟩
        · exact absurd hc hcompat
        · rw [kvCacheExistingCompatible_of_incompatible hi]
        · rw [hsame]
      rw [if_neg (by rw [hnot]; exact Bool.false_ne_true)] at hr
      exact hr
  · refine Or.inl ⟨hreach, ?_⟩
    show storeLivePrefixText ops sc tokenText kc call env session d = _
    unfold storeLivePrefixText
    rw [if_pos hreach]

end Sf37.KvStore

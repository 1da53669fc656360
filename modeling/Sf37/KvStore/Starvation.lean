/-
Sf37.KvStore.Starvation — whether a checkpoint that does not load is in the way of others.

* `refused_deselected_iff`: after a try that returned 0 the same entry is selected again
  unless its text was intact and its file could be removed.
* `tries_load`: where every try meets that, an intact checkpoint is loaded in the end, or
  one of a longer text.
* `tries_starved`: where it is not met, no later try loads anything.
-/
import Sf37.KvStore.TryLoad
import Sf37.KvStore.EngineSession

namespace Sf37.KvStore

open Sf37.Text Sf37.Store
open Sf37.Server (Tokens)
open Sf37.Engine (Session cpuDevice sessionLoadPayload payload_roundTrip SameLayout)

variable {σ : Type} {ops : SessionOps σ} {tokenize : Bytes → Tokens} {loadFlag : Option UInt8}
  {kc : KvCache} {env : LoadEnv} {session : σ} {promptText : Bytes} {d : Directory} {e : Entry}

/-! ## One try -/

/-- The text of the file that was selected is the beginning of the prompt it was selected
for, and the file can be removed. -/
def OnlyPayloadDamaged (env : LoadEnv) (promptText : Bytes) (d : Directory) (e : Entry) : Prop :=
  TextIntact promptText e ((d.read e.path).getD []) ∧ env.unlinkOk e.path = true

/-- What a try leaves is not selected again. -/
def Deselected (ops : SessionOps σ) (promptText : Bytes) (e : Entry) (out : LoadOutcome σ) : Prop :=
  findTextPrefix out.kc promptText (ops.ctx out.session) out.dir ≠ some e

theorem not_found_of_unlink {kc : KvCache} {ctx : Nat} :
    findTextPrefix kc promptText ctx (d.unlink e.path) ≠ some e := by
  intro h
  obtain ⟨fp, hread, -⟩ := exists_file_of_found h
  rw [Directory.read_unlink_self] at hread
  nomatch hread

theorem ctx_rejected (ops : SessionOps σ) (session : σ) (e : Entry) (fp : Bytes) :
    ops.ctx (ops.rewindToStart (loadedPayload ops session e fp).1) = ops.ctx session := by
  rw [ops.ctx_rewindToStart, loadedPayload, ops.ctx_loadPayload]

/-- A try that opened the file it selected and returned 0 found a wrong text, or a payload
that did not load. -/
theorem tryLoadText_refused (henabled : kc.enabled = true)
    (hfound : findTextPrefix kc promptText (ops.ctx session) d = some e) (hopen : env.openOk = true)
    (h : (tryLoadText ops tokenize loadFlag kc env session promptText d).loaded = 0) :
    ∃ fp, d.read e.path = some fp ∧ listedEntry ⟨e.path, fp⟩ = some e ∧
      ((¬ TextIntact promptText e fp ∧
          tryLoadText ops tokenize loadFlag kc env session promptText d =
            ⟨kc, session, d, 0, [], none, none⟩) ∨
        (TextIntact promptText e fp ∧
          tryLoadText ops tokenize loadFlag kc env session promptText d =
            ⟨kc, ops.rewindToStart (loadedPayload ops session e fp).1,
              if env.unlinkOk e.path then d.unlink e.path else d, 0, [], none, none⟩)) := by
  obtain ⟨fp, hread, hlisted⟩ := exists_file_of_found hfound
  refine ⟨fp, hread, hlisted, ?_⟩
  by_cases hintact : TextIntact promptText e fp
  · by_cases haccepted : payloadAccepted ops e.toHeader (loadedPayload ops session e fp)
    · have hpos : 0 < (tryLoadText ops tokenize loadFlag kc env session promptText d).loaded :=
        (tryLoadText_of_accepted henabled hopen hfound hread hlisted hintact haccepted).1
      exact absurd h (Nat.ne_of_gt hpos)
    · exact Or.inr ⟨hintact,
        tryLoadText_of_rejected henabled hopen hfound hread hlisted hintact haccepted⟩
  · exact Or.inl ⟨hintact, tryLoadText_of_damaged hfound hread hlisted hintact⟩

theorem deselected_iff (henabled : kc.enabled = true)
    (hfound : findTextPrefix kc promptText (ops.ctx session) d = some e) (hopen : env.openOk = true)
    (h : (tryLoadText ops tokenize loadFlag kc env session promptText d).loaded = 0) :
    Deselected ops promptText e (tryLoadText ops tokenize loadFlag kc env session promptText d) ↔
      OnlyPayloadDamaged env promptText d e := by
  obtain ⟨fp, hread, -, hcase⟩ := tryLoadText_refused henabled hfound hopen h
  rw [OnlyPayloadDamaged, hread, Option.getD_some, Deselected]
  rcases hcase with ⟨hdamaged, hout⟩ | ⟨hintact, hout⟩
  · rw [hout]
    exact iff_of_false (fun hne => hne hfound) fun hboth => hdamaged hboth.1
  · rw [hout, ctx_rejected]
    dsimp only
    cases hunlink : env.unlinkOk e.path with
    | true =>
      rw [if_pos rfl]
      exact iff_of_true not_found_of_unlink ⟨hintact, rfl⟩
    | false =>
      rw [if_neg Bool.false_ne_true]
      exact iff_of_false (fun hne => hne hfound) fun hboth => nomatch hboth.2

/-! ## One try after the other -/

/-- What a try of a prompt starts from. -/
structure TryState (σ : Type) where
  kc : KvCache
  session : σ
  dir : Directory

section

variable (ops) (tokenize) (loadFlag) (promptText)

/-- A try, in an environment. -/
def TryState.attempt (t : TryState σ) (env : LoadEnv) : LoadOutcome σ :=
  tryLoadText ops tokenize loadFlag t.kc env t.session promptText t.dir

/-- The state after `n` tries, each in an environment of its own. -/
def TryState.tries : Nat → (Nat → LoadEnv) → TryState σ → TryState σ
  | 0, _, t => t
  | n + 1, envs, t =>
      let out := t.attempt ops tokenize loadFlag promptText (envs 0)
      TryState.tries n (fun i => envs (i + 1)) ⟨out.kc, out.session, out.dir⟩

/-- The first `k` tries open the file they select, and only the payload of that file can be
damaged. -/
def TriesRemoveDamaged (envs : Nat → LoadEnv) (t : TryState σ) (k : Nat) : Prop :=
  ∀ n < k, ∀ e, (let u := t.tries ops tokenize loadFlag promptText n envs
    findTextPrefix u.kc promptText (ops.ctx u.session) u.dir = some e →
      (envs n).openOk = true ∧ OnlyPayloadDamaged (envs n) promptText u.dir e)

/-- The `n`th try loads a checkpoint whose text is at least so long. -/
def LoadsAt (envs : Nat → LoadEnv) (t : TryState σ) (n textBytes : Nat) : Prop :=
  let out := (t.tries ops tokenize loadFlag promptText n envs).attempt ops tokenize loadFlag promptText
    (envs n)
  0 < out.loaded ∧
    ∃ hdr consumed path, out.result = some (hdr, consumed, path) ∧ textBytes ≤ hdr.textBytes

end

/-- A checkpoint that is admissible for a prompt and whose payload loads into any session of
a context size. -/
structure IntactAdmissible (ops : SessionOps σ) (kc : KvCache) (promptText : Bytes) (ctx : Nat)
    (d : Directory) (e : Entry) : Prop where
  listed : e ∈ kvCacheRefresh d
  admissible : Admissible kc promptText ctx e
  loads : ∀ fp, d.read e.path = some fp → ∀ s, ops.ctx s = ctx →
    payloadAccepted ops e.toHeader (loadedPayload ops s e fp)

/-- Another file can go. -/
theorem IntactAdmissible.unlink {ctx : Nat} {x : Entry}
    (h : IntactAdmissible ops kc promptText ctx d x) (hpath : x.path ≠ e.path) :
    IntactAdmissible ops kc promptText ctx (d.unlink e.path) x := by
  obtain ⟨f, hf, hfx⟩ := List.mem_filterMap.mp h.listed
  have hname := listed_path hfx
  refine ⟨List.mem_filterMap.mpr ⟨f, Directory.mem_unlink.mpr ⟨hf, ?_⟩, hfx⟩, h.admissible, ?_⟩
  · rwa [← hname]
  · intro fp hread
    rw [Directory.read_unlink_of_ne hpath] at hread
    exact h.loads fp hread

theorem length_unlink_lt {fp : Bytes} (h : d.read e.path = some fp) :
    (d.unlink e.path).files.length < d.files.length := by
  have hperm := perm_cons_remove d.unique (Directory.read_eq_some_iff.mp h)
  rw [hperm.length_eq, List.length_cons]
  exact Nat.lt_succ_self _

/-- Where every try removes what it cannot load, an intact checkpoint is loaded in the end,
or one of a longer text. -/
theorem tries_load {x : Entry} (k : Nat) (envs : Nat → LoadEnv) (t : TryState σ)
    (hk : t.dir.files.length ≤ k) (henabled : t.kc.enabled = true)
    (hx : IntactAdmissible ops t.kc promptText (ops.ctx t.session) t.dir x)
    (hremove : TriesRemoveDamaged ops tokenize loadFlag promptText envs t k) :
    ∃ n < k, LoadsAt ops tokenize loadFlag promptText envs t n x.textBytes := by
  induction k generalizing envs t with
  | zero =>
    obtain ⟨f, hf, -⟩ := List.mem_filterMap.mp hx.listed
    rw [List.length_eq_zero_iff.mp (Nat.le_zero.mp hk)] at hf
    nomatch hf
  | succ k ih =>
    obtain ⟨e, hfound⟩ := Option.isSome_iff_exists.mp (findTextPrefix_isSome hx.listed hx.admissible)
    have hmax := findTextPrefix_max hfound hx.listed hx.admissible
    obtain ⟨hopen, hguard⟩ := hremove 0 (Nat.succ_pos k) e hfound
    obtain ⟨fp, hread, hlisted⟩ := exists_file_of_found hfound
    have hguard' : OnlyPayloadDamaged (envs 0) promptText t.dir e := hguard
    rw [OnlyPayloadDamaged, hread, Option.getD_some] at hguard'
    obtain ⟨hintact, hunlink⟩ := hguard'
    by_cases haccepted : payloadAccepted ops e.toHeader (loadedPayload ops t.session e fp)
    · obtain ⟨hpos, -, -, -, ⟨consumed, hresult⟩, -⟩ :=
        tryLoadText_of_accepted henabled hopen hfound hread hlisted hintact haccepted
      exact ⟨0, Nat.succ_pos k, hpos, _, consumed, _, hresult, hmax⟩
    · have hpath : x.path ≠ e.path := by
        intro hpath
        obtain ⟨f, hf, hfx⟩ := List.mem_filterMap.mp hx.listed
        obtain rfl : f = ⟨e.path, fp⟩ := by
          have hbytes := Directory.mem_files_iff.mp hf
          rw [← listed_path hfx, hpath, hread] at hbytes
          cases f
          exact congrArg₂ File.mk ((listed_path hfx).symm.trans hpath) (Option.some.inj hbytes).symm
        obtain rfl := Option.some.inj (hfx.symm.trans hlisted)
        exact haccepted (hx.loads fp hread t.session rfl)
      have hout : t.attempt ops tokenize loadFlag promptText (envs 0) =
          ⟨t.kc, ops.rewindToStart (loadedPayload ops t.session e fp).1, t.dir.unlink e.path, 0, [],
            none, none⟩ := by
        rw [TryState.attempt,
          tryLoadText_of_rejected henabled hopen hfound hread hlisted hintact haccepted,
          if_pos hunlink]
      have hnext : ∀ n, t.tries ops tokenize loadFlag promptText (n + 1) envs =
          TryState.tries ops tokenize loadFlag promptText n (fun i => envs (i + 1))
            ⟨t.kc, ops.rewindToStart (loadedPayload ops t.session e fp).1, t.dir.unlink e.path⟩ := by
        intro n
        rw [TryState.tries, hout]
      have hlen := length_unlink_lt hread
      obtain ⟨n, hn, hloads⟩ := ih (fun i => envs (i + 1))
        ⟨t.kc, ops.rewindToStart (loadedPayload ops t.session e fp).1, t.dir.unlink e.path⟩
        (by dsimp only; omega) henabled
        (by
          rw [ctx_rejected]
          exact hx.unlink hpath)
        (by
          intro n hn y
          have := hremove (n + 1) (Nat.succ_lt_succ hn) y
          rw [hnext] at this
          exact this)
      refine ⟨n + 1, Nat.succ_lt_succ hn, ?_⟩
      rw [LoadsAt, hnext]
      exact hloads

/-- A file whose text is wrong is selected by every later try, and nothing is loaded. -/
theorem tries_starved (n : Nat) (envs : Nat → LoadEnv) (t : TryState σ)
    (hfound : findTextPrefix t.kc promptText (ops.ctx t.session) t.dir = some e)
    (hdamaged : ¬ TextIntact promptText e ((t.dir.read e.path).getD [])) :
    t.tries ops tokenize loadFlag promptText n envs = t ∧
      (t.attempt ops tokenize loadFlag promptText (envs n)).loaded = 0 := by
  obtain ⟨fp, hread, hlisted⟩ := exists_file_of_found hfound
  rw [hread, Option.getD_some] at hdamaged
  have hout : ∀ env, t.attempt ops tokenize loadFlag promptText env =
      ⟨t.kc, t.session, t.dir, 0, [], none, none⟩ := fun env =>
    tryLoadText_of_damaged hfound hread hlisted hdamaged
  refine ⟨?_, by rw [hout]⟩
  induction n generalizing envs with
  | zero => rfl
  | succ n ih =>
    rw [TryState.tries, hout]
    exact ih _

/-- What a try leaves is not selected again exactly where only its payload was damaged and
its file could be removed; and where that holds of as many tries as there are files, one of
them loads an intact checkpoint, or one of a longer text. -/
theorem refused_deselected_iff (ops : SessionOps σ) (tokenize : Bytes → Tokens)
    (loadFlag : Option UInt8) (promptText : Bytes) (kc : KvCache) (session : σ) (d : Directory)
    (henabled : kc.enabled = true) :
    (∀ env e, findTextPrefix kc promptText (ops.ctx session) d = some e → env.openOk = true →
      (tryLoadText ops tokenize loadFlag kc env session promptText d).loaded = 0 →
      (Deselected ops promptText e
          (tryLoadText ops tokenize loadFlag kc env session promptText d) ↔
        OnlyPayloadDamaged env promptText d e)) ∧
      ∀ envs x, IntactAdmissible ops kc promptText (ops.ctx session) d x →
        TriesRemoveDamaged ops tokenize loadFlag promptText envs ⟨kc, session, d⟩ d.files.length →
        ∃ n < d.files.length,
          LoadsAt ops tokenize loadFlag promptText envs ⟨kc, session, d⟩ n x.textBytes :=
  ⟨fun _ _ hfound hopen h => deselected_iff henabled hfound hopen h,
    fun envs _ hx hremove => tries_load _ envs ⟨kc, session, d⟩ (Nat.le_refl _) henabled hx hremove⟩

/-! ## A checkpoint of one token -/

/-- Its payload loads into any session. -/
theorem accepts_intact (s : Session) :
    payloadAccepted (engineOps cpuDevice .ofZeros .ok) intactEntry.toHeader
      (loadedPayload (engineOps cpuDevice .ofZeros .ok) s intactEntry intactFile.bytes) := by
  obtain ⟨b, t', hsave, -, hload, hrestored⟩ := payload_roundTrip (SameLayout.refl cpuDevice)
    (savable_oneToken cpuDevice) rfl .ofZeros s []
  obtain rfl := Option.some.inj (hsave.symm.trans (save_oneToken cpuDevice))
  have hrest : intactFile.bytes.drop (fixedHeader + 4 + intactEntry.textBytes) =
      oneTokenPayload cpuDevice ++ [] := drop_newFile _ [0x61] _ _
  have hlen : intactEntry.payloadBytes = (oneTokenPayload cpuDevice).length := rfl
  have hlength : t'.checkpoint.length = 1 := by
    rw [hrestored.checkpoint]
    rfl
  rw [loadedPayload, hrest, hlen, engineOps_loadPayload, hload]
  exact ⟨rfl, congrArg Nat.cast hlength⟩

theorem admissible_intact (rest : Bytes) :
    Admissible .small (0x61 :: rest) 16 intactEntry :=
  ⟨by simp [intactEntry, oneTokenEntry, Header.oneToken], by decide, rfl, by decide, nofun, rfl⟩

/-- The only file of a directory is found where it is admissible. -/
theorem found_oneFile {ctx : Nat} {f : File} (hlisted : listedEntry f = some e)
    (ha : Admissible kc promptText ctx e) :
    findTextPrefix kc promptText ctx (oneFile f) = some e := by
  have hmem : e ∈ kvCacheRefresh (oneFile f) :=
    List.mem_filterMap.mpr ⟨f, List.mem_singleton_self _, hlisted⟩
  obtain ⟨e', he'⟩ := Option.isSome_iff_exists.mp (findTextPrefix_isSome hmem ha)
  obtain ⟨g, hg, hge⟩ := List.mem_filterMap.mp (findTextPrefix_spec he').1
  rw [List.mem_singleton.mp hg, hlisted] at hge
  rw [he', ← hge]

/-- The same name and text, and a payload of one byte. -/
def brokenFile : File := oneTokenFile 16 [0x61] [0x61] [0]

/-- Its entry. -/
def brokenEntry : Entry := oneTokenEntry 16 [0x61] [0x61] [0]

theorem listed_broken : listedEntry brokenFile = some brokenEntry :=
  listedEntry_oneToken (by decide) (by decide) (by decide) _

theorem found_broken :
    findTextPrefix .small [0x61] 16 (oneFile brokenFile) = some brokenEntry :=
  found_oneFile listed_broken
    ⟨by decide, by decide, rfl, by decide, nofun, congrArg sha1BytesHex rfl⟩

theorem loaded_broken :
    (tryLoadText (engineOps cpuDevice .ofZeros .ok) (fun _ => []) none .small .quiet (.ofTokens [])
      [0x61] (oneFile brokenFile)).loaded = 0 := by
  have hrest : brokenFile.bytes.drop (fixedHeader + 4 + brokenEntry.textBytes) = [0] ++ [] :=
    drop_newFile _ [0x61] _ _
  have hrejected : ¬ payloadAccepted (engineOps cpuDevice .ofZeros .ok) brokenEntry.toHeader
      (loadedPayload (engineOps cpuDevice .ofZeros .ok) (.ofTokens []) brokenEntry
        brokenFile.bytes) := by
    rw [loadedPayload, hrest, engineOps_loadPayload]
    rintro ⟨hloads, -⟩
    nomatch hloads
  have hout : tryLoadText (engineOps cpuDevice .ofZeros .ok) (fun _ => []) none .small .quiet
      (.ofTokens []) [0x61] (oneFile brokenFile) = _ :=
    tryLoadText_of_rejected rfl rfl found_broken (read_oneFile brokenFile) listed_broken
      (storedText_newFile _ [0x61] _ _) hrejected
  rw [hout]

theorem intactAdmissible_intact {d : Directory} (prompt : Bytes) (hmem : intactFile ∈ d.files) :
    IntactAdmissible (engineOps cpuDevice .ofZeros .ok) .small (0x61 :: prompt) 16 d intactEntry where
  listed := List.mem_filterMap.mpr ⟨intactFile, hmem, listed_intact⟩
  admissible := admissible_intact prompt
  loads := fun fp hread s _ => by
    have hfile : d.read intactEntry.path = some intactFile.bytes := Directory.mem_files_iff.mp hmem
    obtain rfl := Option.some.inj (hread.symm.trans hfile)
    exact accepts_intact s

/-- A payload that does not load is removed, and one that does is loaded. -/
theorem refused_deselected_iff_oneToken :
    (Deselected (engineOps cpuDevice .ofZeros .ok) [0x61] brokenEntry
        (tryLoadText (engineOps cpuDevice .ofZeros .ok) (fun _ => []) none .small .quiet
          (.ofTokens []) [0x61] (oneFile brokenFile)) ↔
      OnlyPayloadDamaged .quiet [0x61] (oneFile brokenFile) brokenEntry) ∧
      ∃ n < 1, LoadsAt (engineOps cpuDevice .ofZeros .ok) (fun _ => []) none [0x61] (fun _ => .quiet)
        ⟨.small, .ofTokens [], oneFile intactFile⟩ n 1 := by
  refine ⟨?_, ?_⟩
  · exact (refused_deselected_iff (engineOps cpuDevice .ofZeros .ok) (fun _ => []) none [0x61] .small
      (.ofTokens []) (oneFile brokenFile) rfl).1 .quiet brokenEntry found_broken rfl loaded_broken
  · refine (refused_deselected_iff (engineOps cpuDevice .ofZeros .ok) (fun _ => []) none [0x61] .small
      (.ofTokens []) (oneFile intactFile) rfl).2 (fun _ => .quiet) intactEntry
      (intactAdmissible_intact [] (List.mem_singleton_self _)) ?_
    intro n hn e u hfound
    obtain rfl : n = 0 := Nat.lt_one_iff.mp hn
    have hself := found_oneFile listed_intact (admissible_intact [])
    obtain rfl := Option.some.inj (hself.symm.trans hfound)
    refine ⟨rfl, ?_, rfl⟩
    show TextIntact [0x61] intactEntry (((oneFile intactFile).read intactFile.name).getD [])
    rw [read_oneFile]
    exact storedText_newFile _ [0x61] _ _

/-! ## A checkpoint that starves another -/

/-- A file under the name of the text `aa`, whose text is `ab`. -/
def damagedFile : File := oneTokenFile 16 [0x61, 0x61] [0x61, 0x62] [0]

/-- Its entry. -/
def damagedEntry : Entry := oneTokenEntry 16 [0x61, 0x61] [0x61, 0x62] [0]

/-- It stands next to the intact checkpoint of the text `a`. -/
def starvedDirectory : Directory where
  files := [damagedFile, intactFile]
  unique := by
    have hne : damagedFile.name ≠ intactFile.name := by decide +kernel
    simpa [Store.Unique] using hne

theorem listed_damaged : listedEntry damagedFile = some damagedEntry :=
  listedEntry_oneToken (by decide) (by decide) (by decide) _

theorem found_damaged :
    findTextPrefix .small [0x61, 0x61] 16 starvedDirectory = some damagedEntry := by
  have hmem : damagedEntry ∈ kvCacheRefresh starvedDirectory :=
    List.mem_filterMap.mpr ⟨damagedFile, List.mem_cons_self, listed_damaged⟩
  have ha : Admissible .small [0x61, 0x61] 16 damagedEntry :=
    ⟨by decide, by decide, rfl, by decide, nofun, congrArg sha1BytesHex rfl⟩
  obtain ⟨e, he⟩ := Option.isSome_iff_exists.mp (findTextPrefix_isSome hmem ha)
  have hmax := findTextPrefix_max he hmem ha
  obtain ⟨f, hf, hfe⟩ := List.mem_filterMap.mp (findTextPrefix_spec he).1
  rcases List.mem_cons.mp hf with rfl | hf
  · rw [he, ← hfe, listed_damaged]
  · rw [List.mem_singleton.mp hf, listed_intact] at hfe
    obtain rfl := Option.some.inj hfe
    exact absurd hmax (by decide : ¬ 2 ≤ 1)

/-- Its text does not hash to its name. A load returns 0 and leaves it where it is, so every
later one selects it again, and the intact checkpoint is never loaded. -/
theorem starved_damaged :
    sha1BytesHex (storedText damagedFile.bytes damagedEntry.textBytes) ≠ damagedEntry.sha ∧
      IntactAdmissible (engineOps cpuDevice .ofZeros .ok) .small [0x61, 0x61] 16 starvedDirectory
        intactEntry ∧
      ∀ n envs, let t : TryState Session := ⟨.small, .ofTokens [], starvedDirectory⟩
        t.tries (engineOps cpuDevice .ofZeros .ok) (fun _ => []) none [0x61, 0x61] n envs = t ∧
          findTextPrefix t.kc [0x61, 0x61] 16 t.dir = some damagedEntry ∧
          (t.attempt (engineOps cpuDevice .ofZeros .ok) (fun _ => []) none [0x61, 0x61]
            (envs n)).loaded = 0 := by
  have hstored : storedText damagedFile.bytes damagedEntry.textBytes = [0x61, 0x62] :=
    storedText_newFile _ [0x61, 0x62] _ _
  refine ⟨?_, intactAdmissible_intact [0x61] (by simp [starvedDirectory]), fun n envs => ?_⟩
  · rw [hstored]
    decide +kernel
  · have hmem : damagedFile ∈ starvedDirectory.files := List.mem_cons_self
    have hread : starvedDirectory.read damagedFile.name = some damagedFile.bytes :=
      Directory.mem_files_iff.mp hmem
    have hgetD : (starvedDirectory.read damagedEntry.path).getD [] = damagedFile.bytes :=
      congrArg (fun fp => fp.getD []) hread
    have hdamaged : ¬ TextIntact [0x61, 0x61] damagedEntry
        ((starvedDirectory.read damagedEntry.path).getD []) := by
      intro hintact
      rw [TextIntact, hgetD, hstored] at hintact
      cases hintact
    obtain ⟨t, ht⟩ : ∃ t : TryState Session, t = ⟨.small, .ofTokens [], starvedDirectory⟩ := ⟨_, rfl⟩
    have hfound : findTextPrefix t.kc [0x61, 0x61]
        ((engineOps cpuDevice .ofZeros .ok).ctx t.session) t.dir = some damagedEntry :=
      ht ▸ found_damaged
    have hstarved : t.tries (engineOps cpuDevice .ofZeros .ok) (fun _ => []) none [0x61, 0x61] n
          envs = t ∧
        (t.attempt (engineOps cpuDevice .ofZeros .ok) (fun _ => []) none [0x61, 0x61]
          (envs n)).loaded = 0 :=
      tries_starved n envs t hfound (ht ▸ hdamaged)
    rw [← ht]
    exact ⟨hstarved.1, hfound, hstarved.2⟩

end Sf37.KvStore

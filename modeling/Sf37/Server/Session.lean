/-
Sf37.Server.Session — the model session as the server sees it: the tokens its rows
were computed from, whether they are valid, and the signature of the images among
them.

The arithmetic on the rows is left out. What is read off the pixels of a request are
two hashes of them, kept with the counts in `ImageFeatures`.

* `Session.syncBase_cases`: a sync starts from an empty session or goes on from one
  whose tokens the prompt begins with.
-/
import Sf37.Text.CString

namespace Sf37.Server

open Sf37.Text

/-! ## Tokens -/

abbrev Token := Nat

/-- `sf37_tokens`. -/
abbrev Tokens := List Token

/-- `sf37_kvstore_options` and whether the store was opened. The least number of tokens
is read with a lower bound of one. -/
structure KvOptions where
  enabled : Bool
  minTokens : Nat
  minTokens_pos : 0 < minTokens
  coldMaxTokens : Nat
  continuedIntervalTokens : Nat
  boundaryTrimTokens : Nat
  boundaryAlignTokens : Nat
  deriving DecidableEq, Repr

/-- What a server is started with: the context size, the engine's tokenizer and its
inverse, the image token of its vocabulary if there is one, whether its rows survive
going back from a length to a shorter one, and the options of the disk store. -/
structure Setup where
  ctxSize : Nat
  tokenizeRenderedChat : Bytes → Tokens
  renderTokensText : Tokens → Bytes
  imPatch : Option Token
  rewindPreservesKv : Nat → Nat → Bool
  kv : KvOptions

/-- `prompt_count_im_patch`, over the tokens counted. -/
def promptCountImPatch (cfg : Setup) (tokens : Tokens) : Nat :=
  match cfg.imPatch with
  | none => 0
  | some t => tokens.count t

/-! ## Images -/

/-- `sf37_image_signature`; `rows` counts the rows the images take. -/
structure ImageSignature where
  a : UInt64
  b : UInt64
  rows : Nat
  deriving DecidableEq, Repr

/-- `sf37_image_features` of a request with pixels: its counts, the hash that
`request_image_cache_text` takes of it, the signature that
`image_signature_from_features` takes, and whether `image_features_effective_rows`
and the other checks of its shape pass. Every image takes rows. -/
structure ImageFeatures where
  images : UInt32
  patchImages : UInt32
  rows : UInt32
  dim : UInt32
  cacheHashA : UInt64
  cacheHashB : UInt64
  signature : ImageSignature
  signature_rows : 0 < signature.rows
  wellShaped : Bool
  deriving DecidableEq, Repr

/-- `session_prepare_image_signature` with features: the signature, or an error. -/
def sessionPrepareImageSignature (cfg : Setup) (prompt : Tokens) (f : ImageFeatures) :
    Option ImageSignature :=
  if f.wellShaped ∧ promptCountImPatch cfg prompt = f.signature.rows then some f.signature
  else none

/-! ## The session -/

/-- `sf37_session`. `rowsHeader` is not in the source: it says which images the rows
were prefilled with, by their cache header, `none` for text. -/
structure Session where
  checkpoint : Tokens := []
  checkpointValid : Bool := true
  imageSignature : Option ImageSignature := none
  rowsHeader : Option Bytes := none
  deriving DecidableEq, Repr

/-- `sf37_session_pos`. -/
def Session.pos (s : Session) : Nat := s.checkpoint.length

/-- `session_reset`. -/
def sessionReset : Session := {}

/-- `sf37_session_rewind`. -/
def sessionRewind (s : Session) (pos : Nat) : Session :=
  if min pos s.checkpoint.length = 0 then {}
  else { s with checkpoint := s.checkpoint.take pos, checkpointValid := true }

/-- Tokens evaluated behind the ones the session has. -/
def Session.push (s : Session) (tokens : Tokens) : Session :=
  { s with checkpoint := s.checkpoint ++ tokens, checkpointValid := true }

/-- How many tokens two lists begin with in common. -/
def commonLen : Tokens → Tokens → Nat
  | a :: as, b :: bs => if a = b then commonLen as bs + 1 else 0
  | _, _ => 0

/-- `sf37_session_common_prefix`. -/
def sessionCommonPrefix (s : Session) (prompt : Tokens) : Nat :=
  if s.checkpointValid then commonLen s.checkpoint prompt else 0

/-- `session_can_reuse_common`. -/
def sessionCanReuseCommon (cfg : Setup) (s : Session) (prompt : Tokens) (common : Nat) : Bool :=
  if ¬ s.checkpointValid then false
  else if common = 0 ∨ s.checkpoint.length < common ∨ prompt.length < common then false
  else if common = s.checkpoint.length then true
  else if common = prompt.length then false
  else cfg.rewindPreservesKv s.checkpoint.length common

/-- `sf37_session_reusable_prefix`. -/
def sessionReusablePrefix (cfg : Setup) (s : Session) (prompt : Tokens) : Nat :=
  if cfg.ctxSize < prompt.length then 0
  else
    let common := sessionCommonPrefix s prompt
    if sessionCanReuseCommon cfg s prompt common then common else 0

/-- `sf37_session_reusable_prefix_multimodal`. -/
def sessionReusablePrefixMultimodal (cfg : Setup) (s : Session) (prompt : Tokens)
    (f : ImageFeatures) : Nat :=
  if cfg.ctxSize < prompt.length then 0
  else
    match sessionPrepareImageSignature cfg prompt f with
    | none => 0
    | some sig =>
        let common := sessionCommonPrefix s prompt
        if 0 < sig.rows ∧ 0 < promptCountImPatch cfg (prompt.take common) ∧
            s.imageSignature ≠ some sig then 0
        else if sessionCanReuseCommon cfg s prompt common then common else 0

/-- `sf37_session_note_image_features`; `none` for its error. -/
def sessionNoteImageFeatures (cfg : Setup) (s : Session) (prompt : Tokens)
    (f : ImageFeatures) : Option Session :=
  (sessionPrepareImageSignature cfg prompt f).map fun sig =>
    if 0 < sig.rows then { s with imageSignature := some sig } else s

/-! ## Where a sync starts -/

/-- The checks at the top of `sf37_session_sync_multimodal`; the outer `none` is an
error, the inner one a sync without image rows. -/
def sessionSyncSignature (cfg : Setup) (prompt : Tokens) :
    Option ImageFeatures → Option (Option ImageSignature)
  | none => if cfg.ctxSize < prompt.length then none else some none
  | some f =>
      if cfg.ctxSize < prompt.length then none
      else
        (sessionPrepareImageSignature cfg prompt f).map fun sig =>
          if 0 < sig.rows then some sig else none

/-- The session the evaluation of `sf37_session_sync_multimodal` starts from. -/
def Session.syncBase (s : Session) (prompt : Tokens) (sig : Option ImageSignature) : Session :=
  let common := sessionCommonPrefix s prompt
  if sig.isSome ∧ s.imageSignature ≠ sig then sessionReset
  else if ¬ s.checkpointValid ∨ common = 0 ∨ common < s.checkpoint.length then sessionReset
  else if common < prompt.length then sessionRewind s common
  else s

theorem take_commonLen (as bs : Tokens) : as.take (commonLen as bs) = bs.take (commonLen as bs) := by
  induction as generalizing bs with
  | nil => simp [commonLen]
  | cons a as ih =>
    cases bs with
    | nil => simp [commonLen]
    | cons b bs =>
      by_cases hab : a = b
      · subst hab
        simp only [commonLen, if_true, List.take_succ_cons, ih bs]
      · simp [commonLen, if_neg hab]

theorem commonLen_le_left (as bs : Tokens) : commonLen as bs ≤ as.length := by
  induction as generalizing bs with
  | nil => simp [commonLen]
  | cons a as ih =>
    cases bs with
    | nil => simp [commonLen]
    | cons b bs =>
      by_cases hab : a = b
      · simpa [commonLen, if_pos hab] using ih bs
      · simp [commonLen, if_neg hab]

theorem commonLen_of_isPrefix {as bs : Tokens} (h : as <+: bs) : commonLen as bs = as.length := by
  obtain ⟨rest, rfl⟩ := h
  induction as with
  | nil => cases rest <;> rfl
  | cons a as ih =>
    rw [List.cons_append, commonLen, if_pos rfl, ih, List.length_cons]

/-- When all of a list is common it is a prefix. -/
theorem prefix_of_commonLen {as bs : Tokens} (h : as.length ≤ commonLen as bs) : as <+: bs := by
  have htake := take_commonLen as bs
  rw [List.take_of_length_le h] at htake
  exact htake ▸ List.take_prefix _ _

/-- A sync starts from an empty session, or it goes on from the one there is: that is
valid, not empty, the prompt begins with its tokens, and when images are synced they
are the ones it was built with. -/
theorem Session.syncBase_cases (s : Session) (prompt : Tokens) (sig : Option ImageSignature) :
    s.syncBase prompt sig = sessionReset ∨
      (s.syncBase prompt sig = s ∧ s.checkpointValid = true ∧ s.checkpoint ≠ [] ∧
        s.checkpoint <+: prompt ∧ (sig = none ∨ s.imageSignature = sig)) := by
  rw [Session.syncBase]
  by_cases hsig : sig.isSome ∧ s.imageSignature ≠ sig
  · exact Or.inl (if_pos hsig)
  simp only [if_neg hsig]
  by_cases hre : ¬ s.checkpointValid = true ∨ sessionCommonPrefix s prompt = 0 ∨
      sessionCommonPrefix s prompt < s.checkpoint.length
  · exact Or.inl (if_pos hre)
  rw [if_neg hre]
  obtain ⟨hvalid, h0, hlen⟩ : s.checkpointValid = true ∧ sessionCommonPrefix s prompt ≠ 0 ∧
      s.checkpoint.length ≤ sessionCommonPrefix s prompt := by
    simpa only [not_or, not_not, not_lt, ne_eq] using hre
  have hcommon : sessionCommonPrefix s prompt = commonLen s.checkpoint prompt := if_pos hvalid
  have hle := commonLen_le_left s.checkpoint prompt
  have hpos : sessionCommonPrefix s prompt = s.checkpoint.length := by omega
  have hne : s.checkpoint ≠ [] := fun h => h0 (by simpa [h] using hpos)
  have hsame : (if sessionCommonPrefix s prompt < prompt.length then
      sessionRewind s (sessionCommonPrefix s prompt) else s) = s := by
    split
    · rw [sessionRewind, hpos, min_self, if_neg (by simpa using hne), List.take_length, ← hvalid]
    · rfl
  refine Or.inr ⟨hsame, hvalid, hne, prefix_of_commonLen (hcommon ▸ hlen), ?_⟩
  cases sig with
  | none => exact Or.inl rfl
  | some g => exact Or.inr (by simpa using hsig)

end Sf37.Server

/-
Sf37.Tokenizer.Merge — the vocabulary and `bpe_emit_piece`: the merges of a piece and the
tokens of what is left.

The two hash tables are maps from byte strings. Ranks and token ids are not negative.

* `mergeLoop_done`: the loop ends because no pair has a rank.
* `flatten_mergeLoop`, `byteLevel_mergeLoop`: merges neither lose a byte nor leave the
  strings that symbols and merges make.
* `decode_bpeEmitPiece`: the texts of the tokens are the piece.
-/
import Sf37.Tokenizer.ByteSymbols
import Sf37.Run.Best
import Mathlib.Order.OrderDual
import Mathlib.Algebra.Group.Nat.Defs

namespace Sf37.Tokenizer

open Sf37.Text Sf37.Run OrderDual

/-! ## The vocabulary -/

/-- `sf37_added_token`; `len` is the length of the text, which may hold a NUL. -/
structure AddedToken where
  text : Bytes
  id : Nat
  deriving DecidableEq

/-- `sf37_vocab`. -/
structure Vocab where
  token : List (Option Bytes)
  bosId : Nat
  added : List AddedToken
  tokenToId : Bytes → Option Nat
  mergeRank : Bytes → Option Nat
  ready : Bool

def intMax : Nat := 2 ^ 31 - 1

/-! ## `bpe_emit_piece` -/

/-- `bpe_rank`; `none` is -1. -/
def bpeRank (v : Vocab) (a b : Bytes) : Option Nat := v.mergeRank (a ++ 0x20 :: b)

/-- The pairs of neighbours with their places and ranks, as the loop meets them. -/
def rankedPairs (v : Vocab) : Nat → List Bytes → List (Nat × Option Nat)
  | i, a :: b :: sym => (i, bpeRank v a b) :: rankedPairs v (i + 1) (b :: sym)
  | _, _ => []

/-- A pair that may be merged. -/
def Ranked (pair : Nat × Option Nat) : Prop := ∃ r ∈ pair.2, r < intMax

instance (pair : Nat × Option Nat) : Decidable (Ranked pair) :=
  inferInstanceAs (Decidable (∃ r ∈ pair.2, r < intMax))

/-- The search for `best_i`: the first pair of the least rank. -/
def bestPair (v : Vocab) (sym : List Bytes) : Option Nat :=
  ((rankedPairs v 0 sym).foldl
    (pick Ranked (fun _ => True) fun pair => toDual (pair.2.getD 0)) none).map Prod.fst

/-- The merge of the symbols at `i` and behind. -/
def mergeAt : Nat → List Bytes → List Bytes
  | 0, a :: b :: sym => (a ++ b) :: sym
  | i + 1, a :: sym => a :: mergeAt i sym
  | _, sym => sym

/-- The loop over the merges. -/
def mergeLoop (v : Vocab) : Nat → List Bytes → List Bytes
  | 0, sym => sym
  | fuel + 1, sym =>
    match bestPair v sym with
    | none => sym
    | some i => mergeLoop v fuel (mergeAt i sym)

/-- The tokens of a symbol; one that is no token falls apart into its bytes. -/
def symbolTokens (v : Vocab) (s : Bytes) : List Nat :=
  match v.tokenToId s with
  | some token => [token]
  | none => s.filterMap fun c => v.tokenToId [c]

/-- `bpe_emit_piece`. -/
def bpeEmitPiece (v : Vocab) (rawPiece : Bytes) : List Nat :=
  let encoded := byteEncode rawPiece
  let sym := splitSymbols encoded.length encoded
  (mergeLoop v sym.length sym).flatMap (symbolTokens v)

/-! ## The merges -/

theorem rankedPairs_mem {v : Vocab} {i : Nat} {sym : List Bytes} {pair : Nat × Option Nat}
    (h : pair ∈ rankedPairs v i sym) :
    ∃ before a b after, sym = before ++ a :: b :: after ∧ pair.1 = i + before.length ∧
      pair.2 = bpeRank v a b := by
  induction sym generalizing i with
  | nil => exact absurd h List.not_mem_nil
  | cons a sym ih =>
    cases sym with
    | nil => exact absurd h List.not_mem_nil
    | cons b sym =>
      rw [rankedPairs, List.mem_cons] at h
      rcases h with rfl | h
      · exact ⟨[], a, b, sym, rfl, rfl, rfl⟩
      · obtain ⟨before, a', b', after, hsym, hi, hr⟩ := ih h
        refine ⟨a :: before, a', b', after, by rw [hsym]; rfl, ?_, hr⟩
        rw [hi, List.length_cons]
        omega

/-- What is merged has a rank. -/
theorem bestPair_some {v : Vocab} {sym : List Bytes} {i : Nat} (h : bestPair v sym = some i) :
    ∃ before a b after, sym = before ++ a :: b :: after ∧ i = before.length ∧
      ∃ r, bpeRank v a b = some r := by
  have hbest := foldl_best
    (turn_pick Ranked (fun _ => True) fun pair : Nat × Option Nat => toDual (pair.2.getD 0))
    (rankedPairs v 0 sym)
  obtain ⟨pair, hpair, rfl⟩ := Option.map_eq_some_iff.mp h
  rw [hpair] at hbest
  obtain ⟨hmem, ⟨⟨r, hr, -⟩, -⟩, -⟩ := hbest
  obtain ⟨before, a, b, after, hsym, hi, hrank⟩ := rankedPairs_mem hmem
  exact ⟨before, a, b, after, hsym, by rw [hi, Nat.zero_add], r, hrank ▸ hr⟩

theorem mergeAt_append (before : List Bytes) (a b : Bytes) (after : List Bytes) :
    mergeAt before.length (before ++ a :: b :: after) = before ++ (a ++ b) :: after := by
  induction before with
  | nil => rfl
  | cons c before ih => simp only [List.length_cons, List.cons_append, mergeAt, ih]

/-- One turn of the loop. -/
theorem bestPair_mergeAt {v : Vocab} {sym : List Bytes} {i : Nat} (h : bestPair v sym = some i) :
    ∃ before a b after r, sym = before ++ a :: b :: after ∧ bpeRank v a b = some r ∧
      mergeAt i sym = before ++ (a ++ b) :: after := by
  obtain ⟨before, a, b, after, rfl, rfl, r, hr⟩ := bestPair_some h
  exact ⟨before, a, b, after, r, rfl, hr, mergeAt_append before a b after⟩

/-- The loop ends because no pair has a rank. -/
theorem mergeLoop_done (v : Vocab) {fuel : Nat} {sym : List Bytes} (h : sym.length ≤ fuel) :
    bestPair v (mergeLoop v fuel sym) = none := by
  induction fuel generalizing sym with
  | zero =>
    obtain rfl := List.length_eq_zero_iff.mp (Nat.le_zero.mp h)
    rfl
  | succ fuel ih =>
    rw [mergeLoop]
    cases hbest : bestPair v sym with
    | none => exact hbest
    | some i =>
      obtain ⟨before, a, b, after, r, rfl, -, hmerge⟩ := bestPair_mergeAt hbest
      refine ih ?_
      rw [hmerge]
      simp only [List.length_append, List.length_cons] at h ⊢
      omega

/-- Merges lose no byte. -/
theorem flatten_mergeLoop (v : Vocab) (fuel : Nat) (sym : List Bytes) :
    (mergeLoop v fuel sym).flatten = sym.flatten := by
  induction fuel generalizing sym with
  | zero => rfl
  | succ fuel ih =>
    rw [mergeLoop]
    cases hbest : bestPair v sym with
    | none => rfl
    | some i =>
      obtain ⟨before, a, b, after, r, rfl, -, hmerge⟩ := bestPair_mergeAt hbest
      simp only [ih, hmerge, List.flatten_append, List.flatten_cons, List.append_assoc]

/-- The strings that byte symbols and merges make. -/
inductive ByteLevel (v : Vocab) : Bytes → Prop where
  | symbol (b : UInt8) : ByteLevel v (byteSymbol b)
  | merge {a b : Bytes} {r : Nat} (ha : ByteLevel v a) (hb : ByteLevel v b)
      (hr : bpeRank v a b = some r) : ByteLevel v (a ++ b)

theorem byteLevel_mergeLoop (v : Vocab) (fuel : Nat) {sym : List Bytes}
    (h : ∀ s ∈ sym, ByteLevel v s) : ∀ s ∈ mergeLoop v fuel sym, ByteLevel v s := by
  induction fuel generalizing sym with
  | zero => exact h
  | succ fuel ih =>
    rw [mergeLoop]
    cases hbest : bestPair v sym with
    | none => exact h
    | some i =>
      obtain ⟨before, a, b, after, r, rfl, hr, hmerge⟩ := bestPair_mergeAt hbest
      refine ih ?_
      rw [hmerge]
      rw [List.forall_mem_append, List.forall_mem_cons, List.forall_mem_cons] at h
      rw [List.forall_mem_append, List.forall_mem_cons]
      exact ⟨h.1, .merge h.2.1 h.2.2.1 hr, h.2.2.2⟩

/-- Such a string is the encoding of the bytes of its symbols. -/
theorem ByteLevel.encodes {v : Vocab} {s : Bytes} (h : ByteLevel v s) :
    ∃ p, s = byteEncode p := by
  induction h with
  | symbol b => exact ⟨[b], (List.append_nil _).symm⟩
  | merge _ _ _ iha ihb =>
    obtain ⟨p, rfl⟩ := iha
    obtain ⟨q, rfl⟩ := ihb
    exact ⟨p ++ q, (List.flatMap_append ..).symm⟩

/-! ## Tokens and texts -/

/-- `token_is_added`. -/
def tokenIsAdded (v : Vocab) (token : Nat) : Bool := v.added.any fun a => a.id == token

/-- `sf37_token_text`. -/
def tokenText (v : Vocab) (token : Nat) : Bytes :=
  match v.ready, v.token[token]? with
  | true, some (some src) =>
    if tokenIsAdded v token then src else decodeSymbols src.length src
  | _, _ => []

/-- The vocabularies the byte-level law is about. -/
structure ByteLevelVocab (v : Vocab) : Prop where
  /-- The vocabulary is loaded. -/
  ready : v.ready = true
  /-- Ids and strings of tokens correspond one to one. -/
  ids : ∀ s id, v.tokenToId s = some id ↔ v.token[id]? = some (some s)
  /-- The byte symbols and the results of merges are tokens. -/
  tokens : ∀ s, ByteLevel v s → ∃ id, v.tokenToId s = some id
  /-- The id of an added token carries its text. -/
  added : ∀ a ∈ v.added, v.token[a.id]? = some (some a.text)
  /-- None of the byte-level strings is the text of an added token. -/
  apart : ∀ s, ByteLevel v s → ∀ a ∈ v.added, a.text ≠ s

theorem tokenText_added {v : Vocab} (hv : ByteLevelVocab v) {a : AddedToken} (ha : a ∈ v.added) :
    tokenText v a.id = a.text := by
  have hadded : tokenIsAdded v a.id = true :=
    List.any_eq_true.mpr ⟨a, ha, beq_self_eq_true a.id⟩
  simp only [tokenText, hv.ready, hv.added a ha, hadded, if_true]

/-- A byte-level string has a token, with the bytes it encodes as its text. -/
theorem symbolTokens_byteLevel {v : Vocab} (hv : ByteLevelVocab v) {s : Bytes}
    (hs : ByteLevel v s) :
    byteEncode ((symbolTokens v s).flatMap (tokenText v)) = s := by
  obtain ⟨id, hid⟩ := hv.tokens s hs
  have htoken := (hv.ids s id).mp hid
  have hadded : tokenIsAdded v id = false := by
    refine Bool.eq_false_iff.mpr fun h => ?_
    obtain ⟨a, ha, heq⟩ := List.any_eq_true.mp h
    obtain rfl := eq_of_beq heq
    rw [hv.added a ha] at htoken
    exact hv.apart s hs a ha (Option.some.inj (Option.some.inj htoken))
  obtain ⟨p, rfl⟩ := hs.encodes
  simp only [symbolTokens, hid, tokenText, hv.ready, htoken, hadded, List.flatMap_cons,
    List.flatMap_nil, List.append_nil, Bool.false_eq_true, if_false]
  rw [decodeSymbols_byteEncode p le_rfl]

/-- So do the symbols of a piece one after the other. -/
theorem symbolTokens_flatMap {v : Vocab} (hv : ByteLevelVocab v) {sym : List Bytes}
    (h : ∀ s ∈ sym, ByteLevel v s) :
    byteEncode ((sym.flatMap (symbolTokens v)).flatMap (tokenText v)) = sym.flatten := by
  induction sym with
  | nil => rfl
  | cons s sym ih =>
    obtain ⟨hs, hrest⟩ := List.forall_mem_cons.mp h
    rw [List.flatMap_cons, List.flatMap_append, byteEncode_append, symbolTokens_byteLevel hv hs,
      ih hrest, List.flatten_cons]

/-- The texts of the tokens of a piece are the piece. -/
theorem decode_bpeEmitPiece {v : Vocab} (hv : ByteLevelVocab v) (piece : Bytes) :
    (bpeEmitPiece v piece).flatMap (tokenText v) = piece := by
  have hsplit := splitSymbols_byteEncode piece (le_refl (byteEncode piece).length)
  have hsymbols : ∀ s ∈ piece.map byteSymbol, ByteLevel v s :=
    List.forall_mem_map.mpr fun b _ => .symbol b
  refine byteEncode_injective ?_
  simp only [bpeEmitPiece, hsplit]
  rw [symbolTokens_flatMap hv (byteLevel_mergeLoop v _ hsymbols), flatten_mergeLoop,
    byteEncode, List.flatMap_def]

end Sf37.Tokenizer

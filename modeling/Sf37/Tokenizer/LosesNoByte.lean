/-
Sf37.Tokenizer.LosesNoByte — the texts of a text's tokens, one after the other, are the
text.

* `losesNoByte_iff`: in a byte-level vocabulary this is so for exactly the texts that are
  not cut.
* `byteVocab`: a vocabulary of the byte symbols and some added texts.
-/
import Sf37.Tokenizer.Rendered
import Mathlib.Data.List.Nodup

namespace Sf37.Tokenizer

open Sf37.Text Sf37.Run

/-- `sf37_tokenize_rendered_chat` gives tokens, and their texts are the text. -/
def LosesNoByte (v : Vocab) (text : Bytes) : Prop :=
  ∃ tokens, tokenizeRenderedChat v text [] = some tokens ∧ tokens.flatMap (tokenText v) = text

/-- The texts of the tokens of a span are the span. -/
theorem decode_tokenizeSpan {v : Vocab} (hv : ByteLevelVocab v) (p : Bytes) :
    (tokenizeSpan v p).flatMap (tokenText v) = p := by
  have hpieces : ∀ pieces : List Bytes,
      (pieces.flatMap (bpeEmitPiece v)).flatMap (tokenText v) = pieces.flatten := by
    intro pieces
    induction pieces with
    | nil => rfl
    | cons piece pieces ih =>
      rw [List.flatMap_cons, List.flatMap_append, decode_bpeEmitPiece hv, ih, List.flatten_cons]
  rw [tokenizeSpan, bpeTokenizeText, hpieces, flatten_bpePieces (le_refl p.length)]

/-- The text of an added token found in a text is what it is found for. -/
theorem tokenText_addedTokenAt {v : Vocab} (hv : ByteLevelVocab v) {p : Bytes} (hp : NulFree p)
    {id n : Nat} (h : addedTokenAt v p = some (id, n)) (hn : n ≤ p.length) :
    tokenText v id = p.take n := by
  obtain ⟨a, ha, hat, rfl, rfl, -⟩ := addedTokenAt_some h
  have hcmp := (strncmpEqual_iff hp a.text).mp hat.2
  rw [tokenText_added hv ha]
  split at hcmp
  · exact List.prefix_iff_eq_take.mp hcmp
  · rename_i hnul
    have hlen := length_cstr_lt hnul
    rw [hcmp] at hlen
    exact absurd hn (Nat.not_le.mpr hlen)

/-- Tokenization loses no byte of the texts that are not cut. -/
theorem losesNoByte_iff {v : Vocab} (hv : ByteLevelVocab v) {text : Bytes} (htext : NulFree text) :
    LosesNoByte v text ↔ ¬ CutText v text := by
  rw [← tokenizeRenderedChatVocab_isSome_iff htext]
  unfold LosesNoByte tokenizeRenderedChat
  rw [if_pos hv.ready]
  constructor
  · rintro ⟨tokens, h, -⟩
    obtain ⟨tokens', h', -⟩ := Option.map_eq_some_iff.mp h
    exact ⟨tokens', h'⟩
  · rintro ⟨tokens, h⟩
    refine ⟨tokens, by rw [h]; rfl, ?_⟩
    refine scan_texts (hits_addedTokenAt v) (decode_tokenizeSpan hv) [] text ?_ h
    intro c q id n hvisits hhit hn
    have hq : NulFree (c :: q) := fun h => htext (hvisits.suffix.mem h)
    rw [List.flatMap_cons, List.flatMap_nil, List.append_nil,
      tokenText_addedTokenAt hv hq hhit hn]

/-! ## Vocabularies of byte symbols -/

/-- The tokens no vocabulary is loaded without. -/
def chatTexts : List Bytes :=
  [bytes "<｜begin▁of▁sentence｜>", bytes "<|im_end|>", bytes "<|im_start|>"]

/-- The strings of the tokens: the byte symbols, then the added texts. -/
def byteTokens (added : List Bytes) : List (Option Bytes) :=
  ((List.range 256).map fun b => some (byteSymbol (UInt8.ofNat b))) ++ added.map some

/-- A vocabulary of the byte symbols and some added texts, without merges; the first added
text is the one of `bos_id`. -/
def byteVocab (added : List Bytes) : Vocab where
  token := byteTokens added
  bosId := 256
  added := added.zipIdx.map fun t => ⟨t.1, 256 + t.2⟩
  tokenToId s :=
    if some s ∈ byteTokens added then some ((byteTokens added).idxOf (some s)) else none
  mergeRank _ := none
  ready := true

theorem length_byteSymbol_le (b : UInt8) : (byteSymbol b).length ≤ 2 := by
  have hs := symbolOf_byteSymbol b
  match byteSymbol b, hs with
  | [_], _ => exact Nat.le_succ 1
  | [_, _], _ => exact le_rfl

theorem byteSymbol_injective : Function.Injective byteSymbol := by
  intro b c h
  have hbytes : byteEncode [b] = byteEncode [c] := by
    rw [byteEncode_cons, byteEncode_cons, h]
  exact List.head_eq_of_cons_eq (byteEncode_injective hbytes)

theorem nodup_byteTokens {added : List Bytes} (hnodup : added.Nodup)
    (hlong : ∀ t ∈ added, 2 < t.length) : (byteTokens added).Nodup := by
  refine List.nodup_append.mpr ⟨List.Nodup.map_on ?_ List.nodup_range,
    (List.nodup_map_iff (fun _ _ => Option.some.inj)).mpr hnodup, ?_⟩
  · intro b hb c hc h
    have hsymbol := byteSymbol_injective (Option.some.inj h)
    rw [← UInt8.toNat_inj, UInt8.toNat_ofNat', UInt8.toNat_ofNat',
      Nat.mod_eq_of_lt (List.mem_range.mp hb), Nat.mod_eq_of_lt (List.mem_range.mp hc)] at hsymbol
    exact hsymbol
  · intro s hs t ht heq
    obtain ⟨b, -, rfl⟩ := List.mem_map.mp hs
    obtain ⟨u, hu, rfl⟩ := List.mem_map.mp ht
    have hle := length_byteSymbol_le (UInt8.ofNat b)
    rw [Option.some.inj heq] at hle
    exact absurd (hlong u hu) (Nat.not_lt.mpr hle)

/-- The bytes' own strings are symbols: there are no merges. -/
theorem byteLevel_byteVocab {added : List Bytes} {s : Bytes}
    (h : ByteLevel (byteVocab added) s) : ∃ b, s = byteSymbol b := by
  induction h with
  | symbol b => exact ⟨b, rfl⟩
  | merge _ _ hr => cases hr

theorem mem_byteTokens_symbol (added : List Bytes) (b : UInt8) :
    some (byteSymbol b) ∈ byteTokens added := by
  refine List.mem_append_left _ (List.mem_map.mpr ⟨b.toNat, List.mem_range.mpr b.toNat_lt, ?_⟩)
  rw [UInt8.ofNat_toNat]

/-- The token of an added text. -/
theorem byteTokens_added {added : List Bytes} {i : Nat} {t : Bytes} (h : added[i]? = some t) :
    (byteTokens added)[256 + i]? = some (some t) := by
  have hlen : ((List.range 256).map fun b => some (byteSymbol (UInt8.ofNat b))).length = 256 := by
    rw [List.length_map, List.length_range]
  rw [byteTokens, List.getElem?_append_right (by rw [hlen]; exact Nat.le_add_right _ _), hlen,
    Nat.add_sub_cancel_left, List.getElem?_map, h]
  rfl

/-- Such a vocabulary is byte-level, when the added texts are different and long enough. -/
theorem byteLevelVocab_byteVocab {added : List Bytes} (hnodup : added.Nodup)
    (hlong : ∀ t ∈ added, 2 < t.length) : ByteLevelVocab (byteVocab added) where
  ready := rfl
  ids := by
    intro s id
    have hnodup := nodup_byteTokens hnodup hlong
    change (if some s ∈ byteTokens added then some ((byteTokens added).idxOf (some s)) else none) =
      some id ↔ (byteTokens added)[id]? = some (some s)
    constructor
    · intro h
      split at h
      · rename_i hmem
        cases h
        rw [List.getElem?_idxOf hmem]
      · cases h
    · intro h
      obtain ⟨hid, hs⟩ := List.getElem?_eq_some_iff.mp h
      have hidx := hnodup.idxOf_getElem id hid
      rw [hs] at hidx
      rw [if_pos (hs ▸ List.getElem_mem hid), hidx]
  tokens := by
    intro s hs
    obtain ⟨b, rfl⟩ := byteLevel_byteVocab hs
    exact ⟨_, if_pos (mem_byteTokens_symbol added b)⟩
  added := by
    intro a ha
    obtain ⟨⟨t, i⟩, hmem, rfl⟩ := List.mem_map.mp ha
    exact byteTokens_added (List.mk_mem_zipIdx_iff_getElem?.mp hmem)
  apart := by
    intro s hs a ha heq
    obtain ⟨b, rfl⟩ := byteLevel_byteVocab hs
    obtain ⟨⟨t, i⟩, hmem, rfl⟩ := List.mem_map.mp ha
    have ht : t ∈ added := List.mem_of_getElem? (List.mk_mem_zipIdx_iff_getElem?.mp hmem)
    have hle := length_byteSymbol_le b
    rw [← heq] at hle
    exact absurd (hlong t ht) (Nat.not_lt.mpr hle)

/-- A text in a vocabulary with one more added text. -/
theorem losesNoByte_think :
    LosesNoByte (byteVocab (chatTexts ++ [bytes "<think>"])) (bytes "a<think> b") :=
  (losesNoByte_iff (byteLevelVocab_byteVocab (by decide) (by decide)) (by decide)).mpr
    (not_cutText (by decide) _)

/-- An added text that holds a NUL is found at the end of the text. -/
theorem not_losesNoByte_cut :
    ¬ ∀ (v : Vocab) (text : Bytes), ByteLevelVocab v → NulFree text → LosesNoByte v text := by
  intro h
  have hloses := h (byteVocab (chatTexts ++ [[0x61, 0, 0x62]])) (bytes "xa")
    (byteLevelVocab_byteVocab (by decide) (by decide)) (by decide)
  obtain ⟨tokens, htokens, -⟩ := hloses
  have hnone : tokenizeRenderedChat (byteVocab (chatTexts ++ [[0x61, 0, 0x62]])) (bytes "xa") [] =
      none := by
    decide
  rw [hnone] at htokens
  cases htokens

end Sf37.Tokenizer

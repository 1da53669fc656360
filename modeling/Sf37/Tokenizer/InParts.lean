/-
Sf37.Tokenizer.InParts — a text tokenized in parts, and `sf37_encode_chat_prompt`, which
tokenizes a prompt message by message.

* `tokenizesInParts`: the law for two parts.
* `encodeChatPrompt_eq`: a prompt is its parts, tokenized one after the other.
* `tokenize_in_parts`: both agree with the tokens of the whole text where no text is cut.
-/
import Sf37.Server.LiveSplit
import Sf37.Tokenizer.LosesNoByte

namespace Sf37.Tokenizer

open Sf37.Text Sf37.Run
open Sf37.Server (ThinkMode)

/-! ## Prompts -/

/-- `sf37_chat_begin`. -/
def chatBegin (v : Vocab) (tokens : List Nat) : List Nat :=
  if v.ready then tokens ++ [v.bosId] else tokens

/-- What `tokenize_rendered_chat_vocab` leaves in its token list. -/
def appendTokens (v : Vocab) (tokens : List Nat) (text : Bytes) : Option (List Nat) :=
  (tokenizeRenderedChatVocab v text).map (tokens ++ ·)

/-- The text `sf37_chat_append_message` renders; a null pointer is `none`. -/
def renderedMessage (role content : Option Bytes) : Bytes :=
  let r := if role.getD [] = [] then bytes "user" else role.getD []
  bytes "<|im_start|>" ++ r ++ bytes "\n" ++ content.getD [] ++ bytes "<|im_end|>\n"

/-- `sf37_chat_append_message`. -/
def chatAppendMessage (v : Vocab) (tokens : List Nat) (role content : Option Bytes) :
    Option (List Nat) :=
  if v.ready then appendTokens v tokens (renderedMessage role content) else some tokens

/-- The text of `sf37_chat_append_assistant_prefix`. -/
def renderedAssistantPrefix (thinkMode : ThinkMode) : Bytes :=
  if thinkMode = .enabled then bytes "<|im_start|>assistant\n<think>\n"
  else bytes "<|im_start|>assistant\n"

/-- `sf37_chat_append_assistant_prefix`. -/
def chatAppendAssistantPrefix (v : Vocab) (tokens : List Nat) (thinkMode : ThinkMode) :
    Option (List Nat) :=
  if v.ready then appendTokens v tokens (renderedAssistantPrefix thinkMode) else some tokens

/-- `sf37_encode_chat_prompt`. -/
def encodeChatPrompt (v : Vocab) (system prompt : Option Bytes) (thinkMode : ThinkMode)
    (out : List Nat) : Option (List Nat) :=
  if v.ready then do
    let tokens := chatBegin v out
    let tokens ←
      if system.getD [] ≠ [] then chatAppendMessage v tokens (some (bytes "system")) system
      else some tokens
    let tokens ← chatAppendMessage v tokens (some (bytes "user")) (some (prompt.getD []))
    chatAppendAssistantPrefix v tokens thinkMode
  else some out

/-- `sf37_kvstore_build_prompt_from_exact_prefix_and_text_suffix`. -/
def buildPromptFromExactPrefixAndTextSuffix (v : Vocab) (exactPrefix : List Nat)
    (suffixText : Option Bytes) : Option (List Nat) :=
  (tokenizeRenderedChat v (suffixText.getD []) []).map (exactPrefix ++ ·)

/-! ## Two parts -/

/-- The tokens of two texts one after the other are those of the first and those of the
second. -/
def TokenizesInParts (v : Vocab) (a b : Bytes) : Prop :=
  ∃ x y, tokenizeRenderedChatVocab v a = some x ∧ tokenizeRenderedChatVocab v b = some y ∧
    tokenizeRenderedChatVocab v (a ++ b) = some (x ++ y)

/-- An added text begins the text. -/
def StartsWithAdded (v : Vocab) (b : Bytes) : Prop :=
  ∃ a ∈ v.added, a.text ≠ [] ∧ a.text <+: b

instance (v : Vocab) (b : Bytes) : Decidable (StartsWithAdded v b) :=
  inferInstanceAs (Decidable (∃ a ∈ v.added, a.text ≠ [] ∧ a.text <+: b))

theorem strncmpEqual_self (n : Nat) (t : Bytes) : strncmpEqual n t t = true := by
  induction n generalizing t with
  | zero => rfl
  | succ n ih => simp [strncmpEqual, ih]

theorem tokenizeSpan_nil (v : Vocab) : tokenizeSpan v [] = [] := rfl

/-- At an added text some added token is found, whatever follows. -/
theorem StartsWithAdded.begins {v : Vocab} {b : Bytes} (h : StartsWithAdded v b) :
    BeginsWithHit (addedTokenAt v) b := by
  obtain ⟨a, ha, hne, rest, rfl⟩ := h
  intro r
  have hat : AddedAt (a.text ++ rest ++ r) a := by
    refine ⟨hne, ?_⟩
    rw [List.append_assoc, strncmpEqual_append (le_refl _), strncmpEqual_self]
  obtain ⟨d, q, hq⟩ := List.exists_cons_of_ne_nil (l := a.text ++ rest ++ r) (by simp [hne])
  cases hfound : addedTokenAt v (a.text ++ rest ++ r) with
  | none => exact absurd hat (addedTokenAt_none_iff.mp hfound a ha)
  | some out => exact ⟨d, q, out.1, out.2, hq, rfl⟩

theorem not_overruns_iff {v : Vocab} {text : Bytes} (htext : NulFree text) :
    ¬ Overruns (addedTokenAt v) text ↔ ¬ CutText v text :=
  not_congr (overruns_iff htext)

/-- The law for two parts. -/
theorem tokenizesInParts {v : Vocab} {a b : Bytes} (ha : NulFree a) (hb : NulFree b)
    (hbegin : StartsWithAdded v b) (hcross : ¬ Crosses (addedTokenAt v) a b) :
    TokenizesInParts v a b ↔ ¬ CutText v a ∧ ¬ CutText v (a ++ b) := by
  have hab : NulFree (a ++ b) := nulFree_append.mpr ⟨ha, hb⟩
  constructor
  · rintro ⟨x, y, hx, -, hxy⟩
    exact ⟨(tokenizeRenderedChatVocab_isSome_iff ha).mp ⟨x, hx⟩,
      (tokenizeRenderedChatVocab_isSome_iff hab).mp ⟨x ++ y, hxy⟩⟩
  · rintro ⟨hcut, hcutBoth⟩
    have hhit := hbegin.begins []
    rw [List.append_nil] at hhit
    exact scan_append (hits_addedTokenAt v) (local_addedTokenAt v) (tokenizeSpan_nil v) hhit hcross
      ((not_overruns_iff ha).mpr hcut) ((not_overruns_iff hab).mpr hcutBoth) []

/-! ## Message by message -/

/-- The texts `sf37_encode_chat_prompt` renders. -/
def promptParts (system prompt : Option Bytes) (thinkMode : ThinkMode) : List Bytes :=
  (if system.getD [] ≠ [] then [renderedMessage (some (bytes "system")) system] else []) ++
    [renderedMessage (some (bytes "user")) (some (prompt.getD [])),
      renderedAssistantPrefix thinkMode]

/-- A prompt is its parts, tokenized one after the other. -/
theorem encodeChatPrompt_eq {v : Vocab} (hready : v.ready = true) (system prompt : Option Bytes)
    (thinkMode : ThinkMode) (out : List Nat) :
    encodeChatPrompt v system prompt thinkMode out =
      (promptParts system prompt thinkMode).foldlM (appendTokens v) (out ++ [v.bosId]) := by
  unfold encodeChatPrompt promptParts chatBegin chatAppendMessage chatAppendAssistantPrefix
  simp only [hready, if_true]
  by_cases hsystem : system.getD [] = []
  · simp [hsystem]
  · simp [hsystem]

/-- What parts append. -/
theorem foldlM_appendTokens {v : Vocab} {parts : List Bytes} {tokens out : List Nat} :
    parts.foldlM (appendTokens v) tokens = some out ↔
      ∃ xs, List.Forall₂ (fun p x => tokenizeRenderedChatVocab v p = some x) parts xs ∧
        out = tokens ++ xs.flatten := by
  induction parts generalizing tokens with
  | nil =>
    rw [List.foldlM_nil]
    constructor
    · intro h
      cases h
      exact ⟨[], .nil, by rw [List.flatten_nil, List.append_nil]⟩
    · rintro ⟨xs, hxs, rfl⟩
      cases hxs
      rw [List.flatten_nil, List.append_nil]
      rfl
  | cons p parts ih =>
    rw [List.foldlM_cons]
    cases hp : tokenizeRenderedChatVocab v p with
    | none =>
      have hnone : appendTokens v tokens p = none := by rw [appendTokens, hp, Option.map_none]
      rw [hnone]
      refine ⟨nofun, ?_⟩
      rintro ⟨xs, hxs, -⟩
      cases hxs with
      | cons h _ => rw [hp] at h; cases h
    | some x =>
      have hsome : appendTokens v tokens p = some (tokens ++ x) := by
        rw [appendTokens, hp, Option.map_some]
      rw [hsome, Option.bind_eq_bind, Option.bind_some, ih]
      constructor
      · rintro ⟨xs, hxs, rfl⟩
        exact ⟨x :: xs, .cons hp hxs, by rw [List.flatten_cons, List.append_assoc]⟩
      · rintro ⟨_, hxs, rfl⟩
        cases hxs with
        | cons h hxs =>
          rw [hp] at h
          cases h
          exact ⟨_, hxs, by rw [List.flatten_cons, List.append_assoc]⟩

theorem nulFree_renderedMessage {role content : Option Bytes} (hrole : NulFree (role.getD []))
    (hcontent : NulFree (content.getD [])) : NulFree (renderedMessage role content) := by
  have hr : NulFree (if role.getD [] = [] then bytes "user" else role.getD []) := by
    split
    · decide
    · exact hrole
  simp only [renderedMessage, nulFree_append]
  exact ⟨⟨⟨⟨by decide, hr⟩, by decide⟩, hcontent⟩, by decide⟩

theorem nulFree_promptParts {system prompt : Option Bytes} (hsystem : NulFree (system.getD []))
    (hprompt : NulFree (prompt.getD [])) (thinkMode : ThinkMode) :
    ∀ p ∈ promptParts system prompt thinkMode, NulFree p := by
  have hassistant : NulFree (renderedAssistantPrefix thinkMode) := by
    cases thinkMode <;> decide
  intro p hp
  simp only [promptParts, List.mem_append, List.mem_cons, List.not_mem_nil, or_false] at hp
  rcases hp with hp | rfl | rfl
  · split at hp
    · rw [List.mem_singleton] at hp
      subst hp
      exact nulFree_renderedMessage (by decide) hsystem
    · exact absurd hp List.not_mem_nil
  · exact nulFree_renderedMessage (by decide) hprompt
  · exact hassistant

/-- Each part begins with `<|im_start|>`. -/
theorem promptParts_start (system prompt : Option Bytes) (thinkMode : ThinkMode) :
    ∀ p ∈ promptParts system prompt thinkMode, bytes "<|im_start|>" <+: p := by
  have hmessage (role content : Option Bytes) :
      bytes "<|im_start|>" <+: renderedMessage role content := by
    simp only [renderedMessage, List.append_assoc]
    exact List.prefix_append _ _
  have hassistant : bytes "<|im_start|>" <+: renderedAssistantPrefix thinkMode := by
    cases thinkMode <;> decide
  intro p hp
  simp only [promptParts, List.mem_append, List.mem_cons, List.not_mem_nil, or_false] at hp
  rcases hp with hp | rfl | rfl
  · split at hp
    · rw [List.mem_singleton] at hp
      subst hp
      exact hmessage _ _
    · exact absurd hp List.not_mem_nil
  · exact hmessage _ _
  · exact hassistant

/-- The prompt is the id of the beginning and the tokens of its whole text. -/
def EncodesWhole (v : Vocab) (system prompt : Option Bytes) (thinkMode : ThinkMode)
    (out : List Nat) : Prop :=
  ∃ tokens,
    tokenizeRenderedChatVocab v (promptParts system prompt thinkMode).flatten = some tokens ∧
    encodeChatPrompt v system prompt thinkMode out = some (out ++ v.bosId :: tokens)

/-- The law for a prompt. -/
theorem encodesWhole {v : Vocab} (hready : v.ready = true)
    (hstart : ∃ a ∈ v.added, a.text = bytes "<|im_start|>") {system prompt : Option Bytes}
    (hsystem : NulFree (system.getD [])) (hprompt : NulFree (prompt.getD []))
    {thinkMode : ThinkMode}
    (hcross : CrossesNowhere (addedTokenAt v) (promptParts system prompt thinkMode))
    (out : List Nat) :
    EncodesWhole v system prompt thinkMode out ↔
      (∀ p ∈ promptParts system prompt thinkMode, ¬ CutText v p) ∧
        ¬ CutText v (promptParts system prompt thinkMode).flatten := by
  have hnul := nulFree_promptParts hsystem hprompt thinkMode
  have hwhole : NulFree (promptParts system prompt thinkMode).flatten := by
    intro h
    obtain ⟨p, hp, hmem⟩ := List.mem_flatten.mp h
    exact hnul p hp hmem
  unfold EncodesWhole
  rw [encodeChatPrompt_eq hready]
  constructor
  · rintro ⟨tokens, htokens, hencode⟩
    obtain ⟨xs, hxs, -⟩ := foldlM_appendTokens.mp hencode
    have hsome := hxs.imp fun p x h =>
      (⟨⟨x, h⟩, h⟩ : (∃ x, tokenizeRenderedChatVocab v p = some x) ∧
        tokenizeRenderedChatVocab v p = some x)
    have hparts := ((List.forall₂_and_left _ _).mp hsome).1
    exact ⟨fun p hp => (tokenizeRenderedChatVocab_isSome_iff (hnul p hp)).mp (hparts p hp),
      (tokenizeRenderedChatVocab_isSome_iff hwhole).mp ⟨tokens, htokens⟩⟩
  · rintro ⟨hparts, hcut⟩
    have hbegin : ∀ p ∈ promptParts system prompt thinkMode,
        BeginsWithHit (addedTokenAt v) p := by
      intro p hp
      obtain ⟨a, ha, htext⟩ := hstart
      have hp' := promptParts_start system prompt thinkMode p hp
      rw [← htext] at hp'
      refine StartsWithAdded.begins ⟨a, ha, ?_, hp'⟩
      rw [htext]
      decide
    obtain ⟨xs, hxs, hflat⟩ : ∃ xs,
        List.Forall₂ (fun p x => tokenizeRenderedChatVocab v p = some x)
          (promptParts system prompt thinkMode) xs ∧
        tokenizeRenderedChatVocab v (promptParts system prompt thinkMode).flatten =
          some xs.flatten :=
      scan_flatten (hits_addedTokenAt v) (local_addedTokenAt v) (tokenizeSpan_nil v) hbegin hcross
        (fun p hp => (not_overruns_iff (hnul p hp)).mpr (hparts p hp))
        ((not_overruns_iff hwhole).mpr hcut)
    refine ⟨xs.flatten, hflat, foldlM_appendTokens.mpr ⟨xs, hxs, ?_⟩⟩
    rw [List.append_assoc]
    rfl

/-- Tokenizing in parts agrees with tokenizing the whole exactly when no part and not the
whole is cut. -/
theorem tokenize_in_parts (v : Vocab) :
    (∀ a b : Bytes, NulFree a → NulFree b → StartsWithAdded v b →
      ¬ Crosses (addedTokenAt v) a b →
      (TokenizesInParts v a b ↔ ¬ CutText v a ∧ ¬ CutText v (a ++ b))) ∧
    (v.ready = true → (∃ a ∈ v.added, a.text = bytes "<|im_start|>") →
      ∀ (system prompt : Option Bytes) (thinkMode : ThinkMode) (out : List Nat),
        NulFree (system.getD []) → NulFree (prompt.getD []) →
        CrossesNowhere (addedTokenAt v) (promptParts system prompt thinkMode) →
        (EncodesWhole v system prompt thinkMode out ↔
          (∀ p ∈ promptParts system prompt thinkMode, ¬ CutText v p) ∧
            ¬ CutText v (promptParts system prompt thinkMode).flatten)) :=
  ⟨fun _ _ ha hb hbegin hcross => tokenizesInParts ha hb hbegin hcross,
    fun hready hstart _ _ _ out hsystem hprompt hcross =>
      encodesWhole hready hstart hsystem hprompt hcross out⟩

/-- A prompt built from a prefix's tokens and a text behind it. -/
theorem buildPrompt_eq {v : Vocab} (hready : v.ready = true) {a b : Bytes} (ha : NulFree a)
    (hb : NulFree b) (hbegin : StartsWithAdded v b) (hcross : ¬ Crosses (addedTokenAt v) a b)
    (hcut : ¬ CutText v a) (hcutBoth : ¬ CutText v (a ++ b)) {exactPrefix : List Nat}
    (htokens : tokenizeRenderedChatVocab v a = some exactPrefix) :
    buildPromptFromExactPrefixAndTextSuffix v exactPrefix (some b) =
      tokenizeRenderedChatVocab v (a ++ b) := by
  obtain ⟨x, y, hx, hy, hxy⟩ := (tokenizesInParts ha hb hbegin hcross).mpr ⟨hcut, hcutBoth⟩
  rw [htokens] at hx
  cases hx
  simp only [buildPromptFromExactPrefixAndTextSuffix, tokenizeRenderedChat, hready, if_true,
    Option.getD_some, hy, Option.map_some, List.nil_append, hxy]

/-! ## Places where nothing crosses -/

/-- No hit that begins in the first text is longer than the rest of it. -/
def EndsWithin (v : Vocab) (a b : Bytes) : Prop :=
  ∀ i < a.length, ∀ hit ∈ addedTokenAt v ((a ++ b).drop i), hit.2 + i ≤ a.length

instance (v : Vocab) (a b : Bytes) : Decidable (EndsWithin v a b) :=
  inferInstanceAs (Decidable (∀ i < a.length, ∀ hit ∈ addedTokenAt v ((a ++ b).drop i),
    hit.2 + i ≤ a.length))

theorem EndsWithin.not_crosses {v : Vocab} {a b : Bytes} (h : EndsWithin v a b) :
    ¬ Crosses (addedTokenAt v) a b := by
  rintro ⟨c, p, t, n, hvisits, hhit, hstart, hend, -⟩
  have hsuffix := hvisits.suffix
  rw [List.suffix_iff_eq_drop] at hsuffix
  have hlen := hvisits.suffix.length_le
  rw [List.length_append] at hlen hsuffix
  have hle := h (a.length + b.length - (c :: p).length) (by omega) (t, n)
    (by rw [← hsuffix]; exact hhit)
  simp only at hle
  omega

/-- The two laws in a vocabulary with one more added text. -/
theorem tokenize_in_parts_think :
    TokenizesInParts (byteVocab (chatTexts ++ [bytes "<think>"])) (bytes "x<think>")
        (bytes "<|im_start|>y") ∧
      EncodesWhole (byteVocab (chatTexts ++ [bytes "<think>"])) none (some (bytes "hi")) .enabled
        [] := by
  have hlaws := tokenize_in_parts (byteVocab (chatTexts ++ [bytes "<think>"]))
  have hnocut : ∀ text, ¬ CutText (byteVocab (chatTexts ++ [bytes "<think>"])) text :=
    not_cutText (by decide)
  refine ⟨(hlaws.1 _ _ (by decide) (by decide) (by decide) ?_).mpr ⟨hnocut _, hnocut _⟩,
    (hlaws.2 rfl (by decide) _ _ _ _ (by decide) (by decide) ?_).mpr
      ⟨fun p _ => hnocut p, hnocut _⟩⟩
  · exact EndsWithin.not_crosses (by decide)
  · rintro as bs h
    have hsplit : as = (promptParts none (some (bytes "hi")) .enabled).take as.length ∧
        bs = (promptParts none (some (bytes "hi")) .enabled).drop as.length := by
      rw [h, List.take_left, List.drop_left]
      exact ⟨rfl, rfl⟩
    have hlen : as.length ≤ 2 := by
      have hlen : 2 = as.length + bs.length := by
        rw [← List.length_append, ← h]
        rfl
      omega
    rw [hsplit.1, hsplit.2]
    refine EndsWithin.not_crosses ?_
    have hall : ∀ i ≤ 2, EndsWithin (byteVocab (chatTexts ++ [bytes "<think>"]))
        ((promptParts none (some (bytes "hi")) .enabled).take i).flatten
        ((promptParts none (some (bytes "hi")) .enabled).drop i).flatten := by
      decide
    exact hall _ hlen

/-- An added text that holds a NUL is found at the end of the first part alone. -/
theorem not_tokenizesInParts_cut :
    ¬ ∀ (v : Vocab) (a b : Bytes), NulFree a → NulFree b → StartsWithAdded v b →
      ¬ Crosses (addedTokenAt v) a b → TokenizesInParts v a b := by
  intro h
  obtain ⟨x, -, hx, -⟩ := h (byteVocab (chatTexts ++ [[0x61, 0, 0x62]])) (bytes "a")
    (bytes "<|im_start|>") (by decide) (by decide) (by decide)
    (EndsWithin.not_crosses (by decide))
  have hnone : tokenizeRenderedChatVocab (byteVocab (chatTexts ++ [[0x61, 0, 0x62]])) (bytes "a") =
      none := by
    decide
  rw [hnone] at hx
  cases hx

end Sf37.Tokenizer

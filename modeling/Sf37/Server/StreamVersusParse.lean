/-
Sf37.Server.StreamVersusParse — the streamed split of a text against the
final parse of the same text.

`streamedReasoning` and `streamedContent` are what a streaming client sees;
`parse_generated_message_for_response` gives what a client that waits sees. The
two were written apart. `StreamMatchesParse` is the exact condition under which
they agree, read off the text: where the parser looks for a block, whether the
block there is well formed, whether it is the first opener of the content,
whether tools were offered, and whether the content ends in the middle of a
character.

* `streamMatchesParse_iff`: the two splits agree exactly then.
* `chatStream_eq_parse_iff`: so does any run of `reasoning_stream_update`.
-/
import Sf37.Server.BlockGrammar
import Sf37.Server.ChunkIndependence

namespace Sf37.Server

open Sf37.Text

/-! ## `split_reasoning_content` in offsets -/

/-- The parser's split looks for the same tags as the streamed one. -/
theorem splitReasoningContent_eq (raw : Bytes) (think : ThinkMode) :
    splitReasoningContent raw think =
      match thinkCloseAt raw with
      | some c => (slice raw (thinkBodyStart raw) c, slice raw (c + 8) raw.length)
      | none =>
          if think = .enabled then (slice raw (thinkBodyStart raw) raw.length, [])
          else ([], slice raw (thinkBodyStart raw) raw.length) := by
  obtain ⟨b, hb⟩ : ∃ b, b = thinkBodyStart raw := ⟨_, rfl⟩
  have hle := thinkBodyStart_le raw
  have hbody : (if startsWith raw thinkOpen then raw.drop thinkOpen.length else raw) =
      raw.drop b := by
    rw [hb, thinkBodyStart]
    split <;> rfl
  unfold splitReasoningContent
  simp only [hbody, length_thinkClose, ← hb]
  cases hc : thinkCloseAt raw with
  | some c =>
    obtain ⟨⟨hbc, hclen, hocc⟩, hmin⟩ := thinkCloseAt_eq_some_iff.mp hc
    rw [← hb] at hbc hle hmin
    have hfind : findSubstrFrom (raw.drop b) (raw.drop b).length 0 thinkClose =
        some (c - b) := by
      rw [findSubstrFrom_eq_some_iff thinkClose_ne_nil]
      refine ⟨⟨Nat.zero_le _, ?_, ?_⟩, fun j _ hj hbad => ?_⟩
      · rw [List.length_drop, length_thinkClose]; omega
      · rw [occursAt_drop, show b + (c - b) = c by omega]; exact hocc
      · exact hmin (b + j) (by omega) (by omega) (occursAt_drop.mp hbad.1)
    simp only [hfind]
    rw [List.drop_drop, show b + (c - b + 8) = c + 8 by omega, slice_length, slice]
  | none =>
    have hnone := thinkCloseAt_eq_none_iff.mp hc
    rw [← hb] at hnone
    have hfind : findSubstrFrom (raw.drop b) (raw.drop b).length 0 thinkClose = none := by
      rw [findSubstrFrom_eq_none_iff thinkClose_ne_nil]
      exact fun j _ hbad => hnone (b + j) (by omega) (occursAt_drop.mp hbad.1)
    simp only [hfind, slice_length]

/-! ## Prefixes that end behind a tag -/

theorem startsWith_take {T lit : Bytes} {n : Nat} (hne : lit ≠ []) :
    startsWith (T.take n) lit = true ↔ startsWith T lit = true ∧ lit.length ≤ n := by
  have := occursAt_take (s := T) (p := n) (i := 0) hne
  simpa [startsWith, occursAt_zero] using this

/-- A prefix that keeps the opening tag keeps the start of the reasoning. -/
theorem thinkBodyStart_take {T : Bytes} {n : Nat}
    (h : startsWith T thinkOpen = true → 7 ≤ n) :
    thinkBodyStart (T.take n) = thinkBodyStart T := by
  have := startsWith_take (T := T) (n := n) thinkOpen_ne_nil
  rw [length_thinkOpen] at this
  unfold thinkBodyStart
  by_cases hs : startsWith T thinkOpen = true
  · rw [if_pos hs, if_pos (this.mpr ⟨hs, h hs⟩)]
  · rw [if_neg hs, if_neg fun hc => hs (this.mp hc).1]

theorem thinkCloseAt_take {T : Bytes} {n : Nat} (hn : n ≤ T.length)
    (h : startsWith T thinkOpen = true → 7 ≤ n) :
    thinkCloseAt (T.take n) = (thinkCloseAt T).filter (· + 8 ≤ n) := by
  have hlen : (T.take n).length = n := by simp; omega
  have hocc : ∀ i, OccursAt thinkClose (T.take n) i ↔ OccursAt thinkClose T i ∧ i + 8 ≤ n :=
    fun i => by simpa using occursAt_take (s := T) (p := n) (i := i) thinkClose_ne_nil
  cases hc : thinkCloseAt T with
  | some c =>
    obtain ⟨⟨hbc, -, hcl⟩, hmin⟩ := thinkCloseAt_eq_some_iff.mp hc
    by_cases hcn : c + 8 ≤ n
    · simp only [Option.filter, hcn, decide_true, if_true]
      rw [thinkCloseAt_eq_some_iff, thinkBodyStart_take h, hlen]
      exact ⟨⟨hbc, hcn, (hocc c).mpr ⟨hcl, hcn⟩⟩,
        fun j hj hjc hbad => hmin j hj hjc ((hocc j).mp hbad).1⟩
    · simp only [Option.filter, hcn, decide_false, Bool.false_eq_true, if_false]
      rw [thinkCloseAt_eq_none_iff, thinkBodyStart_take h]
      intro j hj hbad
      obtain ⟨hj8, hjn⟩ := (hocc j).mp hbad
      exact hmin j hj (by omega) hj8
  | none =>
    simp only [Option.filter]
    rw [thinkCloseAt_eq_none_iff, thinkBodyStart_take h]
    exact fun j hj hbad => thinkCloseAt_eq_none_iff.mp hc j hj ((hocc j).mp hbad).1

/-- A leading opening tag stands before the first NUL. -/
theorem thinkOpen_le_cstr {T : Bytes} (h : startsWith T thinkOpen = true) :
    7 ≤ (cstr T).length := by
  have hocc : OccursAt thinkOpen T 0 := by simpa [startsWith, occursAt_zero] using h
  simpa using hocc.add_le_cstr (by decide) (Nat.zero_le _)

theorem thinkCloseAt_cstr (T : Bytes) :
    thinkCloseAt (cstr T) = (thinkCloseAt T).filter (· + 8 ≤ (cstr T).length) := by
  have htake := thinkCloseAt_take (length_cstr_le T) fun h => thinkOpen_le_cstr h
  rwa [← cstr_eq_take] at htake

theorem thinkBodyStart_cstr (T : Bytes) : thinkBodyStart (cstr T) = thinkBodyStart T := by
  have htake := thinkBodyStart_take (T := T) fun h => thinkOpen_le_cstr h
  rwa [← cstr_eq_take] at htake

/-! ## Tags and openers -/

theorem thinkOpen_guarded : Guarded 0x3c thinkOpen := by decide

/-- No opener begins like a reasoning tag, nor the other way. -/
theorem toolStarts_apart : ∀ m ∈ toolStarts, ∀ tag ∈ [thinkOpen, thinkClose],
    ¬ m <+: tag ∧ ¬ tag <+: m := by
  decide

/-- A reasoning tag and an opener do not share a byte. -/
theorem tag_before_opener (tag : Bytes) {T : Bytes} {i j : Nat} (htag : tag ∈ [thinkOpen, thinkClose])
    (hi : OccursAt tag T i) (hj : ToolStartAt T j) (hij : i ≤ j) : i + tag.length ≤ j := by
  have hg : Guarded 0x3c tag := by
    simp only [List.mem_cons, List.not_mem_nil, or_false] at htag
    rcases htag with rfl | rfl
    · exact thinkOpen_guarded
    · exact thinkClose_guarded
  obtain ⟨m, hm, hocc⟩ := hj
  rcases Nat.eq_or_lt_of_le hij with rfl | hlt
  · have hap := toolStarts_apart m hm tag htag
    exact ((List.prefix_or_prefix_of_prefix hocc hi).elim hap.1 hap.2).elim
  · exact hg.disjoint (toolStarts_guarded m hm).1 hi hocc hlt

/-- Every tag the split looks at ends in `>`. -/
theorem getElem?_tag_end {T tag : Bytes} {i : Nat}
    (htag : tag ∈ thinkOpen :: thinkClose :: toolStarts) (h : OccursAt tag T i) :
    T[i + tag.length - 1]? = some 0x3e := by
  have hend : ∀ t ∈ thinkOpen :: thinkClose :: toolStarts,
      0 < t.length ∧ t[t.length - 1]? = some 0x3e := by decide
  obtain ⟨hpos, hlast⟩ := hend tag htag
  rw [show i + tag.length - 1 = i + (tag.length - 1) by omega,
    occursAt_iff_getElem?.mp h _ (by omega), hlast]

/-- The trimmed end of a text stays behind every tag that ends in it. -/
theorem tag_le_trim (tag : Bytes) {T : Bytes} {i d : Nat} (lo : Nat)
    (htag : tag ∈ thinkOpen :: thinkClose :: toolStarts) (h : OccursAt tag T i)
    (hd : i + tag.length ≤ d) : i + tag.length ≤ trimToolSeparatorWs T lo d := by
  have hpos : 0 < tag.length := by
    have : ∀ t ∈ thinkOpen :: thinkClose :: toolStarts, 0 < t.length := by decide
    exact this tag htag
  have hget := getElem?_tag_end htag h
  have := lt_retreat_of_not (p := isToolSeparatorWs) (s := T) lo
    (show i + tag.length - 1 < d by omega) (by rw [hget]; decide)
  rw [trimToolSeparatorWs]
  omega

/-- A block chosen at `d`: an opener at `o`, behind line breaks at most. -/
structure ChosenAt (T : Bytes) (d o : Nat) : Prop where
  le : d ≤ o
  opener : ToolStartAt T o
  breaks : ∀ j, d ≤ j → j < o → T[j]? = some 0x0a

theorem ChosenAt.trim {T : Bytes} {d o lo : Nat} (h : ChosenAt T d o) (hlo : lo ≤ d) :
    trimToolSeparatorWs T lo o = trimToolSeparatorWs T lo d :=
  retreat_over hlo h.le fun k hk hko => by rw [h.breaks k hk hko]; rfl

/-- Openers from the chosen place on start at the chosen opener or later. -/
theorem ChosenAt.le_opener {T : Bytes} {d o i : Nat} (h : ChosenAt T d o)
    (hi : ToolStartAt T i) (hdi : d ≤ i) : o ≤ i := by
  rcases Nat.lt_or_ge i o with hlt | hge
  · have := hi.bounds.2
    rw [h.breaks i hdi hlt] at this
    simp at this
  · exact hge

/-- A tag before the chosen opener ends before the chosen place. -/
theorem ChosenAt.tag_le (tag : Bytes) {T : Bytes} {d o i : Nat} (h : ChosenAt T d o)
    (htag : tag ∈ thinkOpen :: thinkClose :: toolStarts) (hi : OccursAt tag T i)
    (hle : i + tag.length ≤ o) : i + tag.length ≤ d := by
  have hpos : 0 < tag.length := by
    have : ∀ t ∈ thinkOpen :: thinkClose :: toolStarts, 0 < t.length := by decide
    exact this tag htag
  rcases Nat.lt_or_ge d (i + tag.length) with hlt | hge
  · have := h.breaks (i + tag.length - 1) (by omega) (by omega)
    rw [getElem?_tag_end htag hi] at this
    simp at this
  · exact hge

/-! ## Where the streamed content ends -/

theorem toolStarts_length : ∀ m ∈ toolStarts, 11 ≤ m.length := by decide

theorem ToolStartAt.add_le {T : Bytes} {o : Nat} (h : ToolStartAt T o) :
    o + 11 ≤ T.length := by
  obtain ⟨m, hm, hocc⟩ := h
  have := hocc.add_length_le (toolStarts_guarded m hm).1.ne_nil
  have := toolStarts_length m hm
  omega

theorem contentEnd_le (hasTools : Bool) {T : Bytes} {S : Nat} (hS : S ≤ T.length) :
    contentEnd hasTools T S ≤ T.length := by
  unfold contentEnd
  split
  · rename_i t ht
    cases hasTools with
    | false => simp at ht
    | true =>
      rw [if_pos rfl] at ht
      have hat := (findAnyToolStart_eq_some_iff.mp ht).1.bounds.1
      rw [List.length_drop] at hat
      have hlo : S ≤ trimToolSeparatorWs T S (S + t) := le_retreat (by omega)
      have hhi : trimToolSeparatorWs T S (S + t) ≤ S + t := retreat_le _ _ _ _
      have := utf8StreamSafeLen_le (s := T) hlo
      omega
  · exact utf8StreamSafeLen_le hS

/-- All content is streamed when no opener stops it and no character is cut. -/
theorem contentEnd_eq_length_iff {hasTools : Bool} {T : Bytes} {S : Nat} :
    contentEnd hasTools T S = T.length ↔
      (hasTools = true → ∀ i, S ≤ i → ¬ ToolStartAt T i) ∧
        utf8StreamSafeLen T S T.length = T.length := by
  cases hasTools with
  | false => simp [contentEnd]
  | true =>
    by_cases hno : ∀ i, S ≤ i → ¬ ToolStartAt T i
    · have hnone : findAnyToolStart (T.drop S) = none :=
        findAnyToolStart_eq_none_iff.mpr fun i hi => hno (S + i) (by omega) (toolStartAt_drop.mp hi)
      simp only [contentEnd, if_true, hnone]
      exact ⟨fun h => ⟨fun _ => hno, h⟩, fun h => h.2⟩
    · refine ⟨fun h => absurd h ?_, fun h => absurd (h.1 rfl) hno⟩
      simp only [not_forall, not_not] at hno
      obtain ⟨i, hi, htool⟩ := hno
      have := contentEnd_le_tool hi htool
      have := htool.add_le
      omega

/-- Streamed content ends where the parser cuts the text before its block exactly
when tools are on, the block is the first opener of the content, and no character
is cut. -/
theorem contentEnd_eq_trim_iff (hasTools : Bool) {T : Bytes} {S d o : Nat}
    (hch : ChosenAt T d o) (hS : S ≤ d) :
    contentEnd hasTools T S = trimToolSeparatorWs T S d ↔
      hasTools = true ∧ (∀ i, S ≤ i → ToolStartAt T i → d ≤ i) ∧
        utf8StreamSafeLen T S (trimToolSeparatorWs T S d) = trimToolSeparatorWs T S d := by
  have hdo := hch.le
  have hon := hch.opener.add_le
  have htrimle : trimToolSeparatorWs T S d ≤ d := retreat_le _ _ _ _
  cases hasTools with
  | false =>
    simp only [contentEnd, Bool.false_eq_true, if_false, false_and, iff_false]
    have := le_utf8StreamSafeLen_add_three T S T.length
    omega
  | true =>
    cases hf : findAnyToolStart (T.drop S) with
    | none =>
      refine absurd ?_ (findAnyToolStart_eq_none_iff.mp hf (o - S))
      rw [toolStartAt_drop, show S + (o - S) = o by omega]
      exact hch.opener
    | some t =>
      obtain ⟨hat, hmin⟩ := findAnyToolStart_eq_some_iff.mp hf
      rw [toolStartAt_drop] at hat
      have hend : contentEnd true T S =
          utf8StreamSafeLen T S (trimToolSeparatorWs T S (S + t)) := by
        simp only [contentEnd, if_true, hf]
      by_cases hfirst : ∀ i, S ≤ i → ToolStartAt T i → d ≤ i
      · -- the first opener of the content is the chosen one
        have hto : S + t = o := by
          have h1 := hch.le_opener hat (hfirst _ (by omega) hat)
          rcases Nat.lt_or_ge o (S + t) with hlt | hge
          · refine absurd ?_ (hmin (o - S) (by omega))
            rw [toolStartAt_drop, show S + (o - S) = o by omega]
            exact hch.opener
          · omega
        rw [hend, hto, hch.trim hS]
        exact ⟨fun h => ⟨rfl, hfirst, h⟩, fun h => h.2.2⟩
      · refine ⟨fun h => absurd h ?_, fun h => absurd h.2.1 hfirst⟩
        simp only [not_forall, Nat.not_le] at hfirst
        obtain ⟨i, hSi, htool, hid⟩ := hfirst
        have hle := contentEnd_le_tool hSi htool
        have := lt_retreat_of_not (p := isToolSeparatorWs) (s := T) S hid
          (by rw [htool.bounds.2]; decide)
        rw [trimToolSeparatorWs]
        omega

/-- Where tags fill the first `q` bytes and thinking is off, the streamed content
begins with them and the parser's does not, and the two cannot coincide. -/
theorem streamed_ne_cut {hasTools : Bool} {T : Bytes} {d o q : Nat} (hch : ChosenAt T d o)
    (hq : 7 ≤ q) (hqn : q ≤ trimToolSeparatorWs T 0 d) (hpre : ∀ i, ToolStartAt T i → q ≤ i) :
    slice T 0 (contentEnd hasTools T 0) ≠ slice T q (trimToolSeparatorWs T 0 d) := by
  intro heq
  have hdo := hch.le
  have hon := hch.opener.add_le
  obtain ⟨n, hn⟩ : ∃ n, n = trimToolSeparatorWs T 0 d := ⟨_, rfl⟩
  have hnd : n ≤ d := hn ▸ retreat_le _ _ _ _
  obtain ⟨e, he⟩ : ∃ e, e = contentEnd hasTools T 0 := ⟨_, rfl⟩
  rw [← hn, ← he] at heq
  rw [← hn] at hqn
  have heT : e ≤ T.length := he ▸ contentEnd_le hasTools (Nat.zero_le _)
  have hlen : e = n - q := by
    have := congrArg List.length heq
    rw [length_slice heT, length_slice (by omega)] at this
    omega
  cases hasTools with
  | false =>
    have := le_utf8StreamSafeLen_add_three T 0 T.length
    have : e = utf8StreamSafeLen T 0 T.length := by simp [he, contentEnd]
    omega
  | true =>
    by_cases hfirst : ∀ i, 0 ≤ i → ToolStartAt T i → d ≤ i
    · -- the chosen opener comes first, so the content is cut at most in a character
      obtain ⟨t, ht⟩ : ∃ t, findAnyToolStart (T.drop 0) = some t := by
        cases hf : findAnyToolStart (T.drop 0) with
        | some t => exact ⟨t, rfl⟩
        | none => exact absurd hch.opener (findAnyToolStart_eq_none_iff.mp hf o)
      obtain ⟨hat, hmin⟩ := findAnyToolStart_eq_some_iff.mp ht
      have hto : t = o := by
        have h1 := hch.le_opener hat (hfirst t (Nat.zero_le _) hat)
        rcases Nat.lt_or_ge o t with hlt | hge
        · exact absurd hch.opener (hmin o hlt)
        · omega
      have : e = utf8StreamSafeLen T 0 n := by
        rw [he, hn, ← hch.trim (Nat.zero_le d)]
        simp only [contentEnd, if_true, ht, hto, Nat.zero_add]
      have := le_utf8StreamSafeLen_add_three T 0 n
      omega
    · -- an earlier opener would stand once more, `q` bytes before itself
      simp only [not_forall, Nat.not_le] at hfirst
      obtain ⟨i, -, hi, hid⟩ := hfirst
      obtain ⟨t, ht⟩ : ∃ t, findAnyToolStart T = some t := by
        cases hf : findAnyToolStart T with
        | some t => exact ⟨t, rfl⟩
        | none => exact absurd hi (findAnyToolStart_eq_none_iff.mp hf i)
      obtain ⟨hat, hmin⟩ := findAnyToolStart_eq_some_iff.mp ht
      have hti : t ≤ i := by
        rcases Nat.lt_or_ge i t with hlt | hge
        · exact absurd hi (hmin i hlt)
        · exact hge
      have hqt := hpre t hat
      obtain ⟨m, hm, hocc⟩ := hat
      have hmem : m ∈ thinkOpen :: thinkClose :: toolStarts := by simp [hm]
      have hend := ToolStartAt.disjoint hm hocc hch.opener (by omega)
      have hend := hch.tag_le _ hmem hocc hend
      have hend := tag_le_trim _ 0 hmem hocc hend
      rw [← hn] at hend
      refine hmin (t - q) (by omega) ⟨m, hm, occursAt_iff_getElem?.mpr fun k hk => ?_⟩
      have hk' := congrArg (fun l => l[t - q + k]?) heq
      simp only [slice, List.drop_zero, Nat.sub_zero, List.getElem?_take, List.getElem?_drop]
        at hk'
      rw [if_pos (by omega), if_pos (by omega), show q + (t - q + k) = t + k by omega] at hk'
      rw [hk', occursAt_iff_getElem?.mp hocc k hk]

/-! ## When the two agree -/

/-- A well-formed block begins the text. -/
def WellFormedBlock (form : BlockForm) (p : Bytes) : Prop :=
  ∃ calls rest, ToolBlock form p calls rest

/-- The condition under which a streaming client and a waiting client are told
the same. -/
def StreamMatchesParse (think : ThinkMode) (hasTools : Bool) (T : Bytes) : Prop :=
  match toolSearchStart (think == .enabled) T with
  | none => True
  | some k =>
      let S := (contentStart think T).getD 0
      match toolBlockStart (T.drop k) with
      | none =>
          (think = .none → startsWith T thinkOpen = false ∧ ∀ j, ¬ OccursAt thinkClose T j) ∧
          (hasTools = true → ∀ i, S ≤ i → ¬ ToolStartAt T i) ∧
          utf8StreamSafeLen T S T.length = T.length
      | some (d, form) =>
          (WellFormedBlock form (T.drop (k + d)) ∧ hasTools = true ∧
            (think = .none → startsWith T thinkOpen = false ∧
              ∀ j, OccursAt thinkClose T j → k + d ≤ j) ∧
            (∀ i, S ≤ i → ToolStartAt T i → k + d ≤ i) ∧
            utf8StreamSafeLen T S (trimToolSeparatorWs T S (k + d)) =
              trimToolSeparatorWs T S (k + d)) ∨
          (¬ WellFormedBlock form (T.drop (k + d)) ∧ hasTools = false ∧ think = .none ∧
            utf8StreamSafeLen T 0 T.length = T.length)

/-- What a streaming client is told is what a waiting client is told. -/
def StreamAgrees (think : ThinkMode) (hasTools : Bool) (T : Bytes) (m : ParsedMessage) : Prop :=
  streamedReasoning think T = m.reasoning.getD [] ∧ streamedContent think hasTools T = m.content

/-- The closing tags the two sides look for: the last one is there when the first
one is, and not before it. -/
theorem findLastSubstr_thinkClose {T : Bytes} :
    (findLastSubstr T thinkClose = none ↔ ∀ j, ¬ OccursAt thinkClose T j) ∧
    ∀ l, findLastSubstr T thinkClose = some l →
      ∃ c, thinkCloseAt T = some c ∧ c ≤ l ∧ OccursAt thinkClose T l := by
  simp only [findLastSubstr, if_neg thinkClose_ne_nil]
  refine ⟨lastOcc_eq_none_iff thinkClose_ne_nil, fun l hl => ?_⟩
  obtain ⟨hocc, -⟩ := (lastOcc_eq_some_iff thinkClose_ne_nil).mp hl
  have hbl : thinkBodyStart T ≤ l := by
    unfold thinkBodyStart
    split
    · rename_i hs
      have hopen : OccursAt thinkOpen T 0 := by
        simpa [startsWith, occursAt_zero] using hs
      rcases Nat.eq_zero_or_pos l with rfl | hpos
      · have hap : ¬ thinkOpen <+: thinkClose ∧ ¬ thinkClose <+: thinkOpen := by decide
        exact ((List.prefix_or_prefix_of_prefix hopen hocc).elim hap.1 hap.2).elim
      · simpa using thinkOpen_guarded.disjoint thinkClose_guarded hopen hocc hpos
    · omega
  cases hc : thinkCloseAt T with
  | none => exact absurd hocc (thinkCloseAt_eq_none_iff.mp hc l hbl)
  | some c =>
    refine ⟨c, rfl, ?_, hocc⟩
    rcases Nat.lt_or_ge l c with hlt | hge
    · exact absurd hocc ((thinkCloseAt_eq_some_iff.mp hc).2 l hbl hlt)
    · exact hge

/-- Without closing tags there is no first one either. -/
theorem thinkCloseAt_none_of {T : Bytes} (h : ∀ j, ¬ OccursAt thinkClose T j) :
    thinkCloseAt T = none :=
  thinkCloseAt_eq_none_iff.mpr fun j _ => h j

/-- Where thinking is on and closed the parser searches behind the last closing tag. -/
theorem toolSearchStart_enabled {T : Bytes} {c : Nat} (hc : thinkCloseAt T = some c) :
    ∃ l, toolSearchStart (ThinkMode.enabled == .enabled) T = some (l + 8) ∧ c ≤ l ∧
      OccursAt thinkClose T l := by
  cases hl : findLastSubstr T thinkClose with
  | none =>
    rw [thinkCloseAt_none_of (findLastSubstr_thinkClose.1.mp hl)] at hc
    nomatch hc
  | some l =>
    obtain ⟨c', hc', hcl, hocc⟩ := findLastSubstr_thinkClose.2 l hl
    obtain rfl : c' = c := Option.some.inj (hc'.symm.trans hc)
    exact ⟨l, by simp [toolSearchStart, hl], hcl, hocc⟩

/-- Where it is never closed it does not search. -/
theorem toolSearchStart_open {T : Bytes} (hc : thinkCloseAt T = none) :
    toolSearchStart (ThinkMode.enabled == .enabled) T = none := by
  cases hl : findLastSubstr T thinkClose with
  | none => simp [toolSearchStart, hl]
  | some l =>
    obtain ⟨c, hc', -⟩ := findLastSubstr_thinkClose.2 l hl
    rw [hc] at hc'
    nomatch hc'

/-- The chosen place of a search from `k` on. -/
theorem chosenAt_of_search {T : Bytes} {k d : Nat} {form : BlockForm}
    (h : toolBlockStart (T.drop k) = some (d, form)) :
    form.Known ∧ ∃ o, ChosenAt T (k + d) o := by
  obtain ⟨hknown, o, hdo, hat, hbr⟩ := toolBlockStart_some h
  refine ⟨hknown, k + o, by omega, toolStartAt_drop.mp hat, fun j hj hjo => ?_⟩
  have := hbr (j - k) (by omega) (by omega)
  rwa [List.getElem?_drop, show k + (j - k) = j by omega] at this

/-- Thinking was on and closed: everything turns on where the content ends. -/
theorem streamAgrees_closed {hasTools : Bool} {T : Bytes} {c : Nat} {m : ParsedMessage} {n : Nat}
    (hc : thinkCloseAt T = some c) (hn : c + 8 ≤ n) (hnT : n ≤ T.length)
    (hm : m.reasoning = some (splitReasoningContent (T.take n) .enabled).1 ∧
      m.content = (splitReasoningContent (T.take n) .enabled).2) :
    StreamAgrees .enabled hasTools T m ↔ contentEnd hasTools T (c + 8) = n := by
  obtain ⟨⟨hbc, -, -⟩, -⟩ := thinkCloseAt_eq_some_iff.mp hc
  have h7 : startsWith T thinkOpen = true → 7 ≤ n := fun _ => by omega
  have hsplit : splitReasoningContent (T.take n) .enabled =
      (slice T (thinkBodyStart T) c, slice T (c + 8) n) := by
    rw [splitReasoningContent_eq, thinkCloseAt_take hnT h7, hc, thinkBodyStart_take h7]
    simp only [Option.filter, hn, decide_true, if_true]
    rw [slice_take (by omega), show (T.take n).length = n by simp; omega, slice_take (by omega)]
  have hS : c + 8 ≤ T.length := by omega
  rw [StreamAgrees, hm.1, hm.2, hsplit]
  simp only [streamedReasoning, streamedContent, contentStart, hc, Option.map_some,
    Option.getD_some, length_thinkClose, true_and]
  exact slice_eq_iff (le_contentEnd _ _ _) (contentEnd_le hasTools hS) hn hnT

/-! ## The parse by cases -/

section Parse

variable {T : Bytes} {finish : Finish} {think : ThinkMode}

theorem parse_unclosed (h : toolSearchStart (think == .enabled) T = none) :
    parseGeneratedMessageForResponse T think finish =
      (true, finish, messageWithoutCalls T think) := by
  simp only [parseGeneratedMessageForResponse, parseGeneratedMessageEx, h]

variable {k : Nat} (hk : toolSearchStart (think == .enabled) T = some k)
include hk

theorem parse_noBlock (h : toolBlockStart (T.drop k) = none) :
    parseGeneratedMessageForResponse T think finish =
      (true, finish, messageWithoutCalls T think) := by
  simp only [parseGeneratedMessageForResponse, parseGeneratedMessageEx, hk, h]

variable {d : Nat} {form : BlockForm} (hd : toolBlockStart (T.drop k) = some (d, form))
include hd

theorem parse_block {cs : List ParsedCall} {rest : Bytes}
    (h : ToolBlock form (T.drop (k + d)) cs rest) :
    parseGeneratedMessageForResponse T think finish =
      (true, finish, messageWithCalls T think (k + d) cs rest) := by
  have hread := (readToolBlock_iff (toolBlockStart_some hd).1).mpr h
  simp only [parseGeneratedMessageForResponse, parseGeneratedMessageEx, hk, hd, hread,
    Option.map_some]

theorem parse_malformed (h : ¬ WellFormedBlock form (T.drop (k + d))) :
    parseGeneratedMessageForResponse T think finish =
      (false, if finish = .length then finish else .stop,
        { content := T, reasoning := none }) := by
  have hread : readToolBlock form (T.drop (k + d)) = none := by
    cases hr : readToolBlock form (T.drop (k + d)) with
    | none => rfl
    | some r =>
      exact absurd ⟨r.1, r.2, (readToolBlock_iff (toolBlockStart_some hd).1).mp hr⟩ h
  simp only [parseGeneratedMessageForResponse, parseGeneratedMessageEx, hk, hd, hread,
    Option.map_none]

end Parse

/-! ## The two splits -/

/-- Thinking on. -/
theorem streamMatchesParse_enabled (hasTools : Bool) (T : Bytes) (finish : Finish) :
    StreamAgrees .enabled hasTools T (parseGeneratedMessageForResponse T .enabled finish).2.2 ↔
      StreamMatchesParse .enabled hasTools T := by
  unfold StreamMatchesParse
  cases hc : thinkCloseAt T with
  | none =>
    rw [parse_unclosed (toolSearchStart_open hc), toolSearchStart_open hc]
    simp [StreamAgrees, messageWithoutCalls, splitReasoningContent_eq, hc, streamedReasoning,
      streamedContent, contentStart]
  | some c =>
    obtain ⟨l, hsearch, hcl, hoccl⟩ := toolSearchStart_enabled hc
    obtain ⟨⟨-, hcT, hocc⟩, -⟩ := thinkCloseAt_eq_some_iff.mp hc
    have hS : (contentStart .enabled T).getD 0 = c + 8 := by simp [contentStart, hc]
    rw [hsearch]
    dsimp only
    rw [hS]
    cases hb : toolBlockStart (T.drop (l + 8)) with
    | none =>
      rw [parse_noBlock hsearch hb, streamAgrees_closed hc hcT (Nat.le_refl _)
        ⟨by simp [messageWithoutCalls], by simp [messageWithoutCalls]⟩,
        contentEnd_eq_length_iff]
      simp
    | some r =>
      obtain ⟨d, form⟩ := r
      obtain ⟨-, o, hch⟩ := chosenAt_of_search hb
      have hdo := hch.le
      have hoT := hch.opener.add_le
      by_cases hwf : WellFormedBlock form (T.drop (l + 8 + d))
      · obtain ⟨cs, rest, hblock⟩ := id hwf
        have hle : trimToolSeparatorWs T 0 (l + 8 + d) ≤ l + 8 + d := retreat_le _ _ _ _
        have hcn : c + 8 ≤ trimToolSeparatorWs T 0 (l + 8 + d) := by
          simpa using tag_le_trim _ 0 (d := l + 8 + d) (by simp) hocc (by simp; omega)
        have htrim : trimToolSeparatorWs T (c + 8) (l + 8 + d) =
            trimToolSeparatorWs T 0 (l + 8 + d) := by
          rw [trimToolSeparatorWs, retreat_floor (Nat.zero_le _) (by omega),
            ← trimToolSeparatorWs, Nat.max_eq_right hcn]
        rw [parse_block hsearch hb hblock, streamAgrees_closed hc hcn (by omega) ⟨rfl, rfl⟩,
          ← htrim, contentEnd_eq_trim_iff _ hch (by omega)]
        simp [hwf]
      · -- the whole text is content for the parser, and the stream began behind the tag
        rw [parse_malformed hsearch hb hwf]
        have hend := contentEnd_le hasTools (T := T) (S := c + 8) hcT
        simp only [hwf, false_and, false_or, not_false_eq_true, reduceCtorEq, and_false,
          iff_false]
        intro hag
        have hlen := congrArg List.length hag.2
        simp only [streamedContent, contentStart, hc, Option.map_some, length_thinkClose] at hlen
        rw [length_slice hend] at hlen
        omega

/-! ## Thinking off -/

section ThinkingOff

variable {hasTools : Bool} {T : Bytes}

/-- The whole text is streamed as content, as far as `contentEnd`. -/
theorem streamAgrees_none_iff (m : ParsedMessage) : StreamAgrees .none hasTools T m ↔
    m.reasoning.getD [] = [] ∧ slice T 0 (contentEnd hasTools T 0) = m.content := by
  simp only [StreamAgrees, streamedReasoning, streamedContent, contentStart]
  rw [eq_comm (a := [])]

theorem occursAt_thinkOpen_zero (h : startsWith T thinkOpen = true) : OccursAt thinkOpen T 0 := by
  simpa [startsWith, occursAt_zero] using h

/-- Every opener stands behind the start of the reasoning. -/
theorem thinkBodyStart_le_opener {i : Nat} (hi : ToolStartAt T i) : thinkBodyStart T ≤ i := by
  unfold thinkBodyStart
  split
  · rename_i hs
    simpa using tag_before_opener thinkOpen (by simp) (occursAt_thinkOpen_zero hs) hi
      (Nat.zero_le _)
  · omega

/-- An opening tag before the chosen block ends before its cut. -/
theorem ChosenAt.open_le {d o : Nat} (hch : ChosenAt T d o) (hs : startsWith T thinkOpen = true) :
    7 ≤ trimToolSeparatorWs T 0 d := by
  have hopen := occursAt_thinkOpen_zero hs
  have h1 := tag_before_opener thinkOpen (by simp) hopen hch.opener (Nat.zero_le _)
  have h2 := hch.tag_le thinkOpen (by simp) hopen h1
  simpa using tag_le_trim thinkOpen 0 (by simp) hopen h2

/-- So does a closing tag. -/
theorem ChosenAt.close_le {d o j : Nat} (hch : ChosenAt T d o) (hj : OccursAt thinkClose T j)
    (hjd : j < d) : j + 8 ≤ trimToolSeparatorWs T 0 d := by
  have hdo := hch.le
  have h1 := tag_before_opener thinkClose (by simp) hj hch.opener (by omega)
  have h2 := hch.tag_le thinkClose (by simp) hj h1
  simpa using tag_le_trim thinkClose 0 (by simp) hj h2

/-- Without a block the parser drops the reasoning tags, and the stream shows them. -/
theorem streamAgrees_noBlock (hno : ∀ i, ¬ ToolStartAt T i) :
    StreamAgrees .none hasTools T (messageWithoutCalls T .none) ↔
      (startsWith T thinkOpen = false ∧ ∀ j, ¬ OccursAt thinkClose T j) ∧
        utf8StreamSafeLen T 0 T.length = T.length := by
  have hend := contentEnd_le hasTools (Nat.zero_le T.length)
  have hendeq : contentEnd hasTools T 0 = utf8StreamSafeLen T 0 T.length := by
    have hnone : findAnyToolStart (T.drop 0) = none :=
      findAnyToolStart_eq_none_iff.mpr fun i => by simpa using hno i
    simp only [contentEnd, hnone, ite_self]
  have hhold := le_utf8StreamSafeLen_add_three T 0 T.length
  rw [streamAgrees_none_iff]
  simp only [messageWithoutCalls, splitReasoningContent_eq, Option.getD_some]
  cases hc : thinkCloseAt T with
  | some c =>
    obtain ⟨⟨-, hcT, hocc⟩, -⟩ := thinkCloseAt_eq_some_iff.mp hc
    refine ⟨fun h => ?_, fun h => absurd hocc (h.1.2 c)⟩
    have hlen := congrArg List.length h.2
    rw [length_slice hend, length_slice (Nat.le_refl _)] at hlen
    omega
  | none =>
    by_cases hs : startsWith T thinkOpen = true
    · have h7 := (occursAt_thinkOpen_zero hs).add_length_le thinkOpen_ne_nil
      rw [length_thinkOpen] at h7
      refine ⟨fun h => ?_, fun h => by simp [hs] at h⟩
      have hlen := congrArg List.length h.2
      simp only [reduceCtorEq, if_false, thinkBodyStart, hs, if_true, length_thinkOpen] at hlen
      rw [length_slice hend, length_slice (Nat.le_refl _)] at hlen
      omega
    · have hb0 : thinkBodyStart T = 0 := by simp [thinkBodyStart, hs]
      have hnoc : ∀ j, ¬ OccursAt thinkClose T j := fun j =>
        thinkCloseAt_eq_none_iff.mp hc j (by omega)
      simp only [reduceCtorEq, if_false, hb0, true_and, hs, hnoc, not_false_eq_true,
        implies_true, and_self]
      rw [slice_eq_iff (Nat.zero_le _) hend (Nat.zero_le _) (Nat.le_refl _), hendeq]

/-- Before a block and without reasoning tags the parser hands out the text before the block. -/
theorem streamAgrees_untagged {d o : Nat} {cs : List ParsedCall} {rest : Bytes}
    (hch : ChosenAt T d o) (hs : startsWith T thinkOpen = false)
    (hclose : ∀ j, OccursAt thinkClose T j → d ≤ j) :
    StreamAgrees .none hasTools T (messageWithCalls T .none d cs rest) ↔
      contentEnd hasTools T 0 = trimToolSeparatorWs T 0 d := by
  have hend := contentEnd_le hasTools (Nat.zero_le T.length)
  have hdo := hch.le
  have hoT := hch.opener.add_le
  obtain ⟨n, hn⟩ : ∃ n, n = trimToolSeparatorWs T 0 d := ⟨_, rfl⟩
  have hnd : n ≤ d := hn ▸ retreat_le _ _ _ _
  have hopen7 : startsWith T thinkOpen = true → 7 ≤ n := fun h => hn ▸ hch.open_le h
  have hb0 : thinkBodyStart T = 0 := by simp [thinkBodyStart, hs]
  have hfilter : (thinkCloseAt T).filter (fun c => decide (c + 8 ≤ n)) = none := by
    rw [Option.filter_eq_none_iff]
    intro c hc
    obtain ⟨⟨-, -, hocc⟩, -⟩ := thinkCloseAt_eq_some_iff.mp hc
    have := hclose c hocc
    simp; omega
  rw [streamAgrees_none_iff]
  simp only [messageWithCalls, ← hn, Option.getD_some]
  rw [splitReasoningContent_eq, thinkCloseAt_take (by omega) hopen7, thinkBodyStart_take hopen7,
    show (T.take n).length = n by simp; omega]
  simp only [hfilter, reduceCtorEq, if_false, hb0, true_and]
  rw [slice_take (Nat.le_refl _), slice_eq_iff (Nat.zero_le _) hend (Nat.zero_le _) (by omega)]

/-- It cuts reasoning tags off, and the stream shows them. -/
theorem not_streamAgrees_tagged {d o : Nat} {cs : List ParsedCall} {rest : Bytes}
    (hch : ChosenAt T d o)
    (htags : ¬ (startsWith T thinkOpen = false ∧ ∀ j, OccursAt thinkClose T j → d ≤ j)) :
    ¬ StreamAgrees .none hasTools T (messageWithCalls T .none d cs rest) := by
  have hdo := hch.le
  have hoT := hch.opener.add_le
  obtain ⟨n, hn⟩ : ∃ n, n = trimToolSeparatorWs T 0 d := ⟨_, rfl⟩
  have hnd : n ≤ d := hn ▸ retreat_le _ _ _ _
  have hopen7 : startsWith T thinkOpen = true → 7 ≤ n := fun h => hn ▸ hch.open_le h
  rw [streamAgrees_none_iff]
  simp only [messageWithCalls, ← hn, Option.getD_some]
  rw [splitReasoningContent_eq, thinkCloseAt_take (by omega) hopen7, thinkBodyStart_take hopen7,
    show (T.take n).length = n by simp; omega]
  rintro ⟨hr, hcnt⟩
  cases hf : (thinkCloseAt T).filter (fun c => decide (c + 8 ≤ n)) with
  | some c =>
    simp only [hf] at hr hcnt
    obtain ⟨hc, hcn⟩ := Option.filter_eq_some_iff.mp hf
    simp only [decide_eq_true_eq] at hcn
    obtain ⟨⟨hbc, -, hocc⟩, -⟩ := thinkCloseAt_eq_some_iff.mp hc
    rw [slice_take (by omega)] at hr
    have hlen := congrArg List.length hr
    rw [length_slice (by omega), List.length_nil] at hlen
    rw [slice_take (Nat.le_refl _), hn] at hcnt
    refine streamed_ne_cut hch (by omega) (hn ▸ hcn) (fun i hi => ?_) hcnt
    have hbi := thinkBodyStart_le_opener hi
    simpa using tag_before_opener thinkClose (by simp) hocc hi (by omega)
  | none =>
    simp only [hf, reduceCtorEq, if_false] at hcnt
    by_cases hs : startsWith T thinkOpen = true
    · have hb7 : thinkBodyStart T = 7 := by simp [thinkBodyStart, hs]
      rw [hb7, slice_take (Nat.le_refl _), hn] at hcnt
      exact streamed_ne_cut hch (Nat.le_refl _) (hn ▸ hopen7 hs)
        (fun i hi => hb7 ▸ thinkBodyStart_le_opener hi) hcnt
    · -- a closing tag before the block is the first one or behind it, so it is not cut off
      refine htags ⟨by simpa using hs, fun j hj => ?_⟩
      by_contra hlt
      have hb0 : thinkBodyStart T = 0 := by simp [thinkBodyStart, hs]
      have hj8 := hch.close_le hj (Nat.not_le.mp hlt)
      cases hc : thinkCloseAt T with
      | none => exact absurd hj (thinkCloseAt_eq_none_iff.mp hc j (by omega))
      | some c =>
        have hcj : c ≤ j := Nat.not_lt.mp fun h =>
          absurd hj ((thinkCloseAt_eq_some_iff.mp hc).2 j (by omega) h)
        rw [hc, Option.filter_eq_none_iff] at hf
        have := hf c rfl
        simp at this
        omega

/-- A malformed block is content for the parser, with all that is around it. -/
theorem streamAgrees_malformed {d o : Nat} (hch : ChosenAt T d o) :
    StreamAgrees .none hasTools T { content := T, reasoning := none } ↔
      hasTools = false ∧ utf8StreamSafeLen T 0 T.length = T.length := by
  have hend := contentEnd_le hasTools (Nat.zero_le T.length)
  rw [streamAgrees_none_iff]
  simp only [Option.getD_none, true_and]
  rw [show slice T 0 (contentEnd hasTools T 0) = T ↔
    slice T 0 (contentEnd hasTools T 0) = slice T 0 T.length by simp [slice_length],
    slice_eq_iff (Nat.zero_le _) hend (Nat.zero_le _) (Nat.le_refl _), contentEnd_eq_length_iff]
  cases hasTools with
  | false => simp
  | true => simpa using fun h => absurd hch.opener (h o)

theorem streamMatchesParse_none (hasTools : Bool) (T : Bytes) (finish : Finish) :
    StreamAgrees .none hasTools T (parseGeneratedMessageForResponse T .none finish).2.2 ↔
      StreamMatchesParse .none hasTools T := by
  have hsearch : toolSearchStart (ThinkMode.none == .enabled) T = some 0 := rfl
  unfold StreamMatchesParse
  rw [hsearch]
  dsimp only
  cases hb : toolBlockStart (T.drop 0) with
  | none =>
    have hno : ∀ i, ¬ ToolStartAt T i := by simpa using toolBlockStart_none.mp hb
    rw [parse_noBlock hsearch hb, streamAgrees_noBlock hno]
    simp [contentStart, hno]
  | some r =>
    obtain ⟨d, form⟩ := r
    obtain ⟨-, o, hch⟩ := chosenAt_of_search hb
    simp only [Nat.zero_add] at hch ⊢
    by_cases hwf : WellFormedBlock form (T.drop d)
    · obtain ⟨cs, rest, hblock⟩ := id hwf
      rw [parse_block hsearch hb (by simpa using hblock), Nat.zero_add]
      simp only [contentStart, Option.getD_some, hwf, true_and, not_true_eq_false, false_and,
        or_false]
      by_cases htags : startsWith T thinkOpen = false ∧ ∀ j, OccursAt thinkClose T j → d ≤ j
      · rw [streamAgrees_untagged hch htags.1 htags.2,
          contentEnd_eq_trim_iff hasTools hch (Nat.zero_le d)]
        exact ⟨fun h => ⟨h.1, fun _ => htags, h.2⟩, fun h => ⟨h.1, h.2.2⟩⟩
      · exact iff_of_false (not_streamAgrees_tagged hch htags) fun h => htags (h.2.1 trivial)
    · rw [parse_malformed hsearch hb (by simpa using hwf), streamAgrees_malformed hch]
      simp only [hwf, false_and, false_or, not_false_eq_true, true_and]

end ThinkingOff

/-- The streamed and the parsed split of a text agree exactly when
`StreamMatchesParse` holds. -/
theorem streamMatchesParse_iff (think : ThinkMode) (hasTools : Bool) (T : Bytes) (finish : Finish) :
    StreamAgrees think hasTools T (parseGeneratedMessageForResponse T think finish).2.2 ↔
      StreamMatchesParse think hasTools T := by
  cases think with
  | none => exact streamMatchesParse_none hasTools T finish
  | enabled => exact streamMatchesParse_enabled hasTools T finish

/-- A run of `reasoning_stream_update` over any growing prefixes of the text sends
what the final parse of the text returns exactly when `StreamMatchesParse`
holds. -/
theorem chatStream_eq_parse_iff (think : ThinkMode) (hasTools : Bool) (T : Bytes)
    (finish : Finish) (cuts : List Nat) (hcuts : ∀ q ∈ cuts, q ≤ T.length)
    (hpw : cuts.Pairwise (· ≤ ·)) :
    let run := feed (reasoningStreamUpdate allSends hasTools) T cuts
      (reasoningStreamInit think) {}
    let m := (parseGeneratedMessageForResponse T think finish).2.2
    (run.1 = true ∧ chatReasoning run.2.2 = m.reasoning.getD [] ∧
      chatContent run.2.2 = m.content) ↔ StreamMatchesParse think hasTools T := by
  intro run m
  obtain ⟨st, w, hrun, hw⟩ := feed_eq chatSink hasTools think {} hcuts hpw
    ⟨fun _ => trivial, rfl, rfl⟩
  have hr : run = (true, st, w) := hrun
  have hR : chatReasoning w = streamedReasoning think T := hw.reasoning
  have hC : chatContent w = streamedContent think hasTools T := hw.content
  rw [hr, ← streamMatchesParse_iff think hasTools T finish]
  simp only [hR, hC, true_and]
  rfl

/-- A text with a cut character at its end, in two chunks. -/
theorem chatStream_eq_parse_iff_cut :
    let run := feed (reasoningStreamUpdate allSends true) [0x61, 0xe4] [1]
      (reasoningStreamInit .none) {}
    let m := (parseGeneratedMessageForResponse [0x61, 0xe4] .none .stop).2.2
    (run.1 = true ∧ chatReasoning run.2.2 = m.reasoning.getD [] ∧
      chatContent run.2.2 = m.content) ↔ StreamMatchesParse .none true [0x61, 0xe4] :=
  chatStream_eq_parse_iff .none true [0x61, 0xe4] .stop [1] (by decide) (by decide)

/-- Tools were not offered, and the text has a well-formed block: the stream shows
the block as content, the parser takes it out. -/
theorem chatStream_ne_parse :
    let T := bytes "a<tool_call><function=f></function></tool_call>"
    let run := feed (reasoningStreamUpdate allSends false) T [] (reasoningStreamInit .none) {}
    let parsed := parseGeneratedMessageForResponse T .none .stop
    parsed.1 = true ∧ parsed.2.2.content = bytes "a" ∧ run.1 = true ∧
      chatContent run.2.2 = T ∧ chatContent run.2.2 ≠ parsed.2.2.content := by
  decide

end Sf37.Server

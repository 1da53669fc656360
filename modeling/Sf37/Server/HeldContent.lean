/-
Sf37.Server.HeldContent — how far the content of a text is handed out, NUL bytes included.

The search for an opener sees a buffer up to the next NUL byte, while the limit goes by pointer
and length. What is handed out of a text is a matter of positions: no call stops within an opener
(`HeldAt`), and the content ends at one of the places that the text alone gives (`EndsAt`).

* `bufferSafeLimit_held`: a call that sees no opener and is not the last.
* `bufferSafeLimit_opener`, `bufferSafeLimit_final`: the calls that end the content.
* `EndsAt.seen`, `EndsAt.hidden`: where the content ends when the search sees all of it or an
  opener in it, and when it does not.
-/
import Sf37.Server.HandedOut
import Sf37.Server.LiveSplitTheorems

namespace Sf37.Server

open Sf37.Text

/-! ## What a search sees -/

/-- Openers are long, and have no NUL byte and no white space. -/
theorem toolStarts_solid : ∀ m ∈ toolStarts,
    11 ≤ m.length ∧ ∀ c ∈ m, c ≠ 0 ∧ isspace c = false ∧ isToolSeparatorWs c = false := by
  decide +kernel

theorem toolStarts_ne_nil {m : Bytes} (hm : m ∈ toolStarts) : m ≠ [] :=
  (toolStarts_guarded m hm).1.ne_nil

/-- The search sees the openers before the first NUL byte. -/
theorem toolStartAt_cstr {U : Bytes} {i : Nat} :
    ToolStartAt (cstr U) i ↔ ToolStartAt U i ∧ NulFree (U.take i) := by
  constructor
  · intro h
    have hlt := h.bounds.1
    rw [cstr_eq_take] at h
    refine ⟨h.of_take, fun hzero => nulFree_cstr U ?_⟩
    rw [cstr_eq_take]
    exact List.take_subset_take_left U (by omega) hzero
  · rintro ⟨⟨m, hm, hocc⟩, hfree⟩
    have hle : i ≤ (cstr U).length := by
      by_contra hlt
      rw [Nat.not_le] at hlt
      have hU := hocc.add_length_le (toolStarts_ne_nil hm)
      have hnul : ¬ NulFree U := fun hU' => by rw [cstr_iff.mpr hU'] at hlt; omega
      refine hfree (List.mem_iff_getElem?.mpr ⟨(cstr U).length, ?_⟩)
      rw [List.getElem?_take, if_pos hlt, getElem?_length_cstr hnul]
    have hnul : NulFree m := fun hzero => ((toolStarts_solid m hm).2 0 hzero).1 rfl
    have hadd := hocc.add_le_cstr hnul hle
    refine ⟨m, hm, ?_⟩
    rw [cstr_eq_take]
    exact (occursAt_take (toolStarts_ne_nil hm)).mpr ⟨hocc, hadd⟩

/-- An opener that a search from `e` on sees in the first `q` bytes. -/
def SeenOpener (T : Bytes) (q e i : Nat) : Prop :=
  e ≤ i ∧ ToolStartAt (T.take q) i ∧ NulFree (slice T e i)

theorem toolStartFrom_isFirst (T : Bytes) (q e : Nat) :
    IsFirst (fun t => SeenOpener T q e (e + t)) (toolStartFrom (T.take q) e) := by
  refine (findAnyToolStart_isFirst _).congr fun t => ?_
  rw [toolStartAt_cstr, toolStartAt_drop]
  refine ⟨fun ⟨hat, hfree⟩ => ⟨Nat.le_add_right e t, hat, ?_⟩, fun ⟨_, hat, hfree⟩ => ⟨hat, ?_⟩⟩
  all_goals
    have hin := hat.bounds.1
    rw [List.length_take] at hin
    have hslice : ((T.take q).drop e).take t = slice T e (e + t) := by
      rw [← slice_take (p := q) (by omega), slice, Nat.add_sub_cancel_left]
  · rwa [← hslice]
  · rwa [hslice]

theorem toolStartFrom_eq_none_iff {T : Bytes} {q e : Nat} :
    toolStartFrom (T.take q) e = none ↔ ∀ i, ¬ SeenOpener T q e i := by
  have hfirst := toolStartFrom_isFirst T q e
  constructor
  · intro h i hi
    rw [h] at hfirst
    have hnot : ¬ SeenOpener T q e (e + (i - e)) := hfirst (i - e)
    rw [Nat.add_sub_cancel' hi.1] at hnot
    exact hnot hi
  · intro h
    have hnone : IsFirst (fun t => SeenOpener T q e (e + t)) none := fun t => h (e + t)
    exact hfirst.unique hnone

theorem toolStartFrom_eq_some_iff {T : Bytes} {q e t : Nat} :
    toolStartFrom (T.take q) e = some t ↔
      SeenOpener T q e (e + t) ∧ ∀ i, SeenOpener T q e i → e + t ≤ i := by
  have hfirst := toolStartFrom_isFirst T q e
  constructor
  · intro h
    rw [h] at hfirst
    refine ⟨hfirst.1, fun i hi => ?_⟩
    by_contra hlt
    have hnot : ¬ SeenOpener T q e (e + (i - e)) :=
      hfirst.2 (i - e) (by have := hi.1; omega)
    rw [Nat.add_sub_cancel' hi.1] at hnot
    exact hnot hi
  · rintro ⟨hat, hmin⟩
    have hsome : IsFirst (fun t => SeenOpener T q e (e + t)) (some t) :=
      ⟨hat, fun j hj hbad => by have := hmin _ hbad; omega⟩
    exact hfirst.unique hsome

/-! ## Where a call stops -/

/-- The hold-back of a buffer does not fall into an opener that stands in it. -/
theorem holdLimit_apart {T m : Bytes} {q e i L : Nat} (hm : m ∈ toolStarts)
    (hocc : OccursAt m T i) (hin : i + m.length ≤ q)
    (hL : L = trimToolSeparatorWs (T.take q) e
      (markerLookBack (T.take q) e q (retreat isspace (T.take q) e q))) :
    L ≤ i ∨ i + m.length ≤ L := by
  by_contra hbad
  obtain ⟨hiL, hLm⟩ : i < L ∧ L < i + m.length := by omega
  -- the byte at `L` is one of the opener's, and not its first
  obtain ⟨c, hc⟩ : ∃ c, m[L - i]? = some c := ⟨_, List.getElem?_eq_getElem (by omega)⟩
  have hget : (T.take q)[L]? = some c := by
    rw [List.getElem?_take, if_pos (by omega), ← hc,
      ← occursAt_iff_getElem?.mp hocc (L - i) (by omega), show i + (L - i) = L by omega]
  obtain ⟨-, hspace, hsep⟩ := (toolStarts_solid m hm).2 c (List.mem_of_getElem? hc)
  obtain ⟨M, hM⟩ : ∃ M, M = markerLookBack (T.take q) e q (retreat isspace (T.take q) e q) :=
    ⟨_, rfl⟩
  rw [← hM] at hL
  have hLM : L = M := by
    by_contra hne
    have hle : L ≤ M := hL ▸ retreat_le _ _ _ _
    have hskip := retreat_skipped (p := isToolSeparatorWs) (s := T.take q) (l := e) (e := M)
      (k := L) (Nat.le_of_eq hL.symm) (by omega)
    rw [hget, Option.any_some, hsep] at hskip
    nomatch hskip
  unfold markerLookBack at hM
  dsimp only at hM
  have hW : retreat isspace (T.take q) e q ≠ L := by
    intro hW
    have hskip := retreat_skipped (Nat.le_of_eq hW) (show L < q by omega)
    rw [hget, Option.any_some, hspace] at hskip
    nomatch hskip
  split at hM
  · rename_i k hlast
    obtain ⟨-, -, hk, -⟩ := lastBefore_eq_some hlast
    split at hM
    · refine (toolStarts_guarded m hm).1.getElem?_inside hocc hiL hLm ?_
      rw [hLM, hM, ← any_beq_iff]
      rwa [List.getElem?_take, if_pos (by omega)] at hk
    · exact hW (hM ▸ hLM.symm)
  · exact hW (hM ▸ hLM.symm)

/-- A limit that no opener is cut by, nor the separator white space before one. -/
structure HeldLimit (T : Bytes) (S L : Nat) : Prop where
  space : L = S ∨ T[L - 1]?.any isToolSeparatorWs = false
  apart : ∀ m ∈ toolStarts, ∀ i, S ≤ i → OccursAt m T i → L ≤ i ∨ i + m.length ≤ L
  seen : ∀ i, SeenOpener T T.length S i → L ≤ i

/-- Content was handed out up to `e`, the hold-back of a limit within the first `p` bytes. -/
def HeldAt (hasTools : Bool) (T : Bytes) (S p e : Nat) : Prop :=
  ∃ L, S ≤ L ∧ L ≤ p ∧ e = utf8StreamSafeLen T S L ∧ (hasTools = true → HeldLimit T S L)

theorem HeldAt.bounds {hasTools : Bool} {T : Bytes} {S p e : Nat} (h : HeldAt hasTools T S p e) :
    S ≤ e ∧ e ≤ p := by
  obtain ⟨L, hSL, hLp, rfl, -⟩ := h
  exact ⟨le_utf8StreamSafeLen _ _ _, Nat.le_trans (utf8StreamSafeLen_le hSL) hLp⟩

/-- Nothing was handed out yet. -/
theorem HeldAt.start (hasTools : Bool) (T : Bytes) {S p : Nat} (h : S ≤ p) :
    HeldAt hasTools T S p S :=
  ⟨S, Nat.le_refl _, h, (utf8StreamSafeLen_of_le (Nat.le_refl _)).symm,
    fun _ => ⟨.inl rfl, fun _ _ _ hi _ => .inl hi, fun _ hi => hi.1⟩⟩

/-- Going on from a hold-back. -/
theorem max_utf8StreamSafeLen (T : Bytes) (S L L' : Nat) :
    max (utf8StreamSafeLen T S L) (utf8StreamSafeLen T (utf8StreamSafeLen T S L) L') =
      utf8StreamSafeLen T S (max L L') := by
  rw [Nat.max_eq_right (le_utf8StreamSafeLen _ _ _), utf8StreamSafeLen_compose]

/-- Part of a slice without NUL bytes has none. -/
theorem nulFree_slice {T : Bytes} {a b c d : Nat} (h : NulFree (slice T a d)) (hab : a ≤ b)
    (hcd : c ≤ d) : NulFree (slice T b c) := by
  rcases Nat.le_total b c with hbc | hcb
  · rw [← slice_append_slice hab (Nat.le_trans hbc hcd), ← slice_append_slice hbc hcd] at h
    exact (nulFree_append.mp (nulFree_append.mp h).2).1
  · rw [slice_of_le hcb]
    exact List.not_mem_nil

/-- The limit of a call that sees no opener, where it is further than the one before. -/
theorem HeldLimit.advance {T : Bytes} {S L L' e q : Nat} (h : HeldLimit T S L) (hSe : S ≤ e)
    (heL : e ≤ L) (heq : e ≤ q) (hnone : toolStartFrom (T.take q) e = none)
    (hL' : L' = trimToolSeparatorWs (T.take q) e
      (markerLookBack (T.take q) e q (retreat isspace (T.take q) e q)))
    (hlt : L < L') : HeldLimit T S L' := by
  have hW : e ≤ retreat isspace (T.take q) e q := le_retreat heq
  have hM := @markerLookBack_bounds (T.take q) _ q _ hW
  have hMq := Nat.le_trans hM.2 (retreat_le isspace (T.take q) e q)
  have hL'M : L' ≤ markerLookBack (T.take q) e q (retreat isspace (T.take q) e q) := by
    rw [hL']
    exact retreat_le _ _ _ _
  have hcut : ∀ m ∈ toolStarts, ∀ i, e ≤ i → OccursAt m T i → q < i + m.length → L' ≤ i :=
    fun m hm i hei hocc hqi => Nat.le_trans hL'M
      (markerLookBack_le_cut (Nat.le_refl q) (retreat_le _ _ _ _) hei hm hocc hqi)
  refine ⟨.inr ?_, fun m hm i hSi hocc => ?_, fun i hi => ?_⟩
  · rcases retreat_stop (p := isToolSeparatorWs) (s := T.take q) hM.1 with hstop | ⟨-, hstop⟩
    · rw [trimToolSeparatorWs, hstop] at hL'
      omega
    · rw [← trimToolSeparatorWs, ← hL', List.getElem?_take, if_pos (by omega)] at hstop
      exact hstop
  · rcases Nat.lt_or_ge i e with hie | hei
    · rcases h.apart m hm i hSi hocc with hle | hge <;> omega
    · rcases Nat.lt_or_ge q (i + m.length) with hqi | hin
      · exact .inl (hcut m hm i hei hocc hqi)
      · exact holdLimit_apart hm hocc hin hL'
  · have hLi := h.seen i hi
    obtain ⟨hSi, ⟨m, hm, hocc⟩, hfree⟩ := hi
    rw [List.take_length] at hocc
    refine hcut m hm i (by omega) hocc ?_
    by_contra hin
    refine toolStartFrom_eq_none_iff.mp hnone i ⟨by omega, ⟨m, hm, ?_⟩, nulFree_slice hfree hSe (Nat.le_refl i)⟩
    exact (occursAt_take (toolStarts_ne_nil hm)).mpr ⟨hocc, by omega⟩

/-- A call that sees no opener and is not the last. -/
theorem bufferSafeLimit_held {hasTools : Bool} {T : Bytes} {S p q e : Nat}
    (h : HeldAt hasTools T S p e) (hpq : p ≤ q)
    (hnone : hasTools = true → toolStartFrom (T.take q) e = none) :
    HeldAt hasTools T S q (max e (bufferSafeLimit (T.take q) e q hasTools false)) := by
  have hb := h.bounds
  obtain ⟨L, hSL, hLp, rfl, hold⟩ := h
  have heL : utf8StreamSafeLen T S L ≤ L := utf8StreamSafeLen_le hSL
  unfold bufferSafeLimit
  split
  · rename_i hqe
    rw [Nat.max_eq_left hqe]
    exact ⟨L, hSL, Nat.le_trans hLp hpq, rfl, hold⟩
  rename_i hlt
  cases hasTools with
  | false =>
    rw [if_neg Bool.false_ne_true, utf8StreamSafeLen_take (Nat.le_refl q), max_utf8StreamSafeLen]
    exact ⟨max L q, by omega, by omega, rfl, nofun⟩
  | true =>
    rw [if_pos rfl, hnone rfl]
    simp only [Bool.false_eq_true, if_false]
    obtain ⟨L', hL'⟩ : ∃ L', L' = trimToolSeparatorWs (T.take q) (utf8StreamSafeLen T S L)
      (markerLookBack (T.take q) (utf8StreamSafeLen T S L) q
        (retreat isspace (T.take q) (utf8StreamSafeLen T S L) q)) := ⟨_, rfl⟩
    have hL'q : L' ≤ q := by
      have hW : utf8StreamSafeLen T S L ≤ retreat isspace (T.take q) (utf8StreamSafeLen T S L) q :=
        le_retreat (by omega)
      have hM := @markerLookBack_bounds (T.take q) _ q _ hW
      have hWq := retreat_le isspace (T.take q) (utf8StreamSafeLen T S L) q
      exact hL' ▸ Nat.le_trans (retreat_le _ _ _ _) (Nat.le_trans hM.2 hWq)
    rw [← hL', utf8StreamSafeLen_take hL'q, max_utf8StreamSafeLen]
    refine ⟨max L L', by omega, by omega, rfl, fun _ => ?_⟩
    rcases Nat.lt_or_ge L L' with hlt' | hge
    · rw [Nat.max_eq_right (by omega)]
      exact (hold rfl).advance hb.1 heL (by omega) (hnone rfl) hL' hlt'
    · rw [Nat.max_eq_left hge]
      exact hold rfl

/-! ## Where the content ends -/

/-- A run can show the search the opener at `i`: no NUL byte stands between what is handed out
before it and the opener. -/
def ShownOpener (T : Bytes) (S i : Nat) : Prop :=
  S ≤ i ∧ ToolStartAt T i ∧
    NulFree (slice T (utf8StreamSafeLen T S (trimToolSeparatorWs T S i)) i)

/-- Where the content from `S` on may end, and whether an opener ends it: at the end of the text,
or before the white space of an opener. The first opener before a NUL byte is never missed. -/
inductive EndsAt (hasTools : Bool) (T : Bytes) (S : Nat) : Nat → Bool → Prop where
  | text (h : hasTools = true → toolStartFrom T S = none) :
      EndsAt hasTools T S (utf8StreamSafeLen T S T.length) false
  | opener {i : Nat} (ht : hasTools = true) (h : ShownOpener T S i)
      (hfirst : ∀ t, toolStartFrom T S = some t → i = S + t) :
      EndsAt hasTools T S (utf8StreamSafeLen T S (trimToolSeparatorWs T S i)) true

/-- A call that sees an opener. -/
theorem bufferSafeLimit_opener {T : Bytes} {S p q e t : Nat} (final : Bool)
    (h : HeldAt true T S p e) (hq : q ≤ T.length)
    (ht : toolStartFrom (T.take q) e = some t) :
    EndsAt true T S (max e (bufferSafeLimit (T.take q) e q true final)) true := by
  obtain ⟨⟨-, hat, hfree⟩, hmin⟩ := toolStartFrom_eq_some_iff.mp ht
  obtain ⟨hSe, hep⟩ := h.bounds
  obtain ⟨L, hSL, hLp, he, hold⟩ := h
  have hold := hold rfl
  have heL : e ≤ L := he ▸ utf8StreamSafeLen_le hSL
  have hLe : L ≤ e + 3 := he ▸ le_utf8StreamSafeLen_add_three T S L
  have hin := hat.bounds.1
  rw [List.length_take] at hin
  -- the limit is before the opener, and so before the white space of it
  have hLi : L ≤ e + t := by
    obtain ⟨m, hm, hocc⟩ := hat.of_take
    have hlen := (toolStarts_solid m hm).1
    rcases hold.apart m hm (e + t) (by omega) hocc with hle | hge <;> omega
  have htrim : L ≤ trimToolSeparatorWs T S (e + t) := by
    rcases hold.space with rfl | hspace
    · exact le_retreat (by omega)
    · rcases Nat.eq_or_lt_of_le hSL with rfl | hlt
      · exact le_retreat (by omega)
      · have := lt_retreat_of_not (p := isToolSeparatorWs) S (show L - 1 < e + t by omega) hspace
        rw [trimToolSeparatorWs]
        omega
  obtain ⟨n, hn⟩ : ∃ n, n = trimToolSeparatorWs T S (e + t) := ⟨_, rfl⟩
  have hni : n ≤ e + t := hn ▸ retreat_le _ _ _ _
  rw [← hn] at htrim
  have hlimit : max e (bufferSafeLimit (T.take q) e q true final) = utf8StreamSafeLen T S n := by
    have hsame : trimToolSeparatorWs (T.take q) e (e + t) = n := by
      have hcongr : trimToolSeparatorWs (T.take q) e (e + t) = trimToolSeparatorWs T e (e + t) :=
        retreat_congr fun k hk => by rw [List.getElem?_take, if_pos (by omega)]
      rw [hcongr, trimToolSeparatorWs, retreat_floor hSe (by omega), ← trimToolSeparatorWs, ← hn]
      exact Nat.max_eq_right (by omega)
    unfold bufferSafeLimit
    rw [if_neg (by omega), if_pos rfl, ht]
    dsimp only
    rw [hsame, utf8StreamSafeLen_take (by omega), he, max_utf8StreamSafeLen,
      Nat.max_eq_right htrim]
  have hend : e ≤ utf8StreamSafeLen T S n := hlimit ▸ Nat.le_max_left _ _
  rw [hlimit, hn]
  rw [hn] at hend
  refine .opener rfl ⟨by omega, hat.of_take, nulFree_slice hfree hend (Nat.le_refl _)⟩ ?_
  intro t' ht'
  rw [← List.take_length (l := T)] at ht'
  obtain ⟨hfirst, hmin'⟩ := toolStartFrom_eq_some_iff.mp ht'
  obtain ⟨-, hat', hfree'⟩ := id hfirst
  have hLt' := hold.seen _ hfirst
  rw [List.take_length] at hat'
  apply Nat.le_antisymm
  · by_contra hlt
    obtain ⟨m, hm, hocc⟩ := id hat'
    have hends := ToolStartAt.disjoint hm hocc hat.of_take (by omega)
    have hseen := hmin (S + t') ⟨by omega, ⟨m, hm, (occursAt_take (toolStarts_ne_nil hm)).mpr
      ⟨hocc, by omega⟩⟩, nulFree_slice hfree' hSe (Nat.le_refl _)⟩
    omega
  · by_contra hlt
    have hseen := hmin' (e + t) ⟨by omega, by rw [List.take_length]; exact hat.of_take,
      nulFree_slice hfree' (Nat.le_refl S) (by omega)⟩
    omega

/-- The last call, where it sees no opener. -/
theorem bufferSafeLimit_final {hasTools : Bool} {T : Bytes} {S p e : Nat}
    (h : HeldAt hasTools T S p e) (hp : p ≤ T.length)
    (hnone : hasTools = true → toolStartFrom T e = none) :
    EndsAt hasTools T S (max e (bufferSafeLimit T e T.length hasTools true)) false := by
  obtain ⟨hSe, hep⟩ := h.bounds
  obtain ⟨L, hSL, hLp, he, hold⟩ := h
  have heL : e ≤ L := he ▸ utf8StreamSafeLen_le hSL
  have hlimit : max e (bufferSafeLimit T e T.length hasTools true) =
      utf8StreamSafeLen T S T.length := by
    have hgo : max e (utf8StreamSafeLen T e T.length) = utf8StreamSafeLen T S T.length := by
      rw [he, max_utf8StreamSafeLen, Nat.max_eq_right (by omega)]
    rw [← hgo]
    unfold bufferSafeLimit
    split
    · rename_i hle
      rw [utf8StreamSafeLen_of_le hle]
      omega
    · cases hasTools with
      | false => rfl
      | true => rw [if_pos rfl, hnone rfl, if_pos rfl]
  rw [hlimit]
  refine .text fun ht => ?_
  have hnone := hnone ht
  rw [← List.take_length (l := T), toolStartFrom_eq_none_iff] at hnone ⊢
  rintro i ⟨hSi, hat, hfree⟩
  have hLi := (hold ht).seen i ⟨hSi, hat, hfree⟩
  exact hnone i ⟨by omega, hat, nulFree_slice hfree hSe (Nat.le_refl i)⟩

/-! ## By what the search sees -/

/-- Where a single call ends the content. -/
def bufferEnd (hasTools : Bool) (T : Bytes) (S : Nat) : Nat :=
  match if hasTools then toolStartFrom T S else none with
  | some t => utf8StreamSafeLen T S (trimToolSeparatorWs T S (S + t))
  | none => utf8StreamSafeLen T S T.length

/-- Where the search sees an opener, or all of the content. -/
theorem EndsAt.seen {hasTools tool : Bool} {T : Bytes} {S E : Nat} (h : EndsAt hasTools T S E tool)
    (hsee : hasTools = true → NulFree (T.drop S) ∨ toolStartFrom T S ≠ none) :
    E = bufferEnd hasTools T S ∧
      (tool = true ↔ hasTools = true ∧ toolStartFrom T S ≠ none) := by
  cases h with
  | text hnone =>
    cases hasTools with
    | false => simp [bufferEnd]
    | true => simp [bufferEnd, hnone rfl]
  | opener ht hshown hfirst =>
    obtain ⟨hSi, hat, -⟩ := hshown
    obtain ⟨t, hsome⟩ : ∃ t, toolStartFrom T S = some t := by
      refine Option.ne_none_iff_exists'.mp fun hnone => ?_
      rcases hsee ht with hfree | hne
      · rw [← List.take_length (l := T), toolStartFrom_eq_none_iff] at hnone
        refine hnone _ ⟨hSi, by rwa [List.take_length], fun hzero => hfree ?_⟩
        exact List.mem_of_mem_take hzero
      · exact hne hnone
    obtain rfl := hfirst t hsome
    simp [bufferEnd, ht, hsome]

theorem EndsAt.bounds {hasTools tool : Bool} {T : Bytes} {S E : Nat}
    (h : EndsAt hasTools T S E tool) (hS : S ≤ T.length) : S ≤ E ∧ E ≤ T.length := by
  cases h with
  | text _ => exact ⟨le_utf8StreamSafeLen _ _ _, utf8StreamSafeLen_le hS⟩
  | @opener i _ hshown _ =>
    have htrim : S ≤ trimToolSeparatorWs T S i := le_retreat hshown.1
    have htrimle : trimToolSeparatorWs T S i ≤ i := retreat_le _ _ _ _
    have hin := hshown.2.1.bounds.1
    have := utf8StreamSafeLen_le (s := T) htrim
    exact ⟨le_utf8StreamSafeLen _ _ _, by omega⟩

/-- Where it sees neither: at the end of the text, or behind the NUL byte at an opener there. -/
theorem EndsAt.hidden {hasTools tool : Bool} {T : Bytes} {S E : Nat}
    (h : EndsAt hasTools T S E tool) (hnul : ¬ NulFree (T.drop S))
    (hnone : hasTools = true → toolStartFrom T S = none) :
    (tool = false ∧ E = utf8StreamSafeLen T S T.length) ∨
      (tool = true ∧ S + (cstr (T.drop S)).length < E ∧ E ≤ utf8StreamSafeLen T S T.length ∧
        hasTools = true ∧ ∃ i, ShownOpener T S i) := by
  cases h with
  | text _ => exact .inl ⟨rfl, rfl⟩
  | @opener i ht hshown _ =>
    refine .inr ⟨rfl, ?_, ?_, ht, i, hshown⟩
    · obtain ⟨hSi, hat, hfree⟩ := hshown
      have hzi : S + (cstr (T.drop S)).length < i := by
        by_contra hle
        have hnone := hnone ht
        rw [← List.take_length (l := T), toolStartFrom_eq_none_iff] at hnone
        refine hnone i ⟨hSi, by rwa [List.take_length], fun hzero => nulFree_cstr (T.drop S) ?_⟩
        rw [cstr_eq_take]
        exact List.take_subset_take_left _ (by omega) hzero
      by_contra hle
      refine hfree (List.mem_iff_getElem?.mpr ⟨S + (cstr (T.drop S)).length -
        utf8StreamSafeLen T S (trimToolSeparatorWs T S i), ?_⟩)
      have hzero := getElem?_length_cstr hnul
      rw [List.getElem?_drop] at hzero
      rw [slice, List.getElem?_take, if_pos (by omega), List.getElem?_drop, ← hzero]
      congr 1
      omega
    · have hlen : trimToolSeparatorWs T S i ≤ T.length :=
        Nat.le_trans (retreat_le _ _ _ _) (Nat.le_of_lt hshown.2.1.bounds.1)
      rw [← Nat.max_eq_right hlen, ← max_utf8StreamSafeLen]
      exact Nat.le_max_left _ _

/-- Nothing is content when a single call hands out none. -/
theorem EndsAt.eq_start_iff {hasTools tool : Bool} {T : Bytes} {S E : Nat}
    (h : EndsAt hasTools T S E tool) : E = S ↔ bufferEnd hasTools T S = S := by
  by_cases hsee : hasTools = true → NulFree (T.drop S) ∨ toolStartFrom T S ≠ none
  · rw [(h.seen hsee).1]
  · simp only [Classical.not_imp, not_or, not_not] at hsee
    obtain ⟨rfl, hnul, hnone⟩ := hsee
    have hend : bufferEnd true T S = utf8StreamSafeLen T S T.length := by
      simp [bufferEnd, hnone]
    rw [hend]
    rcases h.hidden hnul fun _ => hnone with ⟨-, rfl⟩ | ⟨-, hlt, hle, -⟩
    · rfl
    · omega

end Sf37.Server

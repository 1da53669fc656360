/-
Sf37.Engine.Dataset — the calibration prompts: the file that the builder writes, and the loop of
`sf37_engine_collect_imatrix` over it.

The buffer of the file is edited in place, with a NUL behind its last byte. The builder's texts
are characters; what it writes is their UTF-8.

* `collectTurn_next`: a turn of the loop in front of another prompt.
* `collectTurn_last`: a turn that finds no further marker.
* `collectImatrix_all_iff`: the prompts are all collected where none has a NUL.
-/
import Sf37.Engine.Device
import Sf37.Text.JsonLiteral
import Sf37.Text.Utf8Find
import Mathlib.Data.List.DropRight

namespace Sf37.Engine.Dataset

open Sf37.Text

/-! ## The builder -/

/-- `str.isspace` of one character. -/
def pyIsSpace (c : Char) : Bool :=
  let n := c.toNat
  (9 ≤ n && n ≤ 13) || (0x1c ≤ n && n ≤ 0x20) || n == 0x85 || n == 0xa0 || n == 0x1680 ||
    (0x2000 ≤ n && n ≤ 0x200a) || n == 0x2028 || n == 0x2029 || n == 0x202f || n == 0x205f ||
    n == 0x3000

/-- `str.rstrip`. -/
def pyRstrip (s : List Char) : List Char := s.rdropWhile pyIsSpace

/-- `str.strip`. -/
def pyStrip (s : List Char) : List Char := (pyRstrip s).dropWhile pyIsSpace

/-- The sources of `main`. -/
inductive Source
  | code
  | ifEn
  | zh
  deriving DecidableEq

def Source.name : Source → List Char
  | .code => "code".toList
  | .ifEn => "if_en".toList
  | .zh => "zh".toList

/-- What `main` renders of a record. -/
structure Record where
  source : Source
  text : List Char
  deriving DecidableEq

/-- `f"{i:06d}"`. -/
def sixDigits (i : ℕ) : List Char := (Nat.toDigits 10 i).leftpad 6 '0'

def markerText : List Char := "===== SF37_IMATRIX_PROMPT".toList

/-- The line above a prompt, behind the marker. -/
def headerRest (i : ℕ) (source : Source) : List Char :=
  " ".toList ++ sixDigits i ++ " ".toList ++ source.name ++ " =====".toList

/-- The loop of `main` that writes `rendered_prompts.txt`, from the `i`-th record on. -/
def renderedPrompts : ℕ → List Record → List Char
  | _, [] => []
  | i, rec :: final =>
    markerText ++ headerRest i rec.source ++ "\n".toList ++ (pyRstrip rec.text ++ "\n\n".toList) ++
      renderedPrompts (i + 1) final

/-! ## The loop -/

/-- `marker_lit`. -/
def markerLit : Bytes := bytes "===== SF37_IMATRIX_PROMPT"

/-- `imatrix_trim_block` of `buf[p..stop)`: the buffer with a terminator, and where the text
begins. -/
def imatrixTrimBlock (buf : Bytes) (p stop : ℕ) : Bytes × ℕ :=
  let p := p + ((slice buf p stop).takeWhile isspace).length
  (buf.set (retreat isspace buf p stop) 0, p)

/-- What `sf37_engine_collect_imatrix` is called with, the tokenizer and the prefill. -/
structure Env (Token : Type) where
  tokenizeRenderedChat : Bytes → List Token
  prefill : List Token → Bool
  ctxSize : ℤ
  maxPrompts : ℤ
  maxTokens : ℤ

/-- The state of the loop. -/
structure State where
  dataset : Bytes
  cursor : ℕ
  promptsDone : ℕ
  tokensDone : ℕ
  ok : Bool
  /-- What was tokenized so far. -/
  tokenized : List Bytes

variable {Token : Type} (env : Env Token)

/-- `ctx_size` within its bounds. -/
def Env.ctx : ℕ :=
  let ctxSize := if env.ctxSize ≤ 0 then 8192 else env.ctxSize
  if (maxCtx : ℤ) < ctxSize then maxCtx else ctxSize.toNat

/-- The tokens of a prompt, up to the limits. -/
def promptTokens (tokensDone : ℕ) (text : Bytes) : List Token :=
  let prompt := env.tokenizeRenderedChat text
  let len : ℤ := if env.ctx < prompt.length then env.ctx else prompt.length
  let len := if 0 < env.maxTokens ∧ env.maxTokens - tokensDone < len then
    env.maxTokens - tokensDone else len
  prompt.take len.toNat

/-- Tokenizes one prompt and prefills it. -/
def collectPrompt (text : Bytes) (s : State) : State :=
  if text = [] then s
  else
    let prompt := promptTokens env s.tokensDone text
    let s := { s with tokenized := s.tokenized ++ [text] }
    if prompt.length = 0 then s
    else if env.prefill prompt then
      { s with
        promptsDone := s.promptsDone + 1
        tokensDone := s.tokensDone + prompt.length }
    else { s with ok := false }

/-- Where the text of a turn begins. -/
def promptStart (s : State) : Option ℕ :=
  match strstr (cstr (s.dataset.drop s.cursor)) markerLit with
  | some k =>
    (strchr (cstr (s.dataset.drop (s.cursor + k))) 0x0a).map fun nl => s.cursor + k + nl + 1
  | none => if s.promptsDone ≠ 0 then none else some s.cursor

/-- One turn of the loop over a file of `len` bytes, and whether the loop goes on. -/
def collectTurn (len : ℕ) (s : State) : State × Bool :=
  match promptStart s with
  | none => (s, false)
  | some start =>
    let next := (strstr (cstr (s.dataset.drop start)) markerLit).map (start + ·)
    let stop := next.getD len
    let saved := s.dataset.getD stop 0
    let trimmed := imatrixTrimBlock s.dataset start stop
    let s := collectPrompt env (cstr (trimmed.1.drop trimmed.2)) { s with dataset := trimmed.1 }
    let s := { s with dataset := s.dataset.set stop saved }
    if s.ok = false then (s, false)
    else
      match next with
      | none => (s, false)
      | some next =>
        ({ s with cursor := next },
          !(0 < env.maxPrompts && env.maxPrompts ≤ s.promptsDone) &&
            !(0 < env.maxTokens && env.maxTokens ≤ s.tokensDone))

/-- The loop, with as many turns as there is fuel. -/
def collectLoop (len : ℕ) : ℕ → State → Option State
  | 0, _ => none
  | fuel + 1, s =>
    if s.dataset.getD s.cursor 0 = 0 then some s
    else
      match collectTurn env len s with
      | (s, true) => collectLoop len fuel s
      | (s, false) => some s

/-- `sf37_engine_collect_imatrix` of a file, up to `imatrix_collector_save`. -/
def collectImatrix (fuel : ℕ) (file : Bytes) : Option State :=
  collectLoop env file.length fuel ⟨file ++ [0], 0, 0, 0, true, []⟩

/-! ## Searches in a block -/

theorem markerLit_eq : encode markerText = markerLit := by decide

theorem markerText_ne_nil : markerText ≠ [] := by decide

theorem markerText_ascii : Ascii markerText := by decide

theorem markerLit_ne_nil : markerLit ≠ [] := by decide

theorem newline_not_marker : (0x0a : UInt8) ∉ markerLit := by decide

theorem nulFree_marker : NulFree markerLit := by decide

/-- An occurrence does not go over a byte that is not in the pattern. -/
theorem occursAt_append_foreign {n s t : Bytes} {x : UInt8} {i : ℕ} (hx : x ∉ n)
    (h : OccursAt n (s ++ x :: t) i) : OccursAt n s i ∨ s.length < i := by
  by_contra hno
  rw [not_or, not_lt] at hno
  rcases Nat.lt_or_ge s.length (i + n.length) with hlt | hge
  · have hget := occursAt_iff_getElem?.mp h (s.length - i) (by omega)
    rw [Nat.add_sub_cancel' hno.2, List.getElem?_append_right le_rfl, Nat.sub_self,
      List.getElem?_cons_zero] at hget
    exact hx (List.mem_of_getElem? hget.symm)
  · by_cases hn : n = []
    · subst hn
      exact hno.1 List.nil_prefix
    · have htake := (occursAt_take hn).mpr ⟨h, hge⟩
      rw [List.take_left] at htake
      exact hno.1 htake

/-- A pattern that stands neither in a text nor over its last byte. -/
theorem not_occursAt_snoc {n s : Bytes} {x : UInt8} (hn : n ≠ []) (hx : x ∉ n)
    (h : ∀ i, ¬ OccursAt n s i) (i : ℕ) : ¬ OccursAt n (s ++ [x]) i := by
  intro hocc
  rcases occursAt_append_foreign hx hocc with hin | hlt
  · exact h i hin
  · have hend := hocc.add_length_le hn
    have hpos := List.length_pos_iff.mpr hn
    rw [List.length_append, List.length_singleton] at hend
    omega

/-- A text in a block of the file: it neither begins nor ends with white space, and holds no
marker. -/
structure BlockText (t : Bytes) : Prop where
  ne_nil : t ≠ []
  first : NoSpace t
  last : ∀ c, t.getLast? = some c → isspace c = false
  clear : ∀ i, ¬ OccursAt markerLit t i

section Block

variable {t : Bytes}

/-- Behind a text the next marker is found. -/
theorem BlockText.strstr_next (h : BlockText t) (z : Bytes) :
    strstr (t ++ 0x0a :: 0x0a :: (markerLit ++ z)) markerLit = some (t.length + 2) := by
  have hline := not_occursAt_snoc markerLit_ne_nil newline_not_marker h.clear
  have hsplit : t ++ 0x0a :: 0x0a :: (markerLit ++ z) =
      t ++ [0x0a] ++ 0x0a :: (markerLit ++ z) := by rw [List.append_assoc]; rfl
  refine (firstOcc_eq_some_iff markerLit_ne_nil).mpr ⟨?_, fun j hj hocc => ?_⟩
  · have hdrop : (t ++ 0x0a :: 0x0a :: (markerLit ++ z)).drop (t.length + 2) = markerLit ++ z := by
      rw [List.drop_append, List.drop_of_length_le (by omega), Nat.add_sub_cancel_left]
      rfl
    rw [OccursAt, hdrop]
    exact List.prefix_append _ _
  · rw [hsplit] at hocc
    rcases occursAt_append_foreign newline_not_marker hocc with hin | hlt
    · exact hline j hin
    · rw [List.length_append, List.length_singleton] at hlt
      omega

/-- Behind the last text there is no marker. -/
theorem BlockText.strstr_last (h : BlockText t) :
    strstr (t ++ [0x0a, 0x0a]) markerLit = none := by
  have hline := not_occursAt_snoc markerLit_ne_nil newline_not_marker h.clear
  have htwo := not_occursAt_snoc markerLit_ne_nil newline_not_marker hline
  rw [List.append_assoc] at htwo
  exact (firstOcc_eq_none_iff markerLit_ne_nil).mpr htwo

/-- Where a text is cut off there is no marker. -/
theorem BlockText.strstr_cut (h : BlockText t) : strstr (cstr t) markerLit = none := by
  refine (firstOcc_eq_none_iff markerLit_ne_nil).mpr fun i hocc => h.clear i ?_
  obtain ⟨rest, hrest⟩ := ( List.takeWhile_prefix (· != 0) : cstr t <+: t)
  rw [← hrest]
  exact hocc.append_right markerLit_ne_nil rest

end Block

/-- The text begins behind the line of the marker. -/
theorem promptStart_header {before tag y : Bytes} (hnul : NulFree tag)
    (hline : (0x0a : UInt8) ∉ tag) {s : State}
    (hdata : s.dataset = before ++ (markerLit ++ (tag ++ 0x0a :: y)))
    (hcursor : s.cursor = before.length) :
    promptStart s = some (before ++ (markerLit ++ (tag ++ [0x0a]))).length := by
  have hshow : cstr (markerLit ++ (tag ++ 0x0a :: y)) = markerLit ++ tag ++ 0x0a :: cstr y := by
    rw [cstr_append_free nulFree_marker, cstr_append_free hnul, List.append_assoc]
    rfl
  have hmarker : strstr (markerLit ++ tag ++ 0x0a :: cstr y) markerLit = some 0 := by
    rw [List.append_assoc]
    exact strstr_append (a := []) markerLit_ne_nil (fun i hi => absurd hi (Nat.not_lt_zero i)) _
  have hnl : strchr (markerLit ++ tag ++ 0x0a :: cstr y) 0x0a =
      some (markerLit ++ tag).length :=
    strchr_append (fun h => (List.mem_append.mp h).elim newline_not_marker hline) _
  rw [promptStart, hdata, hcursor, List.drop_left, hshow, hmarker]
  dsimp only
  rw [Nat.add_zero, List.drop_left, hshow, hnl, Option.map_some]
  simp only [List.length_append, List.length_singleton, Nat.add_assoc]

/-! ## The terminator -/

theorem set_middle (a : Bytes) (x : UInt8) (b : Bytes) (y : UInt8) :
    (a ++ x :: b).set a.length y = a ++ y :: b := by
  rw [List.set_append_right _ _ le_rfl, Nat.sub_self, List.set_cons_zero]

/-- A block that begins with no white space is not cut in front. -/
theorem imatrixTrimBlock_snd (head y : Bytes) {c : UInt8} (hc : isspace c = false) (stop : ℕ) :
    (imatrixTrimBlock (head ++ c :: y) head.length stop).2 = head.length := by
  have hnone : ((slice (head ++ c :: y) head.length stop).takeWhile isspace) = [] := by
    rw [slice, List.drop_left]
    cases stop - head.length with
    | zero => rfl
    | succ n => rw [List.take_succ_cons, List.takeWhile_cons, hc, if_neg Bool.false_ne_true]
  rw [imatrixTrimBlock, hnone]
  rfl

/-- The terminator stands behind the text. -/
theorem imatrixTrimBlock_text {t : Bytes} (h : BlockText t) (head after : Bytes) :
    imatrixTrimBlock (head ++ (t ++ 0x0a :: 0x0a :: after)) head.length
        (head.length + (t.length + 2)) =
      (head ++ (t ++ 0 :: 0x0a :: after), head.length) := by
  obtain ⟨c, t', hfirst⟩ := List.exists_cons_of_ne_nil h.ne_nil
  have hstart := imatrixTrimBlock_snd head (t' ++ 0x0a :: 0x0a :: after)
    (h.first c (by rw [hfirst]; rfl)) (head.length + (t.length + 2))
  rw [← List.cons_append, ← hfirst] at hstart
  have hget (k : ℕ) : (head ++ (t ++ 0x0a :: 0x0a :: after))[head.length + k]? =
      (t ++ 0x0a :: 0x0a :: after)[k]? := by
    rw [List.getElem?_append_right (Nat.le_add_right _ _), Nat.add_sub_cancel_left]
  have hstop : retreat isspace (head ++ (t ++ 0x0a :: 0x0a :: after)) head.length
      (head.length + (t.length + 2)) = head.length + t.length := by
    rw [retreat_over (d := head.length + t.length) (by omega) (by omega)]
    · obtain ⟨k, hk⟩ := Nat.exists_eq_succ_of_ne_zero (List.length_pos_iff.mpr h.ne_nil).ne'
      rw [hk, Nat.add_succ, retreat, if_neg]
      rintro ⟨-, hspace⟩
      have hlast : t[k]? = t.getLast? := by rw [List.getLast?_eq_getElem?, hk]; rfl
      rw [hget, List.getElem?_append_left (by omega), hlast] at hspace
      obtain ⟨c, hc, hbad⟩ := (Option.any_eq_true _ _).mp hspace
      rw [h.last c hc] at hbad
      cases hbad
    · intro k hge hlt
      obtain ⟨j, rfl⟩ := Nat.exists_eq_add_of_le hge
      rw [Nat.add_assoc, hget, List.getElem?_append_right (by omega), Nat.add_sub_cancel_left]
      rcases j with _ | _ | j
      · rfl
      · rfl
      · omega
  refine Prod.ext ?_ hstart
  rw [imatrixTrimBlock] at hstart ⊢
  dsimp only at hstart ⊢
  rw [hstart, hstop, ← List.append_assoc, ← List.length_append, set_middle, List.append_assoc]

/-! ## Turns -/

section Turns

variable {env} {s : State}

/-- Without a limit the tokens are cut at the context only. -/
theorem promptTokens_unlimited (hmax : env.maxTokens ≤ 0) (tokensDone : ℕ) (text : Bytes) :
    promptTokens env tokensDone text = (env.tokenizeRenderedChat text).take env.ctx := by
  rw [promptTokens, if_neg (fun h => absurd h.1 (not_lt.mpr hmax))]
  split
  next => rw [Int.toNat_natCast]
  next hle => rw [Int.toNat_natCast, List.take_length, List.take_of_length_le (not_lt.mp hle)]

variable (env) in
theorem collectPrompt_tokenized (text : Bytes) : (collectPrompt env text s).tokenized =
    s.tokenized ++ if text = [] then [] else [text] := by
  rw [collectPrompt]
  split
  · rw [List.append_nil]
  · dsimp only
    split
    · rfl
    · split <;> rfl

theorem collectPrompt_dataset (text : Bytes) :
    (collectPrompt env text s).dataset = s.dataset := by
  rw [collectPrompt]
  split
  · rfl
  · dsimp only
    split
    · rfl
    · split <;> rfl

/-- A prompt whose prefill succeeds. -/
theorem collectPrompt_ok {text : Bytes} (hmax : env.maxTokens ≤ 0)
    (hprefill : env.prefill ((env.tokenizeRenderedChat text).take env.ctx) = true) :
    (collectPrompt env text s).ok = s.ok := by
  rw [collectPrompt]
  split
  · rfl
  · dsimp only
    split
    · rfl
    · rw [promptTokens_unlimited hmax, if_pos hprefill]

/-- A turn of the loop in front of another prompt. -/
theorem collectTurn_next {before tag t z : Bytes} (hnul : NulFree tag)
    (hline : (0x0a : UInt8) ∉ tag) (ht : BlockText t) (hfree : NulFree t) (hok : s.ok = true)
    (hdata : s.dataset =
      before ++ (markerLit ++ (tag ++ 0x0a :: (t ++ 0x0a :: 0x0a :: (markerLit ++ z)))))
    (hcursor : s.cursor = before.length) (hprompts : env.maxPrompts ≤ 0)
    (htokens : env.maxTokens ≤ 0)
    (hprefill : env.prefill ((env.tokenizeRenderedChat t).take env.ctx) = true) (len : ℕ) :
    ∃ s' before', collectTurn env len s = (s', true) ∧ s'.ok = true ∧
      s'.tokenized = s.tokenized ++ [t] ∧ s'.dataset = before' ++ (markerLit ++ z) ∧
      s'.cursor = before'.length ∧ s'.dataset.length = s.dataset.length := by
  have hstart := promptStart_header hnul hline hdata hcursor
  obtain ⟨head, hhead⟩ : ∃ head, head = before ++ (markerLit ++ (tag ++ [0x0a])) := ⟨_, rfl⟩
  have hblock : s.dataset = head ++ (t ++ 0x0a :: 0x0a :: (markerLit ++ z)) := by
    rw [hdata, hhead]
    simp only [List.append_assoc, List.cons_append, List.nil_append]
  have hshow : cstr (t ++ 0x0a :: 0x0a :: (markerLit ++ z)) =
      t ++ 0x0a :: 0x0a :: (markerLit ++ cstr z) := by
    rw [cstr_append_free hfree]
    refine congrArg (t ++ ·) ?_
    rw [← cstr_append_free nulFree_marker]
    exact cstr_append_free (a := [0x0a, 0x0a]) (by decide) _
  have htext : cstr (t ++ 0 :: 0x0a :: (markerLit ++ z)) = t := by
    rw [cstr_append_nul, cstr_iff.mpr hfree]
  obtain ⟨c, m, hm⟩ := List.exists_cons_of_ne_nil markerLit_ne_nil
  have hsaved : s.dataset.getD (head.length + (t.length + 2)) 0 = c := by
    rw [hblock, List.getD_eq_getElem?_getD, List.getElem?_append_right (Nat.le_add_right _ _),
      Nat.add_sub_cancel_left, List.getElem?_append_right (Nat.le_add_right _ _),
      Nat.add_sub_cancel_left, hm]
    rfl
  have hplace : head.length + (t.length + 2) = (head ++ (t ++ [0, 0x0a])).length := by
    simp only [List.length_append, List.length_cons, List.length_nil]
  have hbytes : head ++ (t ++ 0 :: 0x0a :: (markerLit ++ z)) =
      head ++ (t ++ [0, 0x0a]) ++ c :: (m ++ z) := by
    rw [hm, List.append_assoc, List.append_assoc]
    rfl
  rw [← hhead] at hstart
  have hnext : strstr (cstr (s.dataset.drop head.length)) markerLit = some (t.length + 2) := by
    rw [hblock, List.drop_left, hshow, ht.strstr_next]
  have htrim : imatrixTrimBlock s.dataset head.length (head.length + (t.length + 2)) =
      (head ++ (t ++ 0 :: 0x0a :: (markerLit ++ z)), head.length) := by
    rw [hblock]
    exact imatrixTrimBlock_text ht head _
  have hlimits : decide (0 < env.maxPrompts) = false ∧ decide (0 < env.maxTokens) = false :=
    ⟨decide_eq_false (not_lt.mpr hprompts), decide_eq_false (not_lt.mpr htokens)⟩
  rw [collectTurn, hstart]
  dsimp only
  rw [hnext, Option.map_some, Option.getD_some, htrim, hsaved]
  dsimp only
  rw [List.drop_left, htext, collectPrompt_dataset, collectPrompt_ok htokens hprefill, hok,
    if_neg (by decide), hlimits.1, hlimits.2, collectPrompt_tokenized, if_neg ht.ne_nil, hbytes,
    hplace, set_middle]
  refine ⟨_, head ++ (t ++ [0, 0x0a]), rfl, rfl, rfl, ?_, rfl, ?_⟩
  · dsimp only
    rw [hm]
    rfl
  · dsimp only
    rw [hblock, hm]
    simp only [List.length_append, List.length_cons, List.length_nil]
    omega

variable (env) in
/-- A turn that finds no further marker is the last one. -/
theorem collectTurn_last {start : ℕ} (hstart : promptStart s = some start)
    (hnone : strstr (cstr (s.dataset.drop start)) markerLit = none) (len : ℕ) :
    ∃ s' text, collectTurn env len s = (s', false) ∧
      text = cstr ((imatrixTrimBlock s.dataset start len).1.drop
        (imatrixTrimBlock s.dataset start len).2) ∧
      s'.tokenized = s.tokenized ++ if text = [] then [] else [text] := by
  obtain ⟨trimmed, htrimmed⟩ : ∃ trimmed, trimmed = imatrixTrimBlock s.dataset start len := ⟨_, rfl⟩
  have htokenized := collectPrompt_tokenized env (s := { s with dataset := trimmed.1 })
    (cstr (trimmed.1.drop trimmed.2))
  rw [collectTurn, hstart]
  dsimp only
  rw [hnone, Option.map_none, Option.getD_none, ← htrimmed]
  split
  · exact ⟨_, _, rfl, rfl, htokenized⟩
  · exact ⟨_, _, rfl, rfl, htokenized⟩

/-- The last prompt, when it has no NUL. -/
theorem collectTurn_final {before tag t : Bytes} (hnul : NulFree tag)
    (hline : (0x0a : UInt8) ∉ tag) (ht : BlockText t) (hfree : NulFree t)
    (hdata : s.dataset = before ++ (markerLit ++ (tag ++ 0x0a :: (t ++ [0x0a, 0x0a, 0]))))
    (hcursor : s.cursor = before.length) {len : ℕ} (hlen : len + 1 = s.dataset.length) :
    ∃ s', collectTurn env len s = (s', false) ∧ s'.tokenized = s.tokenized ++ [t] := by
  have hstart := promptStart_header hnul hline hdata hcursor
  obtain ⟨head, hhead⟩ : ∃ head, head = before ++ (markerLit ++ (tag ++ [0x0a])) := ⟨_, rfl⟩
  have hblock : s.dataset = head ++ (t ++ 0x0a :: 0x0a :: [0]) := by
    rw [hdata, hhead]
    simp only [List.append_assoc, List.cons_append, List.nil_append]
  have hshow : cstr (t ++ 0x0a :: 0x0a :: [0]) = t ++ [0x0a, 0x0a] := by
    rw [cstr_append_free hfree]
    rfl
  have hstop : len = head.length + (t.length + 2) := by
    rw [hblock] at hlen
    simp only [List.length_append, List.length_cons, List.length_nil] at hlen
    omega
  have htext : cstr (t ++ 0 :: 0x0a :: [0]) = t := by
    rw [cstr_append_nul, cstr_iff.mpr hfree]
  rw [← hhead] at hstart
  have hnone : strstr (cstr (s.dataset.drop head.length)) markerLit = none := by
    rw [hblock, List.drop_left, hshow, ht.strstr_last]
  obtain ⟨s', text, hturn, htext', htokenized⟩ := collectTurn_last env hstart hnone len
  rw [hblock, hstop, imatrixTrimBlock_text ht, List.drop_left, htext] at htext'
  rw [htext', if_neg ht.ne_nil] at htokenized
  exact ⟨s', hturn, htokenized⟩

/-- A prompt with a NUL ends the loop, and what was tokenized of it has none. -/
theorem collectTurn_nul {before tag t after : Bytes} (hnul : NulFree tag)
    (hline : (0x0a : UInt8) ∉ tag) (ht : BlockText t) (hnot : ¬ NulFree t)
    (hdata : s.dataset = before ++ (markerLit ++ (tag ++ 0x0a :: (t ++ after))))
    (hcursor : s.cursor = before.length) (len : ℕ) :
    ∃ s' more, collectTurn env len s = (s', false) ∧ s'.tokenized = s.tokenized ++ more ∧
      ∀ text ∈ more, NulFree text := by
  have hstart := promptStart_header hnul hline hdata hcursor
  have hblock : s.dataset = before ++ (markerLit ++ (tag ++ [0x0a])) ++ (t ++ after) := by
    rw [hdata]
    simp only [List.append_assoc, List.cons_append, List.nil_append]
  have hnone : strstr (cstr (s.dataset.drop
      (before ++ (markerLit ++ (tag ++ [0x0a]))).length)) markerLit = none := by
    obtain ⟨a, b, hsplit⟩ := List.append_of_mem (not_not.mp hnot)
    rw [hblock, List.drop_left, hsplit, List.append_assoc, List.cons_append, cstr_append_nul,
      ← cstr_append_nul a b, ← hsplit, ht.strstr_cut]
  obtain ⟨s', text, hturn, rfl, htokenized⟩ := collectTurn_last env hstart hnone len
  refine ⟨s', _, hturn, htokenized, fun text htext => ?_⟩
  split at htext
  · cases htext
  · rw [List.mem_singleton.mp htext]
    exact nulFree_cstr _

end Turns

/-! ## The texts of the builder -/

/-- A character that C takes for white space is white space. -/
theorem pyIsSpace_of_isspace {c : Char} {b : UInt8} (hb : b.toNat = c.toNat)
    (h : isspace b = true) : pyIsSpace c = true := by
  rw [isspace_iff, hb] at h
  simp only [pyIsSpace, Bool.or_eq_true, Bool.and_eq_true, decide_eq_true_eq, beq_iff_eq]
  omega

theorem isspace_lt {b : UInt8} (h : isspace b = true) : b.toNat < 0x80 := by
  rw [isspace_iff] at h
  omega

section Strip

variable {text : List Char}

/-- A stripped text stays as it is when white space is cut at its end. -/
theorem pyRstrip_of_strip (h : pyStrip text = text) : pyRstrip text = text := by
  have hlen := congrArg List.length h
  have hfront := (List.dropWhile_suffix pyIsSpace (l := pyRstrip text)).length_le
  rw [← pyStrip, hlen] at hfront
  exact (List.rdropWhile_prefix pyIsSpace text).eq_of_length_le hfront

/-- What `str.strip` leaves as it is has no white space at its ends. -/
theorem ends_of_strip (h : pyStrip text = text) :
    (∀ c, text.head? = some c → pyIsSpace c = false) ∧
      ∀ c, text.getLast? = some c → pyIsSpace c = false := by
  have hright := pyRstrip_of_strip h
  rw [pyStrip, hright] at h
  refine ⟨fun c hc => ?_, fun c hc => ?_⟩
  · obtain ⟨rest, rfl⟩ := List.head?_eq_some_iff.mp hc
    rw [List.dropWhile_cons] at h
    split at h
    · have := (List.dropWhile_suffix pyIsSpace (l := rest)).length_le
      rw [h, List.length_cons] at this
      omega
    · exact Bool.eq_false_iff.mpr ‹_›
  · obtain ⟨front, rfl⟩ := List.getLast?_eq_some_iff.mp hc
    have hlast := List.rdropWhile_eq_self_iff.mp hright (by simp)
    rw [List.getLast_concat] at hlast
    exact Bool.eq_false_iff.mpr hlast

/-- The bytes of a stripped text without the marker. -/
theorem blockText_encode (hne : text ≠ []) (hstrip : pyStrip text = text)
    (hmarker : ¬ markerText <:+: text) : BlockText (encode text) where
  ne_nil h := hne (encode_eq_nil.mp h)
  first b hb := by
    by_contra hspace
    rw [Bool.not_eq_false] at hspace
    obtain ⟨c, hc, hcode⟩ := head_encode hb (isspace_lt hspace)
    have := (ends_of_strip hstrip).1 c hc
    rw [pyIsSpace_of_isspace hcode hspace] at this
    cases this
  last b hb := by
    by_contra hspace
    rw [Bool.not_eq_false] at hspace
    obtain ⟨c, hc, hcode⟩ := last_encode hb (isspace_lt hspace)
    have := (ends_of_strip hstrip).2 c hc
    rw [pyIsSpace_of_isspace hcode hspace] at this
    cases this
  clear i hocc := by
    rw [← markerLit_eq] at hocc
    exact hmarker (infix_of_occursAt_encode markerText_ne_nil markerText_ascii hocc)

end Strip

theorem headerRest_plain (i : ℕ) (source : Source) :
    '\n' ∉ headerRest i source ∧ '\x00' ∉ headerRest i source := by
  have hdigits : ∀ c ∈ sixDigits i, c.isDigit = true := by
    intro c hc
    rw [sixDigits, List.leftpad, List.mem_append] at hc
    rcases hc with hzero | hdigit
    · rw [(List.mem_replicate.mp hzero).2]
      rfl
    · exact Nat.isDigit_of_mem_toDigits (by decide) (by decide) hdigit
  have hplain (c : Char) (hc : c.isDigit = false) (hspace : c ∉ " ".toList)
      (hname : c ∉ source.name) (hend : c ∉ " =====".toList) : c ∉ headerRest i source := by
    have hno : c ∉ sixDigits i := fun hmem => by
      rw [hdigits c hmem] at hc
      cases hc
    simp only [headerRest, List.mem_append, not_or]
    exact ⟨⟨⟨⟨hspace, hno⟩, hspace⟩, hname⟩, hend⟩
  constructor
  · exact hplain _ rfl (by decide) (by cases source <;> decide) (by decide)
  · exact hplain _ rfl (by decide) (by cases source <;> decide) (by decide)

/-! ## Runs -/

/-- Prompts that the builder can have: stripped texts without the marker. -/
def Prompts (final : List Record) : Prop :=
  ∀ r ∈ final, r.text ≠ [] ∧ pyStrip r.text = r.text ∧ ¬ markerText <:+: r.text

instance (final : List Record) : Decidable (Prompts final) :=
  inferInstanceAs (Decidable (∀ r ∈ final, _))

/-- The file of a record and of those behind it. -/
theorem encode_renderedPrompts (i : ℕ) {r : Record} (hstrip : pyStrip r.text = r.text)
    (final : List Record) : encode (renderedPrompts i (r :: final)) =
      markerLit ++ (encode (headerRest i r.source) ++ 0x0a ::
        (encode r.text ++ 0x0a :: 0x0a :: encode (renderedPrompts (i + 1) final))) := by
  have hnl : encode "\n".toList = [0x0a] := by decide
  have hblank : encode "\n\n".toList = [0x0a, 0x0a] := by decide
  rw [renderedPrompts, pyRstrip_of_strip hstrip]
  simp only [encode_append, markerLit_eq, hnl, hblank, List.append_assoc, List.cons_append,
    List.nil_append]

theorem encode_headerRest (i : ℕ) (source : Source) : NulFree (encode (headerRest i source)) ∧
    (0x0a : UInt8) ∉ encode (headerRest i source) := by
  obtain ⟨hline, hnul⟩ := headerRest_plain i source
  exact ⟨fun h => hnul ((mem_encode_ascii (by decide) rfl).mp h),
    fun h => hline ((mem_encode_ascii (by decide) rfl).mp h)⟩

theorem nulFree_encode {text : List Char} : NulFree (encode text) ↔ '\x00' ∉ text :=
  not_congr (mem_encode_ascii (by decide) rfl)

/-- The loop over the rest of the file. -/
theorem collectLoop_rendered {len : ℕ} (hprompts : env.maxPrompts ≤ 0) (htokens : env.maxTokens ≤ 0)
    {final : List Record} (hfinal : Prompts final)
    (hprefill : ∀ r ∈ final,
      env.prefill ((env.tokenizeRenderedChat (encode r.text)).take env.ctx) = true)
    {i : ℕ} {s : State} (hok : s.ok = true) (before : Bytes)
    (hdata : s.dataset = before ++ (encode (renderedPrompts i final) ++ [0]))
    (hcursor : s.cursor = before.length) (hlen : len + 1 = s.dataset.length) :
    ∃ out, (∀ fuel, final.length < fuel → collectLoop env len fuel s = some out) ∧
      (out.tokenized = s.tokenized ++ final.map (encode ·.text) ↔
        ∀ r ∈ final, '\x00' ∉ r.text) := by
  induction final generalizing i s before with
  | nil =>
    refine ⟨s, fun fuel hfuel => ?_, by simp⟩
    obtain ⟨fuel, rfl⟩ := Nat.exists_eq_succ_of_ne_zero (Nat.ne_of_gt hfuel)
    have hend : s.dataset.getD s.cursor 0 = 0 := by
      rw [hdata, hcursor, List.getD_eq_getElem?_getD, List.getElem?_append_right le_rfl,
        Nat.sub_self]
      rfl
    rw [collectLoop, if_pos hend]
  | cons r final ih =>
    obtain ⟨hne, hstrip, hmarker⟩ := hfinal r List.mem_cons_self
    obtain ⟨hnul, hline⟩ := encode_headerRest i r.source
    have ht := blockText_encode hne hstrip hmarker
    rw [encode_renderedPrompts i hstrip] at hdata
    have hopen : s.dataset.getD s.cursor 0 ≠ 0 := by
      obtain ⟨c, m, hm⟩ := List.exists_cons_of_ne_nil markerLit_ne_nil
      have hc : c ≠ 0 := fun h => nulFree_marker (hm ▸ h ▸ List.mem_cons_self)
      rw [hdata, hcursor, hm, List.getD_eq_getElem?_getD, List.getElem?_append_right le_rfl,
        Nat.sub_self]
      exact hc
    have hturn {fuel : ℕ} (hfuel : (r :: final).length < fuel) : ∃ k, final.length < k ∧
        collectLoop env len fuel s = match collectTurn env len s with
          | (s, true) => collectLoop env len k s
          | (s, false) => some s := by
      obtain ⟨k, rfl⟩ := Nat.exists_eq_succ_of_ne_zero (by omega : fuel ≠ 0)
      refine ⟨k, by simpa using hfuel, ?_⟩
      rw [collectLoop, if_neg hopen]
    by_cases hfree : NulFree (encode r.text)
    · have hr : '\x00' ∉ r.text := nulFree_encode.mp hfree
      cases final with
      | nil =>
        have hbytes : s.dataset = before ++ (markerLit ++ (encode (headerRest i r.source) ++
            0x0a :: (encode r.text ++ [0x0a, 0x0a, 0]))) := by
          rw [hdata, renderedPrompts]
          simp only [encode_nil, List.append_assoc, List.cons_append, List.nil_append]
        have hfinal : ∃ s', collectTurn env len s = (s', false) ∧
            s'.tokenized = s.tokenized ++ [encode r.text] :=
          collectTurn_final hnul hline ht hfree hbytes hcursor hlen
        obtain ⟨s', hs', htokenized⟩ := hfinal
        refine ⟨s', fun fuel hfuel => ?_, ?_⟩
        · obtain ⟨k, -, hk⟩ := hturn hfuel
          rw [hk, hs']
        · rw [htokenized]
          exact ⟨fun _ => by simpa using hr, fun _ => rfl⟩
      | cons r' final =>
        obtain ⟨z, hz⟩ : ∃ z, encode (renderedPrompts (i + 1) (r' :: final)) ++ [0] =
            markerLit ++ z := by
          rw [encode_renderedPrompts (i + 1) (hfinal r' (by simp)).2.1, List.append_assoc]
          exact ⟨_, rfl⟩
        have hbytes : s.dataset = before ++ (markerLit ++ (encode (headerRest i r.source) ++
            0x0a :: (encode r.text ++ 0x0a :: 0x0a :: (markerLit ++ z)))) := by
          rw [hdata, ← hz]
          simp only [List.append_assoc, List.cons_append]
        obtain ⟨s', before', hs', hok', htokenized, hdata', hcursor', hlen'⟩ :=
          collectTurn_next hnul hline ht hfree hok hbytes hcursor hprompts htokens
            (hprefill r List.mem_cons_self) len
        obtain ⟨out, hout, hiff⟩ := ih (fun r hr => hfinal r (List.mem_cons_of_mem _ hr))
          (fun r hr => hprefill r (List.mem_cons_of_mem _ hr)) hok' before' (by rw [hdata', hz])
          hcursor' (by rw [hlen', hlen])
        refine ⟨out, fun fuel hfuel => ?_, ?_⟩
        · obtain ⟨k, hkl, hk⟩ := hturn hfuel
          rw [hk, hs']
          exact hout k hkl
        · rw [htokenized, List.append_assoc] at hiff
          rw [List.forall_mem_cons, and_iff_right hr, ← hiff]
          rfl
    · have hr : ¬ '\x00' ∉ r.text := fun h => hfree (nulFree_encode.mpr h)
      have hbytes : s.dataset = before ++ (markerLit ++ (encode (headerRest i r.source) ++
          0x0a :: (encode r.text ++
            0x0a :: 0x0a :: (encode (renderedPrompts (i + 1) final) ++ [0])))) := by
        rw [hdata]
        simp only [List.append_assoc, List.cons_append]
      have hnulTurn : ∃ s' more, collectTurn env len s = (s', false) ∧
          s'.tokenized = s.tokenized ++ more ∧ ∀ text ∈ more, NulFree text :=
        collectTurn_nul hnul hline ht hfree hbytes hcursor len
      obtain ⟨s', more, hs', htokenized, hmore⟩ := hnulTurn
      refine ⟨s', fun fuel hfuel => ?_, ?_⟩
      · obtain ⟨k, -, hk⟩ := hturn hfuel
        rw [hk, hs']
      · refine iff_of_false (fun heq => hfree (hmore _ ?_)) fun h => hr (h r List.mem_cons_self)
        rw [htokenized] at heq
        rw [List.append_cancel_left heq]
        exact List.mem_cons_self

/-- The loop ends, and what it has tokenized are all the prompts where none of them has a NUL. -/
theorem collectImatrix_all_iff (hprompts : env.maxPrompts ≤ 0) (htokens : env.maxTokens ≤ 0)
    {final : List Record} (hfinal : Prompts final)
    (hprefill : ∀ r ∈ final,
      env.prefill ((env.tokenizeRenderedChat (encode r.text)).take env.ctx) = true) :
    ∃ out, (∀ fuel, final.length < fuel →
        collectImatrix env fuel (encode (renderedPrompts 0 final)) = some out) ∧
      (out.tokenized = final.map (encode ·.text) ↔ ∀ r ∈ final, '\x00' ∉ r.text) :=
  collectLoop_rendered env hprompts htokens hfinal hprefill rfl [] rfl rfl
    (by simp)

/-- A tokenizer that takes bytes for tokens, no limits, and a prefill that never fails. -/
def byteEnv : Env UInt8 := ⟨id, fun _ => true, 0, 0, 0⟩

theorem collectImatrix_all_iff_two : ∃ out, (∀ fuel, 2 < fuel →
    collectImatrix byteEnv fuel (encode (renderedPrompts 0
      [⟨.code, "a = ====".toList⟩, ⟨.zh, "== b\nc".toList⟩])) = some out) ∧
    out.tokenized = [bytes "a = ====", bytes "== b\nc"] := by
  have hfinal : Prompts [⟨.code, "a = ====".toList⟩, ⟨.zh, "== b\nc".toList⟩] := by
    decide
  obtain ⟨out, hout, hall⟩ := collectImatrix_all_iff byteEnv le_rfl le_rfl hfinal fun _ _ => rfl
  refine ⟨out, hout, (hall.mpr (by decide)).trans ?_⟩
  decide

/-- A NUL in a prompt: the prompt is cut at it, and those behind are left out. -/
theorem collectImatrix_notAll :
    Prompts [⟨.code, ['a', '\x00', 'b']⟩, ⟨.zh, ['c']⟩] ∧
    (collectImatrix byteEnv 3 (encode (renderedPrompts 0
      [⟨.code, ['a', '\x00', 'b']⟩, ⟨.zh, ['c']⟩]))).map State.tokenized = some [[0x61]] := by
  decide

end Sf37.Engine.Dataset

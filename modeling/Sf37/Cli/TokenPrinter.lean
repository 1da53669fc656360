/-
Sf37.Cli.TokenPrinter — the terminal output of a generation: `token_printer`.

A tag that a piece may have begun is kept in `pending` and looked at again in front of the next
piece. What goes to the terminal is a list: the bytes of the text, and what the printer adds
(labels, colours and line breaks).

* `buffer_induction`: the turns of the loop, as an induction over the buffer.
* `processBuf_append`: the loop over a text is the loop over its front and then over what that
  left pending with the rest.
* `writeText_append`: two pieces are written like one.
* `processBuf_outside`: what is written and what is left pending are the bytes outside of the tags.
* `finish_pieces`: the output does not depend on the cut.
-/
import Sf37.Text.CString
import Sf37.Text.Outside

namespace Sf37.Cli

open Sf37.Text

/-! ## The printer -/

/-- What is written: a byte of the text, or what the printer adds. -/
inductive Written
  | text (c : UInt8)
  | added (b : Bytes)
  deriving DecidableEq

/-- `token_printer`; `out` is what was written to `fp`. -/
structure TokenPrinter where
  out : List Written
  formatThinking : Bool
  inThink : Bool
  colorOpen : Bool
  useColor : Bool
  lastOutputNewline : Bool
  thinkingLabelEmitted : Bool
  answerLabelEmitted : Bool
  pending : Bytes

/-- `fputs` and `fputc` of what is not text. -/
def TokenPrinter.put (p : TokenPrinter) (b : Bytes) : TokenPrinter :=
  { p with out := p.out ++ [.added b] }

/-- `bytes_has_prefix`. -/
def bytesHasPrefix (p front : Bytes) : Bool := decide (front <+: p)

/-- `bytes_is_partial_prefix`. -/
def bytesIsPartialPrefix (p front : Bytes) : Bool :=
  decide (p.length < front.length ∧ p <+: front)

/-- `token_printer_reset_color`. -/
def TokenPrinter.resetColor (p : TokenPrinter) : TokenPrinter :=
  if p.useColor && p.colorOpen then { p.put (bytes "\x1b[0m") with colorOpen := false } else p

/-- `token_printer_set_grey`. -/
def TokenPrinter.setGrey (p : TokenPrinter) : TokenPrinter :=
  if p.useColor && !p.colorOpen then { p.put (bytes "\x1b[90m") with colorOpen := true } else p

/-- `token_printer_emit_label`. -/
def TokenPrinter.emitLabel (p : TokenPrinter) (label : Bytes) : TokenPrinter :=
  let p := p.resetColor
  let p := if !p.lastOutputNewline then p.put (bytes "\n") else p
  { (p.put label).put (bytes "\n") with lastOutputNewline := true }

/-- `token_printer_maybe_emit_thinking_label`. -/
def TokenPrinter.maybeEmitThinkingLabel (p : TokenPrinter) : TokenPrinter :=
  if !p.formatThinking || p.thinkingLabelEmitted then p
  else { p.emitLabel (bytes "[thinking]") with thinkingLabelEmitted := true }

/-- `token_printer_maybe_emit_answer_label`. -/
def TokenPrinter.maybeEmitAnswerLabel (p : TokenPrinter) : TokenPrinter :=
  if !p.formatThinking || p.answerLabelEmitted then p
  else { p.emitLabel (bytes "[answer]") with answerLabelEmitted := true }

/-- `token_printer_write_char`. -/
def TokenPrinter.writeChar (p : TokenPrinter) (c : UInt8) : TokenPrinter :=
  let p :=
    if p.formatThinking && p.inThink then p.maybeEmitThinkingLabel.setGrey
    else (if p.formatThinking then p.maybeEmitAnswerLabel else p).resetColor
  { p with out := p.out ++ [.text c], lastOutputNewline := c == 0x0a }

def thinkOpen : Bytes := bytes "<think>"

def thinkClose : Bytes := bytes "</think>"

/-- `sizeof(p->pending)`. -/
def pendingSize : Nat := 16

/-- What the printer does at `</think>`. -/
def TokenPrinter.closeThink (p : TokenPrinter) : TokenPrinter :=
  let p :=
    if p.inThink && !p.lastOutputNewline then
      { p.resetColor.put (bytes "\n") with lastOutputNewline := true }
    else p
  { p with inThink := false }.resetColor

/-- The loop of `token_printer_process` over what is left of the buffer. A turn takes a byte or
more, so as many turns as bytes are enough. -/
def processLoop (finish : Bool) : Nat → TokenPrinter → Bytes → TokenPrinter
  | 0, p, _ => p
  | _ + 1, p, [] => p
  | fuel + 1, p, c :: t =>
    if bytesHasPrefix (c :: t) thinkOpen then
      processLoop finish fuel { p with inThink := true } ((c :: t).drop thinkOpen.length)
    else if bytesHasPrefix (c :: t) thinkClose then
      processLoop finish fuel p.closeThink ((c :: t).drop thinkClose.length)
    else if !finish && c == 0x3c && (bytesIsPartialPrefix (c :: t) thinkOpen ||
        bytesIsPartialPrefix (c :: t) thinkClose) then
      if (c :: t).length < pendingSize then { p with pending := c :: t } else p
    else processLoop finish fuel (p.writeChar c) t

/-- The loop over the whole buffer. -/
def processBuf (finish : Bool) (p : TokenPrinter) (buf : Bytes) : TokenPrinter :=
  processLoop finish buf.length p buf

/-- `token_printer_process`. -/
def TokenPrinter.process (p : TokenPrinter) (text : Bytes) (finish : Bool) : TokenPrinter :=
  if p.formatThinking then processBuf finish { p with pending := [] } (p.pending ++ text)
  else
    match text.getLast? with
    | none => p
    | some c => { p with out := p.out ++ text.map .text, lastOutputNewline := c == 0x0a }

/-- `token_printer_write_text`. -/
def TokenPrinter.writeText (p : TokenPrinter) (text : Bytes) : TokenPrinter :=
  p.process text false

/-- `token_printer_finish`. -/
def TokenPrinter.finish (p : TokenPrinter) : TokenPrinter := (p.process [] true).resetColor

/-- The printer `run_session_generate` starts with. -/
def TokenPrinter.start (formatThinking inThink useColor : Bool) : TokenPrinter where
  out := []
  formatThinking := formatThinking
  inThink := inThink
  colorOpen := false
  useColor := useColor
  lastOutputNewline := true
  thinkingLabelEmitted := false
  answerLabelEmitted := false
  pending := []

/-- The bytes on the terminal. -/
def TokenPrinter.output (p : TokenPrinter) : Bytes :=
  p.out.flatMap fun
    | .text c => [c]
    | .added b => b

/-- The bytes of the text among them. -/
def TokenPrinter.textOutput (p : TokenPrinter) : Bytes :=
  p.out.filterMap fun
    | .text c => some c
    | .added _ => none

/-- The two tags. -/
def thinkTags : List Bytes := [thinkOpen, thinkClose]

theorem tags_thinkTags : Tags (0x3c : UInt8) thinkTags where
  guarded := by decide
  same := by decide

/-! ## What the printer adds -/

/-- The printer added something, or changed what it knows. -/
structure Decorates (p q : TokenPrinter) : Prop where
  pending : q.pending = p.pending
  format : q.formatThinking = p.formatThinking
  text : q.textOutput = p.textOutput

theorem Decorates.refl (p : TokenPrinter) : Decorates p p := ⟨rfl, rfl, rfl⟩

theorem Decorates.trans {p q r : TokenPrinter} (h : Decorates p q) (h' : Decorates q r) :
    Decorates p r :=
  ⟨h'.pending.trans h.pending, h'.format.trans h.format, h'.text.trans h.text⟩

theorem decorates_put (p : TokenPrinter) (b : Bytes) : Decorates p (p.put b) where
  pending := rfl
  format := rfl
  text := by
    rw [TokenPrinter.textOutput, TokenPrinter.put, List.filterMap_append]
    exact List.append_nil _

theorem decorates_resetColor (p : TokenPrinter) : Decorates p p.resetColor := by
  unfold TokenPrinter.resetColor
  split
  · exact ⟨rfl, rfl, (decorates_put p _).text⟩
  · exact .refl p

theorem decorates_setGrey (p : TokenPrinter) : Decorates p p.setGrey := by
  unfold TokenPrinter.setGrey
  split
  · exact ⟨rfl, rfl, (decorates_put p _).text⟩
  · exact .refl p

theorem decorates_emitLabel (p : TokenPrinter) (label : Bytes) :
    Decorates p (p.emitLabel label) := by
  unfold TokenPrinter.emitLabel
  dsimp only
  have hline : Decorates p (if !p.resetColor.lastOutputNewline then
      p.resetColor.put (bytes "\n") else p.resetColor) := by
    split
    · exact (decorates_resetColor p).trans (decorates_put _ _)
    · exact decorates_resetColor p
  have hlabel := (hline.trans (decorates_put _ label)).trans (decorates_put _ (bytes "\n"))
  exact ⟨hlabel.pending, hlabel.format, hlabel.text⟩

theorem decorates_maybeEmitThinkingLabel (p : TokenPrinter) :
    Decorates p p.maybeEmitThinkingLabel := by
  unfold TokenPrinter.maybeEmitThinkingLabel
  split
  · exact .refl p
  · obtain ⟨hpending, hformat, htext⟩ := decorates_emitLabel p (bytes "[thinking]")
    exact ⟨hpending, hformat, htext⟩

theorem decorates_maybeEmitAnswerLabel (p : TokenPrinter) :
    Decorates p p.maybeEmitAnswerLabel := by
  unfold TokenPrinter.maybeEmitAnswerLabel
  split
  · exact .refl p
  · obtain ⟨hpending, hformat, htext⟩ := decorates_emitLabel p (bytes "[answer]")
    exact ⟨hpending, hformat, htext⟩

theorem decorates_closeThink (p : TokenPrinter) : Decorates p p.closeThink := by
  unfold TokenPrinter.closeThink
  dsimp only
  refine .trans ?_ (decorates_resetColor _)
  split
  · obtain ⟨hpending, hformat, htext⟩ :=
      (decorates_resetColor p).trans (decorates_put _ (bytes "\n"))
    exact ⟨hpending, hformat, htext⟩
  · exact ⟨rfl, rfl, rfl⟩

/-- A byte of the text is written once. -/
theorem writeChar_spec (p : TokenPrinter) (c : UInt8) :
    (p.writeChar c).pending = p.pending ∧ (p.writeChar c).formatThinking = p.formatThinking ∧
      (p.writeChar c).textOutput = p.textOutput ++ [c] := by
  have hlabel : Decorates p (if p.formatThinking && p.inThink then p.maybeEmitThinkingLabel.setGrey
      else (if p.formatThinking then p.maybeEmitAnswerLabel else p).resetColor) := by
    split
    · exact (decorates_maybeEmitThinkingLabel p).trans (decorates_setGrey _)
    · refine .trans ?_ (decorates_resetColor _)
      split
      · exact decorates_maybeEmitAnswerLabel p
      · exact .refl p
  refine ⟨hlabel.pending, hlabel.format, ?_⟩
  rw [← hlabel.text, TokenPrinter.textOutput, TokenPrinter.writeChar]
  dsimp only
  rw [List.filterMap_append]
  rfl

/-! ## The loop -/

theorem processLoop_nil (finish : Bool) (fuel : Nat) (p : TokenPrinter) :
    processLoop finish fuel p [] = p := by
  cases fuel <;> rfl

theorem processLoop_cons (finish : Bool) (fuel : Nat) (p : TokenPrinter) (c : UInt8) (t : Bytes) :
    processLoop finish (fuel + 1) p (c :: t) =
      if bytesHasPrefix (c :: t) thinkOpen then
        processLoop finish fuel { p with inThink := true } ((c :: t).drop thinkOpen.length)
      else if bytesHasPrefix (c :: t) thinkClose then
        processLoop finish fuel p.closeThink ((c :: t).drop thinkClose.length)
      else if !finish && c == 0x3c && (bytesIsPartialPrefix (c :: t) thinkOpen ||
          bytesIsPartialPrefix (c :: t) thinkClose) then
        if (c :: t).length < pendingSize then { p with pending := c :: t } else p
      else processLoop finish fuel (p.writeChar c) t := rfl

theorem length_thinkOpen : thinkOpen.length = 7 := by decide

theorem length_thinkClose : thinkClose.length = 8 := by decide

/-- Fuel beyond the end of the buffer changes nothing. -/
theorem processLoop_fuel (finish : Bool) {fuel fuel' : Nat} {buf : Bytes} (p : TokenPrinter)
    (h : buf.length ≤ fuel) (h' : buf.length ≤ fuel') :
    processLoop finish fuel p buf = processLoop finish fuel' p buf := by
  induction fuel generalizing fuel' p buf with
  | zero =>
    obtain rfl := List.length_eq_zero_iff.mp (Nat.le_zero.mp h)
    rw [processLoop_nil, processLoop_nil]
  | succ fuel ih =>
    cases buf with
    | nil => rw [processLoop_nil, processLoop_nil]
    | cons c t =>
      rw [List.length_cons] at h h'
      obtain ⟨fuel', rfl⟩ := Nat.exists_eq_succ_of_ne_zero (by omega : fuel' ≠ 0)
      have hdrop : ∀ n, 0 < n → ((c :: t).drop n).length ≤ t.length := by
        intro n hn
        rw [List.length_drop, List.length_cons]
        omega
      rw [processLoop_cons, processLoop_cons, length_thinkOpen, length_thinkClose]
      split
      · have hlen := hdrop 7 (by omega)
        exact ih _ (by omega) (by omega)
      split
      · have hlen := hdrop 8 (by omega)
        exact ih _ (by omega) (by omega)
      split
      · rfl
      · exact ih _ (by omega) (by omega)

theorem processBuf_nil (finish : Bool) (p : TokenPrinter) : processBuf finish p [] = p := rfl

/-- Behind a tag the loop goes on with what is left. -/
theorem processBuf_open (finish : Bool) (p : TokenPrinter) (t : Bytes) :
    processBuf finish p (thinkOpen ++ t) = processBuf finish { p with inThink := true } t := by
  obtain ⟨d, hd⟩ : ∃ d, thinkOpen = 0x3c :: d := ⟨thinkOpen.tail, by decide⟩
  have hfront : bytesHasPrefix (thinkOpen ++ t) thinkOpen = true :=
    decide_eq_true (List.prefix_append thinkOpen t)
  have hleft : (thinkOpen ++ t).drop thinkOpen.length = t := List.drop_left
  rw [hd, List.cons_append] at hfront hleft
  rw [processBuf, hd, List.cons_append, List.length_cons, processLoop_cons, hd, if_pos hfront,
    hleft]
  exact processLoop_fuel finish _ (by rw [List.length_append]; omega) le_rfl

theorem processBuf_close (finish : Bool) (p : TokenPrinter) (t : Bytes) :
    processBuf finish p (thinkClose ++ t) = processBuf finish p.closeThink t := by
  obtain ⟨d, hd⟩ : ∃ d, thinkClose = 0x3c :: d := ⟨thinkClose.tail, by decide⟩
  have hfront : bytesHasPrefix (thinkClose ++ t) thinkClose = true :=
    decide_eq_true (List.prefix_append thinkClose t)
  have hother : ¬ bytesHasPrefix (thinkClose ++ t) thinkOpen = true := by
    rw [bytesHasPrefix, decide_eq_true_eq]
    intro h
    rcases List.prefix_or_prefix_of_prefix h (List.prefix_append thinkClose t) with h' | h'
    · exact absurd h' (by decide)
    · exact absurd h' (by decide)
  have hleft : (thinkClose ++ t).drop thinkClose.length = t := List.drop_left
  rw [hd, List.cons_append] at hfront hother hleft
  rw [processBuf, hd, List.cons_append, List.length_cons, processLoop_cons, if_neg hother, hd,
    if_pos hfront, hleft]
  exact processLoop_fuel finish _ (by rw [List.length_append]; omega) le_rfl

/-- No tag begins at the front. -/
structure Untagged (s : Bytes) : Prop where
  notOpen : ¬ thinkOpen <+: s
  notClose : ¬ thinkClose <+: s

/-- The front may be that of a tag of which not all is there. -/
def Begun (s : Bytes) : Prop := s <+: thinkOpen ∨ s <+: thinkClose

instance (s : Bytes) : Decidable (Begun s) :=
  inferInstanceAs (Decidable (s <+: thinkOpen ∨ s <+: thinkClose))

/-- The tests of the loop at a piece that may have begun a tag. -/
theorem hold_iff {c : UInt8} {t : Bytes} (h : Untagged (c :: t)) :
    (c == 0x3c && (bytesIsPartialPrefix (c :: t) thinkOpen ||
      bytesIsPartialPrefix (c :: t) thinkClose)) = true ↔ Begun (c :: t) := by
  have hpart : ∀ {tag : Bytes}, ¬ tag <+: c :: t →
      (bytesIsPartialPrefix (c :: t) tag = true ↔ c :: t <+: tag) := by
    intro tag hlong
    rw [bytesIsPartialPrefix, decide_eq_true_eq]
    refine ⟨fun h => h.2, fun h => ⟨?_, h⟩⟩
    refine lt_of_le_of_ne h.length_le fun hlen => hlong ?_
    rw [h.eq_of_length hlen]
  have hfirst : ∀ {tag : Bytes}, Guarded 0x3c tag → c :: t <+: tag → c = 0x3c := by
    intro tag htag hpre
    obtain ⟨d, rfl⟩ := hpre
    exact Option.some.inj htag.head
  rw [Bool.and_eq_true, Bool.or_eq_true, beq_iff_eq, hpart h.notOpen, hpart h.notClose]
  refine ⟨fun hheld => hheld.2, fun hbegun => ⟨?_, hbegun⟩⟩
  rcases hbegun with hpre | hpre
  · exact hfirst (tags_thinkTags.guarded _ (by simp [thinkTags])) hpre
  · exact hfirst (tags_thinkTags.guarded _ (by simp [thinkTags])) hpre

/-- What is held back fits. -/
theorem Begun.fits {s : Bytes} (h : Begun s) : s.length < pendingSize := by
  rcases h with h | h
  · exact h.length_le.trans_lt (by decide)
  · exact h.length_le.trans_lt (by decide)

theorem processBuf_hold (p : TokenPrinter) {s : Bytes} (hs : s ≠ []) (h : Untagged s)
    (hbegun : Begun s) : processBuf false p s = { p with pending := s } := by
  obtain ⟨c, t, rfl⟩ := List.exists_cons_of_ne_nil hs
  rw [processBuf, List.length_cons, processLoop_cons, if_neg, if_neg, if_pos, if_pos hbegun.fits]
  · rw [Bool.and_assoc, Bool.not_false, Bool.true_and]
    exact (hold_iff h).mpr hbegun
  · exact fun hclose => h.notClose (of_decide_eq_true hclose)
  · exact fun hopen => h.notOpen (of_decide_eq_true hopen)

theorem processBuf_write (finish : Bool) (p : TokenPrinter) {c : UInt8} {t : Bytes}
    (h : Untagged (c :: t)) (hwrite : finish = true ∨ ¬ Begun (c :: t)) :
    processBuf finish p (c :: t) = processBuf finish (p.writeChar c) t := by
  rw [processBuf, List.length_cons, processLoop_cons, if_neg, if_neg, if_neg]
  · rfl
  · rw [Bool.and_assoc]
    rcases hwrite with rfl | hnot
    · simp
    · cases finish with
      | true => simp
      | false =>
        rw [Bool.not_false, Bool.true_and]
        exact fun hheld => hnot ((hold_iff h).mp hheld)
  · exact fun hclose => h.notClose (of_decide_eq_true hclose)
  · exact fun hopen => h.notOpen (of_decide_eq_true hopen)

/-- The turns of the loop, as an induction over the buffer. -/
theorem buffer_induction {motive : Bytes → Prop} (nil : motive [])
    (tagOpen : ∀ t, motive t → motive (thinkOpen ++ t))
    (tagClose : ∀ t, motive t → motive (thinkClose ++ t))
    (byte : ∀ c t, Untagged (c :: t) → motive t → motive (c :: t)) (s : Bytes) : motive s := by
  by_cases hopen : thinkOpen <+: s
  · obtain ⟨t, hs⟩ := hopen
    exact hs ▸ tagOpen t (buffer_induction nil tagOpen tagClose byte t)
  by_cases hclose : thinkClose <+: s
  · obtain ⟨t, hs⟩ := hclose
    exact hs ▸ tagClose t (buffer_induction nil tagOpen tagClose byte t)
  cases s with
  | nil => exact nil
  | cons c t => exact byte c t ⟨hopen, hclose⟩ (buffer_induction nil tagOpen tagClose byte t)
termination_by s.length
decreasing_by
  · rw [← hs, List.length_append, length_thinkOpen]
    omega
  · rw [← hs, List.length_append, length_thinkClose]
    omega
  · rw [List.length_cons]
    exact Nat.lt_succ_self _

/-! ## The cut of a text -/

/-- A byte that is written is written with more text behind it too. -/
theorem Untagged.append {s : Bytes} (h : Untagged s) (hbegun : ¬ Begun s) (b : Bytes) :
    Untagged (s ++ b) ∧ ¬ Begun (s ++ b) := by
  have hcut : ∀ {tag : Bytes}, ¬ tag <+: s → ¬ s <+: tag → ¬ tag <+: s ++ b := by
    intro tag hlong hpart htag
    rcases List.prefix_or_prefix_of_prefix htag (List.prefix_append s b) with hta | hat
    · exact hlong hta
    · exact hpart hat
  refine ⟨⟨hcut h.notOpen fun hs => hbegun (.inl hs), hcut h.notClose fun hs => hbegun (.inr hs)⟩,
    fun hs => hbegun ?_⟩
  exact hs.imp ((List.prefix_append s b).trans ·) ((List.prefix_append s b).trans ·)

theorem clear_pending {p : TokenPrinter} (h : p.pending = []) : { p with pending := [] } = p := by
  cases p
  cases h
  rfl

/-- The loop over a text is the loop over its front and then over what that left pending with the
rest. -/
theorem processBuf_append (a b : Bytes) {p : TokenPrinter} (hp : p.pending = []) :
    processBuf false { processBuf false p a with pending := [] }
      ((processBuf false p a).pending ++ b) = processBuf false p (a ++ b) := by
  induction a using buffer_induction generalizing p with
  | nil =>
    rw [processBuf_nil, hp, clear_pending hp]
  | tagOpen t ih =>
    rw [processBuf_open, List.append_assoc, processBuf_open]
    exact ih hp
  | tagClose t ih =>
    rw [processBuf_close, List.append_assoc, processBuf_close]
    exact ih ((decorates_closeThink p).pending.trans hp)
  | byte c t h ih =>
    by_cases hbegun : Begun (c :: t)
    · rw [processBuf_hold p (List.cons_ne_nil c t) h hbegun, clear_pending hp]
    · obtain ⟨h', hbegun'⟩ := h.append hbegun b
      have hwrite := processBuf_write false p (t := t ++ b) h' (.inr hbegun')
      rw [processBuf_write false p h (.inr hbegun), List.cons_append, hwrite]
      exact ih ((writeChar_spec p c).1.trans hp)

theorem processBuf_format (finish : Bool) (p : TokenPrinter) (s : Bytes) :
    (processBuf finish p s).formatThinking = p.formatThinking := by
  induction s using buffer_induction generalizing p with
  | nil => rfl
  | tagOpen t ih => rw [processBuf_open, ih]
  | tagClose t ih => rw [processBuf_close, ih, (decorates_closeThink p).format]
  | byte c t h ih =>
    by_cases hwrite : finish = true ∨ ¬ Begun (c :: t)
    · rw [processBuf_write finish p h hwrite, ih, (writeChar_spec p c).2.1]
    · obtain ⟨hfinish, hbegun⟩ := not_or.mp hwrite
      rw [Bool.eq_false_iff.mpr hfinish, processBuf_hold p (List.cons_ne_nil c t) h
        (not_not.mp hbegun)]

/-- With the thinking format a call is the loop over what is pending and the text. -/
theorem process_format {p : TokenPrinter} (h : p.formatThinking = true) (text : Bytes)
    (finish : Bool) :
    p.process text finish = processBuf finish { p with pending := [] } (p.pending ++ text) :=
  if_pos h

/-- Without it a call writes the text. -/
theorem process_plain {p : TokenPrinter} (h : p.formatThinking = false) (text : Bytes)
    (finish : Bool) :
    p.process text finish =
      match text.getLast? with
      | none => p
      | some c => { p with out := p.out ++ text.map .text, lastOutputNewline := c == 0x0a } :=
  if_neg (Bool.eq_false_iff.mp h)

/-- Two pieces are written like one. -/
theorem writeText_append (p : TokenPrinter) (a b : Bytes) :
    (p.writeText a).writeText b = p.writeText (a ++ b) := by
  unfold TokenPrinter.writeText
  cases hformat : p.formatThinking with
  | true =>
    have hleft := process_format hformat a false
    have hkept : (p.process a false).formatThinking = true := by
      rw [hleft, processBuf_format]
      exact hformat
    rw [process_format hkept, process_format hformat (a ++ b), hleft, ← List.append_assoc]
    exact processBuf_append _ b rfl
  | false =>
    rcases List.eq_nil_or_concat' a with rfl | ⟨a, c, rfl⟩
    · rw [process_plain hformat [], List.getLast?_nil, List.nil_append]
    have hleft : p.process (a ++ [c]) false =
        { p with out := p.out ++ (a ++ [c]).map .text, lastOutputNewline := c == 0x0a } := by
      rw [process_plain hformat, List.getLast?_append, List.getLast?_singleton, Option.some_or]
    have hkept : (p.process (a ++ [c]) false).formatThinking = false := by
      rw [hleft]
      exact hformat
    rcases List.eq_nil_or_concat' b with rfl | ⟨b, d, rfl⟩
    · rw [process_plain hkept [], List.getLast?_nil, List.append_nil]
    · rw [process_plain hkept, process_plain hformat (a ++ [c] ++ (b ++ [d])), hleft,
        ← List.append_assoc (a ++ [c]), List.getLast?_concat, List.getLast?_concat]
      simp only [List.map_append, List.append_assoc]

/-- The pieces are written like what they make up. -/
theorem foldl_writeText (pieces : List Bytes) {p : TokenPrinter} (hp : p.pending = []) :
    pieces.foldl TokenPrinter.writeText p = p.writeText pieces.flatten := by
  induction pieces using List.reverseRecOn with
  | nil =>
    unfold TokenPrinter.writeText TokenPrinter.process
    split
    · rw [hp, clear_pending hp]
      rfl
    · rfl
  | append_singleton pieces piece ih =>
    rw [List.foldl_append, ih, List.flatten_append, List.flatten_singleton]
    exact writeText_append p pieces.flatten piece

/-! ## The bytes outside of the tags -/

theorem Untagged.outside {c : UInt8} {t : Bytes} (h : Untagged (c :: t)) :
    outside thinkTags (c :: t) = c :: outside thinkTags t :=
  outside_cons fun n hn => by
    rcases List.mem_pair.mp hn with rfl | rfl
    · exact h.notOpen
    · exact h.notClose

/-- What is written and what is left pending are the bytes outside of the tags. -/
theorem processBuf_outside (finish : Bool) (s : Bytes) {p : TokenPrinter} (hp : p.pending = []) :
    (processBuf finish p s).textOutput ++ outside thinkTags (processBuf finish p s).pending =
      p.textOutput ++ outside thinkTags s := by
  induction s using buffer_induction generalizing p with
  | nil => rw [processBuf_nil, hp]
  | tagOpen t ih =>
    rw [processBuf_open, outside_tag tags_thinkTags (List.mem_pair.mpr (.inl rfl))]
    exact ih hp
  | tagClose t ih =>
    rw [processBuf_close, outside_tag tags_thinkTags (List.mem_pair.mpr (.inr rfl)),
      ← (decorates_closeThink p).text]
    exact ih ((decorates_closeThink p).pending.trans hp)
  | byte c t h ih =>
    by_cases hwrite : finish = true ∨ ¬ Begun (c :: t)
    · obtain ⟨hpending, -, htext⟩ := writeChar_spec p c
      rw [processBuf_write finish p h hwrite, ih (hpending.trans hp), htext, h.outside,
        List.append_assoc, List.singleton_append]
    · obtain ⟨hfinish, hbegun⟩ := not_or.mp hwrite
      rw [Bool.eq_false_iff.mpr hfinish, processBuf_hold p (List.cons_ne_nil c t) h
        (not_not.mp hbegun)]
      rfl

/-- At the end nothing is held back. -/
theorem processBuf_finish (s : Bytes) {p : TokenPrinter} (hp : p.pending = []) :
    (processBuf true p s).pending = [] := by
  induction s using buffer_induction generalizing p with
  | nil => exact hp
  | tagOpen t ih =>
    rw [processBuf_open]
    exact ih hp
  | tagClose t ih =>
    rw [processBuf_close]
    exact ih ((decorates_closeThink p).pending.trans hp)
  | byte c t h ih =>
    rw [processBuf_write true p h (.inl rfl)]
    exact ih ((writeChar_spec p c).1.trans hp)

/-- A text is written without its tags. -/
theorem finish_writeText {p : TokenPrinter} (hp : p.pending = [])
    (hformat : p.formatThinking = true) (s : Bytes) :
    (p.writeText s).finish.textOutput = p.textOutput ++ outside thinkTags s := by
  have hwrite : p.writeText s = processBuf false p s := by
    rw [TokenPrinter.writeText, process_format hformat, clear_pending hp, hp, List.nil_append]
  have hfinish : (p.writeText s).process [] true =
      processBuf true { p.writeText s with pending := [] } (p.writeText s).pending := by
    have hkept : (p.writeText s).formatThinking = true := by
      rw [hwrite, processBuf_format]
      exact hformat
    rw [process_format hkept, List.append_nil]
  have hall := processBuf_outside true (p.writeText s).pending
    (p := { p.writeText s with pending := [] }) rfl
  rw [processBuf_finish _ rfl, outside_nil, List.append_nil] at hall
  rw [TokenPrinter.finish, (decorates_resetColor _).text, hfinish, hall,
    ← processBuf_outside false s hp, ← hwrite]
  rfl

/-- The output does not depend on how the text is cut into pieces, and with the thinking format
each byte outside of the tags is written once, in order. -/
theorem finish_pieces (p : TokenPrinter) (hp : p.pending = []) (pieces : List Bytes) :
    (pieces.foldl TokenPrinter.writeText p).finish = (p.writeText pieces.flatten).finish ∧
      (p.formatThinking = true →
        (pieces.foldl TokenPrinter.writeText p).finish.textOutput =
          p.textOutput ++ outside thinkTags pieces.flatten) := by
  rw [foldl_writeText pieces hp]
  exact ⟨rfl, fun hformat => finish_writeText hp hformat pieces.flatten⟩

/-- A closing tag in three pieces. -/
theorem finish_pieces_tag :
    ([bytes "hm<", bytes "/thi", bytes "nk>x"].foldl TokenPrinter.writeText
        (.start true true false)).finish.textOutput = bytes "hmx" ∧
      ((TokenPrinter.start true true false).writeText (bytes "hm</think>x")).finish.output =
        bytes "[thinking]\nhm\n[answer]\nx" :=
  ⟨((finish_pieces (.start true true false) rfl [bytes "hm<", bytes "/thi", bytes "nk>x"]).2
    rfl).trans (by decide), by decide⟩

end Sf37.Cli

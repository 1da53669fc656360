/-
Sf37.Server.Markers — the tag strings the server looks for in generated text,
and the searches over them.

There are four tool-block openers: the official `<tool_call>`, the DSML form
with and without the leading bar, and the plain `<tool_calls>`. All of them,
and all their closers, start with `<` and contain no second `<`. That one fact
carries the streaming proofs: two openers never overlap, so the first opener
of a prefix stays the first opener of the text, and an opener cut off by the
end of a prefix starts at the last `<` of the prefix.
-/
import Sf37.Text.CString

namespace Sf37.Server

open Sf37.Text

/-! ## The tags -/

def thinkOpen : Bytes := bytes "<think>"
def thinkClose : Bytes := bytes "</think>"

def toolCallsStart : Bytes := bytes "<｜DSML｜tool_calls>"
def toolCallsEnd : Bytes := bytes "</｜DSML｜tool_calls>"
def invokeStart : Bytes := bytes "<｜DSML｜invoke"
def invokeEnd : Bytes := bytes "</｜DSML｜invoke>"
def paramStart : Bytes := bytes "<｜DSML｜parameter"
def paramEnd : Bytes := bytes "</｜DSML｜parameter>"
def toolCallsStartShort : Bytes := bytes "<DSML｜tool_calls>"
def toolCallsEndShort : Bytes := bytes "</DSML｜tool_calls>"
def invokeStartShort : Bytes := bytes "<DSML｜invoke"
def invokeEndShort : Bytes := bytes "</DSML｜invoke>"
def paramStartShort : Bytes := bytes "<DSML｜parameter"
def paramEndShort : Bytes := bytes "</DSML｜parameter>"
def toolCallStart : Bytes := bytes "<tool_call>"
def toolCallEnd : Bytes := bytes "</tool_call>"
def functionStart : Bytes := bytes "<function="
def functionEnd : Bytes := bytes "</function>"
def parameterStart : Bytes := bytes "<parameter="
def parameterEnd : Bytes := bytes "</parameter>"

/-- The openers `find_any_tool_start` searches for, in its order. -/
def toolStarts : List Bytes :=
  [toolCallStart, toolCallsStart, toolCallsStartShort, bytes "<tool_calls>"]

/-- The closers `find_any_tool_end` searches for, in its order. -/
def toolEnds : List Bytes :=
  [toolCallEnd, toolCallsEnd, toolCallsEndShort, bytes "</tool_calls>"]

/-! ## Searching -/

/-- `find_earliest2`, with pointers into one string as offsets. -/
def findEarliest2 : Option Nat → Option Nat → Option Nat
  | none, b => b
  | some a, none => some a
  | some a, some b => if a < b then some a else some b

/-- `find_any_tool_start`. -/
def findAnyToolStart (s : Bytes) : Option Nat :=
  toolStarts.foldl (fun best m => findEarliest2 best (strstr s m)) none

/-- `find_any_tool_end`. -/
def findAnyToolEnd (s : Bytes) : Option Nat :=
  toolEnds.foldl (fun best m => findEarliest2 best (strstr s m)) none

/-- The separator bytes `trim_tool_separator_ws` drops. -/
def isToolSeparatorWs (c : UInt8) : Bool :=
  c == 0x0a || c == 0x0d || c == 0x20 || c == 0x09

/-- `trim_tool_separator_ws`. -/
def trimToolSeparatorWs (text : Bytes) (start end_ : Nat) : Nat :=
  retreat isToolSeparatorWs text start end_

/-! ## The earliest of several searches -/

theorem findEarliest2_isFirst {P Q : Nat → Prop} {a b : Option Nat} (ha : IsFirst P a)
    (hb : IsFirst Q b) : IsFirst (fun i => P i ∨ Q i) (findEarliest2 a b) := by
  cases a with
  | none => exact hb.congr fun i => ⟨Or.inr, fun h => h.resolve_left (ha i)⟩
  | some i =>
    cases b with
    | none => exact ha.congr fun j => ⟨Or.inl, fun h => h.resolve_right (hb j)⟩
    | some j =>
      obtain ⟨hi, himin⟩ := ha
      obtain ⟨hj, hjmin⟩ := hb
      simp only [findEarliest2]
      split
      · exact ⟨Or.inl hi, fun k hk hpq => hpq.elim (himin k hk) (hjmin k (by omega))⟩
      · exact ⟨Or.inr hj, fun k hk hpq => hpq.elim (himin k (by omega)) (hjmin k hk)⟩

/-- Folding `find_earliest2` over a table of patterns finds the first offset
where any of them starts. -/
theorem foldl_findEarliest2_isFirst (s : Bytes) : ∀ (ms : List Bytes) (P : Nat → Prop)
    (acc : Option Nat), (∀ m ∈ ms, m ≠ []) → IsFirst P acc →
    IsFirst (fun i => P i ∨ ∃ m ∈ ms, OccursAt m s i)
      (ms.foldl (fun best m => findEarliest2 best (strstr s m)) acc)
  | [], P, acc, _, h => h.congr fun i => by simp
  | m :: ms, P, acc, hne, h => by
      have hm : IsFirst (OccursAt m s) (strstr s m) := firstOcc_isFirst (hne m (by simp)) s
      have ih := foldl_findEarliest2_isFirst s ms _ _ (fun n hn => hne n (by simp [hn]))
        (findEarliest2_isFirst h hm)
      exact ih.congr fun i => by simp [or_assoc]

/-- A tool opener starts at offset `i`. -/
def ToolStartAt (s : Bytes) (i : Nat) : Prop := ∃ m ∈ toolStarts, OccursAt m s i

instance (s : Bytes) (i : Nat) : Decidable (ToolStartAt s i) :=
  inferInstanceAs (Decidable (∃ m ∈ toolStarts, OccursAt m s i))

/-- Every opener begins with `<`, holds no other `<`, and is short. -/
theorem toolStarts_guarded : ∀ m ∈ toolStarts, Guarded 0x3c m ∧ m.length ≤ 22 := by
  decide

theorem findAnyToolStart_isFirst (s : Bytes) : IsFirst (ToolStartAt s) (findAnyToolStart s) :=
  (foldl_findEarliest2_isFirst s toolStarts (fun _ => False) none
    (fun m hm => (toolStarts_guarded m hm).1.ne_nil) (fun _ h => h)).congr
    fun i => by simp [ToolStartAt]

theorem findAnyToolStart_eq_none_iff {s : Bytes} :
    findAnyToolStart s = none ↔ ∀ i, ¬ ToolStartAt s i := by
  constructor
  · intro h; have := findAnyToolStart_isFirst s; rwa [h] at this
  · intro h
    have hnone : IsFirst (ToolStartAt s) none := h
    exact (findAnyToolStart_isFirst s).unique hnone

theorem findAnyToolStart_eq_some_iff {s : Bytes} {i : Nat} :
    findAnyToolStart s = some i ↔
      ToolStartAt s i ∧ ∀ j, j < i → ¬ ToolStartAt s j := by
  constructor
  · intro h; have := findAnyToolStart_isFirst s; rwa [h] at this
  · intro h
    have hsome : IsFirst (ToolStartAt s) (some i) := h
    exact (findAnyToolStart_isFirst s).unique hsome

theorem toolStartAt_drop {s : Bytes} {k i : Nat} :
    ToolStartAt (s.drop k) i ↔ ToolStartAt s (k + i) := by
  simp only [ToolStartAt, occursAt_drop]

/-- A tool opener lies inside the text and opens with `<`. -/
theorem ToolStartAt.bounds {s : Bytes} {i : Nat} (h : ToolStartAt s i) :
    i < s.length ∧ s[i]? = some 0x3c := by
  obtain ⟨m, hm, hocc⟩ := h
  have hg := (toolStarts_guarded m hm).1
  have hlen := hocc.add_length_le hg.ne_nil
  have hpos := List.length_pos_iff.mpr hg.ne_nil
  exact ⟨by omega, hg.getElem?_start hocc⟩

/-- An opener of a prefix is an opener of the text. -/
theorem ToolStartAt.of_take {s : Bytes} {p i : Nat} (h : ToolStartAt (s.take p) i) :
    ToolStartAt s i := by
  obtain ⟨m, hm, hocc⟩ := h
  exact ⟨m, hm, ((occursAt_take (toolStarts_guarded m hm).1.ne_nil).mp hocc).1⟩

/-- Two openers of one text do not overlap. -/
theorem ToolStartAt.disjoint {s m : Bytes} {i j : Nat} (hm : m ∈ toolStarts)
    (hi : OccursAt m s i) (hj : ToolStartAt s j) (hij : i < j) : i + m.length ≤ j := by
  obtain ⟨n, hn, hocc⟩ := hj
  exact (toolStarts_guarded m hm).1.disjoint (toolStarts_guarded n hn).1 hi hocc hij

/-- The first opener at or after `e` in a prefix of the text is the first one
at or after any earlier offset with no opener in between. -/
theorem findAnyToolStart_take {T : Bytes} {p S e t : Nat} (hSe : S ≤ e)
    (hclear : ∀ i, S ≤ i → ToolStartAt T i → e ≤ i)
    (h : findAnyToolStart ((T.take p).drop e) = some t) :
    findAnyToolStart (T.drop S) = some (e + t - S) := by
  obtain ⟨hat, hmin⟩ := findAnyToolStart_eq_some_iff.mp h
  rw [toolStartAt_drop] at hat
  refine findAnyToolStart_eq_some_iff.mpr ⟨?_, fun j hj hbad => ?_⟩
  · rw [toolStartAt_drop, show S + (e + t - S) = e + t by omega]
    exact hat.of_take
  · rw [toolStartAt_drop] at hbad
    have hej := hclear _ (by omega) hbad
    apply hmin (S + j - e) (by omega)
    rw [toolStartAt_drop, show e + (S + j - e) = S + j by omega]
    -- the earlier opener ends before the later one starts, so it is in the prefix too
    obtain ⟨m, hm, hocc⟩ := hbad
    have hne := (toolStarts_guarded m hm).1.ne_nil
    have hend := ToolStartAt.disjoint hm hocc hat.of_take (by omega)
    have hin := hat.bounds.1
    rw [List.length_take] at hin
    exact ⟨m, hm, (occursAt_take hne).mpr ⟨hocc, by omega⟩⟩

end Sf37.Server

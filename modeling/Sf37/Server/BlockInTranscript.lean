/-
Sf37.Server.BlockInTranscript — is a remembered block found again in the stored
transcript?

The parser and the scan of the transcript decide on their own where a block begins
and ends, and a block is looked up by its exact bytes. The parser's block runs over
several adjacent official calls and the white space behind them and begins at the
opener; the scan's block ends at the first closer and begins with two line breaks
when they stand before the opener.

* `oneElement_iff`: when the parser's block is one element, in terms of the generated text.
* `scanFinds_iff`: when the scan comes upon an element, in terms of the text in front of it.
* `rememberedBlock_written_iff`: every id is written, once and with its block,
  exactly when the ids fit into the memory, the block of the generated text is one
  element and the transcript is read up to it.
-/
import Sf37.Server.ToolReplay
import Sf37.Server.BlockReparse

namespace Sf37.Server

open Sf37.Text

/-! ## Assigned ids -/

/-- What `assign_tool_call_ids` draws for the calls of a parse, which have no ids:
one for each call, until it is neither among the ones before it nor remembered. -/
structure AssignedIds (s : ReplayState) (calls : ToolCalls) (ids : List Bytes) : Prop where
  length : ids.length = calls.v.length
  nonempty : ∀ id ∈ ids, id ≠ []
  nodup : ids.Nodup
  fresh : ∀ id ∈ ids, toolMemoryHasId s id = false

/-! ## Writing each id -/

/-- The file has one entry for each of the ids, with this text. -/
def WritesEach (ids : List Bytes) (raw : Bytes) (w : ToolMapWritten) : Prop :=
  w.ok = true ∧ ∀ id ∈ ids, (toolMapRecords w.file).filter (·.1 = id) = [(id, raw)]

instance (ids : List Bytes) (raw : Bytes) (w : ToolMapWritten) :
    Decidable (WritesEach ids raw w) := inferInstanceAs (Decidable (_ ∧ _))

/-- With unique ids, filtering by an id leaves its entry. -/
theorem filter_id_iff {recs : List (Bytes × Bytes)} (hnd : (recs.map Prod.fst).Nodup)
    {id raw : Bytes} : recs.filter (·.1 = id) = [(id, raw)] ↔ (id, raw) ∈ recs := by
  constructor
  · intro h
    exact List.mem_of_mem_filter (h ▸ List.mem_singleton_self _)
  · intro h
    refine List.perm_singleton.mp ((List.perm_ext_iff_of_nodup
      (List.Nodup.filter _ (List.Nodup.of_map _ hnd)) (List.nodup_singleton _)).mpr fun q => ?_)
    rw [List.mem_filter, List.mem_singleton, decide_eq_true_iff]
    constructor
    · rintro ⟨hq, rfl⟩
      exact List.inj_on_of_nodup_map hnd hq h rfl
    · rintro rfl
      exact ⟨h, rfl⟩

/-- A write has an entry for each of some ids exactly when all of them are
remembered under the text and the scan comes upon it. -/
theorem writesEach_iff {s : ReplayState} (h : s.Ok) (hon : s.disableExactDsmlToolReplay = false)
    {ids : List Bytes} (hsome : ids ≠ []) {raw : Bytes} (X : Bytes) :
    WritesEach ids raw (kvToolMapWrite s X) ↔
      (∀ id ∈ ids, (id, raw) ∈ s.toolMem.pairs) ∧ IsBlock raw ∧ ScanFinds raw X := by
  obtain ⟨-, hok, recs, hfile, hlen, hfits, hnd, hmem⟩ :=
    kvToolMapWrite_spec h.mem h.maxBytes hon X
  have hscan := mem_toolBlocks_iff (u := raw) (X.length + 1) X (Nat.lt_succ_self _)
  rw [WritesEach, hok, hfile, toolMapRecords_file hlen hfits]
  simp only [true_and, filter_id_iff hnd, hmem, hscan]
  constructor
  · intro hall
    obtain ⟨id, hid⟩ := List.exists_mem_of_ne_nil ids hsome
    exact ⟨fun id hid => (hall id hid).1, (hall id hid).2⟩
  · intro ⟨hall, hfound⟩ id hid
    exact ⟨hall id hid, hfound⟩

/-! ## The block in the generated text -/

theorem OfficialBlocks.ends {p : Bytes} {cs : List ParsedCall} {rest : Bytes}
    (h : OfficialBlocks p cs rest) : NoSpace rest ∧ startsWith rest toolCallStart = false := by
  induction h with
  | last w hblock hw hns hstart => exact ⟨hns, hstart⟩
  | more w hblock hw hmore ih => exact ih

/-- Behind its block a text goes on with nothing that would be read with it: neither
white space nor another call behind an official one. -/
def EndsBlock : BlockForm → Bytes → Prop
  | .official, rest => NoSpace rest ∧ startsWith rest toolCallStart = false
  | .dsml _, _ => True

theorem ToolBlock.ends {form : BlockForm} {p : Bytes} {cs : List ParsedCall} {rest : Bytes}
    (h : ToolBlock form p cs rest) : EndsBlock form rest := by
  cases form with
  | official => exact OfficialBlocks.ends h
  | dsml style => trivial

/-- A block is read whatever stands behind it, as long as that is not read with it. -/
theorem ToolBlock.extend {form : BlockForm} {u : Bytes} {cs : List ParsedCall}
    (h : ToolBlock form u cs []) {rest : Bytes} (hrest : EndsBlock form rest) :
    ToolBlock form (u ++ rest) cs rest := by
  cases form with
  | official =>
    obtain ⟨v, hv, hlocal⟩ := OfficialBlocks.local h
    rw [List.append_nil] at hv
    rw [hv]
    exact hlocal rest hrest.1 hrest.2
  | dsml style =>
    obtain ⟨a, q, rfl, hfirst, hinv⟩ := h
    obtain ⟨v, hv, hlocal⟩ := hinv.local
    rw [List.append_nil] at hv
    rw [hv]
    exact ⟨a, v ++ rest, by simp only [List.append_assoc], hfirst, hlocal rest⟩

/-- The block of a generated text is one element: where the search for a block ends, the text
goes on with an opener and all up to the first closing tag that belongs to it, this is read as
calls, and nothing behind it is read with it. -/
structure OneElement (req : Bool) (T A u B : Bytes) : Prop where
  text : T = A ++ u ++ B
  element : IsBlock u
  place : ∃ k d form, toolSearchStart req T = some k ∧ toolBlockStart (T.drop k) = some (d, form) ∧
    A.length = k + d ∧ (∃ calls, ToolBlock form u calls []) ∧ EndsBlock form B

/-- A parser's raw block is an element exactly when the text's block is one. -/
theorem oneElement_iff {T : Bytes} {req : Bool} {think : ThinkMode} {m : ParsedMessage}
    {raw : Bytes} (h : parseGeneratedMessageEx T req think = some m)
    (hraw : m.rawDsml = some raw) {u : Bytes} :
    (∃ A B, OneElement req T A u B) ↔ u = raw ∧ IsBlock raw := by
  obtain ⟨k, d, form, rest, hk, hd, hle, htext, hblock⟩ := parse_rawDsml_place h hraw
  have hknown := (chosenAt_of_search hd).1
  constructor
  · rintro ⟨A, B, hT, helement, k', d', form', hk', hd', hA, ⟨calls, hcalls⟩, hends⟩
    obtain rfl : k = k' := Option.some.inj (hk.symm.trans hk')
    obtain ⟨rfl, rfl⟩ : d = d' ∧ form = form' := by
      simpa using hd.symm.trans hd'
    have hu : T.drop (k + d) = u ++ B := by
      rw [hT, ← hA, List.append_assoc, List.drop_left]
    rw [← htext, hu] at hblock
    have hread := (readToolBlock_iff hknown).mpr hblock
    have hown := (readToolBlock_iff hknown).mpr (hcalls.extend hends)
    have hrest : B = rest := congrArg Prod.snd (Option.some.inj (hown.symm.trans hread))
    rw [hrest] at hu
    obtain rfl : u = raw := List.append_cancel_right (hu.symm.trans htext)
    exact ⟨rfl, helement⟩
  · rintro ⟨rfl, helement⟩
    obtain ⟨v, hv, hself⟩ := hblock.local
    obtain rfl := List.append_cancel_right hv
    refine ⟨T.take (k + d), rest, ?_, helement, k, d, form, hk, hd, ?_, ⟨_, hself⟩, hblock.ends⟩
    · rw [List.append_assoc, ← htext, List.take_append_drop]
    · rw [List.length_take]
      omega

/-! ## What stands in front of it -/

/-- The text in front of a place is read up to it, when `rest` stands behind: text in which no
element begins, and whole elements. -/
inductive ReadUpTo (rest : Bytes) : Bytes → Prop where
  | text (a : Bytes) (hnone : ∀ i < a.length, ¬ BlockStarts (a ++ rest) i) : ReadUpTo rest a
  | element (a v b : Bytes) (hv : IsBlock v)
      (hnone : ∀ i < a.length, ¬ BlockStarts (a ++ v ++ b ++ rest) i) (h : ReadUpTo rest b) :
      ReadUpTo rest (a ++ v ++ b)

/-- An element stands in a text where what is in front of it is read up to it. -/
def StandsIn (u X : Bytes) : Prop := ∃ F R, X = F ++ u ++ R ∧ ReadUpTo (u ++ R) F

/-- The scan comes upon the elements that stand so. -/
theorem scanFinds_iff {u X : Bytes} : ScanFinds u X ↔ StandsIn u X := by
  constructor
  · intro h
    induction h with
    | here a b hnone => exact ⟨a, b, rfl, .text a (by simpa only [List.append_assoc] using hnone)⟩
    | later a v b hv hnone _ ih =>
      obtain ⟨F, R, rfl, hF⟩ := ih
      refine ⟨a ++ v ++ F, R, by simp only [List.append_assoc], .element a v F hv ?_ hF⟩
      simpa only [List.append_assoc] using hnone
  · rintro ⟨F, R, rfl, hF⟩
    induction hF with
    | text a hnone => exact .here a R (by simpa only [List.append_assoc] using hnone)
    | element a v b hv hnone _ ih =>
      have hlater := ScanFinds.later a v (b ++ u ++ R) hv
        (by simpa only [List.append_assoc] using hnone) ih
      simpa only [List.append_assoc] using hlater

/-- A raw block is not empty. -/
theorem rawDsml_ne_nil {T : Bytes} {req : Bool} {think : ThinkMode} {m : ParsedMessage}
    {raw : Bytes} (h : parseGeneratedMessageEx T req think = some m)
    (hraw : m.rawDsml = some raw) : raw ≠ [] := by
  obtain ⟨-, form, -, -, -, -, hstart⟩ := parse_rawDsml h hraw
  rintro rfl
  have hnone : toolBlockStart [] = none := by decide
  rw [hnone] at hstart
  cases hstart

/-- The remembered block of a generated text `T` is written to the map of a transcript that
contains `T`, under each of its ids, exactly when exact replay is on, the ids fit into the memory
by themselves, the block of `T` is one element, and the transcript is read up to this element. -/
theorem rememberedBlock_written_iff {T : Bytes} {req : Bool} {think : ThinkMode}
    {m : ParsedMessage} {raw : Bytes} (hparse : parseGeneratedMessageEx T req think = some m)
    (hraw : m.rawDsml = some raw) (hcalls : m.calls ≠ []) {s : ReplayState}
    (hs : ReplayReachable s) {ids : List Bytes} (hids : AssignedIds s m.toolCalls ids)
    (P S : Bytes) :
    WritesEach ids raw (kvToolMapWrite (toolMemoryRemember s (m.toolCalls.withIds ids))
        (P ++ T ++ S)) ↔
      s.disableExactDsmlToolReplay = false ∧ ∃ A u B, OneElement req T A u B ∧
        FitsLimits s.toolMem ids u ∧ StandsIn u (P ++ T ++ S) := by
  have hsome : ids ≠ [] := by
    rintro rfl
    have hlen := hids.length
    rw [ParsedMessage.toolCalls, List.length_map] at hlen
    exact hcalls (List.length_eq_zero_iff.mp hlen.symm)
  have hne := rawDsml_ne_nil hparse hraw
  have hk := toolMemoryRemember_ok hs.ok (m.toolCalls.withIds ids)
  cases hon : s.disableExactDsmlToolReplay with
  | true =>
    -- nothing is written
    simp only [Bool.true_eq_false, false_and, iff_false]
    rw [kvToolMapWrite_off (hk.replay.trans hon)]
    rintro ⟨-, hall⟩
    obtain ⟨id, hid⟩ := List.exists_mem_of_ne_nil ids hsome
    have hempty := hall id hid
    have : toolMapRecords [] = [] := by decide
    rw [this] at hempty
    cases hempty
  | false =>
    have hraw' : (m.toolCalls.withIds ids).rawDsml = some raw := hraw
    have heq := toolMemoryRemember_eq hraw' hne hon
    have hmap : (m.toolCalls.withIds ids).v.map (·.id) = ids := map_id_zipWith _ _ hids.length
    rw [writesEach_iff hk.ok (hk.replay.trans hon) hsome, heq, hmap,
      rememberLoop_all_iff hs.ok.mem hne hsome hids.nonempty hids.nodup, scanFinds_iff]
    constructor
    · rintro ⟨hfits, helement, hstands⟩
      obtain ⟨A, B, hone⟩ := (oneElement_iff hparse hraw).mpr ⟨rfl, helement⟩
      exact ⟨rfl, A, raw, B, hone, hfits, hstands⟩
    · rintro ⟨-, A, u, B, hone, hfits, hstands⟩
      obtain ⟨rfl, helement⟩ := (oneElement_iff hparse hraw).mp ⟨A, B, hone⟩
      exact ⟨hfits, helement, hstands⟩

/-- One official call behind a closed one in the thinking, stored behind a line of text. -/
theorem rememberedBlock_written_iff_found :
    let raw := bytes "<tool_call>\n<function=f>\n</function>\n</tool_call>"
    let T := bytes "<think>Say <tool_call>x</tool_call>?</think>\n" ++ raw
    let m : ParsedMessage :=
      { content := [], reasoning := some (bytes "Say <tool_call>x</tool_call>?")
        calls := [⟨bytes "f", []⟩], rawDsml := some raw }
    let s : ReplayState := { toolMem := { maxEntries := 100000 } }
    let ids := [bytes "call_1"]
    WritesEach ids raw (kvToolMapWrite (toolMemoryRemember s (m.toolCalls.withIds ids))
      (bytes "user: go\n\n" ++ T ++ bytes "\n")) ∧
      ∃ A u B, OneElement true T A u B ∧ FitsLimits s.toolMem ids u ∧
        StandsIn u (bytes "user: go\n\n" ++ T ++ bytes "\n") := by
  intro raw T m s ids
  have hparse : parseGeneratedMessageEx T true .enabled = some m := by decide
  have hids : AssignedIds s m.toolCalls ids := ⟨rfl, by decide, by decide, by decide⟩
  have hwritten : WritesEach ids raw (kvToolMapWrite
      (toolMemoryRemember s (m.toolCalls.withIds ids)) (bytes "user: go\n\n" ++ T ++ bytes "\n")) := by
    decide +kernel
  have hiff := rememberedBlock_written_iff hparse rfl (by decide) (ReplayReachable.start 100000 false)
    hids (bytes "user: go\n\n") (bytes "\n")
  exact ⟨hwritten, (hiff.mp hwritten).2⟩

/-- An official call behind an empty line: the scan's block begins with the line
breaks, the remembered one does not, and nothing is written. -/
theorem rememberedBlock_not_written :
    let T := bytes "Looking.\n\n<tool_call>\n<function=f>\n</function>\n</tool_call>"
    let raw := bytes "<tool_call>\n<function=f>\n</function>\n</tool_call>"
    let s : ReplayState := { toolMem := { maxEntries := 100000 } }
    let ids := [bytes "call_1"]
    ∃ m, parseGeneratedMessageEx T false .none = some m ∧ m.rawDsml = some raw ∧
      m.calls.length = 1 ∧
      (kvToolMapWrite (toolMemoryRemember s (m.toolCalls.withIds ids)) T).file = [] ∧
      ¬ WritesEach ids raw
        (kvToolMapWrite (toolMemoryRemember s (m.toolCalls.withIds ids)) T) := by
  let m : ParsedMessage :=
    { content := bytes "Looking."
      reasoning := some []
      calls := [⟨bytes "f", []⟩]
      rawDsml := some (bytes "<tool_call>\n<function=f>\n</function>\n</tool_call>") }
  refine ⟨m, ?_⟩
  decide

end Sf37.Server

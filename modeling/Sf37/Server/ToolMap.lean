/-
Sf37.Server.ToolMap — the map of call ids to tool blocks that is stored behind a
transcript, and the scan of the transcript that decides what goes into it.

`find_next_dsml_tool_block` finds the next block of a transcript with a table of
its own. The measuring and the writing walk a transcript from block to block with
it, in one loop here, and visit each block of the memory once. A file is its bytes,
and writing to it does not fail.

* `mem_toolBlocks_iff`: which texts a scan of a transcript comes upon.
* `kvToolMapScan_eq`: the loop visits the blocks of the memory that are such texts.
-/
import Sf37.Server.ToolMemory

namespace Sf37.Server

open Sf37.Text Sf37.Store

/-! ## Blocks of a transcript -/

/-- The table of `find_next_dsml_tool_block`. -/
def blockForms : List (Bytes × Bytes) :=
  [(bytes "\n\n" ++ toolCallsStart, toolCallsEnd),
   (toolCallsStart, toolCallsEnd),
   (bytes "\n\n" ++ toolCallsStartShort, toolCallsEndShort),
   (toolCallsStartShort, toolCallsEndShort),
   (bytes "\n\n<tool_calls>", bytes "</tool_calls>"),
   (bytes "<tool_calls>", bytes "</tool_calls>"),
   (bytes "\n\n<tool_call>", bytes "</tool_call>"),
   (bytes "<tool_call>", bytes "</tool_call>")]

/-- One turn over the table: the best block so far, as its start and end. -/
def findNextTurn (p : Bytes) (best : Option (Nat × Nat)) (form : Bytes × Bytes) :
    Option (Nat × Nat) :=
  match strstr p form.1 with
  | none => best
  | some s =>
      if best.any (fun b => decide (b.1 ≤ s)) then best
      else
        match strstr (p.drop s) form.2 with
        | none => best
        | some e => some (s, s + e + form.2.length)

/-- `find_next_dsml_tool_block`. -/
def findNextDsmlToolBlock (p : Bytes) : Option (Nat × Nat) :=
  blockForms.foldl (findNextTurn p) none

/-- `b->seen = scan` -/
def toolMemoryMarkSeen (m : ToolMemory) (b : ToolMemoryBlock) (scan : Nat) : ToolMemory :=
  { m with blocks := update (·.dsml) b.dsml (fun b => { b with seen := scan }) m.blocks }

/-- The walk of `kv_tool_map_measure_locked` and `kv_tool_map_write` over a
transcript. `visit` is what each does with a block of the memory that this scan has
not seen; it fails with `none`. -/
def kvToolMapScan {σ : Type} (scan : Nat) (visit : ToolMemoryBlock → σ → Option σ) :
    Nat → Bytes → ToolMemory → σ → ToolMemory × Option σ
  | 0, _, m, acc => (m, some acc)
  | fuel + 1, p, m, acc =>
      match findNextDsmlToolBlock p with
      | none => (m, some acc)
      | some (start, stop) =>
          match toolMemoryFindBlock m (slice p start stop) with
          | none => kvToolMapScan scan visit fuel (p.drop stop) m acc
          | some b =>
              if b.seen = scan then kvToolMapScan scan visit fuel (p.drop stop) m acc
              else
                let m := toolMemoryMarkSeen m b scan
                match visit b acc with
                | none => (m, none)
                | some acc => kvToolMapScan scan visit fuel (p.drop stop) m acc

/-! ## Measuring and writing -/

/-- `UINT32_MAX` -/
def uint32Max : Nat := 2 ^ 32 - 1

/-- `UINT64_MAX` -/
def uint64Max : Nat := 2 ^ 64 - 1

/-- `KV_TOOL_MAP_HEADER` -/
def kvToolMapHeaderBytes : Nat := 8

/-- The chain loop of `kv_tool_map_measure_locked`, on a count and a size. -/
def measureChain (dsmlLen : Nat) : List Bytes → Nat × Nat → Option (Nat × Nat)
  | [], acc => some acc
  | id :: chain, (count, bytes) =>
      if uint32Max < id.length ∨ uint32Max < dsmlLen then measureChain dsmlLen chain (count, bytes)
      else if count = uint32Max then none
      else if uint64Max - bytes < 8 ∨ uint64Max - bytes - 8 < id.length ∨
          uint64Max - bytes - 8 - id.length < dsmlLen then none
      else measureChain dsmlLen chain (count + 1, bytes + (8 + id.length + dsmlLen))

/-- `kv_tool_map_measure_locked`. -/
def kvToolMapMeasureLocked (m : ToolMemory) (text : Bytes) : ToolMemory × Option (Nat × Nat) :=
  let scan := m.scanClock + 1
  let r := kvToolMapScan scan (fun b acc => measureChain b.dsml.length b.entries acc)
    (text.length + 1) text { m with scanClock := scan } (0, kvToolMapHeaderBytes)
  (r.1, r.2.map fun (count, bytes) => (count, if count = 0 then 0 else bytes))

/-- `sf37_kvstore_le_put32`. -/
def lePut32 (v : Nat) : Bytes :=
  [UInt8.ofNat v, UInt8.ofNat (v >>> 8), UInt8.ofNat (v >>> 16), UInt8.ofNat (v >>> 24)]

/-- `sf37_kvstore_le_get32`. -/
def leGet32 (p : Bytes) : Nat :=
  (p.getD 0 0).toNat ||| (p.getD 1 0).toNat <<< 8 ||| (p.getD 2 0).toNat <<< 16 |||
    (p.getD 3 0).toNat <<< 24

/-- One entry of a map: two lengths, the id and the text. -/
def kvToolMapRecord (id dsml : Bytes) : Bytes :=
  lePut32 id.length ++ lePut32 dsml.length ++ id ++ dsml

/-- The chain loop of `kv_tool_map_write`. -/
def writeChain (dsml : Bytes) : List Bytes → Bytes → Bytes
  | [], fp => fp
  | id :: chain, fp =>
      if uint32Max < id.length ∨ uint32Max < dsml.length then writeChain dsml chain fp
      else writeChain dsml chain (fp ++ kvToolMapRecord id dsml)

/-- The first bytes of a map: magic, version and number of entries. -/
def kvToolMapHeader (count : Nat) : Bytes := bytes "KTM" ++ [1] ++ lePut32 count

/-- What `kv_tool_map_write` returns, the server state and the file included. -/
structure ToolMapWritten where
  state : ReplayState
  ok : Bool
  file : Bytes := []
  writtenBytes : Nat := 0
  deriving DecidableEq, Repr

/-- `kv_tool_map_write`. -/
def kvToolMapWrite (s : ReplayState) (text : Bytes) : ToolMapWritten :=
  if s.disableExactDsmlToolReplay ∨ text = [] then { state := s, ok := true }
  else
    match kvToolMapMeasureLocked s.toolMem text with
    | (m, none) => { state := { s with toolMem := m }, ok := false }
    | (m, some (count, bytes)) =>
        if count = 0 then { state := { s with toolMem := m }, ok := true }
        else
          let scan := m.scanClock + 1
          let r := kvToolMapScan scan (fun b fp => some (writeChain b.dsml b.entries fp))
            (text.length + 1) text { m with scanClock := scan } (kvToolMapHeader count)
          { state := { s with toolMem := r.1 }
            ok := true
            file := r.2.getD []
            writtenBytes := bytes }

/-! ## What the scan comes upon -/

/-- The text is one block: it begins with an opener and ends with the first closer
of that opener. -/
def IsBlock (u : Bytes) : Prop :=
  ∃ f ∈ blockForms, f.1 <+: u ∧ ∃ a, u = a ++ f.2 ∧ EndsFirst f.2 a

/-- A block starts at this place of the text. -/
def BlockStarts (p : Bytes) (i : Nat) : Prop := ∃ u, IsBlock u ∧ OccursAt u p i

/-- Reading a transcript from block to block, this text is one of them. -/
inductive ScanFinds (u : Bytes) : Bytes → Prop where
  | here (a b : Bytes) (hnone : ∀ i, i < a.length → ¬ BlockStarts (a ++ u ++ b) i) :
      ScanFinds u (a ++ u ++ b)
  | later (a v b : Bytes) (hv : IsBlock v)
      (hnone : ∀ i, i < a.length → ¬ BlockStarts (a ++ v ++ b) i) (h : ScanFinds u b) :
      ScanFinds u (a ++ v ++ b)

theorem blockForms_ne : ∀ f ∈ blockForms, f.1 ≠ [] ∧ f.2 ≠ [] := by decide

/-- No opener is the beginning of another, and a closer and its opener begin
differently. -/
theorem blockForms_apart : ∀ f ∈ blockForms,
    (∀ g ∈ blockForms, f.1 <+: g.1 → f = g) ∧ ¬ f.1 <+: f.2 ∧ ¬ f.2 <+: f.1 ∧
      f.1.length ≤ f.2.length + 1 := by decide

/-- The opener of a block that begins a text lies in the block. -/
theorem opener_in_block {f : Bytes × Bytes} (hf : f ∈ blockForms) {a b : Bytes}
    (h : f.1 <+: a ++ f.2 ++ b) : f.1 <+: a ++ f.2 := by
  obtain ⟨-, h12, h21, hlen⟩ := blockForms_apart f hf
  refine List.prefix_of_prefix_length_le h (List.prefix_append _ _) ?_
  rw [List.length_append]
  cases a with
  | nil =>
    rw [List.nil_append] at h
    rcases List.prefix_or_prefix_of_prefix h (List.prefix_append f.2 b) with hp | hp
    · exact absurd hp h12
    · exact absurd hp h21
  | cons c a => rw [List.length_cons]; omega

/-- The same, as one block of a form at a place. -/
theorem isBlock_of_form {f : Bytes × Bytes} (hf : f ∈ blockForms) {p : Bytes} {s e : Nat}
    (hs : OccursAt f.1 p s) (he : strstr (p.drop s) f.2 = some e) :
    ∃ u b, p.drop s = u ++ b ∧ u.length = e + f.2.length ∧ IsBlock u := by
  obtain ⟨a, b, hab, rfl, hfirst⟩ := (strstr_eq_some_iff (blockForms_ne f hf).2).mp he
  have hpre : f.1 <+: a ++ f.2 ++ b := by rw [← hab]; exact hs
  exact ⟨a ++ f.2, b, hab, List.length_append,
    f, hf, opener_in_block hf hpre, a, rfl, hfirst⟩

/-- Two blocks that begin one text are the same. -/
theorem IsBlock.unique {u v p : Bytes} (hu : IsBlock u) (hv : IsBlock v) (hup : u <+: p)
    (hvp : v <+: p) : u = v := by
  obtain ⟨f, hf, hfu, a, rfl, ha⟩ := hu
  obtain ⟨g, hg, hgv, b, rfl, hb⟩ := hv
  obtain rfl : f = g := by
    rcases List.prefix_or_prefix_of_prefix (hfu.trans hup) (hgv.trans hvp) with h | h
    · exact (blockForms_apart f hf).1 g hg h
    · exact ((blockForms_apart g hg).1 f hf h).symm
  have hne := (blockForms_ne f hf).2
  obtain ⟨r, rfl⟩ := hup
  obtain ⟨t, ht⟩ := hvp
  have h1 := strstr_append hne ha r
  have h2 := strstr_append hne hb t
  rw [ht, h1, Option.some_inj] at h2
  have hlen : (a ++ f.2).length = (b ++ f.2).length := by
    rw [List.length_append, List.length_append, h2]
  exact (List.append_inj ht.symm hlen).1

theorem IsBlock.ne_nil {u : Bytes} (h : IsBlock u) : u ≠ [] := by
  obtain ⟨f, hf, hfu, -⟩ := h
  rintro rfl
  exact (blockForms_ne f hf).1 (List.prefix_nil.mp hfu)

/-- The best block among some forms: one of theirs, and none of theirs starts
before. -/
def BestOf (fs : List (Bytes × Bytes)) (p : Bytes) : Option (Nat × Nat) → Prop
  | none => ∀ f ∈ fs, ∀ s, OccursAt f.1 p s → strstr (p.drop s) f.2 = none
  | some (s, e) =>
      (∃ f ∈ fs, OccursAt f.1 p s ∧ ∃ k, strstr (p.drop s) f.2 = some k ∧
        e = s + k + f.2.length) ∧
      ∀ f ∈ fs, ∀ s', s' < s → OccursAt f.1 p s' → strstr (p.drop s') f.2 = none

/-- A closer behind a place is behind every place before it. -/
theorem strstr_drop_none {n p : Bytes} (hn : n ≠ []) {s t : Nat} (hst : s ≤ t)
    (h : strstr (p.drop s) n = none) : strstr (p.drop t) n = none := by
  refine (firstOcc_eq_none_iff hn).mpr fun i hi => ?_
  refine (firstOcc_eq_none_iff hn).mp h (t - s + i) ?_
  rw [occursAt_drop] at hi ⊢
  rwa [show s + (t - s + i) = t + i by omega]

theorem findNextTurn_best {fs : List (Bytes × Bytes)} {p : Bytes} {best : Option (Nat × Nat)}
    {f : Bytes × Bytes} (h1 : f.1 ≠ []) (h2 : f.2 ≠ []) (h : BestOf fs p best) :
    BestOf (fs ++ [f]) p (findNextTurn p best f) := by
  -- a turn that keeps the best block: the form has none before it
  have hkeep : (∀ s, OccursAt f.1 p s → (∀ b, best = some b → s < b.1) →
      strstr (p.drop s) f.2 = none) → BestOf (fs ++ [f]) p best := by
    intro hf
    cases best with
    | none =>
      intro g hg s hs
      rcases List.mem_append.mp hg with hg | hg
      · exact h g hg s hs
      · obtain rfl := List.mem_singleton.mp hg
        exact hf s hs fun b hb => by cases hb
    | some b =>
      obtain ⟨⟨g, hg, hb⟩, hmin⟩ := h
      refine ⟨⟨g, List.mem_append_left _ hg, hb⟩, fun g' hg' s hs hocc => ?_⟩
      rcases List.mem_append.mp hg' with hg' | hg'
      · exact hmin g' hg' s hs hocc
      · obtain rfl := List.mem_singleton.mp hg'
        refine hf s hocc fun b' hb' => ?_
        obtain rfl := Option.some_inj.mp hb'
        exact hs
  rw [findNextTurn]
  cases hs : strstr p f.1 with
  | none => exact hkeep fun s hocc _ => absurd hocc ((firstOcc_eq_none_iff h1).mp hs s)
  | some s =>
    obtain ⟨hocc, hfirst⟩ := (firstOcc_eq_some_iff h1).mp hs
    dsimp only
    by_cases hany : best.any (fun b => decide (b.1 ≤ s)) = true
    · rw [if_pos hany]
      refine hkeep fun t ht hbefore => absurd ht (hfirst t ?_)
      cases best with
      | none => cases hany
      | some b => exact Nat.lt_of_lt_of_le (hbefore b rfl) (of_decide_eq_true hany)
    · rw [if_neg hany]
      cases he : strstr (p.drop s) f.2 with
      | none =>
        refine hkeep fun t ht _ => strstr_drop_none h2 ?_ he
        exact Nat.le_of_not_lt fun hlt => hfirst t hlt ht
      | some k =>
        refine ⟨⟨f, by simp, hocc, k, he, rfl⟩, fun g hg t hts ht => ?_⟩
        rcases List.mem_append.mp hg with hg | hg
        · cases best with
          | none => exact h g hg t ht
          | some b =>
            have : ¬ b.1 ≤ s := by simpa using hany
            exact h.2 g hg t (by omega) ht
        · obtain rfl := List.mem_singleton.mp hg
          exact absurd ht (hfirst t hts)

theorem findNextDsmlToolBlock_best (p : Bytes) : BestOf blockForms p (findNextDsmlToolBlock p) := by
  have hfold : ∀ (fs done : List (Bytes × Bytes)) (best : Option (Nat × Nat)),
      (∀ f ∈ fs, f.1 ≠ [] ∧ f.2 ≠ []) → BestOf done p best →
      BestOf (done ++ fs) p (fs.foldl (findNextTurn p) best) := by
    intro fs
    induction fs with
    | nil => intro done best _ h; rwa [List.append_nil]
    | cons f fs ih =>
      intro done best hne h
      obtain ⟨h1, h2⟩ := hne f List.mem_cons_self
      have := ih (done ++ [f]) _ (fun g hg => hne g (List.mem_cons_of_mem f hg))
        (findNextTurn_best h1 h2 h)
      rwa [List.append_assoc] at this
  exact hfold blockForms [] none blockForms_ne fun f hf => by cases hf

/-- A block starts where a form has its opener and a closer behind it. -/
theorem blockStarts_iff {p : Bytes} {i : Nat} :
    BlockStarts p i ↔ ∃ f ∈ blockForms, OccursAt f.1 p i ∧ strstr (p.drop i) f.2 ≠ none := by
  constructor
  · rintro ⟨u, ⟨f, hf, hfu, a, rfl, ha⟩, b, hb⟩
    refine ⟨f, hf, hfu.trans ⟨b, hb⟩, ?_⟩
    rw [← hb, strstr_append (blockForms_ne f hf).2 ha b]
    exact Option.some_ne_none _
  · rintro ⟨f, hf, hocc, hne⟩
    obtain ⟨e, he⟩ := Option.ne_none_iff_exists'.mp hne
    obtain ⟨u, b, hub, -, hu⟩ := isBlock_of_form hf hocc he
    exact ⟨u, hu, b, hub.symm⟩

theorem findNextDsmlToolBlock_none {p : Bytes} (h : findNextDsmlToolBlock p = none) (i : Nat) :
    ¬ BlockStarts p i := by
  have hbest := findNextDsmlToolBlock_best p
  rw [h] at hbest
  intro hi
  obtain ⟨f, hf, hocc, hne⟩ := blockStarts_iff.mp hi
  exact hne (hbest f hf i hocc)

theorem findNextDsmlToolBlock_some {p : Bytes} {s e : Nat}
    (h : findNextDsmlToolBlock p = some (s, e)) :
    ∃ a u b, p = a ++ u ++ b ∧ a.length = s ∧ e = (a ++ u).length ∧ IsBlock u ∧
      ∀ i, i < a.length → ¬ BlockStarts p i := by
  have hbest := findNextDsmlToolBlock_best p
  rw [h] at hbest
  obtain ⟨⟨f, hf, hocc, k, hk, rfl⟩, hmin⟩ := hbest
  obtain ⟨u, b, hub, hlen, hu⟩ := isBlock_of_form hf hocc hk
  have hs : s ≤ p.length := by
    have := hocc.add_length_le (blockForms_ne f hf).1
    omega
  have htake : (p.take s).length = s := by rw [List.length_take]; omega
  refine ⟨p.take s, u, b, ?_, htake, ?_, hu, fun i hi hstart => ?_⟩
  · rw [List.append_assoc, ← hub, List.take_append_drop]
  · rw [List.length_append, htake, hlen, Nat.add_assoc]
  · obtain ⟨g, hg, hgocc, hne⟩ := blockStarts_iff.mp hstart
    exact hne (hmin g hg i (htake ▸ hi) hgocc)

/-- The texts of the blocks the walk comes upon, in order. -/
def toolBlocks : Nat → Bytes → List Bytes
  | 0, _ => []
  | fuel + 1, p =>
      match findNextDsmlToolBlock p with
      | none => []
      | some (start, stop) => slice p start stop :: toolBlocks fuel (p.drop stop)

theorem blockStarts_append {u : Bytes} (hu : IsBlock u) (a b : Bytes) :
    BlockStarts (a ++ u ++ b) a.length := by
  refine ⟨u, hu, ?_⟩
  rw [OccursAt, List.append_assoc, List.drop_left]
  exact List.prefix_append u b

/-- There is one first block of a text. -/
theorem first_block_unique {a u b a' v b' : Bytes} (hu : IsBlock u) (hv : IsBlock v)
    (heq : a ++ u ++ b = a' ++ v ++ b')
    (hnone : ∀ i, i < a.length → ¬ BlockStarts (a ++ u ++ b) i)
    (hnone' : ∀ i, i < a'.length → ¬ BlockStarts (a ++ u ++ b) i) : a = a' ∧ u = v ∧ b = b' := by
  have hlen : a.length = a'.length := by
    refine Nat.le_antisymm (Nat.le_of_not_lt fun hlt => ?_) (Nat.le_of_not_lt fun hlt => ?_)
    · exact hnone _ hlt (heq ▸ blockStarts_append hv a' b')
    · exact hnone' _ hlt (blockStarts_append hu a b)
  rw [List.append_assoc, List.append_assoc] at heq
  obtain ⟨rfl, htail⟩ := List.append_inj heq hlen
  obtain rfl := hu.unique hv (List.prefix_append u b) (htail ▸ List.prefix_append v b')
  exact ⟨rfl, rfl, List.append_cancel_left htail⟩

/-- The first block of a text, and what the walk goes on with. -/
theorem toolBlocks_cons {a u b : Bytes} (hu : IsBlock u)
    (hnone : ∀ i, i < a.length → ¬ BlockStarts (a ++ u ++ b) i) (fuel : Nat) :
    toolBlocks (fuel + 1) (a ++ u ++ b) = u :: toolBlocks fuel b := by
  rw [toolBlocks]
  cases h : findNextDsmlToolBlock (a ++ u ++ b) with
  | none => exact absurd (blockStarts_append hu a b) (findNextDsmlToolBlock_none h _)
  | some r =>
    obtain ⟨s, e⟩ := r
    obtain ⟨a', u', b', heq, rfl, rfl, hu', hnone'⟩ := findNextDsmlToolBlock_some h
    obtain ⟨rfl, rfl, rfl⟩ := first_block_unique hu hu' heq hnone hnone'
    have hslice : slice (a ++ u ++ b) a.length (a ++ u).length = u := by
      rw [slice, List.append_assoc, List.drop_left, List.length_append, Nat.add_sub_cancel_left,
        List.take_left]
    dsimp only
    rw [hslice, List.drop_left]

/-- The walk comes upon the texts that `ScanFinds` describes. -/
theorem mem_toolBlocks_iff {u : Bytes} : ∀ (fuel : Nat) (p : Bytes), p.length < fuel →
    (u ∈ toolBlocks fuel p ↔ IsBlock u ∧ ScanFinds u p) := by
  intro fuel
  induction fuel with
  | zero => intro p hp; exact absurd hp (Nat.not_lt_zero _)
  | succ fuel ih =>
    intro p hp
    cases h : findNextDsmlToolBlock p with
    | none =>
      have hno := findNextDsmlToolBlock_none h
      rw [toolBlocks, h]
      refine ⟨fun hm => (List.not_mem_nil hm).elim, fun ⟨hu, hf⟩ => ?_⟩
      cases hf with
      | here a b _ => exact absurd (blockStarts_append hu a b) (hno _)
      | later a v b hv _ _ => exact absurd (blockStarts_append hv a b) (hno _)
    | some r =>
      obtain ⟨s, e⟩ := r
      obtain ⟨a, v, b, rfl, -, -, hv, hnone⟩ := findNextDsmlToolBlock_some h
      have hshort : b.length < fuel := by
        have := List.length_pos_iff.mpr hv.ne_nil
        simp only [List.length_append] at hp
        omega
      rw [toolBlocks_cons hv hnone, List.mem_cons]
      constructor
      · rintro (rfl | hm)
        · exact ⟨hv, .here a b hnone⟩
        · obtain ⟨hu, hf⟩ := (ih b hshort).mp hm
          exact ⟨hu, .later a v b hv hnone hf⟩
      · rintro ⟨hu, hf⟩
        generalize hp' : a ++ v ++ b = p at hf
        cases hf with
        | here a' b' hnone' =>
          obtain ⟨-, rfl, -⟩ := first_block_unique hv hu hp' hnone (hp' ▸ hnone')
          exact Or.inl rfl
        | later a' v' b' hv' hnone' hrest =>
          obtain ⟨-, -, rfl⟩ := first_block_unique hv hv' hp' hnone (hp' ▸ hnone')
          exact Or.inr ((ih b hshort).mpr ⟨hu, hrest⟩)

/-! ## The blocks visited -/

/-- The blocks of the memory a walk over these texts visits, and the memory after
it. -/
def freshBlocks (scan : Nat) : List Bytes → ToolMemory → List ToolMemoryBlock × ToolMemory
  | [], m => ([], m)
  | d :: ds, m =>
      match toolMemoryFindBlock m d with
      | none => freshBlocks scan ds m
      | some b =>
          if b.seen = scan then freshBlocks scan ds m
          else
            let r := freshBlocks scan ds (toolMemoryMarkSeen m b scan)
            (b :: r.1, r.2)

/-- The walk visits these blocks and no others, as long as no visit fails. -/
theorem kvToolMapScan_eq {σ : Type} {scan : Nat} {visit : ToolMemoryBlock → σ → Option σ} :
    ∀ (fuel : Nat) (p : Bytes) (m : ToolMemory) (acc r : σ),
    (freshBlocks scan (toolBlocks fuel p) m).1.foldlM (fun a b => visit b a) acc = some r →
    kvToolMapScan scan visit fuel p m acc =
      ((freshBlocks scan (toolBlocks fuel p) m).2, some r) := by
  intro fuel
  induction fuel with
  | zero =>
    intro p m acc r h
    obtain rfl : acc = r := by simpa [toolBlocks, freshBlocks] using h
    rfl
  | succ fuel ih =>
    intro p m acc r h
    rw [kvToolMapScan]
    cases hf : findNextDsmlToolBlock p with
    | none =>
      simp only [toolBlocks, hf, freshBlocks] at h ⊢
      obtain rfl : acc = r := by simpa using h
      rfl
    | some q =>
      obtain ⟨start, stop⟩ := q
      simp only [toolBlocks, hf, freshBlocks] at h ⊢
      cases hb : toolMemoryFindBlock m (slice p start stop) with
      | none =>
        rw [hb] at h
        exact ih _ _ _ _ h
      | some b =>
        rw [hb] at h
        dsimp only at h ⊢
        by_cases hs : b.seen = scan
        · rw [if_pos hs] at h
          rw [if_pos hs, if_pos hs]
          exact ih _ _ _ _ h
        · rw [if_neg hs] at h
          rw [if_neg hs, if_neg hs]
          rw [List.foldlM_cons] at h
          cases hv : visit b acc with
          | none => rw [hv] at h; cases h
          | some acc' =>
            rw [hv] at h
            exact ih _ _ _ _ h

/-- A block has a text. -/
theorem ToolMemory.Wf.block_named {m : ToolMemory} (h : m.Wf) {b : ToolMemoryBlock}
    (hb : b ∈ m.blocks) : b.dsml ≠ [] := by
  obtain ⟨id, hid⟩ := List.exists_mem_of_ne_nil _ (h.used b hb)
  obtain ⟨q, hq, -⟩ := List.mem_map.mp ((h.chain b hb).mem_iff.mp hid)
  obtain ⟨hqm, hd⟩ := List.mem_filter.mp hq
  exact of_decide_eq_true hd ▸ (h.named q hqm).2

theorem toolMemoryFindBlock_eq_some_iff {m : ToolMemory} (h : m.Wf) {d : Bytes}
    {b : ToolMemoryBlock} : toolMemoryFindBlock m d = some b ↔ b ∈ m.blocks ∧ b.dsml = d := by
  rw [toolMemoryFindBlock]
  by_cases hd : d = []
  · rw [if_pos hd]
    refine ⟨fun hf => (Option.some_ne_none _ hf.symm).elim, fun hb => ?_⟩
    exact absurd (hb.2.trans hd) (h.block_named hb.1)
  · rw [if_neg hd]
    exact lookup_eq_some_iff h.texts

theorem toolMemoryMarkSeen_ok {m : ToolMemory} (h : m.Ok) (b : ToolMemoryBlock) {scan : Nat}
    (hscan : scan ≤ m.scanClock) : (toolMemoryMarkSeen m b scan).Ok := by
  have hcases : ∀ c ∈ (toolMemoryMarkSeen m b scan).blocks,
      ∃ x ∈ m.blocks, x.dsml = c.dsml ∧ x.entries = c.entries ∧ x.refs = c.refs ∧
        (x.seen = c.seen ∨ c.seen = scan) := by
    intro c hc
    rcases mem_update.mp hc with ⟨x, hx, -, rfl⟩ | ⟨hcm, -⟩
    · exact ⟨x, hx, rfl, rfl, rfl, Or.inr rfl⟩
    · exact ⟨c, hcm, rfl, rfl, rfl, Or.inl rfl⟩
  refine ⟨⟨⟨h.ids, h.texts.update fun _ => rfl, fun c hc => ?_, fun c hc => ?_, fun q hq => ?_,
    h.named, h.entries, ?_, fun c hc => ?_⟩, fun c hc => ?_⟩, h.within⟩
  · obtain ⟨x, hx, hd, he, -, -⟩ := hcases c hc
    rw [← he, ← hd]
    exact h.chain x hx
  · obtain ⟨x, hx, -, he, hr, -⟩ := hcases c hc
    rw [← he, ← hr]
    exact h.refs x hx
  · obtain ⟨c, hc, hd⟩ := h.held q hq
    by_cases hk : c.dsml = b.dsml
    · exact ⟨_, mem_update.mpr (Or.inl ⟨c, hc, hk, rfl⟩), hd⟩
    · exact ⟨c, mem_update.mpr (Or.inr ⟨hc, hk⟩), hd⟩
  · have hsum : ((toolMemoryMarkSeen m b scan).blocks.map (·.bytes)).sum =
        (m.blocks.map (·.bytes)).sum := congrArg List.sum (map_update fun _ => rfl)
    rw [hsum]
    exact h.bytes
  · obtain ⟨x, hx, -, -, -, hs⟩ := hcases c hc
    rcases hs with hs | hs
    · exact hs ▸ h.seen x hx
    · exact hs ▸ hscan
  · obtain ⟨x, hx, -, he, -, -⟩ := hcases c hc
    exact he ▸ h.used x hx

/-- The blocks visited: those of the memory not seen in this scan with one of the
texts, each once. The pairs are left as they are. -/
theorem freshBlocks_spec (scan : Nat) : ∀ (ds : List Bytes) {m : ToolMemory}, m.Ok →
    scan ≤ m.scanClock →
    (freshBlocks scan ds m).2.Ok ∧ m.SameLimits (freshBlocks scan ds m).2 ∧
    (freshBlocks scan ds m).2.pairs = m.pairs ∧
    (freshBlocks scan ds m).2.scanClock = m.scanClock ∧
    ((freshBlocks scan ds m).1.map (·.dsml)).Nodup ∧
    ∀ b, b ∈ (freshBlocks scan ds m).1 ↔ b ∈ m.blocks ∧ b.seen ≠ scan ∧ b.dsml ∈ ds := by
  intro ds
  induction ds with
  | nil =>
    intro m h _
    exact ⟨h, ⟨rfl, rfl⟩, rfl, rfl, List.nodup_nil, fun b => by simp [freshBlocks]⟩
  | cons d ds ih =>
    intro m h hscan
    -- a text that adds no block
    have hskip : (∀ b ∈ m.blocks, b.dsml = d → b.seen = scan) →
        ∀ b, (b ∈ m.blocks ∧ b.seen ≠ scan ∧ b.dsml ∈ ds) ↔
          (b ∈ m.blocks ∧ b.seen ≠ scan ∧ b.dsml ∈ d :: ds) := by
      intro hd b
      rw [List.mem_cons]
      constructor
      · rintro ⟨hb, hs, hm⟩
        exact ⟨hb, hs, Or.inr hm⟩
      · rintro ⟨hb, hs, rfl | hm⟩
        · exact absurd (hd b hb rfl) hs
        · exact ⟨hb, hs, hm⟩
    rw [freshBlocks]
    cases hf : toolMemoryFindBlock m d with
    | none =>
      obtain ⟨hok, hlim, hp, hc, hnd, hmem⟩ := ih h hscan
      refine ⟨hok, hlim, hp, hc, hnd, fun b => (hmem b).trans (hskip (fun c hcm hcd => ?_) b)⟩
      rw [(toolMemoryFindBlock_eq_some_iff h.toWf).mpr ⟨hcm, hcd⟩] at hf
      cases hf
    | some b =>
      obtain ⟨hb, hbd⟩ := (toolMemoryFindBlock_eq_some_iff h.toWf).mp hf
      by_cases hs : b.seen = scan
      · obtain ⟨hok, hlim, hp, hc, hnd, hmem⟩ := ih h hscan
        dsimp only
        rw [if_pos hs]
        refine ⟨hok, hlim, hp, hc, hnd, fun c => (hmem c).trans (hskip (fun x hx hxd => ?_) c)⟩
        rw [h.texts.eq hx hb (hxd.trans hbd.symm), hs]
      · obtain ⟨hok, hlim, hp, hc, hnd, hmem⟩ := ih (toolMemoryMarkSeen_ok h b hscan) hscan
        dsimp only
        rw [if_neg hs]
        -- what is left for the rest of the walk
        have hrest : ∀ c, c ∈ (toolMemoryMarkSeen m b scan).blocks ∧ c.seen ≠ scan ↔
            c ∈ m.blocks ∧ c.seen ≠ scan ∧ c.dsml ≠ b.dsml := by
          intro c
          rw [toolMemoryMarkSeen, mem_update]
          constructor
          · rintro ⟨⟨x, -, -, rfl⟩ | ⟨hcm, hcd⟩, hne⟩
            · exact absurd rfl hne
            · exact ⟨hcm, hne, hcd⟩
          · rintro ⟨hcm, hne, hcd⟩
            exact ⟨Or.inr ⟨hcm, hcd⟩, hne⟩
        refine ⟨hok, hlim, hp, hc, ?_, fun c => ?_⟩
        · refine List.nodup_cons.mpr ⟨fun hm => ?_, hnd⟩
          obtain ⟨c, hcm, hcd⟩ := List.mem_map.mp hm
          obtain ⟨hc1, hc2, -⟩ := (hmem c).mp hcm
          exact ((hrest c).mp ⟨hc1, hc2⟩).2.2 hcd
        · rw [List.mem_cons, List.mem_cons, hmem c, ← and_assoc, hrest c]
          constructor
          · rintro (rfl | ⟨⟨hcm, hne, -⟩, hd⟩)
            · exact ⟨hb, hs, Or.inl hbd⟩
            · exact ⟨hcm, hne, Or.inr hd⟩
          · rintro ⟨hcm, hne, hd⟩
            by_cases hk : c.dsml = b.dsml
            · exact Or.inl (h.texts.eq hcm hb hk)
            · refine Or.inr ⟨⟨hcm, hne, hk⟩, hd.resolve_left fun hcd => hk (hcd.trans hbd.symm)⟩

end Sf37.Server

/-
Sf37.Server.ToolMapRoundTrip — a tool map written behind a transcript and read back
into an empty memory.

A memory that holds some of the pairs of another one within its limits is within the
same limits, so no put of the load drops anything.

* `ToolMemory.Wf.not_over_of_subset`: a part of a memory is within its limits.
* `kvToolMapLoadLoop_all`: every record of such a part is loaded and stays.
* `toolMap_roundTrip`: the size predicted, the bytes written and the pairs read back.
-/
import Sf37.Server.ToolMapWire

namespace Sf37.Server

open Sf37.Text Sf37.Store

/-- `kv_tool_map_serialized_size`; `none` when the measuring fails. -/
def kvToolMapSerializedSize (s : ReplayState) (text : Bytes) : ReplayState × Option Nat :=
  if s.disableExactDsmlToolReplay ∨ text = [] then (s, some 0)
  else
    let r := kvToolMapMeasureLocked s.toolMem text
    ({ s with toolMem := r.1 }, r.2.map Prod.snd)

/-- An empty memory with the limits of another one. -/
def emptyLike (m : ToolMemory) : ToolMemory where
  maxEntries := m.maxEntries
  maxBytes := m.maxBytes

/-- `INT_MAX` -/
def intMax : Nat := 2 ^ 31 - 1

/-- A memory whose pairs a map can carry: ids of 1 to 256 bytes, texts of at most
512 MiB, and C strings all of them. `max_entries` is an `int`. -/
structure ToolMemory.Carried (m : ToolMemory) : Prop extends m.Ok where
  maxEntries_le : m.maxEntries ≤ intMax
  ids_le : ∀ q ∈ m.pairs, 1 ≤ q.1.length ∧ q.1.length ≤ 256
  texts_le : ∀ q ∈ m.pairs, q.2.length ≤ toolMemoryDefaultMaxBytes
  nulFree : ∀ q ∈ m.pairs, NulFree q.1 ∧ NulFree q.2

/-! ## A part of a memory -/

section Part

variable {m M : ToolMemory}

theorem sum_le_of_subset {β : Type} {l l' : List β} (hnd : l.Nodup) (hsub : ∀ x ∈ l, x ∈ l')
    (f : β → Nat) : (l.map f).sum ≤ (l'.map f).sum := by
  obtain ⟨l'', hperm, hl⟩ := List.subperm_of_subset hnd hsub
  rw [← (hperm.map f).sum_nat]
  exact (hl.map f).sum_le_sum fun _ _ => Nat.zero_le _

/-- The texts of the blocks are those of the pairs. -/
theorem ToolMemory.Wf.mem_texts (h : m.Wf) {d : Bytes} :
    d ∈ m.blocks.map (·.dsml) ↔ ∃ q ∈ m.pairs, q.2 = d := by
  constructor
  · intro hd
    obtain ⟨b, hb, rfl⟩ := List.mem_map.mp hd
    obtain ⟨id, hid⟩ := List.exists_mem_of_ne_nil _ (h.used b hb)
    obtain ⟨q, hq, -⟩ := List.mem_map.mp ((h.chain b hb).mem_iff.mp hid)
    obtain ⟨hqm, hqd⟩ := List.mem_filter.mp hq
    exact ⟨q, hqm, of_decide_eq_true hqd⟩
  · rintro ⟨q, hq, rfl⟩
    obtain ⟨b, hb, hd⟩ := h.held q hq
    exact List.mem_map.mpr ⟨b, hb, hd⟩

/-- A part of a memory within its limits is within the same limits. -/
theorem ToolMemory.Wf.not_over_of_subset (h : m.Wf) (hM : M.Ok) (hlim : M.SameLimits m)
    (hsub : ∀ q ∈ m.pairs, q ∈ M.pairs) : ¬ toolMemoryOver m := by
  have hnd : m.pairs.Nodup := List.Nodup.of_map _ h.ids
  have hentries : m.pairs.length ≤ M.pairs.length :=
    (List.subperm_of_subset hnd hsub).length_le
  have hids := sum_le_of_subset hnd hsub (fun q : Bytes × Bytes => entryBytes q.1)
  have hblocks : (m.blocks.map (·.bytes)).sum ≤ (M.blocks.map (·.bytes)).sum := by
    have hcharge : ∀ bs : List ToolMemoryBlock, (bs.map (·.bytes)).sum =
        ((bs.map (·.dsml)).map fun d : Bytes => d.length + 1 + sizeofBlock).sum := by
      intro bs
      rw [List.map_map]
      rfl
    rw [hcharge, hcharge]
    refine sum_le_of_subset h.texts (fun d hd => ?_) _
    obtain ⟨q, hq, hqd⟩ := h.mem_texts.mp hd
    exact hM.mem_texts.mpr ⟨q, hsub q hq, hqd⟩
  have hin := hM.within
  have h1 := h.entries
  have h2 := h.bytes
  have h3 := hM.entries
  have h4 := hM.bytes
  unfold toolMemoryOver at hin ⊢
  rw [hlim.eq.1, hlim.eq.2]
  omega

theorem toolMemoryPruneLoop_of_not_over (fuel : Nat) (h : ¬ toolMemoryOver m) :
    toolMemoryPruneLoop fuel m = m := by
  cases fuel with
  | zero => rfl
  | succ fuel => rw [toolMemoryPruneLoop, if_neg h]

/-- A put of a new pair of the part brings it to the head and drops nothing. -/
theorem toolMemoryPut_part (h : m.Wf) (hM : M.Ok) (hlim : M.SameLimits m)
    (hsub : ∀ q ∈ m.pairs, q ∈ M.pairs) {q : Bytes × Bytes} (hq : q ∈ M.pairs)
    (hnew : q.1 ∉ m.pairs.map Prod.fst) (source : ToolMemorySource) :
    (toolMemoryPut m q.1 q.2 source).Wf ∧ M.SameLimits (toolMemoryPut m q.1 q.2 source) ∧
      (toolMemoryPut m q.1 q.2 source).pairs = q :: m.pairs := by
  obtain ⟨hid, hne⟩ := hM.named q hq
  obtain ⟨m', heq, hwf, hlim', hp⟩ := toolMemoryPut_eq h hid hne source
  have hother : otherPairs q.1 m.pairs = m.pairs := by
    refine List.filter_eq_self.mpr fun p hp => ?_
    have : p.1 ≠ q.1 := fun hk => hnew (hk ▸ List.mem_map_of_mem hp)
    simpa using this
  rw [hother] at hp
  have hlimM : M.SameLimits m' := ⟨hlim'.1.trans hlim.1, hlim'.2.trans hlim.2⟩
  have hin : ¬ toolMemoryOver m' := by
    refine hwf.not_over_of_subset hM hlimM fun p hpm => ?_
    rw [hp] at hpm
    rcases List.mem_cons.mp hpm with rfl | hpm
    · exact hq
    · exact hsub p hpm
  have hprune : toolMemoryPrune m' = m' := toolMemoryPruneLoop_of_not_over _ hin
  rw [heq, hprune]
  exact ⟨hwf, hlimM, hp⟩

end Part

/-! ## Loading all of a file -/

/-- Every record that the load admits is put, and the pairs come to stand in reverse. -/
theorem kvToolMapLoadLoop_all {M : ToolMemory} (hM : M.Carried) :
    ∀ (recs : List (Bytes × Bytes)) {s : ReplayState} (loaded : Nat), s.toolMem.Wf →
    s.disableExactDsmlToolReplay = false → M.SameLimits s.toolMem →
    (∀ q ∈ s.toolMem.pairs, q ∈ M.pairs) → (∀ q ∈ recs, q ∈ M.pairs) →
    (∀ q ∈ recs, FitsRecord q) → ((recs ++ s.toolMem.pairs).map Prod.fst).Nodup →
    (kvToolMapLoadLoop none recs.length (recs.flatMap recordOf) s loaded).1.toolMem.pairs =
        recs.reverse ++ s.toolMem.pairs ∧
      (kvToolMapLoadLoop none recs.length (recs.flatMap recordOf) s loaded).2 =
        loaded + recs.length := by
  intro recs
  induction recs with
  | nil => intro s loaded _ _ _ _ _ _ _; exact ⟨rfl, rfl⟩
  | cons q recs ih =>
    intro s loaded h hon hlim hsub hrecs hfits hnd
    have hread := readLens_recordOf (hfits q List.mem_cons_self) (recs.flatMap recordOf)
    have hq := hrecs q List.mem_cons_self
    obtain ⟨hid1, hid2⟩ := hM.ids_le q hq
    have htext := hM.texts_le q hq
    have htext1 : 0 < q.2.length := List.length_pos_iff.mpr (hM.named q hq).2
    obtain ⟨hnul1, hnul2⟩ := hM.nulFree q hq
    rw [List.cons_append, List.map_cons, List.nodup_cons, List.map_append, List.mem_append,
      not_or] at hnd
    obtain ⟨hwf, hlim', hp⟩ := toolMemoryPut_part h hM.toOk hlim hsub hq hnd.1.2 .disk
    rw [List.length_cons, kvToolMapLoadLoop, List.flatMap_cons, hread]
    dsimp only
    rw [if_neg (by omega), if_neg (by simp), take_left_pair, slice_left_pair, drop_left_pair,
      cstr_iff.mpr hnul1, cstr_iff.mpr hnul2, Option.all_none, if_pos rfl, toolMemoryPutSource,
      if_neg (by simp [hon])]
    obtain ⟨hpairs, hloaded⟩ := ih
      (s := { s with toolMem := toolMemoryPut s.toolMem q.1 q.2 .disk }) (loaded + 1) hwf hon hlim'
      (fun p hpm => by
        rw [hp] at hpm
        rcases List.mem_cons.mp hpm with rfl | hpm
        · exact hq
        · exact hsub p hpm)
      (fun p hpm => hrecs p (List.mem_cons_of_mem q hpm))
      (fun p hpm => hfits p (List.mem_cons_of_mem q hpm)) (by
        have hperm : (recs ++ q :: s.toolMem.pairs).Perm (q :: (recs ++ s.toolMem.pairs)) :=
          List.perm_middle
        dsimp only
        rw [hp, (hperm.map Prod.fst).nodup_iff, List.map_cons, List.nodup_cons, List.map_append,
          List.mem_append, not_or, ← List.map_append]
        rw [← List.map_append] at hnd
        exact hnd)
    refine ⟨?_, ?_⟩
    · rw [hpairs, List.reverse_cons, List.append_assoc]
      dsimp only
      rw [hp]
      rfl
    · rw [hloaded]
      omega

/-- An empty memory is well formed. -/
theorem emptyLike_wf (m : ToolMemory) : (emptyLike m).Wf := by
  refine ⟨⟨List.nodup_nil, List.nodup_nil, ?_, ?_, ?_, ?_, rfl, rfl, ?_⟩, ?_⟩ <;>
  · intro x hx
    exact absurd hx (List.not_mem_nil)

/-- A file made of pairs of the memory is loaded whole. -/
theorem kvToolMapLoadFromPos_all {s : ReplayState} (h : s.toolMem.Carried)
    {recs : List (Bytes × Bytes)} (hlen : recs.length ≤ uint32Max)
    (hfits : ∀ q ∈ recs, FitsRecord q) (hnd : (recs.map Prod.fst).Nodup)
    (hrecs : ∀ q ∈ recs, q ∈ s.toolMem.pairs) :
    let loaded := kvToolMapLoadFromPos { toolMem := emptyLike s.toolMem } (toolMapFile recs) none
    loaded.1.toolMem.pairs = recs.reverse ∧ loaded.2 = recs.length := by
  intro loaded
  unfold loaded
  by_cases hnil : recs = []
  · subst hnil
    exact ⟨rfl, rfl⟩
  obtain ⟨h4, hcount, hrest⟩ := kvToolMapHeader_fields hlen (recs.flatMap recordOf)
  have hfile : toolMapFile recs = kvToolMapHeader recs.length ++ recs.flatMap recordOf :=
    if_neg hnil
  have hshort : ¬ (toolMapFile recs).length < kvToolMapHeaderBytes := by
    rw [length_toolMapFile, if_neg (by simpa using hnil)]
    omega
  have hentries : recs.length ≤ toolMemoryMaxEntries s.toolMem := by
    have hle : recs.length ≤ s.toolMem.pairs.length :=
      (List.subperm_of_subset (List.Nodup.of_map _ hnd) hrecs).length_le
    have hin := h.within
    have := h.entries
    unfold toolMemoryOver at hin
    omega
  have hmany : ¬ toolMemoryMaxEntries (emptyLike s.toolMem) * 4 < recs.length := by
    have hsame : toolMemoryMaxEntries (emptyLike s.toolMem) = toolMemoryMaxEntries s.toolMem := rfl
    omega
  rw [kvToolMapLoadFromPos, if_neg (by simpa using hshort), hfile, h4, hcount, hrest]
  dsimp only
  rw [if_neg (by simp), if_neg hmany]
  have hempty : (emptyLike s.toolMem).pairs = [] := rfl
  have hall := kvToolMapLoadLoop_all h recs (s := { toolMem := emptyLike s.toolMem }) 0
    (emptyLike_wf _) rfl ⟨rfl, rfl⟩ (by simp [hempty]) hrecs hfits
    (by simpa [hempty] using hnd)
  rw [hempty, List.append_nil, Nat.zero_add] at hall
  exact hall

/-! ## The round trip -/

/-- The pairs of such a memory fit into the fields of a map. -/
theorem ToolMemory.Carried.fitsMap {m : ToolMemory} (h : m.Carried) : FitsMap m.pairs := by
  intro recs hnd hsub
  have hmax : toolMemoryMaxEntries m ≤ intMax := by
    have := h.maxEntries_le
    unfold toolMemoryMaxEntries toolMemoryDefaultMaxIds
    have : intMax = 2147483647 := rfl
    split <;> omega
  have hcount : recs.length ≤ intMax := by
    have hle : recs.length ≤ m.pairs.length :=
      (List.subperm_of_subset (List.Nodup.of_map _ hnd) hsub).length_le
    have hin := h.within
    have := h.entries
    unfold toolMemoryOver at hin
    omega
  have hlen : ∀ q ∈ recs, q.1.length ≤ 256 ∧ q.2.length ≤ 2 ^ 29 := fun q hq =>
    ⟨(h.ids_le q (hsub q hq)).2, h.texts_le q (hsub q hq)⟩
  have hsize : (recs.map recordSize).sum ≤ recs.length * 2 ^ 30 := by
    have := List.sum_le_card_nsmul (recs.map recordSize) (2 ^ 30) fun n hn => by
      obtain ⟨q, hq, rfl⟩ := List.mem_map.mp hn
      have := hlen q hq
      rw [recordSize]
      omega
    rwa [List.length_map] at this
  have hi : intMax = 2147483647 := rfl
  have h32 : uint32Max = 4294967295 := rfl
  have h64 : uint64Max = 18446744073709551615 := rfl
  have h8 : kvToolMapHeaderBytes = 8 := rfl
  refine ⟨fun q hq => ?_, by omega, by omega⟩
  have := hlen q hq
  constructor
  · omega
  · omega

/-- What the size call predicts, and the memory it leaves. -/
theorem kvToolMapSerializedSize_spec {s : ReplayState} (h : s.toolMem.Ok)
    (hfit : FitsMap s.toolMem.pairs) (hon : s.disableExactDsmlToolReplay = false) (text : Bytes)
    {recs : List (Bytes × Bytes)} (hnd : (recs.map Prod.fst).Nodup)
    (hrecs : ∀ q, q ∈ recs ↔
      q ∈ s.toolMem.pairs ∧ q.2 ∈ toolBlocks (text.length + 1) text) :
    (kvToolMapSerializedSize s text).2 = some (toolMapFile recs).length ∧
      (kvToolMapSerializedSize s text).1.toolMem.Ok ∧
      (kvToolMapSerializedSize s text).1.toolMem.pairs = s.toolMem.pairs ∧
      (kvToolMapSerializedSize s text).1.disableExactDsmlToolReplay = false := by
  unfold kvToolMapSerializedSize
  by_cases htext : text = []
  · have hempty : toolBlocks (text.length + 1) text = [] := by
      rw [htext]
      decide
    obtain rfl : recs = [] := by
      refine List.eq_nil_iff_forall_not_mem.mpr fun q hq => ?_
      have := ((hrecs q).mp hq).2
      rw [hempty] at this
      exact List.not_mem_nil this
    rw [if_pos (Or.inr htext)]
    exact ⟨rfl, h, rfl, hon⟩
  · obtain ⟨recs₁, w₁⟩ := walkRecords h hfit (toolBlocks (text.length + 1) text)
    obtain ⟨hok, -, hp, -, -⟩ := freshBlocks_spec (s.toolMem.scanClock + 1)
      (toolBlocks (text.length + 1) text) (nextScan_ok h) (Nat.le_refl _)
    have hperm : recs₁.Perm recs :=
      (List.perm_ext_iff_of_nodup (List.Nodup.of_map _ w₁.nodup)
        (List.Nodup.of_map _ hnd)).mpr fun q => by rw [w₁.mem, hrecs]
    rw [if_neg (by simp [hon, htext]), kvToolMapMeasureLocked_eq text w₁]
    refine ⟨?_, hok, hp, hon⟩
    dsimp only
    rw [Option.map_some, length_toolMapFile, ← hperm.length_eq, (hperm.map recordSize).sum_nat]

/-- A map of a transcript: the size call predicts the bytes that are written, before and
after it; and reading them back into an empty memory with the same limits puts every
record and leaves exactly the pairs whose blocks the scan of the transcript finds. -/
theorem toolMap_roundTrip {s : ReplayState} (h : s.toolMem.Carried)
    (hon : s.disableExactDsmlToolReplay = false) (text : Bytes) :
    (kvToolMapWrite s text).ok = true ∧
    (kvToolMapSerializedSize s text).2 = some (kvToolMapWrite s text).file.length ∧
    (kvToolMapWrite (kvToolMapSerializedSize s text).1 text).file.length =
      (kvToolMapWrite s text).file.length ∧
    (kvToolMapWrite s text).writtenBytes = (kvToolMapWrite s text).file.length ∧
    let loaded := kvToolMapLoadFromPos { toolMem := emptyLike s.toolMem }
      (kvToolMapWrite s text).file none
    loaded.2 = leGet32 ((kvToolMapWrite s text).file.drop 4) ∧
    loaded.2 = loaded.1.toolMem.pairs.length ∧
    (loaded.1.toolMem.pairs.map Prod.fst).Nodup ∧
    ∀ q, q ∈ loaded.1.toolMem.pairs ↔
      q ∈ s.toolMem.pairs ∧ IsBlock q.2 ∧ ScanFinds q.2 text := by
  obtain ⟨hkeeps, hok, hwritten, recs, hfile, hlen, hfits, hnd, hrecs⟩ :=
    kvToolMapWrite_fits h.toOk h.fitsMap hon text
  obtain ⟨hsize, hok₁, hp₁, hon₁⟩ :=
    kvToolMapSerializedSize_spec h.toOk h.fitsMap hon text hnd hrecs
  obtain ⟨-, -, -, recs₁, hfile₁, -, -, hnd₁, hrecs₁⟩ :=
    kvToolMapWrite_fits hok₁ (hp₁ ▸ h.fitsMap) hon₁ text
  have hperm : recs₁.Perm recs :=
    (List.perm_ext_iff_of_nodup (List.Nodup.of_map _ hnd₁)
      (List.Nodup.of_map _ hnd)).mpr fun q => by rw [hrecs₁, hrecs, hp₁]
  obtain ⟨hpairs, hloaded⟩ := kvToolMapLoadFromPos_all h hlen hfits hnd
    fun q hq => ((hrecs q).mp hq).1
  refine ⟨hok, hfile ▸ hsize, ?_, hwritten, ?_⟩
  · rw [hfile₁, hfile, length_toolMapFile, length_toolMapFile, hperm.length_eq,
      (hperm.map recordSize).sum_nat]
  · dsimp only
    rw [hfile, hpairs, hloaded]
    refine ⟨?_, by simp, ?_, fun q => ?_⟩
    · by_cases hnil : recs = []
      · subst hnil
        decide
      · obtain ⟨-, hcount, -⟩ := kvToolMapHeader_fields hlen (recs.flatMap recordOf)
        rw [toolMapFile, if_neg hnil, hcount]
    · rw [List.map_reverse, List.nodup_reverse]
      exact hnd
    · rw [List.mem_reverse, hrecs, mem_toolBlocks_iff _ _ (Nat.lt_succ_self _)]

/-- The texts of two blocks. -/
def shortBlock : Bytes := bytes "<tool_call></tool_call>"

def otherBlock : Bytes := bytes "<tool_call>f</tool_call>"

/-- Two calls of one block remembered, and one of another. -/
def threeCallsMemory : ToolMemory :=
  toolMemoryPut (toolMemoryPut (toolMemoryPut {} (bytes "c") shortBlock .ram) (bytes "d") shortBlock
    .ram) (bytes "e") otherBlock .ram

theorem threeCallsMemory_carried : threeCallsMemory.Carried := by
  have hempty : ({} : ToolMemory).Ok := ⟨emptyLike_wf {}, by decide⟩
  obtain ⟨hok₁, hlim₁, -, -⟩ := toolMemoryPut_spec hempty (bytes "c") shortBlock .ram
  obtain ⟨hok₂, hlim₂, -, -⟩ := toolMemoryPut_spec hok₁ (bytes "d") shortBlock .ram
  obtain ⟨hok₃, hlim₃, -, -⟩ := toolMemoryPut_spec hok₂ (bytes "e") otherBlock .ram
  have hpairs : threeCallsMemory.pairs =
      [(bytes "e", otherBlock), (bytes "d", shortBlock), (bytes "c", shortBlock)] := by decide
  have hall : ∀ p : Bytes × Bytes → Prop, p (bytes "e", otherBlock) → p (bytes "d", shortBlock) →
      p (bytes "c", shortBlock) → ∀ q ∈ threeCallsMemory.pairs, p q := by
    intro p he hd hc q hq
    rw [hpairs] at hq
    simp only [List.mem_cons, List.not_mem_nil, or_false] at hq
    rcases hq with rfl | rfl | rfl
    · exact he
    · exact hd
    · exact hc
  have hmax : threeCallsMemory.maxEntries ≤ intMax := by
    rw [threeCallsMemory, hlim₃.1, hlim₂.1, hlim₁.1]
    exact Nat.zero_le _
  exact ⟨hok₃, hmax, hall _ (by decide) (by decide) (by decide),
    hall _ (by decide) (by decide) (by decide), hall _ (by decide) (by decide) (by decide)⟩

/-- A transcript with both blocks. -/
theorem toolMap_roundTrip_threeCalls :
    let s : ReplayState := { toolMem := threeCallsMemory }
    let text := bytes "a" ++ shortBlock ++ bytes "b" ++ otherBlock
    (kvToolMapWrite s text).ok = true ∧
    (kvToolMapSerializedSize s text).2 = some (kvToolMapWrite s text).file.length ∧
    (kvToolMapWrite (kvToolMapSerializedSize s text).1 text).file.length =
      (kvToolMapWrite s text).file.length ∧
    (kvToolMapWrite s text).writtenBytes = (kvToolMapWrite s text).file.length ∧
    let loaded := kvToolMapLoadFromPos { toolMem := emptyLike s.toolMem }
      (kvToolMapWrite s text).file none
    loaded.2 = leGet32 ((kvToolMapWrite s text).file.drop 4) ∧
    loaded.2 = loaded.1.toolMem.pairs.length ∧
    (loaded.1.toolMem.pairs.map Prod.fst).Nodup ∧
    ∀ q, q ∈ loaded.1.toolMem.pairs ↔
      q ∈ s.toolMem.pairs ∧ IsBlock q.2 ∧ ScanFinds q.2 text :=
  toolMap_roundTrip threeCallsMemory_carried rfl
    (bytes "a" ++ shortBlock ++ bytes "b" ++ otherBlock)

end Sf37.Server

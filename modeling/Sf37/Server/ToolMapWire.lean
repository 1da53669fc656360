/-
Sf37.Server.ToolMapWire — the bytes of a tool map: what `kv_tool_map_write` writes
and what `kv_tool_map_load_from_pos` reads of it.

* `kvToolMapWrite_fits`: the write succeeds, and the entries of the file are the
  pairs of the memory whose texts the scan of the transcript comes upon, each once.
* `toolMapRecords_file`: a file reads back as the entries it was written with.
* `kvToolMapLoadFromPos_pairs`: loading a file puts some of its entries, in order.
-/
import Sf37.Server.ToolMap
import Mathlib.Algebra.Order.BigOperators.Group.List
import Mathlib.Algebra.GroupWithZero.Nat

namespace Sf37.Server

open Sf37.Text Sf37.Store

/-! ## Reading -/

/-- Two lengths at the front of a file. -/
def readLens (fp : Bytes) : Option (Nat × Nat × Bytes) :=
  if fp.length < 8 then none else some (leGet32 fp, leGet32 (fp.drop 4), fp.drop 8)

theorem lawfulBEq_bytes : LawfulBEq Bytes := inferInstance

attribute [local instance] lawfulBEq_bytes in
/-- The loop of `kv_tool_map_load_from_pos`: the entries left to read, the file from
here, the server and how many were loaded. -/
def kvToolMapLoadLoop (wanted : Option (List Bytes)) :
    Nat → Bytes → ReplayState → Nat → ReplayState × Nat
  | 0, _, s, loaded => (s, loaded)
  | n + 1, fp, s, loaded =>
      match readLens fp with
      | none => (s, loaded)
      | some (idLen, dsmlLen, fp) =>
          if idLen = 0 ∨ 256 < idLen ∨ dsmlLen = 0 ∨ toolMemoryDefaultMaxBytes < dsmlLen then
            (s, loaded)
          else if fp.length < idLen + dsmlLen then (s, loaded)
          else
            let id := cstr (fp.take idLen)
            let dsml := cstr (slice fp idLen (idLen + dsmlLen))
            let fp := fp.drop (idLen + dsmlLen)
            if wanted.all (fun ids => decide (id ∈ ids ∧ id ≠ [])) then
              kvToolMapLoadLoop wanted n fp (toolMemoryPutSource s id dsml .disk) (loaded + 1)
            else kvToolMapLoadLoop wanted n fp s loaded

/-- `kv_tool_map_load_from_pos`. -/
def kvToolMapLoadFromPos (s : ReplayState) (fp : Bytes) (wanted : Option (List Bytes)) :
    ReplayState × Nat :=
  if s.disableExactDsmlToolReplay ∨ fp.length < kvToolMapHeaderBytes then (s, 0)
  else if fp.take 4 ≠ bytes "KTM" ++ [1] then (s, 0)
  else
    let count := leGet32 (fp.drop 4)
    if toolMemoryMaxEntries s.toolMem * 4 < count then (s, 0)
    else kvToolMapLoadLoop wanted count (fp.drop kvToolMapHeaderBytes) s 0

/-- The entries of a map, without the limits of a load. -/
def readRecords : Nat → Bytes → List (Bytes × Bytes)
  | 0, _ => []
  | n + 1, fp =>
      match readLens fp with
      | none => []
      | some (idLen, dsmlLen, fp) =>
          if fp.length < idLen + dsmlLen then []
          else
            (fp.take idLen, slice fp idLen (idLen + dsmlLen)) ::
              readRecords n (fp.drop (idLen + dsmlLen))

/-- The entries of a file; an empty file has none. -/
def toolMapRecords (fp : Bytes) : List (Bytes × Bytes) :=
  if fp.take 4 = bytes "KTM" ++ [1] then
    readRecords (leGet32 (fp.drop 4)) (fp.drop kvToolMapHeaderBytes)
  else []

/-! ## Little-endian lengths -/

theorem length_lePut32 (v : Nat) : (lePut32 v).length = 4 := rfl

/-- A length reads back. -/
theorem leGet32_lePut32 {v : Nat} (h : v ≤ uint32Max) (rest : Bytes) :
    leGet32 (lePut32 v ++ rest) = v := by
  have hv : v < 2 ^ 32 := by
    have : uint32Max < 2 ^ 32 := by decide
    omega
  have hbyte : ∀ n : Nat, (UInt8.ofNat n).toNat = n % 256 := fun n => UInt8.toNat_ofNat'
  have hget : leGet32 (lePut32 v ++ rest) =
      v % 256 ||| (v >>> 8 % 256) <<< 8 ||| (v >>> 16 % 256) <<< 16 |||
        (v >>> 24 % 256) <<< 24 := by
    simp only [leGet32, lePut32, List.cons_append, List.nil_append, List.getD_cons_zero,
      List.getD_cons_succ, hbyte]
  have hor : ∀ a b k : Nat, a < 2 ^ k → a ||| b <<< k = a + b * 2 ^ k := fun a b k ha => by
    rw [Nat.or_comm, ← Nat.shiftLeft_add_eq_or_of_lt ha, Nat.shiftLeft_eq, Nat.add_comm]
  rw [hget, hor _ _ 8 (by omega), hor _ _ 16 (by omega), hor _ _ 24 (by omega)]
  simp only [Nat.shiftRight_eq_div_pow]
  omega

/-! ## Files -/

/-- The lengths of an entry fit into their fields. -/
def FitsRecord (q : Bytes × Bytes) : Prop := q.1.length ≤ uint32Max ∧ q.2.length ≤ uint32Max

def recordOf (q : Bytes × Bytes) : Bytes := kvToolMapRecord q.1 q.2

/-- A file with these entries; without any nothing is written. -/
def toolMapFile (recs : List (Bytes × Bytes)) : Bytes :=
  if recs = [] then [] else kvToolMapHeader recs.length ++ recs.flatMap recordOf

theorem readLens_recordOf {q : Bytes × Bytes} (h : FitsRecord q) (rest : Bytes) :
    readLens (recordOf q ++ rest) = some (q.1.length, q.2.length, q.1 ++ q.2 ++ rest) := by
  have heq : recordOf q ++ rest =
      lePut32 q.1.length ++ (lePut32 q.2.length ++ (q.1 ++ q.2 ++ rest)) := by
    simp only [recordOf, kvToolMapRecord, List.append_assoc]
  rw [readLens, heq, if_neg (by simp only [List.length_append, length_lePut32]; omega),
    leGet32_lePut32 h.1,
    List.drop_left' (length_lePut32 _), leGet32_lePut32 h.2, show 8 = 4 + 4 from rfl,
    ← List.drop_drop, List.drop_left' (length_lePut32 _), List.drop_left' (length_lePut32 _)]

theorem take_left_pair (a b rest : Bytes) : (a ++ b ++ rest).take a.length = a := by
  rw [List.append_assoc, List.take_left]

theorem slice_left_pair (a b rest : Bytes) :
    slice (a ++ b ++ rest) a.length (a.length + b.length) = b := by
  rw [slice, List.append_assoc, List.drop_left, Nat.add_sub_cancel_left, List.take_left]

theorem drop_left_pair (a b rest : Bytes) :
    (a ++ b ++ rest).drop (a.length + b.length) = rest := by
  rw [← List.length_append, List.drop_left]

theorem readRecords_flatMap : ∀ (recs : List (Bytes × Bytes)), (∀ q ∈ recs, FitsRecord q) →
    readRecords recs.length (recs.flatMap recordOf) = recs := by
  intro recs
  induction recs with
  | nil => intro _; rfl
  | cons q recs ih =>
    intro h
    have hread := readLens_recordOf (h q List.mem_cons_self) (recs.flatMap recordOf)
    rw [List.length_cons, readRecords, List.flatMap_cons, hread]
    dsimp only
    rw [if_neg (by simp), take_left_pair, slice_left_pair, drop_left_pair,
      ih fun r hr => h r (List.mem_cons_of_mem q hr)]

/-- The fields of a header. -/
theorem kvToolMapHeader_fields {count : Nat} (h : count ≤ uint32Max) (rest : Bytes) :
    (kvToolMapHeader count ++ rest).take 4 = bytes "KTM" ++ [1] ∧
      leGet32 ((kvToolMapHeader count ++ rest).drop 4) = count ∧
      (kvToolMapHeader count ++ rest).drop kvToolMapHeaderBytes = rest := by
  have hmagic : (bytes "KTM" ++ [1]).length = 4 := by decide
  have hheader : (kvToolMapHeader count).length = kvToolMapHeaderBytes := by
    rw [kvToolMapHeader, List.length_append, hmagic, length_lePut32]
    rfl
  refine ⟨?_, ?_, List.drop_left' hheader⟩
  · rw [kvToolMapHeader, List.append_assoc, List.take_left' hmagic]
  · rw [kvToolMapHeader, List.append_assoc, List.drop_left' hmagic, leGet32_lePut32 h]

/-- A file reads back as its entries. -/
theorem toolMapRecords_file {recs : List (Bytes × Bytes)} (hlen : recs.length ≤ uint32Max)
    (h : ∀ q ∈ recs, FitsRecord q) : toolMapRecords (toolMapFile recs) = recs := by
  rw [toolMapFile]
  by_cases hnil : recs = []
  · rw [if_pos hnil, hnil]
    decide
  · obtain ⟨h4, hcount, hrest⟩ := kvToolMapHeader_fields hlen (recs.flatMap recordOf)
    rw [if_neg hnil, toolMapRecords, if_pos h4, hcount, hrest, readRecords_flatMap recs h]

/-! ## Measuring and writing -/

def recordSize (q : Bytes × Bytes) : Nat := 8 + q.1.length + q.2.length

/-- The entries of a block. -/
def blockRecords (b : ToolMemoryBlock) : List (Bytes × Bytes) := b.entries.map (·, b.dsml)

/-- Measuring a chain counts its entries and their bytes when both fit. -/
theorem measureChain_eq {dsml : Bytes} (hd : dsml.length ≤ uint32Max) :
    ∀ (chain : List Bytes) (count size : Nat), (∀ id ∈ chain, id.length ≤ uint32Max) →
    count + chain.length ≤ uint32Max →
    size + ((chain.map (·, dsml)).map recordSize).sum ≤ uint64Max →
    measureChain dsml.length chain (count, size) =
      some (count + chain.length, size + ((chain.map (·, dsml)).map recordSize).sum) := by
  intro chain
  induction chain with
  | nil => intro count size _ _ _; rfl
  | cons id chain ih =>
    intro count size hids hcount hsize
    have hid := hids id List.mem_cons_self
    rw [List.map_cons, List.map_cons, List.sum_cons] at hsize
    have hrec : recordSize (id, dsml) = 8 + id.length + dsml.length := rfl
    rw [List.length_cons] at hcount
    rw [measureChain, if_neg (by omega), if_neg (by omega), if_neg (by omega),
      ih _ _ (fun i hi => hids i (List.mem_cons_of_mem id hi)) (by omega) (by omega)]
    rw [List.length_cons, List.map_cons, List.map_cons, List.sum_cons, hrec, Nat.add_assoc,
      Nat.add_comm 1, Nat.add_assoc size]

theorem writeChain_eq {dsml : Bytes} (hd : dsml.length ≤ uint32Max) :
    ∀ (chain : List Bytes) (fp : Bytes), (∀ id ∈ chain, id.length ≤ uint32Max) →
    writeChain dsml chain fp = fp ++ (chain.map (·, dsml)).flatMap recordOf := by
  intro chain
  induction chain with
  | nil => intro fp _; exact (List.append_nil fp).symm
  | cons id chain ih =>
    intro fp hids
    have hid := hids id List.mem_cons_self
    rw [writeChain, if_neg (by omega), ih _ fun i hi => hids i (List.mem_cons_of_mem id hi),
      List.map_cons, List.flatMap_cons, List.append_assoc]
    rfl

/-- Measuring the blocks visited. -/
theorem measureBlocks_eq : ∀ (bs : List ToolMemoryBlock) (count size : Nat),
    (∀ q ∈ bs.flatMap blockRecords, FitsRecord q) →
    (∀ b ∈ bs, b.dsml.length ≤ uint32Max) →
    count + (bs.flatMap blockRecords).length ≤ uint32Max →
    size + ((bs.flatMap blockRecords).map recordSize).sum ≤ uint64Max →
    bs.foldlM (fun acc b => measureChain b.dsml.length b.entries acc) (count, size) =
      some (count + (bs.flatMap blockRecords).length,
        size + ((bs.flatMap blockRecords).map recordSize).sum) := by
  intro bs
  induction bs with
  | nil => intro count size _ _ _ _; rfl
  | cons b bs ih =>
    intro count size hfits hd hcount hsize
    rw [List.flatMap_cons] at hfits hcount hsize
    rw [List.length_append] at hcount
    rw [List.map_append, List.sum_append] at hsize
    have hlen : (blockRecords b).length = b.entries.length := List.length_map _
    have hids : ∀ id ∈ b.entries, id.length ≤ uint32Max := fun id hid =>
      (hfits (id, b.dsml) (List.mem_append_left _ (List.mem_map_of_mem hid))).1
    have hstep := measureChain_eq (hd b List.mem_cons_self) b.entries count size hids (by omega)
      (by rw [blockRecords] at hsize; omega)
    rw [List.foldlM_cons, hstep, Option.bind_eq_bind, Option.bind_some, ← hlen]
    have hrest := ih (count + (blockRecords b).length)
      (size + ((blockRecords b).map recordSize).sum)
      (fun q hq => hfits q (List.mem_append_right _ hq))
      (fun c hc => hd c (List.mem_cons_of_mem b hc)) (by omega) (by omega)
    rw [List.flatMap_cons, List.length_append, List.map_append, List.sum_append,
      ← Nat.add_assoc, ← Nat.add_assoc]
    exact hrest

theorem writeBlocks_eq : ∀ (bs : List ToolMemoryBlock) (fp : Bytes),
    (∀ q ∈ bs.flatMap blockRecords, FitsRecord q) → (∀ b ∈ bs, b.dsml.length ≤ uint32Max) →
    bs.foldlM (fun fp b => some (writeChain b.dsml b.entries fp)) fp =
      some (fp ++ (bs.flatMap blockRecords).flatMap recordOf) := by
  intro bs
  induction bs with
  | nil => intro fp _ _; exact congrArg some (List.append_nil fp).symm
  | cons b bs ih =>
    intro fp hfits hd
    rw [List.flatMap_cons] at hfits
    have hids : ∀ id ∈ b.entries, id.length ≤ uint32Max := fun id hid =>
      (hfits (id, b.dsml) (List.mem_append_left _ (List.mem_map_of_mem hid))).1
    rw [List.foldlM_cons, Option.bind_eq_bind, Option.bind_some,
      writeChain_eq (hd b List.mem_cons_self) b.entries fp hids,
      ih _ (fun q hq => hfits q (List.mem_append_right _ hq))
        fun c hc => hd c (List.mem_cons_of_mem b hc),
      List.flatMap_cons, List.flatMap_append, List.append_assoc]
    rfl

/-! ## The entries written -/

/-- The entries of the blocks visited: the pairs with one of the texts, each
once. -/
theorem flatMap_blockRecords {m : ToolMemory} (h : m.Wf) {bs : List ToolMemoryBlock}
    {ds : List Bytes} (hnd : (bs.map (·.dsml)).Nodup)
    (hmem : ∀ b, b ∈ bs ↔ b ∈ m.blocks ∧ b.dsml ∈ ds) :
    ((bs.flatMap blockRecords).map Prod.fst).Nodup ∧
      ∀ q, q ∈ bs.flatMap blockRecords ↔ q ∈ m.pairs ∧ q.2 ∈ ds := by
  have hentry : ∀ b ∈ bs, ∀ id, id ∈ b.entries ↔ (id, b.dsml) ∈ m.pairs := by
    intro b hb id
    rw [(h.chain b ((hmem b).mp hb).1).mem_iff, List.mem_map]
    constructor
    · rintro ⟨q, hq, rfl⟩
      obtain ⟨hqm, hd⟩ := List.mem_filter.mp hq
      rwa [← of_decide_eq_true hd]
    · intro hq
      exact ⟨_, List.mem_filter.mpr ⟨hq, decide_eq_true rfl⟩, rfl⟩
  constructor
  · have hids : (bs.flatMap blockRecords).map Prod.fst = bs.flatMap (·.entries) := by
      rw [List.map_flatMap]
      refine List.flatMap_congr fun b _ => ?_
      rw [blockRecords, List.map_map]
      exact List.map_id _
    rw [hids]
    refine List.nodup_flatMap.mpr ⟨fun b hb => ?_, ?_⟩
    · refine (h.chain b ((hmem b).mp hb).1).nodup_iff.mpr ?_
      exact List.Nodup.sublist (List.filter_sublist.map _) h.ids
    · refine List.Pairwise.imp_of_mem ?_ (List.pairwise_map.mp hnd)
      intro b c hb hc hne id hidb hidc
      have hq := List.inj_on_of_nodup_map h.ids ((hentry b hb id).mp hidb)
        ((hentry c hc id).mp hidc) rfl
      exact hne (Prod.ext_iff.mp hq).2
  · intro q
    rw [List.mem_flatMap]
    constructor
    · rintro ⟨b, hb, hq⟩
      obtain ⟨id, hid, rfl⟩ := List.mem_map.mp hq
      exact ⟨(hentry b hb id).mp hid, ((hmem b).mp hb).2⟩
    · rintro ⟨hq, hd⟩
      obtain ⟨b, hb, hbd, hid⟩ := h.block_of hq
      exact ⟨b, (hmem b).mpr ⟨hb, hbd ▸ hd⟩, List.mem_map.mpr ⟨q.1, hid, Prod.ext rfl hbd⟩⟩

/-- Whatever a map takes of these pairs fits into its fields. -/
def FitsMap (pairs : List (Bytes × Bytes)) : Prop :=
  ∀ recs : List (Bytes × Bytes), (recs.map Prod.fst).Nodup → (∀ q ∈ recs, q ∈ pairs) →
    (∀ q ∈ recs, FitsRecord q) ∧ recs.length ≤ uint32Max ∧
      kvToolMapHeaderBytes + (recs.map recordSize).sum ≤ uint64Max

/-- Nothing sets `max_bytes`, so what is remembered stays far below the fields of a
map. -/
theorem fitsMap_of_defaultLimit {m : ToolMemory} (h : m.Ok) (hmax : m.maxBytes = 0) :
    FitsMap m.pairs := by
  intro recs hnd hsub
  have hbytes : m.bytes ≤ 2 ^ 29 := by
    have hin := h.within
    have hlimit : toolMemoryMaxBytes m = 2 ^ 29 := by
      rw [toolMemoryMaxBytes, hmax]
      rfl
    rw [toolMemoryOver, hlimit] at hin
    omega
  have hsum := h.bytes
  have hlen : ∀ q ∈ m.pairs, q.1.length ≤ 2 ^ 29 ∧ q.2.length ≤ 2 ^ 29 := by
    intro q hq
    obtain ⟨b, hb, hd, -⟩ := h.block_of hq
    have h1 := List.le_sum_of_mem (List.mem_map_of_mem (f := fun q => entryBytes q.1) hq)
    have h2 := List.le_sum_of_mem (List.mem_map_of_mem (f := fun b => b.bytes) hb)
    have h3 : b.bytes = q.2.length + 1 + sizeofBlock := by rw [ToolMemoryBlock.bytes, hd]
    have h4 : entryBytes q.1 = q.1.length + 1 + sizeofEntry := rfl
    omega
  have hcount : m.pairs.length ≤ 2 ^ 29 := by
    have := List.length_le_sum_of_one_le (m.pairs.map (entryBytes ·.1)) fun n hn => by
      obtain ⟨q, -, rfl⟩ := List.mem_map.mp hn
      rw [entryBytes]
      omega
    rw [List.length_map] at this
    omega
  have hle : recs.length ≤ m.pairs.length :=
    (List.subperm_of_subset (List.Nodup.of_map _ hnd) hsub).length_le
  have hsize : (recs.map recordSize).sum ≤ recs.length * 2 ^ 31 := by
    have := List.sum_le_card_nsmul (recs.map recordSize) (2 ^ 31) fun n hn => by
      obtain ⟨q, hq, rfl⟩ := List.mem_map.mp hn
      have := hlen q (hsub q hq)
      rw [recordSize]
      omega
    rwa [List.length_map] at this
  have h32 : uint32Max = 4294967295 := rfl
  have h64 : uint64Max = 18446744073709551615 := rfl
  have h8 : kvToolMapHeaderBytes = 8 := rfl
  refine ⟨fun q hq => ?_, by omega, by omega⟩
  have := hlen q (hsub q hq)
  constructor
  · omega
  · omega

/-- The next scan of a memory. -/
def nextScan (m : ToolMemory) : ToolMemory := { m with scanClock := m.scanClock + 1 }

theorem nextScan_ok {m : ToolMemory} (h : m.Ok) : (nextScan m).Ok :=
  ⟨h.toWf.perm (List.Perm.refl _) rfl rfl rfl (Nat.le_succ _), h.within⟩

/-- What one walk over the texts of a transcript gathers. -/
structure WalkRecords (m : ToolMemory) (ds : List Bytes) (bs : List ToolMemoryBlock)
    (recs : List (Bytes × Bytes)) : Prop where
  eq : recs = bs.flatMap blockRecords
  nodup : (recs.map Prod.fst).Nodup
  mem : ∀ q, q ∈ recs ↔ q ∈ m.pairs ∧ q.2 ∈ ds
  fits : ∀ q ∈ recs, FitsRecord q
  count : recs.length ≤ uint32Max
  size : kvToolMapHeaderBytes + (recs.map recordSize).sum ≤ uint64Max
  texts : ∀ b ∈ bs, b.dsml.length ≤ uint32Max

theorem walkRecords {m : ToolMemory} (h : m.Ok) (hfit : FitsMap m.pairs) (ds : List Bytes) :
    ∃ recs, WalkRecords m ds (freshBlocks (m.scanClock + 1) ds (nextScan m)).1 recs := by
  obtain ⟨-, -, -, -, hnd, hmem⟩ := freshBlocks_spec (m.scanClock + 1) ds (nextScan_ok h)
    (Nat.le_refl _)
  -- no block has been seen in a scan that begins
  have hmem' : ∀ b, b ∈ (freshBlocks (m.scanClock + 1) ds (nextScan m)).1 ↔
      b ∈ m.blocks ∧ b.dsml ∈ ds := by
    intro b
    rw [hmem b]
    refine ⟨fun hb => ⟨hb.1, hb.2.2⟩, fun hb => ⟨hb.1, ?_, hb.2⟩⟩
    have := h.seen b hb.1
    omega
  obtain ⟨hids, hq⟩ := flatMap_blockRecords h.toWf hnd hmem'
  obtain ⟨hfits, hlen, hsize⟩ := hfit _ hids fun q hqr => ((hq q).mp hqr).1
  refine ⟨_, rfl, hids, hq, hfits, hlen, hsize, fun b hb => ?_⟩
  obtain ⟨id, hid⟩ := List.exists_mem_of_ne_nil _ (h.used b ((hmem' b).mp hb).1)
  exact (hfits (id, b.dsml) (List.mem_flatMap.mpr ⟨b, hb, List.mem_map_of_mem hid⟩)).2

/-- Measuring counts the entries of a walk. -/
theorem kvToolMapMeasureLocked_eq {m : ToolMemory} (text : Bytes) {recs : List (Bytes × Bytes)}
    (w : WalkRecords m (toolBlocks (text.length + 1) text)
      (freshBlocks (m.scanClock + 1) (toolBlocks (text.length + 1) text) (nextScan m)).1 recs) :
    kvToolMapMeasureLocked m text =
      ((freshBlocks (m.scanClock + 1) (toolBlocks (text.length + 1) text) (nextScan m)).2,
        some (recs.length, if recs.length = 0 then 0 else
          kvToolMapHeaderBytes + (recs.map recordSize).sum)) := by
  have hcount := w.count
  have hfold := measureBlocks_eq _ 0 kvToolMapHeaderBytes (w.eq ▸ w.fits) w.texts
    (by rw [← w.eq]; omega) (by rw [← w.eq]; exact w.size)
  have hscan := kvToolMapScan_eq (text.length + 1) text (nextScan m) (0, kvToolMapHeaderBytes) _
    hfold
  rw [← w.eq] at hscan
  rw [kvToolMapMeasureLocked]
  dsimp only [nextScan] at hscan ⊢
  rw [hscan, Option.map_some, Nat.zero_add]

/-- What a write says of the memory: nothing that it remembers changes. -/
structure ToolMapWritten.Keeps (w : ToolMapWritten) (s : ReplayState) : Prop where
  mem : w.state.toolMem.Ok
  limits : s.toolMem.SameLimits w.state.toolMem
  pairs : w.state.toolMem.pairs = s.toolMem.pairs
  replay : w.state.disableExactDsmlToolReplay = s.disableExactDsmlToolReplay

/-- The size of a file with these entries. -/
theorem length_toolMapFile (recs : List (Bytes × Bytes)) :
    (toolMapFile recs).length =
      if recs.length = 0 then 0 else kvToolMapHeaderBytes + (recs.map recordSize).sum := by
  have hrecord : ∀ q, (recordOf q).length = recordSize q := by
    intro q
    simp only [recordOf, kvToolMapRecord, List.length_append, length_lePut32, recordSize]
  have hheader : (kvToolMapHeader recs.length).length = kvToolMapHeaderBytes := by
    rw [kvToolMapHeader, List.length_append, length_lePut32]
    decide
  unfold toolMapFile
  by_cases hnil : recs = []
  · simp [hnil]
  · rw [if_neg hnil, if_neg (by simpa using hnil), List.length_append, hheader,
      List.length_flatMap]
    simp only [hrecord]

/-- What a write of a transcript writes, and what it says it has written: the pairs of
the memory whose texts the scan comes upon, each once. -/
theorem kvToolMapWrite_fits {s : ReplayState} (h : s.toolMem.Ok) (hfit : FitsMap s.toolMem.pairs)
    (hon : s.disableExactDsmlToolReplay = false) (text : Bytes) :
    (kvToolMapWrite s text).Keeps s ∧ (kvToolMapWrite s text).ok = true ∧
    (kvToolMapWrite s text).writtenBytes = (kvToolMapWrite s text).file.length ∧
    ∃ recs : List (Bytes × Bytes), (kvToolMapWrite s text).file = toolMapFile recs ∧
      recs.length ≤ uint32Max ∧ (∀ q ∈ recs, FitsRecord q) ∧ (recs.map Prod.fst).Nodup ∧
      ∀ q, q ∈ recs ↔ q ∈ s.toolMem.pairs ∧ q.2 ∈ toolBlocks (text.length + 1) text := by
  by_cases htext : text = []
  · have hempty : toolBlocks (text.length + 1) text = [] := by
      rw [htext]
      decide
    rw [kvToolMapWrite, if_pos (Or.inr htext), hempty]
    exact ⟨⟨h, ⟨rfl, rfl⟩, rfl, rfl⟩, rfl, rfl, [], rfl, Nat.zero_le _,
      fun q hq => (List.not_mem_nil hq).elim, List.nodup_nil, fun q => by simp⟩
  obtain ⟨ds, hds⟩ : ∃ ds, ds = toolBlocks (text.length + 1) text := ⟨_, rfl⟩
  obtain ⟨recs₁, w₁⟩ := walkRecords h hfit ds
  have hmeasure := kvToolMapMeasureLocked_eq text (hds ▸ w₁)
  rw [← hds] at hmeasure
  obtain ⟨hok₁, hlim₁, hp₁, -, -⟩ := freshBlocks_spec (s.toolMem.scanClock + 1) ds
    (nextScan_ok h) (Nat.le_refl _)
  obtain ⟨m, hm⟩ : ∃ m, m = (freshBlocks (s.toolMem.scanClock + 1) ds (nextScan s.toolMem)).2 :=
    ⟨_, rfl⟩
  rw [← hm] at hok₁ hlim₁ hp₁ hmeasure
  have hp : m.pairs = s.toolMem.pairs := hp₁
  obtain ⟨recs₂, w₂⟩ := walkRecords hok₁ (hp ▸ hfit) ds
  obtain ⟨hok₂, hlim₂, hp₂, -, -⟩ := freshBlocks_spec (m.scanClock + 1) ds (nextScan_ok hok₁)
    (Nat.le_refl _)
  -- the second walk gathers the entries the first one counted
  have hperm : recs₁.Perm recs₂ :=
    (List.perm_ext_iff_of_nodup (List.Nodup.of_map _ w₁.nodup)
      (List.Nodup.of_map _ w₂.nodup)).mpr fun q => by rw [w₁.mem, w₂.mem, hp]
  have hoff : ¬ (s.disableExactDsmlToolReplay = true ∨ text = []) := by simp [hon, htext]
  rw [kvToolMapWrite, if_neg hoff, hmeasure, ← hds]
  dsimp only
  by_cases hzero : recs₁.length = 0
  · rw [if_pos hzero]
    obtain rfl := List.length_eq_zero_iff.mp hzero
    exact ⟨⟨hok₁, hlim₁, hp, rfl⟩, rfl, rfl, [], rfl, Nat.zero_le _, w₁.fits, w₁.nodup, w₁.mem⟩
  · rw [if_neg hzero]
    have hfold := writeBlocks_eq _ (kvToolMapHeader recs₁.length) (w₂.eq ▸ w₂.fits) w₂.texts
    rw [hds] at hfold
    have hscan := kvToolMapScan_eq (text.length + 1) text (nextScan m)
      (kvToolMapHeader recs₁.length) _ hfold
    rw [← hds, ← w₂.eq] at hscan
    have hne : recs₂ ≠ [] := by
      rintro rfl
      exact hzero hperm.length_eq
    have hfile : (kvToolMapScan (m.scanClock + 1)
        (fun b fp => some (writeChain b.dsml b.entries fp)) (text.length + 1) text
        { m with scanClock := m.scanClock + 1 } (kvToolMapHeader recs₁.length)).2.getD [] =
        toolMapFile recs₂ := by
      rw [toolMapFile, if_neg hne, ← hperm.length_eq]
      exact congrArg (fun r => r.2.getD []) hscan
    refine ⟨⟨?_, ?_, ?_, rfl⟩, rfl, ?_, recs₂, hfile, w₂.count, w₂.fits, w₂.nodup, fun q => ?_⟩
    · exact congrArg Prod.fst hscan ▸ hok₂
    · exact congrArg Prod.fst hscan ▸ ⟨hlim₂.1.trans hlim₁.1, hlim₂.2.trans hlim₁.2⟩
    · exact congrArg Prod.fst hscan ▸ hp₂.trans hp
    · dsimp only
      rw [hfile, length_toolMapFile, ← hperm.length_eq, (hperm.map recordSize).sum_nat]
    · rw [w₂.mem, hp]

theorem kvToolMapWrite_spec {s : ReplayState} (h : s.toolMem.Ok) (hmax : s.toolMem.maxBytes = 0)
    (hon : s.disableExactDsmlToolReplay = false) (text : Bytes) :
    (kvToolMapWrite s text).Keeps s ∧ (kvToolMapWrite s text).ok = true ∧
    ∃ recs : List (Bytes × Bytes), (kvToolMapWrite s text).file = toolMapFile recs ∧
      recs.length ≤ uint32Max ∧ (∀ q ∈ recs, FitsRecord q) ∧ (recs.map Prod.fst).Nodup ∧
      ∀ q, q ∈ recs ↔ q ∈ s.toolMem.pairs ∧ q.2 ∈ toolBlocks (text.length + 1) text :=
  have hw := kvToolMapWrite_fits h (fitsMap_of_defaultLimit h hmax) hon text
  ⟨hw.1, hw.2.1, hw.2.2.2⟩

/-! ## Loading -/

/-- A load keeps the invariant, whatever bytes it reads. -/
theorem toolMemoryPutSource_ok {s : ReplayState} (h : s.toolMem.Ok) (id dsml : Bytes)
    (source : ToolMemorySource) :
    (toolMemoryPutSource s id dsml source).toolMem.Ok ∧
      s.toolMem.SameLimits (toolMemoryPutSource s id dsml source).toolMem ∧
      (toolMemoryPutSource s id dsml source).disableExactDsmlToolReplay =
        s.disableExactDsmlToolReplay ∧
      ∀ q ∈ (toolMemoryPutSource s id dsml source).toolMem.pairs,
        q ∈ s.toolMem.pairs ∨ q = (id, dsml) := by
  rw [toolMemoryPutSource]
  by_cases hoff : s.disableExactDsmlToolReplay = true
  · rw [if_pos hoff]
    exact ⟨h, ⟨rfl, rfl⟩, rfl, fun q hq => Or.inl hq⟩
  · rw [if_neg hoff]
    obtain ⟨hok, hlim, hskip, hpre⟩ := toolMemoryPut_spec h id dsml source
    refine ⟨hok, hlim, rfl, fun q hq => ?_⟩
    by_cases hs : id = [] ∨ dsml = []
    · exact Or.inl (hskip hs ▸ hq)
    · obtain ⟨hid, hne⟩ := not_or.mp hs
      rcases List.mem_cons.mp ((hpre hid hne).subset hq) with hq | hq
      · exact Or.inr hq
      · exact Or.inl (mem_otherPairs.mp hq).1

theorem kvToolMapLoadLoop_ok (wanted : Option (List Bytes)) : ∀ (n : Nat) (fp : Bytes)
    {s : ReplayState} (loaded : Nat), s.toolMem.Ok →
    (kvToolMapLoadLoop wanted n fp s loaded).1.toolMem.Ok ∧
      s.toolMem.SameLimits (kvToolMapLoadLoop wanted n fp s loaded).1.toolMem := by
  intro n
  induction n with
  | zero => intro fp s loaded h; exact ⟨h, rfl, rfl⟩
  | succ n ih =>
    intro fp s loaded h
    rw [kvToolMapLoadLoop]
    cases hr : readLens fp with
    | none => exact ⟨h, rfl, rfl⟩
    | some r =>
      obtain ⟨idLen, dsmlLen, fp⟩ := r
      dsimp only
      split
      · exact ⟨h, rfl, rfl⟩
      · split
        · exact ⟨h, rfl, rfl⟩
        · split
          · obtain ⟨hok, hlim, -, -⟩ := toolMemoryPutSource_ok h (cstr (fp.take idLen))
              (cstr (slice fp idLen (idLen + dsmlLen))) .disk
            obtain ⟨hok', hlim'⟩ := ih (fp.drop (idLen + dsmlLen)) (loaded + 1) hok
            exact ⟨hok', hlim'.1.trans hlim.1, hlim'.2.trans hlim.2⟩
          · exact ih _ _ h

theorem kvToolMapLoadFromPos_ok {s : ReplayState} (h : s.toolMem.Ok) (fp : Bytes)
    (wanted : Option (List Bytes)) :
    (kvToolMapLoadFromPos s fp wanted).1.toolMem.Ok ∧
      s.toolMem.SameLimits (kvToolMapLoadFromPos s fp wanted).1.toolMem := by
  rw [kvToolMapLoadFromPos]
  split
  · exact ⟨h, rfl, rfl⟩
  · split
    · exact ⟨h, rfl, rfl⟩
    · dsimp only
      split
      · exact ⟨h, rfl, rfl⟩
      · exact kvToolMapLoadLoop_ok wanted _ _ 0 h

/-- What a load of a file with these entries adds is among them. -/
theorem kvToolMapLoadLoop_pairs (wanted : Option (List Bytes)) :
    ∀ (recs : List (Bytes × Bytes)) {s : ReplayState} (loaded : Nat), s.toolMem.Ok →
    (∀ q ∈ recs, FitsRecord q) → (∀ q ∈ recs, NulFree q.1 ∧ NulFree q.2) →
    ∀ q ∈ (kvToolMapLoadLoop wanted recs.length (recs.flatMap recordOf) s loaded).1.toolMem.pairs,
      q ∈ s.toolMem.pairs ∨ q ∈ recs := by
  intro recs
  induction recs with
  | nil => intro s loaded _ _ _ q hq; exact Or.inl hq
  | cons r recs ih =>
    intro s loaded h hfits hnul q hq
    have hread := readLens_recordOf (hfits r List.mem_cons_self) (recs.flatMap recordOf)
    have hfits' : ∀ q ∈ recs, FitsRecord q := fun q hq => hfits q (List.mem_cons_of_mem r hq)
    have hnul' : ∀ q ∈ recs, NulFree q.1 ∧ NulFree q.2 :=
      fun q hq => hnul q (List.mem_cons_of_mem r hq)
    rw [List.length_cons, kvToolMapLoadLoop, List.flatMap_cons, hread] at hq
    dsimp only at hq
    rw [take_left_pair, slice_left_pair, drop_left_pair,
      cstr_iff.mpr (hnul r List.mem_cons_self).1, cstr_iff.mpr (hnul r List.mem_cons_self).2] at hq
    split at hq
    · exact Or.inl hq
    · split at hq
      · exact Or.inl hq
      · split at hq
        · obtain ⟨hok, -, -, hmem⟩ := toolMemoryPutSource_ok h r.1 r.2 .disk
          rcases ih _ hok hfits' hnul' q hq with hq | hq
          · rcases hmem q hq with hq | rfl
            · exact Or.inl hq
            · exact Or.inr List.mem_cons_self
          · exact Or.inr (List.mem_cons_of_mem r hq)
        · rcases ih _ h hfits' hnul' q hq with hq | hq
          · exact Or.inl hq
          · exact Or.inr (List.mem_cons_of_mem r hq)

theorem kvToolMapLoadFromPos_pairs {s : ReplayState} (h : s.toolMem.Ok)
    {recs : List (Bytes × Bytes)} (hlen : recs.length ≤ uint32Max)
    (hfits : ∀ q ∈ recs, FitsRecord q) (hnul : ∀ q ∈ recs, NulFree q.1 ∧ NulFree q.2)
    (wanted : Option (List Bytes)) :
    ∀ q ∈ (kvToolMapLoadFromPos s (toolMapFile recs) wanted).1.toolMem.pairs,
      q ∈ s.toolMem.pairs ∨ q ∈ recs := by
  intro q hq
  rw [kvToolMapLoadFromPos] at hq
  split at hq
  · exact Or.inl hq
  · rename_i hopen
    have hne : recs ≠ [] := by
      rintro rfl
      exact hopen (Or.inr (by decide))
    obtain ⟨-, hcount, hrest⟩ := kvToolMapHeader_fields hlen (recs.flatMap recordOf)
    rw [toolMapFile, if_neg hne] at hq
    split at hq
    · exact Or.inl hq
    · rw [hcount, hrest] at hq
      dsimp only at hq
      split at hq
      · exact Or.inl hq
      · exact kvToolMapLoadLoop_pairs wanted recs 0 h hfits hnul q hq

end Sf37.Server

/-
Sf37.Engine.Imatrix — the importance vectors that the engine collects, and the file it saves.

A float is its 32 bits; the arithmetic of floats is `FloatOps`. Sums of squares stand in flat
arrays, a row for each expert of each layer.

* `observe_row`: one observation changes the row of its expert and no other.
* `collect_row`: what a row holds is what was routed to its expert.
* `entryValues_get`: where the values of an expert stand in an entry.
* `moeName_inj`: no two entries have the same name.
-/
import Sf37.Engine.Device
import Sf37.Gguf.Cursor
import Sf37.Run.Parts
import Sf37.Text.LittleEndian

namespace Sf37.Engine.Imatrix

open Sf37.Run Sf37.Text Sf37.Gguf

/-! ## Floats -/

/-- A `float`, as its bits. -/
abbrev F32 := UInt32

/-- `isfinite`. -/
def isFinite (v : F32) : Bool := v &&& 0x7f800000 != 0x7f800000

/-- `1.0f`. -/
def oneF : F32 := 0x3f800000

/-- The arithmetic of floats; `mean s c` is `s * (1.0f / (float)c)` and `quotient v n` is
`v / (float)n`. -/
structure FloatOps where
  add : F32 → F32 → F32
  mul : F32 → F32 → F32
  mean : F32 → UInt32 → F32
  quotient : F32 → ℤ → F32
  quotient_one : ∀ v, isFinite (quotient v 1) = true → quotient v 1 = v

/-! ## The collector -/

def experts : ℕ := 288
def expertUsed : ℕ := 8
def expertFf : ℕ := 1280

/-- Sums of squares with the counts of what was summed up: `gate_up_sum2` and `gate_up_count`,
or `down_sum2` and `down_count`. -/
structure Sums where
  sum2 : ℕ → F32
  count : ℕ → UInt32

/-- `sf37_imatrix_collector`. -/
structure Collector where
  gateUp : Sums
  down : Sums
  observedTokens : ℕ
  observedRoutes : ℕ
  chunks : UInt32

/-- `imatrix_collector_init`. -/
def collectorInit : Collector := ⟨⟨fun _ => 0, fun _ => 0⟩, ⟨fun _ => 0, fun _ => 0⟩, 0, 0, 0⟩

/-- `imatrix_gate_up_ptr` and `imatrix_down_ptr`, for rows of `cols`. -/
def rowPtr (cols il expert : ℕ) : ℕ := (il * experts + expert) * cols

/-- `imatrix_gate_up_count_ptr` and `imatrix_down_count_ptr`. -/
def countPtr (il expert : ℕ) : ℕ := il * experts + expert

/-- A count that stays at `UINT32_MAX`. -/
def bump (c : UInt32) : UInt32 := if c != 0xffffffff then c + 1 else c

/-- The squares of a vector are added to a row, and counted. -/
def observe (ops : FloatOps) (cols il expert : ℕ) (v : ℕ → F32) (s : Sums) : Sums where
  sum2 := (List.range cols).foldl (fun sum2 i =>
    let p := rowPtr cols il expert + i
    Function.update sum2 p (ops.add (sum2 p) (ops.mul (v i) (v i)))) s.sum2
  count := Function.update s.count (countPtr il expert) (bump (s.count (countPtr il expert)))

/-- What `imatrix_collect_layer_batch` reads back of a layer: `ffn_norm_buf`, `routed_mid_buf`
and `selected_buf`. -/
structure Batch where
  il : ℕ
  nTok : ℕ
  ffnNorm : ℕ → F32
  routedMid : ℕ → F32
  selected : ℕ → ℤ

/-- One slot of one token. -/
def collectSlot (ops : FloatOps) (b : Batch) (t : ℕ) (c : Collector) (slot : ℕ) : Collector :=
  let expert := b.selected (t * expertUsed + slot)
  if expert < 0 ∨ (experts : ℤ) ≤ expert then c
  else
    { c with
      gateUp := observe ops embd b.il expert.toNat (fun i => b.ffnNorm (t * embd + i)) c.gateUp
      down := observe ops expertFf b.il expert.toNat
        (fun i => b.routedMid ((t * expertUsed + slot) * expertFf + i)) c.down
      observedRoutes := c.observedRoutes + 1 }

/-- `imatrix_collect_layer_batch`. -/
def collectLayerBatch (ops : FloatOps) (c : Collector) (b : Batch) : Collector :=
  if b.nTok = 0 ∨ b.il < 3 ∨ mainLayers ≤ b.il then c
  else
    let c := (List.range b.nTok).foldl
      (fun c t => (List.range expertUsed).foldl (collectSlot ops b t) c) c
    { c with observedTokens := c.observedTokens + b.nTok, chunks := c.chunks + 1 }

/-- The collector after some batches. -/
def collect (ops : FloatOps) (batches : List Batch) : Collector :=
  batches.foldl (collectLayerBatch ops) collectorInit

/-! ## The file -/

/-- The matrices of a layer's experts. -/
inductive Role
  | gate
  | up
  | down
  deriving DecidableEq

/-- The columns of a matrix: `SF37_EMBD` or `SF37_EXPERT_FF`. -/
def Role.cols : Role → ℕ
  | .down => expertFf
  | _ => embd

/-- The sums of a matrix; gate and up have the same. -/
def Role.sums (c : Collector) : Role → Sums
  | .down => c.down
  | _ => c.gateUp

def Role.suffix : Role → Bytes
  | .gate => bytes ".moe.gate_proj.weight"
  | .up => bytes ".moe.up_proj.weight"
  | .down => bytes ".moe.down_proj.weight"

/-- The name under which the engine has found a matrix. -/
def moeName (il : ℕ) (role : Role) : Bytes :=
  bytes "model.layers." ++ (decimal il ++ role.suffix)

/-- The values that `imatrix_write_entry` writes. -/
def entryValues (ops : FloatOps) (s : Sums) (il cols : ℕ) : List F32 :=
  (List.range experts).flatMap fun e => (List.range cols).map fun i =>
    let count := s.count (il * experts + e)
    if count = 0 then oneF else ops.mean (s.sum2 (il * experts * cols + (e * cols + i))) count

/-- `imatrix_write_entry`. -/
def writeEntry (name : Bytes) (values : List F32) : Bytes :=
  littleEndian 4 name.length ++ name ++ littleEndian 4 1 ++ littleEndian 4 values.length ++
    values.flatMap fun v => littleEndian 4 v.toNat

/-- The entries of the file, by layer and matrix. -/
def savedEntries (ops : FloatOps) (c : Collector) : List (Bytes × List F32) :=
  (List.range' 3 (mainLayers - 3)).flatMap fun il => [Role.gate, .up, .down].map fun role =>
    (moeName il role, entryValues ops (role.sums c) il role.cols)

/-- `imatrix_collector_save`. -/
def collectorSave (ops : FloatOps) (c : Collector) (dataset : Bytes) : Bytes :=
  littleEndian 4 ((mainLayers - 3) * 3) ++
    (savedEntries ops c).flatMap (fun e => writeEntry e.1 e.2) ++
    littleEndian 4 c.chunks.toNat ++ littleEndian 4 dataset.length ++ dataset

/-! ## What was routed to an expert -/

/-- A vector that a token has sent to an expert of a layer: what goes into the gate and the up
matrix, and what goes into the down matrix. -/
structure Route where
  il : ℕ
  expert : ℕ
  vector : Role → ℕ → F32

/-- The route of one slot of one token. -/
def Batch.route (b : Batch) (t slot : ℕ) : Option Route :=
  let expert := b.selected (t * expertUsed + slot)
  if expert < 0 ∨ (experts : ℤ) ≤ expert then none
  else some ⟨b.il, expert.toNat, fun
    | .down => fun i => b.routedMid ((t * expertUsed + slot) * expertFf + i)
    | _ => fun i => b.ffnNorm (t * embd + i)⟩

/-- The routes of the tokens of a batch. -/
def Batch.routes (b : Batch) : List Route :=
  if b.nTok = 0 ∨ b.il < 3 ∨ mainLayers ≤ b.il then []
  else (List.range b.nTok).flatMap fun t => (List.range expertUsed).filterMap (b.route t)

/-- The vectors that were routed to an expert, in order. -/
def routedTo (batches : List Batch) (il expert : ℕ) (role : Role) : List (ℕ → F32) :=
  ((batches.flatMap Batch.routes).filter fun r => r.il == il && r.expert == expert).map
    (Route.vector · role)

/-- The sum of the squares of some vectors at a place. -/
def sumOf (ops : FloatOps) (vs : List (ℕ → F32)) (i : ℕ) : F32 :=
  vs.foldl (fun s v => ops.add s (ops.mul (v i) (v i))) 0

/-- How many vectors there are, up to `UINT32_MAX`. -/
def countOf (vs : List (ℕ → F32)) : UInt32 := vs.foldl (fun c _ => bump c) 0

/-- The importance of a place: the mean of the squares, and 1 where nothing was routed. -/
def importance (ops : FloatOps) (vs : List (ℕ → F32)) (i : ℕ) : F32 :=
  if countOf vs = 0 then oneF else ops.mean (sumOf ops vs i) (countOf vs)

section Rows

variable (ops : FloatOps)

/-- The collector's sums of a matrix, over all routes. -/
theorem sums_collect (role : Role) (batches : List Batch) : role.sums (collect ops batches) =
    (batches.flatMap Batch.routes).foldl
      (fun s r => observe ops role.cols r.il r.expert (r.vector role) s)
      ⟨fun _ => 0, fun _ => 0⟩ := by
  have hslot (b : Batch) (t : ℕ) (c : Collector) (slot : ℕ) :
      role.sums (collectSlot ops b t c slot) = ((b.route t slot).toList).foldl
        (fun s r => observe ops role.cols r.il r.expert (r.vector role) s) (role.sums c) := by
    rw [collectSlot, Batch.route]
    split
    · rfl
    · cases role <;> rfl
  have hbatch (c : Collector) (b : Batch) : role.sums (collectLayerBatch ops c b) =
      b.routes.foldl (fun s r => observe ops role.cols r.il r.expert (r.vector role) s)
        (role.sums c) := by
    rw [collectLayerBatch, Batch.routes]
    split
    · rfl
    · rw [List.foldl_flatMap]
      have hturn : ∀ (c : Collector) (t : ℕ), ((List.range expertUsed).filterMap (b.route t)).foldl
          (fun s r => observe ops role.cols r.il r.expert (r.vector role) s) (role.sums c) =
            role.sums ((List.range expertUsed).foldl (collectSlot ops b t) c) := by
        intro c t
        rw [List.foldl_filterMap]
        refine List.foldl_hom (fun c => role.sums c) fun c slot => ?_
        rw [hslot]
        cases b.route t slot <;> rfl
      refine Eq.trans ?_ (List.foldl_hom (fun c => role.sums c) hturn).symm
      cases role <;> rfl
  have hinit : (⟨fun _ => 0, fun _ => 0⟩ : Sums) = role.sums collectorInit := by
    cases role <;> rfl
  rw [List.foldl_flatMap, collect, hinit]
  exact (List.foldl_hom (fun c => role.sums c) fun c b => (hbatch c b).symm).symm

variable {cols il e : ℕ}

/-- What the row of an expert holds when some vectors were routed to it. -/
def RowHolds (cols il e : ℕ) (s : Sums) (vs : List (ℕ → F32)) : Prop :=
  (∀ i < cols, s.sum2 (rowPtr cols il e + i) = sumOf ops vs i) ∧
    s.count (countPtr il e) = countOf vs

theorem observe_count {il' e' : ℕ} (v : ℕ → F32) (s : Sums) (p : ℕ) :
    (observe ops cols il' e' v s).count p =
      if p = countPtr il' e' then bump (s.count (countPtr il' e')) else s.count p :=
  Function.update_apply _ _ _ _

/-- One observation changes the row of its expert and no other. -/
theorem observe_row (he : e < experts) (il' : ℕ) {e' : ℕ} (he' : e' < experts) (v : ℕ → F32)
    {s : Sums} {vs : List (ℕ → F32)} (h : RowHolds ops cols il e s vs) :
    RowHolds ops cols il e (observe ops cols il' e' v s)
      (if (il' == il && e' == e) = true then vs ++ [v] else vs) := by
  obtain ⟨hsum, hcount⟩ := h
  have hsame : countPtr il' e' = countPtr il e → il' = il ∧ e' = e := fun heq =>
    row_inj he' he heq
  have hrow : ∀ i < cols, (observe ops cols il' e' v s).sum2 (rowPtr cols il e + i) =
      if il' = il ∧ e' = e then ops.add (s.sum2 (rowPtr cols il e + i)) (ops.mul (v i) (v i))
      else s.sum2 (rowPtr cols il e + i) := by
    intro i hi
    rw [observe]
    dsimp only
    rw [foldl_update_row fun i old => ops.add old (ops.mul (v i) (v i))]
    by_cases heq : il' = il ∧ e' = e
    · obtain ⟨rfl, rfl⟩ := heq
      rw [if_pos ⟨by omega, by omega⟩, if_pos ⟨rfl, rfl⟩, Nat.add_sub_cancel_left]
    · rw [if_neg heq, if_neg]
      rintro ⟨hle, hlt⟩
      obtain ⟨j, hj⟩ := Nat.exists_eq_add_of_le hle
      rw [rowPtr, rowPtr] at hj hlt
      exact heq (hsame (row_inj hi (by omega) hj).1.symm)
  by_cases heq : il' = il ∧ e' = e
  · rw [if_pos (by simpa using heq)]
    refine ⟨fun i hi => ?_, ?_⟩
    · rw [hrow i hi, if_pos heq, hsum i hi, sumOf, sumOf, List.foldl_append]
      rfl
    · rw [countOf, List.foldl_append, ← countOf, ← hcount]
      obtain ⟨rfl, rfl⟩ := heq
      rw [observe_count, if_pos rfl, List.foldl_cons, List.foldl_nil]
  · rw [if_neg (by simpa using heq)]
    refine ⟨fun i hi => by rw [hrow i hi, if_neg heq, hsum i hi], ?_⟩
    rw [observe_count, if_neg fun h => heq (hsame h.symm), hcount]

/-- Every route is to an expert. -/
theorem route_expert_lt {batches : List Batch} {r : Route}
    (h : r ∈ batches.flatMap Batch.routes) : r.expert < experts := by
  obtain ⟨b, -, hb⟩ := List.mem_flatMap.mp h
  rw [Batch.routes] at hb
  split at hb
  · cases hb
  · obtain ⟨t, -, ht⟩ := List.mem_flatMap.mp hb
    obtain ⟨slot, -, hslot⟩ := List.mem_filterMap.mp ht
    rw [Batch.route] at hslot
    split at hslot
    · cases hslot
    · rename_i hin
      obtain rfl := Option.some.inj hslot
      rw [not_or] at hin
      dsimp only
      omega

/-- What a row holds is what was routed to its expert. -/
theorem collect_row (role : Role) (batches : List Batch) (he : e < experts) :
    RowHolds ops role.cols il e (role.sums (collect ops batches)) (routedTo batches il e role) := by
  rw [sums_collect, routedTo]
  have hall : ∀ r ∈ batches.flatMap Batch.routes, r.expert < experts := fun r => route_expert_lt
  revert hall
  generalize batches.flatMap Batch.routes = routes
  induction routes using List.reverseRecOn with
  | nil => exact fun _ => ⟨fun _ _ => rfl, rfl⟩
  | append_singleton routes r ih =>
    intro hall
    have hstep := observe_row ops he r.il (hall r (List.mem_append_right _ List.mem_cons_self))
      (r.vector role) (ih fun r' hr => hall r' (List.mem_append_left _ hr))
    rw [List.foldl_append, List.filter_append, List.map_append]
    by_cases hmine : (r.il == il && r.expert == e) = true
    · rw [if_pos hmine] at hstep
      rw [List.filter_singleton, hmine]
      exact hstep
    · rw [if_neg hmine] at hstep
      rw [List.filter_singleton, Bool.eq_false_iff.mpr hmine, cond_false, List.map_nil,
        List.append_nil]
      exact hstep

/-- Where the values of an expert stand in an entry. -/
theorem entryValues_get (role : Role) (batches : List Batch) (he : e < experts) {i : ℕ}
    (hi : i < role.cols) :
    (entryValues ops (role.sums (collect ops batches)) il role.cols)[e * role.cols + i]? =
      some (importance ops (routedTo batches il e role) i) := by
  have hrow : RowHolds ops role.cols il e (role.sums (collect ops batches))
      (routedTo batches il e role) := collect_row ops role batches he
  generalize role.sums (collect ops batches) = s at hrow ⊢
  obtain ⟨hsum, hcount⟩ := hrow
  have hplace : il * experts * role.cols + (e * role.cols + i) = rowPtr role.cols il e + i := by
    rw [rowPtr, Nat.add_mul, Nat.add_assoc]
  have hlen (k : ℕ) : ((List.range role.cols).map fun i =>
      if s.count (il * experts + k) = 0 then oneF
      else ops.mean (s.sum2 (il * experts * role.cols + (k * role.cols + i)))
        (s.count (il * experts + k))).length = role.cols := by
    rw [List.length_map, List.length_range]
  rw [entryValues, getElem?_flatMap_rows _ hlen he hi, List.getElem?_map, List.getElem?_range hi,
    Option.map_some, hplace, hsum i hi, ← countPtr, hcount, importance]

/-- The values of an entry are importances. -/
theorem mem_entryValues {role : Role} {batches : List Batch} {v : F32}
    (h : v ∈ entryValues ops (role.sums (collect ops batches)) il role.cols) :
    ∃ e i, v = importance ops (routedTo batches il e role) i := by
  obtain ⟨e, he, h⟩ := List.mem_flatMap.mp h
  obtain ⟨i, hi, rfl⟩ := List.mem_map.mp h
  have hrow : RowHolds ops role.cols il e (role.sums (collect ops batches))
      (routedTo batches il e role) := collect_row ops role batches (List.mem_range.mp he)
  obtain ⟨hsum, hcount⟩ := hrow
  have hplace : il * experts * role.cols + (e * role.cols + i) = rowPtr role.cols il e + i := by
    rw [rowPtr, Nat.add_mul, Nat.add_assoc]
  refine ⟨e, i, ?_⟩
  dsimp only
  rw [hplace, hsum i (List.mem_range.mp hi), ← countPtr, hcount, importance]

end Rows

/-! ## Names -/

/-- The digits of a layer's number, and no dot. -/
theorem decimal_layer : ∀ il < mainLayers, (46 : UInt8) ∉ decimal il := by
  decide

theorem decimal_layer_inj {il il' : ℕ} (hil : il < mainLayers) (hil' : il' < mainLayers)
    (h : decimal il = decimal il') : il = il' := by
  have hnodup : ((List.range mainLayers).map decimal).Nodup := by decide
  exact List.inj_on_of_nodup_map hnodup (List.mem_range.mpr hil) (List.mem_range.mpr hil') h

/-- No two entries have the same name. -/
theorem moeName_inj {il il' : ℕ} {role role' : Role} (hil : il < mainLayers)
    (hil' : il' < mainLayers) (h : moeName il role = moeName il' role') :
    il = il' ∧ role = role' := by
  have htail := List.append_cancel_left h
  have hfront : ∀ (l : ℕ) (r : Role), l < mainLayers →
      (decimal l ++ r.suffix).takeWhile (· != 46) = decimal l := by
    intro l r hl
    have hno := decimal_layer l hl
    have hsuffix : r.suffix.takeWhile (· != 46) = [] := by cases r <;> decide
    have hdigits : ∀ c ∈ decimal l, (c != 46) = true := by
      intro c hc
      rw [bne_iff_ne]
      rintro rfl
      exact hno hc
    rw [List.takeWhile_append_of_pos hdigits, hsuffix, List.append_nil]
  have hdec : decimal il = decimal il' := by
    rw [← hfront il role hil, htail, hfront il' role' hil']
  rw [hdec] at htail
  have hsuffix : role.suffix = role'.suffix := List.append_cancel_left htail
  refine ⟨decimal_layer_inj hil hil' hdec, ?_⟩
  cases role <;> cases role' <;> first | rfl | exact absurd hsuffix (by decide)

end Sf37.Engine.Imatrix

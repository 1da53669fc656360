/-
Sf37.Quantize.ExpertRows — the rows of the routed matrices, quantized by several workers, each
with the importance vector of its expert.

The arithmetic of a row is a function of the row and its weights. A worker's writes are a
list, and the writes of several workers may come in any order.

* `workerLoop_eq`: a worker that splits its rows at the experts.
* `parallel_eq`: the rows of all workers together.
* `sequential_eq`: the rows of one expert after the other.
* `expertRows_own`: every row is written once, with the vector of its expert.
-/
import Sf37.Quantize.ImatrixFile

namespace Sf37.Quantize.Rows

open Sf37.Run Sf37.Text Sf37.Gguf Sf37.Engine.Imatrix Sf37.Quantize.Imatrix

/-! ## The rows of a tensor -/

/-- The bytes of a row: of its type, its values and its weights. -/
abbrev Quantizer : Type := DsType → List F32 → Option (List F32) → Bytes

/-- `n` values from a place on. -/
def rowAt (values : ℕ → F32) (off n : ℕ) : List F32 := (List.range n).map fun c => values (off + c)

/-- `ds4q_quantize_chunk`: the rows that it writes, with their places. -/
def quantizeChunk (Q : Quantizer) (type : DsType) (src : ℕ → F32) (start nrows ncols : ℕ)
    (imatrix : Option (ℕ → F32)) : List (ℕ × Bytes) :=
  (List.range nrows).map fun r =>
    (start / ncols + r,
      Q type (rowAt src (start + r * ncols) ncols) (imatrix.map (rowAt · 0 ncols)))

/-- The weights that `f32_to_type` makes up for a type that cannot do without. -/
def synthetic (ops : FloatOps) (src : ℕ → F32) (nrows ncols c : ℕ) : F32 :=
  (List.range nrows).foldl
    (fun s r => ops.add s (ops.mul (src (r * ncols + c)) (src (r * ncols + c)))) 0

/-- `f32_to_type`. -/
def f32ToType (ops : FloatOps) (Q : Quantizer) (src : ℕ → F32) (n : ℕ) (type : DsType)
    (ncols : ℕ) (imat : Option (ℕ → F32)) : Option (List (ℕ × Bytes)) :=
  if ncols = 0 ∨ n % ncols ≠ 0 then none
  else if type = .f32 ∨ type = .f16 ∨ type = .bf16 then
    some (quantizeChunk Q type src 0 (n / ncols) ncols none)
  else if (typeTraits type).canQuantize = false then none
  else if ncols % blockSize type ≠ 0 then none
  else
    let nrows := n / ncols
    let imat := match imat with
      | some w => some w
      | none => if type = .iq2Xxs then some (synthetic ops src nrows ncols) else none
    some (quantizeChunk Q type src 0 nrows ncols imat)

/-- `sf37_quant_job`. -/
structure QuantJob where
  type : DsType
  src : ℕ → F32
  ncols : ℕ
  row0 : ℕ
  nrows : ℕ
  expertRows : ℕ
  nExperts : ℕ
  imatrix : Option (ℕ → F32)

/-- The loop of `sf37_quant_worker` over the experts, up to the row `stop`. A turn takes at
least one row, so the count of the rows is enough fuel. -/
def workerLoop (Q : Quantizer) (job : QuantJob) (imatrix : ℕ → F32) (stop : ℕ) :
    ℕ → ℕ → List (ℕ × Bytes)
  | 0, _ => []
  | fuel + 1, row =>
    if row < stop then
      let expert := row / job.expertRows
      if job.nExperts ≤ expert then []
      else
        let expertEnd := (expert + 1) * job.expertRows
        let rows := (if stop < expertEnd then stop else expertEnd) - row
        quantizeChunk Q job.type job.src (row * job.ncols) rows job.ncols
            (some fun c => imatrix (expert * job.ncols + c)) ++
          workerLoop Q job imatrix stop fuel (row + rows)
    else []

/-- `sf37_quant_worker`. -/
def quantWorker (Q : Quantizer) (job : QuantJob) : List (ℕ × Bytes) :=
  match job.imatrix with
  | some imatrix =>
    if 0 < job.expertRows ∧ 0 < job.nExperts then
      workerLoop Q job imatrix (job.row0 + job.nrows) job.nrows job.row0
    else
      quantizeChunk Q job.type job.src (job.row0 * job.ncols) job.nrows job.ncols job.imatrix
  | none => quantizeChunk Q job.type job.src (job.row0 * job.ncols) job.nrows job.ncols job.imatrix

/-- `sf37_f32_to_type_parallel`: the writes of each worker. -/
def f32ToTypeParallel (ops : FloatOps) (Q : Quantizer) (src : ℕ → F32) (n : ℕ) (type : DsType)
    (ncols nThreads : ℕ) (imatrix : Option (ℕ → F32)) (expertRows nExperts : ℕ) :
    Option (List (List (ℕ × Bytes))) :=
  let alone := (f32ToType ops Q src n type ncols imatrix).map ([·])
  if ¬ isQuantType type then (f32ToType ops Q src n type ncols none).map ([·])
  else if nThreads ≤ 1 ∧ (imatrix.isSome = false ∨ expertRows = 0) then alone
  else if ncols = 0 ∨ n % ncols ≠ 0 then none
  else if ncols % blockSize type ≠ 0 then none
  else
    let nrows := n / ncols
    if nrows ≤ 1 ∧ (imatrix.isSome = false ∨ expertRows = 0) then alone
    else if 0 < expertRows ∧ 0 < nExperts ∧ nrows ≠ expertRows * nExperts then none
    else
      let workers := if nThreads < 1 then 1 else nThreads
      let workers := if nrows < workers then nrows else workers
      some ((parts 0 (shares nrows workers)).map fun part =>
        quantWorker Q ⟨type, src, ncols, part.1, part.2, expertRows, nExperts, imatrix⟩)

/-- `sf37_generate_tensor` of a tensor whose `n` values are `src`: the writes of each
worker. -/
def generateRows (ops : FloatOps) (Q : Quantizer) (im : Store) (t : Sf37Tensor) (nThreads : ℕ)
    (src : ℕ → F32) (n : ℕ) : Option (List (List (ℕ × Bytes))) :=
  let ncols := t.metadata.ne.headD 0
  match expertsOf im.sizes t with
  | some (expertRows, nExperts) => do
    let values ← im.find t.hfName (ncols * nExperts)
    f32ToTypeParallel ops Q src n t.metadata.type ncols nThreads
      (values.map fun vs i => vs.getD i 0) expertRows nExperts
  | none => f32ToTypeParallel ops Q src n t.metadata.type ncols nThreads none 0 0

/-! ## Sizes -/

/-! ## The rows of the workers -/

section Rows

variable (Q : Quantizer) (type : DsType) (src : ℕ → F32) {ncols : ℕ}

/-- Whole rows of a tensor. -/
theorem quantizeChunk_rows (hncols : 0 < ncols) (row rows : ℕ) (imatrix : Option (ℕ → F32)) :
    quantizeChunk Q type src (row * ncols) rows ncols imatrix =
      (List.range' row rows).map fun r =>
        (r, Q type (rowAt src (r * ncols) ncols) (imatrix.map (rowAt · 0 ncols))) := by
  rw [quantizeChunk, Nat.mul_div_cancel _ hncols, List.range'_eq_map_range, List.map_map]
  refine List.map_congr_left fun r _ => ?_
  rw [Function.comp_apply, Nat.add_mul]

/-- A row with the weights of its expert. -/
def expertRow (imatrix : ℕ → F32) (ncols expertRows r : ℕ) : ℕ × Bytes :=
  (r, Q type (rowAt src (r * ncols) ncols) (some (rowAt imatrix (r / expertRows * ncols) ncols)))

theorem map_fst_expertRow (imatrix : ℕ → F32) (ncols expertRows n : ℕ) :
    ((List.range n).map (expertRow Q type src imatrix ncols expertRows)).map Prod.fst =
      List.range n := by
  rw [List.map_map]
  exact List.map_id _

theorem rowAt_offset (values : ℕ → F32) (off n : ℕ) :
    rowAt (fun c => values (off + c)) 0 n = rowAt values off n :=
  List.map_congr_left fun c _ => by rw [Nat.zero_add]

/-- The rows of one expert. -/
theorem quantizeChunk_expert (hncols : 0 < ncols) (expertRows : ℕ) {row rows expert : ℕ}
    (imatrix : ℕ → F32) (hin : ∀ r, row ≤ r → r < row + rows → r / expertRows = expert) :
    quantizeChunk Q type src (row * ncols) rows ncols
        (some fun c => imatrix (expert * ncols + c)) =
      (List.range' row rows).map (expertRow Q type src imatrix ncols expertRows) := by
  rw [quantizeChunk_rows Q type src hncols]
  refine List.map_congr_left fun r hr => ?_
  obtain ⟨hle, hlt⟩ := List.mem_range'_1.mp hr
  rw [expertRow, hin r hle hlt, Option.map_some, rowAt_offset]

/-- A worker that splits its rows at the experts. -/
theorem workerLoop_eq {job : QuantJob} (imatrix : ℕ → F32) (hncols : 0 < job.ncols)
    (hrows : 0 < job.expertRows) {stop : ℕ} (hstop : stop ≤ job.nExperts * job.expertRows)
    {fuel row : ℕ} (hfuel : stop - row ≤ fuel) : workerLoop Q job imatrix stop fuel row =
      (List.range' row (stop - row)).map
        (expertRow Q job.type job.src imatrix job.ncols job.expertRows) := by
  induction fuel generalizing row with
  | zero =>
    rw [Nat.le_zero.mp hfuel]
    rfl
  | succ fuel ih =>
    rw [workerLoop]
    split
    next hlt =>
      have hexpert : row / job.expertRows < job.nExperts :=
        (Nat.div_lt_iff_lt_mul hrows).mpr (by omega)
      have hbegin : row / job.expertRows * job.expertRows ≤ row := Nat.div_mul_le_self _ _
      have hend : row < (row / job.expertRows + 1) * job.expertRows := by
        rw [Nat.add_mul, Nat.one_mul]
        have := Nat.mod_add_div row job.expertRows
        have hmod := Nat.mod_lt row hrows
        rw [Nat.mul_comm] at this
        omega
      dsimp only
      rw [if_neg (not_le.mpr hexpert)]
      generalize hrowsn : (if stop < (row / job.expertRows + 1) * job.expertRows then stop
        else (row / job.expertRows + 1) * job.expertRows) - row = rows
      have hrows' : 0 < rows ∧ row + rows ≤ stop ∧
          row + rows ≤ (row / job.expertRows + 1) * job.expertRows := by
        split at hrowsn <;> omega
      rw [quantizeChunk_expert Q job.type job.src hncols job.expertRows imatrix,
        ih (by omega), ← List.map_append]
      · congr 1
        rw [show stop - row = rows + (stop - (row + rows)) by omega]
        exact List.range'_append_1
      · intro r hle hlt'
        refine le_antisymm (Nat.le_of_lt_succ ?_) (Nat.div_le_div_right hle)
        exact (Nat.div_lt_iff_lt_mul hrows).mpr (hlt'.trans_le hrows'.2.2)
    next hge =>
      rw [Nat.sub_eq_zero_of_le (not_lt.mp hge)]
      rfl

/-- The rows of one expert after the other. -/
theorem sequential_eq (hncols : 0 < ncols) (imatrix : ℕ → F32) (expertRows nExperts : ℕ) :
    ((List.range nExperts).flatMap fun e =>
      quantizeChunk Q type src (e * expertRows * ncols) expertRows ncols
        (some fun c => imatrix (e * ncols + c))) =
      (List.range (nExperts * expertRows)).map (expertRow Q type src imatrix ncols expertRows) := by
  induction nExperts with
  | zero => simp
  | succ n ih =>
    rw [List.range_succ, List.flatMap_append, ih, List.flatMap_singleton, Nat.succ_mul,
      List.range_add, List.map_append, ← List.range'_eq_map_range]
    congr 1
    refine quantizeChunk_expert Q type src hncols expertRows imatrix fun r hle hlt => ?_
    have hpos : 0 < expertRows := by omega
    refine le_antisymm (Nat.le_of_lt_succ ?_) ((Nat.le_div_iff_mul_le hpos).mpr hle)
    exact (Nat.div_lt_iff_lt_mul hpos).mpr (by rw [Nat.succ_mul]; exact hlt)

/-- The rows of all workers together. -/
theorem workers_eq (hncols : 0 < ncols) {expertRows nExperts : ℕ} (hrows : 0 < expertRows)
    (hexperts : 0 < nExperts) (imatrix : ℕ → F32) {workers : ℕ} (hworkers : 0 < workers) :
    ((parts 0 (shares (nExperts * expertRows) workers)).flatMap fun part =>
      quantWorker Q ⟨type, src, ncols, part.1, part.2, expertRows, nExperts, some imatrix⟩) =
      (List.range (nExperts * expertRows)).map (expertRow Q type src imatrix ncols expertRows) := by
  have hworker : ∀ part ∈ parts 0 (shares (nExperts * expertRows) workers),
      quantWorker Q ⟨type, src, ncols, part.1, part.2, expertRows, nExperts, some imatrix⟩ =
        (List.range' part.1 part.2).map (expertRow Q type src imatrix ncols expertRows) := by
    intro part hpart
    have hin := (parts_within hpart).2
    rw [sum_shares hworkers, Nat.zero_add] at hin
    rw [quantWorker]
    dsimp only
    rw [if_pos ⟨hrows, hexperts⟩, workerLoop_eq Q imatrix hncols hrows hin (by omega),
      Nat.add_sub_cancel_left]
  rw [List.flatMap_congr hworker, ← List.map_flatMap, flatMap_range'_parts, sum_shares hworkers,
    List.range_eq_range']

theorem f32ToType_empty (ops : FloatOps) {n : ℕ} (hquant : isQuantType type) (hncols : 0 < ncols)
    (hblock : ncols % blockSize type = 0) (hn : n = 0) (imat : Option (ℕ → F32)) :
    f32ToType ops Q src n type ncols imat = some [] := by
  subst hn
  have hzero : 0 / ncols = 0 := Nat.zero_div _
  have hplain : ¬ (type = .f32 ∨ type = .f16 ∨ type = .bf16) ∧
      ¬ (typeTraits type).canQuantize = false := by
    rcases hquant with rfl | rfl | rfl | rfl | rfl <;> simp [typeTraits]
  rw [f32ToType, if_neg (by rw [Nat.zero_mod]; omega), if_neg hplain.1, if_neg hplain.2,
    if_neg (not_not.mpr hblock), hzero]
  rfl

/-- The workers write every row with the weights of its expert. -/
theorem parallel_eq (ops : FloatOps) (hquant : isQuantType type) (hncols : 0 < ncols)
    (hblock : ncols % blockSize type = 0) (expertRows : ℕ) {nExperts : ℕ} (hexperts : 0 < nExperts)
    (imatrix : ℕ → F32) (nThreads : ℕ) :
    ∃ jobs, f32ToTypeParallel ops Q src (ncols * expertRows * nExperts) type ncols nThreads
        (some imatrix) expertRows nExperts = some jobs ∧
      jobs.flatten = (List.range (nExperts * expertRows)).map
        (expertRow Q type src imatrix ncols expertRows) := by
  have hnrows : ncols * expertRows * nExperts / ncols = nExperts * expertRows := by
    rw [Nat.mul_assoc, Nat.mul_div_cancel_left _ hncols, Nat.mul_comm]
  have hmod : ncols * expertRows * nExperts % ncols = 0 := by
    rw [Nat.mul_assoc, Nat.mul_mod_right]
  rcases Nat.eq_zero_or_pos expertRows with rfl | hrows
  · have hempty := f32ToType_empty Q type src ops (n := ncols * 0 * nExperts) hquant hncols hblock
      (by simp) (some imatrix)
    refine ⟨[[]], ?_, by simp⟩
    rw [f32ToTypeParallel, if_neg (not_not.mpr hquant), hempty]
    split
    · rfl
    · rw [if_neg (by rw [hmod]; omega), if_neg (not_not.mpr hblock), hnrows]
      dsimp only
      rw [if_pos ⟨by simp, .inr rfl⟩]
      rfl
  · have hpos : 0 < nExperts * expertRows := Nat.mul_pos hexperts hrows
    have halone : ¬ ((some imatrix).isSome = false ∨ expertRows = 0) := by
      rintro (h | h)
      · cases h
      · omega
    rw [f32ToTypeParallel, if_neg (not_not.mpr hquant), if_neg fun h => halone h.2,
      if_neg (by rw [hmod]; omega), if_neg (not_not.mpr hblock), hnrows]
    dsimp only
    rw [if_neg fun h => halone h.2, if_neg fun h => h.2.2 (Nat.mul_comm _ _)]
    refine ⟨_, rfl, ?_⟩
    rw [← List.flatMap_def]
    refine workers_eq Q type src hncols hrows hexperts imatrix ?_
    split <;> split <;> omega

end Rows

/-! ## The tensors of the saved file -/

theorem experts_pos : 0 < experts := by decide

/-- The columns of a matrix are whole blocks. -/
theorem cols_block (role : Role) {type : DsType} (hquant : isQuantType type) :
    0 < role.cols ∧ role.cols % blockSize type = 0 := by
  rcases hquant with rfl | rfl | rfl | rfl | rfl <;> cases role <;> decide

/-- The values from one expert of a matrix to the next. -/
theorem entry_rowAt (ops : FloatOps) (batches : List Batch) (il : ℕ) (role : Role) {x : ℕ}
    (hx : x < experts) :
    rowAt (fun i => (entryValues ops (role.sums (collect ops batches)) il role.cols).getD i 0)
        (x * role.cols) role.cols =
      rowAt (importance ops (routedTo batches il x role)) 0 role.cols := by
  refine List.map_congr_left fun c hc => ?_
  dsimp only
  rw [List.getD_eq_getElem?_getD, entryValues_get ops role batches hx (List.mem_range.mp hc),
    Option.getD_some, Nat.zero_add]

theorem moeName_routed (il : ℕ) (role : Role) : isRoutedTensor (moeName il role) := by
  have hcontains (s : Bytes) (hs : s ≠ []) :
      contains (bytes "model.layers." ++ (decimal il ++ s)) s := by
    rw [contains, strstr, ← Option.ne_none_iff_isSome, ne_eq, firstOcc_eq_none_iff hs, not_forall]
    refine ⟨(bytes "model.layers.").length + ((decimal il).length + 0), fun hno => hno ?_⟩
    rw [occursAt_append_left, occursAt_append_left]
    exact List.prefix_rfl
  cases role with
  | gate => exact .inl (hcontains _ (by decide))
  | up => exact .inr (.inl (hcontains _ (by decide)))
  | down => exact .inr (.inr (hcontains _ (by decide)))

/-- The rows of one expert after the other, each with what was collected for the expert. -/
def sequentialExperts (ops : FloatOps) (Q : Quantizer) (batches : List Batch) (il : ℕ)
    (role : Role) (type : DsType) (src : ℕ → F32) (ncols expertRows : ℕ) : List (ℕ × Bytes) :=
  (List.range experts).flatMap fun e =>
    quantizeChunk Q type src (e * expertRows * ncols) expertRows ncols
      (some (importance ops (routedTo batches il e role)))

section Saved

variable {ops : FloatOps} {batches : List Batch} {path dataset : Bytes} {strict : Bool} {im : Store}
  {il : ℕ} {role : Role} {t : Sf37Tensor} {ncols expertRows nExperts : ℕ}

/-- The tensor of a matrix has experts. -/
theorem expertsOf_saved (hentries : im.entries = (savedEntries ops (collect ops batches)).map
    fun e => ⟨e.1, e.2⟩) (hname : t.hfName = moeName il role)
    (hne : t.metadata.ne = [ncols, expertRows, nExperts]) (hquant : isQuantType t.metadata.type) :
    expertsOf im.sizes t = some (expertRows, nExperts) := by
  have henabled : imatrixEnabled im.sizes := by
    rw [imatrixEnabled, Store.sizes, hentries, List.length_map, List.length_map,
      length_savedEntries]
    decide
  rw [expertsOf, hne]
  dsimp only
  rw [if_pos ⟨henabled, hname ▸ moeName_routed il role, hquant⟩]

/-- The rows of a matrix in a tensor of any shape with as many values to a row. -/
theorem generateRows_eq (Q : Quantizer)
    (hload : imatrixLoad ops path strict (collectorSave ops (collect ops batches) dataset) =
      some im)
    (hil : 3 ≤ il) (hil' : il < Engine.mainLayers) (hname : t.hfName = moeName il role)
    (hne : t.metadata.ne = [ncols, expertRows, nExperts]) (hquant : isQuantType t.metadata.type)
    (hsize : experts * role.cols = ncols * nExperts) (nThreads : ℕ) (src : ℕ → F32) (n : ℕ) :
    generateRows ops Q im t nThreads src n =
      f32ToTypeParallel ops Q src n t.metadata.type ncols nThreads
        (some fun i => (entryValues ops (role.sums (collect ops batches)) il role.cols).getD i 0)
        expertRows nExperts := by
  have hentries := imatrixLoad_saved hload
  have hfind := find_saved role hentries hil hil' (ncols * nExperts)
  rw [if_pos hsize] at hfind
  rw [generateRows, expertsOf_saved hentries hname hne hquant, hne, hname]
  dsimp only [List.headD_cons]
  rw [hfind]
  rfl

/-- Every row of a matrix is written once, with what was collected for its expert, whatever the
number of threads and the order of their writes: as if one expert were quantized after the
other. -/
theorem expertRows_own (Q : Quantizer)
    (hload : imatrixLoad ops path strict (collectorSave ops (collect ops batches) dataset) =
      some im)
    (hil : 3 ≤ il) (hil' : il < Engine.mainLayers) (hname : t.hfName = moeName il role)
    (hne : t.metadata.ne = [ncols, expertRows, experts]) (hquant : isQuantType t.metadata.type)
    (nThreads : ℕ) (src : ℕ → F32) :
    (ncols = role.cols →
      (generateRows ops Q im t nThreads src (ncols * expertRows * experts)).isSome) ∧
    ∀ jobs, generateRows ops Q im t nThreads src (ncols * expertRows * experts) = some jobs →
      ∀ order : List (ℕ × Bytes), order.Perm jobs.flatten →
        (order.map Prod.fst).Perm (List.range (experts * expertRows)) ∧
        (∀ memory, ∀ x < experts, ∀ r < expertRows,
          writeAll order memory (x * expertRows + r) =
            Q t.metadata.type (rowAt src ((x * expertRows + r) * ncols) ncols)
              (some (rowAt (importance ops (routedTo batches il x role)) 0 ncols))) ∧
        writeAll order = writeAll (sequentialExperts ops Q batches il role t.metadata.type src ncols
          expertRows) := by
  by_cases hcols : ncols = role.cols
  · subst hcols
    obtain ⟨hpos, hblock⟩ := cols_block role hquant
    obtain ⟨written, hwritten, hflat⟩ := parallel_eq Q t.metadata.type src ops hquant hpos hblock
      expertRows experts_pos
      (fun i => (entryValues ops (role.sums (collect ops batches)) il role.cols).getD i 0) nThreads
    have hrows := generateRows_eq Q hload hil hil' hname hne hquant (Nat.mul_comm _ _) nThreads src
      (role.cols * expertRows * experts)
    rw [hwritten] at hrows
    refine ⟨fun _ => by rw [hrows]; rfl, fun jobs hjobs order horder => ?_⟩
    obtain rfl : written = jobs := Option.some.inj (hrows.symm.trans hjobs)
    have hplaces := map_fst_expertRow Q t.metadata.type src
      (fun i => (entryValues ops (role.sums (collect ops batches)) il role.cols).getD i 0) role.cols
      expertRows (experts * expertRows)
    have hnodup : (written.flatten.map Prod.fst).Nodup := by
      rw [hflat, hplaces]
      exact List.nodup_range
    refine ⟨?_, fun memory x hx r hr => ?_, ?_⟩
    · rw [← hplaces, ← hflat]
      exact horder.map Prod.fst
    · rw [writeAll_perm hnodup horder]
      refine writeAll_of_mem hnodup ?_ memory
      have hin : x * expertRows + r < experts * expertRows := by
        have := Nat.mul_le_mul_right expertRows (Nat.succ_le_of_lt hx)
        rw [Nat.succ_mul] at this
        omega
      have hx' : (x * expertRows + r) / expertRows = x := by
        rw [Nat.add_comm, Nat.add_mul_div_right _ _ (by omega), Nat.div_eq_of_lt hr, Nat.zero_add]
      rw [hflat, ← entry_rowAt ops batches il role hx]
      refine List.mem_map.mpr ⟨x * expertRows + r, List.mem_range.mpr hin, ?_⟩
      rw [expertRow, hx']
    · rw [writeAll_perm hnodup horder, hflat, sequentialExperts, ← sequential_eq Q _ src hpos]
      refine congrArg writeAll (List.flatMap_congr fun e he => ?_)
      have hweights := (rowAt_offset (fun i =>
        (entryValues ops (role.sums (collect ops batches)) il role.cols).getD i 0)
        (e * role.cols) role.cols).trans (entry_rowAt ops batches il role (List.mem_range.mp he))
      rw [quantizeChunk_rows Q _ src hpos, quantizeChunk_rows Q _ src hpos, Option.map_some,
        Option.map_some, ← hweights]
  · have hnone : generateRows ops Q im t nThreads src (ncols * expertRows * experts) = none := by
      have hentries := imatrixLoad_saved hload
      have hfind := find_saved role hentries hil hil' (ncols * experts)
      have hsize : ¬ experts * role.cols = ncols * experts := by
        rw [Nat.mul_comm]
        exact fun h => hcols (Nat.eq_of_mul_eq_mul_right experts_pos h).symm
      rw [if_neg hsize] at hfind
      rw [generateRows, expertsOf_saved hentries hname hne hquant, hne, hname]
      dsimp only [List.headD_cons]
      rw [hfind]
      rfl
    refine ⟨fun h => absurd h hcols, fun jobs hjobs => ?_⟩
    rw [hnone] at hjobs
    cases hjobs

end Saved

/-! ## Instances -/

/-- Arithmetic as far as it is needed for one power of two. -/
def powerOps : FloatOps where
  add a b := if a = 0 then b else a
  mul a b := a + b - oneF
  mean s _ := s
  quotient v _ := v
  quotient_one _ _ := rfl

/-- A token of twos, routed to the expert 0 of layer 3. -/
def oneRoute : Batch where
  il := 3
  nTok := 1
  ffnNorm _ := 0x40000000
  routedMid _ := 0x40000000
  selected p := if p = 0 then 0 else -1

theorem oneRoute_route (slot : ℕ) : oneRoute.route 0 slot =
    if slot = 0 then some ⟨3, 0, fun _ _ => 0x40000000⟩ else none := by
  rw [Batch.route, Nat.zero_mul, Nat.zero_add, oneRoute]
  dsimp only
  split
  next =>
    rw [if_neg (by decide)]
    refine congrArg some (congrArg (Route.mk 3 0) (funext fun role => ?_))
    cases role <;> rfl
  next => rw [if_pos (.inl (by decide))]

theorem oneRoute_routes : oneRoute.routes = [⟨3, 0, fun _ _ => 0x40000000⟩] := by
  have hslots : List.range expertUsed = 0 :: (List.range 7).map (· + 1) := rfl
  have htokens : List.range oneRoute.nTok = [0] := rfl
  have hnone : ((List.range 7).map (· + 1)).filterMap (oneRoute.route 0) = [] := by
    refine List.filterMap_eq_nil_iff.mpr fun slot hslot => ?_
    obtain ⟨k, -, rfl⟩ := List.mem_map.mp hslot
    exact (oneRoute_route _).trans (if_neg (Nat.succ_ne_zero k))
  rw [Batch.routes, if_neg (by decide), htokens, List.flatMap_singleton, hslots,
    List.filterMap_cons, oneRoute_route, if_pos rfl, hnone]

theorem routedTo_oneRoute (il e : ℕ) (role : Role) : routedTo [oneRoute] il e role =
    if il = 3 ∧ e = 0 then [fun _ => 0x40000000] else [] := by
  rw [routedTo, List.flatMap_singleton, oneRoute_routes, List.filter_singleton]
  by_cases h : il = 3 ∧ e = 0
  · obtain ⟨rfl, rfl⟩ := h
    rfl
  · rw [if_neg h]
    have hother : ((3 : ℕ) == il && (0 : ℕ) == e) = false := by
      rw [Bool.and_eq_false_iff, beq_eq_false_iff_ne, beq_eq_false_iff_ne]
      omega
    rw [hother]
    rfl

theorem importance_oneRoute (il e : ℕ) (role : Role) (i : ℕ) :
    importance powerOps (routedTo [oneRoute] il e role) i =
      if il = 3 ∧ e = 0 then 0x40800000 else oneF := by
  have hcount : countOf [fun _ => 0x40000000] = 1 := by
    rw [countOf, List.foldl_cons, List.foldl_nil]
    decide
  have hsum : sumOf powerOps [fun _ => 0x40000000] i = 0x40800000 := by
    change powerOps.add 0 (powerOps.mul 0x40000000 0x40000000) = 0x40800000
    decide
  rw [routedTo_oneRoute]
  split
  · rw [importance, hcount, hsum, if_neg (by decide)]
    rfl
  · rfl

/-- The gate matrix of layer 3, in some shape. -/
def gateTensor (ncols expertRows nExperts : ℕ) : Sf37Tensor where
  metadata := ⟨moeName 3 .gate, [ncols, expertRows, nExperts], .q3K, 0, 0⟩
  hfName := moeName 3 .gate
  dtype := bytes "BF16"
  srcShape := [nExperts, expertRows, ncols]

/-- A quantizer that shows the first weight of a row. -/
def firstWeight : Quantizer := fun _ _ w => littleEndian 4 ((w.getD []).headD 0).toNat

theorem firstWeight_rowAt {n : ℕ} (hn : 0 < n) (type : DsType) (vs : List F32) (w : ℕ → F32)
    (off : ℕ) : firstWeight type vs (some (rowAt w off n)) = littleEndian 4 (w off).toNat := by
  obtain ⟨k, rfl⟩ := Nat.exists_eq_succ_of_ne_zero hn.ne'
  rw [firstWeight, Option.getD_some, rowAt, List.range_succ_eq_map]
  rfl

theorem oneRoute_loaded : ∃ im, imatrixLoad powerOps (bytes "imatrix.dat") true
    (collectorSave powerOps (collect powerOps [oneRoute]) []) = some im := by
  refine imatrixLoad_finite powerOps [oneRoute] _ true [] fun il e role i => ?_
  rw [importance_oneRoute]
  split <;> decide

/-- The rows of the expert 0 have the mean of the squares, those of the others have 1. -/
theorem expertRows_own_gate : ∃ im jobs,
    imatrixLoad powerOps (bytes "imatrix.dat") true
      (collectorSave powerOps (collect powerOps [oneRoute]) []) = some im ∧
    generateRows powerOps firstWeight im (gateTensor Engine.embd 2 experts) 3 (fun _ => oneF)
      (Engine.embd * 2 * experts) = some jobs ∧
    ∀ memory, ∀ x < experts, ∀ r < 2, writeAll jobs.flatten memory (x * 2 + r) =
      littleEndian 4 (if x = 0 then 0x40800000 else oneF : F32).toNat := by
  obtain ⟨im, him⟩ := oneRoute_loaded
  have hname : (gateTensor Engine.embd 2 experts).hfName = moeName 3 .gate := rfl
  have hne : (gateTensor Engine.embd 2 experts).metadata.ne = [Engine.embd, 2, experts] := rfl
  have hown := expertRows_own firstWeight him le_rfl (by decide) hname hne
    (.inr (.inr (.inl rfl))) 3 (fun _ => oneF)
  obtain ⟨jobs, hjobs⟩ := Option.isSome_iff_exists.mp (hown.1 rfl)
  refine ⟨im, jobs, him, hjobs, fun memory x hx r hr => ?_⟩
  rw [(hown.2 jobs hjobs jobs.flatten (.refl _)).2.1 memory x hx r hr,
    firstWeight_rowAt (by decide), importance_oneRoute]
  simp only [true_and]

/-- A tensor of half the columns and twice the experts has as many values, and its expert 1 gets
the second half of what was collected for the expert 0. -/
theorem expertRows_notOwn : ∃ im jobs,
    imatrixLoad powerOps (bytes "imatrix.dat") true
      (collectorSave powerOps (collect powerOps [oneRoute]) []) = some im ∧
    generateRows powerOps firstWeight im (gateTensor 2048 1 576) 3 (fun _ => oneF)
      (2048 * 1 * 576) = some jobs ∧
    writeAll jobs.flatten (fun _ => []) 1 ≠
      firstWeight .q3K (rowAt (fun _ => oneF) (1 * 2048) 2048)
        (some (rowAt (importance powerOps (routedTo [oneRoute] 3 1 .gate)) 0 2048)) := by
  obtain ⟨im, him⟩ := oneRoute_loaded
  have hname : (gateTensor 2048 1 576).hfName = moeName 3 .gate := rfl
  have hne : (gateTensor 2048 1 576).metadata.ne = [2048, 1, 576] := rfl
  have hrows := generateRows_eq firstWeight him le_rfl (by decide) hname hne
    (.inr (.inr (.inl rfl))) (by decide) 3 (fun _ => oneF) (2048 * 1 * 576)
  have hncols : 0 < 2048 := by decide
  have hexperts : 0 < 576 := by decide
  obtain ⟨jobs, hjobs, hflat⟩ := parallel_eq firstWeight .q3K (fun _ => oneF) powerOps
    (.inr (.inr (.inl rfl))) hncols (by decide) 1 hexperts
    (fun i => (entryValues powerOps (Role.gate.sums (collect powerOps [oneRoute])) 3
      Role.gate.cols).getD i 0) 3
  refine ⟨im, jobs, him, hrows.trans hjobs, ?_⟩
  have hplaces := map_fst_expertRow firstWeight .q3K (fun _ => oneF)
    (fun i => (entryValues powerOps (Role.gate.sums (collect powerOps [oneRoute])) 3
      Role.gate.cols).getD i 0) 2048 1 (576 * 1)
  have hnodup : (jobs.flatten.map Prod.fst).Nodup := by
    rw [hflat, hplaces]
    exact List.nodup_range
  have hfour : (entryValues powerOps (Role.gate.sums (collect powerOps [oneRoute])) 3
      Role.gate.cols)[2048]? = some 0x40800000 := by
    have hplace : 2048 = 0 * Role.gate.cols + 2048 := by rw [Nat.zero_mul, Nat.zero_add]
    rw [hplace, entryValues_get powerOps .gate [oneRoute] experts_pos (by decide),
      importance_oneRoute, if_pos ⟨rfl, rfl⟩]
  have hmem : (1, littleEndian 4 (0x40800000 : F32).toNat) ∈ jobs.flatten := by
    rw [hflat]
    refine List.mem_map.mpr ⟨1, List.mem_range.mpr (by decide), ?_⟩
    rw [expertRow, firstWeight_rowAt (by decide), Nat.div_one, Nat.one_mul]
    rw [List.getD_eq_getElem?_getD, hfour, Option.getD_some]
  rw [writeAll_of_mem hnodup hmem, firstWeight_rowAt (by decide), importance_oneRoute,
    if_neg (by decide)]
  decide

end Sf37.Quantize.Rows

/-
Sf37.Quantize.ImatrixFile — `imatrix_load` and `imatrix_find`, on the files that the engine
saves.

* `loadEntry_written`: an entry that is loaded is the one that was written.
* `imatrixLoad_saved`: the entries of a saved file.
* `find_saved`: what is found under the name of a matrix.
-/
import Sf37.Engine.Imatrix
import Sf37.Quantize.WriteGguf
import Mathlib.Tactic.NormNum

namespace Sf37.Quantize.Imatrix

open Sf37.Run Sf37.Text Sf37.Gguf Sf37.Engine.Imatrix

/-! ## Loading -/

/-- `fread` of a fixed size that exits when the file is too short. -/
def fread (n : ℕ) (p : Bytes) : Option (Bytes × Bytes) :=
  if p.length < n then none else some (p.take n, p.drop n)

/-- `read_i32_fp`. -/
def readI32 (p : Bytes) : Option (ℤ × Bytes) := do
  let (raw, p) ← fread 4 p
  let v := ofLittleEndian raw
  some (if v < 2147483648 then v else v - 4294967296, p)

/-- Bytes as floats. -/
def words : Bytes → List F32
  | a :: b :: c :: d :: p => UInt32.ofNat (ofLittleEndian [a, b, c, d]) :: words p
  | _ => []

/-- `imatrix_entry`. -/
structure Entry where
  name : Bytes
  values : List F32

/-- A turn of the loop of `imatrix_load`. -/
def loadEntry (ops : FloatOps) (p : Bytes) : Option (Entry × Bytes) := do
  let (len, p) ← readI32 p
  if len ≤ 0 ∨ 4096 < len then none
  else do
    let (name, p) ← fread len.toNat p
    let (ncall, p) ← readI32 p
    let (nval, p) ← readI32 p
    if nval < 1 then none
    else do
      let (raw, p) ← fread (nval.toNat * 4) p
      let values := words raw
      let values := if 0 < ncall then values.map (ops.quotient · ncall) else values
      if values.all isFinite then some (⟨cstr name, values⟩, p) else none

/-- The loop of `imatrix_load`. -/
def loadEntries (ops : FloatOps) : ℕ → Bytes → Option (List Entry × Bytes)
  | 0, p => some ([], p)
  | n + 1, p => do
    let (e, p) ← loadEntry ops p
    let (es, p) ← loadEntries ops n p
    some (e :: es, p)

/-- What `imatrix_load` reads behind the entries: the chunks and the dataset. -/
def loadTail (p : Bytes) : Option (ℤ × Option Bytes) :=
  if p.isEmpty then some (-1, none)
  else do
    let (chunks, p) ← readI32 p
    let (dlen, p) ← readI32 p
    let dataset := if 0 < dlen ∧ dlen < 1048576 then (fread dlen.toNat p).map (cstr ·.1) else none
    some (chunks, dataset)

/-- `imatrix_store`, with the values. -/
structure Store where
  file : Bytes
  dataset : Option Bytes
  entries : List Entry
  chunks : ℤ
  strict : Bool

/-- `imatrix_load` of the contents of a file. -/
def imatrixLoad (ops : FloatOps) (path : Bytes) (strict : Bool) (p : Bytes) : Option Store := do
  let (n, p) ← readI32 p
  if n < 1 then none
  else do
    let (entries, p) ← loadEntries ops n.toNat p
    let (chunks, dataset) ← loadTail p
    some ⟨path, dataset, entries, chunks, strict⟩

/-- The store without the values. -/
def Store.sizes (im : Store) : ImatrixStore :=
  ⟨im.file, im.dataset, im.entries.map fun e => ⟨e.name, e.values.length⟩, im.chunks, im.strict⟩

/-- `imatrix_find` for one name and no expert. -/
def Store.find (im : Store) (name : Bytes) (ncols : ℕ) : Option (Option (List F32)) :=
  if imatrixEnabled im.sizes then
    match hmapGet Entry.name im.entries name with
    | some e => if e.values.length = ncols then some (some e.values) else none
    | none => if im.strict then none else some none
  else some none

/-! ## What is read back -/

theorem fread_append {n : ℕ} {p : Bytes} (h : p.length = n) (rest : Bytes) :
    fread n (p ++ rest) = some (p, rest) := by
  rw [fread, if_neg (by rw [List.length_append]; omega), List.take_left' h, List.drop_left' h]

theorem readI32_append {v : ℕ} (h : v < 2147483648) (rest : Bytes) :
    readI32 (littleEndian 4 v ++ rest) = some ((v : ℤ), rest) := by
  rw [readI32, fread_append (length_littleEndian 4 v)]
  dsimp only [bind, Option.bind]
  rw [ofLittleEndian_littleEndian (by omega), if_pos h]

theorem words_flatMap (vs : List F32) :
    words (vs.flatMap fun v => littleEndian 4 v.toNat) = vs := by
  induction vs with
  | nil => rfl
  | cons v vs ih =>
    have hfour := ofLittleEndian_littleEndian (k := 4) (v := v.toNat) v.toNat_lt
    rw [List.flatMap_cons]
    rw [littleEndian, littleEndian, littleEndian, littleEndian, littleEndian] at hfour ⊢
    rw [List.cons_append, List.cons_append, List.cons_append, List.cons_append, List.nil_append,
      words, hfour, ih, UInt32.ofNat_toNat]

theorem length_words_text (vs : List F32) :
    (vs.flatMap fun v => littleEndian 4 v.toNat).length = vs.length * 4 := by
  simp [List.length_flatMap]

/-- A written entry that passes the test of its values. -/
def loads (ops : FloatOps) (values : List F32) : Bool :=
  (values.map (ops.quotient · 1)).all isFinite

/-- An entry that is loaded is the one that was written. -/
theorem loadEntry_written {ops : FloatOps} {name : Bytes} {values : List F32}
    (hname : 0 < name.length ∧ name.length ≤ 4096) (hnul : NulFree name)
    (hvalues : 0 < values.length ∧ values.length < 2147483648) (rest : Bytes) :
    loadEntry ops (writeEntry name values ++ rest) =
      if loads ops values then some (⟨name, values⟩, rest) else none := by
  rw [writeEntry, List.append_assoc, List.append_assoc, List.append_assoc, List.append_assoc,
    loadEntry, readI32_append (by omega)]
  dsimp only [bind, Option.bind]
  rw [if_neg (by omega), Int.toNat_natCast, fread_append rfl]
  dsimp only
  rw [readI32_append (by decide)]
  dsimp only
  rw [readI32_append hvalues.2]
  dsimp only
  rw [if_neg (by omega), Int.toNat_natCast, fread_append (length_words_text values)]
  dsimp only
  simp only [Nat.cast_one, zero_lt_one, if_true]
  rw [words_flatMap, cstr_iff.mpr hnul, ← loads]
  split
  next hall =>
    congr 3
    refine (List.map_congr_left (g := id) fun v hv => ?_).trans (List.map_id _)
    exact ops.quotient_one v (List.all_eq_true.mp hall _ (List.mem_map_of_mem hv))
  next => rfl

theorem loadEntries_written {ops : FloatOps} {es : List (Bytes × List F32)}
    (hes : ∀ e ∈ es, (0 < e.1.length ∧ e.1.length ≤ 4096) ∧ NulFree e.1 ∧
      0 < e.2.length ∧ e.2.length < 2147483648) (rest : Bytes) :
    loadEntries ops es.length (es.flatMap (fun e => writeEntry e.1 e.2) ++ rest) =
      if es.all fun e => loads ops e.2 then some (es.map (fun e => ⟨e.1, e.2⟩), rest)
      else none := by
  induction es with
  | nil => rfl
  | cons e es ih =>
    obtain ⟨hname, hnul, hvalues⟩ := hes e List.mem_cons_self
    rw [List.flatMap_cons, List.append_assoc, List.length_cons, loadEntries,
      loadEntry_written hname hnul hvalues, List.all_cons]
    cases loads ops e.2 with
    | false => rfl
    | true =>
      rw [if_pos rfl, Bool.true_and]
      dsimp only [bind, Option.bind]
      rw [ih fun e he => hes e (List.mem_cons_of_mem _ he)]
      cases es.all fun e => loads ops e.2 <;> rfl

/-! ## The saved file -/

theorem length_entryValues (ops : FloatOps) (s : Sums) (il cols : ℕ) :
    (entryValues ops s il cols).length = experts * cols := by
  rw [entryValues, List.length_flatMap]
  simp

/-- Names are short, and they are C strings. -/
theorem moeName_short {il : ℕ} (hil : il < Engine.mainLayers) (role : Role) :
    (0 < (moeName il role).length ∧ (moeName il role).length ≤ 4096) ∧
      NulFree (moeName il role) := by
  have hdec : ∀ n < 45, (decimal n).length ≤ 2 ∧ NulFree (decimal n) := by decide
  obtain ⟨hlen, hnul⟩ := hdec il hil
  have hfront : (bytes "model.layers.").length = 13 ∧ NulFree (bytes "model.layers.") := by
    decide
  have hback : role.suffix.length ≤ 21 ∧ NulFree role.suffix := by cases role <;> decide
  rw [moeName, List.length_append, List.length_append, nulFree_append, nulFree_append]
  exact ⟨by omega, hfront.2, hnul, hback.2⟩

/-- The size of an entry fits 32 bits. -/
theorem entry_size (role : Role) :
    0 < experts * role.cols ∧ experts * role.cols < 2147483648 := by
  cases role <;> norm_num [experts, Role.cols, Engine.embd, expertFf]

theorem length_savedEntries (ops : FloatOps) (c : Collector) :
    (savedEntries ops c).length = 126 := by
  rw [savedEntries, List.length_flatMap]
  simp only [List.length_map, List.length_cons, List.length_nil, List.map_const',
    List.length_range', List.sum_replicate, Engine.mainLayers]
  rfl

theorem lt_mainLayers {il : ℕ} (h : il ∈ List.range' 3 (Engine.mainLayers - 3)) :
    il < Engine.mainLayers := by
  have hlt := (List.mem_range'_1.mp h).2
  rwa [Nat.add_sub_cancel' (by norm_num [Engine.mainLayers])] at hlt

theorem savedEntries_good {ops : FloatOps} {c : Collector} :
    ∀ e ∈ savedEntries ops c, (0 < e.1.length ∧ e.1.length ≤ 4096) ∧ NulFree e.1 ∧
      0 < e.2.length ∧ e.2.length < 2147483648 := by
  intro e he
  obtain ⟨il, hil, he⟩ := List.mem_flatMap.mp he
  obtain ⟨role, -, rfl⟩ := List.mem_map.mp he
  obtain ⟨hname, hnul⟩ := moeName_short (lt_mainLayers hil) role
  refine ⟨hname, hnul, ?_⟩
  dsimp only
  rw [length_entryValues]
  exact entry_size role

theorem imatrixLoad_eq (ops : FloatOps) (c : Collector) (path : Bytes) (strict : Bool)
    (dataset : Bytes) : imatrixLoad ops path strict (collectorSave ops c dataset) =
      if (savedEntries ops c).all fun e => loads ops e.2 then
        (loadTail (littleEndian 4 c.chunks.toNat ++ (littleEndian 4 dataset.length ++ dataset))).map
          fun tail => ⟨path, tail.2, (savedEntries ops c).map fun e => ⟨e.1, e.2⟩, tail.1, strict⟩
      else none := by
  have hcount := length_savedEntries ops c
  have hn : (Engine.mainLayers - 3) * 3 = (savedEntries ops c).length := by
    rw [hcount, Engine.mainLayers]
  rw [collectorSave, List.append_assoc, List.append_assoc, List.append_assoc, imatrixLoad, hn,
    readI32_append (by omega), Option.bind_eq_bind, Option.bind_some]
  dsimp only
  rw [if_neg (by omega), Int.toNat_natCast, loadEntries_written savedEntries_good]
  generalize (savedEntries ops c).map (fun e => (⟨e.1, e.2⟩ : Entry)) = entries
  generalize (savedEntries ops c).all (fun e => loads ops e.2) = ok
  generalize littleEndian 4 c.chunks.toNat ++ (littleEndian 4 dataset.length ++ dataset) = rest
  cases ok with
  | false => rfl
  | true =>
    rw [if_pos rfl, if_pos rfl, Option.map_eq_bind]
    rfl

/-- The entries of a saved file. -/
theorem imatrixLoad_saved {ops : FloatOps} {c : Collector} {path dataset : Bytes} {strict : Bool}
    {im : Store} (h : imatrixLoad ops path strict (collectorSave ops c dataset) = some im) :
    im.entries = (savedEntries ops c).map fun e => ⟨e.1, e.2⟩ := by
  rw [imatrixLoad_eq] at h
  split at h
  next =>
    obtain ⟨tail, -, rfl⟩ := Option.map_eq_some_iff.mp h
    rfl
  next => cases h

theorem readI32_isSome (v : ℕ) (rest : Bytes) :
    ∃ n, readI32 (littleEndian 4 v ++ rest) = some (n, rest) := by
  rw [readI32, fread_append (length_littleEndian 4 v)]
  exact ⟨_, rfl⟩

/-- A file of finite values is loaded. -/
theorem imatrixLoad_finite (ops : FloatOps) (batches : List Batch) (path : Bytes) (strict : Bool)
    (dataset : Bytes)
    (h : ∀ il e role i,
      isFinite (ops.quotient (importance ops (routedTo batches il e role) i) 1) = true) :
    ∃ im, imatrixLoad ops path strict (collectorSave ops (collect ops batches) dataset) =
      some im := by
  have hall : ((savedEntries ops (collect ops batches)).all fun e => loads ops e.2) = true := by
    refine List.all_eq_true.mpr fun e he => ?_
    obtain ⟨il, -, he⟩ := List.mem_flatMap.mp he
    obtain ⟨role, -, rfl⟩ := List.mem_map.mp he
    refine List.all_eq_true.mpr fun q hq => ?_
    obtain ⟨v, hv, rfl⟩ := List.mem_map.mp hq
    obtain ⟨x, i, rfl⟩ := mem_entryValues ops hv
    exact h il x role i
  rw [imatrixLoad_eq, if_pos hall, loadTail]
  obtain ⟨chunks, hchunks⟩ := readI32_isSome (collect ops batches).chunks.toNat
    (littleEndian 4 dataset.length ++ dataset)
  obtain ⟨dlen, hdlen⟩ := readI32_isSome dataset.length dataset
  split
  · exact ⟨_, rfl⟩
  · rw [hchunks, Option.bind_eq_bind, Option.bind_some]
    dsimp only
    rw [hdlen, Option.bind_some]
    exact ⟨_, rfl⟩

/-- What is found under the name of a matrix. -/
theorem find_saved {ops : FloatOps} {c : Collector} {im : Store} {il : ℕ} (role : Role)
    (h : im.entries = (savedEntries ops c).map fun e => ⟨e.1, e.2⟩) (hil : 3 ≤ il)
    (hil' : il < Engine.mainLayers) (n : ℕ) : im.find (moeName il role) n =
      if experts * role.cols = n then some (some (entryValues ops (role.sums c) il role.cols))
      else none := by
  have hmem : (⟨moeName il role, entryValues ops (role.sums c) il role.cols⟩ : Entry) ∈
      im.entries := by
    rw [h]
    refine List.mem_map.mpr
      ⟨_, List.mem_flatMap.mpr ⟨il, ?_, List.mem_map.mpr ⟨role, ?_, rfl⟩⟩, rfl⟩
    · rw [List.mem_range'_1, Nat.add_sub_cancel' (by norm_num [Engine.mainLayers])]
      exact ⟨hil, hil'⟩
    · cases role <;> decide
  have hget : hmapGet Entry.name im.entries (moeName il role) =
      some ⟨moeName il role, entryValues ops (role.sums c) il role.cols⟩ := by
    cases hfind : hmapGet Entry.name im.entries (moeName il role) with
    | none =>
      have := List.find?_eq_none.mp hfind _ hmem
      simp at this
    | some e =>
      have hname := List.find?_some hfind
      have he := List.mem_of_find?_eq_some hfind
      rw [h] at he
      obtain ⟨saved, hsaved, rfl⟩ := List.mem_map.mp he
      obtain ⟨k, hk, hlayer⟩ := List.mem_flatMap.mp hsaved
      obtain ⟨role', -, rfl⟩ := List.mem_map.mp hlayer
      obtain ⟨rfl, rfl⟩ := moeName_inj (lt_mainLayers hk) hil' (beq_iff_eq.mp hname)
      rfl
  have henabled : imatrixEnabled im.sizes := by
    rw [imatrixEnabled, Store.sizes, List.length_map]
    exact List.length_pos_of_mem hmem
  rw [Store.find, if_pos henabled, hget]
  dsimp only
  rw [length_entryValues]

end Sf37.Quantize.Imatrix

/-
Sf37.Quantize.SafetensorsHeader — `shard_load`: from the header of a safetensors file to the
tensors of a shard.

A header lists tensors: `Listed` is one of them, and `ValidHeader` says that a text is a header
of the format which lists some.

* `Count.read_iff`: a number is read as it is written exactly when it is below 2 ^ 63.
* `shardTensors_listed`: what is loaded is what each tensor reads as.
* `shardTensors_iff`: that is what the header says exactly when all its numbers fit.
-/
import Sf37.Quantize.Plan
import Sf37.Server.HttpRequest
import Sf37.Text.JsonWalk

namespace Sf37.Quantize

open Sf37.Text Sf37.Text.JsonDoc

/-! ## Loading -/

/-- `MAX_DIMS`. -/
def stMaxDims : Nat := 8

/-- `json_i64`. A token ends inside of its text, so `n` is the length of what it shows. -/
def jsonI64 (d : Doc) (tok : Nat) : Option Int := do
  let t ← d.v[tok]?
  let text := tokText d.js t
  if text = [] ∨ 64 ≤ text.length then none else some (Server.strtol text)

/-- An `int64_t` as a `uint64_t`. -/
def toU64 (x : Int) : Nat := (x % 18446744073709551616).toNat

/-- What `shard_add_tensor` stores. -/
structure Loaded where
  name : Bytes
  dtype : Bytes
  shape : List Int
  start : Nat
  stop : Nat

/-- The loop of `parse_shape`. -/
def parseShapeLoop (d : Doc) : List Nat → List Int → Option (List Int)
  | [], shape => some shape
  | i :: is, shape =>
    if stMaxDims ≤ shape.length then none
    else do
      let x ← jsonI64 d i
      parseShapeLoop d is (shape ++ [x])

/-- `parse_shape`. -/
def parseShape (d : Doc) (arr : Nat) : Option (List Int) := do
  let t ← d.v[arr]?
  if t.type = .array then parseShapeLoop d (children d arr) [] else none

/-- The loop of `shard_load` over the offsets. -/
def parseOffsets (d : Doc) (offsets : Nat) : Option (Nat × Nat) := do
  let xs ← (children d offsets).mapM (jsonI64 d)
  match xs with
  | [start, stop] => some (toU64 start, toU64 stop)
  | _ => none

def metadataName : Bytes := bytes "__metadata__"

/-- A turn of the loop of `shard_load`, at the key `k`. -/
def shardEntry (d : Doc) (tensors : List Loaded) (k : Nat) : Option (List Loaded) :=
  let v := k + 1
  if d.v.length ≤ v ∨ d.parent v ≠ some 0 then none
  else if d.tokEq k metadataName then some tensors
  else do
    let name ← d.v[k]?
    let dtype ← jsonObjGet d (some v) (bytes "dtype")
    let shape ← jsonObjGet d (some v) (bytes "shape")
    let offsets ← jsonObjGet d (some v) (bytes "data_offsets")
    let dtype ← d.v[dtype]?
    let shape ← parseShape d shape
    let (start, stop) ← parseOffsets d offsets
    some (tensors ++
      [⟨cstr (tokText d.js name), cstr (tokText d.js dtype), shape, start, stop⟩])

/-- The tensors that `shard_load` makes of a header. -/
def shardTensors (header : Bytes) : Option (List Loaded) := do
  let d ← jsonParseText header
  let root ← d.v[0]?
  if root.type = .object then (members d 0).foldlM (shardEntry d) [] else none

/-! ## Headers -/

/-- A number without a sign, as the RFC writes it. -/
structure Count where
  text : Bytes
  int : RfcInt text

def Count.value (n : Count) : Nat := digitsValue 10 n.text

/-- The number is an `int64_t`. -/
def Count.Fits (n : Count) : Prop := n.value < 9223372036854775808

instance (n : Count) : Decidable n.Fits := inferInstanceAs (Decidable (_ < _))

/-- A text of a string that has no escapes. -/
def Unescaped (s : Bytes) : Prop := ∀ c ∈ s, 0x20 ≤ c ∧ c ≠ 0x22 ∧ c ≠ 0x5c

instance (s : Bytes) : Decidable (Unescaped s) := List.decidableBAll _ s

/-- A tensor that a header lists. -/
structure Listed where
  name : Bytes
  dtype : Bytes
  shape : List Count
  start : Count
  stop : Count
  name_unescaped : Unescaped name
  name_ne : name ≠ metadataName
  dtype_unescaped : Unescaped dtype
  rank_le : shape.length ≤ stMaxDims

/-- What should be loaded of it. -/
def Listed.loaded (t : Listed) : Loaded :=
  ⟨t.name, t.dtype, t.shape.map fun n => (n.value : Int), t.start.value, t.stop.value⟩

/-- All its numbers are `int64_t`. -/
def Listed.Fits (t : Listed) : Prop := (∀ n ∈ t.shape, n.Fits) ∧ t.start.Fits ∧ t.stop.Fits

theorem bareByte_digit {c : UInt8} (h : isDigit c = true) : BareByte c := by
  have hall : ∀ c : UInt8, isDigit c = true →
      (c != 0x22 && !isspace c && !jsonPunctuation c) = true := forall_byte (by decide +kernel)
  have hc := hall c h
  rw [Bool.and_eq_true, Bool.and_eq_true, bne_iff_ne, Bool.not_eq_true', Bool.not_eq_true'] at hc
  exact ⟨hc.1.1, hc.1.2, hc.2⟩

def Count.node (n : Count) : Node :=
  .prim ⟨n.text, n.int.digits.1, fun c hc => bareByte_digit (n.int.digits.2 c hc)⟩

/-- The fields of its entry. -/
def Listed.fields (t : Listed) : List (Bytes × Node) :=
  [(bytes "dtype", .str t.dtype), (bytes "shape", .arr (t.shape.map Count.node)),
    (bytes "data_offsets", .arr [t.start.node, t.stop.node])]

/-- The members of a header list some tensors, with their fields in any order. -/
inductive Lists : List (Bytes × Node) → List Listed → Prop
  | nil : Lists [] []
  | metadata {ms : List (Bytes × Node)} {ts : List Listed} (n : Node) (h : Lists ms ts) :
      Lists ((metadataName, n) :: ms) ts
  | tensor {ms fields : List (Bytes × Node)} {t : Listed} {ts : List Listed}
      (hfields : fields.Perm t.fields) (h : Lists ms ts) :
      Lists ((t.name, .obj fields) :: ms) (t :: ts)

/-- A header of the format: an object that lists the tensors, each name once. -/
structure ValidHeader (js : Bytes) (ts : List Listed) : Prop where
  length_lt : js.length < 2147483648
  text : ∃ ms w t w' j, Lists ms ts ∧ (ms.map Prod.fst).Nodup ∧ js = w ++ (t ++ w') ∧
    rfc8259.Ws w ∧ rfc8259.Ws w' ∧ Lexes rfc8259 t (.value j) (Node.obj ms).tokens

/-! ## Numbers -/

/-- Digits are read up to the end of the range. -/
theorem strtol_digits {t : Bytes} (h : Digits t) :
    Server.strtol t = min 9223372036854775807 (digitsValue 10 t : Int) := by
  obtain ⟨hne, hall⟩ := h
  obtain ⟨c, b, rfl⟩ := List.exists_cons_of_ne_nil hne
  have hc := hall c List.mem_cons_self
  have hhead : ∀ c : UInt8, isDigit c = true →
      isspace c = false ∧ c ≠ 0x2d ∧ c ≠ 0x2b := forall_byte (by decide +kernel)
  obtain ⟨hspace, hminus, hplus⟩ := hhead c hc
  have hdigits : Server.strtolDigits (c :: b) = c :: b := by
    rw [Server.strtolDigits, if_neg (by simp [hminus, hplus]), List.takeWhile_eq_self_iff]
    exact hall
  rw [Server.strtol, List.dropWhile_cons_of_neg (by simp [hspace]), hdigits,
    if_neg (by simpa using hminus)]
  omega

/-- How a number is read. -/
def Count.read (n : Count) : Option Int :=
  if 64 ≤ n.text.length then none else some (min 9223372036854775807 (n.value : Int))

theorem jsonI64_count {d : Doc} {k : Nat} {parent : Option Nat} {n : Count}
    (h : At d k parent n.node) : jsonI64 d k = n.read := by
  obtain ⟨t, ht, -, htext⟩ := h.leaf rfl (Node.views.eq_2 ..)
  rw [jsonI64, ht, Option.bind_eq_bind, Option.bind_some]
  dsimp only
  rw [htext, strtol_digits n.int.digits, Count.read]
  simp only [n.int.digits.1, false_or, Count.value]

/-- The digits of a number tell its size. -/
theorem pow_length_le {ds : Bytes} (h : ∀ c ∈ ds, isDigit c = true) (m : Nat) :
    m * 10 ^ ds.length ≤ ds.foldl (fun n c => n * 10 + (hexValue c).getD 0) m := by
  induction ds generalizing m with
  | nil => simp
  | cons c ds ih =>
    refine le_trans ?_ (ih (fun c hc => h c (List.mem_cons_of_mem _ hc)) _)
    rw [List.length_cons, Nat.pow_succ', ← Nat.mul_assoc]
    exact Nat.mul_le_mul_right _ (Nat.le_add_right _ _)

theorem Count.length_lt {n : Count} (h : n.Fits) : n.text.length < 64 := by
  obtain ⟨text, hint⟩ := n
  rcases hint with rfl | ⟨⟨hne, hall⟩, hzero⟩
  · decide
  · obtain ⟨c, b, rfl⟩ := List.exists_cons_of_ne_nil hne
    have hdigit : ∀ c : UInt8, isDigit c = true → c ≠ 0x30 → 1 ≤ (hexValue c).getD 0 :=
      forall_byte (by decide +kernel)
    have hone := hdigit c (hall c List.mem_cons_self) (by simpa using hzero)
    have hle := pow_length_le (fun d hd => hall d (List.mem_cons_of_mem c hd))
      (0 * 10 + (hexValue c).getD 0)
    have hlt : 10 ^ b.length < 10 ^ 19 := by
      have hvalue : digitsValue 10 (c :: b) < 9223372036854775808 := h
      rw [digitsValue, List.foldl_cons] at hvalue
      calc 10 ^ b.length ≤ (0 * 10 + (hexValue c).getD 0) * 10 ^ b.length :=
            Nat.le_mul_of_pos_left _ (by omega)
        _ ≤ _ := hle
        _ < 10 ^ 19 := hvalue.trans (by decide)
    have hshort := (Nat.pow_lt_pow_iff_right (by decide)).mp hlt
    change b.length + 1 < 64
    omega

/-- A number is read as it is written exactly when it fits. -/
theorem Count.read_iff (n : Count) : n.read = some (n.value : Int) ↔ n.Fits := by
  rw [Count.read]
  constructor
  · intro h
    split at h
    · cases h
    · have hmin := Option.some.inj h
      change n.value < _
      omega
  · intro h
    have hlen := n.length_lt h
    have hlt : n.value < 9223372036854775808 := h
    rw [if_neg (by omega)]
    congr 1
    omega

/-! ## Lists of results -/

theorem mapM_forall₂ {α β γ : Type} {f : α → Option γ} {g : β → Option γ} {as : List α}
    {bs : List β} (h : List.Forall₂ (fun a b => f a = g b) as bs) : as.mapM f = bs.mapM g := by
  induction h with
  | nil => rfl
  | cons hab _ ih => rw [List.mapM_cons, List.mapM_cons, hab, ih]

/-- Every result is the wanted one exactly when all of them are. -/
theorem mapM_eq_some_map {α β : Type} {f : α → Option β} {g : α → β} (l : List α) :
    l.mapM f = some (l.map g) ↔ ∀ x ∈ l, f x = some (g x) := by
  induction l with
  | nil => exact ⟨fun _ _ h => absurd h List.not_mem_nil, fun _ => rfl⟩
  | cons x l ih =>
    rw [List.mapM_cons, List.forall_mem_cons, ← ih, List.map_cons]
    constructor
    · intro h
      obtain ⟨y, hy, h⟩ := Option.bind_eq_some_iff.mp h
      obtain ⟨ys, hys, h⟩ := Option.bind_eq_some_iff.mp h
      obtain ⟨rfl, rfl⟩ := List.cons.inj (Option.some.inj h)
      exact ⟨hy, hys⟩
    · rintro ⟨hx, hl⟩
      rw [hx, hl]
      rfl

/-- An element is found by its key when keys are different. -/
theorem find?_nodup {α β : Type} {key : α → β} {p : α → Bool} {l : List α}
    (h : (l.map key).Nodup) {a : α} (ha : a ∈ l) (hp : ∀ x, p x = true ↔ key x = key a) :
    l.find? p = some a := by
  induction l with
  | nil => cases ha
  | cons x l ih =>
    obtain ⟨hx, h⟩ := List.nodup_cons.mp h
    rcases List.mem_cons.mp ha with rfl | ha
    · exact List.find?_cons_of_pos ((hp a).mpr rfl)
    · have hne : key x ≠ key a := fun heq => hx (heq ▸ List.mem_map_of_mem ha)
      rw [List.find?_cons_of_neg (by rwa [hp]), ih h ha]

/-! ## One tensor -/

theorem parseShapeLoop_eq {d : Doc} {is : List Nat} {ns : List Count}
    (h : List.Forall₂ (fun i n => jsonI64 d i = n.read) is ns) {shape : List Int}
    (hrank : shape.length + ns.length ≤ stMaxDims) :
    parseShapeLoop d is shape = (ns.mapM Count.read).map (shape ++ ·) := by
  induction h generalizing shape with
  | nil => exact congrArg some (List.append_nil shape).symm
  | @cons i n is ns hn _ ih =>
    rw [List.length_cons] at hrank
    rw [parseShapeLoop, if_neg (by omega), List.mapM_cons, hn]
    cases n.read with
    | none => rfl
    | some x =>
      rw [Option.bind_eq_bind, Option.bind_some, Option.bind_eq_bind, Option.bind_some,
        ih (by rw [List.length_append, List.length_singleton]; omega)]
      cases ns.mapM Count.read with
      | none => rfl
      | some xs => exact congrArg some (List.append_assoc shape [x] xs)

/-- How a tensor of a header is read. -/
def Listed.read (t : Listed) : Option Loaded := do
  let shape ← t.shape.mapM Count.read
  let start ← t.start.read
  let stop ← t.stop.read
  some ⟨t.name, t.dtype, shape, toU64 start, toU64 stop⟩

section Entries

variable {d : Doc} {k : Nat} {parent : Option Nat}

/-- The numbers of an array. -/
theorem jsonI64_children (hd : Ordered d.views) {ns : List Count}
    (h : At d k parent (.arr (ns.map Count.node))) :
    List.Forall₂ (fun i n => jsonI64 d i = n.read) (children d k) ns :=
  (List.forall₂_map_right_iff.mp (children_at hd h)).imp fun _ _ hat => jsonI64_count hat

theorem parseShape_eq (hd : Ordered d.views) {ns : List Count} (hrank : ns.length ≤ stMaxDims)
    (h : At d k parent (.arr (ns.map Count.node))) : parseShape d k = ns.mapM Count.read := by
  obtain ⟨t, ht, htype⟩ := h.branch (Node.views.eq_3 ..)
  rw [parseShape, ht, Option.bind_eq_bind, Option.bind_some, if_pos htype,
    parseShapeLoop_eq (jsonI64_children hd h) (by simpa using hrank)]
  cases ns.mapM Count.read <;> rfl

theorem parseOffsets_eq (hd : Ordered d.views) {a b : Count}
    (h : At d k parent (.arr [a.node, b.node])) :
    parseOffsets d k = (a.read).bind fun x => (b.read).map fun y => (toU64 x, toU64 y) := by
  have hreads : List.Forall₂ (fun i n => jsonI64 d i = n.read) (children d k) [a, b] :=
    jsonI64_children hd h
  rw [parseOffsets, mapM_forall₂ hreads, List.mapM_cons, List.mapM_cons, List.mapM_nil]
  cases a.read with
  | none => rfl
  | some x => cases b.read <;> rfl

/-- A field of an entry is found. -/
theorem jsonObjGet_field (hd : Ordered d.views) {t : Listed} {fields : List (Bytes × Node)}
    (hfields : fields.Perm t.fields) (h : At d k parent (.obj fields)) (key : Bytes) (n : Node)
    (hmem : (key, n) ∈ t.fields) :
    ∃ v, jsonObjGet d (some k) key = some v ∧ At d v (some k) n := by
  have hnames : (t.fields.map Prod.fst).Nodup := by
    change [bytes "dtype", bytes "shape", bytes "data_offsets"].Nodup
    decide +kernel
  have hnodup : (fields.map Prod.fst).Nodup := (hfields.map Prod.fst).nodup_iff.mpr hnames
  have hget := jsonObjGet_at hd h key
  rw [find?_nodup hnodup (hfields.mem_iff.mpr hmem) fun _ => decide_eq_true_iff] at hget
  exact hget

theorem Unescaped.cstr {s : Bytes} (h : Unescaped s) : cstr s = s :=
  cstr_iff.mpr fun hmem => absurd (h 0 hmem).1 (by decide)

/-- A turn of the loop of `shard_load`. -/
theorem shardEntry_tensor (hd : Ordered d.views) {t : Listed} {fields : List (Bytes × Node)}
    (hfields : fields.Perm t.fields) (h : MemberAt d 0 k (t.name, .obj fields))
    (tensors : List Loaded) :
    shardEntry d tensors k = (t.read).map fun e => tensors ++ [e] := by
  obtain ⟨hlt, hparent⟩ := h.2.first
  obtain ⟨name, hname, hview⟩ := Option.map_eq_some_iff.mp (List.getElem?_map.symm.trans h.1)
  obtain ⟨type, start, stop, parent, size⟩ := name
  obtain ⟨rfl, htext, -⟩ := View.mk.inj hview
  have hkey : tokText d.js ⟨.string, start, stop, parent, size⟩ = t.name := htext
  obtain ⟨dtype, hdtype, hatd⟩ := jsonObjGet_field hd hfields h.2 (bytes "dtype")
    (.str t.dtype) (by simp [Listed.fields])
  obtain ⟨shape, hshape, hats⟩ := jsonObjGet_field hd hfields h.2 (bytes "shape")
    (.arr (t.shape.map Count.node)) (by simp [Listed.fields])
  obtain ⟨offsets, hoffsets, hato⟩ := jsonObjGet_field hd hfields h.2 (bytes "data_offsets")
    (.arr [t.start.node, t.stop.node]) (by simp [Listed.fields])
  obtain ⟨dtok, hdtok, -, hdtext⟩ := hatd.leaf rfl (Node.views.eq_1 ..)
  have hne : d.tokEq k metadataName = false := by
    rw [h.tokEq]
    exact decide_eq_false t.name_ne
  rw [shardEntry]
  dsimp only
  rw [if_neg (by rintro (hle | hno); exacts [absurd hlt (by omega), hno hparent]), hne,
    if_neg Bool.false_ne_true, hname, hdtype, hshape, hoffsets]
  simp only [Option.bind_eq_bind, Option.bind_some, hdtok, parseShape_eq hd t.rank_le hats,
    parseOffsets_eq hd hato, hkey, hdtext, t.name_unescaped.cstr, t.dtype_unescaped.cstr]
  rw [Listed.read]
  cases t.shape.mapM Count.read with
  | none => rfl
  | some xs =>
    cases t.start.read with
    | none => rfl
    | some x => cases t.stop.read <;> rfl

theorem shardEntry_metadata {n : Node} (h : MemberAt d 0 k (metadataName, n))
    (tensors : List Loaded) : shardEntry d tensors k = some tensors := by
  obtain ⟨hlt, hparent⟩ := h.2.first
  rw [shardEntry]
  dsimp only
  rw [if_neg (by rintro (hle | hno); exacts [absurd hlt (by omega), hno hparent]), h.tokEq,
    decide_eq_true rfl, if_pos rfl]

/-- The loop of `shard_load`. -/
theorem shardEntry_foldlM (hd : Ordered d.views) {ms : List (Bytes × Node)} {ts : List Listed}
    (hlists : Lists ms ts) {ks : List Nat} (h : List.Forall₂ (MemberAt d 0) ks ms)
    (tensors : List Loaded) :
    ks.foldlM (shardEntry d) tensors = (ts.mapM Listed.read).map (tensors ++ ·) := by
  induction hlists generalizing ks tensors with
  | nil =>
    cases h
    exact congrArg some (List.append_nil tensors).symm
  | metadata n _ ih =>
    cases h with
    | cons hk hks =>
      rw [List.foldlM_cons, shardEntry_metadata hk, Option.bind_eq_bind, Option.bind_some, ih hks]
  | @tensor ms fields t ts hfields _ ih =>
    cases h with
    | cons hk hks =>
      rw [List.foldlM_cons, shardEntry_tensor hd hfields hk, List.mapM_cons]
      cases t.read with
      | none => rfl
      | some e =>
        rw [Option.map_some, Option.bind_eq_bind, Option.bind_some, ih hks, Option.bind_eq_bind,
          Option.bind_some]
        cases ts.mapM Listed.read with
        | none => rfl
        | some es => exact congrArg some (List.append_assoc tensors [e] es)

end Entries

/-! ## The header -/

/-- What is loaded of a header is what each tensor reads as. -/
theorem shardTensors_listed {js : Bytes} {ts : List Listed} (h : ValidHeader js ts) :
    shardTensors js = ts.mapM Listed.read := by
  obtain ⟨ms, w, t, w', j, hlists, -, rfl, hw, hw', hlex⟩ := h.text
  have hrest : Flat w' [] := by
    simpa using Flat.spaces (rfc8259_tame.space hw') .nil
  have hstops : Stops w' := by simpa using stops_space (rfc8259_tame.space hw') stops_nil
  have hflat : Flat (w ++ (t ++ w')) (Node.obj ms).tokens := by
    have hbody := Lexes.flat rfc8259_tame hlex hstops hrest
    rw [List.append_nil] at hbody
    exact .spaces (rfc8259_tame.space hw) hbody
  obtain ⟨d, hd, hordered, hat⟩ := jsonParseText_node h.length_lt hflat
  obtain ⟨root, hroot, htype⟩ := hat.branch (Node.views.eq_4 ..)
  rw [shardTensors, hd, Option.bind_eq_bind, Option.bind_some, hroot, Option.bind_eq_bind,
    Option.bind_some, if_pos htype, shardEntry_foldlM hordered hlists (members_at hordered hat)]
  cases ts.mapM Listed.read <;> rfl

/-- A tensor is read as the header says exactly when its numbers fit. -/
theorem Listed.read_iff (t : Listed) : t.read = some t.loaded ↔ t.Fits := by
  rw [Listed.read, Listed.Fits, Listed.loaded]
  constructor
  · intro h
    obtain ⟨shape, hshape, h⟩ := Option.bind_eq_some_iff.mp h
    obtain ⟨start, hstart, h⟩ := Option.bind_eq_some_iff.mp h
    obtain ⟨stop, hstop, h⟩ := Option.bind_eq_some_iff.mp h
    obtain ⟨-, -, rfl, hx, hy⟩ := Loaded.mk.inj (Option.some.inj h)
    have hread {n : Count} {x : Int} (hn : n.read = some x) (hx : toU64 x = n.value) :
        n.Fits := by
      rw [← n.read_iff, hn]
      rw [Count.read] at hn
      split at hn
      · cases hn
      · have hmin := Option.some.inj hn
        rw [toU64] at hx
        congr 1
        omega
    exact ⟨fun n hn => n.read_iff.mp ((mapM_eq_some_map _).mp hshape n hn), hread hstart hx,
      hread hstop hy⟩
  · rintro ⟨hshape, hstart, hstop⟩
    have hcast {n : Count} (hn : n.Fits) : toU64 n.value = n.value := by
      have hlt : n.value < 9223372036854775808 := hn
      rw [toU64]
      omega
    rw [(mapM_eq_some_map _).mpr fun n hn => n.read_iff.mpr (hshape n hn), t.start.read_iff.mpr
      hstart, t.stop.read_iff.mpr hstop]
    simp only [Option.bind_eq_bind, Option.bind_some, hcast hstart, hcast hstop]

/-- A header is loaded as it says exactly when its numbers fit. -/
theorem shardTensors_iff {js : Bytes} {ts : List Listed} (h : ValidHeader js ts) :
    shardTensors js = some (ts.map Listed.loaded) ↔ ∀ t ∈ ts, t.Fits := by
  rw [shardTensors_listed h, mapM_eq_some_map]
  exact forall₂_congr fun t _ => t.read_iff

end Sf37.Quantize

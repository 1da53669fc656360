/-
Sf37.Tokenizer.VocabTables — the hash tables of `vocab_load_from_tokenizer_json`.

The tables hold pointers to strings. A string is a cell with its bytes, and the cells that were
freed are known: to compare with a key in one of them is undefined. A call that is undefined or
does not end gives `none`. A token that an id had before is freed when the id comes again.

* `tablePut_spec`, `tableGet_spec`: the tables represent what was put.
* `Sound`: the keys of the table are tokens that are still there and keep their ids.
* `Lost`: a key of the table was freed, or will be.
* `vocabTables_iff`: the tables are finite maps exactly when no id comes again whose string is a
  key of the table.
-/
import Mathlib.Data.Nat.Bitwise
import Sf37.Run.Probing
import Sf37.Server.HttpRequest
import Sf37.Text.JsonWalk

namespace Sf37.Tokenizer.VocabLoad

open Sf37.Text Sf37.Text.JsonDoc Sf37.Run

/-! ## Tables -/

/-- `sf37_str`: the cell it points to, and what was stored there. -/
structure Str where
  cell : Nat
  text : Bytes
  deriving DecidableEq

/-- `sf37_str_i32_entry`, where it is used. -/
structure Entry where
  key : Str
  value : Int
  deriving DecidableEq

/-- `sf37_str_i32_table`; an entry that is not used is `none`. -/
abbrev Table := List (Option Entry)

/-- `sf37_hash_bytes`. -/
def hashBytes (b : Bytes) : UInt64 :=
  b.foldl (fun h c => (h ^^^ c.toUInt64) * 1099511628211) 1469598103934665603

/-- `sf37_str_eq2` and `sf37_str_bytes_eq`. With a freed key `memcmp` is undefined, whatever the
length is. -/
def strEq (freed : List Nat) (a : Str) (text : Bytes) : Option Bool :=
  if a.text.length = text.length then
    if a.cell ∈ freed then none else some (decide (a.text = text))
  else some false

/-- The loop of `sf37_next_pow2`, which doubles at most `n` times. -/
def nextPow2Loop (n : Nat) : Nat → Nat → Nat
  | 0, p => p
  | fuel + 1, p => if p < n then nextPow2Loop n fuel (p * 2) else p

/-- `sf37_next_pow2`. -/
def nextPow2 (n : Nat) : Nat := nextPow2Loop n n 1

/-- `table_init`. -/
def tableInit (expected : Nat) : Table := List.replicate (nextPow2 (expected * 2 + 16)) none

/-- The walk of `table_put` and `table_get` to a free entry or one with the key. When it has seen
all entries it goes on for ever. -/
def tableWalk (freed : List Nat) (t : Table) (text : Bytes) : Nat → Nat → Option Nat
  | 0, _ => none
  | fuel + 1, i =>
    match t[i]? with
    | none => none
    | some none => some i
    | some (some e) =>
      match strEq freed e.key text with
      | none => none
      | some true => some i
      | some false => tableWalk freed t text fuel ((i + 1) &&& (t.length - 1))

/-- `table_put`. -/
def tablePut (freed : List Nat) (t : Table) (key : Str) (value : Int) : Option Table := do
  let t := if t.length = 0 then tableInit 16 else t
  let i ← tableWalk freed t key.text t.length ((hashBytes key.text).toNat &&& (t.length - 1))
  match t[i]? with
  | some (some e) => some (t.set i (some { e with value := value }))
  | _ => some (t.set i (some ⟨key, value⟩))

/-- `table_get`: the value when there is one. -/
def tableGet (freed : List Nat) (t : Table) (text : Bytes) : Option (Option Int) :=
  if t.length = 0 then some none
  else do
    let i ← tableWalk freed t text t.length ((hashBytes text).toNat &&& (t.length - 1))
    match t[i]? with
    | some (some e) => some (some e.value)
    | _ => some none

/-! ## Scanning the file -/

/-- `json_strdup_decoded`. -/
def jsonStrdupDecoded : Nat → Bytes → Bytes
  | 0, _ => []
  | _ + 1, [] => []
  | fuel + 1, c :: p =>
    if c ≠ 0x5c then c :: jsonStrdupDecoded fuel p
    else
      match p with
      | [] => []
      | e :: p =>
        if e = 0x75 then
          match jsonUnicodeEscape p with
          | none => []
          | some (b, p) => b ++ jsonStrdupDecoded fuel p
        else (jsonSimpleEscape e).getD e :: jsonStrdupDecoded fuel p

/-- The decoded text of a token. -/
def decodedToken (d : Doc) (tok : Nat) : Option Bytes := do
  let t ← d.v[tok]?
  let text := tokText d.js t
  some (jsonStrdupDecoded text.length text)

/-- `(int)json_i64`; there is nothing to read behind the last token. -/
def jsonInt (d : Doc) (tok : Nat) : Option Int := do
  let t ← d.v[tok]?
  let text := tokText d.js t
  if text = [] ∨ 64 ≤ text.length then some 0
  else some ((Server.strtol text).bmod 4294967296)

def isType (d : Doc) (type : TokType) (tok : Nat) : Bool :=
  match d.v[tok]? with
  | some t => t.type = type
  | none => false

/-- The members of `model.vocab`: the string and the id. -/
def vocabEntries (d : Doc) (vocabTok : Nat) : Option (List (Bytes × Int)) :=
  (members d vocabTok).mapM fun k => do
    let s ← decodedToken d k
    let id ← jsonInt d (k + 1)
    some (s, id)

/-- The objects of `added_tokens`, when that is an array. -/
def addedObjects (d : Doc) : List Nat :=
  match jsonObjGet d (some 0) (bytes "added_tokens") with
  | none => []
  | some tok => if isType d .array tok then (children d tok).filter (isType d .object) else []

/-- The ids of the added tokens. -/
def addedIds (d : Doc) : List Int :=
  (addedObjects d).filterMap fun i => do
    let idTok ← jsonObjGet d (some i) (bytes "id")
    jsonInt d idTok

/-- The id and the content of the added tokens that have both. -/
def addedEntries (d : Doc) : List (Int × Bytes) :=
  (addedObjects d).filterMap fun i => do
    let idTok ← jsonObjGet d (some i) (bytes "id")
    let contentTok ← jsonObjGet d (some i) (bytes "content")
    if isType d .string contentTok then do
      let id ← jsonInt d idTok
      let s ← decodedToken d contentTok
      some (id, s)
    else none

/-- The key of a merge: a string, or two with a space between them. -/
def mergeKey (d : Doc) (i : Nat) : Option Bytes :=
  if isType d .string i then decodedToken d i
  else if isType d .array i then
    match children d i with
    | a :: b :: _ => do
      let as ← decodedToken d a
      let bs ← decodedToken d b
      some (as ++ [0x20] ++ bs)
    | _ => none
  else none

/-- What the loops over the file read. -/
structure Scan where
  vocab : List (Bytes × Int)
  added : List (Int × Bytes)
  merges : List (Option Bytes)
  nVocab : Nat
  deriving DecidableEq

/-- The file up to the check of the ids; `none` is an error. -/
def scanTokenizer (js : Bytes) : Option Scan := do
  let d ← jsonParseText js
  let model := jsonObjGet d (some 0) (bytes "model")
  let vocabTok ← jsonObjGet d model (bytes "vocab")
  let mergesTok ← jsonObjGet d model (bytes "merges")
  if isType d .object vocabTok ∧ isType d .array mergesTok then do
    let vocab ← vocabEntries d vocabTok
    let maxId := (vocab.map Prod.snd ++ addedIds d).foldl max (-1)
    if maxId < 0 ∨ maxId > 10000000 then none
    else some ⟨vocab, addedEntries d, (children d mergesTok).map (mergeKey d), maxId.toNat + 1⟩
  else none

/-! ## Loading -/

/-- `vocab->token` and `vocab->token_to_id`, with the cells that were freed and the next one. -/
structure State where
  token : List (Option Str)
  freed : List Nat
  next : Nat
  tokenToId : Table

/-- `id >= 0 && id < vocab->n_vocab`. -/
def InRange (n : Nat) (id : Int) : Prop := 0 ≤ id ∧ id < n

instance (n : Nat) (id : Int) : Decidable (InRange n id) :=
  inferInstanceAs (Decidable (0 ≤ id ∧ id < n))

/-- `free` of the token that the id has, if it has one. -/
def freeToken (st : State) (id : Int) : List Nat :=
  match st.token.getD id.toNat none with
  | some old => old.cell :: st.freed
  | none => st.freed

/-- A turn of the loop over the vocabulary. -/
def vocabTurn (st : State) (e : Bytes × Int) : Option State :=
  let s : Str := ⟨st.next, e.1⟩
  if InRange st.token.length e.2 then do
    let t ← tablePut (freeToken st e.2) st.tokenToId s e.2
    some ⟨st.token.set e.2.toNat (some s), freeToken st e.2, st.next + 1, t⟩
  else some { st with freed := st.next :: st.freed, next := st.next + 1 }

/-- A turn of the loop over the added tokens; the text itself is kept in `vocab->added`. -/
def addedTurn (st : State) (e : Int × Bytes) : Option State :=
  if InRange st.token.length e.1 then
    if st.token.getD e.1.toNat none = none then do
      let s : Str := ⟨st.next + 1, e.2⟩
      let t ← tablePut st.freed st.tokenToId s e.1
      some ⟨st.token.set e.1.toNat (some s), st.freed, st.next + 2, t⟩
    else some { st with next := st.next + 1 }
  else some { st with freed := st.next :: st.freed, next := st.next + 1 }

/-- The loop over the merges, from `rank` on. -/
def mergeLoop (freed : List Nat) : Nat → Nat → Table → List (Option Bytes) → Option Table
  | _, _, t, [] => some t
  | next, rank, t, none :: keys => mergeLoop freed next (rank + 1) t keys
  | next, rank, t, some key :: keys => do
    let t ← tablePut freed t ⟨next, key⟩ rank
    mergeLoop freed (next + 1) (rank + 1) t keys

/-- The tables, with the cells that were freed. -/
structure Tables where
  freed : List Nat
  tokenToId : Table
  mergeRank : Table

def loadTables (s : Scan) : Option Tables := do
  let st ← s.vocab.foldlM vocabTurn
    ⟨List.replicate s.nVocab none, [], 0, tableInit s.nVocab⟩
  let st ← s.added.foldlM addedTurn st
  let merges ← mergeLoop st.freed st.next 0 (tableInit s.merges.length) s.merges
  some ⟨st.freed, st.tokenToId, merges⟩

/-- The ids that are looked up. -/
structure Ids where
  bosId : Int
  eosId : Int
  imStartId : Int
  imEndId : Int
  thinkStartId : Int
  thinkEndId : Int
  imPatchId : Int

/-- What becomes of a scanned file. -/
inductive Outcome
  | exits (missing : Bytes)
  | ready (t : Tables) (ids : Ids)

/-- `vocab_lookup_soft`. -/
def vocabLookupSoft (t : Tables) (text : Bytes) : Option Int :=
  (tableGet t.freed t.tokenToId text).map (·.getD (-1))

/-- `vocab_lookup_required`, before what comes behind it. -/
def vocabLookupRequired (t : Tables) (text : Bytes) (next : Int → Option Outcome) :
    Option Outcome := do
  let token ← vocabLookupSoft t text
  if token < 0 then some (.exits text) else next token

def bosText : Bytes := bytes "<｜begin▁of▁sentence｜>"

def imEndText : Bytes := bytes "<|im_end|>"

def imStartText : Bytes := bytes "<|im_start|>"

/-- The rest of `vocab_load_from_tokenizer_json` behind the check of the ids. -/
def loadVocab (s : Scan) : Option Outcome := do
  let t ← loadTables s
  vocabLookupRequired t bosText fun bosId =>
    vocabLookupRequired t imEndText fun eosId =>
      vocabLookupRequired t imStartText fun imStartId =>
        vocabLookupRequired t imEndText fun imEndId => do
          let thinkStartId ← vocabLookupSoft t (bytes "<think>")
          let thinkEndId ← vocabLookupSoft t (bytes "</think>")
          let imPatchId ← vocabLookupSoft t (bytes "<im_patch>")
          some (.ready t ⟨bosId, eosId, imStartId, imEndId, thinkStartId, thinkEndId, imPatchId⟩)

/-! ## The tables as maps -/

/-- The table has the keys that were put, each with the value that was put last. -/
abbrev Holds (t : Table) (puts : List (Bytes × Int)) : Prop :=
  Represents (fun e : Entry => e.key.text) Entry.value (fun text => (hashBytes text).toNat) t puts

/-- A string that is a key of the table. -/
def HasKey (t : Table) (s : Str) : Prop := ∃ e, some e ∈ t ∧ e.key = s

theorem nextPow2Loop_spec {n : Nat} (fuel j : Nat) (h : n ≤ 2 ^ (j + fuel)) :
    ∃ k, nextPow2Loop n fuel (2 ^ j) = 2 ^ k ∧ n ≤ 2 ^ k := by
  induction fuel generalizing j with
  | zero => exact ⟨j, rfl, h⟩
  | succ fuel ih =>
    rw [nextPow2Loop]
    split
    next =>
      rw [← Nat.pow_succ]
      exact ih (j + 1) (by rwa [Nat.add_right_comm])
    next hbig => exact ⟨j, rfl, Nat.not_lt.mp hbig⟩

/-- The capacity is a power of two that is large enough. -/
theorem length_tableInit (expected : Nat) :
    (∃ k, (tableInit expected).length = 2 ^ k) ∧ expected < (tableInit expected).length := by
  obtain ⟨k, hk, hle⟩ := nextPow2Loop_spec (n := expected * 2 + 16) (expected * 2 + 16) 0
    (by rw [Nat.zero_add]; exact Nat.lt_two_pow_self.le)
  have hlen : (tableInit expected).length = 2 ^ k := by
    rw [tableInit, List.length_replicate, nextPow2, ← hk, Nat.pow_zero]
  exact ⟨⟨k, hlen⟩, by omega⟩

theorem holds_tableInit (expected : Nat) : Holds (tableInit expected) [] := Represents.nil _

theorem strEq_compares (freed : List Nat) (text : Bytes) :
    Compares (fun e : Entry => e.key.text) text fun e => strEq freed e.key text := by
  intro e b h
  dsimp only [strEq] at h
  split at h
  next =>
    split at h
    next => cases h
    next => rw [← Option.some.inj h, decide_eq_true_eq]
  next hlen =>
    rw [← Option.some.inj h]
    exact iff_of_false Bool.false_ne_true fun htext => hlen (congrArg List.length htext)

/-- The walk goes over the entries of a table with a power of two of them, around the end. -/
theorem tableWalk_eq (freed : List Nat) {t : Table} (hlen : ∃ k, t.length = 2 ^ k) (text : Bytes)
    (fuel i : Nat) :
    tableWalk freed t text fuel i = probe (fun e => strEq freed e.key text) t fuel i := by
  obtain ⟨k, hk⟩ := hlen
  induction fuel generalizing i with
  | zero => rfl
  | succ fuel ih =>
    rw [tableWalk, probe, ih, hk, Nat.and_two_pow_sub_one_eq_mod, ← hk]
    rcases t[i]? with - | - | e
    · rfl
    · rfl
    · rcases strEq freed e.key text with - | - | - <;> rfl

theorem tableWalk_home (freed : List Nat) {t : Table} (hlen : ∃ k, t.length = 2 ^ k)
    (text : Bytes) :
    tableWalk freed t text t.length ((hashBytes text).toNat &&& (t.length - 1)) =
      probe (fun e => strEq freed e.key text) t t.length ((hashBytes text).toNat % t.length) := by
  rw [tableWalk_eq freed hlen]
  obtain ⟨k, hk⟩ := hlen
  rw [hk, Nat.and_two_pow_sub_one_eq_mod]

theorem length_ne_zero {t : Table} (hlen : ∃ k, t.length = 2 ^ k) : t.length ≠ 0 := by
  obtain ⟨k, hk⟩ := hlen
  rw [hk]
  exact (Nat.two_pow_pos k).ne'

/-- What `table_put` does, when it ends. -/
theorem tablePut_spec {freed : List Nat} {t t' : Table} {key : Str} {value : Int}
    {puts : List (Bytes × Int)} (hlen : ∃ k, t.length = 2 ^ k) (h : Holds t puts)
    (hput : tablePut freed t key value = some t') :
    Holds t' (puts ++ [(key.text, value)]) ∧ t'.length = t.length ∧
      ∀ s, HasKey t' s ↔ HasKey t s ∨ s = key ∧ key.text ∉ puts.map Prod.fst := by
  unfold tablePut at hput
  dsimp only at hput
  rw [if_neg (length_ne_zero hlen), tableWalk_home freed hlen, Option.bind_eq_bind,
    Option.bind_eq_some_iff] at hput
  obtain ⟨i, hi, hput⟩ := hput
  have hsame := strEq_compares freed key.text
  rcases h.probed.probe hsame hi with ⟨hfree, hother⟩ | ⟨e, he, hkey, -⟩
  · simp only [hfree, Option.some.injEq] at hput
    subst hput
    refine ⟨h.put hsame hi rfl, List.length_set, fun s => ?_⟩
    have hnew : key.text ∉ puts.map Prod.fst := by
      rw [h.mem_keys]
      rintro ⟨e, he, hkey⟩
      exact hother e he hkey
    rw [and_iff_left hnew]
    exact exists_set_free Entry.key hfree _ s
  · simp only [he, Option.some.injEq] at hput
    subst hput
    refine ⟨h.put hsame hi hkey, List.length_set, fun s => ?_⟩
    have hold : key.text ∈ puts.map Prod.fst := h.mem_keys.mpr ⟨e, List.mem_of_getElem? he, hkey⟩
    rw [or_iff_left fun hs => hs.2 hold]
    exact exists_set_entry Entry.key (x := ⟨e.key, value⟩) he rfl s

/-- The keys of the table can be compared. -/
def Live (freed : List Nat) (t : Table) : Prop := ∀ s, HasKey t s → s.cell ∉ freed

theorem Live.answers {freed : List Nat} {t : Table} (h : Live freed t) (text : Bytes) :
    ∀ e, some e ∈ t → (strEq freed e.key text).isSome = true := by
  intro e he
  unfold strEq
  split
  · rw [if_neg (h e.key ⟨e, he, rfl⟩)]
    rfl
  · rfl

/-- `table_put` ends when the keys can be compared and an entry is free. -/
theorem tablePut_total {freed : List Nat} {t : Table} (hlen : ∃ k, t.length = 2 ^ k)
    (hlive : Live freed t) (hfree : none ∈ t) (key : Str) (value : Int) :
    ∃ t', tablePut freed t key value = some t' := by
  obtain ⟨i, hi⟩ := probe_total (hlive.answers key.text) hfree (hashBytes key.text).toNat
  unfold tablePut
  dsimp only
  rw [if_neg (length_ne_zero hlen), tableWalk_home freed hlen, hi, Option.bind_eq_bind,
    Option.bind_some]
  split
  · exact ⟨_, rfl⟩
  · exact ⟨_, rfl⟩

/-- `table_get` gives the value that was put last, when the keys can be compared and an entry is
free. -/
theorem tableGet_spec {freed : List Nat} {t : Table} {puts : List (Bytes × Int)}
    (hlen : ∃ k, t.length = 2 ^ k) (h : Holds t puts) (hlive : Live freed t) (hfree : none ∈ t)
    (text : Bytes) : tableGet freed t text = some (lastPut puts text) := by
  obtain ⟨i, hi⟩ := probe_total (hlive.answers text) hfree (hashBytes text).toNat
  rw [← h.get (strEq_compares freed text) hi]
  unfold tableGet
  rw [if_neg (length_ne_zero hlen), tableWalk_home freed hlen, hi, Option.bind_eq_bind,
    Option.bind_some]
  rcases t[i]? with - | - | e
  · rfl
  · rfl
  · rfl

/-- To look up a key that was freed is undefined. -/
theorem tableGet_freed {freed : List Nat} {t : Table} {puts : List (Bytes × Int)}
    (hlen : ∃ k, t.length = 2 ^ k) (h : Holds t puts) {s : Str} (hs : HasKey t s)
    (hfreed : s.cell ∈ freed) : tableGet freed t s.text = none := by
  obtain ⟨e, he, rfl⟩ := hs
  have hnone : strEq freed e.key e.key.text = none := by rw [strEq, if_pos rfl, if_pos hfreed]
  unfold tableGet
  rw [if_neg (length_ne_zero hlen), tableWalk_home freed hlen,
    probe_stuck h.probed (strEq_compares freed e.key.text) he rfl hnone]
  rfl

/-! ## What is put -/

/-- The entries of the vocabulary that are put. -/
def vocabPuts (n : Nat) (es : List (Bytes × Int)) : List (Bytes × Int) :=
  es.filter fun e => InRange n e.2

/-- An added token is put when its id has no token yet. -/
def addedPut (n : Nat) (puts : List (Bytes × Int)) (e : Int × Bytes) : List (Bytes × Int) :=
  if InRange n e.1 ∧ e.1 ∉ puts.map Prod.snd then puts ++ [(e.2, e.1)] else puts

/-- What is put into `token_to_id`, in order. -/
def tokenPuts (s : Scan) : List (Bytes × Int) :=
  s.added.foldl (addedPut s.nVocab) (vocabPuts s.nVocab s.vocab)

/-- What is put into `merge_rank`, in order. -/
def mergePuts : Nat → List (Option Bytes) → List (Bytes × Int)
  | _, [] => []
  | rank, none :: keys => mergePuts (rank + 1) keys
  | rank, some key :: keys => (key, (rank : Int)) :: mergePuts (rank + 1) keys

/-- No id comes again behind an entry that brought its string into the table. -/
def KeepsKeys (n : Nat) (es : List (Bytes × Int)) : Prop :=
  ∀ front e rest, es = front ++ e :: rest → InRange n e.2 → e.2 ∈ rest.map Prod.snd →
    e.1 ∈ (vocabPuts n front).map Prod.fst

theorem vocabPuts_append (n : Nat) (es : List (Bytes × Int)) (e : Bytes × Int) :
    vocabPuts n (es ++ [e]) = if InRange n e.2 then vocabPuts n es ++ [e] else vocabPuts n es := by
  rw [vocabPuts, List.filter_append, List.filter_singleton, ← vocabPuts]
  by_cases h : InRange n e.2
  · rw [if_pos h, decide_eq_true h]
    rfl
  · rw [if_neg h, decide_eq_false h]
    exact List.append_nil _

/-! ## Runs of the loops -/

/-- What holds in every run: the table has what was put, and the ids that were put have a token. -/
structure Stored (n : Nat) (st : State) (puts : List (Bytes × Int)) : Prop where
  length : st.token.length = n
  pow : ∃ k, st.tokenToId.length = 2 ^ k
  holds : Holds st.tokenToId puts
  taken : ∀ i, st.token.getD i none = none ↔ (i : Int) ∉ puts.map Prod.snd
  range : ∀ p ∈ puts, InRange n p.2

theorem InRange.toNat {n : Nat} {id : Int} (h : InRange n id) :
    id.toNat < n ∧ (id.toNat : Int) = id := by
  have hid := Int.toNat_of_nonneg h.1
  exact ⟨by have := h.2; omega, hid⟩

theorem getD_set {token : List (Option Str)} {i j : Nat} (hi : i < token.length) (s : Str) :
    (token.set i (some s)).getD j none = if i = j then some s else token.getD j none := by
  rw [List.getD_eq_getElem?_getD]
  by_cases h : i = j
  · rw [if_pos h, ← h, List.getElem?_set_self hi]
    rfl
  · rw [if_neg h, List.getElem?_set_ne h, List.getD_eq_getElem?_getD]

/-- A put with the token of an id. -/
theorem Stored.put {n : Nat} {st : State} {puts : List (Bytes × Int)} (h : Stored n st puts)
    {s : Str} {id : Int} (hid : InRange n id) {freed : List Nat} {t : Table}
    (hput : tablePut freed st.tokenToId s id = some t) (next : Nat) :
    Stored n ⟨st.token.set id.toNat (some s), freed, next, t⟩ (puts ++ [(s.text, id)]) := by
  obtain ⟨hholds, hlen, -⟩ := tablePut_spec h.pow h.holds hput
  obtain ⟨hlt, hnat⟩ := hid.toNat
  refine ⟨?_, hlen ▸ h.pow, hholds, fun i => ?_, ?_⟩
  · exact List.length_set.trans h.length
  · dsimp only
    rw [getD_set (h.length.symm ▸ hlt), List.map_append, List.map_singleton, List.mem_append,
      List.mem_singleton, not_or, ← h.taken i]
    split
    next heq => exact iff_of_false nofun fun hne => hne.2 (by rw [← heq, hnat])
    next hne =>
      refine (and_iff_left fun heq : (i : Int) = id => hne ?_).symm
      rw [← heq, Int.toNat_natCast]
  · exact List.forall_mem_append.mpr ⟨h.range, List.forall_mem_singleton.mpr hid⟩

theorem vocabTurn_stored {n : Nat} {st st' : State} {es : List (Bytes × Int)} {e : Bytes × Int}
    (h : Stored n st (vocabPuts n es)) (hturn : vocabTurn st e = some st') :
    Stored n st' (vocabPuts n (es ++ [e])) := by
  unfold vocabTurn at hturn
  rw [h.length] at hturn
  rw [vocabPuts_append]
  split at hturn
  next hid =>
    obtain ⟨t, hput, hst⟩ := Option.bind_eq_some_iff.mp hturn
    cases hst
    rw [if_pos hid]
    exact h.put hid hput _
  next hid =>
    cases hturn
    rw [if_neg hid]
    exact ⟨h.length, h.pow, h.holds, h.taken, h.range⟩

theorem addedTurn_stored {n : Nat} {st st' : State} {puts : List (Bytes × Int)}
    {e : Int × Bytes} (h : Stored n st puts) (hturn : addedTurn st e = some st') :
    Stored n st' (addedPut n puts e) := by
  unfold addedTurn at hturn
  rw [h.length] at hturn
  unfold addedPut
  split at hturn
  next hid =>
    have htaken := h.taken e.1.toNat
    rw [hid.toNat.2] at htaken
    split at hturn
    next hnew =>
      obtain ⟨t, hput, hst⟩ := Option.bind_eq_some_iff.mp hturn
      cases hst
      rw [if_pos ⟨hid, htaken.mp hnew⟩]
      exact h.put hid hput _
    next hold =>
      cases hturn
      rw [if_neg fun hput => hold (htaken.mpr hput.2)]
      exact ⟨h.length, h.pow, h.holds, h.taken, h.range⟩
  next hid =>
    cases hturn
    rw [if_neg fun hput => hid hput.1]
    exact ⟨h.length, h.pow, h.holds, h.taken, h.range⟩

/-! ## A key that is freed -/

/-- A key of the table was freed, or will be: it is the token of an id that comes again. -/
def Lost (st : State) (s : Str) (rest : List (Bytes × Int)) : Prop :=
  HasKey st.tokenToId s ∧ (s.cell ∈ st.freed ∨
    ∃ i, st.token.getD i none = some s ∧ (i : Int) ∈ rest.map Prod.snd)

theorem freeToken_subset (st : State) (id : Int) : ∀ c ∈ st.freed, c ∈ freeToken st id := by
  intro c hc
  unfold freeToken
  split
  · exact List.mem_cons_of_mem _ hc
  · exact hc

theorem vocabTurn_lost {n : Nat} {st st' : State} {puts rest : List (Bytes × Int)} {s : Str}
    {e : Bytes × Int} (h : Stored n st puts) (hlost : Lost st s (e :: rest))
    (hturn : vocabTurn st e = some st') : Lost st' s rest := by
  obtain ⟨hkey, hcell⟩ := hlost
  unfold vocabTurn at hturn
  rw [h.length] at hturn
  split at hturn
  next hid =>
    obtain ⟨t, hput, hst⟩ := Option.bind_eq_some_iff.mp hturn
    cases hst
    refine ⟨((tablePut_spec h.pow h.holds hput).2.2 s).mpr (.inl hkey), ?_⟩
    rcases hcell with hfreed | ⟨i, hi, hagain⟩
    · exact .inl (freeToken_subset st e.2 _ hfreed)
    by_cases hie : e.2.toNat = i
    · refine .inl ?_
      show s.cell ∈ freeToken st e.2
      rw [freeToken, hie, hi]
      exact List.mem_cons_self
    · refine .inr ⟨i, ?_, ?_⟩
      · dsimp only
        rw [getD_set (h.length.symm ▸ hid.toNat.1), if_neg hie]
        exact hi
      · rw [List.map_cons, List.mem_cons] at hagain
        exact hagain.resolve_left fun heq => hie (by rw [← heq, Int.toNat_natCast])
  next hid =>
    cases hturn
    refine ⟨hkey, ?_⟩
    rcases hcell with hfreed | ⟨i, hi, hagain⟩
    · exact .inl (List.mem_cons_of_mem _ hfreed)
    · refine .inr ⟨i, hi, ?_⟩
      rw [List.map_cons, List.mem_cons] at hagain
      refine hagain.resolve_left fun heq => hid ?_
      rw [← heq]
      refine ⟨Int.natCast_nonneg i, Int.ofNat_lt.mpr ?_⟩
      by_contra hge
      rw [List.getD_eq_default _ _ (h.length.symm ▸ Nat.not_lt.mp hge)] at hi
      cases hi

theorem vocabTurns_lost {n : Nat} {s : Str} (rest es : List (Bytes × Int)) {st st' : State}
    (h : Stored n st (vocabPuts n es)) (hlost : Lost st s rest)
    (hturns : rest.foldlM vocabTurn st = some st') :
    Stored n st' (vocabPuts n (es ++ rest)) ∧ Lost st' s [] := by
  induction rest generalizing es st with
  | nil =>
    cases hturns
    rw [List.append_nil]
    exact ⟨h, hlost⟩
  | cons e rest ih =>
    rw [List.foldlM_cons, Option.bind_eq_bind, Option.bind_eq_some_iff] at hturns
    obtain ⟨st₁, hturn, hturns⟩ := hturns
    rw [List.append_cons]
    exact ih (es ++ [e]) (vocabTurn_stored h hturn) (vocabTurn_lost h hlost hturn) hturns

theorem vocabTurns_stored {n : Nat} (rest es : List (Bytes × Int)) {st st' : State}
    (h : Stored n st (vocabPuts n es)) (hturns : rest.foldlM vocabTurn st = some st') :
    Stored n st' (vocabPuts n (es ++ rest)) := by
  induction rest generalizing es st with
  | nil =>
    cases hturns
    rwa [List.append_nil]
  | cons e rest ih =>
    rw [List.foldlM_cons, Option.bind_eq_bind, Option.bind_eq_some_iff] at hturns
    obtain ⟨st₁, hturn, hturns⟩ := hturns
    rw [List.append_cons]
    exact ih (es ++ [e]) (vocabTurn_stored h hturn) hturns

theorem addedTurn_keeps {n : Nat} {st st' : State} {puts : List (Bytes × Int)} {s : Str}
    {e : Int × Bytes} (h : Stored n st puts) (hturn : addedTurn st e = some st')
    (hkey : HasKey st.tokenToId s) (hfreed : s.cell ∈ st.freed) :
    HasKey st'.tokenToId s ∧ s.cell ∈ st'.freed := by
  unfold addedTurn at hturn
  split at hturn
  · split at hturn
    · obtain ⟨t, hput, hst⟩ := Option.bind_eq_some_iff.mp hturn
      cases hst
      exact ⟨((tablePut_spec h.pow h.holds hput).2.2 s).mpr (.inl hkey), hfreed⟩
    · cases hturn
      exact ⟨hkey, hfreed⟩
  · cases hturn
    exact ⟨hkey, List.mem_cons_of_mem _ hfreed⟩

/-- The loop over the added tokens takes no key back. -/
theorem addedTurns_lost {n : Nat} {s : Str} (es : List (Int × Bytes)) {st st' : State}
    {puts : List (Bytes × Int)} (h : Stored n st puts) (hkey : HasKey st.tokenToId s)
    (hfreed : s.cell ∈ st.freed) (hturns : es.foldlM addedTurn st = some st') :
    Stored n st' (es.foldl (addedPut n) puts) ∧ HasKey st'.tokenToId s ∧ s.cell ∈ st'.freed := by
  induction es generalizing st puts with
  | nil =>
    cases hturns
    exact ⟨h, hkey, hfreed⟩
  | cons e es ih =>
    rw [List.foldlM_cons, Option.bind_eq_bind, Option.bind_eq_some_iff] at hturns
    obtain ⟨st₁, hturn, hturns⟩ := hturns
    obtain ⟨hkey', hfreed'⟩ := addedTurn_keeps h hturn hkey hfreed
    exact ih (addedTurn_stored h hturn) hkey' hfreed' hturns

/-! ## Keys that are kept -/

/-- The tokens are cells of their own that were not freed, and the keys of the table are tokens
whose ids do not come again. -/
structure Sound (st : State) (rest : List (Bytes × Int)) : Prop where
  fresh : ∀ i s, st.token.getD i none = some s → s.cell < st.next ∧ s.cell ∉ st.freed
  apart : ∀ i j s s', st.token.getD i none = some s → st.token.getD j none = some s' →
    s.cell = s'.cell → i = j
  freed : ∀ c ∈ st.freed, c < st.next
  held : ∀ s, HasKey st.tokenToId s →
    ∃ i, st.token.getD i none = some s ∧ (i : Int) ∉ rest.map Prod.snd
  room : st.token.length < st.tokenToId.length

theorem Sound.live {st : State} {rest : List (Bytes × Int)} (h : Sound st rest) :
    Live st.freed st.tokenToId := by
  intro s hs
  obtain ⟨i, hi, -⟩ := h.held s hs
  exact (h.fresh i s hi).2

/-- There are fewer keys than tokens, so an entry is free. -/
theorem Sound.free {st : State} {rest : List (Bytes × Int)} {puts : List (Bytes × Int)}
    (h : Sound st rest) (hholds : Holds st.tokenToId puts) : none ∈ st.tokenToId := by
  refine hholds.probed.exists_free (st.token.map fun o => (o.map Str.text).getD [])
    (fun e he => ?_) ?_
  · obtain ⟨i, hi, -⟩ := h.held e.key ⟨e, he, rfl⟩
    rw [List.getD_eq_getElem?_getD, Option.getD_eq_iff] at hi
    have hmem := List.mem_of_getElem? (hi.resolve_right fun hnone => nomatch hnone.2)
    exact List.mem_map.mpr ⟨_, hmem, rfl⟩
  · rw [List.length_map]
    exact h.room

/-- The cells that are freed with the old token of an id are not those of the other tokens. -/
theorem Sound.freeToken {st : State} {rest : List (Bytes × Int)} (h : Sound st rest) (id : Int) :
    (∀ c ∈ freeToken st id, c < st.next) ∧
      ∀ i s, i ≠ id.toNat → st.token.getD i none = some s → s.cell ∉ freeToken st id := by
  unfold Tokenizer.VocabLoad.freeToken
  cases hold : st.token.getD id.toNat none with
  | none => exact ⟨h.freed, fun i s _ hi => (h.fresh i s hi).2⟩
  | some old =>
    refine ⟨List.forall_mem_cons.mpr ⟨(h.fresh _ old hold).1, h.freed⟩, fun i s hne hi => ?_⟩
    rw [List.mem_cons, not_or]
    exact ⟨fun hcell => hne (h.apart i _ s old hi hold hcell), (h.fresh i s hi).2⟩

/-- A put of a new token, when the id does not come again or the string is there. -/
theorem Sound.put {n : Nat} {st : State} {puts rest : List (Bytes × Int)} {text : Bytes} {id : Int}
    (hstored : Stored n st puts) (h : Sound st ((text, id) :: rest)) (hid : InRange n id)
    (hkeep : id ∈ rest.map Prod.snd → text ∈ puts.map Prod.fst) {cell next : Nat}
    (hcell : st.next ≤ cell) (hnext : cell < next) :
    ∃ t, tablePut (VocabLoad.freeToken st id) st.tokenToId ⟨cell, text⟩ id = some t ∧
      Sound ⟨st.token.set id.toNat (some ⟨cell, text⟩), VocabLoad.freeToken st id, next, t⟩
        rest := by
  obtain ⟨hlt, hnat⟩ := hid.toNat
  obtain ⟨hfreed, hother⟩ := h.freeToken id
  have hget (j : Nat) := getD_set (j := j) (hstored.length.symm ▸ hlt) ⟨cell, text⟩
  have hne : ∀ i : Nat, (i : Int) ∉ ((text, id) :: rest).map Prod.snd → i ≠ id.toNat := by
    rintro i hi rfl
    rw [hnat] at hi
    exact hi List.mem_cons_self
  have hlive : Live (VocabLoad.freeToken st id) st.tokenToId := by
    intro s hs
    obtain ⟨i, hi, hagain⟩ := h.held s hs
    exact hother i s (hne i hagain) hi
  obtain ⟨t, hput⟩ := tablePut_total hstored.pow hlive (h.free hstored.holds) ⟨cell, text⟩ id
  obtain ⟨-, hlen, hkeys⟩ := tablePut_spec hstored.pow hstored.holds hput
  refine ⟨t, hput, ?_, ?_, ?_, ?_, ?_⟩
  · intro i s hi
    dsimp only at hi ⊢
    rw [hget] at hi
    split at hi
    next =>
      cases hi
      exact ⟨hnext, fun hmem => by have := hfreed _ hmem; dsimp only at this; omega⟩
    next hij =>
      have hcells := (h.fresh i s hi).1
      exact ⟨by omega, hother i s (Ne.symm hij) hi⟩
  · intro i j s s' hi hj hcells
    dsimp only at hi hj
    rw [hget] at hi hj
    split at hi
    next hi' =>
      split at hj
      next hj' => exact hi'.symm.trans hj'
      next =>
        cases hi
        have hlow := (h.fresh j s' hj).1
        dsimp only at hcells
        omega
    next =>
      split at hj
      next =>
        cases hj
        have hlow := (h.fresh i s hi).1
        dsimp only at hcells
        omega
      next => exact h.apart i j s s' hi hj hcells
  · intro c hc
    have hlow := hfreed c hc
    dsimp only
    omega
  · intro s hs
    rcases (hkeys s).mp hs with hold | ⟨rfl, hnew⟩
    · obtain ⟨i, hi, hagain⟩ := h.held s hold
      refine ⟨i, ?_, fun hrest => hagain (List.mem_cons_of_mem _ hrest)⟩
      dsimp only
      rw [hget, if_neg (hne i hagain).symm]
      exact hi
    · refine ⟨id.toNat, ?_, fun hrest => hnew (hkeep (hnat ▸ hrest))⟩
      dsimp only
      rw [hget, if_pos rfl]
  · dsimp only
    rw [List.length_set, hlen]
    exact h.room

/-- A cell that is freed without having been a token. -/
theorem Sound.skip {st : State} {rest : List (Bytes × Int)} (h : Sound st rest) {freed : List Nat}
    (hfreed : ∀ c ∈ freed, c ∈ st.freed ∨ c = st.next) {rest' : List (Bytes × Int)}
    (hrest : ∀ id ∈ rest'.map Prod.snd, id ∈ rest.map Prod.snd) :
    Sound { st with freed := freed, next := st.next + 1 } rest' where
  fresh := fun i s hi => by
    obtain ⟨hlow, hnot⟩ := h.fresh i s hi
    refine ⟨Nat.lt_succ_of_lt hlow, fun hmem => ?_⟩
    rcases hfreed _ hmem with hold | hnext
    · exact hnot hold
    · exact hlow.ne hnext
  apart := h.apart
  freed := fun c hc => by
    rcases hfreed c hc with hold | rfl
    · exact Nat.lt_succ_of_lt (h.freed c hold)
    · exact Nat.lt_succ_self _
  held := fun s hs => by
    obtain ⟨i, hi, hagain⟩ := h.held s hs
    exact ⟨i, hi, fun hrest' => hagain (hrest _ hrest')⟩
  room := h.room

theorem vocabTurn_sound {n : Nat} {st : State} {es rest : List (Bytes × Int)} {e : Bytes × Int}
    (hstored : Stored n st (vocabPuts n es)) (h : Sound st (e :: rest))
    (hkeep : InRange n e.2 → e.2 ∈ rest.map Prod.snd → e.1 ∈ (vocabPuts n es).map Prod.fst) :
    ∃ st', vocabTurn st e = some st' ∧ Sound st' rest := by
  unfold vocabTurn
  rw [hstored.length]
  by_cases hid : InRange n e.2
  · obtain ⟨t, hput, hsound⟩ := h.put hstored hid (hkeep hid) le_rfl (Nat.lt_succ_self _)
    rw [if_pos hid, hput]
    exact ⟨_, rfl, hsound⟩
  · rw [if_neg hid]
    refine ⟨_, rfl, h.skip (fun c hc => (List.mem_cons.mp hc).symm) fun id hid => ?_⟩
    exact List.mem_cons_of_mem _ hid

theorem addedTurn_sound {n : Nat} {st : State} {puts : List (Bytes × Int)} {e : Int × Bytes}
    (hstored : Stored n st puts) (h : Sound st []) :
    ∃ st', addedTurn st e = some st' ∧ Sound st' [] := by
  unfold addedTurn
  rw [hstored.length]
  by_cases hid : InRange n e.1
  · rw [if_pos hid]
    by_cases hnew : st.token.getD e.1.toNat none = none
    · have hfree : VocabLoad.freeToken st e.1 = st.freed := by
        rw [VocabLoad.freeToken, hnew]
      have hsound : Sound st [(e.2, e.1)] := by
        refine ⟨h.fresh, h.apart, h.freed, fun s hs => ?_, h.room⟩
        obtain ⟨i, hi, -⟩ := h.held s hs
        refine ⟨i, hi, fun hagain => ?_⟩
        have hie : (i : Int) = e.1 := List.mem_singleton.mp hagain
        rw [← hie, Int.toNat_natCast, hi] at hnew
        cases hnew
      obtain ⟨t, hput, hsound'⟩ := hsound.put hstored hid nofun (Nat.le_add_right st.next 1)
        (Nat.lt_add_one (st.next + 1))
      rw [hfree] at hput hsound'
      refine ⟨_, ?_, hsound'⟩
      rw [if_pos hnew]
      dsimp only
      rw [hput]
      rfl
    · rw [if_neg hnew]
      exact ⟨_, rfl, h.skip (fun c hc => .inl hc) nofun⟩
  · rw [if_neg hid]
    exact ⟨_, rfl, h.skip (fun c hc => (List.mem_cons.mp hc).symm) nofun⟩

theorem vocabTurns_sound {n : Nat} (rest es : List (Bytes × Int)) {st : State}
    (hstored : Stored n st (vocabPuts n es)) (h : Sound st rest)
    (hkeep : KeepsKeys n (es ++ rest)) :
    ∃ st', rest.foldlM vocabTurn st = some st' ∧ Sound st' [] := by
  induction rest generalizing es st with
  | nil => exact ⟨st, rfl, h⟩
  | cons e rest ih =>
    obtain ⟨st₁, hturn, hsound⟩ := vocabTurn_sound hstored h (hkeep es e rest rfl)
    rw [List.append_cons] at hkeep
    obtain ⟨st', hturns, hsound'⟩ := ih (es ++ [e]) (vocabTurn_stored hstored hturn) hsound hkeep
    refine ⟨st', ?_, hsound'⟩
    rw [List.foldlM_cons, hturn]
    exact hturns

theorem addedTurns_sound {n : Nat} (es : List (Int × Bytes)) {st : State}
    {puts : List (Bytes × Int)} (hstored : Stored n st puts) (h : Sound st []) :
    ∃ st', es.foldlM addedTurn st = some st' ∧ Stored n st' (es.foldl (addedPut n) puts) ∧
      Sound st' [] := by
  induction es generalizing st puts with
  | nil => exact ⟨st, rfl, hstored, h⟩
  | cons e es ih =>
    obtain ⟨st₁, hturn, hsound⟩ := addedTurn_sound (e := e) hstored h
    obtain ⟨st', hturns, hstored', hsound'⟩ := ih (addedTurn_stored hstored hturn) hsound
    refine ⟨st', ?_, hstored', hsound'⟩
    rw [List.foldlM_cons, hturn]
    exact hturns

/-- A table with fewer puts than entries has a free entry. -/
theorem Holds.free {t : Table} {puts : List (Bytes × Int)} (h : Holds t puts)
    (hroom : puts.length < t.length) : none ∈ t :=
  h.probed.exists_free (puts.map Prod.fst) (fun e he => h.mem_keys.mpr ⟨e, he, rfl⟩)
    (by rwa [List.length_map])

/-- The loop over the merges. -/
theorem mergeLoop_spec {freed : List Nat} (keys : List (Option Bytes)) {next : Nat} (rank : Nat)
    {t : Table} {puts : List (Bytes × Int)} (hlen : ∃ k, t.length = 2 ^ k) (h : Holds t puts)
    (hlive : Live freed t) (hnext : ∀ c ∈ freed, c < next)
    (hroom : puts.length + keys.length < t.length) :
    ∃ t', mergeLoop freed next rank t keys = some t' ∧ (∃ k, t'.length = 2 ^ k) ∧
      Holds t' (puts ++ mergePuts rank keys) ∧ Live freed t' ∧ none ∈ t' := by
  induction keys generalizing next rank t puts with
  | nil =>
    refine ⟨t, rfl, hlen, ?_, hlive, Holds.free h hroom⟩
    rwa [mergePuts, List.append_nil]
  | cons o keys ih =>
    rw [List.length_cons] at hroom
    cases o with
    | none => exact ih (rank + 1) hlen h hlive hnext (by omega)
    | some key =>
      obtain ⟨t₁, hput⟩ := tablePut_total hlen hlive (Holds.free h (by omega)) ⟨next, key⟩ rank
      obtain ⟨hholds, hlen₁, hkeys⟩ := tablePut_spec hlen h hput
      have hlive₁ : Live freed t₁ := by
        intro s hs
        rcases (hkeys s).mp hs with hold | ⟨rfl, -⟩
        · exact hlive s hold
        · exact fun hmem => (hnext _ hmem).ne rfl
      obtain ⟨t', hloop, hspec⟩ := ih (rank + 1) (hlen₁ ▸ hlen) hholds hlive₁
        (fun c hc => Nat.lt_succ_of_lt (hnext c hc))
        (by rw [List.length_append, List.length_singleton, hlen₁]; omega)
      rw [mergePuts, mergeLoop, hput, List.append_cons]
      exact ⟨t', hloop, hspec⟩

/-! ## The theorem -/

/-- What `vocab_load_from_tokenizer_json` starts with. -/
def startState (n : Nat) : State := ⟨List.replicate n none, [], 0, tableInit n⟩

theorem startState_stored (n : Nat) : Stored n (startState n) (vocabPuts n []) where
  length := List.length_replicate
  pow := (length_tableInit n).1
  holds := holds_tableInit n
  taken := fun i => by
    refine iff_of_true ?_ List.not_mem_nil
    rw [startState, List.getD_eq_getElem?_getD, List.getElem?_replicate]
    split <;> rfl
  range := nofun

theorem not_hasKey_tableInit (n : Nat) (s : Str) : ¬ HasKey (tableInit n) s := by
  rintro ⟨e, he, -⟩
  cases List.eq_of_mem_replicate he

theorem startState_sound (n : Nat) (rest : List (Bytes × Int)) : Sound (startState n) rest where
  fresh := fun i s hi => by
    rw [((startState_stored n).taken i).mpr List.not_mem_nil] at hi
    cases hi
  apart := fun i j s s' hi => by
    rw [((startState_stored n).taken i).mpr List.not_mem_nil] at hi
    cases hi
  freed := nofun
  held := fun s hs => absurd hs (not_hasKey_tableInit n s)
  room := by
    rw [startState, List.length_replicate]
    exact (length_tableInit n).2

/-- The texts without which the loader exits. -/
def requiredTexts : List Bytes := [bosText, imEndText, imStartText]

/-- The file is loaded, and the tables are the maps of what was put. -/
def FiniteMaps (js : Bytes) : Prop :=
  ∃ s t ids, scanTokenizer js = some s ∧ loadVocab s = some (.ready t ids) ∧ ∀ text,
    tableGet t.freed t.tokenToId text = some (lastPut (tokenPuts s) text) ∧
      tableGet t.freed t.mergeRank text = some (lastPut (mergePuts 0 s.merges) text)

/-- A load that is ready has built the tables. -/
theorem loadVocab_ready {s : Scan} {t : Tables} {ids : Ids}
    (h : loadVocab s = some (.ready t ids)) : loadTables s = some t := by
  have hrequired : ∀ {u : Tables} {text : Bytes} {next : Int → Option Outcome},
      vocabLookupRequired u text next = some (.ready t ids) →
        ∃ token, next token = some (.ready t ids) := by
    intro u text next hlookup
    obtain ⟨token, -, hnext⟩ := Option.bind_eq_some_iff.mp hlookup
    split at hnext
    · cases hnext
    · exact ⟨token, hnext⟩
  obtain ⟨u, hu, h⟩ := Option.bind_eq_some_iff.mp h
  obtain ⟨bosId, h⟩ := hrequired h
  obtain ⟨eosId, h⟩ := hrequired h
  obtain ⟨imStartId, h⟩ := hrequired h
  obtain ⟨imEndId, h⟩ := hrequired h
  obtain ⟨thinkStartId, -, h⟩ := Option.bind_eq_some_iff.mp h
  obtain ⟨thinkEndId, -, h⟩ := Option.bind_eq_some_iff.mp h
  obtain ⟨imPatchId, -, h⟩ := Option.bind_eq_some_iff.mp h
  cases h
  exact hu

/-- A string that was put and is no key any more is not found. -/
theorem loadTables_lost {s : Scan} {t : Tables} (h : loadTables s = some t)
    (hkeeps : ¬ KeepsKeys s.nVocab s.vocab) :
    ∃ text, tableGet t.freed t.tokenToId text = none := by
  unfold KeepsKeys at hkeeps
  push Not at hkeeps
  obtain ⟨front, e, rest, hvocab, hid, hagain, hnew⟩ := hkeeps
  obtain ⟨st, hvocabTurns, h⟩ := Option.bind_eq_some_iff.mp h
  obtain ⟨st', haddedTurns, h⟩ := Option.bind_eq_some_iff.mp h
  obtain ⟨merges, -, h⟩ := Option.bind_eq_some_iff.mp h
  cases h
  rw [hvocab, List.foldlM_append, Option.bind_eq_bind, Option.bind_eq_some_iff] at hvocabTurns
  obtain ⟨st₁, hfront, hvocabTurns⟩ := hvocabTurns
  rw [List.foldlM_cons, Option.bind_eq_bind, Option.bind_eq_some_iff] at hvocabTurns
  obtain ⟨st₂, hturn, hrest⟩ := hvocabTurns
  have hstored₁ := vocabTurns_stored front [] (startState_stored s.nVocab) hfront
  rw [List.nil_append] at hstored₁
  have hstored₂ := vocabTurn_stored hstored₁ hturn
  -- the entry brings its string into the table, and its id comes again
  have hlost : Lost st₂ ⟨st₁.next, e.1⟩ rest := by
    unfold vocabTurn at hturn
    rw [hstored₁.length, if_pos hid] at hturn
    obtain ⟨t, hput, hst⟩ := Option.bind_eq_some_iff.mp hturn
    cases hst
    refine ⟨((tablePut_spec hstored₁.pow hstored₁.holds hput).2.2 _).mpr (.inr ⟨rfl, hnew⟩),
      .inr ⟨e.2.toNat, ?_, ?_⟩⟩
    · dsimp only
      rw [getD_set (hstored₁.length.symm ▸ hid.toNat.1), if_pos rfl]
    · rw [hid.toNat.2]
      exact hagain
  obtain ⟨hstored, hkey, hcell⟩ := vocabTurns_lost rest (front ++ [e]) hstored₂ hlost hrest
  have hfreed := hcell.resolve_right fun ⟨i, _, hmem⟩ => List.not_mem_nil hmem
  obtain ⟨hstored', hkey', hfreed'⟩ := addedTurns_lost s.added hstored hkey hfreed haddedTurns
  exact ⟨e.1, tableGet_freed hstored'.pow hstored'.holds hkey' hfreed'⟩

/-- The tables that are built when the keys are kept. -/
theorem loadTables_keeps {s : Scan} (hkeeps : KeepsKeys s.nVocab s.vocab) :
    (∀ p ∈ tokenPuts s, InRange s.nVocab p.2) ∧ ∃ t, loadTables s = some t ∧ ∀ text,
      tableGet t.freed t.tokenToId text = some (lastPut (tokenPuts s) text) ∧
        tableGet t.freed t.mergeRank text = some (lastPut (mergePuts 0 s.merges) text) := by
  obtain ⟨st, hvocab, hsound⟩ := vocabTurns_sound s.vocab [] (startState_stored s.nVocab)
    (startState_sound s.nVocab s.vocab) hkeeps
  have hstored := vocabTurns_stored s.vocab [] (startState_stored s.nVocab) hvocab
  obtain ⟨st', hadded, hstored', hsound'⟩ := addedTurns_sound s.added hstored hsound
  obtain ⟨hpow, hroom⟩ := length_tableInit s.merges.length
  obtain ⟨merges, hmerges, hlen, hholds, hlive, hfree⟩ := mergeLoop_spec s.merges 0 hpow
    (holds_tableInit _) (fun s hs => absurd hs (not_hasKey_tableInit _ s)) hsound'.freed
    (by rwa [List.length_nil, Nat.zero_add])
  refine ⟨hstored'.range, ⟨st'.freed, st'.tokenToId, merges⟩, ?_, fun text => ⟨?_, ?_⟩⟩
  · rw [startState] at hvocab
    rw [loadTables, hvocab, Option.bind_eq_bind, Option.bind_some, hadded, Option.bind_eq_bind,
      Option.bind_some, hmerges]
    rfl
  · exact tableGet_spec hstored'.pow hstored'.holds hsound'.live (hsound'.free hstored'.holds) text
  · exact tableGet_spec hlen hholds hlive hfree text

theorem vocabLookupRequired_eq {t : Tables} {text : Bytes} {id : Int}
    (h : tableGet t.freed t.tokenToId text = some (some id)) (hid : 0 ≤ id)
    (next : Int → Option Outcome) : vocabLookupRequired t text next = next id := by
  rw [vocabLookupRequired, vocabLookupSoft, h]
  exact if_neg (not_lt.mpr hid)

/-- Tables that can be asked for every text make the load ready. -/
theorem loadVocab_eq {s : Scan} {t : Tables} (htables : loadTables s = some t)
    (hgets : ∀ text, ∃ o, tableGet t.freed t.tokenToId text = some o)
    (hrequired : ∀ text ∈ requiredTexts, ∃ id,
      tableGet t.freed t.tokenToId text = some (some id) ∧ 0 ≤ id) :
    ∃ ids, loadVocab s = some (.ready t ids) := by
  obtain ⟨bosId, hbos, hbos0⟩ := hrequired bosText (by simp [requiredTexts])
  obtain ⟨imEndId, hend, hend0⟩ := hrequired imEndText (by simp [requiredTexts])
  obtain ⟨imStartId, hstart, hstart0⟩ := hrequired imStartText (by simp [requiredTexts])
  obtain ⟨thinkStart, hthinkStart⟩ := hgets (bytes "<think>")
  obtain ⟨thinkEnd, hthinkEnd⟩ := hgets (bytes "</think>")
  obtain ⟨imPatch, himPatch⟩ := hgets (bytes "<im_patch>")
  refine ⟨⟨bosId, imEndId, imStartId, imEndId, thinkStart.getD (-1), thinkEnd.getD (-1),
    imPatch.getD (-1)⟩, ?_⟩
  rw [loadVocab, htables, Option.bind_eq_bind, Option.bind_some,
    vocabLookupRequired_eq hbos hbos0, vocabLookupRequired_eq hend hend0,
    vocabLookupRequired_eq hstart hstart0, vocabLookupRequired_eq hend hend0, vocabLookupSoft,
    hthinkStart, vocabLookupSoft, hthinkEnd, vocabLookupSoft, himPatch]
  rfl

/-- The tables of a file that has the required tokens are finite maps exactly when no id comes
again behind an entry that brought its string into the table. -/
theorem vocabTables_iff {js : Bytes} {s : Scan} (hscan : scanTokenizer js = some s)
    (hrequired : ∀ text ∈ requiredTexts, text ∈ (tokenPuts s).map Prod.fst) :
    FiniteMaps js ↔ KeepsKeys s.nVocab s.vocab := by
  constructor
  · rintro ⟨s', t, ids, hscan', hload, hget⟩
    rw [hscan] at hscan'
    cases hscan'
    by_contra hkeeps
    obtain ⟨text, hnone⟩ := loadTables_lost (loadVocab_ready hload) hkeeps
    rw [(hget text).1] at hnone
    cases hnone
  · intro hkeeps
    obtain ⟨hrange, t, htables, hget⟩ := loadTables_keeps hkeeps
    have hids : ∀ text ∈ requiredTexts, ∃ id,
        tableGet t.freed t.tokenToId text = some (some id) ∧ 0 ≤ id := by
      intro text htext
      cases hlast : lastPut (tokenPuts s) text with
      | none => exact absurd (hrequired text htext) (lastPut_eq_none.mp hlast)
      | some id => exact ⟨id, hlast ▸ (hget text).1, (hrange _ (lastPut_mem hlast)).1⟩
    obtain ⟨ids, hload⟩ := loadVocab_eq htables (fun text => ⟨_, (hget text).1⟩) hids
    exact ⟨s, t, ids, hscan, hload, hget⟩

/-- Ids that come once are enough. -/
theorem keepsKeys_of_nodup {n : Nat} {es : List (Bytes × Int)} (h : (es.map Prod.snd).Nodup) :
    KeepsKeys n es := by
  rintro front e rest rfl - hagain
  rw [List.map_append, List.map_cons] at h
  exact absurd hagain (List.nodup_cons.mp h.of_append_right).1

/-- A file with the required tokens and others. -/
def tokenizerFile (vocab : String) : Bytes :=
  bytes ("\x7b\"model\":\x7b\"vocab\":\x7b\"<｜begin▁of▁sentence｜>\":0,\"<|im_end|>\":1," ++
    "\"<|im_start|>\":2," ++ vocab ++ "\x7d,\"merges\":[\"a b\"]\x7d\x7d")

/-- One with an added token that the vocabulary does not list, and one that it lists. -/
def addedTokensFile : Bytes :=
  bytes ("\x7b\"added_tokens\":[\x7b\"id\":5,\"content\":\"<think>\"\x7d," ++
    "\x7b\"id\":1,\"content\":\"<|im_end|>\"\x7d],\"model\":\x7b\"vocab\":\x7b" ++
    "\"<｜begin▁of▁sentence｜>\":0,\"<|im_end|>\":1,\"<|im_start|>\":2,\"a\":3," ++
    "\"b\":4\x7d,\"merges\":[\"a b\"]\x7d\x7d")

theorem vocabTables_iff_added : FiniteMaps addedTokensFile := by
  have hscan : scanTokenizer addedTokensFile =
      some ⟨[(bosText, 0), (imEndText, 1), (imStartText, 2), (bytes "a", 3), (bytes "b", 4)],
        [(5, bytes "<think>"), (1, imEndText)], [some (bytes "a b")], 6⟩ := by decide +kernel
  exact (vocabTables_iff hscan (by decide)).mpr (keepsKeys_of_nodup (by decide))

/-- A file where an id comes twice is accepted, and a string of it can not be looked up. -/
theorem not_finiteMaps_twice :
    (∃ s t ids, scanTokenizer (tokenizerFile "\"a\":3,\"b\":3") = some s ∧
      loadVocab s = some (.ready t ids)) ∧ ¬ FiniteMaps (tokenizerFile "\"a\":3,\"b\":3") := by
  have hscan : scanTokenizer (tokenizerFile "\"a\":3,\"b\":3") =
      some ⟨[(bosText, 0), (imEndText, 1), (imStartText, 2), (bytes "a", 3), (bytes "b", 3)], [],
        [some (bytes "a b")], 4⟩ := by decide +kernel
  have hready : (loadVocab ⟨[(bosText, 0), (imEndText, 1), (imStartText, 2), (bytes "a", 3),
      (bytes "b", 3)], [], [some (bytes "a b")], 4⟩).any (fun | .ready _ _ => true | _ => false) =
        true := by decide
  have hfreed : (loadTables ⟨[(bosText, 0), (imEndText, 1), (imStartText, 2), (bytes "a", 3),
      (bytes "b", 3)], [], [some (bytes "a b")], 4⟩).map
        (fun t => tableGet t.freed t.tokenToId (bytes "a")) = some none := by decide
  constructor
  · obtain ⟨outcome, houtcome, hmatch⟩ := (Option.any_eq_true _ _).mp hready
    cases outcome with
    | exits missing => cases hmatch
    | ready t ids => exact ⟨_, t, ids, hscan, houtcome⟩
  · rintro ⟨s, t, ids, hscan', hload, hget⟩
    rw [hscan] at hscan'
    cases hscan'
    rw [loadVocab_ready hload, Option.map_some, Option.some_inj, (hget (bytes "a")).1] at hfreed
    cases hfreed

end Sf37.Tokenizer.VocabLoad

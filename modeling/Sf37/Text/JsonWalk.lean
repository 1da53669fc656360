/-
Sf37.Text.JsonWalk — walks over the tokens of a JSON document.

A `Node` is the value that some tokens stand for. Its tokens stand in preorder, so a walk finds
the end of a value by looking for ancestors.

* `Node.reads`: the tokens of a value make its views.
* `jsonSkip_at`: `json_skip` goes behind the tokens of a value.
* `children_at`, `members_at`: the loops over an array and over an object.
* `jsonObjGet_at`: `json_obj_get` finds the first member of a name.
-/
import Sf37.Text.JsonDoc

namespace Sf37.Text.JsonDoc

/-! ## Walks -/

/-- The parent of a token. -/
def Doc.parent (d : Doc) (i : ℕ) : Option ℕ := (d.v[i]?).bind Tok.parent

/-- `json_tok_eq`. -/
def Doc.tokEq (d : Doc) (tok : ℕ) (s : Bytes) : Bool :=
  match d.v[tok]? with
  | some t => t.type = .string && tokText d.js t = s
  | none => false

/-- The loop of `json_is_descendant`; parents come before their children, so the number of
tokens is enough fuel. -/
def isDescendantLoop (d : Doc) (parent : ℕ) : ℕ → Option ℕ → Bool
  | _, none => false
  | 0, some _ => false
  | fuel + 1, some p => if p = parent then true else isDescendantLoop d parent fuel (d.parent p)

/-- `json_is_descendant`. -/
def isDescendant (d : Doc) (tok parent : ℕ) : Bool :=
  isDescendantLoop d parent d.v.length (d.parent tok)

/-- The loop of `json_skip`. -/
def skipLoop (d : Doc) (tok : ℕ) : ℕ → ℕ → ℕ
  | 0, i => i
  | fuel + 1, i => if i < d.v.length ∧ isDescendant d i tok then skipLoop d tok fuel (i + 1) else i

/-- `json_skip`. -/
def jsonSkip (d : Doc) (tok : ℕ) : ℕ := skipLoop d tok d.v.length (tok + 1)

/-- The loop of `json_obj_get`. -/
def objGetLoop (d : Doc) (obj : ℕ) (key : Bytes) : ℕ → ℕ → Option ℕ
  | 0, _ => none
  | fuel + 1, i =>
    if i < d.v.length ∧ d.parent i = some obj then
      let v := i + 1
      if d.v.length ≤ v ∨ d.parent v ≠ some obj then none
      else if d.tokEq i key then some v
      else objGetLoop d obj key fuel (jsonSkip d v)
    else none

/-- `json_obj_get`; -1 is `none`. -/
def jsonObjGet (d : Doc) (obj : Option ℕ) (key : Bytes) : Option ℕ := do
  let obj ← obj
  let t ← d.v[obj]?
  if t.type = .object then objGetLoop d obj key d.v.length (obj + 1) else none

/-- The tokens that a loop `for (i = tok + 1; i < len && v[i].parent == tok; i = json_skip(i))`
comes to. -/
def childrenLoop (d : Doc) (tok : ℕ) : ℕ → ℕ → List ℕ
  | 0, _ => []
  | fuel + 1, i =>
    if i < d.v.length ∧ d.parent i = some tok then i :: childrenLoop d tok fuel (jsonSkip d i)
    else []

def children (d : Doc) (tok : ℕ) : List ℕ := childrenLoop d tok d.v.length (tok + 1)

/-- The keys that a loop `for (i = tok + 1; i < len && v[i].parent == tok; i = json_skip(i + 1))`
comes to. -/
def membersLoop (d : Doc) (tok : ℕ) : ℕ → ℕ → List ℕ
  | 0, _ => []
  | fuel + 1, i =>
    if i < d.v.length ∧ d.parent i = some tok then
      i :: membersLoop d tok fuel (jsonSkip d (i + 1))
    else []

def members (d : Doc) (tok : ℕ) : List ℕ := membersLoop d tok d.v.length (tok + 1)

/-! ## Values -/

/-- A word or a number. -/
structure Bare where
  text : Bytes
  ne_nil : text ≠ []
  bytes : ∀ c ∈ text, BareByte c

/-- A value, with strings and primitives as they are written. -/
inductive Node
  | str (raw : Bytes)
  | prim (t : Bare)
  | arr (es : List Node)
  | obj (ms : List (Bytes × Node))

/-- Texts with commas between them. -/
def commaTokens : List (List Bytes) → List Bytes
  | [] => []
  | [t] => t
  | t :: ts => t ++ [0x2c] :: commaTokens ts

mutual

/-- The tokens of a value in a text. -/
def Node.tokens : Node → List Bytes
  | .str raw => [quoted raw]
  | .prim t => [t.text]
  | .arr es => [0x5b] :: (commaTokens (elementTokens es) ++ [[0x5d]])
  | .obj ms => [0x7b] :: (commaTokens (memberTokens ms) ++ [[0x7d]])

def elementTokens : List Node → List (List Bytes)
  | [] => []
  | e :: es => e.tokens :: elementTokens es

def memberTokens : List (Bytes × Node) → List (List Bytes)
  | [] => []
  | (k, n) :: ms => (quoted k :: [0x3a] :: n.tokens) :: memberTokens ms

end

mutual

/-- The views of a value whose first token is the `id`-th. -/
def Node.views (id : ℕ) (parent : Option ℕ) : Node → List View
  | .str raw => [⟨.string, raw, parent⟩]
  | .prim t => [⟨.primitive, t.text, parent⟩]
  | .arr es => ⟨.array, [], parent⟩ :: elementViews id (id + 1) es
  | .obj ms => ⟨.object, [], parent⟩ :: memberViews id (id + 1) ms

def elementViews (tok id : ℕ) : List Node → List View
  | [] => []
  | e :: es =>
    e.views id (some tok) ++ elementViews tok (id + (e.views id (some tok)).length) es

def memberViews (tok id : ℕ) : List (Bytes × Node) → List View
  | [] => []
  | (k, n) :: ms =>
    ⟨.string, k, some tok⟩ :: (n.views (id + 1) (some tok) ++
      memberViews tok (id + 1 + (n.views (id + 1) (some tok)).length) ms)

end

/-! ## The tokens of a value -/

theorem stepView_comma (s : List View × Option ℕ) : stepView s [0x2c] = some s := rfl

theorem stepView_colon (s : List View × Option ℕ) : stepView s [0x3a] = some s := rfl

theorem stepView_quoted (vs : List View) (parent : Option ℕ) (raw : Bytes) :
    stepView (vs, parent) (quoted raw) = some (vs ++ [⟨.string, raw, parent⟩], parent) := by
  have hlast : (raw ++ [0x22]).dropLast = raw := List.dropLast_concat
  rw [quoted, stepView, if_neg (by decide), if_neg (by decide), if_neg (by decide), if_pos rfl,
    hlast]

theorem stepView_bare (vs : List View) (parent : Option ℕ) (t : Bare) :
    stepView (vs, parent) t.text = some (vs ++ [⟨.primitive, t.text, parent⟩], parent) := by
  obtain ⟨t, hne, hbytes⟩ := t
  obtain ⟨c, b, rfl⟩ := List.exists_cons_of_ne_nil hne
  obtain ⟨hsep, hopen, hclose, hquote, -⟩ := bareByte_spec (hbytes c List.mem_cons_self)
  rw [stepView, if_neg (fun h => hsep (.inr h)), if_neg hopen, if_neg hclose, if_neg hquote]

/-- A bracket or a brace that is closed. -/
theorem reads_branch {type : TokType} {opening closing : Bytes} {inner : List Bytes}
    {vs children : List View} {parent : Option ℕ}
    (hopen : ∀ vs parent, stepView (vs, parent) opening =
      some (vs ++ [⟨type, [], parent⟩], some vs.length))
    (hclose : ∀ vs k, stepView (vs, some k) closing = some (vs, (vs[k]?).bind View.parent))
    (hinner : inner.foldlM stepView (vs ++ [⟨type, [], parent⟩], some vs.length) =
      some (vs ++ [⟨type, [], parent⟩] ++ children, some vs.length)) :
    (opening :: (inner ++ [closing])).foldlM stepView (vs, parent) =
      some (vs ++ ⟨type, [], parent⟩ :: children, parent) := by
  rw [List.foldlM_cons, hopen, Option.bind_eq_bind, Option.bind_some, List.foldlM_append, hinner,
    Option.bind_eq_bind, Option.bind_some, List.foldlM_cons, hclose, List.append_assoc,
    List.getElem?_append_right le_rfl, Nat.sub_self]
  rfl

theorem commaTokens_cons (t t' : List Bytes) (ts : List (List Bytes)) :
    commaTokens (t :: t' :: ts) = t ++ [0x2c] :: commaTokens (t' :: ts) := rfl

/-- A name, a colon and a value. -/
theorem reads_member {vs : List View} {tok : ℕ} {n : Node} (k : Bytes)
    (hn : n.tokens.foldlM stepView (vs ++ [View.mk .string k (some tok)], some tok) =
      some (vs ++ [View.mk .string k (some tok)] ++
        n.views (vs ++ [View.mk .string k (some tok)]).length (some tok), some tok)) :
    (quoted k :: [0x3a] :: n.tokens).foldlM stepView (vs, some tok) =
      some (vs ++ View.mk .string k (some tok) :: n.views (vs.length + 1) (some tok),
        some tok) := by
  rw [List.length_append, List.length_singleton, List.append_assoc] at hn
  rw [List.foldlM_cons, stepView_quoted, Option.bind_eq_bind, Option.bind_some, List.foldlM_cons,
    stepView_colon, Option.bind_eq_bind, Option.bind_some, hn]
  rfl

mutual

/-- The tokens of a value make its views. -/
theorem Node.reads : ∀ (n : Node) (vs : List View) (parent : Option ℕ),
    n.tokens.foldlM stepView (vs, parent) = some (vs ++ n.views vs.length parent, parent)
  | .str raw, vs, parent => by
    rw [Node.tokens, List.foldlM_cons, stepView_quoted, Node.views]
    rfl
  | .prim t, vs, parent => by
    rw [Node.tokens, List.foldlM_cons, stepView_bare, Node.views]
    rfl
  | .arr es, vs, parent => by
    rw [Node.tokens, Node.views]
    refine reads_branch (fun _ _ => rfl) (fun _ _ => rfl) ?_
    have hes := elements_read es (vs ++ [⟨.array, [], parent⟩]) vs.length
    rwa [List.length_append, List.length_singleton] at hes
  | .obj ms, vs, parent => by
    rw [Node.tokens, Node.views]
    refine reads_branch (fun _ _ => rfl) (fun _ _ => rfl) ?_
    have hms := members_read ms (vs ++ [⟨.object, [], parent⟩]) vs.length
    rwa [List.length_append, List.length_singleton] at hms

theorem elements_read : ∀ (es : List Node) (vs : List View) (tok : ℕ),
    (commaTokens (elementTokens es)).foldlM stepView (vs, some tok) =
      some (vs ++ elementViews tok vs.length es, some tok)
  | [], vs, tok => by
    rw [elementTokens, elementViews, List.append_nil]
    rfl
  | [e], vs, tok => by
    rw [elementTokens, elementTokens, elementViews, elementViews, List.append_nil]
    exact e.reads vs (some tok)
  | e :: e' :: es, vs, tok => by
    have hes := elements_read (e' :: es) (vs ++ e.views vs.length (some tok)) tok
    rw [List.length_append] at hes
    rw [elementTokens, elementTokens, commaTokens_cons, ← elementTokens, elementViews,
      List.foldlM_append, e.reads, Option.bind_eq_bind, Option.bind_some, List.foldlM_cons,
      stepView_comma, Option.bind_eq_bind, Option.bind_some, hes, List.append_assoc]

theorem members_read : ∀ (ms : List (Bytes × Node)) (vs : List View) (tok : ℕ),
    (commaTokens (memberTokens ms)).foldlM stepView (vs, some tok) =
      some (vs ++ memberViews tok vs.length ms, some tok)
  | [], vs, tok => by
    rw [memberTokens, memberViews, List.append_nil]
    rfl
  | [(k, n)], vs, tok => by
    rw [memberTokens, memberTokens, memberViews, memberViews, List.append_nil]
    exact reads_member k (n.reads (vs ++ [View.mk .string k (some tok)]) (some tok))
  | (k, n) :: m :: ms, vs, tok => by
    have hn := reads_member k (n.reads (vs ++ [View.mk .string k (some tok)]) (some tok))
    have hms := members_read (m :: ms)
      (vs ++ View.mk .string k (some tok) :: n.views (vs.length + 1) (some tok)) tok
    have hlen : (vs ++ View.mk .string k (some tok) :: n.views (vs.length + 1) (some tok)).length =
        vs.length + 1 + (n.views (vs.length + 1) (some tok)).length := by
      rw [List.length_append, List.length_cons]
      omega
    obtain ⟨t, ts, hts⟩ : ∃ t ts, memberTokens (m :: ms) = t :: ts := by
      cases m
      exact ⟨_, _, memberTokens.eq_2 ..⟩
    rw [hlen] at hms
    rw [memberTokens, memberViews, hts, commaTokens_cons, ← hts, List.foldlM_append, hn,
      Option.bind_eq_bind, Option.bind_some, List.foldlM_cons, stepView_comma, Option.bind_eq_bind,
      Option.bind_some, hms, List.append_assoc]
    rfl

end

/-! ## Ancestors -/

/-- A value has a first token, which stands in the parent. -/
theorem Node.views_cons (n : Node) (id : ℕ) (parent : Option ℕ) :
    ∃ w ws, n.views id parent = w :: ws ∧ w.parent = parent := by
  cases n with
  | str raw => exact ⟨_, _, Node.views.eq_1 .., rfl⟩
  | prim t => exact ⟨_, _, Node.views.eq_2 .., rfl⟩
  | arr es => exact ⟨_, _, Node.views.eq_3 .., rfl⟩
  | obj ms => exact ⟨_, _, Node.views.eq_4 .., rfl⟩

mutual

/-- The tokens of a value behind the first one stand in one before them. -/
theorem Node.parents : ∀ (n : Node) (id : ℕ) (parent : Option ℕ) (j : ℕ) (w : View),
    (n.views id parent)[j + 1]? = some w → ∃ p, w.parent = some p ∧ id ≤ p ∧ p < id + (j + 1)
  | .str raw, id, parent, j, w, h => by
    rw [Node.views] at h
    cases h
  | .prim t, id, parent, j, w, h => by
    rw [Node.views] at h
    cases h
  | .arr es, id, parent, j, w, h => by
    rw [Node.views, List.getElem?_cons_succ] at h
    obtain ⟨p, hp, hle, hlt⟩ := elements_parents es id (id + 1) (Nat.lt_succ_self id) j w h
    exact ⟨p, hp, by omega, by omega⟩
  | .obj ms, id, parent, j, w, h => by
    rw [Node.views, List.getElem?_cons_succ] at h
    obtain ⟨p, hp, hle, hlt⟩ := members_parents ms id (id + 1) (Nat.lt_succ_self id) j w h
    exact ⟨p, hp, by omega, by omega⟩

theorem elements_parents : ∀ (es : List Node) (tok id : ℕ), tok < id → ∀ (j : ℕ) (w : View),
    (elementViews tok id es)[j]? = some w → ∃ p, w.parent = some p ∧ tok ≤ p ∧ p < id + j
  | [], tok, id, hlt, j, w, h => by
    rw [elementViews] at h
    cases h
  | e :: es, tok, id, hlt, j, w, h => by
    rw [elementViews] at h
    rcases Nat.lt_or_ge j (e.views id (some tok)).length with hin | hout
    · rw [List.getElem?_append_left hin] at h
      cases j with
      | zero =>
        obtain ⟨x, xs, hx, hparent⟩ := e.views_cons id (some tok)
        rw [hx] at h
        obtain rfl : x = w := Option.some.inj h
        exact ⟨tok, hparent, le_rfl, by omega⟩
      | succ j =>
        obtain ⟨p, hp, hle, hlt'⟩ := e.parents id (some tok) j w h
        exact ⟨p, hp, by omega, hlt'⟩
    · rw [List.getElem?_append_right hout] at h
      obtain ⟨p, hp, hle, hlt'⟩ := elements_parents es tok _ (by omega) _ w h
      exact ⟨p, hp, hle, by omega⟩

theorem members_parents : ∀ (ms : List (Bytes × Node)) (tok id : ℕ), tok < id →
    ∀ (j : ℕ) (w : View), (memberViews tok id ms)[j]? = some w →
      ∃ p, w.parent = some p ∧ tok ≤ p ∧ p < id + j
  | [], tok, id, hlt, j, w, h => by
    rw [memberViews] at h
    cases h
  | (k, n) :: ms, tok, id, hlt, j, w, h => by
    rw [memberViews] at h
    cases j with
    | zero =>
      obtain rfl := Option.some.inj h
      exact ⟨tok, rfl, le_rfl, hlt⟩
    | succ j =>
      rw [List.getElem?_cons_succ] at h
      rcases Nat.lt_or_ge j (n.views (id + 1) (some tok)).length with hin | hout
      · rw [List.getElem?_append_left hin] at h
        cases j with
        | zero =>
          obtain ⟨x, xs, hx, hparent⟩ := n.views_cons (id + 1) (some tok)
          rw [hx] at h
          obtain rfl : x = w := Option.some.inj h
          exact ⟨tok, hparent, le_rfl, by omega⟩
        | succ j =>
          obtain ⟨p, hp, hle, hlt'⟩ := n.parents (id + 1) (some tok) j w h
          exact ⟨p, hp, by omega, by omega⟩
      · rw [List.getElem?_append_right hout] at h
        obtain ⟨p, hp, hle, hlt'⟩ := members_parents ms tok _ (by omega) _ w h
        exact ⟨p, hp, hle, by omega⟩

end

/-- A document in which parents come before their children. -/
def Ordered (vs : List View) : Prop :=
  ∀ (i : ℕ) (w : View) (p : ℕ), vs[i]? = some w → w.parent = some p → p < i

theorem Node.ordered (n : Node) : Ordered (n.views 0 none) := by
  intro i w p hw hp
  cases i with
  | zero =>
    obtain ⟨x, xs, hx, hparent⟩ := n.views_cons 0 none
    rw [hx] at hw
    obtain rfl : x = w := Option.some.inj hw
    rw [hparent] at hp
    cases hp
  | succ i =>
    obtain ⟨q, hq, -, hlt⟩ := n.parents 0 none i w hw
    rw [hq] at hp
    obtain rfl := Option.some.inj hp
    omega

section Walks

variable {d : Doc} {k : ℕ} {parent : Option ℕ}

theorem parent_eq (i : ℕ) : d.parent i = (d.views[i]?).bind View.parent :=
  (bind_parent_view i).symm

theorem length_views : d.views.length = d.v.length := List.length_map _

/-- What is behind a value stands in none of its tokens. -/
def Behind (k : ℕ) (post : List View) : Prop :=
  ∀ w p, post.head? = some w → w.parent = some p → p < k

/-- The value's tokens begin at a place. -/
def At (d : Doc) (k : ℕ) (parent : Option ℕ) (n : Node) : Prop :=
  ∃ pre post, d.views = pre ++ (n.views k parent ++ post) ∧ pre.length = k ∧ Behind k post

theorem isDescendantLoop_above (hd : Ordered d.views) {p : ℕ} (hp : p < k) (fuel : ℕ) :
    isDescendantLoop d k fuel (some p) = false := by
  induction fuel generalizing p with
  | zero => rfl
  | succ fuel ih =>
    rw [isDescendantLoop, if_neg (by omega), parent_eq]
    cases hparent : (d.views[p]?).bind View.parent with
    | none => cases fuel <;> rfl
    | some q =>
      obtain ⟨w, hw, hq⟩ := Option.bind_eq_some_iff.mp hparent
      exact ih ((hd p w q hw hq).trans hp)

/-- Tokens of a value, up to one, have its first token above them. -/
theorem isDescendantLoop_below {len : ℕ}
    (hin : ∀ i, k < i → i < k + len → ∃ p, d.parent i = some p ∧ k ≤ p ∧ p < i) {p fuel : ℕ}
    (hkp : k ≤ p) (hp : p < k + len) (hfuel : p - k < fuel) :
    isDescendantLoop d k fuel (some p) = true := by
  induction fuel generalizing p with
  | zero => omega
  | succ fuel ih =>
    rw [isDescendantLoop]
    by_cases heq : p = k
    · rw [if_pos heq]
    · obtain ⟨q, hq, hkq, hqp⟩ := hin p (by omega) hp
      rw [if_neg heq, hq]
      exact ih hkq (by omega) (by omega)

/-- The tokens of a value stand in it. -/
theorem At.inside {n : Node} (h : At d k parent n) (i : ℕ) (hlt : k < i)
    (hend : i < k + (n.views k parent).length) :
    ∃ p, d.parent i = some p ∧ k ≤ p ∧ p < i := by
  obtain ⟨pre, post, hviews, rfl, -⟩ := h
  obtain ⟨j, rfl⟩ := Nat.exists_eq_add_of_lt hlt
  have hw : d.views[pre.length + j + 1]? = (n.views pre.length parent)[j + 1]? := by
    rw [hviews, List.getElem?_append_right (by omega), Nat.add_assoc, Nat.add_sub_cancel_left,
      List.getElem?_append_left (by omega)]
  obtain ⟨w, hget⟩ : ∃ w, (n.views pre.length parent)[j + 1]? = some w :=
    ⟨_, List.getElem?_eq_getElem (by omega)⟩
  obtain ⟨p, hp, hle, hlt⟩ := n.parents _ _ j w hget
  exact ⟨p, by rw [parent_eq, hw, hget]; exact hp, hle, hlt⟩

/-- What comes next does not. -/
theorem At.next {n : Node} (h : At d k parent n) :
    k + (n.views k parent).length ≤ d.v.length ∧
      ∀ p, d.parent (k + (n.views k parent).length) = some p → p < k := by
  obtain ⟨pre, post, hviews, rfl, hbehind⟩ := h
  constructor
  · rw [← length_views, hviews, List.length_append, List.length_append]
    omega
  · intro p hp
    rw [parent_eq, hviews, List.getElem?_append_right (by omega), Nat.add_sub_cancel_left,
      List.getElem?_append_right le_rfl, Nat.sub_self, ← List.head?_eq_getElem?] at hp
    obtain ⟨w, hw, hparent⟩ := Option.bind_eq_some_iff.mp hp
    exact hbehind w p hw hparent

theorem At.first {n : Node} (h : At d k parent n) : k < d.v.length ∧ d.parent k = parent := by
  obtain ⟨pre, post, hviews, rfl, -⟩ := h
  obtain ⟨w, ws, hw, hparent⟩ := n.views_cons pre.length parent
  have hget : d.views[pre.length]? = some w := by
    rw [hviews, hw, List.getElem?_append_right le_rfl, Nat.sub_self]
    rfl
  refine ⟨?_, by rw [parent_eq, hget]; exact hparent⟩
  rw [← length_views]
  exact (List.getElem?_eq_some_iff.mp hget).1

/-- `json_skip` goes behind the tokens of a value. -/
theorem jsonSkip_at {n : Node} (hd : Ordered d.views) (h : At d k parent n) :
    jsonSkip d k = k + (n.views k parent).length := by
  obtain ⟨hend, hnext⟩ := h.next
  have hloop : ∀ m i fuel, k < i → i + m = k + (n.views k parent).length → m ≤ fuel →
      skipLoop d k fuel i = k + (n.views k parent).length := by
    intro m
    induction m with
    | zero =>
      intro i fuel hi hsum _
      rw [Nat.add_zero] at hsum
      subst hsum
      cases fuel with
      | zero => rfl
      | succ fuel =>
        have hno : isDescendant d (k + (n.views k parent).length) k = false := by
          rw [isDescendant]
          cases hp : d.parent (k + (n.views k parent).length) with
          | none => cases d.v.length <;> rfl
          | some p => exact isDescendantLoop_above hd (hnext p hp) _
        rw [skipLoop, hno, if_neg (fun h => Bool.noConfusion h.2)]
    | succ m ih =>
      intro i fuel hi hsum hfuel
      obtain ⟨fuel, rfl⟩ := Nat.exists_eq_succ_of_ne_zero (by omega : fuel ≠ 0)
      have hyes : isDescendant d i k = true := by
        obtain ⟨p, hp, hle, hlt⟩ := h.inside i hi (by omega)
        rw [isDescendant, hp]
        exact isDescendantLoop_below h.inside hle (by omega) (by omega)
      rw [skipLoop, if_pos ⟨by omega, hyes⟩]
      exact ih (i + 1) fuel (by omega) (by omega) (by omega)
  obtain ⟨w, ws, hw, -⟩ := n.views_cons k parent
  have hpos : (n.views k parent).length = ws.length + 1 := by rw [hw]; rfl
  rw [jsonSkip]
  exact hloop ws.length (k + 1) _ (Nat.lt_succ_self k) (by omega) (by omega)

/-! ## Arrays and objects -/

/-- Elements of an array, from a place on. -/
def ElementsFrom (d : Doc) (tok i : ℕ) (es : List Node) : Prop :=
  ∃ pre post, d.views = pre ++ (elementViews tok i es ++ post) ∧ pre.length = i ∧ tok < i ∧
    Behind tok post

/-- Members of an object, from a place on. -/
def MembersFrom (d : Doc) (tok i : ℕ) (ms : List (Bytes × Node)) : Prop :=
  ∃ pre post, d.views = pre ++ (memberViews tok i ms ++ post) ∧ pre.length = i ∧ tok < i ∧
    Behind tok post

/-- A name and its value. -/
def MemberAt (d : Doc) (tok i : ℕ) (m : Bytes × Node) : Prop :=
  d.views[i]? = some ⟨.string, m.1, some tok⟩ ∧ At d (i + 1) (some tok) m.2

variable {tok i : ℕ}

theorem MemberAt.first {m : Bytes × Node} (h : MemberAt d tok i m) :
    i < d.v.length ∧ d.parent i = some tok := by
  refine ⟨?_, by rw [parent_eq, h.1]; rfl⟩
  rw [← length_views]
  exact (List.getElem?_eq_some_iff.mp h.1).1

/-- A name is compared as it is written. -/
theorem MemberAt.tokEq {m : Bytes × Node} (h : MemberAt d tok i m) (key : Bytes) :
    d.tokEq i key = decide (m.1 = key) := by
  obtain ⟨t, ht, hview⟩ := Option.map_eq_some_iff.mp (List.getElem?_map.symm.trans h.1)
  obtain ⟨type, start, stop, parent, size⟩ := t
  obtain ⟨rfl, htext, -⟩ := View.mk.inj hview
  have htext' : tokText d.js ⟨.string, start, stop, parent, size⟩ = m.1 := htext
  rw [Doc.tokEq, ht]
  dsimp only
  rw [htext']
  simp

/-- Behind the last one nothing stands in the array or the object. -/
theorem not_parent_of_behind {pre post : List View} (hviews : d.views = pre ++ post)
    (hbehind : Behind tok post) : ¬ (pre.length < d.v.length ∧ d.parent pre.length = some tok) := by
  rintro ⟨-, hparent⟩
  rw [parent_eq, hviews, List.getElem?_append_right le_rfl, Nat.sub_self,
    ← List.head?_eq_getElem?] at hparent
  obtain ⟨w, hw, hp⟩ := Option.bind_eq_some_iff.mp hparent
  exact absurd (hbehind w tok hw hp) (Nat.lt_irrefl tok)

theorem ElementsFrom.nil (h : ElementsFrom d tok i []) :
    ¬ (i < d.v.length ∧ d.parent i = some tok) := by
  obtain ⟨pre, post, hviews, rfl, -, hbehind⟩ := h
  rw [elementViews, List.nil_append] at hviews
  exact not_parent_of_behind hviews hbehind

theorem MembersFrom.nil (h : MembersFrom d tok i []) :
    ¬ (i < d.v.length ∧ d.parent i = some tok) := by
  obtain ⟨pre, post, hviews, rfl, -, hbehind⟩ := h
  rw [memberViews, List.nil_append] at hviews
  exact not_parent_of_behind hviews hbehind

/-- Elements that follow stand behind every token of the ones before. -/
theorem behind_elements {es : List Node} {post : List View} (hlt : tok < k)
    (hbehind : Behind tok post) (i : ℕ) : Behind k (elementViews tok i es ++ post) := by
  intro w p hw hp
  cases es with
  | nil =>
    rw [elementViews, List.nil_append] at hw
    exact (hbehind w p hw hp).trans hlt
  | cons e es =>
    obtain ⟨x, xs, hx, hparent⟩ := e.views_cons i (some tok)
    rw [elementViews, hx] at hw
    obtain rfl : x = w := Option.some.inj hw
    rw [hparent] at hp
    exact Option.some.inj hp ▸ hlt

theorem behind_members {ms : List (Bytes × Node)} {post : List View} (hlt : tok < k)
    (hbehind : Behind tok post) (i : ℕ) : Behind k (memberViews tok i ms ++ post) := by
  intro w p hw hp
  cases ms with
  | nil =>
    rw [memberViews, List.nil_append] at hw
    exact (hbehind w p hw hp).trans hlt
  | cons m ms =>
    rw [memberViews] at hw
    obtain rfl := Option.some.inj hw
    exact Option.some.inj hp ▸ hlt

/-- One element, and those behind it. -/
theorem ElementsFrom.cons (hd : Ordered d.views) {e : Node} {es : List Node}
    (h : ElementsFrom d tok i (e :: es)) :
    At d i (some tok) e ∧ ElementsFrom d tok (jsonSkip d i) es := by
  obtain ⟨pre, post, hviews, rfl, hlt, hbehind⟩ := h
  rw [elementViews, List.append_assoc] at hviews
  have hat : At d pre.length (some tok) e := ⟨pre, _, hviews, rfl, behind_elements hlt hbehind _⟩
  refine ⟨hat, pre ++ e.views pre.length (some tok), post, ?_, ?_, ?_, hbehind⟩
  · rw [hviews, jsonSkip_at hd hat, List.append_assoc]
  · rw [jsonSkip_at hd hat, List.length_append]
  · rw [jsonSkip_at hd hat]
    omega

/-- One member, and those behind it. -/
theorem MembersFrom.cons (hd : Ordered d.views) {m : Bytes × Node} {ms : List (Bytes × Node)}
    (h : MembersFrom d tok i (m :: ms)) :
    MemberAt d tok i m ∧ MembersFrom d tok (jsonSkip d (i + 1)) ms := by
  obtain ⟨pre, post, hviews, rfl, hlt, hbehind⟩ := h
  rw [memberViews] at hviews
  have hsplit : d.views = pre ++ [View.mk .string m.1 (some tok)] ++
      (m.2.views (pre.length + 1) (some tok) ++ (memberViews tok
        (pre.length + 1 + (m.2.views (pre.length + 1) (some tok)).length) ms ++ post)) := by
    rw [hviews, List.append_assoc, List.cons_append, List.append_assoc]
    rfl
  have hat : At d (pre.length + 1) (some tok) m.2 :=
    ⟨_, _, hsplit, by rw [List.length_append]; rfl, behind_members (by omega) hbehind _⟩
  have hkey : d.views[pre.length]? = some ⟨.string, m.1, some tok⟩ := by
    rw [hviews, List.getElem?_append_right le_rfl, Nat.sub_self]
    rfl
  refine ⟨⟨hkey, hat⟩, pre ++ [View.mk .string m.1 (some tok)] ++
    m.2.views (pre.length + 1) (some tok), post, ?_, ?_, ?_, hbehind⟩
  · rw [hsplit, jsonSkip_at hd hat]
    simp only [List.append_assoc]
  · rw [jsonSkip_at hd hat, List.length_append, List.length_append]
    rfl
  · rw [jsonSkip_at hd hat]
    omega

theorem At.elements {es : List Node} (h : At d k parent (.arr es)) :
    ElementsFrom d k (k + 1) es := by
  obtain ⟨pre, post, hviews, rfl, hbehind⟩ := h
  rw [Node.views] at hviews
  refine ⟨pre ++ [View.mk .array [] parent], post, ?_, by rw [List.length_append]; rfl,
    Nat.lt_succ_self _, hbehind⟩
  rw [hviews, List.append_assoc]
  rfl

theorem At.members {ms : List (Bytes × Node)} (h : At d k parent (.obj ms)) :
    MembersFrom d k (k + 1) ms := by
  obtain ⟨pre, post, hviews, rfl, hbehind⟩ := h
  rw [Node.views] at hviews
  refine ⟨pre ++ [View.mk .object [] parent], post, ?_, by rw [List.length_append]; rfl,
    Nat.lt_succ_self _, hbehind⟩
  rw [hviews, List.append_assoc]
  rfl

/-- There are at least as many tokens as elements. -/
theorem ElementsFrom.length_le (hd : Ordered d.views) {es : List Node}
    (h : ElementsFrom d tok i es) : i + es.length ≤ d.v.length := by
  induction es generalizing i with
  | nil =>
    obtain ⟨pre, post, hviews, rfl, -, -⟩ := h
    rw [← length_views, hviews, List.length_append]
    exact Nat.le_add_right _ _
  | cons e es ih =>
    obtain ⟨hat, hrest⟩ := h.cons hd
    have hle := ih hrest
    obtain ⟨w, ws, hw, -⟩ := e.views_cons i (some tok)
    rw [jsonSkip_at hd hat, hw, List.length_cons] at hle
    rw [List.length_cons]
    omega

theorem MembersFrom.length_le (hd : Ordered d.views) {ms : List (Bytes × Node)}
    (h : MembersFrom d tok i ms) : i + ms.length ≤ d.v.length := by
  induction ms generalizing i with
  | nil =>
    obtain ⟨pre, post, hviews, rfl, -, -⟩ := h
    rw [← length_views, hviews, List.length_append]
    exact Nat.le_add_right _ _
  | cons m ms ih =>
    obtain ⟨⟨-, hat⟩, hrest⟩ := h.cons hd
    have hle := ih hrest
    rw [jsonSkip_at hd hat] at hle
    rw [List.length_cons]
    omega

/-- The loop over an array comes to its elements. -/
theorem children_at (hd : Ordered d.views) {es : List Node} (h : At d k parent (.arr es)) :
    List.Forall₂ (fun i e => At d i (some k) e) (children d k) es := by
  have hloop : ∀ {i fuel : ℕ}, ElementsFrom d k i es → es.length ≤ fuel →
      List.Forall₂ (fun i e => At d i (some k) e) (childrenLoop d k fuel i) es := by
    clear h
    induction es with
    | nil =>
      intro i fuel hfrom _
      cases fuel with
      | zero => exact .nil
      | succ fuel =>
        rw [childrenLoop, if_neg hfrom.nil]
        exact .nil
    | cons e es ih =>
      intro i fuel hfrom hfuel
      obtain ⟨fuel, rfl⟩ := Nat.exists_eq_succ_of_ne_zero (by simp at hfuel; omega : fuel ≠ 0)
      obtain ⟨hat, hrest⟩ := hfrom.cons hd
      rw [childrenLoop, if_pos hat.first]
      exact .cons hat (ih hrest (by simpa using hfuel))
  have hlen := h.elements.length_le hd
  exact hloop h.elements (by omega)

/-- The loop over an object comes to its members. -/
theorem members_at (hd : Ordered d.views) {ms : List (Bytes × Node)}
    (h : At d k parent (.obj ms)) : List.Forall₂ (MemberAt d k) (members d k) ms := by
  have hloop : ∀ {i fuel : ℕ}, MembersFrom d k i ms → ms.length ≤ fuel →
      List.Forall₂ (MemberAt d k) (membersLoop d k fuel i) ms := by
    clear h
    induction ms with
    | nil =>
      intro i fuel hfrom _
      cases fuel with
      | zero => exact .nil
      | succ fuel =>
        rw [membersLoop, if_neg hfrom.nil]
        exact .nil
    | cons m ms ih =>
      intro i fuel hfrom hfuel
      obtain ⟨fuel, rfl⟩ := Nat.exists_eq_succ_of_ne_zero (by simp at hfuel; omega : fuel ≠ 0)
      obtain ⟨hmember, hrest⟩ := hfrom.cons hd
      rw [membersLoop, if_pos hmember.first]
      exact .cons hmember (ih hrest (by simpa using hfuel))
  have hlen := h.members.length_le hd
  exact hloop h.members (by omega)

/-- The token of a string or a primitive. -/
theorem At.leaf {n : Node} {type : TokType} {text : Bytes} (htype : type.isBranch = false)
    (h : At d k parent n) (hn : n.views k parent = [⟨type, text, parent⟩]) :
    ∃ t, d.v[k]? = some t ∧ t.type = type ∧ tokText d.js t = text := by
  obtain ⟨pre, post, hviews, rfl, -⟩ := h
  have hget : d.views[pre.length]? = some ⟨type, text, parent⟩ := by
    rw [hviews, hn, List.getElem?_append_right le_rfl, Nat.sub_self]
    rfl
  obtain ⟨t, ht, hview⟩ := Option.map_eq_some_iff.mp (List.getElem?_map.symm.trans hget)
  obtain ⟨rfl, htext, -⟩ := View.mk.inj hview
  rw [htype] at htext
  exact ⟨t, ht, rfl, htext⟩

/-- The token of an array or an object. -/
theorem At.branch {n : Node} {type : TokType} {ws : List View} (h : At d k parent n)
    (hn : n.views k parent = ⟨type, [], parent⟩ :: ws) : ∃ t, d.v[k]? = some t ∧ t.type = type := by
  obtain ⟨pre, post, hviews, rfl, -⟩ := h
  have hget : d.views[pre.length]? = some ⟨type, [], parent⟩ := by
    rw [hviews, hn, List.getElem?_append_right le_rfl, Nat.sub_self]
    rfl
  obtain ⟨t, ht, hview⟩ := Option.map_eq_some_iff.mp (List.getElem?_map.symm.trans hget)
  exact ⟨t, ht, congrArg View.type hview⟩

/-- What `json_obj_get` finds is the first member of the name. -/
theorem jsonObjGet_at (hd : Ordered d.views) {ms : List (Bytes × Node)}
    (h : At d k parent (.obj ms)) (key : Bytes) :
    match ms.find? fun m => decide (m.1 = key) with
    | some m => ∃ v, jsonObjGet d (some k) key = some v ∧ At d v (some k) m.2
    | none => jsonObjGet d (some k) key = none := by
  have hloop : ∀ {i fuel : ℕ}, MembersFrom d k i ms → ms.length ≤ fuel →
      match ms.find? fun m => decide (m.1 = key) with
      | some m => ∃ v, objGetLoop d k key fuel i = some v ∧ At d v (some k) m.2
      | none => objGetLoop d k key fuel i = none := by
    clear h
    induction ms with
    | nil =>
      intro i fuel hfrom _
      cases fuel with
      | zero => rfl
      | succ fuel => exact if_neg hfrom.nil
    | cons m ms ih =>
      intro i fuel hfrom hfuel
      obtain ⟨fuel, rfl⟩ := Nat.exists_eq_succ_of_ne_zero (by simp at hfuel; omega : fuel ≠ 0)
      obtain ⟨hmember, hrest⟩ := hfrom.cons hd
      obtain ⟨hlt, hparent⟩ := hmember.2.first
      have hvalue : ¬ (d.v.length ≤ i + 1 ∨ d.parent (i + 1) ≠ some k) := by
        rintro (hle | hne)
        · omega
        · exact hne hparent
      have hturn : objGetLoop d k key (fuel + 1) i =
          if m.1 = key then some (i + 1) else objGetLoop d k key fuel (jsonSkip d (i + 1)) := by
        rw [objGetLoop, if_pos hmember.first]
        dsimp only
        rw [if_neg hvalue, hmember.tokEq]
        simp only [decide_eq_true_eq]
      rw [hturn, List.find?_cons]
      by_cases hkey : m.1 = key
      · rw [decide_eq_true hkey, if_pos hkey]
        exact ⟨i + 1, rfl, hmember.2⟩
      · rw [decide_eq_false hkey, if_neg hkey]
        exact ih hrest (by simpa using hfuel)
  have hlen := h.members.length_le hd
  obtain ⟨t, ht, htype⟩ := h.branch (Node.views.eq_4 ..)
  have hget : jsonObjGet d (some k) key = objGetLoop d k key d.v.length (k + 1) := by
    rw [jsonObjGet, Option.bind_eq_bind, Option.bind_some, ht, Option.bind_eq_bind,
      Option.bind_some, if_pos htype]
  rw [hget]
  exact hloop h.members (by omega)

end Walks

/-- The document of a text whose tokens are those of a value. -/
theorem jsonParseText_node {js : Bytes} (hlen : js.length < 2147483648) {n : Node}
    (h : Flat js n.tokens) :
    ∃ d, jsonParseText js = some d ∧ Ordered d.views ∧ At d 0 none n := by
  obtain ⟨d, hd, hviews⟩ := jsonParseText_flat hlen h (n.reads [] none)
  rw [List.nil_append, List.length_nil] at hviews
  refine ⟨d, hd, hviews ▸ n.ordered, [], [], ?_, rfl, fun _ _ h => nomatch h⟩
  rw [hviews, List.nil_append, List.append_nil]

/-! ## Texts of values -/

mutual

/-- Strings and numbers are those of the RFC. -/
def Node.Rfc : Node → Prop
  | .str raw => ∃ s, StringBody RfcPlain raw s
  | .prim t => RfcNumber t.text
  | .arr es => elementsRfc es
  | .obj ms => membersRfc ms

def elementsRfc : List Node → Prop
  | [] => True
  | e :: es => e.Rfc ∧ elementsRfc es

def membersRfc : List (Bytes × Node) → Prop
  | [] => True
  | (k, n) :: ms => (∃ s, StringBody RfcPlain k s) ∧ n.Rfc ∧ membersRfc ms

end

mutual

/-- The tokens of a value without white space between them are a text of the RFC. -/
theorem Node.lexes : ∀ n : Node, n.Rfc → ∃ j, Lexes rfc8259 n.tokens.flatten (.value j) n.tokens
  | .str raw, h => by
    rw [Node.Rfc] at h
    obtain ⟨s, hs⟩ := h
    rw [Node.tokens, List.flatten_singleton]
    exact ⟨_, .string hs⟩
  | .prim t, h => by
    rw [Node.Rfc] at h
    rw [Node.tokens, List.flatten_singleton]
    exact ⟨_, .number h⟩
  | .arr es, h => by
    rw [Node.Rfc] at h
    obtain ⟨js, hjs, -⟩ := elements_lex es h
    rw [Node.tokens, List.flatten_cons, List.flatten_append, List.flatten_singleton]
    exact ⟨_, .array (w := []) (fun _ h => absurd h List.not_mem_nil) hjs⟩
  | .obj ms, h => by
    rw [Node.Rfc] at h
    obtain ⟨js, hjs, -⟩ := members_lex ms h
    rw [Node.tokens, List.flatten_cons, List.flatten_append, List.flatten_singleton]
    exact ⟨_, .object (w := []) (fun _ h => absurd h List.not_mem_nil) hjs⟩

theorem elements_lex : ∀ es : List Node, elementsRfc es →
    ∃ js, Lexes rfc8259 ((commaTokens (elementTokens es)).flatten ++ [0x5d]) (.elements js)
      (commaTokens (elementTokens es) ++ [[0x5d]]) ∧ (es ≠ [] → js ≠ [])
  | [], _ => by
    rw [elementTokens]
    exact ⟨[], .noElements, fun h => absurd rfl h⟩
  | [e], h => by
    rw [elementsRfc] at h
    obtain ⟨j, hj⟩ := e.lexes h.1
    have hnil : rfc8259.Ws [] := fun _ h => absurd h List.not_mem_nil
    rw [elementTokens, elementTokens]
    exact ⟨[j], .lastElement (w := []) hj hnil, fun _ => List.cons_ne_nil _ _⟩
  | e :: e' :: es, h => by
    rw [elementsRfc] at h
    obtain ⟨j, hj⟩ := e.lexes h.1
    obtain ⟨js, hjs, hne⟩ := elements_lex (e' :: es) h.2
    have hnil : rfc8259.Ws [] := fun _ h => absurd h List.not_mem_nil
    have hnext := Lexes.nextElement hj hnil hnil hjs (.inl (hne (List.cons_ne_nil _ _)))
    refine ⟨j :: js, ?_, fun _ => List.cons_ne_nil _ _⟩
    rw [elementTokens, elementTokens, commaTokens_cons, ← elementTokens]
    simpa using hnext

theorem members_lex : ∀ ms : List (Bytes × Node), membersRfc ms →
    ∃ js, Lexes rfc8259 ((commaTokens (memberTokens ms)).flatten ++ [0x7d]) (.members js)
      (commaTokens (memberTokens ms) ++ [[0x7d]]) ∧ (ms ≠ [] → js ≠ [])
  | [], _ => by
    rw [memberTokens]
    exact ⟨[], .noMembers, fun h => absurd rfl h⟩
  | [(k, n)], h => by
    rw [membersRfc] at h
    obtain ⟨⟨s, hs⟩, hn, -⟩ := h
    obtain ⟨j, hj⟩ := n.lexes hn
    have hnil : rfc8259.Ws [] := fun _ h => absurd h List.not_mem_nil
    have hlast := Lexes.lastMember hs hnil hnil hj hnil
    refine ⟨[(s, j)], ?_, fun _ => List.cons_ne_nil _ _⟩
    rw [memberTokens, memberTokens]
    simpa [commaTokens] using hlast
  | (k, n) :: m :: ms, h => by
    rw [membersRfc] at h
    obtain ⟨⟨s, hs⟩, hn, hms⟩ := h
    obtain ⟨j, hj⟩ := n.lexes hn
    obtain ⟨js, hjs, hne⟩ := members_lex (m :: ms) hms
    have hnil : rfc8259.Ws [] := fun _ h => absurd h List.not_mem_nil
    have hnext := Lexes.nextMember hs hnil hnil hj hnil hnil hjs (.inl (hne (List.cons_ne_nil _ _)))
    obtain ⟨t, ts, hts⟩ : ∃ t ts, memberTokens (m :: ms) = t :: ts := by
      cases m
      exact ⟨_, _, memberTokens.eq_2 ..⟩
    refine ⟨(s, j) :: js, ?_, fun _ => List.cons_ne_nil _ _⟩
    rw [memberTokens, hts, commaTokens_cons, ← hts]
    simpa using hnext

end

end Sf37.Text.JsonDoc

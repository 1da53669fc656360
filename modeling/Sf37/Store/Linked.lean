/-
Sf37.Store.Linked — linked lists in a memory: the ends, and one map from node to node
for each link field.

`Links` is a doubly linked list with a head and a tail, `Chain` a list of single links.
`Holds` says which nodes a list is made of, in order: at every place where the list
can be cut, the links say what stands on the two sides.

* `Links.Holds.linkHead`, `Links.Holds.unlink`: a node comes to the head, a node goes.
* `Chain.Holds.push`, `Chain.Holds.unlink`: the same along single links, where the
  predecessor is looked for from the start.
-/
import Sf37.Store.Keyed

namespace Sf37.Store

variable {P : Type} [DecidableEq P]

/-- Write a link, where there is a node to write it into. -/
def writeAt (f : P → Option P) : Option P → Option P → P → Option P
  | none, _ => f
  | some p, v => Function.update f p v

theorem writeAt_apply (f : P → Option P) (o v : Option P) (q : P) :
    writeAt f o v q = if o = some q then v else f q := by
  cases o with
  | none => simp [writeAt]
  | some p => simp [writeAt, Function.update_apply, eq_comm]

/-! ## Double links -/

/-- A doubly linked list. -/
structure Links (P : Type) where
  head : Option P := none
  tail : Option P := none
  next : P → Option P := fun _ => none
  prev : P → Option P := fun _ => none

/-- Put a node in front of the head. -/
def Links.linkHead (l : Links P) (e : P) : Links P where
  head := some e
  tail := if l.head = none then some e else l.tail
  next := Function.update l.next e l.head
  prev := writeAt (Function.update l.prev e none) l.head (some e)

/-- Take a node out. -/
def Links.unlink (l : Links P) (e : P) : Links P where
  head := if l.prev e = none then l.next e else l.head
  tail := if l.next e = none then l.prev e else l.tail
  next := Function.update (writeAt l.next (l.prev e) (l.next e)) e none
  prev := Function.update (writeAt l.prev (l.next e) (l.prev e)) e none

/-- The nodes of a list, from head to tail. -/
structure Links.Holds (l : Links P) (ps : List P) : Prop where
  nodup : ps.Nodup
  head : l.head = ps.head?
  tail : l.tail = ps.getLast?
  node : ∀ a p b, ps = a ++ p :: b → l.prev p = a.getLast? ∧ l.next p = b.head?

omit [DecidableEq P] in
theorem Links.holds_nil : (({} : Links P)).Holds [] where
  nodup := List.nodup_nil
  head := rfl
  tail := rfl
  node a p b h := by simp at h

omit [DecidableEq P] in
theorem getLast?_ne_of_notMem {a : List P} {p : P} (h : p ∉ a) : a.getLast? ≠ some p :=
  fun hl => h (List.mem_of_getLast? hl)

omit [DecidableEq P] in
theorem head?_ne_of_notMem {b : List P} {p : P} (h : p ∉ b) : b.head? ≠ some p :=
  fun hl => h (List.mem_of_head? hl)

theorem Links.Holds.linkHead {l : Links P} {ps : List P} (h : l.Holds ps) {e : P}
    (he : e ∉ ps) : (l.linkHead e).Holds (e :: ps) where
  nodup := List.nodup_cons.mpr ⟨he, h.nodup⟩
  head := rfl
  tail := by
    simp only [Links.linkHead, h.head, h.tail]
    cases ps with
    | nil => rfl
    | cons p ps => simp
  node a p b hsplit := by
    simp only [Links.linkHead, writeAt_apply, Function.update_apply, h.head]
    cases a with
    | nil =>
      obtain ⟨rfl, rfl⟩ := List.cons.inj hsplit
      rw [if_neg (head?_ne_of_notMem he), if_pos rfl, if_pos rfl]
      exact ⟨rfl, rfl⟩
    | cons x a =>
      obtain ⟨rfl, rfl⟩ := List.cons.inj hsplit
      have hpe : p ≠ e := fun hk => he (by simp [hk])
      obtain ⟨hprev, hnext⟩ := h.node a p b rfl
      rw [if_neg hpe, if_neg hpe]
      refine ⟨?_, hnext⟩
      cases a with
      | nil => simp
      | cons y a =>
        have hpy : y ≠ p := fun hk => by
          have := h.nodup
          simp [hk] at this
        rw [if_neg (by simpa using hpy), hprev]
        simp

theorem Links.Holds.unlink {l : Links P} {a b : List P} {e : P} (h : l.Holds (a ++ e :: b)) :
    (l.unlink e).Holds (a ++ b) := by
  obtain ⟨hprev, hnext⟩ := h.node a e b rfl
  obtain ⟨ha, heb, hdisj⟩ := List.nodup_append.mp h.nodup
  obtain ⟨he, hb⟩ := List.nodup_cons.mp heb
  have hea : e ∉ a := fun hm => hdisj e hm e (by simp) rfl
  have hab : ∀ p ∈ a, p ∉ b := fun p hp hpb => hdisj p hp p (by simp [hpb]) rfl
  refine ⟨List.nodup_append.mpr ⟨ha, hb, fun p hp q hq hk => hab p hp (hk ▸ hq)⟩, ?_, ?_, ?_⟩
  · simp only [Links.unlink, hprev, hnext, h.head]
    cases a with
    | nil => simp
    | cons x a => simp
  · simp only [Links.unlink, hprev, hnext, h.tail]
    cases b with
    | nil => simp
    | cons x b => simp
  · intro a' p b' hsplit
    simp only [Links.unlink, writeAt_apply, Function.update_apply, hprev, hnext]
    have hmem : p ∈ a ++ b := hsplit ▸ by simp
    have hpe : p ≠ e := by
      rintro rfl
      exact (List.mem_append.mp hmem).elim hea he
    rw [if_neg hpe, if_neg hpe]
    -- a node behind the gap; the first one there gets a new predecessor
    have hbehind : ∀ c, b = c ++ p :: b' →
        (if b.head? = some p then a.getLast? else l.prev p) = (a ++ c).getLast? ∧
          (if a.getLast? = some p then b.head? else l.next p) = b'.head? := by
      intro c hc
      have hpb : p ∈ b := hc ▸ by simp
      have hpa : p ∉ a := fun hp => hab p hp hpb
      obtain ⟨hp1, hp2⟩ := h.node (a ++ e :: c) p b' (by simp [hc])
      rw [if_neg (getLast?_ne_of_notMem hpa), hp2]
      refine ⟨?_, rfl⟩
      cases c with
      | nil => simp [hc]
      | cons x c =>
        have hxp : x ≠ p := fun hk => by
          rw [hc, hk] at hb
          simp at hb
        rw [if_neg (by simpa [hc] using hxp), hp1]
        simp
    rcases List.append_eq_append_iff.mp hsplit with ⟨c, rfl, hc⟩ | ⟨c, rfl, hc⟩
    · exact hbehind c hc
    · cases c with
      | nil => simpa using hbehind [] hc.symm
      | cons x c =>
        -- a node before the gap; the last one there gets a new successor
        obtain ⟨rfl, rfl⟩ := List.cons.inj hc
        have hpb : p ∉ b := hab p (by simp)
        obtain ⟨hp1, hp2⟩ := h.node a' p (c ++ e :: b) (by simp)
        rw [if_neg (head?_ne_of_notMem hpb), hp1]
        refine ⟨rfl, ?_⟩
        cases c with
        | nil => simp
        | cons y c =>
          have hlast : (a' ++ p :: y :: c).getLast? ≠ some p := by
            intro hl
            rw [show a' ++ p :: y :: c = (a' ++ [p]) ++ (y :: c) by simp,
              List.getLast?_append_of_ne_nil _ (by simp)] at hl
            have hpc := List.mem_of_getLast? hl
            have := (List.nodup_append.mp ha).2.1
            exact (List.nodup_cons.mp this).1 hpc
          rw [if_neg hlast, hp2]
          simp

/-! ## Single links -/

/-- A list of single links. -/
structure Chain (P : Type) where
  first : Option P := none
  next : P → Option P := fun _ => none

/-- The link at a place: the first one, or the one in a node. -/
def Chain.at (c : Chain P) : Option P → Option P
  | none => c.first
  | some p => c.next p

/-- Write the link at a place. -/
def Chain.write (c : Chain P) : Option P → Option P → Chain P
  | none, v => { c with first := v }
  | some p, v => { c with next := Function.update c.next p v }

/-- Put a node in front. -/
def Chain.push (c : Chain P) (e : P) : Chain P where
  first := some e
  next := Function.update c.next e c.first

/-- Take a node out, looking for it from a place on, over at most so many links. -/
def Chain.unlinkFrom (e : P) : Nat → Option P → Chain P → Chain P
  | 0, _, c => c
  | fuel + 1, pos, c =>
      match c.at pos with
      | none => c
      | some q =>
          if q = e then (c.write pos (c.next e)).write (some e) none
          else Chain.unlinkFrom e fuel (some q) c

/-- The nodes of a chain. -/
structure Chain.Holds (c : Chain P) (ps : List P) : Prop where
  nodup : ps.Nodup
  link : ∀ a b, ps = a ++ b → c.at a.getLast? = b.head?

omit [DecidableEq P] in
/-- Only the links of its own nodes count. -/
theorem Chain.Holds.congr {c c' : Chain P} {ps : List P} (h : c.Holds ps)
    (hf : c'.first = c.first) (hn : ∀ p ∈ ps, c'.next p = c.next p) : c'.Holds ps where
  nodup := h.nodup
  link a b hsplit := by
    rw [← h.link a b hsplit]
    cases hl : a.getLast? with
    | none => exact hf
    | some p => exact hn p (hsplit ▸ List.mem_append_left _ (List.mem_of_getLast? hl))

omit [DecidableEq P] in
theorem Chain.holds_nil {c : Chain P} (h : c.first = none) : c.Holds [] where
  nodup := List.nodup_nil
  link a b hsplit := by
    obtain ⟨rfl, rfl⟩ := List.append_eq_nil_iff.mp hsplit.symm
    exact h

theorem Chain.Holds.push {c : Chain P} {ps : List P} (h : c.Holds ps) {e : P} (he : e ∉ ps) :
    (c.push e).Holds (e :: ps) where
  nodup := List.nodup_cons.mpr ⟨he, h.nodup⟩
  link a b hsplit := by
    cases a with
    | nil =>
      rw [List.nil_append] at hsplit
      rw [← hsplit]
      rfl
    | cons x a =>
      obtain ⟨rfl, rfl⟩ := List.cons.inj hsplit
      have hlink := h.link a b rfl
      cases a with
      | nil => simpa [Chain.push, Chain.at] using hlink
      | cons y a =>
        rw [List.getLast?_cons_cons, ← hlink]
        cases hl : (y :: a).getLast? with
        | none => simp at hl
        | some p =>
          have hpe : p ≠ e := fun hk =>
            he (List.mem_append_left _ (hk ▸ List.mem_of_getLast? hl))
          simp [Chain.push, Chain.at, hpe]

theorem Chain.at_write (c : Chain P) (pos v o : Option P) :
    (c.write pos v).at o = if o = pos then v else c.at o := by
  cases pos <;> cases o <;> simp [Chain.write, Chain.at, Function.update_apply]

/-- The node found goes out of the chain, and no other chain is touched. -/
theorem Chain.Holds.unlinkFrom {e : P} {b : List P} : ∀ {a : List P} {done : List P}
    {c : Chain P} {fuel : Nat}, c.Holds (done ++ (a ++ e :: b)) → a.length < fuel →
    (Chain.unlinkFrom e fuel done.getLast? c).Holds (done ++ (a ++ b)) ∧
      ∀ p, p ∉ done ++ (a ++ e :: b) →
        (Chain.unlinkFrom e fuel done.getLast? c).next p = c.next p
  | _, _, _, 0, _, hlen => absurd hlen (Nat.not_lt_zero _)
  | [], done, c, fuel + 1, h, _ => by
      have hat : c.at done.getLast? = some e := h.link done (e :: b) rfl
      have hnext : c.next e = b.head? := by
        have := h.link (done ++ [e]) b (by simp)
        simpa [Chain.at] using this
      obtain ⟨hd, heb, hdisj⟩ := List.nodup_append.mp h.nodup
      obtain ⟨he, hb⟩ := List.nodup_cons.mp heb
      have hed : e ∉ done := fun hm => hdisj e hm e (by simp) rfl
      simp only [Chain.unlinkFrom, hat, if_true, List.nil_append]
      refine ⟨⟨?_, fun l r hsplit => ?_⟩, fun p hp => ?_⟩
      · exact List.nodup_append.mpr ⟨hd, hb, fun p hp q hq => hdisj p hp q (by simp [hq])⟩
      · have hle : l.getLast? ≠ some e := by
          intro hl
          have hm : e ∈ done ++ b := hsplit ▸ List.mem_append_left _ (List.mem_of_getLast? hl)
          exact (List.mem_append.mp hm).elim hed he
        rw [Chain.at_write, if_neg hle, Chain.at_write]
        rcases List.append_eq_append_iff.mp hsplit with ⟨x, rfl, hx⟩ | ⟨x, rfl, hx⟩
        · cases x with
          | nil => rw [List.append_nil, if_pos rfl, hnext, hx, List.nil_append]
          | cons y x =>
            have hne : (done ++ y :: x).getLast? ≠ done.getLast? := by
              rw [List.getLast?_append_of_ne_nil _ (by simp)]
              intro hk
              cases hl : (y :: x).getLast? with
              | none => simp at hl
              | some p =>
                rw [hl] at hk
                have hpb : p ∈ b := hx ▸ List.mem_append_left _ (List.mem_of_getLast? hl)
                exact hdisj p (List.mem_of_getLast? hk.symm) p (by simp [hpb]) rfl
            rw [if_neg hne, List.getLast?_append_of_ne_nil _ (by simp)]
            have := h.link (done ++ (e :: y :: x)) r (by simp [hx])
            rwa [List.getLast?_append_of_ne_nil _ (by simp), List.getLast?_cons_cons] at this
        · cases x with
          | nil => rw [List.append_nil, if_pos rfl, hnext, hx, List.nil_append]
          | cons y x =>
            have hne : l.getLast? ≠ (l ++ y :: x).getLast? := by
              rw [List.getLast?_append_of_ne_nil _ (by simp)]
              intro hk
              cases hl : (y :: x).getLast? with
              | none => simp at hl
              | some p =>
                rw [hl] at hk
                exact (List.nodup_append.mp hd).2.2 p (List.mem_of_getLast? hk) p
                  (List.mem_of_getLast? hl) rfl
            rw [if_neg hne, hx, h.link l (y :: x ++ ([] ++ e :: b)) (by simp)]
            rfl
      · have hpe : p ≠ e := fun hk => hp (by simp [hk])
        have hpd : done.getLast? ≠ some p := fun hl =>
          hp (List.mem_append_left _ (List.mem_of_getLast? hl))
        have h1 := Chain.at_write (c.write done.getLast? (c.next e)) (some e) none (some p)
        have h2 := Chain.at_write c done.getLast? (c.next e) (some p)
        rw [if_neg (by simpa using hpe)] at h1
        rw [if_neg (Ne.symm hpd)] at h2
        exact h1.trans h2
  | q :: a, done, c, fuel + 1, h, hlen => by
      have hat : c.at done.getLast? = some q := h.link done (q :: (a ++ e :: b)) (by simp)
      have hqe : q ≠ e := by
        rintro rfl
        have := (List.nodup_append.mp h.nodup).2.1
        simp at this
      have h' : c.Holds ((done ++ [q]) ++ (a ++ e :: b)) := by simpa using h
      have hlen' : a.length < fuel := by simpa using hlen
      have ih := Chain.Holds.unlinkFrom h' hlen'
      simp only [Chain.unlinkFrom, hat, if_neg hqe]
      simpa using ih

/-- Looked for from the start, in as many steps as the chain is long. -/
theorem Chain.Holds.unlink {c : Chain P} {ps : List P} {e : P} {fuel : Nat} (h : c.Holds ps)
    (he : e ∈ ps) (hfuel : ps.length ≤ fuel) :
    (Chain.unlinkFrom e fuel none c).Holds (ps.erase e) ∧
      ∀ p, p ∉ ps → (Chain.unlinkFrom e fuel none c).next p = c.next p := by
  obtain ⟨a, b, rfl⟩ := List.append_of_mem he
  rw [List.length_append, List.length_cons] at hfuel
  rw [erase_append_cons h.nodup]
  have hwhole : c.Holds ([] ++ (a ++ e :: b)) := h
  simpa using Chain.Holds.unlinkFrom hwhole (by omega : a.length < fuel)

end Sf37.Store

/-
Sf37.Server.HttpRequest — reading a request from a socket: `read_http_request`.

The client's bytes come in pieces, as `recv` hands them out; an interrupted call is taken up
again and is no piece, and behind the last piece the connection is closed.

* `readHttpRequest_eq`: a request depends on the stream and on how much of it had come in
  when the header was whole.
* `packets_arrive`: how much that can be.
* `headerContentLength_arrived`: the length depends on it only where the value of
  `Content-Length` is blank, since its number is read on behind the header.
* `packets_same_iff`: the streams for which the packets make no difference.
-/
import Mathlib.Data.List.DropRight
import Sf37.Text.Json
import Sf37.Text.Occurrence
import Mathlib.Algebra.Group.Int.Defs
import Mathlib.Algebra.Group.Nat.Defs

namespace Sf37.Server

open Sf37.Text

/-! ## Numbers -/

/-- The digits `strtol` reads behind the white space. -/
def strtolDigits (p : Bytes) : Bytes :=
  (if p.head? = some 0x2d ∨ p.head? = some 0x2b then p.drop 1 else p).takeWhile isDigit

/-- `strtol` with base 10, of a text up to its NUL. -/
def strtol (s : Bytes) : Int :=
  let p := s.dropWhile isspace
  let n : Int := digitsValue 10 (strtolDigits p)
  max (-2 ^ 63) (min (2 ^ 63 - 1) (if p.head? = some 0x2d then -n else n))

/-! ## The header -/

/-- `header_name_eq`, for a name in lower case. -/
def headerNameEq (line name : Bytes) : Bool :=
  name.length + 1 ≤ line.length && (line)[name.length]? == some 0x3a && startsWithNoCase line name

def contentLengthName : Bytes := bytes "content-length"

/-- A line without the line break behind it. -/
def headerLine (headers : Bytes) : Bytes :=
  (headers.takeWhile (· != 0x0a)).rdropWhile fun c => c == 0x0d || c == 0x0a

/-- The line loop of `header_content_length`: the headers from the value on. A turn takes a byte
or more, so as many turns as bytes are enough. -/
def contentLengthValue : Nat → Bytes → Option Bytes
  | 0, _ => none
  | fuel + 1, headers =>
      if headers = [] then none
      else
        let line := headerLine headers
        if headerNameEq line contentLengthName then
          let value := line.drop (contentLengthName.length + 1)
          some (headers.drop (contentLengthName.length + 1 + (value.takeWhile isspace).length))
        else contentLengthValue fuel ((headers.dropWhile (· != 0x0a)).drop 1)

/-- `header_content_length` of the first bytes of a buffer. The number is read on from the
value to the end of the buffer. -/
def headerContentLength (raw : Bytes) (n : Nat) : Int :=
  match contentLengthValue (n + 1) (raw.take n) with
  | none => 0
  | some value => strtol (value ++ raw.drop n)

/-- `memchr`. -/
def memchr (s : Bytes) (c : UInt8) : Option Nat := s.findIdx? (· == c)

def crlf : Bytes := bytes "\r\n"

/-- The end of a header. -/
def blankLine : Bytes := bytes "\r\n\r\n"

/-- The method and the path of the first line, cut to what the fields of the request hold. -/
def requestLine (headers : Bytes) : Option (Bytes × Bytes) :=
  match firstOcc crlf headers with
  | none => none
  | some lineEnd =>
      let line := headers.take lineEnd
      match memchr line 0x20 with
      | none => none
      | some sp1 =>
          let rest := line.drop (sp1 + 1)
          match memchr rest 0x20 with
          | none => none
          | some sp2 => some ((line.take sp1).take 15, (rest.take sp2).take 255)

/-! ## The socket -/

/-- The cap of the header loop. -/
def headerCap : Nat := 1024 * 1024

/-- The greatest body. -/
def bodyCap : Int := 64 * 1024 * 1024

/-- The header loop: what has come in, where the header ends, and the pieces that are left. -/
def recvHeader : List Bytes → Bytes → Option (Bytes × Nat × List Bytes)
  | [], _ => none
  | piece :: pieces, raw =>
      let raw := raw ++ piece
      let headerEnd := firstOcc blankLine raw
      if headerCap < raw.length then none
      else
        match headerEnd with
        | some e => some (raw, e, pieces)
        | none => recvHeader pieces raw

/-- The body loop. -/
def recvBody (need : Nat) : List Bytes → Bytes → Bytes
  | [], raw => raw
  | piece :: pieces, raw => if raw.length < need then recvBody need pieces (raw ++ piece) else raw

/-- `http_request`. -/
structure HttpRequest where
  method : Bytes
  path : Bytes
  body : Bytes
  deriving DecidableEq, Repr

/-- `read_http_request` on the pieces that come in; `none` for `false`. -/
def readHttpRequest (pieces : List Bytes) : Option HttpRequest :=
  match recvHeader pieces [] with
  | none => none
  | some (raw, headerEnd, pieces) =>
      let headerLen := headerEnd + 4
      match requestLine (raw.take headerLen) with
      | none => none
      | some (method, path) =>
          let contentLen := headerContentLength raw headerLen
          if contentLen < 0 ∨ bodyCap < contentLen then none
          else
            let need := headerLen + contentLen.toNat
            let raw := recvBody need pieces raw
            if raw.length < need then none
            else some { method, path, body := (raw.drop headerLen).take contentLen.toNat }

/-! ## Where a number ends -/

/-- A byte that is no digit ends the digits. -/
theorem takeWhile_stop {α : Type} {p : α → Bool} {d : α} (hd : p d = false) (q t : List α) :
    (q ++ d :: t).takeWhile p = q.takeWhile p := by
  induction q with
  | nil => simp [hd]
  | cons c q ih => simp only [List.cons_append, List.takeWhile_cons, ih]

/-- A number that begins before a line break ends before it. -/
theorem strtol_line {u : Bytes} (hu : ∃ c ∈ u, isspace c = false) (t : Bytes) :
    strtol (u ++ 0x0a :: t) = strtol (u ++ [0x0a]) := by
  have hspace (t : Bytes) :
      (u ++ 0x0a :: t).dropWhile isspace = u.dropWhile isspace ++ 0x0a :: t := by
    rw [List.dropWhile_append, if_neg]
    rw [List.isEmpty_iff, List.dropWhile_eq_nil_iff]
    obtain ⟨c, hc, hno⟩ := hu
    exact fun hall => by simp [hall c hc] at hno
  have hne : u.dropWhile isspace ≠ [] := by
    rw [Ne, List.dropWhile_eq_nil_iff]
    obtain ⟨c, hc, hno⟩ := hu
    exact fun hall => by simp [hall c hc] at hno
  unfold strtol
  simp only [hspace]
  generalize u.dropWhile isspace = p at hne
  obtain ⟨c, q, rfl⟩ := List.exists_cons_of_ne_nil hne
  have hdigits (t : Bytes) : strtolDigits (c :: q ++ 0x0a :: t) = strtolDigits (c :: q) := by
    simp only [strtolDigits, List.cons_append, List.head?_cons, List.drop_succ_cons,
      List.drop_zero]
    split
    next => exact takeWhile_stop (by decide) q t
    next => exact takeWhile_stop (by decide) (c :: q) t
  rw [hdigits t, hdigits []]
  rfl

theorem strtol_blank {w : Bytes} (hw : w.all isspace = true) (t : Bytes) :
    strtol (w ++ t) = strtol t := by
  have hspace : (w ++ t).dropWhile isspace = t.dropWhile isspace :=
    List.dropWhile_append_of_pos (List.all_eq_true.mp hw)
  rw [strtol, hspace, strtol]

theorem strtol_eq_zero_iff (s : Bytes) :
    strtol s = 0 ↔ digitsValue 10 (strtolDigits (s.dropWhile isspace)) = 0 := by
  rw [strtol]
  generalize digitsValue 10 (strtolDigits (s.dropWhile isspace)) = n
  split <;> omega

theorem digitsValue_append_eq_zero {a b : Bytes} (h : digitsValue 10 (a ++ b) = 0) :
    digitsValue 10 a = 0 := by
  rw [digitsValue, List.foldl_append, ← digitsValue] at h
  generalize digitsValue 10 a = n at h
  induction b generalizing n with
  | nil => exact h
  | cons c b ih =>
    have hc : n * 10 + (hexValue c).getD 0 = 0 := ih _ h
    omega

theorem strtolDigits_take (p : Bytes) (k : Nat) : strtolDigits (p.take k) <+: strtolDigits p := by
  have hwhile (q : Bytes) (k : Nat) : (q.take k).takeWhile isDigit <+: q.takeWhile isDigit := by
    induction q generalizing k with
    | nil => simp
    | cons c q ih =>
      cases k with
      | zero => simp
      | succ k =>
        rw [List.take_succ_cons, List.takeWhile_cons, List.takeWhile_cons]
        split
        next => exact List.cons_prefix_cons.mpr ⟨rfl, ih k⟩
        next => exact List.prefix_rfl
  cases p with
  | nil => simp
  | cons c p =>
    cases k with
    | zero => simp [strtolDigits]
    | succ k =>
      simp only [strtolDigits, List.take_succ_cons, List.head?_cons, List.drop_succ_cons,
        List.drop_zero]
      split
      next => exact hwhile p k
      next => exact hwhile (c :: p) (k + 1)

/-- Where no number begins, none begins in what has come in of it. -/
theorem strtol_take_eq_zero {s : Bytes} (h : strtol s = 0) (k : Nat) : strtol (s.take k) = 0 := by
  rw [strtol_eq_zero_iff] at h ⊢
  have hspace : ∃ j, (s.take k).dropWhile isspace = (s.dropWhile isspace).take j := by
    clear h
    induction s generalizing k with
    | nil => exact ⟨0, by simp⟩
    | cons c s ih =>
      cases k with
      | zero => exact ⟨0, by simp⟩
      | succ k =>
        rw [List.take_succ_cons, List.dropWhile_cons, List.dropWhile_cons]
        split
        next => exact ih k
        next => exact ⟨k + 1, rfl⟩
  obtain ⟨j, hj⟩ := hspace
  obtain ⟨r, hr⟩ := strtolDigits_take (s.dropWhile isspace) j
  rw [hj]
  rw [← hr] at h
  exact digitsValue_append_eq_zero h

/-- The value of `Content-Length` runs to the end of the headers. -/
theorem contentLengthValue_suffix {fuel : Nat} {headers value : Bytes}
    (h : contentLengthValue fuel headers = some value) : value <:+ headers := by
  induction fuel generalizing headers with
  | zero => cases h
  | succ fuel ih =>
    rw [contentLengthValue] at h
    split at h
    next => cases h
    next =>
      dsimp only at h
      split at h
      next =>
        obtain rfl := Option.some.inj h
        exact List.drop_suffix _ _
      next =>
        exact (ih h).trans ((List.drop_suffix 1 _).trans (List.dropWhile_suffix _))

/-! ## What a read depends on -/

/-- The pieces of a stream. -/
structure Packets (s : Bytes) (pieces : List Bytes) : Prop where
  all : pieces.flatten = s
  size : ∀ piece ∈ pieces, 1 ≤ piece.length ∧ piece.length ≤ 8192

/-- How much has come in when a header of some length is whole. -/
def arrived (headerLen : Nat) : List Bytes → Nat → Nat
  | [], n => n
  | piece :: pieces, n =>
      if headerLen ≤ n + piece.length then n + piece.length
      else arrived headerLen pieces (n + piece.length)

/-- The request of a stream of which some bytes had come in when the header was whole. -/
def requestAt (s : Bytes) (headerLen arrived : Nat) : Option HttpRequest :=
  match requestLine (s.take headerLen) with
  | none => none
  | some (method, path) =>
      let contentLen := headerContentLength (s.take arrived) headerLen
      if contentLen < 0 ∨ bodyCap < contentLen then none
      else if s.length < headerLen + contentLen.toNat then none
      else some { method, path, body := (s.drop headerLen).take contentLen.toNat }

/-- What `read_http_request` makes of it. -/
def requestCapped (s : Bytes) (headerLen arrived : Nat) : Option HttpRequest :=
  if headerCap < arrived then none else requestAt s headerLen arrived

theorem blankLine_ne_nil : blankLine ≠ [] := by decide

theorem length_blankLine : blankLine.length = 4 := by decide

theorem blankLine_add_le {s : Bytes} {e : Nat} (h : firstOcc blankLine s = some e) :
    e + 4 ≤ s.length :=
  ((firstOcc_eq_some_iff blankLine_ne_nil).mp h).1.add_length_le blankLine_ne_nil

/-- The end of the header is found as soon as it has come in. -/
theorem firstOcc_take {n s : Bytes} (hn : n ≠ []) {e : Nat} (h : firstOcc n s = some e) (k : Nat) :
    firstOcc n (s.take k) = if e + n.length ≤ k then some e else none := by
  obtain ⟨hocc, hmin⟩ := (firstOcc_eq_some_iff hn).mp h
  split
  next hk =>
    refine (firstOcc_eq_some_iff hn).mpr ⟨(occursAt_take hn).mpr ⟨hocc, hk⟩, fun j hj hbad => ?_⟩
    exact hmin j hj ((occursAt_take hn).mp hbad).1
  next hk =>
    refine (firstOcc_eq_none_iff hn).mpr fun j hbad => ?_
    obtain ⟨hj, hle⟩ := (occursAt_take hn).mp hbad
    exact hmin j (by omega) hj

theorem le_arrived (h : Nat) (pieces : List Bytes) (n : Nat) : n ≤ arrived h pieces n := by
  induction pieces generalizing n with
  | nil => exact Nat.le_refl n
  | cons piece pieces ih =>
    rw [arrived]
    split
    next => omega
    next => exact Nat.le_trans (by omega) (ih _)

/-- The header loop on a stream: it ends with the piece that completes the header. -/
theorem recvHeader_eq {s : Bytes} {e : Nat} (hs : firstOcc blankLine s = some e)
    {pieces : List Bytes} {raw : Bytes} (hall : raw ++ pieces.flatten = s)
    (hraw : raw.length < e + 4) :
    ∃ rest, s.take (arrived (e + 4) pieces raw.length) ++ rest.flatten = s ∧
      recvHeader pieces raw =
        if headerCap < arrived (e + 4) pieces raw.length then none
        else some (s.take (arrived (e + 4) pieces raw.length), e, rest) := by
  induction pieces generalizing raw with
  | nil =>
    have := blankLine_add_le hs
    simp only [List.flatten_nil, List.append_nil] at hall
    subst hall
    omega
  | cons piece pieces ih =>
    rw [List.flatten_cons, ← List.append_assoc] at hall
    have htake : s.take (raw.length + piece.length) = raw ++ piece := by
      rw [← hall, ← List.length_append, List.take_left]
    have hfirst := firstOcc_take blankLine_ne_nil hs (raw.length + piece.length)
    rw [htake, length_blankLine] at hfirst
    rw [recvHeader, arrived]
    simp only [hfirst, List.length_append]
    by_cases hwhole : e + 4 ≤ raw.length + piece.length
    · rw [if_pos hwhole, if_pos hwhole]
      exact ⟨pieces, by rw [htake, hall], by rw [htake]⟩
    · rw [if_neg hwhole, if_neg hwhole]
      obtain ⟨rest, hrest, heq⟩ := ih hall (by rw [List.length_append]; omega)
      rw [List.length_append] at hrest heq
      refine ⟨rest, hrest, ?_⟩
      have hmono := le_arrived (e + 4) pieces (raw.length + piece.length)
      rw [heq]
      by_cases hcap : headerCap < raw.length + piece.length
      · rw [if_pos hcap, if_pos (by omega)]
      · rw [if_neg hcap]

/-- The body loop takes in the rest of the stream, at least up to what is needed. -/
theorem recvBody_eq (need : Nat) {s : Bytes} {pieces : List Bytes} {raw : Bytes}
    (hall : raw ++ pieces.flatten = s) :
    ∃ k, recvBody need pieces raw = s.take k ∧ (need ≤ k ∨ s.length ≤ k) := by
  induction pieces generalizing raw with
  | nil =>
    simp only [List.flatten_nil, List.append_nil] at hall
    exact ⟨s.length, by rw [recvBody, hall, List.take_length], .inr (Nat.le_refl _)⟩
  | cons piece pieces ih =>
    rw [List.flatten_cons, ← List.append_assoc] at hall
    rw [recvBody]
    split
    next => exact ih hall
    next hless =>
      refine ⟨raw.length, ?_, .inl (Nat.le_of_not_lt hless)⟩
      rw [← hall, List.append_assoc, List.take_left]

theorem arrived_le {s : Bytes} (h : Nat) {pieces : List Bytes} {n : Nat}
    (hall : n + pieces.flatten.length = s.length) : arrived h pieces n ≤ s.length := by
  induction pieces generalizing n with
  | nil =>
    rw [arrived]
    omega
  | cons piece pieces ih =>
    rw [List.flatten_cons, List.length_append] at hall
    rw [arrived]
    split
    next => omega
    next => exact ih (by omega)

theorem headerLen_le_arrived {s : Bytes} {h : Nat} (hh : h ≤ s.length) {pieces : List Bytes}
    {n : Nat} (hall : n + pieces.flatten.length = s.length) : h ≤ arrived h pieces n := by
  induction pieces generalizing n with
  | nil =>
    simp only [List.flatten_nil, List.length_nil] at hall
    rw [arrived]
    omega
  | cons piece pieces ih =>
    rw [List.flatten_cons, List.length_append] at hall
    rw [arrived]
    split
    next hwhole => exact hwhole
    next => exact ih (by omega)

/-- Only the piece that completes the header can bring in bytes of the body. -/
theorem arrived_lt {h : Nat} {pieces : List Bytes} (hsize : ∀ piece ∈ pieces, piece.length ≤ 8192)
    {n : Nat} (hn : n < h) : arrived h pieces n < h + 8192 := by
  induction pieces generalizing n with
  | nil =>
    rw [arrived]
    omega
  | cons piece pieces ih =>
    have hpiece := hsize piece (by simp)
    rw [arrived]
    split
    next => omega
    next hless => exact ih (fun q hq => hsize q (by simp [hq])) (by omega)

/-- A request depends on the stream and on how much of it had come in when the header was
whole. -/
theorem readHttpRequest_eq {s : Bytes} {e : Nat} (hs : firstOcc blankLine s = some e)
    {pieces : List Bytes} (hall : pieces.flatten = s) :
    readHttpRequest pieces = requestCapped s (e + 4) (arrived (e + 4) pieces 0) := by
  have hraw : ([] : Bytes).length < e + 4 := by simp
  obtain ⟨rest, hrest, heq⟩ := recvHeader_eq hs hall hraw
  have hle : e + 4 ≤ arrived (e + 4) pieces 0 :=
    headerLen_le_arrived (blankLine_add_le hs) (by rw [hall, Nat.zero_add])
  rw [List.length_nil] at hrest heq
  rw [readHttpRequest, heq, requestCapped]
  generalize arrived (e + 4) pieces 0 = a at *
  by_cases hcap : headerCap < a
  · rw [if_pos hcap, if_pos hcap]
  · rw [if_neg hcap, if_neg hcap]
    simp only [requestAt, List.take_take, Nat.min_eq_left hle]
    split
    next => rfl
    next method path hline =>
      split
      next => rfl
      next hlen =>
        obtain ⟨k, hk, hneed⟩ := recvBody_eq
          (e + 4 + (headerContentLength (s.take a) (e + 4)).toNat) hrest
        generalize (headerContentLength (s.take a) (e + 4)).toNat = c at *
        rw [hk, List.length_take]
        by_cases hshort : s.length < e + 4 + c
        · rw [if_pos hshort, if_pos (by omega)]
        · rw [if_neg hshort, if_neg (by omega), List.drop_take, List.take_take,
            Nat.min_eq_left (by omega)]

/-- Without the end of a header there is no request. -/
theorem readHttpRequest_none {s : Bytes} (hs : firstOcc blankLine s = none) {pieces : List Bytes}
    (hall : pieces.flatten = s) : readHttpRequest pieces = none := by
  have hloop : ∀ (pieces : List Bytes) (raw : Bytes), raw ++ pieces.flatten = s →
      recvHeader pieces raw = none := by
    intro pieces
    induction pieces with
    | nil => exact fun _ _ => rfl
    | cons piece pieces ih =>
      intro raw hall
      rw [List.flatten_cons, ← List.append_assoc] at hall
      have hnone : firstOcc blankLine (raw ++ piece) = none := by
        refine (firstOcc_eq_none_iff blankLine_ne_nil).mpr fun i hi => ?_
        refine (firstOcc_eq_none_iff blankLine_ne_nil).mp hs i ?_
        rw [← hall]
        exact hi.append_right blankLine_ne_nil _
      simp only [recvHeader, hnone]
      split
      next => rfl
      next => exact ih _ hall
  rw [readHttpRequest, hloop pieces [] hall]

/-! ## What packets can bring in -/

/-- A stream cut into pieces of one byte. -/
def singletons (s : Bytes) : List Bytes := s.map fun c => [c]

theorem flatten_singletons (s : Bytes) : (singletons s).flatten = s := by
  induction s with
  | nil => rfl
  | cons c s ih => rw [singletons, List.map_cons, List.flatten_cons, ← singletons, ih]; rfl

theorem length_of_mem_singletons {s piece : Bytes} (h : piece ∈ singletons s) :
    piece.length = 1 := by
  obtain ⟨c, -, rfl⟩ := List.mem_map.mp h
  rfl

theorem arrived_singletons {h n : Nat} (s : Bytes) (pieces : List Bytes)
    (hless : n + s.length < h) :
    arrived h (singletons s ++ pieces) n = arrived h pieces (n + s.length) := by
  induction s generalizing n with
  | nil => rfl
  | cons c s ih =>
    rw [List.length_cons] at hless
    rw [singletons, List.map_cons, List.cons_append, arrived, List.length_singleton,
      if_neg (by omega), ← singletons, ih (by omega), List.length_cons]
    congr 1
    omega

/-- Everything from the header alone to 8191 bytes of the body can have come in when the header
is whole. -/
theorem packets_arrive {s : Bytes} {h a : Nat} (hpos : 0 < h) (hha : h ≤ a) (has : a ≤ s.length)
    (hah : a < h + 8192) : ∃ pieces, Packets s pieces ∧ arrived h pieces 0 = a := by
  have hslice : ((s.take a).drop (h - 1)).length = a - (h - 1) := by
    rw [List.length_drop, List.length_take, Nat.min_eq_left has]
  have hfirst : (s.take (h - 1)).length = h - 1 := by
    rw [List.length_take, Nat.min_eq_left (by omega)]
  refine ⟨singletons (s.take (h - 1)) ++ (s.take a).drop (h - 1) :: singletons (s.drop a),
    ⟨?_, fun piece hp => ?_⟩, ?_⟩
  · have hcut : s.take (h - 1) = (s.take a).take (h - 1) := by
      rw [List.take_take, Nat.min_eq_left (by omega)]
    rw [List.flatten_append, List.flatten_cons, flatten_singletons, flatten_singletons, hcut,
      ← List.append_assoc, List.take_append_drop, List.take_append_drop]
  · rcases List.mem_append.mp hp with hp | hp
    · rw [length_of_mem_singletons hp]
      omega
    · rcases List.mem_cons.mp hp with rfl | hp
      · omega
      · rw [length_of_mem_singletons hp]
        omega
  · rw [arrived_singletons _ _ (by omega), arrived, hslice, hfirst, if_pos (by omega)]
    omega

/-! ## Where the packets make no difference -/

/-- The number of `Content-Length` begins in the header, or none begins in what can come in
with it. -/
def LengthInHeader (s : Bytes) (headerLen : Nat) : Prop :=
  ∀ value, contentLengthValue (headerLen + 1) (s.take headerLen) = some value →
    value.all isspace = true → strtol ((s.drop headerLen).take 8191) = 0

/-- The length that the header declares is refused, or the body does not come. -/
def LengthRefused (s : Bytes) (headerLen : Nat) : Prop :=
  let contentLen := headerContentLength (s.take headerLen) headerLen
  contentLen < 0 ∨ bodyCap < contentLen ∨ s.length < headerLen + contentLen.toNat

/-- The packets make no difference: the header is over the cap or its first line is none, or the
length is in the header and what can come in with it keeps under the cap. -/
def PacketFree (s : Bytes) : Prop :=
  ∀ e, firstOcc blankLine s = some e →
    headerCap < e + 4 ∨ requestLine (s.take (e + 4)) = none ∨
      LengthInHeader s (e + 4) ∧
        (min s.length (e + 4 + 8191) ≤ headerCap ∨ LengthRefused s (e + 4))

theorem requestAt_eq_none_iff {s : Bytes} {h : Nat} (hline : requestLine (s.take h) ≠ none) :
    requestAt s h h = none ↔ LengthRefused s h := by
  rw [requestAt, LengthRefused]
  obtain ⟨⟨method, path⟩, hline⟩ := Option.ne_none_iff_exists'.mp hline
  simp only [hline]
  generalize headerContentLength (s.take h) h = c
  split
  next hbad => simp only [true_iff]; tauto
  next hok =>
    split
    next hshort => simp only [true_iff]; exact .inr (.inr hshort)
    next hlong => simp only [reduceCtorEq, false_iff]; tauto

theorem drop_take_arrived {s : Bytes} {h a : Nat} (hah : a < h + 8192) :
    (s.take a).drop h = ((s.drop h).take 8191).take (a - h) := by
  rw [List.drop_take, List.take_take, Nat.min_eq_left (by omega)]

/-- A header ends with a line break. -/
theorem header_getLast {s : Bytes} {e : Nat} (hs : firstOcc blankLine s = some e) :
    (s.take (e + 4)).getLast? = some 0x0a := by
  obtain ⟨t, ht⟩ := ((firstOcc_eq_some_iff blankLine_ne_nil).mp hs).1
  have htake : s.take (e + 4) = s.take e ++ blankLine := by
    rw [List.take_add, ← ht, ← length_blankLine, List.take_left]
  have hlast : blankLine.getLast? = some 0x0a := by decide
  rw [htake, List.getLast?_append, hlast]
  rfl

/-- Where the number begins in the header the length is the one of the header alone. -/
theorem headerContentLength_arrived {s : Bytes} {e a : Nat} (hs : firstOcc blankLine s = some e)
    (hfree : LengthInHeader s (e + 4)) (hle : e + 4 ≤ a) (hah : a < e + 4 + 8192) :
    headerContentLength (s.take a) (e + 4) = headerContentLength (s.take (e + 4)) (e + 4) := by
  simp only [headerContentLength, List.take_take, Nat.min_eq_left hle, Nat.min_self]
  split
  next => rfl
  next value hvalue =>
    have hempty : (s.take (e + 4)).drop (e + 4) = [] :=
      List.drop_eq_nil_of_le (by rw [List.length_take]; omega)
    rw [hempty, List.append_nil, drop_take_arrived hah]
    by_cases hblank : value.all isspace = true
    · have hzero := strtol_take_eq_zero (hfree value hvalue hblank) (a - (e + 4))
      have hnil : strtol value = 0 := by
        have := strtol_blank hblank []
        rw [List.append_nil] at this
        rw [this]
        decide
      rw [strtol_blank hblank, hzero, hnil]
    · -- the value is a suffix of the header, so it ends with its line break
      have hsome : ∃ c ∈ value, isspace c = false := by simpa using hblank
      obtain ⟨c, hc, hno⟩ := hsome
      have hlast : value.getLast? = some 0x0a := by
        obtain ⟨u, hu⟩ := contentLengthValue_suffix hvalue
        have hheader := header_getLast hs
        rwa [← hu, List.getLast?_append_of_ne_nil _ (List.ne_nil_of_mem hc)] at hheader
      obtain ⟨u, rfl⟩ := List.getLast?_eq_some_iff.mp hlast
      have hu : ∃ c ∈ u, isspace c = false := by
        rcases List.mem_append.mp hc with hmem | hmem
        · exact ⟨c, hmem, hno⟩
        · rw [List.mem_singleton.mp hmem] at hno
          exact absurd hno (by decide)
      rw [List.append_assoc, List.singleton_append]
      exact strtol_line hu _

/-- Behind a blank value the length is what has come in. -/
theorem headerContentLength_blank {s value : Bytes} {h a : Nat} (hle : h ≤ a)
    (hvalue : contentLengthValue (h + 1) (s.take h) = some value)
    (hblank : value.all isspace = true) :
    headerContentLength (s.take a) h = strtol ((s.take a).drop h) := by
  simp only [headerContentLength, List.take_take, Nat.min_eq_left hle, hvalue]
  exact strtol_blank hblank _

/-- Two lengths that differ give two requests. -/
theorem requestAt_ne {s : Bytes} {h a : Nat} (hs : h ≤ s.length)
    (hline : requestLine (s.take h) ≠ none) (hzero : headerContentLength (s.take h) h = 0)
    (ha : headerContentLength (s.take a) h ≠ 0) : requestAt s h a ≠ requestAt s h h := by
  obtain ⟨⟨method, path⟩, hline⟩ := Option.ne_none_iff_exists'.mp hline
  have hcap : (0 : Int) ≤ bodyCap := by decide
  have hhere : requestAt s h h = some { method, path, body := [] } := by
    simp only [requestAt, hline, hzero, Int.toNat_zero, List.take_zero]
    rw [if_neg (by omega), if_neg (by omega)]
  rw [hhere]
  simp only [requestAt, hline]
  generalize headerContentLength (s.take a) h = c at ha
  split
  next => simp
  next hok =>
    split
    next => simp
    next hlong =>
      intro heq
      have hbody := congrArg (fun r => r.map fun r => r.body.length) heq
      simp only [Option.map_some, List.length_take, List.length_drop, List.length_nil,
        Option.some.injEq] at hbody
      omega

/-- When every read is as the one with the header alone, the packets make no difference. -/
theorem free_of_requestAt {s : Bytes} {e : Nat} (hle : e + 4 ≤ s.length)
    (hline : requestLine (s.take (e + 4)) ≠ none)
    (hall : requestCapped s (e + 4) (min s.length (e + 4 + 8191)) =
      requestAt s (e + 4) (e + 4)) :
    LengthInHeader s (e + 4) ∧
      (min s.length (e + 4 + 8191) ≤ headerCap ∨ LengthRefused s (e + 4)) := by
  refine ⟨fun value hvalue hblank => ?_, ?_⟩
  · by_contra hne
    have hheader : headerContentLength (s.take (e + 4)) (e + 4) = 0 := by
      rw [headerContentLength_blank (Nat.le_refl _) hvalue hblank,
        List.drop_eq_nil_of_le (by rw [List.length_take]; omega)]
      decide
    have hmore : headerContentLength (s.take (min s.length (e + 4 + 8191))) (e + 4) ≠ 0 := by
      have hbody : (s.take (min s.length (e + 4 + 8191))).drop (e + 4) =
          (s.drop (e + 4)).take 8191 := by
        rw [List.drop_take, List.take_eq_take_iff, List.length_drop]
        omega
      rwa [headerContentLength_blank (by omega) hvalue hblank, hbody]
    have hdiff := requestAt_ne hle hline hheader hmore
    rw [requestCapped] at hall
    split at hall
    next =>
      -- the cap refuses what the header alone is read as
      rw [eq_comm, requestAt_eq_none_iff hline, LengthRefused, hheader] at hall
      have hbody : (0 : Int) ≤ bodyCap := by decide
      rw [Int.toNat_zero] at hall
      omega
    next => exact hdiff hall
  · by_cases hover : min s.length (e + 4 + 8191) ≤ headerCap
    · exact .inl hover
    · rw [requestCapped, if_pos (by omega)] at hall
      exact .inr ((requestAt_eq_none_iff hline).mp hall.symm)

/-- When the packets make no difference, every read is as the one with the header alone. -/
theorem requestCapped_of_free {s : Bytes} {e a : Nat} (hs : firstOcc blankLine s = some e)
    (hfree : PacketFree s) (hha : e + 4 ≤ a) (has : a ≤ s.length) (hah : a < e + 4 + 8192) :
    requestCapped s (e + 4) a = requestCapped s (e + 4) (e + 4) := by
  rw [requestCapped, requestCapped]
  by_cases hcap : headerCap < e + 4
  · rw [if_pos hcap, if_pos (by omega)]
  rw [if_neg hcap]
  rcases hfree e hs with hbad | hline | ⟨hlength, hroom⟩
  · exact absurd hbad hcap
  · simp only [requestAt, hline, ite_self]
  · have hsame : requestAt s (e + 4) a = requestAt s (e + 4) (e + 4) := by
      simp only [requestAt, headerContentLength_arrived hs hlength hha hah]
    rw [hsame]
    by_cases hline : requestLine (s.take (e + 4)) = none
    · simp only [requestAt, hline, ite_self]
    rcases hroom with hroom | hrefused
    · rw [if_neg (by omega)]
    · rw [(requestAt_eq_none_iff hline).mpr hrefused, ite_self]

/-- The request of a stream is the same for all its packets exactly when neither the length nor
the cap of the header depends on them. -/
theorem packets_same_iff (s : Bytes) :
    (∀ pieces pieces', Packets s pieces → Packets s pieces' →
      readHttpRequest pieces = readHttpRequest pieces') ↔ PacketFree s := by
  constructor
  · intro hsame e hs
    have hle := blankLine_add_le hs
    by_cases hcap : headerCap < e + 4
    · exact .inl hcap
    by_cases hline : requestLine (s.take (e + 4)) = none
    · exact .inr (.inl hline)
    refine .inr (.inr (free_of_requestAt hle hline ?_))
    -- as much as can come in with the header, against the header alone
    obtain ⟨pieces, hp, harr⟩ := packets_arrive (s := s) (h := e + 4)
      (a := min s.length (e + 4 + 8191)) (by omega) (by omega) (by omega) (by omega)
    obtain ⟨pieces', hp', harr'⟩ :=
      packets_arrive (s := s) (h := e + 4) (by omega) (Nat.le_refl _) hle (by omega)
    have heq := hsame pieces pieces' hp hp'
    rw [readHttpRequest_eq hs hp.all, readHttpRequest_eq hs hp'.all, harr, harr'] at heq
    rw [heq, requestCapped, if_neg hcap]
  · intro hfree pieces pieces' hp hp'
    cases hs : firstOcc blankLine s with
    | none => rw [readHttpRequest_none hs hp.all, readHttpRequest_none hs hp'.all]
    | some e =>
      suffices hread : ∀ pieces, Packets s pieces →
          readHttpRequest pieces = requestCapped s (e + 4) (e + 4) by
        rw [hread pieces hp, hread pieces' hp']
      intro pieces hp
      have hflat : 0 + pieces.flatten.length = s.length := by rw [hp.all, Nat.zero_add]
      rw [readHttpRequest_eq hs hp.all]
      exact requestCapped_of_free hs hfree (headerLen_le_arrived (blankLine_add_le hs) hflat)
        (arrived_le (e + 4) hflat)
        (arrived_lt (fun piece hpiece => (hp.size piece hpiece).2) (by omega))

/-- With an empty `Content-Length` the body is taken for the length when it comes in with the
header. -/
theorem packets_differ :
    ¬ ∀ s pieces pieces', Packets s pieces → Packets s pieces' →
      readHttpRequest pieces = readHttpRequest pieces' := by
  intro hall
  let header := bytes "GET / HTTP/1.1\r\nContent-Length:\r\n\r\n"
  let body := bytes "5hello"
  have := hall (header ++ body) [header, body] [header ++ body]
    ⟨by decide, by decide⟩ ⟨by decide, by decide⟩
  exact absurd this (by decide)

end Sf37.Server

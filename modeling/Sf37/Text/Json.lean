/-
Sf37.Text.Json — the JSON reader and writer of the server.

The reader is lenient on purpose of speed: `json_skip_value` walks over a
value without building it, takes numbers with `strtod` (so hexadecimal and
leading signs and zeros pass, and `nan` and `inf` too) and lets a comma stand
before a closing bracket. `json_minify_raw_value` copies what the skipper walked over,
less white space outside strings. `json_args_parse` reads the members of an
object: string values are decoded, others are kept as minified text.

A `const char **` cursor is the suffix it points at, so a reader returns the
rest of the text. A decoded string is a C string: what `json_string` hands back
ends at the first NUL an escape put into it. Loops and the recursion of the
skipper run on fuel; each turn and each nested value reads at least one byte,
so the length of the text is always enough.
-/
import Sf37.Text.CString
import Mathlib.Algebra.Group.Nat.Defs

namespace Sf37.Text

/-! ## Writing -/

/-- `%04x` of a byte, after the `\u`. -/
def hex04 (c : UInt8) : Bytes :=
  let digit (d : UInt8) : UInt8 := if d < 10 then 0x30 + d else 0x57 + d
  [0x30, 0x30, digit (c >>> 4), digit (c &&& 0x0f)]

/-- One byte of `json_escape_n`. -/
def jsonEscapeByte (c : UInt8) : Bytes :=
  if c = 0x22 then bytes "\\\""
  else if c = 0x5c then bytes "\\\\"
  else if c = 0x08 then bytes "\\b"
  else if c = 0x0c then bytes "\\f"
  else if c = 0x0a then bytes "\\n"
  else if c = 0x0d then bytes "\\r"
  else if c = 0x09 then bytes "\\t"
  else if c < 0x20 then bytes "\\u" ++ hex04 c
  else [c]

/-- `json_escape`, and `json_escape_n` on the whole of a buffer. -/
def jsonEscape (s : Bytes) : Bytes :=
  bytes "\"" ++ s.flatMap jsonEscapeByte ++ bytes "\""

/-! ## Strings -/

/-- `json_ws`. -/
def jsonWs (p : Bytes) : Bytes := skipAsciiWs p

/-- The value of a hexadecimal digit. -/
def hexValue (c : UInt8) : Option Nat :=
  if 0x30 ≤ c ∧ c ≤ 0x39 then some (c.toNat - 0x30)
  else if 0x61 ≤ c ∧ c ≤ 0x66 then some (c.toNat - 0x61 + 10)
  else if 0x41 ≤ c ∧ c ≤ 0x46 then some (c.toNat - 0x41 + 10)
  else none

/-- `json_hex4`. -/
def jsonHex4 : Bytes → Option Nat
  | a :: b :: c :: d :: _ =>
      match hexValue a, hexValue b, hexValue c, hexValue d with
      | some a, some b, some c, some d => some (((a * 16 + b) * 16 + c) * 16 + d)
      | _, _, _, _ => none
  | _ => none

/-- `utf8_put_codepoint`. -/
def utf8PutCodepoint (cp : Nat) : Bytes :=
  if cp ≤ 0x7f then [UInt8.ofNat cp]
  else if cp ≤ 0x7ff then
    [UInt8.ofNat (0xc0 + cp / 64), UInt8.ofNat (0x80 + cp % 64)]
  else if cp ≤ 0xffff then
    [UInt8.ofNat (0xe0 + cp / 4096), UInt8.ofNat (0x80 + cp / 64 % 64),
      UInt8.ofNat (0x80 + cp % 64)]
  else
    [UInt8.ofNat (0xf0 + cp / 262144), UInt8.ofNat (0x80 + cp / 4096 % 64),
      UInt8.ofNat (0x80 + cp / 64 % 64), UInt8.ofNat (0x80 + cp % 64)]

/-- The one-letter escapes of `json_string`. -/
def jsonSimpleEscape (e : UInt8) : Option UInt8 :=
  if e = 0x22 then some 0x22
  else if e = 0x5c then some 0x5c
  else if e = 0x2f then some 0x2f
  else if e = 0x62 then some 0x08
  else if e = 0x66 then some 0x0c
  else if e = 0x6e then some 0x0a
  else if e = 0x72 then some 0x0d
  else if e = 0x74 then some 0x09
  else none

/-- The `u` escape of `json_string`, after the `u`: a low surrogate is joined
to a high one before it, and a lone surrogate is written as it is. -/
def jsonUnicodeEscape (p : Bytes) : Option (Bytes × Bytes) :=
  match jsonHex4 p with
  | none => none
  | some cp =>
      let p := p.drop 4
      if 0xd800 ≤ cp ∧ cp ≤ 0xdbff ∧ startsWith p (bytes "\\u") then
        match jsonHex4 (p.drop 2) with
        | some lo =>
            if 0xdc00 ≤ lo ∧ lo ≤ 0xdfff then
              some (utf8PutCodepoint (0x10000 + (cp - 0xd800) * 1024 + (lo - 0xdc00)),
                p.drop 6)
            else some (utf8PutCodepoint cp, p)
        | none => some (utf8PutCodepoint cp, p)
      else some (utf8PutCodepoint cp, p)

/-- One turn of the loop of `json_string`, on a text that neither is empty nor
starts with the closing quote: the decoded bytes and the rest. -/
def jsonStringTurn : Bytes → Option (Bytes × Bytes)
  | [] => none
  | c :: p =>
      if c = 0x5c then
        match p with
        | [] => none
        | e :: p =>
            if e = 0x75 then jsonUnicodeEscape p
            else (jsonSimpleEscape e).map fun x => ([x], p)
      else some ([c], p)

/-- The loop of `json_string`. -/
def jsonStringLoop : Nat → Bytes → Bytes → Option (Bytes × Bytes)
  | 0, _, _ => none
  | _ + 1, _, [] => none
  | fuel + 1, b, c :: p =>
      if c = 0x22 then some (cstr b, p)
      else
        match jsonStringTurn (c :: p) with
        | none => none
        | some (x, p) => jsonStringLoop fuel (b ++ x) p

/-- `json_string`: the decoded string and the rest of the text. -/
def jsonString (p : Bytes) : Option (Bytes × Bytes) :=
  match jsonWs p with
  | [] => none
  | c :: p => if c = 0x22 then jsonStringLoop (p.length + 1) [] p else none

/-! ## Numbers -/

/-- C `strncasecmp(p, lit, strlen(lit)) == 0` for a lower-case `lit`. -/
def startsWithNoCase (p lit : Bytes) : Bool :=
  startsWith (p.map tolower) lit

def isDigit (c : UInt8) : Bool := 0x30 ≤ c && c ≤ 0x39

def isHexDigit (c : UInt8) : Bool := (hexValue c).isSome

/-- The number that digits of a base write. -/
def digitsValue (base : Nat) (ds : Bytes) : Nat :=
  ds.foldl (fun n c => n * base + (hexValue c).getD 0) 0

/-- The digits `strtod` reads, with or without a point: what stands behind them. -/
def strtodDigits (digit : UInt8 → Bool) (p : Bytes) : Option Bytes :=
  let whole := p.takeWhile digit
  match p.dropWhile digit with
  | [] => if whole = [] then none else some []
  | c :: q =>
      if c = 0x2e then
        if whole = [] ∧ q.takeWhile digit = [] then none else some (q.dropWhile digit)
      else if whole = [] then none
      else some (c :: q)

/-- What stands behind the exponent after the digits, which is read only when it has a digit. -/
def strtodExponent (letter : UInt8) (p : Bytes) : Bytes :=
  match p with
  | [] => []
  | c :: q =>
      if c = letter ∨ c = letter - 0x20 then
        let q := match q with
          | [] => []
          | s :: r => if s = 0x2d ∨ s = 0x2b then r else s :: r
        if q.takeWhile isDigit = [] then p else q.dropWhile isDigit
      else p

/-- A letter, a digit or an underscore: what may stand in the brackets behind `nan`. -/
def nanTagByte (c : UInt8) : Bool :=
  isDigit c || (0x61 ≤ c && c ≤ 0x7a) || (0x41 ≤ c && c ≤ 0x5a) || c == 0x5f

/-- The part of `strtod` after white space and sign. -/
def strtodUnsigned (p : Bytes) : Option Bytes :=
  if startsWithNoCase p (bytes "infinity") then some (p.drop 8)
  else if startsWithNoCase p (bytes "inf") then some (p.drop 3)
  else if startsWithNoCase p (bytes "nan") then
    let q := p.drop 3
    let tag := (q.drop 1).takeWhile nanTagByte
    if startsWith q (bytes "(") ∧ startsWith (q.drop (1 + tag.length)) (bytes ")") then
      some (q.drop (2 + tag.length))
    else some q
  else
    match
      if startsWithNoCase p (bytes "0x") then strtodDigits isHexDigit (p.drop 2) else none with
    | some q => some (strtodExponent 0x70 q)
    | none => (strtodDigits isDigit p).map (strtodExponent 0x65)

/-- `strtod` in the C locale, without the value: `none` when nothing was converted, otherwise
the rest. -/
def strtod (p : Bytes) : Option Bytes :=
  match skipAsciiWs p with
  | [] => none
  | c :: q => if c = 0x2d ∨ c = 0x2b then strtodUnsigned q else strtodUnsigned (c :: q)

/-- `json_number`, without the value. The Makefile builds with `-ffast-math`, where `isfinite` is
always true: an infinity and a NaN are numbers like the others. -/
def jsonNumber (p : Bytes) : Option Bytes := strtod (jsonWs p)

/-! ## Skipping a value -/

/-- The loop of `json_skip_array`, after the bracket and white space. -/
def jsonSkipElements (skip : Bytes → Option Bytes) : Nat → Bytes → Option Bytes
  | 0, _ => none
  | _ + 1, [] => none
  | fuel + 1, c :: p =>
      if c = 0x5d then some p
      else
        match skip (c :: p) with
        | none => none
        | some p =>
            match jsonWs p with
            | [] => none
            | d :: p =>
                if d = 0x2c then jsonSkipElements skip fuel (jsonWs p)
                else if d = 0x5d then some p
                else none

/-- The loop of `json_skip_object`, after the brace and white space. -/
def jsonSkipMembers (skip : Bytes → Option Bytes) : Nat → Bytes → Option Bytes
  | 0, _ => none
  | _ + 1, [] => none
  | fuel + 1, c :: p =>
      if c = 0x7d then some p
      else
        match jsonString (c :: p) with
        | none => none
        | some (_, p) =>
            match jsonWs p with
            | [] => none
            | d :: p =>
                if d ≠ 0x3a then none
                else
                  match skip p with
                  | none => none
                  | some p =>
                      match jsonWs p with
                      | [] => none
                      | d :: p =>
                          if d = 0x2c then jsonSkipMembers skip fuel (jsonWs p)
                          else if d = 0x7d then some p
                          else none

/-- `json_skip_value`, with `json_skip_array` and `json_skip_object` at their
calls, to a nesting of at most `fuel`. -/
def jsonSkipNested : Nat → Bytes → Option Bytes
  | 0, _ => none
  | fuel + 1, p =>
      match jsonWs p with
      | [] => none
      | c :: p =>
          if c = 0x22 then (jsonString (c :: p)).map Prod.snd
          else if c = 0x7b then
            jsonSkipMembers (jsonSkipNested fuel) (p.length + 1) (jsonWs p)
          else if c = 0x5b then
            jsonSkipElements (jsonSkipNested fuel) (p.length + 1) (jsonWs p)
          else if startsWith (c :: p) (bytes "true") then some (p.drop 3)
          else if startsWith (c :: p) (bytes "false") then some (p.drop 4)
          else if startsWith (c :: p) (bytes "null") then some (p.drop 3)
          else jsonNumber (c :: p)

/-- `json_skip_value`. -/
def jsonSkipValue (p : Bytes) : Option Bytes := jsonSkipNested (p.length + 1) p

/-- `json_raw_value`: the text walked over, and the rest. -/
def jsonRawValue (p : Bytes) : Option (Bytes × Bytes) :=
  let start := jsonWs p
  (jsonSkipValue start).map fun rest => (start.take (start.length - rest.length), rest)

/-! ## Minifying -/

/-- The copy loop of `json_minify_raw_value`. -/
def minifyLoop : Bool → Bool → Bytes → Bytes
  | _, _, [] => []
  | true, escape, c :: s =>
      c ::
        (if escape then minifyLoop true false s
        else if c = 0x5c then minifyLoop true true s
        else minifyLoop (c != 0x22) false s)
  | false, escape, c :: s =>
      if c = 0x22 then c :: minifyLoop true escape s
      else if isspace c then minifyLoop false escape s
      else c :: minifyLoop false escape s

/-- `json_minify_raw_value`: a text that is no value is given back as it is. -/
def jsonMinifyRawValue (json : Bytes) : Bytes :=
  let start := jsonWs json
  match jsonSkipValue start with
  | none => json
  | some rest => minifyLoop false false (start.take (start.length - rest.length))

/-! ## Members of an object -/

/-- `json_arg`; `used` belongs to the prompt writer. -/
structure JsonArg where
  key : Bytes
  value : Bytes
  isString : Bool
  deriving DecidableEq, Repr

/-- The value of a member in `json_args_parse`, after the colon and white space. -/
def jsonArgValue (p : Bytes) : Option (Bytes × Bool × Bytes) :=
  if startsWith p (bytes "\"") then (jsonString p).map fun (v, p) => (v, true, p)
  else (jsonRawValue p).map fun (raw, p) => (jsonMinifyRawValue raw, false, p)

/-- The loop of `json_args_parse`. A comma between members is skipped, not asked
for. -/
def jsonArgsLoop : Nat → Bytes → Option (List JsonArg)
  | 0, _ => none
  | _ + 1, [] => none
  | fuel + 1, c :: p =>
      if c = 0x7d then some []
      else
        match jsonString (c :: p) with
        | none => none
        | some (key, p) =>
            match jsonWs p with
            | [] => none
            | d :: p =>
                if d ≠ 0x3a then none
                else
                  match jsonArgValue (jsonWs p) with
                  | none => none
                  | some (value, isString, p) =>
                      let p := jsonWs p
                      let p := if startsWith p (bytes ",") then p.drop 1 else p
                      (jsonArgsLoop fuel (jsonWs p)).map ({ key, value, isString } :: ·)

/-- `json_args_parse`: what follows the closing brace is not looked at. -/
def jsonArgsParse (json : Bytes) : Option (List JsonArg) :=
  match jsonWs json with
  | [] => none
  | c :: p => if c = 0x7b then jsonArgsLoop (p.length + 1) (jsonWs p) else none

/-- A member as `append_json_object_or_empty` writes it. -/
def jsonMember (a : JsonArg) : Bytes :=
  jsonEscape a.key ++ bytes ":" ++ (if a.isString then jsonEscape a.value else a.value)

/-- `append_json_object_or_empty`. -/
def appendJsonObjectOrEmpty (json : Bytes) : Bytes :=
  match jsonArgsParse json with
  | none => bytes "\x7b\x7d"
  | some args =>
      bytes "\x7b" ++ ((args.map jsonMember).intersperse (bytes ",")).flatten ++ bytes "\x7d"

end Sf37.Text

-- What `httplib.h` does with the header lines of a request, from
-- `read_headers` to the checks of `process_request` in front of a handler.
import InferenceServer.Request
import Mathlib.Algebra.Group.Nat.Defs
import Mathlib.Data.List.DropRight
import Mathlib.Data.List.Infix

namespace inference_server

namespace httplib

/-! ## Lines and fields -/

def isSpaceOrTab (c : UInt8) : Bool := c = 32 || c = 9

def isTokenChar (c : UInt8) : Bool :=
  (48 ≤ c && c ≤ 57) || (65 ≤ c && c ≤ 90) || (97 ≤ c && c ≤ 122) ||
    (bytes "!#$%&'*+-.^_\x60|~").contains c

def isFieldName (s : Bytes) : Bool := !s.isEmpty && s.all isTokenChar

def isFieldVchar (c : UInt8) : Bool := (33 ≤ c && c ≤ 126) || 128 ≤ c

/-- The first and the last byte are visible, and between them blanks are
allowed. -/
def isFieldContent (s : Bytes) : Bool :=
  (s.head?.map isFieldVchar).getD true &&
    s.all (fun c => isSpaceOrTab c || isFieldVchar c) &&
    (s.getLast?.map isFieldVchar).getD true

/-- One line without its end. Blanks at the end of the line and before the
value are dropped. -/
def parseHeader (line : Bytes) : Option (Bytes × Bytes) :=
  let line := line.rdropWhile isSpaceOrTab
  let name := line.takeWhile (fun c => c ≠ 58)
  match line.dropWhile (fun c => c ≠ 58) with
  | [] => none
  | _ :: rest =>
    let val := rest.dropWhile isSpaceOrTab
    if isFieldName name && isFieldContent val then some (name, val) else none

/-- One line that ends with CRLF. With its end it has 8192 bytes at most. -/
def readLine (line : Bytes) : Option (Bytes × Bytes) :=
  if line.length + 2 ≤ 8192 then parseHeader line else none

def toLower (c : UInt8) : UInt8 :=
  if (65 ≤ c && c ≤ 90) || (192 ≤ c && c ≤ 222 && c ≠ 215) then c + 32 else c

/-- The names are equal for `case_ignore::equal_to`. -/
def sameName (name : Bytes) (key : String) : Bool := name.map toLower = (bytes key).map toLower

/-- `get_header_value(key)`, or nothing where `has_header(key)` is false. The
list has the fields of one name in the order in which the map holds them. -/
def headerValue (headers : List (Bytes × Bytes)) (key : String) : Option Bytes :=
  (headers.find? (fun h => sameName h.1 key)).map Prod.snd

/-- All `Content-Length` fields have the value of the first one. -/
def oneContentLength (headers : List (Bytes × Bytes)) : Bool :=
  headers.all (fun h =>
    !sameName h.1 "Content-Length" || headerValue headers "Content-Length" = some h.2)

/-- `read_headers`, from its lines, of which there are 100 at most. The map of
libc++, for which the build is written, keeps the order of the lines. -/
def readHeaders (lines : List Bytes) : Option (List (Bytes × Bytes)) :=
  if lines.length ≤ 100 then
    match lines.mapM readLine with
    | none => none
    | some headers => if oneContentLength headers then some headers else none
  else none

/-! ## Values -/

/-- A text without the blanks at its ends. -/
def trim (v : Bytes) : Bytes := (v.rdropWhile isSpaceOrTab).dropWhile isSpaceOrTab

/-- `split`: the parts without their blanks, but for the empty ones. -/
def split (s : Bytes) (d : UInt8) : List Bytes :=
  ((s.splitOn d).map trim).filter (fun part => !part.isEmpty)

def isDigit (c : UInt8) : Bool := 48 ≤ c && c ≤ 57

/-- The number that digits stand for. -/
def ofDigits (s : Bytes) : Nat := s.foldl (fun value c => 10 * value + (c.toNat - 48)) 0

/-- `get_header_value_u64(key)`. Only digits count, and `strtoull` stays below
2^64. -/
def headerValueU64 (headers : List (Bytes × Bytes)) (key : String) : Nat :=
  match headerValue headers key with
  | some v => if !v.isEmpty && v.all isDigit then min (ofDigits v) (2 ^ 64 - 1) else 0
  | none => 0

/-- One parameter `q=` of `parse_quality` is in order. `quality` is the reading
of a floating point number: the text begins with one that is neither below 0
nor above 1. -/
def qualityOk (quality : Bytes → Bool) (param : Bytes) : Bool :=
  !(trim (param.drop 2)).isEmpty && quality (trim (param.drop 2))

def isQuality (param : Bytes) : Bool :=
  (bytes "q=").isPrefixOf param || (bytes "Q=").isPrefixOf param

/-- One entry of an `Accept` field: a media type, and the first `q=` among its
parameters. -/
def acceptEntry (quality : Bytes → Bool) (entry : Bytes) : Bool :=
  let token := trim (entry.takeWhile (fun c => c ≠ 59))
  let params := (entry.dropWhile (fun c => c ≠ 59)).drop 1
  !token.isEmpty && ((split params 59).find? isQuality).all (qualityOk quality) &&
    (token = bytes "*" || token.contains 47)

/-- `parse_accept_header`. -/
def parseAcceptHeader (quality : Bytes → Bool) (s : Bytes) : Bool :=
  s.isEmpty ||
    (s.head? ≠ some 44 && s.getLast? ≠ some 44 && !decide (bytes ",," <:+: s) &&
      (split s 44).all (acceptEntry quality))

/-- A bound of a range, and -1 for none or for one that does not fit 64 bits. -/
def rangeBound (s : Bytes) : Int :=
  if s.isEmpty || 2 ^ 63 ≤ ofDigits s then -1 else ofDigits s

def parseRange (part : Bytes) : Option (Int × Int) :=
  let lhs := part.takeWhile (fun c => c ≠ 45)
  match part.dropWhile (fun c => c ≠ 45) with
  | [] => none
  | _ :: rhs =>
    let first := rangeBound lhs
    let last := rangeBound rhs
    if !lhs.all isDigit || !rhs.all isDigit then none
    else if (first = -1 && last = -1) || (first ≠ -1 && last ≠ -1 && last < first) then none
    else some (first, last)

/-- `parse_range_header`. -/
def parseRangeHeader (s : Bytes) : Option (List (Int × Int)) :=
  if 7 < s.length && (bytes "bytes=").isPrefixOf s then
    match (split (s.drop 6) 44).mapM parseRange with
    | some (range :: ranges) => some (range :: ranges)
    | _ => none
  else none

/-- `req.ranges`, of a request that came as far as to a handler. -/
def ranges (headers : List (Bytes × Bytes)) : List (Int × Int) :=
  ((headerValue headers "Range").bind parseRangeHeader).getD []

/-! ## In front of the handler -/

/-- The status with which `process_request` refuses a request for its header
fields, before it looks for a handler. -/
def refusal (quality : Bytes → Bool) (headers : List (Bytes × Bytes)) : Option Nat :=
  if 0 < headerValueU64 headers "Content-Length" &&
      (headerValue headers "Transfer-Encoding").isSome then some 400
  else if !(headerValue headers "Accept").all (parseAcceptHeader quality) then some 400
  else if !(headerValue headers "Range").all (fun s => (parseRangeHeader s).isSome) then some 416
  else none

/-! ## Behind the handler -/

/-- The bytes that a range means in a text of `len` bytes. -/
def rangeIn (len : Int) (range : Int × Int) : Int × Int :=
  let (first, last) := if range.1 = -1 && range.2 = -1 then (0, len) else range
  let (first, last) := if first = -1 then (len - last, len - 1) else (first, last)
  if last = -1 || len ≤ last then (first, len - 1) else (first, last)

/-- The loop of `range_error`, behind the ranges that it has seen. At most two
of all ranges may overlap one before them. -/
def rangesFail (len : Int) (processed : List (Int × Int)) (overlapping : Nat) :
    List (Int × Int) → Bool
  | [] => false
  | range :: ranges =>
    let r := rangeIn len range
    if !(0 ≤ r.1 && r.1 ≤ r.2 && r.2 ≤ len - 1) then true
    else
      let overlapping := overlapping +
        if processed.any (fun p => !(r.2 < p.1 || r.1 > p.2)) then 1 else 0
      if 2 < overlapping then true else rangesFail len (processed ++ [r]) overlapping ranges

/-- `range_error`, for a response with a status from 200 to 299. -/
def rangeError (len : Nat) (ranges : List (Int × Int)) : Bool :=
  !ranges.isEmpty && (1024 < ranges.length || rangesFail len [] 0 ranges)

end httplib

end inference_server

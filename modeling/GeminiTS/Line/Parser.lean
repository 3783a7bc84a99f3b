import GeminiTS.Line.RowCodec
import GeminiTS.Line.Scan

/-!
# Parser — the lines of a write request

A request is a text of lines, each of which is a row, empty or a comment (`influx/parser.go`).
-/

namespace GeminiTS.Line.Parser

open Lib List

/-- What the parser takes from elsewhere: `fastfloat` for numbers, the conversion of an integer to a float, as bits,
and `sort.Sort` for the tags. -/
structure Libs where
  parseInt64 : Bytes → Option Int64
  parseBestEffort : Bytes → UInt64
  float64 : Int64 → UInt64
  sortTags : PointTags → PointTags

inductive ValueError
  | empty
  | notInt64
  | invalidNumber
  | invalidFieldValue
  | missingClosingQuote (s : Bytes)
  deriving DecidableEq

inductive LineError
  | pointMustHaveAField
  | missTagValue (s : Bytes)
  | measurementNameTooLong (name : Bytes)
  | fieldKeyEmpty
  | fieldValue (key : Bytes) (e : ValueError)
  | switchToHttp
  | timestamp (s : Bytes)
  deriving DecidableEq

variable (lib : Libs)

/-! ### Numbers -/

inductive NumberState
  | none
  | initial
  | intSign
  | integer
  | point
  | pointWithoutInt
  | fraction
  | exp
  | expSign
  | expNumber
  deriving DecidableEq

inductive CharType
  | number
  | exp
  | point
  | sign
  | illegal
  deriving DecidableEq

def toCharType (ch : UInt8) : CharType :=
  if 0x30 ≤ ch ∧ ch ≤ 0x39 then .number
  else if ch = 0x65 ∨ ch = 0x45 then .exp
  else if ch = 0x2e then .point
  else if ch = 0x2b ∨ ch = 0x2d then .sign
  else .illegal

def transfer : NumberState → CharType → NumberState
  | .initial, .number => .integer
  | .initial, .point => .pointWithoutInt
  | .initial, .sign => .intSign
  | .intSign, .number => .integer
  | .intSign, .point => .pointWithoutInt
  | .integer, .number => .integer
  | .integer, .exp => .exp
  | .integer, .point => .point
  | .point, .number => .fraction
  | .point, .exp => .exp
  | .pointWithoutInt, .number => .fraction
  | .fraction, .number => .fraction
  | .fraction, .exp => .exp
  | .exp, .number => .expNumber
  | .exp, .sign => .expSign
  | .expSign, .number => .expNumber
  | .expNumber, .number => .expNumber
  | _, _ => .none

/-- `IsValidNumber`: no transition leads out of `none`. -/
def isValidNumber (s : Bytes) : Bool :=
  match s.foldl (fun state ch => transfer state (toCharType ch)) .initial with
  | .integer | .point | .fraction | .expNumber => true
  | _ => false

/-- The exponent bits of a NaN or an infinity. -/
def notFinite (bits : UInt64) : Bool := (bits >>> 52) &&& 0x7ff = 0x7ff

def one : UInt64 := 0x3ff0000000000000

def trueTexts : List Bytes :=
  [[0x74], [0x54], [0x74, 0x72, 0x75, 0x65], [0x54, 0x72, 0x75, 0x65], [0x54, 0x52, 0x55, 0x45]]

def falseTexts : List Bytes :=
  [[0x66], [0x46], [0x66, 0x61, 0x6c, 0x73, 0x65], [0x46, 0x61, 0x6c, 0x73, 0x65], [0x46, 0x41, 0x4c, 0x53, 0x45]]

/-- A value without quotes. The text `f` alone ends with an `f` and is a float. -/
def parseFieldNumValue (s : Bytes) : Except ValueError (UInt64 × FieldType) :=
  match s.getLast? with
  | none => .error .empty
  | some ch =>
    if ch = 0x69 then
      match lib.parseInt64 s.dropLast with
      | none => .error .notInt64
      | some n => .ok (lib.float64 n, .int)
    else if ch = 0x75 then .error .invalidNumber
    else if ch = 0x66 then .ok (lib.parseBestEffort s.dropLast, .float)
    else if s ∈ trueTexts then .ok (one, .boolean)
    else if s ∈ falseTexts then .ok (0, .boolean)
    else if !isValidNumber s then .error .invalidFieldValue
    else if notFinite (lib.parseBestEffort s) then .error .invalidNumber
    else .ok (lib.parseBestEffort s, .float)

/-- Of the backslashes in a row half are kept; before a quote the odd one is for the quote, else it is kept. -/
def unquoteFrom (s : Bytes) : Bytes :=
  match _h : indexByte s 0x5c with
  | none => s
  | some n =>
    let slashes := ((s.drop (n + 1)).takeWhile (· == 0x5c)).length + 1
    if (s.drop (n + slashes)).head? = some 0x22 then
      s.take (n + slashes / 2) ++ [0x22] ++ unquoteFrom (s.drop (n + slashes + 1))
    else s.take (n + slashes / 2 + slashes % 2) ++ unquoteFrom (s.drop (n + slashes))
termination_by s.length
decreasing_by
  all_goals
    have := indexByte_lt _h
    rw [length_drop]
    omega

/-- The value of a string field; without an opening quote it is empty. -/
def parseFieldStrValue (s : Bytes) : Except ValueError Bytes :=
  match s with
  | [] => .error .empty
  | ch :: rest =>
    if ch = 0x22 then
      if rest.getLast? = some 0x22 then .ok (unquoteFrom rest.dropLast) else .error (.missingClosingQuote s)
    else .ok []

/-! ### A line -/

def Tag.unmarshal (s : Bytes) (noEscapeChars enableTagArray : Bool) : Except LineError Tag :=
  match nextUnescapedChar s 0x3d noEscapeChars enableTagArray false with
  | none => .error (.missTagValue s)
  | some n => .ok ⟨unescapeTagValue (s.take n) noEscapeChars, unescapeTagValue (s.drop (n + 1)) noEscapeChars⟩

/-- An empty tag is skipped. -/
def nonEmptyTag (tag : Tag) : PointTags := if tag.key = [] ∨ tag.value = [] then [] else [tag]

def unmarshalTags (s : Bytes) (noEscapeChars enableTagArray : Bool) : Except LineError PointTags :=
  match _h : nextUnescapedChar s 0x2c noEscapeChars enableTagArray true with
  | none => do
    let tag ← Tag.unmarshal s noEscapeChars enableTagArray
    return nonEmptyTag tag
  | some n => do
    let tag ← Tag.unmarshal (s.take n) noEscapeChars enableTagArray
    let tags ← unmarshalTags (s.drop (n + 1)) noEscapeChars enableTagArray
    return nonEmptyTag tag ++ tags
termination_by s.length
decreasing_by
  have := nextUnescapedChar_lt _h
  rw [length_drop]
  omega

def Field.unmarshal (s : Bytes) (noEscapeChars hasQuotedFields : Bool) : Except LineError Field :=
  match nextUnescapedChar s 0x3d noEscapeChars false false with
  | none => .error .pointMustHaveAField
  | some n =>
    let key := unescapeTagValue (s.take n) noEscapeChars
    if key = [] then .error .fieldKeyEmpty
    else if hasQuotedFields && (nextUnescapedChar (s.drop n) 0x22 noEscapeChars false false).isSome then
      match parseFieldStrValue (s.drop (n + 1)) with
      | .error e => .error (.fieldValue key e)
      | .ok v => .ok ⟨key, 0, v, .string⟩
    else
      match parseFieldNumValue lib (s.drop (n + 1)) with
      | .error e => .error (.fieldValue key e)
      | .ok (v, t) => .ok ⟨key, v, [], t⟩

def unmarshalInfluxFields (s : Bytes) (noEscapeChars hasQuotedFields : Bool) : Except LineError (List Field) :=
  match _h : nextUnquotedChar s 0x2c noEscapeChars hasQuotedFields with
  | none => do
    let f ← Field.unmarshal lib s noEscapeChars hasQuotedFields
    return [f]
  | some n => do
    let f ← Field.unmarshal lib (s.take n) noEscapeChars hasQuotedFields
    let fs ← unmarshalInfluxFields (s.drop (n + 1)) noEscapeChars hasQuotedFields
    return f :: fs
termination_by s.length
decreasing_by
  have := nextUnquotedChar_lt _h
  rw [length_drop]
  omega

def stripLeadingWhitespace (s : Bytes) : Bytes := s.dropWhile (· == 0x20)

/-- The white space of Unicode, as bytes. -/
def spaces : List Bytes :=
  [[0x20], [0x09], [0x0a], [0x0b], [0x0c], [0x0d], [0xc2, 0x85], [0xc2, 0xa0], [0xe1, 0x9a, 0x80]] ++
    (range 11).map (fun k => [0xe2, 0x80, 0x80 + UInt8.ofNat k]) ++
    [[0xe2, 0x80, 0xa8], [0xe2, 0x80, 0xa9], [0xe2, 0x80, 0xaf], [0xe2, 0x81, 0x9f], [0xe3, 0x80, 0x80]]

/-- The given words are taken off the front, at most `rounds` of them. -/
def trimFront (words : List Bytes) : ℕ → Bytes → Bytes
  | 0, s => s
  | rounds + 1, s =>
    match words.find? (·.isPrefixOf s) with
    | none => s
    | some w => trimFront words rounds (s.drop w.length)

/-- `strings.TrimSpace` -/
def trimSpace (s : Bytes) : Bytes :=
  let s := trimFront spaces s.length s
  (trimFront (spaces.map reverse) s.length s.reverse).reverse

def noTimestamp : Int64 := -100

/-- A timestamp has digits only. -/
def nextTimestamp (s : Bytes) : Option Int64 :=
  let s := trimSpace s
  if s = [] then some noTimestamp
  else if s.all fun ch => 0x30 ≤ ch ∧ ch ≤ 0x39 then lib.parseInt64 s
  else none

/-- The text `HTTP/` -/
def http : Bytes := [0x48, 0x54, 0x54, 0x50, 0x2f]

def maxMeasurementLength : ℕ := 250

/-- The part of a line before the fields: the name, and the tags in order. -/
def unmarshalSeries (measurementTags : Bytes) (noEscapeChars enableTagArray : Bool) :
    Except LineError (Bytes × PointTags) := do
  let (measurement, tags) ←
    match nextUnescapedChar measurementTags 0x2c noEscapeChars enableTagArray false with
    | none => pure (measurementTags, [])
    | some n => do
      let tags ← unmarshalTags (measurementTags.drop (n + 1)) noEscapeChars enableTagArray
      pure (measurementTags.take n, lib.sortTags tags)
  let name := unescapeTagValue measurement noEscapeChars
  if maxMeasurementLength < name.length then .error (.measurementNameTooLong name)
  else .ok (name, tags)

/-- The fields and the timestamp. -/
def unmarshalValues (s : Bytes) (noEscapeChars enableTagArray : Bool) : Except LineError (List Field × Int64) :=
  let hasQuotedFields := (nextUnescapedChar s 0x22 noEscapeChars enableTagArray false).isSome
  match nextUnquotedChar s 0x20 noEscapeChars hasQuotedFields with
  | none => do
    let fields ← unmarshalInfluxFields lib s noEscapeChars hasQuotedFields
    return (fields, noTimestamp)
  | some n =>
    match unmarshalInfluxFields lib (s.take n) noEscapeChars hasQuotedFields with
    | .error e => if http.isPrefixOf (s.drop (n + 1)) then .error .switchToHttp else .error e
    | .ok fields =>
      let s := stripLeadingWhitespace (s.drop (n + 1))
      match nextTimestamp lib s with
      | none => if http.isPrefixOf s then .error .switchToHttp else .error (.timestamp s)
      | some timestamp => .ok (fields, timestamp)

/-- A line becomes a row. The tags and fields are a part of the pools that later rows do not reach. -/
def Row.unmarshal (s : Bytes) (noEscapeChars enableTagArray : Bool) : Except LineError Row :=
  let s := s.dropWhile fun b => b == 0x20 || b == 0x09 || b == 0x00
  match nextUnescapedChar s 0x20 noEscapeChars enableTagArray false with
  | none => .error .pointMustHaveAField
  | some n => do
    let (name, tags) ← unmarshalSeries lib (s.take n) noEscapeChars enableTagArray
    let (fields, timestamp) ← unmarshalValues lib (stripLeadingWhitespace (s.drop (n + 1))) noEscapeChars enableTagArray
    return { Row.zero with name := name, tags := tags, fields := fields, timestamp := timestamp }

/-! ### All lines -/

/-- A line without its carriage return. -/
def content (line : Bytes) : Bytes := if line.getLast? = some 0x0d then line.dropLast else line

/-- Empty lines and comments. -/
def isSkipped (line : Bytes) : Bool := content line = [] || (content line).head? = some 0x23

/-- A line is added to the rows, or its error returned. -/
def unmarshalRow (dst : List Row) (line : Bytes) (noEscapeChars enableTagArray : Bool) : List Row × Option LineError :=
  if isSkipped line then (dst, none)
  else match Row.unmarshal lib (content line) noEscapeChars enableTagArray with
    | .error e => (dst, some e)
    | .ok row => (dst ++ [row], none)

/-- The lines one after the other; `err` is the error of the line before. -/
def unmarshalLines (dst : List Row) (err : Option LineError) (s : Bytes) (noEscapeChars enableTagArray : Bool) :
    List Row × Option LineError :=
  if s = [] then (dst, err)
  else match _h : indexByte s 0x0a with
    | none => unmarshalRow lib dst s noEscapeChars enableTagArray
    | some n =>
      let (dst, err) := unmarshalRow lib dst (s.take n) noEscapeChars enableTagArray
      unmarshalLines dst err (s.drop (n + 1)) noEscapeChars enableTagArray
termination_by s.length
decreasing_by
  have := indexByte_lt _h
  rw [length_drop]
  omega

def hasNoEscapeChars (s : Bytes) : Bool := (indexByte s 0x5c).isNone

def unmarshalRows (s : Bytes) (enableTagArray : Bool) : List Row × Option LineError :=
  unmarshalLines lib [] none s (hasNoEscapeChars s) enableTagArray

end GeminiTS.Line.Parser

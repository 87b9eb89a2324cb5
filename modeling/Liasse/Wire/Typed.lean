/-
This file models the typed wire form of a value: the encoder, and the decoder that a declared type drives at
each level.
-/

import Liasse.Runtime.Types
import Liasse.Value.Normal
import Liasse.Wire.Calendar
import Liasse.Wire.Document
import Liasse.Wire.Duration

namespace Liasse.Wire

open Liasse.Runtime (FieldType RefTarget)

section Trees

namespace J

/-- The escape of one character in the text of a JSON string. -/
def escapeChar (char : Char) : List Char :=
  if char = '"' then ['\\', '"']
  else if char = '\\' then ['\\', '\\']
  else if char.toNat = 8 then ['\\', 'b']
  else if char.toNat = 9 then ['\\', 't']
  else if char.toNat = 10 then ['\\', 'n']
  else if char.toNat = 12 then ['\\', 'f']
  else if char.toNat = 13 then ['\\', 'r']
  else if char.toNat < 32 then
    ['\\', 'u', '0', '0', Nat.digitChar (char.toNat / 16), Nat.digitChar (char.toNat % 16)]
  else [char]

/-- The text of a JSON string between its quotes. -/
def quoted (text : String) : List Char :=
  '"' :: text.toList.flatMap escapeChar ++ ['"']

mutual

/-- The compact text of a tree. -/
def render : J → List Char
  | .null => "null".toList
  | .bool flag => (if flag then "true" else "false").toList
  | .number text => text.toList
  | .string text => quoted text
  | .array items => '[' :: [','].intercalate (renderItems items) ++ [']']
  | .object members => '{' :: [','].intercalate (renderMembers members) ++ ['}']
termination_by structural tree => tree

def renderItems : List J → List (List Char)
  | [] => []
  | item :: rest => render item :: renderItems rest
termination_by structural items => items

def renderMembers : List (String × J) → List (List Char)
  | [] => []
  | member :: rest => renderMember member :: renderMembers rest
termination_by structural members => members

def renderMember : String × J → List Char
  | (name, value) => quoted name ++ ':' :: render value
termination_by structural member => member

end

def toText (tree : J) : String :=
  .ofList (render tree)

/-- The kind of a tree. -/
def shape : J → JsonShape
  | .null => .null
  | .bool _ => .bool
  | .number _ => .number
  | .string _ => .string
  | .array _ => .array
  | .object _ => .object

def isNull : J → Bool
  | .null => true
  | _ => false

/-- An object has its members in the order of their names. -/
def canonicalObject (members : List (String × J)) : J :=
  .object (members.insertionSort fun first second => compareText first.1 second.1 ≠ .gt)

end J

end Trees

section Encoding

variable (libraries : Libraries)

def periodToWire : Period → J
  | .fixed nanos => .string (Duration.toCanonicalText nanos)
  | .calendar period =>
    J.canonicalObject ([
      ("years", .number (integerText period.years.val)),
      ("months", .number (integerText period.months.val)),
      ("weeks", .number (integerText period.weeks.val)),
      ("days", .number (integerText period.days.val)),
      ("time", .string (Duration.toCanonicalText period.time)),
      ("overflow", .string (overflowKeyword period.overflow)),
      ("ambiguous", .string (ambiguousKeyword period.ambiguous)),
      ("missing", .string (missingKeyword period.missing))] ++
        (period.zone.map fun zone => ("zone", J.string zone)).toList)

def blobToWire (descriptor : BlobDescriptor) : J :=
  J.canonicalObject ([
    ("$sha512", .string (libraries.toHex descriptor.sha512.bytes)),
    ("$bytes", .string (integerText descriptor.byteCount.toNat)),
    ("$media", .string descriptor.media)] ++
      (descriptor.name.map fun name => ("$name", J.string name)).toList)

mutual

/-- The wire form of a value. An absent field has no member, and another absent value is null. -/
def toWire : Value → J
  | .text text => .string text
  | .bool flag => .bool flag
  | .int integer => .string (integerText integer)
  | .decimal decimal => .string (Decimal.toCanonicalText decimal)
  | .bytes bytes => .object [("$bytes", .string (libraries.toBase64 bytes))]
  | .uuid uuid => .string (libraries.uuidText uuid)
  | .date date => .string (libraries.dateText date)
  | .timestamp timestamp => .string (integerText timestamp.count.val)
  | .duration nanos => .string (Duration.toCanonicalText nanos)
  | .period period => periodToWire period
  | .json json => Document.toWire json
  | .blob blob => blobToWire libraries blob
  | .enum value => .string value.label
  | .ref key => refToWire key
  | .struct fields => .object (J.collect (fieldsToWire fields))
  | .composite components => .array (listToWire components)
  | .set members => .array (listToWire members)
  | .map entries => .array (entriesToWire entries)
  | .none => .null
termination_by structural value => value

def refToWire : RefKey → J
  | .scalar value => toWire value
  | .composite components => .array (listToWire components)
termination_by structural key => key

def listToWire : List Value → List J
  | [] => []
  | value :: rest => toWire value :: listToWire rest
termination_by structural values => values

def fieldsToWire : List (String × Value) → List (String × J)
  | [] => []
  | field :: rest => fieldToWire field ++ fieldsToWire rest
termination_by structural fields => fields

def fieldToWire : String × Value → List (String × J)
  | (name, value) => if value.present then [(name, toWire value)] else []
termination_by structural field => field

def entriesToWire : List (Value × Value) → List J
  | [] => []
  | entry :: rest => entryToWire entry :: entriesToWire rest
termination_by structural entries => entries

def entryToWire : Value × Value → J
  | (key, value) => .array [toWire key, toWire value]
termination_by structural entry => entry

end

end Encoding

section Scalars

/-- The boundary that asks. The machine boundary rejects a spelling that is not canonical. -/
inductive DecodeMode
  | wire
  | authored
deriving DecidableEq

/-- The name of a type in a diagnostic. -/
def typeName : FieldType → String
  | .text => "text"
  | .bool => "bool"
  | .int => "int"
  | .decimal => "decimal"
  | .bytes => "bytes"
  | .uuid => "uuid"
  | .date => "date"
  | .timestamp _ => "timestamp"
  | .duration => "duration"
  | .period => "period"
  | .json => "json"
  | .blob => "blob"
  | .enum _ => "enum"
  | .optional _ => "optional"
  | .set _ => "set"
  | .map _ _ => "map"
  | .view _ => "view"
  | .ref _ => "ref"
  | .struct _ => "struct"
  | .composite _ => "composite key"

def isOptional : FieldType → Bool
  | .optional _ => true
  | _ => false

def isJson : FieldType → Bool
  | .json => true
  | _ => false

def ensureCanonicalText (mode : DecodeMode) (ty found canonical : String) : Except ValueError Unit :=
  if mode = .wire ∧ found ≠ canonical then .error (.nonCanonicalScalar ty found canonical) else .ok ⟨⟩

/-- Only a string has a spelling that can differ from the canonical one. -/
def ensureCanonical (mode : DecodeMode) (tree : J) (ty canonical : String) : Except ValueError Unit :=
  match tree with
  | .string text => ensureCanonicalText mode ty text canonical
  | _ => .ok ⟨⟩

def mismatch (ty : String) (expected : JsonShape) (tree : J) : ValueError :=
  .typeMismatch ty expected tree.shape

def expectString (ty : String) : J → Except ValueError String
  | .string text => .ok text
  | tree => .error (mismatch ty .string tree)

def expectBool (ty : String) : J → Except ValueError Bool
  | .bool flag => .ok flag
  | tree => .error (mismatch ty .bool tree)

def expectObject (ty : String) : J → Except ValueError (List (String × J))
  | .object members => .ok members
  | tree => .error (mismatch ty .object tree)

def expectArray (ty : String) : J → Except ValueError (List J)
  | .array items => .ok items
  | tree => .error (mismatch ty .array tree)

/-- A number is a string in its canonical form, and a JSON number is also accepted. -/
def numericText (ty : String) : J → Except ValueError String
  | .string text => .ok text
  | .number text => .ok text
  | tree => .error (mismatch ty .string tree)

/-- A result that is there, or its error. -/
def orError {α : Type} (error : ValueError) : Option α → Except ValueError α
  | some value => .ok value
  | none => .error error

/-- A parse of a text and the check of its spelling. -/
def decodeScalar {α : Type} (mode : DecodeMode) (tree : J) (ty : String) (parse : String → Except ValueError α)
    (canonical : α → String) (text : String) : Except ValueError α := do
  let value ← parse text
  ensureCanonical mode tree ty (canonical value)
  pure value

variable (libraries : Libraries)

def parseInt (text : String) : Except ValueError Int :=
  orError (.malformedInt text) (libraries.parseBigInt text)

def parseUuid (text : String) : Except ValueError Uuid :=
  orError (.malformedUuid text) (libraries.parseUuid text)

def parseDate (text : String) : Except ValueError Date :=
  orError (.malformedDate text) (libraries.parseDate text)

def parseTimestamp (precision : Precision) (text : String) : Except ValueError Timestamp :=
  (orError (.malformedTimestamp text) (parseSigned 128 text)).map fun count => ⟨count, precision⟩

/-- The bytes of a wrapped text, which has one spelling. -/
def decodeBytes (tree : J) : Except ValueError (List UInt8) := do
  let members ← expectObject "bytes" tree
  let payload ← orError (.missingMember "$bytes") (J.get members "$bytes")
  let text ← expectString "bytes" payload
  (libraries.fromBase64 text).mapError .malformedBase64

def requiredStr (members : List (String × J)) (key : String) : Except ValueError String := do
  let payload ← orError (.missingMember key) (J.get members key)
  expectString "blob" payload

/-- The members of a blob descriptor. -/
def blobMembers : List String :=
  ["$sha512", "$bytes", "$media", "$name"]

/-- The name of a blob is a string when it is there. -/
def blobName (members : List (String × J)) : Except ValueError (Option String) :=
  match J.get members "$name" with
  | some (.string text) => .ok (some text)
  | some _ => .error (.unexpectedMember "$name")
  | none => .ok none

def decodeBlob (mode : DecodeMode) (tree : J) : Except ValueError BlobDescriptor := do
  let members ← expectObject "blob" tree
  match members.find? fun member => !blobMembers.contains member.1 with
  | some member => .error (.unexpectedMember member.1)
  | none => do
      let sha ← requiredStr members "$sha512"
      let bytesText ← requiredStr members "$bytes"
      let media ← requiredStr members "$media"
      let name ← blobName members
      let digest ← parseSha512 libraries sha
      ensureCanonicalText mode "sha512" sha (libraries.toHex digest.bytes)
      let byteCount ← orError (.malformedInt bytesText) (parseUnsigned bytesText)
      ensureCanonicalText mode "int" bytesText (integerText byteCount.toNat)
      pure ⟨digest, byteCount, media, name⟩

def magnitude (value : J) (field : String) : Except ValueError (Signed 64) :=
  orError (.unknownPolicy field value.toText) (asI64 value)

def policyText (value : J) (field : String) : Except ValueError String :=
  match value with
  | .string text => .ok text
  | _ => .error (.unknownPolicy field value.toText)

/-- A member of a calendar period sets its component. -/
def setMember (period : CalendarPeriod) (member : String × J) : Except ValueError CalendarPeriod :=
  if member.1 = "years" then
    (magnitude member.2 "years").map fun years => { period with years := years }
  else if member.1 = "months" then
    (magnitude member.2 "months").map fun months => { period with months := months }
  else if member.1 = "weeks" then
    (magnitude member.2 "weeks").map fun weeks => { period with weeks := weeks }
  else if member.1 = "days" then
    (magnitude member.2 "days").map fun days => { period with days := days }
  else if member.1 = "time" then
    match member.2 with
    | .string text => (Duration.parse text).map fun time => { period with time := time }
    | value => .error (.malformedDuration value.toText "calendar period `time` must be an ISO-8601 string")
  else if member.1 = "zone" then
    match member.2 with
    | .string text => .ok { period with zone := some text }
    | _ => .error (.unexpectedMember "zone")
  else if member.1 = "overflow" then do
    let overflow ← parseOverflow (← policyText member.2 "overflow")
    pure { period with overflow := overflow }
  else if member.1 = "ambiguous" then do
    let ambiguous ← parseAmbiguous (← policyText member.2 "ambiguous")
    pure { period with ambiguous := ambiguous }
  else if member.1 = "missing" then do
    let missing ← parseMissing (← policyText member.2 "missing")
    pure { period with missing := missing }
  else .error (.unexpectedMember member.1)

/-- The zero of a machine integer. -/
def zeroSigned (bits : Nat) : Signed bits where
  val := 0
  low := by
    have positive : (0 : Int) < 2 ^ (bits - 1) := by positivity
    omega
  high := by positivity

/-- The components of a calendar period before its members are read. -/
def defaultCalendar : CalendarPeriod where
  years := zeroSigned 64
  months := zeroSigned 64
  weeks := zeroSigned 64
  days := zeroSigned 64
  time := zeroSigned 128
  zone := none
  overflow := .clamp
  ambiguous := .earlier
  missing := .forward

def decodeCalendar (members : List (String × J)) : Except ValueError CalendarPeriod := do
  let period ← members.foldlM setMember defaultCalendar
  buildCalendar period

def decodePeriod (mode : DecodeMode) (tree : J) : Except ValueError Period :=
  match tree with
  | .string text =>
    (decodeScalar mode tree "period" Duration.parse Duration.toCanonicalText text).map .fixed
  | .object members => (decodeCalendar members).map .calendar
  | _ => .error (mismatch "period" .object tree)

/-- The label of an enumeration and its declared position. -/
def decodeEnum (labels : List String) (label : String) : Except ValueError EnumValue :=
  match labels.idxOf? label with
  | some ordinal => .ok ⟨UInt32.ofNat ordinal, label⟩
  | none => .error (.unknownEnumLabel label labels)

end Scalars

section Containers

/-- The set of some members, without the absent ones. -/
def setOf (members : List Value) : Value :=
  .set (Codes.collectMerged Value.cmp (fun kept _ => kept) (members.filter Value.present))

/-- The map of some entries. A later entry of a key replaces the value. -/
def mapOf (entries : List (Option (Value × Value))) : Value :=
  .map (Codes.collectMerged Value.compareKey (fun kept added => (kept.1, added.2)) entries.reduceOption)

def structOf (fields : List (String × Value)) : Value :=
  .struct (Codes.collectSorted Value.compareName fields)

/-- An entry of a map is a pair. The value decides whether the entry is kept. -/
def decodeEntry (key value : J → Except ValueError Value) :
    J → Except ValueError (Option (Value × Value))
  | .array [first, second] => do
      let decoded ← value second
      if decoded.present then
        let key ← key first
        pure (some (key, decoded))
      else pure none
  | .array items => .error (.compositeArity 2 items.length)
  | tree => .error (mismatch "map" .array tree)

/-- The first member that the declaration does not have. -/
def unexpected (declared : List (String × FieldType)) (members : List (String × J)) :
    Option (String × J) :=
  members.find? fun member => !declared.any (·.1 == member.1)

/-- A composite is an array of its components in order, or an object that names them. -/
def decodeComposite (components : List (String × FieldType))
    (positional : List J → Except ValueError (List Value))
    (named : List (String × J) → Except ValueError (List Value)) : J → Except ValueError (List Value)
  | .array items =>
    if items.length ≠ components.length then .error (.compositeArity components.length items.length)
    else positional items
  | .object members =>
    match unexpected components members with
    | some member => .error (.unexpectedMember member.1)
    | none => named members
  | tree => .error (mismatch "composite key" .array tree)

variable (libraries : Libraries) (mode : DecodeMode)

mutual

/-- The value of a wire form at a declared type. -/
def decodeAs : FieldType → J → Except ValueError Value
  | .text, tree => (expectString "text" tree).map .text
  | .bool, tree => (expectBool "bool" tree).map .bool
  | .int, tree => do
      (decodeScalar mode tree "int" (parseInt libraries) integerText (← numericText "int" tree)).map .int
  | .decimal, tree => do
      (decodeScalar mode tree "decimal" (Decimal.parse libraries) Decimal.toCanonicalText
        (← numericText "decimal" tree)).map .decimal
  | .bytes, tree => (decodeBytes libraries tree).map .bytes
  | .uuid, tree => do
      (decodeScalar mode tree "uuid" (parseUuid libraries) libraries.uuidText
        (← expectString "uuid" tree)).map .uuid
  | .date, tree => do
      (decodeScalar mode tree "date" (parseDate libraries) libraries.dateText
        (← expectString "date" tree)).map .date
  | .timestamp precision, tree => do
      (decodeScalar mode tree "timestamp" (parseTimestamp precision)
        (fun timestamp => integerText timestamp.count.val) (← numericText "timestamp" tree)).map .timestamp
  | .duration, tree => do
      (decodeScalar mode tree "duration" Duration.parse Duration.toCanonicalText
        (← expectString "duration" tree)).map .duration
  | .period, tree => (decodePeriod mode tree).map .period
  | .json, tree => (Document.fromWire libraries tree).map .json
  | .blob, tree => (decodeBlob libraries mode tree).map .blob
  | .enum labels, tree => do (decodeEnum labels (← expectString "enum" tree)).map .enum
  | .optional inner, tree => if tree.isNull ∧ ¬ isJson inner then .ok .none else decodeAs inner tree
  | .set inner, tree => do
      let members ← (← expectArray "set" tree).mapM fun item => decodeAs inner item
      pure (setOf members)
  | .map key value, tree => do
      let entries ← (← expectArray "map" tree).mapM
        (decodeEntry (fun first => decodeAs key first) fun second => decodeAs value second)
      pure (mapOf entries)
  | .ref target, tree => (decodeRef target tree).map .ref
  | .struct fields, tree => do
      let members ← expectObject "struct" tree
      match unexpected fields members with
      | some member => .error (.unexpectedMember member.1)
      | none => (decodeFields fields members).map structOf
  | .composite components, tree =>
    (decodeComposite components (fun items => decodePositional components items)
      (fun members => decodeNamed components members) tree).map .composite
  | .view _, tree => .error (mismatch "view" .null tree)
termination_by structural type => type

def decodeRef : RefTarget → J → Except ValueError RefKey
  | .scalar inner, tree => (decodeAs inner tree).map .scalar
  | .composite components, tree =>
    (decodeComposite components (fun items => decodePositional components items)
      (fun members => decodeNamed components members) tree).map .composite
termination_by structural target => target

def decodePositional : List (String × FieldType) → List J → Except ValueError (List Value)
  | [], _ => .ok []
  | _ :: _, [] => .ok []
  | component :: rest, item :: items => do
      let first ← decodeComponent component item
      let others ← decodePositional rest items
      pure (first :: others)
termination_by structural components => components

/-- The null of an optional component is its absence. -/
def decodeComponent : String × FieldType → J → Except ValueError Value
  | (_, type), item => if isOptional type ∧ item.isNull then .ok .none else decodeAs type item
termination_by structural component => component

def decodeNamed : List (String × FieldType) → List (String × J) → Except ValueError (List Value)
  | [], _ => .ok []
  | component :: rest, members => do
      let first ← decodeNamedComponent component members
      let others ← decodeNamed rest members
      pure (first :: others)
termination_by structural components => components

def decodeNamedComponent : String × FieldType → List (String × J) → Except ValueError Value
  | (name, type), members =>
    match J.get members name with
    | some item => if isOptional type ∧ item.isNull then .ok .none else decodeAs type item
    | none => if isOptional type then .ok .none else .error (.missingMember name)
termination_by structural component => component

def decodeFields : List (String × FieldType) → List (String × J) →
    Except ValueError (List (String × Value))
  | [], _ => .ok []
  | field :: rest, members => do
      let first ← decodeField field members
      let others ← decodeFields rest members
      pure (first :: others)
termination_by structural fields => fields

/-- An absent optional field is absent. -/
def decodeField : String × FieldType → List (String × J) → Except ValueError (String × Value)
  | (name, type), members =>
    match J.get members name with
    | some member => (decodeAs type member).map fun value => (name, value)
    | none => if isOptional type then .ok (name, .none) else .error (.missingMember name)
termination_by structural field => field

end

end Containers

end Liasse.Wire

/-
This file models the tagged form in which the database keeps a value, and the decoder that reads it back.
-/

import Liasse.Value.Normal
import Liasse.Wire.Calendar
import Liasse.Wire.Document

namespace Liasse.Pg.Codec

open Wire

/-- A stored value is corrupt, or the text of a scalar is malformed. -/
inductive Corruption
  | corrupt (detail : String)
  | malformed (error : ValueError)
deriving DecidableEq

section Access

/-- The object of a tag. -/
def tag (name : String) (payload : J) : J :=
  .object [(name, payload)]

def asObject : J → Except Corruption (List (String × J))
  | .object members => .ok members
  | _ => .error (.corrupt "expected a JSON object")

def asArray : J → Except Corruption (List J)
  | .array items => .ok items
  | _ => .error (.corrupt "expected a JSON array")

def asStr : J → Except Corruption String
  | .string text => .ok text
  | _ => .error (.corrupt "expected a JSON string")

def asBool : J → Except Corruption Bool
  | .bool flag => .ok flag
  | _ => .error (.corrupt "expected a JSON bool")

/-- The text of an optional string. -/
def str? : Option J → Option String
  | some (.string text) => some text
  | _ => none

/-- A result that is there, or a corruption. -/
def orCorrupt {α : Type} (detail : String) : Option α → Except Corruption α
  | some value => .ok value
  | none => .error (.corrupt detail)

/-- The errors of a parse are malformed values. -/
def orMalformed {α : Type} : Except ValueError α → Except Corruption α :=
  Except.mapError .malformed

def asI128 (tree : J) : Except Corruption (Signed 128) := do
  orCorrupt "expected an i128 string" (parseSigned 128 (← asStr tree))

def member (members : List (String × J)) (key : String) : Except Corruption J :=
  orCorrupt ("missing member `" ++ key ++ "`") (J.get members key)

def memberStr (members : List (String × J)) (key : String) : Except Corruption String := do
  asStr (← member members key)

def memberI64 (members : List (String × J)) (key : String) : Except Corruption (Signed 64) := do
  orCorrupt ("member `" ++ key ++ "` is not an i64") (asI64 (← member members key))

end Access

section Scalars

/-- A fixed period has its nanoseconds, and a calendar period has its members. -/
def encodePeriod : Period → J
  | .fixed nanos => .array [.string "f", .string (integerText nanos.val)]
  | .calendar period =>
    .array [.string "c", .object ([
      ("years", .number (integerText period.years.val)),
      ("months", .number (integerText period.months.val)),
      ("weeks", .number (integerText period.weeks.val)),
      ("days", .number (integerText period.days.val)),
      ("time", .string (integerText period.time.val)),
      ("overflow", .string (overflowKeyword period.overflow)),
      ("ambiguous", .string (ambiguousKeyword period.ambiguous)),
      ("missing", .string (missingKeyword period.missing))] ++
        (period.zone.map fun zone => ("zone", J.string zone)).toList)]

def decodeCalendar (body : J) : Except Corruption CalendarPeriod := do
  let members ← asObject body
  let years ← memberI64 members "years"
  let months ← memberI64 members "months"
  let weeks ← memberI64 members "weeks"
  let days ← memberI64 members "days"
  let time ← asI128 (← member members "time")
  let overflow ← orMalformed (parseOverflow (← memberStr members "overflow"))
  let ambiguous ← orMalformed (parseAmbiguous (← memberStr members "ambiguous"))
  let missing ← orMalformed (parseMissing (← memberStr members "missing"))
  orMalformed (buildCalendar
    ⟨years, months, weeks, days, time, str? (J.get members "zone"), overflow, ambiguous, missing⟩)

def decodePeriod (payload : J) : Except Corruption Period := do
  let items ← asArray payload
  let kind ← orCorrupt "period missing kind" (str? items.head?)
  let body ← orCorrupt "period missing body" items[1]?
  if kind = "f" then
    let nanos ← asI128 body
    pure (.fixed nanos)
  else if kind = "c" then
    let period ← decodeCalendar body
    pure (.calendar period)
  else .error (.corrupt ("unknown period kind `" ++ kind ++ "`"))

def encodeBlob (libraries : Libraries) (descriptor : BlobDescriptor) : J :=
  .object ([
    ("sha512", .string (libraries.toHex descriptor.sha512.bytes)),
    ("bytes", .string (integerText descriptor.byteCount.toNat)),
    ("media", .string descriptor.media)] ++
      (descriptor.name.map fun name => ("name", J.string name)).toList)

def decodeBlob (libraries : Libraries) (payload : J) : Except Corruption BlobDescriptor := do
  let members ← asObject payload
  let sha512 ← orMalformed (parseSha512 libraries (← memberStr members "sha512"))
  let bytes ← orCorrupt "blob byte count is not a u64" (parseUnsigned (← memberStr members "bytes"))
  let media ← memberStr members "media"
  pure ⟨sha512, bytes, media, str? (J.get members "name")⟩

def encodeEnum (value : EnumValue) : J :=
  .array [.number (integerText value.ordinal.toNat), .string value.label]

/-- A JSON number as an ordinal of 32 bits. -/
def asOrdinal : Option J → Option UInt32
  | some (.number text) =>
    match parseUnsigned text with
    | none => none
    | some number => if number.toNat < 2 ^ 32 then some number.toUInt32 else none
  | _ => none

def decodeEnum (payload : J) : Except Corruption EnumValue := do
  let items ← asArray payload
  let ordinal ← orCorrupt "enum ordinal is not a u32" (asOrdinal items.head?)
  let label ← orCorrupt "enum missing label" (str? items[1]?)
  pure ⟨ordinal, label⟩

def encodeTimestamp (timestamp : Timestamp) : J :=
  .array [.string (integerText timestamp.count.val), .string timestamp.precision.keyword]

def decodeTimestamp (payload : J) : Except Corruption Timestamp := do
  let items ← asArray payload
  let text ← orCorrupt "timestamp missing count" (str? items.head?)
  let count ← orCorrupt "timestamp count is not an i128" (parseSigned 128 text)
  let keyword ← orCorrupt "timestamp precision" (str? items[1]?)
  let precision ← orCorrupt "unknown timestamp precision" (Precision.parse keyword)
  pure ⟨count, precision⟩

/-- A parse of a library, or its error. -/
def parsed {α : Type} (error : ValueError) : Option α → Except Corruption α
  | some value => .ok value
  | none => .error (.malformed error)

end Scalars

section Encoding

variable (libraries : Libraries)

mutual

/-- The tagged form of a value. -/
def encode : Value → J
  | .text text => tag "s" (.string text)
  | .bool flag => tag "b" (.bool flag)
  | .int integer => tag "i" (.string (integerText integer))
  | .decimal decimal => tag "d" (.string (Decimal.toCanonicalText decimal))
  | .bytes bytes => tag "y" (.string (libraries.toBase64 bytes))
  | .uuid uuid => tag "u" (.string (libraries.uuidText uuid))
  | .date date => tag "date" (.string (libraries.dateText date))
  | .timestamp timestamp => tag "ts" (encodeTimestamp timestamp)
  | .duration nanos => tag "dur" (.string (integerText nanos.val))
  | .period period => tag "per" (encodePeriod period)
  | .json json => tag "j" (Document.toWire json)
  | .blob blob => tag "blob" (encodeBlob libraries blob)
  | .enum value => tag "enum" (encodeEnum value)
  | .ref key => tag "ref" (encodeRef key)
  | .struct fields => tag "st" (.array (encodeFields fields))
  | .composite components => tag "comp" (.array (encodeList components))
  | .set members => tag "set" (.array (encodeList members))
  | .map entries => tag "map" (.array (encodeEntries entries))
  | .none => tag "none" (.bool true)
termination_by structural value => value

def encodeRef : RefKey → J
  | .scalar value => .object [("scalar", encode value)]
  | .composite components => .object [("composite", .array (encodeList components))]
termination_by structural key => key

def encodeList : List Value → List J
  | [] => []
  | value :: rest => encode value :: encodeList rest
termination_by structural values => values

def encodeFields : List (String × Value) → List J
  | [] => []
  | field :: rest => encodeField field :: encodeFields rest
termination_by structural fields => fields

def encodeField : String × Value → J
  | (name, value) => .array [.string name, encode value]
termination_by structural field => field

def encodeEntries : List (Value × Value) → List J
  | [] => []
  | entry :: rest => encodeEntry entry :: encodeEntries rest
termination_by structural entries => entries

def encodeEntry : Value × Value → J
  | (key, value) => .array [encode key, encode value]
termination_by structural entry => entry

end

end Encoding

section Decoding

variable (libraries : Libraries)

mutual

/-- The value of a tagged form. -/
def decode : J → Except Corruption Value
  | .object [member] => decodeTagged member
  | .object _ => .error (.corrupt "a tagged value must be a single-member object")
  | _ => .error (.corrupt "expected a JSON object")
termination_by structural tree => tree

def decodeTagged : String × J → Except Corruption Value
  | (tag, payload) =>
    if tag = "s" then (asStr payload).map .text
    else if tag = "b" then (asBool payload).map .bool
    else if tag = "i" then do
      let text ← asStr payload
      (parsed (.malformedInt text) (libraries.parseBigInt text)).map .int
    else if tag = "d" then do
      (orMalformed (Decimal.parse libraries (← asStr payload))).map .decimal
    else if tag = "y" then do
      (orMalformed ((libraries.fromBase64 (← asStr payload)).mapError .malformedBase64)).map .bytes
    else if tag = "u" then do
      let text ← asStr payload
      (parsed (.malformedUuid text) (libraries.parseUuid text)).map .uuid
    else if tag = "date" then do
      let text ← asStr payload
      (parsed (.malformedDate text) (libraries.parseDate text)).map .date
    else if tag = "ts" then (decodeTimestamp payload).map .timestamp
    else if tag = "dur" then (asI128 payload).map .duration
    else if tag = "per" then (decodePeriod payload).map .period
    else if tag = "j" then (orMalformed (Document.fromWire libraries payload)).map .json
    else if tag = "blob" then (decodeBlob libraries payload).map .blob
    else if tag = "enum" then (decodeEnum payload).map .enum
    else if tag = "ref" then (decodeRef payload).map .ref
    else if tag = "st" then
      (decodeStruct payload).map fun fields => .struct (Codes.collectSorted Value.compareName fields)
    else if tag = "comp" then (decodeSeq payload).map .composite
    else if tag = "set" then
      (decodeSeq payload).map fun members =>
        .set (Codes.collectMerged Value.cmp (fun kept _ => kept) (members.filter Value.present))
    else if tag = "map" then
      (decodeMap payload).map fun entries =>
        .map (Codes.collectMerged Value.compareKey (fun kept added => (kept.1, added.2))
          entries.reduceOption)
    else if tag = "none" then .ok .none
    else .error (.corrupt ("unknown value tag `" ++ tag ++ "`"))
termination_by structural member => member

def decodeRef : J → Except Corruption RefKey
  | .object members =>
    match (decodeMembers members).lookup "scalar" with
    | some scalar => scalar.map .scalar
    | none =>
      match (decodeSeqMembers members).lookup "composite" with
      | some components => components.map .composite
      | none => .error (.corrupt "ref missing key")
  | _ => .error (.corrupt "expected a JSON object")
termination_by structural tree => tree

def decodeMembers : List (String × J) → List (String × Except Corruption Value)
  | [] => []
  | member :: rest => decodeMember member :: decodeMembers rest
termination_by structural members => members

def decodeMember : String × J → String × Except Corruption Value
  | (name, tree) => (name, decode tree)
termination_by structural member => member

def decodeSeqMembers : List (String × J) → List (String × Except Corruption (List Value))
  | [] => []
  | member :: rest => decodeSeqMember member :: decodeSeqMembers rest
termination_by structural members => members

def decodeSeqMember : String × J → String × Except Corruption (List Value)
  | (name, tree) => (name, decodeSeq tree)
termination_by structural member => member

def decodeSeq : J → Except Corruption (List Value)
  | .array items => decodeItems items
  | _ => .error (.corrupt "expected a JSON array")
termination_by structural tree => tree

def decodeItems : List J → Except Corruption (List Value)
  | [] => .ok []
  | item :: rest => do
      let first ← decode item
      let others ← decodeItems rest
      pure (first :: others)
termination_by structural items => items

def decodeStruct : J → Except Corruption (List (String × Value))
  | .array items => decodeFields items
  | _ => .error (.corrupt "expected a JSON array")
termination_by structural tree => tree

def decodeFields : List J → Except Corruption (List (String × Value))
  | [] => .ok []
  | item :: rest => do
      let first ← decodeField item
      let others ← decodeFields rest
      pure (first :: others)
termination_by structural items => items

def decodeField : J → Except Corruption (String × Value)
  | .array (.string name :: value :: _) => do
      let decoded ← decode value
      pure (name, decoded)
  | .array [.string _] => .error (.corrupt "struct field value")
  | .array _ => .error (.corrupt "struct field name")
  | _ => .error (.corrupt "expected a JSON array")
termination_by structural tree => tree

def decodeMap : J → Except Corruption (List (Option (Value × Value)))
  | .array items => decodeEntries items
  | _ => .error (.corrupt "expected a JSON array")
termination_by structural tree => tree

def decodeEntries : List J → Except Corruption (List (Option (Value × Value)))
  | [] => .ok []
  | item :: rest => do
      let first ← decodeEntry item
      let others ← decodeEntries rest
      pure (first :: others)
termination_by structural items => items

def decodeEntry : J → Except Corruption (Option (Value × Value))
  | .array (key :: value :: _) => do
      let decoded ← decode value
      if decoded.present then
        let key ← decode key
        pure (some (key, decoded))
      else pure none
  | .array [_] => .error (.corrupt "map entry value")
  | .array [] => .error (.corrupt "map entry key")
  | _ => .error (.corrupt "expected a JSON array")
termination_by structural tree => tree

end

end Decoding

end Liasse.Pg.Codec

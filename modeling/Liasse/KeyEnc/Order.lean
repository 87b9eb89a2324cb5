/-
This file models the order-preserving key codec, whose bytes have the order of the keys.
-/

import Liasse.KeyEnc.Decimal

namespace Liasse.KeyEnc

/-- The marker before each item of a framed sequence. -/
def seqItem : UInt8 := 1

/-- The terminator after the last item of a framed sequence. -/
def seqStop : UInt8 := 0

def putEscaped (payload : List UInt8) : List UInt8 :=
  Codes.escaped 0 0xFF payload

section Hexadecimal

def hexDigit (nibble : Nat) : Char :=
  if nibble < 10 then Char.ofNat (48 + nibble) else Char.ofNat (87 + nibble)

def hexValue (digit : Char) : Option Nat :=
  if 48 ≤ digit.toNat ∧ digit.toNat < 58 then some (digit.toNat - 48)
  else if 97 ≤ digit.toNat ∧ digit.toNat < 103 then some (digit.toNat - 87)
  else none

/-- The lowercase hexadecimal text of some bytes. -/
def hexEncode (bytes : List UInt8) : List Char :=
  bytes.flatMap fun byte => [hexDigit (byte.toNat / 16), hexDigit (byte.toNat % 16)]

/-- The bytes of a lowercase hexadecimal text. -/
def hexDecode : List Char → Option (List UInt8)
  | [] => some []
  | [_] => none
  | high :: low :: rest =>
    match hexValue high, hexValue low, hexDecode rest with
    | some highValue, some lowValue, some bytes =>
      some (UInt8.ofNat (highValue * 16 + lowValue) :: bytes)
    | _, _, _ => none

/-- The hyphenated text of an identifier. -/
def uuidText (uuid : Uuid) : List Char :=
  hexEncode (uuid.bytes.take 4) ++ '-' :: hexEncode ((uuid.bytes.drop 4).take 2) ++
    '-' :: hexEncode ((uuid.bytes.drop 6).take 2) ++ '-' :: hexEncode ((uuid.bytes.drop 8).take 2) ++
    '-' :: hexEncode (uuid.bytes.drop 10)

end Hexadecimal

/-- The bytes of an identifier are read back from its text without the hyphens. -/
def putUuid (uuid : Uuid) : List UInt8 :=
  match hexDecode ((uuidText uuid).filter (· != '-')) with
  | some bytes => bytes
  | none => List.replicate 16 0

/-- The year of a date as a 32-bit integer. -/
def yearI32 (date : Date) : Signed 32 where
  val := date.year
  low := by
    have low := date.yearLow
    omega
  high := by
    have high := date.yearHigh
    omega

def putDate (date : Date) : List UInt8 :=
  writeObI32 (yearI32 date) ++ [UInt8.ofNat date.month, UInt8.ofNat date.day]

/-- The whole seconds of a timestamp as a 128-bit integer. -/
def secondsI128 (timestamp : Timestamp) : Signed 128 where
  val := timestamp.secondsAndSubnanos.1
  low := by
    obtain ⟨⟨count, low, high⟩, precision⟩ := timestamp
    cases precision <;> simp only [Timestamp.secondsAndSubnanos, Precision.ticksPerSecond] <;> omega
  high := by
    obtain ⟨⟨count, low, high⟩, precision⟩ := timestamp
    cases precision <;> simp only [Timestamp.secondsAndSubnanos, Precision.ticksPerSecond] <;> omega

def putTimestamp (timestamp : Timestamp) : List UInt8 :=
  writeObI128 (secondsI128 timestamp) ++
    toBeBytes 4 (min timestamp.secondsAndSubnanos.2.toNat (2 ^ 32 - 1))

def putEnum (value : EnumValue) : List UInt8 :=
  toBeBytes 4 value.ordinal.toNat ++ putEscaped (textBytes value.label)

def overflowRank : Overflow → UInt8
  | .clamp => 0
  | .reject => 1

def ambiguousRank : Ambiguous → UInt8
  | .earlier => 0
  | .later => 1
  | .reject => 2

def missingRank : Missing → UInt8
  | .forward => 0
  | .backward => 1
  | .reject => 2

/-- A present optional text takes the low tag and an absent one takes the high tag. -/
def putOptional : Option String → List UInt8
  | some text => 0 :: putEscaped (textBytes text)
  | none => [1]

def putPeriod : Period → List UInt8
  | .fixed nanos => 0 :: writeObI128 nanos
  | .calendar calendar =>
    1 :: (writeObI64 calendar.years ++ (writeObI64 calendar.months ++
      (writeObI64 calendar.weeks ++ (writeObI64 calendar.days ++
      (writeObI128 calendar.time ++ (putOptional calendar.zone ++
      [overflowRank calendar.overflow, ambiguousRank calendar.ambiguous,
        missingRank calendar.missing]))))))

def putBlob (value : BlobDescriptor) : List UInt8 :=
  let hash := match hexDecode (hexEncode value.sha512.bytes) with
    | some bytes => bytes
    | none => List.replicate 64 0
  hash ++ (toBeBytes 8 value.byteCount.toNat ++
    (putEscaped (textBytes value.media) ++ putOptional value.name))

mutual

def putJson : Json → List UInt8
  | .null => [0]
  | .bool flag => [1, flag.toUInt8]
  | .number number => 2 :: putNumber number
  | .string text => 3 :: putEscaped (textBytes text)
  | .array items => 4 :: putItems items
  | .object members => 5 :: putMembers members
termination_by structural json => json

def putItems : List Json → List UInt8
  | [] => [seqStop]
  | item :: rest => seqItem :: putJson item ++ putItems rest
termination_by structural items => items

def putMembers : List (String × Json) → List UInt8
  | [] => [seqStop]
  | member :: rest => seqItem :: putMember member ++ putMembers rest
termination_by structural members => members

def putMember : String × Json → List UInt8
  | (name, json) => putEscaped (textBytes name) ++ putJson json
termination_by structural member => member

end

mutual

/-- The unit of a canonical value: its rank, then its order-preserving body. -/
def put : Value → List UInt8
  | .bool flag => [0x00, flag.toUInt8]
  | .int integer => 0x01 :: writeInt integer
  | .decimal decimal => 0x02 :: putNumber decimal
  | .text text => 0x03 :: putEscaped (textBytes text)
  | .bytes bytes => 0x04 :: putEscaped bytes
  | .uuid uuid => 0x05 :: putUuid uuid
  | .date date => 0x06 :: putDate date
  | .timestamp timestamp => 0x07 :: putTimestamp timestamp
  | .duration nanos => 0x08 :: writeObI128 nanos
  | .period period => 0x09 :: putPeriod period
  | .enum value => 0x0A :: putEnum value
  | .ref key => 0x0B :: putRef key
  | .json json => 0x0C :: putJson json
  | .blob blob => 0x0D :: putBlob blob
  | .struct fields => 0x0E :: putFields fields
  | .set members => 0x0F :: putSequence members
  | .map entries => 0x10 :: putEntries entries
  | .composite components => 0x11 :: putSequence components
  | .none => [0xFF]
termination_by structural value => value

def putRef : RefKey → List UInt8
  | .scalar key => 0x00 :: put key
  | .composite components => 0x01 :: putSequence components
termination_by structural key => key

/-- The framed members of a set, or the framed components of a key. -/
def putSequence : List Value → List UInt8
  | [] => [seqStop]
  | member :: rest => seqItem :: put member ++ putSequence rest
termination_by structural members => members

def putFields : List (String × Value) → List UInt8
  | [] => [seqStop]
  | field :: rest => seqItem :: putField field ++ putFields rest
termination_by structural fields => fields

def putField : String × Value → List UInt8
  | (name, value) => putEscaped (textBytes name) ++ put value
termination_by structural field => field

def putEntries : List (Value × Value) → List UInt8
  | [] => [seqStop]
  | entry :: rest => seqItem :: putEntry entry ++ putEntries rest
termination_by structural entries => entries

def putEntry : Value × Value → List UInt8
  | (key, value) => put key ++ put value
termination_by structural entry => entry

end

section Canonical

def coarserPrecision : Precision → Option Precision
  | .nanos => some .micros
  | .micros => some .millis
  | .millis => some .seconds
  | .seconds => none

/-- The count of coarser precisions. -/
def coarserSteps : Precision → Nat
  | .seconds => 0
  | .millis => 1
  | .micros => 2
  | .nanos => 3

/-- One thousandth of a count that is a multiple of one thousand. -/
def thousandth (count : Signed 128) : Signed 128 where
  val := count.val / 1000
  low := by
    have low := count.low
    omega
  high := by
    have high := count.high
    omega

/-- The loop that takes the next coarser precision while the count stays exact. -/
def coarsen : Nat → Timestamp → Timestamp
  | 0, timestamp => timestamp
  | steps + 1, timestamp =>
    match coarserPrecision timestamp.precision with
    | none => timestamp
    | some coarser =>
      if timestamp.count.val % 1000 = 0 then coarsen steps ⟨thousandth timestamp.count, coarser⟩
      else timestamp

/-- The coarsest timestamp of the same instant. The precisions bound the count of steps. -/
def canonicalTimestamp (timestamp : Timestamp) : Timestamp :=
  coarsen (coarserSteps timestamp.precision) timestamp

mutual

/-- The canonical representative of a key value. -/
def canonicalKey : Value → Value
  | .decimal decimal => .decimal decimal.normalized
  | .timestamp timestamp => .timestamp (canonicalTimestamp timestamp)
  | .ref key => .ref (canonicalRef key)
  | .struct fields => .struct (Codes.collectSorted Value.compareName (canonicalFields fields))
  | .composite components => .composite (canonicalList components)
  | .set members => .set (Codes.collectSorted Value.cmp (canonicalList members))
  | .map entries => .map (Codes.collectSorted Value.compareKey (canonicalEntries entries))
  | .text text => .text text
  | .bool flag => .bool flag
  | .int integer => .int integer
  | .bytes bytes => .bytes bytes
  | .uuid uuid => .uuid uuid
  | .date date => .date date
  | .duration nanos => .duration nanos
  | .period period => .period period
  | .json json => .json json
  | .blob blob => .blob blob
  | .enum value => .enum value
  | .none => .none
termination_by structural value => value

def canonicalRef : RefKey → RefKey
  | .scalar key => .scalar (canonicalKey key)
  | .composite components => .composite (canonicalList components)
termination_by structural key => key

def canonicalList : List Value → List Value
  | [] => []
  | member :: rest => canonicalKey member :: canonicalList rest
termination_by structural members => members

def canonicalFields : List (String × Value) → List (String × Value)
  | [] => []
  | field :: rest => canonicalField field :: canonicalFields rest
termination_by structural fields => fields

def canonicalField : String × Value → String × Value
  | (name, value) => (name, canonicalKey value)
termination_by structural field => field

def canonicalEntries : List (Value × Value) → List (Value × Value)
  | [] => []
  | entry :: rest => canonicalEntry entry :: canonicalEntries rest
termination_by structural entries => entries

def canonicalEntry : Value × Value → Value × Value
  | (key, value) => (canonicalKey key, canonicalKey value)
termination_by structural entry => entry

end

end Canonical

/-- The bytes of one value. -/
def encodeValue (value : Value) : List UInt8 :=
  put (canonicalKey value)

/-- The bytes of a whole key are the units of its components. -/
def encodeKeyValue (key : KeyValue) : List UInt8 :=
  key.components.flatMap encodeValue

end Liasse.KeyEnc

namespace Liasse.KeyEnc

open Codes

section Scalars

theorem hexValue_hexDigit : ∀ nibble < 16, hexValue (hexDigit nibble) = some nibble := by
  decide

theorem hexDigit_ne_hyphen : ∀ nibble < 16, hexDigit nibble ≠ '-' := by
  decide

/-- The decoder reads the bytes back from their text. -/
theorem hexDecode_hexEncode (bytes : List UInt8) : hexDecode (hexEncode bytes) = some bytes := by
  induction bytes with
  | nil => rfl
  | cons byte rest ih =>
    have bound := byte.toNat_lt
    have whole : byte.toNat / 16 * 16 + byte.toNat % 16 = byte.toNat := by omega
    change hexDecode (hexDigit (byte.toNat / 16) :: hexDigit (byte.toNat % 16) ::
      hexEncode rest) = _
    rw [hexDecode, hexValue_hexDigit _ (by omega), hexValue_hexDigit _ (by omega), ih]
    simp only [whole, UInt8.ofNat_toNat]

theorem hexEncode_append (left right : List UInt8) :
    hexEncode (left ++ right) = hexEncode left ++ hexEncode right :=
  List.flatMap_append

theorem hexEncode_filter (bytes : List UInt8) :
    (hexEncode bytes).filter (· != '-') = hexEncode bytes := by
  apply List.filter_eq_self.mpr
  intro digit inside
  obtain ⟨byte, _, member⟩ := List.mem_flatMap.mp inside
  have bound := byte.toNat_lt
  have different : digit ≠ '-' := by
    rcases List.mem_cons.mp member with rfl | low
    · exact hexDigit_ne_hyphen _ (by omega)
    · rw [List.mem_singleton.mp low]
      exact hexDigit_ne_hyphen _ (by omega)
  exact bne_iff_ne.mpr different

/-- The five groups of an identifier are its bytes. -/
theorem uuidGroups (bytes : List UInt8) :
    bytes.take 4 ++ (bytes.drop 4).take 2 ++ (bytes.drop 6).take 2 ++ (bytes.drop 8).take 2 ++
      bytes.drop 10 = bytes := by
  have last := List.take_append_drop 2 (bytes.drop 8)
  have third := List.take_append_drop 2 (bytes.drop 6)
  have second := List.take_append_drop 2 (bytes.drop 4)
  rw [List.drop_drop] at last third second
  simp only [List.append_assoc]
  rw [last, third, second, List.take_append_drop]

/-- The bytes of an identifier are its own bytes. -/
theorem putUuid_eq (uuid : Uuid) : putUuid uuid = uuid.bytes := by
  have text : (uuidText uuid).filter (· != '-') = hexEncode uuid.bytes := by
    simp only [uuidText, List.filter_append, List.filter_cons, hexEncode_filter, bne_self_eq_false,
      Bool.false_eq_true, if_false, ← hexEncode_append]
    rw [uuidGroups]
  rw [putUuid, text, hexDecode_hexEncode]

theorem putEscaped_separates (left right : List UInt8) :
    Separates (putEscaped left) (putEscaped right) (compare left right) := by
  apply escaped_separates
  · intro other nonzero
    rw [compare_toNat]
    apply compare_lt_iff_lt.mpr
    exact Nat.pos_of_ne_zero fun zero => nonzero (UInt8.toNat_inj.mp zero)
  · decide

theorem putText_separates (left right : String) :
    Separates (putEscaped (textBytes left)) (putEscaped (textBytes right))
      (compareText left right) :=
  putEscaped_separates _ _

theorem putOptional_separates (left right : Option String) :
    Separates (putOptional left) (putOptional right) (cmpOptionalNoneLast compareText left right) := by
  cases left with
  | none =>
    cases right with
    | none => exact .refl _
    | some text => exact .ofHead rfl (by decide) _ _
  | some text =>
    cases right with
    | none => exact .ofHead rfl (by decide) _ _
    | some other => exact .cons _ (putText_separates _ _)

theorem putDate_separates (first second : Date) :
    Separates (putDate first) (putDate second) (first.cmp second) := by
  have byte : ∀ {left right : Nat}, left < 256 → right < 256 →
      Separates [UInt8.ofNat left] [UInt8.ofNat right] (compare left right) := by
    intro left right leftByte rightByte
    rw [← compareBytes leftByte rightByte]
    exact .singleton _ _
  have firstMonth := first.monthRange
  have firstDay := first.dayRange
  have secondMonth := second.monthRange
  have secondDay := second.dayRange
  apply Separates.append
  · exact offsetBinary_separates 3 (yearI32 first) (yearI32 second)
  · exact (byte (by omega) (by omega)).append (byte (by omega) (by omega))

theorem subnanos_bounds (timestamp : Timestamp) :
    0 ≤ timestamp.secondsAndSubnanos.2 ∧ timestamp.secondsAndSubnanos.2 < 1000000000 := by
  obtain ⟨count, precision⟩ := timestamp
  cases precision <;> simp only [Timestamp.secondsAndSubnanos, Precision.ticksPerSecond] <;> omega

theorem putTimestamp_separates (first second : Timestamp) :
    Separates (putTimestamp first) (putTimestamp second) (first.cmp second) := by
  have firstBounds := subnanos_bounds first
  have secondBounds := subnanos_bounds second
  apply Separates.append
  · exact offsetBinary_separates 15 (secondsI128 first) (secondsI128 second)
  · have order : compare first.secondsAndSubnanos.2 second.secondsAndSubnanos.2 =
        compare (min first.secondsAndSubnanos.2.toNat (2 ^ 32 - 1))
          (min second.secondsAndSubnanos.2.toNat (2 ^ 32 - 1)) := by
      apply compareTransfer <;> omega
    rw [order]
    exact toBeBytes_separates 4 (by omega) (by omega)

theorem putEnum_separates (first second : EnumValue) :
    Separates (putEnum first) (putEnum second) (first.cmp second) := by
  apply Separates.append _ (putText_separates _ _)
  have order : compare first.ordinal second.ordinal =
      compare first.ordinal.toNat second.ordinal.toNat := by
    change compareOfLessAndEq _ _ = compareOfLessAndEq _ _
    simp only [compareOfLessAndEq, UInt32.lt_iff_toNat_lt, ← UInt32.toNat_inj]
  rw [order]
  exact toBeBytes_separates 4 first.ordinal.toNat_lt second.ordinal.toNat_lt

theorem putCalendar_policies_separates (first second : CalendarPeriod) :
    Separates
      [overflowRank first.overflow, ambiguousRank first.ambiguous, missingRank first.missing]
      [overflowRank second.overflow, ambiguousRank second.ambiguous, missingRank second.missing]
      ((compare first.overflow.ctorIdx second.overflow.ctorIdx).then <|
        (compare first.ambiguous.ctorIdx second.ambiguous.ctorIdx).then <|
        compare first.missing.ctorIdx second.missing.ctorIdx) := by
  have overflow : ∀ left right : Overflow,
      compare left.ctorIdx right.ctorIdx = compare (overflowRank left) (overflowRank right) := by
    intro left right
    cases left <;> cases right <;> rfl
  have ambiguous : ∀ left right : Ambiguous,
      compare left.ctorIdx right.ctorIdx = compare (ambiguousRank left) (ambiguousRank right) := by
    intro left right
    cases left <;> cases right <;> rfl
  have missing : ∀ left right : Missing,
      compare left.ctorIdx right.ctorIdx = compare (missingRank left) (missingRank right) := by
    intro left right
    cases left <;> cases right <;> rfl
  rw [overflow, ambiguous, missing]
  exact (Separates.singleton _ _).append ((Separates.singleton _ _).append (.singleton _ _))

theorem putPeriod_separates (first second : Period) :
    Separates (putPeriod first) (putPeriod second) (first.cmp second) := by
  cases first with
  | fixed nanos =>
    cases second with
    | fixed others => exact .cons _ (offsetBinary_separates 15 _ _)
    | calendar other => exact .ofHead rfl (by decide) _ _
  | calendar calendar =>
    cases second with
    | fixed others => exact .ofHead rfl (by decide) _ _
    | calendar other =>
      apply Separates.cons
      apply Separates.append (offsetBinary_separates 7 _ _)
      apply Separates.append (offsetBinary_separates 7 _ _)
      apply Separates.append (offsetBinary_separates 7 _ _)
      apply Separates.append (offsetBinary_separates 7 _ _)
      apply Separates.append (offsetBinary_separates 15 _ _)
      apply Separates.append (putOptional_separates _ _)
      exact putCalendar_policies_separates _ _

theorem putBlob_separates (first second : BlobDescriptor) :
    Separates (putBlob first) (putBlob second) (first.cmp second) := by
  simp only [putBlob, hexDecode_hexEncode]
  apply Separates.append
  · exact separatesOfLength (first.sha512.size.trans second.sha512.size.symm)
  apply Separates.append _ ((putText_separates _ _).append (putOptional_separates _ _))
  have order : compare first.byteCount second.byteCount =
      compare first.byteCount.toNat second.byteCount.toNat := by
    change compareOfLessAndEq _ _ = compareOfLessAndEq _ _
    simp only [compareOfLessAndEq, UInt64.lt_iff_toNat_lt, ← UInt64.toNat_inj]
  rw [order]
  exact toBeBytes_separates 8 first.byteCount.toNat_lt second.byteCount.toNat_lt

theorem putBool_separates (first second : Bool) :
    Separates [first.toUInt8] [second.toUInt8] (compare first second) := by
  have order : compare first second = compare first.toUInt8 second.toUInt8 := by
    cases first <;> cases second <;> rfl
  rw [order]
  exact .singleton _ _

end Scalars

section Sequences

@[simp] theorem putItems_eq (items : List Json) :
    putItems items = framed seqItem seqStop (items.map putJson) := by
  induction items with
  | nil => rfl
  | cons item rest ih => rw [putItems, ih, List.map_cons, framed_cons]

@[simp] theorem putMembers_eq (members : List (String × Json)) :
    putMembers members = framed seqItem seqStop (members.map putMember) := by
  induction members with
  | nil => rfl
  | cons member rest ih => rw [putMembers, ih, List.map_cons, framed_cons]

@[simp] theorem putSequence_eq (members : List Value) :
    putSequence members = framed seqItem seqStop (members.map put) := by
  induction members with
  | nil => rfl
  | cons member rest ih => rw [putSequence, ih, List.map_cons, framed_cons]

@[simp] theorem putFields_eq (fields : List (String × Value)) :
    putFields fields = framed seqItem seqStop (fields.map putField) := by
  induction fields with
  | nil => rfl
  | cons field rest ih => rw [putFields, ih, List.map_cons, framed_cons]

@[simp] theorem putEntries_eq (entries : List (Value × Value)) :
    putEntries entries = framed seqItem seqStop (entries.map putEntry) := by
  induction entries with
  | nil => rfl
  | cons entry rest ih => rw [putEntries, ih, List.map_cons, framed_cons]

theorem framedSequence_separates {α : Type*} (encode : α → List UInt8) (cmp : α → α → Ordering)
    {left right : List α}
    (members : ∀ first ∈ left, ∀ second ∈ right,
      Separates (encode first) (encode second) (cmp first second)) :
    Separates (framed seqItem seqStop (left.map encode)) (framed seqItem seqStop (right.map encode))
      (left.compareLex cmp right) :=
  framed_separates seqItem seqStop (by decide) encode cmp members

end Sequences

/-- The numbers of a JSON value are admitted. -/
def JsonNumberAdmitted : Json → Prop
  | .number number => Admitted number
  | _ => True

/-- The magnitudes of integers have less than 2^32 bytes and the decimals are admitted. -/
def EncodableHere : Value → Prop
  | .int integer => (Nat.digits 256 integer.natAbs).length < 2 ^ 32
  | .decimal decimal => Admitted decimal
  | .json json => json.Everywhere JsonNumberAdmitted
  | _ => True

/-- All numbers inside the value are in the range of the codec. -/
def Encodable (value : Value) : Prop :=
  value.Everywhere EncodableHere

theorem putJson_head (json : Json) : ∃ body, putJson json = json.rank :: body := by
  cases json <;> exact ⟨_, rfl⟩

/-- The bytes of JSON values separate with their order. -/
theorem putJson_separates {first second : Json}
    (firstAdmitted : first.Everywhere JsonNumberAdmitted)
    (secondAdmitted : second.Everywhere JsonNumberAdmitted) :
    Separates (putJson first) (putJson second) (first.cmp second) := by
  induction firstAdmitted generalizing second with
  | @intro first firstHere firstInside ih =>
    obtain ⟨secondHere, secondInside⟩ := secondAdmitted
    rcases Json.sameKind_or_rank first second with same | ⟨different, decided⟩
    · cases same with
      | null => exact .refl _
      | bool => exact .cons _ (putBool_separates _ _)
      | number => exact .cons _ (putNumber_separates firstHere secondHere)
      | string => exact .cons _ (putText_separates _ _)
      | array left right =>
        simp only [putJson, putItems_eq, Json.cmp, Json.cmpItems_eq]
        apply Separates.cons
        apply framedSequence_separates
        exact fun item inside other present => ih item inside (secondInside other present)
      | object left right =>
        simp only [putJson, putMembers_eq, Json.cmp, Json.cmpMembers_eq]
        apply Separates.cons
        apply framedSequence_separates
        rintro ⟨name, item⟩ inside ⟨otherName, other⟩ present
        apply (putText_separates name otherName).append
        exact ih item (List.mem_map_of_mem inside)
          (secondInside other (List.mem_map_of_mem present))
    · obtain ⟨firstBody, firstShape⟩ := putJson_head first
      obtain ⟨secondBody, secondShape⟩ := putJson_head second
      rw [firstShape, secondShape, decided]
      exact .head (fun same => different (Std.LawfulEqOrd.eq_of_compare same)) _ _

theorem put_head (value : Value) : ∃ body, put value = value.rank :: body := by
  cases value <;> exact ⟨_, rfl⟩

/-- The units of values separate with their order. -/
theorem put_separates {first second : Value} (firstEncodable : Encodable first)
    (secondEncodable : Encodable second) :
    Separates (put first) (put second) (first.cmp second) := by
  induction firstEncodable generalizing second with
  | @intro first firstHere firstInside ih =>
    obtain ⟨secondHere, secondInside⟩ := secondEncodable
    have sequences : ∀ {left right : List Value}, (∀ member ∈ left, member ∈ first.children) →
        (∀ member ∈ right, member ∈ second.children) →
        Separates (putSequence left) (putSequence right) (left.compareLex Value.cmp right) := by
      intro left right leftChildren rightChildren
      rw [putSequence_eq, putSequence_eq]
      apply framedSequence_separates
      intro member inside other present
      exact ih member (leftChildren member inside) (secondInside other (rightChildren other present))
    rcases Value.sameKind_or_rank first second with same | ⟨different, decided⟩
    · cases same with
      | text => exact .cons _ (putText_separates _ _)
      | bool => exact .cons _ (putBool_separates _ _)
      | int => exact .cons _ (writeInt_separates firstHere secondHere)
      | decimal => exact .cons _ (putNumber_separates firstHere secondHere)
      | bytes => exact .cons _ (putEscaped_separates _ _)
      | uuid left right =>
        simp only [put, putUuid_eq, Value.cmp]
        exact .cons _ (separatesOfLength (left.size.trans right.size.symm))
      | date => exact .cons _ (putDate_separates _ _)
      | timestamp => exact .cons _ (putTimestamp_separates _ _)
      | duration => exact .cons _ (offsetBinary_separates 15 _ _)
      | period => exact .cons _ (putPeriod_separates _ _)
      | json => exact .cons _ (putJson_separates firstHere secondHere)
      | blob => exact .cons _ (putBlob_separates _ _)
      | enum => exact .cons _ (putEnum_separates _ _)
      | ref left right =>
        apply Separates.cons
        cases left with
        | scalar key =>
          cases right with
          | scalar other =>
            exact .cons _ (ih key List.mem_cons_self (secondInside other List.mem_cons_self))
          | composite others => exact .ofHead rfl (by decide) _ _
        | composite components =>
          cases right with
          | scalar other => exact .ofHead rfl (by decide) _ _
          | composite others =>
            rw [Value.cmp, Value.cmpRef, Value.cmpList_eq]
            exact .cons _ (sequences (fun _ inside => inside) (fun _ inside => inside))
      | struct left right =>
        simp only [put, putFields_eq, Value.cmp, Value.cmpFields_eq]
        apply Separates.cons
        apply framedSequence_separates
        rintro ⟨name, field⟩ inside ⟨otherName, other⟩ present
        apply (putText_separates name otherName).append
        exact ih field (List.mem_map_of_mem inside)
          (secondInside other (List.mem_map_of_mem present))
      | composite left right =>
        simp only [Value.cmp, Value.cmpList_eq]
        exact .cons _ (sequences (fun _ inside => inside) (fun _ inside => inside))
      | set left right =>
        simp only [Value.cmp, Value.cmpList_eq]
        exact .cons _ (sequences (fun _ inside => inside) (fun _ inside => inside))
      | map left right =>
        simp only [put, putEntries_eq, Value.cmp, Value.cmpEntries_eq]
        apply Separates.cons
        apply framedSequence_separates
        rintro ⟨key, entry⟩ inside ⟨otherKey, other⟩ present
        apply Separates.append
        · exact ih key (List.mem_append_left _ (List.mem_map_of_mem inside))
            (secondInside otherKey (List.mem_append_left _ (List.mem_map_of_mem present)))
        · exact ih entry (List.mem_append_right _ (List.mem_map_of_mem inside))
            (secondInside other (List.mem_append_right _ (List.mem_map_of_mem present)))
      | none => exact .refl _
    · obtain ⟨firstBody, firstShape⟩ := put_head first
      obtain ⟨secondBody, secondShape⟩ := put_head second
      rw [firstShape, secondShape, decided]
      exact .head (fun same => different (Std.LawfulEqOrd.eq_of_compare same)) _ _

end Liasse.KeyEnc

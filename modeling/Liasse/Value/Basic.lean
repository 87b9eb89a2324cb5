/-
This file defines the scalar parts of the runtime values, the runtime value and its total order.
-/

import Mathlib
import Liasse.Codes.Numeral
import Liasse.Codes.Sorted

namespace Liasse

/-- The UTF-8 bytes of a text. -/
def textBytes (text : String) : List UInt8 :=
  text.toByteArray.data.toList

theorem textBytes_inj {first second : String} (same : textBytes first = textBytes second) :
    first = second := by
  apply String.toByteArray_inj.mp
  apply ByteArray.ext
  exact Array.toList_inj.mp same

/-- Texts have the order of their bytes. -/
def compareText (first second : String) : Ordering :=
  compare (textBytes first) (textBytes second)

theorem compareText_swap (first second : String) :
    compareText first second = (compareText second first).swap :=
  Std.OrientedOrd.eq_swap

theorem compareText_eq_iff (first second : String) :
    compareText first second = .eq ↔ first = second := by
  constructor
  · exact fun same => textBytes_inj (Std.LawfulEqOrd.eq_of_compare same)
  · rintro rfl
    exact Std.ReflOrd.compare_self

/-- A signed machine integer with a fixed count of bits. -/
structure Signed (bits : Nat) where
  val : Int
  low : -2 ^ (bits - 1) ≤ val
  high : val < 2 ^ (bits - 1)
deriving DecidableEq

theorem Signed.zero_low : -2 ^ (128 - 1) ≤ (0 : Int) := by
  decide

theorem Signed.zero_high : (0 : Int) < 2 ^ (128 - 1) := by
  decide

/-- Signed machine integers have the order of the integers. -/
def Signed.cmp {bits : Nat} (first second : Signed bits) : Ordering :=
  compare first.val second.val

/-- This order puts an absent member after each present member. -/
def cmpOptionalNoneLast {α : Type*} (cmp : α → α → Ordering) : Option α → Option α → Ordering
  | some first, some second => cmp first second
  | some _, none => .lt
  | none, some _ => .gt
  | none, none => .eq

theorem cmpOptionalNoneLast_swap {α : Type*} {cmp : α → α → Ordering}
    (oriented : ∀ first second, cmp first second = (cmp second first).swap)
    (first second : Option α) :
    cmpOptionalNoneLast cmp first second = (cmpOptionalNoneLast cmp second first).swap := by
  cases first with
  | none => cases second <;> rfl
  | some first =>
    cases second with
    | none => rfl
    | some second => exact oriented first second

/-- A decimal is a mantissa scaled by a negative power of ten. -/
structure BigDecimal where
  mantissa : Int
  scale : Int
deriving DecidableEq

namespace BigDecimal

/-- The number that a decimal denotes. -/
def toRat (decimal : BigDecimal) : ℚ :=
  decimal.mantissa * (10 : ℚ) ^ (-decimal.scale)

/-- Decimals compare as numbers once their scales are aligned. -/
def cmp (first second : BigDecimal) : Ordering :=
  compare (first.mantissa * 10 ^ (second.scale - first.scale).toNat)
    (second.mantissa * 10 ^ (first.scale - second.scale).toNat)

theorem cmp_eq_compare (first second : BigDecimal) :
    first.cmp second = compare first.toRat second.toRat := by
  have aligned : ∀ this other : BigDecimal,
      ((this.mantissa * 10 ^ (other.scale - this.scale).toNat : Int) : ℚ) =
        this.toRat * (10 : ℚ) ^ (max this.scale other.scale) := by
    intro this other
    have exponent : -this.scale + max this.scale other.scale =
        ((other.scale - this.scale).toNat : Int) := by omega
    rw [toRat, mul_assoc, ← zpow_add₀ (by norm_num), exponent, zpow_natCast]
    push_cast
    rfl
  have positive : (0 : ℚ) < 10 ^ (max first.scale second.scale) := zpow_pos (by norm_num) _
  have firstAligned := aligned first second
  have secondAligned := aligned second first
  rw [max_comm] at secondAligned
  symm
  apply Codes.compareTransfer
  · intro lower
    have scaled : (_ : ℚ) < _ := Int.cast_lt.mpr lower
    rw [firstAligned, secondAligned] at scaled
    exact lt_of_mul_lt_mul_right scaled positive.le
  · intro higher
    have scaled : (_ : ℚ) < _ := Int.cast_lt.mpr higher
    rw [firstAligned, secondAligned] at scaled
    exact lt_of_mul_lt_mul_right scaled positive.le
  · intro same
    have scaled : ((_ : Int) : ℚ) = _ := congrArg Int.cast same
    rw [firstAligned, secondAligned] at scaled
    exact mul_right_cancel₀ positive.ne' scaled

theorem cmp_swap (first second : BigDecimal) : first.cmp second = (second.cmp first).swap :=
  Std.OrientedOrd.eq_swap

/-- The count of decimal zeros at the end of a magnitude. -/
def trailingZeros (magnitude : Nat) : Nat :=
  ((Nat.digits 10 magnitude).takeWhile (· == 0)).length

/-- The decimal of the same number that has no trailing zero in its mantissa. -/
def normalized (decimal : BigDecimal) : BigDecimal :=
  if decimal.mantissa = 0 then ⟨0, 0⟩
  else
    let trailing := trailingZeros decimal.mantissa.natAbs
    ⟨decimal.mantissa / 10 ^ trailing, decimal.scale - trailing⟩

end BigDecimal

/-- The declared precision of a timestamp. -/
inductive Precision
  | seconds
  | millis
  | micros
  | nanos
deriving DecidableEq

/-- The count of ticks in one second. -/
def Precision.ticksPerSecond : Precision → Int
  | .seconds => 1
  | .millis => 1000
  | .micros => 1000000
  | .nanos => 1000000000

/-- A signed count of ticks at a declared precision. -/
structure Timestamp where
  count : Signed 128
  precision : Precision
deriving DecidableEq

namespace Timestamp

/-- The whole seconds and the nanoseconds that remain. -/
def secondsAndSubnanos (timestamp : Timestamp) : Int × Int :=
  let ticks := timestamp.precision.ticksPerSecond
  (timestamp.count.val / ticks, timestamp.count.val % ticks * (1000000000 / ticks))

/-- Timestamps compare as instants. -/
def cmp (first second : Timestamp) : Ordering :=
  (compare first.secondsAndSubnanos.1 second.secondsAndSubnanos.1).then
    (compare first.secondsAndSubnanos.2 second.secondsAndSubnanos.2)

theorem cmp_swap (first second : Timestamp) : first.cmp second = (second.cmp first).swap := by
  rw [cmp, cmp, Ordering.swap_then, ← Std.OrientedOrd.eq_swap, ← Std.OrientedOrd.eq_swap]

end Timestamp

/-- A calendar date with the ranges that the calendar library admits. -/
structure Date where
  year : Int
  month : Nat
  day : Nat
  yearLow : -9999 ≤ year
  yearHigh : year ≤ 9999
  monthRange : 1 ≤ month ∧ month ≤ 12
  dayRange : 1 ≤ day ∧ day ≤ 31
deriving DecidableEq

/-- Dates compare by year, month and day. -/
def Date.cmp (first second : Date) : Ordering :=
  (compare first.year second.year).then
    ((compare first.month second.month).then (compare first.day second.day))

/-- The policy for a date that a month does not have. -/
inductive Overflow
  | clamp
  | reject
deriving DecidableEq

/-- The policy for a local time that occurs twice. -/
inductive Ambiguous
  | earlier
  | later
  | reject
deriving DecidableEq

/-- The policy for a local time that does not occur. -/
inductive Missing
  | forward
  | backward
  | reject
deriving DecidableEq

/-- A recurrence step of the calendar. -/
structure CalendarPeriod where
  years : Signed 64
  months : Signed 64
  weeks : Signed 64
  days : Signed 64
  time : Signed 128
  zone : Option String
  overflow : Overflow
  ambiguous : Ambiguous
  missing : Missing
deriving DecidableEq

/-- Calendar periods compare member by member, and an absent zone is last. -/
def CalendarPeriod.cmp (first second : CalendarPeriod) : Ordering :=
  (first.years.cmp second.years).then <|
  (first.months.cmp second.months).then <|
  (first.weeks.cmp second.weeks).then <|
  (first.days.cmp second.days).then <|
  (first.time.cmp second.time).then <|
  (cmpOptionalNoneLast compareText first.zone second.zone).then <|
  (compare first.overflow.ctorIdx second.overflow.ctorIdx).then <|
  (compare first.ambiguous.ctorIdx second.ambiguous.ctorIdx).then <|
  compare first.missing.ctorIdx second.missing.ctorIdx

/-- A period is a fixed duration in nanoseconds or a calendar step. -/
inductive Period
  | fixed (nanos : Signed 128)
  | calendar (period : CalendarPeriod)
deriving DecidableEq

/-- A fixed period is before each calendar period. -/
def Period.cmp : Period → Period → Ordering
  | .fixed first, .fixed second => first.cmp second
  | .fixed _, .calendar _ => .lt
  | .calendar _, .fixed _ => .gt
  | .calendar first, .calendar second => first.cmp second

/-- A label of an enumeration with its declared position. -/
structure EnumValue where
  ordinal : UInt32
  label : String
deriving DecidableEq

/-- Enumeration values compare by position, then by label. -/
def EnumValue.cmp (first second : EnumValue) : Ordering :=
  (compare first.ordinal second.ordinal).then (compareText first.label second.label)

/-- An identifier of sixteen bytes. -/
structure Uuid where
  bytes : List UInt8
  size : bytes.length = 16
deriving DecidableEq

/-- A content hash of sixty-four bytes. -/
structure Sha512 where
  bytes : List UInt8
  size : bytes.length = 64
deriving DecidableEq

/-- The description of a binary content. -/
structure BlobDescriptor where
  sha512 : Sha512
  byteCount : UInt64
  media : String
  name : Option String
deriving DecidableEq

/-- Blob descriptors compare by hash, size, media and name, and an absent name is last. -/
def BlobDescriptor.cmp (first second : BlobDescriptor) : Ordering :=
  (compare first.sha512.bytes second.sha512.bytes).then <|
  (compare first.byteCount second.byteCount).then <|
  (compareText first.media second.media).then <|
  cmpOptionalNoneLast compareText first.name second.name

section Orientation

theorem Signed.cmp_swap {bits : Nat} (first second : Signed bits) :
    first.cmp second = (second.cmp first).swap :=
  Std.OrientedOrd.eq_swap

theorem Date.cmp_swap (first second : Date) : first.cmp second = (second.cmp first).swap := by
  simp only [Date.cmp, Ordering.swap_then]
  rw [← Std.OrientedOrd.eq_swap, ← Std.OrientedOrd.eq_swap, ← Std.OrientedOrd.eq_swap]

theorem CalendarPeriod.cmp_swap (first second : CalendarPeriod) :
    first.cmp second = (second.cmp first).swap := by
  simp only [CalendarPeriod.cmp, Ordering.swap_then, ← Signed.cmp_swap,
    ← cmpOptionalNoneLast_swap compareText_swap]
  rw [← Std.OrientedOrd.eq_swap, ← Std.OrientedOrd.eq_swap, ← Std.OrientedOrd.eq_swap]

theorem Period.cmp_swap (first second : Period) : first.cmp second = (second.cmp first).swap := by
  cases first <;> cases second
  · exact Signed.cmp_swap _ _
  · rfl
  · rfl
  · exact CalendarPeriod.cmp_swap _ _

theorem EnumValue.cmp_swap (first second : EnumValue) :
    first.cmp second = (second.cmp first).swap := by
  rw [EnumValue.cmp, EnumValue.cmp, Ordering.swap_then, ← compareText_swap,
    ← Std.OrientedOrd.eq_swap]

theorem BlobDescriptor.cmp_swap (first second : BlobDescriptor) :
    first.cmp second = (second.cmp first).swap := by
  simp only [BlobDescriptor.cmp, Ordering.swap_then, ← compareText_swap,
    ← cmpOptionalNoneLast_swap compareText_swap]
  rw [← Std.OrientedOrd.eq_swap, ← Std.OrientedOrd.eq_swap]

end Orientation

/-- A canonical JSON value. The members of an object are in the order of their names. -/
inductive Json
  | null
  | bool (flag : Bool)
  | number (number : BigDecimal)
  | string (text : String)
  | array (items : List Json)
  | object (members : List (String × Json))

namespace Json

/-- The rank that orders JSON values of different kinds. -/
def rank : Json → UInt8
  | .null => 0
  | .bool _ => 1
  | .number _ => 2
  | .string _ => 3
  | .array _ => 4
  | .object _ => 5

mutual

/-- JSON values compare by kind and then by content. -/
def cmp : Json → Json → Ordering
  | .null, .null => .eq
  | .bool first, .bool second => compare first second
  | .number first, .number second => first.cmp second
  | .string first, .string second => compareText first second
  | .array first, .array second => cmpItems first second
  | .object first, .object second => cmpMembers first second
  | first, second => compare first.rank second.rank
termination_by structural first => first

def cmpItems : List Json → List Json → Ordering
  | [], [] => .eq
  | [], _ :: _ => .lt
  | _ :: _, [] => .gt
  | first :: left, second :: right => (cmp first second).then (cmpItems left right)
termination_by structural left => left

def cmpMembers : List (String × Json) → List (String × Json) → Ordering
  | [], [] => .eq
  | [], _ :: _ => .lt
  | _ :: _, [] => .gt
  | first :: left, second :: right => (cmpMember first second).then (cmpMembers left right)
termination_by structural left => left

def cmpMember : String × Json → String × Json → Ordering
  | (name, first), (other, second) => (compareText name other).then (cmp first second)
termination_by structural member => member

end

/-- The JSON values that a JSON value holds directly. -/
def children : Json → List Json
  | .array items => items
  | .object members => members.map Prod.snd
  | _ => []

theorem sizeOf_lt_of_mem_children {json child : Json} (inside : child ∈ json.children) :
    sizeOf child < sizeOf json := by
  cases json with
  | array items =>
    have smaller : sizeOf child < sizeOf items := List.sizeOf_lt_of_mem inside
    simp only [array.sizeOf_spec]
    omega
  | object members =>
    obtain ⟨member, present, rfl⟩ := List.mem_map.mp inside
    have smaller := List.sizeOf_lt_of_mem present
    obtain ⟨name, value⟩ := member
    simp only [Prod.mk.sizeOf_spec] at smaller
    simp only [object.sizeOf_spec]
    omega
  | null => cases inside
  | bool => cases inside
  | number => cases inside
  | string => cases inside

/-- This property holds of a JSON value and of all JSON values inside it. -/
inductive Everywhere (property : Json → Prop) : Json → Prop
  | intro {json : Json} : property json → (∀ child ∈ json.children, Everywhere property child) →
      Everywhere property json

/-- The induction over JSON values assumes the statement of each direct child. -/
theorem induct {statement : Json → Prop}
    (step : ∀ json, (∀ child ∈ json.children, statement child) → statement json) (json : Json) :
    statement json := by
  induction size : sizeOf json using Nat.strong_induction_on generalizing json with
  | _ bound ih =>
    apply step
    intro child inside
    exact ih _ (size ▸ sizeOf_lt_of_mem_children inside) child rfl

/-- Two JSON values of one kind. -/
inductive SameKind : Json → Json → Prop
  | null : SameKind .null .null
  | bool (first second : Bool) : SameKind (.bool first) (.bool second)
  | number (first second : BigDecimal) : SameKind (.number first) (.number second)
  | string (first second : String) : SameKind (.string first) (.string second)
  | array (first second : List Json) : SameKind (.array first) (.array second)
  | object (first second : List (String × Json)) : SameKind (.object first) (.object second)

/-- Two JSON values are of one kind, or their ranks are different and decide. -/
theorem sameKind_or_rank (first second : Json) :
    SameKind first second ∨
      first.rank ≠ second.rank ∧ first.cmp second = compare first.rank second.rank := by
  cases first <;> cases second <;> first
    | exact .inl (by constructor)
    | exact .inr ⟨of_decide_eq_true rfl, rfl⟩

@[simp] theorem cmpItems_eq (left right : List Json) :
    cmpItems left right = left.compareLex cmp right := by
  induction left generalizing right with
  | nil => cases right <;> rfl
  | cons first left ih =>
    cases right with
    | nil => rfl
    | cons second right => rw [cmpItems, ih, List.compareLex_cons_cons]

@[simp] theorem cmpMembers_eq (left right : List (String × Json)) :
    cmpMembers left right = left.compareLex cmpMember right := by
  induction left generalizing right with
  | nil => cases right <;> rfl
  | cons first left ih =>
    cases right with
    | nil => rfl
    | cons second right => rw [cmpMembers, ih, List.compareLex_cons_cons]

end Json

mutual

/-- The typed key of a reference is a scalar or the components in key order. -/
inductive RefKey
  | scalar (key : Value)
  | composite (components : List Value)

/-- A runtime value. The members of a set and the entries of a struct and of a map are in their
order. -/
inductive Value
  | text (text : String)
  | bool (flag : Bool)
  | int (integer : Int)
  | decimal (decimal : BigDecimal)
  | bytes (bytes : List UInt8)
  | uuid (uuid : Uuid)
  | date (date : Date)
  | timestamp (timestamp : Timestamp)
  | duration (nanos : Signed 128)
  | period (period : Period)
  | json (json : Json)
  | blob (blob : BlobDescriptor)
  | enum (value : EnumValue)
  | ref (key : RefKey)
  | struct (fields : List (String × Value))
  | composite (components : List Value)
  | set (members : List Value)
  | map (entries : List (Value × Value))
  | none

end

/-- The values that a reference key holds directly. -/
def RefKey.children : RefKey → List Value
  | .scalar key => [key]
  | .composite components => components

namespace Value

/-- The rank that orders values of different kinds. -/
def rank : Value → UInt8
  | .bool _ => 0
  | .int _ => 1
  | .decimal _ => 2
  | .text _ => 3
  | .bytes _ => 4
  | .uuid _ => 5
  | .date _ => 6
  | .timestamp _ => 7
  | .duration _ => 8
  | .period _ => 9
  | .enum _ => 10
  | .ref _ => 11
  | .json _ => 12
  | .blob _ => 13
  | .struct _ => 14
  | .set _ => 15
  | .map _ => 16
  | .composite _ => 17
  | .none => 255

mutual

/-- Values of one kind compare by content, and other values compare by rank. -/
def cmp : Value → Value → Ordering
  | .text first, .text second => compareText first second
  | .bool first, .bool second => compare first second
  | .int first, .int second => compare first second
  | .decimal first, .decimal second => first.cmp second
  | .bytes first, .bytes second => compare first second
  | .uuid first, .uuid second => compare first.bytes second.bytes
  | .date first, .date second => first.cmp second
  | .timestamp first, .timestamp second => first.cmp second
  | .duration first, .duration second => first.cmp second
  | .period first, .period second => first.cmp second
  | .json first, .json second => first.cmp second
  | .blob first, .blob second => first.cmp second
  | .enum first, .enum second => first.cmp second
  | .ref first, .ref second => cmpRef first second
  | .struct first, .struct second => cmpFields first second
  | .composite first, .composite second => cmpList first second
  | .set first, .set second => cmpList first second
  | .map first, .map second => cmpEntries first second
  | .none, .none => .eq
  | first, second => compare first.rank second.rank
termination_by structural first => first

/-- A scalar reference is before each composite reference. -/
def cmpRef : RefKey → RefKey → Ordering
  | .scalar first, .scalar second => cmp first second
  | .composite first, .composite second => cmpList first second
  | .scalar _, .composite _ => .lt
  | .composite _, .scalar _ => .gt
termination_by structural key => key

def cmpList : List Value → List Value → Ordering
  | [], [] => .eq
  | [], _ :: _ => .lt
  | _ :: _, [] => .gt
  | first :: left, second :: right => (cmp first second).then (cmpList left right)
termination_by structural left => left

def cmpFields : List (String × Value) → List (String × Value) → Ordering
  | [], [] => .eq
  | [], _ :: _ => .lt
  | _ :: _, [] => .gt
  | first :: left, second :: right => (cmpField first second).then (cmpFields left right)
termination_by structural left => left

def cmpField : String × Value → String × Value → Ordering
  | (name, first), (other, second) => (compareText name other).then (cmp first second)
termination_by structural field => field

def cmpEntries : List (Value × Value) → List (Value × Value) → Ordering
  | [], [] => .eq
  | [], _ :: _ => .lt
  | _ :: _, [] => .gt
  | first :: left, second :: right => (cmpEntry first second).then (cmpEntries left right)
termination_by structural left => left

def cmpEntry : Value × Value → Value × Value → Ordering
  | (key, first), (other, second) => (cmp key other).then (cmp first second)
termination_by structural entry => entry

end

/-- The values that a value holds directly. -/
def children : Value → List Value
  | .ref key => key.children
  | .struct fields => fields.map Prod.snd
  | .composite components => components
  | .set members => members
  | .map entries => entries.map Prod.fst ++ entries.map Prod.snd
  | _ => []

theorem sizeOf_lt_of_mem_children {value child : Value} (inside : child ∈ value.children) :
    sizeOf child < sizeOf value := by
  cases value with
  | ref key =>
    cases key with
    | scalar key =>
      obtain rfl := List.mem_singleton.mp inside
      simp only [ref.sizeOf_spec, RefKey.scalar.sizeOf_spec]
      omega
    | composite components =>
      have smaller : sizeOf child < sizeOf components := List.sizeOf_lt_of_mem inside
      simp only [ref.sizeOf_spec, RefKey.composite.sizeOf_spec]
      omega
  | struct fields =>
    obtain ⟨⟨name, field⟩, present, rfl⟩ := List.mem_map.mp inside
    have smaller := List.sizeOf_lt_of_mem present
    simp only [Prod.mk.sizeOf_spec] at smaller
    simp only [struct.sizeOf_spec]
    omega
  | composite components =>
    have smaller : sizeOf child < sizeOf components := List.sizeOf_lt_of_mem inside
    simp only [composite.sizeOf_spec]
    omega
  | set members =>
    have smaller : sizeOf child < sizeOf members := List.sizeOf_lt_of_mem inside
    simp only [set.sizeOf_spec]
    omega
  | map entries =>
    simp only [map.sizeOf_spec]
    rcases List.mem_append.mp inside with asKey | asValue
    · obtain ⟨⟨key, value⟩, present, rfl⟩ := List.mem_map.mp asKey
      have smaller := List.sizeOf_lt_of_mem present
      simp only [Prod.mk.sizeOf_spec] at smaller
      change sizeOf key < _
      omega
    · obtain ⟨⟨key, value⟩, present, rfl⟩ := List.mem_map.mp asValue
      have smaller := List.sizeOf_lt_of_mem present
      simp only [Prod.mk.sizeOf_spec] at smaller
      change sizeOf value < _
      omega
  | _ => cases inside

/-- This property holds of a value and of all values inside it. -/
inductive Everywhere (property : Value → Prop) : Value → Prop
  | intro {value : Value} : property value → (∀ child ∈ value.children, Everywhere property child) →
      Everywhere property value

/-- The induction over values assumes the statement of each direct child. -/
theorem induct {statement : Value → Prop}
    (step : ∀ value, (∀ child ∈ value.children, statement child) → statement value)
    (value : Value) : statement value := by
  induction size : sizeOf value using Nat.strong_induction_on generalizing value with
  | _ bound ih =>
    apply step
    intro child inside
    exact ih _ (size ▸ sizeOf_lt_of_mem_children inside) child rfl

/-- Two values of one kind. -/
inductive SameKind : Value → Value → Prop
  | text (first second : String) : SameKind (.text first) (.text second)
  | bool (first second : Bool) : SameKind (.bool first) (.bool second)
  | int (first second : Int) : SameKind (.int first) (.int second)
  | decimal (first second : BigDecimal) : SameKind (.decimal first) (.decimal second)
  | bytes (first second : List UInt8) : SameKind (.bytes first) (.bytes second)
  | uuid (first second : Uuid) : SameKind (.uuid first) (.uuid second)
  | date (first second : Date) : SameKind (.date first) (.date second)
  | timestamp (first second : Timestamp) : SameKind (.timestamp first) (.timestamp second)
  | duration (first second : Signed 128) : SameKind (.duration first) (.duration second)
  | period (first second : Period) : SameKind (.period first) (.period second)
  | json (first second : Json) : SameKind (.json first) (.json second)
  | blob (first second : BlobDescriptor) : SameKind (.blob first) (.blob second)
  | enum (first second : EnumValue) : SameKind (.enum first) (.enum second)
  | ref (first second : RefKey) : SameKind (.ref first) (.ref second)
  | struct (first second : List (String × Value)) : SameKind (.struct first) (.struct second)
  | composite (first second : List Value) : SameKind (.composite first) (.composite second)
  | set (first second : List Value) : SameKind (.set first) (.set second)
  | map (first second : List (Value × Value)) : SameKind (.map first) (.map second)
  | none : SameKind .none .none

/-- Two values are of one kind, or their ranks are different and decide. -/
theorem sameKind_or_rank (first second : Value) :
    SameKind first second ∨
      first.rank ≠ second.rank ∧ first.cmp second = compare first.rank second.rank := by
  cases first <;> cases second <;> first
    | exact .inl (by constructor)
    | exact .inr ⟨of_decide_eq_true rfl, rfl⟩

@[simp] theorem cmpList_eq (left right : List Value) :
    cmpList left right = left.compareLex cmp right := by
  induction left generalizing right with
  | nil => cases right <;> rfl
  | cons first left ih =>
    cases right with
    | nil => rfl
    | cons second right => rw [cmpList, ih, List.compareLex_cons_cons]

@[simp] theorem cmpFields_eq (left right : List (String × Value)) :
    cmpFields left right = left.compareLex cmpField right := by
  induction left generalizing right with
  | nil => cases right <;> rfl
  | cons first left ih =>
    cases right with
    | nil => rfl
    | cons second right => rw [cmpFields, ih, List.compareLex_cons_cons]

@[simp] theorem cmpEntries_eq (left right : List (Value × Value)) :
    cmpEntries left right = left.compareLex cmpEntry right := by
  induction left generalizing right with
  | nil => cases right <;> rfl
  | cons first left ih =>
    cases right with
    | nil => rfl
    | cons second right => rw [cmpEntries, ih, List.compareLex_cons_cons]

end Value

namespace Json

/-- The order of object members by name. -/
def compareName (first second : String × Json) : Ordering :=
  compareText first.1 second.1

/-- The members of an object are strictly sorted by name. -/
def SortedHere : Json → Prop
  | .object members => Codes.Sorted compareName members
  | _ => True

/-- All objects inside the JSON value are sorted. -/
def WellFormed (json : Json) : Prop :=
  json.Everywhere SortedHere

theorem cmp_swap (first second : Json) : first.cmp second = (second.cmp first).swap := by
  induction first using induct generalizing second with
  | step first ih =>
    rcases sameKind_or_rank first second with same | ⟨different, decided⟩
    · cases same with
      | null => rfl
      | bool => exact Std.OrientedOrd.eq_swap
      | number => exact BigDecimal.cmp_swap _ _
      | string => exact compareText_swap _ _
      | array left right =>
        simp only [cmp, cmpItems_eq]
        apply Codes.compareLex_swap
        exact fun first inside second _ => ih first inside second
      | object left right =>
        simp only [cmp, cmpMembers_eq]
        apply Codes.compareLex_swap
        rintro ⟨name, first⟩ inside ⟨other, second⟩ _
        rw [cmpMember, cmpMember, Ordering.swap_then, ← compareText_swap,
          ih first (List.mem_map_of_mem inside) second]
    · rcases sameKind_or_rank second first with same | ⟨_, reversed⟩
      · exact absurd (by cases same <;> rfl) different
      · rw [decided, reversed]
        exact Std.OrientedOrd.eq_swap

end Json

namespace Value

/-- The order of struct fields by name. -/
def compareName (first second : String × Value) : Ordering :=
  compareText first.1 second.1

/-- The order of map entries by key. -/
def compareKey (first second : Value × Value) : Ordering :=
  first.1.cmp second.1

/-- The fields of a struct, the members of a set and the entries of a map are strictly sorted. -/
def SortedHere : Value → Prop
  | .json document => document.WellFormed
  | .struct fields => Codes.Sorted compareName fields
  | .set members => Codes.Sorted cmp members
  | .map entries => Codes.Sorted compareKey entries
  | _ => True

/-- All collections inside the value are sorted. -/
def WellFormed (value : Value) : Prop :=
  value.Everywhere SortedHere

theorem cmp_swap (first second : Value) : first.cmp second = (second.cmp first).swap := by
  induction first using induct generalizing second with
  | step first ih =>
    have lists : ∀ {left right : List Value}, (∀ member ∈ left, member ∈ first.children) →
        left.compareLex cmp right = (right.compareLex cmp left).swap := by
      intro left right inside
      apply Codes.compareLex_swap
      exact fun member present other _ => ih member (inside member present) other
    rcases sameKind_or_rank first second with same | ⟨different, decided⟩
    · cases same with
      | text => exact compareText_swap _ _
      | bool => exact Std.OrientedOrd.eq_swap
      | int => exact Std.OrientedOrd.eq_swap
      | decimal => exact BigDecimal.cmp_swap _ _
      | bytes => exact Std.OrientedOrd.eq_swap
      | uuid => exact Std.OrientedOrd.eq_swap
      | date => exact Date.cmp_swap _ _
      | timestamp => exact Timestamp.cmp_swap _ _
      | duration => exact Signed.cmp_swap _ _
      | period => exact Period.cmp_swap _ _
      | json => exact Json.cmp_swap _ _
      | blob => exact BlobDescriptor.cmp_swap _ _
      | enum => exact EnumValue.cmp_swap _ _
      | ref left right =>
        cases left <;> cases right <;> simp only [cmp, cmpRef, cmpList_eq]
        · exact ih _ List.mem_cons_self _
        · rfl
        · rfl
        · exact lists fun member present => present
      | struct left right =>
        simp only [cmp, cmpFields_eq]
        apply Codes.compareLex_swap
        rintro ⟨name, first⟩ inside ⟨other, second⟩ _
        rw [cmpField, cmpField, Ordering.swap_then, ← compareText_swap,
          ih first (List.mem_map_of_mem inside) second]
      | composite left right =>
        simp only [cmp, cmpList_eq]
        exact lists fun member present => present
      | set left right =>
        simp only [cmp, cmpList_eq]
        exact lists fun member present => present
      | map left right =>
        simp only [cmp, cmpEntries_eq]
        apply Codes.compareLex_swap
        rintro ⟨key, first⟩ inside ⟨other, second⟩ _
        rw [cmpEntry, cmpEntry, Ordering.swap_then,
          ih key (List.mem_append_left _ (List.mem_map_of_mem inside)) other,
          ih first (List.mem_append_right _ (List.mem_map_of_mem inside)) second]
      | none => rfl
    · rcases sameKind_or_rank second first with same | ⟨_, reversed⟩
      · exact absurd (by cases same <;> rfl) different
      · rw [decided, reversed]
        exact Std.OrientedOrd.eq_swap

end Value

/-- The typed key of a row has at least one component. -/
structure KeyValue where
  first : Value
  rest : List Value

namespace KeyValue

/-- The key components in key order. -/
def components (key : KeyValue) : List Value :=
  key.first :: key.rest

/-- Keys compare component by component. -/
def cmp (first second : KeyValue) : Ordering :=
  (first.first.cmp second.first).then (first.rest.compareLex Value.cmp second.rest)

end KeyValue

end Liasse

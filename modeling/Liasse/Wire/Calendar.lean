/-
This file models the members of composite scalars: the keywords of precisions and policies, the builder of
calendar periods, and the machine integers and hashes of a JSON tree.
-/

import Liasse.Wire.Decimal
import Liasse.Wire.Tree

namespace Liasse

/-- The keyword of a precision. -/
def Precision.keyword : Precision → String
  | .seconds => "s"
  | .millis => "ms"
  | .micros => "us"
  | .nanos => "ns"

/-- The precision of a keyword. -/
def Precision.parse (keyword : String) : Option Precision :=
  if keyword = "s" then some .seconds
  else if keyword = "ms" then some .millis
  else if keyword = "us" then some .micros
  else if keyword = "ns" then some .nanos
  else none

theorem Precision.parse_keyword (precision : Precision) : parse precision.keyword = some precision := by
  cases precision <;> decide

namespace Wire

/-- The keyword of an overflow policy. -/
def overflowKeyword : Overflow → String
  | .clamp => "clamp"
  | .reject => "reject"

/-- The overflow policy of a keyword. -/
def parseOverflow (text : String) : Except ValueError Overflow :=
  if text = "clamp" then .ok .clamp
  else if text = "reject" then .ok .reject
  else .error (.unknownPolicy "overflow" text)

/-- The keyword of a policy for a local time that occurs twice. -/
def ambiguousKeyword : Ambiguous → String
  | .earlier => "earlier"
  | .later => "later"
  | .reject => "reject"

/-- The policy of a keyword for a local time that occurs twice. -/
def parseAmbiguous (text : String) : Except ValueError Ambiguous :=
  if text = "earlier" then .ok .earlier
  else if text = "later" then .ok .later
  else if text = "reject" then .ok .reject
  else .error (.unknownPolicy "ambiguous" text)

/-- The keyword of a policy for a local time that does not occur. -/
def missingKeyword : Missing → String
  | .forward => "forward"
  | .backward => "backward"
  | .reject => "reject"

/-- The policy of a keyword for a local time that does not occur. -/
def parseMissing (text : String) : Except ValueError Missing :=
  if text = "forward" then .ok .forward
  else if text = "backward" then .ok .backward
  else if text = "reject" then .ok .reject
  else .error (.unknownPolicy "missing" text)

theorem parseOverflow_keyword (policy : Overflow) : parseOverflow (overflowKeyword policy) = .ok policy := by
  cases policy <;> decide

theorem parseAmbiguous_keyword (policy : Ambiguous) :
    parseAmbiguous (ambiguousKeyword policy) = .ok policy := by
  cases policy <;> decide

theorem parseMissing_keyword (policy : Missing) : parseMissing (missingKeyword policy) = .ok policy := by
  cases policy <;> decide

/-- A calendar period has a magnitude when one of its components is not zero. -/
def HasMagnitude (period : CalendarPeriod) : Prop :=
  period.years.val ≠ 0 ∨ period.months.val ≠ 0 ∨ period.weeks.val ≠ 0 ∨ period.days.val ≠ 0 ∨
    period.time.val ≠ 0

instance (period : CalendarPeriod) : Decidable (HasMagnitude period) :=
  inferInstanceAs (Decidable (_ ∨ _))

/-- The builder refuses a calendar period without a magnitude. -/
def buildCalendar (period : CalendarPeriod) : Except ValueError CalendarPeriod :=
  if HasMagnitude period then .ok period else .error .emptyCalendarPeriod

/-- A JSON number as a machine integer. -/
def asI64 : J → Option (Signed 64)
  | .number text => parseSigned 64 text
  | _ => none

theorem asI64_integerText (number : Signed 64) : asI64 (.number (integerText number.val)) = some number :=
  parseSigned_integerText number

/-- The hash of sixty-four bytes that a hexadecimal text spells. -/
def parseSha512 (libraries : Libraries) (text : String) : Except ValueError Sha512 :=
  match libraries.fromHex text with
  | .error reason => .error (.malformedSha512 reason)
  | .ok bytes =>
    if size : bytes.length = 64 then .ok ⟨bytes, size⟩
    else .error (.malformedSha512 ("expected 64 bytes: " ++ text))

theorem parseSha512_toHex {libraries : Libraries} (documented : libraries.Documented) (sha512 : Sha512) :
    parseSha512 libraries (libraries.toHex sha512.bytes) = .ok sha512 := by
  rw [parseSha512, documented.hex]
  exact dif_pos sha512.size

end Wire

end Liasse

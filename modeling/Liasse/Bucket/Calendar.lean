/-
This file models the calendar periods over the calendar library.
-/

import Liasse.Bucket.Source
import Liasse.Codes.Listing

namespace Liasse.Bucket

open Codes

section Library

/-- The calendar magnitudes of a span. -/
structure CalendarSpan where
  years : Signed 64
  months : Signed 64
  weeks : Signed 64
  days : Signed 64
deriving DecidableEq

/-- The span of no calendar magnitude. -/
def CalendarSpan.zero : CalendarSpan :=
  ⟨⟨0, by decide, by decide⟩, ⟨0, by decide, by decide⟩, ⟨0, by decide, by decide⟩, ⟨0, by decide, by decide⟩⟩

/-- The library of instants, zones and civil dates is outside the repository. -/
class CalendarLibrary where
  Zone : Type
  CivilDate : Type
  utc : Zone
  zone : String → Option Zone
  representable : Int → Bool
  date : Zone → Int → CivilDate
  year : CivilDate → Int
  month : CivilDate → Int
  day : CivilDate → Int
  firstOfMonth : CivilDate → CivilDate
  isDate : Int → Int → Int → Bool
  admits : CalendarSpan → Bool
  addToDate : CivilDate → CalendarSpan → Option CivilDate
  addToZoned : Zone → Int → CalendarSpan → Option Int

open CalendarLibrary

/-- A span of no magnitude is admitted and moves nothing, and a date exists in its own month. -/
class CalendarLaws [CalendarLibrary] : Prop where
  admits_zero : admits .zero = true
  addToDate_zero : ∀ date : CivilDate, addToDate date .zero = some date
  addToZoned_zero : ∀ (zone : Zone) (nanos : Int), representable nanos = true →
    addToZoned zone nanos .zero = some nanos
  isDate_own : ∀ date : CivilDate, isDate (year (firstOfMonth date)) (month (firstOfMonth date)) (day date) = true

end Library

section Advance

variable [CalendarLibrary]

open CalendarLibrary

/-- An absent name and `UTC` need no database. -/
def resolveZone : Option String → Except SeriesError Zone
  | none => .ok utc
  | some name =>
    if name = "UTC" then .ok utc
    else
      match zone name with
      | some zone => .ok zone
      | none => .error (.periodZoneUnavailable name)

/-- A magnitude times the steps. -/
def scaled (magnitude steps : Signed 64) : Except SeriesError (Signed 64) :=
  if fits : -2 ^ 63 ≤ magnitude.val * steps.val ∧ magnitude.val * steps.val < 2 ^ 63 then
    .ok ⟨magnitude.val * steps.val, fits.1, fits.2⟩
  else .error .periodOutOfRange

/-- The library has a result, or the shift is out of range. -/
def inRange {α : Type} : Option α → Except SeriesError α
  | some value => .ok value
  | none => .error .periodOutOfRange

/-- The day of the anchor is absent from the destination month of a shift by years and months. -/
def calendarDayIsMissing (anchor : CivilDate) (years months : Signed 64) : Except SeriesError Bool :=
  let span : CalendarSpan := { CalendarSpan.zero with years, months }
  if admits span then do
    let destination ← inRange (addToDate (firstOfMonth anchor) span)
    return !isDate (year destination) (month destination) (day anchor)
  else .error .periodOutOfRange

/-- Whether the policy of a calendar period rejects its shift. -/
def wouldReject (calendar : CalendarPeriod) (anchor : CivilDate) (years months : Signed 64) :
    Except SeriesError Bool :=
  if calendar.overflow = .reject then calendarDayIsMissing anchor years months else .ok false

/-- The ticks of a precision below a count of nanoseconds. -/
def ticksBelow (nanos : Signed 128) (precision : Precision) : Signed 128 where
  val := nanos.val / nanosPerTick precision
  low := by
    have low := nanos.low
    have high := nanos.high
    cases precision <;> simp only [nanosPerTick, Precision.ticksPerSecond] <;> omega
  high := by
    have low := nanos.low
    have high := nanos.high
    cases precision <;> simp only [nanosPerTick, Precision.ticksPerSecond] <;> omega

/-- An anchor advanced by calendar steps, clamped, and whether the policy rejects the boundary. -/
def advanceCalendarChecked (calendar : CalendarPeriod) (anchor : Timestamp) (steps : Signed 64) :
    Except SeriesError (Timestamp × Bool) := do
  let nanos ← checked (anchor.count.val * nanosPerTick anchor.precision)
  let instant ← inRange (if representable nanos.val then some nanos.val else none)
  let zone ← resolveZone calendar.zone
  let years ← scaled calendar.years steps
  let months ← scaled calendar.months steps
  let weeks ← scaled calendar.weeks steps
  let days ← scaled calendar.days steps
  let rejects ← wouldReject calendar (date zone instant) years months
  let span ← inRange (if admits ⟨years, months, weeks, days⟩ then some (⟨years, months, weeks, days⟩ : CalendarSpan)
    else none)
  let shifted ← inRange (addToZoned zone instant span)
  let total ← checked (calendar.time.val * steps.val)
  let result ← checked (shifted + total.val)
  return (⟨ticksBelow result anchor.precision, anchor.precision⟩, rejects)

/-- An anchor advanced by calendar steps. -/
def advanceCalendar (calendar : CalendarPeriod) (anchor : Timestamp) (steps : Signed 64) :
    Except SeriesError Timestamp := do
  let (boundary, rejects) ← advanceCalendarChecked calendar anchor steps
  if rejects then .error .calendarOverflowRejected else return boundary

/-- The series advances a calendar period by the calendar library. -/
instance calendarSeries : CalendarArithmetic where
  advance calendar anchor steps :=
    if fits : -2 ^ 63 ≤ steps ∧ steps < 2 ^ 63 then do
      let (boundary, rejects) ← advanceCalendarChecked calendar anchor ⟨steps, fits.1, fits.2⟩
      return (boundary.count, rejects)
    else .error .periodOutOfRange

end Advance

end Liasse.Bucket

namespace Liasse.Period

open Liasse.Bucket

variable [CalendarLibrary]

/-- The boundary some steps after an anchor, at the precision of the anchor. -/
def advanceFrom (period : Period) (anchor : Timestamp) (steps : Signed 64) : Except SeriesError Timestamp :=
  match period with
  | .fixed duration => do
      let added ← checked (stepOf duration anchor.precision * steps.val)
      let count ← checked (anchor.count.val + added.val)
      return ⟨count, anchor.precision⟩
  | .calendar magnitudes => advanceCalendar magnitudes anchor steps

end Liasse.Period

namespace Liasse.Bucket

open Codes

section Ranges

/-- A machine integer of 128 bits holds the number. -/
def Fits (value : Int) : Prop :=
  -2 ^ 127 ≤ value ∧ value < 2 ^ 127

/-- The scaled ticks of a duration and their sum with the anchor are in range. -/
def InRange (duration : Signed 128) (anchor : Timestamp) (steps : Signed 64) : Prop :=
  Fits (stepOf duration anchor.precision * steps.val) ∧
    Fits (anchor.count.val + stepOf duration anchor.precision * steps.val)

/-- The anchor plus the exact scaled duration, cut once to the ticks of the anchor. -/
def exactCount (duration : Signed 128) (anchor : Timestamp) (steps : Signed 64) : Int :=
  (anchor.nanos + duration.val * steps.val) / nanosPerTick anchor.precision

/-- The only magnitude of a calendar period is its time. -/
structure OnlyTime (calendar : CalendarPeriod) (duration : Signed 128) : Prop where
  years : calendar.years.val = 0
  months : calendar.months.val = 0
  weeks : calendar.weeks.val = 0
  days : calendar.days.val = 0
  time : calendar.time = duration

variable {duration : Signed 128} {anchor : Timestamp} {steps : Signed 64}

/-- The scaled magnitudes of a calendar period are zero. -/
structure Still (calendar : CalendarPeriod) (steps : Signed 64) : Prop where
  years : calendar.years.val * steps.val = 0
  months : calendar.months.val * steps.val = 0
  weeks : calendar.weeks.val * steps.val = 0
  days : calendar.days.val * steps.val = 0

theorem OnlyTime.still {calendar : CalendarPeriod} (only : OnlyTime calendar duration) (steps : Signed 64) :
    Still calendar steps where
  years := by rw [only.years, zero_mul]
  months := by rw [only.months, zero_mul]
  weeks := by rw [only.weeks, zero_mul]
  days := by rw [only.days, zero_mul]

theorem checked_of_fits {value : Int} (fits : Fits value) :
    ∃ held : Signed 128, checked value = .ok held ∧ held.val = value := by
  rw [Fits] at fits
  rw [checked, dif_pos fits]
  exact ⟨_, rfl, rfl⟩

theorem fits_of_checked {value : Int} {held : Signed 128} (passed : checked value = .ok held) :
    Fits value ∧ held.val = value := by
  rw [checked] at passed
  split at passed
  next fits =>
    cases passed
    exact ⟨fits, rfl⟩
  next => cases passed

theorem nanosPerTick_pos (precision : Precision) : 0 < nanosPerTick precision := by
  cases precision <;> decide

theorem nanos_eq (anchor : Timestamp) : anchor.nanos = anchor.count.val * nanosPerTick anchor.precision :=
  rfl

theorem scaled_zero {magnitude steps : Signed 64} (none : magnitude.val * steps.val = 0) :
    scaled magnitude steps = .ok ⟨0, by decide, by decide⟩ := by
  have fits : -2 ^ 63 ≤ magnitude.val * steps.val ∧ magnitude.val * steps.val < 2 ^ 63 := by
    rw [none]
    decide
  rw [scaled, dif_pos fits]
  simp only [none]

end Ranges

section Scaling

variable [CalendarLibrary]

open CalendarLibrary

/-- The zone of a calendar period is known, and the anchor and its shift are in the range of the calendar. -/
structure InCalendar (calendar : CalendarPeriod) (anchor : Timestamp) (steps : Signed 64) : Prop where
  zone : ∃ zone, resolveZone calendar.zone = .ok zone
  instant : Fits anchor.nanos ∧ representable anchor.nanos = true
  total : Fits (calendar.time.val * steps.val)
  result : Fits (anchor.nanos + calendar.time.val * steps.val)

variable {duration : Signed 128} {anchor : Timestamp} {steps : Signed 64}

/-- A fixed period advances by its whole ticks in range. -/
theorem advanceFrom_fixed (inRange : InRange duration anchor steps) :
    ∃ boundary, Period.advanceFrom (.fixed duration) anchor steps = .ok boundary ∧
      boundary.precision = anchor.precision ∧
      boundary.count.val = anchor.count.val + stepOf duration anchor.precision * steps.val := by
  obtain ⟨added, product, ticks⟩ := checked_of_fits inRange.1
  obtain ⟨count, sum, same⟩ := checked_of_fits inRange.2
  rw [← ticks] at sum
  refine ⟨⟨count, anchor.precision⟩, ?_, rfl, same⟩
  rw [Period.advanceFrom, product]
  change (checked (anchor.count.val + added.val) >>= _) = _
  rw [sum]
  rfl

/-- A boundary of the calendar has the precision of its anchor. -/
theorem advanceCalendarChecked_precision {calendar : CalendarPeriod} {reached : Timestamp × Bool}
    (advanced : advanceCalendarChecked calendar anchor steps = .ok reached) :
    reached.1.precision = anchor.precision := by
  simp only [advanceCalendarChecked, bind_ok] at advanced
  obtain ⟨_, -, _, -, _, -, _, -, _, -, _, -, _, -, _, -, _, -, _, -, _, -, _, -, same⟩ := advanced
  cases same
  rfl

/-- What a calendar advances is in its range. -/
theorem inCalendar_zero {calendar : CalendarPeriod} {reached : Timestamp × Bool}
    (advanced : advanceCalendarChecked calendar anchor steps = .ok reached) :
    InCalendar calendar anchor ⟨0, by decide, by decide⟩ := by
  simp only [advanceCalendarChecked, bind_ok] at advanced
  obtain ⟨nanos, held, instant, represented, zone, resolved, -⟩ := advanced
  obtain ⟨fits, same⟩ := fits_of_checked held
  have still : calendar.time.val * (⟨0, by decide, by decide⟩ : Signed 64).val = 0 := mul_zero _
  refine ⟨⟨zone, resolved⟩, ⟨fits, ?_⟩, ?_, ?_⟩
  · split at represented
    next known => rwa [same] at known
    next => cases represented
  · rw [still]
    exact ⟨by decide, by decide⟩
  · rw [still, add_zero]
    exact fits

variable [CalendarLaws]

theorem calendarDayIsMissing_zero (anchor : CivilDate) :
    calendarDayIsMissing anchor ⟨0, by decide, by decide⟩ ⟨0, by decide, by decide⟩ = .ok false := by
  have own : ({ CalendarSpan.zero with
      years := ⟨0, by decide, by decide⟩, months := ⟨0, by decide, by decide⟩ } : CalendarSpan) = .zero := rfl
  rw [calendarDayIsMissing]
  simp only [own, CalendarLaws.admits_zero, if_true, CalendarLaws.addToDate_zero, inRange]
  simp only [ok_bind, CalendarLaws.isDate_own]
  rfl

/-- A calendar shift by no date adds the exact scaled time. -/
theorem advanceCalendarChecked_still {calendar : CalendarPeriod} (still : Still calendar steps)
    (reaches : InCalendar calendar anchor steps) :
    ∃ boundary, advanceCalendarChecked calendar anchor steps = .ok (boundary, false) ∧
      boundary.precision = anchor.precision ∧ boundary.count.val = exactCount calendar.time anchor steps := by
  obtain ⟨zone, resolved⟩ := reaches.zone
  obtain ⟨nanos, held, same⟩ := checked_of_fits reaches.instant.1
  obtain ⟨total, product, scaled⟩ := checked_of_fits reaches.total
  obtain ⟨result, sum, exact⟩ := checked_of_fits reaches.result
  rw [nanos_eq] at held
  rw [← scaled] at sum
  have represented : representable nanos.val = true := by
    rw [same]
    exact reaches.instant.2
  have kept : addToZoned zone nanos.val .zero = some nanos.val := CalendarLaws.addToZoned_zero zone _ represented
  have zero : (⟨⟨0, by decide, by decide⟩, ⟨0, by decide, by decide⟩, ⟨0, by decide, by decide⟩,
      ⟨0, by decide, by decide⟩⟩ : CalendarSpan) = .zero := rfl
  have accepts : wouldReject calendar (date zone nanos.val) ⟨0, by decide, by decide⟩ ⟨0, by decide, by decide⟩ =
      .ok false := by
    rw [wouldReject]
    split
    · exact calendarDayIsMissing_zero _
    · rfl
  refine ⟨⟨ticksBelow result anchor.precision, anchor.precision⟩, ?_, rfl, ?_⟩
  · rw [advanceCalendarChecked, held, ok_bind, if_pos represented, inRange, ok_bind, resolved, ok_bind,
      scaled_zero still.years, ok_bind, scaled_zero still.months, ok_bind, scaled_zero still.weeks, ok_bind,
      scaled_zero still.days, ok_bind, accepts, ok_bind, zero, if_pos CalendarLaws.admits_zero, inRange, ok_bind,
      kept, inRange, ok_bind, product, ok_bind, same, sum]
    rfl
  · change result.val / nanosPerTick anchor.precision = _
    rw [exact, exactCount]

end Scaling

section Sample

/-- The calendar library on the first day of the epoch, for spans of no magnitude. -/
@[reducible] def firstDay : CalendarLibrary where
  Zone := Unit
  CivilDate := Int × Int × Int
  utc := ()
  zone _ := none
  representable nanos := -377705023201000000000 ≤ nanos && nanos ≤ 253402207200999999999
  date _ _ := (1970, 1, 1)
  year date := date.1
  month date := date.2.1
  day date := date.2.2
  firstOfMonth date := (date.1, date.2.1, 1)
  isDate _ _ _ := true
  admits span := span = .zero
  addToDate date span := if span = .zero then some date else none
  addToZoned _ nanos span := if span = .zero then some nanos else none

theorem firstDay_laws : @CalendarLaws firstDay :=
  letI := firstDay
  { admits_zero := rfl
    addToDate_zero := fun _ => rfl
    addToZoned_zero := fun _ _ _ => rfl
    isDate_own := fun _ => rfl }

/-- The start of the epoch in seconds. -/
def epoch : Timestamp :=
  ⟨⟨0, by decide, by decide⟩, .seconds⟩

/-- A duration of some milliseconds. -/
def milliseconds (count : Fin 10000) : Signed 128 :=
  ⟨count.val * 1000000, by omega, by omega⟩

end Sample

end Liasse.Bucket

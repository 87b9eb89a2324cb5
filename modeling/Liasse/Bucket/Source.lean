/-
This file models the recurrence of periods, the buckets that derive their rows from a source view by an interval series,
and the pass that checks the derived series at admission.
-/

import Liasse.Expr.Tree
import Liasse.Runtime.Instant
import Liasse.Value.Total

namespace Liasse.Bucket

section Periods

/-- The reason why a series is not generated. -/
inductive SeriesError
  | periodOutOfRange
  | periodZoneUnavailable (zone : String)
  | calendarOverflowRejected
  | seriesBoundNotAfterStart
  | nonAdvancingPeriod
  | seriesTooLong
deriving DecidableEq

/-- The calendar library is code outside the repository. It advances an anchor by calendar steps, with the
clamped count of ticks and whether the destination day is missing under a rejecting policy. -/
class CalendarArithmetic where
  advance : CalendarPeriod → Timestamp → Int → Except SeriesError (Signed 128 × Bool)

/-- A sum or a product that fits a machine integer. -/
def checked (value : Int) : Except SeriesError (Signed 128) :=
  if fits : -2 ^ 127 ≤ value ∧ value < 2 ^ 127 then .ok ⟨value, by simpa using fits.1, by simpa using fits.2⟩
  else .error .periodOutOfRange

/-- The nanoseconds of one tick. -/
def nanosPerTick (precision : Precision) : Int :=
  1000000000 / precision.ticksPerSecond

/-- The whole ticks of a fixed period. -/
def stepOf (duration : Signed 128) (precision : Precision) : Int :=
  duration.val.tdiv (nanosPerTick precision)

variable [CalendarArithmetic]

/-- The boundary some steps after an anchor, and whether the policy of the period rejects it. -/
def advanceReporting (period : Period) (anchor : Timestamp) (steps : Nat) :
    Except SeriesError (Timestamp × Bool) :=
  match period with
  | .fixed duration => do
      let added ← checked (stepOf duration anchor.precision * steps)
      let count ← checked (anchor.count.val + added.val)
      return (⟨count, anchor.precision⟩, false)
  | .calendar calendar => do
      let (count, rejects) ← CalendarArithmetic.advance calendar anchor steps
      return (⟨count, anchor.precision⟩, rejects)

/-- The boundary some steps after an anchor. -/
def advanceFrom (period : Period) (anchor : Timestamp) (steps : Nat) : Except SeriesError Timestamp :=
  match advanceReporting period anchor steps with
  | .error error => .error error
  | .ok (boundary, rejects) => if rejects then .error .calendarOverflowRejected else .ok boundary

end Periods

section Series

/-- A generated interval is half-open. An absent end is that of a single unbounded interval. -/
structure Interval where
  index : Nat
  start : Timestamp
  finish : Option Timestamp
deriving DecidableEq

/-- The count of intervals that guards an enumeration. -/
def seriesCap : Nat :=
  200000

variable [CalendarArithmetic]

/-- The intervals from a boundary. The bound of a series clips its last interval, and the horizon ends
an unbounded series. -/
def intervalsFrom (anchor : Timestamp) (bound : Option Timestamp) (period : Period) (horizon : Timestamp) :
    Nat → Timestamp → Nat → Except SeriesError (List Interval)
  | 0, _, _ => .error .seriesTooLong
  | left + 1, boundary, index =>
    match advanceReporting period anchor (index + 1) with
    | .error error => .error error
    | .ok (next, rejects) =>
      match bound with
      | some bound =>
        if bound ≤ next then .ok [⟨index, boundary, some bound⟩]
        else if rejects then .error .calendarOverflowRejected
        else if next ≤ boundary then .error .nonAdvancingPeriod
        else
          match intervalsFrom anchor (some bound) period horizon left next (index + 1) with
          | .error error => .error error
          | .ok rest => .ok (⟨index, boundary, some next⟩ :: rest)
      | none =>
        if rejects then .error .calendarOverflowRejected
        else if next ≤ boundary then .error .nonAdvancingPeriod
        else if horizon ≤ next then .ok [⟨index, boundary, some next⟩]
        else
          match intervalsFrom anchor none period horizon left next (index + 1) with
          | .error error => .error error
          | .ok rest => .ok (⟨index, boundary, some next⟩ :: rest)

/-- The interval series from a start. -/
def recurringIntervals (start : Timestamp) (bound : Option Timestamp) (period : Option Period)
    (horizon : Timestamp) : Except SeriesError (List Interval) :=
  if bound.any fun bound => bound ≤ start then .error .seriesBoundNotAfterStart
  else
    match period with
    | none => .ok [⟨0, start, bound⟩]
    | some period => intervalsFrom start bound period horizon (seriesCap + 1) start 0

end Series

section Shape

variable [CalendarArithmetic] {anchor horizon : Timestamp} {bound : Option Timestamp} {period : Period}

/-- A boundary of a series. The first is the anchor. -/
def IsBoundary (period : Period) (anchor : Timestamp) (index : Nat) (boundary : Timestamp) : Prop :=
  match index with
  | 0 => boundary = anchor
  | index + 1 => advanceFrom period anchor (index + 1) = .ok boundary

theorem IsBoundary.unique {index : Nat} {first second : Timestamp}
    (left : IsBoundary period anchor index first) (right : IsBoundary period anchor index second) :
    first = second := by
  cases index with
  | zero => exact left.trans right.symm
  | succ index => exact Except.ok.inj (left.symm.trans right)

theorem advanceFrom_ok {index : Nat} {next : Timestamp}
    (advanced : advanceReporting period anchor index = .ok (next, false)) :
    advanceFrom period anchor index = .ok next := by
  simp [advanceFrom, advanced]

/-- The end of an interval is its next boundary, clipped to the bound of the series. -/
def clipped (bound : Option Timestamp) (next : Timestamp) : Timestamp :=
  match bound with
  | some bound => if bound ≤ next then bound else next
  | none => next

/-- The interval of a series at an index. -/
structure IsInterval (anchor : Timestamp) (bound : Option Timestamp) (period : Period)
    (interval : Interval) : Prop where
  start : IsBoundary period anchor interval.index interval.start
  finish : ∃ next rejects, advanceReporting period anchor (interval.index + 1) = .ok (next, rejects) ∧
    interval.finish = some (clipped bound next) ∧
    (bound = none → rejects = false ∧ ¬ next ≤ interval.start)

/-- A series has one interval at an index. -/
theorem IsInterval.unique {first second : Interval} (left : IsInterval anchor bound period first)
    (right : IsInterval anchor bound period second) (same : first.index = second.index) :
    first = second := by
  obtain ⟨index, start, finish⟩ := first
  obtain ⟨other, begun, ended⟩ := second
  obtain rfl : index = other := same
  obtain rfl : start = begun := left.start.unique right.start
  obtain ⟨next, _, advanced, rfl, -⟩ := left.finish
  obtain ⟨later, _, also, rfl, -⟩ := right.finish
  obtain ⟨rfl, -⟩ := Prod.mk.inj (Except.ok.inj (advanced.symm.trans also))
  rfl

/-- The generated intervals count on from an index and start later one after the other. -/
structure Ascends (anchor : Timestamp) (bound : Option Timestamp) (period : Period) (boundary : Timestamp)
    (index : Nat) (intervals : List Interval) : Prop where
  counts : intervals.map Interval.index = List.range' index intervals.length
  above : ∀ interval ∈ intervals, boundary.nanos ≤ interval.start.nanos
  starts : intervals.Pairwise fun first second => first.start < second.start
  shape : ∀ interval ∈ intervals, IsInterval anchor bound period interval

/-- One interval ascends. -/
theorem Ascends.last (bound : Option Timestamp) {boundary next : Timestamp} {index : Nat} {rejects : Bool}
    (at_ : IsBoundary period anchor index boundary)
    (advanced : advanceReporting period anchor (index + 1) = .ok (next, rejects))
    (open_ : bound = none → rejects = false ∧ ¬ next ≤ boundary) :
    Ascends anchor bound period boundary index [⟨index, boundary, some (clipped bound next)⟩] where
  counts := rfl
  above interval inside := by rw [List.mem_singleton.mp inside]
  starts := List.pairwise_singleton _ _
  shape interval inside := by
    rw [List.mem_singleton.mp inside]
    exact ⟨at_, next, rejects, advanced, rfl, open_⟩

/-- An interval before a later ascent ascends. -/
theorem Ascends.cons {boundary next : Timestamp} {index : Nat} {rest : List Interval}
    (at_ : IsBoundary period anchor index boundary)
    (advanced : advanceReporting period anchor (index + 1) = .ok (next, false))
    (advances : ¬ next ≤ boundary) (later : Ascends anchor bound period next (index + 1) rest) :
    Ascends anchor bound period boundary index
      (⟨index, boundary, some (clipped bound next)⟩ :: rest) where
  counts := by
    rw [List.map_cons, later.counts, List.length_cons, List.range'_succ]
  above interval inside := by
    rcases List.mem_cons.mp inside with rfl | inside
    · exact le_rfl
    · rw [Timestamp.le_iff, not_le] at advances
      exact advances.le.trans (later.above interval inside)
  starts := by
    rw [Timestamp.le_iff, not_le] at advances
    refine List.pairwise_cons.mpr ⟨fun interval inside => ?_, later.starts⟩
    exact Timestamp.lt_iff.mpr (advances.trans_le (later.above interval inside))
  shape interval inside := by
    rcases List.mem_cons.mp inside with rfl | inside
    · exact ⟨at_, next, false, advanced, rfl, fun _ => ⟨rfl, advances⟩⟩
    · exact later.shape interval inside

/-- How a series unrolls from a boundary. The last interval is clipped to the bound of the series, or it is
closed at the horizon. -/
inductive Unrolls (anchor : Timestamp) (bound : Option Timestamp) (period : Period) (horizon : Timestamp) :
    Timestamp → Nat → List Interval → Prop
  | clip {boundary next until_ : Timestamp} {index : Nat} {rejects : Bool}
      (advanced : advanceReporting period anchor (index + 1) = .ok (next, rejects)) (bounded : bound = some until_)
      (reached : until_ ≤ next) : Unrolls anchor bound period horizon boundary index [⟨index, boundary, some until_⟩]
  | close {boundary next : Timestamp} {index : Nat}
      (advanced : advanceReporting period anchor (index + 1) = .ok (next, false)) (advances : ¬ next ≤ boundary)
      (unbounded : bound = none) (reached : horizon ≤ next) :
      Unrolls anchor bound period horizon boundary index [⟨index, boundary, some next⟩]
  | step {boundary next : Timestamp} {index : Nat} {rest : List Interval}
      (advanced : advanceReporting period anchor (index + 1) = .ok (next, false)) (advances : ¬ next ≤ boundary)
      (inside : ∀ until_, bound = some until_ → ¬ until_ ≤ next) (before : bound = none → ¬ horizon ≤ next)
      (later : Unrolls anchor bound period horizon next (index + 1) rest) :
      Unrolls anchor bound period horizon boundary index (⟨index, boundary, some next⟩ :: rest)

/-- The intervals of the loop are so unrolled, and it counts them. -/
theorem intervalsFrom_generates {left index : Nat} {boundary : Timestamp} {intervals : List Interval}
    (generated : intervalsFrom anchor bound period horizon left boundary index = .ok intervals) :
    Unrolls anchor bound period horizon boundary index intervals ∧ intervals.length ≤ left := by
  induction left generalizing boundary index intervals with
  | zero => cases generated
  | succ left earlier =>
    rw [intervalsFrom] at generated
    cases advanced : advanceReporting period anchor (index + 1) with
    | error error => simp [advanced] at generated
    | ok reached =>
      obtain ⟨next, rejects⟩ := reached
      cases bound with
      | some bound =>
        simp only [advanced] at generated
        split at generated
        next clips =>
          cases generated
          exact ⟨.clip advanced rfl clips, Nat.le_add_left 1 left⟩
        next open_ =>
          split at generated
          next => cases generated
          next accepts =>
            obtain rfl : rejects = false := by simpa using accepts
            split at generated
            next => cases generated
            next advances =>
              split at generated
              next => cases generated
              next rest made =>
                cases generated
                obtain ⟨later, few⟩ := earlier made
                refine ⟨.step advanced advances ?_ (fun missing => nomatch missing) later, Nat.succ_le_succ few⟩
                rintro _ ⟨⟩
                exact open_
      | none =>
        simp only [advanced] at generated
        split at generated
        next => cases generated
        next accepts =>
          obtain rfl : rejects = false := by simpa using accepts
          split at generated
          next => cases generated
          next advances =>
            split at generated
            next reaches =>
              cases generated
              exact ⟨.close advanced advances rfl reaches, Nat.le_add_left 1 left⟩
            next short =>
              split at generated
              next => cases generated
              next rest made =>
                cases generated
                obtain ⟨later, few⟩ := earlier made
                exact ⟨.step advanced advances (fun _ given => nomatch given) (fun _ => short) later,
                  Nat.succ_le_succ few⟩

/-- The generated intervals from a boundary ascend. -/
theorem Unrolls.ascends {boundary : Timestamp} {index : Nat} {intervals : List Interval}
    (at_ : IsBoundary period anchor index boundary)
    (unrolls : Unrolls anchor bound period horizon boundary index intervals) :
    Ascends anchor bound period boundary index intervals := by
  induction unrolls with
  | clip advanced bounded reached =>
    have shown := Ascends.last bound at_ advanced fun missing => nomatch bounded.symm.trans missing
    simp only [bounded, clipped, if_pos reached] at shown
    exact bounded ▸ shown
  | close advanced advances unbounded reached =>
    have shown := Ascends.last bound at_ advanced fun _ => ⟨rfl, advances⟩
    simp only [unbounded, clipped] at shown
    exact unbounded ▸ shown
  | @step boundary next index rest advanced advances inside before later earlier =>
    have shown := Ascends.cons at_ advanced advances (earlier (advanceFrom_ok advanced))
    have kept : clipped bound next = next := by
      cases bound with
      | none => rfl
      | some until_ => exact if_neg (inside until_ rfl)
    rwa [kept] at shown

/-- A recurring series is generated from its start. -/
theorem recurringIntervals_generates {intervals : List Interval}
    (generated : recurringIntervals anchor bound (some period) horizon = .ok intervals) :
    (∀ until_, bound = some until_ → ¬ until_ ≤ anchor) ∧
      Unrolls anchor bound period horizon anchor 0 intervals ∧ intervals.length ≤ seriesCap + 1 := by
  rw [recurringIntervals] at generated
  split at generated
  next => cases generated
  next above =>
    refine ⟨?_, intervalsFrom_generates generated⟩
    rintro until_ rfl
    simpa using above

/-- A recurring series ascends from its start. -/
theorem recurringIntervals_ascends {intervals : List Interval}
    (generated : recurringIntervals anchor bound (some period) horizon = .ok intervals) :
    Ascends anchor bound period anchor 0 intervals :=
  (recurringIntervals_generates generated).2.1.ascends rfl

/-- An ascent has an interval at each index below another of its intervals. -/
theorem Ascends.below {intervals : List Interval} (ascends : Ascends anchor bound period anchor 0 intervals)
    {interval : Interval} (inside : interval ∈ intervals) {index : Nat} (lower : index < interval.index) :
    ∃ earlier ∈ intervals, earlier.index = index ∧ earlier.start < interval.start := by
  have within : interval.index ∈ List.range' 0 intervals.length := by
    rw [← ascends.counts]
    exact List.mem_map_of_mem inside
  have listed : index ∈ intervals.map Interval.index := by
    rw [ascends.counts]
    simp only [List.mem_range'_1] at within ⊢
    omega
  obtain ⟨earlier, also, rfl⟩ := List.mem_map.mp listed
  refine ⟨earlier, also, rfl, ?_⟩
  -- The starts and the indices are in the same order.
  have ordered : intervals.Pairwise fun first second =>
      first.index < second.index ∧ first.start < second.start := by
    have indices : intervals.Pairwise fun first second => first.index < second.index := by
      rw [← List.pairwise_map, ascends.counts]
      exact List.pairwise_lt_range'
    exact indices.and ascends.starts
  rw [List.pairwise_iff_getElem] at ordered
  obtain ⟨left, leftIn, rfl⟩ := List.mem_iff_getElem.mp also
  obtain ⟨right, rightIn, rfl⟩ := List.mem_iff_getElem.mp inside
  rcases Nat.lt_trichotomy left right with before | same | after
  · exact (ordered left right leftIn rightIn before).2
  · subst same
    exact absurd lower (lt_irrefl _)
  · exact absurd (ordered right left rightIn leftIn after).1 (by omega)

end Shape

section Horizons

variable [CalendarArithmetic] {anchor : Timestamp} {period : Period}

/-- A bounded series does not depend on the horizon. -/
theorem intervalsFrom_bounded (bound : Timestamp) (first second : Timestamp) (left : Nat)
    (boundary : Timestamp) (index : Nat) :
    intervalsFrom anchor (some bound) period first left boundary index =
      intervalsFrom anchor (some bound) period second left boundary index := by
  induction left generalizing boundary index with
  | zero => rfl
  | succ left earlier =>
    rw [intervalsFrom, intervalsFrom]
    cases advanceReporting period anchor (index + 1) with
    | error error => rfl
    | ok reached => simp only [earlier]

theorem recurringIntervals_bounded (bound : Timestamp) (period : Option Period) (first second : Timestamp) :
    recurringIntervals anchor (some bound) period first = recurringIntervals anchor (some bound) period second := by
  cases period with
  | none => rfl
  | some period => simp only [recurringIntervals, intervalsFrom_bounded bound first second]

/-- An unbounded series advances from its start. -/
theorem recurringIntervals_advances {horizon : Timestamp} {intervals : List Interval}
    (generated : recurringIntervals anchor none (some period) horizon = .ok intervals) :
    ∃ next, advanceReporting period anchor 1 = .ok (next, false) ∧ ¬ next ≤ anchor := by
  simp only [recurringIntervals, Option.any_none, Bool.false_eq_true, if_false] at generated
  rw [intervalsFrom] at generated
  cases advanced : advanceReporting period anchor (0 + 1) with
  | error error => simp [advanced] at generated
  | ok reached =>
    obtain ⟨next, rejects⟩ := reached
    simp only [advanced] at generated
    split at generated
    next => cases generated
    next accepts =>
      obtain rfl : rejects = false := by simpa using accepts
      split at generated
      next => cases generated
      next advances => exact ⟨next, rfl, advances⟩

/-- A horizon at the first boundary or before it ends an unbounded series after one interval. -/
theorem recurringIntervals_one {next horizon : Timestamp}
    (advanced : advanceReporting period anchor 1 = .ok (next, false)) (advances : ¬ next ≤ anchor)
    (reached : horizon ≤ next) :
    recurringIntervals anchor none (some period) horizon = .ok [⟨0, anchor, some next⟩] := by
  simp only [recurringIntervals, Option.any_none, Bool.false_eq_true, if_false]
  rw [intervalsFrom]
  simp only [Nat.zero_add, advanced, Bool.false_eq_true, if_false, if_neg advances, if_pos reached]

/-- A horizon at the second boundary ends an unbounded series after two intervals. -/
theorem recurringIntervals_two {next later : Timestamp}
    (advanced : advanceReporting period anchor 1 = .ok (next, false)) (advances : ¬ next ≤ anchor)
    (again : advanceReporting period anchor 2 = .ok (later, false)) (above : ¬ later ≤ next) :
    recurringIntervals anchor none (some period) later =
      .ok [⟨0, anchor, some next⟩, ⟨1, next, some later⟩] := by
  have itself : later ≤ later := Timestamp.le_iff.mpr le_rfl
  simp only [recurringIntervals, Option.any_none, Bool.false_eq_true, if_false]
  rw [intervalsFrom]
  simp only [Nat.zero_add, advanced, Bool.false_eq_true, if_false, if_neg advances, if_neg above]
  rw [show seriesCap = 199999 + 1 from rfl, intervalsFrom]
  simp only [Nat.reduceAdd, again, Bool.false_eq_true, if_false, if_neg above, if_pos itself]

end Horizons

end Liasse.Bucket

namespace Liasse.Bucket

open Liasse.Expr

section Identities

/-- What the runtime compares of a part of an identity. -/
inductive FacePart
  | key (value : ValueClass)
  | occurrence (index : Nat)
deriving DecidableEq

/-- What the runtime compares of the identity of a row. -/
abbrev Face := List FacePart

/-- The part of an identity up to the equality of its value. -/
def partFace : RowIdPart → FacePart
  | .key value => .key (.of value)
  | .occurrence index => .occurrence index

/-- What the runtime compares of an identity. -/
def face (id : RowId) : Face :=
  id.map partFace

/-- The canonical text of the values of a key. The results hold for each such text. -/
class KeyText where
  keyText : List Value → String

end Identities

section Buckets

/-- The bucket has its bounds and its custom key as typed expressions. An expression over a source row
gives a cell, or it fails. A key component reads the interval too. -/
structure CompiledSourceBucket where
  fromExpr : Row → Option Cell
  untilExpr : Option (Row → Option Cell)
  repeatExpr : Option (Row → Option Cell)
  key : Option (List (Row → Interval → Option Cell))

/-- The timestamp of a cell. -/
def timestampOf : Cell → Option Timestamp
  | .scalar (.timestamp instant) => some instant
  | _ => none

/-- The period of a cell. -/
def periodOf : Cell → Option Period
  | .scalar (.period period) => some period
  | _ => none

/-- The value of a component that evaluates to a scalar, or `none`. -/
def scalarOf : Option Cell → Value
  | some (.scalar value) => value
  | _ => .none

/-- An optional bound is absent when it has no expression or when its value has another type. -/
def readBound {A : Type} (expr : Option (Row → Option Cell)) (pick : Cell → Option A) (source : Row) :
    Option (Option A) :=
  match expr with
  | none => some none
  | some expr => (expr source).map pick

/-- The start, the bound and the period of the series of one source row. -/
structure Bounds where
  start : Timestamp
  bound : Option Timestamp
  period : Option Period
deriving DecidableEq

variable [CalendarArithmetic] [KeyText]

namespace CompiledSourceBucket

/-- The bounds of a source row. -/
def bounds (bucket : CompiledSourceBucket) (source : Row) : Option Bounds := do
  let start ← (← bucket.fromExpr source) |> timestampOf
  let bound ← readBound bucket.untilExpr timestampOf source
  let period ← readBound bucket.repeatExpr periodOf source
  return ⟨start, bound, period⟩

/-- The identity of a derived row. A custom key names it by its components. The inferred identity is the
source identity, extended with the start when the bucket recurs. -/
def identity (bucket : CompiledSourceBucket) (source : Row) (interval : Interval) : RowId :=
  match bucket.key with
  | some components =>
    [.key (.text (KeyText.keyText (components.map fun component => scalarOf (component source interval))))]
  | none =>
    if bucket.repeatExpr.isSome then
      source.id ++ [.key (.text interval.start.count.val.repr)]
    else source.id

/-- What the runtime compares of the identity of a derived row. -/
def generatedIdentity (bucket : CompiledSourceBucket) (source : Row) (interval : Interval) : Face :=
  face (bucket.identity source interval)

end CompiledSourceBucket

end Buckets

section Grids

/-- The recurrence phase of an unbounded source row. -/
structure GridPhase where
  start : Timestamp
  period : Period
  fromIdentity : Bool

/-- The greatest common divisor of two positive counts. -/
def gcd (first second : Int) : Int :=
  if 0 < second then gcd second (first % second) else first
termination_by second.toNat
decreasing_by
  have := Int.emod_lt_of_pos first ‹_›
  have := Int.emod_nonneg first (ne_of_gt ‹0 < second›)
  omega

/-- A machine sum or difference wraps around. -/
def wrap (value : Int) : Int :=
  value.bmod (2 ^ 128)

/-- Two grids of fixed periods at one precision share no boundary when the offset is no multiple of the
divisor of their steps. Other grids are not proven disjoint. -/
def GridPhase.provablyDisjoint (phase other : GridPhase) : Bool :=
  if !(phase.fromIdentity && other.fromIdentity) then false
  else
    match phase.period, other.period with
    | .fixed first, .fixed second =>
      if phase.start.precision ≠ other.start.precision then false
      else
        let stepA := stepOf first phase.start.precision
        let stepB := stepOf second phase.start.precision
        if stepA ≤ 0 || stepB ≤ 0 then false
        else wrap (phase.start.count.val - other.start.count.val) % gcd stepA stepB ≠ 0
    | _, _ => false

end Grids

section Validation

variable [CalendarArithmetic] [KeyText]

/-- The horizon of the enumeration of one source row. An unbounded series has two periods below it. -/
def uniquenessHorizon (bounds : Bounds) : Timestamp :=
  match bounds.period, bounds.bound with
  | some period, none =>
    match advanceFrom period bounds.start 2 with
    | .ok boundary => boundary
    | .error _ => bounds.start
  | _, _ => bounds.start

/-- The reason why a transition is refused. -/
inductive BucketRejection
  | series (error : SeriesError)
  | gridsMeet
  | duplicateKey
deriving DecidableEq

/-- The identities that the pass has seen and the grids that it has placed. -/
structure Pass where
  seen : List Face
  grids : List (Face × GridPhase)

/-- The identities of some rows join the seen ones unless one repeats. -/
def insertAll (seen : List Face) : List Face → Option (List Face)
  | [] => some seen
  | face :: rest => if face ∈ seen then none else insertAll (face :: seen) rest

namespace CompiledSourceBucket

/-- The identity of a source row under a common interval. -/
def probeIdentity (bucket : CompiledSourceBucket) (now : Timestamp) (source : Row) : Face :=
  bucket.generatedIdentity source ⟨0, now, none⟩

/-- A later tick, with the wrap of the machine. -/
def probeTick (start : Timestamp) (offset : Int) : Timestamp :=
  ⟨⟨wrap (start.count.val + offset), by
      unfold wrap
      have := @Int.le_bmod (start.count.val + offset) (2 ^ 128) (by decide)
      omega, by
      unfold wrap
      have := @Int.bmod_lt (start.count.val + offset) (2 ^ 128) (by decide)
      omega⟩, start.precision⟩

/-- A component of the key is taken for the start of the interval when it equals it at three instants, for
another index and under another end. -/
def keyHasFromIdentity (bucket : CompiledSourceBucket) (source : Row) (start : Timestamp) : Bool :=
  match bucket.key with
  | none => false
  | some components =>
    let first := probeTick start 1
    let second := probeTick start 1000
    let third := probeTick start 7777
    let finish := probeTick start 123456
    components.any fun component =>
      let is (interval : Interval) (expected : Timestamp) : Bool :=
        ValueClass.of (scalarOf (component source interval)) = ValueClass.of (.timestamp expected)
      is ⟨0, first, none⟩ first && is ⟨0, second, none⟩ second && is ⟨0, third, none⟩ third &&
        is ⟨3, first, none⟩ first && is ⟨0, first, some finish⟩ first

/-- The probe and the phase of an unbounded recurring source row. -/
def phaseOf (bucket : CompiledSourceBucket) (now : Timestamp) (source : Row) (bounds : Bounds) :
    Option (Face × GridPhase) :=
  match bounds.period, bounds.bound with
  | some period, none => some (bucket.probeIdentity now source,
      ⟨bounds.start, period, bucket.keyHasFromIdentity source bounds.start⟩)
  | _, _ => none

/-- The grids with the one of a source row, unless it can meet one of the same probe. -/
def placeGrid (grids : List (Face × GridPhase)) :
    Option (Face × GridPhase) → Option (List (Face × GridPhase))
  | none => some grids
  | some (probe, phase) =>
    if grids.any fun other => other.1 = probe && !phase.provablyDisjoint other.2 then none
    else some ((probe, phase) :: grids)

/-- The pass over one source row. -/
def validateSource (bucket : CompiledSourceBucket) (now : Timestamp) (pass : Pass) (source : Row) :
    Except BucketRejection Pass :=
  match bucket.bounds source with
  | none => .ok pass
  | some bounds =>
    match recurringIntervals bounds.start bounds.bound bounds.period bounds.start with
    | .error error => .error (.series error)
    | .ok _ =>
      if bucket.key.isNone then .ok pass
      else
        match placeGrid pass.grids (bucket.phaseOf now source bounds) with
        | none => .error .gridsMeet
        | some grids =>
          match recurringIntervals bounds.start bounds.bound bounds.period (uniquenessHorizon bounds) with
          | .error _ => .ok { pass with grids := grids }
          | .ok intervals =>
            match insertAll pass.seen (intervals.map (bucket.generatedIdentity source)) with
            | none => .error .duplicateKey
            | some seen => .ok ⟨seen, grids⟩

/-- The pass over source rows. -/
def validateFrom (bucket : CompiledSourceBucket) (now : Timestamp) :
    Pass → List Row → Except BucketRejection Pass
  | pass, [] => .ok pass
  | pass, source :: rest =>
    match bucket.validateSource now pass source with
    | .error error => .error error
    | .ok pass => bucket.validateFrom now pass rest

/-- The pass over all source rows of a transition. -/
def validate (bucket : CompiledSourceBucket) (now : Timestamp) (sources : List Row) :
    Except BucketRejection Unit :=
  (bucket.validateFrom now ⟨[], []⟩ sources).map fun _ => ()

end CompiledSourceBucket

end Validation

end Liasse.Bucket

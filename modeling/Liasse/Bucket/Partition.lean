/-
This file proves what a recurring series is.
-/

import Liasse.Bucket.Calendar

namespace Liasse.Bucket

section Loop

variable [CalendarArithmetic] (anchor : Timestamp) (bound : Option Timestamp) (period : Period)
  (horizon : Timestamp)

/-- The state of the loop: the intervals so far, the last boundary and its index. -/
structure SeriesLoop where
  intervals : List Interval
  boundary : Timestamp
  index : Nat

namespace SeriesLoop

/-- The loop takes the next boundary unless it has too many intervals. -/
def next (intervals : List Interval) (boundary : Timestamp) (index : Nat) :
    Except SeriesError (List Interval) ⊕ SeriesLoop :=
  if seriesCap < intervals.length then .inl (.error .seriesTooLong) else .inr ⟨intervals, boundary, index⟩

/-- One turn of the loop ends it with its result, or it goes on. -/
def turn (loop : SeriesLoop) : Except SeriesError (List Interval) ⊕ SeriesLoop :=
  match advanceReporting period anchor (loop.index + 1) with
  | .error error => .inl (.error error)
  | .ok (boundary, rejects) =>
    match bound with
    | some until_ =>
      if until_ ≤ boundary then .inl (.ok (loop.intervals ++ [⟨loop.index, loop.boundary, some until_⟩]))
      else if rejects then .inl (.error .calendarOverflowRejected)
      else if boundary ≤ loop.boundary then .inl (.error .nonAdvancingPeriod)
      else next (loop.intervals ++ [⟨loop.index, loop.boundary, some boundary⟩]) boundary (loop.index + 1)
    | none =>
      if rejects then .inl (.error .calendarOverflowRejected)
      else if boundary ≤ loop.boundary then .inl (.error .nonAdvancingPeriod)
      else if horizon ≤ boundary then .inl (.ok (loop.intervals ++ [⟨loop.index, loop.boundary, some boundary⟩]))
      else next (loop.intervals ++ [⟨loop.index, loop.boundary, some boundary⟩]) boundary (loop.index + 1)

/-- The result of the loop when some turns end it. -/
def run (loop : SeriesLoop) : Nat → Option (Except SeriesError (List Interval))
  | 0 => none
  | turns + 1 => (loop.turn anchor bound period horizon).elim some fun later => later.run turns

variable {anchor bound period horizon}

/-- The loop ends, and its result is the generated series behind the intervals so far. -/
theorem run_eq {loop : SeriesLoop} {left : Nat} (room : loop.intervals.length + left = seriesCap + 1)
    (below : loop.intervals.length ≤ seriesCap) :
    loop.run anchor bound period horizon left =
      some ((intervalsFrom anchor bound period horizon left loop.boundary loop.index).map (loop.intervals ++ ·)) := by
  induction left generalizing loop with
  | zero => omega
  | succ left earlier =>
    -- A turn that goes on has the result of the later turns behind one more interval.
    have later : ∀ boundary,
        (next (loop.intervals ++ [⟨loop.index, loop.boundary, some boundary⟩]) boundary (loop.index + 1)).elim some
            (fun later => later.run anchor bound period horizon left) =
          some ((intervalsFrom anchor bound period horizon left boundary (loop.index + 1)).map fun rest =>
            loop.intervals ++ ⟨loop.index, loop.boundary, some boundary⟩ :: rest) := by
      intro boundary
      rw [next]
      by_cases full : loop.intervals.length = seriesCap
      · obtain rfl : left = 0 := by omega
        rw [if_pos (by simp [full])]
        rfl
      · rw [if_neg (by rw [List.length_append, List.length_singleton]; omega)]
        refine (earlier (by rw [List.length_append, List.length_singleton]; omega)
          (by rw [List.length_append, List.length_singleton]; omega)).trans ?_
        cases intervalsFrom anchor bound period horizon left boundary (loop.index + 1) with
        | error error => rfl
        | ok rest => simp [Except.map]
    rw [run, turn, intervalsFrom]
    cases advanceReporting period anchor (loop.index + 1) with
    | error error => rfl
    | ok reached =>
      obtain ⟨boundary, rejects⟩ := reached
      cases bound with
      | some until_ =>
        by_cases clips : until_ ≤ boundary
        · simp [clips, Except.map]
        · cases rejects with
          | true => simp [clips, Except.map]
          | false =>
            by_cases stays : boundary ≤ loop.boundary
            · simp [clips, stays, Except.map]
            · simp only [clips, stays, if_false, later boundary, Bool.false_eq_true]
              cases intervalsFrom anchor (some until_) period horizon left boundary (loop.index + 1) <;> rfl
      | none =>
        cases rejects with
        | true => rfl
        | false =>
          by_cases stays : boundary ≤ loop.boundary
          · simp [stays, Except.map]
          · by_cases reaches : horizon ≤ boundary
            · simp [stays, reaches, Except.map]
            · simp only [stays, reaches, if_false, later boundary, Bool.false_eq_true]
              cases intervalsFrom anchor none period horizon left boundary (loop.index + 1) <;> rfl

end SeriesLoop

/-- The loop of a series ends on every input. -/
theorem recurringIntervals_ends (start : Timestamp) (bound : Option Timestamp) (period : Period)
    (horizon : Timestamp) (open_ : bound.any (fun bound => bound ≤ start) = false) :
    SeriesLoop.run start bound period horizon ⟨[], start, 0⟩ (seriesCap + 1) =
      some (recurringIntervals start bound (some period) horizon) := by
  rw [SeriesLoop.run_eq (by simp) (by simp), recurringIntervals, open_]
  cases intervalsFrom start bound period horizon (seriesCap + 1) start 0 <;> simp [Except.map]

end Loop

section Partition

/-- An instant lies in a half-open interval. -/
def Interval.Covers (interval : Interval) (instant : Timestamp) : Prop :=
  interval.start ≤ instant ∧ ∃ finish, interval.finish = some finish ∧ instant < finish

/-- Intervals that lie one behind the other have no common instant. -/
theorem disjoint_of_apart {intervals : List Interval}
    (apart : intervals.Pairwise fun first second => ∀ finish, first.finish = some finish → finish ≤ second.start)
    {first second : Interval} (left : first ∈ intervals) (right : second ∈ intervals) (different : first ≠ second)
    (instant : Timestamp) : ¬ (first.Covers instant ∧ second.Covers instant) := by
  have disjoint : intervals.Pairwise fun first second => ∀ instant, ¬ (first.Covers instant ∧ second.Covers instant) := by
    refine apart.imp fun {first second} behind instant ⟨⟨_, finish, ends, before⟩, begun, _⟩ => ?_
    have later := behind finish ends
    rw [Timestamp.le_iff] at later begun
    rw [Timestamp.lt_iff] at before
    omega
  have symmetric : Std.Symm fun first second : Interval =>
      ∀ instant, ¬ (first.Covers instant ∧ second.Covers instant) :=
    ⟨fun _ _ none instant both => none instant ⟨both.2, both.1⟩⟩
  exact disjoint.forall left right different instant

variable [CalendarArithmetic] {anchor horizon boundary : Timestamp} {bound : Option Timestamp} {period : Period}
  {index : Nat} {intervals : List Interval}

namespace Unrolls

variable (unrolls : Unrolls anchor bound period horizon boundary index intervals)

include unrolls

/-- The first interval starts at the boundary. -/
theorem head : ∃ finish rest, intervals = ⟨index, boundary, finish⟩ :: rest := by
  cases unrolls with
  | clip => exact ⟨_, _, rfl⟩
  | close => exact ⟨_, _, rfl⟩
  | step => exact ⟨_, _, rfl⟩

/-- Each interval starts where the one before it ends. -/
theorem follows : intervals.IsChain fun first second => first.finish = some second.start := by
  induction unrolls with
  | clip => exact .singleton _
  | close => exact .singleton _
  | step _ _ _ _ later earlier =>
    obtain ⟨finish, rest, rfl⟩ := later.head
    exact .cons_cons rfl earlier

/-- No interval is empty. -/
theorem advances (inside : ∀ until_, bound = some until_ → ¬ until_ ≤ boundary) :
    ∀ interval ∈ intervals, ∃ finish, interval.finish = some finish ∧ interval.start < finish := by
  have above : ∀ {first second : Timestamp}, ¬ second ≤ first → first < second := by
    intro first second less
    rw [Timestamp.le_iff, not_le] at less
    exact Timestamp.lt_iff.mpr less
  induction unrolls with
  | clip advanced bounded reached =>
    intro interval member
    obtain rfl := List.mem_singleton.mp member
    exact ⟨_, rfl, above (inside _ bounded)⟩
  | close advanced advances unbounded reached =>
    intro interval member
    obtain rfl := List.mem_singleton.mp member
    exact ⟨_, rfl, above advances⟩
  | step advanced advances kept before later earlier =>
    intro interval member
    rcases List.mem_cons.mp member with rfl | member
    · exact ⟨_, rfl, above advances⟩
    · exact earlier kept interval member

/-- The intervals of a bounded series cover what is from the boundary to the bound. -/
theorem covers {until_ : Timestamp} (bounded : bound = some until_) (inside : ¬ until_ ≤ boundary)
    (instant : Timestamp) :
    boundary ≤ instant ∧ instant < until_ ↔ ∃ interval ∈ intervals, interval.Covers instant := by
  induction unrolls with
  | clip advanced given reached =>
    obtain rfl := Option.some.inj (bounded.symm.trans given)
    simp [Interval.Covers]
  | close _ _ unbounded _ => cases bounded.symm.trans unbounded
  | @step boundary next index rest advanced advances kept before later earlier =>
    have rest_covers := earlier (kept until_ bounded)
    simp only [List.mem_cons, or_and_right, exists_or, exists_eq_left, ← rest_covers]
    simp only [Interval.Covers, Option.some.injEq, exists_eq_left', Timestamp.le_iff, Timestamp.lt_iff] at *
    have := kept until_ bounded
    omega

/-- The intervals lie one behind the other. -/
theorem apart (at_ : IsBoundary period anchor index boundary) :
    intervals.Pairwise fun first second => ∀ finish, first.finish = some finish → finish ≤ second.start := by
  induction unrolls with
  | clip => exact List.pairwise_singleton _ _
  | close => exact List.pairwise_singleton _ _
  | @step boundary next index rest advanced advances kept before later earlier =>
    have reached : IsBoundary period anchor (index + 1) next := advanceFrom_ok advanced
    refine List.pairwise_cons.mpr ⟨?_, earlier reached⟩
    rintro interval member _ ⟨⟩
    exact Timestamp.le_iff.mpr ((later.ascends reached).above interval member)

/-- Only the last interval is clipped, at the bound that its next boundary reaches. -/
theorem clips {until_ : Timestamp} (bounded : bound = some until_) :
    ∃ before last next rejects, intervals = before ++ [last] ∧ last.finish = some until_ ∧
      advanceReporting period anchor (last.index + 1) = .ok (next, rejects) ∧ until_ ≤ next ∧
      ∀ interval ∈ before, ∃ finish, interval.finish = some finish ∧ finish < until_ := by
  induction unrolls with
  | clip advanced given reached =>
    obtain rfl := Option.some.inj (bounded.symm.trans given)
    exact ⟨[], _, _, _, rfl, rfl, advanced, reached, fun _ none => nomatch none⟩
  | close _ _ unbounded _ => cases bounded.symm.trans unbounded
  | step advanced advances kept before later earlier =>
    obtain ⟨front, last, next, rejects, rfl, finish, reached, beyond, unclipped⟩ := earlier
    refine ⟨_ :: front, last, next, rejects, rfl, finish, reached, beyond, ?_⟩
    intro interval member
    rcases List.mem_cons.mp member with rfl | member
    · have short := kept until_ bounded
      rw [Timestamp.le_iff, not_le] at short
      exact ⟨_, rfl, Timestamp.lt_iff.mpr short⟩
    · exact unclipped interval member

end Unrolls

end Partition

section Boundaries

variable [CalendarArithmetic] {anchor horizon : Timestamp} {period : Period}

/-- The boundaries of a series, each after the one before it. -/
inductive Reaches (period : Period) (anchor : Timestamp) : Nat → Timestamp → Prop
  | start : Reaches period anchor 0 anchor
  | next {index : Nat} {boundary next : Timestamp} (earlier : Reaches period anchor index boundary)
      (advanced : advanceFrom period anchor (index + 1) = .ok next) (advances : boundary < next) :
      Reaches period anchor (index + 1) next

theorem Reaches.isBoundary {index : Nat} {boundary : Timestamp} (reaches : Reaches period anchor index boundary) :
    IsBoundary period anchor index boundary := by
  cases reaches with
  | start => rfl
  | next _ advanced _ => exact advanced

/-- The boundaries are later one after the other. -/
theorem Reaches.mono {first second : Nat} {boundary later : Timestamp} (ordered : first ≤ second)
    (reaches : Reaches period anchor first boundary) (also : Reaches period anchor second later) :
    boundary.nanos ≤ later.nanos := by
  induction also with
  | start =>
    obtain rfl := Nat.le_zero.mp ordered
    exact (congrArg Timestamp.nanos (reaches.isBoundary.unique rfl)).le
  | @next index middle later earlier advanced advances below =>
    rcases ordered.lt_or_eq with less | rfl
    · exact (below (Nat.lt_succ_iff.mp less)).trans (Timestamp.lt_iff.mp advances).le
    · exact (congrArg Timestamp.nanos (reaches.isBoundary.unique advanced)).le

/-- An interval of the unbounded series lies between two of its boundaries. -/
def InSeries (period : Period) (anchor : Timestamp) (interval : Interval) : Prop :=
  Reaches period anchor interval.index interval.start ∧
    ∃ finish, interval.finish = some finish ∧ Reaches period anchor (interval.index + 1) finish

theorem InSeries.unique {first second : Interval} (left : InSeries period anchor first)
    (right : InSeries period anchor second) (same : first.index = second.index) : first = second := by
  obtain ⟨index, start, finish⟩ := first
  obtain ⟨other, begun, ended⟩ := second
  obtain rfl : index = other := same
  obtain ⟨reaches, finish, rfl, closes⟩ := left
  obtain ⟨also, ended, rfl, shuts⟩ := right
  obtain rfl : start = begun := reaches.isBoundary.unique also.isBoundary
  obtain rfl : finish = ended := closes.isBoundary.unique shuts.isBoundary
  rfl

/-- The intervals of an unbounded series from a boundary are those that start before the horizon. -/
theorem Unrolls.unbounded {boundary : Timestamp} {index : Nat} {intervals : List Interval}
    (unrolls : Unrolls anchor none period horizon boundary index intervals)
    (reaches : Reaches period anchor index boundary) (interval : Interval) :
    interval ∈ intervals ↔ index ≤ interval.index ∧ InSeries period anchor interval ∧
      (interval.index = index ∨ interval.start < horizon) := by
  induction unrolls with
  | clip _ bounded _ => cases bounded
  | @close boundary next index advanced advances _ reached =>
    have later : Reaches period anchor (index + 1) next := by
      refine .next reaches (advanceFrom_ok advanced) ?_
      rwa [Timestamp.lt_iff, ← not_le, ← Timestamp.le_iff]
    have here : InSeries period anchor ⟨index, boundary, some next⟩ := ⟨reaches, next, rfl, later⟩
    rw [List.mem_singleton]
    constructor
    · rintro rfl
      exact ⟨le_rfl, here, .inl rfl⟩
    · rintro ⟨above, inside, same | before⟩
      · exact inside.unique here same
      · rcases above.lt_or_eq with more | same
        · -- A later interval starts at the closing boundary or behind it.
          have start := later.mono more inside.1
          rw [Timestamp.le_iff] at reached
          rw [Timestamp.lt_iff] at before
          omega
        · exact inside.unique here same.symm
  | @step boundary next index rest advanced advances _ before later earlier =>
    have reached : Reaches period anchor (index + 1) next := by
      refine .next reaches (advanceFrom_ok advanced) ?_
      rwa [Timestamp.lt_iff, ← not_le, ← Timestamp.le_iff]
    have here : InSeries period anchor ⟨index, boundary, some next⟩ := ⟨reaches, next, rfl, reached⟩
    rw [List.mem_cons, earlier reached]
    constructor
    · rintro (rfl | ⟨above, inside, when_⟩)
      · exact ⟨le_rfl, here, .inl rfl⟩
      · refine ⟨by omega, inside, .inr ?_⟩
        rcases when_ with same | start
        · have begun : interval.start = next := by
            refine inside.1.isBoundary.unique ?_
            rw [same]
            exact reached.isBoundary
          rw [begun, Timestamp.lt_iff, ← not_le, ← Timestamp.le_iff]
          exact before rfl
        · exact start
    · rintro ⟨above, inside, when_⟩
      rcases above.lt_or_eq with more | same
      · refine .inr ⟨more, inside, when_.imp (fun same => ?_) id⟩
        omega
      · exact .inl (inside.unique here same.symm)

end Boundaries

section Series

variable [CalendarLibrary]

/-- The boundary of an index is that of as many steps. -/
theorem advanceFrom_steps (period : Period) (anchor : Timestamp) (steps : Signed 64) {index : Nat}
    (counted : steps.val = index) : advanceFrom period anchor index = Period.advanceFrom period anchor steps := by
  cases period with
  | fixed duration =>
    rw [advanceFrom, Period.advanceFrom, advanceReporting, counted]
    cases checked (stepOf duration anchor.precision * index) with
    | error error => rfl
    | ok added =>
      simp only [Codes.ok_bind]
      cases checked (anchor.count.val + added.val) <;> rfl
  | calendar calendar =>
    have own : CalendarArithmetic.advance calendar anchor index =
        advanceCalendarChecked calendar anchor steps >>= fun reached => pure (reached.1.count, reached.2) := by
      obtain ⟨count, low, high⟩ := steps
      obtain rfl : count = index := counted
      exact dif_pos ⟨low, high⟩
    rw [advanceFrom, Period.advanceFrom, advanceReporting, advanceCalendar, own]
    cases advanced : advanceCalendarChecked calendar anchor steps with
    | error error => rfl
    | ok reached =>
      obtain ⟨⟨count, precision⟩, rejects⟩ := reached
      obtain rfl : precision = anchor.precision := advanceCalendarChecked_precision advanced
      rfl

variable [CalendarLaws]

/-- No step from an anchor that advances gives the anchor. -/
theorem advanceFrom_zero {period : Period} {anchor : Timestamp} {reached : Timestamp × Bool} {index : Nat}
    (advanced : advanceReporting period anchor index = .ok reached) :
    Period.advanceFrom period anchor ⟨0, by decide, by decide⟩ = .ok anchor := by
  cases period with
  | fixed duration =>
    have within : InRange duration anchor ⟨0, by decide, by decide⟩ := by
      rw [InRange, Fits, Fits, mul_zero, add_zero]
      exact ⟨by decide, anchor.count.low, anchor.count.high⟩
    obtain ⟨⟨⟨count, _, _⟩, precision⟩, passed, same, ticks⟩ := advanceFrom_fixed within
    obtain rfl : precision = anchor.precision := same
    obtain rfl : count = anchor.count.val := by simpa using ticks
    exact passed
  | calendar calendar =>
    rw [advanceReporting] at advanced
    obtain ⟨_, counted, -⟩ := Codes.bind_ok.mp advanced
    have reaches : InCalendar calendar anchor ⟨0, by decide, by decide⟩ := by
      change dite _ _ _ = _ at counted
      split at counted
      next =>
        obtain ⟨_, passed, -⟩ := Codes.bind_ok.mp counted
        exact inCalendar_zero passed
      next => cases counted
    have still : Still calendar ⟨0, by decide, by decide⟩ := ⟨mul_zero _, mul_zero _, mul_zero _, mul_zero _⟩
    obtain ⟨⟨⟨count, _, _⟩, precision⟩, passed, same, exact⟩ := advanceCalendarChecked_still still reaches
    obtain rfl : precision = anchor.precision := same
    have kept : count = anchor.count.val := by
      refine exact.trans ?_
      rw [exactCount, mul_zero, add_zero, nanos_eq, Int.mul_ediv_cancel _ (nanosPerTick_pos _).ne']
    subst kept
    rw [Period.advanceFrom, advanceCalendar, passed]
    rfl

/-- What a recurring series is. -/
structure IsSeries (period : Period) (start : Timestamp) (bound : Option Timestamp) (horizon : Timestamp)
    (intervals : List Interval) : Prop where
  counts : intervals.map Interval.index = List.range intervals.length
  first : ∃ finish rest, intervals = ⟨0, start, finish⟩ :: rest
  follows : intervals.IsChain fun first second => first.finish = some second.start
  advances : ∀ interval ∈ intervals, ∃ finish, interval.finish = some finish ∧ interval.start < finish
  increases : intervals.Pairwise fun first second => first.start < second.start
  boundaries : ∀ interval ∈ intervals, ∃ steps : Signed 64, steps.val = interval.index ∧
    period.advanceFrom start steps = .ok interval.start
  partitions : ∀ until_, bound = some until_ → ∀ instant,
    (start ≤ instant ∧ instant < until_ → ∃! interval, interval ∈ intervals ∧ interval.Covers instant) ∧
      ((∃ interval ∈ intervals, interval.Covers instant) → start ≤ instant ∧ instant < until_)
  clips : ∀ until_, bound = some until_ → ∃ before last next rejects, intervals = before ++ [last] ∧
    last.finish = some until_ ∧ advanceReporting period start (last.index + 1) = .ok (next, rejects) ∧
      until_ ≤ next ∧ ∀ interval ∈ before, ∃ finish, interval.finish = some finish ∧ finish < until_
  unbounded : bound = none → ∀ interval, interval ∈ intervals ↔
    InSeries period start interval ∧ (interval.index = 0 ∨ interval.start < horizon)

/-- The generated intervals of a start are a series. -/
theorem isSeries {period : Period} {start horizon : Timestamp} {bound : Option Timestamp}
    {intervals : List Interval} (inside : ∀ until_, bound = some until_ → ¬ until_ ≤ start)
    (unrolls : Unrolls start bound period horizon start 0 intervals)
    (few : intervals.length ≤ seriesCap + 1) : IsSeries period start bound horizon intervals := by
  have first : IsBoundary period start 0 start := rfl
  have ascends := unrolls.ascends first
  have advances : ∃ reached, advanceReporting period start 1 = .ok reached := by
    cases unrolls with
    | clip advanced => exact ⟨_, advanced⟩
    | close advanced => exact ⟨_, advanced⟩
    | step advanced => exact ⟨_, advanced⟩
  refine ⟨?_, unrolls.head, unrolls.follows, unrolls.advances inside, ascends.starts, ?_, ?_, ?_, ?_⟩
  · rw [ascends.counts, List.range_eq_range']
  · intro interval member
    have listed : interval.index ∈ List.range' 0 intervals.length := by
      rw [← ascends.counts]
      exact List.mem_map_of_mem member
    have small : interval.index < intervals.length := by
      simpa using (List.mem_range'_1.mp listed).2
    have counted : (interval.index : Int) < 2 ^ 63 := by
      have cap : seriesCap = 200000 := rfl
      omega
    have boundary := (ascends.shape interval member).start
    obtain ⟨index, begun, finish⟩ := interval
    refine ⟨⟨index, by omega, counted⟩, rfl, ?_⟩
    cases index with
    | zero =>
      obtain rfl : begun = start := boundary
      obtain ⟨reached, advanced⟩ := advances
      exact advanceFrom_zero advanced
    | succ index => exact (advanceFrom_steps period start _ rfl).symm.trans boundary
  · intro until_ bounded instant
    have covers := unrolls.covers bounded (inside until_ bounded) instant
    refine ⟨fun within => ?_, covers.mpr⟩
    obtain ⟨interval, member, covering⟩ := covers.mp within
    refine ⟨interval, ⟨member, covering⟩, ?_⟩
    rintro other ⟨also, both⟩
    by_contra different
    exact disjoint_of_apart (unrolls.apart first) also member different instant
      ⟨both, covering⟩
  · intro until_ bounded
    exact unrolls.clips bounded
  · rintro rfl interval
    rw [unrolls.unbounded .start]
    simp

/-- The loop of a series ends, and what it returns is the series. -/
theorem recurringIntervals_series (period : Period) (start : Timestamp) (bound : Option Timestamp)
    (horizon : Timestamp) :
    (bound.any (fun bound => bound ≤ start) = false →
      SeriesLoop.run start bound period horizon ⟨[], start, 0⟩ (seriesCap + 1) =
        some (recurringIntervals start bound (some period) horizon)) ∧
    ∀ intervals, recurringIntervals start bound (some period) horizon = .ok intervals →
      IsSeries period start bound horizon intervals := by
  refine ⟨recurringIntervals_ends start bound period horizon, fun intervals generated => ?_⟩
  obtain ⟨inside, unrolls, few⟩ := recurringIntervals_generates generated
  exact isSeries inside unrolls few

end Series

section Sample

/-- An instant some seconds after the epoch. -/
def secondsAfter (count : Fin 100) : Timestamp :=
  ⟨⟨count.val, by omega, by omega⟩, .seconds⟩

/-- A series of two seconds with a bound in its second interval. -/
theorem twoSeconds_series :
    @IsSeries firstDay (.fixed (milliseconds ⟨2000, by decide⟩)) epoch (some (secondsAfter ⟨3, by decide⟩)) epoch
      [⟨0, epoch, some (secondsAfter ⟨2, by decide⟩)⟩,
        ⟨1, secondsAfter ⟨2, by decide⟩, some (secondsAfter ⟨3, by decide⟩)⟩] :=
  letI := firstDay
  haveI := firstDay_laws
  (recurringIntervals_series _ _ _ _).2 _ rfl

end Sample

end Liasse.Bucket

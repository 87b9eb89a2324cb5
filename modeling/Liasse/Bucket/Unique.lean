/-
This file proves which source rows give derived rows with unique identities, at each horizon, once the
admission pass has accepted them.
-/

import Liasse.Bucket.Source

namespace Liasse.Bucket

open Liasse.Expr

section Grids

/-- The computed divisor divides both counts. -/
theorem gcd_dvd (first second : Int) (positive : 0 ≤ second) :
    gcd first second ∣ first ∧ gcd first second ∣ second := by
  induction first, second using gcd.induct with
  | case1 first second above earlier =>
    obtain ⟨whole, part⟩ := earlier (Int.emod_nonneg first (ne_of_gt above))
    rw [gcd, if_pos above]
    refine ⟨?_, whole⟩
    have sum : first % second + second * (first / second) = first := Int.emod_add_mul_ediv first second
    have total := dvd_add part (whole.mul_right (first / second))
    rwa [sum] at total
  | case2 first second below =>
    rw [gcd, if_neg below]
    obtain rfl : second = 0 := by omega
    exact ⟨dvd_rfl, dvd_zero _⟩

theorem checked_ok {value : Int} {result : Signed 128} (fits : checked value = .ok result) :
    result.val = value := by
  unfold checked at fits
  split at fits
  · cases fits
    rfl
  · cases fits

variable [CalendarArithmetic] {anchor : Timestamp} {duration : Signed 128}

/-- The boundaries of a fixed period are whole steps from the anchor. -/
theorem boundary_fixed {index : Nat} {boundary : Timestamp}
    (reached : IsBoundary (.fixed duration) anchor index boundary) :
    boundary.precision = anchor.precision ∧
      boundary.count.val = anchor.count.val + stepOf duration anchor.precision * index := by
  cases index with
  | zero =>
    obtain rfl : boundary = anchor := reached
    exact ⟨rfl, by simp⟩
  | succ index =>
    simp only [IsBoundary, advanceFrom, advanceReporting] at reached
    cases product : checked (stepOf duration anchor.precision * (index + 1 : Nat)) with
    | error error =>
      simp only [product, bind, Except.bind] at reached
      cases reached
    | ok added =>
      cases sum : checked (anchor.count.val + added.val) with
      | error error =>
        simp only [product, sum, bind, Except.bind] at reached
        cases reached
      | ok count =>
        simp only [product, sum, bind, Except.bind, pure, Except.pure, Bool.false_eq_true,
          if_false] at reached
        cases reached
        exact ⟨rfl, by rw [checked_ok sum, checked_ok product]⟩

/-- The difference of two starts fits a machine integer. -/
def Close (first second : Timestamp) : Prop :=
  -2 ^ 127 < first.count.val - second.count.val ∧ first.count.val - second.count.val < 2 ^ 127

omit [CalendarArithmetic] in
theorem Close.symm {first second : Timestamp} (close : Close first second) : Close second first := by
  obtain ⟨low, high⟩ := close
  constructor <;> omega

omit [CalendarArithmetic] in
theorem wrap_close {first second : Timestamp} (close : Close first second) :
    wrap (first.count.val - second.count.val) = first.count.val - second.count.val := by
  obtain ⟨low, high⟩ := close
  rw [wrap, Int.bmod_eq_of_le] <;> omega

/-- Grids that are proven disjoint share no boundary. -/
theorem GridPhase.provablyDisjoint_apart {phase later : GridPhase}
    (disjoint : phase.provablyDisjoint later = true) (close : Close phase.start later.start)
    {first second : Nat} {boundary : Timestamp}
    (left : IsBoundary phase.period phase.start first boundary) :
    ¬ IsBoundary later.period later.start second boundary := by
  intro right
  unfold provablyDisjoint at disjoint
  split at disjoint
  next => cases disjoint
  next =>
    split at disjoint
    next duration step isFixed alsoFixed =>
      rw [isFixed] at left
      rw [alsoFixed] at right
      split at disjoint
      next => cases disjoint
      next shared =>
        simp only at disjoint
        split at disjoint
        next => cases disjoint
        next positive =>
          simp only [Bool.or_eq_true, decide_eq_true_eq, not_or, not_le] at positive
          rw [wrap_close close, decide_eq_true_eq] at disjoint
          apply disjoint
          apply Int.emod_eq_zero_of_dvd
          obtain ⟨-, leftCount⟩ := boundary_fixed left
          obtain ⟨-, rightCount⟩ := boundary_fixed right
          obtain ⟨dividesA, dividesB⟩ := gcd_dvd (stepOf duration phase.start.precision)
            (stepOf step phase.start.precision) positive.2.le
          rw [show later.start.precision = phase.start.precision by simpa using Eq.symm (not_not.mp shared)]
            at rightCount
          have offset : phase.start.count.val - later.start.count.val =
              stepOf step phase.start.precision * second - stepOf duration phase.start.precision * first := by
            omega
          rw [offset]
          exact dvd_sub (dividesB.mul_right _) (dividesA.mul_right _)
    next => cases disjoint

end Grids

section Enumeration

variable [CalendarArithmetic]

/-- An interval is late when it is after the second period of an unbounded series. -/
def Late (bounds : Bounds) (interval : Interval) : Prop :=
  bounds.bound = none ∧ bounds.period.isSome ∧ 2 ≤ interval.index

instance (bounds : Bounds) (interval : Interval) : Decidable (Late bounds interval) :=
  inferInstanceAs (Decidable (_ ∧ _))

/-- A series generates an interval at some horizon. -/
def Generates (bounds : Bounds) (interval : Interval) : Prop :=
  ∃ horizon intervals, recurringIntervals bounds.start bounds.bound bounds.period horizon = .ok intervals ∧
    interval ∈ intervals

/-- The boundary that an advance reports is not rejected. -/
theorem advanceFrom_iff {period : Period} {anchor next : Timestamp} {steps : Nat} :
    advanceFrom period anchor steps = .ok next ↔ advanceReporting period anchor steps = .ok (next, false) := by
  constructor
  · intro advanced
    unfold advanceFrom at advanced
    split at advanced
    next => cases advanced
    next boundary rejects reported =>
      split at advanced
      next => cases advanced
      next accepts =>
        cases advanced
        rw [reported, show rejects = false by simpa using accepts]
  · exact advanceFrom_ok

/-- The horizon of the pass is the second boundary of an unbounded series, or it is its start. -/
theorem uniquenessHorizon_cases (period : Period) (start : Timestamp) :
    advanceReporting period start 2 = .ok (uniquenessHorizon ⟨start, none, some period⟩, false) ∨
      (uniquenessHorizon ⟨start, none, some period⟩ = start ∧
        ∀ later, advanceReporting period start 2 ≠ .ok (later, false)) := by
  simp only [uniquenessHorizon]
  cases second : advanceFrom period start 2 with
  | ok boundary => exact .inl (advanceFrom_iff.mp second)
  | error error =>
    refine .inr ⟨rfl, fun later reported => ?_⟩
    rw [advanceFrom_iff.mpr reported] at second
    cases second

/-- The second interval of an unbounded series is below the horizon of the pass. -/
theorem second_below {period : Period} {start next : Timestamp} {interval : Interval}
    (advanced : advanceReporting period start 1 = .ok (next, false))
    (shape : IsInterval start none period interval) (second : interval.index = 1) :
    ¬ uniquenessHorizon ⟨start, none, some period⟩ ≤ next := by
  obtain ⟨later, rejects, again, -, open_⟩ := shape.finish
  obtain ⟨rfl, above⟩ := open_ rfl
  have begun := shape.start
  rw [second] at again begun
  obtain rfl : next = interval.start := Except.ok.inj ((advanceFrom_ok advanced).symm.trans begun)
  rcases uniquenessHorizon_cases period start with reported | ⟨-, missing⟩
  · rw [← (Prod.mk.inj (Except.ok.inj (again.symm.trans reported))).1]
    exact above
  · exact absurd again (missing later)

/-- The pass enumerates the intervals that are not late. -/
theorem Generates.enumerated {bounds : Bounds} {interval : Interval} (generates : Generates bounds interval)
    (early : ¬ Late bounds interval) :
    ∃ listed, recurringIntervals bounds.start bounds.bound bounds.period (uniquenessHorizon bounds) =
      .ok listed ∧ interval ∈ listed := by
  obtain ⟨horizon, intervals, generated, inside⟩ := generates
  obtain ⟨start, bound, period⟩ := bounds
  cases bound with
  | some bound => exact ⟨intervals, (recurringIntervals_bounded bound period _ horizon).trans generated, inside⟩
  | none =>
    cases period with
    | none => exact ⟨intervals, generated, inside⟩
    | some period =>
      obtain ⟨next, advanced, advances⟩ := recurringIntervals_advances generated
      have shape := (recurringIntervals_ascends generated).shape interval inside
      have below : interval.index < 2 := by
        by_contra late
        exact early ⟨rfl, rfl, not_lt.mp late⟩
      have opening : IsInterval start none period ⟨0, start, some next⟩ :=
        ⟨rfl, next, false, advanced, rfl, fun _ => ⟨rfl, advances⟩⟩
      simp only
      by_cases reached : uniquenessHorizon ⟨start, none, some period⟩ ≤ next
      · refine ⟨_, recurringIntervals_one advanced advances reached, ?_⟩
        have zero : interval.index = 0 := by
          by_contra positive
          exact second_below advanced shape (by omega) reached
        exact List.mem_singleton.mpr (shape.unique opening zero)
      · rcases uniquenessHorizon_cases period start with reported | ⟨same, -⟩
        · refine ⟨_, recurringIntervals_two advanced advances reported reached, ?_⟩
          rcases Nat.lt_succ_iff_lt_or_eq.mp below with zero | one
          · exact List.mem_cons.mpr (.inl (shape.unique opening (Nat.lt_one_iff.mp zero)))
          · refine List.mem_cons_of_mem _ (List.mem_singleton.mpr (shape.unique ?_ one))
            exact ⟨advanceFrom_ok advanced, _, false, reported, rfl, fun _ => ⟨rfl, reached⟩⟩
        · rw [same, Timestamp.le_iff, not_le] at reached
          rw [Timestamp.le_iff, not_le] at advances
          exact absurd advances (not_lt.mpr (le_of_lt reached))

end Enumeration

section Passes

theorem insertAll_some {seen result faces : List Face} (inserted : insertAll seen faces = some result) :
    result = faces.reverse ++ seen ∧ faces.Nodup ∧ ∀ face ∈ faces, face ∉ seen := by
  induction faces generalizing seen with
  | nil =>
    cases inserted
    exact ⟨rfl, List.nodup_nil, fun _ inside => (List.not_mem_nil inside).elim⟩
  | cons face rest earlier =>
    unfold insertAll at inserted
    split at inserted
    next => cases inserted
    next fresh =>
      obtain ⟨rfl, distinct, missing⟩ := earlier inserted
      refine ⟨by simp, List.nodup_cons.mpr ⟨fun again => ?_, distinct⟩, fun other inside => ?_⟩
      · exact missing face again List.mem_cons_self
      · rcases List.mem_cons.mp inside with rfl | inside
        · exact fresh
        · exact fun seen => missing other inside (List.mem_cons_of_mem _ seen)

/-- Grids of one probe are proven disjoint. -/
def Apart (earlier later : Face × GridPhase) : Prop :=
  earlier.1 = later.1 → later.2.provablyDisjoint earlier.2 = true

theorem placeGrid_some {grids result : List (Face × GridPhase)} {phase : Option (Face × GridPhase)}
    (placed : CompiledSourceBucket.placeGrid grids phase = some result) :
    result = phase.toList ++ grids ∧ ∀ new ∈ phase, ∀ other ∈ grids, Apart other new := by
  cases phase with
  | none =>
    cases placed
    exact ⟨rfl, fun _ missing => nomatch missing⟩
  | some new =>
    obtain ⟨probe, phase⟩ := new
    simp only [CompiledSourceBucket.placeGrid] at placed
    split at placed
    next => cases placed
    next clear =>
      cases placed
      refine ⟨rfl, ?_⟩
      rintro _ ⟨⟩ other inside same
      by_contra meets
      refine clear (List.any_eq_true.mpr ⟨other, inside, ?_⟩)
      simpa [same] using meets

variable [CalendarArithmetic] [KeyText]

namespace CompiledSourceBucket

/-- The identities that the pass enumerates of a source row. -/
def enumerated (bucket : CompiledSourceBucket) (source : Row) : List Face :=
  match bucket.bounds source with
  | none => []
  | some bounds =>
    match recurringIntervals bounds.start bounds.bound bounds.period (uniquenessHorizon bounds) with
    | .error _ => []
    | .ok intervals => intervals.map (bucket.generatedIdentity source)

/-- The grid that the pass places for a source row. -/
def placed (bucket : CompiledSourceBucket) (now : Timestamp) (source : Row) : Option (Face × GridPhase) :=
  (bucket.bounds source).bind (bucket.phaseOf now source)

end CompiledSourceBucket

/-- The pass has seen the enumerated identities of some source rows, all different, and it has placed
their grids. -/
structure Checked (bucket : CompiledSourceBucket) (now : Timestamp) (done : List Row) (pass : Pass) :
    Prop where
  seen : pass.seen = (done.flatMap bucket.enumerated).reverse
  distinct : (done.flatMap bucket.enumerated).Nodup
  grids : pass.grids = (done.filterMap (bucket.placed now)).reverse
  apart : (done.filterMap (bucket.placed now)).Pairwise Apart

variable {bucket : CompiledSourceBucket} {now : Timestamp}

/-- The grid of one more source row is apart from the earlier ones. -/
theorem Checked.place {done : List Row} {pass : Pass} (checked : Checked bucket now done pass) {source : Row}
    {grids : List (Face × GridPhase)} (placed : CompiledSourceBucket.placeGrid pass.grids (bucket.placed now source) = some grids) :
    grids = ((done ++ [source]).filterMap (bucket.placed now)).reverse ∧
      ((done ++ [source]).filterMap (bucket.placed now)).Pairwise Apart := by
  obtain ⟨rfl, apart⟩ := placeGrid_some placed
  have added : (done ++ [source]).filterMap (bucket.placed now) =
      done.filterMap (bucket.placed now) ++ (bucket.placed now source).toList := by
    rw [List.filterMap_append]
    cases phase : bucket.placed now source <;> simp [phase]
  rw [added]
  constructor
  · rw [List.reverse_append, checked.grids]
    cases bucket.placed now source <;> rfl
  · refine List.pairwise_append.mpr ⟨checked.apart, ?_, fun other inside new fresh => ?_⟩
    · cases bucket.placed now source <;> simp
    · refine apart new (Option.mem_toList.mp fresh) other ?_
      rw [checked.grids]
      exact List.mem_reverse.mpr inside

/-- The identities of one more source row differ from the earlier ones. -/
theorem Checked.insert {done : List Row} {pass : Pass} (checked : Checked bucket now done pass) {source : Row}
    {seen : List Face} (inserted : insertAll pass.seen (bucket.enumerated source) = some seen) :
    seen = ((done ++ [source]).flatMap bucket.enumerated).reverse ∧
      ((done ++ [source]).flatMap bucket.enumerated).Nodup := by
  obtain ⟨rfl, distinct, fresh⟩ := insertAll_some inserted
  rw [List.flatMap_append, List.flatMap_singleton]
  refine ⟨by rw [List.reverse_append, checked.seen], ?_⟩
  refine List.nodup_append.mpr ⟨checked.distinct, distinct, ?_⟩
  rintro face before _ after rfl
  apply fresh face after
  rw [checked.seen]
  exact List.mem_reverse.mpr before

/-- The enumeration at the horizon of the pass gives the enumerated identities. -/
theorem enumerated_eq {source : Row} {bounds : Bounds} (bounded : bucket.bounds source = some bounds) :
    (∃ error, recurringIntervals bounds.start bounds.bound bounds.period (uniquenessHorizon bounds) =
        .error error ∧ bucket.enumerated source = []) ∨
      ∃ intervals, recurringIntervals bounds.start bounds.bound bounds.period (uniquenessHorizon bounds) =
          .ok intervals ∧ bucket.enumerated source = intervals.map (bucket.generatedIdentity source) := by
  simp only [CompiledSourceBucket.enumerated, bounded]
  cases recurringIntervals bounds.start bounds.bound bounds.period (uniquenessHorizon bounds) with
  | error error => exact .inl ⟨error, rfl, rfl⟩
  | ok intervals => exact .inr ⟨intervals, rfl, rfl⟩

/-- The pass over one more source row keeps what it has checked. -/
theorem Checked.step {done : List Row} {pass next : Pass} (checked : Checked bucket now done pass)
    {source : Row} (custom : bucket.key.isNone = false)
    (accepted : bucket.validateSource now pass source = .ok next) :
    Checked bucket now (done ++ [source]) next := by
  unfold CompiledSourceBucket.validateSource at accepted
  cases bounded : bucket.bounds source with
  | none =>
    simp only [bounded, Except.ok.injEq] at accepted
    subst accepted
    have nothing : bucket.enumerated source = [] := by
      simp only [CompiledSourceBucket.enumerated, bounded]
    have noGrid : bucket.placed now source = none := by
      simp only [CompiledSourceBucket.placed, bounded, Option.bind_none]
    obtain ⟨seen, distinct⟩ := checked.insert (by rw [nothing]; rfl)
    obtain ⟨grids, apart⟩ := checked.place (by rw [noGrid]; rfl)
    exact ⟨seen, distinct, grids, apart⟩
  | some bounds =>
    have phase : bucket.placed now source = bucket.phaseOf now source bounds := by
      simp only [CompiledSourceBucket.placed, bounded, Option.bind_some]
    simp only [bounded, custom, Bool.false_eq_true, if_false, ← phase] at accepted
    split at accepted
    next => cases accepted
    next =>
      split at accepted
      next => cases accepted
      next grids placed =>
        obtain ⟨grid, apart⟩ := checked.place placed
        rcases enumerated_eq bounded with ⟨error, failed, nothing⟩ | ⟨intervals, made, listed⟩
        · simp only [failed, Except.ok.injEq] at accepted
          subst accepted
          obtain ⟨seen, distinct⟩ := checked.insert (by rw [nothing]; rfl)
          exact ⟨seen, distinct, grid, apart⟩
        · simp only [made, ← listed] at accepted
          split at accepted
          next => cases accepted
          next seen inserted =>
            cases accepted
            obtain ⟨seen, distinct⟩ := checked.insert inserted
            exact ⟨seen, distinct, grid, apart⟩

/-- The pass over more source rows keeps what it has checked. -/
theorem Checked.run {rest done : List Row} {pass last : Pass} (checked : Checked bucket now done pass)
    (custom : bucket.key.isNone = false) (accepted : bucket.validateFrom now pass rest = .ok last) :
    Checked bucket now (done ++ rest) last := by
  induction rest generalizing done pass with
  | nil =>
    cases accepted
    rwa [List.append_nil]
  | cons source rest later =>
    rw [CompiledSourceBucket.validateFrom] at accepted
    split at accepted
    next => cases accepted
    next next stepped =>
      have shown := later (checked.step custom stepped) accepted
      rwa [List.append_assoc, List.singleton_append] at shown

/-- The pass over all source rows has checked them. -/
theorem checked_of_accepted {rows : List Row} (custom : bucket.key.isNone = false)
    (accepted : bucket.validate now rows = .ok ()) : ∃ pass, Checked bucket now rows pass := by
  unfold CompiledSourceBucket.validate at accepted
  cases ran : bucket.validateFrom now ⟨[], []⟩ rows with
  | error error =>
    rw [ran] at accepted
    cases accepted
  | ok pass =>
    have opening : Checked bucket now [] ⟨[], []⟩ := ⟨rfl, List.nodup_nil, rfl, List.Pairwise.nil⟩
    exact ⟨pass, opening.run custom ran⟩

end Passes

section Uniqueness

/-- A derived row is an interval of the source row at a position. -/
structure Derived where
  position : Nat
  source : Row
  bounds : Bounds
  interval : Interval

variable [CalendarArithmetic] [KeyText]

/-- A bucket derives a row from its source rows at some horizon. -/
structure Derives (bucket : CompiledSourceBucket) (rows : List Row) (row : Derived) : Prop where
  source : rows[row.position]? = some row.source
  bounds : bucket.bounds row.source = some row.bounds
  generates : Generates row.bounds row.interval

namespace Derived

/-- What the runtime compares of the identity of a derived row. -/
def identity (bucket : CompiledSourceBucket) (row : Derived) : Face :=
  bucket.generatedIdentity row.source row.interval

/-- Two derived rows are the same interval of the same source row. -/
def Same (first second : Derived) : Prop :=
  first.position = second.position ∧ first.interval.index = second.interval.index

/-- A derived row is of an unbounded recurring series. -/
def Endless (row : Derived) : Prop :=
  row.bounds.bound = none ∧ row.bounds.period.isSome

end Derived

/-- Derived rows of one identity are the same. -/
def Unique (bucket : CompiledSourceBucket) (rows : List Row) : Prop :=
  ∀ first second, Derives bucket rows first → Derives bucket rows second →
    first.identity bucket = second.identity bucket → first.Same second

/-- The grids of two derived rows are under test when one probe stands for both source rows. -/
structure GridTested (bucket : CompiledSourceBucket) (now : Timestamp) (first second : Derived) : Prop where
  positions : first.position ≠ second.position
  left : first.Endless
  right : second.Endless
  probe : bucket.probeIdentity now first.source = bucket.probeIdentity now second.source
  close : Close first.bounds.start second.bounds.start

/-- A late row has the identity of no other derived row. Grids under test are looked at for different
starts only. -/
def LateApart (bucket : CompiledSourceBucket) (now : Timestamp) (rows : List Row) : Prop :=
  ∀ late other, Derives bucket rows late → Derives bucket rows other → Late late.bounds late.interval →
    (GridTested bucket now late other → late.interval.start ≠ other.interval.start) →
    late.identity bucket = other.identity bucket → late.Same other

/-- Source rows of one identity derive no rows, or the bucket recurs and the rows have different starts. -/
def SourcesApart (bucket : CompiledSourceBucket) (rows : List Row) : Prop :=
  ∀ first second, Derives bucket rows first → Derives bucket rows second →
    first.position ≠ second.position → face first.source.id = face second.source.id →
    bucket.repeatExpr.isSome ∧ first.interval.start.count.val ≠ second.interval.start.count.val

variable {bucket : CompiledSourceBucket} {now : Timestamp} {rows : List Row} {first second : Derived}

omit [KeyText] in
/-- Derived rows at one position have one source row and one series. -/
theorem Derives.source_eq (left : Derives bucket rows first) (right : Derives bucket rows second)
    (position : first.position = second.position) :
    first.source = second.source ∧ first.bounds = second.bounds := by
  have source : first.source = second.source := by
    apply Option.some.inj
    rw [← left.source, ← right.source, position]
  refine ⟨source, Option.some.inj ?_⟩
  rw [← left.bounds, ← right.bounds, source]

/-- The pass has enumerated a derived row that is not late. -/
theorem Derives.enumerated (derives : Derives bucket rows first) (early : ¬ Late first.bounds first.interval) :
    ∃ listed : List Interval,
      recurringIntervals first.bounds.start first.bounds.bound first.bounds.period
        (uniquenessHorizon first.bounds) = .ok listed ∧
      bucket.enumerated first.source = listed.map (bucket.generatedIdentity first.source) ∧
      first.interval ∈ listed := by
  obtain ⟨listed, made, inside⟩ := derives.generates.enumerated early
  refine ⟨listed, made, ?_, inside⟩
  simp only [CompiledSourceBucket.enumerated, derives.bounds, made]

theorem Derives.identity_mem (derives : Derives bucket rows first)
    (early : ¬ Late first.bounds first.interval) :
    first.identity bucket ∈ bucket.enumerated first.source := by
  obtain ⟨listed, -, shown, inside⟩ := derives.enumerated early
  rw [shown]
  exact List.mem_map_of_mem inside

omit [CalendarArithmetic] [KeyText] in
/-- Two source rows of a pairwise related list are related in the order of their positions. -/
theorem pairwise_positions {related : Row → Row → Prop} (ordered : rows.Pairwise related) {left right : Nat}
    {earlier later : Row} (leftAt : rows[left]? = some earlier) (rightAt : rows[right]? = some later)
    (before : left < right) : related earlier later := by
  obtain ⟨leftIn, rfl⟩ := List.getElem?_eq_some_iff.mp leftAt
  obtain ⟨rightIn, rfl⟩ := List.getElem?_eq_some_iff.mp rightAt
  exact List.pairwise_iff_getElem.mp ordered left right leftIn rightIn before

/-- The enumerated identities of different positions are different. -/
theorem early_positions (distinct : (rows.flatMap bucket.enumerated).Nodup)
    (left : Derives bucket rows first) (right : Derives bucket rows second)
    (early : ¬ Late first.bounds first.interval) (alsoEarly : ¬ Late second.bounds second.interval)
    (before : first.position < second.position) : first.identity bucket ≠ second.identity bucket := by
  intro same
  have apart := (List.nodup_flatMap.mp distinct).2
  have disjoint := pairwise_positions apart left.source right.source before
  apply disjoint (left.identity_mem early)
  rw [same]
  exact right.identity_mem alsoEarly

/-- Derived rows that the pass has enumerated are the same when they have one identity. -/
theorem early_same (distinct : (rows.flatMap bucket.enumerated).Nodup)
    (left : Derives bucket rows first) (right : Derives bucket rows second)
    (early : ¬ Late first.bounds first.interval) (alsoEarly : ¬ Late second.bounds second.interval)
    (same : first.identity bucket = second.identity bucket) : first.Same second := by
  rcases Nat.lt_trichotomy first.position second.position with before | position | after
  · exact absurd same (early_positions distinct left right early alsoEarly before)
  · obtain ⟨source, bounds⟩ := left.source_eq right position
    obtain ⟨listed, made, shown, inside⟩ := left.enumerated early
    obtain ⟨others, again, -, also⟩ := right.enumerated alsoEarly
    obtain rfl : listed = others := by
      rw [bounds, again] at made
      exact (Except.ok.inj made).symm
    have once := (List.nodup_flatMap.mp distinct).1 first.source (List.mem_of_getElem? left.source)
    rw [shown] at once
    have interval : first.interval = second.interval := by
      refine List.inj_on_of_nodup_map once inside also ?_
      rwa [Derived.identity, Derived.identity, ← source] at same
    exact ⟨position, congrArg Interval.index interval⟩
  · exact absurd same.symm (early_positions distinct right left alsoEarly early after)

omit [KeyText] in
/-- A derived row of a recurring series starts at a boundary. -/
theorem Derives.boundary (derives : Derives bucket rows first) {period : Period}
    (recurs : first.bounds.period = some period) :
    IsInterval first.bounds.start first.bounds.bound period first.interval := by
  obtain ⟨horizon, intervals, generated, inside⟩ := derives.generates
  rw [recurs] at generated
  exact (recurringIntervals_ascends generated).shape first.interval inside

/-- The pass has placed the grid of an unbounded recurring series. -/
theorem Derives.placed (derives : Derives bucket rows first) (endless : first.Endless) :
    ∃ phase : GridPhase, bucket.placed now first.source = some (bucket.probeIdentity now first.source, phase) ∧
      phase.start = first.bounds.start ∧
      IsBoundary phase.period phase.start first.interval.index first.interval.start := by
  obtain ⟨bound, recurs⟩ := endless
  obtain ⟨period, recurs⟩ := Option.isSome_iff_exists.mp recurs
  refine ⟨⟨first.bounds.start, period, bucket.keyHasFromIdentity first.source first.bounds.start⟩, ?_, rfl,
    (derives.boundary recurs).start⟩
  simp only [CompiledSourceBucket.placed, derives.bounds, Option.bind_some,
    CompiledSourceBucket.phaseOf, recurs, bound]

/-- Grids under test have no start in common after an accepted pass. -/
theorem starts_before (apart : (rows.filterMap (bucket.placed now)).Pairwise Apart)
    (left : Derives bucket rows first) (right : Derives bucket rows second)
    (tested : GridTested bucket now first second) (before : first.position < second.position) :
    first.interval.start ≠ second.interval.start := by
  intro same
  obtain ⟨phase, leftPlaced, leftStart, leftBoundary⟩ := left.placed tested.left
  obtain ⟨later, rightPlaced, rightStart, rightBoundary⟩ := right.placed tested.right
  have ordered := pairwise_positions (List.pairwise_filterMap.mp apart) left.source right.source before
  have disjoint := ordered _ leftPlaced _ rightPlaced tested.probe
  refine GridPhase.provablyDisjoint_apart disjoint ?_ rightBoundary (same ▸ leftBoundary)
  rw [leftStart, rightStart]
  exact tested.close.symm

omit [CalendarArithmetic] in
theorem GridTested.symm (tested : GridTested bucket now first second) : GridTested bucket now second first :=
  ⟨tested.positions.symm, tested.right, tested.left, tested.probe.symm, tested.close.symm⟩

theorem GridTested.starts (tested : GridTested bucket now first second)
    (apart : (rows.filterMap (bucket.placed now)).Pairwise Apart)
    (left : Derives bucket rows first) (right : Derives bucket rows second) :
    first.interval.start ≠ second.interval.start := by
  rcases Nat.lt_or_gt_of_ne tested.positions with before | after
  · exact starts_before apart left right tested before
  · exact (starts_before apart right left tested.symm after).symm

/-- Derived rows of a custom key have unique identities when the late ones do. -/
theorem unique_of_late (custom : bucket.key.isNone = false) (accepted : bucket.validate now rows = .ok ())
    (late : LateApart bucket now rows) : Unique bucket rows := by
  obtain ⟨pass, checked⟩ := checked_of_accepted custom accepted
  intro first second left right same
  by_cases behind : Late first.bounds first.interval
  · exact late first second left right behind (fun tested => tested.starts checked.apart left right) same
  · by_cases ahead : Late second.bounds second.interval
    · have shown := late second first right left ahead
        (fun tested => tested.starts checked.apart right left) same.symm
      exact ⟨shown.1.symm, shown.2.symm⟩
    · exact early_same checked.distinct left right behind ahead same

omit [KeyText] in
/-- A series without a period has one interval. -/
theorem Derives.single (derives : Derives bucket rows first) (once : first.bounds.period = none) :
    first.interval.index = 0 := by
  obtain ⟨horizon, intervals, generated, inside⟩ := derives.generates
  rw [once, recurringIntervals] at generated
  split at generated
  next => cases generated
  next =>
    cases generated
    rw [List.mem_singleton.mp inside]

omit [KeyText] in
/-- A bucket that does not recur derives one row of a source row. -/
theorem Derives.once (derives : Derives bucket rows first) (still : bucket.repeatExpr = none) :
    first.interval.index = 0 := by
  apply derives.single
  have bounded := derives.bounds
  simp only [CompiledSourceBucket.bounds, still, readBound, bind, Option.bind_eq_some_iff, pure,
    Option.some.injEq] at bounded
  obtain ⟨_, _, _, _, _, _, _, rfl, shown⟩ := bounded
  rw [← shown]

omit [KeyText] in
theorem advanceReporting_precision {period : Period} {anchor boundary : Timestamp} {steps : Nat}
    {rejects : Bool} (advanced : advanceReporting period anchor steps = .ok (boundary, rejects)) :
    boundary.precision = anchor.precision := by
  cases period with
  | fixed duration =>
    simp only [advanceReporting, bind, Except.bind] at advanced
    split at advanced
    next => cases advanced
    next =>
      split at advanced
      next => cases advanced
      next =>
        cases advanced
        rfl
  | calendar calendar =>
    simp only [advanceReporting, bind, Except.bind] at advanced
    split at advanced
    next => cases advanced
    next =>
      cases advanced
      rfl

omit [KeyText] in
/-- The boundaries of a series have the precision of its start. -/
theorem IsBoundary.precision {period : Period} {anchor boundary : Timestamp} {index : Nat}
    (reached : IsBoundary period anchor index boundary) : boundary.precision = anchor.precision := by
  cases index with
  | zero => exact congrArg Timestamp.precision reached
  | succ index => exact advanceReporting_precision (advanceFrom_iff.mp reached)

omit [KeyText] in
/-- An earlier interval of one series has another count of ticks at its start. -/
theorem Derives.count_ne (left : Derives bucket rows first) (right : Derives bucket rows second)
    (series : first.bounds = second.bounds) (before : first.interval.index < second.interval.index) :
    first.interval.start.count.val ≠ second.interval.start.count.val := by
  intro same
  cases recurs : second.bounds.period with
  | none =>
    have zero := right.single recurs
    omega
  | some period =>
    have begun := left.boundary (series ▸ recurs)
    have later := right.boundary recurs
    obtain ⟨horizon, intervals, generated, inside⟩ := right.generates
    rw [recurs] at generated
    obtain ⟨earlier, also, index, below⟩ := (recurringIntervals_ascends generated).below inside before
    rw [series] at begun
    obtain rfl := ((recurringIntervals_ascends generated).shape earlier also).unique begun index
    have precision := begun.start.precision.trans later.start.precision.symm
    rw [Timestamp.lt_iff, Timestamp.nanos, Timestamp.nanos, same, precision] at below
    exact lt_irrefl _ below

omit [CalendarArithmetic] in
theorem start_face {source : Row} {interval : Interval} (inferred : bucket.key = none)
    (recurs : bucket.repeatExpr.isSome) :
    bucket.generatedIdentity source interval =
      face source.id ++ [.key (.of (.text interval.start.count.val.repr))] := by
  simp only [CompiledSourceBucket.generatedIdentity, CompiledSourceBucket.identity, inferred, recurs, if_true,
    face, List.map_append]
  rfl

omit [CalendarArithmetic] in
/-- The inferred identities of two rows of a recurring bucket agree when the source rows and the starts do. -/
theorem start_face_eq {source other : Row} {interval next : Interval} (inferred : bucket.key = none)
    (recurs : bucket.repeatExpr.isSome) :
    bucket.generatedIdentity source interval = bucket.generatedIdentity other next ↔
      face source.id = face other.id ∧ interval.start.count.val = next.start.count.val := by
  rw [start_face inferred recurs, start_face inferred recurs]
  constructor
  · intro same
    obtain ⟨sources, starts⟩ := List.append_inj' same rfl
    refine ⟨sources, Int.repr_injective ?_⟩
    have texts := FacePart.key.inj (List.cons.inj starts).1
    exact (compareText_eq_iff _ _).mp (ValueClass.of_eq_iff.mp texts)
  · rintro ⟨sources, starts⟩
    rw [sources, starts]

omit [CalendarArithmetic] in
theorem still_face {source : Row} {interval : Interval} (inferred : bucket.key = none)
    (still : bucket.repeatExpr = none) : bucket.generatedIdentity source interval = face source.id := by
  simp only [CompiledSourceBucket.generatedIdentity, CompiledSourceBucket.identity, inferred, still,
    Option.isSome_none, Bool.false_eq_true, if_false]

/-- The inferred identities are unique when the source rows are apart, and only then. -/
theorem inferred_iff (inferred : bucket.key = none) : Unique bucket rows ↔ SourcesApart bucket rows := by
  constructor
  · intro unique first second left right positions sources
    cases recurs : bucket.repeatExpr with
    | none =>
      have same : first.identity bucket = second.identity bucket := by
        rw [Derived.identity, Derived.identity, still_face inferred recurs, still_face inferred recurs,
          sources]
      exact absurd (unique first second left right same).1 positions
    | some repeated =>
      have recurring : bucket.repeatExpr.isSome := by rw [recurs]; rfl
      refine ⟨rfl, fun starts => ?_⟩
      have same := (start_face_eq inferred recurring).mpr ⟨sources, starts⟩
      exact positions (unique first second left right same).1
  · intro apart first second left right same
    by_cases positions : first.position = second.position
    · refine ⟨positions, ?_⟩
      obtain ⟨-, series⟩ := left.source_eq right positions
      cases recurs : bucket.repeatExpr with
      | none => rw [left.once recurs, right.once recurs]
      | some repeated =>
        have recurring : bucket.repeatExpr.isSome := by rw [recurs]; rfl
        obtain ⟨-, starts⟩ := (start_face_eq inferred recurring).mp same
        rcases Nat.lt_trichotomy first.interval.index second.interval.index with before | index | after
        · exact absurd starts (left.count_ne right series before)
        · exact index
        · exact absurd starts.symm (right.count_ne left series.symm after)
    · cases recurs : bucket.repeatExpr with
      | none =>
        rw [Derived.identity, Derived.identity, still_face inferred recurs, still_face inferred recurs] at same
        have recurring := (apart first second left right positions same).1
        rw [recurs] at recurring
        cases recurring
      | some repeated =>
        have recurring : bucket.repeatExpr.isSome := by rw [recurs]; rfl
        obtain ⟨sources, starts⟩ := (start_face_eq inferred recurring).mp same
        exact absurd starts (apart first second left right positions sources).2

/-- An accepted bucket has unique identities when its late rows are apart, or its source rows under the
inferred identity, and only then. -/
theorem unique_iff (accepted : bucket.validate now rows = .ok ()) :
    Unique bucket rows ↔ if bucket.key.isSome then LateApart bucket now rows else SourcesApart bucket rows := by
  cases custom : bucket.key with
  | none => simpa using inferred_iff custom
  | some components =>
    simp only [Option.isSome_some, if_true]
    constructor
    · intro unique late other left right _ _ same
      exact unique late other left right same
    · exact unique_of_late (by rw [custom]; rfl) accepted

end Uniqueness

section Sample

/-- The samples have fixed periods only. -/
local instance : CalendarArithmetic where
  advance _ _ _ := .error .periodOutOfRange

/-- The text of one instant is its count. -/
local instance : KeyText where
  keyText
    | [.timestamp instant] => instant.count.val.repr
    | _ => ""

/-- Midnight of a day. -/
def midnight (day : Nat) : Timestamp :=
  ⟨Runtime.saturate 128 (86400 * day), .seconds⟩

/-- A fixed period of one day. -/
def oneDay : Period :=
  .fixed (Runtime.saturate 128 86400000000000)

/-- The cell of a source row, or `none`. -/
def cellOf (name : String) (source : Row) : Option Cell :=
  some ((source.cells.lookup name).getD (.scalar .none))

/-- A bucket with the start of an interval as its key. -/
def startKeyed : CompiledSourceBucket where
  fromExpr := cellOf "from"
  untilExpr := some (cellOf "until")
  repeatExpr := some (cellOf "repeat")
  key := some [fun _ interval => some (.scalar (.timestamp interval.start))]

/-- A source row that recurs each day. -/
def daily (name : String) (start : Timestamp) (bound : Option Timestamp) : Row :=
  .mk [.key (.text name)] (.text name)
    [("from", .scalar (.timestamp start)),
      ("until", .scalar ((bound.map Value.timestamp).getD .none)),
      ("repeat", .scalar (.period oneDay))]
    []

/-- A series without an end and a single later day. -/
def crossing : List Row :=
  [daily "endless" (midnight 0) none, daily "single" (midnight 5) (some (midnight 6))]

theorem crossing_accepted : startKeyed.validate (midnight 0) crossing = .ok () := by
  decide +kernel

/-- The sixth day of the endless series. -/
def sixthDay : Derived :=
  ⟨0, daily "endless" (midnight 0) none,
    ⟨midnight 0, none, some oneDay⟩,
    ⟨5, midnight 5, some (midnight 6)⟩⟩

/-- The day of the single series. -/
def singleDay : Derived :=
  ⟨1, daily "single" (midnight 5) (some (midnight 6)),
    ⟨midnight 5, some (midnight 6), some oneDay⟩,
    ⟨0, midnight 5, some (midnight 6)⟩⟩

theorem sixthDay_derives : Derives startKeyed crossing sixthDay where
  source := rfl
  bounds := by decide +kernel
  generates := by
    refine ⟨midnight 6, (List.range 6).map fun index => ⟨index, midnight index, some (midnight (index + 1))⟩, ?_, ?_⟩
    · decide +kernel
    · decide +kernel

theorem singleDay_derives : Derives startKeyed crossing singleDay where
  source := rfl
  bounds := by decide +kernel
  generates := ⟨midnight 5, [⟨0, midnight 5, some (midnight 6)⟩], by decide +kernel, by decide +kernel⟩

/-- An accepted pass does not separate an endless series from a later single day. -/
theorem crossing_meets :
    ¬ (startKeyed.validate (midnight 0) crossing = .ok () → Unique startKeyed crossing) := by
  intro unique
  have same := unique crossing_accepted sixthDay singleDay sixthDay_derives singleDay_derives rfl
  exact absurd same.1 (by decide)

theorem unique_iff_crossing :
    Unique startKeyed crossing ↔
      if startKeyed.key.isSome then LateApart startKeyed (midnight 0) crossing
      else SourcesApart startKeyed crossing :=
  unique_iff crossing_accepted

end Sample

end Liasse.Bucket

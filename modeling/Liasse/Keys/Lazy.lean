/-
This file proves when a keyring that is visited late has the versions of a keyring that is visited on
schedule.
-/

import Liasse.Keys.Rotation

namespace Liasse.Keys

variable {start now : Timestamp} {schedule : RotationSchedule} {stage after : Stage}
  {visits : List Timestamp}

section Visits

/-- A visit is in the lead of the version that a turn replaces the active one by. -/
structure Loud (start : Timestamp) (schedule : RotationSchedule) (turn : Nat) (visit : Timestamp) :
    Prop where
  reached : boundary start schedule.every turn ≤ visit
  before : visit < boundary start schedule.every (turn + 1)
  lead : (boundary start schedule.every (turn + 1)).subDuration schedule.overlap ≤ visit

/-- A version is created at its boundary, or at the first visit in its lead. -/
structure Visited (start : Timestamp) (schedule : RotationSchedule) (visits : List Timestamp)
    (stage : Stage) : Prop where
  before : ∀ visit ∈ visits, visit < boundary start schedule.every (stage.turns + 1)
  settled : ∀ turn < stage.turns,
    (stage.created (turn + 1) = boundary start schedule.every (turn + 1) ∧
      ∀ visit ∈ visits, ¬ Loud start schedule turn visit) ∨
    ∃ visit ∈ visits, Loud start schedule turn visit ∧ stage.created (turn + 1) = visit
  exposed : stage.pending = true → ∃ visit ∈ visits, Loud start schedule stage.turns visit ∧
    stage.created (stage.turns + 1) = visit ∧
    ∀ other ∈ visits, Loud start schedule stage.turns other → visit ≤ other
  quiet : stage.pending = false → ∀ visit ∈ visits, ¬ Loud start schedule stage.turns visit
  first : stage.created 0 = start

theorem first_visited : Visited start schedule [] (.first start) where
  before := by simp
  settled := by simp [Stage.first]
  exposed := by simp [Stage.first]
  quiet := by simp
  first := rfl

/-- A turn keeps the description when the next boundary advances. -/
theorem Visited.rotate (visited : Visited start schedule visits stage)
    (advances : boundary start schedule.every (stage.turns + 1) <
      boundary start schedule.every (stage.turns + 2)) :
    Visited start schedule visits (stage.rotate start schedule.every) where
  before := by
    intro visit inside
    have early := visited.before visit inside
    rw [Timestamp.lt_iff] at early advances ⊢
    exact early.trans advances
  settled := by
    intro turn within
    rw [Stage.rotate_turns] at within
    rcases Nat.lt_or_ge turn stage.turns with past | last
    · rw [Stage.rotate_created_of_le start schedule.every stage past]
      exact visited.settled turn past
    · obtain rfl : turn = stage.turns := by omega
      cases pending : stage.pending with
      | true =>
        obtain ⟨visit, inside, loud, created, -⟩ := visited.exposed pending
        exact .inr ⟨visit, inside, loud, by simpa [Stage.rotate, pending] using created⟩
      | false => exact .inl ⟨by simp [Stage.rotate, pending], visited.quiet pending⟩
  exposed := by simp
  quiet := by
    intro _ visit inside loud
    have early := visited.before visit inside
    have late := loud.reached
    rw [Timestamp.lt_iff] at early
    rw [Stage.rotate_turns, Timestamp.le_iff] at late
    omega
  first := by rw [Stage.rotate_created_of_le start schedule.every stage (Nat.zero_le _), visited.first]

theorem Visited.turned (visited : Visited start schedule visits stage) {turns : Nat}
    (steady : Steady start schedule.every now)
    (passed : ∀ turn, stage.turns < turn → turn ≤ stage.turns + turns →
      boundary start schedule.every turn ≤ now) :
    Visited start schedule visits (Keyring.turned start schedule.every turns stage) := by
  induction turns generalizing stage with
  | zero => exact visited
  | succ turns earlier =>
    have rotated := visited.rotate
      (boundary_lt_succ steady (passed (stage.turns + 1) (by omega) (by omega)))
    apply earlier rotated
    intro turn above below
    rw [Stage.rotate_turns] at above below
    exact passed turn (by omega) (by omega)

/-- A visit before the next boundary keeps the description. -/
theorem Visited.exposes (visited : Visited start schedule visits stage)
    (steady : Steady start schedule.every now)
    (reached : boundary start schedule.every stage.turns ≤ now)
    (ahead : now < boundary start schedule.every (stage.turns + 1))
    (last : ∀ visit ∈ visits, visit ≤ now) :
    Visited start schedule (now :: visits) (Keyring.exposed start schedule now stage) := by
  have past : ∀ turn < stage.turns, ¬ Loud start schedule turn now := by
    intro turn within loud
    have early := loud.before
    have order := boundary_mono steady.1.le (show turn + 1 ≤ stage.turns from within)
    rw [Timestamp.lt_iff] at early
    rw [Timestamp.le_iff] at order reached
    omega
  have settled : ∀ turn < stage.turns,
      (stage.created (turn + 1) = boundary start schedule.every (turn + 1) ∧
        ∀ visit ∈ now :: visits, ¬ Loud start schedule turn visit) ∨
      ∃ visit ∈ now :: visits, Loud start schedule turn visit ∧ stage.created (turn + 1) = visit := by
    intro turn within
    rcases visited.settled turn within with ⟨created, quiet⟩ | ⟨visit, inside, loud, created⟩
    · refine .inl ⟨created, ?_⟩
      intro visit inside
      rcases List.mem_cons.mp inside with rfl | inside
      · exact past turn within
      · exact quiet visit inside
    · exact .inr ⟨visit, List.mem_cons_of_mem _ inside, loud, created⟩
  have before : ∀ visit ∈ now :: visits, visit < boundary start schedule.every (stage.turns + 1) := by
    intro visit inside
    rcases List.mem_cons.mp inside with rfl | inside
    · exact ahead
    · exact visited.before visit inside
  unfold Keyring.exposed
  split
  next pending =>
    refine ⟨before, settled, ?_, by simp [pending], visited.first⟩
    intro _
    obtain ⟨visit, inside, loud, created, least⟩ := visited.exposed pending
    refine ⟨visit, List.mem_cons_of_mem _ inside, loud, created, ?_⟩
    intro other listed loudly
    rcases List.mem_cons.mp listed with rfl | listed
    · exact last visit inside
    · exact least other listed loudly
  next idle =>
    rw [Bool.not_eq_true] at idle
    split
    next early =>
      refine ⟨before, settled, by simp [idle], ?_, visited.first⟩
      intro _ visit inside loud
      rcases List.mem_cons.mp inside with rfl | inside
      · have lead := loud.lead
        rw [Timestamp.lt_iff] at early
        rw [Timestamp.le_iff] at lead
        omega
      · exact visited.quiet idle visit inside loud
    next late =>
      have lead : (boundary start schedule.every (stage.turns + 1)).subDuration schedule.overlap ≤ now := by
        rw [Timestamp.lt_iff, not_lt] at late
        rwa [Timestamp.le_iff]
      refine ⟨before, ?_, ?_, by simp [Stage.expose], ?_⟩
      · intro turn within
        rw [stage.expose_created_of_le now within]
        exact settled turn within
      · intro _
        refine ⟨now, List.mem_cons_self, ⟨reached, ahead, lead⟩, Function.update_self _ _ _, ?_⟩
        intro other listed loudly
        rcases List.mem_cons.mp listed with rfl | listed
        · rw [Timestamp.le_iff]
        · exact absurd loudly (visited.quiet idle other listed)
      · rw [stage.expose_created_of_le now (Nat.zero_le _), visited.first]

/-- A call before the end of a steady clock keeps the description, and the next boundary is ahead of
it. -/
theorem Visited.advance (visited : Visited start schedule visits stage)
    (steady : Steady start schedule.every now) {turns : Nat}
    (advance : Keyring.Advance start schedule now stage after turns)
    (reached : boundary start schedule.every stage.turns ≤ now)
    (last : ∀ visit ∈ visits, visit ≤ now) :
    Visited start schedule (now :: visits) after ∧
      boundary start schedule.every after.turns ≤ now ∧
      now < boundary start schedule.every (after.turns + 1) := by
  have turnsAfter := Keyring.turned_turns start schedule.every turns stage
  have current : boundary start schedule.every (stage.turns + turns) ≤ now := by
    rcases Nat.eq_zero_or_pos turns with rfl | positive
    · exact reached
    · exact advance.passed _ (by omega) le_rfl
  have ahead : now < boundary start schedule.every (stage.turns + turns + 1) := by
    refine advance.ended.resolve_right fun stalled => ?_
    have advances := boundary_lt_succ steady current
    have stalls := stalled.2
    rw [Timestamp.lt_iff] at advances
    rw [Timestamp.le_iff] at stalls
    omega
  have shown := visited.turned steady advance.passed
  rw [← turnsAfter] at current ahead
  have exposed := shown.exposes steady current ahead last
  have same : (Keyring.exposed start schedule now
      (Keyring.turned start schedule.every turns stage)).turns =
      (Keyring.turned start schedule.every turns stage).turns := by
    unfold Keyring.exposed
    split
    · rfl
    · split <;> rfl
  rw [turnsAfter] at ahead
  rw [advance.after, if_pos ahead, same]
  rw [← turnsAfter] at ahead
  exact ⟨exposed, current, ahead⟩

theorem Steady.earlier {every : Signed 128} (steady : Steady start every now) {visit : Timestamp}
    (early : visit ≤ now) : Steady start every visit := by
  refine ⟨steady.1, ?_⟩
  have ended := steady.2
  rw [Timestamp.lt_iff] at ended ⊢
  rw [Timestamp.le_iff] at early
  omega

end Visits

section Runs

variable {P : Type} [KeyProvider P] {policy : KeyringPolicy} {ring : Keyring P}

/-- The first activation is the start of the timeline. -/
theorem bootstrap_at (start : Timestamp) (name : String) (provider : P) (scheduled : policy.rotate = some schedule)
    (automatic : schedule.mode = .automatic) (reliable : Reliable P policy) :
    ((Keyring.load name provider policy).bootstrap start).2.At policy start schedule.every
      (.first start) := by
  obtain ⟨next, generated, samePolicy, lives, nextId⟩ :=
    Keyring.generate_spec (Keyring.load name provider policy) reliable start
  have driven : policy.isManual = false := by
    simp [KeyringPolicy.isManual, scheduled, automatic]
  rw [Keyring.bootstrap, generated]
  change ((if policy.isManual then _ else _ : Except _ Unit × Keyring P)).2.At _ _ _ _
  rw [driven, if_neg Bool.false_ne_true]
  refine ⟨samePolicy, ?_, nextId⟩
  rw [Keyring.activate_lives, lives]
  rfl

/-- Visits in order keep the description, and the next boundary is ahead of the last one. -/
theorem visit_visited (scheduled : policy.rotate = some schedule)
    (automatic : schedule.mode = .automatic) (reliable : Reliable P policy)
    (placed : ring.At policy start schedule.every stage) {seen instants : List Timestamp}
    (visited : Visited start schedule seen stage) (steady : Steady start schedule.every now)
    (ordered : (instants ++ [now]).Pairwise (· ≤ ·))
    (reached : ∀ visit ∈ instants ++ [now], boundary start schedule.every stage.turns ≤ visit ∧
      ∀ other ∈ seen, other ≤ visit) :
    ∃ after, (ring.visit (instants ++ [now])).At policy start schedule.every after ∧
      Visited start schedule (now :: (instants.reverse ++ seen)) after ∧
      boundary start schedule.every after.turns ≤ now ∧
      now < boundary start schedule.every (after.turns + 1) := by
  induction instants generalizing ring stage seen with
  | nil =>
    obtain ⟨early, last⟩ := reached now List.mem_cons_self
    obtain ⟨after, turns, moved, advance⟩ :=
      placed.ensureCurrent scheduled automatic reliable now
    exact ⟨after, moved, visited.advance steady advance early last⟩
  | cons visit rest earlier =>
    rw [List.cons_append, List.pairwise_cons] at ordered
    obtain ⟨early, last⟩ := reached visit List.mem_cons_self
    have settled := steady.earlier (ordered.1 now (List.mem_append_right _ List.mem_cons_self))
    obtain ⟨after, turns, moved, advance⟩ :=
      placed.ensureCurrent scheduled automatic reliable visit
    obtain ⟨shown, current, ahead⟩ := visited.advance settled advance early last
    obtain ⟨final, done, described, bounds⟩ := earlier moved shown ordered.2 (by
      intro later inside
      have order := ordered.1 later inside
      refine ⟨?_, ?_⟩
      · rw [Timestamp.le_iff] at current order ⊢
        exact current.trans order
      · intro other listed
        rcases List.mem_cons.mp listed with rfl | listed
        · exact order
        · exact (reached later (List.mem_cons_of_mem _ inside)).2 other listed)
    exact ⟨final, done, by simpa using described, bounds⟩

/-- The first activation and the visits after it. -/
theorem bootstrap_visited (name : String) (provider : P) (scheduled : policy.rotate = some schedule)
    (automatic : schedule.mode = .automatic) (reliable : Reliable P policy)
    (steady : Steady start schedule.every now) {instants : List Timestamp}
    (ordered : (start :: (instants ++ [now])).Pairwise (· ≤ ·)) :
    ∃ after, (((Keyring.load name provider policy).bootstrap start).2.visit (instants ++ [now])).At
        policy start schedule.every after ∧
      Visited start schedule (now :: instants.reverse) after ∧
      boundary start schedule.every after.turns ≤ now ∧
      now < boundary start schedule.every (after.turns + 1) := by
  rw [List.pairwise_cons] at ordered
  have shown := visit_visited scheduled automatic reliable
    (bootstrap_at start name provider scheduled automatic reliable) first_visited steady ordered.2
    (fun visit inside => ⟨ordered.1 visit inside, by simp⟩)
  simpa using shown

/-- A second call at one instant finds nothing due. -/
theorem ensureCurrent_idempotent (scheduled : policy.rotate = some schedule)
    (automatic : schedule.mode = .automatic) (placed : ring.At policy start schedule.every stage)
    (visited : Visited start schedule (now :: visits) stage)
    (reached : boundary start schedule.every stage.turns ≤ now)
    (ahead : now < boundary start schedule.every (stage.turns + 1)) :
    ring.ensureCurrent now = (.notDue, ring) := by
  have due : (boundary start schedule.every stage.turns).instantAdd schedule.every =
      boundary start schedule.every (stage.turns + 1) := rfl
  unfold Keyring.ensureCurrent
  rw [placed.policy, scheduled]
  simp only [automatic, placed.activatedAt]
  rw [if_neg (by simp), due, if_pos ahead, Keyring.exposePending, placed.anyPending]
  cases pending : stage.pending with
  | true => rfl
  | false =>
    have early : now < (boundary start schedule.every (stage.turns + 1)).subDuration
        schedule.overlap := by
      by_contra late
      rw [Timestamp.lt_iff, not_lt, ← Timestamp.le_iff] at late
      exact visited.quiet pending now List.mem_cons_self ⟨reached, ahead, late⟩
    rw [if_neg Bool.false_ne_true, if_pos early]

end Runs

section Comparison

/-- Two lives are observed alike: the instants of creation are one instant, and the rest is equal. -/
structure Lifecycle.Same (first second : Lifecycle) : Prop where
  id : first.id = second.id
  createdAt : first.createdAt.Same second.createdAt
  activatedAt : first.activatedAt = second.activatedAt
  retiredAt : first.retiredAt = second.retiredAt
  revokedAt : first.revokedAt = second.revokedAt
  state : first.state = second.state

/-- A visit is quiet when it is before the lead of each boundary that is ahead of it. -/
def Quiet (start : Timestamp) (schedule : RotationSchedule) (visit : Timestamp) : Prop :=
  ∀ turn, visit < boundary start schedule.every turn →
    visit < (boundary start schedule.every turn).subDuration schedule.overlap

variable {other : Stage} {earlier : List Timestamp}

/-- The boundaries around an instant determine the turns. -/
theorem turns_unique (steady : Steady start schedule.every now) {early late : Nat}
    (reached : boundary start schedule.every late ≤ now)
    (ahead : now < boundary start schedule.every (early + 1)) : late ≤ early := by
  by_contra beyond
  have order := boundary_mono steady.1.le (show early + 1 ≤ late by omega)
  rw [Timestamp.lt_iff] at ahead
  rw [Timestamp.le_iff] at order reached
  omega

/-- The next version is pending when the last visit is in its lead. -/
theorem Visited.pending_iff (visited : Visited start schedule (now :: visits) stage)
    (reached : boundary start schedule.every stage.turns ≤ now)
    (ahead : now < boundary start schedule.every (stage.turns + 1))
    (last : ∀ visit ∈ visits, visit ≤ now) :
    stage.pending = true ↔
      (boundary start schedule.every (stage.turns + 1)).subDuration schedule.overlap ≤ now := by
  constructor
  · intro pending
    obtain ⟨visit, inside, loud, -, -⟩ := visited.exposed pending
    have lead := loud.lead
    have order : visit ≤ now := by
      rcases List.mem_cons.mp inside with rfl | inside
      · rw [Timestamp.le_iff]
      · exact last visit inside
    rw [Timestamp.le_iff] at lead order ⊢
    exact lead.trans order
  · intro lead
    by_contra idle
    rw [Bool.not_eq_true] at idle
    exact visited.quiet idle now List.mem_cons_self ⟨reached, ahead, lead⟩

/-- Stages of one timeline have alike lives when they have the same turns and alike creations. -/
theorem lives_same_iff {every : Signed 128} (turns : stage.turns = other.turns)
    (pending : stage.pending = other.pending) :
    List.Forall₂ Lifecycle.Same (stage.lives start every) (other.lives start every) ↔
      ∀ turn < stage.count, (stage.created turn).Same (other.created turn) := by
  have count : other.count = stage.count := by
    rw [Stage.count, Stage.count, turns, pending]
  rw [Stage.lives, Stage.lives, count, List.forall₂_map_left_iff, List.forall₂_map_right_iff,
    List.forall₂_same]
  constructor
  · intro alike turn within
    exact (alike turn (List.mem_range.mpr within)).createdAt
  · intro alike turn inside
    refine ⟨rfl, alike turn (List.mem_range.mp inside), ?_, ?_, rfl, ?_⟩ <;>
      simp only [Stage.life, turns]

theorem Lifecycle.Same.isAccepted {first second : Lifecycle} (same : first.Same second)
    (retain : Option (Signed 128)) (later : Timestamp) :
    first.isAccepted retain later = second.isAccepted retain later := by
  unfold Lifecycle.isAccepted
  rw [same.state, same.retiredAt]

/-- Alike lives are accepted at the same instants. -/
theorem accepted_same {first second : List Lifecycle}
    (alike : List.Forall₂ Lifecycle.Same first second) (retain : Option (Signed 128))
    (later : Timestamp) :
    (first.filter (Lifecycle.isAccepted retain later)).map Lifecycle.id =
      (second.filter (Lifecycle.isAccepted retain later)).map Lifecycle.id := by
  induction alike with
  | nil => rfl
  | cons same _ rest =>
    rw [List.filter_cons, List.filter_cons, same.isAccepted]
    split
    · rw [List.map_cons, List.map_cons, same.id, rest]
    · exact rest

/-- The creations of a stage with earlier visits are those of one late visit when the earlier visits
are quiet. -/
theorem created_same_iff (steady : Steady start schedule.every now)
    (visited : Visited start schedule (now :: visits) stage)
    (late : Visited start schedule [now] other) (turns : stage.turns = other.turns)
    (reached : boundary start schedule.every stage.turns ≤ now)
    (ahead : now < boundary start schedule.every (stage.turns + 1))
    (started : ∀ visit ∈ visits, start ≤ visit) (last : ∀ visit ∈ visits, visit ≤ now) :
    (∀ turn < stage.count, (stage.created turn).Same (other.created turn)) ↔
      ∀ visit ∈ visits, visit < now → Quiet start schedule visit := by
  have pendings := visited.pending_iff reached ahead last
  have otherPending := late.pending_iff (turns ▸ reached) (turns ▸ ahead) (by simp)
  rw [← turns, ← pendings] at otherPending
  -- One late visit creates each activated version at its boundary.
  have scheduled : ∀ turn < stage.turns,
      other.created (turn + 1) = boundary start schedule.every (turn + 1) := by
    intro turn within
    rcases late.settled turn (turns ▸ within) with ⟨created, -⟩ | ⟨visit, inside, loud, -⟩
    · exact created
    · rw [List.mem_singleton] at inside
      subst inside
      exact absurd (turns_unique steady reached loud.before) (by omega)
  have exposed : stage.pending = true → other.created (stage.turns + 1) = now := by
    intro pending
    obtain ⟨visit, inside, -, created, -⟩ := late.exposed (otherPending.mpr pending)
    rw [List.mem_singleton] at inside
    rw [turns, created, inside]
  constructor
  · intro alike visit inside before turn upcoming
    by_contra loud
    rw [Timestamp.lt_iff, not_lt] at loud
    have passed := started visit inside
    have order := last visit inside
    have next : ∃ turn, visit < boundary start schedule.every turn := ⟨turn, upcoming⟩
    -- The visit is in the lead of the first boundary ahead of it.
    obtain ⟨index, found⟩ : ∃ index, Nat.find next = index + 1 := by
      refine Nat.exists_eq_succ_of_ne_zero fun zero => ?_
      have first := Nat.find_spec next
      rw [zero, boundary, Timestamp.lt_iff] at first
      rw [Timestamp.le_iff] at passed
      omega
    have inLead : Loud start schedule index visit := by
      refine ⟨?_, found ▸ Nat.find_spec next, ?_⟩
      · have least := Nat.find_min next (show index < Nat.find next by omega)
        rwa [Timestamp.lt_iff, not_lt, ← Timestamp.le_iff] at least
      · have close := Timestamp.subDuration_mono (by simp)
          (boundary_mono steady.1.le (found ▸ Nat.find_min' next upcoming)) schedule.overlap
        rw [Timestamp.le_iff] at close ⊢
        exact close.trans loud
    have bound : index ≤ stage.turns := by
      apply turns_unique steady _ ahead
      have reachedIndex := inLead.reached
      rw [Timestamp.le_iff] at reachedIndex order ⊢
      exact reachedIndex.trans order
    rcases Nat.lt_or_ge index stage.turns with past | current
    · rcases visited.settled index past with ⟨-, quiet⟩ | ⟨first, -, loudly, created⟩
      · exact quiet visit (List.mem_cons_of_mem _ inside) inLead
      · have same := alike (index + 1) (by unfold Stage.count; split <;> omega)
        have early := loudly.before
        rw [created, scheduled index past, Timestamp.same_iff] at same
        rw [Timestamp.lt_iff] at early
        omega
    · obtain rfl : index = stage.turns := by omega
      have pending : stage.pending = true := by
        rw [pendings]
        have lead := inLead.lead
        rw [Timestamp.le_iff] at lead order ⊢
        exact lead.trans order
      obtain ⟨first, -, -, created, least⟩ := visited.exposed pending
      have same := alike (stage.turns + 1) (by rw [Stage.count, pending, if_pos rfl]; omega)
      have early := least visit (List.mem_cons_of_mem _ inside) inLead
      rw [created, exposed pending, Timestamp.same_iff] at same
      rw [Timestamp.le_iff] at early
      rw [Timestamp.lt_iff] at before
      omega
  · intro quiet turn within
    have silent : ∀ index visit, visit ∈ now :: visits → Loud start schedule index visit →
        visit.Same now := by
      intro index visit inside loud
      rw [Timestamp.same_iff]
      rcases List.mem_cons.mp inside with rfl | inside
      · rfl
      · have order := last visit inside
        rw [Timestamp.le_iff] at order
        by_contra different
        have hushed := quiet visit inside (Timestamp.lt_iff.mpr (by omega)) (index + 1) loud.before
        have lead := loud.lead
        rw [Timestamp.lt_iff] at hushed
        rw [Timestamp.le_iff] at lead
        omega
    cases turn with
    | zero => rw [visited.first, late.first, Timestamp.same_iff]
    | succ index =>
      rcases Nat.lt_or_ge index stage.turns with past | current
      · rw [scheduled index past]
        rcases visited.settled index past with ⟨created, -⟩ | ⟨visit, inside, loud, -⟩
        · rw [created, Timestamp.same_iff]
        · have same := silent index visit inside loud
          have early := loud.before
          have order := boundary_mono steady.1.le (show index + 1 ≤ stage.turns from past)
          rw [Timestamp.same_iff] at same
          rw [Timestamp.lt_iff] at early
          rw [Timestamp.le_iff] at order reached
          omega
      · cases pending : stage.pending with
        | false =>
          rw [Stage.count, pending, if_neg Bool.false_ne_true] at within
          omega
        | true =>
          rw [Stage.count, pending, if_pos rfl] at within
          obtain rfl : index = stage.turns := by omega
          obtain ⟨visit, inside, loud, created, -⟩ := visited.exposed pending
          rw [created, exposed pending]
          exact silent _ visit inside loud

end Comparison

section Laziness

variable {P : Type} {policy : KeyringPolicy} {ring : Keyring P}

theorem accepted_lives (ring : Keyring P) (later : Timestamp) :
    (ring.accepted later).map (fun version => version.id) =
      (ring.lives.filter (Lifecycle.isAccepted ring.policy.retain later)).map Lifecycle.id := by
  rw [Keyring.accepted, Keyring.lives, List.filter_map, List.map_map]
  rfl

/-- A ring determines the turns of its stage. -/
theorem at_turns {every : Signed 128} (first : ring.At policy start every stage)
    (second : ring.At policy start every after) : stage.turns = after.turns := by
  have active := first.current.symm.trans second.current
  have ids := congrArg (Option.map Lifecycle.id) active
  simpa [Stage.life] using ids

variable [KeyProvider P]

/-- A ring that is visited at some instants and then now agrees with the ring that is visited now: the
versions are alike, the same versions are accepted later, and a second call at each visit does
nothing. -/
structure LazyRotation (ring : Keyring P) (visits : List Timestamp) (now : Timestamp) : Prop where
  versions : List.Forall₂ Lifecycle.Same (ring.visit (visits ++ [now])).lives (ring.visit [now]).lives
  accepted : ∀ later, now ≤ later →
    ((ring.visit (visits ++ [now])).accepted later).map (fun version => version.id) =
      ((ring.visit [now]).accepted later).map fun version => version.id
  idempotent : ∀ earlier visit rest, visits ++ [now] = earlier ++ visit :: rest →
    (ring.visit (earlier ++ [visit])).ensureCurrent visit =
      (.notDue, ring.visit (earlier ++ [visit]))

/-- Each call keeps a ring on its timeline. -/
theorem visit_at (scheduled : policy.rotate = some schedule)
    (automatic : schedule.mode = .automatic) (reliable : Reliable P policy)
    (placed : ring.At policy start schedule.every stage) (instants : List Timestamp) :
    ∃ after, (ring.visit instants).At policy start schedule.every after := by
  induction instants generalizing ring stage with
  | nil => exact ⟨stage, placed⟩
  | cons now rest earlier =>
    obtain ⟨after, _, moved, _⟩ := placed.ensureCurrent scheduled automatic reliable now
    exact earlier moved

/-- Without a steady cadence a second call turns the ring again. -/
theorem not_idempotent (scheduled : policy.rotate = some schedule)
    (automatic : schedule.mode = .automatic) (reliable : Reliable P policy)
    (placed : ring.At policy start schedule.every stage) (started : start ≤ now)
    (unsteady : ¬ Steady start schedule.every now) :
    ring.ensureCurrent now ≠ (.notDue, ring) := by
  intro same
  obtain ⟨after, turns, moved, advance⟩ := placed.ensureCurrent scheduled automatic reliable now
  have past : ¬ now < boundary start schedule.every (stage.turns + turns + 1) := by
    have reached := boundary_le_of_not_steady started unsteady (stage.turns + turns + 1)
    rw [Timestamp.lt_iff, not_lt]
    rwa [Timestamp.le_iff] at reached
  rw [same] at moved
  have equal := at_turns placed moved
  rw [advance.after, if_neg past, Keyring.turned_turns] at equal
  have positive := (advance.ended.resolve_left past).1
  omega

/-- A late ring agrees with a scheduled ring exactly when the cadence has a tick of the clock, the
clock has not ended, and no earlier visit is in the lead of a later boundary. -/
theorem lazyRotation_iff (name : String) (provider : P) (visits : List Timestamp)
    (scheduled : policy.rotate = some schedule) (automatic : schedule.mode = .automatic)
    (reliable : Reliable P policy) (ordered : (start :: (visits ++ [now])).Pairwise (· ≤ ·)) :
    LazyRotation ((Keyring.load name provider policy).bootstrap start).2 visits now ↔
      Steady start schedule.every now ∧
        ∀ visit ∈ visits, visit < now → Quiet start schedule visit := by
  have orders := List.pairwise_cons.mp ordered
  have started : start ≤ now := orders.1 now (List.mem_append_right _ List.mem_cons_self)
  have last : ∀ visit ∈ visits, visit ≤ now := fun visit inside =>
    (List.pairwise_append.mp orders.2).2.2 visit inside now List.mem_cons_self
  have since : ∀ visit ∈ visits, start ≤ visit := fun visit inside =>
    orders.1 visit (List.mem_append_left _ inside)
  have placed := bootstrap_at start name provider scheduled automatic reliable
  by_cases steady : Steady start schedule.every now
  · obtain ⟨stage, early, visited, reached, ahead⟩ :=
      bootstrap_visited name provider scheduled automatic reliable steady ordered
    obtain ⟨other, late, waited, arrived, upcoming⟩ :=
      bootstrap_visited name provider scheduled automatic reliable steady
        (show (start :: (([] : List Timestamp) ++ [now])).Pairwise (· ≤ ·) by simpa using started)
    rw [List.nil_append] at late
    have turns : stage.turns = other.turns :=
      le_antisymm (turns_unique steady reached upcoming) (turns_unique steady arrived ahead)
    have pending : stage.pending = other.pending := by
      rw [Bool.eq_iff_iff, visited.pending_iff reached ahead (by simpa using last),
        waited.pending_iff arrived upcoming (by simp), turns]
    have alike := created_same_iff steady visited waited turns reached ahead
      (by simpa using since) (by simpa using last)
    rw [← lives_same_iff turns pending, ← early.lives, ← late.lives] at alike
    have members : (∀ visit ∈ visits.reverse, visit < now → Quiet start schedule visit) ↔
        ∀ visit ∈ visits, visit < now → Quiet start schedule visit := by
      simp only [List.mem_reverse]
    rw [members] at alike
    constructor
    · intro lazy
      exact ⟨steady, alike.mp lazy.versions⟩
    · rintro ⟨-, quiet⟩
      have versions := alike.mpr quiet
      refine ⟨versions, ?_, ?_⟩
      · intro later _
        rw [accepted_lives, accepted_lives, early.policy, late.policy]
        exact accepted_same versions policy.retain later
      · intro earlier visit rest split
        have inside : visit ∈ visits ++ [now] := by simp [split]
        have order : visit ≤ now := by
          rcases List.mem_append.mp inside with inside | inside
          · exact last visit inside
          · rw [List.mem_singleton.mp inside, Timestamp.le_iff]
        have front : (start :: (earlier ++ [visit])).Pairwise (· ≤ ·) := by
          rw [split] at ordered
          exact ordered.sublist (by simp)
        obtain ⟨_, moved, seen, before, after⟩ := bootstrap_visited name provider scheduled automatic
          reliable (steady.earlier order) front
        exact ensureCurrent_idempotent scheduled automatic moved seen before after
  · constructor
    · intro lazy
      obtain ⟨_, moved⟩ := visit_at scheduled automatic reliable placed (visits ++ [now])
      exact absurd (lazy.idempotent visits now [] rfl)
        (not_idempotent scheduled automatic reliable moved started steady)
    · rintro ⟨steady', -⟩
      exact absurd steady' steady

section Sample

/-- A provider that counts the keys it generated. -/
structure SampleProvider where
  generated : Nat

instance : KeyProvider SampleProvider where
  Failure := Empty
  generate := fun provider _ => (.ok provider.generated, ⟨provider.generated + 1⟩)
  publicKey := fun _ _ => .ok ⟨"ed25519", .bytes [1]⟩
  attest := fun _ _ => .ok none

/-- Rotation each ten seconds with a lead of five seconds. -/
def sampleSchedule : RotationSchedule where
  every := ⟨10000000000, by decide, by decide⟩
  overlap := ⟨5000000000, by decide, by decide⟩
  mode := .automatic

/-- The policy of the sample schedule. -/
def samplePolicy : KeyringPolicy where
  algorithm := "ed25519"
  usage := [.sign]
  rotate := some sampleSchedule
  retain := none
  protection := none

theorem sampleSeconds_low (seconds : Fin 100) : -2 ^ (128 - 1) ≤ (seconds.val : Int) := by
  omega

theorem sampleSeconds_high (seconds : Fin 100) : (seconds.val : Int) < 2 ^ (128 - 1) := by
  omega

/-- An instant of the clock in seconds. -/
def sampleInstant (seconds : Fin 100) : Timestamp :=
  ⟨⟨seconds, sampleSeconds_low seconds, sampleSeconds_high seconds⟩, .seconds⟩

/-- The ring of the sample policy after its first activation. -/
def sampleRing : Keyring SampleProvider :=
  ((Keyring.load "session" ⟨0⟩ samplePolicy).bootstrap (sampleInstant 0)).2

theorem sample_reliable : Reliable SampleProvider samplePolicy := by
  intro provider
  exact ⟨_, _, _, _, rfl, rfl, rfl, rfl, rfl⟩

/-- A visit in the lead records the pending version earlier than a late visit. -/
theorem sample_not_lazy : ¬ LazyRotation sampleRing [sampleInstant 7] (sampleInstant 8) := by
  intro lazy
  have scheduled : (sampleRing.visit ([sampleInstant 7] ++ [sampleInstant 8])).lives =
      [⟨1, sampleInstant 0, some (sampleInstant 0), none, none, .active⟩,
        .recorded 2 (sampleInstant 7)] := by decide
  have late : (sampleRing.visit [sampleInstant 8]).lives =
      [⟨1, sampleInstant 0, some (sampleInstant 0), none, none, .active⟩,
        .recorded 2 (sampleInstant 8)] := by decide
  have versions := lazy.versions
  rw [scheduled, late, List.forall₂_cons, List.forall₂_cons] at versions
  exact absurd versions.2.1.createdAt (by decide)

theorem sample_quiet : Quiet (sampleInstant 0) sampleSchedule (sampleInstant 3) := by
  intro turn ahead
  cases turn with
  | zero => exact absurd ahead (by decide)
  | succ turn =>
    have ticks : 0 ≤ Timestamp.ticksOf sampleSchedule.every (sampleInstant 0).precision := by decide
    have order := boundary_mono ticks (show 1 ≤ turn + 1 by omega)
    have close := Timestamp.subDuration_mono (by simp) order sampleSchedule.overlap
    have first : sampleInstant 3 < (boundary (sampleInstant 0) sampleSchedule.every 1).subDuration
        sampleSchedule.overlap := by decide
    rw [Timestamp.lt_iff] at first ⊢
    rw [Timestamp.le_iff] at close
    exact first.trans_le close

/-- A visit before the lead agrees with a late visit. -/
theorem lazyRotation_iff_early : LazyRotation sampleRing [sampleInstant 3] (sampleInstant 25) := by
  have ordered : (sampleInstant 0 :: ([sampleInstant 3] ++ [sampleInstant 25])).Pairwise (· ≤ ·) := by
    decide
  refine (lazyRotation_iff "session" ⟨0⟩ [sampleInstant 3] rfl rfl sample_reliable ordered).mpr
    ⟨⟨by decide, by decide⟩, ?_⟩
  intro visit inside _
  rw [List.mem_singleton.mp inside]
  exact sample_quiet

end Sample

end Laziness

end Liasse.Keys

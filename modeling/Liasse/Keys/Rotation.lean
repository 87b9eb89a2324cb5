/-
This file describes the lives of the versions of a rotating keyring by their boundaries.
-/

import Liasse.Keys.Ring

namespace Liasse.Keys

section Boundaries

/-- The scheduled instants of activation after the first one. -/
def boundary (start : Timestamp) (every : Signed 128) : Nat → Timestamp
  | 0 => start
  | turn + 1 => (boundary start every turn).instantAdd every

variable {start : Timestamp} {every : Signed 128}

@[simp] theorem boundary_precision (turn : Nat) :
    (boundary start every turn).precision = start.precision := by
  induction turn with
  | zero => rfl
  | succ turn earlier => rw [boundary, Timestamp.instantAdd_precision, earlier]

/-- The last instant that a precision represents. -/
def clockEnd (precision : Precision) : Timestamp :=
  ⟨Runtime.saturate 128 (2 ^ 127), precision⟩

/-- The cadence has a tick of the clock, and an instant is before the end of the clock. -/
def Steady (start : Timestamp) (every : Signed 128) (now : Timestamp) : Prop :=
  0 < Timestamp.ticksOf every start.precision ∧ now < clockEnd start.precision

theorem le_clockEnd (instant : Timestamp) : instant ≤ clockEnd instant.precision := by
  rw [Timestamp.le_iff, ← not_lt, Timestamp.nanos_lt_iff (by simp [clockEnd])]
  have high := instant.count.high
  simp only [clockEnd, Runtime.saturate]
  omega

theorem instantAdd_count (instant : Timestamp) :
    (instant.instantAdd every).count.val =
      max (-2 ^ 127) (min (instant.count.val + Timestamp.ticksOf every instant.precision)
        (2 ^ 127 - 1)) := rfl

theorem boundary_succ_count (start : Timestamp) (every : Signed 128) (turn : Nat) :
    (boundary start every (turn + 1)).count.val =
      max (-2 ^ 127) (min ((boundary start every turn).count.val +
        Timestamp.ticksOf every start.precision) (2 ^ 127 - 1)) := by
  rw [boundary, instantAdd_count, boundary_precision]

theorem boundary_le_succ (ticks : 0 ≤ Timestamp.ticksOf every start.precision) (turn : Nat) :
    boundary start every turn ≤ boundary start every (turn + 1) := by
  rw [Timestamp.le_iff, ← not_lt, Timestamp.nanos_lt_iff (by simp)]
  have next := boundary_succ_count start every turn
  have high := (boundary start every turn).count.high
  omega

theorem boundary_mono (ticks : 0 ≤ Timestamp.ticksOf every start.precision) {early late : Nat}
    (ordered : early ≤ late) : boundary start every early ≤ boundary start every late := by
  induction late, ordered using Nat.le_induction with
  | base => rw [Timestamp.le_iff]
  | succ late _ earlier =>
    have next := boundary_le_succ ticks late
    rw [Timestamp.le_iff] at earlier next ⊢
    exact earlier.trans next

/-- A boundary that the clock has reached advances before the end of the clock. -/
theorem boundary_lt_succ {now : Timestamp} (steady : Steady start every now) {turn : Nat}
    (reached : boundary start every turn ≤ now) :
    boundary start every turn < boundary start every (turn + 1) := by
  obtain ⟨ticks, ended⟩ := steady
  rw [Timestamp.le_iff] at reached
  rw [Timestamp.lt_iff] at ended
  have inside : (boundary start every turn).nanos < (clockEnd start.precision).nanos := by omega
  rw [Timestamp.nanos_lt_iff (by simp [clockEnd])] at inside
  rw [Timestamp.lt_iff, Timestamp.nanos_lt_iff (by simp)]
  have next := boundary_succ_count start every turn
  have low := (boundary start every turn).count.low
  simp only [clockEnd, Runtime.saturate] at inside
  omega

/-- Without a steady cadence each boundary is in the past. -/
theorem boundary_le_of_not_steady {now : Timestamp} (started : start ≤ now)
    (unsteady : ¬ Steady start every now) (turn : Nat) : boundary start every turn ≤ now := by
  by_cases ticks : 0 < Timestamp.ticksOf every start.precision
  · have ended : clockEnd start.precision ≤ now := by
      rw [Timestamp.le_iff, ← not_lt, ← Timestamp.lt_iff]
      exact fun before => unsteady ⟨ticks, before⟩
    have bound := le_clockEnd (boundary start every turn)
    rw [boundary_precision] at bound
    rw [Timestamp.le_iff] at ended bound ⊢
    exact bound.trans ended
  · induction turn with
    | zero => exact started
    | succ turn earlier =>
      have next := boundary_succ_count start every turn
      have low := (boundary start every turn).count.low
      have falls : ¬ (boundary start every turn).count.val <
          (boundary start every (turn + 1)).count.val := by omega
      rw [← Timestamp.nanos_lt_iff (by simp), not_lt] at falls
      rw [Timestamp.le_iff] at earlier ⊢
      exact falls.trans earlier

end Boundaries

section Stages

/-- A rotating ring after some turns: the creation of each version, and whether the next one is
pending. -/
structure Stage where
  turns : Nat
  created : Nat → Timestamp
  pending : Bool

namespace Stage

variable (start : Timestamp) (every : Signed 128)

/-- The life of the version that a turn activates. -/
def life (stage : Stage) (turn : Nat) : Lifecycle where
  id := turn + 1
  createdAt := stage.created turn
  activatedAt := if turn ≤ stage.turns then some (boundary start every turn) else none
  retiredAt := if turn < stage.turns then some (boundary start every (turn + 1)) else none
  revokedAt := none
  state := if turn < stage.turns then .retired else if turn = stage.turns then .active else .pending

/-- The count of the versions. -/
def count (stage : Stage) : Nat :=
  if stage.pending then stage.turns + 2 else stage.turns + 1

/-- The lives of the versions in the order of their identities. -/
def lives (stage : Stage) : List Lifecycle :=
  (List.range stage.count).map (stage.life start every)

/-- The ring after its first activation. -/
def first : Stage where
  turns := 0
  created := fun _ => start
  pending := false

/-- The next version is activated at its boundary. It is created then unless it is pending. -/
def rotate (stage : Stage) : Stage where
  turns := stage.turns + 1
  created :=
    if stage.pending then stage.created
    else Function.update stage.created (stage.turns + 1) (boundary start every (stage.turns + 1))
  pending := false

@[simp] theorem rotate_turns (stage : Stage) : (stage.rotate start every).turns = stage.turns + 1 := rfl

@[simp] theorem rotate_pending (stage : Stage) : (stage.rotate start every).pending = false := rfl

theorem rotate_created_of_le (stage : Stage) {turn : Nat} (within : turn ≤ stage.turns) :
    (stage.rotate start every).created turn = stage.created turn := by
  unfold rotate
  simp only
  split
  · rfl
  · rw [Function.update_of_ne (by omega)]

/-- The next version becomes pending at an instant. -/
def expose (stage : Stage) (now : Timestamp) : Stage :=
  { stage with
    created := Function.update stage.created (stage.turns + 1) now
    pending := true }

theorem expose_created_of_le (stage : Stage) (now : Timestamp) {turn : Nat}
    (within : turn ≤ stage.turns) : (stage.expose now).created turn = stage.created turn :=
  Function.update_of_ne (by omega) _ _

/-- The retired versions come first, then the active one, then a pending one. -/
theorem lives_eq (stage : Stage) :
    stage.lives start every = (List.range stage.turns).map (stage.life start every) ++
      stage.life start every stage.turns ::
        (if stage.pending then [stage.life start every (stage.turns + 1)] else []) := by
  unfold lives count
  split
  · rw [List.range_succ, List.range_succ]
    simp
  · rw [List.range_succ]
    simp

end Stage

end Stages

section Operations

variable {start : Timestamp} {every : Signed 128}

theorem modifyFirst_append {A : Type} {test : A → Bool} {change : A → A} {front : List A}
    (skipped : ∀ member ∈ front, test member = false) (rest : List A) :
    modifyFirst test change (front ++ rest) = front ++ modifyFirst test change rest := by
  induction front with
  | nil => rfl
  | cons head front earlier =>
    rw [List.cons_append, modifyFirst, skipped head List.mem_cons_self,
      earlier fun member inside => skipped member (List.mem_cons_of_mem _ inside)]
    rfl

theorem map_modifyFirst {A B : Type} {test : A → Bool} {other : B → Bool} {change : A → A}
    {move : B → B} {view : A → B} (tests : ∀ member, other (view member) = test member)
    (changes : ∀ member, view (change member) = move (view member)) (members : List A) :
    (modifyFirst test change members).map view = modifyFirst other move (members.map view) := by
  induction members with
  | nil => rfl
  | cons head rest earlier =>
    rw [List.map_cons, modifyFirst, modifyFirst, tests]
    split
    · rw [List.map_cons, changes]
    · rw [List.map_cons, earlier]

namespace Stage

theorem retire_retired {stage : Stage} {turn : Nat} (past : turn < stage.turns) (now : Timestamp) :
    (stage.life start every turn).retire now = stage.life start every turn := by
  simp [life, Lifecycle.retire, past]

/-- The activation of the next version retires the active one at the boundary. -/
theorem activateIn_rotate (start : Timestamp) (every : Signed 128) (stage : Stage) :
    activateIn (stage.turns + 2) (boundary start every (stage.turns + 1))
      ((List.range stage.turns).map (stage.life start every) ++
        [stage.life start every stage.turns,
          .recorded (stage.turns + 2) ((stage.rotate start every).created (stage.turns + 1))]) =
      (stage.rotate start every).lives start every := by
  have retired : ((List.range stage.turns).map (stage.life start every)).map
      (Lifecycle.retire (boundary start every (stage.turns + 1))) =
      (List.range stage.turns).map ((stage.rotate start every).life start every) := by
    rw [List.map_map]
    apply List.map_congr_left
    intro turn inside
    rw [List.mem_range] at inside
    rw [Function.comp_apply, retire_retired inside]
    have next : turn < stage.turns + 1 := by omega
    simp [life, rotate_created_of_le start every stage inside.le, inside, inside.le, next, next.le]
  have active : (stage.life start every stage.turns).retire (boundary start every (stage.turns + 1)) =
      (stage.rotate start every).life start every stage.turns := by
    simp [life, Lifecycle.retire, rotate_created_of_le start every stage le_rfl]
  have lives : (stage.rotate start every).lives start every =
      (List.range stage.turns).map ((stage.rotate start every).life start every) ++
        [(stage.rotate start every).life start every stage.turns,
          (stage.rotate start every).life start every (stage.turns + 1)] := by
    rw [lives_eq]
    simp [List.range_succ]
  rw [lives, activateIn, List.map_append, retired, List.map_cons, List.map_cons, active, List.map_nil,
    modifyFirst_append]
  · congr 1
    simp [modifyFirst, life, Lifecycle.retire, Lifecycle.recorded, Lifecycle.activate]
  · intro version inside
    obtain ⟨turn, listed, rfl⟩ := List.mem_map.mp inside
    rw [List.mem_range] at listed
    simp [life]
    omega

end Stage

end Operations

variable {P : Type}

/-- The provider does not fail: it generates a valid key of the policy in each of its states. -/
def Reliable (P : Type) [KeyProvider P] (policy : KeyringPolicy) : Prop :=
  ∀ provider : P, ∃ handle next key attestation,
    KeyProvider.generate provider policy.spec = (.ok handle, next) ∧
      KeyProvider.publicKey next handle = .ok key ∧ key.validate = .ok () ∧
      key.algorithm = policy.algorithm ∧ KeyProvider.attest next handle = .ok attestation

namespace Keyring

/-- A ring of a policy is at a stage of its timeline. -/
structure At (policy : KeyringPolicy) (start : Timestamp) (every : Signed 128) (ring : Keyring P)
    (stage : Stage) : Prop where
  policy : ring.policy = policy
  lives : ring.lives = stage.lives start every
  nextId : ring.nextId = stage.count + 1

variable {policy : KeyringPolicy} {start now : Timestamp} {every : Signed 128} {ring : Keyring P}
  {stage : Stage}

theorem activate_lives (ring : Keyring P) (version : Nat) (now : Timestamp) :
    (ring.activate version now).lives = activateIn version now ring.lives := by
  have retired : (ring.versions.map (KeyVersion.modify (Lifecycle.retire now))).map
      KeyVersion.toLifecycle = ring.lives.map (Lifecycle.retire now) := by
    rw [lives, List.map_map, List.map_map]
    rfl
  rw [activateIn, ← retired]
  exact @map_modifyFirst KeyVersion Lifecycle (fun other => other.id = version)
    (fun other => other.id = version) (.modify (.activate now)) (.activate now)
    KeyVersion.toLifecycle (fun _ => rfl) (fun _ => rfl) _

section Stage

theorem At.find (placed : ring.At policy start every stage) (test : Lifecycle → Bool) :
    (ring.versions.find? fun version => test version.toLifecycle).map KeyVersion.toLifecycle =
      (stage.lives start every).find? test := by
  rw [← placed.lives, Keyring.lives, List.find?_map]
  rfl

theorem find_retired (test : Lifecycle → Bool)
    (never : ∀ version : Lifecycle, version.state = .retired → test version = false) :
    ((List.range stage.turns).map (stage.life start every)).find? test = none := by
  rw [List.find?_eq_none]
  intro version inside
  obtain ⟨turn, listed, rfl⟩ := List.mem_map.mp inside
  rw [List.mem_range] at listed
  rw [never _ (by simp [Stage.life, listed])]
  exact Bool.false_ne_true

/-- The active version is the one of the last turn. -/
theorem At.current (placed : ring.At policy start every stage) :
    ring.current.map KeyVersion.toLifecycle = some (stage.life start every stage.turns) := by
  rw [Keyring.current, placed.find fun version => version.state = .active, Stage.lives_eq,
    List.find?_append, find_retired _ (by intro version retired; simp [retired])]
  simp [Stage.life]

theorem At.activatedAt (placed : ring.At policy start every stage) :
    (ring.current.map fun active => active.activatedAt) =
      some (some (boundary start every stage.turns)) := by
  have active := congrArg (Option.map Lifecycle.activatedAt) placed.current
  rw [Option.map_map] at active
  simpa [Stage.life] using active

/-- The pending version is the one of the next turn. -/
theorem At.pending (placed : ring.At policy start every stage) :
    (ring.versions.find? fun version => version.state = .pending).map KeyVersion.toLifecycle =
      if stage.pending then some (stage.life start every (stage.turns + 1)) else none := by
  rw [placed.find fun version => version.state = .pending, Stage.lives_eq, List.find?_append,
    find_retired _ (by intro version retired; simp [retired])]
  cases pending : stage.pending <;> simp [Stage.life]

theorem At.anyPending (placed : ring.At policy start every stage) :
    (ring.versions.any fun version => version.state = .pending) = stage.pending := by
  have found := congrArg Option.isSome placed.pending
  rw [Option.isSome_map, List.isSome_find?] at found
  rw [found]
  cases stage.pending <;> rfl

end Stage

variable [KeyProvider P]

/-- A reliable provider generates a version that the ring records as pending. -/
theorem generate_spec (ring : Keyring P) (reliable : Reliable P ring.policy) (now : Timestamp) :
    ∃ next, ring.generate now = (.ok ring.nextId, next) ∧ next.policy = ring.policy ∧
      next.lives = ring.lives ++ [.recorded ring.nextId now] ∧ next.nextId = ring.nextId + 1 := by
  obtain ⟨handle, provider, key, attestation, generated, read, valid, matched, attested⟩ :=
    reliable ring.provider
  refine ⟨{ ring with
    provider := provider
    nextId := ring.nextId + 1
    versions := ring.versions ++ [{
      toLifecycle := .recorded ring.nextId now
      algorithm := key.algorithm
      publicKey := key.material
      attestation := attestation
      handle := handle }] }, ?_, rfl, ?_, rfl⟩
  · simp [generate, generated, record, read, valid, matched, attested]
  · simp [lives]

/-- A rotation at the next boundary takes the ring to the next stage. -/
theorem At.rotate (placed : ring.At policy start every stage) (reliable : Reliable P policy) :
    ∃ version next, ring.rotate (boundary start every (stage.turns + 1)) = (.ok version, next) ∧
      next.At policy start every (stage.rotate start every) := by
  have found := placed.pending
  have rotated := Stage.activateIn_rotate start every stage
  unfold Keyring.rotate
  cases pending : stage.pending with
  | true =>
    rw [pending, if_pos rfl] at found
    obtain ⟨version, known, life⟩ := Option.map_eq_some_iff.mp found
    have id : version.id = stage.turns + 2 := by rw [life]; rfl
    rw [known]
    refine ⟨version.id, _, rfl, placed.policy, ?_, ?_⟩
    · rw [activate_lives, id, placed.lives, Stage.lives_eq, pending, ← rotated]
      have created : (stage.rotate start every).created (stage.turns + 1) =
          stage.created (stage.turns + 1) := by
        simp [Stage.rotate, pending]
      rw [created]
      congr 3
      simp [Stage.life, Lifecycle.recorded]
    · have next := placed.nextId
      simp only [Stage.count, pending, Stage.rotate_turns, Stage.rotate_pending] at next ⊢
      exact next
  | false =>
    rw [pending, if_neg Bool.false_ne_true] at found
    rw [Option.map_eq_none_iff.mp found]
    obtain ⟨next, generated, samePolicy, lives, nextId⟩ :=
      generate_spec ring (placed.policy ▸ reliable) (boundary start every (stage.turns + 1))
    have id : ring.nextId = stage.turns + 2 := by
      rw [placed.nextId, Stage.count, pending, if_neg Bool.false_ne_true]
    rw [generated]
    refine ⟨ring.nextId, _, rfl, samePolicy.trans placed.policy, ?_, ?_⟩
    · rw [activate_lives, lives, id, placed.lives, Stage.lives_eq, pending, ← rotated]
      have created : (stage.rotate start every).created (stage.turns + 1) =
          boundary start every (stage.turns + 1) := by
        simp [Stage.rotate, pending]
      rw [created]
      simp
    · change next.nextId = _
      rw [nextId, id]
      simp [Stage.count]

/-- The exposure of the next version after its lead. -/
theorem At.generate (placed : ring.At policy start every stage) (reliable : Reliable P policy)
    (idle : stage.pending = false) (now : Timestamp) :
    (ring.generate now).2.At policy start every (stage.expose now) := by
  obtain ⟨next, generated, samePolicy, lives, nextId⟩ :=
    generate_spec ring (placed.policy ▸ reliable) now
  have id : ring.nextId = stage.turns + 2 := by
    rw [placed.nextId, Stage.count, idle, if_neg Bool.false_ne_true]
  rw [generated]
  refine ⟨samePolicy.trans placed.policy, ?_, ?_⟩
  · rw [lives, id, placed.lives, Stage.lives_eq, Stage.lives_eq, idle]
    have kept : ∀ turn, turn ≤ stage.turns →
        (stage.expose now).life start every turn = stage.life start every turn := by
      intro turn within
      rw [Stage.life, stage.expose_created_of_le now within]
      rfl
    have added : (stage.expose now).life start every (stage.turns + 1) =
        .recorded (stage.turns + 2) now := by
      simp [Stage.life, Stage.expose, Lifecycle.recorded]
    have early : (List.range stage.turns).map ((stage.expose now).life start every) =
        (List.range stage.turns).map (stage.life start every) := by
      apply List.map_congr_left
      intro turn inside
      exact kept turn (List.mem_range.mp inside).le
    have turns : (stage.expose now).turns = stage.turns := rfl
    have pending : (stage.expose now).pending = true := rfl
    rw [turns, early, kept stage.turns le_rfl, added, pending]
    simp
  · rw [nextId, id]
    rfl

variable {schedule : RotationSchedule}

/-- The stage after an exposure that waits for the lead of the next boundary. -/
def exposed (start : Timestamp) (schedule : RotationSchedule) (now : Timestamp) (stage : Stage) :
    Stage :=
  if stage.pending then stage
  else if now < (boundary start schedule.every (stage.turns + 1)).subDuration schedule.overlap then
    stage
  else stage.expose now

theorem At.exposePending (placed : ring.At policy start schedule.every stage)
    (reliable : Reliable P policy) (now : Timestamp) :
    (ring.exposePending now schedule (boundary start schedule.every (stage.turns + 1))).At policy
      start schedule.every (exposed start schedule now stage) := by
  unfold Keyring.exposePending exposed
  rw [placed.anyPending]
  cases pending : stage.pending with
  | true => exact placed
  | false =>
    rw [if_neg Bool.false_ne_true, if_neg Bool.false_ne_true]
    split
    · exact placed
    · exact placed.generate reliable pending now

/-- The stage after some turns. -/
def turned (start : Timestamp) (every : Signed 128) (turns : Nat) (stage : Stage) : Stage :=
  (Stage.rotate start every)^[turns] stage

theorem turned_turns (start : Timestamp) (every : Signed 128) (turns : Nat) (stage : Stage) :
    (turned start every turns stage).turns = stage.turns + turns := by
  induction turns generalizing stage with
  | zero => rfl
  | succ turns earlier =>
    rw [turned, Function.iterate_succ_apply]
    have later := earlier (stage.rotate start every)
    rw [turned, Stage.rotate_turns] at later
    omega

/-- The loop turns the ring through each boundary that the clock has reached, and it ends before a
later boundary or at one that does not advance. -/
theorem At.catchUp (placed : ring.At policy start schedule.every stage)
    (reliable : Reliable P policy) (now : Timestamp) (outcome : RotationOutcome) :
    ∃ turns last next, ring.catchUp schedule now outcome
        (boundary start schedule.every (stage.turns + 1)) =
          .ok (last, next, boundary start schedule.every
            (if now < boundary start schedule.every (stage.turns + turns + 1) then
              stage.turns + turns + 1 else stage.turns + turns)) ∧
      next.At policy start schedule.every (turned start schedule.every turns stage) ∧
      (∀ turn, stage.turns < turn → turn ≤ stage.turns + turns →
        boundary start schedule.every turn ≤ now) ∧
      (now < boundary start schedule.every (stage.turns + turns + 1) ∨
        0 < turns ∧ boundary start schedule.every (stage.turns + turns + 1) ≤
          boundary start schedule.every (stage.turns + turns)) := by
  induction bound : remaining (boundary start schedule.every (stage.turns + 1)) using
    Nat.strong_induction_on generalizing ring stage outcome with
  | _ bound earlier =>
    rw [Keyring.catchUp]
    split
    next reached =>
      obtain ⟨version, next, rotated, after⟩ := placed.rotate reliable
      rw [rotated]
      have settled : Keyring.At policy start schedule.every { next with overdue := false }
          (stage.rotate start schedule.every) := ⟨after.policy, after.lives, after.nextId⟩
      simp only
      split
      next stalled =>
        have still : ¬ now < boundary start schedule.every (stage.turns + 1 + 1) := by
          rw [Timestamp.lt_iff, not_lt]
          rw [Timestamp.le_iff] at stalled reached
          exact stalled.trans reached
        refine ⟨1, _, _, by rw [if_neg still], settled, ?_, .inr ⟨Nat.one_pos, stalled⟩⟩
        intro turn above below
        obtain rfl : turn = stage.turns + 1 := by omega
        exact reached
      next advances =>
        obtain ⟨turns, last, final, caught, at_, passed, ended⟩ :=
          earlier _ (bound ▸ remaining_lt advances) settled (.rotated version) rfl
        have shifted : stage.turns + 1 + turns = stage.turns + (turns + 1) := by omega
        rw [Stage.rotate_turns, shifted] at caught passed ended
        refine ⟨turns + 1, last, final, caught, at_, ?_, ended.imp_right fun ended =>
          ⟨turns.succ_pos, ended.2⟩⟩
        intro turn above below
        rcases Nat.lt_or_ge (stage.turns + 1) turn with later | first
        · exact passed turn later below
        · obtain rfl : turn = stage.turns + 1 := by omega
          exact reached
    next early =>
      have before : now < boundary start schedule.every (stage.turns + 0 + 1) := by
        rw [Timestamp.lt_iff]
        rw [Timestamp.le_iff, not_le] at early
        exact early
      refine ⟨0, outcome, ring, by rw [if_pos before], placed, ?_, .inl before⟩
      intro turn above below
      omega

/-- What a call does to the stage. It turns through the boundaries that the clock has reached. When the
next boundary is ahead, the next version can become pending. -/
structure Advance (start : Timestamp) (schedule : RotationSchedule) (now : Timestamp)
    (before after : Stage) (turns : Nat) : Prop where
  passed : ∀ turn, before.turns < turn → turn ≤ before.turns + turns →
    boundary start schedule.every turn ≤ now
  after : after =
    if now < boundary start schedule.every (before.turns + turns + 1) then
      exposed start schedule now (turned start schedule.every turns before)
    else turned start schedule.every turns before
  ended : now < boundary start schedule.every (before.turns + turns + 1) ∨
    0 < turns ∧ boundary start schedule.every (before.turns + turns + 1) ≤
      boundary start schedule.every (before.turns + turns)

/-- A call of an automatic ring advances its stage. -/
theorem At.ensureCurrent (placed : ring.At policy start schedule.every stage)
    (scheduled : policy.rotate = some schedule) (automatic : schedule.mode = .automatic)
    (reliable : Reliable P policy) (now : Timestamp) :
    ∃ after turns, (ring.ensureCurrent now).2.At policy start schedule.every after ∧
      Advance start schedule now stage after turns := by
  unfold Keyring.ensureCurrent
  rw [placed.policy, scheduled]
  simp only [automatic, placed.activatedAt]
  rw [if_neg (by simp)]
  have due : (boundary start schedule.every stage.turns).instantAdd schedule.every =
      boundary start schedule.every (stage.turns + 1) := rfl
  rw [due]
  split
  next before =>
    refine ⟨_, 0, placed.exposePending reliable now, ?_, ?_, .inl before⟩
    · intro turn above below
      omega
    · exact (if_pos before).symm
  next reached =>
    obtain ⟨turns, last, next, caught, after, passed, ended⟩ :=
      placed.catchUp reliable now .notDue
    rw [caught]
    have turnsAfter := turned_turns start schedule.every turns stage
    simp only
    by_cases ahead : now < boundary start schedule.every (stage.turns + turns + 1)
    · rw [if_pos ahead, if_pos ahead]
      have shown := after.exposePending reliable now
      rw [turnsAfter] at shown
      exact ⟨_, turns, shown, passed, (if_pos ahead).symm, ended⟩
    · rw [if_neg ahead]
      refine ⟨_, turns, ?_, passed, (if_neg ahead).symm, ended⟩
      split
      next early =>
        have positive : 0 < turns := (ended.resolve_left ahead).1
        have past := passed (stage.turns + turns) (by omega) le_rfl
        rw [Timestamp.lt_iff] at early
        rw [Timestamp.le_iff] at past
        omega
      next => exact after

end Keyring

end Liasse.Keys

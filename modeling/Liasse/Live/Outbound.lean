/-
This file models the bounded ring of the frames that a connection has emitted.
-/

import Mathlib

namespace Liasse.Live

/-- An emitted frame has the frontier that stamps it and its position in the emission order. The event
token of a frame is the name of its frontier. -/
structure Emitted (Frame : Type) where
  frontierSeq : Nat
  frame : Frame
  pos : Nat

/-- The ring retains the latest frames. The field `history` is not part of the program: it lists each
frame that was ever enqueued. -/
structure Outbound (Frame : Type) where
  ring : List (Emitted Frame)
  capacity : Nat
  nextPos : Nat
  cursor : Nat
  evictedThrough : Nat
  overflow : Bool
  history : List (Emitted Frame)

namespace Outbound

variable {Frame : Type}

/-- The ring of a new connection. Its capacity is at least one. -/
def new (capacity : Nat) : Outbound Frame where
  ring := []
  capacity := max capacity 1
  nextPos := 0
  cursor := 0
  evictedThrough := 0
  overflow := false
  history := []

/-- The eviction drops the oldest frames while the ring is too long. The drop of a frame that is not yet
delivered sets the latch. -/
def evict (capacity cursor : Nat) :
    List (Emitted Frame) → Nat → Bool → List (Emitted Frame) × Nat × Bool
  | [], evictedThrough, overflow => ([], evictedThrough, overflow)
  | dropped :: ring, evictedThrough, overflow =>
    if (dropped :: ring).length > capacity then
      evict capacity cursor ring (max evictedThrough dropped.frontierSeq)
        (overflow || decide (dropped.pos ≥ cursor))
    else
      (dropped :: ring, evictedThrough, overflow)

/-- A frame enters the ring at the next position. -/
def enqueue (outbound : Outbound Frame) (frontierSeq : Nat) (frame : Frame) : Outbound Frame :=
  let emitted : Emitted Frame := ⟨frontierSeq, frame, outbound.nextPos⟩
  let (ring, evictedThrough, overflow) := evict outbound.capacity outbound.cursor
    (outbound.ring ++ [emitted]) outbound.evictedThrough outbound.overflow
  { outbound with
    ring, evictedThrough, overflow
    nextPos := outbound.nextPos + 1
    history := outbound.history ++ [emitted] }

/-- A drain delivers the retained frames from the cursor on. -/
def drainPending (outbound : Outbound Frame) : Outbound Frame × List (Emitted Frame) :=
  ({ outbound with cursor := outbound.nextPos },
    outbound.ring.filter fun emitted => emitted.pos ≥ outbound.cursor)

/-- A frontier can be replayed when no later one was evicted. -/
def replayable (outbound : Outbound Frame) (seq : Nat) : Bool :=
  seq ≥ outbound.evictedThrough

/-- A replay delivers the retained frames with a later frontier. -/
def replayAfter (outbound : Outbound Frame) (seq : Nat) : Outbound Frame × List (Emitted Frame) :=
  ({ outbound with cursor := outbound.nextPos },
    outbound.ring.filter fun emitted => emitted.frontierSeq > seq)

/-- The latch is taken and cleared. -/
def takeOverflow (outbound : Outbound Frame) : Outbound Frame × Bool :=
  ({ outbound with overflow := false }, outbound.overflow)

/-- The retained frames count as delivered. -/
def markDelivered (outbound : Outbound Frame) : Outbound Frame :=
  { outbound with cursor := outbound.nextPos }

/-- A ring is sound when its frames are the latest of the history, the evicted ones are recorded, and an
evicted frame that was not delivered has set the latch. -/
structure Sound (outbound : Outbound Frame) : Prop where
  positions : outbound.history.map Emitted.pos = List.range outbound.nextPos
  bounded : outbound.ring.length ≤ outbound.capacity
  positive : 0 < outbound.capacity
  reached : outbound.cursor ≤ outbound.nextPos
  retained : ∃ gone, outbound.history = gone ++ outbound.ring ∧
    (∀ emitted ∈ gone, emitted.frontierSeq ≤ outbound.evictedThrough) ∧
      (outbound.overflow = false → ∀ emitted ∈ gone, emitted.pos < outbound.cursor)

theorem evict_eq (capacity cursor : Nat) (ring : List (Emitted Frame)) (evictedThrough : Nat)
    (overflow : Bool) :
    ∃ gone, ring = gone ++ (evict capacity cursor ring evictedThrough overflow).1 ∧
      (evict capacity cursor ring evictedThrough overflow).1.length = min ring.length capacity ∧
        (evict capacity cursor ring evictedThrough overflow).2 =
          (gone.foldl (fun through emitted => max through emitted.frontierSeq) evictedThrough,
            overflow || gone.any fun emitted => emitted.pos ≥ cursor) := by
  induction ring generalizing evictedThrough overflow with
  | nil => exact ⟨[], rfl, by simp [evict], by simp [evict]⟩
  | cons dropped ring ih =>
    rw [evict]
    split
    · next long =>
        obtain ⟨gone, split, size, recorded⟩ := ih
          (max evictedThrough dropped.frontierSeq) (overflow || decide (dropped.pos ≥ cursor))
        refine ⟨dropped :: gone, by rw [List.cons_append, ← split], ?_, ?_⟩
        · rw [size]
          simp only [List.length_cons] at long ⊢
          omega
        · rw [recorded, List.foldl_cons, List.any_cons, Bool.or_assoc]
    · next short =>
        refine ⟨[], rfl, ?_, by simp⟩
        simp only [List.length_cons] at short ⊢
        omega

theorem le_foldl_max (gone : List (Emitted Frame)) (through : Nat) :
    through ≤ gone.foldl (fun through emitted => max through emitted.frontierSeq) through ∧
      ∀ emitted ∈ gone,
        emitted.frontierSeq ≤ gone.foldl (fun through emitted => max through emitted.frontierSeq) through := by
  induction gone generalizing through with
  | nil => exact ⟨le_rfl, fun _ inside => absurd inside List.not_mem_nil⟩
  | cons first gone ih =>
    obtain ⟨least, each⟩ := ih (max through first.frontierSeq)
    rw [List.foldl_cons]
    refine ⟨(le_max_left _ _).trans least, fun emitted inside => ?_⟩
    rcases List.mem_cons.mp inside with rfl | inside
    · exact (le_max_right _ _).trans least
    · exact each emitted inside

/-- A frontier separates a received prefix from the frames after it when each later frame has a later
frontier and each retained frame of the prefix has not. -/
def Separates (outbound : Outbound Frame) (count seq : Nat) : Prop :=
  (∀ emitted ∈ outbound.history, count ≤ emitted.pos → seq < emitted.frontierSeq) ∧
    ∀ emitted ∈ outbound.ring, emitted.pos < count → emitted.frontierSeq ≤ seq

instance (outbound : Outbound Frame) (count seq : Nat) : Decidable (outbound.Separates count seq) :=
  inferInstanceAs (Decidable (_ ∧ _))

namespace Sound

variable {outbound : Outbound Frame}

theorem new (capacity : Nat) : (Outbound.new capacity : Outbound Frame).Sound where
  positions := rfl
  bounded := Nat.zero_le _
  positive := Nat.lt_of_lt_of_le Nat.zero_lt_one (le_max_right _ _)
  reached := le_rfl
  retained := ⟨[], rfl, by simp, by simp⟩

theorem length_history (sound : outbound.Sound) : outbound.history.length = outbound.nextPos := by
  have lengths := congrArg List.length sound.positions
  rwa [List.length_map, List.length_range] at lengths

theorem enqueue (sound : outbound.Sound) (frontierSeq : Nat) (frame : Frame) :
    (outbound.enqueue frontierSeq frame).Sound := by
  obtain ⟨gone, split, recorded, delivered⟩ := sound.retained
  obtain ⟨dropped, kept, size, evicted⟩ := evict_eq outbound.capacity outbound.cursor
    (outbound.ring ++ [⟨frontierSeq, frame, outbound.nextPos⟩]) outbound.evictedThrough outbound.overflow
  obtain ⟨through, latched⟩ := Prod.mk.inj evicted
  refine ⟨?_, ?_, sound.positive, sound.reached.trans (Nat.le_succ _), gone ++ dropped, ?_, ?_, ?_⟩
  · change (outbound.history ++ [_]).map Emitted.pos = List.range (outbound.nextPos + 1)
    rw [List.map_append, sound.positions, List.range_succ]
    rfl
  · exact size.trans_le (min_le_right _ _)
  · change outbound.history ++ [_] = _
    rw [split, List.append_assoc, kept, List.append_assoc]
    rfl
  · change ∀ emitted ∈ gone ++ dropped, emitted.frontierSeq ≤ (evict _ _ _ _ _).2.1
    rw [through]
    intro emitted inside
    rcases List.mem_append.mp inside with inside | inside
    · exact (recorded emitted inside).trans (le_foldl_max dropped _).1
    · exact (le_foldl_max dropped _).2 emitted inside
  · change (evict _ _ _ _ _).2.2 = false → _
    rw [latched, Bool.or_eq_false_iff]
    rintro ⟨calm, none⟩ emitted inside
    rcases List.mem_append.mp inside with inside | inside
    · exact delivered calm emitted inside
    · have early : emitted.pos < outbound.cursor := by
        simpa using List.any_eq_false.mp none emitted inside
      exact early

theorem pos_lt (sound : outbound.Sound) {emitted : Emitted Frame} (inside : emitted ∈ outbound.history) :
    emitted.pos < outbound.nextPos := by
  have listed := List.mem_map_of_mem (f := Emitted.pos) inside
  rw [sound.positions] at listed
  exact List.mem_range.mp listed

theorem pos_lt_of_mem_take (sound : outbound.Sound) {count : Nat} {emitted : Emitted Frame}
    (inside : emitted ∈ outbound.history.take count) : emitted.pos < count := by
  have listed := List.mem_map_of_mem (f := Emitted.pos) inside
  rw [List.map_take, sound.positions, List.take_range] at listed
  exact (List.mem_range.mp listed).trans_le (min_le_left _ _)

theorem le_pos_of_mem_drop (sound : outbound.Sound) {count : Nat} {emitted : Emitted Frame}
    (inside : emitted ∈ outbound.history.drop count) : count ≤ emitted.pos := by
  have listed := List.mem_map_of_mem (f := Emitted.pos) inside
  rw [List.map_drop, sound.positions, List.mem_drop_iff_getElem] at listed
  obtain ⟨index, _, same⟩ := listed
  rw [List.getElem_range] at same
  omega

/-- The frames from a position on are the history without its first frames. -/
theorem filter_pos (sound : outbound.Sound) (count : Nat) :
    outbound.history.filter (fun emitted => emitted.pos ≥ count) = outbound.history.drop count := by
  conv_lhs => rw [← List.take_append_drop count outbound.history]
  rw [List.filter_append, List.filter_eq_nil_iff.mpr, List.filter_eq_self.mpr, List.nil_append]
  · intro emitted inside
    simpa using sound.le_pos_of_mem_drop inside
  · intro emitted inside
    simpa using sound.pos_lt_of_mem_take inside

/-- A drain without an overflow delivers the frames of the history from the cursor on. -/
theorem drain_eq (sound : outbound.Sound) (calm : outbound.overflow = false) :
    outbound.drainPending.2 = outbound.history.drop outbound.cursor := by
  obtain ⟨gone, split, _, delivered⟩ := sound.retained
  rw [← sound.filter_pos, split, List.filter_append, List.filter_eq_nil_iff.mpr, List.nil_append]
  · rfl
  · intro emitted inside
    simpa using delivered calm emitted inside

theorem drainPending (sound : outbound.Sound) : outbound.drainPending.1.Sound := by
  obtain ⟨gone, split, recorded, _⟩ := sound.retained
  refine ⟨sound.positions, sound.bounded, sound.positive, le_rfl, gone, split, recorded, fun _ => ?_⟩
  intro emitted inside
  exact sound.pos_lt (split ▸ List.mem_append_left _ inside)

theorem replayAfter (sound : outbound.Sound) (seq : Nat) : (outbound.replayAfter seq).1.Sound :=
  sound.drainPending

/-- The ring is sound again when the latch is taken and the retained frames count as delivered. -/
theorem restart (sound : outbound.Sound) : outbound.takeOverflow.1.markDelivered.Sound := by
  obtain ⟨gone, split, recorded, _⟩ := sound.retained
  refine ⟨sound.positions, sound.bounded, sound.positive, le_rfl, gone, split, recorded, fun _ => ?_⟩
  intro emitted inside
  exact sound.pos_lt (split ▸ List.mem_append_left _ inside)

/-- A replay gives exactly the frames after a received prefix if and only if the frontier separates
them. -/
theorem replay_eq_iff (sound : outbound.Sound) {count seq : Nat}
    (retained : outbound.replayable seq = true) :
    (outbound.replayAfter seq).2 = outbound.history.drop count ↔ Separates outbound count seq := by
  obtain ⟨gone, split, recorded, _⟩ := sound.retained
  have released : ∀ emitted ∈ gone, emitted.frontierSeq ≤ seq := fun emitted inside =>
    (recorded emitted inside).trans (by simpa [replayable] using retained)
  rw [← sound.filter_pos]
  constructor
  · intro exact
    constructor
    · intro emitted inside later
      have delivered : emitted ∈ (outbound.replayAfter seq).2 := by
        rw [exact]
        exact List.mem_filter.mpr ⟨inside, by simpa using later⟩
      simpa using (List.mem_filter.mp delivered).2
    · intro emitted inside earlier
      by_contra later
      have delivered : emitted ∈ (outbound.replayAfter seq).2 :=
        List.mem_filter.mpr ⟨inside, by simpa using later⟩
      rw [exact] at delivered
      have behind : count ≤ emitted.pos := by simpa using (List.mem_filter.mp delivered).2
      omega
  · rintro ⟨after, before⟩
    have kept : (outbound.replayAfter seq).2 =
        outbound.history.filter fun emitted => emitted.frontierSeq > seq := by
      rw [split, List.filter_append, List.filter_eq_nil_iff.mpr, List.nil_append]
      · rfl
      · intro emitted inside
        simpa using released emitted inside
    rw [kept]
    refine List.filter_congr fun emitted inside => decide_eq_decide.mpr ⟨fun later => ?_, after emitted inside⟩
    by_contra earlier
    rw [split] at inside
    rcases List.mem_append.mp inside with inside | inside
    · exact absurd later (not_lt.mpr (released emitted inside))
    · exact absurd later (not_lt.mpr (before emitted inside (not_le.mp earlier)))

end Sound

/-- A ring extends another one when frames entered it and nothing was delivered. -/
inductive Extends (outbound : Outbound Frame) : Outbound Frame → Prop
  | refl : Extends outbound outbound
  | enqueue {reached : Outbound Frame} (seq : Nat) (frame : Frame) (earlier : Extends outbound reached) :
      Extends outbound (reached.enqueue seq frame)

namespace Extends

variable {first second third : Outbound Frame}

theorem trans (earlier : Extends first second) (later : Extends second third) : Extends first third := by
  induction later with
  | refl => exact earlier
  | enqueue seq frame _ ih => exact ih.enqueue seq frame

theorem sound (longer : Extends first second) (sound : first.Sound) : second.Sound := by
  induction longer with
  | refl => exact sound
  | enqueue seq frame _ ih => exact ih.enqueue seq frame

theorem cursor (longer : Extends first second) : second.cursor = first.cursor := by
  induction longer with
  | refl => rfl
  | enqueue _ _ _ ih => exact ih

theorem history (longer : Extends first second) :
    ∃ frames, second.history = first.history ++ frames := by
  induction longer with
  | refl => exact ⟨[], (List.append_nil _).symm⟩
  | enqueue seq frame _ ih =>
    obtain ⟨frames, split⟩ := ih
    exact ⟨frames ++ [_], by rw [← List.append_assoc, ← split]; rfl⟩

theorem capacity (longer : Extends first second) : second.capacity = first.capacity := by
  induction longer with
  | refl => rfl
  | enqueue _ _ _ ih => exact ih

/-- A ring whose frames all count as delivered stays calm while its capacity holds the new frames. -/
theorem calm (longer : Extends first second) (sound : first.Sound) (quiet : first.overflow = false)
    (delivered : first.cursor = first.nextPos) (frames : List (Emitted Frame))
    (split : second.history = first.history ++ frames) (space : frames.length ≤ first.capacity) :
    second.overflow = false ∧ frames.length ≤ second.ring.length := by
  induction longer generalizing frames with
  | refl =>
    obtain rfl : frames = [] := List.self_eq_append_right.mp split
    exact ⟨quiet, Nat.zero_le _⟩
  | @enqueue reached seq frame earlier ih =>
    obtain ⟨past, before⟩ := earlier.history
    have soundReached := earlier.sound sound
    change reached.history ++ [_] = _ at split
    rw [before, List.append_assoc, List.append_cancel_left_eq] at split
    subst split
    rw [List.length_append, List.length_singleton] at space ⊢
    obtain ⟨calm, held⟩ := ih past before (Nat.le_of_succ_le space)
    obtain ⟨dropped, kept, size, evicted⟩ := evict_eq reached.capacity reached.cursor
      (reached.ring ++ [⟨seq, frame, reached.nextPos⟩]) reached.evictedThrough reached.overflow
    have latch := congrArg Prod.snd evicted
    have filled : past.length + 1 ≤ (reached.enqueue seq frame).ring.length := by
      change past.length + 1 ≤ (evict _ _ _ _ _).1.length
      rw [size, List.length_append, List.length_singleton, earlier.capacity]
      omega
    refine ⟨?_, filled⟩
    change (evict _ _ _ _ _).2.2 = false
    rw [latch, calm, Bool.false_or, List.any_eq_false]
    intro emitted inside
    -- A dropped frame precedes the new frames, so it counts as delivered.
    obtain ⟨gone, whole, _⟩ := soundReached.retained
    have shape : (reached.enqueue seq frame).history =
        (gone ++ dropped) ++ (reached.enqueue seq frame).ring := by
      change reached.history ++ [_] = _
      rw [whole, List.append_assoc, kept, List.append_assoc]
      rfl
    have early : emitted ∈ (reached.enqueue seq frame).history.take (gone ++ dropped).length := by
      rw [shape, List.take_left]
      exact List.mem_append_right _ inside
    have place := (soundReached.enqueue seq frame).pos_lt_of_mem_take early
    have total := congrArg List.length shape
    have count := congrArg List.length before
    rw [(soundReached.enqueue seq frame).length_history, List.length_append] at total
    rw [soundReached.length_history, List.length_append, sound.length_history] at count
    have next : (reached.enqueue seq frame).nextPos = reached.nextPos + 1 := rfl
    have cursor : reached.cursor = first.nextPos := earlier.cursor.trans delivered
    simp only [decide_eq_true_eq]
    omega

/-- A run of emitting steps extends the ring when each step does. -/
theorem foldl {α σ : Type} (ring : σ → Outbound Frame) {step : σ → α → σ}
    (each : ∀ state member, Extends (ring state) (ring (step state member))) (members : List α)
    (state : σ) : Extends (ring state) (ring (members.foldl step state)) := by
  induction members generalizing state with
  | nil => exact .refl
  | cons member members ih =>
    exact (each state member).trans (ih (step state member))

end Extends

/-- A ring emits frames that satisfy a property when only such frames entered it and nothing was
delivered. -/
inductive Emits (allowed : Nat → Frame → Prop) (outbound : Outbound Frame) : Outbound Frame → Prop
  | refl : Emits allowed outbound outbound
  | enqueue {reached : Outbound Frame} {seq : Nat} {frame : Frame} (held : allowed seq frame)
      (earlier : Emits allowed outbound reached) : Emits allowed outbound (reached.enqueue seq frame)

namespace Emits

variable {allowed : Nat → Frame → Prop} {first second third : Outbound Frame}

theorem toExtends (emits : Emits allowed first second) : first.Extends second := by
  induction emits with
  | refl => exact .refl
  | enqueue _ _ ih => exact ih.enqueue _ _

theorem trans (earlier : Emits allowed first second) (later : Emits allowed second third) :
    Emits allowed first third := by
  induction later with
  | refl => exact earlier
  | enqueue held _ ih => exact ih.enqueue held

/-- The new frames of the history satisfy the property. -/
theorem history (emits : Emits allowed first second) :
    ∃ frames, second.history = first.history ++ frames ∧
      ∀ emitted ∈ frames, allowed emitted.frontierSeq emitted.frame := by
  induction emits with
  | refl => exact ⟨[], (List.append_nil _).symm, fun _ inside => absurd inside List.not_mem_nil⟩
  | @enqueue reached seq frame held _ ih =>
    obtain ⟨frames, split, satisfied⟩ := ih
    refine ⟨frames ++ [⟨seq, frame, reached.nextPos⟩], ?_, fun emitted inside => ?_⟩
    · rw [← List.append_assoc, ← split]
      rfl
    · rcases List.mem_append.mp inside with inside | inside
      · exact satisfied emitted inside
      · rw [List.mem_singleton.mp inside]
        exact held

/-- A run of emitting steps emits when each step does. -/
theorem foldl {α σ : Type} (ring : σ → Outbound Frame) {step : σ → α → σ}
    (each : ∀ state member, Emits allowed (ring state) (ring (step state member))) (members : List α)
    (state : σ) : Emits allowed (ring state) (ring (members.foldl step state)) := by
  induction members generalizing state with
  | nil => exact .refl
  | cons member members ih =>
    exact (each state member).trans (ih (step state member))

end Emits

end Outbound

end Liasse.Live

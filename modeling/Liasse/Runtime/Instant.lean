/-
This file orders the timestamps as instants, and it models the clock arithmetic that saturates.
-/

import Liasse.Runtime.Types

namespace Liasse

namespace Timestamp

section Order

/-- The nanoseconds of an instant. -/
def nanos (instant : Timestamp) : Int :=
  instant.count.val * (1000000000 / instant.precision.ticksPerSecond)

theorem nanos_split (instant : Timestamp) :
    instant.nanos = instant.secondsAndSubnanos.1 * 1000000000 + instant.secondsAndSubnanos.2 ∧
      0 ≤ instant.secondsAndSubnanos.2 ∧ instant.secondsAndSubnanos.2 < 1000000000 := by
  obtain ⟨count, precision⟩ := instant
  cases precision <;>
    simp only [nanos, secondsAndSubnanos, Precision.ticksPerSecond] <;> omega

/-- Timestamps compare by their nanoseconds. -/
theorem cmp_eq (first second : Timestamp) : first.cmp second = compare first.nanos second.nanos := by
  obtain ⟨firstNanos, firstLow, firstHigh⟩ := nanos_split first
  obtain ⟨secondNanos, secondLow, secondHigh⟩ := nanos_split second
  rw [cmp, firstNanos, secondNanos]
  generalize first.secondsAndSubnanos = left at *
  generalize second.secondsAndSubnanos = right at *
  symm
  rcases Int.lt_trichotomy left.1 right.1 with lower | same | higher
  · rw [Int.compare_eq_lt.mpr lower]
    exact Int.compare_eq_lt.mpr (by omega)
  · rw [Int.compare_eq_eq.mpr same, same]
    rcases Int.lt_trichotomy left.2 right.2 with lower | equal | above
    · rw [Int.compare_eq_lt.mpr lower]
      exact Int.compare_eq_lt.mpr (by omega)
    · rw [Int.compare_eq_eq.mpr equal]
      exact Int.compare_eq_eq.mpr (by omega)
    · rw [Int.compare_eq_gt.mpr above]
      exact Int.compare_eq_gt.mpr (by omega)
  · rw [Int.compare_eq_gt.mpr higher]
    exact Int.compare_eq_gt.mpr (by omega)

instance : LT Timestamp :=
  ⟨fun first second => first.cmp second = .lt⟩

instance : LE Timestamp :=
  ⟨fun first second => first.cmp second ≠ .gt⟩

instance (first second : Timestamp) : Decidable (first < second) :=
  inferInstanceAs (Decidable (_ = _))

instance (first second : Timestamp) : Decidable (first ≤ second) :=
  inferInstanceAs (Decidable (_ ≠ _))

theorem lt_iff {first second : Timestamp} : first < second ↔ first.nanos < second.nanos := by
  change first.cmp second = .lt ↔ _
  rw [cmp_eq, Int.compare_eq_lt]

theorem le_iff {first second : Timestamp} : first ≤ second ↔ first.nanos ≤ second.nanos := by
  change first.cmp second ≠ .gt ↔ _
  rw [cmp_eq, ne_eq, Int.compare_eq_gt, not_lt]

/-- Two timestamps are one instant. The runtime compares timestamps so. -/
def Same (first second : Timestamp) : Prop :=
  first.cmp second = .eq

instance (first second : Timestamp) : Decidable (first.Same second) :=
  inferInstanceAs (Decidable (_ = _))

theorem same_iff {first second : Timestamp} : first.Same second ↔ first.nanos = second.nanos := by
  rw [Same, cmp_eq, Int.compare_eq_eq]

theorem nanos_lt_iff {first second : Timestamp} (shared : first.precision = second.precision) :
    first.nanos < second.nanos ↔ first.count.val < second.count.val := by
  rw [nanos, nanos, shared]
  cases second.precision <;> simp only [Precision.ticksPerSecond] <;> omega

end Order

section Arithmetic

open Liasse.Runtime

/-- The ticks of a precision in an elapsed count of nanoseconds. -/
def ticksOf (duration : Signed 128) (precision : Precision) : Int :=
  (saturate 128 (duration.val * precision.ticksPerSecond)).val.tdiv 1000000000

/-- The shift of a timestamp by ticks. -/
def shift (timestamp : Timestamp) (ticks : Int) : Timestamp :=
  ⟨saturate 128 (timestamp.count.val + ticks), timestamp.precision⟩

/-- The sum of a timestamp and an elapsed duration. -/
def instantAdd (timestamp : Timestamp) (duration : Signed 128) : Timestamp :=
  timestamp.shift (ticksOf duration timestamp.precision)

/-- The difference of a timestamp and an elapsed duration. -/
def subDuration (timestamp : Timestamp) (duration : Signed 128) : Timestamp :=
  timestamp.shift (saturate 128 (-ticksOf duration timestamp.precision)).val

@[simp] theorem instantAdd_precision (timestamp : Timestamp) (duration : Signed 128) :
    (timestamp.instantAdd duration).precision = timestamp.precision := rfl

theorem saturate_mono {first second : Int} (ordered : first ≤ second) :
    (saturate 128 first).val ≤ (saturate 128 second).val := by
  simp only [saturate]
  omega

/-- An earlier timestamp has an earlier shift. -/
theorem shift_mono {first second : Timestamp} (shared : first.precision = second.precision)
    (ordered : first ≤ second) (ticks : Int) : first.shift ticks ≤ second.shift ticks := by
  rw [le_iff] at ordered ⊢
  by_contra later
  rw [not_le, nanos_lt_iff (by exact shared.symm)] at later
  have counts : first.count.val ≤ second.count.val := by
    by_contra above
    rw [not_le, ← nanos_lt_iff shared.symm] at above
    omega
  have sums := saturate_mono (add_le_add_left counts ticks)
  exact absurd later (not_lt.mpr (by simpa [shift, add_comm] using sums))

theorem subDuration_mono {first second : Timestamp} (shared : first.precision = second.precision)
    (ordered : first ≤ second) (duration : Signed 128) :
    first.subDuration duration ≤ second.subDuration duration := by
  rw [subDuration, subDuration, shared]
  exact shift_mono shared ordered _

end Arithmetic

end Timestamp

end Liasse

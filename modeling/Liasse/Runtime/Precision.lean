/-
This file models the conversion of timestamps between precisions under each rounding mode of the decimal library.
-/

import Liasse.Codes.Rounding
import Liasse.KeyEnc.Canonical
import Liasse.Pg.Durable
import Liasse.Runtime.Instant
import Liasse.Wire.Calendar
import Liasse.Wire.Sample

namespace Liasse.Timestamp

open Codes
open Liasse.Runtime (saturate DivisionRounding)

section Conversion

/-- The rounding modes of the decimal library. -/
inductive RoundingMode
  | up
  | down
  | ceiling
  | floor
  | halfUp
  | halfDown
  | halfEven
deriving DecidableEq

/-- The quotient of a count by a positive ratio. The adjustment of the truncated quotient saturates. -/
def roundDiv (count ratio : Int) (mode : RoundingMode) : Int :=
  let quotient := count.tdiv ratio
  let remainder := count.tmod ratio
  if remainder = 0 then quotient
  else
    let away := (saturate 128 (if count < 0 then quotient - 1 else quotient + 1)).val
    match mode with
    | .down => quotient
    | .up => away
    | .floor => if count < 0 then away else quotient
    | .ceiling => if count < 0 then quotient else away
    | .halfUp =>
      match compare (remainder.natAbs * 2) ratio.natAbs with
      | .lt => quotient
      | .eq | .gt => away
    | .halfDown =>
      match compare (remainder.natAbs * 2) ratio.natAbs with
      | .gt => away
      | .eq | .lt => quotient
    | .halfEven =>
      match compare (remainder.natAbs * 2) ratio.natAbs with
      | .lt => quotient
      | .gt => away
      | .eq => if quotient.tmod 2 = 0 then quotient else away

/-- The conversion of a timestamp to another precision. It saturates at the bounds of the count. -/
def toPrecision (timestamp : Timestamp) (target : Precision) (mode : RoundingMode) : Timestamp :=
  let source := timestamp.precision.ticksPerSecond
  let ticks := target.ticksPerSecond
  ⟨saturate 128 (if source ≤ ticks then timestamp.count.val * (ticks / source)
    else roundDiv timestamp.count.val (source / ticks) mode), target⟩

end Conversion

section Instants

/-- The exact instant of a timestamp in seconds. -/
def instant (timestamp : Timestamp) : ℚ :=
  timestamp.count.val / timestamp.precision.ticksPerSecond

theorem ticksPerSecond_pos (precision : Precision) : 0 < precision.ticksPerSecond := by
  cases precision <;> decide

theorem nanos_instant (timestamp : Timestamp) : (timestamp.nanos : ℚ) = timestamp.instant * 1000000000 := by
  obtain ⟨count, precision⟩ := timestamp
  cases precision <;>
    simp only [nanos, instant, Precision.ticksPerSecond] <;> push_cast <;> ring

theorem nanos_lt_iff_instant {first second : Timestamp} :
    first.nanos < second.nanos ↔ first.instant < second.instant := by
  rw [← Int.cast_lt (R := ℚ), nanos_instant, nanos_instant]
  exact mul_lt_mul_iff_left₀ (by norm_num)

/-- Timestamps compare by their exact instants. -/
theorem cmp_eq_instant (first second : Timestamp) : first.cmp second = compare first.instant second.instant := by
  rw [cmp_eq]
  rcases lt_trichotomy first.instant second.instant with earlier | same | later
  · rw [compare_lt_iff_lt.mpr earlier, Int.compare_eq_lt]
    exact nanos_lt_iff_instant.mpr earlier
  · have equal : first.nanos = second.nanos := by
      have both := nanos_instant first
      rw [same, ← nanos_instant] at both
      exact_mod_cast both
    rw [compare_eq_iff_eq.mpr same, Int.compare_eq_eq]
    exact equal
  · rw [compare_gt_iff_gt.mpr later, Int.compare_eq_gt]
    exact nanos_lt_iff_instant.mpr later

theorem same_iff_instant {first second : Timestamp} :
    first.cmp second = .eq ↔ first.instant = second.instant := by
  rw [cmp_eq_instant, compare_eq_iff_eq]

theorem le_iff_instant {first second : Timestamp} : first ≤ second ↔ first.instant ≤ second.instant := by
  rw [le_iff, ← not_lt, nanos_lt_iff_instant, not_lt]

/-- The numbers that a comparison computes fit its machine integers. -/
theorem secondsAndSubnanos_fits (timestamp : Timestamp) :
    (-2 ^ 127 ≤ timestamp.secondsAndSubnanos.1 ∧ timestamp.secondsAndSubnanos.1 < 2 ^ 127) ∧
      0 ≤ timestamp.secondsAndSubnanos.2 ∧ timestamp.secondsAndSubnanos.2 < 1000000000 :=
  ⟨⟨(KeyEnc.secondsI128 timestamp).low, (KeyEnc.secondsI128 timestamp).high⟩, (nanos_split timestamp).2⟩

end Instants

section Rounded

/-- The exact rounding of a number under a mode. -/
def RoundingMode.exact : RoundingMode → ℚ → Int
  | .up => Codes.RoundingMode.up.round
  | .down => Codes.RoundingMode.down.round
  | .ceiling => Codes.RoundingMode.ceiling.round
  | .floor => Codes.RoundingMode.floor.round
  | .halfUp => Codes.RoundingMode.halfUp.round
  | .halfDown => roundHalfDown
  | .halfEven => Codes.RoundingMode.halfEven.round

theorem RoundingMode.exact_mono (mode : RoundingMode) : Monotone mode.exact := by
  cases mode with
  | halfDown => exact roundHalfDown_mono
  | _ => exact Codes.RoundingMode.round_mono _

theorem RoundingMode.exact_intCast (mode : RoundingMode) (whole : Int) : mode.exact whole = whole := by
  cases mode with
  | halfDown => exact roundHalfDown_intCast whole
  | _ => exact Codes.RoundingMode.round_intCast _ whole

/-- The rounding of a magnitude that is some whole ratios and some digits below one more. -/
def roundSize (mode : RoundingMode) (negative : Bool) (whole digits half : Int) : Int :=
  if digits = 0 then whole
  else
    match mode with
    | .down => whole
    | .up => whole + 1
    | .floor => if negative then whole + 1 else whole
    | .ceiling => if negative then whole else whole + 1
    | .halfUp => if digits < half then whole else whole + 1
    | .halfDown => if digits ≤ half then whole else whole + 1
    | .halfEven => if digits < half ∨ digits = half ∧ whole % 2 = 0 then whole else whole + 1

theorem even_half (sign whole : Int) (unit : sign = 1 ∨ sign = -1) : (sign * whole).tmod 2 = 0 ↔ whole % 2 = 0 := by
  rw [← Int.dvd_iff_tmod_eq_zero, ← Int.dvd_iff_emod_eq_zero]
  rcases unit with rfl | rfl
  · rw [one_mul]
  · rw [neg_one_mul, Int.dvd_neg]

section Sizes

variable {half digits whole : Int} (low : 0 ≤ digits) (high : digits < 2 * half)

include low high

/-- The comparison of twice the digits with the ratio is that of the digits with its half. -/
theorem compare_half (sign : Int) (unit : sign = 1 ∨ sign = -1) :
    compare ((sign * digits).natAbs * 2) (2 * half).natAbs = compare digits half := by
  have size : (sign * digits).natAbs = digits.natAbs := by
    rcases unit with rfl | rfl <;> simp
  rw [size]
  rcases lt_trichotomy digits half with less | same | more
  · rw [Int.compare_eq_lt.mpr less, Nat.compare_eq_lt]
    omega
  · rw [Int.compare_eq_eq.mpr same, Nat.compare_eq_eq]
    omega
  · rw [Int.compare_eq_gt.mpr more, Nat.compare_eq_gt]
    omega

/-- A count of a sign rounds by its magnitude. -/
theorem roundDiv_size (mode : RoundingMode) {sign : Int} (unit : sign = 1 ∨ sign = -1) {count : Int}
    (split : count = sign * (whole * (2 * half) + digits)) (least : 0 ≤ whole) (most : whole < 2 ^ 127 - 1)
    (negative : count < 0 ↔ sign = -1) :
    roundDiv count (2 * half) mode = sign * roundSize mode (sign = -1) whole digits half := by
  have quotient : count.tdiv (2 * half) = sign * whole := by
    have plain : (whole * (2 * half) + digits).tdiv (2 * half) = whole := by
      have product := mul_nonneg least (by omega : 0 ≤ 2 * half)
      rw [Int.tdiv_eq_ediv_of_nonneg (by omega), Int.mul_add_ediv_right _ _ (by omega),
        Int.ediv_eq_zero_of_lt low high, add_zero]
    rcases unit with rfl | rfl
    · rw [split, one_mul, one_mul, plain]
    · rw [split, neg_one_mul, neg_one_mul, Int.neg_tdiv, plain]
  have remainder : count.tmod (2 * half) = sign * digits := by
    rw [Int.tmod_def, quotient, split]
    ring
  have zero : sign * digits = 0 ↔ digits = 0 := by
    rcases unit with rfl | rfl <;> simp
  have away : (saturate 128 (if count < 0 then count.tdiv (2 * half) - 1 else count.tdiv (2 * half) + 1)).val =
      sign * (whole + 1) := by
    rw [quotient]
    rcases unit with rfl | rfl
    · rw [if_neg (fun below => absurd (negative.mp below) (by decide))]
      simp only [saturate]
      omega
    · rw [if_pos (negative.mpr rfl)]
      simp only [saturate]
      omega
  rw [roundDiv, away, quotient, remainder, compare_half low high sign unit, roundSize.eq_def]
  simp only [zero, even_half sign whole unit, negative]
  by_cases none : digits = 0
  · simp [none]
  · rw [if_neg none, if_neg none]
    cases mode with
    | up => rfl
    | down => rfl
    | ceiling => by_cases below : sign = -1 <;> simp [below]
    | floor => by_cases below : sign = -1 <;> simp [below]
    | halfUp =>
      rcases lt_trichotomy digits half with less | same | more
      · simp [Int.compare_eq_lt.mpr less, less]
      · simp [same]
      · simp [Int.compare_eq_gt.mpr more, not_lt.mpr more.le]
    | halfDown =>
      rcases lt_trichotomy digits half with less | same | more
      · simp [Int.compare_eq_lt.mpr less, less.le]
      · simp [same]
      · simp [Int.compare_eq_gt.mpr more, more]
    | halfEven =>
      rcases lt_trichotomy digits half with less | same | more
      · simp [Int.compare_eq_lt.mpr less, less]
      · simp [same]
      · simp [Int.compare_eq_gt.mpr more, not_lt.mpr more.le, more.ne']

end Sizes

/-- The rounding of a magnitude is that of its exact number. -/
theorem exact_size (mode : RoundingMode) {half digits whole : Int} (low : 0 ≤ digits) (high : digits < 2 * half)
    {number : ℚ} (size : |number| = whole + digits / (2 * half : Int)) :
    mode.exact number = signOf number * roundSize mode (number < 0) whole digits half := by
  have position := fun toward : Toward => toward.round_position whole low high le_rfl one_pos
  simp only [add_zero, and_true, ← size] at position
  have down := ceil_position whole low high
  rw [← size] at down
  rw [roundSize.eq_def]
  cases mode with
  | up =>
    simp only [RoundingMode.exact, Codes.RoundingMode.round, Codes.RoundingMode.toward, position]
  | down =>
    simp only [RoundingMode.exact, Codes.RoundingMode.round, Codes.RoundingMode.toward, position, ite_self]
  | ceiling =>
    simp only [RoundingMode.exact, Codes.RoundingMode.round]
    cases decide (number < 0) <;> simp [Codes.RoundingMode.toward, position]
  | floor =>
    simp only [RoundingMode.exact, Codes.RoundingMode.round]
    cases decide (number < 0) <;> simp [Codes.RoundingMode.toward, position]
  | halfUp =>
    simp only [RoundingMode.exact, Codes.RoundingMode.round, Codes.RoundingMode.toward, position]
    grind
  | halfDown =>
    simp only [RoundingMode.exact, roundHalfDown, down]
    grind
  | halfEven =>
    simp only [RoundingMode.exact, Codes.RoundingMode.round, Codes.RoundingMode.toward, position]
    grind

/-- The integer division rounds the exact quotient. -/
theorem roundDiv_exact (mode : RoundingMode) {half : Int} (positive : 0 < half) (count : Signed 128) :
    roundDiv count.val (2 * half) mode = mode.exact (count.val / (2 * half : Int)) := by
  have low := count.low
  have high := count.high
  have ratio : (0 : Int) < 2 * half := by omega
  have base : (0 : ℚ) < (2 * half : Int) := by exact_mod_cast ratio
  have digitsLow := Int.emod_nonneg |count.val| ratio.ne'
  have digitsHigh := Int.emod_lt_of_pos |count.val| ratio
  have least : 0 ≤ |count.val| / (2 * half) := Int.ediv_nonneg (abs_nonneg _) ratio.le
  have division : |count.val| / (2 * half) * (2 * half) + |count.val| % (2 * half) = |count.val| :=
    Int.ediv_mul_add_emod _ _
  have most : |count.val| / (2 * half) < 2 ^ 127 - 1 := by
    rw [Int.ediv_lt_iff_lt_mul ratio]
    have bound : |count.val| ≤ 2 ^ 127 := abs_le.mpr ⟨low, high.le⟩
    nlinarith
  have size : |(count.val / (2 * half : Int) : ℚ)| =
      (|count.val| / (2 * half) : Int) + (|count.val| % (2 * half) : Int) / (2 * half : Int) := by
    rw [abs_div, abs_of_pos base, ← Int.cast_abs, div_eq_iff base.ne', add_mul, div_mul_cancel₀ _ base.ne']
    exact_mod_cast division.symm
  rw [exact_size mode digitsLow digitsHigh size]
  rcases signOf_cases (count.val / (2 * half : Int) : ℚ) with ⟨sign, below, -⟩ | ⟨sign, above, -⟩
  · have negative : count.val < 0 := by
      rw [div_neg_iff] at below
      rcases below with ⟨-, absurdly⟩ | ⟨less, -⟩
      · exact absurd absurdly (not_lt.mpr base.le)
      · exact_mod_cast less
    rw [roundDiv_size digitsLow digitsHigh mode (.inr rfl)
      (by rw [division, abs_of_neg negative]; ring) least most (by simpa using negative), sign,
      decide_eq_true below, decide_eq_true rfl]
  · have nonnegative : ¬ count.val < 0 := by
      intro less
      exact above (div_neg_of_neg_of_pos (by exact_mod_cast less) base)
    rw [roundDiv_size digitsLow digitsHigh mode (.inl rfl)
      (by rw [division, abs_of_nonneg (not_lt.mp nonnegative)]; ring) least most (by simpa using nonnegative), sign,
      decide_eq_false above]
    rfl

theorem saturate_of_fits {value : Int} (fits : -2 ^ 127 ≤ value ∧ value < 2 ^ 127) :
    (saturate 128 value).val = value := by
  simp only [saturate]
  omega

/-- The ratio of a precision to a coarser one is even. -/
theorem ratio_even {source target : Precision} (coarser : target.ticksPerSecond < source.ticksPerSecond) :
    ∃ half, 0 < half ∧ source.ticksPerSecond / target.ticksPerSecond = 2 * half ∧
      source.ticksPerSecond = 2 * half * target.ticksPerSecond := by
  refine ⟨source.ticksPerSecond / target.ticksPerSecond / 2, ?_⟩
  cases source <;> cases target <;> revert coarser <;> decide

/-- The ratio of a precision to a finer one is whole. -/
theorem ratio_whole {source target : Precision} (finer : source.ticksPerSecond ≤ target.ticksPerSecond) :
    target.ticksPerSecond = target.ticksPerSecond / source.ticksPerSecond * source.ticksPerSecond := by
  cases source <;> cases target <;> revert finer <;> decide

/-- A conversion saturates the exact rounding of the instant. -/
theorem toPrecision_count (timestamp : Timestamp) (target : Precision) (mode : RoundingMode) :
    (timestamp.toPrecision target mode).count =
      saturate 128 (mode.exact (timestamp.instant * target.ticksPerSecond)) := by
  obtain ⟨count, precision⟩ := timestamp
  have own : (precision.ticksPerSecond : ℚ) ≠ 0 := by exact_mod_cast (ticksPerSecond_pos precision).ne'
  simp only [toPrecision, instant]
  split
  next finer =>
    have scaled : (count.val : ℚ) / precision.ticksPerSecond * target.ticksPerSecond =
        (count.val * (target.ticksPerSecond / precision.ticksPerSecond) : Int) := by
      conv_lhs => rw [ratio_whole finer]
      push_cast
      rw [← mul_assoc, mul_right_comm, div_mul_cancel₀ _ own]
    rw [scaled, mode.exact_intCast]
  next coarser =>
    obtain ⟨half, positive, ratio, whole⟩ := ratio_even (not_le.mp coarser)
    have other : (target.ticksPerSecond : ℚ) ≠ 0 := by exact_mod_cast (ticksPerSecond_pos target).ne'
    have scaled : (count.val : ℚ) / precision.ticksPerSecond * target.ticksPerSecond =
        count.val / (2 * half : Int) := by
      rw [whole, Int.cast_mul, ← div_div, div_mul_cancel₀ _ other]
    rw [ratio, roundDiv_exact mode positive, scaled]

end Rounded

section Conversions

variable {timestamp : Timestamp} {target : Precision}

/-- The instant in ticks of a coarser precision fits a count. -/
theorem ticks_fit (coarser : target.ticksPerSecond ≤ timestamp.precision.ticksPerSecond) :
    ((-2 ^ 127 : Int) : ℚ) ≤ timestamp.instant * target.ticksPerSecond ∧
      timestamp.instant * target.ticksPerSecond ≤ (2 ^ 127 - 1 : Int) := by
  have own : (0 : ℚ) < timestamp.precision.ticksPerSecond := by exact_mod_cast ticksPerSecond_pos _
  have other : (0 : ℚ) < target.ticksPerSecond := by exact_mod_cast ticksPerSecond_pos target
  have ratio : (target.ticksPerSecond : ℚ) ≤ timestamp.precision.ticksPerSecond := by exact_mod_cast coarser
  have low : ((-2 ^ 127 : Int) : ℚ) ≤ timestamp.count.val := by exact_mod_cast timestamp.count.low
  have high : (timestamp.count.val : ℚ) ≤ (2 ^ 127 - 1 : Int) := by
    have below := timestamp.count.high
    have : timestamp.count.val ≤ 2 ^ 127 - 1 := by omega
    exact_mod_cast this
  push_cast at low high ⊢
  rw [instant, div_mul_eq_mul_div, le_div_iff₀ own, div_le_iff₀ own]
  constructor <;> nlinarith

/-- A conversion to a coarser precision is the exact rounding of the instant. -/
theorem toPrecision_coarser (mode : RoundingMode)
    (coarser : target.ticksPerSecond ≤ timestamp.precision.ticksPerSecond) :
    (timestamp.toPrecision target mode).count.val = mode.exact (timestamp.instant * target.ticksPerSecond) := by
  obtain ⟨low, high⟩ := ticks_fit coarser
  have least := mode.exact_mono low
  have most := mode.exact_mono high
  rw [mode.exact_intCast] at least most
  rw [toPrecision_count, saturate_of_fits ⟨least, by omega⟩]

/-- A conversion to a finer precision keeps the instant exactly when it does not saturate. -/
theorem toPrecision_finer (mode : RoundingMode)
    (finer : timestamp.precision.ticksPerSecond ≤ target.ticksPerSecond) :
    (timestamp.toPrecision target mode).instant = timestamp.instant ↔
      -2 ^ 127 ≤ timestamp.instant * target.ticksPerSecond ∧
        timestamp.instant * target.ticksPerSecond < 2 ^ 127 := by
  have own : (timestamp.precision.ticksPerSecond : ℚ) ≠ 0 := by exact_mod_cast (ticksPerSecond_pos _).ne'
  have other : (target.ticksPerSecond : ℚ) ≠ 0 := by exact_mod_cast (ticksPerSecond_pos target).ne'
  obtain ⟨whole, scaled⟩ : ∃ whole : Int, timestamp.instant * target.ticksPerSecond = whole := by
    refine ⟨timestamp.count.val * (target.ticksPerSecond / timestamp.precision.ticksPerSecond), ?_⟩
    conv_lhs => rw [ratio_whole finer]
    rw [instant]
    push_cast
    rw [← mul_assoc, mul_right_comm, div_mul_cancel₀ _ own]
  have kept : (timestamp.toPrecision target mode).instant = timestamp.instant ↔
      (saturate 128 whole).val = whole := by
    have count := toPrecision_count timestamp target mode
    rw [scaled, mode.exact_intCast] at count
    rw [instant, count, div_eq_iff (by exact other)]
    exact (Eq.congr_right scaled).trans Int.cast_inj
  rw [kept, scaled]
  have bounds : (-2 ^ 127 ≤ (whole : ℚ) ∧ (whole : ℚ) < 2 ^ 127) ↔ -2 ^ 127 ≤ whole ∧ whole < 2 ^ 127 := by
    norm_cast
  rw [bounds]
  constructor
  · intro same
    exact ⟨same ▸ (saturate 128 whole).low, same ▸ (saturate 128 whole).high⟩
  · exact saturate_of_fits

/-- A later instant has a later conversion. -/
theorem toPrecision_mono (target : Precision) (mode : RoundingMode) {first second : Timestamp}
    (ordered : first ≤ second) : first.toPrecision target mode ≤ second.toPrecision target mode := by
  have positive : (0 : ℚ) < target.ticksPerSecond := by exact_mod_cast ticksPerSecond_pos target
  have rounded := mode.exact_mono (mul_le_mul_of_nonneg_right (le_iff_instant.mp ordered) positive.le)
  have counts := saturate_mono rounded
  rw [← toPrecision_count, ← toPrecision_count] at counts
  rw [le_iff_instant]
  exact div_le_div_of_nonneg_right (by exact_mod_cast counts) positive.le

end Conversions

section Keys

/-- The key code of a timestamp. -/
theorem encodeValue_timestamp (first second : Timestamp) :
    compare (KeyEnc.encodeValue (.timestamp first)) (KeyEnc.encodeValue (.timestamp second)) = first.cmp second ∧
      (KeyEnc.encodeValue (.timestamp first) = KeyEnc.encodeValue (.timestamp second) ↔ first.cmp second = .eq) := by
  have legal : ∀ timestamp : Timestamp, KeyEnc.Legal (.timestamp timestamp) :=
    fun timestamp => KeyEnc.legal_of_leaf trivial trivial rfl
  have separated := KeyEnc.encodeValue_separates (legal first) (legal second)
  exact ⟨separated.compareEq, separated.eq_iff⟩

/-- Equal timestamps have one durable form. -/
theorem encode_timestamp_eq_iff (libraries : Wire.Libraries) (first second : Timestamp) :
    Pg.Codec.encode libraries (KeyEnc.canonicalKey (.timestamp first)) =
        Pg.Codec.encode libraries (KeyEnc.canonicalKey (.timestamp second)) ↔ first.cmp second = .eq := by
  rw [← KeyEnc.canonicalTimestamp_eq_iff]
  constructor
  · intro same
    have payload : Pg.Codec.encodeTimestamp (KeyEnc.canonicalTimestamp first) =
        Pg.Codec.encodeTimestamp (KeyEnc.canonicalTimestamp second) := by
      simpa [KeyEnc.canonicalKey, Pg.Codec.encode, Pg.Codec.tag] using same
    have decoded := Pg.Codec.decodeTimestamp_encodeTimestamp (KeyEnc.canonicalTimestamp first)
    rw [payload, Pg.Codec.decodeTimestamp_encodeTimestamp] at decoded
    exact (Except.ok.inj decoded).symm
  · intro same
    rw [KeyEnc.canonicalKey, KeyEnc.canonicalKey, same]

end Keys

/-- Timestamps compare as their exact instants, also by their key codes, and a conversion is the exact rounding of
the instant. -/
theorem exact_instants (libraries : Wire.Libraries) :
    (∀ timestamp : Timestamp,
      (-2 ^ 127 ≤ timestamp.secondsAndSubnanos.1 ∧ timestamp.secondsAndSubnanos.1 < 2 ^ 127) ∧
        0 ≤ timestamp.secondsAndSubnanos.2 ∧ timestamp.secondsAndSubnanos.2 < 1000000000) ∧
    (∀ first second : Timestamp,
      first.cmp second = compare first.instant second.instant ∧
        (first.Same second ↔ first.instant = second.instant) ∧
        compare (KeyEnc.encodeValue (.timestamp first)) (KeyEnc.encodeValue (.timestamp second)) =
          compare first.instant second.instant ∧
        (KeyEnc.encodeValue (.timestamp first) = KeyEnc.encodeValue (.timestamp second) ↔
          first.instant = second.instant) ∧
        (Pg.Codec.encode libraries (KeyEnc.canonicalKey (.timestamp first)) =
            Pg.Codec.encode libraries (KeyEnc.canonicalKey (.timestamp second)) ↔
          first.instant = second.instant)) ∧
    (∀ (timestamp : Timestamp) (target : Precision) (mode : RoundingMode),
      (timestamp.toPrecision target mode).precision = target ∧
        (target.ticksPerSecond ≤ timestamp.precision.ticksPerSecond →
          (timestamp.toPrecision target mode).count.val = mode.exact (timestamp.instant * target.ticksPerSecond)) ∧
        (timestamp.precision.ticksPerSecond ≤ target.ticksPerSecond →
          ((timestamp.toPrecision target mode).instant = timestamp.instant ↔
            -2 ^ 127 ≤ timestamp.instant * target.ticksPerSecond ∧
              timestamp.instant * target.ticksPerSecond < 2 ^ 127))) ∧
    ∀ (first second : Timestamp) (target : Precision) (mode : RoundingMode), first ≤ second →
      first.toPrecision target mode ≤ second.toPrecision target mode := by
  refine ⟨secondsAndSubnanos_fits, fun first second => ?_, fun timestamp target mode => ?_,
    fun _ _ target mode ordered => toPrecision_mono target mode ordered⟩
  · obtain ⟨order, identity⟩ := encodeValue_timestamp first second
    refine ⟨cmp_eq_instant first second, same_iff_instant, ?_, ?_, ?_⟩
    · rw [order, cmp_eq_instant]
    · rw [identity, same_iff_instant]
    · rw [encode_timestamp_eq_iff, same_iff_instant]
  · exact ⟨rfl, toPrecision_coarser mode, toPrecision_finer mode⟩

/-- Two and a half seconds before the epoch. -/
def halfBefore : Timestamp :=
  ⟨⟨-2500, by decide, by decide⟩, .millis⟩

/-- The instant before the epoch is rounded to its even second, and it keeps its order with the epoch. -/
theorem exact_instants_sample :
    (halfBefore.toPrecision .seconds .halfEven).count.val = RoundingMode.halfEven.exact (halfBefore.instant * (1 : Int)) ∧
      (halfBefore.toPrecision .nanos .up).instant = halfBefore.instant ∧
      halfBefore.toPrecision .seconds .halfEven ≤
        toPrecision ⟨⟨0, by decide, by decide⟩, .micros⟩ .seconds .halfEven := by
  have exact := exact_instants Wire.Sample.libraries
  refine ⟨(exact.2.2.1 halfBefore .seconds .halfEven).2.1 (by decide),
    ((exact.2.2.1 halfBefore .nanos .up).2.2 (by decide)).mpr ?_, exact.2.2.2 _ _ .seconds .halfEven (by decide)⟩
  norm_num [halfBefore, instant, Precision.ticksPerSecond]

end Liasse.Timestamp

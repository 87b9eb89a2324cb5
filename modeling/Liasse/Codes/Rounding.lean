/-
This file defines the rounding of a number at a decimal scale, and it tells when a number rounds as before after its
last digits were cut.
-/

import Mathlib

namespace Liasse.Codes

section Integers

/-- How a magnitude between two integers is rounded. -/
inductive Toward
  | down
  | up
  | half
  | even
deriving DecidableEq

namespace Toward

/-- The integer that a magnitude is rounded to. -/
def round (toward : Toward) (number : ℚ) : Int :=
  match toward with
  | .down => ⌊number⌋
  | .up => if Int.fract number = 0 then ⌊number⌋ else ⌊number⌋ + 1
  | .half => if Int.fract number < 1 / 2 then ⌊number⌋ else ⌊number⌋ + 1
  | .even =>
    if Int.fract number < 1 / 2 ∨ Int.fract number = 1 / 2 ∧ ⌊number⌋ % 2 = 0 then ⌊number⌋
    else ⌊number⌋ + 1

theorem round_intCast (toward : Toward) (whole : Int) : toward.round whole = whole := by
  have half : (0 : ℚ) < 1 / 2 := by norm_num
  cases toward with
  | down => exact Int.floor_intCast whole
  | up => rw [round, Int.fract_intCast, if_pos rfl, Int.floor_intCast]
  | half => rw [round, Int.fract_intCast, if_pos half, Int.floor_intCast]
  | even => rw [round, Int.fract_intCast, if_pos (.inl half), Int.floor_intCast]

/-- The digits of a count behind a base leave the rounding open: a change below them can move it. -/
def Tight (toward : Toward) (half count : Int) : Prop :=
  match toward with
  | .down => count % (2 * half) = 2 * half - 1
  | .up => count % (2 * half) = 0
  | .half => count % (2 * half) = half - 1
  | .even => count % (2 * half) = half - 1 ∧ count / (2 * half) % 2 = 1 ∨
      count % (2 * half) = half ∧ count / (2 * half) % 2 = 0

section Positions

variable {half digits : Int} {part : ℚ}

/-- The rounding of a number whose digits behind the integer are known up to a part of the last one. -/
theorem round_position (toward : Toward) (whole : Int) (low : 0 ≤ digits) (high : digits < 2 * half) (least : 0 ≤ part)
    (below : part < 1) : toward.round (whole + (digits + part) / (2 * half : Int)) =
      match toward with
      | .down => whole
      | .up => if digits = 0 ∧ part = 0 then whole else whole + 1
      | .half => if digits < half then whole else whole + 1
      | .even => if digits < half ∨ (digits = half ∧ part = 0) ∧ whole % 2 = 0 then whole else whole + 1 := by
  have positive : (0 : ℚ) < (2 * half : Int) := by
    have : (0 : Int) < 2 * half := by omega
    exact_mod_cast this
  have next : (digits : ℚ) + 1 ≤ (2 * half : Int) := by
    exact_mod_cast high
  have start : (0 : ℚ) ≤ digits := by exact_mod_cast low
  have fraction : (digits + part) / (2 * half : Int) < 1 := by
    rw [div_lt_one positive]
    linarith
  have nonnegative : 0 ≤ (digits + part) / (2 * half : Int) := by positivity
  have floor : ⌊(whole : ℚ) + (digits + part) / (2 * half : Int)⌋ = whole := by
    rw [Int.floor_intCast_add, Int.floor_eq_zero_iff.mpr ⟨nonnegative, fraction⟩, add_zero]
  have fract : Int.fract ((whole : ℚ) + (digits + part) / (2 * half : Int)) = (digits + part) / (2 * half : Int) := by
    rw [Int.fract_intCast_add, Int.fract_eq_self.mpr ⟨nonnegative, fraction⟩]
  have zero : (digits + part) / (2 * half : Int) = 0 ↔ digits = 0 ∧ part = 0 := by
    rw [div_eq_zero_iff, or_iff_left positive.ne']
    constructor
    · intro none
      have digit : (digits : ℚ) = 0 := by linarith
      exact ⟨by exact_mod_cast digit, by linarith⟩
    · rintro ⟨rfl, rfl⟩
      simp
  have cast : ((2 * half : Int) : ℚ) = 2 * half := by push_cast; ring
  have middle : (digits + part) / (2 * half : Int) < 1 / 2 ↔ digits < half := by
    rw [div_lt_iff₀ positive, cast]
    constructor
    · intro less
      have : (digits : ℚ) < half := by linarith
      exact_mod_cast this
    · intro less
      have : (digits : ℚ) + 1 ≤ half := by exact_mod_cast less
      linarith
  have tie : (digits + part) / (2 * half : Int) = 1 / 2 ↔ digits = half ∧ part = 0 := by
    rw [div_eq_iff positive.ne', cast]
    constructor
    · intro same
      have above : (digits : ℚ) ≤ half := by linarith
      have under : (half : ℚ) < digits + 1 := by linarith
      have here : digits = half := by
        have one : digits ≤ half := by exact_mod_cast above
        have two : half < digits + 1 := by exact_mod_cast under
        omega
      subst here
      exact ⟨rfl, by linarith⟩
    · rintro ⟨rfl, rfl⟩
      ring
  cases toward with
  | down => exact floor
  | up => simp only [round, floor, fract, zero]
  | half => simp only [round, floor, fract, middle]
  | even => simp only [round, floor, fract, middle, tie]

end Positions

/-- A number between two counts rounds as both of them exactly when the digits of the lower count do not leave the
rounding open. -/
theorem round_neighbours (toward : Toward) {half count : Int} {part : ℚ} (positive : 0 < half) (more : 0 < part)
    (below : part < 1) :
    (toward.round (count / (2 * half : Int)) = toward.round ((count + part) / (2 * half : Int)) ∧
        toward.round ((count + 1) / (2 * half : Int)) = toward.round ((count + part) / (2 * half : Int))) ↔
      ¬ toward.Tight half count := by
  have base : (0 : Int) < 2 * half := by omega
  have nonzero : ((2 * half : Int) : ℚ) ≠ 0 := by exact_mod_cast base.ne'
  have low := Int.emod_nonneg count base.ne'
  have high := Int.emod_lt_of_pos count base
  have split : (count : ℚ) = (count / (2 * half) : Int) * (2 * half : Int) + (count % (2 * half) : Int) := by
    have whole := Int.mul_ediv_add_emod count (2 * half)
    rw [mul_comm] at whole
    exact_mod_cast whole.symm
  have shifted : ∀ more : ℚ, ((count : ℚ) + more) / (2 * half : Int) =
      (count / (2 * half) : Int) + ((count % (2 * half) : Int) + more) / (2 * half : Int) := by
    intro more
    rw [split, add_assoc, add_div, mul_div_cancel_right₀ _ nonzero]
  have lower := shifted 0
  have middle := shifted part
  have upper := shifted 1
  rw [add_zero] at lower
  rw [lower, middle, round_position toward _ low high le_rfl one_pos, round_position toward _ low high more.le below]
  rw [upper]
  have inexact := more.ne'
  rw [Tight.eq_def]
  generalize count / (2 * half) = whole at *
  generalize count % (2 * half) = digits at *
  by_cases last : digits + 1 < 2 * half
  · have next := round_position toward whole (by omega : 0 ≤ digits + 1) last le_rfl one_pos
    push_cast at next
    rw [add_zero] at next
    push_cast
    rw [next]
    cases toward <;> simp only [inexact, and_false, and_true, false_and, or_false, if_false] <;> grind
  · obtain rfl : digits = 2 * half - 1 := by omega
    have next : (whole : ℚ) + ((2 * half - 1 : Int) + 1) / (2 * half : Int) = (whole + 1 : Int) := by
      push_cast
      push_cast at nonzero
      field_simp
      ring
    rw [next, round_intCast]
    cases toward <;> simp only [inexact, and_false, and_true, false_and, or_false, if_false] <;> grind

end Toward

end Integers

section Scales

/-- How a number is rounded. -/
inductive RoundingMode
  | up
  | down
  | ceiling
  | floor
  | halfUp
  | halfEven
deriving DecidableEq

/-- How the magnitude of a number of a sign is rounded. -/
def RoundingMode.toward : RoundingMode → Bool → Toward
  | .up, _ => .up
  | .down, _ => .down
  | .ceiling, false => .up
  | .ceiling, true => .down
  | .floor, false => .down
  | .floor, true => .up
  | .halfUp, _ => .half
  | .halfEven, _ => .even

/-- The sign of a number, where zero counts as positive. -/
def signOf (number : ℚ) : Int :=
  if number < 0 then -1 else 1

/-- The rounding of a number to an integer. -/
def RoundingMode.round (mode : RoundingMode) (number : ℚ) : Int :=
  signOf number * (mode.toward (number < 0)).round |number|

/-- The rounding of a number at a decimal scale. -/
def roundTo (mode : RoundingMode) (scale : Int) (number : ℚ) : ℚ :=
  mode.round (number * 10 ^ scale) * 10 ^ (-scale)

/-- The place of the last of some significant digits of a number. -/
def unit (digits : Nat) (number : ℚ) : ℚ :=
  10 ^ (Int.log 10 |number| + 1 - digits)

/-- A number is another one to some significant digits. -/
def Significant (digits : Nat) (exact given : ℚ) : Prop :=
  (∃ count : Int, given = count * unit digits exact) ∧ |given - exact| < unit digits exact

/-- The first significant digits of a number. -/
def leading (digits : Nat) (number : ℚ) : Int :=
  ⌊|number| / unit digits number⌋

/-- The number of significant digits behind a scale. -/
def spare (digits : Nat) (scale : Int) (number : ℚ) : Int :=
  digits - 1 - Int.log 10 |number| - scale

/-- The rounding of a number at a scale does not depend on what follows its first significant digits: there is
nothing, or the digits behind the scale are not at a place where the rounding turns. -/
def Settled (digits : Nat) (mode : RoundingMode) (scale : Int) (number : ℚ) : Prop :=
  (∃ count : Int, number = count * unit digits number) ∨
    0 < spare digits scale number ∧
      ¬ (mode.toward (number < 0)).Tight (5 * 10 ^ (spare digits scale number - 1).toNat) (leading digits number)

theorem signOf_cases (number : ℚ) :
    (signOf number = -1 ∧ number < 0 ∧ |number| = -number) ∨
      (signOf number = 1 ∧ ¬ number < 0 ∧ |number| = number) := by
  rw [signOf]
  by_cases negative : number < 0
  · exact .inl ⟨if_pos negative, negative, abs_of_neg negative⟩
  · exact .inr ⟨if_neg negative, negative, abs_of_nonneg (not_lt.mp negative)⟩

theorem signOf_mul_abs (number : ℚ) : (signOf number : ℚ) * |number| = number := by
  rcases signOf_cases number with ⟨sign, -, size⟩ | ⟨sign, -, size⟩
  · rw [sign, size]
    push_cast
    ring
  · rw [sign, size, Int.cast_one, one_mul]

theorem signOf_mul_signOf (number : ℚ) : (signOf number : ℚ) * signOf number = 1 := by
  rcases signOf_cases number with ⟨sign, -, -⟩ | ⟨sign, -, -⟩ <;> rw [sign] <;> norm_num

theorem abs_signOf (number : ℚ) : |(signOf number : ℚ)| = 1 := by
  rcases signOf_cases number with ⟨sign, -, -⟩ | ⟨sign, -, -⟩ <;> rw [sign] <;> norm_num

theorem ten_pos (exponent : Int) : (0 : ℚ) < 10 ^ exponent :=
  zpow_pos (by norm_num) exponent

theorem unit_pos (digits : Nat) (number : ℚ) : 0 < unit digits number :=
  ten_pos _

/-- A number of the sign of another one is rounded by its magnitude. -/
theorem roundTo_sign (mode : RoundingMode) (scale : Int) (number : ℚ) {size : ℚ} (positive : 0 < size) :
    roundTo mode scale (signOf number * size) =
      signOf number * (mode.toward (number < 0)).round (size * 10 ^ scale) * 10 ^ (-scale) := by
  have grown : 0 < size * 10 ^ scale := mul_pos positive (ten_pos scale)
  rw [roundTo, RoundingMode.round, mul_assoc]
  rcases signOf_cases number with ⟨sign, negative, -⟩ | ⟨sign, negative, -⟩
  · rw [sign]
    have below : ((-1 : Int) : ℚ) * (size * 10 ^ scale) < 0 := by
      push_cast
      linarith
    rw [signOf, if_pos below, abs_of_neg below, decide_eq_true below, decide_eq_true negative]
    push_cast
    rw [show -(-1 * (size * (10 : ℚ) ^ scale)) = size * 10 ^ scale by ring]
  · rw [sign]
    have above : ¬ ((1 : Int) : ℚ) * (size * 10 ^ scale) < 0 := by
      push_cast
      linarith
    rw [signOf, if_neg above, abs_of_nonneg (not_lt.mp above), decide_eq_false above, decide_eq_false negative]
    push_cast
    rw [one_mul, one_mul, one_mul]

/-- The numbers of one sign round alike exactly when their magnitudes do. -/
theorem roundTo_sign_eq_iff (mode : RoundingMode) (scale : Int) (number : ℚ) {first second : ℚ} (one : 0 < first)
    (two : 0 < second) :
    roundTo mode scale (signOf number * first) = roundTo mode scale (signOf number * second) ↔
      (mode.toward (number < 0)).round (first * 10 ^ scale) =
        (mode.toward (number < 0)).round (second * 10 ^ scale) := by
  have sign : (signOf number : ℚ) ≠ 0 := left_ne_zero_of_mul_eq_one (signOf_mul_signOf number)
  rw [roundTo_sign mode scale number one, roundTo_sign mode scale number two,
    mul_left_inj' (ten_pos _).ne', mul_right_inj' sign, Int.cast_inj]

/-- A number that a scale can hold is not rounded. -/
theorem roundTo_multiple (mode : RoundingMode) {scale : Int} {number : ℚ} {count : Int}
    (holds : number * 10 ^ scale = count) : roundTo mode scale number = number := by
  have back : number = count * 10 ^ (-scale) := by
    rw [← holds, mul_assoc, ← zpow_add₀ (by norm_num), add_neg_cancel, zpow_zero, mul_one]
  have whole : mode.round count = count := by
    rw [RoundingMode.round, ← Int.cast_abs, Toward.round_intCast]
    have sign := signOf_mul_abs (count : ℚ)
    rw [← Int.cast_abs] at sign
    exact_mod_cast sign
  rw [roundTo, holds, whole, ← back]

section Digits

variable {digits : Nat} {number : ℚ}

theorem quotient_split (digits : Nat) (number : ℚ) :
    |number| = (leading digits number + Int.fract (|number| / unit digits number)) * unit digits number := by
  rw [leading, Int.floor_add_fract, div_mul_cancel₀ _ (unit_pos digits number).ne']

/-- The first digit of a number other than zero is not zero. -/
theorem one_le_leading (some : 1 ≤ digits) (nonzero : number ≠ 0) : 1 ≤ leading digits number := by
  have least := Int.zpow_log_le_self (R := ℚ) (by norm_num : 1 < 10) (abs_pos.mpr nonzero)
  rw [leading, Int.le_floor, le_div_iff₀ (unit_pos digits number)]
  refine le_trans ?_ least
  rw [Int.cast_one, one_mul, unit]
  exact zpow_le_zpow_right₀ (by norm_num) (by omega)

/-- The numbers that agree with a number are its first digits, or one more unless nothing follows them. -/
theorem significant_iff {given : ℚ} : Significant digits number given ↔
    ∃ count : Int, given = signOf number * (count * unit digits number) ∧
      (count = leading digits number ∨
        count = leading digits number + 1 ∧ 0 < Int.fract (|number| / unit digits number)) := by
  have positive := unit_pos digits number
  have split := quotient_split digits number
  have low := Int.fract_nonneg (|number| / unit digits number)
  have high := Int.fract_lt_one (|number| / unit digits number)
  have own := signOf_mul_abs number
  have size := abs_signOf number
  have square := signOf_mul_signOf number
  rw [Significant]
  generalize Int.fract (|number| / unit digits number) = part at *
  generalize leading digits number = whole at *
  generalize unit digits number = last at *
  have distance : ∀ count : Int, |signOf number * (count * last) - number| < last ↔
      |(count : ℚ) - (whole + part)| < 1 := by
    intro count
    have factor : signOf number * (count * last) - number = signOf number * ((count - (whole + part)) * last) := by
      rw [split] at own
      linear_combination own
    rw [factor, abs_mul, size, one_mul, abs_mul, abs_of_pos positive, mul_lt_iff_lt_one_left positive]
  have near : ∀ count : Int, |(count : ℚ) - (whole + part)| < 1 ↔
      count = whole ∨ count = whole + 1 ∧ 0 < part := by
    intro count
    rw [abs_lt]
    constructor
    · rintro ⟨above, under⟩
      have one : whole ≤ count := by
        have more : (whole : ℚ) < count + 1 := by linarith
        have more : whole < count + 1 := by exact_mod_cast more
        omega
      have two : count ≤ whole + 1 := by
        have less : (count : ℚ) < whole + 2 := by linarith
        have less : count < whole + 2 := by exact_mod_cast less
        omega
      rcases (by omega : count = whole ∨ count = whole + 1) with same | same
      · exact .inl same
      · refine .inr ⟨same, ?_⟩
        rw [same] at under
        push_cast at under
        linarith
    · rintro (rfl | ⟨rfl, more⟩)
      · constructor <;> linarith
      · push_cast
        constructor <;> linarith
  constructor
  · rintro ⟨⟨count, rfl⟩, close⟩
    have turned : (count : ℚ) * last = signOf number * ((signOf number * count : Int) * last) := by
      push_cast
      linear_combination -(count * last) * square
    rw [turned, distance, near] at close
    exact ⟨signOf number * count, turned, close⟩
  · rintro ⟨count, rfl, close⟩
    refine ⟨⟨signOf number * count, ?_⟩, (distance count).mpr ((near count).mpr close)⟩
    push_cast
    ring

/-- A number is a multiple of its last significant digit exactly when nothing follows its first digits. -/
theorem multiple_iff : (∃ count : Int, number = count * unit digits number) ↔
    Int.fract (|number| / unit digits number) = 0 := by
  have positive := unit_pos digits number
  constructor
  · rintro ⟨count, same⟩
    have size : |number| / unit digits number = (|count| : Int) := by
      rw [div_eq_iff positive.ne']
      conv_lhs => rw [same]
      rw [abs_mul, abs_of_pos positive, Int.cast_abs]
    rw [size, Int.fract_intCast]
  · intro none
    have split := quotient_split digits number
    rw [none, add_zero] at split
    refine ⟨signOf number * leading digits number, ?_⟩
    conv_lhs => rw [← signOf_mul_abs number, split]
    push_cast
    ring

/-- The scale of a number leaves some of its significant digits behind. -/
theorem unit_scaled (digits : Nat) (number : ℚ) (scale : Int) :
    unit digits number * 10 ^ scale = 10 ^ (-spare digits scale number) := by
  rw [unit, ← zpow_add₀ (by norm_num), spare]
  congr 1
  omega

theorem half_power {places : Int} (some : 0 < places) :
    (10 : ℚ) ^ (-places) = 1 / (2 * (5 * 10 ^ (places - 1).toNat) : Int) := by
  have exponent : places = ((places - 1).toNat : Int) + 1 := by omega
  conv_lhs => rw [exponent, zpow_neg, zpow_add_one₀ (by norm_num), zpow_natCast]
  push_cast
  rw [one_div]
  congr 1
  ring

/-- Every number that agrees with a number rounds as it does exactly when its first digits do, and when one more
does unless nothing follows them. -/
theorem agreement_iff {mode : RoundingMode} {scale : Int} (some : 1 ≤ digits) (nonzero : number ≠ 0) :
    (∀ given, Significant digits number given → roundTo mode scale given = roundTo mode scale number) ↔
      ∀ count : Int, (count = leading digits number ∨
          count = leading digits number + 1 ∧ 0 < Int.fract (|number| / unit digits number)) →
        (mode.toward (number < 0)).round (count * 10 ^ (-spare digits scale number)) =
          (mode.toward (number < 0)).round
            ((leading digits number + Int.fract (|number| / unit digits number)) *
              10 ^ (-spare digits scale number)) := by
  have first := one_le_leading some nonzero
  have scaled := unit_scaled digits number scale
  have whole : (leading digits number + Int.fract (|number| / unit digits number)) *
      10 ^ (-spare digits scale number) = |number| * 10 ^ scale := by
    rw [← scaled, ← mul_assoc, ← quotient_split]
  have alike : ∀ count : Int, 1 ≤ count →
      (roundTo mode scale (signOf number * (count * unit digits number)) = roundTo mode scale number ↔
        (mode.toward (number < 0)).round (count * 10 ^ (-spare digits scale number)) =
          (mode.toward (number < 0)).round (|number| * 10 ^ scale)) := by
    intro count least
    have positive : (0 : ℚ) < count := by exact_mod_cast least
    have both := roundTo_sign_eq_iff mode scale number
      (mul_pos positive (unit_pos digits number)) (abs_pos.mpr nonzero)
    rwa [signOf_mul_abs, mul_assoc, scaled] at both
  rw [whole]
  constructor
  · intro agrees count near
    have least : 1 ≤ count := by
      rcases near with rfl | ⟨rfl, -⟩ <;> omega
    exact (alike count least).mp (agrees _ (significant_iff.mpr ⟨count, rfl, near⟩))
  · intro rounds given agrees
    obtain ⟨count, rfl, near⟩ := significant_iff.mp agrees
    have least : 1 ≤ count := by
      rcases near with rfl | ⟨rfl, -⟩ <;> omega
    exact (alike count least).mpr (rounds count near)

/-- Every number that agrees with a number to some digits rounds as it does exactly when the rounding is settled. -/
theorem settled_iff {mode : RoundingMode} {scale : Int} (some : 1 ≤ digits) (nonzero : number ≠ 0) :
    (∀ given, Significant digits number given → roundTo mode scale given = roundTo mode scale number) ↔
      Settled digits mode scale number := by
  have low := Int.fract_nonneg (|number| / unit digits number)
  have high := Int.fract_lt_one (|number| / unit digits number)
  rw [agreement_iff some nonzero, Settled, multiple_iff]
  generalize Int.fract (|number| / unit digits number) = part at *
  generalize leading digits number = whole at *
  generalize spare digits scale number = places at *
  generalize mode.toward (number < 0) = toward at *
  rcases low.eq_or_lt with none | more
  · refine iff_of_true (fun count near => ?_) (.inl none.symm)
    rcases near with rfl | ⟨-, absurdly⟩
    · rw [← none, add_zero]
    · exact absurd absurdly (none ▸ lt_irrefl _)
  · rw [or_iff_right more.ne']
    by_cases behind : 0 < places
    · rw [and_iff_right behind, ← Toward.round_neighbours toward (by positivity) more high, half_power behind]
      simp only [mul_one_div]
      constructor
      · intro rounds
        have upper := rounds (whole + 1) (.inr ⟨rfl, more⟩)
        rw [Int.cast_add, Int.cast_one] at upper
        exact ⟨rounds whole (.inl rfl), upper⟩
      · rintro ⟨lower, upper⟩ count (rfl | ⟨rfl, -⟩)
        · exact lower
        · rwa [Int.cast_add, Int.cast_one]
    · refine iff_of_false (fun rounds => ?_) fun settled => behind settled.1
      have lower := rounds whole (.inl rfl)
      have upper := rounds (whole + 1) (.inr ⟨rfl, more⟩)
      have integral : ∀ count : Int, (count : ℚ) * 10 ^ (-places) = (count * 10 ^ (-places).toNat : Int) := by
        intro count
        have exponent : -places = ((-places).toNat : Int) := by omega
        conv_lhs => rw [exponent, zpow_natCast]
        push_cast
        rfl
      rw [integral, Toward.round_intCast] at lower upper
      have same := lower.trans upper.symm
      have power : (0 : Int) < 10 ^ (-places).toNat := by positivity
      rw [add_mul] at same
      omega

/-- A number to some significant digits, rounded at the last one. -/
theorem significant_round (toward : Toward) (number : ℚ) : Significant digits number
    (signOf number * (toward.round (|number| / unit digits number) * unit digits number)) := by
  have low := Int.fract_nonneg (|number| / unit digits number)
  refine significant_iff.mpr ⟨_, rfl, ?_⟩
  rw [leading]
  cases toward with
  | down => exact .inl rfl
  | up =>
    rw [Toward.round]
    split
    · exact .inl rfl
    · next some => exact .inr ⟨rfl, low.lt_of_ne (Ne.symm some)⟩
  | half =>
    rw [Toward.round]
    split
    · exact .inl rfl
    · next half => exact .inr ⟨rfl, lt_of_lt_of_le (by norm_num) (not_lt.mp half)⟩
  | even =>
    rw [Toward.round]
    split
    · exact .inl rfl
    · next half => exact .inr ⟨rfl, lt_of_lt_of_le (by norm_num) (not_lt.mp fun less => half (.inl less))⟩

/-- Zero agrees with itself only. -/
theorem significant_zero {given : ℚ} (agrees : Significant digits 0 given) : given = 0 := by
  obtain ⟨count, rfl, near⟩ := significant_iff.mp agrees
  rw [leading, abs_zero, zero_div, Int.floor_zero, Int.fract_zero] at near
  rcases near with rfl | ⟨-, more⟩
  · rw [Int.cast_zero, zero_mul, mul_zero]
  · exact absurd more (lt_irrefl _)

/-- A number that agrees with another one has its exponent, or it is the next power. -/
theorem log_of_significant {given : ℚ} (some : 1 ≤ digits) (nonzero : number ≠ 0)
    (agrees : Significant digits number given) :
    given ≠ 0 ∧ (Int.log 10 |given| = Int.log 10 |number| ∨ |given| = 10 ^ (Int.log 10 |number| + 1)) := by
  obtain ⟨count, rfl, near⟩ := significant_iff.mp agrees
  have positive := unit_pos digits number
  have first := one_le_leading some nonzero
  have least : (1 : ℚ) ≤ count := by
    have : 1 ≤ count := by rcases near with rfl | ⟨rfl, -⟩ <;> omega
    exact_mod_cast this
  have size : |(signOf number : ℚ) * (count * unit digits number)| = count * unit digits number := by
    rw [abs_mul, abs_signOf, one_mul, abs_of_pos (by positivity)]
  rw [size]
  have power : (10 : ℚ) ^ (Int.log 10 |number| + 1) = (10 ^ digits : Int) * unit digits number := by
    rw [unit]
    push_cast
    rw [← zpow_natCast, ← zpow_add₀ (by norm_num)]
    congr 1
    omega
  have under : leading digits number < 10 ^ digits := by
    rw [leading, Int.floor_lt, div_lt_iff₀ positive, ← power]
    exact_mod_cast Int.lt_zpow_succ_log_self (by norm_num) |number|
  have above : (10 : ℚ) ^ Int.log 10 |number| ≤ count * unit digits number := by
    have start : (10 : ℚ) ^ Int.log 10 |number| = (10 ^ (digits - 1) : Int) * unit digits number := by
      rw [unit]
      push_cast
      rw [← zpow_natCast, ← zpow_add₀ (by norm_num)]
      congr 1
      omega
    have enough : (10 : Int) ^ (digits - 1) ≤ leading digits number := by
      rw [leading, Int.le_floor, le_div_iff₀ positive, ← start]
      exact_mod_cast Int.zpow_log_le_self (by norm_num) (abs_pos.mpr nonzero)
    rw [start]
    refine mul_le_mul_of_nonneg_right ?_ positive.le
    have : (10 : Int) ^ (digits - 1) ≤ count := by rcases near with rfl | ⟨rfl, -⟩ <;> omega
    exact_mod_cast this
  have apart : (signOf number : ℚ) * (count * unit digits number) ≠ 0 := by
    rw [← abs_pos, size]
    positivity
  refine ⟨apart, ?_⟩
  have most : count ≤ 10 ^ digits := by rcases near with rfl | ⟨rfl, -⟩ <;> omega
  rcases most.lt_or_eq with less | same
  · refine .inl (le_antisymm ?_ ?_)
    · rw [← Int.lt_add_one_iff, ← Int.lt_zpow_iff_log_lt (by norm_num) (by positivity)]
      push_cast
      rw [power]
      exact mul_lt_mul_of_pos_right (by exact_mod_cast less) positive
    · rw [← Int.zpow_le_iff_le_log (by norm_num) (by positivity)]
      exact_mod_cast above
  · exact .inr (by rw [same, power])

end Digits

end Scales

section Order

namespace Toward

/-- A number rounds to its floor or to the integer above it. -/
theorem round_near (toward : Toward) (number : ℚ) :
    ⌊number⌋ ≤ toward.round number ∧ toward.round number ≤ ⌊number⌋ + 1 := by
  cases toward with
  | down => simp [round]
  | up =>
    rw [round]
    split <;> omega
  | half =>
    rw [round]
    split <;> omega
  | even =>
    rw [round]
    split <;> omega

theorem round_mono (toward : Toward) : Monotone toward.round := by
  intro first second ordered
  rcases (Int.floor_mono ordered).lt_or_eq with apart | same
  · exact (toward.round_near first).2.trans (Int.add_one_le_of_lt apart |>.trans (toward.round_near second).1)
  · -- The numbers have one floor, so the fractions decide.
    have fractions : Int.fract first ≤ Int.fract second := by
      rw [Int.fract, Int.fract, same]
      exact sub_le_sub_right ordered _
    have low := Int.fract_nonneg first
    cases toward with
    | down => exact same.le
    | up =>
      rw [round, round, same]
      split
      next => split <;> omega
      next some =>
        rw [if_neg]
        intro none
        exact some (le_antisymm (none ▸ fractions) low)
    | half =>
      rw [round, round, same]
      split
      next => split <;> omega
      next high => rw [if_neg fun less => high (fractions.trans_lt less)]
    | even =>
      rw [round, round, same]
      split
      next => split <;> omega
      next high =>
        rw [if_neg]
        rintro (less | ⟨tie, even⟩)
        · exact high (.inl (fractions.trans_lt less))
        · rcases fractions.lt_or_eq with less | equal
          · exact high (.inl (less.trans_eq tie))
          · exact high (.inr ⟨equal.trans tie, even⟩)

theorem round_nonneg (toward : Toward) {number : ℚ} (nonnegative : 0 ≤ number) : 0 ≤ toward.round number := by
  have least := toward.round_mono nonnegative
  rwa [← Int.cast_zero, toward.round_intCast] at least

end Toward

/-- A rounding of the magnitudes of each sign keeps the order of the numbers. -/
theorem signed_mono (rounds : Bool → ℚ → Int) (monotone : ∀ negative, Monotone (rounds negative))
    (nonnegative : ∀ negative number, 0 ≤ number → 0 ≤ rounds negative number) :
    Monotone fun number : ℚ => signOf number * rounds (number < 0) |number| := by
  intro first second ordered
  have low := nonnegative (decide (first < 0)) |first| (abs_nonneg first)
  have high := nonnegative (decide (second < 0)) |second| (abs_nonneg second)
  rcases signOf_cases first with ⟨sign, below, size⟩ | ⟨sign, above, size⟩
  · rcases signOf_cases second with ⟨other, under, extent⟩ | ⟨other, beyond, extent⟩
    · simp only [sign, other, size, extent, decide_eq_true below, decide_eq_true under]
      have turned := monotone true (neg_le_neg ordered)
      omega
    · simp only [sign, other]
      omega
  · rcases signOf_cases second with ⟨-, under, -⟩ | ⟨other, beyond, extent⟩
    · exact absurd (ordered.trans_lt under) above
    · simp only [sign, other, size, extent, decide_eq_false above, decide_eq_false beyond]
      have kept := monotone false ordered
      omega

theorem RoundingMode.round_mono (mode : RoundingMode) : Monotone mode.round :=
  signed_mono _ (fun negative => (mode.toward negative).round_mono)
    fun negative _ => (mode.toward negative).round_nonneg

theorem RoundingMode.round_intCast (mode : RoundingMode) (whole : Int) : mode.round whole = whole := by
  have sign := signOf_mul_abs (whole : ℚ)
  rw [← Int.cast_abs] at sign
  rw [RoundingMode.round, ← Int.cast_abs, Toward.round_intCast]
  exact_mod_cast sign

end Order

section Halves

/-- The rounding to the nearest integer, where a half goes to zero. -/
def roundHalfDown (number : ℚ) : Int :=
  signOf number * ⌈|number| - 1 / 2⌉

theorem roundHalfDown_mono : Monotone roundHalfDown := by
  refine signed_mono (fun _ number => ⌈number - 1 / 2⌉) (fun _ first second ordered => ?_)
    fun _ number nonnegative => ?_
  · exact Int.ceil_mono (sub_le_sub_right ordered _)
  · refine Int.le_ceil_iff.mpr ?_
    push_cast
    linarith

theorem roundHalfDown_intCast (whole : Int) : roundHalfDown whole = whole := by
  have up : ⌈((|whole| : Int) : ℚ) - 1 / 2⌉ = |whole| := by
    rw [Int.ceil_eq_iff]
    constructor <;> linarith
  have sign := signOf_mul_abs (whole : ℚ)
  rw [← Int.cast_abs] at sign
  rw [roundHalfDown, ← Int.cast_abs, up]
  exact_mod_cast sign

/-- The rounding of a number with some digits behind the integer, where a half goes down. -/
theorem ceil_position {half digits : Int} (whole : Int) (low : 0 ≤ digits) (high : digits < 2 * half) :
    ⌈(whole : ℚ) + digits / (2 * half : Int) - 1 / 2⌉ = if digits ≤ half then whole else whole + 1 := by
  have positive : (0 : ℚ) < (2 * half : Int) := by
    have : (0 : Int) < 2 * half := by omega
    exact_mod_cast this
  have cast : ((2 * half : Int) : ℚ) = 2 * half := by push_cast; ring
  have start : (0 : ℚ) ≤ digits := by exact_mod_cast low
  have nonnegative : 0 ≤ (digits : ℚ) / (2 * half : Int) := by positivity
  have below : (digits : ℚ) / (2 * half : Int) < 1 := by
    rw [div_lt_one positive]
    exact_mod_cast high
  rw [Int.ceil_eq_iff]
  split
  next small =>
    have near : (digits : ℚ) / (2 * half : Int) ≤ 1 / 2 := by
      rw [div_le_iff₀ positive, cast]
      have : (digits : ℚ) ≤ half := by exact_mod_cast small
      linarith
    constructor <;> linarith
  next large =>
    have far : 1 / 2 < (digits : ℚ) / (2 * half : Int) := by
      rw [lt_div_iff₀ positive, cast]
      have : (half : ℚ) < digits := by exact_mod_cast not_le.mp large
      linarith
    rw [Int.cast_add, Int.cast_one]
    constructor <;> linarith

end Halves

end Liasse.Codes

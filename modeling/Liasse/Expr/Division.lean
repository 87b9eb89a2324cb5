/-
This file models the division of decimals. The library gives a quotient of a hundred significant digits, and it is
rounded a second time at the scale of the package.
-/

import Liasse.Codes.Rounding
import Liasse.Expr.Operators
import Liasse.KeyEnc.Decimal

namespace Liasse

open Codes

namespace BigDecimal

/-- The number of digits of the mantissa. -/
def digits (value : BigDecimal) : Int :=
  Nat.log 10 value.mantissa.natAbs + 1

/-- A decimal at another scale. -/
def withScaleRound (value : BigDecimal) (scale : Int) (mode : RoundingMode) : BigDecimal :=
  ⟨mode.round (value.toRat * 10 ^ scale), scale⟩

theorem toRat_withScaleRound (value : BigDecimal) (scale : Int) (mode : RoundingMode) :
    (value.withScaleRound scale mode).toRat = roundTo mode scale value.toRat :=
  rfl

theorem toRat_eq_zero {value : BigDecimal} : value.toRat = 0 ↔ value.mantissa = 0 := by
  rw [toRat, mul_eq_zero, or_iff_left (ten_pos _).ne', Int.cast_eq_zero]

end BigDecimal

namespace Expr

section Quotients

/-- The significant fractional digits of a quotient. -/
def significantFractionalDigits : Int :=
  16

/-- The greatest scale of a decimal. -/
def maxScaleMagnitude : Int :=
  16383

/-- The mode that rounds a quotient. -/
def DivisionRounding.mode : DivisionRounding → RoundingMode
  | .halfAwayFromZero => .halfUp
  | .halfEven => .halfEven
  | .towardZero => .down
  | .awayFromZero => .up
  | .floor => .floor
  | .ceiling => .ceiling

/-- The place of the most significant digit. -/
def decimalExponent (value : BigDecimal) : Int :=
  value.digits - 1 - value.scale

/-- The scale of a quotient exposes its significant fractional digits. -/
def divisionScale (raw : BigDecimal) : Int :=
  let scale :=
    if raw.mantissa = 0 then significantFractionalDigits
    else max significantFractionalDigits (significantFractionalDigits - 1 - decimalExponent raw)
  min scale maxScaleMagnitude

variable (quotient : BigDecimal → BigDecimal → BigDecimal)

/-- The quotient of the library at its scale. -/
def roundedQuotient (rounding : DivisionRounding) (first second : BigDecimal) : BigDecimal :=
  let raw := quotient first second
  (raw.withScaleRound (divisionScale raw) rounding.mode).normalized

/-- The quotient of two decimals. -/
def divide (first second : BigDecimal) (rounding : DivisionRounding) : Except EvalError BigDecimal :=
  if second.mantissa = 0 then .error .divisionByZero
  else .ok (roundedQuotient quotient rounding first second)

/-- The library of an evaluator with the quotient of the decimals. -/
def Library.withQuotient (lib : Library) : Library :=
  { lib with divide := roundedQuotient quotient }

/-- The library gives a quotient to a hundred significant digits. -/
def Documented : Prop :=
  ∀ first second : BigDecimal, second.mantissa ≠ 0 →
    Significant 100 (first.toRat / second.toRat) (quotient first second).toRat

end Quotients

section Exact

/-- The scale of a number exposes its significant fractional digits. -/
def quotientScale (number : ℚ) : Int :=
  min (max 16 (15 - Int.log 10 |number|)) 16383

/-- A number that is rounded once. -/
def dividedOnce (rounding : DivisionRounding) (number : ℚ) : ℚ :=
  roundTo rounding.mode (quotientScale number) number

theorem decimalExponent_eq {value : BigDecimal} (nonzero : value.mantissa ≠ 0) :
    decimalExponent value = Int.log 10 |value.toRat| := by
  have size : |value.toRat| = (value.mantissa.natAbs : ℚ) * 10 ^ (-value.scale) := by
    rw [BigDecimal.toRat, abs_mul, abs_of_pos (ten_pos _), Nat.cast_natAbs, Int.cast_abs]
  have some : value.mantissa.natAbs ≠ 0 := Int.natAbs_ne_zero.mpr nonzero
  have positive : (0 : ℚ) < |value.toRat| := abs_pos.mpr (BigDecimal.toRat_eq_zero.not.mpr nonzero)
  rw [decimalExponent, BigDecimal.digits, add_sub_cancel_right]
  refine le_antisymm ?_ ?_
  · rw [← Int.zpow_le_iff_le_log (by norm_num) positive, size, sub_eq_add_neg]
    push_cast
    rw [zpow_add₀ (by norm_num), zpow_natCast]
    refine mul_le_mul_of_nonneg_right ?_ (ten_pos _).le
    exact_mod_cast Nat.pow_log_le_self 10 some
  · rw [← Int.lt_add_one_iff, ← Int.lt_zpow_iff_log_lt (by norm_num) positive, size]
    have exponent : (Nat.log 10 value.mantissa.natAbs : Int) - value.scale + 1 =
        ((Nat.log 10 value.mantissa.natAbs + 1 : Nat) : Int) + -value.scale := by
      push_cast
      ring
    push_cast at exponent ⊢
    rw [exponent, zpow_add₀ (by norm_num)]
    refine mul_lt_mul_of_pos_right ?_ (ten_pos _)
    exact_mod_cast Nat.lt_pow_succ_log_self (by norm_num) value.mantissa.natAbs

theorem divisionScale_eq (raw : BigDecimal) : divisionScale raw = quotientScale raw.toRat := by
  rw [divisionScale, quotientScale]
  by_cases zero : raw.mantissa = 0
  · rw [BigDecimal.toRat_eq_zero.mpr zero, if_pos zero, abs_zero, Int.log_zero_right]
    rfl
  · rw [if_neg zero, decimalExponent_eq zero]
    rfl

/-- A quotient of the library is rounded at the scale of the exact quotient. -/
theorem toRat_roundedQuotient {quotient : BigDecimal → BigDecimal → BigDecimal} {rounding : DivisionRounding}
    {first second : BigDecimal} {number : ℚ} (agrees : Significant 100 number (quotient first second).toRat) :
    (roundedQuotient quotient rounding first second).toRat =
      roundTo rounding.mode (quotientScale number) (quotient first second).toRat := by
  rw [roundedQuotient, KeyEnc.normalized_toRat, BigDecimal.toRat_withScaleRound, divisionScale_eq]
  generalize (quotient first second).toRat = given at *
  by_cases zero : number = 0
  · subst zero
    rw [significant_zero agrees]
  · obtain ⟨-, same | power⟩ := log_of_significant (by norm_num) zero agrees
    · rw [quotientScale, quotientScale, same]
    · -- The next power of ten may have a lower scale, which still holds it.
      have log : Int.log 10 |given| = Int.log 10 |number| + 1 := by
        rw [power]
        exact_mod_cast Int.log_zpow (R := ℚ) (by norm_num : 1 < 10) (Int.log 10 |number| + 1)
      have holds : ∀ scale : Int, 0 ≤ Int.log 10 |number| + 1 + scale →
          roundTo rounding.mode scale given = given := by
        intro scale enough
        refine roundTo_multiple _ (?_ : _ = ((signOf given * 10 ^ (Int.log 10 |number| + 1 + scale).toNat : Int) : ℚ))
        have exponent : ((Int.log 10 |number| + 1 + scale).toNat : Int) = Int.log 10 |number| + 1 + scale := by omega
        conv_lhs => rw [← signOf_mul_abs given, power, mul_assoc, ← zpow_add₀ (by norm_num), ← exponent, zpow_natCast]
        push_cast
        rfl
      by_cases kept : quotientScale given = quotientScale number
      · rw [kept]
      · rw [quotientScale, quotientScale, log] at kept
        rw [holds _ (by rw [quotientScale, log]; omega), holds _ (by rw [quotientScale]; omega)]

/-- A quotient whose rounding does not depend on the digits after the hundredth. -/
def SettledQuotient (rounding : DivisionRounding) (number : ℚ) : Prop :=
  Settled 100 rounding.mode (quotientScale number) number

/-- The quotient of two decimals is rounded once, whatever the library does behind a hundred digits. -/
def RoundsOnce (rounding : DivisionRounding) (first second : BigDecimal) : Prop :=
  ∀ quotient, Documented quotient →
    (roundedQuotient quotient rounding first second).toRat = dividedOnce rounding (first.toRat / second.toRat)

/-- A library that rounds its hundredth digit. -/
def nearestQuotient (first second : BigDecimal) : BigDecimal :=
  let number := first.toRat / second.toRat
  ⟨signOf number * Toward.half.round (|number| / unit 100 number), 99 - Int.log 10 |number|⟩

theorem toRat_of_unit (count : Int) (number : ℚ) :
    (⟨count, 99 - Int.log 10 |number|⟩ : BigDecimal).toRat = count * unit 100 number := by
  rw [BigDecimal.toRat, unit]
  congr 2
  push_cast
  omega

theorem nearestQuotient_documented : Documented nearestQuotient := by
  intro first second _
  rw [nearestQuotient, toRat_of_unit]
  push_cast
  rw [mul_assoc]
  exact significant_round .half _

/-- A quotient is rounded once exactly when it is settled. -/
theorem roundsOnce_iff {rounding : DivisionRounding} {first second : BigDecimal} (nonzero : second.mantissa ≠ 0) :
    RoundsOnce rounding first second ↔ SettledQuotient rounding (first.toRat / second.toRat) := by
  by_cases zero : first.toRat / second.toRat = 0
  · refine iff_of_true (fun quotient documented => ?_) (.inl ⟨0, by rw [zero, Int.cast_zero, zero_mul]⟩)
    have agrees := documented first second nonzero
    rw [toRat_roundedQuotient agrees, dividedOnce]
    rw [zero] at agrees ⊢
    rw [significant_zero agrees]
  · rw [SettledQuotient, ← settled_iff (by norm_num) zero]
    constructor
    · intro once given agrees
      obtain ⟨count, rfl⟩ := agrees.1
      -- The library gives this quotient here, and a documented one elsewhere.
      let quotient : BigDecimal → BigDecimal → BigDecimal := fun left right =>
        if left = first ∧ right = second then ⟨count, 99 - Int.log 10 |first.toRat / second.toRat|⟩
        else nearestQuotient left right
      have here : (quotient first second).toRat = count * unit 100 (first.toRat / second.toRat) := by
        rw [← toRat_of_unit, show quotient first second = _ from if_pos ⟨rfl, rfl⟩]
      have documented : Documented quotient := by
        intro left right other
        by_cases same : left = first ∧ right = second
        · obtain ⟨rfl, rfl⟩ := same
          rwa [here]
        · rw [show quotient left right = nearestQuotient left right from if_neg same]
          exact nearestQuotient_documented left right other
      have rounded := once quotient documented
      rwa [toRat_roundedQuotient (documented first second nonzero), here] at rounded
    · intro agreement quotient documented
      have agrees := documented first second nonzero
      rw [toRat_roundedQuotient agrees, agreement _ agrees, dividedOnce]

end Exact

section Averages

theorem toRat_aligned (first second : BigDecimal) :
    ((BigDecimal.aligned first second).1 : ℚ) * 10 ^ (-(BigDecimal.aligned first second).2.2) = first.toRat ∧
      ((BigDecimal.aligned first second).2.1 : ℚ) * 10 ^ (-(BigDecimal.aligned first second).2.2) = second.toRat := by
  have each : ∀ (value : BigDecimal) (other : Int), ((value.mantissa * 10 ^ (other - value.scale).toNat : Int) : ℚ) *
      10 ^ (-max value.scale other) = value.toRat := by
    intro value other
    rw [BigDecimal.toRat]
    push_cast
    rw [mul_assoc, ← zpow_natCast, ← zpow_add₀ (by norm_num)]
    congr 2
    omega
  refine ⟨each first second.scale, ?_⟩
  have same := each second first.scale
  rwa [max_comm] at same

theorem toRat_add (first second : BigDecimal) : (first.add second).toRat = first.toRat + second.toRat := by
  obtain ⟨left, right⟩ := toRat_aligned first second
  rw [BigDecimal.add, BigDecimal.toRat]
  push_cast
  rw [add_mul, left, right]

/-- A sum of decimals is the sum of their numbers. -/
theorem toRat_foldl_add (decimals : List BigDecimal) (start : BigDecimal) :
    (decimals.foldl BigDecimal.add start).toRat = start.toRat + (decimals.map BigDecimal.toRat).sum := by
  induction decimals generalizing start with
  | nil => rw [List.foldl_nil, List.map_nil, List.sum_nil, add_zero]
  | cons first rest ih =>
    rw [List.foldl_cons, ih, toRat_add, List.map_cons, List.sum_cons, add_assoc]

/-- The exact mean of some values. -/
def mean (values : List Value) : ℚ :=
  (values.map fun value => (toDecimal value).toRat).sum / values.length

/-- The average of some values in any order is their mean rounded once. -/
def AveragesOnce (rounding : DivisionRounding) (values : List Value) : Prop :=
  ∀ (lib : Library) (quotient : BigDecimal → BigDecimal → BigDecimal), Documented quotient →
    ∀ permuted, permuted.Perm values →
      ∃ result, average (lib.withQuotient quotient) permuted rounding = .decimal result ∧
        result.toRat = dividedOnce rounding (mean values)

/-- The sum of some values, as the average computes it. -/
def total (values : List Value) : BigDecimal :=
  (values.map toDecimal).foldl BigDecimal.add ⟨0, 0⟩

theorem average_eq {lib : Library} {values : List Value} (some : values ≠ []) (rounding : DivisionRounding) :
    average lib values rounding = .decimal (lib.divide rounding (total values) ⟨values.length, 0⟩) := by
  rw [average, if_neg (by rwa [List.isEmpty_iff])]
  rfl

theorem mean_eq (values : List Value) :
    (total values).toRat / (⟨values.length, 0⟩ : BigDecimal).toRat = mean values := by
  rw [total, toRat_foldl_add, List.map_map, mean, BigDecimal.toRat, BigDecimal.toRat, Int.cast_zero, zero_mul,
    zero_add, neg_zero, zpow_zero, mul_one, Int.cast_natCast]
  rfl

theorem mean_congr {first second : List Value} (permuted : first.Perm second) : mean first = mean second := by
  rw [mean, mean, permuted.length_eq, (permuted.map fun value => (toDecimal value).toRat).sum_eq]

/-- An average is rounded once exactly when the mean is settled. -/
theorem averagesOnce_iff {rounding : DivisionRounding} {values : List Value} (some : values ≠ []) :
    AveragesOnce rounding values ↔ SettledQuotient rounding (mean values) := by
  have count : ∀ {members : List Value}, members ≠ [] → (⟨members.length, 0⟩ : BigDecimal).mantissa ≠ 0 := by
    intro members some none
    exact some (List.length_eq_zero_iff.mp (Int.natCast_eq_zero.mp none))
  constructor
  · intro once
    rw [← mean_eq values, ← roundsOnce_iff (count some)]
    intro quotient documented
    let lib : Library := ⟨id, id, id, id, fun _ => none, fun _ first _ => first⟩
    obtain ⟨result, averaged, same⟩ := once lib quotient documented values (.refl values)
    rw [average_eq some] at averaged
    obtain rfl := Value.decimal.inj averaged
    rwa [mean_eq values]
  · intro settled lib quotient documented permuted same
    have other : permuted ≠ [] := fun none => some (List.nil_perm.mp (none ▸ same))
    refine ⟨_, average_eq other rounding, ?_⟩
    rw [← mean_congr same, ← mean_eq permuted] at settled ⊢
    exact (roundsOnce_iff (count other)).mpr settled quotient documented

end Averages

section Remainders

/-- The whole part of a number. -/
def truncated (number : ℚ) : Int :=
  RoundingMode.down.round number

theorem truncated_neg (number : ℚ) : truncated (-number) = -truncated number := by
  rw [truncated, truncated, RoundingMode.round, RoundingMode.round, RoundingMode.toward, RoundingMode.toward, abs_neg,
    ← neg_mul]
  by_cases zero : number = 0
  · rw [zero, abs_zero]
    rfl
  · congr 1
    rcases signOf_cases number with ⟨sign, negative, -⟩ | ⟨sign, negative, -⟩
    · rw [sign, signOf, if_neg (by linarith)]
      rfl
    · rw [sign, signOf, if_pos (neg_neg_of_pos (lt_of_le_of_ne (not_lt.mp negative) (Ne.symm zero)))]

theorem truncated_natCast_div (left right : Nat) :
    truncated (((left : Int) : ℚ) / ((right : Int) : ℚ)) = (left : Int).tdiv right := by
  have positive : (0 : ℚ) ≤ ((left : Int) : ℚ) / ((right : Int) : ℚ) := by positivity
  rw [truncated, RoundingMode.round, signOf, if_neg (not_lt.mpr positive), one_mul, abs_of_nonneg positive,
    RoundingMode.toward, Toward.round, Int.cast_natCast right, Rat.floor_intCast_div_natCast]
  exact (Int.tdiv_eq_ediv_of_nonneg (Int.natCast_nonneg left)).symm

/-- The truncated quotient of two integers is their integer quotient. -/
theorem truncated_div (left right : Int) : truncated (left / right) = left.tdiv right := by
  have sizes := truncated_natCast_div left.natAbs right.natAbs
  rcases Int.natAbs_eq left with one | one <;> rcases Int.natAbs_eq right with two | two
  · rwa [← one, ← two] at sizes
  · rw [one, two, Int.cast_neg, div_neg, truncated_neg, Int.tdiv_neg, sizes]
  · rw [one, two, Int.cast_neg, neg_div, truncated_neg, Int.neg_tdiv, sizes]
  · rw [one, two, Int.cast_neg, Int.cast_neg, neg_div_neg_eq, Int.neg_tdiv, Int.tdiv_neg, neg_neg, sizes]

/-- The remainder is what the truncated quotient leaves, and its magnitude is below that of the divisor. -/
theorem toRat_rem {first second : BigDecimal} (nonzero : second.mantissa ≠ 0) :
    first.toRat = truncated (first.toRat / second.toRat) * second.toRat + (first.rem second).toRat ∧
      |(first.rem second).toRat| < |second.toRat| := by
  obtain ⟨left, right⟩ := toRat_aligned first second
  have apart : second.toRat ≠ 0 := BigDecimal.toRat_eq_zero.not.mpr nonzero
  rw [BigDecimal.rem]
  generalize BigDecimal.aligned first second = triple at *
  obtain ⟨dividend, divisor, scale⟩ := triple
  dsimp only at left right ⊢
  have power : (10 : ℚ) ^ (-scale) ≠ 0 := (ten_pos _).ne'
  have ratio : first.toRat / second.toRat = dividend / divisor := by
    rw [← left, ← right, mul_div_mul_right _ _ power]
  have some : divisor ≠ 0 := by
    rintro rfl
    rw [Int.cast_zero, zero_mul] at right
    exact apart right.symm
  have rest : (⟨dividend.tmod divisor, scale⟩ : BigDecimal).toRat = dividend.tmod divisor * 10 ^ (-scale) := rfl
  rw [ratio, truncated_div, rest, ← left, ← right, ← mul_assoc, ← add_mul, abs_mul, abs_mul]
  constructor
  · congr 1
    have whole := Int.mul_tdiv_add_tmod dividend divisor
    rw [mul_comm] at whole
    exact_mod_cast whole.symm
  · refine mul_lt_mul_of_pos_right ?_ (abs_pos.mpr power)
    have less : (dividend.tmod divisor).natAbs < divisor.natAbs := by
      rw [Int.natAbs_tmod]
      exact Nat.mod_lt _ (Int.natAbs_pos.mpr some)
    rw [← Int.cast_abs, ← Int.cast_abs, Int.abs_eq_natAbs, Int.abs_eq_natAbs]
    exact_mod_cast less

end Remainders

section Divisions

/-- A quotient and an average are rounded once, and a remainder is exact. -/
structure DivisionUpheld (rounding : DivisionRounding) (first second : BigDecimal) (values : List Value) : Prop where
  divides : second.mantissa ≠ 0 → ∀ quotient, Documented quotient →
    ∃ result, divide quotient first second rounding = .ok result ∧
      result.toRat = dividedOnce rounding (first.toRat / second.toRat)
  averages : values ≠ [] → AveragesOnce rounding values
  remains : second.mantissa ≠ 0 → ∀ lib,
    ∃ result, decimalArith lib .rem (.decimal first) (.decimal second) rounding = .ok (.decimal result) ∧
      first.toRat = truncated (first.toRat / second.toRat) * second.toRat + result.toRat ∧
      |result.toRat| < |second.toRat|

theorem divides_iff {rounding : DivisionRounding} {first second : BigDecimal} (nonzero : second.mantissa ≠ 0) :
    (∀ quotient, Documented quotient → ∃ result, divide quotient first second rounding = .ok result ∧
        result.toRat = dividedOnce rounding (first.toRat / second.toRat)) ↔
      SettledQuotient rounding (first.toRat / second.toRat) := by
  rw [← roundsOnce_iff nonzero, RoundsOnce]
  refine forall_congr' fun quotient => imp_congr_right fun _ => ?_
  rw [divide, if_neg nonzero]
  constructor
  · rintro ⟨result, done, same⟩
    obtain rfl := Except.ok.inj done
    exact same
  · exact fun same => ⟨_, rfl, same⟩

theorem decimalArith_rem (lib : Library) {first second : BigDecimal} (rounding : DivisionRounding)
    (nonzero : second.mantissa ≠ 0) :
    decimalArith lib .rem (.decimal first) (.decimal second) rounding = .ok (.decimal (first.rem second).normalized) := by
  show (if second.mantissa = 0 then _ else _) = _
  rw [if_neg nonzero]
  rfl

/-- Decimals are divided and averaged with one rounding exactly when their quotients are settled. -/
theorem division_iff (rounding : DivisionRounding) (first second : BigDecimal) (values : List Value) :
    DivisionUpheld rounding first second values ↔
      (second.mantissa ≠ 0 → SettledQuotient rounding (first.toRat / second.toRat)) ∧
        (values ≠ [] → SettledQuotient rounding (mean values)) := by
  constructor
  · intro upheld
    exact ⟨fun nonzero => (divides_iff nonzero).mp (upheld.divides nonzero),
      fun some => (averagesOnce_iff some).mp (upheld.averages some)⟩
  · rintro ⟨quotient, average⟩
    refine ⟨fun nonzero => (divides_iff nonzero).mpr (quotient nonzero),
      fun some => (averagesOnce_iff some).mpr (average some), fun nonzero lib => ?_⟩
    refine ⟨_, decimalArith_rem lib rounding nonzero, ?_⟩
    rw [KeyEnc.normalized_toRat]
    exact toRat_rem nonzero

/-- A hundred integer digits leave no digit of the library behind the point. -/
theorem large_quotient_loses :
    ¬ ∀ (rounding : DivisionRounding) (first second : BigDecimal) (values : List Value),
      DivisionUpheld rounding first second values := by
  intro upheld
  have nonzero : (⟨3, 0⟩ : BigDecimal).mantissa ≠ 0 := by decide
  have settled := (divides_iff nonzero).mp ((upheld .halfAwayFromZero ⟨1, -100⟩ ⟨3, 0⟩ []).divides nonzero)
  have number : (⟨1, -100⟩ : BigDecimal).toRat / (⟨3, 0⟩ : BigDecimal).toRat = 10 ^ 100 / 3 := by
    norm_num [BigDecimal.toRat]
  rw [number] at settled
  have positive : (0 : ℚ) < 10 ^ 100 / 3 := by norm_num
  have size : |(10 ^ 100 / 3 : ℚ)| = 10 ^ 100 / 3 := abs_of_pos positive
  have log : Int.log 10 |(10 ^ 100 / 3 : ℚ)| = 99 := by
    rw [size]
    refine le_antisymm ?_ ?_
    · rw [← Int.lt_add_one_iff, ← Int.lt_zpow_iff_log_lt (by norm_num) positive]
      norm_num
    · rw [← Int.zpow_le_iff_le_log (by norm_num) positive]
      norm_num
  rcases settled with ⟨count, whole⟩ | ⟨behind, -⟩
  · rw [unit, log, div_eq_iff (by norm_num)] at whole
    norm_num at whole
    have whole : (10 ^ 100 : Int) = count * 3 := by exact_mod_cast whole
    omega
  · rw [spare, log, quotientScale, log] at behind
    norm_num at behind

end Divisions

end Expr

end Liasse

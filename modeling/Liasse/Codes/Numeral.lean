/-
This file gives the codes of numbers: numerals of a fixed width, magnitudes with a length, signed
codes, and the fractions that digit lists denote.
-/

import Liasse.Codes.Separation
import Mathlib

namespace Liasse.Codes

/-- Two pairs have one order when the order of the first pair decides the order of the second pair. -/
theorem compareTransfer {α γ : Type*} [LinearOrder α] [LinearOrder γ] {x y : α} {u v : γ}
    (lower : x < y → u < v) (higher : y < x → v < u) (same : x = y → u = v) :
    compare u v = compare x y := by
  rcases lt_trichotomy x y with less | equal | greater
  · rw [compare_lt_iff_lt.mpr less, compare_lt_iff_lt.mpr (lower less)]
  · rw [compare_eq_iff_eq.mpr equal, compare_eq_iff_eq.mpr (same equal)]
  · rw [compare_gt_iff_gt.mpr greater, compare_gt_iff_gt.mpr (higher greater)]

/-- A lower leading part decides an order that it dominates. -/
theorem compareThenTransfer {α γ δ : Type*} [LinearOrder α] [LinearOrder γ] [LinearOrder δ]
    {x y : α} {u v : γ} {f g : δ} (lower : x < y → u < v) (higher : y < x → v < u)
    (same : x = y → compare u v = compare f g) :
    compare u v = (compare x y).then (compare f g) := by
  rcases lt_trichotomy x y with less | equal | greater
  · rw [compare_lt_iff_lt.mpr less, compare_lt_iff_lt.mpr (lower less), Ordering.lt_then]
  · rw [compare_eq_iff_eq.mpr equal, same equal, Ordering.eq_then]
  · rw [compare_gt_iff_gt.mpr greater, compare_gt_iff_gt.mpr (higher greater), Ordering.gt_then]

section Numerals

variable {β : Type*} [Ord β] (digit : Nat → β) (base : Nat)

/-- The numeral of a number with a fixed count of digits and the most significant digit first. -/
def bigEndian : Nat → Nat → List β
  | 0, _ => []
  | width + 1, number => bigEndian width (number / base) ++ [digit (number % base)]

/-- The digits of a number with the most significant digit first and no leading zero. -/
def magnitude (number : Nat) : List β :=
  (Nat.digits base number).reverse.map digit

omit [Ord β] in
@[simp] theorem bigEndian_length (width number : Nat) :
    (bigEndian digit base width number).length = width := by
  induction width generalizing number with
  | zero => rfl
  | succ width ih => rw [bigEndian, List.length_append, ih, List.length_singleton]

omit [Ord β] in
@[simp] theorem magnitude_length (number : Nat) :
    (magnitude digit base number).length = (Nat.digits base number).length := by
  rw [magnitude, List.length_map, List.length_reverse]

omit [Ord β] in
/-- The magnitude of a positive number ends with its last digit. -/
theorem magnitude_of_pos (large : 1 < base) {number : Nat} (positive : 0 < number) :
    magnitude digit base number =
      magnitude digit base (number / base) ++ [digit (number % base)] := by
  rw [magnitude, Nat.digits_def' large positive, List.reverse_cons, List.map_append]
  rfl

omit [Ord β] in
/-- The magnitude is the numeral of its own length. -/
theorem magnitude_eq_bigEndian (large : 1 < base) (number : Nat) :
    magnitude digit base number =
      bigEndian digit base (Nat.digits base number).length number := by
  induction number using Nat.strong_induction_on with
  | _ number ih =>
    rcases Nat.eq_zero_or_pos number with rfl | positive
    · rw [Nat.digits_zero]
      simp [magnitude, bigEndian]
    · have smaller : number / base < number := Nat.div_lt_self positive large
      rw [magnitude_of_pos digit base large positive, ih _ smaller,
        Nat.digits_def' large positive, List.length_cons, bigEndian]

omit [Ord β] in
/-- A numeral without its leading zeros is the magnitude. -/
theorem bigEndian_dropZeros [DecidableEq β] (large : 1 < base)
    (zeroOnly : ∀ number < base, digit number = digit 0 → number = 0)
    {width number : Nat} (bounded : number < base ^ width) :
    (bigEndian digit base width number).dropWhile (· == digit 0) = magnitude digit base number := by
  induction width generalizing number with
  | zero =>
    obtain rfl : number = 0 := by simpa using bounded
    simp [bigEndian, magnitude]
  | succ width ih =>
    have quotientBounded : number / base < base ^ width :=
      Nat.div_lt_of_lt_mul (by rwa [pow_succ'] at bounded)
    have rest := ih quotientBounded
    rcases Nat.eq_zero_or_pos number with rfl | positive
    · rw [bigEndian, List.dropWhile_append, rest]
      simp [magnitude]
    · rw [bigEndian, magnitude_of_pos digit base large positive, List.dropWhile_append, rest]
      rcases Nat.eq_zero_or_pos (number / base) with small | quotientPositive
      · have kept : digit (number % base) ≠ digit 0 := by
          intro same
          have remainder := zeroOnly _ (Nat.mod_lt _ (by omega)) same
          have whole := Nat.div_add_mod number base
          rw [small, remainder, Nat.mul_zero] at whole
          omega
        simp [small, magnitude, kept]
      · rw [magnitude_of_pos digit base large quotientPositive]
        simp

variable [Std.LawfulEqOrd β]
  (monotone : ∀ first < base, ∀ second < base,
    compare (digit first) (digit second) = compare first second)
include monotone

/-- Numerals of one width separate with the numeric order. -/
theorem bigEndian_separates {width first second : Nat} (firstBounded : first < base ^ width)
    (secondBounded : second < base ^ width) :
    Separates (bigEndian digit base width first) (bigEndian digit base width second)
      (compare first second) := by
  induction width generalizing first second with
  | zero =>
    obtain rfl : first = 0 := by simpa using firstBounded
    obtain rfl : second = 0 := by simpa using secondBounded
    exact .nil
  | succ width ih =>
    have basePositive : 0 < base := by
      rcases Nat.eq_zero_or_pos base with rfl | positive
      · simp at firstBounded
      · exact positive
    have order : compare first second =
        (compare (first / base) (second / base)).then
          (compare (first % base) (second % base)) := by
      have firstWhole := Nat.div_add_mod first base
      have secondWhole := Nat.div_add_mod second base
      have firstRemainder := Nat.mod_lt first basePositive
      have secondRemainder := Nat.mod_lt second basePositive
      apply compareThenTransfer
      · exact fun lower => Nat.lt_of_div_lt_div lower
      · exact fun higher => Nat.lt_of_div_lt_div higher
      · intro same
        rw [same] at firstWhole
        apply compareTransfer <;> omega
    rw [order, bigEndian, bigEndian]
    apply Separates.append
    · apply ih
      · exact Nat.div_lt_of_lt_mul (by rwa [pow_succ'] at firstBounded)
      · exact Nat.div_lt_of_lt_mul (by rwa [pow_succ'] at secondBounded)
    · rw [← monotone _ (Nat.mod_lt _ basePositive) _ (Nat.mod_lt _ basePositive)]
      exact .singleton _ _

omit [Std.LawfulEqOrd β] in
/-- Digit lists have the lexicographic order of the numbers that their letters stand for. -/
theorem compareDigits {left right : List Nat} (leftBelow : ∀ number ∈ left, number < base)
    (rightBelow : ∀ number ∈ right, number < base) :
    compare (left.map digit) (right.map digit) = compare left right := by
  induction left generalizing right with
  | nil => cases right <;> rfl
  | cons first left ih =>
    cases right with
    | nil => rfl
    | cons second right =>
      rw [List.map_cons, List.map_cons, List.compare_cons_cons, List.compare_cons_cons,
        monotone first (leftBelow first List.mem_cons_self) second
          (rightBelow second List.mem_cons_self)]
      congr 1
      apply ih
      · exact fun number inside => leftBelow number (List.mem_cons_of_mem _ inside)
      · exact fun number inside => rightBelow number (List.mem_cons_of_mem _ inside)

/-- Magnitudes that follow their lengths separate with the numeric order. -/
theorem lengthPrefixed_separates (large : 1 < base) (width : Nat) {first second : Nat}
    (firstBounded : (Nat.digits base first).length < base ^ width)
    (secondBounded : (Nat.digits base second).length < base ^ width) :
    Separates
      (bigEndian digit base width (Nat.digits base first).length ++ magnitude digit base first)
      (bigEndian digit base width (Nat.digits base second).length ++ magnitude digit base second)
      (compare first second) := by
  have order : compare first second =
      (compare (Nat.digits base first).length (Nat.digits base second).length).then
        (compare first second) := by
    apply compareThenTransfer
    · intro shorter
      by_contra above
      exact absurd (Nat.le_length_digits_le base second first (Nat.le_of_not_lt above))
        (Nat.not_le_of_lt shorter)
    · intro longer
      by_contra above
      exact absurd (Nat.le_length_digits_le base first second (Nat.le_of_not_lt above))
        (Nat.not_le_of_lt longer)
    · exact fun _ => rfl
  rw [order]
  apply Separates.appendOfEq (bigEndian_separates digit base monotone firstBounded secondBounded)
  intro sameLength
  have lengths := Nat.compare_eq_eq.mp sameLength
  rw [magnitude_eq_bigEndian digit base large first, magnitude_eq_bigEndian digit base large second,
    lengths]
  apply bigEndian_separates digit base monotone
  · rw [← lengths]
    exact Nat.lt_base_pow_length_digits large
  · exact Nat.lt_base_pow_length_digits large

end Numerals

section Signs

variable {β : Type*} [Ord β] (negative zero positive : β) (complement : β → β)

/-- A code that starts with a sign letter. The body of a negative code is complemented and the zero
code has no body. -/
def signed : SignType → List β → List β
  | .neg, body => negative :: body.map complement
  | .zero, _ => [zero]
  | .pos, body => positive :: body

/-- Signed codes separate by sign. With one sign the bodies decide, and negative bodies decide the
other way round. -/
theorem signed_separates [Std.OrientedOrd β] (lowest : compare negative zero = .lt)
    (middle : compare zero positive = .lt) (span : compare negative positive = .lt)
    (antitone : ∀ first second,
      compare (complement first) (complement second) = (compare first second).swap)
    {first second : SignType} {left right : List β} {order : Ordering}
    (bySign : first ≠ second → order = compare first second)
    (bothZero : first = .zero → second = .zero → order = .eq)
    (bothPositive : first = .pos → second = .pos → Separates left right order)
    (bothNegative : first = .neg → second = .neg → Separates left right order.swap) :
    Separates (signed negative zero positive complement first left)
      (signed negative zero positive complement second right) order := by
  have strict : first ≠ second → order ≠ .eq := by
    intro different
    rw [bySign different]
    exact fun same => different (compare_eq_iff_eq.mp same)
  cases first with
  | zero =>
    cases second with
    | zero =>
      rw [bothZero rfl rfl]
      exact .refl _
    | pos => exact .ofHead (middle.trans (bySign nofun).symm) (strict nofun) _ _
    | neg =>
      have higher := Std.OrientedCmp.gt_of_lt lowest
      exact .ofHead (higher.trans (bySign nofun).symm) (strict nofun) _ _
  | pos =>
    cases second with
    | zero =>
      have higher := Std.OrientedCmp.gt_of_lt middle
      exact .ofHead (higher.trans (bySign nofun).symm) (strict nofun) _ _
    | pos => exact .cons _ (bothPositive rfl rfl)
    | neg =>
      have higher := Std.OrientedCmp.gt_of_lt span
      exact .ofHead (higher.trans (bySign nofun).symm) (strict nofun) _ _
  | neg =>
    cases second with
    | zero => exact .ofHead (lowest.trans (bySign nofun).symm) (strict nofun) _ _
    | pos => exact .ofHead (span.trans (bySign nofun).symm) (strict nofun) _ _
    | neg =>
      have body := (bothNegative rfl rfl).mapAntitone antitone
      rw [Ordering.swap_swap] at body
      exact .cons _ body

end Signs

section Fractions

variable (base : Nat)

/-- The number that a digit list denotes after the point. -/
def fraction : List Nat → ℚ
  | [] => 0
  | digit :: rest => (digit + fraction rest) / base

variable {base} (large : 1 < base)
include large

/-- A fraction with digits below the base lies between zero and one. -/
theorem fraction_bounds {digits : List Nat} (below : ∀ digit ∈ digits, digit < base) :
    0 ≤ fraction base digits ∧ fraction base digits < 1 := by
  induction digits with
  | nil => exact ⟨le_refl _, by simp [fraction]⟩
  | cons digit rest ih =>
    have basePositive : (0 : ℚ) < base := by exact_mod_cast (by omega : 0 < base)
    have bounds := ih fun other member => below other (List.mem_cons_of_mem _ member)
    have digitBelow : (digit : ℚ) + 1 ≤ base := by
      exact_mod_cast below digit List.mem_cons_self
    constructor
    · exact div_nonneg (add_nonneg (Nat.cast_nonneg _) bounds.1) basePositive.le
    · rw [fraction, div_lt_one basePositive]
      linarith [bounds.2]

/-- A digit list with a digit that is not zero denotes a positive fraction. -/
theorem fraction_pos {digits : List Nat} (below : ∀ digit ∈ digits, digit < base)
    {digit : Nat} (member : digit ∈ digits) (nonzero : digit ≠ 0) : 0 < fraction base digits := by
  have basePositive : (0 : ℚ) < base := by exact_mod_cast (by omega : 0 < base)
  induction digits with
  | nil => cases member
  | cons first rest ih =>
    have restBelow : ∀ other ∈ rest, other < base :=
      fun other inside => below other (List.mem_cons_of_mem _ inside)
    apply div_pos _ basePositive
    rcases List.mem_cons.mp member with rfl | inside
    · have digitPositive : (0 : ℚ) < digit := by exact_mod_cast Nat.pos_of_ne_zero nonzero
      linarith [(fraction_bounds large restBelow).1]
    · have restPositive := ih restBelow inside
      have firstNonneg : (0 : ℚ) ≤ first := Nat.cast_nonneg _
      linarith

/-- Digit lists that end with no zero have the lexicographic order of the fractions they denote. -/
theorem compareFractions {left right : List Nat} (leftBelow : ∀ digit ∈ left, digit < base)
    (rightBelow : ∀ digit ∈ right, digit < base)
    (leftLast : ∀ last ∈ left.getLast?, last ≠ 0) (rightLast : ∀ last ∈ right.getLast?, last ≠ 0) :
    compare left right = compare (fraction base left) (fraction base right) := by
  have basePositive : (0 : ℚ) < base := by exact_mod_cast (by omega : 0 < base)
  have positive : ∀ {digit : Nat} {rest : List Nat},
      (∀ other ∈ digit :: rest, other < base) → (∀ last ∈ (digit :: rest).getLast?, last ≠ 0) →
      0 < fraction base (digit :: rest) := by
    intro digit rest below last
    have known := List.getLast?_eq_some_getLast (List.cons_ne_nil digit rest)
    exact fraction_pos large below (List.mem_of_getLast? known) (last _ known)
  induction left generalizing right with
  | nil =>
    cases right with
    | nil => exact (compare_eq_iff_eq.mpr rfl).symm
    | cons second right =>
      exact (compare_lt_iff_lt.mpr (positive rightBelow rightLast)).symm
  | cons first left ih =>
    cases right with
    | nil => exact (compare_gt_iff_gt.mpr (positive leftBelow leftLast)).symm
    | cons second right =>
      have leftRest : ∀ other ∈ left, other < base :=
        fun other inside => leftBelow other (List.mem_cons_of_mem _ inside)
      have rightRest : ∀ other ∈ right, other < base :=
        fun other inside => rightBelow other (List.mem_cons_of_mem _ inside)
      have step := ih leftRest rightRest
        (fun last known => leftLast last (by simp_all [List.getLast?_cons]))
        (fun last known => rightLast last (by simp_all [List.getLast?_cons]))
      have leftBounds := fraction_bounds large leftRest
      have rightBounds := fraction_bounds large rightRest
      rw [List.compare_cons_cons, step]
      symm
      apply compareThenTransfer
      · intro lower
        have gap : (first : ℚ) + 1 ≤ second := by exact_mod_cast lower
        apply div_lt_div_of_pos_right _ basePositive
        linarith [leftBounds.2, rightBounds.1]
      · intro higher
        have gap : (second : ℚ) + 1 ≤ first := by exact_mod_cast higher
        apply div_lt_div_of_pos_right _ basePositive
        linarith [rightBounds.2, leftBounds.1]
      · rintro rfl
        apply compareTransfer
        · intro lower
          apply div_lt_div_of_pos_right _ basePositive
          linarith
        · intro higher
          apply div_lt_div_of_pos_right _ basePositive
          linarith
        · intro same
          rw [fraction, fraction, same]

omit large in
/-- Trailing zeros do not change a fraction. -/
theorem fraction_appendZeros (digits zeros : List Nat) (allZero : ∀ digit ∈ zeros, digit = 0) :
    fraction base (digits ++ zeros) = fraction base digits := by
  induction digits with
  | nil =>
    rw [List.nil_append]
    induction zeros with
    | nil => rfl
    | cons first rest ih =>
      have zeroRest := ih fun digit member => allZero digit (List.mem_cons_of_mem _ member)
      simp [fraction, zeroRest, allZero first List.mem_cons_self]
  | cons digit digits ih => rw [List.cons_append, fraction, fraction, ih]

/-- A numeral is its fraction scaled by the count of its digits. -/
theorem fraction_append_singleton (digits : List Nat) (last : Nat) :
    fraction base (digits ++ [last]) =
      fraction base digits + last / (base : ℚ) ^ (digits.length + 1) := by
  have baseNonzero : (base : ℚ) ≠ 0 := by exact_mod_cast (by omega : base ≠ 0)
  induction digits with
  | nil => simp [fraction]
  | cons digit digits ih =>
    rw [List.cons_append, fraction, ih, fraction, List.length_cons, pow_succ _ (digits.length + 1)]
    field_simp
    ring

/-- The digits of a number denote the number divided by the power of its length. -/
theorem fraction_digits (number : Nat) :
    fraction base (Nat.digits base number).reverse * (base : ℚ) ^ (Nat.digits base number).length =
      number := by
  have baseNonzero : (base : ℚ) ≠ 0 := by exact_mod_cast (by omega : base ≠ 0)
  induction number using Nat.strong_induction_on with
  | _ number ih =>
    rcases Nat.eq_zero_or_pos number with rfl | positive
    · simp [fraction]
    · have smaller := ih _ (Nat.div_lt_self positive large)
      rw [Nat.digits_def' large positive, List.reverse_cons, fraction_append_singleton large,
        List.length_cons, List.length_reverse, add_mul, div_mul_cancel₀ _ (pow_ne_zero _ baseNonzero),
        pow_succ, ← mul_assoc, smaller]
      have whole := Nat.div_add_mod number base
      exact_mod_cast (by rw [Nat.mul_comm]; exact whole)

/-- The order of scaled fractions is the order of the exponents, then the order of the fractions, when
the first digit after the point is not zero. -/
theorem compareScaled {first second : ℤ} {left right : ℚ} (leftLow : 1 / base ≤ left)
    (leftHigh : left < 1) (rightLow : 1 / base ≤ right) (rightHigh : right < 1) :
    compare (left * (base : ℚ) ^ first) (right * (base : ℚ) ^ second) =
      (compare first second).then (compare left right) := by
  have baseAbove : (1 : ℚ) < base := by exact_mod_cast large
  have basePositive : (0 : ℚ) < base := by linarith
  have strict : ∀ {low high : ℤ} {small big : ℚ}, low < high → small < 1 → 1 / base ≤ big →
      small * (base : ℚ) ^ low < big * (base : ℚ) ^ high := by
    intro low high small big below smallHigh bigLow
    calc
      small * (base : ℚ) ^ low < 1 * (base : ℚ) ^ low :=
        mul_lt_mul_of_pos_right smallHigh (zpow_pos basePositive low)
      _ = 1 / base * (base : ℚ) ^ (low + 1) := by
        rw [zpow_add₀ basePositive.ne', zpow_one]
        field_simp
      _ ≤ 1 / base * (base : ℚ) ^ high :=
        mul_le_mul_of_nonneg_left (zpow_le_zpow_right₀ baseAbove.le below)
          (div_pos one_pos basePositive).le
      _ ≤ big * (base : ℚ) ^ high :=
        mul_le_mul_of_nonneg_right bigLow (zpow_pos basePositive high).le
  apply compareThenTransfer
  · exact fun below => strict below leftHigh rightLow
  · exact fun above => strict above rightHigh leftLow
  · rintro rfl
    apply compareTransfer
    · exact fun lower => mul_lt_mul_of_pos_right lower (zpow_pos basePositive first)
    · exact fun higher => mul_lt_mul_of_pos_right higher (zpow_pos basePositive first)
    · exact fun same => by rw [same]

end Fractions

end Liasse.Codes

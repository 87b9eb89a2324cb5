/-
This file models the numeric primitives of the order-preserving key codec. Their bytes have the order of the numbers, and
the bytes of a decimal do not depend on its scale.
-/

import Liasse.Value.Basic

namespace Liasse.KeyEnc

open Codes

def signNeg : UInt8 := 0

def signZero : UInt8 := 1

def signPos : UInt8 := 2

/-- The bitwise inversion of all bytes. -/
def inverted (body : List UInt8) : List UInt8 :=
  body.map (~~~ ·)

/-- The big-endian bytes of a number in a fixed width. -/
def toBeBytes (width number : Nat) : List UInt8 :=
  bigEndian UInt8.ofNat 256 width number

/-- The big-endian bytes of an unbounded number. Zero has one byte. -/
def toBytesBe (number : Nat) : List UInt8 :=
  if number = 0 then [0] else magnitude UInt8.ofNat 256 number

/-- The length in four bytes, then the magnitude. A length that does not fit is cut to the maximum. -/
def writeLenMag (bytes : List UInt8) : List UInt8 :=
  toBeBytes 4 (min bytes.length (2 ^ 32 - 1)) ++ bytes

/-- The sign class of a number with its body. Zero has no body and a negative body is inverted. -/
def signClass (number : Int) (body : List UInt8) : List UInt8 :=
  if number = 0 then [signZero]
  else if 0 < number then signPos :: body
  else signNeg :: inverted body

def writeInt (value : Int) : List UInt8 :=
  signClass value (writeLenMag (toBytesBe value.natAbs))

/-- The bytes of a 64-bit magnitude without its leading zero bytes. -/
def minimalBe (value : Nat) : List UInt8 :=
  (toBeBytes 8 value).dropWhile (· == 0)

def writeSignedI64 (value : Int) : List UInt8 :=
  signClass value (writeLenMag (minimalBe value.natAbs))

/-- The two's complement of a signed integer with its sign bit flipped. -/
def offsetBinary {bits : Nat} (value : Signed bits) : Nat :=
  (value.val % 2 ^ bits).toNat ^^^ 2 ^ (bits - 1)

def writeObI128 (value : Signed 128) : List UInt8 :=
  toBeBytes 16 (offsetBinary value)

def writeObI64 (value : Signed 64) : List UInt8 :=
  toBeBytes 8 (offsetBinary value)

def writeObI32 (value : Signed 32) : List UInt8 :=
  toBeBytes 4 (offsetBinary value)

/-- The subtraction of 64-bit integers that stops at the bounds. -/
def saturatingSub (first second : Int) : Int :=
  max (-2 ^ 63) (min (2 ^ 63 - 1) (first - second))

/-- The ASCII digits of a magnitude in base ten. -/
def decimalDigits (number : Nat) : List UInt8 :=
  magnitude (fun digit => UInt8.ofNat (48 + digit)) 10 number

/-- The exponent and the significand digits of a decimal that is not zero. -/
def numberBody (value : BigDecimal) : List UInt8 :=
  let digits := decimalDigits value.mantissa.natAbs
  let exponent := saturatingSub digits.length value.scale
  let significand := digits.rdropWhile (· == 48)
  writeSignedI64 exponent ++ significand ++ [0]

def putNumber (value : BigDecimal) : List UInt8 :=
  signClass value.mantissa (numberBody value)

section Bytes

theorem compare_toNat (first second : UInt8) :
    compare first second = compare first.toNat second.toNat := by
  change compareOfLessAndEq first second = compareOfLessAndEq first.toNat second.toNat
  simp only [compareOfLessAndEq, UInt8.lt_iff_toNat_lt, ← UInt8.toNat_inj]

theorem compareBytes {first second : Nat} (firstByte : first < 256) (secondByte : second < 256) :
    compare (UInt8.ofNat first) (UInt8.ofNat second) = compare first second := by
  rw [compare_toNat, UInt8.toNat_ofNat_of_lt' firstByte, UInt8.toNat_ofNat_of_lt' secondByte]

theorem compareInverted (first second : UInt8) :
    compare (~~~ first) (~~~ second) = (compare first second).swap := by
  rw [← Std.OrientedOrd.eq_swap, compare_toNat, compare_toNat, UInt8.toNat_not, UInt8.toNat_not]
  have firstBound := first.toNat_lt
  have secondBound := second.toNat_lt
  have size : UInt8.size = 256 := rfl
  apply compareTransfer <;> omega

/-- The big-endian bytes of numbers that fit separate with the numeric order. -/
theorem toBeBytes_separates (width : Nat) {first second : Nat} (firstFits : first < 256 ^ width)
    (secondFits : second < 256 ^ width) :
    Separates (toBeBytes width first) (toBeBytes width second) (compare first second) :=
  bigEndian_separates _ _ (fun _ firstByte _ secondByte => compareBytes firstByte secondByte)
    firstFits secondFits

end Bytes

section OffsetBinary

/-- The flip of the top bit adds it when it is clear. -/
theorem xor_two_pow_of_lt {bits number : Nat} (below : number < 2 ^ bits) :
    number ^^^ 2 ^ bits = number + 2 ^ bits := by
  apply Nat.eq_of_testBit_eq
  intro index
  rw [Nat.testBit_xor, Nat.testBit_two_pow, Nat.add_comm]
  rcases lt_trichotomy index bits with lower | rfl | higher
  · rw [Nat.testBit_two_pow_add_gt lower]
    simp [lower.ne']
  · rw [Nat.testBit_two_pow_add_eq]
    simp
  · have double := Nat.pow_le_pow_right (by decide : 0 < 2) higher
    rw [Nat.pow_succ] at double
    rw [Nat.testBit_lt_two_pow (by omega), Nat.testBit_lt_two_pow (by omega)]
    simp [higher.ne]

/-- The offset binary of an integer is its distance from the lowest integer. -/
theorem offsetBinary_eq {bits : Nat} (positive : 0 < bits) (value : Signed bits) :
    (offsetBinary value : Int) = value.val + 2 ^ (bits - 1) := by
  obtain ⟨val, low, high⟩ := value
  have double : (2 : Int) ^ bits = 2 * 2 ^ (bits - 1) := by
    rw [← pow_succ', Nat.sub_add_cancel positive]
  have cast : ((2 ^ (bits - 1) : Nat) : Int) = 2 ^ (bits - 1) := by push_cast; rfl
  simp only [offsetBinary]
  rcases Int.lt_or_le val 0 with negative | nonnegative
  · have reduced : val % 2 ^ bits = val + 2 ^ bits := by
      rw [← Int.add_emod_right]
      apply Int.emod_eq_of_lt <;> omega
    have split : (val + 2 ^ bits).toNat = (val + 2 ^ (bits - 1)).toNat + 2 ^ (bits - 1) := by omega
    have below : (val + 2 ^ (bits - 1)).toNat < 2 ^ (bits - 1) := by omega
    rw [reduced, split, ← xor_two_pow_of_lt below, Nat.xor_assoc, Nat.xor_self, Nat.xor_zero]
    omega
  · have reduced : val % 2 ^ bits = val := by
      apply Int.emod_eq_of_lt <;> omega
    rw [reduced, xor_two_pow_of_lt (by omega)]
    omega

/-- Offset binary bytes separate with the signed order. -/
theorem offsetBinary_separates (width : Nat) (first second : Signed (8 * (width + 1))) :
    Separates (toBeBytes (width + 1) (offsetBinary first))
      (toBeBytes (width + 1) (offsetBinary second)) (first.cmp second) := by
  have positive : 0 < 8 * (width + 1) := by omega
  have fits : ∀ value : Signed (8 * (width + 1)), offsetBinary value < 256 ^ (width + 1) := by
    intro value
    have exact := offsetBinary_eq positive value
    have high := value.high
    have double : (2 : Int) ^ (8 * (width + 1)) = 2 * 2 ^ (8 * (width + 1) - 1) := by
      rw [← pow_succ', Nat.sub_add_cancel positive]
    have span : ((256 ^ (width + 1) : Nat) : Int) = 2 ^ (8 * (width + 1)) := by
      rw [pow_mul]
      norm_num
    omega
  have order : first.cmp second = compare (offsetBinary first) (offsetBinary second) := by
    have firstExact := offsetBinary_eq positive first
    have secondExact := offsetBinary_eq positive second
    symm
    apply compareTransfer <;> omega
  rw [order]
  exact toBeBytes_separates _ (fits first) (fits second)

end OffsetBinary

section SignMagnitude

/-- The bytes of a magnitude with its length separate with the numeric order. -/
theorem writeLenMag_separates {first second : Nat}
    (firstShort : (Nat.digits 256 first).length < 2 ^ 32)
    (secondShort : (Nat.digits 256 second).length < 2 ^ 32) :
    Separates (writeLenMag (magnitude UInt8.ofNat 256 first))
      (writeLenMag (magnitude UInt8.ofNat 256 second)) (compare first second) := by
  have uncut : ∀ number : Nat, (Nat.digits 256 number).length < 2 ^ 32 →
      writeLenMag (magnitude UInt8.ofNat 256 number) =
        bigEndian UInt8.ofNat 256 4 (Nat.digits 256 number).length ++
          magnitude UInt8.ofNat 256 number := by
    intro number short
    rw [writeLenMag, toBeBytes, magnitude_length, min_eq_left (by omega)]
  rw [uncut first firstShort, uncut second secondShort]
  apply lengthPrefixed_separates
  · exact fun _ firstByte _ secondByte => compareBytes firstByte secondByte
  · decide
  · exact firstShort
  · exact secondShort

theorem signClass_eq_signed (number : Int) (body : List UInt8) :
    signClass number body =
      signed signNeg signZero signPos (~~~ ·) (SignType.sign number) body := by
  rcases lt_trichotomy number 0 with negative | rfl | positive
  · rw [sign_neg negative, signClass, if_neg negative.ne, if_neg negative.not_gt]
    rfl
  · rw [sign_zero]
    rfl
  · rw [sign_pos positive, signClass, if_neg positive.ne', if_pos positive]
    rfl

/-- Codes with a sign class separate by sign and then by their bodies. -/
theorem signClass_separates {first second : Int} {left right : List UInt8} {order : Ordering}
    (bySign : SignType.sign first ≠ SignType.sign second →
      order = compare (SignType.sign first) (SignType.sign second))
    (bothZero : first = 0 → second = 0 → order = .eq)
    (bothPositive : 0 < first → 0 < second → Separates left right order)
    (bothNegative : first < 0 → second < 0 → Separates left right order.swap) :
    Separates (signClass first left) (signClass second right) order := by
  rw [signClass_eq_signed, signClass_eq_signed]
  apply signed_separates
  · decide
  · decide
  · decide
  · exact compareInverted
  · exact bySign
  · exact fun firstZero secondZero =>
      bothZero (sign_eq_zero_iff.mp firstZero) (sign_eq_zero_iff.mp secondZero)
  · exact fun firstPos secondPos =>
      bothPositive (sign_eq_one_iff.mp firstPos) (sign_eq_one_iff.mp secondPos)
  · exact fun firstNeg secondNeg =>
      bothNegative (sign_eq_neg_one_iff.mp firstNeg) (sign_eq_neg_one_iff.mp secondNeg)

/-- A monotone value has the order of the signs when the signs differ. -/
theorem compare_of_sign_ne {α : Type*} [LinearOrder α] [Zero α] {first second : α}
    (different : SignType.sign first ≠ SignType.sign second) :
    compare first second = compare (SignType.sign first) (SignType.sign second) := by
  rcases lt_trichotomy first second with lower | rfl | higher
  · have ordered := (SignType.sign.monotone lower.le).lt_of_ne different
    rw [compare_lt_iff_lt.mpr lower, compare_lt_iff_lt.mpr ordered]
  · exact absurd rfl different
  · have ordered := (SignType.sign.monotone higher.le).lt_of_ne different.symm
    rw [compare_gt_iff_gt.mpr higher, compare_gt_iff_gt.mpr ordered]

/-- Sign-magnitude integers separate with the integer order when their magnitudes do. -/
theorem signMagnitude_separates {first second : Int} {left right : List UInt8}
    (bodies : first ≠ 0 → second ≠ 0 →
      Separates left right (compare first.natAbs second.natAbs)) :
    Separates (signClass first left) (signClass second right) (compare first second) := by
  apply signClass_separates
  · exact compare_of_sign_ne
  · rintro rfl rfl
    rfl
  · intro firstPos secondPos
    have order : compare first.natAbs second.natAbs = compare first second := by
      apply compareTransfer <;> omega
    rw [← order]
    exact bodies firstPos.ne' secondPos.ne'
  · intro firstNeg secondNeg
    have order : compare first.natAbs second.natAbs = compare second first := by
      apply compareTransfer <;> omega
    rw [← Std.OrientedOrd.eq_swap, ← order]
    exact bodies firstNeg.ne secondNeg.ne

/-- Integers whose magnitudes have less than 2^32 bytes separate with the integer order. -/
theorem writeInt_separates {first second : Int}
    (firstShort : (Nat.digits 256 first.natAbs).length < 2 ^ 32)
    (secondShort : (Nat.digits 256 second.natAbs).length < 2 ^ 32) :
    Separates (writeInt first) (writeInt second) (compare first second) := by
  apply signMagnitude_separates
  intro firstNonzero secondNonzero
  rw [toBytesBe, toBytesBe, if_neg (Int.natAbs_ne_zero.mpr firstNonzero),
    if_neg (Int.natAbs_ne_zero.mpr secondNonzero)]
  exact writeLenMag_separates firstShort secondShort

/-- The count of bytes of a 64-bit magnitude is at most eight. -/
theorem minimalBe_eq {value : Nat} (fits : value < 256 ^ 8) :
    minimalBe value = magnitude UInt8.ofNat 256 value := by
  apply bigEndian_dropZeros UInt8.ofNat 256 (by decide) _ fits
  intro number byte same
  have value := congrArg UInt8.toNat same
  rwa [UInt8.toNat_ofNat_of_lt' byte, UInt8.toNat_ofNat_of_lt' (by decide)] at value

/-- Exponents of 64 bits separate with the integer order. -/
theorem writeSignedI64_separates {first second : Int} (firstLow : -2 ^ 63 ≤ first)
    (firstHigh : first < 2 ^ 63) (secondLow : -2 ^ 63 ≤ second) (secondHigh : second < 2 ^ 63) :
    Separates (writeSignedI64 first) (writeSignedI64 second) (compare first second) := by
  apply signMagnitude_separates
  intro _ _
  have short : ∀ value : Nat, value < 256 ^ 8 → (Nat.digits 256 value).length < 2 ^ 32 := by
    intro value fits
    have bounded := Nat.digits_length_le_iff (by decide : 1 < 256) value |>.mpr fits
    omega
  rw [minimalBe_eq (by omega), minimalBe_eq (by omega)]
  exact writeLenMag_separates (short _ (by omega)) (short _ (by omega))

end SignMagnitude

/-- The count of decimal digits of a mantissa. -/
def digitCount (value : BigDecimal) : Nat :=
  (Nat.digits 10 value.mantissa.natAbs).length

/-- The encoder admits a decimal when the exponent of its first digit fits in 64 bits. -/
def Admitted (value : BigDecimal) : Prop :=
  value.mantissa ≠ 0 →
    -2 ^ 63 ≤ (digitCount value : Int) - value.scale ∧
      (digitCount value : Int) - value.scale < 2 ^ 63

/-- The digits of a magnitude with the most significant digit first and no trailing zero. -/
def significantDigits (number : Nat) : List Nat :=
  (Nat.digits 10 number).reverse.rdropWhile (· == 0)

theorem significantDigits_lt {number digit : Nat} (inside : digit ∈ significantDigits number) :
    digit < 10 := by
  have whole := (List.rdropWhile_prefix (· == 0) (l := (Nat.digits 10 number).reverse)).mem inside
  exact Nat.digits_lt_base (by decide) (List.mem_reverse.mp whole)

theorem significantDigits_last {number last : Nat}
    (known : last ∈ (significantDigits number).getLast?) : last ≠ 0 := by
  obtain ⟨nonempty, rfl⟩ := List.mem_getLast?_eq_getLast known
  have kept := List.rdropWhile_last_not _ _ nonempty
  intro zero
  exact kept (beq_iff_eq.mpr zero)

theorem fraction_significantDigits (number : Nat) :
    fraction 10 (significantDigits number) = fraction 10 (Nat.digits 10 number).reverse := by
  have whole := List.rdropWhile_append_rtakeWhile (p := (· == 0))
    (l := (Nat.digits 10 number).reverse)
  rw [← fraction_appendZeros (significantDigits number)
    ((Nat.digits 10 number).reverse.rtakeWhile (· == 0))]
  · exact congrArg (fraction 10) whole
  · intro digit inside
    have zero := List.mem_rtakeWhile_imp inside
    exact beq_iff_eq.mp zero

/-- The magnitude of a decimal. -/
def magnitudeRat (value : BigDecimal) : ℚ :=
  value.mantissa.natAbs * (10 : ℚ) ^ (-value.scale)

/-- The magnitude is the fraction of its digits scaled by the exponent. -/
theorem magnitudeRat_eq (value : BigDecimal) :
    magnitudeRat value = fraction 10 (significantDigits value.mantissa.natAbs) *
      ((10 : Nat) : ℚ) ^ ((digitCount value : Int) - value.scale) := by
  have whole := fraction_digits (by decide : 1 < 10) value.mantissa.natAbs
  rw [magnitudeRat, ← whole, fraction_significantDigits, sub_eq_add_neg,
    zpow_add₀ (by norm_num), zpow_natCast, mul_assoc]
  rfl

/-- The first digit of the fraction is not zero. -/
theorem fraction_significantDigits_bounds {number : Nat} (nonzero : number ≠ 0) :
    1 / ((10 : Nat) : ℚ) ≤ fraction 10 (significantDigits number) ∧
      fraction 10 (significantDigits number) < 1 := by
  constructor
  · have whole := fraction_digits (by decide : 1 < 10) number
    have long := Nat.base_pow_length_digits_le 10 number (by decide) nonzero
    have longRat : ((10 : Nat) : ℚ) ^ (Nat.digits 10 number).length ≤ 10 * number := by
      exact_mod_cast long
    have positive : (0 : ℚ) < ((10 : Nat) : ℚ) ^ (Nat.digits 10 number).length :=
      pow_pos (by norm_num) _
    rw [fraction_significantDigits, div_le_iff₀ (by norm_num)]
    rw [← whole] at longRat
    apply le_of_mul_le_mul_right _ positive
    push_cast at longRat ⊢
    linarith
  · exact (fraction_bounds (by decide) fun digit inside => significantDigits_lt inside).2

private theorem dropWhileAgree {α : Type*} {p q : α → Bool} {members : List α}
    (agree : ∀ member ∈ members, p member = q member) :
    members.dropWhile p = members.dropWhile q := by
  induction members with
  | nil => rfl
  | cons member rest ih =>
    rw [List.dropWhile_cons, List.dropWhile_cons, agree member List.mem_cons_self,
      ih fun other inside => agree other (List.mem_cons_of_mem _ inside)]

private theorem digitByte_eq_zero {digit : Nat} (small : digit < 10) :
    (UInt8.ofNat (48 + digit) == 48) = (digit == 0) := by
  rw [Bool.eq_iff_iff, beq_iff_eq, beq_iff_eq, ← UInt8.toNat_inj,
    UInt8.toNat_ofNat_of_lt' (by omega : 48 + digit < 256)]
  change 48 + digit = 48 ↔ digit = 0
  omega

/-- The significand bytes are the digits that remain without trailing zeros. -/
theorem significand_eq (number : Nat) :
    (decimalDigits number).rdropWhile (· == 48) =
      (significantDigits number).map fun digit => UInt8.ofNat (48 + digit) := by
  rw [decimalDigits, magnitude, significantDigits, List.rdropWhile, List.rdropWhile,
    ← List.map_reverse, List.dropWhile_map, List.map_reverse, List.reverse_reverse]
  congr 2
  apply dropWhileAgree
  intro digit inside
  exact digitByte_eq_zero (Nat.digits_lt_base (by decide) inside)

/-- The byte of a digit is above the terminator. -/
theorem digitByte_above {digit : Nat} (small : digit < 10) :
    compare (0 : UInt8) (UInt8.ofNat (48 + digit)) = .lt := by
  have order := compareBytes (by decide : 0 < 256) (by omega : 48 + digit < 256)
  exact order.trans (compare_lt_iff_lt.mpr (by omega))

theorem compareDigitBytes (first second : Nat) (firstSmall : first < 10) (secondSmall : second < 10) :
    compare (UInt8.ofNat (48 + first)) (UInt8.ofNat (48 + second)) = compare first second := by
  rw [compareBytes (by omega) (by omega)]
  apply compareTransfer <;> omega

/-- An admitted exponent is not cut. -/
theorem saturatingSub_eq {first second : Int} (low : -2 ^ 63 ≤ first - second)
    (high : first - second < 2 ^ 63) : saturatingSub first second = first - second := by
  rw [saturatingSub]
  omega

/-- The body of a decimal is its exponent and its terminated digits. -/
theorem numberBody_eq {value : BigDecimal} (nonzero : value.mantissa ≠ 0)
    (admitted : Admitted value) :
    numberBody value = writeSignedI64 ((digitCount value : Int) - value.scale) ++
      terminated 0 ((significantDigits value.mantissa.natAbs).map
        fun digit => UInt8.ofNat (48 + digit)) := by
  have bounds := admitted nonzero
  have length : (decimalDigits value.mantissa.natAbs).length = digitCount value :=
    magnitude_length _ _ _
  rw [numberBody]
  simp only [length, significand_eq, saturatingSub_eq bounds.1 bounds.2, terminated,
    List.append_assoc]

/-- The bodies of decimals that are not zero separate with the order of their magnitudes. -/
theorem numberBody_separates {first second : BigDecimal} (firstNonzero : first.mantissa ≠ 0)
    (secondNonzero : second.mantissa ≠ 0) (firstAdmitted : Admitted first)
    (secondAdmitted : Admitted second) :
    Separates (numberBody first) (numberBody second)
      (compare (magnitudeRat first) (magnitudeRat second)) := by
  have firstBounds := fraction_significantDigits_bounds (Int.natAbs_ne_zero.mpr firstNonzero)
  have secondBounds := fraction_significantDigits_bounds (Int.natAbs_ne_zero.mpr secondNonzero)
  rw [numberBody_eq firstNonzero firstAdmitted, numberBody_eq secondNonzero secondAdmitted,
    magnitudeRat_eq, magnitudeRat_eq,
    compareScaled (by decide) firstBounds.1 firstBounds.2 secondBounds.1 secondBounds.2,
    ← compareFractions (by decide) (fun _ => significantDigits_lt) (fun _ => significantDigits_lt)
      (fun _ => significantDigits_last) (fun _ => significantDigits_last),
    ← compareDigits (fun digit => UInt8.ofNat (48 + digit)) 10
      (fun first firstSmall second => compareDigitBytes first second firstSmall)
      (fun _ => significantDigits_lt) (fun _ => significantDigits_lt)]
  have firstExponent := firstAdmitted firstNonzero
  have secondExponent := secondAdmitted secondNonzero
  apply Separates.append
  · exact writeSignedI64_separates firstExponent.1 firstExponent.2 secondExponent.1 secondExponent.2
  · have above : ∀ number : Nat, ∀ letter ∈ (significantDigits number).map
        fun digit => UInt8.ofNat (48 + digit), compare 0 letter = .lt := by
      intro number letter inside
      obtain ⟨digit, known, rfl⟩ := List.mem_map.mp inside
      exact digitByte_above (significantDigits_lt known)
    exact terminated_separates 0 (above _) (above _)

theorem toRat_of_pos {value : BigDecimal} (positive : 0 < value.mantissa) :
    value.toRat = magnitudeRat value := by
  have same : (value.mantissa.natAbs : Int) = value.mantissa := Int.natAbs_of_nonneg positive.le
  rw [BigDecimal.toRat, magnitudeRat, ← same]
  rfl

theorem toRat_of_neg {value : BigDecimal} (negative : value.mantissa < 0) :
    value.toRat = -magnitudeRat value := by
  have same : -(value.mantissa.natAbs : Int) = value.mantissa := by omega
  rw [BigDecimal.toRat, magnitudeRat, ← same]
  push_cast
  simp

theorem magnitudeRat_pos {value : BigDecimal} (nonzero : value.mantissa ≠ 0) :
    0 < magnitudeRat value := by
  have positive : (0 : ℚ) < value.mantissa.natAbs := by
    exact_mod_cast Int.natAbs_pos.mpr nonzero
  exact mul_pos positive (zpow_pos (by norm_num) _)

theorem toRat_of_zero {value : BigDecimal} (zero : value.mantissa = 0) : value.toRat = 0 := by
  rw [BigDecimal.toRat, zero]
  simp

/-- A decimal has the sign of its mantissa. -/
theorem sign_toRat (value : BigDecimal) :
    SignType.sign value.toRat = SignType.sign value.mantissa := by
  rcases lt_trichotomy value.mantissa 0 with negative | zero | positive
  · rw [toRat_of_neg negative, sign_neg negative,
      sign_neg (neg_neg_of_pos (magnitudeRat_pos negative.ne))]
  · rw [toRat_of_zero zero, zero, sign_zero, sign_zero]
  · rw [toRat_of_pos positive, sign_pos positive, sign_pos (magnitudeRat_pos positive.ne')]

/-- Admitted decimals separate with their numeric order. -/
theorem putNumber_separates {first second : BigDecimal} (firstAdmitted : Admitted first)
    (secondAdmitted : Admitted second) :
    Separates (putNumber first) (putNumber second) (first.cmp second) := by
  rw [BigDecimal.cmp_eq_compare]
  apply signClass_separates
  · intro different
    rw [← sign_toRat, ← sign_toRat] at different ⊢
    exact compare_of_sign_ne different
  · intro firstZero secondZero
    rw [toRat_of_zero firstZero, toRat_of_zero secondZero, compare_eq_iff_eq]
  · intro firstPos secondPos
    rw [toRat_of_pos firstPos, toRat_of_pos secondPos]
    exact numberBody_separates firstPos.ne' secondPos.ne' firstAdmitted secondAdmitted
  · intro firstNeg secondNeg
    have order : compare (magnitudeRat first) (magnitudeRat second) =
        compare (-magnitudeRat second) (-magnitudeRat first) := by
      symm
      apply compareTransfer
      · exact fun lower => neg_lt_neg lower
      · exact fun higher => neg_lt_neg higher
      · exact fun same => by rw [same]
    rw [toRat_of_neg firstNeg, toRat_of_neg secondNeg, ← Std.OrientedOrd.eq_swap, ← order]
    exact numberBody_separates firstNeg.ne secondNeg.ne firstAdmitted secondAdmitted

section Normalization

/-- The power of ten of the trailing zeros divides the magnitude. -/
theorem trailingZeros_dvd (number : Nat) : 10 ^ BigDecimal.trailingZeros number ∣ number := by
  have split := List.takeWhile_append_dropWhile (p := (· == 0)) (l := Nat.digits 10 number)
  have zeros : (Nat.digits 10 number).takeWhile (· == 0) =
      List.replicate (BigDecimal.trailingZeros number) 0 := by
    apply List.eq_replicate_of_mem
    intro digit inside
    have zero := List.mem_takeWhile_imp inside
    exact beq_iff_eq.mp zero
  have value := congrArg (Nat.ofDigits 10) split
  rw [Nat.ofDigits_digits, Nat.ofDigits_append, zeros, Nat.ofDigits_replicate_zero,
    List.length_replicate, Nat.zero_add] at value
  exact ⟨_, value.symm⟩

/-- The normalized mantissa is the exact quotient. -/
theorem normalized_mantissa {value : BigDecimal} (nonzero : value.mantissa ≠ 0) :
    value.mantissa =
      value.normalized.mantissa * 10 ^ BigDecimal.trailingZeros value.mantissa.natAbs := by
  have divides : (10 : Int) ^ BigDecimal.trailingZeros value.mantissa.natAbs ∣ value.mantissa := by
    rw [← Int.natAbs_dvd_natAbs, Int.natAbs_pow]
    exact trailingZeros_dvd _
  rw [BigDecimal.normalized, if_neg nonzero]
  exact (Int.ediv_mul_cancel divides).symm

theorem normalized_scale {value : BigDecimal} (nonzero : value.mantissa ≠ 0) :
    value.normalized.scale = value.scale - BigDecimal.trailingZeros value.mantissa.natAbs := by
  rw [BigDecimal.normalized, if_neg nonzero]

/-- The normalized decimal denotes the same number. -/
theorem normalized_toRat (value : BigDecimal) : value.normalized.toRat = value.toRat := by
  by_cases zero : value.mantissa = 0
  · rw [toRat_of_zero zero, BigDecimal.normalized, if_pos zero]
    exact toRat_of_zero rfl
  · have exponent : -value.normalized.scale =
        (BigDecimal.trailingZeros value.mantissa.natAbs : Int) + -value.scale := by
      rw [normalized_scale zero]
      ring
    rw [BigDecimal.toRat, BigDecimal.toRat, exponent, zpow_add₀ (by norm_num), zpow_natCast,
      ← mul_assoc]
    congr 1
    exact_mod_cast (normalized_mantissa zero).symm

/-- The normalization keeps the exponent of the first digit. -/
theorem normalized_admitted {value : BigDecimal} (admitted : Admitted value) :
    Admitted value.normalized := by
  intro normalizedNonzero
  by_cases zero : value.mantissa = 0
  · rw [BigDecimal.normalized, if_pos zero] at normalizedNonzero
    exact absurd rfl normalizedNonzero
  · have magnitudes := congrArg Int.natAbs (normalized_mantissa zero)
    rw [Int.natAbs_mul, Int.natAbs_pow, Nat.mul_comm] at magnitudes
    have digits := Nat.digits_base_pow_mul (by decide : 1 < 10)
      (k := BigDecimal.trailingZeros value.mantissa.natAbs)
      (Int.natAbs_pos.mpr normalizedNonzero)
    have lengths := congrArg List.length digits
    rw [List.length_append, List.length_replicate] at lengths
    have count : digitCount value =
        BigDecimal.trailingZeros value.mantissa.natAbs + digitCount value.normalized := by
      rw [digitCount, digitCount, ← lengths]
      exact congrArg (fun number => (Nat.digits 10 number).length) magnitudes
    have bounds := admitted zero
    rw [normalized_scale zero]
    omega

/-- The bytes of a decimal do not depend on its scale. -/
theorem putNumber_normalized {value : BigDecimal} (admitted : Admitted value) :
    putNumber value.normalized = putNumber value := by
  apply (putNumber_separates (normalized_admitted admitted) admitted).eq_of_eq
  rw [BigDecimal.cmp_eq_compare, normalized_toRat, compare_eq_iff_eq]

end Normalization

end Liasse.KeyEnc

/-
This file models the texts of integers and decimals: the canonical text of each number and the parse that reads it back.
-/

import Liasse.KeyEnc.Decimal
import Liasse.Value.Basic

namespace Liasse.Wire

section Integers

/-- The sign of a text. -/
def signText (negative : Bool) : List Char :=
  if negative then ['-'] else []

/-- The base-ten text of an integer. -/
def integerText (number : Int) : String :=
  .ofList (signText (number < 0) ++ Nat.toDigits 10 number.natAbs)

/-- Each character is a digit, and there is one. -/
def IsDigits (chars : List Char) : Prop :=
  chars ≠ [] ∧ ∀ char ∈ chars, char.isDigit = true

instance (chars : List Char) : Decidable (IsDigits chars) :=
  inferInstanceAs (Decidable (_ ∧ _))

/-- The number of some digits. -/
def parseDigits (chars : List Char) : Option Nat :=
  if IsDigits chars then some (Nat.ofDigitChars 10 chars 0) else none

/-- A plus sign goes. -/
def stripPlus : List Char → List Char
  | '+' :: chars => chars
  | chars => chars

/-- The standard parse of a signed integer. A plus sign is permitted. -/
def parseInteger (text : String) : Option Int :=
  match text.toList with
  | '-' :: chars => (parseDigits chars).map fun number : Nat => -(number : Int)
  | chars => (parseDigits (stripPlus chars)).map Int.ofNat

/-- The standard parse of an integer with a fixed count of bits. -/
def parseSigned (bits : Nat) (text : String) : Option (Signed bits) :=
  match parseInteger text with
  | none => none
  | some number =>
    if range : -2 ^ (bits - 1) ≤ number ∧ number < 2 ^ (bits - 1) then some ⟨number, range.1, range.2⟩
    else none

/-- The standard parse of an unsigned integer of 64 bits. A minus sign is not permitted. -/
def parseUnsigned (text : String) : Option UInt64 :=
  match parseDigits (stripPlus text.toList) with
  | none => none
  | some number => if number < 2 ^ 64 then some (UInt64.ofNat number) else none

theorem toDigits_isDigits (number : Nat) : IsDigits (Nat.toDigits 10 number) :=
  ⟨Nat.toDigits_ne_nil, fun _ inside => Nat.isDigit_of_mem_toDigits (by decide) (by decide) inside⟩

theorem parseDigits_toDigits (number : Nat) : parseDigits (Nat.toDigits 10 number) = some number := by
  rw [parseDigits, if_pos (toDigits_isDigits number), Nat.ofDigitChars_ten_toDigits]

/-- Some digits do not start with a sign. -/
theorem IsDigits.unsigned {chars : List Char} (digits : IsDigits chars) :
    stripPlus chars = chars ∧ chars.head? ≠ some '-' := by
  cases chars with
  | nil => exact absurd rfl digits.1
  | cons char rest =>
    have digit : char.isDigit = true := digits.2 char List.mem_cons_self
    constructor
    · unfold stripPlus
      split
      · next equal =>
          rw [(List.cons.inj equal).1] at digit
          exact absurd digit (by decide)
      · rfl
    · intro minus
      rw [Option.some.inj minus] at digit
      exact absurd digit (by decide)

/-- The parse reads the text of an integer back. -/
theorem parseInteger_integerText (number : Int) : parseInteger (integerText number) = some number := by
  have read := parseDigits_toDigits number.natAbs
  obtain ⟨plus, minus⟩ := (toDigits_isDigits number.natAbs).unsigned
  unfold parseInteger integerText
  rw [String.toList_ofList]
  by_cases negative : number < 0
  · simp only [signText, negative, decide_true, if_true, List.singleton_append, read, Option.map_some]
    rw [Int.ofNat_natAbs_of_nonpos negative.le, neg_neg]
  · simp only [signText, negative, decide_false, Bool.false_eq_true, if_false, List.nil_append]
    split
    · next equal =>
        rw [equal] at minus
        exact absurd rfl minus
    · rw [plus, read, Option.map_some]
      exact congrArg some (Int.natAbs_of_nonneg (not_lt.mp negative))

theorem parseSigned_integerText {bits : Nat} (number : Signed bits) :
    parseSigned bits (integerText number.val) = some number := by
  rw [parseSigned, parseInteger_integerText]
  exact dif_pos ⟨number.low, number.high⟩

theorem parseUnsigned_integerText (number : UInt64) :
    parseUnsigned (integerText number.toNat) = some number := by
  have positive : ¬ (number.toNat : Int) < 0 := by omega
  have small : number.toNat < 2 ^ 64 := number.toNat_lt
  rw [parseUnsigned, integerText, String.toList_ofList, decide_eq_false positive, Int.natAbs_natCast]
  change (match parseDigits (stripPlus (Nat.toDigits 10 number.toNat)) with
    | none => none
    | some number => if number < 2 ^ 64 then some (UInt64.ofNat number) else none) = some number
  rw [(toDigits_isDigits number.toNat).unsigned.1, parseDigits_toDigits]
  dsimp only
  rw [if_pos small, UInt64.ofNat_toNat]

end Integers

/-- The JSON kinds that a diagnostic names. -/
inductive JsonShape
  | null
  | bool
  | number
  | string
  | array
  | object
deriving DecidableEq

/-- The errors of the parses of values. -/
inductive ValueError
  | typeMismatch (ty : String) (expected found : JsonShape)
  | malformedInt (text : String)
  | malformedDecimal (text : String)
  | decimalScaleOutOfRange (magnitude limit : Nat)
  | malformedUuid (text : String)
  | malformedDate (text : String)
  | malformedTimestamp (text : String)
  | malformedDuration (text reason : String)
  | malformedBase64 (reason : String)
  | nonCanonicalScalar (ty found canonical : String)
  | malformedSha512 (reason : String)
  | calendarInFixedPeriod (text : String)
  | emptyCalendarPeriod
  | unknownPolicy (field value : String)
  | unknownEnumLabel (label : String) (allowed : List String)
  | missingMember (name : String)
  | unexpectedMember (name : String)
  | compositeArity (expected found : Nat)
deriving DecidableEq

/-- The plain text of a number without an exponent. -/
def plainText (negative : Bool) (whole fraction : List Char) : String :=
  .ofList (signText negative ++ whole ++ if fraction = [] then [] else '.' :: fraction)

/-- The decimal that a plain text spells. -/
def plainDecimal (negative : Bool) (whole fraction : List Char) : BigDecimal where
  mantissa := (if negative then -1 else 1) * Nat.ofDigitChars 10 (whole ++ fraction) 0
  scale := fraction.length

/-- The count of days of a month. -/
def daysInMonth (year : Int) (month : Nat) : Nat :=
  if month = 2 then if year % 4 = 0 ∧ (year % 100 ≠ 0 ∨ year % 400 = 0) then 29 else 28
  else if [4, 6, 9, 11].contains month then 30
  else 31

/-- A date exists when its month has its day. -/
def DateExists (date : Date) : Prop :=
  date.day ≤ daysInMonth date.year date.month

instance (date : Date) : Decidable (DateExists date) :=
  inferInstanceAs (Decidable (_ ≤ _))

/-- The texts of the libraries that the values use. -/
structure Libraries where
  parseBigInt : String → Option Int
  parseBigDecimal : String → Option BigDecimal
  toBase64 : List UInt8 → String
  fromBase64 : String → Except String (List UInt8)
  toHex : List UInt8 → String
  fromHex : String → Except String (List UInt8)
  uuidText : Uuid → String
  parseUuid : String → Option Uuid
  dateText : Date → String
  parseDate : String → Option Date

/-- What the libraries document: each reads its own texts back, the decimals read each plain text, and a parsed
date exists. -/
structure Libraries.Documented (libraries : Libraries) : Prop where
  bigInt : ∀ number, libraries.parseBigInt (integerText number) = some number
  bigDecimal : ∀ negative whole fraction, IsDigits whole → (∀ char ∈ fraction, char.isDigit = true) →
    libraries.parseBigDecimal (plainText negative whole fraction) = some (plainDecimal negative whole fraction)
  base64 : ∀ bytes, libraries.fromBase64 (libraries.toBase64 bytes) = .ok bytes
  hex : ∀ bytes, libraries.fromHex (libraries.toHex bytes) = .ok bytes
  uuid : ∀ uuid, libraries.parseUuid (libraries.uuidText uuid) = some uuid
  date : ∀ date, DateExists date → libraries.parseDate (libraries.dateText date) = some date
  dateExists : ∀ text date, libraries.parseDate text = some date → DateExists date

namespace Decimal

/-- The largest magnitude of a scale. -/
def maxScaleMagnitude : Nat :=
  16383

/-- The decimal point stands some digits from the right. A scale below zero adds zeros. -/
def assemble (negative : Bool) (digits : List Char) (scale : Int) : String :=
  if scale ≤ 0 then .ofList (signText negative ++ digits ++ List.replicate scale.natAbs '0')
  else if digits.length > scale.toNat then
    .ofList (signText negative ++ digits.take (digits.length - scale.toNat) ++
      '.' :: digits.drop (digits.length - scale.toNat))
  else
    .ofList (signText negative ++ '0' :: '.' :: (List.replicate (scale.toNat - digits.length) '0' ++ digits))

/-- The text of the minimal form. -/
def toCanonicalText (value : BigDecimal) : String :=
  let minimal := value.normalized
  if minimal.mantissa = 0 then "0"
  else assemble (minimal.mantissa < 0) (Nat.toDigits 10 minimal.mantissa.natAbs) minimal.scale

/-- The parse of a decimal rejects a minimal form with a large scale. -/
def parse (libraries : Libraries) (text : String) : Except ValueError BigDecimal :=
  match libraries.parseBigDecimal text with
  | none => .error (.malformedDecimal text)
  | some value =>
    let magnitude := value.normalized.scale.natAbs
    if magnitude > maxScaleMagnitude then
      .error (.decimalScaleOutOfRange magnitude maxScaleMagnitude)
    else .ok value

/-- A decimal fits when the parse admits the scale of its minimal form. -/
def Fits (value : BigDecimal) : Prop :=
  value.normalized.scale.natAbs ≤ maxScaleMagnitude

instance (value : BigDecimal) : Decidable (Fits value) :=
  inferInstanceAs (Decidable (_ ≤ _))

section Texts

theorem ofDigitChars_zeros (count : Nat) (digits : List Char) :
    Nat.ofDigitChars 10 (List.replicate count '0' ++ digits) 0 = Nat.ofDigitChars 10 digits 0 := by
  rw [Nat.ofDigitChars_append, Nat.ofDigitChars_replicate_zero, mul_zero]

theorem isDigit_replicate {count : Nat} {char : Char} (inside : char ∈ List.replicate count '0') :
    char.isDigit = true := by
  rw [(List.mem_replicate.mp inside).2]
  rfl

/-- The text of an assembled number is plain and spells the number. -/
theorem assemble_plain (negative : Bool) (magnitude : Nat) (scale : Int) :
    ∃ whole fraction, IsDigits whole ∧ (∀ char ∈ fraction, char.isDigit = true) ∧
      assemble negative (Nat.toDigits 10 magnitude) scale = plainText negative whole fraction ∧
        (plainDecimal negative whole fraction).toRat =
            (BigDecimal.mk ((if negative then -1 else 1) * magnitude) scale).toRat ∧
          fraction.length = scale.toNat := by
  have digits := toDigits_isDigits magnitude
  have read := Nat.ofDigitChars_ten_toDigits (n := magnitude)
  generalize Nat.toDigits 10 magnitude = chars at digits read
  unfold assemble
  by_cases whole : scale ≤ 0
  · refine ⟨chars ++ List.replicate scale.natAbs '0', [], ⟨?_, ?_⟩, by simp, ?_, ?_, (Int.toNat_of_nonpos whole).symm⟩
    · exact fun empty => digits.1 (List.append_eq_nil_iff.mp empty).1
    · intro char inside
      rcases List.mem_append.mp inside with inside | inside
      · exact digits.2 char inside
      · exact isDigit_replicate inside
    · rw [if_pos whole, plainText, if_pos rfl, List.append_nil, List.append_assoc]
    · have exponent : -scale = (scale.natAbs : Int) := by omega
      rw [BigDecimal.toRat, BigDecimal.toRat, exponent, zpow_natCast, plainDecimal, List.append_nil,
        Nat.ofDigitChars_append, read, Nat.ofDigitChars_replicate_zero]
      push_cast
      simp only [List.length_nil, Nat.cast_zero, neg_zero, zpow_zero, mul_one]
      ring
  · rw [if_neg whole]
    have place : (scale.toNat : Int) = scale := by omega
    by_cases long : chars.length > scale.toNat
    · have size : (chars.drop (chars.length - scale.toNat)).length = scale.toNat := by
        rw [List.length_drop]
        omega
      refine ⟨chars.take (chars.length - scale.toNat), chars.drop (chars.length - scale.toNat),
        ⟨?_, fun char inside => digits.2 char (List.mem_of_mem_take inside)⟩,
        fun char inside => digits.2 char (List.mem_of_mem_drop inside), ?_, ?_, size⟩
      · intro empty
        have short := congrArg List.length empty
        rw [List.length_take, List.length_nil] at short
        omega
      · rw [if_pos long, plainText, if_neg]
        intro empty
        rw [empty, List.length_nil] at size
        omega
      · rw [plainDecimal, List.take_append_drop, read, size, place]
    · refine ⟨['0'], List.replicate (scale.toNat - chars.length) '0' ++ chars, ⟨by simp, by simp⟩, ?_, ?_, ?_, ?_⟩
      · intro char inside
        rcases List.mem_append.mp inside with inside | inside
        · exact isDigit_replicate inside
        · exact digits.2 char inside
      · rw [if_neg long, plainText, if_neg, List.append_assoc]
        · rfl
        · exact fun empty => digits.1 (List.append_eq_nil_iff.mp empty).2
      · have length : ((List.replicate (scale.toNat - chars.length) '0' ++ chars).length : Int) = scale := by
          rw [List.length_append, List.length_replicate]
          omega
        have leading := ofDigitChars_zeros 1 (List.replicate (scale.toNat - chars.length) '0' ++ chars)
        rw [plainDecimal, length]
        change (BigDecimal.mk (_ * (Nat.ofDigitChars 10 (List.replicate 1 '0' ++ _) 0 : Nat)) scale).toRat = _
        rw [leading, ofDigitChars_zeros, read]
      · rw [List.length_append, List.length_replicate]
        omega

/-- The canonical text is plain, it spells the number of the decimal, and its fraction has the minimal scale. -/
theorem toCanonicalText_minimal (value : BigDecimal) :
    ∃ negative whole fraction, IsDigits whole ∧ (∀ char ∈ fraction, char.isDigit = true) ∧
      toCanonicalText value = plainText negative whole fraction ∧
        (plainDecimal negative whole fraction).toRat = value.toRat ∧
          fraction.length = value.normalized.scale.toNat := by
  have scaleless : value.normalized.mantissa = 0 → value.normalized.scale = 0 := by
    intro none
    by_cases zero : value.mantissa = 0
    · rw [BigDecimal.normalized, if_pos zero]
    · have split := KeyEnc.normalized_mantissa zero
      rw [none, zero_mul] at split
      exact absurd split zero
  rw [toCanonicalText, ← KeyEnc.normalized_toRat value]
  generalize value.normalized = minimal at *
  by_cases zero : minimal.mantissa = 0
  · refine ⟨false, ['0'], [], ⟨by simp, by simp⟩, by simp, by rw [if_pos zero]; rfl, ?_, ?_⟩
    · rw [BigDecimal.toRat, BigDecimal.toRat, zero]
      simp [plainDecimal, Nat.ofDigitChars]
    · rw [scaleless zero]
      rfl
  · rw [if_neg zero]
    obtain ⟨whole, fraction, digits, rest, text, spelled, length⟩ :=
      assemble_plain (minimal.mantissa < 0) minimal.mantissa.natAbs minimal.scale
    refine ⟨_, whole, fraction, digits, rest, text, spelled.trans ?_, length⟩
    have signed : (if decide (minimal.mantissa < 0) = true then (-1 : Int) else 1) * minimal.mantissa.natAbs =
        minimal.mantissa := by
      by_cases negative : minimal.mantissa < 0
      · simp only [negative, decide_true, if_true]
        omega
      · simp only [negative, decide_false, Bool.false_eq_true, if_false]
        omega
    rw [signed]

/-- The canonical text is plain and spells the number of the decimal. -/
theorem toCanonicalText_plain (value : BigDecimal) :
    ∃ negative whole fraction, IsDigits whole ∧ (∀ char ∈ fraction, char.isDigit = true) ∧
      toCanonicalText value = plainText negative whole fraction ∧
        (plainDecimal negative whole fraction).toRat = value.toRat := by
  obtain ⟨negative, whole, fraction, digits, rest, text, spelled, -⟩ := toCanonicalText_minimal value
  exact ⟨negative, whole, fraction, digits, rest, text, spelled⟩

end Texts

section Minimal

/-- No power of ten above the trailing zeros divides a positive magnitude. -/
theorem trailingZeros_maximal {number : Nat} (positive : number ≠ 0) :
    ¬ 10 ^ (BigDecimal.trailingZeros number + 1) ∣ number := by
  have split := List.takeWhile_append_dropWhile (p := (· == 0)) (l := Nat.digits 10 number)
  have zeros : (Nat.digits 10 number).takeWhile (· == 0) =
      List.replicate (BigDecimal.trailingZeros number) 0 := by
    apply List.eq_replicate_of_mem
    intro digit inside
    have zero := List.mem_takeWhile_imp inside
    exact beq_iff_eq.mp zero
  have value := congrArg (Nat.ofDigits 10) split
  rw [Nat.ofDigits_digits, Nat.ofDigits_append, zeros, Nat.ofDigits_replicate_zero, List.length_replicate,
    Nat.zero_add] at value
  intro whole
  have divides : 10 ∣ Nat.ofDigits 10 ((Nat.digits 10 number).dropWhile (· == 0)) := by
    apply Nat.dvd_of_mul_dvd_mul_left (k := 10 ^ BigDecimal.trailingZeros number) (by positivity)
    rw [← pow_succ, value]
    exact whole
  cases rest : (Nat.digits 10 number).dropWhile (· == 0) with
  | nil =>
    rw [rest, Nat.ofDigits_nil, mul_zero] at value
    exact positive value.symm
  | cons digit digits =>
    have small : digit < 10 := Nat.digits_lt_base (by decide) (m := number)
      ((List.dropWhile_sublist _).subset (rest ▸ List.mem_cons_self))
    have nonzero : digit ≠ 0 := by
      have head := List.head?_dropWhile_not (· == 0) (Nat.digits 10 number)
      rw [rest] at head
      simpa using head
    rw [rest, Nat.ofDigits_cons] at divides
    omega

/-- The minimal mantissa of a number other than zero is not a multiple of ten. -/
theorem normalized_not_dvd {value : BigDecimal} (nonzero : value.mantissa ≠ 0) :
    ¬ (10 : Int) ∣ value.normalized.mantissa := by
  intro divides
  apply trailingZeros_maximal (Int.natAbs_ne_zero.mpr nonzero)
  rw [← Int.natCast_dvd_natCast, Int.dvd_natAbs]
  push_cast
  calc (10 : Int) ^ (BigDecimal.trailingZeros value.mantissa.natAbs + 1)
      = 10 ^ BigDecimal.trailingZeros value.mantissa.natAbs * 10 := pow_succ _ _
    _ ∣ 10 ^ BigDecimal.trailingZeros value.mantissa.natAbs * value.normalized.mantissa :=
        mul_dvd_mul_left _ divides
    _ = value.mantissa := (mul_comm _ _).trans (KeyEnc.normalized_mantissa nonzero).symm

theorem mantissa_eq (value : BigDecimal) : (value.mantissa : ℚ) = value.toRat * 10 ^ value.scale := by
  rw [BigDecimal.toRat, mul_assoc, ← zpow_add₀ (by norm_num), neg_add_cancel, zpow_zero, mul_one]

/-- A mantissa that is not a multiple of ten has the least scale of its number. -/
theorem scale_le {first second : BigDecimal} (rough : ¬ (10 : Int) ∣ second.mantissa)
    (same : first.toRat = second.toRat) : second.scale ≤ first.scale := by
  by_contra larger
  obtain ⟨gap, apart⟩ := Int.eq_ofNat_of_zero_le (sub_nonneg.mpr (not_le.mp larger))
  have exponent : -first.scale + second.scale = ((gap + 1 : Nat) : Int) := by omega
  have scaled : (second.mantissa : ℚ) = first.mantissa * 10 ^ (gap + 1) := by
    rw [mantissa_eq second, ← same, BigDecimal.toRat, mul_assoc, ← zpow_add₀ (by norm_num), exponent,
      zpow_natCast]
  have whole : second.mantissa = first.mantissa * 10 ^ gap * 10 := by
    rw [mul_assoc, ← pow_succ]
    exact_mod_cast scaled
  exact rough (Dvd.intro_left _ whole.symm)

theorem toRat_ne_zero {value : BigDecimal} (nonzero : value.mantissa ≠ 0) : value.toRat ≠ 0 :=
  mul_ne_zero (Int.cast_ne_zero.mpr nonzero) (zpow_ne_zero _ (by norm_num))

/-- Equal numbers have one minimal form. -/
theorem normalized_congr {first second : BigDecimal} (same : first.toRat = second.toRat) :
    first.normalized = second.normalized := by
  by_cases zero : first.mantissa = 0
  · have also : second.mantissa = 0 := by
      by_contra nonzero
      exact toRat_ne_zero nonzero (same.symm.trans (KeyEnc.toRat_of_zero zero))
    rw [BigDecimal.normalized, BigDecimal.normalized, if_pos zero, if_pos also]
  · have also : second.mantissa ≠ 0 := by
      intro none
      exact toRat_ne_zero zero (same.trans (KeyEnc.toRat_of_zero none))
    have minimal : first.normalized.toRat = second.normalized.toRat := by
      rw [KeyEnc.normalized_toRat, KeyEnc.normalized_toRat, same]
    have scales : first.normalized.scale = second.normalized.scale :=
      le_antisymm (scale_le (normalized_not_dvd zero) minimal.symm)
        (scale_le (normalized_not_dvd also) minimal)
    have mantissas : (first.normalized.mantissa : ℚ) = second.normalized.mantissa := by
      rw [mantissa_eq, mantissa_eq, minimal, scales]
    generalize first.normalized = left at scales mantissas
    generalize second.normalized = right at scales mantissas
    cases left
    cases right
    simp only [BigDecimal.mk.injEq]
    exact ⟨by exact_mod_cast mantissas, scales⟩

end Minimal

section Parse

variable {libraries : Libraries}

/-- Equal numbers have one canonical text. -/
theorem toCanonicalText_congr {first second : BigDecimal} (same : first.toRat = second.toRat) :
    toCanonicalText first = toCanonicalText second := by
  rw [toCanonicalText, toCanonicalText, normalized_congr same]

/-- A parsed decimal fits. -/
theorem fits_of_parse {text : String} {value : BigDecimal} (parsed : parse libraries text = .ok value) :
    Fits value := by
  unfold parse at parsed
  split at parsed
  · cases parsed
  · dsimp only at parsed
    split at parsed
    · cases parsed
    · next small =>
        rw [Except.ok.injEq] at parsed
        exact parsed ▸ not_lt.mp small

/-- The parse reads a canonical text back as the same number when the decimal fits. -/
theorem parse_toCanonicalText (documented : libraries.Documented) {value : BigDecimal} (fits : Fits value) :
    ∃ read, parse libraries (toCanonicalText value) = .ok read ∧ read.toRat = value.toRat := by
  obtain ⟨negative, whole, fraction, digits, rest, text, spelled⟩ := toCanonicalText_plain value
  refine ⟨_, ?_, spelled⟩
  unfold parse
  rw [text, documented.bigDecimal negative whole fraction digits rest]
  dsimp only
  rw [normalized_congr spelled, if_neg (not_lt.mpr fits)]

/-- The parse rejects the canonical text of a decimal that does not fit. -/
theorem parse_wide (documented : libraries.Documented) {value : BigDecimal} (wide : ¬ Fits value) :
    parse libraries (toCanonicalText value) =
      .error (.decimalScaleOutOfRange value.normalized.scale.natAbs maxScaleMagnitude) := by
  obtain ⟨negative, whole, fraction, digits, rest, text, spelled⟩ := toCanonicalText_plain value
  unfold parse
  rw [text, documented.bigDecimal negative whole fraction digits rest]
  dsimp only
  rw [normalized_congr spelled, if_pos (not_le.mp wide)]

end Parse

end Decimal

end Liasse.Wire

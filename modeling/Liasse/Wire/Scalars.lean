/-
This file proves what the canonical texts of decimals and durations are.
-/

import Liasse.Wire.RoundTrip

namespace Liasse.Wire

open Codes

section Decimals

variable {libraries : Libraries}

/-- Two decimals have one canonical text exactly when they are one number. -/
theorem Decimal.toCanonicalText_eq_iff {first second : BigDecimal} :
    toCanonicalText first = toCanonicalText second ↔ first.toRat = second.toRat := by
  refine ⟨fun same => ?_, toCanonicalText_congr⟩
  obtain ⟨leftSign, leftWhole, leftFraction, leftDigits, leftRest, leftText, left⟩ := toCanonicalText_plain first
  obtain ⟨rightSign, rightWhole, rightFraction, rightDigits, rightRest, rightText, right⟩ :=
    toCanonicalText_plain second
  -- A documented library reads each plain text as one decimal.
  have leftRead := Sample.documented.bigDecimal leftSign leftWhole leftFraction leftDigits leftRest
  have rightRead := Sample.documented.bigDecimal rightSign rightWhole rightFraction rightDigits rightRest
  rw [← leftText, same, rightText, rightRead] at leftRead
  rw [← left, ← right, Option.some.inj leftRead]

/-- The parse accepts a text exactly when the library reads a decimal that fits. -/
theorem Decimal.parse_isOk_iff {text : String} {value : BigDecimal}
    (read : libraries.parseBigDecimal text = some value) :
    (∃ parsed, parse libraries text = .ok parsed) ↔ Fits value := by
  unfold parse
  rw [read]
  dsimp only
  split
  next wide => exact iff_of_false (by rintro ⟨_, ⟨⟩⟩) (not_le.mpr wide)
  next small => exact iff_of_true ⟨_, rfl⟩ (not_lt.mp small)

theorem Decimal.fits_congr {first second : BigDecimal} (same : first.toRat = second.toRat) :
    Fits first ↔ Fits second := by
  rw [Fits, Fits, normalized_congr same]

/-- No plain text of a number has fewer digits in its fraction than the canonical one. -/
theorem Decimal.scale_minimal {value : BigDecimal} {negative : Bool} {whole fraction : List Char}
    (same : (plainDecimal negative whole fraction).toRat = value.toRat) :
    value.normalized.scale.toNat ≤ fraction.length := by
  by_cases zero : value.mantissa = 0
  · rw [BigDecimal.normalized, if_pos zero]
    exact Nat.zero_le _
  · have least := scale_le (normalized_not_dvd zero) (same.trans (KeyEnc.normalized_toRat value).symm)
    change value.normalized.scale ≤ (fraction.length : Int) at least
    omega

/-- The text of a decimal is the canonical one of its number: the number determines it, it has the minimal scale, and
it reads back as the number, as each other spelling does. -/
structure CanonicalDecimal (libraries : Libraries) (value : BigDecimal) : Prop where
  determined : ∀ other, Decimal.toCanonicalText other = Decimal.toCanonicalText value ↔ other.toRat = value.toRat
  minimal : ∃ negative whole fraction, IsDigits whole ∧ (∀ char ∈ fraction, char.isDigit = true) ∧
    Decimal.toCanonicalText value = plainText negative whole fraction ∧
      ∀ sign digits rest, (plainDecimal sign digits rest).toRat = value.toRat → fraction.length ≤ rest.length
  readsBack : ∃ read, Decimal.parse libraries (Decimal.toCanonicalText value) = .ok read ∧ read.toRat = value.toRat
  alike : ∀ first second left right, libraries.parseBigDecimal first = some left →
    libraries.parseBigDecimal second = some right → left.toRat = value.toRat → right.toRat = value.toRat →
      ((∃ read, Decimal.parse libraries first = .ok read) ↔ ∃ read, Decimal.parse libraries second = .ok read)

/-- The text of a decimal is canonical exactly when the scale of its minimal form is in the bound. -/
theorem canonicalDecimal_iff (documented : libraries.Documented) (value : BigDecimal) :
    CanonicalDecimal libraries value ↔ Decimal.Fits value := by
  constructor
  · intro canonical
    obtain ⟨read, parsed, -⟩ := canonical.readsBack
    by_contra wide
    rw [Decimal.parse_wide documented wide] at parsed
    cases parsed
  · intro fits
    obtain ⟨negative, whole, fraction, digits, rest, text, -, length⟩ := Decimal.toCanonicalText_minimal value
    refine ⟨fun _ => Decimal.toCanonicalText_eq_iff, ⟨negative, whole, fraction, digits, rest, text, ?_⟩,
      Decimal.parse_toCanonicalText documented fits, ?_⟩
    · intro sign digits rest same
      rw [length]
      exact Decimal.scale_minimal same
    · intro first second left right leftRead rightRead leftSame rightSame
      rw [Decimal.parse_isOk_iff leftRead, Decimal.parse_isOk_iff rightRead]
      exact Decimal.fits_congr (leftSame.trans rightSame.symm)

end Decimals

section Durations

variable {libraries : Libraries}

/-- The text of a duration reads back, and at the wire it is the one spelling of the duration. -/
structure CanonicalDuration (libraries : Libraries) (duration : Signed 128) : Prop where
  readsBack : Duration.parse (Duration.toCanonicalText duration) = .ok duration
  accepts : ∀ text, decodeAs libraries .wire .duration (.string text) = .ok (.duration duration) ↔
    text = Duration.toCanonicalText duration

/-- The wire accepts a text for a value exactly when it is the canonical one of the value that it spells. -/
theorem decodeScalar_wire_iff {α : Type} (ty : String) {text : String} {parse : String → Except ValueError α}
    {canonical : α → String} {value : α} :
    decodeScalar .wire (.string text) ty parse canonical text = .ok value ↔
      parse text = .ok value ∧ text = canonical value := by
  constructor
  · intro decoded
    obtain ⟨found, parsed, rest⟩ := bind_ok.mp decoded
    obtain ⟨_, passed, last⟩ := bind_ok.mp rest
    obtain rfl := Except.ok.inj last
    refine ⟨parsed, ?_⟩
    by_contra other
    have rejected : ensureCanonical .wire (.string text) ty (canonical found) =
        .error (.nonCanonicalScalar ty text (canonical found)) := if_pos ⟨rfl, other⟩
    rw [rejected] at passed
    cases passed
  · rintro ⟨parsed, rfl⟩
    exact decodeScalar_canonical parsed rfl

/-- The wire accepts a spelling of a duration exactly when it is the canonical one and reads back. -/
theorem decodeAs_duration (text : String) (duration : Signed 128) :
    decodeAs libraries .wire .duration (.string text) = .ok (.duration duration) ↔
      Duration.parse text = .ok duration ∧ text = Duration.toCanonicalText duration := by
  change ((decodeScalar .wire (.string text) "duration" Duration.parse Duration.toCanonicalText text).map
    Value.duration) = _ ↔ _
  rw [map_ok, ← decodeScalar_wire_iff "duration"]
  constructor
  · rintro ⟨found, decoded, same⟩
    cases same
    exact decoded
  · exact fun decoded => ⟨duration, decoded, rfl⟩

/-- The text of a duration is canonical exactly when the duration is above the least machine integer. -/
theorem canonicalDuration_iff (duration : Signed 128) :
    CanonicalDuration libraries duration ↔ -2 ^ 127 < duration.val := by
  constructor
  · intro canonical
    exact Duration.above_of_parse canonical.readsBack
  · intro above
    have read := Duration.parse_toCanonicalText above
    refine ⟨read, fun text => ?_⟩
    rw [decodeAs_duration]
    constructor
    · exact And.right
    · rintro rfl
      exact ⟨read, rfl⟩

/-- The texts of decimals and durations are canonical exactly for the decimals with a scale in the bound and for the
durations above the least machine integer. -/
theorem canonical_texts (documented : libraries.Documented) :
    (∀ value, CanonicalDecimal libraries value ↔ Decimal.Fits value) ∧
      ∀ duration, CanonicalDuration libraries duration ↔ -2 ^ 127 < duration.val :=
  ⟨canonicalDecimal_iff documented, canonicalDuration_iff⟩

/-- One and a half, and ninety minutes. -/
theorem canonical_texts_sample :
    CanonicalDecimal Sample.libraries ⟨150, 2⟩ ∧
      CanonicalDuration Sample.libraries ⟨5400000000000, by decide, by decide⟩ :=
  ⟨((canonical_texts Sample.documented).1 _).mpr (by decide +kernel),
    ((canonical_texts Sample.documented).2 _).mpr (by decide)⟩

/-- The text of the product of two decimals with a scale in the bound does not read back, and that of the least
duration does not. -/
theorem canonical_texts_lost :
    ¬ CanonicalDecimal Sample.libraries (BigDecimal.mul ⟨1, 16383⟩ ⟨1, 1⟩) ∧
      ¬ CanonicalDuration Sample.libraries ⟨-2 ^ 127, by decide, by decide⟩ := by
  constructor
  · intro canonical
    have wide : ¬ Decimal.Fits (BigDecimal.mul ⟨1, 16383⟩ ⟨1, 1⟩) := by decide +kernel
    exact wide ((canonicalDecimal_iff Sample.documented _).mp canonical)
  · intro canonical
    exact absurd (Duration.above_of_parse canonical.readsBack) (by decide)

end Durations

end Liasse.Wire

/-
This file gives libraries that keep what the libraries of the values document. The integers and decimals are
read as the standard texts.
-/

import Liasse.Wire.Decimal

namespace Liasse.Wire.Sample

section Decimals

/-- The digits of a plain text before and after its point. -/
def readPlain (negative : Bool) (chars : List Char) : Option BigDecimal :=
  let whole := chars.takeWhile (· ≠ '.')
  let fraction := chars.dropWhile (· ≠ '.')
  if IsDigits whole ∧ (fraction = [] ∨ IsDigits fraction.tail) then
    some (plainDecimal negative whole fraction.tail)
  else none

/-- The decimal of a plain text. -/
def parseBigDecimal (text : String) : Option BigDecimal :=
  match text.toList with
  | '-' :: chars => readPlain true chars
  | chars => readPlain false chars

theorem readPlain_digits (negative : Bool) {whole fraction : List Char} (digits : IsDigits whole)
    (rest : ∀ char ∈ fraction, char.isDigit = true) :
    readPlain negative (whole ++ if fraction = [] then [] else '.' :: fraction) =
      some (plainDecimal negative whole fraction) := by
  have before : ∀ char ∈ whole, decide (char ≠ '.') = true := by
    intro char inside
    refine decide_eq_true fun point => ?_
    have digit := digits.2 char inside
    rw [point] at digit
    exact absurd digit (by decide)
  unfold readPlain
  by_cases empty : fraction = []
  · have first : whole.takeWhile (fun char => decide (char ≠ '.')) = whole :=
      List.takeWhile_eq_self_iff.mpr before
    have last : whole.dropWhile (fun char => decide (char ≠ '.')) = [] :=
      List.dropWhile_eq_nil_iff.mpr before
    rw [if_pos empty, List.append_nil, first, last, empty]
    exact if_pos ⟨digits, .inl rfl⟩
  · have first : (whole ++ '.' :: fraction).takeWhile (fun char => decide (char ≠ '.')) = whole := by
      rw [List.takeWhile_append_of_pos before, List.takeWhile_cons_of_neg (by simp), List.append_nil]
    have last : (whole ++ '.' :: fraction).dropWhile (fun char => decide (char ≠ '.')) = '.' :: fraction := by
      rw [List.dropWhile_append_of_pos before, List.dropWhile_cons_of_neg (by simp)]
    rw [if_neg empty, first, last]
    exact if_pos ⟨digits, .inr ⟨empty, rest⟩⟩

/-- A plain text is read as its decimal. -/
theorem parseBigDecimal_plainText (negative : Bool) (whole fraction : List Char) (digits : IsDigits whole)
    (rest : ∀ char ∈ fraction, char.isDigit = true) :
    parseBigDecimal (plainText negative whole fraction) = some (plainDecimal negative whole fraction) := by
  unfold parseBigDecimal plainText
  rw [String.toList_ofList]
  cases negative with
  | true => exact readPlain_digits true digits rest
  | false =>
    obtain ⟨char, others, rfl⟩ := List.exists_cons_of_ne_nil digits.1
    have other : char ≠ '-' := by
      intro minus
      have digit := digits.2 char List.mem_cons_self
      rw [minus] at digit
      exact absurd digit (by decide)
    change (match char :: (others ++ _) with
      | '-' :: chars => readPlain true chars
      | chars => readPlain false chars) = _
    split
    · next same => exact absurd (List.cons.inj same).1 other
    · exact readPlain_digits false digits rest

end Decimals

section Bytes

/-- The text that spells each byte as one character. -/
def byteText (bytes : List UInt8) : String :=
  .ofList (bytes.map fun byte => Char.ofNat byte.toNat)

/-- The bytes of a text. -/
def textBytes (text : String) : List UInt8 :=
  text.toList.map fun char => UInt8.ofNat char.toNat

theorem textBytes_byteText (bytes : List UInt8) : textBytes (byteText bytes) = bytes := by
  rw [textBytes, byteText, String.toList_ofList, List.map_map]
  refine (List.map_congr_left fun byte _ => ?_).trans (List.map_id bytes)
  have small : byte.toNat < 256 := byte.toNat_lt
  have valid : byte.toNat.isValidChar := .inl (by omega)
  change UInt8.ofNat (Char.ofNat byte.toNat).toNat = byte
  rw [Char.toNat_ofNat, if_pos valid, UInt8.ofNat_toNat]

/-- The identifier of sixteen bytes. -/
def parseUuid (text : String) : Option Uuid :=
  if size : (textBytes text).length = 16 then some ⟨textBytes text, size⟩ else none

theorem parseUuid_byteText (uuid : Uuid) : parseUuid (byteText uuid.bytes) = some uuid := by
  obtain ⟨bytes, size⟩ := uuid
  have read : textBytes (byteText bytes) = bytes := textBytes_byteText bytes
  have whole : (textBytes (byteText bytes)).length = 16 := read.symm ▸ size
  rw [parseUuid, dif_pos whole, Option.some.injEq, Uuid.mk.injEq]
  exact read

end Bytes

section Dates

/-- The number of a date. -/
def dateNumber (date : Date) : Int :=
  date.year * 512 + date.month * 32 + date.day

/-- The date of a number, if the date exists. -/
def dateOf (number : Int) : Option Date :=
  let year := number / 512
  let month := (number % 512 / 32).toNat
  let day := (number % 32).toNat
  if range : (-9999 ≤ year ∧ year ≤ 9999) ∧ (1 ≤ month ∧ month ≤ 12) ∧ (1 ≤ day ∧ day ≤ 31) then
    let date : Date := ⟨year, month, day, range.1.1, range.1.2, range.2.1, range.2.2⟩
    if DateExists date then some date else none
  else none

def dateText (date : Date) : String :=
  integerText (dateNumber date)

def parseDate (text : String) : Option Date :=
  (parseInteger text).bind dateOf

theorem dateOf_dateNumber {date : Date} (here : DateExists date) : dateOf (dateNumber date) = some date := by
  obtain ⟨year, month, day, yearLow, yearHigh, monthRange, dayRange⟩ := date
  have first : (year * 512 + month * 32 + day) / 512 = year := by omega
  have second : ((year * 512 + month * 32 + day) % 512 / 32).toNat = month := by omega
  have third : ((year * 512 + month * 32 + day) % 32).toNat = day := by omega
  unfold dateOf dateNumber
  simp only [first, second, third]
  rw [dif_pos ⟨⟨yearLow, yearHigh⟩, monthRange, dayRange⟩]
  exact if_pos here

theorem exists_of_dateOf {number : Int} {date : Date} (read : dateOf number = some date) : DateExists date := by
  unfold dateOf at read
  dsimp only at read
  split at read
  · split at read
    · next here => exact Option.some.inj read ▸ here
    · cases read
  · cases read

end Dates

/-- The sample libraries. -/
def libraries : Libraries where
  parseBigInt := parseInteger
  parseBigDecimal := parseBigDecimal
  toBase64 := byteText
  fromBase64 text := .ok (textBytes text)
  toHex := byteText
  fromHex text := .ok (textBytes text)
  uuidText uuid := byteText uuid.bytes
  parseUuid := parseUuid
  dateText := dateText
  parseDate := parseDate

/-- The sample libraries keep what the libraries document. -/
theorem documented : libraries.Documented where
  bigInt := parseInteger_integerText
  bigDecimal := parseBigDecimal_plainText
  base64 bytes := congrArg Except.ok (textBytes_byteText bytes)
  hex bytes := congrArg Except.ok (textBytes_byteText bytes)
  uuid := parseUuid_byteText
  date date here := by
    change (parseInteger (integerText (dateNumber date))).bind dateOf = some date
    rw [parseInteger_integerText]
    exact dateOf_dateNumber here
  dateExists text date read := by
    obtain ⟨number, _, found⟩ := Option.bind_eq_some_iff.mp read
    exact exists_of_dateOf found

end Liasse.Wire.Sample

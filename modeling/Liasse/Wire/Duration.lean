/-
This file models the text of a duration: the canonical text with its days, hours, minutes and seconds, and the scanner
that reads such a text.
-/

import Liasse.Codes.Listing
import Liasse.Codes.Related
import Liasse.Expr.Operators
import Liasse.Wire.Decimal

namespace Liasse.Wire.Duration

open Codes

section Printing

def nanosPerSecond : Nat :=
  1000000000

def nanosPerMinute : Nat :=
  60 * nanosPerSecond

def nanosPerHour : Nat :=
  60 * nanosPerMinute

def nanosPerDay : Nat :=
  24 * nanosPerHour

/-- A component that is not zero has its count and its unit. -/
def component (count : Nat) (unit : Char) : List Char :=
  if count > 0 then Nat.toDigits 10 count ++ [unit] else []

/-- The nine digits of the nanoseconds of a second. -/
def nineDigits (fraction : Nat) : List Char :=
  List.replicate (9 - (Nat.toDigits 10 fraction).length) '0' ++ Nat.toDigits 10 fraction

/-- The digits of a fraction without the zeros at their end. -/
def trimmed (fraction : Nat) : List Char :=
  (nineDigits fraction).rdropWhile (· == '0')

/-- The seconds have a fraction when it is not zero. -/
def secondsText (seconds fraction : Nat) : List Char :=
  if seconds > 0 ∨ fraction > 0 then
    Nat.toDigits 10 seconds ++ (if fraction = 0 then [] else '.' :: trimmed fraction) ++ ['S']
  else []

/-- The components of a magnitude from the largest to the smallest. -/
def magnitudeText (nanos : Nat) : List Char :=
  let days := nanos / nanosPerDay
  let inDay := nanos % nanosPerDay
  let hours := inDay / nanosPerHour
  let inHour := inDay % nanosPerHour
  let minutes := inHour / nanosPerMinute
  let inMinute := inHour % nanosPerMinute
  let seconds := inMinute / nanosPerSecond
  let fraction := inMinute % nanosPerSecond
  component days 'D' ++
    if hours > 0 ∨ minutes > 0 ∨ seconds > 0 ∨ fraction > 0 then
      'T' :: (component hours 'H' ++ (component minutes 'M' ++ secondsText seconds fraction))
    else []

/-- The canonical text of a duration. -/
def toCanonicalText (duration : Signed 128) : String :=
  if duration.val = 0 then "PT0S"
  else .ofList (signText (duration.val < 0) ++ 'P' :: magnitudeText duration.val.natAbs)

end Printing

section Scanning

/-- A single-pass reader of a duration. -/
structure Scanner where
  text : String
  rest : List Char
  nanos : Signed 128
  sawComponent : Bool
  inTime : Bool

def Scanner.malformed (scanner : Scanner) (reason : String) : ValueError :=
  .malformedDuration scanner.text reason

/-- A result that is there, or a malformed duration. -/
def Scanner.orMalformed {α : Type} (scanner : Scanner) (reason : String) :
    Option α → Except ValueError α
  | some value => .ok value
  | none => .error (scanner.malformed reason)

/-- A number in the range of the machine integer. -/
def checked (number : Int) : Option (Signed 128) :=
  if range : -2 ^ (128 - 1) ≤ number ∧ number < 2 ^ (128 - 1) then some ⟨number, range.1, range.2⟩
  else none

/-- The nanoseconds of a unit. The month of a calendar and the minute of a day have one letter. -/
def Scanner.unitScale (scanner : Scanner) (unit : Char) : Except ValueError Nat :=
  if scanner.inTime then
    if unit = 'H' then .ok nanosPerHour
    else if unit = 'M' then .ok nanosPerMinute
    else if unit = 'S' then .ok nanosPerSecond
    else .error (scanner.malformed "unexpected unit designator")
  else if unit = 'D' then .ok nanosPerDay
  else if ['Y', 'M', 'W'].contains unit then .error (.calendarInFixedPeriod scanner.text)
  else .error (scanner.malformed "unexpected unit designator")

/-- The nanoseconds of the digits of a fraction. -/
def Scanner.fractionNanos (scanner : Scanner) (fraction : List Char) : Except ValueError Int :=
  if fraction = [] then .ok 0
  else
    (scanner.orMalformed "fractional seconds are not numeric"
      (parseSigned 128 (.ofList (fraction ++ List.replicate (9 - fraction.length) '0')))).map Signed.val

/-- The sum with whole seconds and with the nanoseconds of a fraction. -/
def Scanner.sumSeconds (scanner : Scanner) (whole : Signed 128) (fraction : Int) (perUnit : Nat) :
    Except ValueError (Signed 128) := do
  let seconds ← scanner.orMalformed "seconds overflow the representable range" (checked (whole.val * perUnit))
  scanner.orMalformed "duration overflows the representable range"
    ((checked (scanner.nanos.val + seconds.val)).bind fun sum => checked (sum.val + fraction))

/-- Seconds may have a fraction of at most nine digits. -/
def Scanner.addSeconds (scanner : Scanner) (number : List Char) (perUnit : Nat) :
    Except ValueError (Signed 128) :=
  if (number.dropWhile (· ≠ '.')).tail.length > 9 then
    .error (scanner.malformed "fractional seconds finer than nanoseconds")
  else do
    let whole ← scanner.orMalformed "seconds value is not an integer"
      (parseSigned 128 (.ofList (number.takeWhile (· ≠ '.'))))
    let fraction ← scanner.fractionNanos (number.dropWhile (· ≠ '.')).tail
    scanner.sumSeconds whole fraction perUnit

/-- Only whole counts stand before other units. -/
def Scanner.addWhole (scanner : Scanner) (number : List Char) (perUnit : Nat) :
    Except ValueError (Signed 128) := do
  if '.' ∈ number then
    .error (scanner.malformed "only the seconds component may be fractional")
  else
    let magnitude ← scanner.orMalformed "component magnitude is not an integer"
      (parseSigned 128 (.ofList number))
    let product ← scanner.orMalformed "duration magnitude overflows the representable range"
      (checked (magnitude.val * perUnit))
    scanner.orMalformed "duration overflows the representable range"
      (checked (scanner.nanos.val + product.val))

/-- The sum with a component. -/
def Scanner.add (scanner : Scanner) (unit : Char) (number : List Char) (perUnit : Nat) :
    Except ValueError (Signed 128) :=
  if unit = 'S' then scanner.addSeconds number perUnit else scanner.addWhole number perUnit

/-- The characters of a count. -/
def counting (char : Char) : Bool :=
  char.isDigit || char == '.'

/-- The characters after a component. -/
def Scanner.afterUnit (scanner : Scanner) : List Char :=
  (scanner.rest.dropWhile counting).tail

/-- A component is a count and its unit. -/
def Scanner.consumeComponent (scanner : Scanner) : Except ValueError Scanner :=
  match (scanner.rest.dropWhile counting).head? with
  | none => .error (scanner.malformed "number without a unit designator")
  | some unit => do
      let number := scanner.rest.takeWhile counting
      let moved := { scanner with rest := scanner.afterUnit }
      let perUnit ← moved.unitScale unit
      let nanos ← moved.add unit number perUnit
      pure { moved with nanos := nanos, sawComponent := true }

/-- The scanner reads components to the end of the text. The fuel is the length of the text. -/
def Scanner.loop : Nat → Scanner → Except ValueError Scanner
  | 0, scanner => .ok scanner
  | fuel + 1, scanner =>
    match scanner.rest with
    | [] => .ok scanner
    | 'T' :: rest =>
      if scanner.inTime then .error (scanner.malformed "duplicate `T` time separator")
      else loop fuel { scanner with rest := rest, inTime := true }
    | _ => do loop fuel (← scanner.consumeComponent)

/-- A leading sign and the rest of a text. -/
def splitSign : List Char → Bool × List Char
  | '-' :: chars => (true, chars)
  | '+' :: chars => (false, chars)
  | chars => (false, chars)

/-- The duration of some components. -/
def parseComponents (text : String) (negative : Bool) (rest : List Char) :
    Except ValueError (Signed 128) := do
  let scanner ← Scanner.loop rest.length ⟨text, rest, wrapTicks 0, false, false⟩
  if scanner.sawComponent then
    pure (if negative then wrapTicks (-scanner.nanos.val) else scanner.nanos)
  else .error (.malformedDuration text "duration has no components")

/-- The parse of a duration. -/
def parse (text : String) : Except ValueError (Signed 128) :=
  match splitSign text.toList with
  | (negative, 'P' :: rest) => parseComponents text negative rest
  | _ => .error (.malformedDuration text "missing `P` designator")

end Scanning

section Counts

/-- A count in the range is kept as it is. -/
theorem wrapTicks_val {ticks : Int} (low : -2 ^ 127 ≤ ticks) (high : ticks < 2 ^ 127) :
    (wrapTicks ticks).val = ticks := by
  change Int.bmod ticks (2 ^ 128) = ticks
  rw [Int.bmod_eq_of_le]
  · norm_num
    omega
  · norm_num
    omega

theorem wrapTicks_self (ticks : Signed 128) : wrapTicks ticks.val = ticks := by
  have value := wrapTicks_val ticks.low ticks.high
  obtain ⟨kept, _, _⟩ := ticks
  generalize wrapTicks kept = wrapped at value
  obtain ⟨number, _, _⟩ := wrapped
  obtain rfl : number = kept := value
  rfl

theorem checked_eq {number : Nat} (small : number < 2 ^ 127) : checked number = some (wrapTicks number) := by
  have range : -2 ^ (128 - 1) ≤ (number : Int) ∧ (number : Int) < 2 ^ (128 - 1) := by
    norm_num
    omega
  rw [checked, dif_pos range]
  exact congrArg some (wrapTicks_self ⟨number, range.1, range.2⟩).symm

theorem counting_of_isDigit {char : Char} (digit : char.isDigit = true) : counting char = true := by
  rw [counting, digit, Bool.true_or]

/-- The parse of some digits is their number. -/
theorem parseSigned_digits {chars : List Char} (digits : IsDigits chars)
    (small : Nat.ofDigitChars 10 chars 0 < 2 ^ 127) :
    parseSigned 128 (.ofList chars) = some (wrapTicks (Nat.ofDigitChars 10 chars 0)) := by
  have read : parseInteger (.ofList chars) = some (Nat.ofDigitChars 10 chars 0 : Int) := by
    obtain ⟨plus, minus⟩ := digits.unsigned
    unfold parseInteger
    rw [String.toList_ofList]
    split
    · exact absurd rfl minus
    · rw [plus, parseDigits, if_pos digits]
      rfl
  rw [parseSigned, read]
  exact checked_eq small

end Counts

section Steps

/-- The scanner comes from one state to another. -/
def Reads (first second : Scanner) : Prop :=
  ∀ fuel, first.rest.length ≤ fuel →
    ∃ left, second.rest.length ≤ left ∧ Scanner.loop fuel first = Scanner.loop left second

theorem Reads.refl (scanner : Scanner) : Reads scanner scanner :=
  fun fuel enough => ⟨fuel, enough, rfl⟩

theorem Reads.trans {first second third : Scanner} (near : Reads first second) (far : Reads second third) :
    Reads first third := by
  intro fuel enough
  obtain ⟨left, more, same⟩ := near fuel enough
  obtain ⟨last, rest, equal⟩ := far left more
  exact ⟨last, rest, same.trans equal⟩

/-- The separator of the time is read once. -/
theorem reads_time (text : String) (rest : List Char) (nanos : Signed 128) (saw : Bool) :
    Reads ⟨text, 'T' :: rest, nanos, saw, false⟩ ⟨text, rest, nanos, saw, true⟩ := by
  intro fuel enough
  cases fuel with
  | zero => exact absurd enough (Nat.not_succ_le_zero _)
  | succ fuel => exact ⟨fuel, Nat.le_of_succ_le_succ enough, rfl⟩

/-- A count and its unit are read in one step. -/
theorem reads_unit {text : String} {number rest : List Char} {unit : Char} {perUnit : Nat}
    {nanos result : Signed 128} {saw inTime : Bool} (counts : ∀ char ∈ number, counting char = true)
    (first : ∀ char ∈ number.head?, char ≠ 'T') (some : number ≠ []) (plain : counting unit = false)
    (scale : Scanner.unitScale ⟨text, rest, nanos, saw, inTime⟩ unit = .ok perUnit)
    (added : Scanner.add ⟨text, rest, nanos, saw, inTime⟩ unit number perUnit = .ok result) :
    Reads ⟨text, number ++ unit :: rest, nanos, saw, inTime⟩ ⟨text, rest, result, true, inTime⟩ := by
  intro fuel enough
  obtain ⟨head, others, rfl⟩ := List.exists_cons_of_ne_nil some
  have before : (head :: others ++ unit :: rest).takeWhile counting = head :: others := by
    rw [List.takeWhile_append_of_pos counts, List.takeWhile_cons_of_neg (by rw [plain]; decide), List.append_nil]
  have after : (head :: others ++ unit :: rest).dropWhile counting = unit :: rest := by
    rw [List.dropWhile_append_of_pos counts, List.dropWhile_cons_of_neg (by rw [plain]; decide)]
  have consumed : Scanner.consumeComponent ⟨text, head :: others ++ unit :: rest, nanos, saw, inTime⟩ =
      .ok ⟨text, rest, result, true, inTime⟩ := by
    unfold Scanner.consumeComponent Scanner.afterUnit
    simp only [before, after, List.head?_cons, List.tail_cons]
    rw [scale, ok_bind, added]
    rfl
  cases fuel with
  | zero => exact absurd enough (Nat.not_succ_le_zero _)
  | succ fuel =>
    refine ⟨fuel, ?_, ?_⟩
    · simp only [List.length_append, List.length_cons] at enough ⊢
      omega
    · have other : head ≠ 'T' := first head rfl
      change (match head :: (others ++ unit :: rest) with
        | [] => _
        | 'T' :: rest => _
        | _ => _) = _
      split
      · next same => cases same
      · next same => exact absurd (List.cons.inj same).1 other
      · change (Scanner.consumeComponent ⟨text, head :: others ++ unit :: rest, nanos, saw, inTime⟩ >>=
          fun scanner => Scanner.loop fuel scanner) = _
        rw [consumed]
        rfl

/-- A whole component adds its nanoseconds. -/
theorem reads_component {text : String} {rest : List Char} {unit : Char} {total count perUnit : Nat}
    {saw inTime : Bool} (plain : counting unit = false) (whole : unit ≠ 'S')
    (scale : ∀ nanos, Scanner.unitScale ⟨text, rest, nanos, saw, inTime⟩ unit = .ok perUnit)
    (small : total + count * perUnit < 2 ^ 127) (positive : 0 < perUnit) :
    Reads ⟨text, component count unit ++ rest, wrapTicks total, saw, inTime⟩
      ⟨text, rest, wrapTicks ((total + count * perUnit : Nat) : Int), saw || decide (count > 0), inTime⟩ := by
  unfold component
  by_cases zero : count > 0
  · have digits := toDigits_isDigits count
    have read := Nat.ofDigitChars_ten_toDigits (n := count)
    have enough : count ≤ count * perUnit := Nat.le_mul_of_pos_right count positive
    rw [if_pos zero, decide_eq_true zero, Bool.or_true, List.append_assoc, List.singleton_append]
    refine reads_unit (fun char inside => counting_of_isDigit (digits.2 char inside)) ?_ digits.1 plain
      (scale _) ?_
    · intro char inside same
      have digit := digits.2 char (List.mem_of_mem_head? inside)
      rw [same] at digit
      exact absurd digit (by decide)
    · have point : '.' ∉ Nat.toDigits 10 count := fun inside => absurd (digits.2 _ inside) (by decide)
      have magnitude : (wrapTicks (count : Int)).val = count := wrapTicks_val (by omega) (by omega)
      have sum : (wrapTicks (total : Int)).val = total := wrapTicks_val (by omega) (by omega)
      have product : (wrapTicks ((count * perUnit : Nat) : Int)).val = ((count * perUnit : Nat) : Int) :=
        wrapTicks_val (by omega) (by omega)
      rw [Scanner.add, if_neg whole, Scanner.addWhole, if_neg point,
        parseSigned_digits digits (by rw [read]; omega), read, Scanner.orMalformed, ok_bind, magnitude,
        ← Nat.cast_mul, checked_eq (by omega), Scanner.orMalformed, ok_bind, sum, product, ← Nat.cast_add,
        checked_eq small, Scanner.orMalformed]
  · obtain rfl : count = 0 := by omega
    rw [if_neg zero, decide_eq_false zero, Bool.or_false, List.nil_append, Nat.zero_mul, Nat.add_zero]
    exact .refl _

end Steps

section Seconds

theorem length_nineDigits {fraction : Nat} (small : fraction < nanosPerSecond) :
    (nineDigits fraction).length = 9 := by
  have digits : (Nat.toDigits 10 fraction).length ≤ 9 :=
    (Nat.length_toDigits_le_iff (by decide) (by decide)).mpr small
  rw [nineDigits, List.length_append, List.length_replicate]
  omega

theorem isDigit_nineDigits {fraction : Nat} : ∀ char ∈ nineDigits fraction, char.isDigit = true := by
  intro char inside
  rcases List.mem_append.mp inside with zero | digit
  · exact Decimal.isDigit_replicate zero
  · exact (toDigits_isDigits fraction).2 char digit

theorem ofDigitChars_nineDigits (fraction : Nat) : Nat.ofDigitChars 10 (nineDigits fraction) 0 = fraction := by
  rw [nineDigits, Decimal.ofDigitChars_zeros, Nat.ofDigitChars_ten_toDigits]

/-- The zeros at the end of a list come back when the list is filled to its length. -/
theorem rdropWhile_fill (chars : List Char) :
    chars.rdropWhile (· == '0') ++
      List.replicate (chars.length - (chars.rdropWhile (· == '0')).length) '0' = chars := by
  induction chars using List.reverseRecOn with
  | nil => rfl
  | append_singleton chars char ih =>
    by_cases zero : (char == '0') = true
    · have shorter : (chars.rdropWhile (· == '0')).length ≤ chars.length :=
        (List.rdropWhile_prefix _ _).length_le
      have count : chars.length + 1 - (chars.rdropWhile (· == '0')).length =
          chars.length - (chars.rdropWhile (· == '0')).length + 1 := by omega
      rw [List.rdropWhile_concat_pos (· == '0') _ _ zero, List.length_append, List.length_singleton, count,
        List.replicate_succ', ← List.append_assoc, ih, eq_of_beq zero]
    · rw [List.rdropWhile_concat_neg (· == '0') _ _ zero, Nat.sub_self, List.replicate_zero, List.append_nil]

/-- The digits of a fraction that is not zero. -/
theorem trimmed_digits {fraction : Nat} (nonzero : fraction ≠ 0) : IsDigits (trimmed fraction) := by
  refine ⟨fun empty => nonzero ?_, fun char inside =>
    isDigit_nineDigits char ((List.rdropWhile_prefix _ _).subset inside)⟩
  have filled := rdropWhile_fill (nineDigits fraction)
  change trimmed fraction ++ _ = _ at filled
  rw [empty, List.nil_append] at filled
  rw [← ofDigitChars_nineDigits fraction, ← filled, Nat.ofDigitChars_replicate_zero, mul_zero]

/-- The filled digits of a fraction are read as the fraction. -/
theorem parseSigned_trimmed {fraction : Nat} (small : fraction < nanosPerSecond) :
    parseSigned 128 (.ofList (trimmed fraction ++ List.replicate (9 - (trimmed fraction).length) '0')) =
      some (wrapTicks fraction) := by
  have filled := rdropWhile_fill (nineDigits fraction)
  rw [length_nineDigits small] at filled
  change trimmed fraction ++ List.replicate (9 - (trimmed fraction).length) '0' = _ at filled
  have digits : IsDigits (nineDigits fraction) := by
    refine ⟨fun empty => ?_, isDigit_nineDigits⟩
    have size := length_nineDigits small
    rw [empty] at size
    cases size
  have bound : fraction < 2 ^ 127 := small.trans (by decide)
  rw [filled, parseSigned_digits digits (by rwa [ofDigitChars_nineDigits]), ofDigitChars_nineDigits]

theorem length_trimmed {fraction : Nat} (small : fraction < nanosPerSecond) :
    ¬ (trimmed fraction).length > 9 := by
  have shorter : (trimmed fraction).length ≤ (nineDigits fraction).length :=
    (List.rdropWhile_prefix _ _).length_le
  rw [length_nineDigits small] at shorter
  exact not_lt.mpr shorter

/-- The seconds and their fraction are added. -/
theorem addSeconds_text {text : String} {rest : List Char} {total seconds fraction : Nat} {saw inTime : Bool}
    (below : fraction < nanosPerSecond) (small : total + seconds * nanosPerSecond + fraction < 2 ^ 127) :
    Scanner.addSeconds ⟨text, rest, wrapTicks total, saw, inTime⟩
      (Nat.toDigits 10 seconds ++ if fraction = 0 then [] else '.' :: trimmed fraction) nanosPerSecond =
        .ok (wrapTicks ((total + seconds * nanosPerSecond + fraction : Nat) : Int)) := by
  have digits := toDigits_isDigits seconds
  have read := Nat.ofDigitChars_ten_toDigits (n := seconds)
  have before : ∀ char ∈ Nat.toDigits 10 seconds, decide (char ≠ '.') = true := by
    intro char inside
    refine decide_eq_true fun point => ?_
    have digit := digits.2 char inside
    rw [point] at digit
    exact absurd digit (by decide)
  have enough : seconds ≤ seconds * nanosPerSecond := Nat.le_mul_of_pos_right seconds (by decide)
  have whole : parseSigned 128 (.ofList (Nat.toDigits 10 seconds)) = some (wrapTicks (seconds : Int)) := by
    rw [parseSigned_digits digits (by rw [read]; omega), read]
  have productSmall : seconds * nanosPerSecond < 2 ^ 127 := by omega
  have sumSmall : total + seconds * nanosPerSecond < 2 ^ 127 := by omega
  have secondsVal : (wrapTicks (seconds : Int)).val = seconds := wrapTicks_val (by omega) (by omega)
  have totalVal : (wrapTicks (total : Int)).val = total := wrapTicks_val (by omega) (by omega)
  have productVal : (wrapTicks ((seconds * nanosPerSecond : Nat) : Int)).val =
      ((seconds * nanosPerSecond : Nat) : Int) := wrapTicks_val (by omega) (by omega)
  have sumVal : (wrapTicks ((total + seconds * nanosPerSecond : Nat) : Int)).val =
      ((total + seconds * nanosPerSecond : Nat) : Int) := wrapTicks_val (by omega) (by omega)
  have fractionVal : (wrapTicks (fraction : Int)).val = fraction := wrapTicks_val (by omega) (by omega)
  have sums : Scanner.sumSeconds ⟨text, rest, wrapTicks total, saw, inTime⟩ (wrapTicks (seconds : Int))
      (fraction : Int) nanosPerSecond =
        .ok (wrapTicks ((total + seconds * nanosPerSecond + fraction : Nat) : Int)) := by
    rw [Scanner.sumSeconds, secondsVal, ← Nat.cast_mul, checked_eq productSmall, Scanner.orMalformed, ok_bind,
      totalVal, productVal, ← Nat.cast_add, checked_eq sumSmall, Option.bind_some, sumVal, ← Nat.cast_add,
      checked_eq small, Scanner.orMalformed]
  unfold Scanner.addSeconds
  by_cases zero : fraction = 0
  · have first : (Nat.toDigits 10 seconds).takeWhile (fun char => decide (char ≠ '.')) =
        Nat.toDigits 10 seconds := List.takeWhile_eq_self_iff.mpr before
    have last : (Nat.toDigits 10 seconds).dropWhile (fun char => decide (char ≠ '.')) = [] :=
      List.dropWhile_eq_nil_iff.mpr before
    rw [if_pos zero, List.append_nil, first, last, List.tail_nil, if_neg (by decide), whole,
      Scanner.orMalformed, ok_bind, Scanner.fractionNanos, if_pos rfl, ok_bind]
    rw [zero] at sums ⊢
    exact sums
  · have first : (Nat.toDigits 10 seconds ++ '.' :: trimmed fraction).takeWhile
        (fun char => decide (char ≠ '.')) = Nat.toDigits 10 seconds := by
      rw [List.takeWhile_append_of_pos before, List.takeWhile_cons_of_neg (by simp), List.append_nil]
    have last : (Nat.toDigits 10 seconds ++ '.' :: trimmed fraction).dropWhile
        (fun char => decide (char ≠ '.')) = '.' :: trimmed fraction := by
      rw [List.dropWhile_append_of_pos before, List.dropWhile_cons_of_neg (by simp)]
    have read : Scanner.fractionNanos ⟨text, rest, wrapTicks total, saw, inTime⟩ (trimmed fraction) =
        .ok (fraction : Int) := by
      rw [Scanner.fractionNanos, if_neg (trimmed_digits zero).1, parseSigned_trimmed below,
        Scanner.orMalformed]
      exact congrArg Except.ok fractionVal
    rw [if_neg zero, first, last, List.tail_cons, if_neg (length_trimmed below), whole, Scanner.orMalformed,
      ok_bind, read, ok_bind]
    exact sums

/-- The text of the seconds adds them. -/
theorem reads_seconds {text : String} {total seconds fraction : Nat} {saw : Bool}
    (below : fraction < nanosPerSecond) (small : total + seconds * nanosPerSecond + fraction < 2 ^ 127) :
    Reads ⟨text, secondsText seconds fraction, wrapTicks total, saw, true⟩
      ⟨text, [], wrapTicks ((total + seconds * nanosPerSecond + fraction : Nat) : Int),
        saw || decide (seconds > 0 ∨ fraction > 0), true⟩ := by
  unfold secondsText
  by_cases some : seconds > 0 ∨ fraction > 0
  · have digits := toDigits_isDigits seconds
    rw [if_pos some, decide_eq_true some, Bool.or_true]
    refine reads_unit (fun char inside => ?_) ?_ ?_ rfl rfl ((if_pos rfl).trans (addSeconds_text below small))
    · rcases List.mem_append.mp inside with digit | rest
      · exact counting_of_isDigit (digits.2 char digit)
      · split at rest
        · cases rest
        · next nonzero =>
            rcases List.mem_cons.mp rest with rfl | digit
            · rfl
            · exact counting_of_isDigit ((trimmed_digits nonzero).2 char digit)
    · intro char inside same
      obtain ⟨head, others, cons⟩ := List.exists_cons_of_ne_nil digits.1
      rw [cons] at inside
      obtain rfl : head = char := Option.some.inj inside
      have digit := digits.2 head (cons ▸ List.mem_cons_self)
      rw [same] at digit
      exact absurd digit (by decide)
    · exact fun empty => digits.1 (List.append_eq_nil_iff.mp empty).1
  · obtain ⟨rfl, rfl⟩ : seconds = 0 ∧ fraction = 0 := by omega
    rw [if_neg some, decide_eq_false some, Bool.or_false, Nat.zero_mul, Nat.add_zero]
    exact .refl _

end Seconds

section Parse

/-- The scanner at the end of a text stops. -/
theorem loop_end (fuel : Nat) {scanner : Scanner} (ended : scanner.rest = []) :
    Scanner.loop fuel scanner = .ok scanner := by
  cases fuel with
  | zero => rfl
  | succ fuel => rw [Scanner.loop, ended]

/-- The components of a magnitude add up to it. -/
theorem split_magnitude (nanos : Nat) :
    nanos / nanosPerDay * nanosPerDay + nanos % nanosPerDay / nanosPerHour * nanosPerHour +
      nanos % nanosPerDay % nanosPerHour / nanosPerMinute * nanosPerMinute +
        nanos % nanosPerDay % nanosPerHour % nanosPerMinute / nanosPerSecond * nanosPerSecond +
          nanos % nanosPerDay % nanosPerHour % nanosPerMinute % nanosPerSecond = nanos := by
  have day := Nat.div_add_mod' nanos nanosPerDay
  have hour := Nat.div_add_mod' (nanos % nanosPerDay) nanosPerHour
  have minute := Nat.div_add_mod' (nanos % nanosPerDay % nanosPerHour) nanosPerMinute
  have second := Nat.div_add_mod' (nanos % nanosPerDay % nanosPerHour % nanosPerMinute) nanosPerSecond
  omega

/-- The time components of a magnitude are read after the separator. -/
theorem reads_timeOfDay (text : String) (saw : Bool) {total hours minutes seconds fraction : Nat}
    (below : fraction < nanosPerSecond)
    (small : total + hours * nanosPerHour + minutes * nanosPerMinute + seconds * nanosPerSecond + fraction <
      2 ^ 127) :
    Reads ⟨text, component hours 'H' ++ (component minutes 'M' ++ secondsText seconds fraction),
        wrapTicks total, saw, true⟩
      ⟨text, [], wrapTicks ((total + hours * nanosPerHour + minutes * nanosPerMinute +
          seconds * nanosPerSecond + fraction : Nat) : Int),
        saw || decide (hours > 0) || decide (minutes > 0) || decide (seconds > 0 ∨ fraction > 0), true⟩ := by
  have hourSmall : total + hours * nanosPerHour < 2 ^ 127 := by omega
  have minuteSmall : total + hours * nanosPerHour + minutes * nanosPerMinute < 2 ^ 127 := by omega
  have hour : Reads
      ⟨text, component hours 'H' ++ (component minutes 'M' ++ secondsText seconds fraction), wrapTicks total,
        saw, true⟩
      ⟨text, component minutes 'M' ++ secondsText seconds fraction,
        wrapTicks ((total + hours * nanosPerHour : Nat) : Int), saw || decide (hours > 0), true⟩ :=
    reads_component rfl (by decide) (fun _ => rfl) hourSmall (by decide)
  have minute : Reads
      ⟨text, component minutes 'M' ++ secondsText seconds fraction,
        wrapTicks ((total + hours * nanosPerHour : Nat) : Int), saw || decide (hours > 0), true⟩
      ⟨text, secondsText seconds fraction,
        wrapTicks ((total + hours * nanosPerHour + minutes * nanosPerMinute : Nat) : Int),
        saw || decide (hours > 0) || decide (minutes > 0), true⟩ :=
    reads_component rfl (by decide) (fun _ => rfl) minuteSmall (by decide)
  exact hour.trans (minute.trans (reads_seconds below small))

/-- The scanner reads the text of a magnitude. -/
theorem reads_magnitude (text : String) {nanos : Nat} (positive : 0 < nanos) (small : nanos < 2 ^ 127) :
    ∃ inTime, Reads ⟨text, magnitudeText nanos, wrapTicks 0, false, false⟩
      ⟨text, [], wrapTicks nanos, true, inTime⟩ := by
  have whole := split_magnitude nanos
  have below : nanos % nanosPerDay % nanosPerHour % nanosPerMinute % nanosPerSecond < nanosPerSecond :=
    Nat.mod_lt _ (by decide)
  unfold magnitudeText
  dsimp only
  generalize nanos / nanosPerDay = days at *
  generalize nanos % nanosPerDay / nanosPerHour = hours at *
  generalize nanos % nanosPerDay % nanosPerHour / nanosPerMinute = minutes at *
  generalize nanos % nanosPerDay % nanosPerHour % nanosPerMinute / nanosPerSecond = seconds at *
  generalize nanos % nanosPerDay % nanosPerHour % nanosPerMinute % nanosPerSecond = fraction at *
  have daySmall : 0 + days * nanosPerDay < 2 ^ 127 := by omega
  have day : ∀ rest, Reads ⟨text, component days 'D' ++ rest, wrapTicks 0, false, false⟩
      ⟨text, rest, wrapTicks ((0 + days * nanosPerDay : Nat) : Int), false || decide (days > 0), false⟩ :=
    fun rest => reads_component rfl (by decide) (fun _ => rfl) daySmall (by decide)
  by_cases timed : hours > 0 ∨ minutes > 0 ∨ seconds > 0 ∨ fraction > 0
  · rw [if_pos timed]
    refine ⟨true, (day _).trans ((reads_time _ _ _ _).trans ?_)⟩
    have range : 0 + days * nanosPerDay + hours * nanosPerHour + minutes * nanosPerMinute +
        seconds * nanosPerSecond + fraction < 2 ^ 127 := by omega
    have time := reads_timeOfDay text (false || decide (days > 0)) below range
    have total : 0 + days * nanosPerDay + hours * nanosPerHour + minutes * nanosPerMinute +
        seconds * nanosPerSecond + fraction = nanos := by omega
    have saw : (false || decide (days > 0) || decide (hours > 0) || decide (minutes > 0) ||
        decide (seconds > 0 ∨ fraction > 0)) = true := by
      simp only [Bool.or_eq_true, decide_eq_true_eq]
      tauto
    rwa [total, saw] at time
  · rw [if_neg timed]
    have total : 0 + days * nanosPerDay = nanos := by
      obtain ⟨rfl, rfl, rfl, rfl⟩ : hours = 0 ∧ minutes = 0 ∧ seconds = 0 ∧ fraction = 0 := by omega
      omega
    have saw : (false || decide (days > 0)) = true := by
      rw [Bool.false_or, decide_eq_true_eq]
      rcases Nat.eq_zero_or_pos days with none | some
      · rw [none, Nat.zero_mul] at total
        omega
      · exact some
    have read := day []
    rw [total, saw] at read
    exact ⟨false, read⟩

/-- The components of a magnitude are read as the magnitude. -/
theorem parseComponents_magnitudeText (text : String) (negative : Bool) {nanos : Nat} (positive : 0 < nanos)
    (small : nanos < 2 ^ 127) :
    parseComponents text negative (magnitudeText nanos) =
      .ok (if negative then wrapTicks (-nanos) else wrapTicks nanos) := by
  obtain ⟨inTime, read⟩ := reads_magnitude text positive small
  obtain ⟨left, _, run⟩ := read _ le_rfl
  rw [loop_end left rfl] at run
  have value : (wrapTicks (nanos : Int)).val = nanos := wrapTicks_val (by omega) (by omega)
  rw [parseComponents, run, ok_bind, if_pos rfl, value]
  rfl

/-- The text of the zero duration is read. -/
theorem parse_zero : parse "PT0S" = .ok (wrapTicks 0) := by
  have below : 0 < nanosPerSecond := by decide
  have small : 0 + 0 * nanosPerSecond + 0 < 2 ^ 127 := by decide
  have added : Scanner.addSeconds ⟨"PT0S", [], wrapTicks (0 : Nat), false, true⟩
      (Nat.toDigits 10 0 ++ if 0 = 0 then [] else '.' :: trimmed 0) nanosPerSecond =
        .ok (wrapTicks ((0 + 0 * nanosPerSecond + 0 : Nat) : Int)) := addSeconds_text below small
  have counts : ∀ char ∈ ['0'], counting char = true := by
    intro char inside
    rw [List.mem_singleton.mp inside]
    rfl
  have first : ∀ char ∈ ['0'].head?, char ≠ 'T' := by
    intro char inside
    rw [← Option.some.inj inside]
    decide
  have unit : Reads ⟨"PT0S", ['0'] ++ 'S' :: [], wrapTicks 0, false, true⟩
      ⟨"PT0S", [], wrapTicks 0, true, true⟩ :=
    reads_unit counts first (List.cons_ne_nil _ _) rfl rfl ((if_pos rfl).trans added)
  obtain ⟨left, _, run⟩ := (reads_time "PT0S" _ _ _).trans unit 3 le_rfl
  rw [loop_end left rfl] at run
  change (Scanner.loop 3 ⟨"PT0S", ['T', '0', 'S'], wrapTicks 0, false, false⟩ >>= _) = _
  exact congrArg (fun answer : Except ValueError Scanner => answer >>= fun scanner =>
    if scanner.sawComponent then
      pure (if false then wrapTicks (-scanner.nanos.val) else scanner.nanos)
    else .error (.malformedDuration "PT0S" "duration has no components")) run

/-- The parse reads the canonical text of each duration above the least machine integer. -/
theorem parse_toCanonicalText {duration : Signed 128} (above : -2 ^ 127 < duration.val) :
    parse (toCanonicalText duration) = .ok duration := by
  have high := duration.high
  have same := wrapTicks_self duration
  unfold toCanonicalText
  by_cases zero : duration.val = 0
  · rw [if_pos zero, parse_zero, ← same, zero]
  · rw [if_neg zero]
    have positive : 0 < duration.val.natAbs := Int.natAbs_pos.mpr zero
    have small : duration.val.natAbs < 2 ^ 127 := by omega
    unfold parse
    rw [String.toList_ofList]
    by_cases negative : duration.val < 0
    · have opposite : -((duration.val.natAbs : Nat) : Int) = duration.val := by omega
      rw [decide_eq_true negative]
      refine (parseComponents_magnitudeText _ true positive small).trans ?_
      rw [if_pos rfl, opposite, same]
    · have itself : ((duration.val.natAbs : Nat) : Int) = duration.val := by omega
      rw [decide_eq_false negative]
      refine (parseComponents_magnitudeText _ false positive small).trans ?_
      rw [if_neg (by decide), itself, same]

theorem checked_val {number : Int} {result : Signed 128} (found : checked number = some result) :
    result.val = number := by
  unfold checked at found
  split at found
  · exact (Option.some.inj found) ▸ rfl
  · cases found

theorem of_orMalformed {α : Type} {scanner : Scanner} {reason : String} {found : Option α} {result : α}
    (kept : scanner.orMalformed reason found = .ok result) : found = some result := by
  cases found with
  | none => cases kept
  | some value => exact congrArg some (Except.ok.inj kept)

/-- A count without a sign is not negative. -/
theorem parseSigned_nonneg {chars : List Char} {result : Signed 128}
    (counts : ∀ char ∈ chars, counting char = true)
    (read : parseSigned 128 (.ofList chars) = some result) : 0 ≤ result.val := by
  unfold parseSigned parseInteger at read
  rw [String.toList_ofList] at read
  split at read
  · cases read
  · next number found =>
      have positive : 0 ≤ number := by
        split at found
        · have minus := counts '-' List.mem_cons_self
          exact absurd minus (by decide)
        · obtain ⟨count, _, rfl⟩ := Option.map_eq_some_iff.mp found
          exact Int.natCast_nonneg count
      split at read
      · exact Option.some.inj read ▸ positive
      · cases read

/-- A component does not lower the sum. -/
theorem add_nonneg {scanner : Scanner} {unit : Char} {number : List Char} {perUnit : Nat}
    {result : Signed 128} (counts : ∀ char ∈ number, counting char = true)
    (added : scanner.add unit number perUnit = .ok result) (start : 0 ≤ scanner.nanos.val) :
    0 ≤ result.val := by
  unfold Scanner.add at added
  split at added
  · unfold Scanner.addSeconds at added
    split at added
    · cases added
    · obtain ⟨whole, first, rest⟩ := bind_ok.mp added
      obtain ⟨fraction, second, summed⟩ := bind_ok.mp rest
      have wholeNonneg : 0 ≤ whole.val :=
        parseSigned_nonneg (fun char inside => counts char (List.takeWhile_subset _ inside))
          (of_orMalformed first)
      have fractionNonneg : 0 ≤ fraction := by
        unfold Scanner.fractionNanos at second
        split at second
        · exact (Except.ok.inj second).le
        · obtain ⟨read, parsed, rfl⟩ := map_ok.mp second
          refine parseSigned_nonneg (fun char inside => ?_) (of_orMalformed parsed)
          rcases List.mem_append.mp inside with digit | zero
          · exact counts char ((List.dropWhile_subset _) (List.mem_of_mem_tail digit))
          · exact counting_of_isDigit (Decimal.isDigit_replicate zero)
      obtain ⟨seconds, product, total⟩ := bind_ok.mp summed
      obtain ⟨sum, partly, last⟩ := Option.bind_eq_some_iff.mp (of_orMalformed total)
      have secondsNonneg : 0 ≤ seconds.val := by
        rw [checked_val (of_orMalformed product)]
        positivity
      rw [checked_val last, checked_val partly]
      omega
  · unfold Scanner.addWhole at added
    split at added
    · cases added
    · obtain ⟨magnitude, first, rest⟩ := bind_ok.mp added
      obtain ⟨product, scaled, total⟩ := bind_ok.mp rest
      have magnitudeNonneg : 0 ≤ magnitude.val := parseSigned_nonneg counts (of_orMalformed first)
      have productNonneg : 0 ≤ product.val := by
        rw [checked_val (of_orMalformed scaled)]
        positivity
      rw [checked_val (of_orMalformed total)]
      omega

theorem consumeComponent_nonneg {first second : Scanner} (read : first.consumeComponent = .ok second)
    (start : 0 ≤ first.nanos.val) : 0 ≤ second.nanos.val := by
  unfold Scanner.consumeComponent at read
  split at read
  · cases read
  · obtain ⟨perUnit, _, rest⟩ := bind_ok.mp read
    obtain ⟨nanos, added, last⟩ := bind_ok.mp rest
    obtain rfl := Except.ok.inj last
    exact add_nonneg (fun _ inside => List.mem_takeWhile_imp inside) added start

/-- The sum of a scanner is never negative. -/
theorem loop_nonneg {fuel : Nat} {first second : Scanner} (read : Scanner.loop fuel first = .ok second)
    (start : 0 ≤ first.nanos.val) : 0 ≤ second.nanos.val := by
  induction fuel generalizing first with
  | zero => exact Except.ok.inj read ▸ start
  | succ fuel ih =>
    rw [Scanner.loop] at read
    split at read
    · exact Except.ok.inj read ▸ start
    · split at read
      · cases read
      · exact ih read start
    · obtain ⟨next, consumed, rest⟩ := bind_ok.mp read
      exact ih rest (consumeComponent_nonneg consumed start)

/-- A parsed duration is above the least machine integer. -/
theorem above_of_parse {text : String} {duration : Signed 128} (parsed : parse text = .ok duration) :
    -2 ^ 127 < duration.val := by
  unfold parse at parsed
  split at parsed
  · unfold parseComponents at parsed
    obtain ⟨scanner, read, rest⟩ := bind_ok.mp parsed
    have nonneg : 0 ≤ scanner.nanos.val := loop_nonneg read le_rfl
    have high := scanner.nanos.high
    split at rest
    · obtain rfl := Except.ok.inj rest
      split
      · rw [wrapTicks_val (by omega) (by omega)]
        omega
      · omega
    · cases rest
  · cases parsed

end Parse

end Liasse.Wire.Duration

/-
This file defines a code that writes each reserved letter as a mark and a pair of letters. It proves that the code reads
back, and which words it reads and writes.
-/

import Mathlib.Data.List.Basic
import Mathlib.Data.List.Infix

namespace Liasse.Codes

/-- A mark starts each escape, and a pair of letters that are not reserved names the reserved letter. -/
structure Escaping (Letter : Type) where
  mark : Letter
  pair : Letter → Option (Letter × Letter)
  letter : Letter → Letter → Option Letter
  letter_iff : ∀ {first second reserved}, letter first second = some reserved ↔ pair reserved = some (first, second)
  marked : pair mark ≠ none
  plain : ∀ {reserved first second}, pair reserved = some (first, second) → pair first = none ∧ pair second = none

namespace Escaping

variable {Letter : Type} [DecidableEq Letter] (code : Escaping Letter)

/-- The escape of a letter. -/
def encodeLetter (char : Letter) : List Letter :=
  match code.pair char with
  | some (first, second) => [code.mark, first, second]
  | none => [char]

/-- The escaped word. -/
def encode (word : List Letter) : List Letter :=
  word.flatMap code.encodeLetter

/-- The word that an escaped word stands for, unless an escape names no letter. -/
def decode : List Letter → Option (List Letter)
  | [] => some []
  | char :: rest =>
    if char ≠ code.mark then (decode rest).map (List.cons char)
    else
      match rest with
      | first :: second :: later => (code.letter first second).bind fun reserved =>
        (decode later).map (List.cons reserved)
      | _ => none

variable {code}

omit [DecidableEq Letter] in
theorem ne_mark_of_pair {char : Letter} (free : code.pair char = none) : char ≠ code.mark := by
  rintro rfl
  exact code.marked free

theorem decode_plain {char : Letter} (other : char ≠ code.mark) (rest : List Letter) :
    code.decode (char :: rest) = (code.decode rest).map (List.cons char) := by
  match rest with
  | [] => exact if_pos other
  | [_] => exact if_pos other
  | _ :: _ :: _ => exact if_pos other

theorem decode_escape {first second reserved : Letter} (named : code.letter first second = some reserved)
    (later : List Letter) :
    code.decode (code.mark :: first :: second :: later) = (code.decode later).map (List.cons reserved) := by
  rw [decode, if_neg (not_not_intro rfl), named, Option.bind_some]

/-- A word starts with a pair that names a reserved letter. -/
def Named (code : Escaping Letter) (word : List Letter) : Prop :=
  ∃ first second later reserved, word = first :: second :: later ∧ code.pair reserved = some (first, second)

theorem decode_unnamed {rest : List Letter} (unnamed : ¬ code.Named rest) : code.decode (code.mark :: rest) = none := by
  match rest with
  | [] => exact if_neg (not_not_intro rfl)
  | [_] => exact if_neg (not_not_intro rfl)
  | first :: second :: later =>
    rw [decode, if_neg (not_not_intro rfl), Option.bind_eq_none_iff]
    intro reserved known
    exact absurd ⟨first, second, later, reserved, rfl, code.letter_iff.mp known⟩ unnamed

theorem decode_encodeLetter (char : Letter) (rest : List Letter) :
    code.decode (code.encodeLetter char ++ rest) = (code.decode rest).map (List.cons char) := by
  unfold encodeLetter
  split
  · next first second named => exact decode_escape (code.letter_iff.mpr named) rest
  · next free => exact decode_plain (ne_mark_of_pair free) rest

/-- An escaped word reads back in front of each word. -/
theorem decode_encode_append (word rest : List Letter) :
    code.decode (code.encode word ++ rest) = (code.decode rest).map (word ++ ·) := by
  induction word with
  | nil => exact (congrFun Option.map_id _).symm
  | cons char word ih =>
    have unfolded : code.encode (char :: word) = code.encodeLetter char ++ code.encode word := List.flatMap_cons
    rw [unfolded, List.append_assoc, decode_encodeLetter, ih, Option.map_map]
    rfl

/-- An escaped word reads back. -/
theorem decode_encode (word : List Letter) : code.decode (code.encode word) = some word := by
  have whole : code.decode (code.encode word ++ []) = (code.decode []).map (word ++ ·) := decode_encode_append word []
  rwa [List.append_nil, decode, Option.map_some, List.append_nil] at whole

/-- Some mark of a word does not start an escape. -/
def Malformed (code : Escaping Letter) (word : List Letter) : Prop :=
  ∃ before after, word = before ++ code.mark :: after ∧ ¬ code.Named after

omit [DecidableEq Letter] in
theorem malformed_cons {char : Letter} (other : char ≠ code.mark) (rest : List Letter) :
    code.Malformed (char :: rest) ↔ code.Malformed rest := by
  constructor
  · rintro ⟨before, after, whole, unnamed⟩
    cases before with
    | nil => exact absurd (List.cons.inj whole).1 other
    | cons _ before => exact ⟨before, after, (List.cons.inj whole).2, unnamed⟩
  · rintro ⟨before, after, whole, unnamed⟩
    exact ⟨char :: before, after, congrArg (List.cons char) whole, unnamed⟩

omit [DecidableEq Letter] in
theorem malformed_escape {first second reserved : Letter} (named : code.pair reserved = some (first, second))
    (later : List Letter) :
    code.Malformed (code.mark :: first :: second :: later) ↔ code.Malformed later := by
  obtain ⟨firstFree, secondFree⟩ := code.plain named
  rw [← malformed_cons (ne_mark_of_pair secondFree) later,
    ← malformed_cons (ne_mark_of_pair firstFree) (second :: later)]
  constructor
  · rintro ⟨before, after, whole, unnamed⟩
    cases before with
    | nil => exact absurd ⟨first, second, later, reserved, (List.cons.inj whole).2.symm, named⟩ unnamed
    | cons _ before => exact ⟨before, after, (List.cons.inj whole).2, unnamed⟩
  · rintro ⟨before, after, whole, unnamed⟩
    exact ⟨code.mark :: before, after, congrArg (List.cons code.mark) whole, unnamed⟩

/-- The code reads a word exactly when each of its marks starts an escape. -/
theorem decode_eq_none_iff (word : List Letter) : code.decode word = none ↔ code.Malformed word := by
  induction size : word.length using Nat.strong_induction_on generalizing word with
  | _ bound ih =>
    subst size
    cases word with
    | nil =>
      refine iff_of_false (by rw [decode]; exact Option.some_ne_none _) ?_
      rintro ⟨before, after, whole, -⟩
      exact List.append_ne_nil_of_right_ne_nil before (List.cons_ne_nil _ _) whole.symm
    | cons char rest =>
      by_cases other : char ≠ code.mark
      · rw [decode_plain other, Option.map_eq_none_iff, malformed_cons other]
        exact ih _ (Nat.lt_succ_self _) rest rfl
      · obtain rfl := not_not.mp other
        by_cases named : code.Named rest
        · obtain ⟨first, second, later, reserved, rfl, known⟩ := named
          rw [decode_escape (code.letter_iff.mpr known), Option.map_eq_none_iff, malformed_escape known]
          exact ih _ (by simp only [List.length_cons]; omega) later rfl
        · exact iff_of_true (decode_unnamed named) ⟨[], rest, rfl, named⟩

/-- Each reserved letter of a word is a mark. -/
def Clean (code : Escaping Letter) (word : List Letter) : Prop :=
  ∀ char ∈ word, char = code.mark ∨ code.pair char = none

omit [DecidableEq Letter] in
theorem clean_encode (word : List Letter) : code.Clean (code.encode word) := by
  intro char inside
  obtain ⟨source, -, written⟩ := List.mem_flatMap.mp inside
  unfold encodeLetter at written
  split at written
  · next first second named =>
      obtain ⟨firstFree, secondFree⟩ := code.plain named
      rcases List.mem_cons.mp written with rfl | written
      · exact .inl rfl
      · rcases List.mem_cons.mp written with rfl | written
        · exact .inr firstFree
        · exact .inr (List.mem_singleton.mp written ▸ secondFree)
  · next free => exact .inr (List.mem_singleton.mp written ▸ free)

/-- A clean word that reads is the escaped word of what it reads as. -/
theorem encode_of_decode {word read : List Letter} (answered : code.decode word = some read)
    (clean : code.Clean word) : code.encode read = word := by
  induction size : word.length using Nat.strong_induction_on generalizing word read with
  | _ bound ih =>
    subst size
    cases word with
    | nil =>
      rw [decode] at answered
      rw [← Option.some.inj answered]
      rfl
    | cons char rest =>
      obtain ⟨here, others⟩ := List.forall_mem_cons.mp clean
      by_cases other : char ≠ code.mark
      · rw [decode_plain other] at answered
        obtain ⟨shorter, found, rfl⟩ := Option.map_eq_some_iff.mp answered
        have later := ih _ (Nat.lt_succ_self _) found others rfl
        rw [encode, List.flatMap_cons, encodeLetter, here.resolve_left other]
        exact congrArg (List.cons char) later
      · obtain rfl := not_not.mp other
        by_cases named : code.Named rest
        · obtain ⟨first, second, later, reserved, rfl, known⟩ := named
          rw [decode_escape (code.letter_iff.mpr known)] at answered
          obtain ⟨shorter, found, rfl⟩ := Option.map_eq_some_iff.mp answered
          have below : later.length < (code.mark :: first :: second :: later).length := by
            simp only [List.length_cons]
            omega
          have behind := ih _ below found (fun char inside =>
            others char (List.mem_cons_of_mem _ (List.mem_cons_of_mem _ inside))) rfl
          rw [encode, List.flatMap_cons, encodeLetter, known]
          exact congrArg (fun tail => code.mark :: first :: second :: tail) behind
        · rw [decode_unnamed named] at answered
          cases answered

/-- The code writes a word exactly when it reads the word and the word is clean. -/
theorem exists_encode_iff (word : List Letter) :
    (∃ source, code.encode source = word) ↔ ¬ code.Malformed word ∧ code.Clean word := by
  rw [← decode_eq_none_iff]
  constructor
  · rintro ⟨source, rfl⟩
    exact ⟨by rw [decode_encode]; exact Option.some_ne_none _, clean_encode source⟩
  · rintro ⟨read, clean⟩
    obtain ⟨source, answered⟩ := Option.ne_none_iff_exists'.mp read
    exact ⟨source, encode_of_decode answered clean⟩

end Escaping

end Liasse.Codes

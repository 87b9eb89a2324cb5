/-
This file models the bytes of a sort tuple. They compare as the tuples do under their directions.
-/

import Liasse.KeyEnc.Canonical
import Liasse.Live.Window
import Liasse.Value.Total

namespace Liasse.Pg

open Codes
open KeyEnc (Legal encodeValue encodeValue_separates)
open Live (SortOrder compareKeys)

section Encoding

/-- The direction of a sort key. -/
inductive SortDirection
  | ascending
  | descending
deriving DecidableEq

/-- The unit of one sort key. A descending key has each byte of its unit inverted. -/
def encodeSortKey (value : Value) (descending : Bool) : List UInt8 :=
  let unit := encodeValue value
  if descending then unit.map fun byte => ~~~byte else unit

/-- The bytes of a sort tuple. A key with no direction is ascending. -/
def encodeSortTuple : List Value → List SortDirection → List UInt8
  | [], _ => []
  | value :: rest, directions =>
    encodeSortKey value (directions.head? = some .descending) ++ encodeSortTuple rest directions.tail

/-- The order of a list of directions. -/
def sortOrder (directions : List SortDirection) : SortOrder :=
  ⟨directions.map fun direction => direction = .descending⟩

end Encoding

section Order

/-- The units of one sort key separate with the order of the values in its direction. -/
theorem encodeSortKey_separates {first second : Value} (firstLegal : Legal first) (secondLegal : Legal second)
    (descending : Bool) : Separates (encodeSortKey first descending) (encodeSortKey second descending)
      (if descending then (first.cmp second).swap else first.cmp second) := by
  have separated := encodeValue_separates firstLegal secondLegal
  cases descending with
  | false => exact separated
  | true => exact separated.mapAntitone KeyEnc.compareInverted

/-- The bytes of two sort tuples separate with the order of the tuples. -/
theorem encodeSortTuple_separates {directions : List SortDirection} {first second : List Value}
    (firstLegal : ∀ value ∈ first, Legal value) (secondLegal : ∀ value ∈ second, Legal value)
    (firstLength : first.length = directions.length) (secondLength : second.length = directions.length) :
    Separates (encodeSortTuple first directions) (encodeSortTuple second directions)
      (compareKeys (sortOrder directions).descending first second) := by
  induction directions generalizing first second with
  | nil =>
    obtain rfl := List.length_eq_zero_iff.mp firstLength
    obtain rfl := List.length_eq_zero_iff.mp secondLength
    exact .nil
  | cons direction rest earlier =>
    obtain ⟨left, lefts, rfl⟩ := List.exists_cons_of_length_eq_add_one firstLength
    obtain ⟨right, rights, rfl⟩ := List.exists_cons_of_length_eq_add_one secondLength
    have unit := encodeSortKey_separates (firstLegal left List.mem_cons_self) (secondLegal right List.mem_cons_self)
      (direction = .descending)
    have units := earlier (fun value inside => firstLegal value (List.mem_cons_of_mem _ inside))
      (fun value inside => secondLegal value (List.mem_cons_of_mem _ inside))
      (Nat.succ.inj firstLength) (Nat.succ.inj secondLength)
    have both := unit.append units
    cases direction with
    | ascending => exact both
    | descending => exact both

/-- Two tuples compare equal exactly when each of their keys does. -/
theorem compareKeys_eq_iff {directions : List Bool} {first second : List Value}
    (firstLength : first.length = directions.length) (secondLength : second.length = directions.length) :
    compareKeys directions first second = .eq ↔ List.Forall₂ (fun left right => left.cmp right = .eq) first second := by
  induction directions generalizing first second with
  | nil =>
    obtain rfl := List.length_eq_zero_iff.mp firstLength
    obtain rfl := List.length_eq_zero_iff.mp secondLength
    exact iff_of_true rfl .nil
  | cons direction rest earlier =>
    obtain ⟨left, lefts, rfl⟩ := List.exists_cons_of_length_eq_add_one firstLength
    obtain ⟨right, rights, rfl⟩ := List.exists_cons_of_length_eq_add_one secondLength
    rw [compareKeys, Ordering.then_eq_eq, List.forall₂_cons,
      ← earlier (Nat.succ.inj firstLength) (Nat.succ.inj secondLength)]
    refine and_congr_left fun _ => ?_
    cases direction with
    | false => exact Iff.rfl
    | true => exact Ordering.swap_eq_eq

/-- The bytes of sort tuples compare as the tuples do under their directions, and equal bytes are equal keys. -/
theorem encodeSortTuple_order (directions : List SortDirection) (first second : List Value)
    (firstLegal : ∀ value ∈ first, Legal value) (secondLegal : ∀ value ∈ second, Legal value)
    (firstLength : first.length = directions.length) (secondLength : second.length = directions.length) :
    (∀ (RowId : Type) [Ord RowId] (firstId secondId : RowId),
      (sortOrder directions).compare first firstId second secondId =
        (compare (encodeSortTuple first directions) (encodeSortTuple second directions)).then
          (compare firstId secondId)) ∧
    (∀ (RowId : Type) [Ord RowId] (id : RowId), compare id id = .eq →
      compare (encodeSortTuple first directions) (encodeSortTuple second directions) =
        (sortOrder directions).compare first id second id) ∧
    (encodeSortTuple first directions = encodeSortTuple second directions ↔
      List.Forall₂ (fun left right => left.cmp right = .eq) first second) := by
  have separated := encodeSortTuple_separates firstLegal secondLegal firstLength secondLength
  refine ⟨fun RowId _ firstId secondId => ?_, fun RowId _ id same => ?_, ?_⟩
  · rw [separated.compareEq]
    rfl
  · rw [separated.compareEq, SortOrder.compare, same, Ordering.then_eq]
  · rw [separated.eq_iff]
    exact compareKeys_eq_iff (by simpa [sortOrder] using firstLength) (by simpa [sortOrder] using secondLength)

/-- A descending key puts a longer text before the text that it starts with. -/
theorem encodeSortTuple_sample :
    compare (encodeSortTuple [.text "a", .none] [.descending, .ascending])
        (encodeSortTuple [.text "ab", .none] [.descending, .ascending]) = .gt := by
  have text : ∀ value : String, Legal (.text value) := fun _ => KeyEnc.legal_of_leaf trivial trivial rfl
  have none : Legal .none := KeyEnc.legal_of_leaf trivial trivial rfl
  have legal : ∀ value : String, ∀ key ∈ [Value.text value, .none], Legal key := by
    intro value key inside
    rcases List.mem_pair.mp inside with rfl | rfl
    · exact text value
    · exact none
  exact (encodeSortTuple_order [.descending, .ascending] _ _ (legal "a") (legal "ab") rfl rfl).2.1 Unit () rfl

end Order

end Liasse.Pg

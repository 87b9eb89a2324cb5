/-
This file defines the normal form of a value and compares the contents of equal values.
-/

import Liasse.Codes.Related
import Liasse.Value.Total

namespace Liasse

namespace BigDecimal

/-- The denominator of a decimal divides a power of ten. -/
theorem toRat_den_dvd (decimal : BigDecimal) : ∃ scale : Nat, decimal.toRat.den ∣ 10 ^ scale := by
  refine ⟨decimal.scale.toNat, ?_⟩
  have scaled : decimal.toRat =
      Rat.divInt (decimal.mantissa * 10 ^ (-decimal.scale).toNat) (10 ^ decimal.scale.toNat) := by
    have exponent : -decimal.scale = ((-decimal.scale).toNat : Int) - (decimal.scale.toNat : Int) := by
      omega
    have power : (10 : ℚ) ^ (-decimal.scale) =
        10 ^ (-decimal.scale).toNat / 10 ^ decimal.scale.toNat := by
      conv_lhs => rw [exponent, zpow_sub₀ (by norm_num), zpow_natCast, zpow_natCast]
    rw [toRat, power, Rat.divInt_eq_div]
    push_cast
    rw [mul_div_assoc]
  have divides := Rat.den_dvd (decimal.mantissa * 10 ^ (-decimal.scale).toNat)
    (10 ^ decimal.scale.toNat)
  rw [← scaled] at divides
  exact_mod_cast divides

/-- The decimal of a number with the least scale. -/
def ofNumber (number : ℚ) (finite : ∃ scale : Nat, number.den ∣ 10 ^ scale) : BigDecimal :=
  let scale := Nat.find finite
  ⟨number.num * (10 ^ scale / number.den : Nat), scale⟩

theorem toRat_ofNumber (number : ℚ) (finite : ∃ scale : Nat, number.den ∣ 10 ^ scale) :
    (ofNumber number finite).toRat = number := by
  obtain ⟨factor, power⟩ := Nat.find_spec finite
  have positive : (0 : ℚ) < number.den := by exact_mod_cast number.den_pos
  have quotient : 10 ^ Nat.find finite / number.den = factor := by
    rw [power, Nat.mul_div_cancel_left _ number.den_pos]
  have scaled : (10 : ℚ) ^ Nat.find finite = number.den * factor := by exact_mod_cast power
  have tens : (10 : ℚ) ^ Nat.find finite ≠ 0 := by positivity
  rw [ofNumber, toRat]
  simp only [quotient]
  rw [zpow_neg, zpow_natCast, scaled]
  have nonzero : (number.den : ℚ) * factor ≠ 0 := scaled ▸ tens
  push_cast
  rw [← div_eq_mul_inv, mul_div_mul_right _ _ (right_ne_zero_of_mul nonzero)]
  exact number.num_div_den

/-- The normal form of a decimal depends on its number only. -/
def normal (decimal : BigDecimal) : BigDecimal :=
  ofNumber decimal.toRat decimal.toRat_den_dvd

theorem cmp_eq_iff {first second : BigDecimal} :
    first.cmp second = .eq ↔ first.toRat = second.toRat := by
  rw [cmp_eq_compare, compare_eq_iff_eq]

theorem normal_congr {first second : BigDecimal} (same : first.cmp second = .eq) :
    first.normal = second.normal := by
  have numbers := cmp_eq_iff.mp same
  simp only [normal, numbers]

theorem normal_cmp (decimal : BigDecimal) : decimal.normal.cmp decimal = .eq :=
  cmp_eq_iff.mpr (toRat_ofNumber _ _)

end BigDecimal

namespace Timestamp

/-- The timestamp of an instant at one precision, if the precision can express it. -/
def ofInstant (instant : Int × Int) (precision : Precision) : Option Timestamp :=
  let ticks := precision.ticksPerSecond
  let count := instant.1 * ticks + instant.2 / (1000000000 / ticks)
  if range : (-2 ^ (128 - 1) ≤ count ∧ count < 2 ^ (128 - 1)) ∧
      instant.2 % (1000000000 / ticks) = 0 then
    some ⟨⟨count, range.1.1, range.1.2⟩, precision⟩
  else none

/-- An instant with nanoseconds below one second is the instant of its timestamp. -/
theorem instant_ofInstant {instant : Int × Int} {precision : Precision} {timestamp : Timestamp}
    (low : 0 ≤ instant.2) (high : instant.2 < 1000000000)
    (found : ofInstant instant precision = some timestamp) :
    timestamp.secondsAndSubnanos = instant := by
  simp only [ofInstant] at found
  split at found
  case isTrue range =>
    obtain rfl := Option.some.inj found
    obtain ⟨_, exact⟩ := range
    obtain ⟨seconds, nanos⟩ := instant
    cases precision <;>
      simp only [secondsAndSubnanos, Precision.ticksPerSecond, Prod.mk.injEq] at low high exact ⊢ <;>
      omega
  case isFalse => cases found

/-- The nanoseconds of an instant are below one second. -/
theorem instant_range (timestamp : Timestamp) :
    0 ≤ timestamp.secondsAndSubnanos.2 ∧ timestamp.secondsAndSubnanos.2 < 1000000000 := by
  obtain ⟨count, precision⟩ := timestamp
  cases precision <;> simp only [secondsAndSubnanos, Precision.ticksPerSecond] <;> omega

/-- A timestamp expresses its own instant. -/
theorem ofInstant_self (timestamp : Timestamp) :
    ofInstant timestamp.secondsAndSubnanos timestamp.precision = some timestamp := by
  obtain ⟨⟨count, low, high⟩, precision⟩ := timestamp
  have count_eq : (secondsAndSubnanos ⟨⟨count, low, high⟩, precision⟩).1 * precision.ticksPerSecond +
      (secondsAndSubnanos ⟨⟨count, low, high⟩, precision⟩).2 / (1000000000 / precision.ticksPerSecond) =
        count := by
    cases precision <;> simp only [secondsAndSubnanos, Precision.ticksPerSecond] <;> omega
  have exact : (secondsAndSubnanos ⟨⟨count, low, high⟩, precision⟩).2 %
      (1000000000 / precision.ticksPerSecond) = 0 := by
    cases precision <;> simp only [secondsAndSubnanos, Precision.ticksPerSecond] <;> omega
  rw [ofInstant]
  simp only [count_eq, exact, and_true]
  rw [dif_pos ⟨low, high⟩]

/-- The precisions from the coarsest. -/
def precisions : List Precision :=
  [.seconds, .millis, .micros, .nanos]

/-- The normal form of a timestamp has the coarsest precision that expresses its instant. -/
def normal (timestamp : Timestamp) : Timestamp :=
  (precisions.findSome? (ofInstant timestamp.secondsAndSubnanos)).getD timestamp

theorem exists_normal (timestamp : Timestamp) :
    ∃ coarsest, precisions.findSome? (ofInstant timestamp.secondsAndSubnanos) = some coarsest := by
  apply Option.isSome_iff_exists.mp
  rw [List.findSome?_isSome_iff]
  refine ⟨timestamp.precision, ?_, ?_⟩
  · cases timestamp.precision <;> decide
  · rw [ofInstant_self]
    rfl

theorem cmp_eq_iff {first second : Timestamp} :
    first.cmp second = .eq ↔ first.secondsAndSubnanos = second.secondsAndSubnanos := by
  rw [cmp, Ordering.then_eq_eq, compare_eq_iff_eq, compare_eq_iff_eq, Prod.ext_iff]

theorem normal_cmp (timestamp : Timestamp) : timestamp.normal.cmp timestamp = .eq := by
  obtain ⟨coarsest, found⟩ := exists_normal timestamp
  obtain ⟨low, high⟩ := instant_range timestamp
  obtain ⟨precision, _, expressed⟩ := List.exists_of_findSome?_eq_some found
  rw [normal, found, Option.getD_some]
  exact cmp_eq_iff.mpr (instant_ofInstant low high expressed)

theorem normal_congr {first second : Timestamp} (same : first.cmp second = .eq) :
    first.normal = second.normal := by
  obtain ⟨coarsest, found⟩ := exists_normal first
  have other := found
  rw [cmp_eq_iff.mp same] at other
  rw [normal, normal, found, other]
  rfl

end Timestamp

section Lists

variable {α : Type*} {cmp : α → α → Ordering} {normal : α → α}

/-- Lists that compare as equal have one list of normal forms. -/
theorem map_normal_congr {left right : List α}
    (members : ∀ first ∈ left, ∀ second, cmp first second = .eq → normal first = normal second)
    (same : left.compareLex cmp right = .eq) : left.map normal = right.map normal := by
  induction left generalizing right with
  | nil =>
    cases right with
    | nil => rfl
    | cons => cases same
  | cons first left ih =>
    cases right with
    | nil => cases same
    | cons second right =>
      rw [List.compareLex_cons_cons, Ordering.then_eq_eq] at same
      rw [List.map_cons, List.map_cons, members first List.mem_cons_self second same.1,
        ih (fun other inside => members other (List.mem_cons_of_mem _ inside)) same.2]

/-- The list of the normal forms compares as equal when each normal form does. -/
theorem compareLex_map_normal {members : List α}
    (same : ∀ member ∈ members, cmp (normal member) member = .eq) :
    (members.map normal).compareLex cmp members = .eq := by
  induction members with
  | nil => rfl
  | cons first rest ih =>
    rw [List.map_cons, List.compareLex_cons_cons, same first List.mem_cons_self]
    exact ih fun member inside => same member (List.mem_cons_of_mem _ inside)

end Lists

namespace Json

mutual

/-- The normal form of a JSON value has normal numbers. -/
def normal : Json → Json
  | .number value => .number value.normal
  | .array items => .array (normalItems items)
  | .object members => .object (normalMembers members)
  | json => json
termination_by structural json => json

def normalItems : List Json → List Json
  | [] => []
  | item :: rest => normal item :: normalItems rest
termination_by structural items => items

def normalMembers : List (String × Json) → List (String × Json)
  | [] => []
  | member :: rest => normalMember member :: normalMembers rest
termination_by structural members => members

def normalMember : String × Json → String × Json
  | (name, json) => (name, normal json)
termination_by structural member => member

end

@[simp] theorem normalItems_eq (items : List Json) : normalItems items = items.map normal := by
  induction items with
  | nil => rfl
  | cons item rest ih => rw [normalItems, ih, List.map_cons]

@[simp] theorem normalMembers_eq (members : List (String × Json)) :
    normalMembers members = members.map normalMember := by
  induction members with
  | nil => rfl
  | cons member rest ih => rw [normalMembers, ih, List.map_cons]

theorem normal_cmp (json : Json) : json.normal.cmp json = .eq := by
  induction json using induct with
  | step json ih =>
    cases json with
    | number number => exact number.normal_cmp
    | array items =>
      rw [normal, normalItems_eq, cmp, cmpItems_eq]
      exact compareLex_map_normal ih
    | object members =>
      rw [normal, normalMembers_eq, cmp, cmpMembers_eq]
      apply compareLex_map_normal
      rintro ⟨name, value⟩ inside
      exact Ordering.then_eq_eq.mpr
        ⟨Std.ReflCmp.compare_self, ih value (List.mem_map_of_mem inside)⟩
    | null => exact Std.ReflCmp.compare_self
    | bool => exact Std.ReflCmp.compare_self
    | string => exact Std.ReflCmp.compare_self

theorem normal_congr {first second : Json} (same : first.cmp second = .eq) :
    first.normal = second.normal := by
  induction first using induct generalizing second with
  | step first ih =>
    rcases sameKind_or_rank first second with kinds | ⟨different, decided⟩
    · cases kinds with
      | null => rfl
      | bool left right =>
        obtain rfl : left = right := Std.LawfulEqOrd.eq_of_compare same
        rfl
      | string left right =>
        obtain rfl := (compareText_eq_iff left right).mp same
        rfl
      | number left right => rw [normal, normal, BigDecimal.normal_congr same]
      | array left right =>
        simp only [cmp, cmpItems_eq] at same
        have items : left.map normal = right.map normal :=
          map_normal_congr (fun item inside other => ih item inside) same
        rw [normal, normal, normalItems_eq, normalItems_eq, items]
      | object left right =>
        simp only [cmp, cmpMembers_eq] at same
        rw [normal, normal, normalMembers_eq, normalMembers_eq,
          map_normal_congr (fun member inside other equal => ?_) same]
        obtain ⟨name, value⟩ := member
        obtain ⟨otherName, otherValue⟩ := other
        obtain ⟨names, values⟩ := Ordering.then_eq_eq.mp equal
        rw [normalMember, normalMember, (compareText_eq_iff _ _).mp names,
          ih value (List.mem_map_of_mem inside) values]
    · rw [decided] at same
      exact absurd (Std.LawfulEqOrd.eq_of_compare same) different

end Json

section Scalars

theorem Signed.eq_of_cmp {bits : Nat} {first second : Signed bits}
    (same : first.cmp second = .eq) : first = second := by
  cases first
  cases second
  obtain rfl := Std.LawfulEqOrd.eq_of_compare same
  rfl

theorem eq_of_cmpOptionalNoneLast {first second : Option String}
    (same : cmpOptionalNoneLast compareText first second = .eq) : first = second := by
  cases first with
  | none =>
    cases second with
    | none => rfl
    | some => cases same
  | some first =>
    cases second with
    | none => cases same
    | some second => rw [(compareText_eq_iff first second).mp same]

theorem Date.eq_of_cmp {first second : Date} (same : first.cmp second = .eq) : first = second := by
  cases first
  cases second
  simp only [cmp, Ordering.then_eq_eq, compare_eq_iff_eq] at same
  obtain ⟨rfl, rfl, rfl⟩ := same
  rfl

theorem CalendarPeriod.eq_of_cmp {first second : CalendarPeriod}
    (same : first.cmp second = .eq) : first = second := by
  simp only [cmp, Ordering.then_eq_eq, compare_eq_iff_eq] at same
  obtain ⟨years, months, weeks, days, time, zone, overflow, ambiguous, missing⟩ := same
  cases first
  cases second
  obtain rfl := Signed.eq_of_cmp years
  obtain rfl := Signed.eq_of_cmp months
  obtain rfl := Signed.eq_of_cmp weeks
  obtain rfl := Signed.eq_of_cmp days
  obtain rfl := Signed.eq_of_cmp time
  obtain rfl := eq_of_cmpOptionalNoneLast zone
  congr
  · rename_i left _ _ right _ _
    cases left <;> cases right <;> first
      | rfl
      | cases overflow
  · rename_i _ left _ _ right _
    cases left <;> cases right <;> first
      | rfl
      | cases ambiguous
  · rename_i _ _ left _ _ right
    cases left <;> cases right <;> first
      | rfl
      | cases missing

theorem Period.eq_of_cmp {first second : Period} (same : first.cmp second = .eq) :
    first = second := by
  cases first with
  | fixed left =>
    cases second with
    | fixed right => rw [Signed.eq_of_cmp same]
    | calendar => cases same
  | calendar left =>
    cases second with
    | fixed => cases same
    | calendar right => rw [CalendarPeriod.eq_of_cmp same]

theorem EnumValue.eq_of_cmp {first second : EnumValue} (same : first.cmp second = .eq) :
    first = second := by
  obtain ⟨ordinals, labels⟩ := Ordering.then_eq_eq.mp same
  cases first
  cases second
  obtain rfl := Std.LawfulEqOrd.eq_of_compare ordinals
  obtain rfl := (compareText_eq_iff _ _).mp labels
  rfl

theorem BlobDescriptor.eq_of_cmp {first second : BlobDescriptor}
    (same : first.cmp second = .eq) : first = second := by
  simp only [cmp, Ordering.then_eq_eq] at same
  obtain ⟨hashes, counts, media, names⟩ := same
  obtain ⟨⟨left, _⟩, _, _, _⟩ := first
  obtain ⟨⟨right, _⟩, _, _, _⟩ := second
  obtain rfl : left = right := Std.LawfulEqOrd.eq_of_compare hashes
  obtain rfl := Std.LawfulEqOrd.eq_of_compare counts
  obtain rfl := (compareText_eq_iff _ _).mp media
  obtain rfl := eq_of_cmpOptionalNoneLast names
  rfl

end Scalars

mutual

/-- The normal form of a reference key. -/
def RefKey.normal : RefKey → RefKey
  | .scalar key => .scalar key.normal
  | .composite components => .composite (Value.normalList components)
termination_by structural key => key

/-- The normal form of a value has normal numbers and instants. -/
def Value.normal : Value → Value
  | .decimal decimal => .decimal decimal.normal
  | .timestamp timestamp => .timestamp timestamp.normal
  | .json json => .json json.normal
  | .ref key => .ref key.normal
  | .struct fields => .struct (Value.normalFields fields)
  | .composite components => .composite (Value.normalList components)
  | .set members => .set (Value.normalList members)
  | .map entries => .map (Value.normalEntries entries)
  | value => value
termination_by structural value => value

def Value.normalList : List Value → List Value
  | [] => []
  | value :: rest => value.normal :: Value.normalList rest
termination_by structural values => values

def Value.normalFields : List (String × Value) → List (String × Value)
  | [] => []
  | field :: rest => Value.normalField field :: Value.normalFields rest
termination_by structural fields => fields

def Value.normalField : String × Value → String × Value
  | (name, value) => (name, value.normal)
termination_by structural field => field

def Value.normalEntries : List (Value × Value) → List (Value × Value)
  | [] => []
  | entry :: rest => Value.normalEntry entry :: Value.normalEntries rest
termination_by structural entries => entries

def Value.normalEntry : Value × Value → Value × Value
  | (key, value) => (key.normal, value.normal)
termination_by structural entry => entry

end

namespace Value

@[simp] theorem normalList_eq (values : List Value) : normalList values = values.map normal := by
  induction values with
  | nil => rfl
  | cons value rest ih => rw [normalList, ih, List.map_cons]

@[simp] theorem normalFields_eq (fields : List (String × Value)) :
    normalFields fields = fields.map normalField := by
  induction fields with
  | nil => rfl
  | cons field rest ih => rw [normalFields, ih, List.map_cons]

@[simp] theorem normalEntries_eq (entries : List (Value × Value)) :
    normalEntries entries = entries.map normalEntry := by
  induction entries with
  | nil => rfl
  | cons entry rest ih => rw [normalEntries, ih, List.map_cons]

theorem normal_cmp (value : Value) : value.normal.cmp value = .eq := by
  induction value using induct with
  | step value ih =>
    cases value with
    | decimal decimal => exact decimal.normal_cmp
    | timestamp timestamp => exact timestamp.normal_cmp
    | json json => exact json.normal_cmp
    | ref key =>
      cases key with
      | scalar key => exact ih key List.mem_cons_self
      | composite components =>
        rw [normal, RefKey.normal, normalList_eq, cmp, cmpRef, cmpList_eq]
        exact compareLex_map_normal ih
    | struct fields =>
      rw [normal, normalFields_eq, cmp, cmpFields_eq]
      apply compareLex_map_normal
      rintro ⟨name, field⟩ inside
      exact Ordering.then_eq_eq.mpr
        ⟨Std.ReflCmp.compare_self, ih field (List.mem_map_of_mem inside)⟩
    | composite components =>
      rw [normal, normalList_eq, cmp, cmpList_eq]
      exact compareLex_map_normal ih
    | set members =>
      rw [normal, normalList_eq, cmp, cmpList_eq]
      exact compareLex_map_normal ih
    | map entries =>
      rw [normal, normalEntries_eq, cmp, cmpEntries_eq]
      apply compareLex_map_normal
      rintro ⟨key, entry⟩ inside
      exact Ordering.then_eq_eq.mpr
        ⟨ih key (List.mem_append_left _ (List.mem_map_of_mem inside)),
          ih entry (List.mem_append_right _ (List.mem_map_of_mem inside))⟩
    | _ => exact Std.ReflCmp.compare_self

theorem normal_congr {first second : Value} (same : first.cmp second = .eq) :
    first.normal = second.normal := by
  induction first using induct generalizing second with
  | step first ih =>
    rcases sameKind_or_rank first second with kinds | ⟨different, decided⟩
    · cases kinds with
      | text left right => rw [(compareText_eq_iff left right).mp same]
      | bool left right => rw [show left = right from Std.LawfulEqOrd.eq_of_compare same]
      | int left right => rw [show left = right from Std.LawfulEqOrd.eq_of_compare same]
      | decimal left right => rw [normal, normal, BigDecimal.normal_congr same]
      | bytes left right => rw [show left = right from Std.LawfulEqOrd.eq_of_compare same]
      | uuid left right =>
        obtain ⟨left, _⟩ := left
        obtain ⟨right, _⟩ := right
        obtain rfl : left = right := Std.LawfulEqOrd.eq_of_compare same
        rfl
      | date left right => rw [Date.eq_of_cmp same]
      | timestamp left right => rw [normal, normal, Timestamp.normal_congr same]
      | duration left right => rw [Signed.eq_of_cmp same]
      | period left right => rw [Period.eq_of_cmp same]
      | json left right => rw [normal, normal, Json.normal_congr same]
      | blob left right => rw [BlobDescriptor.eq_of_cmp same]
      | enum left right => rw [EnumValue.eq_of_cmp same]
      | ref left right =>
        cases left with
        | scalar left =>
          cases right with
          | scalar right =>
            rw [normal, normal, RefKey.normal, RefKey.normal,
              ih left List.mem_cons_self same]
          | composite => cases same
        | composite left =>
          cases right with
          | scalar => cases same
          | composite right =>
            simp only [cmp, cmpRef, cmpList_eq] at same
            have components : left.map normal = right.map normal :=
              map_normal_congr (fun member inside other => ih member inside) same
            rw [normal, normal, RefKey.normal, RefKey.normal, normalList_eq, normalList_eq,
              components]
      | struct left right =>
        simp only [cmp, cmpFields_eq] at same
        rw [normal, normal, normalFields_eq, normalFields_eq,
          map_normal_congr (fun field inside other equal => ?_) same]
        obtain ⟨name, value⟩ := field
        obtain ⟨otherName, otherValue⟩ := other
        obtain ⟨names, values⟩ := Ordering.then_eq_eq.mp equal
        rw [normalField, normalField, (compareText_eq_iff _ _).mp names,
          ih value (List.mem_map_of_mem inside) values]
      | composite left right =>
        simp only [cmp, cmpList_eq] at same
        have members : left.map normal = right.map normal :=
          map_normal_congr (fun member inside other => ih member inside) same
        rw [normal, normal, normalList_eq, normalList_eq, members]
      | set left right =>
        simp only [cmp, cmpList_eq] at same
        have members : left.map normal = right.map normal :=
          map_normal_congr (fun member inside other => ih member inside) same
        rw [normal, normal, normalList_eq, normalList_eq, members]
      | map left right =>
        simp only [cmp, cmpEntries_eq] at same
        rw [normal, normal, normalEntries_eq, normalEntries_eq,
          map_normal_congr (fun entry inside other equal => ?_) same]
        obtain ⟨key, value⟩ := entry
        obtain ⟨otherKey, otherValue⟩ := other
        obtain ⟨keys, values⟩ := Ordering.then_eq_eq.mp equal
        rw [normalEntry, normalEntry,
          ih key (List.mem_append_left _ (List.mem_map_of_mem inside)) keys,
          ih value (List.mem_append_right _ (List.mem_map_of_mem inside)) values]
      | none => rfl
    · rw [decided] at same
      exact absurd (Std.LawfulEqOrd.eq_of_compare same) different

end Value

namespace ValueClass

/-- The normal form of the values of a class. -/
def value : ValueClass → Value :=
  Quotient.lift Value.normal fun _ _ same => Value.normal_congr same

/-- The representative of a class is of the class. -/
@[simp] theorem of_value (key : ValueClass) : of key.value = key := by
  induction key using Quotient.ind with
  | _ value => exact of_eq_iff.mpr value.normal_cmp

@[simp] theorem map_of_value (components : List ValueClass) :
    (components.map value).map of = components := by
  rw [List.map_map]
  exact (List.map_congr_left fun component _ => of_value component).trans (List.map_id _)

end ValueClass

end Liasse

namespace Liasse

open Codes

namespace Value

/-- A value is present when it is not the absence of a value. -/
def present : Value → Bool
  | .none => false
  | _ => true

theorem eq_none_of_present {value : Value} (absent : value.present = false) : value = .none := by
  cases value with
  | none => rfl
  | _ => cases absent

theorem present_congr {first second : Value} (same : first.cmp second = .eq) :
    first.present = second.present := by
  rcases sameKind_or_rank first second with kinds | ⟨different, decided⟩
  · cases kinds <;> rfl
  · rw [decided] at same
    exact absurd (Std.LawfulEqOrd.eq_of_compare same) different

/-- Equal values hold equal values in one order. -/
theorem children_related {first second : Value} (same : first.cmp second = .eq) :
    List.Forall₂ (fun left right => left.cmp right = .eq) first.children second.children := by
  rcases sameKind_or_rank first second with kinds | ⟨different, decided⟩
  · cases kinds with
    | ref left right =>
      cases left with
      | scalar key =>
        cases right with
        | scalar other => exact .cons same .nil
        | composite others => cases same
      | composite components =>
        cases right with
        | scalar other => cases same
        | composite others =>
          rw [cmp, cmpRef, cmpList_eq] at same
          exact forall₂_of_compareLex same
    | struct left right =>
      rw [cmp, cmpFields_eq, cmpField_eq] at same
      refine List.forall₂_map_left_iff.mpr (List.forall₂_map_right_iff.mpr ?_)
      exact (forall₂_of_compareLex same).imp fun field other equal => (Ordering.then_eq_eq.mp equal).2
    | composite left right =>
      rw [cmp, cmpList_eq] at same
      exact forall₂_of_compareLex same
    | set left right =>
      rw [cmp, cmpList_eq] at same
      exact forall₂_of_compareLex same
    | map left right =>
      rw [cmp, cmpEntries_eq, cmpEntry_eq] at same
      have entries := forall₂_of_compareLex same
      apply List.rel_append
      · refine List.forall₂_map_left_iff.mpr (List.forall₂_map_right_iff.mpr ?_)
        exact entries.imp fun entry other equal => (Ordering.then_eq_eq.mp equal).1
      · refine List.forall₂_map_left_iff.mpr (List.forall₂_map_right_iff.mpr ?_)
        exact entries.imp fun entry other equal => (Ordering.then_eq_eq.mp equal).2
    | _ => exact .nil
  · rw [decided] at same
    exact absurd (Std.LawfulEqOrd.eq_of_compare same) different

section Nodes

/-- The count of the values inside a value, the value included. -/
def nodes (value : Value) : Nat :=
  1 + (value.children.attach.map fun child => nodes child.val).sum
termination_by sizeOf value
decreasing_by exact sizeOf_lt_of_mem_children child.property

theorem nodes_eq (value : Value) : value.nodes = 1 + (value.children.map nodes).sum := by
  rw [nodes, List.attach_map_val (f := nodes)]

/-- Equal values hold as many values. -/
theorem nodes_congr {first second : Value} (same : first.cmp second = .eq) :
    first.nodes = second.nodes := by
  induction first using induct generalizing second with
  | step first ih =>
    have each : first.children.map nodes = second.children.map nodes :=
      map_eq_of_forall₂ (children_related same) fun child inside _ => ih child inside
    rw [nodes_eq, nodes_eq, each]

end Nodes

section Timestamps

/-- The timestamp that a value is. -/
def timestampHere : Value → List Timestamp
  | .timestamp stamp => [stamp]
  | _ => []

/-- The timestamps inside a value in their order. -/
def timestamps (value : Value) : List Timestamp :=
  value.timestampHere ++ value.children.attach.flatMap fun child => timestamps child.val
termination_by sizeOf value
decreasing_by exact sizeOf_lt_of_mem_children child.property

theorem timestamps_eq (value : Value) :
    value.timestamps = value.timestampHere ++ value.children.flatMap timestamps := by
  rw [timestamps, List.flatMap_subtype (fun child _ => rfl), List.unattach_attach]

end Timestamps

section Identity

/-- Two values are identical when they are equal and have the same timestamps with the same counts and
precisions. -/
def Identical (first second : Value) : Prop :=
  first.cmp second = .eq ∧ first.timestamps = second.timestamps

theorem Identical.refl (value : Value) : Identical value value :=
  ⟨Std.ReflCmp.compare_self, rfl⟩

/-- Equal values that hold identical values and no timestamp of their own are identical. -/
theorem Identical.of_children {first second : Value} (same : first.cmp second = .eq)
    (here : first.timestampHere = second.timestampHere)
    (below : List.Forall₂ Identical first.children second.children) : Identical first second := by
  refine ⟨same, ?_⟩
  have each : first.children.map timestamps = second.children.map timestamps :=
    map_eq_of_forall₂ below fun _ _ _ equal => equal.2
  rw [timestamps_eq, timestamps_eq, here, List.flatMap_def, List.flatMap_def, each]

/-- Equal values are of one kind. -/
theorem sameKind_of_cmp {first second : Value} (same : first.cmp second = .eq) : SameKind first second := by
  refine (sameKind_or_rank first second).resolve_right fun other => ?_
  rw [other.2] at same
  exact other.1 (Std.LawfulEqOrd.eq_of_compare same)

/-- Equal values have as many timestamps. -/
theorem timestamps_length_congr {first second : Value} (same : first.cmp second = .eq) :
    first.timestamps.length = second.timestamps.length := by
  induction first using induct generalizing second with
  | step first ih =>
    have each : first.children.map (fun child => child.timestamps.length) =
        second.children.map fun child => child.timestamps.length :=
      map_eq_of_forall₂ (children_related same) fun child inside _ => ih child inside
    have here : first.timestampHere.length = second.timestampHere.length := by
      cases sameKind_of_cmp same <;> rfl
    rw [timestamps_eq, timestamps_eq, List.length_append, List.length_append, here, List.length_flatMap,
      List.length_flatMap, each]

/-- Identical values hold identical values, and are one timestamp when they are timestamps. -/
theorem Identical.children {first second : Value} (identical : Identical first second) :
    first.timestampHere = second.timestampHere ∧ List.Forall₂ Identical first.children second.children := by
  obtain ⟨same, stamps⟩ := identical
  have here : first.timestampHere.length = second.timestampHere.length := by
    cases sameKind_of_cmp same <;> rfl
  rw [timestamps_eq, timestamps_eq] at stamps
  obtain ⟨head, tail⟩ := List.append_inj stamps here
  exact ⟨head, forall₂_of_flatMap_eq (children_related same) (fun _ _ => timestamps_length_congr) tail⟩

end Identity

section Order

instance : Std.TransCmp compareName := by
  change Std.TransCmp (compareOn fun field : String × Value => textBytes field.1)
  infer_instance

instance : Std.TransCmp compareKey := by
  change Std.TransCmp (compareOn fun entry : Value × Value => entry.1)
  infer_instance

theorem compareName_of_cmpField {first second : String × Value} (same : cmpField first second = .eq) :
    compareName first second = .eq := by
  rw [cmpField_eq] at same
  exact (Ordering.then_eq_eq.mp same).1

theorem compareKey_of_cmpEntry {first second : Value × Value} (same : cmpEntry first second = .eq) :
    compareKey first second = .eq := by
  rw [cmpEntry_eq] at same
  exact (Ordering.then_eq_eq.mp same).1

end Order

end Value

end Liasse

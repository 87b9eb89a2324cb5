/-
This file proves that the canonical representative of a key value has its order and its bytes, that the byte order of
encoded keys is the order of the keys, and that equal keys have one canonical form.
-/

import Liasse.KeyEnc.Order
import Liasse.Value.Normal

namespace Liasse.KeyEnc

open Codes

section Representatives

@[simp] theorem canonicalList_eq (members : List Value) :
    canonicalList members = members.map canonicalKey := by
  induction members with
  | nil => rfl
  | cons member rest ih => rw [canonicalList, ih, List.map_cons]

@[simp] theorem canonicalFields_eq (fields : List (String × Value)) :
    canonicalFields fields = fields.map canonicalField := by
  induction fields with
  | nil => rfl
  | cons field rest ih => rw [canonicalFields, ih, List.map_cons]

@[simp] theorem canonicalEntries_eq (entries : List (Value × Value)) :
    canonicalEntries entries = entries.map canonicalEntry := by
  induction entries with
  | nil => rfl
  | cons entry rest ih => rw [canonicalEntries, ih, List.map_cons]

/-- A coarser precision of an exact count denotes the same instant. -/
theorem secondsAndSubnanos_coarser {count : Signed 128} {precision coarser : Precision}
    (next : coarserPrecision precision = some coarser) (exact : count.val % 1000 = 0) :
    Timestamp.secondsAndSubnanos ⟨thousandth count, coarser⟩ =
      Timestamp.secondsAndSubnanos ⟨count, precision⟩ := by
  obtain ⟨val, low, high⟩ := count
  change val % 1000 = 0 at exact
  cases precision <;> cases next <;>
    simp only [Timestamp.secondsAndSubnanos, Precision.ticksPerSecond, thousandth, Prod.mk.injEq] <;>
    omega

theorem secondsAndSubnanos_coarsen (steps : Nat) (timestamp : Timestamp) :
    (coarsen steps timestamp).secondsAndSubnanos = timestamp.secondsAndSubnanos := by
  induction steps generalizing timestamp with
  | zero => rfl
  | succ steps ih =>
    rw [coarsen]
    cases next : coarserPrecision timestamp.precision with
    | none => rfl
    | some coarser =>
      by_cases exact : timestamp.count.val % 1000 = 0
      · simp only [if_pos exact]
        rw [ih]
        exact secondsAndSubnanos_coarser next exact
      · simp only [if_neg exact]

/-- The canonical timestamp denotes the same instant. -/
theorem secondsAndSubnanos_canonical (timestamp : Timestamp) :
    (canonicalTimestamp timestamp).secondsAndSubnanos = timestamp.secondsAndSubnanos :=
  secondsAndSubnanos_coarsen _ _

theorem canonicalKey_rank (value : Value) : (canonicalKey value).rank = value.rank := by
  cases value <;> rfl

/-- A value of the same rank compares as another one when it does so within their kind. -/
theorem cmp_of_sameKind {value other : Value} (rank : other.rank = value.rank)
    (agree : ∀ third, Value.SameKind value third → other.cmp third = value.cmp third)
    (third : Value) : other.cmp third = value.cmp third := by
  rcases Value.sameKind_or_rank value third with same | ⟨different, decided⟩
  · exact agree third same
  · rcases Value.sameKind_or_rank other third with same | ⟨_, otherDecided⟩
    · have equal : other.rank = third.rank := by cases same <;> rfl
      exact absurd (rank.symm.trans equal) different
    · rw [decided, otherDecided, rank]

/-- The map of the members keeps a list strictly sorted when it keeps their comparison. -/
theorem sorted_map {α : Type*} {cmp : α → α → Ordering} {f : α → α} {members : List α}
    (keeps : ∀ first ∈ members, ∀ second ∈ members, cmp (f first) (f second) = cmp first second)
    (sorted : Sorted cmp members) : Sorted cmp (members.map f) := by
  apply List.pairwise_map.mpr
  apply List.Pairwise.imp_of_mem _ sorted
  intro first second inside present below
  rw [keeps first inside second present]
  exact below

private theorem gt_of_lt {first second : Ordering} (swapped : second = first.swap)
    (below : first = .lt) : second = .gt := by
  rw [swapped, below]
  rfl

theorem collectFields_canonical {fields : List (String × Value)}
    (sorted : Sorted Value.compareName fields) :
    collectSorted Value.compareName (canonicalFields fields) = fields.map canonicalField := by
  rw [canonicalFields_eq]
  apply collectSorted_eq_self
  · exact fun first _ second _ => gt_of_lt (compareText_swap _ _)
  · apply sorted_map _ sorted
    rintro ⟨name, field⟩ _ ⟨otherName, other⟩ _
    rfl

theorem collectMembers_canonical {members : List Value}
    (keeps : ∀ first ∈ members, ∀ second ∈ members,
      (canonicalKey first).cmp (canonicalKey second) = first.cmp second)
    (sorted : Sorted Value.cmp members) :
    collectSorted Value.cmp (canonicalList members) = members.map canonicalKey := by
  rw [canonicalList_eq]
  apply collectSorted_eq_self
  · exact fun first _ second _ => gt_of_lt (Value.cmp_swap _ _)
  · exact sorted_map keeps sorted

theorem collectEntries_canonical {entries : List (Value × Value)}
    (keeps : ∀ first ∈ entries, ∀ second ∈ entries,
      (canonicalKey first.1).cmp (canonicalKey second.1) = first.1.cmp second.1)
    (sorted : Sorted Value.compareKey entries) :
    collectSorted Value.compareKey (canonicalEntries entries) = entries.map canonicalEntry := by
  rw [canonicalEntries_eq]
  apply collectSorted_eq_self
  · exact fun first _ second _ => gt_of_lt (Value.cmp_swap _ _)
  · apply sorted_map _ sorted
    rintro ⟨key, value⟩ inside ⟨otherKey, other⟩ present
    exact keeps _ inside _ present

/-- Two representatives compare as their values when each one does so against any value. -/
private theorem keeps_of_left {first second : Value}
    (firstKeeps : ∀ other, (canonicalKey first).cmp other = first.cmp other)
    (secondKeeps : ∀ other, (canonicalKey second).cmp other = second.cmp other) :
    (canonicalKey first).cmp (canonicalKey second) = first.cmp second := by
  rw [firstKeeps, Value.cmp_swap, secondKeeps, ← Value.cmp_swap]

/-- The canonical representative compares as its value. -/
theorem canonicalKey_cmp {value : Value} (wellFormed : value.WellFormed) (other : Value) :
    (canonicalKey value).cmp other = value.cmp other := by
  induction wellFormed generalizing other with
  | @intro value here inside ih =>
    have lists : ∀ {left right : List Value}, (∀ member ∈ left, member ∈ value.children) →
        (left.map canonicalKey).compareLex Value.cmp right = left.compareLex Value.cmp right := by
      intro left right children
      apply compareLex_map
      exact fun member present second _ => ih member (children member present) second
    apply cmp_of_sameKind (canonicalKey_rank value)
    intro third same
    cases same with
    | decimal first second =>
      simp only [canonicalKey, Value.cmp, BigDecimal.cmp_eq_compare, normalized_toRat]
    | timestamp first second =>
      simp only [canonicalKey, Value.cmp, Timestamp.cmp, secondsAndSubnanos_canonical]
    | ref first second =>
      cases first with
      | scalar key =>
        cases second with
        | scalar other => exact ih key List.mem_cons_self other
        | composite others => rfl
      | composite components =>
        cases second with
        | scalar other => rfl
        | composite others =>
          simp only [canonicalKey, canonicalRef, canonicalList_eq, Value.cmp, Value.cmpRef,
            Value.cmpList_eq]
          exact lists fun member present => present
    | struct fields others =>
      simp only [canonicalKey, collectFields_canonical here, Value.cmp, Value.cmpFields_eq]
      apply compareLex_map
      rintro ⟨name, field⟩ present ⟨otherName, other⟩ _
      simp only [canonicalField, Value.cmpField, ih field (List.mem_map_of_mem present) other]
    | composite components others =>
      simp only [canonicalKey, canonicalList_eq, Value.cmp, Value.cmpList_eq]
      exact lists fun member present => present
    | set members others =>
      have keeps : ∀ first ∈ members, ∀ second ∈ members,
          (canonicalKey first).cmp (canonicalKey second) = first.cmp second :=
        fun first firstInside second secondInside =>
          keeps_of_left (ih first firstInside) (ih second secondInside)
      simp only [canonicalKey, collectMembers_canonical keeps here, Value.cmp, Value.cmpList_eq]
      exact lists fun member present => present
    | map entries others =>
      have keys : ∀ entry ∈ entries, ∀ other, (canonicalKey entry.1).cmp other = entry.1.cmp other :=
        fun entry present => ih entry.1 (List.mem_append_left _ (List.mem_map_of_mem present))
      have values : ∀ entry ∈ entries,
          ∀ other, (canonicalKey entry.2).cmp other = entry.2.cmp other :=
        fun entry present => ih entry.2 (List.mem_append_right _ (List.mem_map_of_mem present))
      have keeps : ∀ first ∈ entries, ∀ second ∈ entries,
          (canonicalKey first.1).cmp (canonicalKey second.1) = first.1.cmp second.1 :=
        fun first firstInside second secondInside =>
          keeps_of_left (keys first firstInside) (keys second secondInside)
      simp only [canonicalKey, collectEntries_canonical keeps here, Value.cmp, Value.cmpEntries_eq]
      apply compareLex_map
      rintro ⟨key, entry⟩ present ⟨otherKey, other⟩ _
      simp only [canonicalEntry, Value.cmpEntry]
      rw [keys (key, entry) present otherKey, values (key, entry) present other]
    | _ => rfl

/-- The members of a well-formed set stay in order under their representatives. -/
theorem canonicalKey_keeps {members : List Value}
    (wellFormed : ∀ member ∈ members, member.WellFormed) :
    ∀ first ∈ members, ∀ second ∈ members,
      (canonicalKey first).cmp (canonicalKey second) = first.cmp second := by
  intro first firstInside second secondInside
  exact keeps_of_left (canonicalKey_cmp (wellFormed first firstInside))
    (canonicalKey_cmp (wellFormed second secondInside))

/-- The representative has the bytes of its value. -/
theorem put_canonicalKey {value : Value} (wellFormed : value.WellFormed)
    (encodable : Encodable value) : put (canonicalKey value) = put value := by
  induction wellFormed with
  | @intro value here inside ih =>
    obtain ⟨encodableHere, encodableInside⟩ := encodable
    have sequences : ∀ members : List Value, (∀ member ∈ members, member ∈ value.children) →
        putSequence (members.map canonicalKey) = putSequence members := by
      intro members children
      rw [putSequence_eq, putSequence_eq, List.map_map]
      congr 1
      apply List.map_congr_left
      intro member present
      exact ih member (children member present) (encodableInside member (children member present))
    cases value with
    | decimal decimal => rw [canonicalKey, put, put, putNumber_normalized encodableHere]
    | timestamp timestamp =>
      have same := secondsAndSubnanos_canonical timestamp
      have seconds : secondsI128 (canonicalTimestamp timestamp) = secondsI128 timestamp := by
        simp only [secondsI128, same]
      rw [canonicalKey, put, put, putTimestamp, putTimestamp, same, seconds]
    | ref key =>
      cases key with
      | scalar key =>
        rw [canonicalKey, canonicalRef, put, put, putRef, putRef,
          ih key List.mem_cons_self (encodableInside key List.mem_cons_self)]
      | composite components =>
        rw [canonicalKey, canonicalRef, canonicalList_eq, put, put, putRef, putRef,
          sequences components fun member present => present]
    | struct fields =>
      rw [canonicalKey, collectFields_canonical here, put, put, putFields_eq, putFields_eq,
        List.map_map]
      congr 2
      apply List.map_congr_left
      rintro ⟨name, field⟩ present
      have child := List.mem_map_of_mem (f := Prod.snd) present
      simp only [Function.comp, canonicalField, putField, ih field child (encodableInside field child)]
    | composite components =>
      rw [canonicalKey, canonicalList_eq, put, put,
        sequences components fun member present => present]
    | set members =>
      have keeps : ∀ first ∈ members, ∀ second ∈ members,
          (canonicalKey first).cmp (canonicalKey second) = first.cmp second :=
        canonicalKey_keeps inside
      rw [canonicalKey, collectMembers_canonical keeps here, put, put,
        sequences members fun member present => present]
    | map entries =>
      have keys : ∀ entry ∈ entries, entry.1 ∈ (Value.map entries).children :=
        fun entry present => List.mem_append_left _ (List.mem_map_of_mem present)
      have values : ∀ entry ∈ entries, entry.2 ∈ (Value.map entries).children :=
        fun entry present => List.mem_append_right _ (List.mem_map_of_mem present)
      have keeps : ∀ first ∈ entries, ∀ second ∈ entries,
          (canonicalKey first.1).cmp (canonicalKey second.1) = first.1.cmp second.1 :=
        fun first firstInside second secondInside =>
          canonicalKey_keeps inside first.1 (keys first firstInside) second.1
            (keys second secondInside)
      rw [canonicalKey, collectEntries_canonical keeps here, put, put, putEntries_eq, putEntries_eq,
        List.map_map]
      congr 2
      apply List.map_congr_left
      rintro ⟨key, entry⟩ present
      have keyChild := keys _ present
      have valueChild := values _ present
      simp only [Function.comp, canonicalEntry, putEntry, ih key keyChild (encodableInside key keyChild),
        ih entry valueChild (encodableInside entry valueChild)]
    | _ => rfl

end Representatives

/-- A value is a legal key component when its collections are sorted and its numbers are in range. -/
structure Legal (value : Value) : Prop where
  wellFormed : value.WellFormed
  encodable : Encodable value

/-- The encoded values separate with the order of the values. -/
theorem encodeValue_separates {first second : Value} (firstLegal : Legal first)
    (secondLegal : Legal second) :
    Separates (encodeValue first) (encodeValue second) (first.cmp second) := by
  rw [encodeValue, encodeValue, put_canonicalKey firstLegal.wellFormed firstLegal.encodable,
    put_canonicalKey secondLegal.wellFormed secondLegal.encodable]
  exact put_separates firstLegal.encodable secondLegal.encodable

theorem encodeValue_ne_nil (value : Value) : encodeValue value ≠ [] := by
  obtain ⟨body, shape⟩ := put_head (canonicalKey value)
  rw [encodeValue, shape]
  exact List.cons_ne_nil _ _

/-- The order of two keys is the lexicographic order of their components. -/
theorem cmp_eq_components (first second : KeyValue) :
    first.cmp second = first.components.compareLex Value.cmp second.components := by
  rw [KeyValue.components, KeyValue.components, List.compareLex_cons_cons, KeyValue.cmp]

/-- The encoded keys have the order of the keys. -/
theorem compare_encodeKeyValue {first second : KeyValue}
    (firstLegal : ∀ component ∈ first.components, Legal component)
    (secondLegal : ∀ component ∈ second.components, Legal component) :
    compare (encodeKeyValue first) (encodeKeyValue second) = first.cmp second := by
  rw [cmp_eq_components]
  apply compareConcatenated
  · exact fun component _ => encodeValue_ne_nil component
  · exact fun component _ => encodeValue_ne_nil component
  · exact fun component inside other present =>
      encodeValue_separates (firstLegal component inside) (secondLegal other present)

/-- The byte order of encoded values and keys is their order, equal bytes are equal keys, and no unit
is a proper prefix of another unit. -/
theorem encode_order :
    (∀ first second : Value, Legal first → Legal second →
      compare (encodeValue first) (encodeValue second) = first.cmp second ∧
        (encodeValue first = encodeValue second ↔ first.cmp second = .eq) ∧
        (encodeValue first <+: encodeValue second → first.cmp second = .eq) ∧
        ∀ leftTail rightTail, compare (encodeValue first ++ leftTail) (encodeValue second ++ rightTail) =
          (first.cmp second).then (compare leftTail rightTail)) ∧
    (∀ first second : KeyValue, (∀ component ∈ first.components, Legal component) →
      (∀ component ∈ second.components, Legal component) →
      compare (encodeKeyValue first) (encodeKeyValue second) = first.cmp second ∧
        (encodeKeyValue first = encodeKeyValue second ↔ first.cmp second = .eq)) := by
  constructor
  · intro first second firstLegal secondLegal
    have separated := encodeValue_separates firstLegal secondLegal
    refine ⟨separated.compareEq, separated.eq_iff, ?_, separated.compareAppend⟩
    exact fun isPrefix => separated.eq_iff.mp (separated.eq_of_prefix isPrefix)
  · intro first second firstLegal secondLegal
    have order := compare_encodeKeyValue firstLegal secondLegal
    refine ⟨order, ?_⟩
    rw [← order]
    exact Std.LawfulEqOrd.compare_eq_iff_eq.symm

/-- A value that holds no other value is legal when its own number is in range. -/
theorem legal_of_leaf {value : Value} (sorted : value.SortedHere)
    (encodable : EncodableHere value) (leaf : value.children = []) : Legal value := by
  constructor
  · exact .intro sorted fun child inside => by rw [leaf] at inside; cases inside
  · exact .intro encodable fun child inside => by rw [leaf] at inside; cases inside

/-- A set of an integer and a decimal. -/
private def samplePair (decimal : BigDecimal) : Value :=
  .set [.int (-3), .decimal decimal]

private theorem samplePair_legal {decimal : BigDecimal} (admitted : Admitted decimal) :
    Legal (samplePair decimal) := by
  have short : (Nat.digits 256 3).length < 2 ^ 32 := by decide
  have int : Legal (.int (-3)) := legal_of_leaf trivial short rfl
  have number : Legal (.decimal decimal) := legal_of_leaf trivial admitted rfl
  constructor
  · refine .intro ?_ fun child inside => ?_
    · exact List.pairwise_pair.mpr rfl
    · rcases List.mem_cons.mp inside with rfl | other
      · exact int.wellFormed
      · rw [List.mem_singleton.mp other]
        exact number.wellFormed
  · refine .intro trivial fun child inside => ?_
    rcases List.mem_cons.mp inside with rfl | other
    · exact int.encodable
    · rw [List.mem_singleton.mp other]
      exact number.encodable

/-- Two spellings of one decimal give one code, and a lower decimal gives a lower key. -/
theorem encode_order_sample :
    encodeValue (samplePair ⟨15, 1⟩) = encodeValue (samplePair ⟨150, 2⟩) ∧
      compare (encodeKeyValue ⟨samplePair ⟨-15, 1⟩, []⟩) (encodeKeyValue ⟨samplePair ⟨15, 1⟩, []⟩) =
        .lt := by
  have short : Legal (samplePair ⟨15, 1⟩) := samplePair_legal fun _ => by decide
  have long : Legal (samplePair ⟨150, 2⟩) := samplePair_legal fun _ => by decide
  have negative : Legal (samplePair ⟨-15, 1⟩) := samplePair_legal fun _ => by decide
  constructor
  · exact (encode_order.1 _ _ short long).2.1.mpr (by decide)
  · rw [(encode_order.2 _ _ (fun component inside => ?_) (fun component inside => ?_)).1]
    · decide
    · rw [List.mem_singleton.mp inside]
      exact negative
    · rw [List.mem_singleton.mp inside]
      exact short

section Timestamps

/-- A timestamp at the coarsest precision that represents it. -/
def Coarsest (timestamp : Timestamp) : Prop :=
  timestamp.precision = .seconds ∨ timestamp.count.val % 1000 ≠ 0

theorem coarsest_coarsen {steps : Nat} {timestamp : Timestamp}
    (enough : coarserSteps timestamp.precision ≤ steps) : Coarsest (coarsen steps timestamp) := by
  induction steps generalizing timestamp with
  | zero =>
    obtain ⟨count, precision⟩ := timestamp
    cases precision with
    | seconds => exact .inl rfl
    | _ => cases enough
  | succ steps earlier =>
    rw [coarsen]
    cases next : coarserPrecision timestamp.precision with
    | none =>
      refine .inl ?_
      cases same : timestamp.precision with
      | seconds => rfl
      | _ => rw [same] at next; cases next
    | some coarser =>
      by_cases exact : timestamp.count.val % 1000 = 0
      · simp only [if_pos exact]
        refine earlier ?_
        -- The coarser precision has one step less before it.
        cases same : timestamp.precision <;> rw [same] at next enough <;> cases next <;>
          simp only [coarserSteps] at enough ⊢ <;> omega
      · simp only [if_neg exact]
        exact .inr exact

/-- Two timestamps of one instant at their coarsest precisions are the same. -/
theorem Coarsest.unique {first second : Timestamp} (one : Coarsest first) (two : Coarsest second)
    (same : first.secondsAndSubnanos = second.secondsAndSubnanos) : first = second := by
  obtain ⟨⟨left, leftLow, leftHigh⟩, leftPrecision⟩ := first
  obtain ⟨⟨right, rightLow, rightHigh⟩, rightPrecision⟩ := second
  cases leftPrecision <;> cases rightPrecision <;>
    simp only [Coarsest, Timestamp.secondsAndSubnanos, Precision.ticksPerSecond, Prod.mk.injEq, Timestamp.mk.injEq,
      Signed.mk.injEq, reduceCtorEq, true_or, false_or, and_true, and_false] at one two same ⊢ <;> omega

/-- Equal timestamps have one canonical form. -/
theorem canonicalTimestamp_eq_iff {first second : Timestamp} :
    canonicalTimestamp first = canonicalTimestamp second ↔ first.cmp second = .eq := by
  rw [Timestamp.cmp_eq_iff]
  constructor
  · intro same
    rw [← secondsAndSubnanos_canonical first, same, secondsAndSubnanos_canonical]
  · intro same
    have instants : (canonicalTimestamp first).secondsAndSubnanos = (canonicalTimestamp second).secondsAndSubnanos := by
      rw [secondsAndSubnanos_canonical, secondsAndSubnanos_canonical, same]
    exact Coarsest.unique (coarsest_coarsen le_rfl) (coarsest_coarsen le_rfl) instants

end Timestamps

end Liasse.KeyEnc

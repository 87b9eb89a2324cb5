/-
This file describes the values that stand at a type: those of its structure, and among them those whose wire
form spells all that they hold.
-/

import Liasse.Wire.Decoded

namespace Liasse.Wire

open Codes

open Liasse.Runtime (FieldType RefTarget)

section Standing

/-- A component of a composite is the absence of an optional component, or it stands below. An exact component
is not read as absent. -/
def SlotHere (libraries : Libraries) (exact : Prop) (below : FieldType → Value → Prop) (type : FieldType)
    (value : Value) : Prop :=
  isOptional type = true ∧ value = .none ∨
    below type value ∧ (exact → isOptional type = true → toWire libraries value ≠ .null)

/-- A declared field of a struct is there. Only a struct that is not exact leaves an optional one out. -/
def FieldHere (exact : Prop) (below : FieldType → Value → Prop) (held : List (String × Value))
    (field : String × FieldType) : Prop :=
  (∃ found ∈ held, found.1 = field.1 ∧ (isOptional field.2 = true ∧ found.2 = .none ∨ below field.2 found.2)) ∨
    ¬exact ∧ isOptional field.2 = true ∧ ∀ found ∈ held, found.1 ≠ field.1

/-- What a value is that stands at a type, up to the values that it holds. The conditions of an exact value say
that its wire form is enough to read it back. -/
def StandsHere (libraries : Libraries) (exact : Prop) (below : FieldType → Value → Prop) :
    FieldType → Value → Prop
  | .text, value => ∃ text, value = .text text
  | .bool, value => ∃ flag, value = .bool flag
  | .int, value => ∃ integer, value = .int integer
  | .decimal, value => ∃ decimal, value = .decimal decimal ∧ (exact → Decimal.Fits decimal)
  | .bytes, value => ∃ bytes, value = .bytes bytes
  | .uuid, value => ∃ uuid, value = .uuid uuid
  | .date, value => ∃ date, value = .date date ∧ (exact → DateExists date)
  | .timestamp precision, value => ∃ stamp, value = .timestamp stamp ∧ (exact → stamp.precision = precision)
  | .duration, value => ∃ nanos, value = .duration nanos ∧ (exact → -2 ^ 127 < nanos.val)
  | .period, value => ∃ period, value = .period period ∧ (exact → Readable period)
  | .json, value => ∃ json, value = .json json ∧ (exact → Document.Fits json)
  | .blob, value => ∃ blob, value = .blob blob
  | .enum labels, value => ∃ found, value = .enum found ∧ found.label ∈ labels ∧
      (exact → ∃ ordinal, labels.idxOf? found.label = some ordinal ∧ found.ordinal = UInt32.ofNat ordinal)
  | .optional inner, value => value = .none ∧ (exact → isJson inner = false) ∨
      value.present = true ∧ below inner value ∧
        (exact → isJson inner = false → toWire libraries value ≠ .null)
  | .set inner, value => ∃ members, value = .set members ∧
      ∀ member ∈ members, below inner member ∧ (exact → member.present = true)
  | .map key held, value => ∃ entries, value = .map entries ∧
      ∀ entry ∈ entries, below key entry.1 ∧ below held entry.2 ∧ (exact → entry.2.present = true)
  | .ref (.scalar inner), value => ∃ key, value = .ref (.scalar key) ∧ below inner key
  | .ref (.composite components), value => ∃ keys, value = .ref (.composite keys) ∧
      List.Forall₂ (fun component key => SlotHere libraries exact below component.2 key) components keys
  | .struct fields, value => ∃ held, value = .struct held ∧
      (∀ found ∈ held, ∃ field ∈ fields, field.1 = found.1) ∧ ∀ field ∈ fields, FieldHere exact below held field
  | .composite components, value => ∃ keys, value = .composite keys ∧
      List.Forall₂ (fun component key => SlotHere libraries exact below component.2 key) components keys
  | .view _, _ => False

/-- A value stands at a type with all that it holds. -/
inductive Stands (libraries : Libraries) (exact : Prop) : FieldType → Value → Prop
  | intro {type : FieldType} {value : Value} (below : FieldType → Value → Prop) :
      StandsHere libraries exact below type value →
        (∀ child held, below child held → Stands libraries exact child held) →
          Stands libraries exact type value

variable {libraries : Libraries}

theorem SlotHere.imp {exact weaker : Prop} (less : weaker → exact) {below other : FieldType → Value → Prop}
    {type : FieldType} {value : Value} (each : below type value → other type value)
    (slot : SlotHere libraries exact below type value) : SlotHere libraries weaker other type value := by
  rcases slot with absent | ⟨stands, shown⟩
  · exact .inl absent
  · exact .inr ⟨each stands, fun demanded => shown (less demanded)⟩

/-- The slots of a composite change with what stands below. -/
theorem slots_imp {exact weaker : Prop} (less : weaker → exact) {below other : FieldType → Value → Prop}
    {components : List (String × FieldType)} {keys : List Value}
    (each : ∀ child ∈ components.map Prod.snd, ∀ held ∈ keys, below child held → other child held)
    (slots : List.Forall₂ (fun component key => SlotHere libraries exact below component.2 key) components keys) :
    List.Forall₂ (fun component key => SlotHere libraries weaker other component.2 key) components keys := by
  refine (forall₂_mem slots).imp fun component key related => ?_
  obtain ⟨declared, inside, slot⟩ := related
  exact slot.imp less (each component.2 (List.mem_map_of_mem declared) key inside)

/-- A weaker standing asks for less, and for less of what the value holds. -/
theorem StandsHere.imp {exact weaker : Prop} (less : weaker → exact) {below other : FieldType → Value → Prop}
    {type : FieldType} {value : Value}
    (each : ∀ child ∈ type.children, ∀ held, held = value ∨ held ∈ value.children →
      below child held → other child held)
    (here : StandsHere libraries exact below type value) : StandsHere libraries weaker other type value := by
  cases type with
  | text | bool | int | bytes | uuid | blob => exact here
  | decimal | date | timestamp | duration | period | json =>
    obtain ⟨found, same, demand⟩ := here
    exact ⟨found, same, fun demanded => demand (less demanded)⟩
  | enum labels =>
    obtain ⟨found, same, declared, position⟩ := here
    exact ⟨found, same, declared, fun demanded => position (less demanded)⟩
  | optional inner =>
    rcases here with ⟨absent, plain⟩ | ⟨present, stands, shown⟩
    · exact .inl ⟨absent, fun demanded => plain (less demanded)⟩
    · exact .inr ⟨present, each inner List.mem_cons_self value (.inl rfl) stands,
        fun demanded => shown (less demanded)⟩
  | set inner =>
    obtain ⟨members, rfl, all⟩ := here
    refine ⟨members, rfl, fun member inside => ?_⟩
    obtain ⟨stands, present⟩ := all member inside
    exact ⟨each inner List.mem_cons_self member (.inr inside) stands, fun demanded => present (less demanded)⟩
  | map key held =>
    obtain ⟨entries, rfl, all⟩ := here
    refine ⟨entries, rfl, fun entry inside => ?_⟩
    obtain ⟨first, second, present⟩ := all entry inside
    refine ⟨?_, ?_, fun demanded => present (less demanded)⟩
    · exact each key List.mem_cons_self _ (.inr (List.mem_append_left _ (List.mem_map_of_mem inside))) first
    · exact each held (List.mem_cons_of_mem _ List.mem_cons_self) _
        (.inr (List.mem_append_right _ (List.mem_map_of_mem inside))) second
  | ref target =>
    cases target with
    | scalar inner =>
      obtain ⟨key, rfl, stands⟩ := here
      exact ⟨key, rfl, each inner List.mem_cons_self key (.inr List.mem_cons_self) stands⟩
    | composite components =>
      obtain ⟨keys, rfl, slots⟩ := here
      exact ⟨keys, rfl, slots_imp less (fun child listed held inside => each child listed held (.inr inside))
        slots⟩
  | struct fields =>
    obtain ⟨held, rfl, declared, all⟩ := here
    refine ⟨held, rfl, declared, fun field listed => ?_⟩
    rcases all field listed with ⟨found, inside, named, absent | stands⟩ | ⟨inexact, absent⟩
    · exact .inl ⟨found, inside, named, .inl absent⟩
    · exact .inl ⟨found, inside, named, .inr (each field.2 (List.mem_map_of_mem listed) found.2
        (.inr (List.mem_map_of_mem inside)) stands)⟩
    · exact .inr ⟨fun demanded => inexact (less demanded), absent⟩
  | composite components =>
    obtain ⟨keys, rfl, slots⟩ := here
    exact ⟨keys, rfl, slots_imp less (fun child listed held inside => each child listed held (.inr inside))
      slots⟩
  | view => exact here

theorem Stands.here {exact : Prop} {type : FieldType} {value : Value} (stands : Stands libraries exact type value) :
    StandsHere libraries exact (Stands libraries exact) type value := by
  obtain ⟨below, here, each⟩ := stands
  exact here.imp id fun child _ held _ => each child held

/-- A value that stands exactly at a type stands at it. -/
theorem Stands.weaken {exact weaker : Prop} (less : weaker → exact) {type : FieldType} {value : Value}
    (stands : Stands libraries exact type value) : Stands libraries weaker type value := by
  induction stands with
  | intro below here _ ih =>
    exact .intro below (here.imp less fun _ _ _ _ => id) ih

end Standing

section Reading

variable {libraries : Libraries}

theorem slots_of_decoded {components : List (String × FieldType)} {keys : List Value}
    (slots : List.Forall₂ (fun component key => Slot libraries component.2 key) components keys) :
    List.Forall₂ (fun component key => SlotHere libraries True (Decoded libraries) component.2 key) components
      keys := by
  refine slots.imp fun component key slot => ?_
  rcases slot with absent | ⟨decoded, shown⟩
  · exact .inl absent
  · exact .inr ⟨decoded, fun _ => shown⟩

/-- A decoded value stands exactly at its type, up to the decoded values that it holds. -/
theorem standsHere_of_decoded (documented : libraries.Documented) {type : FieldType} {value : Value}
    (sorted : type.SortedHere) (decoded : Decoded libraries type value) :
    StandsHere libraries True (Decoded libraries) type value := by
  have here := here_of_decoded documented sorted decoded
  cases type with
  | text | bool | int | bytes | uuid | blob => exact here
  | decimal | date | duration | period =>
    obtain ⟨found, rfl, demand⟩ := here
    exact ⟨found, rfl, fun _ => demand⟩
  | timestamp precision =>
    obtain ⟨count, rfl⟩ := here
    exact ⟨_, rfl, fun _ => rfl⟩
  | json =>
    obtain ⟨json, rfl, _, fits⟩ := here
    exact ⟨json, rfl, fun _ => fits⟩
  | enum labels =>
    obtain ⟨label, ordinal, rfl, position⟩ := here
    have found : (labels.idxOf? label).isSome = true := by
      rw [position]
      rfl
    exact ⟨_, rfl, List.isSome_idxOf?.mp found, fun _ => ⟨ordinal, position, rfl⟩⟩
  | optional inner =>
    rcases here with ⟨plain, rfl⟩ | ⟨found, shown⟩
    · exact .inl ⟨rfl, fun _ => plain⟩
    · refine .inr ⟨?_, found, fun _ => shown⟩
      cases value with
      | none =>
        cases inner with
        | json =>
          obtain ⟨_, read⟩ := found
          obtain ⟨_, same⟩ := read
          obtain ⟨_, _, wrong⟩ := map_ok.mp same
          cases wrong
        | _ => exact absurd rfl (shown rfl)
      | _ => rfl
  | set inner =>
    obtain ⟨members, rfl, _, all⟩ := here
    refine ⟨members, rfl, fun member inside => ?_⟩
    obtain ⟨found, present⟩ := all member inside
    exact ⟨found, fun _ => present⟩
  | map key held =>
    obtain ⟨entries, rfl, _, all⟩ := here
    refine ⟨entries, rfl, fun entry inside => ?_⟩
    obtain ⟨first, second, present⟩ := all entry inside
    exact ⟨first, second, fun _ => present⟩
  | ref target =>
    cases target with
    | scalar inner => exact here
    | composite components =>
      obtain ⟨keys, rfl, slots⟩ := here
      exact ⟨keys, rfl, slots_of_decoded slots⟩
  | struct fields =>
    obtain ⟨held, rfl, related⟩ := here
    refine ⟨held, rfl, fun found inside => ?_, fun field listed => ?_⟩
    · obtain ⟨field, listed, named, _⟩ := exists_related related.flip inside
      exact ⟨field, listed, named⟩
    · obtain ⟨found, inside, named, kept⟩ := exists_related related listed
      exact .inl ⟨found, inside, named.symm, kept⟩
  | composite components =>
    obtain ⟨keys, rfl, slots⟩ := here
    exact ⟨keys, rfl, slots_of_decoded slots⟩
  | view => cases here

/-- The collections of a decoded value are sorted. -/
theorem sortedHere_of_decoded (documented : libraries.Documented) {type : FieldType} (formed : type.WellFormed)
    {value : Value} (decoded : Decoded libraries type value) : value.SortedHere := by
  induction type using FieldType.induct generalizing value with
  | step type ih =>
    obtain ⟨sorted, below⟩ := formed
    have here := here_of_decoded documented sorted decoded
    cases type with
    | text | bool | int | bytes | uuid | blob | timestamp =>
      obtain ⟨found, rfl⟩ := here
      trivial
    | decimal | date | duration | period =>
      obtain ⟨found, rfl, _⟩ := here
      trivial
    | json =>
      obtain ⟨json, rfl, formed, _⟩ := here
      exact formed
    | enum labels =>
      obtain ⟨label, ordinal, rfl, _⟩ := here
      trivial
    | optional inner =>
      rcases here with ⟨_, rfl⟩ | ⟨found, _⟩
      · trivial
      · exact ih inner List.mem_cons_self (below inner List.mem_cons_self) found
    | set | map =>
      obtain ⟨held, rfl, order, _⟩ := here
      exact order
    | ref target =>
      cases target with
      | scalar | composite =>
        obtain ⟨held, rfl, _⟩ := here
        trivial
    | struct fields =>
      obtain ⟨held, rfl, related⟩ := here
      exact sorted_of_names sorted (related.imp fun _ _ => And.left)
    | composite components =>
      obtain ⟨held, rfl, _⟩ := here
      trivial
    | view => cases here

end Reading

section Identity

variable {libraries : Libraries}

/-- A value is identical to a decoded one. -/
def Like (libraries : Libraries) (type : FieldType) (value : Value) : Prop :=
  ∃ read, Decoded libraries type read ∧ value.Identical read

/-- A value that is equal to one that is not null on the wire is not null on the wire. -/
theorem toWire_ne_null_congr {first second : Value} (same : first.cmp second = .eq)
    (shown : toWire libraries second ≠ .null) : toWire libraries first ≠ .null := by
  induction first using Value.induct generalizing second with
  | step first ih =>
    cases Value.sameKind_of_cmp same with
    | period first second => exact periodToWire_ne_null first
    | json first second =>
      change Document.toWire first ≠ .null
      rw [Document.toWire_congr same]
      exact shown
    | ref first second =>
      cases first with
      | scalar key =>
        cases second with
        | scalar other => exact ih key List.mem_cons_self same shown
        | composite others => cases same
      | composite components => exact J.noConfusion
    | none => exact shown
    | _ => exact J.noConfusion

/-- A slot that is identical to a decoded one. -/
theorem slotHere_of_identical {type : FieldType} {value read : Value} (slot : Slot libraries type read)
    (identical : value.Identical read) : SlotHere libraries True (Like libraries) type value := by
  rcases slot with ⟨optional, rfl⟩ | ⟨decoded, shown⟩
  · refine .inl ⟨optional, ?_⟩
    cases Value.sameKind_of_cmp identical.1
    rfl
  · exact .inr ⟨⟨read, decoded, identical⟩, fun _ optional => toWire_ne_null_congr identical.1 (shown optional)⟩

theorem slots_of_identical {components : List (String × FieldType)} {keys reads : List Value}
    (slots : List.Forall₂ (fun component read => Slot libraries component.2 read) components reads)
    (identical : List.Forall₂ Value.Identical keys reads) :
    List.Forall₂ (fun component key => SlotHere libraries True (Like libraries) component.2 key) components
      keys := by
  induction slots generalizing keys with
  | nil =>
    cases identical
    exact .nil
  | cons here _ ih =>
    cases identical with
    | cons same rest => exact .cons (slotHere_of_identical here same) (ih rest)

/-- A value that is identical to a decoded one stands exactly, up to the values that it holds. -/
theorem standsHere_of_like (documented : libraries.Documented) {type : FieldType} (sorted : type.SortedHere)
    {value : Value} (order : value.SortedHere) (like : Like libraries type value) :
    StandsHere libraries True (Like libraries) type value := by
  obtain ⟨read, decoded, identical⟩ := like
  have here := here_of_decoded documented sorted decoded
  obtain ⟨stamp, below⟩ := identical.children
  have kinds := Value.sameKind_of_cmp identical.1
  have normal := Value.normal_congr identical.1
  cases type with
  | text | bool | int | bytes | uuid | blob =>
    obtain ⟨found, rfl⟩ := here
    cases kinds
    exact ⟨_, rfl⟩
  | decimal =>
    obtain ⟨found, rfl, fits⟩ := here
    cases kinds with
    | decimal first _ =>
      refine ⟨first, rfl, fun _ => ?_⟩
      rw [Decimal.Fits, Decimal.normalized_congr (BigDecimal.cmp_eq_iff.mp identical.1)]
      exact fits
  | date =>
    obtain ⟨found, rfl, real⟩ := here
    cases kinds
    cases normal
    exact ⟨_, rfl, fun _ => real⟩
  | timestamp precision =>
    obtain ⟨count, rfl⟩ := here
    cases kinds
    obtain ⟨rfl, _⟩ := List.cons.inj stamp
    exact ⟨_, rfl, fun _ => rfl⟩
  | duration | period =>
    obtain ⟨found, rfl, demand⟩ := here
    cases kinds
    cases normal
    exact ⟨_, rfl, fun _ => demand⟩
  | json =>
    obtain ⟨json, rfl, formed, fits⟩ := here
    cases kinds with
    | json first _ =>
      obtain ⟨found, parsed, _⟩ := Document.fromWire_toWire documented formed fits
      rw [← Document.toWire_congr identical.1] at parsed
      exact ⟨first, rfl, fun _ => Document.fits_of_fromWire documented order parsed⟩
  | enum labels =>
    obtain ⟨label, ordinal, rfl, position⟩ := here
    cases kinds
    cases normal
    have found : (labels.idxOf? label).isSome = true := by
      rw [position]
      rfl
    exact ⟨_, rfl, List.isSome_idxOf?.mp found, fun _ => ⟨ordinal, position, rfl⟩⟩
  | optional inner =>
    have alone := standsHere_of_decoded documented sorted decoded
    rcases alone with ⟨rfl, plain⟩ | ⟨present, found, shown⟩
    · cases kinds
      exact .inl ⟨rfl, plain⟩
    · refine .inr ⟨(Value.present_congr identical.1).trans present, ⟨read, found, identical⟩, fun _ plain => ?_⟩
      exact toWire_ne_null_congr identical.1 (shown trivial plain)
  | set inner =>
    obtain ⟨members, rfl, _, all⟩ := here
    cases kinds with
    | set first _ =>
      refine ⟨first, rfl, fun member inside => ?_⟩
      obtain ⟨other, listed, same⟩ := exists_related below inside
      obtain ⟨found, present⟩ := all other listed
      exact ⟨⟨other, found, same⟩, fun _ => (Value.present_congr same.1).trans present⟩
  | map key held =>
    obtain ⟨entries, rfl, _, all⟩ := here
    cases kinds with
    | map first _ =>
      have same := identical.1
      rw [Value.cmp, Value.cmpEntries_eq] at same
      have lengths := (forall₂_of_compareLex same).length_eq
      obtain ⟨keys, values⟩ := forall₂_of_append (by rw [List.length_map, List.length_map, lengths]) below
      have pairs := List.Forall₂.mp (fun _ _ => And.intro)
        (List.forall₂_map_left_iff.mp (List.forall₂_map_right_iff.mp keys))
        (List.forall₂_map_left_iff.mp (List.forall₂_map_right_iff.mp values))
      refine ⟨first, rfl, fun entry inside => ?_⟩
      obtain ⟨other, listed, sameKey, sameValue⟩ := exists_related pairs inside
      obtain ⟨keyed, valued, present⟩ := all other listed
      exact ⟨⟨_, keyed, sameKey⟩, ⟨_, valued, sameValue⟩,
        fun _ => (Value.present_congr sameValue.1).trans present⟩
  | ref target =>
    cases target with
    | scalar inner =>
      obtain ⟨key, rfl, found⟩ := here
      cases kinds with
      | ref first _ =>
        cases first with
        | scalar other =>
          obtain ⟨same, _⟩ := List.forall₂_cons.mp below
          exact ⟨other, rfl, key, found, same⟩
        | composite others => cases identical.1
    | composite components =>
      obtain ⟨keys, rfl, slots⟩ := here
      cases kinds with
      | ref first _ =>
        cases first with
        | scalar other => cases identical.1
        | composite others => exact ⟨others, rfl, slots_of_identical slots below⟩
  | struct fields =>
    obtain ⟨held, rfl, related⟩ := here
    cases kinds with
    | struct first _ =>
      have same := identical.1
      rw [Value.cmp, Value.cmpFields_eq] at same
      have pairs := List.Forall₂.mp (fun _ _ => And.intro) (forall₂_of_compareLex same)
        (List.forall₂_map_left_iff.mp (List.forall₂_map_right_iff.mp below))
      have named {found other : String × Value} (equal : Value.cmpField found other = .eq) :
          found.1 = other.1 := (compareText_eq_iff _ _).mp (Value.compareName_of_cmpField equal)
      refine ⟨first, rfl, fun found inside => ?_, fun field listed => .inl ?_⟩
      · obtain ⟨other, present, equal, _⟩ := exists_related pairs inside
        obtain ⟨field, listed, declared, _⟩ := exists_related related.flip present
        exact ⟨field, listed, declared.trans (named equal).symm⟩
      · obtain ⟨other, present, declared, kept⟩ := exists_related related listed
        obtain ⟨found, inside, equal, whole⟩ := exists_related pairs.flip present
        refine ⟨found, inside, (named equal).trans declared.symm, ?_⟩
        rcases kept with ⟨optional, absent⟩ | decoded
        · refine .inl ⟨optional, ?_⟩
          have shown := Value.present_congr whole.1
          rw [absent] at shown
          exact Value.eq_none_of_present shown
        · exact .inr ⟨other.2, decoded, whole⟩
  | composite components =>
    obtain ⟨keys, rfl, slots⟩ := here
    cases kinds with
    | composite first _ => exact ⟨first, rfl, slots_of_identical slots below⟩
  | view => cases here

end Identity

end Liasse.Wire

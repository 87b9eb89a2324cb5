/-
This file describes the values that the decoder of a declared type answers, from the type and from the values
that they hold.
-/

import Liasse.Wire.Typed

namespace Liasse

open Codes

namespace Runtime

/-- The types that a reference target holds directly. -/
def RefTarget.children : RefTarget → List FieldType
  | .scalar key => [key]
  | .composite components => components.map Prod.snd

namespace FieldType

/-- The types that a type holds directly. -/
def children : FieldType → List FieldType
  | .optional inner => [inner]
  | .set inner => [inner]
  | .map key value => [key, value]
  | .view inner => [inner]
  | .ref target => target.children
  | .struct fields => fields.map Prod.snd
  | .composite components => components.map Prod.snd
  | _ => []

theorem sizeOf_lt_of_mem_map {members : List (String × FieldType)} {child : FieldType}
    (inside : child ∈ members.map Prod.snd) : sizeOf child < sizeOf members := by
  obtain ⟨⟨name, type⟩, present, rfl⟩ := List.mem_map.mp inside
  have smaller := List.sizeOf_lt_of_mem present
  simp only [Prod.mk.sizeOf_spec] at smaller
  change sizeOf type < _
  omega

theorem sizeOf_lt_of_mem_children {type child : FieldType} (inside : child ∈ type.children) :
    sizeOf child < sizeOf type := by
  cases type with
  | optional inner =>
    rw [List.mem_singleton.mp inside, optional.sizeOf_spec]
    omega
  | set inner =>
    rw [List.mem_singleton.mp inside, set.sizeOf_spec]
    omega
  | view inner =>
    rw [List.mem_singleton.mp inside, view.sizeOf_spec]
    omega
  | map key value =>
    rw [map.sizeOf_spec]
    rcases List.mem_cons.mp inside with rfl | inside
    · omega
    · rw [List.mem_singleton.mp inside]
      omega
  | ref target =>
    cases target with
    | scalar key =>
      rw [List.mem_singleton.mp inside, ref.sizeOf_spec, RefTarget.scalar.sizeOf_spec]
      omega
    | composite components =>
      have smaller := sizeOf_lt_of_mem_map inside
      rw [ref.sizeOf_spec, RefTarget.composite.sizeOf_spec]
      omega
  | struct fields =>
    have smaller := sizeOf_lt_of_mem_map inside
    rw [struct.sizeOf_spec]
    omega
  | composite components =>
    have smaller := sizeOf_lt_of_mem_map inside
    rw [composite.sizeOf_spec]
    omega
  | _ => cases inside

/-- The induction over types assumes the statement of each direct child. -/
theorem induct {statement : FieldType → Prop}
    (step : ∀ type, (∀ child ∈ type.children, statement child) → statement type) (type : FieldType) :
    statement type := by
  induction size : sizeOf type using Nat.strong_induction_on generalizing type with
  | _ bound ih =>
    apply step
    intro child inside
    exact ih _ (size ▸ sizeOf_lt_of_mem_children inside) child rfl

/-- The order of declared fields by name. -/
def compareName (first second : String × FieldType) : Ordering :=
  compareText first.1 second.1

/-- The fields of a struct type are strictly sorted by name. -/
def SortedHere : FieldType → Prop
  | .struct fields => Sorted compareName fields
  | _ => True

/-- This property holds of a type and of all types inside it. -/
inductive Everywhere (property : FieldType → Prop) : FieldType → Prop
  | intro {type : FieldType} : property type → (∀ child ∈ type.children, Everywhere property child) →
      Everywhere property type

/-- All struct types inside a type are sorted. -/
def WellFormed (type : FieldType) : Prop :=
  type.Everywhere SortedHere

theorem WellFormed.here {type : FieldType} (formed : type.WellFormed) : type.SortedHere := by
  obtain ⟨sorted, _⟩ := formed
  exact sorted

end FieldType

end Runtime

namespace Wire

open Liasse.Runtime (FieldType RefTarget)

variable {libraries : Libraries}

section Lists

@[simp] theorem listToWire_eq (values : List Value) :
    listToWire libraries values = values.map (toWire libraries) := by
  induction values with
  | nil => rfl
  | cons value rest ih => rw [listToWire, ih, List.map_cons]

@[simp] theorem fieldsToWire_eq (fields : List (String × Value)) :
    fieldsToWire libraries fields = fields.flatMap (fieldToWire libraries) := by
  induction fields with
  | nil => rfl
  | cons field rest ih => rw [fieldsToWire, ih, List.flatMap_cons]

@[simp] theorem entriesToWire_eq (entries : List (Value × Value)) :
    entriesToWire libraries entries = entries.map (entryToWire libraries) := by
  induction entries with
  | nil => rfl
  | cons entry rest ih => rw [entriesToWire, ih, List.map_cons]

variable {mode : DecodeMode}

@[simp] theorem decodeNamed_eq (components : List (String × FieldType)) (members : List (String × J)) :
    decodeNamed libraries mode components members =
      components.mapM fun component => decodeNamedComponent libraries mode component members := by
  induction components with
  | nil => rfl
  | cons component rest ih => rw [decodeNamed, ih, List.mapM_cons]

@[simp] theorem decodeFields_eq (fields : List (String × FieldType)) (members : List (String × J)) :
    decodeFields libraries mode fields members =
      fields.mapM fun field => decodeField libraries mode field members := by
  induction fields with
  | nil => rfl
  | cons field rest ih => rw [decodeFields, ih, List.mapM_cons]

end Lists

section Decoded

/-- A value is decoded at a type when some wire form decodes to it in some mode. -/
def Decoded (libraries : Libraries) (type : FieldType) (value : Value) : Prop :=
  ∃ mode tree, decodeAs libraries mode type tree = .ok value

/-- A component of a composite is the absence of an optional component, or a decoded value. A decoded value of
an optional component is not null on the wire. -/
def Slot (libraries : Libraries) (type : FieldType) (value : Value) : Prop :=
  isOptional type = true ∧ value = .none ∨
    Decoded libraries type value ∧ (isOptional type = true → toWire libraries value ≠ .null)

variable {mode : DecodeMode}

theorem eq_null_of_isNull {tree : J} (null : tree.isNull = true) : tree = .null := by
  cases tree with
  | null => rfl
  | _ => cases null

/-- A period is not null on the wire. -/
theorem periodToWire_ne_null (period : Period) : periodToWire period ≠ .null := by
  cases period with
  | fixed nanos => exact J.noConfusion
  | calendar period => exact J.noConfusion

/-- Only null decodes to a value that is null on the wire. -/
theorem toWire_ne_null {type : FieldType} {tree : J} {value : Value}
    (decoded : decodeAs libraries mode type tree = .ok value) (present : tree ≠ .null) :
    toWire libraries value ≠ .null := by
  induction type using FieldType.induct generalizing value with
  | step type ih =>
    cases type with
    | text | bool | bytes | blob =>
      obtain ⟨found, _, rfl⟩ := map_ok.mp decoded
      exact J.noConfusion
    | int | decimal | uuid | date | timestamp | duration | enum =>
      obtain ⟨_, _, rest⟩ := bind_ok.mp decoded
      obtain ⟨found, _, rfl⟩ := map_ok.mp rest
      exact J.noConfusion
    | period =>
      obtain ⟨found, _, rfl⟩ := map_ok.mp decoded
      exact periodToWire_ne_null found
    | json =>
      obtain ⟨found, read, rfl⟩ := map_ok.mp decoded
      cases tree with
      | null => exact absurd rfl present
      | bool | string => exact Except.ok.inj read ▸ J.noConfusion
      | number | array | object =>
        obtain ⟨_, _, rfl⟩ := map_ok.mp read
        exact J.noConfusion
    | optional inner =>
      rw [decodeAs] at decoded
      split at decoded
      · next null => exact absurd (eq_null_of_isNull null.1) present
      · exact ih inner List.mem_cons_self decoded
    | set | map =>
      obtain ⟨_, _, rest⟩ := bind_ok.mp decoded
      obtain ⟨_, _, last⟩ := bind_ok.mp rest
      exact Except.ok.inj last ▸ J.noConfusion
    | ref target =>
      cases target with
      | scalar inner =>
        obtain ⟨key, read, rfl⟩ := map_ok.mp decoded
        obtain ⟨found, scalar, rfl⟩ := map_ok.mp read
        have shown : toWire libraries found ≠ .null :=
          ih inner List.mem_cons_self scalar
        exact shown
      | composite components =>
        obtain ⟨key, read, rfl⟩ := map_ok.mp decoded
        obtain ⟨found, _, rfl⟩ := map_ok.mp read
        exact J.noConfusion
    | struct fields =>
      obtain ⟨members, _, rest⟩ := bind_ok.mp decoded
      split at rest
      · cases rest
      · obtain ⟨found, _, rfl⟩ := map_ok.mp rest
        exact J.noConfusion
    | composite components =>
      obtain ⟨found, _, rfl⟩ := map_ok.mp decoded
      exact J.noConfusion
    | view => cases decoded

/-- A period is readable when a calendar period has a magnitude and its time is above the least integer. -/
def Readable : Period → Prop
  | .fixed nanos => -2 ^ 127 < nanos.val
  | .calendar period => HasMagnitude period ∧ -2 ^ 127 < period.time.val

/-- What the values decoded at a type are, up to the values that they hold. -/
def DecodedHere (libraries : Libraries) : FieldType → Value → Prop
  | .text, value => ∃ text, value = .text text
  | .bool, value => ∃ flag, value = .bool flag
  | .int, value => ∃ integer, value = .int integer
  | .decimal, value => ∃ decimal, value = .decimal decimal ∧ Decimal.Fits decimal
  | .bytes, value => ∃ bytes, value = .bytes bytes
  | .uuid, value => ∃ uuid, value = .uuid uuid
  | .date, value => ∃ date, value = .date date ∧ DateExists date
  | .timestamp precision, value => ∃ count, value = .timestamp ⟨count, precision⟩
  | .duration, value => ∃ nanos, value = .duration nanos ∧ -2 ^ 127 < nanos.val
  | .period, value => ∃ period, value = .period period ∧ Readable period
  | .json, value => ∃ json, value = .json json ∧ json.WellFormed ∧ Document.Fits json
  | .blob, value => ∃ blob, value = .blob blob
  | .enum labels, value => ∃ label ordinal, value = .enum ⟨UInt32.ofNat ordinal, label⟩ ∧
      labels.idxOf? label = some ordinal
  | .optional inner, value => isJson inner = false ∧ value = .none ∨
      Decoded libraries inner value ∧ (isJson inner = false → toWire libraries value ≠ .null)
  | .set inner, value => ∃ members, value = .set members ∧ Sorted Value.cmp members ∧
      ∀ member ∈ members, Decoded libraries inner member ∧ member.present = true
  | .map key held, value => ∃ entries, value = .map entries ∧ Sorted Value.compareKey entries ∧
      ∀ entry ∈ entries, Decoded libraries key entry.1 ∧ Decoded libraries held entry.2 ∧
        entry.2.present = true
  | .ref (.scalar inner), value => ∃ key, value = .ref (.scalar key) ∧ Decoded libraries inner key
  | .ref (.composite components), value => ∃ keys, value = .ref (.composite keys) ∧
      List.Forall₂ (fun component key => Slot libraries component.2 key) components keys
  | .struct fields, value => ∃ held, value = .struct held ∧
      List.Forall₂ (fun field found => field.1 = found.1 ∧
        (isOptional field.2 = true ∧ found.2 = .none ∨ Decoded libraries field.2 found.2)) fields held
  | .composite components, value => ∃ keys, value = .composite keys ∧
      List.Forall₂ (fun component key => Slot libraries component.2 key) components keys
  | .view _, _ => False

theorem parse_of_decodeScalar {α : Type} {tree : J} {ty text : String} {parse : String → Except ValueError α}
    {canonical : α → String} {value : α}
    (decoded : decodeScalar mode tree ty parse canonical text = .ok value) : parse text = .ok value := by
  obtain ⟨found, parsed, rest⟩ := bind_ok.mp decoded
  obtain ⟨_, _, last⟩ := bind_ok.mp rest
  exact Except.ok.inj last ▸ parsed

/-- The members of a calendar period keep its time above the least integer. -/
theorem setMember_time {period result : CalendarPeriod} {member : String × J}
    (set : setMember period member = .ok result) (above : -2 ^ 127 < period.time.val) :
    -2 ^ 127 < result.time.val := by
  unfold setMember at set
  split at set
  · obtain ⟨_, _, rfl⟩ := map_ok.mp set
    exact above
  · split at set
    · obtain ⟨_, _, rfl⟩ := map_ok.mp set
      exact above
    · split at set
      · obtain ⟨_, _, rfl⟩ := map_ok.mp set
        exact above
      · split at set
        · obtain ⟨_, _, rfl⟩ := map_ok.mp set
          exact above
        · split at set
          · split at set
            · obtain ⟨time, parsed, rfl⟩ := map_ok.mp set
              exact Duration.above_of_parse parsed
            · cases set
          · split at set
            · split at set
              · exact Except.ok.inj set ▸ above
              · cases set
            · split at set
              · obtain ⟨_, _, rest⟩ := bind_ok.mp set
                obtain ⟨_, _, last⟩ := bind_ok.mp rest
                exact Except.ok.inj last ▸ above
              · split at set
                · obtain ⟨_, _, rest⟩ := bind_ok.mp set
                  obtain ⟨_, _, last⟩ := bind_ok.mp rest
                  exact Except.ok.inj last ▸ above
                · split at set
                  · obtain ⟨_, _, rest⟩ := bind_ok.mp set
                    obtain ⟨_, _, last⟩ := bind_ok.mp rest
                    exact Except.ok.inj last ▸ above
                  · cases set

theorem foldlM_time {members : List (String × J)} {period result : CalendarPeriod}
    (folded : members.foldlM setMember period = .ok result) (above : -2 ^ 127 < period.time.val) :
    -2 ^ 127 < result.time.val := by
  induction members generalizing period with
  | nil => exact Except.ok.inj folded ▸ above
  | cons member rest ih =>
    obtain ⟨next, set, others⟩ := bind_ok.mp folded
    exact ih others (setMember_time set above)

theorem readable_of_decodePeriod {tree : J} {period : Period} (decoded : decodePeriod mode tree = .ok period) :
    Readable period := by
  cases tree with
  | string text =>
    obtain ⟨nanos, scalar, rfl⟩ := map_ok.mp decoded
    exact Duration.above_of_parse (parse_of_decodeScalar scalar)
  | object members =>
    obtain ⟨calendar, read, rfl⟩ := map_ok.mp decoded
    obtain ⟨built, folded, rest⟩ := bind_ok.mp read
    have above : -2 ^ 127 < built.time.val := foldlM_time folded (by decide)
    unfold buildCalendar at rest
    split at rest
    · next magnitude =>
        obtain rfl := Except.ok.inj rest
        exact ⟨magnitude, above⟩
    · cases rest
  | _ => cases decoded

/-- A decoded component is a slot. -/
theorem slot_of_decodeComponent {component : String × FieldType} {item : J} {value : Value}
    (decoded : decodeComponent libraries mode component item = .ok value) :
    Slot libraries component.2 value := by
  obtain ⟨name, type⟩ := component
  rw [decodeComponent] at decoded
  split at decoded
  · next null => exact .inl ⟨null.1, (Except.ok.inj decoded).symm⟩
  · next shown =>
      refine .inr ⟨⟨mode, item, decoded⟩, fun optional => toWire_ne_null decoded ?_⟩
      rintro rfl
      exact shown ⟨optional, rfl⟩

theorem slot_of_decodeNamedComponent {component : String × FieldType} {members : List (String × J)}
    {value : Value} (decoded : decodeNamedComponent libraries mode component members = .ok value) :
    Slot libraries component.2 value := by
  obtain ⟨name, type⟩ := component
  rw [decodeNamedComponent] at decoded
  split at decoded
  · next item _ =>
      have alone : decodeComponent libraries mode (name, type) item = .ok value := decoded
      exact slot_of_decodeComponent alone
  · split at decoded
    · next optional => exact .inl ⟨optional, (Except.ok.inj decoded).symm⟩
    · cases decoded

/-- The components of a decoded composite are slots. -/
theorem slots_of_decodeComposite {components : List (String × FieldType)} {tree : J} {values : List Value}
    (decoded : decodeComposite components (fun items => decodePositional libraries mode components items)
      (fun members => decodeNamed libraries mode components members) tree = .ok values) :
    List.Forall₂ (fun component value => Slot libraries component.2 value) components values := by
  cases tree with
  | array items =>
    rw [decodeComposite] at decoded
    split at decoded
    · cases decoded
    · next arity =>
        replace arity := not_not.mp arity
        induction components generalizing items values with
        | nil =>
          obtain rfl := Except.ok.inj decoded
          exact .nil
        | cons component rest ih =>
          cases items with
          | nil => cases arity
          | cons item items =>
            rw [decodePositional] at decoded
            obtain ⟨first, here, others⟩ := bind_ok.mp decoded
            obtain ⟨found, positional, last⟩ := bind_ok.mp others
            obtain rfl := Except.ok.inj last
            exact .cons (slot_of_decodeComponent here)
              (ih items positional (Nat.succ.inj arity))
  | object members =>
    rw [decodeComposite] at decoded
    split at decoded
    · cases decoded
    · rw [decodeNamed_eq] at decoded
      exact (forall₂_of_mapM decoded).imp fun _ _ => slot_of_decodeNamedComponent
  | _ => cases decoded

/-- The set of decoded members. -/
theorem here_of_setOf {inner : FieldType} {members : List Value}
    (each : ∀ member ∈ members, Decoded libraries inner member) :
    DecodedHere libraries (.set inner) (setOf members) := by
  refine ⟨_, rfl, sorted_collectMerged (fun kept _ _ => Std.ReflCmp.compare_self) _, ?_⟩
  refine forall_collectMerged (fun _ _ kept _ => kept) fun member inside => ?_
  obtain ⟨listed, shown⟩ := List.mem_filter.mp inside
  exact ⟨each member listed, shown⟩

/-- The map of decoded entries. -/
theorem here_of_mapOf {key held : FieldType} {entries : List (Option (Value × Value))}
    (each : ∀ entry ∈ entries, ∀ found, entry = some found →
      Decoded libraries key found.1 ∧ Decoded libraries held found.2 ∧ found.2.present = true) :
    DecodedHere libraries (.map key held) (mapOf entries) := by
  refine ⟨_, rfl, sorted_collectMerged (fun kept added _ => ?_) _, ?_⟩
  · have same : Value.cmp kept.1 kept.1 = .eq := Std.ReflCmp.compare_self
    exact same
  · refine forall_collectMerged (fun first second kept added => ⟨kept.1, added.2⟩) fun found inside => ?_
    exact each (some found) (List.reduceOption_mem_iff.mp inside) found rfl

theorem entry_of_decodeEntry {key held : FieldType} {tree : J} {found : Value × Value}
    (decoded : decodeEntry (fun first => decodeAs libraries mode key first)
      (fun second => decodeAs libraries mode held second) tree = .ok (some found)) :
    Decoded libraries key found.1 ∧ Decoded libraries held found.2 ∧ found.2.present = true := by
  unfold decodeEntry at decoded
  split at decoded
  · next first second =>
      obtain ⟨value, valued, rest⟩ := bind_ok.mp decoded
      split at rest
      · next shown =>
          obtain ⟨read, keyed, last⟩ := bind_ok.mp rest
          obtain rfl := Option.some.inj (Except.ok.inj last)
          exact ⟨⟨mode, first, keyed⟩, ⟨mode, second, valued⟩, shown⟩
      · cases Except.ok.inj rest
  · cases decoded
  · cases decoded

/-- A decoded field has the declared name. -/
theorem field_of_decodeField {field : String × FieldType} {members : List (String × J)}
    {found : String × Value} (decoded : decodeField libraries mode field members = .ok found) :
    field.1 = found.1 ∧
      (isOptional field.2 = true ∧ found.2 = .none ∨ Decoded libraries field.2 found.2) := by
  obtain ⟨name, type⟩ := field
  rw [decodeField] at decoded
  split at decoded
  · next tree _ =>
      obtain ⟨value, read, rfl⟩ := map_ok.mp decoded
      exact ⟨rfl, .inr ⟨mode, tree, read⟩⟩
  · split at decoded
    · next optional =>
        obtain rfl := Except.ok.inj decoded
        exact ⟨rfl, .inl ⟨optional, rfl⟩⟩
    · cases decoded

/-- The fields of a decoded struct are in the order of the declaration. -/
theorem sorted_of_names {fields : List (String × FieldType)} {found : List (String × Value)}
    (sorted : Sorted FieldType.compareName fields)
    (names : List.Forall₂ (fun field held => field.1 = held.1) fields found) :
    Sorted Value.compareName found := by
  induction names with
  | nil => exact .nil
  | @cons field held rest others here below ih =>
    obtain ⟨least, later⟩ := List.pairwise_cons.mp sorted
    refine List.pairwise_cons.mpr ⟨fun other inside => ?_, ih later⟩
    obtain ⟨index, bound, rfl⟩ := List.mem_iff_getElem.mp inside
    have short : index < rest.length := below.length_eq ▸ bound
    have same : rest[index].1 = others[index].1 := below.get short bound
    have below := least rest[index] (List.getElem_mem short)
    rw [FieldType.compareName, here, same] at below
    exact below

theorem structOf_sorted {found : List (String × Value)} (sorted : Sorted Value.compareName found) :
    structOf found = .struct found := by
  rw [structOf, collectSorted_eq_self (fun _ _ _ _ => Std.OrientedCmp.gt_of_lt) sorted]

/-- The values decoded at a type. -/
theorem here_of_decoded (documented : libraries.Documented) {type : FieldType} {value : Value}
    (sorted : type.SortedHere) (decoded : Decoded libraries type value) :
    DecodedHere libraries type value := by
  obtain ⟨mode, tree, decoded⟩ := decoded
  cases type with
  | text | bool | bytes | blob =>
    obtain ⟨found, _, rfl⟩ := map_ok.mp decoded
    exact ⟨found, rfl⟩
  | int | uuid =>
    obtain ⟨_, _, rest⟩ := bind_ok.mp decoded
    obtain ⟨found, _, rfl⟩ := map_ok.mp rest
    exact ⟨found, rfl⟩
  | decimal =>
    obtain ⟨_, _, rest⟩ := bind_ok.mp decoded
    obtain ⟨found, scalar, rfl⟩ := map_ok.mp rest
    exact ⟨found, rfl, Decimal.fits_of_parse (parse_of_decodeScalar scalar)⟩
  | date =>
    obtain ⟨text, _, rest⟩ := bind_ok.mp decoded
    obtain ⟨found, scalar, rfl⟩ := map_ok.mp rest
    refine ⟨found, rfl, documented.dateExists text found ?_⟩
    have parsed := parse_of_decodeScalar scalar
    unfold parseDate at parsed
    cases read : libraries.parseDate text with
    | none =>
      rw [read] at parsed
      cases parsed
    | some date =>
      rw [read] at parsed
      exact congrArg some (Except.ok.inj parsed)
  | timestamp precision =>
    obtain ⟨text, _, rest⟩ := bind_ok.mp decoded
    obtain ⟨found, scalar, rfl⟩ := map_ok.mp rest
    obtain ⟨count, _, rfl⟩ := map_ok.mp (parse_of_decodeScalar scalar)
    exact ⟨count, rfl⟩
  | duration =>
    obtain ⟨_, _, rest⟩ := bind_ok.mp decoded
    obtain ⟨found, scalar, rfl⟩ := map_ok.mp rest
    exact ⟨found, rfl, Duration.above_of_parse (parse_of_decodeScalar scalar)⟩
  | period =>
    obtain ⟨found, read, rfl⟩ := map_ok.mp decoded
    exact ⟨found, rfl, readable_of_decodePeriod read⟩
  | json =>
    obtain ⟨found, read, rfl⟩ := map_ok.mp decoded
    exact ⟨found, rfl, Document.of_fromWire read⟩
  | enum labels =>
    obtain ⟨label, _, rest⟩ := bind_ok.mp decoded
    obtain ⟨found, read, rfl⟩ := map_ok.mp rest
    unfold decodeEnum at read
    split at read
    · next ordinal position =>
        obtain rfl := Except.ok.inj read
        exact ⟨label, ordinal, rfl, position⟩
    · cases read
  | optional inner =>
    rw [decodeAs] at decoded
    split at decoded
    · next null =>
        exact .inl ⟨Bool.eq_false_of_not_eq_true null.2, (Except.ok.inj decoded).symm⟩
    · next shown =>
        refine .inr ⟨⟨mode, tree, decoded⟩, fun plain => toWire_ne_null decoded ?_⟩
        rintro rfl
        exact shown ⟨rfl, Bool.eq_false_iff.mp plain⟩
  | set inner =>
    obtain ⟨items, _, rest⟩ := bind_ok.mp decoded
    obtain ⟨members, all, last⟩ := bind_ok.mp rest
    obtain rfl := Except.ok.inj last
    refine here_of_setOf fun member inside => ?_
    obtain ⟨item, _, answered⟩ := exists_source_of_mapM all inside
    exact ⟨mode, item, answered⟩
  | map key held =>
    obtain ⟨items, _, rest⟩ := bind_ok.mp decoded
    obtain ⟨entries, all, last⟩ := bind_ok.mp rest
    obtain rfl := Except.ok.inj last
    refine here_of_mapOf fun entry inside found same => ?_
    obtain ⟨item, _, answered⟩ := exists_source_of_mapM all inside
    rw [same] at answered
    exact entry_of_decodeEntry answered
  | ref target =>
    cases target with
    | scalar inner =>
      obtain ⟨key, read, rfl⟩ := map_ok.mp decoded
      obtain ⟨found, scalar, rfl⟩ := map_ok.mp read
      exact ⟨found, rfl, mode, tree, scalar⟩
    | composite components =>
      obtain ⟨key, read, rfl⟩ := map_ok.mp decoded
      obtain ⟨found, composite, rfl⟩ := map_ok.mp read
      exact ⟨found, rfl, slots_of_decodeComposite composite⟩
  | struct fields =>
    obtain ⟨members, _, rest⟩ := bind_ok.mp decoded
    split at rest
    · cases rest
    · obtain ⟨found, all, rfl⟩ := map_ok.mp rest
      rw [decodeFields_eq] at all
      have held := (forall₂_of_mapM all).imp fun _ _ => field_of_decodeField
      exact ⟨found, structOf_sorted (sorted_of_names sorted (held.imp fun _ _ => And.left)), held⟩
  | composite components =>
    obtain ⟨found, composite, rfl⟩ := map_ok.mp decoded
    exact ⟨found, rfl, slots_of_decodeComposite composite⟩
  | view => cases decoded

end Decoded

end Wire

end Liasse

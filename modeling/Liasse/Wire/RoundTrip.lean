/-
This file proves that a value decoded at a declared type reads back from its wire form, and that two values
decoded at one type have one wire form exactly when they are equal.
-/

import Liasse.Wire.Sample
import Liasse.Wire.Standing

namespace Liasse.Wire

open Codes

open Liasse.Runtime (FieldType RefTarget)

variable {libraries : Libraries}

section Members

variable {mode : DecodeMode}

/-- A canonical text is read at the machine boundary. -/
theorem decodeScalar_canonical {α : Type} {ty text : String} {parse : String → Except ValueError α}
    {canonical : α → String} {value : α} (parsed : parse text = .ok value) (same : canonical value = text) :
    decodeScalar .wire (.string text) ty parse canonical text = .ok value := by
  have passed : ensureCanonical .wire (.string text) ty (canonical value) = .ok ⟨⟩ :=
    if_neg fun wrong => wrong.2 same.symm
  rw [decodeScalar, parsed, ok_bind, passed, ok_bind]
  rfl

/-- Members are in order when their names are. -/
def nameLe {α : Type} (first second : String × α) : Prop :=
  compareText first.1 second.1 ≠ .gt

instance {α : Type} : DecidableRel (nameLe (α := α)) := fun first second =>
  inferInstanceAs (Decidable (compareText first.1 second.1 ≠ .gt))

/-- An object sorts its members as their names. -/
theorem canonicalObject_map (names : List (String × Nat)) (value : Nat → J) :
    J.canonicalObject (names.map fun name => (name.1, value name.2)) =
      .object ((names.insertionSort nameLe).map fun name => (name.1, value name.2)) := by
  have sorted := List.map_insertionSort nameLe nameLe (fun name : String × Nat => (name.1, value name.2))
    names fun _ _ _ _ => Iff.rfl
  exact congrArg J.object sorted.symm

/-- The members of a calendar period with their place in the source. -/
def calendarNames : List (String × Nat) :=
  [("years", 0), ("months", 1), ("weeks", 2), ("days", 3), ("time", 4), ("overflow", 5), ("ambiguous", 6),
    ("missing", 7)]

/-- The value of each place of a calendar period. -/
def calendarValue (period : CalendarPeriod) (zone : String) : Nat → J
  | 0 => .number (integerText period.years.val)
  | 1 => .number (integerText period.months.val)
  | 2 => .number (integerText period.weeks.val)
  | 3 => .number (integerText period.days.val)
  | 4 => .string (Duration.toCanonicalText period.time)
  | 5 => .string (overflowKeyword period.overflow)
  | 6 => .string (ambiguousKeyword period.ambiguous)
  | 7 => .string (missingKeyword period.missing)
  | _ => .string zone

/-- A place sets one component. -/
def setPlace (period : CalendarPeriod) (zone : String) (base : CalendarPeriod) (name : String × Nat) :
    CalendarPeriod :=
  match name.2 with
  | 0 => { base with years := period.years }
  | 1 => { base with months := period.months }
  | 2 => { base with weeks := period.weeks }
  | 3 => { base with days := period.days }
  | 4 => { base with time := period.time }
  | 5 => { base with overflow := period.overflow }
  | 6 => { base with ambiguous := period.ambiguous }
  | 7 => { base with missing := period.missing }
  | _ => { base with zone := some zone }

theorem magnitude_integerText (number : Signed 64) (field : String) :
    magnitude (.number (integerText number.val)) field = .ok number := by
  rw [magnitude, asI64_integerText]
  rfl

/-- The written member of a place sets its component. -/
theorem setMember_calendarValue {period : CalendarPeriod} (above : -2 ^ 127 < period.time.val) (zone : String)
    (base : CalendarPeriod) {name : String × Nat} (listed : name ∈ calendarNames ++ [("zone", 8)]) :
    setMember base (name.1, calendarValue period zone name.2) = .ok (setPlace period zone base name) := by
  simp only [calendarNames, List.cons_append, List.nil_append, List.mem_cons, List.not_mem_nil,
    or_false] at listed
  rcases listed with rfl | rfl | rfl | rfl | rfl | rfl | rfl | rfl | rfl
  · exact congrArg (Except.map _) (magnitude_integerText period.years "years")
  · exact congrArg (Except.map _) (magnitude_integerText period.months "months")
  · exact congrArg (Except.map _) (magnitude_integerText period.weeks "weeks")
  · exact congrArg (Except.map _) (magnitude_integerText period.days "days")
  · exact congrArg (Except.map _) (Duration.parse_toCanonicalText above)
  · exact congrArg (· >>= fun overflow => pure { base with overflow := overflow })
      (parseOverflow_keyword period.overflow)
  · exact congrArg (· >>= fun ambiguous => pure { base with ambiguous := ambiguous })
      (parseAmbiguous_keyword period.ambiguous)
  · exact congrArg (· >>= fun missing => pure { base with missing := missing })
      (parseMissing_keyword period.missing)
  · rfl

/-- The written members of some places set their components. -/
theorem foldlM_calendar {period : CalendarPeriod} (above : -2 ^ 127 < period.time.val) (zone : String)
    {names : List (String × Nat)} (listed : ∀ name ∈ names, name ∈ calendarNames ++ [("zone", 8)])
    (base : CalendarPeriod) :
    (names.map fun name => (name.1, calendarValue period zone name.2)).foldlM setMember base =
      .ok (names.foldl (setPlace period zone) base) := by
  induction names generalizing base with
  | nil => rfl
  | cons name rest ih =>
    obtain ⟨here, others⟩ := List.forall_mem_cons.mp listed
    rw [List.map_cons, List.foldlM_cons, setMember_calendarValue above zone base here, ok_bind,
      ih others, List.foldl_cons]

/-- A calendar period reads back from an object whose sorted members set all its components. -/
theorem decodePeriod_canonicalObject {period : CalendarPeriod} (zone : String) {names order : List (String × Nat)}
    (readable : Readable (.calendar period)) (sorted : names.insertionSort nameLe = order)
    (listed : ∀ name ∈ order, name ∈ calendarNames ++ [("zone", 8)])
    (whole : order.foldl (setPlace period zone) defaultCalendar = period) :
    decodePeriod .wire (J.canonicalObject (names.map fun name => (name.1, calendarValue period zone name.2))) =
      .ok (.calendar period) := by
  have built : buildCalendar period = .ok period := if_pos readable.1
  rw [canonicalObject_map, sorted, decodePeriod, decodeCalendar, foldlM_calendar readable.2 zone listed, whole,
    ok_bind, built]
  rfl

/-- A readable period reads back. -/
theorem decodePeriod_periodToWire {period : Period} (readable : Readable period) :
    decodePeriod .wire (periodToWire period) = .ok period := by
  cases period with
  | fixed nanos =>
    exact congrArg (Except.map Period.fixed)
      (decodeScalar_canonical (Duration.parse_toCanonicalText readable) rfl)
  | calendar period =>
    obtain ⟨years, months, weeks, days, time, zone, overflow, ambiguous, missing⟩ := period
    cases zone with
    | none =>
      have sorted : calendarNames.insertionSort nameLe = [("ambiguous", 6), ("days", 3), ("missing", 7),
          ("months", 1), ("overflow", 5), ("time", 4), ("weeks", 2), ("years", 0)] := by decide +kernel
      have written : periodToWire
          (.calendar ⟨years, months, weeks, days, time, none, overflow, ambiguous, missing⟩) =
            J.canonicalObject (calendarNames.map fun name : String × Nat =>
              (name.1, calendarValue
                ⟨years, months, weeks, days, time, none, overflow, ambiguous, missing⟩ ""
                  name.2)) := congrArg J.canonicalObject rfl
      rw [written]
      exact decodePeriod_canonicalObject "" readable sorted (by decide) rfl
    | some zone =>
      have sorted : (calendarNames ++ [("zone", 8)]).insertionSort nameLe = [("ambiguous", 6), ("days", 3),
          ("missing", 7), ("months", 1), ("overflow", 5), ("time", 4), ("weeks", 2), ("years", 0),
          ("zone", 8)] := by decide +kernel
      have written : periodToWire
          (.calendar ⟨years, months, weeks, days, time, some zone, overflow, ambiguous, missing⟩) =
            J.canonicalObject ((calendarNames ++ [("zone", 8)]).map fun name : String × Nat =>
              (name.1, calendarValue
                ⟨years, months, weeks, days, time, some zone, overflow, ambiguous, missing⟩ zone
                  name.2)) := congrArg J.canonicalObject rfl
      rw [written]
      exact decodePeriod_canonicalObject zone readable sorted (by decide) rfl

/-- The members of a blob descriptor with their place in the source. -/
def blobNames : List (String × Nat) :=
  [("$sha512", 0), ("$bytes", 1), ("$media", 2)]

/-- The value of each place of a blob descriptor. -/
def blobValue (libraries : Libraries) (descriptor : BlobDescriptor) (name : String) : Nat → J
  | 0 => .string (libraries.toHex descriptor.sha512.bytes)
  | 1 => .string (integerText descriptor.byteCount.toNat)
  | 2 => .string descriptor.media
  | _ => .string name

theorem ensureCanonicalText_self (ty text : String) : ensureCanonicalText .wire ty text text = .ok ⟨⟩ :=
  if_neg fun wrong => wrong.2 rfl

/-- A blob descriptor reads back. -/
theorem decodeBlob_blobToWire (documented : libraries.Documented) (descriptor : BlobDescriptor) :
    decodeBlob libraries .wire (blobToWire libraries descriptor) = .ok descriptor := by
  obtain ⟨sha512, count, media, name⟩ := descriptor
  have read : ∀ kept : Option String, (do
      let digest ← parseSha512 libraries (libraries.toHex sha512.bytes)
      ensureCanonicalText .wire "sha512" (libraries.toHex sha512.bytes) (libraries.toHex digest.bytes)
      let byteCount ← orError (.malformedInt (integerText count.toNat))
        (parseUnsigned (integerText count.toNat))
      ensureCanonicalText .wire "int" (integerText count.toNat) (integerText byteCount.toNat)
      pure (BlobDescriptor.mk digest byteCount media kept)) =
        Except.ok (BlobDescriptor.mk sha512 count media kept) := by
    intro kept
    rw [parseSha512_toHex documented, ok_bind, ensureCanonicalText_self, ok_bind, parseUnsigned_integerText,
      orError, ok_bind, ensureCanonicalText_self]
    rfl
  cases name with
  | none =>
    have sorted : blobNames.insertionSort nameLe = [("$bytes", 1), ("$media", 2), ("$sha512", 0)] := by
      decide +kernel
    have written := canonicalObject_map blobNames (blobValue libraries ⟨sha512, count, media, none⟩ "")
    rw [sorted] at written
    exact (congrArg (decodeBlob libraries .wire) written).trans (read none)
  | some name =>
    have sorted : (blobNames ++ [("$name", 3)]).insertionSort nameLe =
        [("$bytes", 1), ("$media", 2), ("$name", 3), ("$sha512", 0)] := by
      decide +kernel
    have written := canonicalObject_map (blobNames ++ [("$name", 3)])
      (blobValue libraries ⟨sha512, count, media, some name⟩ name)
    rw [sorted] at written
    exact (congrArg (decodeBlob libraries .wire) written).trans (read (some name))

end Members

section Reading

/-- A value reads back at a type as an identical value. -/
def Reads (libraries : Libraries) (type : FieldType) (value : Value) : Prop :=
  ∃ read, decodeAs libraries .wire type (toWire libraries value) = .ok read ∧ value.Identical read

theorem Reads.of_eq {type : FieldType} {value : Value}
    (decoded : decodeAs libraries .wire type (toWire libraries value) = .ok value) : Reads libraries type value :=
  ⟨value, decoded, .refl value⟩

theorem isNull_iff {tree : J} : tree.isNull = true ↔ tree = .null := by
  refine ⟨eq_null_of_isNull, ?_⟩
  rintro rfl
  rfl

/-- A component reads back. -/
theorem decodeComponent_toWire {component : String × FieldType} {value : Value}
    (slot : SlotHere libraries True (Reads libraries) component.2 value) :
    ∃ read, decodeComponent libraries .wire component (toWire libraries value) = .ok read ∧
      value.Identical read := by
  obtain ⟨name, type⟩ := component
  rcases slot with ⟨optional, rfl⟩ | ⟨⟨read, answered, same⟩, shown⟩
  · exact ⟨.none, if_pos ⟨optional, rfl⟩, .refl _⟩
  · refine ⟨read, ?_, same⟩
    rw [decodeComponent, if_neg]
    · exact answered
    · rintro ⟨optional, null⟩
      exact shown trivial optional (isNull_iff.mp null)

/-- The components of a composite read back. -/
theorem decodeComposite_toWire {components : List (String × FieldType)} {values : List Value}
    (slots : List.Forall₂ (fun component value => SlotHere libraries True (Reads libraries) component.2 value)
      components values) :
    ∃ reads, decodeComposite components (fun items => decodePositional libraries .wire components items)
        (fun members => decodeNamed libraries .wire components members)
        (.array (listToWire libraries values)) = .ok reads ∧ List.Forall₂ Value.Identical values reads := by
  have arity : ¬ (listToWire libraries values).length ≠ components.length := by
    rw [listToWire_eq, List.length_map, slots.length_eq]
    exact not_not.mpr rfl
  rw [decodeComposite, if_neg arity, listToWire_eq]
  clear arity
  induction slots with
  | nil => exact ⟨[], rfl, .nil⟩
  | @cons component value rest values here _ ih =>
    obtain ⟨first, answered, same⟩ := decodeComponent_toWire here
    obtain ⟨others, positional, equal⟩ := ih
    refine ⟨first :: others, ?_, .cons same equal⟩
    rw [List.map_cons, decodePositional, answered, ok_bind, positional]
    rfl

/-- An entry of a map reads back. -/
theorem decodeEntry_entryToWire {key held : FieldType} {entry : Value × Value} (shown : entry.2.present = true)
    (keyReads : Reads libraries key entry.1) (valueReads : Reads libraries held entry.2) :
    ∃ read : Option (Value × Value), decodeEntry (fun first => decodeAs libraries .wire key first)
      (fun second => decodeAs libraries .wire held second) (entryToWire libraries entry) = .ok read ∧
        ∃ found, read = some found ∧ Value.cmpEntry entry found = .eq ∧
          entry.1.Identical found.1 ∧ entry.2.Identical found.2 := by
  obtain ⟨first, second⟩ := entry
  obtain ⟨readKey, keyed, sameKey⟩ := keyReads
  obtain ⟨readValue, valued, sameValue⟩ := valueReads
  have present : readValue.present = true := (Value.present_congr sameValue.1).symm.trans shown
  refine ⟨some (readKey, readValue), ?_, _, rfl, Ordering.then_eq_eq.mpr ⟨sameKey.1, sameValue.1⟩, sameKey,
    sameValue⟩
  rw [entryToWire, decodeEntry, valued, ok_bind, if_pos present, keyed]
  rfl

end Reading

section Structs

variable {mode : DecodeMode}

theorem names_fieldToWire {field : String × Value} {member : String × J}
    (inside : member ∈ fieldToWire libraries field) : member.1 = field.1 := by
  obtain ⟨name, value⟩ := field
  rw [fieldToWire] at inside
  split at inside
  · rw [List.mem_singleton.mp inside]
  · cases inside

/-- The members of a written struct have different names. -/
theorem named_fieldsToWire {fields : List (String × Value)} (names : (fields.map Prod.fst).Nodup) :
    J.Named (fields.flatMap (fieldToWire libraries)) := by
  induction fields with
  | nil => exact .nil
  | cons field rest ih =>
    rw [List.map_cons, List.nodup_cons] at names
    rw [J.Named, List.flatMap_cons, List.map_append, List.nodup_append]
    refine ⟨?_, ih names.2, fun first here second later same => ?_⟩
    · obtain ⟨name, value⟩ := field
      rw [fieldToWire]
      split
      · exact List.nodup_singleton name
      · exact .nil
    · obtain ⟨member, inside, rfl⟩ := List.mem_map.mp here
      obtain ⟨other, listed, rfl⟩ := List.mem_map.mp later
      obtain ⟨found, held, written⟩ := List.mem_flatMap.mp listed
      refine names.1 (List.mem_map.mpr ⟨found, held, ?_⟩)
      rw [← names_fieldToWire written, ← same, names_fieldToWire inside]

/-- The member of a field is its written value when the field is present. -/
theorem get_fieldsToWire {fields : List (String × Value)} (names : (fields.map Prod.fst).Nodup)
    {field : String × Value} (inside : field ∈ fields) :
    J.get (fields.flatMap (fieldToWire libraries)) field.1 =
      if field.2.present then some (toWire libraries field.2) else none := by
  induction fields with
  | nil => cases inside
  | cons first rest ih =>
    rw [List.map_cons, List.nodup_cons] at names
    rw [J.get, List.flatMap_cons, List.lookup_append]
    rcases List.mem_cons.mp inside with rfl | later
    · have absent : (rest.flatMap (fieldToWire libraries)).lookup field.1 = none := by
        rw [List.lookup_eq_none_iff]
        intro member listed
        obtain ⟨found, held, written⟩ := List.mem_flatMap.mp listed
        rw [names_fieldToWire written]
        refine bne_iff_ne.mpr fun same => names.1 ?_
        rw [same]
        exact List.mem_map_of_mem held
      obtain ⟨name, value⟩ := field
      rw [absent, Option.or_none, fieldToWire]
      split
      · exact List.lookup_cons_self
      · rfl
    · have other : first.1 ≠ field.1 := fun same => names.1 (same ▸ List.mem_map_of_mem later)
      have absent : (fieldToWire libraries first).lookup field.1 = none := by
        rw [List.lookup_eq_none_iff]
        intro member listed
        rw [names_fieldToWire listed]
        exact bne_iff_ne.mpr other.symm
      rw [absent, Option.none_or]
      exact ih names.2 later

/-- A field reads back from the members of its struct. -/
theorem decodeField_fieldsToWire {fields : List (String × Value)} (names : (fields.map Prod.fst).Nodup)
    {declared : String × FieldType} {field : String × Value} (inside : field ∈ fields)
    (named : declared.1 = field.1)
    (held : isOptional declared.2 = true ∧ field.2 = .none ∨ Reads libraries declared.2 field.2)
    (absent : field.2 = .none → isOptional declared.2 = true) :
    ∃ read, decodeField libraries .wire declared (fields.flatMap (fieldToWire libraries)) = .ok read ∧
      Value.cmpField field read = .eq ∧ field.2.Identical read.2 := by
  obtain ⟨name, type⟩ := declared
  obtain ⟨other, value⟩ := field
  obtain rfl : name = other := named
  rw [decodeField, get_fieldsToWire names inside]
  by_cases shown : value.present = true
  · have reads : Reads libraries type value := by
      rcases held with ⟨_, rfl⟩ | reads
      · cases shown
      · exact reads
    obtain ⟨read, answered, same⟩ := reads
    refine ⟨(name, read), ?_, Ordering.then_eq_eq.mpr ⟨(compareText_eq_iff _ _).mpr rfl, same.1⟩, same⟩
    rw [if_pos shown]
    exact congrArg (Except.map _) answered
  · obtain rfl : value = .none := by
      cases value with
      | none => rfl
      | _ => exact absurd rfl shown
    refine ⟨(name, .none), ?_, Ordering.then_eq_eq.mpr ⟨(compareText_eq_iff _ _).mpr rfl, rfl⟩, .refl _⟩
    rw [if_neg shown]
    exact if_pos (absent rfl)

/-- The fields of an exact struct are those that its type declares, in one order. -/
theorem fields_of_standing {fields : List (String × FieldType)} {held : List (String × Value)}
    {below : FieldType → Value → Prop} (sorted : Sorted FieldType.compareName fields)
    (order : Sorted Value.compareName held) (declared : ∀ found ∈ held, ∃ field ∈ fields, field.1 = found.1)
    (all : ∀ field ∈ fields, FieldHere True below held field) :
    List.Forall₂ (fun field found => field.1 = found.1 ∧
      (isOptional field.2 = true ∧ found.2 = .none ∨ below field.2 found.2)) fields held := by
  have there (field : String × FieldType) (listed : field ∈ fields) : ∃ found ∈ held, found.1 = field.1 ∧
      (isOptional field.2 = true ∧ found.2 = .none ∨ below field.2 found.2) :=
    (all field listed).resolve_right fun missing => missing.1 trivial
  have strict : (fields.map Prod.fst).Pairwise fun first second => compareText first second = .lt :=
    List.pairwise_map.mpr sorted
  have strictToo : (held.map Prod.fst).Pairwise fun first second => compareText first second = .lt :=
    List.pairwise_map.mpr order
  have names : fields.map Prod.fst = held.map Prod.fst := by
    refine @eq_of_strict _ String _ _ _ textBytes _ _ strict strictToo fun name => ⟨fun inside => ?_, fun inside => ?_⟩
    · obtain ⟨field, listed, rfl⟩ := List.mem_map.mp inside
      obtain ⟨found, present, same, _⟩ := there field listed
      exact List.mem_map.mpr ⟨found, present, same⟩
    · obtain ⟨found, present, rfl⟩ := List.mem_map.mp inside
      obtain ⟨field, listed, same⟩ := declared found present
      exact List.mem_map.mpr ⟨field, listed, same⟩
  have distinct : (held.map Prod.fst).Nodup := strictToo.imp fun {first second} below same => by
    rw [(compareText_eq_iff _ _).mpr same] at below
    cases below
  have paired : List.Forall₂ (fun (field : String × FieldType) (found : String × Value) => field.1 = found.1)
      fields held := by
    rw [← List.forall₂_eq_eq_eq] at names
    exact List.forall₂_map_left_iff.mp (List.forall₂_map_right_iff.mp names)
  refine (forall₂_mem paired).imp fun field found related => ?_
  obtain ⟨listed, inside, same⟩ := related
  obtain ⟨other, present, named, kept⟩ := there field listed
  obtain rfl : other = found := List.inj_on_of_nodup_map distinct present inside (named.trans same)
  exact ⟨same, kept⟩

end Structs

section RoundTrip

/-- A value that is equal to the absence of a value is absent. -/
theorem eq_none_of_cmp {first second : Value} (same : first.cmp second = .eq) (absent : first = .none) :
    second = .none := by
  have shown := Value.present_congr same
  rw [absent] at shown
  cases second with
  | none => rfl
  | _ => cases shown

/-- Only an optional type has the absence of a value. -/
theorem isOptional_of_none (documented : libraries.Documented) {type : FieldType} (sorted : type.SortedHere)
    (decoded : Decoded libraries type .none) : isOptional type = true := by
  have here := here_of_decoded documented sorted decoded
  cases type with
  | optional inner => rfl
  | ref target =>
    cases target with
    | scalar inner =>
      obtain ⟨_, same, _⟩ := here
      cases same
    | composite components =>
      obtain ⟨_, same, _⟩ := here
      cases same
  | text | bool | int | bytes | uuid | timestamp | blob =>
    obtain ⟨_, same⟩ := here
    cases same
  | decimal | date | duration | period | json | set | map | struct | composite =>
    obtain ⟨_, same, _⟩ := here
    cases same
  | enum labels =>
    obtain ⟨_, _, same, _⟩ := here
    cases same
  | view inner => cases here

/-- The names of sorted fields are different. -/
theorem names_of_struct {fields : List (String × FieldType)} {held : List (String × Value)}
    (sorted : Sorted FieldType.compareName fields)
    (names : List.Forall₂ (fun field found => field.1 = found.1) fields held) :
    (held.map Prod.fst).Nodup := by
  have same : fields.map Prod.fst = held.map Prod.fst := map_eq_of_forall₂ names fun _ _ _ equal => equal
  rw [← same]
  refine List.pairwise_map.mpr (sorted.imp fun {first second} below equal => ?_)
  rw [FieldType.compareName, (compareText_eq_iff _ _).mpr equal] at below
  cases below

/-- The members of a written struct are declared. -/
theorem unexpected_fieldsToWire {fields : List (String × FieldType)} {held : List (String × Value)}
    (names : List.Forall₂ (fun field found => field.1 = found.1) fields held) :
    unexpected fields (held.flatMap (fieldToWire libraries)) = none := by
  refine List.find?_eq_none.mpr fun member listed undeclared => ?_
  obtain ⟨field, inside, written⟩ := List.mem_flatMap.mp listed
  have same : fields.map Prod.fst = held.map Prod.fst := map_eq_of_forall₂ names fun _ _ _ equal => equal
  have declared : field.1 ∈ fields.map Prod.fst := same ▸ List.mem_map_of_mem inside
  obtain ⟨found, present, equal⟩ := List.mem_map.mp declared
  have known : fields.any (·.1 == member.1) = true :=
    List.any_eq_true.mpr ⟨found, present, beq_iff_eq.mpr (equal.trans (names_fieldToWire written).symm)⟩
  rw [known] at undeclared
  cases undeclared

/-- A value that stands exactly at a type reads back when what it holds does. -/
theorem reads_of_standsHere (documented : libraries.Documented) {type : FieldType} (formed : type.WellFormed)
    {value : Value} (order : value.SortedHere)
    (here : StandsHere libraries True (Reads libraries) type value) : Reads libraries type value := by
  obtain ⟨sorted, below⟩ := formed
  have equal : ∀ {left right : List Value}, List.Forall₂ Value.Identical left right →
      left.compareLex Value.cmp right = .eq := fun same => compareLex_of_forall₂ (same.imp fun _ _ => And.left)
  cases type with
  | text =>
    obtain ⟨text, rfl⟩ := here
    exact .of_eq rfl
  | bool =>
    obtain ⟨flag, rfl⟩ := here
    exact .of_eq rfl
  | int =>
    obtain ⟨integer, rfl⟩ := here
    have parsed : parseInt libraries (integerText integer) = .ok integer := by
      rw [parseInt, documented.bigInt]
      rfl
    exact .of_eq (congrArg (Except.map Value.int) (decodeScalar_canonical parsed rfl))
  | decimal =>
    obtain ⟨decimal, rfl, fits⟩ := here
    obtain ⟨read, parsed, same⟩ := Decimal.parse_toCanonicalText documented (fits trivial)
    refine ⟨.decimal read, congrArg (Except.map Value.decimal)
      (decodeScalar_canonical parsed (Decimal.toCanonicalText_congr same)), .of_children ?_ rfl .nil⟩
    exact BigDecimal.cmp_eq_iff.mpr same.symm
  | bytes =>
    obtain ⟨bytes, rfl⟩ := here
    have read : (libraries.fromBase64 (libraries.toBase64 bytes)).mapError ValueError.malformedBase64 =
        .ok bytes := by
      rw [documented.base64]
      rfl
    exact .of_eq (congrArg (Except.map Value.bytes) read)
  | uuid =>
    obtain ⟨uuid, rfl⟩ := here
    have parsed : parseUuid libraries (libraries.uuidText uuid) = .ok uuid := by
      rw [parseUuid, documented.uuid]
      rfl
    exact .of_eq (congrArg (Except.map Value.uuid) (decodeScalar_canonical parsed rfl))
  | date =>
    obtain ⟨date, rfl, real⟩ := here
    have parsed : parseDate libraries (libraries.dateText date) = .ok date := by
      rw [parseDate, documented.date date (real trivial)]
      rfl
    exact .of_eq (congrArg (Except.map Value.date) (decodeScalar_canonical parsed rfl))
  | timestamp precision =>
    obtain ⟨⟨count, found⟩, rfl, same⟩ := here
    obtain rfl : found = precision := same trivial
    have parsed : parseTimestamp found (integerText count.val) = .ok ⟨count, found⟩ := by
      rw [parseTimestamp, parseSigned_integerText]
      rfl
    exact .of_eq (congrArg (Except.map Value.timestamp) (decodeScalar_canonical parsed rfl))
  | duration =>
    obtain ⟨nanos, rfl, above⟩ := here
    exact .of_eq (congrArg (Except.map Value.duration)
      (decodeScalar_canonical (Duration.parse_toCanonicalText (above trivial)) rfl))
  | period =>
    obtain ⟨period, rfl, readable⟩ := here
    exact .of_eq (congrArg (Except.map Value.period) (decodePeriod_periodToWire (readable trivial)))
  | json =>
    obtain ⟨json, rfl, fits⟩ := here
    obtain ⟨read, parsed, same⟩ := Document.fromWire_toWire documented order (fits trivial)
    exact ⟨.json read, congrArg (Except.map Value.json) parsed, .of_children same rfl .nil⟩
  | blob =>
    obtain ⟨blob, rfl⟩ := here
    exact .of_eq (congrArg (Except.map Value.blob) (decodeBlob_blobToWire documented blob))
  | enum labels =>
    obtain ⟨⟨_, label⟩, rfl, _, position⟩ := here
    obtain ⟨ordinal, position, rfl⟩ := position trivial
    have read : decodeEnum labels label = .ok ⟨UInt32.ofNat ordinal, label⟩ := by
      rw [decodeEnum, position]
    exact .of_eq (congrArg (Except.map Value.enum) read)
  | optional inner =>
    rcases here with ⟨rfl, plain⟩ | ⟨_, ⟨read, answered, same⟩, shown⟩
    · refine .of_eq (if_pos ⟨rfl, ?_⟩)
      rw [plain trivial]
      decide
    · refine ⟨read, (if_neg ?_).trans answered, same⟩
      rintro ⟨null, other⟩
      exact shown trivial (Bool.eq_false_of_not_eq_true other) (isNull_iff.mp null)
  | set inner =>
    obtain ⟨members, rfl, held⟩ := here
    have reads : ∀ member ∈ members, ∃ read,
        decodeAs libraries .wire inner (toWire libraries member) = .ok read ∧ member.Identical read :=
      fun member listed => (held member listed).1
    obtain ⟨answers, all, identical⟩ := exists_mapM_related reads
    have shown : members.map Value.present = answers.map Value.present :=
      map_eq_of_forall₂ identical fun _ _ _ same => Value.present_congr same.1
    have kept : answers.filter Value.present = answers := by
      refine List.filter_eq_self.mpr fun answer listed => ?_
      have image : answer.present ∈ members.map Value.present := shown ▸ List.mem_map_of_mem listed
      obtain ⟨member, present, same⟩ := List.mem_map.mp image
      exact same.symm.trans ((held member present).2 trivial)
    refine ⟨.set answers, ?_, .of_children ?_ rfl identical⟩
    · change ((listToWire libraries members).mapM (fun item => decodeAs libraries .wire inner item) >>=
        fun members => pure (setOf members)) = _
      rw [listToWire_eq, List.mapM_map]
      refine (congrArg (· >>= fun members => pure (setOf members)) all).trans ?_
      change Except.ok (setOf answers) = _
      rw [setOf, kept, collectMerged_eq_self (fun _ _ _ _ => Std.OrientedCmp.gt_of_lt)
        (.of_forall₂ (identical.imp fun _ _ => And.left) order)]
    · rw [Value.cmp, Value.cmpList_eq]
      exact equal identical
  | map key held =>
    obtain ⟨entries, rfl, kept⟩ := here
    have reads : ∀ entry ∈ entries, ∃ read : Option (Value × Value),
        decodeEntry (fun first => decodeAs libraries .wire key first)
          (fun second => decodeAs libraries .wire held second) (entryToWire libraries entry) = .ok read ∧
            ∃ found, read = some found ∧ Value.cmpEntry entry found = .eq ∧
              entry.1.Identical found.1 ∧ entry.2.Identical found.2 := by
      intro entry listed
      obtain ⟨keyReads, valueReads, shown⟩ := kept entry listed
      exact decodeEntry_entryToWire (shown trivial) keyReads valueReads
    obtain ⟨answers, all, related⟩ := exists_mapM_related reads
    have found := reduceOption_of_forall₂ related
    refine ⟨.map answers.reduceOption, ?_, .of_children ?_ rfl ?_⟩
    · change ((entriesToWire libraries entries).mapM (decodeEntry
          (fun first => decodeAs libraries .wire key first)
          fun second => decodeAs libraries .wire held second) >>= fun entries => pure (mapOf entries)) = _
      rw [entriesToWire_eq, List.mapM_map]
      refine (congrArg (· >>= fun entries => pure (mapOf entries)) all).trans ?_
      change Except.ok (mapOf answers) = _
      rw [mapOf, collectMerged_eq_self (fun _ _ _ _ => Std.OrientedCmp.gt_of_lt)
        (.of_forall₂ (found.imp fun _ _ both => Value.compareKey_of_cmpEntry both.1) order)]
    · rw [Value.cmp, Value.cmpEntries_eq]
      exact compareLex_of_forall₂ (found.imp fun _ _ => And.left)
    · apply List.rel_append
      · refine List.forall₂_map_left_iff.mpr (List.forall₂_map_right_iff.mpr ?_)
        exact found.imp fun _ _ both => both.2.1
      · refine List.forall₂_map_left_iff.mpr (List.forall₂_map_right_iff.mpr ?_)
        exact found.imp fun _ _ both => both.2.2
  | ref target =>
    cases target with
    | scalar inner =>
      obtain ⟨key, rfl, read, answered, same⟩ := here
      refine ⟨.ref (.scalar read), ?_, .of_children same.1 rfl (.cons same .nil)⟩
      exact congrArg (fun answer => (answer.map RefKey.scalar).map Value.ref) answered
    | composite components =>
      obtain ⟨keys, rfl, slots⟩ := here
      obtain ⟨reads, answered, identical⟩ := decodeComposite_toWire slots
      refine ⟨.ref (.composite reads), ?_, .of_children ?_ rfl identical⟩
      · exact congrArg (fun answer => (answer.map RefKey.composite).map Value.ref) answered
      · rw [Value.cmp, Value.cmpRef, Value.cmpList_eq]
        exact equal identical
  | struct fields =>
    obtain ⟨held, rfl, declared, all⟩ := here
    have related := fields_of_standing sorted order declared all
    have names : List.Forall₂ (fun field found => field.1 = found.1) fields held :=
      related.imp fun _ _ => And.left
    have different : (held.map Prod.fst).Nodup := names_of_struct sorted names
    have whole : toWire libraries (.struct held) = .object (held.flatMap (fieldToWire libraries)) := by
      rw [toWire, fieldsToWire_eq, J.collect_named (named_fieldsToWire different)]
    have reads : List.Forall₂ (fun declared field => ∃ read, decodeField libraries .wire declared
        (held.flatMap (fieldToWire libraries)) = .ok read ∧ Value.cmpField field read = .eq ∧
          field.2.Identical read.2) fields held := by
      refine (forall₂_mem related).imp ?_
      rintro declared field ⟨known, inside, named, kept⟩
      refine decodeField_fieldsToWire different inside named kept fun absent => ?_
      rcases kept with ⟨optional, _⟩ | ⟨read, answered, same⟩
      · exact optional
      · obtain rfl := eq_none_of_cmp same.1 absent
        exact isOptional_of_none documented (FieldType.WellFormed.here (below declared.2 (List.mem_map_of_mem known)))
          ⟨.wire, _, answered⟩
    obtain ⟨answers, all, identical⟩ := exists_mapM_of_forall₂ reads
    have order : structOf answers = .struct answers :=
      structOf_sorted (.of_forall₂ (identical.imp fun _ _ both => Value.compareName_of_cmpField both.1)
        (sorted_of_names sorted names))
    refine ⟨.struct answers, ?_, .of_children ?_ rfl ?_⟩
    · rw [whole, decodeAs, expectObject, ok_bind, unexpected_fieldsToWire names]
      change (decodeFields libraries .wire fields _).map structOf = _
      rw [decodeFields_eq, all, ← order]
      rfl
    · rw [Value.cmp, Value.cmpFields_eq]
      exact compareLex_of_forall₂ (identical.imp fun _ _ => And.left)
    · refine List.forall₂_map_left_iff.mpr (List.forall₂_map_right_iff.mpr ?_)
      exact identical.imp fun _ _ => And.right
  | composite components =>
    obtain ⟨keys, rfl, slots⟩ := here
    obtain ⟨reads, answered, identical⟩ := decodeComposite_toWire slots
    refine ⟨.composite reads, congrArg (Except.map Value.composite) answered, .of_children ?_ rfl identical⟩
    rw [Value.cmp, Value.cmpList_eq]
    exact equal identical
  | view inner => cases here

/-- A value decoded at a type reads back at the machine boundary as an identical value. -/
theorem reads_of_decoded (documented : libraries.Documented) {type : FieldType} (formed : type.WellFormed)
    {value : Value} (decoded : Decoded libraries type value) : Reads libraries type value := by
  induction type using FieldType.induct generalizing value with
  | step type ih =>
    have order := sortedHere_of_decoded documented formed decoded
    have here := standsHere_of_decoded documented formed.here decoded
    refine reads_of_standsHere documented formed order (here.imp id fun child listed held _ => ?_)
    obtain ⟨_, below⟩ := formed
    exact ih child listed (below child listed)

/-- The collections of a value and of what it holds directly are sorted. -/
theorem wellFormed_below {value : Value} (order : value.WellFormed) {held : Value}
    (inside : held = value ∨ held ∈ value.children) : held.WellFormed := by
  rcases inside with rfl | listed
  · exact order
  · obtain ⟨_, below⟩ := order
    exact below held listed

/-- A value that is identical to a decoded one stands exactly. -/
theorem stands_of_like (documented : libraries.Documented) {type : FieldType} (formed : type.WellFormed)
    {value : Value} (order : value.WellFormed) (like : Like libraries type value) :
    Stands libraries True type value := by
  induction type using FieldType.induct generalizing value with
  | step type ih =>
    obtain ⟨sorted, below⟩ := formed
    obtain ⟨orderHere, orderBelow⟩ := order
    have here := standsHere_of_like documented sorted orderHere like
    refine .intro (Stands libraries True) (here.imp id fun child listed held inside => ?_) fun _ _ => id
    exact ih child listed (below child listed)
      (wellFormed_below (.intro orderHere orderBelow) inside)

/-- A value reads back as an identical value exactly when it stands exactly at its type. -/
theorem reads_iff_stands (documented : libraries.Documented) {type : FieldType} (formed : type.WellFormed)
    {value : Value} (order : value.WellFormed) : Reads libraries type value ↔ Stands libraries True type value := by
  constructor
  · rintro ⟨read, answered, identical⟩
    exact stands_of_like documented formed order ⟨read, ⟨.wire, _, answered⟩, identical⟩
  · intro stands
    induction type using FieldType.induct generalizing value with
    | step type ih =>
      have orderHere : value.SortedHere := by
        obtain ⟨here, _⟩ := order
        exact here
      refine reads_of_standsHere documented formed orderHere (stands.here.imp id ?_)
      intro child listed held inside
      obtain ⟨_, below⟩ := formed
      exact ih child listed (below child listed) (wellFormed_below order inside)

end RoundTrip

section Canonical

/-- Equal timestamps of one precision have one count. -/
theorem count_congr {precision : Precision} {first second : Signed 128}
    (same : Timestamp.cmp ⟨first, precision⟩ ⟨second, precision⟩ = .eq) : first = second := by
  have left := Timestamp.ofInstant_self ⟨first, precision⟩
  have right := Timestamp.ofInstant_self ⟨second, precision⟩
  rw [Timestamp.cmp_eq_iff.mp same] at left
  exact congrArg Timestamp.count (Option.some.inj (left.symm.trans right))

/-- Equal values of a slot have one wire form. -/
theorem slot_congr {type : FieldType} {first second : Value} (left : Slot libraries type first)
    (right : Slot libraries type second) (same : first.cmp second = .eq)
    (congruent : Decoded libraries type first → Decoded libraries type second →
      toWire libraries first = toWire libraries second) :
    toWire libraries first = toWire libraries second := by
  have reversed : second.cmp first = .eq := Std.OrientedCmp.eq_symm same
  rcases left with ⟨_, absent⟩ | ⟨decoded, _⟩
  · rw [absent, eq_none_of_cmp same absent]
  · rcases right with ⟨_, absent⟩ | ⟨other, _⟩
    · rw [absent, eq_none_of_cmp reversed absent]
    · exact congruent decoded other

/-- Equal composites of slots have one wire form. -/
theorem slots_congr {components : List (String × FieldType)} {keys others : List Value}
    (left : List.Forall₂ (fun component key => Slot libraries component.2 key) components keys)
    (right : List.Forall₂ (fun component key => Slot libraries component.2 key) components others)
    (same : keys.compareLex Value.cmp others = .eq)
    (congruent : ∀ component ∈ components, ∀ first second, Decoded libraries component.2 first →
      Decoded libraries component.2 second → first.cmp second = .eq →
        toWire libraries first = toWire libraries second) :
    listToWire libraries keys = listToWire libraries others := by
  rw [listToWire_eq, listToWire_eq]
  induction left generalizing others with
  | nil =>
    cases right with
    | nil => rfl
  | cons here _ ih =>
    cases right with
    | cons other rest =>
      rw [List.compareLex_cons_cons, Ordering.then_eq_eq] at same
      obtain ⟨first, later⟩ := same
      rw [List.map_cons, List.map_cons, slot_congr here other first
        fun decoded found => congruent _ List.mem_cons_self _ _ decoded found first,
        ih rest later fun component inside =>
          congruent component (List.mem_cons_of_mem _ inside)]

/-- Equal structs of one type have one wire form. -/
theorem fields_congr {fields : List (String × FieldType)} {held others : List (String × Value)}
    (left : List.Forall₂ (fun field found => field.1 = found.1 ∧
      (isOptional field.2 = true ∧ found.2 = .none ∨ Decoded libraries field.2 found.2)) fields held)
    (right : List.Forall₂ (fun field found => field.1 = found.1 ∧
      (isOptional field.2 = true ∧ found.2 = .none ∨ Decoded libraries field.2 found.2)) fields others)
    (same : held.compareLex Value.cmpField others = .eq)
    (congruent : ∀ field ∈ fields, ∀ first second, Decoded libraries field.2 first →
      Decoded libraries field.2 second → first.cmp second = .eq →
        toWire libraries first = toWire libraries second) :
    held.flatMap (fieldToWire libraries) = others.flatMap (fieldToWire libraries) := by
  induction left generalizing others with
  | nil =>
    cases right with
    | nil => rfl
  | @cons field found rest held here _ ih =>
    cases right with
    | @cons _ other _ others there more =>
      rw [List.compareLex_cons_cons, Ordering.then_eq_eq] at same
      obtain ⟨first, later⟩ := same
      obtain ⟨name, value⟩ := found
      obtain ⟨otherName, otherValue⟩ := other
      obtain ⟨names, values⟩ := Ordering.then_eq_eq.mp first
      obtain rfl : name = otherName := (compareText_eq_iff _ _).mp names
      have written : fieldToWire libraries (name, value) = fieldToWire libraries (name, otherValue) := by
        have shown := Value.present_congr values
        rw [fieldToWire, fieldToWire, ← shown]
        split
        · next present =>
            have decoded : Decoded libraries field.2 value := here.2.resolve_left fun absent => by
              have none : value = .none := absent.2
              rw [none] at present
              cases present
            have otherDecoded : Decoded libraries field.2 otherValue := there.2.resolve_left fun absent => by
              have none : otherValue = .none := absent.2
              rw [shown, none] at present
              cases present
            rw [congruent field List.mem_cons_self value otherValue decoded otherDecoded values]
        · rfl
      rw [List.flatMap_cons, List.flatMap_cons, written, ih more later
        fun other inside => congruent other (List.mem_cons_of_mem _ inside)]

/-- Equal values decoded at one type have one wire form. -/
theorem toWire_congr (documented : libraries.Documented) {type : FieldType} (formed : type.WellFormed)
    {first second : Value} (left : Decoded libraries type first) (right : Decoded libraries type second)
    (same : first.cmp second = .eq) : toWire libraries first = toWire libraries second := by
  induction type using FieldType.induct generalizing first second with
  | step type ih =>
    obtain ⟨sorted, below⟩ := formed
    have each : ∀ child ∈ type.children, ∀ first second, Decoded libraries child first →
        Decoded libraries child second → first.cmp second = .eq →
          toWire libraries first = toWire libraries second := fun child listed first second =>
      ih child listed (below child listed)
    have here := here_of_decoded documented sorted left
    have there := here_of_decoded documented sorted right
    cases type with
    | text | bool | int | bytes | uuid | blob =>
      obtain ⟨left, rfl⟩ := here
      obtain ⟨right, rfl⟩ := there
      exact congrArg (toWire libraries) (Value.normal_congr same)
    | date | duration | period =>
      obtain ⟨left, rfl, _⟩ := here
      obtain ⟨right, rfl, _⟩ := there
      exact congrArg (toWire libraries) (Value.normal_congr same)
    | enum labels =>
      obtain ⟨label, ordinal, rfl, _⟩ := here
      obtain ⟨other, another, rfl, _⟩ := there
      exact congrArg (toWire libraries) (Value.normal_congr same)
    | decimal =>
      obtain ⟨left, rfl, _⟩ := here
      obtain ⟨right, rfl, _⟩ := there
      exact congrArg J.string (Decimal.toCanonicalText_congr (BigDecimal.cmp_eq_iff.mp same))
    | timestamp precision =>
      obtain ⟨left, rfl⟩ := here
      obtain ⟨right, rfl⟩ := there
      rw [count_congr same]
    | json =>
      obtain ⟨left, rfl, _⟩ := here
      obtain ⟨right, rfl, _⟩ := there
      exact Document.toWire_congr same
    | optional inner =>
      rcases here with ⟨_, rfl⟩ | ⟨decoded, _⟩
      · rw [eq_none_of_cmp same rfl]
      · rcases there with ⟨_, rfl⟩ | ⟨other, _⟩
        · rw [eq_none_of_cmp (Std.OrientedCmp.eq_symm same) rfl]
        · exact each inner List.mem_cons_self _ _ decoded other same
    | set inner =>
      obtain ⟨members, rfl, _, held⟩ := here
      obtain ⟨others, rfl, _, kept⟩ := there
      rw [Value.cmp, Value.cmpList_eq] at same
      have listed := forall₂_mem (forall₂_of_compareLex same)
      rw [toWire, toWire, listToWire_eq, listToWire_eq]
      refine congrArg J.array (map_eq_of_forall₂ listed fun member _ other both => ?_)
      obtain ⟨inside, present, equal⟩ := both
      exact each inner List.mem_cons_self member other (held member inside).1 (kept other present).1 equal
    | map key held =>
      obtain ⟨entries, rfl, _, kept⟩ := here
      obtain ⟨others, rfl, _, known⟩ := there
      rw [Value.cmp, Value.cmpEntries_eq] at same
      have listed := forall₂_mem (forall₂_of_compareLex same)
      rw [toWire, toWire, entriesToWire_eq, entriesToWire_eq]
      refine congrArg J.array (map_eq_of_forall₂ listed fun entry _ other both => ?_)
      obtain ⟨inside, present, equal⟩ := both
      obtain ⟨first, second⟩ := entry
      obtain ⟨otherFirst, otherSecond⟩ := other
      obtain ⟨keys, values⟩ := Ordering.then_eq_eq.mp equal
      obtain ⟨keyDecoded, valueDecoded, _⟩ := kept _ inside
      obtain ⟨otherKey, otherValue, _⟩ := known _ present
      rw [entryToWire, entryToWire, each key List.mem_cons_self first otherFirst keyDecoded otherKey keys,
        each held (List.mem_cons_of_mem _ List.mem_cons_self) second otherSecond valueDecoded otherValue
          values]
    | ref target =>
      cases target with
      | scalar inner =>
        obtain ⟨key, rfl, decoded⟩ := here
        obtain ⟨other, rfl, found⟩ := there
        exact each inner List.mem_cons_self key other decoded found same
      | composite components =>
        obtain ⟨keys, rfl, slots⟩ := here
        obtain ⟨others, rfl, found⟩ := there
        rw [Value.cmp, Value.cmpRef, Value.cmpList_eq] at same
        exact congrArg J.array (slots_congr slots found same fun component listed =>
          each component.2 (List.mem_map_of_mem listed))
    | struct fields =>
      obtain ⟨held, rfl, related⟩ := here
      obtain ⟨others, rfl, found⟩ := there
      rw [Value.cmp, Value.cmpFields_eq] at same
      rw [toWire, toWire, fieldsToWire_eq, fieldsToWire_eq, fields_congr related found same
        fun field listed => each field.2 (List.mem_map_of_mem listed)]
    | composite components =>
      obtain ⟨keys, rfl, slots⟩ := here
      obtain ⟨others, rfl, found⟩ := there
      rw [Value.cmp, Value.cmpList_eq] at same
      exact congrArg J.array (slots_congr slots found same fun component listed =>
        each component.2 (List.mem_map_of_mem listed))
    | view inner => cases here

/-- A value decoded at a type reads back at the machine boundary from its wire form as an equal value. Two values
decoded at one type have one wire form exactly when they are equal. -/
theorem wire_canonical (documented : libraries.Documented) {type : FieldType} (formed : type.WellFormed) :
    (∀ value, Decoded libraries type value →
      ∃ read, decodeAs libraries .wire type (toWire libraries value) = .ok read ∧ value.cmp read = .eq) ∧
      ∀ first second, Decoded libraries type first → Decoded libraries type second →
        (toWire libraries first = toWire libraries second ↔ first.cmp second = .eq) := by
  refine ⟨fun value decoded => ?_, fun first second left right => ?_⟩
  · obtain ⟨read, answered, same⟩ := reads_of_decoded documented formed decoded
    exact ⟨read, answered, same.1⟩
  · refine ⟨fun written => ?_, toWire_congr documented formed left right⟩
    obtain ⟨read, answered, same⟩ := reads_of_decoded documented formed left
    obtain ⟨other, found, equal⟩ := reads_of_decoded documented formed right
    rw [written, found] at answered
    obtain rfl := Except.ok.inj answered
    exact Std.TransCmp.eq_trans same.1 (Std.OrientedCmp.eq_symm equal.1)

/-- A struct type with an optional JSON field. -/
def noteType : FieldType :=
  .struct [("note", .optional .json)]

/-- The null of an optional JSON field and its absence have different wire forms. -/
theorem note_canonical :
    toWire Sample.libraries (.struct [("note", .json .null)]) ≠
        toWire Sample.libraries (.struct [("note", .none)]) ∧
      ∃ read, decodeAs Sample.libraries .wire noteType
        (toWire Sample.libraries (.struct [("note", .json .null)])) = .ok read ∧
          (Value.struct [("note", .json .null)]).cmp read = .eq := by
  have formed : noteType.WellFormed := by
    refine .intro (List.pairwise_singleton _ _) fun child inside => ?_
    rw [List.mem_singleton.mp inside]
    refine .intro trivial fun child inside => ?_
    rw [List.mem_singleton.mp inside]
    exact .intro trivial fun _ none => absurd none List.not_mem_nil
  have present : Decoded Sample.libraries noteType (.struct [("note", .json .null)]) :=
    ⟨.wire, .object [("note", .null)], rfl⟩
  have absent : Decoded Sample.libraries noteType (.struct [("note", .none)]) := ⟨.wire, .object [], rfl⟩
  obtain ⟨reading, writing⟩ := wire_canonical Sample.documented formed
  refine ⟨fun same => ?_, reading _ present⟩
  have equal := (writing _ _ present absent).mp same
  have different : Value.cmp (.struct [("note", .json .null)]) (.struct [("note", .none)]) = .lt := by
    decide +kernel
  rw [different] at equal
  cases equal

end Canonical

end Liasse.Wire

/-
This file proves that a stored value reads back as an identical value exactly when its decimals fit and no
member of its sets and maps is absent.
-/

import Liasse.Expr.Operators
import Liasse.Pg.Codec
import Liasse.Pg.Escape
import Liasse.Value.Normal
import Liasse.Wire.Sample

namespace Liasse.Pg.Codec

open Wire

variable {libraries : Libraries}

section Lists

@[simp] theorem encodeList_eq (values : List Value) :
    encodeList libraries values = values.map (encode libraries) := by
  induction values with
  | nil => rfl
  | cons value rest ih => rw [encodeList, ih, List.map_cons]

@[simp] theorem encodeFields_eq (fields : List (String × Value)) :
    encodeFields libraries fields = fields.map (encodeField libraries) := by
  induction fields with
  | nil => rfl
  | cons field rest ih => rw [encodeFields, ih, List.map_cons]

@[simp] theorem encodeEntries_eq (entries : List (Value × Value)) :
    encodeEntries libraries entries = entries.map (encodeEntry libraries) := by
  induction entries with
  | nil => rfl
  | cons entry rest ih => rw [encodeEntries, ih, List.map_cons]

@[simp] theorem decodeItems_eq (items : List J) :
    decodeItems libraries items = items.mapM (decode libraries) := by
  induction items with
  | nil => rfl
  | cons item rest ih => rw [decodeItems, ih, List.mapM_cons]

@[simp] theorem decodeFields_eq (items : List J) :
    decodeFields libraries items = items.mapM (decodeField libraries) := by
  induction items with
  | nil => rfl
  | cons item rest ih => rw [decodeFields, ih, List.mapM_cons]

@[simp] theorem decodeEntries_eq (items : List J) :
    decodeEntries libraries items = items.mapM (decodeEntry libraries) := by
  induction items with
  | nil => rfl
  | cons item rest ih => rw [decodeEntries, ih, List.mapM_cons]

/-- The members of a sequence decode one by one. -/
theorem decodeSeq_encodeList (values : List Value) :
    decodeSeq libraries (.array (encodeList libraries values)) =
      values.mapM fun value => decode libraries (encode libraries value) := by
  rw [decodeSeq, encodeList_eq, decodeItems_eq, List.mapM_map]
  rfl

theorem decodeStruct_encodeFields (fields : List (String × Value)) :
    decodeStruct libraries (.array (encodeFields libraries fields)) =
      fields.mapM fun field => decodeField libraries (encodeField libraries field) := by
  rw [decodeStruct, encodeFields_eq, decodeFields_eq, List.mapM_map]
  rfl

theorem decodeMap_encodeEntries (entries : List (Value × Value)) :
    decodeMap libraries (.array (encodeEntries libraries entries)) =
      entries.mapM fun entry => decodeEntry libraries (encodeEntry libraries entry) := by
  rw [decodeMap, encodeEntries_eq, decodeEntries_eq, List.mapM_map]
  rfl

end Lists

section Trees

theorem tag_wellFormed {name : String} {payload : J} (formed : payload.WellFormed) :
    (tag name payload).WellFormed := by
  refine J.wellFormed_object.mpr ⟨List.nodup_singleton name, fun member inside => ?_⟩
  rw [List.mem_singleton.mp inside]
  exact formed

/-- The tree of an integer is proper. -/
theorem integer_wellFormed (number : Int) : (J.number (integerText number)).WellFormed :=
  J.wellFormed_number (numeral_integerText number)

theorem encodePeriod_wellFormed (period : Period) : (encodePeriod period).WellFormed := by
  cases period with
  | fixed nanos =>
    refine J.wellFormed_array.mpr fun item inside => ?_
    simp only [List.mem_cons, List.not_mem_nil, or_false] at inside
    rcases inside with rfl | rfl <;> exact J.wellFormed_string _
  | calendar period =>
    have body : ∀ zone : List (String × J), (∀ member ∈ zone, member.2.WellFormed) →
        zone.map Prod.fst = [] ∨ zone.map Prod.fst = ["zone"] → (J.object ([
          ("years", J.number (integerText period.years.val)),
          ("months", .number (integerText period.months.val)),
          ("weeks", .number (integerText period.weeks.val)),
          ("days", .number (integerText period.days.val)),
          ("time", .string (integerText period.time.val)),
          ("overflow", .string (overflowKeyword period.overflow)),
          ("ambiguous", .string (ambiguousKeyword period.ambiguous)),
          ("missing", .string (missingKeyword period.missing))] ++ zone)).WellFormed := by
      intro zone proper names
      refine J.wellFormed_object.mpr ⟨?_, fun member inside => ?_⟩
      · rw [J.Named, List.map_append]
        rcases names with none | one
        · rw [none]
          exact (by decide :
            ["years", "months", "weeks", "days", "time", "overflow", "ambiguous", "missing"].Nodup)
        · rw [one]
          exact (by decide :
            ["years", "months", "weeks", "days", "time", "overflow", "ambiguous", "missing", "zone"].Nodup)
      · rcases List.mem_append.mp inside with fixed | zoned
        · simp only [List.mem_cons, List.not_mem_nil, or_false] at fixed
          rcases fixed with rfl | rfl | rfl | rfl | rfl | rfl | rfl | rfl <;> first
            | exact integer_wellFormed _
            | exact J.wellFormed_string _
        · exact proper member zoned
    refine J.wellFormed_array.mpr fun item inside => ?_
    simp only [List.mem_cons, List.not_mem_nil, or_false] at inside
    rcases inside with rfl | rfl
    · exact J.wellFormed_string _
    · apply body
      · cases period.zone with
        | none => exact fun _ inside => absurd inside List.not_mem_nil
        | some zone =>
          intro member inside
          rw [List.mem_singleton.mp inside]
          exact J.wellFormed_string zone
      · cases period.zone with
        | none => exact .inl rfl
        | some zone => exact .inr rfl

theorem encodeBlob_wellFormed (descriptor : BlobDescriptor) : (encodeBlob libraries descriptor).WellFormed := by
  unfold encodeBlob
  cases descriptor.name with
  | none =>
    have names : ["sha512", "bytes", "media"].Nodup := by decide
    refine J.wellFormed_object.mpr ⟨names, fun member inside => ?_⟩
    simp only [Option.map_none, Option.toList_none, List.append_nil, List.mem_cons, List.not_mem_nil,
      or_false] at inside
    rcases inside with rfl | rfl | rfl <;> exact J.wellFormed_string _
  | some name =>
    have names : ["sha512", "bytes", "media", "name"].Nodup := by decide
    refine J.wellFormed_object.mpr ⟨names, fun member inside => ?_⟩
    simp only [Option.map_some, Option.toList_some, List.cons_append, List.nil_append, List.mem_cons,
      List.not_mem_nil, or_false] at inside
    rcases inside with rfl | rfl | rfl | rfl <;> exact J.wellFormed_string _

/-- The tree of a value is proper. -/
theorem encode_wellFormed {value : Value} (formed : value.WellFormed) :
    (encode libraries value).WellFormed := by
  induction value using Value.induct with
  | step value ih =>
    obtain ⟨sorted, inside⟩ := formed
    have each : ∀ child ∈ value.children, (encode libraries child).WellFormed := fun child listed =>
      ih child listed (inside child listed)
    have all : ∀ values : List Value, (∀ child ∈ values, child ∈ value.children) →
        (J.array (encodeList libraries values)).WellFormed := by
      intro values held
      refine J.wellFormed_array.mpr fun item listed => ?_
      rw [encodeList_eq] at listed
      obtain ⟨child, present, rfl⟩ := List.mem_map.mp listed
      exact each child (held child present)
    cases value with
    | timestamp stamp =>
      refine tag_wellFormed (J.wellFormed_array.mpr fun item listed => ?_)
      simp only [List.mem_cons, List.not_mem_nil, or_false] at listed
      rcases listed with rfl | rfl <;> exact J.wellFormed_string _
    | period period => exact tag_wellFormed (encodePeriod_wellFormed period)
    | json json => exact tag_wellFormed (Document.toWire_wellFormed sorted)
    | blob blob => exact tag_wellFormed (encodeBlob_wellFormed blob)
    | enum value =>
      refine tag_wellFormed (J.wellFormed_array.mpr fun item listed => ?_)
      simp only [List.mem_cons, List.not_mem_nil, or_false] at listed
      rcases listed with rfl | rfl
      · exact integer_wellFormed _
      · exact J.wellFormed_string _
    | ref key =>
      cases key with
      | scalar key => exact tag_wellFormed (tag_wellFormed (each key List.mem_cons_self))
      | composite components =>
        exact tag_wellFormed (tag_wellFormed (all components fun _ present => present))
    | struct fields =>
      refine tag_wellFormed (J.wellFormed_array.mpr fun item listed => ?_)
      rw [encodeFields_eq] at listed
      obtain ⟨⟨name, field⟩, present, rfl⟩ := List.mem_map.mp listed
      refine J.wellFormed_array.mpr fun part member => ?_
      simp only [List.mem_cons, List.not_mem_nil, or_false] at member
      rcases member with rfl | rfl
      · exact J.wellFormed_string name
      · exact each field (List.mem_map_of_mem present)
    | composite components => exact tag_wellFormed (all components fun _ present => present)
    | set members => exact tag_wellFormed (all members fun _ present => present)
    | map entries =>
      refine tag_wellFormed (J.wellFormed_array.mpr fun item listed => ?_)
      rw [encodeEntries_eq] at listed
      obtain ⟨⟨key, entry⟩, present, rfl⟩ := List.mem_map.mp listed
      refine J.wellFormed_array.mpr fun part member => ?_
      simp only [List.mem_cons, List.not_mem_nil, or_false] at member
      rcases member with rfl | rfl
      · exact each key (List.mem_append_left _ (List.mem_map_of_mem present))
      · exact each entry (List.mem_append_right _ (List.mem_map_of_mem present))
    | _ => exact tag_wellFormed (by first | exact J.wellFormed_string _ | exact J.wellFormed_bool _)

end Trees

section Scalars

theorem asI128_integerText (number : Signed 128) : asI128 (.string (integerText number.val)) = .ok number := by
  change orCorrupt _ (parseSigned 128 (integerText number.val)) = _
  rw [parseSigned_integerText]
  rfl

/-- A timestamp reads back with its count and its precision. -/
theorem decodeTimestamp_encodeTimestamp (timestamp : Timestamp) :
    decodeTimestamp (encodeTimestamp timestamp) = .ok timestamp := by
  change (do
    let count ← orCorrupt _ (parseSigned 128 (integerText timestamp.count.val))
    let precision ← orCorrupt _ (Precision.parse timestamp.precision.keyword)
    pure (Timestamp.mk count precision)) = _
  rw [parseSigned_integerText, Precision.parse_keyword]
  rfl

theorem decodeEnum_encodeEnum (value : EnumValue) : decodeEnum (encodeEnum value) = .ok value := by
  have small : (UInt64.ofNat value.ordinal.toNat).toNat = value.ordinal.toNat := by
    have range : value.ordinal.toNat < 2 ^ 32 := value.ordinal.toNat_lt
    rw [UInt64.toNat_ofNat']
    omega
  have ordinal : asOrdinal (some (.number (integerText value.ordinal.toNat))) = some value.ordinal := by
    have read := parseUnsigned_integerText (UInt64.ofNat value.ordinal.toNat)
    rw [small] at read
    rw [asOrdinal, read]
    dsimp only
    rw [if_pos (by rw [small]; exact value.ordinal.toNat_lt)]
    congr 1
    apply UInt32.toNat_inj.mp
    rw [UInt64.toNat_toUInt32, small]
    exact Nat.mod_eq_of_lt value.ordinal.toNat_lt
  change (do
    let ordinal ← orCorrupt _ (asOrdinal (some (.number (integerText value.ordinal.toNat))))
    let label ← orCorrupt _ (some value.label)
    pure (EnumValue.mk ordinal label)) = _
  rw [ordinal]
  rfl

/-- A blob descriptor reads back. -/
theorem decodeBlob_encodeBlob (documented : libraries.Documented) (descriptor : BlobDescriptor) :
    decodeBlob libraries (encodeBlob libraries descriptor) = .ok descriptor := by
  obtain ⟨sha512, count, media, name⟩ := descriptor
  have hash := parseSha512_toHex documented sha512
  cases name with
  | none =>
    change (do
      let sha512 ← orMalformed (parseSha512 libraries (libraries.toHex sha512.bytes))
      let bytes ← orCorrupt _ (parseUnsigned (integerText count.toNat))
      let media ← Except.ok media
      pure (BlobDescriptor.mk sha512 bytes media none)) = _
    rw [hash, parseUnsigned_integerText]
    rfl
  | some name =>
    change (do
      let sha512 ← orMalformed (parseSha512 libraries (libraries.toHex sha512.bytes))
      let bytes ← orCorrupt _ (parseUnsigned (integerText count.toNat))
      let media ← Except.ok media
      pure (BlobDescriptor.mk sha512 bytes media (some name))) = _
    rw [hash, parseUnsigned_integerText]
    rfl

/-- A period reads back when a calendar period has a magnitude. -/
theorem decodePeriod_encodePeriod {period : Period}
    (magnitude : ∀ calendar, period = .calendar calendar → HasMagnitude calendar) :
    decodePeriod (encodePeriod period) = .ok period := by
  cases period with
  | fixed nanos =>
    change (do
      let nanos ← asI128 (.string (integerText nanos.val))
      pure (Period.fixed nanos)) = _
    rw [asI128_integerText]
    rfl
  | calendar calendar =>
    have built : buildCalendar calendar = .ok calendar := if_pos (magnitude calendar rfl)
    obtain ⟨years, months, weeks, days, time, zone, overflow, ambiguous, missing⟩ := calendar
    have read : ∀ kept : Option String, kept = zone → (do
        let years ← orCorrupt "member `years` is not an i64" (asI64 (.number (integerText years.val)))
        let months ← orCorrupt "member `months` is not an i64" (asI64 (.number (integerText months.val)))
        let weeks ← orCorrupt "member `weeks` is not an i64" (asI64 (.number (integerText weeks.val)))
        let days ← orCorrupt "member `days` is not an i64" (asI64 (.number (integerText days.val)))
        let time ← asI128 (.string (integerText time.val))
        let overflow ← orMalformed (parseOverflow (overflowKeyword overflow))
        let ambiguous ← orMalformed (parseAmbiguous (ambiguousKeyword ambiguous))
        let missing ← orMalformed (parseMissing (missingKeyword missing))
        orMalformed (buildCalendar
          ⟨years, months, weeks, days, time, kept, overflow, ambiguous, missing⟩)) =
          Except.ok (CalendarPeriod.mk years months weeks days time zone overflow ambiguous missing) := by
      intro kept same
      rw [asI64_integerText, asI64_integerText, asI64_integerText, asI64_integerText, asI128_integerText,
        parseOverflow_keyword, parseAmbiguous_keyword, parseMissing_keyword, same]
      exact congrArg orMalformed built
    refine Eq.trans ?_ (congrArg (Except.map Period.calendar) (read zone rfl))
    -- The members are looked up by their names, with and without a zone.
    cases zone <;>
      simp only [decodePeriod, encodePeriod, decodeCalendar, asArray, memberI64, List.head?_cons, List.getElem?_cons_succ,
        List.getElem?_cons_zero, reduceIte, String.reduceEq, asObject, asStr, memberStr, member, J.get, Codes.ok_bind,
        List.lookup, orCorrupt, str?, Option.map_none, Option.map_some, Option.toList_none, Option.toList_some,
        List.append_nil, List.cons_append, List.nil_append, String.reduceBEq, beq_self_eq_true] <;>
      rfl

end Scalars

section Conditions

/-- A value that the runtime produces has sorted collections here, a date exists, and a calendar period has a
magnitude. -/
def ProducibleHere : Value → Prop
  | .date date => DateExists date
  | .period (.calendar period) => HasMagnitude period
  | value => value.SortedHere

/-- All values inside are such as the runtime produces. -/
def Producible (value : Value) : Prop :=
  value.Everywhere ProducibleHere

/-- A decimal here fits, and no member of a set and no value of a map is absent. -/
def DurableHere : Value → Prop
  | .decimal decimal => Decimal.Fits decimal
  | .json document => Document.Fits document
  | .set members => ∀ member ∈ members, member.present = true
  | .map entries => ∀ entry ∈ entries, entry.2.present = true
  | _ => True

/-- All decimals inside fit, and all members of sets and maps inside are present. -/
def Durable (value : Value) : Prop :=
  value.Everywhere DurableHere

theorem ProducibleHere.sorted {value : Value} (here : ProducibleHere value) : value.SortedHere := by
  cases value with
  | date date => exact trivial
  | period period => exact trivial
  | _ => exact here

theorem Producible.wellFormed {value : Value} (producible : Producible value) : value.WellFormed := by
  induction value using Value.induct with
  | step value ih =>
    obtain ⟨here, below⟩ := producible
    exact .intro here.sorted fun child inside => ih child inside (below child inside)

end Conditions

section Reading

/-- The members of a sequence read back when each one does. -/
theorem decodeSeq_related (values : List Value)
    (each : ∀ value ∈ values, ∃ read, decode libraries (encode libraries value) = .ok read ∧
      value.Identical read) :
    ∃ reads, decodeSeq libraries (.array (encodeList libraries values)) = .ok reads ∧
      List.Forall₂ Value.Identical values reads := by
  rw [decodeSeq_encodeList]
  exact Codes.exists_mapM_related each

/-- A field whose value reads back as an identical value reads back with its name. -/
theorem decodeField_encodeField {field : String × Value}
    (each : ∃ read, decode libraries (encode libraries field.2) = .ok read ∧ field.2.Identical read) :
    ∃ read, decodeField libraries (encodeField libraries field) = .ok read ∧
      (Value.cmpField field read = .eq ∧ field.2.Identical read.2) := by
  obtain ⟨name, value⟩ := field
  obtain ⟨read, decoded, identical⟩ := each
  refine ⟨(name, read), ?_, Ordering.then_eq_eq.mpr ⟨(compareText_eq_iff _ _).mpr rfl, identical.1⟩, identical⟩
  change (decode libraries (encode libraries value) >>= fun decoded => pure (name, decoded)) = _
  rw [decoded]
  rfl

/-- An entry whose key and present value read back is kept. -/
theorem decodeEntry_encodeEntry {entry : Value × Value} (kept : entry.2.present = true)
    (key : ∃ read, decode libraries (encode libraries entry.1) = .ok read ∧ entry.1.Identical read)
    (value : ∃ read, decode libraries (encode libraries entry.2) = .ok read ∧ entry.2.Identical read) :
    ∃ read : Option (Value × Value), decodeEntry libraries (encodeEntry libraries entry) = .ok read ∧
      ∃ found, read = some found ∧ Value.cmpEntry entry found = .eq ∧
        entry.1.Identical found.1 ∧ entry.2.Identical found.2 := by
  obtain ⟨first, second⟩ := entry
  obtain ⟨readKey, decodedKey, sameKey⟩ := key
  obtain ⟨readValue, decodedValue, sameValue⟩ := value
  refine ⟨some (readKey, readValue), ?_, _, rfl, Ordering.then_eq_eq.mpr ⟨sameKey.1, sameValue.1⟩, sameKey,
    sameValue⟩
  change (do
    let decoded ← decode libraries (encode libraries second)
    if decoded.present then
      let key ← decode libraries (encode libraries first)
      pure (some (key, decoded))
    else pure none) = _
  have shown : readValue.present = true := (Value.present_congr sameValue.1).symm.trans kept
  rw [decodedValue, decodedKey]
  change (if readValue.present then _ else _) = _
  rw [if_pos shown]
  rfl

/-- A durable value reads back as an identical value. -/
theorem decode_encode (documented : libraries.Documented) {value : Value} (producible : Producible value)
    (durable : Durable value) :
    ∃ read, decode libraries (encode libraries value) = .ok read ∧ value.Identical read := by
  induction value using Value.induct with
  | step value ih =>
    obtain ⟨here, inside⟩ := producible
    obtain ⟨small, below⟩ := durable
    have each : ∀ child ∈ value.children, ∃ read, decode libraries (encode libraries child) = .ok read ∧
        child.Identical read :=
      fun child listed => ih child listed (inside child listed) (below child listed)
    have equal : ∀ {left right : List Value}, List.Forall₂ Value.Identical left right →
        left.compareLex Value.cmp right = .eq := fun same =>
      Codes.compareLex_of_forall₂ (same.imp fun _ _ => And.left)
    cases value with
    | text text => exact ⟨.text text, rfl, .refl _⟩
    | bool flag => exact ⟨.bool flag, rfl, .refl _⟩
    | none => exact ⟨.none, rfl, .refl _⟩
    | int integer =>
      refine ⟨.int integer, ?_, .refl _⟩
      change (parsed _ (libraries.parseBigInt (integerText integer))).map Value.int = _
      rw [documented.bigInt]
      rfl
    | decimal decimal =>
      obtain ⟨read, parsed, same⟩ := Decimal.parse_toCanonicalText documented small
      refine ⟨.decimal read, ?_, .of_children ?_ rfl .nil⟩
      · change (orMalformed (Decimal.parse libraries (Decimal.toCanonicalText decimal))).map Value.decimal = _
        rw [parsed]
        rfl
      · rw [Value.cmp, BigDecimal.cmp_eq_compare, same]
        exact Std.ReflCmp.compare_self
    | bytes bytes =>
      refine ⟨.bytes bytes, ?_, .refl _⟩
      change (orMalformed ((libraries.fromBase64 (libraries.toBase64 bytes)).mapError _)).map Value.bytes = _
      rw [documented.base64]
      rfl
    | uuid uuid =>
      refine ⟨.uuid uuid, ?_, .refl _⟩
      change (parsed _ (libraries.parseUuid (libraries.uuidText uuid))).map Value.uuid = _
      rw [documented.uuid]
      rfl
    | date date =>
      refine ⟨.date date, ?_, .refl _⟩
      change (parsed _ (libraries.parseDate (libraries.dateText date))).map Value.date = _
      rw [documented.date date here]
      rfl
    | timestamp stamp =>
      exact ⟨.timestamp stamp,
        congrArg (Except.map Value.timestamp) (decodeTimestamp_encodeTimestamp stamp), .refl _⟩
    | duration nanos =>
      exact ⟨.duration nanos, congrArg (Except.map Value.duration) (asI128_integerText nanos), .refl _⟩
    | period period =>
      refine ⟨.period period, congrArg (Except.map Value.period) (decodePeriod_encodePeriod ?_), .refl _⟩
      rintro calendar rfl
      exact here
    | json json =>
      obtain ⟨read, parsed, same⟩ := Document.fromWire_toWire documented here small
      refine ⟨.json read, ?_, .of_children same rfl .nil⟩
      change (orMalformed (Document.fromWire libraries (Document.toWire json))).map Value.json = _
      rw [parsed]
      rfl
    | blob blob =>
      exact ⟨.blob blob, congrArg (Except.map Value.blob) (decodeBlob_encodeBlob documented blob), .refl _⟩
    | enum value =>
      exact ⟨.enum value, congrArg (Except.map Value.enum) (decodeEnum_encodeEnum value), .refl _⟩
    | ref key =>
      cases key with
      | scalar key =>
        obtain ⟨read, decoded, identical⟩ := each key List.mem_cons_self
        refine ⟨.ref (.scalar read), ?_, .of_children identical.1 rfl (.cons identical .nil)⟩
        change ((decode libraries (encode libraries key)).map RefKey.scalar).map Value.ref = _
        rw [decoded]
        rfl
      | composite components =>
        obtain ⟨reads, all, identical⟩ := decodeSeq_related components each
        refine ⟨.ref (.composite reads), ?_, .of_children ?_ rfl identical⟩
        · change ((decodeSeq libraries (.array (encodeList libraries components))).map
            RefKey.composite).map Value.ref = _
          rw [all]
          rfl
        · rw [Value.cmp, Value.cmpRef, Value.cmpList_eq]
          exact equal identical
    | struct fields =>
      have named : ∀ field ∈ fields, ∃ read, decodeField libraries (encodeField libraries field) = .ok read ∧
          (Value.cmpField field read = .eq ∧ field.2.Identical read.2) := fun field listed =>
        decodeField_encodeField (each field.2 (List.mem_map_of_mem listed))
      obtain ⟨reads, all, relates⟩ := Codes.exists_mapM_related named
      have order : Codes.Sorted Value.compareName reads :=
        .of_forall₂ (relates.imp fun _ _ both => Value.compareName_of_cmpField both.1) here
      refine ⟨.struct reads, ?_, .of_children ?_ rfl ?_⟩
      · change (decodeStruct libraries (.array (encodeFields libraries fields))).map _ = _
        rw [decodeStruct_encodeFields, all]
        change Except.ok (Value.struct (Codes.collectSorted Value.compareName reads)) = _
        rw [Codes.collectSorted_eq_self (fun _ _ _ _ => Std.OrientedCmp.gt_of_lt) order]
      · rw [Value.cmp, Value.cmpFields_eq]
        exact Codes.compareLex_of_forall₂ (relates.imp fun _ _ => And.left)
      · refine List.forall₂_map_left_iff.mpr (List.forall₂_map_right_iff.mpr ?_)
        exact relates.imp fun _ _ => And.right
    | composite components =>
      obtain ⟨reads, all, identical⟩ := decodeSeq_related components each
      refine ⟨.composite reads, ?_, .of_children ?_ rfl identical⟩
      · change (decodeSeq libraries (.array (encodeList libraries components))).map _ = _
        rw [all]
        rfl
      · rw [Value.cmp, Value.cmpList_eq]
        exact equal identical
    | set members =>
      obtain ⟨reads, all, identical⟩ := decodeSeq_related members each
      have order : Codes.Sorted Value.cmp reads := .of_forall₂ (identical.imp fun _ _ => And.left) here
      have shown : members.map Value.present = reads.map Value.present :=
        Codes.map_eq_of_forall₂ identical fun _ _ _ same => Value.present_congr same.1
      have kept : reads.filter Value.present = reads := by
        refine List.filter_eq_self.mpr fun read listed => ?_
        have image : read.present ∈ members.map Value.present := shown ▸ List.mem_map_of_mem listed
        obtain ⟨member, held, same⟩ := List.mem_map.mp image
        exact same.symm.trans (small member held)
      refine ⟨.set reads, ?_, .of_children ?_ rfl identical⟩
      · change (decodeSeq libraries (.array (encodeList libraries members))).map _ = _
        rw [all]
        change Except.ok (Value.set (Codes.collectMerged Value.cmp _ (reads.filter Value.present))) = _
        rw [kept, Codes.collectMerged_eq_self (fun _ _ _ _ => Std.OrientedCmp.gt_of_lt) order]
      · rw [Value.cmp, Value.cmpList_eq]
        exact equal identical
    | map entries =>
      have paired : ∀ entry ∈ entries, ∃ read : Option (Value × Value),
          decodeEntry libraries (encodeEntry libraries entry) = .ok read ∧
            ∃ found, read = some found ∧ Value.cmpEntry entry found = .eq ∧
              entry.1.Identical found.1 ∧ entry.2.Identical found.2 := fun entry listed =>
        decodeEntry_encodeEntry (small entry listed)
          (each entry.1 (List.mem_append_left _ (List.mem_map_of_mem listed)))
          (each entry.2 (List.mem_append_right _ (List.mem_map_of_mem listed)))
      obtain ⟨reads, all, relates⟩ := Codes.exists_mapM_related paired
      have found := Codes.reduceOption_of_forall₂ relates
      have order : Codes.Sorted Value.compareKey reads.reduceOption :=
        .of_forall₂ (found.imp fun _ _ both => Value.compareKey_of_cmpEntry both.1) here
      refine ⟨.map reads.reduceOption, ?_, .of_children ?_ rfl ?_⟩
      · change (decodeMap libraries (.array (encodeEntries libraries entries))).map _ = _
        rw [decodeMap_encodeEntries, all]
        change Except.ok (Value.map (Codes.collectMerged Value.compareKey _ reads.reduceOption)) = _
        rw [Codes.collectMerged_eq_self (fun _ _ _ _ => Std.OrientedCmp.gt_of_lt) order]
      · rw [Value.cmp, Value.cmpEntries_eq]
        exact Codes.compareLex_of_forall₂ (found.imp fun _ _ => And.left)
      · apply List.rel_append
        · refine List.forall₂_map_left_iff.mpr (List.forall₂_map_right_iff.mpr ?_)
          exact found.imp fun _ _ both => both.2.1
        · refine List.forall₂_map_left_iff.mpr (List.forall₂_map_right_iff.mpr ?_)
          exact found.imp fun _ _ both => both.2.2

end Reading

section Losses

/-- A decimal that does not fit is rejected on the way back. -/
theorem decode_wide (documented : libraries.Documented) {decimal : BigDecimal}
    (wide : ¬ Decimal.Fits decimal) :
    decode libraries (encode libraries (.decimal decimal)) = .error (.malformed
      (.decimalScaleOutOfRange decimal.normalized.scale.natAbs Decimal.maxScaleMagnitude)) := by
  change (orMalformed (Decimal.parse libraries (Decimal.toCanonicalText decimal))).map Value.decimal = _
  rw [Decimal.parse_wide documented wide]
  rfl

/-- The count of the values that a present value holds. -/
def weight (value : Value) : Nat :=
  if value.present then value.nodes else 0

/-- The count of the values that a kept entry holds. -/
def entryWeight : Option (Value × Value) → Nat
  | some entry => entry.1.nodes + entry.2.nodes
  | none => 0

theorem nodes_pos (value : Value) : 0 < value.nodes := by
  rw [Value.nodes_eq]
  omega

theorem sum_weight (values : List Value) :
    ((values.filter Value.present).map Value.nodes).sum = (values.map weight).sum := by
  induction values with
  | nil => rfl
  | cons value rest ih =>
    rw [List.map_cons, List.sum_cons, ← ih, weight, List.filter_cons]
    split
    · rw [List.map_cons, List.sum_cons]
    · exact (Nat.zero_add _).symm

theorem sum_entryWeight (entries : List (Option (Value × Value))) :
    (entries.reduceOption.map fun entry => entry.1.nodes + entry.2.nodes).sum =
      (entries.map entryWeight).sum := by
  induction entries with
  | nil => rfl
  | cons entry rest ih =>
    cases entry with
    | none =>
      rw [List.reduceOption_cons_of_none, ih, List.map_cons, List.sum_cons]
      exact (Nat.zero_add _).symm
    | some entry =>
      rw [List.reduceOption_cons_of_some, List.map_cons, List.sum_cons, ih]
      rfl

/-- The nodes of a map are the nodes of its entries. -/
theorem nodes_map (entries : List (Value × Value)) :
    (Value.map entries).nodes = 1 + (entries.map fun entry => entry.1.nodes + entry.2.nodes).sum := by
  rw [Value.nodes_eq]
  change 1 + ((entries.map Prod.fst ++ entries.map Prod.snd).map Value.nodes).sum = _
  rw [List.map_append, List.sum_append, List.map_map, List.map_map, List.sum_map_add]
  rfl

theorem nodes_struct (fields : List (String × Value)) :
    (Value.struct fields).nodes = 1 + (fields.map fun field => field.2.nodes).sum := by
  rw [Value.nodes_eq]
  change 1 + ((fields.map Prod.snd).map Value.nodes).sum = _
  rw [List.map_map]
  rfl

/-- A value that a decoded text stands for was present when the decoded value is. -/
theorem present_of_decode {value read : Value}
    (decoded : decode libraries (encode libraries value) = .ok read) (shown : read.present = true) :
    value.present = true := by
  cases value with
  | none =>
    obtain rfl : Value.none = read := Except.ok.inj decoded
    exact shown
  | _ => rfl

/-- The decoded value holds no more values than the stored one. It holds as many only when the stored value
is durable. -/
def Shrinks (libraries : Libraries) (value : Value) : Prop :=
  ∀ read, decode libraries (encode libraries value) = .ok read →
    read.nodes ≤ value.nodes ∧ (value.nodes ≤ read.nodes → Durable value)

/-- A value that holds no other value shrinks only when it is not durable. -/
theorem shrinks_leaf {value : Value} (leaf : value.children = [])
    (image : ∀ read, decode libraries (encode libraries value) = .ok read →
      read.children = [] ∧ DurableHere value) : Shrinks libraries value := by
  intro read decoded
  obtain ⟨empty, here⟩ := image read decoded
  have size : read.nodes = value.nodes := by rw [Value.nodes_eq, Value.nodes_eq, empty, leaf]
  refine ⟨size.le, fun _ => .intro here fun child inside => ?_⟩
  rw [leaf] at inside
  cases inside

/-- The members of a sequence shrink. -/
theorem shrinks_list {values reads : List Value} (each : ∀ value ∈ values, Shrinks libraries value)
    (all : decodeSeq libraries (.array (encodeList libraries values)) = .ok reads) :
    (reads.map Value.nodes).sum ≤ (values.map Value.nodes).sum ∧
      ((values.map Value.nodes).sum ≤ (reads.map Value.nodes).sum → ∀ value ∈ values, Durable value) := by
  rw [decodeSeq_encodeList] at all
  exact Codes.sum_le_of_forall₂ (Codes.forall₂_of_mapM all) fun value inside read decoded =>
    each value inside read decoded

theorem shrinks_composite {components reads : List Value}
    (each : ∀ value ∈ components, Shrinks libraries value)
    (all : decodeSeq libraries (.array (encodeList libraries components)) = .ok reads) :
    1 + (reads.map Value.nodes).sum ≤ 1 + (components.map Value.nodes).sum ∧
      (1 + (components.map Value.nodes).sum ≤ 1 + (reads.map Value.nodes).sum →
        ∀ value ∈ components, Durable value) := by
  obtain ⟨low, high⟩ := shrinks_list each all
  exact ⟨by omega, fun large => high (by omega)⟩

/-- Each value shrinks. -/
theorem shrinks (documented : libraries.Documented) {value : Value} (producible : Producible value) :
    Shrinks libraries value := by
  induction value using Value.induct with
  | step value ih =>
    obtain ⟨here, inside⟩ := producible
    have each : ∀ child ∈ value.children, Shrinks libraries child :=
      fun child listed => ih child listed (inside child listed)
    cases value with
    | ref key =>
      cases key with
      | scalar key =>
        intro read decoded
        obtain ⟨inner, scalar, rfl⟩ := Codes.map_ok.mp decoded
        obtain ⟨found, answered, rfl⟩ := Codes.map_ok.mp scalar
        obtain ⟨low, high⟩ := each key List.mem_cons_self found answered
        have size : (Value.ref (.scalar found)).nodes = 1 + found.nodes := Value.nodes_eq _
        have whole : (Value.ref (.scalar key)).nodes = 1 + key.nodes := Value.nodes_eq _
        refine ⟨by omega, fun large => .intro trivial fun child listed => ?_⟩
        rw [List.mem_singleton.mp listed]
        exact high (by omega)
      | composite components =>
        intro read decoded
        obtain ⟨inner, composite, rfl⟩ := Codes.map_ok.mp decoded
        obtain ⟨found, answered, rfl⟩ := Codes.map_ok.mp composite
        obtain ⟨low, high⟩ := shrinks_composite each answered
        rw [Value.nodes_eq, Value.nodes_eq]
        exact ⟨low, fun large => .intro trivial (high large)⟩
    | struct fields =>
      intro read decoded
      obtain ⟨found, answered, rfl⟩ := Codes.map_ok.mp decoded
      rw [decodeStruct_encodeFields] at answered
      have fieldwise : ∀ field ∈ fields, ∀ result : String × Value,
          decodeField libraries (encodeField libraries field) = .ok result →
            result.2.nodes ≤ field.2.nodes ∧ (field.2.nodes ≤ result.2.nodes → Durable field.2) := by
        intro field listed result named
        obtain ⟨name, held⟩ := field
        obtain ⟨found, valued, last⟩ := Codes.bind_ok.mp named
        obtain rfl := Except.ok.inj last
        exact each held (List.mem_map_of_mem listed) found valued
      obtain ⟨low, high⟩ := Codes.sum_le_of_forall₂ (Codes.forall₂_of_mapM answered) fieldwise
      have collected : ((Codes.collectSorted Value.compareName found).map fun field => field.2.nodes).sum ≤
          (found.map fun field => field.2.nodes).sum := by
        rw [← Codes.collectMerged_last]
        exact Codes.sum_collectMerged_le (fun _ _ => Nat.le_add_left _ _) found
      rw [nodes_struct, nodes_struct]
      refine ⟨by omega, fun large => .intro trivial fun child listed => ?_⟩
      obtain ⟨field, present, rfl⟩ := List.mem_map.mp listed
      exact high (by omega) field present
    | composite components =>
      intro read decoded
      obtain ⟨found, answered, rfl⟩ := Codes.map_ok.mp decoded
      obtain ⟨low, high⟩ := shrinks_composite each answered
      rw [Value.nodes_eq, Value.nodes_eq]
      exact ⟨low, fun large => .intro trivial (high large)⟩
    | set members =>
      intro read decoded
      obtain ⟨found, answered, rfl⟩ := Codes.map_ok.mp decoded
      rw [decodeSeq_encodeList] at answered
      have memberwise : ∀ member ∈ members, ∀ result : Value,
          decode libraries (encode libraries member) = .ok result → weight result ≤ member.nodes ∧
            (member.nodes ≤ weight result → member.present = true ∧ Durable member) := by
        intro member listed result valued
        obtain ⟨low, high⟩ := each member listed result valued
        unfold weight
        split
        · next shown => exact ⟨low, fun large => ⟨present_of_decode valued shown, high large⟩⟩
        · exact ⟨Nat.zero_le _, fun none => absurd (nodes_pos member) (by omega)⟩
      obtain ⟨low, high⟩ := Codes.sum_le_of_forall₂ (Codes.forall₂_of_mapM answered) memberwise
      have collected : ((Codes.collectMerged Value.cmp (fun kept _ => kept)
          (found.filter Value.present)).map Value.nodes).sum ≤ (found.map weight).sum := by
        rw [← sum_weight]
        exact Codes.sum_collectMerged_le (fun _ _ => Nat.le_add_right _ _) _
      rw [Value.nodes_eq, Value.nodes_eq]
      change 1 + ((Codes.collectMerged Value.cmp _ _).map Value.nodes).sum ≤
        1 + (members.map Value.nodes).sum ∧ (1 + (members.map Value.nodes).sum ≤
          1 + ((Codes.collectMerged Value.cmp _ _).map Value.nodes).sum → _)
      refine ⟨by omega, fun large => ?_⟩
      have kept := high (by omega)
      exact .intro (fun member listed => (kept member listed).1) fun member listed => (kept member listed).2
    | map entries =>
      intro read decoded
      obtain ⟨found, answered, rfl⟩ := Codes.map_ok.mp decoded
      rw [decodeMap_encodeEntries] at answered
      have entrywise : ∀ entry ∈ entries, ∀ result : Option (Value × Value),
          decodeEntry libraries (encodeEntry libraries entry) = .ok result →
            entryWeight result ≤ entry.1.nodes + entry.2.nodes ∧
              (entry.1.nodes + entry.2.nodes ≤ entryWeight result →
                entry.2.present = true ∧ Durable entry.1 ∧ Durable entry.2) := by
        intro entry listed result paired
        obtain ⟨key, held⟩ := entry
        obtain ⟨readValue, valued, rest⟩ := Codes.bind_ok.mp paired
        obtain ⟨lowValue, highValue⟩ :=
          each held (List.mem_append_right _ (List.mem_map_of_mem listed)) readValue valued
        split at rest
        · next shown =>
            obtain ⟨readKey, keyed, last⟩ := Codes.bind_ok.mp rest
            obtain rfl := Except.ok.inj last
            obtain ⟨lowKey, highKey⟩ :=
              each key (List.mem_append_left _ (List.mem_map_of_mem listed)) readKey keyed
            change readKey.nodes + readValue.nodes ≤ key.nodes + held.nodes ∧
              (key.nodes + held.nodes ≤ readKey.nodes + readValue.nodes → _)
            refine ⟨by omega, fun large => ⟨present_of_decode valued shown, ?_, ?_⟩⟩
            · exact highKey (by omega)
            · exact highValue (by omega)
        · obtain rfl := Except.ok.inj rest
          have positive := nodes_pos key
          exact ⟨Nat.zero_le _, fun none => absurd none (Nat.not_le.mpr (Nat.add_pos_left positive _))⟩
      obtain ⟨low, high⟩ := Codes.sum_le_of_forall₂ (Codes.forall₂_of_mapM answered) entrywise
      have collected : ((Codes.collectMerged Value.compareKey (fun kept added => (kept.1, added.2))
          found.reduceOption).map fun entry => entry.1.nodes + entry.2.nodes).sum ≤
            (found.map entryWeight).sum := by
        rw [← sum_entryWeight]
        refine Codes.sum_collectMerged_le (fun kept added => ?_) _
        dsimp only
        omega
      rw [nodes_map, nodes_map]
      refine ⟨by omega, fun large => ?_⟩
      have kept := high (by omega)
      refine .intro (fun entry listed => (kept entry listed).1) fun child listed => ?_
      rcases List.mem_append.mp listed with key | held
      · obtain ⟨entry, present, rfl⟩ := List.mem_map.mp key
        exact (kept entry present).2.1
      · obtain ⟨entry, present, rfl⟩ := List.mem_map.mp held
        exact (kept entry present).2.2
    | decimal decimal =>
      refine shrinks_leaf rfl fun read decoded => ?_
      obtain ⟨found, answered, rfl⟩ := Codes.map_ok.mp decoded
      refine ⟨rfl, by_contra fun wide => ?_⟩
      rw [decode_wide documented wide] at decoded
      cases decoded
    | json json =>
      refine shrinks_leaf rfl fun read decoded => ?_
      obtain ⟨found, answered, rfl⟩ := Codes.map_ok.mp decoded
      refine ⟨rfl, ?_⟩
      change orMalformed (Document.fromWire libraries (Document.toWire json)) = _ at answered
      cases parsed : Document.fromWire libraries (Document.toWire json) with
      | error fault =>
        rw [parsed] at answered
        cases answered
      | ok document => exact Document.fits_of_fromWire documented here parsed
    | none =>
      refine shrinks_leaf rfl fun read decoded => ?_
      obtain rfl : Value.none = read := Except.ok.inj decoded
      exact ⟨rfl, trivial⟩
    | text text =>
      refine shrinks_leaf rfl fun read decoded => ?_
      obtain rfl : Value.text text = read := Except.ok.inj decoded
      exact ⟨rfl, trivial⟩
    | bool flag =>
      refine shrinks_leaf rfl fun read decoded => ?_
      obtain rfl : Value.bool flag = read := Except.ok.inj decoded
      exact ⟨rfl, trivial⟩
    | _ =>
      refine shrinks_leaf rfl fun read decoded => ?_
      obtain ⟨found, _, rfl⟩ := Codes.map_ok.mp decoded
      exact ⟨rfl, trivial⟩

/-- A value that reads back as an identical value is durable. -/
theorem durable_of_identical (documented : libraries.Documented) {value read : Value}
    (producible : Producible value) (decoded : decode libraries (encode libraries value) = .ok read)
    (identical : value.Identical read) : Durable value :=
  (shrinks documented producible read decoded).2 (Value.nodes_congr identical.1).le

end Losses

section Storage

/-- The escape keeps NUL out of the stored tree and can be undone on each tree. A value reads back from the
stored tree as an identical value exactly when it is durable. -/
theorem stored_identical_iff (documented : libraries.Documented) :
    (∀ tree : J, tree.WellFormed → fromJsonb (toJsonb tree) = tree ∧ NulFree (toJsonb tree)) ∧
      ∀ value, Producible value → NulFree (toJsonb (encode libraries value)) ∧
        ((∃ read, decode libraries (fromJsonb (toJsonb (encode libraries value))) = .ok read ∧
          value.Identical read) ↔ Durable value) := by
  refine ⟨fun tree proper => ⟨fromJsonb_toJsonb proper, toJsonb_nulFree proper⟩, fun value producible => ?_⟩
  have proper : (encode libraries value).WellFormed := encode_wellFormed producible.wellFormed
  rw [fromJsonb_toJsonb proper]
  refine ⟨toJsonb_nulFree proper, fun stored => ?_, decode_encode documented producible⟩
  obtain ⟨read, decoded, identical⟩ := stored
  exact durable_of_identical documented producible decoded identical

/-- A map from a text that looks escaped to one and a half. -/
def sampleMap : Value :=
  .map [(.text "\\0", .decimal ⟨150, 2⟩)]

theorem sampleMap_everywhere {property : Value → Prop} (whole : property sampleMap)
    (key : property (.text "\\0")) (value : property (.decimal ⟨150, 2⟩)) :
    sampleMap.Everywhere property := by
  refine .intro whole fun child inside => ?_
  change child ∈ [Value.text "\\0", .decimal ⟨150, 2⟩] at inside
  simp only [List.mem_cons, List.not_mem_nil, or_false] at inside
  rcases inside with rfl | rfl
  · exact .intro key fun _ none => absurd none List.not_mem_nil
  · exact .intro value fun _ none => absurd none List.not_mem_nil

theorem sampleMap_stored :
    ∃ read, decode Sample.libraries (fromJsonb (toJsonb (encode Sample.libraries sampleMap))) = .ok read ∧
      sampleMap.Identical read := by
  have producible : Producible sampleMap :=
    sampleMap_everywhere (List.pairwise_singleton _ _) trivial trivial
  have fits : Decimal.Fits ⟨150, 2⟩ := by decide +kernel
  have durable : Durable sampleMap := by
    refine sampleMap_everywhere (fun entry inside => ?_) trivial fits
    rw [List.mem_singleton.mp inside]
    rfl
  exact ((stored_identical_iff Sample.documented).2 sampleMap producible).2.mpr durable

/-- The product of two decimals that fit. -/
def smallProduct : BigDecimal :=
  BigDecimal.mul ⟨1, 16383⟩ ⟨1, 1⟩

/-- The product of two decimals that fit does not read back. -/
theorem smallProduct_lost :
    Decimal.Fits ⟨1, 16383⟩ ∧ Decimal.Fits ⟨1, 1⟩ ∧ Producible (.decimal smallProduct) ∧
      ¬ ∃ read, decode Sample.libraries
        (fromJsonb (toJsonb (encode Sample.libraries (.decimal smallProduct)))) = .ok read ∧
          (Value.decimal smallProduct).Identical read := by
  have producible : Producible (.decimal smallProduct) :=
    .intro trivial fun _ none => absurd none List.not_mem_nil
  have wide : ¬ Decimal.Fits smallProduct := by decide +kernel
  refine ⟨by decide +kernel, by decide +kernel, producible, ?_⟩
  rw [fromJsonb_toJsonb (encode_wellFormed producible.wellFormed), decode_wide Sample.documented wide]
  intro stored
  obtain ⟨read, decoded, _⟩ := stored
  cases decoded

end Storage

end Liasse.Pg.Codec

/-
This file proves that the key column of the database identifies a key as the order of keys does.
-/

import Liasse.KeyEnc.Canonical
import Liasse.Pg.Durable
import Liasse.Wire.Scalars

namespace Liasse.Pg.Codec

open Wire

section Representatives

open KeyEnc

theorem canonicalKey_struct {fields : List (String × Value)} (formed : (Value.struct fields).WellFormed) :
    canonicalKey (.struct fields) = .struct (fields.map canonicalField) := by
  obtain ⟨here, inside⟩ := formed
  rw [canonicalKey, collectFields_canonical here]

theorem canonicalKey_set {members : List Value} (formed : (Value.set members).WellFormed) :
    canonicalKey (.set members) = .set (members.map canonicalKey) := by
  obtain ⟨here, inside⟩ := formed
  rw [canonicalKey]
  exact congrArg Value.set (collectMembers_canonical (canonicalKey_keeps inside) here)

/-- The representatives of the keys of a map compare as the keys. -/
theorem keeps_entries {entries : List (Value × Value)} (formed : (Value.map entries).WellFormed) :
    ∀ first ∈ entries, ∀ second ∈ entries,
      (canonicalKey first.1).cmp (canonicalKey second.1) = first.1.cmp second.1 := by
  obtain ⟨here, inside⟩ := formed
  have key : ∀ entry ∈ entries, entry.1 ∈ (Value.map entries).children := fun entry listed =>
    List.mem_append_left _ (List.mem_map_of_mem listed)
  exact fun first one second two => canonicalKey_keeps inside first.1 (key first one) second.1 (key second two)

theorem canonicalKey_map {entries : List (Value × Value)} (formed : (Value.map entries).WellFormed) :
    canonicalKey (.map entries) = .map (entries.map canonicalEntry) := by
  have keeps := keeps_entries formed
  obtain ⟨here, inside⟩ := formed
  rw [canonicalKey, collectEntries_canonical keeps here]

/-- The representative of a value holds the representatives of its children. -/
theorem children_canonicalKey {value : Value} (formed : value.WellFormed) :
    (canonicalKey value).children = value.children.map canonicalKey := by
  cases value with
  | ref key =>
    cases key with
    | scalar key => rfl
    | composite components => exact canonicalList_eq components
  | struct fields =>
    rw [canonicalKey_struct formed]
    change (fields.map canonicalField).map Prod.snd = (fields.map Prod.snd).map canonicalKey
    rw [List.map_map, List.map_map]
    exact List.map_congr_left fun field _ => by cases field; rfl
  | composite components => exact canonicalList_eq components
  | set members => rw [canonicalKey_set formed]; rfl
  | map entries =>
    rw [canonicalKey_map formed]
    change (entries.map canonicalEntry).map Prod.fst ++ (entries.map canonicalEntry).map Prod.snd =
      (entries.map Prod.fst ++ entries.map Prod.snd).map canonicalKey
    rw [List.map_append, List.map_map, List.map_map, List.map_map, List.map_map]
    congr 1 <;> exact List.map_congr_left fun entry _ => by cases entry; rfl
  | _ => rfl

/-- The representative of a value has the canonical forms of its timestamps. -/
theorem timestamps_canonicalKey {value : Value} (formed : value.WellFormed) :
    (canonicalKey value).timestamps = value.timestamps.map canonicalTimestamp := by
  induction formed with
  | @intro value here inside ih =>
    have leaf : (canonicalKey value).timestampHere = value.timestampHere.map canonicalTimestamp := by
      cases value <;> rfl
    rw [Value.timestamps_eq, Value.timestamps_eq, children_canonicalKey (.intro here inside), leaf, List.map_append,
      List.flatMap_map, List.map_flatMap, List.flatMap_congr ih]

/-- The timestamps of equal values are equal one by one. -/
theorem timestamps_related {first second : Value} (same : first.cmp second = .eq) :
    List.Forall₂ (fun left right => left.cmp right = .eq) first.timestamps second.timestamps := by
  induction first using Value.induct generalizing second with
  | step first ih =>
    rw [Value.timestamps_eq, Value.timestamps_eq]
    apply List.rel_append
    · cases Value.sameKind_of_cmp same with
      | timestamp left right => exact .cons same .nil
      | _ => exact .nil
    · have both := (List.forall₂_and_left _ _).mpr ⟨ih, Value.children_related same⟩
      exact List.rel_flatMap both fun _ _ related => related.1 related.2

/-- Equal values have identical representatives. -/
theorem canonicalKey_identical {first second : Value} (one : first.WellFormed) (two : second.WellFormed)
    (same : first.cmp second = .eq) : (canonicalKey first).Identical (canonicalKey second) := by
  refine ⟨?_, ?_⟩
  · rw [canonicalKey_cmp one, Value.cmp_swap, canonicalKey_cmp two, ← Value.cmp_swap, same]
  · rw [timestamps_canonicalKey one, timestamps_canonicalKey two]
    exact Codes.map_eq_of_forall₂ (timestamps_related same) fun _ _ _ equal => canonicalTimestamp_eq_iff.mpr equal

theorem present_canonicalKey (value : Value) : (canonicalKey value).present = value.present := by
  cases value <;> rfl

/-- The representative of a produced value is a produced value. -/
theorem producible_canonicalKey {value : Value} (producible : Producible value) :
    Producible (canonicalKey value) := by
  induction value using Value.induct with
  | step value ih =>
    have formed := producible.wellFormed
    obtain ⟨here, inside⟩ := producible
    refine .intro ?_ fun child listed => ?_
    · cases value with
      | struct fields =>
        rw [canonicalKey_struct formed]
        refine sorted_map (fun first _ second _ => ?_) here
        obtain ⟨name, field⟩ := first
        obtain ⟨otherName, other⟩ := second
        rfl
      | set members =>
        rw [canonicalKey_set formed]
        obtain ⟨_, below⟩ := formed
        exact sorted_map (canonicalKey_keeps below) here
      | map entries =>
        rw [canonicalKey_map formed]
        refine sorted_map (fun first one second two => ?_) here
        have keeps := keeps_entries formed first one second two
        obtain ⟨key, value⟩ := first
        obtain ⟨otherKey, other⟩ := second
        exact keeps
      | _ => exact here
    · rw [children_canonicalKey formed] at listed
      obtain ⟨original, held, rfl⟩ := List.mem_map.mp listed
      exact ih original held (inside original held)

/-- The representative of a value is durable exactly when the value is. -/
theorem durable_canonicalKey {value : Value} (formed : value.WellFormed) :
    Durable (canonicalKey value) ↔ Durable value := by
  induction formed with
  | @intro value here inside ih =>
    have leaf : DurableHere (canonicalKey value) ↔ DurableHere value := by
      cases value with
      | decimal decimal => exact Decimal.fits_congr (normalized_toRat decimal)
      | set members =>
        rw [canonicalKey_set (.intro here inside)]
        refine List.forall_mem_map.trans (forall₂_congr fun member _ => ?_)
        rw [present_canonicalKey]
      | map entries =>
        rw [canonicalKey_map (.intro here inside)]
        refine List.forall_mem_map.trans (forall₂_congr fun entry _ => ?_)
        obtain ⟨key, held⟩ := entry
        exact Eq.congr_left (present_canonicalKey held)
      | _ => exact Iff.rfl
    constructor
    · rintro ⟨durable, below⟩
      rw [children_canonicalKey (.intro here inside)] at below
      refine .intro (leaf.mp durable) fun child listed => ?_
      exact (ih child listed).mp (below _ (List.mem_map_of_mem listed))
    · rintro ⟨durable, below⟩
      refine .intro (leaf.mpr durable) fun child listed => ?_
      rw [children_canonicalKey (.intro here inside)] at listed
      obtain ⟨original, held, rfl⟩ := List.mem_map.mp listed
      exact (ih original held).mpr (below original held)

end Representatives

section Columns

variable {libraries : Libraries}

theorem tag_inj {name otherName : String} {payload otherPayload : J}
    (same : tag name payload = tag otherName otherPayload) : name = otherName ∧ payload = otherPayload :=
  Prod.mk.inj (List.singleton_inj.mp (J.object.inj same))

/-- The stored fields of a struct pair its names with its stored values. -/
theorem encodeFields_zip (fields : List (String × Value)) :
    encodeFields libraries fields = List.zipWith (fun name value => J.array [.string name, value])
      (fields.map Prod.fst) (encodeList libraries (fields.map Prod.snd)) := by
  rw [encodeFields_eq, encodeList_eq, List.map_map, List.zipWith_map, List.zipWith_self]
  exact List.map_congr_left fun field _ => by cases field; rfl

/-- The stored entries of a map pair its stored keys with its stored values. -/
theorem encodeEntries_zip (entries : List (Value × Value)) :
    encodeEntries libraries entries = List.zipWith (fun key value => J.array [key, value])
      (encodeList libraries (entries.map Prod.fst)) (encodeList libraries (entries.map Prod.snd)) := by
  rw [encodeEntries_eq, encodeList_eq, encodeList_eq, List.map_map, List.map_map, List.zipWith_map,
    List.zipWith_self]
  exact List.map_congr_left fun entry _ => by cases entry; rfl

/-- Identical values have one stored form. -/
theorem encode_congr {first second : Value} (identical : first.Identical second) :
    encode libraries first = encode libraries second := by
  induction first using Value.induct generalizing second with
  | step first ih =>
    have same := identical.1
    obtain ⟨stamps, below⟩ := identical.children
    have children : encodeList libraries first.children = encodeList libraries second.children := by
      rw [encodeList_eq, encodeList_eq]
      exact Codes.map_eq_of_forall₂ below fun child inside _ => ih child inside
    cases Value.sameKind_of_cmp same with
    | text left right => rw [(compareText_eq_iff left right).mp same]
    | bool left right => rw [show left = right from Std.LawfulEqOrd.eq_of_compare same]
    | int left right => rw [show left = right from Std.LawfulEqOrd.eq_of_compare same]
    | decimal left right => rw [encode, encode, Decimal.toCanonicalText_congr (BigDecimal.cmp_eq_iff.mp same)]
    | bytes left right => rw [show left = right from Std.LawfulEqOrd.eq_of_compare same]
    | uuid left right =>
      obtain ⟨left, _⟩ := left
      obtain ⟨right, _⟩ := right
      obtain rfl : left = right := Std.LawfulEqOrd.eq_of_compare same
      rfl
    | date left right => rw [Date.eq_of_cmp same]
    | timestamp left right => rw [List.singleton_inj.mp stamps]
    | duration left right => rw [Signed.eq_of_cmp same]
    | period left right => rw [Period.eq_of_cmp same]
    | json left right => rw [encode, encode, Document.toWire_congr same]
    | blob left right => rw [BlobDescriptor.eq_of_cmp same]
    | enum left right => rw [EnumValue.eq_of_cmp same]
    | ref left right =>
      cases left with
      | scalar left =>
        cases right with
        | scalar right => rw [encode, encode, encodeRef, encodeRef, (List.cons.inj children).1]
        | composite => cases same
      | composite left =>
        cases right with
        | scalar => cases same
        | composite right =>
          change encodeList libraries left = encodeList libraries right at children
          rw [encode, encode, encodeRef, encodeRef, children]
    | struct left right =>
      rw [Value.cmp, Value.cmpFields_eq] at same
      have names : left.map Prod.fst = right.map Prod.fst :=
        Codes.map_eq_of_forall₂ (Codes.forall₂_of_compareLex same) fun field _ other equal =>
          (compareText_eq_iff _ _).mp (Value.compareName_of_cmpField equal)
      change encodeList libraries (left.map Prod.snd) = encodeList libraries (right.map Prod.snd) at children
      rw [encode, encode, encodeFields_zip, encodeFields_zip, names, children]
    | composite left right =>
      change encodeList libraries left = encodeList libraries right at children
      rw [encode, encode, children]
    | set left right =>
      change encodeList libraries left = encodeList libraries right at children
      rw [encode, encode, children]
    | map left right =>
      rw [Value.cmp, Value.cmpEntries_eq] at same
      have lengths := (Codes.forall₂_of_compareLex same).length_eq
      change encodeList libraries (left.map Prod.fst ++ left.map Prod.snd) =
        encodeList libraries (right.map Prod.fst ++ right.map Prod.snd) at children
      simp only [encodeList_eq, List.map_append] at children
      obtain ⟨keys, values⟩ := List.append_inj children (by simp only [List.length_map, lengths])
      simp only [encode, encodeEntries_zip, encodeList_eq, keys, values]
    | none => rfl

/-- JSON values with one wire form are equal. -/
theorem cmp_of_toWire {first second : Json} (one : first.WellFormed) (two : second.WellFormed)
    (same : Document.toWire first = Document.toWire second) : first.cmp second = .eq := by
  induction first using Json.induct generalizing second with
  | step first ih =>
    have kinds : Json.SameKind first second := by
      refine (Json.sameKind_or_rank first second).resolve_right fun other => other.1 ?_
      cases first <;> cases second <;> first
        | rfl
        | cases same
    obtain ⟨here, inside⟩ := one
    obtain ⟨otherHere, otherInside⟩ := two
    cases kinds with
    | null => rfl
    | bool left right => rw [J.bool.inj same]; exact Std.ReflCmp.compare_self
    | number left right => exact BigDecimal.cmp_eq_iff.mpr (Decimal.toCanonicalText_eq_iff.mp (J.number.inj same))
    | string left right => exact (compareText_eq_iff left right).mpr (J.string.inj same)
    | array left right =>
      rw [Document.toWire, Document.toWire, Document.toWireItems_eq, Document.toWireItems_eq] at same
      rw [Json.cmp, Json.cmpItems_eq]
      refine Codes.compareLex_of_map_eq (fun item listed other present equal => ?_) (J.array.inj same)
      exact ih item listed (inside item listed) (otherInside other present) equal
    | object left right =>
      rw [Document.toWire_object here, Document.toWire_object otherHere] at same
      rw [Json.cmp, Json.cmpMembers_eq]
      refine Codes.compareLex_of_map_eq (fun member listed other present equal => ?_) (J.object.inj same)
      obtain ⟨name, json⟩ := member
      obtain ⟨otherName, otherJson⟩ := other
      obtain ⟨names, values⟩ := Prod.mk.inj equal
      refine Ordering.then_eq_eq.mpr ⟨(compareText_eq_iff _ _).mpr names, ?_⟩
      exact ih json (List.mem_map_of_mem listed) (inside json (List.mem_map_of_mem listed))
        (otherInside otherJson (List.mem_map_of_mem present)) values

/-- The tags of the stored forms with the ranks of their values. -/
def tagRanks : List (String × UInt8) :=
  [("b", 0), ("i", 1), ("d", 2), ("s", 3), ("y", 4), ("u", 5), ("date", 6), ("ts", 7), ("dur", 8), ("per", 9),
    ("enum", 10), ("ref", 11), ("j", 12), ("blob", 13), ("st", 14), ("set", 15), ("map", 16), ("comp", 17),
    ("none", 255)]

/-- The tag of a stored form decides the rank of its value. -/
theorem encode_tagged (libraries : Libraries) (value : Value) :
    ∃ name payload, encode libraries value = tag name payload ∧ tagRanks.lookup name = some value.rank := by
  cases value <;> exact ⟨_, _, rfl, rfl⟩

/-- Values with one stored form are of one kind. -/
theorem sameKind_of_encode {first second : Value} (same : encode libraries first = encode libraries second) :
    Value.SameKind first second := by
  obtain ⟨name, payload, form, rank⟩ := encode_tagged libraries first
  obtain ⟨otherName, otherPayload, otherForm, otherRank⟩ := encode_tagged libraries second
  rw [form, otherForm] at same
  have names : name = otherName := (tag_inj same).1
  refine (Value.sameKind_or_rank first second).resolve_right fun other => other.1 ?_
  rw [names, otherRank] at rank
  exact (Option.some.inj rank).symm

/-- Durable values with one stored form are equal, because the form reads back as each of them. -/
theorem cmp_of_decode (documented : libraries.Documented) {first second : Value} (one : Producible first)
    (two : Producible second) (firstDurable : Durable first) (secondDurable : Durable second)
    (same : encode libraries first = encode libraries second) : first.cmp second = .eq := by
  obtain ⟨read, decoded, identical⟩ := decode_encode documented one firstDurable
  obtain ⟨other, otherDecoded, otherIdentical⟩ := decode_encode documented two secondDurable
  rw [same, otherDecoded] at decoded
  obtain rfl := Except.ok.inj decoded
  exact Std.TransCmp.eq_trans identical.1 (Std.OrientedCmp.eq_symm otherIdentical.1)

/-- Values with one stored form are equal. -/
theorem cmp_of_encode (documented : libraries.Documented) {first second : Value} (one : Producible first)
    (two : Producible second) (same : encode libraries first = encode libraries second) :
    first.cmp second = .eq := by
  induction first using Value.induct generalizing second with
  | step first ih =>
    obtain ⟨here, inside⟩ := id one
    obtain ⟨otherHere, otherInside⟩ := id two
    have lists : ∀ {left right : List Value}, (∀ child ∈ left, child ∈ first.children) →
        (∀ child ∈ right, child ∈ second.children) →
          encodeList libraries left = encodeList libraries right → left.compareLex Value.cmp right = .eq := by
      intro left right children others equal
      rw [encodeList_eq, encodeList_eq] at equal
      refine Codes.compareLex_of_map_eq (fun child listed other present image => ?_) equal
      exact ih child (children child listed) (inside child (children child listed))
        (otherInside other (others other present)) image
    cases sameKind_of_encode same with
    | decimal left right =>
      exact BigDecimal.cmp_eq_iff.mpr (Decimal.toCanonicalText_eq_iff.mp (J.string.inj (tag_inj same).2))
    | json left right => exact cmp_of_toWire here otherHere (tag_inj same).2
    | ref left right =>
      have keys : encodeRef libraries left = encodeRef libraries right := (tag_inj same).2
      cases left with
      | scalar left =>
        cases right with
        | scalar right =>
          exact ih left List.mem_cons_self (inside left List.mem_cons_self)
            (otherInside right List.mem_cons_self) (tag_inj keys).2
        | composite others => exact absurd (tag_inj keys).1 (by decide)
      | composite components =>
        cases right with
        | scalar right => exact absurd (tag_inj keys).1 (by decide)
        | composite others =>
          rw [Value.cmp, Value.cmpRef, Value.cmpList_eq]
          exact lists (fun _ listed => listed) (fun _ listed => listed) (J.array.inj (tag_inj keys).2)
    | struct left right =>
      have fields : encodeFields libraries left = encodeFields libraries right := J.array.inj (tag_inj same).2
      rw [encodeFields_eq, encodeFields_eq] at fields
      rw [Value.cmp, Value.cmpFields_eq]
      refine Codes.compareLex_of_map_eq (fun field listed other present equal => ?_) fields
      obtain ⟨name, value⟩ := field
      obtain ⟨otherName, otherValue⟩ := other
      obtain ⟨names, values⟩ := List.cons.inj (J.array.inj equal)
      refine Ordering.then_eq_eq.mpr ⟨(compareText_eq_iff _ _).mpr (J.string.inj names), ?_⟩
      exact ih value (List.mem_map_of_mem listed) (inside value (List.mem_map_of_mem listed))
        (otherInside otherValue (List.mem_map_of_mem present)) (List.cons.inj values).1
    | composite left right =>
      rw [Value.cmp, Value.cmpList_eq]
      exact lists (fun _ listed => listed) (fun _ listed => listed) (J.array.inj (tag_inj same).2)
    | set left right =>
      rw [Value.cmp, Value.cmpList_eq]
      exact lists (fun _ listed => listed) (fun _ listed => listed) (J.array.inj (tag_inj same).2)
    | map left right =>
      have entries : encodeEntries libraries left = encodeEntries libraries right := J.array.inj (tag_inj same).2
      rw [encodeEntries_eq, encodeEntries_eq] at entries
      rw [Value.cmp, Value.cmpEntries_eq]
      refine Codes.compareLex_of_map_eq (fun entry listed other present equal => ?_) entries
      obtain ⟨key, value⟩ := entry
      obtain ⟨otherKey, otherValue⟩ := other
      obtain ⟨keys, values⟩ := List.cons.inj (J.array.inj equal)
      have keyIn : key ∈ (Value.map left).children := List.mem_append_left _ (List.mem_map_of_mem listed)
      have valueIn : value ∈ (Value.map left).children := List.mem_append_right _ (List.mem_map_of_mem listed)
      refine Ordering.then_eq_eq.mpr ⟨?_, ?_⟩
      · exact ih key keyIn (inside key keyIn)
          (otherInside otherKey (List.mem_append_left _ (List.mem_map_of_mem present))) keys
      · exact ih value valueIn (inside value valueIn)
          (otherInside otherValue (List.mem_append_right _ (List.mem_map_of_mem present))) (List.cons.inj values).1
    | _ =>
      have empty : ∀ child ∈ ([] : List Value), Durable child := fun _ none => absurd none List.not_mem_nil
      exact cmp_of_decode documented one two (.intro trivial empty) (.intro trivial empty) same

end Columns

section Keys

variable (libraries : Libraries)

/-- The stored form of a key component is the form of its canonical representative. -/
def encodeKey (value : Value) : J :=
  encode libraries (KeyEnc.canonicalKey value)

def encodeKeyWire (key : KeyValue) : J :=
  .array (key.components.map (encodeKey libraries))

def keyFromComponents : List Value → Except Corruption KeyValue
  | [] => .error (.corrupt "a key must have at least one component")
  | first :: rest => .ok ⟨first, rest⟩

def decodeKeyWire : J → Except Corruption KeyValue
  | .array components => do keyFromComponents (← components.mapM (decode libraries))
  | _ => .error (.corrupt "node key_wire is not an array")

variable {libraries}

/-- Two components have one stored form exactly when they are equal. -/
theorem encodeKey_eq_iff (documented : libraries.Documented) {first second : Value} (one : Producible first)
    (two : Producible second) : encodeKey libraries first = encodeKey libraries second ↔ first.cmp second = .eq := by
  have formed := one.wellFormed
  have otherFormed := two.wellFormed
  constructor
  · intro same
    have equal := cmp_of_encode documented (producible_canonicalKey one) (producible_canonicalKey two) same
    rw [KeyEnc.canonicalKey_cmp formed, Value.cmp_swap, KeyEnc.canonicalKey_cmp otherFormed] at equal
    rw [Value.cmp_swap]
    exact equal
  · intro same
    exact encode_congr (canonicalKey_identical formed otherFormed same)

/-- A component reads back as an equal value exactly when it is durable. -/
theorem decode_encodeKey_iff (documented : libraries.Documented) {value : Value} (producible : Producible value) :
    (∃ read, decode libraries (encodeKey libraries value) = .ok read ∧ read.cmp value = .eq) ↔ Durable value := by
  have formed := producible.wellFormed
  have canonical := producible_canonicalKey producible
  rw [← durable_canonicalKey formed]
  constructor
  · rintro ⟨read, decoded, same⟩
    refine (shrinks documented canonical read decoded).2 (Value.nodes_congr ?_).le
    rw [KeyEnc.canonicalKey_cmp formed]
    exact Std.OrientedCmp.eq_symm same
  · intro durable
    obtain ⟨read, decoded, identical⟩ := decode_encode documented canonical durable
    refine ⟨read, decoded, Std.OrientedCmp.eq_symm ?_⟩
    rw [← KeyEnc.canonicalKey_cmp formed]
    exact identical.1

/-- The components of a key are such as the runtime produces. -/
def ProducibleKey (key : KeyValue) : Prop :=
  ∀ component ∈ key.components, Producible component

/-- The components of a key are in the range of the byte codec. -/
def EncodableKey (key : KeyValue) : Prop :=
  ∀ component ∈ key.components, KeyEnc.Encodable component

theorem encodeKeyWire_wellFormed (libraries : Libraries) {key : KeyValue} (producible : ProducibleKey key) :
    (encodeKeyWire libraries key).WellFormed := by
  refine J.wellFormed_array.mpr fun item inside => ?_
  obtain ⟨component, listed, rfl⟩ := List.mem_map.mp inside
  exact encode_wellFormed (producible_canonicalKey (producible component listed)).wellFormed

/-- Two keys have one stored form exactly when they are equal. -/
theorem encodeKeyWire_eq_iff (documented : libraries.Documented) {first second : KeyValue}
    (one : ProducibleKey first) (two : ProducibleKey second) :
    encodeKeyWire libraries first = encodeKeyWire libraries second ↔ first.cmp second = .eq := by
  rw [KeyEnc.cmp_eq_components]
  constructor
  · intro same
    refine Codes.compareLex_of_map_eq (fun component inside other present equal => ?_) (J.array.inj same)
    exact (encodeKey_eq_iff documented (one component inside) (two other present)).mp equal
  · intro same
    refine congrArg J.array (Codes.map_eq_of_forall₂ (Codes.forall₂_mem (Codes.forall₂_of_compareLex same)) ?_)
    rintro component inside other ⟨_, present, equal⟩
    exact (encodeKey_eq_iff documented (one component inside) (two other present)).mpr equal

/-- A key reads back as an equal key exactly when its components are durable. -/
theorem decodeKeyWire_encodeKeyWire_iff (documented : libraries.Documented) {key : KeyValue}
    (producible : ProducibleKey key) :
    (∃ read, decodeKeyWire libraries (encodeKeyWire libraries key) = .ok read ∧ read.cmp key = .eq) ↔
      ∀ component ∈ key.components, Durable component := by
  have decoding : decodeKeyWire libraries (encodeKeyWire libraries key) =
      (key.components.mapM fun component => decode libraries (encodeKey libraries component)) >>=
        keyFromComponents := by
    rw [encodeKeyWire, decodeKeyWire, List.mapM_map]
    rfl
  rw [decoding]
  constructor
  · rintro ⟨read, decoded, same⟩ component inside
    obtain ⟨reads, all, built⟩ := Codes.bind_ok.mp decoded
    have whole : read.components = reads := by
      cases reads with
      | nil => cases built
      | cons first rest => rw [← Except.ok.inj built]; rfl
    rw [KeyEnc.cmp_eq_components, whole] at same
    have both := Codes.forall₂_and (Codes.forall₂_of_mapM all) (Codes.forall₂_of_compareLex same).flip
    obtain ⟨found, _, answered, equal⟩ := Codes.exists_related both inside
    exact (decode_encodeKey_iff documented (producible component inside)).mp ⟨found, answered, equal⟩
  · intro durable
    obtain ⟨reads, all, related⟩ := Codes.exists_mapM_related fun component inside =>
      (decode_encodeKey_iff documented (producible component inside)).mpr (durable component inside)
    obtain ⟨first, rest⟩ := key
    obtain ⟨read, others, equal, following, rfl⟩ := List.forall₂_cons_left_iff.mp related
    refine ⟨⟨read, others⟩, by rw [all]; rfl, Ordering.then_eq_eq.mpr ⟨equal, ?_⟩⟩
    exact Codes.compareLex_of_forall₂ following.flip

/-- The database has one stored form of a key: the form is that of the equal keys alone, as the bytes of the key are,
and it reads back as an equal key. -/
structure Identifies (libraries : Libraries) (key : KeyValue) : Prop where
  wire : ∀ other, ProducibleKey other →
    (toJsonb (encodeKeyWire libraries other) = toJsonb (encodeKeyWire libraries key) ↔ other.cmp key = .eq)
  bytes : EncodableKey key → ∀ other, ProducibleKey other → EncodableKey other →
    (toJsonb (encodeKeyWire libraries other) = toJsonb (encodeKeyWire libraries key) ↔
      KeyEnc.encodeKeyValue other = KeyEnc.encodeKeyValue key)
  readsBack : ∃ read, decodeKeyWire libraries (fromJsonb (toJsonb (encodeKeyWire libraries key))) = .ok read ∧
    read.cmp key = .eq

/-- The stored form of a key identifies it exactly when its components are durable. -/
theorem identifies_iff (documented : libraries.Documented) (key : KeyValue) (producible : ProducibleKey key) :
    Identifies libraries key ↔ ∀ component ∈ key.components, Durable component := by
  have proper := encodeKeyWire_wellFormed libraries producible
  rw [← decodeKeyWire_encodeKeyWire_iff documented producible]
  constructor
  · intro identifies
    obtain ⟨read, decoded, same⟩ := identifies.readsBack
    rw [fromJsonb_toJsonb proper] at decoded
    exact ⟨read, decoded, same⟩
  · rintro ⟨read, decoded, same⟩
    have wire : ∀ other, ProducibleKey other →
        (toJsonb (encodeKeyWire libraries other) = toJsonb (encodeKeyWire libraries key) ↔ other.cmp key = .eq) := by
      intro other produced
      rw [← encodeKeyWire_eq_iff documented produced producible]
      refine ⟨fun stored => ?_, congrArg toJsonb⟩
      rw [← fromJsonb_toJsonb (encodeKeyWire_wellFormed libraries produced), stored, fromJsonb_toJsonb proper]
    refine ⟨wire, fun encodable other produced otherEncodable => ?_, read, ?_, same⟩
    · have bytes := (KeyEnc.encode_order.2 other key
        (fun component inside => ⟨(produced component inside).wellFormed, otherEncodable component inside⟩)
        (fun component inside => ⟨(producible component inside).wellFormed, encodable component inside⟩)).2
      rw [wire other produced, bytes]
    · rw [fromJsonb_toJsonb proper]
      exact decoded

/-- A key of a map and an instant. -/
def sampleKey : KeyValue :=
  ⟨sampleMap, [.timestamp ⟨⟨1000, by decide, by decide⟩, .millis⟩]⟩

theorem sampleKey_identified : Identifies Sample.libraries sampleKey := by
  have fits : Decimal.Fits ⟨150, 2⟩ := by decide +kernel
  have empty : ∀ {property : Value → Prop}, ∀ child ∈ ([] : List Value), property child :=
    fun _ none => absurd none List.not_mem_nil
  refine (identifies_iff Sample.documented sampleKey fun component inside => ?_).mpr fun component inside => ?_
  · rcases List.mem_cons.mp inside with rfl | second
    · exact sampleMap_everywhere (List.pairwise_singleton _ _) trivial trivial
    · rw [List.mem_singleton.mp second]
      exact .intro trivial empty
  · rcases List.mem_cons.mp inside with rfl | second
    · refine sampleMap_everywhere (fun entry inside => ?_) trivial fits
      rw [List.mem_singleton.mp inside]
      rfl
    · rw [List.mem_singleton.mp second]
      exact .intro trivial empty

/-- The product of two decimals that fit is a key that does not read back. -/
theorem smallProduct_unidentified :
    ProducibleKey ⟨.decimal smallProduct, []⟩ ∧ ¬ Identifies Sample.libraries ⟨.decimal smallProduct, []⟩ := by
  have producible : ProducibleKey ⟨.decimal smallProduct, []⟩ := by
    intro component inside
    rw [List.mem_singleton.mp inside]
    exact .intro trivial fun _ none => absurd none List.not_mem_nil
  refine ⟨producible, ?_⟩
  have wide : ¬ Decimal.Fits smallProduct := by decide +kernel
  intro identifies
  obtain ⟨read, decoded, same⟩ := identifies.readsBack
  rw [fromJsonb_toJsonb (encodeKeyWire_wellFormed Sample.libraries producible)] at decoded
  obtain ⟨fits, _⟩ := (decodeKeyWire_encodeKeyWire_iff Sample.documented producible).mp ⟨read, decoded, same⟩
    (.decimal smallProduct) List.mem_cons_self
  exact wide fits

end Keys

end Liasse.Pg.Codec

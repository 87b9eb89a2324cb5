/-
This file models the wire form of a JSON value. A JSON value whose numbers fit is read back from its wire
form, and the wire form depends on the value alone.
-/

import Liasse.Codes.Related
import Liasse.Value.Normal
import Liasse.Wire.Decimal
import Liasse.Wire.Tree

namespace Liasse.Wire

section Numerals

theorem numeral_of_isDigit {char : Char} (digit : char.isDigit = true) : J.numeral char = true := by
  rw [J.numeral, digit, Bool.true_or]

theorem numeral_of_mem_signText {negative : Bool} {char : Char} (inside : char ∈ signText negative) :
    J.numeral char = true := by
  cases negative with
  | false => cases inside
  | true =>
    rw [List.mem_singleton.mp inside]
    rfl

/-- The text of an integer has the characters of a number. -/
theorem numeral_integerText (number : Int) :
    ∀ char ∈ (integerText number).toList, J.numeral char = true := by
  intro char inside
  rw [integerText, String.toList_ofList] at inside
  rcases List.mem_append.mp inside with sign | digit
  · exact numeral_of_mem_signText sign
  · exact numeral_of_isDigit ((toDigits_isDigits _).2 char digit)

/-- The text of a decimal has the characters of a number. -/
theorem numeral_toCanonicalText (value : BigDecimal) :
    ∀ char ∈ (Decimal.toCanonicalText value).toList, J.numeral char = true := by
  obtain ⟨negative, whole, fraction, digits, rest, text, _⟩ := Decimal.toCanonicalText_plain value
  intro char inside
  rw [text, plainText, String.toList_ofList] at inside
  rcases List.mem_append.mp inside with leading | trailing
  · rcases List.mem_append.mp leading with sign | digit
    · exact numeral_of_mem_signText sign
    · exact numeral_of_isDigit (digits.2 char digit)
  · split at trailing
    · cases trailing
    · rcases List.mem_cons.mp trailing with rfl | digit
      · rfl
      · exact numeral_of_isDigit (rest char digit)

end Numerals

namespace Document

mutual

/-- The wire form of a JSON value. -/
def toWire : Json → J
  | .null => .null
  | .bool flag => .bool flag
  | .number number => .number (Decimal.toCanonicalText number)
  | .string text => .string text
  | .array items => .array (toWireItems items)
  | .object members => .object (J.collect (toWireMembers members))
termination_by structural json => json

def toWireItems : List Json → List J
  | [] => []
  | item :: rest => toWire item :: toWireItems rest
termination_by structural items => items

def toWireMembers : List (String × Json) → List (String × J)
  | [] => []
  | member :: rest => toWireMember member :: toWireMembers rest
termination_by structural members => members

def toWireMember : String × Json → String × J
  | (name, json) => (name, toWire json)
termination_by structural member => member

end

mutual

/-- The JSON value of a wire form. A number is a decimal with a bounded scale. -/
def fromWire (libraries : Libraries) : J → Except ValueError Json
  | .null => .ok .null
  | .bool flag => .ok (.bool flag)
  | .number text => (Decimal.parse libraries text).map .number
  | .string text => .ok (.string text)
  | .array items => (fromWireItems libraries items).map .array
  | .object members =>
    (fromWireMembers libraries members).map fun entries =>
      .object (Codes.collectSorted Json.compareName entries)
termination_by structural tree => tree

def fromWireItems (libraries : Libraries) : List J → Except ValueError (List Json)
  | [] => .ok []
  | item :: rest => do
      let first ← fromWire libraries item
      let others ← fromWireItems libraries rest
      pure (first :: others)
termination_by structural items => items

def fromWireMembers (libraries : Libraries) : List (String × J) → Except ValueError (List (String × Json))
  | [] => .ok []
  | member :: rest => do
      let first ← fromWireMember libraries member
      let others ← fromWireMembers libraries rest
      pure (first :: others)
termination_by structural members => members

def fromWireMember (libraries : Libraries) : String × J → Except ValueError (String × Json)
  | (name, tree) => do
      let json ← fromWire libraries tree
      pure (name, json)
termination_by structural member => member

end

/-- A number here fits. -/
def FitsHere : Json → Prop
  | .number number => Decimal.Fits number
  | _ => True

/-- All numbers inside a JSON value fit. -/
def Fits (json : Json) : Prop :=
  json.Everywhere FitsHere

section Lists

variable {libraries : Libraries}

@[simp] theorem toWireItems_eq (items : List Json) : toWireItems items = items.map toWire := by
  induction items with
  | nil => rfl
  | cons item rest ih => rw [toWireItems, ih, List.map_cons]

@[simp] theorem toWireMembers_eq (members : List (String × Json)) :
    toWireMembers members = members.map toWireMember := by
  induction members with
  | nil => rfl
  | cons member rest ih => rw [toWireMembers, ih, List.map_cons]

@[simp] theorem fromWireItems_eq (items : List J) :
    fromWireItems libraries items = items.mapM (fromWire libraries) := by
  induction items with
  | nil => rfl
  | cons item rest ih => rw [fromWireItems, ih, List.mapM_cons]

@[simp] theorem fromWireMembers_eq (members : List (String × J)) :
    fromWireMembers libraries members = members.mapM (fromWireMember libraries) := by
  induction members with
  | nil => rfl
  | cons member rest ih => rw [fromWireMembers, ih, List.mapM_cons]

end Lists

section Reading

variable {libraries : Libraries}

instance : Std.TransCmp Json.compareName := by
  change Std.TransCmp (compareOn fun member : String × Json => textBytes member.1)
  infer_instance

theorem gt_of_lt {first second : String × Json} (below : Json.compareName first second = .lt) :
    Json.compareName second first = .gt := by
  rw [Json.compareName, compareText_swap]
  exact congrArg Ordering.swap below

theorem compareName_eq {first second : String × Json} :
    Json.compareName first second = .eq ↔ first.1 = second.1 :=
  compareText_eq_iff first.1 second.1

theorem compareName_of_cmpMember {first second : String × Json} (same : Json.cmpMember first second = .eq) :
    Json.compareName first second = .eq := by
  obtain ⟨name, json⟩ := first
  obtain ⟨other, another⟩ := second
  exact (Ordering.then_eq_eq.mp same).1

/-- The names of sorted members are different. -/
theorem names_nodup {members : List (String × Json)} (sorted : Codes.Sorted Json.compareName members) :
    (members.map Prod.fst).Nodup := by
  refine List.pairwise_map.mpr (sorted.imp fun {first second} below same => ?_)
  rw [compareName_eq.mpr same] at below
  cases below

theorem names_toWireMember (members : List (String × Json)) :
    (members.map toWireMember).map Prod.fst = members.map Prod.fst := by
  rw [List.map_map]
  refine List.map_congr_left fun member _ => ?_
  obtain ⟨name, json⟩ := member
  rfl

/-- The wire form of an object has the members in their order. -/
theorem toWire_object {members : List (String × Json)} (sorted : Codes.Sorted Json.compareName members) :
    toWire (.object members) = .object (members.map toWireMember) := by
  have named : J.Named (members.map toWireMember) := by
    rw [J.Named, names_toWireMember]
    exact names_nodup sorted
  rw [toWire, toWireMembers_eq, J.collect_named named]

/-- The wire form of a JSON value whose numbers fit reads back as an equal value. -/
theorem fromWire_toWire (documented : libraries.Documented) {json : Json} (formed : json.WellFormed)
    (fits : Fits json) : ∃ read, fromWire libraries (toWire json) = .ok read ∧ json.cmp read = .eq := by
  induction json using Json.induct with
  | step json ih =>
    obtain ⟨sorted, inside⟩ := formed
    obtain ⟨small, below⟩ := fits
    have each : ∀ child ∈ json.children,
        ∃ read, fromWire libraries (toWire child) = .ok read ∧ child.cmp read = .eq :=
      fun child listed => ih child listed (inside child listed) (below child listed)
    cases json with
    | null => exact ⟨.null, rfl, rfl⟩
    | bool flag => exact ⟨.bool flag, rfl, Std.ReflCmp.compare_self⟩
    | string text => exact ⟨.string text, rfl, Std.ReflCmp.compare_self⟩
    | number number =>
      obtain ⟨read, parsed, same⟩ := Decimal.parse_toCanonicalText documented small
      refine ⟨.number read, by rw [toWire, fromWire, parsed]; rfl, ?_⟩
      rw [Json.cmp, BigDecimal.cmp_eq_compare, same]
      exact Std.ReflCmp.compare_self
    | array items =>
      obtain ⟨reads, all, equal⟩ := Codes.exists_mapM_related each
      refine ⟨.array reads, ?_, ?_⟩
      · rw [toWire, fromWire, toWireItems_eq, fromWireItems_eq, List.mapM_map]
        exact congrArg (Except.map Json.array) all
      · rw [Json.cmp, Json.cmpItems_eq]
        exact Codes.compareLex_of_forall₂ equal
    | object members =>
      have named : ∀ member ∈ members, ∃ read,
          fromWireMember libraries (toWireMember member) = .ok read ∧
            Json.cmpMember member read = .eq := by
        intro member listed
        obtain ⟨name, json⟩ := member
        obtain ⟨read, parsed, same⟩ := each json (List.mem_map_of_mem listed)
        refine ⟨(name, read), ?_, Ordering.then_eq_eq.mpr ⟨(compareText_eq_iff _ _).mpr rfl, same⟩⟩
        change (fromWire libraries (toWire json) >>= fun json => pure (name, json)) = _
        rw [parsed]
        rfl
      obtain ⟨reads, all, equal⟩ := Codes.exists_mapM_related named
      have order : Codes.Sorted Json.compareName reads :=
        .of_forall₂ (equal.imp fun _ _ => compareName_of_cmpMember) sorted
      refine ⟨.object reads, ?_, ?_⟩
      · rw [toWire_object sorted, fromWire, fromWireMembers_eq, List.mapM_map]
        refine (congrArg (Except.map _) all).trans ?_
        change Except.ok (Json.object (Codes.collectSorted Json.compareName reads)) = _
        rw [Codes.collectSorted_eq_self (fun first _ second _ => gt_of_lt) order]
      · rw [Json.cmp, Json.cmpMembers_eq]
        exact Codes.compareLex_of_forall₂ equal

/-- The numbers of a JSON value that reads back fit. -/
theorem fits_of_fromWire (documented : libraries.Documented) {json : Json} (formed : json.WellFormed)
    {read : Json} (parsed : fromWire libraries (toWire json) = .ok read) : Fits json := by
  induction json using Json.induct generalizing read with
  | step json ih =>
    obtain ⟨sorted, inside⟩ := formed
    cases json with
    | null => exact .intro trivial fun _ listed => absurd listed List.not_mem_nil
    | bool flag => exact .intro trivial fun _ listed => absurd listed List.not_mem_nil
    | string text => exact .intro trivial fun _ listed => absurd listed List.not_mem_nil
    | number number =>
      refine .intro ?_ fun _ listed => absurd listed List.not_mem_nil
      by_contra wide
      rw [toWire, fromWire, Decimal.parse_wide documented wide] at parsed
      cases parsed
    | array items =>
      refine .intro trivial fun child listed => ?_
      rw [toWire, fromWire, toWireItems_eq, fromWireItems_eq, List.mapM_map] at parsed
      obtain ⟨reads, all, _⟩ := Codes.map_ok.mp parsed
      obtain ⟨result, _, answered⟩ := Codes.exists_of_mapM all listed
      exact ih child listed (inside child listed) answered
    | object members =>
      refine .intro trivial fun child listed => ?_
      rw [toWire_object sorted, fromWire, fromWireMembers_eq, List.mapM_map] at parsed
      obtain ⟨reads, all, _⟩ := Codes.map_ok.mp parsed
      obtain ⟨⟨name, json⟩, present, rfl⟩ := List.mem_map.mp listed
      obtain ⟨result, _, answered⟩ := Codes.exists_of_mapM all present
      obtain ⟨value, valued, _⟩ := Codes.bind_ok.mp answered
      exact ih json listed (inside json listed) valued

/-- A JSON value that was read is well formed, and its numbers fit. -/
theorem of_fromWire {tree : J} {json : Json} (parsed : fromWire libraries tree = .ok json) :
    json.WellFormed ∧ Fits json := by
  induction tree using J.induct generalizing json with
  | step tree ih =>
    have leaf : ∀ {kept : Json}, kept.children = [] → kept.SortedHere → FitsHere kept →
        kept.WellFormed ∧ Fits kept := by
      intro kept empty sorted small
      refine ⟨.intro sorted fun child inside => ?_, .intro small fun child inside => ?_⟩
      · rw [empty] at inside
        cases inside
      · rw [empty] at inside
        cases inside
    cases tree with
    | null => exact Except.ok.inj parsed ▸ leaf rfl trivial trivial
    | bool flag => exact Except.ok.inj parsed ▸ leaf rfl trivial trivial
    | string text => exact Except.ok.inj parsed ▸ leaf rfl trivial trivial
    | number text =>
      obtain ⟨number, read, rfl⟩ := Codes.map_ok.mp parsed
      exact leaf rfl trivial (Decimal.fits_of_parse read)
    | array items =>
      rw [fromWire, fromWireItems_eq] at parsed
      obtain ⟨reads, all, rfl⟩ := Codes.map_ok.mp parsed
      have each : ∀ read ∈ reads, read.WellFormed ∧ Fits read := by
        intro read inside
        obtain ⟨item, listed, answered⟩ := Codes.exists_source_of_mapM all inside
        exact ih item listed answered
      exact ⟨.intro trivial fun child inside => (each child inside).1,
        .intro trivial fun child inside => (each child inside).2⟩
    | object members =>
      rw [fromWire, fromWireMembers_eq] at parsed
      obtain ⟨reads, all, rfl⟩ := Codes.map_ok.mp parsed
      have each : ∀ read ∈ reads, read.2.WellFormed ∧ Fits read.2 := by
        intro read inside
        obtain ⟨⟨name, value⟩, listed, answered⟩ := Codes.exists_source_of_mapM all inside
        obtain ⟨json, valued, last⟩ := Codes.bind_ok.mp answered
        obtain rfl := Except.ok.inj last
        exact ih value (List.mem_map_of_mem listed) valued
      have kept : ∀ member ∈ Codes.collectSorted Json.compareName reads,
          member.2.WellFormed ∧ Fits member.2 := by
        rw [← Codes.collectMerged_last]
        exact Codes.forall_collectMerged (fun _ _ _ added => added) each
      have sorted : Codes.Sorted Json.compareName (Codes.collectSorted Json.compareName reads) := by
        rw [← Codes.collectMerged_last]
        exact Codes.sorted_collectMerged (fun _ _ same => same) reads
      refine ⟨.intro sorted fun child inside => ?_, .intro trivial fun child inside => ?_⟩
      · obtain ⟨member, listed, rfl⟩ := List.mem_map.mp inside
        exact (kept member listed).1
      · obtain ⟨member, listed, rfl⟩ := List.mem_map.mp inside
        exact (kept member listed).2

/-- Equal JSON values have one wire form. -/
theorem toWire_congr {first second : Json} (same : first.cmp second = .eq) :
    toWire first = toWire second := by
  induction first using Json.induct generalizing second with
  | step first ih =>
    rcases Json.sameKind_or_rank first second with kinds | ⟨different, decided⟩
    · cases kinds with
      | null => rfl
      | bool left right =>
        obtain rfl : left = right := Std.LawfulEqOrd.eq_of_compare same
        rfl
      | string left right =>
        obtain rfl := (compareText_eq_iff left right).mp same
        rfl
      | number left right =>
        rw [toWire, toWire, Decimal.toCanonicalText_congr (BigDecimal.cmp_eq_iff.mp same)]
      | array left right =>
        rw [Json.cmp, Json.cmpItems_eq] at same
        rw [toWire, toWire, toWireItems_eq, toWireItems_eq]
        exact congrArg J.array (Codes.map_eq_of_forall₂ (Codes.forall₂_of_compareLex same)
          fun item inside other equal => ih item inside equal)
      | object left right =>
        rw [Json.cmp, Json.cmpMembers_eq] at same
        rw [toWire, toWire, toWireMembers_eq, toWireMembers_eq]
        refine congrArg (fun members => J.object (J.collect members))
          (Codes.map_eq_of_forall₂ (Codes.forall₂_of_compareLex same) fun member inside other equal => ?_)
        obtain ⟨name, json⟩ := member
        obtain ⟨otherName, otherJson⟩ := other
        obtain ⟨names, values⟩ := Ordering.then_eq_eq.mp equal
        rw [toWireMember, toWireMember, (compareText_eq_iff _ _).mp names,
          ih json (List.mem_map_of_mem inside) values]
    · rw [decided] at same
      exact absurd (Std.LawfulEqOrd.eq_of_compare same) different

/-- The wire form of a JSON value is proper. -/
theorem toWire_wellFormed {json : Json} (formed : json.WellFormed) : (toWire json).WellFormed := by
  induction json using Json.induct with
  | step json ih =>
    obtain ⟨sorted, inside⟩ := formed
    have each : ∀ child ∈ json.children, (toWire child).WellFormed := fun child listed =>
      ih child listed (inside child listed)
    cases json with
    | null => exact .intro trivial fun _ listed => absurd listed List.not_mem_nil
    | bool flag => exact .intro trivial fun _ listed => absurd listed List.not_mem_nil
    | string text => exact .intro trivial fun _ listed => absurd listed List.not_mem_nil
    | number number =>
      exact .intro (numeral_toCanonicalText number) fun _ listed => absurd listed List.not_mem_nil
    | array items =>
      refine .intro trivial fun child listed => ?_
      rw [toWire, toWireItems_eq] at listed
      obtain ⟨item, present, rfl⟩ := List.mem_map.mp listed
      exact each item present
    | object members =>
      rw [toWire_object sorted]
      refine .intro ?_ fun child listed => ?_
      · change ((members.map toWireMember).map Prod.fst).Nodup
        rw [names_toWireMember]
        exact names_nodup sorted
      · obtain ⟨member, present, rfl⟩ := List.mem_map.mp listed
        obtain ⟨⟨name, json⟩, found, rfl⟩ := List.mem_map.mp present
        exact each json (List.mem_map_of_mem found)

end Reading

end Document

end Liasse.Wire

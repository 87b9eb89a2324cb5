/-
This file models the guard of a host namespace: the check of a returned value against its declared type, and the checked
invocation.
-/

import Liasse.Wire.RoundTrip

namespace Liasse.Host

open Codes Wire

open Liasse.Runtime (FieldType RefTarget)

section Types

/-- The reason why the structure of a value does not satisfy a type. -/
inductive TypeMismatch
  | variant (expected found : String)
  | enumLabel (label : String) (allowed : List String)
  | refArity (expected found : Nat)
  | missingField (name : String)
  | unexpectedField (name : String)
  | nested (location : String) (reason : TypeMismatch)

/-- The name of the variant of a value in a diagnostic. -/
def variantName : Value → String
  | .text _ => "text"
  | .bool _ => "bool"
  | .int _ => "int"
  | .decimal _ => "decimal"
  | .bytes _ => "bytes"
  | .uuid _ => "uuid"
  | .date _ => "date"
  | .timestamp _ => "timestamp"
  | .duration _ => "duration"
  | .period _ => "period"
  | .json _ => "json"
  | .blob _ => "blob"
  | .enum _ => "enum"
  | .ref _ => "ref"
  | .struct _ => "struct"
  | .composite _ => "composite key"
  | .set _ => "set"
  | .map _ => "map"
  | .none => "none"

def variantMismatch (declared : FieldType) (actual : Value) : TypeMismatch :=
  .variant (typeName declared) (variantName actual)

/-- A discrepancy inside a value names its location. -/
def within (location : String) (checked : Except TypeMismatch Unit) : Except TypeMismatch Unit :=
  checked.mapError (.nested location)

/-- The types without a content of types or labels compare the variant only. -/
def sameVariant : FieldType → Value → Bool
  | .text, .text _ => true
  | .bool, .bool _ => true
  | .int, .int _ => true
  | .decimal, .decimal _ => true
  | .bytes, .bytes _ => true
  | .uuid, .uuid _ => true
  | .date, .date _ => true
  | .timestamp _, .timestamp _ => true
  | .duration, .duration _ => true
  | .period, .period _ => true
  | .json, .json _ => true
  | .blob, .blob _ => true
  | _, _ => false

mutual

/-- The check of the structure of a value against a declared type. -/
def conforms : FieldType → Value → Except TypeMismatch Unit
  | .enum labels, value =>
    match value with
    | .enum actual =>
      if actual.label ∈ labels then .ok ⟨⟩ else .error (.enumLabel actual.label labels)
    | actual => .error (variantMismatch (.enum labels) actual)
  | .optional inner, value =>
    match value with
    | .none => .ok ⟨⟩
    | present => within "optional value" (conforms inner present)
  | .set inner, value =>
    match value with
    | .set members => members.forM fun member => within "set element" (conforms inner member)
    | actual => .error (variantMismatch (.set inner) actual)
  | .map key held, value =>
    match value with
    | .map entries => entries.forM fun entry =>
      within "map key" (conforms key entry.1) >>= fun _ => within "map value" (conforms held entry.2)
    | actual => .error (variantMismatch (.map key held) actual)
  | .ref target, value =>
    match value with
    | .ref key => conformsRef target key
    | actual => .error (variantMismatch (.ref target) actual)
  | .struct declared, value =>
    match value with
    | .struct actual =>
      match actual.find? fun member => !declared.any (·.1 == member.1) with
      | some member => .error (.unexpectedField member.1)
      | none => conformsFields declared actual
    | actual => .error (variantMismatch (.struct declared) actual)
  | .composite components, value =>
    match value with
    | .composite values =>
      if components.length ≠ values.length then .error (.refArity components.length values.length)
      else conformsComponents components "composite key component" values
    | actual => .error (variantMismatch (.composite components) actual)
  | declared, actual => if sameVariant declared actual then .ok ⟨⟩ else .error (variantMismatch declared actual)
termination_by structural type => type

/-- The check of the key of a reference against its target. -/
def conformsRef : RefTarget → RefKey → Except TypeMismatch Unit
  | .scalar inner, .scalar value => within "ref key" (conforms inner value)
  | .composite types, .composite values =>
    if types.length ≠ values.length then .error (.refArity types.length values.length)
    else conformsComponents types "ref key component" values
  | .scalar _, .composite _ => .error (.variant "scalar ref key" "composite ref key")
  | .composite _, .scalar _ => .error (.variant "composite ref key" "scalar ref key")
termination_by structural target => target

def conformsComponents : List (String × FieldType) → String → List Value → Except TypeMismatch Unit
  | component :: rest, location, value :: values =>
    conformsComponent component location value >>= fun _ => conformsComponents rest location values
  | _, _, _ => .ok ⟨⟩
termination_by structural components => components

def conformsComponent : String × FieldType → String → Value → Except TypeMismatch Unit
  | (_, type), location, value => within location (conforms type value)
termination_by structural component => component

def conformsFields : List (String × FieldType) → List (String × Value) → Except TypeMismatch Unit
  | [], _ => .ok ⟨⟩
  | field :: rest, actual => conformsField field actual >>= fun _ => conformsFields rest actual
termination_by structural fields => fields

/-- An optional field can be left out. -/
def conformsField : String × FieldType → List (String × Value) → Except TypeMismatch Unit
  | (name, type), actual =>
    match actual.lookup name with
    | some member => within ("struct field `" ++ name ++ "`") (conforms type member)
    | none => if isOptional type then .ok ⟨⟩ else .error (.missingField name)
termination_by structural field => field

end

end Types

section Standing

variable {libraries : Libraries}

/-- What passes below. -/
def Passes (type : FieldType) (value : Value) : Prop :=
  conforms type value = .ok ⟨⟩

theorem within_ok {location : String} {checked : Except TypeMismatch Unit} :
    within location checked = .ok ⟨⟩ ↔ checked = .ok ⟨⟩ := by
  cases checked with
  | ok => exact ⟨fun _ => rfl, fun _ => rfl⟩
  | error reason =>
    constructor
    · intro same
      cases same
    · intro same
      cases same

theorem passes_none {type : FieldType} (optional : isOptional type = true) : Passes type .none := by
  cases type with
  | optional inner => rfl
  | _ => cases optional

/-- The components of a composite pass when each one does. -/
theorem conformsComponents_ok {components : List (String × FieldType)} {location : String} {values : List Value}
    (arity : components.length = values.length) :
    conformsComponents components location values = .ok ⟨⟩ ↔
      List.Forall₂ (fun component value => SlotHere libraries False Passes component.2 value) components
        values := by
  induction components generalizing values with
  | nil =>
    obtain rfl := List.length_eq_zero_iff.mp arity.symm
    exact ⟨fun _ => .nil, fun _ => rfl⟩
  | cons component rest ih =>
    cases values with
    | nil => cases arity
    | cons value values =>
      obtain ⟨name, type⟩ := component
      rw [conformsComponents, bind_ok, List.forall₂_cons,
        ← ih (Nat.succ.inj arity)]
      have here : conformsComponent (name, type) location value = .ok ⟨⟩ ↔
          SlotHere libraries False Passes type value := by
        refine within_ok.trans ⟨fun passes => .inr ⟨passes, False.elim⟩, ?_⟩
        rintro (⟨optional, rfl⟩ | ⟨passes, _⟩)
        · exact passes_none optional
        · exact passes
      constructor
      · rintro ⟨_, first, others⟩
        exact ⟨here.mp first, others⟩
      · rintro ⟨first, others⟩
        exact ⟨⟨⟩, here.mpr first, others⟩

/-- The composites of one arity pass when each component does. -/
theorem composite_ok {components : List (String × FieldType)} {location : String} {values : List Value} :
    (if components.length ≠ values.length then .error (.refArity components.length values.length)
      else conformsComponents components location values) = .ok ⟨⟩ ↔
      List.Forall₂ (fun component value => SlotHere libraries False Passes component.2 value) components
        values := by
  by_cases arity : components.length = values.length
  · rw [if_neg (not_not.mpr arity)]
    exact conformsComponents_ok arity
  · rw [if_pos arity]
    constructor
    · intro same
      cases same
    · exact fun slots => absurd slots.length_eq arity

theorem conformsFields_ok {fields : List (String × FieldType)} {held : List (String × Value)} :
    conformsFields fields held = .ok ⟨⟩ ↔ ∀ field ∈ fields, conformsField field held = .ok ⟨⟩ := by
  have whole : conformsFields fields held = fields.forM fun field => conformsField field held := by
    induction fields with
    | nil => rfl
    | cons field rest ih =>
      rw [conformsFields, ih]
      rfl
  rw [whole, forM_ok]

/-- A declared field passes when its member does, or when it is optional and left out. -/
theorem conformsField_ok {held : List (String × Value)} (names : (held.map Prod.fst).Nodup)
    {field : String × FieldType} : conformsField field held = .ok ⟨⟩ ↔ FieldHere False Passes held field := by
  obtain ⟨name, type⟩ := field
  rw [conformsField]
  cases found : held.lookup name with
  | none =>
    have absent : ∀ other ∈ held, other.1 ≠ name := by
      intro other inside same
      have missing := List.lookup_eq_none_iff.mp found other inside
      rw [same] at missing
      exact bne_iff_ne.mp missing rfl
    constructor
    · intro passes
      by_cases optional : isOptional type = true
      · exact .inr ⟨id, optional, absent⟩
      · rw [if_neg optional] at passes
        cases passes
    · rintro (⟨other, inside, same, _⟩ | ⟨_, optional, _⟩)
      · exact absurd same (absent other inside)
      · exact if_pos optional
  | some member =>
    have inside : (name, member) ∈ held := by
      obtain ⟨before, after, rfl, _⟩ := List.lookup_eq_some_iff.mp found
      exact List.mem_append_right _ List.mem_cons_self
    refine within_ok.trans ⟨fun passes => .inl ⟨_, inside, rfl, .inr passes⟩, ?_⟩
    rintro (⟨other, present, same, kept⟩ | ⟨_, _, absent⟩)
    · obtain rfl : other = (name, member) := List.inj_on_of_nodup_map names present inside same
      rcases kept with ⟨optional, rfl⟩ | passes
      · exact passes_none optional
      · exact passes
    · exact absurd rfl (absent _ inside)

/-- No member is unexpected when each one is declared. -/
theorem undeclared_eq_none {fields : List (String × FieldType)} {held : List (String × Value)} :
    (held.find? fun member => !fields.any (·.1 == member.1)) = none ↔
      ∀ found ∈ held, ∃ field ∈ fields, field.1 = found.1 := by
  rw [List.find?_eq_none]
  refine forall₂_congr fun found _ => ?_
  simp

/-- The names of sorted fields are different. -/
theorem nodup_of_sorted {held : List (String × Value)} (order : Sorted Value.compareName held) :
    (held.map Prod.fst).Nodup := by
  refine List.pairwise_map.mpr (order.imp fun {first second} below same => ?_)
  rw [Value.compareName, (compareText_eq_iff _ _).mpr same] at below
  cases below

/-- A value passes when it stands at its type up to the values that it holds, and these pass. -/
theorem passes_iff {type : FieldType} {value : Value} (order : value.SortedHere) :
    Passes type value ↔ StandsHere libraries False Passes type value := by
  have leaf {declared : FieldType}
      (whole : conforms declared value =
        if sameVariant declared value then .ok ⟨⟩ else .error (variantMismatch declared value)) :
      Passes declared value ↔ sameVariant declared value = true := by
    rw [Passes, whole]
    by_cases same : sameVariant declared value = true
    · rw [if_pos same]
      exact ⟨fun _ => same, fun _ => rfl⟩
    · rw [if_neg same]
      refine ⟨fun wrong => ?_, fun wrong => absurd wrong same⟩
      cases wrong
  cases type with
  | text | bool | int | bytes | uuid | blob =>
    rw [leaf rfl]
    constructor
    · intro same
      cases value <;> first
        | exact ⟨_, rfl⟩
        | cases same
    · rintro ⟨_, rfl⟩
      rfl
  | decimal | date | timestamp | duration | period | json =>
    rw [leaf rfl]
    constructor
    · intro same
      cases value <;> first
        | exact ⟨_, rfl, False.elim⟩
        | cases same
    · rintro ⟨_, rfl, _⟩
      rfl
  | enum labels =>
    constructor
    · intro passes
      cases value with
      | enum actual =>
        by_cases declared : actual.label ∈ labels
        · exact ⟨actual, rfl, declared, False.elim⟩
        · have wrong : Except.error _ = _ := (if_neg declared).symm.trans passes
          cases wrong
      | _ => cases passes
    · rintro ⟨actual, rfl, declared, _⟩
      exact if_pos declared
  | optional inner =>
    by_cases absent : value = .none
    · subst absent
      exact ⟨fun _ => .inl ⟨rfl, False.elim⟩, fun _ => rfl⟩
    · have present : value.present = true := by
        cases value with
        | none => exact absurd rfl absent
        | _ => rfl
      have inside : conforms (.optional inner) value = within "optional value" (conforms inner value) := by
        cases value with
        | none => exact absurd rfl absent
        | _ => rfl
      rw [Passes, inside, within_ok]
      constructor
      · exact fun passes => .inr ⟨present, passes, False.elim⟩
      · rintro (⟨wrong, _⟩ | ⟨_, passes, _⟩)
        · exact absurd wrong absent
        · exact passes
  | set inner =>
    constructor
    · intro passes
      cases value with
      | set members =>
        refine ⟨members, rfl, fun member inside => ⟨?_, False.elim⟩⟩
        exact within_ok.mp (forM_ok.mp passes member inside)
      | _ => cases passes
    · rintro ⟨members, rfl, all⟩
      exact forM_ok.mpr fun member inside => within_ok.mpr (all member inside).1
  | map key held =>
    constructor
    · intro passes
      cases value with
      | map entries =>
        refine ⟨entries, rfl, fun entry inside => ?_⟩
        obtain ⟨_, first, second⟩ := bind_ok.mp (forM_ok.mp passes entry inside)
        exact ⟨within_ok.mp first, within_ok.mp second, False.elim⟩
      | _ => cases passes
    · rintro ⟨entries, rfl, all⟩
      refine forM_ok.mpr fun entry inside => ?_
      obtain ⟨first, second, _⟩ := all entry inside
      exact bind_ok.mpr ⟨⟨⟩, within_ok.mpr first, within_ok.mpr second⟩
  | ref target =>
    cases target with
    | scalar inner =>
      constructor
      · intro passes
        cases value with
        | ref key =>
          cases key with
          | scalar key => exact ⟨key, rfl, within_ok.mp passes⟩
          | composite keys => cases passes
        | _ => cases passes
      · rintro ⟨key, rfl, passes⟩
        exact within_ok.mpr passes
    | composite components =>
      constructor
      · intro passes
        cases value with
        | ref key =>
          cases key with
          | scalar key => cases passes
          | composite keys => exact ⟨keys, rfl, composite_ok.mp passes⟩
        | _ => cases passes
      · rintro ⟨keys, rfl, slots⟩
        exact composite_ok.mpr slots
  | struct fields =>
    constructor
    · intro passes
      cases value with
      | struct held =>
        cases undeclared : held.find? fun member => !fields.any (·.1 == member.1) with
        | some member =>
          rw [Passes, conforms, undeclared] at passes
          cases passes
        | none =>
          rw [Passes, conforms, undeclared] at passes
          exact ⟨held, rfl, undeclared_eq_none.mp undeclared, fun field listed =>
            (conformsField_ok (nodup_of_sorted order)).mp (conformsFields_ok.mp passes field listed)⟩
      | _ => cases passes
    · rintro ⟨held, rfl, declared, all⟩
      rw [Passes, conforms, undeclared_eq_none.mpr declared]
      exact conformsFields_ok.mpr fun field listed =>
        (conformsField_ok (nodup_of_sorted order)).mpr (all field listed)
  | composite components =>
    constructor
    · intro passes
      cases value with
      | composite keys => exact ⟨keys, rfl, composite_ok.mp passes⟩
      | _ => cases passes
    · rintro ⟨keys, rfl, slots⟩
      exact composite_ok.mpr slots
  | view =>
    rw [leaf rfl]
    refine ⟨fun wrong => ?_, False.elim⟩
    cases value <;> cases wrong

/-- A value passes when it stands at its type. -/
theorem passes_iff_stands {type : FieldType} {value : Value} (order : value.WellFormed) :
    Passes type value ↔ Stands libraries False type value := by
  induction type using FieldType.induct generalizing value with
  | step type ih =>
    have orderHere : value.SortedHere := by
      obtain ⟨here, _⟩ := order
      exact here
    constructor
    · intro passes
      refine .intro (Stands libraries False) ((passes_iff orderHere).mp passes |>.imp id ?_) fun _ _ => id
      intro child listed held inside
      exact (ih child listed (wellFormed_below order inside)).mp
    · intro stands
      have here : Passes type value ↔ StandsHere libraries False Passes type value := passes_iff orderHere
      refine here.mpr (stands.here.imp id ?_)
      intro child listed held inside
      exact (ih child listed (wellFormed_below order inside)).mpr

end Standing

section Guard

/-- Where a function of a namespace can run. -/
inductive EffectClass
  | pure
  | verifier
  | generated
deriving DecidableEq

/-- The pinned signature of a function and its effect class. -/
structure FunctionDescriptor where
  params : List FieldType
  result : FieldType
  effect : EffectClass

/-- A failure that honours the contract. -/
inductive InvocationFailure
  | unknownFunction (name : String)
  | arity (function : String) (expected found : Nat)
  | argument (function : String) (position : Nat) (expected : FieldType) (found : String)
  | verification (detail : String)
  | unavailable (detail : String)

/-- A registered namespace declares its functions and answers invocations. -/
structure HostNamespace where
  function : String → Option FunctionDescriptor
  invoke : String → List Value → Except InvocationFailure Value

/-- A way in which a namespace breaks its contract. -/
inductive ConformanceViolation
  | undeclaredFunction (function : String)
  | offContractType (function : String) (declared : FieldType) (returned : String) (reason : TypeMismatch)
  | pureDrift (function first second : String)

inductive GuardError
  | invocation (failure : InvocationFailure)
  | violation (violation : ConformanceViolation)

/-- The guard remembers the results of the pure functions. -/
structure ConformanceGuard where
  memo : List ((String × List Value) × Value)

/-- The result of the arguments that a pure function had before. -/
def ConformanceGuard.recall (guard : ConformanceGuard) (function : String) (args : List Value) : Option Value :=
  (guard.memo.find? fun entry => entry.1.1 = function && entry.1.2 == args).map Prod.snd

/-- The checked invocation of a function. The value must conform, and a pure function must not drift. -/
def ConformanceGuard.invoke (libraries : Libraries) (guard : ConformanceGuard) (host : HostNamespace)
    (function : String) (args : List Value) : Except GuardError Value × ConformanceGuard :=
  match host.function function with
  | none => (.error (.violation (.undeclaredFunction function)), guard)
  | some declared =>
    match host.invoke function args with
    | .error failure => (.error (.invocation failure), guard)
    | .ok returned =>
      match conforms declared.result returned with
      | .error reason =>
        (.error (.violation
          (.offContractType function declared.result (toWire libraries returned).toText reason)), guard)
      | .ok _ =>
        if declared.effect = .pure then
          match guard.recall function args with
          | some previous =>
            if previous != returned then
              (.error (.violation (.pureDrift function (toWire libraries previous).toText
                (toWire libraries returned).toText)), guard)
            else (.ok returned, guard)
          | none => (.ok returned, ⟨((function, args), returned) :: guard.memo⟩)
        else (.ok returned, guard)

variable {libraries : Libraries}

/-- A value that the guard lets through conforms to the declared result. -/
theorem ConformanceGuard.invoke_ok {guard : ConformanceGuard} {host : HostNamespace} {function : String}
    {args : List Value} {returned : Value}
    (done : (guard.invoke libraries host function args).1 = .ok returned) :
    ∃ declared, host.function function = some declared ∧ Passes declared.result returned := by
  rw [invoke] at done
  cases known : host.function function with
  | none =>
    rw [known] at done
    cases done
  | some declared =>
    rw [known] at done
    cases answered : host.invoke function args with
    | error failure =>
      rw [answered] at done
      cases done
    | ok value =>
      rw [answered] at done
      cases checked : conforms declared.result value with
      | error reason =>
        simp only [checked] at done
        cases done
      | ok =>
        obtain rfl : value = returned := by
          simp only [checked] at done
          split at done
          · split at done
            · split at done
              · cases done
              · exact Except.ok.inj done
            · exact Except.ok.inj done
          · exact Except.ok.inj done
        exact ⟨declared, rfl, checked⟩

/-- A value passes exactly when it stands at its type. It returns from its wire form as an identical value exactly
when it also stands exactly, and then it passes. A guarded namespace answers values that pass. -/
theorem conforms_iff_stands (documented : libraries.Documented) {type : FieldType} (formed : type.WellFormed)
    {value : Value} (order : value.WellFormed) :
    (conforms type value = .ok ⟨⟩ ↔ Stands libraries False type value) ∧
      ((∃ read, decodeAs libraries .wire type (toWire libraries value) = .ok read ∧ value.Identical read) ↔
        Stands libraries True type value) ∧
      (Stands libraries True type value → conforms type value = .ok ⟨⟩) ∧
      ∀ (guard : ConformanceGuard) (host : HostNamespace) function args declared,
        host.function function = some declared → declared.result = type →
          (guard.invoke libraries host function args).1 = .ok value → conforms type value = .ok ⟨⟩ := by
  have passes : conforms type value = .ok ⟨⟩ ↔ Stands libraries False type value := passes_iff_stands order
  refine ⟨passes, reads_iff_stands documented formed order, fun exact => ?_, ?_⟩
  · exact passes.mpr (exact.weaken False.elim)
  · rintro guard host function args declared known rfl done
    obtain ⟨found, same, checked⟩ := ConformanceGuard.invoke_ok done
    obtain rfl := Option.some.inj (known.symm.trans same)
    exact checked

/-- A set of the labels of an enumeration. -/
def labelSet : FieldType :=
  .set (.enum ["high", "low"])

def bothLabels : Value :=
  .set [.enum ⟨0, "high"⟩, .enum ⟨1, "low"⟩]

/-- The labels at their declared positions stand exactly. -/
theorem bothLabels_stands :
    Stands Sample.libraries False labelSet bothLabels ∧ Stands Sample.libraries True labelSet bothLabels := by
  have formed : labelSet.WellFormed := by
    refine .intro trivial fun child inside => ?_
    rw [List.mem_singleton.mp inside]
    exact .intro trivial fun _ none => absurd none List.not_mem_nil
  have order : bothLabels.WellFormed := by
    refine .intro (List.pairwise_pair.mpr rfl) fun child inside => ?_
    change child ∈ [Value.enum ⟨0, "high"⟩, .enum ⟨1, "low"⟩] at inside
    simp only [List.mem_cons, List.not_mem_nil, or_false] at inside
    rcases inside with rfl | rfl
    · exact .intro trivial fun _ none => absurd none List.not_mem_nil
    · exact .intro trivial fun _ none => absurd none List.not_mem_nil
  obtain ⟨passes, reads, _⟩ := conforms_iff_stands Sample.documented formed order
  exact ⟨passes.mp rfl, reads.mp ⟨bothLabels, rfl, .refl _⟩⟩

/-- An instant in milliseconds. -/
def millisecondInstant : Value :=
  .timestamp ⟨⟨1500, by decide, by decide⟩, .millis⟩

/-- An instant in milliseconds conforms to a timestamp in seconds, and its wire form is another instant there. -/
theorem millisecondInstant_changes :
    conforms (.timestamp .seconds) millisecondInstant = .ok ⟨⟩ ∧
      ¬∃ read, decodeAs Sample.libraries .wire (.timestamp .seconds) (toWire Sample.libraries millisecondInstant) =
        .ok read ∧ millisecondInstant.Identical read := by
  refine ⟨rfl, fun reads => ?_⟩
  have formed : (FieldType.timestamp .seconds).WellFormed :=
    .intro trivial fun _ none => absurd none List.not_mem_nil
  have order : millisecondInstant.WellFormed := .intro trivial fun _ none => absurd none List.not_mem_nil
  obtain ⟨stamp, same, precision⟩ := ((reads_iff_stands Sample.documented formed order).mp reads).here
  cases same
  cases precision trivial

end Guard

end Liasse.Host

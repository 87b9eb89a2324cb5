/-
This file models the validation of the rows that an admission touched.
-/

import Liasse.Runtime.State

namespace Liasse.Runtime

open Codes Store

section Checks

/-- A candidate key of a row is not the key of another row of its collection below its parent. -/
def checkUniqueness (rows : Rows) (collection : CompiledCollection) (fields : FieldMap) (address : RowAddress) :
    Except Rejection Unit :=
  collection.unique.forM fun group =>
    match tupleOf group fields with
    | none => .ok ()
    | some tuple =>
      ((Prospective.addressesIn rows address.collection).filter (· ≠ address)).forM fun other =>
        match rows[other]? with
        | none => .ok ()
        | some otherFields =>
          if tupleOf group otherFields = some tuple then
            .error ((Rejection.new .uniqueness
              ("uniqueness constraint on (" ++ ", ".intercalate group ++ ") is violated")).at (.row address))
          else .ok ()

/-- The checks of a row besides its references and candidate keys: its key, its fields and its conditions come before
these, and the interval of its bucket comes after. -/
structure RowChecks where
  before : Rows → RowAddress → CompiledCollection → FieldMap → Except Rejection Unit
  after : Rows → RowAddress → CompiledCollection → FieldMap → Except Rejection Unit

/-- The validation of the touched rows of the final state. A row that is gone or not declared has no check. -/
def finalize (checks : RowChecks) (compiled : Compiled) (rows : Rows) (touched : List RowAddress) :
    Except Rejection Unit :=
  touched.forM fun address =>
    match rows[address]?, compiled.collectionAt address.declaration with
    | some fields, some collection => do
      checks.before rows address collection fields
      checkRefs compiled rows collection fields address
      checkUniqueness rows collection fields address
      checks.after rows address collection fields
    | _, _ => .ok ()

variable {compiled : Compiled} {rows : Rows} {collection : CompiledCollection} {fields : FieldMap}
  {address : RowAddress}

/-- A sibling with a candidate key of a row that passed its check is the row. -/
theorem eq_of_checkUniqueness (passed : checkUniqueness rows collection fields address = .ok ())
    {group : List String} {tuple : List ValueClass} {other : RowAddress} {otherFields : FieldMap}
    (inside : group ∈ collection.unique) (mine : tupleOf group fields = some tuple)
    (live : rows[other]? = some otherFields) (sibling : other.collection = address.collection)
    (same : tupleOf group otherFields = some tuple) : other = address := by
  by_contra different
  have checked := forM_ok.mp passed group inside
  simp only [mine] at checked
  have present : other ∈ rows := Std.ExtTreeMap.mem_iff_isSome_getElem?.mpr (live ▸ rfl)
  have listed : other ∈ (Prospective.addressesIn rows address.collection).filter (· ≠ address) := by
    rw [List.mem_filter, Prospective.addressesIn, List.mem_filter, Std.ExtTreeMap.mem_keys]
    exact ⟨⟨present, decide_eq_true sibling⟩, decide_eq_true different⟩
  have verdict := forM_ok.mp checked other listed
  simp only [live, if_pos same] at verdict
  cases verdict

theorem checks_of_finalize {checks : RowChecks} {touched : List RowAddress}
    (passed : finalize checks compiled rows touched = .ok ()) (mine : address ∈ touched)
    (live : rows[address]? = some fields) (declared : compiled.collectionAt address.declaration = some collection) :
    checkRefs compiled rows collection fields address = .ok () ∧
      checkUniqueness rows collection fields address = .ok () := by
  have each := forM_ok.mp passed address mine
  simp only [live, declared] at each
  obtain ⟨_, _, each⟩ := bind_ok.mp each
  obtain ⟨_, refs, each⟩ := bind_ok.mp each
  obtain ⟨_, unique, _⟩ := bind_ok.mp each
  exact ⟨refs, unique⟩

end Checks

section Admissions

/-- An admission changes only rows that it touches, and no row that it does not touch refers to a row that it removes. -/
structure Admission (compiled : Compiled) (before after : Rows) (touched : List RowAddress) : Prop where
  frame : ∀ address ∉ touched, ∀ fields, after[address]? = some fields → before[address]? = some fields
  severed : ∀ removed ∈ before, removed ∉ after → ∀ address ∉ touched, ∀ target key,
    Holds compiled after address target key → named compiled target key removed = false

variable {checks : RowChecks} {compiled : Compiled} {before after : Rows} {touched : List RowAddress}

theorem Admission.resolves (admission : Admission compiled before after touched)
    (passed : finalize checks compiled after touched = .ok ()) (resolves : RefsResolve compiled before) :
    RefsResolve compiled after := by
  rintro address target key ⟨fields, collection, live, declared, site, inside, held⟩
  by_cases mine : address ∈ touched
  · exact resolves_of_checkRefs (checks_of_finalize passed mine live declared).1 inside held
  · -- The row of an untouched reference was named before, and it is not removed.
    have earlier := admission.frame address mine fields live
    obtain ⟨row, present, names⟩ := resolves address target key
      ⟨fields, collection, earlier, declared, site, inside, held⟩
    by_cases still : row ∈ after
    · exact ⟨row, still, names⟩
    · have severed := admission.severed row present still address mine target key
        ⟨fields, collection, live, declared, site, inside, held⟩
      exact absurd (names.symm.trans severed) (by decide)

theorem Admission.unique (admission : Admission compiled before after touched)
    (passed : finalize checks compiled after touched = .ok ()) (unique : Unique compiled before) :
    Unique compiled after := by
  intro first second left right collection group tuple firstLive secondLive sibling declared inside leftKey rightKey
  by_cases mine : first ∈ touched
  · have checked := (checks_of_finalize passed mine firstLive declared).2
    exact (eq_of_checkUniqueness checked inside leftKey secondLive sibling.symm rightKey).symm
  · by_cases other : second ∈ touched
    · have alike : second.declaration = first.declaration := by
        rw [← CollectionPath.declaration_collection, ← CollectionPath.declaration_collection, sibling]
      have checked := (checks_of_finalize passed other secondLive (alike ▸ declared)).2
      exact eq_of_checkUniqueness checked inside rightKey firstLive sibling leftKey
    · exact unique first second left right collection group tuple (admission.frame first mine left firstLive)
        (admission.frame second other right secondLive) sibling declared inside leftKey rightKey

/-- A run of admissions, each with its touched rows validated. -/
inductive Admitted (checks : RowChecks) (compiled : Compiled) : Rows → Rows → Prop
  | refl (rows : Rows) : Admitted checks compiled rows rows
  | step {first before after : Rows} {touched : List RowAddress} (earlier : Admitted checks compiled first before)
      (admission : Admission compiled before after touched)
      (passed : finalize checks compiled after touched = .ok ()) : Admitted checks compiled first after

end Admissions

section Sample

def member : RowAddress :=
  ⟨⟨"members", .composite (.bool true) []⟩, []⟩

end Sample

end Liasse.Runtime

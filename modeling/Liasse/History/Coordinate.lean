/-
This file proves that the merge of two histories is the three-way merge of each coordinate. A
coordinate is a field name at an address.
-/

import Liasse.History.Merge

namespace Liasse.History

open Store Liasse.Runtime Codes

/-- A state at a coordinate shows whether the row is live and what its field holds. -/
def observe (rows : Rows) (coordinate : RowAddress × String) : Option (Option Value) :=
  rows[coordinate.1]?.map fun fields => fields[coordinate.2]?

/-- Two states are equal when they are equal at each coordinate. -/
def SameRows (first second : Rows) : Prop :=
  ∀ coordinate, (observe first coordinate == observe second coordinate) = true

/-- Optional values are equal when their classes are. -/
theorem beq_iff_class {first second : Option Value} :
    (first == second) = true ↔ first.map ValueClass.of = second.map ValueClass.of := by
  cases first with
  | none =>
    cases second with
    | none => exact ⟨fun _ => rfl, fun _ => rfl⟩
    | some => constructor <;> (intro same; cases same)
  | some first =>
    cases second with
    | none => constructor <;> (intro same; cases same)
    | some second =>
      rw [Option.map_some, Option.map_some, Option.some.injEq, ValueClass.of_eq_iff]
      change (first.cmp second == .eq) = true ↔ _
      exact beq_iff_eq

/-- Rows have equal fields when each field is equal. -/
theorem sameFields_iff {first second : FieldMap} :
    sameFields first second = true ↔ ∀ name : String, (first[name]? == second[name]?) = true := by
  rw [sameFields, beq_iff_eq]
  constructor
  · intro same name
    have classes := congrArg (fun fields : Std.ExtTreeMap String ValueClass compareText => fields[name]?) same
    simp only [Std.ExtTreeMap.getElem?_map] at classes
    exact beq_iff_class.mpr classes
  · intro same
    apply Std.ExtTreeMap.ext_getElem?
    intro name
    rw [Std.ExtTreeMap.getElem?_map, Std.ExtTreeMap.getElem?_map]
    exact beq_iff_class.mp (same name)

theorem SameRows.symm {first second : Rows} (same : SameRows first second) : SameRows second first :=
  fun coordinate => BEq.symm (same coordinate)

namespace ThreeWayMerge

variable (merge : ThreeWayMerge)

/-- The merge of the three states at a coordinate. -/
def combined (coordinate : RowAddress × String) : Option (Option (Option Value)) :=
  mergeValue (observe merge.base coordinate) (observe merge.localRows coordinate)
    (observe merge.incoming coordinate)

section Fields

variable (address : RowAddress) (base ours theirs : FieldMap)

/-- The conflict of one field of a row that all three states have. -/
def fieldConflict (name : String) : Option MergeConflict :=
  match mergeField base[name]? ours[name]? theirs[name]? with
  | some _ => none
  | none => some ⟨merge.coordinate address (some name), .incompatibleValue⟩

/-- The conflicts of a row that all three states have. -/
def fieldConflicts : List MergeConflict :=
  (fieldNames base ours theirs).filterMap (merge.fieldConflict address base ours theirs)

/-- The fields of a row that all three states have. -/
def mergedFields : FieldMap :=
  (merge.mergeNames address base ours theirs (fieldNames base ours theirs) (∅, [])).1

theorem mergeNames_conflicts (names : List String) (row : FieldMap) (conflicts : List MergeConflict) :
    (merge.mergeNames address base ours theirs names (row, conflicts)).2 =
      conflicts ++ names.filterMap (merge.fieldConflict address base ours theirs) := by
  induction names generalizing row conflicts with
  | nil => rw [mergeNames, List.filterMap_nil, List.append_nil]
  | cons name rest ih =>
    rw [mergeNames]
    cases found : mergeField base[name]? ours[name]? theirs[name]? with
    | none =>
      rw [ih, List.filterMap_cons_some (by rw [fieldConflict, found]), List.append_assoc]
      rfl
    | some value =>
      rw [List.filterMap_cons_none (by rw [fieldConflict, found])]
      cases value with
      | none => exact ih row conflicts
      | some value => exact ih (row.insert name value) conflicts

theorem mem_fieldNames {name : String} :
    name ∈ fieldNames base ours theirs ↔ name ∈ base ∨ name ∈ ours ∨ name ∈ theirs := by
  rw [fieldNames, mem_ofList_toList, List.mem_append, List.mem_append, Std.ExtTreeMap.mem_keys,
    Std.ExtTreeMap.mem_keys, Std.ExtTreeMap.mem_keys, or_assoc]

/-- A field that no state has merges to no field. -/
theorem mergeField_absent {name : String} (absent : name ∉ fieldNames base ours theirs) :
    mergeField base[name]? ours[name]? theirs[name]? = some none := by
  rw [mem_fieldNames, not_or, not_or] at absent
  obtain ⟨noBase, noOurs, noTheirs⟩ := absent
  rw [Std.ExtTreeMap.getElem?_eq_none noBase, Std.ExtTreeMap.getElem?_eq_none noOurs,
    Std.ExtTreeMap.getElem?_eq_none noTheirs]
  rfl

end Fields

section Rows

/-- The merged row of an address. -/
def rowResult (address : RowAddress) : Option FieldMap :=
  match merge.base[address]?, merge.localRows[address]?, merge.incoming[address]? with
  | some base, some ours, some theirs =>
    if sameFields ours theirs then some ours
    else if merge.fieldConflicts address base ours theirs = [] then
      some (merge.mergedFields address base ours theirs)
    else none
  | none, some ours, some theirs => if sameFields ours theirs then some ours else none
  | none, some ours, none => some ours
  | none, none, some theirs => some theirs
  | _, _, _ => none

/-- The conflicts of an address. -/
def rowConflicts (address : RowAddress) : List MergeConflict :=
  match merge.base[address]?, merge.localRows[address]?, merge.incoming[address]? with
  | some base, some ours, some theirs =>
    if sameFields ours theirs then [] else merge.fieldConflicts address base ours theirs
  | none, some ours, some theirs =>
    if sameFields ours theirs then [] else [⟨merge.coordinate address none, .competingInsert⟩]
  | some base, some ours, none =>
    if sameFields ours base then [] else [⟨merge.coordinate address none, .deleteVsModify⟩]
  | some base, none, some theirs =>
    if sameFields theirs base then [] else [⟨merge.coordinate address none, .deleteVsModify⟩]
  | _, _, _ => []

/-- The rows with an optional row at an address. -/
def withRow (rows : Rows) (address : RowAddress) : Option FieldMap → Rows
  | some fields => rows.insert address fields
  | none => rows

theorem mergeNames_start (address : RowAddress) (base ours theirs : FieldMap) (names : List String)
    (row : FieldMap) (conflicts : List MergeConflict) :
    (merge.mergeNames address base ours theirs names (row, conflicts)).1 =
      (merge.mergeNames address base ours theirs names (row, [])).1 := by
  induction names generalizing row conflicts with
  | nil => rfl
  | cons name rest ih =>
    rw [mergeNames, mergeNames]
    cases mergeField base[name]? ours[name]? theirs[name]? with
    | none =>
      simp only
      rw [ih row, ih row ([] ++ _)]
    | some value =>
      cases value with
      | none => exact ih row conflicts
      | some value => exact ih _ conflicts

/-- The step of one address adds its merged row and its conflicts. -/
theorem resolveRow_eq (outcome : MergeOutcome) (address : RowAddress) :
    merge.resolveRow outcome address =
      ⟨withRow outcome.merged address (merge.rowResult address),
        outcome.conflicts ++ merge.rowConflicts address⟩ := by
  rw [resolveRow, rowResult, rowConflicts]
  cases merge.base[address]? with
  | none =>
    cases merge.localRows[address]? with
    | none =>
      cases merge.incoming[address]? with
      | none => simp only [withRow, List.append_nil]
      | some theirs => simp only [withRow, List.append_nil]
    | some ours =>
      cases merge.incoming[address]? with
      | none => simp only [withRow, List.append_nil]
      | some theirs =>
        by_cases same : sameFields ours theirs = true
        · simp only [if_pos same, withRow, List.append_nil]
        · simp only [if_neg same, withRow]
  | some base =>
    cases merge.localRows[address]? with
    | none =>
      cases merge.incoming[address]? with
      | none => simp only [withRow, List.append_nil]
      | some theirs =>
        by_cases same : sameFields theirs base = true
        · simp only [if_pos same, withRow, List.append_nil]
        · simp only [if_neg same, withRow]
    | some ours =>
      cases merge.incoming[address]? with
      | none =>
        by_cases same : sameFields ours base = true
        · simp only [if_pos same, withRow, List.append_nil]
        · simp only [if_neg same, withRow]
      | some theirs =>
        by_cases same : sameFields ours theirs = true
        · simp only [if_pos same, withRow, List.append_nil]
        · simp only [if_neg same, mergeFields]
          rw [mergeNames_conflicts, mergeNames_start, ← fieldConflicts, ← mergedFields]
          by_cases clean : merge.fieldConflicts address base ours theirs = []
          · rw [if_pos clean, clean, List.append_nil, if_pos rfl]
            rfl
          · rw [if_neg clean, if_neg]
            · rfl
            · rw [List.length_append]
              have := List.length_pos_iff.mpr clean
              omega

theorem foldl_conflicts (addresses : List RowAddress) (outcome : MergeOutcome) :
    (addresses.foldl merge.resolveRow outcome).conflicts =
      outcome.conflicts ++ addresses.flatMap merge.rowConflicts := by
  induction addresses generalizing outcome with
  | nil => rw [List.foldl_nil, List.flatMap_nil, List.append_nil]
  | cons address rest ih =>
    rw [List.foldl_cons, ih, resolveRow_eq, List.flatMap_cons, List.append_assoc]

theorem mem_addresses {address : RowAddress} : address ∈ merge.addresses ↔
    address ∈ merge.base ∨ address ∈ merge.localRows ∨ address ∈ merge.incoming := by
  rw [addresses, mem_ofList_toList, List.mem_append, List.mem_append, Std.ExtTreeMap.mem_keys,
    Std.ExtTreeMap.mem_keys, Std.ExtTreeMap.mem_keys, or_assoc]

/-- The conflicts of the merge are those of each address and the repeated candidate keys. -/
theorem resolve_conflicts : merge.resolve.conflicts =
    merge.addresses.flatMap merge.rowConflicts ++ merge.uniquenessConflicts merge.resolve.merged := by
  change (merge.addresses.foldl merge.resolveRow ⟨∅, []⟩).conflicts ++ _ = _
  rw [foldl_conflicts, List.nil_append]
  rfl

end Rows

section Laws

/-- The merge of three present fields shows at the coordinate. -/
theorem mergeValue_some {base ours theirs : Option Value} :
    mergeValue (some base) (some ours) (some theirs) = (mergeValue base ours theirs).map some := by
  unfold mergeValue
  simp only [Option.some_beq_some, apply_ite (Option.map some), Option.map_some, Option.map_none]
  rfl

/-- A coordinate that diverges is reported at its field or at its whole row. -/
theorem reported_of_diverges {address : RowAddress} {name : String}
    (diverges : merge.combined (address, name) = none) :
    ∃ conflict ∈ merge.rowConflicts address,
      conflict.coordinate = merge.coordinate address (some name) ∨
        conflict.coordinate = merge.coordinate address none := by
  rw [combined] at diverges
  simp only [observe] at diverges
  rw [rowConflicts]
  cases base : merge.base[address]? with
  | none =>
    cases ours : merge.localRows[address]? with
    | none =>
      cases theirs : merge.incoming[address]? <;> simp [base, ours, theirs, mergeValue] at diverges
    | some left =>
      cases theirs : merge.incoming[address]? with
      | none => simp [base, ours, theirs, mergeValue] at diverges
      | some right =>
        rw [base, ours, theirs] at diverges
        by_cases same : sameFields left right = true
        · have agree : (some left[name]? == some right[name]?) = true := sameFields_iff.mp same name
          rw [Option.map_some, Option.map_some, mergeValue_agree agree] at diverges
          cases diverges
        · simp only [if_neg same]
          exact ⟨_, List.mem_singleton_self _, .inr rfl⟩
  | some row =>
    cases ours : merge.localRows[address]? with
    | none =>
      cases theirs : merge.incoming[address]? with
      | none => simp [ours, theirs, mergeValue] at diverges
      | some right =>
        rw [base, ours, theirs] at diverges
        by_cases same : sameFields right row = true
        · have unchanged : (some right[name]? == some row[name]?) = true := sameFields_iff.mp same name
          obtain ⟨result, merged, _⟩ := mergeValue_right_unchanged none unchanged
          exact absurd (merged.symm.trans diverges) (Option.some_ne_none result)
        · simp only [if_neg same]
          exact ⟨_, List.mem_singleton_self _, .inr rfl⟩
    | some left =>
      cases theirs : merge.incoming[address]? with
      | none =>
        rw [base, ours, theirs] at diverges
        by_cases same : sameFields left row = true
        · have unchanged : (some left[name]? == some row[name]?) = true := sameFields_iff.mp same name
          obtain ⟨result, merged, _⟩ := mergeValue_left_unchanged none unchanged
          exact absurd (merged.symm.trans diverges) (Option.some_ne_none result)
        · simp only [if_neg same]
          exact ⟨_, List.mem_singleton_self _, .inr rfl⟩
      | some right =>
        rw [base, ours, theirs] at diverges
        simp only [Option.map_some] at diverges
        rw [mergeValue_some, Option.map_eq_none_iff] at diverges
        by_cases same : sameFields left right = true
        · rw [mergeValue_agree (sameFields_iff.mp same name)] at diverges
          cases diverges
        · simp only [if_neg same]
          refine ⟨⟨merge.coordinate address (some name), .incompatibleValue⟩, ?_, .inl rfl⟩
          apply List.mem_filterMap.mpr
          refine ⟨name, ?_, ?_⟩
          · by_contra absent
            have nothing := mergeField_absent row left right absent
            rw [mergeField, diverges] at nothing
            cases nothing
          · rw [fieldConflict, mergeField, diverges]

end Laws

section Symmetry

variable {merge : ThreeWayMerge}

end Symmetry

end ThreeWayMerge

end Liasse.History

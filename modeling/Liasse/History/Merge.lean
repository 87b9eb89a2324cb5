/-
This file models the automatic three-way merge of two histories over a shared base.
-/

import Liasse.Codes.Merge
import Liasse.Runtime.State

namespace Liasse.History

open Store Liasse.Runtime

/-- The reason why a coordinate has no automatic merge. -/
inductive ConflictKind
  | incompatibleValue
  | deleteVsModify
  | competingInsert
  | uniqueness
deriving DecidableEq

/-- The coordinate of a conflict is in a keyed collection or in the singleton state of the root. -/
inductive ConflictCoordinate
  | row (collection : String) (key : ValueClass) (field : Option String)
  | rootSingleton (member : Option String)
deriving DecidableEq

/-- A conflict with its coordinate. -/
structure MergeConflict where
  coordinate : ConflictCoordinate
  kind : ConflictKind
deriving DecidableEq

/-- The accepted rows of a merge and its conflicts. -/
structure MergeOutcome where
  merged : Rows
  conflicts : List MergeConflict

/-- A merge is clean when it has no conflict. -/
def MergeOutcome.isClean (outcome : MergeOutcome) : Bool :=
  outcome.conflicts.isEmpty

/-- The three states that a merge compares, with the definition that they have. -/
structure ThreeWayMerge where
  base : Rows
  localRows : Rows
  incoming : Rows
  compiled : Compiled

/-- The fields of two rows are equal. -/
def sameFields (first second : FieldMap) : Bool :=
  first.map (fun _ value => ValueClass.of value) == second.map fun _ value => ValueClass.of value

namespace ThreeWayMerge

/-- The top-level collections with unique groups. -/
def unique (merge : ThreeWayMerge) : List (String × List (List String)) :=
  (merge.compiled.collections.filter fun collection => !collection.unique.isEmpty).map
    fun collection => (collection.name, collection.unique)

/-- The coordinate of a conflict at a row or at a field of it. The reserved row has the name of its
member only. -/
def coordinate (merge : ThreeWayMerge) (address : RowAddress) (field : Option String) :
    ConflictCoordinate :=
  let step := address.last
  if step.name = rootName then .rootSingleton field
  else
    match merge.compiled.collection step.name with
    | some _ => .row step.name (keyIdentity step.key) field
    | none => .row step.name step.key.first field

/-- The merge of the values of one field. -/
def mergeField (base ours theirs : Option Value) : Option (Option Value) :=
  Codes.mergeValue base ours theirs

/-- The field names of three rows in their order. -/
def fieldNames (base ours theirs : FieldMap) : List String :=
  (Std.TreeSet.ofList (base.keys ++ ours.keys ++ theirs.keys) compareText).toList

/-- The merge of the named fields extends a row, or it adds a conflict. -/
def mergeNames (merge : ThreeWayMerge) (address : RowAddress) (base ours theirs : FieldMap) :
    List String → FieldMap × List MergeConflict → FieldMap × List MergeConflict
  | [], state => state
  | name :: rest, (row, conflicts) =>
    mergeNames merge address base ours theirs rest <|
      match mergeField base[name]? ours[name]? theirs[name]? with
      | some (some value) => (row.insert name value, conflicts)
      | some none => (row, conflicts)
      | none => (row, conflicts ++ [⟨merge.coordinate address (some name), .incompatibleValue⟩])

/-- The merge of a row that all three states have. The row is accepted when no field conflicts. -/
def mergeFields (merge : ThreeWayMerge) (address : RowAddress) (base ours theirs : FieldMap)
    (outcome : MergeOutcome) : MergeOutcome :=
  let (row, conflicts) :=
    merge.mergeNames address base ours theirs (fieldNames base ours theirs) (∅, outcome.conflicts)
  if conflicts.length = outcome.conflicts.length then ⟨outcome.merged.insert address row, conflicts⟩
  else ⟨outcome.merged, conflicts⟩

/-- The merge of one address. -/
def resolveRow (merge : ThreeWayMerge) (outcome : MergeOutcome) (address : RowAddress) :
    MergeOutcome :=
  let accept (fields : FieldMap) : MergeOutcome :=
    ⟨outcome.merged.insert address fields, outcome.conflicts⟩
  let report (kind : ConflictKind) : MergeOutcome :=
    ⟨outcome.merged, outcome.conflicts ++ [⟨merge.coordinate address none, kind⟩]⟩
  match merge.base[address]?, merge.localRows[address]?, merge.incoming[address]? with
  | some base, some ours, some theirs =>
    if sameFields ours theirs then accept ours
    else merge.mergeFields address base ours theirs outcome
  | none, some ours, some theirs =>
    if sameFields ours theirs then accept ours else report .competingInsert
  | none, some ours, none => accept ours
  | none, none, some theirs => accept theirs
  | some base, some ours, none =>
    if sameFields ours base then outcome else report .deleteVsModify
  | some base, none, some theirs =>
    if sameFields theirs base then outcome else report .deleteVsModify
  | some _, none, none => outcome
  | none, none, none => outcome

/-- The addresses of the three states in their order. -/
def addresses (merge : ThreeWayMerge) : List RowAddress :=
  (Std.TreeSet.ofList (merge.base.keys ++ merge.localRows.keys ++ merge.incoming.keys) compare).toList

/-- A conflict on a group of one field is at that field. -/
def groupField : List String → Option String
  | [single] => some single
  | _ => none

/-- The repeated candidate keys of one group among some rows of one collection. -/
def groupConflicts (merge : ThreeWayMerge) (name : String) (group : List String) :
    List (RowAddress × FieldMap) → List (List ValueClass) → List MergeConflict
  | [], _ => []
  | (address, fields) :: rest, seen =>
    if address.rest = [] ∧ address.last.name = name then
      match tupleOf group fields with
      | none => merge.groupConflicts name group rest seen
      | some tuple =>
        if tuple ∈ seen then
          ⟨merge.coordinate address (groupField group), .uniqueness⟩ ::
            merge.groupConflicts name group rest seen
        else merge.groupConflicts name group rest (seen ++ [tuple])
    else merge.groupConflicts name group rest seen

/-- The merged rows of a collection that repeat a candidate key. -/
def uniquenessConflicts (merge : ThreeWayMerge) (merged : Rows) : List MergeConflict :=
  merge.unique.flatMap fun entry =>
    entry.2.flatMap fun group => merge.groupConflicts entry.1 group merged.toList []

/-- The merge resolves each address and then validates the uniqueness of the combined rows. -/
def resolve (merge : ThreeWayMerge) : MergeOutcome :=
  let outcome := merge.addresses.foldl merge.resolveRow ⟨∅, []⟩
  ⟨outcome.merged, outcome.conflicts ++ merge.uniquenessConflicts outcome.merged⟩

/-- The merge with its two sides exchanged. -/
def swap (merge : ThreeWayMerge) : ThreeWayMerge :=
  { merge with localRows := merge.incoming, incoming := merge.localRows }

end ThreeWayMerge

end Liasse.History

/-
This file models the evaluated read of a view.
-/

import Liasse.Codes.Descent
import Liasse.Pg.SortEnc
import Liasse.Store.Memory

namespace Liasse.Store

open Codes
open Pg (SortDirection sortOrder)

section Programs

/-- A live descent that gets this deep is taken for a cycle. -/
def maxSubtreeDepth : Nat := 4096

/-- The live rows below a candidate with their paths from it. -/
abbrev CandidateSubtree :=
  List (List AddressStep × Value)

/-- A compiled program of a view reads the payload, the key and the subtree of a row. It has one sort key for each
direction. -/
structure ViewProgram where
  subtreeSteps : List String
  admits : Value → KeyClass → CandidateSubtree → Except String Bool
  project : Value → KeyClass → CandidateSubtree → Except String Value
  sortTuple : Value → KeyClass → CandidateSubtree → Except String (List Value)
  sortDirections : List SortDirection
  aligned : ∀ value key subtree tuple, sortTuple value key subtree = .ok tuple →
    tuple.length = sortDirections.length

/-- A view reads a collection, or the rows below a root through one nested collection. -/
inductive ViewSource
  | collection (path : CollectionPath)
  | coverage (root : RowAddress) (field : String)

/-- A row of a view has its path from the source. -/
structure EvaluatedRow where
  keyPath : List KeyClass
  incarnation : RowIncarnation
  projected : Value
  sort : List Value

inductive ViewError
  | eval (detail : String)
  | corruption (detail : String)
deriving DecidableEq

def overDeep (context : String) : ViewError :=
  .corruption (context ++ " exceeded the maximum depth 4096 — cyclic or corrupt over-deep data")

end Programs

section Reads

variable (current : RowMap RowAddress)

/-- The live children of a row through some collections, in the order of the collections. -/
def subtreeChildren (steps : List String) (parent : RowAddress) : List (AddressStep × RowAddress × StoredRow) :=
  steps.flatMap fun step =>
    (MemoryStore.scan current (.nested parent step)).map fun entry => (⟨step, entry.1.last.key⟩, entry)

/-- Each row of a subtree gives its value. -/
def subtreeVisit (_ : RowAddress) (stored : StoredRow) : Except ViewError (Option Value) :=
  .ok (some stored.value)

/-- The live subtree of a row through the steps of a program. -/
def prefetchSubtree (root : RowAddress) (steps : List String) : Except ViewError CandidateSubtree :=
  if steps = [] then .ok []
  else descend (subtreeChildren current steps) subtreeVisit (overDeep "candidate subtree descent") maxSubtreeDepth
    root []

variable (program : ViewProgram)

/-- One candidate of a flat view is left out, or it has its output and its sort tuple. -/
def evaluateRow (entry : RowAddress × StoredRow) : Except ViewError (Option EvaluatedRow) := do
  let key := entry.1.last.key
  let subtree ← prefetchSubtree current entry.1 program.subtreeSteps
  if ← (program.admits entry.2.value key subtree).mapError .eval then
    let projected ← (program.project entry.2.value key subtree).mapError .eval
    let sort ← (program.sortTuple entry.2.value key subtree).mapError .eval
    return some ⟨[key], entry.2.incarnation, projected, sort⟩
  else
    return none

/-- The delivered order of a flat view is that of the sort tuples, then that of the key paths. -/
def compareSorted (directions : List SortDirection) (first second : EvaluatedRow) : Ordering :=
  (sortOrder directions).compare first.sort first.keyPath second.sort second.keyPath

def orderAndBound (rows : List EvaluatedRow) (directions : List SortDirection) (skip limit : Option UInt64) :
    List EvaluatedRow :=
  let sorted :=
    if directions = [] then rows
    else rows.mergeSort fun first second => compareSorted directions first second != .gt
  let skipped := sorted.drop (min ((skip.map UInt64.toNat).getD 0) sorted.length)
  skipped.take (min ((limit.map UInt64.toNat).getD skipped.length) skipped.length)

def scanCollection (path : CollectionPath) (skip limit : Option UInt64) : Except ViewError (List EvaluatedRow) := do
  let evaluated ← (MemoryStore.scan current path).mapM (evaluateRow current program)
  return orderAndBound evaluated.reduceOption program.sortDirections skip limit

/-- The live children of a row through one collection. -/
def coverChildren (field : String) (parent : RowAddress) : List (KeyClass × RowAddress × StoredRow) :=
  (MemoryStore.scan current (.nested parent field)).map fun entry => (entry.1.last.key, entry)

/-- The output of a row in a coverage. -/
def coverProject (address : RowAddress) (stored : StoredRow) (subtree : CandidateSubtree) :
    Except ViewError (RowIncarnation × Value) := do
  let projected ← (program.project stored.value address.last.key subtree).mapError .eval
  return (stored.incarnation, projected)

/-- A descendant is left out, or it has its output. -/
def coverVisit (address : RowAddress) (stored : StoredRow) :
    Except ViewError (Option (RowIncarnation × Value)) := do
  let subtree ← prefetchSubtree current address program.subtreeSteps
  if ← (program.admits stored.value address.last.key subtree).mapError .eval then
    return some (← coverProject program address stored subtree)
  else
    return none

/-- The rows of a coverage have no sort tuple. -/
def coveredRow (found : List KeyClass × RowIncarnation × Value) : EvaluatedRow :=
  ⟨found.1, found.2.1, found.2.2, []⟩

/-- The root of a coverage is projected without the filter. -/
def scanCoverage (root : RowAddress) (field : String) : Except ViewError (List EvaluatedRow) := do
  match current[root]? with
  | none => return []
  | some stored =>
    let subtree ← prefetchSubtree current root program.subtreeSteps
    let top ← coverProject program root stored subtree
    let below ← descend (coverChildren current field) (coverVisit current program) (overDeep "coverage descent")
      maxSubtreeDepth root []
    return (([], top) :: below).map coveredRow

/-- The rows of a view in their delivered order. A coverage has no bounds. -/
def scanView (source : ViewSource) (skip limit : Option UInt64) : Except ViewError (List EvaluatedRow) :=
  match source with
  | .collection path => scanCollection current program path skip limit
  | .coverage root field => scanCoverage current program root field

end Reads

end Liasse.Store

/-
This file models how the runtime folds the computed values, the views and the meter accessors into the
materialized root, and it tells what a fold changes.
-/

import Liasse.Expr.Tree

namespace Liasse.Computed

open Liasse.Expr

section Packages

/-- An expression reads the root and the chain of current rows, with the outermost one first. It gives a
cell, or it fails. -/
abbrev Expression := Row → List Cell → Option Cell

/-- A computed value of a row. -/
structure CompiledComputed where
  name : String
  expr : Expression

/-- A view of a row or of the root. -/
structure CompiledView where
  name : String
  expr : Expression

/-- A keyed collection with its computed values, the collections under its rows and the views of its rows. -/
inductive CompiledCollection
  | mk (name : String) (computed : List CompiledComputed) (children : List CompiledCollection)
    (views : List CompiledView)

namespace CompiledCollection

def name : CompiledCollection → String
  | .mk name _ _ _ => name

def children : CompiledCollection → List CompiledCollection
  | .mk _ _ children _ => children

end CompiledCollection

/-- A static struct with its computed values and the structs inside it. -/
inductive CompiledStruct
  | mk (name : String) (computed : List CompiledComputed) (structs : List CompiledStruct)

/-- The computed values and the views of a package. -/
structure Package where
  collections : List CompiledCollection
  structs : List CompiledStruct
  rootComputed : List CompiledComputed
  views : List CompiledView

/-- The top-level collection of a name. -/
def Package.collection (package : Package) (name : String) : Option CompiledCollection :=
  package.collections.find? fun collection => collection.name = name

end Packages

section Rows

/-- The value that an evaluation gives a computed cell. A failure gives `none`. A result that is no scalar
gives no value. -/
def valueOf : Option Cell → Option Value
  | some (.scalar value) => some value
  | some _ => none
  | none => some .none

/-- A cell takes a value unless it has an equal one. -/
def assign (row : Row) (name : String) (value : Value) : Row × Bool :=
  match row.cell name with
  | some cell => if cell.same (.scalar value) then (row, false) else (row.set name (.scalar value), true)
  | none => (row.set name (.scalar value), true)

/-- One computed value in a pass. The pass evaluates it against the row before the pass. -/
def foldOne (root : Row) (currents : List Cell) (pass : Row × Bool) (comp : CompiledComputed) : Row × Bool :=
  match valueOf (comp.expr root currents) with
  | none => pass
  | some value =>
    let (row, changed) := assign pass.1 comp.name value
    (row, pass.2 || changed)

/-- One pass over the computed values of a row. It tells whether a cell changed. -/
def foldPass (computed : List CompiledComputed) (root : Row) (parents : List Cell) (row : Row) : Row × Bool :=
  computed.foldl (foldOne root (parents ++ [.row row])) (row, false)

/-- Some passes over a row, up to the first one that changes nothing. -/
def foldPasses (computed : List CompiledComputed) (root : Row) (parents : List Cell) : Nat → Row → Row
  | 0, row => row
  | left + 1, row =>
    let (next, changed) := foldPass computed root parents row
    if changed then foldPasses computed root parents left next else next

/-- The computed values of a row are folded in as many passes as there are. -/
def foldComputedScoped (computed : List CompiledComputed) (root : Row) (parents : List Cell) (row : Row) :
    Row :=
  foldPasses computed root parents computed.length row

end Rows

section Collections

mutual

/-- The computed values of a row are folded, and then the ones of the rows in its collections. -/
def foldRowComputedDeep : CompiledCollection → Row → List Cell → Row → Row
  | .mk _ computed children _, root, parents, row =>
    let folded := foldComputedScoped computed root parents row
    if children.isEmpty then folded
    else folded.mapCells (foldChildren children root (parents ++ [.row folded]))
termination_by structural collection => collection

/-- The rows of a cell are folded when the cell is a declared collection. -/
def foldChildren : List CompiledCollection → Row → List Cell → String → Cell → Cell
  | [], _, _, _, cell => cell
  | child :: rest, root, parents, name, cell =>
    if child.name = name then
      match cell with
      | .collection rows => .collection (rows.map (foldRowComputedDeep child root parents))
      | cell => cell
    else foldChildren rest root parents name cell
termination_by structural children => children

end

mutual

/-- A collection or one under its rows has a computed value. -/
def hasComputedDeep : CompiledCollection → Bool
  | .mk _ computed children _ => !computed.isEmpty || anyComputed children
termination_by structural collection => collection

def anyComputed : List CompiledCollection → Bool
  | [] => false
  | child :: rest => hasComputedDeep child || anyComputed rest
termination_by structural children => children

end

mutual

/-- The count of computed values of a collection and of the ones under its rows. -/
def computedCountDeep : CompiledCollection → Nat
  | .mk _ computed children _ => computed.length + computedCount children
termination_by structural collection => collection

def computedCount : List CompiledCollection → Nat
  | [] => 0
  | child :: rest => computedCountDeep child + computedCount rest
termination_by structural children => children

end

end Collections

section Assignment

theorem assign_cases (row : Row) (name : String) (value : Value) :
    assign row name value = (row, false) ∨ assign row name value = (row.set name (.scalar value), true) := by
  unfold assign
  split
  · split
    · exact .inl rfl
    · exact .inr rfl
  · exact .inr rfl

end Assignment

section Trees

/-- The induction over collections assumes the statement of each child. -/
theorem CompiledCollection.induct {statement : CompiledCollection → Prop}
    (step : ∀ collection, (∀ child ∈ collection.children, statement child) → statement collection)
    (collection : CompiledCollection) : statement collection := by
  induction size : sizeOf collection using Nat.strong_induction_on generalizing collection with
  | h count earlier =>
    refine step collection fun child inside => earlier (sizeOf child) ?_ child rfl
    obtain ⟨name, computed, children, views⟩ := collection
    have smaller : sizeOf child < sizeOf children := List.sizeOf_lt_of_mem inside
    rw [← size, CompiledCollection.mk.sizeOf_spec]
    omega

/-- A cell is folded when it is a declared collection, and it stays when it is not. -/
theorem foldChildren_cases (children : List CompiledCollection) (root : Row) (parents : List Cell)
    (name : String) (cell : Cell) :
    foldChildren children root parents name cell = cell ∨ ∃ child ∈ children, child.name = name ∧
      ∃ rows, cell = .collection rows ∧
        foldChildren children root parents name cell =
          .collection (rows.map (foldRowComputedDeep child root parents)) := by
  induction children with
  | nil => exact .inl rfl
  | cons child rest earlier =>
    by_cases named : child.name = name
    · cases cell with
      | scalar value => exact .inl (by simp only [foldChildren, if_pos named])
      | row row => exact .inl (by simp only [foldChildren, if_pos named])
      | collection rows =>
        exact .inr ⟨child, List.mem_cons_self, named, rows, rfl,
          by simp only [foldChildren, if_pos named]⟩
    · simp only [foldChildren, if_neg named]
      rcases earlier with same | ⟨other, inside, found⟩
      · exact .inl same
      · exact .inr ⟨other, List.mem_cons_of_mem _ inside, found⟩

end Trees

end Liasse.Computed

/-
This file decides the equality of types and models the cells that an expression reads and returns.
-/

import Liasse.Runtime.Types
import Liasse.Value.Total

namespace Liasse.Runtime

section Declared

mutual

/-- Two declared types are equal. -/
def FieldType.same : FieldType → FieldType → Bool
  | .text, .text => true
  | .bool, .bool => true
  | .int, .int => true
  | .decimal, .decimal => true
  | .bytes, .bytes => true
  | .uuid, .uuid => true
  | .date, .date => true
  | .timestamp first, .timestamp second => first = second
  | .duration, .duration => true
  | .period, .period => true
  | .json, .json => true
  | .blob, .blob => true
  | .enum first, .enum second => first = second
  | .optional first, .optional second => first.same second
  | .set first, .set second => first.same second
  | .map key value, .map other result => key.same other && value.same result
  | .view first, .view second => first.same second
  | .ref first, .ref second => first.same second
  | .struct first, .struct second => sameMembers first second
  | .composite first, .composite second => sameMembers first second
  | _, _ => false
termination_by structural type => type

def RefTarget.same : RefTarget → RefTarget → Bool
  | .scalar first, .scalar second => first.same second
  | .composite first, .composite second => sameMembers first second
  | _, _ => false
termination_by structural target => target

def sameMembers : List (String × FieldType) → List (String × FieldType) → Bool
  | [], [] => true
  | first :: rest, second :: others => sameMember first second && sameMembers rest others
  | _, _ => false
termination_by structural members => members

def sameMember : String × FieldType → String × FieldType → Bool
  | (first, type), (second, other) => first = second && type.same other
termination_by structural member => member

end

mutual

theorem FieldType.same_iff : ∀ first second : FieldType, first.same second = true ↔ first = second
  | .text, second => by cases second <;> simp [FieldType.same]
  | .bool, second => by cases second <;> simp [FieldType.same]
  | .int, second => by cases second <;> simp [FieldType.same]
  | .decimal, second => by cases second <;> simp [FieldType.same]
  | .bytes, second => by cases second <;> simp [FieldType.same]
  | .uuid, second => by cases second <;> simp [FieldType.same]
  | .date, second => by cases second <;> simp [FieldType.same]
  | .timestamp _, second => by cases second <;> simp [FieldType.same]
  | .duration, second => by cases second <;> simp [FieldType.same]
  | .period, second => by cases second <;> simp [FieldType.same]
  | .json, second => by cases second <;> simp [FieldType.same]
  | .blob, second => by cases second <;> simp [FieldType.same]
  | .enum _, second => by cases second <;> simp [FieldType.same]
  | .optional first, second => by
    cases second <;> simp [FieldType.same, FieldType.same_iff first]
  | .set first, second => by
    cases second <;> simp [FieldType.same, FieldType.same_iff first]
  | .map key value, second => by
    cases second <;> simp [FieldType.same, FieldType.same_iff key, FieldType.same_iff value]
  | .view first, second => by
    cases second <;> simp [FieldType.same, FieldType.same_iff first]
  | .ref first, second => by
    cases second <;> simp [FieldType.same, RefTarget.same_iff first]
  | .struct first, second => by
    cases second <;> simp [FieldType.same, sameMembers_iff first]
  | .composite first, second => by
    cases second <;> simp [FieldType.same, sameMembers_iff first]
termination_by structural type => type

theorem RefTarget.same_iff : ∀ first second : RefTarget, first.same second = true ↔ first = second
  | .scalar first, second => by
    cases second <;> simp [RefTarget.same, FieldType.same_iff first]
  | .composite first, second => by
    cases second <;> simp [RefTarget.same, sameMembers_iff first]
termination_by structural target => target

theorem sameMembers_iff : ∀ first second : List (String × FieldType),
    sameMembers first second = true ↔ first = second
  | [], second => by cases second <;> simp [sameMembers]
  | first :: rest, second => by
    cases second <;> simp [sameMembers, sameMember_iff first, sameMembers_iff rest]
termination_by structural members => members

theorem sameMember_iff : ∀ first second : String × FieldType,
    sameMember first second = true ↔ first = second
  | (first, type), (second, other) => by
    simp [sameMember, FieldType.same_iff type]
termination_by structural member => member

end

instance : DecidableEq FieldType := fun first second =>
  decidable_of_iff (first.same second = true) (FieldType.same_iff first second)

end Declared

section Expressions

/-- The type of an expression is a declared type, one row, or the rows of a view. A row has its fields
by name and a key. -/
inductive ExprType
  | scalar (type : FieldType)
  | row (fields : List (String × ExprType)) (key : Option ExprType)
  | view (fields : List (String × ExprType)) (key : Option ExprType)

mutual

/-- Two types of expressions are equal. -/
def ExprType.same : ExprType → ExprType → Bool
  | .scalar first, .scalar second => first = second
  | .row fields key, .row others identity => sameFields fields others && sameKey key identity
  | .view fields key, .view others identity => sameFields fields others && sameKey key identity
  | _, _ => false
termination_by structural type => type

def sameFields : List (String × ExprType) → List (String × ExprType) → Bool
  | [], [] => true
  | first :: rest, second :: others => sameField first second && sameFields rest others
  | _, _ => false
termination_by structural fields => fields

def sameField : String × ExprType → String × ExprType → Bool
  | (first, type), (second, other) => first = second && type.same other
termination_by structural field => field

def sameKey : Option ExprType → Option ExprType → Bool
  | none, none => true
  | some first, some second => first.same second
  | _, _ => false
termination_by structural key => key

end

mutual

theorem ExprType.same_iff : ∀ first second : ExprType, first.same second = true ↔ first = second
  | .scalar _, second => by cases second <;> simp [ExprType.same]
  | .row fields key, second => by
    cases second <;> simp [ExprType.same, sameFields_iff fields, sameKey_iff key]
  | .view fields key, second => by
    cases second <;> simp [ExprType.same, sameFields_iff fields, sameKey_iff key]
termination_by structural type => type

theorem sameFields_iff : ∀ first second : List (String × ExprType),
    sameFields first second = true ↔ first = second
  | [], second => by cases second <;> simp [sameFields]
  | first :: rest, second => by
    cases second <;> simp [sameFields, sameField_iff first, sameFields_iff rest]
termination_by structural fields => fields

theorem sameField_iff : ∀ first second : String × ExprType,
    sameField first second = true ↔ first = second
  | (first, type), (second, other) => by
    simp [sameField, ExprType.same_iff type]
termination_by structural field => field

theorem sameKey_iff : ∀ first second : Option ExprType,
    sameKey first second = true ↔ first = second
  | none, second => by cases second <;> simp [sameKey]
  | some first, second => by
    cases second <;> simp [sameKey, ExprType.same_iff first]
termination_by structural key => key

end

instance : DecidableEq ExprType := fun first second =>
  decidable_of_iff (first.same second = true) (ExprType.same_iff first second)

/-- The declared type of a scalar expression. -/
def ExprType.asScalar : ExprType → Option FieldType
  | .scalar type => some type
  | _ => none

end Expressions

section Membership

mutual

/-- A value belongs to a declared type. An enumeration has the values with a declared label. -/
def FieldType.admits : FieldType → Value → Bool
  | .text, .text _ => true
  | .bool, .bool _ => true
  | .int, .int _ => true
  | .decimal, .decimal _ => true
  | .bytes, .bytes _ => true
  | .uuid, .uuid _ => true
  | .date, .date _ => true
  | .timestamp precision, .timestamp instant => instant.precision = precision
  | .duration, .duration _ => true
  | .period, .period _ => true
  | .json, .json _ => true
  | .blob, .blob _ => true
  | .enum labels, .enum value => value.label ∈ labels
  | .optional inner, value =>
    match value with
    | .none => true
    | _ => inner.admits value
  | .set inner, .set members => members.all fun member => inner.admits member
  | .map key value, .map entries =>
    entries.all fun entry => key.admits entry.1 && value.admits entry.2
  | .ref target, .ref key => target.admits key
  | .struct fields, .struct members => admitsMembers fields members
  | .composite components, .composite values => admitsComponents components values
  | _, _ => false
termination_by structural type => type

def RefTarget.admits : RefTarget → RefKey → Bool
  | .scalar type, .scalar key => type.admits key
  | .composite components, .composite keys => admitsComponents components keys
  | _, _ => false
termination_by structural target => target

/-- The members of a struct have the declared names in order. -/
def admitsMembers : List (String × FieldType) → List (String × Value) → Bool
  | [], [] => true
  | field :: rest, member :: members =>
    admitsMember field member.2 && (field.1 = member.1) && admitsMembers rest members
  | _, _ => false
termination_by structural fields => fields

/-- The components of a composite take their types by position. -/
def admitsComponents : List (String × FieldType) → List Value → Bool
  | [], [] => true
  | component :: rest, value :: values =>
    admitsMember component value && admitsComponents rest values
  | _, _ => false
termination_by structural components => components

def admitsMember : String × FieldType → Value → Bool
  | (_, type), value => type.admits value
termination_by structural member => member

end

end Membership

end Liasse.Runtime

namespace Liasse.Expr

open Liasse.Runtime

/-- A part of the identity of a row is a key or a position. -/
inductive RowIdPart
  | key (value : Value)
  | occurrence (index : Nat)

/-- The identity of a row is the path of its source rows. -/
abbrev RowId := List RowIdPart

mutual

/-- A cell is a value, one row or a list of rows. -/
inductive Cell
  | scalar (value : Value)
  | row (row : Row)
  | collection (rows : List Row)

/-- A row has its identity, its key, its cells in name order and the sort tuple that placed it. -/
inductive Row
  | mk (id : RowId) (key : Value) (cells : List (String × Cell)) (sort : List Value)

end

namespace Row

/-- The identity of a row. -/
def id : Row → RowId
  | .mk id _ _ _ => id

/-- The key of a row. -/
def key : Row → Value
  | .mk _ key _ _ => key

/-- The cells of a row. -/
def cells : Row → List (String × Cell)
  | .mk _ _ cells _ => cells

end Row

section Typing

mutual

/-- A cell belongs to the type of an expression. A row has a cell for each field of its type, and the key
of its type. -/
def admits : ExprType → Cell → Bool
  | .scalar type, .scalar value => type.admits value
  | .row fields key, .row row => admitsFields fields row && admitsKey key row
  | .view fields key, .collection rows =>
    rows.all fun row => admitsFields fields row && admitsKey key row
  | _, _ => false
termination_by structural type => type

def admitsFields : List (String × ExprType) → Row → Bool
  | [], _ => true
  | field :: rest, row => admitsField field row && admitsFields rest row
termination_by structural fields => fields

def admitsField : String × ExprType → Row → Bool
  | (name, type), row =>
    match row.cells.lookup name with
    | some cell => admits type cell
    | none => false
termination_by structural field => field

def admitsKey : Option ExprType → Row → Bool
  | none, _ => true
  | some type, row => admits type (.scalar row.key)
termination_by structural key => key

end

end Typing

end Liasse.Expr

namespace Liasse.Expr

section Cells

namespace Row

/-- A named cell of a row. -/
def cell (row : Row) (name : String) : Option Cell :=
  row.cells.lookup name

/-- A row with a named cell between the lower and the higher names. -/
def set : Row → String → Cell → Row
  | .mk id key cells _, name, cell =>
    .mk id key ((cells.filter fun member => compareText member.1 name = .lt) ++
      (name, cell) :: cells.filter fun member => compareText name member.1 = .lt) []

end Row

theorem lookup_filter {A : Type} (keep : String → Bool) (cells : List (String × A)) (name : String) :
    (cells.filter fun member => keep member.1).lookup name =
      if keep name then cells.lookup name else none := by
  induction cells with
  | nil => simp
  | cons member rest earlier =>
    obtain ⟨other, cell⟩ := member
    by_cases same : name = other
    · subst same
      by_cases kept : keep name <;> simp [kept, earlier]
    · by_cases kept : keep other <;>
        simp [kept, earlier, List.lookup_cons, beq_false_of_ne same]

theorem lookup_map {A B : Type} (change : String → A → B) (cells : List (String × A)) (name : String) :
    (cells.map fun member => (member.1, change member.1 member.2)).lookup name =
      (cells.lookup name).map (change name) := by
  induction cells with
  | nil => rfl
  | cons member rest earlier =>
    obtain ⟨other, cell⟩ := member
    by_cases same : name = other
    · subst same
      simp
    · simp [List.lookup_cons, beq_false_of_ne same, earlier]

namespace Row

@[simp] theorem set_id (row : Row) (name : String) (cell : Cell) : (row.set name cell).id = row.id := by
  cases row
  rfl

@[simp] theorem set_key (row : Row) (name : String) (cell : Cell) : (row.set name cell).key = row.key := by
  cases row
  rfl

@[simp] theorem cell_set (row : Row) (name : String) (cell : Cell) :
    (row.set name cell).cell name = some cell := by
  obtain ⟨id, key, cells, sort⟩ := row
  have below := lookup_filter (fun other => compareText other name = .lt) cells name
  rw [if_neg (by simp [(compareText_eq_iff name name).mpr rfl])] at below
  simp [Row.cell, Row.set, Row.cells, List.lookup_append, below]

theorem cell_set_of_ne (row : Row) {name other : String} (cell : Cell) (different : other ≠ name) :
    (row.set name cell).cell other = row.cell other := by
  obtain ⟨id, key, cells, sort⟩ := row
  have below := lookup_filter (fun other => compareText other name = .lt) cells other
  have above := lookup_filter (fun other => compareText name other = .lt) cells other
  have apart : compareText other name ≠ .eq := fun same => different ((compareText_eq_iff _ _).mp same)
  simp only [Row.cell, Row.set, Row.cells, List.lookup_append, below, List.lookup_cons,
    beq_false_of_ne different, above]
  rw [compareText_swap name other]
  cases order : compareText other name with
  | lt => cases cells.lookup other <;> simp
  | eq => exact absurd order apart
  | gt => simp

end Row

end Cells

section Order

namespace Row

/-- A row whose cells change under their names. -/
def mapCells (change : String → Cell → Cell) : Row → Row
  | .mk id key cells _ => .mk id key (cells.map fun member => (member.1, change member.1 member.2)) []

theorem cell_mapCells (change : String → Cell → Cell) (row : Row) (name : String) :
    (row.mapCells change).cell name = (row.cell name).map (change name) := by
  obtain ⟨id, key, cells, sort⟩ := row
  exact lookup_map change cells name

end Row

end Order

section Equality

/-- Parts of an identity are equal when their values are. -/
def RowIdPart.same : RowIdPart → RowIdPart → Bool
  | .key first, .key second => first == second
  | .occurrence first, .occurrence second => first == second
  | _, _ => false

/-- Identities are equal part by part. -/
def sameId : RowId → RowId → Bool
  | [], [] => true
  | first :: left, second :: right => first.same second && sameId left right
  | _, _ => false

mutual

/-- The equality of cells compares values by their order. -/
def Cell.same : Cell → Cell → Bool
  | .scalar first, .scalar second => first == second
  | .row first, .row second => first.same second
  | .collection first, .collection second => sameRows first second
  | _, _ => false
termination_by structural cell => cell

def Row.same : Row → Row → Bool
  | .mk id key cells sort, .mk other next members tuple =>
    sameId id other && key == next && sameCells cells members && sort == tuple
termination_by structural row => row

def sameRows : List Row → List Row → Bool
  | [], [] => true
  | first :: left, second :: right => first.same second && sameRows left right
  | _, _ => false
termination_by structural rows => rows

def sameCells : List (String × Cell) → List (String × Cell) → Bool
  | [], [] => true
  | first :: left, second :: right => sameMember first second && sameCells left right
  | _, _ => false
termination_by structural cells => cells

def sameMember : String × Cell → String × Cell → Bool
  | (name, cell), member => name == member.1 && cell.same member.2
termination_by structural member => member

end

end Equality

end Liasse.Expr

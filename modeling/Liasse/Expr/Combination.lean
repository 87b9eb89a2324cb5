/-
This file models the checks of a combination of views, and it tells when the combination is the set algebra
of the identities of its operands.
-/

import Liasse.Expr.Identity
import Liasse.Wire.Typed

namespace Liasse.Expr

open Liasse.Runtime

section Checks

/-- The operators that share one precedence level. -/
inductive CombinatorOp
  | union
  | intersect
deriving DecidableEq

def CombinatorOp.combine : CombinatorOp → CombineOp
  | .union => .union
  | .intersect => .intersect

def describeType : ExprType → String
  | .scalar type => Wire.typeName type
  | .row _ _ => "row"
  | .view _ _ => "view"

def scalarType : ExprType → Option FieldType
  | .scalar type => some type
  | _ => none

def isOptionalType : Option FieldType → Bool
  | some (.optional _) => true
  | _ => false

/-- The numeric class of an operator and the type of its result. -/
def arithClass : ArithOp → Option FieldType → Option FieldType → Option (NumClass × FieldType)
  | .add, some .text, some .text => some (.textConcat, .text)
  | .add, some (.timestamp precision), some .duration => some (.timeShift, .timestamp precision)
  | .sub, some (.timestamp precision), some .duration => some (.timeShift, .timestamp precision)
  | .add, some .duration, some (.timestamp precision) => some (.timeShift, .timestamp precision)
  | _, some .int, some .int => some (.int, .int)
  | _, some .decimal, some .decimal => some (.decimal, .decimal)
  | _, some .int, some .decimal => some (.decimal, .decimal)
  | _, some .decimal, some .int => some (.decimal, .decimal)
  | _, _, _ => none

/-- An optional operand is rejected before the numeric class is looked for. -/
def finishArith (op : ArithOp) (left right : TypedExpr) : Except String TypedExpr :=
  let lt := scalarType left.type
  let rt := scalarType right.type
  if isOptionalType lt || isOptionalType rt then
    .error "arithmetic operand is optional; coalesce it (`x ?? 0`) before the operator"
  else
    match arithClass op lt rt with
    | some (numbers, result) => .ok (.mk (.scalar result) (.arith op numbers left right))
    | none =>
      .error ("operator has no type for operands `" ++ describeType left.type ++ "` and `" ++
        describeType right.type ++ "`")

variable {E : Type} (check : E → Except String TypedExpr) (relation : TypedExpr → Option String)

/-- The relation that identifies the rows of a combined view. Selections and plain projections keep the one
of their rows, and a combination has the one of its left operand. -/
def combinatorRelation : TypedExpr → Option String
  | .mk _ (.project source projection) =>
    if projection.key.isEmpty then combinatorRelation source else none
  | .mk _ (.select base _) => combinatorRelation base
  | .mk _ (.combine _ lhs _) => combinatorRelation lhs
  | expr => relation expr

/-- A difference of two views has the rows of the left one, whatever the right one is. -/
def checkSub (lhs rhs : E) : Except String TypedExpr := do
  let left ← check lhs
  let right ← check rhs
  match left.type, right.type with
  | .view fields key, .view _ _ => pure (.mk (.view fields key) (.combine .difference left right))
  | _, _ => finishArith .sub left right

/-- Two views name different relations. -/
def foreign (left right : Option String) : Bool :=
  match left, right with
  | some left, some right => left ≠ right
  | _, _ => false

/-- One more operand of a chain. Its relation and its key are the ones of the chain. -/
def checkOperand (left : Option String) (acc : TypedExpr) (operand : E × CombinatorOp) :
    Except String TypedExpr := do
  let right ← check operand.1
  if foreign left (combinatorRelation relation right) then
    throw ("combined views address different target relations, which do not share an identity domain " ++
      "(§7.4/§6.3); project both into a common synthetic `$key` first if you mean to combine " ++
      "heterogeneous sources")
  else
    match acc.type, right.type with
    | .view fields key, .view _ other =>
      if other = key then pure (.mk (.view fields key) (.combine operand.2.combine acc right))
      else throw "combined views must share one identity domain (§7.4)"
    | _, _ => throw "a `|`/`&` combinator operand must be a view"

/-- A chain of one operator is a left fold. A chain of both operators is ambiguous. -/
def checkCombination (operands : List E) (operators : List CombinatorOp) : Except String TypedExpr :=
  let unions := operators.count .union
  if unions ≠ 0 ∧ unions ≠ operators.length then
    .error ("an un-parenthesized view combination that mixes `|` (union) and `&` (intersection) is " ++
      "ambiguous: the two groupings give different rows, projection, and identity (§7.4). Group it " ++
      "explicitly with `( )` — e.g. `(a | b) & c` or `a | (b & c)`")
  else
    match operands with
    | [] => .error "a `|`/`&` view combination has no operands"
    | operand :: rest => do
        let first ← check operand
        match first.type with
        | .view _ _ =>
          (rest.zip operators).foldlM
            (checkOperand check relation (combinatorRelation relation first)) first
        | _ => throw "a `|`/`&` combinator operand must be a view"

end Checks

section Combinations

variable {E : Type} (check : E → Except String TypedExpr) (relation : TypedExpr → Option String)

def isView : ExprType → Bool
  | .view _ _ => true
  | _ => false

/-- What the checker makes of two operands under an operator. -/
def checkCombined (op : CombineOp) (lhs rhs : E) : Except String TypedExpr :=
  match op with
  | .union => checkCombination check relation [lhs, rhs] [.union]
  | .intersect => checkCombination check relation [lhs, rhs] [.intersect]
  | .difference => checkSub check lhs rhs

/-- Two views that the checker accepts as the operands of a combination. -/
structure Combination where
  op : CombineOp
  lhs : E
  rhs : E
  left : TypedExpr
  right : TypedExpr
  expr : TypedExpr
  leftChecked : check lhs = .ok left
  rightChecked : check rhs = .ok right
  leftView : isView left.type = true
  rightView : isView right.type = true
  accepted : checkCombined check relation op lhs rhs = .ok expr

/-- An operand of an accepted chain has the relation of the chain. -/
theorem checkOperand_ok {left : Option String} {acc right expr : TypedExpr} {operand : E × CombinatorOp}
    (checked : check operand.1 = .ok right)
    (accepted : checkOperand check relation left acc operand = .ok expr) :
    foreign left (combinatorRelation relation right) = false ∧
      expr = .mk acc.type (.combine operand.2.combine acc right) := by
  rw [checkOperand, checked, Codes.ok_bind] at accepted
  split at accepted
  · cases accepted
  · rename_i related
    refine ⟨Bool.eq_false_iff.mpr related, ?_⟩
    split at accepted
    · rename_i shape _
      split at accepted
      · obtain rfl := Except.ok.inj accepted
        rw [shape]
      · cases accepted
    · cases accepted

namespace Combination

variable {check relation} (combination : Combination check relation)

/-- An accepted combination has the type of its left operand. Only a difference is not asked for its
relations. -/
theorem shape :
    combination.expr =
        .mk combination.left.type (.combine combination.op combination.left combination.right) ∧
      (combination.op ≠ .difference → foreign (combinatorRelation relation combination.left)
        (combinatorRelation relation combination.right) = false) := by
  obtain ⟨op, lhs, rhs, left, right, expr, leftChecked, rightChecked, leftView, rightView, accepted⟩ :=
    combination
  have chain (operator : CombinatorOp)
      (accepted : checkCombination check relation [lhs, rhs] [operator] = .ok expr) :
      foreign (combinatorRelation relation left) (combinatorRelation relation right) = false ∧
        expr = .mk left.type (.combine operator.combine left right) := by
    have plain : ¬([operator].count CombinatorOp.union ≠ 0 ∧
        [operator].count CombinatorOp.union ≠ [operator].length) := by
      cases operator <;> decide
    rw [checkCombination, if_neg plain] at accepted
    rw [leftChecked, Codes.ok_bind] at accepted
    split at accepted
    · have step : checkOperand check relation (combinatorRelation relation left) left (rhs, operator) =
          .ok expr := by simpa using accepted
      exact checkOperand_ok check relation rightChecked step
    · cases accepted
  cases op with
  | union =>
    obtain ⟨related, shape⟩ := chain .union accepted
    exact ⟨shape, fun _ => related⟩
  | intersect =>
    obtain ⟨related, shape⟩ := chain .intersect accepted
    exact ⟨shape, fun _ => related⟩
  | difference =>
    rw [checkCombined, checkSub, leftChecked, Codes.ok_bind, rightChecked, Codes.ok_bind] at accepted
    split at accepted
    · rename_i shape _
      obtain rfl := Except.ok.inj accepted
      exact ⟨by rw [shape], fun other => absurd rfl other⟩
    · rename_i other
      exfalso
      generalize left.type = first at leftView other
      generalize right.type = second at rightView other
      cases first <;> cases leftView
      cases second <;> cases rightView
      exact other _ _ _ _ rfl rfl

variable (lib : Library) (env : Environment) (frames : Frames)

/-- The rows of the two operands. -/
def Streams (left right : List RowScope) : Prop :=
  (combination.left.meaning lib env).evalView frames = .ok left ∧
    (combination.right.meaning lib env).evalView frames = .ok right

/-- A combination is the set algebra of the identities of its operands, in the order and with the row type of
the left operand, and its operands do not name different relations. -/
structure Algebraic : Prop where
  identities : ∀ left right rows, combination.Streams lib env frames left right →
    (combination.expr.meaning lib env).evalView frames = .ok rows →
      names rows = combination.op.ordered (names left) (names right)
  projection : ∀ left right rows, combination.Streams lib env frames left right →
    (combination.expr.meaning lib env).evalView frames = .ok rows →
      admits combination.left.type (.collection (left.map RowScope.row)) = true →
        admits combination.expr.type (.collection (rows.map RowScope.row)) = true
  relations : foreign (combinatorRelation relation combination.left)
    (combinatorRelation relation combination.right) = false

/-- No kept row comes from below another row, the new rows of a union have the row type of the left operand,
and a difference has operands of one relation. -/
structure Uniform : Prop where
  flat : ∀ left right, combination.Streams lib env frames left right →
    ∀ scope, Keeps combination.op left right scope → ¬scope.Nested
  shaped : ∀ left right, combination.Streams lib env frames left right → combination.op = .union →
    admits combination.left.type (.collection (left.map RowScope.row)) = true →
      ∀ scope, identityOf scope.identity ∉ Expr.identities left →
        right.find? (fun other => alike other scope) = some scope →
          admits combination.left.type (.collection [scope.row]) = true
  related : combination.op = .difference → foreign (combinatorRelation relation combination.left)
    (combinatorRelation relation combination.right) = false

end Combination

/-- Rows belong to a type of views one by one. -/
theorem admits_collection {type : ExprType} (view : isView type = true) {rows : List Row} :
    admits type (.collection rows) = true ↔ ∀ row ∈ rows, admits type (.collection [row]) = true := by
  cases type <;> cases view
  simp [admits]

/-- A combination is the set algebra of its operands exactly when they are uniform. -/
theorem combination_iff (lib : Library) (env : Environment) (frames : Frames)
    (combination : Combination check relation) :
    combination.Algebraic lib env frames ↔ combination.Uniform lib env frames := by
  obtain ⟨shape, related⟩ := combination.shape
  have delivered {left right rows : List RowScope} (streams : combination.Streams lib env frames left right) :
      (combination.expr.meaning lib env).evalView frames = .ok rows ↔
        (combined combination.op left right).map (fun scope => RowScope.bare scope.row) = rows := by
    rw [shape]
    exact view_combine lib env streams.1 streams.2
  have named {left right : List RowScope} (streams : combination.Streams lib env frames left right) :=
    @names_delivered_iff combination.op _ _ (view_composed lib env combination.left streams.1)
      (view_composed lib env combination.right streams.2)
  have type : combination.expr.type = combination.left.type := by
    rw [shape]
    rfl
  have rowsOf (left right : List RowScope) :
      ((combined combination.op left right).map fun scope => RowScope.bare scope.row).map RowScope.row =
        (combined combination.op left right).map RowScope.row := by
    rw [List.map_map]
    rfl
  constructor
  · intro algebraic
    refine ⟨fun left right streams => ?_, fun left right streams union formed scope fresh first => ?_,
      fun _ => algebraic.relations⟩
    · exact (named streams).mp (algebraic.identities left right _ streams ((delivered streams).mpr rfl))
    · have formed := algebraic.projection left right _ streams ((delivered streams).mpr rfl) formed
      rw [rowsOf, type] at formed
      have kept : scope ∈ combined combination.op left right := by
        rw [mem_combined, union]
        exact .inr ⟨fresh, first⟩
      exact (admits_collection combination.leftView).mp formed _ (List.mem_map_of_mem kept)
  · intro uniform
    refine ⟨fun left right rows streams view => ?_, fun left right rows streams view formed => ?_, ?_⟩
    · obtain rfl := (delivered streams).mp view
      exact (named streams).mpr (uniform.flat left right streams)
    · obtain rfl := (delivered streams).mp view
      rw [rowsOf, type]
      refine (admits_collection combination.leftView).mpr fun row inside => ?_
      obtain ⟨scope, kept, rfl⟩ := List.mem_map.mp inside
      have kept := mem_combined.mp kept
      have own : scope ∈ left → admits combination.left.type (.collection [scope.row]) = true := fun listed =>
        (admits_collection combination.leftView).mp formed _ (List.mem_map_of_mem listed)
      cases operator : combination.op with
      | union =>
        rw [operator] at kept
        rcases kept with listed | ⟨fresh, first⟩
        · exact own listed
        · exact uniform.shaped left right streams operator formed scope fresh first
      | intersect =>
        rw [operator] at kept
        exact own kept.1
      | difference =>
        rw [operator] at kept
        exact own kept.1
    · by_cases difference : combination.op = .difference
      · exact uniform.related difference
      · exact related difference

end Combinations

section Sample

/-- An environment with a root and nothing else. -/
def rootedEnvironment (root : Row) : Environment where
  root := root
  param := fun _ => none
  structural := fun _ => none
  imported := fun _ => none
  binding := fun _ => none
  now := ⟨wrapTicks 0, .seconds⟩
  uuid := fun _ => ⟨List.replicate 16 0, by decide⟩
  decimalDivision := .halfEven
  temporal := fun rows _ _ => .ok rows
  temporalByName := fun _ _ => none
  keyring := fun _ _ => .ok []
  blobPlacement := fun _ => .error .noBlobPlacement
  hostCall := fun _ _ _ => .error .noHostDispatch

/-- A library that changes no text. -/
def plainLibrary : Library :=
  ⟨id, id, id, id, fun _ => none, fun _ first _ => first⟩

def keyedRow (key : String) (cells : List (String × Cell)) : Row :=
  .mk [.key (.text key)] (.text key) cells []

/-- A root with one group, which has one task. -/
def groupedRoot : Row :=
  keyedRow "root" [("groups", .collection [keyedRow "first" [("tasks", .collection [keyedRow "task" []])]])]

def taskView : ExprType :=
  .view [] (some (.scalar .text))

def groupView : ExprType :=
  .view [("tasks", taskView)] (some (.scalar .text))

/-- The tasks of all groups. -/
def groupTasks : TypedExpr :=
  .mk taskView (.traverse (.mk groupView (.field (.mk (.row [("groups", groupView)] none) .root) "groups")) "tasks")

/-- The checker accepts a union of two views of tasks when the first one names no relation. -/
theorem tasks_united {left right : TypedKind TypedExpr}
    (unnamed : combinatorRelation (fun _ => none) (.mk taskView left) = none) :
    checkCombined Except.ok (fun _ => none) .union (.mk taskView left) (.mk taskView right) =
      .ok (.mk taskView (.combine .union (.mk taskView left) (.mk taskView right))) := by
  have step : checkOperand Except.ok (fun _ => none) none (.mk taskView left) (.mk taskView right, .union) =
      .ok (.mk taskView (.combine .union (.mk taskView left) (.mk taskView right))) := by
    rw [checkOperand, Codes.ok_bind, if_neg (by simp [foreign])]
    rfl
  rw [checkCombined, checkCombination, if_neg (by decide)]
  show (checkOperand Except.ok (fun _ => none) (combinatorRelation (fun _ => none) (.mk taskView left))
    (.mk taskView left) (.mk taskView right, .union) >>= pure) = _
  rw [unnamed, step]
  rfl

/-- The tasks of all groups, twice. -/
def twiceTasks : Combination (E := TypedExpr) Except.ok (fun _ => none) where
  op := .union
  lhs := groupTasks
  rhs := groupTasks
  left := groupTasks
  right := groupTasks
  expr := .mk taskView (.combine .union groupTasks groupTasks)
  leftChecked := rfl
  rightChecked := rfl
  leftView := rfl
  rightView := rfl
  accepted := tasks_united (by simp [combinatorRelation])

/-- A union of a traversal with itself loses the identities of the outer rows. -/
theorem union_loses_outer :
    ¬ twiceTasks.Algebraic plainLibrary (rootedEnvironment groupedRoot) [] := by
  intro algebraic
  have same := algebraic.identities _ _ _ ⟨rfl, rfl⟩ rfl
  have lengths := congrArg (List.map List.length) same
  exact absurd lengths (by decide)

/-- The groups of the root. -/
def groupsView : TypedExpr :=
  .mk groupView (.field (.mk (.row [("groups", groupView)] none) .root) "groups")

/-- The groups of the root without the union of these groups with themselves. -/
theorem SetTree.delivers_denoted_groups :
    ∃ groups : Set Identity, Delivers plainLibrary (rootedEnvironment groupedRoot) [] groupsView groups ∧
      Delivers plainLibrary (rootedEnvironment groupedRoot) []
        (.mk groupView (.combine .difference groupsView (.mk groupView (.combine .union groupsView groupsView))))
        (groups \ (groups ∪ groups)) := by
  obtain ⟨groups, views⟩ : ∃ groups, Delivers plainLibrary (rootedEnvironment groupedRoot) [] groupsView groups :=
    ⟨_, _, rfl, rfl⟩
  have each : ∀ expr ∈ [groupsView, groupsView, groupsView], expr = groupsView := by simp
  let tree := SetTree.combine groupView .difference (.view groupsView)
    (.combine groupView .union (.view groupsView) (.view groupsView))
  have direct : ∀ expr ∈ tree.views, traverses expr = false := fun expr inside => each expr inside ▸ rfl
  have delivered : ∀ expr ∈ tree.views, Delivers plainLibrary (rootedEnvironment groupedRoot) [] expr groups :=
    fun expr inside => each expr inside ▸ views
  exact ⟨groups, views, SetTree.delivers_denoted tree direct delivered⟩

end Sample

end Liasse.Expr

/-
This file compares the rows of a view as a value with its rows as a stream.
-/

import Liasse.Expr.Ordering

namespace Liasse.Expr

open Liasse.Runtime

section Checks

end Checks

section Paths

variable (lib : Library) (env : Environment) (frames : Frames)

/-- A row with the identity that it has for the operation around it. -/
abbrev Occurrence := Row × RowId

/-- The rows of a value, with their own identities, or nothing when the evaluation fails. -/
def valueOccurrences (expr : TypedExpr) : Option (List Occurrence) :=
  (Delivery.rows lib env frames ⟨.value, expr⟩).toOption.map fun rows => rows.map fun row => (row, row.id)

/-- The rows of a stream, with their identities in the stream, or nothing when the evaluation fails. -/
def viewOccurrences (expr : TypedExpr) : Option (List Occurrence) :=
  ((expr.meaning lib env).evalView frames).toOption.map fun scopes =>
    scopes.map fun scope => (scope.row, scope.identity)

/-- Both contexts give the same rows in the same order with the same identities. -/
def Agrees (expr : TypedExpr) : Prop :=
  valueOccurrences lib env frames expr = viewOccurrences lib env frames expr

end Paths

section Agreement

variable {lib : Library} {env : Environment} {frames : Frames}

/-- The base of a filter. -/
def filtered : TypedExpr → Option TypedExpr
  | .mk _ (.select base (.bind _ _)) => some base
  | _ => none

end Agreement

section Sample

end Sample

end Liasse.Expr

/-
This file defines the syntax trees of expressions and of statements, without their spans, the depth of their nodes and
the walks that the checker makes over them.
-/

import Mathlib.Data.Nat.Notation

namespace Liasse.Syntax

/-- A name, with the mark of a structural one. -/
structure Ident where
  text : String
  structural : Bool
deriving DecidableEq

inductive UnaryOp
  | not
  | neg
deriving DecidableEq

inductive BinaryOp
  | or
  | and
  | eq
  | ne
  | lt
  | le
  | gt
  | ge
  | within
  | add
  | sub
  | mul
  | div
  | rem
  | fallback
deriving DecidableEq

/-- The operators that share one precedence level. -/
inductive CombinatorOp
  | union
  | intersect
deriving DecidableEq

mutual

/-- An expression. Numbers keep their source text. -/
inductive Expr
  | none
  | bool (value : Bool)
  | int (text : String)
  | decimal (text : String)
  | str (text : String)
  | list (items : List Expr)
  | object (members : List BlockMember)
  | root
  | current
  | parent (depth : ℕ)
  | imported (name : Ident)
  | param (name : Ident)
  | structural (name : Ident)
  | name (name : Ident)
  | field (base : Expr) (member : Ident)
  | sameName (base : Expr) (member : Ident)
  | select (base : Expr) (selector : Selector)
  | call (callee : Expr) (args : List Arg)
  | block (base : Expr) (members : List BlockMember)
  | unary (op : UnaryOp) (operand : Expr)
  | binary (op : BinaryOp) (lhs rhs : Expr)
  | ternary (cond yes otherwise : Expr)
  | combination (operands : List Expr) (operators : List CombinatorOp)

/-- A selection by keys, or a row binding with an optional condition. -/
inductive Selector
  | keys (keys : List Expr)
  | bind (name : Ident) (condition : Option Expr)

inductive Arg
  | positional (value : Expr)
  | named (name : Ident) (value : Expr)

/-- A member of a projection, of a patch or of an object. -/
inductive BlockMember
  | directive (name : Ident) (value : Expr)
  | clear (name : Ident)
  | named (name : Ident) (value : Option Expr)
  | assign (target : Ident) (value : Expr)
  | shorthand (value : Expr)

end

/-- A mutation statement or a bare expression. -/
inductive Stmt
  | returned (value : Expr)
  | assign (target value : Expr)
  | clear (target : Expr)
  | bare (value : Expr)

section Depth

mutual

/-- The number of nodes on the longest way down from a node. -/
def Expr.depth : Expr → ℕ
  | .list items => depthList items + 1
  | .object members => depthMembers members + 1
  | .field base _ => base.depth + 1
  | .sameName base _ => base.depth + 1
  | .select base selector => max base.depth selector.depth + 1
  | .call callee args => max callee.depth (depthArgs args) + 1
  | .block base members => max base.depth (depthMembers members) + 1
  | .unary _ operand => operand.depth + 1
  | .binary _ lhs rhs => max lhs.depth rhs.depth + 1
  | .ternary cond yes otherwise => max cond.depth (max yes.depth otherwise.depth) + 1
  | .combination operands _ => depthList operands + 1
  | _ => 1
termination_by structural expr => expr

def Selector.depth : Selector → ℕ
  | .keys keys => depthList keys
  | .bind _ condition => depthOption condition
termination_by structural selector => selector

def depthOption : Option Expr → ℕ
  | none => 0
  | some expr => expr.depth
termination_by structural expr => expr

def depthList : List Expr → ℕ
  | [] => 0
  | expr :: rest => max expr.depth (depthList rest)
termination_by structural exprs => exprs

def Arg.depth : Arg → ℕ
  | .positional value => value.depth
  | .named _ value => value.depth
termination_by structural arg => arg

def depthArgs : List Arg → ℕ
  | [] => 0
  | arg :: rest => max arg.depth (depthArgs rest)
termination_by structural args => args

def BlockMember.depth : BlockMember → ℕ
  | .directive _ value => value.depth
  | .clear _ => 0
  | .named _ value => depthOption value
  | .assign _ value => value.depth
  | .shorthand value => value.depth
termination_by structural member => member

def depthMembers : List BlockMember → ℕ
  | [] => 0
  | member :: rest => max member.depth (depthMembers rest)
termination_by structural members => members

end

/-- The depth of the deepest expression of a statement. -/
def Stmt.depth : Stmt → ℕ
  | .returned value => value.depth
  | .assign target value => max target.depth value.depth
  | .clear target => target.depth
  | .bare value => value.depth

end Depth

section Search

variable (verdict : Expr → Option Bool)

mutual

/-- A walk that some node decides, or else the nodes below it. -/
def search : Expr → Bool
  | .field base member => (verdict (.field base member)).getD (search base)
  | .sameName base member => (verdict (.sameName base member)).getD (search base)
  | .select base selector => (verdict (.select base selector)).getD (search base || searchSelector selector)
  | .call callee args => (verdict (.call callee args)).getD (search callee || searchArgs args)
  | .block base members => (verdict (.block base members)).getD (search base || searchMembers members)
  | .unary op operand => (verdict (.unary op operand)).getD (search operand)
  | .binary op lhs rhs => (verdict (.binary op lhs rhs)).getD (search lhs || search rhs)
  | .ternary cond yes otherwise =>
    (verdict (.ternary cond yes otherwise)).getD (search cond || search yes || search otherwise)
  | .list items => (verdict (.list items)).getD (searchList items)
  | .object members => (verdict (.object members)).getD (searchMembers members)
  | .combination operands operators =>
    (verdict (.combination operands operators)).getD (searchList operands)
  | leaf => (verdict leaf).getD false
termination_by structural expr => expr

def searchSelector : Selector → Bool
  | .keys keys => searchList keys
  | .bind _ condition => searchOption condition
termination_by structural selector => selector

def searchOption : Option Expr → Bool
  | none => false
  | some expr => search expr
termination_by structural expr => expr

def searchList : List Expr → Bool
  | [] => false
  | expr :: rest => search expr || searchList rest
termination_by structural exprs => exprs

def searchArg : Arg → Bool
  | .positional value => search value
  | .named _ value => search value
termination_by structural arg => arg

def searchArgs : List Arg → Bool
  | [] => false
  | arg :: rest => searchArg arg || searchArgs rest
termination_by structural args => args

def searchMember : BlockMember → Bool
  | .directive _ value => search value
  | .named _ value => searchOption value
  | .assign _ value => search value
  | .shorthand value => search value
  | .clear _ => false
termination_by structural member => member

def searchMembers : List BlockMember → Bool
  | [] => false
  | member :: rest => searchMember member || searchMembers rest
termination_by structural members => members

end

end Search

end Liasse.Syntax

/-
This file defines the typed expressions. Their nodes are shapes over the parts of a node, so that a walk
over an expression is one fold.
-/

import Liasse.Expr.Tree

namespace Liasse.Expr

open Liasse.Runtime

section Operations

/-- The numeric class of an operator. -/
inductive NumClass
  | int
  | decimal
  | textConcat
  | timeShift
deriving DecidableEq

inductive ArithOp
  | add
  | sub
  | mul
  | div
  | rem
deriving DecidableEq

inductive CmpOp
  | eq
  | ne
  | lt
  | le
  | gt
  | ge
deriving DecidableEq

inductive LogicOp
  | and
  | or
deriving DecidableEq

inductive AggFunc
  | count
  | sum
  | avg
  | min
  | max
  | distinct
deriving DecidableEq

/-- A combination of two views. -/
inductive CombineOp
  | union
  | intersect
  | difference
deriving DecidableEq

inductive BuiltinFn
  | size
  | has
  | assert
  | stringLower
  | stringUpper
  | stringCasefold
  | stringTrim
  | timeDuration
deriving DecidableEq

/-- A member of a blob: a part of its descriptor, or an observation of where it is stored. -/
inductive BlobMember
  | sha512
  | bytes
  | media
  | name
  | satisfied
  | stored
  | surplus
deriving DecidableEq

/-- A selector of the versions of a keyring. -/
inductive KeyringSelector
  | current
  | accepted
  | publicKeys
  | versions
deriving DecidableEq

/-- The place of a call in its source. -/
structure CallSite where
  source : Nat
  start : Nat
  stop : Nat
deriving DecidableEq

end Operations

section Shapes

variable (E : Type)

/-- A selection by keys, or by a bound name with an optional condition. -/
inductive TypedSelector
  | keys (keys : List E)
  | bind (name : String) (condition : Option E)

/-- A selection of rows by their intervals. -/
inductive TypedTemporal
  | at (instant : E)
  | between (start stop : E)
  | all

/-- A projection: the names of its group key, its outputs in the order of their dependencies, its capacity,
its sort keys with their directions and its bounds. -/
structure Projection where
  key : List String
  outputs : List (String × E)
  quantity : Option E
  sort : List (E × Bool)
  skip : Option Nat
  limit : Option Nat

/-- A resolved operation over its parts. -/
inductive TypedKind
  | literal (value : Value)
  | root
  | current
  | parent (depth : Nat)
  | param (name : String)
  | structural (name : String)
  | imported (name : String)
  | scopeBinding (name : String)
  | localBinding (name : String)
  | field (base : E) (name : String)
  | select (base : E) (selector : TypedSelector E)
  | traverse (base : E) (member : String)
  | arith (op : ArithOp) (numbers : NumClass) (lhs rhs : E)
  | neg (numbers : NumClass) (operand : E)
  | compare (op : CmpOp) (lhs rhs : E)
  | logic (op : LogicOp) (lhs rhs : E)
  | not (operand : E)
  | within (needle haystack : E)
  | ternary (cond yes otherwise : E)
  | aggregate (func : AggFunc) (source : E) (field : Option String)
  | project (source : E) (projection : Projection E)
  | combine (op : CombineOp) (lhs rhs : E)
  | fallback (primary other : E)
  | emptyView
  | list (items : List E)
  | struct (fields : List (String × E))
  | composite (order : List String) (source : E)
  | builtin (func : BuiltinFn) (args : List E)
  | hostCall (space function : String) (args : List E)
  | now
  | uuid (site : CallSite)
  | temporal (base : E) (query : TypedTemporal E)
  | key (base : E)
  | keyring (base : E) (selector : KeyringSelector)
  | blobMember (base : E) (member : BlobMember)

end Shapes

/-- A typed expression has the type and the operation that the checker has resolved. -/
inductive TypedExpr
  | mk (type : ExprType) (kind : TypedKind TypedExpr)

def TypedExpr.type : TypedExpr → ExprType
  | .mk type _ => type

def TypedExpr.kind : TypedExpr → TypedKind TypedExpr
  | .mk _ kind => kind

section Maps

variable {E F : Type} (change : E → F)

def TypedSelector.map : TypedSelector E → TypedSelector F
  | .keys operands => .keys (operands.map change)
  | .bind name condition => .bind name (condition.map change)

def TypedTemporal.map : TypedTemporal E → TypedTemporal F
  | .at instant => .at (change instant)
  | .between start stop => .between (change start) (change stop)
  | .all => .all

def Projection.map (projection : Projection E) : Projection F where
  key := projection.key
  outputs := projection.outputs.map fun output => (output.1, change output.2)
  quantity := projection.quantity.map change
  sort := projection.sort.map fun rank => (change rank.1, rank.2)
  skip := projection.skip
  limit := projection.limit

/-- An operation with changed parts. -/
def TypedKind.map : TypedKind E → TypedKind F
  | .literal value => .literal value
  | .root => .root
  | .current => .current
  | .parent depth => .parent depth
  | .param name => .param name
  | .structural name => .structural name
  | .imported name => .imported name
  | .scopeBinding name => .scopeBinding name
  | .localBinding name => .localBinding name
  | .field base name => .field (change base) name
  | .select base selector => .select (change base) (selector.map change)
  | .traverse base member => .traverse (change base) member
  | .arith op numbers lhs rhs => .arith op numbers (change lhs) (change rhs)
  | .neg numbers operand => .neg numbers (change operand)
  | .compare op lhs rhs => .compare op (change lhs) (change rhs)
  | .logic op lhs rhs => .logic op (change lhs) (change rhs)
  | .not operand => .not (change operand)
  | .within needle haystack => .within (change needle) (change haystack)
  | .ternary cond yes otherwise => .ternary (change cond) (change yes) (change otherwise)
  | .aggregate func source member => .aggregate func (change source) member
  | .project source projection => .project (change source) (projection.map change)
  | .combine op lhs rhs => .combine op (change lhs) (change rhs)
  | .fallback primary other => .fallback (change primary) (change other)
  | .emptyView => .emptyView
  | .list items => .list (items.map change)
  | .struct fields => .struct (fields.map fun member => (member.1, change member.2))
  | .composite order source => .composite order (change source)
  | .builtin func args => .builtin func (args.map change)
  | .hostCall space function args => .hostCall space function (args.map change)
  | .now => .now
  | .uuid site => .uuid site
  | .temporal base query => .temporal (change base) (query.map change)
  | .key base => .key (change base)
  | .keyring base selector => .keyring (change base) selector
  | .blobMember base member => .blobMember (change base) member

end Maps

namespace TypedExpr

variable {A : Type}

mutual

/-- The walk over an expression from its leaves. -/
def fold (algebra : ExprType → TypedKind A → A) : TypedExpr → A
  | .mk type kind => algebra type (foldKind algebra kind)
termination_by structural expr => expr

def foldKind (algebra : ExprType → TypedKind A → A) : TypedKind TypedExpr → TypedKind A
  | .literal value => .literal value
  | .root => .root
  | .current => .current
  | .parent depth => .parent depth
  | .param name => .param name
  | .structural name => .structural name
  | .imported name => .imported name
  | .scopeBinding name => .scopeBinding name
  | .localBinding name => .localBinding name
  | .field base name => .field (fold algebra base) name
  | .select base selector => .select (fold algebra base) (foldSelector algebra selector)
  | .traverse base member => .traverse (fold algebra base) member
  | .arith op numbers lhs rhs => .arith op numbers (fold algebra lhs) (fold algebra rhs)
  | .neg numbers operand => .neg numbers (fold algebra operand)
  | .compare op lhs rhs => .compare op (fold algebra lhs) (fold algebra rhs)
  | .logic op lhs rhs => .logic op (fold algebra lhs) (fold algebra rhs)
  | .not operand => .not (fold algebra operand)
  | .within needle haystack => .within (fold algebra needle) (fold algebra haystack)
  | .ternary cond yes otherwise =>
    .ternary (fold algebra cond) (fold algebra yes) (fold algebra otherwise)
  | .aggregate func source field => .aggregate func (fold algebra source) field
  | .project source projection => .project (fold algebra source) (foldProjection algebra projection)
  | .combine op lhs rhs => .combine op (fold algebra lhs) (fold algebra rhs)
  | .fallback primary other => .fallback (fold algebra primary) (fold algebra other)
  | .emptyView => .emptyView
  | .list items => .list (foldList algebra items)
  | .struct fields => .struct (foldFields algebra fields)
  | .composite order source => .composite order (fold algebra source)
  | .builtin func args => .builtin func (foldList algebra args)
  | .hostCall space function args => .hostCall space function (foldList algebra args)
  | .now => .now
  | .uuid site => .uuid site
  | .temporal base query => .temporal (fold algebra base) (foldTemporal algebra query)
  | .key base => .key (fold algebra base)
  | .keyring base selector => .keyring (fold algebra base) selector
  | .blobMember base member => .blobMember (fold algebra base) member
termination_by structural kind => kind

def foldSelector (algebra : ExprType → TypedKind A → A) : TypedSelector TypedExpr → TypedSelector A
  | .keys keys => .keys (foldList algebra keys)
  | .bind name condition => .bind name (foldOption algebra condition)
termination_by structural selector => selector

def foldTemporal (algebra : ExprType → TypedKind A → A) : TypedTemporal TypedExpr → TypedTemporal A
  | .at instant => .at (fold algebra instant)
  | .between start stop => .between (fold algebra start) (fold algebra stop)
  | .all => .all
termination_by structural query => query

def foldProjection (algebra : ExprType → TypedKind A → A) : Projection TypedExpr → Projection A
  | ⟨key, outputs, quantity, sort, skip, limit⟩ =>
    ⟨key, foldFields algebra outputs, foldOption algebra quantity, foldSorts algebra sort, skip, limit⟩
termination_by structural projection => projection

def foldOption (algebra : ExprType → TypedKind A → A) : Option TypedExpr → Option A
  | none => none
  | some expr => some (fold algebra expr)
termination_by structural expr => expr

def foldList (algebra : ExprType → TypedKind A → A) : List TypedExpr → List A
  | [] => []
  | expr :: rest => fold algebra expr :: foldList algebra rest
termination_by structural exprs => exprs

def foldFields (algebra : ExprType → TypedKind A → A) : List (String × TypedExpr) → List (String × A)
  | [] => []
  | field :: rest => foldField algebra field :: foldFields algebra rest
termination_by structural fields => fields

def foldField (algebra : ExprType → TypedKind A → A) : String × TypedExpr → String × A
  | (name, expr) => (name, fold algebra expr)
termination_by structural field => field

def foldSorts (algebra : ExprType → TypedKind A → A) : List (TypedExpr × Bool) → List (A × Bool)
  | [] => []
  | key :: rest => foldSort algebra key :: foldSorts algebra rest
termination_by structural keys => keys

def foldSort (algebra : ExprType → TypedKind A → A) : TypedExpr × Bool → A × Bool
  | (expr, descending) => (fold algebra expr, descending)
termination_by structural key => key

end

variable {algebra : ExprType → TypedKind A → A}

theorem foldOption_eq (expr : Option TypedExpr) : foldOption algebra expr = expr.map (fold algebra) := by
  cases expr <;> rfl

theorem foldList_eq (exprs : List TypedExpr) : foldList algebra exprs = exprs.map (fold algebra) := by
  induction exprs with
  | nil => rfl
  | cons expr rest earlier => rw [foldList, earlier, List.map_cons]

theorem foldFields_eq (fields : List (String × TypedExpr)) :
    foldFields algebra fields = fields.map fun field => (field.1, fold algebra field.2) := by
  induction fields with
  | nil => rfl
  | cons field rest earlier => rw [foldFields, earlier, List.map_cons, foldField]

theorem foldSorts_eq (keys : List (TypedExpr × Bool)) :
    foldSorts algebra keys = keys.map fun key => (fold algebra key.1, key.2) := by
  induction keys with
  | nil => rfl
  | cons key rest earlier => rw [foldSorts, earlier, List.map_cons, foldSort]

/-- The walk over an operation walks over its parts. -/
theorem foldKind_eq (kind : TypedKind TypedExpr) : foldKind algebra kind = kind.map (fold algebra) := by
  cases kind with
  | select base selector =>
    cases selector <;>
      simp only [foldKind, foldSelector, TypedKind.map, TypedSelector.map, foldList_eq, foldOption_eq]
  | temporal base query =>
    cases query <;> simp only [foldKind, foldTemporal, TypedKind.map, TypedTemporal.map]
  | project source projection =>
    cases projection
    simp only [foldKind, foldProjection, TypedKind.map, Projection.map, foldFields_eq, foldOption_eq,
      foldSorts_eq]
  | list items => simp only [foldKind, TypedKind.map, foldList_eq]
  | struct fields => simp only [foldKind, TypedKind.map, foldFields_eq]
  | builtin func args => simp only [foldKind, TypedKind.map, foldList_eq]
  | hostCall space function args => simp only [foldKind, TypedKind.map, foldList_eq]
  | _ => rfl

theorem fold_mk (type : ExprType) (kind : TypedKind TypedExpr) :
    fold algebra (.mk type kind) = algebra type (kind.map (fold algebra)) := by
  rw [fold, foldKind_eq]

end TypedExpr

section Parts

variable {E : Type}

def TypedSelector.parts : TypedSelector E → List E
  | .keys operands => operands
  | .bind _ condition => condition.toList

def TypedTemporal.parts : TypedTemporal E → List E
  | .at instant => [instant]
  | .between start stop => [start, stop]
  | .all => []

def Projection.parts (projection : Projection E) : List E :=
  projection.outputs.map Prod.snd ++ projection.quantity.toList ++ projection.sort.map Prod.fst

/-- The parts of an operation. -/
def TypedKind.parts : TypedKind E → List E
  | .field base _ => [base]
  | .select base selector => base :: selector.parts
  | .traverse base _ => [base]
  | .arith _ _ lhs rhs => [lhs, rhs]
  | .neg _ operand => [operand]
  | .compare _ lhs rhs => [lhs, rhs]
  | .logic _ lhs rhs => [lhs, rhs]
  | .not operand => [operand]
  | .within needle haystack => [needle, haystack]
  | .ternary cond yes otherwise => [cond, yes, otherwise]
  | .aggregate _ source _ => [source]
  | .project source projection => source :: projection.parts
  | .combine _ lhs rhs => [lhs, rhs]
  | .fallback primary other => [primary, other]
  | .list items => items
  | .struct fields => fields.map Prod.snd
  | .composite _ source => [source]
  | .builtin _ args => args
  | .hostCall _ _ args => args
  | .temporal base query => base :: query.parts
  | .key base => [base]
  | .keyring base _ => [base]
  | .blobMember base _ => [base]
  | _ => []

end Parts

namespace TypedExpr

theorem sizeOf_lt_of_mem_fields {fields : List (String × TypedExpr)} {part : TypedExpr}
    (inside : part ∈ fields.map Prod.snd) : sizeOf part < sizeOf fields := by
  obtain ⟨⟨name, expr⟩, listed, rfl⟩ := List.mem_map.mp inside
  have smaller := List.sizeOf_lt_of_mem listed
  rw [Prod.mk.sizeOf_spec] at smaller
  simp only
  omega

/-- The parts of an operation are smaller. -/
theorem sizeOf_lt_of_mem_parts {kind : TypedKind TypedExpr} {part : TypedExpr} (inside : part ∈ kind.parts) :
    sizeOf part < sizeOf kind := by
  cases kind with
  | select base selector =>
    cases selector with
    | keys operands =>
      simp only [TypedKind.select.sizeOf_spec, TypedSelector.keys.sizeOf_spec]
      rcases List.mem_cons.mp inside with rfl | inside
      · omega
      · have smaller : sizeOf part < sizeOf operands := List.sizeOf_lt_of_mem inside
        omega
    | bind name condition =>
      simp only [TypedKind.select.sizeOf_spec, TypedSelector.bind.sizeOf_spec]
      rcases List.mem_cons.mp inside with rfl | inside
      · omega
      · cases condition with
        | none => cases inside
        | some condition =>
          obtain rfl := List.mem_singleton.mp inside
          simp only [Option.some.sizeOf_spec]
          omega
  | project source projection =>
    obtain ⟨key, outputs, quantity, sort, skip, limit⟩ := projection
    simp only [TypedKind.project.sizeOf_spec, Projection.mk.sizeOf_spec]
    rcases List.mem_cons.mp inside with rfl | inside
    · omega
    · rcases List.mem_append.mp inside with inside | inside
      · rcases List.mem_append.mp inside with inside | inside
        · have smaller := sizeOf_lt_of_mem_fields inside
          simp only at smaller
          omega
        · cases quantity with
          | none => cases inside
          | some quantity =>
            obtain rfl := List.mem_singleton.mp inside
            simp only [Option.some.sizeOf_spec]
            omega
      · obtain ⟨⟨expr, descending⟩, listed, rfl⟩ := List.mem_map.mp inside
        have smaller := List.sizeOf_lt_of_mem listed
        rw [Prod.mk.sizeOf_spec] at smaller
        simp only at smaller ⊢
        omega
  | list items =>
    have smaller : sizeOf part < sizeOf items := List.sizeOf_lt_of_mem inside
    simp only [TypedKind.list.sizeOf_spec]
    omega
  | struct fields =>
    have smaller := sizeOf_lt_of_mem_fields inside
    simp only [TypedKind.struct.sizeOf_spec]
    omega
  | builtin func args =>
    have smaller : sizeOf part < sizeOf args := List.sizeOf_lt_of_mem inside
    simp only [TypedKind.builtin.sizeOf_spec]
    omega
  | hostCall space function args =>
    have smaller : sizeOf part < sizeOf args := List.sizeOf_lt_of_mem inside
    simp only [TypedKind.hostCall.sizeOf_spec]
    omega
  | temporal base query =>
    cases query <;> simp [TypedKind.parts, TypedTemporal.parts] at inside <;>
      rcases inside with rfl | rfl | rfl <;> simp +arith
  | arith | compare | logic | within | combine | fallback =>
    simp only [TypedKind.parts, List.mem_cons, List.not_mem_nil, or_false] at inside
    rcases inside with rfl | rfl <;> simp +arith
  | ternary =>
    simp only [TypedKind.parts, List.mem_cons, List.not_mem_nil, or_false] at inside
    rcases inside with rfl | rfl | rfl <;> simp +arith
  | field | traverse | neg | not | aggregate | composite | key | keyring | blobMember =>
    obtain rfl := List.mem_singleton.mp inside
    simp +arith
  | _ => cases inside

/-- The induction over expressions assumes the statement of each part. -/
theorem induct {statement : TypedExpr → Prop}
    (step : ∀ type kind, (∀ part ∈ kind.parts, statement part) → statement (.mk type kind))
    (expr : TypedExpr) : statement expr := by
  induction size : sizeOf expr using Nat.strong_induction_on generalizing expr with
  | h count earlier =>
    obtain ⟨type, kind⟩ := expr
    refine step type kind fun part inside => earlier (sizeOf part) ?_ part rfl
    have smaller := sizeOf_lt_of_mem_parts inside
    rw [← size, TypedExpr.mk.sizeOf_spec]
    omega

end TypedExpr

end Liasse.Expr

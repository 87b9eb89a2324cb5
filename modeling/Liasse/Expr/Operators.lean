/-
This file defines what an evaluation reads, and it models the operators over values, the aggregates and the order of a
sorted view.
-/

import Liasse.Codes.Sorted
import Liasse.Expr.Typed
import Liasse.Value.Identity

namespace Liasse.Expr

/-- A condition that fails an evaluation. -/
inductive EvalError
  | divisionByZero
  | cardinality (context : String) (found : Nat)
  | unboundName (kind name : String)
  | shapeMismatch (expected : String)
  | emptyTemporalRange
  | noTemporalIndex
  | noKeyringIndex
  | hostCall (detail : String)
  | noHostDispatch
  | noBlobPlacement
deriving DecidableEq

/-- A temporal selector with its instants. -/
inductive TemporalQuery
  | at (instant : Timestamp)
  | between (start stop : Timestamp)
  | all

/-- Where a blob is stored, whether that satisfies its policy, and the copies outside the policy. -/
structure BlobPlacement where
  stored : List String
  satisfied : Bool
  surplus : List String

/-- The rounding of a decimal quotient. -/
inductive DivisionRounding
  | halfAwayFromZero
  | halfEven
  | towardZero
  | awayFromZero
  | floor
  | ceiling
deriving DecidableEq

/-- The text and number functions outside the evaluator. -/
structure Library where
  toLowercase : String → String
  toUppercase : String → String
  caseFold : String → String
  trim : String → String
  parseDuration : String → Option (Signed 128)
  divide : DivisionRounding → BigDecimal → BigDecimal → BigDecimal

/-- The environment answers each question of an evaluation. -/
structure Environment where
  root : Row
  param : String → Option Cell
  structural : String → Option Cell
  imported : String → Option Cell
  binding : String → Option Cell
  now : Timestamp
  uuid : CallSite → Uuid
  decimalDivision : DivisionRounding
  temporal : List Row → Option String → TemporalQuery → Except EvalError (List Row)
  temporalByName : String → TemporalQuery → Option (List Row)
  keyring : List Row → KeyringSelector → Except EvalError (List Row)
  blobPlacement : BlobDescriptor → Except EvalError BlobPlacement
  hostCall : String → String → List Value → Except EvalError Value

section Frames

/-- A frame has the current value and the bindings, the latest one first. -/
structure EvalFrame where
  current : Cell
  bindings : List (String × Cell)

/-- The frames of an evaluation, with the innermost one first. -/
abbrev Frames := List EvalFrame

/-- A frame with one more binding. -/
def EvalFrame.bind (frame : EvalFrame) (name : String) (value : Cell) : EvalFrame :=
  { frame with bindings := (name, value) :: frame.bindings }

/-- A frame with the bindings of a scope, in their order. -/
def EvalFrame.bindAll (frame : EvalFrame) (binds : List (String × Cell)) : EvalFrame :=
  binds.foldl (fun frame bind => frame.bind bind.1 bind.2) frame

/-- The current value some frames out. -/
def currentAt (frames : Frames) (depth : Nat) : Except EvalError Cell :=
  match frames[depth]? with
  | some frame => .ok frame.current
  | none => .error (.shapeMismatch "a current value at this scope depth")

/-- The innermost binding of a name. -/
def localBinding (frames : Frames) (name : String) : Option Cell :=
  frames.findSome? fun frame => frame.bindings.lookup name

/-- The structural cell of the innermost current row that has it. -/
def rowStructural (frames : Frames) (name : String) : Option Cell :=
  frames.findSome? fun frame =>
    match frame.current with
    | .row row => row.cell ("$" ++ name)
    | _ => none

/-- A row with the bindings that its selections and traversals introduced and its identity in the view. -/
structure RowScope where
  row : Row
  binds : List (String × Cell)
  identity : RowId

/-- The scope of a row of one collection. -/
def RowScope.bare (row : Row) : RowScope :=
  ⟨row, [], row.id⟩

/-- A row from its cells. A later cell replaces an earlier one of its name. -/
def Row.of (id : RowId) (key : Value) (cells : List (String × Cell)) : Row :=
  cells.foldl (fun row cell => row.set cell.1 cell.2) (.mk id key [] [])

/-- A row with a sort tuple. -/
def Row.withSort : Row → List Value → Row
  | .mk id key cells _, sort => .mk id key cells sort

end Frames

/-- What an expression does in an environment: its value, its row stream, the row stream of its selections
and projections over other rows, and the collection that it addresses by name. -/
structure Meaning where
  eval : Frames → Except EvalError Cell
  evalView : Frames → Except EvalError (List RowScope)
  rebaseScopes : List Row → Frames → Except EvalError (List RowScope)
  bindName : Option String

end Liasse.Expr

namespace Liasse

namespace BigDecimal

/-- The two mantissas at the larger scale. -/
def aligned (first second : BigDecimal) : Int × Int × Int :=
  (first.mantissa * 10 ^ (second.scale - first.scale).toNat,
    second.mantissa * 10 ^ (first.scale - second.scale).toNat, max first.scale second.scale)

def add (first second : BigDecimal) : BigDecimal :=
  let (left, right, scale) := aligned first second
  ⟨left + right, scale⟩

def sub (first second : BigDecimal) : BigDecimal :=
  let (left, right, scale) := aligned first second
  ⟨left - right, scale⟩

def mul (first second : BigDecimal) : BigDecimal :=
  ⟨first.mantissa * second.mantissa, first.scale + second.scale⟩

/-- The remainder has the sign of the dividend. -/
def rem (first second : BigDecimal) : BigDecimal :=
  let (left, right, scale) := aligned first second
  ⟨left.tmod right, scale⟩

end BigDecimal

/-- A count of ticks in a machine integer, which wraps. -/
def wrapTicks (ticks : Int) : Signed 128 where
  val := Int.bmod ticks (2 ^ 128)
  low := by
    have low := Int.le_bmod (x := ticks) (m := 2 ^ 128) (by decide)
    omega
  high := by
    have high := Int.bmod_lt (x := ticks) (m := 2 ^ 128) (by decide)
    omega

namespace Expr

section Arithmetic

def concat : Value → Value → Except EvalError Value
  | .text first, .text second => .ok (.text (first ++ second))
  | _, _ => .error (.shapeMismatch "two text operands")

/-- The shift of a timestamp by a sign and a duration, in the ticks of its precision. -/
def shiftTicks (timestamp : Timestamp) (sign : Int) (duration : Signed 128) : Value :=
  let ticks := duration.val.tdiv (1000000000 / timestamp.precision.ticksPerSecond)
  .timestamp ⟨wrapTicks (timestamp.count.val + sign * ticks), timestamp.precision⟩

def timeShift : ArithOp → Value → Value → Except EvalError Value
  | .add, .timestamp timestamp, .duration duration => .ok (shiftTicks timestamp 1 duration)
  | .sub, .timestamp timestamp, .duration duration => .ok (shiftTicks timestamp (-1) duration)
  | .add, .duration duration, .timestamp timestamp => .ok (shiftTicks timestamp 1 duration)
  | _, _, _ => .error (.shapeMismatch "timestamp and duration operands")

def intArith (op : ArithOp) : Value → Value → Except EvalError Value
  | .int first, .int second =>
    match op with
    | .add => .ok (.int (first + second))
    | .sub => .ok (.int (first - second))
    | .mul => .ok (.int (first * second))
    | .div => if second = 0 then .error .divisionByZero else .ok (.int (first.tdiv second))
    | .rem => if second = 0 then .error .divisionByZero else .ok (.int (first.tmod second))
  | _, _ => .error (.shapeMismatch "two int operands")

def toBigDecimal : Value → Except EvalError BigDecimal
  | .int integer => .ok ⟨integer, 0⟩
  | .decimal decimal => .ok decimal
  | _ => .error (.shapeMismatch "a numeric operand")

variable (lib : Library)

def decimalArith (op : ArithOp) (left right : Value) (rounding : DivisionRounding) :
    Except EvalError Value := do
  let first ← toBigDecimal left
  let second ← toBigDecimal right
  match op with
  | .add => pure (.decimal (first.add second))
  | .sub => pure (.decimal (first.sub second))
  | .mul => pure (.decimal (first.mul second))
  | .div =>
    if second.mantissa = 0 then throw .divisionByZero
    else pure (.decimal (lib.divide rounding first second))
  | .rem =>
    if second.mantissa = 0 then throw .divisionByZero
    else pure (.decimal (first.rem second).normalized)

def arith (op : ArithOp) (numbers : NumClass) (left right : Value) (rounding : DivisionRounding) :
    Except EvalError Value :=
  match numbers with
  | .textConcat => concat left right
  | .int => intArith op left right
  | .decimal => decimalArith lib op left right rounding
  | .timeShift => timeShift op left right

def neg : NumClass → Value → Except EvalError Value
  | .int, .int integer => .ok (.int (-integer))
  | .decimal, .decimal decimal => .ok (.decimal ⟨-decimal.mantissa, decimal.scale⟩)
  | _, _ => .error (.shapeMismatch "a numeric operand")

end Arithmetic

section Comparison

/-- The key of the target of a reference. -/
def refTargetKey : Value → Option Value
  | .ref (.scalar key) => some key
  | .ref (.composite components) => some (.composite components)
  | _ => none

mutual

/-- The key behind a reference, through references to references. -/
def targetKey : Value → Value
  | .ref key => targetOf key
  | other => other
termination_by structural value => value

def targetOf : RefKey → Value
  | .scalar key => targetKey key
  | .composite components => .composite components
termination_by structural key => key

end

/-- Numbers of the two classes compare as decimals. -/
def compareNumbers (left right : Value) : Ordering :=
  match left, right with
  | .int first, .decimal second => BigDecimal.cmp ⟨first, 0⟩ second
  | .decimal first, .int second => first.cmp ⟨second, 0⟩
  | _, _ => left.cmp right

/-- One reference compares by the key behind it. Two references compare as values. -/
def compareValues (left right : Value) : Ordering :=
  match refTargetKey left, refTargetKey right with
  | some _, none => compareNumbers (targetKey left) right
  | none, some _ => compareNumbers left (targetKey right)
  | _, _ => compareNumbers left right

def CmpOp.holds : CmpOp → Ordering → Bool
  | .eq, order => order == .eq
  | .ne, order => order != .eq
  | .lt, order => order == .lt
  | .le, order => order != .gt
  | .gt, order => order == .gt
  | .ge, order => order != .lt

/-- A row key matches a key of a selector by identity. -/
def keyMatches (rowKey wanted : Value) : Bool :=
  rowKey.identityValue == wanted.identityValue

end Comparison

section Aggregates

variable (lib : Library)

/-- The first of the least values. -/
def minimum : List Value → Option Value
  | [] => none
  | first :: rest => some (rest.foldl (fun least value => if value.cmp least = .lt then value else least) first)

/-- The last of the greatest values. -/
def maximum : List Value → Option Value
  | [] => none
  | first :: rest =>
    some (rest.foldl (fun greatest value => if value.cmp greatest = .lt then greatest else value) first)

/-- The members of a set in their order. The last of equal members stays. -/
def collectSet (values : List Value) : List Value :=
  Codes.collectSorted Value.cmp values

def toDecimal : Value → BigDecimal
  | .int integer => ⟨integer, 0⟩
  | .decimal decimal => decimal
  | _ => ⟨0, 0⟩

def toInt : Value → Option Int
  | .int integer => some integer
  | _ => none

def isDecimal : Value → Bool
  | .decimal _ => true
  | _ => false

/-- The sum of no value is zero of the result type. -/
def sum (values : List Value) (decimalResult : Bool) : Value :=
  if values.isEmpty then if decimalResult then .decimal ⟨0, 0⟩ else .int 0
  else if values.any isDecimal then
    .decimal ((values.map toDecimal).foldl BigDecimal.add ⟨0, 0⟩)
  else .int ((values.filterMap toInt).foldl (· + ·) 0)

def average (values : List Value) (rounding : DivisionRounding) : Value :=
  if values.isEmpty then .none
  else .decimal (lib.divide rounding ((values.map toDecimal).foldl BigDecimal.add ⟨0, 0⟩) ⟨values.length, 0⟩)

def combineValues (func : AggFunc) (values : List Value) (decimalResult : Bool) (rounding : DivisionRounding) :
    Value :=
  match func with
  | .count => .int values.length
  | .sum => sum values decimalResult
  | .avg => average lib values rounding
  | .min => (minimum values).getD .none
  | .max => (maximum values).getD .none
  | .distinct => .set (collectSet values)

end Aggregates

section Sorting

/-- A key part is before a position. -/
def RowIdPart.cmp : RowIdPart → RowIdPart → Ordering
  | .key first, .key second => first.cmp second
  | .occurrence first, .occurrence second => compare first second
  | .key _, .occurrence _ => .lt
  | .occurrence _, .key _ => .gt

/-- Identities compare part by part. -/
def cmpId (first second : RowId) : Ordering :=
  first.compareLex RowIdPart.cmp second

/-- The order of two rows by their sort keys with the directions, and then by identity. A missing key does
not separate rows. -/
def compareSorted : List Bool → List Value → RowId → List Value → RowId → Ordering
  | [], _, id, _, other => cmpId id other
  | _ :: rest, [], id, keys, other => compareSorted rest [] id keys.tail other
  | _ :: rest, keys, id, [], other => compareSorted rest keys.tail id [] other
  | descending :: rest, key :: keys, id, next :: nexts, other =>
    let order := if descending then (key.cmp next).swap else key.cmp next
    order.then (compareSorted rest keys id nexts other)

/-- The rows in the order of their sort keys. Each row keeps its sort keys. -/
def orderRows (directions : List Bool) (ranked : List (Row × List Value)) : List Row :=
  (ranked.mergeSort fun first second =>
    compareSorted directions first.2 first.1.id second.2 second.1.id != .gt).map fun row => row.1.withSort row.2

/-- The rows within the bounds of a projection. -/
def bound (rows : List Row) (skip limit : Option Nat) : List Row :=
  let rows := rows.drop (skip.getD 0)
  match limit with
  | some limit => rows.take limit
  | none => rows

end Sorting

end Expr

end Liasse

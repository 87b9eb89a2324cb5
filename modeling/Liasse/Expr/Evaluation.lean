/-
This file models the evaluation of typed expressions and gives each of them its meaning, in a value context, in a view
context and over the rows of a temporal selector.
-/

import Liasse.Expr.Operators
import Liasse.Runtime.Instant

namespace Liasse.Expr

open Liasse.Runtime

section Loops

variable {A B : Type}

/-- The items with a positive verdict, up to the first failure. -/
def keepItems (verdict : A → Except EvalError Bool) : List A → Except EvalError (List A)
  | [] => .ok []
  | item :: rest => do
      let kept ← verdict item
      let later ← keepItems verdict rest
      pure (if kept then item :: later else later)

/-- The results of all items, up to the first failure. -/
def mapItems (change : A → Except EvalError B) : List A → Except EvalError (List B)
  | [] => .ok []
  | item :: rest => do
      let first ← change item
      let later ← mapItems change rest
      pure (first :: later)

end Loops

section Values

def isTrue : Cell → Bool
  | .scalar (.bool true) => true
  | _ => false

/-- The value of a scalar cell. -/
def scalarOf (expected : String) : Cell → Except EvalError Value
  | .scalar value => .ok value
  | _ => .error (.shapeMismatch expected)

/-- The rows of a collection, or one row. -/
def rowsOf (expected : String) : Cell → Except EvalError (List Row)
  | .collection rows => .ok rows
  | .row row => .ok [row]
  | .scalar _ => .error (.shapeMismatch expected)

def isRow : ExprType → Bool
  | .row _ _ => true
  | _ => false

def isDecimalType : ExprType → Bool
  | .scalar .decimal => true
  | _ => false

def evalScalar (expr : Meaning) (frames : Frames) : Except EvalError Value := do
  scalarOf "a scalar value" (← expr.eval frames)

def outOfBand (cell : Option Cell) (kind name : String) : Except EvalError Cell :=
  match cell with
  | some cell => .ok cell
  | none => .error (.unboundName kind name)

def evalField (base : Meaning) (name : String) (frames : Frames) : Except EvalError Cell := do
  match ← base.eval frames with
  | .row row =>
    match row.cell name with
    | some cell => pure cell
    | none => throw (.shapeMismatch "a row with this field")
  | .scalar (.struct fields) =>
    match fields.lookup name with
    | some value => pure (.scalar value)
    | none => throw (.shapeMismatch "a struct with this field")
  | _ => throw (.shapeMismatch "a row")

def evalKey (base : Meaning) (frames : Frames) : Except EvalError Cell := do
  match ← base.eval frames with
  | .row row => pure (.scalar row.key)
  | _ => throw (.shapeMismatch "a keyed row")

def evalList (items : List Meaning) (frames : Frames) : Except EvalError Cell := do
  let values ← mapItems (fun item => do scalarOf "a scalar list element" (← item.eval frames)) items
  pure (.scalar (.set (collectSet values.reverse)))

def evalStruct (fields : List (String × Meaning)) (frames : Frames) : Except EvalError Cell := do
  let entries ← mapItems (fun field => do
    pure (field.1, ← scalarOf "a scalar struct field" (← field.2.eval frames))) fields
  pure (.scalar (.struct (Codes.collectSorted (fun first second => compareText first.1 second.1) entries)))

/-- The components of a key in its order. A missing component is absent. -/
def evalComposite (order : List String) (source : Meaning) (frames : Frames) : Except EvalError Cell := do
  match ← evalScalar source frames with
  | .struct fields => pure (.scalar (.composite (order.map fun name => (fields.lookup name).getD .none)))
  | .composite components => pure (.scalar (.composite components))
  | other => pure (.scalar other)

def evalLogic (op : LogicOp) (lhs rhs : Meaning) (frames : Frames) : Except EvalError Cell := do
  let left := isTrue (.scalar (← evalScalar lhs frames))
  match op, left with
  | .and, false => pure (.scalar (.bool false))
  | .or, true => pure (.scalar (.bool true))
  | _, _ => pure (.scalar (.bool (isTrue (.scalar (← evalScalar rhs frames)))))

/-- A row on the left stands for its key. -/
def evalIn (needle haystack : Meaning) (frames : Frames) : Except EvalError Cell := do
  let value ← match ← needle.eval frames with
    | .scalar value => pure value
    | .row row => pure row.key
    | .collection _ => throw (.shapeMismatch "a scalar or keyed row")
  match ← haystack.eval frames with
  | .scalar (.set members) => pure (.scalar (.bool (members.any fun member => member == value)))
  | .collection rows => pure (.scalar (.bool (rows.any fun row => keyMatches row.key value)))
  | _ => throw (.shapeMismatch "a set or view")

def evalTernary (cond yes otherwise : Meaning) (frames : Frames) : Except EvalError Cell := do
  if isTrue (.scalar (← evalScalar cond frames)) then yes.eval frames else otherwise.eval frames

/-- Whether a value is absent or a view is empty. -/
def isAbsent : Cell → Bool
  | .collection rows => rows.isEmpty
  | .scalar .none => true
  | _ => false

def evalFallback (primary other : Meaning) (frames : Frames) : Except EvalError Cell := do
  let value ← primary.eval frames
  if isAbsent value then other.eval frames else pure value

end Values

section Builtins

variable (lib : Library) (env : Environment)

def first (args : List Meaning) (frames : Frames) : Except EvalError Cell :=
  match args with
  | [] => .error (.shapeMismatch "one argument")
  | arg :: _ => arg.eval frames

def evalSize (args : List Meaning) (frames : Frames) : Except EvalError Cell := do
  match ← first args frames with
  | .scalar (.text text) => pure (.scalar (.int text.length))
  | .scalar (.set members) => pure (.scalar (.int members.length))
  | .collection rows => pure (.scalar (.int rows.length))
  | _ => throw (.shapeMismatch "text, a set, or a view")

def evalHas (args : List Meaning) (frames : Frames) : Except EvalError Cell := do
  pure (.scalar (.bool !(isAbsent (← first args frames))))

def evalAssert (args : List Meaning) (frames : Frames) : Except EvalError Cell := do
  pure (.scalar (.bool (isTrue (← first args frames))))

def evalString (args : List Meaning) (transform : String → String) (frames : Frames) :
    Except EvalError Cell := do
  match ← first args frames with
  | .scalar (.text text) => pure (.scalar (.text (transform text)))
  | _ => throw (.shapeMismatch "a text argument")

def evalTimeDuration (args : List Meaning) (frames : Frames) : Except EvalError Cell := do
  let text ← match ← first args frames with
    | .scalar (.text text) => pure text
    | .scalar (.json (.string text)) => pure text
    | _ => throw (.shapeMismatch "a text argument")
  match lib.parseDuration text with
  | some duration => pure (.scalar (.duration duration))
  | none => throw (.shapeMismatch "a valid ISO-8601 duration")

def evalBuiltin (func : BuiltinFn) (args : List Meaning) (frames : Frames) : Except EvalError Cell :=
  match func with
  | .size => evalSize args frames
  | .has => evalHas args frames
  | .assert => evalAssert args frames
  | .stringLower => evalString args lib.toLowercase frames
  | .stringUpper => evalString args lib.toUppercase frames
  | .stringCasefold => evalString args lib.caseFold frames
  | .stringTrim => evalString args lib.trim frames
  | .timeDuration => evalTimeDuration lib args frames

/-- A row argument of a host call stands for its key. -/
def evalHostCall (space function : String) (args : List Meaning) (frames : Frames) :
    Except EvalError Cell := do
  let values ← mapItems (fun arg => do
    match ← arg.eval frames with
    | .scalar value => pure value
    | .row row => pure row.key
    | .collection _ => throw (.shapeMismatch "a scalar host-call argument")) args
  pure (.scalar (← env.hostCall space function values))

/-- The rows of the stores that hold a blob. -/
def storeIdentityRows (ids : List String) : List Row :=
  ids.map fun id => Row.of [.key (.text id)] (.text id) [("id", .scalar (.text id))]

/-- The lowercase hexadecimal text of some bytes. -/
def hexText (bytes : List UInt8) : String :=
  String.ofList (bytes.flatMap fun byte => [Nat.digitChar (byte.toNat / 16), Nat.digitChar (byte.toNat % 16)])

def evalBlobMember (base : Meaning) (member : BlobMember) (frames : Frames) : Except EvalError Cell := do
  match ← base.eval frames with
  | .scalar (.blob descriptor) =>
    match member with
    | .sha512 => pure (.scalar (.text (hexText descriptor.sha512.bytes)))
    | .bytes => pure (.scalar (.int descriptor.byteCount.toNat))
    | .media => pure (.scalar (.text descriptor.media))
    | .name =>
      match descriptor.name with
      | some name => pure (.scalar (.text name))
      | none => pure (.scalar .none)
    | .satisfied => pure (.scalar (.bool (← env.blobPlacement descriptor).satisfied))
    | .stored => pure (.collection (storeIdentityRows (← env.blobPlacement descriptor).stored))
    | .surplus => pure (.collection (storeIdentityRows (← env.blobPlacement descriptor).surplus))
  | _ => throw (.shapeMismatch "a blob descriptor")

end Builtins

section Selections

/-- The rows of a key. The members of a set are keys in their order. -/
def rowsOfKey (rows : List Row) : Value → List Row
  | .set members => members.flatMap fun member =>
    rows.filter fun row => keyMatches row.key member.identityValue
  | key => rows.filter fun row => keyMatches row.key key.identityValue

def selectByKeys (rows : List Row) (keys : List Meaning) (frames : Frames) :
    Except EvalError (List Row) := do
  let selected ← mapItems (fun key => do
    pure (rowsOfKey rows (← scalarOf "a scalar key" (← key.eval frames)))) keys
  pure selected.flatten

/-- In a value context the row under test is the current value of the condition. -/
def selectByBind (rows : List Row) (name : String) (condition : Option Meaning) (frames : Frames) :
    Except EvalError (List Row) :=
  match condition with
  | none => .ok rows
  | some condition =>
    keepItems (fun row => do
      let frame := (EvalFrame.mk (.row row) []).bind name (.row row)
      pure (isTrue (← condition.eval (frame :: frames)))) rows

def selectRows (base : Meaning) (selector : TypedSelector Meaning) (frames : Frames) :
    Except EvalError (List Row) := do
  let rows ← rowsOf "a collection" (← base.eval frames)
  match selector with
  | .keys keys => selectByKeys rows keys frames
  | .bind name condition => selectByBind rows name condition frames

/-- A key context of one row requires exactly one row. -/
def oneRow (context : String) : List Row → Except EvalError Cell
  | [row] => .ok (.row row)
  | rows => .error (.cardinality context rows.length)

def evalSelect (type : ExprType) (base : Meaning) (selector : TypedSelector Meaning) (frames : Frames) :
    Except EvalError Cell := do
  let rows ← selectRows base selector frames
  if isRow type then oneRow "a scalar row selector" rows else pure (.collection rows)

/-- The current value outside a selection. -/
def outerOf (frames : Frames) : Cell :=
  match currentAt frames 0 with
  | .ok current => current
  | .error _ => .row (.mk [.occurrence 0] .none [] [])

/-- In a view context the condition keeps the current value outside, and it sees the bindings of the base. -/
def selectBindScopes (scopes : List RowScope) (name : String) (condition : Option Meaning) (frames : Frames) :
    Except EvalError (List RowScope) := do
  let kept ← match condition with
    | none => pure scopes
    | some condition =>
      keepItems (fun scope => do
        let frame := ((EvalFrame.mk (outerOf frames) []).bindAll scope.binds).bind name (.row scope.row)
        pure (isTrue (← condition.eval (frame :: frames)))) scopes
  pure (kept.map fun scope => { scope with binds := scope.binds ++ [(name, .row scope.row)] })

/-- The scopes of the rows in a member of a row. -/
def traverseScope (baseBind : Option String) (member : String) (scope : RowScope) :
    Except EvalError (List RowScope) :=
  match scope.row.cell member with
  | some (.collection rows) =>
    .ok (rows.map fun row =>
      { row := row
        binds := scope.binds ++ (baseBind.toList.map fun name => (name, .row scope.row)) ++
          [(member, .row row)]
        identity := scope.identity ++ row.id })
  | some _ => .error (.shapeMismatch "a nested collection")
  | none => .ok []

def evalTraverse (base : Meaning) (member : String) (frames : Frames) : Except EvalError (List RowScope) := do
  let scopes ← mapItems (traverseScope base.bindName member) (← base.evalView frames)
  pure scopes.flatten

end Selections

section Projections

/-- The frame of a projection has the row as current value, its bindings, and the rows of its group. -/
def projectFrame (scope : RowScope) (group : Option Cell) : EvalFrame :=
  let frame := (EvalFrame.mk (.row scope.row) []).bindAll scope.binds
  match group with
  | some group => frame.bind "group" group
  | none => frame

/-- The names that no output shadows. -/
def loopBinds (scope : RowScope) (group : Option Cell) : List String :=
  scope.binds.map Prod.fst ++ if group.isSome then ["group"] else []

/-- An output is bound unless a row binding has its name. -/
def bindOutput (loops : List String) (name : String) (cell : Cell) (frame : EvalFrame) : EvalFrame :=
  if loops.contains name then frame else frame.bind name cell

/-- The outputs of a projection in their order. Each one sees the earlier ones. -/
def projectOutputs (loops : List String) (frames : Frames) :
    List (String × Meaning) → EvalFrame → Except EvalError (EvalFrame × List (String × Cell))
  | [], frame => .ok (frame, [])
  | output :: rest, frame => do
      let cell ← output.2.eval (frame :: frames)
      let (last, cells) ← projectOutputs loops frames rest (bindOutput loops output.1 cell frame)
      pure (last, (output.1, cell) :: cells)

/-- The capacity cell of a projection. -/
def projectQuantity (quantity : Option Meaning) (frames : Frames) : Except EvalError (List (String × Cell)) :=
  match quantity with
  | none => .ok []
  | some quantity => do pure [("$quantity", ← quantity.eval frames)]

/-- The output row of a scope. The row of a group has the identity of its key. -/
def projectRow (scope : RowScope) (projection : Projection Meaning) (group : Option (Cell × Value))
    (frames : Frames) : Except EvalError Row := do
  let cell := group.map Prod.fst
  let (frame, cells) ← projectOutputs (loopBinds scope cell) frames projection.outputs (projectFrame scope cell)
  let quantity ← projectQuantity projection.quantity (frame :: frames)
  match group with
  | some (_, key) => pure (Row.of [.key key.identityValue] key (cells ++ quantity))
  | none => pure (Row.of scope.identity scope.row.key (cells ++ quantity))

/-- The frame of the sort keys has the frame of the projection and its outputs. -/
def sortFrame (scope : RowScope) (projected : Row) (group : Option Cell) : EvalFrame :=
  projected.cells.foldl (fun frame cell => bindOutput (loopBinds scope group) cell.1 cell.2 frame)
    (projectFrame scope group)

def evalKeys (scope : RowScope) (projected : Row) (group : Option Cell) (sort : List (Meaning × Bool))
    (frames : Frames) : Except EvalError (List Value) :=
  mapItems (fun key => do
    scalarOf "a scalar sort key" (← key.1.eval (sortFrame scope projected group :: frames))) sort

/-- The values of the key outputs in their order. Each one sees the earlier ones. -/
def keyOutputs (key loops : List String) (frames : Frames) :
    List (String × Meaning) → EvalFrame → Except EvalError (List (String × Value))
  | [], _ => .ok []
  | output :: rest, frame =>
    if key.contains output.1 then do
      let value ← scalarOf "a scalar key value" (← output.2.eval (frame :: frames))
      let later ← keyOutputs key loops frames rest (bindOutput loops output.1 (.scalar value) frame)
      pure ((output.1, value) :: later)
    else keyOutputs key loops frames rest frame

def groupKey (scope : RowScope) (projection : Projection Meaning) (frames : Frames) :
    Except EvalError (List Value) := do
  let values ← keyOutputs projection.key (loopBinds scope none) frames projection.outputs
    (projectFrame scope none)
  pure (projection.key.filterMap fun name => values.reverse.lookup name)

/-- A scope joins the group of its key. The groups are in key order. -/
def insertGroup (key : List Value) (scope : RowScope) :
    List (List Value × List RowScope) → List (List Value × List RowScope)
  | [] => [(key, [scope])]
  | group :: rest =>
    match Value.cmpList key group.1 with
    | .lt => (key, [scope]) :: group :: rest
    | .eq => (group.1, group.2 ++ [scope]) :: rest
    | .gt => group :: insertGroup key scope rest

/-- The key of a group is its one component, or the tuple of them. -/
def syntheticKeyValue : List Value → Value
  | [single] => single
  | many => .composite many

/-- The rows in source order without sort keys, and else in the order of the keys. -/
def order (sort : List (Meaning × Bool)) (ranked : List (Row × List Value)) : List Row :=
  if sort.isEmpty then ranked.map Prod.fst else orderRows (sort.map Prod.snd) ranked

/-- One output row with its sort keys. -/
def projectRanked (scope : RowScope) (projection : Projection Meaning) (group : Option (Cell × Value))
    (frames : Frames) : Except EvalError (Row × List Value) := do
  let row ← projectRow scope projection group frames
  let keys ← evalKeys scope row (group.map Prod.fst) projection.sort frames
  pure (row, keys)

def projectPlain (scopes : List RowScope) (projection : Projection Meaning) (frames : Frames) :
    Except EvalError (List Row) := do
  let ranked ← mapItems (fun scope => projectRanked scope projection none frames) scopes
  pure (bound (order projection.sort ranked) projection.skip projection.limit)

def projectGrouped (scopes : List RowScope) (projection : Projection Meaning) (frames : Frames) :
    Except EvalError (List Row) := do
  let keyed ← mapItems (fun scope => do pure (← groupKey scope projection frames, scope)) scopes
  let groups := keyed.foldl (fun groups member => insertGroup member.1 member.2 groups) []
  let ranked ← mapItems (fun group => do
    match group.2 with
    | [] => pure []
    | first :: rest =>
      let cell := Cell.collection ((first :: rest).map RowScope.row)
      pure [← projectRanked first projection (some (cell, syntheticKeyValue group.1)) frames]) groups
  pure (bound (order projection.sort ranked.flatten) projection.skip projection.limit)

def projectScopes (scopes : List RowScope) (projection : Projection Meaning) (frames : Frames) :
    Except EvalError (List Row) :=
  if projection.key.isEmpty then projectPlain scopes projection frames
  else projectGrouped scopes projection frames

def projectView (source : Meaning) (projection : Projection Meaning) (frames : Frames) :
    Except EvalError (List Row) := do
  projectScopes (← source.evalView frames) projection frames

def evalProject (type : ExprType) (source : Meaning) (projection : Projection Meaning) (frames : Frames) :
    Except EvalError Cell := do
  if isRow type then
    match ← source.eval frames with
    | .row row => pure (.row (← projectRow (.bare row) projection none frames))
    | _ => throw (.shapeMismatch "a row")
  else pure (.collection (← projectView source projection frames))

end Projections

variable (lib : Library) (env : Environment)

section Views

/-- The scalar values of a field. An absent one is left out. -/
def fieldValues (field : String) (scopes : List RowScope) : Except EvalError (List Value) := do
  let values ← mapItems (fun scope : RowScope =>
    match scope.row.cell field with
    | none => pure []
    | some (.scalar .none) => pure []
    | some (.scalar value) => pure [value]
    | some _ => throw (.shapeMismatch "a scalar field")) scopes
  pure values.flatten

def evalAggregate (type : ExprType) (func : AggFunc) (source : Meaning) (field : Option String)
    (frames : Frames) : Except EvalError Cell := do
  let scopes ← source.evalView frames
  if func = .count then pure (.scalar (.int scopes.length))
  else
    match field with
    | none => throw (.shapeMismatch "an aggregated field")
    | some field =>
      let values ← fieldValues field scopes
      pure (.scalar (combineValues lib func values (isDecimalType type) env.decimalDivision))

def hasId (id : RowId) (ids : List RowId) : Bool :=
  ids.any fun other => cmpId id other == .eq

/-- The rows of the right whose identities are not present yet. -/
def newRows : List RowId → List RowScope → List Row
  | _, [] => []
  | ids, scope :: rest =>
    if hasId scope.identity ids then newRows ids rest
    else scope.row :: newRows (scope.identity :: ids) rest

/-- The rows of two views are told apart by their identities. -/
def combineScopes (op : CombineOp) (left right : List RowScope) : List Row :=
  match op with
  | .union => left.map RowScope.row ++ newRows (left.map RowScope.identity) right
  | .intersect =>
    (left.filter fun scope => hasId scope.identity (right.map RowScope.identity)).map RowScope.row
  | .difference =>
    (left.filter fun scope => !hasId scope.identity (right.map RowScope.identity)).map RowScope.row

def evalCombine (op : CombineOp) (lhs rhs : Meaning) (frames : Frames) : Except EvalError Cell := do
  let left ← lhs.evalView frames
  let right ← rhs.evalView frames
  pure (.collection (combineScopes op left right))

/-- The selector of the current version gives one row. -/
def evalKeyring (type : ExprType) (base : Meaning) (selector : KeyringSelector) (frames : Frames) :
    Except EvalError Cell := do
  let rows ← base.evalView frames
  let versions ← env.keyring (rows.map RowScope.row) selector
  if isRow type then oneRow "the active keyring version" versions else pure (.collection versions)

end Views

section Temporal

def evalInstant (expr : Meaning) (frames : Frames) : Except EvalError Timestamp := do
  match ← expr.eval frames with
  | .scalar (.timestamp instant) => pure instant
  | _ => throw (.shapeMismatch "a timestamp instant")

/-- A range with no instant is rejected. -/
def reduceQuery (query : TypedTemporal Meaning) (frames : Frames) : Except EvalError TemporalQuery := do
  match query with
  | .all => pure .all
  | .at instant => pure (.at (← evalInstant instant frames))
  | .between start stop =>
    let start ← evalInstant start frames
    let stop ← evalInstant stop frames
    if stop ≤ start then throw .emptyTemporalRange else pure (.between start stop)

/-- A base that names a collection of the environment ranges over its selected rows, with the selections
and projections of the base. Each other base ranges over its own rows. -/
def evalTemporal (base : Meaning) (query : TypedTemporal Meaning) (frames : Frames) :
    Except EvalError Cell := do
  let query ← reduceQuery query frames
  match base.bindName.bind fun name => env.temporalByName name query with
  | some active =>
    let scopes ← base.rebaseScopes active frames
    pure (.collection (scopes.map RowScope.row))
  | none =>
    let scopes ← base.evalView frames
    pure (.collection (← env.temporal (scopes.map RowScope.row) base.bindName query))

end Temporal

section Meanings

/-- The value of an operation. -/
def evalKind (type : ExprType) (kind : TypedKind Meaning) (frames : Frames) : Except EvalError Cell :=
  match kind with
  | .literal value => .ok (.scalar value)
  | .root => .ok (.row env.root)
  | .current => currentAt frames 0
  | .parent depth => currentAt frames depth
  | .param name => outOfBand (env.param name) "parameter" name
  | .structural name =>
    match env.structural name with
    | some cell => .ok cell
    | none => outOfBand (rowStructural frames name) "structural" name
  | .imported name => outOfBand (env.imported name) "import" name
  | .scopeBinding name => outOfBand (env.binding name) "binding" name
  | .localBinding name => outOfBand (localBinding frames name) "binding" name
  | .field base name => evalField base name frames
  | .select base selector => evalSelect type base selector frames
  | .traverse base member => do
      pure (.collection ((← evalTraverse base member frames).map RowScope.row))
  | .arith op numbers lhs rhs => do
      let left ← evalScalar lhs frames
      let right ← evalScalar rhs frames
      pure (.scalar (← arith lib op numbers left right env.decimalDivision))
  | .neg numbers operand => do pure (.scalar (← neg numbers (← evalScalar operand frames)))
  | .compare op lhs rhs => do
      let left ← evalScalar lhs frames
      let right ← evalScalar rhs frames
      pure (.scalar (.bool (op.holds (compareValues left right))))
  | .logic op lhs rhs => evalLogic op lhs rhs frames
  | .not operand => do pure (.scalar (.bool !(isTrue (.scalar (← evalScalar operand frames)))))
  | .within needle haystack => evalIn needle haystack frames
  | .ternary cond yes otherwise => evalTernary cond yes otherwise frames
  | .aggregate func source field => evalAggregate lib env type func source field frames
  | .project source projection => evalProject type source projection frames
  | .combine op lhs rhs => evalCombine op lhs rhs frames
  | .fallback primary other => evalFallback primary other frames
  | .emptyView => .ok (.collection [])
  | .list items => evalList items frames
  | .struct fields => evalStruct fields frames
  | .composite order source => evalComposite order source frames
  | .builtin func args => evalBuiltin lib func args frames
  | .hostCall space function args => evalHostCall env space function args frames
  | .now => .ok (.scalar (.timestamp env.now))
  | .uuid site => .ok (.scalar (.uuid (env.uuid site)))
  | .temporal base query => evalTemporal env base query frames
  | .key base => evalKey base frames
  | .keyring base selector => evalKeyring env type base selector frames
  | .blobMember base member => evalBlobMember env base member frames

/-- The row stream of an operation. A key selection gives a row for each key that it finds. -/
def viewKind (type : ExprType) (kind : TypedKind Meaning) (frames : Frames) :
    Except EvalError (List RowScope) :=
  match kind with
  | .traverse base member => evalTraverse base member frames
  | .select base (.bind name condition) => do
      selectBindScopes (← base.evalView frames) name condition frames
  | .select base (.keys keys) => do
      pure ((← selectRows base (.keys keys) frames).map RowScope.bare)
  | .project source projection => do
      pure ((← projectView source projection frames).map RowScope.bare)
  | kind => do
      let rows ← rowsOf "a view" (← evalKind lib env type kind frames)
      pure (rows.map RowScope.bare)

/-- The selections and projections of an operation over other rows. -/
def rebaseKind (kind : TypedKind Meaning) (rows : List Row) (frames : Frames) :
    Except EvalError (List RowScope) :=
  match kind with
  | .select base (.bind name condition) => do
      selectBindScopes (← base.rebaseScopes rows frames) name condition frames
  | .select base (.keys keys) => do
      let scopes ← base.rebaseScopes rows frames
      pure ((← selectByKeys (scopes.map RowScope.row) keys frames).map RowScope.bare)
  | .project source projection => do
      let scopes ← source.rebaseScopes rows frames
      pure ((← projectScopes scopes projection frames).map RowScope.bare)
  | _ => .ok (rows.map RowScope.bare)

/-- The collection that a selection or a projection addresses is the one of its base. -/
def bindNameOf : TypedKind Meaning → Option String
  | .field _ name => some name
  | .traverse _ member => some member
  | .select base _ => base.bindName
  | .project source _ => source.bindName
  | _ => none

def meaningOf (type : ExprType) (kind : TypedKind Meaning) : Meaning where
  eval := evalKind lib env type kind
  evalView := viewKind lib env type kind
  rebaseScopes := rebaseKind kind
  bindName := bindNameOf kind

end Meanings

namespace TypedExpr

/-- The meaning of an expression. -/
def meaning : TypedExpr → Meaning :=
  fold (meaningOf lib env)

theorem meaning_mk (type : ExprType) (kind : TypedKind TypedExpr) :
    meaning lib env (.mk type kind) = meaningOf lib env type (kind.map (meaning lib env)) :=
  fold_mk type kind

end TypedExpr

end Liasse.Expr

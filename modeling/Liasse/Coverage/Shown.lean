/-
This file models the recursive coverage of a scoped role.
-/

import Liasse.Codes.Hereditary
import Liasse.Codes.Related
import Liasse.Reading.Materialize
import Liasse.Surface.Authn
import Liasse.Wire.Typed

namespace Liasse.Coverage

open Liasse.Codes Liasse.Expr Liasse.Reading Liasse.Store Liasse.Wire
open Liasse.Runtime (Rejection)
open Liasse.Surface (ScopedReceiver)

section Declarations

/-- An internal error is a rejected evaluation, or a JSON value that cannot be read. -/
inductive EngineError
  | internal (message : String)
  | unreadable (error : ValueError)

/-- A compiled expression is the function that it evaluates of the current cell and the bindings. -/
abbrev TypedExpr := Cell → List (String × Cell) → Except Rejection Cell

/-- The relation that covers descendants, and the predicates over the bound candidate. -/
structure CompiledRecursive where
  field : String
  bind : String
  wherePred : Option TypedExpr
  exceptPred : Option TypedExpr

/-- The scope of a surface is a top-level collection. Its row covers itself, and its descendants when the
surface is recursive. -/
structure CompiledScope where
  collectionPath : List String
  recursive : Option CompiledRecursive
  top : ∃ name, collectionPath = [name]

end Declarations

section Projections

/-- The scalar cells of a row as members. An absent value has no member. -/
def rowObject (libraries : Libraries) (row : Row) : List (String × J) :=
  J.collect <| row.cells.filterMap fun cell =>
    match cell.2 with
    | .scalar .none => none
    | .scalar value => some (cell.1, toWire libraries value)
    | _ => none

/-- The members that the view of a surface gives a node. -/
def project (libraries : Libraries) (view : TypedExpr) (node : Row) : Except EngineError (List (String × J)) :=
  match view (.row node) [] with
  | .error rejection => .error (.internal rejection.message)
  | .ok (.row row) => .ok (rowObject libraries row)
  | .ok _ => .error (.internal "a `$recursive` `$view` must project a row (§10.5)")

/-- The JSON object of some members. -/
def readObject (libraries : Libraries) (object : List (String × J)) : Except EngineError Json :=
  (Document.fromWire libraries (.object object)).mapError .unreadable

end Projections

namespace CompiledRecursive

variable (recursive : CompiledRecursive)

/-- A predicate holds of a candidate when it gives `true`. -/
def predicate (pred : TypedExpr) (candidate : Row) : Except EngineError Bool :=
  match pred (.row candidate) [(recursive.bind, .row candidate)] with
  | .error rejection => .error (.internal rejection.message)
  | .ok (.scalar (.bool true)) => .ok true
  | .ok _ => .ok false

/-- A candidate is included when the allow-list admits it and the deny-list does not prune it. -/
def included (candidate : Row) : Except EngineError Bool := do
  let allowed ← match recursive.wherePred with
    | some pred => recursive.predicate pred candidate
    | none => pure true
  if !allowed then return false
  let denied ← match recursive.exceptPred with
    | some pred => recursive.predicate pred candidate
    | none => pure false
  return !denied

variable (libraries : Libraries) (view : TypedExpr)

mutual

/-- The members of a node, with the included descendants under the field. -/
def cover : Row → Except EngineError (List (String × J))
  | .mk id key cells sort => do
      let object ← project libraries view (.mk id key cells sort)
      let children ← coverField cells
      pure (J.insert object recursive.field (.array children))
termination_by structural row => row

def coverField : List (String × Cell) → Except EngineError (List J)
  | [] => .ok []
  | member :: rest => if recursive.field = member.1 then coverMember member else coverField rest
termination_by structural cells => cells

def coverMember : String × Cell → Except EngineError (List J)
  | (_, cell) => coverCell cell
termination_by structural member => member

def coverCell : Cell → Except EngineError (List J)
  | .scalar _ => .ok []
  | .row _ => .ok []
  | .collection rows => coverRows rows
termination_by structural cell => cell

def coverRows : List Row → Except EngineError (List J)
  | [] => .ok []
  | candidate :: rest => do
      if ← recursive.included candidate then
        let first ← cover candidate
        let others ← coverRows rest
        pure (.object first :: others)
      else coverRows rest
termination_by structural rows => rows

end

/-- The included row of a key right below a node. -/
def includedChild (node : Row) (component : Value) : Except EngineError (Option Row) :=
  match node.cell recursive.field with
  | some (.collection rows) =>
    match rows.find? fun candidate => candidate.key == component with
    | some candidate => do
        if ← recursive.included candidate then pure (some candidate) else pure none
    | none => .ok none
  | _ => .ok none

/-- The receiver is extended by each key of the path, as long as the row of the key is included. -/
def follow : List Value → Row → ScopedReceiver → Except EngineError (Option ScopedReceiver)
  | [], _, receiver => .ok (some receiver)
  | component :: rest, current, receiver => do
      match ← recursive.includedChild current component with
      | none => pure none
      | some child => follow rest child ⟨receiver.path ++ [recursive.field], receiver.key ++ [component]⟩

end CompiledRecursive

namespace CompiledScope

/-- The stored key of a scope. -/
def keyOf : List Value → Option KeyValue
  | [] => none
  | first :: rest => some ⟨first, rest⟩

/-- The address of a row of a top-level collection. -/
def topAddress (name : String) (key : KeyValue) : Address :=
  ⟨⟨name, key⟩, []⟩

variable (scope : CompiledScope) (ctx : EvalCtx) (libraries : Libraries) (view : TypedExpr)

/-- The covered row of a scope. -/
def covered (scopeKey : List Value) : Option Row := do
  let key ← keyOf scopeKey
  let name ← scope.collectionPath.getLast?
  ctx.materializeRowCell scope.collectionPath (topAddress name key)

/-- The view of a scope is one JSON object. -/
def materialize (scopeKey : List Value) : Except EngineError (Option Json) :=
  match scope.covered ctx scopeKey with
  | none => .ok none
  | some covered => do
      let object ← match scope.recursive with
        | some recursive => recursive.cover libraries view covered
        | none => project libraries view covered
      (readObject libraries object).map some

/-- The receiver of a call is the covered row, or an included descendant of it. -/
def resolveReceiver (scopeKey descendant : List Value) : Except EngineError (Option ScopedReceiver) :=
  match scope.covered ctx scopeKey with
  | none => .ok none
  | some current =>
    if descendant.isEmpty then .ok (some ⟨scope.collectionPath, scopeKey⟩)
    else
      match scope.recursive with
      | none => .ok none
      | some recursive => recursive.follow descendant current ⟨scope.collectionPath, scopeKey⟩

end CompiledScope

section Operands

/-- The row that a mutation writes, and the path of its declaration. -/
structure RowTarget where
  address : RowAddress
  path : List String

/-- A receiver key that does not fit its path. -/
def malformed : Rejection :=
  .new .malformed "a row mutation requires a receiver key"

variable (schema : Schema)

/-- Each level of a path consumes as many components as the compiled key of its collection has. -/
def descendOperand : List String → List String → Option RowAddress → List Value →
    Except Rejection (Option RowAddress × List Value)
  | _, [], address, remaining => .ok (address, remaining)
  | above, name :: rest, address, remaining =>
    let arity := ((schema.collectionAt (above ++ [name])).map fun collection =>
      max collection.key.length 1).getD 1
    if remaining.length < arity then .error malformed
    else
      match remaining.take arity with
      | [] => .error malformed
      | first :: tail =>
        let step : AddressStep := ⟨name, .composite first tail⟩
        descendOperand (above ++ [name]) rest
          (some (address.elim (.root step) fun parent => parent.child step)) (remaining.drop arity)

/-- One operand is a full descent of the path. -/
def oneReceiverOperand (path : List String) (remaining : List Value) :
    Except Rejection (RowTarget × List Value) := do
  match ← descendOperand schema [] path none remaining with
  | (some address, rest) => pure (⟨address, path⟩, rest)
  | (none, _) => .error malformed

/-- The operands of the remaining components. Each one consumes a component, so there are no more operands than
components. -/
def operandsFrom (path : List String) : Nat → List Value → Except Rejection (List RowTarget)
  | _, [] => .ok []
  | 0, _ => .ok []
  | left + 1, remaining => do
      let (target, rest) ← oneReceiverOperand schema path remaining
      let others ← operandsFrom path left rest
      pure (target :: others)

/-- The rows that a call of a receiver writes. -/
def receiverOperands (receiver : ScopedReceiver) : Except Rejection (List RowTarget) :=
  if receiver.key.isEmpty then .error malformed
  else operandsFrom schema receiver.path receiver.key.length receiver.key

end Operands

section Trees

variable (field : String)

mutual

/-- A row with the rows nested under a field at each level. -/
def subtree : Row → RoseTree Row
  | .mk id key cells sort => .node (.mk id key cells sort) (subtreeField cells)
termination_by structural row => row

def subtreeField : List (String × Cell) → List (RoseTree Row)
  | [] => []
  | member :: rest => if field = member.1 then subtreeMember member else subtreeField rest
termination_by structural cells => cells

def subtreeMember : String × Cell → List (RoseTree Row)
  | (_, cell) => subtreeCell cell
termination_by structural member => member

def subtreeCell : Cell → List (RoseTree Row)
  | .scalar _ => []
  | .row _ => []
  | .collection rows => subtreeRows rows
termination_by structural cell => cell

def subtreeRows : List Row → List (RoseTree Row)
  | [] => []
  | row :: rest => subtree row :: subtreeRows rest
termination_by structural rows => rows

end

/-- The rows of a cell that holds a collection. -/
def rowsOf : Option Cell → List Row
  | some (.collection rows) => rows
  | _ => []

/-- The rows right below a row. -/
def nested (row : Row) : List Row :=
  rowsOf (row.cell field)

theorem subtreeRows_eq (rows : List Row) : subtreeRows field rows = rows.map (subtree field) := by
  induction rows with
  | nil => rfl
  | cons row rest ih => rw [subtreeRows, ih, List.map_cons]

theorem subtreeField_eq (cells : List (String × Cell)) :
    subtreeField field cells = (rowsOf (cells.lookup field)).map (subtree field) := by
  induction cells with
  | nil => rfl
  | cons member rest ih =>
    obtain ⟨name, cell⟩ := member
    rw [subtreeField]
    by_cases named : field = name
    · subst named
      rw [if_pos rfl, subtreeMember, List.lookup_cons_self]
      cases cell with
      | scalar value => rfl
      | row row => rfl
      | collection rows => rw [subtreeCell, subtreeRows_eq, rowsOf]
    · rw [if_neg named, ih, List.lookup_cons, beq_false_of_ne named]

theorem subtree_eq (row : Row) : subtree field row = .node row ((nested field row).map (subtree field)) := by
  obtain ⟨id, key, cells, sort⟩ := row
  rw [subtree, subtreeField_eq]
  rfl

@[simp] theorem label_subtree (row : Row) : (subtree field row).label = row := by
  rw [subtree_eq, RoseTree.label]

@[simp] theorem branches_subtree (row : Row) :
    (subtree field row).branches = (nested field row).map (subtree field) := by
  rw [subtree_eq, RoseTree.branches]

/-- The induction over rows assumes the statement of each row right below. -/
theorem nested_induct {statement : Row → Prop}
    (step : ∀ row, (∀ child ∈ nested field row, statement child) → statement row) (row : Row) :
    statement row := by
  have all : ∀ tree : RoseTree Row, ∀ row, subtree field row = tree → statement row := by
    intro tree
    induction tree using RoseTree.induct with
    | step label branches ih =>
      intro row same
      refine step row fun child inside => ih (subtree field child) ?_ child rfl
      rw [subtree_eq] at same
      rw [← (RoseTree.node.inj same).2]
      exact List.mem_map_of_mem inside
  exact all _ row rfl

end Trees

section Views

mutual

/-- The members of a tree of projected rows. -/
def render (field : String) : RoseTree (Row × List (String × J)) → List (String × J)
  | .node label branches => J.insert label.2 field (.array (renderAll field branches))
termination_by structural tree => tree

def renderAll (field : String) : List (RoseTree (Row × List (String × J))) → List J
  | [] => []
  | tree :: rest => .object (render field tree) :: renderAll field rest
termination_by structural trees => trees

end

theorem renderAll_eq (field : String) (trees : List (RoseTree (Row × List (String × J)))) :
    renderAll field trees = trees.map fun tree => .object (render field tree) := by
  induction trees with
  | nil => rfl
  | cons tree rest ih => rw [renderAll, ih, List.map_cons]

namespace CompiledRecursive

variable (recursive : CompiledRecursive) (libraries : Libraries) (view : TypedExpr)

/-- The tree that a surface covers. -/
def coverTree (row : Row) : Except EngineError (RoseTree (Row × List (String × J))) :=
  RoseTree.prune (project libraries view) recursive.included (subtree recursive.field row)

theorem coverField_eq (cells : List (String × Cell)) :
    recursive.coverField libraries view cells =
      recursive.coverRows libraries view (rowsOf (cells.lookup recursive.field)) := by
  induction cells with
  | nil => rfl
  | cons member rest ih =>
    obtain ⟨name, cell⟩ := member
    rw [coverField]
    by_cases named : recursive.field = name
    · rw [if_pos named, coverMember, named, List.lookup_cons_self]
      cases cell <;> rfl
    · rw [if_neg named, ih, List.lookup_cons, beq_false_of_ne named]

/-- The view of a node is the view of the tree that it covers. -/
theorem cover_eq (row : Row) :
    recursive.cover libraries view row =
      (recursive.coverTree libraries view row).map (render recursive.field) := by
  induction row using nested_induct recursive.field with
  | step row ih =>
    have below : ∀ rows : List Row, (∀ child ∈ rows, child ∈ nested recursive.field row) →
        recursive.coverRows libraries view rows =
          (RoseTree.pruneBelow (project libraries view) recursive.included
            (rows.map (subtree recursive.field))).map (renderAll recursive.field) := by
      intro rows inside
      induction rows with
      | nil => rfl
      | cons child rest later =>
        have others := later fun other member => inside other (List.mem_cons_of_mem _ member)
        have here := ih child (inside child List.mem_cons_self)
        rw [coverTree] at here
        rw [coverRows, List.map_cons, RoseTree.pruneBelow, label_subtree, others, here]
        cases recursive.included child with
        | error error => rfl
        | ok flag =>
          cases flag with
          | false => rfl
          | true =>
            cases RoseTree.prune (project libraries view) recursive.included
              (subtree recursive.field child) with
            | error error => rfl
            | ok tree =>
              cases RoseTree.pruneBelow (project libraries view) recursive.included
                (rest.map (subtree recursive.field)) <;> rfl
    have rows := below (nested recursive.field row) fun _ inside => inside
    rw [coverTree, subtree_eq, RoseTree.prune]
    obtain ⟨id, key, cells, sort⟩ := row
    rw [cover, coverField_eq]
    rw [nested, Row.cell, Row.cells] at rows
    rw [rows]
    cases project libraries view (.mk id key cells sort) with
    | error error => rfl
    | ok object =>
      rw [ok_bind, ok_bind, nested, Row.cell, Row.cells]
      cases RoseTree.pruneBelow (project libraries view) recursive.included
        ((rowsOf (cells.lookup recursive.field)).map (subtree recursive.field)) <;> rfl

end CompiledRecursive

end Views

section Receivers

/-- A row is named by a key that is equal to its own. -/
def keyed (row : Row) (component : Value) : Bool :=
  row.key == component

namespace CompiledRecursive

variable (recursive : CompiledRecursive)

theorem includedChild_eq (node : Row) (component : Value) :
    recursive.includedChild node component =
      match (nested recursive.field node).find? fun candidate => candidate.key == component with
      | some candidate => do
          if ← recursive.included candidate then pure (some candidate) else pure none
      | none => .ok none := by
  rw [includedChild, nested]
  cases node.cell recursive.field with
  | none => rfl
  | some cell => cases cell <;> rfl

/-- A receiver goes on below an included row of the next key. -/
theorem follow_cons (component : Value) (rest : List Value) (current : Row)
    (receiver reached : ScopedReceiver) :
    recursive.follow (component :: rest) current receiver = .ok (some reached) ↔
      ∃ child,
        ((nested recursive.field current).find? fun candidate => candidate.key == component) = some child ∧
        recursive.included child = .ok true ∧
          recursive.follow rest child ⟨receiver.path ++ [recursive.field], receiver.key ++ [component]⟩ =
            .ok (some reached) := by
  rw [follow, includedChild_eq]
  cases (nested recursive.field current).find? fun candidate => candidate.key == component with
  | none => simp [ok_bind, pure, Except.pure]
  | some child =>
    simp only [Option.some.injEq, exists_eq_left']
    cases recursive.included child with
    | error error =>
      constructor
      · intro arrived
        obtain ⟨value, failed, -⟩ := bind_ok.mp arrived
        cases failed
      · rintro ⟨passes, -⟩
        cases passes
    | ok flag => cases flag <;> simp [ok_bind, pure, Except.pure]

/-- A receiver is reached by the walk along its path. -/
theorem follow_eq_some (path : List Value) (current : Row) (receiver reached : ScopedReceiver) :
    recursive.follow path current receiver = .ok (some reached) ↔
      (∃ rows, (subtree recursive.field current).walk keyed recursive.included path = .ok (some rows)) ∧
        reached = ⟨receiver.path ++ List.replicate path.length recursive.field, receiver.key ++ path⟩ := by
  induction path generalizing current receiver with
  | nil => simp [follow, RoseTree.walk, eq_comm]
  | cons component rest ih =>
    simp only [follow_cons, RoseTree.walk_cons, branches_subtree, List.find?_map, Function.comp_def,
      label_subtree, keyed, ih, Option.map_eq_some_iff, List.append_assoc,
      List.length_cons, List.replicate_succ, List.singleton_append]
    constructor
    · rintro ⟨child, found, passes, ⟨rows, walked⟩, rfl⟩
      exact ⟨⟨child :: rows, subtree recursive.field child, ⟨child, found, rfl⟩, by simpa using passes,
        rows, walked, by simp⟩, rfl⟩
    · rintro ⟨⟨rows, tree, ⟨child, found, rfl⟩, passes, deeper, walked, rfl⟩, rfl⟩
      exact ⟨child, found, by simpa using passes, ⟨deeper, walked⟩, rfl⟩

end CompiledRecursive

end Receivers

end Liasse.Coverage

namespace Liasse.Coverage

open Liasse.Codes Liasse.Expr Liasse.Wire

section Documents

variable {libraries : Libraries}

/-- A wire form can be read as JSON. -/
def Legible (libraries : Libraries) (tree : J) : Prop :=
  ∃ json, Document.fromWire libraries tree = .ok json

theorem legible_array (items : List J) :
    Legible libraries (.array items) ↔ ∀ item ∈ items, Legible libraries item := by
  rw [Legible, Document.fromWire, Document.fromWireItems_eq]
  constructor
  · rintro ⟨json, read⟩ item inside
    cases all : items.mapM (Document.fromWire libraries) with
    | error error => simp [all, Except.map] at read
    | ok answers =>
      obtain ⟨json, -, found⟩ := exists_of_mapM all inside
      exact ⟨json, found⟩
  · intro each
    obtain ⟨answers, all⟩ := exists_mapM each
    exact ⟨.array answers, by rw [all]; rfl⟩

theorem legible_member (member : String × J) :
    (∃ read, Document.fromWireMember libraries member = .ok read) ↔ Legible libraries member.2 := by
  obtain ⟨name, tree⟩ := member
  rw [Document.fromWireMember]
  constructor
  · rintro ⟨read, done⟩
    obtain ⟨json, here, -⟩ := bind_ok.mp done
    exact ⟨json, here⟩
  · rintro ⟨json, here⟩
    exact ⟨(name, json), by rw [here]; rfl⟩

theorem legible_object (members : List (String × J)) :
    Legible libraries (.object members) ↔ ∀ member ∈ members, Legible libraries member.2 := by
  rw [Legible, Document.fromWire, Document.fromWireMembers_eq]
  constructor
  · rintro ⟨json, read⟩ member inside
    cases all : members.mapM (Document.fromWireMember libraries) with
    | error error => simp [all, Except.map] at read
    | ok answers =>
      obtain ⟨read, -, found⟩ := exists_of_mapM all inside
      exact (legible_member member).mp ⟨read, found⟩
  · intro each
    obtain ⟨answers, all⟩ := exists_mapM fun member inside => (legible_member member).mpr (each member inside)
    rw [all]
    exact ⟨_, rfl⟩

/-- An insertion keeps the members of other names. -/
theorem mem_insert {members : List (String × J)} {name : String} {value : J} {member : String × J} :
    member ∈ J.insert members name value ↔ (member ∈ members ∧ member.1 ≠ name) ∨ member = (name, value) := by
  rw [J.insert]
  split
  · next present =>
      rw [List.mem_map]
      constructor
      · rintro ⟨before, inside, rfl⟩
        by_cases named : before.1 = name
        · rw [if_pos named]
          exact .inr rfl
        · rw [if_neg named]
          exact .inl ⟨inside, named⟩
      · rintro (⟨inside, other⟩ | rfl)
        · exact ⟨member, inside, if_neg other⟩
        · obtain ⟨before, inside, same⟩ := List.any_eq_true.mp present
          exact ⟨before, inside, if_pos (eq_of_beq same)⟩
  · next absent =>
      rw [List.mem_append, List.mem_singleton]
      refine or_congr (iff_self_and.mpr fun inside named => absent ?_) Iff.rfl
      exact List.any_eq_true.mpr ⟨member, inside, beq_iff_eq.mpr named⟩

theorem readObject_eq_ok {object : List (String × J)} :
    (∃ json, readObject libraries object = .ok json) ↔ Legible libraries (.object object) := by
  rw [readObject, Legible]
  cases Document.fromWire libraries (.object object) <;> simp [Except.mapError]

end Documents

section Showing

variable (libraries : Libraries) (view : TypedExpr)

/-- The projection of a row whose members can be read as JSON. The field of the nested view replaces a member of
its name. -/
def shown (field : Option String) (row : Row) : Except EngineError (List (String × J)) := do
  let object ← project libraries view row
  let _ ← readObject libraries (object.filter fun member => some member.1 ≠ field)
  pure object

variable {libraries view}

theorem shown_eq_ok {field : Option String} {row : Row} {object : List (String × J)} :
    shown libraries view field row = .ok object ↔
      project libraries view row = .ok object ∧
        ∀ member ∈ object, some member.1 ≠ field → Legible libraries member.2 := by
  have legible : ∀ object : List (String × J),
      Legible libraries (.object (object.filter fun member => some member.1 ≠ field)) ↔
        ∀ member ∈ object, some member.1 ≠ field → Legible libraries member.2 := by
    intro object
    simp only [legible_object, List.mem_filter, decide_eq_true_eq, and_imp]
  rw [shown, bind_ok]
  constructor
  · rintro ⟨read, projected, done⟩
    obtain ⟨json, found, done⟩ := bind_ok.mp done
    obtain rfl := Except.ok.inj done
    exact ⟨projected, (legible read).mp (readObject_eq_ok.mp ⟨json, found⟩)⟩
  · rintro ⟨projected, each⟩
    obtain ⟨json, found⟩ := readObject_eq_ok.mpr ((legible object).mpr each)
    exact ⟨object, projected, by rw [found]; rfl⟩

/-- The view of a tree can be read exactly when the tree can be pruned by the projections that can be read. -/
theorem legible_render {recursive : CompiledRecursive} (row : Row) :
    (∃ tree, recursive.coverTree libraries view row = .ok tree ∧
        Legible libraries (.object (render recursive.field tree))) ↔
      ∃ tree, RoseTree.prune (shown libraries view (some recursive.field)) recursive.included
        (subtree recursive.field row) = .ok tree := by
  induction row using nested_induct recursive.field with
  | step row ih =>
    have below : ∀ rows : List Row, (∀ child ∈ rows, child ∈ nested recursive.field row) →
        ((∃ kept, RoseTree.pruneBelow (project libraries view) recursive.included
            (rows.map (subtree recursive.field)) = .ok kept ∧
            ∀ tree ∈ kept, Legible libraries (.object (render recursive.field tree))) ↔
          ∃ kept, RoseTree.pruneBelow (shown libraries view (some recursive.field)) recursive.included
            (rows.map (subtree recursive.field)) = .ok kept) := by
      intro rows inside
      induction rows with
      | nil => exact iff_of_true ⟨[], rfl, fun _ inside => absurd inside List.not_mem_nil⟩ ⟨[], rfl⟩
      | cons child rest later =>
        have others := later fun other member => inside other (List.mem_cons_of_mem _ member)
        have here := ih child (inside child List.mem_cons_self)
        rw [CompiledRecursive.coverTree] at here
        rw [List.map_cons, RoseTree.pruneBelow, RoseTree.pruneBelow, label_subtree]
        cases recursive.included child with
        | error error =>
          apply iff_of_false
          · rintro ⟨_, failed, _⟩
            cases failed
          · rintro ⟨_, failed⟩
            cases failed
        | ok flag =>
          rw [ok_bind, ok_bind]
          cases flag with
          | false => exact others
          | true =>
            rw [if_pos rfl, if_pos rfl]
            constructor
            · rintro ⟨kept, pruned, legible⟩
              obtain ⟨tree, first, pruned⟩ := bind_ok.mp pruned
              obtain ⟨trees, after, pruned⟩ := bind_ok.mp pruned
              obtain rfl := Except.ok.inj pruned
              obtain ⟨top, deeper⟩ := List.forall_mem_cons.mp legible
              obtain ⟨shownTree, shownFirst⟩ := here.mp ⟨tree, first, top⟩
              obtain ⟨shownTrees, shownAfter⟩ := others.mp ⟨trees, after, deeper⟩
              exact ⟨shownTree :: shownTrees, by rw [shownFirst, ok_bind, shownAfter]; rfl⟩
            · rintro ⟨kept, pruned⟩
              obtain ⟨tree, first, pruned⟩ := bind_ok.mp pruned
              obtain ⟨trees, after, -⟩ := bind_ok.mp pruned
              obtain ⟨cover, covered, top⟩ := here.mpr ⟨tree, first⟩
              obtain ⟨covers, coveredAfter, deeper⟩ := others.mpr ⟨trees, after⟩
              exact ⟨cover :: covers, by rw [covered, ok_bind, coveredAfter]; rfl,
                List.forall_mem_cons.mpr ⟨top, deeper⟩⟩
    have rows := below (nested recursive.field row) fun _ inside => inside
    have legible : ∀ object branches, Legible libraries
        (.object (render recursive.field (.node (row, object) branches))) ↔
          (∀ member ∈ object, some member.1 ≠ some recursive.field → Legible libraries member.2) ∧
            ∀ tree ∈ branches, Legible libraries (.object (render recursive.field tree)) := by
      intro object branches
      rw [render, renderAll_eq, legible_object]
      simp only [mem_insert]
      constructor
      · intro each
        refine ⟨fun member inside other => each member (.inl ⟨inside, fun same => other (congrArg some same)⟩), ?_⟩
        exact List.forall_mem_map.mp ((legible_array _).mp (each _ (.inr rfl)))
      · rintro ⟨own, deeper⟩ member (⟨inside, other⟩ | rfl)
        · exact own member inside fun same => other (Option.some.inj same)
        · exact (legible_array _).mpr (List.forall_mem_map.mpr deeper)
    rw [CompiledRecursive.coverTree, subtree_eq, RoseTree.prune, RoseTree.prune]
    constructor
    · rintro ⟨tree, pruned, readable⟩
      obtain ⟨object, projected, pruned⟩ := bind_ok.mp pruned
      obtain ⟨branches, kept, pruned⟩ := bind_ok.mp pruned
      obtain rfl := Except.ok.inj pruned
      obtain ⟨own, deeper⟩ := (legible object branches).mp readable
      obtain ⟨others, after⟩ := rows.mp ⟨branches, kept, deeper⟩
      exact ⟨.node (row, object) others, by rw [shown_eq_ok.mpr ⟨projected, own⟩, ok_bind, after]; rfl⟩
    · rintro ⟨tree, pruned⟩
      obtain ⟨object, projected, pruned⟩ := bind_ok.mp pruned
      obtain ⟨branches, kept, -⟩ := bind_ok.mp pruned
      obtain ⟨projected, own⟩ := shown_eq_ok.mp projected
      obtain ⟨others, after, deeper⟩ := rows.mpr ⟨branches, kept⟩
      exact ⟨.node (row, object) others, by rw [projected, ok_bind, after]; rfl,
        (legible object others).mpr ⟨own, deeper⟩⟩

end Showing

end Liasse.Coverage

/-
This file tells which views deliver their rows in the order that they declare.
-/

import Liasse.Expr.ResultOrder
import Liasse.Expr.Combination

namespace Liasse.Expr

open Liasse.Runtime
open Liasse.Live (SortOrder)

section Deliveries

/-- An expression gives rows as its value or as a view. -/
inductive Context
  | value
  | view
deriving DecidableEq

/-- An expression in the context that asks for its rows. -/
structure Delivery where
  context : Context
  expr : TypedExpr

variable (lib : Library) (env : Environment) (views : String → Option SortOrder) (frames : Frames)

namespace Delivery

/-- The rows that are delivered. -/
def rows (delivery : Delivery) : Except EvalError (List Row) :=
  match delivery.context with
  | .value => do rowsOf "a view" (← (delivery.expr.meaning lib env).eval frames)
  | .view => do pure ((← (delivery.expr.meaning lib env).evalView frames).map RowScope.row)

/-- The delivered rows increase in the declared order. -/
def Delivers (delivery : Delivery) : Prop :=
  ∀ rows, delivery.rows lib env frames = .ok rows → Increasing (resultOrder views delivery.expr) rows

/-- The branch that a condition chooses. -/
def chosen (cond yes otherwise : TypedExpr) : Option Delivery :=
  match evalScalar (cond.meaning lib env) frames with
  | .ok verdict => some ⟨.value, if isTrue (.scalar verdict) then yes else otherwise⟩
  | .error _ => none

/-- The operand that a fallback chooses. -/
def present (primary other : TypedExpr) : Option Delivery :=
  match (primary.meaning lib env).eval frames with
  | .ok cell => some ⟨.value, if isAbsent cell then other else primary⟩
  | .error _ => none

/-- A view takes its rows and their order from another one. A projection orders its rows anew. -/
def source : Delivery → Option Delivery
  | ⟨context, .mk _ (.select base (.bind _ _))⟩ => some ⟨context, base⟩
  | ⟨_, .mk _ (.select base (.keys _))⟩ => some ⟨.value, base⟩
  | ⟨_, .mk _ (.combine _ lhs _)⟩ => some ⟨.view, lhs⟩
  | ⟨_, .mk _ (.ternary cond yes otherwise)⟩ => chosen lib env frames cond yes otherwise
  | ⟨_, .mk _ (.fallback primary other)⟩ => present lib env frames primary other
  | _ => none

end Delivery

end Deliveries

section Conditions

variable (lib : Library) (env : Environment) (views : String → Option SortOrder) (frames : Frames)

/-- The keys that a value selects. -/
def wantedKeys : Value → List Value
  | .set members => members.map Value.identityValue
  | key => [key.identityValue]

def keyValues (keys : List TypedExpr) : Except EvalError (List Value) :=
  mapItems (fun key => do scalarOf "a scalar key" (← (key.meaning lib env).eval frames)) keys

/-- The rows of a member of a row. -/
def memberRows (member : String) (scope : RowScope) : List Row :=
  match scope.row.cell member with
  | some (.collection rows) => rows
  | _ => []

/-- The groups of a projection, in the order of their keys. -/
def groupsOf (projection : Projection Meaning) (scopes : List RowScope) :
    Except EvalError (List (List Value × List RowScope)) := do
  let keyed ← mapItems (fun scope => do pure (← groupKey scope projection frames, scope)) scopes
  pure (keyed.foldl (fun groups member => insertGroup member.1 member.2 groups) [])

/-- The row of a group with its sort keys. -/
def rankGroup (projection : Projection Meaning) (group : List Value × List RowScope) :
    Except EvalError (List (Row × List Value)) := do
  match group.2 with
  | [] => pure []
  | first :: rest =>
    let cell := Cell.collection ((first :: rest).map RowScope.row)
    pure [← projectRanked first projection (some (cell, syntheticKeyValue group.1)) frames]

/-- The rows of a projection with their sort keys, before they are sorted. -/
def ranking (projection : Projection Meaning) (scopes : List RowScope) :
    Except EvalError (List (Row × List Value)) :=
  if projection.key.isEmpty then mapItems (fun scope => projectRanked scope projection none frames) scopes
  else do
    let groups ← groupsOf frames projection scopes
    let ranked ← mapItems (rankGroup frames projection) groups
    pure ranked.flatten

/-- The identities of the source rows, or of the groups in the order of their keys. -/
def sourceIds (projection : Projection Meaning) (scopes : List RowScope) : Except EvalError (List RowId) :=
  if projection.key.isEmpty then .ok (scopes.map RowScope.identity)
  else do
    let groups ← groupsOf frames projection scopes
    pure (groups.map fun group => [.key (syntheticKeyValue group.1).identityValue])

/-- A projection without sort keys keeps identities that ascend. A projection with sort keys keeps no two rows
of one sort tuple and one identity. -/
def ProjectionKeeps (projection : Projection Meaning) (scopes : List RowScope) : Prop :=
  if projection.sort.isEmpty then
    ∀ ids, sourceIds frames projection scopes = .ok ids →
      (within projection.skip projection.limit ids).Pairwise fun first second => cmpId first second = .lt
  else
    ∀ ranked, ranking frames projection scopes = .ok ranked →
      (within projection.skip projection.limit (placed (projection.sort.map Prod.snd) ranked)).Pairwise
        fun first second =>
          compareSorted (projection.sort.map Prod.snd) first.2 first.1.id second.2 second.1.id ≠ .eq

/-- The keys of a selection name the rows in their order, and no row twice. -/
def KeysAscend (order : SortOrder) (rows : List Row) (values : List Value) : Prop :=
  (values.flatMap wantedKeys).Pairwise fun first second =>
    ∀ row ∈ rows, ∀ other ∈ rows, keyMatches row.key first → keyMatches other.key second →
      Precedes order row other

/-- The new rows of a union increase in the order of the left rows, and they are behind those. -/
def NewRowsFollow (order : SortOrder) (left right : List RowScope) : Prop :=
  Increasing order ((newScopes (left.map RowScope.identity) right).map RowScope.row) ∧
    ∀ scope ∈ left, ∀ new ∈ newScopes (left.map RowScope.identity) right, Precedes order scope.row new.row

/-- The rows of each member ascend, and they are behind the rows of the earlier members. -/
def MembersAscend (levels : List (List Row)) : Prop :=
  (∀ level ∈ levels, Increasing unordered level) ∧
    levels.Pairwise fun first second => ∀ row ∈ first, ∀ other ∈ second, cmpId row.id other.id = .lt

namespace Delivery

/-- What an operation needs of its operands so that it keeps their order. -/
def Condition (delivery : Delivery) : Prop :=
  match delivery with
  | ⟨_, .mk _ (.select _ (.bind _ _))⟩ => True
  | ⟨context, .mk type (.select base (.keys keys))⟩ =>
    (context = .value ∧ isRow type) ∨
      ∀ rows values, Delivery.rows lib env frames ⟨.value, base⟩ = .ok rows →
        keyValues lib env frames keys = .ok values → KeysAscend (resultOrder views base) rows values
  | ⟨_, .mk _ (.combine .union lhs rhs)⟩ =>
    ∀ left right, (lhs.meaning lib env).evalView frames = .ok left →
      (rhs.meaning lib env).evalView frames = .ok right → NewRowsFollow (resultOrder views lhs) left right
  | ⟨_, .mk _ (.combine _ _ _)⟩ => True
  | ⟨_, .mk type (.ternary cond yes otherwise)⟩ =>
    ∀ operand, chosen lib env frames cond yes otherwise = some operand →
      resultOrder views operand.expr = resultOrder views (.mk type (.ternary cond yes otherwise)) ∨
        ∀ rows, operand.rows lib env frames = .ok rows →
          Increasing (resultOrder views (.mk type (.ternary cond yes otherwise))) rows
  | ⟨_, .mk type (.fallback primary other)⟩ =>
    ∀ operand, present lib env frames primary other = some operand →
      resultOrder views operand.expr = resultOrder views (.mk type (.fallback primary other)) ∨
        ∀ rows, operand.rows lib env frames = .ok rows →
          Increasing (resultOrder views (.mk type (.fallback primary other))) rows
  | ⟨context, .mk type (.project source projection)⟩ =>
    (context = .value ∧ isRow type) ∨
      ∀ scopes, (source.meaning lib env).evalView frames = .ok scopes →
        ProjectionKeeps frames (projection.map (TypedExpr.meaning lib env)) scopes
  | ⟨_, .mk _ (.traverse base member)⟩ =>
    ∀ scopes, (base.meaning lib env).evalView frames = .ok scopes →
      MembersAscend (scopes.map (memberRows member))
  | leaf => leaf.Delivers lib env views frames

/-- A delivery fails or its operation keeps the order. -/
def Keeps (delivery : Delivery) : Prop :=
  (∃ rows, delivery.rows lib env frames = .ok rows) → delivery.Condition lib env views frames

end Delivery

end Conditions

section Operations

variable {frames : Frames}

theorem mapItems_ok_iff {A B : Type} {change : A → Except EvalError B} {items : List A} {results : List B} :
    mapItems change items = .ok results ↔ List.Forall₂ (fun item result => change item = .ok result) items results := by
  induction items generalizing results with
  | nil =>
    rw [mapItems, List.forall₂_nil_left_iff, Except.ok.injEq, eq_comm]
  | cons item rest earlier =>
    constructor
    · intro all
      obtain ⟨head, changed, all⟩ := Codes.bind_ok.mp all
      obtain ⟨later, ran, all⟩ := Codes.bind_ok.mp all
      obtain rfl := Except.ok.inj all
      exact .cons changed (earlier.mp ran)
    · intro all
      obtain ⟨head, later, changed, ran, rfl⟩ := List.forall₂_cons_left_iff.mp all
      rw [mapItems, changed, Codes.ok_bind, earlier.mpr ran, Codes.ok_bind]
      rfl

/-- What a change keeps of each item is kept of all items. -/
theorem map_of_mapItems {A B C : Type} {change : A → Except EvalError B} {items : List A} {results : List B}
    (all : mapItems change items = .ok results) {before : A → C} {after : B → C}
    (kept : ∀ item result, change item = .ok result → after result = before item) :
    results.map after = items.map before := by
  have changes := mapItems_ok_iff.mp all
  clear all
  induction changes with
  | nil => rfl
  | cons changed _ earlier => rw [List.map_cons, List.map_cons, kept _ _ changed, earlier]

theorem keepItems_sublist {A : Type} {verdict : A → Except EvalError Bool} {items kept : List A}
    (all : keepItems verdict items = .ok kept) : kept.Sublist items := by
  induction items generalizing kept with
  | nil =>
    obtain rfl := Except.ok.inj all
    exact .slnil
  | cons item rest earlier =>
    obtain ⟨holds, _, all⟩ := Codes.bind_ok.mp all
    obtain ⟨later, ran, all⟩ := Codes.bind_ok.mp all
    obtain rfl := Except.ok.inj all
    cases holds with
    | true => exact (earlier ran).cons_cons _
    | false => exact (earlier ran).cons _

/-- A filter keeps some rows in their order. -/
theorem selectBindScopes_sublist {scopes kept : List RowScope} {name : String} {condition : Option Meaning}
    (all : selectBindScopes scopes name condition frames = .ok kept) :
    (kept.map RowScope.row).Sublist (scopes.map RowScope.row) := by
  have named (chosen : List RowScope) : (chosen.map fun scope => ({ scope with
      binds := scope.binds ++ [(name, .row scope.row)] } : RowScope)).map RowScope.row = chosen.map RowScope.row := by
    rw [List.map_map]
    rfl
  cases condition with
  | none =>
    obtain rfl := Except.ok.inj all
    rw [named]
  | some condition =>
    obtain ⟨chosen, ran, all⟩ := Codes.bind_ok.mp all
    obtain rfl := Except.ok.inj all
    rw [named]
    exact (keepItems_sublist ran).map _

theorem selectByBind_sublist {rows kept : List Row} {name : String} {condition : Option Meaning}
    (all : selectByBind rows name condition frames = .ok kept) : kept.Sublist rows := by
  cases condition with
  | none =>
    obtain rfl := Except.ok.inj all
    exact .refl _
  | some condition => exact keepItems_sublist all

theorem rowsOfKey_eq (rows : List Row) (value : Value) :
    rowsOfKey rows value = (wantedKeys value).flatMap fun key => rows.filter fun row => keyMatches row.key key := by
  cases value <;> simp [rowsOfKey, wantedKeys, List.flatMap_map]

/-- The selected rows increase exactly when the keys name rows in their order. -/
theorem increasing_selected_iff {order : SortOrder} {rows : List Row} (increasing : Increasing order rows)
    (values : List Value) :
    Increasing order (values.map (rowsOfKey rows)).flatten ↔ KeysAscend order rows values := by
  have shape : (values.map (rowsOfKey rows)).flatten =
      (values.flatMap wantedKeys).flatMap fun key => rows.filter fun row => keyMatches row.key key := by
    rw [← List.flatMap_def, List.flatMap_assoc]
    exact List.flatMap_congr fun value _ => rowsOfKey_eq rows value
  rw [shape, increasing_iff, List.pairwise_flatMap, KeysAscend]
  constructor
  · rintro ⟨_, ascend⟩
    refine ascend.imp fun apart row listed other also matched same => ?_
    exact apart row (List.mem_filter.mpr ⟨listed, matched⟩) other (List.mem_filter.mpr ⟨also, same⟩)
  · intro ascend
    refine ⟨fun key _ => increasing_iff.mp (increasing.sublist List.filter_sublist), ?_⟩
    refine ascend.imp fun apart row chosen other also => ?_
    obtain ⟨listed, matched⟩ := List.mem_filter.mp chosen
    obtain ⟨present, same⟩ := List.mem_filter.mp also
    exact apart row listed other present matched same

/-- A combination increases with its left rows, and a union exactly when its new rows follow them. -/
theorem increasing_combined {order : SortOrder} {left : List RowScope}
    (increasing : Increasing order (left.map RowScope.row)) {op : CombineOp} (narrows : op ≠ .union)
    (right : List RowScope) : Increasing order ((combined op left right).map RowScope.row) := by
  cases op with
  | union => exact absurd rfl narrows
  | intersect => exact increasing.sublist (List.filter_sublist.map _)
  | difference => exact increasing.sublist (List.filter_sublist.map _)

theorem increasing_union_iff {order : SortOrder} {left : List RowScope}
    (increasing : Increasing order (left.map RowScope.row)) (right : List RowScope) :
    Increasing order ((combined .union left right).map RowScope.row) ↔ NewRowsFollow order left right := by
  rw [combined, List.map_append, increasing_iff, List.pairwise_append, ← increasing_iff, ← increasing_iff,
    NewRowsFollow]
  simp only [increasing, true_and, List.forall_mem_map]

end Operations

section Projections

variable {frames : Frames}

theorem Row.of_id (id : RowId) (key : Value) (cells : List (String × Cell)) : (Row.of id key cells).id = id := by
  have kept (row : Row) : (cells.foldl (fun row cell => row.set cell.1 cell.2) row).id = row.id := by
    induction cells generalizing row with
    | nil => rfl
    | cons cell rest earlier => rw [List.foldl_cons, earlier, Row.set_id]
  exact kept _

/-- A ranked row has a sort key for each direction, and the identity of its source row or of its group. -/
theorem projectRanked_ok {scope : RowScope} {projection : Projection Meaning} {group : Option (Cell × Value)}
    {row : Row} {keys : List Value} (ranked : projectRanked scope projection group frames = .ok (row, keys)) :
    keys.length = projection.sort.length ∧
      row.id = match group with
        | some (_, key) => [.key key.identityValue]
        | none => scope.identity := by
  obtain ⟨projected, ran, ranked⟩ := Codes.bind_ok.mp ranked
  obtain ⟨values, evaluated, ranked⟩ := Codes.bind_ok.mp ranked
  obtain ⟨rfl, rfl⟩ := Prod.mk.inj (Except.ok.inj ranked)
  refine ⟨(mapItems_ok_iff.mp evaluated).length_eq.symm, ?_⟩
  obtain ⟨⟨frame, cells⟩, _, ran⟩ := Codes.bind_ok.mp ran
  obtain ⟨quantity, _, ran⟩ := Codes.bind_ok.mp ran
  cases group with
  | none =>
    obtain rfl := Except.ok.inj ran
    exact Row.of_id _ _ _
  | some group =>
    obtain rfl := Except.ok.inj ran
    exact Row.of_id _ _ _

theorem projectScopes_eq (scopes : List RowScope) (projection : Projection Meaning) :
    projectScopes scopes projection frames = ranking frames projection scopes >>= fun ranked =>
      pure (bound (order projection.sort ranked) projection.skip projection.limit) := by
  rw [projectScopes, ranking]
  split
  · rfl
  · rw [projectGrouped, groupsOf]
    simp only [bind_assoc, pure_bind]
    rfl

theorem insertGroup_ne_nil {key : List Value} {scope : RowScope} {groups : List (List Value × List RowScope)}
    (filled : ∀ group ∈ groups, group.2 ≠ []) : ∀ group ∈ insertGroup key scope groups, group.2 ≠ [] := by
  induction groups with
  | nil => simp [insertGroup]
  | cons group rest earlier =>
    obtain ⟨here, later⟩ := List.forall_mem_cons.mp filled
    rw [insertGroup]
    cases Value.cmpList key group.1 with
    | lt => exact List.forall_mem_cons.mpr ⟨List.cons_ne_nil _ _, filled⟩
    | eq => exact List.forall_mem_cons.mpr ⟨by simp, later⟩
    | gt => exact List.forall_mem_cons.mpr ⟨here, earlier later⟩

/-- Each group has a member. -/
theorem groupsOf_ne_nil {projection : Projection Meaning} {scopes : List RowScope}
    {groups : List (List Value × List RowScope)} (grouped : groupsOf frames projection scopes = .ok groups) :
    ∀ group ∈ groups, group.2 ≠ [] := by
  obtain ⟨keyed, _, grouped⟩ := Codes.bind_ok.mp grouped
  obtain rfl := Except.ok.inj grouped
  have kept (members : List (List Value × RowScope)) (groups : List (List Value × List RowScope))
      (filled : ∀ group ∈ groups, group.2 ≠ []) :
      ∀ group ∈ members.foldl (fun groups member => insertGroup member.1 member.2 groups) groups,
        group.2 ≠ [] := by
    induction members generalizing groups with
    | nil => exact filled
    | cons member rest earlier => exact earlier _ (insertGroup_ne_nil filled)
  exact kept keyed [] (fun _ inside => absurd inside List.not_mem_nil)

theorem rankGroup_ok {projection : Projection Meaning} {group : List Value × List RowScope}
    {ranked : List (Row × List Value)} (filled : group.2 ≠ [])
    (row : rankGroup frames projection group = .ok ranked) :
    ∃ first keys, ranked = [(first, keys)] ∧ keys.length = projection.sort.length ∧
      first.id = [.key (syntheticKeyValue group.1).identityValue] := by
  obtain ⟨key, members⟩ := group
  cases members with
  | nil => exact absurd rfl filled
  | cons member rest =>
    obtain ⟨⟨first, keys⟩, ran, row⟩ := Codes.bind_ok.mp row
    obtain rfl := Except.ok.inj row
    exact ⟨first, keys, rfl, projectRanked_ok ran⟩

theorem rankGroups_ok {projection : Projection Meaning} {groups : List (List Value × List RowScope)}
    {levels : List (List (Row × List Value))} (filled : ∀ group ∈ groups, group.2 ≠ [])
    (all : mapItems (rankGroup frames projection) groups = .ok levels) :
    (∀ row ∈ levels.flatten, row.2.length = projection.sort.length) ∧
      groups.map (fun group => [RowIdPart.key (syntheticKeyValue group.1).identityValue]) =
        levels.flatten.map fun row => row.1.id := by
  have changes := mapItems_ok_iff.mp all
  clear all
  induction changes with
  | nil => exact ⟨fun _ inside => absurd inside List.not_mem_nil, rfl⟩
  | cons ran _ earlier =>
    obtain ⟨here, later⟩ := List.forall_mem_cons.mp filled
    obtain ⟨first, keys, rfl, full, id⟩ := rankGroup_ok here ran
    obtain ⟨fullLater, idsLater⟩ := earlier later
    refine ⟨List.forall_mem_cons.mpr ⟨full, fullLater⟩, ?_⟩
    rw [List.map_cons, idsLater, ← id]
    rfl

/-- The ranked rows have full sort tuples and the identities of the source. -/
theorem ranking_ok {projection : Projection Meaning} {scopes : List RowScope}
    {ranked : List (Row × List Value)} (all : ranking frames projection scopes = .ok ranked) :
    (∀ row ∈ ranked, row.2.length = (projection.sort.map Prod.snd).length) ∧
      sourceIds frames projection scopes = .ok (ranked.map fun row => row.1.id) := by
  rw [List.length_map]
  rw [ranking] at all
  rw [sourceIds]
  split at all
  · rename_i plain
    rw [if_pos plain]
    refine ⟨fun row inside => ?_, ?_⟩
    · obtain ⟨scope, _, ran⟩ := mem_of_mapItems all inside
      exact (projectRanked_ok ran).1
    · rw [map_of_mapItems all fun scope row ran => (projectRanked_ok ran).2]
  · rename_i grouped
    rw [if_neg grouped]
    obtain ⟨groups, named, all⟩ := Codes.bind_ok.mp all
    obtain ⟨levels, ran, all⟩ := Codes.bind_ok.mp all
    obtain rfl := Except.ok.inj all
    have filled := groupsOf_ne_nil named
    rw [named, Codes.ok_bind]
    obtain ⟨full, ids⟩ := rankGroups_ok filled ran
    exact ⟨full, congrArg Except.ok ids⟩

theorem increasing_unordered_iff {rows : List Row} :
    Increasing unordered rows ↔ (rows.map Row.id).Pairwise fun first second => cmpId first second = .lt := by
  rw [increasing_iff, List.pairwise_map]
  exact List.Pairwise.iff fun _ _ => precedes_unordered_iff

/-- The rows of a projection increase exactly when its source and its sort keys give distinct positions. -/
theorem increasing_project_iff {projection : Projection Meaning} {scopes : List RowScope} {rows : List Row}
    (all : projectScopes scopes projection frames = .ok rows) :
    Increasing (sortOrderOf projection.sort) rows ↔ ProjectionKeeps frames projection scopes := by
  rw [projectScopes_eq] at all
  obtain ⟨ranked, ran, all⟩ := Codes.bind_ok.mp all
  obtain rfl := Except.ok.inj all
  obtain ⟨full, ids⟩ := ranking_ok ran
  rw [ProjectionKeeps, order]
  split
  · rename_i plain
    have none : sortOrderOf projection.sort = unordered := by
      rw [sortOrderOf, List.isEmpty_iff.mp plain]
      rfl
    rw [none, increasing_unordered_iff, bound_eq, ← within_map, List.map_map]
    constructor
    · intro ascend other same
      obtain rfl := Except.ok.inj (ids.symm.trans same)
      exact ascend
    · exact fun ascend => ascend _ ids
  · rw [sortOrderOf, increasing_orderRows_iff full]
    constructor
    · intro distinct other same
      obtain rfl := Except.ok.inj (ran.symm.trans same)
      exact distinct
    · exact fun distinct => distinct _ ran

/-- The rows of a traversal increase exactly when the rows of its members do. -/
theorem increasing_traverse_iff {scopes : List RowScope} {name : Option String} {member : String}
    {levels : List (List RowScope)} (all : mapItems (traverseScope name member) scopes = .ok levels) :
    Increasing unordered (levels.flatten.map RowScope.row) ↔ MembersAscend (scopes.map (memberRows member)) := by
  have shape : levels.map (List.map RowScope.row) = scopes.map (memberRows member) := by
    refine map_of_mapItems all fun scope level ran => ?_
    rw [traverseScope] at ran
    rw [memberRows]
    split at ran
    · rename_i rows found
      obtain rfl := Except.ok.inj ran
      rw [found, List.map_map]
      exact List.map_id' _
    · cases ran
    · rename_i found
      obtain rfl := Except.ok.inj ran
      rw [found]
      rfl
  rw [List.map_flatten, shape, increasing_iff, List.pairwise_flatten, MembersAscend]
  simp only [increasing_iff, precedes_unordered_iff]

end Projections

section Nodes

variable {lib : Library} {env : Environment} {frames : Frames}

/-- The value of an operation, as its rows. -/
def valueRows (lib : Library) (env : Environment) (frames : Frames) (type : ExprType)
    (kind : TypedKind TypedExpr) : Except EvalError (List Row) := do
  rowsOf "a view" (← evalKind lib env type (kind.map (TypedExpr.meaning lib env)) frames)

theorem rowsOf_congr {expected wanted : String} {cell : Cell} {rows : List Row}
    (same : rowsOf expected cell = .ok rows) : rowsOf wanted cell = .ok rows := by
  cases cell with
  | scalar value => cases same
  | row row => exact same
  | collection rows => exact same

theorem map_row_bare (rows : List Row) : (rows.map RowScope.bare).map RowScope.row = rows := by
  rw [List.map_map]
  exact List.map_id' _

theorem increasing_oneRow {context expected : String} {found rows : List Row} {cell : Cell} (order : SortOrder)
    (single : oneRow context found = .ok cell) (same : rowsOf expected cell = .ok rows) :
    Increasing order rows := by
  rw [oneRow.eq_def] at single
  split at single
  · obtain rfl := Except.ok.inj single
    obtain rfl := Except.ok.inj same
    exact increasing_singleton _ _
  · cases single

namespace Delivery

theorem rows_value (type : ExprType) (kind : TypedKind TypedExpr) :
    rows lib env frames ⟨.value, .mk type kind⟩ = valueRows lib env frames type kind := by
  rw [rows, TypedExpr.meaning_mk]
  rfl

/-- An operation without a row stream of its own delivers the rows of its value. -/
theorem rows_of_value {context : Context} {type : ExprType} {kind : TypedKind TypedExpr}
    (plain : viewKind lib env type (kind.map (TypedExpr.meaning lib env)) frames =
      evalKind lib env type (kind.map (TypedExpr.meaning lib env)) frames >>= fun cell =>
        rowsOf "a view" cell >>= fun rows => pure (rows.map RowScope.bare)) :
    rows lib env frames ⟨context, .mk type kind⟩ = valueRows lib env frames type kind := by
  cases context with
  | value => exact rows_value type kind
  | view =>
    rw [rows, TypedExpr.meaning_mk]
    change (viewKind lib env type _ frames >>= fun scopes => pure (scopes.map RowScope.row)) = _
    rw [plain, valueRows, bind_assoc]
    cases evalKind lib env type (kind.map (TypedExpr.meaning lib env)) frames with
    | error failure => rfl
    | ok cell =>
      change (rowsOf "a view" cell >>= _) >>= _ = rowsOf "a view" cell
      cases rowsOf "a view" cell with
      | error failure => rfl
      | ok rows => exact congrArg Except.ok (map_row_bare rows)

/-- A filter delivers some rows of its base, or one row. -/
theorem rows_filter {context : Context} {type : ExprType} {base : TypedExpr} {name : String}
    {condition : Option TypedExpr} {delivered : List Row}
    (ran : rows lib env frames ⟨context, .mk type (.select base (.bind name condition))⟩ = .ok delivered) :
    (∀ order, Increasing order delivered) ∨
      ∃ below, rows lib env frames ⟨context, base⟩ = .ok below ∧ delivered.Sublist below := by
  cases context with
  | value =>
    rw [rows_value, valueRows] at ran
    obtain ⟨cell, selected, same⟩ := Codes.bind_ok.mp ran
    obtain ⟨kept, filtered, selected⟩ := Codes.bind_ok.mp selected
    obtain ⟨found, evaluated, filtered⟩ := Codes.bind_ok.mp filtered
    obtain ⟨below, based, filtered⟩ := Codes.bind_ok.mp filtered
    split at selected
    · exact .inl fun order => increasing_oneRow order selected same
    · obtain rfl := Except.ok.inj selected
      obtain rfl := Except.ok.inj same
      refine .inr ⟨below, ?_, selectByBind_sublist filtered⟩
      rw [rows]
      change ((base.meaning lib env).eval frames >>= rowsOf "a view") = _
      rw [evaluated]
      exact rowsOf_congr based
  | view =>
    rw [rows, TypedExpr.meaning_mk] at ran
    obtain ⟨kept, filtered, ran⟩ := Codes.bind_ok.mp ran
    obtain ⟨scopes, based, filtered⟩ := Codes.bind_ok.mp filtered
    obtain rfl := Except.ok.inj ran
    refine .inr ⟨scopes.map RowScope.row, ?_, selectBindScopes_sublist filtered⟩
    rw [rows]
    change ((base.meaning lib env).evalView frames >>= _) = _
    rw [based]
    rfl

theorem rows_base {base : TypedExpr} {cell : Cell} {below : List Row} {expected : String}
    (evaluated : (base.meaning lib env).eval frames = .ok cell) (based : rowsOf expected cell = .ok below) :
    rows lib env frames ⟨.value, base⟩ = .ok below := by
  rw [rows]
  change ((base.meaning lib env).eval frames >>= rowsOf "a view") = _
  rw [evaluated]
  exact rowsOf_congr based

theorem selectByKeys_ok {keys : List TypedExpr} {below chosen : List Row}
    (named : selectByKeys below (keys.map (TypedExpr.meaning lib env)) frames = .ok chosen) :
    ∃ values, keyValues lib env frames keys = .ok values ∧ chosen = (values.map (rowsOfKey below)).flatten := by
  obtain ⟨selected, found, flat⟩ := Codes.bind_ok.mp named
  obtain rfl := Except.ok.inj flat
  have changes := mapItems_ok_iff.mp found
  rw [List.forall₂_map_left_iff] at changes
  clear named found flat
  induction changes with
  | nil => exact ⟨[], rfl, rfl⟩
  | cons found _ earlier =>
    obtain ⟨values, later, same⟩ := earlier
    obtain ⟨cell, key, found⟩ := Codes.bind_ok.mp found
    obtain ⟨value, scalar, found⟩ := Codes.bind_ok.mp found
    obtain rfl := Except.ok.inj found
    refine ⟨value :: values, mapItems_ok_iff.mpr (.cons ?_ (mapItems_ok_iff.mp later)), ?_⟩
    · rw [key]
      exact scalar
    · rw [List.flatten_cons, same]
      rfl

/-- A selection by keys delivers the rows of its base that the keys name. -/
theorem selectRows_keys {base : TypedExpr} {keys : List TypedExpr} {delivered : List Row}
    (ran : selectRows (base.meaning lib env) (.keys (keys.map (TypedExpr.meaning lib env))) frames =
      .ok delivered) :
    ∃ below values, rows lib env frames ⟨.value, base⟩ = .ok below ∧
      keyValues lib env frames keys = .ok values ∧ delivered = (values.map (rowsOfKey below)).flatten := by
  obtain ⟨cell, evaluated, ran⟩ := Codes.bind_ok.mp ran
  obtain ⟨below, based, ran⟩ := Codes.bind_ok.mp ran
  obtain ⟨values, named, same⟩ := selectByKeys_ok ran
  exact ⟨below, values, rows_base evaluated based, named, same⟩

theorem rows_keys {context : Context} {type : ExprType} {base : TypedExpr} {keys : List TypedExpr}
    {delivered : List Row}
    (ran : rows lib env frames ⟨context, .mk type (.select base (.keys keys))⟩ = .ok delivered) :
    ((context = .value ∧ isRow type) ∧ ∀ order, Increasing order delivered) ∨
      ¬(context = .value ∧ isRow type) ∧
        ∃ below values, rows lib env frames ⟨.value, base⟩ = .ok below ∧
          keyValues lib env frames keys = .ok values ∧ delivered = (values.map (rowsOfKey below)).flatten := by
  cases context with
  | value =>
    rw [rows_value, valueRows] at ran
    obtain ⟨cell, selected, same⟩ := Codes.bind_ok.mp ran
    obtain ⟨kept, named, selected⟩ := Codes.bind_ok.mp selected
    split at selected
    · rename_i single
      exact .inl ⟨⟨rfl, single⟩, fun order => increasing_oneRow order selected same⟩
    · rename_i many
      obtain rfl := Except.ok.inj selected
      obtain rfl := Except.ok.inj same
      exact .inr ⟨fun both => many both.2, selectRows_keys named⟩
  | view =>
    rw [rows, TypedExpr.meaning_mk] at ran
    obtain ⟨kept, selected, ran⟩ := Codes.bind_ok.mp ran
    obtain ⟨chosen, named, selected⟩ := Codes.bind_ok.mp selected
    obtain rfl := Except.ok.inj selected
    obtain rfl := Except.ok.inj ran
    rw [map_row_bare]
    exact .inr ⟨fun both => Context.noConfusion both.1, selectRows_keys named⟩

theorem rows_combine {context : Context} {type : ExprType} {op : CombineOp} {lhs rhs : TypedExpr}
    {delivered : List Row}
    (ran : rows lib env frames ⟨context, .mk type (.combine op lhs rhs)⟩ = .ok delivered) :
    ∃ left right, (lhs.meaning lib env).evalView frames = .ok left ∧
      (rhs.meaning lib env).evalView frames = .ok right ∧
      delivered = (combined op left right).map RowScope.row := by
  rw [rows_of_value rfl] at ran
  obtain ⟨cell, united, same⟩ := Codes.bind_ok.mp ran
  obtain ⟨left, first, united⟩ := Codes.bind_ok.mp united
  obtain ⟨right, second, united⟩ := Codes.bind_ok.mp united
  obtain rfl := Except.ok.inj united
  obtain rfl := Except.ok.inj same
  exact ⟨left, right, first, second, combineScopes_eq op left right⟩

theorem rows_ternary {context : Context} {type : ExprType} {cond yes otherwise : TypedExpr}
    {delivered : List Row}
    (ran : rows lib env frames ⟨context, .mk type (.ternary cond yes otherwise)⟩ = .ok delivered) :
    ∃ operand, chosen lib env frames cond yes otherwise = some operand ∧
      rows lib env frames operand = .ok delivered := by
  rw [rows_of_value rfl] at ran
  obtain ⟨cell, branch, same⟩ := Codes.bind_ok.mp ran
  obtain ⟨verdict, decided, branch⟩ := Codes.bind_ok.mp branch
  refine ⟨_, by rw [chosen, decided], ?_⟩
  split at branch
  · rename_i holds
    rw [if_pos holds]
    exact rows_base branch same
  · rename_i fails
    rw [if_neg fails]
    exact rows_base branch same

theorem rows_fallback {context : Context} {type : ExprType} {primary other : TypedExpr} {delivered : List Row}
    (ran : rows lib env frames ⟨context, .mk type (.fallback primary other)⟩ = .ok delivered) :
    ∃ operand, present lib env frames primary other = some operand ∧
      rows lib env frames operand = .ok delivered := by
  rw [rows_of_value rfl] at ran
  obtain ⟨cell, branch, same⟩ := Codes.bind_ok.mp ran
  obtain ⟨value, evaluated, branch⟩ := Codes.bind_ok.mp branch
  refine ⟨_, by rw [present, evaluated], ?_⟩
  split at branch
  · rename_i absent
    rw [if_pos absent]
    exact rows_base branch same
  · rename_i filled
    rw [if_neg filled]
    obtain rfl := Except.ok.inj branch
    exact rows_base evaluated same

theorem rows_project {context : Context} {type : ExprType} {origin : TypedExpr}
    {projection : Projection TypedExpr} {delivered : List Row}
    (ran : rows lib env frames ⟨context, .mk type (.project origin projection)⟩ = .ok delivered) :
    ((context = .value ∧ isRow type) ∧ ∀ order, Increasing order delivered) ∨
      ¬(context = .value ∧ isRow type) ∧
        ∃ scopes, (origin.meaning lib env).evalView frames = .ok scopes ∧
          projectScopes scopes (projection.map (TypedExpr.meaning lib env)) frames = .ok delivered := by
  cases context with
  | value =>
    rw [rows_value, valueRows] at ran
    obtain ⟨cell, projected, same⟩ := Codes.bind_ok.mp ran
    change evalProject _ _ _ _ = _ at projected
    rw [evalProject] at projected
    split at projected
    · rename_i single
      refine .inl ⟨⟨rfl, single⟩, fun order => ?_⟩
      obtain ⟨found, _, projected⟩ := Codes.bind_ok.mp projected
      split at projected
      · obtain ⟨row, _, projected⟩ := Codes.bind_ok.mp projected
        obtain rfl := Except.ok.inj projected
        obtain rfl := Except.ok.inj same
        exact increasing_singleton _ _
      · cases projected
    · rename_i many
      refine .inr ⟨fun both => many both.2, ?_⟩
      obtain ⟨listed, viewed, projected⟩ := Codes.bind_ok.mp projected
      obtain rfl := Except.ok.inj projected
      obtain rfl := Except.ok.inj same
      exact Codes.bind_ok.mp viewed
  | view =>
    rw [rows, TypedExpr.meaning_mk] at ran
    obtain ⟨kept, streamed, ran⟩ := Codes.bind_ok.mp ran
    obtain ⟨listed, viewed, projected⟩ := Codes.bind_ok.mp streamed
    obtain rfl := Except.ok.inj projected
    obtain rfl := Except.ok.inj ran
    rw [map_row_bare]
    exact .inr ⟨fun both => Context.noConfusion both.1, Codes.bind_ok.mp viewed⟩

theorem rows_traverse {context : Context} {type : ExprType} {base : TypedExpr} {member : String}
    {delivered : List Row}
    (ran : rows lib env frames ⟨context, .mk type (.traverse base member)⟩ = .ok delivered) :
    ∃ scopes levels, (base.meaning lib env).evalView frames = .ok scopes ∧
      mapItems (traverseScope (base.meaning lib env).bindName member) scopes = .ok levels ∧
      delivered = levels.flatten.map RowScope.row := by
  have streamed : ∃ scopes, evalTraverse (base.meaning lib env) member frames = .ok scopes ∧
      delivered = scopes.map RowScope.row := by
    cases context with
    | value =>
      rw [rows_value, valueRows] at ran
      obtain ⟨cell, evaluated, same⟩ := Codes.bind_ok.mp ran
      obtain ⟨scopes, traversed, cells⟩ := Codes.bind_ok.mp evaluated
      obtain rfl := Except.ok.inj cells
      obtain rfl := Except.ok.inj same
      exact ⟨scopes, traversed, rfl⟩
    | view =>
      rw [rows, TypedExpr.meaning_mk] at ran
      obtain ⟨scopes, traversed, same⟩ := Codes.bind_ok.mp ran
      obtain rfl := Except.ok.inj same
      exact ⟨scopes, traversed, rfl⟩
  obtain ⟨scopes, traversed, rfl⟩ := streamed
  obtain ⟨outer, streamed, traversed⟩ := Codes.bind_ok.mp traversed
  obtain ⟨levels, reached, flat⟩ := Codes.bind_ok.mp traversed
  obtain rfl := Except.ok.inj flat
  exact ⟨outer, levels, streamed, reached, rfl⟩

end Delivery

end Nodes

section Spine

variable (lib : Library) (env : Environment) (views : String → Option SortOrder) (frames : Frames)

namespace Delivery

/-- With its rows given, the order is kept exactly when the condition holds. -/
theorem delivers_iff_of {delivery : Delivery}
    (exact : ∀ delivered, delivery.rows lib env frames = .ok delivered →
      (Increasing (resultOrder views delivery.expr) delivered ↔ delivery.Condition lib env views frames)) :
    delivery.Delivers lib env views frames ↔ delivery.Keeps lib env views frames := by
  constructor
  · rintro delivers ⟨delivered, ran⟩
    exact (exact delivered ran).mp (delivers delivered ran)
  · intro keeps delivered ran
    exact (exact delivered ran).mpr (keeps ⟨delivered, ran⟩)

/-- A leaf keeps its order when it delivers its order. -/
theorem delivers_leaf {delivery : Delivery}
    (leaf : delivery.Condition lib env views frames = delivery.Delivers lib env views frames) :
    delivery.Delivers lib env views frames ↔ delivery.Keeps lib env views frames := by
  rw [Keeps, leaf]
  exact ⟨fun delivers _ => delivers, fun keeps delivered ran => keeps ⟨delivered, ran⟩ delivered ran⟩

/-- A branch keeps its order when it has the order of the node or its rows stand in that order. -/
theorem branch_iff {order : SortOrder} {operand : Delivery} {picked : Option Delivery} {delivered : List Row}
    (delivers : operand.Delivers lib env views frames) (found : picked = some operand)
    (branch : operand.rows lib env frames = .ok delivered) :
    Increasing order delivered ↔ ∀ other, picked = some other →
      resultOrder views other.expr = order ∨
        ∀ rows, other.rows lib env frames = .ok rows → Increasing order rows := by
  constructor
  · intro increasing other also
    obtain rfl := Option.some.inj (found.symm.trans also)
    refine .inr fun rows same => ?_
    obtain rfl := Except.ok.inj (branch.symm.trans same)
    exact increasing
  · intro keeps
    rcases keeps operand found with same | increasing
    · exact same ▸ delivers delivered branch
    · exact increasing delivered branch

/-- With a source in its order, an operation delivers its order exactly when it keeps it. -/
theorem delivers_iff {delivery : Delivery}
    (above : ∀ operand, delivery.source lib env frames = some operand → operand.Delivers lib env views frames) :
    delivery.Delivers lib env views frames ↔ delivery.Keeps lib env views frames := by
  obtain ⟨context, type, kind⟩ := delivery
  cases kind with
  | select base selector =>
    refine delivers_iff_of lib env views frames fun delivered ran => ?_
    cases selector with
    | bind name condition =>
      refine ⟨fun _ => trivial, fun _ => ?_⟩
      rcases rows_filter ran with single | ⟨below, based, fewer⟩
      · exact single _
      · exact (above ⟨context, base⟩ rfl below based).sublist fewer
    | keys keys =>
      rcases rows_keys ran with ⟨single, increasing⟩ | ⟨many, below, values, based, named, rfl⟩
      · exact ⟨fun _ => .inl single, fun _ => increasing _⟩
      · have exact_iff := increasing_selected_iff (above ⟨.value, base⟩ rfl below based) values
        refine exact_iff.trans ⟨fun ascend => .inr fun rows others found keyed => ?_, fun keeps => ?_⟩
        · obtain rfl := Except.ok.inj (based.symm.trans found)
          obtain rfl := Except.ok.inj (named.symm.trans keyed)
          exact ascend
        · exact (keeps.resolve_left many) below values based named
  | combine op lhs rhs =>
    refine delivers_iff_of lib env views frames fun delivered ran => ?_
    obtain ⟨left, right, first, second, rfl⟩ := rows_combine ran
    have leftRows : rows lib env frames ⟨.view, lhs⟩ = .ok (left.map RowScope.row) := by
      rw [rows]
      change ((lhs.meaning lib env).evalView frames >>= _) = _
      rw [first]
      rfl
    have increasing := above ⟨.view, lhs⟩ rfl _ leftRows
    cases op with
    | union =>
      refine (increasing_union_iff increasing right).trans
        ⟨fun follow others news found also => ?_, fun keeps => keeps left right first second⟩
      obtain rfl := Except.ok.inj (first.symm.trans found)
      obtain rfl := Except.ok.inj (second.symm.trans also)
      exact follow
    | intersect => exact ⟨fun _ => trivial, fun _ => increasing_combined increasing (by decide) right⟩
    | difference => exact ⟨fun _ => trivial, fun _ => increasing_combined increasing (by decide) right⟩
  | ternary cond yes otherwise =>
    refine delivers_iff_of lib env views frames fun delivered ran => ?_
    obtain ⟨operand, picked, branch⟩ := rows_ternary ran
    exact branch_iff lib env views frames (above operand picked) picked branch
  | fallback primary other =>
    refine delivers_iff_of lib env views frames fun delivered ran => ?_
    obtain ⟨operand, picked, branch⟩ := rows_fallback ran
    exact branch_iff lib env views frames (above operand picked) picked branch
  | project origin projection =>
    refine delivers_iff_of lib env views frames fun delivered ran => ?_
    rcases rows_project ran with ⟨single, increasing⟩ | ⟨many, scopes, streamed, projected⟩
    · exact ⟨fun _ => .inl single, fun _ => increasing _⟩
    · have order : resultOrder views (.mk type (.project origin projection)) =
          sortOrderOf (projection.map (TypedExpr.meaning lib env)).sort := by
        rw [resultOrder, sortOrderOf, sortOrderOf, Projection.map, List.map_map]
        rfl
      rw [order]
      refine (increasing_project_iff projected).trans
        ⟨fun keeps => .inr fun others found => ?_, fun keeps => keeps.resolve_left many scopes streamed⟩
      obtain rfl := Except.ok.inj (streamed.symm.trans found)
      exact keeps
  | traverse base member =>
    refine delivers_iff_of lib env views frames fun delivered ran => ?_
    obtain ⟨scopes, levels, streamed, reached, rfl⟩ := rows_traverse ran
    refine (increasing_traverse_iff reached).trans
      ⟨fun ascend others found => ?_, fun keeps => keeps scopes streamed⟩
    obtain rfl := Except.ok.inj (streamed.symm.trans found)
    exact ascend
  | _ => exact delivers_leaf lib env views frames rfl

/-- The view that another one draws from is a part of it. -/
theorem source_mem_parts {delivery operand : Delivery} (above : delivery.source lib env frames = some operand) :
    operand.expr ∈ delivery.expr.kind.parts := by
  obtain ⟨context, type, kind⟩ := delivery
  cases kind with
  | select base selector =>
    cases selector <;> obtain rfl := Option.some.inj above <;> exact List.mem_cons_self
  | combine op lhs rhs =>
    obtain rfl := Option.some.inj above
    exact List.mem_cons_self
  | ternary cond yes otherwise =>
    rw [source, chosen] at above
    split at above
    · obtain rfl := Option.some.inj above
      simp only [TypedExpr.kind, TypedKind.parts]
      split <;> simp
    · cases above
  | fallback primary other =>
    rw [source, present] at above
    split at above
    · obtain rfl := Option.some.inj above
      simp only [TypedExpr.kind, TypedKind.parts]
      split <;> simp
    · cases above
  | _ => cases above

theorem source_lt {delivery operand : Delivery} (above : delivery.source lib env frames = some operand) :
    sizeOf operand.expr < sizeOf delivery.expr := by
  have smaller := TypedExpr.sizeOf_lt_of_mem_parts (source_mem_parts lib env frames above)
  obtain ⟨context, type, kind⟩ := delivery
  simp only [TypedExpr.kind, TypedExpr.mk.sizeOf_spec] at smaller ⊢
  omega

/-- A view takes its rows from another one, through any number of operations. -/
def Draws : Delivery → Delivery → Prop :=
  Relation.ReflTransGen fun later earlier => source lib env frames later = some earlier

/-- A view and all views that it draws its rows from deliver the orders that they declare exactly when each
operation among them keeps its order. -/
theorem ordered_iff (delivery : Delivery) :
    (∀ operand, delivery.Draws lib env frames operand → operand.Delivers lib env views frames) ↔
      ∀ operand, delivery.Draws lib env frames operand → operand.Keeps lib env views frames := by
  constructor
  · intro delivers operand drawn
    have above (earlier : Delivery) (next : operand.source lib env frames = some earlier) :
        earlier.Delivers lib env views frames := delivers earlier (drawn.tail next)
    exact (delivers_iff lib env views frames above).mp (delivers operand drawn)
  · intro keeps operand drawn
    -- The views behind an operand are smaller expressions.
    induction size : sizeOf operand.expr using Nat.strong_induction_on generalizing operand with
    | h count smaller =>
      refine (delivers_iff lib env views frames fun earlier next => ?_).mpr (keeps operand drawn)
      exact smaller _ (size ▸ source_lt lib env frames next) earlier (drawn.tail next) rfl

end Delivery

end Spine

section Sample

/-- A root with an early task and a late one. -/
def splitRoot : Row :=
  keyedRow "root" [("early", .collection [keyedRow "a" []]), ("late", .collection [keyedRow "b" []])]

def rootCollection (name : String) : TypedExpr :=
  .mk taskView (.field (.mk (.row [("early", taskView), ("late", taskView)] none) .root) name)

/-- The late tasks and then the early ones. -/
def lateFirst : TypedExpr :=
  .mk taskView (.combine .union (rootCollection "late") (rootCollection "early"))

/-- An accepted union delivers the task `b` before the task `a`, and it declares no sort key. -/
theorem union_unordered :
    checkCombined Except.ok (fun _ => none) .union (rootCollection "late") (rootCollection "early") =
        .ok lateFirst ∧
      ¬ Delivery.Delivers plainLibrary (rootedEnvironment splitRoot) (fun _ => none) [] ⟨.view, lateFirst⟩ := by
  constructor
  · exact tasks_united (by simp [combinatorRelation])
  · intro delivers
    have increasing := delivers [keyedRow "b" [], keyedRow "a" []] rfl
    have before := (List.pairwise_cons.mp increasing.strict).1 (keyedRow "a" []) List.mem_cons_self
    exact absurd before (by unfold Row.before; decide +kernel)

end Sample

end Liasse.Expr

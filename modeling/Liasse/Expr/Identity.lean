/-
This file follows the identities of rows through a view and through a combination of two views.
-/

import Liasse.Expr.Evaluation
import Liasse.Codes.Listing

namespace Liasse.Expr

open Liasse.Runtime

section Identities

/-- What a comparison of identities sees of a part. -/
inductive IdentityPart
  | key (value : ValueClass)
  | occurrence (index : Nat)
deriving DecidableEq

def RowIdPart.seen : RowIdPart → IdentityPart
  | .key value => .key (.of value)
  | .occurrence index => .occurrence index

/-- What a comparison sees of an identity. -/
abbrev Identity := List IdentityPart

def identityOf (id : RowId) : Identity :=
  id.map RowIdPart.seen

theorem RowIdPart.cmp_eq_iff {first second : RowIdPart} :
    first.cmp second = .eq ↔ first.seen = second.seen := by
  cases first <;> cases second <;> simp [cmp, seen, ValueClass.of_eq_iff]

theorem cmpId_eq_iff {first second : RowId} :
    cmpId first second = .eq ↔ identityOf first = identityOf second := by
  induction first generalizing second with
  | nil => cases second <;> simp [cmpId, identityOf, List.compareLex]
  | cons part rest earlier =>
    cases second with
    | nil => simp [cmpId, identityOf, List.compareLex]
    | cons other others =>
      simp only [cmpId, identityOf] at earlier
      simp [cmpId, identityOf, List.compareLex_cons_cons, Ordering.then_eq_eq,
        RowIdPart.cmp_eq_iff, earlier]

/-- The identities of a stream of rows. -/
def identities (scopes : List RowScope) : Set Identity :=
  {identity | ∃ scope ∈ scopes, identityOf scope.identity = identity}

theorem hasId_iff_mem {id : RowId} {ids : List RowId} :
    hasId id ids = true ↔ identityOf id ∈ ids.map identityOf := by
  simp only [hasId, List.any_eq_true, beq_iff_eq, cmpId_eq_iff, List.mem_map]
  constructor
  · rintro ⟨other, inside, same⟩
    exact ⟨other, inside, same.symm⟩
  · rintro ⟨other, inside, same⟩
    exact ⟨other, inside, same.symm⟩

theorem hasId_iff {id : RowId} {scopes : List RowScope} :
    hasId id (scopes.map RowScope.identity) = true ↔ identityOf id ∈ identities scopes := by
  rw [hasId_iff_mem, List.map_map]
  simp [identities]

/-- The identities of a stream, in its order. -/
def names (scopes : List RowScope) : List Identity :=
  scopes.map fun scope => identityOf scope.identity

@[simp] theorem names_cons (scope : RowScope) (rest : List RowScope) :
    names (scope :: rest) = identityOf scope.identity :: names rest := rfl

theorem mem_names {identity : Identity} {scopes : List RowScope} :
    identity ∈ names scopes ↔ identity ∈ identities scopes := by
  simp [names, identities]

/-- A combination of ordered identities: the left order first, and then the new ones of the right. -/
def CombineOp.ordered : CombineOp → List Identity → List Identity → List Identity
  | .union, left, right => left ++ Codes.fresh left right
  | .intersect, left, right => left.filter fun identity => identity ∈ right
  | .difference, left, right => left.filter fun identity => identity ∉ right

/-- A combination of sets of identities. -/
def CombineOp.sets : CombineOp → Set Identity → Set Identity → Set Identity
  | .union, left, right => left ∪ right
  | .intersect, left, right => left ∩ right
  | .difference, left, right => left \ right

/-- The ordered combination has the identities of the combined sets. -/
theorem mem_ordered {op : CombineOp} {left right : List Identity} {identity : Identity} :
    identity ∈ op.ordered left right ↔
      identity ∈ op.sets {identity | identity ∈ left} {identity | identity ∈ right} := by
  cases op with
  | union =>
    simp only [CombineOp.ordered, CombineOp.sets, List.mem_append, Codes.mem_fresh, Set.mem_union,
      Set.mem_ofPred_eq]
    tauto
  | intersect => simp [CombineOp.ordered, CombineOp.sets]
  | difference => simp [CombineOp.ordered, CombineOp.sets]

end Identities

section Streams

/-- The identity of a row in a stream is its own identity under the identities of the rows around it. -/
def RowScope.Composed (scope : RowScope) : Prop :=
  ∃ outer, scope.identity = outer ++ scope.row.id

/-- A row has an identity of its own and more above it. -/
def RowScope.Nested (scope : RowScope) : Prop :=
  scope.row.id.length < scope.identity.length

namespace RowScope

theorem composed_bare (row : Row) : (bare row).Composed :=
  ⟨[], rfl⟩

theorem Composed.of_not_nested {scope : RowScope} (composed : scope.Composed) (flat : ¬scope.Nested) :
    scope.identity = scope.row.id := by
  obtain ⟨outer, shape⟩ := composed
  simp only [Nested, shape, List.length_append] at flat
  have none : outer = [] := List.length_eq_zero_iff.mp (by omega)
  rw [shape, none, List.nil_append]

end RowScope

theorem mem_of_keepItems {A : Type} {verdict : A → Except EvalError Bool} {items kept : List A}
    (all : keepItems verdict items = .ok kept) {item : A} (inside : item ∈ kept) : item ∈ items := by
  induction items generalizing kept with
  | nil =>
    obtain rfl := Except.ok.inj all
    exact inside
  | cons first rest earlier =>
    obtain ⟨holds, _, all⟩ := Codes.bind_ok.mp all
    obtain ⟨later, ran, all⟩ := Codes.bind_ok.mp all
    obtain rfl := Except.ok.inj all
    cases holds with
    | false => exact List.mem_cons_of_mem _ (earlier ran inside)
    | true =>
      rcases List.mem_cons.mp inside with rfl | inside
      · exact List.mem_cons_self
      · exact List.mem_cons_of_mem _ (earlier ran inside)

theorem mem_of_mapItems {A B : Type} {change : A → Except EvalError B} {items : List A} {results : List B}
    (all : mapItems change items = .ok results) {result : B} (inside : result ∈ results) :
    ∃ item ∈ items, change item = .ok result := by
  induction items generalizing results with
  | nil =>
    obtain rfl := Except.ok.inj all
    cases inside
  | cons first rest earlier =>
    obtain ⟨head, changed, all⟩ := Codes.bind_ok.mp all
    obtain ⟨later, ran, all⟩ := Codes.bind_ok.mp all
    obtain rfl := Except.ok.inj all
    rcases List.mem_cons.mp inside with rfl | inside
    · exact ⟨first, List.mem_cons_self, changed⟩
    · obtain ⟨item, listed, same⟩ := earlier ran inside
      exact ⟨item, List.mem_cons_of_mem _ listed, same⟩

/-- A filter keeps the row and the identity of a scope. -/
theorem mem_of_selectBindScopes {scopes kept : List RowScope} {name : String} {condition : Option Meaning}
    {frames : Frames} (all : selectBindScopes scopes name condition frames = .ok kept) {scope : RowScope}
    (inside : scope ∈ kept) :
    ∃ before ∈ scopes, before.row = scope.row ∧ before.identity = scope.identity := by
  cases condition with
  | none =>
    obtain rfl := Except.ok.inj all
    obtain ⟨before, listed, rfl⟩ := List.mem_map.mp inside
    exact ⟨before, listed, rfl, rfl⟩
  | some condition =>
    obtain ⟨chosen, ran, all⟩ := Codes.bind_ok.mp all
    obtain rfl := Except.ok.inj all
    obtain ⟨before, listed, rfl⟩ := List.mem_map.mp inside
    exact ⟨before, mem_of_keepItems ran listed, rfl, rfl⟩

variable (lib : Library) (env : Environment)

/-- Each row of a view has a composed identity. A traversal composes one, a filter keeps it, and all other
operations give the rows their own. -/
theorem view_composed (expr : TypedExpr) {frames : Frames} {scopes : List RowScope}
    (view : (expr.meaning lib env).evalView frames = .ok scopes) :
    ∀ scope ∈ scopes, scope.Composed := by
  induction expr using TypedExpr.induct generalizing frames scopes with
  | step type kind earlier =>
    rw [TypedExpr.meaning_mk] at view
    have bare {rows : List Row} (same : rows.map RowScope.bare = scopes) :
        ∀ scope ∈ scopes, scope.Composed := by
      subst same
      intro scope inside
      obtain ⟨row, _, rfl⟩ := List.mem_map.mp inside
      exact RowScope.composed_bare row
    cases kind with
    | traverse base member =>
      obtain ⟨outer, _, view⟩ := Codes.bind_ok.mp view
      obtain ⟨levels, ran, view⟩ := Codes.bind_ok.mp view
      obtain rfl := Except.ok.inj view
      intro scope inside
      obtain ⟨level, listed, inside⟩ := List.mem_flatten.mp inside
      obtain ⟨above, _, below⟩ := mem_of_mapItems ran listed
      rw [traverseScope] at below
      split at below
      · obtain rfl := Except.ok.inj below
        obtain ⟨row, _, rfl⟩ := List.mem_map.mp inside
        exact ⟨above.identity, rfl⟩
      · cases below
      · obtain rfl := Except.ok.inj below
        cases inside
    | select base selector =>
      cases selector with
      | keys keys =>
        obtain ⟨rows, _, view⟩ := Codes.bind_ok.mp view
        exact bare (Except.ok.inj view)
      | bind name condition =>
        obtain ⟨outer, streamed, view⟩ := Codes.bind_ok.mp view
        have composed := earlier base List.mem_cons_self streamed
        intro scope inside
        obtain ⟨before, listed, row, identity⟩ := mem_of_selectBindScopes view inside
        obtain ⟨above, shape⟩ := composed before listed
        exact ⟨above, by rw [← row, ← identity, shape]⟩
    | project source projection =>
      obtain ⟨rows, _, view⟩ := Codes.bind_ok.mp view
      exact bare (Except.ok.inj view)
    | _ =>
      obtain ⟨cell, _, view⟩ := Codes.bind_ok.mp view
      obtain ⟨rows, _, view⟩ := Codes.bind_ok.mp view
      exact bare (Except.ok.inj view)

end Streams

section Combined

/-- The rows of the right whose identities are not present yet, with their scopes. -/
def newScopes : List RowId → List RowScope → List RowScope
  | _, [] => []
  | ids, scope :: rest =>
    if hasId scope.identity ids then newScopes ids rest
    else scope :: newScopes (scope.identity :: ids) rest

/-- The scopes that a combination keeps. -/
def combined (op : CombineOp) (left right : List RowScope) : List RowScope :=
  match op with
  | .union => left ++ newScopes (left.map RowScope.identity) right
  | .intersect => left.filter fun scope => hasId scope.identity (right.map RowScope.identity)
  | .difference => left.filter fun scope => !hasId scope.identity (right.map RowScope.identity)

theorem newRows_eq (ids : List RowId) (scopes : List RowScope) :
    newRows ids scopes = (newScopes ids scopes).map RowScope.row := by
  induction scopes generalizing ids with
  | nil => rfl
  | cons scope rest earlier =>
    simp only [newRows, newScopes, earlier]
    split <;> rfl

theorem combineScopes_eq (op : CombineOp) (left right : List RowScope) :
    combineScopes op left right = (combined op left right).map RowScope.row := by
  cases op with
  | union => simp only [combineScopes, combined, newRows_eq, List.map_append]
  | intersect => rfl
  | difference => rfl

/-- Two scopes have one identity. -/
def alike (first second : RowScope) : Bool :=
  cmpId first.identity second.identity == .eq

theorem alike_iff {first second : RowScope} :
    alike first second = true ↔ identityOf first.identity = identityOf second.identity := by
  rw [alike, beq_iff_eq, cmpId_eq_iff]

theorem hasId_cons_iff {id other : RowId} {ids : List RowId} :
    hasId id (other :: ids) = true ↔ identityOf id = identityOf other ∨ hasId id ids = true := by
  rw [hasId_iff_mem, hasId_iff_mem, List.map_cons, List.mem_cons]

theorem hasId_congr {id other : RowId} {ids : List RowId} (same : identityOf id = identityOf other) :
    hasId id ids = hasId other ids := by
  rw [Bool.eq_iff_iff, hasId_iff_mem, hasId_iff_mem, same]

/-- A new scope is the first one of its identity, and its identity is new. -/
theorem mem_newScopes {ids : List RowId} {scopes : List RowScope} {scope : RowScope} :
    scope ∈ newScopes ids scopes ↔
      hasId scope.identity ids = false ∧ scopes.find? (fun other => alike other scope) = some scope := by
  induction scopes generalizing ids with
  | nil => simp [newScopes]
  | cons first rest earlier =>
    by_cases same : alike first scope = true
    · have equal := alike_iff.mp same
      have skipped : hasId scope.identity (first.identity :: ids) = true :=
        hasId_cons_iff.mpr (.inl equal.symm)
      rw [newScopes, hasId_congr equal, List.find?_cons, same]
      by_cases present : hasId scope.identity ids = true
      · rw [if_pos present, earlier, present]
        simp
      · rw [if_neg present, List.mem_cons, earlier, skipped]
        simp [present, eq_comm]
    · have differ : identityOf scope.identity ≠ identityOf first.identity := fun equal =>
        same (alike_iff.mpr equal.symm)
      have other : scope ≠ first := fun equal => differ (by rw [equal])
      have kept : hasId scope.identity (first.identity :: ids) = hasId scope.identity ids := by
        rw [Bool.eq_iff_iff, hasId_cons_iff]
        simp [differ]
      have apart : alike first scope = false := Bool.eq_false_iff.mpr same
      rw [newScopes, List.find?_cons, apart]
      by_cases present : hasId first.identity ids = true
      · rw [if_pos present, earlier]
      · rw [if_neg present, List.mem_cons, earlier, kept]
        simp [other]

/-- A combination keeps this row of an operand. -/
def Keeps (op : CombineOp) (left right : List RowScope) (scope : RowScope) : Prop :=
  match op with
  | .union => scope ∈ left ∨ (identityOf scope.identity ∉ identities left ∧
      right.find? (fun other => alike other scope) = some scope)
  | .intersect => scope ∈ left ∧ identityOf scope.identity ∈ identities right
  | .difference => scope ∈ left ∧ identityOf scope.identity ∉ identities right

theorem mem_combined {op : CombineOp} {left right : List RowScope} {scope : RowScope} :
    scope ∈ combined op left right ↔ Keeps op left right scope := by
  cases op with
  | union => simp only [combined, Keeps, List.mem_append, mem_newScopes, ← Bool.not_eq_true, hasId_iff]
  | intersect => simp only [combined, Keeps, List.mem_filter, hasId_iff]
  | difference =>
    simp only [combined, Keeps, List.mem_filter, Bool.not_eq_true', ← Bool.not_eq_true, hasId_iff]

/-- The identities of the kept scopes are the ordered combination of the identities of the operands. -/
theorem map_combined (op : CombineOp) (left right : List RowScope) :
    names (combined op left right) = op.ordered (names left) (names right) := by
  have fresh (ids : List RowId) (scopes : List RowScope) :
      names (newScopes ids scopes) = Codes.fresh (ids.map identityOf) (names scopes) := by
    induction scopes generalizing ids with
    | nil => rfl
    | cons first rest earlier =>
      rw [newScopes, names_cons, Codes.fresh]
      by_cases inside : hasId first.identity ids = true
      · rw [if_pos inside, if_pos (hasId_iff_mem.mp inside), earlier]
      · rw [if_neg inside, if_neg (inside ∘ hasId_iff_mem.mpr), names_cons, earlier, List.map_cons]
  have selected (verdict : Identity → Bool) :
      names (left.filter fun scope => verdict (identityOf scope.identity)) = (names left).filter verdict := by
    rw [names, names, List.filter_map]
    rfl
  have known (scope : RowScope) : hasId scope.identity (right.map RowScope.identity) =
      decide (identityOf scope.identity ∈ names right) := by
    rw [Bool.eq_iff_iff, hasId_iff, decide_eq_true_eq, mem_names]
  cases op with
  | union =>
    rw [combined, names, List.map_append]
    change names left ++ names _ = _
    rw [fresh, List.map_map]
    rfl
  | intersect =>
    simp only [combined, known, CombineOp.ordered]
    exact selected fun identity => decide (identity ∈ names right)
  | difference =>
    simp only [combined, known, CombineOp.ordered, decide_not]
    exact selected fun identity => !decide (identity ∈ names right)

end Combined

section Views

variable (lib : Library) (env : Environment)

/-- The rows of an expression come from a traversal, behind any filters. -/
def traverses : TypedExpr → Bool
  | .mk _ (.traverse _ _) => true
  | .mk _ (.select base (.bind _ _)) => traverses base
  | _ => false

/-- Without a traversal each row of a view has no more than its own identity. -/
theorem not_nested_of_view (expr : TypedExpr) {frames : Frames} {scopes : List RowScope}
    (view : (expr.meaning lib env).evalView frames = .ok scopes) (direct : traverses expr = false) :
    ∀ scope ∈ scopes, ¬scope.Nested := by
  induction expr using TypedExpr.induct generalizing frames scopes with
  | step type kind earlier =>
    rw [TypedExpr.meaning_mk] at view
    have bare {rows : List Row} (same : rows.map RowScope.bare = scopes) :
        ∀ scope ∈ scopes, ¬scope.Nested := by
      subst same
      intro scope inside
      obtain ⟨row, _, rfl⟩ := List.mem_map.mp inside
      exact Nat.lt_irrefl _
    cases kind with
    | traverse base member =>
      rw [traverses] at direct
      cases direct
    | select base selector =>
      cases selector with
      | keys keys =>
        obtain ⟨rows, _, view⟩ := Codes.bind_ok.mp view
        exact bare (Except.ok.inj view)
      | bind name condition =>
        obtain ⟨outer, streamed, view⟩ := Codes.bind_ok.mp view
        rw [traverses] at direct
        have flat := earlier base List.mem_cons_self streamed direct
        intro scope inside nested
        obtain ⟨before, listed, row, identity⟩ := mem_of_selectBindScopes view inside
        rw [RowScope.Nested, ← row, ← identity] at nested
        exact flat before listed nested
    | project source projection =>
      obtain ⟨rows, _, view⟩ := Codes.bind_ok.mp view
      exact bare (Except.ok.inj view)
    | _ =>
      obtain ⟨cell, _, view⟩ := Codes.bind_ok.mp view
      obtain ⟨rows, _, view⟩ := Codes.bind_ok.mp view
      exact bare (Except.ok.inj view)

/-- A combination delivers the rows that it keeps, each one with its own identity. -/
theorem view_combine {type : ExprType} {op : CombineOp} {left right : TypedExpr} {frames : Frames}
    {first second rows : List RowScope} (leftView : (left.meaning lib env).evalView frames = .ok first)
    (rightView : (right.meaning lib env).evalView frames = .ok second) :
    ((TypedExpr.mk type (.combine op left right)).meaning lib env).evalView frames = .ok rows ↔
      (combined op first second).map (fun scope => RowScope.bare scope.row) = rows := by
  rw [TypedExpr.meaning_mk]
  change (evalCombine op _ _ frames >>= fun cell => rowsOf "a view" cell >>= fun rows =>
    pure (rows.map RowScope.bare)) = _ ↔ _
  rw [evalCombine, leftView, rightView]
  change Except.ok (List.map RowScope.bare (combineScopes op first second)) = _ ↔ _
  rw [combineScopes_eq, List.map_map]
  exact ⟨Except.ok.inj, congrArg _⟩

/-- The delivered identities are the kept ones exactly when no kept row is nested. -/
theorem names_delivered_iff {op : CombineOp} {left right : List RowScope}
    (leftComposed : ∀ scope ∈ left, scope.Composed) (rightComposed : ∀ scope ∈ right, scope.Composed) :
    names ((combined op left right).map fun scope => RowScope.bare scope.row) =
        op.ordered (names left) (names right) ↔
      ∀ scope, Keeps op left right scope → ¬scope.Nested := by
  have composed (scope : RowScope) (kept : Keeps op left right scope) : scope.Composed := by
    cases op with
    | union => exact kept.elim (leftComposed scope) fun new =>
      rightComposed scope (List.mem_of_find?_eq_some new.2)
    | intersect => exact leftComposed scope kept.1
    | difference => exact leftComposed scope kept.1
  rw [← map_combined, names, names, List.map_map, List.map_inj_left]
  constructor
  · intro same scope kept nested
    have equal := congrArg List.length (same scope (mem_combined.mpr kept))
    simp only [Function.comp_apply, RowScope.bare, identityOf, List.length_map] at equal
    rw [RowScope.Nested, equal] at nested
    exact Nat.lt_irrefl _ nested
  · intro flat scope inside
    have kept := mem_combined.mp inside
    rw [Function.comp_apply, RowScope.bare, (composed scope kept).of_not_nested (flat scope kept)]

/-- The identities of a combination that keeps no nested row are the combined sets. -/
theorem identities_combine {type : ExprType} {op : CombineOp} {left right : TypedExpr} {frames : Frames}
    {first second rows : List RowScope} (leftView : (left.meaning lib env).evalView frames = .ok first)
    (rightView : (right.meaning lib env).evalView frames = .ok second)
    (view : ((TypedExpr.mk type (.combine op left right)).meaning lib env).evalView frames = .ok rows)
    (flat : ∀ scope, Keeps op first second scope → ¬scope.Nested) :
    identities rows = op.sets (identities first) (identities second) := by
  obtain rfl := (view_combine lib env leftView rightView).mp view
  have same := (names_delivered_iff (view_composed lib env left leftView)
    (view_composed lib env right rightView)).mpr flat
  ext identity
  rw [← mem_names, same, mem_ordered]
  simp only [mem_names, Set.ofPred_mem_eq]

end Views

section Laws

variable (lib : Library) (env : Environment) (frames : Frames)

/-- An expression delivers rows with these identities. -/
def Delivers (expr : TypedExpr) (delivered : Set Identity) : Prop :=
  ∃ scopes, (expr.meaning lib env).evalView frames = .ok scopes ∧ identities scopes = delivered

variable {lib env frames}

/-- The combination of two direct views is the combination of their sets, at each depth of nesting. -/
theorem Delivers.combine {type : ExprType} {op : CombineOp} {a b : TypedExpr} {first second : Set Identity}
    (left : Delivers lib env frames a first) (right : Delivers lib env frames b second)
    (leftDirect : traverses a = false) (rightDirect : traverses b = false) :
    Delivers lib env frames (.mk type (.combine op a b)) (op.sets first second) := by
  obtain ⟨firstRows, firstView, rfl⟩ := left
  obtain ⟨secondRows, secondView, rfl⟩ := right
  have view : ((TypedExpr.mk type (.combine op a b)).meaning lib env).evalView frames = .ok _ :=
    (view_combine lib env firstView secondView).mpr rfl
  refine ⟨_, view, identities_combine lib env firstView secondView view fun scope kept => ?_⟩
  have leftFlat := not_nested_of_view lib env a firstView leftDirect scope
  cases op with
  | union =>
    exact kept.elim leftFlat fun new =>
      not_nested_of_view lib env b secondView rightDirect scope (List.mem_of_find?_eq_some new.2)
  | intersect => exact leftFlat kept.1
  | difference => exact leftFlat kept.1

/-- A tree of set operators over views. -/
inductive SetTree
  | view (expr : TypedExpr)
  | combine (type : ExprType) (op : CombineOp) (left right : SetTree)

namespace SetTree

/-- The expression of a tree. -/
def expr : SetTree → TypedExpr
  | .view expr => expr
  | .combine type op left right => .mk type (.combine op left.expr right.expr)

def views : SetTree → List TypedExpr
  | .view expr => [expr]
  | .combine _ _ left right => left.views ++ right.views

/-- The set of identities that a tree denotes when its views deliver sets. -/
def denoted (delivered : TypedExpr → Set Identity) : SetTree → Set Identity
  | .view expr => delivered expr
  | .combine _ op left right => op.sets (left.denoted delivered) (right.denoted delivered)

theorem direct (tree : SetTree) (views : ∀ expr ∈ tree.views, traverses expr = false) :
    traverses tree.expr = false := by
  cases tree with
  | view expr => exact views expr List.mem_cons_self
  | combine => rfl

/-- Set operators that are nested in any way over direct views deliver the set that their tree denotes. -/
theorem delivers_denoted (tree : SetTree) {delivered : TypedExpr → Set Identity}
    (direct : ∀ expr ∈ tree.views, traverses expr = false)
    (views : ∀ expr ∈ tree.views, Delivers lib env frames expr (delivered expr)) :
    Delivers lib env frames tree.expr (tree.denoted delivered) := by
  induction tree with
  | view expr => exact views expr List.mem_cons_self
  | combine type op left right earlier later =>
    have inLeft {expr : TypedExpr} : expr ∈ left.views → expr ∈ (combine type op left right).views :=
      List.mem_append_left _
    have inRight {expr : TypedExpr} : expr ∈ right.views → expr ∈ (combine type op left right).views :=
      List.mem_append_right _
    have first := earlier (fun expr inside => direct expr (inLeft inside)) fun expr inside => views expr (inLeft inside)
    have second := later (fun expr inside => direct expr (inRight inside)) fun expr inside => views expr (inRight inside)
    exact first.combine second (left.direct fun expr inside => direct expr (inLeft inside))
      (right.direct fun expr inside => direct expr (inRight inside))

end SetTree

end Laws

end Liasse.Expr

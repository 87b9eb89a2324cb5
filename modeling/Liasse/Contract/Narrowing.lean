/-
This file models the boundary contract of a release with the ordering that it reads from a view, and the check that a
later release does not narrow it.
-/

import Mathlib
import Liasse.Codes.Table
import Liasse.Expr.Tree

namespace Liasse.Contract

section Texts

/-- The characters that trimming removes. -/
def isBlank (char : Char) : Bool :=
  let code := char.toNat
  (9 ≤ code && code ≤ 13) || code = 0x20 || code = 0x85 || code = 0xA0 || code = 0x1680 ||
    (0x2000 ≤ code && code ≤ 0x200A) || code = 0x2028 || code = 0x2029 || code = 0x202F ||
    code = 0x205F || code = 0x3000

/-- A text without the blanks at its two ends. -/
def trim (text : List Char) : List Char :=
  (text.dropWhile isBlank).rdropWhile isBlank

/-- A text starts with no blank. -/
def Unpadded (text : List Char) : Prop :=
  ∀ first ∈ text.head?, isBlank first = false

/-- The trimming of a text that starts with a mark keeps the mark. -/
theorem trim_cons {mark : Char} (visible : isBlank mark = false) (rest : List Char) :
    trim (mark :: rest) = mark :: rest.rdropWhile isBlank := by
  rw [trim, List.dropWhile_cons_of_neg (by simp [visible])]
  induction rest using List.reverseRecOn with
  | nil => simp [List.rdropWhile, visible]
  | append_singleton front last earlier =>
    rw [← List.cons_append, List.rdropWhile_concat, List.rdropWhile_concat]
    split
    · exact earlier
    · rfl

/-- Trimming does not depend on the blanks at the end. -/
theorem trim_rdropWhile (text : List Char) : trim (text.rdropWhile isBlank) = trim text := by
  induction text using List.reverseRecOn with
  | nil => rfl
  | append_singleton front last earlier =>
    rw [List.rdropWhile_concat]
    split
    next blank =>
      rw [earlier, trim, trim]
      by_cases all : ∀ char ∈ front, isBlank char = true
      · have whole : ∀ char ∈ front ++ [last], isBlank char = true := by
          intro char inside
          rcases List.mem_append.mp inside with inside | inside
          · exact all char inside
          · rw [List.mem_singleton.mp inside]
            exact blank
        rw [List.dropWhile_eq_nil_iff.mpr all, List.dropWhile_eq_nil_iff.mpr whole]
      · have kept : (front ++ [last]).dropWhile isBlank = front.dropWhile isBlank ++ [last] := by
          rw [List.dropWhile_append, if_neg]
          intro empty
          rw [List.isEmpty_iff, List.dropWhile_eq_nil_iff] at empty
          exact all empty
        rw [kept, List.rdropWhile_concat, if_pos blank]
    next => rfl

end Texts

section Views

/-- The value of a member of a structured sort key, with its source text where it is not a string. -/
inductive SortValue
  | str (spelling : List Char)
  | name (text : List Char)
  | other (source : List Char)

/-- A member of a structured sort key is a directive or another member. -/
inductive SortMember
  | directive (name : String) (value : SortValue)
  | other

/-- A sort key is a string, a negated expression, a structured entry or a bare expression. An
expression has its source text. -/
inductive SortExpr
  | str (spelling : List Char)
  | neg (operand : List Char)
  | object (members : List SortMember)
  | other (source : List Char)

/-- A member of a projection. The value of a directive is a list of sort keys or another value. -/
inductive ViewMember
  | directive (name : String) (items : Option (List SortExpr))
  | other

/-- A view is a projection with its members, or another expression. -/
inductive ViewExpr
  | block (members : List ViewMember)
  | other

/-- A sort key is the text of its expression and whether it descends. -/
abbrev SortKey := List Char × Bool

end Views

section Contract

/-- The source text of an expression without the blanks around it. -/
def keyText : SortValue → List Char
  | .str spelling => trim ('"' :: spelling ++ ['"'])
  | .name text => trim text
  | .other source => trim source

/-- The contract reads the key of a structured entry from `by`, and the descent from a quoted
`dir`. -/
def readStructured : List SortMember → Option (List Char) × Bool → Option (List Char) × Bool
  | [], read => read
  | .directive name value :: rest, (by_, descending) =>
    if name = "by" then
      readStructured rest (some (match value with
        | .str spelling => trim spelling
        | value => keyText value), descending)
    else if name = "dir" then
      readStructured rest (by_, match value with
        | .str spelling => trim spelling = "desc".toList
        | _ => descending)
    else readStructured rest (by_, descending)
  | .other :: rest, read => readStructured rest read

/-- The normal form of a structured sort key. -/
def structuredSortKey (members : List SortMember) : Option SortKey :=
  match readStructured members (none, false) with
  | (some key, descending) => some (key, descending)
  | (none, _) => none

/-- The normal form that the contract gives a sort key. -/
def sortKey : SortExpr → Option SortKey
  | .str spelling =>
    match trim spelling with
    | '-' :: body => some (trim body, true)
    | spelling => some (spelling, false)
  | .neg operand => some (trim operand, true)
  | .object members => structuredSortKey members
  | .other source => some (trim source, false)

/-- The normal form of a list of sort keys. -/
def sortKeys : List SortExpr → Option (List SortKey)
  | [] => some []
  | item :: rest =>
    match sortKey item, sortKeys rest with
    | some key, some keys => some (key :: keys)
    | _, _ => none

/-- The sort directives of a projection, in order. -/
def sortDirectives (members : List ViewMember) : List (Option (List SortExpr)) :=
  members.filterMap fun
    | .directive name items => if name = "sort" then some items else none
    | .other => none

/-- The ordering that the contract reads from the first sort directive of a view. A view that is no
projection has none that can be read. -/
def viewOrdering : ViewExpr → Option (List SortKey)
  | .block members =>
    match (sortDirectives members).head? with
    | some (some items) => sortKeys items
    | some none => none
    | none => some []
  | .other => none

end Contract

section Checker

/-- The direction that the checker reads is a bare or a quoted word. -/
def sortDirection : SortValue → Option Bool
  | .str word | .name word =>
    if word = "asc".toList then some false
    else if word = "desc".toList then some true
    else none
  | .other _ => none

/-- The checker reads the members of a structured entry. It refuses other members. -/
def checkStructured : List SortMember → Option SortValue × Bool → Option (Option SortValue × Bool)
  | [], read => some read
  | .directive name value :: rest, (by_, descending) =>
    if name = "by" then checkStructured rest (some value, descending)
    else if name = "dir" then
      match sortDirection value with
      | some descending => checkStructured rest (by_, descending)
      | none => none
    else none
  | .other :: _, _ => none

/-- The key expression and the direction that the checker gives a sort key. A string holds the text of
the expression. -/
def checkSortKey : SortExpr → Option SortKey
  | .str text =>
    match text with
    | '-' :: body => some (trim body, true)
    | body => some (trim body, false)
  | .neg operand => some (trim operand, true)
  | .object members =>
    match checkStructured members (none, false) with
    | some (some value, descending) =>
      some (match value with
        | .str text => trim text
        | value => keyText value, descending)
    | _ => none
  | .other source => some (trim source, false)

/-- The ordering that the checker gives a list of sort keys. -/
def checkSort : List SortExpr → Option (List SortKey)
  | [] => some []
  | item :: rest =>
    match checkSortKey item, checkSort rest with
    | some key, some keys => some (key :: keys)
    | _, _ => none

/-- The ordering of the rows of a projection that the checker accepts. The last sort directive counts, and
one that is no list has no keys. -/
def viewSort : ViewExpr → Option (List SortKey)
  | .block members =>
    match (sortDirectives members).getLast? with
    | some (some items) => checkSort items
    | _ => some []
  | .other => none

end Checker

section Agreement

/-- A direction is quoted. -/
def SortMember.Quoted : SortMember → Prop
  | .directive name (.name _) => name ≠ "dir"
  | _ => True

/-- A sort key is regular when its string starts with no blank and its directions are quoted. -/
def SortExpr.Regular : SortExpr → Prop
  | .str spelling => Unpadded spelling
  | .object members => ∀ member ∈ members, member.Quoted
  | _ => True

/-- A view has at most one sort directive, and it is a list of regular keys. -/
def ViewExpr.Regular : ViewExpr → Prop
  | .block members => (sortDirectives members).length ≤ 1 ∧ ∀ directive ∈ sortDirectives members,
      ∃ items, directive = some items ∧ ∀ item ∈ items, item.Regular
  | .other => True

/-- The key that a value of a structured entry names. -/
def byText : SortValue → List Char
  | .str spelling => trim spelling
  | value => keyText value

theorem structured_agree {members : List SortMember} (quoted : ∀ member ∈ members, member.Quoted)
    {value : Option SortValue} {descending : Bool} {final : Option SortValue × Bool}
    (accepted : checkStructured members (value, descending) = some final) :
    readStructured members (value.map byText, descending) = (final.1.map byText, final.2) := by
  induction members generalizing value descending with
  | nil =>
    cases accepted
    rfl
  | cons member rest earlier =>
    have others := fun next inside => quoted next (List.mem_cons_of_mem member inside)
    cases member with
    | other => simp [checkStructured] at accepted
    | directive name operand =>
      unfold checkStructured at accepted
      unfold readStructured
      split at accepted
      next isBy =>
        rw [if_pos isBy]
        have shown := earlier others accepted
        cases operand <;> exact shown
      next notBy =>
        rw [if_neg notBy]
        split at accepted
        next isDir =>
          rw [if_pos isDir]
          have direct := quoted _ List.mem_cons_self
          cases operand with
          | name text => exact absurd isDir direct
          | other source => simp [sortDirection] at accepted
          | str word =>
            simp only [sortDirection] at accepted
            split at accepted
            next direction known =>
              split at known
              next ascending =>
                cases known
                have shown := earlier others accepted
                rw [ascending]
                exact shown
              next =>
                split at known
                next descends =>
                  cases known
                  have shown := earlier others accepted
                  rw [descends]
                  exact shown
                next => cases known
            next => cases accepted
        next => cases accepted

/-- The contract and the checker give a regular sort key one meaning. -/
theorem sortKey_agree {item : SortExpr} (regular : item.Regular) {key : SortKey}
    (accepted : checkSortKey item = some key) : sortKey item = some key := by
  cases item with
  | str spelling =>
    cases spelling with
    | nil => exact accepted
    | cons first rest =>
      have visible : isBlank first = false := regular first rfl
      simp only [sortKey, trim_cons visible]
      simp only [checkSortKey] at accepted
      by_cases mark : first = '-'
      · subst mark
        simp only [trim_rdropWhile]
        exact accepted
      · split at accepted
        next equal => exact absurd (List.cons_eq_cons.mp equal).1 mark
        next =>
          split
          next equal => exact absurd (List.cons_eq_cons.mp equal).1 mark
          next => rw [trim_cons visible] at accepted; exact accepted
  | neg operand => exact accepted
  | other source => exact accepted
  | object members =>
    simp only [checkSortKey] at accepted
    split at accepted
    next value descending read =>
      have agreed := structured_agree regular read
      cases accepted
      simp only [sortKey, structuredSortKey]
      rw [show ((none, false) : Option (List Char) × Bool) = (Option.map byText none, false) from rfl,
        agreed]
      cases value <;> rfl
    next => cases accepted

theorem sortKeys_agree {items : List SortExpr} (regular : ∀ item ∈ items, item.Regular)
    {keys : List SortKey} (accepted : checkSort items = some keys) : sortKeys items = some keys := by
  induction items generalizing keys with
  | nil => exact accepted
  | cons item rest earlier =>
    unfold checkSort at accepted
    split at accepted
    next key others first last =>
      cases accepted
      rw [sortKeys, sortKey_agree (regular item List.mem_cons_self) first,
        earlier (fun next inside => regular next (List.mem_cons_of_mem _ inside)) last]
    next => cases accepted

/-- The contract reads the ordering that the checker gives a regular view. -/
theorem viewOrdering_agree {view : ViewExpr} (regular : view.Regular) {keys : List SortKey}
    (accepted : viewSort view = some keys) : viewOrdering view = some keys := by
  cases view with
  | other => cases accepted
  | block members =>
    obtain ⟨single, regular⟩ := regular
    simp only [viewOrdering]
    simp only [viewSort] at accepted
    cases directives : sortDirectives members with
    | nil =>
      rw [directives] at accepted
      exact accepted
    | cons directive rest =>
      rw [directives] at single regular accepted
      obtain rfl : rest = [] := List.length_eq_zero_iff.mp (Nat.le_zero.mp (Nat.le_of_succ_le_succ single))
      obtain ⟨items, rfl, listed⟩ := regular directive List.mem_cons_self
      exact sortKeys_agree listed accepted

end Agreement

end Liasse.Contract

namespace Liasse.Contract

open Liasse.Codes Liasse.Expr Liasse.Runtime

section Contracts

/-- The inner type of an optional type, and whether the type is optional. -/
def stripOptional : FieldType → FieldType × Bool
  | .optional inner => (inner, true)
  | other => (other, false)

/-- The labels of an enumeration. -/
def enumLabels : FieldType → Option (List String)
  | .enum labels => some labels
  | _ => none

/-- The type of an expression is optional. -/
def isOptional (type : ExprType) : Bool :=
  match type.asScalar with
  | some (.optional _) => true
  | _ => false

/-- A parameter has a type and may be required. An optional parameter is not required. -/
structure Param where
  type : ExprType
  required : Bool
  free : isOptional type = true → required = false

/-- Parameters by name. -/
abbrev Params := Std.ExtTreeMap String Param compare

/-- Members of a projection by name. -/
abbrev Members := Std.ExtTreeMap String ExprType compare

/-- The output of a view has its members, the key of its source collection and its text. No component of
a key is optional. -/
structure Output where
  members : Members
  identity : Option (List (String × FieldType))
  view : ViewExpr
  solid : ∀ components, identity = some components → ∀ component ∈ components,
    (stripOptional component.2).2 = false

/-- The explicit ordering of a view. -/
def Output.ordering (output : Output) : Option (List SortKey) :=
  viewOrdering output.view

/-- An operation takes its parameters and may promise a response. Its parameters have no defaults. -/
structure Operation where
  params : Params
  response : Option Members
  undefaulted : ∀ (name : String) param, params[name]? = some param →
    param.required = !isOptional param.type

/-- A surface has the output and the parameters of its view, and operations by name. -/
structure Surface where
  output : Option Output
  params : Params
  operations : Std.ExtTreeMap String Operation compare

/-- The boundary contract of a release has its surfaces by address. -/
structure BoundaryContract where
  surfaces : Std.ExtTreeMap String Surface compare

end Contracts

section Checks

/-- A narrowing concerns a surface, the view of a surface or an operation of a surface. -/
inductive Subject
  | surface (address : String)
  | view (address : String)
  | operation (address name : String)

/-- A narrowing names what is lost. -/
inductive Narrowing
  | surfaceRemoved (address : String)
  | outputRemoved (address : String)
  | identityChanged (address : String) (active cand : List String)
  | identityRetyped (address component : String) (active cand : FieldType)
  | orderingChanged (address : String) (active cand : List SortKey)
  | memberRemoved (subject : Subject) (noun member : String)
  | memberNarrowed (subject : Subject) (noun member : String)
  | parameterAdded (subject : Subject) (name : String)
  | parameterRequired (subject : Subject) (name : String)
  | parameterNarrowed (subject : Subject) (name : String)
  | operationRemoved (address name : String)

/-- A result type is narrowed when it becomes optional or when its values change. -/
def outputNarrows (active cand : ExprType) : Bool :=
  match active.asScalar, cand.asScalar with
  | some activeType, some candType =>
    let (activeInner, activeOpt) := stripOptional activeType
    let (candInner, candOpt) := stripOptional candType
    if !activeOpt && candOpt then true
    else
      match enumLabels activeInner, enumLabels candInner with
      | some labels, some others => labels ≠ others
      | none, none => activeInner ≠ candInner
      | _, _ => true
  | _, _ => active ≠ cand

/-- An input type is narrowed when an enumeration loses a label or when the type changes. -/
def inputNarrows (active cand : ExprType) : Bool :=
  match active.asScalar, cand.asScalar with
  | some activeType, some candType =>
    let (activeInner, _) := stripOptional activeType
    let (candInner, _) := stripOptional candType
    match enumLabels activeInner, enumLabels candInner with
    | some labels, some others => !labels.all fun label => others.contains label
    | none, none => activeInner ≠ candInner
    | _, _ => true
  | _, _ => active ≠ cand

/-- The components of a key are compared by position. -/
def componentsNarrowing (address : String) :
    List (String × FieldType) → List (String × FieldType) → Option Narrowing
  | (name, activeType) :: rest, (_, candType) :: others =>
    if outputNarrows (.scalar activeType) (.scalar candType) then
      some (.identityRetyped address name activeType candType)
    else componentsNarrowing address rest others
  | _, _ => none

/-- The identity of a row keeps the names of its components and their types. -/
def identityNarrowing (address : String) (active cand : List (String × FieldType)) : Option Narrowing :=
  if active.map Prod.fst ≠ cand.map Prod.fst then
    some (.identityChanged address (active.map Prod.fst) (cand.map Prod.fst))
  else componentsNarrowing address active cand

/-- A projection keeps its members and does not narrow their types. -/
def projectionNarrowing (subject : Subject) (noun : String) (active cand : Members) : Option Narrowing :=
  firstUncovered active cand (.memberRemoved subject noun) fun member activeType candType =>
    if outputNarrows activeType candType then some (.memberNarrowed subject noun member) else none

/-- Parameters gain no requirement and keep the domains that they accept. -/
def paramsNarrowing (subject : Subject) (active cand : Params) : Option Narrowing :=
  (cand.toList.findSome? fun (name, candParam) =>
    if active[name]? = none ∧ candParam.required then some (.parameterAdded subject name) else none).or
  (active.toList.findSome? fun (name, activeParam) =>
    match cand[name]? with
    | none => none
    | some candParam =>
      if !activeParam.required && candParam.required then some (.parameterRequired subject name)
      else if inputNarrows activeParam.type candParam.type then some (.parameterNarrowed subject name)
      else none)

/-- Two readings are compared where both exist. -/
def bothRead {α : Type} (active cand : Option α) (narrows : α → α → Option Narrowing) :
    Option Narrowing :=
  match active, cand with
  | some active, some cand => narrows active cand
  | _, _ => none

/-- The output of a view keeps its identity, its explicit ordering and its members. -/
def outputNarrowing (address : String) (active cand : Output) : Option Narrowing :=
  (bothRead active.identity cand.identity (identityNarrowing address)).or <|
  (bothRead active.ordering cand.ordering fun before after =>
    if before ≠ after then some (.orderingChanged address before after) else none).or <|
  projectionNarrowing (.surface address) "output member" active.members cand.members

/-- An operation keeps its parameters and its response. -/
def operationNarrowing (address name : String) (active cand : Operation) : Option Narrowing :=
  (paramsNarrowing (.operation address name) active.params cand.params).or <|
  bothRead active.response cand.response
    (projectionNarrowing (.operation address name) "response member")

/-- A surface with an output keeps one. -/
def viewNarrowing (address : String) : Option Output → Option Output → Option Narrowing
  | none, _ => none
  | some _, none => some (.outputRemoved address)
  | some active, some cand => outputNarrowing address active cand

/-- A surface keeps its output, its parameters and its operations. -/
def surfaceNarrowing (address : String) (active cand : Surface) : Option Narrowing :=
  (viewNarrowing address active.output cand.output).or <|
  (paramsNarrowing (.view address) active.params cand.params).or <|
  firstUncovered active.operations cand.operations (.operationRemoved address) (operationNarrowing address)

/-- The first narrowing that a later release makes. -/
def BoundaryContract.narrowing (active candidate : BoundaryContract) : Option Narrowing :=
  firstUncovered active.surfaces candidate.surfaces .surfaceRemoved surfaceNarrowing

end Checks

end Liasse.Contract

/-
This file proves that a release that the check lets pass can stand in for the earlier release.
-/

import Liasse.Contract.Narrowing

namespace Liasse.Contract

open Liasse.Codes Liasse.Expr Liasse.Runtime

section Types

/-- A later result type is the same or no longer optional. -/
inductive ResultKept : ExprType → ExprType → Prop
  | same (type : ExprType) : ResultKept type type
  | required {inner : FieldType} (solid : (stripOptional inner).2 = false) :
      ResultKept (.scalar (.optional inner)) (.scalar inner)

/-- A later input type has the same inner type or an enumeration with more labels. -/
inductive InnerKept : FieldType → FieldType → Prop
  | same (type : FieldType) : InnerKept type type
  | widened {labels others : List String} (within : ∀ label ∈ labels, label ∈ others) :
      InnerKept (.enum labels) (.enum others)

/-- The inner types of two scalar inputs are kept. Other inputs are the same. -/
inductive InputKept : ExprType → ExprType → Prop
  | same (type : ExprType) : InputKept type type
  | scalar {active cand : FieldType} (inner : InnerKept (stripOptional active).1 (stripOptional cand).1) :
      InputKept (.scalar active) (.scalar cand)

theorem stripOptional_of_not {type : FieldType} (solid : (stripOptional type).2 = false) :
    (stripOptional type).1 = type := by
  cases type <;> first | rfl | cases solid

theorem eq_of_enumLabels {type : FieldType} {labels : List String} (enum : enumLabels type = some labels) :
    type = .enum labels := by
  cases type <;> cases enum
  rfl

/-- Two types with equal inner types are equal when the later one is optional only with the earlier one. -/
theorem resultKept_of_inner {active cand : FieldType}
    (loosens : (stripOptional active).2 = false → (stripOptional cand).2 = false)
    (inner : (stripOptional active).1 = (stripOptional cand).1) :
    ResultKept (.scalar active) (.scalar cand) := by
  cases opt : (stripOptional active).2 with
  | false =>
    rw [stripOptional_of_not opt, stripOptional_of_not (loosens opt)] at inner
    rw [inner]
    exact .same _
  | true =>
    obtain ⟨within, rfl⟩ : ∃ within, active = .optional within := by
      cases active <;> first | exact ⟨_, rfl⟩ | cases opt
    cases also : (stripOptional cand).2 with
    | false =>
      rw [stripOptional_of_not also] at inner
      obtain rfl : within = cand := inner
      exact .required also
    | true =>
      obtain ⟨other, rfl⟩ : ∃ other, cand = .optional other := by
        cases cand <;> first | exact ⟨_, rfl⟩ | cases also
      obtain rfl : within = other := inner
      exact .same _

theorem outputNarrows_eq_false {active cand : ExprType} :
    outputNarrows active cand = false ↔ ResultKept active cand := by
  constructor
  · intro quiet
    cases active with
    | scalar activeType =>
      cases cand with
      | scalar candType =>
        simp only [outputNarrows, ExprType.asScalar] at quiet
        split at quiet
        next => cases quiet
        next loosens =>
          refine resultKept_of_inner (by simpa using loosens) ?_
          split at quiet
          next labels others left right =>
            obtain rfl : labels = others := by simpa using quiet
            rw [eq_of_enumLabels left, eq_of_enumLabels right]
          next => simpa using quiet
          next => cases quiet
      | row fields key => simp [outputNarrows, ExprType.asScalar] at quiet
      | view fields key => simp [outputNarrows, ExprType.asScalar] at quiet
    | row fields key =>
      obtain rfl : ExprType.row fields key = cand := by
        simpa [outputNarrows, ExprType.asScalar] using quiet
      exact .same _
    | view fields key =>
      obtain rfl : ExprType.view fields key = cand := by
        simpa [outputNarrows, ExprType.asScalar] using quiet
      exact .same _
  · intro kept
    cases kept with
    | same =>
      cases active with
      | scalar type =>
        simp only [outputNarrows, ExprType.asScalar]
        rw [if_neg (by simp)]
        cases enumLabels (stripOptional type).1 <;> simp
      | row fields key => simp [outputNarrows, ExprType.asScalar]
      | view fields key => simp [outputNarrows, ExprType.asScalar]
    | @required inner solid =>
      have whole : stripOptional (.optional inner) = (inner, true) := rfl
      simp only [outputNarrows, ExprType.asScalar, whole, stripOptional_of_not solid]
      rw [if_neg (by simp)]
      cases enumLabels inner <;> simp

theorem inputNarrows_eq_false {active cand : ExprType} :
    inputNarrows active cand = false ↔ InputKept active cand := by
  constructor
  · intro quiet
    cases active with
    | scalar activeType =>
      cases cand with
      | scalar candType =>
        simp only [inputNarrows, ExprType.asScalar] at quiet
        apply InputKept.scalar
        split at quiet
        next labels others left right =>
          rw [eq_of_enumLabels left, eq_of_enumLabels right]
          exact .widened (by simpa using quiet)
        next =>
          rw [show (stripOptional activeType).1 = (stripOptional candType).1 by simpa using quiet]
          exact .same _
        next => cases quiet
      | row fields key => simp [inputNarrows, ExprType.asScalar] at quiet
      | view fields key => simp [inputNarrows, ExprType.asScalar] at quiet
    | row fields key =>
      obtain rfl : ExprType.row fields key = cand := by
        simpa [inputNarrows, ExprType.asScalar] using quiet
      exact .same _
    | view fields key =>
      obtain rfl : ExprType.view fields key = cand := by
        simpa [inputNarrows, ExprType.asScalar] using quiet
      exact .same _
  · intro kept
    cases kept with
    | same =>
      cases active with
      | scalar type =>
        simp only [inputNarrows, ExprType.asScalar]
        cases enumLabels (stripOptional type).1 <;> simp
      | row fields key => simp [inputNarrows, ExprType.asScalar]
      | view fields key => simp [inputNarrows, ExprType.asScalar]
    | @scalar active cand inner =>
      simp only [inputNarrows, ExprType.asScalar]
      generalize (stripOptional active).1 = first at inner
      generalize (stripOptional cand).1 = second at inner
      cases inner with
      | same => cases enumLabels first <;> simp
      | widened within => simpa [enumLabels] using within

/-- A result type that is kept twice is kept. -/
theorem ResultKept.trans {first second third : ExprType} (lower : ResultKept first second)
    (upper : ResultKept second third) : ResultKept first third := by
  cases upper with
  | same => exact lower
  | required solid =>
    generalize same : ExprType.scalar (.optional _) = middle at lower
    cases lower with
    | same =>
      subst same
      exact .required solid
    | required earlier =>
      cases same
      cases earlier

theorem InnerKept.trans {first second third : FieldType} (lower : InnerKept first second)
    (upper : InnerKept second third) : InnerKept first third := by
  cases lower with
  | same => exact upper
  | widened within =>
    generalize same : FieldType.enum _ = middle at upper
    cases upper with
    | same =>
      subst same
      exact .widened within
    | widened more =>
      cases same
      exact .widened fun label inside => more label (within label inside)

/-- An input type that is kept twice is kept. -/
theorem InputKept.trans {first second third : ExprType} (lower : InputKept first second)
    (upper : InputKept second third) : InputKept first third := by
  cases lower with
  | same => exact upper
  | @scalar active middle inner =>
    cases upper with
    | same => exact .scalar inner
    | scalar next => exact .scalar (inner.trans next)

/-- The members of an optional type are `none` and the members of its inner type. -/
theorem admits_iff {type : FieldType} {value : Value} :
    type.admits value = true ↔
      ((stripOptional type).2 = true ∧ value = .none) ∨ (stripOptional type).1.admits value = true := by
  cases type with
  | optional inner =>
    cases value <;> simp [FieldType.admits, stripOptional]
  | _ => simp [stripOptional]

/-- The values of a later result type are values of the earlier one. -/
theorem ResultKept.admits {active cand : ExprType} (kept : ResultKept active cand) {cell : Expr.Cell}
    (admitted : admits cand cell = true) : admits active cell = true := by
  cases kept with
  | same => exact admitted
  | required =>
    cases cell with
    | scalar value => exact admits_iff.mpr (.inr admitted)
    | row row => cases admitted
    | collection rows => cases admitted

/-- The domain of an enumeration is the same in a later result type. -/
theorem ResultKept.enumLabels {active cand : FieldType} (kept : ResultKept (.scalar active) (.scalar cand)) :
    enumLabels (stripOptional active).1 = enumLabels (stripOptional cand).1 := by
  cases kept with
  | same => rfl
  | required solid => rw [stripOptional_of_not solid]; rfl

theorem InnerKept.admits {active cand : FieldType} (kept : InnerKept active cand) {value : Value}
    (admitted : active.admits value = true) : cand.admits value = true := by
  cases kept with
  | same => exact admitted
  | widened within =>
    cases value with
    | enum value =>
      simp only [FieldType.admits, decide_eq_true_eq] at admitted ⊢
      exact within _ admitted
    | _ => cases admitted

/-- A later input type accepts the values of the earlier one. It accepts `none` when it is optional. -/
theorem InputKept.admits {active cand : ExprType} (kept : InputKept active cand) {cell : Expr.Cell}
    (admitted : admits active cell = true)
    (present : isOptional active = true → cell = .scalar .none → isOptional cand = true) :
    admits cand cell = true := by
  cases kept with
  | same => exact admitted
  | @scalar activeType candType inner =>
    cases cell with
    | scalar value =>
      rcases admits_iff.mp admitted with ⟨opt, rfl⟩ | inside
      · have loose : isOptional (.scalar candType) = true := present (by
          cases activeType <;> first | rfl | cases opt) rfl
        refine admits_iff.mpr (.inl ⟨?_, rfl⟩)
        cases candType <;> first | rfl | cases loose
      · exact admits_iff.mpr (.inr (inner.admits inside))
    | row row => cases admitted
    | collection rows => cases admitted

end Types

section Contracts

/-- Later parameters gain no requirement and keep the earlier domains. -/
structure ParamsKept (active cand : Params) : Prop where
  added : ∀ (name : String) param, cand[name]? = some param → active[name]? = none →
    param.required = false
  required : ∀ (name : String) param next, active[name]? = some param → cand[name]? = some next →
    param.required = false → next.required = false
  domain : ∀ (name : String) param next, active[name]? = some param → cand[name]? = some next →
    InputKept param.type next.type

/-- Later members include the earlier ones. -/
abbrev MembersKept : Members → Members → Prop :=
  Covers ResultKept

/-- Two readings agree where both exist. -/
def Agrees {α : Type} (related : α → α → Prop) (active cand : Option α) : Prop :=
  ∀ before after, active = some before → cand = some after → related before after

/-- A later output keeps the identity, the ordering and the members. -/
structure OutputKept (active cand : Output) : Prop where
  identity : Agrees Eq active.identity cand.identity
  ordering : Agrees Eq active.ordering cand.ordering
  members : MembersKept active.members cand.members

/-- A later operation keeps the parameters and the response. -/
structure OperationKept (active cand : Operation) : Prop where
  params : ParamsKept active.params cand.params
  response : Agrees MembersKept active.response cand.response

/-- A later surface keeps the output, the parameters and the operations. -/
structure SurfaceKept (active cand : Surface) : Prop where
  output : ∀ before, active.output = some before → ∃ after, cand.output = some after ∧
    OutputKept before after
  params : ParamsKept active.params cand.params
  operations : Covers OperationKept active.operations cand.operations

theorem paramsNarrowing_eq_none {subject : Subject} {active cand : Params} :
    paramsNarrowing subject active cand = none ↔ ParamsKept active cand := by
  rw [paramsNarrowing, Option.or_eq_none_iff, findSome?_toList_eq_none, findSome?_toList_eq_none]
  constructor
  · rintro ⟨added, shared⟩
    have kept : ∀ (name : String) param next, active[name]? = some param → cand[name]? = some next →
        ¬ (!param.required && next.required) = true ∧ inputNarrows param.type next.type = false := by
      intro name param next before after
      have quiet := shared name param before
      simp only [after] at quiet
      split at quiet
      next => cases quiet
      next free =>
        split at quiet
        next => cases quiet
        next same => exact ⟨free, by simpa using same⟩
    refine ⟨fun name param after fresh => ?_, fun name param next before after free => ?_,
      fun name param next before after => inputNarrows_eq_false.mp (kept name param next before after).2⟩
    · simpa [fresh] using added name param after
    · simpa [free] using (kept name param next before after).1
  · intro kept
    refine ⟨fun name param after => ?_, fun name param before => ?_⟩
    · simp only
      rw [if_neg]
      rintro ⟨fresh, required⟩
      rw [kept.added name param after fresh] at required
      cases required
    · simp only
      cases after : cand[name]? with
      | none => rfl
      | some next =>
        simp only
        rw [if_neg, inputNarrows_eq_false.mpr (kept.domain name param next before after)]
        · rfl
        · intro tightened
          simp only [Bool.and_eq_true, Bool.not_eq_true'] at tightened
          rw [kept.required name param next before after tightened.1] at tightened
          cases tightened.2

theorem projectionNarrowing_eq_none {subject : Subject} {noun : String} {active cand : Members} :
    projectionNarrowing subject noun active cand = none ↔ MembersKept active cand := by
  apply firstUncovered_eq_none
  intro member before after
  rw [← outputNarrows_eq_false]
  cases outputNarrows before after <;> simp

theorem bothRead_eq_none {α : Type} {active cand : Option α} {narrows : α → α → Option Narrowing}
    {related : α → α → Prop}
    (decides : ∀ before after, active = some before → cand = some after →
      (narrows before after = none ↔ related before after)) :
    bothRead active cand narrows = none ↔ Agrees related active cand := by
  cases active with
  | none => exact ⟨fun _ _ _ missing => (nomatch missing), fun _ => rfl⟩
  | some before =>
    cases cand with
    | none => exact ⟨fun _ _ _ _ missing => (nomatch missing), fun _ => rfl⟩
    | some after =>
      rw [bothRead, decides before after rfl rfl]
      constructor
      · rintro kept _ _ ⟨⟩ ⟨⟩
        exact kept
      · exact fun kept => kept before after rfl rfl

/-- Keys without optional components are equal when their names are and no component is narrowed. -/
theorem componentsNarrowing_eq_none {address : String} {active cand : List (String × FieldType)}
    (solid : ∀ component ∈ active, (stripOptional component.2).2 = false)
    (names : active.map Prod.fst = cand.map Prod.fst) :
    componentsNarrowing address active cand = none ↔ active = cand := by
  induction active generalizing cand with
  | nil =>
    cases cand with
    | nil => simp [componentsNarrowing]
    | cons component rest => cases names
  | cons component rest earlier =>
    cases cand with
    | nil => cases names
    | cons other others =>
      obtain ⟨name, activeType⟩ := component
      obtain ⟨otherName, candType⟩ := other
      obtain ⟨same, others_names⟩ := List.cons_eq_cons.mp names
      obtain rfl : name = otherName := same
      rw [componentsNarrowing]
      split
      next narrows =>
        constructor
        · intro quiet
          cases quiet
        · intro equal
          obtain ⟨head, -⟩ := List.cons_eq_cons.mp equal
          rw [(Prod.mk.inj head).2, outputNarrows_eq_false.mpr (.same _)] at narrows
          cases narrows
      next kept =>
        rw [earlier (fun other inside => solid other (List.mem_cons_of_mem _ inside)) others_names,
          List.cons_eq_cons]
        refine ⟨fun rest => ⟨?_, rest⟩, And.right⟩
        have result := outputNarrows_eq_false.mp (by simpa using kept)
        have firm := solid (name, activeType) List.mem_cons_self
        cases result with
        | same => rfl
        | required => cases firm

theorem identityNarrowing_eq_none {address : String} {active cand : List (String × FieldType)}
    (solid : ∀ component ∈ active, (stripOptional component.2).2 = false) :
    identityNarrowing address active cand = none ↔ active = cand := by
  rw [identityNarrowing]
  split
  next differ =>
    constructor
    · intro quiet
      cases quiet
    · rintro rfl
      exact absurd rfl differ
  next same => exact componentsNarrowing_eq_none solid (by simpa using same)

theorem outputNarrowing_eq_none {address : String} {active cand : Output} :
    outputNarrowing address active cand = none ↔ OutputKept active cand := by
  have identity : bothRead active.identity cand.identity (identityNarrowing address) = none ↔
      Agrees Eq active.identity cand.identity :=
    bothRead_eq_none fun before _ read _ => identityNarrowing_eq_none (active.solid before read)
  have ordering : bothRead active.ordering cand.ordering (fun before after =>
      if before ≠ after then some (.orderingChanged address before after) else none) = none ↔
      Agrees Eq active.ordering cand.ordering := by
    apply bothRead_eq_none
    intro before after _ _
    by_cases same : before = after <;> simp [same]
  rw [outputNarrowing, Option.or_eq_none_iff, Option.or_eq_none_iff, identity,
    ordering, projectionNarrowing_eq_none]
  exact ⟨fun ⟨identity, ordering, members⟩ => ⟨identity, ordering, members⟩,
    fun kept => ⟨kept.identity, kept.ordering, kept.members⟩⟩

theorem operationNarrowing_eq_none {address name : String} {active cand : Operation} :
    operationNarrowing address name active cand = none ↔ OperationKept active cand := by
  rw [operationNarrowing, Option.or_eq_none_iff, paramsNarrowing_eq_none,
    bothRead_eq_none fun _ _ _ _ => projectionNarrowing_eq_none]
  exact ⟨fun ⟨params, response⟩ => ⟨params, response⟩, fun kept => ⟨kept.params, kept.response⟩⟩

theorem viewNarrowing_eq_none {address : String} {active cand : Option Output} :
    viewNarrowing address active cand = none ↔
      ∀ before, active = some before → ∃ after, cand = some after ∧ OutputKept before after := by
  cases active with
  | none => exact ⟨fun _ _ missing => (nomatch missing), fun _ => rfl⟩
  | some before =>
    cases cand with
    | none =>
      constructor
      · intro quiet
        cases quiet
      · intro kept
        obtain ⟨after, missing, -⟩ := kept before rfl
        cases missing
    | some after =>
      rw [viewNarrowing, outputNarrowing_eq_none]
      constructor
      · rintro kept _ ⟨⟩
        exact ⟨after, rfl, kept⟩
      · intro kept
        obtain ⟨_, found, kept⟩ := kept before rfl
        cases found
        exact kept

theorem surfaceNarrowing_eq_none {address : String} {active cand : Surface} :
    surfaceNarrowing address active cand = none ↔ SurfaceKept active cand := by
  have operations : firstUncovered active.operations cand.operations (.operationRemoved address)
      (operationNarrowing address) = none ↔ Covers OperationKept active.operations cand.operations :=
    firstUncovered_eq_none fun _ _ _ => operationNarrowing_eq_none
  rw [surfaceNarrowing, Option.or_eq_none_iff, Option.or_eq_none_iff, viewNarrowing_eq_none,
    paramsNarrowing_eq_none, operations]
  exact ⟨fun ⟨output, params, operations⟩ => ⟨output, params, operations⟩,
    fun kept => ⟨kept.output, kept.params, kept.operations⟩⟩

/-- The check lets a release pass when each surface is kept. -/
theorem narrowing_eq_none {active cand : BoundaryContract} :
    active.narrowing cand = none ↔ Covers SurfaceKept active.surfaces cand.surfaces :=
  firstUncovered_eq_none fun _ _ _ => surfaceNarrowing_eq_none

end Contracts

section Chains

/-- A middle reading exists where the outer ones do. -/
def ReadBetween {α : Type} (first middle last : Option α) : Prop :=
  first.isSome → last.isSome → middle.isSome

/-- The middle release keeps the parameters that the outer releases share. -/
def SharedBetween (first middle last : Params) : Prop :=
  ∀ name : String, first[name]?.isSome → last[name]?.isSome → middle[name]?.isSome

/-- The middle release can be read and keeps the parameters wherever both outer releases do. -/
structure Bridges (first middle last : Surface) : Prop where
  outputs : ∀ x y z, first.output = some x → middle.output = some y → last.output = some z →
    ReadBetween x.identity y.identity z.identity ∧ ReadBetween x.ordering y.ordering z.ordering
  params : SharedBetween first.params middle.params last.params
  operations : ∀ (name : String) x y z, first.operations[name]? = some x →
    middle.operations[name]? = some y → last.operations[name]? = some z →
    SharedBetween x.params y.params z.params ∧ ReadBetween x.response y.response z.response

/-- Agreement composes through a middle reading. -/
theorem Agrees.trans {α : Type} {related : α → α → Prop} {first middle last : Option α}
    (between : ReadBetween first middle last)
    (compose : ∀ {x y z}, related x y → related y z → related x z)
    (lower : Agrees related first middle) (upper : Agrees related middle last) :
    Agrees related first last := by
  intro x z atFirst atLast
  obtain ⟨y, atMiddle⟩ := Option.isSome_iff_exists.mp
    (between (by rw [atFirst]; rfl) (by rw [atLast]; rfl))
  exact compose (lower x y atFirst atMiddle) (upper y z atMiddle atLast)

theorem MembersKept.trans {first middle last : Members} (lower : MembersKept first middle)
    (upper : MembersKept middle last) : MembersKept first last :=
  Covers.trans lower upper fun _ _ _ _ _ _ _ => ResultKept.trans

theorem ParamsKept.refl (params : Params) : ParamsKept params params where
  added name param stored missing := nomatch stored.symm.trans missing
  required name param next before after free := by
    obtain rfl := Option.some.inj (before.symm.trans after)
    exact free
  domain name param next before after := by
    obtain rfl := Option.some.inj (before.symm.trans after)
    exact .same _

theorem ParamsKept.trans {first middle last : Params} (shared : SharedBetween first middle last)
    (lower : ParamsKept first middle) (upper : ParamsKept middle last) : ParamsKept first last := by
  -- A parameter that both outer releases have is one of the middle release.
  have through : ∀ (name : String) x z, first[name]? = some x → last[name]? = some z →
      ∃ y, middle[name]? = some y := fun name x z atFirst atLast =>
    Option.isSome_iff_exists.mp (shared name (by rw [atFirst]; rfl) (by rw [atLast]; rfl))
  refine ⟨fun name z atLast fresh => ?_, fun name x z atFirst atLast free => ?_,
    fun name x z atFirst atLast => ?_⟩
  · cases atMiddle : middle[name]? with
    | none => exact upper.added name z atLast atMiddle
    | some y => exact upper.required name y z atMiddle atLast (lower.added name y atMiddle fresh)
  · obtain ⟨y, atMiddle⟩ := through name x z atFirst atLast
    exact upper.required name y z atMiddle atLast (lower.required name x y atFirst atMiddle free)
  · obtain ⟨y, atMiddle⟩ := through name x z atFirst atLast
    exact (lower.domain name x y atFirst atMiddle).trans (upper.domain name y z atMiddle atLast)

theorem OutputKept.refl (output : Output) : OutputKept output output where
  identity _ _ before after := Option.some.inj (before.symm.trans after)
  ordering _ _ before after := Option.some.inj (before.symm.trans after)
  members := Covers.refl .same _

theorem OperationKept.refl (operation : Operation) : OperationKept operation operation where
  params := .refl _
  response before after atBefore atAfter := by
    obtain rfl := Option.some.inj (atBefore.symm.trans atAfter)
    exact Covers.refl .same _

theorem SurfaceKept.refl (surface : Surface) : SurfaceKept surface surface where
  output before read := ⟨before, read, .refl before⟩
  params := .refl _
  operations := Covers.refl .refl _

/-- A surface that is kept twice is kept when the middle release bridges the others. -/
theorem SurfaceKept.trans {first middle last : Surface} (bridges : Bridges first middle last)
    (lower : SurfaceKept first middle) (upper : SurfaceKept middle last) : SurfaceKept first last where
  output x atFirst := by
    obtain ⟨y, atMiddle, left⟩ := lower.output x atFirst
    obtain ⟨z, atLast, right⟩ := upper.output y atMiddle
    obtain ⟨identity, ordering⟩ := bridges.outputs x y z atFirst atMiddle atLast
    exact ⟨z, atLast, left.identity.trans identity Eq.trans right.identity,
      left.ordering.trans ordering Eq.trans right.ordering, left.members.trans right.members⟩
  params := lower.params.trans bridges.params upper.params
  operations := lower.operations.trans upper.operations fun name x y z atFirst atMiddle atLast left right => by
    obtain ⟨params, response⟩ := bridges.operations name x y z atFirst atMiddle atLast
    exact ⟨left.params.trans params right.params,
      left.response.trans response MembersKept.trans right.response⟩

end Chains

section Substitution

/-- Arguments by name. -/
abbrev Args := Std.ExtTreeMap String Expr.Cell compare

/-- Arguments are valid when each has a parameter that admits it and each required parameter has one. -/
structure ValidArgs (params : Params) (args : Args) : Prop where
  declared : ∀ (name : String) cell, args[name]? = some cell →
    ∃ param, params[name]? = some param ∧ admits param.type cell = true
  supplied : ∀ (name : String) param, params[name]? = some param → param.required = true →
    ∃ cell, args[name]? = some cell

/-- The later parameters still name the arguments. -/
def Named (params : Params) (args : Args) : Prop :=
  ∀ (name : String) cell, args[name]? = some cell → ∃ param, params[name]? = some param

/-- An argument is `none` only where the later parameter is optional. -/
def Present (params : Params) (args : Args) : Prop :=
  ∀ (name : String) param, params[name]? = some param → args[name]? = some (.scalar .none) →
    isOptional param.type = true

/-- Arguments that are valid for the earlier parameters are valid for the later ones that name them. -/
theorem ParamsKept.valid {active cand : Params} (kept : ParamsKept active cand) {args : Args}
    (valid : ValidArgs active args) (named : Named cand args) (present : Present cand args) :
    ValidArgs cand args where
  declared name cell given := by
    obtain ⟨param, before, admitted⟩ := valid.declared name cell given
    obtain ⟨next, after⟩ := named name cell given
    refine ⟨next, after, (kept.domain name param next before after).admits admitted ?_⟩
    rintro - rfl
    exact present name next after given
  supplied name next after required := by
    cases before : active[name]? with
    | none => exact absurd required (by simp [kept.added name next after before])
    | some param =>
      refine valid.supplied name param before ?_
      by_contra free
      have loose := kept.required name param next before after (by simpa using free)
      rw [required] at loose
      cases loose

/-- Only an optional type admits `none`. -/
theorem isOptional_of_admits {type : ExprType} (admitted : admits type (.scalar .none) = true) :
    isOptional type = true := by
  cases type with
  | scalar type => cases type <;> first | rfl | cases admitted
  | row fields key => cases admitted
  | view fields key => cases admitted

/-- The later parameters of an operation are optional where an argument is `none`. -/
theorem OperationKept.present {active cand : Operation} (kept : OperationKept active cand) {args : Args}
    (valid : ValidArgs active.params args) : Present cand.params args := by
  intro name next after given
  obtain ⟨param, before, admitted⟩ := valid.declared name _ given
  have free := kept.params.required name param next before after
    (param.free (isOptional_of_admits admitted))
  rw [cand.undefaulted name next after] at free
  simpa using free

/-- A later member has only values of the earlier type, and an enumeration keeps its domain. -/
structure MemberSubstitutes (before after : ExprType) : Prop where
  values : ∀ cell, admits after cell = true → admits before cell = true
  domain : ∀ type next, before = .scalar type → after = .scalar next →
    enumLabels (stripOptional type).1 = enumLabels (stripOptional next).1

/-- The rows of a later view have the members, the identity and the ordering of the earlier view. -/
structure OutputSubstitutes (before after : Output) : Prop where
  members : Covers MemberSubstitutes before.members after.members
  identity : Agrees Eq before.identity after.identity
  ordering : before.view.Regular → after.view.Regular →
    Agrees Eq (viewSort before.view) (viewSort after.view)

/-- A later operation takes the valid arguments and its response has the members. -/
structure OperationSubstitutes (active cand : Operation) : Prop where
  arguments : ∀ args, ValidArgs active.params args → Named cand.params args → ValidArgs cand.params args
  response : Agrees (Covers MemberSubstitutes) active.response cand.response

/-- A later surface can stand in for the earlier one. -/
structure SurfaceSubstitutes (active cand : Surface) : Prop where
  output : ∀ before, active.output = some before → ∃ after, cand.output = some after ∧
    OutputSubstitutes before after
  arguments : ∀ args, ValidArgs active.params args → Named cand.params args →
    Present cand.params args → ValidArgs cand.params args
  operations : Covers OperationSubstitutes active.operations cand.operations

theorem ResultKept.substitutes {before after : ExprType} (kept : ResultKept before after) :
    MemberSubstitutes before after where
  values _ := kept.admits
  domain type next earlier later := by
    subst earlier later
    exact kept.enumLabels

theorem MembersKept.substitutes {before after : Members} (kept : MembersKept before after) :
    Covers MemberSubstitutes before after :=
  kept.imp fun _ _ => ResultKept.substitutes

theorem OutputKept.substitutes {before after : Output} (kept : OutputKept before after) :
    OutputSubstitutes before after where
  members := kept.members.substitutes
  identity := kept.identity
  ordering regular later keys others accepted also :=
    kept.ordering keys others (viewOrdering_agree regular accepted) (viewOrdering_agree later also)

theorem OperationKept.substitutes {active cand : Operation} (kept : OperationKept active cand) :
    OperationSubstitutes active cand where
  arguments _ valid named := kept.params.valid valid named (kept.present valid)
  response before after read also := (kept.response before after read also).substitutes

theorem SurfaceKept.substitutes {active cand : Surface} (kept : SurfaceKept active cand) :
    SurfaceSubstitutes active cand where
  output before read := by
    obtain ⟨after, also, kept⟩ := kept.output before read
    exact ⟨after, also, kept.substitutes⟩
  arguments _ := kept.params.valid
  operations := kept.operations.imp fun _ _ => OperationKept.substitutes

/-- Every release passes against itself. Releases that pass one after the other pass as one when the
middle release bridges the outer ones. A release that passes can stand in for the earlier one. -/
theorem narrowing_sound (first middle last : BoundaryContract) :
    first.narrowing first = none ∧
    (first.narrowing middle = none → middle.narrowing last = none →
      (∀ (address : String) x y z, first.surfaces[address]? = some x →
        middle.surfaces[address]? = some y → last.surfaces[address]? = some z → Bridges x y z) →
      first.narrowing last = none) ∧
    (first.narrowing last = none → Covers SurfaceSubstitutes first.surfaces last.surfaces) := by
  refine ⟨narrowing_eq_none.mpr (Covers.refl .refl _), fun lower upper bridges => ?_, fun kept => ?_⟩
  · rw [narrowing_eq_none] at lower upper ⊢
    exact lower.trans upper fun address x y z atFirst atMiddle atLast =>
      SurfaceKept.trans (bridges address x y z atFirst atMiddle atLast)
  · exact (narrowing_eq_none.mp kept).imp fun _ _ => SurfaceKept.substitutes

end Substitution

section Sample

/-- An operation without parameters. -/
def sampleOperation (response : Option Members) : Operation :=
  ⟨∅, response, by simp⟩

/-- A surface with one operation. -/
def sampleSurface (response : Option Members) : Surface :=
  ⟨none, ∅, Std.ExtTreeMap.ofList [("add", sampleOperation response)] compare⟩

/-- A release with one surface. -/
def sampleRelease (response : Option Members) : BoundaryContract :=
  ⟨Std.ExtTreeMap.ofList [("public.items", sampleSurface response)] compare⟩

/-- A response with more members can stand in for the earlier response. -/
theorem narrowing_sound_sample :
    let first := sampleRelease (some (.ofList [("name", ExprType.scalar .text)]))
    let last := sampleRelease (some (.ofList [("name", ExprType.scalar .text), ("note", .scalar .text)]))
    first.narrowing first = none ∧ Covers SurfaceSubstitutes first.surfaces last.surfaces :=
  ⟨(narrowing_sound _ (sampleRelease none) (sampleRelease none)).1,
    (narrowing_sound _ (sampleRelease none) _).2.2 (Option.isNone_iff_eq_none.mp (by decide))⟩

/-- The response of the first release has a member that the response of the last release lacks. The
response of the release between them cannot be read. -/
theorem narrowing_not_trans :
    let first := sampleRelease (some (.ofList [("name", ExprType.scalar .text)]))
    let middle := sampleRelease none
    let last := sampleRelease (some ∅)
    first.narrowing middle = none ∧ middle.narrowing last = none ∧ first.narrowing last ≠ none := by
  refine ⟨Option.isNone_iff_eq_none.mp (by decide), Option.isNone_iff_eq_none.mp (by decide), ?_⟩
  exact Option.isSome_iff_ne_none.mp (by decide)

end Sample

end Liasse.Contract

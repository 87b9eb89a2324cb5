/-
This file proves that a row that takes a new key moves with all rows below it, and that each reference resolves to
the same row before and after.
-/

import Liasse.Codes.Related
import Liasse.Codes.Table
import Liasse.Runtime.Equality
import Liasse.Runtime.Membership
import Liasse.Runtime.Rewritten
import Liasse.Value.Normal

namespace Liasse.Runtime

open Store

section Addresses

/-- The place of a row after the move of another one with all rows below it. -/
def relocate (old new other : RowAddress) : RowAddress :=
  if isPrefix old other then reroot new other old.depth else other

/-- The lengths of the keys of an address. -/
def keyLengths (address : RowAddress) : List Nat :=
  address.steps.map fun step => step.key.components.length

theorem isPrefix_iff {old other : RowAddress} :
    isPrefix old other = true ↔ ∃ below, other.steps = old.steps ++ below := by
  rw [isPrefix, List.isPrefixOf_iff_prefix]
  constructor
  · rintro ⟨below, same⟩
    exact ⟨below, same.symm⟩
  · rintro ⟨below, same⟩
    exact ⟨below, same.symm⟩

theorem steps_reroot {old other : RowAddress} (new : RowAddress) {below : List AddressStep}
    (inside : other.steps = old.steps ++ below) : (reroot new other old.depth).steps = new.steps ++ below := by
  change new.first :: (new.rest ++ other.steps.drop old.depth) = _
  rw [inside, RowAddress.depth_eq, List.drop_left]
  rfl

theorem relocate_self (old new : RowAddress) : relocate old new old = new := by
  have inside : isPrefix old old = true := isPrefix_iff.mpr ⟨[], (List.append_nil _).symm⟩
  rw [relocate, if_pos inside]
  apply RowAddress.steps_inj.mp
  rw [steps_reroot _ (List.append_nil _).symm, List.append_nil]

theorem relocate_inside {old new other : RowAddress} (inside : isPrefix old other = true) :
    relocate old new other = reroot new other old.depth :=
  if_pos inside

theorem relocate_outside {old new other : RowAddress} (outside : isPrefix old other = false) :
    relocate old new other = other :=
  if_neg (ne_true_of_eq_false outside)

/-- The new address has the levels of the old one. -/
structure SameLevels (old new : RowAddress) : Prop where
  declaration : new.declaration = old.declaration
  lengths : keyLengths new = keyLengths old

theorem SameLevels.relocate {old new : RowAddress} (same : SameLevels old new) (other : RowAddress) :
    SameLevels other (relocate old new other) := by
  by_cases inside : isPrefix old other = true
  · obtain ⟨below, split⟩ := isPrefix_iff.mp inside
    have steps := steps_reroot new split
    rw [relocate_inside inside]
    constructor
    · rw [RowAddress.declaration, RowAddress.declaration, steps, split, List.map_append, List.map_append]
      exact congrArg (· ++ _) same.declaration
    · rw [keyLengths, keyLengths, steps, split, List.map_append, List.map_append]
      exact congrArg (· ++ _) same.lengths
  · rw [relocate_outside (Bool.not_eq_true _ ▸ inside)]
    exact ⟨rfl, rfl⟩

theorem SameLevels.depth {old new : RowAddress} (same : SameLevels old new) : new.depth = old.depth := by
  have lengths := congrArg List.length same.declaration
  rw [RowAddress.declaration, RowAddress.declaration, List.length_map, List.length_map] at lengths
  rw [RowAddress.depth_eq, RowAddress.depth_eq, lengths]

/-- A row that moves does not stay below the old address. -/
theorem SameLevels.outside {old new other : RowAddress} (same : SameLevels old new) (different : new ≠ old)
    (inside : isPrefix old other = true) : isPrefix old (reroot new other old.depth) = false := by
  by_contra stays
  obtain ⟨below, split⟩ := isPrefix_iff.mp inside
  obtain ⟨further, again⟩ := isPrefix_iff.mp (Bool.not_eq_false _ ▸ stays)
  rw [steps_reroot _ split] at again
  have lengths : new.steps.length = old.steps.length := by
    rw [← RowAddress.depth_eq, ← RowAddress.depth_eq, same.depth]
  exact different (RowAddress.steps_inj.mp (List.append_inj again lengths).1)

/-- Steps of the same names and key lengths are the same when their components are. -/
theorem steps_eq_of_components {first second : List AddressStep}
    (names : first.map AddressStep.name = second.map AddressStep.name)
    (lengths : (first.map fun step => step.key.components.length) = second.map fun step => step.key.components.length)
    (components : (first.flatMap fun step => step.key.components) = second.flatMap fun step => step.key.components) :
    first = second := by
  induction first generalizing second with
  | nil => exact (List.map_eq_nil_iff.mp names.symm).symm
  | cons step rest ih =>
    cases second with
    | nil => cases names
    | cons other others =>
      obtain ⟨name, restNames⟩ := List.cons.inj names
      obtain ⟨length, restLengths⟩ := List.cons.inj lengths
      obtain ⟨here, below⟩ := List.append_inj components length
      obtain rfl := ih restNames restLengths below
      have key := KeyClass.components_inj.mp here
      cases step
      cases other
      obtain rfl : _ = _ := name
      obtain rfl : _ = _ := key
      rfl

theorem eq_of_components {first second : RowAddress} (declaration : first.declaration = second.declaration)
    (lengths : keyLengths first = keyLengths second) (components : first.components = second.components) :
    first = second :=
  RowAddress.steps_inj.mp (steps_eq_of_components declaration lengths components)

end Addresses

section Declarations

theorem at_append (collection : CompiledCollection) (above below : List String) :
    collection.at (above ++ below) = (collection.at above).bind fun inner => inner.at below := by
  induction above generalizing collection with
  | nil => rfl
  | cons head rest ih =>
    rw [List.cons_append, CompiledCollection.at, CompiledCollection.at]
    cases collection.child head with
    | none => rfl
    | some child => exact ih child

/-- A nested collection is inside a declared one. -/
theorem collectionAt_above {compiled : Compiled} (root : compiled.collection rootName = none) {above : List String}
    {name : String} (nonempty : above ≠ []) {collection : CompiledCollection}
    (declared : compiled.collectionAt (above ++ [name]) = some collection) :
    above ≠ [rootName] ∧ ∃ outer, compiled.collectionAt above = some outer := by
  obtain ⟨head, rest, rfl⟩ := List.exists_cons_of_ne_nil nonempty
  have nested : head :: (rest ++ [name]) ≠ [rootName] := by simp
  simp only [List.cons_append, Compiled.collectionAt, if_neg nested] at declared
  cases found : compiled.collection head with
  | none => simp [found] at declared
  | some top =>
    simp only [found, at_append] at declared
    obtain ⟨outer, there, _⟩ := Option.bind_eq_some_iff.mp declared
    have other : head :: rest ≠ [rootName] := fun same => by
      rw [(List.cons.inj same).1, root] at found
      cases found
    refine ⟨other, outer, ?_⟩
    simp only [Compiled.collectionAt, if_neg other, found]
    exact there

theorem steps_of_parentRow {row parent : RowAddress} (nested : parentRow row = some parent) :
    row.steps = parent.steps ++ [row.last] := by
  obtain ⟨first, rest⟩ := row
  cases rest with
  | nil => cases nested
  | cons step rest =>
    obtain rfl := Option.some.inj nested
    rw [RowAddress.steps_eq]
    rfl

theorem rest_of_parentRow {row : RowAddress} (top : parentRow row = none) : row.rest = [] := by
  obtain ⟨first, rest⟩ := row
  cases rest with
  | nil => rfl
  | cons step rest => cases top

end Declarations

section States

/-- A key that is a reference does not name a row of its own collection. -/
def Unmixed (names : List String) (first second : RowAddress) : Prop :=
  ∀ key, ValueClass.of (.ref key) = identityOf names first.last.key.components →
    refIdentity names key ≠ identityOf names second.last.key.components

/-- What the declarations and the state of a package satisfy: the fields of a row are apart, each of them holds a
reference or a set of references, the keys of a collection have its components, and a nested row is in a live one. -/
structure Sound (compiled : Compiled) (rows : Rows) : Prop where
  root : compiled.collection rootName = none
  keyless : compiled.rootSingleton.key = []
  beside : ∀ path collection, compiled.collectionAt path = some collection →
    (refSites collection).Pairwise fun first second => Apart first.names second.names
  either : ∀ path collection, compiled.collectionAt path = some collection → ∀ site ∈ refSites collection,
    site.field.reference.isSome → site.field.elementReference = none
  lengths : ∀ row ∈ rows, row.declaration ≠ [rootName] → ∀ collection,
    compiled.collectionAt row.declaration = some collection → row.last.key.components.length = collection.key.length
  parents : ∀ row ∈ rows, ∀ parent, parentRow row = some parent → parent ∈ rows
  unmixed : ∀ first ∈ rows, ∀ second ∈ rows, first.declaration = second.declaration → ∀ name collection,
    first.declaration = [name] → compiled.collection name = some collection → Unmixed collection.key first second

variable {compiled : Compiled} {rows : Rows}

/-- The rows of a collection have keys of the same lengths at all levels. -/
theorem Sound.sameLengths (sound : Sound compiled rows) {first second : RowAddress} (left : first ∈ rows)
    (right : second ∈ rows) (same : first.declaration = second.declaration)
    (declared : first.declaration ≠ [rootName] ∧ ∃ collection, compiled.collectionAt first.declaration = some collection) :
    keyLengths first = keyLengths second := by
  induction length : first.depth using Nat.strong_induction_on generalizing first second with
  | _ depth ih =>
    subst length
    obtain ⟨other, collection, found⟩ := declared
    have lasts : first.last.key.components.length = second.last.key.components.length :=
      (sound.lengths first left other collection found).trans
        (sound.lengths second right (same ▸ other) collection (same ▸ found)).symm
    have depths : first.steps.length = second.steps.length := by
      have lengths := congrArg List.length same
      rwa [RowAddress.declaration, RowAddress.declaration, List.length_map, List.length_map] at lengths
    cases above : parentRow first with
    | none =>
      have top := rest_of_parentRow above
      have otherTop : second.rest = [] := by
        rw [RowAddress.steps, RowAddress.steps, top] at depths
        exact List.length_eq_zero_iff.mp (Nat.succ.inj depths).symm
      rw [RowAddress.last, RowAddress.last, top, otherTop] at lasts
      rw [keyLengths, keyLengths, RowAddress.steps, RowAddress.steps, top, otherTop]
      exact congrArg (fun length => [length]) lasts
    | some parent =>
      have split := steps_of_parentRow above
      cases beside : parentRow second with
      | none =>
        have top := rest_of_parentRow beside
        rw [split, RowAddress.steps, RowAddress.steps, top] at depths
        simp at depths
      | some otherParent =>
        have otherSplit := steps_of_parentRow beside
        have names := same
        rw [RowAddress.declaration, RowAddress.declaration, split, otherSplit, List.map_append,
          List.map_append] at names
        obtain ⟨outer, _⟩ := List.append_inj' names rfl
        have declaredAbove : parent.declaration ≠ [rootName] ∧
            ∃ collection, compiled.collectionAt parent.declaration = some collection := by
          rw [RowAddress.declaration, split, List.map_append] at found
          exact collectionAt_above sound.root (by simp [RowAddress.declaration, RowAddress.steps]) found
        have shorter : parent.depth < first.depth := by
          rw [RowAddress.depth_eq, RowAddress.depth_eq, split, List.length_append]
          exact Nat.lt_succ_self _
        have earlier := ih parent.depth shorter (sound.parents first left parent above)
          (sound.parents second right otherParent beside) outer declaredAbove rfl
        rw [keyLengths, keyLengths] at earlier
        rw [keyLengths, keyLengths, split, otherSplit, List.map_append, List.map_append, earlier]
        exact congrArg (_ ++ [·]) lasts

end States

section Pointing

variable {compiled : Compiled} {rows : Rows} {target : List String} {value : Value} {row : RowAddress}

/-- A stored value names a row of a target, as a reference or as a bare key. -/
def Points (compiled : Compiled) (target : List String) (value : Value) (row : RowAddress) : Prop :=
  ∃ key, memberRefKey value = some key ∧ named compiled target key row = true

/-- A value names rows of its target. -/
theorem Points.declaration (points : Points compiled target value row) : row.declaration = target := by
  obtain ⟨key, _, names⟩ := points
  unfold named at names
  split at names
  · next name =>
      cases found : compiled.collection name with
      | none => simp [found] at names
      | some collection =>
        simp only [found, Bool.and_eq_true] at names
        rw [← CollectionPath.declaration_collection, of_decide_eq_true names.1]
        rfl
  · simp only [Bool.and_eq_true, decide_eq_true_eq] at names
    exact names.1.2

/-- The target of a value that names a row is a declared collection. -/
theorem Points.declared (points : Points compiled target value row) (root : compiled.collection rootName = none) :
    target ≠ [rootName] ∧ ∃ collection, compiled.collectionAt target = some collection := by
  obtain ⟨key, _, names⟩ := points
  unfold named at names
  split at names
  · next name =>
      cases found : compiled.collection name with
      | none => simp [found] at names
      | some collection =>
        have other : [name] ≠ [rootName] := fun same => by
          rw [List.singleton_inj.mp same, root] at found
          cases found
        refine ⟨other, collection, ?_⟩
        simp only [Compiled.collectionAt, if_neg other, found]
        rfl
  · next several =>
      simp only [Bool.and_eq_true, decide_eq_true_eq] at names
      exact ⟨fun same => several _ same, Option.isSome_iff_exists.mp names.1.1⟩

/-- Equal values name the same rows. -/
theorem Points.congr {other : Value} (points : Points compiled target value row) (same : value.cmp other = .eq) :
    Points compiled target other row := by
  obtain ⟨key, carried, names⟩ := points
  have normals := memberRefKey_normal value
  rw [Value.normal_congr same, memberRefKey_normal, carried] at normals
  obtain ⟨otherKey, otherCarried, equal⟩ := Option.map_eq_some_iff.mp normals
  exact ⟨otherKey, otherCarried, (named_congr equal row).trans names⟩

/-- A value names one row at most among those with keys of the same lengths. -/
theorem Points.unique {other : RowAddress} (points : Points compiled target value row)
    (again : Points compiled target value other) (lengths : keyLengths row = keyLengths other)
    (component : ∀ name collection, target = [name] → compiled.collection name = some collection →
      row.last.key.components.length = collection.key.length) : row = other := by
  obtain ⟨key, carried, names⟩ := points
  obtain ⟨_, same, otherNames⟩ := again
  obtain rfl := Option.some.inj (carried.symm.trans same)
  unfold named at names otherNames
  split at names
  · next name =>
      cases found : compiled.collection name with
      | none => simp [found] at names
      | some collection =>
        simp only [found, Bool.and_eq_true, decide_eq_true_eq] at names otherNames
        have length := component name collection rfl found
        have lasts : row.last.key.components.length = other.last.key.components.length := by
          have top {address : RowAddress} (inside : (CollectionPath.top name).contains address = true) :
              address.steps = [address.last] := by
            have ancestors := congrArg CollectionPath.ancestors (of_decide_eq_true inside)
            rw [RowAddress.steps_eq]
            exact congrArg (· ++ [address.last]) ancestors
          rw [keyLengths, keyLengths, top names.1, top otherNames.1] at lengths
          exact (List.cons.inj lengths).1
        have components := identityOf_inj length.symm (length.symm.trans lasts)
          (names.2.trans otherNames.2.symm)
        exact eq_of_last names.1 otherNames.1 (KeyClass.components_inj.mp components)
  · next several =>
      split at otherNames
      · next name => exact absurd rfl (several name)
      · simp only [Bool.and_eq_true, decide_eq_true_eq] at names otherNames
        exact eq_of_components (names.1.2.trans otherNames.1.2.symm) lengths (names.2.trans otherNames.2.symm)

end Pointing

section Tracking

variable {compiled : Compiled} {rows : Rows} {target : List String} {value : Value} {row : RowAddress}

/-- The rewrite of a reference to a row that moves. -/
def inboundRewrite (compiled : Compiled) (move : RowAddress × RowAddress) : Value → Option Value :=
  match move.1.rest with
  | [] =>
    match compiled.collection move.1.first.name with
    | some collection => rewriteRefValue collection.key move.1.last.key move.2.last.key
    | none => fun _ => none
  | _ :: _ => rewriteRefValueNested move.1.components move.2.components

/-- A value after the rewrite of the references to one moved row. -/
def valueStep (compiled : Compiled) (target : List String) (value : Value) (move : RowAddress × RowAddress) : Value :=
  if target = move.1.declaration then (inboundRewrite compiled move value).getD value else value

/-- The place of a row after one move. -/
def hop (row : RowAddress) (move : RowAddress × RowAddress) : RowAddress :=
  if row = move.1 then move.2 else row

/-- A row has the levels of a live one. -/
def Fits (rows : Rows) (row : RowAddress) : Prop :=
  ∃ live ∈ rows, SameLevels live row

theorem Fits.of_mem (inside : row ∈ rows) : Fits rows row :=
  ⟨row, inside, rfl, rfl⟩

theorem SameLevels.trans {first second third : RowAddress} (left : SameLevels first second)
    (right : SameLevels second third) : SameLevels first third :=
  ⟨right.declaration.trans left.declaration, right.lengths.trans left.lengths⟩

/-- A value names one row at most of those that fit. -/
theorem Sound.unique (sound : Sound compiled rows) {other : RowAddress} (fits : Fits rows row)
    (otherFits : Fits rows other) (points : Points compiled target value row)
    (again : Points compiled target value other) : row = other := by
  obtain ⟨live, inside, levels⟩ := fits
  obtain ⟨otherLive, otherInside, otherLevels⟩ := otherFits
  have declaration := points.declaration
  obtain ⟨notRoot, declared⟩ := points.declared sound.root
  have names : live.declaration = target := levels.declaration.symm.trans declaration
  have otherNames : otherLive.declaration = target := otherLevels.declaration.symm.trans again.declaration
  have lengths := sound.sameLengths inside otherInside (names.trans otherNames.symm)
    ⟨names ▸ notRoot, names ▸ declared⟩
  refine points.unique again (levels.lengths.trans (lengths.trans otherLevels.lengths.symm)) ?_
  rintro name collection rfl found
  have top : compiled.collectionAt [name] = some collection := by
    simp only [Compiled.collectionAt, if_neg notRoot, found]
    rfl
  have length := sound.lengths live inside (names ▸ notRoot) collection (names ▸ top)
  have single {address : RowAddress} (only : address.declaration = [name]) : address.steps = [address.last] := by
    have count := congrArg List.length only
    rw [RowAddress.declaration, List.length_map] at count
    obtain ⟨step, steps⟩ := List.length_eq_one_iff.mp count
    rw [RowAddress.steps_eq, steps]
    rfl
  have lasts := levels.lengths
  rw [keyLengths, keyLengths, single names, single declaration] at lasts
  exact (List.cons.inj lasts).1.trans length

/-- A row of a top-level collection has the application key that a value carries. -/
theorem points_top {name : String} {collection : CompiledCollection} (declared : compiled.collection name = some collection) :
    Points compiled [name] value row ↔ (CollectionPath.top name).contains row = true ∧ ∃ key,
      memberRefKey value = some key ∧
        identityOf collection.key row.last.key.components = refIdentity collection.key key := by
  simp only [Points, named, declared, Bool.and_eq_true, decide_eq_true_eq]
  constructor
  · rintro ⟨key, carried, inside, same⟩
    exact ⟨inside, key, carried, same⟩
  · rintro ⟨inside, key, carried, same⟩
    exact ⟨key, carried, inside, same⟩

/-- A row of a nested collection has the components that a reference carries. -/
theorem points_nested {outer inner : String} {rest : List String} :
    Points compiled (outer :: inner :: rest) value row ↔
      (compiled.collectionAt (outer :: inner :: rest)).isSome ∧ row.declaration = outer :: inner :: rest ∧
        ∃ key, memberRefKey value = some key ∧ row.components = refKeyComponents key := by
  simp only [Points, named, Bool.and_eq_true, decide_eq_true_eq]
  constructor
  · rintro ⟨key, carried, ⟨declared, declaration⟩, same⟩
    exact ⟨declared, declaration, key, carried, same⟩
  · rintro ⟨declared, declaration, key, carried, same⟩
    exact ⟨key, carried, ⟨declared, declaration⟩, same⟩

/-- A nested row has at least two components, which no bare key carries. -/
theorem ref_of_components {key : RefKey} (nested : row.rest ≠ []) (carried : memberRefKey value = some key)
    (same : row.components = refKeyComponents key) : value = .ref key := by
  have several : 2 ≤ row.components.length := by
    obtain ⟨first, rest⟩ := row
    obtain ⟨second, below, rfl⟩ := List.exists_cons_of_ne_nil nested
    simp only [RowAddress.components, RowAddress.steps, List.flatMap_cons, List.length_append, KeyClass.components,
      List.length_cons]
    omega
  cases value with
  | ref held => rw [Option.some.inj carried]
  | none => cases carried
  | _ =>
    obtain rfl := Option.some.inj carried
    rw [same] at several
    exact absurd several (Nat.not_succ_le_self 1)

/-- A reference to a nested row follows its move. -/
theorem Points.nestedStep (points : Points compiled target value row) {move : RowAddress × RowAddress}
    (nested : move.1.rest ≠ []) (same : SameLevels move.1 move.2)
    (unique : Points compiled target value move.1 → row = move.1) :
    Points compiled target (valueStep compiled target value move) (hop row move) := by
  rw [valueStep]
  split
  · next here =>
      obtain ⟨outer, inner, rest, shape⟩ : ∃ outer inner rest, target = outer :: inner :: rest := by
        rw [here, RowAddress.declaration, RowAddress.steps]
        obtain ⟨step, below, split⟩ := List.exists_cons_of_ne_nil nested
        rw [split]
        exact ⟨_, _, _, rfl⟩
      subst shape
      obtain ⟨declared, declaration, key, carried, components⟩ := points_nested.mp points
      have rowNested : row.rest ≠ [] := fun top => by
        rw [RowAddress.declaration, RowAddress.steps, top] at declaration
        cases declaration
      obtain rfl := ref_of_components rowNested carried components
      have rewrites : inboundRewrite compiled move = rewriteRefValueNested move.1.components move.2.components := by
        obtain ⟨step, below, split⟩ := List.exists_cons_of_ne_nil nested
        rw [inboundRewrite, split]
      rw [rewrites, rewriteRefValueNested]
      by_cases matched : refKeyComponents key = move.1.components
      · obtain rfl := unique (points_nested.mpr ⟨declared, here.symm, key, carried, matched.symm⟩)
        rw [if_pos matched, hop, if_pos rfl]
        refine points_nested.mpr ⟨declared, same.declaration.trans here.symm, _, rfl, ?_⟩
        exact (ValueClass.map_of_value move.2.components).symm
      · have other : row ≠ move.1 := fun equal => matched (equal ▸ components.symm)
        rw [if_neg matched, hop, if_neg other]
        exact points
  · next elsewhere =>
      have other : row ≠ move.1 := by
        rintro rfl
        exact elsewhere points.declaration.symm
      rw [hop, if_neg other]
      exact points

/-- A bare key is neither a reference nor absent. -/
def Bare (value : Value) : Prop :=
  memberRefKey value = some (.scalar value) ∧ ∀ key, value ≠ .ref key

theorem bare_or_ref {key : RefKey} (carried : memberRefKey value = some key) :
    value = .ref key ∨ (Bare value ∧ key = .scalar value) := by
  cases value with
  | ref held => exact .inl (congrArg Value.ref (Option.some.inj carried))
  | none => cases carried
  | _ => exact .inr ⟨⟨rfl, fun _ same => by cases same⟩, (Option.some.inj carried).symm⟩

/-- A key of the kind of a bare key is bare. -/
theorem Bare.sameKind {other : Value} (bare : Bare value) (same : Value.SameKind value other) : Bare other := by
  cases same with
  | ref left right => exact absurd rfl (bare.2 left)
  | none => cases bare.1
  | _ => exact ⟨rfl, fun _ same => by cases same⟩

/-- A bare key is rewritten when it is the old one. -/
theorem Bare.rewriteRefValue (bare : Bare value) (names : List String) (old new : KeyClass) :
    rewriteRefValue names old new value =
      if ValueClass.of value = identityOf names old.components then some (identityOf names new.components).value
      else none := by
  cases value with
  | ref key => exact absurd rfl (bare.2 key)
  | _ => rfl

/-- A value that carries the old key carries the new one after the rewrite. -/
theorem carried_rewriteRefValue {names : List String} {old new : KeyClass} {key : RefKey}
    (carried : memberRefKey value = some key) (matched : refIdentity names key = identityOf names old.components)
    (kinds : Value.SameKind (identityOf names old.components).value (identityOf names new.components).value) :
    ∃ next, memberRefKey ((rewriteRefValue names old new value).getD value) = some next ∧
      identityOf names new.components = refIdentity names next := by
  rcases bare_or_ref carried with rfl | ⟨bare, rfl⟩
  · refine ⟨refOf names new.components, ?_, (refIdentity_refOf names new.components).symm⟩
    rw [rewriteRefValue]
    simp only [if_pos matched]
    rfl
  · have same : ValueClass.of value = identityOf names old.components := matched
    have equal : value.cmp (identityOf names old.components).value = .eq := by
      rw [← ValueClass.of_eq_iff, ValueClass.of_value]
      exact same
    have plain := (bare.sameKind (Value.sameKind_of_cmp equal)).sameKind kinds
    refine ⟨.scalar (identityOf names new.components).value, ?_, (ValueClass.of_value _).symm⟩
    rw [bare.rewriteRefValue, if_pos same]
    exact plain.1

/-- A value that carries another key stays as it is. -/
theorem rewriteRefValue_of_ne {names : List String} {old new : KeyClass} {key : RefKey}
    (carried : memberRefKey value = some key) (other : refIdentity names key ≠ identityOf names old.components)
    (unread : value = .ref key → ValueClass.of (.ref key) ≠ identityOf names old.components) :
    (rewriteRefValue names old new value).getD value = value := by
  rcases bare_or_ref carried with rfl | ⟨bare, rfl⟩
  · rw [rewriteRefValue]
    simp only [if_neg other, if_neg (unread rfl)]
    rfl
  · have different : ValueClass.of value ≠ identityOf names old.components := other
    rw [bare.rewriteRefValue, if_neg different]
    rfl

/-- A reference to a top-level row follows its move, and so does a bare key. -/
theorem Points.topStep (points : Points compiled target value row) {move : RowAddress × RowAddress}
    {name : String} (top : move.1.declaration = [name]) {collection : CompiledCollection}
    (declared : compiled.collection name = some collection) (same : SameLevels move.1 move.2)
    (kinds : Value.SameKind (identityOf collection.key move.1.last.key.components).value
      (identityOf collection.key move.2.last.key.components).value)
    (unmixed : row.declaration = move.1.declaration → Unmixed collection.key move.1 row)
    (unique : Points compiled target value move.1 → row = move.1) :
    Points compiled target (valueStep compiled target value move) (hop row move) := by
  have only : move.1.rest = [] ∧ move.1.first.name = name := by
    obtain ⟨first, rest⟩ := List.cons.inj top
    exact ⟨List.map_eq_nil_iff.mp rest, first⟩
  have rewrites : inboundRewrite compiled move = rewriteRefValue collection.key move.1.last.key move.2.last.key := by
    rw [inboundRewrite, only.1, only.2, declared]
  have contains {address : RowAddress} (names : address.declaration = [name]) :
      (CollectionPath.top name).contains address = true := by
    obtain ⟨first, rest⟩ := address
    obtain ⟨here, below⟩ := List.cons.inj names
    obtain rfl := List.map_eq_nil_iff.mp below
    subst here
    exact decide_eq_true rfl
  rw [valueStep]
  split
  · next here =>
      subst here
      have mixed := unmixed points.declaration
      rw [top] at points unique ⊢
      obtain ⟨inside, key, carried, identity⟩ := (points_top declared).mp points
      rw [rewrites]
      by_cases matched : refIdentity collection.key key = identityOf collection.key move.1.last.key.components
      · obtain rfl := unique ((points_top declared).mpr ⟨contains top, key, carried, matched.symm⟩)
        rw [hop, if_pos rfl]
        refine (points_top declared).mpr ⟨contains (same.declaration.trans top), ?_⟩
        exact carried_rewriteRefValue carried matched kinds
      · have other : row ≠ move.1 := fun equal => matched (equal ▸ identity.symm)
        rw [hop, if_neg other, rewriteRefValue_of_ne carried matched fun _ read => mixed key read identity.symm]
        exact points
  · next elsewhere =>
      have other : row ≠ move.1 := by
        rintro rfl
        exact elsewhere points.declaration.symm
      rw [hop, if_neg other]
      exact points

theorem Fits.hop {move : RowAddress × RowAddress} (fits : Fits rows row) (same : SameLevels move.1 move.2) :
    Fits rows (hop row move) := by
  rw [Runtime.hop]
  split
  · next here =>
      subst here
      obtain ⟨live, inside, levels⟩ := fits
      exact ⟨live, inside, levels.trans same⟩
  · exact fits

section Hops

variable {old new : RowAddress} {moves : List (RowAddress × RowAddress)}

/-- A row that is not below the moved one stays through the moves below it. -/
theorem hops_outside (below : ∀ move ∈ moves, isPrefix old move.1 = true) (outside : isPrefix old row = false) :
    moves.foldl hop row = row := by
  induction moves with
  | nil => rfl
  | cons move rest ih =>
    have other : row ≠ move.1 := by
      rintro rfl
      rw [below move List.mem_cons_self] at outside
      cases outside
    rw [List.foldl_cons, hop, if_neg other]
    exact ih fun move inside => below move (List.mem_cons_of_mem _ inside)

/-- The moves take each row to its new place. -/
theorem hops_eq (same : SameLevels old new) (different : new ≠ old)
    (moved : ∀ move ∈ moves, isPrefix old move.1 = true ∧ move.2 = relocate old new move.1)
    (all : isPrefix old row = true → row ∈ moves.map Prod.fst) : moves.foldl hop row = relocate old new row := by
  by_cases inside : isPrefix old row = true
  · have listed := all inside
    clear all
    induction moves with
    | nil => cases listed
    | cons move rest ih =>
      have later (move) (there : move ∈ rest) := moved move (List.mem_cons_of_mem _ there)
      rw [List.foldl_cons]
      by_cases here : row = move.1
      · rw [hop, if_pos here, (moved move List.mem_cons_self).2, ← here]
        have leaves := same.outside different inside
        rw [← relocate_inside inside] at leaves
        exact hops_outside (fun move there => (later move there).1) leaves
      · rw [hop, if_neg here]
        exact ih later ((List.mem_cons.mp listed).resolve_left here)
  · have outside := Bool.not_eq_true _ ▸ inside
    rw [hops_outside (fun move there => (moved move there).1) outside, relocate_outside outside]

end Hops

end Tracking

section Fields

variable {compiled : Compiled} {rows : Rows} {target : List String}
variable {allowed : RowAddress → Prop} {rename : RowAddress → RowAddress}

/-- What a value names is named by another one after a renaming of rows. -/
def Leads (compiled : Compiled) (target : List String) (allowed : RowAddress → Prop)
    (rename : RowAddress → RowAddress) (value next : Value) : Prop :=
  ∀ row, allowed row → Points compiled target value row → Points compiled target next (rename row)

/-- Each member of a set has its next one in another set, which has no other members. -/
structure SetLeads (compiled : Compiled) (target : List String) (allowed : RowAddress → Prop)
    (rename : RowAddress → RowAddress) (members others : List Value) : Prop where
  kept : ∀ member ∈ members, ∃ next ∈ others, Leads compiled target allowed rename member next
  onto : ∀ next ∈ others, ∃ member ∈ members, Leads compiled target allowed rename member next

/-- What a field holds after a renaming of rows: its reference or each member of its set follows, and another value
stays. -/
structure FieldLeads (compiled : Compiled) (allowed : RowAddress → Prop) (rename : RowAddress → RowAddress)
    (field : CompiledField) (current changed : Option Value) : Prop where
  absent : current = none → changed = none
  reference : ∀ info value, field.reference = some info → current = some value →
    ∃ next, changed = some next ∧ Leads compiled info.target allowed rename value next
  members : ∀ info members, field.elementReference = some info → current = some (.set members) →
    ∃ others, changed = some (.set others) ∧ SetLeads compiled info.target allowed rename members others
  still : field.reference = none → (∀ members, current ≠ some (.set members)) → changed = current

section Composition

variable {further : RowAddress → Prop} {next : RowAddress → RowAddress}

theorem Leads.trans {first second third : Value} (left : Leads compiled target allowed rename first second)
    (right : Leads compiled target further next second third) (passes : ∀ row, allowed row → further (rename row)) :
    Leads compiled target allowed (next ∘ rename) first third :=
  fun row inside points => right (rename row) (passes row inside) (left row inside points)

theorem SetLeads.trans {first second third : List Value}
    (left : SetLeads compiled target allowed rename first second)
    (right : SetLeads compiled target further next second third)
    (passes : ∀ row, allowed row → further (rename row)) :
    SetLeads compiled target allowed (next ∘ rename) first third where
  kept member inside := by
    obtain ⟨middle, there, leads⟩ := left.kept member inside
    obtain ⟨last, found, again⟩ := right.kept middle there
    exact ⟨last, found, leads.trans again passes⟩
  onto last inside := by
    obtain ⟨middle, there, leads⟩ := right.onto last inside
    obtain ⟨member, found, again⟩ := left.onto middle there
    exact ⟨member, found, again.trans leads passes⟩

theorem FieldLeads.trans {field : CompiledField} {first second third : Option Value}
    (left : FieldLeads compiled allowed rename field first second)
    (right : FieldLeads compiled further next field second third)
    (passes : ∀ row, allowed row → further (rename row)) :
    FieldLeads compiled allowed (next ∘ rename) field first third where
  absent none := right.absent (left.absent none)
  reference info value declared present := by
    obtain ⟨middle, held, leads⟩ := left.reference info value declared present
    obtain ⟨last, found, again⟩ := right.reference info middle declared held
    exact ⟨last, found, leads.trans again passes⟩
  members info members declared present := by
    obtain ⟨middle, held, leads⟩ := left.members info members declared present
    obtain ⟨last, found, again⟩ := right.members info middle declared held
    exact ⟨last, found, leads.trans again passes⟩
  still plain other := by
    have same := left.still plain other
    exact (right.still plain (same ▸ other)).trans same

theorem Leads.congr {other : RowAddress → RowAddress} {first second : Value}
    (leads : Leads compiled target allowed rename first second) (same : ∀ row, allowed row → rename row = other row) :
    Leads compiled target allowed other first second :=
  fun row inside points => same row inside ▸ leads row inside points

theorem FieldLeads.congr {other : RowAddress → RowAddress} {field : CompiledField} {first second : Option Value}
    (leads : FieldLeads compiled allowed rename field first second)
    (same : ∀ row, allowed row → rename row = other row) :
    FieldLeads compiled allowed other field first second where
  absent := leads.absent
  reference info value declared present := by
    obtain ⟨next, found, follows⟩ := leads.reference info value declared present
    exact ⟨next, found, follows.congr same⟩
  members info members declared present := by
    obtain ⟨others, found, follows⟩ := leads.members info members declared present
    refine ⟨others, found, fun member inside => ?_, fun member inside => ?_⟩
    · obtain ⟨next, there, leads⟩ := follows.kept member inside
      exact ⟨next, there, leads.congr same⟩
    · obtain ⟨origin, there, leads⟩ := follows.onto member inside
      exact ⟨origin, there, leads.congr same⟩
  still := leads.still

end Composition

variable {move : RowAddress × RowAddress} {field : CompiledField}

/-- A field after the rewrite of the references to one moved row. -/
def fieldStep (compiled : Compiled) (field : CompiledField) (current : Option Value)
    (move : RowAddress × RowAddress) : Option Value :=
  rewrittenValue (inboundRewrite compiled move) move.1.declaration field current

/-- The rewrite of the members of a set rewrites each of them. -/
theorem setLeads_step
    (follows : ∀ target value row, allowed row → Points compiled target value row →
      Points compiled target (valueStep compiled target value move) (hop row move))
    (here : target = move.1.declaration) (members : List Value) :
    SetLeads compiled target allowed (hop · move) members
      (setOf (members.map fun member => (inboundRewrite compiled move member).getD member)) := by
  have step (member : Value) :
      Leads compiled target allowed (hop · move) member ((inboundRewrite compiled move member).getD member) := by
    intro row inside points
    have leads := follows target member row inside points
    rwa [valueStep, if_pos here] at leads
  constructor
  · intro member inside
    have rewritten := List.mem_map_of_mem (f := fun member => (inboundRewrite compiled move member).getD member) inside
    obtain ⟨kept, there, same⟩ : ∃ kept ∈ setOf (members.map fun member => (inboundRewrite compiled move member).getD member),
        ((inboundRewrite compiled move member).getD member).cmp kept = .eq := Codes.exists_collectSorted rewritten
    exact ⟨kept, there, fun row allows points => (step member row allows points).congr same⟩
  · intro next inside
    obtain ⟨member, there, rfl⟩ := List.mem_map.mp (Codes.mem_of_mem_collectSorted inside)
    exact ⟨member, there, step member⟩

/-- A value that no rewrite concerns leads to itself. -/
theorem leads_still
    (follows : ∀ target value row, allowed row → Points compiled target value row →
      Points compiled target (valueStep compiled target value move) (hop row move)) {value : Value}
    (still : valueStep compiled target value move = value) :
    Leads compiled target allowed (hop · move) value value := by
  intro row inside points
  have leads := follows target value row inside points
  rwa [still] at leads

theorem fieldLeads_step (either : field.reference.isSome → field.elementReference = none)
    (follows : ∀ target value row, allowed row → Points compiled target value row →
      Points compiled target (valueStep compiled target value move) (hop row move)) (current : Option Value) :
    FieldLeads compiled allowed (hop · move) field current (fieldStep compiled field current move) := by
  constructor
  · rintro rfl
    rw [fieldStep, rewrittenValue, rewriteFieldValue_none]
    rfl
  · rintro info value declared rfl
    have single := either (declared ▸ rfl)
    refine ⟨valueStep compiled info.target value move, ?_, fun row inside points => follows _ _ row inside points⟩
    rw [fieldStep, rewrittenValue, rewriteFieldValue_reference declared single, valueStep]
    split
    · cases inboundRewrite compiled move value with
      | none => rfl
      | some next => rfl
    · rfl
  · rintro info members declared rfl
    have plain : field.reference = none := by
      by_contra reference
      rw [either (Option.isSome_iff_ne_none.mpr reference)] at declared
      cases declared
    rw [fieldStep, rewrittenValue, rewriteFieldValue_members plain declared]
    split
    · next matched => exact ⟨_, rfl, setLeads_step follows matched.1 members⟩
    · next unmatched =>
        have still (member : Value) (inside : member ∈ members) : valueStep compiled info.target member move = member := by
          rw [valueStep]
          split
          · next here =>
              have silent : (inboundRewrite compiled move member).isSome = false := by
                by_contra rewrites
                exact unmatched ⟨here, List.any_eq_true.mpr ⟨member, inside, Bool.not_eq_false _ ▸ rewrites⟩⟩
              rw [Option.isSome_eq_false_iff, Option.isNone_iff_eq_none] at silent
              rw [silent]
              rfl
          · rfl
        refine ⟨members, rfl, fun member inside => ?_, fun member inside => ?_⟩
        · exact ⟨member, inside, leads_still follows (still member inside)⟩
        · exact ⟨member, inside, leads_still follows (still member inside)⟩
  · intro plain other
    rw [fieldStep, rewrittenValue, rewriteFieldValue_other plain other]
    rfl

theorem FieldLeads.refl (compiled : Compiled) (allowed : RowAddress → Prop) (field : CompiledField)
    (current : Option Value) : FieldLeads compiled allowed id field current current where
  absent := id
  reference _ value _ present := ⟨value, present, fun _ _ => id⟩
  members _ members _ present :=
    ⟨members, present, fun member inside => ⟨member, inside, fun _ _ => id⟩,
      fun member inside => ⟨member, inside, fun _ _ => id⟩⟩
  still _ _ := rfl

/-- A field follows the moves of nested rows. -/
theorem fieldLeads_nested (sound : Sound compiled rows) (either : field.reference.isSome → field.elementReference = none)
    {moves : List (RowAddress × RowAddress)}
    (nested : ∀ move ∈ moves, move.1.rest ≠ [] ∧ move.1 ∈ rows ∧ SameLevels move.1 move.2) (current : Option Value) :
    FieldLeads compiled (Fits rows) (fun row => moves.foldl hop row) field current
      (moves.foldl (fieldStep compiled field) current) := by
  induction moves generalizing current with
  | nil => exact FieldLeads.refl compiled _ field current
  | cons move rest ih =>
    obtain ⟨deep, live, same⟩ := nested move List.mem_cons_self
    have first : FieldLeads compiled (Fits rows) (hop · move) field current (fieldStep compiled field current move) :=
      fieldLeads_step either (fun target value row fits points =>
        points.nestedStep deep same fun again => sound.unique fits (Fits.of_mem live) points again) current
    have later := ih (fun other inside => nested other (List.mem_cons_of_mem _ inside))
      (fieldStep compiled field current move)
    exact first.trans later fun row fits => fits.hop same

end Fields

end Liasse.Runtime

/-
This file proves what the placement of the new fields of a row does: it is refused before it moves a row, or it
moves the row with all rows below it, and each reference resolves to the same row as before.
-/

import Liasse.Runtime.Relocation

namespace Liasse.Runtime

open Store

section Rows

variable {compiled : Compiled} {moves : List (RowAddress × RowAddress)} {row : RowAddress}

/-- The fields of a row after the rewrite of the references to some moved rows. -/
def rewriteMoves (compiled : Compiled) (moves : List (RowAddress × RowAddress)) (row : RowAddress)
    (fields : FieldMap) : FieldMap :=
  moves.foldl (fun fields move =>
    rewrittenRow compiled (inboundRewrite compiled move) move.1.declaration row fields) fields

theorem rewriteMoves_undeclared (undeclared : compiled.collectionAt row.declaration = none) (fields : FieldMap) :
    rewriteMoves compiled moves row fields = fields := by
  induction moves with
  | nil => rfl
  | cons move rest ih =>
    rw [rewriteMoves, List.foldl_cons, rewrittenRow_of_undeclared undeclared]
    exact ih

/-- The rewrite leaves the paths apart from the references. -/
theorem readPath_rewriteMoves {collection : CompiledCollection}
    (declared : compiled.collectionAt row.declaration = some collection) {path : List String}
    (apart : ∀ site ∈ refSites collection, Apart path site.names) (fields : FieldMap) :
    readPath (rewriteMoves compiled moves row fields) path = readPath fields path := by
  induction moves generalizing fields with
  | nil => rfl
  | cons move rest ih =>
    rw [rewriteMoves, List.foldl_cons]
    refine (ih _).trans ?_
    rw [rewrittenRow_eq declared]
    exact readPath_rewriteSites apart fields false

/-- Each reference field is rewritten move by move. -/
theorem value_rewriteMoves {collection : CompiledCollection}
    (declared : compiled.collectionAt row.declaration = some collection)
    (beside : (refSites collection).Pairwise fun first second => Apart first.names second.names) {site : RefSite}
    (inside : site ∈ refSites collection) (fields : FieldMap) :
    site.value (rewriteMoves compiled moves row fields) =
      moves.foldl (fieldStep compiled site.field) (site.value fields) := by
  induction moves generalizing fields with
  | nil => rfl
  | cons move rest ih =>
    rw [rewriteMoves, List.foldl_cons, List.foldl_cons]
    refine (ih _).trans ?_
    rw [rewrittenRow_eq declared, value_rewriteSites beside inside]
    rfl

/-- A rewrite without an effect leaves each row. -/
theorem rewrittenRow_silent (target : List String) (fields : FieldMap) :
    rewrittenRow compiled (fun _ => none) target row fields = fields := by
  have silent (field : CompiledField) (current : Option Value) :
      rewriteFieldValue (fun _ => none) target field current = none := by
    unfold rewriteFieldValue
    cases field.reference with
    | none => cases field.elementReference with
      | none => rfl
      | some info => cases current with
        | none => rfl
        | some value => cases value <;> simp
    | some info => cases field.elementReference with
      | none => simp
      | some other => cases current with
        | none => simp
        | some value => cases value <;> simp
  have sites (sites : List RefSite) (changed : Bool) :
      rewriteSites (fun _ => none) target sites (fields, changed) = (fields, changed) := by
    induction sites with
    | nil => rfl
    | cons site rest ih =>
      rw [rewriteSites, silent]
      exact ih
  rw [rewrittenRow, rewriteRow]
  split
  · rw [sites]
    rfl
  · rfl

theorem getElem?_nestedMoves (placing : Placing) (nested : ∀ move ∈ moves, 2 ≤ move.1.depth) :
    (moves.foldl (Placing.rewriteNestedMove compiled) placing).rows[row]? =
      (placing.rows[row]?).map (rewriteMoves compiled moves row) := by
  induction moves generalizing placing with
  | nil => exact Option.map_id.symm ▸ rfl
  | cons move rest ih =>
    have deep := nested move List.mem_cons_self
    have rewrites : inboundRewrite compiled move = rewriteRefValueNested move.1.components move.2.components := by
      rw [inboundRewrite]
      cases shape : move.1.rest with
      | nil =>
        rw [RowAddress.depth, shape] at deep
        exact absurd deep (Nat.not_succ_le_self 1)
      | cons step below => rfl
    have stepped : (placing.rewriteNestedMove compiled move).rows[row]? =
        (placing.rows[row]?).map
          (rewrittenRow compiled (inboundRewrite compiled move) move.1.declaration row) := by
      rw [Placing.rewriteNestedMove, Placing.rows_foldl_mark, rewrites]
      exact getElem?_rewriteAll placing.rows
    rw [List.foldl_cons, ih _ fun other inside => nested other (List.mem_cons_of_mem _ inside),
      stepped, Option.map_map]
    rfl

end Rows

section Placement

variable {compiled : Compiled} {row old new : RowAddress}

/-- The moves whose references the placement rewrites, in their order. -/
def followed (old new : RowAddress) (moves : List (RowAddress × RowAddress)) : List (RowAddress × RowAddress) :=
  (if old.rest = [] then [(old, new)] else []) ++ (moves ++ [(old, new)]).filter fun move => 2 ≤ move.1.depth

/-- The followed moves are those of the rows that move. -/
theorem mem_followed {moves : List (RowAddress × RowAddress)} (deep : ∀ move ∈ moves, 2 ≤ move.1.depth)
    {move : RowAddress × RowAddress} : move ∈ followed old new moves ↔ move = (old, new) ∨ move ∈ moves := by
  have depth : old.rest ≠ [] → 2 ≤ old.depth := fun nested => by
    rw [RowAddress.depth]
    have := List.length_pos_of_ne_nil nested
    omega
  rw [followed, List.mem_append, List.mem_filter, List.mem_append, List.mem_singleton, decide_eq_true_eq]
  constructor
  · rintro (first | ⟨listed | last, _⟩)
    · split at first
      · exact .inl (List.mem_singleton.mp first)
      · cases first
    · exact .inr listed
    · exact .inl last
  · rintro (rfl | listed)
    · by_cases top : old.rest = []
      · rw [if_pos top]
        exact .inl List.mem_cons_self
      · exact .inr ⟨.inr rfl, depth top⟩
    · exact .inr ⟨.inl listed, deep move listed⟩

/-- The references to a moved top-level row are rewritten in each row. -/
theorem getElem?_rewriteInbound (placing : Placing) (top : old.rest = []) :
    (placing.rewriteInbound compiled old.first.name old.last.key new.last.key).rows[row]? =
      (placing.rows[row]?).map (rewriteMoves compiled [(old, new)] row) := by
  rw [Placing.rewriteInbound, Placing.rows_foldl_mark]
  have one : rewriteMoves compiled [(old, new)] row =
      rewrittenRow compiled (inboundRewrite compiled (old, new)) old.declaration row := rfl
  have declaration : old.declaration = [old.first.name] := by
    rw [RowAddress.declaration, RowAddress.steps, top]
    rfl
  rw [one, declaration, inboundRewrite, rewriteInboundRefs]
  simp only [top]
  cases compiled.collection old.first.name with
  | none =>
    have silent : rewrittenRow compiled (fun _ => none) [old.first.name] row = id :=
      funext (rewrittenRow_silent [old.first.name])
    rw [silent, Option.map_id]
    rfl
  | some collection => exact getElem?_rewriteAll placing.rows

theorem getElem?_follow (placing : Placing) (moves : List (RowAddress × RowAddress)) :
    (placing.follow compiled old.declaration old new moves).rows[row]? =
      (placing.rows[row]?).map (rewriteMoves compiled (followed old new moves) row) := by
  have deep : ∀ move ∈ (moves ++ [(old, new)]).filter (fun move => 2 ≤ move.1.depth), 2 ≤ move.1.depth :=
    fun move inside => of_decide_eq_true (List.mem_filter.mp inside).2
  rw [Placing.follow, followed]
  cases top : old.rest with
  | nil =>
    have head : old.declaration.head? = some old.first.name := rfl
    simp only [head, ↓reduceIte]
    rw [getElem?_nestedMoves _ deep, getElem?_rewriteInbound placing top, Option.map_map]
    congr 1
  | cons step below =>
    rw [if_neg (List.cons_ne_nil _ _), List.nil_append]
    exact getElem?_nestedMoves placing deep

/-- The rows below a moved row are moved one by one, when none of them is in the way. -/
theorem moveAll_ok {ancestor : RowAddress} {depth : Nat} {first : Rows} {todo : List RowAddress}
    {state result : Placing × List (RowAddress × RowAddress)}
    (done : Placing.moveAll ancestor depth todo state = .ok result) {rename : RowAddress → RowAddress}
    (renamed : Codes.Renamed rename first state.1.rows) (distinct : todo.Nodup)
    (still : ∀ row ∈ todo, row ∈ first ∧ rename row = row) :
    Codes.Renamed (fun row => if row ∈ todo then reroot ancestor row depth else rename row) first result.1.rows ∧
      result.2 = state.2 ++ todo.map fun row => (row, reroot ancestor row depth) := by
  induction todo generalizing state rename with
  | nil =>
    cases done
    exact ⟨renamed.congr fun _ _ => rfl, (List.append_nil _).symm⟩
  | cons descendant rest ih =>
    obtain ⟨placing, moves⟩ := state
    obtain ⟨fresh, others⟩ := List.nodup_cons.mp distinct
    obtain ⟨inside, here⟩ := still descendant List.mem_cons_self
    rw [Placing.moveAll] at done
    split at done
    · cases done
    · next free =>
        have stored := renamed.kept descendant inside
        rw [here] at stored
        cases held : first[descendant]? with
        | none =>
          rw [Std.ExtTreeMap.mem_iff_isSome_getElem?, held] at inside
          cases inside
        | some fields =>
          rw [held] at stored
          simp only [stored] at done
          have moved := renamed.move inside here stored free
          obtain ⟨later, listed⟩ := ih done moved others fun row there => by
            obtain ⟨live, same⟩ := still row (List.mem_cons_of_mem _ there)
            have different : row ≠ descendant := fun equal => fresh (equal ▸ there)
            exact ⟨live, (Function.update_of_ne different _ _).trans same⟩
          refine ⟨later.congr fun row _ => ?_, ?_⟩
          · by_cases there : row ∈ rest
            · rw [if_pos there, if_pos (List.mem_cons_of_mem _ there)]
            · rw [if_neg there]
              by_cases same : row = descendant
              · subst same
                rw [Function.update_self, if_pos List.mem_cons_self]
              · rw [Function.update_of_ne same, if_neg fun listed => (List.mem_cons.mp listed).elim same there]
          · rw [listed, List.map_cons, List.append_assoc]
            rfl

theorem mem_descendants {rows : Rows} {address : RowAddress} :
    row ∈ descendants rows address ↔ row ∈ rows ∧ address.depth < row.depth ∧ isPrefix address row = true := by
  rw [descendants, List.mem_filter, Std.ExtTreeMap.mem_keys, Bool.and_eq_true, decide_eq_true_eq]

/-- A row below another one is that row or strictly below it. -/
theorem eq_or_descends {address : RowAddress} (inside : isPrefix address row = true) :
    row = address ∨ address.depth < row.depth := by
  obtain ⟨below, split⟩ := isPrefix_iff.mp inside
  cases below with
  | nil => exact .inl (RowAddress.steps_inj.mp (split.trans (List.append_nil _)))
  | cons step below =>
    right
    rw [RowAddress.depth_eq, RowAddress.depth_eq, split, List.length_append]
    exact Nat.lt_add_of_pos_right (Nat.succ_pos _)

theorem depth_reroot {address : RowAddress} (same : SameLevels address new) (inside : isPrefix address row = true) :
    (reroot new row address.depth).depth = row.depth := by
  obtain ⟨below, split⟩ := isPrefix_iff.mp inside
  have depth := same.depth
  rw [RowAddress.depth_eq, RowAddress.depth_eq] at depth
  have steps := congrArg List.length (steps_reroot new split)
  rw [RowAddress.depth_eq, steps, RowAddress.depth_eq, split, List.length_append, List.length_append, depth]

/-- The moved rows are those of the state under their new addresses. -/
theorem renamed_place {rows : Rows} {address : RowAddress} {placing : Placing}
    {moved : Placing × List (RowAddress × RowAddress)} (fields : FieldMap) (live : address ∈ rows) (same : SameLevels address new)
    (free : new ∉ rows) (state : placing.rows = rows)
    (done : Placing.moveAll new address.depth (descendants rows address) (placing, []) = .ok moved) :
    Codes.Renamed (relocate address new) (rows.insert address fields)
      ((moved.1.rows.erase address).insert new fields) ∧
    moved.2 = (descendants rows address).map fun row => (row, reroot new row address.depth) := by
  subst state
  have distinct : (descendants placing.rows address).Nodup := (Std.ExtTreeMap.nodup_keys).filter _
  obtain ⟨renamed, listed⟩ := moveAll_ok done (Codes.Renamed.refl placing.rows) distinct fun row inside =>
    ⟨(mem_descendants.mp inside).1, rfl⟩
  refine ⟨?_, listed⟩
  have unlisted : address ∉ descendants placing.rows address := fun inside =>
    (lt_irrefl _ (mem_descendants.mp inside).2.1).elim
  obtain ⟨held, stored⟩ : ∃ held, placing.rows[address]? = some held :=
    Option.isSome_iff_exists.mp (Std.ExtTreeMap.mem_iff_isSome_getElem?.mp live)
  have still := renamed.kept address live
  rw [if_neg unlisted, stored] at still
  have vacant : new ∉ moved.1.rows := fun taken => by
    obtain ⟨origin, inside, names⟩ := renamed.onto new taken
    by_cases below : origin ∈ descendants placing.rows address
    · obtain ⟨_, deeper, within⟩ := mem_descendants.mp below
      rw [if_pos below] at names
      have depth := depth_reroot same within
      rw [names, same.depth] at depth
      exact absurd deeper (depth ▸ lt_irrefl _)
    · rw [if_neg below] at names
      exact free (names ▸ inside)
  have whole := (renamed.move live (if_neg unlisted) still vacant).replace live fields
  rw [Function.update_self] at whole
  have last : ((moved.1.rows.erase address).insert new held).insert new fields =
      (moved.1.rows.erase address).insert new fields := by
    apply Std.ExtTreeMap.ext_getElem?
    intro row
    by_cases here : row = new
    · subst here
      rw [Std.ExtTreeMap.getElem?_insert_self, Std.ExtTreeMap.getElem?_insert_self]
    · rw [Codes.getElem?_insert_of_ne here, Codes.getElem?_insert_of_ne here, Codes.getElem?_insert_of_ne here]
  rw [last] at whole
  refine whole.congr fun row inside => ?_
  by_cases here : row = address
  · subst here
    rw [Function.update_self, relocate_self]
  · rw [Function.update_of_ne here]
    by_cases below : row ∈ descendants placing.rows address
    · rw [if_pos below, relocate_inside (mem_descendants.mp below).2.2]
    · rw [if_neg below]
      refine (relocate_outside ?_).symm
      by_contra within
      have prefixed := Bool.not_eq_false _ ▸ within
      refine below (mem_descendants.mpr ⟨?_, (eq_or_descends prefixed).resolve_left here, prefixed⟩)
      refine (Std.ExtTreeMap.mem_insert.mp inside).resolve_left fun equal => here ?_
      exact (Std.LawfulEqCmp.eq_of_compare equal).symm

/-- The rows that contain a live row are live. -/
theorem Sound.ancestor {rows : Rows} (sound : Sound compiled rows) {address : RowAddress} (live : row ∈ rows)
    (inside : isPrefix address row = true) : address ∈ rows := by
  induction depth : row.depth using Nat.strong_induction_on generalizing row with
  | _ depth ih =>
    subst depth
    rcases eq_or_descends inside with rfl | deeper
    · exact live
    · cases above : parentRow row with
      | none =>
        have single : row.depth = 1 := by rw [RowAddress.depth, rest_of_parentRow above, List.length_nil]
        rw [single] at deeper
        exact absurd deeper (Nat.not_lt.mpr (Nat.le_add_right 1 _))
      | some parent =>
        have split := steps_of_parentRow above
        have shorter : parent.depth < row.depth := by
          rw [RowAddress.depth_eq, RowAddress.depth_eq, split, List.length_append]
          exact Nat.lt_succ_self _
        have within : isPrefix address parent = true := by
          rw [isPrefix, List.isPrefixOf_iff_prefix] at inside ⊢
          rw [split] at inside
          refine (List.prefix_concat_iff.mp inside).resolve_left fun same => ?_
          rw [RowAddress.depth_eq, RowAddress.depth_eq, split, same] at deeper
          exact lt_irrefl _ deeper
        exact ih parent.depth shorter (sound.parents row live parent above) within rfl

theorem reroot_inj {first second address : RowAddress} (left : isPrefix address first = true)
    (right : isPrefix address second = true)
    (same : reroot new first address.depth = reroot new second address.depth) : first = second := by
  obtain ⟨below, split⟩ := isPrefix_iff.mp left
  obtain ⟨other, otherSplit⟩ := isPrefix_iff.mp right
  have steps := congrArg RowAddress.steps same
  rw [steps_reroot _ split, steps_reroot _ otherSplit] at steps
  exact RowAddress.steps_inj.mp (split.trans (List.append_cancel_left steps ▸ otherSplit.symm))

/-- No row is in the way of the rows below a moved one when the new address is free. -/
theorem moveAll_total {rows : Rows} (sound : Sound compiled rows) {address : RowAddress} (free : new ∉ rows)
    {todo : List RowAddress} {state : Placing × List (RowAddress × RowAddress)} {rename : RowAddress → RowAddress}
    (renamed : Codes.Renamed rename rows state.1.rows) (distinct : todo.Nodup)
    (still : ∀ row ∈ todo, row ∈ rows ∧ rename row = row) (within : ∀ row ∈ todo, isPrefix address row = true)
    (shape : ∀ row ∈ rows, rename row = row ∨
      (isPrefix address row = true ∧ rename row = reroot new row address.depth ∧ row ∉ todo)) :
    ∃ result, Placing.moveAll new address.depth todo state = .ok result := by
  induction todo generalizing state rename with
  | nil => exact ⟨state, rfl⟩
  | cons descendant rest ih =>
    obtain ⟨placing, moves⟩ := state
    obtain ⟨fresh, others⟩ := List.nodup_cons.mp distinct
    obtain ⟨inside, here⟩ := still descendant List.mem_cons_self
    have below := within descendant List.mem_cons_self
    have vacant : reroot new descendant address.depth ∉ placing.rows := fun taken => by
      obtain ⟨origin, there, names⟩ := renamed.onto _ taken
      rcases shape origin there with same | ⟨originBelow, moved, later⟩
      · obtain ⟨tail, split⟩ := isPrefix_iff.mp below
        have live : reroot new descendant address.depth ∈ rows := names ▸ same.symm ▸ there
        exact free (sound.ancestor live (isPrefix_iff.mpr ⟨tail, steps_reroot _ split⟩))
      · obtain rfl := reroot_inj originBelow below (moved.symm.trans names)
        exact later List.mem_cons_self
    have stored := renamed.kept descendant inside
    rw [here] at stored
    obtain ⟨fields, held⟩ : ∃ fields, rows[descendant]? = some fields :=
      Option.isSome_iff_exists.mp (Std.ExtTreeMap.mem_iff_isSome_getElem?.mp inside)
    rw [held] at stored
    rw [Placing.moveAll]
    simp only [if_neg vacant, stored]
    refine ih (renamed.move inside here stored vacant) others (fun row there => ?_)
      (fun row there => within row (List.mem_cons_of_mem _ there)) fun row there => ?_
    · obtain ⟨live, same⟩ := still row (List.mem_cons_of_mem _ there)
      have different : row ≠ descendant := fun equal => fresh (equal ▸ there)
      exact ⟨live, (Function.update_of_ne different _ _).trans same⟩
    · by_cases same : row = descendant
      · subst same
        exact .inr ⟨below, Function.update_self _ _ _, fresh⟩
      · rw [Function.update_of_ne same]
        refine (shape row there).imp_right fun shaped => ⟨shaped.1, shaped.2.1, fun later => ?_⟩
        exact shaped.2.2 (List.mem_cons_of_mem _ later)

end Placement

section Results

variable {compiled : Compiled} {placing : Placing} {address new : RowAddress} {fields : FieldMap}

/-- A state is another one with its rows renamed apart. Of each row, the paths apart from its references stay, each
reference leads to the new address of its row, and a reference names one live row at most. -/
structure Relocated (compiled : Compiled) (rename : RowAddress → RowAddress) (before after : Rows) : Prop where
  moved : ∀ row ∈ before, rename row ∈ after
  onto : ∀ row ∈ after, ∃ origin ∈ before, rename origin = row
  injective : ∀ row ∈ before, ∀ other ∈ before, rename row = rename other → row = other
  undeclared : ∀ row fields, before[row]? = some fields → compiled.collectionAt row.declaration = none →
    after[rename row]? = some fields
  declared : ∀ row fields collection, before[row]? = some fields →
    compiled.collectionAt row.declaration = some collection → ∃ changed, after[rename row]? = some changed ∧
      (∀ path, (∀ site ∈ refSites collection, Apart path site.names) →
        readPath changed path = readPath fields path) ∧
      ∀ site ∈ refSites collection,
        FieldLeads compiled (· ∈ before) rename site.field (site.value fields) (site.value changed)
  single : ∀ target value, ∀ row ∈ after, ∀ other ∈ after, Points compiled target value row →
    Points compiled target value other → row = other

theorem keyAddress_ok {rows : Rows} (sound : Sound compiled rows) (live : address ∈ rows)
    (found : Placing.keyAddress compiled address.collection address.declaration fields = .ok new) :
    ∃ collection key, compiled.collectionAt address.declaration = some collection ∧ keyOf collection fields = some key ∧
      new = address.collection.row key ∧ address.declaration ≠ [rootName] ∧ SameLevels address new := by
  rw [Placing.keyAddress] at found
  cases declared : compiled.collectionAt address.declaration with
  | none => simp [declared] at found
  | some collection =>
    simp only [declared] at found
    cases given : keyOf collection fields with
    | none => simp [given] at found
    | some key =>
      simp only [given, Except.ok.injEq] at found
      subst found
      have notRoot : address.declaration ≠ [rootName] := fun same => by
        rw [same, Compiled.collectionAt, if_pos rfl] at declared
        obtain rfl := Option.some.inj declared
        have length := length_of_keyOf given
        rw [sound.keyless] at length
        cases length
      refine ⟨collection, key, rfl, given, rfl, notRoot, ?_, ?_⟩
      · rw [CollectionPath.declaration_row, CollectionPath.declaration_collection]
      · have length := (sound.lengths address live notRoot collection declared).trans (length_of_keyOf given)
        rw [keyLengths, keyLengths, CollectionPath.steps_row, RowAddress.steps_eq address, List.map_append,
          List.map_append]
        exact congrArg (fun count => _ ++ [count]) length.symm

/-- A state with other fields at a live row has the rows of the state. -/
theorem Sound.insert {rows : Rows} (sound : Sound compiled rows) (live : address ∈ rows) (fields : FieldMap) :
    Sound compiled (rows.insert address fields) := by
  have same (row : RowAddress) : row ∈ rows.insert address fields ↔ row ∈ rows := by
    rw [Std.ExtTreeMap.mem_insert]
    refine or_iff_right_of_imp fun equal => ?_
    rwa [← Std.LawfulEqCmp.eq_of_compare equal]
  refine ⟨sound.root, sound.keyless, sound.beside, sound.either, fun row inside => ?_, fun row inside parent above => ?_,
    fun first left second right => ?_⟩
  · exact sound.lengths row ((same row).mp inside)
  · exact (same parent).mpr (sound.parents row ((same row).mp inside) parent above)
  · exact sound.unmixed first ((same first).mp left) second ((same second).mp right)

/-- The key of a row keeps the kinds of its components. -/
def SameKinds (compiled : Compiled) (old new : RowAddress) : Prop :=
  ∀ collection, compiled.collectionAt old.declaration = some collection →
    Value.SameKind (identityOf collection.key old.last.key.components).value
      (identityOf collection.key new.last.key.components).value

/-- A field follows the move of a row with all rows below it. -/
theorem fieldLeads_followed {rows : Rows} (sound : Sound compiled rows) (live : address ∈ rows)
    (same : SameLevels address new) (notRoot : address.declaration ≠ [rootName])
    (kinds : SameKinds compiled address new) {field : CompiledField}
    (either : field.reference.isSome → field.elementReference = none) {moves : List (RowAddress × RowAddress)}
    (each : ∀ move ∈ moves, move.1 ∈ rows ∧ SameLevels move.1 move.2) (current : Option Value) :
    FieldLeads compiled (· ∈ rows) (fun row => (followed address new moves).foldl hop row) field current
      ((followed address new moves).foldl (fieldStep compiled field) current) := by
  have nested : ∀ move ∈ (moves ++ [(address, new)]).filter (fun move => 2 ≤ move.1.depth),
      move.1.rest ≠ [] ∧ move.1 ∈ rows ∧ SameLevels move.1 move.2 := by
    intro move inside
    obtain ⟨listed, deep⟩ := List.mem_filter.mp inside
    refine ⟨fun top => ?_, ?_⟩
    · rw [decide_eq_true_eq, RowAddress.depth, top] at deep
      exact Nat.not_succ_le_self 1 deep
    · rcases List.mem_append.mp listed with listed | last
      · exact each move listed
      · obtain rfl := List.mem_singleton.mp last
        exact ⟨live, same⟩
  have below (current : Option Value) := fieldLeads_nested sound either nested current
  rw [followed]
  split
  · next top =>
      have declaration : address.declaration = [address.first.name] := by
        rw [RowAddress.declaration, RowAddress.steps, top]
        rfl
      have follows (target : List String) (value : Value) (row : RowAddress) (inside : row ∈ rows)
          (points : Points compiled target value row) :
          Points compiled target (valueStep compiled target value (address, new)) (hop row (address, new)) := by
        have unique (again : Points compiled target value address) : row = address :=
          sound.unique (Fits.of_mem inside) (Fits.of_mem live) points again
        cases declared : compiled.collection address.first.name with
        | none =>
          have silent : inboundRewrite compiled (address, new) = fun _ => none := by
            rw [inboundRewrite]
            simp only [top, declared]
          have other : row ≠ address := by
            rintro rfl
            obtain ⟨_, collection, found⟩ := points.declared sound.root
            rw [← points.declaration] at found
            rw [declaration, Compiled.collectionAt, if_neg (declaration ▸ notRoot)] at found
            simp [declared] at found
          have still : valueStep compiled target value (address, new) = value := by
            rw [valueStep, silent]
            split
            · rfl
            · rfl
          rw [hop, if_neg other, still]
          exact points
        | some collection =>
          have found : compiled.collectionAt address.declaration = some collection := by
            rw [declaration, Compiled.collectionAt, if_neg (declaration ▸ notRoot)]
            simp only [declared]
            rfl
          refine points.topStep declaration declared same (kinds collection found) (fun level => ?_) unique
          exact sound.unmixed address live row inside level.symm _ collection declaration declared
      have first : FieldLeads compiled (· ∈ rows) (hop · (address, new)) field current
          (fieldStep compiled field current (address, new)) := fieldLeads_step either follows current
      exact first.trans (below _) fun row inside => (Fits.of_mem inside).hop same
  · exact (FieldLeads.refl compiled (· ∈ rows) field current).trans (below current) fun row inside => Fits.of_mem inside

theorem relocate_same (address row : RowAddress) : relocate address address row = row := by
  by_cases inside : isPrefix address row = true
  · obtain ⟨below, split⟩ := isPrefix_iff.mp inside
    rw [relocate_inside inside]
    exact RowAddress.steps_inj.mp ((steps_reroot _ split).trans split.symm)
  · exact relocate_outside (Bool.not_eq_true _ ▸ inside)

/-- A renamed state with rewritten references is relocated. -/
theorem relocated_of_renamed {before middle after : Rows} (sound : Sound compiled before) (same : SameLevels address new)
    (renamed : Codes.Renamed (relocate address new) before middle) {moves : List (RowAddress × RowAddress)}
    (rewritten : ∀ row : RowAddress, after[row]? = (middle[row]?).map (rewriteMoves compiled moves row))
    (leads : ∀ field : CompiledField, (field.reference.isSome → field.elementReference = none) → ∀ current,
      FieldLeads compiled (· ∈ before) (relocate address new) field current
        (moves.foldl (fieldStep compiled field) current)) :
    Relocated compiled (relocate address new) before after := by
  have mem (row : RowAddress) : row ∈ after ↔ row ∈ middle := by
    rw [Std.ExtTreeMap.mem_iff_isSome_getElem?, Std.ExtTreeMap.mem_iff_isSome_getElem?, rewritten, Option.isSome_map]
  have at_new {row : RowAddress} {fields : FieldMap} (present : before[row]? = some fields) :
      after[relocate address new row]? = some (rewriteMoves compiled moves (relocate address new row) fields) := by
    have inside : row ∈ before := Std.ExtTreeMap.mem_iff_isSome_getElem?.mpr (present ▸ rfl)
    rw [rewritten, renamed.kept row inside, present]
    rfl
  have fits {row : RowAddress} (inside : row ∈ after) : Fits before row := by
    obtain ⟨origin, there, rfl⟩ := renamed.onto row ((mem row).mp inside)
    exact ⟨origin, there, same.relocate origin⟩
  constructor
  · exact fun row inside => (mem _).mpr (renamed.mem inside)
  · exact fun row inside => renamed.onto row ((mem row).mp inside)
  · exact renamed.injective
  · intro row fields present undeclared
    rw [at_new present, rewriteMoves_undeclared]
    rw [(same.relocate row).declaration]
    exact undeclared
  · intro row fields collection present declared
    have level : compiled.collectionAt (relocate address new row).declaration = some collection :=
      (same.relocate row).declaration ▸ declared
    refine ⟨_, at_new present, fun path apart => readPath_rewriteMoves level apart fields, fun site inside => ?_⟩
    rw [value_rewriteMoves level (sound.beside _ collection declared) inside]
    exact leads site.field (sound.either _ collection declared site inside) _
  · exact fun target value row inside other there points again =>
      sound.unique (fits inside) (fits there) points again

/-- A placement that succeeds keeps the address of the row, or it moves the row with all rows below it, and each
reference leads to the same row as before. -/
theorem place_relocates {result : Placing} (sound : Sound compiled placing.rows) (live : address ∈ placing.rows)
    (found : Placing.keyAddress compiled address.collection address.declaration fields = .ok new)
    (kinds : SameKinds compiled address new)
    (done : placing.place compiled address address.declaration fields = .ok result) :
    Relocated compiled (relocate address new) (placing.rows.insert address fields) result.rows := by
  obtain ⟨_, _, _, _, _, notRoot, same⟩ := keyAddress_ok sound live found
  have base := sound.insert live fields
  have present : address ∈ placing.rows.insert address fields := Std.ExtTreeMap.mem_insert_self
  rw [Placing.place, found] at done
  simp only [Codes.ok_bind] at done
  split at done
  · next still =>
      subst still
      obtain rfl := Except.ok.inj done
      have unmoved := (Codes.Renamed.refl (placing.rows.insert new fields)).congr fun row _ =>
        (relocate_same new row).symm
      have rewritten (row : RowAddress) : (placing.rows.insert new fields)[row]? =
          ((placing.rows.insert new fields)[row]?).map (rewriteMoves compiled [] row) := Option.map_id.symm ▸ rfl
      refine relocated_of_renamed base same unmoved rewritten fun field _ current => ?_
      exact (FieldLeads.refl compiled _ field current).congr fun row _ => (relocate_same new row).symm
  · next different =>
      split at done
      · cases done
      · next free =>
          obtain ⟨⟨moved, moves⟩, moving, done⟩ := Codes.bind_ok.mp done
          obtain rfl := Except.ok.inj done
          obtain ⟨renamed, listed⟩ := renamed_place fields live same free rfl moving
          have below {move : RowAddress × RowAddress} (inside : move ∈ moves) :
              move.1 ∈ placing.rows ∧ address.depth < move.1.depth ∧ isPrefix address move.1 = true ∧
                move.2 = relocate address new move.1 := by
            simp only at listed
            rw [listed] at inside
            obtain ⟨row, there, rfl⟩ := List.mem_map.mp inside
            obtain ⟨held, deeper, within⟩ := mem_descendants.mp there
            exact ⟨held, deeper, within, (relocate_inside within).symm⟩
          have deep : ∀ move ∈ moves, 2 ≤ move.1.depth := fun move inside =>
            (Nat.succ_le_succ (Nat.le_add_right 1 _)).trans (below inside).2.1
          have each : ∀ move ∈ moves, move.1 ∈ placing.rows.insert address fields ∧ SameLevels move.1 move.2 := by
            intro move inside
            obtain ⟨held, _, _, place⟩ := below inside
            exact ⟨Std.ExtTreeMap.mem_insert.mpr (.inr held), place ▸ same.relocate move.1⟩
          let placed : Placing := { moved with rows := (moved.rows.erase address).insert new fields }
          have rewritten (row : RowAddress) :
              (((placed.moveReceiver address new).follow compiled address.declaration address new moves).mark
                new).rows[row]? = (placed.rows[row]?).map (rewriteMoves compiled (followed address new moves) row) :=
            getElem?_follow _ moves
          refine relocated_of_renamed base same renamed rewritten fun field either current => ?_
          · refine (fieldLeads_followed base present same notRoot kinds either each current).congr fun row inside => ?_
            have own : isPrefix address address = true := isPrefix_iff.mpr ⟨[], (List.append_nil _).symm⟩
            refine hops_eq same different (fun move there => ?_) fun within => ?_
            · rcases (mem_followed deep).mp there with rfl | there
              · exact ⟨own, (relocate_self address new).symm⟩
              · exact (below there).2.2
            · rcases eq_or_descends within with rfl | deeper
              · exact List.mem_map_of_mem (f := Prod.fst) ((mem_followed deep).mpr (.inl rfl))
              · have held : row ∈ placing.rows := by
                  refine (Std.ExtTreeMap.mem_insert.mp inside).resolve_left fun equal => ?_
                  rw [Std.LawfulEqCmp.eq_of_compare equal] at deeper
                  exact lt_irrefl _ deeper
                have there : (row, reroot new row address.depth) ∈ moves := by
                  simp only at listed
                  rw [listed]
                  exact List.mem_map_of_mem (mem_descendants.mpr ⟨held, deeper, within⟩)
                exact List.mem_map_of_mem (f := Prod.fst) ((mem_followed deep).mpr (.inr there))

/-- A placement is refused before it moves a row: the fields give no key, or another row is live at the new address. -/
theorem place_refused (sound : Sound compiled placing.rows) {fault : Rejection}
    (refused : placing.place compiled address address.declaration fields = .error fault) :
    Placing.keyAddress compiled address.collection address.declaration fields = .error fault ∨
      ∃ new ∈ placing.rows, Placing.keyAddress compiled address.collection address.declaration fields = .ok new ∧
        new ≠ address := by
  rw [Placing.place] at refused
  rcases Codes.bind_error.mp refused with failed | ⟨new, found, refused⟩
  · exact .inl failed
  · right
    split at refused
    · cases refused
    · next different =>
        split at refused
        · next taken => exact ⟨new, taken, found, different⟩
        · next free =>
            have distinct : (descendants placing.rows address).Nodup := (Std.ExtTreeMap.nodup_keys).filter _
            obtain ⟨moved, done⟩ : ∃ moved, Placing.moveAll new address.depth (descendants placing.rows address)
                (placing, []) = .ok moved :=
              moveAll_total sound free (Codes.Renamed.refl placing.rows) distinct
                (fun row inside => ⟨(mem_descendants.mp inside).1, rfl⟩)
                (fun row inside => (mem_descendants.mp inside).2.2) fun _ _ => .inl rfl
            rw [done] at refused
            cases refused

/-- The placement of the new fields of a live row is refused before it moves a row, or the row moves with all rows
below it, and each reference leads to the row that it led to before, at its new address. -/
theorem place_follows (sound : Sound compiled placing.rows) (live : address ∈ placing.rows)
    (kinds : ∀ new, Placing.keyAddress compiled address.collection address.declaration fields = .ok new →
      SameKinds compiled address new) :
    (∀ fault, placing.place compiled address address.declaration fields = .error fault →
      Placing.keyAddress compiled address.collection address.declaration fields = .error fault ∨
        ∃ new ∈ placing.rows, Placing.keyAddress compiled address.collection address.declaration fields = .ok new ∧
          new ≠ address) ∧
    ∀ result, placing.place compiled address address.declaration fields = .ok result →
      ∃ new, Placing.keyAddress compiled address.collection address.declaration fields = .ok new ∧
        Relocated compiled (relocate address new) (placing.rows.insert address fields) result.rows := by
  refine ⟨fun fault refused => place_refused sound refused, fun result done => ?_⟩
  obtain ⟨new, found, _⟩ := Codes.bind_ok.mp done
  exact ⟨new, found, place_relocates sound live found (kinds new found) done⟩

def personId : CompiledField :=
  ⟨"id", .int, none, none, none, none, []⟩

def personBoss : CompiledField :=
  ⟨"boss", .ref (.scalar .int), some ⟨["people"], false, .restrict⟩, none, none, none, []⟩

def officeCollection : CompiledCollection :=
  ⟨"offices", ["id"], [], [personId], [], [], []⟩

def peopleCollection : CompiledCollection :=
  ⟨"people", ["id"], [], [personId, personBoss], [], [], [officeCollection]⟩

/-- A person has a boss and offices. -/
def peopleCompiled : Compiled where
  collections := [peopleCollection]
  rootSingleton := ⟨rootName, [], [], [], [], [], []⟩
  buckets := []
  spends := []
  poolQuantities := fun _ _ => .ok ()
  mutations := []
  divisionRounding := .halfAwayFromZero

def person (id : Int) : RowAddress :=
  .root ⟨"people", .composite (.int id) []⟩

def office (owner id : Int) : RowAddress :=
  (person owner).child ⟨"offices", .composite (.int id) []⟩

def personFields (id boss : Int) : FieldMap :=
  ((∅ : FieldMap).insert "id" (.int id)).insert "boss" (.ref (.scalar (.int boss)))

/-- The second person is the boss of both, and has an office. -/
def peopleRows : Rows :=
  (((∅ : Rows).insert (person 1) (personFields 1 2)).insert (person 2) (personFields 2 2)).insert (office 2 1)
    ((∅ : FieldMap).insert "id" (.int 1))

theorem people_collectionAt {path : List String} {collection : CompiledCollection}
    (declared : peopleCompiled.collectionAt path = some collection) :
    (path = [rootName] ∧ collection = peopleCompiled.rootSingleton) ∨ (path = ["people"] ∧ collection = peopleCollection) ∨
      (path = ["people", "offices"] ∧ collection = officeCollection) := by
  unfold Compiled.collectionAt at declared
  split at declared
  · next root => exact .inl ⟨root, (Option.some.inj declared).symm⟩
  · right
    cases path with
    | nil => cases declared
    | cons head rest =>
      by_cases named : head = "people"
      · subst named
        have top : peopleCompiled.collection "people" = some peopleCollection := rfl
        simp only [top] at declared
        cases rest with
        | nil => exact .inl ⟨rfl, (Option.some.inj declared).symm⟩
        | cons inner below =>
          rw [CompiledCollection.at] at declared
          by_cases nested : inner = "offices"
          · subst nested
            have child : peopleCollection.child "offices" = some officeCollection := rfl
            simp only [child] at declared
            cases below with
            | nil => exact .inr ⟨rfl, (Option.some.inj declared).symm⟩
            | cons name lower => cases declared
          · have missing : peopleCollection.child inner = none := by
              simp [CompiledCollection.child, peopleCollection, officeCollection, Ne.symm nested]
            simp [missing] at declared
      · have missing : peopleCompiled.collection head = none := by
          simp [Compiled.collection, peopleCompiled, peopleCollection, Ne.symm named]
        simp [missing] at declared

theorem mem_peopleRows {row : RowAddress} (inside : row ∈ peopleRows) :
    row = person 1 ∨ row = person 2 ∨ row = office 2 1 := by
  simp only [peopleRows, Std.ExtTreeMap.mem_insert, Std.ExtTreeMap.not_mem_empty, or_false] at inside
  rcases inside with same | same | same
  · exact .inr (.inr (Std.LawfulEqCmp.eq_of_compare same).symm)
  · exact .inr (.inl (Std.LawfulEqCmp.eq_of_compare same).symm)
  · exact .inl (Std.LawfulEqCmp.eq_of_compare same).symm

theorem people_sound : Sound peopleCompiled peopleRows where
  root := rfl
  keyless := rfl
  beside path collection declared := by
    rcases people_collectionAt declared with ⟨_, rfl⟩ | ⟨_, rfl⟩ | ⟨_, rfl⟩
    · exact .nil
    · exact List.pairwise_singleton _ _
    · exact .nil
  either path collection declared site inside _ := by
    rcases people_collectionAt declared with ⟨_, rfl⟩ | ⟨_, rfl⟩ | ⟨_, rfl⟩
    · cases inside
    · obtain rfl := List.mem_singleton.mp inside
      rfl
    · cases inside
  lengths row inside _ collection declared := by
    rcases mem_peopleRows inside with rfl | rfl | rfl <;> cases declared <;> rfl
  parents row inside parent above := by
    rcases mem_peopleRows inside with rfl | rfl | rfl
    · cases above
    · cases above
    · obtain rfl := Option.some.inj above
      decide
  unmixed first left second right _ name collection level declared key read := by
    have unequal (id : Int) : ValueClass.of (.ref key) ≠ .of (.int id) := fun same => by
      cases Value.sameKind_of_cmp (ValueClass.of_eq_iff.mp same)
    rcases mem_peopleRows left with rfl | rfl | rfl
    · cases level
      cases declared
      exact absurd read (unequal 1)
    · cases level
      cases declared
      exact absurd read (unequal 2)
    · cases level

/-- The second person takes another key, and its office and the references of both persons follow. -/
theorem people_follow : ∃ result, Placing.place peopleCompiled ⟨peopleRows, none, []⟩ (person 2) ["people"]
      (personFields 3 2) = .ok result ∧
    Relocated peopleCompiled (relocate (person 2) (person 3)) (peopleRows.insert (person 2) (personFields 3 2))
      result.rows ∧
    result.rows[person 1]? = some (personFields 1 3) := by
  have kinds (new : RowAddress)
      (found : Placing.keyAddress peopleCompiled (person 2).collection (person 2).declaration (personFields 3 2) = .ok new) :
      SameKinds peopleCompiled (person 2) new := by
    cases found
    rintro collection declared
    cases declared
    exact .int 2 3
  have sound : Sound peopleCompiled (Placing.mk peopleRows none []).rows := people_sound
  have live : person 2 ∈ (Placing.mk peopleRows none []).rows := by decide
  have follows := (place_follows sound live kinds).2
  refine ⟨_, rfl, ?_, ?_⟩
  · obtain ⟨new, found, relocated⟩ := follows _ rfl
    cases found
    exact relocated
  · rfl

end Results

end Liasse.Runtime

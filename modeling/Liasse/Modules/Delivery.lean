/-
This file tells when a call of an exposed interface reaches what it should.
-/

import Liasse.Modules.Folding
import Liasse.Wire.Sample

namespace Liasse.Modules

open Codes Liasse.Host Liasse.Reading Liasse.Store
open Liasse.Coverage (RowTarget stepTo stepsOf stepsOf_extend descendOperand oneReceiverOperand operandsFrom
  receiverOperands)
open Liasse.Expr (Row)

section Descent

variable {schema : Reading.Schema}

/-- The number of key components of the collection at a path. A path without a collection has one. -/
def arityAt (schema : Reading.Schema) (path : List String) : Nat :=
  ((schema.collectionAt path).map fun collection => max collection.key.length 1).getD 1

theorem one_le_arityAt (path : List String) : 1 ≤ arityAt schema path := by
  rw [arityAt]
  cases schema.collectionAt path with
  | none => exact Nat.le_refl 1
  | some collection => exact Nat.le_max_right _ _

/-- Every collection along some names has one key component. -/
def Single (schema : Reading.Schema) : List String → List String → Prop
  | _, [] => True
  | above, name :: rest => arityAt schema (above ++ [name]) = 1 ∧ Single schema (above ++ [name]) rest

/-- The steps whose keys are single values. -/
def singleSteps (names : List String) (values : List Value) : List AddressStep :=
  List.zipWith (fun name value => ⟨name, .composite value []⟩) names values

theorem stepsOf_inj {first second : Option RowAddress} (same : stepsOf first = stepsOf second) : first = second := by
  cases first with
  | none =>
    cases second with
    | none => rfl
    | some second => cases same
  | some first =>
    cases second with
    | none => cases same
    | some second =>
      obtain ⟨first, rest⟩ := first
      obtain ⟨rfl, rfl⟩ := List.cons.inj same
      rfl

/-- A descent consumes at least one value for each name. -/
theorem length_le_of_descend {names above : List String} {address reached : Option RowAddress}
    {values rest : List Value} (done : descendOperand schema above names address values = .ok (reached, rest)) :
    names.length ≤ values.length := by
  induction names generalizing above address values with
  | nil => exact Nat.zero_le _
  | cons name names ih =>
    rw [descendOperand, ← arityAt] at done
    have least : 1 ≤ arityAt schema (above ++ [name]) := one_le_arityAt _
    split at done
    · cases done
    · split at done
      · cases done
      · have more := ih done
        rw [List.length_drop] at more
        rw [List.length_cons]
        omega

/-- A descent with one value for each name needs single keys, and it uses them all. -/
theorem single_of_descend {names above : List String} {address reached : Option RowAddress}
    {values rest : List Value} (lengths : values.length = names.length)
    (done : descendOperand schema above names address values = .ok (reached, rest)) :
    Single schema above names ∧ rest = [] ∧ stepsOf reached = stepsOf address ++ singleSteps names values := by
  induction names generalizing above address values with
  | nil =>
    rw [descendOperand] at done
    obtain ⟨rfl, rfl⟩ := Prod.mk.inj (Except.ok.inj done)
    obtain rfl := List.length_eq_zero_iff.mp lengths
    exact ⟨trivial, rfl, (List.append_nil _).symm⟩
  | cons name names ih =>
    obtain ⟨value, values, rfl⟩ := List.exists_cons_of_length_eq_add_one lengths
    rw [descendOperand, ← arityAt] at done
    have least : 1 ≤ arityAt schema (above ++ [name]) := one_le_arityAt _
    split at done
    · cases done
    · next short =>
        split at done
        · cases done
        · next first tail taken =>
            have more := length_le_of_descend done
            rw [List.length_cons, List.length_cons, Nat.add_right_cancel_iff] at lengths
            rw [List.length_drop, List.length_cons] at more
            rw [List.length_cons] at short
            have one : arityAt schema (above ++ [name]) = 1 := by omega
            rw [one, List.take_succ_cons, List.take_zero, List.cons.injEq] at taken
            obtain ⟨rfl, rfl⟩ := taken
            rw [one, List.drop_succ_cons, List.drop_zero] at done
            obtain ⟨single, unread, path⟩ := ih lengths done
            refine ⟨⟨one, single⟩, unread, ?_⟩
            rw [path, stepsOf_extend, List.append_assoc]
            rfl

/-- A descent through single keys succeeds with one value for each name. -/
theorem descend_of_single {names above : List String} (address : Option RowAddress) {values : List Value}
    (lengths : values.length = names.length) (single : Single schema above names) :
    ∃ reached, descendOperand schema above names address values = .ok (reached, []) := by
  induction names generalizing above address values with
  | nil =>
    obtain rfl := List.length_eq_zero_iff.mp lengths
    exact ⟨address, rfl⟩
  | cons name names ih =>
    obtain ⟨value, values, rfl⟩ := List.exists_cons_of_length_eq_add_one lengths
    obtain ⟨one, deeper⟩ := single
    rw [List.length_cons, List.length_cons, Nat.add_right_cancel_iff] at lengths
    obtain ⟨reached, done⟩ := ih _ lengths deeper
    refine ⟨reached, ?_⟩
    rw [descendOperand, ← arityAt, one, if_neg (by rw [List.length_cons]; omega)]
    exact done

/-- A receiver with one value for each name addresses one row, and it does so exactly through single keys. -/
theorem receiverOperands_eq_iff {names : List String} {values : List Value} (lengths : values.length = names.length)
    (some : names ≠ []) {address : RowAddress} :
    receiverOperands schema ⟨names, values⟩ = .ok [⟨address, names⟩] ↔
      Single schema [] names ∧ address.steps = singleSteps names values := by
  obtain ⟨name, names, rfl⟩ := List.exists_cons_of_ne_nil some
  obtain ⟨value, values, rfl⟩ := List.exists_cons_of_length_eq_add_one lengths
  have start : receiverOperands schema ⟨name :: names, value :: values⟩ =
      operandsFrom schema (name :: names) (values.length + 1) (value :: values) := rfl
  rw [start, operandsFrom]
  · constructor
    · intro operands
      obtain ⟨⟨target, unread⟩, one, operands⟩ := bind_ok.mp operands
      obtain ⟨more, -, operands⟩ := bind_ok.mp operands
      obtain ⟨rfl, -⟩ := List.cons.inj (Except.ok.inj operands)
      obtain ⟨⟨reached, last⟩, descent, one⟩ := bind_ok.mp one
      obtain ⟨single, rfl, path⟩ := single_of_descend lengths descent
      cases reached with
      | none => cases one
      | some reached =>
        obtain ⟨same, rfl⟩ := Prod.mk.inj (Except.ok.inj one)
        obtain ⟨rfl, -⟩ := RowTarget.mk.inj same
        exact ⟨single, path⟩
    · rintro ⟨single, path⟩
      obtain ⟨reached, descent⟩ := descend_of_single none lengths single
      obtain ⟨-, -, steps⟩ := single_of_descend lengths descent
      obtain rfl : reached = .some address := stepsOf_inj (steps.trans path.symm)
      rw [oneReceiverOperand, descent]
      cases values <;> rfl
  · exact fun none => List.cons_ne_nil _ _ none

end Descent

section Keys

variable {libraries : Wire.Libraries}

theorem eq_text_of_cmp {value : Value} {text : String} (same : value.cmp (.text text) = .eq) :
    value = .text text := by
  rcases Value.sameKind_or_rank value (.text text) with ⟨⟨⟩⟩ | ⟨different, order⟩
  · rw [Value.cmp, compareText_eq_iff] at same
    rw [same]
  · rw [order] at same
    exact absurd (Std.LawfulEqOrd.eq_of_compare same) different

/-- A key is one text without reserved characters. -/
def PlainKey (key : Value) : Prop :=
  ∃ text, keyValueOf key = ⟨.text text, []⟩ ∧ ∀ char ∈ text.toList, Plain char

/-- The key text of one text is the escaped text. -/
theorem keyText_of_text {key : Value} {text written : String} (own : keyValueOf key = ⟨.text text, []⟩)
    (done : keyText libraries key = .ok written) : written = encode text := by
  rw [keyValueOf.eq_def] at own
  split at own
  · next first rest =>
      obtain ⟨rfl, rfl⟩ := KeyValue.mk.inj own
      have same : keyText libraries (.text text) = .ok written := by
        rw [← done, keyText, keyText, flatten, flatten, flattenAll, flattenAll, flatten]
        cases component libraries (.text text) with
        | error error => rfl
        | ok parts =>
          show joinComponents parts = joinComponents (parts ++ [])
          rw [List.append_nil]
      exact keyText_text libraries same
  · obtain ⟨rfl, -⟩ := KeyValue.mk.inj own
    exact keyText_text libraries done

/-- A receiver text addresses the row of its key text exactly when the key is such a text. -/
theorem toClass_eq_iff {key : Value} {text : String} (spelled : keyText libraries key = .ok text) :
    (keyValueOf key).toClass = KeyClass.composite (.text text) [] ↔ PlainKey key := by
  constructor
  · intro same
    obtain ⟨first, rest⟩ := KeyClass.mk.inj same
    have own : keyValueOf key = ⟨.text text, []⟩ := by
      generalize keyValueOf key = stored at first rest
      obtain ⟨value, others⟩ := stored
      rw [List.map_nil, List.map_eq_nil_iff] at rest
      exact KeyValue.mk.injEq .. |>.mpr ⟨eq_text_of_cmp (ValueClass.of_eq_iff.mp first), rest⟩
    exact ⟨text, own, encode_eq_self.mp (keyText_of_text own spelled).symm⟩
  · rintro ⟨plain, own, chars⟩
    have same := keyText_of_text own spelled
    rw [encode_eq_self.mpr chars] at same
    rw [own, same]
    rfl

/-- The receiver texts address the rows of a trail exactly when each of its keys is such a text. -/
theorem singleSteps_eq_iff {steps : List (String × String)} {trail : List (String × Row)}
    (spelled : List.Forall₂ (fun step row => row.1 = step.1 ∧ keyText libraries row.2.key = .ok step.2) steps trail) :
    (trail.map fun row => stepTo row.1 row.2) =
        singleSteps (trail.map Prod.fst) (steps.map fun step => .text step.2) ↔
      ∀ row ∈ trail, PlainKey row.2.key := by
  induction spelled with
  | nil => exact iff_of_true rfl fun _ inside => absurd inside List.not_mem_nil
  | @cons step row steps trail here rest ih =>
    rw [List.forall_mem_cons, ← ih, ← toClass_eq_iff here.2]
    rw [List.map_cons, List.map_cons, List.map_cons, singleSteps, List.zipWith_cons_cons, List.cons.injEq, stepTo,
      AddressStep.mk.injEq, eq_self_iff_true, true_and]
    rfl

end Keys

section Feeding

variable {given : Std.ExtTreeMap String Value compare} {args : List (String × ArgSource)}

/-- The sources of one parameter name equal arguments. -/
def Agree (given : Std.ExtTreeMap String Value compare) (args : List (String × ArgSource)) : Prop :=
  ∀ first ∈ args, ∀ second ∈ args, first.1 = second.1 → first.2.value given = second.2.value given

/-- Every parameter takes the argument that its source names exactly when the sources agree. -/
theorem feed_iff : (∀ arg ∈ args, (feed given args)[arg.1]? = arg.2.value given) ↔ Agree given args := by
  constructor
  · intro fed first one second two same
    rw [← fed first one, ← fed second two, same]
  · intro agree arg inside
    rw [feed]
    cases value : arg.2.value given with
    | none =>
      refine List.foldlRecOn args _ (motive := fun fed => fed[arg.1]? = none)
        Std.ExtTreeMap.getElem?_empty fun fed held other listed => ?_
      by_cases same : other.1 = arg.1
      · rw [agree other listed arg inside same, value]
        exact held
      · split
        · rwa [getElem?_insert_of_ne (Ne.symm same)]
        · exact held
    | some value' =>
      refine foldl_establishes (fun fed => fed[arg.1]? = some value') inside (fun fed => ?_)
        (fun other listed _ fed held => ?_) ∅
      · rw [value]
        exact Std.ExtTreeMap.getElem?_insert_self
      · by_cases same : other.1 = arg.1
        · rw [agree other listed arg inside same, value, same]
          exact Std.ExtTreeMap.getElem?_insert_self
        · split
          · rwa [getElem?_insert_of_ne (Ne.symm same)]
          · exact held

end Feeding

section Calls

variable {S M P : Type} [InstanceStore S M] {router : Router S M P}

/-- The rows of a trail as the target of a mutation. The root has no target. -/
def targetsOf : List (String × Row) → List RowTarget
  | [] => []
  | first :: rest =>
    [⟨⟨stepTo first.1 first.2, rest.map fun row => stepTo row.1 row.2⟩, (first :: rest).map Prod.fst⟩]

namespace ModuleHost

variable (host : ModuleHost router.toServices) (call : InterfaceCall)

/-- The steps to the row that contains the space of a call. -/
def InterfaceCall.steps (call : InterfaceCall) : List (String × String) :=
  call.space.containingRowSteps.getD []

/-- The rows that contain the space of a call. -/
def Contains (trail : List (String × Row)) : Prop :=
  ∃ top, router.rootRow host.root = .ok top ∧ trailAt router.libraries top (InterfaceCall.steps call) = some trail

/-- A call of the root runs the bound mutation on the row that contains the space, and each parameter takes the
argument that its source names. -/
structure Lands (delegation : Delegation) (routed : CallRequest) : Prop where
  row : ∃ trail mutation, host.Contains call trail ∧ mutation.name = delegation.mutation ∧
    mutation.path = trail.map Prod.fst ∧ router.receivers host.root routed = .ok (mutation, targetsOf trail)
  args : ∀ arg ∈ delegation.args, routed.args[arg.1]? = arg.2.value call.request.args

/-- The containing collections have a key of one text without reserved characters, the first mutation of the bound
name belongs to the containing collection, and the sources of one parameter name equal arguments. -/
structure Fits (delegation : Delegation) (trail : List (String × Row)) : Prop where
  bound : (router.mutation host.root delegation.mutation).map CompiledMutation.path = some (trail.map Prod.fst)
  single : Single (router.schema host.root) [] (trail.map Prod.fst)
  plain : ∀ row ∈ trail, PlainKey row.2.key
  agree : Agree call.request.args delegation.args

variable {host call}

theorem Contains.unique {first second : List (String × Row)} (one : host.Contains call first)
    (two : host.Contains call second) : first = second := by
  obtain ⟨top, read, found⟩ := one
  obtain ⟨other, again, also⟩ := two
  obtain rfl := Except.ok.inj (read.symm.trans again)
  exact Option.some.inj (found.symm.trans also)

/-- The operands of a routed call are the containing row exactly when the texts of the receiver address it. -/
theorem operands_eq_iff {delegation : Delegation} {trail : List (String × Row)} (contains : host.Contains call trail)
    {mutation : CompiledMutation} (placed : mutation.path = trail.map Prod.fst) :
    router.operands host.root mutation (routedRequest call delegation) = .ok (targetsOf trail) ↔
      Single (router.schema host.root) [] (trail.map Prod.fst) ∧ ∀ row ∈ trail, PlainKey row.2.key := by
  obtain ⟨top, -, found⟩ := contains
  have spelled := keyText_of_trailAt found
  rw [Router.operands, placed]
  cases trail with
  | nil => exact iff_of_true rfl ⟨trivial, fun _ inside => absurd inside List.not_mem_nil⟩
  | cons first rest =>
    have lengths : ((InterfaceCall.steps call).map fun step => Value.text step.2).length =
        ((first :: rest).map Prod.fst).length := by
      rw [List.length_map, List.length_map, spelled.length_eq]
    rw [← singleSteps_eq_iff spelled]
    exact receiverOperands_eq_iff lengths (List.cons_ne_nil _ _)

/-- A delegated call lands on the containing row exactly when its rows fit. -/
theorem lands_iff {delegation : Delegation} {trail : List (String × Row)} (contains : host.Contains call trail) :
    host.Lands call delegation (routedRequest call delegation) ↔ host.Fits call delegation trail := by
  constructor
  · rintro ⟨⟨other, mutation, also, named, placed, runs⟩, fed⟩
    obtain rfl := contains.unique also
    obtain ⟨found, operands⟩ := Router.receivers_eq_ok.mp runs
    obtain ⟨single, plain⟩ := (operands_eq_iff contains placed).mp operands
    exact ⟨Option.map_eq_some_iff.mpr ⟨mutation, found, placed⟩, single, plain, feed_iff.mp fed⟩
  · intro fits
    obtain ⟨mutation, found, placed⟩ := Option.map_eq_some_iff.mp fits.bound
    refine ⟨⟨trail, mutation, contains, router.name_of_mutation found, placed, ?_⟩, feed_iff.mpr fits.agree⟩
    exact Router.receivers_eq_ok.mpr ⟨found, (operands_eq_iff contains placed).mpr ⟨fits.single, fits.plain⟩⟩

variable [Package M]

/-- A delegation has a row that contains the space. -/
theorem exists_contains {child : Child S M P} {delegation : Delegation}
    (delegates : host.delegation child call = .ok (some delegation)) : ∃ trail, host.Contains call trail := by
  rw [ModuleHost.delegation] at delegates
  split at delegates
  · cases delegates
  · next parsed =>
      split at delegates
      · cases delegates
      · next surface imported =>
          obtain ⟨resolved, projected, bound⟩ := bind_ok.mp delegates
          cases provided : router.compiledSurface host.root call.space.declarationPath surface with
          | none =>
            rw [provided, parentSurfaceProjection] at projected
            obtain rfl := Except.ok.inj projected
            cases bound
          | some compiled =>
            rw [provided, parentSurfaceProjection] at projected
            obtain ⟨top, read, projected⟩ := bind_ok.mp projected
            rw [rowAt_eq_trailAt] at projected
            cases found : trailAt router.libraries top (InterfaceCall.steps call) with
            | some trail => exact ⟨trail, top, read, found⟩
            | none =>
              rw [← InterfaceCall.steps, found] at projected
              obtain rfl := Except.ok.inj projected
              cases bound

/-- Where a call of an enabled instance goes. -/
inductive Routes (host : ModuleHost router.toServices) (child : Child S M P) (call : InterfaceCall) : Route → Prop
  | child {mutation : String}
      (bound : Package.exposedMutation child.engine.model call.interface call.mutation = some mutation) :
      Routes host child call (.child { call.request with mutation })
  | parent {delegation : Delegation}
      (other : Package.exposedMutation child.engine.model call.interface call.mutation = none)
      (delegates : host.delegation child call = .ok (some delegation)) :
      Routes host child call (.parent (routedRequest call delegation))
  | inlined {binding : String}
      (other : Package.exposedMutation child.engine.model call.interface call.mutation = none)
      (alone : host.delegation child call = .ok none)
      (bound : Package.exposedMutationBinding child.engine.model call.interface call.mutation = some binding)
      (inlined : isInlineChildBinding binding = true) : Routes host child call (.inlined binding call.request)

theorem interfaceCall_eq_ok {route : Route} : host.interfaceCall call = .ok route ↔
    ∃ child, host.enabledChild call.space call.name = .ok child ∧ Routes host child call route := by
  rw [ModuleHost.interfaceCall, bind_ok]
  refine exists_congr fun child => and_congr_right fun _ => ?_
  constructor
  · intro routed
    split at routed
    · next mutation bound =>
        obtain rfl := Except.ok.inj routed
        exact .child bound
    · next other =>
        obtain ⟨requested, delegates, routed⟩ := bind_ok.mp routed
        rw [ModuleHost.parentMutationRequest] at delegates
        split at delegates
        · cases delegates
        · next delegation made =>
            obtain rfl := Except.ok.inj delegates
            cases delegation with
            | some delegation =>
              obtain rfl := Except.ok.inj routed
              exact .parent other made
            | none =>
              dsimp only [Option.map_none] at routed
              split at routed
              · next binding bound =>
                  split at routed
                  · next inlined =>
                      obtain rfl := Except.ok.inj routed
                      exact .inlined other made bound inlined
                  · cases routed
              · cases routed
  · intro routes
    cases routes with
    | child bound => rw [bound]; rfl
    | parent other delegates =>
      rw [other, ModuleHost.parentMutationRequest, delegates]
      rfl
    | inlined other alone bound inlined =>
      rw [other, ModuleHost.parentMutationRequest, alone]
      dsimp only [Option.map_none, ok_bind]
      rw [bound]
      dsimp only
      rw [if_pos inlined]
      rfl

/-- The interface that a call addresses can be read: its instance is enabled, and its guard is bound to an enabled
instance. -/
def Readable (host : ModuleHost router.toServices) (call : InterfaceCall) : Prop :=
  ∃ child, host.enabledChild call.space call.name = .ok child ∧ host.interfaceGuardActive child call.interface = true

/-- A call is routed only when its interface can be read, a delegated call lands on the row that contains the space,
and the spaces are folded into the rows that contain them. -/
structure Upheld (host : ModuleHost router.toServices) (call : InterfaceCall) : Prop where
  readable : ∀ route, host.interfaceCall call = .ok route → host.Readable call
  delegated : ∀ routed, host.interfaceCall call = .ok (.parent routed) → ∃ child delegation,
    host.enabledChild call.space call.name = .ok child ∧ host.delegation child call = .ok (some delegation) ∧
    host.Lands call delegation routed
  folded : ∀ spaces top, host.aggregateSnapshot = .ok spaces → router.rootRow host.root = .ok top →
    host.FoldsInPlace spaces top

/-- An instance binds nothing that a call can reach. -/
structure Unbound (host : ModuleHost router.toServices) (child : Child S M P) (call : InterfaceCall) : Prop where
  own : Package.exposedMutation child.engine.model call.interface call.mutation = none
  delegated : ∀ delegation, host.delegation child call ≠ .ok (some delegation)
  inlined : host.delegation child call = .ok none → ∀ binding,
    Package.exposedMutationBinding child.engine.model call.interface call.mutation = some binding →
    isInlineChildBinding binding = false

/-- An interface whose guard is not active binds nothing, and the rows of a delegation fit. -/
structure Guarded (host : ModuleHost router.toServices) (call : InterfaceCall) (child : Child S M P) : Prop where
  closed : host.interfaceGuardActive child call.interface = false → host.Unbound child call
  fits : Package.exposedMutation child.engine.model call.interface call.mutation = none →
    ∀ delegation, host.delegation child call = .ok (some delegation) →
    ∀ trail, host.Contains call trail → host.Fits call delegation trail

theorem unbound_iff {child : Child S M P} : host.Unbound child call ↔ ¬ ∃ route, Routes host child call route := by
  constructor
  · rintro unbound ⟨route, routes⟩
    cases routes with
    | child bound => exact absurd (unbound.own.symm.trans bound) (by simp)
    | parent other delegates => exact unbound.delegated _ delegates
    | inlined other alone bound inlined =>
      rw [unbound.inlined alone _ bound] at inlined
      cases inlined
  · intro closed
    have own : Package.exposedMutation child.engine.model call.interface call.mutation = none :=
      Option.eq_none_iff_forall_ne_some.mpr fun mutation bound => closed ⟨_, .child bound⟩
    refine ⟨own, fun delegation delegates => closed ⟨_, .parent own delegates⟩, fun alone binding bound => ?_⟩
    exact Bool.eq_false_iff.mpr fun inlined => closed ⟨_, .inlined own alone bound inlined⟩

/-- A call is routed, delivered and folded as it should be exactly when its enabled instance is guarded. -/
theorem upheld_iff : host.Upheld call ↔
    ∀ child, host.enabledChild call.space call.name = .ok child → host.Guarded call child := by
  constructor
  · intro upheld child enabled
    refine ⟨fun closed => unbound_iff.mpr ?_, fun other delegation delegates trail contains => ?_⟩
    · rintro ⟨route, routes⟩
      obtain ⟨reader, found, active⟩ := upheld.readable route (interfaceCall_eq_ok.mpr ⟨child, enabled, routes⟩)
      obtain rfl := Except.ok.inj (enabled.symm.trans found)
      rw [closed] at active
      cases active
    · have routes : Routes host child call (.parent (routedRequest call delegation)) := .parent other delegates
      obtain ⟨sender, sent, found, made, lands⟩ :=
        upheld.delegated _ (interfaceCall_eq_ok.mpr ⟨child, enabled, routes⟩)
      obtain rfl := Except.ok.inj (enabled.symm.trans found)
      obtain rfl := Option.some.inj (Except.ok.inj (delegates.symm.trans made))
      exact (lands_iff contains).mp lands
  · intro guarded
    refine ⟨fun route routed => ?_, fun routed sent => ?_, fun spaces top taken _ => foldsInPlace taken top⟩
    · obtain ⟨child, enabled, routes⟩ := interfaceCall_eq_ok.mp routed
      refine ⟨child, enabled, ?_⟩
      by_contra closed
      exact unbound_iff.mp ((guarded child enabled).closed (Bool.eq_false_iff.mpr closed)) ⟨route, routes⟩
    · obtain ⟨child, enabled, routes⟩ := interfaceCall_eq_ok.mp sent
      cases routes with
      | parent other delegates =>
        obtain ⟨trail, contains⟩ := exists_contains delegates
        have fits := (guarded child enabled).fits other _ delegates trail contains
        exact ⟨child, _, enabled, delegates, (lands_iff contains).mpr fits⟩

end ModuleHost

end Calls

namespace Sample

/-- A package whose notes are guarded by a sibling and whose notes can be added. -/
structure NotesPackage

instance : Package NotesPackage where
  line _ := "acme"
  version _ := ⟨1, 0, 0⟩
  exposedViews _ := [⟨"notes", some "people", .view [("id", .scalar .text)] none⟩]
  interfaceMuts _ := [("notes", [("add", ".add")])]
  mutation _ _ := none
  alphanumeric := Char.isAlphanum
  parse _ := none

instance : InstanceStore Unit NotesPackage where
  Rows := Unit
  gather _ _ := .ok ⟨⟩
  commit _ _ _ _ _ := .ok (.committed ⟨⟩ 1)
  head _ := .ok 0

/-- A root without rows that has one space. -/
def notesRouter : Router Unit NotesPackage SampleHsm where
  Root := Unit
  Factory := Unit
  Generator := Unit
  ViewResult := Unit
  ViewRow := Unit
  rootInstance _ := "root"
  moduleSpaceInterfaces _ _ := some []
  containsRow _ steps := .ok (rowAt Wire.Sample.libraries (.mk [] .none [] []) steps).isSome
  parentSurface _ _ _ _ := .ok none
  create factory _ := (.ok ⟨⟩, factory)
  installLoad _ _ _ _ _ := .error (.internal "no definition")
  overlayInstallData engine _ _ _ := .ok engine
  definitionSource _ := .ok none
  updateChecks _ _ _ := .ok (⟨[], [], ⟨⟩⟩, ⟨⟩)
  interfaceRead _ _ _ := .ok (some ⟨⟩)
  rows _ := []
  interfaceRows _ _ _ := .ok (some [])
  libraries := Wire.Sample.libraries
  parse _ := none
  schema _ := ⟨[], []⟩
  mutations _ := []
  moduleSpaces _ := [["modules"]]
  rootRow _ := .ok (.mk [] .none [] [])
  compiledSurface _ _ _ := none
  containsRow_eq _ _ := rfl
  parentSurface_eq _ _ _ _ := rfl
  named _ := by decide
  apart _ _ _ declared := absurd declared (by simp)

/-- The space of the root. -/
def notesSpace : ModuleSpace :=
  ⟨"/modules", ["modules"], by decide⟩

/-- A host with one enabled instance. The sibling that guards its interface is not installed. -/
def notesHost : ModuleHost notesRouter.toServices where
  factory := ⟨⟩
  root := ⟨⟩
  children := [⟨notesSpace, "notes", "root#m0-modules-notes",
    { sampleEngine with store := ⟨⟩, model := ⟨⟩ }, ⟨∅, [], []⟩, [⟨"people", "people", none, true⟩], true⟩]
  nextIncarnation := 1

/-- A note is added through the guarded interface. -/
def addNote : InterfaceCall :=
  ⟨notesSpace, "notes", "notes", "add", .new "add"⟩

/-- A call reaches the instance although its interface cannot be read. -/
theorem guard_is_passed : ¬ ∀ (host : ModuleHost notesRouter.toServices) (call : InterfaceCall), host.Upheld call := by
  intro upheld
  have routed : notesHost.interfaceCall addNote = .ok (.child (.new "add")) := by
    rfl
  obtain ⟨child, enabled, active⟩ := (upheld notesHost addNote).readable _ routed
  obtain rfl := Except.ok.inj enabled
  exact absurd active (by decide)

end Sample

end Liasse.Modules

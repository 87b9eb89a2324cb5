/-
This file tells exactly when the addressing of a scope agrees with the tree that its view shows.
-/

import Liasse.Codes.Listing
import Liasse.Coverage.Operands
import Liasse.Coverage.Shown
import Liasse.Wire.Sample

namespace Liasse.Coverage

open Liasse.Codes Liasse.Expr Liasse.Reading Liasse.Store Liasse.Wire
open Liasse.Surface (ScopedReceiver)

/-- The surface of a scope in a state. The accessor cells of a row do not take the name of the covered relation. -/
structure Site where
  ctx : EvalCtx
  libraries : Libraries
  scope : CompiledScope
  view : TypedExpr
  keys : Keyed ctx.package.toSchema ctx.state.working
  apart : ∀ recursive, scope.recursive = some recursive → ∀ address, ∀ extra ∈ ctx.extras address,
    extra.1 ≠ recursive.field

namespace Site

section Statements

variable (site : Site)

/-- The covered row of a scope. -/
def covered (scopeKey : List Value) : Option Row :=
  site.scope.covered site.ctx scopeKey

/-- The receiver of a path below a scope. -/
def resolves (scopeKey descendant : List Value) (receiver : ScopedReceiver) : Prop :=
  site.scope.resolveReceiver site.ctx scopeKey descendant = .ok (some receiver)

/-- The tree that a row covers. A surface that is not recursive covers the row alone. -/
def treeOf (row : Row) : Except EngineError (RoseTree (Row × List (String × J))) :=
  match site.scope.recursive with
  | some recursive => recursive.coverTree site.libraries site.view row
  | none => (project site.libraries site.view row).map fun object => .node (row, object) []

/-- The view materializes, and the tree is the one that it shows. -/
def Shows (scopeKey : List Value) (tree : RoseTree (Row × List (String × J))) : Prop :=
  ∃ row json, site.covered scopeKey = some row ∧ site.treeOf row = .ok tree ∧
    site.scope.materialize site.ctx site.libraries site.view scopeKey = .ok (some json)

/-- The rows on a path below a scope are all included. -/
def Admits (scopeKey descendant : List Value) (rows : List Row) : Prop :=
  ∃ row, site.covered scopeKey = some row ∧
    (descendant = [] ∧ rows = [] ∨ ∃ recursive, site.scope.recursive = some recursive ∧
      (subtree recursive.field row).trail keyed descendant = some rows ∧
        ∀ row ∈ rows, recursive.included row = .ok true)

/-- The field of the covered relation. -/
def field : String :=
  site.scope.recursive.elim "" CompiledRecursive.field

/-- The address of the row of a scope. -/
def scopeAddress (scopeKey : List Value) : Option RowAddress := do
  let key ← CompiledScope.keyOf scopeKey
  let name ← site.scope.collectionPath.getLast?
  some (CompiledScope.topAddress name key).toClass

/-- A path resolves to a receiver exactly when the view shows a row there, and the receiver addresses exactly
this row. -/
structure Agrees (scopeKey descendant : List Value) : Prop where
  visible : (∃ receiver, site.resolves scopeKey descendant receiver) ↔
    ∃ tree rows, site.Shows scopeKey tree ∧
      tree.trail (fun label key => keyed label.1 key) descendant = some rows
  addressed : ∀ receiver rows address, site.resolves scopeKey descendant receiver →
    site.Admits scopeKey descendant rows → site.scopeAddress scopeKey = some address →
      (site.ctx.state.working.get (addressBelow site.field address rows)).isSome ∧
        receiverOperands site.ctx.package.toSchema receiver =
          .ok [⟨addressBelow site.field address rows, receiver.path⟩]

/-- Each row that the view covers has a projection that can be read, and each row right below it is decided. -/
def Reads (scopeKey : List Value) : Prop :=
  ∀ row, site.covered scopeKey = some row →
    match site.scope.recursive with
    | some recursive => ∀ node, RoseTree.Covered recursive.included (subtree recursive.field row) node →
        RoseTree.Readable (shown site.libraries site.view (some recursive.field)) recursive.included node
    | none => ∃ object, shown site.libraries site.view none row = .ok object

end Statements

section Views

variable {site : Site} {scopeKey descendant : List Value}

/-- A path resolves exactly when its rows are included. -/
theorem resolves_iff {receiver : ScopedReceiver} :
    site.resolves scopeKey descendant receiver ↔ (∃ rows, site.Admits scopeKey descendant rows) ∧
      receiver = ⟨site.scope.collectionPath ++ List.replicate descendant.length site.field,
        scopeKey ++ descendant⟩ := by
  rw [resolves, CompiledScope.resolveReceiver]
  cases found : site.scope.covered site.ctx scopeKey with
  | none =>
    refine iff_of_false (fun failed => by cases failed) ?_
    rintro ⟨⟨rows, row, other, -⟩, -⟩
    rw [covered, found] at other
    cases other
  | some row =>
    dsimp only
    cases descendant with
    | nil =>
      rw [List.isEmpty_nil, if_pos rfl, Except.ok.injEq, Option.some.injEq]
      constructor
      · rintro rfl
        exact ⟨⟨[], row, found, .inl ⟨rfl, rfl⟩⟩, by simp⟩
      · rintro ⟨-, rfl⟩
        simp
    | cons component rest =>
      rw [List.isEmpty_cons, if_neg Bool.false_ne_true]
      cases recursion : site.scope.recursive with
      | none =>
        refine iff_of_false (fun failed => by cases failed) ?_
        rintro ⟨⟨rows, other, -, ⟨none, -⟩ | ⟨recursive, some, -⟩⟩, -⟩
        · cases none
        · rw [recursion] at some
          cases some
      | some recursive =>
        dsimp only
        rw [CompiledRecursive.follow_eq_some, field, recursion]
        refine and_congr ?_ Iff.rfl
        simp only [RoseTree.walk_eq_some]
        constructor
        · rintro ⟨rows, path, passes⟩
          exact ⟨rows, row, found, .inr ⟨recursive, recursion, path, passes⟩⟩
        · rintro ⟨rows, other, again, ⟨none, -⟩ | ⟨also, some, path, passes⟩⟩
          · cases none
          · obtain rfl := Option.some.inj (found.symm.trans again)
            obtain rfl := Option.some.inj (recursion.symm.trans some)
            exact ⟨rows, path, passes⟩

/-- The members of a shown tree. -/
def members (site : Site) (tree : RoseTree (Row × List (String × J))) : List (String × J) :=
  match site.scope.recursive with
  | some recursive => render recursive.field tree
  | none => tree.label.2

/-- The view of a covered row is the members of its tree, read as JSON. -/
theorem materialize_ok {row : Row} (found : site.covered scopeKey = some row) :
    (∃ json, site.scope.materialize site.ctx site.libraries site.view scopeKey = .ok (some json)) ↔
      ∃ tree, site.treeOf row = .ok tree ∧ Legible site.libraries (.object (site.members tree)) := by
  have same : site.scope.materialize site.ctx site.libraries site.view scopeKey =
      (site.treeOf row).map site.members >>= fun object => (readObject site.libraries object).map some := by
    rw [CompiledScope.materialize, show site.scope.covered site.ctx scopeKey = some row from found, treeOf]
    cases recursion : site.scope.recursive with
    | none =>
      dsimp only
      cases project site.libraries site.view row with
      | error error => rfl
      | ok object =>
        have own : site.members (.node (row, object) []) = object := by rw [members, recursion, RoseTree.label]
        change _ = (Except.ok (site.members (.node (row, object) [])) >>= _)
        rw [own]
    | some recursive =>
      have own : site.members = render recursive.field := by
        funext tree
        rw [members, recursion]
      dsimp only
      rw [CompiledRecursive.cover_eq, own]
  rw [same]
  cases built : site.treeOf row with
  | error error =>
    apply iff_of_false
    · rintro ⟨_, failed⟩
      cases failed
    · rintro ⟨_, failed, _⟩
      cases failed
  | ok tree =>
    simp only [Except.ok.injEq, exists_eq_left', ← readObject_eq_ok]
    change (∃ json, (readObject site.libraries (site.members tree)).map some = Except.ok (some json)) ↔ _
    cases readObject site.libraries (site.members tree) <;> simp [Except.map]

/-- The view shows a tree exactly when all that it covers can be read. -/
theorem reads_iff {row : Row} (found : site.covered scopeKey = some row) :
    site.Reads scopeKey ↔ ∃ tree, site.Shows scopeKey tree := by
  have shows : (∃ tree, site.Shows scopeKey tree) ↔
      ∃ tree, site.treeOf row = .ok tree ∧ Legible site.libraries (.object (site.members tree)) := by
    constructor
    · rintro ⟨tree, other, json, again, -, done⟩
      exact (materialize_ok found).mp ⟨json, done⟩
    · rintro ⟨tree, built, legible⟩
      obtain ⟨json, done⟩ := (materialize_ok found).mpr ⟨tree, built, legible⟩
      exact ⟨tree, row, json, found, built, done⟩
  rw [shows, Reads]
  simp only [found, Option.some.injEq, forall_eq']
  cases recursion : site.scope.recursive with
  | none =>
    have alone : ∀ object : List (String × J),
        Legible site.libraries (.object object) ↔ ∀ member ∈ object, some member.1 ≠ none →
          Legible site.libraries member.2 := by
      intro object
      rw [legible_object]
      exact forall₂_congr fun member _ => ⟨fun legible _ => legible, fun legible => legible (Option.some_ne_none _)⟩
    simp only [treeOf, members, recursion, shown_eq_ok]
    constructor
    · rintro ⟨object, projected, each⟩
      exact ⟨.node (row, object) [], by rw [projected]; rfl, (alone object).mpr each⟩
    · rintro ⟨tree, built, legible⟩
      cases projected : project site.libraries site.view row with
      | error error =>
        rw [projected] at built
        cases built
      | ok object =>
        rw [projected] at built
        obtain rfl := Except.ok.inj built
        exact ⟨object, rfl, (alone object).mp legible⟩
  | some recursive =>
    simp only [treeOf, members, recursion]
    rw [legible_render, RoseTree.prune_ok_iff]

end Views

section Addresses

variable {site : Site} {scopeKey descendant : List Value}

/-- The covered row is stored in a top-level collection, under the components of the scope. -/
theorem covered_stored {row : Row} (found : site.covered scopeKey = some row) :
    ∃ name first rest, site.scope.collectionPath = [name] ∧ scopeKey = first :: rest ∧
      (∃ declared, site.ctx.package.collectionAtPath [name] = some declared) ∧
      (∃ stored ∈ site.ctx.state.working.rows,
        stored.1.toClass = (CompiledScope.topAddress name ⟨first, rest⟩).toClass) ∧
      ∀ recursive, site.scope.recursive = some recursive →
        Placed site.ctx.state.working recursive.field (CompiledScope.topAddress name ⟨first, rest⟩).toClass
          (subtree recursive.field row) := by
  obtain ⟨name, top⟩ := site.scope.top
  cases scopeKey with
  | nil => cases found
  | cons first rest =>
    rw [covered, CompiledScope.covered, top] at found
    obtain ⟨declared, stored⟩ := stored_of_materializeRowCell found
    refine ⟨name, first, rest, top, rfl, declared, stored, fun recursive recursion => ?_⟩
    exact placed_materializeRowCell site.keys (site.apart recursive recursion _) found

/-- A shown tree has exactly the paths of included rows. -/
theorem shows_trail {tree : RoseTree (Row × List (String × J))} (shows : site.Shows scopeKey tree)
    {rows : List Row} :
    (∃ images, tree.trail (fun label key => keyed label.1 key) descendant = some images ∧
        rows = images.map Prod.fst) ↔ site.Admits scopeKey descendant rows := by
  obtain ⟨row, json, found, built, -⟩ := shows
  obtain ⟨name, first, rest, -, rfl, -, -, placed⟩ := covered_stored found
  rw [treeOf] at built
  cases recursion : site.scope.recursive with
  | none =>
    rw [recursion] at built
    dsimp only at built
    cases projected : project site.libraries site.view row with
    | error error =>
      rw [projected] at built
      cases built
    | ok object =>
      rw [projected] at built
      obtain rfl := Except.ok.inj built
      cases descendant with
      | nil =>
        constructor
        · rintro ⟨images, path, rfl⟩
          obtain rfl := Option.some.inj path
          exact ⟨row, found, .inl ⟨rfl, rfl⟩⟩
        · rintro ⟨other, -, ⟨-, rfl⟩ | ⟨recursive, some, -⟩⟩
          · exact ⟨[], rfl, rfl⟩
          · rw [recursion] at some
            cases some
      | cons component others =>
        refine iff_of_false (fun ⟨_, path, _⟩ => by cases path) ?_
        rintro ⟨other, -, ⟨none, -⟩ | ⟨recursive, some, -⟩⟩
        · cases none
        · rw [recursion] at some
          cases some
  | some recursive =>
    rw [recursion] at built
    rw [RoseTree.trail_prune (placed recursive recursion).distinct built]
    constructor
    · rintro ⟨path, passes⟩
      exact ⟨row, found, .inr ⟨recursive, recursion, path, passes⟩⟩
    · rintro ⟨other, again, ⟨rfl, rfl⟩ | ⟨also, some, path, passes⟩⟩
      · exact ⟨rfl, fun _ inside => absurd inside List.not_mem_nil⟩
      · obtain rfl := Option.some.inj (found.symm.trans again)
        obtain rfl := Option.some.inj (recursion.symm.trans some)
        exact ⟨path, passes⟩

theorem length_of_trail {same : Row → Value → Bool} {path : List Value} {tree : RoseTree Row} {rows : List Row}
    (found : tree.trail same path = some rows) : rows.length = path.length := by
  induction path generalizing tree rows with
  | nil =>
    obtain rfl := Option.some.inj found
    rfl
  | cons key rest ih =>
    obtain ⟨child, -, deeper, below, rfl⟩ := RoseTree.trail_cons.mp found
    rw [List.length_cons, ih below, List.length_cons]

theorem length_of_admits {rows : List Row} (admits : site.Admits scopeKey descendant rows) :
    rows.length = descendant.length := by
  obtain ⟨row, -, ⟨rfl, rfl⟩ | ⟨recursive, -, path, -⟩⟩ := admits
  · rfl
  · exact length_of_trail path

/-- Rows whose keys have together no more components than there are rows have lone keys. -/
theorem lone_of_sum_le {rows : List Row}
    (bound : (rows.map fun row => (keyValueOf row.key).components.length).sum ≤ rows.length) :
    ∀ row ∈ rows, (keyValueOf row.key).rest = [] := by
  intro row inside
  have one := eq_one_of_sum_le (fun row _ => Nat.le_add_left 1 (keyValueOf row.key).rest.length) bound row inside
  exact List.length_eq_zero_iff.mp (Nat.succ.inj one)

/-- The row at the end of an included path is stored. -/
theorem stored_of_admits {rows : List Row} (admits : site.Admits scopeKey descendant rows) {address : RowAddress}
    (top : site.scopeAddress scopeKey = some address) :
    (site.ctx.state.working.get (addressBelow site.field address rows)).isSome := by
  obtain ⟨row, found, path⟩ := admits
  obtain ⟨name, first, rest, named, rfl, -, stored, placed⟩ := covered_stored found
  rw [scopeAddress, named] at top
  obtain rfl := Option.some.inj top
  obtain ⟨held, inside, same⟩ : ∃ held ∈ site.ctx.state.working.rows, held.1.toClass =
      addressBelow site.field (CompiledScope.topAddress name ⟨first, rest⟩).toClass rows := by
    rcases path with ⟨-, rfl⟩ | ⟨recursive, recursion, path, -⟩
    · exact stored
    · rw [field, recursion]
      exact stored_addressBelow (placed recursive recursion) path
  rw [Working.get, Option.isSome_map, List.find?_isSome]
  exact ⟨held, inside, decide_eq_true same⟩

/-- An included path of lone keys addresses its row. -/
theorem operands_of_lone {rows : List Row} (admits : site.Admits scopeKey descendant rows)
    (lone : ∀ row ∈ rows, (keyValueOf row.key).rest = []) {address : RowAddress}
    (top : site.scopeAddress scopeKey = some address) {receiver : ScopedReceiver}
    (resolved : receiver = ⟨site.scope.collectionPath ++ List.replicate descendant.length site.field,
      scopeKey ++ descendant⟩) :
    receiverOperands site.ctx.package.toSchema receiver =
      .ok [⟨addressBelow site.field address rows, receiver.path⟩] := by
  obtain ⟨row, found, path⟩ := admits
  obtain ⟨name, first, rest, named, rfl, ⟨declared, declaration⟩, ⟨stored, inside, same⟩, placed⟩ :=
    covered_stored found
  rw [scopeAddress, named] at top
  obtain rfl := Option.some.inj top
  have below : descendOperand site.ctx.package.toSchema [name] (List.replicate descendant.length site.field)
      (some (CompiledScope.topAddress name ⟨first, rest⟩).toClass) descendant =
        .ok (some (addressBelow site.field (CompiledScope.topAddress name ⟨first, rest⟩).toClass rows), []) := by
    rcases path with ⟨rfl, rfl⟩ | ⟨recursive, recursion, path, -⟩
    · rfl
    · rw [field, recursion]
      exact descend_lone site.keys (placed recursive recursion) path lone
  have arity : ((site.ctx.package.toSchema.collectionAt ([] ++ [name])).map fun collection =>
      max collection.key.length 1).getD 1 = (first :: rest).length := by
    obtain ⟨compiled, listed, key⟩ := site.ctx.package.exists_collectionAt declaration
    have count := site.keys.arity stored inside declared (by rw [same]; exact declaration)
    have own := congrArg (fun address => address.last.key.components.length) same
    rw [Address.last_toClass, Step.toClass, KeyValue.components_toClass, List.length_map, count, ← key] at own
    have size : (CompiledScope.topAddress name ⟨first, rest⟩).toClass.last.key.components.length =
        (first :: rest).length := by
      rw [Address.last_toClass, CompiledScope.topAddress, Step.toClass, KeyValue.components_toClass, List.length_map]
      rfl
    rw [List.nil_append, listed, Option.map_some, Option.getD_some, own, size]
    exact max_eq_left (Nat.le_add_left 1 _)
  have one : oneReceiverOperand site.ctx.package.toSchema receiver.path receiver.key =
      .ok (⟨addressBelow site.field (CompiledScope.topAddress name ⟨first, rest⟩).toClass rows, receiver.path⟩, []) := by
    rw [resolved, named, oneReceiverOperand, List.singleton_append, descendOperand]
    simp only [arity]
    rw [if_neg (by rw [List.length_append]; omega), List.take_left, List.drop_left]
    exact congrArg (fun result => result >>= _) below
  rw [resolved] at one ⊢
  dsimp only at one ⊢
  rw [receiverOperands, List.cons_append, List.isEmpty_cons, if_neg Bool.false_ne_true, List.length_cons,
    operandsFrom]
  · rw [List.cons_append] at one
    rw [one]
    change (operandsFrom _ _ _ [] >>= fun others => pure (_ :: others)) = _
    rw [operandsFrom]
    rfl
  · exact fun none => List.cons_ne_nil _ _ none

/-- The addressing of a scope agrees with its view on a path exactly when the rows of the path being included
means that the view reads and that each of these rows has a key of one component. -/
theorem agrees_iff (site : Site) (scopeKey descendant : List Value) :
    site.Agrees scopeKey descendant ↔ ∀ rows, site.Admits scopeKey descendant rows →
      site.Reads scopeKey ∧ ∀ row ∈ rows, (keyValueOf row.key).rest = [] := by
  constructor
  · intro agrees rows admits
    have resolved := resolves_iff.mpr ⟨⟨rows, admits⟩, rfl⟩
    obtain ⟨row, found, path⟩ := admits
    obtain ⟨tree, images, shows, -⟩ := agrees.visible.mp ⟨_, resolved⟩
    refine ⟨(reads_iff found).mpr ⟨tree, shows⟩, ?_⟩
    obtain ⟨name, first, rest, named, rfl, -⟩ := covered_stored found
    have top : site.scopeAddress (first :: rest) = some (CompiledScope.topAddress name ⟨first, rest⟩).toClass := by
      rw [scopeAddress, named]
      rfl
    have operands := (agrees.addressed _ rows _ resolved ⟨row, found, path⟩ top).2
    have count := components_le_of_operands operands
    rw [components_addressBelow, List.length_append, ← length_of_admits ⟨row, found, path⟩] at count
    have base : (CompiledScope.topAddress name ⟨first, rest⟩).toClass.components.length = (first :: rest).length := by
      rw [RowAddress.components, CompiledScope.topAddress]
      simp [Address.toClass, RowAddress.steps, Step.toClass, KeyValue.components_toClass, KeyValue.components]
    rw [base] at count
    exact lone_of_sum_le (Nat.le_of_add_le_add_left count)
  · intro holds
    constructor
    · constructor
      · rintro ⟨receiver, resolved⟩
        obtain ⟨⟨rows, admits⟩, -⟩ := resolves_iff.mp resolved
        obtain ⟨row, found, path⟩ := admits
        obtain ⟨tree, shows⟩ := (reads_iff found).mp (holds rows ⟨row, found, path⟩).1
        obtain ⟨images, trail, -⟩ := (shows_trail shows).mpr ⟨row, found, path⟩
        exact ⟨tree, images, shows, trail⟩
      · rintro ⟨tree, images, shows, trail⟩
        have admits := (shows_trail shows).mp ⟨images, trail, rfl⟩
        exact ⟨_, resolves_iff.mpr ⟨⟨_, admits⟩, rfl⟩⟩
    · intro receiver rows address resolved admits top
      exact ⟨stored_of_admits admits top,
        operands_of_lone admits (holds rows admits).2 top (resolves_iff.mp resolved).2⟩

end Addresses

end Site

section Disagreement

namespace Sample

/-- A company has a key of one text, and a subcompany has a key of two. -/
def package : Package where
  root := [("companies", .collection (.mk "companies" ["id"]
    [("id", .plain), ("subcompanies", .collection
      (.mk "companies/subcompanies" ["region", "code"] [("region", .plain), ("code", .plain)]))]))]
  types := []
  names := by decide
  members := by simp [Node.Distinct, Collection.Distinct, distinctMembers, distinctMember]
  adopted := fun _ inside => absurd inside List.not_mem_nil
  reserved := by decide

def company : Reading.Address :=
  ⟨⟨"companies", ⟨.text "a", []⟩⟩, []⟩

def subcompany : Reading.Address :=
  ⟨⟨"companies", ⟨.text "a", []⟩⟩, [⟨"subcompanies", ⟨.text "eu", [.text "x"]⟩⟩]⟩

/-- One company with one subcompany. -/
def working : Working where
  rows := [(company, ∅), (subcompany, ∅)]
  ascending := by decide +kernel

def ctx : EvalCtx where
  package := package
  computed := ⟨[], [], [], []⟩
  state := ⟨working, ∅⟩
  temporal := ⟨fun _ _ _ => true, fun _ _ _ => none⟩
  root := .of [] .none []
  extras := fun _ => []

/-- A surface of a company that covers all its subcompanies. -/
def site : Site where
  ctx := ctx
  libraries := Wire.Sample.libraries
  scope := ⟨["companies"], some ⟨"subcompanies", "child", none, none⟩, ⟨_, rfl⟩⟩
  view := fun current _ => .ok current
  keys := by
    constructor
    · simp only [ctx, working, List.forall_mem_cons]
      refine ⟨?_, ?_, fun _ inside => absurd inside List.not_mem_nil⟩ <;>
      · intro collection found
        cases found
        rfl
    · simp only [ctx, working, List.forall_mem_cons]
      refine ⟨?_, ?_, fun _ inside => absurd inside List.not_mem_nil⟩
      · intro _ components same
        cases same
      · intro none
        cases none
  apart := fun _ _ _ _ inside => absurd inside List.not_mem_nil

end Sample

/-- A path to a subcompany resolves, and a call cannot use the receiver. -/
theorem composite_child_disagrees :
    ¬Sample.site.Agrees [.text "a"] [.composite [.text "eu", .text "x"]] := by
  intro agrees
  have found : (Sample.site.scope.resolveReceiver Sample.site.ctx [.text "a"]
      [.composite [.text "eu", .text "x"]]).toOption.join.isSome = true := by
    decide +kernel
  obtain ⟨receiver, resolved⟩ := Option.isSome_iff_exists.mp found
  have resolved : Sample.site.resolves [.text "a"] [.composite [.text "eu", .text "x"]] receiver := by
    rw [Site.resolves]
    generalize Sample.site.scope.resolveReceiver Sample.site.ctx [.text "a"]
      [.composite [.text "eu", .text "x"]] = result at resolved
    cases result with
    | error error => cases resolved
    | ok result => exact congrArg Except.ok resolved
  obtain ⟨⟨rows, admits⟩, rfl⟩ := Site.resolves_iff.mp resolved
  have operands := (agrees.addressed _ rows _ resolved admits rfl).2
  have failed : (receiverOperands Sample.site.ctx.package.toSchema
      ⟨["companies", "subcompanies"], [.text "a", .composite [.text "eu", .text "x"]]⟩).toOption.isSome = false := by
    decide +kernel
  have done := congrArg (fun result => result.toOption.isSome) operands
  exact Bool.false_ne_true (failed.symm.trans done)

end Disagreement

end Liasse.Coverage

/-
This file proves that each space is folded into the row that contains it. The path of a space spells the collection,
the key text of the row and the name of the space.
-/

import Liasse.Modules.Routing

namespace Liasse.Modules

open Codes Liasse.Host
open Liasse.Expr (Row Cell)

section Paths

namespace ModuleSpace

/-- The components of a space are the parts of its path. -/
theorem components_eq_iff {space : ModuleSpace} {parts : List String} (some : parts ≠ [])
    (clean : ∀ part ∈ parts, '/' ∉ part.toList) :
    space.components = parts ↔ space.path.toList = '/' :: ['/'].intercalate (parts.map String.toList) := by
  obtain ⟨path, components, mounted⟩ := space
  rw [mountComponents] at mounted
  split at mounted
  · next body spelled =>
      dsimp only at mounted ⊢
      split at mounted
      · cases mounted
      · obtain rfl := Option.some.inj mounted
        rw [spelled, List.cons.injEq, eq_self_iff_true, true_and]
        have split : (['/'].intercalate (parts.map String.toList)).splitOn '/' = parts.map String.toList := by
          refine List.splitOn_intercalate '/' ?_ (List.map_eq_nil_iff.not.mpr some)
          rintro chars inside
          obtain ⟨part, member, rfl⟩ := List.mem_map.mp inside
          exact clean part member
        constructor
        · rintro rfl
          rw [List.map_map]
          simp only [Function.comp_def, String.toList_ofList, List.map_id']
          exact (List.intercalate_splitOn '/').symm
        · rintro rfl
          rw [split, List.map_map]
          simp only [Function.comp_def, String.ofList_toList, List.map_id']
  · cases mounted

theorem evenMembers_eq_nil {members : List String} : evenMembers members = [] ↔ members = [] := by
  match members with
  | [] => exact Iff.rfl
  | [_] => exact iff_of_false (List.cons_ne_nil _ _) (List.cons_ne_nil _ _)
  | _ :: _ :: _ => exact iff_of_false (List.cons_ne_nil _ _) (List.cons_ne_nil _ _)

/-- The components of a space below one row are its collection, the key text and its name. -/
theorem components_of_row {space : ModuleSpace} {collection key member : String} :
    space.components = [collection, key, member] ↔
      space.declarationPath = [collection, member] ∧ space.containingRowSteps = some [(collection, key)] := by
  rw [declarationPath, containingRowSteps]
  generalize space.components = components
  match components with
  | [] => simp [evenMembers]
  | [_] => simp [evenMembers]
  | [_, _] => simp [evenMembers]
  | [_, _, _] =>
    simp only [evenMembers, pairs, List.dropLast, List.length_cons, List.length_nil, List.cons.injEq, and_true,
      ite_not]
    grind
  | [_, _, _, _] => simp [evenMembers]
  | _ :: _ :: _ :: _ :: _ :: _ => simp [evenMembers, evenMembers_eq_nil]

/-- A space of the root has its name as its only component. -/
theorem components_of_root {space : ModuleSpace} {member : String} :
    space.components = [member] ↔ space.declarationPath = [member] ∧ space.containingRowSteps = some [] := by
  rw [declarationPath, containingRowSteps]
  generalize space.components = components
  match components with
  | [] => simp [evenMembers]
  | [_] => simp [evenMembers, pairs]
  | [_, _] => simp [evenMembers]
  | _ :: _ :: _ :: _ => simp [evenMembers, evenMembers_eq_nil]

end ModuleSpace

end Paths

section Snapshots

variable {S M P : Type} [InstanceStore S M] [Package M] {services : Services S M P}

namespace ModuleHost

variable (host : ModuleHost services)

/-- An entry of a snapshot has the name of its instance and the rows of its active interfaces. -/
def Aggregates (child : Child S M P) (inst : AggregatedInstance) : Prop :=
  child.name = inst.name ∧ ∃ bound,
    host.childImports child.space child.bindings child.resolvedPeers = .ok bound ∧
    host.interfaceSnapshot child bound (Package.interfaceNames child.engine.model) = .ok inst.interfaces

/-- The enabled instances of the spaces that a property selects. -/
def installed (selects : ModuleSpace → Bool) : List (Child S M P) :=
  host.children.filter fun child => child.enabled && selects child.space

variable {host}

/-- Some instances join the snapshot behind the entries of their paths. -/
theorem snapshot_of_joined {children : List (Child S M P)}
    {before spaces : Std.ExtTreeMap String (List AggregatedInstance) compare}
    (joined : children.foldlM host.joinSnapshot before = .ok spaces) (path : String) :
    ∃ added, spaces[path]?.getD [] = before[path]?.getD [] ++ added ∧
      List.Forall₂ host.Aggregates (children.filter fun child => child.space.path = path) added := by
  induction children generalizing before with
  | nil =>
    obtain rfl := Except.ok.inj joined
    exact ⟨[], (List.append_nil _).symm, .nil⟩
  | cons child rest ih =>
    rw [List.foldlM_cons] at joined
    obtain ⟨next, first, joined⟩ := bind_ok.mp joined
    obtain ⟨bound, imports, first⟩ := bind_ok.mp first
    obtain ⟨interfaces, snapshot, first⟩ := bind_ok.mp first
    obtain rfl := Except.ok.inj first
    obtain ⟨added, grown, aggregates⟩ := ih joined
    by_cases here : child.space.path = path
    · subst here
      rw [Std.ExtTreeMap.getElem?_insert_self, Option.getD_some, List.append_assoc] at grown
      refine ⟨_, grown, ?_⟩
      rw [List.filter_cons, if_pos (decide_eq_true rfl)]
      exact .cons ⟨rfl, bound, imports, snapshot⟩ aggregates
    · rw [getElem?_insert_of_ne (Ne.symm here)] at grown
      refine ⟨added, grown, ?_⟩
      rwa [List.filter_cons, if_neg (mt of_decide_eq_true here)]

/-- The entries of a path are those of the enabled instances of its spaces. -/
theorem snapshot_at {spaces : Std.ExtTreeMap String (List AggregatedInstance) compare}
    (taken : host.aggregateSnapshot = .ok spaces) (path : String) :
    List.Forall₂ host.Aggregates (host.installed fun space => space.path = path) (spaces[path]?.getD []) := by
  obtain ⟨added, grown, aggregates⟩ := snapshot_of_joined taken path
  rw [grown, Std.ExtTreeMap.getElem?_empty, Option.getD_none, List.nil_append, installed, List.filter_filter] at *
  simpa only [Bool.and_comm] using aggregates

end ModuleHost

end Snapshots

section Folds

variable {libraries : Wire.Libraries} {spaces : Std.ExtTreeMap String (List AggregatedInstance) compare}

/-- Every row of a collection has its space below it. -/
def Injected (libraries : Wire.Libraries) (spaces : Std.ExtTreeMap String (List AggregatedInstance) compare)
    (collection member : String) (root : Row) : Prop :=
  ∀ rows, root.cell collection = some (.collection rows) → ∀ row ∈ rows, ∀ key,
    keyText libraries row.key = .ok key → row.cell member = some (spaceCell spaces s!"/{collection}/{key}/{member}")

theorem key_injectRow (collection member : String) (row : Row) :
    (injectRow libraries spaces collection member row).key = row.key := by
  rw [injectRow]
  cases keyText libraries row.key with
  | error error => rfl
  | ok key => exact Row.set_key _ _ _

theorem injected_own (collection member : String) (root : Row) :
    Injected libraries spaces collection member (injectSpace libraries spaces root [collection, member]) := by
  intro rows read row inside key text
  rw [injectSpace] at read
  split at read
  · next before found =>
      rw [Row.cell_set, Option.some.injEq, Cell.collection.injEq] at read
      subst read
      obtain ⟨source, -, rfl⟩ := List.mem_map.mp inside
      rw [key_injectRow] at text
      rw [injectRow, text]
      exact Row.cell_set _ _ _
  · next other => exact absurd read (other rows)

theorem injected_other {collection member : String} {path : List String} {root : Row}
    (outer : path ≠ [collection]) (different : path ≠ [collection, member])
    (injected : Injected libraries spaces collection member root) :
    Injected libraries spaces collection member (injectSpace libraries spaces root path) := by
  intro rows read row inside key text
  match path with
  | [] => exact injected rows read row inside key text
  | [name] =>
    have apart : collection ≠ name := fun same => outer (by rw [same])
    rw [injectSpace, Row.cell_set_of_ne _ _ apart] at read
    exact injected rows read row inside key text
  | [first, second] =>
    rw [injectSpace] at read
    split at read
    · next before found =>
        by_cases same : collection = first
        · subst same
          rw [Row.cell_set, Option.some.injEq, Cell.collection.injEq] at read
          subst read
          obtain ⟨source, present, rfl⟩ := List.mem_map.mp inside
          rw [key_injectRow] at text
          have kept := injected before found source present key text
          have apart : member ≠ second := fun same => different (by rw [same])
          rwa [injectRow, text, Row.cell_set_of_ne _ _ apart]
        · rw [Row.cell_set_of_ne _ _ same] at read
          exact injected rows read row inside key text
    · exact injected rows read row inside key text
  | _ :: _ :: _ :: _ => exact injected rows read row inside key text

theorem cell_injectSpace_of_ne {member : String} {path : List String} {root : Row} (different : path ≠ [member])
    (outer : ∀ name, path ≠ [member, name]) :
    (injectSpace libraries spaces root path).cell member = root.cell member := by
  match path with
  | [] => rfl
  | [name] => exact Row.cell_set_of_ne _ _ fun same => different (by rw [same])
  | [first, second] =>
    rw [injectSpace]
    split
    · exact Row.cell_set_of_ne _ _ fun same => outer second (by rw [same])
    · rfl
  | _ :: _ :: _ :: _ => rfl

variable {S M P : Type} [InstanceStore S M] [Package M] {router : Router S M P}

namespace ModuleHost

/-- A row has the instances of some spaces below it. -/
def Shows (host : ModuleHost router.toServices) (selects : ModuleSpace → Bool) (row : Row) (member : String) :
    Prop :=
  ∃ instances, row.cell member = some (.collection (instances.map instanceRow)) ∧
    List.Forall₂ host.Aggregates (host.installed selects) instances

/-- Each declared space is folded into the row that contains it, and a row shows the instances of its own space. -/
structure FoldsInPlace (host : ModuleHost router.toServices)
    (spaces : Std.ExtTreeMap String (List AggregatedInstance) compare) (top : Row) : Prop where
  root : ∀ member, [member] ∈ router.moduleSpaces host.root →
    host.Shows (fun space => space.declarationPath = [member] ∧ space.containingRowSteps = some [])
      (foldInto router.libraries spaces top (router.moduleSpaces host.root)) member
  rows : ∀ collection member, [collection, member] ∈ router.moduleSpaces host.root → ∀ rows,
    (foldInto router.libraries spaces top (router.moduleSpaces host.root)).cell collection =
      some (.collection rows) →
    ∀ row ∈ rows, ∀ key, keyText router.libraries row.key = .ok key →
      host.Shows (fun space => space.declarationPath = [collection, member] ∧
        space.containingRowSteps = some [(collection, key)]) row member

theorem path_eq_row {space : ModuleSpace} {collection key member : String}
    (clean : ∀ part ∈ [collection, key, member], '/' ∉ part.toList) :
    space.path = s!"/{collection}/{key}/{member}" ↔
      space.declarationPath = [collection, member] ∧ space.containingRowSteps = some [(collection, key)] := by
  rw [← ModuleSpace.components_of_row, ModuleSpace.components_eq_iff (List.cons_ne_nil _ _) clean,
    ← String.toList_inj]
  simp [List.intercalate, List.intersperse, toString]

theorem path_eq_root {space : ModuleSpace} {member : String} (clean : '/' ∉ member.toList) :
    space.path = s!"/{member}" ↔
      space.declarationPath = [member] ∧ space.containingRowSteps = some [] := by
  rw [← ModuleSpace.components_of_root, ModuleSpace.components_eq_iff (List.cons_ne_nil _ _)
    (List.forall_mem_singleton.mpr clean), ← String.toList_inj]
  simp [List.intercalate, toString]

theorem shows_of_path {host : ModuleHost router.toServices}
    {spaces : Std.ExtTreeMap String (List AggregatedInstance) compare} (taken : host.aggregateSnapshot = .ok spaces)
    {selects : ModuleSpace → Prop} [DecidablePred selects] {path : String}
    (same : ∀ space : ModuleSpace, space.path = path ↔ selects space) {row : Row} {member : String}
    (cell : row.cell member = some (spaceCell spaces path)) : host.Shows (fun space => selects space) row member := by
  refine ⟨_, cell, ?_⟩
  have selected : (fun space : ModuleSpace => decide (selects space)) = fun space => decide (space.path = path) := by
    funext space
    exact decide_eq_decide.mpr (same space).symm
  rw [selected]
  exact snapshot_at taken path

/-- The spaces are folded into the rows that contain them. -/
theorem foldsInPlace {host : ModuleHost router.toServices}
    {spaces : Std.ExtTreeMap String (List AggregatedInstance) compare} (taken : host.aggregateSnapshot = .ok spaces)
    (top : Row) : host.FoldsInPlace spaces top where
  root member declared := by
    have clean := (router.named host.root _ declared member (List.mem_singleton_self _)).2
    refine shows_of_path taken (fun space => path_eq_root clean) ?_
    refine foldl_establishes (fun root : Row => root.cell member = some (spaceCell spaces s!"/{member}")) declared
      (fun root => Row.cell_set _ _ _) (fun path listed different root held => ?_) top
    rw [cell_injectSpace_of_ne different fun name same => ?_]
    · exact held
    · exact router.apart host.root member name (same ▸ listed) declared
  rows collection member declared rows read row inside key text := by
    have names := router.named host.root _ declared
    refine shows_of_path taken (fun space => path_eq_row ?_) ?_
    · intro part listed
      rcases List.mem_cons.mp listed with rfl | listed
      · exact (names _ List.mem_cons_self).2
      · rcases List.mem_cons.mp listed with rfl | listed
        · exact not_separator_mem_keyText router.libraries text
        · exact (names part (List.mem_cons_of_mem _ listed)).2
    · have injected : Injected router.libraries spaces collection member
          (foldInto router.libraries spaces top (router.moduleSpaces host.root)) :=
        foldl_establishes _ declared (injected_own collection member) (fun path listed different root held =>
          injected_other (fun outer => router.apart host.root collection member declared (outer ▸ listed)) different
            held) top
      exact injected rows read row inside key text

end ModuleHost

end Folds

end Liasse.Modules

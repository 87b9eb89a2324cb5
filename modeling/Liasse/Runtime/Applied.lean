/-
This file models the deletion graph of the live rows, whose edges are the references that they hold.
-/

import Liasse.Runtime.Closure
import Liasse.Runtime.Leaf
import Liasse.Runtime.Planning
import Liasse.Runtime.State

namespace Liasse.Runtime

open Store

/-- The results of a loop that can fail, one after the other. -/
def gatherAll {α β : Type} (step : α → Except Rejection (List β)) : List α → Except Rejection (List β)
  | [] => .ok []
  | first :: rest =>
    step first >>= fun found => gatherAll step rest >>= fun others => .ok (found ++ others)

namespace Cascade

/-- The identity of a row of a top-level collection. -/
def rowRef (name : String) (address : RowAddress) : RowRef :=
  ⟨[name], keyIdentity address.last.key⟩

/-- The key that the value of a reference field points at. -/
def refKey : Value → Option ValueClass
  | .ref (.scalar key) => some (.of key)
  | .ref (.composite components) => some (.of (.composite components))
  | _ => none

/-- The live address of a row of a top-level collection. -/
def addressOf (compiled : Compiled) (rows : Rows) (row : RowRef) : Option RowAddress :=
  match row.collection with
  | [name] =>
    match compiled.collection name with
    | some collection =>
      (Prospective.addressesIn rows (.top name)).find? fun address =>
        identityOf collection.key address.last.key.components = row.key
    | none => none
  | _ => none

/-- The policy of a scalar reference. A patch needs both rows. -/
def resolvePolicy (compiled : Compiled) (ctx : EvalCtx) (rows : Rows) (policy : OnDelete)
    (source target : RowRef) : Except Rejection (Option DeletePolicy) :=
  match policy with
  | .undecided => .ok (some .undecided)
  | .restrict => .ok (some .restrict)
  | .cascade => .ok (some .cascade)
  | .clear => .ok (some .clear)
  | .patch assignments =>
    match addressOf compiled rows source, addressOf compiled rows target with
    | some referencing, some deleted =>
      assignments ctx rows referencing deleted >>= fun assigned =>
        .ok (some (.patch (assigned.map fun entry => (⟨[], entry.1⟩, entry.2))))
    | _, _ => .ok none

/-- The policy of a member of a set of references. -/
def resolveMemberPolicy (compiled : Compiled) (ctx : EvalCtx) (rows : Rows) (policy : OnDelete)
    (source target : RowRef) (member : Value) : Except Rejection (Option DeletePolicy) :=
  match policy with
  | .cascade | .clear => .ok (some (.dropMember member))
  | _ => resolvePolicy compiled ctx rows policy source target

/-- The change of one field inside the static structs of the referencing row. -/
def nestedLeafPatch (compiled : Compiled) (rows : Rows) (source : RowRef) (site : RefSite)
    (transform : Value → Value) : Option DeletePolicy :=
  match addressOf compiled rows source with
  | some address =>
    match rows[address]? with
    | some fields =>
      some (.patch [(⟨site.container, site.field.name⟩,
        transform ((site.value fields).getD .none))])
    | none => none
  | none => none

/-- The policy of a reference inside static structs. -/
def nestedScalarPolicy (compiled : Compiled) (ctx : EvalCtx) (rows : Rows) (policy : OnDelete)
    (source target : RowRef) (site : RefSite) : Except Rejection (Option DeletePolicy) :=
  match policy with
  | .clear => .ok (nestedLeafPatch compiled rows source site fun _ => .none)
  | _ => resolvePolicy compiled ctx rows policy source target

/-- A set without a member. -/
def dropMember (member : Value) : Value → Value
  | .set members => .set (members.filter fun other => ¬ (other == member) = true)
  | other => other

/-- The policy of a member of a set of references inside static structs. -/
def nestedMemberPolicy (compiled : Compiled) (ctx : EvalCtx) (rows : Rows) (policy : OnDelete)
    (source target : RowRef) (member : Value) (site : RefSite) :
    Except Rejection (Option DeletePolicy) :=
  match policy with
  | .cascade | .clear => .ok (nestedLeafPatch compiled rows source site (dropMember member))
  | _ => resolvePolicy compiled ctx rows policy source target

/-- The edge of a resolved policy. -/
def edge (source target : RowRef) (site : RefSite) : Option DeletePolicy → List RefEdge
  | some policy => [⟨source, site.displayName, target, policy⟩]
  | none => []

/-- The edges of a scalar reference. -/
def scalarEdges (compiled : Compiled) (ctx : EvalCtx) (rows : Rows) (source : RowRef)
    (fields : FieldMap) (site : RefSite) : Except Rejection (List RefEdge) :=
  match site.field.reference, (site.value fields).bind refKey with
  | some info, some key =>
    let target : RowRef := ⟨info.target, key⟩
    (if site.container = [] then resolvePolicy compiled ctx rows info.onDelete source target
      else nestedScalarPolicy compiled ctx rows info.onDelete source target site) >>= fun policy =>
    .ok (edge source target site policy)
  | _, _ => .ok []

/-- The edges of one member of a set of references. -/
def memberEdges (compiled : Compiled) (ctx : EvalCtx) (rows : Rows) (source : RowRef)
    (site : RefSite) (info : RefInfo) (member : Value) : Except Rejection (List RefEdge) :=
  match refKey member with
  | some key =>
    let target : RowRef := ⟨info.target, key⟩
    (if site.container = [] then
      resolveMemberPolicy compiled ctx rows info.onDelete source target member
      else nestedMemberPolicy compiled ctx rows info.onDelete source target member site) >>=
    fun policy => .ok (edge source target site policy)
  | none => .ok []

/-- The edges of a reference field. A scalar reference without an edge ends the field. -/
def siteEdges (compiled : Compiled) (ctx : EvalCtx) (rows : Rows) (source : RowRef)
    (fields : FieldMap) (site : RefSite) : Except Rejection (List RefEdge) :=
  scalarEdges compiled ctx rows source fields site >>= fun scalar =>
  if site.field.reference.isSome && scalar.isEmpty then .ok scalar
  else
    match site.field.elementReference, site.value fields with
    | some info, some (.set members) =>
      gatherAll (memberEdges compiled ctx rows source site info) members >>= fun others =>
        .ok (scalar ++ others)
    | _, _ => .ok scalar

/-- The edges of a row. -/
def rowEdges (compiled : Compiled) (ctx : EvalCtx) (rows : Rows) (collection : CompiledCollection)
    (address : RowAddress) : Except Rejection (List RefEdge) :=
  match rows[address]? with
  | some fields =>
    gatherAll (siteEdges compiled ctx rows (rowRef collection.name address) fields)
      (refSites collection)
  | none => .ok []

/-- The edges of a collection. -/
def collectionEdges (compiled : Compiled) (ctx : EvalCtx) (rows : Rows)
    (collection : CompiledCollection) : Except Rejection (List RefEdge) :=
  gatherAll (rowEdges compiled ctx rows collection)
    (Prospective.addressesIn rows (.top collection.name))

end Cascade

end Liasse.Runtime

namespace Liasse.Runtime.Graph

open Store

section Application

/-- The rows of a deletion graph. -/
abbrev Nodes := Std.ExtTreeMap RowRef FieldMap compare

/-- A patch writes its values in the order of their addresses. -/
def patchFields (patch : Std.ExtTreeMap FieldPath Value compare) (fields : FieldMap) : FieldMap :=
  patch.toList.foldl (fun fields entry => entry.1.writeInto fields entry.2) fields

/-- A set without some members. -/
def removeMembers (members : List Value) (value : Value) : Value :=
  members.foldl (fun value member => Cascade.dropMember member value) value

/-- The sets of a row lose their dropped members. -/
def dropFields (removals : Std.ExtTreeMap String (List Value) compareText) (fields : FieldMap) : FieldMap :=
  removals.toList.foldl (fun fields entry => fields.modify entry.1 (removeMembers entry.2)) fields

/-- The rows after a plan: the removed rows go, then the patches apply, then the sets lose their dropped
members. -/
def apply (rows : Nodes) (plan : DeletionPlan) : Nodes :=
  let kept := plan.deletes.foldl (fun rows row => rows.erase row) rows
  let patched := plan.patches.toList.foldl (fun rows entry => rows.modify entry.1 (patchFields entry.2)) kept
  plan.memberRemovals.toList.foldl (fun rows entry => rows.modify entry.1 (dropFields entry.2)) patched

theorem getElem?_foldl_erase (deletes : List RowRef) (rows : Nodes) (row : RowRef) :
    (deletes.foldl (fun rows row => rows.erase row) rows)[row]? =
      if row ∈ deletes then none else rows[row]? := by
  induction deletes generalizing rows with
  | nil => rfl
  | cons first rest earlier =>
    rw [List.foldl_cons, earlier]
    by_cases later : row ∈ rest
    · rw [if_pos later, if_pos (List.mem_cons_of_mem _ later)]
    · rw [if_neg later]
      by_cases same : row = first
      · subst same
        rw [if_pos List.mem_cons_self, Std.ExtTreeMap.getElem?_erase_self]
      · rw [Codes.getElem?_erase_of_ne same, if_neg]
        rw [List.mem_cons, not_or]
        exact ⟨same, later⟩

theorem patchFields_empty (fields : FieldMap) : patchFields ∅ fields = fields := by
  rw [patchFields, show (∅ : Std.ExtTreeMap FieldPath Value compare).toList = [] from rfl, List.foldl_nil]

theorem dropFields_empty (fields : FieldMap) : dropFields ∅ fields = fields := by
  rw [dropFields, show (∅ : Std.ExtTreeMap String (List Value) compareText).toList = [] from rfl,
    List.foldl_nil]

/-- A surviving row gets its patch and loses its dropped members. -/
theorem getElem?_apply (rows : Nodes) (plan : DeletionPlan) (row : RowRef) :
    (apply rows plan)[row]? =
      if row ∈ plan.deletes then none
      else rows[row]?.map fun fields =>
        dropFields (plan.memberRemovals.getD row ∅) (patchFields (plan.patches.getD row ∅) fields) := by
  rw [apply]
  simp only [Codes.getElem?_foldl_modify_getD dropFields_empty,
    Codes.getElem?_foldl_modify_getD patchFields_empty, getElem?_foldl_erase]
  split
  · rfl
  · rw [Option.map_map]
    rfl

end Application

section Patches

/-- Writes apart from a path leave its value. -/
theorem readPath_writes {writes : List (FieldPath × Value)} {path : List String} (fields : FieldMap)
    (apart : ∀ entry ∈ writes, Apart path entry.1.names) :
    readPath (writes.foldl (fun fields entry => entry.1.writeInto fields entry.2) fields) path =
      readPath fields path := by
  induction writes generalizing fields with
  | nil => rfl
  | cons entry rest earlier =>
    obtain ⟨here, later⟩ := List.forall_mem_cons.mp apart
    rw [List.foldl_cons, earlier _ later, readPath_writeInto _ fields entry.2 here]

/-- Writes that are not above a value without fields leave it. -/
theorem readPath_leaf {writes : List (FieldPath × Value)} {path : List String} {fields : FieldMap}
    (leaf : ∀ inner, readPath fields path ≠ some (.struct inner))
    (beside : ∀ entry ∈ writes, Apart path entry.1.names ∨ path <+: entry.1.container) :
    readPath (writes.foldl (fun fields entry => entry.1.writeInto fields entry.2) fields) path =
      readPath fields path := by
  induction writes generalizing fields with
  | nil => rfl
  | cons entry rest earlier =>
    obtain ⟨here, later⟩ := List.forall_mem_cons.mp beside
    have same : readPath (entry.1.writeInto fields entry.2) path = readPath fields path := by
      rcases here with apart | below
      · exact readPath_writeInto _ fields entry.2 apart
      · exact readPath_writeInto_below entry.2 below leaf
    rw [List.foldl_cons, earlier (same ▸ leaf) later, same]

/-- A patch leaves the values at the paths apart from its addresses. -/
theorem readPath_patchFields {patch : Std.ExtTreeMap FieldPath Value compare} {path : List String}
    (fields : FieldMap) (apart : ∀ (place : FieldPath) (value : Value), patch[place]? = some value → Apart path place.names) :
    readPath (patchFields patch fields) path = readPath fields path := by
  apply readPath_writes
  intro entry inside
  exact apart entry.1 entry.2 (Std.ExtTreeMap.mem_toList_iff_getElem?_eq_some.mp inside)

/-- A patch that gives an address a value without fields leaves that value there, or its path does not lead
through structs. -/
theorem readPath_patchFields_leaf {patch : Std.ExtTreeMap FieldPath Value compare} {place : FieldPath}
    {value : Value} (fields : FieldMap) (given : patch[place]? = some value)
    (leaf : ∀ inner, value ≠ .struct inner) :
    ∃ before after, patch.toList = before ++ (place, value) :: after ∧
      readPath (patchFields patch fields) place.names =
        readPath (place.writeInto (before.foldl (fun fields entry => entry.1.writeInto fields entry.2) fields)
          value) place.names := by
  have inside : (place, value) ∈ patch.toList := Std.ExtTreeMap.mem_toList_iff_getElem?_eq_some.mpr given
  obtain ⟨before, after, split⟩ := List.append_of_mem inside
  refine ⟨before, after, split, ?_⟩
  rw [patchFields, split, List.foldl_append, List.foldl_cons]
  have ordered : (before ++ (place, value) :: after).Pairwise fun first second => compare first.1 second.1 = .lt :=
    split ▸ patch.ordered_keys_toList
  have later := (List.pairwise_cons.mp (List.pairwise_append.mp ordered).2.1).1
  apply readPath_leaf
  · intro inner read
    rcases readPath_writeInto_self place _ value with written | ⟨absent, _⟩
    · exact leaf inner (Option.some.inj (written.symm.trans read))
    · rw [absent] at read
      cases read
  · intro entry listed
    have below : compare place entry.1 = .lt := later entry listed
    have different : place ≠ entry.1 := by
      intro same
      rw [← same, Std.ReflOrd.compare_self] at below
      cases below
    rcases FieldPath.beside different with apart | under | above
    · exact .inl apart
    · exact .inr under
    · have reversed := compare_of_above above
      rw [Std.OrientedCmp.gt_of_lt below] at reversed
      cases reversed

/-- A patch whose other addresses are apart from a value replaces it. -/
theorem readPath_patchFields_self {patch : Std.ExtTreeMap FieldPath Value compare} {place : FieldPath}
    {value current : Value} {fields : FieldMap} (given : patch[place]? = some value)
    (leaf : ∀ inner, value ≠ .struct inner) (held : readPath fields place.names = some current)
    (apart : ∀ (other : FieldPath) (more : Value), patch[other]? = some more → other ≠ place →
      Apart place.names other.names) :
    readPath (patchFields patch fields) place.names = some value := by
  obtain ⟨before, after, split, read⟩ := readPath_patchFields_leaf fields given leaf
  have distinct : (before ++ (place, value) :: after).Pairwise fun first second =>
      ¬ compare first.1 second.1 = .eq := split ▸ patch.distinct_keys_toList
  have kept : readPath (before.foldl (fun fields entry => entry.1.writeInto fields entry.2) fields)
      place.names = some current := by
    rw [readPath_writes fields, held]
    intro entry inside
    have listed : entry ∈ patch.toList := split ▸ List.mem_append_left _ inside
    refine apart entry.1 entry.2 (Std.ExtTreeMap.mem_toList_iff_getElem?_eq_some.mp listed) fun same => ?_
    have differs := (List.pairwise_append.mp distinct).2.2 entry inside (place, value) List.mem_cons_self
    exact differs (same ▸ Std.ReflOrd.compare_self)
  rw [read]
  rcases readPath_writeInto_self place _ value with written | ⟨_, absent⟩
  · exact written
  · rw [kept] at absent
    cases absent

/-- A clear address reads none after a patch, or its path does not lead through structs. -/
theorem readPath_patchFields_none {patch : Std.ExtTreeMap FieldPath Value compare} {place : FieldPath}
    (fields : FieldMap) (given : patch[place]? = some .none) :
    readPath (patchFields patch fields) place.names = some .none ∨
      (place.container ≠ [] ∧ readPath (patchFields patch fields) place.names = none) := by
  obtain ⟨before, _, _, read⟩ := readPath_patchFields_leaf fields given fun _ => by simp
  rw [read]
  by_cases top : place.container = []
  · left
    rw [FieldPath.names, FieldPath.writeInto, top, setSiteValue, List.nil_append, readPath,
      Std.ExtTreeMap.getElem?_insert_self]
    rfl
  · rcases readPath_writeInto_self place _ .none with written | ⟨absent, _⟩
    · exact .inl written
    · exact .inr ⟨top, absent⟩

end Patches

section Removals

/-- A set keeps the members that differ from all dropped ones. -/
theorem removeMembers_set (members all : List Value) :
    removeMembers members (.set all) = .set (all.filter fun other => members.all fun member => !(other == member)) := by
  induction members generalizing all with
  | nil =>
    rw [removeMembers, List.foldl_nil]
    simp only [List.all_nil, List.filter_true]
  | cons member rest earlier =>
    rw [removeMembers, List.foldl_cons, Cascade.dropMember]
    refine (earlier _).trans ?_
    rw [List.filter_filter]
    congr 2
    funext other
    rw [List.all_cons, Bool.and_comm]
    congr 1
    cases other == member <;> rfl

/-- The removal of members leaves every value that is no set. -/
theorem removeMembers_other (members : List Value) {value : Value} (other : ∀ all, value ≠ .set all) :
    removeMembers members value = value := by
  induction members with
  | nil => rfl
  | cons member rest earlier =>
    rw [removeMembers, List.foldl_cons, show Cascade.dropMember member value = value from ?_]
    · exact earlier
    · cases value with
      | set all => exact absurd rfl (other all)
      | _ => rfl

theorem getElem?_dropFields (removals : Std.ExtTreeMap String (List Value) compareText) (fields : FieldMap)
    (field : String) :
    (dropFields removals fields)[field]? = fields[field]?.map (removeMembers (removals.getD field [])) := by
  rw [dropFields]
  exact Codes.getElem?_foldl_modify_getD (fun _ => rfl) fields removals field

/-- The removal of members leaves the values at the paths apart from their sets. -/
theorem readPath_dropFields {removals : Std.ExtTreeMap String (List Value) compareText} {path : List String}
    (fields : FieldMap) (apart : ∀ field ∈ removals, Apart path [field]) :
    readPath (dropFields removals fields) path = readPath fields path := by
  cases path with
  | nil => rfl
  | cons name path =>
    have absent : name ∉ removals := fun listed =>
      (apart name listed).2 ((List.prefix_cons_inj name).mpr List.nil_prefix)
    apply readPath_of_head
    rw [getElem?_dropFields, Std.ExtTreeMap.getD_eq_fallback absent]
    exact Option.map_id'

/-- The removal of members leaves the values inside structs. -/
theorem readPath_dropFields_below (removals : Std.ExtTreeMap String (List Value) compareText) (fields : FieldMap)
    (head next : String) (rest : List String) :
    readPath (dropFields removals fields) (head :: next :: rest) = readPath fields (head :: next :: rest) := by
  rw [readPath, readPath, getElem?_dropFields]
  cases fields[head]? with
  | none => rfl
  | some outer =>
    cases outer with
    | set all =>
      rw [Option.map_some, removeMembers_set]
      rfl
    | _ => rw [Option.map_some, removeMembers_other _ fun _ => by simp]

end Removals

section Effects

/-- The paths of a row that a plan addresses. -/
def addressed (plan : DeletionPlan) (row : RowRef) : Set (List String) :=
  {path | (∃ place value, (plan.patches.getD row ∅)[place]? = some value ∧ path = FieldPath.names place) ∨
    ∃ field ∈ plan.memberRemovals.getD row ∅, path = [field]}

/-- What the application of a plan changes. -/
structure Applied (edges : List RefEdge) (plan : DeletionPlan) (before after : Nodes) : Prop where
  removes : ∀ row, after[row]? = none ↔ row ∈ plan.deletes ∨ before[row]? = none
  untouched : ∀ row, row ∉ plan.deletes → row ∉ plan.patches → row ∉ plan.memberRemovals →
    after[row]? = before[row]?
  frame : ∀ row fields changed, before[row]? = some fields → after[row]? = some changed →
    ∀ path, (∀ place ∈ addressed plan row, Apart path place) → readPath changed path = readPath fields path
  clears : ∀ edge ∈ edges, edge.policy = .clear → edge.target ∈ plan.deletes →
    ∀ fields, after[edge.source]? = some fields → fields[edge.field]? = some .none
  drops : ∀ edge ∈ edges, ∀ member, edge.policy = .dropMember member → edge.target ∈ plan.deletes →
    ∀ fields all, after[edge.source]? = some fields → fields[edge.field]? = some (.set all) →
      ∀ other ∈ all, (other == member) = false

theorem value_eq_none {value : Value} (same : (value == Value.none) = true) : value = .none := by
  cases value with
  | none => rfl
  | _ => cases same

/-- A plan changes the planned rows at its addresses only, and no clear or dropped reference stays. -/
theorem Planned.applied {edges : List RefEdge} {initial : List RowRef} {plan : DeletionPlan}
    (planned : Planned edges initial plan) (rows : Nodes) : Applied edges plan rows (apply rows plan) := by
  have survives {row : RowRef} {fields : FieldMap} (found : (apply rows plan)[row]? = some fields) :
      row ∉ plan.deletes ∧ ∃ before, rows[row]? = some before ∧
        fields = dropFields (plan.memberRemovals.getD row ∅) (patchFields (plan.patches.getD row ∅) before) := by
    rw [getElem?_apply] at found
    split at found
    · cases found
    · next kept =>
        obtain ⟨before, stored, changed⟩ := Option.map_eq_some_iff.mp found
        exact ⟨kept, before, stored, changed.symm⟩
  have dangles {edge : RefEdge} {fields : FieldMap} (gone : edge.target ∈ plan.deletes)
      (found : (apply rows plan)[edge.source]? = some fields) : RefEdge.dangles plan.deletes edge = true := by
    simp only [RefEdge.dangles, gone, (survives found).1, not_false_eq_true, decide_true, Bool.and_self]
  constructor
  case removes =>
    intro row
    rw [getElem?_apply]
    split
    · next gone => exact iff_of_true rfl (.inl gone)
    · next kept => rw [Option.map_eq_none_iff, or_iff_right kept]
  case untouched =>
    intro row kept unpatched whole
    rw [getElem?_apply, if_neg kept, Std.ExtTreeMap.getD_eq_fallback unpatched,
      Std.ExtTreeMap.getD_eq_fallback whole]
    simp only [patchFields_empty, dropFields_empty, Option.map_id']
  case frame =>
    intro row fields changed stored found path apart
    obtain ⟨_, before, same, rfl⟩ := survives found
    obtain rfl := Option.some.inj (stored.symm.trans same)
    rw [readPath_dropFields, readPath_patchFields]
    · exact fun place value given => apart _ (.inl ⟨place, value, given, rfl⟩)
    · exact fun field listed => apart _ (.inr ⟨field, listed, rfl⟩)
  case clears =>
    intro edge listed clear gone fields found
    have assigns : Assigns plan.deletes edges edge.source ⟨[], edge.field⟩ .none :=
      ⟨edge, listed, [(⟨[], edge.field⟩, .none)], ⟨dangles gone found, rfl, by rw [assignments, clear]⟩,
        List.mem_singleton.mpr rfl⟩
    obtain ⟨kept, given, equal⟩ := (planned.patched.holds edge.source).complete _ _ assigns
    obtain rfl := value_eq_none equal
    obtain ⟨_, before, _, rfl⟩ := survives found
    rcases readPath_patchFields_none before given with read | ⟨nested, _⟩
    · have patched : (patchFields (plan.patches.getD edge.source ∅) before)[edge.field]? = some .none := by
        rw [FieldPath.names, List.nil_append, readPath] at read
        split at read
        · next outer found => rw [found, ← read]; rfl
        · cases read
      rw [getElem?_dropFields, patched, Option.map_some, removeMembers_other _ fun _ => by simp]
    · exact absurd rfl nested
  case drops =>
    intro edge listed member policy gone fields all found stored other inside
    obtain ⟨_, before, _, rfl⟩ := survives found
    have named : member ∈ dropped plan.memberRemovals edge.source edge.field := by
      rw [planned.members]
      refine List.mem_filterMap.mpr ⟨edge, listed, ?_⟩
      rw [droppedBy, policy]
      exact if_pos ⟨dangles gone found, rfl, rfl⟩
    rw [getElem?_dropFields] at stored
    obtain ⟨value, _, removal⟩ := Option.map_eq_some_iff.mp stored
    cases value with
    | set members =>
      rw [removeMembers_set] at removal
      obtain rfl := Value.set.inj removal
      have kept := (List.mem_filter.mp inside).2
      have differs := List.all_eq_true.mp kept member named
      simpa only [Bool.not_eq_true'] using differs
    | _ =>
      rw [removeMembers_other _ fun _ => by simp] at removal
      cases removal

/-- The removed rows of a deletion are the least set that contains the initial rows and is closed under the
cascades. Each order of the edges and of the initial rows gives the same plan or a refusal of the same
kind, which names the first edge that blocks. A plan leaves no restricting reference and none without a
policy from a surviving row to a removed one, and it changes only the planned rows and their addressed
fields. Then no clear or dropped reference of a surviving row names a removed row. -/
theorem plan_least (edges : List RefEdge) (initial : List RowRef) :
    IsLeast {rows | Closed edges initial rows} {row | row ∈ removed edges initial} ∧
    (∀ others starts, edges.Perm others → (∀ row, row ∈ initial ↔ row ∈ starts) →
      Agree (plan edges initial) (plan others starts)) ∧
    (∀ error, plan edges initial = .error error → Refused edges initial error) ∧
    ∀ planned, plan edges initial = .ok planned →
      IsLeast {rows | Closed edges initial rows} {row | row ∈ planned.deletes} ∧
      (∀ edge ∈ edges, edge.policy = .restrict ∨ edge.policy = .undecided →
        edge.target ∈ planned.deletes → edge.source ∈ planned.deletes) ∧
      ∀ rows, Applied edges planned rows (apply rows planned) := by
  refine ⟨isLeast_removed edges initial, fun others starts => plan_agree, fun error failed => ?_,
    fun planned success => ?_⟩
  · rcases plan_spec edges initial with ⟨planned, success, _⟩ | ⟨other, stopped, refused⟩
    · rw [success] at failed
      cases failed
    · rw [stopped] at failed
      exact Except.error.inj failed ▸ refused
  · rcases plan_spec edges initial with ⟨other, again, spec⟩ | ⟨error, stopped, _⟩
    · obtain rfl := Except.ok.inj (again.symm.trans success)
      refine ⟨?_, fun edge listed blocks gone => ?_, spec.applied⟩
      · rw [spec.deletes]
        exact isLeast_removed edges initial
      · by_contra survives
        have dangles : RefEdge.dangles other.deletes edge = true := by
          simp only [RefEdge.dangles, gone, survives, not_false_eq_true, decide_true, Bool.and_self]
        rcases blocks with restrict | undecided
        · exact spec.unrestricted edge listed ⟨restrict, dangles⟩
        · exact spec.decided edge listed ⟨undecided, dangles⟩
    · rw [stopped] at success
      cases success

/-- A restricting reference to the only account. -/
def accountEdge (collection : String) : RefEdge :=
  ⟨⟨[collection], .of .none⟩, "account", ⟨["accounts"], .of .none⟩, .restrict⟩

/-- The order of two restricting references decides which of them a refusal reports. -/
theorem plan_order : ∃ edges others : List RefEdge, ∃ initial : List RowRef,
    edges.Perm others ∧ plan edges initial ≠ plan others initial := by
  refine ⟨[accountEdge "orders", accountEdge "notes"], [accountEdge "notes", accountEdge "orders"],
    [(accountEdge "orders").target], List.Perm.swap _ _ _, fun same => ?_⟩
  have reported : (accountEdge "orders").source = (accountEdge "notes").source :=
    (DeleteError.restricted.inj (Except.error.inj same)).1
  exact absurd (List.cons.inj (RowRef.mk.inj reported).1).1 (by decide)

end Effects

end Liasse.Runtime.Graph

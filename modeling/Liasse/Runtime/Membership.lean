/-
This file proves when a deletion drops its targets from a set of references inside static structs.
-/

import Liasse.Runtime.Applied
import Liasse.Runtime.Equality

namespace Liasse.Runtime

open Store

section Sources

/-- A key of the declared length names its row as a reference does. -/
theorem identityOf_components {names : List String} {key : KeyClass}
    (length : key.components.length = names.length) : identityOf names key.components = keyIdentity key := by
  obtain ⟨first, rest⟩ := key
  match names, rest with
  | [], _ => cases length
  | [_], [] => rfl
  | [_], _ :: _ => cases length
  | _ :: _ :: _, [] => cases length
  | _ :: _ :: _, _ :: _ => rfl

/-- The live rows of a collection have keys of the declared length. -/
def KeyedIn (collection : CompiledCollection) (rows : Rows) : Prop :=
  ∀ address ∈ Prospective.addressesIn rows (.top collection.name),
    address.last.key.components.length = collection.key.length

theorem eq_of_last {path : CollectionPath} {first second : RowAddress} (left : path.contains first = true)
    (right : path.contains second = true) (same : first.last.key = second.last.key) : first = second := by
  simp only [CollectionPath.contains, decide_eq_true_eq] at left right
  have collections : first.collection = second.collection := left.trans right.symm
  obtain ⟨ancestors, names⟩ := CollectionPath.mk.inj collections
  have lasts : first.last = second.last := by
    cases one : first.last
    cases other : second.last
    rw [one, other] at names same
    exact (AddressStep.mk.injEq _ _ _ _).mpr ⟨names, same⟩
  rw [← RowAddress.steps_inj, RowAddress.steps_eq first, RowAddress.steps_eq second, ancestors, lasts]

/-- The deletion graph finds the address of each live row. -/
theorem addressOf_rowRef {compiled : Compiled} {collection : CompiledCollection} {rows : Rows}
    {address : RowAddress} (declared : compiled.collection collection.name = some collection)
    (keyed : KeyedIn collection rows)
    (live : address ∈ Prospective.addressesIn rows (.top collection.name)) :
    Cascade.addressOf compiled rows (Cascade.rowRef collection.name address) = some address := by
  rw [Cascade.addressOf, Cascade.rowRef]
  simp only [declared]
  have matching : identityOf collection.key address.last.key.components = keyIdentity address.last.key :=
    identityOf_components (keyed address live)
  cases found : (Prospective.addressesIn rows (.top collection.name)).find? fun other =>
      identityOf collection.key other.last.key.components = keyIdentity address.last.key with
  | none =>
    rw [List.find?_eq_none] at found
    exact absurd (decide_eq_true matching) (found address live)
  | some other =>
    have listed := List.mem_of_find?_eq_some found
    have equal := List.find?_some found
    simp only [decide_eq_true_eq] at equal
    have keys := identityOf_inj (keyed other listed).symm (keyed address live).symm
      (equal.trans matching.symm)
    rw [eq_of_last (List.mem_filter.mp listed).2 (List.mem_filter.mp live).2
      (KeyClass.components_inj.mp keys)]

end Sources

section Edges

/-- A field inside static structs of a live row holds a set of references, and the deletion of a target
drops its member. -/
structure NestedSet (compiled : Compiled) (rows : Rows) (collection : CompiledCollection) (address : RowAddress)
    (fields : FieldMap) (site : RefSite) (info : RefInfo) (members : List Value) : Prop where
  declared : compiled.collection collection.name = some collection
  keyed : KeyedIn collection rows
  live : address ∈ Prospective.addressesIn rows (.top collection.name)
  stored : rows[address]? = some fields
  reaches : site ∈ refSites collection
  nested : site.container ≠ []
  scalar : site.field.reference = none
  element : site.field.elementReference = some info
  drops : info.onDelete = .cascade ∨ info.onDelete = .clear
  held : site.value fields = some (.set members)
  sorted : Codes.Sorted Value.cmp members

/-- The member of a set names a row. -/
def Names (info : RefInfo) (member : Value) (row : RowRef) : Prop :=
  ∃ key, Cascade.refKey member = some key ∧ row = ⟨info.target, key⟩

/-- A member names a removed row. -/
def gone (info : RefInfo) (deletes : List RowRef) (member : Value) : Bool :=
  match Cascade.refKey member with
  | some key => (⟨info.target, key⟩ : RowRef) ∈ deletes
  | none => false

theorem gone_iff {info : RefInfo} {deletes : List RowRef} {member : Value} :
    gone info deletes member = true ↔ ∃ target ∈ deletes, Names info member target := by
  rw [gone]
  cases found : Cascade.refKey member with
  | none => simp only [Names, found, Bool.false_eq_true, reduceCtorEq, false_and, exists_false, and_false]
  | some key =>
    simp only [Names, found, decide_eq_true_eq, Option.some.injEq]
    constructor
    · exact fun listed => ⟨_, listed, key, rfl, rfl⟩
    · rintro ⟨_, listed, _, rfl, rfl⟩
      exact listed

theorem gone_congr {info : RefInfo} {deletes more : List RowRef} (same : ∀ row, row ∈ deletes ↔ row ∈ more)
    (member : Value) : gone info deletes member = gone info more member := by
  rw [gone, gone]
  cases Cascade.refKey member with
  | none => rfl
  | some key => simp only [same]

/-- The address of a site. -/
def RefSite.place (site : RefSite) : FieldPath :=
  ⟨site.container, site.field.name⟩

/-- A set without one member, at the address of its site. -/
def leafPatch (site : RefSite) (members : List Value) (member : Value) : DeletePolicy :=
  .patch [(site.place, Cascade.dropMember member (.set members))]

variable {compiled : Compiled} {ctx : EvalCtx} {rows : Rows} {collection : CompiledCollection}
  {address : RowAddress} {fields : FieldMap} {site : RefSite} {info : RefInfo} {members : List Value}

/-- Each member of a nested set gives an edge to the row that it names. -/
theorem NestedSet.memberEdges (set : NestedSet compiled rows collection address fields site info members)
    (ctx : EvalCtx) (member : Value) :
    Cascade.memberEdges compiled ctx rows (Cascade.rowRef collection.name address) site info member =
      .ok (match Cascade.refKey member with
        | some key => [⟨Cascade.rowRef collection.name address, site.displayName, ⟨info.target, key⟩,
            leafPatch site members member⟩]
        | none => []) := by
  have leaf (transform : Value → Value) :
      Cascade.nestedLeafPatch compiled rows (Cascade.rowRef collection.name address) site transform =
        some (.patch [(site.place, transform (.set members))]) := by
    rw [Cascade.nestedLeafPatch, addressOf_rowRef set.declared set.keyed set.live]
    simp only [set.stored, set.held, Option.getD_some]
    rfl
  rw [Cascade.memberEdges]
  cases Cascade.refKey member with
  | none => rfl
  | some key =>
    simp only [if_neg set.nested]
    rcases set.drops with cascade | clear
    · simp only [cascade, Cascade.nestedMemberPolicy, leaf, Codes.ok_bind, Cascade.edge, leafPatch]
    · simp only [clear, Cascade.nestedMemberPolicy, leaf, Codes.ok_bind, Cascade.edge, leafPatch]

/-- The edges of an item stand between those of the items before and after it. -/
theorem gatherAll_split {α β : Type} {step : α → Except Rejection (List β)} {items : List α} {item : α}
    {result : List β} (inside : item ∈ items) (gathered : gatherAll step items = .ok result) :
    ∃ before own after, step item = .ok own ∧ result = before ++ own ++ after := by
  induction items generalizing result with
  | nil => cases inside
  | cons first rest earlier =>
    rw [gatherAll, Codes.bind_ok] at gathered
    obtain ⟨found, here, gathered⟩ := gathered
    obtain ⟨others, later, same⟩ := Codes.bind_ok.mp gathered
    obtain rfl := Except.ok.inj same
    rcases List.mem_cons.mp inside with rfl | inside
    · exact ⟨[], found, others, here, by rw [List.nil_append]⟩
    · obtain ⟨before, own, after, step, rfl⟩ := earlier inside later
      exact ⟨found ++ before, own, after, step, by simp only [List.append_assoc]⟩

theorem gatherAll_ok {α β : Type} {step : α → Except Rejection (List β)} {result : α → List β}
    {items : List α} (each : ∀ item ∈ items, step item = .ok (result item)) :
    gatherAll step items = .ok (items.flatMap result) := by
  induction items with
  | nil => rfl
  | cons first rest earlier =>
    obtain ⟨here, later⟩ := List.forall_mem_cons.mp each
    rw [gatherAll, here, Codes.ok_bind, earlier later, Codes.ok_bind, List.flatMap_cons]

/-- The edges of a nested set. -/
def setEdges (source : RowRef) (site : RefSite) (info : RefInfo) (members : List Value) : List RefEdge :=
  members.flatMap fun member =>
    match Cascade.refKey member with
    | some key => [⟨source, site.displayName, ⟨info.target, key⟩, leafPatch site members member⟩]
    | none => []

theorem NestedSet.siteEdges (set : NestedSet compiled rows collection address fields site info members)
    (ctx : EvalCtx) :
    Cascade.siteEdges compiled ctx rows (Cascade.rowRef collection.name address) fields site =
      .ok (setEdges (Cascade.rowRef collection.name address) site info members) := by
  rw [Cascade.siteEdges, Cascade.scalarEdges, set.scalar]
  simp only [Codes.ok_bind, Option.isSome_none, Bool.false_and, Bool.false_eq_true, if_false, set.element,
    set.held]
  rw [gatherAll_ok fun member _ => set.memberEdges ctx member, Codes.ok_bind, List.nil_append, setEdges]

/-- The edges of a nested set are part of the deletion graph of the live rows. -/
theorem NestedSet.split (set : NestedSet compiled rows collection address fields site info members)
    {edges : List RefEdge}
    (gathered : gatherAll (Cascade.collectionEdges compiled ctx rows) compiled.collections = .ok edges) :
    ∃ before after, edges =
      before ++ setEdges (Cascade.rowRef collection.name address) site info members ++ after := by
  obtain ⟨before, own, after, inCollection, rfl⟩ := gatherAll_split (List.mem_of_find?_eq_some set.declared) gathered
  obtain ⟨earlier, row, later, inRow, rfl⟩ := gatherAll_split set.live inCollection
  rw [Cascade.rowEdges, set.stored] at inRow
  obtain ⟨above, edge, below, inSite, rfl⟩ := gatherAll_split set.reaches inRow
  rw [set.siteEdges ctx] at inSite
  obtain rfl := Except.ok.inj inSite
  exact ⟨before ++ (earlier ++ above), below ++ (later ++ after), by simp only [List.append_assoc]⟩

theorem mem_setEdges {source : RowRef} {edge : RefEdge} :
    edge ∈ setEdges source site info members ↔ ∃ member ∈ members, ∃ target, Names info member target ∧
      edge = ⟨source, site.displayName, target, leafPatch site members member⟩ := by
  rw [setEdges, List.mem_flatMap]
  apply exists_congr
  intro member
  apply and_congr_right
  intro _
  cases found : Cascade.refKey member with
  | none => simp only [Names, found, List.not_mem_nil, reduceCtorEq, false_and, exists_false]
  | some key =>
    simp only [Names, found, List.mem_singleton, Option.some.injEq]
    constructor
    · rintro rfl
      exact ⟨_, ⟨key, rfl, rfl⟩, rfl⟩
    · rintro ⟨_, ⟨_, rfl, rfl⟩, rfl⟩
      rfl

end Edges

section Sets

/-- The members of a sorted set are equal only to themselves. -/
theorem eq_of_sorted {members : List Value} (sorted : Codes.Sorted Value.cmp members) {first second : Value}
    (left : first ∈ members) (right : second ∈ members) (same : (first == second) = true) : first = second := by
  have symmetric : Std.Symm fun first second : Value => (first == second) = false :=
    ⟨fun first second differ => by rw [BEq.comm, differ]⟩
  have distinct : members.Pairwise fun first second => (first == second) = false := by
    refine sorted.imp fun {first second} lower => ?_
    change (first.cmp second == .eq) = false
    rw [lower]
    rfl
  by_contra different
  rw [distinct.forall left right different] at same
  cases same

/-- A set without one member differs from the set without another one. -/
theorem dropMember_inj {members : List Value} (sorted : Codes.Sorted Value.cmp members) {first second : Value}
    (left : first ∈ members) (right : second ∈ members)
    (same : (Cascade.dropMember first (.set members) == Cascade.dropMember second (.set members)) = true) :
    first = second := by
  by_contra different
  have kept : second ∈ members.filter fun other => ¬ (other == first) = true := by
    refine List.mem_filter.mpr ⟨right, ?_⟩
    rw [decide_eq_true_eq]
    exact fun equal => different (eq_of_sorted sorted right left equal).symm
  have lists : Value.cmpList (members.filter fun other => ¬ (other == first) = true)
      (members.filter fun other => ¬ (other == second) = true) = .eq :=
    beq_iff_eq.mp (show (_ == Ordering.eq) = true from same)
  rw [Value.cmpList_eq] at lists
  obtain ⟨index, bound, found⟩ := List.mem_iff_getElem.mp kept
  have related := Codes.forall₂_of_compareLex lists
  have short := related.length_eq ▸ bound
  have equal := related.get bound short
  rw [List.get_eq_getElem, found] at equal
  have listed := List.mem_filter.mp (List.getElem_mem short)
  rw [decide_eq_true_eq] at listed
  have agrees : (second == _) = true := show (second.cmp _ == Ordering.eq) = true from beq_iff_eq.mpr equal
  exact listed.2 (BEq.symm agrees)

end Sets

section Plans

open Liasse.Runtime.Graph

variable {compiled : Compiled} {rows : Rows} {collection : CompiledCollection} {address : RowAddress}
  {fields : FieldMap} {site : RefSite} {info : RefInfo} {members : List Value} {source : RowRef}
  {before after : List RefEdge} {initial : List RowRef}

/-- The edges of a set with the edges before and after them. -/
def withSet (source : RowRef) (site : RefSite) (info : RefInfo) (members : List Value)
    (before after : List RefEdge) : List RefEdge :=
  before ++ setEdges source site info members ++ after

theorem mem_withSet {edge : RefEdge} :
    edge ∈ withSet source site info members before after ↔
      edge ∈ before ++ after ∨ edge ∈ setEdges source site info members := by
  rw [withSet, List.mem_append, List.mem_append, List.mem_append]
  tauto

/-- The edges of a set patch one address of their row. -/
theorem policy_of_setEdges {edge : RefEdge} (listed : edge ∈ setEdges source site info members) :
    ∃ member ∈ members, edge.source = source ∧ edge.policy = leafPatch site members member ∧
      Names info member edge.target := by
  obtain ⟨member, inside, target, names, rfl⟩ := mem_setEdges.mp listed
  exact ⟨member, inside, rfl, rfl, names⟩

/-- A set inside static structs removes no row. -/
theorem mem_removed_withSet (row : RowRef) :
    row ∈ removed (withSet source site info members before after) initial ↔
      row ∈ removed (before ++ after) initial := by
  refine mem_removed_congr (fun target other => ?_) (fun _ => Iff.rfl) row
  constructor
  · rintro ⟨edge, listed, cascade, shape⟩
    rcases mem_withSet.mp listed with other | own
    · exact ⟨edge, other, cascade, shape⟩
    · obtain ⟨member, _, _, policy, _⟩ := policy_of_setEdges own
      rw [policy] at cascade
      cases cascade
  · rintro ⟨edge, listed, shape⟩
    exact ⟨edge, mem_withSet.mpr (.inl listed), shape⟩

/-- The set assigns its address the set without a member that names a removed row. -/
theorem assigns_withSet {deletes : List RowRef} (survives : source ∉ deletes) {row : RowRef}
    {path : FieldPath} {value : Value} :
    Assigns deletes (withSet source site info members before after) row path value ↔
      Assigns deletes (before ++ after) row path value ∨
        (row = source ∧ path = site.place ∧ ∃ member ∈ members, gone info deletes member = true ∧
          value = Cascade.dropMember member (.set members)) := by
  constructor
  · rintro ⟨edge, listed, added, carries, inside⟩
    rcases mem_withSet.mp listed with other | own
    · exact .inl ⟨edge, other, added, carries, inside⟩
    · obtain ⟨member, inSet, origin, policy, names⟩ := policy_of_setEdges own
      obtain ⟨dangles, same, assigned⟩ := carries
      rw [assignments, policy, leafPatch] at assigned
      obtain rfl := Option.some.inj assigned
      obtain ⟨rfl, rfl⟩ := Prod.mk.inj (List.mem_singleton.mp inside)
      simp only [RefEdge.dangles, Bool.and_eq_true, decide_eq_true_eq] at dangles
      exact .inr ⟨same.symm.trans origin, rfl, member, inSet, gone_iff.mpr ⟨edge.target, dangles.1, names⟩, rfl⟩
  · rintro (⟨edge, listed, shape⟩ | ⟨rfl, rfl, member, inSet, absent, rfl⟩)
    · exact ⟨edge, mem_withSet.mpr (.inl listed), shape⟩
    · obtain ⟨target, gone, names⟩ := gone_iff.mp absent
      refine ⟨⟨row, site.displayName, target, leafPatch site members member⟩,
        mem_withSet.mpr (.inr (mem_setEdges.mpr ⟨member, inSet, target, names, rfl⟩)),
        [(site.place, Cascade.dropMember member (.set members))], ⟨?_, rfl, rfl⟩, List.mem_singleton.mpr rfl⟩
      simp only [RefEdge.dangles, gone, survives, not_false_eq_true, decide_true, Bool.and_self]

/-- At most one member of a set names a removed row. -/
def AtMostOne (info : RefInfo) (deletes : List RowRef) (members : List Value) : Prop :=
  ∀ first ∈ members, ∀ second ∈ members, gone info deletes first = true → gone info deletes second = true →
    first = second

/-- A planned deletion leaves in a set exactly the members that name no removed row. -/
def DropsExactly (edges : List RefEdge) (initial : List RowRef) (source : RowRef) (fields : FieldMap)
    (site : RefSite) (info : RefInfo) (members : List Value) : Prop :=
  ∃ planned, plan edges initial = .ok planned ∧ ∀ nodes : Nodes, nodes[source]? = some fields →
    ∃ changed, (apply nodes planned)[source]? = some changed ∧
      site.value changed = some (.set (members.filter fun member => !gone info planned.deletes member))

/-- A plan with the edges of a set gives a plan without them and drops at most one member. -/
theorem atMostOne_of_plan (sorted : Codes.Sorted Value.cmp members)
    (survives : source ∉ removed (before ++ after) initial) {planned : DeletionPlan}
    (success : plan (withSet source site info members before after) initial = .ok planned) :
    (∃ rest, plan (before ++ after) initial = .ok rest) ∧
      AtMostOne info (removed (before ++ after) initial) members := by
  have sameRows (row : RowRef) :
      row ∈ removed (withSet source site info members before after) initial ↔
        row ∈ removed (before ++ after) initial := mem_removed_withSet row
  rcases plan_spec (withSet source site info members before after) initial with
    ⟨other, again, spec⟩ | ⟨error, failed, _⟩
  · obtain rfl := Except.ok.inj (again.symm.trans success)
    have stays : source ∉ other.deletes := by rwa [spec.deletes, sameRows]
    constructor
    · rcases plan_spec (before ++ after) initial with ⟨rest, works, _⟩ | ⟨error, failed, refused⟩
      · exact ⟨rest, works⟩
      · exfalso
        have inside {edge : RefEdge} (listed : edge ∈ before ++ after) :
            edge ∈ withSet source site info members before after := mem_withSet.mpr (.inl listed)
        have dangles (edge : RefEdge) : RefEdge.dangles (removed (before ++ after) initial) edge =
            RefEdge.dangles other.deletes edge := by
          rw [spec.deletes]
          exact dangles_congr (fun row => (sameRows row).symm) edge
        have fails := refused.fails
        cases reason : kind error with
        | restricted =>
          rw [reason] at fails
          obtain ⟨edge, listed, policy, leads⟩ := fails
          exact spec.unrestricted edge (inside listed) ⟨policy, dangles edge ▸ leads⟩
        | undecided =>
          rw [reason] at fails
          obtain ⟨_, edge, listed, policy, leads⟩ := fails
          exact spec.decided edge (inside listed) ⟨policy, dangles edge ▸ leads⟩
        | conflicting =>
          rw [reason] at fails
          obtain ⟨_, _, row, path, first, second, left, right, differ⟩ := fails
          have among {value : Value}
              (assigned : Assigns (removed (before ++ after) initial) (before ++ after) row path value) :
              Assigns other.deletes (withSet source site info members before after) row path value := by
            rw [assigns_withSet stays]
            refine .inl ((assigns_congr (fun _ => Iff.rfl) (fun row => ?_) row path value).mp assigned)
            rw [spec.deletes, sameRows]
          exact spec.patched.consistent row path ⟨first, second, among left, among right, differ⟩
    · intro first left second right firstGone secondGone
      rw [← gone_congr sameRows, ← spec.deletes] at firstGone secondGone
      apply dropMember_inj sorted left right
      exact (spec.patched.holds source).agree
        ((assigns_withSet stays).mpr (.inr ⟨rfl, rfl, first, left, firstGone, rfl⟩))
        ((assigns_withSet stays).mpr (.inr ⟨rfl, rfl, second, right, secondGone, rfl⟩))
  · rw [failed] at success
    cases success

/-- A plan without the edges of a set gives a plan with them when they drop at most one member. -/
theorem plan_withSet (survives : source ∉ removed (before ++ after) initial) {rest : DeletionPlan}
    (success : plan (before ++ after) initial = .ok rest)
    (single : AtMostOne info (removed (before ++ after) initial) members)
    (apart : ∀ path value, Assigns (removed (before ++ after) initial) (before ++ after) source path value →
      Apart site.place.names path.names) :
    ∃ planned, plan (withSet source site info members before after) initial = .ok planned ∧
      Planned (withSet source site info members before after) initial planned := by
  have sameRows (row : RowRef) :
      row ∈ removed (withSet source site info members before after) initial ↔
        row ∈ removed (before ++ after) initial := mem_removed_withSet row
  have stays : source ∉ removed (withSet source site info members before after) initial := by rwa [sameRows]
  rcases plan_spec (before ++ after) initial with ⟨other, again, spec⟩ | ⟨error, failed, _⟩
  · obtain rfl := Except.ok.inj (again.symm.trans success)
    rcases plan_spec (withSet source site info members before after) initial with
      planned | ⟨error, failed, refused⟩
    · exact planned
    · exfalso
      have dangles (edge : RefEdge) :
          RefEdge.dangles (removed (withSet source site info members before after) initial) edge =
            RefEdge.dangles other.deletes edge := by
        rw [spec.deletes]
        exact dangles_congr sameRows edge
      have fails := refused.fails
      cases reason : kind error with
      | restricted =>
        rw [reason] at fails
        obtain ⟨edge, listed, policy, leads⟩ := fails
        rcases mem_withSet.mp listed with elsewhere | own
        · exact spec.unrestricted edge elsewhere ⟨policy, dangles edge ▸ leads⟩
        · obtain ⟨member, _, _, patches, _⟩ := policy_of_setEdges own
          rw [patches] at policy
          cases policy
      | undecided =>
        rw [reason] at fails
        obtain ⟨_, edge, listed, policy, leads⟩ := fails
        rcases mem_withSet.mp listed with elsewhere | own
        · exact spec.decided edge elsewhere ⟨policy, dangles edge ▸ leads⟩
        · obtain ⟨member, _, _, patches, _⟩ := policy_of_setEdges own
          rw [patches] at policy
          cases policy
      | conflicting =>
        rw [reason] at fails
        obtain ⟨_, _, row, path, first, second, left, right, differ⟩ := fails
        have elsewhere {value : Value} : Assigns (removed (withSet source site info members before after) initial)
            (before ++ after) row path value ↔
              Assigns (removed (before ++ after) initial) (before ++ after) row path value :=
          assigns_congr (fun _ => Iff.rfl) sameRows row path value
        rw [assigns_withSet stays, elsewhere] at left right
        rcases left with left | ⟨rfl, rfl, member, inside, absent, rfl⟩
        · rcases right with right | ⟨rfl, rfl, _⟩
          · rw [← spec.deletes] at left right
            exact spec.patched.consistent row path ⟨first, second, left, right, differ⟩
          · exact (apart _ _ left).1 (List.prefix_refl _)
        · rcases right with right | ⟨_, _, more, listed, lost, rfl⟩
          · exact (apart _ _ right).1 (List.prefix_refl _)
          · rw [gone_congr sameRows] at absent lost
            obtain rfl := single member inside more listed absent lost
            rw [BEq.rfl] at differ
            cases differ
  · rw [failed] at success
    cases success

/-- A set keeps the members that name no removed row when its plan drops at most one member. -/
theorem dropsExactly_of_atMostOne (nested : site.container ≠ []) (held : site.value fields = some (.set members))
    (sorted : Codes.Sorted Value.cmp members) (survives : source ∉ removed (before ++ after) initial)
    {rest : DeletionPlan} (success : plan (before ++ after) initial = .ok rest)
    (single : AtMostOne info (removed (before ++ after) initial) members)
    (apart : ∀ path value, Assigns (removed (before ++ after) initial) (before ++ after) source path value →
      Apart site.place.names path.names) :
    DropsExactly (withSet source site info members before after) initial source fields site info members := by
  obtain ⟨planned, works, spec⟩ := plan_withSet survives success single apart
  have sameRows (row : RowRef) : row ∈ planned.deletes ↔ row ∈ removed (before ++ after) initial := by
    rw [spec.deletes]
    exact mem_removed_withSet row
  have stays : source ∉ planned.deletes := by rwa [sameRows]
  refine ⟨planned, works, fun nodes stored => ⟨_, by rw [getElem?_apply, if_neg stays, stored]; rfl, ?_⟩⟩
  have given {path : FieldPath} {value : Value} (entry : (planned.patches.getD source ∅)[path]? = some value) :
      Apart site.place.names path.names ∨ (path = site.place ∧ ∃ member ∈ members,
        gone info planned.deletes member = true ∧ value = Cascade.dropMember member (.set members)) := by
    rcases (assigns_withSet stays).mp ((spec.patched.holds source).sound path value entry) with
      elsewhere | ⟨_, same, own⟩
    · exact .inl (apart path value ((assigns_congr (fun _ => Iff.rfl) sameRows source path value).mp elsewhere))
    · exact .inr ⟨same, own⟩
  have reads : readPath fields site.place.names = some (.set members) := by
    rw [← held, RefSite.value_eq]
    rfl
  have dropped (changed : FieldMap) :
      site.value (dropFields (planned.memberRemovals.getD source ∅) changed) =
        readPath changed site.place.names := by
    rw [RefSite.value_eq, RefSite.place, FieldPath.names]
    cases path : site.container with
    | nil => exact absurd path nested
    | cons head tail =>
      cases tail with
      | nil => exact readPath_dropFields_below _ changed head site.field.name []
      | cons next tail => exact readPath_dropFields_below _ changed head next (tail ++ [site.field.name])
  rw [dropped]
  by_cases loses : ∃ member ∈ members, gone info planned.deletes member = true
  · obtain ⟨member, inside, absent⟩ := loses
    have only {other : Value} (listed : other ∈ members) (lost : gone info planned.deletes other = true) :
        other = member := by
      rw [gone_congr sameRows] at absent lost
      exact single other listed member inside lost absent
    obtain ⟨kept, entry, _⟩ := (spec.patched.holds source).complete site.place _
      ((assigns_withSet stays).mpr (.inr ⟨rfl, rfl, member, inside, absent, rfl⟩))
    obtain rfl : kept = Cascade.dropMember member (.set members) := by
      rcases given entry with itself | ⟨_, other, listed, lost, rfl⟩
      · exact absurd (List.prefix_refl _) itself.1
      · rw [only listed lost]
    rw [readPath_patchFields_self entry (fun _ => by simp [Cascade.dropMember]) reads]
    · rw [Cascade.dropMember]
      congr 2
      refine List.filter_congr fun other listed => ?_
      by_cases same : other = member
      · subst same
        simp only [BEq.rfl, not_true_eq_false, decide_false, absent, Bool.not_true]
      · have stay : gone info planned.deletes other = false :=
          Bool.eq_false_iff.mpr fun lost => same (only listed lost)
        have differs : ¬ (other == member) = true := fun equal => same (eq_of_sorted sorted listed inside equal)
        rw [stay, decide_eq_true differs]
        rfl
    · intro other more entry different
      exact (given entry).resolve_right fun own => different own.1
  · have none (member : Value) (listed : member ∈ members) : gone info planned.deletes member = false :=
      Bool.eq_false_iff.mpr fun lost => loses ⟨member, listed, lost⟩
    rw [readPath_patchFields fields, reads]
    · congr 2
      symm
      rw [List.filter_eq_self]
      intro member listed
      rw [none member listed]
      rfl
    · intro path value entry
      refine (given entry).resolve_right fun own => ?_
      obtain ⟨_, member, listed, lost, _⟩ := own
      exact loses ⟨member, listed, lost⟩

/-- The deletion graph of the live rows contains the edges of each set of references inside static structs.
When no other reference writes the field of the set or a struct around it, a deletion that keeps its row
has a plan and drops exactly the members that name a removed row if and only if the other references have
a plan and at most one member names a removed row. -/
theorem dropsExactly_iff {ctx : EvalCtx} {edges : List RefEdge}
    (set : NestedSet compiled rows collection address fields site info members)
    (gathered : gatherAll (Cascade.collectionEdges compiled ctx rows) compiled.collections = .ok edges) :
    (∃ before after, edges = withSet (Cascade.rowRef collection.name address) site info members before after) ∧
    ∀ before after initial,
      edges = withSet (Cascade.rowRef collection.name address) site info members before after →
      Cascade.rowRef collection.name address ∉ removed edges initial →
      (∀ path value, Assigns (removed (before ++ after) initial) (before ++ after)
        (Cascade.rowRef collection.name address) path value → Apart site.place.names path.names) →
      (DropsExactly edges initial (Cascade.rowRef collection.name address) fields site info members ↔
        (∃ rest, plan (before ++ after) initial = .ok rest) ∧
          AtMostOne info (removed (before ++ after) initial) members) := by
  refine ⟨set.split gathered, fun before after initial split survives apart => ⟨?_, ?_⟩⟩
  · rintro ⟨planned, success, _⟩
    subst split
    exact atMostOne_of_plan set.sorted (by rwa [← mem_removed_withSet]) success
  · rintro ⟨⟨rest, success⟩, single⟩
    subst split
    exact dropsExactly_of_atMostOne set.nested set.held set.sorted (by rwa [← mem_removed_withSet]) success
      single apart

end Plans

section Labels

open Liasse.Runtime.Graph

def labelRef (name : Bool) : Value :=
  .ref (.scalar (.bool name))

def labelInfo : RefInfo :=
  ⟨["labels"], false, .cascade⟩

def labelField : CompiledField :=
  ⟨"labels", .set (.ref (.scalar .bool)), none, some labelInfo, none, none, []⟩

def taskCollection : CompiledCollection :=
  ⟨"tasks", ["id"], [], [], [], [⟨"meta", [labelField], [], []⟩], []⟩

/-- The struct of a task holds a set of references to labels, which drops removed labels. -/
def taskCompiled : Compiled where
  collections := [taskCollection]
  rootSingleton := ⟨rootName, [], [], [], [], [], []⟩
  buckets := []
  spends := []
  poolQuantities := fun _ _ => .ok ()
  mutations := []
  divisionRounding := .halfAwayFromZero

def taskAddress : RowAddress :=
  .root ⟨"tasks", .composite (.bool true) []⟩

def taskFields : FieldMap :=
  .insert ∅ "meta" (.struct [("labels", .set [labelRef false, labelRef true])])

def taskRows : Rows :=
  .insert ∅ taskAddress taskFields

def taskSite : RefSite :=
  ⟨["meta"], labelField⟩

theorem task_nestedSet : NestedSet taskCompiled taskRows taskCollection taskAddress taskFields taskSite labelInfo
    [labelRef false, labelRef true] where
  declared := rfl
  keyed := by
    unfold KeyedIn
    decide
  live := by decide
  stored := Std.ExtTreeMap.getElem?_insert_self
  reaches := List.mem_cons_self
  nested := by decide
  scalar := rfl
  element := rfl
  drops := .inl rfl
  held := rfl
  sorted := by
    unfold Codes.Sorted
    decide

def taskEdges : List RefEdge :=
  setEdges (Cascade.rowRef "tasks" taskAddress) taskSite labelInfo [labelRef false, labelRef true]

theorem task_edges (now : Timestamp) :
    gatherAll (Cascade.collectionEdges taskCompiled ⟨now, ∅, []⟩ taskRows) taskCompiled.collections =
      .ok taskEdges :=
  rfl

def removedLabel (name : Bool) : RowRef :=
  ⟨["labels"], .of (.bool name)⟩

/-- The removal of one label drops its member. -/
theorem label_dropped : DropsExactly taskEdges [removedLabel true]
    (Cascade.rowRef "tasks" taskAddress) taskFields taskSite labelInfo [labelRef false, labelRef true] := by
  refine ((dropsExactly_iff task_nestedSet (task_edges ⟨⟨0, by decide, by decide⟩, .seconds⟩)).2 [] [] [removedLabel true] rfl (by decide)
    (fun path value assigned => ?_)).mpr ⟨⟨_, rfl⟩, fun first left second right firstGone secondGone => ?_⟩
  · obtain ⟨edge, listed, _⟩ := assigned
    cases listed
  · rcases List.mem_pair.mp left with rfl | rfl
    · exact absurd firstGone (by decide)
    · rcases List.mem_pair.mp right with rfl | rfl
      · exact absurd secondGone (by decide)
      · rfl

/-- The removal of both labels has no plan. -/
theorem labels_undropped :
    NestedSet taskCompiled taskRows taskCollection taskAddress taskFields taskSite labelInfo
      [labelRef false, labelRef true] ∧
    (∀ now, gatherAll (Cascade.collectionEdges taskCompiled ⟨now, ∅, []⟩ taskRows) taskCompiled.collections =
      .ok taskEdges) ∧
    Cascade.rowRef "tasks" taskAddress ∉ removed taskEdges [removedLabel false, removedLabel true] ∧
    ¬ DropsExactly taskEdges [removedLabel false, removedLabel true] (Cascade.rowRef "tasks" taskAddress)
      taskFields taskSite labelInfo [labelRef false, labelRef true] := by
  refine ⟨task_nestedSet, task_edges, by decide, ?_⟩
  rintro ⟨planned, success, _⟩
  cases success

end Labels

end Liasse.Runtime

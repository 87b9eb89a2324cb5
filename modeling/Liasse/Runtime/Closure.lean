/-
This file models the deletion graph and the plan that its policies give. The removed rows are the least set that contains
the initial rows and is closed under the cascades.
-/

import Liasse.Codes.Table
import Liasse.Runtime.Reference

namespace Liasse.Runtime

open Store

section Orders

/-- Row identities compare by collection, then by key. -/
instance : Ord RowRef where
  compare := compareLex (compareOn fun row => row.collection.map textBytes) (compareOn RowRef.key)

instance : Std.TransOrd RowRef :=
  inferInstanceAs (Std.TransCmp (compareLex (compareOn _) (compareOn _)))

theorem textBytes_inj {first second : String} (same : textBytes first = textBytes second) :
    first = second := by
  apply (compareText_eq_iff first second).mp
  rw [compareText, same]
  exact Std.ReflOrd.compare_self

theorem map_textBytes_inj {first second : List String}
    (same : first.map textBytes = second.map textBytes) : first = second :=
  List.map_injective_iff.mpr (fun _ _ => textBytes_inj) same

instance : Std.LawfulEqOrd RowRef where
  eq_of_compare {first second} same := by
    obtain ⟨names, keys⟩ := Ordering.then_eq_eq.mp same
    cases first
    cases second
    obtain rfl := map_textBytes_inj (Std.LawfulEqOrd.eq_of_compare names)
    obtain rfl := Std.LawfulEqOrd.eq_of_compare keys
    rfl

/-- Field addresses compare by container, then by field. -/
instance : Ord FieldPath where
  compare := compareLex (compareOn fun path => path.container.map textBytes)
    (compareOn fun path => textBytes path.field)

instance : Std.TransOrd FieldPath :=
  inferInstanceAs (Std.TransCmp (compareLex (compareOn _) (compareOn _)))

instance : Std.LawfulEqOrd FieldPath where
  eq_of_compare {first second} same := by
    obtain ⟨containers, fields⟩ := Ordering.then_eq_eq.mp same
    cases first
    cases second
    obtain rfl := map_textBytes_inj (Std.LawfulEqOrd.eq_of_compare containers)
    obtain rfl := textBytes_inj (Std.LawfulEqOrd.eq_of_compare fields)
    rfl

end Orders

/-- A resolved policy of an inbound reference. -/
inductive DeletePolicy
  | restrict
  | cascade
  | clear
  | patch (assignments : List (FieldPath × Value))
  | dropMember (member : Value)
  | undecided

/-- An inbound reference of the deletion graph. -/
structure RefEdge where
  source : RowRef
  field : String
  target : RowRef
  policy : DeletePolicy

/-- The reason why a deletion has no plan. -/
inductive DeleteError
  | restricted (referencing : RowRef) (field : String) (target : RowRef)
  | conflictingPatch (row : RowRef) (field : FieldPath)
  | danglingUndecided (referencing : RowRef) (field : String) (target : RowRef)

/-- The assignments to each surviving row. -/
abbrev Patches := Std.ExtTreeMap RowRef (Std.ExtTreeMap FieldPath Value compare) compare

/-- The members that each surviving row drops from each of its sets. -/
abbrev MemberRemovals := Std.ExtTreeMap RowRef (Std.ExtTreeMap String (List Value) compareText) compare

/-- The effect of a deletion is the removed rows and the changes of the surviving rows. -/
structure DeletionPlan where
  deletes : List RowRef
  patches : Patches
  memberRemovals : MemberRemovals

namespace Graph

/-- The edges of one target add their cascading sources to the removed rows and to the frontier. -/
def expand (target : RowRef) : List RefEdge → List RowRef × List RowRef → List RowRef × List RowRef
  | [], state => state
  | edge :: rest, (deletes, frontier) =>
    expand target rest <|
      match edge.policy with
      | .cascade =>
        if edge.target = target ∧ edge.source ∉ deletes then
          (deletes ++ [edge.source], edge.source :: frontier)
        else (deletes, frontier)
      | _ => (deletes, frontier)

/-- The removed rows are the targets and the rows that cascade from them. Each row enters the frontier
once, so the count of targets and edges bounds the steps. -/
def cascadeClosure (edges : List RefEdge) : Nat → List RowRef × List RowRef → List RowRef
  | 0, (deletes, _) => deletes
  | _ + 1, (deletes, []) => deletes
  | fuel + 1, (deletes, target :: frontier) =>
    cascadeClosure edges fuel (expand target edges (deletes, frontier))

/-- An edge leads from a surviving row to a removed row. -/
def RefEdge.dangles (deletes : List RowRef) (edge : RefEdge) : Bool :=
  edge.target ∈ deletes && edge.source ∉ deletes

/-- A restricting reference of a surviving row blocks the deletion. -/
def checkRestrict (deletes : List RowRef) : List RefEdge → Except DeleteError Unit
  | [] => .ok ()
  | edge :: rest =>
    match edge.policy with
    | .restrict =>
      if RefEdge.dangles deletes edge then
        .error (.restricted edge.source edge.field edge.target)
      else checkRestrict deletes rest
    | _ => checkRestrict deletes rest

/-- A reference of a surviving row without a policy blocks the deletion. -/
def checkUndecided (deletes : List RowRef) : List RefEdge → Except DeleteError Unit
  | [] => .ok ()
  | edge :: rest =>
    match edge.policy with
    | .undecided =>
      if RefEdge.dangles deletes edge then
        .error (.danglingUndecided edge.source edge.field edge.target)
      else checkUndecided deletes rest
    | _ => checkUndecided deletes rest

/-- The assignments of one reference join those of its row when they are disjoint or equal. -/
def addAssignments (row : RowRef) : List (FieldPath × Value) →
    Std.ExtTreeMap FieldPath Value compare →
    Except DeleteError (Std.ExtTreeMap FieldPath Value compare)
  | [], patch => .ok patch
  | (path, value) :: rest, patch =>
    match patch[path]? with
    | some existing =>
      if (existing == value) = true then addAssignments row rest (patch.insert path value)
      else .error (.conflictingPatch row path)
    | none => addAssignments row rest (patch.insert path value)

/-- The assignments that a reference makes on its surviving row. -/
def assignments (edge : RefEdge) : Option (List (FieldPath × Value)) :=
  match edge.policy with
  | .clear => some [(⟨[], edge.field⟩, .none)]
  | .patch assignments => some assignments
  | _ => none

/-- The assignments to the surviving rows. -/
def collectPatches (deletes : List RowRef) : List RefEdge → Patches → Except DeleteError Patches
  | [], patches => .ok patches
  | edge :: rest, patches =>
    if RefEdge.dangles deletes edge then
      match assignments edge with
      | some assigned =>
        match addAssignments edge.source assigned (patches.getD edge.source ∅) with
        | .ok patch => collectPatches deletes rest (patches.insert edge.source patch)
        | .error error => .error error
      | none => collectPatches deletes rest patches
    else collectPatches deletes rest patches

/-- The members that the surviving rows drop. -/
def collectMemberRemovals (deletes : List RowRef) : List RefEdge → MemberRemovals → MemberRemovals
  | [], removals => removals
  | edge :: rest, removals =>
    collectMemberRemovals deletes rest <|
      match edge.policy with
      | .dropMember member =>
        if RefEdge.dangles deletes edge then
          let fields := removals.getD edge.source ∅
          removals.insert edge.source
            (fields.insert edge.field (fields.getD edge.field [] ++ [member]))
        else removals
      | _ => removals

/-- The plan of a deletion. -/
def plan (edges : List RefEdge) (initial : List RowRef) : Except DeleteError DeletionPlan :=
  let deletes := cascadeClosure edges (initial.length + edges.length) (initial, initial.reverse)
  checkRestrict deletes edges >>= fun _ =>
  checkUndecided deletes edges >>= fun _ =>
  collectPatches deletes edges ∅ >>= fun patches =>
  .ok ⟨deletes, patches, collectMemberRemovals deletes edges ∅⟩

end Graph

end Liasse.Runtime

namespace Liasse.Runtime.Graph

open Store

/-- The removal of a row removes another one. -/
def Cascades (edges : List RefEdge) (target source : RowRef) : Prop :=
  ∃ edge ∈ edges, edge.policy = .cascade ∧ edge.target = target ∧ edge.source = source

/-- The rows contain the initial rows and the source of each cascade from one of them. -/
structure Closed (edges : List RefEdge) (initial : List RowRef) (rows : Set RowRef) : Prop where
  starts : ∀ row ∈ initial, row ∈ rows
  follows : ∀ target source, Cascades edges target source → target ∈ rows → source ∈ rows

/-- The edges whose source is not removed yet. -/
def pending (edges : List RefEdge) (deletes : List RowRef) : ℕ :=
  (edges.filter fun edge => edge.source ∉ deletes).length

theorem pending_le {edges : List RefEdge} {deletes more : List RowRef} (grows : ∀ row ∈ deletes, row ∈ more) :
    pending edges more ≤ pending edges deletes := by
  refine (List.monotone_filter_right _ fun edge kept => ?_).length_le
  simp only [decide_eq_true_eq] at kept ⊢
  exact fun inside => kept (grows _ inside)

theorem pending_lt {edges : List RefEdge} {deletes : List RowRef} {edge : RefEdge} (inside : edge ∈ edges)
    (fresh : edge.source ∉ deletes) : pending edges (deletes ++ [edge.source]) < pending edges deletes := by
  have grows (row : RowRef) (listed : row ∈ deletes) : row ∈ deletes ++ [edge.source] :=
    List.mem_append_left _ listed
  obtain ⟨before, after, rfl⟩ := List.append_of_mem inside
  have left : pending before (deletes ++ [edge.source]) ≤ pending before deletes := pending_le grows
  have right : pending after (deletes ++ [edge.source]) ≤ pending after deletes := pending_le grows
  simp only [pending, List.filter_append, List.length_append, List.filter_cons] at left right ⊢
  rw [if_neg (by simp), if_pos (by simpa using fresh), List.length_cons]
  omega

/-- An edge adds its source to the removed rows and to the frontier, or it adds nothing. -/
theorem expand_cons (target : RowRef) (edge : RefEdge) (rest : List RefEdge)
    (state : List RowRef × List RowRef) :
    (edge.policy = .cascade ∧ edge.target = target ∧ edge.source ∉ state.1 ∧
      expand target (edge :: rest) state =
        expand target rest (state.1 ++ [edge.source], edge.source :: state.2)) ∨
    ((edge.policy = .cascade → edge.target = target → edge.source ∈ state.1) ∧
      expand target (edge :: rest) state = expand target rest state) := by
  obtain ⟨deletes, frontier⟩ := state
  rw [expand]
  split
  · rename_i cascade
    by_cases joins : edge.target = target ∧ edge.source ∉ deletes
    · exact .inl ⟨cascade, joins.1, joins.2, by rw [if_pos joins]⟩
    · refine .inr ⟨fun _ same => ?_, by rw [if_neg joins]⟩
      by_contra fresh
      exact joins ⟨same, fresh⟩
  · rename_i other
    exact .inr ⟨fun cascade => absurd cascade other, rfl⟩

/-- What the edges of one target add. -/
structure Expanded (edges : List RefEdge) (target : RowRef) (visited : List RefEdge)
    (before after : List RowRef × List RowRef) : Prop where
  grows : ∀ row ∈ before.1, row ∈ after.1
  keeps : ∀ row ∈ before.2, row ∈ after.2
  sound : ∀ row ∈ after.1, row ∈ before.1 ∨ Cascades visited target row
  queued : ∀ row ∈ after.1, row ∈ before.1 ∨ row ∈ after.2
  sources : ∀ row ∈ after.2, row ∈ before.2 ∨ row ∈ after.1
  complete : ∀ row, Cascades visited target row → row ∈ after.1
  bounded : after.2.length + pending edges after.1 ≤ before.2.length + pending edges before.1

theorem Cascades.cons {edge : RefEdge} {rest : List RefEdge} {target source : RowRef}
    (cascades : Cascades rest target source) : Cascades (edge :: rest) target source := by
  obtain ⟨found, listed, shape⟩ := cascades
  exact ⟨found, List.mem_cons_of_mem _ listed, shape⟩

theorem expand_spec {edges : List RefEdge} (target : RowRef) {visited : List RefEdge}
    (inside : ∀ edge ∈ visited, edge ∈ edges) (state : List RowRef × List RowRef) :
    Expanded edges target visited state (expand target visited state) := by
  induction visited generalizing state with
  | nil =>
    refine ⟨fun _ listed => listed, fun _ listed => listed, fun _ listed => .inl listed,
      fun _ listed => .inl listed, fun _ listed => .inl listed, fun row cascades => ?_, Nat.le_refl _⟩
    obtain ⟨edge, listed, _⟩ := cascades
    cases listed
  | cons edge rest earlier =>
    obtain ⟨here, later⟩ := List.forall_mem_cons.mp inside
    rcases expand_cons target edge rest state with ⟨cascade, same, fresh, step⟩ | ⟨known, step⟩
    · have spec := earlier later (state.1 ++ [edge.source], edge.source :: state.2)
      rw [step]
      have first : Cascades (edge :: rest) target edge.source :=
        ⟨edge, List.mem_cons_self, cascade, same, rfl⟩
      refine ⟨fun row listed => spec.grows row (List.mem_append_left _ listed),
        fun row listed => spec.keeps row (List.mem_cons_of_mem _ listed), fun row listed => ?_,
        fun row listed => ?_, fun row listed => ?_, fun row cascades => ?_, ?_⟩
      · rcases spec.sound row listed with known | cascades
        · rcases List.mem_append.mp known with known | new
          · exact .inl known
          · exact .inr (List.mem_singleton.mp new ▸ first)
        · exact .inr cascades.cons
      · rcases spec.queued row listed with known | queued
        · rcases List.mem_append.mp known with known | new
          · exact .inl known
          · exact .inr (spec.keeps row (List.mem_singleton.mp new ▸ List.mem_cons_self))
        · exact .inr queued
      · rcases spec.sources row listed with waiting | removed
        · rcases List.mem_cons.mp waiting with new | waiting
          · exact .inr (spec.grows row (List.mem_append_right _ (List.mem_singleton.mpr new)))
          · exact .inl waiting
        · exact .inr removed
      · obtain ⟨found, listed, shape⟩ := cascades
        rcases List.mem_cons.mp listed with rfl | listed
        · exact spec.grows row (List.mem_append_right _ (shape.2.2 ▸ List.mem_cons_self))
        · exact spec.complete row ⟨found, listed, shape⟩
      · have fewer := pending_lt here fresh
        have bounded := spec.bounded
        simp only [List.length_cons] at bounded
        omega
    · have spec := earlier later state
      rw [step]
      refine ⟨spec.grows, spec.keeps, fun row listed => (spec.sound row listed).imp_right .cons,
        spec.queued, spec.sources, fun row cascades => ?_, spec.bounded⟩
      obtain ⟨found, listed, shape⟩ := cascades
      rcases List.mem_cons.mp listed with rfl | listed
      · exact spec.grows row (shape.2.2 ▸ known shape.1 shape.2.1)
      · exact spec.complete row ⟨found, listed, shape⟩

theorem expand_visits (edges : List RefEdge) (target : RowRef) (state : List RowRef × List RowRef) :
    Expanded edges target edges state (expand target edges state) :=
  expand_spec target (fun _ listed => listed) state

/-- The removed rows are reached from the initial ones, and what cascades from a removed row is removed or
its target waits. -/
structure Searching (edges : List RefEdge) (initial : List RowRef) (state : List RowRef × List RowRef) :
    Prop where
  starts : ∀ row ∈ initial, row ∈ state.1
  waits : ∀ row ∈ state.2, row ∈ state.1
  reached : ∀ rows : Set RowRef, Closed edges initial rows → ∀ row ∈ state.1, row ∈ rows
  follows : ∀ target source, Cascades edges target source → target ∈ state.1 →
    target ∈ state.2 ∨ source ∈ state.1

theorem Searching.start (edges : List RefEdge) (initial : List RowRef) :
    Searching edges initial (initial, initial.reverse) where
  starts _ listed := listed
  waits _ listed := List.mem_reverse.mp listed
  reached _ closed row listed := closed.starts row listed
  follows _ _ _ listed := .inl (List.mem_reverse.mpr listed)

/-- A step takes a row from the frontier and adds what cascades from it. -/
theorem Searching.step {edges : List RefEdge} {initial deletes frontier : List RowRef} {target : RowRef}
    (searching : Searching edges initial (deletes, target :: frontier)) :
    Searching edges initial (expand target edges (deletes, frontier)) := by
  have spec := expand_visits edges target (deletes, frontier)
  refine ⟨fun row listed => spec.grows row (searching.starts row listed), fun row listed => ?_,
    fun rows closed row listed => ?_, fun other source cascades listed => ?_⟩
  · rcases spec.sources row listed with waiting | removed
    · exact spec.grows row (searching.waits row (List.mem_cons_of_mem _ waiting))
    · exact removed
  · rcases spec.sound row listed with known | cascades
    · exact searching.reached rows closed row known
    · have first : target ∈ rows :=
        searching.reached rows closed target (searching.waits target List.mem_cons_self)
      exact closed.follows target row cascades first
  · rcases spec.queued other listed with known | queued
    · rcases searching.follows other source cascades known with waiting | removed
      · rcases List.mem_cons.mp waiting with rfl | waiting
        · exact .inr (spec.complete source cascades)
        · exact .inl (spec.keeps other waiting)
      · exact .inr (spec.grows source removed)
    · exact .inl queued

/-- The removed rows of an ended search are the least closed set. -/
theorem Searching.isLeast {edges : List RefEdge} {initial deletes : List RowRef}
    (searching : Searching edges initial (deletes, [])) :
    IsLeast {rows | Closed edges initial rows} {row | row ∈ deletes} := by
  refine ⟨⟨searching.starts, fun target source cascades removed => ?_⟩, fun rows closed row removed => ?_⟩
  · exact (searching.follows target source cascades removed).resolve_left List.not_mem_nil
  · exact searching.reached rows closed row removed

/-- With enough steps the search ends with the least closed set. -/
theorem isLeast_cascadeClosure {edges : List RefEdge} {initial : List RowRef} {fuel : ℕ}
    {state : List RowRef × List RowRef} (searching : Searching edges initial state)
    (enough : state.2.length + pending edges state.1 ≤ fuel) :
    IsLeast {rows | Closed edges initial rows} {row | row ∈ cascadeClosure edges fuel state} := by
  induction fuel generalizing state with
  | zero =>
    obtain ⟨deletes, frontier⟩ := state
    have few : frontier.length ≤ 0 := (Nat.le_add_right _ _).trans enough
    obtain rfl := List.length_eq_zero_iff.mp (Nat.le_zero.mp few)
    exact searching.isLeast
  | succ fuel earlier =>
    obtain ⟨deletes, frontier⟩ := state
    cases frontier with
    | nil => exact searching.isLeast
    | cons target frontier =>
      have bounded := (expand_visits edges target (deletes, frontier)).bounded
      refine earlier searching.step (bounded.trans ?_)
      simp only [List.length_cons] at enough ⊢
      omega

/-- The rows that a deletion removes. -/
def removed (edges : List RefEdge) (initial : List RowRef) : List RowRef :=
  cascadeClosure edges (initial.length + edges.length) (initial, initial.reverse)

theorem isLeast_removed (edges : List RefEdge) (initial : List RowRef) :
    IsLeast {rows | Closed edges initial rows} {row | row ∈ removed edges initial} := by
  refine isLeast_cascadeClosure (.start edges initial) ?_
  have few : pending edges initial ≤ edges.length := List.length_filter_le _ _
  simp only [List.length_reverse]
  omega

theorem cascades_congr {edges others : List RefEdge} (same : ∀ edge, edge ∈ edges ↔ edge ∈ others)
    (target source : RowRef) : Cascades edges target source ↔ Cascades others target source :=
  exists_congr fun edge => and_congr_left fun _ => same edge

/-- The removed rows depend on the cascades and on the set of the initial rows alone. -/
theorem mem_removed_congr {edges others : List RefEdge} {initial starts : List RowRef}
    (cascades : ∀ target source, Cascades edges target source ↔ Cascades others target source)
    (sameRows : ∀ row, row ∈ initial ↔ row ∈ starts) (row : RowRef) :
    row ∈ removed edges initial ↔ row ∈ removed others starts := by
  have sets : {rows | Closed edges initial rows} = {rows | Closed others starts rows} := by
    ext rows
    constructor
    · intro closed
      exact ⟨fun row listed => closed.starts row ((sameRows row).mpr listed),
        fun target source step => closed.follows target source ((cascades target source).mpr step)⟩
    · intro closed
      exact ⟨fun row listed => closed.starts row ((sameRows row).mp listed),
        fun target source step => closed.follows target source ((cascades target source).mp step)⟩
  have least := isLeast_removed edges initial
  rw [sets] at least
  exact Set.ext_iff.mp (least.unique (isLeast_removed others starts)) row

end Liasse.Runtime.Graph

/-
This file proves what the plan of a deletion removes and changes, for every order of its edges.
-/

import Liasse.Runtime.Closure

namespace Liasse.Runtime.Graph

open Store

section Checks

variable {edges : List RefEdge} {deletes : List RowRef}

/-- A restricting reference of a surviving row to a removed row. -/
def Restricts (deletes : List RowRef) (edge : RefEdge) : Prop :=
  edge.policy = .restrict ∧ RefEdge.dangles deletes edge = true

/-- A reference without a policy of a surviving row to a removed row. -/
def Undecides (deletes : List RowRef) (edge : RefEdge) : Prop :=
  edge.policy = .undecided ∧ RefEdge.dangles deletes edge = true

/-- A scan that stops at the first blocking edge passes or reports that edge. -/
theorem scan_spec {blocks : RefEdge → Prop} {f : RefEdge → DeleteError}
    {scan : List RefEdge → Except DeleteError Unit} (empty : scan [] = .ok ())
    (stops : ∀ edge rest, blocks edge → scan (edge :: rest) = .error (f edge))
    (passes : ∀ edge rest, ¬ blocks edge → scan (edge :: rest) = scan rest) (edges : List RefEdge) :
    (scan edges = .ok () ∧ ∀ edge ∈ edges, ¬ blocks edge) ∨
    ∃ before edge after, edges = before ++ edge :: after ∧ (∀ other ∈ before, ¬ blocks other) ∧
      blocks edge ∧ scan edges = .error (f edge) := by
  induction edges with
  | nil => exact .inl ⟨empty, fun _ listed => absurd listed List.not_mem_nil⟩
  | cons edge rest earlier =>
    by_cases here : blocks edge
    · exact .inr ⟨[], edge, rest, rfl, fun _ listed => absurd listed List.not_mem_nil, here,
        stops edge rest here⟩
    · rw [passes edge rest here]
      rcases earlier with ⟨silent, none⟩ | ⟨before, found, after, split, none, blocking, fails⟩
      · exact .inl ⟨silent, List.forall_mem_cons.mpr ⟨here, none⟩⟩
      · refine .inr ⟨edge :: before, found, after, ?_, List.forall_mem_cons.mpr ⟨here, none⟩, blocking,
          fails⟩
        rw [split, List.cons_append]

theorem checkRestrict_spec (deletes : List RowRef) (edges : List RefEdge) :
    (checkRestrict deletes edges = .ok () ∧ ∀ edge ∈ edges, ¬ Restricts deletes edge) ∨
    ∃ before edge after, edges = before ++ edge :: after ∧ (∀ other ∈ before, ¬ Restricts deletes other) ∧
      Restricts deletes edge ∧
      checkRestrict deletes edges = .error (.restricted edge.source edge.field edge.target) := by
  refine scan_spec (f := fun edge => .restricted edge.source edge.field edge.target) rfl
    (fun edge rest blocks => ?_) (fun edge rest free => ?_) edges
  · rw [checkRestrict, blocks.1]
    exact if_pos blocks.2
  · rw [checkRestrict]
    split
    · next restrict => exact if_neg fun dangles => free ⟨restrict, dangles⟩
    · rfl

theorem checkUndecided_spec (deletes : List RowRef) (edges : List RefEdge) :
    (checkUndecided deletes edges = .ok () ∧ ∀ edge ∈ edges, ¬ Undecides deletes edge) ∨
    ∃ before edge after, edges = before ++ edge :: after ∧ (∀ other ∈ before, ¬ Undecides deletes other) ∧
      Undecides deletes edge ∧
      checkUndecided deletes edges = .error (.danglingUndecided edge.source edge.field edge.target) := by
  refine scan_spec (f := fun edge => .danglingUndecided edge.source edge.field edge.target) rfl
    (fun edge rest blocks => ?_) (fun edge rest free => ?_) edges
  · rw [checkUndecided, blocks.1]
    exact if_pos blocks.2
  · rw [checkUndecided]
    split
    · next undecided => exact if_neg fun dangles => free ⟨undecided, dangles⟩
    · rfl

end Checks

section Patching

/-- An edge of a surviving row to a removed row has these assignments. -/
def Carries (deletes : List RowRef) (edge : RefEdge) (row : RowRef) (added : List (FieldPath × Value)) : Prop :=
  RefEdge.dangles deletes edge = true ∧ edge.source = row ∧ assignments edge = some added

/-- An edge assigns a value to a field of a surviving row. -/
def Assigns (deletes : List RowRef) (edges : List RefEdge) (row : RowRef) (path : FieldPath) (value : Value) :
    Prop :=
  ∃ edge ∈ edges, ∃ added, Carries deletes edge row added ∧ (path, value) ∈ added

/-- An edge has assignments for a surviving row. -/
def Touches (deletes : List RowRef) (edges : List RefEdge) (row : RowRef) : Prop :=
  ∃ edge ∈ edges, ∃ added, Carries deletes edge row added

/-- Two edges assign different values to one field of a surviving row. -/
def Conflicts (deletes : List RowRef) (edges : List RefEdge) (row : RowRef) (path : FieldPath) : Prop :=
  ∃ first second, Assigns deletes edges row path first ∧ Assigns deletes edges row path second ∧
    (first == second) = false

/-- The assignments of a row join when no field gets two values. -/
theorem addAssignments_spec (row : RowRef) (added : List (FieldPath × Value))
    {patch : Std.ExtTreeMap FieldPath Value compare} {assigned : FieldPath → Value → Prop}
    (holds : Codes.Holds assigned patch) :
    (∃ result, addAssignments row added patch = .ok result ∧
      Codes.Holds (fun path value => assigned path value ∨ (path, value) ∈ added) result) ∨
    ∃ path first second, addAssignments row added patch = .error (.conflictingPatch row path) ∧
      (assigned path first ∨ (path, first) ∈ added) ∧ (path, second) ∈ added ∧
      (first == second) = false := by
  induction added generalizing patch assigned with
  | nil => exact .inl ⟨patch, rfl, holds.congr fun _ _ => by simp only [List.not_mem_nil, or_false]⟩
  | cons entry rest earlier =>
    obtain ⟨path, value⟩ := entry
    by_cases agrees : ∀ kept, patch[path]? = some kept → (kept == value) = true
    · have step : addAssignments row ((path, value) :: rest) patch =
          addAssignments row rest (patch.insert path value) := by
        rw [addAssignments]
        split
        · next kept stored => exact if_pos (agrees kept stored)
        · rfl
      rw [step]
      rcases earlier (holds.insert agrees) with ⟨result, joined, more⟩ | ⟨other, first, second, fails, left, right, differ⟩
      · refine .inl ⟨result, joined, more.congr fun other next => ?_⟩
        rw [List.mem_cons, Prod.mk.injEq, or_assoc]
      · refine .inr ⟨other, first, second, fails, ?_, List.mem_cons_of_mem _ right, differ⟩
        rw [List.mem_cons, Prod.mk.injEq, ← or_assoc]
        exact left
    · push Not at agrees
      obtain ⟨kept, stored, differ⟩ := agrees
      refine .inr ⟨path, kept, value, ?_, .inl (holds.sound path kept stored), List.mem_cons_self,
        Bool.eq_false_iff.mpr differ⟩
      rw [addAssignments, stored]
      exact if_neg differ

/-- The patches hold the assignments to each row. -/
structure Patched (assigns : RowRef → FieldPath → Value → Prop) (touches : RowRef → Prop) (patches : Patches) :
    Prop where
  holds : ∀ row, Codes.Holds (assigns row) (patches.getD row ∅)
  listed : ∀ row, row ∈ patches ↔ touches row

theorem Patched.empty : Patched (fun _ _ _ => False) (fun _ => False) ∅ := by
  refine ⟨fun row => ?_, fun row => ?_⟩
  · rw [Std.ExtTreeMap.getD_empty]
    exact .empty
  · exact iff_of_false Std.ExtTreeMap.not_mem_empty id

/-- The patch of one row joins the others. -/
theorem Patched.insert {assigns : RowRef → FieldPath → Value → Prop} {touches : RowRef → Prop}
    {patches : Patches} {row : RowRef} {added : List (FieldPath × Value)}
    {patch : Std.ExtTreeMap FieldPath Value compare} (patched : Patched assigns touches patches)
    (joined : Codes.Holds (fun path value => assigns row path value ∨ (path, value) ∈ added) patch) :
    Patched (fun other path value => assigns other path value ∨ (other = row ∧ (path, value) ∈ added))
      (fun other => touches other ∨ other = row) (patches.insert row patch) := by
  refine ⟨fun other => ?_, fun other => ?_⟩
  · by_cases same : other = row
    · subst same
      rw [Std.ExtTreeMap.getD_insert_self]
      exact joined.congr fun path value => by simp only [true_and]
    · rw [Codes.getD_insert_of_ne same]
      exact (patched.holds other).congr fun path value => by simp only [same, false_and, or_false]
  · rw [Std.ExtTreeMap.mem_insert, Std.LawfulEqOrd.compare_eq_iff_eq, patched.listed other, or_comm,
      eq_comm]

theorem carries_iff {deletes : List RowRef} {edge : RefEdge} {added more : List (FieldPath × Value)}
    {row : RowRef} (carries : Carries deletes edge edge.source added) :
    Carries deletes edge row more ↔ row = edge.source ∧ more = added := by
  obtain ⟨dangles, _, assigned⟩ := carries
  constructor
  · rintro ⟨_, same, found⟩
    exact ⟨same.symm, Option.some.inj (found.symm.trans assigned)⟩
  · rintro ⟨rfl, rfl⟩
    exact ⟨dangles, rfl, assigned⟩

theorem assigns_cons {deletes : List RowRef} {edge : RefEdge} (rest : List RefEdge)
    {added : List (FieldPath × Value)} (carries : Carries deletes edge edge.source added) (row : RowRef)
    (path : FieldPath) (value : Value) :
    Assigns deletes (edge :: rest) row path value ↔
      (row = edge.source ∧ (path, value) ∈ added) ∨ Assigns deletes rest row path value := by
  simp only [Assigns, List.exists_mem_cons_iff, carries_iff carries]
  apply or_congr_left
  constructor
  · rintro ⟨_, ⟨here, rfl⟩, inside⟩
    exact ⟨here, inside⟩
  · rintro ⟨here, inside⟩
    exact ⟨added, ⟨here, rfl⟩, inside⟩

theorem touches_cons {deletes : List RowRef} {edge : RefEdge} {rest : List RefEdge}
    {added : List (FieldPath × Value)} (carries : Carries deletes edge edge.source added) (row : RowRef) :
    Touches deletes (edge :: rest) row ↔ row = edge.source ∨ Touches deletes rest row := by
  simp only [Touches, List.exists_mem_cons_iff, carries_iff carries, exists_and_left, exists_eq, and_true]

/-- The patches hold all assignments, unless two of them conflict. -/
theorem collectPatches_spec (deletes : List RowRef) (edges : List RefEdge) {patches : Patches}
    {assigns : RowRef → FieldPath → Value → Prop} {touches : RowRef → Prop}
    (patched : Patched assigns touches patches) :
    (∃ result, collectPatches deletes edges patches = .ok result ∧
      Patched (fun row path value => assigns row path value ∨ Assigns deletes edges row path value)
        (fun row => touches row ∨ Touches deletes edges row) result) ∨
    ∃ row path first second, collectPatches deletes edges patches = .error (.conflictingPatch row path) ∧
      (assigns row path first ∨ Assigns deletes edges row path first) ∧
      Assigns deletes edges row path second ∧ (first == second) = false := by
  induction edges generalizing patches assigns touches with
  | nil =>
    refine .inl ⟨patches, rfl, fun row => ?_, fun row => ?_⟩
    · apply (patched.holds row).congr
      intro path value
      simp only [Assigns, List.not_mem_nil, false_and, exists_false, or_false]
    · rw [patched.listed row]
      simp only [Touches, List.not_mem_nil, false_and, exists_false, or_false]
  | cons edge rest earlier =>
    by_cases carries : ∃ added, Carries deletes edge edge.source added
    · obtain ⟨added, carries⟩ := carries
      have cons := assigns_cons rest carries
      rw [collectPatches, if_pos carries.1, carries.2.2]
      rcases addAssignments_spec edge.source added (patched.holds edge.source) with
        ⟨patch, joins, joined⟩ | ⟨path, first, second, fails, left, right, differ⟩
      · simp only [joins]
        rcases earlier (patched.insert joined) with
          ⟨result, collected, all⟩ | ⟨row, path, first, second, fails, left, right, differ⟩
        · refine .inl ⟨result, collected, fun row => ?_, fun row => ?_⟩
          · exact (all.holds row).congr fun path value => by rw [cons, or_assoc]
          · rw [all.listed row, or_assoc, touches_cons carries]
        · refine .inr ⟨row, path, first, second, fails, ?_, (cons _ _ _).mpr (.inr right), differ⟩
          rw [cons, ← or_assoc]
          exact left
      · refine .inr ⟨edge.source, path, first, second, ?_, ?_, (cons _ _ _).mpr (.inl ⟨rfl, right⟩), differ⟩
        · simp only [fails]
        · exact left.imp_right fun inside => (cons _ _ _).mpr (.inl ⟨rfl, inside⟩)
    · have none (row : RowRef) (more : List (FieldPath × Value)) : ¬ Carries deletes edge row more :=
        fun found => carries ⟨more, found.1, rfl, found.2.2⟩
      have step : collectPatches deletes (edge :: rest) patches = collectPatches deletes rest patches := by
        rw [collectPatches]
        split
        · next dangles =>
            split
            · next added assigned => exact absurd ⟨added, dangles, rfl, assigned⟩ carries
            · rfl
        · rfl
      have same (row : RowRef) (path : FieldPath) (value : Value) :
          Assigns deletes (edge :: rest) row path value ↔ Assigns deletes rest row path value := by
        simp only [Assigns, List.exists_mem_cons_iff, none, false_and, exists_false, false_or]
      have touched (row : RowRef) : Touches deletes (edge :: rest) row ↔ Touches deletes rest row := by
        simp only [Touches, List.exists_mem_cons_iff, none, exists_false, false_or]
      rw [step]
      simp only [same, touched]
      exact earlier patched

/-- The patches of a plan hold all assignments, unless two of them conflict. -/
theorem patches_spec (deletes : List RowRef) (edges : List RefEdge) :
    (∃ result, collectPatches deletes edges ∅ = .ok result ∧
      Patched (Assigns deletes edges) (Touches deletes edges) result) ∨
    ∃ row path, collectPatches deletes edges ∅ = .error (.conflictingPatch row path) ∧
      Conflicts deletes edges row path := by
  rcases collectPatches_spec deletes edges .empty with
    ⟨result, collected, patched⟩ | ⟨row, path, first, second, fails, left, right, differ⟩
  · simp only [false_or] at patched
    exact .inl ⟨result, collected, patched⟩
  · exact .inr ⟨row, path, fails, first, second, left.resolve_left id, right, differ⟩

/-- Patches that hold all assignments leave no conflict. -/
theorem Patched.consistent {deletes : List RowRef} {edges : List RefEdge} {patches : Patches}
    (patched : Patched (Assigns deletes edges) (Touches deletes edges) patches) (row : RowRef)
    (path : FieldPath) : ¬ Conflicts deletes edges row path := by
  rintro ⟨first, second, left, right, differ⟩
  rw [(patched.holds row).agree left right] at differ
  cases differ

end Patching

section Members

/-- The members that a row drops from one of its sets. -/
def dropped (removals : MemberRemovals) (row : RowRef) (field : String) : List Value :=
  (removals.getD row ∅).getD field []

/-- The member that an edge of a surviving row to a removed row drops from a set. -/
def droppedBy (deletes : List RowRef) (row : RowRef) (field : String) (edge : RefEdge) : Option Value :=
  match edge.policy with
  | .dropMember member =>
    if RefEdge.dangles deletes edge = true ∧ edge.source = row ∧ edge.field = field then some member
    else none
  | _ => none

/-- Rows and sets are listed when they drop a member. -/
structure Listed (removals : MemberRemovals) : Prop where
  rows : ∀ row, row ∈ removals ↔ ∃ field, dropped removals row field ≠ []
  fields : ∀ row field, field ∈ removals.getD row ∅ ↔ dropped removals row field ≠ []

theorem Listed.empty : Listed ∅ := by
  constructor
  · intro row
    simp [dropped]
  · intro row field
    simp [dropped]

/-- A row drops one more member. -/
def addRemoval (removals : MemberRemovals) (row : RowRef) (field : String) (member : Value) : MemberRemovals :=
  removals.insert row
    ((removals.getD row ∅).insert field ((removals.getD row ∅).getD field [] ++ [member]))

theorem dropped_addRemoval (removals : MemberRemovals) (row other : RowRef) (field name : String)
    (member : Value) :
    dropped (addRemoval removals row field member) other name =
      dropped removals other name ++ if row = other ∧ field = name then [member] else [] := by
  rw [dropped, addRemoval]
  by_cases sameRow : row = other
  · subst sameRow
    rw [Std.ExtTreeMap.getD_insert_self]
    by_cases sameField : field = name
    · subst sameField
      rw [Std.ExtTreeMap.getD_insert_self, if_pos ⟨rfl, rfl⟩, dropped]
    · rw [if_neg fun both => sameField both.2, List.append_nil,
        Codes.getD_insert_of_ne (Ne.symm sameField), dropped]
  · rw [if_neg fun both => sameRow both.1, List.append_nil,
      Codes.getD_insert_of_ne (Ne.symm sameRow), dropped]

theorem Listed.addRemoval {removals : MemberRemovals} (listed : Listed removals) (row : RowRef)
    (field : String) (member : Value) : Listed (addRemoval removals row field member) := by
  have some (other : RowRef) (name : String) :
      dropped (Graph.addRemoval removals row field member) other name ≠ [] ↔
        dropped removals other name ≠ [] ∨ (row = other ∧ field = name) := by
    rw [dropped_addRemoval]
    split
    · next here => exact iff_of_true (by simp) (.inr here)
    · next elsewhere => rw [List.append_nil, or_iff_left elsewhere]
  constructor
  · intro other
    simp only [some, exists_or, exists_and_left, exists_eq', and_true]
    rw [← listed.rows other, Graph.addRemoval, Std.ExtTreeMap.mem_insert, Std.LawfulEqOrd.compare_eq_iff_eq,
      or_comm]
  · intro other name
    rw [some, ← listed.fields other name, Graph.addRemoval]
    by_cases same : row = other
    · subst same
      rw [Std.ExtTreeMap.getD_insert_self, Std.ExtTreeMap.mem_insert, compareText_eq_iff, or_comm]
      simp only [true_and]
    · rw [Codes.getD_insert_of_ne (Ne.symm same)]
      simp only [same, false_and, or_false]

/-- The plan drops the members of all edges in their order. -/
theorem collectMemberRemovals_spec (deletes : List RowRef) (edges : List RefEdge) {removals : MemberRemovals}
    (listed : Listed removals) :
    Listed (collectMemberRemovals deletes edges removals) ∧
    ∀ row field, dropped (collectMemberRemovals deletes edges removals) row field =
      dropped removals row field ++ edges.filterMap (droppedBy deletes row field) := by
  induction edges generalizing removals with
  | nil => exact ⟨listed, fun row field => (List.append_nil _).symm⟩
  | cons edge rest earlier =>
    by_cases drops : ∃ member, edge.policy = .dropMember member ∧ RefEdge.dangles deletes edge = true
    · obtain ⟨member, policy, dangles⟩ := drops
      have step : collectMemberRemovals deletes (edge :: rest) removals =
          collectMemberRemovals deletes rest (addRemoval removals edge.source edge.field member) := by
        rw [collectMemberRemovals, policy]
        simp only [dangles, if_true]
        rfl
      obtain ⟨tidy, collected⟩ := earlier (listed.addRemoval edge.source edge.field member)
      rw [step]
      refine ⟨tidy, fun row field => ?_⟩
      rw [collected, dropped_addRemoval, List.append_assoc, List.filterMap_cons]
      simp only [droppedBy, policy, dangles, true_and]
      split
      · rfl
      · rfl
    · have none (row : RowRef) (field : String) : droppedBy deletes row field edge = none := by
        rw [droppedBy]
        split
        · next member policy => exact if_neg fun all => drops ⟨member, policy, all.1⟩
        · rfl
      have step : collectMemberRemovals deletes (edge :: rest) removals =
          collectMemberRemovals deletes rest removals := by
        rw [collectMemberRemovals]
        split
        · next member policy => rw [if_neg fun dangles => drops ⟨member, policy, dangles⟩]
        · rfl
      obtain ⟨tidy, collected⟩ := earlier listed
      rw [step]
      refine ⟨tidy, fun row field => ?_⟩
      rw [collected, List.filterMap_cons, none]

end Members

section Plans

/-- Plans of the same rows, of equal values at the same fields and of the same dropped members. -/
structure Same (first second : DeletionPlan) : Prop where
  deletes : ∀ row, row ∈ first.deletes ↔ row ∈ second.deletes
  patched : ∀ row, row ∈ first.patches ↔ row ∈ second.patches
  patches : ∀ row, Codes.Covers (fun x y => (y == x) = true) (first.patches.getD row ∅)
    (second.patches.getD row ∅)
  back : ∀ row, Codes.Covers (fun x y => (y == x) = true) (second.patches.getD row ∅)
    (first.patches.getD row ∅)
  listed : ∀ row, row ∈ first.memberRemovals ↔ row ∈ second.memberRemovals
  fields : ∀ row field, field ∈ first.memberRemovals.getD row ∅ ↔ field ∈ second.memberRemovals.getD row ∅
  members : ∀ row field, (dropped first.memberRemovals row field).Perm (dropped second.memberRemovals row field)

/-- The three reasons that leave a deletion without a plan. -/
inductive Kind
  | restricted
  | undecided
  | conflicting
  deriving DecidableEq

/-- The reason of a refusal. -/
def kind : DeleteError → Kind
  | .restricted _ _ _ => .restricted
  | .danglingUndecided _ _ _ => .undecided
  | .conflictingPatch _ _ => .conflicting

/-- What a plan contains. -/
structure Planned (edges : List RefEdge) (initial : List RowRef) (plan : DeletionPlan) : Prop where
  deletes : plan.deletes = removed edges initial
  unrestricted : ∀ edge ∈ edges, ¬ Restricts plan.deletes edge
  decided : ∀ edge ∈ edges, ¬ Undecides plan.deletes edge
  patched : Patched (Assigns plan.deletes edges) (Touches plan.deletes edges) plan.patches
  listed : Listed plan.memberRemovals
  members : ∀ row field, dropped plan.memberRemovals row field =
    edges.filterMap (droppedBy plan.deletes row field)

/-- Why a deletion has no plan. -/
def Refused (edges : List RefEdge) (initial : List RowRef) : DeleteError → Prop
  | .restricted source field target => ∃ before edge after, edges = before ++ edge :: after ∧
      (∀ other ∈ before, ¬ Restricts (removed edges initial) other) ∧
      Restricts (removed edges initial) edge ∧ edge.source = source ∧ edge.field = field ∧ edge.target = target
  | .danglingUndecided source field target => ∃ before edge after, edges = before ++ edge :: after ∧
      (∀ other ∈ before, ¬ Undecides (removed edges initial) other) ∧
      Undecides (removed edges initial) edge ∧ edge.source = source ∧ edge.field = field ∧
      edge.target = target ∧ ∀ edge ∈ edges, ¬ Restricts (removed edges initial) edge
  | .conflictingPatch row path => Conflicts (removed edges initial) edges row path ∧
      (∀ edge ∈ edges, ¬ Restricts (removed edges initial) edge) ∧
      ∀ edge ∈ edges, ¬ Undecides (removed edges initial) edge

theorem plan_spec (edges : List RefEdge) (initial : List RowRef) :
    (∃ planned, plan edges initial = .ok planned ∧ Planned edges initial planned) ∨
    ∃ error, plan edges initial = .error error ∧ Refused edges initial error := by
  have unfolded : plan edges initial =
      (checkRestrict (removed edges initial) edges >>= fun _ =>
        checkUndecided (removed edges initial) edges >>= fun _ =>
        collectPatches (removed edges initial) edges ∅ >>= fun patches =>
        .ok ⟨removed edges initial, patches, collectMemberRemovals (removed edges initial) edges ∅⟩) := rfl
  rw [unfolded]
  rcases checkRestrict_spec (removed edges initial) edges with
    ⟨passes, unrestricted⟩ | ⟨before, edge, after, split, earlier, restricts, fails⟩
  · rw [passes, Codes.ok_bind]
    rcases checkUndecided_spec (removed edges initial) edges with
      ⟨passes, decided⟩ | ⟨before, edge, after, split, earlier, undecides, fails⟩
    · rw [passes, Codes.ok_bind]
      rcases patches_spec (removed edges initial) edges with
        ⟨patches, collected, patched⟩ | ⟨row, path, fails, conflicts⟩
      · rw [collected, Codes.ok_bind]
        obtain ⟨listed, members⟩ := collectMemberRemovals_spec (removed edges initial) edges .empty
        refine .inl ⟨_, rfl, rfl, unrestricted, decided, patched, listed, fun row field => ?_⟩
        rw [members]
        simp [dropped]
      · rw [fails]
        exact .inr ⟨_, rfl, conflicts, unrestricted, decided⟩
    · rw [fails]
      exact .inr ⟨_, rfl, before, edge, after, split, earlier, undecides, rfl, rfl, rfl, unrestricted⟩
  · rw [fails]
    exact .inr ⟨_, rfl, before, edge, after, split, earlier, restricts, rfl, rfl, rfl⟩

variable {edges others : List RefEdge} {initial starts : List RowRef}

theorem assigns_congr (sameEdges : ∀ edge, edge ∈ edges ↔ edge ∈ others) {deletes more : List RowRef}
    (sameRows : ∀ row, row ∈ deletes ↔ row ∈ more) (row : RowRef) (path : FieldPath) (value : Value) :
    Assigns deletes edges row path value ↔ Assigns more others row path value := by
  simp only [Assigns, Carries, RefEdge.dangles, sameEdges, sameRows]

theorem touches_congr (sameEdges : ∀ edge, edge ∈ edges ↔ edge ∈ others) {deletes more : List RowRef}
    (sameRows : ∀ row, row ∈ deletes ↔ row ∈ more) (row : RowRef) :
    Touches deletes edges row ↔ Touches more others row := by
  simp only [Touches, Carries, RefEdge.dangles, sameEdges, sameRows]

theorem dangles_congr {deletes more : List RowRef} (sameRows : ∀ row, row ∈ deletes ↔ row ∈ more)
    (edge : RefEdge) : RefEdge.dangles deletes edge = RefEdge.dangles more edge := by
  simp only [RefEdge.dangles, sameRows]

theorem droppedBy_congr {deletes more : List RowRef} (sameRows : ∀ row, row ∈ deletes ↔ row ∈ more)
    (row : RowRef) (field : String) : droppedBy deletes row field = droppedBy more row field := by
  funext edge
  rw [droppedBy, droppedBy, dangles_congr sameRows]

/-- Plans for the same edges and the same initial rows are the same, in each order of these. -/
theorem Planned.same {first second : DeletionPlan} (planned : Planned edges initial first)
    (again : Planned others starts second) (perm : edges.Perm others)
    (sameRows : ∀ row, row ∈ initial ↔ row ∈ starts) : Same first second := by
  have sameEdges (edge : RefEdge) : edge ∈ edges ↔ edge ∈ others := perm.mem_iff
  have deletes (row : RowRef) : row ∈ first.deletes ↔ row ∈ second.deletes := by
    rw [planned.deletes, again.deletes]
    exact mem_removed_congr (cascades_congr sameEdges) sameRows row
  have holds (row : RowRef) :
      Codes.Holds (Assigns first.deletes edges row) (second.patches.getD row ∅) :=
    (again.patched.holds row).congr fun path value => (assigns_congr sameEdges deletes row path value).symm
  have members (row : RowRef) (field : String) :
      (dropped first.memberRemovals row field).Perm (dropped second.memberRemovals row field) := by
    rw [planned.members, again.members, droppedBy_congr deletes]
    exact perm.filterMap _
  have some (row : RowRef) (field : String) :
      dropped first.memberRemovals row field ≠ [] ↔ dropped second.memberRemovals row field ≠ [] :=
    not_congr ⟨fun empty => (empty ▸ members row field).symm.eq_nil, fun empty =>
      (empty ▸ members row field).eq_nil⟩
  exact {
    deletes := deletes
    patched := fun row => by
      rw [planned.patched.listed, again.patched.listed, touches_congr sameEdges deletes]
    patches := fun row => (planned.patched.holds row).covers (holds row)
    back := fun row => (holds row).covers (planned.patched.holds row)
    listed := fun row => by rw [planned.listed.rows, again.listed.rows, exists_congr (some row)]
    fields := fun row field => by rw [planned.listed.fields, again.listed.fields, some row field]
    members := members }

/-- The reason why some edges and initial rows have no plan, in the order of the checks. -/
def Fails (edges : List RefEdge) (deletes : List RowRef) : Kind → Prop
  | .restricted => ∃ edge ∈ edges, Restricts deletes edge
  | .undecided => (∀ edge ∈ edges, ¬ Restricts deletes edge) ∧ ∃ edge ∈ edges, Undecides deletes edge
  | .conflicting => (∀ edge ∈ edges, ¬ Restricts deletes edge) ∧ (∀ edge ∈ edges, ¬ Undecides deletes edge) ∧
      ∃ row path, Conflicts deletes edges row path

theorem Refused.fails {error : DeleteError} (refused : Refused edges initial error) :
    Fails edges (removed edges initial) (kind error) := by
  cases error with
  | restricted source field target =>
    obtain ⟨before, edge, after, split, _, restricts, _⟩ := refused
    exact ⟨edge, split ▸ List.mem_append_right _ List.mem_cons_self, restricts⟩
  | danglingUndecided source field target =>
    obtain ⟨before, edge, after, split, _, undecides, _, _, _, unrestricted⟩ := refused
    exact ⟨unrestricted, edge, split ▸ List.mem_append_right _ List.mem_cons_self, undecides⟩
  | conflictingPatch row path =>
    obtain ⟨conflicts, unrestricted, decided⟩ := refused
    exact ⟨unrestricted, decided, row, path, conflicts⟩

theorem Planned.passes {planned : DeletionPlan} (spec : Planned edges initial planned) (reason : Kind) :
    ¬ Fails edges (removed edges initial) reason := by
  rw [← spec.deletes]
  cases reason with
  | restricted =>
    rintro ⟨edge, listed, restricts⟩
    exact spec.unrestricted edge listed restricts
  | undecided =>
    rintro ⟨_, edge, listed, undecides⟩
    exact spec.decided edge listed undecides
  | conflicting =>
    rintro ⟨_, _, row, path, conflicts⟩
    exact spec.patched.consistent row path conflicts

/-- The reason of a failure is unique. -/
theorem Fails.unique {deletes : List RowRef} {first second : Kind} (left : Fails edges deletes first)
    (right : Fails edges deletes second) : first = second := by
  cases first <;> cases second <;> first | rfl | skip
  · obtain ⟨edge, listed, restricts⟩ := left
    exact absurd restricts (right.1 edge listed)
  · obtain ⟨edge, listed, restricts⟩ := left
    exact absurd restricts (right.1 edge listed)
  · obtain ⟨edge, listed, restricts⟩ := right
    exact absurd restricts (left.1 edge listed)
  · obtain ⟨edge, listed, undecides⟩ := left.2
    exact absurd undecides (right.2.1 edge listed)
  · obtain ⟨edge, listed, restricts⟩ := right
    exact absurd restricts (left.1 edge listed)
  · obtain ⟨edge, listed, undecides⟩ := right.2
    exact absurd undecides (left.2.1 edge listed)

/-- The reason of a failure does not depend on an order. -/
theorem fails_congr (sameEdges : ∀ edge, edge ∈ edges ↔ edge ∈ others) {deletes more : List RowRef}
    (sameRows : ∀ row, row ∈ deletes ↔ row ∈ more) (reason : Kind) :
    Fails edges deletes reason ↔ Fails others more reason := by
  have restricts (edge : RefEdge) : Restricts deletes edge ↔ Restricts more edge := by
    rw [Restricts, Restricts, dangles_congr sameRows]
  have undecides (edge : RefEdge) : Undecides deletes edge ↔ Undecides more edge := by
    rw [Undecides, Undecides, dangles_congr sameRows]
  have conflicts (row : RowRef) (path : FieldPath) :
      Conflicts deletes edges row path ↔ Conflicts more others row path := by
    simp only [Conflicts, assigns_congr sameEdges sameRows]
  cases reason <;> simp only [Fails, sameEdges, restricts, undecides, conflicts]

/-- Outcomes of a plan that agree: the same plan, or a refusal of the same kind. -/
def Agree : Except DeleteError DeletionPlan → Except DeleteError DeletionPlan → Prop
  | .ok first, .ok second => Same first second
  | .error first, .error second => kind first = kind second
  | _, _ => False

/-- The order of the edges and of the initial rows changes at most the reported edge. -/
theorem plan_agree (perm : edges.Perm others) (sameRows : ∀ row, row ∈ initial ↔ row ∈ starts) :
    Agree (plan edges initial) (plan others starts) := by
  have sameEdges (edge : RefEdge) : edge ∈ edges ↔ edge ∈ others := perm.mem_iff
  have fails (reason : Kind) : Fails edges (removed edges initial) reason ↔
      Fails others (removed others starts) reason :=
    fails_congr sameEdges (mem_removed_congr (cascades_congr sameEdges) sameRows) reason
  rcases plan_spec edges initial with ⟨first, planned, spec⟩ | ⟨error, failed, refused⟩
  · rcases plan_spec others starts with ⟨second, next, again⟩ | ⟨error, failed, refused⟩
    · rw [planned, next]
      exact spec.same again perm sameRows
    · exact absurd ((fails _).mpr refused.fails) (spec.passes _)
  · rcases plan_spec others starts with ⟨second, next, again⟩ | ⟨other, stopped, again⟩
    · exact absurd ((fails _).mp refused.fails) (again.passes _)
    · rw [failed, stopped]
      exact ((fails _).mp refused.fails).unique again.fails

end Plans

end Liasse.Runtime.Graph

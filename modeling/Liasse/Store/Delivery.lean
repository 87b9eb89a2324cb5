/-
This file says what the evaluated read of a view delivers.
-/

import Liasse.Store.View

namespace Liasse.Store

open Codes
open Pg (SortDirection sortOrder)

section Meaning

variable (current : RowMap RowAddress)

/-- The address that some steps lead to from a row. -/
def RowAddress.descendant (root : RowAddress) (path : List AddressStep) : RowAddress :=
  path.foldl RowAddress.child root

/-- A row of a subtree is live, and its path goes through live rows of the named collections. -/
structure SubtreeRow (steps : List String) (root : RowAddress) (path : List AddressStep) (value : Value) : Prop where
  below : path ≠ []
  named : ∀ step ∈ path, step.name ∈ steps
  live : ∀ front, front <+: path → front ≠ [] → (current[root.descendant front]?).isSome
  holds : (current[root.descendant path]?).map StoredRow.value = some value

/-- A subtree has each of its rows once, in the order of their paths. -/
structure SubtreeOf (steps : List String) (root : RowAddress) (subtree : CandidateSubtree) : Prop where
  rows : ∀ path value, (path, value) ∈ subtree ↔ SubtreeRow current steps root path value
  ascends : subtree.Pairwise fun first second => compare first.1 second.1 = .lt

/-- No row of a subtree is at the greatest depth. -/
def Shallow (steps : List String) (root : RowAddress) : Prop :=
  ∀ path value, SubtreeRow current steps root path value → path.length < maxSubtreeDepth

/-- The steps that have live rows below one row are named in ascending order, each once. This holds at the root and
at each row of its subtree. -/
def StepsAscend (steps : List String) (root : RowAddress) : Prop :=
  ∀ path, (path = [] ∨ ∃ value, SubtreeRow current steps root path value) →
    steps.Pairwise fun first second =>
      (∃ key, (current[(root.descendant path).child ⟨first, key⟩]?).isSome) →
        (∃ key, (current[(root.descendant path).child ⟨second, key⟩]?).isSome) → compareText first second = .lt

variable (program : ViewProgram)

/-- The program keeps a live row. -/
def Admitted (address : RowAddress) : Prop :=
  ∃ stored subtree, current[address]? = some stored ∧
    prefetchSubtree current address program.subtreeSteps = .ok subtree ∧
    program.admits stored.value address.last.key subtree = .ok true

/-- A row of a view has the incarnation and the output of a live row. -/
def Projected (address : RowAddress) (row : EvaluatedRow) : Prop :=
  ∃ stored subtree, current[address]? = some stored ∧
    prefetchSubtree current address program.subtreeSteps = .ok subtree ∧
    program.project stored.value address.last.key subtree = .ok row.projected ∧ row.incarnation = stored.incarnation

/-- A row of a view has the sort tuple of a live row. -/
def Ranked (address : RowAddress) (row : EvaluatedRow) : Prop :=
  ∃ stored subtree, current[address]? = some stored ∧
    prefetchSubtree current address program.subtreeSteps = .ok subtree ∧
    program.sortTuple stored.value address.last.key subtree = .ok row.sort

/-- The root of a coverage is live, and the program keeps each row on the path. -/
def Covered (root : RowAddress) (field : String) (path : List KeyClass) : Prop :=
  (current[root]?).isSome ∧ ∀ front, front <+: path → front ≠ [] →
    Admitted current program (root.descendant (front.map (AddressStep.mk field)))

/-- The rows that a view evaluates are the live rows of the collection, or the root of a coverage and the live rows
below its covered rows. -/
def Candidate : ViewSource → RowAddress → Prop
  | .collection path, address => address.collection = path ∧ (current[address]?).isSome
  | .coverage root field, address => (current[root]?).isSome ∧ (current[address]?).isSome ∧
      (address = root ∨ ∃ above key, Covered current program root field above ∧
        address = (root.descendant (above.map (AddressStep.mk field))).child ⟨field, key⟩)

/-- The rows of a list within some bounds. -/
def slice (skip limit : Option UInt64) (rows : List EvaluatedRow) : List EvaluatedRow :=
  match limit with
  | none => rows.drop ((skip.map UInt64.toNat).getD 0)
  | some limit => (rows.drop ((skip.map UInt64.toNat).getD 0)).take limit.toNat

/-- The rows of a view are exactly the admitted rows of the collection in their order within the bounds, or exactly
the covered rows in the order of their paths. -/
def Lists (skip limit : Option UInt64) (rows : List EvaluatedRow) : ViewSource → Prop
  | .collection path => ∃ whole, rows = slice skip limit whole ∧
      (∀ row, row ∈ whole ↔ ∃ address, address.collection = path ∧ row.keyPath = [address.last.key] ∧
        Admitted current program address ∧ Projected current program address row ∧ Ranked current program address row) ∧
      whole.Pairwise fun first second => compareSorted program.sortDirections first second = .lt
  | .coverage root field =>
    (∀ row, row ∈ rows ↔ Covered current program root field row.keyPath ∧
      Projected current program (root.descendant (row.keyPath.map (AddressStep.mk field))) row ∧ row.sort = []) ∧
    rows.Pairwise fun first second => compare first.keyPath second.keyPath = .lt

/-- A view lists its rows, and it evaluates each candidate with its subtree. -/
structure Delivered (source : ViewSource) (skip limit : Option UInt64) (rows : List EvaluatedRow) : Prop where
  lists : Lists current program skip limit rows source
  subtrees : ∀ address, Candidate current program source address →
    ∃ subtree, prefetchSubtree current address program.subtreeSteps = .ok subtree ∧
      SubtreeOf current program.subtreeSteps address subtree

/-- The program answers for a live row with a bounded subtree. -/
def Answers (sorts : Bool) (address : RowAddress) : Prop :=
  Shallow current program.subtreeSteps address ∧ ∀ stored subtree, current[address]? = some stored →
    prefetchSubtree current address program.subtreeSteps = .ok subtree →
      ∃ kept, program.admits stored.value address.last.key subtree = .ok kept ∧
        (kept = true → (∃ projected, program.project stored.value address.last.key subtree = .ok projected) ∧
          (sorts = true → ∃ sort, program.sortTuple stored.value address.last.key subtree = .ok sort))

/-- The program answers for each candidate of a source, and no covered row is at the greatest depth. -/
def Answered : ViewSource → Prop
  | .collection path => ∀ address, Candidate current program (.collection path) address →
      Answers current program true address
  | .coverage root field => (current[root]?).isSome → (∃ row, Projected current program root row) ∧
      ∀ path, Covered current program root field path → path.length < maxSubtreeDepth ∧
        ∀ key, (current[(root.descendant (path.map (AddressStep.mk field))).child ⟨field, key⟩]?).isSome →
          Answers current program false ((root.descendant (path.map (AddressStep.mk field))).child ⟨field, key⟩)

end Meaning

section Subtrees

variable {current : RowMap RowAddress}

@[simp] theorem RowAddress.descendant_nil (root : RowAddress) : root.descendant [] = root :=
  rfl

@[simp] theorem RowAddress.descendant_concat (root : RowAddress) (front : List AddressStep) (step : AddressStep) :
    root.descendant (front ++ [step]) = (root.descendant front).child step :=
  List.foldl_concat ..

@[simp] theorem RowAddress.last_child (address : RowAddress) (step : AddressStep) : (address.child step).last = step := by
  rw [RowAddress.last, RowAddress.child, List.getLastD_concat]

/-- A row of a nested collection is a child of the row that contains it. -/
theorem collection_eq_nested_iff {address parent : RowAddress} {name : String} :
    address.collection = .nested parent name ↔ ∃ key, address = parent.child ⟨name, key⟩ := by
  constructor
  · intro same
    refine ⟨address.last.key, RowAddress.steps_inj.mp ?_⟩
    rw [← CollectionPath.row_collection address, same, CollectionPath.steps_row, CollectionPath.last_row]
    rfl
  · rintro ⟨key, rfl⟩
    rw [RowAddress.collection, RowAddress.last_child, RowAddress.steps_child, List.dropLast_concat]
    rfl

/-- A scan of a nested collection lists the live children of a row in the order of their keys. -/
theorem mem_scan_nested {parent address : RowAddress} {name : String} {row : StoredRow} :
    (address, row) ∈ MemoryStore.scan current (.nested parent name) ↔
      ∃ key, address = parent.child ⟨name, key⟩ ∧ current[parent.child ⟨name, key⟩]? = some row := by
  rw [MemoryStore.mem_scan, collection_eq_nested_iff]
  constructor
  · rintro ⟨live, key, rfl⟩
    exact ⟨key, rfl, live⟩
  · rintro ⟨key, rfl, live⟩
    exact ⟨live, key, rfl⟩

/-- Two rows of one collection have the order of their keys. -/
theorem compare_key_of_collection {first second : RowAddress} (same : first.collection = second.collection) :
    compare first second = compare first.last.key second.last.key := by
  obtain ⟨ancestors, names⟩ := CollectionPath.mk.inj same
  have steps : compare first second =
      compare (first.steps.dropLast ++ [first.last]) (first.steps.dropLast ++ [second.last]) := by
    conv_rhs => rw [← RowAddress.steps_eq first, ancestors, ← RowAddress.steps_eq second]
    rfl
  have single : compare [first.last] [second.last] = (compare first.last second.last).then .eq :=
    List.compareLex_cons_cons ..
  have level : compare first.last second.last =
      (compareText first.last.name second.last.name).then (compare first.last.key second.last.key) := rfl
  rw [steps, compare_below, single, Ordering.then_eq, level, names, (compareText_eq_iff _ _).mpr rfl]
  rfl

/-- The keys of a scan ascend. -/
theorem keys_ascend (current : RowMap RowAddress) (collection : CollectionPath) :
    (MemoryStore.scan current collection).Pairwise fun first second =>
      compare first.1.last.key second.1.last.key = .lt := by
  refine (MemoryStore.ordered_scan current collection).imp_of_mem fun {first second} one two below => ?_
  rwa [← compare_key_of_collection ((MemoryStore.mem_scan.mp one).2.trans (MemoryStore.mem_scan.mp two).2.symm)]

theorem mem_subtreeChildren {steps : List String} {parent child : RowAddress} {label : AddressStep} {row : StoredRow} :
    (label, child, row) ∈ subtreeChildren current steps parent ↔
      child = parent.child label ∧ label.name ∈ steps ∧ current[parent.child label]? = some row := by
  rw [subtreeChildren, List.mem_flatMap]
  constructor
  · rintro ⟨step, listed, inside⟩
    obtain ⟨⟨address, stored⟩, scanned, same⟩ := List.mem_map.mp inside
    obtain ⟨rfl, rest⟩ := Prod.mk.inj same
    obtain ⟨rfl, rfl⟩ := Prod.mk.inj rest
    obtain ⟨key, rfl, live⟩ := mem_scan_nested.mp scanned
    rw [RowAddress.last_child]
    exact ⟨rfl, listed, live⟩
  · rintro ⟨rfl, listed, live⟩
    refine ⟨label.name, listed, List.mem_map.mpr
      ⟨(parent.child label, row), mem_scan_nested.mpr ⟨label.key, rfl, live⟩, ?_⟩⟩
    rw [RowAddress.last_child]

/-- The descent into a subtree finds exactly its rows. -/
theorem found_subtree_iff {steps : List String} {root node : RowAddress} {path : List AddressStep} {value : Value} :
    Found (subtreeChildren current steps) subtreeVisit root path node value ↔
      node = root.descendant path ∧ SubtreeRow current steps root path value := by
  rw [found_iff (fun _ _ _ _ => mem_subtreeChildren)]
  constructor
  · rintro ⟨below, same, each⟩
    refine ⟨same, below, fun step inside => ?_, fun front started nonempty => ?_, ?_⟩
    · obtain ⟨front, rest, split⟩ := List.append_of_mem inside
      obtain ⟨_, _, ⟨listed, _⟩, _⟩ := each front step rest split
      exact listed
    · obtain ⟨rest, split⟩ := started
      obtain ⟨init, last, rfl⟩ := (List.eq_nil_or_concat' front).resolve_left nonempty
      obtain ⟨row, _, ⟨_, live⟩, _⟩ := each init last rest (by rw [← split, List.append_assoc]; rfl)
      rw [RowAddress.descendant_concat]
      exact Option.isSome_of_eq_some live
    · obtain ⟨init, last, rfl⟩ := (List.eq_nil_or_concat' path).resolve_left below
      obtain ⟨row, seen, ⟨_, live⟩, visited, ends⟩ := each init last [] rfl
      rw [RowAddress.descendant_concat, RowAddress.descendant, live, ← ends rfl]
      exact Except.ok.inj visited
  · rintro ⟨same, covered⟩
    refine ⟨covered.below, same, fun front label rest split => ?_⟩
    have live := covered.live (front ++ [label]) ⟨rest, by rw [split, List.append_assoc]; rfl⟩ (by simp)
    rw [RowAddress.descendant_concat] at live
    obtain ⟨row, found⟩ := Option.isSome_iff_exists.mp live
    refine ⟨row, row.value, ⟨covered.named label (by simp [split]), found⟩, rfl, fun ends => ?_⟩
    have holds := covered.holds
    rw [split, ends, RowAddress.descendant_concat, found] at holds
    exact Option.some.inj holds

/-- A program without steps reads no subtree. -/
theorem not_subtreeRow_nil {root : RowAddress} {path : List AddressStep} {value : Value} :
    ¬SubtreeRow current [] root path value := fun row => by
  obtain ⟨step, rest, same⟩ := List.exists_cons_of_ne_nil row.below
  have named := row.named step (by rw [same]; exact List.mem_cons_self)
  cases named

/-- The prefetched subtree has exactly the live rows below its root through the steps. -/
theorem mem_prefetchSubtree {steps : List String} {root : RowAddress} {subtree : CandidateSubtree}
    (fetched : prefetchSubtree current root steps = .ok subtree) {path : List AddressStep} {value : Value} :
    (path, value) ∈ subtree ↔ SubtreeRow current steps root path value := by
  rw [prefetchSubtree] at fetched
  split at fetched
  · next none =>
      obtain rfl := Except.ok.inj fetched
      rw [none]
      exact iff_of_false List.not_mem_nil not_subtreeRow_nil
  · rw [descend_mem_iff fetched]
    constructor
    · rintro ⟨rest, node, rfl, found⟩
      exact (found_subtree_iff.mp found).2
    · exact fun row => ⟨path, _, rfl, found_subtree_iff.mpr ⟨rfl, row⟩⟩

/-- The descent into a subtree gets to the root and to its rows. -/
theorem reaches_subtree_iff {steps : List String} {root node : RowAddress} {path : List AddressStep} :
    Reaches (subtreeChildren current steps) subtreeVisit root path node ↔
      node = root.descendant path ∧ (path = [] ∨ ∃ value, SubtreeRow current steps root path value) := by
  constructor
  · rintro (⟨rfl, rfl⟩ | ⟨value, found⟩)
    · exact ⟨rfl, .inl rfl⟩
    · obtain ⟨same, row⟩ := found_subtree_iff.mp found
      exact ⟨same, .inr ⟨value, row⟩⟩
  · rintro ⟨same, rfl | ⟨value, row⟩⟩
    · exact .inl ⟨rfl, same⟩
    · exact .inr ⟨value, found_subtree_iff.mpr ⟨same, row⟩⟩

/-- The prefetch succeeds exactly when no row of the subtree is too deep. -/
theorem prefetchSubtree_ok_iff {steps : List String} {root : RowAddress} :
    (∃ subtree, prefetchSubtree current root steps = .ok subtree) ↔ Shallow current steps root := by
  rw [prefetchSubtree]
  split
  · next none => exact iff_of_true ⟨[], rfl⟩ fun _ _ row => absurd (none ▸ row) not_subtreeRow_nil
  · rw [descend_ok_iff]
    constructor
    · exact fun bounded path value row =>
        (bounded path _ (reaches_subtree_iff.mpr ⟨rfl, .inr ⟨value, row⟩⟩)).1
    · intro shallow path node reaches
      refine ⟨?_, fun child _ => ⟨_, rfl⟩⟩
      rcases (reaches_subtree_iff.mp reaches).2 with rfl | ⟨value, row⟩
      · exact Nat.succ_pos _
      · exact shallow path value row

/-- The labels below a row ascend exactly when the steps that have live rows there do. -/
theorem labels_ascend_iff {steps : List String} {node : RowAddress} :
    ((keptLabels (subtreeChildren current steps) subtreeVisit node).Pairwise fun first second =>
        compare first second = .lt) ↔
      steps.Pairwise fun first second => (∃ key, (current[node.child ⟨first, key⟩]?).isSome) →
        (∃ key, (current[node.child ⟨second, key⟩]?).isSome) → compareText first second = .lt := by
  have labels : keptLabels (subtreeChildren current steps) subtreeVisit node = steps.flatMap fun step =>
      (MemoryStore.scan current (.nested node step)).map fun entry => AddressStep.mk step entry.1.last.key := by
    rw [keptLabels, subtreeChildren, List.filterMap_flatMap]
    refine List.flatMap_congr fun step _ => ?_
    rw [List.filterMap_map]
    exact congrFun List.filterMap_eq_map _
  have within : ∀ step ∈ steps, ((MemoryStore.scan current (.nested node step)).map fun entry =>
      AddressStep.mk step entry.1.last.key).Pairwise fun first second => compare first second = .lt := by
    intro step _
    rw [List.pairwise_map]
    refine (keys_ascend current (.nested node step)).imp fun {first second} below => ?_
    change (compareText step step).then (compare first.1.last.key second.1.last.key) = .lt
    rw [(compareText_eq_iff _ _).mpr rfl, below]
    rfl
  rw [labels, List.pairwise_flatMap, and_iff_right within]
  have member {step : String} {label : AddressStep} :
      (label ∈ (MemoryStore.scan current (.nested node step)).map fun entry => AddressStep.mk step entry.1.last.key) ↔
        label.name = step ∧ (current[node.child label]?).isSome := by
    rw [List.mem_map, Option.isSome_iff_exists]
    constructor
    · rintro ⟨⟨address, row⟩, scanned, rfl⟩
      obtain ⟨key, rfl, live⟩ := mem_scan_nested.mp scanned
      rw [RowAddress.last_child]
      exact ⟨rfl, row, live⟩
    · rintro ⟨rfl, row, live⟩
      exact ⟨(node.child label, row), mem_scan_nested.mpr ⟨label.key, rfl, live⟩, by rw [RowAddress.last_child]⟩
  constructor
  · intro ordered
    refine ordered.imp fun {first second} below present later => ?_
    obtain ⟨key, live⟩ := present
    obtain ⟨other, held⟩ := later
    have apart (one two : KeyClass) (here : (current[node.child ⟨first, one⟩]?).isSome)
        (there : (current[node.child ⟨second, two⟩]?).isSome) :
        (compareText first second).then (compare one two) = .lt :=
      below ⟨first, one⟩ (member.mpr ⟨rfl, here⟩) ⟨second, two⟩ (member.mpr ⟨rfl, there⟩)
    rcases Ordering.then_eq_lt.mp (apart key other live held) with less | ⟨equal, _⟩
    · exact less
    · -- One name twice would give one row twice.
      obtain rfl := (compareText_eq_iff _ _).mp equal
      have twice := apart key key live live
      rw [equal, Std.ReflOrd.compare_self] at twice
      cases twice
  · intro ascending
    refine ascending.imp fun {first second} below label inside other present => ?_
    obtain ⟨rfl, live⟩ := member.mp inside
    obtain ⟨rfl, held⟩ := member.mp present
    change (compareText label.name other.name).then _ = .lt
    rw [below ⟨label.key, live⟩ ⟨other.key, held⟩]
    rfl

/-- The prefetched subtree is the one of its root exactly when the steps ascend. -/
theorem subtreeOf_prefetch_iff {steps : List String} {root : RowAddress} {subtree : CandidateSubtree}
    (fetched : prefetchSubtree current root steps = .ok subtree) :
    SubtreeOf current steps root subtree ↔ StepsAscend current steps root := by
  have listed : ∀ path value, (path, value) ∈ subtree ↔ SubtreeRow current steps root path value :=
    fun _ _ => mem_prefetchSubtree fetched
  have ascends : (subtree.Pairwise fun first second => compare first.1 second.1 = .lt) ↔
      StepsAscend current steps root := by
    rw [prefetchSubtree] at fetched
    split at fetched
    · next none =>
        obtain rfl := Except.ok.inj fetched
        rw [none]
        exact iff_of_true .nil fun _ _ => .nil
    · rw [sorted_descend_iff fetched]
      constructor
      · exact fun ordered path row =>
          labels_ascend_iff.mp (ordered path _ (reaches_subtree_iff.mpr ⟨rfl, row⟩))
      · intro ascending path node reaches
        obtain ⟨rfl, row⟩ := reaches_subtree_iff.mp reaches
        exact labels_ascend_iff.mpr (ascending path row)
  exact ⟨fun right => ascends.mp right.ascends, fun ascending => ⟨listed, ascends.mpr ascending⟩⟩

end Subtrees

section Flat

variable {current : RowMap RowAddress} {program : ViewProgram}

/-- The evaluation of a candidate leaves it out, or it gives its output and its sort tuple. -/
theorem evaluateRow_ok {entry : RowAddress × StoredRow} {kept : Option EvaluatedRow} :
    evaluateRow current program entry = .ok kept ↔
      ∃ subtree, prefetchSubtree current entry.1 program.subtreeSteps = .ok subtree ∧
        (program.admits entry.2.value entry.1.last.key subtree = .ok false ∧ kept = none ∨
          program.admits entry.2.value entry.1.last.key subtree = .ok true ∧ ∃ projected sort,
            program.project entry.2.value entry.1.last.key subtree = .ok projected ∧
            program.sortTuple entry.2.value entry.1.last.key subtree = .ok sort ∧
            kept = some ⟨[entry.1.last.key], entry.2.incarnation, projected, sort⟩) := by
  rw [evaluateRow, bind_ok]
  refine exists_congr fun subtree => and_congr_right fun _ => ?_
  rw [bind_ok]
  constructor
  · rintro ⟨admitted, answered, last⟩
    rw [mapError_ok] at answered
    cases admitted with
    | false => exact .inl ⟨answered, (Except.ok.inj last).symm⟩
    | true =>
      obtain ⟨projected, projects, last⟩ := bind_ok.mp last
      obtain ⟨sort, sorts, last⟩ := bind_ok.mp last
      exact .inr ⟨answered, projected, sort, mapError_ok.mp projects, mapError_ok.mp sorts, (Except.ok.inj last).symm⟩
  · rintro (⟨answered, rfl⟩ | ⟨answered, projected, sort, projects, sorts, rfl⟩)
    · exact ⟨false, mapError_ok.mpr answered, rfl⟩
    · exact ⟨true, mapError_ok.mpr answered, bind_ok.mpr ⟨projected, mapError_ok.mpr projects,
        bind_ok.mpr ⟨sort, mapError_ok.mpr sorts, rfl⟩⟩⟩

/-- A live row is kept exactly when the program admits it and gives the output and the sort tuple of the row. -/
theorem evaluateRow_some_iff {address : RowAddress} {stored : StoredRow} {row : EvaluatedRow}
    (live : current[address]? = some stored) : evaluateRow current program (address, stored) = .ok (some row) ↔
      row.keyPath = [address.last.key] ∧ Admitted current program address ∧ Projected current program address row ∧
        Ranked current program address row := by
  rw [evaluateRow_ok]
  constructor
  · rintro ⟨subtree, fetched, ⟨_, impossible⟩ | ⟨admits, projected, sort, projects, sorts, same⟩⟩
    · cases impossible
    · obtain rfl := Option.some.inj same
      exact ⟨rfl, ⟨stored, subtree, live, fetched, admits⟩, ⟨stored, subtree, live, fetched, projects, rfl⟩,
        ⟨stored, subtree, live, fetched, sorts⟩⟩
  · rintro ⟨path, ⟨one, subtree, here, fetched, admits⟩, ⟨two, second, there, again, projects, incarnation⟩,
      ⟨three, third, last, once, sorts⟩⟩
    obtain rfl := Option.some.inj (live.symm.trans here)
    obtain rfl := Option.some.inj (live.symm.trans there)
    obtain rfl := Option.some.inj (live.symm.trans last)
    obtain rfl := Except.ok.inj (fetched.symm.trans again)
    obtain rfl := Except.ok.inj (fetched.symm.trans once)
    refine ⟨subtree, fetched, .inr ⟨admits, row.projected, row.sort, projects, sorts, ?_⟩⟩
    rw [← path, ← incarnation]

/-- The sort tuples of the rows of a program compare transitively. -/
theorem transCmp_sorted (directions : List SortDirection) :
    Std.TransCmp fun first second : {row : EvaluatedRow // row.sort.length = directions.length} =>
      compareSorted directions first.1 second.1 :=
  Live.transCmp_on (Live.transCmp_compare (sortOrder directions))
    fun row : {row : EvaluatedRow // row.sort.length = directions.length} =>
      (⟨row.1.sort, by simp [sortOrder, row.2]⟩, row.1.keyPath)

/-- The bounds of a view give the part of the rows that starts after the skipped ones. -/
theorem orderAndBound_eq (rows : List EvaluatedRow) (directions : List SortDirection) (skip limit : Option UInt64) :
    orderAndBound rows directions skip limit = slice skip limit (if directions = [] then rows
      else rows.mergeSort fun first second => compareSorted directions first second != .gt) := by
  have dropped (count : Nat) (rows : List EvaluatedRow) : rows.drop (min count rows.length) = rows.drop count := by
    rw [← List.drop_eq_drop_min]
  have taken (count : Nat) (rows : List EvaluatedRow) : rows.take (min count rows.length) = rows.take count := by
    rw [← List.take_eq_take_min]
  cases limit with
  | none =>
    rw [orderAndBound, dropped, taken]
    exact List.take_length
  | some limit =>
    rw [orderAndBound, dropped, taken]
    rfl

/-- Rows with ascending key paths are in the order of the view once they are sorted. -/
theorem sorted_strict {rows : List EvaluatedRow} {directions : List SortDirection}
    (aligned : ∀ row ∈ rows, row.sort.length = directions.length)
    (ascending : rows.Pairwise fun first second => compare first.keyPath second.keyPath = .lt) :
    (if directions = [] then rows
      else rows.mergeSort fun first second => compareSorted directions first second != .gt).Pairwise
        fun first second => compareSorted directions first second = .lt := by
  split
  · next none =>
      rw [none]
      exact ascending
  · have sorted := ordered_mergeSort (transCmp_sorted directions) aligned
    have apart : rows.Pairwise fun first second => first.keyPath ≠ second.keyPath :=
      ascending.imp fun below same => by
        rw [same, Std.ReflOrd.compare_self] at below
        cases below
    have distinct := ((List.mergeSort_perm rows fun first second =>
      compareSorted directions first second != .gt).pairwise_iff fun different => different.symm).mpr apart
    refine (sorted.and distinct).imp fun {first second} ⟨below, different⟩ => ?_
    cases order : compareSorted directions first second with
    | lt => rfl
    | eq => exact absurd (Std.LawfulEqOrd.eq_of_compare (Ordering.then_eq_eq.mp order).2) different
    | gt => exact absurd order below

/-- A flat view lists its admitted rows in their order within the bounds. -/
theorem lists_of_scanCollection {path : CollectionPath} {skip limit : Option UInt64} {rows : List EvaluatedRow}
    (scanned : scanCollection current program path skip limit = .ok rows) :
    Lists current program skip limit rows (.collection path) := by
  obtain ⟨evaluated, all, last⟩ := bind_ok.mp scanned
  obtain rfl := Except.ok.inj last
  have members (row : EvaluatedRow) : row ∈ evaluated.reduceOption ↔ ∃ address, address.collection = path ∧
      row.keyPath = [address.last.key] ∧ Admitted current program address ∧ Projected current program address row ∧
        Ranked current program address row := by
    rw [List.reduceOption_mem_iff, mem_of_mapM all]
    constructor
    · rintro ⟨⟨address, stored⟩, listed, answered⟩
      obtain ⟨live, inside⟩ := MemoryStore.mem_scan.mp listed
      exact ⟨address, inside, (evaluateRow_some_iff live).mp answered⟩
    · rintro ⟨address, inside, path, ⟨stored, subtree, live, admitted⟩, rest⟩
      exact ⟨(address, stored), MemoryStore.mem_scan.mpr ⟨live, inside⟩,
        (evaluateRow_some_iff live).mpr ⟨path, ⟨stored, subtree, live, admitted⟩, rest⟩⟩
  have aligned : ∀ row ∈ evaluated.reduceOption, row.sort.length = program.sortDirections.length := by
    intro row inside
    obtain ⟨_, _, _, _, _, _, _, _, _, sorts⟩ := (members row).mp inside
    exact program.aligned _ _ _ _ sorts
  have ascending : evaluated.reduceOption.Pairwise fun first second =>
      compare first.keyPath second.keyPath = .lt := by
    rw [List.reduceOption, List.pairwise_filterMap, pairwise_mapM_iff all]
    refine (keys_ascend current path).imp_of_mem fun {first second} one two below => ?_
    rintro kept answered others otherAnswered row rfl other rfl
    have single := (evaluateRow_some_iff (MemoryStore.mem_scan.mp one).1).mp answered
    have double := (evaluateRow_some_iff (MemoryStore.mem_scan.mp two).1).mp otherAnswered
    rw [single.1, double.1]
    exact compare_siblings [] below
  refine ⟨_, orderAndBound_eq _ _ _ _, fun row => ?_, sorted_strict aligned ascending⟩
  rw [← members row]
  split
  · exact Iff.rfl
  · exact List.mem_mergeSort

/-- The evaluation of a live row succeeds exactly when the program answers for it. -/
theorem evaluateRow_ok_iff {address : RowAddress} {stored : StoredRow} (live : current[address]? = some stored) :
    (∃ kept, evaluateRow current program (address, stored) = .ok kept) ↔ Answers current program true address := by
  constructor
  · rintro ⟨kept, evaluated⟩
    obtain ⟨subtree, fetched, answered⟩ := evaluateRow_ok.mp evaluated
    refine ⟨prefetchSubtree_ok_iff.mp ⟨subtree, fetched⟩, fun row other there again => ?_⟩
    obtain rfl := Option.some.inj (live.symm.trans there)
    obtain rfl := Except.ok.inj (fetched.symm.trans again)
    rcases answered with ⟨admits, _⟩ | ⟨admits, projected, sort, projects, sorts, _⟩
    · exact ⟨false, admits, nofun⟩
    · exact ⟨true, admits, fun _ => ⟨⟨projected, projects⟩, fun _ => ⟨sort, sorts⟩⟩⟩
  · rintro ⟨shallow, answers⟩
    obtain ⟨subtree, fetched⟩ := prefetchSubtree_ok_iff.mpr shallow
    obtain ⟨kept, admits, rest⟩ := answers stored subtree live fetched
    cases kept with
    | false => exact ⟨none, evaluateRow_ok.mpr ⟨subtree, fetched, .inl ⟨admits, rfl⟩⟩⟩
    | true =>
      obtain ⟨⟨projected, projects⟩, sorted⟩ := rest rfl
      obtain ⟨sort, sorts⟩ := sorted rfl
      exact ⟨_, evaluateRow_ok.mpr ⟨subtree, fetched, .inr ⟨admits, projected, sort, projects, sorts, rfl⟩⟩⟩

/-- A flat view succeeds exactly when the program answers for each row of the collection. -/
theorem scanCollection_ok_iff {path : CollectionPath} {skip limit : Option UInt64} :
    (∃ rows, scanCollection current program path skip limit = .ok rows) ↔
      Answered current program (.collection path) := by
  constructor
  · rintro ⟨rows, scanned⟩ address ⟨inside, some⟩
    obtain ⟨stored, live⟩ := Option.isSome_iff_exists.mp some
    obtain ⟨evaluated, all, _⟩ := bind_ok.mp scanned
    obtain ⟨kept, _, answered⟩ := exists_of_mapM all (MemoryStore.mem_scan.mpr ⟨live, inside⟩)
    exact (evaluateRow_ok_iff live).mp ⟨kept, answered⟩
  · intro answered
    have each : ∀ entry ∈ MemoryStore.scan current path, ∃ kept, evaluateRow current program entry = .ok kept := by
      rintro ⟨address, stored⟩ listed
      obtain ⟨live, inside⟩ := MemoryStore.mem_scan.mp listed
      exact (evaluateRow_ok_iff live).mpr (answered address ⟨inside, Option.isSome_of_eq_some live⟩)
    obtain ⟨evaluated, all⟩ := exists_mapM each
    exact ⟨_, bind_ok.mpr ⟨evaluated, all, rfl⟩⟩

end Flat

section Coverage

variable {current : RowMap RowAddress} {program : ViewProgram} {root : RowAddress} {field : String}

theorem mem_coverChildren {parent child : RowAddress} {key : KeyClass} {row : StoredRow} :
    (key, child, row) ∈ coverChildren current field parent ↔
      child = parent.child ⟨field, key⟩ ∧ current[parent.child ⟨field, key⟩]? = some row := by
  rw [coverChildren, List.mem_map]
  constructor
  · rintro ⟨⟨address, stored⟩, scanned, same⟩
    obtain ⟨rfl, rest⟩ := Prod.mk.inj same
    obtain ⟨rfl, rfl⟩ := Prod.mk.inj rest
    obtain ⟨key, rfl, live⟩ := mem_scan_nested.mp scanned
    rw [RowAddress.last_child]
    exact ⟨rfl, live⟩
  · rintro ⟨rfl, live⟩
    refine ⟨(parent.child ⟨field, key⟩, row), mem_scan_nested.mpr ⟨key, rfl, live⟩, ?_⟩
    rw [RowAddress.last_child]

theorem coverProject_ok {address : RowAddress} {stored : StoredRow} {subtree : CandidateSubtree}
    {out : RowIncarnation × Value} : coverProject program address stored subtree = .ok out ↔
      program.project stored.value address.last.key subtree = .ok out.2 ∧ out.1 = stored.incarnation := by
  rw [coverProject, bind_ok]
  constructor
  · rintro ⟨projected, projects, last⟩
    obtain rfl := Except.ok.inj last
    exact ⟨mapError_ok.mp projects, rfl⟩
  · rintro ⟨projects, same⟩
    exact ⟨out.2, mapError_ok.mpr projects, by rw [← same]; rfl⟩

/-- The visit of a descendant leaves it out, or it gives its output. -/
theorem coverVisit_ok {address : RowAddress} {stored : StoredRow} {kept : Option (RowIncarnation × Value)} :
    coverVisit current program address stored = .ok kept ↔
      ∃ subtree, prefetchSubtree current address program.subtreeSteps = .ok subtree ∧
        (program.admits stored.value address.last.key subtree = .ok false ∧ kept = none ∨
          program.admits stored.value address.last.key subtree = .ok true ∧ ∃ out,
            coverProject program address stored subtree = .ok out ∧ kept = some out) := by
  rw [coverVisit, bind_ok]
  refine exists_congr fun subtree => and_congr_right fun _ => ?_
  rw [bind_ok]
  constructor
  · rintro ⟨admitted, answered, last⟩
    rw [mapError_ok] at answered
    cases admitted with
    | false => exact .inl ⟨answered, (Except.ok.inj last).symm⟩
    | true =>
      obtain ⟨out, projects, last⟩ := bind_ok.mp last
      exact .inr ⟨answered, out, projects, (Except.ok.inj last).symm⟩
  · rintro (⟨answered, rfl⟩ | ⟨answered, out, projects, rfl⟩)
    · exact ⟨false, mapError_ok.mpr answered, rfl⟩
    · exact ⟨true, mapError_ok.mpr answered, bind_ok.mpr ⟨out, projects, rfl⟩⟩

/-- A live row is visited with an output exactly when the program admits it and gives that output. -/
theorem coverVisit_some_iff {address : RowAddress} {stored : StoredRow} {out : RowIncarnation × Value}
    (live : current[address]? = some stored) (path : List KeyClass) :
    coverVisit current program address stored = .ok (some out) ↔
      Admitted current program address ∧ Projected current program address (coveredRow (path, out)) := by
  rw [coverVisit_ok]
  constructor
  · rintro ⟨subtree, fetched, ⟨_, impossible⟩ | ⟨admits, seen, projects, same⟩⟩
    · cases impossible
    · obtain rfl := Option.some.inj same
      obtain ⟨projected, incarnation⟩ := coverProject_ok.mp projects
      exact ⟨⟨stored, subtree, live, fetched, admits⟩, ⟨stored, subtree, live, fetched, projected, incarnation⟩⟩
  · rintro ⟨⟨one, subtree, here, fetched, admits⟩, ⟨two, second, there, again, projected, incarnation⟩⟩
    obtain rfl := Option.some.inj (live.symm.trans here)
    obtain rfl := Option.some.inj (live.symm.trans there)
    obtain rfl := Except.ok.inj (fetched.symm.trans again)
    exact ⟨subtree, fetched, .inr ⟨admits, out, coverProject_ok.mpr ⟨projected, incarnation⟩, rfl⟩⟩

/-- The visit of a live row succeeds exactly when the program answers for it. -/
theorem coverVisit_ok_iff {address : RowAddress} {stored : StoredRow} (live : current[address]? = some stored) :
    (∃ kept, coverVisit current program address stored = .ok kept) ↔ Answers current program false address := by
  constructor
  · rintro ⟨kept, visited⟩
    obtain ⟨subtree, fetched, answered⟩ := coverVisit_ok.mp visited
    refine ⟨prefetchSubtree_ok_iff.mp ⟨subtree, fetched⟩, fun row other there again => ?_⟩
    obtain rfl := Option.some.inj (live.symm.trans there)
    obtain rfl := Except.ok.inj (fetched.symm.trans again)
    rcases answered with ⟨admits, _⟩ | ⟨admits, out, projects, _⟩
    · exact ⟨false, admits, nofun⟩
    · exact ⟨true, admits, fun _ => ⟨⟨out.2, (coverProject_ok.mp projects).1⟩, nofun⟩⟩
  · rintro ⟨shallow, answers⟩
    obtain ⟨subtree, fetched⟩ := prefetchSubtree_ok_iff.mpr shallow
    obtain ⟨kept, admits, rest⟩ := answers stored subtree live fetched
    cases kept with
    | false => exact ⟨none, coverVisit_ok.mpr ⟨subtree, fetched, .inl ⟨admits, rfl⟩⟩⟩
    | true =>
      obtain ⟨⟨projected, projects⟩, _⟩ := rest rfl
      exact ⟨some (stored.incarnation, projected), coverVisit_ok.mpr
        ⟨subtree, fetched, .inr ⟨admits, _, coverProject_ok.mpr ⟨projects, rfl⟩, rfl⟩⟩⟩

theorem covered_concat_iff {path : List KeyClass} {key : KeyClass} :
    Covered current program root field (path ++ [key]) ↔ Covered current program root field path ∧
      Admitted current program ((root.descendant (path.map (AddressStep.mk field))).child ⟨field, key⟩) := by
  have address : root.descendant ((path ++ [key]).map (AddressStep.mk field)) =
      (root.descendant (path.map (AddressStep.mk field))).child ⟨field, key⟩ := by
    rw [List.map_append, List.map_singleton, RowAddress.descendant_concat]
  rw [← address]
  constructor
  · rintro ⟨live, each⟩
    exact ⟨⟨live, fun front started => each front (started.trans (List.prefix_append ..))⟩,
      each _ (List.prefix_refl _) (by simp)⟩
  · rintro ⟨⟨live, each⟩, last⟩
    refine ⟨live, fun front started nonempty => ?_⟩
    rcases List.prefix_concat_iff.mp started with rfl | earlier
    · exact last
    · exact each front earlier nonempty

/-- The nodes that the descent gets to are covered, and they are at the end of their paths. -/
theorem covered_of_reaches (live : (current[root]?).isSome) {path : List KeyClass} {node : RowAddress}
    (reaches : Reaches (coverChildren current field) (coverVisit current program) root path node) :
    Covered current program root field path ∧ node = root.descendant (path.map (AddressStep.mk field)) := by
  rcases reaches with ⟨rfl, rfl⟩ | ⟨out, found⟩
  · exact ⟨⟨live, fun front started nonempty => absurd (List.prefix_nil.mp started) nonempty⟩, rfl⟩
  · obtain ⟨_, same, each⟩ := (found_iff (fun _ _ _ _ => mem_coverChildren)).mp found
    have place (keys : List KeyClass) : keys.foldl (fun address key => address.child ⟨field, key⟩) root =
        root.descendant (keys.map (AddressStep.mk field)) := List.foldl_map.symm
    refine ⟨⟨live, fun front started nonempty => ?_⟩, same.trans (place path)⟩
    obtain ⟨rest, split⟩ := started
    obtain ⟨init, last, rfl⟩ := (List.eq_nil_or_concat' front).resolve_left nonempty
    obtain ⟨row, seen, stored, visited, _⟩ := each init last rest (by rw [← split, List.append_assoc]; rfl)
    rw [List.map_append, List.map_singleton, RowAddress.descendant_concat, ← place]
    exact ((coverVisit_some_iff stored []).mp visited).1

/-- A visit of an admitted row that succeeds has an output. -/
theorem exists_of_admitted {address : RowAddress} {stored : StoredRow} {kept : Option (RowIncarnation × Value)}
    (live : current[address]? = some stored) (visited : coverVisit current program address stored = .ok kept)
    (admitted : Admitted current program address) : ∃ out, kept = some out := by
  obtain ⟨row, subtree, here, fetched, admits⟩ := admitted
  obtain rfl := Option.some.inj (live.symm.trans here)
  obtain ⟨other, again, ⟨rejects, _⟩ | ⟨_, out, _, same⟩⟩ := coverVisit_ok.mp visited
  · obtain rfl := Except.ok.inj (fetched.symm.trans again)
    cases rejects.symm.trans admits
  · exact ⟨out, same⟩

/-- The descent gets to each covered row when the visits succeed. -/
theorem reaches_of_covered
    (bounded : ∀ rest node, Reaches (coverChildren current field) (coverVisit current program) root rest node →
      rest.length < maxSubtreeDepth ∧
        ∀ child ∈ coverChildren current field node, ∃ kept, coverVisit current program child.2.1 child.2.2 = .ok kept)
    {path : List KeyClass} (covered : Covered current program root field path) :
    Reaches (coverChildren current field) (coverVisit current program) root path
      (root.descendant (path.map (AddressStep.mk field))) := by
  induction path using List.reverseRecOn with
  | nil => exact .inl ⟨rfl, rfl⟩
  | append_singleton path key earlier =>
    obtain ⟨above, last⟩ := covered_concat_iff.mp covered
    have ⟨stored, _, live, _⟩ := last
    have offered := mem_coverChildren.mpr ⟨rfl, live⟩
    obtain ⟨kept, visited⟩ := (bounded path _ (earlier above)).2 _ offered
    obtain ⟨out, rfl⟩ := exists_of_admitted live visited last
    rw [List.map_append, List.map_singleton, RowAddress.descendant_concat]
    exact .inr ⟨out, (earlier above).found offered visited⟩

/-- A coverage of a live root is the root and the descent below it. -/
theorem scanCoverage_ok {stored : StoredRow} (live : current[root]? = some stored) {rows : List EvaluatedRow} :
    scanCoverage current program root field = .ok rows ↔ ∃ top below,
      Projected current program root (coveredRow ([], top)) ∧
      descend (coverChildren current field) (coverVisit current program) (overDeep "coverage descent")
        maxSubtreeDepth root [] = .ok below ∧ rows = (([], top) :: below).map coveredRow := by
  rw [scanCoverage, live, bind_ok]
  constructor
  · rintro ⟨subtree, fetched, rest⟩
    obtain ⟨top, projects, rest⟩ := bind_ok.mp rest
    obtain ⟨below, descended, last⟩ := bind_ok.mp rest
    obtain ⟨projected, incarnation⟩ := coverProject_ok.mp projects
    exact ⟨top, below, ⟨stored, subtree, live, fetched, projected, incarnation⟩, descended, (Except.ok.inj last).symm⟩
  · rintro ⟨top, below, ⟨row, subtree, here, fetched, projected, incarnation⟩, descended, rfl⟩
    obtain rfl := Option.some.inj (live.symm.trans here)
    exact ⟨subtree, fetched, bind_ok.mpr ⟨top, coverProject_ok.mpr ⟨projected, incarnation⟩,
      bind_ok.mpr ⟨below, descended, rfl⟩⟩⟩

/-- The descent of a coverage succeeds exactly when the program answers below each covered row. -/
theorem cover_ok_iff (live : (current[root]?).isSome) :
    (∃ below, descend (coverChildren current field) (coverVisit current program) (overDeep "coverage descent")
        maxSubtreeDepth root [] = .ok below) ↔
      ∀ path, Covered current program root field path → path.length < maxSubtreeDepth ∧
        ∀ key, (current[(root.descendant (path.map (AddressStep.mk field))).child ⟨field, key⟩]?).isSome →
          Answers current program false ((root.descendant (path.map (AddressStep.mk field))).child ⟨field, key⟩) := by
  rw [descend_ok_iff]
  constructor
  · intro bounded path covered
    obtain ⟨short, each⟩ := bounded path _ (reaches_of_covered bounded covered)
    refine ⟨short, fun key some => ?_⟩
    obtain ⟨stored, there⟩ := Option.isSome_iff_exists.mp some
    have visited := each (key, _, stored) (mem_coverChildren.mpr ⟨rfl, there⟩)
    exact (coverVisit_ok_iff there).mp visited
  · intro answered path node reaches
    obtain ⟨covered, rfl⟩ := covered_of_reaches live reaches
    obtain ⟨short, each⟩ := answered path covered
    refine ⟨short, ?_⟩
    rintro ⟨key, child, row⟩ offered
    obtain ⟨rfl, there⟩ := mem_coverChildren.mp offered
    exact (coverVisit_ok_iff there).mpr (each key (Option.isSome_of_eq_some there))

/-- The descent of a coverage lists exactly the covered rows below the root. -/
theorem mem_cover {below : List (List KeyClass × RowIncarnation × Value)} (live : (current[root]?).isSome)
    (descended : descend (coverChildren current field) (coverVisit current program) (overDeep "coverage descent")
      maxSubtreeDepth root [] = .ok below) {path : List KeyClass} {out : RowIncarnation × Value} :
    (path, out) ∈ below ↔ path ≠ [] ∧ Covered current program root field path ∧
      Projected current program (root.descendant (path.map (AddressStep.mk field))) (coveredRow (path, out)) := by
  rw [descend_mem_iff descended]
  constructor
  · rintro ⟨rest, node, same, found⟩
    obtain rfl : path = rest := same
    obtain ⟨covered, rfl⟩ := covered_of_reaches live (.inr ⟨out, found⟩)
    refine ⟨found.ne_nil, covered, ?_⟩
    obtain ⟨nonempty, same, each⟩ := (found_iff (fun _ _ _ _ => mem_coverChildren)).mp found
    obtain ⟨init, last, rfl⟩ := (List.eq_nil_or_concat' path).resolve_left nonempty
    obtain ⟨row, seen, stored, visited, ends⟩ := each init last [] rfl
    obtain rfl := ends rfl
    have place : init.foldl (fun address key => address.child ⟨field, key⟩) root =
        root.descendant (init.map (AddressStep.mk field)) := List.foldl_map.symm
    rw [place] at stored visited
    rw [List.map_append, List.map_singleton, RowAddress.descendant_concat]
    exact ((coverVisit_some_iff stored _).mp visited).2
  · rintro ⟨nonempty, covered, projected⟩
    have bounded := descend_ok_iff.mp ⟨below, descended⟩
    obtain ⟨init, last, rfl⟩ := (List.eq_nil_or_concat' path).resolve_left nonempty
    obtain ⟨above, admitted⟩ := covered_concat_iff.mp covered
    have ⟨stored, _, there, _⟩ := admitted
    rw [List.map_append, List.map_singleton, RowAddress.descendant_concat] at projected
    have visited := (coverVisit_some_iff there (init ++ [last])).mpr ⟨admitted, projected⟩
    exact ⟨_, _, rfl, (reaches_of_covered bounded above).found (mem_coverChildren.mpr ⟨rfl, there⟩) visited⟩

/-- A coverage lists its covered rows in the order of their paths. -/
theorem lists_of_scanCoverage {skip limit : Option UInt64} {rows : List EvaluatedRow}
    (scanned : scanCoverage current program root field = .ok rows) :
    Lists current program skip limit rows (.coverage root field) := by
  cases found : current[root]? with
  | none =>
    rw [scanCoverage, found] at scanned
    obtain rfl := Except.ok.inj scanned
    refine ⟨fun row => iff_of_false List.not_mem_nil fun covered => ?_, .nil⟩
    have live := covered.1.1
    rw [found] at live
    cases live
  | some stored =>
    obtain ⟨top, below, projected, descended, rfl⟩ := (scanCoverage_ok found).mp scanned
    have live : (current[root]?).isSome := Option.isSome_of_eq_some found
    constructor
    · intro row
      rw [List.mem_map]
      constructor
      · rintro ⟨⟨path, out⟩, inside, rfl⟩
        rcases List.mem_cons.mp inside with same | later
        · obtain ⟨rfl, rfl⟩ := Prod.mk.inj same
          exact ⟨(covered_of_reaches live (.inl ⟨rfl, rfl⟩)).1, projected, rfl⟩
        · obtain ⟨_, covered, projected⟩ := (mem_cover live descended).mp later
          exact ⟨covered, projected, rfl⟩
      · rintro ⟨covered, shows, unsorted⟩
        refine ⟨(row.keyPath, row.incarnation, row.projected), ?_, by rw [coveredRow, ← unsorted]⟩
        by_cases top_path : row.keyPath = []
        · rw [top_path] at shows
          obtain ⟨one, first, here, fetched, projects, incarnation⟩ := projected
          obtain ⟨two, second, there, again, output, token⟩ := shows
          obtain rfl := Option.some.inj (here.symm.trans there)
          obtain rfl := Except.ok.inj (fetched.symm.trans again)
          have output := Except.ok.inj (projects.symm.trans output)
          have token := incarnation.trans token.symm
          rw [top_path, ← output, ← token]
          exact List.mem_cons_self
        · refine List.mem_cons_of_mem _ ((mem_cover live descended).mpr ⟨top_path, covered, ?_⟩)
          obtain ⟨one, first, here, fetched, projects, incarnation⟩ := shows
          exact ⟨one, first, here, fetched, projects, incarnation⟩
    · rw [List.pairwise_map, List.pairwise_cons]
      constructor
      · rintro ⟨path, out⟩ inside
        exact compare_longer [] ((mem_cover live descended).mp inside).1
      · refine (sorted_descend_iff descended).mpr fun path node _ => ?_
        rw [keptLabels, List.pairwise_filterMap, coverChildren, List.pairwise_map]
        refine (keys_ascend current (.nested node field)).imp fun below label kept other keptOther => ?_
        obtain ⟨_, _, rfl⟩ := Option.map_eq_some_iff.mp kept
        obtain ⟨_, _, rfl⟩ := Option.map_eq_some_iff.mp keptOther
        exact below

theorem scanCoverage_ok_iff :
    (∃ rows, scanCoverage current program root field = .ok rows) ↔ Answered current program (.coverage root field) := by
  cases found : current[root]? with
  | none =>
    refine iff_of_true ⟨[], by rw [scanCoverage, found]; rfl⟩ fun live => ?_
    rw [found] at live
    cases live
  | some stored =>
    have live : (current[root]?).isSome := Option.isSome_of_eq_some found
    constructor
    · rintro ⟨rows, scanned⟩ _
      obtain ⟨top, below, projected, descended, _⟩ := (scanCoverage_ok found).mp scanned
      exact ⟨⟨_, projected⟩, (cover_ok_iff live).mp ⟨below, descended⟩⟩
    · intro answered
      obtain ⟨⟨row, other, subtree, here, fetched, projects, incarnation⟩, each⟩ := answered live
      obtain ⟨below, descended⟩ := (cover_ok_iff live).mpr each
      exact ⟨_, (scanCoverage_ok found).mpr ⟨(other.incarnation, row.projected), below,
        ⟨other, subtree, here, fetched, projects, rfl⟩, descended, rfl⟩⟩

end Coverage

section Views

variable (current : RowMap RowAddress) (program : ViewProgram)

/-- A view returns its rows exactly when the program answers for each candidate. The rows are the admitted ones in the
order of their sort tuples and key paths within the bounds, or the covered ones in the order of their paths. The
subtrees of the candidates have the right rows in the right order exactly when the steps of the program ascend. -/
theorem scanView_delivered (source : ViewSource) (skip limit : Option UInt64) :
    ((∃ rows, scanView current program source skip limit = .ok rows) ↔ Answered current program source) ∧
    ∀ rows, scanView current program source skip limit = .ok rows →
      (Delivered current program source skip limit rows ↔
        ∀ address, Candidate current program source address → StepsAscend current program.subtreeSteps address) := by
  constructor
  · cases source with
    | collection path => exact scanCollection_ok_iff
    | coverage root field => exact scanCoverage_ok_iff
  · intro rows scanned
    have lists : Lists current program skip limit rows source := by
      cases source with
      | collection path => exact lists_of_scanCollection scanned
      | coverage root field => exact lists_of_scanCoverage scanned
    have fetched : ∀ address, Candidate current program source address →
        ∃ subtree, prefetchSubtree current address program.subtreeSteps = .ok subtree := by
      intro address candidate
      refine prefetchSubtree_ok_iff.mpr ?_
      cases source with
      | collection path => exact (scanCollection_ok_iff.mp ⟨rows, scanned⟩ address candidate).1
      | coverage root field =>
        obtain ⟨live, held, rfl | ⟨above, key, covered, rfl⟩⟩ := candidate
        · obtain ⟨⟨_, _, subtree, _, fetched, _⟩, _⟩ := scanCoverage_ok_iff.mp ⟨rows, scanned⟩ live
          exact prefetchSubtree_ok_iff.mp ⟨subtree, fetched⟩
        · exact (((scanCoverage_ok_iff.mp ⟨rows, scanned⟩ live).2 above covered).2 key held).1
    constructor
    · intro delivered address candidate
      obtain ⟨subtree, fetched, right⟩ := delivered.subtrees address candidate
      exact (subtreeOf_prefetch_iff fetched).mp right
    · intro ascending
      refine ⟨lists, fun address candidate => ?_⟩
      obtain ⟨subtree, fetched⟩ := fetched address candidate
      exact ⟨subtree, fetched, (subtreeOf_prefetch_iff fetched).mpr (ascending address candidate)⟩

/-- The program keeps each row as it is, and it reads the subtree through some steps. -/
def keepAll (steps : List String) : ViewProgram where
  subtreeSteps := steps
  admits _ _ _ := .ok true
  project value _ _ := .ok value
  sortTuple _ _ _ := .ok []
  sortDirections := []
  aligned := by
    intro _ _ _ _ same
    obtain rfl := Except.ok.inj same
    rfl

def shelfKey : KeyClass :=
  .composite (.text "k") []

/-- The address of a row that contains two others. -/
def shelf : RowAddress :=
  .root ⟨"shelves", shelfKey⟩

def shelfRow (incarnation : RowIncarnation) : StoredRow :=
  ⟨incarnation, ⟨⟨0, Signed.zero_low, Signed.zero_high⟩, .micros⟩, .none⟩

/-- A row with one row in each of two nested collections. -/
def shelfRows : RowMap RowAddress :=
  .ofList [(shelf, shelfRow "0"), (shelf.child ⟨"a", shelfKey⟩, shelfRow "1"),
    (shelf.child ⟨"b", shelfKey⟩, shelfRow "2")] compare

/-- A view whose steps ascend delivers its row with the subtree in order. -/
theorem scanView_delivered_sample :
    Delivered shelfRows (keepAll ["a", "b"]) (.collection (.top "shelves")) none none
      [⟨[shelfKey], "0", .none, []⟩] := by
  refine ((scanView_delivered shelfRows (keepAll ["a", "b"]) _ _ _).2 _ rfl).mpr fun _ _ _ _ => ?_
  refine List.pairwise_pair.mpr fun _ _ => ?_
  decide

/-- The subtree of a row has the nested rows in the order of the steps of the program, not in their own. -/
theorem unsorted_subtree :
    scanView shelfRows (keepAll ["b", "a"]) (.collection (.top "shelves")) none none =
        .ok [⟨[shelfKey], "0", .none, []⟩] ∧
      prefetchSubtree shelfRows shelf ["b", "a"] =
        .ok [([⟨"b", shelfKey⟩], .none), ([⟨"a", shelfKey⟩], .none)] ∧
      ¬Delivered shelfRows (keepAll ["b", "a"]) (.collection (.top "shelves")) none none
        [⟨[shelfKey], "0", .none, []⟩] := by
  refine ⟨rfl, rfl, fun delivered => ?_⟩
  obtain ⟨subtree, fetched, right⟩ := delivered.subtrees shelf ⟨rfl, rfl⟩
  obtain rfl := Except.ok.inj fetched
  have before := (List.pairwise_cons.mp right.ascends).1 _ List.mem_cons_self
  exact absurd before (by decide)

end Views

end Liasse.Store

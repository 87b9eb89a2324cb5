/-
This file prunes a tree by a check that each node must pass together with all nodes above it. The pruned tree
has exactly the paths on which each node passes.
-/

import Liasse.Codes.Listing

namespace Liasse.Codes

/-- A tree of labelled nodes. -/
inductive RoseTree (A : Type)
  | node (label : A) (branches : List (RoseTree A))

namespace RoseTree

variable {A B Key Fault : Type}

def label : RoseTree A → A
  | .node label _ => label

def branches : RoseTree A → List (RoseTree A)
  | .node _ branches => branches

/-- The induction over trees assumes the statement of each tree below. -/
theorem induct {statement : RoseTree A → Prop}
    (step : ∀ label branches, (∀ child ∈ branches, statement child) → statement (.node label branches))
    (tree : RoseTree A) : statement tree := by
  induction size : sizeOf tree using Nat.strong_induction_on generalizing tree with
  | h count earlier =>
    obtain ⟨label, branches⟩ := tree
    refine step label branches fun child inside => earlier (sizeOf child) ?_ child rfl
    have smaller : sizeOf child < sizeOf branches := List.sizeOf_lt_of_mem inside
    rw [← size, node.sizeOf_spec]
    omega

section Paths

variable (same : A → Key → Bool)

/-- The labels of the nodes on a path of keys below the root. -/
def trail : RoseTree A → List Key → Option (List A)
  | _, [] => some []
  | tree, key :: rest =>
    (tree.branches.find? fun child => same child.label key).bind fun child =>
      (child.trail rest).map (child.label :: ·)

mutual

/-- No key names two siblings. -/
def Distinct : RoseTree A → Prop
  | .node _ branches =>
    (branches.Pairwise fun first second => ∀ key, same first.label key = true → ¬same second.label key = true) ∧
      distinctTrees branches
termination_by structural tree => tree

def distinctTrees : List (RoseTree A) → Prop
  | [] => True
  | tree :: rest => tree.Distinct ∧ distinctTrees rest
termination_by structural trees => trees

end

variable {same}

theorem distinctTrees_iff (trees : List (RoseTree A)) :
    distinctTrees same trees ↔ ∀ tree ∈ trees, tree.Distinct same := by
  induction trees with
  | nil => simp [distinctTrees]
  | cons tree rest ih => simp [distinctTrees, ih]

theorem Distinct.child {tree : RoseTree A} (distinct : tree.Distinct same) {child : RoseTree A}
    (inside : child ∈ tree.branches) : child.Distinct same := by
  obtain ⟨label, branches⟩ := tree
  exact (distinctTrees_iff branches).mp distinct.2 child inside

/-- A path with one more key is a child of the key and the rest of the path below it. -/
theorem trail_cons {tree : RoseTree A} {key : Key} {rest : List Key} {labels : List A} :
    tree.trail same (key :: rest) = some labels ↔
      ∃ child, (tree.branches.find? fun child => same child.label key) = some child ∧
        ∃ deeper, child.trail same rest = some deeper ∧ labels = child.label :: deeper := by
  rw [trail, Option.bind_eq_some_iff]
  refine exists_congr fun child => and_congr_right fun _ => ?_
  rw [Option.map_eq_some_iff]
  exact exists_congr fun deeper => and_congr_right fun _ => eq_comm

end Paths

section Walks

variable (same : A → Key → Bool) (admits : A → Except Fault Bool)

/-- A walk along a path checks each node that it enters. -/
def walk : RoseTree A → List Key → Except Fault (Option (List A))
  | _, [] => .ok (some [])
  | tree, key :: rest =>
    match tree.branches.find? fun child => same child.label key with
    | none => .ok none
    | some child => do
        if ← admits child.label then
          (child.walk rest).map fun labels => labels.map (child.label :: ·)
        else .ok none

variable {same admits}

/-- A walk with one more key enters a child that passes and goes on below it. -/
theorem walk_cons {tree : RoseTree A} {key : Key} {rest : List Key} {labels : List A} :
    tree.walk same admits (key :: rest) = .ok (some labels) ↔
      ∃ child, (tree.branches.find? fun child => same child.label key) = some child ∧
        admits child.label = .ok true ∧
          ∃ deeper, child.walk same admits rest = .ok (some deeper) ∧ labels = child.label :: deeper := by
  rw [walk]
  cases tree.branches.find? fun child => same child.label key with
  | none => simp
  | some child =>
    simp only [Option.some.injEq, exists_eq_left']
    cases checked : admits child.label with
    | error fault =>
      constructor
      · intro arrived
        obtain ⟨value, failed, -⟩ := bind_ok.mp arrived
        cases failed
      · rintro ⟨passes, -⟩
        cases passes
    | ok flag =>
      rw [ok_bind]
      cases flag with
      | false => simp
      | true =>
        rw [if_pos rfl, and_iff_right rfl]
        cases child.walk same admits rest with
        | error fault => simp [Except.map]
        | ok arrived => cases arrived <;> simp [Except.map, eq_comm]

/-- A walk arrives exactly when the path exists and each node on it passes. -/
theorem walk_eq_some {tree : RoseTree A} {path : List Key} {labels : List A} :
    tree.walk same admits path = .ok (some labels) ↔
      tree.trail same path = some labels ∧ ∀ label ∈ labels, admits label = .ok true := by
  induction path generalizing tree labels with
  | nil =>
    rw [walk, trail, Except.ok.injEq, Option.some.injEq]
    refine ⟨fun arrived => ⟨arrived, ?_⟩, fun arrived => arrived.1⟩
    rw [← arrived]
    exact List.forall_mem_nil _
  | cons key rest ih =>
    rw [walk_cons, trail_cons]
    constructor
    · rintro ⟨child, found, passes, deeper, walked, rfl⟩
      obtain ⟨path, others⟩ := ih.mp walked
      exact ⟨⟨child, found, deeper, path, rfl⟩, List.forall_mem_cons.mpr ⟨passes, others⟩⟩
    · rintro ⟨⟨child, found, deeper, path, rfl⟩, passes⟩
      obtain ⟨first, others⟩ := List.forall_mem_cons.mp passes
      exact ⟨child, found, first, deeper, ih.mpr ⟨path, others⟩, rfl⟩

end Walks

section Pruning

variable (project : A → Except Fault B) (admits : A → Except Fault Bool)

mutual

/-- The projected tree of the nodes that pass together with all nodes above them. -/
def prune : RoseTree A → Except Fault (RoseTree (A × B))
  | .node label branches => do
      let image ← project label
      let kept ← pruneBelow branches
      pure (.node (label, image) kept)
termination_by structural tree => tree

def pruneBelow : List (RoseTree A) → Except Fault (List (RoseTree (A × B)))
  | [] => .ok []
  | child :: rest => do
      if ← admits child.label then
        let first ← prune child
        let others ← pruneBelow rest
        pure (first :: others)
      else pruneBelow rest
termination_by structural trees => trees

end

variable {project admits}

/-- A node that passes together with all nodes above it. -/
inductive Covered (admits : A → Except Fault Bool) : RoseTree A → RoseTree A → Prop
  | root (tree : RoseTree A) : Covered admits tree tree
  | step {tree child node : RoseTree A} (inside : child ∈ tree.branches) (passes : admits child.label = .ok true)
      (deeper : Covered admits child node) : Covered admits tree node

/-- A covered node has an image, and each node right below it is decided. -/
def Readable (project : A → Except Fault B) (admits : A → Except Fault Bool) (node : RoseTree A) : Prop :=
  (∃ image, project node.label = .ok image) ∧ ∀ child ∈ node.branches, ∃ passes, admits child.label = .ok passes

theorem pruneBelow_cons {child : RoseTree A} {rest : List (RoseTree A)} {passes : Bool}
    (decided : admits child.label = .ok passes) :
    pruneBelow project admits (child :: rest) =
      if passes then do
        let first ← prune project admits child
        let others ← pruneBelow project admits rest
        pure (first :: others)
      else pruneBelow project admits rest := by
  rw [pruneBelow, decided, ok_bind]

theorem pruneBelow_ok_iff {branches : List (RoseTree A)} :
    (∃ kept, pruneBelow project admits branches = .ok kept) ↔
      ∀ child ∈ branches, ∃ passes, admits child.label = .ok passes ∧
        (passes = true → ∃ pruned, prune project admits child = .ok pruned) := by
  induction branches with
  | nil => exact iff_of_true ⟨[], rfl⟩ fun _ inside => absurd inside List.not_mem_nil
  | cons child rest ih =>
    rw [List.forall_mem_cons, ← ih]
    cases decided : admits child.label with
    | error fault =>
      refine iff_of_false ?_ ?_
      · rintro ⟨kept, pruned⟩
        rw [pruneBelow, decided] at pruned
        cases pruned
      · rintro ⟨⟨passes, undecided, -⟩, -⟩
        cases undecided
    | ok passes =>
      rw [pruneBelow_cons decided]
      cases passes with
      | false => simp
      | true =>
        simp only [if_true, Except.ok.injEq, exists_eq_left', true_implies]
        constructor
        · rintro ⟨kept, pruned⟩
          obtain ⟨first, here, pruned⟩ := bind_ok.mp pruned
          obtain ⟨others, there, -⟩ := bind_ok.mp pruned
          exact ⟨⟨first, here⟩, others, there⟩
        · rintro ⟨⟨first, here⟩, others, there⟩
          exact ⟨first :: others, by rw [here, ok_bind, there, ok_bind]; rfl⟩

/-- A tree can be pruned exactly when each covered node is readable. -/
theorem prune_ok_iff {tree : RoseTree A} :
    (∃ pruned, prune project admits tree = .ok pruned) ↔
      ∀ node, Covered admits tree node → Readable project admits node := by
  induction tree using induct with
  | step label branches ih =>
    constructor
    · rintro ⟨pruned, done⟩
      rw [prune] at done
      obtain ⟨image, projected, done⟩ := bind_ok.mp done
      obtain ⟨kept, others, -⟩ := bind_ok.mp done
      have each := pruneBelow_ok_iff.mp ⟨kept, others⟩
      rintro node (_ | ⟨inside, passes, deeper⟩)
      · refine ⟨⟨image, projected⟩, fun child inside => ?_⟩
        obtain ⟨flag, decided, -⟩ := each child inside
        exact ⟨flag, decided⟩
      · obtain ⟨flag, decided, below⟩ := each _ inside
        obtain rfl := Except.ok.inj (passes.symm.trans decided)
        exact (ih _ inside).mp (below rfl) node deeper
    · intro readable
      obtain ⟨⟨image, projected⟩, decided⟩ := readable _ (.root _)
      rw [RoseTree.label] at projected
      obtain ⟨kept, others⟩ : ∃ kept, pruneBelow project admits branches = .ok kept := by
        refine pruneBelow_ok_iff.mpr fun child inside => ?_
        obtain ⟨passes, decision⟩ := decided child inside
        refine ⟨passes, decision, fun flag => (ih child inside).mpr fun node deeper => ?_⟩
        rw [flag] at decision
        exact readable node (.step inside decision deeper)
      exact ⟨.node (label, image) kept, by rw [prune, projected, ok_bind, others, ok_bind]; rfl⟩

/-- The branches of a pruned tree are the pruned branches that pass. -/
theorem prune_branches {tree : RoseTree A} {pruned : RoseTree (A × B)} (done : prune project admits tree = .ok pruned) :
    pruned.label.1 = tree.label ∧ pruneBelow project admits tree.branches = .ok pruned.branches := by
  obtain ⟨label, branches⟩ := tree
  rw [prune] at done
  obtain ⟨image, -, done⟩ := bind_ok.mp done
  obtain ⟨kept, others, done⟩ := bind_ok.mp done
  obtain rfl := Except.ok.inj done
  exact ⟨rfl, others⟩

variable {same : A → Key → Bool}

/-- The kept branch of a key is the pruned form of the branch of the key, when that one passes. -/
theorem find_pruneBelow {branches : List (RoseTree A)} {kept : List (RoseTree (A × B))}
    (done : pruneBelow project admits branches = .ok kept)
    (distinct : branches.Pairwise fun first second =>
      ∀ key, same first.label key = true → ¬same second.label key = true) (key : Key) (image : RoseTree (A × B)) :
    (kept.find? fun child => same child.label.1 key) = some image ↔
      ∃ child, (branches.find? fun child => same child.label key) = some child ∧
        admits child.label = .ok true ∧ prune project admits child = .ok image := by
  induction branches generalizing kept with
  | nil =>
    obtain rfl := Except.ok.inj done
    simp
  | cons child rest ih =>
    obtain ⟨apart, distinct⟩ := List.pairwise_cons.mp distinct
    obtain ⟨passes, decided, -⟩ := pruneBelow_ok_iff.mp ⟨kept, done⟩ child List.mem_cons_self
    rw [pruneBelow_cons decided] at done
    cases passes with
    | false =>
      have later := ih done distinct
      rw [later]
      cases named : same child.label key with
      | false => rw [List.find?_cons_of_neg (by simp [named])]
      | true =>
        rw [List.find?_cons_of_pos (by simp [named])]
        refine iff_of_false ?_ ?_
        · rintro ⟨other, found, -⟩
          have also := List.find?_some found
          exact apart other (List.mem_of_find?_eq_some found) key named also
        · rintro ⟨other, found, admitted, -⟩
          obtain rfl := Option.some.inj found
          rw [decided] at admitted
          cases admitted
    | true =>
      rw [if_pos rfl] at done
      obtain ⟨first, here, done⟩ := bind_ok.mp done
      obtain ⟨others, there, done⟩ := bind_ok.mp done
      obtain rfl := Except.ok.inj done
      have labelled : same first.label.1 key = same child.label key := by rw [(prune_branches here).1]
      cases named : same child.label key with
      | false =>
        rw [named] at labelled
        rw [List.find?_cons, labelled, List.find?_cons, named]
        exact ih there distinct
      | true =>
        rw [named] at labelled
        rw [List.find?_cons, labelled, List.find?_cons, named]
        constructor
        · intro found
          obtain rfl := Option.some.inj found
          exact ⟨child, rfl, decided, here⟩
        · rintro ⟨other, found, -, pruned⟩
          obtain rfl := Option.some.inj found
          rw [Except.ok.inj (here.symm.trans pruned)]

/-- A pruned tree has exactly the paths of the tree on which each node passes. -/
theorem trail_prune {tree : RoseTree A} (distinct : tree.Distinct same) {pruned : RoseTree (A × B)}
    (done : prune project admits tree = .ok pruned) {path : List Key} {labels : List A} :
    (∃ images, pruned.trail (fun label key => same label.1 key) path = some images ∧
        labels = images.map Prod.fst) ↔
      tree.trail same path = some labels ∧ ∀ label ∈ labels, admits label = .ok true := by
  rw [← walk_eq_some]
  induction path generalizing tree pruned labels with
  | nil => simp [trail, walk, eq_comm]
  | cons key rest ih =>
    have siblings : tree.branches.Pairwise fun first second =>
        ∀ key, same first.label key = true → ¬same second.label key = true := by
      cases tree
      exact distinct.1
    have kept := find_pruneBelow (prune_branches done).2 siblings key
    rw [walk_cons]
    constructor
    · rintro ⟨images, found, rfl⟩
      obtain ⟨image, first, deeper, below, rfl⟩ := trail_cons.mp found
      obtain ⟨child, named, passes, here⟩ := (kept image).mp first
      have inner := distinct.child (List.mem_of_find?_eq_some named)
      refine ⟨child, named, passes, deeper.map Prod.fst,
        (ih inner here).mp ⟨deeper, below, rfl⟩, ?_⟩
      rw [List.map_cons, (prune_branches here).1]
    · rintro ⟨child, named, passes, deeper, walked, rfl⟩
      have inner := distinct.child (List.mem_of_find?_eq_some named)
      have inside := List.mem_of_find?_eq_some named
      obtain ⟨flag, decided, below⟩ := pruneBelow_ok_iff.mp ⟨_, (prune_branches done).2⟩ child inside
      obtain rfl := Except.ok.inj (passes.symm.trans decided)
      obtain ⟨image, here⟩ := below rfl
      obtain ⟨images, path, rfl⟩ := (ih inner here).mpr walked
      refine ⟨image.label :: images, trail_cons.mpr ⟨image, (kept image).mpr ⟨child, named, passes, here⟩,
        images, path, rfl⟩, ?_⟩
      rw [List.map_cons, (prune_branches here).1]

end Pruning

end RoseTree

end Liasse.Codes

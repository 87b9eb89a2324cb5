/-
This file gives the facts about a bounded descent into a tree that lists what it meets before it goes below it.
-/

import Liasse.Codes.Listing
import Liasse.Codes.Related

namespace Liasse.Codes

variable {ε Label Node Row Out : Type}

section Descent

variable (children : Node → List (Label × Node × Row)) (visit : Node → Row → Except ε (Option Out)) (deep : ε)

/-- The descent visits each child of a node, and it goes below a child that the visit keeps. The path leads to the
node, and a node at the greatest depth is an error. -/
def descend : Nat → Node → List Label → Except ε (List (List Label × Out))
  | 0, _, _ => .error deep
  | remaining + 1, node, path => do
      let below ← (children node).mapM fun child => do
        match ← visit child.2.1 child.2.2 with
        | none => return []
        | some out =>
          let rest ← descend remaining child.2.1 (path ++ [child.1])
          return (path ++ [child.1], out) :: rest
      return below.flatten

/-- A path leads from a node to a kept one through kept ones. -/
inductive Found : Node → List Label → Node → Out → Prop
  | direct {start node : Node} {label : Label} {row : Row} {out : Out} : (label, node, row) ∈ children start →
      visit node row = .ok (some out) → Found start [label] node out
  | deeper {start child node : Node} {label : Label} {row : Row} {seen out : Out} {path : List Label} :
      (label, child, row) ∈ children start → visit child row = .ok (some seen) → Found child path node out →
      Found start (label :: path) node out

/-- A descent gets to a node on the empty path, or on a path that leads to it. -/
def Reaches (start : Node) (path : List Label) (node : Node) : Prop :=
  path = [] ∧ node = start ∨ ∃ out, Found children visit start path node out

/-- The labels of the children of a node that the visit keeps. -/
def keptLabels (node : Node) : List Label :=
  (children node).filterMap fun child => ((visit child.2.1 child.2.2).toOption.join).map fun _ => child.1

end Descent

section Contents

variable {children : Node → List (Label × Node × Row)} {visit : Node → Row → Except ε (Option Out)} {deep : ε}

/-- What the descent lists for one child. -/
def descendChild (children : Node → List (Label × Node × Row)) (visit : Node → Row → Except ε (Option Out)) (deep : ε)
    (remaining : Nat) (path : List Label) (child : Label × Node × Row) : Except ε (List (List Label × Out)) := do
  match ← visit child.2.1 child.2.2 with
  | none => return []
  | some out =>
    let rest ← descend children visit deep remaining child.2.1 (path ++ [child.1])
    return (path ++ [child.1], out) :: rest

theorem descend_succ (remaining : Nat) (node : Node) (path : List Label) :
    descend children visit deep (remaining + 1) node path =
      (children node).mapM (descendChild children visit deep remaining path) >>= fun below => pure below.flatten :=
  rfl

/-- The list of a kept child is the child and what is below it. -/
theorem descendChild_ok {remaining : Nat} {path : List Label} {child : Label × Node × Row}
    {found : List (List Label × Out)} : descendChild children visit deep remaining path child = .ok found ↔
      (visit child.2.1 child.2.2 = .ok none ∧ found = []) ∨ ∃ out rest, visit child.2.1 child.2.2 = .ok (some out) ∧
        descend children visit deep remaining child.2.1 (path ++ [child.1]) = .ok rest ∧
          found = (path ++ [child.1], out) :: rest := by
  rw [descendChild, bind_ok]
  constructor
  · rintro ⟨kept, visited, last⟩
    cases kept with
    | none => exact .inl ⟨visited, (Except.ok.inj last).symm⟩
    | some out =>
      obtain ⟨rest, descended, same⟩ := bind_ok.mp last
      exact .inr ⟨out, rest, visited, descended, (Except.ok.inj same).symm⟩
  · rintro (⟨visited, rfl⟩ | ⟨out, rest, visited, descended, rfl⟩)
    · exact ⟨none, visited, rfl⟩
    · exact ⟨some out, visited, bind_ok.mpr ⟨rest, descended, rfl⟩⟩

/-- The descent lists exactly the kept nodes that a path leads to. -/
theorem descend_mem_iff {remaining : Nat} {start : Node} {path : List Label} {found : List (List Label × Out)}
    (descended : descend children visit deep remaining start path = .ok found) {reached : List Label} {out : Out} :
    (reached, out) ∈ found ↔ ∃ rest node, reached = path ++ rest ∧ Found children visit start rest node out := by
  induction remaining generalizing start path found with
  | zero => cases descended
  | succ remaining earlier =>
    rw [descend_succ, bind_ok] at descended
    obtain ⟨lists, all, same⟩ := descended
    obtain rfl := Except.ok.inj same
    rw [List.mem_flatten]
    constructor
    · rintro ⟨list, listed, inside⟩
      obtain ⟨⟨label, child, row⟩, offered, answered⟩ := (mem_of_mapM all).mp listed
      rcases descendChild_ok.mp answered with ⟨_, rfl⟩ | ⟨seen, rest, visited, descended, rfl⟩
      · cases inside
      · rcases List.mem_cons.mp inside with head | later
        · obtain ⟨rfl, rfl⟩ := Prod.mk.inj head
          exact ⟨[label], child, rfl, .direct offered visited⟩
        · obtain ⟨further, node, rfl, found⟩ := (earlier descended).mp later
          exact ⟨label :: further, node, List.append_assoc .., .deeper offered visited found⟩
    · rintro ⟨rest, node, rfl, found⟩
      cases found with
      | @direct _ node label row out offered visited =>
        obtain ⟨list, listed, answered⟩ := exists_of_mapM all offered
        refine ⟨list, listed, ?_⟩
        rcases descendChild_ok.mp answered with ⟨other, _⟩ | ⟨seen, rest, kept, _, rfl⟩
        · rw [visited] at other
          cases other
        · rw [visited] at kept
          obtain rfl := Option.some.inj (Except.ok.inj kept)
          exact List.mem_cons_self
      | @deeper _ child node label row seen out further offered visited found =>
        obtain ⟨list, listed, answered⟩ := exists_of_mapM all offered
        refine ⟨list, listed, ?_⟩
        rcases descendChild_ok.mp answered with ⟨other, _⟩ | ⟨_, rest, _, descended, rfl⟩
        · rw [visited] at other
          cases other
        · refine List.mem_cons_of_mem _ ((earlier descended).mpr ⟨further, node, ?_, found⟩)
          exact List.append_cons ..

/-- A path leads to the node that its labels lead to, when each label names a child that the visit keeps. -/
theorem found_iff {advance : Node → Label → Node} {offered : Node → Label → Row → Prop}
    (members : ∀ node label child row,
      (label, child, row) ∈ children node ↔ child = advance node label ∧ offered node label row)
    {start node : Node} {path : List Label} {out : Out} :
    Found children visit start path node out ↔ path ≠ [] ∧ node = path.foldl advance start ∧
      ∀ front label rest, path = front ++ label :: rest → ∃ row seen, offered (front.foldl advance start) label row ∧
        visit (advance (front.foldl advance start) label) row = .ok (some seen) ∧ (rest = [] → seen = out) := by
  constructor
  · intro found
    induction found with
    | @direct start node label row out offeredHere visited =>
      obtain ⟨rfl, available⟩ := (members ..).mp offeredHere
      refine ⟨List.cons_ne_nil _ _, rfl, fun front other rest same => ?_⟩
      rcases List.singleton_eq_append_iff.mp same with ⟨rfl, same⟩ | ⟨_, impossible⟩
      · obtain ⟨rfl, rfl⟩ := List.cons.inj same
        exact ⟨row, out, available, visited, fun _ => rfl⟩
      · cases impossible
    | @deeper start child node label row seen out path offeredHere visited found earlier =>
      obtain ⟨rfl, available⟩ := (members ..).mp offeredHere
      obtain ⟨nonempty, same, each⟩ := earlier
      refine ⟨List.cons_ne_nil _ _, same, fun front other rest split => ?_⟩
      cases front with
      | nil =>
        obtain ⟨rfl, rfl⟩ := List.cons.inj split
        exact ⟨row, seen, available, visited, fun ends => absurd ends nonempty⟩
      | cons first front =>
        obtain ⟨rfl, further⟩ := List.cons.inj split
        exact each front other rest further
  · rintro ⟨nonempty, rfl, each⟩
    induction path generalizing start with
    | nil => exact absurd rfl nonempty
    | cons label rest earlier =>
      obtain ⟨row, seen, available, visited, last⟩ := each [] label rest rfl
      have child := (members start label _ row).mpr ⟨rfl, available⟩
      cases rest with
      | nil =>
        obtain rfl := last rfl
        exact .direct child visited
      | cons second rest =>
        refine .deeper child visited (earlier (List.cons_ne_nil _ _) fun front other further split => ?_)
        exact each (label :: front) other further (congrArg (label :: ·) split)

/-- A descent gets to a node at its start, or through a kept child. -/
theorem reaches_iff {start node : Node} {path : List Label} : Reaches children visit start path node ↔
    path = [] ∧ node = start ∨ ∃ label child row out rest, (label, child, row) ∈ children start ∧
      visit child row = .ok (some out) ∧ path = label :: rest ∧ Reaches children visit child rest node := by
  constructor
  · rintro (here | ⟨out, found⟩)
    · exact .inl here
    · cases found with
      | @direct _ _ label row _ offered visited =>
        exact .inr ⟨label, node, row, out, [], offered, visited, rfl, .inl ⟨rfl, rfl⟩⟩
      | @deeper _ child _ label row seen _ rest offered visited found =>
        exact .inr ⟨label, child, row, seen, rest, offered, visited, rfl, .inr ⟨out, found⟩⟩
  · rintro (here | ⟨label, child, row, out, rest, offered, visited, rfl, ⟨rfl, rfl⟩ | ⟨last, found⟩⟩)
    · exact .inl here
    · exact .inr ⟨out, .direct offered visited⟩
    · exact .inr ⟨last, .deeper offered visited found⟩

/-- A kept child of a node that the descent gets to is found on the longer path. -/
theorem Reaches.found {start node child : Node} {path : List Label} {label : Label} {row : Row} {out : Out}
    (reaches : Reaches children visit start path node) (offered : (label, child, row) ∈ children node)
    (visited : visit child row = .ok (some out)) : Found children visit start (path ++ [label]) child out := by
  rcases reaches with ⟨rfl, rfl⟩ | ⟨last, found⟩
  · exact .direct offered visited
  · induction found with
    | direct first kept => exact .deeper first kept (.direct offered visited)
    | deeper first kept _ later => exact .deeper first kept (later offered)

/-- The descent succeeds exactly when it gets to no node at the greatest depth and no visit of a child fails. -/
theorem descend_ok_iff {remaining : Nat} {start : Node} {path : List Label} :
    (∃ found, descend children visit deep remaining start path = .ok found) ↔
      ∀ rest node, Reaches children visit start rest node →
        rest.length < remaining ∧ ∀ child ∈ children node, ∃ kept, visit child.2.1 child.2.2 = .ok kept := by
  induction remaining generalizing start path with
  | zero =>
    refine iff_of_false (fun ⟨_, descended⟩ => by cases descended) fun bounded => ?_
    exact absurd (bounded [] start (.inl ⟨rfl, rfl⟩)).1 (Nat.not_lt_zero _)
  | succ remaining earlier =>
    constructor
    · rintro ⟨found, descended⟩ rest node reaches
      rw [descend_succ, bind_ok] at descended
      obtain ⟨lists, all, _⟩ := descended
      rcases reaches_iff.mp reaches with ⟨rfl, rfl⟩ | ⟨label, child, row, out, further, offered, visited, rfl, below⟩
      · refine ⟨Nat.succ_pos _, fun child offered => ?_⟩
        obtain ⟨list, _, answered⟩ := exists_of_mapM all offered
        rcases descendChild_ok.mp answered with ⟨visited, _⟩ | ⟨_, _, visited, _⟩ <;> exact ⟨_, visited⟩
      · obtain ⟨list, _, answered⟩ := exists_of_mapM all offered
        rcases descendChild_ok.mp answered with ⟨other, _⟩ | ⟨_, found, _, descended, _⟩
        · rw [visited] at other
          cases other
        · obtain ⟨short, each⟩ := earlier.mp ⟨found, descended⟩ further node below
          exact ⟨Nat.succ_lt_succ short, each⟩
    · intro bounded
      have each : ∀ child ∈ children start, ∃ list,
          descendChild children visit deep remaining path child = .ok list := by
        intro child offered
        obtain ⟨kept, visited⟩ := (bounded [] start (.inl ⟨rfl, rfl⟩)).2 child offered
        cases kept with
        | none => exact ⟨[], descendChild_ok.mpr (.inl ⟨visited, rfl⟩)⟩
        | some out =>
          have below : ∃ found, descend children visit deep remaining child.2.1 (path ++ [child.1]) = .ok found := by
            refine earlier.mpr fun rest node reaches => ?_
            obtain ⟨short, each⟩ := bounded (child.1 :: rest) node
              (reaches_iff.mpr (.inr ⟨child.1, child.2.1, child.2.2, out, rest, offered, visited, rfl, reaches⟩))
            exact ⟨Nat.lt_of_succ_lt_succ short, each⟩
          obtain ⟨rest, descended⟩ := below
          exact ⟨_, descendChild_ok.mpr (.inr ⟨out, rest, visited, descended, rfl⟩)⟩
      obtain ⟨lists, all⟩ := exists_mapM each
      exact ⟨lists.flatten, by rw [descend_succ, all]; rfl⟩

end Contents

section Order

variable [Ord Label] [Std.TransOrd Label]

theorem compare_below (path left right : List Label) : compare (path ++ left) (path ++ right) = compare left right := by
  induction path with
  | nil => rfl
  | cons label path earlier =>
    have head : compare (label :: (path ++ left)) (label :: (path ++ right)) =
        (compare label label).then (compare (path ++ left) (path ++ right)) := List.compareLex_cons_cons ..
    rw [List.cons_append, List.cons_append, head, Std.ReflOrd.compare_self, earlier]
    rfl

/-- Paths through siblings have the order of the siblings. -/
theorem compare_siblings (path : List Label) {left right : List Label} {first second : Label} (below : compare first second = .lt) :
    compare (path ++ first :: left) (path ++ second :: right) = .lt := by
  have head : compare (first :: left) (second :: right) = (compare first second).then (compare left right) :=
    List.compareLex_cons_cons ..
  rw [compare_below, head, below]
  rfl

/-- A path is before the longer ones that it starts. -/
theorem compare_longer (path : List Label) {rest : List Label} (longer : rest ≠ []) :
    compare path (path ++ rest) = .lt := by
  obtain ⟨label, rest, rfl⟩ := List.exists_cons_of_ne_nil longer
  have grows := compare_below path [] (label :: rest)
  rw [List.append_nil] at grows
  exact grows

variable {children : Node → List (Label × Node × Row)} {visit : Node → Row → Except ε (Option Out)} {deep : ε}

omit [Ord Label] [Std.TransOrd Label] in
theorem Found.ne_nil {start node : Node} {path : List Label} {out : Out}
    (found : Found children visit start path node out) : path ≠ [] := by
  cases found <;> exact List.cons_ne_nil _ _

omit [Ord Label] [Std.TransOrd Label] in
/-- What the descent lists for a child goes through its label. -/
theorem through_of_descendChild {remaining : Nat} {path : List Label} {child : Label × Node × Row}
    {found : List (List Label × Out)}
    (answered : descendChild children visit deep remaining path child = .ok found) {entry : List Label × Out}
    (inside : entry ∈ found) : ∃ rest, entry.1 = path ++ child.1 :: rest := by
  rcases descendChild_ok.mp answered with ⟨_, rfl⟩ | ⟨out, below, _, descended, rfl⟩
  · cases inside
  · rcases List.mem_cons.mp inside with rfl | later
    · exact ⟨[], rfl⟩
    · obtain ⟨rest, node, same, _⟩ := (descend_mem_iff descended).mp later
      exact ⟨rest, same.trans (List.append_assoc ..)⟩

omit [Ord Label] [Std.TransOrd Label] in
/-- The list of a kept child starts with it. -/
theorem head_of_kept {remaining : Nat} {path : List Label} {child : Label × Node × Row} {label : Label}
    {found : List (List Label × Out)}
    (answered : descendChild children visit deep remaining path child = .ok found)
    (kept : ((visit child.2.1 child.2.2).toOption.join.map fun _ => child.1) = some label) :
    child.1 = label ∧ ∃ out rest, found = (path ++ [child.1], out) :: rest := by
  rcases descendChild_ok.mp answered with ⟨visited, _⟩ | ⟨out, rest, visited, _, rfl⟩
  · rw [visited] at kept
    cases kept
  · rw [visited] at kept
    exact ⟨Option.some.inj kept, out, rest, rfl⟩

omit [Ord Label] [Std.TransOrd Label] in
theorem kept_of_mem {remaining : Nat} {path : List Label} {child : Label × Node × Row}
    {found : List (List Label × Out)} (answered : descendChild children visit deep remaining path child = .ok found)
    {entry : List Label × Out} (inside : entry ∈ found) :
    ((visit child.2.1 child.2.2).toOption.join.map fun _ => child.1) = some child.1 := by
  rcases descendChild_ok.mp answered with ⟨_, rfl⟩ | ⟨out, rest, visited, _, rfl⟩
  · cases inside
  · rw [visited]
    rfl

/-- The lists of the children are in order when the labels of the kept ones are. -/
theorem pairwise_lists_iff {remaining : Nat} {start : Node} {path : List Label} {lists : List (List (List Label × Out))}
    (all : (children start).mapM (descendChild children visit deep remaining path) = .ok lists) :
    (lists.Pairwise fun one other => ∀ first ∈ one, ∀ second ∈ other, compare first.1 second.1 = .lt) ↔
      (keptLabels children visit start).Pairwise fun first second => compare first second = .lt := by
  rw [pairwise_mapM_iff all, keptLabels, List.pairwise_filterMap]
  constructor
  · intro ordered
    refine ordered.imp_of_mem fun {first second} one two below label kept other keptOther => ?_
    obtain ⟨list, _, answered⟩ := exists_of_mapM all one
    obtain ⟨others, _, otherAnswered⟩ := exists_of_mapM all two
    obtain ⟨rfl, out, rest, rfl⟩ := head_of_kept answered kept
    obtain ⟨rfl, last, further, rfl⟩ := head_of_kept otherAnswered keptOther
    have heads := below _ answered _ otherAnswered _ List.mem_cons_self _ List.mem_cons_self
    have single : compare [first.1] [second.1] = (compare first.1 second.1).then .eq := List.compareLex_cons_cons ..
    rw [compare_below, single, Ordering.then_eq] at heads
    exact heads
  · intro ordered
    refine ordered.imp fun {first second} labels list answered others otherAnswered entry inside other present => ?_
    obtain ⟨rest, same⟩ := through_of_descendChild answered inside
    obtain ⟨further, equal⟩ := through_of_descendChild otherAnswered present
    rw [same, equal]
    exact compare_siblings _ (labels _ (kept_of_mem answered inside) _ (kept_of_mem otherAnswered present))

/-- The descent lists the paths in their order exactly when the labels below each node that it gets to are in order. -/
theorem sorted_descend_iff {remaining : Nat} {start : Node} {path : List Label} {found : List (List Label × Out)}
    (descended : descend children visit deep remaining start path = .ok found) :
    (found.Pairwise fun first second => compare first.1 second.1 = .lt) ↔
      ∀ rest node, Reaches children visit start rest node →
        (keptLabels children visit node).Pairwise fun first second => compare first second = .lt := by
  induction remaining generalizing start path found with
  | zero => cases descended
  | succ remaining earlier =>
    rw [descend_succ, bind_ok] at descended
    obtain ⟨lists, all, same⟩ := descended
    obtain rfl := Except.ok.inj same
    rw [List.pairwise_flatten, pairwise_lists_iff all]
    constructor
    · rintro ⟨each, siblings⟩ rest node reaches
      rcases reaches_iff.mp reaches with ⟨_, rfl⟩ | ⟨label, child, row, out, further, offered, visited, _, below⟩
      · exact siblings
      · obtain ⟨list, listed, answered⟩ := exists_of_mapM all offered
        rcases descendChild_ok.mp answered with ⟨other, _⟩ | ⟨_, found, _, descended, rfl⟩
        · rw [visited] at other
          cases other
        · exact (earlier descended).mp (List.pairwise_cons.mp (each _ listed)).2 further node below
    · intro labels
      refine ⟨fun list listed => ?_, labels [] start (.inl ⟨rfl, rfl⟩)⟩
      obtain ⟨⟨label, child, row⟩, offered, answered⟩ := (mem_of_mapM all).mp listed
      rcases descendChild_ok.mp answered with ⟨_, rfl⟩ | ⟨out, found, visited, descended, rfl⟩
      · exact .nil
      · refine List.pairwise_cons.mpr ⟨fun entry inside => ?_, (earlier descended).mpr fun rest node reaches => ?_⟩
        · obtain ⟨rest, node, same, below⟩ := (descend_mem_iff descended).mp inside
          rw [same]
          exact compare_longer _ below.ne_nil
        · exact labels (label :: rest) node
            (reaches_iff.mpr (.inr ⟨label, child, row, out, rest, offered, visited, rfl, reaches⟩))

end Order

end Liasse.Codes

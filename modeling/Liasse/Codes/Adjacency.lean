/-
This file treats a forest that a table keeps as links from each node to its parent. The root of the
forest is no node of the table, and it has the identifier zero.
-/

import Mathlib

namespace Liasse.Codes

/-- A node has its own identifier, the one of its parent, a label among its siblings and a payload. -/
structure Linked (Label Payload : Type) where
  id : Nat
  parent : Nat
  label : Label
  payload : Payload

namespace Linked

variable {Label Payload : Type}

/-- The place of a node is its label under its parent. -/
def place (node : Linked Label Payload) : Nat × Label :=
  (node.parent, node.label)

/-- Distinct nodes have distinct identifiers and distinct places, and each parent is an earlier node. -/
structure Grounded (nodes : List (Linked Label Payload)) : Prop where
  ids : (nodes.map Linked.id).Nodup
  places : (nodes.map place).Nodup
  rooted : ∀ node ∈ nodes, node.parent < node.id ∧
    (node.parent = 0 ∨ ∃ above ∈ nodes, above.id = node.parent)

section Lookup

variable [DecidableEq Label]

/-- The node under a parent with the given label. -/
def child (nodes : List (Linked Label Payload)) (parent : Nat) (label : Label) :
    Option (Linked Label Payload) :=
  nodes.find? fun node => node.parent = parent ∧ node.label = label

/-- One level of a walk from the root. -/
def follow (nodes : List (Linked Label Payload)) (reached : Option Nat) (label : Label) : Option Nat :=
  reached.bind fun parent => (child nodes parent label).map Linked.id

/-- The identifier at the end of a path from the root. -/
def locate (nodes : List (Linked Label Payload)) (path : List Label) : Option Nat :=
  path.foldl (follow nodes) (some 0)

variable {nodes : List (Linked Label Payload)}

@[simp] theorem locate_nil : locate nodes [] = some 0 :=
  rfl

theorem locate_snoc (path : List Label) (label : Label) :
    locate nodes (path ++ [label]) = follow nodes (locate nodes path) label := by
  rw [locate, List.foldl_append]
  rfl

theorem child_eq_some {parent : Nat} {label : Label} {node : Linked Label Payload}
    (found : child nodes parent label = some node) :
    node ∈ nodes ∧ node.parent = parent ∧ node.label = label := by
  have placed := List.find?_some found
  simp only [decide_eq_true_eq] at placed
  exact ⟨List.mem_of_find?_eq_some found, placed⟩

/-- A path of one more level ends at a node below the end of the shorter path. -/
theorem locate_snoc_eq_some {path : List Label} {label : Label} {id : Nat} :
    locate nodes (path ++ [label]) = some id ↔
      ∃ parent node, locate nodes path = some parent ∧ child nodes parent label = some node ∧
        node.id = id := by
  rw [locate_snoc]
  cases locate nodes path with
  | none => simp [follow]
  | some parent => simp [follow]

/-- The end of a path with a level is the identifier of a node. -/
theorem exists_of_locate {path : List Label} {id : Nat} (found : locate nodes path = some id)
    (level : path ≠ []) : ∃ node ∈ nodes, node.id = id ∧ some node.label = path.getLast? := by
  obtain rfl | ⟨above, label, rfl⟩ := List.eq_nil_or_concat' path
  · exact absurd rfl level
  · obtain ⟨parent, node, _, placed, rfl⟩ := locate_snoc_eq_some.mp found
    obtain ⟨inside, _, rfl⟩ := child_eq_some placed
    exact ⟨node, inside, rfl, by simp⟩

namespace Grounded

variable (grounded : Grounded nodes)

include grounded

omit [DecidableEq Label] in
/-- Two nodes with one identifier are one node. -/
theorem eq_of_id {first second : Linked Label Payload} (one : first ∈ nodes) (other : second ∈ nodes)
    (same : first.id = second.id) : first = second :=
  List.inj_on_of_nodup_map grounded.ids one other same

omit [DecidableEq Label] in
theorem id_pos {node : Linked Label Payload} (inside : node ∈ nodes) : 0 < node.id :=
  Nat.zero_lt_of_lt (grounded.rooted node inside).1

/-- A node is the one at its own place. -/
theorem child_of_mem {node : Linked Label Payload} (inside : node ∈ nodes) :
    child nodes node.parent node.label = some node := by
  obtain ⟨other, found⟩ : ∃ other, child nodes node.parent node.label = some other := by
    refine Option.isSome_iff_exists.mp (List.find?_isSome.mpr ⟨node, inside, ?_⟩)
    simp
  obtain ⟨present, parent, label⟩ := child_eq_some found
  have same : other = node :=
    List.inj_on_of_nodup_map grounded.places present inside (Prod.ext parent label)
  rw [found, same]

/-- Two paths to one identifier are one path. -/
theorem locate_inj {first second : List Label} {id : Nat} (one : locate nodes first = some id)
    (other : locate nodes second = some id) : first = second := by
  induction first using List.reverseRecOn generalizing second id with
  | nil =>
    obtain rfl := Option.some.inj one
    by_contra different
    obtain ⟨node, inside, root, _⟩ := exists_of_locate other (Ne.symm different)
    exact absurd root (Nat.ne_of_gt (grounded.id_pos inside))
  | append_singleton above label ih =>
    obtain ⟨parent, node, up, placed, rfl⟩ := locate_snoc_eq_some.mp one
    obtain ⟨inside, same, rfl⟩ := child_eq_some placed
    obtain rfl | ⟨path, last, rfl⟩ := List.eq_nil_or_concat' second
    · have root : 0 = node.id := Option.some.inj other
      exact absurd root (Nat.ne_of_lt (grounded.id_pos inside))
    · obtain ⟨under, twin, higher, found, equal⟩ := locate_snoc_eq_some.mp other
      obtain ⟨present, link, rfl⟩ := child_eq_some found
      obtain rfl := grounded.eq_of_id present inside equal
      obtain rfl := same.symm.trans link
      rw [ih up higher]

end Grounded

theorem follow_none (path : List Label) : path.foldl (follow nodes) none = none := by
  induction path with
  | nil => rfl
  | cons label path ih => exact ih

/-- The start of a located path is located. -/
theorem exists_of_locate_append {path rest : List Label} {id : Nat}
    (found : locate nodes (path ++ rest) = some id) : ∃ start, locate nodes path = some start := by
  cases reached : locate nodes path with
  | none =>
    rw [locate, List.foldl_append, ← locate, reached, follow_none] at found
    cases found
  | some start => exact ⟨start, rfl⟩

/-- The node at the end of a path, by the last level. -/
def nodeAt (nodes : List (Linked Label Payload)) (path : List Label) (last : Label) :
    Option (Linked Label Payload) :=
  (locate nodes path).bind fun parent => child nodes parent last

theorem nodeAt_id (path : List Label) (last : Label) :
    (nodeAt nodes path last).map Linked.id = locate nodes (path ++ [last]) := by
  rw [locate_snoc, nodeAt]
  cases locate nodes path <;> rfl

theorem Grounded.nodeAt_iff (grounded : Grounded nodes) {path : List Label} {last : Label}
    {node : Linked Label Payload} :
    nodeAt nodes path last = some node ↔
      node ∈ nodes ∧ locate nodes path = some node.parent ∧ node.label = last := by
  rw [nodeAt, Option.bind_eq_some_iff]
  constructor
  · rintro ⟨parent, up, found⟩
    obtain ⟨inside, rfl, label⟩ := child_eq_some found
    exact ⟨inside, up, label⟩
  · rintro ⟨inside, up, rfl⟩
    exact ⟨_, up, grounded.child_of_mem inside⟩

section Change

variable {change : Linked Label Payload → Linked Label Payload}
  (kept : ∀ node, (change node).id = node.id ∧ (change node).parent = node.parent ∧
    (change node).label = node.label)

include kept

theorem child_map (parent : Nat) (label : Label) :
    child (nodes.map change) parent label = (child nodes parent label).map change := by
  rw [child, List.find?_map, child]
  congr 2
  funext node
  simp only [Function.comp_apply, (kept node).2.1, (kept node).2.2]

/-- A change of payloads moves no node. -/
theorem locate_map (path : List Label) : locate (nodes.map change) path = locate nodes path := by
  have step : follow (nodes.map change) = follow nodes := by
    funext reached label
    cases reached with
    | none => rfl
    | some parent =>
      rw [follow, follow, Option.bind_some, Option.bind_some, child_map kept, Option.map_map]
      congr 1
      funext node
      exact (kept node).1
  rw [locate, step, locate]

theorem nodeAt_map (path : List Label) (last : Label) :
    nodeAt (nodes.map change) path last = (nodeAt nodes path last).map change := by
  rw [nodeAt, locate_map kept, nodeAt]
  cases locate nodes path with
  | none => rfl
  | some parent => exact child_map kept parent last

omit [DecidableEq Label] in
theorem Grounded.map (grounded : Grounded nodes) : Grounded (nodes.map change) where
  ids := by
    rw [List.map_map]
    convert grounded.ids using 2
    funext node
    exact (kept node).1
  places := by
    rw [List.map_map]
    convert grounded.places using 2
    funext node
    exact Prod.ext (kept node).2.1 (kept node).2.2
  rooted := by
    intro node inside
    obtain ⟨node, present, rfl⟩ := List.mem_map.mp inside
    obtain ⟨lower, above⟩ := grounded.rooted node present
    rw [(kept node).1, (kept node).2.1]
    refine ⟨lower, above.imp (fun top => top) ?_⟩
    rintro ⟨above, listed, same⟩
    exact ⟨change above, List.mem_map_of_mem listed, (kept above).1.trans same⟩

end Change

/-- A node can be added below the end of a path where there is none. -/
structure Addable (nodes : List (Linked Label Payload)) (path : List Label)
    (node : Linked Label Payload) : Prop where
  positive : 0 < node.id
  fresh : ∀ other ∈ nodes, other.id < node.id
  under : locate nodes path = some node.parent
  free : locate nodes (path ++ [node.label]) = none

namespace Addable

variable {path : List Label} {node : Linked Label Payload} (addable : Addable nodes path node)

include addable

theorem child_eq_none : child nodes node.parent node.label = none := by
  have free := addable.free
  rw [locate_snoc, addable.under] at free
  exact Option.map_eq_none_iff.mp free

theorem parent_lt : node.parent < node.id ∧
    (node.parent = 0 ∨ ∃ above ∈ nodes, above.id = node.parent) := by
  obtain rfl | ⟨above, label, rfl⟩ := List.eq_nil_or_concat' path
  · have root : node.parent = 0 := (Option.some.inj addable.under).symm
    exact ⟨root ▸ addable.positive, Or.inl root⟩
  · obtain ⟨other, inside, same, _⟩ := exists_of_locate addable.under (by simp)
    exact ⟨same ▸ addable.fresh other inside, Or.inr ⟨other, inside, same⟩⟩

theorem grounded (grounded : Grounded nodes) : Grounded (nodes ++ [node]) where
  ids := by
    rw [List.map_append, List.map_singleton, List.nodup_append]
    refine ⟨grounded.ids, List.nodup_singleton _, ?_⟩
    rintro id inside _ own rfl
    obtain ⟨other, present, rfl⟩ := List.mem_map.mp inside
    exact absurd (addable.fresh other present) (by rw [List.mem_singleton.mp own]; exact Nat.lt_irrefl _)
  places := by
    rw [List.map_append, List.map_singleton, List.nodup_append]
    refine ⟨grounded.places, List.nodup_singleton _, ?_⟩
    rintro place inside _ own rfl
    obtain ⟨other, present, rfl⟩ := List.mem_map.mp inside
    obtain ⟨parent, label⟩ := Prod.mk.inj (List.mem_singleton.mp own)
    have found := grounded.child_of_mem present
    rw [parent, label, addable.child_eq_none] at found
    cases found
  rooted := by
    intro other inside
    rcases List.mem_append.mp inside with present | own
    · obtain ⟨lower, above⟩ := grounded.rooted other present
      refine ⟨lower, above.imp (fun top => top) ?_⟩
      rintro ⟨above, listed, same⟩
      exact ⟨above, List.mem_append_left _ listed, same⟩
    · obtain rfl := List.mem_singleton.mp own
      obtain ⟨lower, above⟩ := addable.parent_lt
      refine ⟨lower, above.imp (fun top => top) ?_⟩
      rintro ⟨above, listed, same⟩
      exact ⟨above, List.mem_append_left _ listed, same⟩

/-- The added node is found at its own place, and the other places keep their nodes. -/
theorem child_append (parent : Nat) (label : Label) :
    child (nodes ++ [node]) parent label =
      if parent = node.parent ∧ label = node.label then some node else child nodes parent label := by
  rw [child, List.find?_append, ← child]
  by_cases own : parent = node.parent ∧ label = node.label
  · rw [if_pos own, own.1, own.2, addable.child_eq_none]
    simp
  · rw [if_neg own]
    have other : ¬(node.parent = parent ∧ node.label = label) := fun same => own ⟨same.1.symm, same.2.symm⟩
    cases child nodes parent label <;> simp [other]

/-- The added node is the only one at a new path. -/
theorem locate_append (grounded : Grounded nodes) (other : List Label) :
    locate (nodes ++ [node]) other =
      if other = path ++ [node.label] then some node.id else locate nodes other := by
  induction other using List.reverseRecOn with
  | nil => rw [if_neg (by simp)]; rfl
  | append_singleton above label ih =>
    rw [locate_snoc, ih]
    by_cases deeper : above = path ++ [node.label]
    · -- Nothing is below the added node yet.
      have longer : above ++ [label] ≠ path ++ [node.label] := by
        intro same
        have lengths := congrArg List.length same
        simp [deeper] at lengths
      have leaf : child (nodes ++ [node]) node.id label = none := by
        rw [addable.child_append, if_neg fun same => Nat.ne_of_gt (addable.parent_lt).1 same.1]
        by_contra some
        obtain ⟨lower, found⟩ := Option.ne_none_iff_exists'.mp some
        obtain ⟨inside, link, _⟩ := child_eq_some found
        obtain ⟨_, root | ⟨up, listed, same⟩⟩ := grounded.rooted lower inside
        · exact absurd (link.symm.trans root) (Nat.ne_of_gt addable.positive)
        · exact absurd (addable.fresh up listed) (by rw [same, link]; exact Nat.lt_irrefl _)
      rw [if_pos deeper, if_neg longer, locate_snoc, deeper, addable.free, follow, Option.bind_some, leaf]
      rfl
    · rw [if_neg deeper]
      by_cases own : above ++ [label] = path ++ [node.label]
      · obtain ⟨rfl, tail⟩ := List.append_inj' own rfl
        obtain rfl := List.singleton_inj.mp tail
        rw [if_pos rfl, addable.under, follow, Option.bind_some, addable.child_append, if_pos ⟨rfl, rfl⟩]
        rfl
      · rw [if_neg own, locate_snoc]
        cases reached : locate nodes above with
        | none => rfl
        | some parent =>
          rw [follow, Option.bind_some, addable.child_append, if_neg, follow, Option.bind_some]
          rintro ⟨rfl, rfl⟩
          rw [grounded.locate_inj reached addable.under] at own
          exact own rfl

theorem nodeAt_append (grounded : Grounded nodes) (other : List Label) (last : Label) :
    nodeAt (nodes ++ [node]) other last =
      if other ++ [last] = path ++ [node.label] then some node else nodeAt nodes other last := by
  have grown := addable.grounded grounded
  by_cases own : other ++ [last] = path ++ [node.label]
  · obtain ⟨rfl, tail⟩ := List.append_inj' own rfl
    obtain rfl := List.singleton_inj.mp tail
    rw [if_pos rfl]
    refine grown.nodeAt_iff.mpr ⟨List.mem_append_right _ (List.mem_singleton_self _), ?_, rfl⟩
    rw [addable.locate_append grounded, if_neg (by simp), addable.under]
  · rw [if_neg own]
    have kept : ∀ found, nodeAt nodes other last = some found → nodeAt (nodes ++ [node]) other last = some found := by
      intro found stored
      obtain ⟨inside, up, label⟩ := grounded.nodeAt_iff.mp stored
      refine grown.nodeAt_iff.mpr ⟨List.mem_append_left _ inside, ?_, label⟩
      rw [addable.locate_append grounded, if_neg, up]
      rintro rfl
      rw [addable.free] at up
      cases up
    cases stored : nodeAt nodes other last with
    | some found => exact kept found stored
    | none =>
      have nothing := addable.locate_append grounded (other ++ [last])
      rw [if_neg own, ← nodeAt_id, ← nodeAt_id, stored] at nothing
      exact Option.map_eq_none_iff.mp nothing

end Addable

section Descent

/-- The nodes directly below a reached one, each with its chain of nodes from the start. -/
def below (nodes : List (Linked Label Payload)) (accept : Label → Bool)
    (reached : Nat × List (Linked Label Payload)) : List (Nat × List (Linked Label Payload)) :=
  (nodes.filter fun node => node.parent = reached.1 ∧ accept node.label).map fun node =>
    (node.id, reached.2 ++ [node])

/-- The nodes below some reached ones, level by level and at most as many levels as given. -/
def descend (nodes : List (Linked Label Payload)) (accept : Label → Bool) :
    Nat → List (Nat × List (Linked Label Payload)) → List (Nat × List (Linked Label Payload))
  | 0, _ => []
  | levels + 1, reached =>
    let next := reached.flatMap (below nodes accept)
    if next.isEmpty then [] else next ++ descend nodes accept levels next

/-- A chain links the nodes from the start to the finish, and all its labels are accepted. -/
def Links (nodes : List (Linked Label Payload)) (accept : Label → Bool) :
    Nat → List (Linked Label Payload) → Nat → Prop
  | start, [], finish => start = finish
  | start, node :: rest, finish =>
    node ∈ nodes ∧ node.parent = start ∧ accept node.label = true ∧ Links nodes accept node.id rest finish

variable {accept : Label → Bool}

omit [DecidableEq Label] in
theorem mem_below {reached : Nat × List (Linked Label Payload)} {id : Nat}
    {chain : List (Linked Label Payload)} :
    (id, chain) ∈ below nodes accept reached ↔
      ∃ node ∈ nodes, node.parent = reached.1 ∧ accept node.label = true ∧ node.id = id ∧
        chain = reached.2 ++ [node] := by
  simp only [below, List.mem_map, List.mem_filter, decide_eq_true_eq, Prod.mk.injEq]
  constructor
  · rintro ⟨node, ⟨inside, link, accepted⟩, same, rfl⟩
    exact ⟨node, inside, link, accepted, same, rfl⟩
  · rintro ⟨node, inside, link, accepted, same, rfl⟩
    exact ⟨node, ⟨inside, link, accepted⟩, same, rfl⟩

omit [DecidableEq Label] in
/-- The descent finds what some chain of at most the given length links to a start. -/
theorem mem_descend {levels : Nat} {reached : List (Nat × List (Linked Label Payload))} {id : Nat}
    {chain : List (Linked Label Payload)} :
    (id, chain) ∈ descend nodes accept levels reached ↔
      ∃ start ∈ reached, ∃ extra, extra ≠ [] ∧ extra.length ≤ levels ∧ chain = start.2 ++ extra ∧
        Links nodes accept start.1 extra id := by
  induction levels generalizing reached with
  | zero =>
    constructor
    · exact fun inside => absurd inside List.not_mem_nil
    · rintro ⟨_, _, extra, level, short, _⟩
      exact absurd (List.eq_nil_of_length_eq_zero (Nat.le_zero.mp short)) level
  | succ levels ih =>
    have split : (id, chain) ∈ descend nodes accept (levels + 1) reached ↔
        (id, chain) ∈ reached.flatMap (below nodes accept) ∨
          (id, chain) ∈ descend nodes accept levels (reached.flatMap (below nodes accept)) := by
      simp only [descend]
      split
      · next empty =>
          rw [List.isEmpty_iff.mp empty]
          simp only [List.not_mem_nil, false_or, false_iff]
          rw [ih]
          rintro ⟨_, inside, _⟩
          exact List.not_mem_nil inside
      · exact List.mem_append
    rw [split, ih]
    constructor
    · rintro (direct | ⟨⟨middle, passed⟩, direct, extra, _, short, rfl, links⟩)
      · obtain ⟨start, inside, next⟩ := List.mem_flatMap.mp direct
        obtain ⟨node, listed, link, accepted, same, rfl⟩ := mem_below.mp next
        exact ⟨start, inside, [node], by simp, by simp, rfl, listed, link, accepted, same⟩
      · obtain ⟨start, inside, next⟩ := List.mem_flatMap.mp direct
        obtain ⟨node, listed, link, accepted, rfl, rfl⟩ := mem_below.mp next
        exact ⟨start, inside, node :: extra, by simp, by simpa using short, by simp, listed, link,
          accepted, links⟩
    · rintro ⟨start, inside, extra, level, short, rfl, links⟩
      cases extra with
      | nil => exact absurd rfl level
      | cons node extra =>
        obtain ⟨listed, link, accepted, links⟩ := links
        have direct : (node.id, start.2 ++ [node]) ∈ reached.flatMap (below nodes accept) :=
          List.mem_flatMap.mpr ⟨start, inside, mem_below.mpr ⟨node, listed, link, accepted, rfl, rfl⟩⟩
        cases extra with
        | nil =>
          obtain rfl : node.id = id := links
          exact Or.inl direct
        | cons other extra =>
          exact Or.inr ⟨_, direct, other :: extra, by simp, by simpa using short, by simp, links⟩

omit [DecidableEq Label] in
/-- The chains of a descent are distinct when those at its start are distinct and of one length. -/
theorem descend_distinct (once : nodes.Nodup) {levels : Nat} (size : Nat)
    {reached : List (Nat × List (Linked Label Payload))}
    (even : ∀ start ∈ reached, start.2.length = size) (distinct : (reached.map Prod.snd).Nodup) :
    ((descend nodes accept levels reached).map Prod.snd).Nodup := by
  induction levels generalizing reached size with
  | zero => exact List.nodup_nil
  | succ levels ih =>
    have longer : ∀ start ∈ reached.flatMap (below nodes accept), start.2.length = size + 1 := by
      rintro ⟨id, chain⟩ inside
      obtain ⟨start, present, next⟩ := List.mem_flatMap.mp inside
      obtain ⟨node, _, _, _, _, rfl⟩ := mem_below.mp next
      simp [even start present]
    have apart : ((reached.flatMap (below nodes accept)).map Prod.snd).Nodup := by
      rw [List.map_flatMap, List.nodup_flatMap]
      constructor
      · intro start _
        rw [below, List.map_map]
        refine (once.filter _).map fun first second same => ?_
        exact List.singleton_inj.mp (List.append_cancel_left same)
      · refine List.Pairwise.imp_of_mem ?_ (List.Pairwise.of_map _ (fun _ _ different => different) distinct)
        intro first second one other different
        rw [Function.onFun, List.disjoint_left]
        intro chain under beside
        obtain ⟨⟨_, _⟩, mine, rfl⟩ := List.mem_map.mp under
        obtain ⟨⟨_, _⟩, theirs, same⟩ := List.mem_map.mp beside
        obtain ⟨node, _, _, _, _, rfl⟩ := mem_below.mp mine
        obtain ⟨twin, _, _, _, _, rfl⟩ := mem_below.mp theirs
        exact different (List.append_inj_left' same rfl).symm
    simp only [descend]
    split
    · exact List.nodup_nil
    · rw [List.map_append, List.nodup_append]
      refine ⟨apart, ih (size + 1) longer apart, ?_⟩
      rintro chain mine _ theirs rfl
      obtain ⟨⟨id, _⟩, direct, rfl⟩ := List.mem_map.mp mine
      obtain ⟨⟨other, chain⟩, deeper, same⟩ := List.mem_map.mp theirs
      obtain ⟨start, inside, extra, level, _, rfl, _⟩ := mem_descend.mp deeper
      have lengths := congrArg List.length same
      rw [longer _ direct, List.length_append, longer start inside] at lengths
      exact level (List.eq_nil_of_length_eq_zero (by omega))

omit [DecidableEq Label] in
/-- Two chains from one start with the same labels are one chain. -/
theorem Grounded.links_inj (grounded : Grounded nodes) {start one two : Nat}
    {first second : List (Linked Label Payload)} (left : Links nodes accept start first one)
    (right : Links nodes accept start second two)
    (same : first.map Linked.label = second.map Linked.label) : first = second := by
  induction first generalizing start second with
  | nil => exact (List.map_eq_nil_iff.mp same.symm).symm
  | cons node first ih =>
    cases second with
    | nil => cases same
    | cons other second =>
      obtain ⟨inside, link, _, left⟩ := left
      obtain ⟨present, twin, _, right⟩ := right
      obtain ⟨label, rest⟩ := List.cons.inj same
      obtain rfl := List.inj_on_of_nodup_map grounded.places inside present
        (Prod.ext (link.trans twin.symm) label)
      rw [ih left right rest]

/-- A chain from a located start goes along its labels. -/
theorem Grounded.locate_of_links (grounded : Grounded nodes) {path : List Label} {start finish : Nat}
    {chain : List (Linked Label Payload)} (at_start : locate nodes path = some start)
    (links : Links nodes accept start chain finish) :
    locate nodes (path ++ chain.map Linked.label) = some finish := by
  induction chain generalizing path start with
  | nil =>
    obtain rfl : start = finish := links
    simpa using at_start
  | cons node chain ih =>
    obtain ⟨inside, rfl, _, links⟩ := links
    have next : locate nodes (path ++ [node.label]) = some node.id :=
      locate_snoc_eq_some.mpr ⟨_, _, at_start, grounded.child_of_mem inside, rfl⟩
    have reached := ih next links
    rwa [List.append_assoc] at reached

/-- A located path of accepted labels from a start is the path of a chain. -/
theorem links_of_locate {path labels : List Label} {start finish : Nat} (at_start : locate nodes path = some start)
    (found : locate nodes (path ++ labels) = some finish)
    (accepted : ∀ label ∈ labels, accept label = true) :
    ∃ chain, chain.map Linked.label = labels ∧ Links nodes accept start chain finish := by
  induction labels generalizing path start with
  | nil =>
    rw [List.append_nil, at_start] at found
    exact ⟨[], rfl, Option.some.inj found⟩
  | cons label labels ih =>
    rw [List.append_cons] at found
    obtain ⟨middle, next⟩ := exists_of_locate_append found
    obtain ⟨parent, node, up, placed, rfl⟩ := locate_snoc_eq_some.mp next
    obtain ⟨inside, rfl, rfl⟩ := child_eq_some placed
    obtain ⟨chain, rfl, links⟩ := ih next found fun other listed =>
      accepted other (List.mem_cons_of_mem _ listed)
    exact ⟨node :: chain, rfl, inside, Option.some.inj (up.symm.trans at_start),
      accepted _ List.mem_cons_self, links⟩

omit [DecidableEq Label] in
/-- A chain with nodes finishes at its last one. -/
theorem links_last {start finish : Nat} {chain : List (Linked Label Payload)} {last : Linked Label Payload}
    (links : Links nodes accept start chain finish) (ends : chain.getLast? = some last) :
    last ∈ nodes ∧ last.id = finish := by
  induction chain generalizing start with
  | nil => cases ends
  | cons node chain ih =>
    obtain ⟨inside, _, _, links⟩ := links
    cases chain with
    | nil =>
      obtain rfl := Option.some.inj ends
      exact ⟨inside, links⟩
    | cons other chain => exact ih links (by rwa [List.getLast?_cons_cons] at ends)

omit [DecidableEq Label] in
theorem links_accepted {start finish : Nat} {chain : List (Linked Label Payload)}
    (links : Links nodes accept start chain finish) : ∀ node ∈ chain, accept node.label = true := by
  induction chain generalizing start with
  | nil => exact fun _ inside => absurd inside List.not_mem_nil
  | cons node chain ih =>
    obtain ⟨_, _, accepted, links⟩ := links
    intro other inside
    rcases List.mem_cons.mp inside with rfl | further
    · exact accepted
    · exact ih links other further

omit [DecidableEq Label] in
theorem Grounded.nodup (grounded : Grounded nodes) : nodes.Nodup :=
  grounded.ids.of_map _

omit [DecidableEq Label] in
/-- The identifiers along a chain ascend from its start. -/
theorem Grounded.links_ascend (grounded : Grounded nodes) {start finish : Nat}
    {chain : List (Linked Label Payload)} (links : Links nodes accept start chain finish) :
    (∀ node ∈ chain, node ∈ nodes ∧ start < node.id) ∧ chain.Nodup := by
  induction chain generalizing start with
  | nil => exact ⟨fun _ inside => absurd inside List.not_mem_nil, List.nodup_nil⟩
  | cons node chain ih =>
    obtain ⟨inside, rfl, _, links⟩ := links
    obtain ⟨later, distinct⟩ := ih links
    have lower := (grounded.rooted node inside).1
    refine ⟨?_, List.nodup_cons.mpr ⟨fun again => Nat.lt_irrefl _ (later node again).2, distinct⟩⟩
    intro other listed
    rcases List.mem_cons.mp listed with rfl | further
    · exact ⟨inside, lower⟩
    · exact ⟨(later other further).1, lower.trans (later other further).2⟩

omit [DecidableEq Label] in
/-- A chain has at most as many nodes as the forest. -/
theorem Grounded.links_length (grounded : Grounded nodes) {start finish : Nat}
    {chain : List (Linked Label Payload)} (links : Links nodes accept start chain finish) :
    chain.length ≤ nodes.length := by
  obtain ⟨later, distinct⟩ := grounded.links_ascend links
  exact (List.subperm_of_subset distinct fun node inside => (later node inside).1).length_le

end Descent

end Lookup

end Linked

end Liasse.Codes

/-
This file models the logical position of an engine in its history: the lineages it descends through, the selected point
and the allocator of positions.
-/

import Mathlib

namespace Liasse.History

section Points

/-- A history point is a position in a lineage. Both have textual identifiers. -/
structure HistoryPoint where
  lineage : String
  point : String
deriving DecidableEq

/-- The first retained position of an instance. -/
def genesisPoint : Nat :=
  1

/-- The position after a position is a 64-bit sum. -/
def bump (position : Nat) : Nat :=
  (position + 1) % 2 ^ 64

/-- The position that a point identifier encodes. A foreign identifier encodes none. -/
def position (point : String) : Option Nat :=
  let digits := match point.toList with
    | '+' :: rest => rest
    | digits => digits
  if digits ≠ [] ∧ digits.all Char.isDigit then
    let number := Nat.ofDigitChars 10 digits 0
    if number < 2 ^ 64 then some number else none
  else none

/-- The genesis lineage of an instance. -/
def genesisLineage (inst : String) : String :=
  inst ++ "#L0"

/-- The lineage of a continuation after a rollback. -/
def branchLineage (prior : String) (seat : Nat) : String :=
  prior ++ "#b" ++ seat.repr

/-- The lineage of a reconciliation. -/
def reconciledLineage (prior : String) (seat : Nat) : String :=
  prior ++ "#m" ++ seat.repr

end Points

section Cursor

/-- A lineage with the position of its parent lineage that it branched from. -/
structure Link where
  lineage : String
  origin : Option Nat
deriving DecidableEq

/-- The position of an engine. The ancestors are root-first, and the active lineage descends from the
last of them. -/
structure HistoryCursor where
  ancestors : List Link
  active : Link
  point : Nat
  next : Nat
  branchPending : Bool
deriving DecidableEq

/-- The relation of an incoming point to the retained history. -/
inductive ImportRelation
  | samePoint
  | fastForward
  | rollback
  | merge
  | unrelated
deriving DecidableEq

/-- A lineage of the exported index with its origin and its head. -/
structure LineageEntry where
  lineage : String
  origin : Option (String × Nat)
  head : Nat

/-- The entry of a link below a parent lineage. -/
def LineageEntry.new (link : Link) (parent : Option String) (head : Nat) : LineageEntry where
  lineage := link.lineage
  origin :=
    match link.origin, parent with
    | some origin, some parent => some (parent, origin)
    | _, _ => none
  head := head

/-- The exported index has the selected point and, by lineage, the origin and the head. An origin is
the genesis or a point of the parent lineage. -/
structure HistoryIndex where
  selected : HistoryPoint
  lineages : Std.ExtTreeMap String (Option (String × String) × String) compare

/-- The index of a selected point and the retained lineages. -/
def historyIndex (selected : HistoryPoint) (lineages : List LineageEntry) : HistoryIndex where
  selected := selected
  lineages := .ofList (lineages.map fun entry =>
    (entry.lineage, entry.origin.map fun origin => (origin.1, origin.2.repr), entry.head.repr)) compare

namespace HistoryIndex

/-- The branch origin that the index records for a lineage. A malformed origin is absent. -/
def branchOrigin (index : HistoryIndex) (lineage : String) : Option (String × Nat) :=
  match index.lineages[lineage]? with
  | some (some (parent, point), _) => (position point).map fun position => (parent, position)
  | _ => none

/-- The walk from a lineage to its root adds the deepest link first. Its bound is the count of the
recorded lineages. -/
def walk (index : HistoryIndex) : Nat → String → List Link → List Link
  | 0, _, chain => chain
  | fuel + 1, current, chain =>
    match index.branchOrigin current with
    | some (parent, position) => index.walk fuel parent (⟨current, some position⟩ :: chain)
    | none => ⟨current, none⟩ :: chain

/-- The ancestry of a lineage, root-first with the lineage last. -/
def restoredChain (index : HistoryIndex) (selected : String) : List Link :=
  index.walk (index.lineages.size + 1) selected []

end HistoryIndex

namespace HistoryCursor

/-- The cursor of a new instance. -/
def genesis (inst : String) : HistoryCursor where
  ancestors := []
  active := ⟨genesisLineage inst, none⟩
  point := genesisPoint
  next := bump genesisPoint
  branchPending := false

/-- The cursor that a restore adopts from the selected point and the index of an artifact. -/
def restored (selected : HistoryPoint) (index : HistoryIndex) : HistoryCursor where
  ancestors := (index.restoredChain selected.lineage).dropLast
  active := (index.restoredChain selected.lineage).getLast?.getD ⟨selected.lineage, none⟩
  point := (position selected.point).getD genesisPoint
  next := bump ((position selected.point).getD genesisPoint)
  branchPending := false

/-- The current selected point. -/
def historyPoint (cursor : HistoryCursor) : HistoryPoint :=
  ⟨cursor.active.lineage, cursor.point.repr⟩

/-- The continuation on a new lineage from the current point. -/
def branch (cursor : HistoryCursor) (lineage : String) : HistoryCursor :=
  { cursor with
    ancestors := cursor.ancestors ++ [cursor.active]
    active := ⟨lineage, some cursor.point⟩
    branchPending := false }

/-- The fresh point takes the position of the allocator. -/
def allocate (cursor : HistoryCursor) : HistoryCursor :=
  { cursor with point := cursor.next, next := bump cursor.next }

/-- The fresh point of a state-changing commit. A pending branch starts a new lineage first. -/
def advance (cursor : HistoryCursor) : HistoryCursor :=
  if cursor.branchPending then
    (cursor.branch (branchLineage cursor.active.lineage cursor.next)).allocate
  else cursor.allocate

/-- The fresh point of a reconciliation is on a new lineage. -/
def beginReconciled (cursor : HistoryCursor) : HistoryCursor :=
  (cursor.branch (reconciledLineage cursor.active.lineage cursor.next)).allocate

/-- The move to a later point of the active lineage. -/
def applyFastForward (cursor : HistoryCursor) (incoming : HistoryPoint) : HistoryCursor :=
  match position incoming.point with
  | some position =>
    { cursor with
      point := position
      next := max cursor.next (bump position)
      branchPending := false }
  | none => cursor

/-- The descent to an ancestor lineage drops the lineages below it. -/
def descend (cursor : HistoryCursor) (target : String) : HistoryCursor :=
  if target = cursor.active.lineage then cursor
  else
    match cursor.ancestors.findIdx? fun link => link.lineage = target with
    | some index =>
      match cursor.ancestors[index]? with
      | some link => { cursor with ancestors := cursor.ancestors.take index, active := link }
      | none => cursor
    | none => cursor

/-- The selection of an earlier point leaves a displaced continuation. -/
def applyRollback (cursor : HistoryCursor) (incoming : HistoryPoint) : HistoryCursor :=
  match position incoming.point with
  | some position =>
    { cursor.descend incoming.lineage with point := position, branchPending := true }
  | none => cursor

/-- The position of an ancestor lineage that the history left it at. -/
def branchAt (cursor : HistoryCursor) (index : Nat) : Nat :=
  (match cursor.ancestors[index + 1]? with
    | some next => next.origin
    | none => cursor.active.origin).getD cursor.point

/-- An incoming point is compared with the retained history by its lineage. -/
def classify (cursor : HistoryCursor) (incoming : HistoryPoint) : ImportRelation :=
  match position incoming.point with
  | none => .unrelated
  | some point =>
    if incoming.lineage = cursor.active.lineage then
      match compare point cursor.point with
      | .eq => .samePoint
      | .lt => .rollback
      | .gt => .fastForward
    else
      match cursor.ancestors.findIdx? fun link => link.lineage = incoming.lineage with
      | some index => if point ≤ cursor.branchAt index then .rollback else .merge
      | none => .unrelated

/-- The retained lineages below a parent. The head of an ancestor is the origin of the next lineage. -/
def lineagesBelow (cursor : HistoryCursor) : Option String → List Link → List LineageEntry
  | parent, [] => [.new cursor.active parent cursor.point]
  | parent, link :: rest =>
    let next := match rest with
      | next :: _ => next
      | [] => cursor.active
    .new link parent (next.origin.getD cursor.point) ::
      cursor.lineagesBelow (some link.lineage) rest

/-- The retained lineages, root-first. -/
def lineages (cursor : HistoryCursor) : List LineageEntry :=
  cursor.lineagesBelow none cursor.ancestors

/-- The index that an export of the cursor writes. -/
def index (cursor : HistoryCursor) : HistoryIndex :=
  historyIndex cursor.historyPoint cursor.lineages

end HistoryCursor

end Cursor

section Names

theorem position_repr {number : Nat} (bounded : number < 2 ^ 64) : position number.repr = some number := by
  have digits : ∀ digit ∈ Nat.toDigits 10 number, digit.isDigit := fun digit inside =>
    Nat.isDigit_of_mem_toDigits (by decide) (by decide) inside
  have unsigned : ∀ rest, Nat.toDigits 10 number ≠ '+' :: rest := by
    intro rest same
    have sign := digits '+' (by simp [same])
    exact absurd sign (by decide)
  unfold position
  rw [Nat.toList_repr]
  split
  next rest same => exact absurd same (unsigned rest)
  next =>
    have every : (Nat.toDigits 10 number).all Char.isDigit = true := List.all_eq_true.mpr digits
    simpa [Nat.toDigits_ne_nil, every, Nat.ofDigitChars_ten_toDigits] using bounded

/-- The text after the last mark of a list is determined when it has no mark. -/
theorem marked_inj {A : Type} {mark : A} {first second rest other : List A} (clean : mark ∉ rest)
    (alsoClean : mark ∉ other) (same : first ++ mark :: rest = second ++ mark :: other) :
    first = second ∧ rest = other := by
  rcases List.append_eq_append_iff.mp same with ⟨middle, rfl, tail⟩ | ⟨middle, rfl, tail⟩
  · cases middle with
    | nil => simpa using tail
    | cons head middle =>
      obtain ⟨rfl, rfl⟩ := List.cons_eq_cons.mp tail
      exact absurd (by simp) clean
  · cases middle with
    | nil => simpa [eq_comm] using tail
    | cons head middle =>
      obtain ⟨rfl, rfl⟩ := List.cons_eq_cons.mp tail
      exact absurd (by simp) alsoClean

theorem mark_notMem_repr (seat : Nat) : '#' ∉ seat.repr.toList := by
  rw [Nat.toList_repr]
  intro inside
  have digit := Nat.isDigit_of_mem_toDigits (by decide) (by decide) inside
  exact absurd digit (by decide)

/-- A lineage name keeps its prefix apart from its last component. -/
theorem component_inj {first second : String} {letter other : Char} {rest others : List Char}
    (clean : '#' ∉ letter :: rest) (alsoClean : '#' ∉ other :: others)
    (same : first.toList ++ '#' :: letter :: rest = second.toList ++ '#' :: other :: others) :
    first = second ∧ letter = other ∧ rest = others := by
  obtain ⟨prefixes, components⟩ := marked_inj clean alsoClean same
  exact ⟨String.toList_inj.mp prefixes, List.cons_eq_cons.mp components⟩

/-- The two kinds of lineage that a cursor derives. -/
inductive Derivation
  | branch
  | reconcile
deriving DecidableEq

/-- The letter of a derivation. -/
def Derivation.letter : Derivation → Char
  | .branch => 'b'
  | .reconcile => 'm'

/-- The lineage that a derivation names. -/
def Derivation.lineage : Derivation → String → Nat → String
  | .branch => branchLineage
  | .reconcile => reconciledLineage

namespace Derivation

theorem toList_lineage (derivation : Derivation) (prior : String) (seat : Nat) :
    (derivation.lineage prior seat).toList =
      prior.toList ++ '#' :: derivation.letter :: seat.repr.toList := by
  cases derivation <;>
    simp [lineage, branchLineage, reconciledLineage, letter]

theorem clean (derivation : Derivation) (seat : Nat) :
    '#' ∉ derivation.letter :: seat.repr.toList := by
  have digits := mark_notMem_repr seat
  rw [List.mem_cons, not_or]
  cases derivation <;> exact ⟨by decide, digits⟩

/-- A derived lineage determines its derivation, its prior lineage and its seat. -/
theorem lineage_inj {first second : Derivation} {prior other : String} {seat late : Nat}
    (same : first.lineage prior seat = second.lineage other late) :
    first = second ∧ prior = other ∧ seat = late := by
  have lists := congrArg String.toList same
  rw [toList_lineage, toList_lineage] at lists
  obtain ⟨priors, letters, digits⟩ := component_inj (first.clean seat) (second.clean late) lists
  refine ⟨?_, priors, Nat.repr_injective (String.toList_inj.mp digits)⟩
  cases first <;> cases second <;> first | rfl | exact absurd letters (by decide)

theorem lineage_ne_genesis (derivation : Derivation) (prior inst : String) (seat : Nat) :
    derivation.lineage prior seat ≠ genesisLineage inst := by
  intro same
  have lists := congrArg String.toList same
  rw [toList_lineage] at lists
  have genesis : (genesisLineage inst).toList = inst.toList ++ '#' :: 'L' :: ['0'] := by
    simp [genesisLineage]
  rw [genesis] at lists
  obtain ⟨-, letters, -⟩ := component_inj (derivation.clean seat) (by decide) lists
  cases derivation <;> exact absurd letters (by decide)

theorem length_lt (derivation : Derivation) (prior : String) (seat : Nat) :
    prior.length < (derivation.lineage prior seat).length := by
  have lists := congrArg List.length (derivation.toList_lineage prior seat)
  simp only [String.length_toList, List.length_append, List.length_cons] at lists
  omega

end Derivation

end Names

section Ancestry

/-- The ancestors of a lineage and the seat of the allocator when its name was derived. The genesis
lineage has no ancestor. -/
inductive Ancestry (inst : String) : List Link → Link → Nat → Prop
  | root : Ancestry inst [] ⟨genesisLineage inst, none⟩ 0
  | descend {ancestors : List Link} {parent : Link} {seat : Nat} (derivation : Derivation)
      {origin next : Nat} (ancestry : Ancestry inst ancestors parent seat)
      (after : seat ≤ origin) (before : origin < next) :
      Ancestry inst (ancestors ++ [parent]) ⟨derivation.lineage parent.lineage next, some origin⟩ next

namespace Ancestry

variable {inst : String} {ancestors : List Link} {link : Link} {seat : Nat}

/-- The name of a lineage determines its seat. -/
theorem seat_unique {others : List Link} {other : Link} {late : Nat}
    (first : Ancestry inst ancestors link seat) (second : Ancestry inst others other late)
    (same : link.lineage = other.lineage) : seat = late := by
  cases first with
  | root =>
    cases second with
    | root => rfl
    | descend derivation _ _ _ => exact absurd same.symm (derivation.lineage_ne_genesis _ _ _)
  | descend derivation _ _ _ =>
    cases second with
    | root => exact absurd same (derivation.lineage_ne_genesis _ _ _)
    | descend _ _ _ _ => exact (Derivation.lineage_inj same).2.2

theorem length_lt (ancestry : Ancestry inst ancestors link seat) :
    ∀ ancestor ∈ ancestors, ancestor.lineage.length < link.lineage.length := by
  induction ancestry with
  | root => simp
  | @descend ancestors parent _ derivation _ next _ _ _ earlier =>
    intro ancestor inside
    have shorter := derivation.length_lt parent.lineage next
    rcases List.mem_append.mp inside with inside | inside
    · exact (earlier ancestor inside).trans shorter
    · rw [List.mem_singleton] at inside
      rwa [inside]

/-- The lineages of an ancestry have different names. -/
theorem distinct (ancestry : Ancestry inst ancestors link seat) :
    (ancestors ++ [link]).Pairwise fun first second => first.lineage ≠ second.lineage := by
  induction ancestry with
  | root => simp
  | descend derivation ancestry after before earlier =>
    rw [List.pairwise_append]
    refine ⟨earlier, List.pairwise_singleton _ _, ?_⟩
    intro first inside second last same
    rw [List.mem_singleton] at last
    have shorter := (ancestry.descend derivation after before).length_lt first inside
    rw [last] at same
    rw [same] at shorter
    exact lt_irrefl _ shorter

/-- An ancestor has the ancestors before it, and its seat is not later. A later lineage that follows
it directly has an origin between the two seats. -/
theorem ancestor (ancestry : Ancestry inst ancestors link seat) {index : Nat} {target : Link}
    (found : ancestors[index]? = some target) :
    ∃ early, Ancestry inst (ancestors.take index) target early ∧ early ≤ seat := by
  induction ancestry with
  | root => simp at found
  | @descend ancestors parent seat _ _ _ ancestry after before earlier =>
    rcases Nat.lt_trichotomy index ancestors.length with inside | last | beyond
    · rw [List.getElem?_append_left inside] at found
      obtain ⟨early, shown, bound⟩ := earlier found
      exact ⟨early, by rwa [List.take_append_of_le_length inside.le], by omega⟩
    · subst last
      simp only [List.getElem?_concat_length, Option.some.injEq] at found
      subst found
      exact ⟨seat, by simpa using ancestry, by omega⟩
    · have none : (ancestors ++ [parent])[index]? = none := by
        simp only [List.getElem?_eq_none_iff, List.length_append, List.length_singleton]
        omega
      rw [none] at found
      cases found

/-- Each lineage after the root has an origin before the last seat. -/
theorem branch_lt (ancestry : Ancestry inst ancestors link seat) {index : Nat}
    (inside : index < ancestors.length) :
    ∃ origin, (match ancestors[index + 1]? with
      | some next => next.origin
      | none => link.origin) = some origin ∧ origin < seat := by
  induction ancestry with
  | root => simp at inside
  | @descend ancestors parent seat derivation origin next ancestry after before earlier =>
    rw [List.length_append, List.length_singleton] at inside
    rcases Nat.lt_trichotomy (index + 1) ancestors.length with nested | last | beyond
    · obtain ⟨origin, known, bound⟩ := earlier (by omega)
      rw [List.getElem?_append_left nested]
      rw [List.getElem?_eq_getElem nested] at known ⊢
      exact ⟨origin, known, by omega⟩
    · obtain ⟨origin, known, bound⟩ := earlier (by omega)
      rw [List.getElem?_eq_none_iff.mpr (by omega)] at known
      rw [last, List.getElem?_concat_length]
      exact ⟨origin, known, by omega⟩
    · have absent : (ancestors ++ [parent])[index + 1]? = none := by
        simp only [List.getElem?_eq_none_iff, List.length_append, List.length_singleton]
        omega
      rw [absent]
      exact ⟨origin, rfl, before⟩

end Ancestry

end Ancestry

section Index

/-- The lineages of a chain with their origins below a parent. -/
def origins : Option String → List Link → List (String × Option (String × Nat))
  | _, [] => []
  | parent, link :: rest =>
    (link.lineage, (LineageEntry.new link parent 0).origin) :: origins (some link.lineage) rest

@[simp] theorem origins_names (parent : Option String) (links : List Link) :
    (origins parent links).map Prod.fst = links.map Link.lineage := by
  induction links generalizing parent with
  | nil => rfl
  | cons link rest earlier => simp [origins, earlier]

/-- The last lineage of a chain has the origin on the lineage before it. -/
theorem origins_snoc (parent : Option String) (links : List Link) (link : Link) :
    origins parent (links ++ [link]) = origins parent links ++
      [(link.lineage, (LineageEntry.new link ((links.getLast?.map Link.lineage).or parent) 0).origin)] := by
  induction links generalizing parent with
  | nil => simp [origins]
  | cons head rest earlier =>
    rw [List.cons_append, origins, earlier, origins, List.cons_append, List.getLast?_cons]
    cases rest.getLast? <;> rfl

theorem lineagesBelow_origins (cursor : HistoryCursor) (parent : Option String) (links : List Link) :
    (cursor.lineagesBelow parent links).map (fun entry => (entry.lineage, entry.origin)) =
      origins parent (links ++ [cursor.active]) := by
  induction links generalizing parent with
  | nil => rfl
  | cons link rest earlier =>
    rw [List.cons_append, origins, ← earlier]
    cases rest <;> rfl

variable {inst : String} {cursor : HistoryCursor} {seat : Nat}

theorem lineages_names (cursor : HistoryCursor) :
    (cursor.lineages.map fun entry => entry.lineage) =
      (cursor.ancestors ++ [cursor.active]).map Link.lineage := by
  have same := congrArg (List.map Prod.fst) (lineagesBelow_origins cursor none cursor.ancestors)
  rwa [origins_names, List.map_map] at same

/-- The entries of the index have different keys. -/
theorem index_distinct (ancestry : Ancestry inst cursor.ancestors cursor.active seat) :
    (cursor.lineages.map fun entry =>
      (entry.lineage, entry.origin.map (fun origin => (origin.1, origin.2.repr)), entry.head.repr)).Pairwise
      fun first second => ¬ compare first.1 second.1 = .eq := by
  have distinct := List.pairwise_map.mpr ancestry.distinct
  rw [← lineages_names, List.pairwise_map] at distinct
  rw [List.pairwise_map]
  refine distinct.imp ?_
  intro first second different equal
  exact different (Std.LawfulEqCmp.eq_of_compare equal)

/-- The index has each lineage of the cursor with its origin. -/
theorem recorded (ancestry : Ancestry inst cursor.ancestors cursor.active seat) {lineage : String}
    {origin : Option (String × Nat)}
    (inside : (lineage, origin) ∈ origins none (cursor.ancestors ++ [cursor.active])) :
    ∃ head, cursor.index.lineages[lineage]? =
      some (origin.map fun origin => (origin.1, origin.2.repr), head) := by
  rw [← lineagesBelow_origins] at inside
  obtain ⟨entry, listed, shown⟩ := List.mem_map.mp inside
  cases shown
  exact ⟨entry.head.repr, Std.ExtTreeMap.getElem?_ofList_of_mem Std.ReflCmp.compare_self
    (index_distinct ancestry) (List.mem_map.mpr ⟨entry, listed, rfl⟩)⟩

theorem size_index (ancestry : Ancestry inst cursor.ancestors cursor.active seat) :
    cursor.index.lineages.size = cursor.ancestors.length + 1 := by
  have lengths := congrArg List.length (lineages_names cursor)
  simp only [List.length_map, List.length_append, List.length_singleton] at lengths
  rw [HistoryCursor.index, historyIndex, Std.ExtTreeMap.size_ofList (index_distinct ancestry),
    List.length_map]
  exact lengths

/-- The walk from a recorded lineage finds its ancestors. -/
theorem walk_eq {index : HistoryIndex} {ancestors : List Link} {link : Link}
    (ancestry : Ancestry inst ancestors link seat) (bounded : seat < 2 ^ 64)
    (known : ∀ lineage origin, (lineage, origin) ∈ origins none (ancestors ++ [link]) →
      ∃ head, index.lineages[lineage]? =
        some (origin.map fun origin => (origin.1, origin.2.repr), head))
    {fuel : Nat} (enough : ancestors.length < fuel) (chain : List Link) :
    index.walk fuel link.lineage chain = ancestors ++ link :: chain := by
  induction ancestry generalizing fuel chain with
  | root =>
    cases fuel with
    | zero => simp at enough
    | succ fuel =>
      obtain ⟨head, found⟩ := known _ _ (List.mem_singleton_self _)
      have root : index.branchOrigin (genesisLineage inst) = none := by
        rw [HistoryIndex.branchOrigin, found]
        rfl
      rw [HistoryIndex.walk, root]
      rfl
  | @descend ancestors parent seat derivation origin next ancestry after before earlier =>
    rw [List.length_append, List.length_singleton] at enough
    cases fuel with
    | zero => simp at enough
    | succ fuel =>
      rw [origins_snoc] at known
      obtain ⟨head, found⟩ := known _ _ (List.mem_append_right _ (List.mem_singleton_self _))
      rw [List.getLast?_concat] at found
      have branched : index.branchOrigin (derivation.lineage parent.lineage next) =
          some (parent.lineage, origin) := by
        rw [HistoryIndex.branchOrigin, found]
        simp only [LineageEntry.new, Option.map_some, Option.some_or]
        rw [position_repr (by omega)]
        rfl
      rw [HistoryIndex.walk, branched]
      simp only
      rw [earlier (by omega) (fun lineage origin inside =>
        known lineage origin (List.mem_append_left _ inside)) (by omega)]
      simp

end Index

namespace HistoryCursor

/-- The point of a lawful cursor is not before the seat of its lineage, and it is before the next
position of its allocator. -/
structure Lawful (inst : String) (cursor : HistoryCursor) : Prop where
  ancestry : ∃ seat, Ancestry inst cursor.ancestors cursor.active seat ∧ seat ≤ cursor.point
  started : genesisPoint ≤ cursor.point
  below : cursor.point < cursor.next
  bounded : cursor.next < 2 ^ 64

variable {inst : String} {cursor : HistoryCursor}

theorem bump_eq {position : Nat} (bounded : position + 1 < 2 ^ 64) : bump position = position + 1 :=
  Nat.mod_eq_of_lt bounded

theorem Lawful.position (lawful : cursor.Lawful inst) :
    History.position cursor.historyPoint.point = some cursor.point :=
  position_repr (lawful.below.trans lawful.bounded)

theorem Lawful.restoredChain (lawful : cursor.Lawful inst) :
    cursor.index.restoredChain cursor.active.lineage = cursor.ancestors ++ [cursor.active] := by
  obtain ⟨seat, ancestry, within⟩ := lawful.ancestry
  have below := lawful.below
  have bounded := lawful.bounded
  rw [HistoryIndex.restoredChain, size_index ancestry]
  exact walk_eq ancestry (by omega) (fun _ _ => recorded ancestry) (by omega) []

/-- A restore keeps the ancestry and the selected point. It drops the pending branch, and its
allocator continues directly after the point. -/
theorem Lawful.restored (lawful : cursor.Lawful inst) :
    restored cursor.historyPoint cursor.index =
      { cursor with next := bump cursor.point, branchPending := false } := by
  rw [HistoryCursor.restored, lawful.position]
  simp only [historyPoint, Option.getD_some]
  rw [lawful.restoredChain]
  simp

/-- A restore continues as the exporting cursor when that cursor has no pending branch and its
allocator is directly after its point. -/
theorem Lawful.restored_eq_iff (lawful : cursor.Lawful inst) :
    HistoryCursor.restored cursor.historyPoint cursor.index = cursor ↔
      cursor.branchPending = false ∧ cursor.next = bump cursor.point := by
  rw [lawful.restored]
  constructor
  · intro same
    exact ⟨by rw [← same], by rw [← same]⟩
  · rintro ⟨settled, adjacent⟩
    rw [← settled, ← adjacent]

end HistoryCursor

end Liasse.History

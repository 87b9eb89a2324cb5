/-
This file proves that the descent below an address answers as the reference store does.
-/

import Liasse.Pg.Reading

namespace Liasse.Pg
open Codes Store Linked

variable {Wire : Type} {codec : ValueCodec Wire}

/-- The address some levels below a root. -/
def extend (root : RowAddress) (levels : List AddressStep) : RowAddress :=
  ⟨root.first, root.rest ++ levels⟩

@[simp] theorem steps_extend (root : RowAddress) (levels : List AddressStep) :
    (extend root levels).steps = root.steps ++ levels :=
  rfl

theorem extend_child (root : RowAddress) (step : AddressStep) (levels : List AddressStep) :
    extend (root.child step) levels = extend root (step :: levels) := by
  rw [extend, extend, RowAddress.child, List.append_assoc]
  rfl

theorem path_extend (root : RowAddress) (levels : List AddressStep) :
    path (extend root levels) = path root ++ levels.map slot := by
  rw [path, steps_extend, List.map_append, path]

/-- An address descends from a root through some levels of the given names. -/
theorem descendsFrom_iff {address root : RowAddress} {names : List String} :
    address.descendsFrom root names = true ↔
      ∃ levels, levels ≠ [] ∧ (∀ level ∈ levels, level.name ∈ names) ∧ address = extend root levels := by
  rw [RowAddress.descendsFrom, RowAddress.depth_eq, RowAddress.depth_eq]
  constructor
  · intro descends
    split at descends
    · cases descends
    · next deeper =>
        obtain ⟨isPrefix, named⟩ := Bool.and_eq_true_iff.mp descends
        obtain ⟨levels, whole⟩ := List.isPrefixOf_iff_prefix.mp isPrefix
        rw [← whole, List.drop_left] at named
        refine ⟨levels, ?_, ?_, RowAddress.steps_inj.mp whole.symm⟩
        · rintro rfl
          rw [← whole, List.append_nil] at deeper
          exact deeper le_rfl
        · simpa using named
  · rintro ⟨levels, nonempty, named, rfl⟩
    have deeper : ¬(extend root levels).steps.length ≤ root.steps.length := by
      have positive := List.length_pos_iff.mpr nonempty
      rw [steps_extend, List.length_append]
      omega
    rw [if_neg deeper, steps_extend, List.drop_left]
    simpa using named

section Levels

theorem labels_of_levels {chain : List (Node Wire)} {levels : List AddressStep}
    (leveled : List.Forall₂ (Level codec) chain levels) :
    chain.map Linked.label = levels.map slot ∧ LegalSteps levels := by
  induction leveled with
  | nil => exact ⟨rfl, fun _ inside => absurd inside List.not_mem_nil⟩
  | cons level _ ih =>
    refine ⟨congrArg₂ _ level.slot ih.1, fun step inside => ?_⟩
    rcases List.mem_cons.mp inside with rfl | further
    · exact level.legal
    · exact ih.2 step further

theorem Represents.levels_of_chain {table : NodeTable Wire} {rows : RowAddress → Option StoredRow}
    (represents : Represents codec table rows) {chain : List (Node Wire)}
    (inside : ∀ node ∈ chain, node ∈ table.nodes) : ∃ levels, List.Forall₂ (Level codec) chain levels := by
  induction chain with
  | nil => exact ⟨[], .nil⟩
  | cons node chain ih =>
    obtain ⟨step, level⟩ := represents.leveled node (inside node List.mem_cons_self)
    obtain ⟨levels, others⟩ := ih fun other listed =>
      inside other (List.mem_cons_of_mem _ listed)
    exact ⟨step :: levels, .cons level others⟩

/-- The address is rebuilt when its names mean themselves. -/
theorem rebuildAddress_ok {chain : List (Node Wire)} {levels : List AddressStep}
    (leveled : List.Forall₂ (Level codec) chain levels) (root : RowAddress)
    (plain : ∀ level ∈ levels, unescape level.name = level.name) :
    rebuildAddress codec root chain = .ok (extend root levels) := by
  induction leveled generalizing root with
  | nil => rw [extend, List.append_nil]; rfl
  | @cons node step chain levels level _ ih =>
    have named : unescape node.label.stepName = step.name := by
      rw [level.slot]
      exact plain step List.mem_cons_self
    have rest := ih (root.child step) fun other inside =>
      plain other (List.mem_cons_of_mem _ inside)
    rw [extend_child] at rest
    rw [rebuildAddress, List.foldlM_cons, level.wire, level.decoded, named]
    exact rest

end Levels

section Descent

theorem liveOf_eq_some {reached : Nat × List (Node Wire)} {found : List (Node Wire) × Columns Wire} :
    liveOf reached = some found ↔
      ∃ last, reached.2.getLast? = some last ∧ last.payload.live = true ∧ found = (reached.2, last.payload) := by
  simp only [liveOf, Option.map_eq_some_iff, Option.filter_eq_some_iff]
  constructor
  · rintro ⟨last, ⟨ends, live⟩, rfl⟩
    exact ⟨last, ends, live, rfl⟩
  · rintro ⟨last, ends, live, rfl⟩
    exact ⟨last, ⟨ends, live⟩, rfl⟩

variable {table : NodeTable Wire} {current : RowMap RowAddress}

/-- The descent from a located root goes along the chains of accepted nodes below it. -/
theorem mem_subtree {root : RowAddress} {start : Node Wire} (found : table.pointLookup root = some start)
    {names : List String} {id : Nat} {chain : List (Node Wire)} :
    (id, chain) ∈ subtree table root names ↔ chain ≠ [] ∧ chain.length ≤ maxSubtreeDepth ∧
      Links table.nodes (fun place => place.stepName ∈ names) start.id chain id := by
  rw [subtree, found, mem_descend]
  constructor
  · rintro ⟨reached, own, extra, nonempty, short, rfl, links⟩
    obtain rfl := List.mem_singleton.mp own
    exact ⟨nonempty, short, links⟩
  · rintro ⟨nonempty, short, links⟩
    exact ⟨(start.id, []), List.mem_singleton_self _, chain, nonempty, short, rfl, links⟩

/-- A live node of the descent is read as the row at the address along its chain. -/
theorem Represents.subtreeRow (represents : Represents codec table (lookup current)) {root : RowAddress}
    (legal : LegalSteps root.steps) {start : Node Wire} (found : table.pointLookup root = some start)
    {names : List String} {picked : List (Node Wire) × Columns Wire}
    (picks : picked ∈ (subtree table root names).filterMap liveOf) :
    ∃ levels row, levels ≠ [] ∧ (∀ level ∈ levels, level.name ∈ names) ∧ LegalSteps levels ∧
      picked.1.map Linked.label = levels.map slot ∧ lookup current (extend root levels) = some row ∧
      subtreeRow codec root picked = .ok (extend root levels, row) := by
  obtain ⟨⟨id, chain⟩, inside, live⟩ := List.mem_filterMap.mp picks
  obtain ⟨nonempty, _, links⟩ := (mem_subtree found).mp inside
  obtain ⟨last, ends, alive, rfl⟩ := liveOf_eq_some.mp live
  obtain ⟨listed, rfl⟩ := links_last links ends
  obtain ⟨levels, leveled⟩ := represents.levels_of_chain fun node present =>
    ((represents.grounded.links_ascend links).1 node present).1
  obtain ⟨labels, levelsLegal⟩ := labels_of_levels leveled
  have whole : LegalSteps (extend root levels).steps := by
    rw [steps_extend]
    intro step present
    rcases List.mem_append.mp present with above | below
    · exact legal step above
    · exact levelsLegal step below
  -- The chain ends at the node of the extended address.
  have located : locate table.nodes (path (extend root levels)) = some last.id := by
    rw [path_extend, ← labels]
    exact represents.grounded.locate_of_links (by rw [locate_path, found]; rfl) links
  rw [locate_path] at located
  obtain ⟨node, looked, same⟩ := Option.map_eq_some_iff.mp located
  obtain rfl := represents.grounded.eq_of_id (represents.lookup_iff.mp looked).1 listed same
  obtain ⟨row, stored, columns⟩ := represents.row_of_node whole looked alive
  have storable := represents.stored _ row stored
  have even := leveled.length_eq
  refine ⟨levels, row, ?_, ?_, levelsLegal, labels, stored, ?_⟩
  · rintro rfl
    exact nonempty (List.eq_nil_of_length_eq_zero even)
  · intro level present
    have slots : slot level ∈ chain.map Linked.label := labels ▸ List.mem_map_of_mem present
    obtain ⟨node, member, label⟩ := List.mem_map.mp slots
    have accepted := of_decide_eq_true (links_accepted links node member)
    rwa [label] at accepted
  · have shallow : ¬ maxSubtreeDepth ≤ chain.length := by
      have depth := storable.shallow
      rw [RowAddress.depth_eq, steps_extend, List.length_append, RowAddress.steps, List.length_cons] at depth
      omega
    have rebuilt := rebuildAddress_ok leveled root fun level present =>
      storable.plain level (List.mem_append_right _ present)
    simp only [Pg.subtreeRow, shallow, if_false, rebuilt, columns, bind, Except.bind]
    rfl

/-- The node of a live row below the root is reached by the descent. -/
theorem Represents.subtree_of_row (represents : Represents codec table (lookup current)) {root : RowAddress}
    {start : Node Wire} (found : table.pointLookup root = some start) {names : List String}
    {levels : List AddressStep} (nonempty : levels ≠ []) (named : ∀ level ∈ levels, level.name ∈ names)
    {row : StoredRow} (stored : lookup current (extend root levels) = some row) :
    ∃ reached ∈ subtree table root names, ∃ picked, liveOf reached = some picked ∧
      picked.1.map Linked.label = levels.map slot := by
  obtain ⟨node, looked, live, _⟩ := represents.node_of_row stored
  have located : locate table.nodes (path root ++ levels.map slot) = some node.id := by
    rw [← path_extend, locate_path, looked]
    rfl
  have at_root : locate table.nodes (path root) = some start.id := by
    rw [locate_path, found]
    rfl
  obtain ⟨chain, labels, links⟩ : ∃ chain, chain.map Linked.label = levels.map slot ∧
      Links table.nodes (fun place => place.stepName ∈ names) start.id chain node.id := by
    refine links_of_locate at_root located fun place present => ?_
    obtain ⟨level, inside, rfl⟩ := List.mem_map.mp present
    exact decide_eq_true (named level inside)
  have lengths := congrArg List.length labels
  rw [List.length_map, List.length_map] at lengths
  have depth := (represents.stored _ row stored).shallow
  rw [RowAddress.depth_eq, steps_extend, List.length_append] at depth
  have filled : chain ≠ [] := by
    rintro rfl
    exact nonempty (List.eq_nil_of_length_eq_zero lengths.symm)
  obtain ⟨last, ends⟩ := Option.isSome_iff_exists.mp (List.getLast?_isSome.mpr filled)
  obtain ⟨inside, same⟩ := links_last links ends
  obtain rfl := represents.grounded.eq_of_id (represents.lookup_iff.mp looked).1 inside same.symm
  exact ⟨(_, chain), (mem_subtree found).mpr ⟨filled, by omega, links⟩, (chain, node.payload),
    liveOf_eq_some.mpr ⟨node, ends, live, rfl⟩, labels⟩

/-- The reference descent holds the live rows below the root. -/
theorem mem_scanSubtree {root : RowAddress} {names : List String} {entry : RowAddress × StoredRow} :
    entry ∈ MemoryStore.scanSubtree current root names ↔
      lookup current entry.1 = some entry.2 ∧ entry.1.descendsFrom root names = true := by
  rw [MemoryStore.scanSubtree, List.mem_filter, ← Prod.eta entry, Std.TreeMap.mem_toList_iff_getElem?_eq_some]
  rfl

theorem nodup_filterMap_liveOf {reached : List (Nat × List (Node Wire))}
    (distinct : (reached.map Prod.snd).Nodup) : ((reached.filterMap liveOf).map Prod.fst).Nodup := by
  refine distinct.sublist ?_
  induction reached with
  | nil => exact List.Sublist.slnil
  | cons first reached ih =>
    have rest := ih (List.nodup_cons.mp distinct).2
    rw [List.map_cons]
    cases live : liveOf first with
    | none =>
      rw [List.filterMap_cons_none live]
      exact rest.cons _
    | some picked =>
      obtain ⟨_, _, _, rfl⟩ := liveOf_eq_some.mp live
      rw [List.filterMap_cons_some live, List.map_cons]
      exact rest.cons_cons _

/-- The descent meets each address once. -/
theorem Represents.distinct_answers (represents : Represents codec table (lookup current)) {root : RowAddress}
    (legal : LegalSteps root.steps) {start : Node Wire} (found : table.pointLookup root = some start)
    {names : List String} {answers : List (RowAddress × StoredRow)}
    (all : ((subtree table root names).filterMap liveOf).mapM (Pg.subtreeRow codec root) = .ok answers) :
    (answers.map Prod.fst).Nodup := by
  have chains : ((subtree table root names).map Prod.snd).Nodup := by
    rw [subtree, found]
    refine descend_distinct represents.grounded.nodup 0 (fun reached own => ?_) (List.nodup_singleton _)
    rw [List.mem_singleton.mp own]
    rfl
  have apart := nodup_filterMap_liveOf chains
  rw [List.Nodup, List.pairwise_map] at apart ⊢
  refine pairwise_of_mapM all (fun first one second two different => ?_) apart
  rintro _ firstAnswer _ secondAnswer same
  obtain ⟨⟨id, chain⟩, inside, live⟩ := List.mem_filterMap.mp one
  obtain ⟨⟨other, another⟩, present, alive⟩ := List.mem_filterMap.mp two
  obtain ⟨levels, row, _, _, _, labels, _, answered⟩ := represents.subtreeRow legal found one
  obtain ⟨others, _, _, _, _, otherLabels, _, otherAnswered⟩ := represents.subtreeRow legal found two
  rw [answered] at firstAnswer
  rw [otherAnswered] at secondAnswer
  obtain rfl := Except.ok.inj firstAnswer
  obtain rfl := Except.ok.inj secondAnswer
  have equal : levels = others := List.append_cancel_left (RowAddress.mk.inj same).2
  obtain ⟨_, _, _, rfl⟩ := liveOf_eq_some.mp live
  obtain ⟨_, _, _, rfl⟩ := liveOf_eq_some.mp alive
  exact different (represents.grounded.links_inj ((mem_subtree found).mp inside).2.2
    ((mem_subtree found).mp present).2.2 (labels.trans (equal ▸ otherLabels.symm)))

/-- The descent lists the live rows below the root in address order. -/
theorem Represents.scanSubtree (represents : Represents codec table (lookup current)) {root : RowAddress}
    (askable : Askable root) {names : List String} (clean : ∀ name ∈ names, nul ∉ name.toList) :
    scanSubtree codec table root names = .ok (MemoryStore.scanSubtree current root names) := by
  have strict : (MemoryStore.scanSubtree current root names).Pairwise fun first second =>
      compare first.1 second.1 = .lt := Std.TreeMap.ordered_keys_toList.filter _
  rw [Pg.scanSubtree]
  split
  · next none =>
      have unstored : MemoryStore.scanSubtree current root names = [] := by
        refine List.eq_nil_iff_forall_not_mem.mpr fun entry listed => ?_
        obtain ⟨levels, nonempty, named, _⟩ := descendsFrom_iff.mp (mem_scanSubtree.mp listed).2
        obtain ⟨level, rest, rfl⟩ := List.exists_cons_of_ne_nil nonempty
        exact absurd (named level List.mem_cons_self) (by rw [none]; exact List.not_mem_nil)
      rw [unstored]
      rfl
  · have bound : bindNames (root.declaration ++ names) = .ok () := by
      refine bindNames_ok fun name inside => ?_
      rcases List.mem_append.mp inside with own | asked
      · obtain ⟨step, present, rfl⟩ := List.mem_map.mp own
        exact askable.names step present
      · exact clean name asked
    rw [bound]
    simp only [bind, Except.bind]
    cases found : table.pointLookup root with
    | none =>
      have unstored : MemoryStore.scanSubtree current root names = [] := by
        refine List.eq_nil_iff_forall_not_mem.mpr fun entry listed => ?_
        obtain ⟨stored, descends⟩ := mem_scanSubtree.mp listed
        obtain ⟨levels, _, _, below⟩ := descendsFrom_iff.mp descends
        obtain ⟨node, looked, _⟩ := represents.node_of_row stored
        have located : locate table.nodes (path root ++ levels.map slot) = some node.id := by
          rw [← path_extend, ← below, locate_path, looked]
          rfl
        obtain ⟨start, at_root⟩ := exists_of_locate_append located
        rw [locate_path, found] at at_root
        cases at_root
      have nothing : subtree table root names = [] := by
        refine List.eq_nil_iff_forall_not_mem.mpr fun reached inside => ?_
        rw [subtree, found] at inside
        obtain ⟨_, own, _⟩ := mem_descend.mp inside
        exact List.not_mem_nil own
      rw [unstored, nothing, List.filterMap_nil, List.mapM_nil]
      simp only [pure, Except.pure, List.mergeSort_nil]
    | some start =>
      have read (picked : List (Node Wire) × Columns Wire)
          (listed : picked ∈ (subtree table root names).filterMap liveOf) :=
        represents.subtreeRow askable.keys found listed
      obtain ⟨answers, all⟩ : ∃ answers, ((subtree table root names).filterMap liveOf).mapM
          (Pg.subtreeRow codec root) = .ok answers := by
        refine exists_mapM fun picked listed => ?_
        obtain ⟨levels, row, _, _, _, _, _, answered⟩ := read picked listed
        exact ⟨_, answered⟩
      have distinct := represents.distinct_answers askable.keys found all
      rw [all]
      refine congrArg Except.ok (eq_of_strict (strict_mergeSort distinct) strict fun entry => ?_)
      rw [List.mem_mergeSort, mem_of_mapM all, mem_scanSubtree]
      constructor
      · rintro ⟨picked, listed, answer⟩
        obtain ⟨levels, row, nonempty, named, _, _, stored, answered⟩ := read picked listed
        rw [answered] at answer
        obtain rfl := Except.ok.inj answer
        exact ⟨stored, descendsFrom_iff.mpr ⟨levels, nonempty, named, rfl⟩⟩
      · rintro ⟨stored, descends⟩
        obtain ⟨levels, nonempty, named, below⟩ := descendsFrom_iff.mp descends
        rw [below] at stored
        obtain ⟨reached, inside, picked, live, labels⟩ :=
          represents.subtree_of_row found nonempty named stored
        have listed := List.mem_filterMap.mpr ⟨reached, inside, live⟩
        obtain ⟨others, row, _, _, legal, otherLabels, storedOwn, answered⟩ := read picked listed
        have known := (represents.stored _ _ stored).keys
        rw [steps_extend] at known
        obtain rfl : others = levels := slots_inj legal
          (fun level member => known level (List.mem_append_right _ member)) (otherLabels.symm.trans labels)
        refine ⟨picked, listed, ?_⟩
        rw [answered, ← below, Option.some.inj (storedOwn.symm.trans stored)]

end Descent

end Liasse.Pg

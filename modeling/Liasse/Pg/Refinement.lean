/-
This file proves that the head state is read back from the table of nodes, so the PostgreSQL store answers as the
in-memory store after each commit.
-/

import Liasse.Pg.Subtree

namespace Liasse.Pg

open Codes Store Linked

section Heads

variable {Wire : Type} {codec : ValueCodec Wire} {table : NodeTable Wire} {current : RowMap RowAddress}

namespace Represents

variable (represents : Represents codec table (lookup current))

include represents

/-- Each node is at an address whose last level it keeps. -/
theorem address_of_node {node : Node Wire} (inside : node ∈ table.nodes) :
    ∃ address, LegalSteps address.steps ∧ table.pointLookup address = some node ∧
      Level codec node address.last := by
  induction size : node.id using Nat.strong_induction_on generalizing node with
  | _ id ih =>
    subst size
    obtain ⟨step, level⟩ := represents.leveled node inside
    obtain ⟨lower, top | ⟨above, present, same⟩⟩ := represents.grounded.rooted node inside
    · refine ⟨⟨step, []⟩, ?_, represents.lookup_iff.mpr ⟨inside, ?_, level.slot⟩, level⟩
      · intro other listed
        rw [List.mem_singleton.mp listed]
        exact level.legal
      · rw [top]
        rfl
    · obtain ⟨address, legal, found, _⟩ := ih above.id (same ▸ lower) present rfl
      have last : (address.child step).last = step := by
        rw [RowAddress.last, RowAddress.child]
        simp
      refine ⟨address.child step, ?_, represents.lookup_iff.mpr ⟨inside, ?_, ?_⟩, ?_⟩
      · rw [RowAddress.steps_child]
        intro other listed
        rcases List.mem_append.mp listed with higher | own
        · exact legal other higher
        · rw [List.mem_singleton.mp own]
          exact level.legal
      · rw [abovePath, RowAddress.steps_child, List.dropLast_concat, ← path, locate_path, found,
          Option.map_some, same]
      · rw [last]
        exact level.slot
      · rw [last]
        exact level

/-- An address of a node has at most as many levels as there are nodes. -/
theorem depth_le {address : RowAddress} {node : Node Wire} (found : table.pointLookup address = some node) :
    address.depth ≤ table.nodes.length := by
  have located : locate table.nodes ([] ++ path address) = some node.id := by
    rw [List.nil_append, locate_path, found]
    rfl
  obtain ⟨chain, labels, links⟩ : ∃ chain, chain.map Linked.label = path address ∧
      Links table.nodes (fun _ => true) 0 chain node.id :=
    links_of_locate rfl located fun _ _ => rfl
  have short := represents.grounded.links_length links
  have lengths := congrArg List.length labels
  rw [List.length_map, path, List.length_map] at lengths
  rw [RowAddress.depth_eq]
  omega

theorem loadNode {address : RowAddress} (legal : LegalSteps address.steps) {node : Node Wire}
    (found : table.pointLookup address = some node) :
    loadNode codec node = .ok ⟨node.parent, address.last, lookup current address⟩ := by
  obtain ⟨inside, _, label⟩ := represents.lookup_iff.mp found
  obtain ⟨step, level⟩ := represents.leveled node inside
  obtain rfl : step = address.last :=
    slot_inj level.legal (legal _ (last_mem address)) (level.slot.symm.trans label)
  have fits := represents.present address legal node found
  have named : node.label.stepName = address.last.name := by rw [label]; rfl
  cases stored : lookup current address with
  | none =>
    rw [stored] at fits
    obtain ⟨incarnation, value, _⟩ := fits
    simp only [Pg.loadNode, level.wire, level.decoded, incarnation, value, named, bind, Except.bind]
    rfl
  | some row =>
    rw [stored] at fits
    obtain ⟨incarnation, value, created, value_kept, created_kept⟩ := fits
    rw [Kept] at value_kept
    simp only [Pg.loadNode, level.wire, level.decoded, incarnation, value, created, value_kept, named,
      decodeCreated_kept created_kept, bind, Except.bind]
    rfl

end Represents

/-- The loaded nodes are those of the table, each with its level and its row. -/
structure Loads (table : NodeTable Wire) (current : RowMap RowAddress)
    (loaded : Std.TreeMap Nat LoadedNode compare) : Prop where
  each : ∀ address, LegalSteps address.steps → ∀ node, table.pointLookup address = some node →
    loaded[node.id]? = some ⟨node.parent, address.last, lookup current address⟩
  only : ∀ id entry, loaded[id]? = some entry → ∃ node ∈ table.nodes, node.id = id
  size : loaded.size = table.nodes.length

theorem loadNodes_ok {nodes : List (Node Wire)} (ids : (nodes.map Linked.id).Nodup)
    (read : ∀ node ∈ nodes, ∃ entry, loadNode codec node = .ok entry) :
    ∃ loaded, loadNodes codec nodes = .ok loaded ∧ loaded.size = nodes.length ∧
      (∀ node ∈ nodes, ∀ entry, loadNode codec node = .ok entry → loaded[node.id]? = some entry) ∧
      ∀ id entry, loaded[id]? = some entry → ∃ node ∈ nodes, node.id = id := by
  induction nodes using List.reverseRecOn with
  | nil =>
    refine ⟨∅, rfl, rfl, fun _ inside => absurd inside List.not_mem_nil, fun id entry stored => ?_⟩
    rw [Std.TreeMap.getElem?_emptyc] at stored
    cases stored
  | append_singleton nodes node ih =>
    rw [List.map_append, List.nodup_append] at ids
    obtain ⟨distinct, _, apart⟩ := ids
    obtain ⟨loaded, earlier, size, each, only⟩ := ih distinct fun other inside =>
      read other (List.mem_append_left _ inside)
    obtain ⟨entry, own⟩ := read node (List.mem_append_right _ (List.mem_singleton_self _))
    have fresh : ∀ other ∈ nodes, other.id ≠ node.id := fun other inside =>
      apart _ (List.mem_map_of_mem inside) _ (List.mem_singleton_self _)
    refine ⟨loaded.insert node.id entry, ?_, ?_, ?_, ?_⟩
    · rw [loadNodes, List.foldlM_append, ← loadNodes, earlier]
      simp only [bind, Except.bind, List.foldlM_cons, own, List.foldlM_nil]
      rfl
    · have new : node.id ∉ loaded := by
        intro taken
        obtain ⟨other, stored⟩ := Option.isSome_iff_exists.mp (Std.TreeMap.isSome_getElem?_iff_mem.mpr taken)
        obtain ⟨another, inside, same⟩ := only node.id other stored
        exact fresh another inside same
      rw [Std.TreeMap.size_insert, if_neg fun has => new (Std.TreeMap.mem_iff_contains.mpr has), size, List.length_append, List.length_singleton]
    · intro other inside result answered
      rw [Std.TreeMap.getElem?_insert]
      rcases List.mem_append.mp inside with older | last
      · rw [if_neg fun same => fresh other older (Std.LawfulEqOrd.eq_of_compare same).symm]
        exact each other older result answered
      · obtain rfl := List.mem_singleton.mp last
        rw [if_pos Std.ReflOrd.compare_self, ← Except.ok.inj (own.symm.trans answered)]
    · intro id result stored
      rw [Std.TreeMap.getElem?_insert] at stored
      split at stored
      · next same =>
          exact ⟨node, List.mem_append_right _ (List.mem_singleton_self _), Std.LawfulEqOrd.eq_of_compare same⟩
      · obtain ⟨other, inside, same⟩ := only id result stored
        exact ⟨other, List.mem_append_left _ inside, same⟩

theorem Represents.loadNodes (represents : Represents codec table (lookup current)) :
    ∃ loaded, loadNodes codec table.nodes = .ok loaded ∧ Loads table current loaded := by
  have read : ∀ node ∈ table.nodes, ∃ entry, Pg.loadNode codec node = .ok entry := by
    intro node inside
    obtain ⟨address, legal, found, _⟩ := represents.address_of_node inside
    exact ⟨_, represents.loadNode legal found⟩
  obtain ⟨loaded, all, size, each, only⟩ := loadNodes_ok represents.grounded.ids read
  refine ⟨loaded, all, fun address legal node found => ?_, only, size⟩
  exact each node (represents.lookup_iff.mp found).1 _ (represents.loadNode legal found)

/-- The climb from a node goes through the levels of its address. -/
theorem Represents.climb (represents : Represents codec table (lookup current))
    {loaded : Std.TreeMap Nat LoadedNode compare} (loads : Loads table current loaded) (first : AddressStep)
    (rest : List AddressStep) (legal : LegalSteps (RowAddress.mk first rest).steps) {node : Node Wire}
    (found : table.pointLookup ⟨first, rest⟩ = some node) {fuel : Nat} (enough : rest.length < fuel)
    (met : List AddressStep) (bounded : rest.length + 1 + met.length ≤ loaded.size) :
    climb loaded fuel node.id met = .ok (first :: rest ++ met) := by
  obtain ⟨fuel, rfl⟩ := Nat.exists_eq_succ_of_ne_zero (Nat.ne_of_gt (Nat.zero_lt_of_lt enough))
  rw [Pg.climb, loads.each _ legal node found]
  induction rest using List.reverseRecOn generalizing node fuel met with
  | nil =>
    have root : node.parent = rootSentinelId :=
      (Option.some.inj (represents.lookup_iff.mp found).2.1).symm
    simp only [root, if_true]
    rfl
  | append_singleton above last ih =>
    obtain ⟨inside, up, _⟩ := represents.lookup_iff.mp found
    have higher : locate table.nodes (path ⟨first, above⟩) = some node.parent := by
      rw [← up, abovePath, path, steps_mk, steps_mk, ← List.cons_append, List.dropLast_concat]
    have looked := higher
    rw [locate_path] at looked
    obtain ⟨parent, lookedUp, same⟩ := Option.map_eq_some_iff.mp looked
    have nested : node.parent ≠ rootSentinelId := by
      rw [← same]
      exact Nat.ne_of_gt (represents.grounded.id_pos (represents.lookup_iff.mp lookedUp).1)
    have known : LegalSteps (RowAddress.mk first above).steps := fun step listed =>
      legal step (by rw [steps_mk, ← List.cons_append]; exact List.mem_append_left _ listed)
    have ends : (RowAddress.mk first (above ++ [last])).last = last := by simp [RowAddress.last]
    rw [List.length_append, List.length_singleton] at enough bounded
    obtain ⟨fuel, rfl⟩ := Nat.exists_eq_succ_of_ne_zero (show fuel ≠ 0 by omega)
    have shallow : ¬ loaded.size < (last :: met).length := by
      rw [List.length_cons]
      omega
    simp only [nested, if_false, ends, shallow]
    rw [← same, Pg.climb, loads.each _ known parent lookedUp]
    have room : above.length + 1 + (last :: met).length ≤ loaded.size := by
      rw [List.length_cons]
      omega
    rw [ih known lookedUp (last :: met) room fuel (by omega)]
    simp

theorem Represents.reconstruct (represents : Represents codec table (lookup current))
    {loaded : Std.TreeMap Nat LoadedNode compare} (loads : Loads table current loaded)
    {address : RowAddress} (legal : LegalSteps address.steps) {node : Node Wire}
    (found : table.pointLookup address = some node) : reconstruct loaded node.id = .ok address := by
  have depth := represents.depth_le found
  rw [← loads.size, RowAddress.depth] at depth
  have climbed := represents.climb loads address.first address.rest legal found
    (show address.rest.length < loaded.size + 1 by omega) [] (by rw [List.length_nil]; omega)
  rw [Pg.reconstruct, climbed, List.append_nil]
  rfl

/-- The rows of the first map are in the second one. -/
def Within (rows current : RowMap RowAddress) : Prop :=
  ∀ address row, lookup rows address = some row → lookup current address = some row

/-- The head state that some loaded nodes give holds rows of the current state only, and each row whose
node was among them. -/
theorem Represents.foldHead (represents : Represents codec table (lookup current))
    {loaded : Std.TreeMap Nat LoadedNode compare} (loads : Loads table current loaded)
    (entries : List (Nat × LoadedNode)) (listed : ∀ entry ∈ entries, loaded[entry.1]? = some entry.2)
    (rows : RowMap RowAddress) (within_current : Within rows current) :
    ∃ final, entries.foldlM (headStep loaded) rows = .ok final ∧ Within final current ∧ Within rows final ∧
      ∀ address node row, LegalSteps address.steps → table.pointLookup address = some node →
        node.id ∈ entries.map Prod.fst → lookup current address = some row →
          lookup final address = some row := by
  induction entries generalizing rows with
  | nil =>
    exact ⟨rows, rfl, within_current, fun _ _ stored => stored,
      fun _ _ _ _ _ inside => absurd inside List.not_mem_nil⟩
  | cons entry entries ih =>
    have stored := listed entry List.mem_cons_self
    obtain ⟨node, inside, same⟩ := loads.only _ _ stored
    obtain ⟨address, legal, found, _⟩ := represents.address_of_node inside
    have content := loads.each address legal node found
    rw [same, stored] at content
    have row_eq : entry.2.row = lookup current address := by rw [Option.some.inj content]
    have rebuilt := represents.reconstruct loads legal found
    rw [same] at rebuilt
    -- The node is the only one of its address, so its row is the one of the current state.
    have own (other : RowAddress) (twin : Node Wire) (otherLegal : LegalSteps other.steps)
        (looked : table.pointLookup other = some twin) (equal : twin.id = entry.1) : other = address :=
      represents.lookup_inj otherLegal legal looked found (equal.trans same.symm)
    have others := fun next inside => listed next (List.mem_cons_of_mem _ inside)
    cases held : lookup current address with
    | none =>
      obtain ⟨final, folded, bounded, extends_rows, covered⟩ := ih others rows within_current
      refine ⟨final, ?_, bounded, extends_rows, ?_⟩
      · rw [List.foldlM_cons, headStep, row_eq, held]
        exact folded
      · intro other twin row otherLegal looked member current_row
        rcases List.mem_cons.mp member with equal | further
        · rw [own other twin otherLegal looked equal, held] at current_row
          cases current_row
        · exact covered other twin row otherLegal looked further current_row
    | some row =>
      have grown : Within (rows.insert address row) current := by
        intro other another
        rw [lookup_insert]
        by_cases here : other = address
        · rw [here, Function.update_self, held]
          exact fun equal => equal
        · rw [Function.update_of_ne here]
          exact within_current other another
      obtain ⟨final, folded, bounded, extends_rows, covered⟩ := ih others _ grown
      have placed : lookup final address = some row :=
        extends_rows address row (by rw [lookup_insert, Function.update_self])
      refine ⟨final, ?_, bounded, ?_, ?_⟩
      · rw [List.foldlM_cons, headStep, row_eq, held, rebuilt]
        exact folded
      · intro other another earlier
        refine extends_rows other another ?_
        rw [lookup_insert]
        by_cases here : other = address
        · have agreed := within_current other another earlier
          rw [here, held] at agreed
          rw [here, Function.update_self, agreed]
        · rw [Function.update_of_ne here]
          exact earlier
      · intro other twin another otherLegal looked member current_row
        rcases List.mem_cons.mp member with equal | further
        · obtain rfl := own other twin otherLegal looked equal
          rw [placed, ← held, current_row]
        · exact covered other twin another otherLegal looked further current_row

/-- The head state that the table gives holds the current rows. -/
theorem Represents.materializeHead (represents : Represents codec table (lookup current)) :
    ∃ rows, materializeHead codec table = .ok rows ∧ rows.toList = current.toList := by
  obtain ⟨loaded, loading, loads⟩ := represents.loadNodes
  have empty : Within ∅ current := by
    intro address row stored
    rw [lookup_empty] at stored
    cases stored
  obtain ⟨rows, folded, bounded, _, covered⟩ := represents.foldHead loads loaded.toList
    (fun entry inside => Std.TreeMap.mem_toList_iff_getElem?_eq_some.mp inside) ∅ empty
  refine ⟨rows, ?_, eq_of_strict Std.TreeMap.ordered_keys_toList Std.TreeMap.ordered_keys_toList fun entry => ?_⟩
  · rw [Pg.materializeHead, loading]
    exact folded
  · obtain ⟨address, row⟩ := entry
    rw [Std.TreeMap.mem_toList_iff_getElem?_eq_some, Std.TreeMap.mem_toList_iff_getElem?_eq_some]
    refine ⟨bounded address row, fun stored => ?_⟩
    obtain ⟨node, found, _⟩ := represents.node_of_row stored
    have legal := (represents.stored address row stored).keys
    have member := Std.TreeMap.mem_toList_iff_getElem?_eq_some.mpr (loads.each address legal node found)
    exact covered address node row legal found (List.mem_map_of_mem member) stored

end Heads

section Answers

variable {Wire : Type}

/-- The reads of a table answer as the in-memory store does with its current rows. -/
structure Agrees (codec : ValueCodec Wire) (table : NodeTable Wire) (current : RowMap RowAddress) : Prop where
  row : ∀ address, Askable address → row codec table address = .ok current[address]?
  scan : ∀ collection, AskableCollection collection →
    scan codec table collection = .ok (MemoryStore.scan current collection)
  subtree : ∀ root names, Askable root → (∀ name ∈ names, nul ∉ name.toList) →
    scanSubtree codec table root names = .ok (MemoryStore.scanSubtree current root names)
  head : ∃ rows, materializeHead codec table = .ok rows ∧ rows.toList = current.toList

theorem Represents.agrees {codec : ValueCodec Wire} {table : NodeTable Wire} {current : RowMap RowAddress}
    (represents : Represents codec table (lookup current)) : Agrees codec table current where
  row _ askable := represents.row askable
  scan _ askable := represents.scan askable
  subtree _ _ askable clean := represents.scanSubtree askable clean
  head := represents.materializeHead

/-- The start of a log replays through the start of its states. -/
theorem LogReplays.take {log : List (CommittedTransition RowAddress)} {states : List (RowMap RowAddress)}
    (replayed : LogReplays log states) (count : Nat) : LogReplays (log.take count) (states.take count) := by
  induction replayed with
  | nil =>
    rw [List.take_nil, List.take_nil]
    exact .nil
  | @snoc log states transition next before position steps ih =>
    by_cases early : count ≤ states.length
    · rw [List.take_append_of_le_length early,
        List.take_append_of_le_length (by rw [before.length]; exact early)]
      exact ih
    · have longer : states.length + 1 ≤ count := by omega
      rw [List.take_of_length_le (by simpa [before.length] using longer),
        List.take_of_length_le (by simpa using longer)]
      exact .snoc before position steps

theorem stateAt_take {states : List (RowMap RowAddress)} {count : Nat} (early : count ≤ states.length) :
    stateAt (states.take count) (states.take count).length = stateAt states count := by
  rw [List.length_take, Nat.min_eq_left early]
  cases count with
  | zero => rfl
  | succ count =>
    simp only [stateAt, List.getD_eq_getElem?_getD, List.getElem?_take, Nat.lt_succ_self, if_true]

/-- After each commit of a run whose writes come back from their stored form, the table answers as the
current state of the in-memory store and as the fold of its log. -/
theorem tree_refines (codec : ValueCodec Wire) {session : Session RowAddress}
    {states : List (RowMap RowAddress)} {issued : List RowIncarnation} (run : Run session states issued)
    (storable : StorableLog codec session.store.log) :
    session.store.current = stateAt states session.store.head ∧
      ∀ seq ≤ session.store.head, ∃ table,
        commitAll codec (session.store.log.take seq) = .ok table ∧
          Agrees codec table (stateAt states seq) ∧
          session.store.snapshot seq = .ok ⟨seq, stateAt states seq⟩ := by
  have committed := (run_invariant run).1
  refine ⟨by rw [committed.current, committed.head], fun seq reached => ?_⟩
  have early : seq ≤ states.length := committed.head ▸ reached
  have part := LogReplays.take committed.replayed seq
  obtain ⟨table, written, represents⟩ := commitAll_represents part
    (fun transition inside => storable transition (List.mem_of_mem_take inside))
    fun transition inside => moves_of_run run transition (List.mem_of_mem_take inside)
  rw [stateAt_take early] at represents
  refine ⟨table, written, represents.agrees, ?_⟩
  rw [MemoryStore.snapshot, if_neg (Nat.not_lt.mpr reached), Snapshot.replay, committed.replayed.replayRows,
    Nat.min_eq_left early]

section Samples

/-- The codec that stores each value as itself. -/
def copyCodec : ValueCodec Value :=
  ⟨fun value => value, .ok, .none⟩

/-- The address of a row below a missing parent, through a collection of the given name. -/
def nestedAddress (name : String) : RowAddress :=
  ⟨⟨"orgs", .composite (.bool true) []⟩, [⟨name, .composite (.bool true) []⟩]⟩

/-- The run that commits one insert at a nested address. -/
theorem nested_run (name : String) :
    ∃ (session : Session RowAddress) (states : List (RowMap RowAddress)),
      Run session states [MemoryStore.token 0] ∧
        session.store.log = [⟨1, [.insert (nestedAddress name) (MemoryStore.token 0) .none], defaultNow, none⟩] ∧
        session.store.head = 1 ∧
        session.store.current =
          (∅ : RowMap RowAddress).insert (nestedAddress name) ⟨MemoryStore.token 0, defaultNow, .none⟩ := by
  have started : Run (.idle MemoryStore.new : Session RowAddress) [] [] := .fresh
  have begun := started.call .begin rfl
  have inserted := begun.call (.insert (nestedAddress name) .none) rfl
  have committed := inserted.call .commit rfl
  exact ⟨_, _, committed, rfl, rfl, rfl⟩

theorem nested_storable (name : String) (clean : nul ∉ name.toList) (plain : unescape name = name) :
    Storable copyCodec (nestedAddress name) := by
  have legal : KeyEnc.Legal (.bool true) := KeyEnc.legal_of_leaf trivial trivial rfl
  have key : ∀ step ∈ (nestedAddress name).steps, step.key = .composite (.bool true) [] := by
    intro step inside
    rcases List.mem_cons.mp inside with rfl | own
    · rfl
    · rw [List.mem_singleton.mp own]
  refine ⟨⟨fun step inside => ?_, fun step inside => ?_⟩, fun step inside => ?_, fun step inside => ?_, ?_⟩
  · rcases List.mem_cons.mp inside with rfl | own
    · change nul ∉ "orgs".toList
      decide
    · rw [List.mem_singleton.mp own]
      exact clean
  · rw [key step inside]
    intro component present
    rw [List.mem_singleton.mp present]
    exact legal
  · rw [key step inside]
    rfl
  · rw [List.mem_singleton.mp inside]
    exact plain
  · change 2 ≤ maxSubtreeDepth
    decide

/-- A row below a parent that was never inserted is read as in the in-memory store. -/
theorem tree_refines_nested :
    ∃ (session : Session RowAddress) (table : NodeTable Value),
      commitAll copyCodec (session.store.log.take 1) = .ok table ∧
        row copyCodec table (nestedAddress "teams") =
          .ok (some ⟨MemoryStore.token 0, defaultNow, .none⟩) := by
  obtain ⟨session, states, run, log, head, current⟩ := nested_run "teams"
  have storable : StorableLog copyCodec session.store.log := by
    rw [log]
    intro transition inside op listed
    obtain rfl := List.mem_singleton.mp inside
    obtain rfl := List.mem_singleton.mp listed
    exact ⟨nested_storable _ (by decide) (by decide), rfl, rfl⟩
  obtain ⟨now, each⟩ := tree_refines copyCodec run storable
  obtain ⟨table, written, agrees, _⟩ := each 1 (by rw [head])
  refine ⟨session, table, written, ?_⟩
  have askable : Askable (nestedAddress "teams") :=
    (nested_storable _ (by decide) (by decide)).toAskable
  rw [agrees.row _ askable, ← head, ← now, current, Std.TreeMap.getElem?_insert_self]

/-- A name of two escape characters. -/
def escapedName : String :=
  String.ofList [reverseSolidus, reverseSolidus]

/-- The descent names a row below an escaped name by another address, and the scan of the collection with
the empty name meets the sentinel. -/
theorem subtree_unfaithful :
    ∃ (session : Session RowAddress) (states : List (RowMap RowAddress)) (issued : List RowIncarnation),
      Run session states issued ∧ ∃ table : NodeTable Value,
        commitAll copyCodec session.store.log = .ok table ∧
          scanSubtree copyCodec table ⟨(nestedAddress escapedName).first, []⟩ [escapedName] ≠
            .ok (MemoryStore.scanSubtree session.store.current ⟨(nestedAddress escapedName).first, []⟩
              [escapedName]) ∧
          scan copyCodec table ⟨[], ""⟩ ≠ .ok (MemoryStore.scan session.store.current ⟨[], ""⟩) := by
  obtain ⟨session, states, run, log, _, current⟩ := nested_run escapedName
  refine ⟨session, states, _, run, ?_⟩
  rw [log, current]
  refine ⟨_, rfl, fun same => ?_, fun same => ?_⟩
  · have listed := congrArg (fun answer => answer.toOption.map (List.map fun entry => entry.1.declaration)) same
    revert listed
    decide +kernel
  · have listed := congrArg (fun answer => answer.toOption.isSome) same
    revert listed
    decide +kernel

end Samples

end Answers

end Liasse.Pg

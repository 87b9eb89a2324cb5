/-
This file models the preparation of the fields of a new row: its defaults, its normalizers and the coercion to its
declared types.
-/

import Liasse.Codes.Listing
import Liasse.Codes.Table
import Liasse.Runtime.State
import Liasse.Syntax.Ast

namespace Liasse.Runtime

open Store Codes

/-- The resolution of the omitted fields that have a default, in declaration order. -/
def resolveDefaults (ctx : EvalCtx) (rows : Rows) (generation : Nat) :
    List CompiledField → FieldMap → Except Rejection FieldMap
  | [], fields => .ok fields
  | field :: rest, fields =>
    if field.name ∈ fields then resolveDefaults ctx rows generation rest fields
    else
      match field.default with
      | none => resolveDefaults ctx rows generation rest fields
      | some (.literal value) =>
        resolveDefaults ctx rows generation rest (fields.insert field.name value)
      | some (.expr value) =>
        value ctx rows fields generation >>= fun value =>
          resolveDefaults ctx rows generation rest (fields.insert field.name value)

/-- The defaults of a new row. A field without one takes the absent value of its type. -/
def applyDefaults (collection : CompiledCollection) (ctx : EvalCtx) (rows : Rows) (generation : Nat)
    (fields : FieldMap) : Except Rejection FieldMap :=
  resolveDefaults ctx rows generation collection.fields fields >>= fun fields =>
    .ok (collection.fields.foldl
      (fun fields field => fields.insertIfNew field.name field.ty.absentValue) fields)

section Cycles

/-- A declared scalar field with the sources of its default and of its computed value. -/
structure DeclaredField where
  name : String
  sources : List Syntax.Expr

/-- A reference to a sibling reads the member of the current row, or the bare name. -/
def refersTo (name : String) : Syntax.Expr → Option Bool
  | .name ident => if ident.text = name then some true else none
  | .field .current member => if member.text = name then some true else none
  | _ => none

/-- The siblings to which an expression refers. -/
def collectFieldRefs (siblings : List String) (expr : Syntax.Expr) : List String :=
  siblings.filter fun name => Syntax.search (refersTo name) expr

/-- The graph of the reads of the declared fields, in the order of their names. -/
def dependencyGraph (declared : List DeclaredField) : List (String × List String) :=
  let names := collectSorted compareText (declared.map DeclaredField.name)
  collectSorted (fun first second => compareText first.1 second.1) (declared.map fun field =>
    (field.name, names.filter fun name =>
      field.sources.any fun source => (collectFieldRefs names source).contains name))

/-- The mark of a visited node. -/
inductive Visit
  | active
  | done
deriving DecidableEq

/-- The depth-first visit of a node answers a node on a cycle. A path visits each node once, so the count of
nodes is fuel enough. -/
def visit (graph : List (String × List String)) :
    Nat → String → List (String × Visit) → Option String × List (String × Visit)
  | fuel, node, state =>
    match state.lookup node with
    | some .done => (none, state)
    | some .active => (some node, state)
    | none =>
      match fuel with
      | 0 => (none, state)
      | fuel + 1 =>
        let visited := ((graph.lookup node).getD []).foldl (fun (result : Option String × _) dep =>
          if result.1.isSome || (graph.lookup dep).isNone then result
          else visit graph fuel dep result.2) (none, (node, .active) :: state)
        if visited.1.isSome then visited else (none, (node, .done) :: visited.2)

/-- A node on a cycle of a graph. -/
def findCycle (graph : List (String × List String)) : Option String :=
  (graph.foldl (fun (result : Option String × List (String × Visit)) node =>
    if result.1.isSome then result else visit graph (graph.length + 1) node.1 result.2) (none, [])).1

/-- The check accepts the declared fields when their reads have no cycle. -/
def detectCycles (declared : List DeclaredField) : Option String :=
  findCycle (dependencyGraph declared)

end Cycles

section Solutions

/-- The value of a default over the fields of a row. -/
def CompiledDefault.evaluate (default : CompiledDefault) (ctx : EvalCtx) (rows : Rows) (fields : FieldMap)
    (generation : Nat) : Except Rejection Value :=
  match default with
  | .literal value => .ok value
  | .expr value => value ctx rows fields generation

/-- A default reads only some fields. A field that is not there reads as none. -/
def CompiledDefault.ReadsOnly (default : CompiledDefault) (known : String → Prop) : Prop :=
  ∀ ctx rows generation (first second : FieldMap),
    (∀ name, known name → first[name]?.getD .none = second[name]?.getD .none) →
      default.evaluate ctx rows first generation = default.evaluate ctx rows second generation

/-- A field gets its value before the end of the declarations: it is supplied, or one of them has its
default. -/
def Resolved (supplied : FieldMap) (declared : List CompiledField) (name : String) : Prop :=
  name ∈ supplied ∨ ∃ field ∈ declared, field.name = name ∧ field.default.isSome = true

/-- A field stays without a value. -/
def Unset (declared : List CompiledField) (name : String) : Prop :=
  ∀ field ∈ declared, field.name = name → field.default = none ∧ field.ty.absentValue = .none

/-- An order of declaration follows the reads of the defaults that apply: each reads only fields that are
supplied, that have their default before it, or that stay without a value. -/
def Respects (supplied : FieldMap) (declared : List CompiledField) : Prop :=
  ∀ before field after, declared = before ++ field :: after → field.name ∉ supplied →
    ∀ default, field.default = some default →
      default.ReadsOnly fun name => Resolved supplied before name ∨ (name ∉ supplied ∧ Unset declared name)

/-- A completed row solves the defaults of its omitted fields. -/
structure Solves (ctx : EvalCtx) (rows : Rows) (generation : Nat) (supplied : FieldMap)
    (declared : List CompiledField) (completed : FieldMap) : Prop where
  kept : ∀ name ∈ supplied, completed[name]? = supplied[name]?
  given : ∀ field ∈ declared, field.name ∉ supplied → ∀ default, field.default = some default →
    ∃ value, default.evaluate ctx rows completed generation = .ok value ∧ completed[field.name]? = some value
  absent : ∀ field ∈ declared, field.name ∉ supplied → field.default = none →
    completed[field.name]? = some field.ty.absentValue
  known : ∀ name ∈ completed, name ∈ supplied ∨ ∃ field ∈ declared, field.name = name

/-- The provisional row of a field has what is supplied and the defaults that are declared before it. -/
structure Provisional (supplied : FieldMap) (before : List CompiledField) (completed provisional : FieldMap) :
    Prop where
  earlier : ∀ name, Resolved supplied before name → provisional[name]? = completed[name]?
  later : ∀ name, ¬Resolved supplied before name → provisional[name]? = none

end Solutions

section Resolution

variable {ctx : EvalCtx} {rows : Rows} {generation : Nat}

/-- A field with a value or without a default is skipped. Another one takes the value of its default. -/
theorem resolveDefaults_cons {field : CompiledField} {rest : List CompiledField} {fields resolved : FieldMap} :
    resolveDefaults ctx rows generation (field :: rest) fields = .ok resolved ↔
      (field.name ∈ fields ∨ field.default = none) ∧
          resolveDefaults ctx rows generation rest fields = .ok resolved ∨
        ∃ default value, field.name ∉ fields ∧ field.default = some default ∧
          default.evaluate ctx rows fields generation = .ok value ∧
          resolveDefaults ctx rows generation rest (fields.insert field.name value) = .ok resolved := by
  rw [resolveDefaults]
  by_cases inside : field.name ∈ fields
  · simp [inside]
  · rw [if_neg inside]
    cases given : field.default with
    | none => simp [inside]
    | some default =>
      cases default with
      | literal value => simp [inside, CompiledDefault.evaluate]
      | expr value =>
        simp only [inside, false_or, reduceCtorEq, false_and, Option.some.injEq, not_false_eq_true,
          true_and]
        constructor
        · intro done
          obtain ⟨found, evaluated, later⟩ := bind_ok.mp done
          exact ⟨_, found, rfl, evaluated, later⟩
        · rintro ⟨_, found, rfl, evaluated, later⟩
          exact bind_ok.mpr ⟨found, evaluated, later⟩

/-- The pass over a list of declarations is the pass over its parts. -/
theorem resolveDefaults_append {before after : List CompiledField} {fields resolved : FieldMap} :
    resolveDefaults ctx rows generation (before ++ after) fields = .ok resolved ↔
      ∃ between, resolveDefaults ctx rows generation before fields = .ok between ∧
        resolveDefaults ctx rows generation after between = .ok resolved := by
  induction before generalizing fields with
  | nil =>
    constructor
    · exact fun done => ⟨fields, rfl, done⟩
    · rintro ⟨between, same, done⟩
      cases same
      exact done
  | cons field rest earlier =>
    rw [List.cons_append, resolveDefaults_cons]
    simp only [resolveDefaults_cons, earlier]
    constructor
    · rintro (⟨skipped, between, first, second⟩ | ⟨default, value, fresh, given, evaluated, between, first, second⟩)
      · exact ⟨between, .inl ⟨skipped, first⟩, second⟩
      · exact ⟨between, .inr ⟨default, value, fresh, given, evaluated, first⟩, second⟩
    · rintro ⟨between, ⟨skipped, first⟩ | ⟨default, value, fresh, given, evaluated, first⟩, second⟩
      · exact .inl ⟨skipped, between, first, second⟩
      · exact .inr ⟨default, value, fresh, given, evaluated, between, first, second⟩

theorem resolved_cons {supplied : FieldMap} {field : CompiledField} {rest : List CompiledField} {name : String} :
    Resolved supplied (field :: rest) name ↔
      (field.name = name ∧ field.default.isSome = true) ∨ Resolved supplied rest name := by
  simp only [Resolved, List.mem_cons, exists_eq_or_imp]
  tauto

theorem resolved_insert {supplied : FieldMap} {declared : List CompiledField} {name other : String}
    {value : Value} :
    Resolved (supplied.insert name value) declared other ↔ name = other ∨ Resolved supplied declared other := by
  simp only [Resolved, Std.ExtTreeMap.mem_insert, Std.LawfulEqCmp.compare_eq_iff_eq]
  tauto

/-- The pass keeps the fields that it starts with, and adds those with a default. -/
theorem resolveDefaults_fields {declared : List CompiledField} {fields resolved : FieldMap}
    (done : resolveDefaults ctx rows generation declared fields = .ok resolved) :
    (∀ name ∈ fields, resolved[name]? = fields[name]?) ∧
      ∀ name, name ∈ resolved ↔ Resolved fields declared name := by
  induction declared generalizing fields with
  | nil =>
    cases done
    simp [Resolved]
  | cons field rest earlier =>
    rcases resolveDefaults_cons.mp done with ⟨skipped, later⟩ | ⟨default, value, fresh, given, _, later⟩
    · obtain ⟨kept, known⟩ := earlier later
      refine ⟨kept, fun name => (known name).trans ?_⟩
      rw [resolved_cons]
      constructor
      · exact .inr
      · rintro (⟨rfl, given⟩ | resolved)
        · exact .inl (skipped.resolve_right fun absent => by simp [absent] at given)
        · exact resolved
    · obtain ⟨kept, known⟩ := earlier later
      constructor
      · intro name inside
        have different : name ≠ field.name := fun same => fresh (same ▸ inside)
        rw [kept name (by simp [inside]), getElem?_insert_of_ne different]
      · intro name
        rw [known, resolved_insert, resolved_cons, given]
        simp

/-- A declared field takes the value of its default on the row as of its turn. -/
theorem resolveDefaults_turn {before after : List CompiledField} {field : CompiledField}
    {default : CompiledDefault} {supplied resolved : FieldMap}
    (done : resolveDefaults ctx rows generation (before ++ field :: after) supplied = .ok resolved)
    (fresh : ¬Resolved supplied before field.name) (given : field.default = some default) :
    ∃ provisional value, resolveDefaults ctx rows generation before supplied = .ok provisional ∧
      default.evaluate ctx rows provisional generation = .ok value ∧ resolved[field.name]? = some value ∧
      ∀ name ∈ provisional, resolved[name]? = provisional[name]? := by
  obtain ⟨provisional, first, second⟩ := resolveDefaults_append.mp done
  obtain ⟨_, known⟩ := resolveDefaults_fields first
  have outside : field.name ∉ provisional := fun inside => fresh ((known _).mp inside)
  rcases resolveDefaults_cons.mp second with ⟨skipped, _⟩ | ⟨_, value, _, same, evaluated, later⟩
  · exact absurd given (skipped.resolve_left outside ▸ by simp)
  · obtain rfl := Option.some.inj (given.symm.trans same)
    obtain ⟨kept, _⟩ := resolveDefaults_fields later
    refine ⟨provisional, value, first, evaluated, ?_, ?_⟩
    · rw [kept _ Std.ExtTreeMap.mem_insert_self, Std.ExtTreeMap.getElem?_insert_self]
    · intro name inside
      have different : name ≠ field.name := fun same => outside (same ▸ inside)
      rw [kept name (by simp [inside]), getElem?_insert_of_ne different]

end Resolution

section Completion

/-- The completion of a row takes the absent value of each declared field without a value. -/
def fillAbsent (declared : List CompiledField) (fields : FieldMap) : FieldMap :=
  declared.foldl (fun fields field => fields.insertIfNew field.name field.ty.absentValue) fields

theorem applyDefaults_ok {collection : CompiledCollection} {ctx : EvalCtx} {rows : Rows} {generation : Nat}
    {supplied completed : FieldMap} :
    applyDefaults collection ctx rows generation supplied = .ok completed ↔
      ∃ resolved, resolveDefaults ctx rows generation collection.fields supplied = .ok resolved ∧
        fillAbsent collection.fields resolved = completed := by
  rw [applyDefaults, bind_ok]
  simp [fillAbsent]

theorem getElem?_fillAbsent_of_mem (declared : List CompiledField) {fields : FieldMap} {name : String}
    (inside : name ∈ fields) : (fillAbsent declared fields)[name]? = fields[name]? := by
  unfold fillAbsent
  induction declared generalizing fields with
  | nil => rfl
  | cons field rest earlier =>
    rw [List.foldl_cons, earlier (by simp [inside]), Std.ExtTreeMap.getElem?_insertIfNew, if_neg]
    rintro ⟨same, outside⟩
    exact outside (Std.LawfulEqCmp.eq_of_compare same ▸ inside)

theorem getElem?_fillAbsent_of_not_mem {declared : List CompiledField} {fields : FieldMap} {name : String}
    (outside : name ∉ fields) :
    (fillAbsent declared fields)[name]? =
      (declared.find? fun field => field.name = name).map fun field => field.ty.absentValue := by
  unfold fillAbsent
  induction declared generalizing fields with
  | nil => simp [outside]
  | cons field rest earlier =>
    rw [List.foldl_cons, List.find?_cons]
    by_cases same : field.name = name
    · have filled : name ∈ fields.insertIfNew field.name field.ty.absentValue := by simp [same]
      have kept := getElem?_fillAbsent_of_mem rest filled
      rw [fillAbsent] at kept
      rw [kept, Std.ExtTreeMap.getElem?_insertIfNew, if_pos (by simp [same, outside])]
      simp [same]
    · rw [earlier (by simp [outside, same])]
      simp [same]

/-- A name that is not among the earlier declarations and not supplied has no value before its turn. -/
theorem not_resolved_of_nodup {before after : List CompiledField} {field : CompiledField} {supplied : FieldMap}
    (distinct : ((before ++ field :: after).map CompiledField.name).Nodup) (omitted : field.name ∉ supplied) :
    ¬Resolved supplied before field.name := by
  rintro (inside | ⟨other, declared, same, _⟩)
  · exact omitted inside
  · rw [List.map_append, List.nodup_append] at distinct
    exact distinct.2.2 _ (List.mem_map_of_mem declared) _ (by simp) same

/-- Each omitted field with a default takes the value of this default on its provisional row. -/
theorem applyDefaults_turn {collection : CompiledCollection} {before after : List CompiledField}
    {field : CompiledField} {default : CompiledDefault} {ctx : EvalCtx} {rows : Rows} {generation : Nat}
    {supplied completed : FieldMap} (distinct : (collection.fields.map CompiledField.name).Nodup)
    (done : applyDefaults collection ctx rows generation supplied = .ok completed)
    (place : collection.fields = before ++ field :: after) (omitted : field.name ∉ supplied)
    (given : field.default = some default) :
    ∃ provisional value, Provisional supplied before completed provisional ∧
      default.evaluate ctx rows provisional generation = .ok value ∧ completed[field.name]? = some value := by
  obtain ⟨resolved, passed, rfl⟩ := applyDefaults_ok.mp done
  rw [place] at passed distinct
  obtain ⟨provisional, value, first, evaluated, found, kept⟩ :=
    resolveDefaults_turn passed (not_resolved_of_nodup distinct omitted) given
  obtain ⟨_, known⟩ := resolveDefaults_fields first
  refine ⟨provisional, value, ⟨fun name inside => ?_, fun name outside => ?_⟩, evaluated, ?_⟩
  · have same := kept name ((known name).mpr inside)
    have present : name ∈ resolved := by
      rw [Std.ExtTreeMap.mem_iff_isSome_getElem?, same, ← Std.ExtTreeMap.mem_iff_isSome_getElem?]
      exact (known name).mpr inside
    rw [getElem?_fillAbsent_of_mem _ present, same]
  · exact Std.ExtTreeMap.getElem?_eq_none fun inside => outside ((known name).mp inside)
  · have present : field.name ∈ resolved := by simp [Std.ExtTreeMap.mem_iff_isSome_getElem?, found]
    rw [getElem?_fillAbsent_of_mem _ present, found]

end Completion

section Solution

variable {ctx : EvalCtx} {rows : Rows} {generation : Nat} {supplied completed : FieldMap}

/-- A default that reads only known fields has the same value on its provisional row and on the completed
row. -/
theorem Provisional.evaluate_eq {before : List CompiledField} {provisional : FieldMap}
    (agrees : Provisional supplied before completed provisional) {unset : String → Prop}
    (silent : ∀ name, unset name → ¬Resolved supplied before name → completed[name]?.getD .none = .none)
    {default : CompiledDefault} (reads : default.ReadsOnly fun name => Resolved supplied before name ∨ unset name) :
    default.evaluate ctx rows provisional generation = default.evaluate ctx rows completed generation := by
  apply reads
  intro name known
  by_cases resolved : Resolved supplied before name
  · rw [agrees.earlier name resolved]
  · rw [agrees.later name resolved, silent name (known.resolve_left resolved) resolved]
    rfl

theorem find?_eq_some_of_nodup {declared : List CompiledField} {field : CompiledField}
    (distinct : (declared.map CompiledField.name).Nodup) (inside : field ∈ declared) :
    declared.find? (fun other => other.name = field.name) = some field := by
  induction declared with
  | nil => cases inside
  | cons first rest earlier =>
    rw [List.map_cons, List.nodup_cons] at distinct
    rw [List.find?_cons]
    rcases List.mem_cons.mp inside with rfl | later
    · simp
    · have different : first.name ≠ field.name := fun same =>
        distinct.1 (same ▸ List.mem_map_of_mem later)
      simpa [different] using earlier distinct.2 later

theorem not_resolved_of_default_eq_none {declared : List CompiledField} {field : CompiledField}
    (distinct : (declared.map CompiledField.name).Nodup) (inside : field ∈ declared)
    (omitted : field.name ∉ supplied) (without : field.default = none) :
    ¬Resolved supplied declared field.name := by
  rintro (given | ⟨other, declaredToo, same, given⟩)
  · exact omitted given
  · have first := find?_eq_some_of_nodup distinct inside
    rw [← same, find?_eq_some_of_nodup distinct declaredToo] at first
    obtain rfl := Option.some.inj first
    simp [without] at given

/-- When the order of declaration follows the reads, the completed row solves all defaults. -/
theorem solves_of_applyDefaults {collection : CompiledCollection}
    (distinct : (collection.fields.map CompiledField.name).Nodup)
    (follows : Respects supplied collection.fields)
    (done : applyDefaults collection ctx rows generation supplied = .ok completed) :
    Solves ctx rows generation supplied collection.fields completed := by
  obtain ⟨resolved, passed, filled⟩ := applyDefaults_ok.mp done
  obtain ⟨kept, known⟩ := resolveDefaults_fields passed
  have unresolved {name : String} (outside : ¬Resolved supplied collection.fields name) :
      completed[name]? = (collection.fields.find? fun field => field.name = name).map
        fun field => field.ty.absentValue := by
    rw [← filled, getElem?_fillAbsent_of_not_mem fun inside => outside ((known name).mp inside)]
  constructor
  case kept =>
    intro name inside
    have present : name ∈ resolved := (known name).mpr (.inl inside)
    rw [← filled, getElem?_fillAbsent_of_mem _ present, kept name inside]
  case given =>
    intro field inside omitted default given
    obtain ⟨before, after, place⟩ := List.append_of_mem inside
    obtain ⟨provisional, value, agrees, evaluated, found⟩ :=
      applyDefaults_turn distinct done place omitted given
    refine ⟨value, ?_, found⟩
    rw [← evaluated, ← agrees.evaluate_eq ?_ (follows before field after place omitted default given)]
    rintro name ⟨omittedToo, unset⟩ _
    have outside : ¬Resolved supplied collection.fields name := by
      rintro (given | ⟨other, declared, same, given⟩)
      · exact omittedToo given
      · simp [(unset other declared same).1] at given
    rw [unresolved outside]
    cases first : collection.fields.find? fun field => field.name = name with
    | none => rfl
    | some other =>
      have same : other.name = name := by simpa using List.find?_some first
      simp [(unset other (List.mem_of_find?_eq_some first) same).2]
  case absent =>
    intro field inside omitted without
    rw [unresolved (not_resolved_of_default_eq_none distinct inside omitted without),
      find?_eq_some_of_nodup distinct inside]
    rfl
  case known =>
    intro name inside
    by_cases resolvedToo : Resolved supplied collection.fields name
    · rcases resolvedToo with given | ⟨field, declared, same, _⟩
      · exact .inl given
      · exact .inr ⟨field, declared, same⟩
    · right
      rw [Std.ExtTreeMap.mem_iff_isSome_getElem?, unresolved resolvedToo, Option.isSome_map,
        List.find?_isSome] at inside
      simpa using inside

/-- A field that stays without a value reads as none in a solution. -/
theorem Solves.getD_eq_none {declared : List CompiledField}
    (solved : Solves ctx rows generation supplied declared completed) {name : String}
    (omitted : name ∉ supplied) (unset : Unset declared name) : completed[name]?.getD .none = .none := by
  by_cases inside : name ∈ completed
  · obtain ⟨field, declaredToo, same⟩ := (solved.known name inside).resolve_left omitted
    obtain ⟨without, absent⟩ := unset field declaredToo same
    have found := solved.absent field declaredToo (same.symm ▸ omitted) without
    rw [same, absent] at found
    rw [found]
    rfl
  · rw [Std.ExtTreeMap.getElem?_eq_none inside]
    rfl

theorem Solves.mem_of_resolved {declared : List CompiledField}
    (solved : Solves ctx rows generation supplied declared completed) {name : String}
    (resolved : Resolved supplied declared name) : name ∈ completed := by
  rw [Std.ExtTreeMap.mem_iff_isSome_getElem?]
  by_cases inside : name ∈ supplied
  · rw [solved.kept name inside, ← Std.ExtTreeMap.mem_iff_isSome_getElem?]
    exact inside
  · obtain ⟨field, declaredToo, rfl, given⟩ := resolved.resolve_left inside
    obtain ⟨default, given⟩ := Option.isSome_iff_exists.mp given
    obtain ⟨value, _, found⟩ := solved.given field declaredToo inside default given
    simp [found]

theorem resolved_snoc {before : List CompiledField} {field : CompiledField} {name : String} :
    Resolved supplied (before ++ [field]) name ↔
      Resolved supplied before name ∨ field.name = name ∧ field.default.isSome = true := by
  simp only [Resolved, List.mem_append, List.mem_singleton]
  constructor
  · rintro (inside | ⟨other, earlier | rfl, rest⟩)
    · exact .inl (.inl inside)
    · exact .inl (.inr ⟨other, earlier, rest⟩)
    · exact .inr rest
  · rintro ((inside | ⟨other, earlier, rest⟩) | rest)
    · exact .inl inside
    · exact .inr ⟨other, .inl earlier, rest⟩
    · exact .inr ⟨field, .inr rfl, rest⟩

theorem Provisional.mem_iff {declared before after : List CompiledField} {provisional : FieldMap}
    (agrees : Provisional supplied before completed provisional)
    (solved : Solves ctx rows generation supplied declared completed) (place : declared = before ++ after)
    {name : String} : name ∈ provisional ↔ Resolved supplied before name := by
  constructor
  · intro inside
    by_contra outside
    rw [Std.ExtTreeMap.mem_iff_isSome_getElem?, agrees.later name outside] at inside
    cases inside
  · intro resolved
    have whole : Resolved supplied declared name := resolved.imp id fun earlier => by
      obtain ⟨field, inside, rest⟩ := earlier
      exact ⟨field, place ▸ List.mem_append_left after inside, rest⟩
    have present := solved.mem_of_resolved whole
    rw [Std.ExtTreeMap.mem_iff_isSome_getElem?] at present ⊢
    rw [agrees.earlier name resolved]
    exact present

/-- The pass over the rest of the declarations goes through when a row solves all defaults. The induction
carries that the fields so far agree with this row. -/
theorem resolveDefaults_of_solves {declared before rest : List CompiledField} {provisional : FieldMap}
    (follows : Respects supplied declared)
    (solved : Solves ctx rows generation supplied declared completed) (place : declared = before ++ rest)
    (agrees : Provisional supplied before completed provisional) :
    ∃ resolved, resolveDefaults ctx rows generation rest provisional = .ok resolved ∧
      Provisional supplied declared completed resolved := by
  induction rest generalizing before provisional with
  | nil =>
    rw [List.append_nil] at place
    exact ⟨provisional, rfl, place ▸ agrees⟩
  | cons field rest further =>
    have present (name : String) : name ∈ provisional ↔ Resolved supplied before name :=
      agrees.mem_iff solved place
    have next : declared = (before ++ [field]) ++ rest := by simp [place]
    by_cases skipped : field.name ∈ provisional ∨ field.default = none
    · have agrees : Provisional supplied (before ++ [field]) completed provisional := by
        have same {name : String} :
            Resolved supplied (before ++ [field]) name ↔ Resolved supplied before name := by
          rw [resolved_snoc, or_iff_left_iff_imp]
          rintro ⟨rfl, given⟩
          exact (present _).mp (skipped.resolve_right fun without => by simp [without] at given)
        exact ⟨fun name inside => agrees.earlier name (same.mp inside),
          fun name outside => agrees.later name fun inside => outside (same.mpr inside)⟩
      obtain ⟨resolved, passed, whole⟩ := further next agrees
      exact ⟨resolved, resolveDefaults_cons.mpr (.inl ⟨skipped, passed⟩), whole⟩
    · obtain ⟨fresh, given⟩ := not_or.mp skipped
      obtain ⟨default, given⟩ := Option.ne_none_iff_exists'.mp given
      have omitted : field.name ∉ supplied := fun inside => fresh ((present _).mpr (.inl inside))
      obtain ⟨value, evaluated, found⟩ := solved.given field (by simp [place]) omitted default given
      rw [← agrees.evaluate_eq (fun name unset _ => solved.getD_eq_none unset.1 unset.2)
        (follows before field rest place omitted default given)] at evaluated
      have agrees : Provisional supplied (before ++ [field]) completed
          (provisional.insert field.name value) := by
        constructor
        · intro name inside
          by_cases same : name = field.name
          · rw [same, found, Std.ExtTreeMap.getElem?_insert_self]
          · rw [getElem?_insert_of_ne same]
            exact agrees.earlier name ((resolved_snoc.mp inside).resolve_right fun last =>
              same last.1.symm)
        · intro name outside
          rw [resolved_snoc, not_or] at outside
          have different : name ≠ field.name := fun same => outside.2 ⟨same.symm, by simp [given]⟩
          rw [getElem?_insert_of_ne different]
          exact agrees.later name outside.1
      obtain ⟨resolved, passed, whole⟩ := further next agrees
      exact ⟨resolved, resolveDefaults_cons.mpr (.inr ⟨default, value, fresh, given, evaluated, passed⟩),
        whole⟩

/-- A row that solves all defaults is the result when the order of declaration follows the reads. -/
theorem applyDefaults_of_solves {collection : CompiledCollection} (follows : Respects supplied collection.fields)
    (solved : Solves ctx rows generation supplied collection.fields completed) :
    applyDefaults collection ctx rows generation supplied = .ok completed := by
  have start : Provisional supplied [] completed supplied := by
    constructor
    · intro name inside
      simp only [Resolved, List.not_mem_nil, false_and, exists_false, or_false] at inside
      exact (solved.kept name inside).symm
    · exact fun name outside => Std.ExtTreeMap.getElem?_eq_none fun inside => outside (.inl inside)
  obtain ⟨resolved, passed, agrees⟩ := resolveDefaults_of_solves follows solved rfl start
  refine applyDefaults_ok.mpr ⟨resolved, passed, Std.ExtTreeMap.ext_getElem? fun name => ?_⟩
  have present : name ∈ resolved ↔ Resolved supplied collection.fields name :=
    agrees.mem_iff solved (List.append_nil _).symm
  by_cases inside : Resolved supplied collection.fields name
  · rw [getElem?_fillAbsent_of_mem _ (present.mpr inside), agrees.earlier name inside]
  · rw [getElem?_fillAbsent_of_not_mem fun there => inside (present.mp there)]
    cases first : collection.fields.find? fun field => field.name = name with
    | none =>
      refine (Std.ExtTreeMap.getElem?_eq_none fun there => ?_).symm
      rcases solved.known name there with given | ⟨field, declared, same⟩
      · exact inside (.inl given)
      · simp only [List.find?_eq_none, decide_eq_true_eq] at first
        exact first field declared same
    | some field =>
      obtain rfl : field.name = name := by simpa using List.find?_some first
      have declared := List.mem_of_find?_eq_some first
      refine (solved.absent field declared (fun given => inside (.inl given)) ?_).symm
      by_contra given
      exact inside (.inr ⟨field, declared, rfl, Option.isSome_iff_ne_none.mpr given⟩)

theorem Solves.perm {first second : List CompiledField}
    (solved : Solves ctx rows generation supplied first completed) (same : first.Perm second) :
    Solves ctx rows generation supplied second completed where
  kept := solved.kept
  given field inside := solved.given field (same.mem_iff.mpr inside)
  absent field inside := solved.absent field (same.mem_iff.mpr inside)
  known name inside := by
    rcases solved.known name inside with given | ⟨field, declared, found⟩
    · exact .inl given
    · exact .inr ⟨field, same.mem_iff.mp declared, found⟩

/-- Each omitted default is evaluated on its provisional row. When the order of declaration follows the reads,
the completed row is the one solution of all defaults, and another such order has the same results. -/
theorem CompiledCollection.applyDefaults_solution (collection : CompiledCollection)
    (distinct : (collection.fields.map CompiledField.name).Nodup) (supplied : FieldMap) :
    (∀ ctx rows generation completed,
      applyDefaults collection ctx rows generation supplied = .ok completed →
        ∀ before field after default, collection.fields = before ++ field :: after → field.name ∉ supplied →
          field.default = some default → ∃ provisional value,
            Provisional supplied before completed provisional ∧
              default.evaluate ctx rows provisional generation = .ok value ∧
                completed[field.name]? = some value) ∧
      (Respects supplied collection.fields → ∀ ctx rows generation completed,
        applyDefaults collection ctx rows generation supplied = .ok completed ↔
          Solves ctx rows generation supplied collection.fields completed) ∧
      ∀ other : CompiledCollection, other.fields.Perm collection.fields →
        Respects supplied collection.fields → Respects supplied other.fields →
          ∀ ctx rows generation completed,
            applyDefaults other ctx rows generation supplied = .ok completed ↔
              applyDefaults collection ctx rows generation supplied = .ok completed := by
  have solution {declared : CompiledCollection} (distinct : (declared.fields.map CompiledField.name).Nodup)
      (follows : Respects supplied declared.fields) (ctx rows generation completed) :
      applyDefaults declared ctx rows generation supplied = .ok completed ↔
        Solves ctx rows generation supplied declared.fields completed :=
    ⟨solves_of_applyDefaults distinct follows, applyDefaults_of_solves follows⟩
  refine ⟨fun ctx rows generation completed done before field after default place omitted given =>
    applyDefaults_turn distinct done place omitted given, solution distinct, ?_⟩
  intro other same follows followsToo ctx rows generation completed
  rw [solution distinct follows, solution ((same.map _).nodup_iff.mpr distinct) followsToo]
  exact ⟨fun solved => solved.perm same, fun solved => solved.perm same.symm⟩

end Solution

section Sample

/-- A field whose default reads a sibling. -/
def readingField : CompiledField :=
  ⟨"a", .optional .bool, none, none, some (.expr fun _ _ fields _ => .ok (fields["b"]?.getD .none)), none, []⟩

/-- A field with a literal default. -/
def literalField : CompiledField :=
  ⟨"b", .bool, none, none, some (.literal (.bool true)), none, []⟩

/-- A collection of the two fields in some order. -/
def readingCollection (fields : List CompiledField) : CompiledCollection :=
  ⟨"rows", ["id"], [], fields, [], [], []⟩

/-- The declarations of the two fields for the check of cycles. -/
def readingDeclarations : List DeclaredField :=
  [⟨"a", [.field .current ⟨"b", false⟩]⟩, ⟨"b", [.bool true]⟩]

theorem literalFirst_respects : Respects ∅ [literalField, readingField] := by
  intro before field after place _ default given
  rcases List.cons_eq_append_iff.mp place with ⟨rfl, same⟩ | ⟨rest, rfl, same⟩
  · cases same
    obtain rfl := Option.some.inj given
    exact fun _ _ _ _ _ _ => rfl
  · rcases List.cons_eq_append_iff.mp same with ⟨rfl, same⟩ | ⟨rest, rfl, same⟩
    · cases same
      obtain rfl := Option.some.inj given
      intro _ _ _ first second agrees
      exact congrArg Except.ok (agrees "b" (.inl (.inr ⟨literalField, by simp, rfl, rfl⟩)))
    · simp at same

/-- The context of the sample evaluations. -/
def sampleContext : EvalCtx :=
  ⟨⟨⟨0, Signed.zero_low, Signed.zero_high⟩, .seconds⟩, ∅, []⟩

/-- With the literal first, the reading default follows it, and the completed row is the solution. -/
theorem literalFirst_solution :
    applyDefaults (readingCollection [literalField, readingField]) sampleContext ∅ 0 ∅ =
        .ok (((∅ : FieldMap).insert "b" (.bool true)).insert "a" (.bool true)) ↔
      Solves sampleContext ∅ 0 ∅ [literalField, readingField]
        (((∅ : FieldMap).insert "b" (.bool true)).insert "a" (.bool true)) :=
  ((readingCollection [literalField, readingField]).applyDefaults_solution (by decide) ∅).2.1
    literalFirst_respects sampleContext ∅ 0 _

/-- The check accepts the reading field before the literal one. Its default is then evaluated before the literal
is there. -/
theorem readingFirst_unsolved :
    detectCycles readingDeclarations = none ∧
      ∀ ctx rows generation, ∃ completed,
        applyDefaults (readingCollection [readingField, literalField]) ctx rows generation ∅ = .ok completed ∧
          ¬Solves ctx rows generation ∅ [readingField, literalField] completed := by
  refine ⟨by decide, ?_⟩
  intro ctx rows generation
  have passed : resolveDefaults ctx rows generation [readingField, literalField] ∅ =
      .ok (((∅ : FieldMap).insert "a" .none).insert "b" (.bool true)) := by
    refine resolveDefaults_cons.mpr (.inr ⟨_, .none, by simp, rfl, ?_, ?_⟩)
    · simp [CompiledDefault.evaluate]
    · have fresh : "b" ∉ (∅ : FieldMap).insert "a" .none := by
        simp [Std.LawfulEqCmp.compare_eq_iff_eq]
      exact resolveDefaults_cons.mpr (.inr ⟨_, .bool true, fresh, rfl, rfl, rfl⟩)
  refine ⟨_, applyDefaults_ok.mpr ⟨_, passed, rfl⟩, fun solved => ?_⟩
  obtain ⟨value, evaluated, found⟩ := solved.given readingField (by simp) (by simp) _ rfl
  rw [getElem?_fillAbsent_of_mem _ (by simp [readingField])] at found
  have read : (fillAbsent (readingCollection [readingField, literalField]).fields
      (((∅ : FieldMap).insert "a" .none).insert "b" (.bool true)))["b"]? = some (.bool true) := by
    rw [getElem?_fillAbsent_of_mem _ (by simp), Std.ExtTreeMap.getElem?_insert_self]
  have other : (((∅ : FieldMap).insert "a" .none).insert "b" (.bool true))["a"]? = some .none := by
    rw [getElem?_insert_of_ne (by decide), Std.ExtTreeMap.getElem?_insert_self]
  have same := Except.ok.inj evaluated
  rw [read, Option.getD_some] at same
  rw [← same, show readingField.name = "a" from rfl, other] at found
  simp at found

end Sample

end Liasse.Runtime

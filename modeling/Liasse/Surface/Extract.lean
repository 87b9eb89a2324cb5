/-
This file models the erasure of rows by a surface call and proves when its extract holds each removed row
once, under an occurrence of its own.
-/

import Liasse.Codes.Separation
import Liasse.Codes.Table
import Liasse.Expr.Tree
import Liasse.Modules.Routing
import Liasse.Store.Memory
import Liasse.Surface.Pipeline
import Liasse.Wire.Sample

namespace Liasse.Expr.RowIdPart

open Liasse.Wire (Libraries)

/-- The text of a part. A value that has no key text is rendered as its canonical JSON text. -/
def render (libraries : Libraries) : RowIdPart → String
  | .key value =>
    match Modules.keyText libraries value with
    | .ok text => text
    | .error _ => (Wire.toWire libraries value).toText
  | .occurrence index => Wire.integerText index

/-- The letter of the kind of a part. -/
def tag : RowIdPart → Char
  | .key _ => 'k'
  | .occurrence _ => 'o'

/-- The characters of a part under its letter. -/
def tagged (libraries : Libraries) (part : RowIdPart) : List Char :=
  part.tag :: (part.render libraries).toList

end Liasse.Expr.RowIdPart

namespace Liasse.Surface

open Codes Live
open Liasse.Expr (RowIdPart)

section Identities

open Liasse.Wire (Libraries)

/-- The record separator. -/
def separator : Char := Char.ofNat 0x1e

/-- The unit separator. -/
def unitSeparator : Char := Char.ofNat 0x1f

/-- The occurrence of a row writes the parts of its identity, each under its letter and closed by a
separator. -/
def occurrenceId (libraries : Libraries) (parts : List RowIdPart) : String :=
  parts.foldl (fun text part => (text.push part.tag ++ part.render libraries).push separator) ""

end Identities

section Retained

/-- The retained content of an occurrence is its payload, or a stub once it is scrubbed. -/
inductive LeafContent
  | payload (value : Value)
  | stub (hash : String)

/-- Retained history by occurrence. -/
abbrev Erasure := Std.ExtTreeMap String LeafContent compareText

/-- The scrubbed payloads and the hash of their content. -/
structure Extract where
  hash : String
  payloads : Std.ExtTreeMap String Value compareText

/-- The reason why an erasure or a reinsertion does not proceed. -/
inductive DeleteError
  | noPayload (occurrence : String)
  | extractHashMismatch
  | stubMismatch (occurrence : String)

variable (libraries : Wire.Libraries) (digest : List UInt8 → String)

/-- The hash of a payload is the digest of its canonical JSON text. -/
def leafHash (payload : Value) : String :=
  digest (textBytes (Wire.toWire libraries payload).toText)

/-- The hash of the content of an extract. -/
def extractHash (payloads : Std.ExtTreeMap String Value compareText) : String :=
  digest (textBytes (payloads.toList.foldl (fun material entry =>
    ((material ++ entry.1).push unitSeparator ++ leafHash libraries digest entry.2).push separator) ""))

namespace Erasure

/-- A payload is retained for an occurrence. -/
def record (history : Erasure) (occurrence : String) (payload : Value) : Erasure :=
  history.insert occurrence (.payload payload)

/-- The payloads of some occurrences. One without a payload ends the collection. -/
def collect (history : Erasure) (occurrences : List String) :
    Except DeleteError (Std.ExtTreeMap String Value compareText) :=
  occurrences.foldlM (fun payloads (occurrence : String) =>
    match history[occurrence]? with
    | some (.payload value) => .ok (payloads.insert occurrence value)
    | _ => .error (.noPayload occurrence)) ∅

/-- Some occurrences are scrubbed to stubs, and their payloads become an extract. -/
def erase (history : Erasure) (occurrences : List String) : Except DeleteError (Extract × Erasure) := do
  let payloads ← history.collect occurrences
  pure (⟨extractHash libraries digest payloads, payloads⟩,
    payloads.toList.foldl (fun history entry =>
      history.insert entry.1 (.stub (leafHash libraries digest entry.2))) history)

end Erasure

end Retained

section Extraction

variable {rt : Runtime} [DecidableEq rt.RowId] (libraries : Wire.Libraries) (digest : List UInt8 → String)
  (parts : rt.RowId → List RowIdPart)

/-- The fields of a row as a struct. -/
def structPayload (row : ViewRow rt.RowId Value) : Value :=
  Wire.structOf row.fields

omit [DecidableEq rt.RowId] in
/-- The occurrence of a row. -/
def occurrenceOf (row : ViewRow rt.RowId Value) : String :=
  occurrenceId libraries (parts row.id)

/-- The extract of the rows before a removal that no row after it continues. -/
def extractOf (before after : List (ViewRow rt.RowId Value)) : Option Extract :=
  let surviving := after.map ViewRow.id
  let recorded := before.foldl (fun (state : Erasure × List String) row =>
    if surviving.contains row.id then state
    else (state.1.record (occurrenceOf libraries parts row) (structPayload row),
      state.2 ++ [occurrenceOf libraries parts row])) (∅, [])
  if recorded.2.isEmpty then none
  else
    match recorded.1.erase libraries digest recorded.2 with
    | .ok (extract, _) => some extract
    | .error _ => none

namespace SurfaceHost

/-- The view of the surface that an address names. -/
def surfaceView (host : SurfaceHost rt) (address : SurfaceAddress) : Except Denial String :=
  match address.authority with
  | .publicSurface => host.router.publicView { address with call := none }
  | .role role => host.router.roleView role { address with call := none }

/-- The rows of the view of a surface, if it can be read at the head. -/
def viewRows (host : SurfaceHost rt) (address : SurfaceAddress) : Option (List (ViewRow rt.RowId Value)) :=
  match host.surfaceView address with
  | .error _ => none
  | .ok view =>
    match rt.viewAtHead host.engine view with
    | .ok (some result) => some result.viewRows
    | _ => none

/-- A view that cannot be read is observed as one without rows. -/
def surfaceViewSnapshot (host : SurfaceHost rt) (address : SurfaceAddress) : List (ViewRow rt.RowId Value) :=
  (host.viewRows address).getD []

end SurfaceHost

/-- The outcome of the routed removal and the extract of the rows that it took out of the view. -/
structure EraseOutcome (Response : Type) where
  outcome : SurfaceOutcome Response
  extract : Option Extract

variable [Ord rt.RowId] [DecidableEq Value]

/-- The erasure of rows by a call of a surface. -/
def SurfaceHost.erase (host : SurfaceHost rt) (id : String) (call : SurfaceCall) :
    SurfaceHost rt × Except (SurfaceError rt.Fault) (EraseOutcome rt.Response) :=
  let before := host.surfaceViewSnapshot call.address
  match host.call id call with
  | (next, .error error) => (next, .error error)
  | (next, .ok outcome) =>
    match outcome with
    | .committed _ _ _ =>
      (next, .ok ⟨outcome,
        extractOf libraries digest parts before (next.surfaceViewSnapshot call.address)⟩)
    | _ => (next, .ok ⟨outcome, none⟩)

end Extraction

section Occurrences

variable {libraries : Wire.Libraries}

/-- The pieces into which the separators cut the parts of an identity. -/
def pieces (libraries : Wire.Libraries) (parts : List RowIdPart) : List (List Char) :=
  parts.flatMap fun part => (part.tagged libraries).splitOn separator

/-- Two identities render alike when their parts have the same pieces. -/
def Alike (libraries : Wire.Libraries) (first second : List RowIdPart) : Prop :=
  pieces libraries first = pieces libraries second

theorem toList_occurrenceId (parts : List RowIdPart) :
    (occurrenceId libraries parts).toList =
      parts.flatMap fun part => part.tagged libraries ++ [separator] := by
  have fold (text : String) : (parts.foldl (fun text part =>
      (text.push part.tag ++ part.render libraries).push separator) text).toList =
        text.toList ++ parts.flatMap fun part => part.tagged libraries ++ [separator] := by
    induction parts generalizing text with
    | nil => exact (List.append_nil _).symm
    | cons part rest earlier =>
      rw [List.foldl_cons, earlier, List.flatMap_cons, RowIdPart.tagged]
      simp only [String.toList_push, String.toList_append, List.append_assoc, List.cons_append,
        List.nil_append]
  exact fold ""

/-- Identities share an occurrence exactly when they render alike. -/
theorem occurrenceId_eq_iff {first second : List RowIdPart} :
    occurrenceId libraries first = occurrenceId libraries second ↔ Alike libraries first second := by
  rw [← String.toList_inj, toList_occurrenceId, toList_occurrenceId]
  exact flatMap_closed_eq_iff separator (RowIdPart.tagged libraries) first second

end Occurrences

section Collection

variable {libraries : Wire.Libraries} {digest : List UInt8 → String}

/-- The payloads of occurrences with a payload are collected. -/
theorem collect_spec {history : Erasure} {occurrences : List String}
    (retained : ∀ occurrence ∈ occurrences, ∃ value, history[occurrence]? = some (.payload value)) :
    ∃ payloads, history.collect occurrences = .ok payloads ∧ ∀ occurrence value,
      payloads[occurrence]? = some value ↔
        occurrence ∈ occurrences ∧ history[occurrence]? = some (.payload value) := by
  have fold (payloads : Std.ExtTreeMap String Value compareText) : ∃ collected,
      occurrences.foldlM (fun payloads (occurrence : String) =>
        match history[occurrence]? with
        | some (.payload value) => Except.ok (payloads.insert occurrence value)
        | _ => .error (DeleteError.noPayload occurrence)) payloads = .ok collected ∧ ∀ occurrence value,
          collected[occurrence]? = some value ↔
            occurrence ∈ occurrences ∧ history[occurrence]? = some (.payload value) ∨
              occurrence ∉ occurrences ∧ payloads[occurrence]? = some value := by
    induction occurrences generalizing payloads with
    | nil => exact ⟨payloads, rfl, fun occurrence value => by simp⟩
    | cons first rest earlier =>
      obtain ⟨⟨payload, found⟩, later⟩ := List.forall_mem_cons.mp retained
      obtain ⟨collected, done, entries⟩ := earlier later (payloads.insert first payload)
      refine ⟨collected, ?_, fun occurrence value => ?_⟩
      · rw [List.foldlM_cons, found, ok_bind, done]
      · rw [entries, List.mem_cons]
        by_cases same : occurrence = first
        · subst same
          rw [Std.ExtTreeMap.getElem?_insert_self, found]
          simp only [true_or, true_and, not_true_eq_false, false_and, or_false, Option.some.injEq,
            LeafContent.payload.injEq]
          exact ⟨fun either => either.elim And.right And.right,
            fun equal => (em (occurrence ∈ rest)).imp (⟨·, equal⟩) (⟨·, equal⟩)⟩
        · rw [getElem?_insert_of_ne same]
          simp only [same, false_or]
  obtain ⟨collected, done, entries⟩ := fold ∅
  refine ⟨collected, done, fun occurrence value => ?_⟩
  rw [entries, Std.ExtTreeMap.getElem?_empty]
  simp

/-- The retained content of recorded rows is the payload of one of them. -/
theorem foldl_record {α : Type} (name : α → String) (payload : α → Value) (recorded : List α) :
    (∀ (occurrence : String) content,
      (recorded.foldl (fun (history : Erasure) row =>
        history.record (name row) (payload row)) ∅)[occurrence]? = some content →
          ∃ row ∈ recorded, name row = occurrence ∧ content = .payload (payload row)) ∧
      ∀ row ∈ recorded, ∃ content,
        (recorded.foldl (fun (history : Erasure) row =>
          history.record (name row) (payload row)) ∅)[name row]? = some content := by
  induction recorded using List.reverseRecOn with
  | nil =>
    refine ⟨fun occurrence content found => ?_, fun row inside => absurd inside List.not_mem_nil⟩
    rw [List.foldl_nil, Std.ExtTreeMap.getElem?_empty] at found
    cases found
  | append_singleton recorded last earlier =>
    obtain ⟨contents, present⟩ := earlier
    rw [List.foldl_append]
    refine ⟨fun occurrence content found => ?_, fun row inside => ?_⟩
    · rw [List.foldl_cons, List.foldl_nil, Erasure.record] at found
      by_cases same : occurrence = name last
      · rw [same, Std.ExtTreeMap.getElem?_insert_self] at found
        exact ⟨last, List.mem_append_right _ List.mem_cons_self, same.symm,
          (Option.some.inj found).symm⟩
      · rw [getElem?_insert_of_ne same] at found
        obtain ⟨row, inside, named, equal⟩ := contents occurrence content found
        exact ⟨row, List.mem_append_left _ inside, named, equal⟩
    · rw [List.foldl_cons, List.foldl_nil, Erasure.record]
      by_cases same : name row = name last
      · rw [same, Std.ExtTreeMap.getElem?_insert_self]
        exact ⟨_, rfl⟩
      · rw [getElem?_insert_of_ne same]
        rcases List.mem_append.mp inside with before | final
        · exact present row before
        · exact absurd (congrArg name (List.mem_singleton.mp final)) same

end Collection

section Completeness

variable {rt : Runtime} [DecidableEq rt.RowId] (libraries : Wire.Libraries) (digest : List UInt8 → String)
  (parts : rt.RowId → List RowIdPart)

/-- The rows before a removal that no row after it continues. -/
def removedRows (before after : List (ViewRow rt.RowId Value)) : List (ViewRow rt.RowId Value) :=
  before.filter fun row => !(after.map ViewRow.id).contains row.id

/-- An extract holds one occurrence for each of some rows, with its payload, and no other. -/
def Extracts (removed : List (ViewRow rt.RowId Value)) : Option Extract → Prop
  | none => removed = []
  | some extract =>
    removed ≠ [] ∧ (removed.map (occurrenceOf libraries parts)).Nodup ∧
      ∀ (occurrence : String) payload, extract.payloads[occurrence]? = some payload ↔
        ∃ row ∈ removed, occurrenceOf libraries parts row = occurrence ∧ structPayload row = payload

omit [DecidableEq rt.RowId] in
variable {libraries parts} in
/-- The occurrences of extracted rows differ. -/
theorem Extracts.nodup {removed : List (ViewRow rt.RowId Value)} {extract : Option Extract}
    (extracts : Extracts libraries parts removed extract) :
    (removed.map (occurrenceOf libraries parts)).Nodup := by
  cases extract with
  | none =>
    have empty : removed = [] := extracts
    rw [empty]
    exact .nil
  | some extract => exact extracts.2.1

/-- The loop records the removed rows in their order. -/
theorem foldl_removed (before : List (ViewRow rt.RowId Value)) (surviving : List rt.RowId)
    (state : Erasure × List String) :
    before.foldl (fun (state : Erasure × List String) row =>
      if surviving.contains row.id then state
      else (state.1.record (occurrenceOf libraries parts row) (structPayload row),
        state.2 ++ [occurrenceOf libraries parts row])) state =
      ((before.filter fun row => !surviving.contains row.id).foldl (fun (history : Erasure) row =>
        history.record (occurrenceOf libraries parts row) (structPayload row)) state.1,
        state.2 ++
          (before.filter fun row => !surviving.contains row.id).map (occurrenceOf libraries parts)) := by
  induction before generalizing state with
  | nil => rw [List.foldl_nil, List.filter_nil, List.foldl_nil, List.map_nil, List.append_nil]
  | cons row rest earlier =>
    rw [List.foldl_cons, earlier, List.filter_cons]
    cases survives : surviving.contains row.id with
    | true => simp
    | false => simp

/-- The extract of some rows is the erasure of all occurrences that they record. -/
theorem extractOf_eq (before after : List (ViewRow rt.RowId Value)) :
    extractOf libraries digest parts before after =
      if (removedRows before after).isEmpty then none
      else
        (Erasure.erase libraries digest
          ((removedRows before after).foldl (fun (history : Erasure) row =>
            history.record (occurrenceOf libraries parts row) (structPayload row)) ∅)
          ((removedRows before after).map (occurrenceOf libraries parts))).toOption.map Prod.fst := by
  rw [extractOf, foldl_removed libraries parts, List.nil_append, ← removedRows, List.isEmpty_map]
  split
  · rfl
  · split
    · next done => rw [done]; rfl
    · next failed => rw [failed]; rfl

theorem extractOf_none {before after : List (ViewRow rt.RowId Value)}
    (kept : removedRows before after = []) : extractOf libraries digest parts before after = none := by
  rw [extractOf_eq libraries digest parts, kept]
  rfl

/-- The payloads of an extract are the ones of the removed rows when their occurrences differ. -/
theorem extractOf_some {before after : List (ViewRow rt.RowId Value)}
    (removes : removedRows before after ≠ []) :
    ∃ extract, extractOf libraries digest parts before after = some extract ∧
      (((removedRows before after).map (occurrenceOf libraries parts)).Nodup →
        ∀ (occurrence : String) payload, extract.payloads[occurrence]? = some payload ↔
          ∃ row ∈ removedRows before after,
            occurrenceOf libraries parts row = occurrence ∧ structPayload row = payload) := by
  rw [extractOf_eq libraries digest parts]
  generalize removedRows before after = removed at removes ⊢
  obtain ⟨contents, present⟩ := foldl_record (occurrenceOf libraries parts) structPayload removed
  generalize removed.foldl (fun (history : Erasure) row =>
    history.record (occurrenceOf libraries parts row) (structPayload row)) ∅ = history
      at contents present ⊢
  have retained : ∀ occurrence ∈ removed.map (occurrenceOf libraries parts),
      ∃ value, history[occurrence]? = some (.payload value) := by
    intro occurrence inside
    obtain ⟨row, listed, rfl⟩ := List.mem_map.mp inside
    obtain ⟨content, found⟩ := present row listed
    obtain ⟨source, _, _, rfl⟩ := contents _ content found
    exact ⟨_, found⟩
  obtain ⟨payloads, collected, entries⟩ := collect_spec retained
  have full : ¬ removed.isEmpty = true := fun empty => removes (List.isEmpty_iff.mp empty)
  rw [if_neg full, Erasure.erase, collected]
  refine ⟨_, rfl, fun nodup occurrence payload => ?_⟩
  rw [entries]
  constructor
  · rintro ⟨_, found⟩
    obtain ⟨row, listed, named, equal⟩ := contents occurrence _ found
    exact ⟨row, listed, named, (LeafContent.payload.inj equal).symm⟩
  · rintro ⟨row, listed, rfl, rfl⟩
    refine ⟨List.mem_map_of_mem listed, ?_⟩
    obtain ⟨content, found⟩ := present row listed
    obtain ⟨source, inside, named, rfl⟩ := contents _ content found
    rwa [List.inj_on_of_nodup_map nodup inside listed named] at found

/-- The extract of two snapshots holds each removed row once exactly when no two of them render alike. -/
theorem extracts_extractOf (before after : List (ViewRow rt.RowId Value)) :
    Extracts libraries parts (removedRows before after) (extractOf libraries digest parts before after) ↔
      (removedRows before after).Pairwise fun first second =>
        ¬ Alike libraries (parts first.id) (parts second.id) := by
  have distinct : ((removedRows before after).map (occurrenceOf libraries parts)).Nodup ↔
      (removedRows before after).Pairwise fun first second =>
        ¬ Alike libraries (parts first.id) (parts second.id) := by
    rw [List.Nodup, List.pairwise_map]
    exact ⟨fun pairs => pairs.imp fun different alike => different (occurrenceId_eq_iff.mpr alike),
      fun pairs => pairs.imp fun different same => different (occurrenceId_eq_iff.mp same)⟩
  rw [← distinct]
  by_cases kept : removedRows before after = []
  · rw [extractOf_none libraries digest parts kept, kept]
    exact iff_of_true rfl .nil
  · obtain ⟨extract, made, payloads⟩ := extractOf_some libraries digest parts kept
    rw [made]
    exact ⟨Extracts.nodup, fun nodup => ⟨kept, nodup, payloads nodup⟩⟩

namespace SurfaceHost

/-- The rows that are in the view of a surface on one host and not on the next one, as far as both can be
read. -/
def removedBetween (host next : SurfaceHost rt) (address : SurfaceAddress) : List (ViewRow rt.RowId Value) :=
  match host.viewRows address, next.viewRows address with
  | some before, some after => removedRows before after
  | _, _ => []

variable [Ord rt.RowId] [DecidableEq Value]

/-- A committed call erases with the extract of the two snapshots. -/
theorem erase_committed {host next : SurfaceHost rt} {id : String} {call : SurfaceCall}
    {frontier commit : Nat} {response : Option rt.Response}
    (committed : host.call id call = (next, .ok (.committed frontier commit response))) :
    host.erase libraries digest parts id call =
      (next, .ok ⟨.committed frontier commit response, extractOf libraries digest parts
        (host.surfaceViewSnapshot call.address) (next.surfaceViewSnapshot call.address)⟩) := by
  rw [erase, committed]

/-- The extract of a committed erasure holds each removed row once exactly when no two removed rows render
alike, and the view can be read after the removal or had no row before it. -/
theorem extracts_iff {host next : SurfaceHost rt} {id : String} {call : SurfaceCall} {frontier commit : Nat}
    {response : Option rt.Response}
    (committed : host.call id call = (next, .ok (.committed frontier commit response))) :
    (∃ extract, host.erase libraries digest parts id call =
        (next, .ok ⟨.committed frontier commit response, extract⟩) ∧
      Extracts libraries parts (host.removedBetween next call.address) extract) ↔
    ((host.removedBetween next call.address).Pairwise fun first second =>
        ¬ Alike libraries (parts first.id) (parts second.id)) ∧
      ((next.viewRows call.address).isSome ∨ host.surfaceViewSnapshot call.address = []) := by
  have unique : (∃ extract, host.erase libraries digest parts id call =
        (next, .ok ⟨.committed frontier commit response, extract⟩) ∧
      Extracts libraries parts (host.removedBetween next call.address) extract) ↔
      Extracts libraries parts (host.removedBetween next call.address)
        (extractOf libraries digest parts (host.surfaceViewSnapshot call.address)
          (next.surfaceViewSnapshot call.address)) := by
    rw [erase_committed libraries digest parts committed]
    constructor
    · rintro ⟨extract, same, extracts⟩
      cases same
      exact extracts
    · exact fun extracts => ⟨_, rfl, extracts⟩
  rw [unique, removedBetween, surfaceViewSnapshot, surfaceViewSnapshot]
  cases earlier : host.viewRows call.address with
  | none =>
    have kept (after : List (ViewRow rt.RowId Value)) : removedRows [] after = [] := rfl
    rw [Option.getD_none, extractOf_none libraries digest parts (kept _)]
    exact iff_of_true rfl ⟨.nil, .inr rfl⟩
  | some before =>
    cases later : next.viewRows call.address with
    | some after =>
      refine (extracts_extractOf libraries digest parts before after).trans ?_
      exact ⟨fun pairs => ⟨pairs, .inl rfl⟩, And.left⟩
    | none =>
      have all : removedRows before [] = before := List.filter_eq_self.mpr fun _ _ => rfl
      rw [Option.getD_none, Option.getD_some]
      by_cases empty : before = []
      · rw [extractOf_none libraries digest parts (all.trans empty)]
        exact iff_of_true rfl ⟨.nil, .inr empty⟩
      · obtain ⟨extract, made, _⟩ := extractOf_some libraries digest parts (all.symm ▸ empty)
        rw [made]
        refine iff_of_false (fun extracts => extracts.1 rfl) fun readable => ?_
        rcases readable.2 with impossible | none
        · cases impossible
        · exact empty none

end SurfaceHost

end Completeness

section Samples

/-- An engine with two rows in its view until a call removes both. -/
abbrev clearedRuntime : Runtime where
  Engine := Bool
  Hydrated := Unit
  Entropy := Unit
  Fault := Unit
  Response := Unit
  RowId := Bool
  head _ := .ok 0
  call _ _ _ _ := (true, (), .ok (.committed 1 none))
  viewAtHead cleared _ :=
    .ok (some (.rows (if cleared then [] else [⟨false, [], []⟩, ⟨true, [], []⟩]) ⟨[]⟩))
  viewWith _ _ _ _ := .ok none
  hydrate _ _ := .ok ()
  viewWithHydrated _ _ _ _ := .ok none
  scopedReceiver _ _ _ _ _ _ := .ok .unscoped
  surfaceViewParams _ _ := []
  rowIdentity _ := none

/-- A host of the engine with one public surface. -/
def clearedHost (cleared : Bool) (frontier : Nat) : SurfaceHost clearedRuntime where
  engine := cleared
  router :=
    { publicSurfaces := (∅ : Std.ExtTreeMap String SurfaceBinding).insert "notes"
        ⟨some "notes", (∅ : Std.ExtTreeMap String CallBinding).insert "clear" ⟨"clear", [], [], []⟩⟩
      roles := ∅
      authenticators := ∅ }
  clock := Store.defaultNow
  entropy := ()
  connections := (∅ : Std.ExtTreeMap String (Connection clearedRuntime)).insert "c" ⟨frontier, ∅, ∅⟩
  operations _ := none

/-- The call that removes both rows. -/
def clearNotes : SurfaceCall :=
  ⟨⟨.publicSurface, "notes", some "clear"⟩, ∅, none, none, none, [], []⟩

/-- The keys of the rows in two collections of one view. -/
def mixedKeys (row : Bool) : List RowIdPart :=
  [.key (if row then .int 1 else .text "1")]

/-- The keys of the rows in one collection. -/
def plainKeys (row : Bool) : List RowIdPart :=
  [.key (.text (if row then "1" else "2"))]

open Classical in
/-- The call commits, and both rows leave the view. -/
theorem clearNotes_committed : ∃ next,
    (clearedHost false 0).call "c" clearNotes = (next, .ok (.committed 1 1 none)) ∧
      next.viewRows clearNotes.address = some [] ∧
      (clearedHost false 0).removedBetween next clearNotes.address =
        [⟨false, [], []⟩, ⟨true, [], []⟩] :=
  ⟨_, rfl, rfl, rfl⟩

open Classical in
/-- The keys of one collection give each removed row an occurrence of its own. -/
theorem plainKeys_extracted : ∃ next extract,
    (clearedHost false 0).erase Wire.Sample.libraries (fun _ => "") plainKeys "c" clearNotes =
        (next, .ok ⟨.committed 1 1 none, extract⟩) ∧
      Extracts Wire.Sample.libraries plainKeys
        ((clearedHost false 0).removedBetween next clearNotes.address) extract := by
  obtain ⟨next, committed, readable, removed⟩ := clearNotes_committed
  have apart : ¬ Alike Wire.Sample.libraries (plainKeys false) (plainKeys true) :=
    (by decide : pieces Wire.Sample.libraries (plainKeys false) ≠
      pieces Wire.Sample.libraries (plainKeys true))
  have pairs : ((clearedHost false 0).removedBetween next clearNotes.address).Pairwise fun first second =>
      ¬ Alike Wire.Sample.libraries (plainKeys first.id) (plainKeys second.id) := by
    rw [removed]
    exact List.pairwise_pair.mpr apart
  have shown : (next.viewRows clearNotes.address).isSome := readable ▸ rfl
  obtain ⟨extract, erased, extracts⟩ := (SurfaceHost.extracts_iff Wire.Sample.libraries
    (fun _ => "") plainKeys committed).mpr ⟨pairs, .inl shown⟩
  exact ⟨next, extract, erased, extracts⟩

open Classical in
/-- A text key and an integer key with one spelling share an occurrence. -/
theorem mixedKeys_unextracted : ∃ next extract,
    (clearedHost false 0).erase Wire.Sample.libraries (fun _ => "") mixedKeys "c" clearNotes =
        (next, .ok ⟨.committed 1 1 none, extract⟩) ∧
      ¬ Extracts Wire.Sample.libraries mixedKeys
        ((clearedHost false 0).removedBetween next clearNotes.address) extract := by
  obtain ⟨next, committed, readable, removed⟩ := clearNotes_committed
  have alike : occurrenceId Wire.Sample.libraries (mixedKeys false) =
      occurrenceId Wire.Sample.libraries (mixedKeys true) := by decide
  have erased := @SurfaceHost.erase_committed clearedRuntime _ Wire.Sample.libraries (fun _ => "") mixedKeys
    _ _ _ _ _ _ _ _ _ committed
  refine ⟨next, _, erased, fun extracts => ?_⟩
  rw [removed] at extracts
  exact (List.nodup_cons.mp extracts.nodup).1 (List.mem_singleton.mpr alike)

end Samples

end Liasse.Surface

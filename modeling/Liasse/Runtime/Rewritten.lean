/-
This file models the placement of the new fields of a row: a changed key moves the row with all rows below it, and the
references to each moved row are rewritten.
-/

import Liasse.Runtime.Leaf
import Liasse.Runtime.State

namespace Liasse.Runtime

open Store

section Values

/-- A reference to the old key of a top-level row becomes a reference to its new key. A bare key stays
a bare key. -/
def rewriteRefValue (names : List String) (old new : KeyClass) (value : Value) : Option Value :=
  let oldIdentity := identityOf names old.components
  let bare := if ValueClass.of value = oldIdentity then some (identityOf names new.components).value
    else none
  match value with
  | .ref key =>
    if refIdentity names key = oldIdentity then some (.ref (refOf names new.components)) else bare
  | _ => bare

/-- A reference to a nested row carries the components of all its keys. -/
def rewriteRefValueNested (old new : List ValueClass) (value : Value) : Option Value :=
  match value with
  | .ref key =>
    if refKeyComponents key = old then some (.ref (.composite (new.map ValueClass.value))) else none
  | _ => none

/-- The rewrite of a reference field or of each member of a set of references. -/
def rewriteFieldValue (rewrite : Value → Option Value) (target : List String) (field : CompiledField)
    (current : Option Value) : Option Value :=
  let members : Option Value :=
    match field.elementReference, current with
    | some info, some (.set members) =>
      if info.target = target ∧ (members.any fun member => (rewrite member).isSome) = true then
        some (.set (setOf (members.map fun member => (rewrite member).getD member)))
      else none
    | _, _ => none
  match field.reference with
  | some info => if info.target = target then current.bind rewrite else members
  | none => members

end Values

section Fields

/-- The rewrite of some reference fields of a row. The flag tells whether a field changed. -/
def rewriteSites (rewrite : Value → Option Value) (target : List String) :
    List RefSite → FieldMap × Bool → FieldMap × Bool
  | [], state => state
  | site :: rest, (fields, changed) =>
    rewriteSites rewrite target rest <|
      match rewriteFieldValue rewrite target site.field (site.value fields) with
      | some value => (setSiteValue fields site.container site.field.name value, true)
      | none => (fields, changed)

/-- The rewritten fields of a row, when a field changed. -/
def rewriteRow (compiled : Compiled) (rewrite : Value → Option Value) (target : List String)
    (address : RowAddress) (fields : FieldMap) : Option FieldMap :=
  match compiled.collectionAt address.declaration with
  | some collection =>
    let (fields, changed) := rewriteSites rewrite target (refSites collection) (fields, false)
    if changed then some fields else none
  | none => none

/-- The rewrite of all live rows, with the addresses of the changed rows. -/
def rewriteAll (compiled : Compiled) (rewrite : Value → Option Value) (target : List String)
    (rows : Rows) : Rows × List RowAddress :=
  (rows.map fun address fields => (rewriteRow compiled rewrite target address fields).getD fields,
    rows.keys.filter fun address =>
      ((rows[address]?).bind (rewriteRow compiled rewrite target address)).isSome)

end Fields

/-- The rewrite of the references to a row of a top-level collection that takes a new key. -/
def rewriteInboundRefs (compiled : Compiled) (name : String) (old new : KeyClass) (rows : Rows) :
    Rows × List RowAddress :=
  match compiled.collection name with
  | some collection => rewriteAll compiled (rewriteRefValue collection.key old new) [name] rows
  | none => (rows, [])

/-- The rewrite of the references to a nested row that moves. -/
def rewriteInboundRefsNestedMove (compiled : Compiled) (old new : RowAddress) (rows : Rows) :
    Rows × List RowAddress :=
  rewriteAll compiled (rewriteRefValueNested old.components new.components) old.declaration rows

/-- A row with the declaration path of its collection. -/
structure RowTarget where
  address : RowAddress
  path : List String

/-- The part of a running program that a placement changes: the rows, the receiver and the rows to validate. -/
structure Placing where
  rows : Rows
  receiver : Option RowTarget
  touched : List RowAddress

namespace Placing

section Marks

/-- Some rows become touched up to one that is touched already. -/
def touchAll : List RowAddress → List RowAddress → List RowAddress
  | [], touched => touched
  | address :: above, touched => if address ∈ touched then touched else touchAll above (touched ++ [address])

/-- A row becomes touched with the live rows that contain it. -/
def mark (placing : Placing) (address : RowAddress) : Placing :=
  let above := (chain address).tail.takeWhile fun parent => parent ∈ placing.rows
  { placing with touched := touchAll (address :: above) placing.touched }

@[simp] theorem rows_mark (placing : Placing) (address : RowAddress) : (placing.mark address).rows = placing.rows :=
  rfl

/-- The marks of some rows keep the rows. -/
theorem rows_foldl_mark (addresses : List RowAddress) (placing : Placing) :
    (addresses.foldl mark placing).rows = placing.rows := by
  induction addresses generalizing placing with
  | nil => rfl
  | cons address rest ih => exact ih (placing.mark address)

end Marks

section Moves

/-- The move of some rows below a row to its new address. A live row at a new address refuses the move. -/
def moveAll (ancestor : RowAddress) (depth : Nat) :
    List RowAddress → Placing × List (RowAddress × RowAddress) →
      Except Rejection (Placing × List (RowAddress × RowAddress))
  | [], state => .ok state
  | descendant :: rest, (placing, moves) =>
    let moved := reroot ancestor descendant depth
    if moved ∈ placing.rows then
      .error ((Rejection.new .duplicateKey "rekey descendant target already exists").at (.row moved))
    else
      match placing.rows[descendant]? with
      | none => moveAll ancestor depth rest (placing, moves)
      | some fields =>
        let rows := (placing.rows.erase descendant).insert moved fields
        moveAll ancestor depth rest ({ placing with rows }.mark moved, moves ++ [(descendant, moved)])

end Moves

section References

/-- The rewrite of the references to a row of a top-level collection marks the changed rows. -/
def rewriteInbound (compiled : Compiled) (placing : Placing) (name : String) (old new : KeyClass) : Placing :=
  let (rows, rewritten) := rewriteInboundRefs compiled name old new placing.rows
  rewritten.foldl mark { placing with rows }

/-- The rewrite of the references to a nested row marks the changed rows. -/
def rewriteNestedMove (compiled : Compiled) (placing : Placing) (move : RowAddress × RowAddress) : Placing :=
  let (rows, rewritten) := rewriteInboundRefsNestedMove compiled move.1 move.2 placing.rows
  rewritten.foldl mark { placing with rows }

end References

/-- The address of some fields in a collection. -/
def keyAddress (compiled : Compiled) (store : CollectionPath) (path : List String) (fields : FieldMap) :
    Except Rejection RowAddress :=
  match compiled.collectionAt path with
  | none => .error (Rejection.new .malformed ("unknown collection `" ++ "/".intercalate path ++ "`"))
  | some collection =>
    match keyOf collection fields with
    | none => .error (Rejection.new .malformed "the row is missing a key field")
    | some key => .ok (store.row key)

/-- The receiver moves with its row. -/
def moveReceiver (placing : Placing) (old new : RowAddress) : Placing :=
  { placing with
    receiver := placing.receiver.map fun receiver =>
      if receiver.address = old then { receiver with address := new } else receiver }

/-- The references to a moved top-level row, then those to each moved nested row. -/
def follow (compiled : Compiled) (placing : Placing) (path : List String) (old new : RowAddress)
    (moves : List (RowAddress × RowAddress)) : Placing :=
  let top :=
    match old.rest, path.head? with
    | [], some name => placing.rewriteInbound compiled name old.last.key new.last.key
    | _, _ => placing
  ((moves ++ [(old, new)]).filter fun move => 2 ≤ move.1.depth).foldl (rewriteNestedMove compiled) top

/-- The new fields of a row. A changed key moves the row and all rows below it, unless a live row is in the way. -/
def place (compiled : Compiled) (placing : Placing) (address : RowAddress) (path : List String)
    (fields : FieldMap) : Except Rejection Placing :=
  keyAddress compiled address.collection path fields >>= fun new =>
    if new = address then .ok ({ placing with rows := placing.rows.insert address fields }.mark address)
    else if new ∈ placing.rows then
      .error ((Rejection.new .duplicateKey "rekey target already exists").at (.row new))
    else
      moveAll new address.depth (descendants placing.rows address) (placing, []) >>= fun (moved, moves) =>
        let placed := { moved with rows := (moved.rows.erase address).insert new fields }
        .ok (((placed.moveReceiver address new).follow compiled path address new moves).mark new)

end Placing

/-- The path of the field of a site. -/
def RefSite.names (site : RefSite) : List String :=
  site.container ++ [site.field.name]

section Sites

variable {rewrite : Value → Option Value} {target : List String}

/-- The value of a reference field after the rewrite. -/
def rewrittenValue (rewrite : Value → Option Value) (target : List String) (field : CompiledField)
    (current : Option Value) : Option Value :=
  (rewriteFieldValue rewrite target field current).orElse fun _ => current

/-- An absent value stays absent. -/
theorem rewriteFieldValue_none (field : CompiledField) : rewriteFieldValue rewrite target field none = none := by
  unfold rewriteFieldValue
  cases field.reference with
  | none => cases field.elementReference <;> rfl
  | some info => cases field.elementReference <;> simp

/-- A reference is rewritten when its field names the target. -/
theorem rewriteFieldValue_reference {field : CompiledField} {info : RefInfo} (declared : field.reference = some info)
    (single : field.elementReference = none) (value : Value) :
    rewriteFieldValue rewrite target field (some value) = if info.target = target then rewrite value else none := by
  unfold rewriteFieldValue
  rw [declared, single]
  rfl

/-- A set of references is rewritten when its field names the target and a member changes. -/
theorem rewriteFieldValue_members {field : CompiledField} {info : RefInfo} (plain : field.reference = none)
    (declared : field.elementReference = some info) (members : List Value) :
    rewriteFieldValue rewrite target field (some (.set members)) =
      if info.target = target ∧ (members.any fun member => (rewrite member).isSome) = true then
        some (.set (setOf (members.map fun member => (rewrite member).getD member)))
      else none := by
  unfold rewriteFieldValue
  rw [declared, plain]

/-- A field without a reference is rewritten when it holds a set only. -/
theorem rewriteFieldValue_other {field : CompiledField} {current : Option Value} (plain : field.reference = none)
    (other : ∀ members, current ≠ some (.set members)) : rewriteFieldValue rewrite target field current = none := by
  unfold rewriteFieldValue
  rw [plain]
  cases field.elementReference with
  | none => rfl
  | some info =>
    cases current with
    | none => rfl
    | some value =>
      cases value with
      | set members => exact absurd rfl (other members)
      | _ => rfl

theorem Apart.symm {first second : List String} (apart : Apart first second) : Apart second first :=
  ⟨apart.2, apart.1⟩

/-- The rewrite of one site leaves the paths apart from it. -/
theorem readPath_rewriteSite {site : RefSite} {fields : FieldMap} {path : List String} (apart : Apart path site.names)
    (value : Value) : readPath (setSiteValue fields site.container site.field.name value) path = readPath fields path :=
  readPath_writeInto ⟨site.container, site.field.name⟩ fields value apart

/-- A reference field takes its rewritten value. -/
theorem value_rewriteSite {site : RefSite} {fields : FieldMap} {value : Value}
    (rewritten : rewriteFieldValue rewrite target site.field (site.value fields) = some value) :
    site.value (setSiteValue fields site.container site.field.name value) = some value := by
  have present : site.value fields ≠ none := fun absent => by
    rw [absent, rewriteFieldValue_none] at rewritten
    cases rewritten
  rw [RefSite.value_eq] at present ⊢
  rcases readPath_writeInto_self ⟨site.container, site.field.name⟩ fields value with written | ⟨_, absent⟩
  · exact written
  · exact absurd absent present

theorem readPath_rewriteSites {sites : List RefSite} {path : List String}
    (apart : ∀ site ∈ sites, Apart path site.names) (fields : FieldMap) (changed : Bool) :
    readPath (rewriteSites rewrite target sites (fields, changed)).1 path = readPath fields path := by
  induction sites generalizing fields changed with
  | nil => rfl
  | cons site rest ih =>
    have later := ih fun other inside => apart other (List.mem_cons_of_mem _ inside)
    rw [rewriteSites]
    split
    · next value rewritten =>
        rw [later]
        exact readPath_rewriteSite (apart site List.mem_cons_self) value
    · exact later fields changed

/-- Each reference field is rewritten on its own. -/
theorem value_rewriteSites {sites : List RefSite}
    (beside : sites.Pairwise fun first second => Apart first.names second.names) {site : RefSite}
    (inside : site ∈ sites) (fields : FieldMap) (changed : Bool) :
    site.value (rewriteSites rewrite target sites (fields, changed)).1 =
      rewrittenValue rewrite target site.field (site.value fields) := by
  induction sites generalizing fields changed with
  | nil => cases inside
  | cons first rest ih =>
    obtain ⟨apart, others⟩ := List.pairwise_cons.mp beside
    rcases List.mem_cons.mp inside with rfl | inside
    · have kept (fields : FieldMap) (changed : Bool) :
          site.value (rewriteSites rewrite target rest (fields, changed)).1 = site.value fields := by
        rw [RefSite.value_eq, RefSite.value_eq]
        exact readPath_rewriteSites (fun other there => apart other there) fields changed
      rw [rewriteSites, rewrittenValue]
      cases rewritten : rewriteFieldValue rewrite target site.field (site.value fields) with
      | none => exact kept fields changed
      | some value =>
        rw [kept]
        exact value_rewriteSite rewritten
    · rw [rewriteSites, ih others inside]
      split
      · next value rewritten =>
          have same : site.value (setSiteValue fields first.container first.field.name value) = site.value fields := by
            rw [RefSite.value_eq, RefSite.value_eq]
            exact readPath_rewriteSite (apart site inside).symm value
          rw [same]
      · rfl

/-- A row without a change keeps its fields. -/
theorem rewriteSites_unchanged {sites : List RefSite} (fields : FieldMap) {changed : Bool}
    (still : (rewriteSites rewrite target sites (fields, changed)).2 = false) :
    (rewriteSites rewrite target sites (fields, changed)).1 = fields := by
  have raised (sites : List RefSite) (fields : FieldMap) : (rewriteSites rewrite target sites (fields, true)).2 = true := by
    induction sites generalizing fields with
    | nil => rfl
    | cons site rest ih =>
      rw [rewriteSites]
      split
      · exact ih _
      · exact ih _
  induction sites with
  | nil => rfl
  | cons site rest ih =>
    rw [rewriteSites] at still ⊢
    split at still
    · rw [raised] at still
      cases still
    · exact ih still

end Sites

section Rows

variable {compiled : Compiled} {rewrite : Value → Option Value} {target : List String} {address : RowAddress}

/-- The fields of a row after the rewrite. -/
def rewrittenRow (compiled : Compiled) (rewrite : Value → Option Value) (target : List String)
    (address : RowAddress) (fields : FieldMap) : FieldMap :=
  (rewriteRow compiled rewrite target address fields).getD fields

theorem rewrittenRow_eq {collection : CompiledCollection}
    (declared : compiled.collectionAt address.declaration = some collection) (fields : FieldMap) :
    rewrittenRow compiled rewrite target address fields =
      (rewriteSites rewrite target (refSites collection) (fields, false)).1 := by
  rw [rewrittenRow, rewriteRow]
  simp only [declared]
  split
  · rfl
  · next still => exact (rewriteSites_unchanged fields (Bool.not_eq_true _ ▸ still)).symm

theorem rewrittenRow_of_undeclared (undeclared : compiled.collectionAt address.declaration = none)
    (fields : FieldMap) : rewrittenRow compiled rewrite target address fields = fields := by
  rw [rewrittenRow, rewriteRow]
  simp only [undeclared]
  rfl

theorem getElem?_rewriteAll (rows : Rows) :
    (rewriteAll compiled rewrite target rows).1[address]? =
      (rows[address]?).map (rewrittenRow compiled rewrite target address) := by
  rw [rewriteAll, Std.ExtTreeMap.getElem?_map]
  rfl

end Rows

end Liasse.Runtime

/-
This file models the resolution of the pools of a meter: the source rows that are active and eligible, the merge of
the rows of one pool, and the order in which the pools are drained.
-/

import Liasse.Expr.Tree
import Liasse.Live.Window
import Liasse.Store.Memory

namespace Liasse.Meter

open Liasse.Expr Liasse.Runtime Liasse.Store

section Declarations

/-- A source has a label and a view over the enforcing row. -/
structure CompiledSource where
  label : String
  view : Cell → Except Rejection Cell
  hasQuantity : Bool

/-- One key of the order reads the row of a pool. -/
structure OrderKey where
  expr : Cell → Except Rejection Cell
  descending : Bool

/-- A meter with its expressions in the environment of one spend. -/
structure CompiledMeter where
  name : String
  sources : List CompiledSource
  eligible : Option (Row → Except Rejection Cell)
  order : List OrderKey

/-- The bounds in which a row is active. -/
abbrev Interval := Option Timestamp × Option Timestamp

/-- What a resolution reads of the state and of the spend: the time, the enforcing row, the intervals of derived rows
and the incarnations of stored rows. -/
structure Setting where
  time : Timestamp
  enforcing : Option Row
  sourceIntervals : List (RowId × Interval)
  incarnations : List (RowId × RowIncarnation)

/-- The entry of an identity. -/
def entryOf {α : Type} (index : List (RowId × α)) (id : RowId) : Option α :=
  (index.find? fun entry => sameId entry.1 id).map Prod.snd

end Declarations

section Intervals

def bound (row : Row) (name : String) : Option Timestamp :=
  match row.cell name with
  | some (.scalar (.timestamp instant)) => some instant
  | _ => none

mutual

/-- The intervals of a row and of the rows inside, the latest one first. -/
def collectIntervals : Row → List (RowId × Interval) → List (RowId × Interval)
  | .mk id key cells sort, index =>
    let start := bound (.mk id key cells sort) "$from"
    let stop := bound (.mk id key cells sort) "$until"
    collectCells cells (if start.isSome || stop.isSome then (id, (start, stop)) :: index else index)
termination_by structural row => row

def collectCells : List (String × Cell) → List (RowId × Interval) → List (RowId × Interval)
  | [], index => index
  | member :: rest, index => collectCells rest (collectMember member index)
termination_by structural cells => cells

def collectMember : String × Cell → List (RowId × Interval) → List (RowId × Interval)
  | (_, cell), index => collectCell cell index
termination_by structural member => member

def collectCell : Cell → List (RowId × Interval) → List (RowId × Interval)
  | .scalar _, index => index
  | .row row, index => collectIntervals row index
  | .collection rows, index => collectRows rows index
termination_by structural cell => cell

def collectRows : List Row → List (RowId × Interval) → List (RowId × Interval)
  | [], index => index
  | row :: rest, index => collectRows rest (collectIntervals row index)
termination_by structural rows => rows

end

/-- The interval of a row. The index of derived rows is before the index of the enforcing row. -/
def Setting.interval (setting : Setting) (row : Row) : Interval :=
  let index := (setting.enforcing.map fun enforcing => collectIntervals enforcing []).getD []
  (entryOf (setting.sourceIntervals ++ index) row.id).getD (none, none)

/-- An interval holds its start and not its end. -/
def activeAt (interval : Interval) (time : Timestamp) : Bool :=
  interval.1.all (fun start => time.cmp start != .lt) && interval.2.all fun stop => time.cmp stop == .lt

end Intervals

section Rows

def decimalOf : Value → Except Rejection BigDecimal
  | .decimal decimal => .ok decimal
  | .int integer => .ok ⟨integer, 0⟩
  | _ => .error (.new .typeError "meter quantity is not a number")

/-- The capacity of a pool row. A row without one partitions. -/
def poolQuantity (row : Row) : Except Rejection (Option BigDecimal) :=
  match row.cell "$quantity" with
  | some (.scalar value) => (decimalOf value).map some
  | _ => .ok none

/-- The cell of an optional bound. -/
def boundCell : Option Timestamp → Cell
  | some instant => .scalar (.timestamp instant)
  | none => .scalar .none

/-- The row of a pool with the cells that its expressions read. -/
def withPoolCells (row : Row) (interval : Interval) (quantity : Option BigDecimal) : Row :=
  let bounded := (row.set "$from" (boundCell interval.1)).set "$until" (boundCell interval.2)
  match quantity with
  | some decimal => bounded.set "$quantity" (.scalar (.decimal decimal))
  | none => bounded

/-- A meter without a condition admits each pool. -/
def CompiledMeter.admits (meter : CompiledMeter) (poolRow : Row) : Except Rejection Bool :=
  match meter.eligible with
  | none => .ok true
  | some eligible => do
      match ← eligible poolRow with
      | .scalar (.bool verdict) => pure verdict
      | _ => pure false

/-- The values of the order of a meter over a pool row. A key that is no scalar is absent. -/
def CompiledMeter.orderKeys (meter : CompiledMeter) (poolRow : Row) : Except Rejection (List Value) :=
  meter.order.mapM fun key => do
    match ← key.expr (.row poolRow) with
    | .scalar value => pure value
    | _ => pure .none

end Rows

section Pools

/-- The label of its source, its key and its incarnation tell a pool from the others. -/
structure PoolIdentity where
  source : String
  key : Value
  incarnation : Option RowIncarnation

/-- Identities compare by source, then by key, then by incarnation. -/
def PoolIdentity.cmp (first second : PoolIdentity) : Ordering :=
  (compareText first.source second.source).then ((compare first.key second.key).then
    (compare (first.incarnation.map textBytes) (second.incarnation.map textBytes)))

instance : Ord PoolIdentity where
  compare := PoolIdentity.cmp

/-- A pool with its capacity and the values of the order. -/
structure Pool where
  identity : PoolIdentity
  quantity : Option BigDecimal
  orderKeys : List Value

/-- A source row that is active and eligible. -/
structure Contribution where
  identity : PoolIdentity
  row : Row
  interval : Interval
  quantity : Option BigDecimal

/-- The row that the expressions of the meter read. -/
def Contribution.poolRow (contribution : Contribution) : Row :=
  withPoolCells contribution.row contribution.interval contribution.quantity

/-- Optional values are equal when both are absent or when their order does not separate them. -/
def sameBy {α : Type} (cmp : α → α → Ordering) : Option α → Option α → Bool
  | none, none => true
  | some first, some second => cmp first second == .eq
  | _, _ => false

/-- Pools compare by the keys of the order in their directions, then by identity. -/
def comparePools (order : List OrderKey) (first second : Pool) : Ordering :=
  Live.SortOrder.compare ⟨order.map OrderKey.descending⟩ first.orderKeys first.identity second.orderKeys
    second.identity

def sortPools (order : List OrderKey) (pools : List Pool) : List Pool :=
  pools.mergeSort fun first second => comparePools order first second != .gt

end Pools

section Resolution

variable (setting : Setting) (meter : CompiledMeter)

/-- The contribution of a source row, if it is active and eligible. -/
def contribution (source : CompiledSource) (row : Row) : Except Rejection (Option Contribution) := do
  let interval := setting.interval row
  if activeAt interval setting.time then
    let quantity ← if source.hasQuantity then poolQuantity row else pure none
    let admitted ← meter.admits (withPoolCells row interval quantity)
    if admitted then
      pure (some ⟨⟨source.label, row.key, entryOf setting.incarnations row.id⟩, row, interval, quantity⟩)
    else pure none
  else pure none

/-- The pools so far, and what the first row of each one said of its capacity. -/
structure Resolution where
  seen : List Contribution
  pools : List Pool

/-- The first row that was seen of a pool. -/
def seenAs (seen : List Contribution) (identity : PoolIdentity) : Option Contribution :=
  seen.find? fun first => first.identity.cmp identity == .eq

/-- A repeated pool is dropped when it repeats its quantity and its end, and rejected otherwise. -/
def Resolution.add (state : Resolution) (offer : Contribution) : Except Rejection Resolution :=
  match seenAs state.seen offer.identity with
  | some first =>
    if sameBy BigDecimal.cmp first.quantity offer.quantity && sameBy Timestamp.cmp first.interval.2 offer.interval.2
    then .ok state
    else .error (.new .evaluation ("meter `" ++ meter.name ++ "` pool identity repeats with disagreeing capacity"))
  | none => do
      let keys ← meter.orderKeys offer.poolRow
      pure ⟨state.seen ++ [offer], state.pools ++ [⟨offer.identity, offer.quantity, keys⟩]⟩

/-- The step over one source row. -/
def Resolution.step (state : Resolution) (entry : CompiledSource × Row) : Except Rejection Resolution := do
  match ← contribution setting meter entry.1 entry.2 with
  | none => pure state
  | some offer => state.add meter offer

/-- The rows of the view of a source. -/
def sourceRows (source : CompiledSource) (current : Cell) : Except Rejection (List Row) := do
  match ← source.view current with
  | .collection rows => pure rows
  | .row row => pure [row]
  | .scalar _ => pure []

/-- The pools of a meter for its enforcing row, in the order in which they are drained. -/
def resolvePools : Except Rejection (List Pool) :=
  match setting.enforcing with
  | none => .ok []
  | some enforcing => do
      let state ← meter.sources.foldlM (fun state source => do
        (← sourceRows source (.row enforcing)).foldlM (fun state row => state.step setting meter (source, row)) state)
        (⟨[], []⟩ : Resolution)
      pure (sortPools meter.order state.pools)

/-- The pools of some source rows with their sources. -/
def resolveRows (listing : List (CompiledSource × Row)) : Except Rejection (List Pool) := do
  let state ← listing.foldlM (fun state entry => state.step setting meter entry) (⟨[], []⟩ : Resolution)
  pure (sortPools meter.order state.pools)

end Resolution

end Liasse.Meter

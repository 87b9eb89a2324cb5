/-
This file models the form in which the database keeps the log of commits.
-/

import Liasse.Pg.KeyWire
import Liasse.Store.Address
import Liasse.Store.Memory

namespace Liasse.Pg.Codec

open Store Wire

section Addresses

/-- One level of an address with the components of its key as they were given. -/
structure KeyedStep where
  name : String
  key : KeyValue

/-- An address as the codec sees it. -/
structure KeyedAddress where
  first : KeyedStep
  rest : List KeyedStep

/-- The step that the store sees. -/
def KeyedStep.step (keyed : KeyedStep) : AddressStep :=
  ⟨keyed.name, .composite keyed.key.first keyed.key.rest⟩

def KeyedAddress.steps (address : KeyedAddress) : List KeyedStep :=
  address.first :: address.rest

/-- The address that the store sees. -/
def KeyedAddress.row (address : KeyedAddress) : RowAddress :=
  ⟨address.first.step, address.rest.map KeyedStep.step⟩

instance : Ord KeyedAddress where
  compare first second := compare first.row second.row

instance : Std.TransOrd KeyedAddress := by
  change Std.TransCmp (compareOn KeyedAddress.row)
  infer_instance

theorem KeyedStep.step_eq_iff {first second : KeyedStep} :
    first.step = second.step ↔ first.name = second.name ∧ first.key.cmp second.key = .eq := by
  rw [step, step, AddressStep.mk.injEq, KeyEnc.cmp_eq_components, ← ValueClass.of_list_eq_iff,
    ← KeyClass.components_inj]
  rfl

/-- Two addresses are equal when their steps are, one by one. -/
theorem KeyedAddress.compare_eq_iff {first second : KeyedAddress} :
    compare first second = .eq ↔
      List.Forall₂ (fun left right => left.step = right.step) first.steps second.steps := by
  have rows : compare first.row second.row = .eq ↔ first.row = second.row := Std.LawfulEqOrd.compare_eq_iff_eq
  change compare first.row second.row = .eq ↔ _
  rw [rows, ← RowAddress.steps_inj, ← List.forall₂_eq_eq_eq]
  change List.Forall₂ Eq (first.steps.map KeyedStep.step) (second.steps.map KeyedStep.step) ↔ _
  rw [List.forall₂_map_left_iff, List.forall₂_map_right_iff]

/-- The components of the keys of an address. -/
def KeyedAddress.Everywhere (property : Value → Prop) (address : KeyedAddress) : Prop :=
  ∀ step ∈ address.steps, ∀ component ∈ step.key.components, property component

end Addresses

section Records

variable (libraries : Libraries)

/-- The items of an array, or a corruption. -/
def itemsOr (detail : String) : J → Except Corruption (List J)
  | .array items => .ok items
  | _ => .error (.corrupt detail)

def encodeStep (keyed : KeyedStep) : J :=
  .array [.string keyed.name, encodeKeyWire libraries keyed.key]

def encodeAddress (address : KeyedAddress) : J :=
  .array (address.steps.map (encodeStep libraries))

def decodeStep (wire : J) : Except Corruption KeyedStep := do
  let pair ← itemsOr "address step is not an array" wire
  let name ← orCorrupt "step missing name" (str? pair.head?)
  let components ← itemsOr "step missing key" (pair[1]?.getD .null)
  let key ← keyFromComponents (← components.mapM (decode libraries))
  pure ⟨name, key⟩

def decodeAddress (wire : J) : Except Corruption KeyedAddress := do
  let steps ← itemsOr "address is not an array" wire
  match steps with
  | [] => .error (.corrupt "address has no steps")
  | first :: rest => do
      let root ← decodeStep libraries first
      let below ← rest.mapM (decodeStep libraries)
      pure ⟨root, below⟩

def incar (incarnation : RowIncarnation) : J :=
  .string incarnation

def decodeIncar : J → Except Corruption RowIncarnation
  | .string token => .ok token
  | _ => .error (.corrupt "incarnation is not a string")

/-- The operation of the log is an object with one member, and its name is the kind. -/
def encodeOp : CommittedRowOp KeyedAddress → J
  | .insert address incarnation value =>
    tag "insert" (.array [encodeAddress libraries address, incar incarnation, encode libraries value])
  | .update address incarnation value =>
    tag "update" (.array [encodeAddress libraries address, incar incarnation, encode libraries value])
  | .delete address incarnation =>
    tag "delete" (.array [encodeAddress libraries address, incar incarnation])
  | .rekey source target incarnation value =>
    tag "rekey" (.array [encodeAddress libraries source, encodeAddress libraries target, incar incarnation,
      encode libraries value])

def singleMember : J → Except Corruption (String × J)
  | .object [member] => .ok member
  | .object _ => .error (.corrupt "an op must be a single-member object")
  | _ => .error (.corrupt "op is not an object")

def part (parts : List J) (index : Nat) : Except Corruption J :=
  orCorrupt "op body too short" parts[index]?

def decodeOp (wire : J) : Except Corruption (CommittedRowOp KeyedAddress) := do
  let (kind, body) ← singleMember wire
  let parts ← itemsOr "op body is not an array" body
  if kind = "insert" then
    let address ← decodeAddress libraries (← part parts 0)
    let incarnation ← decodeIncar (← part parts 1)
    let value ← decode libraries (← part parts 2)
    pure (.insert address incarnation value)
  else if kind = "update" then
    let address ← decodeAddress libraries (← part parts 0)
    let incarnation ← decodeIncar (← part parts 1)
    let value ← decode libraries (← part parts 2)
    pure (.update address incarnation value)
  else if kind = "delete" then
    let address ← decodeAddress libraries (← part parts 0)
    let incarnation ← decodeIncar (← part parts 1)
    pure (.delete address incarnation)
  else if kind = "rekey" then
    let source ← decodeAddress libraries (← part parts 0)
    let target ← decodeAddress libraries (← part parts 1)
    let incarnation ← decodeIncar (← part parts 2)
    let value ← decode libraries (← part parts 3)
    pure (.rekey source target incarnation value)
  else .error (.corrupt ("unknown op kind `" ++ kind ++ "`"))

end Records

section Rows

variable (libraries : Libraries)

/-- A row of the table of the log. -/
structure LogRow where
  seq : Signed 64
  transaction : Option String
  ops : J
  created : J

/-- The position as a column of the database, if it fits. -/
def seqNum (seq : Nat) : Except Corruption (Signed 64) :=
  if fits : seq < 2 ^ 63 then .ok ⟨seq, by omega, by omega⟩
  else .error (.corrupt "serial position exceeds i64")

def seqFrom (raw : Signed 64) (what : String) : Except Corruption Nat :=
  if raw.val < 0 then .error (.corrupt (what ++ " is negative (" ++ integerText raw.val ++ ")"))
  else .ok raw.val.toNat

/-- The row that a commit adds for its transition. -/
def logRow (transition : CommittedTransition KeyedAddress) : Except Corruption LogRow := do
  let seq ← seqNum transition.seq
  pure ⟨seq, transition.transaction.map escape, toJsonb (.array (transition.ops.map (encodeOp libraries))),
    toJsonb (encode libraries (.timestamp transition.created))⟩

def decodeCreated (wire : J) : Except Corruption Timestamp := do
  match ← decode libraries wire with
  | .timestamp created => .ok created
  | _ => .error (.corrupt "created column is not a timestamp")

def decodeLogRow (row : LogRow) : Except Corruption (CommittedTransition KeyedAddress) := do
  let seq ← seqFrom row.seq "commit_log.seq"
  let ops ← (← itemsOr "commit_log ops is not an array" (fromJsonb row.ops)).mapM (decodeOp libraries)
  let created ← decodeCreated libraries (fromJsonb row.created)
  pure ⟨seq, ops, created, row.transaction.map unescape⟩

/-- The table of a log, in the order of the positions. -/
def persist (log : List (CommittedTransition KeyedAddress)) : Except Corruption (List LogRow) :=
  log.mapM (logRow libraries)

/-- The log that a table holds. -/
def reload (rows : List LogRow) : Except Corruption (List (CommittedTransition KeyedAddress)) :=
  rows.mapM (decodeLogRow libraries)

end Rows

section Addresses

variable {libraries : Libraries}

theorem decodeStep_encodeStep (keyed : KeyedStep) :
    decodeStep libraries (encodeStep libraries keyed) =
      decodeKeyWire libraries (encodeKeyWire libraries keyed.key) >>= fun key => pure ⟨keyed.name, key⟩ := by
  rw [encodeKeyWire, decodeKeyWire, bind_assoc]
  rfl

/-- A step reads back as an equal step exactly when its key is durable. -/
theorem decodeStep_encodeStep_iff (documented : libraries.Documented) {keyed : KeyedStep}
    (producible : ProducibleKey keyed.key) :
    (∃ read, decodeStep libraries (encodeStep libraries keyed) = .ok read ∧ keyed.step = read.step) ↔
      ∀ component ∈ keyed.key.components, Durable component := by
  rw [← decodeKeyWire_encodeKeyWire_iff documented producible, decodeStep_encodeStep]
  constructor
  · rintro ⟨read, decoded, same⟩
    obtain ⟨key, answered, last⟩ := Codes.bind_ok.mp decoded
    obtain rfl := Except.ok.inj last
    exact ⟨key, answered, (KeyedStep.step_eq_iff.mp same.symm).2⟩
  · rintro ⟨key, answered, same⟩
    have equal : (KeyedStep.mk keyed.name key).step = keyed.step := KeyedStep.step_eq_iff.mpr ⟨rfl, same⟩
    refine ⟨⟨keyed.name, key⟩, ?_, equal.symm⟩
    rw [answered]
    rfl

/-- An address decodes step by step. -/
theorem decodeAddress_encodeAddress {address read : KeyedAddress} :
    decodeAddress libraries (encodeAddress libraries address) = .ok read ↔
      address.steps.mapM (fun keyed => decodeStep libraries (encodeStep libraries keyed)) = .ok read.steps := by
  have decoding : decodeAddress libraries (encodeAddress libraries address) =
      decodeStep libraries (encodeStep libraries address.first) >>= fun root =>
        (address.rest.mapM fun keyed => decodeStep libraries (encodeStep libraries keyed)) >>= fun below =>
          pure ⟨root, below⟩ := by
    change (decodeStep libraries (encodeStep libraries address.first) >>= fun root =>
      ((address.rest.map (encodeStep libraries)).mapM (decodeStep libraries)) >>= fun below =>
        pure (KeyedAddress.mk root below)) = _
    rw [List.mapM_map]
    rfl
  rw [decoding, KeyedAddress.steps, List.mapM_cons, Codes.bind_ok, Codes.bind_ok]
  refine exists_congr fun root => and_congr_right fun _ => ?_
  rw [Codes.bind_ok, Codes.bind_ok]
  refine exists_congr fun below => and_congr_right fun _ => ?_
  obtain ⟨first, rest⟩ := read
  constructor
  · intro same
    obtain ⟨rfl, rfl⟩ := KeyedAddress.mk.inj (Except.ok.inj same)
    rfl
  · intro same
    obtain ⟨rfl, rfl⟩ := List.cons.inj (Except.ok.inj same)
    rfl

/-- An address reads back as an equal address exactly when its keys are durable. -/
theorem decodeAddress_encodeAddress_iff (documented : libraries.Documented) {address : KeyedAddress}
    (producible : address.Everywhere Producible) :
    (∃ read, decodeAddress libraries (encodeAddress libraries address) = .ok read ∧
      compare address read = .eq) ↔ address.Everywhere Durable := by
  constructor
  · rintro ⟨read, decoded, same⟩ keyed inside
    have both := Codes.forall₂_and (Codes.forall₂_of_mapM (decodeAddress_encodeAddress.mp decoded))
      (KeyedAddress.compare_eq_iff.mp same)
    obtain ⟨found, _, answered, equal⟩ := Codes.exists_related both inside
    exact (decodeStep_encodeStep_iff documented (producible keyed inside)).mp ⟨found, answered, equal⟩
  · intro durable
    obtain ⟨reads, all, related⟩ := Codes.exists_mapM_related fun keyed inside =>
      (decodeStep_encodeStep_iff documented (producible keyed inside)).mpr (durable keyed inside)
    obtain ⟨root, below, _, _, rfl⟩ := List.forall₂_cons_left_iff.mp related
    exact ⟨⟨root, below⟩, decodeAddress_encodeAddress.mpr all, KeyedAddress.compare_eq_iff.mpr related⟩

theorem encodeAddress_wellFormed {address : KeyedAddress} (producible : address.Everywhere Producible) :
    (encodeAddress libraries address).WellFormed := by
  refine J.wellFormed_array.mpr fun item inside => ?_
  obtain ⟨keyed, listed, rfl⟩ := List.mem_map.mp inside
  refine J.wellFormed_array.mpr fun half member => ?_
  simp only [List.mem_cons, List.not_mem_nil, or_false] at member
  rcases member with rfl | rfl
  · exact J.wellFormed_string keyed.name
  · exact encodeKeyWire_wellFormed libraries (producible keyed listed)

end Addresses

section Operations

variable {libraries : Libraries}

/-- The components of the keys and the value of an operation have a property. -/
def Carries (property : Value → Prop) : CommittedRowOp KeyedAddress → Prop
  | .insert address _ value => address.Everywhere property ∧ property value
  | .update address _ value => address.Everywhere property ∧ property value
  | .delete address _ => address.Everywhere property
  | .rekey source target _ value => source.Everywhere property ∧ target.Everywhere property ∧ property value

/-- A value reads back as an identical value exactly when it is durable. -/
theorem decode_encode_iff (documented : libraries.Documented) {value : Value} (producible : Producible value) :
    (∃ read, decode libraries (encode libraries value) = .ok read ∧ value.Identical read) ↔ Durable value := by
  constructor
  · rintro ⟨read, decoded, identical⟩
    exact durable_of_identical documented producible decoded identical
  · exact decode_encode documented producible

/-- An operation with an address and a value reads back when both do. -/
theorem decode_both_iff (documented : libraries.Documented) {address : KeyedAddress} {value : Value}
    (addressed : address.Everywhere Producible) (valued : Producible value)
    (build : KeyedAddress → Value → CommittedRowOp KeyedAddress)
    (alike : ∀ found payload, (build address value).Alike Value.Identical (build found payload) ↔
      compare address found = .eq ∧ value.Identical payload) :
    (∃ read, (decodeAddress libraries (encodeAddress libraries address) >>= fun found =>
        decode libraries (encode libraries value) >>= fun payload => pure (build found payload)) = .ok read ∧
      (build address value).Alike Value.Identical read) ↔ address.Everywhere Durable ∧ Durable value := by
  rw [← decodeAddress_encodeAddress_iff documented addressed, ← decode_encode_iff documented valued]
  constructor
  · rintro ⟨read, decoded, same⟩
    obtain ⟨found, located, rest⟩ := Codes.bind_ok.mp decoded
    obtain ⟨payload, loaded, last⟩ := Codes.bind_ok.mp rest
    obtain rfl := Except.ok.inj last
    obtain ⟨equal, values⟩ := (alike found payload).mp same
    exact ⟨⟨found, located, equal⟩, payload, loaded, values⟩
  · rintro ⟨⟨found, located, equal⟩, payload, loaded, values⟩
    refine ⟨build found payload, ?_, (alike found payload).mpr ⟨equal, values⟩⟩
    rw [located, Codes.ok_bind, loaded]
    rfl

/-- An operation reads back as the same operation exactly when all that it carries is durable. -/
theorem decodeOp_encodeOp_iff (documented : libraries.Documented) {op : CommittedRowOp KeyedAddress}
    (producible : Carries Producible op) :
    (∃ read, decodeOp libraries (encodeOp libraries op) = .ok read ∧ op.Alike Value.Identical read) ↔
      Carries Durable op := by
  cases op with
  | insert address incarnation value =>
    obtain ⟨addressed, valued⟩ := producible
    refine decode_both_iff documented addressed valued (fun found => .insert found incarnation)
      fun found payload => ⟨fun same => ?_, fun both => .insert both.1 both.2⟩
    cases same with
    | insert equal values => exact ⟨equal, values⟩
  | update address incarnation value =>
    obtain ⟨addressed, valued⟩ := producible
    refine decode_both_iff documented addressed valued (fun found => .update found incarnation)
      fun found payload => ⟨fun same => ?_, fun both => .update both.1 both.2⟩
    cases same with
    | update equal values => exact ⟨equal, values⟩
  | delete address incarnation =>
    have decoding : decodeOp libraries (encodeOp libraries (.delete address incarnation)) =
        decodeAddress libraries (encodeAddress libraries address) >>= fun address =>
          pure (.delete address incarnation) := rfl
    rw [decoding, Carries, ← decodeAddress_encodeAddress_iff documented producible]
    constructor
    · rintro ⟨read, decoded, same⟩
      obtain ⟨found, located, last⟩ := Codes.bind_ok.mp decoded
      obtain rfl := Except.ok.inj last
      cases same with
      | delete equal => exact ⟨found, located, equal⟩
    · rintro ⟨found, located, equal⟩
      refine ⟨.delete found incarnation, ?_, .delete equal⟩
      rw [located]
      rfl
  | rekey source target incarnation value =>
    obtain ⟨sourced, targeted, valued⟩ := producible
    have decoding : decodeOp libraries (encodeOp libraries (.rekey source target incarnation value)) =
        decodeAddress libraries (encodeAddress libraries source) >>= fun source =>
          decodeAddress libraries (encodeAddress libraries target) >>= fun target =>
            decode libraries (encode libraries value) >>= fun value =>
              pure (.rekey source target incarnation value) := rfl
    rw [decoding, Carries, ← decodeAddress_encodeAddress_iff documented sourced,
      ← decodeAddress_encodeAddress_iff documented targeted, ← decode_encode_iff documented valued]
    constructor
    · rintro ⟨read, decoded, same⟩
      obtain ⟨start, located, rest⟩ := Codes.bind_ok.mp decoded
      obtain ⟨finish, arrived, rest⟩ := Codes.bind_ok.mp rest
      obtain ⟨payload, loaded, last⟩ := Codes.bind_ok.mp rest
      obtain rfl := Except.ok.inj last
      cases same with
      | rekey equal arrives values =>
        exact ⟨⟨start, located, equal⟩, ⟨finish, arrived, arrives⟩, payload, loaded, values⟩
    · rintro ⟨⟨start, located, equal⟩, ⟨finish, arrived, arrives⟩, payload, loaded, values⟩
      refine ⟨.rekey start finish incarnation payload, ?_, .rekey equal arrives values⟩
      rw [located, Codes.ok_bind, arrived, Codes.ok_bind, loaded]
      rfl

theorem encodeOp_wellFormed {op : CommittedRowOp KeyedAddress} (producible : Carries Producible op) :
    (encodeOp libraries op).WellFormed := by
  have token : ∀ incarnation : RowIncarnation, (incar incarnation).WellFormed := J.wellFormed_string
  cases op with
  | insert address incarnation value | update address incarnation value =>
    obtain ⟨addressed, valued⟩ := producible
    refine tag_wellFormed (J.wellFormed_array.mpr fun item inside => ?_)
    simp only [List.mem_cons, List.not_mem_nil, or_false] at inside
    rcases inside with rfl | rfl | rfl
    · exact encodeAddress_wellFormed addressed
    · exact token incarnation
    · exact encode_wellFormed valued.wellFormed
  | delete address incarnation =>
    refine tag_wellFormed (J.wellFormed_array.mpr fun item inside => ?_)
    simp only [List.mem_cons, List.not_mem_nil, or_false] at inside
    rcases inside with rfl | rfl
    · exact encodeAddress_wellFormed producible
    · exact token incarnation
  | rekey source target incarnation value =>
    obtain ⟨sourced, targeted, valued⟩ := producible
    refine tag_wellFormed (J.wellFormed_array.mpr fun item inside => ?_)
    simp only [List.mem_cons, List.not_mem_nil, or_false] at inside
    rcases inside with rfl | rfl | rfl | rfl
    · exact encodeAddress_wellFormed sourced
    · exact encodeAddress_wellFormed targeted
    · exact token incarnation
    · exact encode_wellFormed valued.wellFormed

end Operations

section Logs

variable {libraries : Libraries}

/-- All operations of a transition carry values with a property. -/
def CarriesAll (property : Value → Prop) (transition : CommittedTransition KeyedAddress) : Prop :=
  ∀ op ∈ transition.ops, Carries property op

/-- A row of the log gives back all of its transition but the operations, which decode one by one. -/
theorem decodeLogRow_logRow {transition : CommittedTransition KeyedAddress}
    (producible : CarriesAll Producible transition) {row : LogRow}
    (stored : logRow libraries transition = .ok row) :
    decodeLogRow libraries row =
      (transition.ops.mapM fun op => decodeOp libraries (encodeOp libraries op)) >>= fun ops =>
        pure ⟨transition.seq, ops, transition.created, transition.transaction⟩ := by
  obtain ⟨seq, fits, last⟩ := Codes.bind_ok.mp stored
  obtain rfl := Except.ok.inj last
  have position : seqFrom seq "commit_log.seq" = .ok transition.seq := by
    rw [seqNum] at fits
    split at fits
    · obtain rfl := Except.ok.inj fits
      rw [seqFrom, if_neg (Int.not_lt.mpr (Int.natCast_nonneg _)), Int.toNat_natCast]
    · cases fits
  have ops : fromJsonb (toJsonb (.array (transition.ops.map (encodeOp libraries)))) =
      .array (transition.ops.map (encodeOp libraries)) := by
    refine fromJsonb_toJsonb (J.wellFormed_array.mpr fun item inside => ?_)
    obtain ⟨op, listed, rfl⟩ := List.mem_map.mp inside
    exact encodeOp_wellFormed (producible op listed)
  have created : decodeCreated libraries (fromJsonb (toJsonb (encode libraries (.timestamp transition.created)))) =
      .ok transition.created := by
    have leaf : (Value.timestamp transition.created).WellFormed :=
      .intro trivial fun _ none => absurd none List.not_mem_nil
    rw [fromJsonb_toJsonb (encode_wellFormed leaf), decodeCreated]
    change ((decodeTimestamp (encodeTimestamp transition.created)).map Value.timestamp >>= _) = _
    rw [decodeTimestamp_encodeTimestamp]
    rfl
  have token : (transition.transaction.map escape).map unescape = transition.transaction := by
    rw [Option.map_map]
    exact (Option.map_congr fun _ _ => unescape_escape _).trans Option.map_id_apply'
  rw [decodeLogRow, position, Codes.ok_bind, ops]
  change (((transition.ops.map (encodeOp libraries)).mapM (decodeOp libraries)) >>= fun ops => _) = _
  rw [List.mapM_map]
  refine bind_congr fun read => ?_
  rw [created, Codes.ok_bind]
  dsimp only
  rw [token]

/-- A transition reads back as the same transition exactly when all that it carries is durable. -/
theorem decodeLogRow_logRow_iff (documented : libraries.Documented)
    {transition : CommittedTransition KeyedAddress} (producible : CarriesAll Producible transition) {row : LogRow}
    (stored : logRow libraries transition = .ok row) :
    (∃ read, decodeLogRow libraries row = .ok read ∧ transition.Alike Value.Identical read) ↔
      CarriesAll Durable transition := by
  rw [decodeLogRow_logRow producible stored]
  constructor
  · rintro ⟨read, decoded, same⟩ op inside
    obtain ⟨ops, all, last⟩ := Codes.bind_ok.mp decoded
    obtain rfl := Except.ok.inj last
    have both := Codes.forall₂_and (Codes.forall₂_of_mapM all) same.ops
    obtain ⟨found, _, answered, alike⟩ := Codes.exists_related both inside
    exact (decodeOp_encodeOp_iff documented (producible op inside)).mp ⟨found, answered, alike⟩
  · intro durable
    obtain ⟨ops, all, related⟩ := Codes.exists_mapM_related fun op inside =>
      (decodeOp_encodeOp_iff documented (producible op inside)).mpr (durable op inside)
    refine ⟨⟨transition.seq, ops, transition.created, transition.transaction⟩, ?_, rfl, related, rfl, rfl⟩
    rw [all]
    rfl

/-- A log reads back as the same log exactly when all that it carries is durable. -/
theorem reload_iff (documented : libraries.Documented) {log : List (CommittedTransition KeyedAddress)}
    (producible : ∀ transition ∈ log, CarriesAll Producible transition) {rows : List LogRow}
    (stored : persist libraries log = .ok rows) :
    (∃ read, reload libraries rows = .ok read ∧
      List.Forall₂ (CommittedTransition.Alike Value.Identical) log read) ↔
        ∀ transition ∈ log, CarriesAll Durable transition := by
  have each := Codes.forall₂_mem (Codes.forall₂_of_mapM stored)
  constructor
  · rintro ⟨read, loaded, same⟩ transition inside
    have both := Codes.forall₂_and (Codes.forall₂_of_mapM (Codes.mapM_then stored loaded)) same
    obtain ⟨found, _, answered, alike⟩ := Codes.exists_related both inside
    obtain ⟨row, kept, decoded⟩ := Codes.bind_ok.mp answered
    exact (decodeLogRow_logRow_iff documented (producible transition inside) kept).mp ⟨found, decoded, alike⟩
  · intro durable
    refine Codes.exists_mapM_of_forall₂ (each.flip.imp ?_)
    rintro row transition ⟨inside, _, kept⟩
    exact (decodeLogRow_logRow_iff documented (producible transition inside) kept).mpr (durable transition inside)

/-- Addresses, operations and logs go through the tables unchanged exactly when the keys and the values that they
carry are durable, and the log that was read then replays as the log that was written. -/
theorem log_records_iff (documented : libraries.Documented) :
    (∀ address : KeyedAddress, address.Everywhere Producible →
      ((∃ read, decodeAddress libraries (fromJsonb (toJsonb (encodeAddress libraries address))) = .ok read ∧
        compare address read = .eq) ↔ address.Everywhere Durable)) ∧
      (∀ op : CommittedRowOp KeyedAddress, Carries Producible op →
        ((∃ read, decodeOp libraries (fromJsonb (toJsonb (encodeOp libraries op))) = .ok read ∧
          op.Alike Value.Identical read) ↔ Carries Durable op)) ∧
      ∀ (log : List (CommittedTransition KeyedAddress)) (rows : List LogRow),
        (∀ transition ∈ log, CarriesAll Producible transition) → persist libraries log = .ok rows →
          ((∃ read, reload libraries rows = .ok read ∧
            List.Forall₂ (CommittedTransition.Alike Value.Identical) log read ∧
              ∀ frontier, Replayed (Snapshot.Alike Value.Identical) (Snapshot.replay log frontier)
                (Snapshot.replay read frontier)) ↔ ∀ transition ∈ log, CarriesAll Durable transition) := by
  refine ⟨fun address producible => ?_, fun op producible => ?_, fun log rows producible stored => ?_⟩
  · rw [fromJsonb_toJsonb (encodeAddress_wellFormed producible)]
    exact decodeAddress_encodeAddress_iff documented producible
  · rw [fromJsonb_toJsonb (encodeOp_wellFormed producible)]
    exact decodeOp_encodeOp_iff documented producible
  · rw [← reload_iff documented producible stored]
    refine exists_congr fun read => and_congr_right fun _ => and_iff_left_of_imp fun same => ?_
    exact Snapshot.replay_alike same

/-- The address of a row whose key has a map and an instant. -/
def sampleAddress : KeyedAddress :=
  ⟨⟨"orders", sampleKey⟩, []⟩

theorem sampleAddress_everywhere {property : Value → Prop} (map : property sampleMap)
    (instant : property (.timestamp ⟨⟨1000, by decide, by decide⟩, .millis⟩)) :
    sampleAddress.Everywhere property := by
  intro keyed inside component listed
  obtain rfl := List.mem_singleton.mp inside
  rcases List.mem_cons.mp listed with rfl | second
  · exact map
  · rw [List.mem_singleton.mp second]
    exact instant

/-- One transition inserts a row and removes it again. -/
def sampleLog : List (CommittedTransition KeyedAddress) :=
  [⟨1, [.insert sampleAddress "row-0" sampleMap, .delete sampleAddress "row-0"],
    ⟨⟨2000, by decide, by decide⟩, .millis⟩, some "\x00"⟩]

theorem sampleLog_carries {property : Value → Prop} (map : property sampleMap)
    (instant : property (.timestamp ⟨⟨1000, by decide, by decide⟩, .millis⟩)) :
    ∀ transition ∈ sampleLog, CarriesAll property transition := by
  intro transition inside op listed
  obtain rfl := List.mem_singleton.mp inside
  have addressed := sampleAddress_everywhere map instant
  rcases List.mem_cons.mp listed with rfl | second
  · exact ⟨addressed, map⟩
  · rw [List.mem_singleton.mp second]
    exact addressed

theorem log_records_sample :
    (∃ read, decodeAddress Sample.libraries
        (fromJsonb (toJsonb (encodeAddress Sample.libraries sampleAddress))) = .ok read ∧
      compare sampleAddress read = .eq) ∧
      ∃ rows, persist Sample.libraries sampleLog = .ok rows ∧ ∃ read, reload Sample.libraries rows = .ok read ∧
        Replayed (Snapshot.Alike Value.Identical) (Snapshot.replay sampleLog 1) (Snapshot.replay read 1) := by
  obtain ⟨addresses, _, logs⟩ := log_records_iff Sample.documented
  have fits : Decimal.Fits ⟨150, 2⟩ := by decide +kernel
  have leaf : ∀ {property : Value → Prop} (instant : Timestamp), property (.timestamp instant) →
      (Value.timestamp instant).Everywhere property :=
    fun _ holds => .intro holds fun _ none => absurd none List.not_mem_nil
  have producible : Producible sampleMap := sampleMap_everywhere (List.pairwise_singleton _ _) trivial trivial
  have durable : Durable sampleMap := by
    refine sampleMap_everywhere (fun entry inside => ?_) trivial fits
    rw [List.mem_singleton.mp inside]
    rfl
  refine ⟨?_, ?_⟩
  · exact (addresses sampleAddress (sampleAddress_everywhere producible (leaf _ trivial))).mpr
      (sampleAddress_everywhere durable (leaf _ trivial))
  · obtain ⟨rows, stored⟩ : ∃ rows, persist Sample.libraries sampleLog = .ok rows := ⟨_, rfl⟩
    obtain ⟨read, loaded, _, replays⟩ := (logs sampleLog rows
      (sampleLog_carries producible (leaf _ trivial)) stored).mpr (sampleLog_carries durable (leaf _ trivial))
    exact ⟨rows, stored, read, loaded, replays 1⟩

/-- The address of a row whose key is the product of two decimals that fit. -/
def smallAddress : KeyedAddress :=
  ⟨⟨"orders", ⟨.decimal smallProduct, []⟩⟩, []⟩

/-- An operation that puts the product of two decimals that fit at its own key does not read back, nor does its
address. -/
theorem smallProduct_unread :
    Carries Producible (.insert smallAddress "row-0" (.decimal smallProduct)) ∧
      (¬ ∃ read, decodeOp Sample.libraries (fromJsonb (toJsonb (encodeOp Sample.libraries
          (.insert smallAddress "row-0" (.decimal smallProduct))))) = .ok read ∧
            CommittedRowOp.Alike Value.Identical (.insert smallAddress "row-0" (.decimal smallProduct)) read) ∧
        ¬ ∃ read, decodeAddress Sample.libraries
          (fromJsonb (toJsonb (encodeAddress Sample.libraries smallAddress))) = .ok read ∧
            compare smallAddress read = .eq := by
  have wide : ¬ Decimal.Fits smallProduct := by decide +kernel
  have leaf : Producible (.decimal smallProduct) := .intro trivial fun _ none => absurd none List.not_mem_nil
  have addressed : smallAddress.Everywhere Producible := by
    intro keyed inside component listed
    obtain rfl := List.mem_singleton.mp inside
    rw [List.mem_singleton.mp listed]
    exact leaf
  have lost : ¬ Durable (.decimal smallProduct) := by
    rintro ⟨fits, _⟩
    exact wide fits
  have producible : Carries Producible (.insert smallAddress "row-0" (.decimal smallProduct)) := ⟨addressed, leaf⟩
  refine ⟨producible, ?_, ?_⟩
  · rw [fromJsonb_toJsonb (encodeOp_wellFormed producible), decodeOp_encodeOp_iff Sample.documented producible]
    exact fun durable => lost durable.2
  · rw [fromJsonb_toJsonb (encodeAddress_wellFormed addressed),
      decodeAddress_encodeAddress_iff Sample.documented addressed]
    exact fun durable => lost (durable _ List.mem_cons_self _ List.mem_cons_self)

end Logs

end Liasse.Pg.Codec

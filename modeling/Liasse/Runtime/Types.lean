/-
This file models the declared types of fields, the refusals of the admission pipeline and the coercion
of a written value to its declared type.
-/

import Liasse.Codes.Listing
import Liasse.Codes.Sorted
import Liasse.Store.Address

namespace Liasse.Runtime

open Store

section Refusals

/-- The class of a refusal. -/
inductive RejectionReason
  | check
  | duplicateKey
  | danglingRef
  | uniqueness
  | missingTarget
  | restricted
  | evaluation
  | typeError
  | assertion
  | malformed
deriving DecidableEq

/-- The state path of a refusal is a row, a field of a row or a declaration. -/
inductive StatePath
  | row (address : RowAddress)
  | field (address : RowAddress) (name : String)
  | declaration (path : String)
deriving DecidableEq

/-- A refusal with its class, its message and the state path that it concerns. -/
structure Rejection where
  reason : RejectionReason
  message : String
  path : Option StatePath
deriving DecidableEq

/-- A refusal without a state path. -/
def Rejection.new (reason : RejectionReason) (message : String) : Rejection :=
  ⟨reason, message, none⟩

/-- The refusal concerns a state path. -/
def Rejection.at (rejection : Rejection) (path : StatePath) : Rejection :=
  { rejection with path := some path }

end Refusals

section Types

mutual

/-- The declared key type that a reference points at. -/
inductive RefTarget
  | scalar (key : FieldType)
  | composite (components : List (String × FieldType))

/-- A declared type. The fields of a struct type are in name order. -/
inductive FieldType
  | text
  | bool
  | int
  | decimal
  | bytes
  | uuid
  | date
  | timestamp (precision : Precision)
  | duration
  | period
  | json
  | blob
  | enum (labels : List String)
  | optional (inner : FieldType)
  | set (inner : FieldType)
  | map (key value : FieldType)
  | view (inner : FieldType)
  | ref (target : RefTarget)
  | struct (fields : List (String × FieldType))
  | composite (components : List (String × FieldType))

end

namespace FieldType

/-- An omitted set or map starts empty. -/
def emptyContainer : FieldType → Option Value
  | .set _ => some (.set [])
  | .map _ _ => some (.map [])
  | _ => none

/-- The value of a field that was neither supplied nor defaulted. -/
def absentValue (type : FieldType) : Value :=
  type.emptyContainer.getD .none

end FieldType

end Types

section Rescaling

/-- The rounding of a discarded fraction that a package selects. -/
inductive DivisionRounding
  | halfAwayFromZero
  | halfEven
  | towardZero
  | awayFromZero
  | floor
  | ceiling
deriving DecidableEq

/-- The saturation of an integer at the bounds of a signed machine integer. -/
def saturate (bits : Nat) (value : Int) : Signed bits :=
  ⟨max (-2 ^ (bits - 1)) (min value (2 ^ (bits - 1) - 1)), by omega, by
    have positive : (0 : Int) < 2 ^ (bits - 1) := by positivity
    omega⟩

end Rescaling

section Coercion

/-- A set of values is sorted and has no repeated member. -/
def setOf (members : List Value) : List Value :=
  members.foldl (fun set member => Codes.insertSorted Value.cmp member set) []

end Coercion

end Liasse.Runtime

import IronGraph.Types

/-!
The identities of graph entities and the scalar values their properties hold.

A float is its bit pattern: what a computation does with it is left to the layer that computes.
-/

namespace IronGraph

abbrev NodeId := UInt64

abbrev EdgeId := UInt64

abbrev LabelId := UInt64

abbrev PropertyId := UInt64

abbrev RelationshipTypeId := UInt64

inductive EntityKind where
  | node
  | relationship
deriving Repr, DecidableEq

def EntityKind.byte : EntityKind → UInt8
  | .node => 0
  | .relationship => 1

inductive ScalarValue where
  | null
  | boolean (value : Bool)
  | integer (value : Int)
  | float (bits : BitVec 64)
  | string (value : String)
  | bytes (value : Bytes)
  | date (value : Int)
  | localTime (value : Int)
  | zonedTime (nanos offsetSeconds : Int)
  | localDateTime (seconds : Int) (nanos : Nat)
  | zonedDateTime (seconds : Int) (nanos : Nat) (timezone : String)
  | duration (months days seconds nanos : Int)
  | list (document : Bytes)
  | map (document : Bytes)
deriving Repr, DecidableEq

def ScalarValue.isDocument : ScalarValue → Bool
  | .list _ | .map _ => true
  | _ => false

def i64Min : Int := -2 ^ 63

def i64Max : Int := 2 ^ 63 - 1

/-- The result of a saturating operation on 64-bit signed integers. -/
def saturate (value : Int) : Int := max i64Min (min i64Max value)

def checked (value : Int) : Option Int :=
  if i64Min ≤ value ∧ value ≤ i64Max then some value else none

theorem checked_eq_some {value result : Int} (passed : checked value = some result) :
    result = value ∧ i64Min ≤ value ∧ value ≤ i64Max := by
  unfold checked at passed
  split at passed
  next inside => exact ⟨(Option.some.inj passed).symm, inside⟩
  · cases passed

end IronGraph

import IronGraph.Graph.IndexCore

/-!
Cypher equality of values, and the test a node pattern applies to the properties of a node. Values
that are not scalars are left to the parameters that materialise a document and compare two of them.
-/

namespace IronGraph.Cypher

open IronGraph.Graph Outcome

inductive Truth where
  | false
  | true
  | unknown
deriving Repr, DecidableEq

def boolTruth (value : Bool) : Truth :=
  if value then .true else .false

inductive ResultValue (ρ : Type) where
  | scalar (value : ScalarValue)
  | other (value : ρ)

/-- A number as its category, exponent and significand, compared in this order. -/
structure OrderedNumber where
  category : Nat
  exponent : Nat
  significand : Nat
deriving Repr, DecidableEq

namespace OrderedNumber

def ofCategory (category : Nat) : OrderedNumber where
  category
  exponent := 0
  significand := 0

def zero : OrderedNumber := ofCategory 3

def minBinaryExponent : Int := -1074

/-- The fields of a negative number are complemented, so that they order the other way. -/
def finite (negative : Bool) (exponent : Int) (significand : Nat) : OrderedNumber :=
  let biased := (exponent - minBinaryExponent).toNat
  if negative then
    { category := 2, exponent := 2 ^ 16 - 1 - biased, significand := 2 ^ 64 - 1 - significand }
  else { category := 4, exponent := biased, significand }

def ofInteger (value : Int) : OrderedNumber :=
  if value = 0 then zero
  else
    let width := value.natAbs.log2 + 1
    finite (value < 0) (width - 1 : Nat) (value.natAbs * 2 ^ (64 - width))

def ofFloat (bits : BitVec 64) : OrderedNumber :=
  if floatIsNan bits then ofCategory 6
  else if bits = 0xfff0000000000000 then ofCategory 1
  else if bits = 0x7ff0000000000000 then ofCategory 5
  else if (bits.setWidth 63).toNat = 0 then zero
  else
    let storedExponent : Nat := (bits.setWidth 63).toNat / 2 ^ 52
    let fraction := (bits.setWidth 52).toNat
    if storedExponent = 0 then
      let width := fraction.log2 + 1
      finite bits.msb (minBinaryExponent + width - 1) (fraction * 2 ^ (64 - width))
    else finite bits.msb ((storedExponent : Int) - 1023) ((2 ^ 52 + fraction) * 2 ^ 11)

def cmp (first second : OrderedNumber) : Ordering := (compare first.category second.category).then
    ((compare first.exponent second.exponent).then (compare first.significand second.significand))

end OrderedNumber

def compareI64F64 (integer : Int) (float : BitVec 64) : Ordering :=
  (OrderedNumber.ofInteger integer).cmp (.ofFloat float)

def scalarFamily : ScalarValue → Nat
  | .integer _ | .float _ => 0
  | .boolean _ => 1
  | .string _ => 2
  | .bytes _ => 3
  | .date _ => 4
  | .localTime _ => 5
  | .zonedTime .. => 6
  | .localDateTime .. => 7
  | .zonedDateTime .. => 8
  | .duration .. => 9
  | .null => 10
  | .list _ => 11
  | .map _ => 12

def scalarIsNan : ScalarValue → Bool
  | .float bits => floatIsNan bits
  | _ => false

/-- Equality of scalars as the type derives it, where floats are equal as `OrderedFloat` has it. -/
def sameScalar : ScalarValue → ScalarValue → Bool
  | .float first, .float second => floatPlace first = floatPlace second
  | first, second => first = second

def equalScalars (left right : ScalarValue) : Truth := match left, right with
  | .integer left, .float right => boolTruth (!floatIsNan right && (compareI64F64 left right).isEq)
  | .float left, .integer right => boolTruth (!floatIsNan left && (compareI64F64 right left).isEq)
  | left, right =>
    if scalarFamily left ≠ scalarFamily right then .false
    else if scalarIsNan left || scalarIsNan right then .false
    else boolTruth (sameScalar left right)

section Equal

variable {ρ : Type} (materialize : ScalarValue → Result ρ) (equalOthers : ρ → ρ → Result Truth)

def fromProperty (value : ScalarValue) : Result (ResultValue ρ) :=
  if value.isDocument then do
    let materialized ← materialize value
    return .other materialized
  else .ok (.scalar value)

def unfolded : ResultValue ρ → Result (ResultValue ρ)
  | .scalar value => fromProperty materialize value
  | value => .ok value

def ResultValue.isNull : ResultValue ρ → Bool
  | .scalar .null => true
  | _ => false

def equal (left right : ResultValue ρ) : Result Truth := do
  let left ← unfolded materialize left
  let right ← unfolded materialize right
  if left.isNull || right.isNull then return .unknown
  else
    match left, right with
    | .scalar left, .scalar right => return equalScalars left right
    | .other left, .other right => equalOthers left right
    | _, _ => return .false

def propertyMatches (store : GraphStore) (node : NodeView) (property : PropertyId)
    (expected : ScalarValue) : Result Bool := do
  let actual ← fromProperty materialize (((node.property property).eval store).getD .null)
  let truth ← equal materialize equalOthers actual (.scalar expected)
  return truth = .true

end Equal

end IronGraph.Cypher

import IronGraph.Graph.StoreCore

/-!
The scalar indexes of a project: the keys that values give, and the lookups by label and equal
values. Postings are taken at rest, as a set of pairs. A float is kept by its place in the total
order of `OrderedFloat`, where all NaN are one and so are the two zeros.
-/

namespace IronGraph.Graph

open Std Outcome Prod

/-- The sign and the magnitude of a float as one number; every NaN comes after the infinities. -/
def floatPlace (bits : BitVec 64) : Int :=
  let magnitude : Int := (bits.setWidth 63).toNat
  if 0x7ff0000000000000 < magnitude then 2 ^ 63 else if bits.msb then -magnitude else magnitude

def floatIsNan (bits : BitVec 64) : Bool := 0x7ff0000000000000 < (bits.setWidth 63).toNat

inductive ScalarKey where
  | boolean (value : Bool)
  | integer (value : Int)
  | float (place : Int)
  | string (value : String)
  | bytes (value : Bytes)
  | date (value : Int)
  | localTime (value : Int)
  | zonedTime (nanos offsetSeconds : Int)
  | localDateTime (seconds : Int) (nanos : Nat)
  | zonedDateTime (seconds : Int) (nanos : Nat) (timezone : String)
  | duration (months days seconds nanos : Int)
deriving Repr, DecidableEq

inductive IndexKey where
  | single (key : ScalarKey)
  | composite (keys : List ScalarKey)
deriving Repr, DecidableEq

namespace ScalarKey

def tryFrom : ScalarValue → Result ScalarKey
  | .null => .error (.new .queryType "NULL is not indexed")
  | .boolean value => .ok (.boolean value)
  | .integer value => .ok (.integer value)
  | .float bits => .ok (.float (floatPlace bits))
  | .string value => .ok (.string value)
  | .bytes value => .ok (.bytes value)
  | .date value => .ok (.date value)
  | .localTime value => .ok (.localTime value)
  | .zonedTime nanos offset => .ok (.zonedTime nanos offset)
  | .localDateTime seconds nanos => .ok (.localDateTime seconds nanos)
  | .zonedDateTime seconds nanos timezone => .ok (.zonedDateTime seconds nanos timezone)
  | .duration months days seconds nanos => .ok (.duration months days seconds nanos)
  | .list _ | .map _ =>
    .error (.new .queryType "document properties require an explicitly declared document-path index")

/-- A text as the numbers of its characters, which order like the bytes that spell them. -/
def letters (text : String) : List Int := text.toList.map fun letter => letter.toNat

/-- The variant and then the fields, compared from left to right. -/
def code : ScalarKey → List Int
  | .boolean value => [0, if value then 1 else 0]
  | .integer value => [1, value]
  | .float place => [2, place]
  | .string value => 3 :: letters value
  | .bytes value => 4 :: value.map fun byte => byte.toNat
  | .date value => [5, value]
  | .localTime value => [6, value]
  | .zonedTime nanos offset => [7, nanos, offset]
  | .localDateTime seconds nanos => [8, seconds, nanos]
  | .zonedDateTime seconds nanos timezone => 9 :: seconds :: nanos :: letters timezone
  | .duration months days seconds nanos => [10, months, days, seconds, nanos]

end ScalarKey

namespace IndexKey

def ofKeys : List ScalarKey → IndexKey
  | [key] => .single key
  | keys => .composite keys

def code : IndexKey → ℕ ×ₗ List (List Int)
  | .single key => toLex (0, [key.code])
  | .composite keys => toLex (1, keys.map ScalarKey.code)

end IndexKey

abbrev Postings (κ : Type) [DecidableEq κ] := Finset (κ × Nat)

namespace Postings

variable {κ : Type} [DecidableEq κ]

def rows (postings : Postings κ) (key : κ) : Finset Nat :=
  (postings.filter fun entry => entry.1 = key).image snd

end Postings

def RangeIndex.between (postings : Postings IndexKey) (lower upper : Option (IndexKey × Bool)) :
    Finset Nat :=
  (postings.filter fun entry =>
    (match lower with
      | none => true
      | some (bound, inclusive) =>
        if inclusive then decide (bound.code ≤ entry.1.code) else decide (bound.code < entry.1.code)) &&
    match upper with
      | none => true
      | some (bound, inclusive) =>
        if inclusive then decide (entry.1.code ≤ bound.code)
          else decide (entry.1.code < bound.code)).image snd

structure TextIndex where
  postings : Postings String
  rows : ExtTreeMap Nat (List String)

inductive RuntimeIndex where
  | equality (postings : Postings IndexKey)
  | range (postings : Postings IndexKey)
  | text (index : TextIndex)
  | vector (property : PropertyId)

inductive GraphIndexKind where
  | equality
  | range
  | text
  | vector
deriving Repr, DecidableEq

structure GraphIndexDefinition where
  name : String
  kind : GraphIndexKind
  label : LabelId
  properties : List PropertyId
  unique : Bool
deriving Repr, DecidableEq

inductive DerivedIndexState where
  | populating
  | online
  | failed
  | dropping
deriving Repr, DecidableEq

structure IndexEntry where
  definition : GraphIndexDefinition
  state : DerivedIndexState
  runtime : Option RuntimeIndex

structure IndexCatalog where
  entries : ExtTreeMap String IndexEntry

abbrev Values := ExtTreeMap PropertyId ScalarValue

/-- The loop over the properties of an index: the keys of their values, or `none` at the first that
is not there. -/
def keysOf (value : PropertyId → Result (Option ScalarValue)) :
    List PropertyId → Result (Option (List ScalarKey))
  | [] => .ok (some [])
  | property :: rest => do
    match ← value property with
    | none | some .null => return none
    | some found =>
      let key ← ScalarKey.tryFrom found
      match ← keysOf value rest with
      | none => return none
      | some keys => return some (key :: keys)

def compositeKey (store : GraphStore) (node : NodeView) (properties : List PropertyId) :
    Result (Option IndexKey) := do
  let keys ← keysOf (fun property => .ok ((node.property property).eval store)) properties
  return keys.map IndexKey.ofKeys

def givenValue (values : Values) (property : PropertyId) : Result (Option ScalarValue) := do
  let value ← orElse values[property]? (.internal "index value disappeared")
  return some value

def scalarLookupKey (properties : List PropertyId) (values : Values) : Result (Option IndexKey) := do
  let keys ← keysOf (givenValue values) properties
  return keys.map IndexKey.ofKeys

namespace IndexEntry

def serves (entry : IndexEntry) (label : LabelId) (values : Values) : Bool :=
  entry.state = .online && entry.definition.label = label &&
    (entry.definition.kind = .equality || entry.definition.kind = .range) &&
    entry.definition.properties.all fun property => values.contains property

def noRuntime : Error := .new .corruptStorage "ONLINE scalar index has no physical runtime"

def wrongRuntime : Error := .new .corruptStorage "scalar index definition and runtime kind differ"

def rows (entry : IndexEntry) (key : IndexKey) : Result (Finset Nat) := do
  match ← orElse entry.runtime noRuntime with
  | .equality postings => return postings.rows key
  | .range postings => return RangeIndex.between postings (some (key, true)) (some (key, true))
  | .text _ | .vector _ => .error wrongRuntime

def lookup (entry : IndexEntry) (values : Values) : Result (Finset Nat) := do
  match ← scalarLookupKey entry.definition.properties values with
  | none => return ∅
  | some key => entry.rows key

end IndexEntry

namespace IndexCatalog

def equalityCandidatesNamed (catalog : IndexCatalog) (name : String) (label : LabelId)
    (values : Values) : Result (Option (Finset Nat)) :=
  match catalog.entries[name]? with
  | none => .ok none
  | some entry =>
    if entry.serves label values then do
      let rows ← entry.lookup values
      return some rows
    else .ok none

def better (first second : String × Finset Nat) : Bool :=
  first.2.card < second.2.card || first.2.card = second.2.card && first.1 < second.1

def chooseCandidate (label : LabelId) (values : Values) (best : Option (String × Finset Nat))
    (item : String × IndexEntry) : Result (Option (String × Finset Nat)) :=
  if item.2.serves label values then do
    let rows ← item.2.lookup values
    let candidate := (item.1, rows)
    return if best.all (better candidate) then some candidate else best
  else .ok best

def equalityCandidates (catalog : IndexCatalog) (label : LabelId) (values : Values) :
    Result (Option (Finset Nat)) := do
  let best ← catalog.entries.toList.foldlM (chooseCandidate label values) none
  return best.map snd

end IndexCatalog

end IronGraph.Graph

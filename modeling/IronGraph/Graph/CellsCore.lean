import IronGraph.Graph.Scalar
import IronGraph.Library.OrderedMap
import IronGraph.Library.Reading

/-!
The cells of the canonical graph. A value is spread over several atomics, so a read is a program of
atomic looks and a write is a list of atomic stores. The bits of a primitive value are taken as the
signed number they spell.
-/

namespace IronGraph.Graph

open Std

inductive Layer where
  | observed
  | knowledge
  | workspace
deriving Repr, DecidableEq

namespace Layer

def all : List Layer := [.observed, .knowledge, .workspace]

def index : Layer → Nat
  | .observed => 0
  | .knowledge => 1
  | .workspace => 2

end Layer

abbrev LayerMask := BitVec 3

namespace LayerMask

def all : LayerMask := 7

def containsLayer (mask : LayerMask) (layer : Layer) : Bool := mask.getLsbD layer.index

end LayerMask

def u64Max : Nat := u64Limit - 1

def noRow : Nat := 2 ^ 32 - 1

def budget (message : String) : Error := .new .resultBudgetExceeded message

def missing (message : String) : Error := .new .queryType message

def valueKind : ScalarValue → Nat
  | .null => 0
  | .boolean _ => 1
  | .integer _ => 2
  | .float _ => 3
  | .string _ => 4
  | .bytes _ => 5
  | .date _ => 6
  | .localTime _ => 7
  | .zonedTime .. => 8
  | .localDateTime .. => 9
  | .zonedDateTime .. => 10
  | .duration .. => 11
  | .list _ => 12
  | .map _ => 13

structure PropertyCell where
  mode : Nat
  bits : Int
  payload : Option ScalarValue
deriving Repr, DecidableEq

namespace PropertyCell

def blank : PropertyCell where
  mode := 0
  bits := 0
  payload := none

def variableCell : Nat := 255

def word : ScalarValue → Int
  | .boolean value => if value then 1 else 0
  | .integer value => value
  | .float bits => bits.toInt
  | _ => 0

def decode (mode : Nat) (bits : Int) : Option ScalarValue := match mode with
  | 1 => some (.boolean (bits ≠ 0))
  | 2 => some (.integer bits)
  | 3 => some (.float (BitVec.ofInt 64 bits))
  | _ => none

def guardedValue : Reading PropertyCell (Option ScalarValue) := .load (·.payload)

def get : Reading PropertyCell (Option ScalarValue) := do
  let mode ← .load (·.mode)
  if mode = variableCell then guardedValue
  else if mode = 0 then return none
  else
    let bits ← .load (·.bits)
    let again ← .load (·.mode)
    if again ≠ mode then guardedValue else return decode mode bits

def isPrimitive (kind : Nat) : Bool := 1 ≤ kind && kind ≤ 3

def set (cell : PropertyCell) (value : ScalarValue) : List (PropertyCell → PropertyCell) :=
  let kind := valueKind value
  if isPrimitive kind && (cell.mode = 0 || cell.mode = kind) then
    (fun cell => { cell with bits := word value }) ::
      if cell.mode = 0 then [fun cell => { cell with mode := kind }] else []
  else
    (fun cell => { cell with payload := if kind = 0 then none else some value }) ::
      if cell.mode ≠ variableCell
      then [fun cell => { cell with mode := variableCell }, fun cell => { cell with bits := 0 }] else []

def reset : List (PropertyCell → PropertyCell) :=
  [fun cell => { cell with payload := none }, fun cell => { cell with mode := 0 },
    fun cell => { cell with bits := 0 }]

end PropertyCell

abbrev Properties := ExtTreeMap PropertyId (ExtTreeMap Nat PropertyCell)

namespace Properties

def cell (properties : Properties) (row : Nat) (property : PropertyId) : Option PropertyCell :=
  properties[property]?.bind fun column => column[row]?

/-- A cell that was never made reads as a blank one. -/
def cellAt (row : Nat) (property : PropertyId) (properties : Properties) : PropertyCell :=
  (properties.cell row property).getD .blank

def update (row : Nat) (property : PropertyId) (write : PropertyCell → PropertyCell)
    (properties : Properties) :
    Properties :=
  properties.alter property fun column =>
    some ((column.getD ∅).alter row fun cell => some (write (cell.getD .blank)))

def get (row : Nat) (property : PropertyId) : Reading Properties (Option ScalarValue) :=
  .zoom (cellAt row property) PropertyCell.get

def set (properties : Properties) (row : Nat) (property : PropertyId) (value : ScalarValue) :
    List (Properties → Properties) :=
  if value = .null then
    match properties.cell row property with
    | none => []
    | some cell => (cell.set .null).map (update row property)
  else ((cellAt row property properties).set value).map (update row property)

def clear (properties : Properties) (row : Nat) : List (Properties → Properties) :=
  properties.keys.flatMap fun property =>
    match properties.cell row property with
    | none => []
    | some _ => PropertyCell.reset.map (update row property)

end Properties

structure LabelsCell where
  inline : Nat
  multiple : Option (List LabelId)
deriving Repr, DecidableEq

namespace LabelsCell

def empty : LabelsCell where
  inline := 0
  multiple := none

def outOfLine (values : List LabelId) : List (LabelsCell → LabelsCell) :=
  [fun cell => { cell with multiple := some values }, fun cell => { cell with inline := u64Max }]

def inLine (token : Nat) : List (LabelsCell → LabelsCell) :=
  [fun cell => { cell with inline := token }, fun cell => { cell with multiple := none }]

def store (values : List LabelId) : List (LabelsCell → LabelsCell) := match values with
  | [] => inLine 0
  | [id] => if id.toNat < u64Max - 1 then inLine (id.toNat + 1) else outOfLine values
  | _ => outOfLine values

def handle : Reading LabelsCell (List LabelId) := do
  let inline ← .load (·.inline)
  if inline = 0 then return []
  else if inline = u64Max then
    let multiple ← .load (·.multiple)
    return multiple.getD []
  else return [UInt64.ofNat (inline - 1)]

end LabelsCell

def sortedDistinct (ids : List UInt64) : List UInt64 := (ExtTreeSet.ofList ids).toList

structure Names where
  byName : ExtTreeMap String UInt64
  byId : ExtTreeMap UInt64 String
  next : Nat

namespace Names

def empty : Names where
  byName := ∅
  byId := ∅
  next := 0

def assigned : Error := .new .transactionConflict "schema name or ID already assigned"

def declare (names : Names) (name : String) (id : UInt64) : Result Names :=
  if u64Max ≤ id.toNat then .error (budget "schema ID space exhausted")
  else if names.byName[name]?.any (· ≠ id) || names.byId[id]?.any (· ≠ name) then .error assigned
  else
    let declared := if (names.byId[id]?).isNone
      then { names with byId := names.byId.insert id name, byName := names.byName.insert name id }
        else names
    .ok { declared with next := max names.next (id.toNat + 1) }

end Names

structure NameCatalog where
  labels : Names
  properties : Names
  relationships : Names

namespace NameCatalog

def empty : NameCatalog where
  labels := .empty
  properties := .empty
  relationships := .empty

variable (catalog : NameCatalog)

def labelName (id : LabelId) : Option String := catalog.labels.byId[id]?

def propertyName (id : PropertyId) : Option String := catalog.properties.byId[id]?

def relationshipTypeName (id : RelationshipTypeId) : Option String := catalog.relationships.byId[id]?

end NameCatalog

/-- The stack of rows that may be taken again, threaded through its links. -/
structure FreeSlots where
  head : Option Nat
  links : List (Option Nat)
  available : Nat
deriving Repr, DecidableEq

namespace FreeSlots

def empty : FreeSlots where
  head := none
  links := []
  available := 0

def ensure (slots : FreeSlots) (row : Nat) : FreeSlots :=
  if row < slots.links.length then slots else { slots with links := slots.links ++ [none] }

def pop (slots : FreeSlots) : Option (Nat × FreeSlots) := do
  let row ← slots.head
  let next ← slots.links[row]?
  return (row, { slots with head := next, available := slots.available - 1 })

def release (slots : FreeSlots) (row : Nat) : FreeSlots :=
  if row < slots.links.length then
    { head := some row, links := slots.links.set row slots.head, available := slots.available + 1 }
  else slots

end FreeSlots

structure Counts where
  layers : Layer → Nat
  kinds : ExtTreeMap UInt64 (Layer → Nat)

namespace Counts

def empty : Counts where
  layers := fun _ => 0
  kinds := ∅

def bump (add : Bool) (counts : Layer → Nat) (layer : Layer) : Layer → Nat :=
  fun other => if other = layer then (if add then counts other + 1 else counts other - 1)
    else counts other

def adjust (counts : Counts) (layer : Layer) (kind : Option UInt64) (add : Bool) : Counts :=
  match kind with
  | none => { counts with layers := bump add counts.layers layer }
  | some kind =>
    { counts with
      kinds := counts.kinds.insert kind (bump add (counts.kinds.getD kind fun _ => 0) layer) }

end Counts

end IronGraph.Graph

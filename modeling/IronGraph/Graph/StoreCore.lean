import IronGraph.Graph.CellsCore
import IronGraph.Library.Outcome
import IronGraph.Library.Slots

/-!
The canonical graph store: rows of nodes and relationships that are taken again after deletion,
adjacency lists threaded through the relationship rows, and the mutations of the one ordered writer.
A mutation is a list of atomic stores; one that fails returns the stores it had made. A row that is
still being appended is inactive.
-/

namespace IronGraph.Graph

open Std Outcome

structure NodeInput where
  id : NodeId
  layer : Layer
  revision : Nat
  labels : List LabelId
  properties : List (PropertyId × ScalarValue)
deriving Repr, DecidableEq

structure EdgeInput where
  id : EdgeId
  source : NodeId
  target : NodeId
  relationshipType : RelationshipTypeId
  layer : Layer
  revision : Nat
  properties : List (PropertyId × ScalarValue)
deriving Repr, DecidableEq

inductive GraphMutation where
  | declareLabel (name : String) (id : LabelId)
  | declareProperty (name : String) (id : PropertyId)
  | declareRelationshipType (name : String) (id : RelationshipTypeId)
  | insertNode (input : NodeInput)
  | insertEdge (input : EdgeInput)
  | setNodeProperty (node : NodeId) (property : PropertyId) (value : ScalarValue) (revision : Nat)
  | addNodeLabels (node : NodeId) (labels : List LabelId) (revision : Nat)
  | removeNodeLabels (node : NodeId) (labels : List LabelId) (revision : Nat)
  | setEdgeProperty (edge : EdgeId) (property : PropertyId) (value : ScalarValue) (revision : Nat)
  | deleteNode (node : NodeId) (detach : Bool) (revision : Nat)
  | deleteEdge (edge : EdgeId) (revision : Nat)
deriving Repr, DecidableEq

structure NodeRow where
  stamp : Nat
  id : NodeId
  layer : Layer
  revision : Nat
  labels : LabelsCell
  outgoing : Option Nat
  incoming : Option Nat
  active : Bool
deriving Repr, DecidableEq

def NodeRow.fresh (stamp : Nat) : NodeRow where
  stamp
  id := 0
  layer := .observed
  revision := 0
  labels := .empty
  outgoing := none
  incoming := none
  active := false

structure EdgeRow where
  stamp : Nat
  id : EdgeId
  source : Nat
  target : Nat
  relationshipType : RelationshipTypeId
  layer : Layer
  revision : Nat
  nextOut : Option Nat
  nextIn : Option Nat
  active : Bool
deriving Repr, DecidableEq

def EdgeRow.fresh (stamp : Nat) : EdgeRow where
  stamp
  id := 0
  source := 0
  target := 0
  relationshipType := 0
  layer := .observed
  revision := 0
  nextOut := none
  nextIn := none
  active := false

variable (outgoing : Bool)

def NodeRow.adjacent (row : NodeRow) : Option Nat :=
  if outgoing then row.outgoing else row.incoming

def NodeRow.withHead (head : Option Nat) (row : NodeRow) : NodeRow :=
  if outgoing then { row with outgoing := head } else { row with incoming := head }

def EdgeRow.next (row : EdgeRow) : Option Nat :=
  if outgoing then row.nextOut else row.nextIn

def EdgeRow.withNext (next : Option Nat) (row : EdgeRow) : EdgeRow :=
  if outgoing then { row with nextOut := next } else { row with nextIn := next }

def EdgeRow.other (row : EdgeRow) : Nat :=
  if outgoing then row.target else row.source

structure GraphStore where
  catalog : NameCatalog
  revision : Nat
  layout : Nat
  nextNodeId : Nat
  nextEdgeId : Nat
  nodeLookup : ExtTreeMap NodeId Nat
  nodes : List NodeRow
  nodeClock : Nat
  nodeFree : FreeSlots
  nodeProperties : Properties
  edgeLookup : ExtTreeMap EdgeId Nat
  edges : List EdgeRow
  edgeClock : Nat
  edgeFree : FreeSlots
  edgeProperties : Properties
  nodeCounts : Counts
  edgeCounts : Counts

structure NodeView where
  dense : Nat
  id : NodeId
  layer : Layer
  stamp : Nat
deriving Repr, DecidableEq

structure EdgeView where
  dense : Nat
  id : EdgeId
  source : NodeId
  target : NodeId
  relationshipType : RelationshipTypeId
  layer : Layer
  stamp : Nat
deriving Repr, DecidableEq

namespace GraphStore

def empty : GraphStore where
  catalog := .empty
  revision := 0
  layout := 0
  nextNodeId := 0
  nextEdgeId := 0
  nodeLookup := ∅
  nodes := []
  nodeClock := 0
  nodeFree := .empty
  nodeProperties := ∅
  edgeLookup := ∅
  edges := []
  edgeClock := 0
  edgeFree := .empty
  edgeProperties := ∅
  nodeCounts := .empty
  edgeCounts := .empty

section Views

variable (store : GraphStore)

def nodeSlotCount : Nat := store.nodes.length

def edgeSlotCount : Nat := store.edges.length

def nodeActive (row : Nat) (store : GraphStore) : Bool := (store.nodes[row]?.map (·.active)).getD false

def edgeActive (row : Nat) (store : GraphStore) : Bool := (store.edges[row]?.map (·.active)).getD false

def containsNodeId (id : NodeId) : Bool := store.nodeLookup.contains id

def containsEdgeId (id : EdgeId) : Bool := store.edgeLookup.contains id

end Views

end GraphStore

section NodeReads

def NodeView.current (view : NodeView) : Reading GraphStore Bool := do
  let active ← .load (GraphStore.nodeActive view.dense)
  if active then
    let stamp ← .load fun store => store.nodes[view.dense]?.map (·.stamp)
    return stamp = some view.stamp
  else return false

def EdgeView.current (view : EdgeView) : Reading GraphStore Bool := do
  let active ← .load (GraphStore.edgeActive view.dense)
  if active then
    let stamp ← .load fun store => store.edges[view.dense]?.map (·.stamp)
    return stamp = some view.stamp
  else return false

namespace GraphStore

def nodeDense (dense : Nat) : Reading GraphStore (Option NodeView) := do
  let stamp ← .load fun store => store.nodes[dense]?.map (·.stamp)
  match stamp with
  | none => return none
  | some stamp =>
    let active ← .load (nodeActive dense)
    if active then
      let id ← .load fun store => (store.nodes[dense]?.map (·.id)).getD 0
      let layer ← .load fun store => (store.nodes[dense]?.map (·.layer)).getD .observed
      let view : NodeView := { dense, id, layer, stamp }
      let current ← view.current
      return if current then some view else none
    else return none

def edgeDense (dense : Nat) : Reading GraphStore (Option EdgeView) := do
  let stamp ← .load fun store => store.edges[dense]?.map (·.stamp)
  match stamp with
  | none => return none
  | some stamp =>
    let active ← .load (edgeActive dense)
    if active then
      let sourceRow ← .load fun store => (store.edges[dense]?.map (·.source)).getD 0
      match ← nodeDense sourceRow with
      | none => return none
      | some source =>
        let targetRow ← .load fun store => (store.edges[dense]?.map (·.target)).getD 0
        match ← nodeDense targetRow with
        | none => return none
        | some target =>
          let id ← .load fun store => (store.edges[dense]?.map (·.id)).getD 0
          let relationshipType ← .load fun store =>
              (store.edges[dense]?.map (·.relationshipType)).getD 0
          let layer ← .load fun store => (store.edges[dense]?.map (·.layer)).getD .observed
          let view : EdgeView :=
            { dense, id, source := source.id, target := target.id, relationshipType, layer, stamp }
          if ← view.current then
            if ← source.current then
              let current ← target.current
              return if current then some view else none
            else return none
          else return none
    else return none

def node (id : NodeId) : Reading GraphStore (Option NodeView) := do
  let row ← .load fun store => store.nodeLookup[id]?
  match row with
  | none => return none
  | some row =>
    let view ← nodeDense row
    return view.filter fun view => view.id = id

def edge (id : EdgeId) : Reading GraphStore (Option EdgeView) := do
  let row ← .load fun store => store.edgeLookup[id]?
  match row with
  | none => return none
  | some row =>
    let view ← edgeDense row
    return view.filter fun view => view.id = id

def labelsCell (row : Nat) (store : GraphStore) : LabelsCell :=
  (store.nodes[row]?.map (·.labels)).getD .empty

end GraphStore

namespace NodeView

def labels (view : NodeView) : Reading GraphStore (List LabelId) := do
  let value ← .zoom (GraphStore.labelsCell view.dense) LabelsCell.handle
  let current ← view.current
  return if current then value else []

def property (view : NodeView) (property : PropertyId) : Reading GraphStore (Option ScalarValue) := do
  if ← view.current then
    let value ← .zoom (·.nodeProperties) (Properties.get view.dense property)
    let current ← view.current
    return if current then value else none
  else return none

def revision (view : NodeView) : Reading GraphStore Nat := do
  let value ← .load fun store => (store.nodes[view.dense]?.map (·.revision)).getD 0
  let current ← view.current
  return if current then value else 0

end NodeView

namespace EdgeView

def revision (view : EdgeView) : Reading GraphStore Nat := do
  let value ← .load fun store => (store.edges[view.dense]?.map (·.revision)).getD 0
  let current ← view.current
  return if current then value else 0

/-- The identity at the end the walk came from, and the one it leads to. -/
def near (outgoing : Bool) (view : EdgeView) : NodeId :=
  if outgoing then view.source else view.target

def far (outgoing : Bool) (view : EdgeView) : NodeId :=
  if outgoing then view.target else view.source

end EdgeView

end NodeReads

namespace GraphStore

section Walks

variable (outgoing : Bool) (row : Nat) (store : GraphStore)

def head : Option Nat := store.nodes[row]?.bind (·.adjacent outgoing)

def link : Option Nat := store.edges[row]?.bind (·.next outgoing)

def farRow : Nat := (store.edges[row]?.map (·.other outgoing)).getD 0

variable (found : NodeView) (kind : Option RelationshipTypeId) (mask : LayerMask) (limit : Nat)
    (outgoing : Bool)

/-- The loop of `walk_adjacency`: what has been visited, the stamp of the last relationship and the
next one to stand on. The stamps fall from turn to turn, and `none` stands for a loop that outlasts
its fuel. -/
def walkAdjacencyLoop : Nat → Nat → Option Nat → List (EdgeView × NodeView) →
    Reading GraphStore (Option (List (EdgeView × NodeView)))
  | 0, _, _, _ => return none
  | _ + 1, _, none, visited => return some visited
  | fuel + 1, previous, some dense, visited => do
    if ← found.current then
      match ← edgeDense dense with
      | none => return some visited
      | some edge =>
        if previous ≤ edge.stamp ∨ edge.near outgoing ≠ found.id then return some visited
        else
          let next ← .load (link outgoing dense)
          if ← edge.current then
            let otherDense ← .load (farRow outgoing dense)
            match ← nodeDense otherDense with
            | none => walkAdjacencyLoop fuel edge.stamp next visited
            | some other =>
              if (← edge.current) && other.id = edge.far outgoing then
                if mask.containsLayer edge.layer && mask.containsLayer other.layer &&
                    kind.all (· = edge.relationshipType) then
                  let visited := visited ++ [(edge, other)]
                  if visited.length = limit then return some visited
                  else walkAdjacencyLoop fuel edge.stamp next visited
                else walkAdjacencyLoop fuel edge.stamp next visited
              else return some visited
          else return some visited
    else return some visited

def walkAdjacency : Reading GraphStore (Option (List (EdgeView × NodeView))) :=
  if !mask.containsLayer found.layer || limit = 0 then return some []
  else do
    let token ← .load (head outgoing found.dense)
    walkAdjacencyLoop found kind mask limit outgoing u64Limit u64Max token []

end Walks

def usizeMax : Nat := u64Max

def expandsBefore (first second : EdgeView × NodeView) : Prop :=
  first.2.id < second.2.id ∨ first.2.id = second.2.id ∧ first.1.id ≤ second.1.id

instance : DecidableRel expandsBefore := fun first second =>
  inferInstanceAs (Decidable (first.2.id < second.2.id ∨ first.2.id = second.2.id ∧
    first.1.id ≤ second.1.id))

variable (id : NodeId) (kind : Option RelationshipTypeId) (mask : LayerMask)

def expand (limit : Nat) (outgoing : Bool) :
    Reading GraphStore (Result (List (EdgeView × NodeView))) := do
  match ← node id with
  | none => return .error (missing "node does not exist")
  | some found =>
    match ← walkAdjacency found kind mask limit outgoing with
    | none => return .error (.internal "adjacency walk does not end")
    | some visited => return .ok (visited.insertionSort expandsBefore)

def expandOut : Reading GraphStore (Result (List (EdgeView × NodeView))) :=
  expand id kind mask usizeMax true

def expandIn : Reading GraphStore (Result (List (EdgeView × NodeView))) :=
  expand id kind mask usizeMax false

def incidentEdgeIds (id : NodeId) : Reading GraphStore (Result (List EdgeId)) := do
  match ← expandOut id none .all with
  | .error error => return .error error
  | .ok leaving =>
    match ← expandIn id none .all with
    | .error error => return .error error
    | .ok entering => return .ok (sortedDistinct ((leaving ++ entering).map fun pair => pair.1.id))

end GraphStore

abbrev Write := GraphStore → GraphStore

namespace Write

def node (row : Nat) (change : NodeRow → NodeRow) : Write :=
  fun store => { store with nodes := store.nodes.modify row change }

def edge (row : Nat) (change : EdgeRow → EdgeRow) : Write :=
  fun store => { store with edges := store.edges.modify row change }

def nodeStamp (row stamp : Nat) : Write := fun store =>
  if row < store.nodes.length then node row (fun found => { found with stamp }) store
  else { store with nodes := store.nodes ++ [.fresh stamp] }

def edgeStamp (row stamp : Nat) : Write := fun store =>
  if row < store.edges.length then edge row (fun found => { found with stamp }) store
  else { store with edges := store.edges ++ [.fresh stamp] }

def nodeLabels (row : Nat) (change : LabelsCell → LabelsCell) : Write :=
  node row fun found => { found with labels := change found.labels }

def nodeProperties (change : Properties → Properties) : Write :=
  fun store => { store with nodeProperties := change store.nodeProperties }

def edgeProperties (change : Properties → Properties) : Write :=
  fun store => { store with edgeProperties := change store.edgeProperties }

def nodeClock (stamp : Nat) : Write := fun store => { store with nodeClock := stamp }

def edgeClock (stamp : Nat) : Write := fun store => { store with edgeClock := stamp }

def nodeFree (change : FreeSlots → FreeSlots) : Write :=
  fun store => { store with nodeFree := change store.nodeFree }

def edgeFree (change : FreeSlots → FreeSlots) : Write :=
  fun store => { store with edgeFree := change store.edgeFree }

def nodeLookup (change : ExtTreeMap NodeId Nat → ExtTreeMap NodeId Nat) : Write :=
  fun store => { store with nodeLookup := change store.nodeLookup }

def edgeLookup (change : ExtTreeMap EdgeId Nat → ExtTreeMap EdgeId Nat) : Write :=
  fun store => { store with edgeLookup := change store.edgeLookup }

def nextNodeId (least : Nat) :
    Write := fun store => { store with nextNodeId := max store.nextNodeId least }

def nextEdgeId (least : Nat) :
    Write := fun store => { store with nextEdgeId := max store.nextEdgeId least }

def catalog (catalog : NameCatalog) : Write := fun store => { store with catalog }

def nodeCounts (layer : Layer) (kind : Option UInt64) (add : Bool) : Write :=
  fun store => { store with nodeCounts := store.nodeCounts.adjust layer kind add }

def edgeCounts (layer : Layer) (kind : Option UInt64) (add : Bool) : Write :=
  fun store => { store with edgeCounts := store.edgeCounts.adjust layer kind add }

def revision (revision : Nat) :
    Write := fun store => { store with revision := max store.revision revision }

end Write

structure Effect where
  writes : List Write
  result : Result Unit

namespace Effect

def fail (error : Error) : Effect where
  writes := []
  result := .error error

def done (writes : List Write) : Effect where
  writes
  result := .ok ()

def guard {α : Type} (check : Result α) (next : α → Effect) : Effect := match check with
  | .error error => .fail error
  | .ok value => next value

end Effect

namespace GraphStore

variable (listShape : Bytes → Result Unit) (store : GraphStore)

def forward (revision : Nat) : Result Unit :=
  require (!(revision < store.revision)) (.invalidData "mutation revision moves graph backwards")

/-- Only lists have a shape to check, that of their document. -/
def validatePropertyValueShape : ScalarValue → Result Unit
  | .list document => listShape document
  | _ => .ok ()

def undeclaredProperty : Error := .invalidData "undeclared property ID"

def validatePropertiesFrom (store : GraphStore) :
    ExtTreeSet PropertyId → List (PropertyId × ScalarValue) → Result Unit
  | _, [] => .ok ()
  | seen, (property, value) :: rest => do
    validatePropertyValueShape listShape value
    require (!seen.contains property) (.invalidData "duplicate property")
    require (store.catalog.propertyName property).isSome undeclaredProperty
    validatePropertiesFrom store (seen.insert property) rest

def validateProperties (values : List (PropertyId × ScalarValue)) : Result Unit :=
  store.validatePropertiesFrom listShape ∅ values

def validatePropertyValue (property : PropertyId) (value : ScalarValue) : Result Unit := do
  validatePropertyValueShape listShape value
  require (store.catalog.propertyName property).isSome undeclaredProperty

def nextStamp (clock : Nat) : Option Nat :=
  if clock + 1 < u64Limit then some (clock + 1) else none

def stampExhausted : Error := budget "allocation identity stamp exhausted"

/-- The row a new entity takes, and the stores by which it is taken. -/
def takeRow (free : FreeSlots) (count : Nat) (active : Bool) (taken : (FreeSlots → FreeSlots) → Write) :
    Nat × List Write :=
  match if active then free.pop else none with
  | some (row, rest) => (row, [taken fun _ => rest])
  | none => (count, [])

def setProperties (properties : Properties) (row : Nat) (lift : (Properties → Properties) → Write)
    (values : List (PropertyId × ScalarValue)) : List Write :=
  values.flatMap fun entry => (properties.set row entry.1 entry.2).map lift

def nodeWrites (row stamp : Nat) (input : NodeInput) (active : Bool) : List Write :=
    [Write.nodeClock stamp, Write.nodeStamp row stamp,
    Write.node row fun found => { found with layer := input.layer },
    Write.node row fun found => { found with revision := input.revision }] ++
  (LabelsCell.store (if active then input.labels else [])).map (Write.nodeLabels row) ++
  [Write.node row fun found => { found with outgoing := none },
    Write.node row fun found => { found with incoming := none }] ++
  (if active then setProperties store.nodeProperties row Write.nodeProperties input.properties
    else []) ++
  [Write.node row fun found => { found with id := input.id }, Write.node row fun found =>
    { found with active }] ++
  (if active then
    [Write.nodeLookup (·.insert input.id row), Write.nodeCounts input.layer none true] ++
    input.labels.map fun label => Write.nodeCounts input.layer (some label) true
  else []) ++
  [Write.revision input.revision]

def appendNode (input : NodeInput) (active : Bool) : Effect :=
  let (row, taken) := takeRow store.nodeFree store.nodeSlotCount active Write.nodeFree
  let begun := Write.nextNodeId (saturatingAdd input.id.toNat 1) :: taken
  if noRow ≤ row then { writes := begun, result := .error (budget "node row space exhausted") }
  else
    let begun := begun ++ [Write.nodeFree (·.ensure row)]
    match nextStamp store.nodeClock with
    | none => { writes := begun, result := .error stampExhausted }
    | some stamp => .done (begun ++ store.nodeWrites row stamp input active)

def insertNode (input : NodeInput) : Effect := Effect.guard (do
    store.forward input.revision
    require (!store.containsNodeId input.id) (.new .transactionConflict "node ID already allocated")
    require ((sortedDistinct input.labels).all fun label => (store.catalog.labelName label).isSome)
      (.invalidData "undeclared label ID")
    store.validateProperties listShape input.properties) fun _ =>
  store.appendNode { input with labels := sortedDistinct input.labels } true

def edgeWrites (row stamp : Nat) (input : EdgeInput) (source target : Nat)
    (active : Bool) : List Write :=
  let leaving := if active then store.head true source else none
  let entering := if active then store.head false target else none
  [Write.edgeClock stamp, Write.edgeStamp row stamp, Write.edge row fun found => { found with source },
    Write.edge row fun found => { found with target },
    Write.edge row fun found => { found with relationshipType := input.relationshipType },
    Write.edge row fun found => { found with layer := input.layer },
    Write.edge row fun found => { found with revision := input.revision },
    Write.edge row fun found => { found with nextOut := leaving },
    Write.edge row fun found => { found with nextIn := entering }] ++
  (if active then setProperties store.edgeProperties row Write.edgeProperties input.properties
    else []) ++
  [Write.edge row fun found => { found with id := input.id }, Write.edge row fun found =>
    { found with active }] ++
  (if active then
    [Write.edgeLookup (·.insert input.id row), Write.node source fun found =>
      { found with outgoing := some row }, Write.node target fun found =>
        { found with incoming := some row },
      Write.edgeCounts input.layer none true,
      Write.edgeCounts input.layer (some input.relationshipType) true]
  else []) ++
  [Write.revision input.revision]

def appendEdge (input : EdgeInput) (source target : Nat) (active : Bool) : Effect :=
  if input.id.toNat = u64Max then
    .fail (budget "relationship identity reserved for adjacency terminator")
  else
    let reserve := Write.nextEdgeId (input.id.toNat + 1)
    let first := if active then (nodeDense (min source target)).eval store else none
    let second := if active && source ≠ target then (nodeDense (max source target)).eval store else none
    if active && (first.isNone || source ≠ target && second.isNone) then
      { writes := [reserve], result := .error (missing "relationship endpoint does not exist") }
    else if active && (!((nodeDense source).eval store).any (fun node => node.id = input.source) ||
        !((nodeDense target).eval store).any fun node => node.id = input.target) then
      { writes := [reserve], result := .error (missing "relationship endpoint identity changed") }
    else
      let (row, taken) := takeRow store.edgeFree store.edgeSlotCount active Write.edgeFree
      let begun := reserve :: taken
      if noRow ≤ row then
        { writes := begun, result := .error (budget "relationship row space exhausted") }
      else
        let begun := begun ++ [Write.edgeFree (·.ensure row)]
        match nextStamp store.edgeClock with
        | none => { writes := begun, result := .error stampExhausted }
        | some stamp => .done (begun ++ store.edgeWrites row stamp input source target active)

def insertEdge (input : EdgeInput) : Effect := Effect.guard (do
    store.forward input.revision
    require (!store.containsEdgeId input.id)
      (.new .transactionConflict "relationship ID already allocated")
    let source ← orElse ((node input.source).eval store) (missing "source node does not exist")
    let target ← orElse ((node input.target).eval store) (missing "target node does not exist")
    require (store.catalog.relationshipTypeName input.relationshipType).isSome
      (.invalidData "undeclared relationship type")
    store.validateProperties listShape input.properties
    return (source.dense, target.dense)) fun ends =>
  store.appendEdge input ends.1 ends.2 true

/-- Where a link is kept: in the head of the owner's list or in a row of it. -/
inductive Anchor where
  | head
  | row (row : Nat)
deriving Repr, DecidableEq

/-- The search of `unlink_edge` along one list, for the place that leads to the row. -/
def seek (store : GraphStore) (outgoing : Bool) (wanted : Nat) :
    Nat → Anchor → Option Nat → Option Anchor
  | 0, _, _ => none
  | _ + 1, _, none => none
  | fuel + 1, previous, some row =>
    match store.edges[row]? with
    | none => none
    | some found =>
      if row = wanted then some previous
        else seek store outgoing wanted fuel (.row row) (found.next outgoing)

def unlinkFrom (outgoing : Bool) (row owner : Nat) : List Write := match store.nodes[owner]? with
  | none => []
  | some found =>
    match store.seek outgoing row store.edgeSlotCount .head (found.adjacent outgoing) with
    | none => []
    | some .head => [Write.node owner (NodeRow.withHead outgoing (store.link outgoing row))]
    | some (.row previous) =>
      [Write.edge previous (EdgeRow.withNext outgoing (store.link outgoing row))]

def unlinkEdge (row source target : Nat) : List Write :=
  store.unlinkFrom true row source ++ store.unlinkFrom false row target

def setNodeProperty (id : NodeId) (property : PropertyId) (value : ScalarValue)
    (revision : Nat) : Effect :=
  Effect.guard (do
    store.forward revision
    store.validatePropertyValue listShape property value
    orElse ((node id).eval store) (missing "node does not exist")) fun view =>
  .done ((store.nodeProperties.set view.dense property value).map Write.nodeProperties ++
    [Write.node view.dense fun found => { found with revision }, Write.revision revision])

def setEdgeProperty (id : EdgeId) (property : PropertyId) (value : ScalarValue)
    (revision : Nat) : Effect :=
  Effect.guard (do
    store.forward revision
    store.validatePropertyValue listShape property value
    orElse ((edge id).eval store) (missing "relationship does not exist")) fun view =>
  .done ((store.edgeProperties.set view.dense property value).map Write.edgeProperties ++
    [Write.edge view.dense fun found => { found with revision }, Write.revision revision])

def changedLabels (old labels : List LabelId) (add : Bool) : List LabelId :=
  if add then sortedDistinct (old ++ labels) else old.filter fun label => !labels.contains label

def changeLabels (id : NodeId) (labels : List LabelId) (revision : Nat) (add : Bool) : Effect :=
  Effect.guard (do
    store.forward revision
    require (labels.all fun label =>
      (store.catalog.labelName label).isSome) (.invalidData "undeclared label ID")
    orElse ((node id).eval store) (missing "node does not exist")) fun view =>
  let old := view.labels.eval store
  let next := changedLabels old labels add
  .done (((old.filter fun label => !next.contains label).map fun label =>
      Write.nodeCounts view.layer (some label) false) ++
    ((next.filter fun label => !old.contains label).map fun label =>
      Write.nodeCounts view.layer (some label) true) ++
    (LabelsCell.store next).map (Write.nodeLabels view.dense) ++
    [Write.node view.dense fun found => { found with revision }, Write.revision revision])

def deleteEdge (id : EdgeId) (revision : Nat) : Effect := Effect.guard (do
    store.forward revision
    orElse ((edge id).eval store) (missing "relationship does not exist")) fun view =>
  let row := view.dense
  .done ([Write.edge row fun found => { found with active := false }] ++
    store.unlinkEdge row (store.farRow false row) (store.farRow true row) ++
    [Write.edgeLookup (·.erase id)] ++
    (store.edgeProperties.clear row).map Write.edgeProperties ++
    [Write.edgeCounts view.layer none false,
      Write.edgeCounts view.layer (some view.relationshipType) false,
      Write.edge row fun found => { found with revision },
      Write.revision revision,
      Write.edgeFree (·.release row)])

def deleteEdges (revision : Nat) : GraphStore → List EdgeId → Effect
  | _, [] => .done []
  | store, id :: rest =>
    let deleted := store.deleteEdge id revision
    match deleted.result with
    | .error error => { writes := deleted.writes, result := .error error }
    | .ok () =>
      let others := deleteEdges revision (perform deleted.writes store) rest
      { writes := deleted.writes ++ others.writes, result := others.result }

def removeNodeWrites (view : NodeView) (revision : Nat) : List Write :=
  let row := view.dense
  [Write.node row fun found => { found with active := false }, Write.nodeLookup (·.erase view.id)] ++
  (store.nodeProperties.clear row).map Write.nodeProperties ++
  (LabelsCell.store []).map (Write.nodeLabels row) ++
  [Write.nodeCounts view.layer none false] ++
  ((view.labels.eval store).map fun label => Write.nodeCounts view.layer (some label) false) ++
  [Write.node row fun found => { found with revision }, Write.revision revision,
    Write.nodeFree (·.release row)]

def deleteNode (id : NodeId) (detach : Bool) (revision : Nat) : Effect := Effect.guard (do
    store.forward revision
    let view ← orElse ((node id).eval store) (missing "node does not exist")
    let edges ← (incidentEdgeIds id).eval store
    require (!(!detach && !edges.isEmpty)) (missing "node still has relationships")
    return (view, edges)) fun found =>
  let detached := deleteEdges revision store found.2
  match detached.result with
  | .error error => { writes := detached.writes, result := .error error }
  | .ok () =>
    .done (detached.writes ++ (perform detached.writes store).removeNodeWrites found.1 revision)

def applyEffect : GraphMutation → Effect
  | .declareLabel name id => Effect.guard (store.catalog.labels.declare name id) fun labels =>
    .done [Write.catalog { store.catalog with labels }]
  | .declareProperty name id =>
    Effect.guard (store.catalog.properties.declare name id) fun properties =>
    .done [Write.catalog { store.catalog with properties }]
  | .declareRelationshipType name id =>
    Effect.guard (store.catalog.relationships.declare name id) fun relationships =>
    .done [Write.catalog { store.catalog with relationships }]
  | .insertNode input => store.insertNode listShape input
  | .insertEdge input => store.insertEdge listShape input
  | .setNodeProperty node property value revision =>
    store.setNodeProperty listShape node property value revision
  | .setEdgeProperty edge property value revision =>
    store.setEdgeProperty listShape edge property value revision
  | .addNodeLabels node labels revision => store.changeLabels node labels revision true
  | .removeNodeLabels node labels revision => store.changeLabels node labels revision false
  | .deleteNode node detach revision => store.deleteNode node detach revision
  | .deleteEdge edge revision => store.deleteEdge edge revision

end GraphStore

end IronGraph.Graph

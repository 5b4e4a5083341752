import IronGraph.Library.SortedMerge
import IronGraph.Graph.PagedVecCore

/-!
Adjacency of one edge type: immutable compressed rows in both directions, and the insertions and
deletions since they were built. A row's pending entries are a finite set that is iterated in order.
A panic is an error in `String`.
-/

namespace IronGraph.Graph

open Std Outcome SortedMerge Error

abbrev Ordinal := Fin (2 ^ 32)

abbrev Entry := Ordinal ×ₗ Ordinal

def entry (neighbor edge : Ordinal) : Entry := toLex (neighbor, edge)

abbrev Triple := Ordinal ×ₗ Entry

namespace Triple

def mk (source target edge : Ordinal) : Triple := toLex (source, entry target edge)

variable (triple : Triple)

def source : Ordinal := (ofLex triple).1

def entry : Entry := (ofLex triple).2

def target : Ordinal := (ofLex triple.entry).1

def edge : Ordinal := (ofLex triple.entry).2

def transposed : Triple := mk triple.target triple.source triple.edge

end Triple

def u32Limit : Nat := 2 ^ 32

/-- Compressed rows: row `node` is the slice of the columns between its offset and the next. -/
structure Csr where
  offsets : List Nat
  neighbors : List Ordinal
  edges : List Ordinal

namespace Csr

def empty : Csr := { offsets := [], neighbors := [], edges := [] }

def checkedOffset (left right : Nat) : Option Nat :=
  if left + right < u32Limit then some (left + right) else none

def countSource (nodeCount : Nat) (offsets : List Nat) (triple : Triple) : Result (List Nat) := do
  require (triple.source.val < nodeCount) (invalidData "adjacency source is out of bounds")
  let degree ← orElse (checkedOffset (offsets.getD (triple.source.val + 1) 0) 1)
    (new .resultBudgetExceeded "adjacency degree exhausted")
  return offsets.set (triple.source.val + 1) degree

def prefixSums : Nat → List Nat → Result (List Nat)
  | _, [] => .ok []
  | before, degree :: rest => do
    let offset ← orElse (checkedOffset degree before)
        (new .resultBudgetExceeded "adjacency offset exhausted")
    let offsets ← prefixSums offset rest
    return offset :: offsets

def accumulate : List Nat → Result (List Nat)
  | [] => .ok []
  | first :: rest => do
    let offsets ← prefixSums first rest
    return first :: offsets

def checkTarget (nodeCount : Nat) (_ : Unit) (triple : Triple) : Result Unit :=
  require (triple.target.val < nodeCount) (invalidData "adjacency target is out of bounds")

variable (nodeCount : Nat) (triples : List Triple)

def buildOwned : Result Csr := do
  let sorted := triples.mergeSort (· ≤ ·)
  let degrees ← sorted.foldlM (countSource nodeCount) (List.replicate (nodeCount + 1) 0)
  let offsets ← accumulate degrees
  sorted.foldlM (checkTarget nodeCount) ()
  return { offsets, neighbors := sorted.map Triple.target, edges := sorted.map Triple.edge }

def build : Result Csr := buildOwned nodeCount triples

def buildTransposed : Result Csr := buildOwned nodeCount (triples.map Triple.transposed)

def slice (column : List Ordinal) (start stop : Nat) : Option (List Ordinal) :=
  if start ≤ stop ∧ stop ≤ column.length then some ((column.take stop).drop start) else none

def row (csr : Csr) (node : Ordinal) : Option (List Entry) := do
  let start ← csr.offsets[node.val]?
  let stop ← csr.offsets[node.val + 1]?
  let neighbors ← slice csr.neighbors start stop
  let edges ← slice csr.edges start stop
  return neighbors.zipWith entry edges

end Csr

inductive AdjacencyDelta where
  | insert (source target edge : Ordinal)
  | delete (source target edge : Ordinal)

namespace AdjacencyDelta

def source : AdjacencyDelta → Ordinal
  | insert source _ _ => source
  | delete source _ _ => source

def target : AdjacencyDelta → Ordinal
  | insert _ target _ => target
  | delete _ target _ => target

end AdjacencyDelta

def deltaCapacity : PageCapacity := pageCapacity 16

abbrev DeltaMap := PersistentMap (PagedVec AdjacencyDelta)

def ordinalKey (node : Ordinal) : RadixKey := BitVec.ofNat 128 node.val

structure DeltaRows where
  outgoing : DeltaMap
  incoming : DeltaMap

namespace DeltaRows

def empty : DeltaRows := { outgoing := PersistentMap.empty, incoming := PersistentMap.empty }

def appendRow (rows : DeltaMap) (node : Ordinal) (delta : AdjacencyDelta) : Except String DeltaMap := do
  let row ← ((rows.get (ordinalKey node)).getD PagedVec.empty).push deltaCapacity delta
  let (_, rows) ← rows.insert (ordinalKey node) row
  return rows

def append (rows : DeltaRows) (delta : AdjacencyDelta) : Except String DeltaRows := do
  let outgoing ← appendRow rows.outgoing delta.source delta
  let incoming ← appendRow rows.incoming delta.target delta
  return { outgoing, incoming }

end DeltaRows

/-- The index of the deltas is built on first use and kept. -/
structure Adjacency where
  outgoing : Csr
  incoming : Csr
  deltas : PagedVec AdjacencyDelta
  deltaRows : Option DeltaRows

/-- The entries of a row inserted and deleted since the base was built. -/
structure PendingRow where
  inserted : Finset Entry
  deleted : Finset Entry

namespace PendingRow

def empty : PendingRow := { inserted := ∅, deleted := ∅ }

def insert (pending : PendingRow) (item : Entry) : PendingRow :=
  { inserted := Insert.insert item pending.inserted, deleted := pending.deleted.erase item }

def delete (pending : PendingRow) (item : Entry) : PendingRow :=
  { inserted := pending.inserted.erase item, deleted := Insert.insert item pending.deleted }

def noteOutgoing (source : Ordinal) (pending : PendingRow) : AdjacencyDelta → PendingRow
  | .insert row target edge => if row = source then pending.insert (entry target edge) else pending
  | .delete row target edge => if row = source then pending.delete (entry target edge) else pending

def noteIncoming (target : Ordinal) (pending : PendingRow) : AdjacencyDelta → PendingRow
  | .insert source row edge => if row = target then pending.insert (entry source edge) else pending
  | .delete source row edge => if row = target then pending.delete (entry source edge) else pending

end PendingRow

namespace Adjacency

def empty : Adjacency :=
  { outgoing := Csr.empty, incoming := Csr.empty, deltas := PagedVec.empty, deltaRows := none }

def buildDeltaRows (deltas : PagedVec AdjacencyDelta) : Except String DeltaRows := do
  let values ← (deltas.iter deltaCapacity).collect (deltas.pageValues deltaCapacity)
  values.foldlM DeltaRows.append DeltaRows.empty

/-- An index that exists is extended by the new delta; otherwise it is built from all deltas. -/
def extendRows (existing : Option DeltaRows) (deltas : PagedVec AdjacencyDelta)
    (delta : AdjacencyDelta) : Except String DeltaRows :=
  match existing with
  | some rows => rows.append delta
  | none => buildDeltaRows deltas

variable (adjacency : Adjacency)

def appendDelta (delta : AdjacencyDelta) : Except String Adjacency := do
  let deltas ← adjacency.deltas.push deltaCapacity delta
  let rows ← extendRows adjacency.deltaRows deltas delta
  return { adjacency with deltas, deltaRows := some rows }

def insert (adjacency : Adjacency) (source target edge : Ordinal) : Except String Adjacency :=
  adjacency.appendDelta (.insert source target edge)

def delete (adjacency : Adjacency) (source target edge : Ordinal) : Except String Adjacency :=
  adjacency.appendDelta (.delete source target edge)

def indexed : Except String DeltaRows := match adjacency.deltaRows with
  | some rows => .ok rows
  | none => buildDeltaRows adjacency.deltas

def pendingRow (rows : DeltaMap) (node : Ordinal) (note : PendingRow → AdjacencyDelta → PendingRow) :
    Except String PendingRow :=
  match rows.get (ordinalKey node) with
  | none => .ok PendingRow.empty
  | some row => do
    let deltas ← (row.iter deltaCapacity).collect (row.pageValues deltaCapacity)
    return deltas.foldl note PendingRow.empty

variable (base : Option (List Entry)) (pending : PendingRow)

/-- A row of the base merged with what is pending; a row without pending entries is copied. -/
def expandRow : List Entry :=
  if pending.inserted = ∅ ∧ pending.deleted = ∅ then base.getD []
  else collapse (((base.getD []).filter (fun item => decide (item ∉ pending.deleted)) ++
    pending.inserted.sort (· ≤ ·)).mergeSort (· ≤ ·))

def expandRowBounded (limit : Nat) : List Entry :=
  mergeBounded limit ((base.getD []).filter fun item => decide (item ∉ pending.deleted))
    (pending.inserted.sort (· ≤ ·)) []

def expandOut (source : Ordinal) : Except String (List Entry) := do
  let rows ← adjacency.indexed
  let pending ← pendingRow rows.outgoing source (PendingRow.noteOutgoing source)
  return expandRow (adjacency.outgoing.row source) pending

def expandIn (target : Ordinal) : Except String (List Entry) := do
  let rows ← adjacency.indexed
  let pending ← pendingRow rows.incoming target (PendingRow.noteIncoming target)
  return expandRow (adjacency.incoming.row target) pending

def expandOutBounded (source : Ordinal) (limit : Nat) : Except String (List Entry) :=
  if limit = 0 then .ok []
  else do
    let rows ← adjacency.indexed
    let pending ← pendingRow rows.outgoing source (PendingRow.noteOutgoing source)
    return expandRowBounded (adjacency.outgoing.row source) pending limit

def expandInBounded (target : Ordinal) (limit : Nat) : Except String (List Entry) :=
  if limit = 0 then .ok []
  else do
    let rows ← adjacency.indexed
    let pending ← pendingRow rows.incoming target (PendingRow.noteIncoming target)
    return expandRowBounded (adjacency.incoming.row target) pending limit

/-- Rebuilds both directions; the outgoing rows are replaced before the incoming ones are built. -/
def compact (nodeCount : Nat) (visibleEdges : List Triple) : Adjacency × Result Unit :=
  match Csr.build nodeCount visibleEdges with
  | .error error => (adjacency, .error error)
  | .ok outgoing =>
    match Csr.buildTransposed nodeCount visibleEdges with
    | .error error => ({ adjacency with outgoing }, .error error)
    | .ok incoming => ({ outgoing, incoming, deltas := PagedVec.empty, deltaRows := none }, .ok ())

end Adjacency

inductive AdjacencyAction where
  | insert (edge : Ordinal)
  | delete (edge : Ordinal)
  | compact (nodeCount : Nat) (edges : List Ordinal) (distinct : edges.Nodup)
  | read

structure Endpoints where
  source : Ordinal → Ordinal
  target : Ordinal → Ordinal

namespace Endpoints

def triple (ends : Endpoints) (edge : Ordinal) : Triple :=
  Triple.mk (ends.source edge) (ends.target edge) edge

end Endpoints

namespace Adjacency

def step (ends : Endpoints) (adjacency : Adjacency) : AdjacencyAction → Except String Adjacency
  | .insert edge => adjacency.insert (ends.source edge) (ends.target edge) edge
  | .delete edge => adjacency.delete (ends.source edge) (ends.target edge) edge
  | .compact nodeCount edges _ => .ok (adjacency.compact nodeCount (edges.map ends.triple)).1
  | .read => do
    let rows ← adjacency.indexed
    return { adjacency with deltaRows := some rows }

def run (ends : Endpoints) (actions : List AdjacencyAction) : Except String Adjacency :=
  actions.foldlM (step ends) empty

end Adjacency

end IronGraph.Graph

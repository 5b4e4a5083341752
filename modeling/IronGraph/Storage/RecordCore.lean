import IronGraph.Types
import IronGraph.Library.Overlay
import IronGraph.Library.PrefixOrder

/-!
Record operations: persistence describes every change of the database as an ordered list of them,
whose meaning is a function on ordered byte-string maps.
-/

namespace IronGraph

open Std PrefixOrder

inductive RecordOp where
  | put (key value : Bytes)
  | delete (key : Bytes)
  | deletePrefix (stem : Bytes)
deriving Repr, DecidableEq

structure RecordBatch where
  firstIndex : UInt64
  bookmark : Bookmark
  operations : List RecordOp
deriving Repr, DecidableEq

abbrev RecordMap := ExtTreeMap Bytes Bytes

namespace RecordOp

def apply (records : RecordMap) : RecordOp → RecordMap
  | .put key value => records.insert key value
  | .delete key => records.erase key
  | .deletePrefix stem => records.filter fun key _ => !startsWith stem key

def overlay : RecordOp → Bytes → Option (Option Bytes)
  | .put key value, read => if key = read then some (some value) else none
  | .delete key, read => if key = read then some none else none
  | .deletePrefix stem, read => if startsWith stem read then some none else none

theorem getElem?_apply (recs : RecordMap) (op : RecordOp) (key : Bytes) :
    (apply recs op)[key]? = Overlay.read op.overlay key recs[key]? := by
  cases op with
  | put written value =>
    rw [apply, ExtTreeMap.getElem?_insert]
    by_cases same : written = key
    · simp [Overlay.read, overlay, same]
    · simp [Overlay.read, overlay, same]
  | delete removed =>
    rw [apply, ExtTreeMap.getElem?_erase]
    by_cases same : removed = key
    · simp [Overlay.read, overlay, same]
    · simp [Overlay.read, overlay, same]
  | deletePrefix stem =>
    rw [apply, ExtTreeMap.getElem?_filter']
    by_cases inside : startsWith stem key = true
    · simp [Overlay.read, overlay, inside]
    · cases recs[key]? <;> simp [Overlay.read, overlay, inside]

end RecordOp

def applyOperations (records : RecordMap) (operations : List RecordOp) : RecordMap :=
  operations.foldl RecordOp.apply records

def operationsOverlay (operations : List RecordOp) : Bytes → Option (Option Bytes) :=
  operations.foldl (fun older operation => Overlay.layer operation.overlay older) Overlay.silent

theorem applyOperations_append (recs : RecordMap) (first second : List RecordOp) :
    applyOperations recs (first ++ second) = applyOperations (applyOperations recs first) second := by
  simp [applyOperations, List.foldl_append]

theorem foldl_overlay (ops : List RecordOp) (older : Bytes → Option (Option Bytes)) :
    ops.foldl (fun older op => Overlay.layer op.overlay older) older =
      Overlay.layer (operationsOverlay ops) older := by
  induction ops generalizing older with
  | nil => simp [operationsOverlay]
  | cons op rest ih =>
    simp only [operationsOverlay, List.foldl_cons, Overlay.layer_silent]
    rw [ih, ih, Overlay.layer_assoc]

@[simp] theorem operationsOverlay_nil : operationsOverlay [] = Overlay.silent := rfl

theorem operationsOverlay_cons (op : RecordOp) (rest : List RecordOp) :
    operationsOverlay (op :: rest) = Overlay.layer (operationsOverlay rest) op.overlay := by
  rw [← foldl_overlay]
  simp [operationsOverlay]

theorem operationsOverlay_append (first second : List RecordOp) : operationsOverlay (first ++ second) =
      Overlay.layer (operationsOverlay second) (operationsOverlay first) := by
  rw [← foldl_overlay]
  simp [operationsOverlay]

theorem getElem?_applyOperations (recs : RecordMap) (ops : List RecordOp) (key : Bytes) :
    (applyOperations recs ops)[key]? = Overlay.read (operationsOverlay ops) key recs[key]? := by
  induction ops generalizing recs with
  | nil => rfl
  | cons op rest ih =>
    change (applyOperations (op.apply recs) rest)[key]? = _
    rw [ih, RecordOp.getElem?_apply, operationsOverlay_cons, Overlay.read_layer]

theorem applyOperations_congr {first second : List RecordOp}
    (same : operationsOverlay first = operationsOverlay second) (recs : RecordMap) :
    applyOperations recs first = applyOperations recs second := by
  apply ExtTreeMap.ext_getElem?
  intro key
  rw [getElem?_applyOperations, getElem?_applyOperations, same]

end IronGraph

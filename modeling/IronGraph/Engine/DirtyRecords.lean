import IronGraph.Storage.RecordCore

/-!
Coalescing of record batches between publication and persistence. `absorb` keeps only the last word
on each key; `intoBatch` emits the prefixes first, so the result no longer shows in which order the
changes arrived.
-/

namespace IronGraph

open Std PrefixOrder List Overlay

structure DirtyRecords where
  firstIndex : UInt64
  bookmark : Bookmark
  points : ExtTreeMap Bytes (Option Bytes)
  prefixes : ExtTreeSet Bytes

namespace DirtyRecords

def empty : DirtyRecords := { firstIndex := 0, bookmark := default, points := ∅, prefixes := ∅ }

instance : Inhabited DirtyRecords := ⟨empty⟩

section

variable (stem : Bytes) (prefixes : ExtTreeSet Bytes)

def lastAtMost : Option Bytes := (prefixes.toList.filter fun previous =>
    (compare previous stem).isLE).getLast?

def covered : Bool := (lastAtMost stem prefixes).any fun previous => startsWith previous stem

def eraseNested : ExtTreeSet Bytes :=
  (keysUnder stem prefixes.toList).foldl (fun remaining previous => remaining.erase previous) prefixes

end

variable (dirty : DirtyRecords)

def absorbOperation : RecordOp → DirtyRecords
  | .put key value => { dirty with points := dirty.points.insert key (some value) }
  | .delete key => { dirty with points := dirty.points.insert key none }
  | .deletePrefix stem =>
    let points := eraseUnder dirty.points stem
    if covered stem dirty.prefixes then { dirty with points }
    else { dirty with points, prefixes := (eraseNested stem dirty.prefixes).insert stem }

def absorb (batch : RecordBatch) : DirtyRecords :=
  let started := if dirty.firstIndex = 0 then { dirty with firstIndex := batch.firstIndex } else dirty
  batch.operations.foldl absorbOperation { started with bookmark := batch.bookmark }

def pointOperation : Bytes × Option Bytes → RecordOp
  | (key, some value) => .put key value
  | (key, none) => .delete key

def intoBatch : RecordBatch :=
  { firstIndex := dirty.firstIndex
    bookmark := dirty.bookmark
    operations := dirty.prefixes.toList.map .deletePrefix ++ dirty.points.toList.map pointOperation }

variable (prefixes : ExtTreeSet Bytes) (key : Bytes)

def underPrefix : Bool := prefixes.toList.any fun stem => startsWith stem key

def overlay (key : Bytes) : Option (Option Bytes) :=
  dirty.points[key]?.or (bif underPrefix dirty.prefixes key then some none else none)

theorem underPrefix_iff : underPrefix prefixes key = true ↔ ∃ stem ∈ prefixes, stem <+: key := by
  simp [underPrefix, any_eq_true]

theorem mem_eraseNested (stem other : Bytes) (prefixes : ExtTreeSet Bytes) :
    other ∈ eraseNested stem prefixes ↔ other ∈ prefixes ∧ ¬ stem <+: other := by
  have erased : ∀ (keys : List Bytes) (set : ExtTreeSet Bytes),
      other ∈ keys.foldl (fun remaining previous => remaining.erase previous) set ↔
        other ∈ set ∧ other ∉ keys := by
    intro keys
    induction keys with
    | nil => simp
    | cons key rest ih =>
      intro set
      rw [foldl_cons, ih, ExtTreeSet.mem_erase]
      simp only [ne_eq, LawfulEqCmp.compare_eq_iff_eq, mem_cons, not_or]
      grind
  rw [eraseNested, erased, keysUnder_eq_filter stem ExtTreeSet.ordered_toList]
  simp only [mem_filter, ExtTreeSet.mem_toList, startsWith_iff]
  tauto

theorem covered_stem {stem : Bytes} {prefixes : ExtTreeSet Bytes}
    (found : covered stem prefixes = true) :
    ∃ previous ∈ prefixes, previous <+: stem := by
  unfold covered at found
  rw [Option.any_eq_true] at found
  obtain ⟨previous, last, inside⟩ := found
  have mem := mem_of_getLast? last
  rw [mem_filter, ExtTreeSet.mem_toList] at mem
  exact ⟨previous, mem.1, startsWith_iff.mp inside⟩

theorem underPrefix_insert (stem key : Bytes) (prefixes : ExtTreeSet Bytes) :
    underPrefix ((eraseNested stem prefixes).insert stem) key =
      (startsWith stem key || underPrefix prefixes key) := by
  rw [Bool.eq_iff_iff]
  simp only [Bool.or_eq_true, startsWith_iff, underPrefix_iff, ExtTreeSet.mem_insert,
    LawfulEqCmp.compare_eq_iff_eq, mem_eraseNested]
  constructor
  · rintro ⟨other, rfl | ⟨mem, _⟩, inside⟩
    · exact .inl inside
    · exact .inr ⟨other, mem, inside⟩
  · rintro (inside | ⟨other, mem, inside⟩)
    · exact ⟨stem, .inl rfl, inside⟩
    · by_cases nested : stem <+: other
      · exact ⟨stem, .inl rfl, nested.trans inside⟩
      · exact ⟨other, .inr ⟨mem, nested⟩, inside⟩

theorem overlay_absorbOperation (dirty : DirtyRecords) (op : RecordOp) :
    (dirty.absorbOperation op).overlay = layer op.overlay dirty.overlay := by
  funext key
  cases op with
  | put changed | delete changed =>
    simp only [absorbOperation, overlay, layer, RecordOp.overlay, ExtTreeMap.getElem?_insert,
      LawfulEqCmp.compare_eq_iff_eq]
    by_cases same : changed = key
    · simp [same]
    · simp [same]
  | deletePrefix stem =>
    simp only [absorbOperation, layer, RecordOp.overlay]
    split
    next found =>
      obtain ⟨previous, mem, nested⟩ := covered_stem found
      by_cases inside : stem <+: key
      · have under : underPrefix dirty.prefixes key = true :=
          (underPrefix_iff _ _).mpr ⟨previous, mem, nested.trans inside⟩
        simp [overlay, getElem?_eraseUnder, inside, under]
      · simp [overlay, getElem?_eraseUnder, inside]
    · by_cases inside : stem <+: key
      · simp [overlay, getElem?_eraseUnder, underPrefix_insert, startsWith_iff.mpr inside]
      · simp [overlay, getElem?_eraseUnder, underPrefix_insert, startsWith_iff.not.mpr inside]

theorem overlay_foldl (ops : List RecordOp) (dirty : DirtyRecords) :
    (ops.foldl absorbOperation dirty).overlay = layer (operationsOverlay ops) dirty.overlay := by
  induction ops generalizing dirty with
  | nil => simp
  | cons op rest ih =>
    rw [foldl_cons, ih, overlay_absorbOperation, operationsOverlay_cons, layer_assoc]

theorem overlay_absorb (dirty : DirtyRecords) (batch : RecordBatch) :
    (dirty.absorb batch).overlay = layer (operationsOverlay batch.operations) dirty.overlay := by
  unfold absorb
  rw [overlay_foldl]
  split <;> rfl

theorem overlay_empty : empty.overlay = silent := by
  funext key
  have uncovered : underPrefix ∅ key = false := by
    rw [← Bool.not_eq_true, underPrefix_iff]
    simp
  simp [overlay, empty, uncovered, silent]

theorem operationsOverlay_prefixes (stems : List Bytes) (key : Bytes) :
    operationsOverlay (stems.map .deletePrefix) key =
      bif stems.any fun stem => startsWith stem key then some none else none := by
  induction stems with
  | nil => rfl
  | cons stem rest ih =>
    rw [map_cons, operationsOverlay_cons, layer, ih, any_cons, RecordOp.overlay]
    cases startsWith stem key <;> cases rest.any fun stem => startsWith stem key <;> rfl

theorem overlay_pointOperation (point : Bytes × Option Bytes) (key : Bytes) :
    (pointOperation point).overlay key = if point.1 = key then some point.2 else none := by
  obtain ⟨written, value⟩ := point
  cases value <;> rfl

theorem operationsOverlay_points (points : List (Bytes × Option Bytes)) (key : Bytes)
    (word : Option Bytes) (distinct : points.Pairwise fun left right => left.1 ≠ right.1) :
    operationsOverlay (points.map pointOperation) key = some word ↔ (key, word) ∈ points := by
  induction points generalizing word with
  | nil => simp [silent]
  | cons point rest ih =>
    rw [pairwise_cons] at distinct
    rw [map_cons, operationsOverlay_cons, layer, Option.or_eq_some_iff,
      ih word distinct.2, mem_cons, overlay_pointOperation]
    constructor
    · rintro (later | ⟨_, first⟩)
      · exact .inr later
      · split at first
        next same =>
          cases first
          exact .inl (by rw [← same])
        · cases first
    · rintro (rfl | later)
      · refine .inr ⟨?_, by simp⟩
        rw [Option.eq_none_iff_forall_ne_some]
        intro other found
        exact distinct.1 (key, other) ((ih other distinct.2).mp found) rfl
      · exact .inl later

theorem operationsOverlay_intoBatch (dirty : DirtyRecords) :
    operationsOverlay dirty.intoBatch.operations = dirty.overlay := by
  funext key
  have distinct : dirty.points.toList.Pairwise fun left right => left.1 ≠ right.1 := by
    apply dirty.points.distinct_keys_toList.imp
    intro left right apart same
    exact apart (by simp [same])
  have found : operationsOverlay (dirty.points.toList.map pointOperation) key = dirty.points[key]? := by
    ext word
    rw [operationsOverlay_points _ _ _ distinct, ExtTreeMap.mem_toList_iff_getElem?_eq_some]
  simp only [intoBatch]
  rw [operationsOverlay_append, layer, found, operationsOverlay_prefixes]
  rfl

variable (dirty : DirtyRecords) (batches : List RecordBatch)

def absorbAll : DirtyRecords := batches.foldl absorb dirty

theorem overlay_absorbAll : (dirty.absorbAll batches).overlay =
      layer (operationsOverlay (batches.flatMap RecordBatch.operations)) dirty.overlay := by
  unfold absorbAll
  induction batches generalizing dirty with
  | nil => simp
  | cons batch rest ih =>
    rw [foldl_cons, ih, overlay_absorb, flatMap_cons, operationsOverlay_append, layer_assoc]

end DirtyRecords

/-- How a dirty root came about: from nothing, by absorbing a published batch, or by absorbing the
batch that another dirty root was turned into. -/
inductive Absorption where
  | start
  | publish (before : Absorption) (batch : RecordBatch)
  | remerge (before : Absorption) (retained : Absorption)

namespace Absorption

def dirty : Absorption → DirtyRecords
  | .start => default
  | .publish before batch => before.dirty.absorb batch
  | .remerge before retained => before.dirty.absorb retained.dirty.intoBatch

def operations : Absorption → List RecordOp
  | .start => []
  | .publish before batch => before.operations ++ batch.operations
  | .remerge before retained => before.operations ++ retained.operations

theorem overlay_dirty (history : Absorption) :
    history.dirty.overlay = operationsOverlay history.operations := by
  induction history with
  | start => exact DirtyRecords.overlay_empty
  | publish before batch ih =>
    rw [dirty, operations, DirtyRecords.overlay_absorb, ih, operationsOverlay_append]
  | remerge before retained first second =>
    rw [dirty, operations, DirtyRecords.overlay_absorb, DirtyRecords.operationsOverlay_intoBatch, first,
      second, operationsOverlay_append]

end Absorption

/-- Coalescing never changes what a sequence of batches does to a record map, also when coalesced work
is put back and merged again with other batches. -/
theorem intoBatch_preserves_operations (records : RecordMap) : (∀ batches : List RecordBatch,
      applyOperations records ((default : DirtyRecords).absorbAll batches).intoBatch.operations =
        applyOperations records (batches.flatMap RecordBatch.operations)) ∧ ∀ history : Absorption,
      applyOperations records history.dirty.intoBatch.operations =
        applyOperations records history.operations := by
  constructor
  · intro batches
    apply applyOperations_congr
    rw [DirtyRecords.operationsOverlay_intoBatch, DirtyRecords.overlay_absorbAll]
    change layer _ DirtyRecords.empty.overlay = _
    rw [DirtyRecords.overlay_empty, layer_silent]
  · intro history
    apply applyOperations_congr
    rw [DirtyRecords.operationsOverlay_intoBatch, Absorption.overlay_dirty]

end IronGraph

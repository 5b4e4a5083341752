import IronGraph.Graph.Csr
import IronGraph.Graph.PagedVec

/-!
The merged rows of an adjacency are the visible edges of their node: an edge is visible if the last
operation that concerned it inserted it, or if the last compaction listed it and nothing concerned
it since.
-/

namespace IronGraph.Graph

open List hiding getElem?_insert
open Std Outcome SortedMerge OrderedMap

abbrev Change := Ordinal × Bool

namespace Endpoints

def delta (ends : Endpoints) (change : Change) : AdjacencyDelta :=
  if change.2 then .insert (ends.source change.1) (ends.target change.1) change.1
  else .delete (ends.source change.1) (ends.target change.1) change.1

variable (ends : Endpoints)

@[simp] theorem delta_source (change : Change) : (ends.delta change).source = ends.source change.1 := by
  unfold delta
  split <;> rfl

@[simp] theorem delta_target (change : Change) : (ends.delta change).target = ends.target change.1 := by
  unfold delta
  split <;> rfl

end Endpoints

def applyChange (visible : Finset Ordinal) (change : Change) : Finset Ordinal :=
  if change.2 then insert change.1 visible else visible.erase change.1

variable {first second node edge : Ordinal} {rows : DeltaMap} {near : AdjacencyDelta → Ordinal}
  {adj : Adjacency} {item : Entry} {base : List Entry} {pending : PendingRow} {ends : Endpoints}
  {edges : List Ordinal} {csr : Csr}

namespace DeltaRows

variable {deltas : List AdjacencyDelta}

/-- The index holds, for every node, the deltas whose `near` end the node is, in order. -/
def Tracks (rows : DeltaMap) (near : AdjacencyDelta → Ordinal) (deltas : List AdjacencyDelta) : Prop :=
  ∃ spec, rows.Represents spec ∧ ∀ node, PagedVec.Holds deltaCapacity 0
    (spec[ordinalKey node]?.getD PagedVec.empty) (deltas.filter fun delta => decide (near delta = node))

theorem ordinalKey_injective (same : ordinalKey first = ordinalKey second) : first = second := by
  have equal := congrArg BitVec.toNat same
  have firstSmall := first.isLt
  have secondSmall := second.isLt
  unfold ordinalKey at equal
  rw [BitVec.toNat_ofNat, BitVec.toNat_ofNat, Nat.mod_eq_of_lt (by omega),
    Nat.mod_eq_of_lt (by omega)] at equal
  exact Fin.ext equal

theorem Tracks.empty (near : AdjacencyDelta → Ordinal) : Tracks PersistentMap.empty near [] :=
  ⟨∅, PersistentMap.Represents.empty, fun node => by
    rw [ExtTreeMap.getElem?_empty]
    exact PagedVec.Holds.empty⟩

/-- An index can only fail to take a delta if the deltas no longer fit a machine word. -/
def Overfull (deltas : List AdjacencyDelta) (error : String) : Prop :=
  error = addOverflow ∧ u64Limit ≤ deltas.length + 1

theorem appendRow_meets (tracks : Tracks rows near deltas) (delta : AdjacencyDelta) :
    Meets (appendRow rows (near delta) delta) (fun after => Tracks after near (deltas ++ [delta]))
      (Overfull deltas) := by
  obtain ⟨spec, represents, held⟩ := tracks
  have shorter := length_filter_le (fun other => decide (near other = near delta)) deltas
  have pages := Nat.div_le_self (deltas.filter fun other => decide (near other = near delta)).length
    deltaCapacity.elements
  unfold appendRow
  rw [represents.get]
  apply Meets.bind (((held (near delta)).push_meets delta).mono (fun _ pushed => pushed) ?_)
  · intro row pushed
    apply Meets.bind (represents.insert_meets (ordinalKey (near delta)) row).sure
    rintro ⟨_, after⟩ ⟨_, represented⟩
    refine ⟨_, represented, fun node => ?_⟩
    rw [getElem?_insert, filter_append]
    by_cases here : near delta = node
    · rw [if_pos (congrArg ordinalKey here), filter_cons_of_pos (by simpa using here),
        filter_nil, ← here]
      exact pushed
    · rw [if_neg fun same => here (ordinalKey_injective same), filter_cons_of_neg (by simpa using here),
        filter_nil, append_nil]
      exact held node
  · rintro error ⟨rfl, reason⟩
    exact ⟨rfl, by omega⟩

structure Indexes (rows : DeltaRows) (deltas : List AdjacencyDelta) : Prop where
  outgoing : Tracks rows.outgoing AdjacencyDelta.source deltas
  incoming : Tracks rows.incoming AdjacencyDelta.target deltas

theorem Indexes.append_meets {rows : DeltaRows} (indexes : Indexes rows deltas)
    (delta : AdjacencyDelta) : Meets (rows.append delta)
      (fun after => Indexes after (deltas ++ [delta])) (Overfull deltas) := by
  apply Meets.bind (appendRow_meets indexes.outgoing delta)
  intro outgoing outgoingTracks
  apply Meets.bind (appendRow_meets indexes.incoming delta)
  intro incoming incomingTracks
  exact ⟨outgoingTracks, incomingTracks⟩

end DeltaRows

namespace Adjacency

variable {deltas : List AdjacencyDelta} {vec : PagedVec AdjacencyDelta}

theorem collect_meets (holds : PagedVec.Holds deltaCapacity 0 vec deltas) :
    Meets ((vec.iter deltaCapacity).collect (vec.pageValues deltaCapacity))
      (· = deltas) fun _ => False := by
  have collected := DoubleEnded.FlatMap.collect_meets (vec.iter deltaCapacity) holds.opens
  rw [holds.pending] at collected
  exact collected

theorem buildDeltaRows_meets (holds : PagedVec.Holds deltaCapacity 0 vec deltas) :
    Meets (buildDeltaRows vec) (fun rows => DeltaRows.Indexes rows deltas) fun _ => False := by
  have bounded := holds.bounded
  apply Meets.bind (collect_meets holds)
  intro values same
  rw [same]
  refine Meets.loop (fun done rows => DeltaRows.Indexes rows done)
    ⟨DeltaRows.Tracks.empty _, DeltaRows.Tracks.empty _⟩ ?_
  rintro done delta rest rows rfl indexes
  rw [length_append, length_cons] at bounded
  refine (indexes.append_meets delta).mono (fun after extended => extended) ?_
  rintro _ ⟨_, full⟩
  omega

structure Logged (adjacency : Adjacency) (deltas : List AdjacencyDelta) : Prop where
  holds : PagedVec.Holds deltaCapacity 0 adjacency.deltas deltas
  indexes : ∀ rows, adjacency.deltaRows = some rows → DeltaRows.Indexes rows deltas

theorem Logged.indexed_meets (logged : Logged adj deltas) :
    Meets adj.indexed (fun rows => DeltaRows.Indexes rows deltas) fun _ => False := by
  unfold indexed
  cases index : adj.deltaRows with
  | some rows => exact logged.indexes rows index
  | none => exact buildDeltaRows_meets logged.holds

theorem Logged.appendDelta_meets (logged : Logged adj deltas) (delta : AdjacencyDelta) :
    Meets (adj.appendDelta delta)
      (fun after => Logged after (deltas ++ [delta]) ∧ after.outgoing = adj.outgoing ∧
        after.incoming = adj.incoming)
      (DeltaRows.Overfull deltas) := by
  have pages := Nat.div_le_self deltas.length deltaCapacity.elements
  unfold appendDelta
  apply Meets.bind ((logged.holds.push_meets delta).mono (fun _ pushed => pushed) ?_)
  · intro pushed holds
    have rows : Meets (extendRows adj.deltaRows pushed delta)
        (fun rows => DeltaRows.Indexes rows (deltas ++ [delta])) (DeltaRows.Overfull deltas) := by
      unfold extendRows
      cases index : adj.deltaRows with
      | some rows => exact (logged.indexes rows index).append_meets delta
      | none => exact (buildDeltaRows_meets holds).sure
    apply Meets.bind rows
    intro rows indexes
    refine ⟨⟨holds, ?_⟩, rfl, rfl⟩
    rintro _ ⟨⟩
    exact indexes
  · rintro error ⟨rfl, reason⟩
    exact ⟨rfl, by omega⟩

theorem pendingRow_meets (tracks : DeltaRows.Tracks rows near deltas) (node : Ordinal)
    (note : PendingRow → AdjacencyDelta → PendingRow) : Meets (pendingRow rows node note)
      (· = (deltas.filter fun delta => decide (near delta = node)).foldl note PendingRow.empty)
        fun _ => False := by
  obtain ⟨spec, represents, held⟩ := tracks
  have row := held node
  unfold pendingRow
  rw [represents.get]
  cases found : spec[ordinalKey node]? with
  | none =>
    rw [found] at row
    have nothing : deltas.filter (fun delta => decide (near delta = node)) = [] :=
      eq_nil_of_length_eq_zero row.len.symm
    rw [nothing]
    rfl
  | some vec =>
    rw [found] at row
    apply Meets.bind (collect_meets row)
    rintro _ rfl
    rfl

end Adjacency

def Shows (base : List Entry) (pending : PendingRow) (item : Entry) : Prop :=
  (item ∈ base ∧ item ∉ pending.deleted) ∨ item ∈ pending.inserted

section Shows

theorem shows_empty : Shows base PendingRow.empty item ↔ item ∈ base := by
  simp [Shows, PendingRow.empty]

variable {other : Entry}

theorem shows_insert : Shows base (pending.insert other) item ↔
    item = other ∨ Shows base pending item := by
  by_cases same : item = other
  · simp [Shows, PendingRow.insert, same]
  · simp [Shows, PendingRow.insert, same]

theorem shows_delete : Shows base (pending.delete other) item ↔
    item ≠ other ∧ Shows base pending item := by
  by_cases same : item = other
  · simp [Shows, PendingRow.delete, same]
  · simp [Shows, PendingRow.delete, same]

end Shows

namespace Adjacency

variable {base : Option (List Entry)}

theorem mem_expandRow (pending : PendingRow) (item : Entry) :
    item ∈ expandRow base pending ↔ Shows (base.getD []) pending item := by
  unfold expandRow Shows
  split
  next idle => simp [idle.1, idle.2]
  · simp [mem_collapse]

theorem expandRow_sortedLT (sorted : (base.getD []).Pairwise (· < ·)) (pending : PendingRow) :
    (expandRow base pending).Pairwise (· < ·) := by
  unfold expandRow
  split
  · exact sorted
  · exact collapse_sortedLT _ sortedLE_mergeSort.pairwise

theorem expandRowBounded_eq (sorted : (base.getD []).Pairwise (· < ·)) (pending : PendingRow)
    (limit : Nat) : expandRowBounded base pending limit = (expandRow base pending).take limit := by
  have insertedSorted : (pending.inserted.sort (· ≤ ·)).Pairwise (· < ·) :=
    (Finset.sortedLT_sort _).pairwise
  have baseSorted := sorted.filter fun item => decide (item ∉ pending.deleted)
  have whole : merged ((base.getD []).filter fun item => decide (item ∉ pending.deleted))
      (pending.inserted.sort (· ≤ ·)) = expandRow base pending := by
    refine (merged_sortedLT _ _ baseSorted insertedSorted).eq_of_mem_iff
      (expandRow_sortedLT sorted pending) ?_
    intro item
    rw [mem_merged, mem_expandRow, mem_filter, Finset.mem_sort, decide_eq_true_eq]
    rfl
  unfold expandRowBounded
  rw [mergeBounded_eq limit _ _ [] baseSorted insertedSorted nofun, whole]
  rfl

end Adjacency

/-- One of the two directions: which end of an edge its row is, which end it names, and how a row
notes a delta. -/
structure Direction (ends : Endpoints) where
  near : Ordinal → Ordinal
  far : Ordinal → Ordinal
  side : AdjacencyDelta → Ordinal
  note : Ordinal → PendingRow → AdjacencyDelta → PendingRow
  side_delta : ∀ change, side (ends.delta change) = near change.1
  note_delta : ∀ pending change, note (near change.1) pending (ends.delta change) =
    if change.2 then pending.insert (entry (far change.1) change.1)
      else pending.delete (entry (far change.1) change.1)

namespace Direction

def outgoing (ends : Endpoints) : Direction ends where
  near := ends.source
  far := ends.target
  side := AdjacencyDelta.source
  note := PendingRow.noteOutgoing
  side_delta := ends.delta_source
  note_delta := fun pending change => by
    unfold Endpoints.delta
    split <;> exact if_pos rfl

def incoming (ends : Endpoints) : Direction ends where
  near := ends.target
  far := ends.source
  side := AdjacencyDelta.target
  note := PendingRow.noteIncoming
  side_delta := ends.delta_target
  note_delta := fun pending change => by
    unfold Endpoints.delta
    split <;> exact if_pos rfl

def InRow (direction : Direction ends) (node : Ordinal) (visible : Finset Ordinal)
    (item : Entry) : Prop :=
  ∃ edge ∈ visible, direction.near edge = node ∧ item = entry (direction.far edge) edge

variable {direction : Direction ends}

theorem inRow_insert {visible : Finset Ordinal} (here : direction.near edge = node) :
    direction.InRow node (insert edge visible) item ↔
      item = entry (direction.far edge) edge ∨ direction.InRow node visible item := by
  simp only [InRow, Finset.exists_mem_insert, here, true_and]

theorem entry_edge {neighbor other : Ordinal} (same : entry neighbor first = entry other second) :
    first = second :=
  congrArg (fun item : Entry => (ofLex item).2) same

theorem inRow_erase {visible : Finset Ordinal} (here : direction.near edge = node) :
    direction.InRow node (visible.erase edge) item ↔
      item ≠ entry (direction.far edge) edge ∧ direction.InRow node visible item := by
  constructor
  · rintro ⟨other, mem, near, rfl⟩
    rw [Finset.mem_erase] at mem
    exact ⟨fun same => mem.1 (entry_edge same), other, mem.2, near, rfl⟩
  · rintro ⟨apart, other, mem, near, rfl⟩
    refine ⟨other, Finset.mem_erase.mpr ⟨?_, mem⟩, near, rfl⟩
    rintro rfl
    exact apart rfl

theorem inRow_elsewhere {visible : Finset Ordinal} (elsewhere : direction.near edge ≠ node)
    (change : Change) (concerns : change.1 = edge) :
    direction.InRow node (applyChange visible change) item ↔ direction.InRow node visible item := by
  subst concerns
  unfold applyChange InRow
  split
  · constructor
    · rintro ⟨other, mem, near, rfl⟩
      rcases Finset.mem_insert.mp mem with rfl | has
      · exact absurd near elsewhere
      · exact ⟨other, has, near, rfl⟩
    · rintro ⟨other, mem, near, rfl⟩
      exact ⟨other, Finset.mem_insert_of_mem mem, near, rfl⟩
  · constructor
    · rintro ⟨other, mem, near, rfl⟩
      exact ⟨other, Finset.mem_of_mem_erase mem, near, rfl⟩
    · rintro ⟨other, mem, near, rfl⟩
      refine ⟨other, Finset.mem_erase.mpr ⟨?_, mem⟩, near, rfl⟩
      rintro rfl
      exact elsewhere near

theorem shows_fold {visible : Finset Ordinal} (direction : Direction ends) (node : Ordinal)
    (changes : List Change)
    (shown : ∀ item, Shows base pending item ↔ direction.InRow node visible item) (item : Entry) :
    Shows base (((changes.map ends.delta).filter fun delta =>
      decide (direction.side delta = node)).foldl
        (direction.note node) pending) item ↔
      direction.InRow node (changes.foldl applyChange visible) item := by
  induction changes generalizing pending visible with
  | nil => exact shown item
  | cons change rest ih =>
    rw [map_cons, filter_cons, direction.side_delta, foldl_cons]
    by_cases here : direction.near change.1 = node
    · rw [if_pos (decide_eq_true here), foldl_cons]
      apply ih
      intro other
      rw [← here, direction.note_delta, here]
      unfold applyChange
      split
      · rw [shows_insert, inRow_insert here, shown]
      · rw [shows_delete, inRow_erase here, shown]
    · rw [if_neg (by simpa using here)]
      apply ih
      intro other
      rw [shown, inRow_elsewhere here change rfl]

end Direction

namespace Direction

variable (direction : Direction ends)

def Reflects (csr : Csr) (edges : List Ordinal) : Prop :=
  ∀ node, ((csr.row node).getD []).Pairwise (· < ·) ∧
    ∀ item, item ∈ (csr.row node).getD [] ↔ direction.InRow node edges.toFinset item

/-- A list is the row of a node: sorted, without repetition, and exactly the visible edges there. -/
structure RowOf (node : Ordinal) (visible : Finset Ordinal) (row : List Entry) : Prop where
  sorted : row.Pairwise (· < ·)
  exact : ∀ item, item ∈ row ↔ direction.InRow node visible item

variable {direction} {changes : List Change}

theorem RowOf.unique {visible : Finset Ordinal} {first second : List Entry}
    (firstRow : direction.RowOf node visible first)
    (secondRow : direction.RowOf node visible second) :
    first = second :=
  firstRow.sorted.eq_of_mem_iff secondRow.sorted fun item => by rw [firstRow.exact, secondRow.exact]

theorem Reflects.expandRow (reflects : direction.Reflects csr edges) :
    direction.RowOf node (changes.foldl applyChange edges.toFinset) (Adjacency.expandRow (csr.row node)
        (((changes.map ends.delta).filter fun delta => decide (direction.side delta = node)).foldl
          (direction.note node) PendingRow.empty)) := by
  obtain ⟨sorted, same⟩ := reflects node
  refine ⟨Adjacency.expandRow_sortedLT sorted _, fun item => ?_⟩
  rw [Adjacency.mem_expandRow, direction.shows_fold node changes]
  intro other
  rw [shows_empty, same]

structure Expands (node : Ordinal) (visible : Finset Ordinal) (whole : Except String (List Entry))
    (bounded : Nat → Except String (List Entry)) : Prop where
  row : ∃ row, whole = .ok row ∧ direction.RowOf node visible row ∧
    ∀ limit, bounded limit = .ok (row.take limit)

theorem expands_of_tracks {indexed : Except String DeltaRows}
    (reflects : direction.Reflects csr edges) (select : DeltaRows → DeltaMap)
    (tracked : Meets indexed
      (fun rows => DeltaRows.Tracks (select rows) direction.side (changes.map ends.delta))
        fun _ => False) :
    direction.Expands node (changes.foldl applyChange edges.toFinset)
      (do
        let rows ← indexed
        let pending ← Adjacency.pendingRow (select rows) node (direction.note node)
        return Adjacency.expandRow (csr.row node) pending)
      (fun limit => if limit = 0 then .ok [] else do
        let rows ← indexed
        let pending ← Adjacency.pendingRow (select rows) node (direction.note node)
        return Adjacency.expandRowBounded (csr.row node) pending limit) := by
  cases index : indexed with
  | error msg => exact (tracked.error_fail index).elim
  | ok rows =>
    have pending := Adjacency.pendingRow_meets (tracked.ok_post index) node (direction.note node)
    cases noted : Adjacency.pendingRow (select rows) node (direction.note node) with
    | error msg => exact (pending.error_fail noted).elim
    | ok result =>
      have same := pending.ok_post noted
      refine ⟨Adjacency.expandRow (csr.row node) result, ?_, same ▸ reflects.expandRow, ?_⟩
      · exact bind_eq_ok.mpr ⟨rows, rfl, bind_eq_ok.mpr ⟨result, noted, rfl⟩⟩
      · intro limit
        split
        next zero => rw [zero, take_zero]
        · refine bind_eq_ok.mpr ⟨rows, rfl, bind_eq_ok.mpr ⟨result, noted, ?_⟩⟩
          exact congrArg Except.ok (Adjacency.expandRowBounded_eq (reflects node).1 result limit)

end Direction

namespace Adjacency

variable {base : List Ordinal} {changes : List Change}

/-- The base holds the edges of the last compaction, the deltas the changes since. -/
structure Models (ends : Endpoints) (adjacency : Adjacency) (base : List Ordinal)
    (changes : List Change) : Prop where
  logged : Logged adjacency (changes.map ends.delta)
  outgoing : (Direction.outgoing ends).Reflects adjacency.outgoing base
  incoming : (Direction.incoming ends).Reflects adjacency.incoming base

structure ShowsVisible (ends : Endpoints) (adjacency : Adjacency)
    (visible : Finset Ordinal) : Prop where
  outgoing : ∀ node, (Direction.outgoing ends).Expands node visible (adjacency.expandOut node)
    (adjacency.expandOutBounded node)
  incoming : ∀ node, (Direction.incoming ends).Expands node visible (adjacency.expandIn node)
    (adjacency.expandInBounded node)

theorem Models.shows (models : Models ends adj base changes) :
    ShowsVisible ends adj (changes.foldl applyChange base.toFinset) := by
  have indexed := models.logged.indexed_meets
  constructor
  · intro node
    exact Direction.expands_of_tracks models.outgoing DeltaRows.outgoing
      (indexed.mono (fun _ indexes => indexes.outgoing) fun _ failed => failed)
  · intro node
    exact Direction.expands_of_tracks models.incoming DeltaRows.incoming
      (indexed.mono (fun _ indexes => indexes.incoming) fun _ failed => failed)

theorem reflects_empty (direction : Direction ends) : direction.Reflects Csr.empty [] := by
  intro node
  refine ⟨.nil, fun item => ⟨nofun, ?_⟩⟩
  rintro ⟨edge, mem, _⟩
  exact absurd mem (by simp)

theorem Models.empty (ends : Endpoints) : Models ends Adjacency.empty [] [] where
  logged := ⟨PagedVec.Holds.empty, nofun⟩
  outgoing := reflects_empty _
  incoming := reflects_empty _

/-- A compaction is accepted if its edges fit the node count and the 32-bit offsets. -/
def Accepts (ends : Endpoints) (nodeCount : Nat) (edges : List Ordinal) : Prop :=
  (∀ edge ∈ edges, (ends.source edge).val < nodeCount ∧ (ends.target edge).val < nodeCount) ∧
    edges.length < u32Limit

instance (ends : Endpoints) (nodeCount : Nat) (edges : List Ordinal) :
    Decidable (Accepts ends nodeCount edges) :=
  inferInstanceAs (Decidable (_ ∧ _))

theorem fits_triples (nodeCount : Nat) (edges : List Ordinal) :
    Csr.Fits nodeCount (edges.map ends.triple) ↔ Accepts ends nodeCount edges := by
  unfold Csr.Fits Accepts
  rw [length_map, forall_mem_map]
  rfl

theorem fits_transposed (nodeCount : Nat) (edges : List Ordinal) :
    Csr.Fits nodeCount ((edges.map ends.triple).map Triple.transposed) ↔
    Accepts ends nodeCount edges := by
  unfold Csr.Fits Accepts
  rw [length_map, length_map, forall_mem_map, forall_mem_map]
  exact and_congr_left fun _ => forall₂_congr fun _ _ => and_comm

theorem reflects_of_rows {nodeCount : Nat} {triple : Ordinal → Triple} (direction : Direction ends)
    (distinct : edges.Nodup) (inside : ∀ edge ∈ edges, (direction.near edge).val < nodeCount)
    (source : ∀ edge, (triple edge).source = direction.near edge)
    (content : ∀ edge, (triple edge).entry = entry (direction.far edge) edge)
      (rows : ∀ node, csr.row node = if node.val < nodeCount then
        some (Csr.entriesOf (edges.map triple) node) else none) :
    direction.Reflects csr edges := by
  have injective : Function.Injective triple := by
    intro first second same
    have entries := congrArg Triple.entry same
    rw [content, content] at entries
    exact Direction.entry_edge entries
  intro node
  rw [rows]
  split
  · refine ⟨Csr.entriesOf_sortedLT (distinct.map injective) node, fun item => ?_⟩
    rw [Option.getD_some, Csr.mem_entriesOf]
    constructor
    · rintro ⟨_, mem, near, same⟩
      obtain ⟨edge, has, rfl⟩ := mem_map.mp mem
      exact ⟨edge, mem_toFinset.mpr has, (source edge).symm.trans near, same.symm.trans (content edge)⟩
    · rintro ⟨edge, mem, near, same⟩
      exact ⟨triple edge, mem_map_of_mem (mem_toFinset.mp mem), (source edge).trans near,
        (content edge).trans same.symm⟩
  next outside =>
    refine ⟨.nil, fun item => ⟨nofun, ?_⟩⟩
    rintro ⟨edge, mem, near, _⟩
    exact absurd (near ▸ inside edge (mem_toFinset.mp mem)) outside

theorem compact_spec (ends : Endpoints) (adj : Adjacency) (nodeCount : Nat) (distinct : edges.Nodup) :
    (Accepts ends nodeCount edges →
      Models ends (adj.compact nodeCount (edges.map ends.triple)).1 edges []) ∧
      (¬ Accepts ends nodeCount edges → (adj.compact nodeCount (edges.map ends.triple)).1 = adj) := by
  have forwards := Csr.buildOwned_meets nodeCount (edges.map ends.triple)
  have backwards := Csr.buildOwned_meets nodeCount ((edges.map ends.triple).map Triple.transposed)
  rw [fits_triples] at forwards
  rw [fits_transposed] at backwards
  unfold compact Csr.build Csr.buildTransposed
  constructor
  · intro valid
    cases out : Csr.buildOwned nodeCount (edges.map ends.triple) with
    | error _ => exact absurd valid (forwards.error_fail out)
    | ok outgoing =>
      cases back : Csr.buildOwned nodeCount ((edges.map ends.triple).map Triple.transposed) with
      | error _ => exact absurd valid (backwards.error_fail back)
      | ok incoming =>
        refine ⟨⟨PagedVec.Holds.empty, nofun⟩, ?_, ?_⟩
        · exact reflects_of_rows _ distinct (fun edge mem => (valid.1 edge mem).1) (fun _ => rfl)
            (fun _ => rfl) (forwards.ok_post out).2.2
        · have rows := (backwards.ok_post back).2.2
          rw [map_map] at rows
          exact reflects_of_rows _ distinct (fun edge mem => (valid.1 edge mem).2) (fun _ => rfl)
            (fun _ => rfl) rows
  · intro refused
    cases out : Csr.buildOwned nodeCount (edges.map ends.triple) with
    | error _ => rfl
    | ok outgoing => exact absurd (forwards.ok_post out).1 refused

def visibleAfter (ends : Endpoints) (visible : Finset Ordinal) : AdjacencyAction → Finset Ordinal
  | .insert edge => applyChange visible (edge, true)
  | .delete edge => applyChange visible (edge, false)
  | .compact nodeCount edges _ => if Accepts ends nodeCount edges then edges.toFinset else visible
  | .read => visible

def visible (ends : Endpoints) (actions : List AdjacencyAction) : Finset Ordinal :=
  actions.foldl (visibleAfter ends) ∅

theorem Models.change_meets (models : Models ends adj base changes) (change : Change) :
    Meets (adj.appendDelta (ends.delta change))
      (fun after => Models ends after base (changes ++ [change]))
      (fun error => error = addOverflow ∧ u64Limit ≤ changes.length + 1) := by
  have appended := models.logged.appendDelta_meets (ends.delta change)
  refine appended.mono ?_ ?_
  · rintro after ⟨logged, outgoing, incoming⟩
    refine ⟨?_, outgoing ▸ models.outgoing, incoming ▸ models.incoming⟩
    rw [map_append, map_singleton]
    exact logged
  · rintro error ⟨rfl, full⟩
    rw [length_map] at full
    exact ⟨rfl, full⟩

theorem Models.step_meets (models : Models ends adj base changes) (action : AdjacencyAction) :
    Meets (adj.step ends action)
      (fun after => ∃ base' changes', Models ends after base' changes' ∧
        changes'.length ≤ changes.length + 1 ∧ changes'.foldl applyChange base'.toFinset =
          visibleAfter ends (changes.foldl applyChange base.toFinset) action)
      (fun error => error = addOverflow ∧ u64Limit ≤ changes.length + 1) := by
  have changed : ∀ change : Change, Meets (adj.appendDelta (ends.delta change))
      (fun after => ∃ base' changes', Models ends after base' changes' ∧
        changes'.length ≤ changes.length + 1 ∧ changes'.foldl applyChange base'.toFinset =
          applyChange (changes.foldl applyChange base.toFinset) change)
      (fun error => error = addOverflow ∧ u64Limit ≤ changes.length + 1) := by
    intro change
    refine (models.change_meets change).imp ?_
    intro after modelled
    exact ⟨base, changes ++ [change], modelled, by simp, by rw [foldl_append]; rfl⟩
  cases action with
  | insert edge => exact changed (edge, true)
  | delete edge => exact changed (edge, false)
  | compact nodeCount edges distinct =>
    obtain ⟨installed, kept⟩ := compact_spec ends adj nodeCount distinct
    by_cases valid : Accepts ends nodeCount edges
    · refine ⟨edges, [], installed valid, Nat.zero_le _, ?_⟩
      rw [visibleAfter, if_pos valid]
      rfl
    · refine ⟨base, changes, ?_, Nat.le_succ _, ?_⟩
      · rw [kept valid]
        exact models
      · rw [visibleAfter, if_neg valid]
  | read =>
    apply Meets.bind models.logged.indexed_meets.sure
    intro rows indexes
    refine ⟨base, changes, ⟨⟨models.logged.holds, ?_⟩, models.outgoing, models.incoming⟩,
      Nat.le_succ _, rfl⟩
    rintro _ ⟨⟩
    exact indexes

section

variable (ends : Endpoints) (actions : List AdjacencyAction)

theorem run_meets : Meets (run ends actions)
      (fun adj => ∃ base changes, Models ends adj base changes ∧
        changes.foldl applyChange base.toFinset = visible ends actions)
      (fun error => error = addOverflow ∧ u64Limit ≤ actions.length) := by
  refine Meets.imp (Meets.foldlM (fun rest adj => ∃ done base changes, done ++ rest = actions ∧
      Models ends adj base changes ∧ changes.length ≤ done.length ∧
      changes.foldl applyChange base.toFinset = visible ends done)
    actions ⟨[], [], [], rfl, Models.empty ends, Nat.le_refl _, rfl⟩ ?_) ?_
  · rintro action rest adj ⟨done, base, changes, rfl, models, length, seen⟩
    refine (models.step_meets action).mono ?_ ?_
    · rintro after ⟨base', changes', modelled, length', seen'⟩
      refine ⟨done ++ [action], base', changes', by simp, modelled, ?_, ?_⟩
      · rw [length_append, length_singleton]
        omega
      · rw [seen', seen, visible, visible, foldl_append]
        rfl
    · rintro error ⟨rfl, full⟩
      rw [length_append, length_cons]
      exact ⟨rfl, by omega⟩
  · rintro adj ⟨done, base, changes, whole, models, _, seen⟩
    rw [append_nil] at whole
    exact ⟨base, changes, models, whole ▸ seen⟩

/-- Every compaction of the run lists exactly the edges visible before it. -/
def Faithful : Prop :=
  ∀ earlier nodeCount edges distinct later, actions =
    earlier ++ .compact nodeCount edges distinct :: later → edges.toFinset = visible ends earlier

end

def concerns (edge : Ordinal) : AdjacencyAction → Bool
  | .insert other => decide (other = edge)
  | .delete other => decide (other = edge)
  | _ => false

def LastInserted (actions : List AdjacencyAction) (edge : Ordinal) : Prop :=
  (actions.filter (concerns edge)).getLast? = some (.insert edge)

theorem visible_iff_lastInserted {actions : List AdjacencyAction} (faithful : Faithful ends actions)
    (edge : Ordinal) :
    edge ∈ visible ends actions ↔ LastInserted actions edge := by
  induction actions using reverseRecOn with
  | nil => simp [visible, LastInserted]
  | append_singleton prior action ih =>
    have before : edge ∈ visible ends prior ↔ LastInserted prior edge := by
      apply ih
      intro first nodeCount edges distinct later cut
      exact faithful first nodeCount edges distinct (later ++ [action]) (by rw [cut]; simp)
    have last : visible ends (prior ++ [action]) = visibleAfter ends (visible ends prior) action := by
      rw [visible, foldl_append]
      rfl
    unfold LastInserted at before ⊢
    rw [last, filter_append]
    cases action with
    | insert other | delete other =>
      by_cases same : other = edge
      · simp [visibleAfter, applyChange, concerns, same]
      · simp [visibleAfter, applyChange, concerns, same, Ne.symm same, before]
    | compact nodeCount edges distinct =>
      have listed := faithful prior nodeCount edges distinct [] rfl
      have unchanged : visibleAfter ends (visible ends prior) (.compact nodeCount edges distinct) =
          visible ends prior := by
        rw [visibleAfter, listed, ite_self]
      rw [unchanged, before]
      simp [concerns]
    | read =>
      rw [visibleAfter, before]
      simp [concerns]

variable {visible : Finset Ordinal}

theorem ShowsVisible.transposed {source : Ordinal} {out : List Entry} {target : Ordinal}
    {back : List Entry} (shows : ShowsVisible ends adj visible)
    (expandedOut : adj.expandOut source = .ok out) (expandedIn : adj.expandIn target = .ok back) :
    entry target edge ∈ out ↔ entry source edge ∈ back := by
  obtain ⟨row, read, rowOf, _⟩ := (shows.outgoing source).row
  cases expandedOut.symm.trans read
  obtain ⟨column, read, columnOf, _⟩ := (shows.incoming target).row
  cases expandedIn.symm.trans read
  rw [rowOf.exact, columnOf.exact]
  constructor
  · rintro ⟨other, mem, near, same⟩
    cases Direction.entry_edge same
    have far : target = ends.target edge := congrArg (fun item : Entry => (ofLex item).1) same
    exact ⟨edge, mem, far.symm, by rw [← near]; rfl⟩
  · rintro ⟨other, mem, near, same⟩
    cases Direction.entry_edge same
    have far : source = ends.source edge := congrArg (fun item : Entry => (ofLex item).1) same
    exact ⟨edge, mem, far.symm, by rw [← near]; rfl⟩

theorem expands_unique {direction : Direction ends} {first second : Except String (List Entry)}
    {firstBounded secondBounded : Nat → Except String (List Entry)}
    (left : direction.Expands node visible first firstBounded)
    (right : direction.Expands node visible second secondBounded) :
    first = second ∧ firstBounded = secondBounded := by
  obtain ⟨row, rfl, rowOf, bounded⟩ := left.row
  obtain ⟨other, rfl, otherOf, otherBounded⟩ := right.row
  cases rowOf.unique otherOf
  exact ⟨rfl, funext fun limit => (bounded limit).trans (otherBounded limit).symm⟩

structure SameRows (left right : Adjacency) : Prop where
  expandOut : left.expandOut = right.expandOut
  expandOutBounded : left.expandOutBounded = right.expandOutBounded
  expandIn : left.expandIn = right.expandIn
  expandInBounded : left.expandInBounded = right.expandInBounded

theorem ShowsVisible.sameRows {other : Adjacency} (shows : ShowsVisible ends adj visible)
    (shown : ShowsVisible ends other visible) :
    SameRows adj other := by
  refine ⟨funext fun node => ?_, funext fun node => ?_, funext fun node => ?_, funext fun node => ?_⟩
  · exact (expands_unique (shows.outgoing node) (shown.outgoing node)).1
  · exact (expands_unique (shows.outgoing node) (shown.outgoing node)).2
  · exact (expands_unique (shows.incoming node) (shown.incoming node)).1
  · exact (expands_unique (shows.incoming node) (shown.incoming node)).2

end Adjacency

/-- After any run over edges with fixed endpoints, every row reads back exactly the visible edges of
its node, in both directions and bounded by any limit, the two directions are transposes, and a
compaction that lists the visible edges, each once, changes no row. If all compactions of the run
did so, an edge is visible exactly if the last operation on it is an insertion. A run stops early
only after `2 ^ 64` actions. -/
theorem adjacency_expands_visible (ends : Endpoints) (actions : List AdjacencyAction) :
    Meets (Adjacency.run ends actions)
      (fun adjacency =>
        Adjacency.ShowsVisible ends adjacency (Adjacency.visible ends actions) ∧
        (Adjacency.Faithful ends actions →
          ∀ edge, edge ∈ Adjacency.visible ends actions ↔ Adjacency.LastInserted actions edge) ∧
        (∀ source target edge out back, adjacency.expandOut source = .ok out →
          adjacency.expandIn target = .ok back →
          (entry target edge ∈ out ↔ entry source edge ∈ back)) ∧
        ∀ nodeCount (edges : List Ordinal), edges.Nodup →
        edges.toFinset = Adjacency.visible ends actions →
          Adjacency.SameRows (adjacency.compact nodeCount (edges.map ends.triple)).1 adjacency)
      (fun error => error = addOverflow ∧ 2 ^ 64 ≤ actions.length) := by
  refine (Adjacency.run_meets ends actions).imp ?_
  rintro adjacency ⟨base, changes, models, seen⟩
  have shows := models.shows
  rw [seen] at shows
  refine ⟨shows, fun faithful => Adjacency.visible_iff_lastInserted faithful,
    fun _ _ _ _ _ out back => shows.transposed out back, ?_⟩
  intro nodeCount edges distinct listed
  obtain ⟨installed, kept⟩ := Adjacency.compact_spec ends adjacency nodeCount distinct
  by_cases accepted : Adjacency.Accepts ends nodeCount edges
  · have compacted := (installed accepted).shows
    rw [foldl_nil, listed] at compacted
    exact compacted.sameRows shows
  · rw [kept accepted]
    exact ⟨rfl, rfl, rfl, rfl⟩

end IronGraph.Graph

import IronGraph.Storage.RecordKeys
import IronGraph.Temporal.StoreCore

/-!
Persistence of the temporal store. What may change is captured before a command: the row cursor and
the rows behind the horizon of every column it writes. After the command the records of these
columns are brought up to date.
-/

namespace IronGraph.Temporal

open Std Outcome OrderedMap Persistence Column

structure TemporalCodecs where
  declaration : Codec TemporalDeclaration
  sample : Codec TemporalSample
  cursor : Codec Nat
  definition : Codec TemporalRollupDefinition

def stem (digit : UInt8) : Bytes := [116, 47, digit]

def columnRecord (digit : UInt8) (column : Key) : Bytes :=
  key (stem digit) [column.1.toUInt64, column.2.1, column.2.2]

def sampleRecord (column : Key) (row : Nat) : Bytes := key (columnRecord 49 column) [UInt64.ofNat row]

def nameBytes (name : String) : Bytes := name.toUTF8.data.toList

def rollupRecord (name : String) : Bytes := stem 51 ++ nameBytes name

/-- For every column that may change, its row cursor and its rows behind the horizon. -/
structure TemporalPersistenceSelection where
  columns : ExtTreeMap Key (Nat × List Nat)

structure TemporalChange where
  entityKind : EntityKind
  target : UInt64
  sample : TemporalSample
deriving Repr, DecidableEq

def TemporalChange.key (change : TemporalChange) : Key :=
  columnKey change.entityKind change.target change.sample.property

inductive TemporalAdministrative where
  | declare (declaration : TemporalDeclaration)
  | createRollup (definition : TemporalRollupDefinition)
deriving Repr, DecidableEq

structure TemporalCommand where
  changes : List TemporalChange
  administrative : Option TemporalAdministrative
  now : Int
deriving Repr, DecidableEq

def Column.expiredRows (column : Column) (oldest : Int) : List Nat :=
  (column.expiry.toList.filter fun entry => compare entry (oldest, 0) = .lt).map Prod.snd

namespace TemporalStore

variable {K A : Type} [Quantity K] (store : TemporalStore K A)

def selected (now : Int) (column : Key) : Nat × List Nat := match store.columns[column]? with
  | some found => (found.nextRow, found.expiredRows (horizon found.declaration now))
  | none => (0, [])

def preparePersistence (changed : List Key) (now : Int) : TemporalPersistenceSelection :=
  changed.foldl (fun selection column =>
    { columns := selection.columns.insert column (store.selected now column) }) { columns := ∅ }

def prepareDeclarationPersistence (declaration : TemporalDeclaration) (now : Int) :
    TemporalPersistenceSelection :=
  let selection := store.preparePersistence [declaration.key] now
  match store.columns[declaration.key]? with
  | some found =>
    { columns := selection.columns.insert declaration.key
        (found.nextRow, found.expiredRows (horizon declaration now)) }
  | none => selection

variable (codecs : TemporalCodecs) (store : TemporalStore K A)

def catalogChanges : List RecordOp := store.columns.toList.map (fun entry =>
      .put (columnRecord 48 entry.1) (codecs.declaration.encode entry.2.declaration)) ++
    .deletePrefix (stem 51) ::
    store.rollups.toList.map fun entry =>
      .put (rollupRecord entry.2.definition.name) (codecs.definition.encode entry.2.definition)

def columnChanges (column : Key) (start : Nat) (expired : List Nat) : Result (List RecordOp) :=
  match store.columns[column]? with
  | none => .ok [.delete (columnRecord 48 column), .deletePrefix (columnRecord 49 column),
      .delete (columnRecord 50 column)]
  | some found =>
    if found.nextRow < start then .error (Persistence.corrupt "temporal row cursor moved backwards")
    else
      .ok (.put (columnRecord 48 column) (codecs.declaration.encode found.declaration) ::
        (expired.filter fun row => found.rows[row]?.isNone).map (fun row =>
          .delete (sampleRecord column row)) ++
        (List.range' start (found.nextRow - start)).filterMap (fun row =>
          found.rows[row]?.map fun sample =>
            .put (sampleRecord column row) (codecs.sample.encode sample)) ++
        [.put (columnRecord 50 column) (codecs.cursor.encode found.nextRow)])

def persistenceChanges (selection : TemporalPersistenceSelection)
    (catalogChanged : Bool) : Result (List RecordOp) := do
  let columns ← selection.columns.toList.mapM fun entry =>
    store.columnChanges codecs entry.1 entry.2.1 entry.2.2
  .ok ((if catalogChanged then store.catalogChanges codecs else []) ++ columns.flatten)

def parseColumn (bytes : Bytes) : Result Key := do
  match ← ids bytes 3 with
  | [kind, target, property] =>
    if kind = 0 ∨ kind = 1 then .ok (kind.toUInt8, target, property)
    else .error (Persistence.corrupt "temporal entity kind is invalid")
  | _ => .error (Persistence.corrupt "temporal entity kind is invalid")

variable [AddCommGroup A] (calendar : Calendar) (arithmetic : Arithmetic K A)
    (store : TemporalStore K A)

def restorePersistenceRecord (record value : Bytes) : Result (TemporalStore K A × Bool) :=
  match record with
  | 116 :: 47 :: 48 :: body => do
    let column ← parseColumn body
    let declaration ← codecs.declaration.decode value
    require (!(column ≠ declaration.key || declaration.retentionNanos ≤ 0))
      (Persistence.corrupt "invalid temporal declaration record")
    require store.columns[column]?.isNone (Persistence.corrupt "duplicate temporal declaration")
    .ok ({ store with columns := store.columns.insert column (new declaration) }, true)
  | 116 :: 47 :: 49 :: body => do
    require (record.length = 35) (Persistence.corrupt "invalid temporal sample key")
    let column ← parseColumn (body.take 24)
    let row ← ids (body.drop 24) 1
    let sample ← codecs.sample.decode value
    let found ← orElse store.columns[column]? (Persistence.corrupt "temporal sample has no declaration")
    require (!(sample.property ≠ column.2.2 || !found.declaration.valueType.accepts sample.value))
      (Persistence.corrupt "temporal sample differs from declaration")
    let row := (row.headD 0).toNat
    require (!(row < found.nextRow)) (Persistence.corrupt "temporal sample rows are unordered")
    let grown ← insert { found with nextRow := row } sample
    .ok ({ store with columns := store.columns.insert column grown }, true)
  | 116 :: 47 :: 50 :: body => do
    let column ← parseColumn body
    let finish ← codecs.cursor.decode value
    let found ← orElse store.columns[column]?
        (Persistence.corrupt "temporal row cursor has no declaration")
    require (!(finish < found.nextRow)) (Persistence.corrupt "temporal row cursor precedes samples")
    .ok ({ store with columns := store.columns.insert column { found with nextRow := finish } }, true)
  | 116 :: 47 :: 51 :: body => do
    let definition ← codecs.definition.decode value
    require (body = nameBytes definition.name) (Persistence.corrupt "temporal rollup name differs")
    match store.createRollup calendar arithmetic definition with
    | (_, .error error) => .error error
    | (next, .ok ()) => .ok (next, true)
  | 116 :: 47 :: _ => .error (Persistence.corrupt "unknown temporal persistence record")
  | _ => .ok (store, false)

def restore (records : RecordMap) : Result (TemporalStore K A) :=
  records.toList.foldlM (fun store entry => do
    let (next, _) ← restorePersistenceRecord codecs calendar arithmetic store entry.1 entry.2
    .ok next) TemporalStore.empty

def appendAll (changes : List TemporalChange) (now : Int) : Result (TemporalStore K A) :=
  changes.foldlM (fun store change =>
    match store.append calendar arithmetic change.entityKind change.target change.sample now with
    | (_, .error error) => .error error
    | (next, .ok ()) => .ok next) store

def administer (now : Int) : Option TemporalAdministrative → Result (TemporalStore K A)
  | none => .ok store
  | some (.declare declaration) =>
    match store.declare calendar arithmetic declaration now with
    | (_, .error error) => .error error
    | (next, .ok ()) => .ok next
  | some (.createRollup definition) =>
    match store.createRollup calendar arithmetic definition with
    | (_, .error error) => .error error
    | (next, .ok ()) => .ok next

/-- What a command does to the store: its appends, then its administrative part. -/
def carryOut (command : TemporalCommand) : Result (TemporalStore K A) := do
  let appended ← store.appendAll calendar arithmetic command.changes command.now
  appended.administer calendar arithmetic command.now command.administrative

def declaredSelection (now : Int) : Option TemporalAdministrative → Option TemporalPersistenceSelection
  | some (.declare declaration) => some (store.prepareDeclarationPersistence declaration now)
  | _ => none

def declarationChanges (catalogChanged : Bool) : Option TemporalPersistenceSelection →
    Result (List RecordOp)
  | some selection => store.persistenceChanges codecs selection catalogChanged
  | none => .ok []

/-- One ordered command: capture, apply, and fold the emitted operations into the records. -/
def publish (state : TemporalStore K A × RecordMap) (command : TemporalCommand) :
    Result (TemporalStore K A × RecordMap) := do
  let (store, records) := state
  let selection := store.preparePersistence (command.changes.map TemporalChange.key) command.now
  let declared := store.declaredSelection command.now command.administrative
  let next ← store.carryOut calendar arithmetic command
  let operations ← next.persistenceChanges codecs selection command.administrative.isSome
  let declarations ← next.declarationChanges codecs command.administrative.isSome declared
  .ok (next, applyOperations records (operations ++ declarations))

end TemporalStore

end IronGraph.Temporal

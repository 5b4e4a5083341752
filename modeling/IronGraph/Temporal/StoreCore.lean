import IronGraph.Temporal.Rollup

/-!
The temporal store: columns of samples with their retention, and the rollups derived from them. The
outcome of a call is the store it leaves together with its result: what a failing call has already
done stays done. Hash maps are ordered maps, iterated in key order.
-/

namespace IronGraph.Temporal

open Std Outcome OrderedMap

inductive TemporalType where
  | boolean
  | integer
  | float
  | string
  | date
  | localTime
  | zonedTime
  | localDateTime
  | zonedDateTime
  | duration
deriving Repr, DecidableEq

def TemporalType.accepts : TemporalType → ScalarValue → Bool
  | _, .null => true
  | .boolean, .boolean _ => true
  | .integer, .integer _ => true
  | .float, .float _ => true
  | .string, .string _ => true
  | .date, .date _ => true
  | .localTime, .localTime _ => true
  | .zonedTime, .zonedTime .. => true
  | .localDateTime, .localDateTime .. => true
  | .zonedDateTime, .zonedDateTime .. => true
  | .duration, .duration .. => true
  | _, _ => false

abbrev Key := UInt8 × UInt64 × PropertyId

instance keyTransOrd : TransOrd Key := inferInstance

def columnKey (kind : EntityKind) (target : UInt64) (property : PropertyId) : Key :=
  (kind.byte, target, property)

structure TemporalDeclaration where
  entityKind : EntityKind
  target : UInt64
  property : PropertyId
  valueType : TemporalType
  retentionNanos : Int
deriving Repr, DecidableEq

def TemporalDeclaration.key (declaration : TemporalDeclaration) : Key :=
  columnKey declaration.entityKind declaration.target declaration.property

def TemporalRollupDefinition.key (definition : TemporalRollupDefinition) : Key :=
  columnKey definition.entityKind definition.target definition.property

def TemporalRollupDefinition.stamped (definition : TemporalRollupDefinition) :
    TemporalRollupDefinition :=
  { definition with window := { definition.window with aggregates := definition.aggregates } }

structure Column where
  declaration : TemporalDeclaration
  rows : ExtTreeMap Nat TemporalSample
  entities : ExtTreeMap Nat (ExtTreeSet Nat)
  current : ExtTreeMap Nat Nat
  expiry : ExtTreeSet (Int × Nat)
  rollups : ExtTreeSet String
  nextRow : Nat

namespace Column

variable (column : Column)

def new (declaration : TemporalDeclaration) : Column where
  declaration
  rows := ∅
  entities := ∅
  current := ∅
  expiry := ∅
  rollups := ∅
  nextRow := 0

def samples : List TemporalSample := column.rows.values

def precedes (previous sample : TemporalSample) : Bool :=
  previous.eventTimeNanos < sample.eventTimeNanos ||
    (previous.eventTimeNanos = sample.eventTimeNanos && previous.sequenceIndex < sample.sequenceIndex)

def isNewest (sample : TemporalSample) : Bool :=
  match column.current[sample.entityId]?.bind fun row => column.rows[row]? with
  | none => true
  | some previous => precedes previous sample

def withSample (row : Nat) (sample : TemporalSample) : Column := { column with
    nextRow := row + 1
    rows := column.rows.insert row sample
    entities := column.entities.insert sample.entityId
      ((column.entities.getD sample.entityId ∅).insert row)
    expiry := column.expiry.insert (sample.eventTimeNanos, row)
    current := if column.isNewest sample then column.current.insert sample.entityId row
      else column.current }

def insert (sample : TemporalSample) : Result Column :=
  if column.nextRow + 1 < u64Limit then .ok (column.withSample column.nextRow sample)
  else .error (.new .resultBudgetExceeded "temporal row identity exhausted")

def newestRow (entity : Nat) : Option (Int × Nat × Nat) :=
  let candidates := (column.entities.getD entity ∅).toList.filterMap fun row =>
    column.rows[row]?.map fun sample => (sample.eventTimeNanos, sample.sequenceIndex, row)
  candidates.foldl (fun best candidate => match best with
    | none => some candidate
    | some best => if (compare best candidate).isLE then some candidate else some best) none

def rebuildCurrent (entity : Nat) : Column := match column.newestRow entity with
  | some (_, _, row) => { column with current := column.current.insert entity row }
  | none =>
    { column with current := column.current.erase entity, entities := column.entities.erase entity }

end Column

abbrev Rollups (K A : Type) [Quantity K] := ExtTreeMap String (Rollup K A)

structure TemporalStore (K A : Type) [Quantity K] where
  columns : ExtTreeMap Key Column
  rollups : Rollups K A

def TemporalStore.empty {K A : Type} [Quantity K] : TemporalStore K A where
  columns := ∅
  rollups := ∅

section Operations

variable {K A : Type} [Quantity K] [AddCommGroup A] (calendar : Calendar)
  (arithmetic : Arithmetic K A)

def applyRollups (sample : TemporalSample) (remove : Bool) : List String → Rollups K A →
    Rollups K A × Result Unit
  | [], rollups => (rollups, .ok ())
  | name :: names, rollups =>
    match rollups[name]? with
    | none => applyRollups sample remove names rollups
    | some rollup =>
      match rollup.apply calendar arithmetic sample remove with
      | .error error => (rollups, .error error)
      | .ok next => applyRollups sample remove names (rollups.insert name next)

structure Expiring (K A : Type) [Quantity K] where
  rollups : Rollups K A
  column : Column
  affected : ExtTreeSet Nat

def Column.withoutRow (column : Column) (row : Nat) (entity : Nat) : Column := { column with
    rows := column.rows.erase row
    entities := column.entities.alter entity fun index => index.map fun rows => rows.erase row }

/-- The loop of `expire`. A turn takes one entry from the expiry order, which nothing else fills, so its
size bounds the number of turns. -/
def expireLoop (oldest : Int) : Nat → Expiring K A → Expiring K A × Result Unit
  | 0, state => (state, .ok ())
  | turns + 1, state =>
    match state.column.expiry.toList.head? with
    | none => (state, .ok ())
    | some (time, row) =>
      if time < oldest then
        let column := { state.column with expiry := state.column.expiry.erase (time, row) }
        match column.rows[row]? with
        | none => expireLoop oldest turns { state with column }
        | some sample =>
          match applyRollups calendar arithmetic sample true column.rollups.toList state.rollups with
          | (rollups, .error error) => ({ state with rollups, column }, .error error)
          | (rollups, .ok ()) =>
            expireLoop oldest turns
              { rollups
                column := column.withoutRow row sample.entityId
                affected :=
                  if column.current[sample.entityId]? = some row
                  then state.affected.insert sample.entityId else state.affected }
      else (state, .ok ())

def disappeared : Error := .internal "temporal column disappeared"

namespace TemporalStore

variable (store : TemporalStore K A) (declaration : TemporalDeclaration)

def horizon (now : Int) : Int := saturate (now - declaration.retentionNanos)

def expire (key : Key) (now : Int) : TemporalStore K A × Result Unit := match store.columns[key]? with
  | none => (store, .error disappeared)
  | some column =>
    match expireLoop calendar arithmetic (horizon column.declaration now) column.expiry.size
        { rollups := store.rollups, column, affected := ∅ } with
    | (state, .error error) =>
      ({ columns := store.columns.insert key state.column, rollups := state.rollups }, .error error)
    | (state, .ok ()) =>
      let column := state.affected.toList.foldl Column.rebuildCurrent state.column
      ({ columns := store.columns.insert key column, rollups := state.rollups }, .ok ())

def validateDeclare : Result Unit := do
  require (!(declaration.retentionNanos ≤ 0)) (.new .temporalRange "retention must be positive")
  match store.columns[declaration.key]? with
  | none => .ok ()
  | some column =>
    require (!(column.declaration.valueType ≠ declaration.valueType && !column.rows.isEmpty))
      (.new .queryType "a populated temporal property cannot change scalar type")

def declare (now : Int) : TemporalStore K A × Result Unit :=
  match store.validateDeclare declaration with
  | .error error => (store, .error error)
  | .ok () =>
    let column := match store.columns[declaration.key]? with
      | some column => { column with declaration }
      | none => Column.new declaration
    expire calendar arithmetic { store with columns := store.columns.insert declaration.key column }
      declaration.key now

variable (kind : EntityKind) (target : UInt64) (sample : TemporalSample) (now : Int)

def validateAppend : Result Unit := do
  let column ← orElse store.columns[columnKey kind target sample.property]?
    (.new .queryType "property is not declared temporal")
  require (!sample.value.isDocument)
    (.new .queryType "temporal properties accept scalar values only; LIST and MAP are non-temporal")
  require (column.declaration.valueType.accepts sample.value)
    (.new .queryType "temporal sample has the wrong scalar type")
  require (!(sample.eventTimeNanos < horizon column.declaration now))
    (.new .retentionExpired "temporal sample is older than the canonical retention horizon")
  column.rollups.toList.forM fun name =>
    match store.rollups[name]? with
    | none => .ok ()
    | some rollup => do
      let _ ← sampleWindows calendar rollup.definition.window sample
      .ok ()

def append : TemporalStore K A × Result Unit :=
  match store.validateAppend calendar kind target sample now with
  | .error error => (store, .error error)
  | .ok () =>
    let key := columnKey kind target sample.property
    match store.columns[key]? with
    | none => (store, .error disappeared)
    | some column =>
      match applyRollups calendar arithmetic sample false column.rollups.toList store.rollups with
      | (rollups, .error error) => ({ store with rollups }, .error error)
      | (rollups, .ok ()) =>
        match column.insert sample with
        | .error error => ({ store with rollups }, .error error)
        | .ok column =>
          expire calendar arithmetic { columns := store.columns.insert key column, rollups } key now

def validateCreateRollup (definition : TemporalRollupDefinition) : Result Unit := do
  require (!(definition.name.isEmpty || definition.name.utf8ByteSize > 255 ||
    definition.aggregates = 0)) (.new .queryType "rollup name and aggregate set must be nonempty")
  definition.window.validate calendar
  let column ← orElse store.columns[definition.key]?
    (.new .queryType "rollup property is not declared temporal for its target")
  require (!store.rollups.contains definition.name) (.new .transactionConflict "rollup already exists")
  column.samples.forM fun sample => do
    let _ ← sampleWindows calendar definition.window sample
    .ok ()

def refill (rollup : Rollup K A) : List TemporalSample → Rollup K A × Result Unit
  | [] => (rollup, .ok ())
  | sample :: samples =>
    match rollup.apply calendar arithmetic sample false with
    | .error error => (rollup, .error error)
    | .ok next => refill next samples

def createRollup (definition : TemporalRollupDefinition) : TemporalStore K A × Result Unit :=
  match store.validateCreateRollup calendar definition with
  | .error error => (store, .error error)
  | .ok () =>
    match store.columns[definition.key]? with
    | none => (store, .error (.internal "rollup column disappeared"))
    | some column =>
      match refill calendar arithmetic
        { definition := definition.stamped, buckets := ∅ } column.samples with
      | (_, .error error) => (store, .error error)
      | (rollup, .ok ()) =>
        ({ columns := store.columns.insert definition.key
             { column with rollups := column.rollups.insert definition.name }
           rollups := store.rollups.insert definition.name rollup }, .ok ())

def rebuildRollup (name : String) : TemporalStore K A × Result Unit := match store.rollups[name]? with
  | none => (store, .error (.new .indexUnavailable "rollup does not exist"))
  | some rollup =>
    let samples := match store.columns[rollup.definition.key]? with
      | none => []
      | some column => column.samples
    let (rebuilt, result) := refill calendar arithmetic { rollup with buckets := ∅ } samples
    ({ store with rollups := store.rollups.insert name rebuilt }, result)

end TemporalStore

end Operations

end IronGraph.Temporal

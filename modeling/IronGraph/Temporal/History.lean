import IronGraph.Temporal.Store

/-!
Runs of the temporal store.

The history of a column is the list of its writes: each accepted append and each accepted
declaration, with the horizon it expired at. What a column holds is a function of that history as
long as its row numbers last. -/

namespace IronGraph.Temporal

open List hiding getElem?_insert
open Std Outcome OrderedMap TemporalStore Option

inductive Call where
  | declare (declaration : TemporalDeclaration) (now : Int)
  | append (kind : EntityKind) (target : UInt64) (sample : TemporalSample) (now : Int)
  | createRollup (definition : TemporalRollupDefinition)
  | rebuildRollup (name : String)
deriving Repr, DecidableEq

/-- A write to a column: the sample it added, if any, and the horizon behind which it expired the
rest. -/
structure Write where
  sample : Option TemporalSample
  oldest : Int
deriving Repr, DecidableEq

def appends (writes : List Write) : Nat := writes.countP fun write => write.sample.isSome

/-- The sample was the append that got this row, and neither that write nor a later one expired it. -/
def Retained (writes : List Write) (row : Nat) (sample : TemporalSample) : Prop :=
  ∃ before write after, writes = before ++ write :: after ∧ write.sample = some sample ∧
    appends before = row ∧ ∀ later ∈ write :: after, later.oldest ≤ sample.eventTimeNanos

theorem retained_concat {writes : List Write} {write : Write} {row : Nat} {sample : TemporalSample} :
    Retained (writes ++ [write]) row sample ↔
      (Retained writes row sample ∨ write.sample = some sample ∧ appends writes = row) ∧
        write.oldest ≤ sample.eventTimeNanos := by
  constructor
  · rintro ⟨before, first, after, whole, added, counted, timely⟩
    rcases eq_nil_or_concat after with rfl | ⟨between, last, rfl⟩
    · obtain ⟨rfl, same⟩ := append_inj' whole rfl
      obtain rfl := singleton_inj.mp same
      exact ⟨.inr ⟨added, counted⟩, timely _ mem_cons_self⟩
    · rw [concat_eq_append, ← cons_append, ← append_assoc] at whole
      obtain ⟨rfl, same⟩ := append_inj' whole rfl
      obtain rfl := singleton_inj.mp same
      rw [concat_eq_append] at timely
      refine ⟨.inl ⟨before, first, between, rfl, added, counted, ?_⟩, timely _ (by simp)⟩
      intro later mem
      apply timely
      rcases mem_cons.mp mem with rfl | inside
      · simp
      · simp [inside]
  · rintro ⟨⟨before, first, after, rfl, added, counted, timely⟩ | ⟨added, counted⟩, last⟩
    · refine ⟨before, first, after ++ [write], by simp, added, counted, ?_⟩
      intro later mem
      rw [← cons_append, mem_append, mem_singleton] at mem
      rcases mem with inside | rfl
      · exact timely later inside
      · exact last
    · refine ⟨writes, write, [], rfl, added, counted, ?_⟩
      intro later mem
      rw [mem_singleton] at mem
      exact mem ▸ last

variable {K A : Type} [Quantity K] [AddCommGroup A]

def Call.step (calendar : Calendar) (arithmetic : Arithmetic K A) (store : TemporalStore K A) :
    Call → TemporalStore K A × Result Unit
  | .declare declaration now => store.declare calendar arithmetic declaration now
  | .append kind target sample now => store.append calendar arithmetic kind target sample now
  | .createRollup definition => store.createRollup calendar arithmetic definition
  | .rebuildRollup name => store.rebuildRollup calendar arithmetic name

def Call.write (calendar : Calendar) (arithmetic : Arithmetic K A)
    (store : TemporalStore K A) (key : Key) (call : Call) : Option Write :=
  match (call.step calendar arithmetic store).2, call with
  | .ok (), .declare declaration now =>
    if declaration.key = key then some { sample := none, oldest := horizon declaration now } else none
  | .ok (), .append kind target sample now =>
    if columnKey kind target sample.property = key then
      store.columns[key]?.map fun column =>
        { sample := some sample, oldest := horizon column.declaration now }
    else none
  | _, _ => none

def run (calendar : Calendar) (arithmetic : Arithmetic K A) (store : TemporalStore K A)
    (calls : List Call) : TemporalStore K A :=
  calls.foldl (fun reached call => (call.step calendar arithmetic reached).1) store

def writes (calendar : Calendar) (arithmetic : Arithmetic K A) (key : Key) :
    TemporalStore K A → List Call → List Write
  | _, [] => []
  | store, call :: rest =>
    (call.write calendar arithmetic store key).toList ++
      writes calendar arithmetic key (call.step calendar arithmetic store).1 rest

/-- An append finds a row number left in its column. -/
def Call.ample (store : TemporalStore K A) : Call → Bool
  | .append kind target sample _ =>
    store.cursorAt (columnKey kind target sample.property) < u64Limit - 1
  | _ => true

def ampleRun (calendar : Calendar) (arithmetic : Arithmetic K A) : TemporalStore K A → List Call → Bool
  | _, [] => true
  | store, call :: rest =>
    call.ample store && ampleRun calendar arithmetic (call.step calendar arithmetic store).1 rest

/-- The store holds what its history retains, and everything derived from the rows agrees with them. -/
structure Faithful (calendar : Calendar) (arithmetic : Arithmetic K A) (history : Key → List Write)
    (store : TemporalStore K A) : Prop where
  retained : ∀ (key : Key) (row : Nat) sample,
    (store.rowsAt key)[row]? = some sample ↔ Retained (history key) row sample
  entities : ∀ (key : Key) column, store.columns[key]? = some column → ∀ entity row,
    row ∈ column.entities.getD entity ∅ ↔ column.RowOf entity row
  occupied : ∀ (key : Key) column, store.columns[key]? = some column → ∀ entity : Nat,
    (column.entities[entity]?.isSome ↔ ∃ row, column.RowOf entity row)
  expiry : ∀ (key : Key) column, store.columns[key]? = some column → ∀ time row,
    (time, row) ∈ column.expiry ↔ ∃ sample, column.rows[row]? = some sample ∧
      sample.eventTimeNanos = time
  current : ∀ (key : Key) column, store.columns[key]? = some column → ∀ entity : Nat,
    column.Points entity column.current[entity]?
  rollups : ∀ name : String, store.rollups.contains name = true →
    store.rebuildRollup calendar arithmetic name = (store, .ok ())

section Invariant

variable {store : TemporalStore K A} {cal : Calendar} {arith : Arithmetic K A}
  {history : Key → List Write}

structure Recorded (calendar : Calendar) (arithmetic : Arithmetic K A) (history : Key → List Write)
    (store : TemporalStore K A) : Prop where
  consistent : store.Consistent calendar arithmetic
  cursor : ∀ key, store.cursorAt key = appends (history key)
  rows : ∀ (key : Key) (row : Nat) sample,
    (store.rowsAt key)[row]? = some sample ↔ Retained (history key) row sample

theorem recorded_empty (cal : Calendar) (arith : Arithmetic K A) :
    Recorded cal arith (fun _ => []) (empty : TemporalStore K A) where
  consistent := empty_consistent
  cursor := by simp [cursorAt, empty, appends]
  rows := by simp [rowsAt, empty, Retained]

theorem Recorded.faithful (recorded : Recorded cal arith history store) :
    Faithful cal arith history store where
  retained := recorded.rows
  entities := fun key column found => (recorded.consistent.columns key column found).sound.listed
  occupied := by
    intro key column found entity
    have sound := (recorded.consistent.columns key column found).sound
    refine ⟨sound.occupied entity, ?_⟩
    rintro ⟨row, owned⟩
    have listed := (sound.listed entity row).mpr owned
    rw [ExtTreeMap.getD_eq_getD_getElem?] at listed
    cases index : column.entities[entity]? with
    | none =>
      rw [index] at listed
      exact absurd listed ExtTreeSet.not_mem_empty
    | some rows => rfl
  expiry := fun key column found => (recorded.consistent.columns key column found).sound.timed
  current := fun key column found => (recorded.consistent.columns key column found).sound.pointed
  rollups := by
    intro name has
    rw [ExtTreeMap.contains_eq_isSome_getElem?] at has
    obtain ⟨rollup, stored⟩ := isSome_iff_exists.mp has
    exact recorded.consistent.rebuildRollup_eq stored

theorem Recorded.wrote (recorded : Recorded cal arith history store) {after : TemporalStore K A}
    {key : Key} {decl : TemporalDeclaration} {rows : ExtTreeMap Nat TemporalSample} {cursor : Nat}
    (write : Write) (wrote : Wrote cal arith store after key decl rows cursor write.oldest)
    (counted : cursor = appends (history key ++ [write]))
    (added : ∀ (row : Nat) sample, rows[row]? = some sample ↔
      Retained (history key) row sample ∨ write.sample = some sample ∧ appends (history key) = row) :
    Recorded cal arith (fun other => history other ++ if key = other then [write] else []) after where
  consistent := wrote.consistent
  cursor := by
    intro other
    split
    next same => rw [← same, wrote.cursor, counted]
    next apart =>
      rw [append_nil, ← recorded.cursor other]
      simp only [cursorAt, wrote.others other apart]
  rows := by
    intro other row sample
    split
    next same =>
      rw [← same, wrote.rows, retained_concat, filter_eq_some_iff, added]
      simp
    next apart =>
      rw [append_nil, ← recorded.rows other row sample]
      simp only [rowsAt, wrote.others other apart]

theorem Recorded.step (recorded : Recorded cal arith history store) {call : Call}
    (ample : call.ample store = true) :
    Recorded cal arith (fun key => history key ++ (call.write cal arith store key).toList)
      (call.step cal arith store).1 := by
  -- a refused call leaves the store and the history as they are
  have refused : ∀ error, call.step cal arith store = (store, .error error) →
      Recorded cal arith (fun key => history key ++ (call.write cal arith store key).toList)
        (call.step cal arith store).1 := by
    intro error result
    have silent : ∀ key, call.write cal arith store key = none := by
      intro key
      simp only [Call.write, result]
    simpa only [silent, result, toList_none, append_nil] using recorded
  cases call with
  | declare decl now =>
    rcases declare_cases recorded.consistent decl now with ⟨error, -, result⟩ | ⟨after, result, wrote⟩
    · exact refused error result
    · have stepped := recorded.wrote { sample := none, oldest := horizon decl now } wrote
        (by rw [recorded.cursor]; simp [appends]) (by simp [recorded.rows])
      have written : ∀ key, (Call.write cal arith store key (.declare decl now)).toList =
          if decl.key = key then [{ sample := none, oldest := horizon decl now }] else [] := by
        intro key
        simp only [Call.write, Call.step, result]
        split
        · rfl
        · rfl
      simpa only [written, Call.step, result] using stepped
  | append kind target sample now =>
    have room : store.cursorAt (columnKey kind target sample.property) + 1 < u64Limit := by
      simp only [Call.ample, decide_eq_true_eq] at ample
      omega
    rcases append_cases recorded.consistent room now with
      ⟨error, -, result⟩ | ⟨column, after, acceptable, result, wrote⟩
    · exact refused error result
    · have counted : column.nextRow = appends (history (columnKey kind target sample.property)) := by
        rw [← recorded.cursor]
        simp [cursorAt, acceptable.found]
      have stepped :=
        recorded.wrote { sample := some sample, oldest := horizon column.declaration now } wrote
        (by rw [counted]; simp [appends])
        (by
          intro row stored
          rw [← recorded.rows, getElem?_insert, ← counted]
          simp only [rowsAt, acceptable.found, map_some, getD_some, some.injEq]
          have fresh := (recorded.consistent.columns _ column acceptable.found).sound.toIndexed.fresh
          split
          next same =>
            subst same
            simp [fresh]
          next apart => simp [apart])
      have written : ∀ key, (Call.write cal arith store key (.append kind target sample now)).toList =
          if columnKey kind target sample.property = key
          then [{ sample := some sample, oldest := horizon column.declaration now }] else [] := by
        intro key
        simp only [Call.write, Call.step, result]
        split
        next same => simp [← same, acceptable.found]
        · rfl
      simpa only [written, Call.step, result] using stepped
  | createRollup defn =>
    rcases createRollup_cases recorded.consistent defn
      with ⟨error, -, result⟩ | ⟨after, result, created⟩
    · exact refused error result
    · have silent : ∀ key, Call.write cal arith store key (.createRollup defn) = none := by
        intro key
        simp only [Call.write, Call.step, result]
      simp only [silent, toList_none, append_nil, Call.step, result]
      exact ⟨created.consistent, fun key => (created.cursors key).trans (recorded.cursor key),
        fun key row sample => by rw [created.rows]; exact recorded.rows key row sample⟩
  | rebuildRollup name =>
    have same := rebuildRollup_cases recorded.consistent name
    have silent : ∀ key, Call.write cal arith store key (.rebuildRollup name) = none := by
      intro key
      simp only [Call.write, Call.step]
      split
      all_goals first | rfl | contradiction
    simpa only [silent, toList_none, append_nil, Call.step, same] using recorded

theorem Recorded.run {calls : List Call} (recorded : Recorded cal arith history store)
    (ample : ampleRun cal arith store calls = true) :
    Recorded cal arith (fun key => history key ++ writes cal arith key store calls)
      (run cal arith store calls) := by
  induction calls generalizing store history with
  | nil =>
    simp only [writes, append_nil]
    exact recorded
  | cons call rest ih =>
    rw [ampleRun, Bool.and_eq_true] at ample
    have continued := ih (recorded.step ample.1) ample.2
    simp only [append_assoc] at continued
    exact continued

end Invariant

/-- In every run that appends only to columns with a row number left, the store is faithful to its
history. -/
theorem run_faithful (calendar : Calendar) (arithmetic : Arithmetic K A) (calls : List Call)
    (ample : ampleRun calendar arithmetic (empty : TemporalStore K A) calls = true) :
    Faithful calendar arithmetic (fun key => writes calendar arithmetic key empty calls)
      (run calendar arithmetic empty calls) := by
  have recorded := (recorded_empty calendar arithmetic).run ample
  simpa only [nil_append] using recorded.faithful

section Samples

instance : Quantity Int where
  decidableEq := inferInstance

def wholeNumbers : Arithmetic Int Int where
  integer := id
  float := fun _ => 0
  exact := id
  average := fun sum count => sum / count

def noCalendar : Calendar where
  zoneKnown := fun _ => false
  shiftCalendar := fun _ _ _ _ => .error invalidZone
  patience := 0

def gauge : TemporalDeclaration where
  entityKind := .node
  target := 1
  property := 1
  valueType := .integer
  retentionNanos := 5

def gaugeRollup : TemporalRollupDefinition where
  name := "r"
  entityKind := .node
  target := 1
  property := 1
  window :=
    { kind := .fixed 10 5, alignNanos := 0, timezone := none, emitEmpty := false, aggregates := 31 }
  aggregates := 31

def reading (time : Int) : TemporalSample where
  entityId := 7
  property := 1
  eventTimeNanos := time
  sequenceIndex := 1
  value := .integer 1

def gaugeCalls : List Call :=
  [.declare gauge 0, .createRollup gaugeRollup, .append .node 1 (reading 3) 3,
    .append .node 1 (reading 0) 3, .append .node 1 (reading 20) 20, .rebuildRollup "r"]

theorem run_faithful_gauge : ampleRun noCalendar wholeNumbers empty gaugeCalls = true ∧
      Faithful noCalendar wholeNumbers (fun key => writes noCalendar wholeNumbers key empty gaugeCalls)
        (run noCalendar wholeNumbers empty gaugeCalls) :=
  ⟨by decide +kernel, run_faithful noCalendar wholeNumbers gaugeCalls (by decide +kernel)⟩

end Samples

end IronGraph.Temporal

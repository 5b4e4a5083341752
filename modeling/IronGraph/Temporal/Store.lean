import IronGraph.Temporal.Expiry

/-!
The temporal store stays consistent: every column is sound, and every rollup is the summary of the
rows of its column, after each of the four operations.
-/

namespace IronGraph.Temporal

open Std Outcome OrderedMap TemporalStore Option

variable {K A : Type} [Quantity K] {store : TemporalStore K A} {cal : Calendar} {kind : EntityKind}
  {target : UInt64} {sample : TemporalSample}

namespace TemporalStore

structure Acceptable (calendar : Calendar) (store : TemporalStore K A) (key : Key)
    (sample : TemporalSample) (now : Int) (column : Column) : Prop where
  found : store.columns[key]? = some column
  typed : column.declaration.valueType.accepts sample.value = true
  timely : horizon column.declaration now ≤ sample.eventTimeNanos
  located : ∀ name ∈ column.rollups, ∀ rollup : Rollup K A, store.rollups[name]? = some rollup →
    ∃ windows, sampleWindows calendar rollup.definition.window sample = .ok windows

theorem validateAppend_ok {now : Int}
    (valid : store.validateAppend cal kind target sample now = .ok ()) :
    ∃ column, Acceptable cal store (columnKey kind target sample.property) sample now column := by
  obtain ⟨column, found, valid⟩ := bind_eq_ok.mp valid
  obtain ⟨_, -, valid⟩ := bind_eq_ok.mp valid
  obtain ⟨_, typed, valid⟩ := bind_eq_ok.mp valid
  obtain ⟨_, timely, valid⟩ := bind_eq_ok.mp valid
  refine ⟨column, orElse_eq_ok.mp found, require_eq_ok.mp typed, ?_, ?_⟩
  · simp only [require_eq_ok, Bool.not_eq_true', decide_eq_false_iff_not] at timely
    omega
  · intro name mem rollup stored
    have passed := forM_eq_ok.mp valid name (ExtTreeSet.mem_toList.mpr mem)
    rw [stored] at passed
    obtain ⟨windows, located, -⟩ := bind_eq_ok.mp passed
    exact ⟨windows, located⟩

end TemporalStore

variable [AddCommGroup A]

def Column.Fits (column : Column) : Prop := ∀ (row : Nat) sample, column.rows[row]? = some sample →
    sample.property = column.declaration.property ∧
      column.declaration.valueType.accepts sample.value = true

/-- The column of a key: sound, declared for that key, and served by exactly the rollups defined on
it. -/
structure Column.Settled (calendar : Calendar) (arithmetic : Arithmetic K A) (key : Key)
    (column : Column) (rollups : Rollups K A) : Prop where
  sound : column.Sound
  keyed : column.declaration.key = key
  retention : 0 < column.declaration.retentionNanos
  fits : column.Fits
  listed : ∀ name, name ∈ column.rollups ↔
    ∃ rollup : Rollup K A, rollups[name]? = some rollup ∧ rollup.definition.key = key
  served : Served calendar arithmetic column.rollups column.rows rollups

structure Defined (calendar : Calendar) (name : String)
    (definition : TemporalRollupDefinition) : Prop where
  named : definition.name = name
  nonempty : name.isEmpty = false
  short : name.utf8ByteSize ≤ 255
  aggregates : definition.aggregates ≠ 0
  same : definition.window.aggregates = definition.aggregates
  valid : definition.window.validate calendar = .ok ()

structure TemporalStore.Consistent (calendar : Calendar) (arithmetic : Arithmetic K A)
    (store : TemporalStore K A) : Prop where
  columns : ∀ (key : Key) column, store.columns[key]? = some column →
    column.Settled calendar arithmetic key store.rollups
  rollups : ∀ (name : String) rollup, store.rollups[name]? = some rollup →
    Defined calendar name rollup.definition ∧ (store.columns[rollup.definition.key]?).isSome

namespace TemporalStore

variable {arith arithmetic : Arithmetic K A} {key : Key} {column : Column}

theorem empty_consistent : (empty : TemporalStore K A).Consistent cal arith where
  columns := by simp [empty]
  rollups := by simp [empty]

theorem Consistent.update {after : Rollups K A} {next : Column}
    (consistent : store.Consistent cal arith) (sound : next.Sound)
    (keyed : next.declaration.key = key) (retention : 0 < next.declaration.retentionNanos)
    (fits : next.Fits) (listed : ∀ name, name ∈ next.rollups ↔
      ∃ rollup : Rollup K A, store.rollups[name]? = some rollup ∧ rollup.definition.key = key)
    (served : Served cal arith next.rollups next.rows after)
    (refreshed : Refreshed next.rollups store.rollups after) :
    TemporalStore.Consistent cal arith
      { columns := store.columns.insert key next, rollups := after } := by
  have relisted : ∀ (other : Key) (name : String),
      (∃ rollup : Rollup K A, after[name]? = some rollup ∧ rollup.definition.key = other) ↔
        ∃ rollup : Rollup K A, store.rollups[name]? = some rollup ∧ rollup.definition.key = other := by
    intro other name
    have same := refreshed.definitions name
    cases has : after[name]? with
    | none =>
      rw [has, map_none, eq_comm, map_eq_none_iff] at same
      simp [same]
    | some rollup =>
      rw [has, map_some, eq_comm, map_eq_some_iff] at same
      obtain ⟨old, found, equal⟩ := same
      simp [found, equal]
  constructor
  · intro other column found
    rcases insert_eq_some.mp found with ⟨rfl, rfl⟩ | ⟨apart, found⟩
    · exact ⟨sound, keyed, retention, fits, fun name =>
        (listed name).trans (relisted key name).symm, served⟩
    · have settled := consistent.columns other column found
      refine { settled with
        listed := fun name => (settled.listed name).trans (relisted other name).symm, served := ?_ }
      intro name mem
      obtain ⟨rollup, stored, maintained⟩ := settled.served name mem
      have outside : name ∉ next.rollups := by
        intro also
        obtain ⟨first, found, ofKey⟩ := (listed name).mp also
        obtain ⟨second, again, ofOther⟩ := (settled.listed name).mp mem
        obtain rfl := some.inj (found.symm.trans again)
        exact apart (ofKey.symm.trans ofOther)
      exact ⟨rollup, (refreshed.outside name outside).trans stored, maintained⟩
  · intro name rollup found
    have same := refreshed.definitions name
    rw [found, map_some, eq_comm, map_eq_some_iff] at same
    obtain ⟨old, stored, equal⟩ := same
    obtain ⟨defined, declared⟩ := consistent.rollups name old stored
    rw [← equal]
    refine ⟨defined, ?_⟩
    rw [getElem?_insert]
    split
    · rfl
    · exact declared

def rowsAt (store : TemporalStore K A) (key : Key) : ExtTreeMap Nat TemporalSample :=
  (store.columns[key]?.map (·.rows)).getD ∅

def cursorAt (store : TemporalStore K A) (key : Key) : Nat :=
  (store.columns[key]?.map (·.nextRow)).getD 0

structure Wrote (calendar : Calendar) (arithmetic : Arithmetic K A)
    (before after : TemporalStore K A) (key : Key)
    (declaration : TemporalDeclaration) (rows : ExtTreeMap Nat TemporalSample) (cursor : Nat)
    (oldest : Int) :
    Prop where
  consistent : after.Consistent calendar arithmetic
  declared : after.columns[key]?.map (·.declaration) = some declaration
  rows : ∀ row : Nat, (after.rowsAt key)[row]? = rows[row]?.filter fun sample =>
    oldest ≤ sample.eventTimeNanos
  cursor : after.cursorAt key = cursor
  others : ∀ other, key ≠ other → after.columns[other]? = before.columns[other]?
  definitions : ∀ name : String, after.rollups[name]?.map (·.definition) =
    before.rollups[name]?.map (·.definition)

theorem Consistent.expire {between : Rollups K A} (consistent : store.Consistent cal arith)
    (now : Int) (sound : column.Sound)
    (keyed : column.declaration.key = key) (retention : 0 < column.declaration.retentionNanos)
    (fits : column.Fits) (listed : ∀ name, name ∈ column.rollups ↔
      ∃ rollup : Rollup K A, store.rollups[name]? = some rollup ∧ rollup.definition.key = key)
    (served : Served cal arith column.rollups column.rows between)
    (refreshed : Refreshed column.rollups store.rollups between) : ∃ after, expire cal arith
        { columns := store.columns.insert key column, rollups := between } key now = (after, .ok ()) ∧
      Wrote cal arith store after key column.declaration column.rows column.nextRow
        (horizon column.declaration now) := by
  have found : (store.columns.insert key column)[key]? = some column := ExtTreeMap.getElem?_insert_self
  have spec := @expire_spec K A _ _ cal arith
    { columns := store.columns.insert key column, rollups := between } key column now found sound served
  obtain ⟨next, after, ran, expired, stillServed, again⟩ := spec
  refine ⟨_, ran, ?_⟩
  have reinserted : (store.columns.insert key column).insert key next =
      store.columns.insert key next := by
    apply ExtTreeMap.ext_getElem?
    intro other
    rw [getElem?_insert, getElem?_insert, getElem?_insert]
    split
    · rfl
    · rfl
  rw [reinserted]
  have place : (store.columns.insert key next)[key]? = some next := ExtTreeMap.getElem?_insert_self
  constructor
  · apply consistent.update expired.sound
    · rw [expired.declaration, keyed]
    · rw [expired.declaration]
      exact retention
    · intro row sample has
      rw [expired.rows, filter_eq_some_iff] at has
      rw [expired.declaration]
      exact fits row sample has.1
    · rw [expired.rollups]
      exact listed
    · rw [expired.rollups]
      exact stillServed
    · rw [expired.rollups]
      exact refreshed.trans again
  · simp [expired.declaration]
  · simpa [rowsAt, place] using expired.rows
  · simp [cursorAt, expired.nextRow]
  · intro other apart
    exact (getElem?_insert _ _ _ _).trans (if_neg apart)
  · exact (refreshed.trans again).definitions

theorem declare_cases (consistent : store.Consistent cal arithmetic) (declaration : TemporalDeclaration)
    (now : Int) : (∃ error, store.validateDeclare declaration = .error error ∧
      store.declare cal arithmetic declaration now = (store, .error error)) ∨
    ∃ after, store.declare cal arithmetic declaration now = (after, .ok ()) ∧
      Wrote cal arithmetic store after declaration.key declaration (store.rowsAt declaration.key)
        (store.cursorAt declaration.key) (horizon declaration now) := by
  unfold declare
  cases valid : store.validateDeclare declaration with
  | error error => exact .inl ⟨error, rfl, rfl⟩
  | ok _ =>
    right
    obtain ⟨_, positive, unchanged⟩ := bind_eq_ok.mp valid
    have retention : 0 < declaration.retentionNanos := by
      simp only [require_eq_ok, Bool.not_eq_true', decide_eq_false_iff_not] at positive
      omega
    cases found : store.columns[declaration.key]? with
    | none =>
      have orphan : ∀ name, name ∈ (Column.new declaration).rollups ↔
          ∃ rollup : Rollup K A, store.rollups[name]? = some rollup ∧
            rollup.definition.key = declaration.key := by
        intro name
        refine ⟨fun mem => absurd mem ExtTreeSet.not_mem_empty, ?_⟩
        rintro ⟨rollup, stored, ofKey⟩
        have declared := (consistent.rollups name rollup stored).2
        rw [ofKey, found] at declared
        cases declared
      have written := consistent.expire now (Column.new_sound declaration) rfl retention
        (fun row sample present => absurd present (by simp [Column.new])) orphan
        (fun name mem => absurd mem ExtTreeSet.not_mem_empty) (Refreshed.refl _ _)
      simpa [rowsAt, cursorAt, found, Column.new] using written
    | some column =>
      have settled := consistent.columns declaration.key column found
      have fits : ({ column with declaration } : Column).Fits := by
        intro row sample present
        have suited := settled.fits row sample present
        have sameKey := settled.keyed
        simp only [TemporalDeclaration.key, columnKey, Prod.mk.injEq] at sameKey
        rw [found] at unchanged
        have occupied : column.rows.isEmpty = false :=
          isEmpty_eq_false_iff_exists.mpr ⟨row, sample, present⟩
        simp only [require_eq_ok, occupied, Bool.not_false, Bool.and_true, Bool.not_eq_true',
          decide_eq_false_iff_not, ne_eq, not_not] at unchanged
        refine ⟨suited.1.trans sameKey.2.2, ?_⟩
        change declaration.valueType.accepts sample.value = true
        rw [← unchanged]
        exact suited.2
      have sound : ({ column with declaration } : Column).Sound :=
        ⟨⟨settled.sound.cursor, settled.sound.below, settled.sound.listed, settled.sound.timed⟩,
          settled.sound.occupied, settled.sound.pointed⟩
      have written := consistent.expire now sound rfl retention
        fits settled.listed settled.served (Refreshed.refl _ _)
      simpa [rowsAt, cursorAt, found] using written

section Append

theorem append_cases (consistent : store.Consistent cal arith)
    (room : store.cursorAt (columnKey kind target sample.property) + 1 < u64Limit) (now : Int) :
    (∃ error, store.validateAppend cal kind target sample now = .error error ∧
      store.append cal arith kind target sample now = (store, .error error)) ∨
    ∃ column after, Acceptable cal store (columnKey kind target sample.property) sample now column ∧
      store.append cal arith kind target sample now = (after, .ok ()) ∧
      Wrote cal arith store after (columnKey kind target sample.property) column.declaration
        (column.rows.insert column.nextRow sample) (column.nextRow + 1)
        (horizon column.declaration now) := by
  unfold append
  cases valid : store.validateAppend cal kind target sample now with
  | error error => exact .inl ⟨error, rfl, rfl⟩
  | ok _ =>
    right
    obtain ⟨column, acceptable⟩ := validateAppend_ok valid
    have settled := consistent.columns _ column acceptable.found
    have numbered : column.nextRow + 1 < u64Limit := by simpa [cursorAt, acceptable.found] using room
    have small := size_le_of_below settled.sound.below
    obtain ⟨rollups, applied, served, refreshed⟩ :=
      settled.served.add settled.sound.toIndexed.fresh (by omega) acceptable.located
    have fits : (column.withSample column.nextRow sample).Fits := by
      intro row stored has
      simp only [Column.withSample, getElem?_insert] at has
      split at has
      · obtain rfl := some.inj has
        have sameKey := settled.keyed
        simp only [TemporalDeclaration.key, columnKey, Prod.mk.injEq] at sameKey
        exact ⟨sameKey.2.2.symm, acceptable.typed⟩
      · exact settled.fits row stored has
    obtain ⟨after, ran, wrote⟩ :=
      consistent.expire now (settled.sound.withSample numbered) settled.keyed
      settled.retention fits settled.listed served refreshed
    refine ⟨column, after, acceptable, ?_, wrote⟩
    simp only [acceptable.found, applied, Column.insert_eq_ok numbered]
    exact ran

end Append

section Rollups

variable {rollup : Rollup K A}

theorem refill_totals {samples : List TemporalSample} {before : Multiset TemporalSample}
    (arith : Arithmetic K A) (totals : rollup.Totals cal arith before)
    (located : ∀ sample ∈ samples, ∃ windows, sampleWindows cal rollup.definition.window sample =
      .ok windows)
    (room : before.card + samples.length < u64Limit) :
    ∃ next, refill cal arith rollup samples = (next, .ok ()) ∧ next.definition = rollup.definition ∧
      next.Totals cal arith (samples + before) := by
  induction samples generalizing rollup before with
  | nil => exact ⟨rollup, rfl, rfl, by simpa using totals⟩
  | cons sample rest ih =>
    rw [List.length_cons] at room
    obtain ⟨windows, here⟩ := located sample List.mem_cons_self
    obtain ⟨next, applied, same, grown⟩ := Rollup.apply_add totals here (by omega)
    obtain ⟨final, ran, sameAgain, finished⟩ := ih grown
      (by
        rw [same]
        exact fun other mem => located other (List.mem_cons_of_mem _ mem))
      (by
        rw [Multiset.card_cons]
        omega)
    refine ⟨final, ?_, sameAgain.trans same, ?_⟩
    · rw [refill, applied]
      exact ran
    · rw [← Multiset.cons_coe, Multiset.cons_add, ← Multiset.add_cons]
      exact finished

theorem refill_maintains (arithmetic : Arithmetic K A) {definition : TemporalRollupDefinition}
    {column : Column} (indexed : column.Indexed)
    (located : ∀ (row : Nat) sample, column.rows[row]? = some sample →
      ∃ windows, sampleWindows cal definition.window sample = .ok windows) :
    ∃ next, refill cal arithmetic ({ definition, buckets := ∅ } : Rollup K A) column.samples =
      (next, .ok ()) ∧ next.definition = definition ∧ Maintains cal arithmetic column.rows next := by
  have small := indexed.card_lt
  have each : ∀ sample ∈ column.samples, ∃ windows, sampleWindows cal definition.window sample =
      .ok windows := by
    intro sample mem
    obtain ⟨row, present⟩ := mem_values.mp mem
    exact located row sample present
  obtain ⟨next, ran, same, totals⟩ :=
    refill_totals arithmetic (Rollup.totals_empty definition) each (by simpa using small)
  rw [add_zero] at totals
  refine ⟨next, ran, same, ?_, totals⟩
  intro row sample present
  rw [same]
  exact located row sample present

theorem Consistent.rebuildRollup_eq (consistent : store.Consistent cal arithmetic) {name : String}
    (stored : store.rollups[name]? = some rollup) :
    store.rebuildRollup cal arithmetic name = (store, .ok ()) := by
  obtain ⟨-, declared⟩ := consistent.rollups name rollup stored
  obtain ⟨column, found⟩ := isSome_iff_exists.mp declared
  have settled := consistent.columns _ column found
  obtain ⟨rollup', stored', maintained⟩ :=
    settled.served name ((settled.listed name).mpr ⟨rollup, stored, rfl⟩)
  obtain rfl := some.inj (stored.symm.trans stored')
  obtain ⟨next, ran, same, again⟩ :=
    refill_maintains arithmetic settled.sound.toIndexed maintained.windows
  obtain rfl := again.totals.unique maintained.totals same
  have unchanged : store.rollups.insert name next = store.rollups := by
    apply ExtTreeMap.ext_getElem?
    intro other
    rw [getElem?_insert]
    split
    next equal => rw [← equal, stored]
    · rfl
  simp only [rebuildRollup, stored, found, ran, unchanged]

theorem rebuildRollup_cases (consistent : store.Consistent cal arith) (name : String) :
    (store.rebuildRollup cal arith name).1 = store := by
  cases stored : store.rollups[name]? with
  | none => simp [rebuildRollup, stored]
  | some rollup => rw [consistent.rebuildRollup_eq stored]

structure Created (calendar : Calendar) (arithmetic : Arithmetic K A) (before : TemporalStore K A)
    (definition : TemporalRollupDefinition) (after : TemporalStore K A) : Prop where
  consistent : after.Consistent calendar arithmetic
  rows : ∀ key, after.rowsAt key = before.rowsAt key
  cursors : ∀ key, after.cursorAt key = before.cursorAt key
  declarations : ∀ key : Key, after.columns[key]?.map (·.declaration) =
    before.columns[key]?.map (·.declaration)
  definitions : ∀ name : String, after.rollups[name]?.map (·.definition) =
    if definition.name = name then some definition.stamped else before.rollups[name]?.map (·.definition)

theorem Consistent.withRollup (consistent : store.Consistent cal arith)
    (found : store.columns[rollup.definition.key]? = some column)
    (absent : store.rollups[rollup.definition.name]? = none)
    (defined : Defined cal rollup.definition.name rollup.definition)
    (maintained : Maintains cal arith column.rows rollup) : TemporalStore.Consistent cal arith
      { columns := store.columns.insert rollup.definition.key
          { column with rollups := column.rollups.insert rollup.definition.name }
        rollups := store.rollups.insert rollup.definition.name rollup } := by
  have unlisted : ∀ (key : Key) old, store.columns[key]? = some old →
      rollup.definition.name ∉ old.rollups := by
    intro key old has mem
    obtain ⟨other, stored, -⟩ := (consistent.columns key old has).served _ mem
    rw [absent] at stored
    cases stored
  have serves : ∀ (key : Key) old, store.columns[key]? = some old → ∀ name ∈ old.rollups,
      ∃ other : Rollup K A, (store.rollups.insert rollup.definition.name rollup)[name]? = some other ∧
        Maintains cal arith old.rows other := by
    intro key old has name mem
    obtain ⟨other, stored, kept⟩ := (consistent.columns key old has).served name mem
    refine ⟨other, ?_, kept⟩
    rw [getElem?_insert, if_neg]
    · exact stored
    · rintro rfl
      exact unlisted key old has mem
  have relisted : ∀ (key : Key) old, store.columns[key]? = some old → ∀ name,
      ((∃ other : Rollup K A, (store.rollups.insert rollup.definition.name rollup)[name]? = some other ∧
          other.definition.key = key) ↔
        (rollup.definition.name = name ∧ rollup.definition.key = key) ∨ name ∈ old.rollups) := by
    intro key old has name
    rw [getElem?_insert]
    split
    next mine =>
      subst mine
      simp [unlisted key old has]
    next other => simp [other, (consistent.columns key old has).listed]
  constructor
  · intro key next has
    rcases insert_eq_some.mp has with ⟨rfl, rfl⟩ | ⟨apart, has⟩
    · have settled := consistent.columns _ column found
      refine
        { sound := ⟨⟨settled.sound.cursor, settled.sound.below, settled.sound.listed, settled.sound.timed⟩,
            settled.sound.occupied, settled.sound.pointed⟩
          keyed := settled.keyed, retention := settled.retention, fits := settled.fits, listed :=
            ?_, served := ?_ }
      · intro name
        rw [relisted _ column found, mem_set_insert]
        simp
      · intro name mem
        rcases mem_set_insert.mp mem with rfl | prior
        · exact ⟨rollup, by rw [getElem?_insert, if_pos rfl], maintained⟩
        · exact serves _ column found name prior
    · have kept := consistent.columns key next has
      refine { kept with listed := ?_, served := serves key next has }
      intro name
      rw [relisted key next has]
      simp [apart]
  · intro name other has
    rw [getElem?_insert] at has
    rw [getElem?_insert]
    split at has
    next equal =>
      obtain rfl := some.inj has
      subst equal
      exact ⟨defined, by simp⟩
    · obtain ⟨kept, declared⟩ := consistent.rollups name other has
      refine ⟨kept, ?_⟩
      split
      · rfl
      · exact declared

theorem createRollup_cases (consistent : store.Consistent cal arithmetic)
    (definition : TemporalRollupDefinition) :
    (∃ error, store.validateCreateRollup cal definition = .error error ∧
      store.createRollup cal arithmetic definition = (store, .error error)) ∨
    ∃ after, store.createRollup cal arithmetic definition = (after, .ok ()) ∧
      Created cal arithmetic store definition after := by
  unfold createRollup
  cases valid : store.validateCreateRollup cal definition with
  | error error => exact .inl ⟨error, rfl, rfl⟩
  | ok _ =>
    right
    obtain ⟨_, named, valid⟩ := bind_eq_ok.mp valid
    obtain ⟨_, shaped, valid⟩ := bind_eq_ok.mp valid
    obtain ⟨column, found, valid⟩ := bind_eq_ok.mp valid
    obtain ⟨_, unused, valid⟩ := bind_eq_ok.mp valid
    rw [orElse_eq_ok] at found
    have absent : store.rollups[definition.name]? = none := by
      simp only [require_eq_ok, Bool.not_eq_true', ExtTreeMap.contains_eq_isSome_getElem?,
        isSome_eq_false_iff, isNone_iff_eq_none] at unused
      exact unused
    have located : ∀ (row : Nat) sample, column.rows[row]? = some sample →
        ∃ windows, sampleWindows cal definition.stamped.window sample = .ok windows := by
      intro row sample present
      have passed := forM_eq_ok.mp valid sample (mem_values.mpr ⟨row, present⟩)
      obtain ⟨windows, here, -⟩ := bind_eq_ok.mp passed
      exact ⟨windows, here⟩
    obtain ⟨rollup, ran, same, maintained⟩ :=
      refill_maintains arithmetic (consistent.columns _ column found).sound.toIndexed located
    have defined : Defined cal definition.name definition.stamped := by
      simp only [require_eq_ok, Bool.not_eq_true', Bool.or_eq_false_iff,
        decide_eq_false_iff_not] at named
      exact ⟨rfl, named.1.1, by omega, named.2, rfl, shaped⟩
    have sameKey : rollup.definition.key = definition.key := by rw [same]; rfl
    have sameName : rollup.definition.name = definition.name := by rw [same]; rfl
    have grown := consistent.withRollup (show store.columns[rollup.definition.key]? =
      some column from sameKey ▸ found)
      (sameName ▸ absent) (by rw [sameName, same]; exact defined) maintained
    rw [sameKey, sameName] at grown
    refine ⟨_, by simp only [found, ran], grown, ?_, ?_, ?_, ?_⟩
    · intro key
      simp only [rowsAt, getElem?_insert]
      split
      next equal => simp [← equal, found]
      · rfl
    · intro key
      simp only [cursorAt, getElem?_insert]
      split
      next equal => simp [← equal, found]
      · rfl
    · intro key
      simp only [getElem?_insert]
      split
      next equal => simp [← equal, found]
      · rfl
    · intro name
      simp only [getElem?_insert]
      split
      · simp [same]
      · rfl

end Rollups

end TemporalStore

end IronGraph.Temporal

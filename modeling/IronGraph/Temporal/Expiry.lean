import IronGraph.Temporal.Column

/-!
Expiry removes exactly the rows behind the horizon, keeps a column sound, and keeps its rollups the
summaries of the rows that remain.
-/

namespace IronGraph.Temporal

open Std Outcome OrderedMap ExtTreeSet Option

variable {row : Nat} {oldest : Int}

section Rollups

variable {K A : Type} [Quantity K] {names : ExtTreeSet String}
  {rollups first second third : Rollups K A} {rows : ExtTreeMap Nat TemporalSample}

structure Refreshed (names : ExtTreeSet String) (before after : Rollups K A) : Prop where
  outside : ∀ name : String, name ∉ names → after[name]? = before[name]?
  definitions : ∀ name : String, after[name]?.map (·.definition) = before[name]?.map (·.definition)

theorem Refreshed.refl (names : ExtTreeSet String) (rollups : Rollups K A) :
    Refreshed names rollups rollups :=
  ⟨fun _ _ => rfl, fun _ => rfl⟩

theorem Refreshed.trans (one : Refreshed names first second)
    (two : Refreshed names second third) : Refreshed names first third :=
  ⟨fun name outside => (two.outside name outside).trans (one.outside name outside),
    fun name => (two.definitions name).trans (one.definitions name)⟩

variable [AddCommGroup A] {calendar : Calendar} {arithmetic : Arithmetic K A} {sample : TemporalSample}

structure Maintains (calendar : Calendar) (arithmetic : Arithmetic K A)
    (rows : ExtTreeMap Nat TemporalSample) (rollup : Rollup K A) : Prop where
  windows : ∀ (row : Nat) sample, rows[row]? = some sample →
    ∃ windows, sampleWindows calendar rollup.definition.window sample = .ok windows
  totals : rollup.Totals calendar arithmetic rows.values

def Served (calendar : Calendar) (arithmetic : Arithmetic K A) (names : ExtTreeSet String)
    (rows : ExtTreeMap Nat TemporalSample) (rollups : Rollups K A) : Prop :=
  ∀ name ∈ names, ∃ rollup : Rollup K A, rollups[name]? = some rollup ∧
    Maintains calendar arithmetic rows rollup

theorem applyRollups_each {remove : Bool} {names : List String} (distinct : names.Nodup)
    (each : ∀ name ∈ names, ∃ rollup next : Rollup K A, rollups[name]? = some rollup ∧
      rollup.apply calendar arithmetic sample remove = .ok next ∧ next.definition = rollup.definition) :
    ∃ after, applyRollups calendar arithmetic sample remove names rollups = (after, .ok ()) ∧
      (∀ name : String, name ∉ names → after[name]? = rollups[name]?) ∧
      ∀ name ∈ names, ∃ rollup next : Rollup K A, rollups[name]? = some rollup ∧
        rollup.apply calendar arithmetic sample remove = .ok next ∧
        next.definition = rollup.definition ∧ after[name]? = some next := by
  induction names generalizing rollups with
  | nil => exact ⟨rollups, rfl, fun _ _ => rfl, nofun⟩
  | cons first rest ih =>
    rw [List.nodup_cons] at distinct
    obtain ⟨rollup, next, found, applied, sameDefinition⟩ := each first List.mem_cons_self
    have untouched : ∀ name : String, name ∈ rest → (rollups.insert first next)[name]? =
        rollups[name]? := by
      intro name member
      rw [getElem?_insert, if_neg]
      rintro rfl
      exact distinct.1 member
    have later : ∀ name ∈ rest, ∃ rollup' next', (rollups.insert first next)[name]? = some rollup' ∧
        rollup'.apply calendar arithmetic sample remove = .ok next' ∧
          next'.definition = rollup'.definition := by
      intro name member
      rw [untouched name member]
      exact each name (List.mem_cons_of_mem _ member)
    obtain ⟨after, ran, outside, inside⟩ := ih distinct.2 later
    refine ⟨after, ?_, ?_, ?_⟩
    · simp only [applyRollups, found, applied]
      exact ran
    · intro name absent
      rw [List.mem_cons, not_or] at absent
      rw [outside name absent.2, getElem?_insert, if_neg (Ne.symm absent.1)]
    · intro name member
      rcases List.mem_cons.mp member with rfl | later
      · refine ⟨rollup, next, found, applied, sameDefinition, ?_⟩
        rw [outside name distinct.1, getElem?_insert, if_pos rfl]
      · obtain ⟨old, new, has, ranAgain, same, final⟩ := inside name later
        rw [untouched name later] at has
        exact ⟨old, new, has, ranAgain, same, final⟩

theorem applyRollups_serves {remove : Bool}
    (each : ∀ name ∈ names, ∃ rollup next : Rollup K A, rollups[name]? = some rollup ∧
      rollup.apply calendar arithmetic sample remove = .ok next ∧ next.definition = rollup.definition ∧
      Maintains calendar arithmetic rows next) :
    ∃ after, applyRollups calendar arithmetic sample remove names.toList rollups = (after, .ok ()) ∧
      Served calendar arithmetic names rows after ∧ Refreshed names rollups after := by
  have ready : ∀ name ∈ names.toList, ∃ rollup next : Rollup K A, rollups[name]? = some rollup ∧
      rollup.apply calendar arithmetic sample remove = .ok next ∧
        next.definition = rollup.definition := by
    intro name member
    obtain ⟨rollup, next, found, applied, same, -⟩ := each name (mem_toList.mp member)
    exact ⟨rollup, next, found, applied, same⟩
  obtain ⟨after, ran, outside, inside⟩ := applyRollups_each (nodup_set names) ready
  refine ⟨after, ran, ?_, ?_, ?_⟩
  · intro name member
    obtain ⟨rollup, next, found, applied, -, maintained⟩ := each name member
    obtain ⟨rollup', next', found', applied', -, final⟩ := inside name (mem_toList.mpr member)
    obtain rfl := some.inj (found.symm.trans found')
    obtain rfl := Except.ok.inj (applied.symm.trans applied')
    exact ⟨next, final, maintained⟩
  · intro name absent
    exact outside name fun member => absent (mem_toList.mp member)
  · intro name
    by_cases member : name ∈ names
    · obtain ⟨rollup, next, found, -, same, final⟩ := inside name (mem_toList.mpr member)
      rw [found, final, map_some, map_some, same]
    · rw [outside name fun listed => member (mem_toList.mp listed)]

theorem Served.remove (served : Served calendar arithmetic names rows rollups)
    (stored : rows[row]? = some sample) (room : rows.size < u64Limit) :
    ∃ after, applyRollups calendar arithmetic sample true names.toList rollups = (after, .ok ()) ∧
      Served calendar arithmetic names (rows.erase row) after ∧ Refreshed names rollups after := by
  apply applyRollups_serves
  intro name member
  obtain ⟨rollup, found, maintained⟩ := served name member
  obtain ⟨windows, located⟩ := maintained.windows row sample stored
  have split : (rows.values : Multiset TemporalSample) = sample ::ₘ ↑(rows.erase row).values :=
    Multiset.coe_eq_coe.mpr (values_erase_perm stored)
  have smaller : (rows.erase row).values.length < u64Limit := by
    rw [length_values]
    exact Nat.lt_of_le_of_lt ExtTreeMap.size_erase_le room
  obtain ⟨next, applied, same, totals⟩ := 
    Rollup.apply_remove (split ▸ maintained.totals) located (by rwa [Multiset.coe_card])
  refine ⟨rollup, next, found, applied, same, ?_, totals⟩
  intro other kept has
  replace has := (erase_eq_some.mp has).2
  rw [same]
  exact maintained.windows other kept has

theorem Served.add (served : Served calendar arithmetic names rows rollups) (fresh : rows[row]? = none)
    (room : rows.size + 1 < u64Limit)
    (located : ∀ name ∈ names, ∀ rollup : Rollup K A, rollups[name]? = some rollup →
      ∃ windows, sampleWindows calendar rollup.definition.window sample = .ok windows) :
    ∃ after, applyRollups calendar arithmetic sample false names.toList rollups = (after, .ok ()) ∧
      Served calendar arithmetic names (rows.insert row sample) after ∧
      Refreshed names rollups after := by
  apply applyRollups_serves
  intro name member
  obtain ⟨rollup, found, maintained⟩ := served name member
  obtain ⟨windows, here⟩ := located name member rollup found
  have grown : ((rows.insert row sample).values : Multiset TemporalSample) = sample ::ₘ ↑rows.values :=
    Multiset.coe_eq_coe.mpr (values_insert_perm sample fresh)
  have counted : rows.values.length + 1 < u64Limit := by
    rw [length_values]
    exact room
  obtain ⟨next, applied, same, totals⟩ :=
    Rollup.apply_add maintained.totals here (by rwa [Multiset.coe_card])
  refine ⟨rollup, next, found, applied, same, ?_, grown ▸ totals⟩
  intro other kept has
  rw [same]
  rcases insert_eq_some.mp has with ⟨_, rfl⟩ | ⟨_, has⟩
  · exact ⟨windows, here⟩
  · exact maintained.windows other kept has

end Rollups

namespace Column

variable {sample : TemporalSample} {entity : Nat}

def dropRow (column : Column) (row : Nat) (sample : TemporalSample) : Column :=
  { column with expiry := column.expiry.erase (sample.eventTimeNanos, row) }.withoutRow row
    sample.entityId

variable {column : Column} {affected : ExtTreeSet Nat} {original : Column}

theorem dropRow_rowOf {other : Nat} : (column.dropRow row sample).RowOf entity other ↔
    other ≠ row ∧ column.RowOf entity other := by
  unfold RowOf dropRow withoutRow
  simp only [getElem?_erase]
  by_cases same : row = other
  · simp [same]
  · simp [same, Ne.symm same]

theorem dropRow_entities (entity : Nat) : (column.dropRow row sample).entities[entity]? =
    if sample.entityId = entity then column.entities[entity]?.map fun index => index.erase row
    else column.entities[entity]? := by
  unfold dropRow withoutRow
  rw [ExtTreeMap.getElem?_alter]
  simp only [LawfulEqCmp.compare_eq_iff_eq]
  split
  next same => rw [same]
  · rfl

theorem Indexed.dropRow (indexed : column.Indexed) (stored : column.rows[row]? = some sample) :
    (column.dropRow row sample).Indexed := by
  constructor
  · exact indexed.cursor
  · intro other kept has
    simp only [Column.dropRow, withoutRow, getElem?_erase] at has
    split at has
    · cases has
    · exact indexed.below other kept has
  · intro entity other
    rw [dropRow_rowOf, ← indexed.listed, ExtTreeMap.getD_eq_getD_getElem?, dropRow_entities,
      ExtTreeMap.getD_eq_getD_getElem?]
    split
    · cases column.entities[entity]? with
      | none => simp
      | some index =>
        rw [map_some, getD_some, getD_some, mem_set_erase, ne_comm]
    next different =>
      rw [← ExtTreeMap.getD_eq_getD_getElem?, indexed.listed]
      constructor
      · intro owned
        refine ⟨?_, owned⟩
        rintro rfl
        obtain ⟨found, has, held⟩ := owned
        rw [stored] at has
        exact different (some.inj has ▸ held)
      · exact fun ⟨_, owned⟩ => owned
  · intro time other
    simp only [Column.dropRow, withoutRow, mem_set_erase, indexed.timed, getElem?_erase, ne_eq,
      Prod.mk.injEq]
    constructor
    · rintro ⟨apart, found, has, timed⟩
      refine ⟨found, ?_, timed⟩
      rw [if_neg]
      · exact has
      · rintro rfl
        rw [stored] at has
        obtain rfl := some.inj has
        exact apart ⟨timed, rfl⟩
    · rintro ⟨found, has, timed⟩
      split at has
      · cases has
      next different => exact ⟨fun same => different same.2, found, has, timed⟩

theorem newestRow_none (indexed : column.Indexed) (vacant : ∀ row, ¬ column.RowOf entity row) :
    column.newestRow entity = none := by
  have none : (column.entities.getD entity ∅).toList = [] := by
    rw [List.eq_nil_iff_forall_not_mem]
    intro row member
    exact vacant row ((indexed.listed entity row).mp (mem_toList.mp member))
  rw [newestRow, none]
  rfl

theorem foldl_rebuildCurrent {entities : List Nat} (indexed : column.Indexed)
    (vacant : ∀ entity ∈ entities, ∀ row, ¬ column.RowOf entity row) :
    entities.foldl rebuildCurrent column =
      { column with
        current := eraseKeys column.current entities
        entities := eraseKeys column.entities entities } := by
  induction entities generalizing column with
  | nil => rfl
  | cons entity rest ih =>
    have none := newestRow_none indexed (vacant entity List.mem_cons_self)
    have retired : column.rebuildCurrent entity =
        { column with
          current := column.current.erase entity, entities := column.entities.erase entity } := by
      rw [rebuildCurrent, none]
    have still : (column.rebuildCurrent entity).Indexed := by
      rw [retired]
      refine ⟨indexed.cursor, indexed.below, ?_, indexed.timed⟩
      intro other row
      rw [ExtTreeMap.getD_eq_getD_getElem?, getElem?_erase]
      split
      next same =>
        have absent := vacant entity List.mem_cons_self row
        rw [← same]
        simpa [RowOf] using absent
      · rw [← ExtTreeMap.getD_eq_getD_getElem?]
        exact indexed.listed other row
    rw [List.foldl_cons, ih still]
    · rw [retired]
      rfl
    · intro other member row
      rw [retired]
      exact vacant other (List.mem_cons_of_mem _ member) row

structure Expired (column : Column) (oldest : Int) (next : Column) : Prop where
  declaration : next.declaration = column.declaration
  rollups : next.rollups = column.rollups
  nextRow : next.nextRow = column.nextRow
  rows : ∀ row : Nat, next.rows[row]? = column.rows[row]?.filter fun sample =>
    oldest ≤ sample.eventTimeNanos
  sound : next.Sound

/-- The expiry loop on its way: rows behind the horizon have gone, and the entities whose current
row went are remembered. -/
structure Partway (original : Column) (oldest : Int) (column : Column)
    (affected : ExtTreeSet Nat) : Prop where
  indexed : column.Indexed
  declaration : column.declaration = original.declaration
  rollups : column.rollups = original.rollups
  nextRow : column.nextRow = original.nextRow
  current : column.current = original.current
  entities : ∀ entity : Nat, column.entities[entity]?.isSome = original.entities[entity]?.isSome
  kept : ∀ (row : Nat) sample, column.rows[row]? = some sample → original.rows[row]? = some sample
  gone : ∀ (row : Nat) sample, original.rows[row]? = some sample → column.rows[row]? = none →
    sample.eventTimeNanos < oldest
  affected : ∀ entity, entity ∈ affected ↔ ∃ row : Nat, original.current[entity]? = some row ∧
    column.rows[row]? = none

theorem Sound.partway (sound : column.Sound) (oldest : Int) : column.Partway oldest column ∅ where
  indexed := sound.toIndexed
  declaration := rfl
  rollups := rfl
  nextRow := rfl
  current := rfl
  entities := fun _ => rfl
  kept := fun _ _ present => present
  gone := fun row sample present absent => by rw [present] at absent; cases absent
  affected := by
    intro entity
    constructor
    · exact fun member => absurd member not_mem_empty
    · rintro ⟨row, pointed, absent⟩
      have points := sound.pointed entity
      rw [pointed] at points
      obtain ⟨sample, present, -⟩ := points
      rw [present] at absent
      cases absent

theorem Partway.dropRow (sound : original.Sound) (partway : original.Partway oldest column affected)
    (stored : column.rows[row]? = some sample) (expired : sample.eventTimeNanos < oldest) :
    original.Partway oldest (column.dropRow row sample)
      (if column.current[sample.entityId]? = some row then affected.insert sample.entityId
        else affected) where
  indexed := partway.indexed.dropRow stored
  declaration := partway.declaration
  rollups := partway.rollups
  nextRow := partway.nextRow
  current := partway.current
  entities := by
    intro entity
    rw [dropRow_entities, ← partway.entities entity]
    split
    · rw [isSome_map]
    · rfl
  kept := by
    intro other kept present
    simp only [Column.dropRow, withoutRow, getElem?_erase] at present
    split at present
    · cases present
    · exact partway.kept other kept present
  gone := by
    intro other old present absent
    simp only [Column.dropRow, withoutRow, getElem?_erase] at absent
    split at absent
    next same =>
      subst same
      rw [partway.kept row sample stored] at present
      exact some.inj present ▸ expired
    · exact partway.gone other old present absent
  affected := by
    have origin := partway.kept row sample stored
    intro entity
    simp only [Column.dropRow, withoutRow, getElem?_erase]
    have before := partway.affected entity
    split
    next pointed =>
      rw [partway.current] at pointed
      rw [mem_set_insert, before]
      constructor
      · rintro (rfl | ⟨other, pointer, absent⟩)
        · exact ⟨row, pointed, by simp⟩
        · exact ⟨other, pointer, by simp [absent]⟩
      · rintro ⟨other, pointer, absent⟩
        by_cases same : row = other
        · subst same
          have points := sound.pointed entity
          rw [pointer] at points
          obtain ⟨found, present, owned, -⟩ := points
          rw [origin] at present
          exact .inl (some.inj present ▸ owned)
        · rw [if_neg same] at absent
          exact .inr ⟨other, pointer, absent⟩
    next elsewhere =>
      rw [before]
      constructor
      · rintro ⟨other, pointer, absent⟩
        exact ⟨other, pointer, by simp [absent]⟩
      · rintro ⟨other, pointer, absent⟩
        by_cases same : row = other
        · subst same
          have points := sound.pointed entity
          rw [pointer] at points
          obtain ⟨found, present, owned, -⟩ := points
          rw [origin] at present
          obtain rfl := some.inj present
          rw [partway.current, owned] at elsewhere
          exact absurd pointer elsewhere
        · rw [if_neg same] at absent
          exact ⟨other, pointer, absent⟩

section

variable (sound : original.Sound) (partway : original.Partway oldest column affected)
  (complete : ∀ (row : Nat) sample, column.rows[row]? = some sample → oldest ≤ sample.eventTimeNanos)

include sound partway complete

theorem Partway.vacant (member : entity ∈ affected) (row : Nat) : ¬ column.RowOf entity row := by
  rintro ⟨sample, has, owned⟩
  obtain ⟨pointer, pointed, absent⟩ := (partway.affected entity).mp member
  have points := sound.pointed entity
  rw [pointed] at points
  obtain ⟨newest, stored, -, first⟩ := points
  have expired := partway.gone pointer newest stored absent
  have later := (first row sample (partway.kept row sample has) owned).1
  have timely := complete row sample has
  simp only [precedes, Bool.or_eq_false_iff, decide_eq_false_iff_not] at later
  omega

theorem Partway.finish : original.Expired oldest (affected.toList.foldl rebuildCurrent column) := by
  have vacant : ∀ entity ∈ affected.toList, ∀ row, ¬ column.RowOf entity row := fun entity member =>
    partway.vacant sound complete (mem_toList.mp member)
  rw [foldl_rebuildCurrent partway.indexed vacant]
  have rows : ∀ row : Nat, column.rows[row]? =
      original.rows[row]?.filter fun sample => oldest ≤ sample.eventTimeNanos := by
    intro row
    cases has : column.rows[row]? with
    | some sample =>
      rw [partway.kept row sample has, filter_some, if_pos]
      simpa using complete row sample has
    | none =>
      cases origin : original.rows[row]? with
      | none => rfl
      | some sample =>
        have expired := partway.gone row sample origin has
        rw [filter_some, if_neg]
        simp
        omega
  refine ⟨partway.declaration, partway.rollups, partway.nextRow, rows, ?_⟩
  refine { cursor := partway.indexed.cursor, below := partway.indexed.below, listed := ?_,
           timed := partway.indexed.timed, occupied := ?_, pointed := ?_ }
  · intro entity row
    rw [ExtTreeMap.getD_eq_getD_getElem?, getElem?_eraseKeys]
    split
    next member =>
      have absent := vacant entity member row
      simpa [RowOf] using absent
    · rw [← ExtTreeMap.getD_eq_getD_getElem?]
      exact partway.indexed.listed entity row
  · intro entity held
    simp only [getElem?_eraseKeys] at held
    split at held
    · cases held
    next unaffected =>
      rw [partway.entities] at held
      obtain ⟨row, owned⟩ := sound.occupied entity held
      have points := sound.pointed entity
      cases pointer : original.current[entity]? with
      | none =>
        rw [pointer] at points
        exact absurd owned (points row)
      | some newest =>
        rw [pointer] at points
        obtain ⟨sample, stored, held, -⟩ := points
        cases has : column.rows[newest]? with
        | none =>
          have affected := (partway.affected entity).mpr ⟨newest, pointer, has⟩
          exact absurd (mem_toList.mpr affected) unaffected
        | some found =>
          have same := (partway.kept newest found has).symm.trans stored
          exact ⟨newest, found, has, some.inj same ▸ held⟩
  · intro entity
    simp only [getElem?_eraseKeys]
    split
    next member => exact vacant entity member
    next unaffected =>
      have points := sound.pointed entity
      rw [partway.current]
      cases pointer : original.current[entity]? with
      | none =>
        rw [pointer] at points
        rintro row ⟨sample, has, owned⟩
        exact points row ⟨sample, partway.kept row sample has, owned⟩
      | some newest =>
        rw [pointer] at points
        obtain ⟨sample, stored, owned, first⟩ := points
        cases has : column.rows[newest]? with
        | none =>
          have affected := (partway.affected entity).mpr ⟨newest, pointer, has⟩
          exact absurd (mem_toList.mpr affected) unaffected
        | some found =>
          have same := (partway.kept newest found has).symm.trans stored
          obtain rfl := some.inj same
          exact ⟨found, has, owned, fun other rival held =>
            first other rival (partway.kept other rival held)⟩

end

end Column

section Loop

variable {K A : Type} [Quantity K] [AddCommGroup A] {calendar : Calendar}
  {arithmetic : Arithmetic K A} {original : Column}

theorem expireLoop_spec (sound : original.Sound) {turns : Nat} {state : Expiring K A}
    (partway : original.Partway oldest state.column state.affected)
    (served : Served calendar arithmetic original.rollups state.column.rows state.rollups)
    (enough : state.column.expiry.size ≤ turns) :
    ∃ final, expireLoop calendar arithmetic oldest turns state = (final, .ok ()) ∧
      original.Partway oldest final.column final.affected ∧
      (∀ (row : Nat) sample, final.column.rows[row]? = some sample → oldest ≤ sample.eventTimeNanos) ∧
      Served calendar arithmetic original.rollups final.column.rows final.rollups ∧
      Refreshed original.rollups state.rollups final.rollups := by
  induction turns generalizing state with
  | zero =>
    refine ⟨state, rfl, partway, ?_, served, Refreshed.refl _ _⟩
    intro row sample has
    have listed := (partway.indexed.timed sample.eventTimeNanos row).mpr ⟨sample, has, rfl⟩
    have empty : state.column.expiry = ∅ := eq_empty_iff_size_eq_zero.mpr (Nat.le_zero.mp enough)
    rw [empty] at listed
    exact absurd listed not_mem_empty
  | succ turns ih =>
    unfold expireLoop
    rw [← min?_eq_head?_toList]
    cases first : state.column.expiry.min? with
    | none =>
      refine ⟨state, rfl, partway, ?_, served, Refreshed.refl _ _⟩
      intro row sample has
      have listed := (partway.indexed.timed sample.eventTimeNanos row).mpr ⟨sample, has, rfl⟩
      rw [min?_eq_none_iff.mp first] at listed
      exact absurd listed not_mem_empty
    | some entry =>
      obtain ⟨time, row⟩ := entry
      obtain ⟨member, least⟩ := min?_eq_some_iff_mem_and_forall.mp first
      obtain ⟨sample, stored, rfl⟩ := (partway.indexed.timed time row).mp member
      by_cases expired : sample.eventTimeNanos < oldest
      · have room := size_le_of_below partway.indexed.below
        have cursor := partway.indexed.cursor
        obtain ⟨rollups, applied, stillServed, refreshed⟩ := served.remove stored (by omega)
        rw [← partway.rollups] at applied
        have shorter : (state.column.dropRow row sample).expiry.size ≤ turns := by
          have size : (state.column.expiry.erase (sample.eventTimeNanos, row)).size = _ := size_erase
          have occupied : state.column.expiry.size ≠ 0 := by
            intro zero
            rw [eq_empty_iff_size_eq_zero.mpr zero] at member
            exact not_mem_empty member
          rw [if_pos (contains_iff_mem.mpr member)] at size
          change (state.column.expiry.erase (sample.eventTimeNanos, row)).size ≤ turns
          omega
        obtain ⟨final, ran, reached, complete, finallyServed, later⟩ :=
          @ih ⟨rollups, _, _⟩ (partway.dropRow sound stored expired) stillServed shorter
        refine ⟨final, ?_, reached, complete, finallyServed, refreshed.trans later⟩
        simp only [expired, if_true, stored, applied]
        exact ran
      · refine ⟨state, by simp [expired], partway, ?_, served, Refreshed.refl _ _⟩
        intro other kept has
        have listed := (partway.indexed.timed kept.eventTimeNanos other).mpr ⟨kept, has, rfl⟩
        have behind := least _ listed
        have ordered : sample.eventTimeNanos ≤ kept.eventTimeNanos := by
          by_contra prior
          have greater : compare (sample.eventTimeNanos, row) (kept.eventTimeNanos, other) = .gt := by
            change (compare sample.eventTimeNanos kept.eventTimeNanos).then (compare row other) = .gt
            rw [Int.compare_eq_gt.mpr (by omega)]
            rfl
          rw [greater] at behind
          cases behind
        omega

theorem expire_spec {store : TemporalStore K A} {key : Key} {column : Column} (now : Int)
    (found : store.columns[key]? = some column) (sound : column.Sound)
    (served : Served calendar arithmetic column.rollups column.rows store.rollups) :
    ∃ next rollups, store.expire calendar arithmetic key now =
        ({ columns := store.columns.insert key next, rollups }, .ok ()) ∧
      column.Expired (TemporalStore.horizon column.declaration now) next ∧
      Served calendar arithmetic column.rollups next.rows rollups ∧
      Refreshed column.rollups store.rollups rollups := by
  obtain ⟨final, ran, partway, complete, stillServed, refreshed⟩ :=
    @expireLoop_spec (TemporalStore.horizon column.declaration now)
      K A _ _ calendar arithmetic column sound
      column.expiry.size { rollups := store.rollups, column, affected := ∅ } (sound.partway _)
        served (Nat.le_refl _)
  have finished := partway.finish sound complete
  refine ⟨_, final.rollups, ?_, finished, ?_, refreshed⟩
  · simp only [TemporalStore.expire, found, ran]
  · have rows : (final.affected.toList.foldl Column.rebuildCurrent final.column).rows =
        final.column.rows := by
      rw [Column.foldl_rebuildCurrent partway.indexed fun entity member =>
        partway.vacant sound complete (ExtTreeSet.mem_toList.mp member)]
    rw [rows]
    exact stillServed

end Loop

end IronGraph.Temporal

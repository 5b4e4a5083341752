import IronGraph.Temporal.Restore

/-!
Reads of the newest sample of an entity. Among equally new samples the pointer of the column keeps
the first, the view of a statement takes the last, and the scan of the rows whichever the hash map
yields last, so the reads agree exactly when no two different samples are the newest.
-/

namespace IronGraph.Temporal

open Std Outcome OrderedMap Column List TemporalStore Bool

/-- The last of the newest samples, as `max_by_key` selects it. -/
def latest (samples : List TemporalSample) : Option TemporalSample :=
  samples.foldl (fun best sample => match best with
    | none => some sample
    | some best => if precedes sample best then some best else some sample) none

def LastNewest (samples : List TemporalSample) (newest : TemporalSample) : Prop :=
  ∃ earlier later, samples = earlier ++ newest :: later ∧
    (∀ sample ∈ earlier, precedes newest sample = false) ∧
      ∀ sample ∈ later, precedes sample newest = true

variable {second first : TemporalSample}

theorem precedes_false_trans {third : TemporalSample} (lower : precedes second first = false)
    (upper : precedes third second = false) :
    precedes third first = false := by
  simp only [precedes, or_eq_false_iff, and_eq_false_iff, decide_eq_false_iff_not] at *
  omega

theorem precedes_asymm (before : precedes first second = true) : precedes second first = false := by
  simp only [precedes, or_eq_false_iff, and_eq_false_iff, decide_eq_false_iff_not, or_eq_true,
    and_eq_true, decide_eq_true_eq] at *
  omega

theorem latest_lastNewest {samples : List TemporalSample} (filled : samples ≠ []) :
    ∃ newest, latest samples = some newest ∧ LastNewest samples newest := by
  induction samples using reverseRecOn with
  | nil => exact absurd rfl filled
  | append_singleton samples sample ih =>
    by_cases first : samples = []
    · subst first
      exact ⟨sample, rfl, [], [], rfl, nofun, nofun⟩
    · obtain ⟨best, chosen, prior, later, split, older, newer⟩ := ih first
      unfold latest at chosen ⊢
      rw [foldl_append, chosen]
      by_cases before : precedes sample best = true
      · refine ⟨best, if_pos before, prior, later ++ [sample], by simp [split], older, ?_⟩
        intro other mem
        rcases mem_append.mp mem with mem | mem
        · exact newer other mem
        · rwa [mem_singleton.mp mem]
      · have after : precedes sample best = false := by simpa using before
        refine ⟨sample, if_neg before, samples, [], rfl, ?_, nofun⟩
        intro other mem
        rw [split, mem_append, mem_cons] at mem
        rcases mem with mem | rfl | mem
        · exact precedes_false_trans (older other mem) after
        · exact after
        · exact precedes_false_trans (precedes_asymm (newer other mem)) after

theorem LastNewest.bounds {samples : List TemporalSample} {newest : TemporalSample}
    (last : LastNewest samples newest) : newest ∈ samples ∧
    ∀ sample ∈ samples, precedes newest sample = false := by
  obtain ⟨prior, later, rfl, older, newer⟩ := last
  refine ⟨by simp, fun sample mem => ?_⟩
  rcases mem_append.mp mem with mem | mem
  · exact older sample mem
  · rcases mem_cons.mp mem with rfl | mem
    · simp [precedes]
    · exact precedes_asymm (newer sample mem)

theorem latest_append_newest {samples : List TemporalSample} {sample : TemporalSample}
    (newest : ∀ other ∈ samples, precedes sample other = false) :
    latest (samples ++ [sample]) = some sample := by
  cases samples with
  | nil => rfl
  | cons first rest =>
    obtain ⟨best, chosen, last⟩ := latest_lastNewest (cons_ne_nil first rest)
    have behind := newest best last.bounds.1
    unfold latest at chosen ⊢
    rw [foldl_append, chosen]
    simp [behind]

variable {K A : Type} [Quantity K] [AddCommGroup A] {calendar : Calendar}
  {arithmetic : Arithmetic K A} {store : TemporalStore K A} {kind : EntityKind} {target : UInt64}
  {entity : Nat}

namespace TemporalStore

section Reads

variable (store : TemporalStore K A) (kind : EntityKind) (target : UInt64) (entity : Nat)
    (property : PropertyId)

def current : Option TemporalSample := do
  let column ← store.columns[columnKey kind target property]?
  let row ← column.current[entity]?
  column.rows[row]?

/-- `arrange` is the order in which the hash map of an entity's rows is iterated. -/
def atTime (arrange : List Nat → List Nat) (when : Int) (bookmark : Nat) : Option TemporalSample := do
  let column ← store.columns[columnKey kind target property]?
  latest (((arrange (column.entities.getD entity ∅).toList).filterMap fun row =>
    column.rows[row]?).filter fun sample =>
    sample.eventTimeNanos ≤ when && sample.sequenceIndex ≤ bookmark)

/-- What `TemporalReadView::current` chooses from: the current sample of the store, then those of
the statement. -/
def viewSamples (appended : List TemporalChange) : List TemporalSample :=
  (store.current kind target entity property).toList ++ appended.filterMap fun change =>
    if change.entityKind = kind ∧ change.target = target ∧ change.sample.entityId = entity ∧
        change.sample.property = property then some change.sample else none

def viewCurrent (appended : List TemporalChange) : Option TemporalSample :=
  latest (store.viewSamples kind target entity property appended)

/-- A row of the entity that no other row of it is newer than. -/
def Newest (row : Nat) (sample : TemporalSample) : Prop :=
  let rows := store.rowsAt (columnKey kind target property)
  rows[row]? = some sample ∧ sample.entityId = entity ∧
    ∀ (other : Nat) rival, rows[other]? = some rival →
    rival.entityId = entity → precedes sample rival = false

def AppendedLast (sample : TemporalSample) : Prop :=
  ∃ row, store.Newest kind target entity property row sample ∧ ∀ other rival,
    store.Newest kind target entity property other rival → other ≤ row

/-- All newest rows of the entity hold one and the same sample. -/
def Unrivalled : Prop := ∀ row sample other rival, store.Newest kind target entity property row sample →
    store.Newest kind target entity property other rival → rival = sample

def ReadsAs (sample : TemporalSample) :
    Prop := store.current kind target entity property = some sample ∧
    ∀ arrange : List Nat → List Nat, (∀ rows, (arrange rows).Perm rows) → ∀ when bookmark,
      sample.eventTimeNanos ≤ when → sample.sequenceIndex ≤ bookmark →
        store.atTime kind target entity property arrange when bookmark = some sample

end Reads

variable {property : PropertyId} {sample : TemporalSample} {row bookmark : Nat} {when : Int}

theorem newest_of_current (consistent : store.Consistent calendar arithmetic)
    (newest : store.Newest kind target entity property row sample) : ∃ first rival,
      store.current kind target entity property = some rival ∧
      store.Newest kind target entity property first rival := by
  obtain ⟨stored, owned, -⟩ := newest
  cases located : store.columns[columnKey kind target property]? with
  | none => simp [rowsAt, located] at stored
  | some column =>
    rw [rowsAt_of_found located] at stored
    have pointed := (consistent.columns _ _ located).sound.pointed entity
    cases pointer : column.current[entity]? with
    | none =>
      rw [pointer] at pointed
      exact absurd ⟨sample, stored, owned⟩ (pointed row)
    | some first =>
      rw [pointer] at pointed
      obtain ⟨rival, has, owns, newer⟩ := pointed
      refine ⟨first, rival, by simp [current, located, pointer, has], ?_⟩
      simp only [Newest, rowsAt_of_found located]
      exact ⟨has, owns, fun other third there of => (newer other third there of).1⟩

theorem mem_scan (consistent : store.Consistent calendar arithmetic) {column : Column}
    (located : store.columns[columnKey kind target property]? = some column) {rows : List Nat}
    (arranged : rows.Perm (column.entities.getD entity ∅).toList) :
    sample ∈ (rows.filterMap fun row => column.rows[row]?).filter (fun sample =>
        sample.eventTimeNanos ≤ when && sample.sequenceIndex ≤ bookmark) ↔
      (∃ row : Nat, column.rows[row]? = some sample ∧ sample.entityId = entity) ∧
        sample.eventTimeNanos ≤ when ∧ sample.sequenceIndex ≤ bookmark := by
  have listed := (consistent.columns _ _ located).sound.listed entity
  simp only [mem_filter, mem_filterMap, arranged.mem_iff, ExtTreeSet.mem_toList, listed, RowOf,
    and_eq_true, decide_eq_true_eq]
  refine and_congr_left fun _ => exists_congr fun row => ?_
  constructor
  · rintro ⟨⟨same, stored, owned⟩, there⟩
    obtain rfl := Option.some.inj (stored.symm.trans there)
    exact ⟨stored, owned⟩
  · rintro ⟨stored, owned⟩
    exact ⟨⟨sample, stored, owned⟩, stored⟩

theorem readsAs_of_unrivalled (consistent : store.Consistent calendar arithmetic)
    (unrivalled : store.Unrivalled kind target entity property)
    (newest : store.Newest kind target entity property row sample) :
    store.ReadsAs kind target entity property sample := by
  obtain ⟨first, rival, found, also⟩ := newest_of_current consistent newest
  obtain rfl := unrivalled row sample first rival newest also
  refine ⟨found, fun arrange arranged when bookmark later unbounded => ?_⟩
  cases located : store.columns[columnKey kind target property]? with
  | none => simp [current, located] at found
  | some column =>
    simp only [Newest, rowsAt_of_found located] at newest
    have members := @mem_scan _ _ _ _ calendar arithmetic store kind target entity property
    have mem := (members consistent located (arranged _)).mpr ⟨⟨row, newest.1, newest.2.1⟩,
      later, unbounded⟩
    obtain ⟨best, chosen, last⟩ := latest_lastNewest (ne_nil_of_mem mem)
    obtain ⟨inside, bounds⟩ := last.bounds
    obtain ⟨⟨other, stored, owned⟩, -⟩ := (members consistent located (arranged _)).mp inside
    have top : store.Newest kind target entity property other best := by
      simp only [Newest, rowsAt_of_found located]
      exact ⟨stored, owned, fun another third there of =>
        precedes_false_trans (newest.2.2 another third there of) (bounds _ mem)⟩
    simp only [atTime, located, Option.bind_eq_bind, Option.bind_some, chosen]
    rw [unrivalled first rival other best also top]

def lastly (row : Nat) (rows : List Nat) : List Nat := rows.filter (· ≠ row) ++ rows.filter (· = row)

theorem lastly_perm (row : Nat) (rows : List Nat) : (lastly row rows).Perm rows := by
  refine perm_append_comm.trans ?_
  simpa using filter_append_perm (· = row) rows

variable (consistent : store.Consistent calendar arithmetic)
include consistent

theorem atTime_lastly
    (newest : store.Newest kind target entity property row sample)
    (later : sample.eventTimeNanos ≤ when) (unbounded : sample.sequenceIndex ≤ bookmark) :
    store.atTime kind target entity property (lastly row) when bookmark = some sample := by
  cases located : store.columns[columnKey kind target property]? with
  | none => simp [Newest, rowsAt, located] at newest
  | some column =>
    simp only [Newest, rowsAt_of_found located] at newest
    have listed := (consistent.columns _ _ located).sound.listed entity
    have mem : row ∈ (column.entities.getD entity ∅).toList := by
      rw [ExtTreeSet.mem_toList, listed]
      exact ⟨sample, newest.1, newest.2.1⟩
    have once : (column.entities.getD entity ∅).toList.filter (· = row) = [row] := by
      rw [filter_eq, count_eq_one_of_mem (nodup_set _) mem]
      rfl
    simp only [atTime, located, Option.bind_eq_bind, Option.bind_some, lastly, once, filterMap_append,
      filter_append]
    have tail : ([row].filterMap fun row => column.rows[row]?).filter (fun sample =>
        sample.eventTimeNanos ≤ when && sample.sequenceIndex ≤ bookmark) = [sample] := by
      simp [newest.1, later, unbounded]
    rw [tail]
    apply latest_append_newest
    intro other inside
    obtain ⟨another, scanned, stored⟩ := mem_filterMap.mp (mem_filter.mp inside).1
    obtain ⟨same, there, owned⟩ :=
      (listed another).mp (ExtTreeSet.mem_toList.mp (mem_filter.mp scanned).1)
    obtain rfl := Option.some.inj (stored.symm.trans there)
    exact newest.2.2 another other stored owned

theorem exists_appendedLast (newest : store.Newest kind target entity property row sample) :
    ∃ sample, store.AppendedLast kind target entity property sample := by
  cases located : store.columns[columnKey kind target property]? with
  | none => simp [Newest, rowsAt, located] at newest
  | some column =>
    have bounded : ∀ {other rival}, store.Newest kind target entity property other rival →
        other ≤ column.nextRow := by
      intro other rival top
      simp only [Newest, rowsAt_of_found located] at top
      exact Nat.le_of_lt ((consistent.columns _ _ located).sound.below other rival top.1)
    classical
    obtain ⟨last, top⟩ := Nat.findGreatest_spec (P := fun row =>
      ∃ sample, store.Newest kind target entity property row sample)
      (bounded newest) ⟨sample, newest⟩
    exact ⟨last, _, top, fun other rival also => Nat.le_findGreatest (bounded also) ⟨rival, also⟩⟩

theorem unrivalled_of_readsAs (reads : ∀ sample, store.AppendedLast kind target entity property sample →
      store.ReadsAs kind target entity property sample) :
      store.Unrivalled kind target entity property := by
  have answers : ∀ {last}, store.AppendedLast kind target entity property last → ∀ row sample,
      store.Newest kind target entity property row sample → sample = last := by
    intro last appended row sample newest
    have scanned := atTime_lastly consistent newest (Int.le_max_left _ last.eventTimeNanos)
      (Nat.le_max_left _ last.sequenceIndex)
    rw [(reads last appended).2 (lastly row) (lastly_perm row) _ _ (Int.le_max_right ..)
      (Nat.le_max_right ..)] at scanned
    exact (Option.some.inj scanned).symm
  intro row sample other rival newest also
  obtain ⟨last, appended⟩ := exists_appendedLast consistent newest
  rw [answers appended row sample newest, answers appended other rival also]

omit consistent

theorem reads_last_iff (codecs : TemporalCodecs) {commands : List TemporalCommand}
    (ran : commands.foldlM (carryOut calendar arithmetic) empty = .ok store) :
    (∀ kind target entity property,
      (∀ sample, store.AppendedLast kind target entity property sample →
        store.ReadsAs kind target entity property sample) ↔
        store.Unrivalled kind target entity property) ∧
    (∃ records, commands.foldlM (publish codecs calendar arithmetic) (empty, ∅) =
        .ok (store, records) ∧ restore codecs calendar arithmetic records = .ok store) ∧
    ∀ kind target entity property appended sample,
      store.viewCurrent kind target entity property appended = some sample →
        LastNewest (store.viewSamples kind target entity property appended) sample := by
  obtain ⟨records, published, consistent, persisted⟩ :=
    published_persisted empty_consistent (empty_persisted codecs) ran
  refine ⟨fun kind target entity property => ⟨unrivalled_of_readsAs consistent, ?_⟩,
    ⟨records, published, restore_persisted consistent persisted⟩, ?_⟩
  · rintro unrivalled sample ⟨row, newest, -⟩
    exact readsAs_of_unrivalled consistent unrivalled newest
  · intro kind target entity property appended sample selected
    obtain ⟨newest, chosen, last⟩ :=
      latest_lastNewest (show store.viewSamples kind target entity property appended ≠ [] by
      intro empty
      simp [viewCurrent, empty, latest] at selected)
    rw [viewCurrent, chosen] at selected
    exact Option.some.inj selected ▸ last

end TemporalStore

section Samples

open TemporalStore

theorem reads_last_gauge : ∃ store : TemporalStore Int Int,
    gaugeCommands.foldlM (carryOut noCalendar wholeNumbers) empty = .ok store ∧
      ∀ kind target entity property, (∀ sample, store.AppendedLast kind target entity property sample →
        store.ReadsAs kind target entity property sample) ↔
        store.Unrivalled kind target entity property := by
  have carried : (gaugeCommands.foldlM (carryOut noCalendar wholeNumbers) empty).toOption.isSome =
      true := by
    decide +kernel
  cases ran : gaugeCommands.foldlM (carryOut noCalendar wholeNumbers) empty with
  | error _ => simp [ran, Except.toOption] at carried
  | ok store => exact ⟨store, rfl, (reads_last_iff unaryCodecs ran).1⟩

/-- The second write of one property in a transaction: both carry its commit time and index. -/
def rewritten : TemporalSample := { reading 3 with value := .integer 2 }

def rewrites : List TemporalChange := [⟨.node, 1, reading 3⟩, ⟨.node, 1, rewritten⟩]

/-- The statement reads its second write, and everybody after it the first. -/
theorem rewrites_read_first : ∃ declared store : TemporalStore Int Int,
    empty.administer noCalendar wholeNumbers 0 (some (.declare gauge)) = .ok declared ∧
      declared.appendAll noCalendar wholeNumbers rewrites 3 = .ok store ∧
      declared.viewCurrent .node 1 7 1 rewrites = some rewritten ∧
      store.AppendedLast .node 1 7 1 rewritten ∧ store.current .node 1 7 1 = some (reading 3) := by
  have declares : (empty.administer noCalendar wholeNumbers 0 (some (.declare gauge))).toOption.any
      (fun declared => declared.viewCurrent .node 1 7 1 rewrites = some rewritten &&
        (declared.appendAll noCalendar wholeNumbers rewrites 3).toOption.any fun store =>
          store.current .node 1 7 1 = some (reading 3) &&
            (store.rowsAt (columnKey .node 1 1)).toList = [(0, reading 3), (1, rewritten)]) = true := by
    decide +kernel
  cases first : empty.administer noCalendar wholeNumbers 0 (some (.declare gauge)) with
  | error _ => simp [first, Except.toOption] at declares
  | ok declared =>
    cases second : declared.appendAll noCalendar wholeNumbers rewrites 3 with
    | error _ => simp [first, second, Except.toOption] at declares
    | ok store =>
      simp only [first, second, Except.toOption, Option.any_some, and_eq_true,
        decide_eq_true_eq] at declares
      obtain ⟨viewed, kept, listed⟩ := declares
      have stored : ∀ {row : Nat} {sample}, (store.rowsAt (columnKey .node 1 1))[row]? = some sample ↔
          row = 0 ∧ sample = reading 3 ∨ row = 1 ∧ sample = rewritten := by
        intro row sample
        simp [← mem_toList, listed]
      refine ⟨declared, store, rfl, second, viewed,
        ⟨1, ⟨stored.mpr (.inr ⟨rfl, rfl⟩), rfl, ?_⟩, ?_⟩, kept⟩
      · intro other rival present _
        rcases stored.mp present with ⟨-, rfl⟩ | ⟨-, rfl⟩
        · decide
        · decide
      · intro other rival newest
        rcases stored.mp newest.1 with ⟨below, -⟩ | ⟨same, -⟩ <;> omega

end Samples

end IronGraph.Temporal

import IronGraph.Temporal.Records

/-!
Publishing a command keeps the records the image of the store: what the command removes is among the
rows predicted before it, and what it adds is numbered from the captured cursor on.
-/

namespace IronGraph.Temporal

open List hiding getElem?_insert
open Std Outcome OrderedMap Persistence TemporalStore TemporalRecord

variable {K A : Type} [Quantity K] {store : TemporalStore K A} {codecs : TemporalCodecs}
  {column : Key} {cal : Calendar} {arith arithmetic : Arithmetic K A} {now : Int}
  {targets : List Key}

section Selection

theorem Column.mem_expiredRows {oldest : Int} {column : Column} (indexed : column.Indexed)
    {row : Nat} :
    row ∈ column.expiredRows oldest ↔ ∃ sample, column.rows[row]? = some sample ∧
    sample.eventTimeNanos < oldest := by
  have before : ∀ (time : Int) (row : Nat), compare (time, row) (oldest, 0) = .lt ↔ time < oldest := by
    intro time row
    change (compare time oldest).then (compare row 0) = .lt ↔ time < oldest
    rw [Ordering.then_eq_lt, Int.compare_eq_lt, Int.compare_eq_eq, Nat.compare_eq_lt]
    omega
  simp only [expiredRows, mem_map, mem_filter, ExtTreeSet.mem_toList, decide_eq_true_eq]
  constructor
  · rintro ⟨⟨time, row'⟩, ⟨mem, behind⟩, rfl⟩
    obtain ⟨sample, stored, rfl⟩ := (indexed.timed time row').mp mem
    exact ⟨sample, stored, (before _ _).mp behind⟩
  · rintro ⟨sample, stored, behind⟩
    exact ⟨(sample.eventTimeNanos, row), ⟨(indexed.timed _ _).mpr ⟨sample, stored, rfl⟩,
      (before _ _).mpr behind⟩, rfl⟩

variable (store : TemporalStore K A)

theorem preparePersistence_columns (changed : List Key) (now : Int) (column : Key) :
    (store.preparePersistence changed now).columns[column]? =
      if column ∈ changed then some (store.selected now column) else none := by
  have general : ∀ selection : TemporalPersistenceSelection, (changed.foldl (fun selection column =>
      { columns := selection.columns.insert column (store.selected now column) })
        selection).columns[column]? = if column ∈ changed then some (store.selected now column)
          else selection.columns[column]? := by
    induction changed with
    | nil => simp
    | cons first rest ih =>
      intro selection
      rw [foldl_cons, ih]
      simp only [getElem?_insert, mem_cons]
      by_cases later : column ∈ rest
      · simp [later]
      · by_cases same : first = column
        · simp [same]
        · simp [later, same, Ne.symm same]
  rw [preparePersistence, general]
  simp

theorem value_sample (column : Key) (row : Nat) : (sample column row).value codecs store =
      (store.rowsAt column)[row]?.map codecs.sample.encode := by
  simp only [value, rowsAt]
  cases store.columns[column]? with
  | none => simp
  | some found => simp

theorem value_cursor (column : Key) : (cursor column).value codecs store =
      (store.columns[column]?.map (·.declaration)).map fun _ =>
        codecs.cursor.encode (store.cursorAt column) := by
  simp only [value, cursorAt]
  cases store.columns[column]? with
  | none => rfl
  | some found => rfl

theorem value_declaration (column : Key) : (declaration column).value codecs store =
      (store.columns[column]?.map (·.declaration)).map codecs.declaration.encode := by
  unfold value
  rw [Option.map_map]
  rfl

theorem value_rollup (name : String) : (rollup name).value codecs store =
      (store.rollups[name]?.map (·.definition)).map codecs.definition.encode := by
  unfold value
  rw [Option.map_map]
  rfl

theorem prepareDeclarationPersistence_columns (declaration : TemporalDeclaration)
    (now : Int) (column : Key) :
    (store.prepareDeclarationPersistence declaration now).columns[column]? =
      if column = declaration.key then
        some (store.cursorAt column,
          (store.columns[column]?.map (·.expiredRows (horizon declaration now))).getD [])
      else none := by
  unfold prepareDeclarationPersistence
  by_cases same : column = declaration.key
  · subst same
    cases located : store.columns[declaration.key]? with
    | some found => simp [cursorAt, located]
    | none => simp [preparePersistence_columns, selected, cursorAt, located]
  · rw [if_neg same]
    have elsewhere : (store.preparePersistence [declaration.key] now).columns[column]? = none := by
      rw [preparePersistence_columns, if_neg]
      simpa using same
    cases located : store.columns[declaration.key]? with
    | some found =>
      simp only
      rw [getElem?_insert, if_neg (Ne.symm same)]
      exact elsewhere
    | none => exact elsewhere

theorem empty_persisted (codecs : TemporalCodecs) :
    Persisted codecs (empty : TemporalStore K A) (∅ : RecordMap) where
  values := by
    intro record _
    cases record <;> simp [value, empty]
  only := by simp

variable {store}

theorem isSome_of_declared {before after : TemporalStore K A} {column : Key}
    (declared : after.columns[column]?.map (·.declaration) =
      before.columns[column]?.map (·.declaration)) :
    (after.columns[column]?).isSome = (before.columns[column]?).isSome := by
  simpa using congrArg Option.isSome declared

variable {found : Column}

theorem rowsAt_of_found (has : store.columns[column]? = some found) :
    store.rowsAt column = found.rows := by
  simp [rowsAt, has]

theorem cursorAt_of_found (has : store.columns[column]? = some found) :
    store.cursorAt column = found.nextRow := by
  simp [cursorAt, has]

theorem Persisted.advance {next : TemporalStore K A} {recs : RecordMap} {operations : List RecordOp}
    (persisted : Persisted codecs store recs) (sweeps : Sweeps codecs next operations)
    (covered : ∀ record : TemporalRecord, record.Valid → ¬ record.IsRollup →
      record.value codecs store = record.value codecs next ∨ Mentions codecs next operations record)
    (rollups : ∀ name : String, (applyOperations recs operations)[(rollup name).bytes]? =
      (rollup name).value codecs next) : Persisted codecs next (applyOperations recs operations) where
  values := by
    intro record valid
    by_cases rolled : record.IsRollup
    · cases record with
      | rollup name => exact rollups name
      | declaration _ => exact rolled.elim
      | sample _ _ => exact rolled.elim
      | cursor _ => exact rolled.elim
    · apply sweeps.settle valid rolled
      rw [persisted.values record valid]
      exact covered record valid rolled
  only := sweeps.only persisted.only

theorem persistenceChanges_ok {next : TemporalStore K A} {selection : TemporalPersistenceSelection}
    (codecs : TemporalCodecs)
    (forward : ∀ (column : Key) entry, selection.columns[column]? = some entry →
      entry.1 ≤ next.cursorAt column)
    (catalogChanged : Bool) :
    ∃ operations, next.persistenceChanges codecs selection catalogChanged = .ok operations := by
  have each : ∀ entry ∈ selection.columns.toList,
      ∃ part, next.columnChanges codecs entry.1 entry.2.1 entry.2.2 = .ok part := by
    rintro ⟨column, entry⟩ mem
    have reached := forward column entry (mem_toList.mp mem)
    simp only [columnChanges]
    cases located : next.columns[column]? with
    | none => exact ⟨_, rfl⟩
    | some found =>
      rw [cursorAt_of_found located] at reached
      simp only
      rw [if_neg (by omega)]
      exact ⟨_, rfl⟩
  obtain ⟨parts, mapped⟩ := mapM_ok each
  exact ⟨_, bind_eq_ok.mpr ⟨parts, mapped, rfl⟩⟩

end Selection

variable [AddCommGroup A]

section Append

variable {after : TemporalStore K A} {column : Key}

structure Appended (calendar : Calendar) (arithmetic : Arithmetic K A) (before : TemporalStore K A)
    (targets : List Key) (now : Int) (after : TemporalStore K A) : Prop where
  consistent : after.Consistent calendar arithmetic
  present : ∀ column ∈ targets, (before.columns[column]?).isSome
  others : ∀ column, column ∉ targets → after.columns[column]? = before.columns[column]?
  declared : ∀ column : Key, after.columns[column]?.map (·.declaration) =
    before.columns[column]?.map (·.declaration)
  cursor : ∀ column, before.cursorAt column ≤ after.cursorAt column
  fresh : ∀ (column : Key) (row : Nat) sample, (after.rowsAt column)[row]? = some sample →
    (before.rowsAt column)[row]? = some sample ∨ before.cursorAt column ≤ row
  stale : ∀ (column : Key) found (row : Nat) sample, before.columns[column]? = some found →
    found.rows[row]? = some sample → (after.rowsAt column)[row]? = some sample ∨
      (after.rowsAt column)[row]? = none ∧ sample.eventTimeNanos < horizon found.declaration now
  definitions : ∀ name : String, after.rollups[name]?.map (·.definition) =
    before.rollups[name]?.map (·.definition)

theorem append_room {kind : EntityKind} {target : UInt64} {sample : TemporalSample}
    (appended : store.append cal arith kind target sample now = (after, .ok ())) :
    store.cursorAt (columnKey kind target sample.property) + 1 < u64Limit := by
  unfold append at appended
  split at appended
  · cases appended
  · simp only at appended
    split at appended
    · cases appended
    next column found =>
      split at appended
      · cases appended
      · unfold Column.insert at appended
        split at appended
        · cases appended
        next grown inserted =>
          split at inserted
          next room => simpa [cursorAt, found] using room
          · cases inserted

theorem append_appended (consistent : store.Consistent cal arith) {change : TemporalChange}
    (ran : store.append cal arith change.entityKind change.target change.sample now = (after, .ok ())) :
    Appended cal arith store [change.key] now after := by
  rcases append_cases consistent (append_room ran) now
    with ⟨error, -, refused⟩ | ⟨column, next, acceptable, again, wrote⟩
  · rw [ran] at refused
    cases refused
  · obtain rfl : after = next := congrArg Prod.fst (ran.symm.trans again)
    have has : store.columns[change.key]? = some column := acceptable.found
    have settled := consistent.columns _ column has
    change Wrote cal arith store after change.key _ _ _ _ at wrote
    constructor
    · exact wrote.consistent
    · intro other mem
      rw [mem_singleton.mp mem, has]
      rfl
    · intro other outside
      exact wrote.others other fun same => outside (mem_singleton.mpr same.symm)
    · intro other
      by_cases same : change.key = other
      · rw [← same, wrote.declared, has]
        rfl
      · rw [wrote.others other same]
    · intro other
      by_cases same : change.key = other
      · rw [← same, wrote.cursor, cursorAt_of_found has]
        omega
      · simp only [cursorAt, wrote.others other same, Nat.le_refl]
    · intro other row sample stored
      by_cases same : change.key = other
      · subst same
        rw [wrote.rows, Option.filter_eq_some_iff, getElem?_insert] at stored
        rw [rowsAt_of_found has, cursorAt_of_found has]
        obtain ⟨kept, -⟩ := stored
        split at kept
        next last => exact .inr (by omega)
        · exact .inl kept
      · left
        simpa only [rowsAt, wrote.others other same] using stored
    · intro other found row sample located stored
      by_cases same : change.key = other
      · subst same
        obtain rfl := Option.some.inj (has.symm.trans located)
        have prior := settled.sound.below row sample stored
        rw [wrote.rows, getElem?_insert, if_neg (by omega), stored, Option.filter_some]
        split
        · exact .inl rfl
        next behind =>
          refine .inr ⟨rfl, ?_⟩
          simp only [decide_eq_true_eq] at behind
          omega
      · left
        simp only [rowsAt, wrote.others other same, located, Option.map_some, Option.getD_some, stored]
    · exact wrote.definitions

theorem Appended.trans {more : List Key} {first second third : TemporalStore K A}
    (one : Appended cal arithmetic first targets now second)
    (two : Appended cal arithmetic second more now third)
    (consistent : first.Consistent cal arithmetic) :
    Appended cal arithmetic first (targets ++ more) now third where
  consistent := two.consistent
  present := by
    intro column mem
    rcases mem_append.mp mem with early | late
    · exact one.present column early
    · exact (isSome_of_declared (one.declared column)).symm.trans (two.present column late)
  others := by
    intro column outside
    rw [mem_append, not_or] at outside
    rw [two.others column outside.2, one.others column outside.1]
  declared := fun column => (two.declared column).trans (one.declared column)
  cursor := fun column => (one.cursor column).trans (two.cursor column)
  fresh := by
    intro column row sample stored
    rcases two.fresh column row sample stored with early | late
    · exact one.fresh column row sample early
    · have grown := one.cursor column
      exact .inr (by omega)
  stale := by
    intro column found row sample located stored
    have numbered := (consistent.columns column found located).sound.below row sample stored
    have cursor : first.cursorAt column = found.nextRow := cursorAt_of_found located
    have grown := one.cursor column
    -- the column of the second store has the same declaration, and so the same horizon
    have kept := one.declared column
    rw [located, Option.map_some, Option.map_eq_some_iff] at kept
    obtain ⟨middle, located', sameDeclaration⟩ := kept
    rcases one.stale column found row sample located stored with survives | ⟨gone, behind⟩
    · rw [rowsAt_of_found located'] at survives
      have later := two.stale column middle row sample located' survives
      rwa [sameDeclaration] at later
    · right
      refine ⟨?_, behind⟩
      cases again : (third.rowsAt column)[row]? with
      | none => rfl
      | some returned =>
        rcases two.fresh column row returned again with early | late
        · rw [gone] at early
          cases early
        · omega
  definitions := fun name => (two.definitions name).trans (one.definitions name)

theorem appendAll_appended (consistent : store.Consistent cal arith) {changes : List TemporalChange}
    (ran : store.appendAll cal arith changes now = .ok after) :
    Appended cal arith store (changes.map TemporalChange.key) now after := by
  induction changes generalizing store with
  | nil =>
    obtain rfl : store = after := Except.ok.inj ran
    refine ⟨consistent, nofun, fun _ _ => rfl, fun _ => rfl, fun _ => Nat.le_refl _,
      fun _ _ _ => .inl, ?_, fun _ => rfl⟩
    intro column found row sample located stored
    rw [rowsAt_of_found located]
    exact .inl stored
  | cons change rest ih =>
    unfold appendAll at ran
    rw [foldlM_cons] at ran
    obtain ⟨middle, stepped, continued⟩ := bind_eq_ok.mp ran
    split at stepped
    · cases stepped
    next next' appended =>
      obtain rfl := Except.ok.inj stepped
      have one := append_appended consistent appended
      exact one.trans (ih one.consistent continued) consistent

theorem Appended.row {before : TemporalStore K A}
    (appended : Appended cal arith before targets now after) (column : Key) (row : Nat) :
    (after.rowsAt column)[row]? = (before.rowsAt column)[row]? ∨ column ∈ targets ∧
      ((∃ found sample, before.columns[column]? = some found ∧ found.rows[row]? = some sample ∧
          (after.rowsAt column)[row]? = none ∧ sample.eventTimeNanos < horizon found.declaration now) ∨
        (before.rowsAt column)[row]? = none ∧ before.cursorAt column ≤ row) := by
  by_cases mem : column ∈ targets
  · obtain ⟨found, located⟩ := Option.isSome_iff_exists.mp (appended.present column mem)
    cases old : (before.rowsAt column)[row]? with
    | some sample =>
      have stored := rowsAt_of_found located ▸ old
      rcases appended.stale column found row sample located stored with survives | ⟨gone, behind⟩
      · exact .inl survives
      · exact .inr ⟨mem, .inl ⟨found, sample, located, stored, gone, behind⟩⟩
    | none =>
      cases recent : (after.rowsAt column)[row]? with
      | none => exact .inl rfl
      | some sample =>
        rcases appended.fresh column row sample recent with early | late
        · rw [old] at early
          cases early
        · exact .inr ⟨mem, .inr ⟨rfl, late⟩⟩
  · left
    simp only [rowsAt, appended.others column mem]

end Append

section Covered

variable {next : TemporalStore K A}

theorem selected_bounded (consistent : store.Consistent cal arith) {column : Key} {found : Column}
    (located : store.columns[column]? = some found) {oldest : Int} {row : Nat}
    (mem : row ∈ found.expiredRows oldest) : row < u64Limit := by
  have indexed := (consistent.columns column found located).sound.toIndexed
  obtain ⟨sample, stored, -⟩ := (Column.mem_expiredRows indexed).mp mem
  exact Nat.lt_trans (indexed.below row sample stored) indexed.cursor

theorem preparePersistence_selects (consistent : store.Consistent cal arith)
    (has : ∀ column ∈ targets, (store.columns[column]?).isSome)
    (kept : ∀ column ∈ targets, (next.columns[column]?).isSome) :
    Selects (store.preparePersistence targets now) next := by
  intro column entry chosen
  rw [preparePersistence_columns] at chosen
  split at chosen
  next mem =>
    obtain rfl := Option.some.inj chosen
    obtain ⟨found, located⟩ := Option.isSome_iff_exists.mp (has column mem)
    refine ⟨kept column mem, ?_⟩
    simp only [selected, located]
    exact fun row => selected_bounded consistent located
  · cases chosen

theorem Covers.row {operations : List RecordOp} (consistent : store.Consistent cal arith)
    {column : Key} (mem : column ∈ targets)
    (covers : Covers codecs next (store.preparePersistence targets now) operations) (row : Nat)
    (touched : (∃ found sample, store.columns[column]? = some found ∧ found.rows[row]? = some sample ∧
        (next.rowsAt column)[row]? = none ∧ sample.eventTimeNanos < horizon found.declaration now) ∨
      store.cursorAt column ≤ row ∧ (next.rowsAt column)[row]? ≠ none) :
    Mentions codecs next operations (.sample column row) := by
  have chosen : (store.preparePersistence targets now).columns[column]? =
      some (store.selected now column) := by
    rw [preparePersistence_columns, if_pos mem]
  rcases touched with ⟨found, sample, located, stored, gone, behind⟩ | ⟨recent, there⟩
  · have indexed := (consistent.columns column found located).sound.toIndexed
    refine covers.expired column _ chosen row ?_ (by rw [value_sample, gone]; rfl)
    simp only [selected, located]
    exact (Column.mem_expiredRows indexed).mpr ⟨sample, stored, behind⟩
  · refine covers.appended column _ chosen row ?_ ?_
    · unfold selected
      unfold cursorAt at recent
      split
      next found located => simpa [located] using recent
      · exact Nat.zero_le row
    · rw [value_sample]
      simpa using there

end Covered

section Publish

variable {middle next : TemporalStore K A} {operations columns : List RecordOp}
  {more : List RecordOp} {recs : RecordMap}

theorem Appended.covered_row (consistent : store.Consistent cal arith)
    (appended : Appended cal arith store targets now middle)
    (rows : next.rowsAt column = middle.rowsAt column)
    (covers : Covers codecs next (store.preparePersistence targets now) columns) (row : Nat) :
    (sample column row).value codecs store = (sample column row).value codecs next ∨
      Mentions codecs next columns (.sample column row) := by
  rw [value_sample, value_sample]
  have changed := appended.row column row
  rw [← rows] at changed
  rcases changed with same | ⟨mem, touched⟩
  · exact .inl (by rw [same])
  · by_cases there : (next.rowsAt column)[row]? = none
    · rcases touched with expired | ⟨absent, -⟩
      · exact .inr (covers.row consistent mem row (.inl expired))
      · exact .inl (by rw [there, absent])
    · rcases touched with ⟨_, _, _, _, gone, _⟩ | ⟨-, recent⟩
      · exact absurd gone there
      · exact .inr (covers.row consistent mem row (.inr ⟨recent, there⟩))

theorem Appended.covered_cursor (appended : Appended cal arith store targets now middle)
    (cursor : next.cursorAt column = middle.cursorAt column)
    (declaration : next.columns[column]?.map (·.declaration) =
      middle.columns[column]?.map (·.declaration))
    (covers : Covers codecs next (store.preparePersistence targets now) columns) :
    (TemporalRecord.cursor column).value codecs store =
      (TemporalRecord.cursor column).value codecs next ∨
      Mentions codecs next columns (.cursor column) := by
  by_cases mem : column ∈ targets
  · right
    exact (covers.columns column (store.selected now column)
      (by rw [preparePersistence_columns, if_pos mem])).2
  · left
    rw [value_cursor, value_cursor, declaration, cursor, appended.declared]
    simp only [cursorAt, appended.others column mem]

theorem Appended.covered (consistent : store.Consistent cal arithmetic)
    (appended : Appended cal arithmetic store targets now middle)
    (rows : ∀ column, next.rowsAt column = middle.rowsAt column)
    (cursors : ∀ column, next.cursorAt column = middle.cursorAt column) (declarations : ∀ column : Key,
      next.columns[column]?.map (·.declaration) = middle.columns[column]?.map (·.declaration))
    (covers : Covers codecs next (store.preparePersistence targets now) columns)
    (record : TemporalRecord) (other : ¬ record.IsRollup) :
    record.value codecs store = record.value codecs next ∨ Mentions codecs next columns record := by
  cases record with
  | rollup name => exact absurd trivial other
  | declaration column =>
    left
    rw [value_declaration, value_declaration, declarations, appended.declared]
  | cursor column => exact appended.covered_cursor (cursors column) (declarations column) covers
  | sample column row => exact appended.covered_row consistent (rows column) covers row

variable {declaration : TemporalDeclaration}

theorem prepareDeclarationPersistence_selects (consistent : store.Consistent cal arith)
    (kept : (next.columns[declaration.key]?).isSome) :
    Selects (store.prepareDeclarationPersistence declaration now) next := by
  intro column entry chosen
  rw [prepareDeclarationPersistence_columns] at chosen
  split at chosen
  next same =>
    subst same
    obtain rfl := Option.some.inj chosen
    refine ⟨kept, ?_⟩
    cases located : store.columns[declaration.key]? with
    | none => simp
    | some found => exact fun row => selected_bounded consistent located
  · cases chosen

theorem redeclared_row (consistent : store.Consistent cal arith)
    (appended : Appended cal arith store targets now middle)
    (wrote : Wrote cal arith middle next declaration.key declaration (middle.rowsAt declaration.key)
      (middle.cursorAt declaration.key) (horizon declaration now))
    (covers : Covers codecs next (store.preparePersistence targets now) columns)
    (covers' : Covers codecs next (store.prepareDeclarationPersistence declaration now) more)
    (row : Nat) :
    (sample declaration.key row).value codecs store =
        (sample declaration.key row).value codecs next ∨
      Mentions codecs next columns (.sample declaration.key row) ∨
      Mentions codecs next more (.sample declaration.key row) := by
  have cut := wrote.rows row
  rw [value_sample, value_sample]
  rcases appended.row declaration.key row
    with same | ⟨mem, ⟨found, sample, located, stored, gone, behind⟩ | ⟨absent, recent⟩⟩
  · rw [same] at cut
    cases old : (store.rowsAt declaration.key)[row]? with
    | none =>
      rw [old] at cut
      exact .inl (by rw [cut]; rfl)
    | some sample =>
      rw [old, Option.filter_some] at cut
      split at cut
      · exact .inl (by rw [cut])
      next late =>
        -- the sample was there, and the incoming declaration's horizon has passed it
        right
        right
        simp only [decide_eq_true_eq, Int.not_le] at late
        cases located : store.columns[declaration.key]? with
        | none => simp [rowsAt, located] at old
        | some found =>
          have indexed := (consistent.columns _ found located).sound.toIndexed
          have chosen := prepareDeclarationPersistence_columns store declaration now declaration.key
          rw [if_pos rfl] at chosen
          refine covers'.expired declaration.key _ chosen row ?_ (by rw [value_sample, cut]; rfl)
          rw [located]
          exact (Column.mem_expiredRows indexed).mpr ⟨sample, rowsAt_of_found located ▸ old, late⟩
  · rw [gone] at cut
    exact .inr (.inl (covers.row consistent mem row (.inl ⟨found, sample, located, stored,
      cut, behind⟩)))
  · by_cases there : (next.rowsAt declaration.key)[row]? = none
    · exact .inl (by rw [absent, there])
    · exact .inr (.inl (covers.row consistent mem row (.inr ⟨recent, there⟩)))

theorem redeclared_covered (consistent : store.Consistent cal arithmetic)
    (appended : Appended cal arithmetic store targets now middle)
    (wrote : Wrote cal arithmetic middle next declaration.key declaration
      (middle.rowsAt declaration.key) (middle.cursorAt declaration.key) (horizon declaration now))
    (covers : Covers codecs next (store.preparePersistence targets now) columns)
    (covers' : Covers codecs next (store.prepareDeclarationPersistence declaration now) more)
    (record : TemporalRecord) (other : ¬ record.IsRollup) :
    record.value codecs store = record.value codecs next ∨
      Mentions codecs next columns record ∨ Mentions codecs next more record := by
  have chosen := prepareDeclarationPersistence_columns store declaration now declaration.key
  rw [if_pos rfl] at chosen
  obtain ⟨redeclared, renumbered⟩ := covers'.columns declaration.key _ chosen
  have elsewhere : ∀ column, declaration.key ≠ column → next.rowsAt column = middle.rowsAt column ∧
      next.cursorAt column = middle.cursorAt column ∧
      next.columns[column]?.map (·.declaration) = middle.columns[column]?.map (·.declaration) := by
    intro column different
    simp only [rowsAt, cursorAt, wrote.others column different, true_and]
  cases record with
  | rollup name => exact absurd trivial other
  | declaration column =>
    by_cases same : declaration.key = column
    · exact .inr (.inr (same ▸ redeclared))
    · left
      rw [value_declaration, value_declaration, (elsewhere column same).2.2, appended.declared]
  | cursor column =>
    by_cases same : declaration.key = column
    · exact .inr (.inr (same ▸ renumbered))
    · obtain ⟨-, cursor, declared⟩ := elsewhere column same
      exact (appended.covered_cursor cursor declared covers).imp_right .inl
  | sample column row =>
    by_cases same : declaration.key = column
    · exact same ▸ redeclared_row consistent appended wrote covers covers' row
    · exact (appended.covered_row consistent (elsewhere column same).1 covers row).imp_right .inl

theorem Covers.sweeps {selection : TemporalPersistenceSelection}
    (consistent : next.Consistent cal arith) (covers : Covers codecs next selection columns)
    (catalog : Bool) :
    Sweeps codecs next ((if catalog then next.catalogChanges codecs else []) ++ columns) := by
  intro op mem
  rcases mem_append.mp mem with listed | listed
  · cases catalog with
    | true => exact catalogChanges_sweeps consistent op listed
    | false => cases listed
  · exact .inr (covers.truths op listed)

theorem administer_declare (consistent : store.Consistent cal arith)
    (ran : store.administer cal arith now (some (.declare declaration)) = .ok next) :
    Wrote cal arith store next declaration.key declaration (store.rowsAt declaration.key)
      (store.cursorAt declaration.key) (horizon declaration now) := by
  rcases declare_cases consistent declaration now with ⟨error, -, refused⟩ | ⟨later, valid, wrote⟩
  · simp only [administer, refused] at ran
    cases ran
  · simp only [administer, valid] at ran
    exact Except.ok.inj ran ▸ wrote

theorem administer_createRollup {defn : TemporalRollupDefinition}
    (consistent : store.Consistent cal arith)
    (ran : store.administer cal arith now (some (.createRollup defn)) = .ok next) :
    Created cal arith store defn next := by
  rcases createRollup_cases consistent defn with ⟨error, -, refused⟩ | ⟨later, valid, created⟩
  · simp only [administer, refused] at ran
    cases ran
  · simp only [administer, valid] at ran
    exact Except.ok.inj ran ▸ created

theorem publish_persisted (consistent : store.Consistent cal arith)
    (persisted : Persisted codecs store recs) {cmd : TemporalCommand} {recs' : RecordMap}
    (ran : TemporalStore.publish codecs cal arith (store, recs) cmd = .ok (next, recs')) :
    next.Consistent cal arith ∧ Persisted codecs next recs' := by
  obtain ⟨after, carried, ran⟩ := bind_eq_ok.mp ran
  obtain ⟨middle, appended, administered⟩ := bind_eq_ok.mp carried
  obtain ⟨operations, changed, ran⟩ := bind_eq_ok.mp ran
  obtain ⟨decls, redeclared, ran⟩ := bind_eq_ok.mp ran
  obtain ⟨rfl, rfl⟩ := Prod.mk.inj (Except.ok.inj ran)
  have appended := appendAll_appended consistent appended
  -- a store in which every target still has its declaration meets the first selection
  have selects : ∀ {later : TemporalStore K A}, (∀ column : Key, (middle.columns[column]?).isSome →
      (later.columns[column]?).isSome) →
        Selects (store.preparePersistence (cmd.changes.map TemporalChange.key) cmd.now) later := by
    intro later kept
    refine preparePersistence_selects consistent appended.present fun column mem => kept column ?_
    exact (isSome_of_declared (appended.declared column)).trans (appended.present column mem)
  cases administrative : cmd.administrative with
  | none =>
    rw [administrative] at administered changed redeclared
    obtain rfl : middle = after := Except.ok.inj administered
    obtain rfl : [] = decls := Except.ok.inj redeclared
    obtain ⟨columns, rfl, covers⟩ :=
      persistenceChanges_covers appended.consistent (selects fun _ => id) changed
    refine ⟨appended.consistent, persisted.advance ?_ ?_ ?_⟩
    · rw [append_nil]
      exact covers.sweeps appended.consistent false
    · intro record _ other
      simpa using appended.covered consistent (fun _ => rfl) (fun _ => rfl) (fun _ =>
        rfl) covers record other
    · intro name
      have same : (rollup name).value codecs store = (rollup name).value codecs middle := by
        rw [value_rollup, value_rollup, appended.definitions]
      rw [append_nil]
      refine applyOperations_settle (show (rollup name).Valid from trivial)
        (fun op mem => .inr (covers.truths op mem)) (.inl ?_)
      rw [persisted.values _ (show (rollup name).Valid from trivial), same]
  | some administrative' =>
    rw [administrative] at administered changed redeclared
    cases administrative' with
    | declare declaration =>
      have wrote := administer_declare appended.consistent administered
      have there : (after.columns[declaration.key]?).isSome := by
        have declared := congrArg Option.isSome wrote.declared
        rwa [Option.isSome_map] at declared
      have kept : ∀ column : Key, (middle.columns[column]?).isSome →
          (after.columns[column]?).isSome := by
        intro column has
        by_cases same : declaration.key = column
        · exact same ▸ there
        · rwa [wrote.others column same]
      obtain ⟨columns, rfl, covers⟩ := persistenceChanges_covers wrote.consistent (selects kept) changed
      obtain ⟨more, rfl, covers'⟩ := persistenceChanges_covers wrote.consistent
        (prepareDeclarationPersistence_selects consistent there) redeclared
      refine ⟨wrote.consistent, persisted.advance ?_ ?_ ?_⟩
      · intro op mem
        rcases mem_append.mp mem with listed | listed
        · exact covers.sweeps wrote.consistent true op listed
        · exact covers'.sweeps wrote.consistent true op listed
      · intro record _ other
        refine (redeclared_covered consistent appended wrote covers covers' record other).imp_right ?_
        rintro (mentioned | mentioned)
        · exact mentioned.mono fun _ listed => mem_append_left _ (mem_append_right _ listed)
        · exact mentioned.mono fun _ listed => mem_append_right _ (mem_append_right _ listed)
      · intro name
        rw [applyOperations_append]
        exact catalog_settles_rollup wrote.consistent covers'.truths _ name
    | createRollup defn =>
      obtain rfl : [] = decls := Except.ok.inj redeclared
      have created := administer_createRollup appended.consistent administered
      have kept : ∀ column : Key, (middle.columns[column]?).isSome → (after.columns[column]?).isSome :=
        fun column has => (isSome_of_declared (created.declarations column)).trans has
      obtain ⟨columns, rfl, covers⟩ :=
        persistenceChanges_covers created.consistent (selects kept) changed
      refine ⟨created.consistent, persisted.advance ?_ ?_ ?_⟩
      · rw [append_nil]
        exact covers.sweeps created.consistent true
      · intro record _ other
        rw [append_nil]
        refine (appended.covered consistent created.rows created.cursors
          created.declarations covers record
          other).imp_right fun mentioned => mentioned.mono (subset_append_right _ _)
      · intro name
        rw [append_nil]
        exact catalog_settles_rollup created.consistent covers.truths _ name

theorem administer_cursor {administrative : Option TemporalAdministrative}
    (consistent : store.Consistent cal arith)
    (ran : store.administer cal arith now administrative = .ok next) (column : Key) :
    next.cursorAt column = store.cursorAt column := by
  cases administrative with
  | none => rw [Except.ok.inj ran]
  | some administrative =>
    cases administrative with
    | declare declaration =>
      have wrote := administer_declare consistent ran
      by_cases same : declaration.key = column
      · rw [← same, wrote.cursor]
      · simp only [cursorAt, wrote.others column same]
    | createRollup defn => exact (administer_createRollup consistent ran).cursors column

theorem publish_ok {cmd : TemporalCommand} (codecs : TemporalCodecs)
    (consistent : store.Consistent cal arith) (carried : store.carryOut cal arith cmd = .ok next)
    (recs : RecordMap) :
    ∃ recs', TemporalStore.publish codecs cal arith (store, recs) cmd = .ok (next, recs') := by
  obtain ⟨middle, appended, administered⟩ := bind_eq_ok.mp carried
  have appended := appendAll_appended consistent appended
  have cursors := administer_cursor appended.consistent administered
  have grown : ∀ column, store.cursorAt column ≤ next.cursorAt column := by
    intro column
    rw [cursors]
    exact appended.cursor column
  have first : ∀ (column : Key) entry,
      (store.preparePersistence (cmd.changes.map TemporalChange.key) cmd.now).columns[column]? =
        some entry → entry.1 ≤ next.cursorAt column := by
    intro column entry chosen
    rw [preparePersistence_columns] at chosen
    split at chosen
    · obtain rfl := Option.some.inj chosen
      have reached := grown column
      unfold selected
      split
      next found located => rwa [cursorAt_of_found located] at reached
      · exact Nat.zero_le _
    · cases chosen
  obtain ⟨operations, changed⟩ := persistenceChanges_ok codecs first cmd.administrative.isSome
  have second : ∃ decls, next.declarationChanges codecs cmd.administrative.isSome
      (store.declaredSelection cmd.now cmd.administrative) = .ok decls := by
    match cmd.administrative with
    | some (.declare incoming) =>
      apply persistenceChanges_ok codecs
      intro column entry chosen
      rw [prepareDeclarationPersistence_columns] at chosen
      split at chosen
      · obtain rfl := Option.some.inj chosen
        exact grown column
      · cases chosen
    | some (.createRollup _) => exact ⟨[], rfl⟩
    | none => exact ⟨[], rfl⟩
  obtain ⟨decls, redeclared⟩ := second
  exact ⟨_, bind_eq_ok.mpr ⟨next, carried, bind_eq_ok.mpr ⟨operations, changed,
    bind_eq_ok.mpr ⟨decls, redeclared, rfl⟩⟩⟩⟩

theorem published_persisted (consistent : store.Consistent cal arith)
    (persisted : Persisted codecs store recs) {cmds : List TemporalCommand}
    (ran : cmds.foldlM (carryOut cal arith) store = .ok next) :
    ∃ recs', cmds.foldlM (TemporalStore.publish codecs cal arith) (store, recs) = .ok (next, recs') ∧
      next.Consistent cal arith ∧ Persisted codecs next recs' := by
  induction cmds generalizing store recs with
  | nil =>
    obtain rfl : store = next := Except.ok.inj ran
    exact ⟨recs, rfl, consistent, persisted⟩
  | cons cmd rest ih =>
    rw [foldlM_cons] at ran
    obtain ⟨middle, carried, ran⟩ := bind_eq_ok.mp ran
    obtain ⟨between, published⟩ := publish_ok codecs consistent carried recs
    obtain ⟨consistent, persisted⟩ := publish_persisted consistent persisted published
    obtain ⟨recs', continued, kept⟩ := ih consistent persisted ran
    refine ⟨recs', ?_, kept⟩
    rw [foldlM_cons]
    exact bind_eq_ok.mpr ⟨(middle, between), published, continued⟩

end Publish

end IronGraph.Temporal

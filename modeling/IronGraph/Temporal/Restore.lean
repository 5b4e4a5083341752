import IronGraph.Temporal.Publish
import IronGraph.Temporal.History

/-!
A store restored from its records is the store itself. The records come in key order; the fold over
them keeps a store that agrees with the live one on every record that is no longer pending.
-/

namespace IronGraph.Temporal

open List hiding getElem?_insert
open Std Outcome OrderedMap Persistence FixedBytes TemporalStore TemporalRecord Option UInt64

variable {K A : Type} [Quantity K] {store : TemporalStore K A} {row other : Nat} {cal : Calendar}
  {arith arithmetic : Arithmetic K A} {pending : List Bytes} {codecs : TemporalCodecs}

section Extensionality

namespace Column

variable {first second : Column} {entity : Nat}

theorem IsCurrent.unique {column : Column} (current : column.IsCurrent entity row)
    (also : column.IsCurrent entity other) : row = other := by
  obtain ⟨sample, stored, owned, newest⟩ := current
  obtain ⟨rival, has, rivals, newest'⟩ := also
  obtain ⟨behind, prior⟩ := newest other rival has rivals
  obtain ⟨behind', prior'⟩ := newest' row sample stored owned
  have forward := prior behind'
  have backward := prior' behind
  omega

theorem RowOf.congr (rows : first.rows = second.rows) : first.RowOf entity row ↔
    second.RowOf entity row := by
  unfold RowOf
  rw [rows]

theorem IsCurrent.congr (rows : first.rows = second.rows) :
    first.IsCurrent entity row ↔ second.IsCurrent entity row := by
  unfold IsCurrent
  rw [rows]

variable (sound : first.Sound) (alsoSound : second.Sound)
include sound alsoSound

theorem Sound.entities_eq (rows : first.rows = second.rows) : first.entities = second.entities := by
  have listed : ∀ entity row, row ∈ first.entities.getD entity ∅ ↔
      row ∈ second.entities.getD entity ∅ := by
    intro entity row
    rw [sound.listed, alsoSound.listed, RowOf.congr rows]
  have occupied : ∀ {one two : Column}, one.Sound → one.rows = two.rows → two.Sound → ∀ entity : Nat,
      (one.entities[entity]?).isSome → (two.entities[entity]?).isSome := by
    intro one two sound rows alsoSound entity has
    obtain ⟨row, owned⟩ := sound.occupied entity has
    have mem := (alsoSound.listed entity row).mpr ((RowOf.congr rows).mp owned)
    rw [ExtTreeMap.getD_eq_getD_getElem?] at mem
    cases found : two.entities[entity]? with
    | none => simp [found] at mem
    | some _ => rfl
  apply ExtTreeMap.ext_getElem?
  intro entity
  have forward := occupied sound rows alsoSound entity
  have backward := occupied alsoSound rows.symm sound entity
  cases one : first.entities[entity]? with
  | none =>
    cases two : second.entities[entity]? with
    | none => rfl
    | some _ => simp [one, two] at backward
  | some left =>
    cases two : second.entities[entity]? with
    | none => simp [one, two] at forward
    | some right =>
      congr 1
      apply ExtTreeSet.ext_mem
      intro row
      simpa [ExtTreeMap.getD_eq_getD_getElem?, one, two] using listed entity row

theorem Sound.current_eq (rows : first.rows = second.rows) : first.current = second.current := by
  apply ExtTreeMap.ext_getElem?
  intro entity
  have one := sound.pointed entity
  have two := alsoSound.pointed entity
  cases pointer : first.current[entity]? with
  | none =>
    rw [pointer] at one
    cases pointer' : second.current[entity]? with
    | none => rfl
    | some row =>
      rw [pointer'] at two
      obtain ⟨sample, stored, owned, -⟩ := two
      exact absurd ⟨sample, rows ▸ stored, owned⟩ (one row)
  | some row =>
    rw [pointer] at one
    cases pointer' : second.current[entity]? with
    | none =>
      rw [pointer'] at two
      obtain ⟨sample, stored, owned, -⟩ := one
      exact absurd ⟨sample, rows ▸ stored, owned⟩ (two row)
    | some other =>
      rw [pointer'] at two
      rw [((IsCurrent.congr rows).mp one).unique two]

theorem Sound.ext (decl : first.declaration = second.declaration)
    (rows : first.rows = second.rows) (cursor : first.nextRow = second.nextRow)
    (rollups : first.rollups = second.rollups) : first = second := by
  have entities := sound.entities_eq alsoSound rows
  have current := sound.current_eq alsoSound rows
  have expiry : first.expiry = second.expiry := by
    apply ExtTreeSet.ext_mem
    rintro ⟨time, row⟩
    rw [sound.timed, alsoSound.timed, rows]
  cases first
  cases second
  simp_all

end Column

variable [AddCommGroup A]

theorem Consistent.ext {first second : TemporalStore K A} (consistent : first.Consistent cal arith)
    (also : second.Consistent cal arith) (decls : ∀ column : Key,
      first.columns[column]?.map (·.declaration) = second.columns[column]?.map (·.declaration))
    (rows : ∀ column, first.rowsAt column = second.rowsAt column)
    (cursors : ∀ column, first.cursorAt column = second.cursorAt column)
    (definitions : ∀ name : String, first.rollups[name]?.map (·.definition) =
    second.rollups[name]?.map (·.definition)) : first = second := by
  have listed (any : TemporalStore K A) (column : Key) (name : String) :
      (∃ rollup : Rollup K A, any.rollups[name]? = some rollup ∧ rollup.definition.key = column) ↔
        ∃ defn, any.rollups[name]?.map (·.definition) = some defn ∧ defn.key = column := by
    simp [map_eq_some_iff]
  have columns : first.columns = second.columns := by
    refine ext_of_part _ decls fun column one two found there equal => ?_
    have settled := consistent.columns column one found
    have settled' := also.columns column two there
    apply settled.sound.ext settled'.sound equal
    · rw [← rowsAt_of_found found, ← rowsAt_of_found there, rows]
    · rw [← cursorAt_of_found found, ← cursorAt_of_found there, cursors]
    · apply ExtTreeSet.ext_mem
      intro name
      rw [settled.listed, settled'.listed, listed, listed, definitions]
  have rollups : first.rollups = second.rollups := by
    refine ext_of_part _ definitions fun name one two found there equal => ?_
    obtain ⟨column, has⟩ := isSome_iff_exists.mp (consistent.rollups name one found).2
    -- both are the totals of the same rows of the same column
    have settled := consistent.columns _ column has
    have settled' := also.columns _ column (columns ▸ has)
    obtain ⟨one', again, maintained⟩ :=
      settled.served name ((settled.listed name).mpr ⟨one, found, rfl⟩)
    obtain rfl := some.inj (found.symm.trans again)
    obtain ⟨two', again', maintained'⟩ :=
      settled'.served name ((settled'.listed name).mpr ⟨two, there, equal ▸ rfl⟩)
    obtain rfl := some.inj (there.symm.trans again')
    exact maintained.totals.unique maintained'.totals equal
  cases first
  cases second
  simp_all

end Extensionality

section Order

theorem compare_bytes_of_digit {first second : TemporalRecord} (below : first.digit < second.digit) :
    compare first.bytes second.bytes = .lt := by
  have order : compare first.digit second.digit = .lt := compare_eq_lt.mpr below
  rw [bytes_eq, bytes_eq]
  simp [List.compare_cons_cons, order]

theorem compare_sample (column : Key) (below : row < other) (bound : other < u64Limit) :
    compare (sample column row).bytes (sample column other).bytes = .lt := by
  have numbers : ofNat row < ofNat other := by
    unfold u64Limit at bound
    rw [lt_iff_toNat_lt, toNat_ofNat_of_lt' (below.trans bound), toNat_ofNat_of_lt' bound]
    exact below
  simp only [bytes, sampleRecord, key]
  rw [compare_append_left]
  simpa using idBytes_lt numbers

variable {head : Bytes}

theorem not_pending_of_lt (ordered : (head :: pending).Pairwise fun first second =>
    compare first second = .lt)
    {key : Bytes} (below : compare key head = .lt) : key ∉ head :: pending := by
  intro mem
  rcases mem_cons.mp mem with rfl | later
  · rw [ReflOrd.compare_self] at below
    cases below
  · have above := (pairwise_cons.mp ordered).1 key later
    rw [OrientedOrd.eq_swap, above] at below
    cases below

theorem head_not_pending (ordered : (head :: pending).Pairwise fun first second =>
    compare first second = .lt) : head ∉ pending := by
  intro mem
  have above := (pairwise_cons.mp ordered).1 head mem
  rw [ReflOrd.compare_self] at above
  cases above

theorem pending_tail (record other : TemporalRecord) (valid : record.Valid) (alsoValid : other.Valid)
    (apart : other ≠ record) : other.bytes ∈ record.bytes :: pending ↔ other.bytes ∈ pending := by
  rw [mem_cons]
  constructor
  · rintro (same | later)
    · exact absurd (bytes_injective alsoValid valid same) apart
    · exact later
  · exact .inr

end Order

section Parse

theorem parseColumn_columnIds {column : Key} (kind : column.1 = 0 ∨ column.1 = 1) :
    parseColumn ((columnIds column).flatMap idBytes) = .ok column := by
  obtain ⟨kind', target, property⟩ := column
  have read : ids ((columnIds (kind', target, property)).flatMap idBytes) 3 = .ok [kind'.toUInt64,
      target, property] :=
    ids_flatMap (columnIds (kind', target, property))
  have two : kind'.toUInt64 = 0 ∨ kind'.toUInt64 = 1 := by
    rcases kind with rfl | rfl
    · exact .inl rfl
    · exact .inr rfl
  simp only [parseColumn, read]
  change (if kind'.toUInt64 = 0 ∨ kind'.toUInt64 = 1 then _ else _) = _
  rw [if_pos two, UInt8.toUInt8_toUInt64]

theorem kind_of_found [AddCommGroup A] (consistent : store.Consistent cal arith) {column : Key}
    {found : Column} (has : store.columns[column]? = some found) : column.1 = 0 ∨ column.1 = 1 := by
  rw [← (consistent.columns column found has).keyed]
  unfold TemporalDeclaration.key columnKey EntityKind.byte
  split <;> simp

end Parse

section Tail

variable {record : TemporalRecord} {column : Key}

/-- The pending keys, in order; what is not pending lies before all of them. -/
structure Tail (codecs : TemporalCodecs) (store : TemporalStore K A) (pending : List Bytes) : Prop where
  ordered : pending.Pairwise fun first second => compare first second = .lt
  passed : ∀ record : TemporalRecord, record.Valid → record.value codecs store ≠ none →
    record.bytes ∉ pending → ∀ key ∈ pending, compare record.bytes key = .lt

theorem Tail.done {other : TemporalRecord} (tail : Tail codecs store (record.bytes :: pending))
    (below : other.digit < record.digit) : other.bytes ∉ record.bytes :: pending :=
  not_pending_of_lt tail.ordered (compare_bytes_of_digit below)

theorem rowsAt_insert (built : TemporalStore K A) (column : Key) (next : Column) (other : Key) :
    rowsAt { built with columns := built.columns.insert column next } other =
      if column = other then next.rows else built.rowsAt other := by
  simp only [rowsAt, getElem?_insert]
  split <;> simp

theorem cursorAt_insert (built : TemporalStore K A) (column : Key) (next : Column) (other : Key) :
    cursorAt { built with columns := built.columns.insert column next } other =
      if column = other then next.nextRow else built.cursorAt other := by
  simp only [cursorAt, getElem?_insert]
  split <;> simp

theorem declared_insert {columns : ExtTreeMap Key Column} {found next : Column}
    (has : columns[column]? = some found)
    (same : next.declaration = found.declaration) (other : Key) :
    (columns.insert column next)[other]?.map Column.declaration =
      columns[other]?.map Column.declaration := by
  rw [getElem?_insert]
  split
  next here => rw [← here, has, map_some, map_some, same]
  · rfl

/-- Reading `record` brings in what the live store has for it and leaves every other record as it
was. -/
def Reveals {α : Type} (record other : TemporalRecord) (live old new : α) : Prop :=
  other = record ∧ new = live ∨ other ≠ record ∧ new = old

theorem Reveals.restored {α : Type} {other : TemporalRecord} {live old new : Option α}
    (reveals : Reveals record other live old new)
    (tail : Tail codecs store (record.bytes :: pending)) (valid : record.Valid)
    (alsoValid : other.Valid)
    (before : old = if other.bytes ∈ record.bytes :: pending then none else live) :
    new = if other.bytes ∈ pending then none else live := by
  rcases reveals with ⟨rfl, now⟩ | ⟨apart, now⟩
  · rw [now, if_neg (head_not_pending tail.ordered)]
  · rw [now, before, if_congr (pending_tail record other valid alsoValid apart) rfl rfl]

theorem Tail.rest {head : Bytes} (tail : Tail codecs store (head :: pending)) :
    Tail codecs store pending where
  ordered := (pairwise_cons.mp tail.ordered).2
  passed := by
    intro record valid has done key later
    by_cases first : record.bytes = head
    · rw [first]
      exact (pairwise_cons.mp tail.ordered).1 key later
    · refine tail.passed record valid has ?_ key (mem_cons_of_mem _ later)
      rw [mem_cons, not_or]
      exact ⟨first, done⟩

end Tail

variable [AddCommGroup A]

/-- A store that agrees with the live one on every record that is no longer pending. -/
structure Restoring (calendar : Calendar) (arithmetic : Arithmetic K A) (store : TemporalStore K A)
    (pending : List Bytes) (built : TemporalStore K A) : Prop where
  consistent : built.Consistent calendar arithmetic
  declarations : ∀ column : Key, built.columns[column]?.map (·.declaration) =
    if (declaration column).bytes ∈ pending then none else store.columns[column]?.map (·.declaration)
  rows : ∀ (column : Key) (row : Nat), row < u64Limit → (built.rowsAt column)[row]? =
    if (sample column row).bytes ∈ pending then none else (store.rowsAt column)[row]?
  cursors : ∀ column, (cursor column).bytes ∉ pending → built.cursorAt column = store.cursorAt column
  behind : ∀ column, built.cursorAt column ≤ store.cursorAt column
  ahead : ∀ (column : Key) (row : Nat), row < u64Limit → (sample column row).bytes ∈ pending →
    built.cursorAt column ≤ row
  definitions : ∀ name : String, built.rollups[name]?.map (·.definition) =
    if (rollup name).bytes ∈ pending then none else store.rollups[name]?.map (·.definition)

theorem Restoring.eq {built : TemporalStore K A} (restoring : Restoring cal arith store [] built)
    (consistent : store.Consistent cal arith) : built = store := by
  have numbered : ∀ {any : TemporalStore K A}, any.Consistent cal arith → ∀ (column : Key) (row : Nat),
      u64Limit ≤ row → (any.rowsAt column)[row]? = none := by
    intro any consistent column row large
    cases located : any.columns[column]? with
    | none => simp [rowsAt, located]
    | some found =>
      rw [rowsAt_of_found located]
      cases stored : found.rows[row]? with
      | none => rfl
      | some sample =>
        have indexed := (consistent.columns column found located).sound.toIndexed
        have below := indexed.below row sample stored
        have cursor := indexed.cursor
        omega
  apply Consistent.ext restoring.consistent consistent
  · intro column
    simpa using restoring.declarations column
  · intro column
    apply ExtTreeMap.ext_getElem?
    intro row
    by_cases small : row < u64Limit
    · simpa using restoring.rows column row small
    · rw [numbered restoring.consistent column row (by omega),
        numbered consistent column row (by omega)]
  · exact fun column => restoring.cursors column not_mem_nil
  · intro name
    simpa using restoring.definitions name

/-- Reading a record adds what it holds to what the earlier ones have restored. -/
def Reads (codecs : TemporalCodecs) (calendar : Calendar) (arithmetic : Arithmetic K A)
    (store : TemporalStore K A) (record : TemporalRecord) : Prop :=
  ∀ {pending built value}, Tail codecs store (record.bytes :: pending) →
    Restoring calendar arithmetic store (record.bytes :: pending) built →
      record.value codecs store = some value →
    ∃ next, restorePersistenceRecord codecs calendar arithmetic built record.bytes value =
      .ok (next, true) ∧ Restoring calendar arithmetic store pending next

section Steps

variable {column : Key} {value : Bytes} {record : TemporalRecord} {built : TemporalStore K A}
  {live : Column}

theorem Restoring.no_rollup (tail : Tail codecs store (record.bytes :: pending))
    (restoring : Restoring cal arith store (record.bytes :: pending) built) (early : record.digit < 51)
    (name : String) : built.rollups[name]? = none := by
  have restored := restoring.definitions name
  rw [← map_eq_none_iff, restored]
  split
  · rfl
  next gone =>
    by_contra has
    have stored : (rollup name).value codecs store ≠ none := by
      rw [value_rollup]
      simpa using has
    have before := tail.passed (.rollup name) trivial stored gone record.bytes mem_cons_self
    rw [OrientedOrd.eq_swap, compare_bytes_of_digit (show record.digit < (rollup name).digit from
      early)] at before
    cases before

theorem Restoring.found (tail : Tail codecs store (record.bytes :: pending))
    (restoring : Restoring cal arithmetic store (record.bytes :: pending) built)
    (late : 48 < record.digit) (located : store.columns[column]? = some live) :
    ∃ found, built.columns[column]? = some found ∧ found.declaration = live.declaration := by
  have restored := restoring.declarations column
  rw [if_neg (tail.done (show (declaration column).digit < record.digit from late)),
    located] at restored
  exact map_eq_some_iff.mp restored

theorem Restoring.read {next : TemporalStore K A} (tail : Tail codecs store (record.bytes :: pending))
    (restoring : Restoring cal arith store (record.bytes :: pending) built) (valid : record.Valid)
    (consistent : next.Consistent cal arith)
    (declarations : ∀ column : Key, Reveals record (.declaration column)
      (store.columns[column]?.map (·.declaration))
      (built.columns[column]?.map (·.declaration)) (next.columns[column]?.map (·.declaration)))
    (rows : ∀ (column : Key) (row : Nat), Reveals record (.sample column row)
      (store.rowsAt column)[row]?
      (built.rowsAt column)[row]? (next.rowsAt column)[row]?)
    (cursors : ∀ column : Key, cursor column ≠ record ∧ next.cursorAt column = built.cursorAt column ∨
      next.cursorAt column ≤ store.cursorAt column ∧
        ((cursor column).bytes ∉ pending → next.cursorAt column = store.cursorAt column) ∧
        ∀ row < u64Limit, (sample column row).bytes ∈ pending → next.cursorAt column ≤ row)
    (definitions : ∀ name : String, Reveals record (.rollup name)
      (store.rollups[name]?.map (·.definition))
      (built.rollups[name]?.map (·.definition)) (next.rollups[name]?.map (·.definition))) :
    Restoring cal arith store pending next := by
  refine ⟨consistent, fun column =>
    (declarations column).restored tail valid trivial (restoring.declarations column),
    fun column row small =>
      (rows column row).restored tail valid small (restoring.rows column row small), ?_, ?_, ?_,
    fun name => (definitions name).restored tail valid trivial (restoring.definitions name)⟩
  · intro column done
    rcases cursors column with ⟨apart, same⟩ | ⟨-, reached, -⟩
    · exact same.trans (restoring.cursors column
        (mt (pending_tail record (.cursor column) valid trivial apart).mp done))
    · exact reached done
  · intro column
    rcases cursors column with ⟨-, same⟩ | ⟨behind, -⟩
    · exact same ▸ restoring.behind column
    · exact behind
  · intro column row small awaited
    rcases cursors column with ⟨-, same⟩ | ⟨-, -, ahead⟩
    · exact same ▸ restoring.ahead column row small (mem_cons_of_mem _ awaited)
    · exact ahead row small awaited

theorem declaration_reads (consistent : store.Consistent cal arith) :
    Reads codecs cal arith store (.declaration column) := by
  intro pending built value tail restoring holds
  rw [value_declaration, Option.map_map, Option.map_eq_some_iff] at holds
  obtain ⟨live, located, rfl⟩ := holds
  have settled := consistent.columns column live located
  have absent : built.columns[column]? = none := by
    have restored := restoring.declarations column
    rwa [if_pos mem_cons_self, map_eq_none_iff] at restored
  have unlisted : ∀ (name : String) (rollup : Rollup K A), built.rollups[name]? = some rollup →
      rollup.definition.key ≠ column := by
    intro name rollup stored same
    have declared := (restoring.consistent.rollups name rollup stored).2
    rw [same, absent] at declared
    cases declared
  refine ⟨{ built with columns := built.columns.insert column (Column.new live.declaration) }, ?_, ?_⟩
  · rw [bytes_eq]
    refine bind_eq_ok.mpr ⟨column, parseColumn_columnIds (kind_of_found consistent located), ?_⟩
    refine bind_eq_ok.mpr ⟨live.declaration, codecs.declaration.decode_encode live.declaration, ?_⟩
    refine bind_eq_ok.mpr ⟨(), require_eq_ok.mpr ?_, bind_eq_ok.mpr ⟨(), require_eq_ok.mpr ?_, rfl⟩⟩
    · simpa [settled.keyed] using settled.retention
    · rw [absent]
      rfl
  · -- a new column has no rows and starts at zero, as an absent one reads
    refine restoring.read tail trivial ?_ ?_ (fun other _ => .inr ⟨nofun, ?_⟩) (fun other =>
      .inl ⟨nofun, ?_⟩) fun _ => .inr ⟨nofun, rfl⟩
    · apply restoring.consistent.update (Column.new_sound live.declaration)
        settled.keyed settled.retention
      · simp [Column.Fits, Column.new]
      · intro name
        simp only [Column.new, ExtTreeSet.not_mem_empty, false_iff]
        rintro ⟨rollup, stored, same⟩
        exact unlisted name rollup stored same
      · intro name mem
        simp [Column.new] at mem
      · exact Refreshed.refl _ _
    · intro other
      by_cases same : column = other
      · exact .inl ⟨by rw [same], by simp [← same, located, Column.new]⟩
      · exact .inr ⟨by simpa using Ne.symm same, by rw [getElem?_insert, if_neg same]⟩
    · rw [rowsAt_insert]
      split
      next same => simp [Column.new, rowsAt, ← same, absent]
      · rfl
    · rw [cursorAt_insert]
      split
      next same => simp [Column.new, cursorAt, ← same, absent]
      · rfl

theorem Column.Sound.moved {found : Column} (sound : found.Sound) {cursor : Nat}
    (forward : found.nextRow ≤ cursor)
    (bound : cursor < u64Limit) : ({ found with nextRow := cursor } : Column).Sound where
  cursor := bound
  below := fun row sample stored => (sound.below row sample stored).trans_le forward
  listed := sound.listed
  timed := sound.timed
  occupied := sound.occupied
  pointed := sound.pointed

theorem cursor_reads (consistent : store.Consistent cal arith) :
    Reads codecs cal arith store (.cursor column) := by
  intro pending built value tail restoring holds
  rw [TemporalRecord.value, Option.map_eq_some_iff] at holds
  obtain ⟨live, located, rfl⟩ := holds
  have sound := (consistent.columns column live located).sound
  obtain ⟨found, has, declared⟩ := restoring.found tail (show (48 : UInt8) < 50 by decide) located
  have settled := restoring.consistent.columns column found has
  have forward : found.nextRow ≤ live.nextRow := by
    rw [← cursorAt_of_found has, ← cursorAt_of_found located]
    exact restoring.behind column
  refine ⟨{ built with columns := built.columns.insert column { found with
    nextRow := live.nextRow } }, ?_, ?_⟩
  · rw [bytes_eq]
    refine bind_eq_ok.mpr ⟨column, parseColumn_columnIds (kind_of_found consistent located), ?_⟩
    refine bind_eq_ok.mpr ⟨live.nextRow, codecs.cursor.decode_encode live.nextRow, ?_⟩
    refine bind_eq_ok.mpr ⟨found, orElse_eq_ok.mpr has, bind_eq_ok.mpr ⟨(), require_eq_ok.mpr ?_, rfl⟩⟩
    simpa using forward
  · refine restoring.read tail trivial ?_ (fun other => .inr ⟨by simp,
      declared_insert has (by rfl) other⟩)
      (fun other _ => .inr ⟨by simp, ?_⟩) (fun other => ?_) fun _ => .inr ⟨by simp, rfl⟩
    · exact restoring.consistent.update (settled.sound.moved forward sound.cursor)
        settled.keyed settled.retention
        settled.fits settled.listed settled.served (Refreshed.refl _ _)
    · rw [rowsAt_insert]
      split
      next same => rw [← same, rowsAt_of_found has]
      · rfl
    · rw [cursorAt_insert]
      by_cases same : column = other
      · subst same
        rw [if_pos rfl, cursorAt_of_found located]
        refine .inr ⟨Nat.le_refl _, fun _ => rfl, fun row _ awaited => ?_⟩
        have before : (sample column row).bytes ∉ (cursor column).bytes :: pending :=
          tail.done (show (49 : UInt8) < 50 by decide)
        exact absurd (mem_cons_of_mem _ awaited) before
      · exact .inl ⟨by simpa using Ne.symm same, if_neg same⟩

theorem take_columnIds (column : Key) (rest : Bytes) :
    ((columnIds column).flatMap idBytes ++ rest).take 24 = (columnIds column).flatMap idBytes :=
  take_left' (length_flatMap_idBytes (columnIds column))

theorem drop_columnIds (column : Key) (rest : Bytes) :
    ((columnIds column).flatMap idBytes ++ rest).drop 24 = rest :=
  drop_left' (length_flatMap_idBytes (columnIds column))

theorem restore_sample_eq (consistent : store.Consistent cal arith) {found : Column} {row : Nat}
    {sample : TemporalSample} (located : store.columns[column]? = some live)
    (stored : live.rows[row]? = some sample)
    (has : built.columns[column]? = some found) (declared : found.declaration = live.declaration)
    (forward : found.nextRow ≤ row) :
    restorePersistenceRecord codecs cal arith built (TemporalRecord.sample column row).bytes
        (codecs.sample.encode sample) =
      .ok ({ built with
        columns := built.columns.insert column (Column.withSample { found with
          nextRow := row } row sample) }, true) := by
  have settled := consistent.columns column live located
  have below := settled.sound.below row sample stored
  have cursor := settled.sound.cursor
  obtain ⟨property, valid⟩ := settled.fits row sample stored
  have kind := kind_of_found consistent located
  have number : (UInt64.ofNat row).toNat = row := UInt64.toNat_ofNat_of_lt' (below.trans cursor)
  have split : (TemporalRecord.sample column row).body =
      (columnIds column).flatMap idBytes ++ [UInt64.ofNat row].flatMap idBytes := by
    simp [body]
  have sized : (TemporalRecord.sample column row).bytes.length = 35 := by
    rw [bytes_eq, split]
    simp [columnIds]
  rw [bytes_eq] at sized ⊢
  refine bind_eq_ok.mpr ⟨(), require_eq_ok.mpr (by simpa using sized), ?_⟩
  rw [split, take_columnIds, drop_columnIds]
  refine bind_eq_ok.mpr ⟨column, parseColumn_columnIds kind, ?_⟩
  refine bind_eq_ok.mpr ⟨[ofNat row], ids_flatMap [ofNat row], ?_⟩
  refine bind_eq_ok.mpr ⟨sample, codecs.sample.decode_encode sample, ?_⟩
  refine bind_eq_ok.mpr ⟨found, orElse_eq_ok.mpr has, ?_⟩
  refine bind_eq_ok.mpr ⟨(), require_eq_ok.mpr ?_, bind_eq_ok.mpr ⟨(), require_eq_ok.mpr ?_, ?_⟩⟩
  · have keyed : column.2.2 = live.declaration.property := by rw [← settled.keyed]; rfl
    simp [declared, valid, property, keyed]
  · simpa [number] using forward
  · refine bind_eq_ok.mpr ⟨Column.withSample { found with nextRow := row } row sample, ?_, rfl⟩
    simp only [headD_cons, number, Column.insert]
    rw [if_pos (by omega)]

theorem sample_reads (consistent : store.Consistent cal arith) {row : Nat} (small : row < u64Limit) :
    Reads codecs cal arith store (.sample column row) := by
  intro pending built value tail restoring holds
  rw [TemporalRecord.value, Option.bind_eq_some_iff] at holds
  obtain ⟨live, located, holds⟩ := holds
  obtain ⟨sample, stored, rfl⟩ := map_eq_some_iff.mp holds
  have liveSettled := consistent.columns column live located
  have below := liveSettled.sound.below row sample stored
  obtain ⟨found, has, declared⟩ := restoring.found tail (show (48 : UInt8) < 49 by decide) located
  have settled := restoring.consistent.columns column found has
  have forward : found.nextRow ≤ row := by
    rw [← cursorAt_of_found has]
    exact restoring.ahead column row small mem_cons_self
  have unserved : ∀ name, name ∉ found.rollups := by
    intro name mem
    obtain ⟨rollup, there, -⟩ := (settled.listed name).mp mem
    rw [restoring.no_rollup tail (show (49 : UInt8) < 51 by decide) name] at there
    cases there
  refine ⟨_, restore_sample_eq consistent located stored has declared forward, ?_⟩
  have grown : (Column.withSample { found with nextRow := row } row sample).Sound := by
    have cursor := liveSettled.sound.cursor
    exact (settled.sound.moved forward small).withSample (show row + 1 < u64Limit by omega)
  have fits : (Column.withSample { found with nextRow := row } row sample).Fits := by
    intro other rival there
    change (found.rows.insert row sample)[other]? = some rival at there
    rcases insert_eq_some.mp there with ⟨_, rfl⟩ | ⟨_, there⟩
    · change sample.property = found.declaration.property ∧
          found.declaration.valueType.accepts sample.value = true
      rw [declared]
      exact liveSettled.fits row sample stored
    · exact settled.fits other rival there
  refine restoring.read tail small ?_ (fun other => .inr ⟨by simp,
    declared_insert has (by rfl) other⟩) (fun other number => ?_)
    (fun other => ?_) fun _ => .inr ⟨by simp, rfl⟩
  · exact restoring.consistent.update grown settled.keyed settled.retention fits settled.listed
      (fun name mem => absurd mem (unserved name)) (Refreshed.refl _ _)
  · rw [rowsAt_insert]
    by_cases same : column = other
    · subst same
      rw [if_pos rfl, rowsAt_of_found located, rowsAt_of_found has]
      change Reveals _ _ _ _ (found.rows.insert row sample)[number]?
      rw [getElem?_insert]
      by_cases this : row = number
      · exact .inl ⟨by rw [this], by rw [if_pos this, ← this, stored]⟩
      · exact .inr ⟨by simpa using Ne.symm this, if_neg this⟩
    · rw [if_neg same]
      exact .inr ⟨by simp [Ne.symm same], rfl⟩
  · rw [cursorAt_insert]
    by_cases same : column = other
    · subst same
      rw [if_pos rfl, cursorAt_of_found located]
      refine .inr ⟨below, fun done => ?_, fun number bound awaited => ?_⟩
      · -- the cursor record of this column has not been read yet
        have waits := mt (pending_tail (.sample column row) (.cursor column) small trivial
          (by simp)).mp done
        have later := tail.passed (.cursor column) trivial (by simp [value, located]) waits
          _ mem_cons_self
        have before : compare (TemporalRecord.sample column row).bytes
            (TemporalRecord.cursor column).bytes = .lt :=
          compare_bytes_of_digit (show (49 : UInt8) < 50 by decide)
        rw [OrientedOrd.eq_swap, before] at later
        cases later
      · change row + 1 ≤ number
        have above := (pairwise_cons.mp tail.ordered).1 _ awaited
        rcases Nat.lt_trichotomy number row with less | rfl | more
        · rw [OrientedOrd.eq_swap, compare_sample column less small] at above
          cases above
        · exact absurd awaited (head_not_pending tail.ordered)
        · omega
    · exact .inl ⟨by simp, if_neg same⟩

theorem Restoring.columns_done (rollup : record.digit = 51)
    (tail : Tail codecs store (record.bytes :: pending))
    (restoring : Restoring cal arith store (record.bytes :: pending) built)
    (located : store.columns[column]? = some live) :
    ∃ found, built.columns[column]? = some found ∧
      ∀ (row : Nat) sample, found.rows[row]? = some sample → live.rows[row]? = some sample := by
  obtain ⟨found, has, -⟩ := restoring.found tail (by rw [rollup]; decide) located
  have indexed := (restoring.consistent.columns column found has).sound.toIndexed
  refine ⟨found, has, ?_⟩
  intro row sample stored
  have small := (indexed.below row sample stored).trans indexed.cursor
  have restored := restoring.rows column row small
  have before : (TemporalRecord.sample column row).digit < record.digit := by
    rw [rollup]
    exact show (49 : UInt8) < 51 by decide
  rw [if_neg (tail.done before), rowsAt_of_found has, rowsAt_of_found located, stored] at restored
  exact restored.symm

theorem stamped_eq {defn : TemporalRollupDefinition}
    (same : defn.window.aggregates = defn.aggregates) : defn.stamped = defn := by
  obtain ⟨_, _, _, _, ⟨_, _, _, _, _⟩, _⟩ := defn
  simp only at same
  subst same
  rfl

theorem rollup_reads {name : String} (consistent : store.Consistent cal arith) :
    Reads codecs cal arith store (.rollup name) := by
  intro pending built value tail restoring holds
  rw [TemporalRecord.value, Option.map_eq_some_iff] at holds
  obtain ⟨rollup, stored, rfl⟩ := holds
  obtain ⟨defined, declared⟩ := consistent.rollups name rollup stored
  obtain ⟨live, located⟩ := isSome_iff_exists.mp declared
  obtain ⟨found, has, rows⟩ := restoring.columns_done rfl tail located
  have absent : built.rollups[name]? = none := by
    have restored := restoring.definitions name
    rwa [if_pos mem_cons_self, map_eq_none_iff] at restored
  have valid : built.validateCreateRollup cal rollup.definition = .ok () := by
    have settled := consistent.columns _ live located
    obtain ⟨same, again, maintained⟩ :=
      settled.served name ((settled.listed name).mpr ⟨rollup, stored, rfl⟩)
    obtain rfl := some.inj (stored.symm.trans again)
    refine bind_eq_ok.mpr ⟨(), require_eq_ok.mpr ?_, bind_eq_ok.mpr ⟨(), defined.valid, ?_⟩⟩
    · simpa [defined.named, defined.nonempty, Nat.not_lt.mpr defined.short] using defined.aggregates
    · refine bind_eq_ok.mpr ⟨found, orElse_eq_ok.mpr has, bind_eq_ok.mpr ⟨(), require_eq_ok.mpr ?_, ?_⟩⟩
      · simp [defined.named, ExtTreeMap.contains_eq_isSome_getElem?, absent]
      · rw [forM_eq_ok]
        intro sample mem
        obtain ⟨row, there⟩ := mem_values.mp mem
        obtain ⟨windows, computed⟩ := maintained.windows row sample (rows row sample there)
        exact bind_eq_ok.mpr ⟨windows, computed, rfl⟩
  rcases createRollup_cases restoring.consistent rollup.definition
    with ⟨error, refused, -⟩ | ⟨next, accepted, created⟩
  · rw [valid] at refused
    cases refused
  · refine ⟨next, ?_, ?_⟩
    · rw [bytes_eq]
      refine bind_eq_ok.mpr ⟨rollup.definition, codecs.definition.decode_encode rollup.definition, ?_⟩
      refine bind_eq_ok.mpr ⟨(), require_eq_ok.mpr (by simp [body, defined.named]), ?_⟩
      rw [accepted]
    · refine restoring.read tail trivial created.consistent (fun column =>
        .inr ⟨by simp, created.declarations column⟩)
        (fun column row => .inr ⟨by simp, by rw [created.rows]⟩) (fun column =>
          .inl ⟨by simp, created.cursors column⟩)
        fun other => ?_
      rw [created.definitions, defined.named]
      by_cases same : name = other
      · exact .inl ⟨by rw [same], by rw [if_pos same, ← same, stored, stamped_eq defined.same]; rfl⟩
      · exact .inr ⟨by simpa using Ne.symm same, if_neg same⟩

theorem record_reads (consistent : store.Consistent cal arith) (valid : record.Valid) :
    Reads codecs cal arith store record := by
  cases record with
  | declaration column => exact declaration_reads consistent
  | sample column row => exact sample_reads consistent valid
  | cursor column => exact cursor_reads consistent
  | rollup name => exact rollup_reads consistent

end Steps

theorem restore_entries (consistent : store.Consistent cal arith) {built : TemporalStore K A}
    {entries : List (Bytes × Bytes)} (tail : Tail codecs store (entries.map Prod.fst))
    (restoring : Restoring cal arith store (entries.map Prod.fst) built)
    (true_entries : ∀ entry ∈ entries, ∃ record : TemporalRecord, record.Valid ∧
      record.bytes = entry.1 ∧ record.value codecs store = some entry.2) :
    entries.foldlM (fun store entry => do
      let (next, _) ← restorePersistenceRecord codecs cal arith store entry.1 entry.2
      .ok next) built = .ok store := by
  induction entries generalizing built with
  | nil =>
    rw [restoring.eq consistent]
    rfl
  | cons entry rest ih =>
    obtain ⟨record, valid, same, holds⟩ := true_entries entry mem_cons_self
    rw [map_cons, ← same] at tail restoring
    obtain ⟨next, restored, restoring⟩ := record_reads consistent valid tail restoring holds
    rw [foldlM_cons]
    refine bind_eq_ok.mpr ⟨next, bind_eq_ok.mpr ⟨(next, true), same ▸ restored, rfl⟩, ?_⟩
    exact ih tail.rest restoring fun other mem => true_entries other (mem_cons_of_mem _ mem)

theorem restore_persisted (consistent : store.Consistent cal arith) {recs : RecordMap}
    (persisted : Persisted codecs store recs) : restore codecs cal arith recs = .ok store := by
  have listed : ∀ record : TemporalRecord, record.Valid → record.bytes ∉ recs.toList.map Prod.fst →
      record.value codecs store = none := by
    intro record valid absent
    rw [← persisted.values record valid]
    cases found : recs[record.bytes]? with
    | none => rfl
    | some value => exact absurd (mem_map.mpr ⟨(record.bytes, value), mem_toList.mpr found, rfl⟩) absent
  apply restore_entries consistent
  · constructor
    · exact pairwise_map.mpr ExtTreeMap.ordered_keys_toList
    · intro record valid has absent
      exact absurd (listed record valid absent) has
  · constructor
    · exact empty_consistent
    · intro column
      split
      · simp [empty]
      next absent =>
        have unknown := listed (.declaration column) trivial absent
        rw [value, map_eq_none_iff] at unknown
        simp [empty, unknown]
    · intro column row small
      have nothing : (rowsAt (empty : TemporalStore K A) column)[row]? = none := by simp [rowsAt, empty]
      rw [nothing]
      split
      · rfl
      next absent =>
        have unknown := listed (.sample column row) small absent
        rw [value_sample, map_eq_none_iff] at unknown
        exact unknown.symm
    · intro column absent
      have unknown := listed (.cursor column) trivial absent
      rw [value, map_eq_none_iff] at unknown
      simp [cursorAt, empty, unknown]
    · intro column
      simp [cursorAt, empty]
    · intro column row _ _
      simp [cursorAt, empty]
    · intro name
      split
      · simp [empty]
      next absent =>
        have unknown := listed (.rollup name) trivial absent
        rw [value, map_eq_none_iff] at unknown
        simp [empty, unknown]
  · rintro ⟨key, value⟩ mem
    obtain ⟨record, valid, same⟩ := persisted.only key value (mem_toList.mp mem)
    refine ⟨record, valid, same, ?_⟩
    rw [← persisted.values record valid, same]
    exact mem_toList.mp mem

/-- Every run of commands can be published, and restoring the records it leaves gives back the live
store. -/
theorem restore_published {calendar : Calendar} (codecs : TemporalCodecs)
    {commands : List TemporalCommand}
    (ran : commands.foldlM (carryOut calendar arithmetic) empty = .ok store) :
    ∃ records, commands.foldlM (TemporalStore.publish codecs calendar arithmetic)
      (empty, ∅) = .ok (store, records) ∧ restore codecs calendar arithmetic records = .ok store := by
  obtain ⟨records, published, consistent, persisted⟩ :=
    published_persisted empty_consistent (empty_persisted codecs) ran
  exact ⟨records, published, restore_persisted consistent persisted⟩

section Samples

deriving instance Countable for EntityKind, ScalarValue, TemporalType, WindowKind, WindowSpec,
  TemporalDeclaration, TemporalSample, TemporalRollupDefinition

noncomputable def unaryCodecs : TemporalCodecs where
  declaration := .unary TemporalDeclaration
  sample := .unary TemporalSample
  cursor := .unary Nat
  definition := .unary TemporalRollupDefinition

def gaugeCommands : List TemporalCommand :=
  [{ changes := [], administrative := some (.declare gauge), now := 0 },
    { changes := [⟨.node, 1, reading 3⟩, ⟨.node, 1, reading 6⟩],
      administrative := some (.createRollup gaugeRollup),
      now := 6 },
    { changes := [⟨.node, 1, reading 7⟩],
      administrative := some (.declare { gauge with retentionNanos := 2 }), now := 7 }]

theorem restore_published_gauge : ∃ (store : TemporalStore Int Int) (records : RecordMap),
    gaugeCommands.foldlM (carryOut noCalendar wholeNumbers) empty = .ok store ∧
      gaugeCommands.foldlM (TemporalStore.publish unaryCodecs noCalendar wholeNumbers)
      (empty, ∅) = .ok (store, records) ∧ restore unaryCodecs noCalendar wholeNumbers records =
        .ok store := by
  have carried : (gaugeCommands.foldlM (carryOut noCalendar wholeNumbers) empty).toOption.isSome =
      true := by
    decide +kernel
  cases ran : gaugeCommands.foldlM (carryOut noCalendar wholeNumbers) empty with
  | error error =>
    rw [ran] at carried
    cases carried
  | ok store =>
    obtain ⟨records, published, restored⟩ := restore_published unaryCodecs ran
    exact ⟨store, records, rfl, published, restored⟩

end Samples

end IronGraph.Temporal

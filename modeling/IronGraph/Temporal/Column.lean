import IronGraph.Temporal.StoreCore

/-!
The columns of the temporal store: the index by entity, the expiry order and the current pointers agree
with the rows, through insertion and through expiry.
-/

namespace IronGraph.Temporal

open Std Outcome OrderedMap

namespace Column

def RowOf (column : Column) (entity row : Nat) : Prop :=
  ∃ sample, column.rows[row]? = some sample ∧ sample.entityId = entity

/-- The newest row of an entity, and the first among equally new ones. -/
def IsCurrent (column : Column) (entity row : Nat) : Prop :=
  ∃ sample, column.rows[row]? = some sample ∧ sample.entityId = entity ∧
    ∀ other rival, column.rows[other]? = some rival → rival.entityId = entity →
      precedes sample rival = false ∧ (precedes rival sample = false → row ≤ other)

def Points (column : Column) (entity : Nat) (pointer : Option Nat) : Prop := match pointer with
  | none => ∀ row, ¬ column.RowOf entity row
  | some row => column.IsCurrent entity row

/-- The index by entity and the expiry order list exactly the rows. -/
structure Indexed (column : Column) : Prop where
  cursor : column.nextRow < u64Limit
  below : ∀ row sample, column.rows[row]? = some sample → row < column.nextRow
  listed : ∀ entity row, row ∈ column.entities.getD entity ∅ ↔ column.RowOf entity row
  timed : ∀ time row, (time, row) ∈ column.expiry ↔
    ∃ sample, column.rows[row]? = some sample ∧ sample.eventTimeNanos = time

structure Sound (column : Column) : Prop extends Indexed column where
  occupied : ∀ entity, column.entities[entity]?.isSome → ∃ row, column.RowOf entity row
  pointed : ∀ entity, column.Points entity column.current[entity]?

theorem Indexed.card_lt {column : Column} (indexed : column.Indexed) :
    column.samples.length < u64Limit := by
  have bound := size_le_of_below indexed.below
  have cursor := indexed.cursor
  rw [samples, length_values]
  omega

theorem new_sound (decl : TemporalDeclaration) : (new decl).Sound where
  cursor := by simp [new, u64Limit]
  below := by simp [new]
  listed := by simp [new, RowOf]
  timed := by simp [new]
  occupied := by simp [new]
  pointed := by simp [new, Points, RowOf]

section Insert

variable {column next : Column} {entity row : Nat}

theorem Indexed.fresh (indexed : column.Indexed) : column.rows[column.nextRow]? = none := by
  cases found : column.rows[column.nextRow]? with
  | none => rfl
  | some sample => exact absurd (indexed.below _ _ found) (Nat.lt_irrefl _)

variable (indexed : column.Indexed) {sample : TemporalSample}
  (inserted : next.rows = column.rows.insert column.nextRow sample)
include indexed inserted

theorem rowOf_insert :
    next.RowOf entity row ↔ (row = column.nextRow ∧ sample.entityId = entity) ∨
    column.RowOf entity row := by
  unfold RowOf
  rw [inserted]
  simp only [getElem?_insert]
  constructor
  · rintro ⟨found, stored, owned⟩
    split at stored
    next same =>
      obtain rfl := Option.some.inj stored
      exact .inl ⟨same.symm, owned⟩
    · exact .inr ⟨found, stored, owned⟩
  · rintro (⟨rfl, owned⟩ | ⟨found, stored, owned⟩)
    · exact ⟨sample, by simp, owned⟩
    · have prior := indexed.below _ _ stored
      exact ⟨found, by rw [if_neg (by omega)]; exact stored, owned⟩

theorem IsCurrent.insert_old (current : column.IsCurrent entity row)
    (older : sample.entityId = entity → ∀ previous, column.rows[row]? = some previous →
    precedes previous sample = false) : next.IsCurrent entity row := by
  obtain ⟨previous, stored, owned, newest⟩ := current
  have prior := indexed.below _ _ stored
  refine ⟨previous, ?_, owned, ?_⟩
  · rw [inserted, getElem?_insert, if_neg (by omega)]
    exact stored
  · intro other rival has rivals
    rw [inserted, getElem?_insert] at has
    split at has
    next same =>
      obtain rfl := Option.some.inj has
      exact ⟨older rivals previous stored, fun _ => by omega⟩
    · exact newest other rival has rivals

omit indexed inserted

theorem isCurrent_insert_first (inserted : next.rows = column.rows.insert column.nextRow sample)
    (alone : ∀ row, ¬ column.RowOf sample.entityId row) :
    next.IsCurrent sample.entityId column.nextRow := by
  refine ⟨sample, by rw [inserted, getElem?_insert, if_pos rfl], rfl, ?_⟩
  intro other rival has rivals
  rw [inserted, getElem?_insert] at has
  split at has
  next same =>
    obtain rfl := Option.some.inj has
    exact ⟨by simp [precedes], fun _ => by omega⟩
  · exact absurd ⟨rival, has, rivals⟩ (alone other)

theorem isCurrent_insert_newer {previous : TemporalSample}
    (inserted : next.rows = column.rows.insert column.nextRow sample)
    (current : column.IsCurrent sample.entityId row) (stored : column.rows[row]? = some previous)
    (newer : precedes previous sample = true) : next.IsCurrent sample.entityId column.nextRow := by
  obtain ⟨found, alsoStored, owned, newest⟩ := current
  obtain rfl := Option.some.inj (stored.symm.trans alsoStored)
  refine ⟨sample, by rw [inserted, getElem?_insert, if_pos rfl], rfl, ?_⟩
  intro other rival has rivals
  rw [inserted, getElem?_insert] at has
  split at has
  next same =>
    obtain rfl := Option.some.inj has
    exact ⟨by simp [precedes], fun _ => by omega⟩
  · have bounded := (newest other rival has rivals).1
    simp only [precedes, Bool.or_eq_false_iff, Bool.and_eq_false_iff, Bool.or_eq_true, Bool.and_eq_true,
      decide_eq_false_iff_not, decide_eq_true_eq] at newer bounded ⊢
    constructor
    · omega
    · intro tied
      omega

theorem Indexed.withSample (indexed : column.Indexed) (room : column.nextRow + 1 < u64Limit) :
    (column.withSample column.nextRow sample).Indexed := by
  have rows : (column.withSample column.nextRow sample).rows =
      column.rows.insert column.nextRow sample := rfl
  constructor
  · exact room
  · intro row stored has
    rw [rows, getElem?_insert] at has
    change row < column.nextRow + 1
    split at has
    · omega
    · have prior := indexed.below _ _ has
      omega
  · intro entity row
    rw [rowOf_insert indexed rows, ← indexed.listed, Column.withSample,
      ExtTreeMap.getD_eq_getD_getElem?, getElem?_insert]
    by_cases same : sample.entityId = entity
    · subst same
      rw [if_pos rfl, Option.getD_some, mem_set_insert]
      simp [eq_comm]
    · rw [if_neg same, ← ExtTreeMap.getD_eq_getD_getElem?]
      simp [same]
  · intro time row
    rw [rows, Column.withSample, mem_set_insert, Prod.mk.injEq, indexed.timed]
    simp only [getElem?_insert]
    constructor
    · rintro (⟨rfl, rfl⟩ | ⟨stored, has, timed⟩)
      · exact ⟨sample, by simp, rfl⟩
      · have prior := indexed.below _ _ has
        exact ⟨stored, by rw [if_neg (by omega)]; exact has, timed⟩
    · rintro ⟨stored, has, timed⟩
      split at has
      next same =>
        obtain rfl := Option.some.inj has
        exact .inl ⟨timed, same⟩
      · exact .inr ⟨stored, has, timed⟩

theorem Sound.pointed_own (sound : column.Sound) :
    (column.withSample column.nextRow sample).Points sample.entityId
      (column.withSample column.nextRow sample).current[sample.entityId]? := by
  have rows : (column.withSample column.nextRow sample).rows =
      column.rows.insert column.nextRow sample := rfl
  have pointed := sound.pointed sample.entityId
  cases pointer : column.current[sample.entityId]? with
  | none =>
    rw [pointer] at pointed
    have moved : (column.withSample column.nextRow sample).current[sample.entityId]? =
        some column.nextRow := by
      simp [withSample, isNewest, pointer]
    rw [moved]
    exact isCurrent_insert_first rows pointed
  | some row =>
    rw [pointer] at pointed
    obtain ⟨previous, stored, -, -⟩ := id pointed
    cases newer : precedes previous sample with
    | true =>
      have moved : (column.withSample column.nextRow sample).current[sample.entityId]? =
          some column.nextRow := by
        simp [withSample, isNewest, pointer, stored, newer]
      rw [moved]
      exact isCurrent_insert_newer rows pointed stored newer
    | false =>
      have kept : (column.withSample column.nextRow sample).current[sample.entityId]? = some row := by
        simp [withSample, isNewest, pointer, stored, newer]
      rw [kept]
      refine IsCurrent.insert_old sound.toIndexed rows pointed ?_
      intro _ found has
      rw [stored] at has
      exact Option.some.inj has ▸ newer

theorem Sound.pointed_other (sound : column.Sound) (apart : sample.entityId ≠ entity) :
    (column.withSample column.nextRow sample).Points entity
      (column.withSample column.nextRow sample).current[entity]? := by
  have rows : (column.withSample column.nextRow sample).rows =
      column.rows.insert column.nextRow sample := rfl
  have kept : (column.withSample column.nextRow sample).current[entity]? = column.current[entity]? := by
    simp only [withSample]
    split
    · rw [getElem?_insert, if_neg apart]
    · rfl
  have pointed := sound.pointed entity
  rw [kept]
  cases pointer : column.current[entity]? with
  | none =>
    rw [pointer] at pointed
    intro row owned
    rcases (rowOf_insert sound.toIndexed rows).mp owned with ⟨-, same⟩ | prior
    · exact apart same
    · exact pointed row prior
  | some row =>
    rw [pointer] at pointed
    exact IsCurrent.insert_old sound.toIndexed rows pointed fun same => absurd same apart

theorem Sound.withSample (sound : column.Sound) (room : column.nextRow + 1 < u64Limit) :
    (column.withSample column.nextRow sample).Sound := by
  have rows : (column.withSample column.nextRow sample).rows =
      column.rows.insert column.nextRow sample := rfl
  refine { sound.toIndexed.withSample room with occupied := ?_, pointed := ?_ }
  · intro entity held
    simp only [Column.withSample, getElem?_insert] at held
    split at held
    next same => exact ⟨column.nextRow, (rowOf_insert sound.toIndexed rows).mpr (.inl ⟨rfl, same⟩)⟩
    · obtain ⟨row, owned⟩ := sound.occupied entity held
      exact ⟨row, (rowOf_insert sound.toIndexed rows).mpr (.inr owned)⟩
  · intro entity
    by_cases same : sample.entityId = entity
    · exact same ▸ sound.pointed_own
    · exact sound.pointed_other same

theorem insert_eq_ok (room : column.nextRow + 1 < u64Limit) :
    column.insert sample = .ok (column.withSample column.nextRow sample) := by
  rw [insert, if_pos room]

end Insert

end Column

end IronGraph.Temporal

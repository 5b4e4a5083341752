import IronGraph.Library.Tally
import IronGraph.Library.Cells
import IronGraph.Temporal.Window

/-!
Rollups: aggregates of samples by entity and window. The numbers of a rollup are the keys of an
ordered type and their sums are taken in a group, so that adding and removing are exact.
-/

namespace IronGraph.Temporal

open Std Outcome OrderedMap Multiset

instance pairOrd {α β : Type} [Ord α] [Ord β] : Ord (α × β) := lexOrd

structure TemporalSample where
  entityId : Nat
  property : PropertyId
  eventTimeNanos : Int
  sequenceIndex : Nat
  value : ScalarValue
deriving Repr, DecidableEq

structure TemporalRollupDefinition where
  name : String
  entityKind : EntityKind
  target : UInt64
  property : PropertyId
  window : WindowSpec
  aggregates : AggregateSet
deriving Repr, DecidableEq

/-- Numbers that their order tells apart. -/
class Quantity (K : Type) extends Ord K, TransOrd K, LawfulEqOrd K where
  decidableEq : DecidableEq K

instance {K : Type} [Quantity K] : DecidableEq K := Quantity.decidableEq

/-- How numeric samples are read and summed. -/
structure Arithmetic (K A : Type) where
  integer : Int → K
  float : BitVec 64 → K
  exact : K → A
  average : A → Nat → A

def Arithmetic.number {K A : Type} (arithmetic : Arithmetic K A) : ScalarValue → Option K
  | .integer value => some (arithmetic.integer value)
  | .float bits => some (arithmetic.float bits)
  | _ => none

structure RollupBucket (K A : Type) where
  startNanos : Int
  endNanos : Int
  count : Nat
  sum : Option A
  min : Option K
  max : Option K
  avg : Option A
deriving DecidableEq

structure Bucket (K A : Type) [Quantity K] where
  value : RollupBucket K A
  numbers : ExtTreeMap K Nat
  sourceRows : Nat

structure Rollup (K A : Type) [Quantity K] where
  definition : TemporalRollupDefinition
  buckets : ExtTreeMap (Nat × Int) (Bucket K A)

def sampleWindows (calendar : Calendar) (window : WindowSpec) (sample : TemporalSample) :
    Result (List Boundary) := do
  let upper ← orElse (checked (sample.eventTimeNanos + 1))
    (.new .temporalRange "sample timestamp cannot form a range")
  windowBoundaries calendar sample.eventTimeNanos upper window

variable {cal : Calendar} {window : WindowSpec} {sample : TemporalSample} {windows : List Boundary}

theorem sampleWindows_windows (found : sampleWindows cal window sample = .ok windows) :
    Windows cal window windows := by
  obtain ⟨upper, bounded, found⟩ := bind_eq_ok.mp found
  obtain ⟨rfl, -, below⟩ := checked_eq_some (orElse_eq_ok.mp bounded)
  exact windowBoundaries_windows (by omega) found

section Update

variable {K A : Type} [Quantity K] [AddCommGroup A]

def Bucket.empty (start finish : Int) : Bucket K A where
  value :=
    { startNanos := start, endNanos := finish, count := 0,
      sum := none, min := none, max := none, avg := none }
  numbers := ∅
  sourceRows := 0

variable (arithmetic : Arithmetic K A) (number : Option K) (remove : Bool) (start finish : Int)

def Bucket.update (bucket : Bucket K A) : Bucket K A :=
  let numbers := match number with
    | none => bucket.numbers
    | some number =>
      if remove then Tally.remove bucket.numbers number else Tally.add bucket.numbers number
  let count :=
    if number.isNone then bucket.value.count
    else if remove then bucket.value.count - 1
    else saturatingAdd bucket.value.count 1
  let change := match number with
    | none => 0
    | some number => if remove then -arithmetic.exact number else arithmetic.exact number
  let sum := if count = 0 then none else some (bucket.value.sum.getD 0 + change)
  { value :=
      { startNanos := start
        endNanos := finish
        count
        sum
        min := numbers.keys.head?
        max := numbers.keys.getLast?
        avg := sum.map fun sum => arithmetic.average sum count }
    numbers
    sourceRows :=
      if remove then (bucket.sourceRows + u64Limit - 1) % u64Limit
        else (bucket.sourceRows + 1) % u64Limit }

/-- The number of source rows the code goes on with: the old counter, moved with saturation. -/
def Bucket.remaining (remove : Bool) (bucket : Bucket K A) : Nat :=
  if remove then bucket.sourceRows - 1 else saturatingAdd bucket.sourceRows 1

def Bucket.settle (found : Option (Bucket K A)) : Option (Bucket K A) :=
  if found.isNone && remove then none
  else
    let bucket := found.getD (Bucket.empty start finish)
    if bucket.remaining remove = 0 then none
      else some (bucket.update arithmetic number remove start finish)

def Rollup.apply (calendar : Calendar) (arithmetic : Arithmetic K A) (rollup : Rollup K A)
    (sample : TemporalSample) (remove : Bool) : Result (Rollup K A) := do
  let windows ← sampleWindows calendar rollup.definition.window sample
  .ok { rollup with
    buckets := alterAll (fun window => (sample.entityId, window.1))
      (fun window => Bucket.settle arithmetic (arithmetic.number sample.value) remove window.1 window.2)
      rollup.buckets windows }

end Update

section Landing

variable {K A : Type} {arithmetic : Arithmetic K A} {cal : Calendar}

def numeric (contents : Multiset (Option K)) : Multiset K := contents.filterMap id

@[simp] theorem numeric_none (contents : Multiset (Option K)) :
    numeric (none ::ₘ contents) = numeric contents :=
  filterMap_cons_none _ _ rfl

@[simp] theorem numeric_some (number : K) (contents : Multiset (Option K)) :
    numeric (some number ::ₘ contents) = number ::ₘ numeric contents :=
  filterMap_cons_some _ _ _ rfl

theorem card_numeric_le (contents : Multiset (Option K)) : (numeric contents).card ≤ contents.card := by
  induction contents using Multiset.induction with
  | empty => simp [numeric]
  | cons value contents ih =>
    cases value with
    | none =>
      rw [numeric_none, card_cons]
      omega
    | some number =>
      rw [numeric_some, card_cons, card_cons]
      omega

def startsOf (calendar : Calendar) (window : WindowSpec) (sample : TemporalSample) : List Int :=
  match sampleWindows calendar window sample with
  | .ok windows => windows.map Prod.fst
  | .error _ => []

def landing (arithmetic : Arithmetic K A) (calendar : Calendar) (window : WindowSpec)
    (entity : Nat) (start : Int) (samples : Multiset TemporalSample) : Multiset (Option K) :=
  (samples.filter fun sample => sample.entityId = entity ∧ start ∈ startsOf calendar window sample).map
    fun sample => arithmetic.number sample.value

theorem landing_cons (window : WindowSpec) (entity : Nat) (start : Int) (sample : TemporalSample)
    (samples : Multiset TemporalSample) :
    landing arithmetic cal window entity start (sample ::ₘ samples) =
      if sample.entityId = entity ∧ start ∈ startsOf cal window sample
      then arithmetic.number sample.value ::ₘ landing arithmetic cal window entity start samples
      else landing arithmetic cal window entity start samples := by
  unfold landing
  rw [filter_cons]
  split
  · simp
  · simp

theorem card_landing_le (arithmetic : Arithmetic K A) (cal : Calendar) (window : WindowSpec)
    (entity : Nat) (start : Int) (samples : Multiset TemporalSample) :
    (landing arithmetic cal window entity start samples).card ≤ samples.card := by
  unfold landing
  rw [card_map]
  exact card_le_card (filter_le _ _)

end Landing

section Totals

variable {K A : Type} [Quantity K] [AddCommGroup A] {arithmetic : Arithmetic K A}
  {start finish : Int} {contents : Multiset (Option K)} {number : Option K}
  {found : Option (Bucket K A)} {samples : Multiset TemporalSample}

def summary (arithmetic : Arithmetic K A) (start finish : Int) (numbers : ExtTreeMap K Nat)
    (values : Multiset K) : RollupBucket K A :=
  let sum := if values.card = 0 then none else some (values.map arithmetic.exact).sum
  { startNanos := start
    endNanos := finish
    count := values.card
    sum
    min := numbers.keys.head?
    max := numbers.keys.getLast?
    avg := sum.map fun sum => arithmetic.average sum values.card }

structure Bucket.Totals (arithmetic : Arithmetic K A) (start finish : Int)
    (contents : Multiset (Option K)) (bucket : Bucket K A) : Prop where
  rows : bucket.sourceRows = contents.card
  numbers : Tally.Counts bucket.numbers (numeric contents)
  value : bucket.value = summary arithmetic start finish bucket.numbers (numeric contents)

variable {bucket : Bucket K A}

theorem Bucket.Totals.unique {first second : Bucket K A}
    (totals : first.Totals arithmetic start finish contents)
    (alsoTotals : second.Totals arithmetic start finish contents) : first = second := by
  have sameNumbers := totals.numbers.unique alsoTotals.numbers
  have sameValue : first.value = second.value := by rw [totals.value, alsoTotals.value, sameNumbers]
  have sameRows : first.sourceRows = second.sourceRows := by rw [totals.rows, alsoTotals.rows]
  cases first
  cases second
  simp_all

theorem Bucket.Totals.sum_getD (totals : bucket.Totals arithmetic start finish contents) :
    bucket.value.sum.getD 0 = ((numeric contents).map arithmetic.exact).sum := by
  rw [totals.value, summary]
  by_cases empty : (numeric contents).card = 0
  · rw [card_eq_zero.mp empty]
    simp
  · simp [empty]

theorem Bucket.totals_empty (start finish : Int) :
    (Bucket.empty start finish : Bucket K A).Totals arithmetic start finish 0 := by
  refine ⟨rfl, Tally.counts_empty, ?_⟩
  simp only [Bucket.empty, summary, numeric, filterMap_zero, card_zero, if_true, Option.map_none]
  rfl

theorem Bucket.Totals.add (totals : bucket.Totals arithmetic start finish contents) (number : Option K)
    (room : contents.card + 1 < u64Limit) :
    (bucket.update arithmetic number false start finish).Totals arithmetic start finish
      (number ::ₘ contents) := by
  have bound := card_numeric_le contents
  have counted : bucket.value.count = (numeric contents).card := by rw [totals.value, summary]
  have grown : saturatingAdd (numeric contents).card 1 = (numeric contents).card + 1 := by
    unfold saturatingAdd u64Limit at *
    omega
  constructor
  · simp only [Bucket.update, Bool.false_eq_true, if_false, totals.rows, card_cons]
    exact Nat.mod_eq_of_lt room
  · cases number with
    | none =>
      rw [numeric_none]
      exact totals.numbers
    | some number =>
      rw [numeric_some]
      exact totals.numbers.add number
  · cases number with
    | none => simp [Bucket.update, summary, counted, totals.sum_getD]
    | some number => simp [Bucket.update, summary, counted, grown, totals.sum_getD, add_comm]

theorem Bucket.Totals.remove (totals : bucket.Totals arithmetic start finish (number ::ₘ contents))
    (room : contents.card < u64Limit) :
    (bucket.update arithmetic number true start finish).Totals arithmetic start finish contents := by
  have counted : bucket.value.count = (numeric (number ::ₘ contents)).card := by
    rw [totals.value, summary]
  constructor
  · simp only [Bucket.update, if_true, totals.rows, card_cons]
    unfold u64Limit at *
    omega
  · cases number with
    | none =>
      rw [← numeric_none contents]
      exact totals.numbers
    | some number => exact Tally.Counts.remove (numeric_some number contents ▸ totals.numbers)
  · cases number with
    | none => simp [Bucket.update, summary, counted, totals.sum_getD]
    | some number => simp [Bucket.update, summary, counted, totals.sum_getD]

/-- What a rollup holds at one start: nothing when no sample falls into the window, and its summary
otherwise. -/
def Summarises (arithmetic : Arithmetic K A) (calendar : Calendar) (window : WindowSpec) (start : Int)
    (contents : Multiset (Option K)) (found : Option (Bucket K A)) : Prop :=
  match found with
  | none => contents = 0
  | some bucket => contents ≠ 0 ∧
      ∃ finish, WindowEnd calendar window start finish ∧ bucket.Totals arithmetic start finish contents

theorem Summarises.unique {first second : Option (Bucket K A)}
    (summed : Summarises arithmetic cal window start contents first)
    (alsoSummed : Summarises arithmetic cal window start contents second) : first = second := by
  cases first with
  | none =>
    cases second with
    | none => rfl
    | some bucket => exact absurd summed alsoSummed.1
  | some bucket =>
    cases second with
    | none => exact absurd alsoSummed summed.1
    | some other =>
      obtain ⟨-, finish, ends, totals⟩ := summed
      obtain ⟨-, finish', alsoEnds, alsoTotals⟩ := alsoSummed
      obtain rfl := ends.unique alsoEnds
      rw [totals.unique alsoTotals]

theorem Summarises.add (summed : Summarises arithmetic cal window start contents found)
    (ends : WindowEnd cal window start finish) (number : Option K)
    (room : contents.card + 1 < u64Limit) : Summarises arithmetic cal window start (number ::ₘ contents)
      (Bucket.settle arithmetic number false start finish found) := by
  have previous : (found.getD (Bucket.empty start finish)).Totals arithmetic start finish contents := by
    cases found with
    | none =>
      obtain rfl : contents = 0 := summed
      exact Bucket.totals_empty start finish
    | some bucket =>
      obtain ⟨-, finish', alsoEnds, totals⟩ := summed
      obtain rfl := ends.unique alsoEnds
      exact totals
  have kept : (found.getD (Bucket.empty start finish)).remaining false ≠ 0 := by
    simp only [Bucket.remaining, Bool.false_eq_true, if_false, saturatingAdd, u64Limit]
    omega
  simp only [Bucket.settle, Bool.and_false, Bool.false_eq_true, if_false, kept]
  exact ⟨cons_ne_zero, finish, ends, previous.add number room⟩

theorem Summarises.remove (summed : Summarises arithmetic cal window start (number ::ₘ contents) found)
    (ends : WindowEnd cal window start finish) (room : contents.card < u64Limit) :
    Summarises arithmetic cal window start contents
      (Bucket.settle arithmetic number true start finish found) := by
  cases found with
  | none => exact absurd summed cons_ne_zero
  | some bucket =>
    obtain ⟨-, finish', alsoEnds, totals⟩ := summed
    obtain rfl := ends.unique alsoEnds
    have left : bucket.remaining true = contents.card := by simp [Bucket.remaining, totals.rows]
    simp only [Bucket.settle, Option.isNone_some, Bool.false_and, Bool.false_eq_true, if_false,
      Option.getD_some, left]
    split
    next empty => exact card_eq_zero.mp empty
    next occupied =>
      refine ⟨fun none => occupied (by rw [none]; rfl), finish, ends, totals.remove room⟩

def Rollup.Totals (calendar : Calendar) (arithmetic : Arithmetic K A) (rollup : Rollup K A)
    (samples : Multiset TemporalSample) : Prop :=
  ∀ entity start, Summarises arithmetic calendar rollup.definition.window start
    (landing arithmetic calendar rollup.definition.window entity start samples)
      rollup.buckets[(entity, start)]?

theorem Rollup.Totals.unique {first second : Rollup K A} (totals : first.Totals cal arithmetic samples)
    (alsoTotals : second.Totals cal arithmetic samples) (same : first.definition = second.definition) :
    first = second := by
  have sameBuckets : first.buckets = second.buckets := by
    apply ExtTreeMap.ext_getElem?
    rintro ⟨entity, start⟩
    have summed := alsoTotals entity start
    rw [← same] at summed
    exact (totals entity start).unique summed
  cases first
  cases second
  simp_all

theorem Rollup.totals_empty (definition : TemporalRollupDefinition) :
    ({ definition, buckets := ∅ } : Rollup K A).Totals cal arithmetic 0 := by
  intro entity start
  rw [ExtTreeMap.getElem?_empty]
  rfl

section Apply

variable {rollup : Rollup K A}

theorem mem_startsOf {window : WindowSpec} {start : Int}
    (found : sampleWindows cal window sample = .ok windows) :
    start ∈ startsOf cal window sample ↔ ∃ boundary ∈ windows, boundary.1 = start := by
  rw [startsOf, found]
  exact List.mem_map

theorem Rollup.apply_eq (arithmetic : Arithmetic K A)
    (found : sampleWindows cal rollup.definition.window sample = .ok windows) (remove : Bool) :
    ∃ next, rollup.apply cal arithmetic sample remove = .ok next ∧ next.definition = rollup.definition ∧
      (∀ window ∈ windows, next.buckets[(sample.entityId, window.1)]? =
        Bucket.settle arithmetic (arithmetic.number sample.value) remove window.1 window.2
          rollup.buckets[(sample.entityId, window.1)]?) ∧
      ∀ entity start, ¬ (sample.entityId = entity ∧
        start ∈ startsOf cal rollup.definition.window sample) →
        next.buckets[(entity, start)]? = rollup.buckets[(entity, start)]? := by
  have distinct := (sampleWindows_windows found).distinct
  unfold Rollup.apply
  rw [found]
  refine ⟨_, rfl, rfl, ?_, ?_⟩
  · intro window mem
    have separate : (windows.map fun window => (sample.entityId, window.1)).Nodup := by
      have paired := distinct.map (Prod.mk_right_injective sample.entityId)
      rwa [List.map_map] at paired
    exact getElem?_alterAll (fun window : Boundary => (sample.entityId, window.1)) separate mem
  · intro entity start elsewhere
    apply getElem?_alterAll_outside
    intro window mem same
    rw [Prod.mk.injEq] at same
    refine elsewhere ⟨same.1, ?_⟩
    exact (mem_startsOf found).mpr ⟨window, mem, same.2⟩

theorem Rollup.apply_add (totals : rollup.Totals cal arithmetic samples)
    (found : sampleWindows cal rollup.definition.window sample = .ok windows)
    (room : samples.card + 1 < u64Limit) :
    ∃ next, rollup.apply cal arithmetic sample false = .ok next ∧ next.definition = rollup.definition ∧
      next.Totals cal arithmetic (sample ::ₘ samples) := by
  obtain ⟨next, applied, sameDefinition, inside, outside⟩ :=
    Rollup.apply_eq arithmetic found false
  refine ⟨next, applied, sameDefinition, ?_⟩
  intro entity start
  rw [sameDefinition, landing_cons]
  split
  next here =>
    obtain ⟨rfl, started⟩ := here
    obtain ⟨window, mem, rfl⟩ := (mem_startsOf found).mp started
    rw [inside window mem]
    have bound := card_landing_le arithmetic cal rollup.definition.window sample.entityId
      window.1 samples
    exact (totals _ _).add ((sampleWindows_windows found).ends window mem) _ (by omega)
  next elsewhere =>
    rw [outside entity start elsewhere]
    exact totals entity start

theorem Rollup.apply_remove (totals : rollup.Totals cal arithmetic (sample ::ₘ samples))
    (found : sampleWindows cal rollup.definition.window sample = .ok windows)
    (room : samples.card < u64Limit) :
    ∃ next, rollup.apply cal arithmetic sample true = .ok next ∧ next.definition = rollup.definition ∧
      next.Totals cal arithmetic samples := by
  obtain ⟨next, applied, sameDefinition, inside, outside⟩ :=
    Rollup.apply_eq arithmetic found true
  refine ⟨next, applied, sameDefinition, ?_⟩
  intro entity start
  have summed := totals entity start
  rw [landing_cons] at summed
  rw [sameDefinition]
  split at summed
  next here =>
    obtain ⟨rfl, started⟩ := here
    obtain ⟨window, mem, rfl⟩ := (mem_startsOf found).mp started
    rw [inside window mem]
    have bound := card_landing_le arithmetic cal rollup.definition.window sample.entityId
      window.1 samples
    exact summed.remove ((sampleWindows_windows found).ends window mem) (by omega)
  next elsewhere =>
    rw [outside entity start elsewhere]
    exact summed

end Apply

end Totals

end IronGraph.Temporal

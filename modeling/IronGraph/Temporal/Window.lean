import IronGraph.Graph.Scalar
import IronGraph.Library.Outcome

/-!
Window specifications and the boundaries of the windows that hold a point in time. Fixed windows are
found by arithmetic on nanoseconds; the step of calendar windows belongs to the calendar library and
is a parameter.
-/

namespace IronGraph.Temporal

open Outcome List Except Prod Int

abbrev AggregateSet := BitVec 8

inductive WindowKind where
  | fixed (widthNanos everyNanos : Int)
  | calendar (months days : Nat)
deriving Repr, DecidableEq

structure WindowSpec where
  kind : WindowKind
  alignNanos : Int
  timezone : Option String
  emitEmpty : Bool
  aggregates : AggregateSet
deriving Repr, DecidableEq

/-- The calendar library: the zones it knows and the step of a local time, both on instants counted in
nanoseconds, and the number of steps after which a search is taken not to return. -/
structure Calendar where
  zoneKnown : String → Bool
  shiftCalendar : String → Int → Int → Int → Result Int
  patience : Nat

def invalidZone : Error := .new .temporalRange "invalid IANA time zone"

def boundaryOverflow : Error := .new .temporalRange "window boundary overflow"

def tooManyBuckets : Error := .new .resultBudgetExceeded "window produced too many buckets"

def timestampOverflow : Error := .new .temporalRange "timestamp nanoseconds overflow"

def unresolved : Error := .new .temporalRange "calendar search does not return"

def WindowSpec.validate (calendar : Calendar) (spec : WindowSpec) : Result Unit := match spec.kind with
  | .fixed width every => do
    require (!(width ≤ 0 || every ≤ 0 || every > width))
      (.new .temporalRange "window width and EVERY must be positive and EVERY cannot exceed width")
    match spec.timezone with
    | none => .ok ()
    | some zone => require (calendar.zoneKnown zone) invalidZone
  | .calendar months days => do
    require (!((months = 0 && days = 0) || (months ≠ 0 && days ≠ 0)))
      (.new .temporalRange "calendar window requires exactly one positive month or day component")
    let zone ← orElse spec.timezone
        (.new .temporalRange "calendar windows require an explicit IANA time zone")
    require (calendar.zoneKnown zone) invalidZone

def floorDiv (value divisor : Int) : Int :=
  let quotient := value.tdiv divisor
  let remainder := value.tmod divisor
  if remainder ≠ 0 ∧ ((remainder < 0) ≠ (divisor < 0)) then quotient - 1 else quotient

abbrev Boundary := Int × Int

def pushBoundary (lower start finish : Int) (result : List Boundary) : Result (List Boundary) :=
  if finish > lower then
    if (result ++ [(start, finish)]).length > 1000000 then .error tooManyBuckets
    else .ok (result ++ [(start, finish)])
  else .ok result

/-- The loop over fixed windows; every turn moves the start forward, so the distance to the end of the
range bounds the number of turns. -/
def fixedLoop (lower upper width every : Int) : Nat → Int → List Boundary → Result (List Boundary)
  | 0, _, result => .ok result
  | turns + 1, start, result =>
    if start < upper then do
      let finish ← orElse (checked (start + width)) boundaryOverflow
      let result ← pushBoundary lower start finish result
      let next ← orElse (checked (start + every)) boundaryOverflow
      fixedLoop lower upper width every turns next result
    else .ok result

def fixedBoundaries (lower upper align width every : Int) : Result (List Boundary) :=
  let earliest := saturate (saturate (lower - width) + 1)
  let start := saturate (align + saturate (floorDiv (saturate (earliest - align)) every * every))
  fixedLoop lower upper width every (upper - start).toNat start []

def nanosToLocal (nanos : Int) : Result Int :=
  let seconds := floorDiv nanos 1000000000
  let sub := saturate (nanos - saturate (seconds * 1000000000))
  if 0 ≤ sub ∧ sub < 2 ^ 32 then .ok (seconds * 1000000000 + sub)
  else .error (.new .temporalRange "timestamp nanoseconds are invalid")

def datetimeToNanos (moment : Int) : Result Int := do
  let whole ← orElse (checked (moment.fdiv 1000000000 * 1000000000)) timestampOverflow
  orElse (checked (whole + moment.fmod 1000000000)) timestampOverflow

section CalendarWindows

variable (calendar : Calendar) (zone : String) (months days : Nat)

def asI32 (value : Nat) : Int := (value : Int).bmod (2 ^ 32)

def shiftForward (cursor : Int) : Result Int := calendar.shiftCalendar zone cursor (asI32 months) days

def shiftBack (cursor : Int) : Result Int :=
  calendar.shiftCalendar zone cursor ((-asI32 months).bmod (2 ^ 32)) (-days)

def rewind (lower : Int) : Nat → Int → Result Int
  | 0, _ => .error unresolved
  | turns + 1, cursor =>
    if cursor > lower then do
      rewind lower turns (← shiftBack calendar zone months days cursor)
    else .ok cursor

def advance (lower : Int) : Nat → Int → Result Int
  | 0, _ => .error unresolved
  | turns + 1, cursor => do
    let next ← shiftForward calendar zone months days cursor
    if next > lower then .ok cursor else advance lower turns next

def calendarLoop (lower upper : Int) : Nat → Int → List Boundary → Result (List Boundary)
  | 0, _, _ => .error unresolved
  | turns + 1, cursor, result => do
    let start ← datetimeToNanos cursor
    if start < upper then do
      let next ← shiftForward calendar zone months days cursor
      let finish ← datetimeToNanos next
      let result ← pushBoundary lower start finish result
      calendarLoop lower upper turns next result
    else .ok result

def calendarBoundaries (lower upper align : Int) : Result (List Boundary) := do
  require (calendar.zoneKnown zone) invalidZone
  let cursor ← nanosToLocal align
  let origin ← nanosToLocal lower
  let cursor ← rewind calendar zone months days origin calendar.patience cursor
  let cursor ← advance calendar zone months days origin calendar.patience cursor
  calendarLoop calendar zone months days lower upper calendar.patience cursor []

end CalendarWindows

def windowBoundaries (calendar : Calendar) (lower upper : Int) (spec : WindowSpec) :
    Result (List Boundary) := do
  require (!(lower ≥ upper)) (.new .temporalRange "window range must be non-empty")
  spec.validate calendar
  match spec.kind with
  | .fixed width every => fixedBoundaries lower upper spec.alignNanos width every
  | .calendar months days => do
    let zone ← orElse spec.timezone (.new .temporalRange "calendar TIME ZONE is missing")
    calendarBoundaries calendar zone months days lower upper spec.alignNanos

theorem floorDiv_bounds {divisor : Int} (value : Int) (positive : 0 < divisor) :
    floorDiv value divisor * divisor ≤ value ∧ value < (floorDiv value divisor + 1) * divisor := by
  have split := tdiv_mul_add_tmod value divisor
  have below := tmod_lt_of_pos value positive
  have above := lt_tmod_of_pos value positive
  have side : ¬ divisor < 0 := by omega
  unfold floorDiv
  simp only [ne_eq, eq_iff_iff, side, iff_false, not_not, add_mul, one_mul]
  split
  next rounded =>
    rw [sub_mul, one_mul]
    omega
  next whole => omega

variable {moment lower start every width upper : Int} {result grown windows : List Boundary}
  {turns : Nat} {calendar : Calendar}

theorem datetimeToNanos_eq {nanos : Int} (read : datetimeToNanos moment = .ok nanos) :
    nanos = moment ∧ i64Min ≤ moment.fdiv 1000000000 * 1000000000 := by
  unfold datetimeToNanos at read
  obtain ⟨whole, scaled, summed⟩ := bind_eq_ok.mp read
  obtain ⟨rfl, inside, -⟩ := checked_eq_some (orElse_eq_ok.mp scaled)
  obtain ⟨rfl, -, -⟩ := checked_eq_some (orElse_eq_ok.mp summed)
  refine ⟨?_, inside⟩
  rw [mul_comm]
  exact mul_fdiv_add_fmod moment 1000000000

variable {spec : WindowSpec}

theorem pushBoundary_cases {finish : Int}
    (pushed : pushBoundary lower start finish result = .ok grown) :
    grown = result ∨ grown = result ++ [(start, finish)] := by
  unfold pushBoundary at pushed
  split at pushed
  · split at pushed
    · cases pushed
    · exact .inr (ok.inj pushed).symm
  · exact .inl (ok.inj pushed).symm

/-- Fixed windows found so far: they ascend, end before the next one starts, and have one width. -/
structure FixedWindows (width next : Int) (windows : List Boundary) : Prop where
  ascend : (windows.map fst).Pairwise (· < ·)
  past : ∀ window ∈ windows, window.1 < next
  wide : ∀ window ∈ windows, window.2 = window.1 + width

theorem FixedWindows.push (positive : 0 < every) (found : FixedWindows width start result)
    (pushed : pushBoundary lower start (start + width) result = .ok grown) :
    FixedWindows width (start + every) grown := by
  rcases pushBoundary_cases pushed with rfl | rfl
  · refine ⟨found.ascend, ?_, found.wide⟩
    intro window mem
    have below := found.past window mem
    omega
  · constructor
    · rw [map_append, pairwise_append]
      refine ⟨found.ascend, by simp, ?_⟩
      intro prior mem later last
      obtain ⟨window, has, rfl⟩ := mem_map.mp mem
      have final : later = start := by simpa using last
      rw [final]
      exact found.past window has
    · intro window mem
      rcases mem_append.mp mem with prior | last
      · have below := found.past window prior
        omega
      · rw [mem_singleton.mp last]
        omega
    · intro window mem
      rcases mem_append.mp mem with prior | last
      · exact found.wide window prior
      · rw [mem_singleton.mp last]

theorem fixedLoop_windows (positive : 0 < every) (found : FixedWindows width start result)
    (ran : fixedLoop lower upper width every turns start result = .ok windows) :
    ∃ next, FixedWindows width next windows := by
  induction turns generalizing start result with
  | zero =>
    cases ran
    exact ⟨start, found⟩
  | succ turns ih =>
    unfold fixedLoop at ran
    split at ran
    · obtain ⟨finish, ended, ran⟩ := bind_eq_ok.mp ran
      obtain ⟨pushed, stored, ran⟩ := bind_eq_ok.mp ran
      obtain ⟨next, moved, ran⟩ := bind_eq_ok.mp ran
      obtain ⟨rfl, -, -⟩ := checked_eq_some (orElse_eq_ok.mp ended)
      obtain ⟨rfl, -, -⟩ := checked_eq_some (orElse_eq_ok.mp moved)
      exact ih (found.push positive stored) ran
    · cases ran
      exact ⟨start, found⟩

section CalendarSearch

variable {zone : String} {months days : Nat} {origin cursor reached : Int}

theorem rewind_le (ran : rewind calendar zone months days origin turns cursor = .ok reached) :
    reached ≤ origin := by
  induction turns generalizing cursor with
  | zero => cases ran
  | succ turns ih =>
    unfold rewind at ran
    split at ran
    · obtain ⟨prior, -, ran⟩ := bind_eq_ok.mp ran
      exact ih ran
    next above =>
      cases ran
      omega

theorem advance_between (below : cursor ≤ origin)
    (ran : advance calendar zone months days origin turns cursor = .ok reached) :
    reached ≤ origin ∧ ∃ next, shiftForward calendar zone months days reached = .ok next ∧
    origin < next := by
  induction turns generalizing cursor with
  | zero => cases ran
  | succ turns ih =>
    unfold advance at ran
    obtain ⟨next, shifted, ran⟩ := bind_eq_ok.mp ran
    split at ran
    next past =>
      cases ran
      exact ⟨below, next, shifted, past⟩
    next short => exact ih (by omega) ran

theorem nanosToLocal_eq (bounded : lower < i64Max) (read : nanosToLocal lower = .ok origin)
    (below : moment ≤ origin)
    (representable : i64Min ≤ moment.fdiv 1000000000 * 1000000000) : origin = lower := by
  have rounded := floorDiv_bounds lower (show (0 : Int) < 1000000000 by decide)
  have wholeSeconds := mul_fdiv_add_fmod moment 1000000000
  have positive := fmod_nonneg_of_pos moment (show (0 : Int) < 1000000000 by decide)
  unfold nanosToLocal saturate at read
  simp only at read
  split at read
  · cases read
    unfold i64Min i64Max at *
    omega
  · cases read

theorem calendarLoop_windows {later : Int}
    (shifted : shiftForward calendar zone months days cursor = .ok later) (past : lower < later)
    (ran : calendarLoop calendar zone months days lower (lower + 1) turns cursor [] = .ok windows) :
    windows = [] ∨ windows = [(cursor, later)] := by
  cases turns with
  | zero => cases ran
  | succ turns =>
    unfold calendarLoop at ran
    obtain ⟨start, began, ran⟩ := bind_eq_ok.mp ran
    obtain ⟨rfl, -⟩ := datetimeToNanos_eq began
    split at ran
    · obtain ⟨next', again, ran⟩ := bind_eq_ok.mp ran
      obtain rfl := ok.inj (shifted.symm.trans again)
      obtain ⟨finish, ended, ran⟩ := bind_eq_ok.mp ran
      obtain ⟨rfl, -⟩ := datetimeToNanos_eq ended
      obtain ⟨result, pushed, ran⟩ := bind_eq_ok.mp ran
      -- the second turn starts behind the range
      have stopped : windows = result := by
        cases turns with
        | zero => cases ran
        | succ turns =>
          unfold calendarLoop at ran
          obtain ⟨start', began, ran⟩ := bind_eq_ok.mp ran
          obtain ⟨rfl, -⟩ := datetimeToNanos_eq began
          rw [if_neg (by omega)] at ran
          exact (ok.inj ran).symm
      rw [stopped]
      exact pushBoundary_cases pushed
    · cases ran
      exact .inl rfl

end CalendarSearch

def WindowEnd (calendar : Calendar) (spec : WindowSpec) (start finish : Int) : Prop :=
  match spec.kind with
  | .fixed width _ => finish = start + width
  | .calendar months days => ∃ zone, spec.timezone = some zone ∧
      shiftForward calendar zone months days start = .ok finish

theorem WindowEnd.unique {finish other : Int} (ends : WindowEnd calendar spec start finish)
    (alsoEnds : WindowEnd calendar spec start other) : finish = other := by
  unfold WindowEnd at ends alsoEnds
  cases shape : spec.kind with
  | fixed width every =>
    rw [shape] at ends alsoEnds
    exact ends.trans alsoEnds.symm
  | calendar months days =>
    rw [shape] at ends alsoEnds
    obtain ⟨zone, named, shifted⟩ := ends
    obtain ⟨zone', alsoNamed, alsoShifted⟩ := alsoEnds
    obtain rfl := Option.some.inj (named.symm.trans alsoNamed)
    exact ok.inj (shifted.symm.trans alsoShifted)

structure Windows (calendar : Calendar) (spec : WindowSpec) (windows : List Boundary) : Prop where
  distinct : (windows.map fst).Nodup
  ends : ∀ window ∈ windows, WindowEnd calendar spec window.1 window.2

theorem validate_everyNanos (shape : spec.kind = .fixed width every)
    (valid : spec.validate calendar = .ok ()) : 0 < every := by
  unfold WindowSpec.validate at valid
  rw [shape] at valid
  obtain ⟨_, positive, -⟩ := bind_eq_ok.mp valid
  rw [require_eq_ok] at positive
  simp only [Bool.not_eq_true', Bool.or_eq_false_iff, decide_eq_false_iff_not] at positive
  omega

theorem windowBoundaries_windows {instant : Int} (bounded : instant < i64Max)
    (found : windowBoundaries calendar instant (instant + 1) spec = .ok windows) :
    Windows calendar spec windows := by
  unfold windowBoundaries at found
  obtain ⟨_, -, found⟩ := bind_eq_ok.mp found
  obtain ⟨_, valid, found⟩ := bind_eq_ok.mp found
  split at found
  next width every shape =>
    have none : FixedWindows width (saturate (spec.alignNanos + saturate (floorDiv (saturate (saturate
        (saturate (instant - width) + 1) - spec.alignNanos)) every * every))) [] :=
          ⟨by simp, nofun, nofun⟩
    obtain ⟨_, fixed⟩ := fixedLoop_windows (validate_everyNanos shape valid) none found
    refine ⟨fixed.ascend.imp fun below => by omega, ?_⟩
    intro window mem
    unfold WindowEnd
    rw [shape]
    exact fixed.wide window mem
  next months days shape =>
    obtain ⟨zone, named, found⟩ := bind_eq_ok.mp found
    obtain ⟨_, -, found⟩ := bind_eq_ok.mp found
    obtain ⟨aligned, -, found⟩ := bind_eq_ok.mp found
    obtain ⟨origin, read, found⟩ := bind_eq_ok.mp found
    obtain ⟨cursor, rewound, found⟩ := bind_eq_ok.mp found
    obtain ⟨cursor', advanced, found⟩ := bind_eq_ok.mp found
    obtain ⟨below, next, shifted, past⟩ := advance_between (rewind_le rewound) advanced
    have representable : i64Min ≤ cursor'.fdiv 1000000000 * 1000000000 := by
      cases turns : calendar.patience with
      | zero =>
        rw [turns] at found
        cases found
      | succ turns =>
        rw [turns] at found
        unfold calendarLoop at found
        obtain ⟨start, began, -⟩ := bind_eq_ok.mp found
        exact (datetimeToNanos_eq began).2
    obtain rfl := nanosToLocal_eq bounded read below representable
    rcases calendarLoop_windows shifted past found with rfl | rfl
    · exact ⟨nodup_nil, nofun⟩
    · refine ⟨by simp, ?_⟩
      intro window mem
      rw [mem_singleton.mp mem]
      unfold WindowEnd
      rw [shape]
      exact ⟨zone, orElse_eq_ok.mp named, shifted⟩

section FixedGrid

def gridWindow (align width every place : Int) : Boundary :=
  (align + place * every, align + place * every + width)

/-- None of the sums and products by which the first start is found is cut off. -/
def Unsaturated (lower align width every : Int) : Prop :=
  let earliest := lower - width + 1
  let steps := floorDiv (earliest - align) every * every
  ∀ value ∈ [lower - width, earliest, earliest - align, steps, align + steps],
    i64Min ≤ value ∧ value ≤ i64Max

theorem saturate_eq {value : Int} (inside : i64Min ≤ value ∧ value ≤ i64Max) :
    saturate value = value := by
  unfold saturate
  omega

theorem mem_pushBoundary {finish : Int} {window : Boundary}
    (pushed : pushBoundary lower start finish result = .ok grown) :
    window ∈ grown ↔ window ∈ result ∨ window = (start, finish) ∧ lower < finish := by
  unfold pushBoundary at pushed
  split at pushed
  next past =>
    split at pushed
    · cases pushed
    · cases pushed
      simp [show lower < finish from past]
  next short =>
    cases pushed
    simp [show ¬ lower < finish from short]

/-- The windows before a place of the grid that meet the range. -/
def Gathered (lower upper align width every place : Int) (windows : List Boundary) : Prop :=
  ∀ window, window ∈ windows ↔ ∃ other < place, window = gridWindow align width every other ∧
    window.1 < upper ∧ lower < window.2

variable {align place : Int}

theorem Gathered.push (gathered : Gathered lower upper align width every place result)
    (inside : align + place * every < upper)
    (pushed : pushBoundary lower (align + place * every) (align + place * every + width) result =
    .ok grown) : Gathered lower upper align width every (place + 1) grown := by
  intro window
  rw [mem_pushBoundary pushed, gathered]
  constructor
  · rintro (⟨other, before, rest⟩ | ⟨rfl, past⟩)
    · exact ⟨other, by omega, rest⟩
    · exact ⟨place, by omega, rfl, inside, past⟩
  · rintro ⟨other, before, rfl, starts, ends⟩
    by_cases last : other = place
    · subst last
      exact .inr ⟨rfl, ends⟩
    · exact .inl ⟨other, by omega, rfl, starts, ends⟩

theorem Gathered.finish {lower upper align width every place : Int} {result : List Boundary}
    (gathered : Gathered lower upper align width every place result) (positive : 0 < every)
    (reached : upper ≤ align + place * every) (window : Boundary) :
    window ∈ result ↔ ∃ other, window = gridWindow align width every other ∧ window.1 < upper ∧
    lower < window.2 := by
  rw [gathered]
  refine ⟨fun ⟨other, _, rest⟩ => ⟨other, rest⟩, ?_⟩
  rintro ⟨other, rfl, starts, ends⟩
  refine ⟨other, ?_, rfl, starts, ends⟩
  have prior : other * every < place * every := by
    simp only [gridWindow] at starts
    omega
  exact Int.lt_of_mul_lt_mul_right prior (Int.le_of_lt positive)

theorem fixedLoop_grid (positive : 0 < every) (enough : (upper - (align + place * every)).toNat ≤ turns)
    (gathered : Gathered lower upper align width every place result)
    (ran : fixedLoop lower upper width every turns (align + place * every) result = .ok windows)
    (window : Boundary) : window ∈ windows ↔ ∃ other, window = gridWindow align width every other ∧
    window.1 < upper ∧ lower < window.2 := by
  induction turns generalizing place result with
  | zero =>
    cases ran
    exact gathered.finish positive (by omega) window
  | succ turns ih =>
    unfold fixedLoop at ran
    split at ran
    next inside =>
      obtain ⟨finish, ended, ran⟩ := bind_eq_ok.mp ran
      obtain ⟨pushed, stored, ran⟩ := bind_eq_ok.mp ran
      obtain ⟨next, moved, ran⟩ := bind_eq_ok.mp ran
      obtain ⟨rfl, -, -⟩ := checked_eq_some (orElse_eq_ok.mp ended)
      obtain ⟨rfl, -, -⟩ := checked_eq_some (orElse_eq_ok.mp moved)
      have moves : align + place * every + every = align + (place + 1) * every := by
        rw [add_mul, one_mul, add_assoc]
      rw [moves] at ran
      exact ih (by omega) (gathered.push inside stored) ran
    next outside =>
      cases ran
      exact gathered.finish positive (by omega) window

/-- Fixed windows are those of the grid that meet the range, in order; the windows of one instant
are those that hold it. -/
theorem fixedBoundaries_grid (positive : 0 < every) (exact : Unsaturated lower align width every)
    (found : fixedBoundaries lower upper align width every = .ok windows) :
    (windows.map fst).Pairwise (· < ·) ∧
    (∀ window, window ∈ windows ↔ ∃ place, window = gridWindow align width every place ∧
      window.1 < upper ∧ lower < window.2) ∧
    (upper = lower + 1 → ∀ place, gridWindow align width every place ∈ windows ↔
      align + place * every ≤ lower ∧ lower < align + place * every + width) := by
  simp only [Unsaturated, forall_mem_cons, not_mem_nil, false_implies, implies_true, and_true] at exact
  obtain ⟨first, second, third, fourth, fifth⟩ := exact
  have bounds := floorDiv_bounds (lower - width + 1 - align) positive
  generalize quotient : floorDiv (lower - width + 1 - align) every = place at *
  rw [fixedBoundaries, saturate_eq first, saturate_eq second, saturate_eq third, quotient,
    saturate_eq fourth, saturate_eq fifth] at found
  have none : Gathered lower upper align width every place [] := by
    intro window
    refine ⟨nofun, ?_⟩
    rintro ⟨other, before, rfl, starts, ends⟩
    have behind : (other + 1) * every ≤ place * every :=
      mul_le_mul_of_nonneg_right before (le_of_lt positive)
    rw [add_mul, one_mul] at behind
    simp only [gridWindow] at ends
    omega
  have grid := fixedLoop_grid positive (Nat.le_refl _) none found
  have start : FixedWindows width (align + place * every) [] := ⟨by simp, nofun, nofun⟩
  obtain ⟨_, fixed⟩ := fixedLoop_windows positive start found
  refine ⟨fixed.ascend, grid, ?_⟩
  rintro rfl place
  rw [grid]
  constructor
  · rintro ⟨_, _, starts, ends⟩
    simp only [gridWindow] at starts ends
    omega
  · intro holds
    exact ⟨place, rfl, by simp only [gridWindow]; omega, by simp only [gridWindow]; omega⟩

theorem fixedBoundaries_grid_sliding :
    fixedBoundaries (-3) 2 1 3 2 = .ok [(-5, -2), (-3, 0), (-1, 2), (1, 4)] ∧
      ∀ window, window ∈ [((-5 : Int), (-2 : Int)), (-3, 0), (-1, 2), (1, 4)] ↔
        ∃ place, window = gridWindow 1 3 2 place ∧ window.1 < 2 ∧ -3 < window.2 :=
  have found : fixedBoundaries (-3) 2 1 3 2 = .ok [(-5, -2), (-3, 0), (-1, 2), (1, 4)] := by decide
  ⟨found, (fixedBoundaries_grid (by decide) (by unfold Unsaturated; decide) found).2.1⟩

end FixedGrid

end IronGraph.Temporal

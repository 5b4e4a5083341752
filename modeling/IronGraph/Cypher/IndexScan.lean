import IronGraph.Cypher.EqualityCore

/-!
A node that matches an equality pattern is among the candidates of the indexes exactly when the
pattern gives each indexed property a value of the kind that is stored: the keys of an index are
apart where Cypher equality is not.
-/

namespace IronGraph.Cypher

open IronGraph.Graph Outcome OrderedMap Except
open List hiding getElem?_insert
open Std (ExtTreeMap)

variable {value : ScalarValue}

section Keys

def keyKind : ScalarKey → Nat
  | .boolean _ => 1
  | .integer _ => 2
  | .float _ => 3
  | .string _ => 4
  | .bytes _ => 5
  | .date _ => 6
  | .localTime _ => 7
  | .zonedTime .. => 8
  | .localDateTime .. => 9
  | .zonedDateTime .. => 10
  | .duration .. => 11

theorem keyKind_tryFrom {key : ScalarKey} (made : ScalarKey.tryFrom value = .ok key) :
    keyKind key = valueKind value := by
  cases value <;> cases made <;> rfl

theorem tryFrom_total (has : value ≠ .null) (plain : value.isDocument = false) :
    ∃ key, ScalarKey.tryFrom value = .ok key := by
  cases value with
  | null => exact absurd rfl has
  | list document => cases plain
  | map document => cases plain
  | _ => exact ⟨_, rfl⟩

theorem tryFrom_document (document : value.isDocument = true) (key : ScalarKey) :
    ScalarKey.tryFrom value ≠ .ok key := by
  cases value <;> first | (cases document; done) | exact nofun

theorem tryFrom_of_same {left right : ScalarValue} (same : sameScalar left right = true) :
    ScalarKey.tryFrom left = ScalarKey.tryFrom right := by
  unfold sameScalar at same
  split at same
  next first second =>
    rw [decide_eq_true_eq] at same
    change ok (ScalarKey.float (floatPlace first)) = _
    rw [same]
    rfl
  · rw [of_decide_eq_true same]

theorem tryFrom_of_equal {left right : ScalarValue} (equal : equalScalars left right = .true)
    (kinds : valueKind left = valueKind right) : ScalarKey.tryFrom left = ScalarKey.tryFrom right := by
  unfold equalScalars at equal
  split at equal
  · cases kinds
  · cases kinds
  · split at equal
    · cases equal
    · split at equal
      · cases equal
      · unfold boolTruth at equal
        split at equal
        next same => exact tryFrom_of_same same
        · cases equal

theorem ofKeys_injective {first second : List ScalarKey}
    (same : IndexKey.ofKeys first = IndexKey.ofKeys second) : first = second := by
  unfold IndexKey.ofKeys at same
  split at same
  · split at same
    · rw [IndexKey.single.inj same]
    · cases same
  · split at same
    · cases same
    · exact IndexKey.composite.inj same

theorem letters_injective {first second : String}
    (same : ScalarKey.letters first = ScalarKey.letters second) : first = second := by
  refine String.toList_injective (map_injective_iff.mpr (fun one other equal => ?_) same)
  exact Char.toNat_inj.mp (Int.ofNat.inj equal)

theorem code_injective {first second : ScalarKey} (same : first.code = second.code) :
    first = second := by
  cases first <;> cases second <;> simp [ScalarKey.code] at same <;> try (simp [same]; done)
  next one other => cases one <;> cases other <;> simp_all
  next one other => rw [letters_injective same]
  next one other =>
    rw [map_injective_iff.mpr (fun first second equal => UInt8.toNat_inj.mp (Int.ofNat.inj equal)) same]
  · simp [same.1, same.2.1, letters_injective same.2.2]

theorem indexCode_injective {first second : IndexKey} (same : first.code = second.code) :
    first = second := by
  cases first with
  | single key =>
    cases second with
    | single other =>
      have codes : key.code = other.code := by simpa [IndexKey.code] using same
      rw [code_injective codes]
    | composite others => simp [IndexKey.code] at same
  | composite keys =>
    cases second with
    | single other => simp [IndexKey.code] at same
    | composite others =>
      have codes : keys.map ScalarKey.code = others.map ScalarKey.code := by
        simpa [IndexKey.code] using same
      rw [map_injective_iff.mpr (fun _ _ => code_injective) codes]

variable {key : IndexKey}

theorem mem_rows {postings : Postings IndexKey} {row : Nat} : row ∈ postings.rows key ↔
    (key, row) ∈ postings := by
  simp [Postings.rows]

theorem mem_between {postings : Postings IndexKey} {row : Nat} :
    row ∈ RangeIndex.between postings (some (key, true)) (some (key, true)) ↔
    (key, row) ∈ postings := by
  simp only [RangeIndex.between, if_true, Finset.mem_image, Finset.mem_filter, Bool.and_eq_true,
    decide_eq_true_eq]
  constructor
  · rintro ⟨⟨other, _⟩, ⟨mem, below, above⟩, rfl⟩
    rw [indexCode_injective (le_antisymm below above)]
    exact mem
  · intro mem
    exact ⟨(key, row), ⟨mem, le_refl _, le_refl _⟩, rfl⟩

end Keys

section Candidates

variable {ρ : Type} (materialize : ScalarValue → Result ρ) (equalOthers : ρ → ρ → Result Truth)
  {label : LabelId} {values : Values} {row : Nat} {store : GraphStore} {node : NodeView}

section

variable (catalog : IndexCatalog)

/-- Every ONLINE scalar index has, under each key, the rows of the live nodes with its label that
give the key. -/
def Consistent (store : GraphStore) : Prop :=
  ∀ (name : String) (entry : IndexEntry), catalog.entries[name]? = some entry → entry.state = .online →
    (entry.definition.kind = .equality ∨ entry.definition.kind = .range) →
    ∃ postings, entry.runtime = some
        (if entry.definition.kind = .equality then .equality postings else .range postings) ∧
      ∀ key row, (key, row) ∈ postings ↔
          ∃ node, (GraphStore.nodeDense row).eval store = some node ∧
        entry.definition.label ∈ node.labels.eval store ∧
        compositeKey store node entry.definition.properties = .ok (some key)

structure Fits (store : GraphStore) (label : LabelId) (values : Values) (row : Nat)
    (node : NodeView) : Prop where
  live : (GraphStore.nodeDense row).eval store = some node
  label : label ∈ node.labels.eval store
  equal : ∀ property value, values[property]? = some value →
    propertyMatches materialize equalOthers store node property value = .ok true

def Offered (label : LabelId) (values : Values) (row : Nat) : Prop :=
  (∀ name, ∃ answer, catalog.equalityCandidatesNamed name label values = .ok answer ∧
    ∀ rows, answer = some rows → row ∈ rows) ∧
  ∃ answer, catalog.equalityCandidates label values = .ok answer ∧
    ∀ rows, answer = some rows → row ∈ rows

/-- In every index that serves the pattern, the given values are of the kinds of the stored ones,
and no documents. -/
def SameKinds (store : GraphStore) (label : LabelId) (values : Values) (node : NodeView) : Prop :=
  ∀ (name : String) (entry : IndexEntry), catalog.entries[name]? = some entry →
    entry.serves label values = true → ∀ property ∈ entry.definition.properties, ∀ value,
      values[property]? = some value → value.isDocument = false ∧
        ((node.property property).eval store).map valueKind = some (valueKind value)

end

variable {materialize equalOthers}

theorem unfolded_scalar (plain : value.isDocument = false) :
    unfolded materialize (.scalar value) = .ok (.scalar value) := by
  change (if value.isDocument = true then _ else _) = _
  rw [plain]
  rfl

theorem matches_inv {store : GraphStore} {node : NodeView} {property : PropertyId} {value : ScalarValue}
    (fits : propertyMatches materialize equalOthers store node property value = .ok true) :
    ∃ stored, (node.property property).eval store = some stored ∧ stored ≠ .null ∧ value ≠ .null ∧
      (value.isDocument = false → stored.isDocument = false ∧ equalScalars stored value = .true) := by
  unfold propertyMatches at fits
  obtain ⟨actual, unfolds, fits⟩ := bind_eq_ok.mp fits
  obtain ⟨truth, compared, fits⟩ := bind_eq_ok.mp fits
  obtain rfl : truth = .true := of_decide_eq_true (ok.inj fits)
  obtain ⟨left, leftEq, compared⟩ := bind_eq_ok.mp compared
  obtain ⟨right, rightEq, compared⟩ := bind_eq_ok.mp compared
  split at compared
  · cases compared
  next has =>
    rw [Bool.or_eq_true, not_or] at has
    -- a property that is not there compares as null
    have nonnull : ((node.property property).eval store).getD .null ≠ .null := by
      intro null
      rw [null] at unfolds
      cases unfolds
      cases leftEq
      exact has.1 rfl
    have given : value ≠ .null := by
      rintro rfl
      cases rightEq
      exact has.2 rfl
    cases found : (node.property property).eval store with
    | none =>
      rw [found] at nonnull
      exact absurd rfl nonnull
    | some stored =>
      rw [found] at nonnull unfolds
      change stored ≠ .null at nonnull
      refine ⟨stored, rfl, nonnull, given, fun plain => ?_⟩
      have valueEq : right = .scalar value := by
        rw [unfolded_scalar plain] at rightEq
        exact (ok.inj rightEq).symm
      subst valueEq
      change fromProperty materialize stored = .ok actual at unfolds
      unfold fromProperty at unfolds
      split at unfolds
      next document =>
        obtain ⟨body, -, unfolds⟩ := bind_eq_ok.mp unfolds
        cases unfolds
        cases leftEq
        cases compared
      next storedPlain =>
        cases unfolds
        rw [Bool.not_eq_true] at storedPlain
        have storedEq : left = .scalar stored := by
          rw [unfolded_scalar storedPlain] at leftEq
          exact (ok.inj leftEq).symm
        subst storedEq
        exact ⟨storedPlain, ok.inj compared⟩

theorem keysOf_cons {value : PropertyId → Result (Option ScalarValue)} {property : PropertyId}
    {found : ScalarValue}
    {rest : List PropertyId} (there : value property = .ok (some found)) (has : found ≠ .null) :
    keysOf value (property :: rest) = do
      let key ← ScalarKey.tryFrom found
      match ← keysOf value rest with
      | none => return none
      | some keys => return some (key :: keys) := by
  conv_lhs => unfold keysOf
  rw [there]
  cases found with
  | null => exact absurd rfl has
  | _ => rfl

/-- Along the properties of an index: without documents there are keys on both sides, and they are
the same exactly when the kinds are; with one there is no key to look up. -/
theorem keysOf_fits (fits : Fits materialize equalOthers store label values row node)
    {properties : List PropertyId}
    (given : ∀ property ∈ properties, values.contains property = true) :
    ((∀ property ∈ properties, ∀ value, values[property]? = some value → value.isDocument = false) →
      ∃ wanted stored, keysOf (givenValue values) properties = .ok (some wanted) ∧
        keysOf (fun property => .ok ((node.property property).eval store)) properties =
          .ok (some stored) ∧
        (wanted = stored ↔ ∀ property ∈ properties, ∀ value, values[property]? = some value →
          ((node.property property).eval store).map valueKind = some (valueKind value))) ∧
    ((∃ property ∈ properties, ∃ value, values[property]? = some value ∧ value.isDocument = true) →
      ∀ answer, keysOf (givenValue values) properties ≠ .ok answer) := by
  induction properties with
  | nil => exact ⟨fun _ => ⟨[], [], rfl, rfl, by simp⟩, by simp⟩
  | cons property rest ih =>
    obtain ⟨plain, document⟩ := ih fun later mem => given later (mem_cons_of_mem _ mem)
    have contained := given property mem_cons_self
    rw [ExtTreeMap.contains_eq_isSome_getElem?] at contained
    obtain ⟨value, there⟩ := Option.isSome_iff_exists.mp contained
    obtain ⟨stored, found, nonnull, wanted, equals⟩ := matches_inv (fits.equal property value there)
    have skips := @keysOf_cons (givenValue values) property value rest
      (by unfold givenValue; rw [there]; rfl) wanted
    constructor
    · intro free
      obtain ⟨storedPlain, same⟩ := equals (free property mem_cons_self value there)
      obtain ⟨key, keyEq⟩ := tryFrom_total wanted (free property mem_cons_self value there)
      obtain ⟨other, otherEq⟩ := tryFrom_total nonnull storedPlain
      obtain ⟨keys, others, keysEq, othersEq, agree⟩ := plain fun later mem =>
        free later (mem_cons_of_mem _ mem)
      refine ⟨key :: keys, other :: others, ?_, ?_, ?_⟩
      · rw [skips, keyEq, keysEq]
        rfl
      · rw [keysOf_cons (congrArg ok found) nonnull, otherEq, othersEq]
        rfl
      · have heads : key = other ↔ valueKind stored = valueKind value := by
          constructor
          · rintro rfl
            rw [← keyKind_tryFrom keyEq, ← keyKind_tryFrom otherEq]
          · intro kinds
            have one := tryFrom_of_equal same kinds
            rw [keyEq, otherEq] at one
            exact (ok.inj one).symm
        rw [List.cons.injEq, heads, agree]
        constructor
        · rintro ⟨first, later⟩ other mem otherValue otherThere
          rcases mem_cons.mp mem with rfl | after
          · rw [there] at otherThere
            cases otherThere
            rw [found, Option.map_some, first]
          · exact later other after otherValue otherThere
        · intro all
          refine ⟨?_, fun other mem => all other (mem_cons_of_mem _ mem)⟩
          have first := all property mem_cons_self value there
          rw [found, Option.map_some] at first
          exact Option.some.inj first
    · rintro ⟨other, mem, otherValue, otherThere, isDocument⟩ answer made
      rw [skips] at made
      obtain ⟨key, keyEq, made⟩ := bind_eq_ok.mp made
      obtain ⟨keys, keysEq, -⟩ := bind_eq_ok.mp made
      rcases mem_cons.mp mem with rfl | after
      · rw [there] at otherThere
        cases otherThere
        exact tryFrom_document isDocument key keyEq
      · exact document ⟨other, after, otherValue, otherThere, isDocument⟩ keys keysEq

theorem lookup_fits {catalog : IndexCatalog} (consistent : Consistent catalog store)
    (fits : Fits materialize equalOthers store label values row node) {name : String}
    {entry : IndexEntry} (declared : catalog.entries[name]? = some entry)
    (serves : entry.serves label values = true) :
    (∃ rows, entry.lookup values = .ok rows ∧ row ∈ rows) ↔
      ∀ property ∈ entry.definition.properties, ∀ value, values[property]? = some value →
        value.isDocument = false ∧ ((node.property property).eval store).map valueKind =
          some (valueKind value) := by
  unfold IndexEntry.serves at serves
  simp only [Bool.and_eq_true, Bool.or_eq_true, decide_eq_true_eq, all_eq_true] at serves
  obtain ⟨⟨⟨online, labelled⟩, kind⟩, given⟩ := serves
  obtain ⟨postings, runtime, posted⟩ := consistent name entry declared online kind
  obtain ⟨plain, document⟩ := keysOf_fits fits given
  have rowsOf : ∀ key, ∃ rows, entry.rows key = .ok rows ∧ (row ∈ rows ↔ (key, row) ∈ postings) := by
    intro key
    unfold IndexEntry.rows
    rw [runtime]
    by_cases equality : entry.definition.kind = .equality
    · rw [if_pos equality]
      exact ⟨_, rfl, mem_rows⟩
    · rw [if_neg equality]
      exact ⟨_, rfl, mem_between⟩
  have onlyOne : ∀ key, (key, row) ∈ postings ↔
      compositeKey store node entry.definition.properties = .ok (some key) := by
    intro key
    rw [posted]
    constructor
    · rintro ⟨other, live, -, made⟩
      rw [fits.live] at live
      cases live
      exact made
    · exact fun made => ⟨node, fits.live, by rw [labelled]; exact fits.label, made⟩
  by_cases free : ∀ property ∈ entry.definition.properties, ∀ value, values[property]? = some value →
      value.isDocument = false
  · obtain ⟨wanted, stored, wantedEq, storedEq, agree⟩ := plain free
    obtain ⟨rows, found, mem⟩ := rowsOf (IndexKey.ofKeys wanted)
    have looked : entry.lookup values = .ok rows := by
      unfold IndexEntry.lookup scalarLookupKey
      rw [wantedEq]
      exact found
    have made : compositeKey store node entry.definition.properties =
        .ok (some (IndexKey.ofKeys stored)) := by
      unfold compositeKey
      rw [storedEq]
      rfl
    have posting : row ∈ rows ↔ wanted = stored := by
      rw [mem, onlyOne, made]
      constructor
      · intro same
        exact (ofKeys_injective (Option.some.inj (ok.inj same))).symm
      · rintro rfl
        rfl
    constructor
    · rintro ⟨others, looked', mem'⟩ property listed value there
      rw [looked] at looked'
      cases looked'
      exact ⟨free property listed value there, agree.mp (posting.mp mem') property listed value there⟩
    · intro kinds
      exact ⟨rows, looked, posting.mpr (agree.mpr fun property listed value there =>
        (kinds property listed value there).2)⟩
  · push Not at free
    obtain ⟨property, listed, value, there, isDocument⟩ := free
    rw [Ne, Bool.not_eq_false] at isDocument
    refine iff_of_false ?_ fun kinds => ?_
    · rintro ⟨rows, looked, -⟩
      unfold IndexEntry.lookup scalarLookupKey at looked
      obtain ⟨key, keyEq, -⟩ := bind_eq_ok.mp looked
      obtain ⟨keys, keysEq, -⟩ := bind_eq_ok.mp keyEq
      exact document ⟨property, listed, value, there, isDocument⟩ keys keysEq
    · exact Bool.false_ne_true ((kinds property listed value there).1.symm.trans isDocument)

theorem chooseCandidate_loop {items : List (String × IndexEntry)} {best : Option (String × Finset Nat)}
    (all : ∀ item ∈ items, item.2.serves label values = true →
      ∃ rows, item.2.lookup values = .ok rows ∧ row ∈ rows)
    (kept : ∀ candidate, best = some candidate → row ∈ candidate.2) :
    ∃ final, items.foldlM (IndexCatalog.chooseCandidate label values) best = .ok final ∧
      ∀ candidate, final = some candidate → row ∈ candidate.2 := by
  induction items generalizing best with
  | nil => exact ⟨best, rfl, kept⟩
  | cons item rest ih =>
    have later : ∀ other ∈ rest, other.2.serves label values = true →
        ∃ rows, other.2.lookup values = .ok rows ∧ row ∈ rows := fun other mem =>
      all other (mem_cons_of_mem _ mem)
    rw [foldlM_cons]
    by_cases serves : item.2.serves label values = true
    · obtain ⟨rows, looked, mem⟩ := all item mem_cons_self serves
      have step : IndexCatalog.chooseCandidate label values best item =
          .ok (if best.all (IndexCatalog.better (item.1, rows)) then some (item.1, rows)
            else best) := by
        unfold IndexCatalog.chooseCandidate
        rw [if_pos serves, looked]
        rfl
      rw [step]
      refine ih later fun candidate chosen => ?_
      split at chosen
      · cases chosen
        exact mem
      · exact kept candidate chosen
    · have step : IndexCatalog.chooseCandidate label values best item = .ok best := by
        unfold IndexCatalog.chooseCandidate
        rw [if_neg serves]
      rw [step]
      exact ih later kept

end Candidates

/-- A matching node is offered by the lookups of a consistent catalog exactly when, in every index
that serves the pattern, the given values are of the kinds of the stored ones. -/
theorem index_offers_iff {ρ : Type} (materialize : ScalarValue → Result ρ)
    (equalOthers : ρ → ρ → Result Truth)
    (catalog : IndexCatalog) (store : GraphStore) (consistent : Consistent catalog store)
    (label : LabelId)
    (values : Values) (row : Nat) (node : NodeView)
    (fits : Fits materialize equalOthers store label values row node) :
    Offered catalog label values row ↔ SameKinds catalog store label values node := by
  constructor
  · rintro ⟨named, -⟩ name entry declared serves
    refine (lookup_fits consistent fits declared serves).mp ?_
    obtain ⟨answer, looked, member⟩ := named name
    simp only [IndexCatalog.equalityCandidatesNamed, declared, serves, if_true] at looked
    obtain ⟨rows, found, answered⟩ := bind_eq_ok.mp looked
    exact ⟨rows, found, member rows (ok.inj answered).symm⟩
  · intro kinds
    have looked : ∀ (name : String) (entry : IndexEntry), catalog.entries[name]? = some entry →
        entry.serves label values = true → ∃ rows, entry.lookup values = .ok rows ∧ row ∈ rows :=
          fun name entry declared serves =>
      (lookup_fits consistent fits declared serves).mpr (kinds name entry declared serves)
    refine ⟨fun name => ?_, ?_⟩
    · unfold IndexCatalog.equalityCandidatesNamed
      cases declared : catalog.entries[name]? with
      | none => exact ⟨none, rfl, nofun⟩
      | some entry =>
        by_cases serves : entry.serves label values = true
        · obtain ⟨rows, found, member⟩ := looked name entry declared serves
          refine ⟨some rows, ?_, fun others same => Option.some.inj same ▸ member⟩
          simp only [if_pos serves, found]
          rfl
        · exact ⟨none, by simp only [if_neg serves], nofun⟩
    · obtain ⟨final, ran, member⟩ := @chooseCandidate_loop label values row catalog.entries.toList none
        (fun item listed => looked item.1 item.2 (ExtTreeMap.mem_toList_iff_getElem?_eq_some.mp listed))
        nofun
      refine ⟨final.map Prod.snd, ?_, fun rows same => ?_⟩
      · unfold IndexCatalog.equalityCandidates
        rw [ran]
        rfl
      · obtain ⟨candidate, chosen, rfl⟩ := Option.map_eq_some_iff.mp same
        exact member candidate chosen

section OneNode

def oneNode : GraphStore := { GraphStore.empty with
    nodes := [{ NodeRow.fresh 1 with
      id := 1, labels := { inline := 8, multiple := none }, active := true }]
    nodeProperties := perform (Properties.set ∅ 0 5 (.integer 1)) ∅ }

def oneIndex : IndexCatalog where
  entries := (∅ : ExtTreeMap String IndexEntry).insert "by value" {
    definition :=
      { name := "by value", kind := .equality, label := 7, properties := [5], unique := false }
    state := .online
    runtime := some (.equality {(.single (.integer 1), 0)}) }

theorem oneIndex_consistent : Consistent oneIndex oneNode := by
  intro name entry declared online kind
  unfold oneIndex at declared
  rcases insert_eq_some.mp declared with ⟨_, rfl⟩ | ⟨_, declared⟩
  · refine ⟨_, rfl, fun key row => ?_⟩
    rw [Finset.mem_singleton, Prod.mk.injEq]
    cases row with
    | zero =>
      have made : compositeKey oneNode ⟨0, 1, .observed, 1⟩ [5] =
          .ok (some (.single (.integer 1))) := by
        decide +kernel
      constructor
      · rintro ⟨rfl, -⟩
        exact ⟨⟨0, 1, .observed, 1⟩, by decide +kernel, by decide +kernel, made⟩
      · rintro ⟨node, live, -, other⟩
        obtain rfl : ⟨0, 1, .observed, 1⟩ = node := by
          have known : (GraphStore.nodeDense 0).eval oneNode = some ⟨0, 1, .observed, 1⟩ := by
            decide +kernel
          exact Option.some.inj (known.symm.trans live)
        exact ⟨(Option.some.inj (ok.inj (made.symm.trans other))).symm, rfl⟩
    | succ row =>
      refine iff_of_false (fun same => nomatch same.2) ?_
      rintro ⟨node, live, -⟩
      exact nomatch live
  · cases declared

def undecoded (_ : ScalarValue) : Result Unit := .error (.internal "no document")

theorem oneNode_fits
    (equal : propertyMatches undecoded (fun _ _ => .ok .false) oneNode ⟨0, 1, .observed,
    1⟩ 5 value = .ok true) :
    Fits undecoded (fun _ _ => .ok .false) oneNode 7 ((∅ : Values).insert 5 value) 0 ⟨0, 1,
      .observed, 1⟩ where
  live := by decide +kernel
  label := by decide +kernel
  equal property other there := by
    rcases insert_eq_some.mp there with ⟨same, rfl⟩ | ⟨_, there⟩
    · rw [← same]
      exact equal
    · cases there

theorem index_offers_integer : Offered oneIndex 7 ((∅ : Values).insert 5 (.integer 1)) 0 := by
  refine (index_offers_iff undecoded (fun _ _ => .ok .false) oneIndex oneNode oneIndex_consistent 7 _ 0
    ⟨0, 1, .observed, 1⟩ (oneNode_fits (by decide +kernel))).mpr ?_
  intro name entry declared serves property listed value there
  unfold oneIndex at declared
  rcases insert_eq_some.mp declared with ⟨_, rfl⟩ | ⟨_, declared⟩
  · obtain rfl := mem_singleton.mp listed
    rw [getElem?_insert, if_pos rfl] at there
    cases there
    exact ⟨rfl, by decide +kernel⟩
  · cases declared

/-- The node with the integer one fits the float one, and the index has it under another key. -/
theorem index_misses_float :
    Fits undecoded (fun _ _ =>
      .ok .false) oneNode 7 ((∅ : Values).insert 5 (.float 0x3ff0000000000000)) 0
      ⟨0, 1, .observed, 1⟩ ∧ Consistent oneIndex oneNode ∧
    oneIndex.equalityCandidates 7 ((∅ : Values).insert 5 (.float 0x3ff0000000000000)) = .ok (some ∅) ∧
    oneIndex.equalityCandidatesNamed "by value" 7 ((∅ : Values).insert 5
      (.float 0x3ff0000000000000)) = .ok (some ∅) :=
  ⟨oneNode_fits (by decide +kernel), oneIndex_consistent, by decide +kernel, by decide +kernel⟩

end OneNode

end IronGraph.Cypher

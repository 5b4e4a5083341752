import IronGraph.Library.FixedBytes
import IronGraph.Graph.PagedVecCore
import IronGraph.Graph.PersistentMap

/-!
The paged vector stands for a list: every stored page is a piece of the list, and a piece whose page
is not stored holds nothing but the default.
-/

namespace IronGraph.Graph

open List hiding getElem?_insert
open Std Outcome DoubleEnded FixedBytes OrderedMap PagedVec Nat

variable {T : Type} {left right index : Nat} {spec : ExtTreeMap RadixKey (PageLeaf T)}
  {capacity : PageCapacity}

theorem reverse_injective {width : Nat} {first second : BitVec width}
    (same : first.reverse = second.reverse) : first = second := by
  apply BitVec.eq_of_getMsbD_eq
  intro index _
  rw [← BitVec.getLsbD_reverse, ← BitVec.getLsbD_reverse, same]

theorem leafKey_injective {first second : Nat} (firstSmall : first < u64Limit)
    (secondSmall : second < u64Limit) (same : leafKey first = leafKey second) : first = second := by
  have limit : u64Limit = 2 ^ 64 := rfl
  have equal := congrArg BitVec.toNat (reverse_injective same)
  rw [BitVec.toNat_ofNat, BitVec.toNat_ofNat, mod_eq_of_lt (by omega), mod_eq_of_lt (by omega)] at equal
  exact equal

theorem checkedWord_eq_some {total : Nat} :
    checkedWord left right = some total ↔ left + right < u64Limit ∧ left + right = total := by
  unfold checkedWord
  split <;> simp_all

theorem addWord_eq_ok (fits : left + right < u64Limit) : addWord left right = .ok (left + right) := by
  rw [addWord, orElse_eq_ok, checkedWord_eq_some]
  exact ⟨fits, rfl⟩

theorem addWord_eq_error (full : u64Limit ≤ left + right) :
    addWord left right = .error addOverflow := by
  rw [addWord, checkedWord, if_neg (Nat.not_lt.mpr full)]
  rfl

theorem lt_divCeil {capacity dividend : Nat} (positive : 0 < capacity) :
    index < divCeil dividend capacity ↔ index * capacity < dividend := by
  unfold divCeil
  split
  next whole =>
    have exact : dividend / capacity * capacity = dividend :=
      Nat.div_mul_cancel (Nat.dvd_of_mod_eq_zero whole)
    rw [← Nat.mul_lt_mul_right positive, exact]
  next part =>
    rw [Nat.lt_succ_iff, Nat.le_div_iff_mul_le positive]
    refine ⟨fun bound => Nat.lt_of_le_of_ne bound ?_, Nat.le_of_lt⟩
    rintro rfl
    exact part (mul_mod_left _ _)

namespace PageDirectory

variable {directory : PageDirectory T} (pages : List (Option (ValuePage T)))

theorem join_resized (slot index : Nat) : (resized pages slot)[index]?.join = pages[index]?.join := by
  unfold resized
  split
  · rw [getElem?_append]
    split
    · rfl
    · rename_i beyond
      rw [getElem?_eq_none (Nat.not_lt.mp beyond), getElem?_replicate]
      split <;> rfl
  · rfl

theorem lt_length_resized (slot : Nat) : slot < (resized pages slot).length := by
  unfold resized
  split
  · rw [length_append, length_replicate]
    omega
  · omega

theorem join_set_resized (slot index : Nat) (stored : Option (ValuePage T)) :
    ((resized pages slot).set slot stored)[index]?.join = if slot = index then stored
      else pages[index]?.join := by
  rw [getElem?_set]
  split
  · rename_i same
    rw [if_pos (same ▸ lt_length_resized pages slot)]
    rfl
  · exact join_resized pages slot index

theorem page_eq (represents : directory.leaves.Represents spec) (page : Nat) : directory.page page =
      (spec[leafKey (page / pagesPerLeaf)]?.bind fun leaf =>
        leaf.pages[page % pagesPerLeaf]?.join) := by
  unfold PageDirectory.page
  rw [represents.get]
  cases spec[leafKey (page / pagesPerLeaf)]? with
  | none => rfl
  | some leaf =>
    show (leaf.pages[page % pagesPerLeaf]?).bind id = leaf.pages[page % pagesPerLeaf]?.join
    cases leaf.pages[page % pagesPerLeaf]? <;> rfl

structure Placed (directory : PageDirectory T) (page : Nat)
    (place : Option (ValuePage T) × (Option (ValuePage T) → PageDirectory T)) : Prop where
  content : place.1 = directory.page page
  sound : ∀ stored, ∃ spec, (place.2 stored).leaves.Represents spec
  firstPage : ∀ stored, (place.2 stored).firstPage = directory.firstPage
  len : ∀ stored, (place.2 stored).len = directory.len
  default : ∀ stored, (place.2 stored).default = directory.default
  page : ∀ stored other, other < u64Limit →
    (place.2 stored).page other = if page = other then stored else directory.page other

theorem ensureLeaf_meets (represents : directory.leaves.Represents spec) (key : RadixKey) :
    Meets (directory.ensureLeaf key)
      (fun leaves => leaves.Represents (spec.insert key (spec[key]?.getD { pages := [] })))
        fun _ => False := by
  unfold ensureLeaf
  rw [represents.get]
  cases found : spec[key]? with
  | none =>
    apply Meets.bind (represents.insert_meets key { pages := [] })
    rintro ⟨previous, leaves⟩ ⟨_, represented⟩
    exact represented
  | some leaf =>
    have same : spec.insert key leaf = spec := by
      apply ExtTreeMap.ext_getElem?
      intro other
      rw [getElem?_insert]
      split
      next here => rw [← here, found]
      · rfl
    show directory.leaves.Represents (spec.insert key leaf)
    rw [same]
    exact represents

theorem pageMut_meets (represents : directory.leaves.Represents spec) {page : Nat}
    (small : page < u64Limit) : Meets (directory.pageMut page)
      (Placed directory page) fun _ => False := by
  unfold pageMut
  apply Meets.bind (ensureLeaf_meets represents _)
  intro leaves ensured
  apply Meets.orElse
  · intro refused
    have absent := ensured.getMut_eq_none refused
    rw [ExtTreeMap.getElem?_insert_self] at absent
    cases absent
  · rintro ⟨leaf, put⟩ lent
    obtain ⟨found, written⟩ := ensured.write lent
    rw [ExtTreeMap.getElem?_insert_self, Option.some.injEq] at found
    subst found
    have stored : ∀ index : Nat,
        (spec[leafKey (page / pagesPerLeaf)]?.getD { pages := [] }).pages[index]?.join =
        spec[leafKey (page / pagesPerLeaf)]?.bind fun leaf => leaf.pages[index]?.join := by
      intro index
      cases spec[leafKey (page / pagesPerLeaf)]? <;> rfl
    refine ⟨?_, fun stored => ⟨_, written _⟩, fun _ => rfl, fun _ => rfl, fun _ => rfl, ?_⟩
    · rw [page_eq represents, join_resized, stored]
    · intro value other otherSmall
      rw [page_eq (written _), page_eq represents, getElem?_insert, getElem?_insert]
      by_cases sameLeaf : leafKey (page / pagesPerLeaf) = leafKey (other / pagesPerLeaf)
      · have leaf : page / pagesPerLeaf = other / pagesPerLeaf :=
          leafKey_injective (Nat.lt_of_le_of_lt (Nat.div_le_self _ _) small)
            (Nat.lt_of_le_of_lt (Nat.div_le_self _ _) otherSmall) sameLeaf
        rw [if_pos sameLeaf, Option.bind_some, join_set_resized, stored, ← sameLeaf]
        by_cases slot : page % pagesPerLeaf = other % pagesPerLeaf
        · have same : page = other := by rw [← div_add_mod page pagesPerLeaf, leaf, slot, div_add_mod]
          rw [if_pos slot, if_pos same]
        · rw [if_neg slot, if_neg (by rintro rfl; exact slot rfl)]
      · rw [if_neg sameLeaf, if_neg sameLeaf, if_neg (by rintro rfl; exact sameLeaf rfl)]

end PageDirectory

/-- A stored page holds its piece of the list; a page is left out only if its piece holds nothing
but the default. -/
def PageHolds (default : Option T) (stored : Option (ValuePage T)) (values : List T) : Prop :=
  match stored with
  | some page => page.asSlice = values ∧ values ≠ []
  | none => ∀ value ∈ values, default = some value

namespace PagedVec

/-- The vector, whose first page is number `first`, stands for the list `values`. -/
structure Holds (capacity : PageCapacity) (first : Nat) (vec : PagedVec T)
    (values : List T) : Prop where
  sound : ∃ spec, vec.leaves.Represents spec
  firstPage : vec.firstPage = first
  aligned : pagesPerLeaf ∣ first
  len : vec.len = values.length
  bounded : values.length < u64Limit
  room : ∀ index, index * capacity.elements < values.length → first + index < u64Limit
  pages : ∀ index, first + index < u64Limit →
    PageHolds vec.default (vec.page (first + index)) (piece capacity.elements values index)

variable {vec : PagedVec T} {values : List T} {directory : PageDirectory T}

theorem page_of_empty (empty : directory.leaves = PersistentMap.empty) (page : Nat) :
    directory.page page = none := by
  have represents : directory.leaves.Represents ∅ := by
    rw [empty]
    exact PersistentMap.Represents.empty
  rw [PageDirectory.page_eq represents, ExtTreeMap.getElem?_empty]
  rfl

theorem Holds.of_bare (vec : PagedVec T) (leaves : vec.leaves = PersistentMap.empty)
    (start : vec.firstPage = 0) (len : vec.len = values.length) (bounded : values.length < u64Limit)
    (filler : ∀ value ∈ values, vec.default = some value) : Holds capacity 0 vec values where
  sound := ⟨∅, by rw [leaves]; exact PersistentMap.Represents.empty⟩
  firstPage := start
  aligned := Nat.dvd_zero _
  len := len
  bounded := bounded
  room := fun index inside => by
    have := Nat.le_mul_of_pos_right index capacity.positive
    omega
  pages := fun index _ => by
    rw [page_of_empty leaves]
    intro value mem
    exact filler value (mem_of_mem_drop (mem_of_mem_take mem))

theorem Holds.empty : Holds capacity 0 (empty : PagedVec T) [] :=
  Holds.of_bare _ rfl rfl rfl (Nat.two_pow_pos 64) nofun

theorem Holds.repeat (value : T) (len : UInt64) :
    Holds capacity 0 («repeat» value len) (replicate len.toNat value) :=
  Holds.of_bare _ rfl rfl length_replicate.symm (by rw [length_replicate]; exact len.toNat_lt)
    fun _ mem => congrArg some (eq_of_mem_replicate mem).symm

variable {first : Nat}

theorem Holds.fits (holds : Holds capacity first vec values) (inside : index < values.length) :
    first + index / capacity.elements < u64Limit :=
  holds.room _ (Nat.lt_of_le_of_lt (Nat.div_mul_le_self _ _) inside)

theorem Holds.checkedPage (holds : Holds capacity first vec values) (inside : index < values.length) :
    checkedWord vec.firstPage (index / capacity.elements) =
      some (first + index / capacity.elements) := by
  rw [holds.firstPage, checkedWord_eq_some]
  exact ⟨holds.fits inside, rfl⟩

theorem getElem?_piece_at (capacity : PageCapacity) (inside : index < values.length) :
    (piece capacity.elements values (index / capacity.elements))[index % capacity.elements]? =
      some values[index] := by
  rw [getElem?_piece_div capacity.positive, getElem?_eq_getElem inside]

theorem Holds.pageMut_meets (holds : Holds capacity first vec values)
    (fits : first + index < u64Limit) : Meets (vec.pageMut (first + index))
      (PageDirectory.Placed vec (first + index)) fun _ => False := by
  obtain ⟨spec, represents⟩ := holds.sound
  exact PageDirectory.pageMut_meets represents fits

theorem Holds.place {directory : PageDirectory T} {before : Nat}
    (holds : Holds capacity first { directory with len := before } values) (after : Nat) {index : Nat}
    (fits : first + index < u64Limit) {place : Option (ValuePage T) × (Option (ValuePage T) →
      PageDirectory T)}
    (placed : PageDirectory.Placed directory (first + index) place) {page : ValuePage T}
      {changed : List T}
    (content : page.asSlice = piece capacity.elements changed index) (nonempty : page.asSlice ≠ [])
    (others : ∀ other, other ≠ index → piece capacity.elements changed other =
      piece capacity.elements values other)
    (len : after = changed.length) (bounded : changed.length < u64Limit)
    (room : ∀ other, other * capacity.elements < changed.length → first + other < u64Limit) :
    Holds capacity first { place.2 (some page) with len := after } changed where
  sound := placed.sound _
  firstPage := (placed.firstPage _).trans holds.firstPage
  aligned := holds.aligned
  len := len
  bounded := bounded
  room := room
  pages := fun other otherFits => by
    show PageHolds (place.2 (some page)).default ((place.2 (some page)).page (first + other)) _
    rw [placed.page _ _ otherFits, placed.default]
    by_cases here : other = index
    · subst here
      rw [if_pos rfl]
      exact ⟨content, content ▸ nonempty⟩
    · rw [if_neg (by omega), others other here]
      exact holds.pages other otherFits

theorem Holds.get (holds : Holds capacity first vec values) (index : Nat) :
    vec.get capacity index = values[index]? := by
  unfold PagedVec.get
  rw [holds.len]
  split
  next outside => rw [getElem?_eq_none outside]
  next within =>
    have inside : index < values.length := Nat.not_le.mp within
    have here := getElem?_piece_at capacity inside
    rw [getElem?_eq_getElem inside, holds.checkedPage inside]
    show ((vec.page (first + index / capacity.elements)).bind _).or vec.default = _
    have stored := holds.pages _ (holds.fits inside)
    cases found : vec.page (first + index / capacity.elements) with
    | some page =>
      rw [found] at stored
      rw [Option.bind_some, stored.1, here]
      rfl
    | none =>
      rw [found] at stored
      exact stored _ (mem_of_getElem? here)

structure Lent (capacity : PageCapacity) (first : Nat) (values : List T) (index : Nat)
    (loan : Loan T) : Prop where
  holds : Holds capacity first loan.vec values
  reference : ∃ value put, values[index]? = some value ∧ loan.reference = some (value, put) ∧
    ∀ new, Holds capacity first (put new) (values.set index new)

theorem Holds.lend_meets (holds : Holds capacity first vec values) (inside : index < values.length)
    (stored : (vec.page (first + index / capacity.elements)).isSome) :
    Meets (vec.lend (first + index / capacity.elements) (index % capacity.elements))
      (Lent capacity first values index) fun _ => False := by
  have fits := holds.fits inside
  have here := getElem?_piece_at capacity inside
  obtain ⟨page, found⟩ := Option.isSome_iff_exists.mp stored
  have content := holds.pages _ fits
  rw [found] at content
  obtain ⟨same, nonempty⟩ := content
  unfold lend
  apply Meets.bind (holds.pageMut_meets fits)
  rintro ⟨current, put⟩ placed
  have has : current = some page := placed.content.trans found
  subst has
  have sameLen : ∀ stored, (put stored).len = values.length :=
    fun stored => (placed.len stored).trans holds.len
  refine ⟨?_, values[index], fun value =>
    put (some (.owned (page.asSlice.set (index % capacity.elements) value))),
    getElem?_eq_getElem inside, ?_, ?_⟩
  · exact Holds.place holds (put _).len fits placed same (same ▸ nonempty) (fun _ _ => rfl) (sameLen _)
      holds.bounded holds.room
  · show (page.asSlice[index % capacity.elements]?.map _).map _ = _
    rw [same, here]
    rfl
  · intro new
    have length : (values.set index new).length = values.length := length_set
    refine Holds.place holds (put _).len fits placed ?_ ?_ ?_ ((sameLen _).trans length.symm)
      (length ▸ holds.bounded) (length ▸ holds.room)
    · rw [piece_set, if_pos rfl, ← same]
      rfl
    · show page.asSlice.set _ new ≠ []
      rw [same]
      simpa using nonempty
    · intro other elsewhere
      rw [piece_set, if_neg elsewhere]

theorem eq_replicate_of_absent {value : T} {default : Option T} {content : List T}
    (absent : PageHolds default none content) (filler : default = some value) :
    content = replicate content.length value := by
  rw [eq_replicate_iff]
  refine ⟨rfl, fun other mem => ?_⟩
  exact (Option.some.inj (filler.symm.trans (absent other mem))).symm

section

variable (holds : Holds capacity first vec values)

include holds

theorem Holds.materialize_meets {value : T}
    (inside : index < values.length) (absent : vec.page (first + index / capacity.elements) = none)
    (filler : vec.default = some value) :
    Meets (vec.materialize capacity (first + index / capacity.elements) index value)
      (fun after => Holds capacity first after values ∧
        (after.page (first + index / capacity.elements)).isSome) fun _ => False := by
  have fits := holds.fits inside
  have content := holds.pages _ fits
  rw [absent] at content
  have here := getElem?_piece_at capacity inside
  unfold materialize
  apply Meets.bind (holds.pageMut_meets fits)
  rintro ⟨current, put⟩ placed
  have filled : replicate (min capacity.elements
      (vec.len - index / capacity.elements * capacity.elements)) value =
      piece capacity.elements values (index / capacity.elements) := by
    rw [eq_replicate_of_absent content filler, piece_length, holds.len, min_comm]
  constructor
  · refine Holds.place holds (put _).len fits placed filled ?_ (fun _ _ => rfl)
      ((placed.len _).trans holds.len) holds.bounded holds.room
    show replicate _ value ≠ []
    rw [filled]
    exact ne_nil_of_mem (mem_of_getElem? here)
  · show ((put _).page _).isSome = true
    rw [placed.page _ _ fits, if_pos rfl]
    rfl

theorem Holds.getMut_meets (inside : index < values.length) :
    Meets (vec.getMut capacity index) (Lent capacity first values index) fun _ => False := by
  unfold getMut
  rw [if_neg (by rw [holds.len]; exact Nat.not_le.mpr inside), holds.checkedPage inside]
  dsimp only
  have content := holds.pages _ (holds.fits inside)
  cases found : vec.page (first + index / capacity.elements) with
  | some stored => exact holds.lend_meets inside (by rw [found]; rfl)
  | none =>
    rw [found] at content
    have filler : vec.default = some values[index] :=
      content _ (mem_of_getElem? (getElem?_piece_at capacity inside))
    rw [filler]
    apply Meets.bind (holds.materialize_meets inside found filler)
    rintro after ⟨held, stored⟩
    exact held.lend_meets inside stored

theorem Holds.getMut_outside (outside : values.length ≤ index) :
    vec.getMut capacity index = .ok { vec, reference := none } := by
  unfold getMut
  rw [if_pos (by rw [holds.len]; exact outside)]

theorem Holds.write_meets (index : Nat) (value : T) : Meets (vec.write capacity index value)
      (fun result => result.2 = values[index]? ∧ Holds capacity first result.1 (values.set index value))
      fun _ => False := by
  unfold write
  by_cases inside : index < values.length
  · apply Meets.bind (holds.getMut_meets inside)
    rintro ⟨after, reference⟩ lent
    obtain ⟨previous, put, found, rfl, written⟩ := lent.reference
    exact ⟨found.symm, written value⟩
  · have outside := Nat.not_lt.mp inside
    apply Meets.passed (holds.getMut_outside outside)
    rw [getElem?_eq_none outside, set_eq_of_length_le outside]
    exact ⟨rfl, holds⟩

theorem Holds.replace_meets (index : Nat) (value : T) : Meets (vec.replace capacity index value)
      (fun result => result.2 = (if index < values.length then .ok ()
          else .error "paged vector index is out of bounds") ∧
        Holds capacity first result.1 (values.set index value)) fun _ => False := by
  unfold replace
  by_cases inside : index < values.length
  · rw [if_pos inside]
    apply Meets.bind (holds.getMut_meets inside)
    rintro ⟨after, reference⟩ lent
    obtain ⟨previous, put, found, rfl, written⟩ := lent.reference
    exact ⟨rfl, written value⟩
  · have outside := Nat.not_lt.mp inside
    rw [if_neg inside]
    apply Meets.passed (holds.getMut_outside outside)
    rw [set_eq_of_length_le outside]
    exact ⟨rfl, holds⟩

theorem Holds.lastPage (fits : first + values.length / capacity.elements < u64Limit) :
    ((vec.page (first + values.length / capacity.elements)).getD
      (vec.freshPage (values.length % capacity.elements))).asSlice =
      piece capacity.elements values (values.length / capacity.elements) := by
  have content := holds.pages _ fits
  have length : (piece capacity.elements values (values.length / capacity.elements)).length =
      values.length % capacity.elements := by
    have split := div_add_mod' values.length capacity.elements
    have small := mod_lt values.length capacity.positive
    rw [piece_length]
    omega
  cases found : vec.page (first + values.length / capacity.elements) with
  | some page =>
    rw [found] at content
    exact content.1
  | none =>
    rw [found] at content
    show (if values.length % capacity.elements = 0 then [] else
      vec.default.elim [] (replicate (values.length % capacity.elements))) = _
    rw [← length]
    cases last : piece capacity.elements values (values.length / capacity.elements) with
    | nil => rfl
    | cons value rest =>
      have filler : vec.default = some value := content value (by rw [last]; exact mem_cons_self)
      rw [if_neg (by simp), filler, ← last]
      exact (eq_replicate_of_absent content filler).symm

theorem Holds.push_meets (value : T) :
    Meets (vec.push capacity value) (fun after => Holds capacity first after (values ++ [value]))
      (fun error => error = addOverflow ∧
        (u64Limit ≤ first + values.length / capacity.elements ∨ u64Limit ≤ values.length + 1)) := by
  unfold push
  rw [holds.firstPage, holds.len]
  by_cases fits : first + values.length / capacity.elements < u64Limit
  · apply Meets.passed (addWord_eq_ok fits)
    apply Meets.bind (holds.pageMut_meets fits).sure
    rintro ⟨current, put⟩ placed
    by_cases counts : values.length + 1 < u64Limit
    · apply Meets.passed (addWord_eq_ok counts)
      have last := holds.lastPage fits
      rw [← placed.content] at last
      have length : (values ++ [value]).length = values.length + 1 := length_append
      refine Holds.place holds _ fits placed ?_ ?_ ?_ length.symm (length ▸ counts) ?_
      · rw [piece_concat capacity.positive, if_pos rfl, ← last]
        rfl
      · exact append_ne_nil_of_right_ne_nil _ (by simp)
      · intro other elsewhere
        rw [piece_concat capacity.positive, if_neg elsewhere]
      · intro other inside
        rw [length, Nat.lt_succ_iff, ← Nat.le_div_iff_mul_le capacity.positive] at inside
        omega
    · rw [addWord_eq_error (Nat.not_lt.mp counts)]
      exact ⟨rfl, .inr (Nat.not_lt.mp counts)⟩
  · rw [addWord_eq_error (Nat.not_lt.mp fits)]
    exact ⟨rfl, .inl (Nat.not_lt.mp fits)⟩

theorem Holds.pageValues (inside : index * capacity.elements < values.length) :
    vec.pageValues capacity index = .ok (piece capacity.elements values index) := by
  have fits := holds.room index inside
  have content := holds.pages index fits
  have page : addWord vec.firstPage index = .ok (first + index) := by
    rw [holds.firstPage]
    exact addWord_eq_ok fits
  have length : min capacity.elements (vec.len - index * capacity.elements) =
      (piece capacity.elements values index).length := by
    rw [piece_length, holds.len, Nat.min_comm]
  unfold PagedVec.pageValues
  refine bind_eq_ok.mpr ⟨_, page, ?_⟩
  rw [length]
  cases found : vec.page (first + index) with
  | some stored =>
    rw [found] at content
    refine bind_eq_ok.mpr ⟨piece capacity.elements values index, ?_, ?_⟩
    · simp [allocated, found, content.1, bind, Except.bind, require, pure, Except.pure]
    · rw [Nat.sub_self]
      cases vec.default <;> simp [pure, Except.pure]
  | none =>
    rw [found] at content
    have here : piece capacity.elements values index ≠ [] := by
      rw [← length_pos_iff, piece_length]
      have := capacity.positive
      omega
    obtain ⟨value, mem⟩ := exists_mem_of_ne_nil _ here
    have filler := content value mem
    refine bind_eq_ok.mpr ⟨[], by rw [allocated, found], ?_⟩
    rw [filler]
    exact congrArg Except.ok (eq_replicate_of_absent content filler).symm

theorem Holds.opens :
    FlatMap.Opens (vec.pageValues capacity) (piece capacity.elements values) (vec.iter capacity) := by
  intro index _ inside
  rw [iter, FlatMap.ofRange, holds.len, lt_divCeil capacity.positive] at inside
  exact holds.pageValues inside

theorem Holds.pending : (vec.iter capacity).pending (piece capacity.elements values) = values := by
  have covers : values.length ≤ divCeil values.length capacity.elements * capacity.elements :=
    Nat.not_lt.mp ((lt_divCeil capacity.positive).not.mp (Nat.lt_irrefl _))
  simp only [FlatMap.pending, iter, FlatMap.ofRange, Option.getD_none, nil_append, append_nil,
    Nat.sub_zero, flatMap_piece, holds.len, take_of_length_le covers]

theorem Holds.iterate_meets (sides : List Side) :
    Meets (vec.iterate capacity sides) (· = drawList sides values) fun _ => False := by
  have drawn := FlatMap.draw_meets sides (vec.iter capacity) holds.opens
  rw [holds.pending] at drawn
  exact drawn

theorem Holds.reload_meets : Meets (do
        let stored ← vec.serialize capacity
        deserialize capacity stored)
      (fun restored => Holds capacity 0 restored values) fun _ => False := by
  have collected := FlatMap.collect_meets (vec.iter capacity) holds.opens
  rw [holds.pending] at collected
  have bounded := holds.bounded
  unfold serialize deserialize
  rw [bind_assoc]
  apply Meets.bind collected
  rintro collected same
  show Meets (collected.foldlM (push capacity) PagedVec.empty) _ _
  rw [same]
  refine Meets.loop (fun done restored => Holds capacity 0 restored done) Holds.empty ?_
  rintro done value rest restored rfl held
  rw [length_append, length_cons] at bounded
  have page := div_le_self done.length capacity.elements
  refine (held.push_meets value).mono (fun after pushed => pushed) ?_
  rintro _ ⟨_, pages | count⟩
  · omega
  · omega

end

theorem removeLeaves_represents {leaves : PersistentMap (PageLeaf T)}
    {spec : ExtTreeMap RadixKey (PageLeaf T)} (represents : leaves.Represents spec)
    (start stop : Nat) :
    (removeLeaves leaves start stop).Represents (eraseKeys spec
      ((range' start (stop - start)).map leafKey)) := by
  unfold removeLeaves eraseKeys
  generalize range' start (stop - start) = numbers
  induction numbers generalizing leaves spec with
  | nil => exact represents
  | cons number rest ih => exact ih (represents.remove (leafKey number)).2

theorem page_removeLeaves {stop page : Nat} (represents : directory.leaves.Represents spec)
    (start : Nat) (bounded : stop ≤ u64Limit) (small : page < u64Limit)
    (beyond : stop ≤ page / pagesPerLeaf) :
    PageDirectory.page { directory with leaves := removeLeaves directory.leaves start stop } page =
      directory.page page := by
  have kept : leafKey (page / pagesPerLeaf) ∉ (List.range' start (stop - start)).map leafKey := by
    intro mem
    obtain ⟨number, inside, same⟩ := mem_map.mp mem
    rw [mem_range'_1] at inside
    have equal := leafKey_injective (by omega) (Nat.lt_of_le_of_lt (Nat.div_le_self _ _) small) same
    omega
  rw [PageDirectory.page_eq (removeLeaves_represents represents start stop),
    PageDirectory.page_eq represents, getElem?_eraseKeys, if_neg kept]

theorem divCeil_mul (count size : Nat) (positive : 0 < size) : divCeil (count * size) size = count := by
  rw [divCeil, if_pos (Nat.mul_mod_left _ _), Nat.mul_div_cancel _ positive]

theorem Holds.discard (holds : Holds capacity first vec values) {count : Nat}
    (short : count * pagesPerLeaf * capacity.elements < values.length)
    (fits : first + count * pagesPerLeaf < u64Limit) : Holds capacity (first + count * pagesPerLeaf)
      { vec with
        leaves := removeLeaves vec.leaves (vec.firstPage / pagesPerLeaf)
          (divCeil (first + count * pagesPerLeaf) pagesPerLeaf)
        firstPage := first + count * pagesPerLeaf
        len := vec.len - count * pagesPerLeaf * capacity.elements }
      (values.drop (count * pagesPerLeaf * capacity.elements)) := by
  obtain ⟨spec, represents⟩ := holds.sound
  obtain ⟨leaf, aligned⟩ := holds.aligned
  have perLeaf : 0 < pagesPerLeaf := by decide
  have whole : first + count * pagesPerLeaf = (leaf + count) * pagesPerLeaf := by
    rw [aligned, Nat.add_mul, Nat.mul_comm pagesPerLeaf]
  have stop : divCeil (first + count * pagesPerLeaf) pagesPerLeaf = leaf + count := by
    rw [whole, divCeil_mul _ _ perLeaf]
  have leaves : leaf + count ≤ u64Limit := by
    have := Nat.le_mul_of_pos_right (leaf + count) perLeaf
    omega
  refine ⟨⟨_, removeLeaves_represents represents _ _⟩, rfl, ⟨leaf + count, by rw [whole, mul_comm]⟩,
    ?_, ?_, ?_, ?_⟩
  · rw [length_drop, ← holds.len]
  · rw [length_drop]
    exact Nat.lt_of_le_of_lt (Nat.sub_le _ _) holds.bounded
  · intro index inside
    rw [length_drop] at inside
    have room := holds.room (count * pagesPerLeaf + index) (by rw [Nat.add_mul]; omega)
    omega
  · intro index small
    rw [piece_drop, add_assoc]
    have beyond : leaf + count ≤ (first + (count * pagesPerLeaf + index)) / pagesPerLeaf := by
      rw [le_div_iff_mul_le perLeaf, ← whole]
      omega
    have kept := page_removeLeaves represents (vec.firstPage / pagesPerLeaf) leaves
      (show first + (count * pagesPerLeaf + index) < u64Limit by omega) beyond
    rw [stop]
    show PageHolds vec.default (PageDirectory.page { vec with leaves := _ } _) _
    rw [kept]
    exact holds.pages _ (by omega)

theorem removable_le (capacity : PageCapacity) (len elements : Nat) :
    removable capacity len elements ≤ len := by
  unfold removable
  split
  · exact Nat.le_refl _
  · have := Nat.div_mul_le_self elements (capacity.elements * pagesPerLeaf)
    omega

theorem divCeil_le (dividend divisor : Nat) : divCeil dividend divisor ≤ dividend := by
  rcases Nat.eq_zero_or_pos divisor with rfl | positive
  · unfold divCeil
    split <;> simp_all
    omega
  · apply Nat.not_lt.mp
    intro above
    have := (lt_divCeil positive).mp above
    have := Nat.le_mul_of_pos_right dividend positive
    omega

theorem Holds.discardPrefixLeaves_meets (holds : Holds capacity first vec values) (elements : Nat) :
    Meets (vec.discardPrefixLeaves capacity elements)
      (fun result => result.2 = removable capacity values.length elements ∧
        ∃ after, Holds capacity after result.1 (values.drop result.2) ∧
          after * capacity.elements + (values.length - result.2) ≤
            first * capacity.elements + values.length)
      (fun error => error = addOverflow ∧ u64Limit ≤ first * capacity.elements + values.length) := by
  have limit := removable_le capacity values.length elements
  unfold discardPrefixLeaves
  rw [holds.len, holds.firstPage]
  dsimp only
  split
  next nothing =>
    rw [nothing]
    exact ⟨rfl, first, holds, Nat.le_refl _⟩
  next something =>
    by_cases fits : first + divCeil (removable capacity values.length elements)
      capacity.elements < u64Limit
    · apply Meets.passed (addWord_eq_ok fits)
      by_cases all : values.length ≤ elements
      · have amount : removable capacity values.length elements = values.length := if_pos all
        rw [amount, Nat.sub_self, if_pos rfl]
        refine ⟨rfl, 0, ?_, by omega⟩
        rw [drop_length]
        exact Holds.of_bare _ rfl rfl rfl (Nat.two_pow_pos 64) nofun
      · have amount : removable capacity values.length elements =
            elements / (capacity.elements * pagesPerLeaf) * pagesPerLeaf * capacity.elements := by
          rw [removable, if_neg all, mul_assoc, mul_comm pagesPerLeaf]
        have short : removable capacity values.length elements < values.length := by
          have := div_mul_le_self elements (capacity.elements * pagesPerLeaf)
          rw [removable, if_neg all]
          omega
        rw [if_neg (by omega)]
        rw [amount] at short fits ⊢
        rw [divCeil_mul _ _ capacity.positive] at fits ⊢
        refine ⟨rfl, first + elements / (capacity.elements * pagesPerLeaf) * pagesPerLeaf, ?_, ?_⟩
        · have discarded := holds.discard short fits
          rw [holds.len, holds.firstPage] at discarded
          exact discarded
        · dsimp only
          rw [Nat.add_mul]
          omega
    · rw [addWord_eq_error (Nat.not_lt.mp fits)]
      have pages := divCeil_le (removable capacity values.length elements) capacity.elements
      have start := Nat.le_mul_of_pos_right first capacity.positive
      exact ⟨rfl, by omega⟩

variable (shared : SharedFlat T)

theorem slice_meets {start count : Nat} (within : start + count ≤ shared.len) :
    Meets (shared.slice start count) (fun view => view.values = (shared.values.drop start).take count)
      fun _ => False := by
  have bounded : shared.len < u64Limit := shared.bounded
  have stop : checkedWord start count = some (start + count) :=
    checkedWord_eq_some.mpr ⟨Nat.lt_of_le_of_lt within bounded, rfl⟩
  unfold SharedFlat.slice
  rw [stop]
  apply Meets.require (decide_eq_true within)
  rfl

theorem fromSharedPages_meets {offset : Nat} (within : offset ≤ shared.len)
    (boundary : offset < shared.len → capacity.elements ∣ offset) (total : directory.len = shared.len)
    (holds : Holds capacity 0 { directory with len := offset } (shared.values.take offset)) : 
    Meets (fromSharedPages capacity shared directory offset)
      (fun vec => Holds capacity 0 vec shared.values) fun _ => False := by
  fun_induction fromSharedPages capacity shared directory offset with
  | case1 directory offset inside pageLen decreases ih =>
    obtain ⟨index, start⟩ := boundary inside
    rw [mul_comm] at start
    have bounded : shared.len < u64Limit := shared.bounded
    have positive := capacity.positive
    have number : offset / capacity.elements = 0 + index := by
      rw [start, Nat.mul_div_cancel _ positive, Nat.zero_add]
    have fits : 0 + index < u64Limit := by
      have := Nat.le_mul_of_pos_right index positive
      omega
    have partly : pageLen ≤ capacity.elements := min_le_left _ _
    have reached : offset + pageLen ≤ shared.len := by omega
    have length : (shared.values.take (offset + pageLen)).length = offset + pageLen :=
      length_take_of_le reached
    apply Meets.bind (slice_meets shared reached)
    intro view sliced
    rw [number]
    obtain ⟨spec, represents⟩ : ∃ spec, directory.leaves.Represents spec := holds.sound
    apply Meets.bind (PageDirectory.pageMut_meets represents fits)
    rintro ⟨current, put⟩ placed
    refine ih view put reached ?_ ((placed.len _).trans total) ?_
    · intro more
      have full : pageLen = capacity.elements := by omega
      rw [full, start]
      exact ⟨index + 1, by rw [Nat.mul_add, Nat.mul_one, Nat.mul_comm]⟩
    · refine Holds.place holds _ fits placed ?_ ?_ ?_ length.symm (by omega) ?_
      · show view.values = _
        rw [sliced, start, piece_take, min_eq_right partly]
      · show view.values ≠ []
        rw [sliced, ← length_pos_iff, length_take, length_drop]
        show 0 < min pageLen (shared.len - offset)
        omega
      · intro other elsewhere
        rw [start]
        exact piece_take_elsewhere shared.values partly elsewhere
      · intro other before
        have := Nat.le_mul_of_pos_right other positive
        omega
  | case2 directory offset outside =>
    have finished : offset = shared.len := Nat.le_antisymm within (Nat.not_lt.mp outside)
    have everything : shared.values.take offset = shared.values :=
      take_of_length_le (Nat.le_of_eq finished.symm)
    rw [everything, finished, ← total] at holds
    exact holds

theorem fromShared_meets :
    Meets (fromShared capacity shared) (fun vec => Holds capacity 0 vec shared.values) fun _ => False :=
  fromSharedPages_meets shared (Nat.zero_le _) (fun _ => Nat.dvd_zero _) rfl Holds.empty

def seedValues : VecSeed T → List T
  | .default => []
  | .shared shared => shared.values
  | .repeated value len => replicate len.toNat value

end PagedVec

/-- What the operations do to a plain list. A prefix is discarded in whole leaves, or all of it. -/
def PlainList.perform (capacity : PageCapacity) (values : List T) : VecOperation T → List T × VecReply T
  | .get index => (values, .value values[index]?)
  | .len => (values, .count values.length)
  | .iterate sides => (values, .values (drawList sides values))
  | .write index value => (values.set index value, .value values[index]?)
  | .replace index value => (values.set index value, .replaced
      (if index < values.length then .ok () else .error "paged vector index is out of bounds"))
  | .push value => (values ++ [value], .done)
  | .discardPrefixLeaves elements =>
    (values.drop (removable capacity values.length elements),
      .count (removable capacity values.length elements))
  | .reload => (values, .done)

def PlainList.component (T : Type) (width : Nat) : Handles.Component String (VecSeed T)
    (VecOperation T) (VecReply T) where
  Value := List T
  make := fun seed => .ok (seedValues seed)
  perform := fun values operation => .ok (PlainList.perform (pageCapacity width) values operation)

namespace PagedVec

variable {used : Nat} {vec : PagedVec T} {values : List T}

def seedCost (seed : VecSeed T) : Nat := (seedValues seed).length

def operationCost : VecOperation T → Nat
  | .push _ => 1
  | _ => 0

def Standing (capacity : PageCapacity) (used : Nat) (vec : PagedVec T) (values : List T) : Prop :=
  ∃ first, Holds capacity first vec values ∧ first * capacity.elements + values.length ≤ used

def Exhausted (used : Nat) (error : String) : Prop := error = addOverflow ∧ u64Limit ≤ used

theorem make_meets (seed : VecSeed T) :
    Meets (make capacity seed)
      (fun vec => Standing capacity (seedCost seed) vec (seedValues seed)) fun _ => False := by
  have fresh : ∀ {vec : PagedVec T}, Holds capacity 0 vec (seedValues seed) →
      Standing capacity (seedCost seed) vec (seedValues seed) := by
    intro vec holds
    exact ⟨0, holds, by rw [Nat.zero_mul, Nat.zero_add]; exact Nat.le_refl _⟩
  cases seed with
  | default => exact fresh Holds.empty
  | shared shared => exact (fromShared_meets shared).mono (fun _ => fresh) fun _ failed => failed
  | repeated value len => exact fresh (Holds.repeat value len)

theorem Standing.push_meets (standing : Standing capacity used vec values) (value : T) :
    Meets (vec.push capacity value)
      (fun after => Standing capacity (used + 1) after (values ++ [value]))
      (Exhausted (used + 1)) := by
  obtain ⟨first, holds, load⟩ := standing
  have start := Nat.le_mul_of_pos_right first capacity.positive
  have pages := Nat.div_le_self values.length capacity.elements
  refine (holds.push_meets value).mono ?_ ?_
  · intro after held
    refine ⟨first, held, ?_⟩
    rw [length_append, length_singleton]
    omega
  · rintro error ⟨rfl, reason⟩
    exact ⟨rfl, by omega⟩

theorem Standing.perform_meets (standing : Standing capacity used vec values) (op : VecOperation T) :
    Meets (vec.perform capacity op) (fun result => (PlainList.perform capacity values op).2 = result.2 ∧
        Standing capacity (used + operationCost op) result.1 (PlainList.perform capacity values op).1)
      (Exhausted (used + operationCost op)) := by
  have whole := standing
  obtain ⟨first, holds, load⟩ := standing
  have sameLength : ∀ (index : Nat) (value : T),
      first * capacity.elements + (values.set index value).length ≤ used := by
    intro index value
    rw [length_set]
    exact load
  cases op with
  | get index => exact ⟨congrArg VecReply.value (holds.get index).symm, whole⟩
  | len => exact ⟨congrArg VecReply.count holds.len.symm, whole⟩
  | iterate sides =>
    apply Meets.bind (holds.iterate_meets sides).sure
    rintro drawn rfl
    exact ⟨rfl, whole⟩
  | write index value =>
    apply Meets.bind (holds.write_meets index value).sure
    rintro ⟨after, previous⟩ ⟨found, held⟩
    exact ⟨congrArg VecReply.value found.symm, first, held, sameLength index value⟩
  | replace index value =>
    apply Meets.bind (holds.replace_meets index value).sure
    rintro ⟨after, outcome⟩ ⟨replaced, held⟩
    exact ⟨congrArg VecReply.replaced replaced.symm, first, held, sameLength index value⟩
  | push value =>
    apply Meets.bind (whole.push_meets value)
    intro after held
    exact ⟨rfl, held⟩
  | discardPrefixLeaves elements =>
    apply Meets.bind ((holds.discardPrefixLeaves_meets elements).mono (fun _ held => held)
      fun _ failed => ⟨failed.1, Nat.le_trans failed.2 load⟩)
    rintro ⟨after, _⟩ ⟨rfl, start, held, less⟩
    refine ⟨rfl, start, held, Nat.le_trans ?_ load⟩
    show _ + (values.drop _).length ≤ _
    rw [length_drop]
    exact less
  | reload =>
    show Meets (vec.serialize capacity >>= fun stored => deserialize capacity stored >>= _) _ _
    rw [← bind_assoc]
    apply Meets.bind holds.reload_meets.sure
    intro restored held
    exact ⟨rfl, 0, held, show 0 * capacity.elements + values.length ≤ used by omega⟩

/-- Every reply of a paged vector is the one a list gives, as long as fewer than `2 ^ 64` values
were put in. -/
theorem component_refines (T : Type) (width : Nat) :
    Handles.RefinesWithin (component T width) (PlainList.component T width)
      (Standing (pageCapacity width)) seedCost operationCost Exhausted where
  make := fun seed => (make_meets seed).mono (fun _ standing =>
    ⟨_, rfl, standing⟩) fun _ failed => failed.elim
  perform := fun op standing =>
    (Standing.perform_meets standing op).mono
      (fun _ agreed => ⟨_, congrArg Except.ok (Prod.ext rfl agreed.1), agreed.2⟩) fun _ failed => failed
  spend := fun more ⟨first, holds, load⟩ => ⟨first, holds, Nat.le_trans load more⟩
  later := fun more ⟨overflow, full⟩ => ⟨overflow, Nat.le_trans full more⟩

end PagedVec

/-- Whatever is done through any number of handles, every reply is the one plain lists give, and
each handle still reads and iterates its own list, from the two ends in any order. A run stops early
only if a machine word overflows, and no run does that puts fewer than `2 ^ 64` values into its
vectors. -/
theorem pagedVec_refines_list (width : Nat)
    (actions : List (Handles.Step (VecSeed T) (VecOperation T))) :
    Meets ((component T width).run actions [])
      (fun result => ∃ lists, (PlainList.component T width).run actions [] = .ok (lists, result.2) ∧
        List.Forall₂ (fun (vec : PagedVec T) (values : List T) =>
          vec.len = values.length ∧ (∀ index, vec.get (pageCapacity width) index = values[index]?) ∧
            ∀ sides, vec.iterate (pageCapacity width) sides =
              .ok (drawList sides values)) result.1 lists)
      (fun error => error = addOverflow ∧ 2 ^ 64 ≤ Handles.volume seedCost operationCost actions) := by
  have simulated := (component_refines T width).run actions 0 List.Forall₂.nil
  rw [zero_add] at simulated
  refine simulated.mono ?_ fun _ exhausted => exhausted
  rintro ⟨pool, replies⟩ ⟨lists, specified, standing⟩
  refine ⟨lists, specified, standing.imp ?_⟩
  rintro vec values ⟨first, holds, _⟩
  refine ⟨holds.len, holds.get, fun sides => ?_⟩
  have drawn := holds.iterate_meets sides
  cases result : vec.iterate (pageCapacity width) sides with
  | error message => exact (drawn.error_fail result).elim
  | ok items => exact congrArg Except.ok (drawn.ok_post result)

end IronGraph.Graph

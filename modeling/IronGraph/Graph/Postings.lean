import IronGraph.Graph.PostingsCore
import IronGraph.Library.Slots

/-!
The postings in every interleaving: an edit takes effect once, on an entry that is in the map; an
entry is closed only when it is empty and nobody is counted on it.
-/

namespace IronGraph.Graph.Posting

open List Option Bool Postings

variable {κ : Type}

section Words

theorem word_ne_zero (row : UInt32) : word row ≠ 0 := Nat.succ_ne_zero _

theorem word_ne_spilled (row : UInt32) : word row ≠ spilled := by
  have bound := row.toNat_lt
  unfold word spilled u64Limit
  omega

@[simp] theorem ofNat_word (row : UInt32) : UInt32.ofNat (word row - 1) = row := by
  simp [word]

variable {rows : PostingRows}

theorem contents_zero (inline : rows.inline = 0) : rows.contents = ∅ := by
  simp [PostingRows.contents, inline]

theorem contents_word {row : UInt32} (inline : rows.inline = word row) : rows.contents = {row} := by
  simp [PostingRows.contents, inline, word_ne_zero, word_ne_spilled]

theorem contents_spilled (inline : rows.inline = spilled) : rows.contents = rows.table := by
  simp [PostingRows.contents, inline, spilled, u64Limit]

end Words

namespace Pc

def entry : Pc → Option Nat
  | .entering entry | .locking entry | .loading entry | .storing entry | .spilling entry _ _
    | .promoting entry
  | .clearing entry | .unspilling entry | .leaving entry | .checking entry | .counting entry
    | .closing entry
  | .removing entry | .unlocking entry => some entry
  | .looking | .creating | .done | .returned => none

def counted : Pc → Bool
  | .locking _ | .loading _ | .storing _ | .spilling .. | .promoting _ | .clearing _ | .unspilling _
    | .leaving _ => true
  | _ => false

def locked : Pc → Bool
  | .loading _ | .storing _ | .spilling .. | .promoting _ | .clearing _ | .unspilling _
    | .leaving _ | .checking _
  | .counting _ | .closing _ | .removing _ | .unlocking _ => true
  | _ => false

def guards : Pc → Bool
  | .entering _ | .locking _ | .loading _ | .storing _ | .spilling .. | .promoting _ | .clearing _
  | .unspilling _ | .leaving _ | .checking _ | .counting _ | .closing _ => true
  | _ => false

def promotes : Pc → Bool
  | .spilling _ _ promote => promote
  | .promoting _ => true
  | _ => false

def Fact (edit : Edit κ) (rows : PostingRows) : Pc → Prop
  | .storing _ => edit.insert = true ∧ rows.inline = 0
  | .spilling _ [row] false => edit.insert = true ∧ row = edit.row ∧ rows.inline = spilled
  | .spilling _ [first, row] true =>
    edit.insert = true ∧ row = edit.row ∧ rows.inline = word first ∧ rows.spill = none
  | .spilling _ [row] true => edit.insert = true ∧ row = edit.row ∧
      ∃ first, rows.inline = word first ∧ rows.spill = some {first}
  | .spilling .. => False
  | .promoting _ =>
    edit.insert = true ∧ ∃ first, rows.inline = word first ∧ rows.spill = some {edit.row, first}
  | .clearing _ => edit.insert = false ∧ rows.inline = word edit.row
  | .unspilling _ => edit.insert = false ∧ rows.inline = spilled
  | .counting _ => rows.inline = spilled
  | .closing _ => rows.contents = ∅
  | _ => True

theorem guards_of_counted {pc : Pc} (counts : pc.counted = true) : pc.guards = true := by
  cases pc <;> first | rfl | cases counts

theorem Fact.congr {edit : Edit κ} {rows other : PostingRows} {pc : Pc} (fact : pc.Fact edit rows)
    (inline : other.inline = rows.inline) (spill : other.spill = rows.spill) :
    pc.Fact edit other := by
  have contents : other.contents = rows.contents := by
    simp only [PostingRows.contents, PostingRows.table, inline, spill]
  unfold Fact at fact ⊢
  split at fact <;> simp_all

end Pc

def countOf (postings : Postings κ) (entry : Nat) : Nat :=
  postings.calls.countP fun call => call.pc.counted && decide (call.pc.entry = some entry)

/-- The entry is in the map as long as it is open, and empty only while somebody is about to notice. -/
structure Open (postings : Postings κ) (address : Nat) (entry : PostingEntry κ) : Prop where
  writers : entry.rows.writers = countOf postings address
  mapped : postings.map entry.key = some address
  guarded : entry.rows.contents = ∅ →
    ∃ (call : Nat) (found : Call κ), postings.calls[call]? = some found ∧ found.pc.guards = true ∧
      found.pc.entry = some address
  kept : ∀ (call : Nat) (found : Call κ), postings.calls[call]? = some found →
    found.pc ≠ .removing address

structure Shut (postings : Postings κ) (address : Nat) (entry : PostingEntry κ) : Prop where
  writers : entry.rows.writers = closed
  uncounted : countOf postings address = 0
  empty : entry.rows.contents = ∅
  removing : postings.map entry.key = some address →
    ∃ (call : Nat) (found : Call κ), postings.calls[call]? = some found ∧ found.pc = .removing address

structure Sound (postings : Postings κ) (address : Nat) (entry : PostingEntry κ) : Prop where
  shape : entry.rows.inline = 0 ∨ (∃ row, entry.rows.inline = word row) ∨
    entry.rows.inline = spilled ∧ entry.rows.spill.isSome
  bare : entry.rows.inline ≠ spilled → entry.rows.spill ≠ none →
    ∃ (call : Nat) (found : Call κ), entry.rows.mutex = some call ∧ postings.calls[call]? = some found ∧
      found.pc.promotes = true
  held : ∀ call : Nat, entry.rows.mutex = some call →
    ∃ found : Call κ, postings.calls[call]? = some found ∧
    found.pc.locked = true ∧ found.pc.entry = some address
  state : Open postings address entry ∨ Shut postings address entry

structure Inv (postings : Postings κ) : Prop where
  mapped : ∀ key address, postings.map key = some address →
    ∃ entry : PostingEntry κ, postings.entries[address]? = some entry ∧ entry.key = key
  called : ∀ (call : Nat) (found : Call κ) (address : Nat), postings.calls[call]? = some found →
    found.pc.entry = some address → ∃ entry : PostingEntry κ, postings.entries[address]? = some entry ∧
      entry.key = found.edit.key ∧
      (found.pc.locked = true → entry.rows.mutex = some call ∧ found.pc.Fact found.edit entry.rows)
  sound : ∀ (address : Nat) (entry : PostingEntry κ), postings.entries[address]? = some entry →
    Sound postings address entry

section Moves

variable {postings : Postings κ} {call address : Nat} {found : Call κ} {entry : PostingEntry κ}
  {pc : Pc} {rows : PostingRows} {also : Call κ}

theorem calls_move (runs : postings.calls[call]? = some found) (other : Nat) :
    ((postings.withRows address rows).withPc call pc).calls[other]? =
      if call = other then some { found with pc } else postings.calls[other]? :=
  Slots.getElem?_modify_of_has runs _ other

theorem calls_apart {other : Nat} (runs : postings.calls[call]? = some found)
    (runs' : postings.calls[other]? = some also)
    (apart : also ≠ found) : ((postings.withRows address rows).withPc call pc).calls[other]? =
      some also := by
  rw [calls_move runs, if_neg]
  · exact runs'
  · rintro rfl
    exact apart (some.inj (runs'.symm.trans runs))

theorem entries_move (has : postings.entries[address]? = some entry) (other : Nat) :
    ((postings.withRows address rows).withPc call pc).entries[other]? =
      if address = other then some { entry with rows } else postings.entries[other]? :=
  Slots.getElem?_modify_of_has has _ other

theorem rowsAt_eq (has : postings.entries[address]? = some entry) :
    postings.rowsAt address = entry.rows := by
  simp [rowsAt, has]

theorem withRows_self (has : postings.entries[address]? = some entry) :
    postings.withRows address entry.rows = postings := by
  have same : postings.entries.modify address (fun found => { found with rows := entry.rows }) =
    postings.entries := by
    refine ext_getElem? fun other => ?_
    rw [Slots.getElem?_modify_of_has has]
    split
    next here => rw [← here, has]
    · rfl
  unfold withRows
  rw [same]

def tally (pc : Pc) (address : Nat) : Nat :=
  if pc.counted && decide (pc.entry = some address) then 1 else 0

theorem countOf_move (runs : postings.calls[call]? = some found) (other : Nat) :
    countOf ((postings.withRows address rows).withPc call pc) other + tally found.pc other =
      countOf postings other + tally pc other := by
  have changed := Slots.countP_set runs { found with pc } fun found =>
    found.pc.counted && decide (found.pc.entry = some other)
  have same : ((postings.withRows address rows).withPc call pc).calls =
      postings.calls.set call { found with pc } :=
    Slots.modify_eq_set runs _
  unfold countOf tally
  rw [same]
  exact changed

theorem exists_counted (some_counted : countOf postings address ≠ 0) : ∃ (call : Nat) (found : Call κ),
    postings.calls[call]? = some found ∧ found.pc.counted = true ∧ found.pc.entry = some address := by
  obtain ⟨found, listed, holds⟩ := countP_pos_iff.mp (Nat.pos_of_ne_zero some_counted)
  obtain ⟨call, runs⟩ := getElem?_of_mem listed
  simp only [and_eq_true, decide_eq_true_eq] at holds
  exact ⟨call, found, runs, holds.1, holds.2⟩

theorem countOf_ne_zero (runs : postings.calls[call]? = some found) (counts : found.pc.counted = true)
    (here : found.pc.entry = some address) : countOf postings address ≠ 0 := by
  refine Nat.ne_of_gt (countP_pos_iff.mpr ⟨found, mem_of_getElem? runs, ?_⟩)
  simp [counts, here]

theorem Inv.open_of_counted (inv : Inv postings) (runs : postings.calls[call]? = some found)
    (counts : found.pc.counted = true) (here : found.pc.entry = some address)
    (has : postings.entries[address]? = some entry) : Open postings address entry := by
  rcases (inv.sound address entry has).state with opened | shut
  · exact opened
  · exact absurd shut.uncounted (countOf_ne_zero runs counts here)

theorem Inv.own (inv : Inv postings) (runs : postings.calls[call]? = some found)
    (here : found.pc.entry = some address)
    (has : postings.entries[address]? = some entry) : entry.key = found.edit.key ∧
      (found.pc.locked = true → entry.rows.mutex = some call ∧
        found.pc.Fact found.edit entry.rows) := by
  obtain ⟨entry', has', own⟩ := inv.called call found address runs here
  cases has.symm.trans has'
  exact own

theorem Inv.alone {other : Nat} (inv : Inv postings) (runs : postings.calls[call]? = some found)
    (locks : found.pc.locked = true) (here : found.pc.entry = some address)
    (too : postings.calls[other]? = some also) (locks' : also.pc.locked = true)
    (there : also.pc.entry = some address) : other = call := by
  obtain ⟨entry, has, -, held⟩ := inv.called call found address runs here
  have one := (held locks).1
  rw [((inv.own too there has).2 locks').1] at one
  exact some.inj one

theorem Sound.frame {after : Postings κ} (sound : Sound postings address entry)
    (map : after.map = postings.map)
    (same : ∀ (other : Nat) (also : Call κ), postings.calls[other]? = some also →
      also.pc.entry = some address → after.calls[other]? = some also)
    (old : ∀ (other : Nat) (also : Call κ), after.calls[other]? = some also →
      also.pc = .removing address → postings.calls[other]? = some also)
    (counts : countOf after address = countOf postings address) : Sound after address entry := by
  obtain ⟨shape, bare, held, state⟩ := sound
  refine ⟨shape, fun inline spill => ?_, fun holder mutex => ?_, ?_⟩
  · obtain ⟨holder, also, mutex, runs, promotes⟩ := bare inline spill
    obtain ⟨again, runs', -, there⟩ := held holder mutex
    rw [runs] at runs'
    cases runs'
    exact ⟨holder, also, mutex, same holder also runs there, promotes⟩
  · obtain ⟨also, runs, locks, there⟩ := held holder mutex
    exact ⟨also, same holder also runs there, locks, there⟩
  · rcases state with opened | shut
    · refine .inl ⟨opened.writers.trans counts.symm, map ▸ opened.mapped, fun empty => ?_,
        fun other also runs removes =>
        opened.kept other also (old other also runs removes) removes⟩
      obtain ⟨other, also, runs, guards, there⟩ := opened.guarded empty
      exact ⟨other, also, same other also runs there, guards, there⟩
    · refine .inr ⟨shut.writers, counts.trans shut.uncounted, shut.empty, fun mapped => ?_⟩
      obtain ⟨other, also, runs, removes⟩ := shut.removing (map ▸ mapped)
      exact ⟨other, also, same other also runs (by rw [removes]; rfl), removes⟩

/-- An edit moves on at its entry. What others know of the entry stays true, and the entry is sound
afterwards. -/
theorem Inv.move (inv : Inv postings) (runs : postings.calls[call]? = some found)
    (here : found.pc.entry = some address) (has : postings.entries[address]? = some entry)
    (stays : pc.entry = some address ∨ pc.entry = none)
    (own : pc.locked = true → rows.mutex = some call ∧ pc.Fact found.edit rows)
    (others : ∀ (other : Nat) (also : Call κ), other ≠ call → postings.calls[other]? = some also →
      also.pc.entry = some address → also.pc.locked = true → entry.rows.mutex = some other →
      also.pc.Fact also.edit entry.rows → rows.mutex = some other ∧ also.pc.Fact also.edit rows)
    (sound : Sound ((postings.withRows address rows).withPc call pc) address { entry with rows }) :
    Inv ((postings.withRows address rows).withPc call pc) := by
  have calls := @calls_move κ postings call address found pc rows runs
  have entries := @entries_move κ postings call address entry pc rows has
  refine ⟨fun key other mapped => ?_, fun other also place runs' there => ?_, fun other also has' => ?_⟩
  · obtain ⟨target, there, keyed⟩ := inv.mapped key other mapped
    rw [entries]
    by_cases same : address = other
    · subst same
      rw [has] at there
      cases there
      exact ⟨_, if_pos rfl, keyed⟩
    · exact ⟨target, by rw [if_neg same]; exact there, keyed⟩
  · rw [calls] at runs'
    rw [entries]
    by_cases self : call = other
    · subst self
      rw [if_pos rfl] at runs'
      cases runs'
      change pc.entry = some place at there
      obtain rfl : address = place := by
        rcases stays with stays | stays
        · rw [stays] at there
          exact some.inj there
        · rw [stays] at there
          cases there
      exact ⟨_, if_pos rfl, (inv.own runs here has).1, own⟩
    · rw [if_neg self] at runs'
      obtain ⟨target, found', keyed, facts⟩ := inv.called other also place runs' there
      by_cases same : address = place
      · subst same
        rw [has] at found'
        cases found'
        refine ⟨_, if_pos rfl, keyed, fun locks => ?_⟩
        exact others other also (Ne.symm self) runs' there locks (facts locks).1 (facts locks).2
      · exact ⟨target, by rw [if_neg same]; exact found', keyed, facts⟩
  · rw [entries] at has'
    by_cases same : address = other
    · subst same
      rw [if_pos rfl] at has'
      cases has'
      exact sound
    · rw [if_neg same] at has'
      refine (inv.sound other also has').frame rfl (fun before also' runs' there => ?_)
        (fun before also' runs' removes => ?_) ?_
      · refine calls_apart runs runs' ?_
        rintro rfl
        exact same (some.inj (here.symm.trans there))
      · rw [calls] at runs'
        split at runs'
        · cases runs'
          obtain rfl : pc = .removing other := removes
          rcases stays with stays | stays
          · exact absurd (some.inj stays.symm) same
          · cases stays
        · exact runs'
      · have changed := @countOf_move κ postings call address found pc rows runs other
        have before : tally found.pc other = 0 := by simp [tally, here, same]
        have after : tally pc other = 0 := by
          rcases stays with stays | stays
          · simp [tally, stays, same]
          · simp [tally, stays]
        omega

theorem Sound.held_move (sound : Sound postings address entry)
    (runs : postings.calls[call]? = some found) (mutex : rows.mutex = entry.rows.mutex)
    (keeps : found.pc.locked = true → pc.locked = true ∧ pc.entry = some address) (holder : Nat)
    (held : rows.mutex = some holder) : ∃ also : Call κ,
      ((postings.withRows address rows).withPc call pc).calls[holder]? = some also ∧
        also.pc.locked = true ∧ also.pc.entry = some address := by
  obtain ⟨also, runs', locks, there⟩ := sound.held holder (mutex ▸ held)
  rw [calls_move runs]
  by_cases self : call = holder
  · subst self
    rw [runs] at runs'
    cases runs'
    exact ⟨_, if_pos rfl, keeps locks⟩
  · exact ⟨also, by rw [if_neg self]; exact runs', locks, there⟩

theorem Open.move (opened : Open postings address entry) (runs : postings.calls[call]? = some found)
    (writers : rows.writers + tally found.pc address = entry.rows.writers + tally pc address)
    (guarded : rows.contents = ∅ → pc.guards = true ∧ pc.entry = some address ∨ rows.writers ≠ 0 ∨
      found.pc.guards = false ∧ entry.rows.contents = ∅) (kept : pc ≠ .removing address) :
    Open ((postings.withRows address rows).withPc call pc) address { entry with rows } := by
  have counts := @countOf_move κ postings call address found pc rows runs address
  have before := opened.writers
  have after : rows.writers = countOf ((postings.withRows address rows).withPc call pc)
      address := by omega
  refine ⟨after, opened.mapped, fun empty => ?_, fun other also runs' => ?_⟩
  · rcases guarded empty with ⟨guards, there⟩ | many | ⟨idle, empty'⟩
    · exact ⟨call, _, (calls_move runs call).trans (if_pos rfl), guards, there⟩
    · obtain ⟨other, also, runs', counted, there⟩ := exists_counted (after ▸ many)
      exact ⟨other, also, runs', Pc.guards_of_counted counted, there⟩
    · obtain ⟨other, also, runs', guards, there⟩ := opened.guarded empty'
      refine ⟨other, also, calls_apart runs runs' ?_, guards, there⟩
      rintro rfl
      exact false_ne_true (idle.symm.trans guards)
  · rw [calls_move runs] at runs'
    split at runs'
    · cases runs'
      exact kept
    · exact opened.kept other also runs'

theorem Shut.move (shut : Shut postings address entry) (runs : postings.calls[call]? = some found)
    (uncounted : pc.counted = false) (writers : rows.writers = entry.rows.writers)
    (contents : rows.contents = entry.rows.contents)
    (kept : found.pc ≠ .removing address ∨ postings.map entry.key ≠ some address) :
    Shut ((postings.withRows address rows).withPc call pc) address { entry with rows } := by
  have counts := @countOf_move κ postings call address found pc rows runs address
  have none_before := shut.uncounted
  have none_after : tally pc address = 0 := by simp [tally, uncounted]
  refine ⟨writers.trans shut.writers, by omega, contents.trans shut.empty, fun mapped => ?_⟩
  obtain ⟨other, also, runs', removes⟩ := shut.removing mapped
  refine ⟨other, also, calls_apart runs runs' ?_, removes⟩
  rintro rfl
  rcases kept with kept | unmapped
  · exact kept removes
  · exact unmapped mapped

section

variable (inv : Inv postings) (runs : postings.calls[call]? = some found)
  (here : found.pc.entry = some address) (has : postings.entries[address]? = some entry)

include inv runs here has

theorem Inv.pass (inline : rows.inline = entry.rows.inline) (spill : rows.spill = entry.rows.spill)
    (mutex : rows.mutex = entry.rows.mutex) (stays : pc.entry = some address ∨ pc.entry = none)
    (locks : pc.locked = found.pc.locked) (remains : pc.locked = true → pc.entry = some address)
    (fact : pc.locked = true → pc.Fact found.edit entry.rows)
    (promotes : found.pc.promotes = true → pc.promotes = true)
    (state : Open ((postings.withRows address rows).withPc call pc) address { entry with rows } ∨
      Shut ((postings.withRows address rows).withPc call pc) address { entry with rows }) :
    Inv ((postings.withRows address rows).withPc call pc) := by
  have sound := inv.sound address entry has
  refine inv.move runs here has stays (fun locked => ?_)
    (fun other also _ _ _ _ held known => ⟨mutex.trans held, known.congr inline spill⟩) ⟨?_,
      fun bare full => ?_, sound.held_move runs mutex fun locked => ?_, state⟩
  · have held := (inv.own runs here has).2 (locks ▸ locked)
    exact ⟨mutex.trans held.1, (fact locked).congr inline spill⟩
  · change rows.inline = 0 ∨ (∃ row, rows.inline = word row) ∨ rows.inline = spilled ∧ rows.spill.isSome
    rw [inline, spill]
    exact sound.shape
  · change rows.inline ≠ spilled at bare
    change rows.spill ≠ none at full
    obtain ⟨holder, also, held, runs', promoting⟩ := sound.bare (inline ▸ bare) (spill ▸ full)
    by_cases self : call = holder
    · subst self
      rw [runs] at runs'
      cases runs'
      exact ⟨call, _, mutex.trans held, (calls_move runs call).trans (if_pos rfl), promotes promoting⟩
    · exact ⟨holder, also, mutex.trans held,
        (calls_move runs holder).trans (by rw [if_neg self]; exact runs'), promoting⟩
  · have locked' := locks.trans locked
    exact ⟨locked', remains locked'⟩

variable (locks : found.pc.locked = true)
include locks

theorem Inv.stay (locks' : pc.locked = true) (stays : pc.entry = some address)
    (idle : found.pc.promotes = false) (counts : pc.counted = found.pc.counted)
    (fact : pc.Fact found.edit entry.rows)
    (guards : found.pc.guards = true → entry.rows.contents = ∅ →
      pc.guards = true ∨ entry.rows.writers ≠ 0)
    (kept : pc ≠ .removing address) (before : found.pc ≠ .removing address ∨
    postings.map entry.key ≠ some address) : Inv (postings.withPc call pc) := by
  have after : Inv ((postings.withRows address entry.rows).withPc call pc) := by
    refine inv.pass runs here has rfl rfl rfl (.inl stays) (locks'.trans locks.symm) (fun _ => stays)
      (fun _ => fact) (fun promotes => absurd (idle.symm.trans promotes) false_ne_true) ?_
    rcases (inv.sound address entry has).state with opened | shut
    · refine .inl (opened.move runs (by simp [tally, here, stays, counts]) (fun empty => ?_) kept)
      cases guarding : found.pc.guards with
      | false => exact .inr (.inr ⟨rfl, empty⟩)
      | true =>
        rcases guards guarding empty with guards | many
        · exact .inl ⟨guards, stays⟩
        · exact .inr (.inl many)
    · refine .inr (shut.move runs ?_ rfl rfl before)
      rw [counts, eq_false_iff]
      exact fun counted => countOf_ne_zero runs counted here shut.uncounted
  rw [withRows_self has] at after
  exact after

theorem Inv.spill_eq_none (idle : found.pc.promotes = false) (inline : entry.rows.inline ≠ spilled) :
    entry.rows.spill = none := by
  by_contra full
  obtain ⟨holder, also, held, runs', promotes⟩ := (inv.sound address entry has).bare inline full
  obtain rfl := some.inj (((inv.own runs here has).2 locks).1.symm.trans held)
  cases runs.symm.trans runs'
  exact false_ne_true (idle.symm.trans promotes)

theorem Inv.write (counts : found.pc.counted = true) (locks' : pc.locked = true)
    (counts' : pc.counted = true) (stays : pc.entry = some address)
    (mutex : rows.mutex = entry.rows.mutex)
    (writers : rows.writers = entry.rows.writers) (fact : pc.Fact found.edit rows)
    (shape : rows.inline = 0 ∨ (∃ row, rows.inline = word row) ∨ rows.inline = spilled ∧
      rows.spill.isSome)
    (bare : rows.inline ≠ spilled → rows.spill ≠ none → pc.promotes = true) :
    Inv ((postings.withRows address rows).withPc call pc) := by
  have sound := inv.sound address entry has
  have held : rows.mutex = some call := mutex.trans ((inv.own runs here has).2 locks).1
  refine inv.move runs here has (.inl stays) (fun _ => ⟨held, fact⟩)
    (fun other also apart runs' there locked _ _ =>
      absurd (inv.alone runs locks here runs' locked there) apart)
    ⟨shape, fun inline full => ⟨call, _, held, (calls_move runs call).trans (if_pos rfl),
      bare inline full⟩, sound.held_move runs mutex fun _ => ⟨locks', stays⟩,
      .inl ((inv.open_of_counted runs counts here has).move runs ?_ (fun _ => .inl
        ⟨Pc.guards_of_counted counts', stays⟩) ?_)⟩
  · simp [tally, counts, counts', here, stays, writers]
  · rintro rfl
    cases counts'

end

section Away

variable {key : κ} (runs : postings.calls[call]? = some found) (away : found.pc.entry = none)

include runs

theorem calls_withPc (other : Nat) : (postings.withPc call pc).calls[other]? =
      if call = other then some { found with pc } else postings.calls[other]? :=
  Slots.getElem?_modify_of_has runs _ other

include away

theorem calls_elsewhere {other : Nat} {also : Call κ} (runs' : postings.calls[other]? = some also)
    (there : also.pc.entry = some address) : (postings.withPc call pc).calls[other]? = some also := by
  refine @calls_apart κ postings call 0 found pc .empty also other runs runs' ?_
  rintro rfl
  cases away.symm.trans there

theorem countOf_withPc (uncounted : pc.counted = false) :
    countOf (postings.withPc call pc) address = countOf postings address := by
  have changed : countOf (postings.withPc call pc) address + tally found.pc address = _ :=
    @countOf_move κ postings call 0 found pc .empty runs address
  simpa [tally, away, uncounted] using changed

theorem Sound.withPc (sound : Sound postings address entry) (uncounted : pc.counted = false)
    (unlocked : pc.locked = false) : Sound (postings.withPc call pc) address entry := by
  refine sound.frame rfl (fun _ _ runs' there => calls_elsewhere runs away runs' there)
    (fun before also runs' removes => ?_) (countOf_withPc runs away uncounted)
  rw [calls_withPc runs] at runs'
  split at runs'
  · cases runs'
    obtain rfl : pc = .removing address := removes
    cases unlocked
  · exact runs'

theorem Inv.repoint (inv : Inv postings) (uncounted : pc.counted = false) (unlocked : pc.locked = false)
    (there : ∀ address, pc.entry = some address →
      ∃ entry : PostingEntry κ, postings.entries[address]? = some entry ∧
      entry.key = found.edit.key) : Inv (postings.withPc call pc) := by
  refine ⟨inv.mapped, fun other also place runs' there' => ?_, fun address entry has => ?_⟩
  · rw [calls_withPc runs] at runs'
    split at runs'
    · cases runs'
      obtain ⟨entry, has, named⟩ := there place there'
      exact ⟨entry, has, named, fun locks => absurd (unlocked.symm.trans locks) false_ne_true⟩
    · exact inv.called other also place runs' there'
  · exact (inv.sound address entry has).withPc runs away uncounted unlocked

variable [DecidableEq κ]

omit runs away in
theorem entries_withEntry (address : Nat) : (postings.withEntry key).entries[address]? =
    if address = postings.entries.length then some { key, rows := .empty }
      else postings.entries[address]? := by
  change (postings.entries ++ [_])[address]? = _
  rw [getElem?_append]
  split
  next inside => rw [if_neg (by omega)]
  next outside =>
    split
    next here => simp [here]
    · rw [getElem?_eq_none (by simp; omega), getElem?_eq_none (by omega)]

omit runs away in
theorem Sound.withEntry (sound : Sound postings address entry)
    (has : postings.entries[address]? = some entry)
    (absent : postings.map key = none) : Sound (postings.withEntry key) address entry := by
  have inside := (List.getElem?_eq_some_iff.mp has).1
  refine ⟨sound.shape, sound.bare, sound.held, ?_⟩
  rcases sound.state with opened | shut
  · refine .inl ⟨opened.writers, ?_, opened.guarded, opened.kept⟩
    change (if entry.key = key then _ else _) = _
    rw [if_neg]
    · exact opened.mapped
    · rintro rfl
      cases absent.symm.trans opened.mapped
  · refine .inr ⟨shut.writers, shut.uncounted, shut.empty, fun mapped => shut.removing ?_⟩
    change (if entry.key = key then _ else _) = _ at mapped
    split at mapped
    · exact absurd (some.inj mapped) (by omega)
    · exact mapped

theorem Inv.create (inv : Inv postings) (absent : postings.map found.edit.key = none) :
    Inv ((postings.withEntry found.edit.key).withPc call (.entering postings.entries.length)) := by
  have fresh := @entries_withEntry κ postings found.edit.key _
  have outside : ∀ (other : Nat) (also : Call κ), postings.calls[other]? = some also →
      also.pc.entry ≠ some postings.entries.length := by
    intro other also runs' there
    obtain ⟨entry, has, -⟩ := inv.called other also _ runs' there
    rw [getElem?_eq_none (Nat.le_refl _)] at has
    cases has
  have runs' : (postings.withEntry found.edit.key).calls[call]? = some found := runs
  refine ⟨fun key address mapped => ?_, fun other also place running'' there => ?_,
    fun address entry has => ?_⟩
  · change (postings.withEntry found.edit.key).map key = some address at mapped
    change ∃ entry, (postings.withEntry found.edit.key).entries[address]? = some entry ∧ entry.key = key
    change (if key = found.edit.key then _ else _) = _ at mapped
    rw [fresh]
    split at mapped
    next same =>
      cases mapped
      exact ⟨_, if_pos rfl, same.symm⟩
    · obtain ⟨entry, has, named⟩ := inv.mapped key address mapped
      have inside := (List.getElem?_eq_some_iff.mp has).1
      exact ⟨entry, by rw [if_neg (by omega)]; exact has, named⟩
  · change ∃ entry, (postings.withEntry found.edit.key).entries[place]? = some entry ∧ _
    rw [calls_withPc runs'] at running''
    rw [fresh]
    split at running''
    · cases running''
      cases there
      exact ⟨_, if_pos rfl, rfl, nofun⟩
    · obtain ⟨entry, has, rest⟩ := inv.called other also place running'' there
      have inside := (List.getElem?_eq_some_iff.mp has).1
      exact ⟨entry, by rw [if_neg (by omega)]; exact has, rest⟩
  · change (postings.withEntry found.edit.key).entries[address]? = some entry at has
    rw [fresh] at has
    split at has
    next here =>
      cases has
      subst here
      have none_counted : countOf (postings.withEntry found.edit.key) postings.entries.length = 0 := by
        by_contra some_counted
        obtain ⟨other, also, running'', -, there⟩ := exists_counted some_counted
        exact outside other also running'' there
      refine ⟨.inl rfl, fun _ full => absurd rfl full, nofun,
        .inl ⟨?_, if_pos rfl, fun _ => ?_, ?_⟩⟩
      · exact ((countOf_withPc runs' away rfl).trans none_counted).symm
      · exact ⟨call, _, (calls_withPc runs' call).trans (if_pos rfl), rfl, rfl⟩
      · intro other also running'' removes
        rw [calls_withPc runs'] at running''
        split at running''
        · cases running''
          cases removes
        · exact outside other also running'' (by rw [removes]; rfl)
    · exact ((inv.sound address entry has).withEntry has absent).withPc runs' away rfl rfl

end Away

end Moves

end IronGraph.Graph.Posting

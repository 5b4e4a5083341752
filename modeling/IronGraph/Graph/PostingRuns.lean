import IronGraph.Graph.PostingSteps

/-!
The postings are a linearizable set for every key: over a whole execution, every finished edit took
effect once between its call and its return, and a reader returns what was there throughout and
nothing that was never there.
-/

namespace IronGraph.Graph.Posting

open List Option Nat Postings

variable {κ : Type} [DecidableEq κ] {call : Nat}

namespace Pc

def settled : Pc → Bool
  | .leaving _ | .checking _ | .counting _ | .closing _ | .removing _ | .unlocking _ | .done
    | .returned => true
  | _ => false

end Pc

inductive Phase (call : Nat) : Call κ → Event κ → Pc → Prop
  | quiet {edit : Edit κ} {before after : Pc} (same : after.settled = before.settled) :
      Phase call ⟨edit, before⟩ .quiet after
  | effect {edit : Edit κ} {before after : Pc} (open_before : before.settled = false)
      (settled_after : after.settled = true) : Phase call ⟨edit, before⟩ (.effect call edit) after
  | finish {edit : Edit κ} : Phase call ⟨edit, .done⟩ (.finish call) .returned

theorem advance_phase {event : Event κ} {postings next : Postings κ} {found : Call κ}
    (moves : postings.advance call found = some (event, next)) :
    ∃ pc, next.calls = postings.calls.modify call (fun found => { found with pc }) ∧
      next.readers = postings.readers ∧ Phase call found event pc := by
  obtain ⟨edit, pc⟩ := found
  -- an operation either decides the edit, from an unsettled place to a settled one, or leaves it as
  -- it was
  cases pc with
  | looking | creating | entering | locking | loading | counting | closing | removing | checking =>
    simp only [advance] at moves
    repeat' split at moves
    all_goals cases moves
    all_goals first
      | exact ⟨_, rfl, rfl, .quiet rfl⟩
      | exact ⟨_, rfl, rfl, .effect rfl rfl⟩
  | spilling entry rows promote =>
    simp only [advance] at moves
    rcases rows with _ | ⟨row, _ | ⟨_, _⟩⟩
    · cases moves
    · dsimp only at moves
      split at moves
      · cases moves; exact ⟨_, rfl, rfl, .quiet rfl⟩
      · cases moves; exact ⟨_, rfl, rfl, .effect rfl rfl⟩
    · cases moves; exact ⟨_, rfl, rfl, .quiet rfl⟩
  | leaving entry =>
    cases moves
    refine ⟨_, rfl, rfl, .quiet ?_⟩
    split <;> rfl
  | unlocking entry => cases moves; exact ⟨_, rfl, rfl, .quiet rfl⟩
  | done => cases moves; exact ⟨_, rfl, rfl, .finish⟩
  | returned => cases moves
  | storing entry | promoting entry | clearing entry | unspilling entry =>
    cases moves
    exact ⟨_, rfl, rfl, .effect rfl rfl⟩

inductive Moved (before after : Postings κ) : Event κ → Prop
  | rest (calls : after.calls = before.calls) (readers : after.readers = before.readers) :
      Moved before after .quiet
  | call (edit : Edit κ) (calls : after.calls = before.calls ++ [⟨edit, .looking⟩])
      (readers : after.readers = before.readers) : Moved before after (.call before.calls.length edit)
  | advance {call : Nat} {found : Call κ} {event : Event κ} {pc : Pc}
      (running : before.calls[call]? = some found)
      (calls : after.calls = before.calls.modify call fun found => { found with pc })
      (readers : after.readers = before.readers) (phase : Phase call found event pc) :
        Moved before after event
  | begin (key : κ) (calls : after.calls = before.calls)
      (readers : after.readers = before.readers ++ [.looking key]) :
      Moved before after (.begin before.readers.length key)
  | look {reader : Nat} {state : Reader κ} (calls : after.calls = before.calls)
      (readers : after.readers = before.readers.set reader state) : Moved before after .quiet
  | answer {reader : Nat} {key : κ} {rows : Finset UInt32}
      (running : before.readers[reader]? = some (.answering key rows))
      {state : Reader κ} (calls : after.calls = before.calls)
      (readers : after.readers = before.readers.set reader state) :
        Moved before after (.answer reader rows)

theorem Postings.Step.moved {postings next : Postings κ} {event : Event κ}
    (step : Step postings event next) : Moved postings next event := by
  cases step with
  | rest => exact .rest rfl rfl
  | call edit => exact .call edit rfl rfl
  | advance runs moves =>
    obtain ⟨pc, calls, readers, phase⟩ := advance_phase moves
    exact .advance runs calls readers phase
  | begin key => exact .begin key rfl rfl
  | look bucket runs moves =>
    obtain ⟨state, rfl, rfl | ⟨key, rows, rfl, rfl⟩⟩ := look_spec moves
    · exact .look rfl rfl
    · exact .answer runs rfl rfl
  | scanned runs all => exact .look rfl rfl

namespace Execution

variable (execution : Execution κ) {key : κ} {row : UInt32} {moment : Nat}

theorem inv (moment : Nat) : Inv (execution.state moment) := by
  induction moment with
  | zero =>
    rw [execution.start]
    exact inv_empty
  | succ moment ih => exact (stepped ih (execution.step moment)).inv

theorem stepped (moment : Nat) :
    Stepped (execution.state moment) (execution.event moment) (execution.state (moment + 1)) :=
  Posting.stepped (execution.inv moment) (execution.step moment)

def effects (key : κ) : Nat → Finset UInt32
  | 0 => ∅
  | moment + 1 => (execution.event moment).onMembers key (effects key moment)

theorem members_eq_effects (key : κ) (moment : Nat) :
    (execution.state moment).members key = execution.effects key moment := by
  induction moment with
  | zero =>
    rw [execution.start]
    rfl
  | succ moment ih => rw [(execution.stepped moment).members, ih, effects]

theorem mem_effects : row ∈ execution.effects key moment ↔
    ∃ at_, at_ < moment ∧ (∃ call, execution.event at_ = .effect call ⟨key, row, true⟩) ∧
      ∀ later, at_ < later → later < moment → ∀ call, execution.event later ≠ .effect call ⟨key,
        row, false⟩ := by
  induction moment with
  | zero => simp [effects]
  | succ moment ih =>
    -- an effect at this very moment decides, and anything else leaves the row as it was
    by_cases inserted : ∃ call, execution.event moment = .effect call ⟨key, row, true⟩
    · obtain ⟨call, event⟩ := inserted
      refine iff_of_true ?_ ⟨moment, lt_succ_self _, ⟨call, event⟩, fun later after before => by omega⟩
      rw [effects, event]
      simp [Event.onMembers, Edit.apply]
    · by_cases removed : ∃ call, execution.event moment = .effect call ⟨key, row, false⟩
      · obtain ⟨call, event⟩ := removed
        refine iff_of_false ?_ ?_
        · rw [effects, event]
          simp [Event.onMembers, Edit.apply]
        · rintro ⟨at_, before, ⟨other, event'⟩, kept⟩
          rcases lt_or_eq_of_le (le_of_lt_succ before) with prior | rfl
          · exact kept moment prior (lt_succ_self _) call event
          · exact inserted ⟨other, event'⟩
      · have same : row ∈ execution.effects key (moment + 1) ↔ row ∈ execution.effects key moment := by
          rw [effects]
          cases event : execution.event moment with
          | effect call edit =>
            change row ∈ (if edit.key = key then edit.apply _ else _) ↔ _
            split
            next here =>
              have other : row ≠ edit.row := by
                rintro rfl
                subst here
                cases inserts : edit.insert with
                | true => exact inserted ⟨call, by rw [event, ← inserts]⟩
                | false => exact removed ⟨call, by rw [event, ← inserts]⟩
              unfold Edit.apply
              split <;> simp [other]
            · exact Iff.rfl
          | _ => exact Iff.rfl
        rw [same, ih]
        constructor
        · rintro ⟨at_, before, inserts, kept⟩
          refine ⟨at_, lt_succ_of_lt before, inserts, fun later after within call event => ?_⟩
          rcases lt_or_eq_of_le (le_of_lt_succ within) with prior | rfl
          · exact kept later after prior call event
          · exact removed ⟨call, event⟩
        · rintro ⟨at_, before, inserts, kept⟩
          rcases lt_or_eq_of_le (le_of_lt_succ before) with prior | rfl
          · exact ⟨at_, prior, inserts, fun later after within =>
              kept later after (lt_succ_of_lt within)⟩
          · exact absurd inserts inserted

section Calls

variable {call moment : Nat} {found : Call κ} {edit : Edit κ}

theorem call_next (runs : (execution.state moment).calls[call]? = some found) :
    ∃ pc, (execution.state (moment + 1)).calls[call]? = some { found with pc } ∧
      (found.pc.settled = true → pc.settled = true) := by
  have moved := (execution.step moment).moved
  generalize execution.event moment = event at moved
  cases moved with
  | rest calls | begin _ calls | look calls | answer _ calls =>
    exact ⟨found.pc, by rw [calls]; exact runs, id⟩
  | call edit calls =>
    refine ⟨found.pc, ?_, id⟩
    rw [calls, List.getElem?_append_left (List.getElem?_eq_some_iff.mp runs).1]
    exact runs
  | @advance other also _ pc runs' calls _ phase =>
    rw [calls, Slots.getElem?_modify]
    by_cases here : other = call
    · subst here
      rw [runs] at runs'
      cases runs'
      refine ⟨pc, by rw [if_pos rfl, runs]; rfl, fun settled => ?_⟩
      cases phase with
      | quiet same => exact same.trans settled
      | effect open_before => exact absurd (open_before.symm.trans settled) Bool.false_ne_true
      | finish => rfl
    · exact ⟨found.pc, by rw [if_neg here]; exact runs, id⟩

theorem call_later {later : Nat} (runs : (execution.state moment).calls[call]? = some found)
    (after : moment ≤ later) : ∃ pc, (execution.state later).calls[call]? = some { found with pc } ∧
      (found.pc.settled = true → pc.settled = true) := by
  induction later, after using le_induction with
  | base => exact ⟨found.pc, runs, id⟩
  | succ later _ ih =>
    obtain ⟨pc, runs', settled⟩ := ih
    obtain ⟨pc', running'', settled'⟩ := execution.call_next runs'
    exact ⟨pc', running'', settled' ∘ settled⟩

theorem of_effect (event : execution.event moment = .effect call edit) :
    ∃ before after, (execution.state moment).calls[call]? = some ⟨edit, before⟩ ∧
    before.settled = false ∧
      (execution.state (moment + 1)).calls[call]? = some ⟨edit, after⟩ ∧ after.settled = true := by
  have moved := (execution.step moment).moved
  rw [event] at moved
  cases moved with
  | advance runs calls _ phase =>
    cases phase with
    | effect open_before settled_after =>
      refine ⟨_, _, runs, open_before, ?_, settled_after⟩
      rw [calls, Slots.getElem?_modify, if_pos rfl, runs]
      rfl

theorem of_finish (event : execution.event moment = .finish call) :
    ∃ edit, (execution.state moment).calls[call]? = some ⟨edit, .done⟩ := by
  have moved := (execution.step moment).moved
  rw [event] at moved
  cases moved with
  | advance runs _ _ phase =>
    cases phase with
    | finish => exact ⟨_, runs⟩

theorem effect_once {first second : Nat} {other : Edit κ}
    (event : execution.event first = .effect call edit)
    (again : execution.event second = .effect call other) : first = second := by
  obtain ⟨before, after, runs, unsettled, runs', settled⟩ := execution.of_effect event
  obtain ⟨before', after', running₂, unsettled', running₂', settled'⟩ := execution.of_effect again
  rcases lt_trichotomy first second with prior | same | later
  · obtain ⟨pc, found, still⟩ := execution.call_later runs' prior
    rw [running₂] at found
    cases found
    exact absurd (unsettled'.symm.trans (still settled)) Bool.false_ne_true
  · exact same
  · obtain ⟨pc, found, still⟩ := execution.call_later running₂' later
    rw [runs] at found
    cases found
    exact absurd (unsettled.symm.trans (still settled')) Bool.false_ne_true

theorem call_origin (runs : (execution.state moment).calls[call]? = some found) :
    (∃ start, start < moment ∧ execution.event start = .call call found.edit) ∧
      (found.pc.settled = true → ∃ at_, at_ < moment ∧
        execution.event at_ = .effect call found.edit) := by
  induction moment generalizing found with
  | zero =>
    rw [execution.start] at runs
    cases runs
  | succ moment ih =>
    have prior : ∀ {was : Call κ}, (execution.state moment).calls[call]? = some was →
        was.edit = found.edit → (was.pc.settled = found.pc.settled ∨
          execution.event moment = .effect call found.edit) →
        (∃ start, start < moment + 1 ∧ execution.event start = .call call found.edit) ∧
          (found.pc.settled = true → ∃ at_, at_ < moment + 1 ∧
            execution.event at_ = .effect call found.edit) := by
      intro was runs' edited cause
      obtain ⟨⟨start, before, event⟩, effect⟩ := ih runs'
      rw [edited] at event effect
      refine ⟨⟨start, lt_succ_of_lt before, event⟩, fun settled => ?_⟩
      rcases cause with same | now
      · obtain ⟨at_, before', event'⟩ := effect (same.trans settled)
        exact ⟨at_, lt_succ_of_lt before', event'⟩
      · exact ⟨moment, lt_succ_self _, now⟩
    have moved := (execution.step moment).moved
    generalize happens : execution.event moment = event at moved prior
    cases moved with
    | rest calls | begin _ calls | look calls | answer _ calls =>
      rw [calls] at runs
      exact prior runs rfl (.inl rfl)
    | call edit calls =>
      rw [calls, getElem?_append] at runs
      split at runs
      · exact prior runs rfl (.inl rfl)
      next outside =>
        obtain rfl := mem_singleton.mp (mem_of_getElem? runs)
        have last : call = (execution.state moment).calls.length := by
          have bound := (List.getElem?_eq_some_iff.mp runs).1
          simp only [List.length_singleton] at bound
          omega
        subst last
        exact ⟨⟨moment, lt_succ_self _, happens⟩, nofun⟩
    | @advance other also _ pc runs' calls _ phase =>
      rw [calls, Slots.getElem?_modify] at runs
      split at runs
      next here =>
        subst here
        rw [runs'] at runs
        cases runs
        refine prior runs' rfl ?_
        cases phase with
        | quiet same => exact .inl same.symm
        | effect => exact .inr rfl
        | finish => exact .inl rfl
      · exact prior runs rfl (.inl rfl)

theorem effect_called (event : execution.event moment = .effect call edit) :
    ∃ start, start < moment ∧ execution.event start = .call call edit := by
  obtain ⟨_, _, runs, -⟩ := execution.of_effect event
  exact (execution.call_origin runs).1

theorem finished (event : execution.event moment = .finish call) :
    ∃ edit start at_, start < at_ ∧ at_ < moment ∧ execution.event start = .call call edit ∧
      execution.event at_ = .effect call edit ∧
      ∀ other edit', execution.event other = .effect call edit' → other = at_ := by
  obtain ⟨edit, runs⟩ := execution.of_finish event
  obtain ⟨-, effect⟩ := execution.call_origin runs
  obtain ⟨at_, before, happens⟩ := effect rfl
  obtain ⟨start, before', called⟩ := execution.effect_called happens
  exact ⟨edit, start, at_, before', before, called, happens, fun other edit' again =>
    execution.effect_once again happens⟩

theorem call_unique {first second : Nat} {other : Edit κ}
    (event : execution.event first = .call call edit)
    (again : execution.event second = .call call other) : first = second ∧ edit = other := by
  have placed : ∀ {moment : Nat} {edit : Edit κ}, execution.event moment = .call call edit →
      (execution.state moment).calls[call]? = none ∧
        (execution.state (moment + 1)).calls[call]? = some ⟨edit, .looking⟩ := by
    intro moment edit event
    have moved := (execution.step moment).moved
    rw [event] at moved
    cases moved with
    | call edit calls => exact ⟨getElem?_eq_none (le_refl _), by simp [calls]⟩
    | advance _ _ _ phase => cases phase
  obtain ⟨none_first, there_first⟩ := placed event
  obtain ⟨none_second, there_second⟩ := placed again
  rcases lt_trichotomy first second with prior | same | later
  · obtain ⟨pc, found, -⟩ := execution.call_later there_first prior
    cases none_second.symm.trans found
  · subst same
    cases event.symm.trans again
    exact ⟨rfl, rfl⟩
  · obtain ⟨pc, found, -⟩ := execution.call_later there_second later
    cases none_first.symm.trans found

end Calls

section Readers

variable {moment start reader finish : Nat} {rows : Finset UInt32}

theorem readers_grow {later : Nat} (after : moment ≤ later) :
    (execution.state moment).readers.length ≤ (execution.state later).readers.length := by
  induction later, after using le_induction with
  | base => exact le_refl _
  | succ later _ ih =>
    refine le_trans ih ?_
    have moved := (execution.step later).moved
    generalize execution.event later = event at moved
    cases moved with
    | rest _ readers | call _ _ readers | advance _ _ readers => rw [readers]
    | begin _ _ readers | look _ readers | answer _ _ readers => simp [readers]

theorem begin_moved (event : execution.event start = .begin reader key) :
    reader = (execution.state start).readers.length ∧
      (execution.state (start + 1)).readers[reader]? = some (.looking key) := by
  have moved := (execution.step start).moved
  rw [event] at moved
  cases moved with
  | begin key _ readers => exact ⟨rfl, by simp [readers]⟩
  | advance _ _ _ phase => cases phase

/-- What a reader that began after `start` knows at a moment: the rows that were there at every
moment since, and the rows that were there at one. -/
def Reads (start moment : Nat) (key : κ) : Reader κ → Prop :=
  let throughout (row : UInt32) : Prop :=
    ∀ other, start < other → other ≤ moment → row ∈ (execution.state other).members key
  let once (row : UInt32) : Prop :=
    ∃ other, start < other ∧ other ≤ moment ∧ row ∈ (execution.state other).members key
  fun
  | .looking key' => key' = key
  | .loading key' address => key' = key ∧
      (∃ entry : PostingEntry κ, (execution.state moment).entries[address]? = some entry ∧
        entry.key = key) ∧
      ∀ row, throughout row → (execution.state moment).map key = some address
  | .scanning key' address visited found => key' = key ∧
      (∃ entry : PostingEntry κ, (execution.state moment).entries[address]? = some entry ∧
        entry.key = key ∧ entry.rows.inline = spilled) ∧
      (∀ row, throughout row → (execution.state moment).map key = some address ∧
        (row ∈ visited → row ∈ found)) ∧
      ∀ row ∈ found, once row
  | .answering key' rows => key' = key ∧ (∀ row, throughout row → row ∈ rows) ∧ ∀ row ∈ rows, once row
  | .returned => True

variable {execution}

theorem Reads.rest {state : Reader κ} (began : start < moment)
    (reads : execution.Reads start moment key state) :
    execution.Reads start (moment + 1) key state := by
  have stepped := execution.stepped moment
  have prior : ∀ {row : UInt32}, (∀ other, start < other → other ≤ moment + 1 →
      row ∈ (execution.state other).members key) →
      ∀ other, start < other → other ≤ moment → row ∈ (execution.state other).members key :=
    fun throughout other after before => throughout other after (le_succ_of_le before)
  have kept : ∀ {row : UInt32} {addr : Nat}, (∀ other, start < other → other ≤ moment + 1 →
      row ∈ (execution.state other).members key) → (execution.state moment).map key = some addr →
      (execution.state (moment + 1)).map key = some addr := by
    intro row addr throughout mapped
    exact stepped.kept key addr mapped
      (Finset.ne_empty_of_mem (throughout moment began (le_succ moment)))
  cases state with
  | looking key' => exact reads
  | loading key' addr =>
    obtain ⟨same, ⟨entry, has, named⟩, mapped⟩ := reads
    obtain ⟨later, has', named', -⟩ := stepped.entries addr entry has
    exact ⟨same, ⟨later, has', named'.trans named⟩, fun row throughout =>
      kept throughout (mapped row (prior throughout))⟩
  | scanning key' addr visited found =>
    obtain ⟨same, ⟨entry, has, named, spills⟩, complete, sound⟩ := reads
    obtain ⟨later, has', named', spills'⟩ := stepped.entries addr entry has
    refine ⟨same, ⟨later, has', named'.trans named, spills' spills⟩, fun row throughout => ?_,
      fun row mem => ?_⟩
    · obtain ⟨mapped, seen⟩ := complete row (prior throughout)
      exact ⟨kept throughout mapped, seen⟩
    · obtain ⟨other, after, before, mem'⟩ := sound row mem
      exact ⟨other, after, le_succ_of_le before, mem'⟩
  | answering key' rows =>
    obtain ⟨same, complete, sound⟩ := reads
    refine ⟨same, fun row throughout => complete row (prior throughout), fun row mem => ?_⟩
    obtain ⟨other, after, before, mem'⟩ := sound row mem
    exact ⟨other, after, le_succ_of_le before, mem'⟩
  | returned => trivial

theorem mem_members_of_contents {addr : Nat} {entry : PostingEntry κ}
    (has : (execution.state moment).entries[addr]? = some entry) (mem : row ∈ entry.rows.contents) :
    row ∈ (execution.state moment).members entry.key := by
  rcases ((execution.inv moment).sound addr entry has).state with opened | shut
  · rw [members_eq opened.mapped has]
    exact mem
  · rw [shut.empty] at mem
    cases mem

theorem Reads.look {state after : Reader κ} {bucket : Finset UInt32} {event : Event κ}
    {next : Postings κ} (began : start < moment) (reads : execution.Reads start moment key state)
    (inside : reader < (execution.state moment).readers.length)
    (moves : (execution.state moment).look reader bucket state = some (event, next))
    (becomes : next.readers[reader]? = some after) : execution.Reads start moment key after := by
  have placed : ∀ {state : Reader κ},
      ((execution.state moment).withReader reader state).readers[reader]? = some after →
      state = after := by
    intro state becomes
    change ((execution.state moment).readers.set reader state)[reader]? = some after at becomes
    rw [Slots.getElem?_set_of_lt inside, if_pos rfl] at becomes
    exact some.inj becomes
  have present_now : ∀ {row : UInt32}, (∀ other, start < other → other ≤ moment →
      row ∈ (execution.state other).members key) → row ∈ (execution.state moment).members key :=
    fun throughout => throughout moment began (le_refl _)
  cases state with
  | looking key' =>
    obtain rfl : key' = key := reads
    simp only [Postings.look] at moves
    cases mapped : (execution.state moment).map key' with
    | none =>
      rw [mapped] at moves
      cases moves
      obtain rfl := placed becomes
      refine ⟨rfl, fun row throughout => ?_, by simp⟩
      have mem := present_now throughout
      simp [members, mapped] at mem
    | some addr =>
      rw [mapped] at moves
      cases moves
      obtain rfl := placed becomes
      exact ⟨rfl, (execution.inv moment).mapped key' addr mapped, fun _ _ => mapped⟩
  | loading key' addr =>
    obtain ⟨rfl, ⟨entry, has, rfl⟩, mapped⟩ := reads
    simp only [Postings.look, rowsAt_eq has] at moves
    split at moves
    next zero =>
      cases moves
      obtain rfl := placed becomes
      refine ⟨rfl, fun row throughout => ?_, by simp⟩
      have mem := present_now throughout
      rw [members_eq (mapped row throughout) has, contents_zero zero] at mem
      exact mem
    next nonzero =>
      split at moves
      next spills =>
        cases moves
        obtain rfl := placed becomes
        exact ⟨rfl, ⟨entry, has, rfl, spills⟩, fun row throughout =>
          ⟨mapped row throughout, by simp⟩, by simp⟩
      next single =>
        cases moves
        obtain rfl := placed becomes
        have contents : entry.rows.contents = {UInt32.ofNat (entry.rows.inline - 1)} := by
          simp [PostingRows.contents, nonzero, single]
        refine ⟨rfl, fun row throughout => ?_, fun row mem => ?_⟩
        · rw [← contents, ← members_eq (mapped row throughout) has]
          exact present_now throughout
        · exact ⟨moment, began, le_refl _, mem_members_of_contents has (contents ▸ mem)⟩
  | scanning key' addr visited found =>
    obtain ⟨rfl, ⟨entry, has, rfl, spills⟩, complete, sound⟩ := reads
    simp only [Postings.look, rowsAt_eq has] at moves
    cases moves
    obtain rfl := placed becomes
    have contents := contents_spilled spills
    refine ⟨rfl, ⟨entry, has, rfl, spills⟩, fun row throughout => ?_, fun row mem => ?_⟩
    · obtain ⟨mapped, seen⟩ := complete row throughout
      refine ⟨mapped, fun visits => ?_⟩
      rcases Finset.mem_union.mp visits with before | now
      · exact Finset.mem_union_left _ (seen before)
      · refine Finset.mem_union_right _ (Finset.mem_inter.mpr ⟨?_, now⟩)
        rw [← contents, ← members_eq mapped has]
        exact present_now throughout
    · rcases Finset.mem_union.mp mem with before | now
      · exact sound row before
      · refine ⟨moment, began, le_refl _, mem_members_of_contents has ?_⟩
        rw [contents]
        exact (Finset.mem_inter.mp now).1
  | answering key' rows =>
    cases moves
    obtain rfl := placed becomes
    trivial
  | returned => cases moves

variable (execution)

theorem reads (event : execution.event start = .begin reader key) (after : start < moment) :
    ∃ state, (execution.state moment).readers[reader]? = some state ∧
      execution.Reads start moment key state := by
  induction moment, after using le_induction with
  | base => exact ⟨.looking key, (execution.begin_moved event).2, rfl⟩
  | succ moment after ih =>
    obtain ⟨state, runs, reads⟩ := ih
    have inside := (List.getElem?_eq_some_iff.mp runs).1
    generalize later : execution.state (moment + 1) = next
    have step := execution.step moment
    rw [later] at step
    generalize execution.event moment = happens at step
    cases step with
    | rest => exact ⟨state, runs, reads.rest after⟩
    | call edit => exact ⟨state, runs, reads.rest after⟩
    | begin key' =>
      refine ⟨state, ?_, reads.rest after⟩
      change (_ ++ _)[reader]? = _
      rw [getElem?_append_left inside]
      exact runs
    | advance runs' moves =>
      obtain ⟨_, _, readers, _⟩ := advance_phase moves
      exact ⟨state, by rw [readers]; exact runs, reads.rest after⟩
    | @look _ other state' _ bucket seen moves =>
      by_cases here : other = reader
      · subst here
        rw [runs] at seen
        cases seen
        obtain ⟨becomes, rfl, -⟩ := look_spec moves
        have there : ((execution.state moment).withReader other becomes).readers[other]? =
            some becomes := by
          change (set _ other becomes)[other]? = _
          rw [Slots.getElem?_set_of_lt inside, if_pos rfl]
        exact ⟨becomes, there, (reads.look after inside moves there).rest after⟩
      · obtain ⟨becomes, rfl, -⟩ := look_spec moves
        refine ⟨state, ?_, reads.rest after⟩
        change (set _ other becomes)[reader]? = _
        rw [getElem?_set_ne here]
        exact runs
    | @scanned other key' addr visited found seen all =>
      by_cases here : other = reader
      · subst here
        rw [runs] at seen
        cases seen
        obtain ⟨same, -, complete, sound⟩ := reads
        have answers : execution.Reads start moment key (.answering key' found) :=
          ⟨same, fun row throughout => (complete row throughout).2 (all row), sound⟩
        refine ⟨_, ?_, answers.rest after⟩
        change (set _ other _)[other]? = _
        rw [Slots.getElem?_set_of_lt inside, if_pos rfl]
      · refine ⟨state, ?_, reads.rest after⟩
        change (set _ other _)[reader]? = _
        rw [getElem?_set_ne here]
        exact runs

theorem answer_after (begins : execution.event start = .begin reader key)
    (answers : execution.event finish = .answer reader rows) :
    start < finish ∧ ∃ key', (execution.state finish).readers[reader]? =
      some (.answering key' rows) := by
  have answering : ∃ key', (execution.state finish).readers[reader]? = some (.answering key' rows) := by
    have moved := (execution.step finish).moved
    rw [answers] at moved
    cases moved with
    | answer runs => exact ⟨_, runs⟩
    | advance _ _ _ phase => cases phase
  refine ⟨?_, answering⟩
  by_contra early
  obtain ⟨key', there⟩ := answering
  have inside := (List.getElem?_eq_some_iff.mp there).1
  have grows := execution.readers_grow (Nat.le_of_not_lt early)
  have fresh := (execution.begin_moved begins).1
  omega

theorem read_spec (begins : execution.event start = .begin reader key)
    (answers : execution.event finish = .answer reader rows) :
    (∀ row, (∀ moment, start < moment → moment ≤ finish →
      row ∈ (execution.state moment).members key) → row ∈ rows) ∧
      ∀ row ∈ rows, ∃ moment, start < moment ∧ moment ≤ finish ∧
      row ∈ (execution.state moment).members key := by
  obtain ⟨after, key', answering⟩ := execution.answer_after begins answers
  obtain ⟨state, runs, reads⟩ := execution.reads begins after
  rw [answering] at runs
  cases runs
  exact ⟨reads.2.1, reads.2.2⟩

theorem read_complete {inserted returned : Nat} (begins : execution.event start = .begin reader key)
    (answers : execution.event finish = .answer reader rows)
    (inserts : execution.event inserted = .call call ⟨key, row, true⟩)
    (returns : execution.event returned = .finish call) (before : returned < start)
    (removals : ∀ other at_, at_ < finish → execution.event at_ = .call other ⟨key, row, false⟩ →
      ∃ ended, ended < inserted ∧ execution.event ended = .finish other) : row ∈ rows := by
  obtain ⟨edit, called, at_, before', within, event, effect, -⟩ := execution.finished returns
  obtain ⟨rfl, rfl⟩ := execution.call_unique inserts event
  refine (execution.read_spec begins answers).1 row fun moment after until_ => ?_
  rw [execution.members_eq_effects, execution.mem_effects]
  refine ⟨at_, by omega, ⟨call, effect⟩, fun later after' before'' other removes => ?_⟩
  -- a removal with an effect in between was called before the answer, so it was over before the
  -- insertion
  obtain ⟨asked, prior, asks⟩ := execution.effect_called removes
  obtain ⟨ended, early, returns'⟩ := removals other asked (by omega) asks
  obtain ⟨_, _, moment', -, sooner, -, -, once⟩ := execution.finished returns'
  have same := once later _ removes
  omega

/-- A row that is read was inserted, and no removal was called after the insertion and over before
the read. -/
theorem read_sound (begins : execution.event start = .begin reader key)
    (answers : execution.event finish = .answer reader rows) (mem : row ∈ rows) :
    ∃ call inserted, inserted < finish ∧ execution.event inserted = .call call ⟨key, row, true⟩ ∧
      ∀ returned other asked ended, execution.event returned = .finish call → returned < asked →
        execution.event asked = .call other ⟨key, row, false⟩ →
        execution.event ended = .finish other → start ≤ ended := by
  obtain ⟨moment, after, until_, has⟩ := (execution.read_spec begins answers).2 row mem
  rw [execution.members_eq_effects, execution.mem_effects] at has
  obtain ⟨at_, before, ⟨call, effect⟩, kept⟩ := has
  obtain ⟨inserted, prior, inserts⟩ := execution.effect_called effect
  refine ⟨call, inserted, by omega, inserts,
    fun returned other asked ended returns later asks finishes => ?_⟩
  by_contra early
  obtain ⟨_, _, at₁, -, within, -, -, once⟩ := execution.finished returns
  have same := once at_ _ effect
  obtain ⟨edit, asked', at₂, between, within', event, removes, -⟩ := execution.finished finishes
  obtain ⟨rfl, rfl⟩ := execution.call_unique asks event
  exact kept at₂ (by omega) (by omega) other removes

end Readers

theorem empty_entry {addr : Nat} (mapped : (execution.state moment).map key = some addr)
    (empty : (execution.state moment).members key = ∅) : ∃ (call : Nat) (found : Call κ),
      (execution.state moment).calls[call]? = some found ∧ found.edit.key = key ∧
      found.pc ≠ .returned := by
  have inv := execution.inv moment
  obtain ⟨entry, has, named⟩ := inv.mapped key addr mapped
  have blank : entry.rows.contents = ∅ := by
    rw [← members_eq mapped has]
    exact empty
  have own : ∀ (call : Nat) (found : Call κ), (execution.state moment).calls[call]? = some found →
      found.pc.entry = some addr → found.edit.key = key ∧ found.pc ≠ .returned := by
    intro call found runs there
    obtain ⟨entry', has', named', -⟩ := inv.called call found addr runs there
    rw [has] at has'
    cases has'
    refine ⟨named'.symm.trans named, fun ended => ?_⟩
    rw [ended] at there
    cases there
  rcases (inv.sound addr entry has).state with opened | shut
  · obtain ⟨call, found, runs, -, there⟩ := opened.guarded blank
    exact ⟨call, found, runs, own call found runs there⟩
  · obtain ⟨call, found, runs, removes⟩ := shut.removing (named ▸ mapped)
    exact ⟨call, found, runs, own call found runs (by rw [removes]; rfl)⟩

end Execution

/-- In every interleaving the rows of a key are those of its effects in their order, a finished edit
had its effect once between its call and its return, a read answers every row that was there
throughout and only rows that were there at some moment of it, and an empty entry is in the map only
during an edit of its key. -/
theorem postings_linearizable (execution : Execution κ) :
    (∀ key moment, (execution.state moment).members key = execution.effects key moment) ∧
    (∀ call edit moment, execution.event moment = .effect call edit →
      ∃ start, start < moment ∧ execution.event start = .call call edit) ∧
    (∀ call moment, execution.event moment = .finish call →
      ∃ edit start at_, start < at_ ∧ at_ < moment ∧ execution.event start = .call call edit ∧
        execution.event at_ = .effect call edit ∧
        ∀ other edit', execution.event other = .effect call edit' → other = at_) ∧
    (∀ reader key rows start finish, execution.event start = .begin reader key →
      execution.event finish = .answer reader rows →
      (∀ row ∈ rows, ∃ moment, start < moment ∧ moment ≤ finish ∧
        row ∈ (execution.state moment).members key) ∧
      (∀ row ∈ rows, ∃ call inserted, inserted < finish ∧
        execution.event inserted = .call call ⟨key, row, true⟩ ∧
        ∀ returned other asked ended, execution.event returned = .finish call → returned < asked →
          execution.event asked = .call other ⟨key, row, false⟩ →
          execution.event ended = .finish other → start ≤ ended) ∧
      (∀ row, (∀ moment, start < moment → moment ≤ finish →
        row ∈ (execution.state moment).members key) → row ∈ rows) ∧
      ∀ row call inserted returned, execution.event inserted = .call call ⟨key, row, true⟩ →
        execution.event returned = .finish call → returned < start →
        (∀ other at_, at_ < finish → execution.event at_ = .call other ⟨key, row, false⟩ →
          ∃ ended, ended < inserted ∧ execution.event ended = .finish other) → row ∈ rows) ∧
    ∀ key address moment, (execution.state moment).map key = some address →
      (execution.state moment).members key = ∅ → ∃ (call : Nat) (found : Call κ),
        (execution.state moment).calls[call]? = some found ∧ found.edit.key = key ∧
        found.pc ≠ .returned := by
  refine ⟨execution.members_eq_effects, fun call edit moment => execution.effect_called,
    fun call moment => execution.finished,
    fun reader key rows start finish begins answers => ⟨?_, ?_, ?_, ?_⟩,
    fun key address moment => execution.empty_entry⟩
  · exact (execution.read_spec begins answers).2
  · exact fun row => execution.read_sound begins answers
  · exact (execution.read_spec begins answers).1
  · exact fun row call inserted returned inserts returns before removals =>
      execution.read_complete begins answers inserts returns before removals

inductive Turn (κ : Type) where
  | call (edit : Edit κ)
  | advance (call : Nat)
  | begin (key : κ)
  | look (reader : Nat)

def Postings.tick (postings : Postings κ) : Option (Turn κ) → Event κ × Postings κ
  | none => (.quiet, postings)
  | some (.call edit) => (.call postings.calls.length edit,
      { postings with calls := postings.calls ++ [{ edit, pc := .looking }] })
  | some (.advance call) => (postings.calls[call]?.bind (postings.advance call)).getD (.quiet, postings)
  | some (.begin key) => (.begin postings.readers.length key,
      { postings with readers := postings.readers ++ [.looking key] })
  | some (.look reader) =>
    (postings.readers[reader]?.bind (postings.look reader ∅)).getD (.quiet, postings)

theorem tick_step (postings : Postings κ) (turn : Option (Turn κ)) :
    Step postings (postings.tick turn).1 (postings.tick turn).2 := by
  match turn with
  | none => exact .rest
  | some (.call edit) => exact .call edit
  | some (.begin key) => exact .begin key
  | some (.advance call) =>
    simp only [tick]
    cases runs : postings.calls[call]? with
    | none => exact .rest
    | some found =>
      rw [bind_some]
      cases moves : postings.advance call found with
      | none => exact .rest
      | some result => exact .advance runs moves
  | some (.look reader) =>
    simp only [tick]
    cases runs : postings.readers[reader]? with
    | none => exact .rest
    | some state =>
      rw [bind_some]
      cases moves : postings.look reader ∅ state with
      | none => exact .rest
      | some result => exact .look ∅ runs moves

def Execution.stateAt (schedule : Nat → Option (Turn κ)) : Nat → Postings κ
  | 0 => .empty
  | moment + 1 => ((stateAt schedule moment).tick (schedule moment)).2

def Execution.scheduled (schedule : Nat → Option (Turn κ)) : Execution κ where
  state := stateAt schedule
  event moment := ((stateAt schedule moment).tick (schedule moment)).1
  start := rfl
  step _ := tick_step _ _

def insertThenRead : Nat → Option (Turn Nat) := fun moment =>
  ((.call ⟨0, 7, true⟩ :: replicate 10 (.advance 0)) ++ (.begin 0 :: replicate 3 (.look 0)))[moment]?

theorem postings_linearizable_insert_read : ∃ (execution : Execution Nat) (rows : Finset UInt32),
    execution.event 10 = .finish 0 ∧ execution.event 11 = .begin 0 0 ∧
      execution.event 14 = .answer 0 rows ∧ 7 ∈ rows := by
  refine ⟨.scheduled insertThenRead, _, rfl, rfl, rfl, ?_⟩
  refine ((postings_linearizable (.scheduled insertThenRead)).2.2.2.1 0 0 _ 11 14 rfl rfl).2.2.2 7
    0 0 10 rfl rfl (by decide) fun other at_ before asks => ?_
  exfalso
  interval_cases at_ <;> cases asks

theorem Inv.advances {postings : Postings κ} (inv : Inv postings) {call : Nat} {found : Call κ}
    (runs : postings.calls[call]? = some found) (unfinished : found.pc ≠ .returned)
    (free : ∀ address, found.pc = .locking address → (postings.rowsAt address).mutex = none) :
    (postings.advance call found).isSome = true := by
  obtain ⟨edit, pc⟩ := found
  unfold advance
  cases pc with
  | returned => exact absurd rfl unfinished
  | locking address => simp [free address rfl]
  | spilling address rows promote =>
    cases rows with
    | nil =>
      obtain ⟨_, _, _, held⟩ := inv.called call _ address runs rfl
      exact (held rfl).2.elim
    | cons row later => cases later <;> cases promote <;> rfl
  | _ => dsimp only; (repeat' split) <;> rfl

/-- An edit that cannot move waits for the mutex of its entry, and the edit that holds it can move. -/
theorem edits_never_deadlock (execution : Execution κ) {moment call : Nat} {found : Call κ}
    (runs : (execution.state moment).calls[call]? = some found) (unfinished : found.pc ≠ .returned) :
    ∃ (other : Nat) (also : Call κ), (execution.state moment).calls[other]? = some also ∧
      ((execution.state moment).advance other also).isSome = true ∧
      (other = call ∨ ∃ address, found.pc = .locking address ∧
        ((execution.state moment).rowsAt address).mutex = some other ∧
        also.pc.locked = true ∧ also.pc.entry = some address) := by
  have inv := execution.inv moment
  by_cases free : ∀ address, found.pc = .locking address →
    ((execution.state moment).rowsAt address).mutex = none
  · exact ⟨call, found, runs, inv.advances runs unfinished free, .inl rfl⟩
  push Not at free
  obtain ⟨address, waits, taken⟩ := free
  obtain ⟨holder, held⟩ := Option.ne_none_iff_exists'.mp taken
  have here : found.pc.entry = some address := by rw [waits]; rfl
  obtain ⟨entry, has, _⟩ := inv.called call found address runs here
  obtain ⟨also, running, locks, same⟩ :=
    (inv.sound address entry has).held holder (by rwa [← rowsAt_eq has])
  -- The holder is past its own wait.
  refine ⟨holder, also, running, inv.advances running ?_ ?_, .inr ⟨address, waits, held, locks, same⟩⟩
  · intro ended
    simp [ended, Pc.locked] at locks
  · intro _ waiting
    simp [waiting, Pc.locked] at locks

/-- The first insertion has locked the entry of the key when the second comes to lock it. -/
def insertTwice : Nat → Option (Turn Nat) := fun moment =>
  ((.call ⟨0, 7, true⟩ :: replicate 4 (.advance 0)) ++ (.call ⟨0, 8,
    true⟩ :: replicate 2 (.advance 1)))[moment]?

theorem edits_never_deadlock_waiting : ∃ also : Call Nat,
    ((Execution.scheduled insertTwice).state 8).advance 1 ⟨⟨0, 8, true⟩, .locking 0⟩ = none ∧
      ((Execution.scheduled insertTwice).state 8).calls[0]? = some also ∧
      (((Execution.scheduled insertTwice).state 8).advance 0 also).isSome = true ∧
      also.pc.locked = true := by
  have runs : ((Execution.scheduled insertTwice).state 8).calls[1]? = some ⟨⟨0, 8, true⟩,
      .locking 0⟩ := rfl
  have waits : ((Execution.scheduled insertTwice).state 8).advance 1 ⟨⟨0, 8, true⟩,
      .locking 0⟩ = none := rfl
  obtain ⟨other, also, running, moves, itself | ⟨address, at_, held, locks, -⟩⟩ :=
    edits_never_deadlock _ runs (by simp)
  · subst itself
    rw [runs] at running
    rw [← Option.some.inj running, waits] at moves
    cases moves
  · cases at_
    obtain rfl : 0 = other := Option.some.inj held
    exact ⟨also, waits, running, moves, locks⟩

end IronGraph.Graph.Posting

import IronGraph.Graph.Postings

/-!
Every atomic operation keeps the postings sound. An effect changes the rows of one key at once, and
nothing else changes the rows of any key.
-/

namespace IronGraph.Graph.Posting

open Option Postings

variable {κ : Type} [DecidableEq κ] {addr call : Nat} {pc : Pc} {rows : PostingRows} {edit : Edit κ}
  {event : Event κ}

def Event.onMembers (event : Event κ) (key : κ) (rows : Finset UInt32) : Finset UInt32 :=
  match event with
  | .effect _ edit => if edit.key = key then edit.apply rows else rows
  | _ => rows

structure Stepped (before : Postings κ) (event : Event κ) (after : Postings κ) : Prop where
  inv : Inv after
  members : ∀ key, after.members key = event.onMembers key (before.members key)
  kept : ∀ key address, before.map key = some address → before.members key ≠ ∅ →
    after.map key = some address
  entries : ∀ (address : Nat) (entry : PostingEntry κ), before.entries[address]? = some entry →
    ∃ later : PostingEntry κ, after.entries[address]? = some later ∧ later.key = entry.key ∧
      (entry.rows.inline = spilled → later.rows.inline = spilled)

variable {postings next : Postings κ} {entry : PostingEntry κ}

omit [DecidableEq κ] in
theorem members_eq {key : κ} (mapped : postings.map key = some addr)
    (has : postings.entries[addr]? = some entry) :
    postings.members key = entry.rows.contents := by
  simp [members, mapped, rowsAt_eq has]

omit [DecidableEq κ] in
theorem members_move (inv : Inv postings) (has : postings.entries[addr]? = some entry) (key : κ) :
    ((postings.withRows addr rows).withPc call pc).members key =
      if postings.map key = some addr then rows.contents else postings.members key := by
  cases mapped : postings.map key with
  | none =>
    have mapped' : ((postings.withRows addr rows).withPc call pc).map key = none := mapped
    simp [members, mapped, mapped']
  | some other =>
    obtain ⟨target, there, -⟩ := inv.mapped key other mapped
    have moved := @entries_move κ postings call addr entry pc rows has other
    by_cases same : other = addr
    · subst same
      rw [if_pos rfl] at moved
      rw [if_pos rfl]
      have mapped' : ((postings.withRows other rows).withPc call pc).map key = some other := mapped
      exact members_eq mapped' moved
    · rw [if_neg (Ne.symm same), there] at moved
      rw [if_neg (by simpa using same), members_eq mapped there]
      have mapped' : ((postings.withRows addr rows).withPc call pc).map key = some other := mapped
      exact members_eq mapped' moved

omit [DecidableEq κ] in
theorem entries_kept (has : postings.entries[addr]? = some entry)
    (inline : entry.rows.inline = spilled → rows.inline = spilled) (other : Nat) (also : PostingEntry κ)
    (there : postings.entries[other]? = some also) :
    ∃ later : PostingEntry κ, ((postings.withRows addr rows).withPc call pc).entries[other]? =
      some later ∧ later.key = also.key ∧ (also.rows.inline = spilled →
        later.rows.inline = spilled) := by
  rw [entries_move has]
  by_cases same : addr = other
  · subst same
    rw [has] at there
    cases there
    exact ⟨_, if_pos rfl, rfl, inline⟩
  · exact ⟨also, by rw [if_neg same]; exact there, rfl, id⟩

theorem Stepped.quietly (inv : Inv postings) (has : postings.entries[addr]? = some entry)
    (after : Inv ((postings.withRows addr rows).withPc call pc))
    (inline : rows.inline = entry.rows.inline) (contents : rows.contents = entry.rows.contents) :
    Stepped postings .quiet ((postings.withRows addr rows).withPc call pc) where
  inv := after
  members key := by
    rw [members_move inv has]
    split
    next mapped => exact contents.trans (members_eq mapped has).symm
    · rfl
  kept _ _ mapped _ := mapped
  entries := entries_kept has fun spills => inline.trans spills

theorem Stepped.effectively (inv : Inv postings) (has : postings.entries[addr]? = some entry)
    (after : Inv ((postings.withRows addr rows).withPc call pc)) (opened : Open postings addr entry)
    (named : entry.key = edit.key) (inline : entry.rows.inline = spilled → rows.inline = spilled)
    (contents : rows.contents = edit.apply entry.rows.contents) :
    Stepped postings (.effect call edit) ((postings.withRows addr rows).withPc call pc) where
  inv := after
  members key := by
    rw [members_move inv has]
    change _ = if edit.key = key then _ else _
    by_cases same : edit.key = key
    · have mapped : postings.map key = some addr := by
        rw [← same, ← named]
        exact opened.mapped
      rw [if_pos mapped, if_pos same, members_eq mapped has]
      exact contents
    · rw [if_neg same, if_neg]
      intro mapped
      obtain ⟨entry', has', named'⟩ := inv.mapped key addr mapped
      rw [has] at has'
      cases has'
      exact same (named.symm.trans named')
  kept _ _ mapped _ := mapped
  entries := entries_kept has inline

theorem Stepped.onward (after : Inv (postings.withPc call pc)) :
    Stepped postings .quiet (postings.withPc call pc) where
  inv := after
  members _ := rfl
  kept _ _ mapped _ := mapped
  entries _ also there := ⟨also, there, rfl, id⟩

section Advance

structure Takes (postings : Postings κ) (call : Nat) (edit : Edit κ) (pc : Pc) (event : Event κ)
    (next : Postings κ) : Prop where
  running : postings.calls[call]? = some ⟨edit, pc⟩
  moves : postings.advance call ⟨edit, pc⟩ = some (event, next)

variable (inv : Inv postings)

include inv

theorem stepped_looking (takes : Takes postings call edit .looking event next) :
    Stepped postings event next := by
  obtain ⟨runs, moves⟩ := takes
  simp only [advance] at moves
  cases mapped : postings.map edit.key with
  | some addr =>
    rw [mapped] at moves
    cases moves
    refine .onward (inv.repoint runs rfl rfl rfl ?_)
    rintro _ ⟨⟩
    exact inv.mapped _ _ mapped
  | none =>
    simp only [mapped] at moves
    split at moves
    · cases moves
      exact .onward (inv.repoint runs rfl rfl rfl nofun)
    next removes =>
      cases moves
      refine ⟨inv.repoint runs rfl rfl rfl nofun, fun key => ?_, fun _ _ mapped _ => mapped,
        fun _ also there => ⟨also, there, rfl, id⟩⟩
      change postings.members key = if edit.key = key then _ else _
      split
      next same => simp [members, ← same, mapped, Edit.apply, removes]
      · rfl

theorem stepped_creating (takes : Takes postings call edit .creating event next) :
    Stepped postings event next := by
  obtain ⟨runs, moves⟩ := takes
  simp only [advance] at moves
  cases mapped : postings.map edit.key with
  | some addr =>
    rw [mapped] at moves
    cases moves
    refine .onward (inv.repoint runs rfl rfl rfl ?_)
    rintro _ ⟨⟩
    exact inv.mapped _ _ mapped
  | none =>
    rw [mapped] at moves
    cases moves
    refine ⟨inv.create runs rfl mapped, fun key => ?_, fun key addr mapped' _ => ?_,
      fun addr also there => ?_⟩
    · have fresh := @entries_withEntry κ postings edit.key _ postings.entries.length
      rw [if_pos rfl] at fresh
      change (postings.withEntry edit.key).members key = postings.members key
      by_cases same : key = edit.key
      · have placed : (postings.withEntry edit.key).map key = some postings.entries.length :=
          if_pos same
        rw [members_eq placed fresh, same]
        simp [members, mapped, PostingRows.contents, PostingRows.empty]
      · have placed : (postings.withEntry edit.key).map key = postings.map key := if_neg same
        cases before : postings.map key with
        | none => simp [members, placed, before]
        | some addr =>
          obtain ⟨entry, has, -⟩ := inv.mapped key addr before
          have inside := (List.getElem?_eq_some_iff.mp has).1
          have has' := @entries_withEntry κ postings edit.key _ addr
          rw [if_neg (by omega), has] at has'
          rw [members_eq (placed.trans before) has', members_eq before has]
    · change (if key = edit.key then _ else _) = _
      rw [if_neg]
      · exact mapped'
      · rintro rfl
        cases mapped.symm.trans mapped'
    · have inside := (List.getElem?_eq_some_iff.mp there).1
      refine ⟨also, ?_, rfl, id⟩
      change (postings.withEntry edit.key).entries[addr]? = some also
      rw [entries_withEntry, if_neg (by omega)]
      exact there

theorem stepped_entering (takes : Takes postings call edit (.entering addr) event next) :
    Stepped postings event next := by
  obtain ⟨runs, moves⟩ := takes
  obtain ⟨entry, has, named, -⟩ := inv.called call _ addr runs rfl
  simp only [advance, rowsAt_eq has] at moves
  split at moves
  next under =>
    cases moves
    have opened : Open postings addr entry := by
      rcases (inv.sound addr entry has).state with opened | shut
      · exact opened
      · exact absurd shut.writers (by omega)
    refine .quietly inv has (inv.pass runs rfl has rfl rfl rfl (.inl rfl) ?_ (by rintro ⟨⟩)
      (by rintro ⟨⟩) ?_ (.inl (opened.move runs ?_ (fun _ => .inl ⟨rfl, rfl⟩) ?_))) rfl rfl
    · rfl
    · exact id
    · simp [tally, Pc.counted, Pc.entry]
    · simp
  next full =>
    cases moves
    refine .onward ?_
    have after : Inv ((postings.withRows addr entry.rows).withPc call .looking) := by
      refine inv.pass runs rfl has rfl rfl rfl (.inr rfl) ?_ (by rintro ⟨⟩) (by rintro ⟨⟩) ?_ ?_
      · rfl
      · exact id
      · rcases (inv.sound addr entry has).state with opened | shut
        · refine .inl (opened.move runs ?_ (fun _ => .inr (.inl ?_)) ?_)
          · simp [tally, Pc.counted]
          · unfold closed at full
            omega
          · simp
        · refine .inr (shut.move runs rfl rfl rfl (.inl ?_))
          simp
    rw [withRows_self has] at after
    exact after

theorem stepped_locking (takes : Takes postings call edit (.locking addr) event next) :
    Stepped postings event next := by
  obtain ⟨runs, moves⟩ := takes
  obtain ⟨entry, has, named, -⟩ := inv.called call _ addr runs rfl
  simp only [advance, rowsAt_eq has] at moves
  split at moves
  next free =>
    cases moves
    have sound := inv.sound addr entry has
    have opened := inv.open_of_counted runs rfl rfl has
    rw [isNone_iff_eq_none] at free
    refine .quietly inv has (inv.move runs rfl has (.inl rfl) (fun _ => ⟨rfl, trivial⟩)
      (fun other also _ _ _ _ held _ => nomatch free.symm.trans held) ⟨sound.shape,
        fun inline full => ?_, ?_, .inl (opened.move runs ?_ (fun _ => .inl ⟨rfl, rfl⟩) nofun)⟩) rfl rfl
    · obtain ⟨holder, -, held, -⟩ := sound.bare inline full
      exact nomatch free.symm.trans held
    · rintro holder ⟨⟩
      exact ⟨_, (calls_move runs call).trans (if_pos rfl), rfl, rfl⟩
    · simp [tally, Pc.counted, Pc.entry]
  · cases moves

theorem Takes.held (takes : Takes postings call edit pc event next) (here : pc.entry = some addr)
    (locks : pc.locked = true) : postings.calls[call]? = some ⟨edit, pc⟩ ∧
      postings.advance call ⟨edit, pc⟩ = some (event, next) ∧ ∃ entry : PostingEntry κ,
        postings.entries[addr]? = some entry ∧ entry.key = edit.key ∧ pc.Fact edit entry.rows := by
  obtain ⟨entry, has, named, known⟩ := inv.called call _ addr takes.running here
  exact ⟨takes.running, takes.moves, entry, has, named, (known locks).2⟩

theorem stepped_loading (takes : Takes postings call edit (.loading addr) event next) :
    Stepped postings event next := by
  obtain ⟨runs, moves, entry, has, named, -⟩ := takes.held inv rfl rfl
  have opened := inv.open_of_counted runs rfl rfl has
  have sound := inv.sound addr entry has
  have onward : ∀ pc : Pc, pc.locked = true → pc.entry = some addr → pc.counted = true →
      pc.Fact edit entry.rows → Inv (postings.withPc call pc) := by
    intro pc locks' stays counts' fact
    refine inv.stay runs rfl has rfl locks' stays rfl counts' fact
      (fun _ _ => .inl (Pc.guards_of_counted counts')) ?_ (.inl nofun)
    rintro rfl
    cases counts'
  have unchanged : entry.rows.contents = edit.apply entry.rows.contents →
      Stepped postings (.effect call edit) (postings.withPc call (.leaving addr)) := by
    intro contents
    have after := onward (.leaving addr) rfl rfl rfl trivial
    have stepped : Stepped postings (.effect call edit)
        ((postings.withRows addr entry.rows).withPc call (.leaving addr)) :=
      .effectively inv has (by rw [withRows_self has]; exact after) opened named id contents
    rw [withRows_self has] at stepped
    exact stepped
  simp only [advance, rowsAt_eq has] at moves
  split at moves
  next inserts =>
    split at moves
    next zero =>
      cases moves
      exact .onward (onward _ rfl rfl rfl ⟨inserts, zero⟩)
    next nonzero =>
      split at moves
      next spills =>
        cases moves
        exact .onward (onward _ rfl rfl rfl ⟨inserts, rfl, spills⟩)
      next single =>
        split at moves
        next same =>
          cases moves
          refine unchanged ?_
          simp [contents_word same, Edit.apply, inserts]
        next different =>
          cases moves
          refine .onward (onward _ rfl rfl rfl ⟨inserts, rfl, ?_, ?_⟩)
          · rcases sound.shape with zero | ⟨row, other⟩ | ⟨spills, -⟩
            · exact absurd zero nonzero
            · rw [other, ofNat_word]
            · exact absurd spills single
          · exact inv.spill_eq_none runs rfl has rfl rfl single
  next removes =>
    rw [Bool.not_eq_true] at removes
    split at moves
    next spills =>
      split at moves
      · cases moves
        exact .onward (onward _ rfl rfl rfl ⟨removes, spills⟩)
      next unfilled =>
        cases moves
        refine unchanged ?_
        rw [not_isSome_iff_eq_none] at unfilled
        simp [contents_spilled spills, PostingRows.table, unfilled, Edit.apply, removes]
    next single =>
      split at moves
      next same =>
        cases moves
        exact .onward (onward _ rfl rfl rfl ⟨removes, same⟩)
      next different =>
        cases moves
        refine unchanged ?_
        rcases sound.shape with zero | ⟨row, other⟩ | ⟨spills, -⟩
        · simp [contents_zero zero, Edit.apply, removes]
        · rw [contents_word other]
          have apart : edit.row ≠ row := by
            rintro rfl
            exact different other
          simp [Edit.apply, removes, apart]
        · exact absurd spills single

theorem stepped_storing (takes : Takes postings call edit (.storing addr) event next) :
    Stepped postings event next := by
  obtain ⟨runs, moves, entry, has, named, fact⟩ := takes.held inv rfl rfl
  obtain ⟨inserts, zero⟩ := fact
  have bare : entry.rows.inline ≠ spilled := by
    rw [zero]
    exact nofun
  simp only [advance, rowsAt_eq has] at moves
  cases moves
  refine .effectively inv has (inv.write runs rfl has rfl rfl rfl rfl rfl rfl rfl trivial
    (.inr (.inl ⟨edit.row, rfl⟩)) fun _ full => ?_) (inv.open_of_counted runs rfl rfl has) named
    (fun spills => absurd spills bare) ?_
  · exact absurd (inv.spill_eq_none runs rfl has rfl rfl bare) full
  · refine (@contents_word { entry.rows with inline := word edit.row } edit.row rfl).trans ?_
    simp [contents_zero zero, Edit.apply, inserts]

theorem stepped_spilling {later : List UInt32} {promote : Bool}
    (takes : Takes postings call edit (.spilling addr later promote) event next) :
    Stepped postings event next := by
  obtain ⟨runs, moves, entry, has, named, fact⟩ := takes.held inv rfl rfl
  have opened := inv.open_of_counted runs rfl rfl has
  simp only [advance] at moves
  match later, promote, fact with
  | [row], false, ⟨inserts, rowEq, spills⟩ =>
    simp only [rowsAt_eq has] at moves
    cases moves
    refine .effectively inv has (inv.write runs rfl has rfl rfl rfl rfl rfl rfl rfl trivial
      (.inr (.inr ⟨spills, rfl⟩)) fun bare => absurd spills bare) opened named id ?_
    refine (@contents_spilled { entry.rows with
      spill := some (insert row entry.rows.table) } spills).trans ?_
    rw [contents_spilled spills]
    simp [PostingRows.table, Edit.apply, inserts, rowEq]
  | [first, row], true, ⟨inserts, rowEq, single, unfilled⟩ =>
    simp only [rowsAt_eq has] at moves
    cases moves
    refine .quietly inv has (inv.write runs rfl has rfl rfl rfl rfl rfl rfl rfl
      ⟨inserts, rowEq, first, single, ?_⟩ (.inr (.inl ⟨first, single⟩)) fun _ _ => rfl) rfl ?_
    · simp [PostingRows.table, unfilled]
    · exact (@contents_word { entry.rows with
        spill := some (insert first entry.rows.table) } first single).trans
        (contents_word single).symm
  | [row], true, ⟨inserts, rowEq, first, single, half⟩ =>
    simp only [rowsAt_eq has] at moves
    cases moves
    refine .quietly inv has (inv.write runs rfl has rfl rfl rfl rfl rfl rfl rfl
      ⟨inserts, first, single, ?_⟩ (.inr (.inl ⟨first, single⟩)) fun _ _ => rfl) rfl ?_
    · simp [PostingRows.table, half, rowEq]
    · exact (@contents_word { entry.rows with
        spill := some (insert row entry.rows.table) } first single).trans
        (contents_word single).symm

theorem stepped_promoting (takes : Takes postings call edit (.promoting addr) event next) :
    Stepped postings event next := by
  obtain ⟨runs, moves, entry, has, named, fact⟩ := takes.held inv rfl rfl
  obtain ⟨inserts, first, single, full⟩ := fact
  simp only [advance, rowsAt_eq has] at moves
  cases moves
  refine .effectively inv has (inv.write runs rfl has rfl rfl rfl rfl rfl rfl rfl trivial
    (.inr (.inr ⟨rfl, ?_⟩)) fun bare => absurd rfl bare) (inv.open_of_counted runs rfl rfl has) named
    (fun _ => rfl) ?_
  · simp [full]
  · refine (@contents_spilled { entry.rows with inline := spilled } rfl).trans ?_
    simp [contents_word single, PostingRows.table, full, Edit.apply, inserts]

theorem stepped_clearing (takes : Takes postings call edit (.clearing addr) event next) :
    Stepped postings event next := by
  obtain ⟨runs, moves, entry, has, named, fact⟩ := takes.held inv rfl rfl
  obtain ⟨removes, single⟩ := fact
  have bare : entry.rows.inline ≠ spilled := by
    rw [single]
    exact word_ne_spilled _
  simp only [advance, rowsAt_eq has] at moves
  cases moves
  refine .effectively inv has (inv.write runs rfl has rfl rfl rfl rfl rfl rfl rfl trivial (.inl rfl)
    fun _ full => ?_) (inv.open_of_counted runs rfl rfl has) named (fun spills => absurd spills bare) ?_
  · exact absurd (inv.spill_eq_none runs rfl has rfl rfl bare) full
  · refine (@contents_zero { entry.rows with inline := 0 } rfl).trans ?_
    simp [contents_word single, Edit.apply, removes]

theorem stepped_unspilling (takes : Takes postings call edit (.unspilling addr) event next) :
    Stepped postings event next := by
  obtain ⟨runs, moves, entry, has, named, fact⟩ := takes.held inv rfl rfl
  obtain ⟨removes, spills⟩ := fact
  have filled : entry.rows.spill.isSome := by
    rcases (inv.sound addr entry has).shape with zero | ⟨row, single⟩ | ⟨-, filled⟩
    · exact absurd (zero.symm.trans spills) (by decide)
    · exact absurd (single.symm.trans spills) (word_ne_spilled row)
    · exact filled
  simp only [advance, rowsAt_eq has] at moves
  cases moves
  refine .effectively inv has (inv.write runs rfl has rfl rfl rfl rfl rfl rfl rfl trivial
    (.inr (.inr ⟨spills, ?_⟩)) fun bare =>
      absurd spills bare) (inv.open_of_counted runs rfl rfl has) named
    id ?_
  · rw [isSome_map]
    exact filled
  · refine (@contents_spilled { entry.rows with
      spill := entry.rows.spill.map (·.erase edit.row) } spills).trans ?_
    obtain ⟨table, full⟩ := isSome_iff_exists.mp filled
    simp [contents_spilled spills, PostingRows.table, full, Edit.apply, removes]

theorem stepped_leaving (takes : Takes postings call edit (.leaving addr) event next) :
    Stepped postings event next := by
  obtain ⟨runs, moves, entry, has, named, -⟩ := takes.held inv rfl rfl
  have opened := inv.open_of_counted runs rfl rfl has
  have some_counted := countOf_ne_zero runs rfl rfl
  rw [← opened.writers] at some_counted
  simp only [advance, rowsAt_eq has] at moves
  cases moves
  split
  next last =>
    refine .quietly inv has (inv.pass runs rfl has rfl rfl rfl (.inl rfl) rfl (fun _ => rfl)
      (fun _ => trivial) ?_ (.inl (opened.move runs ?_ (fun _ => .inl ⟨rfl, rfl⟩) (by simp)))) rfl rfl
    · exact id
    · simp [tally, Pc.counted, Pc.entry]
      omega
  next more =>
    refine .quietly inv has (inv.pass runs rfl has rfl rfl rfl (.inl rfl) rfl (fun _ => rfl)
      (fun _ => trivial) ?_ (.inl (opened.move runs ?_ (fun _ => .inr (.inl ?_)) (by simp)))) rfl rfl
    · exact id
    · simp [tally, Pc.counted, Pc.entry]
      omega
    · change entry.rows.writers - 1 ≠ 0
      omega

theorem stepped_checking (takes : Takes postings call edit (.checking addr) event next) :
    Stepped postings event next := by
  obtain ⟨runs, moves, entry, has, named, -⟩ := takes.held inv rfl rfl
  have onward : ∀ pc : Pc, pc.locked = true → pc.entry = some addr → pc.counted = false →
      pc.Fact edit entry.rows → (entry.rows.contents = ∅ → pc.guards = true) → pc ≠ .removing addr →
      Inv (postings.withPc call pc) := by
    intro pc locks' stays counts' fact guards kept
    exact inv.stay runs rfl has rfl locks' stays rfl counts' fact (fun _ empty =>
      .inl (guards empty)) kept (.inl nofun)
  simp only [advance, rowsAt_eq has] at moves
  split at moves
  next zero =>
    cases moves
    exact .onward (onward _ rfl rfl rfl (contents_zero zero) (fun _ => rfl) nofun)
  next nonzero =>
    split at moves
    next spills =>
      cases moves
      exact .onward (onward _ rfl rfl rfl spills (fun _ => rfl) nofun)
    next single =>
      cases moves
      refine .onward (onward _ rfl rfl rfl trivial (fun empty => ?_) nofun)
      rcases (inv.sound addr entry has).shape with zero | ⟨row, other⟩ | ⟨spills, -⟩
      · exact absurd zero nonzero
      · simp [contents_word other] at empty
      · exact absurd spills single

theorem stepped_counting (takes : Takes postings call edit (.counting addr) event next) :
    Stepped postings event next := by
  obtain ⟨runs, moves, entry, has, named, fact⟩ := takes.held inv rfl rfl
  have contents := contents_spilled fact
  simp only [advance, rowsAt_eq has] at moves
  split at moves
  next empty =>
    cases moves
    exact .onward (inv.stay runs rfl has rfl rfl rfl rfl rfl (contents.trans empty)
      (fun _ _ => .inl rfl) nofun (.inl nofun))
  next nonempty =>
    cases moves
    exact .onward (inv.stay runs rfl has rfl rfl rfl rfl rfl trivial
      (fun _ empty => absurd (contents.symm.trans empty) nonempty) nofun (.inl nofun))

theorem stepped_closing (takes : Takes postings call edit (.closing addr) event next) :
    Stepped postings event next := by
  obtain ⟨runs, moves, entry, has, named, fact⟩ := takes.held inv rfl rfl
  simp only [advance, rowsAt_eq has] at moves
  split at moves
  next last =>
    cases moves
    refine .quietly inv has (inv.pass runs rfl has rfl rfl rfl (.inl rfl) rfl (fun _ => rfl)
      (fun _ => trivial) nofun
      (.inr ⟨rfl, ?_, fact, fun _ => ⟨call, _, (calls_move runs call).trans (if_pos rfl),
        rfl⟩⟩)) rfl rfl
    have counts := @countOf_move κ postings call addr ⟨edit, .closing addr⟩ (.removing addr)
      { entry.rows with writers := closed } runs addr
    have nobody : countOf postings addr = 0 := by
      rcases (inv.sound addr entry has).state with opened | shut
      · exact opened.writers.symm.trans last
      · exact shut.uncounted
    have none_before : tally (.closing addr) addr = 0 := rfl
    have none_after : tally (.removing addr) addr = 0 := rfl
    rw [nobody, none_before, none_after] at counts
    exact counts
  next busy =>
    cases moves
    exact .onward (inv.stay runs rfl has rfl rfl rfl rfl rfl trivial (fun _ _ =>
      .inr busy) nofun (.inl nofun))

theorem withoutKey_inv (shut : Shut postings addr entry) (mapped : postings.map entry.key = some addr) :
    Inv (postings.withoutKey entry.key) := by
  refine ⟨fun key other found => ?_, inv.called, fun other also there => ?_⟩
  · change (if key = entry.key then none else postings.map key) = some other at found
    split at found
    · cases found
    · exact inv.mapped key other found
  · have sound := inv.sound other also there
    refine ⟨sound.shape, sound.bare, sound.held, ?_⟩
    rcases sound.state with opened | shut'
    · refine .inl ⟨opened.writers, ?_, opened.guarded, opened.kept⟩
      change (if also.key = entry.key then none else postings.map also.key) = some other
      rw [if_neg]
      · exact opened.mapped
      · intro same
        have equal := opened.mapped
        rw [same, mapped] at equal
        cases equal
        obtain ⟨call, found, runs, removes⟩ := shut.removing mapped
        exact opened.kept call found runs removes
    · refine .inr ⟨shut'.writers, shut'.uncounted, shut'.empty, fun found => shut'.removing ?_⟩
      change (if also.key = entry.key then none else postings.map also.key) = some other at found
      split at found
      · cases found
      · exact found

theorem stepped_removing (takes : Takes postings call edit (.removing addr) event next) :
    Stepped postings event next := by
  obtain ⟨runs, moves, entry, has, named, -⟩ := takes.held inv rfl rfl
  have shut : Shut postings addr entry := by
    rcases (inv.sound addr entry has).state with opened | shut
    · exact absurd rfl (opened.kept call _ runs)
    · exact shut
  have guards : (Pc.removing addr).guards = true → entry.rows.contents = ∅ →
      (Pc.unlocking addr).guards = true ∨ entry.rows.writers ≠ 0 := nofun
  simp only [advance, ← named] at moves
  split at moves
  next mapped =>
    cases moves
    have away : (postings.withoutKey entry.key).map entry.key = none := if_pos rfl
    have after : Inv ((postings.withoutKey entry.key).withPc call (.unlocking addr)) :=
      (withoutKey_inv inv shut mapped).stay runs rfl has rfl rfl rfl rfl rfl trivial guards
        nofun (.inr (by rw [away]; exact nofun))
    refine ⟨after, fun key => ?_, fun key other mapped' full => ?_,
      fun _ also there => ⟨also, there, rfl, id⟩⟩
    · change (postings.withoutKey entry.key).members key = postings.members key
      by_cases same : key = entry.key
      · subst same
        rw [members_eq mapped has, shut.empty]
        simp [members, away]
      · have left : (postings.withoutKey entry.key).map key = postings.map key := if_neg same
        simp only [members, left]
        rfl
    · change (if key = entry.key then none else postings.map key) = some other
      rw [if_neg]
      · exact mapped'
      · rintro rfl
        exact full ((members_eq mapped has).trans shut.empty)
  next unmapped =>
    cases moves
    exact .onward (inv.stay runs rfl has rfl rfl rfl rfl rfl trivial guards
      nofun (.inr unmapped))

theorem stepped_unlocking (takes : Takes postings call edit (.unlocking addr) event next) :
    Stepped postings event next := by
  obtain ⟨runs, moves, entry, has, named, -⟩ := takes.held inv rfl rfl
  have sound := inv.sound addr entry has
  simp only [advance, rowsAt_eq has] at moves
  cases moves
  refine .quietly inv has (inv.move runs rfl has (.inr rfl) nofun
    (fun other also apart runs' there locked _ _ =>
      absurd (inv.alone runs rfl rfl runs' locked there) apart)
    ⟨sound.shape, fun bare full => ?_, nofun, ?_⟩) rfl rfl
  · exact absurd (inv.spill_eq_none runs rfl has rfl rfl bare) full
  · rcases sound.state with opened | shut
    · refine .inl (opened.move runs ?_ (fun empty => .inr (.inr ⟨rfl, empty⟩)) nofun)
      rfl
    · refine .inr (shut.move runs rfl rfl rfl (.inl ?_))
      exact nofun

theorem stepped_done (takes : Takes postings call edit .done event next) :
    Stepped postings event next := by
  obtain ⟨runs, moves⟩ := takes
  simp only [advance] at moves
  cases moves
  exact ⟨inv.repoint runs rfl rfl rfl nofun, fun _ => rfl, fun _ _ mapped _ => mapped,
    fun _ also there => ⟨also, there, rfl, id⟩⟩

theorem stepped_advance {found : Call κ} (runs : postings.calls[call]? = some found)
    (moves : postings.advance call found = some (event, next)) : Stepped postings event next := by
  obtain ⟨edit, pc⟩ := found
  have takes : Takes postings call edit pc event next := ⟨runs, moves⟩
  cases pc with
  | looking => exact stepped_looking inv takes
  | creating => exact stepped_creating inv takes
  | entering => exact stepped_entering inv takes
  | locking => exact stepped_locking inv takes
  | loading => exact stepped_loading inv takes
  | storing => exact stepped_storing inv takes
  | spilling => exact stepped_spilling inv takes
  | promoting => exact stepped_promoting inv takes
  | clearing => exact stepped_clearing inv takes
  | unspilling => exact stepped_unspilling inv takes
  | leaving => exact stepped_leaving inv takes
  | checking => exact stepped_checking inv takes
  | counting => exact stepped_counting inv takes
  | closing => exact stepped_closing inv takes
  | removing => exact stepped_removing inv takes
  | unlocking => exact stepped_unlocking inv takes
  | done => exact stepped_done inv takes
  | returned => cases moves

end Advance

section Steps

omit [DecidableEq κ] in
theorem Inv.withReaders (inv : Inv postings) (readers : List (Reader κ)) :
    Inv { postings with readers } := by
  refine ⟨inv.mapped, inv.called, fun addr entry has => ?_⟩
  obtain ⟨shape, bare, held, state⟩ := inv.sound addr entry has
  refine ⟨shape, bare, held, ?_⟩
  rcases state with opened | shut
  · exact .inl ⟨opened.writers, opened.mapped, opened.guarded, opened.kept⟩
  · exact .inr ⟨shut.writers, shut.uncounted, shut.empty, shut.removing⟩

omit [DecidableEq κ] in
theorem Inv.withCall (inv : Inv postings) (edit : Edit κ) :
    Inv { postings with calls := postings.calls ++ [{ edit, pc := .looking }] } := by
  have kept : ∀ (other : Nat) (also : Call κ), postings.calls[other]? = some also →
      (postings.calls ++ [{ edit, pc := .looking }])[other]? = some also := by
    intro other also runs
    rw [List.getElem?_append_left (List.getElem?_eq_some_iff.mp runs).1]
    exact runs
  have cases' : ∀ (other : Nat) (also : Call κ),
      (postings.calls ++ [{ edit, pc := .looking }])[other]? = some also →
      postings.calls[other]? = some also ∨ also.pc = .looking := by
    intro other also runs
    rw [List.getElem?_append] at runs
    split at runs
    · exact .inl runs
    · obtain rfl := List.mem_singleton.mp (List.mem_of_getElem? runs)
      exact .inr rfl
  refine ⟨inv.mapped, fun other also place runs there => ?_, fun addr entry has => ?_⟩
  · rcases cases' other also runs with runs' | fresh
    · exact inv.called other also place runs' there
    · rw [fresh] at there
      cases there
  · refine (inv.sound addr entry has).frame rfl (fun other also runs _ => kept other also runs)
      (fun other also runs removes => ?_) ?_
    · rcases cases' other also runs with runs' | fresh
      · exact runs'
      · cases fresh.symm.trans removes
    · unfold countOf
      rw [List.countP_append]
      rfl

theorem Stepped.aside (after : Inv next) (map : next.map = postings.map)
    (entries : next.entries = postings.entries)
    (plain : ∀ key rows, event.onMembers key rows = rows) : Stepped postings event next where
  inv := after
  members key := by
    rw [plain]
    unfold Postings.members Postings.rowsAt
    rw [map, entries]
  kept key addr mapped _ := by rw [map]; exact mapped
  entries addr also there := ⟨also, by rw [entries]; exact there, rfl, id⟩

omit [DecidableEq κ] in
theorem look_spec {reader : Nat} {bucket : Finset UInt32} {state : Reader κ}
    (moves : postings.look reader bucket state = some (event, next)) :
    ∃ after, next = postings.withReader reader after ∧
      (event = .quiet ∨ ∃ key rows, state = .answering key rows ∧ event = .answer reader rows) := by
  cases state with
  | looking key =>
    simp only [look] at moves
    split at moves
    · cases moves; exact ⟨_, rfl, .inl rfl⟩
    · cases moves; exact ⟨_, rfl, .inl rfl⟩
  | loading key entry =>
    simp only [look] at moves
    split at moves
    · cases moves; exact ⟨_, rfl, .inl rfl⟩
    · split at moves
      · cases moves; exact ⟨_, rfl, .inl rfl⟩
      · cases moves; exact ⟨_, rfl, .inl rfl⟩
  | scanning key entry visited found => cases moves; exact ⟨_, rfl, .inl rfl⟩
  | answering key rows => cases moves; exact ⟨_, rfl, .inr ⟨key, rows, rfl, rfl⟩⟩
  | returned => cases moves

theorem stepped (inv : Inv postings) (step : Step postings event next) :
    Stepped postings event next := by
  cases step with
  | rest => exact .aside inv rfl rfl fun _ _ => rfl
  | call edit => exact .aside (inv.withCall edit) rfl rfl fun _ _ => rfl
  | advance runs moves => exact stepped_advance inv runs moves
  | begin key => exact .aside (inv.withReaders _) rfl rfl fun _ _ => rfl
  | look bucket runs moves =>
    obtain ⟨after, rfl, rfl | ⟨-, rows, -, rfl⟩⟩ := look_spec moves
    · exact .aside (inv.withReaders _) rfl rfl fun _ _ => rfl
    · exact .aside (inv.withReaders _) rfl rfl fun _ _ => rfl
  | scanned runs all => exact .aside (inv.withReaders _) rfl rfl fun _ _ => rfl

omit [DecidableEq κ] in
theorem inv_empty : Inv (empty : Postings κ) where
  mapped _ _ mapped := nomatch mapped
  called _ _ _ runs := nomatch runs
  sound _ _ has := nomatch has

end Steps

end IronGraph.Graph.Posting

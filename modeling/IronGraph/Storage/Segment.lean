import IronGraph.Storage.SegmentCore

/-!
Staged payloads under every interleaving of writers, publications, releases and discards. The claims
on a payload and the indexes it was bound at are read off the history of the calls.
-/

namespace IronGraph

open Std FixedBytes Outcome PendingPayloads OrderedMap List

def unboundClaims : List SegmentEvent → String → Nat
  | [], _ => 0
  | .wrote written :: earlier, name => unboundClaims earlier name + if written = name then 1 else 0
  | .bound published _ :: earlier, name =>
    unboundClaims earlier name - if published = name then 1 else 0
  | .discarded dropped :: earlier, name => unboundClaims earlier name - if dropped = name then 1 else 0
  | .released _ :: earlier, name => unboundClaims earlier name

def watermark : List SegmentEvent → Nat
  | [] => 0
  | .released index :: earlier => max index (watermark earlier)
  | _ :: earlier => watermark earlier

variable {codec : SegmentCodec} {recs : List SegmentRecord} {desc : SegmentDescriptor}
  {family : SegmentFamily} {project : Option ProjectId}
  {entries : List (SegmentRecordLocation × Bytes)} {name : String} {history : List SegmentEvent}
  {pending grown : PendingPayloads} {publication : Bookmark}

section Layout

structure Laid (codec : SegmentCodec) (records : List SegmentRecord)
    (layout : PayloadLayout) : Prop where
  encoded : layout.records.map Prod.snd = records.map codec.encodeRecord
  ordered : layout.records.Pairwise fun left right => left.1.offset < right.1.offset
  within : ∀ entry ∈ layout.records, entry.1.offset + entry.1.bytes + 8 ≤ layout.bytes
  bounded : layout.bytes < u64Limit

theorem layoutRecord_laid {layout : PayloadLayout} {recordAt : Nat → Result SegmentRecord}
    {index : Nat} {grown : PayloadLayout} (laid : Laid codec recs layout)
    (stepped : layoutRecord codec recordAt layout index = .ok grown) :
    ∃ record, recordAt index = .ok record ∧ Laid codec (recs ++ [record]) grown := by
  simp only [layoutRecord, bind_eq_ok, require_eq_ok, decide_eq_true_eq] at stepped
  obtain ⟨record, read, _, _, _, bounded, finished⟩ := stepped
  simp only [pure, Except.pure, Except.ok.injEq] at finished
  subst finished
  refine ⟨record, read, ?_, ?_, ?_, bounded⟩
  · simp [laid.encoded]
  · rw [pairwise_append]
    refine ⟨laid.ordered, by simp, ?_⟩
    intro entry mem last final
    have extent := laid.within entry mem
    simp only [mem_singleton] at final
    subst final
    change entry.1.offset < layout.bytes
    omega
  · intro entry mem
    rcases mem_append.mp mem with prior | last
    · have extent := laid.within entry prior
      change entry.1.offset + entry.1.bytes + 8 ≤ layout.bytes + _ + 8
      omega
    · simp only [mem_singleton] at last
      subst last
      exact Nat.le_refl _

theorem layoutRecords_laid {start final : PayloadLayout} (recs : List SegmentRecord)
    (initial : Laid codec [] start) (count : Nat) (bound : count ≤ recs.length)
    (ran : (List.range count).foldlM (layoutRecord codec (recordFrom recs)) start = .ok final) :
    Laid codec (recs.take count) final := by
  induction count generalizing final with
  | zero =>
    simp only [range_zero, foldlM_nil, pure, Except.pure, Except.ok.injEq] at ran
    rw [← ran]
    exact initial
  | succ count ih =>
    rw [range_succ, foldlM_append, bind_eq_ok] at ran
    obtain ⟨middle, first, last⟩ := ran
    simp only [foldlM_cons, foldlM_nil, bind_pure] at last
    obtain ⟨record, read, laid⟩ := layoutRecord_laid (ih (by omega) first) last
    rw [recordFrom, orElse_eq_ok] at read
    rw [take_add_one, read]
    exact laid

structure Written (codec : SegmentCodec) (name : String) (staged : StagedPayload) : Prop where
  named : staged.descriptor.fileName = name
  source : ∃ records : List SegmentRecord,
    layoutPayload codec staged.descriptor.family staged.descriptor.projectId records.length
      (recordFrom records) = .ok (staged.descriptor, staged.records)

theorem layoutPayload_spec
    (laidOut : layoutPayload codec family project recs.length (recordFrom recs) = .ok (desc, entries)) :
    desc.family = family ∧ desc.projectId = project ∧ validateDescriptor desc = .ok () ∧
      ∃ layout, Laid codec recs layout ∧ layout.records = entries ∧ layout.bytes = desc.bytes := by
  simp only [layoutPayload, bind_eq_ok, require_eq_ok, beq_iff_eq] at laidOut
  obtain ⟨_, scope, layout, ran, finished⟩ := laidOut
  simp only [pure, Except.pure, Except.ok.injEq, Prod.mk.injEq] at finished
  obtain ⟨rfl, rfl⟩ := finished
  refine ⟨rfl, rfl, by simp [validateDescriptor, scope], layout, ?_, rfl, rfl⟩
  have laid := layoutRecords_laid recs ⟨rfl, by simp, by simp,
    by simp [u64Limit]⟩ recs.length (Nat.le_refl _) ran
  rw [take_length] at laid
  exact laid

theorem find_offset {entries : List (SegmentRecordLocation × Bytes)}
    (ordered : entries.Pairwise fun left right => left.1.offset < right.1.offset)
    {entry : SegmentRecordLocation × Bytes} (mem : entry ∈ entries) :
    entries.find? (fun other => other.1.offset == entry.1.offset) = some entry := by
  induction entries with
  | nil => cases mem
  | cons first rest ih =>
    rw [pairwise_cons] at ordered
    rcases mem_cons.mp mem with rfl | later
    · simp
    · have apart := ordered.1 entry later
      rw [find?_cons_of_neg (by simp; omega)]
      exact ih ordered.2 later

theorem staged_readable {staged : StagedPayload} {pending : PendingPayloads}
    (roundTrip : ∀ record, codec.decodeRecord (codec.encodeRecord record) = .ok record)
    (tables : RecordTables)
    (found : pending.payloads[name]? = some staged) (written : Written codec name staged) :
    ∃ recs : List SegmentRecord,
      layoutPayload codec staged.descriptor.family staged.descriptor.projectId recs.length
        (recordFrom recs) = .ok (staged.descriptor, staged.records) ∧
      staged.records.map (fun entry => pending.readRecordAt codec tables staged.descriptor entry.1) =
        recs.map .ok := by
  obtain ⟨recs, laidOut⟩ := written.source
  obtain ⟨_, _, valid, layout, laid, sameRecords, sameBytes⟩ := layoutPayload_spec laidOut
  refine ⟨recs, laidOut, ?_⟩
  have encoded := laid.encoded
  have ordered := laid.ordered
  have within := laid.within
  have bounded := laid.bounded
  rw [sameRecords] at encoded ordered within
  have decoded : staged.records.map (fun entry => codec.decodeRecord entry.2) = recs.map .ok := by
    have applied := congrArg (map codec.decodeRecord) encoded
    rw [map_map, map_map] at applied
    simpa [Function.comp_def, roundTrip] using applied
  rw [← decoded]
  apply map_congr_left
  intro entry mem
  have extent := within entry mem
  have located : (entry.1.offset + entry.1.bytes < u64Limit && decide (entry.1.offset + entry.1.bytes ≤
      staged.descriptor.bytes)) = true := by
    simp only [Bool.and_eq_true, decide_eq_true_eq]
    omega
  have staging : pending.payloads[staged.descriptor.fileName]? = some staged := by
    rw [written.named]
    exact found
  simp only [readRecordAt, valid, located, staging, find_offset ordered mem]
  simp [require, orElse, bind, Except.bind]

end Layout

def boundIndex (entry : Option StagedPayload) : Option Nat :=
  entry.bind fun staged => staged.claims.latestBound.map fun bookmark => bookmark.index.toNat

def unboundCount (entry : Option StagedPayload) : Nat :=
  entry.elim 0 fun staged => staged.claims.unbound

@[simp] theorem boundIndex_none : boundIndex none = none := rfl

@[simp] theorem boundIndex_some (staged : StagedPayload) :
    boundIndex (some staged) = staged.claims.latestBound.map fun bookmark => bookmark.index.toNat := rfl

@[simp] theorem unboundCount_none : unboundCount none = 0 := rfl

@[simp] theorem unboundCount_some (staged : StagedPayload) :
    unboundCount (some staged) = staged.claims.unbound := rfl

structure StagedEntry (codec : SegmentCodec) (history : List SegmentEvent)
    (publications : ExtTreeSet (Nat × String)) (name : String)
    (entry : Option StagedPayload) : Prop where
  indexed : ∀ index, (index, name) ∈ publications ↔ boundIndex entry = some index
  claimed : entry.isSome = true → 0 < unboundCount entry ∨ (boundIndex entry).isSome = true
  unbound : unboundCount entry = unboundClaims history name
  latest : ∀ index, boundIndex entry = some index → .bound name index ∈ history
  kept : ∀ index, .bound name index ∈ history → watermark history < index →
    ∃ last, boundIndex entry = some last ∧ index ≤ last
  written : ∀ staged, entry = some staged → Written codec name staged

def Staging (codec : SegmentCodec) (history : List SegmentEvent) (pending : PendingPayloads) : Prop :=
  ∀ name : String, StagedEntry codec history pending.publications name pending.payloads[name]?

theorem StagedEntry.frame {later : List SegmentEvent}
    {publications remaining : ExtTreeSet (Nat × String)}
    {name : String} {entry : Option StagedPayload}
    (agrees : StagedEntry codec history publications name entry)
    (sameIndex : ∀ index, (index, name) ∈ remaining ↔ (index, name) ∈ publications)
    (sameClaims : unboundClaims later name = unboundClaims history name)
    (sameBindings : ∀ index, .bound name index ∈ later ↔ .bound name index ∈ history)
    (monotone : watermark history ≤ watermark later) :
    StagedEntry codec later remaining name entry where
  indexed index := (sameIndex index).trans (agrees.indexed index)
  claimed := agrees.claimed
  unbound := agrees.unbound.trans sameClaims.symm
  latest index bound := (sameBindings index).mpr (agrees.latest index bound)
  kept index bound above := agrees.kept index ((sameBindings index).mp bound) (by omega)
  written := agrees.written

def SegmentEvent.subject : SegmentEvent → Option String
  | .wrote name => some name
  | .bound name _ => some name
  | .discarded name => some name
  | .released _ => none

structure Elsewhere (history later : List SegmentEvent) (name : String) : Prop where
  claims : ∀ other, name ≠ other → unboundClaims later other = unboundClaims history other
  bindings : ∀ other index, name ≠ other → (.bound other index ∈ later ↔ .bound other index ∈ history)
  watermark : watermark history ≤ watermark later

theorem elsewhere_event {event : SegmentEvent} (about : event.subject = some name)
    (history : List SegmentEvent) : Elsewhere history (event :: history) name where
  claims other apart := by cases event <;> simp_all [SegmentEvent.subject, unboundClaims]
  bindings other index apart := by
    cases event <;> simp_all [SegmentEvent.subject]
    exact fun same => absurd same.symm apart
  watermark := by cases event <;> simp_all [SegmentEvent.subject, watermark]

theorem elsewhere_refl (history : List SegmentEvent) (name : String) :
    Elsewhere history history name where
  claims _ _ := rfl
  bindings _ _ _ := Iff.rfl
  watermark := Nat.le_refl _

variable (payloads : ExtTreeMap String StagedPayload)

def setEntry (name : String) : Option StagedPayload → ExtTreeMap String StagedPayload
  | some staged => payloads.insert name staged
  | none => payloads.erase name

theorem getElem?_setEntry (name other : String) (entry : Option StagedPayload) :
    (setEntry payloads name entry)[other]? = if name = other then entry else payloads[other]? := by
  cases entry with
  | none =>
    simp only [setEntry, ExtTreeMap.getElem?_erase, LawfulEqCmp.compare_eq_iff_eq]
  | some staged =>
    simp only [setEntry, ExtTreeMap.getElem?_insert, LawfulEqCmp.compare_eq_iff_eq]

section Sections

section

variable (staging : Staging codec history pending)

include staging

theorem Staging.touch {later : List SegmentEvent} (elsewhere : Elsewhere history later name)
    (entry : Option StagedPayload)
    (payloads : grown.payloads = setEntry pending.payloads name entry)
    (publications : ∀ index (other : String), name ≠ other →
      ((index, other) ∈ grown.publications ↔ (index, other) ∈ pending.publications))
    (agrees : StagedEntry codec later grown.publications name entry) : Staging codec later grown := by
  intro other
  rw [payloads, getElem?_setEntry]
  split
  next touched =>
    subst touched
    exact agrees
  next apart =>
    exact (staging other).frame (fun index => publications index other apart)
      (elsewhere.claims other apart) (fun index =>
        elsewhere.bindings other index apart) elsewhere.watermark

theorem stage_staging
    (laidOut : layoutPayload codec desc.family desc.projectId recs.length (recordFrom recs) =
      .ok (desc, entries)) (staged : pending.stage desc entries = .ok grown) :
    Staging codec (.wrote desc.fileName :: history) grown := by
  have agrees := staging desc.fileName
  have counted := agrees.unbound
  unfold stage at staged
  split at staged
  next existing found =>
    simp only [bind_eq_ok, pure, Except.pure, Except.ok.injEq] at staged
    obtain ⟨_, _, _, _, rfl⟩ := staged
    rw [found] at agrees counted
    apply staging.touch (elsewhere_event rfl history) (some _) rfl (by simp)
    constructor
    · simpa using agrees.indexed
    · simp
    · simpa [unboundClaims] using counted
    · simpa using agrees.latest
    · simpa [watermark] using agrees.kept
    · rintro payload ⟨⟩
      exact ⟨(agrees.written existing rfl).named, (agrees.written existing rfl).source⟩
  next absent =>
    cases staged
    rw [absent] at agrees counted
    apply staging.touch (elsewhere_event rfl history) (some _) rfl (by simp)
    constructor
    · simpa using agrees.indexed
    · simp
    · simpa [unboundClaims] using counted.symm
    · simp
    · simpa [watermark] using agrees.kept
    · rintro payload ⟨⟩
      exact ⟨rfl, recs, laidOut⟩

theorem releaseClaim_staging (name : String) :
    Staging codec (.discarded name :: history) (pending.releaseClaim name) := by
  have agrees := staging name
  have counted := agrees.unbound
  unfold releaseClaim
  split
  next absent =>
    rw [absent] at agrees counted
    apply staging.touch (elsewhere_event rfl history) none (erase_absent absent).symm (by simp)
    apply agrees.frame
    · simp
    · simp only [unboundCount_none] at counted
      simp [unboundClaims, ← counted]
    · simp
    · simp [watermark]
  next staged found =>
    rw [found] at agrees counted
    simp only [unboundCount_some] at counted
    simp only
    split
    next dropped =>
      apply staging.touch (elsewhere_event rfl history) none rfl (by simp)
      constructor
      · simpa [dropped.2] using agrees.indexed
      · simp
      · simp only [unboundCount_none, unboundClaims, if_true]
        omega
      · simp
      · simpa [watermark, dropped.2] using agrees.kept
      · simp
    next retained =>
      apply staging.touch (elsewhere_event rfl history) (some _) rfl (by simp)
      constructor
      · simpa using agrees.indexed
      · simp only [not_and_or] at retained
        rcases retained with positive | bound
        · exact fun _ => .inl (Nat.pos_of_ne_zero positive)
        · simp [Option.isSome_iff_ne_none.mpr bound]
      · simp [unboundClaims, counted]
      · simpa using agrees.latest
      · simpa [watermark] using agrees.kept
      · rintro payload ⟨⟩
        exact ⟨(agrees.written staged rfl).named, (agrees.written staged rfl).source⟩

theorem bindCaptured_staging {captured : SegmentDescriptor × Nat}
    (bound : pending.bindCaptured publication captured = .ok grown) :
    Staging codec (.bound captured.1.fileName publication.index.toNat :: history) grown := by
  generalize nameEq : captured.1.fileName = name
  have agrees := staging name
  have counted := agrees.unbound
  simp only [bindCaptured, nameEq, bind_eq_ok, orElse_eq_ok, require_eq_ok, decide_eq_true_eq,
    Option.filter_eq_some_iff] at bound
  obtain ⟨staged, ⟨found, _⟩, _, positive, finished⟩ := bound
  rw [found] at agrees counted
  simp only [unboundCount_some] at counted
  split at finished
  next advances =>
    cases finished
    apply staging.touch (elsewhere_event rfl history) (some _) rfl
    · intro index other apart
      cases staged.claims.latestBound with
      | none => simp [ExtTreeSet.mem_insert, apart]
      | some old => simp [ExtTreeSet.mem_insert, ExtTreeSet.mem_erase, apart]
    · constructor
      · intro index
        have indexed := agrees.indexed index
        simp only [boundIndex_some] at indexed ⊢
        cases previous : staged.claims.latestBound with
        | none =>
          simp only [previous, Option.map_none, reduceCtorEq, iff_false] at indexed
          simp [ExtTreeSet.mem_insert, indexed]
        | some old =>
          simp only [previous, Option.map_some, Option.some.injEq] at indexed
          simp only [ExtTreeSet.mem_insert, ExtTreeSet.mem_erase, indexed]
          simp
      · simp
      · simp [unboundClaims, counted]
      · simp
      · intro index mem above
        refine ⟨publication.index.toNat, rfl, ?_⟩
        rcases mem_cons.mp mem with same | prior
        · cases same
          exact Nat.le_refl _
        · obtain ⟨last, current, reached⟩ := agrees.kept index prior above
          simp only [boundIndex_some, Option.map_eq_some_iff] at current
          obtain ⟨old, previous, rfl⟩ := current
          simp only [previous, Option.all_some, decide_eq_true_eq] at advances
          have older := UInt64.lt_iff_toNat_lt.mp advances
          omega
      · rintro payload ⟨⟩
        exact ⟨(agrees.written staged rfl).named, (agrees.written staged rfl).source⟩
  next stale =>
    cases finished
    simp only [Option.all_eq_true, not_forall, decide_eq_true_eq] at stale
    obtain ⟨latest, current, newer⟩ := stale
    apply staging.touch (elsewhere_event rfl history) (some _) rfl (by simp)
    constructor
    · simpa using agrees.indexed
    · simp [current]
    · simp [unboundClaims, counted]
    · intro index reached
      exact mem_cons_of_mem _ (agrees.latest index reached)
    · intro index mem above
      rcases mem_cons.mp mem with same | prior
      · cases same
        refine ⟨latest.index.toNat, by simp [current], ?_⟩
        rw [UInt64.lt_iff_toNat_lt] at newer
        omega
      · exact agrees.kept index prior above
    · rintro payload ⟨⟩
      exact ⟨(agrees.written staged rfl).named, (agrees.written staged rfl).source⟩

theorem releaseFirst_staging {bookmark : Bookmark}
    (started : bookmark.index.toNat ≤ watermark history) :
    Staging codec history (pending.releaseFirst bookmark).1 := by
  unfold releaseFirst
  split
  · exact staging
  next index name first =>
    split
    · exact staging
    next covered =>
      have mem : (index, name) ∈ pending.publications :=
        ExtTreeSet.mem_toList.mp (mem_of_head? first)
      have agrees := staging name
      have counted := agrees.unbound
      have bound := (agrees.indexed index).mp mem
      have elsewhere : ∀ pos (other : String), name ≠ other →
          ((pos, other) ∈ pending.publications.erase (index, name) ↔
            (pos, other) ∈ pending.publications) := by
        intro pos other apart
        simp [ExtTreeSet.mem_erase, apart]
      have unindexed : ∀ pos, (pos, name) ∉ pending.publications.erase (index, name) := by
        intro pos remaining
        rw [ExtTreeSet.mem_erase, agrees.indexed, bound] at remaining
        simp only [Option.some.injEq] at remaining
        exact remaining.1 (by simp [remaining.2])
      have uncovered : ∀ pos, .bound name pos ∈ history → ¬ watermark history < pos := by
        intro pos published above
        obtain ⟨last, current, reached⟩ := agrees.kept pos published above
        rw [bound, Option.some.injEq] at current
        omega
      simp only
      split
      next absent =>
        rw [absent] at bound
        cases bound
      next staged found =>
        rw [found] at agrees counted
        simp only [unboundCount_some] at counted
        split
        next unclaimed =>
          apply staging.touch (elsewhere_refl history name) none rfl elsewhere
          constructor
          · simpa using unindexed
          · simp
          · simp [← counted, unclaimed]
          · simp
          · exact fun pos published above => absurd above (uncovered pos published)
          · simp
        next claimed =>
          apply staging.touch (elsewhere_refl history name) (some _) rfl elsewhere
          constructor
          · simpa using unindexed
          · exact fun _ => .inl (Nat.pos_of_ne_zero claimed)
          · simp [counted]
          · simp
          · exact fun pos published above => absurd above (uncovered pos published)
          · rintro payload ⟨⟩
            exact ⟨(agrees.written staged rfl).named, (agrees.written staged rfl).source⟩

end

end Sections

/-- The state of the whole system: the entries agree with the history, and no release in progress goes
beyond the watermark. -/
structure SegmentInvariant (codec : SegmentCodec) (system : SegmentSystem) : Prop where
  staging : Staging codec system.history system.pending
  releasing : ∀ bookmark, .releasing bookmark ∈ system.tasks →
    bookmark.index.toNat ≤ watermark system.history

theorem captureNext_releases {remaining : List SegmentDescriptor} {seen : List String}
    {captured : List (SegmentDescriptor × Nat)} {ops : List RecordOp} {task : SegmentTask}
    (stepped : captureNext codec pending publication desc remaining seen captured ops = .ok task)
    (bookmark : Bookmark) : task ≠ .releasing bookmark := by
  rintro rfl
  simp only [captureNext, bind_eq_ok] at stepped
  obtain ⟨_, _, stepped⟩ := stepped
  split at stepped
  · cases stepped
  · split at stepped
    · cases stepped
    · simp only [bind_eq_ok] at stepped
      obtain ⟨_, _, _, _, stepped⟩ := stepped
      cases stepped

theorem advanceTask_staging (staging : Staging codec history pending) (task : SegmentTask)
    (started : ∀ bookmark, task = .releasing bookmark → bookmark.index.toNat ≤ watermark history) :
    Staging codec ((advanceTask codec pending task).2.2 ++ history) (advanceTask codec pending task).1 ∧
      ∀ bookmark, (advanceTask codec pending task).2.1 = .releasing bookmark →
      task = .releasing bookmark := by
  cases task with
  | capturing publication remaining seen captured ops =>
    cases remaining with
    | nil => exact ⟨staging, by simp [advanceTask]⟩
    | cons desc remaining =>
      simp only [advanceTask]
      split
      next outcome =>
        exact ⟨staging, fun bookmark same => absurd same (captureNext_releases outcome bookmark)⟩
      · exact ⟨staging, by simp⟩
  | binding publication captured ops =>
    cases captured with
    | nil => exact ⟨staging, by simp [advanceTask]⟩
    | cons first captured =>
      simp only [advanceTask]
      split
      next outcome => exact ⟨bindCaptured_staging staging outcome, by simp⟩
      · exact ⟨staging, by simp⟩
  | releasing bookmark =>
    have released := releaseFirst_staging staging (started bookmark rfl)
    simp only [advanceTask]
    split
    next outcome =>
      rw [outcome] at released
      exact ⟨released, by simp⟩
    next outcome =>
      rw [outcome] at released
      exact ⟨released, by simp⟩
  | published result => exact ⟨staging, by simp [advanceTask]⟩
  | released result => exact ⟨staging, by simp [advanceTask]⟩

theorem advanceTask_watermark (codec : SegmentCodec) (pending : PendingPayloads) (task : SegmentTask)
    (history : List SegmentEvent) :
    watermark ((advanceTask codec pending task).2.2 ++ history) = watermark history := by
  unfold advanceTask
  repeat' split
  all_goals simp [watermark]

theorem write_staging {locs : List SegmentRecordLocation} (staging : Staging codec history pending)
    (written : pending.writeImmutableStreamingIndexed codec family project recs.length
      (recordFrom recs) = .ok (grown, desc, locs)) :
      Staging codec (.wrote desc.fileName :: history) grown := by
  simp only [writeImmutableStreamingIndexed, bind_eq_ok] at written
  obtain ⟨⟨laid, entries⟩, laidOut, staged, stagedEq, finished⟩ := written
  simp only [pure, Except.pure, Except.ok.injEq, Prod.mk.injEq] at finished
  obtain ⟨rfl, rfl, _⟩ := finished
  obtain ⟨rfl, rfl, _⟩ := layoutPayload_spec laidOut
  exact stage_staging staging laidOut stagedEq

theorem step_invariant {system : SegmentSystem} (inv : SegmentInvariant codec system)
    (action : SegmentAction) :
    SegmentInvariant codec (system.step codec action) := by
  cases action with
  | write family project recs =>
    simp only [SegmentSystem.step]
    split
    next outcome =>
      exact ⟨write_staging inv.staging outcome, by simpa [watermark] using inv.releasing⟩
    · exact inv
  | pendingOperations descriptors publication =>
    refine ⟨inv.staging, ?_⟩
    intro bookmark mem
    rcases mem_append.mp mem with prior | last
    · exact inv.releasing bookmark prior
    · simp only [startPublication, mem_singleton] at last
      split at last <;> cases last
  | releaseCommittedThrough bookmark =>
    constructor
    · intro name
      apply (inv.staging name).frame (fun _ => Iff.rfl)
      · rfl
      · simp [SegmentSystem.step]
      · exact Nat.le_max_right _ _
    · intro other mem
      rcases mem_append.mp mem with prior | last
      · have bounded := inv.releasing other prior
        simp only [SegmentSystem.step, watermark]
        omega
      · simp only [mem_singleton, SegmentTask.releasing.injEq] at last
        subst last
        exact Nat.le_max_left _ _
  | discardStaged desc =>
    exact ⟨releaseClaim_staging inv.staging desc.fileName,
      by simpa [SegmentSystem.step, watermark] using inv.releasing⟩
  | advance index =>
    simp only [SegmentSystem.step]
    split
    · exact inv
    next task found =>
      have mem : task ∈ system.tasks := mem_of_getElem? found
      obtain ⟨staging, same⟩ := advanceTask_staging inv.staging task
        fun bookmark releasing => inv.releasing bookmark (releasing ▸ mem)
      refine ⟨staging, ?_⟩
      intro bookmark releasing
      rw [advanceTask_watermark]
      rcases mem_or_eq_of_mem_set releasing with prior | replaced
      · exact inv.releasing bookmark prior
      · exact inv.releasing bookmark (same bookmark replaced.symm ▸ mem)

theorem run_invariant (codec : SegmentCodec) (actions : List SegmentAction) :
    SegmentInvariant codec (SegmentSystem.run codec actions) := by
  apply foldlRecOn
  · refine ⟨?_, by simp [SegmentSystem.initial]⟩
    intro name
    constructor <;> simp [SegmentSystem.initial, empty, unboundClaims]
  · exact fun system inv action _ => step_invariant inv action

/-- In every state that any interleaving of writes, publications, releases and discards reaches: the
publication index holds the latest binding of each bound payload and nothing else; a payload is staged
exactly while it has an unbound claim or a binding; and a payload with an unbound claim, or bound above
the released watermark, is staged and gives back the records that were written. -/
theorem staging_follows_claims (codec : SegmentCodec)
    (roundTrip : ∀ record, codec.decodeRecord (codec.encodeRecord record) = .ok record)
    (actions : List SegmentAction) (tables : RecordTables) (name : String) :
    let system := SegmentSystem.run codec actions
    let entry := system.pending.payloads[name]?
    (∀ index, (index, name) ∈ system.pending.publications ↔ boundIndex entry = some index) ∧
      (∀ index, boundIndex entry = some index → .bound name index ∈ system.history ∧
        ∀ other, .bound name other ∈ system.history → watermark system.history < other →
          other ≤ index) ∧
      unboundCount entry = unboundClaims system.history name ∧
      (entry.isSome = true ↔ 0 < unboundClaims system.history name ∨
        ∃ index, (index, name) ∈ system.pending.publications) ∧
      (0 < unboundClaims system.history name ∨
          (∃ index, .bound name index ∈ system.history ∧ watermark system.history < index) →
        ∃ staged records, entry = some staged ∧
          layoutPayload codec staged.descriptor.family staged.descriptor.projectId records.length
            (recordFrom records) = .ok (staged.descriptor, staged.records) ∧
          staged.records.map
              (fun location => system.pending.readRecordAt codec tables staged.descriptor location.1) =
            records.map .ok) := by
  have agrees := (run_invariant codec actions).staging name
  generalize SegmentSystem.run codec actions = system at agrees ⊢
  have staged_iff : (system.pending.payloads[name]?).isSome = true ↔
      0 < unboundClaims system.history name ∨ ∃ index, (index, name) ∈ system.pending.publications := by
    rw [← agrees.unbound]
    simp only [agrees.indexed]
    constructor
    · intro present
      rcases agrees.claimed present with claimed | bound
      · exact .inl claimed
      · exact .inr (Option.isSome_iff_exists.mp bound)
    · cases system.pending.payloads[name]? <;> simp
  refine ⟨agrees.indexed, ?_, agrees.unbound, staged_iff, ?_⟩
  · intro index bound
    refine ⟨agrees.latest index bound, ?_⟩
    intro other published above
    obtain ⟨last, current, reached⟩ := agrees.kept other published above
    rw [bound, Option.some.injEq] at current
    omega
  · intro needed
    have present : (system.pending.payloads[name]?).isSome = true := by
      rw [staged_iff]
      rcases needed with claimed | ⟨index, published, above⟩
      · exact .inl claimed
      · obtain ⟨last, current, _⟩ := agrees.kept index published above
        exact .inr ⟨last, (agrees.indexed last).mpr current⟩
    obtain ⟨staged, found⟩ := Option.isSome_iff_exists.mp present
    obtain ⟨records, laidOut, readable⟩ :=
      staged_readable roundTrip tables found (agrees.written staged found)
    exact ⟨staged, records, found, laidOut, readable⟩

def plainCodec : SegmentCodec where
  hash _ := .zero
  encodeRecord record := leBytes 2 record.kind.toNat ++ record.payload
  decodeRecord bytes := .ok { kind := UInt16.ofNat (ofLeBytes (bytes.take 2)), payload := bytes.drop 2 }
  encodeManifest manifest := leBytes 8 manifest.records

theorem plainCodec_roundTrip (record : SegmentRecord) :
    plainCodec.decodeRecord (plainCodec.encodeRecord record) = .ok record := by
  have kind := ofLeBytes_leBytes 2 record.kind.toNat record.kind.toNat_lt
  simp [plainCodec, kind]

theorem staging_follows_claims_written :
    let system := SegmentSystem.run plainCodec [.write .catalog none [{ kind := 1, payload := [7] }]]
    (system.pending.payloads[hexEncode Digest.zero.bytes]?).isSome = true := by
  have follows := staging_follows_claims plainCodec plainCodec_roundTrip
    [.write .catalog none [{ kind := 1, payload := [7] }]] .empty (hexEncode Digest.zero.bytes)
  exact follows.2.2.2.1.mpr (.inl (by decide +kernel))

end IronGraph

import IronGraph.Server.CommitCore

/-!
Commands that recorded a predicate are serializable in commit order. A reader may look at a command
that is half applied; such a command ends by raising the authority revision above every bookmark a
statement can hold by then.
-/

namespace IronGraph.Server

open IronGraph.Graph Outcome Option List Nat

namespace Writer

def pending : Writer → Option Work
  | .idle | .applied _ => none
  | .reserved work | .applying work _ _ | .administering work _ | .failing work _ | .settled work =>
    some work

def storing : Writer → Option Work
  | .applying work _ _ | .administering work _ | .failing work _ => some work
  | _ => none

def left : Writer → List GraphMutation × List Write
  | .applying _ mutations writes => (mutations, writes)
  | .administering _ writes | .failing _ writes => ([], writes)
  | _ => ([], [])

end Writer

def Work.changes (work : Work) (project : ProjectId) : Prop :=
  ∃ command, work.command = .graph command ∧ command.project = project ∧ command.changesGraph = true

def Touching (system : System) (project : ProjectId) : Prop :=
  ∃ work, system.writer.storing = some work ∧ work.changes project

/-- What the claim of a command comes to: its reads are the graph of its snapshot, which nothing
changed until it. -/
def Faithful (system : System) (work : Work) : Prop :=
  ∀ command, work.command = .graph command → command.validation.dependencies.predicates ≠ [] →
    command.validation.snapshot < work.index ∧
    (∀ graph ∈ work.reads, ∀ index, command.validation.snapshot ≤ index → index < work.index →
      system.committed index command.project = some graph) ∧
    ∀ other ∈ system.log, other.changes command.project →
      other.index ≤ command.validation.snapshot ∨ work.index ≤ other.index

structure Inv (system : System) : Prop where
  unversioned : ∀ project state, system.projects project = some state →
    ∀ stamp, state.predicateVersions stamp = none
  bookmark : system.readerBookmark ≤ system.applied
  position : ∀ work, system.writer.pending = some work → work.index = system.applied + 1
  published : ∀ work, system.writer = .applied work → work.index = system.applied
  -- a command that changes no graph has nothing to store
  harmless : ∀ work, system.writer.storing = some work → (∀ project, ¬ work.changes project) →
    system.writer.left = ([], [])
  settled : ∀ work, system.writer = .settled work → ∀ project, work.changes project →
    ∀ state, system.projects project = some state → state.authorityRevision = work.index
  still : ∀ project state, system.projects project = some state → ¬ Touching system project →
    ∀ index, state.authorityRevision ≤ index → index ≤ system.applied →
      system.committed index project = some state.graph
  seen : ∀ id statement, system.statements id = some statement → statement.bookmark ≤ system.applied ∧
    ∀ state, system.projects statement.project = some state → ¬ Touching system statement.project →
      state.authorityRevision ≤ statement.bookmark → ∀ graph ∈ statement.reads, graph = state.graph
  logged : ∀ work ∈ system.log, work.index ≤ system.applied ∧
    ∀ project state, work.changes project → system.projects project = some state →
      work.index ≤ state.authorityRevision
  faithful : ∀ work, system.writer.pending = some work ∨ work ∈ system.log → Faithful system work

variable {system : System} {project : ProjectId} {state : ProjectState}
  {further : ProjectState → Nat → GraphCommand → Result Unit} {listShape : Bytes → Result Unit}

theorem System.AtRest.inv (rest : system.AtRest) : Inv system where
  unversioned := rest.unversioned
  bookmark := le_of_eq rest.bookmark
  position := by simp [rest.idle, Writer.pending]
  published := by simp [rest.idle]
  harmless := by simp [rest.idle, Writer.storing]
  settled := by simp [rest.idle]
  still project state known _ := rest.kept project state known
  seen id statement running := by simp [rest.silent] at running
  logged := by simp [rest.unlogged]
  faithful := by simp [rest.idle, rest.unlogged, Writer.pending]

section Steps

variable {system next : System} {writer : Writer} {write : Write} {cmd : GraphCommand}

theorem Inv.withStatement (inv : Inv system) (id : Nat) (entry : Option Statement)
    (seen : ∀ statement, entry = some statement → statement.bookmark ≤ system.applied ∧
      ∀ state, system.projects statement.project = some state → ¬ Touching system statement.project →
        state.authorityRevision ≤ statement.bookmark → ∀ graph ∈ statement.reads, graph = state.graph) :
    Inv (system.withStatement id entry) where
  unversioned := inv.unversioned
  bookmark := inv.bookmark
  position := inv.position
  published := inv.published
  harmless := inv.harmless
  settled := inv.settled
  still := inv.still
  seen other statement running := by
    change (if other = id then entry else system.statements other) = some statement at running
    split at running
    · exact seen statement running
    · exact inv.seen other statement running
  logged := inv.logged
  faithful := inv.faithful

variable {work : Work}

theorem Inv.withWriter (inv : Inv system) (pending : ∀ work, writer.pending = some work →
      work.index = system.applied + 1 ∧ (system.writer.pending = some work ∨ Faithful system work))
    (published : ∀ work, writer = .applied work → work.index = system.applied)
    (storing : ∀ work, writer.storing = some work → (∀ project, ¬ work.changes project) →
      writer.left = ([], []))
    (touching : ∀ project, Touching system project → Touching { system with writer } project)
    (settled : ∀ work, writer ≠ .settled work) : Inv { system with writer } where
  unversioned := inv.unversioned
  bookmark := inv.bookmark
  position work held := (pending work held).1
  published := published
  harmless := storing
  settled work held := absurd held (settled work)
  still project state known quiet := inv.still project state known fun before =>
    quiet (touching project before)
  seen id statement running := by
    obtain ⟨older, same⟩ := inv.seen id statement running
    exact ⟨older, fun state known quiet => same state known fun before => quiet (touching _ before)⟩
  logged := inv.logged
  faithful work held := by
    rcases held with held | listed
    · rcases (pending work held).2 with before | new
      · exact inv.faithful work (.inl before)
      · exact new
    · exact inv.faithful work (.inr listed)

/-- The projects change while the command stays pending: a project either keeps its revision, and
its whole state once no command is storing in it, or has a revision that no statement can hold yet.
-/
theorem Inv.withProjects {projects : ProjectId → Option ProjectState} (inv : Inv system)
    (pending : system.writer.pending = some work) (still : writer.pending = some work)
    (harmless : ∀ other, writer.storing = some other → (∀ project, ¬ other.changes project) →
      writer.left = ([], []))
    (settled : ∀ other, writer = .settled other → ∀ project, other.changes project →
      ∀ state, projects project = some state → state.authorityRevision = other.index)
    (origin : ∀ project state, projects project = some state →
      ∃ before, system.projects project = some before ∧
      state.predicateVersions = before.predicateVersions ∧
      (system.applied < state.authorityRevision ∨ before.authorityRevision = state.authorityRevision ∧
        (¬ Touching { system with projects, writer } project → before = state ∧
          ¬ Touching system project))) :
    Inv { system with projects, writer } := by
  refine ⟨?_, inv.bookmark, ?_, ?_, harmless, settled, ?_, ?_, ?_, ?_⟩
  · intro project state known stamp
    obtain ⟨before, found, versions, -⟩ := origin project state known
    rw [versions]
    exact inv.unversioned project before found stamp
  · intro other held
    rw [still] at held
    cases held
    exact inv.position work pending
  · rintro other rfl
    cases still
  · intro project state known quiet index above below
    obtain ⟨before, found, -, late | ⟨-, same⟩⟩ := origin project state known
    · exact absurd (le_trans above below) (not_le.mpr late)
    · obtain ⟨rfl, untouched⟩ := same quiet
      exact inv.still project before found untouched index above below
  · intro id statement runs
    obtain ⟨older, same⟩ := inv.seen id statement runs
    refine ⟨older, fun state known quiet low => ?_⟩
    obtain ⟨before, found, -, late | ⟨-, kept⟩⟩ := origin _ state known
    · exact absurd (le_trans low older) (not_le.mpr late)
    · obtain ⟨rfl, untouched⟩ := kept quiet
      exact same before found untouched low
  · intro other listed
    obtain ⟨older, bound⟩ := inv.logged other listed
    refine ⟨older, fun project state changes known => ?_⟩
    obtain ⟨before, found, -, late | ⟨same, -⟩⟩ := origin project state known
    · exact le_trans older (le_of_lt late)
    · exact same ▸ bound project before changes found
  · intro other held
    refine inv.faithful other (held.imp_left fun held => ?_)
    exact pending.trans (still.symm.trans held)

theorem projects_store (known : (store work write system).projects project = some state) :
    ∃ before, system.projects project = some before ∧
    state.authorityRevision = before.authorityRevision ∧
      state.predicateVersions = before.predicateVersions ∧
      (¬ work.command.on project → state = before) := by
  unfold store at known
  cases target : work.command with
  | broker _ =>
    rw [target] at known
    exact ⟨state, known, rfl, rfl, fun _ => rfl⟩
  | graph cmd =>
    rw [target] at known
    change (if project = cmd.project then (system.projects project).map _
        else system.projects project) = _ at known
    split at known
    next here =>
      obtain ⟨before, found, rfl⟩ := map_eq_some_iff.mp known
      exact ⟨before, found, rfl, rfl, fun apart => absurd ⟨cmd, rfl, here.symm⟩ apart⟩
    · exact ⟨state, known, rfl, rfl, fun _ => rfl⟩

theorem store_eq (work : Work) (write : Write) (system : System) :
    store work write system = { system with projects := (store work write system).projects } := by
  unfold store
  cases work.command with
  | broker _ => rfl
  | graph _ => rfl

theorem Inv.stored (inv : Inv system) (before : system.writer.storing = some work)
    (after : writer.storing = some work) (pending : system.writer.pending = some work)
    (still : writer.pending = some work) (some_left : system.writer.left ≠ ([], [])) :
    Inv { store work write system with writer } := by
  obtain ⟨touched, changed⟩ : ∃ project, work.changes project := by
    by_contra none
    exact some_left (inv.harmless work before fun project changes => none ⟨project, changes⟩)
  rw [store_eq]
  refine inv.withProjects pending still ?_ ?_ ?_
  · intro other held harmless
    rw [after] at held
    cases held
    exact absurd changed (harmless touched)
  · rintro other rfl
    cases after
  · intro project state known
    obtain ⟨old, found, authority, versions, same⟩ := projects_store known
    refine ⟨old, found, versions, .inr ⟨authority.symm, fun quiet => ?_⟩⟩
    have untouched : ¬ work.changes project := fun changes => quiet ⟨work, after, changes⟩
    refine ⟨(same fun here => untouched ?_).symm, ?_⟩
    · obtain ⟨cmd, target, rfl, changes⟩ := changed
      obtain ⟨also, again, rfl⟩ := here
      rw [target] at again
      cases again
      exact ⟨cmd, target, rfl, changes⟩
    · rintro ⟨other, held, changes⟩
      rw [before] at held
      cases held
      exact untouched changes

theorem accepted_planned (valid : system.validatePlanned cmd = .ok state) :
    system.projects cmd.project = some state ∧ cmd.validation.snapshot ≤ system.applied ∧
      ∀ entry ∈ cmd.validation.dependencies.predicates,
        predicateChanged state cmd.validation.snapshot entry = false := by
  simp only [System.validatePlanned, bind_eq_ok, require_eq_ok, orElse_eq_ok, validateDependencies,
    forM_eq_ok] at valid
  obtain ⟨_, -, _, older, project, known, _, ⟨_, -, predicates⟩, same⟩ := valid
  cases same
  refine ⟨known, by simpa using older, fun entry listed => ?_⟩
  simpa using predicates entry listed

theorem Inv.authority_le (inv : Inv system) (valid : system.validatePlanned cmd = .ok state)
    (recorded : cmd.validation.dependencies.predicates ≠ []) :
    state.authorityRevision ≤ cmd.validation.snapshot := by
  obtain ⟨known, -, predicates⟩ := accepted_planned valid
  obtain ⟨entry, listed⟩ := exists_mem_of_ne_nil _ recorded
  have unchanged := predicates entry listed
  simp only [predicateChanged, inv.unversioned _ state known, decide_eq_false_iff_not,
    not_lt] at unchanged
  exact unchanged

theorem not_touching_of_storing {writer : Writer} (held : system.writer = writer)
    (none : writer.storing = none) (project : ProjectId) : ¬ Touching system project := by
  rintro ⟨work, storing, -⟩
  rw [held, none] at storing
  cases storing

theorem Inv.faithful_reserved {command : GraphCommand} (inv : Inv system)
    (free : system.writer = .idle) {id : Nat} {statement : Statement}
    (runs : system.statements id = some statement) (same : command.project = statement.project)
    (planned : command.validation.snapshot = statement.bookmark)
    (valid : system.validateGraph further command = .ok ()) :
    Faithful system
      { index := system.applied + 1, command := .graph command, reads := statement.reads } := by
  rintro _ ⟨⟩ recorded
  obtain ⟨state, checked, -⟩ := bind_eq_ok.mp valid
  obtain ⟨known, older, -⟩ := accepted_planned checked
  have current := inv.authority_le checked recorded
  have quiet := not_touching_of_storing free rfl command.project
  refine ⟨lt_succ_of_le older, fun graph read index above below => ?_,
    fun other listed changes => .inl ?_⟩
  · have observed :=
      (inv.seen id statement runs).2 state (same ▸ known) (same ▸ quiet) (planned ▸ current) graph read
    rw [observed]
    exact inv.still _ state known quiet index (le_trans current above) (le_of_lt_succ below)
  · exact le_trans ((inv.logged other listed).2 _ state changes known) current

theorem changes_of_graph (target : work.command = .graph cmd) :
    work.changes project ↔ cmd.project = project ∧ cmd.changesGraph = true := by
  constructor
  · rintro ⟨other, found, here, changes⟩
    rw [target] at found
    cases found
    exact ⟨here, changes⟩
  · rintro ⟨here, changes⟩
    exact ⟨cmd, target, here, changes⟩

theorem harmless_mutations (harmless : ∀ project, ¬ work.changes project) : mutations work = [] := by
  unfold mutations
  cases target : work.command with
  | broker _ => rfl
  | graph cmd =>
    have none := harmless cmd.project
    rw [changes_of_graph target] at none
    have empty : cmd.graph = [] := by
      simp only [true_and, Bool.not_eq_true, GraphCommand.changesGraph, Bool.or_eq_false_iff] at none
      simpa using none.1.1
    simp [empty]

theorem harmless_administrative (harmless : ∀ project, ¬ work.changes project) :
    administrativeWrites work.command = [] := by
  cases target : work.command with
  | broker _ => rfl
  | graph cmd =>
    have unchanged := harmless cmd.project
    rw [changes_of_graph target] at unchanged
    simp only [true_and, Bool.not_eq_true, GraphCommand.changesGraph, Bool.or_eq_false_iff] at unchanged
    have absent : cmd.administrative = none := by simpa using unchanged.2
    simp [administrativeWrites, absent]

theorem projects_settle (known : (settle work system).projects project = some state) :
    ∃ before, system.projects project = some before ∧ state.graph = before.graph ∧
      state.predicateVersions = before.predicateVersions ∧
      (¬ work.changes project → state = before) ∧ (work.changes project →
        state.authorityRevision = work.index) := by
  unfold settle at known
  cases target : work.command with
  | broker _ =>
    rw [target] at known
    refine ⟨state, known, rfl, rfl, fun _ => rfl, ?_⟩
    rintro ⟨cmd, found, -⟩
    rw [target] at found
    cases found
  | graph cmd =>
    simp only [target] at known
    rw [changes_of_graph target]
    split at known
    next changes =>
      change (if project = cmd.project then (system.projects project).map _
          else system.projects project) = _
        at known
      split at known
      next here =>
        obtain ⟨before, found, rfl⟩ := map_eq_some_iff.mp known
        exact ⟨before, found, rfl, rfl, fun apart => absurd ⟨here.symm, changes⟩ apart, fun _ => rfl⟩
      next elsewhere =>
        exact ⟨state, known, rfl, rfl, fun _ => rfl, fun here => absurd here.1.symm elsewhere⟩
    next harmless => exact ⟨state, known, rfl, rfl, fun _ => rfl, fun here => absurd here.2 harmless⟩

theorem settle_eq (work : Work) (system : System) :
    settle work system = { system with projects := (settle work system).projects } := by
  unfold settle
  cases work.command with
  | broker _ => rfl
  | graph cmd =>
    dsimp only
    split
    · rfl
    · rfl

theorem Inv.settle (inv : Inv system) (held : system.writer = .administering work []) :
    Inv { settle work system with writer := .settled work } := by
  have pending : system.writer.pending = some work := by rw [held]; rfl
  have index : work.index = system.applied + 1 := inv.position work pending
  rw [settle_eq]
  refine inv.withProjects pending rfl nofun ?_ ?_
  · rintro other ⟨⟩ project changes state known
    obtain ⟨before, -, -, -, -, set⟩ := projects_settle known
    exact set changes
  · intro project state known
    obtain ⟨before, found, -, versions, kept, set⟩ := projects_settle known
    refine ⟨before, found, versions, ?_⟩
    by_cases changes : work.changes project
    · have late := set changes
      exact .inl (by omega)
    · obtain rfl := kept changes
      refine .inr ⟨rfl, fun _ => ⟨rfl, ?_⟩⟩
      rintro ⟨other, storing, touching⟩
      rw [held] at storing
      cases storing
      exact changes touching

theorem Inv.publish (inv : Inv system) (held : system.writer = .settled work) : Inv { system with
      applied := work.index
      committed := fun index => if index = work.index then system.graphs else system.committed index
      log := work :: system.log
      writer := .applied work } := by
  have index : work.index = system.applied + 1 := inv.position work (by rw [held]; rfl)
  have quiet := not_touching_of_storing held rfl
  have grown : ∀ other, other.index ≤ work.index → Faithful system other → Faithful { system with
      applied := work.index
      committed := fun index => if index = work.index then system.graphs else system.committed index
      log := work :: system.log
      writer := .applied work } other := by
    intro other older faithful cmd target recorded
    obtain ⟨planned, reads, unchanged⟩ := faithful cmd target recorded
    refine ⟨planned, fun graph read pos above below => ?_, fun also listed changes => ?_⟩
    · change (if pos = work.index then system.graphs else system.committed pos) cmd.project = some graph
      rw [if_neg (by omega)]
      exact reads graph read pos above below
    · rcases mem_cons.mp listed with rfl | prior
      · exact .inr older
      · exact unchanged also prior changes
  refine ⟨inv.unversioned, ?_, nofun, ?_, nofun, nofun, ?_, ?_, ?_, ?_⟩
  · have bound := inv.bookmark
    change system.readerBookmark ≤ work.index
    omega
  · rintro other ⟨⟩
    rfl
  · intro project state known _ pos above below
    change (if pos = work.index then system.graphs else system.committed pos) project = some state.graph
    split
    · simp [System.graphs, show system.projects project = some state from known]
    next apart =>
      have bound : pos ≤ work.index := below
      exact inv.still project state known (quiet project) pos above (by omega)
  · intro id statement runs
    obtain ⟨older, same⟩ := inv.seen id statement runs
    refine ⟨?_, fun state known _ => same state known (quiet _)⟩
    change statement.bookmark ≤ work.index
    omega
  · intro other listed
    rcases mem_cons.mp listed with rfl | prior
    · refine ⟨le_refl _, fun project state changes known => ?_⟩
      exact le_of_eq (inv.settled other held project changes state known).symm
    · obtain ⟨older, bound⟩ := inv.logged other prior
      refine ⟨?_, bound⟩
      change other.index ≤ work.index
      omega
  · rintro other (⟨⟨⟩⟩ | listed)
    rcases mem_cons.mp listed with rfl | prior
    · exact grown other (le_refl _) (inv.faithful other (.inl (by rw [held]; rfl)))
    · have older := (inv.logged other prior).1
      exact grown other (by omega) (inv.faithful other (.inr prior))

theorem Inv.announce (inv : Inv system) (held : system.writer = .applied work) :
    Inv { system with readerBookmark := work.index, writer := .idle } := by
  have quiet := not_touching_of_storing held rfl
  refine ⟨inv.unversioned, le_of_eq (inv.published work held), nofun, nofun, nofun, nofun, ?_, ?_,
    inv.logged, ?_⟩
  · exact fun project state known _ => inv.still project state known (quiet project)
  · intro id statement runs
    obtain ⟨older, same⟩ := inv.seen id statement runs
    exact ⟨older, fun state known _ => same state known (quiet _)⟩
  · rintro other (⟨⟨⟩⟩ | listed)
    exact inv.faithful other (.inr listed)

theorem Inv.step (inv : Inv system) (taken : Step further listShape system next) : Inv next := by
  cases taken with
  | capture id known =>
    refine inv.withStatement id _ fun statement same => ?_
    cases same
    exact ⟨inv.bookmark, fun _ _ _ _ => nofun⟩
  | @read id statement state runs known =>
    refine inv.withStatement id _ fun changed same => ?_
    cases same
    obtain ⟨older, reads⟩ := inv.seen id statement runs
    refine ⟨older, fun also found quiet low graph listed => ?_⟩
    rcases mem_append.mp listed with prior | last
    · exact reads also found quiet low graph prior
    · rw [show system.projects statement.project = some state from known] at found
      cases found
      exact mem_singleton.mp last
  | @reserve id statement command runs free same planned valid =>
    have faithful := inv.faithful_reserved free runs same planned valid
    refine (inv.withStatement id none nofun).withWriter ?_ nofun nofun ?_ nofun
    · rintro work ⟨⟩
      exact ⟨rfl, .inr faithful⟩
    · intro project touching
      exact absurd touching (not_touching_of_storing free rfl project)
  | refuse runs same planned refused => exact inv.withStatement _ none nofun
  | reject held =>
    refine inv.withWriter nofun nofun nofun ?_ nofun
    intro project touching
    exact absurd touching (not_touching_of_storing held rfl project)
  | reserveBroker project free =>
    refine inv.withWriter ?_ nofun nofun ?_ nofun
    · rintro work ⟨⟩
      exact ⟨rfl, .inr nofun⟩
    · intro project touching
      exact absurd touching (not_touching_of_storing free rfl project)
  | @start work held =>
    refine inv.withWriter ?_ nofun ?_ ?_ nofun
    · rintro other ⟨⟩
      have pending : system.writer.pending = some work := by rw [held]; rfl
      exact ⟨inv.position work pending, .inl pending⟩
    · rintro other ⟨⟩ harmless
      simp [Writer.left, harmless_mutations harmless]
    · intro project touching
      exact absurd touching (not_touching_of_storing held rfl project)
  | @mutate work command mutation later graph held target current =>
    have pending : system.writer.pending = some work := by rw [held]; rfl
    have storing : system.writer.storing = some work := by rw [held]; rfl
    have changes : ¬ ∀ project, ¬ work.changes project := by
      intro harmless
      have none := inv.harmless work storing harmless
      rw [held] at none
      cases none
    refine inv.withWriter ?_ ?_ ?_ ?_ ?_
    · intro other found
      split at found <;> (cases found; exact ⟨inv.position work pending, .inl pending⟩)
    · intro other found
      split at found <;> cases found
    · intro other found harmless
      split at found <;> (cases found; exact absurd harmless changes)
    · rintro project ⟨other, found, changed⟩
      rw [storing] at found
      cases found
      refine ⟨work, ?_, changed⟩
      dsimp only
      split <;> rfl
    · intro other found
      split at found <;> cases found
  | store held | fail held | storeAdministered held =>
    refine inv.stored ?_ rfl ?_ rfl ?_
    · rw [held]; rfl
    · rw [held]; rfl
    · rw [held]; simp [Writer.left]
  | @administer work held =>
    have pending : system.writer.pending = some work := by rw [held]; rfl
    refine inv.withWriter ?_ nofun ?_ ?_ nofun
    · rintro other ⟨⟩
      exact ⟨inv.position work pending, .inl pending⟩
    · rintro other ⟨⟩ harmless
      simp [Writer.left, harmless_administrative harmless]
    · rintro project ⟨other, found, changed⟩
      rw [held] at found
      cases found
      exact ⟨work, rfl, changed⟩
  | settle held => exact inv.settle held
  | publish held => exact inv.publish held
  | announce held => exact inv.announce held

theorem Reachable.inv {initial : System} (rest : initial.AtRest)
    (reached : Reachable further listShape initial system) : Inv system := by
  induction reached with
  | initial => exact rest.inv
  | step _ taken ih => exact ih.step taken

end Steps

section Aside

/-- Steps that are taken while the writer is not at work on a graph command of the project. -/
inductive Aside (further : ProjectState → Nat → GraphCommand →
  Result Unit) (listShape : Bytes → Result Unit)
    (project : ProjectId) (start : System) : System → Prop
  | start : Aside further listShape project start start
  | step {system next : System} (reached : Aside further listShape project start system)
      (elsewhere : ∀ work, system.writer.pending = some work → ¬ work.command.on project)
      (taken : Step further listShape system next) : Aside further listShape project start next

theorem projects_aside {next : System} (taken : Step further listShape system next)
    (elsewhere : ∀ work, system.writer.pending = some work → ¬ work.command.on project) :
    next.projects project = system.projects project := by
  have stored : ∀ work write, system.writer.pending = some work →
      (store work write system).projects project = system.projects project := by
    intro work write pending
    unfold store
    cases target : work.command with
    | broker _ => rfl
    | graph cmd => exact if_neg fun same => elsewhere work pending ⟨cmd, target, same.symm⟩
  cases taken with
  | store held | fail held | storeAdministered held => exact stored _ _ (by rw [held]; rfl)
  | @settle work held =>
    change (settle work system).projects project = _
    unfold settle
    cases target : work.command with
    | broker _ => rfl
    | graph cmd =>
      dsimp only
      split
      · exact if_neg fun same => elsewhere work (by rw [held]; rfl) ⟨cmd, target, same.symm⟩
      · rfl
  | _ => rfl

theorem applied_le_of_step {next : System} (inv : Inv system)
    (taken : Step further listShape system next) : system.applied ≤ next.applied := by
  cases taken with
  | store held | fail held | storeAdministered held => rw [store_eq]
  | settle held => rw [settle_eq]
  | @publish work held =>
    have index := inv.position work (by rw [held]; rfl)
    change system.applied ≤ work.index
    omega
  | _ => exact le_refl _

theorem Aside.validatePlanned {start : System} (inv : Inv start)
    (aside : Aside further listShape project start system) {cmd : GraphCommand}
    (own : cmd.project = project)
    (valid : start.validatePlanned cmd = .ok state) : system.validatePlanned cmd = .ok state := by
  have kept : Inv system ∧ system.projects project = start.projects project ∧
      start.applied ≤ system.applied := by
    induction aside with
    | start => exact ⟨inv, rfl, le_refl _⟩
    | step _ elsewhere taken ih =>
      obtain ⟨before, same, later⟩ := ih
      exact ⟨before.step taken, (projects_aside taken elsewhere).trans same,
        le_trans later (applied_le_of_step before taken)⟩
  obtain ⟨-, same, later⟩ := kept
  simp only [System.validatePlanned, bind_eq_ok, require_eq_ok, orElse_eq_ok] at valid ⊢
  obtain ⟨_, plan, _, older, found, known, _, dependencies, result⟩ := valid
  have bound : cmd.validation.snapshot ≤ start.applied := by simpa using older
  refine ⟨(), plan, (), ?_, found, ?_, (), dependencies, result⟩
  · simpa using le_trans bound later
  · rw [own, same, ← own]
    exact known

end Aside

/-- Every accepted command that recorded a predicate read the graph of its snapshot in every one of
its reads, that is the graph its own commit found; and nobody but a command of the project makes a
planned command conflict. -/
theorem accepted_serializable {initial system : System} (rest : initial.AtRest)
    (reached : Reachable further listShape initial system) :
    (∀ work ∈ system.log, ∀ command, work.command = .graph command →
      command.validation.dependencies.predicates ≠ [] →
        (∀ graph ∈ work.reads, system.committed command.validation.snapshot command.project =
          some graph ∧ system.committed (work.index - 1) command.project = some graph) ∧
        ∀ other ∈ system.log, other.changes command.project →
          other.index ≤ command.validation.snapshot ∨ work.index ≤ other.index) ∧
    ∀ later project, Aside further listShape project system later → ∀ command : GraphCommand,
      command.project = project → ∀ state, system.validatePlanned command = .ok state →
        later.validatePlanned command = .ok state := by
  have inv := reached.inv rest
  refine ⟨fun work listed command target recorded => ?_,
    fun later project aside command own state accepted => ?_⟩
  · obtain ⟨planned, reads, unchanged⟩ := inv.faithful work (.inr listed) command target recorded
    refine ⟨fun graph read => ⟨?_, ?_⟩, unchanged⟩
    · exact reads graph read _ (le_refl _) planned
    · exact reads graph read _ (by omega) (by omega)
  · exact aside.validatePlanned inv own accepted

section Declared

def opened : System where
  applied := 0
  readerBookmark := 0
  projects project := if project = 1 ∨ project = 2 then
    some { graph := .empty, predicateVersions := fun _ => none, authorityRevision := 0 } else none
  statements _ := none
  writer := .idle
  committed _ project := if project = 1 ∨ project = 2 then some .empty else none
  log := []

theorem opened_projects (known : opened.projects project = some state) :
    (project = 1 ∨ project = 2) ∧
      state = { graph := .empty, predicateVersions := fun _ => none, authorityRevision := 0 } := by
  obtain ⟨there, same⟩ := Option.ite_none_right_eq_some.mp known
  exact ⟨there, (some.inj same).symm⟩

theorem opened_atRest : opened.AtRest where
  idle := rfl
  silent _ := rfl
  bookmark := rfl
  unlogged := rfl
  unversioned project state known stamp := by rw [(opened_projects known).2]
  authority project state known := by
    rw [(opened_projects known).2]
    exact le_refl _
  kept project state known index _ _ := by
    obtain ⟨there, rfl⟩ := opened_projects known
    exact if_pos there

def declareStation (project : ProjectId) : GraphCommand where
  project
  validation :=
    { snapshot := 0
      dependencies :=
        { entities := [], predicates := [({ kind := .label, name := "Station" }, 0)], writeTargets := [] } }
  graph := [.declareLabel "Station" 1]
  hasSamples := false
  administrative := none

/-- Three statements overlap. The one on the second project commits, then one on the first, and the
other on the first is refused. -/
theorem declared : ∃ system, Reachable (fun _ _ _ => .ok ()) (fun _ => .ok ()) opened system ∧
    system.log = [⟨2, .graph (declareStation 1), [.empty]⟩, ⟨1, .graph (declareStation 2), []⟩] ∧
    system.validateGraph (fun _ _ _ => .ok ())
      (declareStation 1) = .error (conflict "transaction predicate changed") ∧
    Step (fun _ _ _ => .ok ()) (fun _ => .ok ()) system (system.withStatement 9 none) := by
  have resting : Reachable (fun _ _ _ => .ok ()) (fun _ => .ok ()) opened opened := .initial
  have captured := ((resting.step (.capture 7 (show System.projects _ 1 = some _ from rfl))).step
    (.capture 8 (show System.projects _ 2 = some _ from rfl))).step
    (.capture 9 (show System.projects _ 1 = some _ from rfl))
  have looked := captured.step (.read (show System.statements _ 7 = some _ from rfl) rfl)
  have reserved := looked.step (.reserve (show System.statements _ 8 = some _ from rfl) rfl rfl rfl
    (show System.validateGraph _ _ (declareStation 2) = .ok () from rfl))
  have mutated := ((reserved.step (.start rfl)).step (.mutate rfl rfl rfl)).step (.store rfl)
  have published := ((mutated.step (.administer rfl)).step (.settle rfl)).step (.publish rfl)
  have again := (published.step (.announce rfl)).step
    (.reserve (show System.statements _ 7 = some _ from rfl) rfl rfl rfl
    (show System.validateGraph _ _ (declareStation 1) = .ok () from rfl))
  have mutated := ((again.step (.start rfl)).step (.mutate rfl rfl rfl)).step (.store rfl)
  have published := ((mutated.step (.administer rfl)).step (.settle rfl)).step (.publish rfl)
  exact ⟨_, published.step (.announce rfl), rfl, rfl,
    @Step.refuse _ _ _ 9 _ (declareStation 1) _ rfl rfl rfl (.inr rfl)⟩

/-- The command finds what its statement has read, although another index lies between its snapshot
and its own. -/
theorem accepted_serializable_declared : ∃ system, Reachable (fun _ _ _ => .ok ())
    (fun _ => .ok ()) opened system ∧ system.log = [⟨2, .graph (declareStation 1), [.empty]⟩,
    ⟨1, .graph (declareStation 2), []⟩] ∧ Step (fun _ _ _ => .ok ())
      (fun _ => .ok ()) system (system.withStatement 9 none) ∧
    system.committed 0 1 = some .empty ∧ system.committed 1 1 = some .empty := by
  obtain ⟨system, reached, logged, -, refused⟩ := declared
  have listed : ⟨2, .graph (declareStation 1), [.empty]⟩ ∈ system.log := by
    rw [logged]
    exact mem_cons_self
  have serial := (accepted_serializable opened_atRest reached).1 _ listed _ rfl (cons_ne_nil _ _)
  exact ⟨system, reached, logged, refused, serial.1 _ mem_cons_self⟩

end Declared

end IronGraph.Server

import IronGraph.Graph.StoreCore

/-!
The ordered writer of the database and the statements that plan against it.

A statement takes the published bookmark and the live project, and then reads the graph while the
writer goes on. Its command is checked once, when the single ordered position is reserved, against
the revision counters it recorded. The writer then applies the mutations store by store, sets the
authority revision, and publishes its position last. -/

namespace IronGraph.Server

open IronGraph.Graph Outcome

inductive DependencyKind where
  | fullNodeScan
  | fullRelationshipScan
  | label
  | relationshipType
  | property
  | index
  | constraint
  | temporal
  | projectCatalog
deriving Repr, DecidableEq

structure DependencyStamp where
  kind : DependencyKind
  name : String
deriving Repr, DecidableEq

inductive EntityDependency where
  | node (id : NodeId)
  | relationship (id : EdgeId)
deriving Repr, DecidableEq

structure TransactionDependencies where
  entities : List (EntityDependency × Nat)
  predicates : List (DependencyStamp × Nat)
  writeTargets : List EntityDependency
deriving Repr, DecidableEq

structure MutationValidation where
  snapshot : Nat
  dependencies : TransactionDependencies
deriving Repr, DecidableEq

structure ProjectState where
  graph : GraphStore
  predicateVersions : DependencyStamp → Option Nat
  authorityRevision : Nat

/-- A graph command. Its samples do not touch the graph; an administrative change may make stores of
its own. -/
structure GraphCommand where
  project : ProjectId
  validation : MutationValidation
  graph : List GraphMutation
  hasSamples : Bool
  administrative : Option (List Write)

def GraphCommand.changesGraph (command : GraphCommand) : Bool :=
  !command.graph.isEmpty || command.hasSamples || command.administrative.isSome

inductive Command where
  | graph (command : GraphCommand)
  | broker (project : ProjectId)

section Validation

def entityRevision (graph : GraphStore) : EntityDependency → Option Nat
  | .node id => ((GraphStore.node id).eval graph).map fun view => view.revision.eval graph
  | .relationship id => ((GraphStore.edge id).eval graph).map fun view => view.revision.eval graph

def conflict (message : String) : Error := .asRetryable .transactionConflict message none

variable (dependencies : TransactionDependencies) (project : ProjectState)

def validateEntity (entry : EntityDependency × Nat) : Result Unit :=
  let current := entityRevision project.graph entry.1
  if current.isNone && dependencies.writeTargets.contains entry.1 then .ok ()
  else if current.isNone && entry.2 = 0 then .ok ()
  else require (current = some entry.2) (conflict "transaction entity changed")

def predicateChanged (project : ProjectState) (planningIndex : Nat)
    (entry : DependencyStamp × Nat) : Bool :=
  match project.predicateVersions entry.1 with
  | none => planningIndex < project.authorityRevision
  | some current => current ≠ entry.2

def validateDependencies (planningIndex : Nat) : Result Unit := do
  dependencies.entities.forM (validateEntity dependencies project)
  dependencies.predicates.forM fun entry =>
    require (!predicateChanged project planningIndex entry) (conflict "transaction predicate changed")

def validateMutationPlan (validation : MutationValidation) : Result Unit :=
  let revisions := validation.dependencies.entities.map Prod.snd ++
    validation.dependencies.predicates.map Prod.snd
  require (!revisions.any fun revision => validation.snapshot < revision)
    (.new .protocolViolation "mutation dependency revision exceeds its planning snapshot")

end Validation

def retagGraphMutation (revision : Nat) : GraphMutation → GraphMutation
  | .insertNode input => .insertNode { input with revision }
  | .insertEdge input => .insertEdge { input with revision }
  | .setNodeProperty node property value _ => .setNodeProperty node property value revision
  | .addNodeLabels node labels _ => .addNodeLabels node labels revision
  | .removeNodeLabels node labels _ => .removeNodeLabels node labels revision
  | .setEdgeProperty edge property value _ => .setEdgeProperty edge property value revision
  | .deleteNode node detach _ => .deleteNode node detach revision
  | .deleteEdge edge _ => .deleteEdge edge revision
  | declaration => declaration

structure Statement where
  project : ProjectId
  bookmark : Nat
  reads : List GraphStore

/-- A command at its reserved position, with the reads of the statement that planned it. -/
structure Work where
  index : Nat
  command : Command
  reads : List GraphStore

/-- Where the ordered writer is: what is still to be stored, or how far a finished command is
published. -/
inductive Writer where
  | idle
  | reserved (work : Work)
  | applying (work : Work) (mutations : List GraphMutation) (writes : List Write)
  | administering (work : Work) (writes : List Write)
  | failing (work : Work) (writes : List Write)
  | settled (work : Work)
  | applied (work : Work)

/-- The database. `committed` is the graph of each project as every index left it, and `log` what
was committed. -/
structure System where
  applied : Nat
  readerBookmark : Nat
  projects : ProjectId → Option ProjectState
  statements : Nat → Option Statement
  writer : Writer
  committed : Nat → ProjectId → Option GraphStore
  log : List Work

namespace System

variable (system : System)

def graphs (project : ProjectId) : Option GraphStore := (system.projects project).map (·.graph)

def withProject (project : ProjectId) (change : ProjectState → ProjectState) : System :=
  { system with projects := fun other =>
      if other = project then (system.projects other).map change else system.projects other }

def withStatement (id : Nat) (statement : Option Statement) : System :=
  { system with statements := fun other => if other = id then statement else system.statements other }

/-- What is checked of a graph command against the ordered state, the checks of its mutations apart. -/
def validatePlanned (command : GraphCommand) : Result ProjectState := do
  validateMutationPlan command.validation
  require (!(system.applied < command.validation.snapshot))
    (conflict "mutation planning snapshot is ahead of ordered state")
  let project ← orElse (system.projects command.project) (.new .projectFenced "project does not exist")
  validateDependencies command.validation.dependencies project command.validation.snapshot
  return project

def validateGraph (further : ProjectState → Nat → GraphCommand → Result Unit) (system : System)
    (command : GraphCommand) : Result Unit := do
  let project ← system.validatePlanned command
  further project (system.applied + 1) command

end System

def administrativeWrites : Command → List Write
  | .graph command => command.administrative.getD []
  | .broker _ => []

def mutations (work : Work) : List GraphMutation := match work.command with
  | .graph command => command.graph.map (retagGraphMutation work.index)
  | .broker _ => []

def Command.on (command : Command) (project : ProjectId) : Prop :=
  ∃ graph, command = .graph graph ∧ graph.project = project

def settle (work : Work) (system : System) : System := match work.command with
  | .graph command =>
    if command.changesGraph then
      system.withProject command.project fun project => { project with authorityRevision := work.index }
    else system
  | .broker _ => system

def store (work : Work) (write : Write) (system : System) : System := match work.command with
  | .graph command =>
    system.withProject command.project fun project => { project with graph := write project.graph }
  | .broker _ => system

/-- One step of anybody. The checks of the mutations themselves and the shape of lists are
parameters. -/
inductive Step (further : ProjectState → Nat → GraphCommand → Result Unit) (listShape : Bytes →
  Result Unit) : System → System → Prop
  | capture {system : System} (id : Nat) {project : ProjectId} {state : ProjectState}
      (known : system.projects project = some state) :
      Step further listShape system
        (system.withStatement id (some { project, bookmark := system.readerBookmark, reads := [] }))
  | read {system : System} {id : Nat} {statement : Statement} {state : ProjectState}
      (running : system.statements id = some statement) (known : system.projects statement.project =
        some state) :
      Step further listShape system
        (system.withStatement id (some { statement with reads := statement.reads ++ [state.graph] }))
  | reserve {system : System} {id : Nat} {statement : Statement} {command : GraphCommand}
      (running : system.statements id = some statement) (free : system.writer = .idle)
      (same : command.project = statement.project) (planned : command.validation.snapshot =
        statement.bookmark)
      (accepted : system.validateGraph further command = .ok ()) :
      Step further listShape system { system.withStatement id none with
        writer :=
          .reserved
            { index := system.applied + 1, command := .graph command, reads := statement.reads } }
  | refuse {system : System} {id : Nat} {statement : Statement} {command : GraphCommand} {error : Error}
      (running : system.statements id = some statement) (same : command.project = statement.project)
      (planned : command.validation.snapshot = statement.bookmark)
      (refused : system.writer ≠ .idle ∨ system.validateGraph further command = .error error) :
      Step further listShape system (system.withStatement id none)
  | reserveBroker {system : System} (project : ProjectId) (free : system.writer = .idle) :
      Step further listShape system { system with
        writer := .reserved { index := system.applied + 1, command := .broker project, reads := [] } }
  -- The entry of the mutation log cannot be built or persisted.
  | reject {system : System} {work : Work} (held : system.writer = .reserved work) :
      Step further listShape system { system with writer := .idle }
  | start {system : System} {work : Work} (held : system.writer = .reserved work) :
      Step further listShape system { system with writer := .applying work (mutations work) [] }
  | mutate {system : System} {work : Work} {command : GraphCommand} {mutation : GraphMutation}
      {later : List GraphMutation} {graph : GraphStore} (held : system.writer =
        .applying work (mutation :: later) [])
      (target : work.command = .graph command) (current : system.graphs command.project = some graph) :
      Step further listShape system { system with
        writer := match (graph.applyEffect listShape mutation).result with
          | .ok () => .applying work later (graph.applyEffect listShape mutation).writes
          | .error _ => .failing work (graph.applyEffect listShape mutation).writes }
  | store {system : System} {work : Work} {later : List GraphMutation} {write : Write}
      {writes : List Write} (held : system.writer = .applying work later (write :: writes)) :
      Step further listShape system { store work write system with
        writer := .applying work later writes }
  | fail {system : System} {work : Work} {write : Write} {writes : List Write}
      (held : system.writer = .failing work (write :: writes)) :
      Step further listShape system { store work write system with writer := .failing work writes }
  | administer {system : System} {work : Work} (held : system.writer = .applying work [] []) :
      Step further listShape system { system with
        writer := .administering work (administrativeWrites work.command) }
  | storeAdministered {system : System} {work : Work} {write : Write} {writes : List Write}
      (held : system.writer = .administering work (write :: writes)) :
      Step further listShape system { store work write system with
        writer := .administering work writes }
  | settle {system : System} {work : Work} (held : system.writer = .administering work []) :
      Step further listShape system { settle work system with writer := .settled work }
  | publish {system : System} {work : Work} (held : system.writer = .settled work) :
      Step further listShape system { system with
        applied := work.index
        committed := fun index => if index = work.index then system.graphs else system.committed index
        log := work :: system.log
        writer := .applied work }
  | announce {system : System} {work : Work} (held : system.writer = .applied work) :
      Step further listShape system { system with readerBookmark := work.index, writer := .idle }

inductive Reachable (further : ProjectState → Nat → GraphCommand →
  Result Unit) (listShape : Bytes → Result Unit) (initial : System) : System → Prop
  | initial : Reachable further listShape initial initial
  | step {system next : System} (reached : Reachable further listShape initial system)
      (taken : Step further listShape system next) : Reachable further listShape initial next

/-- A database that was opened: nobody is at work, and what is there is what the last index left. -/
structure System.AtRest (system : System) : Prop where
  idle : system.writer = .idle
  silent : ∀ id, system.statements id = none
  bookmark : system.readerBookmark = system.applied
  unlogged : system.log = []
  unversioned : ∀ project state, system.projects project = some state →
    ∀ stamp, state.predicateVersions stamp = none
  authority : ∀ project state, system.projects project = some state →
    state.authorityRevision ≤ system.applied
  kept : ∀ project state, system.projects project = some state →
    ∀ index, state.authorityRevision ≤ index → index ≤ system.applied →
      system.committed index project = some state.graph

end IronGraph.Server

import IronGraph.Graph.IndexCore

/-!
The scope check of a remote statement looks at the kinds of its clauses. What the statement can read
or remove also depends on the expressions inside its clauses and on the graph, so it may pass with a
credential that grants less.
-/

namespace IronGraph.Remote

open IronGraph.Graph Outcome Option List Except
open Std (ExtTreeMap)

inductive ClauseKind where
  | match
  | where
  | unwind
  | for
  | let
  | filter
  | create
  | merge
  | set
  | remove
  | delete (detach : Bool)
  | with
  | return
  | orderBy
  | skip
  | limit
  | history
  | window
  | search
  | call
  | finish
deriving Repr, DecidableEq

mutual

inductive Expression where
  | literal (value : ScalarValue)
  | parameter (name : String)
  | variable (name : String)
  | property (source : Expression) (name : String)
  | list (items : List Expression)
  | map (entries : List (String × Expression))
  | mapProjection (source : Expression) (entries : List (String × Expression))
  | case (operand : Option Expression) (alternatives : List (Expression × Expression))
      (default : Option Expression)
  | listComprehension (name : String) (list : Expression) (predicate projection : Option Expression)
  | reduce (accumulator : String) (initial : Expression) (name : String) (list expression : Expression)
  | listPredicate (name : String) (list predicate : Expression)
  | function (name : List String) (arguments : List Expression)
  | existentialSubquery (body : List Clause)
  | unary (operand : Expression)
  | binary (left right : Expression)
  | isNull (expression : Expression)
  | index (expression index : Expression)
  | slice (expression : Expression) (start finish : Option Expression)
  | star

inductive Clause where
  | mk (kind : ClauseKind) (expressions : List Expression)

end

namespace Expression

def patternPredicate : String := "\x00irongraph.pattern_predicate"

def patternComprehension : String := "\x00irongraph.pattern_comprehension"

def isPattern : Expression → Bool
  | function name _ => name = [patternPredicate] || name = [patternComprehension]
  | _ => false

def children : Expression → List Expression
  | property source _ => [source]
  | list items => items
  | map entries => entries.map Prod.snd
  | mapProjection source entries => source :: entries.map Prod.snd
  | case operand alternatives default =>
    operand.toList ++ (alternatives.map fun (condition, result) =>
      [condition, result]).flatten ++ default.toList
  | listComprehension _ items predicate projection => items :: predicate.toList ++ projection.toList
  | reduce _ initial _ items expression => [initial, items, expression]
  | listPredicate _ items predicate => [items, predicate]
  | function _ arguments => arguments
  | unary operand | isNull operand => [operand]
  | binary left right | index left right => [left, right]
  | slice expression start finish => expression :: start.toList ++ finish.toList
  | literal _ | parameter _ | «variable» _ | existentialSubquery _ | star => []

end Expression

namespace ClauseKind

def writes : ClauseKind → Bool
  | create | merge | set | remove | delete _ => true
  | _ => false

def readsExisting : ClauseKind → Bool
  | «match» | merge | history | search | call => true
  | _ => false

/-- Whether patterns and subqueries in the expressions of a clause are evaluated. Filters and
projections do so, and an order by as part of the projection before it; elsewhere they end the
statement with an error. -/
def evaluatesGraph (before : Option ClauseKind) : ClauseKind → Bool
  | «where» | filter | «let» | «with» | «return» => true
  | orderBy => before = some «with» || before = some «return»
  | _ => false

end ClauseKind

namespace Clause

def kind : Clause → ClauseKind
  | mk kind _ => kind

def expressions : Clause → List Expression
  | mk _ expressions => expressions

end Clause

def graphExpressions (before : Option ClauseKind) : List Clause → List Expression
  | [] => []
  | clause :: rest =>
    (bif clause.kind.evaluatesGraph before then clause.expressions
      else []) ++ graphExpressions (some clause.kind) rest

mutual

/-- An expression can depend on the stored graph: a pattern or a subquery that reads it, at any
depth. -/
inductive Expression.Reads : Expression → Prop
  | pattern {expression : Expression} (pattern : expression.isPattern = true) :
      Expression.Reads expression
  | subquery {body : List Clause} (reads : ClausesRead body) :
      Expression.Reads (.existentialSubquery body)
  | inside {whole part : Expression} (member : part ∈ whole.children) (reads : Expression.Reads part) :
      Expression.Reads whole

inductive ClausesRead : List Clause → Prop
  | clause {body : List Clause} {clause : Clause} (member : clause ∈ body)
      (existing : clause.kind.readsExisting = true) : ClausesRead body
  | expression {body : List Clause} {expression : Expression}
      (member : expression ∈ graphExpressions none body)
      (reads : Expression.Reads expression) : ClausesRead body

end

inductive CatalogStatement where
  | importDataset
  | createProject
  | alterProjectRename
  | dropProject
  | showProjects
deriving Repr, DecidableEq

inductive SchemaStatement where
  | createIndex
  | alterAutomaticSemantic
  | createConstraint
  | rebuildIndex
  | dropIndex
  | dropConstraint
  | declareTemporal
  | createRollup
  | createEmbedding
deriving Repr, DecidableEq

inductive ShowStatement where
  | checkReadOnly
  | showIndexes
  | showConstraints
  | showTopics
  | showQueues
  | showExchanges
  | showConsumerLag
deriving Repr, DecidableEq

inductive BrokerStatement where
  | createTopic
  | alterTopicRetention
  | dropTopic
  | clearTopic
  | createQueue
  | alterQueueRetention
  | dropQueue
  | purgeQueue
  | createExchange
  | dropExchange
  | bindQueue
  | unbindQueue
deriving Repr, DecidableEq

inductive Statement where
  | query (clauses : List Clause) (unions : List (List Clause))
  | catalog (statement : CatalogStatement)
  | schema (statement : SchemaStatement)
  | show (statement : ShowStatement)
  | broker (statement : BrokerStatement)

namespace Statement

def branches : Statement → List (List Clause)
  | query clauses unions => clauses :: unions
  | _ => []

def clauses (statement : Statement) : List Clause := statement.branches.flatten

def writes (statement : Statement) : Bool := statement.clauses.any (·.kind.writes)

def readsExisting (statement : Statement) : Bool := statement.clauses.any (·.kind.readsExisting)

end Statement

structure Query where
  project : Option String
  readLayers : LayerMask
  writeLayer : Layer
  statement : Statement

inductive Protocol where
  | bolt
  | queryHttp
  | kafka
  | amqp
deriving Repr, DecidableEq

inductive Operation where
  | read
  | write
  | schema
  | broker
deriving Repr, DecidableEq

structure CredentialRecord where
  projectId : ProjectId
  protocols : Finset Protocol
  operations : Finset Operation
  layers : Finset Layer
  expiresAtMillis : Int
  revokedAtIndex : Option Nat

abbrev CredentialRegistry := ExtTreeMap Nat CredentialRecord

def denied (message : String) : Error := .new .authorizationDenied message

def unauthenticated (message : String) : Error := .new .authenticationFailed message

namespace CredentialRegistry

variable (registry : CredentialRegistry) (fingerprint : Nat)

def authenticate (protocol : Finset Protocol) (now : Int) : Result CredentialRecord := do
  require (protocol.card = 1) (denied "authentication request must name one protocol")
  let record ← orElse registry[fingerprint]? (unauthenticated "unknown client certificate")
  require (now < record.expiresAtMillis) (unauthenticated "client certificate expired")
  require record.revokedAtIndex.isNone (unauthenticated "client certificate revoked")
  require (protocol ⊆ record.protocols) (denied "credential does not allow this protocol")
  return record

def authorize (project : ProjectId) (protocol : Finset Protocol)
    (operation : Operation) (layers : Finset Layer) (now : Int) : Result Unit := do
  require (protocol.card = 1 && layers.Nonempty)
    (denied "authorization request must name one protocol and operation")
  require (decide (.kafka ∈ protocol ∨ .amqp ∈ protocol) = decide (operation = .broker))
    (denied "operation is incompatible with the selected protocol")
  let record ← registry.authenticate fingerprint protocol now
  require (record.projectId = project && operation ∈ record.operations && layers ⊆ record.layers)
    (denied "credential is out of scope")

end CredentialRegistry

def requiredQueryOperations : Statement → Result (List Operation)
  | .catalog _ => .error (denied "remote credentials cannot administer the project catalog")
  | .schema _ => .ok [.schema]
  | .show _ => .ok [.read]
  | .broker _ => .ok [.broker]
  | statement@(.query ..) =>
    .ok (if statement.writes && statement.readsExisting then [.read, .write]
      else if statement.writes then [.write] else [.read])

def Query.layers (query : Query) : Finset Layer :=
  (Layer.all.filter query.readLayers.containsLayer).toFinset

def requiredQueryLayers (query : Query) : Result (Finset Layer) := do
  require query.layers.Nonempty (.new .layerNotAllowed "remote query requested an unavailable layer")
  return query.layers

structure QueryRequest where
  projectId : Option ProjectId
  query : String

structure ScopedQueryExecutor where
  registry : CredentialRegistry
  fingerprint : Nat
  protocol : Finset Protocol
  project : ProjectId
  now : Int

section Scope

variable (parse : String → Result Query) (resolveProjectName : String → Result ProjectId)

def ScopedQueryExecutor.scope (executor : ScopedQueryExecutor) (request : QueryRequest) :
    Result QueryRequest := do
  require (request.projectId.all (· = executor.project))
    (denied "remote query selected another project")
  let parsed ← parse request.query
  let selected ← parsed.project.mapM resolveProjectName
  require (selected.all (· = executor.project)) (denied "remote query selected another project")
  let operations ← requiredQueryOperations parsed.statement
  let layers ← requiredQueryLayers parsed
  operations.forM fun operation =>
    executor.registry.authorize executor.fingerprint executor.project executor.protocol operation
      layers executor.now
  return { request with projectId := some executor.project }

end Scope

structure NodeRead where
  layer : Layer

structure EdgeRead where
  source : Nat
  target : Nat
  layer : Layer

/-- The rows of the stored graph, with what the layers of a query can depend on. -/
structure GraphRead where
  nodes : ExtTreeMap Nat NodeRead
  edges : ExtTreeMap Nat EdgeRead

namespace Query

def Reads (query : Query) : Prop := ∃ branch ∈ query.statement.branches, ClausesRead branch

variable (query : Query) (graph : GraphRead) (layer : Layer)

end Query

section Strict

/-- A node of one layer, tied to itself by a relationship of another. -/
def tied (nodeLayer edgeLayer : Layer) : GraphRead where
  nodes := (∅ : ExtTreeMap Nat NodeRead).insert 0 ⟨nodeLayer⟩
  edges := (∅ : ExtTreeMap Nat EdgeRead).insert 0 ⟨0, 0, edgeLayer⟩

end Strict

section Writer

end Writer

end IronGraph.Remote

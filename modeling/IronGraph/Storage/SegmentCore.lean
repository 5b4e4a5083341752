import IronGraph.Storage.RecordStoreCore

/-!
Immutable payloads staged in memory until the record batch that publishes them is durable. Equal
contents share one staged entry. Writers hold unbound claims on it; publishing turns a claim into a
binding at a bookmark, and the publication index keeps the latest binding of each payload.
Serialization and the digest are parameters.
-/

namespace IronGraph

open Std FixedBytes Outcome Error

inductive SegmentFamily where
  | nodes
  | edges
  | nodeTemporal
  | edgeTemporal
  | embeddings
  | brokerPayload
  | brokerReferences
  | brokerCoordination
  | security
  | catalog
deriving Repr, DecidableEq

def SegmentFamily.code : SegmentFamily → UInt8
  | .nodes => 0
  | .edges => 1
  | .nodeTemporal => 2
  | .edgeTemporal => 3
  | .embeddings => 4
  | .brokerPayload => 5
  | .brokerReferences => 6
  | .brokerCoordination => 7
  | .security => 8
  | .catalog => 9

structure SegmentRecord where
  kind : UInt16
  payload : Bytes
deriving Repr, DecidableEq

structure SegmentDescriptor where
  family : SegmentFamily
  projectId : Option ProjectId
  fileName : String
  bytes : Nat
  checksum : Digest
deriving Repr, DecidableEq

structure SegmentRecordLocation where
  offset : Nat
  bytes : Nat
deriving Repr, DecidableEq

structure Manifest where
  descriptor : SegmentDescriptor
  records : Nat
deriving Repr, DecidableEq

/-- The third-party functions the segment store rests on. -/
structure SegmentCodec where
  hash : Bytes → Digest
  encodeRecord : SegmentRecord → Bytes
  decodeRecord : Bytes → Result SegmentRecord
  encodeManifest : Manifest → Bytes

structure Claims where
  unbound : Nat
  latestBound : Option Bookmark
deriving Repr, DecidableEq

structure StagedPayload where
  identity : Nat
  descriptor : SegmentDescriptor
  records : List (SegmentRecordLocation × Bytes)
  claims : Claims
deriving Repr, DecidableEq

instance publicationOrd : Ord (Nat × String) := lexOrd

structure PendingPayloads where
  payloads : ExtTreeMap String StagedPayload
  publications : ExtTreeSet (Nat × String)
  nextIdentity : Nat

def PendingPayloads.empty : PendingPayloads := { payloads := ∅, publications := ∅, nextIdentity := 0 }

def hexDigit (value : Nat) : Char := "0123456789abcdef".toList.getD value '0'

def hexEncode (bytes : Bytes) : String :=
  String.ofList (bytes.flatMap fun byte => [hexDigit (byte.toNat / 16), hexDigit (byte.toNat % 16)])

def familyRequiresProject : SegmentFamily → Bool
  | .security => false
  | .catalog => false
  | _ => true

variable (descriptor : SegmentDescriptor)

def validateDescriptor :
    Result Unit := require (descriptor.fileName == hexEncode descriptor.checksum.bytes &&
      familyRequiresProject descriptor.family == descriptor.projectId.isSome)
    (corrupt "payload content identity is invalid")

def payloadPrefix : Bytes := 255 :: "payload/".toUTF8.toList ++ descriptor.checksum.bytes

def manifestKey : Bytes := payloadPrefix descriptor ++ "m".toUTF8.toList

def recordKey (offset : Nat) :
    Bytes := payloadPrefix descriptor ++ "r".toUTF8.toList ++ (leBytes 8 offset).reverse

def payloadHasher (family : SegmentFamily) (project : Option ProjectId) : Bytes :=
  "IronGraph-payload-1".toUTF8.toList ++ [family.code] ++ project.elim [] fun id =>
    (leBytes 16 id).reverse

structure PayloadLayout where
  hashed : Bytes
  bytes : Nat
  records : List (SegmentRecordLocation × Bytes)

def layoutRecord (codec : SegmentCodec) (recordAt : Nat → Result SegmentRecord) (layout : PayloadLayout)
    (index : Nat) : Result PayloadLayout := do
  let record ← recordAt index
  let encoded := codec.encodeRecord record
  require (encoded.length < u64Limit) (invalidData "payload length overflow")
  let location : SegmentRecordLocation := { offset := layout.bytes, bytes := encoded.length }
  let bytes := layout.bytes + encoded.length + 8
  require (bytes < u64Limit) (invalidData "payload extent overflow")
  return {
    hashed := layout.hashed ++ leBytes 8 encoded.length ++ encoded
    bytes
    records := layout.records ++ [(location, encoded)] }

def layoutPayload (codec : SegmentCodec) (family : SegmentFamily)
    (project : Option ProjectId) (count : Nat) (recordAt : Nat → Result SegmentRecord) :
    Result (SegmentDescriptor × List (SegmentRecordLocation × Bytes)) := do
  require (familyRequiresProject family == project.isSome)
    (invalidData "payload project scope does not match its family")
  let layout ← (List.range count).foldlM (layoutRecord codec recordAt)
    { hashed := payloadHasher family project, bytes := 0, records := [] }
  let checksum := codec.hash layout.hashed
  let descriptor : SegmentDescriptor :=
    { family, projectId := project, fileName := hexEncode checksum.bytes, bytes := layout.bytes, checksum }
  return (descriptor, layout.records)

namespace PendingPayloads

variable (pending : PendingPayloads)

def stage (descriptor : SegmentDescriptor)
    (records : List (SegmentRecordLocation × Bytes)) : Result PendingPayloads :=
  match pending.payloads[descriptor.fileName]? with
  | some existing => do
    require (existing.descriptor == descriptor) (corrupt "payload content identity collision")
    require (existing.claims.unbound + 1 < u64Limit) (internal "pending payload claim overflow")
    let claims := { existing.claims with unbound := existing.claims.unbound + 1 }
    return { pending with
      payloads := pending.payloads.insert descriptor.fileName { existing with claims } }
  | none =>
    let staged : StagedPayload :=
      { identity := pending.nextIdentity
        descriptor
        records
        claims := { unbound := 1, latestBound := none } }
    .ok { pending with
      payloads := pending.payloads.insert descriptor.fileName staged
      nextIdentity := pending.nextIdentity + 1 }

variable (codec : SegmentCodec)

def writeImmutableStreamingIndexed (pending : PendingPayloads) (family : SegmentFamily)
    (project : Option ProjectId) (count : Nat) (recordAt : Nat → Result SegmentRecord) :
    Result (PendingPayloads × SegmentDescriptor × List SegmentRecordLocation) := do
  let (descriptor, records) ← layoutPayload codec family project count recordAt
  let pending ← pending.stage descriptor records
  return (pending, descriptor, records.map Prod.fst)

def manifestOperations (staged : StagedPayload) (descriptor : SegmentDescriptor) : List RecordOp :=
  staged.records.map (fun entry => .put (recordKey descriptor entry.1.offset) entry.2) ++
    [.put (manifestKey descriptor) (codec.encodeManifest
      { descriptor, records := staged.records.length })]

def bindCaptured (publication : Bookmark) (captured : SegmentDescriptor × Nat) :
    Result PendingPayloads := do
  let name := captured.1.fileName
  let staged ← orElse (pending.payloads[name]?.filter fun current => current.identity == captured.2)
    (internal "staged payload changed before publication")
  require (0 < staged.claims.unbound) (internal "payload publication has no unbound claim")
  let claims := { staged.claims with unbound := staged.claims.unbound - 1 }
  if staged.claims.latestBound.all fun latest => latest.index < publication.index then
    let publications := match staged.claims.latestBound with
      | some old => pending.publications.erase (old.index.toNat, name)
      | none => pending.publications
    return { pending with
      payloads := pending.payloads.insert name
        { staged with claims := { claims with latestBound := some publication } }
      publications := publications.insert (publication.index.toNat, name) }
  else
    return { pending with payloads := pending.payloads.insert name { staged with claims } }

def releaseFirst (bookmark : Bookmark) : PendingPayloads × Option (Result Unit) :=
  match pending.publications.toList.head? with
  | none => (pending, some (.ok ()))
  | some (index, name) =>
    if bookmark.index.toNat < index then (pending, some (.ok ()))
    else
      let publications := pending.publications.erase (index, name)
      match pending.payloads[name]? with
      | none =>
        ({ pending with publications }, some (.error (internal "indexed staged payload is absent")))
      | some staged =>
        let claims := { staged.claims with latestBound := none }
        let payloads :=
          if staged.claims.unbound = 0 then pending.payloads.erase name
          else pending.payloads.insert name { staged with claims }
        ({ pending with payloads, publications }, none)

def releaseClaim (name : String) : PendingPayloads := match pending.payloads[name]? with
  | none => pending
  | some staged =>
    let claims : Claims := { staged.claims with unbound := staged.claims.unbound - 1 }
    if claims.unbound = 0 ∧ claims.latestBound = none then
      { pending with payloads := pending.payloads.erase name }
    else { pending with payloads := pending.payloads.insert name { staged with claims } }

def discardStaged (descriptor : SegmentDescriptor) : PendingPayloads :=
  pending.releaseClaim descriptor.fileName

def readRecordAt (tables : RecordTables) (pending : PendingPayloads)
    (descriptor : SegmentDescriptor) (location : SegmentRecordLocation) : Result SegmentRecord := do
  validateDescriptor descriptor
  require (location.offset + location.bytes < u64Limit && location.offset + location.bytes ≤
    descriptor.bytes) (corrupt "payload record extent exceeds its descriptor")
  match pending.payloads[descriptor.fileName]? with
  | some staged => do
    require (staged.descriptor == descriptor) (corrupt "staged payload identity differs")
    let (extent, encoded) ← orElse (staged.records.find? fun entry => entry.1.offset == location.offset)
      (corrupt "payload record offset is absent")
    require (extent == location) (corrupt "payload record length differs")
    codec.decodeRecord encoded
  | none => do
    let stored ← tables.get codec.hash (recordKey descriptor location.offset)
    let encoded ← orElse stored (new .retentionExpired "requested payload record was reclaimed")
    require (encoded.length == location.bytes) (corrupt "payload record length differs")
    codec.decodeRecord encoded

end PendingPayloads

/-- A call in progress, at the point where it next takes the lock of the pending payloads. -/
inductive SegmentTask where
  | capturing (publication : Bookmark) (remaining : List SegmentDescriptor) (seen : List String)
      (captured : List (SegmentDescriptor × Nat)) (operations : List RecordOp)
  | binding (publication : Bookmark) (captured : List (SegmentDescriptor × Nat))
      (operations : List RecordOp)
  | releasing (bookmark : Bookmark)
  | published (result : Result (List RecordOp))
  | released (result : Result Unit)

inductive SegmentEvent where
  | wrote (name : String)
  | bound (name : String) (index : Nat)
  | discarded (name : String)
  | released (index : Nat)
deriving Repr, DecidableEq

structure SegmentSystem where
  pending : PendingPayloads
  tasks : List SegmentTask
  history : List SegmentEvent

inductive SegmentAction where
  | write (family : SegmentFamily) (project : Option ProjectId) (records : List SegmentRecord)
  | pendingOperations (descriptors : List SegmentDescriptor) (publication : Bookmark)
  | releaseCommittedThrough (bookmark : Bookmark)
  | discardStaged (descriptor : SegmentDescriptor)
  | advance (task : Nat)

def recordFrom (records : List SegmentRecord) (index : Nat) : Result SegmentRecord :=
  orElse records[index]? (internal "payload record disappeared")

def startPublication (descriptors : List SegmentDescriptor) (publication : Bookmark) : SegmentTask :=
  if publication.term = 0 ∨ publication.index = 0 then
    .published (.error (invalidData "payload publication must be nonzero"))
  else .capturing publication descriptors [] [] []

variable (codec : SegmentCodec) (pending : PendingPayloads)

def captureNext (publication : Bookmark)
    (descriptor : SegmentDescriptor) (remaining : List SegmentDescriptor) (seen : List String)
    (captured : List (SegmentDescriptor × Nat)) (operations : List RecordOp) : Result SegmentTask := do
  validateDescriptor descriptor
  if seen.contains descriptor.fileName then
    return .capturing publication remaining seen captured operations
  else
    let seen := descriptor.fileName :: seen
    match pending.payloads[descriptor.fileName]? with
    | none => return .capturing publication remaining seen captured operations
    | some staged => do
      require (staged.descriptor == descriptor) (corrupt "staged payload identity differs")
      require (staged.claims.unbound != 0) (internal "payload publication has no unbound claim")
      return .capturing publication remaining seen (captured ++ [(descriptor, staged.identity)])
        (operations ++ PendingPayloads.manifestOperations codec staged descriptor)

def advanceTask : SegmentTask → PendingPayloads × SegmentTask × List SegmentEvent
  | .capturing publication [] _ captured operations =>
    (pending, .binding publication captured operations, [])
  | .capturing publication (descriptor :: remaining) seen captured operations =>
    match captureNext codec pending publication descriptor remaining seen captured operations with
    | .ok task => (pending, task, [])
    | .error error => (pending, .published (.error error), [])
  | .binding _ [] operations => (pending, .published (.ok operations), [])
  | .binding publication (first :: captured) operations =>
    match pending.bindCaptured publication first with
    | .ok next =>
      (next, .binding publication captured operations,
        [.bound first.1.fileName publication.index.toNat])
    | .error error => (pending, .published (.error error), [])
  | .releasing bookmark =>
    match pending.releaseFirst bookmark with
    | (next, none) => (next, .releasing bookmark, [])
    | (next, some result) => (next, .released result, [])
  | .published result => (pending, .published result, [])
  | .released result => (pending, .released result, [])

namespace SegmentSystem

def initial : SegmentSystem := { pending := .empty, tasks := [], history := [] }

def step (codec : SegmentCodec) (system : SegmentSystem) : SegmentAction → SegmentSystem
  | .write family project records =>
    match system.pending.writeImmutableStreamingIndexed codec family project records.length
        (recordFrom records) with
    | .ok (pending, descriptor, _) =>
      { system with pending, history := .wrote descriptor.fileName :: system.history }
    | .error _ => system
  | .pendingOperations descriptors publication =>
    { system with tasks := system.tasks ++ [startPublication descriptors publication] }
  | .releaseCommittedThrough bookmark =>
    { system with
      tasks := system.tasks ++ [.releasing bookmark]
      history := .released bookmark.index.toNat :: system.history }
  | .discardStaged descriptor =>
    { system with
      pending := system.pending.discardStaged descriptor
      history := .discarded descriptor.fileName :: system.history }
  | .advance index =>
    match system.tasks[index]? with
    | none => system
    | some task =>
      let (pending, next, events) := advanceTask codec system.pending task
      { pending, tasks := system.tasks.set index next, history := events ++ system.history }

def run (codec : SegmentCodec) (actions : List SegmentAction) : SegmentSystem :=
  actions.foldl (step codec) initial

end SegmentSystem

end IronGraph

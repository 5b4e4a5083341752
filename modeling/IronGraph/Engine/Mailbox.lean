import IronGraph.Engine.MailboxStep

/-!
No published batch is lost or applied twice: the batches published so far split into those in the
record store, those in the worker's hands and those under the pending root, wherever that root
currently is.
-/

namespace IronGraph

open Outcome DirtyRecords MailboxSystem List

structure Covers (batch : RecordBatch) (span : List RecordBatch) : Prop where
  operations : operationsOverlay batch.operations =
    operationsOverlay (span.flatMap RecordBatch.operations)
  bookmark : span.getLast?.map RecordBatch.bookmark = some batch.bookmark

def covers : Option RecordBatch → List RecordBatch → Prop
  | none, span => span = []
  | some batch, span => Covers batch span

variable {span : List RecordBatch}

variable {batch : RecordBatch} {system : MailboxSystem} {action : MailboxAction}

namespace MailboxSystem

def root (system : MailboxSystem) : Option RecordBatch := match system.publisher with
  | .merging root _ => root.map intoBatch
  | _ => system.mailbox.pending.map intoBatch

end MailboxSystem

/-- What the two threads rely on while they are between lock sections. -/
structure Protocol (start : RecordImage) (system : MailboxSystem) : Prop where
  contiguous : continuesPublication start.bookmark.index system.history = true
  published : system.mailbox.published = (start.advance system.history).bookmark.index
  accepted : ∀ batches, system.publisher = .checked batches ∨
    (∃ root, system.publisher = .merging root batches) →
    batches ≠ [] ∧ continuesPublication system.mailbox.published batches = true
  held : ∀ root batches, system.publisher = .merging root batches → system.mailbox.pending = none
  released : (∃ batch, system.worker = .persisting batch) ∨
    (∃ bookmark, system.worker = .persisted bookmark) ∨
    (∃ batch error, system.worker = .failed batch error) → system.retained = none

end IronGraph

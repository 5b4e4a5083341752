import Mathlib

/-!
The error taxonomy and the commit position shared by every crate of the repository. A bookmark is
the position of a mutation in the single ordered write history.
-/

namespace IronGraph

inductive ErrorCode where
  | staleLocalRead
  | corruptStorage
  | gpuAdmissionFailure
  | projectNotFound
  | projectFenced
  | layerNotAllowed
  | querySyntax
  | queryType
  | transactionConflict
  | transactionExpired
  | transactionSequencerChanged
  | writeAdmissionFull
  | temporalRange
  | embeddingProfileMismatch
  | embeddingProfileImmutable
  | indexUnavailable
  | resultBudgetExceeded
  | embeddingUnavailable
  | authenticationFailed
  | authorizationDenied
  | backpressure
  | retentionExpired
  | protocolViolation
  | cancelled
  | deadlineExceeded
  | invalidData
  | io
  | internal
deriving Repr, DecidableEq

structure Error where
  code : ErrorCode
  message : String
  retryable : Bool
  retryAfterMs : Option Nat
deriving Repr, DecidableEq

namespace Error

def new (code : ErrorCode) (message : String) : Error :=
  { code, message, retryable := false, retryAfterMs := none }

def asRetryable (code : ErrorCode) (message : String) (retryAfterMs : Option Nat) : Error :=
  { code, message, retryable := true, retryAfterMs }

def invalidData (message : String) : Error := new .invalidData message

def internal (message : String) : Error := new .internal message

end Error

abbrev Result (α : Type) := Except Error α

abbrev Bytes := List UInt8

abbrev Uuid := Nat

abbrev ProjectId := Uuid

structure Bookmark where
  term : UInt64
  index : UInt64
deriving Repr, DecidableEq

instance : Inhabited Bookmark := ⟨{ term := 0, index := 0 }⟩

def u64Limit : Nat := 2 ^ 64

def saturatingAdd (left right : Nat) : Nat := min (left + right) (u64Limit - 1)

def checkedAdd (left right : UInt64) : Option UInt64 :=
  if left.toNat + right.toNat < 2 ^ 64 then some (left + right) else none

theorem checkedAdd_eq_some (left right total : UInt64) :
    checkedAdd left right = some total ↔ total.toNat = left.toNat + right.toNat := by
  unfold checkedAdd
  have bound := total.toNat_lt
  constructor
  · intro added
    split at added
    · cases added
      rw [UInt64.toNat_add]
      omega
    · cases added
  · intro matched
    have fits : left.toNat + right.toNat < 2 ^ 64 := by omega
    simp only [fits, if_true, Option.some.injEq]
    apply UInt64.toNat_inj.mp
    rw [UInt64.toNat_add, Nat.mod_eq_of_lt fits]
    exact matched.symm

end IronGraph

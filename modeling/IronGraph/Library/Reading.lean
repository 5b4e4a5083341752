import Mathlib

/-!
Programs that read a shared state one atomic look at a time.

Against a state that does not change a program is evaluated. A writer is a list of atomic stores.
-/

inductive Reading (σ α : Type) where
  | done (value : α)
  | look (next : σ → Reading σ α)

namespace Reading

variable {σ τ α β : Type}

def bind : Reading σ α → (α → Reading σ β) → Reading σ β
  | done value, next => next value
  | look step, next => look fun state => (step state).bind next

instance : Monad (Reading σ) where
  pure := done
  bind := bind

def load (query : σ → α) : Reading σ α := look fun state => done (query state)

def eval (state : σ) : Reading σ α → α
  | done value => value
  | look next => (next state).eval state

def zoom (part : σ → τ) : Reading τ α → Reading σ α
  | done value => done value
  | look next => look fun state => (next (part state)).zoom part

end Reading

def perform {σ : Type} (writes : List (σ → σ)) (state : σ) : σ :=
  writes.foldl (fun state write => write state) state

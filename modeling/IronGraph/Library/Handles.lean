import IronGraph.Library.Outcome

/-!
Several handles to values of one data type: handles are created, duplicated and operated on in any
order. An implementation refines a specification if the two agree on every reply of every such run.
-/

namespace Handles

open Outcome List Nat

/-- A data type: how its values are made and what an operation does to one of them. -/
structure Component (ε α ω ρ : Type) where
  Value : Type
  make : α → Except ε Value
  perform : Value → ω → Except ε (Value × ρ)

inductive Step (α ω : Type) where
  | create (seed : α)
  | duplicate (handle : Nat)
  | operate (handle : Nat) (operation : ω)

variable {ε α ω ρ : Type}

namespace Component

variable (component : Component ε α ω ρ)

def operate (pool : List component.Value) (handle : Nat) (operation : ω) :
    Except ε (List component.Value × Option ρ) :=
  match pool[handle]? with
  | none => .ok (pool, none)
  | some value => do
    let (value, reply) ← component.perform value operation
    return (pool.set handle value, some reply)

def step (pool : List component.Value) : Step α ω → Except ε (List component.Value × Option ρ)
  | .create seed => do
    let value ← component.make seed
    return (pool ++ [value], none)
  | .duplicate handle => .ok (pool ++ pool[handle]?.toList, none)
  | .operate handle operation => component.operate pool handle operation

def run : List (Step α ω) → List component.Value → Except ε (List component.Value × List (Option ρ))
  | [], pool => .ok (pool, [])
  | action :: rest, pool => do
    let (pool, reply) ← component.step pool action
    let (pool, replies) ← run rest pool
    return (pool, reply :: replies)

end Component

/-- Every value made or changed by the implementation stands for the one the specification has, or the
implementation gives up with an error in `fail`. -/
structure Refines (implementation specification : Component ε α ω ρ)
    (related : implementation.Value → specification.Value → Prop) (fail : ε → Prop) : Prop where
  make : ∀ seed, Meets (implementation.make seed)
    (fun value => ∃ model, specification.make seed = .ok model ∧ related value model) fail
  perform : ∀ {value model} (operation : ω), related value model →
    Meets (implementation.perform value operation)
    (fun result => ∃ after, specification.perform model operation = .ok (after, result.2) ∧
      related result.1 after) fail

variable {implementation specification : Component ε α ω ρ} {pool : List implementation.Value}
  {models : List specification.Value}

theorem forall₂_set {σ τ : Type} {related : σ → τ → Prop} {values : List σ} {models : List τ}
    (pointwise : Forall₂ related values models) (index : Nat) {value : σ} {model : τ}
    (held : related value model) : Forall₂ related (values.set index value)
      (models.set index model) := by
  induction pointwise generalizing index with
  | nil => exact .nil
  | cons head tail ih =>
    cases index with
    | zero => exact .cons held tail
    | succ index => exact .cons head (ih index)

section Within

variable {standing : Nat → implementation.Value → specification.Value → Prop} {cost : α → Nat}
  {price : ω → Nat} {gaveUp : Nat → ε → Prop}

/-- Refinement within a budget: making a value and operating on it use up some of it, and what has
been used bounds when the implementation may give up. -/
structure RefinesWithin (implementation specification : Component ε α ω ρ)
    (standing : Nat → implementation.Value → specification.Value → Prop) (cost : α → Nat)
    (price : ω → Nat)
    (gaveUp : Nat → ε → Prop) : Prop where
  make : ∀ seed, Meets (implementation.make seed)
    (fun value => ∃ model, specification.make seed = .ok model ∧
      standing (cost seed) value model) (gaveUp (cost seed))
  perform : ∀ {used value model} (operation : ω), standing used value model →
    Meets (implementation.perform value operation)
      (fun result => ∃ after, specification.perform model operation = .ok (after, result.2) ∧
        standing (used + price operation) result.1 after) (gaveUp (used + price operation))
  spend : ∀ {used more value model}, used ≤ more → standing used value model → standing more value model
  later : ∀ {used more error}, used ≤ more → gaveUp used error → gaveUp more error

def Step.charge (cost : α → Nat) (price : ω → Nat) : Step α ω → Nat
  | .create seed => cost seed
  | .duplicate _ => 0
  | .operate _ operation => price operation

def volume (cost : α → Nat) (price : ω → Nat) (actions : List (Step α ω)) : Nat :=
  (actions.map (Step.charge cost price)).sum

theorem forall₂_getElem?_none {σ τ : Type} {related : σ → τ → Prop} {values : List σ} {models : List τ}
    (pointwise : Forall₂ related values models) {index : Nat} (absent : values[index]? = none) :
    models[index]? = none := by
  rw [getElem?_eq_none_iff, ← pointwise.length_eq, ← getElem?_eq_none_iff]
  exact absent

section

variable (refines : RefinesWithin implementation specification standing cost price gaveUp)

include refines

theorem RefinesWithin.operate
    {used : Nat} (pointwise : Forall₂ (standing used) pool models) (handle : Nat) (op : ω) :
    Meets (implementation.operate pool handle op)
      (fun result => ∃ after, specification.operate models handle op = .ok (after, result.2) ∧
        Forall₂ (standing (used + price op)) result.1 after) (gaveUp (used + price op)) := by
  have spent : Forall₂ (standing (used + price op)) pool models :=
    pointwise.imp fun _ _ => refines.spend (le_add_right _ _)
  unfold Component.operate
  cases found : pool[handle]? with
  | none => exact ⟨models, by rw [forall₂_getElem?_none pointwise found], spent⟩
  | some value =>
    obtain ⟨model, here, held⟩ := related_getElem? pointwise.flip found
    apply Meets.bind (refines.perform op held)
    rintro ⟨changed, reply⟩ ⟨after, performed, heldAfter⟩
    refine ⟨models.set handle after, ?_, forall₂_set spent handle heldAfter⟩
    rw [here]
    exact bind_eq_ok.mpr ⟨_, performed, rfl⟩

theorem RefinesWithin.step {used : Nat} (pointwise : Forall₂ (standing used) pool models)
    (action : Step α ω) : Meets (implementation.step pool action)
      (fun result => ∃ after, specification.step models action = .ok (after, result.2) ∧
        Forall₂ (standing (used + action.charge cost price)) result.1 after)
      (gaveUp (used + action.charge cost price)) := by
  cases action with
  | create seed =>
    have spent : Forall₂ (standing (used + cost seed)) pool models :=
      pointwise.imp fun _ _ => refines.spend (le_add_right _ _)
    apply Meets.bind ((refines.make seed).mono (fun _ made => made) fun _ =>
      refines.later (le_add_left _ _))
    rintro value ⟨model, made, held⟩
    exact ⟨models ++ [model], bind_eq_ok.mpr ⟨_, made, rfl⟩,
      rel_append spent (.cons (refines.spend (le_add_left _ _) held) .nil)⟩
  | duplicate handle =>
    refine ⟨models ++ models[handle]?.toList, rfl, rel_append pointwise ?_⟩
    cases found : pool[handle]? with
    | none =>
      rw [forall₂_getElem?_none pointwise found]
      exact .nil
    | some value =>
      obtain ⟨model, here, held⟩ := related_getElem? pointwise.flip found
      rw [here]
      exact .cons held .nil
  | operate handle op => exact refines.operate pointwise handle op

theorem RefinesWithin.run
    (actions : List (Step α ω)) (used : Nat) (pointwise : List.Forall₂ (standing used) pool models) :
    Meets (implementation.run actions pool)
      (fun result => ∃ after, specification.run actions models = .ok (after, result.2) ∧
        List.Forall₂ (standing (used + volume cost price actions)) result.1 after)
      (gaveUp (used + volume cost price actions)) := by
  induction actions generalizing used pool models with
  | nil => exact ⟨models, rfl, pointwise⟩
  | cons action rest ih =>
    have split : used + volume cost price (action :: rest) =
        used + action.charge cost price + volume cost price rest := by
      simp [volume, Nat.add_assoc]
    rw [split]
    apply Meets.bind ((refines.step pointwise action).mono (fun _ stepped => stepped)
      fun _ => refines.later (Nat.le_add_right _ _))
    rintro ⟨middle, reply⟩ ⟨modelMiddle, stepped, held⟩
    apply Meets.bind (ih _ held)
    rintro ⟨final, replies⟩ ⟨after, ran, heldAfter⟩
    exact ⟨after, bind_eq_ok.mpr ⟨_, stepped, bind_eq_ok.mpr ⟨_, ran, rfl⟩⟩, heldAfter⟩

end

end Within

/-- The implementation gives every reply the specification gives, and its handles still stand for
those of the specification. -/
theorem Refines.run {related : implementation.Value → specification.Value → Prop} {fail : ε → Prop}
    (refines : Refines implementation specification related fail) (actions : List (Step α ω))
    (pointwise : Forall₂ related pool models) : Meets (implementation.run actions pool)
      (fun result => ∃ after, specification.run actions models = .ok (after, result.2) ∧
        Forall₂ related result.1 after) fail := by
  -- a refinement without a budget is one in which nothing costs anything
  have within : RefinesWithin implementation specification (fun _ => related) (fun _ => 0) (fun _ => 0)
      (fun _ => fail) :=
    { make := refines.make
      perform := refines.perform
      spend := fun _ held => held
      later := fun _ failed => failed }
  exact within.run actions 0 pointwise

end Handles

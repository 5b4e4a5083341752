import Mathlib

/-!
Rules for computations in `Except`: what it means for a sequence of steps to succeed, and the
induction rule for a loop that may stop with an error.
-/

namespace Outcome

open List

variable {ε α β σ : Type} {error : ε} {next : α → Except ε β}

def require (holds : Bool) (error : ε) : Except ε Unit :=
  if holds then .ok () else .error error

def orElse (found : Option α) (error : ε) : Except ε α := match found with
  | some value => .ok value
  | none => .error error

theorem exists_ok {result : Except ε α} (passes : result.isOk = true) :
    ∃ value, result = .ok value := by
  cases result with
  | error _ => cases passes
  | ok value => exact ⟨value, rfl⟩

theorem bind_eq_ok {value : β} {first : Except ε α} :
    (first >>= next) = .ok value ↔ ∃ middle, first = .ok middle ∧ next middle = .ok value := by
  cases first with
  | error _ => simp [bind, Except.bind]
  | ok middle => simp [bind, Except.bind]

variable {items : List α}

theorem bind_eq_error {first : Except ε α} : (first >>= next) = .error error ↔
      first = .error error ∨ ∃ middle, first = .ok middle ∧ next middle = .error error := by
  cases first with
  | error _ => simp [bind, Except.bind]
  | ok middle => simp [bind, Except.bind]

@[simp] theorem require_eq_ok {holds : Bool} {error : ε} {value : Unit} :
    require holds error = .ok value ↔ holds = true := by
  cases holds <;> simp [require]

@[simp] theorem orElse_eq_ok {found : Option α} {error : ε} {value : α} :
    orElse found error = .ok value ↔ found = some value := by
  cases found <;> simp [orElse]

theorem foldlM_passed {step : σ → α → Except ε σ} {start final : σ}
    (ran : items.foldlM step start = .ok final)
    {item : α} (mem : item ∈ items) : ∃ state next, step state item = .ok next := by
  induction items generalizing start with
  | nil => cases mem
  | cons first rest ih =>
    rw [foldlM_cons, bind_eq_ok] at ran
    obtain ⟨middle, stepped, continued⟩ := ran
    rcases mem_cons.mp mem with same | later
    · exact ⟨start, middle, same ▸ stepped⟩
    · exact ih continued later

theorem forM_eq_ok {value : Unit} {action : α → Except ε PUnit} :
    items.forM action = .ok value ↔ ∀ item ∈ items, action item = .ok () := by
  induction items with
  | nil => simp [List.forM, pure, Except.pure]
  | cons item rest ih =>
    change (action item >>= fun _ => rest.forM action) = .ok value ↔ _
    rw [bind_eq_ok]
    simp only [ih, mem_cons, forall_eq_or_imp]
    exact ⟨fun ⟨_, first, others⟩ => ⟨first, others⟩, fun ⟨first, others⟩ => ⟨(), first, others⟩⟩

theorem mapM_eq_ok_mem {values : List β} {compute : α → Except ε β}
    (ran : items.mapM compute = .ok values) :
    (∀ item ∈ items, ∃ value ∈ values, compute item = .ok value) ∧
      ∀ value ∈ values, ∃ item ∈ items, compute item = .ok value := by
  induction items generalizing values with
  | nil =>
    obtain rfl : [] = values := Except.ok.inj ran
    exact ⟨nofun, nofun⟩
  | cons item rest ih =>
    rw [mapM_cons, bind_eq_ok] at ran
    obtain ⟨value, computed, ran⟩ := ran
    obtain ⟨others, continued, same⟩ := bind_eq_ok.mp ran
    obtain rfl : value :: others = values := Except.ok.inj same
    obtain ⟨forward, backward⟩ := ih continued
    constructor
    · intro other mem
      rcases mem_cons.mp mem with rfl | later
      · exact ⟨value, mem_cons_self, computed⟩
      · obtain ⟨result, has, found⟩ := forward other later
        exact ⟨result, mem_cons_of_mem _ has, found⟩
    · intro result mem
      rcases mem_cons.mp mem with rfl | later
      · exact ⟨item, mem_cons_self, computed⟩
      · obtain ⟨other, has, found⟩ := backward result later
        exact ⟨other, mem_cons_of_mem _ has, found⟩

theorem mapM_ok {compute : α → Except ε β} (each : ∀ item ∈ items, ∃ value, compute item = .ok value) :
    ∃ values, items.mapM compute = .ok values := by
  induction items with
  | nil => exact ⟨[], rfl⟩
  | cons item rest ih =>
    obtain ⟨value, computed⟩ := each item mem_cons_self
    obtain ⟨values, continued⟩ := ih fun other later => each other (mem_cons_of_mem _ later)
    refine ⟨value :: values, ?_⟩
    rw [mapM_cons]
    exact bind_eq_ok.mpr ⟨value, computed, bind_eq_ok.mpr ⟨values, continued, rfl⟩⟩

/-- A successful outcome satisfies `post`, an error satisfies `fail`. -/
def Meets (result : Except ε α) (post : α → Prop) (fail : ε → Prop) : Prop := match result with
  | .ok value => post value
  | .error error => fail error

section Meets

theorem Meets.ok_post {result : Except ε α} {post : α → Prop} {fail : ε → Prop} {value : α}
    (met : Meets result post fail) (returned : result = .ok value) : post value := by
  subst returned
  exact met

theorem Meets.error_fail {result : Except ε α} {post : α → Prop} {fail : ε → Prop} {error : ε}
    (met : Meets result post fail) (returned : result = .error error) : fail error := by
  subst returned
  exact met

theorem Meets.mono {result : Except ε α} {post : α → Prop} {fail : ε → Prop} {weaker : α → Prop}
    {laxer : ε → Prop} (met : Meets result post fail) (weaken : ∀ value, post value → weaker value)
    (relax : ∀ error, fail error → laxer error) : Meets result weaker laxer := by
  cases result with
  | ok value => exact weaken value met
  | error error => exact relax error met

theorem Meets.sure {result : Except ε α} {post : α → Prop} {fail : ε → Prop}
    (met : Meets result post fun _ => False) : Meets result post fail :=
  met.mono (fun _ held => held) fun _ failed => failed.elim

variable {fail : ε → Prop} {final : β → Prop} {first : Except ε α} {holds : Bool}

theorem Meets.bind {post : α → Prop} (met : Meets first post fail)
    (continued : ∀ value, post value → Meets (next value) final fail) :
    Meets (first >>= next) final fail := by
  cases first with
  | ok value => exact continued value met
  | error error => exact met

theorem Meets.passed {value : α} (returned : first = .ok value)
    (continued : Meets (next value) final fail) :
    Meets (first >>= next) final fail := by
  subst returned
  exact continued

theorem Meets.require {error : ε} {next : Unit → Except ε β} (valid : holds = true)
    (continued : Meets (next ()) final fail) : Meets (require holds error >>= next) final fail := by
  subst valid
  exact continued

theorem Meets.required {error : ε} {final : Unit → Prop} (passes : holds = true) (done : final ()) :
    Meets (Outcome.require holds error) final fail := by
  subst passes
  exact done

theorem Meets.check {error : ε} {next : Unit → Except ε β} (rejected : holds = false → fail error)
    (continued : holds = true → Meets (next ()) final fail) :
    Meets (Outcome.require holds error >>= next) final fail := by
  cases holds with
  | true => exact continued rfl
  | false => exact rejected rfl

theorem Meets.orElse {found : Option α} (missing : found = none → fail error)
    (continued : ∀ value, found = some value → Meets (next value) final fail) :
    Meets (orElse found error >>= next) final fail := by
  cases found with
  | none => exact missing rfl
  | some value => exact continued value rfl

theorem Meets.foldlM {start : σ} {step : σ → α → Except ε σ} {fail : ε → Prop}
    (holds : List α → σ → Prop) (items : List α) (initial : holds items start)
    (preserved : ∀ item rest state, holds (item :: rest) state →
    Meets (step state item) (holds rest) fail) : Meets (items.foldlM step start) (holds []) fail := by
  induction items generalizing start with
  | nil => exact initial
  | cons item rest ih =>
    rw [foldlM_cons]
    exact Meets.bind (preserved item rest start initial) fun state reached => ih reached

theorem Meets.imp {result : Except ε α} {post : α → Prop} {fail : ε → Prop} {weaker : α → Prop}
    (met : Meets result post fail) (weakened : ∀ value, post value → weaker value) :
    Meets result weaker fail :=
  met.mono weakened fun _ failed => failed

theorem Meets.loop {start : σ} {step : σ → α → Except ε σ} {fail : ε → Prop}
    (holds : List α → σ → Prop) (initial : holds [] start)
    (preserved : ∀ done item rest state, done ++ item :: rest = items → holds done state →
      Meets (step state item) (holds (done ++ [item])) fail) :
    Meets (items.foldlM step start) (holds items) fail := by
  refine Meets.imp (Meets.foldlM (fun rest state => ∃ done, done ++ rest = items ∧
    holds done state) items ⟨[], rfl, initial⟩ ?_) ?_
  · rintro item rest state ⟨done, whole, held⟩
    exact (preserved done item rest state whole held).imp fun next after =>
      ⟨done ++ [item], by simp [← whole], after⟩
  · rintro state ⟨done, whole, held⟩
    rw [append_nil] at whole
    exact whole ▸ held

theorem Meets.mapM {compute : α → Except ε β} {fail : ε → Prop} (related : α → β → Prop)
    (each : ∀ item ∈ items, Meets (compute item) (related item) fail) :
    Meets (items.mapM compute) (List.Forall₂ related items) fail := by
  induction items with
  | nil => exact .nil
  | cons item rest ih =>
    rw [mapM_cons]
    apply Meets.bind (each item (by simp))
    intro value held
    apply Meets.bind (ih fun other mem => each other (mem_cons_of_mem _ mem))
    intro values later
    exact .cons held later

theorem related_getElem? {related : α → β → Prop} {items : List α} {values : List β}
    (pointwise : List.Forall₂ related items values) {index : Nat} {value : β}
    (found : values[index]? = some value) : ∃ item, items[index]? = some item ∧ related item value := by
  induction pointwise generalizing index with
  | nil => simp at found
  | cons held rest ih =>
    cases index with
    | zero =>
      rw [getElem?_cons_zero, Option.some.injEq] at found
      exact ⟨_, rfl, found ▸ held⟩
    | succ index => exact ih found

end Meets

end Outcome

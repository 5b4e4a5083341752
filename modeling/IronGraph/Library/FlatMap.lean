import IronGraph.Library.Outcome

/-!
A flattening iterator over a range of pages that can be drawn from at both ends. The page at either
end is opened when it is reached; when the range is exhausted the two ends share what is left.
-/

namespace DoubleEnded

open Outcome List

structure FlatMap (α : Type) where
  front : Option (List α)
  lower : Nat
  upper : Nat
  back : Option (List α)

inductive Side where
  | front
  | back

variable {ε α : Type}

namespace FlatMap

def ofRange (upper : Nat) : FlatMap α := { front := none, lower := 0, upper, back := none }

def takeFirst : Option (List α) → Option (α × List α)
  | some (item :: rest) => some (item, rest)
  | _ => none

def takeLast : Option (List α) → Option (α × List α)
  | some items => items.getLast?.map fun item => (item, items.dropLast)
  | none => none

def next (produce : Nat → Except ε (List α)) (flat : FlatMap α) : Except ε (Option (α × FlatMap α)) :=
  match takeFirst flat.front with
  | some (item, rest) => .ok (some (item, { flat with front := some rest }))
  | none =>
    if flat.lower < flat.upper then do
      let page ← produce flat.lower
      next produce { flat with front := some page, lower := flat.lower + 1 }
    else
      match takeFirst flat.back with
      | some (item, rest) => .ok (some (item, { flat with front := none, back := some rest }))
      | none => .ok none
termination_by flat.upper - flat.lower

def nextBack (produce : Nat → Except ε (List α)) (flat : FlatMap α) :
    Except ε (Option (α × FlatMap α)) :=
  match takeLast flat.back with
  | some (item, rest) => .ok (some (item, { flat with back := some rest }))
  | none =>
    if flat.lower < flat.upper then do
      let page ← produce (flat.upper - 1)
      nextBack produce { flat with back := some page, upper := flat.upper - 1 }
    else
      match takeLast flat.front with
      | some (item, rest) => .ok (some (item, { flat with back := none, front := some rest }))
      | none => .ok none
termination_by flat.upper - flat.lower

variable (produce : Nat → Except ε (List α)) (flat : FlatMap α)

def drawSide : Side → Except ε (Option (α × FlatMap α))
  | .front => flat.next produce
  | .back => flat.nextBack produce

def draw (produce : Nat → Except ε (List α)) : List Side → FlatMap α → Except ε (List (Option α))
  | [], _ => .ok []
  | side :: rest, flat => do
    let drawn ← flat.drawSide produce side
    let items ← draw produce rest (drawn.elim flat (·.2))
    return drawn.map (·.1) :: items

def collect : Except ε (List α) := do
  let opened ← (range' flat.lower (flat.upper - flat.lower)).mapM produce
  return flat.front.getD [] ++ opened.flatten ++ flat.back.getD []

def pending (pages : Nat → List α) (flat : FlatMap α) : List α :=
  flat.front.getD [] ++ (range' flat.lower (flat.upper - flat.lower)).flatMap pages ++ flat.back.getD []

end FlatMap

def takeEnd (items : List α) : Side → Option α × List α
  | .front => (items.head?, items.tail)
  | .back => (items.getLast?, items.dropLast)

def drawList : List Side → List α → List (Option α)
  | [], _ => []
  | side :: rest, items => (takeEnd items side).1 :: drawList rest (takeEnd items side).2

namespace FlatMap

def Opens (produce : Nat → Except ε (List α)) (pages : Nat → List α) (flat : FlatMap α) : Prop :=
  ∀ index, flat.lower ≤ index → index < flat.upper → produce index = .ok (pages index)

theorem takeFirst_eq_some {page : Option (List α)} {item : α} {rest : List α} :
    takeFirst page = some (item, rest) ↔ page = some (item :: rest) := by
  match page with
  | none => simp [takeFirst]
  | some [] => simp [takeFirst]
  | some (first :: others) => simp [takeFirst]

theorem takeFirst_eq_none {page : Option (List α)} : takeFirst page = none ↔ page.getD [] = [] := by
  match page with
  | none => simp [takeFirst]
  | some [] => simp [takeFirst]
  | some (first :: others) => simp [takeFirst]

theorem takeLast_eq_some {page : Option (List α)} {item : α} {rest : List α} :
    takeLast page = some (item, rest) ↔ page = some (rest ++ [item]) := by
  cases page with
  | none => simp [takeLast]
  | some items =>
    rcases items.eq_nil_or_concat with rfl | ⟨initial, last, rfl⟩
    · simp [takeLast]
    · simp [takeLast, and_comm]

theorem takeLast_eq_none {page : Option (List α)} : takeLast page = none ↔ page.getD [] = [] := by
  cases page with
  | none => simp [takeLast]
  | some items => simp [takeLast]

variable {pages : Nat → List α}

theorem pending_open_lower {flat : FlatMap α} (closed : flat.front.getD [] = [])
    (more : flat.lower < flat.upper) :
    pending pages { flat with front := some (pages flat.lower), lower := flat.lower + 1 } =
      flat.pending pages := by
  obtain ⟨count, full⟩ : ∃ count, flat.upper - flat.lower = count + 1 :=
    ⟨flat.upper - flat.lower - 1, by omega⟩
  have left : flat.upper - (flat.lower + 1) = count := by omega
  simp [pending, closed, full, left, range'_succ]

theorem pending_open_upper {flat : FlatMap α} (closed : flat.back.getD [] = [])
    (more : flat.lower < flat.upper) :
    pending pages { flat with back := some (pages (flat.upper - 1)), upper := flat.upper - 1 } =
      flat.pending pages := by
  obtain ⟨count, full⟩ : ∃ count, flat.upper - flat.lower = count + 1 :=
    ⟨flat.upper - flat.lower - 1, by omega⟩
  have left : flat.upper - 1 - flat.lower = count := by omega
  have last : flat.lower + count = flat.upper - 1 := by omega
  simp [pending, closed, full, left, last, range'_1_concat]

theorem next_meets {produce : Nat → Except ε (List α)} {pages : Nat → List α} (flat : FlatMap α)
    (opens : Opens produce pages flat) : Meets (flat.next produce)
      (fun drawn => drawn.map (·.1) = (flat.pending pages).head? ∧
          ∀ item later, drawn = some (item, later) → Opens produce pages later ∧
          later.pending pages = (flat.pending pages).tail) fun _ => False := by
  fun_induction next produce flat with
  | case1 flat item rest taken =>
    have front := takeFirst_eq_some.mp taken
    refine ⟨by simp [pending, front], ?_⟩
    rintro _ _ ⟨⟩
    exact ⟨opens, by simp [pending, front]⟩
  | case2 flat closed more ih =>
    apply Meets.passed (opens flat.lower (Nat.le_refl _) more)
    rw [← pending_open_lower (takeFirst_eq_none.mp closed) more]
    exact ih _ fun index above below => opens index (Nat.le_of_succ_le above) below
  | case3 flat closed finished item rest taken =>
    have front := takeFirst_eq_none.mp closed
    have back := takeFirst_eq_some.mp taken
    have nothing : flat.upper - flat.lower = 0 := by omega
    refine ⟨by simp [pending, front, back, nothing], ?_⟩
    rintro _ _ ⟨⟩
    exact ⟨opens, by simp [pending, front, back, nothing]⟩
  | case4 flat closed finished exhausted =>
    have front := takeFirst_eq_none.mp closed
    have back := takeFirst_eq_none.mp exhausted
    have nothing : flat.upper - flat.lower = 0 := by omega
    exact ⟨by simp [pending, front, back, nothing], nofun⟩

theorem nextBack_meets {produce : Nat → Except ε (List α)} {pages : Nat → List α} (flat : FlatMap α)
    (opens : Opens produce pages flat) : Meets (flat.nextBack produce)
      (fun drawn => drawn.map (·.1) = (flat.pending pages).getLast? ∧
          ∀ item later, drawn = some (item, later) → Opens produce pages later ∧
          later.pending pages = (flat.pending pages).dropLast) fun _ => False := by
  fun_induction nextBack produce flat with
  | case1 flat item rest taken =>
    have back := takeLast_eq_some.mp taken
    refine ⟨by simp [pending, back], ?_⟩
    rintro _ _ ⟨⟩
    exact ⟨opens, by simp [pending, back, ← append_assoc]⟩
  | case2 flat closed more ih =>
    apply Meets.passed (opens (flat.upper - 1) (by omega) (by omega))
    rw [← pending_open_upper (takeLast_eq_none.mp closed) more]
    exact ih _ fun index above below => opens index above (show index < flat.upper by
      have : index < flat.upper - 1 := below
      omega)
  | case3 flat closed finished item rest taken =>
    have back := takeLast_eq_none.mp closed
    have front := takeLast_eq_some.mp taken
    have nothing : flat.upper - flat.lower = 0 := by omega
    refine ⟨by simp [pending, front, back, nothing], ?_⟩
    rintro _ _ ⟨⟩
    exact ⟨opens, by simp [pending, front, back, nothing]⟩
  | case4 flat closed finished exhausted =>
    have back := takeLast_eq_none.mp closed
    have front := takeLast_eq_none.mp exhausted
    have nothing : flat.upper - flat.lower = 0 := by omega
    exact ⟨by simp [pending, front, back, nothing], nofun⟩

theorem drawSide_meets {produce : Nat → Except ε (List α)} {pages : Nat → List α} (flat : FlatMap α)
    (opens : Opens produce pages flat) (side : Side) :
    Meets (flat.drawSide produce side)
      (fun drawn => drawn.map (·.1) = (takeEnd (flat.pending pages) side).1 ∧
        Opens produce pages (drawn.elim flat (·.2)) ∧
        (drawn.elim flat (·.2)).pending pages = (takeEnd (flat.pending pages) side).2)
          fun _ => False := by
  cases side with
  | front =>
    apply (next_meets flat opens).mono _ fun _ impossible => impossible
    rintro (_ | ⟨item, later⟩) ⟨first, after⟩
    · have finished : flat.pending pages = [] := head?_eq_none_iff.mp first.symm
      exact ⟨first, opens, by simp [finished, takeEnd]⟩
    · exact ⟨first, after item later rfl⟩
  | back =>
    apply (nextBack_meets flat opens).mono _ fun _ impossible => impossible
    rintro (_ | ⟨item, later⟩) ⟨last, after⟩
    · have finished : flat.pending pages = [] := getLast?_eq_none_iff.mp last.symm
      exact ⟨last, opens, by simp [finished, takeEnd]⟩
    · exact ⟨last, after item later rfl⟩

/-- Drawing from both ends in any order draws from the two ends of the list of what is left. -/
theorem draw_meets {produce : Nat → Except ε (List α)} {pages : Nat → List α} (sides : List Side)
    (flat : FlatMap α) (opens : Opens produce pages flat) :
    Meets (flat.draw produce sides) (· = drawList sides (flat.pending pages)) fun _ => False := by
  induction sides generalizing flat with
  | nil => rfl
  | cons side rest ih =>
    apply Meets.bind (drawSide_meets flat opens side)
    rintro drawn ⟨item, opensLater, left⟩
    apply Meets.bind (ih _ opensLater)
    rintro items rfl
    show _ :: _ = drawList (side :: rest) (flat.pending pages)
    rw [item, left, drawList]

theorem collect_meets {produce : Nat → Except ε (List α)} {pages : Nat → List α} (flat : FlatMap α)
    (opens : Opens produce pages flat) :
    Meets (flat.collect produce) (· = flat.pending pages) fun _ => False := by
  apply Meets.bind (Meets.mapM (fun index page => page = pages index) _)
  · intro opened same
    have equal : opened = (range' flat.lower (flat.upper - flat.lower)).map pages := by
      exact (forall₂_eq_eq_eq ▸ forall₂_map_left_iff.mpr (same.imp fun _ _ => Eq.symm)).symm
    show _ ++ opened.flatten ++ _ = _
    rw [equal, pending, flatMap_def]
  · intro index inside
    rw [mem_range'_1] at inside
    rw [opens index inside.1 (by omega)]
    rfl

end FlatMap

end DoubleEnded

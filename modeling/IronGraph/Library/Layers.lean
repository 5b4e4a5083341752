import Mathlib

/-!
Distances in a directed graph by layers: how many hops a node is away from the nearest start, and
what holds between a layer of nodes whose edges are being followed and the layer found so far behind
it. A search marks what it finds.
-/

namespace Layers

open Nat Function Finset

variable {ν : Type} {edge : ν → ν → Prop} {start : ν → Prop} {hops : Nat} {node : ν}
  {here there : List ν}

def Walks (start : ν → Prop) (edge : ν → ν → Prop) : Nat → ν → Prop
  | 0, node => start node
  | hops + 1, node => ∃ before, Walks start edge hops before ∧ edge before node

def Distance (start : ν → Prop) (edge : ν → ν → Prop) (hops : Nat) (node : ν) : Prop :=
  Walks start edge hops node ∧ ∀ fewer < hops, ¬ Walks start edge fewer node

theorem Distance.unique {others : Nat} (left : Distance start edge hops node)
    (right : Distance start edge others node) :
    hops = others := by
  rcases lt_trichotomy hops others with less | same | more
  · exact absurd left.1 (right.2 hops less)
  · exact same
  · exact absurd right.1 (left.2 others more)

theorem Walks.distance (walk : Walks start edge hops node) :
    ∃ nearest ≤ hops, Distance start edge nearest node := by
  classical
  have found : ∃ hops, Walks start edge hops node := ⟨hops, walk⟩
  exact ⟨Nat.find found, Nat.find_min' found walk, Nat.find_spec found, fun _ => Nat.find_min found⟩

theorem distance_zero : Distance start edge 0 node ↔ start node :=
  ⟨And.left, fun here => ⟨here, fun _ less => absurd less (not_lt_zero _)⟩⟩

theorem Distance.before (far : Distance start edge (hops + 1) node) :
    ∃ before, Distance start edge hops before ∧ edge before node := by
  obtain ⟨⟨before, walk, link⟩, fewest⟩ := far
  refine ⟨before, ⟨walk, fun fewer less shorter => ?_⟩, link⟩
  exact fewest (fewer + 1) (succ_lt_succ less) ⟨before, shorter, link⟩

theorem Distance.earlier (far : Distance start edge hops node) (fewer : Nat) (less : fewer ≤ hops) :
    ∃ prior, Distance start edge fewer prior := by
  induction hops generalizing node with
  | zero => exact ⟨node, le_zero.mp less ▸ far⟩
  | succ hops ih =>
    rcases lt_or_eq_of_le less with below | rfl
    · obtain ⟨before, near, _⟩ := far.before
      exact ih near (le_of_lt_succ below)
    · exact ⟨node, far⟩

theorem Distance.lt_card [Fintype ν] (far : Distance start edge hops node) : hops < Fintype.card ν := by
  have prior : ∀ fewer : Fin (hops + 1), ∃ node, Distance start edge fewer node :=
    fun fewer => far.earlier fewer (le_of_lt_succ fewer.isLt)
  choose node at_ using prior
  have injective : Injective node := fun left right same =>
    Fin.ext ((at_ left).unique (same ▸ at_ right))
  simpa [succ_le_iff] using Fintype.card_le_of_injective node injective

/-- A search between two layers: the edges of the nodes `here` are still to be followed, and `there`
has been found at the next distance. -/
structure Layer (start : ν → Prop) (edge : ν → ν → Prop) (hops : Nat) (here there : List ν)
    (marked : ν → Prop) : Prop where
  near : ∀ node, marked node ↔ (∃ fewer ≤ hops, Distance start edge fewer node) ∨ node ∈ there
  layer : ∀ node ∈ here, Distance start edge hops node
  next : ∀ node ∈ there, Distance start edge (hops + 1) node
  followed : ∀ node, Distance start edge hops node → node ∈ here ∨
    ∀ after, edge node after → marked after

namespace Layer

theorem initial : Layer (· ∈ here) edge 0 here [] (· ∈ here) where
  near node := by simp [distance_zero]
  layer node mem := distance_zero.mpr mem
  next := nofun
  followed node near := .inl (distance_zero.mp near)

variable {marked : ν → Prop}

theorem found {after : ν} (layer : Layer start edge hops (node :: here) there marked)
    (link : edge node after) (fresh : ¬ marked after) : Distance start edge (hops + 1) after := by
  refine ⟨⟨node, (layer.layer node (.head _)).1, link⟩, fun fewer less walk => fresh ?_⟩
  obtain ⟨nearest, most, distance⟩ := walk.distance
  exact (layer.near after).mpr (.inl ⟨nearest, by omega, distance⟩)

theorem follow {fresh : List ν} (layer : Layer start edge hops (node :: here) there marked)
    (links : ∀ after ∈ fresh, edge node after ∧ ¬ marked after)
    (complete : ∀ after, edge node after → marked after ∨ after ∈ fresh) :
    Layer start edge hops here (there ++ fresh) (fun node => marked node ∨ node ∈ fresh) where
  near other := by rw [layer.near, List.mem_append, or_assoc]
  layer other mem := layer.layer other (.tail _ mem)
  next other mem := by
    rcases List.mem_append.mp mem with known | new
    · exact layer.next other known
    · exact layer.found (links other new).1 (links other new).2
  followed other near := by
    rcases layer.followed other near with pending | done
    · rcases List.mem_cons.mp pending with rfl | later
      · exact .inr complete
      · exact .inl later
    · exact .inr fun after link => .inl (done after link)

theorem complete (layer : Layer start edge hops [] there marked)
    (far : Distance start edge (hops + 1) node) : node ∈ there := by
  obtain ⟨before, nearer, link⟩ := far.before
  have reached := (layer.followed before nearer).resolve_left List.not_mem_nil node link
  rcases (layer.near node).mp reached with ⟨fewer, less, near⟩ | mem
  · exact absurd (near.unique far) (by omega)
  · exact mem

theorem turn (layer : Layer start edge hops [] there marked) :
    Layer start edge (hops + 1) there [] marked where
  near node := by
    rw [layer.near, or_iff_left List.not_mem_nil]
    constructor
    · rintro (⟨fewer, less, near⟩ | mem)
      · exact ⟨fewer, le_succ_of_le less, near⟩
      · exact ⟨hops + 1, le_refl _, layer.next node mem⟩
    · rintro ⟨fewer, less, near⟩
      rcases lt_or_eq_of_le less with below | rfl
      · exact .inl ⟨fewer, le_of_lt_succ below, near⟩
      · exact .inr (layer.complete near)
  layer := layer.next
  next := nofun
  followed node near := .inl (layer.complete near)

theorem closed {steps : Nat} (layer : Layer start edge hops [] [] marked)
    (walk : Walks start edge steps node) : marked node := by
  obtain ⟨nearest, _, distance⟩ := walk.distance
  rcases lt_or_ge hops nearest with beyond | within
  · obtain ⟨next, far⟩ := distance.earlier (hops + 1) beyond
    exact absurd (layer.complete far) List.not_mem_nil
  · exact (layer.near node).mpr (.inl ⟨nearest, within, distance⟩)

end Layer

section Search

variable {α : Type} [DecidableEq ν] {marks : ν → Option α} {value : α} {fresh : List ν}

def discover (value : α) (progress : (ν → Option α) × List ν) (neighbor : ν) :
    (ν → Option α) × List ν :=
  if (progress.1 neighbor).isNone then (update progress.1 neighbor (some value),
    progress.2 ++ [neighbor])
  else progress

variable [Fintype ν]

def unmarked (marks : ν → Option α) : Nat := (univ.filter fun node => (marks node).isNone).card

structure Discovered (value : α) (neighbors : List ν) (marks : ν → Option α) (fresh : List ν)
    (marks' : ν → Option α) : Prop where
  mark : ∀ node, marks' node = if node ∈ fresh then some value else marks node
  listed : ∀ node ∈ fresh, node ∈ neighbors ∧ marks node = none
  complete : ∀ node ∈ neighbors, marks node ≠ none ∨ node ∈ fresh
  unmarked : unmarked marks' + fresh.length = unmarked marks

theorem unmarked_update (fresh : marks node = none) (value : α) :
    unmarked (update marks node (some value)) + 1 = unmarked marks := by
  have erased : (univ.filter fun other => (update marks node (some value) other).isNone) =
      (univ.filter fun other => (marks other).isNone).erase node := by
    ext other
    by_cases same : other = node <;> simp [same]
  rw [unmarked, erased]
  exact card_erase_add_one (mem_filter.mpr ⟨mem_univ _, fresh ▸ rfl⟩)

theorem discover_foldl (value : α) (neighbors found : List ν) (marks : ν → Option α) :
    ∃ fresh marks', neighbors.foldl (discover value) (marks, found) = (marks', found ++ fresh) ∧
      Discovered value neighbors marks fresh marks' := by
  induction neighbors generalizing marks found with
  | nil => exact ⟨[], marks, by simp, ⟨by simp, nofun, nofun, rfl⟩⟩
  | cons node rest ih =>
    rw [List.foldl_cons, discover]
    split
    next blank =>
      rw [Option.isNone_iff_eq_none] at blank
      obtain ⟨fresh, marks', run, discovered⟩ := ih (found ++ [node]) (update marks node (some value))
      refine ⟨node :: fresh, marks', by simpa using run, fun other => ?_, fun other mem => ?_,
        fun other mem => ?_, ?_⟩
      · rw [discovered.mark, update_apply]
        simp only [List.mem_cons]
        split <;> split <;> simp_all
      · rcases List.mem_cons.mp mem with rfl | later
        · exact ⟨.head _, blank⟩
        · obtain ⟨listed, without⟩ := discovered.listed other later
          rw [update_apply] at without
          split at without
          · cases without
          · exact ⟨.tail _ listed, without⟩
      · by_cases same : other = node
        · exact .inr (same ▸ .head _)
        · have known := discovered.complete other ((List.mem_cons.mp mem).resolve_left same)
          rw [update_of_ne same] at known
          exact known.imp_right (.tail _)
      · rw [List.length_cons, ← unmarked_update blank value, ← discovered.unmarked]
        omega
    next marked =>
      obtain ⟨fresh, marks', run, discovered⟩ := ih found marks
      refine ⟨fresh, marks', run, discovered.mark, fun other mem => ?_, fun other mem => ?_,
        discovered.unmarked⟩
      · exact ⟨.tail _ (discovered.listed other mem).1, (discovered.listed other mem).2⟩
      · rcases List.mem_cons.mp mem with rfl | later
        · exact .inl (by simpa using marked)
        · exact discovered.complete other later

/-- A search that has marked the nodes of the layers so far, each with a mark that is right for it. -/
structure Searching (start : ν → Prop) (edge : ν → ν → Prop) (right : ν → α → Prop) (hops : Nat)
    (here there : List ν) (marks : ν → Option α) : Prop where
  layer : Layer start edge hops here there fun node => marks node ≠ none
  right : ∀ node value, marks node = some value → right node value

variable {right : ν → α → Prop}

theorem Searching.follow {neighbors : List ν} {marks' : ν → Option α}
    (searching : Searching start edge right hops (node :: here) there marks)
    (links : ∀ after, after ∈ neighbors ↔ edge node after)
    (discovered : Discovered value neighbors marks fresh marks')
    (fits : ∀ after, edge node after → Distance start edge (hops + 1) after → right after value) :
    Searching start edge right hops here (there ++ fresh) marks' := by
  have new : ∀ after ∈ fresh, edge node after ∧ ¬ marks after ≠ none := fun after mem =>
    ⟨(links after).mp (discovered.listed after mem).1, not_not.mpr (discovered.listed after mem).2⟩
  have followed := searching.layer.follow new fun after link =>
    discovered.complete after ((links after).mpr link)
  refine ⟨?_, fun after mark found => ?_⟩
  · convert followed using 2 with after
    rw [discovered.mark]
    split <;> simp_all
  · rw [discovered.mark] at found
    split at found
    next mem =>
      cases found
      exact fits after (new after mem).1 (searching.layer.found (new after mem).1 (new after mem).2)
    · exact searching.right after mark found

theorem Discovered.initial {seeds : List ν}
    (discovered : Discovered value seeds (fun _ => none) fresh marks) (edge : ν → ν → Prop)
    (fits : ∀ node, node ∈ seeds → right node value) :
    Searching (· ∈ seeds) edge right 0 fresh [] marks := by
  have same : (· ∈ seeds) = (· ∈ fresh) := by
    funext node
    exact propext ⟨fun mem => (discovered.complete node mem).resolve_left (not_not.mpr rfl),
      fun mem => (discovered.listed node mem).1⟩
  refine ⟨?_, fun node mark found => ?_⟩
  · convert Layer.initial using 2 with node
    rw [discovered.mark]
    split <;> simp_all
  · rw [discovered.mark] at found
    split at found
    next mem =>
      cases found
      exact fits node (discovered.listed node mem).1
    · cases found

omit [DecidableEq ν] [Fintype ν] in
/-- The queue holds the rest of a layer before what has been found of the next. -/
theorem Searching.front (searching : Searching start edge right hops here there marks) :
    here ++ there = [] ∨ ∃ hops node rest next, here ++ there = node :: (rest ++ next) ∧
      Searching start edge right hops (node :: rest) next marks := by
  cases here with
  | cons node here => exact .inr ⟨hops, node, here, there, rfl, searching⟩
  | nil =>
    cases there with
    | nil => exact .inl rfl
    | cons node there =>
      exact .inr ⟨hops + 1, node, there, [], by simp, ⟨searching.layer.turn, searching.right⟩⟩

end Search

end Layers

import IronGraph.Graph.Frontier

/-!
Searches over a live adjacency from one source: hop distances, and a shortest path by predecessors.
The visited flags and the predecessors of the source are one column, in which a visited node has an
entry.
-/

namespace IronGraph.Graph

open Layers List Option Nat Error Function

structure AdjacencyRead where
  nodeCount : Nat
  row : Ordinal → Option (List Entry)

namespace AdjacencyRead

variable (adjacency : AdjacencyRead)

def neighborsOf (node : Ordinal) : List Ordinal :=
  (((adjacency.row node).getD []).mergeSort (· ≤ ·)).map neighborOf

/-- Follows the nodes of the queue until it is empty or one of them stops it; `value` marks what a
node leads to. -/
def search {α : Type} (stop : Ordinal → Bool) (value : (Ordinal → Option α) → Ordinal → α) :
    Nat → (Ordinal → Option α) → List Ordinal → Option (Result (Ordinal → Option α))
  | 0, _, _ => none
  | _ + 1, marks, [] => some (.ok marks)
  | patience + 1, marks, node :: queue =>
    if stop node then some (.ok marks) else
      match (adjacency.neighborsOf node).foldlM (visit adjacency.nodeCount (value marks node))
        (marks, queue) with
      | .error panic => some (.error panic)
      | .ok (marks, queue) => search stop value patience marks queue

def bfs (source : Ordinal) : Option (Result (Ordinal → Option Nat)) :=
  if source.val < adjacency.nodeCount then
    adjacency.search (fun _ => false) (fun distances node =>
      min ((distances node).getD 0 + 1) (u32Limit - 1))
      (u32Limit + 1) (update (fun _ => none) source (some 0)) [source]
  else some (.error (new .queryType "BFS source is out of bounds"))

def walkBack (predecessor : Ordinal → Option (Option Ordinal)) (source : Ordinal) :
    Nat → Ordinal → Option (Result (List Ordinal))
  | 0, _ => none
  | patience + 1, cursor =>
    if cursor = source then some (.ok [cursor]) else
      match (predecessor cursor).join with
      | none => some (.error (internal "shortest-path predecessor chain is incomplete"))
      | some previous => (walkBack predecessor source patience previous).map (·.map (cursor :: ·))

def shortestPath (source target : Ordinal) : Option (Result (Option (List Ordinal))) :=
  if source.val < adjacency.nodeCount ∧ target.val < adjacency.nodeCount then do
    match ← adjacency.search (· == target) (fun _ node => some node) (u32Limit + 1)
      (update (fun _ => none) source (some none)) [source] with
    | .error panic => some (.error panic)
    | .ok predecessor =>
      if (predecessor target).isNone then some (.ok none)
      else (walkBack predecessor source u32Limit target).map (·.map fun path => some path.reverse)
  else some (.error (new .queryType "shortest-path endpoint is out of bounds"))

def Links (node neighbor : Ordinal) : Prop := neighbor ∈ adjacency.neighborsOf node

def InRange : Prop := ∀ node neighbor, adjacency.Links node neighbor →
    neighbor.val < adjacency.nodeCount

section Search

variable {adjacency} {α : Type} {start : Ordinal → Prop} {right : Ordinal → α → Prop}
    {stop : Ordinal → Bool}
  {value : (Ordinal → Option α) → Ordinal → α} {hops patience : Nat} {here there : List Ordinal}
  {marks : Ordinal → Option α} (closed : adjacency.InRange)

include closed

theorem search_searching (searching : Searching start adjacency.Links right hops here there marks)
    (fits : ∀ hops marks node after, (∀ other mark, marks other = some mark → right other mark) →
      marks node ≠ none → Distance start adjacency.Links hops node → adjacency.Links node after →
        Distance start adjacency.Links (hops + 1) after → right after (value marks node))
    (patient : unmarked marks + (here ++ there).length < patience) :
    ∃ marks' hops' here' there', adjacency.search stop value patience marks (here ++ there) =
      some (.ok marks') ∧ Searching start adjacency.Links right hops' here' there' marks' ∧
      (here' ++ there' = [] ∨ ∃ node ∈ here', stop node = true) := by
  induction patience generalizing hops here there marks with
  | zero => exact absurd patient (not_lt_zero _)
  | succ patience ih =>
    rcases searching.front with empty | ⟨hops, node, rest, next, queue, searching⟩
    · rw [empty]
      exact ⟨marks, hops, here, there, rfl, searching, .inl empty⟩
    rw [queue] at patient ⊢
    unfold search
    split
    next stops => exact ⟨marks, hops, node :: rest, next, rfl, searching, .inr ⟨node, .head _, stops⟩⟩
    · have near := searching.layer.layer node (.head _)
      have marked := (searching.layer.near node).mpr (.inl ⟨hops, le_refl _, near⟩)
      obtain ⟨fresh, marks', run, discovered⟩ :=
        discover_foldl (value marks node) (adjacency.neighborsOf node) (rest ++ next) marks
      rw [visit_foldlM _ _ _ (closed node), run, append_assoc]
      refine ih (searching.follow (fun _ => Iff.rfl) discovered fun after =>
        fits hops marks node after searching.right marked near) ?_
      have counted := discovered.unmarked
      simp only [length_cons, length_append] at patient ⊢
      omega

theorem search_source (right : Ordinal → α → Prop) (stop : Ordinal → Bool)
    (value : (Ordinal → Option α) → Ordinal → α) (source : Ordinal) (first : α)
    (starts : right source first)
    (fits : ∀ hops marks node after, (∀ other mark, marks other = some mark → right other mark) →
      marks node ≠ none → Distance (· = source) adjacency.Links hops node → adjacency.Links node after →
        Distance (· = source) adjacency.Links (hops + 1) after → right after (value marks node)) :
    ∃ marks hops here there, adjacency.search stop value (u32Limit + 1)
        (update (fun _ => none) source (some first)) [source] = some (.ok marks) ∧
      Searching (· = source) adjacency.Links right hops here there marks ∧
      (here ++ there = [] ∨ ∃ node ∈ here, stop node = true) := by
  obtain ⟨fresh, marks, run, discovered⟩ := discover_foldl first [source] [] fun _ => none
  simp only [foldl_cons, foldl_nil, discover, isNone_none, if_pos, nil_append, Prod.mk.injEq] at run
  obtain ⟨rfl, rfl⟩ := run
  have initial := discovered.initial adjacency.Links fun node mem => mem_singleton.mp mem ▸ starts
  simp only [mem_singleton] at initial
  refine search_searching closed initial fits ?_
  rw [append_nil, discovered.unmarked]
  exact lt_succ_of_le ((Finset.card_le_univ _).trans_eq (Fintype.card_fin _))

end Search

variable {source node : Ordinal} {hops layer patience : Nat} {here there : List Ordinal}

theorem bfs_distances (closed : adjacency.InRange) (inside : source.val < adjacency.nodeCount) :
    ∃ distances, adjacency.bfs source = some (.ok distances) ∧ ∀ node hops, distances node = some hops ↔
      Distance (· = source) adjacency.Links hops node := by
  obtain ⟨distances, hops, here, there, run, searching, ended⟩ := search_source closed
    (fun node hops => Distance (· = source) adjacency.Links hops node) (fun _ => false)
    (fun distances node => min ((distances node).getD 0 + 1) (u32Limit - 1)) source 0
      (distance_zero.mpr rfl)
    (fun hops marks node after right marked near _ far => by
      obtain ⟨mark, found⟩ := ne_none_iff_exists'.mp marked
      rw [found, getD_some, (right node mark found).unique near, nextHop_eq far]
      exact far)
  refine ⟨distances, by rw [bfs, if_pos inside, run], fun node hops =>
    ⟨searching.right node hops, fun near => ?_⟩⟩
  have empty := ended.resolve_right nofun
  obtain ⟨rfl, rfl⟩ := append_eq_nil_iff.mp empty
  obtain ⟨mark, found⟩ := ne_none_iff_exists'.mp (searching.layer.closed near.1)
  rw [found, (searching.right node mark found).unique near]

def Precedes (source node : Ordinal) : Option Ordinal → Prop
  | none => node = source
  | some before =>
    adjacency.Links before node ∧ ∃ hops, Distance (· = source) adjacency.Links hops before ∧
      Distance (· = source) adjacency.Links (hops + 1) node

theorem walkBack_path {marks : Ordinal → Option (Option Ordinal)}
    (searching : Searching (· = source) adjacency.Links (adjacency.Precedes source)
      layer here there marks)
    (near : Distance (· = source) adjacency.Links hops node) (marked : marks node ≠ none)
    (patient : hops < patience) :
    ∃ back, walkBack marks source patience node = some (.ok back) ∧ back.length = hops + 1 ∧
      back.head? = some node ∧ back.getLast? = some source ∧
      back.IsChain fun after before => adjacency.Links before after := by
  induction hops generalizing node patience with
  | zero =>
    obtain rfl := distance_zero.mp near
    obtain ⟨patience, rfl⟩ := exists_eq_add_one.mpr patient
    exact ⟨[node], by simp [walkBack], rfl, rfl, rfl, .singleton _⟩
  | succ hops ih =>
    obtain ⟨patience, rfl⟩ := exists_eq_add_one.mpr (zero_lt_of_lt patient)
    have away : node ≠ source :=
      fun same => absurd (near.unique (distance_zero.mpr same)) (succ_ne_zero _)
    obtain ⟨mark, found⟩ := ne_none_iff_exists'.mp marked
    cases mark with
    | none => exact absurd (searching.right node none found) away
    | some before =>
      obtain ⟨link, fewer, nearer, also⟩ := searching.right node (some before) found
      obtain rfl := succ.inj (also.unique near)
      -- What lies one hop before a marked node is marked.
      have passed : marks before ≠ none := by
        refine (searching.layer.near before).mpr (.inl ⟨fewer, ?_, nearer⟩)
        rcases (searching.layer.near node).mp marked with ⟨most, within, at_⟩ | next
        · have := at_.unique near
          omega
        · have := (searching.layer.next node next).unique near
          omega
      obtain ⟨back, run, length, head, last, chain⟩ := ih nearer passed (lt_of_succ_lt_succ patient)
      refine ⟨node :: back, by simp [walkBack, away, found, run, Except.map],
        congrArg (· + 1) length, rfl, ?_, ?_⟩
      · rw [getLast?_cons, last]
        rfl
      · exact chain.cons fun first mem => some.inj (head.symm.trans mem) ▸ link

/-- Outside the nodes it refuses; inside, it finds a path of as many hops as the distance, or there
is none. It does not panic, as every neighbor is a node. -/
theorem shortestPath_spec (adjacency : AdjacencyRead) (closed : adjacency.InRange)
    (source target : Ordinal) :
    ((adjacency.nodeCount ≤ source.val ∨ adjacency.nodeCount ≤ target.val) ∧
        adjacency.shortestPath source target =
          some (.error (Error.new .queryType "shortest-path endpoint is out of bounds"))) ∨
      ∃ distances, adjacency.bfs source = some (.ok distances) ∧
        ((distances target = none ∧ (∀ hops, ¬ Walks (· = source) adjacency.Links hops target) ∧
            adjacency.shortestPath source target = some (.ok none)) ∨
          ∃ hops path, distances target = some hops ∧
          adjacency.shortestPath source target = some (.ok (some path)) ∧
            path.length = hops + 1 ∧ path.head? = some source ∧ path.getLast? = some target ∧
            path.IsChain adjacency.Links ∧
            ∀ fewer < hops, ¬ Walks (· = source) adjacency.Links fewer target) := by
  unfold shortestPath
  split
  next inside =>
    right
    obtain ⟨distances, measured, exactly⟩ := adjacency.bfs_distances closed inside.1
    obtain ⟨marks, layer, here, there, run, searching, ended⟩ :=
      search_source closed (adjacency.Precedes source)
      (· == target) (fun _ node => some node) source none rfl
      (fun hops _ node _ _ _ near link far => ⟨link, hops, near, far⟩)
    refine ⟨distances, measured, ?_⟩
    rw [run]
    cases reached : distances target with
    | none =>
      have unreached : ∀ hops, ¬ Walks (· = source) adjacency.Links hops target := by
        intro hops walk
        obtain ⟨nearest, _, near⟩ := walk.distance
        cases reached.symm.trans ((exactly target nearest).mpr near)
      have blank : marks target = none := by
        by_contra marked
        rcases (searching.layer.near target).mp marked with ⟨fewer, _, near⟩ | next
        · exact unreached fewer near.1
        · exact unreached _ (searching.layer.next target next).1
      exact .inl ⟨rfl, unreached, by simp [blank]⟩
    | some hops =>
      have near := (exactly target hops).mp reached
      have marked : marks target ≠ none := by
        rcases ended with empty | ⟨node, member, stops⟩
        · obtain ⟨rfl, rfl⟩ := append_eq_nil_iff.mp empty
          exact searching.layer.closed near.1
        · rw [beq_iff_eq] at stops
          exact (searching.layer.near target).mpr (.inl ⟨layer, le_refl _,
            stops ▸ searching.layer.layer node member⟩)
      have patient : hops < u32Limit := near.lt_card.trans_eq (Fintype.card_fin _)
      obtain ⟨back, walked, length, head, last, chain⟩ :=
        adjacency.walkBack_path searching near marked patient
      refine .inr ⟨hops, back.reverse, rfl, ?_, ?_, ?_, ?_, isChain_reverse.mpr chain, near.2⟩
      · simp [marked, walked, Except.map]
      · rw [length_reverse, length]
      · rw [head?_reverse, last]
      · rw [getLast?_reverse, head]
  next outside => exact .inl ⟨by omega, rfl⟩

def oneEdge (source target edge : Ordinal) : AdjacencyRead where
  nodeCount := 2
  row node := if node = source then some [entry target edge] else none

theorem oneEdge_links {source target edge node neighbor : Ordinal} :
    (oneEdge source target edge).Links node neighbor ↔ node = source ∧ neighbor = target := by
  simp only [Links, neighborsOf, oneEdge]
  split <;> simp_all [neighborOf, entry]

theorem shortestPath_oneEdge : (oneEdge 0 1 0).InRange ∧
    ∃ path, (oneEdge 0 1 0).shortestPath 0 1 = some (.ok (some path)) ∧ path.length ≤ 2 := by
  have closed : (oneEdge 0 1 0).InRange := by
    intro node neighbor link
    rw [(oneEdge_links.mp link).2]
    decide
  have walk : Walks (· = 0) (oneEdge 0 1 0).Links 1 1 := ⟨0, rfl, oneEdge_links.mpr ⟨rfl, rfl⟩⟩
  rcases shortestPath_spec (oneEdge 0 1 0) closed 0 1
    with ⟨outside, _⟩ | ⟨_, _, ⟨_, unreached, _⟩ | found⟩
  · exact absurd outside (by decide)
  · exact absurd walk (unreached 1)
  · obtain ⟨hops, path, _, run, length, _, _, _, least⟩ := found
    have near : hops ≤ 1 := not_lt.mp fun far => least 1 far walk
    exact ⟨closed, path, run, by omega⟩

end AdjacencyRead

end IronGraph.Graph

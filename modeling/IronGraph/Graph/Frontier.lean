import IronGraph.Graph.Csr
import IronGraph.Library.Layers

/-!
Frontier expansion over compressed rows: the hop distances from a set of seeds, and the nodes a
bounded number of hops away. A column with an entry for each node is a function of the node; to mark
a node without an entry panics.
-/

namespace IronGraph.Graph

open Layers List Option Nat

def neighborOf (item : Entry) : Ordinal := (ofLex item).1

theorem nextHop_eq {start : Ordinal → Prop} {edge : Ordinal → Ordinal → Prop} {hops : Nat}
    {node : Ordinal}
    (far : Distance start edge (hops + 1) node) : min (hops + 1) (u32Limit - 1) = hops + 1 := by
  have bounded := far.lt_card
  rw [Fintype.card_fin] at bounded
  exact min_eq_left (by unfold u32Limit; omega)

section Visit

variable {α : Type} (nodeCount : Nat) (value : α)

def outOfBounds : Error := .internal "index out of bounds"

def visit (progress : (Ordinal → Option α) × List Ordinal) (neighbor : Ordinal) :
    Result ((Ordinal → Option α) × List Ordinal) :=
  if neighbor.val < nodeCount then .ok (discover value progress neighbor) else .error outOfBounds

theorem visit_foldlM (progress : (Ordinal → Option α) × List Ordinal) {neighbors : List Ordinal}
    (inside : ∀ neighbor ∈ neighbors, neighbor.val < nodeCount) :
    neighbors.foldlM (visit nodeCount value) progress =
      .ok (neighbors.foldl (discover value) progress) := by
  induction neighbors generalizing progress with
  | nil => rfl
  | cons neighbor rest ih =>
    rw [foldlM_cons, visit, if_pos (inside neighbor (.head _))]
    exact ih _ fun other later => inside other (.tail _ later)

end Visit

namespace Csr

variable (csr : Csr)

def nodeCount : Nat := csr.offsets.length - 1

def neighborsOf (node : Ordinal) : List Ordinal := ((csr.row node).getD []).map neighborOf

variable (seeds : List Ordinal)

def seedFrontier : (Ordinal → Option Nat) × List Ordinal :=
  (seeds.filter (·.val < csr.nodeCount)).foldl (discover 0) (fun _ => none, [])

def expandFrontier (nextHop : Nat) (distance : Ordinal → Option Nat) (frontier : List Ordinal) :
    Result ((Ordinal → Option Nat) × List Ordinal) :=
  frontier.foldlM (fun progress node =>
    (csr.neighborsOf node).foldlM (visit csr.nodeCount nextHop) progress) (distance, [])

/-- The loop over the hops, which may take as many turns as it has patience. -/
def frontierLoop (maxHops : Option Nat) :
    Nat → Nat → (Ordinal → Option Nat) → List Ordinal → Option (Result (Ordinal → Option Nat))
  | 0, _, _, _ => none
  | patience + 1, hop, distance, frontier =>
    if frontier.isEmpty || maxHops.any (· ≤ hop) then some (.ok distance) else
      let nextHop := min (hop + 1) (u32Limit - 1)
      match csr.expandFrontier nextHop distance frontier with
      | .error panic => some (.error panic)
      | .ok (distance, next) => frontierLoop maxHops patience nextHop distance next

def multiSourceFrontierDistances (maxHops : Option Nat) : Option (Result (Ordinal → Option Nat)) :=
  let (distance, frontier) := csr.seedFrontier seeds
  csr.frontierLoop maxHops (u32Limit + 1) 0 distance frontier

def multiSourceReachable (minHops : Nat) (maxHops : Option Nat) : Option (Result (List Ordinal)) := do
  let distances ← csr.multiSourceFrontierDistances seeds maxHops
  return distances.map fun distance => (range csr.nodeCount).filterMap fun index =>
    if small : index < 2 ^ 32 then
      let node : Ordinal := ⟨index, small⟩
      ((distance node).filter (minHops ≤ ·)).map fun _ => node
    else none

def Links (node neighbor : Ordinal) : Prop := neighbor ∈ csr.neighborsOf node

/-- Every neighbor is a node, as the build of the rows checks. -/
def InRange : Prop := ∀ node neighbor, csr.Links node neighbor → neighbor.val < csr.nodeCount

def Measuring (start : Ordinal → Prop) : Nat → List Ordinal → List Ordinal →
    (Ordinal → Option Nat) → Prop :=
  Searching start csr.Links fun node hops => Distance start csr.Links hops node

def Measures (start : Ordinal → Prop) (maxHops : Option Nat) (distance : Ordinal → Option Nat) : Prop :=
  ∀ node hops, distance node = some hops ↔ Distance start csr.Links hops node ∧
    ∀ most ∈ maxHops, hops ≤ most

variable {csr} {frontier there : List Ordinal} {start : Ordinal → Prop} {hop hops patience : Nat}
  {maxHops : Option Nat} {distance : Ordinal → Option Nat}

theorem expandFrontier_searching (closed : csr.InRange)
    (measuring : csr.Measuring start hops frontier there distance) :
    ∃ distance' next, frontier.foldlM (fun progress node => (csr.neighborsOf node).foldlM
        (visit csr.nodeCount (min (hops + 1) (u32Limit - 1))) progress)
        (distance, there) = .ok (distance', next) ∧
      unmarked distance' + next.length = unmarked distance + there.length ∧
      csr.Measuring start hops [] next distance' := by
  induction frontier generalizing distance there with
  | nil => exact ⟨distance, there, rfl, rfl, measuring⟩
  | cons node rest ih =>
    obtain ⟨fresh, marks', run, discovered⟩ :=
      discover_foldl (min (hops + 1) (u32Limit - 1)) (csr.neighborsOf node) there distance
    rw [foldlM_cons, visit_foldlM _ _ _ (closed node), run]
    have followed := Searching.follow measuring (fun _ => Iff.rfl) discovered fun _ _ far =>
      (nextHop_eq far).symm ▸ far
    obtain ⟨distance', next, rest, counted, done⟩ := ih followed
    refine ⟨distance', next, rest, ?_, done⟩
    rw [counted, length_append, ← discovered.unmarked]
    omega

theorem measures_of_ended (measuring : csr.Measuring start hops frontier [] distance)
    (within : ∀ most ∈ maxHops, hops ≤ most) (ended : frontier = [] ∨ ∃ most ∈ maxHops, most ≤ hops) :
    csr.Measures start maxHops distance := by
  intro node found
  constructor
  · intro marked
    have nearest := measuring.right node found marked
    refine ⟨nearest, fun most limit => ?_⟩
    have near := (measuring.layer.near node).mp (marked ▸ some_ne_none _)
    obtain ⟨fewer, less, also⟩ := near.resolve_right not_mem_nil
    rw [nearest.unique also]
    exact le_trans less (within most limit)
  · rintro ⟨nearest, limited⟩
    have marked : distance node ≠ none := by
      rcases ended with rfl | ⟨most, limit, past⟩
      · exact measuring.layer.closed nearest.1
      · exact (measuring.layer.near node).mpr (.inl ⟨found,
          le_trans (limited most limit) past, nearest⟩)
    obtain ⟨other, mark⟩ := ne_none_iff_exists'.mp marked
    rw [mark, (measuring.right node other mark).unique nearest]

theorem frontierLoop_measures (closed : csr.InRange)
    (measuring : csr.Measuring start hops frontier [] distance)
    (counted : frontier ≠ [] → hop = hops) (patient : unmarked distance + frontier.length < patience)
    (within : ∀ most ∈ maxHops, hops ≤ most) :
    ∃ distances, csr.frontierLoop maxHops patience hop distance frontier = some (.ok distances) ∧
      csr.Measures start maxHops distances := by
  induction patience generalizing hop hops distance frontier with
  | zero => exact absurd patient (not_lt_zero _)
  | succ patience ih =>
    unfold frontierLoop
    by_cases empty : frontier = []
    · rw [if_pos (by simp [empty])]
      exact ⟨distance, rfl, measures_of_ended measuring within (.inl empty)⟩
    obtain rfl := counted empty
    split
    next ended =>
      have reached : ∃ most ∈ maxHops, most ≤ hop := by simpa [empty, Option.any_eq_true] using ended
      exact ⟨distance, rfl, measures_of_ended measuring within (.inr reached)⟩
    next going =>
      obtain ⟨distance', next, run, counted, followed⟩ := expandFrontier_searching closed measuring
      simp only [expandFrontier, run]
      have advancing : ∀ most ∈ maxHops, hop + 1 ≤ most := by
        simpa [empty, Option.any_eq_true, Nat.succ_le_iff] using going
      refine ih ⟨followed.layer.turn, followed.right⟩ (fun some => ?_) ?_ advancing
      · obtain ⟨node, mem⟩ := exists_mem_of_ne_nil _ some
        exact nextHop_eq (followed.layer.next node mem)
      · have := length_pos_iff.mpr empty
        rw [length_nil] at counted
        omega

variable (csr) in
def Seeds (seeds : List Ordinal) (node : Ordinal) : Prop := node ∈ seeds ∧ node.val < csr.nodeCount

theorem frontierDistances_measures (closed : csr.InRange) (seeds : List Ordinal)
    (maxHops : Option Nat) :
    ∃ distances, csr.multiSourceFrontierDistances seeds maxHops = some (.ok distances) ∧
      csr.Measures (csr.Seeds seeds) maxHops distances := by
  have same : csr.Seeds seeds = (· ∈ seeds.filter (·.val < csr.nodeCount)) := by
    funext node
    simp [Seeds]
  obtain ⟨frontier, distance, run, discovered⟩ :=
    discover_foldl 0 (seeds.filter (·.val < csr.nodeCount)) [] fun _ => (none : Option Nat)
  unfold multiSourceFrontierDistances seedFrontier
  rw [run, same]
  refine frontierLoop_measures closed (discovered.initial csr.Links fun _ =>
    distance_zero.mpr) (fun _ => rfl) ?_ (by simp)
  rw [nil_append, discovered.unmarked]
  exact lt_succ_of_le ((Finset.card_le_univ _).trans_eq (Fintype.card_fin _))

/-- Over rows whose neighbors are all nodes nothing panics, and the distances are those from the
nearest seed, whatever the order and the repetition of the seeds. -/
theorem multiSourceFrontierDistances_spec (csr : Csr) (closed : csr.InRange) (seeds : List Ordinal)
    (maxHops : Option Nat) :
    ∃ distances, csr.multiSourceFrontierDistances seeds maxHops = some (.ok distances) ∧
      csr.Measures (csr.Seeds seeds) maxHops distances ∧
      ∀ others : List Ordinal, (∀ node, node ∈ others ↔ node ∈ seeds) →
        csr.multiSourceFrontierDistances others maxHops = some (.ok distances) := by
  obtain ⟨distances, run, measured⟩ := frontierDistances_measures closed seeds maxHops
  refine ⟨distances, run, measured, fun others same => ?_⟩
  obtain ⟨also, rerun, remeasured⟩ := frontierDistances_measures closed others maxHops
  have starts : csr.Seeds others = csr.Seeds seeds := funext fun node => by simp only [Seeds, same]
  rw [starts] at remeasured
  rw [rerun]
  have equal : also = distances := funext fun node => ext fun hops =>
    (remeasured node hops).trans (measured node hops).symm
  rw [equal]

variable (csr) in
def Lists (edge : Triple) : Prop := edge.entry ∈ (csr.row edge.source).getD []

variable (csr) in
def Follows : List Triple → Ordinal → Ordinal → Prop
  | [], first, last => first = last
  | edge :: before, first, last =>
    edge.target = last ∧ csr.Lists edge ∧ Follows before first edge.source

variable (csr) in
/-- A trail, a walk that takes no edge twice, of a length within the bounds leads from a seed to the
node. -/
def Ends (seeds : List Ordinal) (minHops : Nat) (maxHops : Option Nat) (node : Ordinal) : Prop :=
  ∃ seed ∈ seeds, ∃ edges, csr.Follows edges seed node ∧ (edges.map Triple.edge).Nodup ∧
    minHops ≤ edges.length ∧ ∀ most ∈ maxHops, edges.length ≤ most

variable (csr) in
/-- The entries of one edge join the same two nodes, in either direction. -/
def EdgesJoinOnce : Prop :=
  ∀ first second, csr.Lists first → csr.Lists second → first.edge = second.edge →
    first.source = second.source ∧ first.target = second.target ∨
      first.source = second.target ∧ first.target = second.source

variable {edge : Triple} {seed node : Ordinal} {edges : List Triple} {minHops : Nat}

theorem bounds_of_lists (listed : csr.Lists edge) : edge.source.val < csr.nodeCount ∧
    edge.target ∈ csr.neighbors := by
  cases found : csr.row edge.source with
  | none =>
    rw [Lists, found] at listed
    cases listed
  | some items =>
    rw [Lists, found, getD_some] at listed
    simp only [row, slice, bind_eq_bind, bind_eq_some_iff] at found
    obtain ⟨first, -, last, stops, neighbors, column, edges, -, made⟩ := found
    obtain rfl := some.inj made
    obtain ⟨-, cut⟩ := ite_none_right_eq_some.mp column
    rw [← map_uncurry_zip_eq_zipWith] at listed
    obtain ⟨pair, zipped, same⟩ := mem_map.mp listed
    refine ⟨lt_sub_of_add_lt (List.getElem?_eq_some_iff.mp stops).1, ?_⟩
    have target : edge.target = pair.1 := congrArg neighborOf same.symm
    have mem := (of_mem_zip zipped).1
    rw [← some.inj cut] at mem
    exact target ▸ mem_of_mem_take (mem_of_mem_drop mem)

theorem inRange_of_column (nodes : ∀ neighbor ∈ csr.neighbors, neighbor.val < csr.nodeCount) :
    csr.InRange := by
  intro node neighbor link
  obtain ⟨item, listed, rfl⟩ := mem_map.mp link
  let edge : Triple := toLex (node, item)
  exact nodes _ (@bounds_of_lists csr edge listed).2

theorem links_of_lists (listed : csr.Lists edge) : csr.Links edge.source edge.target :=
  mem_map_of_mem listed

theorem walks_of_follows (follows : csr.Follows edges seed node) (seeded : start seed) :
    Walks start csr.Links edges.length node := by
  induction edges generalizing node with
  | nil => exact follows ▸ seeded
  | cons edge before ih =>
    obtain ⟨rfl, listed, rest⟩ := follows
    exact ⟨_, ih rest, links_of_lists listed⟩

/-- The edges of a shortest walk leave from nodes at different distances, and lead away from the
seeds. -/
theorem trail_of_distance (near : Distance start csr.Links hops node) :
    ∃ seed edges, start seed ∧ csr.Follows edges seed node ∧ edges.length = hops ∧
      (csr.EdgesJoinOnce → (edges.map Triple.edge).Nodup) ∧ ∀ edge ∈ edges, csr.Lists edge ∧
        ∃ fewer < hops, Distance start csr.Links fewer edge.source := by
  induction hops generalizing node with
  | zero => exact ⟨node, [], near.1, rfl, rfl, fun _ => nodup_nil, nofun⟩
  | succ hops ih =>
    obtain ⟨before, nearer, link⟩ := near.before
    obtain ⟨seed, edges, seeded, follows, length, distinct, layers⟩ := ih nearer
    obtain ⟨item, listed, rfl⟩ := mem_map.mp link
    let edge : Triple := toLex (before, item)
    refine ⟨seed, edge :: edges, seeded, ⟨rfl, listed, follows⟩, congrArg (· + 1) length,
      fun once => ?_, ?_⟩
    · refine nodup_cons.mpr ⟨fun again => ?_, distinct once⟩
      obtain ⟨other, mem, same⟩ := mem_map.mp again
      obtain ⟨also, fewer, less, source⟩ := layers other mem
      rcases once other edge also listed same with ⟨here, -⟩ | ⟨here, -⟩
      · exact absurd (source.unique (here ▸ nearer)) (Nat.ne_of_lt less)
      · have beyond : Distance start csr.Links (hops + 1) other.source := by
          rw [here]
          exact near
        have := source.unique beyond
        omega
    · rintro other (_ | ⟨_, mem⟩)
      · exact ⟨listed, hops, lt_succ_self _, nearer⟩
      · obtain ⟨also, fewer, less, source⟩ := layers other mem
        exact ⟨also, fewer, lt_succ_of_lt less, source⟩

theorem mem_multiSourceReachable (closed : csr.InRange) (seeds : List Ordinal) (minHops : Nat)
    (maxHops : Option Nat) :
    ∃ nodes, csr.multiSourceReachable seeds minHops maxHops = some (.ok nodes) ∧
      ∀ node, node ∈ nodes ↔ node.val < csr.nodeCount ∧
      ∃ hops, Distance (csr.Seeds seeds) csr.Links hops node ∧
        minHops ≤ hops ∧ ∀ most ∈ maxHops, hops ≤ most := by
  obtain ⟨distances, run, measured⟩ := frontierDistances_measures closed seeds maxHops
  refine ⟨_, by rw [multiSourceReachable, run]; rfl, fun node => ?_⟩
  simp only [mem_filterMap, mem_range]
  constructor
  · rintro ⟨index, inside, found⟩
    split at found
    next small =>
      obtain ⟨hops, kept, rfl⟩ := map_eq_some_iff.mp found
      obtain ⟨mark, least⟩ := filter_eq_some_iff.mp kept
      obtain ⟨near, limited⟩ := (measured _ hops).mp mark
      exact ⟨inside, hops, near, of_decide_eq_true least, limited⟩
    · cases found
  · rintro ⟨inside, hops, near, least, limited⟩
    refine ⟨node, inside, ?_⟩
    rw [dif_pos node.isLt]
    have mark := (measured node hops).mpr ⟨near, limited⟩
    simp [mark, least]

variable (csr) in
/-- What lies within the bounds can be reached by a trail within them. -/
def TrailsSuffice (seeds : List Ordinal) (minHops : Nat) (maxHops : Option Nat) : Prop :=
  ∀ node hops, Distance (csr.Seeds seeds) csr.Links hops node → minHops ≤ hops →
    (∀ most ∈ maxHops, hops ≤ most) → csr.Ends seeds minHops maxHops node

/-- The nodes returned are the ends of the trails exactly if no seed has to be one with a hop, and
the shortest walks can be replaced by trails, as they can where an edge joins the same two nodes
wherever it is listed. -/
theorem multiSourceReachable_iff (csr : Csr) (closed : csr.InRange) (seeds : List Ordinal)
    (minHops : Nat)
    (maxHops : Option Nat) (inside : ∀ seed ∈ seeds, seed.val < csr.nodeCount) (small : minHops ≤ 1) :
    ∃ nodes, csr.multiSourceReachable seeds minHops maxHops = some (.ok nodes) ∧
      ((∀ node : Ordinal, node.val < csr.nodeCount → (node ∈ nodes ↔
        csr.Ends seeds minHops maxHops node)) ↔
        (minHops = 0 ∨ ∀ seed ∈ seeds, ¬ csr.Ends seeds minHops maxHops seed) ∧
          csr.TrailsSuffice seeds minHops maxHops) ∧
      (csr.EdgesJoinOnce → csr.TrailsSuffice seeds minHops maxHops) := by
  obtain ⟨nodes, run, listed⟩ := mem_multiSourceReachable closed seeds minHops maxHops
  refine ⟨nodes, run, ⟨fun exactly => ⟨?_, ?_⟩, fun ⟨condition, suffice⟩ node known => ⟨?_, ?_⟩⟩, ?_⟩
  · by_contra! both
    obtain ⟨positive, seed, member, ends⟩ := both
    obtain ⟨_, hops, near, least, _⟩ := (listed seed).mp ((exactly seed (inside seed member)).mpr ends)
    have := near.unique (distance_zero.mpr ⟨member, inside seed member⟩)
    omega
  · intro node hops near least limited
    have known : node.val < csr.nodeCount := by
      cases hops with
      | zero => exact near.1.2
      | succ hops =>
        obtain ⟨before, -, link⟩ := near.1
        exact closed before node link
    exact (exactly node known).mp ((listed node).mpr ⟨known, hops, near, least, limited⟩)
  · intro member
    obtain ⟨_, hops, near, least, limited⟩ := (listed node).mp member
    exact suffice node hops near least limited
  · rintro ⟨seed, member, edges, follows, distinct, least, limited⟩
    have seeded : csr.Seeds seeds seed := ⟨member, inside seed member⟩
    obtain ⟨hops, fewest, near⟩ := (walks_of_follows follows seeded).distance
    refine (listed node).mpr ⟨known, hops, near, ?_, fun most limit =>
      le_trans fewest (limited most limit)⟩
    rcases condition with rfl | none
    · exact Nat.zero_le _
    · rcases Nat.eq_zero_or_pos hops with rfl | positive
      · exact absurd ⟨seed, member, edges, follows, distinct, least,
          limited⟩ (none node (distance_zero.mp near).1)
      · omega
  · intro once node hops near least limited
    obtain ⟨seed, edges, start, follows, rfl, distinct, _⟩ := trail_of_distance near
    exact ⟨seed, start.1, edges, follows, distinct once, least, limited⟩

def selfLoop : Csr := { offsets := [0, 1], neighbors := [0], edges := [0] }

theorem selfLoop_inRange : selfLoop.InRange := inRange_of_column (by simp [selfLoop, nodeCount])

theorem multiSourceFrontierDistances_selfLoop : ∃ distances,
    selfLoop.multiSourceFrontierDistances [0, 0] none = some (.ok distances) ∧
    distances 0 = some 0 := by
  obtain ⟨distances, run, measured, -⟩ :=
    multiSourceFrontierDistances_spec selfLoop selfLoop_inRange [0, 0] none
  refine ⟨distances, run, (measured 0 0).mpr ⟨distance_zero.mpr ?_, nofun⟩⟩
  simp [Seeds, selfLoop, nodeCount]

/-- The seed lies on a cycle of one edge, yet it is not returned. -/
theorem multiSourceReachable_selfLoop :
    selfLoop.multiSourceReachable [0] 1 none = some (.ok []) ∧ selfLoop.Ends [0] 1 none 0 :=
  ⟨by decide +kernel, 0, by simp, [Triple.mk 0 0 0], ⟨rfl, by unfold Lists; decide +kernel, rfl⟩,
    by simp, by simp, nofun⟩

theorem multiSourceReachable_selfLoop_zero :
    ∃ nodes, selfLoop.multiSourceReachable [0] 0 none = some (.ok nodes) ∧
      ∀ node : Ordinal, node.val < 1 → (node ∈ nodes ↔ selfLoop.Ends [0] 0 none node) := by
  obtain ⟨nodes, run, exactly, suffice⟩ :=
    multiSourceReachable_iff selfLoop selfLoop_inRange [0] 0 none (by simp [selfLoop, nodeCount])
      (Nat.zero_le 1)
  have listed {edge : Triple} (lists : selfLoop.Lists edge) : edge.source = 0 ∧ edge.target = 0 := by
    obtain ⟨source, target⟩ := bounds_of_lists lists
    exact ⟨Fin.ext (lt_one_iff.mp source), mem_singleton.mp target⟩
  refine ⟨nodes, run, exactly.mpr ⟨.inl rfl, suffice fun first second here there _ => .inl ?_⟩⟩
  rw [(listed here).1, (listed here).2, (listed there).1, (listed there).2]
  exact ⟨rfl, rfl⟩

def Joins (triples : List Triple) (source target : Ordinal) : Prop :=
  ∃ triple ∈ triples, triple.source = source ∧ triple.target = target

variable {nodeCount : Nat} {triples : List Triple}

theorem links_of_build (fits : Fits nodeCount triples)
    (rows : ∀ node, csr.row node = if node.val < nodeCount then
    some (entriesOf triples node) else none) : csr.Links = Joins triples := by
  funext source target
  simp only [Links, neighborsOf, rows, List.mem_map, Joins, eq_iff_iff]
  split
  · simp only [getD_some, mem_entriesOf]
    constructor
    · rintro ⟨_, ⟨triple, listed, here, rfl⟩, there⟩
      exact ⟨triple, listed, here, there⟩
    · rintro ⟨triple, listed, here, there⟩
      exact ⟨_, ⟨triple, listed, here, rfl⟩, there⟩
  next outside =>
    simp only [getD_none, not_mem_nil, false_and, exists_false, false_iff]
    rintro ⟨triple, listed, rfl, _⟩
    exact outside (fits.1 triple listed).1

/-- The rows of a list of edges can be built exactly when it fits, and the distances over them are
those along its edges; a seed that is no node is passed over. -/
theorem edgeList_distances (nodeCount : Nat) (triples : List Triple) (seeds : List Ordinal)
    (maxHops : Option Nat) :
    ((∃ csr, buildOwned nodeCount triples = .ok csr) ↔ Fits nodeCount triples) ∧
      ∀ csr, buildOwned nodeCount triples = .ok csr →
        ∃ distances, csr.multiSourceFrontierDistances seeds maxHops = some (.ok distances) ∧
          ∀ node hops, distances node = some hops ↔
            Distance (fun seed => seed ∈ seeds ∧ seed.val < nodeCount) (Joins triples) hops node ∧
              ∀ most ∈ maxHops, hops ≤ most := by
  have built := buildOwned_meets nodeCount triples
  refine ⟨⟨fun ⟨csr, outcome⟩ => (built.ok_post outcome).1, fun fits => ?_⟩, fun csr outcome => ?_⟩
  · cases outcome : buildOwned nodeCount triples with
    | error error => exact absurd fits (built.error_fail outcome)
    | ok csr => exact ⟨csr, rfl⟩
  · obtain ⟨fits, length, rows⟩ := built.ok_post outcome
    have links := links_of_build fits rows
    have count : csr.nodeCount = nodeCount := by rw [Csr.nodeCount, length, Nat.add_sub_cancel]
    have closed : csr.InRange := by
      intro node neighbor link
      rw [links] at link
      obtain ⟨triple, listed, -, rfl⟩ := link
      rw [count]
      exact (fits.1 triple listed).2
    obtain ⟨distances, run, measured⟩ := frontierDistances_measures closed seeds maxHops
    have starts : csr.Seeds seeds = fun seed => seed ∈ seeds ∧ seed.val < nodeCount := by
      funext seed
      rw [Seeds, count]
    rw [Measures, links, starts] at measured
    exact ⟨distances, run, measured⟩

theorem edgeList_distances_pair : ∃ csr distances, buildOwned 2 [Triple.mk 0 1 7] = .ok csr ∧
    csr.multiSourceFrontierDistances [0] none = some (.ok distances) := by
  have fits : Fits 2 [Triple.mk 0 1 7] := by
    simp [Fits, Triple.mk, Triple.source, Triple.target, Triple.entry, Graph.entry, u32Limit]
  obtain ⟨builds, measures⟩ := edgeList_distances 2 [Triple.mk 0 1 7] [0] none
  obtain ⟨csr, built⟩ := builds.mpr fits
  obtain ⟨distances, run, -⟩ := measures csr built
  exact ⟨csr, distances, built, run⟩

end Csr

end IronGraph.Graph

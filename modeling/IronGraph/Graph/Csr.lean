import IronGraph.Graph.AdjacencyCore

/-!
What the compressed rows hold: each row has the entries of its source, in order, and the two
directions of one set of edges are built or refused together.
-/

namespace IronGraph.Graph

open Outcome SortedMerge List Nat

namespace Csr

variable {nodeCount : Nat} {triples : List Triple} {left right : Nat}

def Fits (nodeCount : Nat) (triples : List Triple) : Prop :=
  (∀ triple ∈ triples, triple.source.val < nodeCount ∧ triple.target.val < nodeCount) ∧
    triples.length < u32Limit

def degree (triples : List Triple) (index : Nat) : Nat :=
  triples.countP fun triple => decide (triple.source.val + 1 = index)

def before (triples : List Triple) (index : Nat) : Nat :=
  triples.countP fun triple => decide (triple.source.val < index)

theorem checkedOffset_eq_some (fits : left + right < u32Limit) :
    checkedOffset left right = some (left + right) :=
  if_pos fits

theorem checkedOffset_eq_none (full : u32Limit ≤ left + right) : checkedOffset left right = none :=
  if_neg (not_lt.mpr full)

theorem degree_concat (triples : List Triple) (triple : Triple) (index : Nat) :
    degree (triples ++ [triple]) index = degree triples index +
      if triple.source.val + 1 = index then 1 else 0 := by
  simp [degree, countP_append, countP_singleton]

theorem countSource_meets (nodeCount : Nat) (triples : List Triple) :
    Meets (triples.foldlM (countSource nodeCount) (replicate (nodeCount + 1) 0))
      (fun degrees => (∀ triple ∈ triples, triple.source.val < nodeCount) ∧
        degrees.length = nodeCount + 1 ∧
        ∀ index, index ≤ nodeCount → degrees[index]? = some (degree triples index))
      (fun _ => ¬ Fits nodeCount triples) := by
  refine Meets.loop (fun (done : List Triple) (degrees : List Nat) =>
    (∀ triple ∈ done, triple.source.val < nodeCount) ∧
      degrees.length = nodeCount + 1 ∧ ∀ index, index ≤ nodeCount →
        degrees[index]? = some (degree done index))
    ⟨nofun, length_replicate, ?_⟩ ?_
  · intro index inside
    rw [getElem?_replicate, if_pos (lt_succ_of_le inside)]
    rfl
  · rintro done triple rest degrees rfl ⟨bounded, length, counted⟩
    unfold countSource
    by_cases inside : triple.source.val < nodeCount
    · apply Meets.require (decide_eq_true inside)
      have here := counted (triple.source.val + 1) inside
      rw [getD_eq_getElem?_getD, here, Option.getD_some]
      by_cases room : degree done (triple.source.val + 1) + 1 < u32Limit
      · rw [checkedOffset_eq_some room]
        refine ⟨?_, by rw [length_set]; exact length, ?_⟩
        · intro other mem
          rcases mem_append.mp mem with prior | last
          · exact bounded other prior
          · rw [mem_singleton.mp last]
            exact inside
        · intro index within
          rw [getElem?_set, degree_concat]
          by_cases same : triple.source.val + 1 = index
          · rw [if_pos same, if_pos (by omega), if_pos same, ← same]
          · rw [if_neg same, if_neg same, add_zero]
            exact counted index within
      · rw [checkedOffset_eq_none (not_lt.mp room)]
        intro fits
        have most : degree done (triple.source.val + 1) ≤ done.length := countP_le_length
        have total := fits.2
        rw [length_append, length_cons] at total
        omega
    · rw [decide_eq_false inside]
      intro fits
      exact inside (fits.1 triple (by simp)).1

theorem prefixSums_meets (start : Nat) (degrees : List Nat) : Meets (prefixSums start degrees)
      (fun offsets => offsets.length = degrees.length ∧
        ∀ index, index < degrees.length →
        offsets[index]? = some (start + (degrees.take (index + 1)).sum) ∧
          start + (degrees.take (index + 1)).sum < u32Limit)
      (fun _ => u32Limit ≤ start + degrees.sum) := by
  induction degrees generalizing start with
  | nil => exact ⟨rfl, nofun⟩
  | cons first rest ih =>
    unfold prefixSums
    by_cases room : first + start < u32Limit
    · rw [checkedOffset_eq_some room]
      apply Meets.bind ((ih (first + start)).mono (fun _ summed => summed) ?_)
      · rintro offsets ⟨length, summed⟩
        refine ⟨congrArg (· + 1) length, ?_⟩
        intro index inside
        cases index with
        | zero =>
          rw [take_succ_cons, take_zero, sum_singleton]
          exact ⟨congrArg some (add_comm _ _), by omega⟩
        | succ index =>
          rw [length_cons, succ_lt_succ_iff] at inside
          obtain ⟨sum, small⟩ := summed index inside
          have total : start + ((first :: rest).take (index + 1 + 1)).sum =
              first + start + (rest.take (index + 1)).sum := by
            rw [take_succ_cons, sum_cons]
            omega
          rw [getElem?_cons_succ, total]
          exact ⟨sum, small⟩
      · intro _ full
        rw [sum_cons]
        omega
    · rw [checkedOffset_eq_none (not_lt.mp room), sum_cons]
      show u32Limit ≤ _
      omega

theorem accumulate_meets (degrees : List Nat) : Meets (accumulate degrees)
      (fun offsets => offsets.length = degrees.length ∧
        ∀ index, index < degrees.length → offsets[index]? = some (degrees.take (index + 1)).sum ∧
          (0 < index → (degrees.take (index + 1)).sum < u32Limit))
      (fun _ => u32Limit ≤ degrees.sum) := by
  cases degrees with
  | nil => exact ⟨rfl, nofun⟩
  | cons first rest =>
    apply Meets.bind ((prefixSums_meets first rest).mono (fun _ summed => summed) fun _ full => by
      rw [sum_cons]
      exact full)
    rintro offsets ⟨length, summed⟩
    refine ⟨congrArg (· + 1) length, ?_⟩
    intro index inside
    cases index with
    | zero => simp
    | succ index =>
      rw [length_cons, succ_lt_succ_iff] at inside
      obtain ⟨sum, small⟩ := summed index inside
      rw [getElem?_cons_succ, take_succ_cons, sum_cons]
      exact ⟨sum, fun _ => small⟩

theorem before_succ (triples : List Triple) (index : Nat) :
    before triples (index + 1) = before triples index + degree triples (index + 1) := by
  unfold before degree
  induction triples with
  | nil => rfl
  | cons triple rest ih =>
    simp only [countP_cons, decide_eq_true_eq, ih]
    split <;> split <;> split <;> omega

theorem sum_degrees (triples : List Triple) (count : Nat) :
    ((range (count + 1)).map (degree triples)).sum = before triples count := by
  induction count with
  | zero => simp [degree, before]
  | succ count ih =>
    rw [range_succ, map_append, sum_append_nat, ih, before_succ]
    simp

theorem checkTarget_meets (nodeCount : Nat) (triples : List Triple) :
    Meets (triples.foldlM (checkTarget nodeCount) ())
      (fun _ => ∀ triple ∈ triples, triple.target.val < nodeCount)
      (fun _ => ¬ Fits nodeCount triples) := by
  refine Meets.loop (fun (done : List Triple) _ => ∀ triple ∈ done, triple.target.val <
    nodeCount) nofun ?_
  rintro done triple rest _ rfl bounded
  unfold checkTarget
  by_cases inside : triple.target.val < nodeCount
  · rw [decide_eq_true inside]
    intro other mem
    rcases mem_append.mp mem with prior | last
    · exact bounded other prior
    · rw [mem_singleton.mp last]
      exact inside
  · rw [decide_eq_false inside]
    intro fits
    exact inside (fits.1 triple (by simp)).2

def entriesOf (triples : List Triple) (node : Ordinal) : List Entry :=
  ((triples.mergeSort (· ≤ ·)).filter fun triple =>
    decide (triple.source.val = node.val)).map Triple.entry

theorem source_mono {left right : Triple} (ordered : left ≤ right) :
    left.source.val ≤ right.source.val := by
  rcases Prod.Lex.le_iff.mp ordered with below | ⟨same, _⟩
  · exact le_of_lt below
  · exact le_of_eq (congrArg Fin.val same)

theorem sorted_by_source (triples : List Triple) :
    (triples.mergeSort (· ≤ ·)).Pairwise fun left right => left.source.val ≤ right.source.val :=
  (sortedLE_mergeSort).pairwise.imp source_mono

theorem zipWith_columns (triples : List Triple) :
    (triples.map Triple.target).zipWith entry (triples.map Triple.edge) = triples.map Triple.entry := by
  induction triples with
  | nil => rfl
  | cons triple rest ih =>
    rw [map_cons, map_cons, zipWith_cons_cons, ih, map_cons]
    rfl

theorem slice_map {items : List Triple} (column : Triple → Ordinal) {start stop : Nat}
    (ordered : start ≤ stop) (reaches : stop ≤ items.length) :
    slice (items.map column) start stop = some (((items.take stop).drop start).map column) := by
  rw [slice, if_pos ⟨ordered, by rw [length_map]; exact reaches⟩, map_drop, map_take]

theorem before_mono (triples : List Triple) (index : Nat) :
    before triples index ≤ before triples (index + 1) := by
  rw [before_succ]
  exact le_add_right _ _

/-- Building succeeds exactly if the edges fit, and then every row below the node count holds its
entries. -/
theorem buildOwned_meets (nodeCount : Nat) (triples : List Triple) :
    Meets (buildOwned nodeCount triples)
      (fun csr => Fits nodeCount triples ∧ csr.offsets.length = nodeCount + 1 ∧
        ∀ node, csr.row node = if node.val < nodeCount then some (entriesOf triples node) else none)
      (fun _ => ¬ Fits nodeCount triples) := by
  have permuted : (triples.mergeSort (· ≤ ·)).Perm triples := mergeSort_perm _ _
  have same : Fits nodeCount (triples.mergeSort (· ≤ ·)) ↔ Fits nodeCount triples := by
    unfold Fits
    rw [permuted.length_eq]
    simp only [permuted.mem_iff]
  unfold buildOwned
  have sortedRows := sorted_by_source triples
  rw [← same]
  have content : ∀ node : Ordinal, entriesOf triples node =
      ((triples.mergeSort (· ≤ ·)).filter fun triple =>
        decide (triple.source.val = node.val)).map Triple.entry :=
    fun _ => rfl
  simp only [content]
  generalize triples.mergeSort (· ≤ ·) = sorted at sortedRows ⊢
  apply Meets.bind (countSource_meets nodeCount sorted)
  rintro degrees ⟨sources, length, counted⟩
  have degreesEq : degrees = (range (nodeCount + 1)).map (degree sorted) := by
    apply ext_getElem?
    intro index
    by_cases inside : index ≤ nodeCount
    · rw [counted index inside, getElem?_map, getElem?_range (lt_succ_of_le inside)]
      rfl
    · rw [getElem?_eq_none (by omega), getElem?_eq_none (by simp; omega)]
  apply Meets.bind ((accumulate_meets degrees).mono (fun _ summed => summed) ?_)
  · rintro offsets ⟨offsetsLength, summed⟩
    apply Meets.bind (checkTarget_meets nodeCount sorted)
    intro _ targets
    have sums : ∀ index, index ≤ nodeCount → (degrees.take (index + 1)).sum = before sorted index := by
      intro index inside
      rw [degreesEq, ← map_take, take_range, min_eq_left (by omega), sum_degrees]
    have total : sorted.length < u32Limit := by
      have whole : before sorted nodeCount = sorted.length :=
        countP_eq_length.mpr fun triple mem => decide_eq_true (sources triple mem)
      rcases Nat.eq_zero_or_pos nodeCount with zero | positive
      · have nothing : before sorted nodeCount = 0 := by
          rw [zero]
          simp [before]
        rw [← whole, nothing]
        exact Nat.two_pow_pos 32
      · have last := (summed nodeCount (by omega)).2 positive
        rw [sums nodeCount (le_refl _), whole] at last
        exact last
    refine ⟨⟨fun triple mem => ⟨sources triple mem, targets triple mem⟩, total⟩,
      offsetsLength.trans length, ?_⟩
    intro node
    have offset : ∀ index, index ≤ nodeCount → offsets[index]? = some (before sorted index) := by
      intro index inside
      rw [(summed index (by omega)).1, sums index inside]
    unfold row
    split
    next inside =>
      have start := offset node.val (le_of_lt inside)
      have stop := offset (node.val + 1) inside
      have ordered := before_mono sorted node.val
      have reaches : before sorted (node.val + 1) ≤ sorted.length := countP_le_length
      simp only [start, stop, slice_map _ ordered reaches, Option.bind_eq_bind, Option.bind_some,
        zipWith_columns]
      exact congrArg (fun items => some (items.map Triple.entry)) (slice_run (fun triple =>
        triple.source.val) sortedRows node.val)
    next outside =>
      have missing : offsets[node.val + 1]? = none := getElem?_eq_none (by omega)
      simp only [missing, Option.bind_eq_bind, Option.bind_none]
      cases offsets[node.val]? <;> rfl
  · intro _ full fits
    rw [degreesEq, sum_degrees] at full
    have most : before sorted nodeCount ≤ sorted.length := countP_le_length
    have := fits.2
    omega

theorem mem_entriesOf {node : Ordinal} {item : Entry} :
    item ∈ entriesOf triples node ↔ ∃ triple ∈ triples, triple.source = node ∧ triple.entry = item := by
  have permuted : (triples.mergeSort (· ≤ ·)).Perm triples := mergeSort_perm _ _
  unfold entriesOf
  simp only [mem_map, mem_filter, permuted.mem_iff, decide_eq_true_eq, Fin.val_inj, and_assoc]

theorem entriesOf_sortedLT (distinct : triples.Nodup) (node : Ordinal) :
    (entriesOf triples node).Pairwise (· < ·) := by
  have permuted : (triples.mergeSort (· ≤ ·)).Perm triples := mergeSort_perm _ _
  have ordered : (triples.mergeSort (· ≤ ·)).Pairwise (· < ·) :=
    (sortedLE_mergeSort.sortedLT_of_nodup (permuted.nodup_iff.mpr distinct)).pairwise
  unfold entriesOf
  rw [pairwise_map]
  refine (ordered.filter _).imp_of_mem ?_
  intro left right leftMember rightMember below
  rw [mem_filter, decide_eq_true_eq] at leftMember rightMember
  rcases Prod.Lex.lt_iff.mp below with smaller | ⟨_, later⟩
  · have strictly : left.source.val < right.source.val := smaller
    omega
  · exact later

end Csr

end IronGraph.Graph

import IronGraph.Broker.Checks

/-!
The topic matcher: the positions of the routing key it marks word by word are those from which the
rest of the binding still matches.
-/

namespace IronGraph.Broker

open List

variable {value pattern : List (List Char)} {seg : List Char} {carried : Bool}

def topicWords (text : String) : List (List Char) := text.toList.splitOn '.'

/-- The rule of AMQP: a word matches itself, `*` any one word and `#` any number of words. -/
inductive TopicMatches : List (List Char) → List (List Char) → Prop where
  | done : TopicMatches [] []
  | word {pattern value word} (rest : TopicMatches pattern value) :
      TopicMatches (word :: pattern) (word :: value)
  | star {pattern value word} (rest : TopicMatches pattern value) :
      TopicMatches (['*'] :: pattern) (word :: value)
  | hash {pattern value skipped} (rest : TopicMatches pattern value) :
      TopicMatches (['#'] :: pattern) (skipped ++ value)

theorem topicMatches_nil : TopicMatches [] value ↔ value = [] :=
  ⟨fun | .done => rfl, fun empty => empty ▸ .done⟩

theorem topicMatches_hash : TopicMatches (['#'] :: pattern) value ↔
    ∃ skipped, TopicMatches pattern (value.drop skipped) := by
  constructor
  · intro matched
    cases matched with
    | word rest => exact ⟨1, rest⟩
    | hash rest => exact ⟨_, by rwa [drop_left]⟩
  · rintro ⟨skipped, rest⟩
    rw [← take_append_drop skipped value]
    exact .hash rest

theorem topicMatches_cons (plain : seg ≠ ['#']) : TopicMatches (seg :: pattern) value ↔
    ∃ word rest, value = word :: rest ∧ (seg = ['*'] ∨ seg = word) ∧ TopicMatches pattern rest := by
  constructor
  · intro matched
    cases matched with
    | word rest => exact ⟨_, _, rfl, .inr rfl, rest⟩
    | star rest => exact ⟨_, _, rfl, .inl rfl, rest⟩
    | hash rest => exact absurd rfl plain
  · rintro ⟨word, rest, rfl, rfl | rfl, matched⟩
    · exact .star matched
    · exact .word matched

theorem getElem?_carryReachable {reachable : List Bool} {index : Nat} :
    (carryReachable carried reachable)[index]? = some true ↔
      index < reachable.length ∧ (carried = true ∨ ∃ prior ≤ index, reachable[prior]? = some true) := by
  induction reachable generalizing carried index with
  | nil => simp [carryReachable]
  | cons reached rest ih =>
    cases index with
    | zero => simp [carryReachable]
    | succ index =>
      rw [carryReachable, getElem?_cons_succ, ih, length_cons, Nat.succ_lt_succ_iff,
        Bool.or_eq_true, or_assoc]
      refine and_congr_right fun _ => or_congr_right ⟨?_, ?_⟩
      · rintro (here | ⟨prior, before, found⟩)
        · exact ⟨0, Nat.zero_le _, by rw [here]; rfl⟩
        · exact ⟨prior + 1, Nat.succ_le_succ before, found⟩
      · rintro ⟨prior, before, found⟩
        cases prior with
        | zero => exact .inl (Option.some.inj found)
        | succ prior => exact .inr ⟨prior, Nat.le_of_succ_le_succ before, found⟩

section Segment

variable {value pattern : List (List Char)} {reachable : List Bool}

def Reaches (value pattern : List (List Char)) (reachable : List Bool) : Prop :=
  ∃ index, reachable[index]? = some true ∧ TopicMatches pattern (value.drop index)

theorem length_carryReachable : (carryReachable carried reachable).length = reachable.length := by
  induction reachable generalizing carried with
  | nil => rfl
  | cons reached rest ih => exact congrArg (· + 1) ih

variable (sized : reachable.length = value.length + 1)
include sized

theorem length_matchSegment : (matchSegment value reachable seg).length = value.length + 1 := by
  unfold matchSegment
  split
  · rw [length_carryReachable, sized]
  · simp [sized]

theorem reaches_matchSegment :
    Reaches value pattern (matchSegment value reachable seg) ↔
    Reaches value (seg :: pattern) reachable := by
  unfold Reaches matchSegment
  by_cases hash : seg = ['#']
  · subst hash
    simp only [if_pos, getElem?_carryReachable, topicMatches_hash, drop_drop,
      Bool.false_eq_true, false_or]
    constructor
    · rintro ⟨index, ⟨_, prior, before, found⟩, matched⟩
      exact ⟨prior, found, index - prior, by rwa [Nat.add_sub_of_le before]⟩
    · rintro ⟨index, found, skipped, matched⟩
      -- A `#` that skips more words than there are matches as if it skipped all.
      have inside := (List.getElem?_eq_some_iff.mp found).1
      refine ⟨min (index + skipped) value.length, ⟨by omega, index, by omega, found⟩, ?_⟩
      rcases Nat.le_total (index + skipped) value.length with within | past
      · rwa [Nat.min_eq_left within]
      · rw [Nat.min_eq_right past, drop_length, ← drop_eq_nil_of_le past]
        exact matched
  · simp only [if_neg hash, topicMatches_cons hash]
    constructor
    · rintro ⟨index, found, matched⟩
      cases index with
      | zero => cases found
      | succ index =>
        simp only [getElem?_cons_succ, getElem?_zipWith_eq_some, Bool.and_eq_true, Bool.or_eq_true,
          beq_iff_eq] at found
        obtain ⟨reached, word, here, actual, rfl, fits⟩ := found
        exact ⟨index, here, word, _, drop_eq_getElem?_toList_append .. ▸ by simp [actual],
          fits, matched⟩
    · rintro ⟨index, found, word, rest, split, fits, matched⟩
      have actual : value[index]? = some word := by rw [← head?_drop, split]; rfl
      have after : value.drop (index + 1) = rest := by rw [← tail_drop, split]; rfl
      refine ⟨index + 1, ?_, after ▸ matched⟩
      simp only [getElem?_cons_succ, getElem?_zipWith_eq_some, Bool.and_eq_true,
        Bool.or_eq_true, beq_iff_eq]
      exact ⟨true, word, found, actual, rfl, fits⟩

theorem reaches_foldl :
    (pattern.foldl (matchSegment value) reachable).getLast? = some true ↔
    Reaches value pattern reachable := by
  induction pattern generalizing reachable with
  | nil =>
    simp only [foldl_nil, Reaches, topicMatches_nil, drop_eq_nil_iff, getLast?_eq_getElem?]
    rw [sized, Nat.add_sub_cancel]
    constructor
    · exact fun found => ⟨_, found, Nat.le_refl _⟩
    · rintro ⟨index, found, past⟩
      have inside := (List.getElem?_eq_some_iff.mp found).1
      rwa [show value.length = index by omega]
  | cons seg pattern ih =>
    rw [foldl_cons, ih (length_matchSegment sized), reaches_matchSegment sized]

end Segment

theorem topicMatch_iff (binding routing : String) :
    topicMatch binding routing = true ↔ TopicMatches (topicWords binding) (topicWords routing) := by
  unfold topicMatch
  simp only [Option.getD_eq_iff, Bool.false_eq_true, and_false, or_false]
  rw [reaches_foldl (by simp)]
  constructor
  · rintro ⟨index, found, matched⟩
    cases index with
    | zero => exact matched
    | succ index =>
      obtain ⟨_, _, absurdly⟩ := Option.map_eq_some_iff.mp (getElem?_map ▸ found)
      cases absurdly
  · exact fun matched => ⟨0, rfl, matched⟩

end IronGraph.Broker

import IronGraph.Library.Handles
import IronGraph.Library.SortedEntries

/-!
The copy-on-write radix map: a tree over the hexadecimal digits of 128-bit keys, whose root skips
the leading digits all its keys have zero. A shared pointer is the value it points to: writing
through one copies what others can reach.
-/

namespace IronGraph.Graph

open Std Outcome SortedEntries List

abbrev RadixKey := BitVec 128

instance radixKeyTransOrd : TransOrd RadixKey := inferInstance

def radixBits : Nat := 4

def radixLevels : Nat := 128 / radixBits

def radixLeafCapacity : Nat := 8

/-- A slot of the tree: nothing, a leaf, or a branch with one slot for each digit. -/
inductive RadixNode (V : Type) where
  | vacant
  | leaf (entries : List (RadixKey × V))
  | branch (children : Fin 16 → RadixNode V)

variable {V : Type}

def radixSlot (depth : Nat) (key : RadixKey) : Fin 16 :=
  Fin.ofNat 16 ((key >>> (128 - radixBits * (depth + 1))) &&& 15#128).toNat

def leadingDigits (key : RadixKey) : Nat := key.clz.toNat / radixBits

namespace RadixNode

def isVacant : RadixNode V → Bool
  | vacant => true
  | _ => false

def get : RadixNode V → Nat → RadixKey → Option V
  | vacant, _, _ => none
  | leaf entries, _, key =>
    match search entries key with
    | .ok index => entries[index]?.map (·.2)
    | .error _ => none
  | branch children, depth, key =>
    if depth = radixLevels then none else (children (radixSlot depth key)).get (depth + 1) key

def insertEntry (entries : List (RadixKey × V)) (key : RadixKey) (value : V) :
    Option V × List (RadixKey × V) :=
  match search entries key with
  | .ok index => (entries[index]?.map (·.2), entries.modify index fun entry => (entry.1, value))
  | .error index => (none, entries.insertIdx index (key, value))

def setChild (children : Fin 16 → RadixNode V) (slot : Fin 16) (child : RadixNode V) :
    Fin 16 → RadixNode V :=
  Function.update children slot child

/-- Inserts below a node that has `levels` levels left; a leaf that grows beyond its capacity is
split into a branch unless it is at the last level. -/
def insertCow : (levels : Nat) → RadixNode V → RadixKey → V → Except String (Option V × RadixNode V)
  | _, vacant, key, value => .ok (none, leaf [(key, value)])
  | 0, branch _, _, _ => .error "radix branch exceeded its fixed depth"
  | levels + 1, branch children, key, value => do
    let slot := radixSlot (radixLevels - (levels + 1)) key
    let (previous, child) ← insertCow levels (children slot) key value
    return (previous, branch (setChild children slot child))
  | 0, leaf entries, key, value =>
    let (previous, entries) := insertEntry entries key value
    .ok (previous, leaf entries)
  | levels + 1, leaf entries, key, value =>
    let (previous, entries) := insertEntry entries key value
    if entries.length ≤ radixLeafCapacity then .ok (previous, leaf entries)
    else do
      let children ← entries.foldlM (fun children entry => do
          let slot := radixSlot (radixLevels - (levels + 1)) entry.1
          let (_, child) ← insertCow levels (children slot) entry.1 entry.2
          return setChild children slot child)
        (fun _ => vacant)
      return (previous, branch children)

/-- The value at a key together with how a write through the reference changes the node. -/
def getMut : RadixNode V → Nat → RadixKey → Option (V × (V → RadixNode V))
  | vacant, _, _ => none
  | leaf entries, _, key =>
    match search entries key with
    | .ok index => entries[index]?.map fun entry =>
      (entry.2, fun value => leaf (entries.modify index fun entry => (entry.1, value)))
    | .error _ => none
  | branch children, depth, key =>
    if depth < radixLevels then
      let slot := radixSlot depth key
      ((children slot).getMut (depth + 1) key).map fun (value, put) =>
        (value, fun value => branch (setChild children slot (put value)))
    else none

def remove : RadixNode V → Nat → RadixKey → RadixNode V × Option V
  | vacant, _, _ => (vacant, none)
  | leaf entries, _, key =>
    match search entries key with
    | .ok index =>
      let rest := entries.eraseIdx index
      (if rest.isEmpty then vacant else leaf rest, entries[index]?.map (·.2))
    | .error _ => (leaf entries, none)
  | branch children, depth, key =>
    if depth < radixLevels then
      let slot := radixSlot depth key
      let (replacement, removed) := (children slot).remove (depth + 1) key
      if removed.isNone then (branch children, none)
      else
        let children := setChild children slot replacement
        (if (finRange 16).all fun slot => (children slot).isVacant then vacant
          else branch children, removed)
    else (branch children, none)

def promote : Nat → RadixNode V → RadixNode V
  | 0, node => node
  | levels + 1, node => promote levels (branch (setChild (fun _ => vacant) 0 node))

def entries : RadixNode V → List (RadixKey × V)
  | vacant => []
  | leaf entries => entries
  | branch children => (finRange 16).flatMap fun slot => (children slot).entries

def weight : RadixNode V → Nat
  | branch children => ((finRange 16).map fun slot => (children slot).weight).sum + 1
  | _ => 1

end RadixNode

/-- A depth-first walk: the nodes still to visit, the next one first, and the leaf being read. -/
structure PersistentMapIter (V : Type) where
  stack : List (RadixNode V)
  leaf : Option (List (RadixKey × V))

namespace PersistentMapIter

def weight (stack : List (RadixNode V)) : Nat := (stack.map RadixNode.weight).sum

variable (children : Fin 16 → RadixNode V)

def occupied : List (RadixNode V) := ((finRange 16).map children).filter fun child => !child.isVacant

theorem weight_occupied_lt (stack : List (RadixNode V)) :
    weight (occupied children ++ stack) < weight (.branch children :: stack) := by
  have sublist : ((occupied children).map RadixNode.weight).Sublist
      (((List.finRange 16).map children).map RadixNode.weight) := filter_sublist.map _
  have bound := sublist.sum_le_sum (by simp)
  rw [map_map] at bound
  simp only [weight, map_append, sum_append, map_cons, sum_cons, weight]
  exact Nat.add_lt_add_right (Nat.lt_succ_of_le bound) _

def next : PersistentMapIter V → Option ((RadixKey × V) × PersistentMapIter V)
  | { stack, leaf := some (entry :: rest) } => some (entry, { stack, leaf := some rest })
  | { stack := [], leaf := _ } => none
  | { stack := .vacant :: stack, leaf := _ } => next { stack, leaf := none }
  | { stack := .leaf entries :: stack, leaf := _ } => next { stack, leaf := some entries }
  | { stack := .branch children :: stack, leaf := _ } =>
    next { stack := occupied children ++ stack, leaf := none }
termination_by iter => weight iter.stack
decreasing_by
  · exact Nat.lt_add_of_pos_left Nat.one_pos
  · exact Nat.lt_add_of_pos_left Nat.one_pos
  · exact weight_occupied_lt children stack

def pending (iter : PersistentMapIter V) : List (RadixKey × V) :=
  iter.leaf.getD [] ++ iter.stack.flatMap RadixNode.entries

theorem entries_occupied :
    (occupied children).flatMap RadixNode.entries = (RadixNode.branch children).entries := by
  unfold occupied
  rw [RadixNode.entries]
  generalize List.finRange 16 = order
  induction order with
  | nil => rfl
  | cons slot rest ih =>
    rw [map_cons, filter_cons, flatMap_cons, ← ih]
    cases child : children slot <;> simp [RadixNode.isVacant, RadixNode.entries]

theorem pending_exhausted {stack : List (RadixNode V)} {leaf : Option (List (RadixKey × V))}
    (exhausted : ∀ entry rest, leaf = some (entry :: rest) → False) :
    pending { stack, leaf } = stack.flatMap RadixNode.entries := by
  cases leaf with
  | none => rfl
  | some entries =>
    cases entries with
    | nil => rfl
    | cons entry rest => exact absurd rfl (exhausted entry rest)

theorem next_eq (iter : PersistentMapIter V) : match iter.pending with
    | [] => iter.next = none
    | entry :: rest => ∃ later, iter.next = some (entry, later) ∧ later.pending = rest := by
  fun_induction next iter with
  | case1 stack entry rest => exact ⟨_, rfl, rfl⟩
  | case2 leaf exhausted => rw [pending_exhausted exhausted, flatMap_nil]
  | case3 _ _ exhausted ih | case4 _ _ _ exhausted ih =>
    rw [pending_exhausted exhausted, flatMap_cons, RadixNode.entries]
    exact ih
  | case5 leaf children stack exhausted ih =>
    rw [pending_exhausted exhausted, flatMap_cons, ← entries_occupied, ← flatMap_append]
    exact ih

theorem next_pending {entry : RadixKey × V} {iter later : PersistentMapIter V}
    (yielded : iter.next = some (entry, later)) :
    iter.pending = entry :: later.pending := by
  have walked := next_eq iter
  split at walked
  · cases walked.symm.trans yielded
  next first rest here =>
    obtain ⟨_, reached, remaining⟩ := walked
    rw [yielded, Option.some.injEq, Prod.mk.injEq] at reached
    rw [here, ← reached.1, ← remaining, reached.2]

def collect (iter : PersistentMapIter V) : List (RadixKey × V) := match yielded : iter.next with
  | none => []
  | some (entry, later) =>
    have : later.pending.length < iter.pending.length := by
      rw [next_pending yielded]
      exact Nat.lt_succ_self _
    entry :: later.collect
termination_by iter.pending.length

end PersistentMapIter

structure PersistentMap (V : Type) where
  root : RadixNode V
  rootDepth : Nat
  len : Nat

namespace PersistentMap

def empty : PersistentMap V := { root := .vacant, rootDepth := 0, len := 0 }

def get (map : PersistentMap V) (key : RadixKey) : Option V :=
  if leadingDigits key < map.rootDepth then none else map.root.get map.rootDepth key

variable (map : PersistentMap V)

/-- The root and its depth once it can hold a key with `keyDepth` leading zero digits. -/
def makeRoom (keyDepth : Nat) : RadixNode V × Nat := match map.root with
  | .vacant => (.vacant, keyDepth)
  | .leaf entries => (.leaf entries, min map.rootDepth keyDepth)
  | .branch children =>
    (RadixNode.promote (map.rootDepth - keyDepth) (.branch children), min map.rootDepth keyDepth)

def insert (key : RadixKey) (value : V) : Except String (Option V × PersistentMap V) := do
  let (root, rootDepth) := map.makeRoom (min (leadingDigits key) (radixLevels - 1))
  let (previous, root) ← root.insertCow (radixLevels - rootDepth) key value
  return (previous, { root, rootDepth, len := if previous.isNone then map.len + 1 else map.len })

def getMut (map : PersistentMap V) (key : RadixKey) : Option (V × (V → PersistentMap V)) :=
  if leadingDigits key < map.rootDepth then none
  else (map.root.getMut map.rootDepth key).map fun (value, put) =>
    (value, fun value => { map with root := put value })

def remove (map : PersistentMap V) (key : RadixKey) : Option V × PersistentMap V :=
  if leadingDigits key < map.rootDepth then (none, map)
  else
    let (root, removed) := map.root.remove map.rootDepth key
    if removed.isSome then (removed, { map with root, len := map.len - 1 }) else (removed, map)

def iter : PersistentMapIter V :=
  { stack := if map.root.isVacant then [] else [map.root], leaf := none }

def serialize : Nat × List (RadixKey × V) := (map.len, map.iter.collect)

def deserializeEntry (entry : RadixKey × V) : Except String (PersistentMap V) := do
  let (previous, map) ← map.insert entry.1 entry.2
  require previous.isNone "persistent map contains a duplicate key"
  return map

def deserialize (stored : Nat × List (RadixKey × V)) : Except String (PersistentMap V) :=
  stored.2.foldlM deserializeEntry empty

end PersistentMap

/-- What can be done with one map; `write` assigns through a mutable reference, `reload` serializes
the map and reads it back. -/
inductive MapOperation (V : Type) where
  | get (key : RadixKey)
  | len
  | iterate
  | insert (key : RadixKey) (value : V)
  | write (key : RadixKey) (value : V)
  | remove (key : RadixKey)
  | reload

inductive MapReply (V : Type) where
  | value (found : Option V)
  | count (len : Nat)
  | entries (entries : List (RadixKey × V))
  | done

namespace PersistentMap

def perform (map : PersistentMap V) : MapOperation V → Except String (PersistentMap V × MapReply V)
  | .get key => .ok (map, .value (map.get key))
  | .len => .ok (map, .count map.len)
  | .iterate => .ok (map, .entries map.iter.collect)
  | .insert key value => do
    let (previous, map) ← map.insert key value
    return (map, .value previous)
  | .write key value =>
    match map.getMut key with
    | none => .ok (map, .value none)
    | some (previous, put) => .ok (put value, .value (some previous))
  | .remove key =>
    let (removed, map) := map.remove key
    .ok (map, .value removed)
  | .reload => do
    let map ← deserialize map.serialize
    return (map, .done)

def component (V : Type) : Handles.Component String Unit (MapOperation V) (MapReply V) where
  Value := PersistentMap V
  make := fun _ => .ok empty
  perform := perform

end PersistentMap

end IronGraph.Graph

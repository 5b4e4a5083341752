import IronGraph.Types
import IronGraph.Graph.PersistentMapCore
import IronGraph.Library.FlatMap

/-!
The paged copy-on-write vector: fixed-size value pages in leaves of up to 256, found through a radix
map. A page that was never written is not stored. A machine word that overflows stops the program; a
write through a mutable reference is the function that puts the new value in its place.
-/

namespace IronGraph.Graph

open Std Outcome DoubleEnded List

def pageBytes : Nat := 16 * 1024

def maxPageElements : Nat := 4096

def pagesPerLeaf : Nat := 256

structure PageCapacity where
  elements : Nat
  positive : 0 < elements

def pageCapacity (width : Nat) : PageCapacity where
  elements := max 1 (min (pageBytes / max width 1) maxPageElements)
  positive := Nat.lt_of_lt_of_le Nat.one_pos (Nat.le_max_left _ _)

def addOverflow : String := "attempt to add with overflow"

def checkedWord (left right : Nat) : Option Nat :=
  if left + right < u64Limit then some (left + right) else none

def addWord (left right : Nat) : Except String Nat := orElse (checkedWord left right) addOverflow

def divCeil (dividend divisor : Nat) : Nat :=
  if dividend % divisor = 0 then dividend / divisor else dividend / divisor + 1

variable {T : Type}

/-- An immutable view of an allocation owned elsewhere. -/
structure SharedFlat (T : Type) where
  values : List T
  bounded : values.length < u64Limit

namespace SharedFlat

def len (view : SharedFlat T) : Nat := view.values.length

def slice (view : SharedFlat T) (start count : Nat) : Except String (SharedFlat T) := do
  let stop ← orElse (checkedWord start count) "shared flat slice range overflow"
  require (stop ≤ view.len) "shared flat slice is out of bounds"
  return {
    values := (view.values.drop start).take count
    bounded := Nat.lt_of_le_of_lt
      (Nat.le_trans (List.length_take_le' _ _) (List.length_drop ▸ Nat.sub_le _ _)) view.bounded }

end SharedFlat

inductive ValuePage (T : Type) where
  | owned (values : List T)
  | shared (values : SharedFlat T)

namespace ValuePage

def asSlice : ValuePage T → List T
  | owned values => values
  | shared view => view.values

def getMut (page : ValuePage T) (index : Nat) : ValuePage T × Option (T × (T → ValuePage T)) :=
    (owned page.asSlice, page.asSlice[index]?.map fun value =>
      (value, fun value => owned (page.asSlice.set index value)))

def push (page : ValuePage T) (value : T) : ValuePage T := owned (page.asSlice ++ [value])

end ValuePage

structure PageLeaf (T : Type) where
  pages : List (Option (ValuePage T))

structure PageDirectory (T : Type) where
  leaves : PersistentMap (PageLeaf T)
  firstPage : Nat
  len : Nat
  default : Option T

/-- The key of leaf number `leaf`: its bits reversed, so that low leaf numbers spread over the radix
tree. -/
def leafKey (leaf : Nat) : RadixKey := (BitVec.ofNat 128 leaf).reverse

namespace PageDirectory

def page (directory : PageDirectory T) (page : Nat) : Option (ValuePage T) := do
  let leaf ← directory.leaves.get (leafKey (page / pagesPerLeaf))
  let stored ← leaf.pages[page % pagesPerLeaf]?
  stored

def ensureLeaf (directory : PageDirectory T) (key : RadixKey) :
    Except String (PersistentMap (PageLeaf T)) :=
  if (directory.leaves.get key).isSome then .ok directory.leaves
  else do
    let (_, leaves) ← directory.leaves.insert key { pages := [] }
    return leaves

def resized (pages : List (Option (ValuePage T))) (slot : Nat) : List (Option (ValuePage T)) :=
  if pages.length ≤ slot then pages ++ replicate (slot + 1 - pages.length) none else pages

/-- The place of a page: what it holds and how a write changes the directory. -/
def pageMut (directory : PageDirectory T) (page : Nat) :
    Except String (Option (ValuePage T) × (Option (ValuePage T) → PageDirectory T)) := do
  let key := leafKey (page / pagesPerLeaf)
  let leaves ← directory.ensureLeaf key
  let (leaf, put) ← orElse (leaves.getMut key) "page leaf was inserted"
  let slot := page % pagesPerLeaf
  let pages := resized leaf.pages slot
  return (pages[slot]?.join, fun stored => { directory with
    leaves := put { pages := pages.set slot stored } })

end PageDirectory

abbrev PagedVec (T : Type) := PageDirectory T

structure Loan (T : Type) where
  vec : PagedVec T
  reference : Option (T × (T → PagedVec T))

namespace PagedVec

variable (capacity : PageCapacity)

def empty : PagedVec T := { leaves := PersistentMap.empty, firstPage := 0, len := 0, default := none }

def fromSharedPages (values : SharedFlat T) (vec : PagedVec T) (offset : Nat) :
    Except String (PagedVec T) :=
  if inside : offset < values.len then do
    let pageLen := min capacity.elements (values.len - offset)
    have : values.len - (offset + pageLen) < values.len - offset := by
      have := capacity.positive
      omega
    let view ← values.slice offset pageLen
    let (_, put) ← vec.pageMut (offset / capacity.elements)
    fromSharedPages values (put (some (.shared view))) (offset + pageLen)
  else .ok vec
termination_by values.len - offset

def fromShared (values : SharedFlat T) : Except String (PagedVec T) :=
  fromSharedPages capacity values { empty with len := values.len } 0

def «repeat» (value : T) (len : UInt64) : PagedVec T :=
  { leaves := PersistentMap.empty, firstPage := 0, len := len.toNat, default := some value }

variable (vec : PagedVec T)

def get (index : Nat) : Option T :=
  if vec.len ≤ index then none
  else do
    let page ← checkedWord vec.firstPage (index / capacity.elements)
    ((vec.page page).bind fun page => page.asSlice[index % capacity.elements]?).or vec.default

def lend (page index : Nat) : Except String (Loan T) := do
  let (stored, put) ← vec.pageMut page
  match stored with
  | none => return { vec := put none, reference := none }
  | some stored =>
    let (detached, reference) := stored.getMut index
    return {
      vec := put (some detached)
      reference := reference.map fun (value, write) => (value, fun value => put (some (write value))) }

def materialize (page index : Nat) (value : T) : Except String (PagedVec T) := do
  let (_, put) ← vec.pageMut page
  let len := min capacity.elements (vec.len - index / capacity.elements * capacity.elements)
  return put (some (.owned (replicate len value)))

def getMut (index : Nat) : Except String (Loan T) :=
  if vec.len ≤ index then .ok { vec, reference := none }
  else
    match checkedWord vec.firstPage (index / capacity.elements) with
    | none => .ok { vec, reference := none }
    | some page =>
      match vec.page page, vec.default with
      | some _, _ => vec.lend page (index % capacity.elements)
      | none, none => .ok { vec, reference := none }
      | none, some value => do
        let vec ← vec.materialize capacity page index value
        vec.lend page (index % capacity.elements)

def replace (index : Nat) (value : T) : Except String (PagedVec T × Except String Unit) := do
  let loan ← vec.getMut capacity index
  match loan.reference with
  | none => return (loan.vec, .error "paged vector index is out of bounds")
  | some (_, put) => return (put value, .ok ())

def freshPage (offset : Nat) : ValuePage T :=
  .owned (if offset = 0 then [] else vec.default.elim [] (replicate offset))

def push (vec : PagedVec T) (value : T) : Except String (PagedVec T) := do
  let page ← addWord vec.firstPage (vec.len / capacity.elements)
  let (stored, put) ← vec.pageMut page
  let filled := (stored.getD (vec.freshPage (vec.len % capacity.elements))).push value
  let len ← addWord vec.len 1
  return { put (some filled) with len }

def allocated (page len : Nat) : Except String (List T) := match vec.page page with
  | none => .ok []
  | some values => do
    require (len ≤ values.asSlice.length) "range end index out of range for slice"
    return values.asSlice.take len

def pageValues (page : Nat) : Except String (List T) := do
  let len := min capacity.elements (vec.len - page * capacity.elements)
  let index ← addWord vec.firstPage page
  let allocated ← vec.allocated index len
  return allocated ++ vec.default.elim [] (replicate (len - allocated.length))

def iter : FlatMap T := FlatMap.ofRange (divCeil vec.len capacity.elements)

def iterate (sides : List Side) : Except String (List (Option T)) :=
  (vec.iter capacity).draw (vec.pageValues capacity) sides

def removeLeaves (leaves : PersistentMap (PageLeaf T)) (first stop : Nat) :
    PersistentMap (PageLeaf T) :=
  (range' first (stop - first)).foldl (fun leaves leaf => (leaves.remove (leafKey leaf)).2) leaves

def removable (len elements : Nat) : Nat :=
  if len ≤ elements then len
  else elements / (capacity.elements * pagesPerLeaf) * (capacity.elements * pagesPerLeaf)

def discardPrefixLeaves (elements : Nat) : Except String (PagedVec T × Nat) :=
  let removable := removable capacity vec.len elements
  if removable = 0 then .ok (vec, 0)
  else do
    let firstPage ← addWord vec.firstPage (divCeil removable capacity.elements)
    let leaves := removeLeaves vec.leaves (vec.firstPage / pagesPerLeaf)
      (divCeil firstPage pagesPerLeaf)
    let len := vec.len - removable
    if len = 0 then return ({ vec with leaves := PersistentMap.empty, firstPage := 0, len }, removable)
    else return ({ vec with leaves, firstPage, len }, removable)

def serialize : Except String (Nat × List T) := do
  let values ← (vec.iter capacity).collect (vec.pageValues capacity)
  return (vec.len, values)

def deserialize (stored : Nat × List T) : Except String (PagedVec T) :=
  stored.2.foldlM (push capacity) empty

end PagedVec

inductive VecSeed (T : Type) where
  | default
  | shared (values : SharedFlat T)
  | repeated (value : T) (len : UInt64)

/-- What can be done with one vector; `write` assigns through a mutable reference, `iterate` draws
from both ends of one iterator, `reload` serializes the vector and reads it back. -/
inductive VecOperation (T : Type) where
  | get (index : Nat)
  | len
  | iterate (sides : List Side)
  | write (index : Nat) (value : T)
  | replace (index : Nat) (value : T)
  | push (value : T)
  | discardPrefixLeaves (elements : Nat)
  | reload

inductive VecReply (T : Type) where
  | value (found : Option T)
  | count (len : Nat)
  | values (drawn : List (Option T))
  | replaced (outcome : Except String Unit)
  | done

namespace PagedVec

variable (capacity : PageCapacity)

def make : VecSeed T → Except String (PagedVec T)
  | .default => .ok empty
  | .shared values => fromShared capacity values
  | .repeated value len => .ok («repeat» value len)

def write (vec : PagedVec T) (index : Nat) (value : T) : Except String (PagedVec T × Option T) := do
  let loan ← vec.getMut capacity index
  match loan.reference with
  | none => return (loan.vec, none)
  | some (previous, put) => return (put value, some previous)

def perform (vec : PagedVec T) : VecOperation T → Except String (PagedVec T × VecReply T)
  | .get index => .ok (vec, .value (vec.get capacity index))
  | .len => .ok (vec, .count vec.len)
  | .iterate sides => do
    let drawn ← vec.iterate capacity sides
    return (vec, .values drawn)
  | .write index value => do
    let (vec, previous) ← vec.write capacity index value
    return (vec, .value previous)
  | .replace index value => do
    let (vec, outcome) ← vec.replace capacity index value
    return (vec, .replaced outcome)
  | .push value => do
    let vec ← vec.push capacity value
    return (vec, .done)
  | .discardPrefixLeaves elements => do
    let (vec, removed) ← vec.discardPrefixLeaves capacity elements
    return (vec, .count removed)
  | .reload => do
    let stored ← vec.serialize capacity
    let vec ← deserialize capacity stored
    return (vec, .done)

def component (T : Type) (width : Nat) : Handles.Component String (VecSeed T) (VecOperation T)
    (VecReply T) where
  Value := PagedVec T
  make := make (pageCapacity width)
  perform := perform (pageCapacity width)

end PagedVec

end IronGraph.Graph

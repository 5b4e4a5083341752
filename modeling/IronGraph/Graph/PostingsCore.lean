import IronGraph.Types

/-!
Postings: for every key a set of rows that any number of edits and readers share.

An entry keeps a single row in line and a table only for more. An edit announces itself in the
writer count of the entry and does its stores under its mutex; the last one to leave an empty entry
closes it and takes it out of the map. Each step here is one atomic operation of the source. -/

namespace IronGraph.Graph.Posting

/-- The in-line word of an entry whose rows are in the table. -/
def spilled : Nat := u64Limit - 1

/-- The writer count of an entry that takes no more edits. -/
def closed : Nat := 2 ^ 63

def word (row : UInt32) : Nat := row.toNat + 1

structure PostingRows where
  inline : Nat
  spill : Option (Finset UInt32)
  mutex : Option Nat
  writers : Nat

namespace PostingRows

def empty : PostingRows where
  inline := 0
  spill := none
  mutex := none
  writers := 0

def table (rows : PostingRows) : Finset UInt32 := rows.spill.getD ∅

def contents (rows : PostingRows) : Finset UInt32 :=
  if rows.inline = 0 then ∅
  else if rows.inline = spilled then rows.table
  else {UInt32.ofNat (rows.inline - 1)}

end PostingRows

structure Edit (κ : Type) where
  key : κ
  row : UInt32
  insert : Bool

def Edit.apply {κ : Type} (edit : Edit κ) (rows : Finset UInt32) : Finset UInt32 :=
  if edit.insert then Insert.insert edit.row rows else rows.erase edit.row

/-- Where an edit stands, with the entry it works on: what it does next. -/
inductive Pc where
  | looking
  | creating
  | entering (entry : Nat)
  | locking (entry : Nat)
  | loading (entry : Nat)
  | storing (entry : Nat)
  | spilling (entry : Nat) (rows : List UInt32) (promote : Bool)
  | promoting (entry : Nat)
  | clearing (entry : Nat)
  | unspilling (entry : Nat)
  | leaving (entry : Nat)
  | checking (entry : Nat)
  | counting (entry : Nat)
  | closing (entry : Nat)
  | removing (entry : Nat)
  | unlocking (entry : Nat)
  | done
  | returned
deriving DecidableEq

structure Call (κ : Type) where
  edit : Edit κ
  pc : Pc

/-- A reader of a key: `visited` are the rows of the table it has looked for, `found` those that
were there. -/
inductive Reader (κ : Type) where
  | looking (key : κ)
  | loading (key : κ) (entry : Nat)
  | scanning (key : κ) (entry : Nat) (visited found : Finset UInt32)
  | answering (key : κ) (rows : Finset UInt32)
  | returned

structure PostingEntry (κ : Type) where
  key : κ
  rows : PostingRows

/-- The map leads to entries by their address. Calls and readers are numbered in the order they come. -/
structure Postings (κ : Type) where
  map : κ → Option Nat
  entries : List (PostingEntry κ)
  calls : List (Call κ)
  readers : List (Reader κ)

inductive Event (κ : Type) where
  | quiet
  | call (call : Nat) (edit : Edit κ)
  | effect (call : Nat) (edit : Edit κ)
  | finish (call : Nat)
  | begin (reader : Nat) (key : κ)
  | answer (reader : Nat) (rows : Finset UInt32)

namespace Postings

variable {κ : Type} [DecidableEq κ]

def empty : Postings κ where
  map _ := none
  entries := []
  calls := []
  readers := []

variable (postings : Postings κ)

def rowsAt (entry : Nat) : PostingRows := (postings.entries[entry]?.map (·.rows)).getD .empty

def withRows (entry : Nat) (rows : PostingRows) : Postings κ :=
  { postings with entries := postings.entries.modify entry fun found => { found with rows } }

def withEntry (key : κ) : Postings κ := { postings with
    entries := postings.entries ++ [{ key, rows := .empty }]
    map := fun other => if other = key then some postings.entries.length else postings.map other }

def withPc (call : Nat) (pc : Pc) : Postings κ :=
  { postings with calls := postings.calls.modify call fun found => { found with pc } }

def withoutKey (key : κ) : Postings κ :=
  { postings with map := fun other => if other = key then none else postings.map other }

def members (key : κ) : Finset UInt32 := match postings.map key with
  | none => ∅
  | some entry => (postings.rowsAt entry).contents

/-- The next atomic operation of an edit; `none` while it waits for the mutex or has returned. -/
def advance (call : Nat) (found : Call κ) : Option (Event κ × Postings κ) :=
  let edit := found.edit
  let quietly (next : Postings κ) (pc : Pc) : Option (Event κ × Postings κ) :=
    some (.quiet, next.withPc call pc)
  let effectively (next : Postings κ) (pc : Pc) : Option (Event κ × Postings κ) :=
    some (.effect call edit, next.withPc call pc)
  match found.pc with
  | .looking =>
    match postings.map edit.key with
    | some entry => quietly postings (.entering entry)
    | none => if edit.insert then quietly postings .creating else effectively postings .done
  | .creating =>
    match postings.map edit.key with
    | some entry => quietly postings (.entering entry)
    | none =>
      quietly (postings.withEntry edit.key) (.entering postings.entries.length)
  | .entering entry =>
    let rows := postings.rowsAt entry
    if rows.writers < closed then
      quietly (postings.withRows entry { rows with writers := rows.writers + 1 }) (.locking entry)
    else quietly postings .looking
  | .locking entry =>
    let rows := postings.rowsAt entry
    if rows.mutex.isNone then quietly (postings.withRows entry { rows with
      mutex := some call }) (.loading entry)
    else none
  | .loading entry =>
    let rows := postings.rowsAt entry
    if edit.insert then
      if rows.inline = 0 then quietly postings (.storing entry)
      else if rows.inline = spilled then quietly postings (.spilling entry [edit.row] false)
      else if rows.inline = word edit.row then effectively postings (.leaving entry)
      else quietly postings (.spilling entry [UInt32.ofNat (rows.inline - 1), edit.row] true)
    else
      if rows.inline = spilled then
        if rows.spill.isSome then quietly postings (.unspilling entry)
          else effectively postings (.leaving entry)
      else if rows.inline = word edit.row then quietly postings (.clearing entry)
      else effectively postings (.leaving entry)
  | .storing entry =>
    effectively (postings.withRows entry { postings.rowsAt entry with
      inline := word edit.row }) (.leaving entry)
  | .spilling _ [] _ => none
  | .spilling entry (row :: later) promote =>
    let rows := postings.rowsAt entry
    let next := postings.withRows entry { rows with spill := some (Insert.insert row rows.table) }
    match later with
    | [] => if promote then quietly next (.promoting entry) else effectively next (.leaving entry)
    | _ => quietly next (.spilling entry later promote)
  | .promoting entry =>
    effectively (postings.withRows entry { postings.rowsAt entry with
      inline := spilled }) (.leaving entry)
  | .clearing entry =>
    effectively (postings.withRows entry { postings.rowsAt entry with inline := 0 }) (.leaving entry)
  | .unspilling entry =>
    let rows := postings.rowsAt entry
    effectively (postings.withRows entry { rows with
      spill := rows.spill.map (·.erase edit.row) }) (.leaving entry)
  | .leaving entry =>
    let rows := postings.rowsAt entry
    quietly (postings.withRows entry { rows with writers := rows.writers - 1 })
      (if rows.writers = 1 then .checking entry else .unlocking entry)
  | .checking entry =>
    let rows := postings.rowsAt entry
    if rows.inline = 0 then quietly postings (.closing entry)
    else if rows.inline = spilled then quietly postings (.counting entry)
    else quietly postings (.unlocking entry)
  | .counting entry =>
    if (postings.rowsAt entry).table = ∅ then quietly postings (.closing entry)
    else quietly postings (.unlocking entry)
  | .closing entry =>
    let rows := postings.rowsAt entry
    if rows.writers = 0 then quietly (postings.withRows entry { rows with
      writers := closed }) (.removing entry)
    else quietly postings (.unlocking entry)
  | .removing entry =>
    if postings.map edit.key = some entry then quietly (postings.withoutKey edit.key) (.unlocking entry)
    else quietly postings (.unlocking entry)
  | .unlocking entry =>
    quietly (postings.withRows entry { postings.rowsAt entry with mutex := none }) .done
  | .done => some (.finish call, postings.withPc call .returned)
  | .returned => none

def withReader (reader : Nat) (state : Reader κ) : Postings κ :=
  { postings with readers := postings.readers.set reader state }

/-- The next look of a reader. A scan of the table looks for some rows at a time, in no particular
order, and ends when it has looked for all of them. -/
def look (reader : Nat) (bucket : Finset UInt32) : Reader κ → Option (Event κ × Postings κ)
  | .looking key =>
    match postings.map key with
    | none => some (.quiet, postings.withReader reader (.answering key ∅))
    | some entry => some (.quiet, postings.withReader reader (.loading key entry))
  | .loading key entry =>
    let rows := postings.rowsAt entry
    if rows.inline = 0 then some (.quiet, postings.withReader reader (.answering key ∅))
    else if rows.inline = spilled then some (.quiet,
      postings.withReader reader (.scanning key entry ∅ ∅))
    else some (.quiet, postings.withReader reader (.answering key {UInt32.ofNat (rows.inline - 1)}))
  | .scanning key entry visited found =>
    some (.quiet, postings.withReader reader
      (.scanning key entry (visited ∪ bucket) (found ∪ (postings.rowsAt entry).table ∩ bucket)))
  | .answering _ rows => some (.answer reader rows, postings.withReader reader .returned)
  | .returned => none

inductive Step : Postings κ → Event κ → Postings κ → Prop
  | rest {postings : Postings κ} : Step postings .quiet postings
  | call {postings : Postings κ} (edit : Edit κ) : Step postings (.call postings.calls.length edit)
      { postings with calls := postings.calls ++ [{ edit, pc := .looking }] }
  | advance {postings next : Postings κ} {call : Nat} {found : Call κ} {event : Event κ}
      (running : postings.calls[call]? = some found) (moves : postings.advance call found =
        some (event, next)) :
      Step postings event next
  | begin {postings : Postings κ} (key : κ) : Step postings (.begin postings.readers.length key)
      { postings with readers := postings.readers ++ [.looking key] }
  | look {postings next : Postings κ} {reader : Nat} {state : Reader κ} {event : Event κ}
      (bucket : Finset UInt32) (running : postings.readers[reader]? =
        some state) (moves : postings.look reader bucket state = some (event, next)) :
      Step postings event next
  | scanned {postings : Postings κ} {reader : Nat} {key : κ} {entry : Nat}
      {visited found : Finset UInt32}
      (running : postings.readers[reader]? = some (.scanning key entry visited found)) (all : ∀ row,
        row ∈ visited) :
      Step postings .quiet (postings.withReader reader (.answering key found))

end Postings

/-- An execution: a state and an event for every moment, from no entries at all. -/
structure Execution (κ : Type) [DecidableEq κ] where
  state : Nat → Postings κ
  event : Nat → Event κ
  start : state 0 = .empty
  step : ∀ moment, Postings.Step (state moment) (event moment) (state (moment + 1))

end IronGraph.Graph.Posting

import IronGraph.Storage.RecordCore
import IronGraph.Library.FixedBytes
import IronGraph.Library.Outcome

/-!
The record store: two ordered tables and a bookmark in one transactional database. A record is a
header of 48 bytes followed by the value when it fits into one chunk; longer values are cut into
chunks held in a table of their own. The checksum is a parameter; a write transaction that does not
reach its commit leaves the tables as they were.
-/

namespace IronGraph

open Std PrefixOrder FixedBytes Outcome List UInt64

structure Digest where
  bytes : Bytes
  size : bytes.length = 32
deriving Repr, DecidableEq

def Digest.zero : Digest := { bytes := replicate 32 0, size := by simp }

def chunkBytes : Nat := 64 * 1024
def headerBytes : Nat := 48
def deleteBatch : Nat := 128

def corrupt (message : String) : Error := Error.new .corruptStorage message

instance chunkKeyOrd : Ord (Bytes × Nat) := lexOrd

structure RecordTables where
  bookmark : Option Bytes
  records : ExtTreeMap Bytes Bytes
  chunks : ExtTreeMap (Bytes × Nat) Bytes

def encodeBookmark (bookmark : Bookmark) : Bytes :=
  leBytes 8 bookmark.term.toNat ++ leBytes 8 bookmark.index.toNat

def decodeBookmark (bytes : Bytes) : Result Bookmark := do
  require (bytes.length == 16) (corrupt "durable bookmark length mismatch")
  let term := ofLeBytes (bytes.take 8)
  let index := ofLeBytes (bytes.drop 8)
  require ((term == 0) == (index == 0)) (corrupt "durable bookmark is invalid")
  return { term := ofNat term, index := ofNat index }

def chunkCount (length : Nat) : Nat :=
  if length ≤ chunkBytes then 0 else pieceCount chunkBytes length

def decodeHeader (bytes : Bytes) : Result (Nat × Nat × Bytes) := do
  require (headerBytes ≤ bytes.length) (corrupt "record header is truncated")
  let length := ofLeBytes (bytes.take 8)
  let count := ofLeBytes ((bytes.drop 8).take 8)
  require (count == chunkCount length) (corrupt "record chunk count disagrees with length")
  require (count == 0 || bytes.length == headerBytes) (corrupt "chunked record header length mismatch")
  require (count != 0 || headerBytes + length < u64Limit) (corrupt "record extent overflow")
  require (count != 0 || bytes.length == headerBytes + length) (corrupt "inline record length mismatch")
  return (length, count, (bytes.drop 16).take 32)

namespace RecordTables

def empty : RecordTables := { bookmark := some (encodeBookmark default), records := ∅, chunks := ∅ }

def removeChunk (key : Bytes) (tables : RecordTables) (index : Nat) : Result RecordTables := do
  require (tables.chunks.contains (key, index)) (corrupt "record chunk is absent during replacement")
  return { tables with chunks := tables.chunks.erase (key, index) }

def deleteRecord (tables : RecordTables) (key : Bytes) : Result RecordTables :=
  match tables.records[key]? with
  | none => .ok tables
  | some value => do
    let (_, count, _) ← decodeHeader value
    (range count).foldlM (removeChunk key) { tables with records := tables.records.erase key }

def readChunk (tables : RecordTables) (key : Bytes) (length : Nat) (value : Bytes) (index : Nat) :
    Result Bytes := do
  let chunk ← orElse tables.chunks[(key, index)]? (corrupt "record chunk is absent")
  require (chunk.length == min (length - value.length) chunkBytes)
    (corrupt "record chunk length mismatch")
  return value ++ chunk

variable (hash : Bytes → Digest) (tables : RecordTables)

def readRecord (key encoded : Bytes) : Result Bytes := do
  let (length, count, checksum) ← decodeHeader encoded
  require (count == chunkCount length) (corrupt "record chunk count disagrees with length")
  let value ←
    if count = 0 then do
      require (headerBytes + length < u64Limit) (corrupt "record extent overflow")
      require (encoded.length == headerBytes + length) (corrupt "inline record length mismatch")
      pure (encoded.drop headerBytes)
    else do
      require (encoded.length == headerBytes) (corrupt "chunked record header length mismatch")
      (range count).foldlM (tables.readChunk key length) []
  require ((hash value).bytes == checksum) (corrupt "record checksum mismatch")
  return value

def recordHeader (hash : Bytes → Digest) (value : Bytes) : Bytes :=
  leBytes 8 value.length ++ leBytes 8 (chunkCount value.length) ++ (hash value).bytes ++
    if chunkCount value.length = 0 then value else []

def insertChunk (key value : Bytes) (tables : RecordTables) (index : Nat) : RecordTables :=
  { tables with chunks := tables.chunks.insert (key, index) (piece chunkBytes value index) }

def putRecord (key value : Bytes) : Result RecordTables := do
  let cleared ← tables.deleteRecord key
  require (value.length < u64Limit) (Error.invalidData "record length overflow")
  let chunked := (range (chunkCount value.length)).foldl (insertChunk key value) cleared
  return { chunked with records := chunked.records.insert key (recordHeader hash value) }

def deletePrefixFrom (stem : Bytes) : Nat → RecordTables → Result RecordTables
  | 0, tables => .ok tables
  | fuel + 1, tables =>
    let keys := (keysUnder stem tables.records.keys).take deleteBatch
    if keys.isEmpty then .ok tables
    else keys.foldlM deleteRecord tables >>= deletePrefixFrom stem fuel

def applyRecordOp : RecordOp → Result RecordTables
  | .put key value => tables.putRecord hash key value
  | .delete key => tables.deleteRecord key
  | .deletePrefix stem => deletePrefixFrom stem (tables.records.size + 1) tables

def commitBatch (hash : Bytes → Digest) (state : RecordTables × Bookmark) (batch : RecordBatch) :
    Result (RecordTables × Bookmark) := do
  let invalid := corrupt "record batch does not continue the durable prefix"
  require (batch.bookmark.term != 0) invalid
  let expected ← orElse (checkedAdd state.2.index 1) (corrupt "durable position overflow")
  require (batch.firstIndex == expected) invalid
  require (state.2.term ≤ batch.bookmark.term) invalid
  require (batch.firstIndex ≤ batch.bookmark.index) invalid
  let tables ← batch.operations.foldlM (applyRecordOp hash) state.1
  return (tables, batch.bookmark)

def durableBookmark (tables : RecordTables) : Result Bookmark :=
  orElse tables.bookmark (corrupt "missing durable bookmark") >>= decodeBookmark

def commitTransaction (batches : List RecordBatch) : Result RecordTables :=
  if batches.isEmpty then .ok tables
  else do
    let bookmark ← tables.durableBookmark
    let (written, last) ← batches.foldlM (commitBatch hash) (tables, bookmark)
    return { written with bookmark := some (encodeBookmark last) }

def commit (batches : List RecordBatch) : RecordTables × Result Unit :=
  match tables.commitTransaction hash batches with
  | .ok written => (written, .ok ())
  | .error error => (tables, .error error)

def get (key : Bytes) : Result (Option Bytes) := match tables.records[key]? with
  | none => .ok none
  | some encoded => some <$> tables.readRecord hash key encoded

def scanPrefix {σ : Type} (hash : Bytes → Digest) (tables : RecordTables) (stem : Bytes)
    (visit : σ → Bytes → Bytes → Result σ) (start : σ) : Result σ :=
  let range := tables.records.toList.filter fun entry => (compare stem entry.1).isLE
  (range.takeWhile fun entry => startsWith stem entry.1).foldlM
    (fun state entry => tables.readRecord hash entry.1 entry.2 >>= visit state entry.1) start

def afterBound (stem : Bytes) (after : Option Bytes) (key : Bytes) : Bool :=
  match after.filter fun last => (compare stem last).isLE with
  | some last => compare last key == .lt
  | none => (compare stem key).isLE

def nextAfter (stem : Bytes) (after : Option Bytes) : Result (Option (Bytes × Bytes)) :=
  match (tables.records.toList.filter fun entry => afterBound stem after entry.1).head? with
  | none => .ok none
  | some (key, encoded) =>
    if startsWith stem key then (fun value => some (key, value)) <$> tables.readRecord hash key encoded
    else .ok none

def iterateFrom (hash : Bytes → Digest) (tables : RecordTables) (stem : Bytes) :
    Nat → Option Bytes → Result (List (Bytes × Bytes))
  | 0, _ => .ok []
  | fuel + 1, after => do
    match ← tables.nextAfter hash stem after with
    | none => return []
    | some (key, value) => return (key, value) :: (← tables.iterateFrom hash stem fuel (some key))

end RecordTables

end IronGraph

import HakoDB.Storage.Maintenance

/-! The other ways in which a shard's index changes: tombstones dropped from memory, durable removals,
the blob writer's swaps, writes that keep their timestamps, and the shard's own batches. -/
namespace HakoDB
open ByteCodec HashMap

inductive StorageMutation
  | put (key : String) (value : Bytes)
  | delete (key : String)

def StorageMutation.key : StorageMutation → String
  | .put key _ | .delete key => key

namespace StorageEngine
variable (crc : Bytes → UInt32) (zstd : Option Zstd) (orders : TableOrders)

def tombstones (s : StorageEngine) : List (String × Int64) :=
  (orders.index.entries s.index).filterMap fun
    | (key,.deleted timestamp) => some (key,timestamp)
    | _ => none

/-- Drop the tombstones from the index. No record is logged. -/
def purgeTombstones (s : StorageEngine) : StorageEngine :=
  s.updateAll ((s.tombstones orders).map fun e => (e.1,none))

/-- Drop the tombstones that are old enough, straight from the index. -/
def purgeOldTombstones (now maxAge : Int64) (s : StorageEngine) : StorageEngine :=
  let expired := (s.tombstones orders).filter fun e => ¬now-e.2 < maxAge
  {s with index := eraseAll s.index (expired.map Prod.fst)}

/-- Log a delete for every key, then drop the entries. -/
def hardDeleteKeys (instant : ℕ) (now : Int64) (s : StorageEngine) (keys : List String) : StorageEngine :=
  if keys = [] then s
  else {s with
    nextTxId := s.nextTxId+1
    wal := s.wal.appendBatchFast crc instant s.nextTxId (keys.map fun k => .delete k now) false
    index := eraseAll s.index keys}

/-- A pending document of the given time gives way to the bytes the blob writer was handed. -/
def swapPending (s : StorageEngine) (key : String) (skeleton : Bytes) (timestamp : Int64) : StorageEngine :=
  match s.index.lookup key with
  | some (.blobPending doc) =>
    if doc.getLogicalTime = timestamp then s.updateIndexEntry key (some (.inlined skeleton)) else s
  | _ => s

def writeBlob (s : StorageEngine) : BlobWork → StorageEngine
  | .putRaw _ _ _ offset data _ _ => {s with blobManager := s.blobManager.map fun bm => bm.writeAt data offset}
  | .put _ _ _ => s

/-- One queued item of a drain: write the blob, and swap if the item carries the document. -/
def drainOne (s : StorageEngine) (w : BlobWork) : StorageEngine :=
  match w with
  | .putRaw _ key skeleton _ _ timestamp _ =>
    if skeleton ≠ [] then (s.writeBlob w).swapPending key skeleton timestamp else s.writeBlob w
  | .put _ _ _ => s

def drainBlobQueue (s : StorageEngine) : StorageEngine :=
  if s.blobManager.isNone then s
  else s.blobFlushQueue.foldl drainOne {s with blobFlushQueue := []}

/-- The blob worker's swap, which asks for no skeleton. -/
def applyBlobMeta (s : StorageEngine) : BlobWork → StorageEngine
  | .putRaw _ key skeleton _ _ timestamp len =>
    ({s with totalPendingBlobBytes := s.totalPendingBlobBytes-len.toNat} : StorageEngine).swapPending
      key skeleton timestamp
  | .put _ _ _ => s

/-- One round of the blob worker: up to 128 items are written, then their entries are swapped. -/
def flushBlobs (s : StorageEngine) : StorageEngine :=
  if s.blobManager.isNone then s
  else
    let batch := s.blobFlushQueue.take 128
    batch.foldl applyBlobMeta (batch.foldl writeBlob {s with blobFlushQueue := s.blobFlushQueue.drop 128})

def timestampedEntry : WalOp → Option (String × Pointer)
  | .putInlined key value => some (key,.inlined value)
  | .delete key timestamp => some (key,.deleted timestamp)
  | _ => none

/-- Replicated operations that keep their timestamps, logged and applied in order. -/
def applyTimestamped (instant : ℕ) (s : StorageEngine) (ops : List WalOp) : StorageEngine :=
  ({s with
    nextTxId := s.nextTxId+1
    wal := s.wal.appendBatchFast crc instant s.nextTxId ops true} : StorageEngine).setAll
      (ops.filterMap timestampedEntry)

/-- Replicated records as they are, appended without markers and applied in order. -/
def applyReplicatedOps (instant : ℕ) (s : StorageEngine) (ops : List WalOp) : StorageEngine :=
  ({s with wal := s.wal.appendBatch crc instant ops true} : StorageEngine).setAll (ops.filterMap pointerOf)

/-- The part of a batch that one mutation becomes: a record, an index entry, or a place in the segment. -/
inductive Planned
  | logged (op : WalOp) (entry : String × Pointer)
  | unlogged (entry : String × Pointer) (work : BlobWork)
  | toSegment (key : String) (value : Bytes)

namespace Planned

def record? : Planned → Option WalOp
  | logged op _ => some op
  | _ => none

def entry? : Planned → Option (String × Pointer)
  | logged _ e | unlogged e _ => some e
  | _ => none

def work? : Planned → Option BlobWork
  | unlogged _ w => some w
  | _ => none

def medium? : Planned → Option (String × Bytes)
  | toSegment key value => some (key,value)
  | _ => none

end Planned

def plan (s : StorageEngine) (now : Int64) : StorageMutation → Planned
  | .put key value =>
    if value.length < 4096 then .logged (.putInlined key value) (key,.inlined value)
    else if s.blobThreshold < value.length then .unlogged (key,.inlined value) (.put s.logicalName key value)
    else .toSegment key value
  | .delete key => .logged (.delete key now) (key,.deleted now)

/-- The shard's own batch: small values and deletes first, in order, then the values of the segment. -/
def applyBatch (instant : ℕ) (now : Int64) (s : StorageEngine) (mutations : List StorageMutation)
    (isRemote : Bool) : Res (List BlobWork × StorageEngine) :=
  if mutations = [] then .ok ([],s)
  else do
    let txId := s.nextTxId
    let s ← ({s with nextTxId := s.nextTxId+1} : StorageEngine).maybeRotateActiveSegment
    let planned := mutations.map (s.plan now)
    let medium := planned.filterMap Planned.medium?
    match s.segments.lookup s.activeSegmentId with
    | none => .error .panic
    | some m =>
      let (places,segment) := m.segment.appendBatch (medium.map Prod.snd)
      let placed := List.zipWith (fun p kv => (kv.1,p)) places medium
      let ops := planned.filterMap Planned.record?++placed.map fun e => .put e.1 s.activeSegmentId e.2.1 e.2.2
      let entries := planned.filterMap Planned.entry?++
        placed.map fun e => (e.1,.segment s.activeSegmentId e.2.1 e.2.2)
      let s := {s with
        segments := s.segments.insert s.activeSegmentId {m with segment := segment}
        wal := s.wal.appendBatch crc instant (txRecords txId ops) isRemote}
      return (planned.filterMap Planned.work?,s.setAll entries)

end StorageEngine

end HakoDB

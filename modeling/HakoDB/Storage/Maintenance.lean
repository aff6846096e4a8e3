import HakoDB.Storage.Shard

/-! Maintenance of a shard's files: rewriting the log as a snapshot of the index, spilling inlined
documents into a segment, and merging segments. -/
namespace HakoDB
open ByteCodec HashMap

/-- The orders in which loops meet the entries of a shard's hash tables. -/
structure TableOrders where
  index : HashOrder String Pointer
  segments : HashOrder UInt64 SegmentMeta
  levels : HashOrder ℕ (List UInt64)

namespace StorageEngine
variable (crc : Bytes → UInt32) (zstd : Option Zstd) (orders : TableOrders)

/-- The record that a snapshot writes for an index entry. -/
def snapshotOp (s : StorageEngine) (key : String) : Pointer → WalOp
  | .segment segmentId offset len => .put key segmentId offset len
  | .inlined value => .putInlined key value
  | .blob offset len => .putBlob key offset len
  | .blobPending doc => .putInlined key
      (if s.blobManager.isSome then BlobManager.extractBlobsPlaceholder doc s.blobThreshold else doc).encode
  | .blobPendingData _ skeleton => .putInlined key skeleton
  | .deleted timestamp => .delete key timestamp

def snapshotOps (s : StorageEngine) : List WalOp :=
  (orders.index.entries s.index).map fun e => s.snapshotOp e.1 e.2

/-- Empty the log, then append the snapshot, which carries no transaction markers. -/
def rewriteWalSnapshot (now : ℕ) (s : StorageEngine) : StorageEngine :=
  {s with wal := s.wal.reset.appendBatch crc now (s.snapshotOps orders) false}

/-- Most of the log is history: it is past the threshold and over three times the live inlined bytes. -/
def walSnapshotWorthwhile (s : StorageEngine) : Bool :=
  s.compactionThresholdBytes < s.wal.dataLen && min (s.inlinedBytes*3) (2^64-1) < s.wal.dataLen

def flushWal (now : ℕ) (s : StorageEngine) : StorageEngine := {s with wal := s.wal.flush now}

/-- A new empty segment becomes the active one. -/
def rotate (s : StorageEngine) : StorageEngine :=
  {s with
    nextSegmentId := s.nextSegmentId+1
    segments := s.segments.insert s.nextSegmentId ⟨0,Segment.openFile [] s.nextSegmentId s.encryption⟩
    activeSegmentId := s.nextSegmentId}

def maybeRotateActiveSegment (s : StorageEngine) : Res StorageEngine :=
  match s.segments.lookup s.activeSegmentId with
  | none => .error (.error (.corrupt "active segment missing"))
  | some m => .ok (if m.segment.currentSize < max s.compactionThresholdBytes (1024*1024) then s else s.rotate)

def inlinedEntries (s : StorageEngine) : List (String × Bytes) :=
  (orders.index.entries s.index).filterMap fun
    | (key,.inlined data) => some (key,data)
    | _ => none

/-- The inlined documents in a new segment, with the pointers to them. -/
def spill (s : StorageEngine) : HMap String Pointer × Segment :=
  Segment.compactSegment zstd (Segment.openFile [] s.nextSegmentId s.encryption) (s.inlinedEntries orders)
    s.nextSegmentId s.useCompression

/-- The index and the segments after a spill, before the log is rewritten. -/
def spilled (s : StorageEngine) : StorageEngine :=
  let (pointers,target) := s.spill zstd orders
  let s' := (orders.index.entries pointers).foldl (fun s e => s.updateIndexEntry e.1 (some e.2))
    {s with nextSegmentId := s.nextSegmentId+1}
  {s' with segments := s'.segments.insert s.nextSegmentId ⟨0,target⟩}

/-- Over the memory limit, and there is something to spill. -/
def checkpointDue (s : StorageEngine) : Bool :=
  decide (s.maxInlinedBytes ≤ s.inlinedBytes) && !(s.inlinedEntries orders).isEmpty

def checkpointInlinedData (now : ℕ) (s : StorageEngine) : Bool × StorageEngine :=
  if s.checkpointDue orders then (true,(s.spilled zstd orders).rewriteWalSnapshot crc orders now)
  else (false,s)

def segmentEntry (ids : List UInt64) (s : StorageEngine) (out : List (String × Bytes)) (e : String × Pointer) :
    Res (List (String × Bytes)) :=
  match e.2 with
  | .segment segmentId _ _ =>
    if segmentId ∈ ids then do
      match ← s.readPointer zstd e.2 with
      | some value => return out++[(e.1,value)]
      | none => return out
    else .ok out
  | _ => .ok out

/-- The documents that live in the given segments; an unreadable one stops the loop. -/
def segmentEntries (ids : List UInt64) (s : StorageEngine) : Res (List (String × Bytes)) :=
  (orders.index.entries s.index).foldlM (s.segmentEntry zstd ids) []

/-- A full compaction first closes the active segment if anything was appended to it. -/
def forceRotation (s : StorageEngine) : StorageEngine :=
  if (s.segments.lookup s.activeSegmentId).any fun m => decide (0 < m.segment.currentSize) then s.rotate else s

def immutableIds (s : StorageEngine) : List UInt64 :=
  ((orders.segments.entries s.segments).map Prod.fst).filter (· ≠ s.activeSegmentId)

def eraseSegments (s : StorageEngine) (ids : List UInt64) : StorageEngine :=
  {s with segments := eraseAll s.segments ids}

def compactionTarget (s : StorageEngine) (entries : List (String × Bytes)) : HMap String Pointer × Segment :=
  Segment.compactSegment zstd (Segment.openFile [] s.nextSegmentId s.encryption) entries s.nextSegmentId
    s.useCompression

/-- The swap of a full compaction, before the log is rewritten. -/
def compacted (s : StorageEngine) (ids : List UInt64) (entries : List (String × Bytes)) : StorageEngine :=
  let (pointers,target) := s.compactionTarget zstd entries
  let s' := s.eraseSegments ids
  {s' with
    nextSegmentId := s.nextSegmentId+1
    segments := s'.segments.insert s.nextSegmentId ⟨1,target⟩
    index := insertAll s.index (orders.index.entries pointers)}

def compact (now : ℕ) (s : StorageEngine) : Res StorageEngine := do
  let s := s.forceRotation
  let ids := s.immutableIds orders
  if ids = [] then
    return if s.walSnapshotWorthwhile then s.rewriteWalSnapshot crc orders now else s
  else
    let entries ← s.segmentEntries zstd orders ids
    return (s.compacted zstd orders ids entries).rewriteWalSnapshot crc orders now

end StorageEngine

/-- A merge of two segments of one level, on its way. -/
structure TierPrep where
  level : ℕ
  s1 : UInt64
  s2 : UInt64
  targetId : UInt64

namespace StorageEngine
variable (crc : Bytes → UInt32) (zstd : Option Zstd) (orders : TableOrders)

/-- The segments that are not active, by level. -/
def byLevel (s : StorageEngine) : HMap ℕ (List UInt64) :=
  (orders.segments.entries s.segments).foldl (fun m e =>
    if e.1 = s.activeSegmentId then m
    else m.insert e.2.level ((m.lookup e.2.level).getD []++[e.1])) ∅

/-- The first level that is met with two segments. -/
def tierCandidate (s : StorageEngine) : Option (ℕ × UInt64 × UInt64) :=
  (orders.levels.entries (s.byLevel orders)).findSome? fun
    | (level,s1::s2::_) => some (level,s1,s2)
    | _ => none

def tierPrepare (s : StorageEngine) : Option (TierPrep × StorageEngine) :=
  (s.tierCandidate orders).map fun (level,s1,s2) =>
    (⟨level,s1,s2,s.nextSegmentId⟩,{s with nextSegmentId := s.nextSegmentId+1})

def sourcesOk (s : StorageEngine) (prep : TierPrep) : Bool :=
  [prep.s1,prep.s2].all fun id => (s.segments.lookup id).any fun m => m.level = prep.level

/-- Only an entry that still points into a merged segment is moved. -/
def moveMerged (prep : TierPrep) (index : HMap String Pointer) (e : String × Pointer) : HMap String Pointer :=
  match index.lookup e.1 with
  | some (.segment segmentId _ _) =>
    if segmentId = prep.s1 ∨ segmentId = prep.s2 then index.insert e.1 e.2 else index
  | _ => index

/-- The swap of a merge, before the log is rewritten. -/
def merged (s : StorageEngine) (prep : TierPrep) (pointers : HMap String Pointer) (target : Segment) :
    StorageEngine :=
  let s' := s.eraseSegments [prep.s1,prep.s2]
  {s' with
    index := (orders.index.entries pointers).foldl (moveMerged prep) s.index
    segments := s'.segments.insert prep.targetId ⟨prep.level+1,target⟩}

/-- Sources that are gone abort the merge; otherwise the new log is flushed at once. -/
def tierCommit (now : ℕ) (s : StorageEngine) (prep : TierPrep) (pointers : HMap String Pointer)
    (target : Segment) : Bool × StorageEngine :=
  if s.sourcesOk prep then
    (true,((s.merged orders prep pointers target).rewriteWalSnapshot crc orders now).flushWal now)
  else (false,s)

def tryCompactTiers (now : ℕ) (s : StorageEngine) : Res (Bool × StorageEngine) :=
  match s.tierPrepare orders with
  | none => .ok (false,s)
  | some (prep,s) => do
    let entries ← s.segmentEntries zstd orders [prep.s1,prep.s2]
    let (pointers,target) := Segment.compactSegment zstd (Segment.openFile [] prep.targetId s.encryption)
      entries prep.targetId s.useCompression
    return s.tierCommit crc orders now prep pointers target

/-- The tick: a flush if one is due, a rotation, and a checkpoint unless heavy work is put off. -/
def runBackgroundMaintenance (now : ℕ) (deferHeavy : Bool) (s : StorageEngine) : Res StorageEngine := do
  let s := if s.wal.shouldTickFlush now then s.flushWal now else s
  let s ← s.maybeRotateActiveSegment
  return if deferHeavy then s else (s.checkpointInlinedData crc zstd orders now).2

/-- Replay, and one rewrite of the log if history dominates it. -/
def openRecovered (now : ℕ) (s : StorageEngine) : Res StorageEngine := do
  let (_,s) ← s.recover crc
  return if s.walSnapshotWorthwhile then (s.rewriteWalSnapshot crc orders now).flushWal now else s

end StorageEngine

end HakoDB

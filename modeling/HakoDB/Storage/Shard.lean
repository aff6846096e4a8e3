import HakoDB.Lib.SortedList
import HakoDB.Storage.Segment
import HakoDB.Storage.WalLog

/-! One collection's storage engine: the index from keys to pointers, the counters and the sorted
view that go with it, reading through a pointer, and recovery from the log. -/
namespace HakoDB
open ByteCodec HashMap

structure SegmentMeta where
  level : ℕ
  segment : Segment

structure StorageEngine where
  segments : HMap UInt64 SegmentMeta
  activeSegmentId : UInt64
  nextSegmentId : UInt64
  wal : Wal
  nextTxId : UInt64
  compactionThresholdBytes : ℕ
  encryption : Option EncryptionContext
  inlinedBytes : ℕ
  maxInlinedBytes : ℕ
  blobThreshold : ℕ
  useCompression : Bool
  collectionCounts : HMap String ℕ
  index : HMap String Pointer
  sortedKeys : List String
  blobManager : Option BlobManager
  logicalName : String
  blobFlushQueue : List BlobWork
  totalPendingBlobBytes : ℕ

namespace StorageEngine

/-- A shard as it is opened, before its log is replayed; collections of the engine itself reserve no
log space. -/
def unrecovered (cfg : HakoConfig) (logicalName : String) (encryption : Option EncryptionContext)
    (now : ℕ) (walFile blobFile : Bytes) (segments : HMap UInt64 SegmentMeta) (maxId : UInt64) :
    StorageEngine where
  segments := segments
  activeSegmentId := maxId
  nextSegmentId := maxId+1
  wal := (Wal.openFile walFile cfg.durabilityMode cfg.groupCommitMaxOps encryption
    (if logicalName.startsWith "__" then 0 else cfg.walReserveBytes) now).setGroupCommitInterval
      cfg.groupCommitIntervalMs
  nextTxId := 1
  compactionThresholdBytes := cfg.autoCompactionThresholdBytes
  encryption := encryption
  inlinedBytes := 0
  maxInlinedBytes := cfg.maxInlinedMemoryBytes
  blobThreshold := cfg.valueBlobThresholdBytes
  useCompression := cfg.useCompression
  collectionCounts := ∅
  index := ∅
  sortedKeys := []
  blobManager := some ⟨blobFile,UInt64.ofNat blobFile.length⟩
  logicalName := logicalName
  blobFlushQueue := []
  totalPendingBlobBytes := 0

/-- The first segment of a collection without any. -/
def firstSegment (encryption : Option EncryptionContext) : HMap UInt64 SegmentMeta :=
  (∅ : HMap UInt64 SegmentMeta).insert 0 ⟨0,Segment.openFile [] 0 encryption⟩

/-- The shard of a collection that has no files yet. -/
def fresh (cfg : HakoConfig) (logicalName : String) (encryption : Option EncryptionContext) (now : ℕ) :
    StorageEngine :=
  {unrecovered cfg logicalName encryption now [] [] (firstSegment encryption) 0 with
    collectionCounts := (∅ : HMap String ℕ).insert logicalName 0}

def isLive (s : StorageEngine) (key : String) : Bool := (s.index.lookup key).any Pointer.isLive

/-- A live key of the collection more or less. -/
def countTransition (s : StorageEngine) (oldWasLive newIsLive : Bool) : HMap String ℕ :=
  if oldWasLive && !newIsLive then
    match s.collectionCounts.lookup s.logicalName with
    | some n => s.collectionCounts.insert s.logicalName (n-1)
    | none => s.collectionCounts
  else if !oldWasLive && newIsLive then
    s.collectionCounts.insert s.logicalName ((s.collectionCounts.lookup s.logicalName).getD 0+1)
  else s.collectionCounts

/-- Set or remove an index entry, with the byte and key counts. -/
def applyPointer (s : StorageEngine) (key : String) (new : Option Pointer) : StorageEngine :=
  let old := s.index.lookup key
  {s with
    index := match new with
      | some p => s.index.insert key p
      | none => s.index.erase key
    inlinedBytes := s.inlinedBytes+(new.map Pointer.inlinedLen).getD 0-(old.map Pointer.inlinedLen).getD 0
    collectionCounts := s.countTransition (old.any Pointer.isLive) (new.any Pointer.isLive)}

def updateIndexEntry (s : StorageEngine) (key : String) (new : Option Pointer) : StorageEngine :=
  {s.applyPointer key new with
    sortedKeys := if new.any Pointer.isLive then SortedList.insert s.sortedKeys key
      else SortedList.remove s.sortedKeys key}

/-- The same, with the sorted view left for later: the key is noted when its place in the view
has to change. -/
def updateIndexEntryDeferred (s : StorageEngine) (key : String) (new : Option Pointer)
    (pending : List String) : StorageEngine × List String :=
  (s.applyPointer key new,
    if new.any Pointer.isLive ≠ (SortedList.search s.sortedKeys key).isOk then pending++[key] else pending)

/-- Every noted key sorts behind the whole view. -/
def tailOk (view pending : List String) : Bool :=
  match view.getLast?,pending.head? with
  | none,_ => true
  | some last,some k => decide (last < k)
  | some _,none => false

/-- Bring the sorted view up to date for the noted keys: append them, put them in one by one, or
merge them in. -/
def flushPendingSorted (s : StorageEngine) (pending : List String) : StorageEngine :=
  if pending = [] then s
  else
    let pending := (pending.insertionSort (· ≤ ·)).destutter (· ≠ ·)
    {s with sortedKeys :=
      if tailOk s.sortedKeys pending && pending.all s.isLive then s.sortedKeys++pending
      else if pending.length ≤ 32 then
        pending.foldl (fun keys k => if s.isLive k then SortedList.insert keys k
          else SortedList.remove keys k) s.sortedKeys
      else SortedList.merge s.isLive pending s.sortedKeys}

/-- A loop of deferred updates and the view brought up to date after it. -/
def updateAll (s : StorageEngine) (updates : List (String × Option Pointer)) : StorageEngine :=
  let (s,pending) := updates.foldl
    (fun acc u => acc.1.updateIndexEntryDeferred u.1 u.2 acc.2) (s,[])
  s.flushPendingSorted pending

def setAll (s : StorageEngine) (updates : List (String × Pointer)) : StorageEngine :=
  s.updateAll (updates.map fun u => (u.1,some u.2))

section reading
variable (zstd : Option Zstd)

def readPointer (s : StorageEngine) : Pointer → Res (Option Bytes)
  | .blobPending doc => .ok (some doc.encode)
  | .inlined data => .ok (some data)
  | .blob offset len =>
    match s.blobManager with
    | some bm => .ok (some (bm.readAt offset len))
    | none => .error .panic
  | .blobPendingData data _ => .ok (some data)
  | .segment segmentId offset len =>
    match s.segments.lookup segmentId with
    | none => .ok none
    | some m => (m.segment.readAt zstd offset len).map some
  | .deleted _ => .ok none

def get (s : StorageEngine) (key : String) : Res (Option Bytes) :=
  match s.index.lookup key with
  | some p => s.readPointer zstd p
  | none => .ok none

end reading

/-- The bytes of a live key. -/
def liveBytes (zstd : Option Zstd) (s : StorageEngine) (k : String) : Option Bytes :=
  match s.get zstd k with
  | .ok b => b
  | .error _ => none

/-- Following a pointer looks at the segments and the content of the blob file. -/
theorem readPointer_congr {zstd : Option Zstd} {s t : StorageEngine} (hseg : t.segments = s.segments)
    (hblob : t.blobManager.map BlobManager.file = s.blobManager.map BlobManager.file) (p : Pointer) :
    t.readPointer zstd p = s.readPointer zstd p := by
  cases p with
  | blob offset len =>
    cases ht : t.blobManager <;> cases hs : s.blobManager <;>
      simp_all [readPointer,BlobManager.readAt]
  | segment segmentId offset len => simp [readPointer,hseg]
  | _ => rfl

theorem get_congr {zstd : Option Zstd} {s t : StorageEngine} {k : String}
    (hindex : t.index.lookup k = s.index.lookup k) (hseg : t.segments = s.segments)
    (hblob : t.blobManager.map BlobManager.file = s.blobManager.map BlobManager.file) :
    t.get zstd k = s.get zstd k := by
  unfold get
  rw [hindex]
  cases s.index.lookup k with
  | none => rfl
  | some p => exact readPointer_congr hseg hblob p

/-- The pointer that a replayed record sets. -/
def pointerOf : WalOp → Option (String × Pointer)
  | .put key segmentId segmentOffset len => some (key,.segment segmentId segmentOffset len)
  | .delete key timestamp => some (key,.deleted timestamp)
  | .beginTx _ | .commitTx _ => none
  | .putInlined key value => some (key,.inlined value)
  | .putBlob key offset len => some (key,.blob offset len)

def updateIndexEntryNosort (s : StorageEngine) (key : String) (new : Pointer) : StorageEngine :=
  {s with
    index := s.index.insert key new
    inlinedBytes := s.inlinedBytes+new.inlinedLen-((s.index.lookup key).map Pointer.inlinedLen).getD 0}

def replayOp (s : StorageEngine) (op : WalOp) : StorageEngine :=
  match pointerOf op with
  | some (key,p) => s.updateIndexEntryNosort key p
  | none => s

/-- Rebuild the index from the log, then the sorted view and the live count from the index. -/
def recover (crc : Bytes → UInt32) (s : StorageEngine) : Res (ℕ × StorageEngine) := do
  let (ops,wal) ← s.wal.replay crc
  let s := ops.foldl replayOp {s with wal := wal}
  let keys := (HashMap.sortedKeys s.index).filter s.isLive
  return (ops.length,
    {s with sortedKeys := keys, collectionCounts := s.collectionCounts.insert s.logicalName keys.length})

end StorageEngine

end HakoDB

import HakoDB.Engine.Schema
import HakoDB.Storage.Shard

/-! The write path: the mutations of a batch are first prepared one by one against the stored state,
as log records grouped by collection; each collection's work is then logged and applied to its shard,
all of its puts before all of its deletes. -/
namespace HakoDB
open ByteCodec HashMap

inductive BatchMutation
  | put (collection docId : String) (doc : HakoDoc)
  | delete (collection docId : String)
  | softDelete (collection docId : String)
  | patch (collection docId : String) (updates : List (String × Value))

namespace BatchMutation

def collection : BatchMutation → String
  | put c _ _ | delete c _ | softDelete c _ | patch c _ _ => c

def docId : BatchMutation → String
  | put _ d _ | delete _ d | softDelete _ d | patch _ d _ => d

end BatchMutation

/-- The admission gate of the unique indexes, over a ledger of claimed tuples. -/
structure UniqueGate (Ledger : Type) where
  gateAdmit : Ledger → String → String → HakoDoc → Except HakoError Ledger
  gateRelease : Ledger → String → String → Ledger

/-- A batch of changes on its way to the index worker. -/
structure IndexUpdate where
  collection : String
  puts : List (String × HakoDoc)
  deletes : List (String × HakoDoc)

structure ShardWork where
  ops : List WalOp
  keys : List String
  deleted : List String
  indexPuts : List (String × HakoDoc)
  blobQueueItems : List BlobWork

def ShardWork.empty : ShardWork := ⟨[],[],[],[],[]⟩

structure Hako (Ledger : Type) where
  shards : HMap String StorageEngine
  openShard : String → Res StorageEngine
  config : HakoConfig
  schemaEnabled : Bool
  schemas : HMap String CollectionSchema
  uniqueLedger : Ledger
  lastTsWatermark : Int64
  idSequence : UInt16
  docVersions : HMap String ℕ
  globalVersion : ℕ
  indexTouched : List String
  indexQueue : List IndexUpdate
  localOnlyCols : List String

/-- What the engine takes from outside: the checksum, the compressor, the unique gate and the order
in which the hash table of a batch's collections is met. -/
structure Env (Ledger : Type) where
  crc : Bytes → UInt32
  zstd : Option Zstd
  gate : UniqueGate Ledger
  order : HashOrder String ShardWork

/-- The clocks at the call: wall-clock nanoseconds and the milliseconds of the log's timer. -/
structure Clock where
  nanos : Int64
  instant : ℕ

def softdelCollection : String := "__hako_softdel"

def hexDigit (n : ℕ) : Char := ("0123456789abcdef".toList[n%16]?).getD '0'

/-- The last `width` hexadecimal digits of a number. -/
def hexDigits (width n : ℕ) : List Char := (List.range width).reverse.map fun i => hexDigit (n/16^i)

def buildRecord (col id : String) (deletedAt scheduledAt : Int64) (payload : Bytes) : HakoDoc :=
  let rec0 := HakoDoc.empty.insert "col" (.string col)
  let rec1 := rec0.insert "id" (.string id)
  let rec2 := rec1.insert "deleted_at" (.int deletedAt)
  let rec3 := rec2.insert "scheduled_at" (.int scheduledAt)
  {rec3.insert "payload" (.binary payload) with time := deletedAt}

namespace Hako
variable {Ledger : Type}

def getShard (h : Hako Ledger) (collection : String) : Res (StorageEngine × Hako Ledger) :=
  match h.shards.lookup collection with
  | some s => .ok (s,h)
  | none => do
    let s ← h.openShard collection
    return (s,{h with shards := h.shards.insert collection s})

def generateSortableId (h : Hako Ledger) (nanos : Int64) : String × Hako Ledger :=
  (.ofList (hexDigits 16 nanos.toUInt64.toNat++hexDigits 4 h.idSequence.toNat),
    {h with idSequence := h.idSequence+1})

def applySchema (h : Hako Ledger) (collection : String) (doc : HakoDoc) : Res HakoDoc :=
  if h.schemaEnabled then
    match h.schemas.lookup collection with
    | some schema => schema.apply collection doc
    | none => .ok doc
  else .ok doc

/-- The record that keeps a soft-deleted document's bytes until its retention ends. -/
def softdelRecord (zstd : Option Zstd) (h : Hako Ledger) (col docId : String) (now : Int64) :
    Option (String × HakoDoc) :=
  if h.config.softDeleteRetentionSecs = 0 then none
  else do
    let s ← h.shards.lookup col
    match s.get zstd docId with
    | .ok (some bytes) =>
      let scheduledAt := now+h.config.softDeleteRetentionSecs.toInt64*1000000
      return (col++"/"++docId,buildRecord col docId now scheduledAt bytes)
    | _ => none

end Hako

/-- The batch while its mutations are prepared. -/
structure Prep (Ledger : Type) where
  hako : Hako Ledger
  works : HMap String ShardWork
  assignedIds : List String

namespace Prep
variable {Ledger : Type}

def work (p : Prep Ledger) (collection : String) : ShardWork := (p.works.lookup collection).getD .empty

def setWork (p : Prep Ledger) (collection : String) (w : ShardWork) : Prep Ledger :=
  {p with works := p.works.insert collection w}

/-- A soft delete first puts its record into the system collection. -/
def pushRecord (zstd : Option Zstd) (now : Int64) (p : Prep Ledger) (col docId : String) : Prep Ledger :=
  match p.hako.softdelRecord zstd col docId now with
  | none => p
  | some (recId,recDoc) =>
    let w := p.work softdelCollection
    p.setWork softdelCollection
      {w with
        ops := w.ops++[.putInlined recId recDoc.encode]
        indexPuts := w.indexPuts++[(recId,recDoc)]
        keys := w.keys++[recId]
        deleted := w.deleted.erase recId}

def pushDelete (gate : UniqueGate Ledger) (now : Int64) (p : Prep Ledger) (col docId : String) :
    Prep Ledger :=
  let w := p.work col
  {p.setWork col
      {w with
        ops := w.ops++[.delete docId now]
        keys := w.keys++[docId]
        deleted := if docId ∈ w.deleted then w.deleted else docId::w.deleted} with
    hako := {p.hako with uniqueLedger := gate.gateRelease p.hako.uniqueLedger col docId}}

/-- Move the large fields out, through the shard's blob manager if it has one. -/
def extractBlobs (h : Hako Ledger) (s : StorageEngine) (col docId : String) (doc : HakoDoc) :
    Hako Ledger × HakoDoc × List BlobWork :=
  match s.blobManager with
  | none => (h,doc,[])
  | some bm =>
    let (bm,doc,work) := bm.extractBlobs col docId doc h.config.valueBlobThresholdBytes
    ({h with shards := h.shards.insert col {s with blobManager := some bm}},doc,work)

def pushPut (gate : UniqueGate Ledger) (now : Int64) (p : Prep Ledger) (col docId : String)
    (doc : HakoDoc) : Res (Prep Ledger) := do
  let (s,h) ← p.hako.getShard col
  let (h,doc,blobWork) := extractBlobs h s col docId {doc with time := now}
  match gate.gateAdmit h.uniqueLedger col docId doc with
  | .error e => .error (.error e)
  | .ok ledger =>
    let w := p.work col
    return {p.setWork col
        {w with
          ops := w.ops++[.putInlined docId doc.encode]
          indexPuts := w.indexPuts++[(docId,doc)]
          keys := w.keys++[docId]
          deleted := w.deleted.erase docId
          blobQueueItems := w.blobQueueItems++blobWork} with
      hako := {h with uniqueLedger := ledger}}

end Prep

def insertAllFields (doc : HakoDoc) (updates : List (String × Value)) : HakoDoc :=
  updates.foldl (fun d u => d.insert u.1 u.2) doc

namespace Hako
variable {Ledger : Type} (env : Env Ledger)

/-- The document that a mutation brings; a patch starts from the stored one. -/
def resolveDoc (h : Hako Ledger) : BatchMutation → Res (Hako Ledger × HakoDoc)
  | .put _ _ doc => .ok (h,doc)
  | .patch collection docId updates => do
    let (s,h) ← h.getShard collection
    let bytes ← s.get env.zstd docId
    return (h,insertAllFields ((bytes.bind HakoDoc.decode).getD .empty) updates)
  | .delete _ _ | .softDelete _ _ => .ok (h,.empty)

def assignId (h : Hako Ledger) (nanos : Int64) (docId : String) : String × Hako Ledger :=
  if docId = "" then h.generateSortableId nanos else (docId,h)

def prepareOne (nanos now : Int64) (p : Prep Ledger) (m : BatchMutation) : Res (Prep Ledger) := do
  let (h,doc) ← p.hako.resolveDoc env m
  let (docId,h) := h.assignId nanos m.docId
  let p := {p with hako := h, assignedIds := p.assignedIds++[docId]}
  match m with
  | .delete col _ => return p.pushDelete env.gate now col docId
  | .softDelete col _ => return (p.pushRecord env.zstd now col docId).pushDelete env.gate now col docId
  | .put col _ _ | .patch col _ _ => do
    let doc ← h.applySchema col doc
    p.pushPut env.gate now col docId doc

variable {env} {nanos now : Int64} {h h1 : Hako Ledger} {p p' : Prep Ledger} {m : BatchMutation}

/-- Only a patch opens the shard. -/
theorem resolveDoc_cases {doc : HakoDoc} (hres : h.resolveDoc env m = .ok (h1,doc)) :
    h1 = h ∨ ∃ col s,h.getShard col = .ok (s,h1) := by
  cases m with
  | patch col docId updates =>
    obtain ⟨⟨s,h2⟩,hget,hres⟩ := bind_eq_ok.1 hres
    obtain ⟨bytes,-,hres⟩ := bind_eq_ok.1 hres
    cases hres
    exact .inr ⟨col,s,hget⟩
  | _ =>
    cases hres
    exact .inl rfl

/-- What the preparation of a mutation comes to when its id is known. -/
theorem prepareOne_cases (hprep : prepareOne env nanos now p m = .ok p') :
    ∃ (h1 : Hako Ledger) (doc : HakoDoc) (id : String) (q : Prep Ledger),
    p.hako.resolveDoc env m = .ok (h1,doc) ∧ id = (h1.assignId nanos m.docId).1 ∧
    q = ⟨(h1.assignId nanos m.docId).2,p.works,p.assignedIds++[id]⟩ ∧
    (p' = q.pushDelete env.gate now m.collection id ∨
      (∃ col docId,m = .softDelete col docId) ∧
        p' = (q.pushRecord env.zstd now m.collection id).pushDelete env.gate now m.collection id ∨
      ∃ doc',q.pushPut env.gate now m.collection id doc' = .ok p') := by
  obtain ⟨⟨h1,doc⟩,hres,hrest⟩ := bind_eq_ok.1 hprep
  refine ⟨h1,doc,_,_,hres,rfl,rfl,?_⟩
  cases m with
  | delete col docId => exact .inl (Except.ok.inj hrest).symm
  | softDelete col docId => exact .inr (.inl ⟨⟨col,docId,rfl⟩,(Except.ok.inj hrest).symm⟩)
  | put col docId doc' | patch col docId updates =>
    obtain ⟨doc1,-,hpush⟩ := bind_eq_ok.1 hrest
    exact .inr (.inr ⟨doc1,hpush⟩)

end Hako

namespace ShardWork

/-- The n-th inlined put belongs to the n-th document handed to the indexer. -/
def putUpdates (w : ShardWork) : List (String × Pointer) :=
  List.zipWith (fun value put => (put.1,.inlined value))
    (w.ops.filterMap fun | .putInlined _ value => some value | _ => none) w.indexPuts

def deleteUpdates (w : ShardWork) : List (String × Pointer) :=
  w.ops.filterMap fun | .delete key timestamp => some (key,.deleted timestamp) | _ => none

/-- The stored documents that the batch deletes, for the indexer. -/
def indexDeletes (zstd : Option Zstd) (w : ShardWork) (s : StorageEngine) : List (String × HakoDoc) :=
  w.ops.filterMap fun
    | .delete key _ =>
      match s.get zstd key with
      | .ok (some bytes) => (HakoDoc.decode bytes).map fun doc => (key,doc)
      | _ => none
    | _ => none

end ShardWork

namespace StorageEngine

/-- Log the work of a batch and apply it: the puts in order, then the deletes in order. -/
def applyWork (crc : Bytes → UInt32) (instant : ℕ) (s : StorageEngine) (w : ShardWork) : StorageEngine :=
  let s := if w.ops = [] then s else
    {s with nextTxId := s.nextTxId+1
            wal := s.wal.appendBatchFast crc instant s.nextTxId w.ops false}
  let s := s.setAll (w.putUpdates++w.deleteUpdates)
  {s with
    blobFlushQueue := s.blobFlushQueue++w.blobQueueItems
    totalPendingBlobBytes := s.totalPendingBlobBytes+(w.blobQueueItems.map BlobWork.pendingLen).sum}

end StorageEngine

namespace Hako
variable {Ledger : Type} (env : Env Ledger)

def bumpVersionsByKeys (h : Hako Ledger) (keys : List String) : Hako Ledger :=
  keys.foldl (fun h k => {h with docVersions := h.docVersions.insert k h.globalVersion,
                                 globalVersion := h.globalVersion+1}) h

def clearVersionsByKeys (h : Hako Ledger) (keys keep : List String) : Hako Ledger :=
  keys.foldl (fun h k => if k ∈ keep then h else {h with docVersions := h.docVersions.erase k}) h

/-- A late rescan of the indexes must not wipe a collection that was written to. -/
def markTouched (h : Hako Ledger) (col : String) (w : ShardWork) : Hako Ledger :=
  if w.ops = [] ∨ col ∈ h.indexTouched then h else {h with indexTouched := col::h.indexTouched}

def enqueueIndexUpdate (h : Hako Ledger) (u : IndexUpdate) : Hako Ledger :=
  if u.puts = [] ∧ u.deletes = [] then h else {h with indexQueue := h.indexQueue++[u]}

def applyShardWork (instant : ℕ) (liveKeys : List String) (h : Hako Ledger) (entry : String × ShardWork) :
    Res (Hako Ledger) := do
  let (col,w) := entry
  let (s,h) ← (h.markTouched col w).getShard col
  let h := {h with shards := h.shards.insert col (s.applyWork env.crc instant w)}
  let h := (h.bumpVersionsByKeys w.keys).clearVersionsByKeys w.deleted liveKeys
  return h.enqueueIndexUpdate ⟨col,w.indexPuts,w.indexDeletes env.zstd s⟩

/-- The stamp of a batch: never at or below one that was given before. -/
def stamp (h : Hako Ledger) (nanos : Int64) : Int64 :=
  let micros := nanos/1000
  if micros ≤ h.lastTsWatermark then
    if h.lastTsWatermark = Int64.maxValue then h.lastTsWatermark else h.lastTsWatermark+1
  else micros

def writeBatchInternal (clock : Clock) (h : Hako Ledger) (mutations : List BatchMutation) :
    Res (List String × Hako Ledger) := do
  let now := h.stamp clock.nanos
  let p ← mutations.foldlM (prepareOne env clock.nanos now) ⟨{h with lastTsWatermark := now},∅,[]⟩
  let entries := env.order.entries p.works
  let liveKeys := entries.flatMap fun e => e.2.keys.filter (· ∉ e.2.deleted)
  let h ← entries.foldlM (applyShardWork env clock.instant liveKeys) p.hako
  return (p.assignedIds,h)

end Hako

end HakoDB

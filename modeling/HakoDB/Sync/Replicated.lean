import HakoDB.Engine.WriteBatch

/-! Replicated batches. Each operation is kept if its timestamp is newer than the stored one's, as the
shard stood before the batch; the kept operations are then logged and applied in order. -/
namespace HakoDB
open ByteCodec HashMap

/-- What the first phase has kept so far. -/
structure Accepted where
  ops : List WalOp
  indexPuts : List (String × Option HakoDoc)
  blobItems : List BlobWork
  blobManager : Option BlobManager

namespace StorageEngine
variable (zstd : Option Zstd)

/-- The timestamp of a stored entry; an inlined document's is read in place. -/
def pointerTime (s : StorageEngine) : Pointer → Res Int64
  | .deleted timestamp => .ok timestamp
  | .inlined bytes => if bytes.length < 10 then .error .panic else .ok (bytesI64 ((bytes.drop 2).take 8))
  | p =>
    match s.readPointer zstd p with
    | .ok (some bytes) => .ok (((HakoDoc.decode bytes).map HakoDoc.getLogicalTime).getD 0)
    | .ok none => .ok 0
    | .error .panic => .error .panic
    | .error (.error _) => .ok 0

/-- Nothing is stored under the key, or something older than the timestamp. -/
def isNewer (s : StorageEngine) (key : String) (remoteTs : Int64) : Res Bool :=
  match s.index.lookup key with
  | none => .ok true
  | some p => do
    let localTs ← s.pointerTime zstd p
    return decide (localTs < remoteTs)

/-- One operation of the first phase, against the shard before the batch. -/
def acceptOp (collection : String) (threshold : ℕ) (s : StorageEngine) (acc : Accepted) (op : WalOp) :
    Res Accepted :=
  match op with
  | .putInlined key value =>
    match HakoDoc.decode value with
    | none => .ok acc
    | some doc => do
      if ← s.isNewer zstd key doc.getLogicalTime then
        let (bm,doc,items) := match acc.blobManager with
          | none => (none,doc,[])
          | some bm =>
            let (bm,doc,items) := bm.extractBlobs collection key doc threshold
            (some bm,doc,items)
        return {ops := acc.ops++[.putInlined key doc.encode]
                indexPuts := acc.indexPuts++[(key,some doc)]
                blobItems := acc.blobItems++items
                blobManager := bm}
      else return acc
  | .delete key timestamp => do
    if ← s.isNewer zstd key timestamp then
      return {acc with ops := acc.ops++[.delete key timestamp], indexPuts := acc.indexPuts++[(key,none)]}
    else return acc
  | _ => .ok acc

end StorageEngine

namespace Accepted

def deleteTimeOf (key : String) : WalOp → Option Int64
  | .delete k timestamp => if k = key then some timestamp else none
  | _ => none

/-- The first kept delete of the key gives the tombstone its timestamp. -/
def deleteTime (acc : Accepted) (key : String) : Int64 := (acc.ops.findSome? (deleteTimeOf key)).getD 0

def hasBlob (acc : Accepted) (key : String) : Bool :=
  acc.blobItems.any fun
    | .putRaw _ k _ _ _ _ _ => k = key
    | .put _ _ _ => false

def pointerFor (acc : Accepted) (key : String) : Option HakoDoc → Pointer
  | some doc => if acc.hasBlob key then .blobPending doc else .inlined doc.encode
  | none => .deleted (acc.deleteTime key)

def updates (acc : Accepted) : List (String × Pointer) :=
  acc.indexPuts.map fun put => (put.1,acc.pointerFor put.1 put.2)

end Accepted

namespace StorageEngine

/-- The second phase: the log without a sync, then the index, then the blob queue. -/
def commitAccepted (crc : Bytes → UInt32) (instant : ℕ) (s : StorageEngine) (acc : Accepted) : StorageEngine :=
  let s := {s with nextTxId := s.nextTxId+1
                   wal := s.wal.appendBatchFast crc instant s.nextTxId acc.ops true}
  let s := s.setAll acc.updates
  {s with
    blobFlushQueue := s.blobFlushQueue++acc.blobItems
    totalPendingBlobBytes := s.totalPendingBlobBytes+(acc.blobItems.map BlobWork.pendingLen).sum}

def acceptAll (zstd : Option Zstd) (collection : String) (threshold : ℕ) (s : StorageEngine)
    (ops : List WalOp) : Res Accepted :=
  ops.foldlM (s.acceptOp zstd collection threshold) ⟨[],[],[],s.blobManager⟩

/-- The shard after a replicated batch. -/
def applyReplicated (crc : Bytes → UInt32) (zstd : Option Zstd) (collection : String) (threshold instant : ℕ)
    (s : StorageEngine) (ops : List WalOp) : Res (Accepted × StorageEngine) := do
  let acc ← s.acceptAll zstd collection threshold ops
  let s := {s with blobManager := acc.blobManager}
  return (acc,if acc.ops = [] then s else s.commitAccepted crc instant acc)

end StorageEngine

/-- The part behind the first colon, or the whole key. -/
def nakedId (key : String) : String :=
  match key.toList.dropWhile (· ≠ ':') with
  | _::rest => .ofList rest
  | [] => key

namespace Hako
variable {Ledger : Type} (env : Env Ledger)

def skewCeilingMicros : Int64 := 100*365*24*60*60*1000000

/-- An accepted timestamp raises the floor of the local stamps. -/
def observeRemoteTs (nowMicros : Int64) (h : Hako Ledger) (ts : Int64) : Hako Ledger :=
  let effective := min ts (nowMicros+skewCeilingMicros)
  if h.lastTsWatermark < effective then {h with lastTsWatermark := effective} else h

def acceptedTime (put : String × Option HakoDoc) (op : WalOp) : Int64 :=
  match put.2,op with
  | some doc,_ => doc.getLogicalTime
  | none,.delete _ timestamp => timestamp
  | none,_ => 0

/-- A collection that is local only refuses everything, and so does one whose shard does not open. -/
def applyReplicatedBatch (instant : ℕ) (nowMicros : Int64) (h : Hako Ledger) (collection : String)
    (ops : List WalOp) : Res (Hako Ledger) :=
  if collection ∈ h.localOnlyCols then .ok h
  else match h.getShard collection with
    | .error .panic => .error .panic
    | .error (.error _) => .ok h
    | .ok (s,h) => do
      let (acc,s) ← s.applyReplicated env.crc env.zstd collection h.config.valueBlobThresholdBytes instant ops
      let h := (List.zipWith acceptedTime acc.indexPuts acc.ops).foldl (observeRemoteTs nowMicros)
        {h with shards := h.shards.insert collection s}
      if acc.ops = [] then return h
      else
        let h := h.bumpVersionsByKeys (acc.indexPuts.map Prod.fst)
        let docs := acc.ops.filterMap fun
          | .putInlined key value => (HakoDoc.decode value).map fun doc => (nakedId key,doc)
          | _ => none
        return if docs = [] then h else {h with indexQueue := h.indexQueue++[⟨collection,docs,[]⟩]}

end Hako

end HakoDB

import HakoDB.Engine.Sequential
import HakoDB.Storage.Crash
import HakoDB.Storage.Reservation
import HakoDB.Storage.Resegmented
import HakoDB.Storage.WalFault

/-! The two phases of a put with large values: places behind the size of the blob file are reserved, then the record is
logged and the bytes are queued for the blob writer. -/
namespace HakoDB
open ByteCodec FramedLog HashMap Places

/-- A put between its two phases: its places are reserved, its record is not logged yet. -/
structure PreparedPut where
  docId : String
  doc : HakoDoc
  work : List BlobWork

namespace StorageEngine

def reservePut (s : StorageEngine) (collection docId : String) (doc : HakoDoc) (threshold : ℕ) :
    StorageEngine × PreparedPut :=
  match s.blobManager with
  | none => (s,⟨docId,doc,[]⟩)
  | some bm =>
    let (bm,doc,work) := bm.extractBlobs collection docId doc threshold
    ({s with blobManager := some bm},⟨docId,doc,work⟩)

def commitPut (crc : Bytes → UInt32) (instant : ℕ) (s : StorageEngine) (p : PreparedPut) : StorageEngine :=
  s.applyWork crc instant ⟨[.putInlined p.docId p.doc.encode],[p.docId],[],[(p.docId,p.doc)],p.work⟩

end StorageEngine

/-- A swap of the blob writer changes the entry of the item's own key at most. -/
theorem StorageEngine.applyBlobMeta_frame (s : StorageEngine) (item : BlobWork) :
    (s.applyBlobMeta item).blobManager = s.blobManager ∧
      (s.applyBlobMeta item).blobFlushQueue = s.blobFlushQueue ∧
      (s.applyBlobMeta item).segments = s.segments ∧
      ∀ k,item.key ≠ k → (s.applyBlobMeta item).index.lookup k = s.index.lookup k := by
  cases item with
  | putRaw collection key skeleton offset data timestamp len =>
    simp only [applyBlobMeta,swapPending]
    split
    · split
      · refine ⟨rfl,rfl,rfl,fun k hk => ?_⟩
        exact (lookup_insert_ite _ _ _ _).trans (if_neg (Ne.symm hk))
      · exact ⟨rfl,rfl,rfl,fun _ _ => rfl⟩
    · exact ⟨rfl,rfl,rfl,fun _ _ => rfl⟩
  | put collection key data => exact ⟨rfl,rfl,rfl,fun _ _ => rfl⟩

theorem StorageEngine.foldl_applyBlobMeta_frame (s : StorageEngine) (items : List BlobWork) :
    (items.foldl applyBlobMeta s).blobManager = s.blobManager ∧
      (items.foldl applyBlobMeta s).blobFlushQueue = s.blobFlushQueue ∧
      (items.foldl applyBlobMeta s).segments = s.segments ∧
      ∀ k,(∀ item ∈ items,item.key ≠ k) → (items.foldl applyBlobMeta s).index.lookup k = s.index.lookup k := by
  induction items generalizing s with
  | nil => exact ⟨rfl,rfl,rfl,fun _ _ => rfl⟩
  | cons item items ih =>
    obtain ⟨hm,hq,hs,hi⟩ := s.applyBlobMeta_frame item
    obtain ⟨hm',hq',hs',hi'⟩ := ih (s.applyBlobMeta item)
    refine ⟨hm'.trans hm,hq'.trans hq,hs'.trans hs,fun k hk => ?_⟩
    exact (hi' k fun i hi => hk i (List.mem_cons_of_mem _ hi)).trans (hi k (hk item List.mem_cons_self))

/-- The bytes of an item and the position they go to. -/
def BlobWork.write? (item : BlobWork) : Option (ℕ × Bytes) := item.place?.map fun p => (p.1.toNat,p.2)

namespace Hako
variable {Ledger : Type}
variable {h : Hako Ledger} {col docId : String} {doc : HakoDoc}

/-- The places of a put are reserved in the shard that it is prepared for. -/
theorem extractBlobs_reservePut {s : StorageEngine} (hs : h.shardOf col = some s) (docId : String) (doc : HakoDoc) :
    (Prep.extractBlobs h s col docId doc).1.shardOf col =
        some (s.reservePut col docId doc h.config.valueBlobThresholdBytes).1 ∧
      (Prep.extractBlobs h s col docId doc).2 =
        ((s.reservePut col docId doc h.config.valueBlobThresholdBytes).2.doc,
          (s.reservePut col docId doc h.config.valueBlobThresholdBytes).2.work) := by
  unfold Prep.extractBlobs StorageEngine.reservePut
  cases s.blobManager with
  | none => exact ⟨hs,rfl⟩
  | some bm => exact ⟨(shardOf_withShard h col col _).trans (if_pos rfl),rfl⟩

theorem reservePut_docId (s : StorageEngine) (col docId : String) (doc : HakoDoc) (threshold : ℕ) :
    (s.reservePut col docId doc threshold).2.docId = docId := by
  unfold StorageEngine.reservePut
  cases s.blobManager <;> rfl

/-- A put that is prepared first in its batch. -/
theorem pushPut_first {gate : UniqueGate Ledger} {now : Int64} {p p' : Prep Ledger} (hworks : p.works = ∅)
    (hok : p.pushPut gate now col docId doc = .ok p') :
    ∃ s t put,p.hako.shardOf col = some s ∧
      s.reservePut col docId {doc with time := now} p.hako.config.valueBlobThresholdBytes = (t,put) ∧
      p'.hako.shardOf col = some t ∧ p'.works = (∅ : HMap String ShardWork).insert col
        ⟨[.putInlined put.docId put.doc.encode],[put.docId],[],[(put.docId,put.doc)],put.work⟩ := by
  obtain ⟨⟨s,h1⟩,hget,hrest⟩ := bind_eq_ok.1 hok
  obtain ⟨hs,rfl⟩ := getShard_ok hget
  obtain ⟨hshard,hdoc⟩ := extractBlobs_reservePut
    ((shardOf_withShard p.hako col col s).trans (if_pos rfl)) docId {doc with time := now}
  have hid := reservePut_docId s col docId {doc with time := now} p.hako.config.valueBlobThresholdBytes
  refine ⟨s,(s.reservePut col docId {doc with time := now} p.hako.config.valueBlobThresholdBytes).1,
    (s.reservePut col docId {doc with time := now} p.hako.config.valueBlobThresholdBytes).2,hs,rfl,?_⟩
  have hempty : p.work col = .empty := by simp [Prep.work,hworks]
  dsimp only at hrest
  split at hrest
  · cases hrest
  · obtain rfl := Except.ok.inj hrest
    refine ⟨hshard,?_⟩
    simp only [Prep.setWork,hworks,hempty,hdoc,hid]
    rfl

end Hako

namespace BlobWorld
variable {s : StorageEngine} {bm : BlobManager} {item : BlobWork} {offset : ℕ} {data : Bytes}

theorem writeBlob_manager (hmanager : s.blobManager = some bm) (hplace : item.write? = some (offset,data)) :
    s.writeBlob item = {s with blobManager := some ⟨pwrite offset data bm.file,bm.blobSize⟩} := by
  cases item with
  | putRaw collection key skeleton o d timestamp len =>
    obtain ⟨rfl,rfl⟩ : o.toNat = offset ∧ d = data := by simpa [BlobWork.write?,BlobWork.place?] using hplace
    simp only [StorageEngine.writeBlob,hmanager,Option.map_some]
    rfl
  | put collection key d => cases hplace

variable {out : UInt64 × List (String × Value) × List BlobWork}

theorem reservePut_eq (hmanager : s.blobManager = some bm) (collection docId : String) (doc : HakoDoc) (threshold : ℕ)
    (hout : BlobManager.extractFields collection docId doc.time threshold bm.blobSize doc.fields = out) :
    s.reservePut collection docId doc threshold =
      ({s with blobManager := some ⟨bm.file,out.1⟩},⟨docId,{doc with fields := out.2.1},
        BlobManager.attachSkeleton ({doc with fields := out.2.1} : HakoDoc).encode out.2.2⟩) := by
  subst hout
  simp only [StorageEngine.reservePut,hmanager]
  rfl

theorem encode_length (doc : HakoDoc) : doc.encode.length = 12+(encodeFields doc.fields).length := by
  simp [HakoDoc.encode,i64Bytes]
  omega

theorem commitPut_eq (crc : Bytes → UInt32) (instant : ℕ) (s : StorageEngine) (p : PreparedPut) :
    ∃ bytes counts view pending,s.commitPut crc instant p = {s with
      nextTxId := s.nextTxId+1
      wal := s.wal.appendBatchFast crc instant s.nextTxId [.putInlined p.docId p.doc.encode] false
      index := s.index.insert p.docId (.inlined p.doc.encode)
      inlinedBytes := bytes
      collectionCounts := counts
      sortedKeys := view
      blobFlushQueue := s.blobFlushQueue++p.work
      totalPendingBlobBytes := pending} := by
  obtain ⟨bytes,counts,view,hset⟩ := StorageEngine.setAll_eq {s with
    nextTxId := s.nextTxId+1
    wal := s.wal.appendBatchFast crc instant s.nextTxId [.putInlined p.docId p.doc.encode] false}
    [(p.docId,.inlined p.doc.encode)]
  refine ⟨bytes,counts,view,s.totalPendingBlobBytes+(p.work.map BlobWork.pendingLen).sum,?_⟩
  simp only [StorageEngine.commitPut,StorageEngine.applyWork]
  have hupdates : (ShardWork.putUpdates ⟨[.putInlined p.docId p.doc.encode],[p.docId],[],[(p.docId,p.doc)],p.work⟩++
      ShardWork.deleteUpdates ⟨[.putInlined p.docId p.doc.encode],[p.docId],[],[(p.docId,p.doc)],p.work⟩) =
      [(p.docId,.inlined p.doc.encode)] := rfl
  rw [if_neg (by simp),hupdates,hset]
  rfl

variable {crc : Bytes → UInt32} {cipher : Option Cipher} {a : OpenArgs} {f : ShardFiles} {log : List (LogEntry cipher)} {n : ℕ}


def textDoc (text : String) (time : Int64) : HakoDoc := ⟨[("body",.string text)],time⟩

end BlobWorld

end HakoDB

import HakoDB.Storage.Shard

/-! The index that recovery rebuilds: the pointers of the committed records, each key with its last. -/
namespace HakoDB
open ByteCodec FramedLog HashMap

/-- What the committed records of a log say about the keys. -/
def committedIndex (ops : List WalOp) : HMap String Pointer :=
  insertAll ∅ ((filterCommittedOps ops).filterMap StorageEngine.pointerOf)

namespace StorageEngine

theorem foldl_replayOp (ops : List WalOp) (s : StorageEngine) : ∃ bytes,
    ops.foldl replayOp s = {s with index := insertAll s.index (ops.filterMap pointerOf), inlinedBytes := bytes} := by
  induction ops generalizing s with
  | nil => exact ⟨s.inlinedBytes,rfl⟩
  | cons op ops ih =>
    obtain ⟨bytes,h⟩ := ih (s.replayOp op)
    refine ⟨bytes,h.trans ?_⟩
    cases op <;> rfl

/-- What an opened shard has taken from its files. -/
structure Recovered {cipher : Option Cipher} (crc : Bytes → UInt32) (log : List (LogEntry cipher))
    (s t : StorageEngine) : Prop where
  index : t.index = insertAll s.index ((filterCommittedOps (log.map Entry.value)).filterMap pointerOf)
  segments : t.segments = s.segments
  blobManager : t.blobManager = s.blobManager
  blobThreshold : t.blobThreshold = s.blobThreshold
  blobFlushQueue : t.blobFlushQueue = s.blobFlushQueue
  holds : t.wal.Holds crc log
  writeBuffer : t.wal.writeBuffer = []

theorem recover_of_image {crc : Bytes → UInt32} {cipher : Option Cipher} {log : List (LogEntry cipher)}
    {s : StorageEngine} (hc : s.wal.encryption.map EncryptionContext.cipher = cipher)
    (hb : s.wal.writeBuffer = []) {n : ℕ} (hfile : s.wal.file = image crc log++List.replicate n 0) :
    ∃ c t,s.recover crc = .ok (c,t) ∧ Recovered crc log s t := by
  obtain ⟨w,hw,hholds,hbuf⟩ := Wal.replay_image hc hb hfile
  obtain ⟨bytes,hfold⟩ := foldl_replayOp (filterCommittedOps (log.map Entry.value)) {s with wal := w}
  unfold recover
  rw [hw]
  simp only [bind,Except.bind,pure,Except.pure,hfold]
  exact ⟨_,_,rfl,rfl,rfl,rfl,rfl,rfl,hholds,hbuf⟩

end StorageEngine

end HakoDB

import HakoDB.Lib.Places
import HakoDB.Storage.Shard

/-! Reading large field values back. A link is resolved from the queue of the blob writer, by its offset, or
else from the blob file. -/
namespace HakoDB
open ByteCodec HashMap Places

def inflateBytes (data : Bytes) : Value :=
  match fromUtf8 data with
  | some s => .string s
  | none => .binary data

namespace BlobWork

/-- The document that the item was made for. -/
def key : BlobWork → String
  | .putRaw _ key _ _ _ _ _ | .put _ key _ => key

/-- Where in the blob file the item's bytes go. -/
def place? : BlobWork → Option (UInt64 × Bytes)
  | .putRaw _ _ _ offset data _ _ => some (offset,data)
  | .put _ _ _ => none

end BlobWork

/-- A link, the lost one included. -/
def Value.link? : Value → Option (UInt64 × UInt32)
  | .blobLink offset len => some (offset,len)
  | _ => none

/-- A link that is looked up: one with the lost offset stays as it is. -/
def Value.liveLink? : Value → Option (UInt64 × UInt32)
  | .blobLink offset len => if offset = lostOffset then none else some (offset,len)
  | _ => none

variable {v : Value} {file : Bytes}

theorem Value.liveLink?_eq_some {offset : UInt64} {len : UInt32} :
    v.liveLink? = some (offset,len) ↔ v = .blobLink offset len ∧ offset ≠ lostOffset := by
  cases v <;> simp [liveLink?]
  grind

theorem Value.liveLink?_eq_none (h : v.link? = none) : v.liveLink? = none := by
  cases v <;> simp_all [link?,liveLink?]

namespace StorageEngine

/-- The queued bytes by offset; the last item of an offset counts. -/
def snapshotBlobState (s : StorageEngine) : Option BlobManager × List (UInt64 × Bytes) :=
  (s.blobManager,s.blobFlushQueue.filterMap BlobWork.place?)

end StorageEngine

def resolveLink (bm : BlobManager) (queue : List (UInt64 × Bytes)) (offset : UInt64) (len : UInt32) : Bytes :=
  match lastValue offset queue with
  | some data => data
  | none => bm.readAt offset len

def resolveValue (bm : BlobManager) (queue : List (UInt64 × Bytes)) (value : Value) : Value :=
  match value.liveLink? with
  | some (offset,len) => inflateBytes (resolveLink bm queue offset len)
  | none => value

/-- Put the bytes behind the links of the document's own fields; links deeper inside are not looked at. -/
def applyBlobSnapshot (state : Option BlobManager × List (UInt64 × Bytes)) (doc : HakoDoc) : Res HakoDoc :=
  if doc.fields.all fun f => f.2.liveLink?.isNone then .ok doc
  else match state.1 with
    | none => .error (.error (.storageError "No blob manager"))
    | some bm => .ok {doc with fields := doc.fields.map fun f => (f.1,resolveValue bm state.2 f.2)}

namespace StorageEngine

/-- The document under a key with its links resolved. -/
def resolved (zstd : Option Zstd) (s : StorageEngine) (key : String) : Res (Option HakoDoc) := do
  let bytes ← s.get zstd key
  match bytes.bind HakoDoc.decode with
  | none => return none
  | some doc => return some (← applyBlobSnapshot s.snapshotBlobState doc)

section
variable {zstd : Option Zstd} {s : StorageEngine} {key : String} {bytes : Bytes}

theorem resolved_of_decode (hget : s.get zstd key = .ok (some bytes)) {doc d : HakoDoc}
    (hdecode : HakoDoc.decode bytes = some doc) (happly : applyBlobSnapshot s.snapshotBlobState doc = .ok d) :
    s.resolved zstd key = .ok (some d) := by
  simp only [resolved,hget,bind,Except.bind,Option.bind_some,hdecode,happly]
  rfl

theorem resolved_of_undecodable (hget : s.get zstd key = .ok (some bytes)) (hdecode : HakoDoc.decode bytes = none) :
    s.resolved zstd key = .ok none := by
  simp only [resolved,hget,bind,Except.bind,Option.bind_some,hdecode]
  rfl

/-- The document that is read through a pointer. -/
def ReadsDoc (zstd : Option Zstd) (s : StorageEngine) (p : Pointer) (doc : HakoDoc) : Prop :=
  ∃ bytes,s.readPointer zstd p = .ok (some bytes) ∧ HakoDoc.decode bytes = some doc

/-- What a key resolves to is the stored document with its links followed. -/
theorem resolved_eq_some {d : HakoDoc} (h : s.resolved zstd key = .ok (some d)) :
    ∃ p doc,s.index.lookup key = some p ∧ s.ReadsDoc zstd p doc ∧ applyBlobSnapshot s.snapshotBlobState doc = .ok d := by
  obtain ⟨bytes,hget,hrest⟩ := bind_eq_ok.1 h
  cases hdoc : bytes.bind HakoDoc.decode with
  | none =>
    simp only [hdoc] at hrest
    cases hrest
  | some doc =>
    obtain ⟨raw,rfl,hdecode⟩ := Option.bind_eq_some_iff.1 hdoc
    simp only [hdoc] at hrest
    obtain ⟨d',hd',hrest⟩ := bind_eq_ok.1 hrest
    obtain rfl := Option.some.inj (Except.ok.inj hrest)
    unfold get at hget
    cases hp : s.index.lookup key with
    | none => simp [hp] at hget
    | some p =>
      rw [hp] at hget
      exact ⟨p,doc,rfl,⟨raw,hget,hdecode⟩,hd'⟩

end

end StorageEngine

theorem getElem?_readPadded {offset len j : ℕ} (h : j < len) :
    (readPadded file offset len)[j]? = some (byteAt file (offset+j)) := by
  have hfound : ((file.drop offset).take len).length = min len (file.length-offset) := by simp
  unfold readPadded byteAt
  rw [List.getD_eq_getElem?_getD]
  by_cases hin : j < min len (file.length-offset)
  · have hlt : offset+j < file.length := by omega
    rw [List.getElem?_append_left (by omega),List.getElem?_take_of_lt h,List.getElem?_drop,
      List.getElem?_eq_getElem hlt]
    rfl
  · have hnone : file[offset+j]? = none := List.getElem?_eq_none (by omega)
    rw [List.getElem?_append_right (by omega),hfound,List.getElem?_replicate,if_pos (by omega),hnone]
    rfl

/-- What a read finds where the bytes of a write are. -/
theorem readPadded_of_hasAt {w : ℕ × Bytes} (h : HasAt file w) : readPadded file w.1 w.2.length = w.2 := by
  refine List.ext_getElem? fun j => ?_
  by_cases hj : j < w.2.length
  · rw [getElem?_readPadded hj,h j hj,List.getD_eq_getElem?_getD,List.getElem?_eq_getElem hj]
    rfl
  · have hlen : (readPadded file w.1 w.2.length).length = w.2.length := by simp [readPadded]
    rw [List.getElem?_eq_none (by omega),List.getElem?_eq_none (by omega)]

end HakoDB

import HakoDB.Lib.HashMap
import HakoDB.Storage.Blob
import HakoDB.Storage.Crypto

/-! Segment files: records of a length word and a payload, appended in order. The top bit of
the length word marks a compressed payload. -/
namespace HakoDB
open ByteCodec HashMap

/-- The compressor, a parameter that gives back what it compressed. -/
structure Zstd where
  encodeAll : Bytes → Option Bytes
  decodeAll : Bytes → Except String Bytes
  decode_encode : ∀ raw packed, encodeAll raw = some packed → decodeAll packed = .ok raw

inductive Pointer
  | segment (segmentId offset : UInt64) (len : UInt32)
  | inlined (data : Bytes)
  | blob (offset : UInt64) (len : UInt32)
  | blobPending (doc : HakoDoc)
  | blobPendingData (data skeleton : Bytes)
  | deleted (timestamp : Int64)
  deriving DecidableEq

def Pointer.isLive : Pointer → Bool
  | .deleted _ => false
  | _ => true

/-- The bytes of a pointer that count towards the shard's inlined memory. -/
def Pointer.inlinedLen : Pointer → ℕ
  | .inlined data => data.length
  | .blobPendingData _ skeleton => skeleton.length
  | _ => 0

structure Segment where
  file : Bytes
  segmentId : UInt64
  encryption : Option EncryptionContext
  currentSize : ℕ

namespace Segment

/-- A segment opened on a file with the given content. -/
def openFile (file : Bytes) (segmentId : UInt64) (encryption : Option EncryptionContext) : Segment :=
  ⟨file,segmentId,encryption,file.length⟩

/-- The payload as it goes to the file, and the context of the next record. -/
def sealPayload (seg : Segment) (payload : Bytes) : Bytes × Segment :=
  match seg.encryption with
  | none => (payload,seg)
  | some ctx => (ctx.encrypt payload,{seg with encryption := some ctx.advance})

def appendOne (seg : Segment) (value : Bytes) : (UInt64 × UInt32) × Segment :=
  let (payload,seg) := seg.sealPayload value
  let len := UInt32.ofNat payload.length
  ((UInt64.ofNat seg.file.length,len),
    {seg with file := seg.file++leBytes 4 payload.length++payload,
              currentSize := seg.currentSize+4+payload.length})

def appendBatch (seg : Segment) : List Bytes → List (UInt64 × UInt32) × Segment
  | [] => ([],seg)
  | value::rest =>
    let (place,seg) := seg.appendOne value
    let (places,seg) := appendBatch seg rest
    (place::places,seg)

/-- An append that leaves the recorded size alone, as compaction uses it. -/
def appendRawWithLen (seg : Segment) (payload : Bytes) (storedLen : UInt32) : UInt64 × Segment :=
  (UInt64.ofNat seg.file.length,{seg with file := seg.file++leBytes 4 storedLen.toNat++payload})

def compressionBit : UInt32 := 0x80000000

def readAt (zstd : Option Zstd) (seg : Segment) (offset : UInt64) (storedLen : UInt32) : Res Bytes := do
  let isCompressed := storedLen >>> 31 = 1
  let len := (storedLen &&& 0x7FFFFFFF).toNat
  let out := (readPadded seg.file offset.toNat (4+len)).drop 4
  let out ← match seg.encryption with
    | none => .ok out
    | some ctx => ctx.cipher.open' out
  if isCompressed then
    match zstd with
    | none => .error (.error (.storageError
        "segment payload is zstd-compressed but this build lacks the `compression` feature"))
    | some z =>
      match z.decodeAll out with
      | .ok raw => .ok raw
      | .error e => .error (.error (.storageError ("Zstd fail: "++e)))
  else .ok out

/-- The payload compaction writes for a value, and the flag that goes with it. -/
def packValue (zstd : Option Zstd) (useCompression : Bool) (raw : Bytes) : Bytes × UInt32 :=
  match zstd with
  | none => (raw,0)
  | some z =>
    if useCompression && 2048 < raw.length then
      match z.encodeAll raw with
      | some packed => if packed.length < raw.length then (packed,compressionBit) else (raw,0)
      | none => (raw,0)
    else (raw,0)

def compactOne (zstd : Option Zstd) (useCompression : Bool) (segmentId : UInt64) (seg : Segment)
    (raw : Bytes) : Pointer × Segment :=
  let (packed,flag) := packValue zstd useCompression raw
  let (payload,seg) := seg.sealPayload packed
  let storedLen := UInt32.ofNat payload.length ||| flag
  let (offset,seg) := seg.appendRawWithLen payload storedLen
  (.segment segmentId offset storedLen,seg)

/-- Append every entry to the segment and give the pointers to them. -/
def compactEntries (zstd : Option Zstd) (useCompression : Bool) (segmentId : UInt64) :
    Segment → List (String × Bytes) → List (String × Pointer) × Segment
  | seg,[] => ([],seg)
  | seg,(key,raw)::rest =>
    let (pointer,seg) := compactOne zstd useCompression segmentId seg raw
    let (pointers,seg) := compactEntries zstd useCompression segmentId seg rest
    ((key,pointer)::pointers,seg)

def compactSegment (zstd : Option Zstd) (seg : Segment) (entries : List (String × Bytes))
    (segmentId : UInt64) (useCompression : Bool) : HMap String Pointer × Segment :=
  let (pointers,seg) := compactEntries zstd useCompression segmentId {seg with file := []} entries
  (insertAll ∅ pointers,seg)

end Segment

theorem readPadded_append {file : Bytes} {offset len : ℕ} (h : offset+len ≤ file.length) (more : Bytes) :
    readPadded (file++more) offset len = readPadded file offset len := by
  unfold readPadded
  rw [List.drop_append_of_le_length (by omega),List.take_append_of_le_length (by simp; omega)]

namespace Segment
variable {zstd : Option Zstd} {seg : Segment}

/-- The record that the offset and the stored length speak of is whole. -/
def Whole (seg : Segment) (offset : UInt64) (len : UInt32) : Prop :=
  offset.toNat+(4+(len &&& 0x7FFFFFFF).toNat) ≤ seg.file.length

/-- An append leaves the records that are there. -/
theorem appendOne_file (seg : Segment) (value : Bytes) :
    (seg.appendOne value).2.file = seg.file++(leBytes 4 (seg.sealPayload value).1.length++(seg.sealPayload value).1) := by
  unfold appendOne sealPayload
  cases seg.encryption <;> simp

theorem appendOne_cipher (seg : Segment) (value : Bytes) :
    (seg.appendOne value).2.encryption.map EncryptionContext.cipher = seg.encryption.map EncryptionContext.cipher := by
  unfold appendOne sealPayload
  cases h : seg.encryption <;> simp [h,EncryptionContext.advance]

variable {offset : UInt64} {len : UInt32}

theorem readAt_congr {seg' : Segment}
    (hcipher : seg'.encryption.map EncryptionContext.cipher = seg.encryption.map EncryptionContext.cipher)
    (hbytes : readPadded seg'.file offset.toNat (4+(len &&& 0x7FFFFFFF).toNat) =
      readPadded seg.file offset.toNat (4+(len &&& 0x7FFFFFFF).toNat)) :
    seg'.readAt zstd offset len = seg.readAt zstd offset len := by
  unfold readAt
  cases h : seg.encryption with
  | none =>
    have h' : seg'.encryption = none := by simpa [h] using hcipher
    simp only [hbytes,h']
  | some ctx =>
    obtain ⟨ctx',h',hctx⟩ : ∃ ctx',seg'.encryption = some ctx' ∧ ctx'.cipher = ctx.cipher := by simpa [h] using hcipher
    simp only [hbytes,h',hctx]

theorem Whole.readAt_appendOne (h : seg.Whole offset len) (value : Bytes) :
    (seg.appendOne value).2.readAt zstd offset len = seg.readAt zstd offset len ∧
      (seg.appendOne value).2.Whole offset len := by
  refine ⟨readAt_congr (appendOne_cipher seg value) ?_,?_⟩
  · rw [appendOne_file,readPadded_append h]
  · unfold Whole at h ⊢
    rw [appendOne_file,List.length_append]
    omega

theorem shortLength {n : ℕ} (h : n < 2^31) :
    (UInt32.ofNat n &&& 0x7FFFFFFF).toNat = n ∧ ¬UInt32.ofNat n >>> 31 = 1 := by
  have hn : (UInt32.ofNat n).toNat = n := UInt32.toNat_ofNat_of_lt' (by simp [UInt32.size]; omega)
  constructor
  · rw [UInt32.toNat_and,hn]
    exact (Nat.and_two_pow_sub_one_eq_mod n 31).trans (Nat.mod_eq_of_lt h)
  · intro hbit
    have := congrArg UInt32.toNat hbit
    rw [UInt32.toNat_shiftRight,hn] at this
    simp [Nat.shiftRight_eq_div_pow] at this
    omega

end Segment

end HakoDB

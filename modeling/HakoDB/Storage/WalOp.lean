import HakoDB.Basic

/-! The records of the write-ahead log and their byte format. -/
namespace HakoDB
open ByteCodec

inductive WalOp
  | beginTx (txId : UInt64)
  | put (key : String) (segmentId segmentOffset : UInt64) (len : UInt32)
  | delete (key : String) (timestamp : Int64)
  | commitTx (txId : UInt64)
  | putInlined (key : String) (value : Bytes)
  | putBlob (key : String) (offset : UInt64) (len : UInt32)
  deriving DecidableEq

namespace WalOp

/-- The key of a data record; the two transaction markers have none. -/
def key? : WalOp → Option String
  | beginTx _ | commitTx _ => none
  | put key _ _ _ | delete key _ | putInlined key _ | putBlob key _ _ => some key

/-- A record that is not a transaction marker. -/
def isData (op : WalOp) : Bool := op.key?.isSome

def isCommit : WalOp → Bool
  | commitTx _ => true
  | _ => false

/-- The length is stored in sixteen bits, the bytes in full. -/
def encodeKey (key : String) : Bytes := leBytes 2 (asBytes key).length++asBytes key

def encodeInto : WalOp → Bytes
  | beginTx txId => 0::leBytes 8 txId.toNat
  | put key segmentId segmentOffset len =>
    1::(encodeKey key++leBytes 8 segmentId.toNat++leBytes 8 segmentOffset.toNat++leBytes 4 len.toNat)
  | delete key timestamp => 2::(encodeKey key++i64Bytes timestamp)
  | commitTx txId => 3::leBytes 8 txId.toNat
  | putInlined key value => 4::(encodeKey key++leBytes 4 value.length++value)
  | putBlob key offset len => 5::(encodeKey key++leBytes 8 offset.toNat++leBytes 4 len.toNat)

/-- An unchecked slice: out of range it panics. -/
def slice (n : ℕ) (bs : Bytes) : Res (Bytes × Bytes) := okOr .panic (take? n bs)

/-- A slice behind an explicit length check. -/
def checkedSlice (msg : String) (n : ℕ) (bs : Bytes) : Res (Bytes × Bytes) :=
  okOr (.error (.corrupt msg)) (take? n bs)

def decodeKey (overrun badKey : String) (bs : Bytes) : Res (String × Bytes) := do
  let (l,bs) ← slice 2 bs
  let (k,bs) ← checkedSlice overrun (leNat l) bs
  let key ← okOr (.error (.corrupt badKey)) (fromUtf8 k)
  return (key,bs)

def decode : Bytes → Res WalOp
  | [] => corrupt "empty wal record"
  | tag::bs =>
    match tag.toNat with
    | 0 => do
      let (t,_) ← slice 8 bs
      return beginTx (.ofNat (leNat t))
    | 1 => do
      let (key,bs) ← decodeKey "wal put key overruns record" "bad wal key" bs
      let (s,bs) ← slice 8 bs
      let (o,bs) ← slice 8 bs
      let (l,_) ← slice 4 bs
      return put key (.ofNat (leNat s)) (.ofNat (leNat o)) (.ofNat (leNat l))
    | 2 => do
      let (key,bs) ← decodeKey "wal delete key overruns record" "bad wal key" bs
      let (t,_) ← slice 8 bs
      return delete key (bytesI64 t)
    | 3 => do
      let (t,_) ← slice 8 bs
      return commitTx (.ofNat (leNat t))
    | 4 => do
      let (key,bs) ← decodeKey "wal putinlined key overruns record" "bad key" bs
      let (l,bs) ← slice 4 bs
      let (v,_) ← checkedSlice "wal putinlined val overruns record" (leNat l) bs
      return putInlined key v
    | 5 => do
      let (key,bs) ← decodeKey "wal putblob key overruns record" "bad key" bs
      let (o,bs) ← slice 8 bs
      let (l,_) ← slice 4 bs
      return putBlob key (.ofNat (leNat o)) (.ofNat (leNat l))
    | _ => corrupt "unknown wal op"

variable {n : ℕ} {xs ys : Bytes} {key : String}

theorem slice_append (h : xs.length = n) : slice n (xs++ys) = .ok (xs,ys) := by
  simp [slice,take?_append xs ys h]

theorem slice_all (h : xs.length = n) : slice n xs = .ok (xs,[]) := by
  have hs : slice n (xs++[]) = .ok (xs,[]) := slice_append h
  simpa using hs

theorem checkedSlice_append {msg : String} (h : xs.length = n) :
    checkedSlice msg n (xs++ys) = .ok (xs,ys) := by
  simp [checkedSlice,take?_append xs ys h]

/-- A key whose length fits in sixteen bits is read back, whatever follows it. -/
theorem decodeKey_encodeKey (h : (asBytes key).length < 2^16) (m1 m2 : String) (rest : Bytes) :
    decodeKey m1 m2 (encodeKey key++rest) = .ok (key,rest) := by
  have hl : leNat (leBytes 2 (asBytes key).length) = (asBytes key).length :=
    leNat_leBytes_of_lt (by omega)
  rw [encodeKey,List.append_assoc,decodeKey,slice_append (leBytes_length 2 _)]
  simp [bind,Except.bind,checkedSlice_append hl.symm,fromUtf8_asBytes,pure,Except.pure]

/-- The lengths stored in the record are the real ones. -/
def Fits (op : WalOp) : Prop :=
  (∀ key, op.key? = some key → (asBytes key).length < 2^16) ∧
  (∀ key value, op = putInlined key value → value.length < 2^32)

/-- A record whose lengths fit is read back as it was written. -/
theorem decode_encodeInto {op : WalOp} (h : op.Fits) : decode (encodeInto op) = .ok op := by
  cases op with
  | beginTx txId =>
    simp [encodeInto,decode,slice_all,ofNat_leNat_leBytes_u64,bind,Except.bind,pure,Except.pure]
  | put key segmentId segmentOffset len =>
    have hk := decodeKey_encodeKey (h.1 key rfl)
    simp [encodeInto,decode,List.append_assoc,hk,slice_append,slice_all,ofNat_leNat_leBytes_u64,
      ofNat_leNat_leBytes_u32,bind,Except.bind,pure,Except.pure]
  | delete key timestamp =>
    have hk := decodeKey_encodeKey (h.1 key rfl)
    simp [encodeInto,decode,hk,slice_all,bind,Except.bind,pure,Except.pure]
  | commitTx txId =>
    simp [encodeInto,decode,slice_all,ofNat_leNat_leBytes_u64,bind,Except.bind,pure,Except.pure]
  | putInlined key value =>
    have hk := decodeKey_encodeKey (h.1 key rfl)
    have hl : leNat (leBytes 4 value.length) = value.length :=
      leNat_leBytes_of_lt (by have := h.2 key value rfl; omega)
    have hv : checkedSlice "wal putinlined val overruns record" (leNat (leBytes 4 value.length))
        (value++[]) = .ok (value,[]) := checkedSlice_append hl.symm
    rw [List.append_nil] at hv
    simp [encodeInto,decode,List.append_assoc,hk,slice_append,hv,bind,Except.bind,pure,Except.pure]
  | putBlob key offset len =>
    have hk := decodeKey_encodeKey (h.1 key rfl)
    simp [encodeInto,decode,List.append_assoc,hk,slice_append,slice_all,ofNat_leNat_leBytes_u64,
      ofNat_leNat_leBytes_u32,bind,Except.bind,pure,Except.pure]

/-- When the key's length is a multiple of 65536, a delete record is read back with an empty key and
the key's first bytes as its timestamp. -/
theorem decode_delete_wrapped (timestamp : Int64) (h : (asBytes key).length % 2^16 = 0)
    (h8 : 8 ≤ (asBytes key).length) :
    decode (delete key timestamp).encodeInto = .ok (delete "" (bytesI64 ((asBytes key).take 8))) := by
  have hl : leNat (leBytes 2 (asBytes key).length) = 0 := by
    rw [leNat_leBytes]
    simpa using h
  have hkey : ∀ m1 m2, decodeKey m1 m2 (encodeKey key++i64Bytes timestamp) =
      .ok ("",asBytes key++i64Bytes timestamp) := by
    intro m1 m2
    have he : fromUtf8 [] = some "" := fromUtf8_asBytes ""
    rw [encodeKey,List.append_assoc,decodeKey,slice_append (leBytes_length 2 _)]
    simp [bind,Except.bind,hl,checkedSlice,take?,he,pure,Except.pure]
  have hts : slice 8 (asBytes key++i64Bytes timestamp) =
      .ok ((asBytes key).take 8,(asBytes key).drop 8++i64Bytes timestamp) := by
    have hs : slice 8 ((asBytes key).take 8++((asBytes key).drop 8++i64Bytes timestamp)) =
        .ok ((asBytes key).take 8,(asBytes key).drop 8++i64Bytes timestamp) :=
      slice_append (by simp [h8])
    rwa [← List.append_assoc,List.take_append_drop] at hs
  simp [encodeInto,decode,hkey,hts,bind,Except.bind,pure,Except.pure]

theorem encodeInto_length_pos (op : WalOp) : 0 < (encodeInto op).length := by
  cases op <;> simp [encodeInto]

end WalOp

end HakoDB

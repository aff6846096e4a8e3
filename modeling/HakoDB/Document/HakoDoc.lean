import HakoDB.Lib.BinarySearch
import HakoDB.Lib.Varint
import HakoDB.Document.Value

/-! Documents, their field access and their byte format. -/
namespace HakoDB
open ByteCodec Varint

structure HakoDoc where
  fields : List (String × Value)
  time : Int64
  deriving DecidableEq

namespace HakoDoc

def empty : HakoDoc := ⟨[],0⟩

def search (fields : List (String × Value)) (key : String) : Except ℕ ℕ :=
  BinarySearch.search (fun p => compare p.1 key) fields

def get (doc : HakoDoc) (key : String) : Option Value :=
  match search doc.fields key with
  | .ok pos => (doc.fields[pos]?).map Prod.snd
  | .error _ => none

/-- Replace the value at the key's position, or put the field where it belongs. -/
def insert (doc : HakoDoc) (key : String) (value : Value) : HakoDoc :=
  match search doc.fields key with
  | .ok pos => {doc with fields := doc.fields.modify pos fun p => (p.1,value)}
  | .error pos => {doc with fields := doc.fields.insertIdx pos (key,value)}

def getLogicalTime (doc : HakoDoc) : Int64 := doc.time

end HakoDoc

/-- Content behind its length in four bytes. -/
def lenPrefixed (body : Bytes) : Bytes := leBytes 4 body.length++body

/-- A text of at most 255 bytes behind its length in one byte. -/
def shortText (s : String) : Bytes := UInt8.ofNat (asBytes s).length::asBytes s

mutual
def encodeValue : Value → Bytes
  | .null => [0xC0]
  | .serverTimestamp => [0xC1]
  | .bool true => [0xC2]
  | .bool false => [0xC3]
  | .int n =>
    if 0 ≤ n.toInt ∧ n.toInt ≤ 15 then [UInt8.ofNat (0x10+n.toInt.toNat)]
    else 3::lenPrefixed (encodeVarint (zigzagEncode n))
  | .float f => 4::lenPrefixed (leBytes 8 f.bits.toNat)
  | .string s =>
    if (asBytes s).length ≤ 7 then UInt8.ofNat (0x40+(asBytes s).length)::asBytes s
    else 5::lenPrefixed (asBytes s)
  | .binary bs => 6::lenPrefixed bs
  | .timestamp n => 7::lenPrefixed (encodeVarint (zigzagEncode n))
  | .map fields => 8::lenPrefixed (leBytes 2 fields.length++encodeFields fields)
  | .array items => 9::lenPrefixed (leBytes 4 items.length++encodeItems items)
  | .reference collection docId => 10::lenPrefixed (shortText collection++shortText docId)
  | .blobLink offset len => 11::lenPrefixed (leBytes 8 offset.toNat++leBytes 4 len.toNat)
def encodeFields : List (String × Value) → Bytes
  | [] => []
  | (key,value)::fields => shortText key++encodeValue value++encodeFields fields
def encodeItems : List Value → Bytes
  | [] => []
  | value::items => encodeValue value++encodeItems items
end

/-- The extent of a value behind its tag: its bytes and what follows them. -/
def skipValue (tag : UInt8) (bs : Bytes) : Option (Bytes × Bytes) :=
  if 0xC0 ≤ tag.toNat ∧ tag.toNat ≤ 0xC3 then some ([],bs)
  else if tag.toNat/16 = 1 then some ([],bs)
  else if tag.toNat/8 = 8 then take? (tag.toNat % 8) bs
  else if 3 ≤ tag.toNat ∧ tag.toNat ≤ 11 then do
    let (l,_) ← take? 4 bs
    take? (4+leNat l) bs
  else none

def readByte : Bytes → Option (UInt8 × Bytes)
  | [] => none
  | b::bs => some (b,bs)

def readShortText (bs : Bytes) : Option (String × Bytes) := do
  let (l,bs) ← readByte bs
  let (s,bs) ← take? l.toNat bs
  let s ← fromUtf8 s
  return (s,bs)

def decodeEntries (dec : UInt8 → Bytes → Option Value) : ℕ → Bytes → Option (List (String × Value) × Bytes)
  | 0, bs => some ([],bs)
  | n+1, bs => do
    let (key,bs) ← readShortText bs
    let (tag,bs) ← readByte bs
    let (data,bs) ← skipValue tag bs
    let v ← dec tag data
    let (fields,bs) ← decodeEntries dec n bs
    return ((key,v)::fields,bs)

def decodeItems (dec : UInt8 → Bytes → Option Value) : ℕ → Bytes → Option (List Value × Bytes)
  | 0, bs => some ([],bs)
  | n+1, bs => do
    let (tag,bs) ← readByte bs
    let (data,bs) ← skipValue tag bs
    let v ← dec tag data
    let (items,bs) ← decodeItems dec n bs
    return (v::items,bs)

/-- The nesting of a value is below the length of its bytes, which `fuel` exceeds. -/
def decodeNested : ℕ → UInt8 → Bytes → Option Value
  | 0, _, _ => none
  | fuel+1, tag, bs =>
    if tag = 0xC0 then some .null
    else if tag = 0xC1 then some .serverTimestamp
    else if tag = 0xC2 then some (.bool true)
    else if tag = 0xC3 then some (.bool false)
    else if tag.toNat/16 = 1 then some (.int (Int64.ofInt (tag.toNat % 16 : ℕ)))
    else if tag.toNat/8 = 8 then do
      let (s,_) ← take? (tag.toNat % 8) bs
      let s ← fromUtf8 s
      return .string s
    else match tag.toNat with
      | 3 => (decodeVarint (bs.drop 4)).map fun n => .int (zigzagDecode n)
      | 7 => (decodeVarint (bs.drop 4)).map fun n => .timestamp (zigzagDecode n)
      | 4 => do
        let (f,_) ← take? 8 (bs.drop 4)
        return .float ⟨.ofNat (leNat f)⟩
      | 5 => do
        let (l,bs) ← take? 4 bs
        let (s,_) ← take? (leNat l) bs
        let s ← fromUtf8 s
        return .string s
      | 6 => do
        let (l,bs) ← take? 4 bs
        let (b,_) ← take? (leNat l) bs
        return .binary b
      | 8 => do
        let (n,bs) ← take? 2 (bs.drop 4)
        let (fields,_) ← decodeEntries (decodeNested fuel) (leNat n) bs
        return .map fields
      | 9 => do
        let (n,bs) ← take? 4 (bs.drop 4)
        let (items,_) ← decodeItems (decodeNested fuel) (leNat n) bs
        return .array items
      | 10 => do
        let (collection,bs) ← readShortText (bs.drop 4)
        let (docId,_) ← readShortText bs
        return .reference collection docId
      | 11 => do
        let (o,bs) ← take? 8 (bs.drop 4)
        let (l,_) ← take? 4 bs
        return .blobLink (.ofNat (leNat o)) (.ofNat (leNat l))
      | _ => some .null

def decodeValue (tag : UInt8) (bs : Bytes) : Option Value := decodeNested (bs.length+1) tag bs

namespace HakoDoc

def encode (doc : HakoDoc) : Bytes :=
  0xF1::5::(i64Bytes doc.time++leBytes 2 doc.fields.length++encodeFields doc.fields)

/-- The header, then exactly the announced number of fields and nothing more. -/
def decode (bs : Bytes) : Option HakoDoc := do
  let (m,bs) ← readByte bs
  let (v,bs) ← readByte bs
  let (t,bs) ← take? 8 bs
  let (n,bs) ← take? 2 bs
  if m = 0xF1 ∧ v = 5 then
    match decodeEntries decodeValue (leNat n) bs with
    | some (fields,[]) => some ⟨fields,bytesI64 t⟩
    | _ => none
  else none

end HakoDoc

end HakoDB

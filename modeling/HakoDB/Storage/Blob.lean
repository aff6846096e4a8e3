import HakoDB.Document.HakoDoc

/-! Large field values. Before a document is stored, every text or byte field above a
threshold is replaced by a link to a place reserved for it in the blob file, and its bytes
are handed on as work for the blob writer. -/
namespace HakoDB
open ByteCodec

inductive BlobWork
  | putRaw (collection key : String) (skeleton : Bytes) (offset : UInt64) (data : Bytes)
      (timestamp : Int64) (len : UInt32)
  | put (collection key : String) (data : Bytes)
  deriving DecidableEq

def BlobWork.pendingLen : BlobWork → ℕ
  | .putRaw _ _ _ _ _ _ len => len.toNat
  | .put _ _ _ => 0

/-- The part of a file that a positioned read finds, padded with the zeros of its buffer. -/
def readPadded (file : Bytes) (offset len : ℕ) : Bytes :=
  let found := (file.drop offset).take len
  found++List.replicate (len-found.length) 0

structure BlobManager where
  file : Bytes
  blobSize : UInt64

/-- The offset of a link whose content was never placed in the blob file. -/
def lostOffset : UInt64 := 0xFFFFFFFFFFFFFFFF

namespace BlobManager

def readAt (bm : BlobManager) (offset : UInt64) (len : UInt32) : Bytes :=
  if offset = lostOffset then [] else readPadded bm.file offset.toNat len.toNat

/-- The bytes of a value that is moved out of its document. -/
def rawValue (threshold : ℕ) (value : Value) : Option Bytes :=
  if value.lenBytes > threshold then
    match value with
    | .string s => some (asBytes s)
    | .binary b => some b
    | _ => none
  else none

/-- One pass over the fields: the space reserved so far, the fields with their links and the
work items. -/
def extractFields (collection key : String) (time : Int64) (threshold : ℕ) :
    UInt64 → List (String × Value) → UInt64 × List (String × Value) × List BlobWork
  | size,[] => (size,[],[])
  | size,(name,value)::rest =>
    match rawValue threshold value with
    | none =>
      let (size',fields,work) := extractFields collection key time threshold size rest
      (size',(name,value)::fields,work)
    | some raw =>
      let len := UInt32.ofNat raw.length
      let (size',fields,work) := extractFields collection key time threshold (size+len.toUInt64) rest
      (size',(name,.blobLink size len)::fields,.putRaw collection key [] size raw time len::work)

/-- The last work item carries the document it belongs to. -/
def attachSkeleton (skeleton : Bytes) : List BlobWork → List BlobWork
  | [] => []
  | [.putRaw collection key _ offset data timestamp len] =>
    [.putRaw collection key skeleton offset data timestamp len]
  | w::rest => w::attachSkeleton skeleton rest

def extractBlobs (bm : BlobManager) (collection key : String) (doc : HakoDoc) (threshold : ℕ) :
    BlobManager × HakoDoc × List BlobWork :=
  let (size,fields,work) := extractFields collection key doc.time threshold bm.blobSize doc.fields
  let doc := {doc with fields := fields}
  ({bm with blobSize := size},doc,attachSkeleton doc.encode work)

/-- Links without a place, for a log that is written before the blobs are. -/
def extractBlobsPlaceholder (doc : HakoDoc) (threshold : ℕ) : HakoDoc :=
  {doc with fields := doc.fields.map fun p =>
    if p.2.lenBytes > threshold then (p.1,.blobLink lostOffset (UInt32.ofNat p.2.lenBytes)) else p}

def writeAt (bm : BlobManager) (data : Bytes) (offset : UInt64) : BlobManager :=
  let file := bm.file.take offset.toNat++List.replicate (offset.toNat-bm.file.length) 0
  {bm with file := file++data++bm.file.drop (offset.toNat+data.length)}

end BlobManager

end HakoDB

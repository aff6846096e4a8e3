import HakoDB.Query.Filter

/-! Composite indexes: which documents an index takes in, and the byte string that stands for a
document's tuple. -/
namespace HakoDB
open ByteCodec

inductive SortDirection
  | asc | desc
  deriving DecidableEq, Repr

structure CompositeField where
  field : String
  direction : SortDirection
  deriving DecidableEq

structure CompositeIndexDefinition where
  id : UInt32
  collection : String
  fields : List CompositeField
  unique : Bool
  sparse : Bool
  filter : Option FilterGroup
  deriving DecidableEq

def maybeFlip : SortDirection → Bytes → Bytes
  | .asc,bs => bs
  | .desc,bs => bs.map fun b => ~~~b

/-- The key bytes of one value of a tuple. -/
def encodeKeyValue (direction : SortDirection) : Value → Bytes
  | .null => [0]
  | .bool v => [1,if v then 1 else 0]
  | .int v => 2::maybeFlip direction (beBytes 8 v.toUInt64.toNat)
  | .float v => 3::maybeFlip direction (beBytes 8 v.bits.toNat)
  | .string v => 4::beBytes 4 (asBytes v).length++maybeFlip direction (asBytes v)
  | .binary v => 5::beBytes 4 v.length++maybeFlip direction v
  | .timestamp v => 6::maybeFlip direction (beBytes 8 v.toUInt64.toNat)
  | .map _ => [8]
  | .array _ => [9]
  | .reference _ _ => [10]
  | .blobLink _ _ => [11]
  | .serverTimestamp => [0]

namespace CompositeIndexDefinition

/-- The values that can tell no two documents apart as a key. -/
def structural : Value → Bool
  | .map _ | .array _ | .reference _ _ | .blobLink _ _ => true
  | _ => false

/-- The value of one field; the id and the time are not looked up in the body. -/
def fieldValue (d : CompositeIndexDefinition) (docId : String) (doc : HakoDoc) (field : String) : Option Value :=
  if field = "id" then some (.string docId)
  else if field = "_time" then some (.int doc.time)
  else match doc.getPath field with
    | some v => some v
    | none => if d.unique && !d.sparse then some .null else none

/-- A field that a unique index accepts. -/
def tupleValue (d : CompositeIndexDefinition) (docId : String) (doc : HakoDoc) (f : CompositeField) : Option Value :=
  (d.fieldValue docId doc f.field).bind fun v => if d.unique && structural v then none else some v

def documentValuesOf (d : CompositeIndexDefinition) (docId : String) (doc : HakoDoc) : Option (List Value) :=
  d.fields.mapM (d.tupleValue docId doc)

/-- A missing field never matches. -/
def filterMatches (text : TextOps) (docId : String) (doc : HakoDoc) (f : Filter) : Bool :=
  let value :=
    if f.field = "id" then some (.string docId)
    else if f.field = "_time" then some (.int doc.time)
    else doc.getPath f.field
  value.any fun v => compareValues text v f.op f.value

def filterPasses (text : TextOps) (d : CompositeIndexDefinition) (docId : String) (doc : HakoDoc) : Bool :=
  match d.filter with
  | none => true
  | some group =>
    match group.logic with
    | .and => group.filters.all (filterMatches text docId doc)
    | .or => group.filters.any (filterMatches text docId doc)

def encodeCompositePrefix (d : CompositeIndexDefinition) (values : List Value) : Bytes :=
  beBytes 4 d.id.toNat++(List.zipWith (fun v f => encodeKeyValue f.direction v) values d.fields).flatten

/-- The tuple under which a unique index knows a document, if it takes the document in. -/
def claimOf (text : TextOps) (d : CompositeIndexDefinition) (docId : String) (doc : HakoDoc) : Option Bytes :=
  if d.filterPasses text docId doc then (d.documentValuesOf docId doc).map d.encodeCompositePrefix else none

end CompositeIndexDefinition

end HakoDB

import HakoDB.Index.Definition

/-! Queries and the plans made for them. A plan keeps the query's own conditions beside the scan that
stands in for some of them. -/
namespace HakoDB
open ByteCodec

structure OrderBy where
  field : String
  ascending : Bool
  deriving DecidableEq

/-- An array of the field has an element that all the filters accept. -/
structure ElemMatch where
  field : String
  filters : List Filter
  deriving DecidableEq

inductive AggregateOp
  | count
  | sum (field : String)
  | avg (field : String)
  | min (field : String)
  | max (field : String)
  deriving DecidableEq

structure Query where
  collection : String
  filters : List Filter := []
  orGroups : List (List Filter) := []
  elemMatch : List ElemMatch := []
  orderBy : List OrderBy := []
  limit : Option UInt64 := none
  offset : Option UInt64 := none
  projection : List String := []
  aggregations : List AggregateOp := []
  startAt : Option (List Value) := none
  startAfter : Option (List Value) := none
  endAt : Option (List Value) := none
  endBefore : Option (List Value) := none
  deferBlobs : Bool := false
  raw : Bool := false
  deriving DecidableEq

/-- The keys of the ordered indexes, byte by byte. -/
structure IndexKey where
  bytes : Bytes
  deriving DecidableEq

namespace IndexKey

def digits (k : IndexKey) : List ℕ := k.bytes.map UInt8.toNat

theorem digits_injective : Function.Injective digits := by
  rintro ⟨a⟩ ⟨b⟩ h
  exact congrArg IndexKey.mk (List.map_injective_iff.2 (fun x y hxy => UInt8.toNat_inj.1 hxy) h)

instance : LinearOrder IndexKey := LinearOrder.lift' digits digits_injective

end IndexKey

inductive KeyBound
  | included (key : IndexKey)
  | excluded (key : IndexKey)
  | unbounded
  deriving DecidableEq

inductive Metric
  | cosine | l2 | innerProduct
  deriving DecidableEq

inductive TraverseDir
  | outgoing | incoming | both
  deriving DecidableEq

/-- What a graph query asks for; the parts that a plan never sets are left out. -/
structure TraverseSpec where
  direction : TraverseDir
  edgeField : Option String
  maxDepth : ℕ
  limit : UInt64
  viaEdge : Option String
  weightField : Option String
  deriving DecidableEq

inductive ScanType
  | fullCollection
  | sortedKeys (startKey : Option String) (startExclusive reverse : Bool)
  | compositeIndex (indexId : UInt32) (fields : List String) (values : List Value) (reverse : Bool)
  | compositeIndexRange (indexId : UInt32) (ranges : List (KeyBound × KeyBound)) (reverse : Bool)
  | secondaryIndexRange (field : String) (start stop : KeyBound) (reverse : Bool)
  | secondaryIndex (field : String) (value : IndexKey)
  | unionIndex (scans : List ScanType)
  | invertedIndex (field query : String) (byPrefix : Bool)
  | vectorKnn (field : String) (query : Bytes) (metric : Metric) (extra : List Filter)
  | traverse (startCol startId : String) (spec : TraverseSpec) (extra : List Filter)
  | cursorIndex (start stop : KeyBound) (indexId : UInt32) (reverse : Bool)

structure QueryPlan where
  collection : String
  scan : ScanType
  filters : List Filter
  orGroups : List (List Filter)
  elemMatch : List ElemMatch
  orderBy : List OrderBy
  limit : Option UInt64
  offset : Option UInt64
  projection : List String
  scanLimit : Option UInt64
  orderBySatisfied : Bool
  filtersSatisfiedByIndex : Bool
  deferBlobs : Bool
  raw : Bool
  hasCursorBounds : Bool

namespace ScanType

def isSortedKeys : ScanType → Bool
  | sortedKeys _ _ _ => true
  | _ => false

end ScanType

def dotted (path : String) : Bool := path.toList.contains '.'

end HakoDB

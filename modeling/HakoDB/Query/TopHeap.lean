import HakoDB.Document.Projection
import HakoDB.Lib.TopItems
import HakoDB.Query.Plan
import HakoDB.Storage.Segment

/-! The entries that a page of an unsatisfied order is chosen from: one key for each part of the order, read from the stored
bytes, and the place in the scan for the ties. -/
namespace HakoDB

/-- A missing value comes before every value. -/
def compareOptional : Option Value → Option Value → Ordering
  | none,none => .eq
  | none,some _ => .lt
  | some _,none => .gt
  | some a,some b => a.cmp b

inductive TopKey
  | id
  | time (t : Int64)
  | field (v : Option Value)

structure TopEntry where
  keys : List TopKey
  seq : ℕ
  id : String
  ptr : Pointer

def cmpKey (o : OrderBy) (a b : TopEntry) (ka kb : TopKey) : Ordering :=
  if o.field = "id" then compare a.id b.id
  else match ka,kb with
    | .time x,.time y => if o.field = "_time" then compare x.toInt y.toInt else .eq
    | .field x,.field y => compareOptional x y
    | _,_ => .eq

def cmpTop (orders : List OrderBy) (a b : TopEntry) : Ordering :=
  (orders.zip (a.keys.zip b.keys)).foldr
    (fun p later =>
      let cmp := cmpKey p.1 a b p.2.1 p.2.2
      (if p.1.ascending then cmp else cmp.swap).then later)
    (compare a.seq b.seq)

/-- A field whose name has no dot is the first of that name. -/
def topKey (view : HakoDocView) (field : String) : TopKey :=
  if field = "id" then .id
  else if field = "_time" then .time view.time
  else if '.' ∈ field.toList then .field (view.getPath field)
  else .field ((view.iter.find? fun e => e.1 = field).bind fun e => decodeValue e.2.1 e.2.2)

def topKeys (view : HakoDocView) (orders : List OrderBy) : List TopKey := orders.map fun o => topKey view o.field

end HakoDB

import HakoDB.Index.Manager

/-! The planner. Seven kinds of scans are tried in turn, and the first that the indexes allow becomes the
plan; the plan says which of the query's conditions and orders the scan already meets. -/
namespace HakoDB
open ByteCodec

namespace F64

def exponent (f : F64) : ℕ := max (f.magnitude/2^52) 1

def significand (f : F64) : ℕ := if f.magnitude < 2^52 then f.magnitude else f.magnitude%2^52+2^52

/-- No bits behind the point. -/
def isIntegral (f : F64) : Bool := 1075 ≤ f.exponent || f.significand%2^(1075-f.exponent) = 0

def truncated (f : F64) : ℤ :=
  let n := if 1075 ≤ f.exponent then f.significand*2^(f.exponent-1075) else f.significand/2^(1075-f.exponent)
  if f.negative then -(n : ℤ) else n

/-- The cast to an integer stops at the ends of the range. -/
def toInt64 (f : F64) : Int64 := if f.isNaN then 0 else .ofInt (max (-2^63) (min (2^63-1) f.truncated))

end F64

/-- The only element of an array that has one, else the value itself. -/
def singleOf : Value → Value
  | .array [v] => v
  | v => v

namespace Filter

def isPointLookup (f : Filter) : Bool :=
  match f.op,f.value with
  | .eq,_ => true
  | .within,.array [_] => true
  | _,_ => false

def isRange (f : Filter) : Bool :=
  match f.op with
  | .gt | .gte | .lt | .lte | .ne => true
  | _ => false

end Filter

namespace Query

/-- The rows that a page needs; the sum wraps around. -/
def pageNeed (q : Query) : Option UInt64 := q.limit.map (· + q.offset.getD 0)

def unfiltered (q : Query) : Bool := q.filters.isEmpty && q.orGroups.isEmpty

def cursorSet : Option (List Value) → Bool
  | some (_::_) => true
  | _ => false

def hasCursorBounds (q : Query) : Bool := [q.startAt,q.startAfter,q.endAt,q.endBefore].any cursorSet

end Query

namespace QueryPlanner

/-- The index is over some documents only; the query must ask for exactly those. -/
def compositeDefUsable (d : CompositeIndexDefinition) (q : Query) : Bool :=
  match d.filter with
  | none => true
  | some group => group.logic = .and && group.filters.all fun cond => q.filters.any fun f =>
      f.field = cond.field && match f.op,cond.op,f.value with
        | .eq,.eq,v => v.eq cond.value
        | .within,.eq,.array [v] => v.eq cond.value
        | _,_,_ => false

/-- What the planner settles beside the query: the scan and its bound, what the scan meets, and the operator whose
filters the scan has used up. -/
structure Choice where
  scan : ScanType
  scanLimit : Option UInt64
  orderSatisfied : Bool
  filtersSatisfied : Bool
  spent : Option Operator := none

def Choice.keeps (c : Choice) (filters : List Filter) : List Filter :=
  match c.spent with
  | none => filters
  | some op => filters.filter fun f => f.op ≠ op

def makePlan (q : Query) (c : Choice) : QueryPlan where
  collection := q.collection
  scan := c.scan
  filters := c.keeps q.filters
  orGroups := q.orGroups
  elemMatch := q.elemMatch
  orderBy := q.orderBy
  limit := q.limit
  offset := q.offset
  projection := q.projection
  scanLimit := c.scanLimit
  orderBySatisfied := q.orderBy.isEmpty || c.orderSatisfied
  filtersSatisfiedByIndex := c.filtersSatisfied && q.elemMatch.isEmpty
  deferBlobs := q.deferBlobs
  raw := q.raw
  hasCursorBounds := q.hasCursorBounds

/-- The id that a cursor over the ids stands at. -/
def anchorId : Value → Option String
  | .string s => some s
  | .int i => some (toString i.toInt)
  | _ => none

def idOrderSortedkeys (q : Query) : Option ScanType :=
  match q.orderBy with
  | [order] =>
    if order.field ≠ "id" || q.endAt.isSome || q.endBefore.isSome || !q.unfiltered then none
    else match q.startAt,q.startAfter with
      | some (v::_),_ => (anchorId v).map fun id => .sortedKeys (some id) false !order.ascending
      | _,some (v::_) => (anchorId v).map fun id => .sortedKeys (some id) true !order.ascending
      | _,_ => some (.sortedKeys none false !order.ascending)
  | _ => none

def tryPlanVector (q : Query) (im : IndexManager) : Option Choice :=
  match q.filters.filter (fun f => f.op = .near),q.orGroups with
  | [nf],[] =>
    match nf.value with
    | .binary qb => (im.vector q.collection nf.field).bind fun d =>
      if qb.length%4 ≠ 0 ∨ qb.length/4 ≠ d.dim.toNat then none
      else
        let extra := q.filters.filter fun f => f.op ≠ .near
        some ⟨.vectorKnn nf.field qb d.metric extra,q.pageNeed,false,true,some .near⟩
    | _ => none
  | _,_ => none

def maxTraverseDepth : ℤ := 32

def stringAt (pairs : List (String × Value)) (key : String) : Option String :=
  match pairs.find? fun p => p.1 = key with
  | some (_,.string s) => some s
  | _ => none

def intAt (pairs : List (String × Value)) (key : String) : Option Int64 :=
  match pairs.find? fun p => p.1 = key with
  | some (_,.int i) => some i
  | _ => none

def directionOf (n : UInt32) : Option TraverseDir :=
  if n = 0 then some .outgoing else if n = 1 then some .incoming else if n = 2 then some .both else none

/-- Incoming references are followed where they are kept, or through a collection of edges. -/
def incomingOk (im : IndexManager) (startCol : String) (via : Option String) (direction : TraverseDir) : Bool :=
  direction = .outgoing || im.tracked startCol || via.any fun e => im.hasSecondary e "_from" && im.hasSecondary e "_to"

def tryPlanTraverse (q : Query) (im : IndexManager) : Option Choice :=
  match q.filters.filter (fun f => f.op = .traverse),q.orGroups with
  | [tf],[] =>
    match tf.value with
    | .map pairs => do
      if tf.field = "" then none
      let startId ← stringAt pairs "id"
      let depth ← intAt pairs "depth"
      if ¬(1 ≤ depth.toInt ∧ depth.toInt ≤ maxTraverseDepth) then none
      let direction ← directionOf ((intAt pairs "dir").getD 0).toUInt64.toUInt32
      let via := stringAt pairs "via"
      if !incomingOk im tf.field via direction then none
      let extra := q.filters.filter fun f => f.op ≠ .traverse
      let spec : TraverseSpec := ⟨direction,stringAt pairs "edge",depth.toInt.toNat,q.limit.getD 100,via,stringAt pairs "weight"⟩
      some ⟨.traverse tf.field startId spec extra,q.pageNeed,false,true,some .traverse⟩
    | _ => none
  | _,_ => none

def planFullText (q : Query) (im : IndexManager) : Option Choice :=
  q.filters.findSome? fun f =>
    match f.value with
    | .string words =>
      if (f.op = .matchWords ∨ f.op = .matchPrefix) ∧ f.field ≠ "_time" ∧ (im.ftsOf q.collection f.field).isSome then
        some ⟨.invertedIndex f.field words (f.op = .matchPrefix),q.limit,false,false,none⟩
      else none
    | _ => none

section alternatives
variable (text : QueryText)

/-- The values of other types that an equality may find as well. -/
def numericAlternatives : Value → List Value
  | .string s =>
    [.string s]++((parseInt64 s).map Value.int).toList++
      (((text.parseFloat s).filter F64.isFinite).map Value.float).toList
  | .int i =>
    [.int i,.string (toString i.toInt)]++(if (F64.ofInt64 i).toInt64 = i then [.float (.ofInt64 i)] else [])
  | .float f =>
    -- the range test is on the rounded ends, so the cast may still stop at the upper one
    [.float f,.string (text.formatFloat f)]++
      (if f.isFinite && f.isIntegral && -2^63 ≤ f.truncated && f.truncated ≤ 2^63 then [.int f.toInt64] else [])
  | v => [v]

def ambiguous : Value → Bool
  | .string s => (parseInt64 s).isSome || (text.parseFloat s).isSome
  | .int _ | .float _ => true
  | _ => false

/-- Through the first index that starts with the field, else through the field's own. -/
def scanOfAlternative (im : IndexManager) (q : Query) (field : String) (alt : Value) : Option ScanType :=
  match (im.indexesForCollection q.collection).find? fun idx =>
    compositeDefUsable idx.definition q && (idx.definition.fields.head?).any fun f => f.field = field with
  | some idx => some (.compositeIndex idx.definition.id [field] [alt] false)
  | none => if im.hasSecondary q.collection field then some (.secondaryIndex field (encodeScalar alt)) else none

def getSingleFilterScan (im : IndexManager) (q : Query) (field : String) (value : Value) : Option ScanType :=
  match (numericAlternatives text value).filterMap (scanOfAlternative im q field) with
  | [] => none
  | [scan] => some scan
  | scans => some (.unionIndex scans)

/-- The first list of allowed values decides; without one, groups of one filter each. -/
def tryPlanUnion (q : Query) (im : IndexManager) : Option ScanType :=
  let lists := q.filters.filterMap fun f : Filter =>
    match f.op,f.value with
    | .within,.array values => some (f.field,values)
    | _,_ => none
  match lists with
  | (field,values)::_ => (values.mapM fun v => getSingleFilterScan text im q field v).map .unionIndex
  | [] =>
    if q.orGroups.isEmpty then none
    else (q.orGroups.mapM fun group : List Filter =>
      match group with
      | [f] => getSingleFilterScan text im q f.field f.value
      | _ => none).map .unionIndex

end alternatives

section composite

/-- The filters' values for the leading fields of an index; the first field is the first filter's. -/
def eqTuple (filters : List Filter) (first : String) (alt : Value) : List CompositeField → List (String × Value)
  | [] => []
  | f::fs => if f.field = first then (f.field,singleOf alt)::rest fs else []
where
  rest : List CompositeField → List (String × Value)
    | [] => []
    | f::fs =>
      match filters.find? fun c => c.field = f.field with
      | some c => (f.field,singleOf c.value)::rest fs
      | none => []

/-- The index is read backwards when it has its first ordered field the other way round. -/
def reverseScan : List CompositeField → List OrderBy → Bool
  | f::_,o::_ => f.field = o.field && (f.direction = .asc : Bool) != o.ascending
  | _,_ => false

def orderFollows (reverse : Bool) : List CompositeField → List OrderBy → Bool
  | _,[] => true
  | [],_::_ => false
  | f::fs,o::os =>
    f.field = o.field && (f.direction = .asc : Bool) == (o.ascending != reverse) && orderFollows reverse fs os

/-- The first index whose leading fields are those of the filters, and whether it has the rest in order. -/
def eqScan (q : Query) (im : IndexManager) (first : String) (alt : Value) : Option (ScanType × Bool) :=
  (im.indexesForCollection q.collection).findSome? fun idx =>
    let tuple := eqTuple q.filters first alt idx.definition.fields
    if compositeDefUsable idx.definition q && tuple.length = q.filters.length then
      let later := idx.definition.fields.drop tuple.length
      let reverse := reverseScan later q.orderBy
      some (.compositeIndex idx.definition.id (tuple.map Prod.fst) (tuple.map Prod.snd) reverse,
        orderFollows reverse later q.orderBy)
    else none

def tryPlanCompositeEq (text : QueryText) (q : Query) (im : IndexManager) : Option (ScanType × Bool × Bool) :=
  match q.filters with
  | [] => none
  | first::_ =>
    if !q.filters.all Filter.isPointLookup then none
    else match (numericAlternatives text first.value).filterMap (eqScan q im first.field) with
      | [] => none
      | [(scan,ordered)] => some (scan,ordered,q.orGroups.isEmpty && !q.filters.any fun f => f.op = .within)
      | scans => some (.unionIndex (scans.map Prod.fst),false,false)

/-- The equalities on the leading fields and the one range behind them; nothing where another operator
stands in the way. -/
def rangePrefix (filters : List Filter) : List CompositeField → Option (List Value × Option (Operator × Value))
  | [] => some ([],none)
  | f::fs =>
    match filters.find? fun c => c.field = f.field with
    | none => some ([],none)
    | some c =>
      if c.op = .eq then (rangePrefix filters fs).map fun r => (c.value::r.1,r.2)
      else if c.isRange then some ([],some (c.op,c.value))
      else none

def buildPrefixKey (d : CompositeIndexDefinition) (values : List Value) : IndexKey := ⟨d.encodeCompositePrefix values⟩

/-- Above every key that the given one begins. -/
def upperSentinel (key : IndexKey) : IndexKey := ⟨key.bytes++[0xFF]⟩

def buildValueKey (d : CompositeIndexDefinition) (values : List Value) (value : Value) : Option IndexKey :=
  (d.fields[values.length]?).map fun f => ⟨d.encodeCompositePrefix values++encodeKeyValue f.direction value⟩

def rangesOf (prefixKey valueKey : IndexKey) : Operator → List (KeyBound × KeyBound)
  | .gt => [(.excluded (upperSentinel valueKey),.included (upperSentinel prefixKey))]
  | .gte => [(.included valueKey,.included (upperSentinel prefixKey))]
  | .lt => [(.included prefixKey,.excluded valueKey)]
  | .lte => [(.included prefixKey,.included (upperSentinel valueKey))]
  | .ne => [(.included prefixKey,.excluded valueKey),(.excluded (upperSentinel valueKey),.included (upperSentinel prefixKey))]
  | _ => []

def compositeRange (q : Query) (d : CompositeIndexDefinition) : Option ScanType :=
  if !compositeDefUsable d q then none
  else match rangePrefix q.filters d.fields with
    | none | some ([],none) => none
    | some (values,none) =>
      let prefixKey := buildPrefixKey d values
      some (.compositeIndexRange d.id [(.included prefixKey,.included (upperSentinel prefixKey))] false)
    | some (values,some (op,value)) => (buildValueKey d values value).map fun valueKey =>
      .compositeIndexRange d.id (rangesOf (buildPrefixKey d values) valueKey op) false

def tryPlanCompositeRange (q : Query) (im : IndexManager) : Option ScanType :=
  if q.filters.isEmpty || 1 < q.filters.countP Filter.isRange ||
      !q.filters.all fun f => f.isPointLookup || f.isRange then none
  else (im.indexesForCollection q.collection).findSome? fun idx => compositeRange q idx.definition

end composite

section ordered

def cursorBound (encode : List Value → Option IndexKey) : Option (List Value) → Option (List Value) → KeyBound
  | some v,after =>
    match encode v,after.bind encode with
    | some k,_ => .included k
    | none,some k => .excluded k
    | none,none => .unbounded
  | none,some v => ((encode v).map .excluded).getD .unbounded
  | none,none => .unbounded

def scalarCursor : List Value → Option IndexKey
  | [] => none
  | v::_ => some (encodeScalar v)

def planByTuple (q : Query) (idx : CompositeIndex) : Option Choice :=
  let d := idx.definition
  let reverse := reverseScan d.fields q.orderBy
  if compositeDefUsable d q && orderFollows reverse d.fields q.orderBy then
    let cursor v := some (encodeCompositeKey d v "")
    some ⟨.compositeIndexRange d.id
      [(cursorBound cursor q.startAt q.startAfter,cursorBound cursor q.endAt q.endBefore)] reverse,
      if q.unfiltered then q.pageNeed else none,true,q.unfiltered,none⟩
  else none

def planBySecondary (q : Query) (im : IndexManager) (first : OrderBy) : Option Choice :=
  if im.hasSecondary q.collection first.field then
    let single : Bool := q.orderBy.length = 1
    some ⟨.secondaryIndexRange first.field (cursorBound scalarCursor q.startAt q.startAfter)
      (cursorBound scalarCursor q.endAt q.endBefore) !first.ascending,
      if single && q.unfiltered then q.pageNeed else none,single,q.unfiltered,none⟩
  else none

def planById (q : Query) : Option Choice := (idOrderSortedkeys q).map fun scan => ⟨scan,q.limit,true,true,none⟩

/-- Orders that an index already has: the ids, the leading fields of a tuple, one field of its own. -/
def planOrdered (q : Query) (im : IndexManager) : Option Choice :=
  match q.orderBy with
  | [] => none
  | first::_ =>
    planById q
      <|> (im.indexesForCollection q.collection).findSome? (planByTuple q)
      <|> planBySecondary q im first

end ordered

section plan
variable (text : QueryText)

/-- A scan whose rows are checked and ordered afterwards. -/
def unproved (scan : ScanType) : Choice := ⟨scan,none,false,false,none⟩

/-- The equality with the fewest ids, unless one of several types comes first. -/
def smallestPosting (q : Query) (im : IndexManager) :
    List Filter → Option (ℕ × Filter × IndexKey) → ScanType ⊕ Option (Filter × IndexKey)
  | [],best => .inr (best.map Prod.snd)
  | f::fs,best =>
    match im.secondaryOf q.collection f.field with
    | none => smallestPosting q im fs best
    | some sec =>
      if f.op ≠ .eq then smallestPosting q im fs best
      else if ambiguous text f.value then
        match getSingleFilterScan text im q f.field f.value with
        | some scan => .inl scan
        | none => smallestPosting q im fs best
      else
        let key := encodeScalar f.value
        let count := (sec.idsAt key).length
        smallestPosting q im fs (if best.all fun b => count < b.1 then some (count,f,key) else best)

def planPosting (q : Query) (im : IndexManager) : Option Choice :=
  match smallestPosting text q im q.filters none with
  | .inl scan => some (unproved scan)
  | .inr none => none
  | .inr (some (f,key)) =>
    let satisfied : Bool := q.filters.length = 1 && q.orGroups.isEmpty
    some ⟨.secondaryIndex f.field key,if satisfied && q.orderBy.isEmpty then q.pageNeed else none,false,satisfied,none⟩

/-- A single equality without an order is left to the field's own index. -/
def yieldToSecondary (q : Query) (im : IndexManager) : Bool :=
  match q.filters with
  | [f] => q.orderBy.isEmpty && q.orGroups.isEmpty && f.op = .eq && im.hasSecondary q.collection f.field &&
    match f.value with
    | .string s => (parseInt64 s).isNone
    | _ => true
  | _ => false

/-- The seven priorities. -/
def chooseReady (q : Query) (im : IndexManager) (manyRows : Bool) : Choice :=
  let yields := manyRows && yieldToSecondary q im
  (planFullText q im
    <|> tryPlanVector q im
    <|> tryPlanTraverse q im
    <|> (if yields then none else (tryPlanCompositeEq text q im).map fun r : ScanType × Bool × Bool =>
      Choice.mk r.1 (if r.2.1 then q.pageNeed else none) r.2.1 r.2.2 none)
    <|> planOrdered q im
    <|> (if manyRows && !yields then (tryPlanCompositeRange q im).map unproved else none)
    <|> (if !q.orGroups.isEmpty || q.filters.any fun f => f.op = Operator.within then
      (tryPlanUnion text q im).map unproved else none)
    <|> (if manyRows then planPosting text q im else none)).getD
    ⟨.fullCollection,if q.unfiltered && q.orderBy.isEmpty then q.pageNeed else none,false,q.unfiltered,none⟩

/-- Before the indexes are ready only the vectors and the ids are scanned by order. -/
def choose (q : Query) (im : IndexManager) (collectionRows workerCount : ℕ) (indexReady vectorReady : Bool) : Choice :=
  if indexReady then chooseReady text q im (50 < collectionRows/max workerCount 1)
  else ((if vectorReady then tryPlanVector q im else none) <|> planById q).getD (unproved .fullCollection)

def plan (q : Query) (im : IndexManager) (collectionRows workerCount : ℕ) (indexReady vectorReady : Bool) : QueryPlan :=
  makePlan q (choose text q im collectionRows workerCount indexReady vectorReady)

end plan

end QueryPlanner

end HakoDB

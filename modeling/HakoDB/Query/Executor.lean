import HakoDB.Engine.BlobRoundTrip
import HakoDB.Query.Matcher
import HakoDB.Query.Scan
import HakoDB.Query.ViewMatch

/-! The executor: the rows of a plan's scan are read, matched, ordered and cut. Small and index-satisfied
results, the best few of an order, and large results go through lanes of their own. -/
namespace HakoDB
open ByteCodec HashMap

/-- Rows with their documents. -/
abbrev Docs := List (String × HakoDoc)

def compareBy (o : OrderBy) (a b : String × HakoDoc) : Ordering :=
  let ord :=
    if o.field = "id" then compare a.1 b.1
    else if o.field = "_time" then compare a.2.time.toInt b.2.time.toInt
    else compareOptional (a.2.getPath o.field) (b.2.getPath o.field)
  if o.ascending then ord else ord.swap

def compareRows (orders : List OrderBy) (a b : String × HakoDoc) : Ordering :=
  orders.foldr (fun o later => (compareBy o a b).then later) .eq

/-- The sort keeps the order of rows that compare equal. -/
def sortRows (orders : List OrderBy) (rows : Docs) : Docs :=
  rows.insertionSort fun a b => compareRows orders a b ≠ .gt

/-- The conditions under which an empty scan is done again over all documents: an equality with a value that
another type may hold as well. -/
def indexMayHideXtype (text : QueryText) (p : QueryPlan) : Bool :=
  (match p.scan with
  | .secondaryIndex _ _ | .compositeIndex _ _ _ _ | .compositeIndexRange _ _ _ | .unionIndex _ => true
  | _ => false) && p.orGroups.isEmpty && p.filters.any fun f => f.op = .eq && QueryPlanner.ambiguous text f.value

namespace QueryPlan

/-- The rows still to be skipped; the scan of the ids has skipped them. -/
def skipLater (p : QueryPlan) : ℕ := if p.scan.isSortedKeys then 0 else (p.offset.getD 0).toNat

def cut {α : Type} (p : QueryPlan) (rows : List α) : List α := takeUpTo p.limit (rows.drop p.skipLater)

def unsorted (p : QueryPlan) : Bool := !p.orderBySatisfied && !p.orderBy.isEmpty

/-- So many matching rows make the page; the sum wraps around. -/
def earlyNeed (p : QueryPlan) : Option ℕ :=
  if (p.orderBy.isEmpty || p.orderBySatisfied) && !p.hasCursorBounds then
    p.limit.map fun l => (l+p.offset.getD 0).toNat
  else none

def satisfied (p : QueryPlan) : Bool := p.orderBySatisfied && p.filtersSatisfiedByIndex

/-- The best few of an order that the scan does not have. -/
def takesTop (p : QueryPlan) (found : ℕ) : Bool :=
  p.unsorted && !p.hasCursorBounds && p.limit.any fun l => l.toNat < found

end QueryPlan

section lanes
variable (env : QueryEnv) (s : StorageEngine)

/-- The links of a row are followed unless the query defers them. -/
def showRow (p : QueryPlan) (doc : HakoDoc) : HakoDoc :=
  if p.deferBlobs then doc
  else match s.blobManager with
    | some bm => inflateBlobs bm doc
    | none => doc

def showRows (p : QueryPlan) (rows : Docs) : Docs := rows.map fun row => (row.1,showRow s p row.2)

/-- The bytes of a row, if it has any. -/
def rowBytes (row : String × Pointer) : Option (String × Bytes) :=
  match s.readPointer env.zstd row.2 with
  | .ok (some bytes) => some (row.1,bytes)
  | _ => none

/-- A row that cannot be read or decoded is dropped, and so is one that the plan still has to check and that
does not match. -/
def decodeRow (p : QueryPlan) (row : String × Pointer) : Option (String × HakoDoc) :=
  (rowBytes env s row).bind fun r =>
    (if p.filtersSatisfiedByIndex then HakoDoc.decode r.2
      else unifiedMatchDecode env.text.toTextOps r.1 r.2 (p.prepareOptimized env.text.formatFloat)).map fun doc => (r.1,doc)

/-- The loop of the small lane stops at the row that fills the page. -/
def decodeUntil (p : QueryPlan) (need : Option ℕ) : Rows → Docs → Docs
  | [],out => out
  | row::rows,out =>
    let out' := out++(decodeRow env s p row).toList
    if need.any fun n => n ≤ out'.length then out' else decodeUntil p need rows out'

def executeSmall (p : QueryPlan) (rows : Rows) : Docs :=
  let found := showRows s p (decodeUntil env s p p.earlyNeed rows [])
  p.cut (if p.unsorted then sortRows p.orderBy found else found)

/-- The bytes of the rows, for the lanes that stop at an unreadable one. -/
def readRows (rows : Rows) : Res (List (String × Bytes)) := do
  let found ← rows.mapM fun row => do
    let bytes ← s.readPointer env.zstd row.2
    return bytes.map fun b => (row.1,b)
  return found.filterMap id

def executeSatisfiedParallel (p : QueryPlan) (rows : Rows) : Res Docs := do
  let staged ← readRows env s rows
  let kept := match p.earlyNeed with
    | some n => staged.take n
    | none => staged
  return p.cut (showRows s p (kept.filterMap fun row => (HakoDoc.decode row.2).map fun doc => (row.1,doc)))

/-- The entry of a row for the heap. Only the filters and the groups are checked here, and only where there are any. -/
def topEntry (p : QueryPlan) (row : (String × Pointer) × ℕ) (bytes : Bytes) : Option TopEntry :=
  (HakoDocView.new bytes).bind fun view =>
    if (!p.filters.isEmpty || !p.orGroups.isEmpty) && !p.filtersSatisfiedByIndex &&
        !Worker.matchesFiltersView env.text.toTextOps row.1.1 bytes p then none
    else some ⟨topKeys view p.orderBy,row.2,row.1.1,row.1.2⟩

def topStep (p : QueryPlan) (k : ℕ) (heap : List TopEntry) (row : (String × Pointer) × ℕ) : Res (List TopEntry) := do
  let bytes ← s.readPointer env.zstd row.1.2
  return ((bytes.bind (topEntry env p row)).map ((env.heap p.orderBy).offer k heap)).getD heap

/-- The documents of the entries are decoded one after the other, until the page is full. -/
def fillPage (offset limit : ℕ) : List TopEntry → ℕ → Docs → Res Docs
  | [],_,out => .ok out
  | e::entries,skipped,out => do
    let bytes ← s.readPointer env.zstd e.ptr
    match bytes.bind HakoDoc.decode with
    | none => fillPage offset limit entries skipped out
    | some doc =>
      if skipped < offset then fillPage offset limit entries (skipped+1) out
      else if limit ≤ out.length then .ok out
      else fillPage offset limit entries skipped (out++[(e.id,doc)])

/-- The heap keeps the best rows of limit and offset together, the sum stopping at the largest number. -/
def executeTopn (p : QueryPlan) (rows : Rows) : Res Docs := do
  let limit := (p.limit.map UInt64.toNat).getD (2^64-1)
  let offset := (p.offset.getD 0).toNat
  let k := min (limit+offset) (2^64-1)
  if k = 0 then return []
  let heap ← rows.zipIdx.foldlM (topStep env s p k) []
  let out ← fillPage env s offset limit (TopItems.sortBy (cmpTop p.orderBy) heap) 0 []
  return showRows s p out

/-- Where the row lies in its file. -/
def physicalOffset : Pointer → ℕ
  | .segment _ offset _ | .blob offset _ => offset.toNat
  | _ => 0

def sweepOrder (rows : Rows) : Rows := rows.insertionSort fun a b => physicalOffset a.2 ≤ physicalOffset b.2

def targetWorkers (rows : ℕ) : ℕ := max 1 (min env.workers (if rows ≤ 150 then 1 else if rows ≤ 500 then 2 else env.workers))

def runTask (p : QueryPlan) (rows : Rows) : Docs := showRows s p (rows.filterMap (decodeRow env s p))

def firstOccurrences (ids : List String) : List String := ids.reverse.dedup.reverse

/-- One worker leaves the rows in the order of the files; several hand them over by id, and they are put
back in the order of the scan. -/
def collectTasks (p : QueryPlan) (scanned rest : Rows) : Docs :=
  let done := runTask env s p rest
  if targetWorkers env rest.length = 1 then done
  else
    let byId : HMap String HakoDoc := insertAll ∅ done
    (firstOccurrences (scanned.map Prod.fst)).filterMap fun id => (byId.lookup id).map fun doc => (id,doc)

def probeRows : ℕ := 2000

/-- Phases three to six: sweep the files, probe, share out, restore the order, sort and cut. -/
def executeLarge (p : QueryPlan) (scanned : Rows) : Docs :=
  let work := sweepOrder scanned
  let probe := match p.earlyNeed with
    | some need => if need < work.length then work.take probeRows else []
    | none => []
  let probed := runTask env s p probe
  let rest := if p.earlyNeed.any fun need => need ≤ probed.length then [] else work.drop probe.length
  let found := probed++collectTasks env s p scanned rest
  p.cut (if p.unsorted then sortRows p.orderBy found else found)

end lanes

/-- Two workers over ASCII text, tables that are met by increasing key, no vectors. -/
def QueryEnv.ascii : QueryEnv where
  text := {asciiText with
    tokenize := fun s => ((s.map Char.toLower).toList.splitOnP fun c => !c.isAlphanum).filterMap fun w =>
      if w.length ≤ 1 then none else some (.ofList w)
    formatFloat := fun f => toString f.truncated}
  zstd := none
  workers := 2
  indexOrder := .byKey
  unionOrder := .byKey
  heap := fun _ => .sorted _
  knn := fun _ _ _ _ _ _ _ _ => []
  knn_live := fun _ _ _ _ _ _ _ _ _ h => absurd h List.not_mem_nil

/-- A collection whose documents are held in memory. -/
def StorageEngine.holding (docs : Docs) : StorageEngine :=
  {StorageEngine.fresh .default "c" none 0 with
    index := insertAll ∅ (docs.map fun d => (d.1,.inlined d.2.encode))
    sortedKeys := (docs.map Prod.fst).insertionSort (· ≤ ·)}

namespace IndexManager

def bare : IndexManager := ⟨⟨0,fun _ => none,fun _ => none⟩,fun _ => none,fun _ => none,fun _ _ => none,fun _ => false⟩

/-- One tuple index. -/
def byTuple (d : CompositeIndexDefinition) : IndexManager :=
  {bare with composite :=
    ⟨d.id+1,fun i => if i = d.id then some ⟨d,.empty⟩ else none,fun col => if col = d.collection then some [d.id] else none⟩}

/-- One index of a single field. -/
def byField (collection field : String) : IndexManager :=
  {bare with secondary := fun col => if col = collection then some fun f => if f = field then some .empty else none else none}

end IndexManager

def sequentialCap : ℕ := 2000

/-- The rows of the scan, or of a sweep over everything where the scan may have missed values of other types. -/
def scanPhase (env : QueryEnv) (s : StorageEngine) (im : IndexManager) (p : QueryPlan) : Res (QueryPlan × Rows) := do
  let rows ← executeSingleScan env s im p.collection p.scan p.scanLimit p.offset
  if rows.isEmpty && indexMayHideXtype env.text p then
    return ({p with scan := .fullCollection, filtersSatisfiedByIndex := false},scanFull env s none)
  return (p,rows)

def executeLanes (env : QueryEnv) (s : StorageEngine) (p : QueryPlan) (rows : Rows) : Res Docs :=
  if rows.isEmpty then .ok []
  else if p.takesTop rows.length then executeTopn env s p rows
  else if rows.length ≤ 250 || p.satisfied && rows.length ≤ sequentialCap then .ok (executeSmall env s p rows)
  else if p.satisfied then executeSatisfiedParallel env s p rows
  else .ok (executeLarge env s p rows)

def execute (env : QueryEnv) (s : StorageEngine) (im : IndexManager) (p : QueryPlan) : Res Docs := do
  let found ← scanPhase env s im p
  executeLanes env s found.1 found.2

end HakoDB

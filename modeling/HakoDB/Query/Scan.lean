import HakoDB.Query.Planner
import HakoDB.Query.TopHeap
import HakoDB.Storage.Shard

/-! The scans of a plan over one shard. A scan gives ids with their pointers; deleted ones are left out, and
a bounded scan stops when it has enough. -/
namespace HakoDB
open ByteCodec HashMap

namespace StorageEngine

/-- Sums of positions and limits wrap around. -/
def addUsize (a b : ℕ) : ℕ := (a+b)%2^64

/-- Where a page by increasing id begins; a missing anchor counts as the key behind it. -/
def startPosition (s : StorageEngine) (start : Option String) (exclusive : Bool) (skip : ℕ) : ℕ :=
  match start with
  | some key =>
    match SortedList.search s.sortedKeys key with
    | .ok p => addUsize (addUsize p (if exclusive then 1 else 0)) skip
    | .error p => addUsize p skip
  | none => skip

def sortedKeyRange (s : StorageEngine) (start : Option String) (exclusive : Bool) (offset limit : Option UInt64) : ℕ × ℕ :=
  let total := s.sortedKeys.length
  let startPos := s.startPosition start exclusive (offset.getD 0).toNat
  let endPos := (limit.map fun l => min (addUsize startPos l.toNat) total).getD total
  if total ≤ startPos then (total,total) else (startPos,endPos)

/-- Where a page by decreasing id begins: it takes the keys below. -/
def topPosition (s : StorageEngine) (start : Option String) (exclusive : Bool) : ℕ :=
  match start with
  | some key =>
    match SortedList.search s.sortedKeys key with
    | .ok p => if exclusive then p else p+1
    | .error p => p
  | none => s.sortedKeys.length

def sortedKeyRangeReverse (s : StorageEngine) (start : Option String) (exclusive : Bool) (offset limit : Option UInt64) : ℕ × ℕ :=
  let stop := s.topPosition start exclusive-(offset.getD 0).toNat
  let first := (limit.map fun l => stop-l.toNat).getD 0
  (min first stop,stop)

/-- A live key and where its document is. -/
def liveAt (s : StorageEngine) (key : String) : Option (String × Pointer) :=
  (s.index.lookup key).bind fun p => if p.isLive then some (key,p) else none

end StorageEngine

/-- What the scans and the readers of one executor depend on beside the shard: the orders in which tables give
their entries, the heaps, the search over the vector graphs, which drops rows and invents none, and the compressor. -/
structure QueryEnv where
  text : QueryText
  zstd : Option Zstd
  workers : ℕ
  indexOrder : HashOrder String Pointer
  unionOrder : HashOrder String Pointer
  heap : ∀ orders,TopItems.MaxHeap (cmpTop orders)
  knn : StorageEngine → IndexManager → String → String → Bytes → Metric → List Filter → Option UInt64 → List (String × Pointer)
  knn_live : ∀ s im collection field query metric extra limit,∀ row ∈ knn s im collection field query metric extra limit,
    s.liveAt row.1 = some row

abbrev Rows := List (String × Pointer)

def reached (limit : Option UInt64) (n : ℕ) : Bool := limit.any fun l => l.toNat ≤ n

/-- One list of ids: the walk ends with the row that fills the bound. -/
def pushLive (s : StorageEngine) (limit : Option UInt64) : List String → Rows → Rows
  | [],out => out
  | id::ids,out =>
    match s.liveAt id with
    | none => pushLive s limit ids out
    | some row => if reached limit (out.length+1) then out++[row] else pushLive s limit ids (out++[row])

/-- Several lists of ids: the bound is looked at after each of them too. -/
def pushGroups (s : StorageEngine) (limit : Option UInt64) : List (List String) → Rows → Rows
  | [],out => out
  | ids::groups,out =>
    let out' := pushLive s limit ids out
    if reached limit out'.length then out' else pushGroups s limit groups out'

theorem pushLive_some (s : StorageEngine) {l : UInt64} (ids : List String) {out : Rows} (h : out.length < l.toNat) :
    pushLive s (some l) ids out = (out++ids.filterMap s.liveAt).take l.toNat := by
  induction ids generalizing out with
  | nil => simp [pushLive,List.take_of_length_le h.le]
  | cons id ids ih =>
    rw [pushLive,List.filterMap_cons]
    cases s.liveAt id with
    | none => exact ih h
    | some row =>
      have happend : out++row::ids.filterMap s.liveAt = (out++[row])++ids.filterMap s.liveAt := by simp
      simp only [reached,Option.any_some,decide_eq_true_eq,happend]
      split_ifs with hfull
      · rw [List.take_append_of_le_length (by simpa using hfull)]
        exact (List.take_of_length_le (by simpa using h)).symm
      · exact ih (by simpa using hfull)

def inDirection {α : Type} (reverse : Bool) (xs : List α) : List α := if reverse then xs.reverse else xs

def takeUpTo {α : Type} (limit : Option UInt64) (xs : List α) : List α :=
  match limit with
  | some l => xs.take l.toNat
  | none => xs

/-- The entries of a range of keys; the tree panics at a range whose end lies before its start. -/
def walkTree {β : Type} (m : OrderedMap IndexKey β) (start stop : KeyBound) (reverse : Bool) : Res (List β) :=
  if start.inverted stop then .error .panic
  else .ok (inDirection reverse ((m.range (start.within stop)).map Prod.snd))

/-- The ranges of a tuple index in turn. -/
def walkRanges (s : StorageEngine) (tree : OrderedMap IndexKey String) (reverse : Bool) (limit : Option UInt64) :
    List (KeyBound × KeyBound) → Rows → Res Rows
  | [],out => .ok out
  | (start,stop)::ranges,out => do
    let ids ← walkTree tree start stop reverse
    let out' := pushGroups s limit (ids.map fun id => [id]) out
    if reached limit out'.length then return out'
    walkRanges s tree reverse limit ranges out'

/-- A slice that would end before its start panics. -/
def scanSortedKeys (s : StorageEngine) (start : Option String) (exclusive reverse : Bool) (limit offset : Option UInt64) : Res Rows :=
  let range := if reverse then s.sortedKeyRangeReverse start exclusive offset limit
    else s.sortedKeyRange start exclusive offset limit
  if range.2 < range.1 then .error .panic
  else .ok (pushLive s limit (inDirection reverse ((s.sortedKeys.take range.2).drop range.1)) [])

def scanSecondary (s : StorageEngine) (im : IndexManager) (collection field : String) (value : IndexKey)
    (limit : Option UInt64) : Rows :=
  match im.secondaryOf collection field with
  | some sec => pushLive s limit (sec.idsAt value) []
  | none => []

def scanSecondaryRange (s : StorageEngine) (im : IndexManager) (collection field : String) (start stop : KeyBound)
    (reverse : Bool) (limit : Option UInt64) : Res Rows :=
  match im.secondaryOf collection field with
  | some sec => do
    let groups ← walkTree sec start stop reverse
    return pushGroups s limit (groups.map fun ids => inDirection reverse ids.items) []
  | none => return []

/-- The ids whose tuples begin with the values; the bound counts the dead ones too. -/
def scanComposite (s : StorageEngine) (im : IndexManager) (indexId : UInt32) (values : List Value) (reverse : Bool)
    (limit : Option UInt64) : Rows :=
  match im.composite.byId indexId with
  | some idx =>
    let key := QueryPlanner.buildPrefixKey idx.definition values
    let found := (idx.tree.range fun k => key ≤ k && k ≤ QueryPlanner.upperSentinel key).map Prod.snd
    pushGroups s limit ((takeUpTo limit (inDirection reverse found)).map fun id => [id]) []
  | none => []

def scanCompositeRange (s : StorageEngine) (im : IndexManager) (indexId : UInt32) (ranges : List (KeyBound × KeyBound))
    (reverse : Bool) (limit : Option UInt64) : Res Rows :=
  match im.composite.byId indexId with
  | some idx => walkRanges s idx.tree reverse limit ranges []
  | none => return []

def scanCursor (s : StorageEngine) (im : IndexManager) (indexId : UInt32) (start stop : KeyBound) (reverse : Bool)
    (limit : Option UInt64) : Res Rows :=
  match im.composite.byId indexId with
  | some idx => do
    let ids ← walkTree idx.tree start stop reverse
    return pushLive s limit ids []
  | none => return []

/-- The bound is put on the ids that the words give, before the deleted ones are left out. -/
def scanInverted (text : QueryText) (s : StorageEngine) (im : IndexManager) (collection field query : String)
    (byPrefix : Bool) (limit : Option UInt64) : Rows :=
  match im.ftsOf collection field with
  | some words =>
    match if byPrefix then words.searchByPrefix text query else words.search text query with
    | some ids => pushLive s limit (takeUpTo limit ids) []
    | none => []
  | none => []

section scan
variable (env : QueryEnv) (s : StorageEngine) (im : IndexManager) (collection : String)

def scanFull (limit : Option UInt64) : Rows :=
  takeUpTo limit ((env.indexOrder.entries s.index).filter fun e => e.2.isLive)

mutual
def executeSingleScan : ScanType → Option UInt64 → Option UInt64 → Res Rows
  | .fullCollection,limit,_ => .ok (scanFull env s limit)
  | .sortedKeys start exclusive reverse,limit,offset => scanSortedKeys s start exclusive reverse limit offset
  | .secondaryIndex field value,limit,_ => .ok (scanSecondary s im collection field value limit)
  | .compositeIndex indexId _ values reverse,limit,_ => .ok (scanComposite s im indexId values reverse limit)
  | .compositeIndexRange indexId ranges reverse,limit,_ => scanCompositeRange s im indexId ranges reverse limit
  | .secondaryIndexRange field start stop reverse,limit,_ =>
    scanSecondaryRange s im collection field start stop reverse limit
  | .cursorIndex start stop indexId reverse,limit,_ => scanCursor s im indexId start stop reverse limit
  | .vectorKnn field query metric extra,limit,_ => .ok (env.knn s im collection field query metric extra limit)
  | .invertedIndex field query byPrefix,limit,_ => .ok (scanInverted env.text s im collection field query byPrefix limit)
  | .unionIndex scans,limit,_ => do
    let rows ← unionScans scans
    return takeUpTo limit (env.unionOrder.entries (insertAll ∅ rows))
  | .traverse _ _ _ _,_,_ =>
    corrupt "traverse scans need the decoded query path (use query(), not raw/projected/walk)"
/-- The rows of all the parts of a union, without bounds. -/
def unionScans : List ScanType → Res Rows
  | [] => .ok []
  | scan::scans => do
    let rows ← executeSingleScan scan none none
    let more ← unionScans scans
    return rows++more
end

end scan

end HakoDB

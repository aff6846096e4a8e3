import HakoDB.Lib.ReadAll
import HakoDB.Query.Paging

/-! The ranges of keys that the scans ask the trees for. A tree panics at a range that ends before it starts; only
the cursors of a query can make one, where an index gives the order. -/
namespace HakoDB
open ByteCodec ReadAll

namespace IndexKey

theorem lt_iff (a b : Bytes) : (⟨a⟩ : IndexKey) < ⟨b⟩ ↔ a.map UInt8.toNat < b.map UInt8.toNat := Iff.rfl

@[simp] theorem append_lt_append_iff (front a b : Bytes) :
    (⟨front++a⟩ : IndexKey) < ⟨front++b⟩ ↔ (⟨a⟩ : IndexKey) < ⟨b⟩ := by
  simp only [lt_iff,List.map_append]
  induction front with
  | nil => rfl
  | cons x front ih => simpa using ih

theorem lt_append (front : Bytes) {rest : Bytes} (h : rest ≠ []) : (⟨front⟩ : IndexKey) < ⟨front++rest⟩ := by
  have hnil : (⟨front++[]⟩ : IndexKey) < ⟨front++rest⟩ := by
    rw [append_lt_append_iff,lt_iff]
    cases rest with
    | nil => exact absurd rfl h
    | cons b bs => exact List.nil_lt_cons _ _
  rwa [List.append_nil] at hnil

theorem cons_lt_cons_iff (a b : UInt8) (as bs : Bytes) :
    (⟨a::as⟩ : IndexKey) < ⟨b::bs⟩ ↔ a < b ∨ a = b ∧ (⟨as⟩ : IndexKey) < ⟨bs⟩ := by
  simp only [lt_iff,List.map_cons,List.cons_lt_cons_iff,UInt8.toNat_inj]
  rfl

end IndexKey

/-- A range asked of a tree of keys, or of a tree of words: there the end is never part of it. -/
inductive RangeCall
  | keys (start stop : KeyBound)
  | words (start stop : String)
  deriving DecidableEq

/-- The range ends before it starts, or is empty between equal ends that are both left out. -/
def RangeCall.inverted : RangeCall → Bool
  | keys start stop => start.inverted stop
  | words start stop => stop < start

section calls
variable (text : QueryText) (im : IndexManager) (collection : String)

mutual
/-- The ranges that a scan asks for; a bounded scan may be full before it comes to the later ones. -/
def rangeCalls : ScanType → List RangeCall
  | .compositeIndex indexId _ values _ =>
    match im.composite.byId indexId with
    | some idx =>
      let key := QueryPlanner.buildPrefixKey idx.definition values
      [.keys (.included key) (.included (QueryPlanner.upperSentinel key))]
    | none => []
  | .compositeIndexRange indexId ranges _ =>
    if (im.composite.byId indexId).isSome then ranges.map fun r => .keys r.1 r.2 else []
  | .secondaryIndexRange field start stop _ =>
    if (im.secondaryOf collection field).isSome then [.keys start stop] else []
  | .cursorIndex start stop indexId _ => if (im.composite.byId indexId).isSome then [.keys start stop] else []
  | .invertedIndex field query true =>
    if (im.ftsOf collection field).isSome then
      (text.tokenize query).map fun word => .words word (word.push (Char.ofNat 0x10FFFF))
    else []
  | .unionIndex scans => unionCalls scans
  | _ => []
def unionCalls : List ScanType → List RangeCall
  | [] => []
  | scan::scans => rangeCalls scan++unionCalls scans
end

end calls

section panic
variable {env : QueryEnv} {s : StorageEngine} {im : IndexManager} {collection : String}

theorem walkTree_panic {β : Type} {m : OrderedMap IndexKey β} {start stop : KeyBound} {reverse : Bool} {e : Fault}
    (h : walkTree m start stop reverse = .error e) : start.inverted stop = true := by
  unfold walkTree at h
  split at h
  · assumption
  · cases h

theorem walkRanges_panic {tree : OrderedMap IndexKey String} {reverse : Bool} {limit : Option UInt64}
    {ranges : List (KeyBound × KeyBound)} {out : Rows} {e : Fault}
    (h : walkRanges s tree reverse limit ranges out = .error e) : ∃ r ∈ ranges,r.1.inverted r.2 = true := by
  induction ranges generalizing out with
  | nil => cases h
  | cons range ranges ih =>
    rw [walkRanges] at h
    cases hwalk : walkTree tree range.1 range.2 reverse with
    | error e => exact ⟨range,List.mem_cons_self,walkTree_panic hwalk⟩
    | ok ids =>
      rw [hwalk] at h
      simp only [bind,Except.bind] at h
      split at h
      · cases h
      · obtain ⟨r,hr,hinv⟩ := ih h
        exact ⟨r,List.mem_cons_of_mem range hr,hinv⟩

mutual
/-- A scan that cuts the list of ids; the cut has a panic of its own. -/
def ScanType.cutsIds : ScanType → Bool
  | .sortedKeys _ _ _ => true
  | .unionIndex scans => anyCutsIds scans
  | _ => false
def anyCutsIds : List ScanType → Bool
  | [] => false
  | scan::scans => scan.cutsIds || anyCutsIds scans
end

/-- Some range is asked for that no tree walks. -/
def AsksInverted (calls : List RangeCall) : Prop := ∃ call ∈ calls,call.inverted = true

theorem AsksInverted.append {calls more : List RangeCall} : AsksInverted (calls++more) ↔ AsksInverted calls ∨ AsksInverted more := by
  simp only [AsksInverted,List.mem_append,or_and_right,exists_or]

mutual
/-- A scan panics only at an inverted range, or where it cuts the list of ids. -/
theorem executeSingleScan_panic : ∀ (scan : ScanType) (limit offset : Option UInt64),
    executeSingleScan env s im collection scan limit offset = .error .panic →
      AsksInverted (rangeCalls env.text im collection scan) ∨ scan.cutsIds = true
  | .fullCollection,_,_,h => by cases h
  | .sortedKeys _ _ _,_,_,_ => .inr rfl
  | .secondaryIndex _ _,_,_,h => by cases h
  | .compositeIndex _ _ _ _,_,_,h => by cases h
  | .compositeIndexRange indexId ranges reverse,limit,_,h => by
    rw [executeSingleScan,scanCompositeRange] at h
    split at h
    · rename_i idx hidx
      obtain ⟨r,hr,hinv⟩ := walkRanges_panic h
      refine .inl ⟨.keys r.1 r.2,?_,hinv⟩
      rw [rangeCalls,hidx]
      exact List.mem_map_of_mem hr
    · cases h
  | .secondaryIndexRange field start stop reverse,limit,_,h => by
    rw [executeSingleScan,scanSecondaryRange] at h
    split at h
    · rename_i sec hsec
      cases hwalk : walkTree sec start stop reverse with
      | error e => exact .inl ⟨.keys start stop,by simp [rangeCalls,hsec],walkTree_panic hwalk⟩
      | ok groups => rw [hwalk] at h; cases h
    · cases h
  | .cursorIndex start stop indexId reverse,limit,_,h => by
    rw [executeSingleScan,scanCursor] at h
    split at h
    · rename_i idx hidx
      cases hwalk : walkTree idx.tree start stop reverse with
      | error e => exact .inl ⟨.keys start stop,by simp [rangeCalls,hidx],walkTree_panic hwalk⟩
      | ok ids => rw [hwalk] at h; cases h
    · cases h
  | .vectorKnn _ _ _ _,_,_,h => by cases h
  | .invertedIndex _ _ _,_,_,h => by cases h
  | .unionIndex scans,_,_,h => by
    rw [executeSingleScan] at h
    cases hunion : unionScans env s im collection scans with
    | error e =>
      rw [hunion] at h
      obtain rfl := Except.error.inj h
      exact unionScans_panic scans hunion
    | ok rows => rw [hunion] at h; cases h
  | .traverse _ _ _ _,_,_,h => by cases h
theorem unionScans_panic : ∀ (scans : List ScanType),unionScans env s im collection scans = .error .panic →
    AsksInverted (unionCalls env.text im collection scans) ∨ anyCutsIds scans = true
  | [],h => by cases h
  | scan::scans,h => by
    rw [unionScans] at h
    rw [unionCalls,AsksInverted.append,anyCutsIds,Bool.or_eq_true]
    cases hscan : executeSingleScan env s im collection scan none none with
    | error e =>
      rw [hscan] at h
      obtain rfl := Except.error.inj h
      exact (executeSingleScan_panic scan none none hscan).imp .inl .inl
    | ok rows =>
      cases hmore : unionScans env s im collection scans with
      | error e =>
        rw [hscan,hmore] at h
        obtain rfl := Except.error.inj h
        exact (unionScans_panic scans hmore).imp .inr .inr
      | ok more => rw [hscan,hmore] at h; cases h
end

end panic

namespace QueryPlanner

theorem encodeKeyValue_lt (direction : SortDirection) (v : Value) (rest : Bytes) :
    (⟨encodeKeyValue direction v++rest⟩ : IndexKey) < ⟨[0xFF]⟩ := by
  cases v <;>
    simp only [encodeKeyValue,List.cons_append,IndexKey.cons_lt_cons_iff] <;>
    exact .inl (by decide)

theorem encodeKeyValue_ne_nil (direction : SortDirection) (v : Value) : encodeKeyValue direction v ≠ [] := by
  cases v <;> simp [encodeKeyValue]

theorem lt_upperSentinel (key : IndexKey) : key < upperSentinel key := IndexKey.lt_append key.bytes (by simp)

variable {value : Value} {scan : ScanType} {field : String} {alt : Value}

/-- The ranges of a condition lie within the keys that begin with the equalities. -/
theorem rangesOf_ordered {d : CompositeIndexDefinition} {values : List Value} {valueKey : IndexKey}
    (h : buildValueKey d values value = some valueKey) (op : Operator) :
    ∀ r ∈ rangesOf (buildPrefixKey d values) valueKey op,r.1.inverted r.2 = false := by
  obtain ⟨f,-,rfl⟩ := Option.map_eq_some_iff.1 h
  have hlow : buildPrefixKey d values < ⟨d.encodeCompositePrefix values++encodeKeyValue f.direction value⟩ :=
    IndexKey.lt_append _ (encodeKeyValue_ne_nil f.direction value)
  have hvalue : (⟨d.encodeCompositePrefix values++encodeKeyValue f.direction value⟩ : IndexKey) <
      upperSentinel (buildPrefixKey d values) := by
    have hend := encodeKeyValue_lt f.direction value []
    rw [List.append_nil] at hend
    exact (IndexKey.append_lt_append_iff _ _ _).2 hend
  have hhigh : upperSentinel ⟨d.encodeCompositePrefix values++encodeKeyValue f.direction value⟩ <
      upperSentinel (buildPrefixKey d values) := by
    simp only [upperSentinel,buildPrefixKey,List.append_assoc]
    exact (IndexKey.append_lt_append_iff _ _ _).2 (encodeKeyValue_lt f.direction value [0xFF])
  have hlte := hlow.trans (lt_upperSentinel _)
  cases op <;> simp [rangesOf,KeyBound.inverted,hlow.le,hvalue.le,hhigh.le,hlte.le]

variable {text : QueryText} {q : Query} {im : IndexManager}

/-- Whatever indexes the scan meets, its ranges are in order. -/
def AsksOrdered (text : QueryText) (collection : String) (scan : ScanType) : Prop :=
  ∀ im,¬AsksInverted (rangeCalls text im collection scan)

variable {collection : String} {c : Choice}

theorem asksOrdered_of_nil (h : ∀ im,rangeCalls text im collection scan = []) :
    AsksOrdered text collection scan := by
  rintro im ⟨call,hcall,-⟩
  rw [h im] at hcall
  exact List.not_mem_nil hcall

theorem asksOrdered_compositeIndex (indexId : UInt32) (fields : List String) (values : List Value) (reverse : Bool) :
    AsksOrdered text collection (.compositeIndex indexId fields values reverse) := by
  rintro im ⟨call,hcall,hinv⟩
  rw [rangeCalls] at hcall
  split at hcall
  · rw [List.mem_singleton.1 hcall] at hinv
    exact absurd (of_decide_eq_true hinv) (not_lt.2 (lt_upperSentinel _).le)
  · exact List.not_mem_nil hcall

theorem asksOrdered_unionIndex {scans : List ScanType} (h : ∀ scan ∈ scans,AsksOrdered text collection scan) :
    AsksOrdered text collection (.unionIndex scans) := by
  intro im
  rw [rangeCalls]
  induction scans with
  | nil => rintro ⟨call,hcall,-⟩; exact List.not_mem_nil hcall
  | cons scan scans ih =>
    rw [unionCalls,AsksInverted.append]
    exact not_or.2 ⟨h scan List.mem_cons_self im,ih fun scan' hscan => h scan' (List.mem_cons_of_mem scan hscan)⟩

theorem asksOrdered_invertedIndex (field query : String) (byPrefix : Bool) :
    AsksOrdered text collection (.invertedIndex field query byPrefix) := by
  cases byPrefix with
  | false => exact asksOrdered_of_nil fun im => rfl
  | true =>
    rintro im ⟨call,hcall,hinv⟩
    rw [rangeCalls] at hcall
    split at hcall
    · obtain ⟨word,-,rfl⟩ := List.mem_map.1 hcall
      have hle : word ≤ word.push (Char.ofNat 0x10FFFF) := by
        rw [String.le_iff_toList_le,String.toList_push]
        exact not_lt.1 (List.not_lt.2 List.le_append_left)
      exact absurd (of_decide_eq_true hinv) (not_lt.2 hle)
    · exact List.not_mem_nil hcall

theorem asksOrdered_scanOfAlternative (h : scanOfAlternative im q field alt = some scan) :
    AsksOrdered text collection scan := by
  unfold scanOfAlternative at h
  split at h
  · exact Option.some.inj h ▸ asksOrdered_compositeIndex _ _ _ _
  · split at h
    · exact Option.some.inj h ▸ asksOrdered_of_nil fun im => rfl
    · cases h

theorem asksOrdered_getSingleFilterScan (h : getSingleFilterScan text im q field value = some scan) :
    AsksOrdered text collection scan := by
  have hall : ∀ scan ∈ (numericAlternatives text value).filterMap (scanOfAlternative im q field),
      AsksOrdered text collection scan := by
    intro scan hscan
    obtain ⟨alt,-,halt⟩ := List.mem_filterMap.1 hscan
    exact asksOrdered_scanOfAlternative halt
  unfold getSingleFilterScan at h
  split at h
  · cases h
  · rename_i heq
    exact Option.some.inj h ▸ hall _ (heq ▸ List.mem_singleton_self _)
  · exact Option.some.inj h ▸ asksOrdered_unionIndex hall

theorem asksOrdered_planFullText (h : planFullText q im = some c) : AsksOrdered text collection c.scan := by
  obtain ⟨f,-,hc⟩ := List.exists_of_findSome?_eq_some h
  split at hc
  · split at hc
    · exact Option.some.inj hc ▸ asksOrdered_invertedIndex _ _ _
    · cases hc
  · cases hc

theorem asksOrdered_tryPlanVector (h : tryPlanVector q im = some c) : AsksOrdered text collection c.scan := by
  unfold tryPlanVector at h
  split at h
  · split at h
    · obtain ⟨d,-,hd⟩ := Option.bind_eq_some_iff.1 h
      split at hd
      · cases hd
      · exact Option.some.inj hd ▸ asksOrdered_of_nil fun im => rfl
    · cases h
  · cases h

theorem asksOrdered_tryPlanTraverse (h : tryPlanTraverse q im = some c) : AsksOrdered text collection c.scan := by
  unfold tryPlanTraverse at h
  split at h
  · split at h
    · split at h
      · cases h
      obtain ⟨startId,-,h⟩ := Option.bind_eq_some_iff.1 h
      obtain ⟨depth,-,h⟩ := Option.bind_eq_some_iff.1 h
      split at h
      · cases h
      obtain ⟨direction,-,h⟩ := Option.bind_eq_some_iff.1 h
      dsimp only at h
      split at h
      · cases h
      exact Option.some.inj h ▸ asksOrdered_of_nil fun im => rfl
    · cases h
  · cases h

theorem asksOrdered_eqScan {first : String} {r : ScanType × Bool} (h : eqScan q im first alt = some r) :
    AsksOrdered text collection r.1 := by
  obtain ⟨idx,-,hr⟩ := List.exists_of_findSome?_eq_some h
  dsimp only at hr
  split at hr
  · exact Option.some.inj hr ▸ asksOrdered_compositeIndex _ _ _ _
  · cases hr

theorem asksOrdered_tryPlanCompositeEq {r : ScanType × Bool × Bool} (h : tryPlanCompositeEq text q im = some r) :
    AsksOrdered text collection r.1 := by
  unfold tryPlanCompositeEq at h
  split at h
  · cases h
  · rename_i first rest hfilters
    have hall : ∀ r ∈ (numericAlternatives text first.value).filterMap (eqScan q im first.field),
        AsksOrdered text collection r.1 := by
      intro r hr
      obtain ⟨alt,-,halt⟩ := List.mem_filterMap.1 hr
      exact asksOrdered_eqScan halt
    split at h
    · cases h
    · split at h
      · cases h
      · rename_i heq
        exact Option.some.inj h ▸ hall _ (heq ▸ List.mem_singleton_self _)
      · refine Option.some.inj h ▸ asksOrdered_unionIndex fun scan hscan => ?_
        obtain ⟨r,hr,rfl⟩ := List.mem_map.1 hscan
        exact hall r hr

theorem asksOrdered_planById (h : planById q = some c) : AsksOrdered text collection c.scan := by
  obtain ⟨scan,hscan,rfl⟩ := Option.map_eq_some_iff.1 h
  unfold idOrderSortedkeys at hscan
  split at hscan
  · split at hscan
    · cases hscan
    · split at hscan
      · obtain ⟨id,-,rfl⟩ := Option.map_eq_some_iff.1 hscan
        exact asksOrdered_of_nil fun im => rfl
      · obtain ⟨id,-,rfl⟩ := Option.map_eq_some_iff.1 hscan
        exact asksOrdered_of_nil fun im => rfl
      · exact Option.some.inj hscan ▸ asksOrdered_of_nil fun im => rfl
  · cases hscan

theorem asksOrdered_compositeIndexRange {indexId : UInt32} {ranges : List (KeyBound × KeyBound)} {reverse : Bool}
    (h : ∀ r ∈ ranges,r.1.inverted r.2 = false) :
    AsksOrdered text collection (.compositeIndexRange indexId ranges reverse) := by
  rintro im ⟨call,hcall,hinv⟩
  rw [rangeCalls] at hcall
  split at hcall
  · obtain ⟨r,hr,rfl⟩ := List.mem_map.1 hcall
    rw [RangeCall.inverted,h r hr] at hinv
    cases hinv
  · exact List.not_mem_nil hcall

theorem asksOrdered_tryPlanCompositeRange (h : tryPlanCompositeRange q im = some scan) :
    AsksOrdered text collection scan := by
  unfold tryPlanCompositeRange at h
  split at h
  · cases h
  · obtain ⟨idx,-,h⟩ := List.exists_of_findSome?_eq_some h
    unfold compositeRange at h
    split at h
    · cases h
    · split at h
      · cases h
      · cases h
      · refine Option.some.inj h ▸ asksOrdered_compositeIndexRange fun r hr => ?_
        rw [List.mem_singleton.1 hr]
        simp [KeyBound.inverted,(lt_upperSentinel _).le]
      · obtain ⟨valueKey,hkey,rfl⟩ := Option.map_eq_some_iff.1 h
        exact asksOrdered_compositeIndexRange (rangesOf_ordered hkey _)

theorem asksOrdered_tryPlanUnion (h : tryPlanUnion text q im = some scan) :
    AsksOrdered text collection scan := by
  unfold tryPlanUnion at h
  dsimp only at h
  split at h
  · obtain ⟨scans,hscans,rfl⟩ := Option.map_eq_some_iff.1 h
    refine asksOrdered_unionIndex fun scan hscan => ?_
    obtain ⟨v,-,hv⟩ := of_mem_mapM hscans scan hscan
    exact asksOrdered_getSingleFilterScan hv
  · split at h
    · cases h
    · obtain ⟨scans,hscans,rfl⟩ := Option.map_eq_some_iff.1 h
      refine asksOrdered_unionIndex fun scan hscan => ?_
      obtain ⟨group,-,hgroup⟩ := of_mem_mapM hscans scan hscan
      split at hgroup
      · exact asksOrdered_getSingleFilterScan hgroup
      · cases hgroup

theorem asksOrdered_smallestPosting {filters : List Filter} {best : Option (ℕ × Filter × IndexKey)}
    (h : smallestPosting text q im filters best = .inl scan) : AsksOrdered text collection scan := by
  induction filters generalizing best with
  | nil => cases h
  | cons f fs ih =>
    rw [smallestPosting] at h
    split at h
    · exact ih h
    · split at h
      · exact ih h
      · split at h
        · split at h
          · rename_i hscan
            exact Sum.inl.inj h ▸ asksOrdered_getSingleFilterScan hscan
          · exact ih h
        · exact ih h

theorem asksOrdered_planPosting (h : planPosting text q im = some c) : AsksOrdered text collection c.scan := by
  unfold planPosting at h
  split at h
  · rename_i hposting
    exact Option.some.inj h ▸ asksOrdered_smallestPosting hposting
  · cases h
  · exact Option.some.inj h ▸ asksOrdered_of_nil fun im => rfl

end QueryPlanner

/-- The index that gives the rows in the order of a query. -/
inductive OrderIndex
  | tuple (idx : CompositeIndex)
  | single (field : String)

namespace OrderIndex

/-- The key at which the index puts a cursor; an index of one field looks at the first value only. -/
def cursorKey : OrderIndex → List Value → Option IndexKey
  | tuple idx,v => some (encodeCompositeKey idx.definition v "")
  | single _,v => QueryPlanner.scalarCursor v

def startBound (index : OrderIndex) (q : Query) : KeyBound :=
  QueryPlanner.cursorBound index.cursorKey q.startAt q.startAfter

def stopBound (index : OrderIndex) (q : Query) : KeyBound :=
  QueryPlanner.cursorBound index.cursorKey q.endAt q.endBefore

def choice (index : OrderIndex) (q : Query) : QueryPlanner.Choice :=
  match index with
  | tuple idx =>
    ⟨.compositeIndexRange idx.definition.id [(index.startBound q,index.stopBound q)]
      (QueryPlanner.reverseScan idx.definition.fields q.orderBy),if q.unfiltered then q.pageNeed else none,true,q.unfiltered,none⟩
  | single field =>
    let alone : Bool := q.orderBy.length = 1
    ⟨.secondaryIndexRange field (index.startBound q) (index.stopBound q) !(q.orderBy.head?.any OrderBy.ascending),
      if alone && q.unfiltered then q.pageNeed else none,alone,q.unfiltered,none⟩

/-- The index is among those that the scan meets. -/
def presentIn (index : OrderIndex) (im : IndexManager) (collection : String) : Bool :=
  match index with
  | tuple idx => (im.composite.byId idx.definition.id).isSome
  | single field => (im.secondaryOf collection field).isSome

/-- Over every shard the scan of crossed cursors panics. -/
theorem executeSingleScan_choice_panics {env : QueryEnv} {s : StorageEngine} {im : IndexManager} {index : OrderIndex}
    {q : Query} (hpresent : index.presentIn im q.collection = true)
    (h : (index.startBound q).inverted (index.stopBound q) = true) (limit offset : Option UInt64) :
    executeSingleScan env s im q.collection (index.choice q).scan limit offset = .error .panic := by
  cases index with
  | tuple idx =>
    obtain ⟨found,hfound⟩ := Option.isSome_iff_exists.1 hpresent
    simp [choice,executeSingleScan,scanCompositeRange,hfound,walkRanges,walkTree,h,bind,Except.bind]
  | single field =>
    obtain ⟨sec,hsec⟩ := Option.isSome_iff_exists.1 hpresent
    simp [choice,executeSingleScan,scanSecondaryRange,hsec,walkTree,h,bind,Except.bind]

end OrderIndex

namespace QueryPlanner
variable {text : QueryText} {q : Query} {im : IndexManager}

def servesOrder (q : Query) (idx : CompositeIndex) : Bool :=
  let fields := idx.definition.fields
  compositeDefUsable idx.definition q && orderFollows (reverseScan fields q.orderBy) fields q.orderBy

/-- The first tuple index that has the order, else the index of the first ordered field alone. -/
def orderIndex (q : Query) (im : IndexManager) : Option OrderIndex :=
  match q.orderBy with
  | [] => none
  | first::_ =>
    match (im.indexesForCollection q.collection).find? (servesOrder q) with
    | some idx => some (.tuple idx)
    | none => if im.hasSecondary q.collection first.field then some (.single first.field) else none

theorem planByTuple_eq (q : Query) (idx : CompositeIndex) :
    planByTuple q idx = if servesOrder q idx then some ((OrderIndex.tuple idx).choice q) else none := rfl

theorem planBySecondary_eq {first : OrderBy} {rest : List OrderBy} (h : q.orderBy = first::rest) :
    planBySecondary q im first =
      if im.hasSecondary q.collection first.field then some ((OrderIndex.single first.field).choice q) else none := by
  simp only [planBySecondary,OrderIndex.choice,h,List.head?_cons,Option.any_some]
  rfl

theorem findSome?_planByTuple (q : Query) (indexes : List CompositeIndex) :
    indexes.findSome? (planByTuple q) = (indexes.find? (servesOrder q)).map fun idx => (OrderIndex.tuple idx).choice q := by
  induction indexes with
  | nil => rfl
  | cons idx indexes ih =>
    rw [List.findSome?_cons,List.find?_cons,planByTuple_eq]
    cases servesOrder q idx with
    | true => rfl
    | false => exact ih

theorem planOrdered_eq (q : Query) (im : IndexManager) (hid : planById q = none) :
    planOrdered q im = (orderIndex q im).map fun index => index.choice q := by
  unfold planOrdered orderIndex
  cases horder : q.orderBy with
  | nil => rfl
  | cons first rest =>
    simp only [hid,findSome?_planByTuple]
    cases (im.indexesForCollection q.collection).find? (servesOrder q) with
    | some idx => rfl
    | none =>
      rw [planBySecondary_eq horder]
      cases im.hasSecondary q.collection first.field <;> rfl

/-- What takes a query before an index of its order can. -/
def earlierChoice (text : QueryText) (q : Query) (im : IndexManager) (manyRows : Bool) : Option Choice :=
  planFullText q im
    <|> tryPlanVector q im
    <|> tryPlanTraverse q im
    <|> if manyRows && yieldToSecondary q im then none else (tryPlanCompositeEq text q im).map fun r : ScanType × Bool × Bool =>
      Choice.mk r.1 (if r.2.1 then q.pageNeed else none) r.2.1 r.2.2 none

/-- What takes a query that no index orders. -/
def laterChoice (text : QueryText) (q : Query) (im : IndexManager) (manyRows : Bool) : Choice :=
  ((if manyRows && !(manyRows && yieldToSecondary q im) then (tryPlanCompositeRange q im).map unproved else none)
    <|> (if !q.orGroups.isEmpty || q.filters.any fun f => f.op = Operator.within then
      (tryPlanUnion text q im).map unproved else none)
    <|> (if manyRows then planPosting text q im else none)).getD
    ⟨.fullCollection,if q.unfiltered && q.orderBy.isEmpty then q.pageNeed else none,false,q.unfiltered,none⟩

theorem orElse_getD {α : Type} (a b : Option α) (x : α) : (a <|> b).getD x = a.getD (b.getD x) := by
  cases a <;> rfl

theorem chooseReady_eq (text : QueryText) (q : Query) (im : IndexManager) (manyRows : Bool) :
    chooseReady text q im manyRows =
      (earlierChoice text q im manyRows).getD ((planOrdered q im).getD (laterChoice text q im manyRows)) := by
  simp only [chooseReady,earlierChoice,laterChoice,orElse_getD]

theorem asksOrdered_earlierChoice {manyRows : Bool} {c : Choice} (h : earlierChoice text q im manyRows = some c)
    (collection : String) : AsksOrdered text collection c.scan := by
  rcases (Option.orElse_eq_some ..).1 h with h | ⟨-,h⟩
  · exact asksOrdered_planFullText h
  rcases (Option.orElse_eq_some ..).1 h with h | ⟨-,h⟩
  · exact asksOrdered_tryPlanVector h
  rcases (Option.orElse_eq_some ..).1 h with h | ⟨-,h⟩
  · exact asksOrdered_tryPlanTraverse h
  split at h
  · cases h
  · obtain ⟨r,hr,rfl⟩ := Option.map_eq_some_iff.1 h
    exact asksOrdered_tryPlanCompositeEq hr

theorem asksOrdered_getD {choice : Option Choice} {c : Choice} {collection : String}
    (h : ∀ c,choice = some c → AsksOrdered text collection c.scan) (hc : AsksOrdered text collection c.scan) :
    AsksOrdered text collection (choice.getD c).scan := by
  cases hchoice : choice with
  | none => exact hc
  | some c => exact h c hchoice

theorem asksOrdered_laterChoice (manyRows : Bool) (collection : String) :
    AsksOrdered text collection (laterChoice text q im manyRows).scan := by
  refine asksOrdered_getD (fun c hchoice => ?_) (asksOrdered_of_nil fun im => rfl)
  rcases (Option.orElse_eq_some ..).1 hchoice with h | ⟨-,h⟩
  · split at h
    · obtain ⟨scan,hscan,rfl⟩ := Option.map_eq_some_iff.1 h
      exact asksOrdered_tryPlanCompositeRange hscan
    · cases h
  rcases (Option.orElse_eq_some ..).1 h with h | ⟨-,h⟩
  · split at h
    · obtain ⟨scan,hscan,rfl⟩ := Option.map_eq_some_iff.1 h
      exact asksOrdered_tryPlanUnion hscan
    · cases h
  · split at h
    · exact asksOrdered_planPosting h
    · cases h

/-- An index gives the order of the query and has the key of the start cursor behind that of the end cursor, or at
it with both left out. -/
def CursorsCross (text : QueryText) (q : Query) (im : IndexManager) (manyRows : Bool) : Prop :=
  earlierChoice text q im manyRows = none ∧ planById q = none ∧
    ∃ index,orderIndex q im = some index ∧ (index.startBound q).inverted (index.stopBound q) = true

theorem asksOrdered_choice_iff (index : OrderIndex) (q : Query) :
    AsksOrdered text q.collection (index.choice q).scan ↔ (index.startBound q).inverted (index.stopBound q) = false := by
  cases index with
  | tuple idx =>
    constructor
    · intro h
      rw [← Bool.not_eq_true]
      intro hinv
      refine h (.byTuple idx.definition) ⟨.keys _ _,?_,hinv⟩
      simp [OrderIndex.choice,rangeCalls,IndexManager.byTuple]
    · intro h
      exact asksOrdered_compositeIndexRange fun r hr => List.mem_singleton.1 hr ▸ h
  | single field =>
    constructor
    · intro h
      rw [← Bool.not_eq_true]
      intro hinv
      refine h (.byField q.collection field) ⟨.keys _ _,?_,hinv⟩
      simp [OrderIndex.choice,rangeCalls,IndexManager.byField,IndexManager.secondaryOf]
    · rintro h im ⟨call,hcall,hinv⟩
      rw [OrderIndex.choice,rangeCalls] at hcall
      split at hcall
      · rw [List.mem_singleton.1 hcall,RangeCall.inverted,h] at hinv
        cases hinv
      · exact List.not_mem_nil hcall

theorem asksOrdered_chooseReady_iff (manyRows : Bool) :
    AsksOrdered text q.collection (chooseReady text q im manyRows).scan ↔ ¬CursorsCross text q im manyRows := by
  rw [chooseReady_eq,CursorsCross]
  cases hearlier : earlierChoice text q im manyRows with
  | some c => simp [asksOrdered_earlierChoice hearlier]
  | none =>
    cases hid : planById q with
    | some c =>
      have hordered : AsksOrdered text q.collection ((planOrdered q im).getD (laterChoice text q im manyRows)).scan := by
        unfold planOrdered
        split
        · exact asksOrdered_laterChoice manyRows _
        · rw [hid]
          exact asksOrdered_planById hid
      simp [hordered]
    | none =>
      rw [planOrdered_eq q im hid]
      cases hindex : orderIndex q im with
      | none => simp [asksOrdered_laterChoice]
      | some index => simp [asksOrdered_choice_iff]

end QueryPlanner

open QueryPlanner in
/-- The plan of a query asks no tree for an inverted range, whatever the indexes are when it is run, exactly if its
cursors do not cross. -/
theorem plan_asksOrdered_iff (text : QueryText) (ctx : PlanContext) (q : Query) :
    (∀ im,∀ call ∈ rangeCalls text im q.collection (ctx.plan text q).scan,call.inverted = false) ↔
      (ctx.indexReady = true → ¬CursorsCross text q ctx.indexes (50 < ctx.collectionRows/max ctx.workerCount 1)) := by
  have hcalls : (∀ im,∀ call ∈ rangeCalls text im q.collection (ctx.plan text q).scan,call.inverted = false) ↔
      AsksOrdered text q.collection (ctx.plan text q).scan := by
    simp [AsksOrdered,AsksInverted]
  rw [hcalls]
  change AsksOrdered text q.collection (choose text q ctx.indexes _ _ ctx.indexReady ctx.vectorReady).scan ↔ _
  unfold choose
  cases ctx.indexReady with
  | true => simpa using asksOrdered_chooseReady_iff _
  | false =>
    refine iff_of_true ?_ (by simp)
    refine asksOrdered_getD (fun c hchoice => ?_) (asksOrdered_of_nil fun im => rfl)
    rcases (Option.orElse_eq_some ..).1 hchoice with h | ⟨-,h⟩
    · split at h
      · exact asksOrdered_tryPlanVector h
      · cases h
    · exact asksOrdered_planById h

/-- From five up to three. -/
def crossedQuery : Query where
  collection := "c"
  orderBy := [⟨"n",true⟩]
  startAt := some [.int 5]
  endAt := some [.int 3]

theorem crossedQuery_panics :
    AsksInverted (rangeCalls QueryEnv.ascii.text (.byField "c" "n") "c"
      (PlanContext.plan ⟨.byField "c" "n",0,1,true,true⟩ QueryEnv.ascii.text crossedQuery).scan) ∧
    execute .ascii (.holding []) (.byField "c" "n")
      (PlanContext.plan ⟨.byField "c" "n",0,1,true,true⟩ QueryEnv.ascii.text crossedQuery) = .error .panic :=
  ⟨⟨_,List.mem_singleton_self _,rfl⟩,rfl⟩

open QueryPlanner in
/-- The scan chosen for a query panics over no shard and no state of the indexes, exactly if its cursors do not cross. -/
theorem executeSingleScan_chosen_iff (env : QueryEnv) (q : Query) (im : IndexManager) (manyRows : Bool)
    (hids : (chooseReady env.text q im manyRows).scan.cutsIds = false) :
    (∀ s now limit offset,executeSingleScan env s now q.collection (chooseReady env.text q im manyRows).scan limit offset ≠
      .error .panic) ↔ ¬CursorsCross env.text q im manyRows := by
  constructor
  · rintro hends ⟨hearlier,hid,index,hindex,hcross⟩
    have hchosen : chooseReady env.text q im manyRows = index.choice q := by
      rw [chooseReady_eq,hearlier,planOrdered_eq q im hid,hindex]
      rfl
    have hpresent : ∃ now,index.presentIn now q.collection = true := by
      cases index with
      | tuple idx => exact ⟨.byTuple idx.definition,by simp [OrderIndex.presentIn,IndexManager.byTuple]⟩
      | single field =>
        exact ⟨.byField q.collection field,by simp [OrderIndex.presentIn,IndexManager.byField,IndexManager.secondaryOf]⟩
    obtain ⟨now,hnow⟩ := hpresent
    rw [hchosen] at hends
    exact hends (.holding []) now none none (OrderIndex.executeSingleScan_choice_panics hnow hcross none none)
  · intro hcross s now limit offset hpanic
    rcases executeSingleScan_panic _ limit offset hpanic with hasks | hcuts
    · exact (asksOrdered_chooseReady_iff _).2 hcross now hasks
    · rw [hids] at hcuts
      cases hcuts

def risingQuery : Query := {crossedQuery with endAt := some [.int 7]}

open QueryPlanner in
theorem executeSingleScan_chosen_rising : executeSingleScan .ascii (.holding []) (.byField "c" "n") "c"
    (chooseReady QueryEnv.ascii.text risingQuery (.byField "c" "n") false).scan none none ≠ .error .panic := by
  refine (executeSingleScan_chosen_iff .ascii risingQuery (.byField "c" "n") false rfl).2 ?_ _ _ _ _
  rintro ⟨-,-,index,hindex,hcross⟩
  cases hindex
  exact absurd hcross (by decide)

end HakoDB

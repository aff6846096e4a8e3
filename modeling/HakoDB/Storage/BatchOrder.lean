import HakoDB.Storage.Recovery
import HakoDB.Storage.Housekeeping
import HakoDB.Storage.Crc32
import HakoDB.Storage.SortedView

/-! The order inside a batch of the shard. Small values and deletes are entered and logged as the loop meets them, values
for the segment after all others, large values without a record; the keys of a batch say when that makes no difference. -/
namespace HakoDB
open ByteCodec HashMap

theorem Segment.Whole.readAt_appendBatch {zstd : Option Zstd} {seg : Segment} {offset : UInt64} {len : UInt32}
    (h : seg.Whole offset len) (values : List Bytes) :
    (seg.appendBatch values).2.readAt zstd offset len = seg.readAt zstd offset len := by
  induction values generalizing seg with
  | nil => rfl
  | cons value values ih =>
    exact (ih (@Segment.Whole.readAt_appendOne zstd seg offset len h value).2).trans (h.readAt_appendOne value).1

namespace StorageEngine

section batch
variable (crc : Bytes → UInt32)

/-- The batch with the records it hands back. -/
def applyBatchLogged (instant : ℕ) (now : Int64) (s : StorageEngine) (mutations : List StorageMutation)
    (isRemote : Bool) : Res ((List BlobWork × List WalOp) × StorageEngine) :=
  if mutations = [] then .ok (([],[]),s)
  else do
    let txId := s.nextTxId
    let s ← ({s with nextTxId := s.nextTxId+1} : StorageEngine).maybeRotateActiveSegment
    let planned := mutations.map (s.plan now)
    let medium := planned.filterMap Planned.medium?
    match s.segments.lookup s.activeSegmentId with
    | none => .error .panic
    | some m =>
      let (places,segment) := m.segment.appendBatch (medium.map Prod.snd)
      let placed := List.zipWith (fun p kv => (kv.1,p)) places medium
      let ops := planned.filterMap Planned.record?++placed.map fun e => .put e.1 s.activeSegmentId e.2.1 e.2.2
      let entries := planned.filterMap Planned.entry?++
        placed.map fun e => (e.1,.segment s.activeSegmentId e.2.1 e.2.2)
      let s := {s with
        segments := s.segments.insert s.activeSegmentId {m with segment := segment}
        wal := s.wal.appendBatch crc instant (txRecords txId ops) isRemote}
      return ((planned.filterMap Planned.work?,txRecords txId ops),s.setAll entries)

theorem applyBatch_eq_logged (instant : ℕ) (now : Int64) (s : StorageEngine) (mutations : List StorageMutation)
    (isRemote : Bool) : s.applyBatch crc instant now mutations isRemote =
      (s.applyBatchLogged crc instant now mutations isRemote).map fun r => (r.1.1,r.2) := by
  unfold applyBatch applyBatchLogged
  split_ifs
  · rfl
  · cases ({s with nextTxId := s.nextTxId+1} : StorageEngine).maybeRotateActiveSegment with
    | error e => rfl
    | ok s1 =>
      dsimp only [bind,Except.bind]
      cases s1.segments.lookup s1.activeSegmentId <;> rfl

end batch

/-- One mutation by itself: its entry in the index and, for a value of the segment, its place there. -/
def applyOne (s : StorageEngine) (now : Int64) (acc : HMap String Pointer × Segment) (m : StorageMutation) :
    HMap String Pointer × Segment :=
  match s.plan now m with
  | .logged _ e | .unlogged e _ => (acc.1.insert e.1 e.2,acc.2)
  | .toSegment key value =>
    let (place,segment) := acc.2.appendOne value
    (acc.1.insert key (.segment s.activeSegmentId place.1 place.2),segment)

/-- The index when the mutations are applied in the order of the list. -/
def inOrder (s : StorageEngine) (now : Int64) (mutations : List StorageMutation) : Res (HMap String Pointer) :=
  if mutations = [] then .ok s.index
  else do
    let s ← ({s with nextTxId := s.nextTxId+1} : StorageEngine).maybeRotateActiveSegment
    match s.segments.lookup s.activeSegmentId with
    | none => .error .panic
    | some m => return (mutations.foldl (s.applyOne now) (s.index,m.segment)).1

/-- The shard whose segment has the batch's values, with its index as before. -/
def grown (s : StorageEngine) (now : Int64) (mutations : List StorageMutation) : Res StorageEngine := do
  let s ← ({s with nextTxId := s.nextTxId+1} : StorageEngine).maybeRotateActiveSegment
  match s.segments.lookup s.activeSegmentId with
  | none => .error .panic
  | some m =>
    let values := ((mutations.map (s.plan now)).filterMap Planned.medium?).map Prod.snd
    return {s with segments := s.segments.insert s.activeSegmentId {m with segment := (m.segment.appendBatch values).2}}

def isMedium (s : StorageEngine) : StorageMutation → Bool
  | .put _ value => 4096 ≤ value.length && value.length ≤ s.blobThreshold
  | .delete _ => false

def isLarge (s : StorageEngine) : StorageMutation → Bool
  | .put _ value => 4096 ≤ value.length && s.blobThreshold < value.length
  | .delete _ => false

/-- The entry of a mutation that has no place in the segment. -/
def pointerFor (now : Int64) : StorageMutation → Pointer
  | .put _ value => .inlined value
  | .delete _ => .deleted now

/-- Each mutation with the pointer it makes, in the order of the list. -/
def resolve (s : StorageEngine) (now : Int64) : Segment → List StorageMutation → List (StorageMutation × Pointer)
  | _,[] => []
  | segment,m::ms =>
    match s.plan now m with
    | .logged _ e | .unlogged e _ => (m,e.2)::s.resolve now segment ms
    | .toSegment _ value =>
      let (place,segment) := segment.appendOne value
      (m,.segment s.activeSegmentId place.1 place.2)::s.resolve now segment ms

section plan
variable (s : StorageEngine) (now : Int64)
variable {m : StorageMutation}

theorem plan_small (hmedium : s.isMedium m = false) (hlarge : s.isLarge m = false) :
    ∃ op,s.plan now m = .logged op (m.key,pointerFor now m) ∧ pointerOf op = some (m.key,pointerFor now m) ∧ op.isData := by
  cases m with
  | delete key => exact ⟨_,rfl,rfl,rfl⟩
  | put key value =>
    simp only [isMedium,isLarge,Bool.and_eq_false_iff,decide_eq_false_iff_not] at hmedium hlarge
    refine ⟨.putInlined key value,?_,rfl,rfl⟩
    rw [plan,if_pos (by omega)]
    rfl

theorem plan_large (hlarge : s.isLarge m = true) :
    ∃ work,s.plan now m = .unlogged (m.key,pointerFor now m) work := by
  cases m with
  | delete key => cases hlarge
  | put key value =>
    simp only [isLarge,Bool.and_eq_true,decide_eq_true_eq] at hlarge
    refine ⟨.put s.logicalName key value,?_⟩
    rw [plan,if_neg (by omega),if_pos hlarge.2]
    rfl

theorem plan_medium (hmedium : s.isMedium m = true) :
    ∃ value,s.plan now m = .toSegment m.key value := by
  cases m with
  | delete key => cases hmedium
  | put key value =>
    simp only [isMedium,Bool.and_eq_true,decide_eq_true_eq] at hmedium
    refine ⟨value,?_⟩
    rw [plan,if_neg (by omega),if_neg (by omega)]
    rfl

theorem plan_other (h : s.isMedium m = false) : (∃ op,s.plan now m = .logged op (m.key,pointerFor now m)) ∨
    ∃ work,s.plan now m = .unlogged (m.key,pointerFor now m) work := by
  cases hlarge : s.isLarge m with
  | false =>
    obtain ⟨op,hop,-⟩ := s.plan_small now h hlarge
    exact .inl ⟨op,hop⟩
  | true => exact .inr (s.plan_large now hlarge)

end plan

section resolve
variable (s : StorageEngine) (now : Int64)

theorem resolve_other {m : StorageMutation} (h : s.isMedium m = false) (segment : Segment) (ms : List StorageMutation) :
    s.resolve now segment (m::ms) = (m,pointerFor now m)::s.resolve now segment ms := by
  rw [resolve]
  rcases s.plan_other now h with ⟨op,hplan⟩ | ⟨work,hplan⟩ <;> rw [hplan]

theorem resolve_medium {m : StorageMutation} {key : String} {value : Bytes} (h : s.plan now m = .toSegment key value)
    (segment : Segment) (ms : List StorageMutation) : s.resolve now segment (m::ms) =
      (m,.segment s.activeSegmentId (segment.appendOne value).1.1 (segment.appendOne value).1.2)::
        s.resolve now (segment.appendOne value).2 ms := by
  rw [resolve,h]

def entryOf (r : StorageMutation × Pointer) : String × Pointer := (r.1.key,r.2)

theorem resolve_keys (segment : Segment) (ms : List StorageMutation) : (s.resolve now segment ms).map Prod.fst = ms := by
  induction ms generalizing segment with
  | nil => rfl
  | cons m ms ih =>
    cases h : s.isMedium m with
    | false => rw [s.resolve_other now h,List.map_cons,ih]
    | true =>
      obtain ⟨value,hplan⟩ := s.plan_medium now h
      rw [s.resolve_medium now hplan,List.map_cons,ih]

theorem foldl_applyOne (ms : List StorageMutation) (index : HMap String Pointer) (segment : Segment) :
    (ms.foldl (s.applyOne now) (index,segment)).1 = insertAll index ((s.resolve now segment ms).map entryOf) := by
  induction ms generalizing index segment with
  | nil => rfl
  | cons m ms ih =>
    cases h : s.isMedium m with
    | false =>
      have hstep : s.applyOne now (index,segment) m = (index.insert m.key (pointerFor now m),segment) := by
        rw [applyOne]
        rcases s.plan_other now h with ⟨op,hplan⟩ | ⟨work,hplan⟩ <;> rw [hplan]
      rw [List.foldl_cons,hstep,ih,s.resolve_other now h]
      rfl
    | true =>
      obtain ⟨value,hplan⟩ := s.plan_medium now h
      have hstep : s.applyOne now (index,segment) m = (index.insert m.key (.segment s.activeSegmentId
          (segment.appendOne value).1.1 (segment.appendOne value).1.2),(segment.appendOne value).2) := by
        rw [applyOne,hplan]
      rw [List.foldl_cons,hstep,ih,s.resolve_medium now hplan]
      rfl

/-- The entries made in the loop are those of the mutations that have no place in the segment. -/
theorem entries_eq (segment : Segment) (ms : List StorageMutation) : (ms.map (s.plan now)).filterMap Planned.entry? =
    ((s.resolve now segment ms).filter fun r => !s.isMedium r.1).map entryOf := by
  induction ms generalizing segment with
  | nil => rfl
  | cons m ms ih =>
    rw [List.map_cons]
    cases h : s.isMedium m with
    | false =>
      have hentry : Planned.entry? (s.plan now m) = some (m.key,pointerFor now m) := by
        rcases s.plan_other now h with ⟨op,hplan⟩ | ⟨work,hplan⟩ <;> rw [hplan] <;> rfl
      rw [List.filterMap_cons_some hentry,ih segment,s.resolve_other now h]
      simp [h,entryOf]
    | true =>
      obtain ⟨value,hplan⟩ := s.plan_medium now h
      rw [s.resolve_medium now hplan,List.filterMap_cons_none (by rw [hplan]; rfl),ih (segment.appendOne value).2]
      simp [h]

/-- The records written in the loop are those of the small values and the deletes. -/
theorem records_eq (segment : Segment) (ms : List StorageMutation) :
    ((ms.map (s.plan now)).filterMap Planned.record?).filterMap pointerOf =
      ((s.resolve now segment ms).filter fun r => !s.isMedium r.1 && !s.isLarge r.1).map entryOf := by
  induction ms generalizing segment with
  | nil => rfl
  | cons m ms ih =>
    rw [List.map_cons]
    cases h : s.isMedium m with
    | false =>
      rw [s.resolve_other now h]
      cases hlarge : s.isLarge m with
      | false =>
        obtain ⟨op,hop,hpointer,-⟩ := s.plan_small now h hlarge
        have hrecord : (s.plan now m).record? = some op := by rw [hop]; rfl
        rw [List.filterMap_cons_some hrecord,List.filterMap_cons_some hpointer,ih segment]
        simp [h,hlarge,entryOf]
      | true =>
        obtain ⟨work,hwork⟩ := s.plan_large now hlarge
        rw [List.filterMap_cons_none (by rw [hwork]; rfl),ih segment]
        simp [hlarge]
    | true =>
      obtain ⟨value,hplan⟩ := s.plan_medium now h
      rw [s.resolve_medium now hplan,List.filterMap_cons_none (by rw [hplan]; rfl),ih (segment.appendOne value).2]
      simp [h]

/-- The places in the segment are handed out in the order of the list. -/
theorem placed_eq (segment : Segment) (ms : List StorageMutation) :
    (List.zipWith (fun p kv => (kv.1,p)) (segment.appendBatch (((ms.map (s.plan now)).filterMap Planned.medium?).map Prod.snd)).1
        ((ms.map (s.plan now)).filterMap Planned.medium?)).map (fun e => (e.1,Pointer.segment s.activeSegmentId e.2.1 e.2.2)) =
      ((s.resolve now segment ms).filter fun r => s.isMedium r.1).map entryOf := by
  induction ms generalizing segment with
  | nil => rfl
  | cons m ms ih =>
    rw [List.map_cons]
    cases h : s.isMedium m with
    | false =>
      have hnone : (s.plan now m).medium? = none := by
        rcases s.plan_other now h with ⟨op,hplan⟩ | ⟨work,hplan⟩ <;> rw [hplan] <;> rfl
      rw [List.filterMap_cons_none hnone,ih segment,s.resolve_other now h]
      simp [h]
    | true =>
      obtain ⟨value,hplan⟩ := s.plan_medium now h
      have hsome : (s.plan now m).medium? = some (m.key,value) := by rw [hplan]; rfl
      rw [List.filterMap_cons_some hsome,s.resolve_medium now hplan,List.map_cons,Segment.appendBatch]
      simp only [List.zipWith_cons_cons,List.map_cons,ih (segment.appendOne value).2]
      simp [h,entryOf]

theorem resolve_pointer {segment : Segment} {ms : List StorageMutation} {r : StorageMutation × Pointer}
    (hr : r ∈ s.resolve now segment ms) : if s.isMedium r.1 then ∃ id offset len,r.2 = .segment id offset len
      else r.2 = pointerFor now r.1 := by
  induction ms generalizing segment with
  | nil => cases hr
  | cons m ms ih =>
    cases h : s.isMedium m with
    | false =>
      rw [s.resolve_other now h] at hr
      rcases List.mem_cons.1 hr with rfl | hr
      · simp [h]
      · exact ih hr
    | true =>
      obtain ⟨value,hplan⟩ := s.plan_medium now h
      rw [s.resolve_medium now hplan] at hr
      rcases List.mem_cons.1 hr with rfl | hr
      · simp [h]
      · exact ih hr

end resolve

/-- What a batch leaves, by the pointers of its mutations in the order of the list. -/
structure BatchOutcome (s : StorageEngine) (now : Int64) (mutations : List StorageMutation) (ops : List WalOp) (t g : StorageEngine)
    (rs : List (StorageMutation × Pointer)) : Prop where
  mutations_eq : rs.map Prod.fst = mutations
  pointer : ∀ r ∈ rs,if s.isMedium r.1 then ∃ id offset len,r.2 = .segment id offset len else r.2 = pointerFor now r.1
  ordered : s.inOrder now mutations = .ok (insertAll s.index (rs.map entryOf))
  grown : s.grown now mutations = .ok g
  index : t.index = insertAll s.index
    ((rs.filter fun r => !s.isMedium r.1).map entryOf++(rs.filter fun r => s.isMedium r.1).map entryOf)
  replayed : ((filterCommittedOps ops).foldl replayOp s).index = insertAll s.index
    ((rs.filter fun r => !s.isMedium r.1 && !s.isLarge r.1).map entryOf++(rs.filter fun r => s.isMedium r.1).map entryOf)
  segments : t.segments = g.segments
  blobs : t.blobManager = g.blobManager

variable {s t : StorageEngine} {α : Type} {xs : List α} {x : α} {p : α → Bool}

theorem rotated_eq {s1 : StorageEngine} (h : s.maybeRotateActiveSegment = .ok s1) :
    s1.index = s.index ∧ s1.blobThreshold = s.blobThreshold ∧ s1.blobManager = s.blobManager ∧
      ∀ id ≠ s.nextSegmentId,s1.segments.lookup id = s.segments.lookup id := by
  unfold maybeRotateActiveSegment at h
  split at h
  · cases h
  · obtain rfl := Except.ok.inj h
    split
    · exact ⟨rfl,rfl,rfl,fun _ _ => rfl⟩
    · exact ⟨rfl,rfl,rfl,fun id hid => Finmap.lookup_insert_of_ne _ hid⟩

theorem isMedium_congr (h : t.blobThreshold = s.blobThreshold) : t.isMedium = s.isMedium := by
  funext m
  cases m <;> simp [isMedium,h]

theorem isLarge_congr (h : t.blobThreshold = s.blobThreshold) : t.isLarge = s.isLarge := by
  funext m
  cases m <;> simp [isLarge,h]

theorem isData_records (s : StorageEngine) (now : Int64) (ms : List StorageMutation) :
    ∀ op ∈ (ms.map (s.plan now)).filterMap Planned.record?,op.isData := by
  intro op hop
  obtain ⟨x,hx,hrecord⟩ := List.mem_filterMap.1 hop
  obtain ⟨m,-,rfl⟩ := List.mem_map.1 hx
  cases h : s.isMedium m with
  | true =>
    obtain ⟨value,hplan⟩ := s.plan_medium now h
    rw [hplan] at hrecord
    cases hrecord
  | false =>
    cases hlarge : s.isLarge m with
    | true =>
      obtain ⟨work,hplan⟩ := s.plan_large now hlarge
      rw [hplan] at hrecord
      cases hrecord
    | false =>
      obtain ⟨op',hplan,-,hdata⟩ := s.plan_small now h hlarge
      rw [hplan] at hrecord
      exact Option.some.inj hrecord ▸ hdata

theorem batchOutcome {crc : Bytes → UInt32} {instant : ℕ} {now : Int64} {mutations : List StorageMutation}
    {isRemote : Bool} {work : List BlobWork} {ops : List WalOp} (hne : mutations ≠ [])
    (hok : s.applyBatchLogged crc instant now mutations isRemote = .ok ((work,ops),t)) :
    ∃ g rs,BatchOutcome s now mutations ops t g rs := by
  rw [applyBatchLogged,if_neg hne] at hok
  obtain ⟨s1,hs1,hrest⟩ := bind_eq_ok.1 hok
  have hindex : s1.index = s.index := (rotated_eq hs1).1
  have hthreshold : s1.blobThreshold = s.blobThreshold := (rotated_eq hs1).2.1
  have hmedium := isMedium_congr hthreshold
  have hlarge := isLarge_congr hthreshold
  dsimp only at hrest
  cases hactive : s1.segments.lookup s1.activeSegmentId with
  | none => simp [hactive] at hrest
  | some m =>
    simp only [hactive] at hrest
    obtain ⟨hworks,ht⟩ := Prod.mk.inj (Except.ok.inj hrest)
    obtain ⟨-,hops⟩ := Prod.mk.inj hworks
    have hplaced := s1.placed_eq now m.segment mutations
    obtain ⟨bytes,counts,view,hset⟩ := setAll_eq _ _
    rw [hset] at ht
    refine ⟨{s1 with segments := s1.segments.insert s1.activeSegmentId {m with segment := (m.segment.appendBatch
      (((mutations.map (s1.plan now)).filterMap Planned.medium?).map Prod.snd)).2}},s1.resolve now m.segment mutations,?_⟩
    constructor
    · exact s1.resolve_keys now m.segment mutations
    · intro r hr
      rw [← hmedium]
      exact s1.resolve_pointer now hr
    · rw [inOrder,if_neg hne,hs1]
      simp only [bind,Except.bind,hactive,pure,Except.pure,s1.foldl_applyOne,hindex]
    · rw [StorageEngine.grown,hs1]
      simp only [bind,Except.bind,hactive,pure,Except.pure]
    · rw [← ht,s1.entries_eq now m.segment,hplaced,hindex,hmedium]
    · have hdata : ∀ op ∈ (mutations.map (s1.plan now)).filterMap Planned.record?++
          (List.zipWith (fun p kv => (kv.1,p)) (m.segment.appendBatch
            (((mutations.map (s1.plan now)).filterMap Planned.medium?).map Prod.snd)).1
            ((mutations.map (s1.plan now)).filterMap Planned.medium?)).map
              (fun e => WalOp.put e.1 s1.activeSegmentId e.2.1 e.2.2),op.isData := by
        intro op hop
        rcases List.mem_append.1 hop with hop | hop
        · exact s1.isData_records now mutations op hop
        · obtain ⟨e,-,rfl⟩ := List.mem_map.1 hop
          rfl
      obtain ⟨bytes',hfold⟩ := foldl_replayOp (filterCommittedOps ops) s
      rw [hfold,← hops,filterCommittedOps,TxFilter.foldl_txRecords hdata]
      simp only [TxFilter.init,List.nil_append,List.filterMap_append,s1.records_eq now m.segment]
      rw [List.filterMap_map,← hmedium,← hlarge,← hplaced]
      refine congrArg (fun es => insertAll s.index (_++es)) ?_
      exact congrFun List.filterMap_eq_map _
    · rw [← ht]
    · rw [← ht]

/-- The entry of the key is not cut off by the end of its file. -/
def WholeEntry (s : StorageEngine) (k : String) : Prop :=
  ∀ id offset len,s.index.lookup k = some (.segment id offset len) →
    id ≠ s.nextSegmentId ∧ ∃ m,s.segments.lookup id = some m ∧ m.segment.Whole offset len

section growth
variable {zstd : Option Zstd} {now : Int64} {s g : StorageEngine} {mutations : List StorageMutation} {k : String}

theorem grown_eq (hg : s.grown now mutations = .ok g) : g.index = s.index ∧ g.blobManager = s.blobManager ∧
    ∀ id m,id ≠ s.nextSegmentId → s.segments.lookup id = some m → ∃ m',g.segments.lookup id = some m' ∧
      ∀ offset len,m.segment.Whole offset len → m'.segment.readAt zstd offset len = m.segment.readAt zstd offset len := by
  obtain ⟨s1,hs1,hrest⟩ := bind_eq_ok.1 hg
  obtain ⟨hindex,-,hblobs,hsegments⟩ := rotated_eq hs1
  dsimp only at hrest
  cases hactive : s1.segments.lookup s1.activeSegmentId with
  | none => simp [hactive] at hrest
  | some a =>
    simp only [hactive] at hrest
    obtain rfl := Except.ok.inj hrest
    refine ⟨hindex,hblobs,fun id m hid hm => ?_⟩
    rw [← hsegments id hid] at hm
    by_cases h : id = s1.activeSegmentId
    · rw [h,hactive] at hm
      obtain rfl := Option.some.inj hm
      refine ⟨_,by rw [h]; exact Finmap.lookup_insert _,fun offset len hwhole => hwhole.readAt_appendBatch _⟩
    · exact ⟨m,(Finmap.lookup_insert_of_ne _ h).trans hm,fun _ _ _ => rfl⟩

/-- The batch's records behind it change nothing for an entry that is whole. -/
theorem WholeEntry.get_grown (h : s.WholeEntry k) (hg : s.grown now mutations = .ok g) : g.get zstd k = s.get zstd k := by
  obtain ⟨hindex,hblobs,hsegments⟩ := @grown_eq zstd now s g mutations hg
  unfold get
  rw [hindex]
  cases hk : s.index.lookup k with
  | none => rfl
  | some p =>
    cases p with
    | segment id offset len =>
      obtain ⟨hid,m,hm,hwhole⟩ := h id offset len hk
      obtain ⟨m',hm',hread⟩ := hsegments id m hid hm
      simp only [readPointer,hm,hm',hread offset len hwhole]
    | blob offset len => simp only [readPointer,hblobs]
    | _ => rfl

/-- The entry that the key had before the batch leads to the value. One that the end of its file cuts off is read with
the batch's records behind it. -/
def LedTo (zstd : Option Zstd) (s : StorageEngine) (now : Int64) (mutations : List StorageMutation) (k : String)
    (v : Bytes) : Prop :=
  (s.WholeEntry k → s.get zstd k = .ok (some v)) ∧
    (¬s.WholeEntry k → ∃ g,s.grown now mutations = .ok g ∧ g.get zstd k = .ok (some v))

theorem ledTo_iff (hg : s.grown now mutations = .ok g) (v : Bytes) :
    s.LedTo zstd now mutations k v ↔ g.get zstd k = .ok (some v) := by
  by_cases h : s.WholeEntry k
  · simp [LedTo,h,h.get_grown hg]
  · simp [LedTo,h,hg]

end growth

/-- What the sizes of a key's mutations must be like for the order of the list to survive: the last one goes to the segment,
or none does and the last one has a record, or all are large and the key led to the last value before. -/
def KeyInOrder (zstd : Option Zstd) (s : StorageEngine) (now : Int64) (mutations : List StorageMutation) (k : String) : Prop :=
  ∀ last,(mutations.filter fun m => m.key = k).getLast? = some last → s.isMedium last = true ∨
    (∀ m ∈ mutations,m.key = k → s.isMedium m = false) ∧ (s.isLarge last = true →
      (∀ m ∈ mutations,m.key = k → s.isLarge m = true) ∧ ∃ v,last = .put k v ∧ s.LedTo zstd now mutations k v)

/-- The shard after the batch with the index that its records make of the one before. -/
def replayedAfter (s t : StorageEngine) (ops : List WalOp) : StorageEngine :=
  {t with index := ((filterCommittedOps ops).foldl replayOp s).index}

theorem getLast?_filter_of_last (h : xs.getLast? = some x) (hx : p x = true) :
    (xs.filter p).getLast? = some x := by
  obtain ⟨ys,rfl⟩ := List.getLast?_eq_some_iff.1 h
  simp [List.filter_append,hx]

theorem getLast?_filter_none (h : ∀ x ∈ xs,p x = false) :
    (xs.filter p).getLast? = none := by
  rw [List.getLast?_eq_none_iff,List.filter_eq_nil_iff]
  exact fun x hx => by simp [h x hx]

theorem getLast?_filter_some (hx : x ∈ xs) (hp : p x = true) :
    ∃ y ∈ xs,p y = true ∧ (xs.filter p).getLast? = some y := by
  have hne : xs.filter p ≠ [] := List.ne_nil_of_mem (List.mem_filter.2 ⟨hx,hp⟩)
  have hlast := List.getLast_mem hne
  exact ⟨_,(List.mem_filter.1 hlast).1,(List.mem_filter.1 hlast).2,List.getLast?_eq_some_getLast hne⟩

theorem lastValue_entries (k : String) (p : StorageMutation × Pointer → Bool) (rs : List (StorageMutation × Pointer)) :
    lastValue k ((rs.filter p).map entryOf) = ((rs.filter fun r => r.1.key = k).filter p).getLast?.map Prod.snd := by
  refine (lastValue_map (fun r : StorageMutation × Pointer => r.1.key) Prod.snd k (rs.filter p)).trans ?_
  rw [List.filter_filter,List.filter_filter]
  simp only [Bool.and_comm]

/-- The mutations of one key with their pointers. -/
def ofKey (k : String) (rs : List (StorageMutation × Pointer)) : List (StorageMutation × Pointer) :=
  rs.filter fun r => r.1.key = k

namespace BatchOutcome
variable {zstd : Option Zstd} {now : Int64} {s t g : StorageEngine} {mutations : List StorageMutation} {ops : List WalOp}
  {rs : List (StorageMutation × Pointer)} (h : BatchOutcome s now mutations ops t g rs) (k : String)
include h

theorem lookup_index : t.index.lookup k = (((ofKey k rs).filter fun r => s.isMedium r.1).getLast?.map Prod.snd).or
    ((((ofKey k rs).filter fun r => !s.isMedium r.1).getLast?.map Prod.snd).or (s.index.lookup k)) := by
  rw [h.index,lookup_insertAll,lastValue_append,lastValue_entries,lastValue_entries,Option.or_assoc]
  rfl

theorem lookup_replayed : (s.replayedAfter t ops).index.lookup k =
    (((ofKey k rs).filter fun r => s.isMedium r.1).getLast?.map Prod.snd).or
      ((((ofKey k rs).filter fun r => !s.isMedium r.1 && !s.isLarge r.1).getLast?.map Prod.snd).or (s.index.lookup k)) := by
  refine (congrArg (Finmap.lookup k) h.replayed).trans ?_
  rw [lookup_insertAll,lastValue_append,lastValue_entries,lastValue_entries,Option.or_assoc]
  rfl

theorem getLast?_ofKey : (mutations.filter fun m => m.key = k).getLast? = (ofKey k rs).getLast?.map Prod.fst := by
  rw [← h.mutations_eq,List.filter_map,List.getLast?_map]
  rfl

theorem forall_ofKey {q : StorageMutation → Prop} : (∀ m ∈ mutations,m.key = k → q m) ↔ ∀ r ∈ ofKey k rs,q r.1 := by
  rw [← h.mutations_eq]
  simp only [List.forall_mem_map,ofKey,List.mem_filter,decide_eq_true_eq,and_imp]

omit h in
theorem lookup_ordered : (insertAll s.index (rs.map entryOf)).lookup k =
    ((ofKey k rs).getLast?.map Prod.snd).or (s.index.lookup k) := by
  rw [lookup_insertAll]
  exact congrArg (Option.or · _) (lastValue_map (fun r : StorageMutation × Pointer => r.1.key) Prod.snd k rs)

variable {k} {r : StorageMutation × Pointer}

theorem pointer_ofKey (hr : r ∈ ofKey k rs) (hmedium : s.isMedium r.1 = false) : r.2 = pointerFor now r.1 := by
  have := h.pointer r (List.mem_filter.1 hr).1
  rwa [hmedium,if_neg Bool.false_ne_true] at this

/-- A last mutation for the segment is the one that counts everywhere. -/
theorem lookup_of_medium (hlast : (ofKey k rs).getLast? = some r) (hmedium : s.isMedium r.1 = true) :
    t.index.lookup k = some r.2 ∧ (s.replayedAfter t ops).index.lookup k = some r.2 := by
  have hfilter := getLast?_filter_of_last (p := fun r => s.isMedium r.1) hlast hmedium
  rw [h.lookup_index,h.lookup_replayed,hfilter]
  exact ⟨rfl,rfl⟩

/-- An earlier mutation for the segment is entered after a last one that is not. -/
theorem lookup_of_earlier {r' : StorageMutation × Pointer} (hr' : r' ∈ ofKey k rs) (hmedium : s.isMedium r'.1 = true) :
    ∃ id offset len,t.index.lookup k = some (.segment id offset len) := by
  obtain ⟨y,hy,hym,hfilter⟩ := getLast?_filter_some (p := fun r => s.isMedium r.1) hr' hmedium
  have hpointer := h.pointer y (List.mem_filter.1 hy).1
  rw [if_pos hym] at hpointer
  obtain ⟨id,offset,len,hp⟩ := hpointer
  refine ⟨id,offset,len,?_⟩
  rw [h.lookup_index,hfilter,Option.map_some,hp]
  rfl

theorem lookup_of_none (hnone : ∀ r ∈ ofKey k rs,s.isMedium r.1 = false) (hlast : (ofKey k rs).getLast? = some r) :
    t.index.lookup k = some r.2 ∧ (s.replayedAfter t ops).index.lookup k =
      (((ofKey k rs).filter fun r => !s.isMedium r.1 && !s.isLarge r.1).getLast?.map Prod.snd).or (s.index.lookup k) := by
  have hmediums := getLast?_filter_none (p := fun r : StorageMutation × Pointer => s.isMedium r.1) hnone
  have hother : (!s.isMedium r.1) = true := by simp [hnone r (List.mem_of_getLast? hlast)]
  have hothers := getLast?_filter_of_last (p := fun r => !s.isMedium r.1) hlast hother
  rw [h.lookup_index,h.lookup_replayed,hmediums,hothers]
  exact ⟨rfl,rfl⟩

omit h in
theorem replayedAfter_congr (hlookup : (s.replayedAfter t ops).index.lookup k = t.index.lookup k) :
    (s.replayedAfter t ops).isLive k = t.isLive k ∧ (s.replayedAfter t ops).get zstd k = t.get zstd k :=
  ⟨by rw [isLive,isLive,hlookup],get_congr hlookup rfl rfl⟩

omit h in
theorem isLive_of_get {u : StorageEngine} {v : Bytes} (hget : u.get zstd k = .ok (some v)) : u.isLive k = true := by
  rw [isLive]
  rw [get] at hget
  cases hk : u.index.lookup k with
  | none => simp [hk] at hget
  | some p =>
    cases p with
    | deleted _ => simp [hk,readPointer] at hget
    | _ => rfl

/-- A large last value: the records leave the entry of the last small one, or the one from before the batch. -/
theorem large_iff (hnone : ∀ r ∈ ofKey k rs,s.isMedium r.1 = false) (hlast : (ofKey k rs).getLast? = some r)
    (hlarge : s.isLarge r.1 = true) :
    ((s.replayedAfter t ops).isLive k = t.isLive k ∧ (s.replayedAfter t ops).get zstd k = t.get zstd k) ↔
      (∀ r ∈ ofKey k rs,s.isLarge r.1 = true) ∧ ∃ v,r.1 = .put k v ∧ s.LedTo zstd now mutations k v := by
  have hr := List.mem_of_getLast? hlast
  have hkey : r.1.key = k := by simpa using (List.mem_filter.1 hr).2
  obtain ⟨hindex,hreplayed⟩ := h.lookup_of_none hnone hlast
  rw [h.pointer_ofKey hr (hnone r hr)] at hindex
  obtain ⟨v,hv,hlen⟩ : ∃ v,r.1 = .put k v ∧ 4096 ≤ v.length := by
    cases hm : r.1 with
    | delete key => simp [hm,isLarge] at hlarge
    | put key v =>
      rw [hm] at hkey
      simp only [hm,isLarge,Bool.and_eq_true,decide_eq_true_eq] at hlarge
      exact ⟨v,congrArg (StorageMutation.put · v) hkey,hlarge.1⟩
  rw [hv] at hindex
  have hlive : t.isLive k = true := by rw [isLive,hindex]; rfl
  have hget : t.get zstd k = .ok (some v) := by rw [get,hindex]; rfl
  rw [hlive,hget,hv]
  by_cases hall : ∀ r ∈ ofKey k rs,s.isLarge r.1 = true
  · have hsmall : ((ofKey k rs).filter fun r => !s.isMedium r.1 && !s.isLarge r.1).getLast? = none :=
      getLast?_filter_none fun r hr => by simp [hall r hr]
    rw [hsmall] at hreplayed
    have hbefore : (s.replayedAfter t ops).get zstd k = g.get zstd k := by
      obtain ⟨hgindex,-⟩ := @grown_eq zstd now s g mutations h.grown
      refine get_congr (hreplayed.trans ?_) h.segments (by rw [← h.blobs]; rfl)
      rw [hgindex]
      rfl
    rw [hbefore]
    constructor
    · rintro ⟨-,hg⟩
      exact ⟨hall,v,rfl,(ledTo_iff h.grown v).2 hg⟩
    · rintro ⟨-,w,hw,hled⟩
      obtain rfl := (StorageMutation.put.inj hw).2
      have hg := (ledTo_iff h.grown v).1 hled
      exact ⟨isLive_of_get (hbefore.trans hg),hg⟩
  · refine iff_of_false (fun hboth => ?_) fun hcond => hall hcond.1
    push Not at hall
    obtain ⟨r',hr',hsmall⟩ := hall
    obtain ⟨y,hy,hysmall,hylast⟩ := getLast?_filter_some (p := fun r => !s.isMedium r.1 && !s.isLarge r.1) hr'
      (by simp [hnone r' hr',hsmall])
    rw [hylast,Option.map_some,h.pointer_ofKey hy (hnone y hy)] at hreplayed
    change _ = some _ at hreplayed
    cases hm : y.1 with
    | delete key =>
      rw [isLive,hreplayed,hm] at hboth
      exact absurd hboth.1 Bool.false_ne_true
    | put key w =>
      rw [get,hreplayed,hm] at hboth
      obtain rfl : w = v := Option.some.inj (Except.ok.inj hboth.2)
      simp only [hm,isMedium,isLarge,Bool.and_eq_true,Bool.not_eq_true',Bool.and_eq_false_iff,
        decide_eq_false_iff_not] at hysmall
      omega

theorem key_iff : ((insertAll s.index (rs.map entryOf)).lookup k = t.index.lookup k ∧
    (s.replayedAfter t ops).isLive k = t.isLive k ∧ (s.replayedAfter t ops).get zstd k = t.get zstd k) ↔
      KeyInOrder zstd s now mutations k := by
  rw [KeyInOrder,h.getLast?_ofKey,h.forall_ofKey,h.forall_ofKey,lookup_ordered]
  cases hlast : (ofKey k rs).getLast? with
  | none =>
    have hnil := List.getLast?_eq_none_iff.1 hlast
    have hindex := h.lookup_index k
    have hreplayed := h.lookup_replayed k
    rw [hnil] at hindex hreplayed
    refine iff_of_true ⟨hindex.symm,replayedAfter_congr (hreplayed.trans hindex.symm)⟩ fun last hl => by cases hl
  | some r =>
    simp only [Option.map_some,Option.some.injEq,forall_eq',Option.some_or]
    have hr := List.mem_of_getLast? hlast
    cases hmedium : s.isMedium r.1 with
    | true =>
      obtain ⟨hindex,hreplayed⟩ := h.lookup_of_medium hlast hmedium
      exact iff_of_true ⟨hindex.symm,replayedAfter_congr (hreplayed.trans hindex.symm)⟩ (.inl rfl)
    | false =>
      by_cases hnone : ∀ r ∈ ofKey k rs,s.isMedium r.1 = false
      · obtain ⟨hindex,hreplayed⟩ := h.lookup_of_none hnone hlast
        cases hlarge : s.isLarge r.1 with
        | true =>
          rw [hindex,and_iff_right rfl,or_iff_right Bool.false_ne_true,and_iff_right hnone,forall_prop_of_true rfl]
          exact h.large_iff hnone hlast hlarge
        | false =>
          have hsmall := getLast?_filter_of_last (p := fun r => !s.isMedium r.1 && !s.isLarge r.1) hlast
            (by simp [hmedium,hlarge])
          rw [hsmall] at hreplayed
          exact iff_of_true ⟨hindex.symm,replayedAfter_congr (hreplayed.trans hindex.symm)⟩ (.inr ⟨hnone,nofun⟩)
      · have hsome := hnone
        push Not at hsome
        obtain ⟨r',hr',hm'⟩ := hsome
        obtain ⟨id,offset,len,hindex⟩ := h.lookup_of_earlier hr' (by simpa using hm')
        refine iff_of_false (fun hboth => ?_) (fun hcond => hcond.elim Bool.false_ne_true fun hc => hnone hc.1)
        rw [hindex,h.pointer_ofKey hr hmedium] at hboth
        cases hm : r.1 <;> simp [hm,pointerFor] at hboth

end BatchOutcome

/-- A batch that was applied leaves the index that its mutations give in the order of the list, and records from which
the same follows, exactly if the sizes allow it for every key. -/
theorem applyBatch_inOrder_iff {crc : Bytes → UInt32} {zstd : Option Zstd} {instant : ℕ} {now : Int64} {s t : StorageEngine}
    {mutations : List StorageMutation} {isRemote : Bool} {work : List BlobWork} {ops : List WalOp}
    (hok : s.applyBatchLogged crc instant now mutations isRemote = .ok ((work,ops),t)) :
    (s.inOrder now mutations = .ok t.index ∧
      ∀ k,(s.replayedAfter t ops).isLive k = t.isLive k ∧ (s.replayedAfter t ops).get zstd k = t.get zstd k) ↔
        ∀ k,KeyInOrder zstd s now mutations k := by
  by_cases hne : mutations = []
  · subst hne
    obtain ⟨hworks,rfl⟩ := Prod.mk.inj (Except.ok.inj hok)
    obtain ⟨-,rfl⟩ := Prod.mk.inj hworks
    exact iff_of_true ⟨rfl,fun k => ⟨rfl,rfl⟩⟩ fun k last hlast => by cases hlast
  · obtain ⟨g,rs,h⟩ := batchOutcome hne hok
    have hordered : s.inOrder now mutations = .ok t.index ↔
        ∀ k,(insertAll s.index (rs.map entryOf)).lookup k = t.index.lookup k := by
      rw [h.ordered,Except.ok.injEq]
      exact ⟨fun heq k => by rw [heq],Finmap.ext_lookup⟩
    rw [hordered,← forall_and]
    exact forall_congr' fun k => h.key_iff

def smallMutations : List StorageMutation := [.put "a" [1,2],.delete "a",.put "a" [3]]

theorem applyBatch_inOrder_smallMutations : ∃ work ops t,
    (fresh .default "c" none 0).applyBatchLogged crc32 0 7 smallMutations false = .ok ((work,ops),t) ∧
      (fresh .default "c" none 0).inOrder 7 smallMutations = .ok t.index ∧
        ∀ k,((fresh .default "c" none 0).replayedAfter t ops).isLive k = t.isLive k ∧
          ((fresh .default "c" none 0).replayedAfter t ops).get none k = t.get none k := by
  obtain ⟨work,ops,t,hok⟩ : ∃ work ops t,
      (fresh .default "c" none 0).applyBatchLogged crc32 0 7 smallMutations false = .ok ((work,ops),t) := ⟨_,_,_,rfl⟩
  refine ⟨work,ops,t,hok,(applyBatch_inOrder_iff hok).2 fun k last hlast => .inr ⟨?_,fun hlarge => ?_⟩⟩
  · intro m hm _
    have : smallMutations.all fun m => !(fresh .default "c" none 0).isMedium m := by decide
    simpa using List.all_eq_true.1 this m hm
  · have : smallMutations.all fun m => !(fresh .default "c" none 0).isLarge m := by decide
    have hsmall := List.all_eq_true.1 this last (List.mem_of_mem_filter (List.mem_of_getLast? hlast))
    rw [hlarge] at hsmall
    cases hsmall

/-- A value for the segment that the same batch deletes: it is entered after the delete, and stays. -/
theorem applyBatch_inOrder_deletedMedium :
    ((fresh .default "c" none 0).applyBatchLogged crc32 0 7 [.put "k" (List.replicate 5000 1),.delete "k"] false).toOption.map
        (fun r => (r.2.isLive "k",((fresh .default "c" none 0).replayedAfter r.2 r.1.2).isLive "k")) = some (true,true) ∧
      ((fresh .default "c" none 0).inOrder 7 [.put "k" (List.replicate 5000 1),.delete "k"]).toOption.map
        (fun index => (index.lookup "k").any Pointer.isLive) = some false := by
  decide +kernel

end StorageEngine

end HakoDB

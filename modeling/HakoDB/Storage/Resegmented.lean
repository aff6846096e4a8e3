import HakoDB.Storage.Housekeeping
import HakoDB.Storage.Recovery
import HakoDB.Storage.SortedView

/-! Compactions and merges move entries into segments and leave every other entry where it is. -/
namespace HakoDB
open ByteCodec FramedLog HashMap

variable {s : StorageEngine} {zstd : Option Zstd} {useCompression : Bool} {id : UInt64}
    {entries : List (String × Bytes)} {orders : TableOrders}

theorem StorageEngine.mem_tombstones {orders : TableOrders} {k : String} {ts : Int64} (h : (k,ts) ∈ s.tombstones orders) :
    s.index.lookup k = some (.deleted ts) := by
  obtain ⟨⟨k',p⟩,hmem,heq⟩ := List.mem_filterMap.1 h
  have hp := (orders.index.mem_entries s.index k' p).1 hmem
  cases p <;> simp only [Option.some.injEq,Prod.mk.injEq,reduceCtorEq] at heq
  rw [← heq.1,← heq.2]
  exact hp

theorem Segment.compactEntries_pointers (seg : Segment) (entries : List (String × Bytes)) :
    ∀ e ∈ (compactEntries zstd useCompression id seg entries).1,∃ offset len,e.2 = .segment id offset len := by
  induction entries generalizing seg with
  | nil => simp [compactEntries]
  | cons x entries ih =>
    obtain ⟨key,raw⟩ := x
    simp only [compactEntries,List.mem_cons]
    rintro e (rfl | he)
    · exact ⟨_,_,rfl⟩
    · exact ih _ e he

theorem Segment.compactEntries_keys (seg : Segment) (entries : List (String × Bytes)) :
    (compactEntries zstd useCompression id seg entries).1.map Prod.fst = entries.map Prod.fst := by
  induction entries generalizing seg with
  | nil => rfl
  | cons x entries ih =>
    obtain ⟨key,raw⟩ := x
    simp only [compactEntries,List.map_cons]
    rw [ih]

/-- The table of a new segment has the keys of its entries, each with a place in the segment. -/
theorem Segment.compactSegment_lookup {seg : Segment}
    (h : (compactSegment zstd seg entries id useCompression).1.lookup k = some p) :
    k ∈ entries.map Prod.fst ∧ ∃ offset len,p = .segment id offset len := by
  rw [compactSegment,lookup_insertAll] at h
  have hlast : lastValue k (compactEntries zstd useCompression id {seg with file := []} entries).1 = some p := by
    simpa using h
  have hmem := mem_of_lastValue hlast
  refine ⟨?_,compactEntries_pointers _ entries (k,p) hmem⟩
  rw [← compactEntries_keys {seg with file := []} entries]
  exact List.mem_map_of_mem (f := Prod.fst) hmem

theorem Segment.compactSegment_segments (zstd : Option Zstd) (seg : Segment) (entries : List (String × Bytes))
    (id : UInt64) (useCompression : Bool) (k : String) (p : Pointer)
    (h : (compactSegment zstd seg entries id useCompression).1.lookup k = some p) :
    ∃ id offset len,p = .segment id offset len := by
  obtain ⟨-,offset,len,hseg⟩ := compactSegment_lookup h
  exact ⟨id,offset,len,hseg⟩

/-- The tables differ at keys that point into segments in both. -/
def Resegmented (old new : HMap String Pointer) : Prop :=
  ∀ k,new.lookup k = old.lookup k ∨ ∃ id offset len id' offset' len',
    old.lookup k = some (.segment id offset len) ∧ new.lookup k = some (.segment id' offset' len')

namespace Resegmented
variable {old mid new : HMap String Pointer} {orders : TableOrders}

theorem trans (h : Resegmented old mid) (h' : Resegmented mid new) : Resegmented old new := by
  intro k
  rcases h' k with heq' | ⟨id,offset,len,id',offset',len',hmid,hnew⟩
  · rw [heq']
    exact h k
  · rcases h k with heq | ⟨id0,offset0,len0,_,_,_,hold,_⟩
    · exact .inr ⟨id,offset,len,id',offset',len',heq ▸ hmid,hnew⟩
    · exact .inr ⟨id0,offset0,len0,id',offset',len',hold,hnew⟩

theorem moveMerged {prep : TierPrep} {e : String × Pointer} (h : ∃ id offset len,e.2 = .segment id offset len) :
    Resegmented old (StorageEngine.moveMerged prep old e) := by
  intro k
  unfold StorageEngine.moveMerged
  split
  · rename_i id offset len hlookup
    split
    · rw [lookup_insert_ite]
      split
      · rename_i hk
        obtain ⟨id',offset',len',he⟩ := h
        exact .inr ⟨id,offset,len,id',offset',len',hk ▸ hlookup,by rw [he]⟩
      · exact .inl rfl
    · exact .inl rfl
  · exact .inl rfl

theorem foldl_moveMerged {prep : TierPrep} (es : List (String × Pointer))
    (h : ∀ e ∈ es,∃ id offset len,e.2 = .segment id offset len) (old : HMap String Pointer) :
    Resegmented old (es.foldl (StorageEngine.moveMerged prep) old) := by
  induction es generalizing old with
  | nil => exact fun _ => .inl rfl
  | cons e es ih =>
    exact (moveMerged (h e List.mem_cons_self)).trans (ih (fun e' he' => h e' (List.mem_cons_of_mem _ he')) _)

theorem insertPointers {pointers : HMap String Pointer}
    (h : ∀ k p,pointers.lookup k = some p → (∃ id offset len,old.lookup k = some (.segment id offset len)) ∧
      ∃ id offset len,p = .segment id offset len) :
    Resegmented old (insertAll old (orders.index.entries pointers)) := by
  intro k
  rw [lookup_insertAll,orders.index.lastValue_entries]
  cases hp : pointers.lookup k with
  | none => exact .inl rfl
  | some p =>
    obtain ⟨⟨id,offset,len,hold⟩,id',offset',len',rfl⟩ := h k p hp
    exact .inr ⟨id,offset,len,id',offset',len',hold,rfl⟩

end Resegmented

/-- The documents of given segments are found under keys that point into segments. -/
theorem StorageEngine.segmentEntries_keys {ids : List UInt64} (h : s.segmentEntries zstd orders ids = .ok entries) :
    ∀ k ∈ entries.map Prod.fst,∃ id offset len,s.index.lookup k = some (.segment id offset len) := by
  refine foldlM_invariant (fun out => ∀ k ∈ out.map Prod.fst,∃ id offset len,
    s.index.lookup k = some (.segment id offset len)) ?_ (by simp) h
  intro out e out' he hout hok
  have hlookup := (orders.index.mem_entries s.index e.1 e.2).1 he
  unfold segmentEntry at hok
  split at hok
  · rename_i id offset len hseg
    have hkey : ∃ id offset len,s.index.lookup e.1 = some (.segment id offset len) := ⟨id,offset,len,hseg ▸ hlookup⟩
    split at hok
    · obtain ⟨value,-,hrest⟩ := bind_eq_ok.1 hok
      cases value with
      | none =>
        obtain rfl := Except.ok.inj hrest
        exact hout
      | some value =>
        obtain rfl := Except.ok.inj hrest
        intro k hk
        rw [List.map_append,List.mem_append] at hk
        rcases hk with hk | hk
        · exact hout k hk
        · rw [List.mem_singleton.1 hk]
          exact hkey
    · obtain rfl := Except.ok.inj hok
      exact hout
  · obtain rfl := Except.ok.inj hok
    exact hout

namespace StorageEngine
variable {s : StorageEngine}

theorem resegmented_compacted (zstd : Option Zstd) (orders : TableOrders) (ids : List UInt64)
    {entries : List (String × Bytes)}
    (hkeys : ∀ k ∈ entries.map Prod.fst,∃ id offset len,s.index.lookup k = some (.segment id offset len)) :
    Resegmented s.index (s.compacted zstd orders ids entries).index := by
  refine Resegmented.insertPointers fun k p hp => ?_
  obtain ⟨hmem,offset,len,hseg⟩ := Segment.compactSegment_lookup hp
  exact ⟨hkeys k hmem,_,offset,len,hseg⟩

theorem resegmented_merged (orders : TableOrders) (prep : TierPrep) {pointers : HMap String Pointer}
    (hp : ∀ k p,pointers.lookup k = some p → ∃ id offset len,p = .segment id offset len) (target : Segment) :
    Resegmented s.index (s.merged orders prep pointers target).index := by
  refine Resegmented.foldl_moveMerged _ (fun e he => ?_) s.index
  exact hp e.1 e.2 ((orders.index.mem_entries pointers e.1 e.2).1 he)

/-- Documents have moved between segments; what is kept beside the index is as it was. -/
structure Relocated (s t : StorageEngine) : Prop where
  index : Resegmented s.index t.index
  sortedKeys : t.sortedKeys = s.sortedKeys
  logicalName : t.logicalName = s.logicalName
  collectionCounts : t.collectionCounts = s.collectionCounts
  inlinedBytes : t.inlinedBytes = s.inlinedBytes

variable {crc : Bytes → UInt32} {zstd : Option Zstd} {orders : TableOrders} {t : StorageEngine} {now : ℕ}

theorem Relocated.refl (s : StorageEngine) : Relocated s s := ⟨fun _ => .inl rfl,rfl,rfl,rfl,rfl⟩

theorem Relocated.of_next {id : UInt64} (h : Relocated {s with nextSegmentId := id} t) : Relocated s t :=
  ⟨h.index,h.sortedKeys,h.logicalName,h.collectionCounts,h.inlinedBytes⟩

theorem relocated_compact (hok : s.compact crc zstd orders now = .ok t) : Relocated s t := by
  have hrotated : Relocated s s.forceRotation := by
    unfold forceRotation
    split <;> exact ⟨fun _ => .inl rfl,rfl,rfl,rfl,rfl⟩
  unfold compact at hok
  dsimp only at hok
  split at hok
  · obtain rfl := Except.ok.inj hok
    split <;> exact ⟨hrotated.index,hrotated.sortedKeys,hrotated.logicalName,hrotated.collectionCounts,hrotated.inlinedBytes⟩
  · obtain ⟨entries,hentries,hrest⟩ := bind_eq_ok.1 hok
    obtain rfl := Except.ok.inj hrest
    have hindex : s.forceRotation.index = s.index := by
      unfold forceRotation
      split <;> rfl
    have hmoved := resegmented_compacted zstd orders (s.forceRotation.immutableIds orders) (segmentEntries_keys hentries)
    rw [hindex] at hmoved
    exact ⟨hmoved,hrotated.sortedKeys,hrotated.logicalName,hrotated.collectionCounts,hrotated.inlinedBytes⟩

theorem relocated_tierCommit (crc : Bytes → UInt32) (zstd : Option Zstd) (orders : TableOrders) (now : ℕ)
    (s : StorageEngine) (prep : TierPrep) (seg : Segment) (entries : List (String × Bytes)) (useCompression : Bool)
    (target : Segment) : Relocated s (s.tierCommit crc orders now prep
      (Segment.compactSegment zstd seg entries prep.targetId useCompression).1 target).2 := by
  unfold tierCommit
  split
  · have hpointers := Segment.compactSegment_segments zstd seg entries prep.targetId useCompression
    exact ⟨resegmented_merged orders prep hpointers target,rfl,rfl,rfl,rfl⟩
  · exact .refl s

theorem relocated_tryCompactTiers {done : Bool} (hok : s.tryCompactTiers crc zstd orders now = .ok (done,t)) :
    Relocated s t := by
  unfold tryCompactTiers at hok
  cases hprep : s.tierPrepare orders with
  | none =>
    simp only [hprep] at hok
    obtain ⟨-,rfl⟩ := Prod.mk.inj (Except.ok.inj hok)
    exact .refl s
  | some r =>
    obtain ⟨prep,s1⟩ := r
    simp only [hprep] at hok
    obtain ⟨_,-,hstate⟩ := Option.map_eq_some_iff.1 hprep
    obtain rfl := (Prod.mk.inj hstate).2
    obtain ⟨entries,-,hrest⟩ := bind_eq_ok.1 hok
    obtain rfl : _ = t := congrArg Prod.snd (Except.ok.inj hrest)
    exact (relocated_tierCommit crc zstd orders now _ prep _ entries _ _).of_next

end StorageEngine

end HakoDB

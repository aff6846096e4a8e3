import HakoDB.Document.Accepted
import HakoDB.Storage.Crash
import HakoDB.Storage.Resegmented
import HakoDB.Sync.Catchup

/-! The version of a collection: the greatest time that the index shows. Documents in segments and blobs show none, so that
what a checkpoint moves there no longer counts. -/
namespace HakoDB
open ByteCodec HashMap

/-- The maximum of two times is the later one. -/
instance lawfulOrderMaxTime : Std.LawfulOrderMax Int64 where
  max_le_iff a b c := by
    have hmax : max a b = if a ≤ b then b else a := rfl
    rw [hmax]
    split_ifs with h
    · exact ⟨fun hb => ⟨Int64.le_trans h hb,hb⟩,And.right⟩
    · exact ⟨fun ha => ⟨ha,Int64.le_trans (Int64.le_of_lt (Int64.not_le.1 h)) ha⟩,And.left⟩
  max_eq_or a b := by
    have hmax : max a b = if a ≤ b then b else a := rfl
    rw [hmax]
    split_ifs
    · exact .inr rfl
    · exact .inl rfl

namespace Pointer

/-- A tombstone, or a document that waits for the blob writer. -/
def lasting : Pointer → Bool
  | .blobPending _ | .deleted _ => true
  | _ => false

def shown : Pointer → Bool
  | .inlined _ => true
  | p => p.lasting

end Pointer

namespace StorageEngine
variable (crc : Bytes → UInt32) (zstd : Option Zstd) (orders : TableOrders) (s : StorageEngine)

/-- The logical time of a tombstone, or of the document behind a pointer. -/
def timeAt : Pointer → Option Int64
  | .deleted timestamp => some timestamp
  | .blobPending doc => some doc.getLogicalTime
  | p => ((s.readPointer zstd p).toOption.join.bind HakoDoc.decode).map HakoDoc.getLogicalTime

/-- An entry of a kind has this time. -/
def HasTime (kind : Pointer → Bool) (t : Int64) : Prop := ∃ k p,s.index.lookup k = some p ∧ kind p ∧ s.timeAt zstd p = some t

/-- The greatest time of all documents and tombstones. -/
def Newest (t : Int64) : Prop := s.HasTime zstd (fun _ => true) t ∧ ∀ u,s.HasTime zstd (fun _ => true) u → u ≤ t

/-- Every inlined value is a document. -/
def Stored : Prop := ∀ k bytes,s.index.lookup k = some (.inlined bytes) → ∃ doc,HakoDoc.decode bytes = some doc

/-- The version is the greatest time, 0 without documents and tombstones, and maintenance leaves it as it is. -/
structure VersionHolds : Prop where
  newest : ∃ v,s.collectionVersion orders.index = .ok v ∧ (s.Newest zstd v ∨ (∀ t,¬s.HasTime zstd (fun _ => true) t) ∧ v = 0)
  checkpoint : ∀ now,(s.checkpointInlinedData crc zstd orders now).2.collectionVersion orders.index = s.collectionVersion orders.index
  compact : ∀ now t,s.compact crc zstd orders now = .ok t → t.collectionVersion orders.index = s.collectionVersion orders.index
  tiers : ∀ now done t,s.tryCompactTiers crc zstd orders now = .ok (done,t) →
    t.collectionVersion orders.index = s.collectionVersion orders.index

/-- Beside entries that show no time, and before a checkpoint, the greatest time must be one that stays in sight. -/
structure NewestShown : Prop where
  hidden : (∃ k p,s.index.lookup k = some p ∧ p.shown = false) → ∀ t,s.Newest zstd t → 0 ≤ t ∧ (t = 0 ∨ s.HasTime zstd Pointer.shown t)
  spill : s.checkpointDue orders → ∀ t,s.Newest zstd t → 0 ≤ t ∧ (t = 0 ∨ s.HasTime zstd Pointer.lasting t)

variable {crc zstd orders s} {t : StorageEngine} {k : String} {p : Pointer} {v : Int64}

/-- An entry shows this time. -/
def ShowsTime (s : StorageEngine) (v : Int64) : Prop := ∃ k p,s.index.lookup k = some p ∧ collectionVersion.versionTime p = .ok v

theorem versionTime_of_shown (zstd : Option Zstd) (hdocs : s.Stored) (hp : s.index.lookup k = some p) (hshown : p.shown = true) :
    ∃ u,s.timeAt zstd p = some u ∧ collectionVersion.versionTime p = .ok u := by
  cases p with
  | inlined bytes =>
    obtain ⟨doc,hdoc⟩ := hdocs k bytes hp
    obtain ⟨hlen,htime⟩ := HakoDoc.time_of_decode hdoc
    refine ⟨doc.time,?_,?_⟩
    · simp only [timeAt,readPointer,Except.toOption,Option.join_some,Option.bind_some,hdoc,Option.map_some]
      rfl
    · rw [collectionVersion.versionTime,frameTime,if_neg (not_lt.2 hlen),htime]
  | blobPending doc => exact ⟨_,rfl,rfl⟩
  | deleted timestamp => exact ⟨_,rfl,rfl⟩
  | _ => cases hshown

theorem versionTime_of_hidden (hshown : p.shown = false) : collectionVersion.versionTime p = .ok 0 := by
  cases p with
  | inlined _ | blobPending _ | deleted _ => cases hshown
  | _ => rfl

theorem exists_versionTime (hdocs : s.Stored) (hp : s.index.lookup k = some p) : ∃ u,collectionVersion.versionTime p = .ok u := by
  cases hshown : p.shown with
  | true =>
    obtain ⟨u,-,hu⟩ := versionTime_of_shown none hdocs hp hshown
    exact ⟨u,hu⟩
  | false => exact ⟨0,versionTime_of_hidden hshown⟩

theorem mapM_versionTime (es : List (String × Pointer)) (h : ∀ e ∈ es,∃ u,collectionVersion.versionTime e.2 = .ok u) :
    ∃ times,es.mapM (fun e => collectionVersion.versionTime e.2) = .ok times ∧ ∀ u,u ∈ times ↔ ∃ e ∈ es,collectionVersion.versionTime e.2 = .ok u := by
  induction es with
  | nil => exact ⟨[],rfl,by simp⟩
  | cons e es ih =>
    obtain ⟨u,hu⟩ := h e List.mem_cons_self
    obtain ⟨times,htimes,hmem⟩ := ih fun e' he' => h e' (List.mem_cons_of_mem e he')
    refine ⟨u::times,by rw [List.mapM_cons,hu,htimes]; rfl,fun w => ?_⟩
    simp [hmem,hu,eq_comm]

/-- The version is the greatest time shown. -/
theorem collectionVersion_eq (orders : TableOrders) (hdocs : s.Stored) : ∃ v,s.collectionVersion orders.index = .ok v ∧
    ((s.ShowsTime v ∧ ∀ u,s.ShowsTime u → u ≤ v) ∨ (∀ u,¬s.ShowsTime u) ∧ v = 0) := by
  obtain ⟨times,htimes,hmem⟩ := mapM_versionTime (orders.index.entries s.index) fun e he =>
    exists_versionTime hdocs ((orders.index.mem_entries s.index e.1 e.2).1 he)
  have hshows : ∀ u,u ∈ times ↔ s.ShowsTime u := by
    intro u
    rw [hmem]
    constructor
    · rintro ⟨e,he,hu⟩
      exact ⟨e.1,e.2,(orders.index.mem_entries s.index e.1 e.2).1 he,hu⟩
    · rintro ⟨k,p,hp,hu⟩
      exact ⟨(k,p),(orders.index.mem_entries s.index k p).2 hp,hu⟩
  refine ⟨times.max?.getD 0,by rw [collectionVersion,htimes]; rfl,?_⟩
  cases hgreatest : times.max? with
  | some v =>
    obtain ⟨hv,hmax⟩ := List.max?_eq_some_iff.1 hgreatest
    exact .inl ⟨(hshows v).1 hv,fun u hu => hmax u ((hshows u).2 hu)⟩
  | none =>
    refine .inr ⟨fun u hu => ?_,rfl⟩
    have hmem := (hshows u).2 hu
    rw [List.max?_eq_none_iff.1 hgreatest] at hmem
    cases hmem

theorem collectionVersion_congr (hs : s.Stored) (ht : t.Stored) (h : ∀ v,t.ShowsTime v ↔ s.ShowsTime v) :
    t.collectionVersion orders.index = s.collectionVersion orders.index := by
  obtain ⟨v,hv,hvs⟩ := collectionVersion_eq orders hs
  obtain ⟨w,hw,hws⟩ := collectionVersion_eq orders ht
  rw [hv,hw]
  congr 1
  simp only [h] at hws
  rcases hvs with ⟨hshows,hmax⟩ | ⟨hnone,rfl⟩ <;> rcases hws with ⟨hshows',hmax'⟩ | ⟨hnone',rfl⟩
  · exact Int64.le_antisymm (hmax w hshows') (hmax' v hshows)
  · exact absurd hshows (hnone' v)
  · exact absurd hshows' (hnone w)
  · rfl

/-- A place in a segment shows no time, whichever it is. -/
theorem collectionVersion_resegmented (hs : s.Stored) (h : Resegmented s.index t.index) :
    t.collectionVersion orders.index = s.collectionVersion orders.index := by
  refine collectionVersion_congr hs (fun k bytes hk => ?_) fun v => ⟨?_,?_⟩
  · rcases h k with heq | ⟨id,offset,len,id',offset',len',-,hnew⟩
    · exact hs k bytes (heq ▸ hk)
    · rw [hnew] at hk
      cases hk
  · rintro ⟨k,p,hp,hv⟩
    rcases h k with heq | ⟨id,offset,len,id',offset',len',hold,hnew⟩
    · exact ⟨k,p,heq ▸ hp,hv⟩
    · obtain rfl := Option.some.inj (hnew.symm.trans hp)
      exact ⟨k,_,hold,hv⟩
  · rintro ⟨k,p,hp,hv⟩
    rcases h k with heq | ⟨id,offset,len,id',offset',len',hold,hnew⟩
    · exact ⟨k,p,heq.trans hp,hv⟩
    · obtain rfl := Option.some.inj (hold.symm.trans hp)
      exact ⟨k,_,hnew,hv⟩

theorem mem_inlinedEntries {bytes : Bytes} : (k,bytes) ∈ s.inlinedEntries orders ↔ s.index.lookup k = some (.inlined bytes) := by
  rw [inlinedEntries,List.mem_filterMap,← orders.index.mem_entries]
  constructor
  · rintro ⟨⟨k',p⟩,hmem,heq⟩
    cases p <;> simp only [Option.some.injEq,Prod.mk.injEq,reduceCtorEq] at heq
    rw [← heq.1,← heq.2]
    exact hmem
  · exact fun hmem => ⟨_,hmem,rfl⟩

theorem index_foldl_updateIndexEntry (es : List (String × Pointer)) (s : StorageEngine) :
    (es.foldl (fun s e => s.updateIndexEntry e.1 (some e.2)) s).index = insertAll s.index es := by
  induction es generalizing s with
  | nil => rfl
  | cons e es ih => exact ih (s.updateIndexEntry e.1 (some e.2))

/-- A spill moves the inlined documents, and nothing else. -/
theorem lookup_spilled (zstd : Option Zstd) (orders : TableOrders) (s : StorageEngine) (k : String) :
    (∃ bytes,s.index.lookup k = some (.inlined bytes)) ∧ (∃ id offset len,(s.spilled zstd orders).index.lookup k = some (.segment id offset len)) ∨
      (∀ bytes,s.index.lookup k ≠ some (.inlined bytes)) ∧ (s.spilled zstd orders).index.lookup k = s.index.lookup k := by
  have hindex : (s.spilled zstd orders).index.lookup k = ((s.spill zstd orders).1.lookup k).or (s.index.lookup k) := by
    have hmoved : (s.spilled zstd orders).index = insertAll s.index (orders.index.entries (s.spill zstd orders).1) :=
      index_foldl_updateIndexEntry _ {s with nextSegmentId := s.nextSegmentId+1}
    rw [hmoved,lookup_insertAll,orders.index.lastValue_entries]
  rw [hindex]
  cases hplace : (s.spill zstd orders).1.lookup k with
  | some p =>
    obtain ⟨hkey,offset,len,rfl⟩ := Segment.compactSegment_lookup hplace
    obtain ⟨⟨k',bytes⟩,hmem,rfl⟩ := List.mem_map.1 hkey
    exact .inl ⟨⟨bytes,mem_inlinedEntries.1 hmem⟩,_,offset,len,rfl⟩
  | none =>
    refine .inr ⟨fun bytes hbytes => ?_,rfl⟩
    rw [spill,Segment.compactSegment,lookup_insertAll,Option.or_eq_none_iff,lastValue_eq_none] at hplace
    have hmem : k ∈ (s.inlinedEntries orders).map Prod.fst := List.mem_map_of_mem (mem_inlinedEntries.2 hbytes)
    rw [← Segment.compactEntries_keys] at hmem
    obtain ⟨e,he,rfl⟩ := List.mem_map.1 hmem
    exact hplace.1 e he rfl

theorem HasTime.any {kind : Pointer → Bool} (h : s.HasTime zstd kind v) : s.HasTime zstd (fun _ => true) v := by
  obtain ⟨k,p,hp,-,hv⟩ := h
  exact ⟨k,p,hp,rfl,hv⟩

theorem exists_newest (orders : TableOrders) (h : s.HasTime zstd (fun _ => true) v) : ∃ t,s.Newest zstd t := by
  have hmem : ∀ w,w ∈ (orders.index.entries s.index).filterMap (fun e => s.timeAt zstd e.2) ↔
      s.HasTime zstd (fun _ => true) w := by
    intro w
    rw [List.mem_filterMap]
    constructor
    · rintro ⟨e,he,hw⟩
      exact ⟨e.1,e.2,(orders.index.mem_entries s.index e.1 e.2).1 he,rfl,hw⟩
    · rintro ⟨k,p,hp,-,hw⟩
      exact ⟨(k,p),(orders.index.mem_entries s.index k p).2 hp,hw⟩
  obtain ⟨t,hgreatest⟩ := Option.isSome_iff_exists.1 (List.isSome_max?_iff.2 (List.ne_nil_of_mem ((hmem v).2 h)))
  obtain ⟨ht,hmax⟩ := List.max?_eq_some_iff.1 hgreatest
  exact ⟨t,(hmem t).1 ht,fun u hu => hmax u ((hmem u).2 hu)⟩

theorem Newest.unique {a b : Int64} (ha : s.Newest zstd a) (hb : s.Newest zstd b) : a = b :=
  Int64.le_antisymm (hb.2 a ha.1) (ha.2 b hb.1)

/-- What is shown is the time of an entry in sight, or 0 for one that is not. -/
theorem showsTime_iff (zstd : Option Zstd) (hdocs : s.Stored) : s.ShowsTime v ↔
    s.HasTime zstd Pointer.shown v ∨ v = 0 ∧ ∃ k p,s.index.lookup k = some p ∧ p.shown = false := by
  constructor
  · rintro ⟨k,p,hp,hv⟩
    cases hshown : p.shown with
    | true =>
      obtain ⟨u,hu,hu'⟩ := versionTime_of_shown zstd hdocs hp hshown
      obtain rfl := Except.ok.inj (hu'.symm.trans hv)
      exact .inl ⟨k,p,hp,hshown,hu⟩
    | false =>
      rw [versionTime_of_hidden hshown] at hv
      exact .inr ⟨(Except.ok.inj hv).symm,k,p,hp,hshown⟩
  · rintro (⟨k,p,hp,hshown,hv⟩ | ⟨rfl,k,p,hp,hshown⟩)
    · obtain ⟨u,hu,hu'⟩ := versionTime_of_shown zstd hdocs hp hshown
      obtain rfl := Option.some.inj (hu.symm.trans hv)
      exact ⟨k,p,hp,hu'⟩
    · exact ⟨k,p,hp,versionTime_of_hidden hshown⟩

theorem version_newest_iff (hdocs : s.Stored) :
    (∃ v,s.collectionVersion orders.index = .ok v ∧ (s.Newest zstd v ∨ (∀ t,¬s.HasTime zstd (fun _ => true) t) ∧ v = 0)) ↔
      ((∃ k p,s.index.lookup k = some p ∧ p.shown = false) →
        ∀ t,s.Newest zstd t → 0 ≤ t ∧ (t = 0 ∨ s.HasTime zstd Pointer.shown t)) := by
  obtain ⟨v,hv,hmax⟩ := collectionVersion_eq orders hdocs
  rw [hv]
  simp only [Except.ok.injEq,exists_eq_left']
  simp only [showsTime_iff zstd hdocs] at hmax
  constructor
  · intro hversion hhidden t ht
    obtain rfl : v = t := by
      rcases hversion with hnewest | ⟨hnone,-⟩
      · exact hnewest.unique ht
      · exact absurd ht.1 (hnone t)
    rcases hmax with ⟨hshows,hmax⟩ | ⟨hnone,-⟩
    · exact ⟨hmax 0 (.inr ⟨rfl,hhidden⟩),hshows.symm.imp_left And.left⟩
    · exact absurd (.inr ⟨rfl,hhidden⟩) (hnone 0)
  · intro hcond
    by_cases htimes : ∃ t,s.HasTime zstd (fun _ => true) t
    · obtain ⟨u,hu⟩ := htimes
      obtain ⟨t,ht⟩ := exists_newest orders hu
      have hshows : s.HasTime zstd Pointer.shown t ∨ t = 0 ∧ ∃ k p,s.index.lookup k = some p ∧ p.shown = false := by
        obtain ⟨k,p,hp,-,hpt⟩ := ht.1
        cases hshown : p.shown with
        | true => exact .inl ⟨k,p,hp,hshown,hpt⟩
        | false =>
          have hhidden : ∃ k p,s.index.lookup k = some p ∧ p.shown = false := ⟨k,p,hp,hshown⟩
          exact (hcond hhidden t ht).2.symm.imp_right fun hzero => ⟨hzero,hhidden⟩
      rcases hmax with ⟨hv,hmax⟩ | ⟨hnone,-⟩
      · left
        have hle : v ≤ t := by
          rcases hv with hv | ⟨rfl,hhidden⟩
          · exact ht.2 v hv.any
          · exact (hcond hhidden t ht).1
        exact Int64.le_antisymm hle (hmax t hshows) ▸ ht
      · exact absurd hshows (hnone t)
    · refine .inr ⟨fun t ht => htimes ⟨t,ht⟩,?_⟩
      rcases hmax with ⟨hv | ⟨hzero,-⟩,-⟩ | ⟨-,hzero⟩
      · exact absurd ⟨v,hv.any⟩ htimes
      · exact hzero
      · exact hzero

theorem shown_of_lasting (h : p.lasting = true) : p.shown = true := by
  cases p with
  | inlined _ => rfl
  | _ => exact h

theorem exists_inlined (hdue : s.checkpointDue orders = true) : ∃ k bytes,s.index.lookup k = some (.inlined bytes) := by
  obtain ⟨-,hsome⟩ := Bool.and_eq_true_iff.1 hdue
  cases hentries : s.inlinedEntries orders with
  | nil => simp [hentries] at hsome
  | cons e es => exact ⟨e.1,e.2,mem_inlinedEntries.1 (hentries ▸ List.mem_cons_self)⟩

theorem stored_spilled (zstd : Option Zstd) (orders : TableOrders) (s : StorageEngine) : (s.spilled zstd orders).Stored := by
  intro k bytes hk
  rcases lookup_spilled zstd orders s k with ⟨-,id,offset,len,hnew⟩ | ⟨hnone,hsame⟩
  · rw [hnew] at hk
    cases hk
  · exact absurd (hsame.symm.trans hk) (hnone bytes)

/-- Behind a spill only tombstones and pending documents show their times. -/
theorem shows_spilled (hdocs : s.Stored) (hdue : s.checkpointDue orders = true) :
    (s.spilled zstd orders).ShowsTime v ↔ v = 0 ∨ s.HasTime zstd Pointer.lasting v := by
  constructor
  · rintro ⟨k,p,hp,hv⟩
    rcases lookup_spilled zstd orders s k with ⟨-,id,offset,len,hnew⟩ | ⟨hnone,hsame⟩
    · obtain rfl := Option.some.inj (hnew.symm.trans hp)
      exact .inl (Except.ok.inj hv).symm
    · rw [hsame] at hp
      cases hlasting : p.lasting with
      | true =>
        obtain ⟨u,hu,hu'⟩ := versionTime_of_shown zstd hdocs hp (shown_of_lasting hlasting)
        obtain rfl := Except.ok.inj (hu'.symm.trans hv)
        exact .inr ⟨k,p,hp,hlasting,hu⟩
      | false =>
        have hhidden : p.shown = false := by
          cases p with
          | inlined bytes => exact absurd hp (hnone bytes)
          | _ => exact hlasting
        rw [versionTime_of_hidden hhidden] at hv
        exact .inl (Except.ok.inj hv).symm
  · rintro (rfl | ⟨k,p,hp,hlasting,hv⟩)
    · obtain ⟨k,bytes,hk⟩ := exists_inlined hdue
      rcases lookup_spilled zstd orders s k with ⟨-,id,offset,len,hnew⟩ | ⟨hnone,-⟩
      · exact ⟨k,_,hnew,rfl⟩
      · exact absurd hk (hnone bytes)
    · obtain ⟨u,hu,hu'⟩ := versionTime_of_shown zstd hdocs hp (shown_of_lasting hlasting)
      obtain rfl := Option.some.inj (hu.symm.trans hv)
      rcases lookup_spilled zstd orders s k with ⟨⟨bytes,hbytes⟩,-⟩ | ⟨-,hsame⟩
      · obtain rfl := Option.some.inj (hbytes.symm.trans hp)
        cases hlasting
      · exact ⟨k,p,hsame.trans hp,hu'⟩

theorem version_checkpoint_iff (crc : Bytes → UInt32) (hdocs : s.Stored) (hv : s.collectionVersion orders.index = .ok v)
    (hversion : s.Newest zstd v ∨ (∀ t,¬s.HasTime zstd (fun _ => true) t) ∧ v = 0) :
    (∀ now,(s.checkpointInlinedData crc zstd orders now).2.collectionVersion orders.index = s.collectionVersion orders.index) ↔
      (s.checkpointDue orders → ∀ t,s.Newest zstd t → 0 ≤ t ∧ (t = 0 ∨ s.HasTime zstd Pointer.lasting t)) := by
  cases hdue : s.checkpointDue orders with
  | false =>
    refine iff_of_true (fun now => ?_) fun h => absurd h Bool.false_ne_true
    rw [checkpointInlinedData,hdue]
    rfl
  | true =>
    have hnewest : s.Newest zstd v := by
      refine hversion.resolve_right fun hnone => ?_
      obtain ⟨k,bytes,hk⟩ := exists_inlined hdue
      obtain ⟨u,hu,-⟩ := versionTime_of_shown zstd hdocs hk rfl
      exact hnone.1 u ⟨k,_,hk,rfl,hu⟩
    have hcheckpoint : ∀ now,(s.checkpointInlinedData crc zstd orders now).2.collectionVersion orders.index =
        (s.spilled zstd orders).collectionVersion orders.index := by
      intro now
      rw [checkpointInlinedData,hdue]
      rfl
    obtain ⟨w,hw,hmax⟩ := collectionVersion_eq orders (stored_spilled zstd orders s)
    simp only [shows_spilled hdocs hdue] at hmax
    simp only [hcheckpoint,hw,hv,Except.ok.injEq,forall_const]
    constructor
    · rintro rfl t ht
      obtain rfl := hnewest.unique ht
      rcases hmax with ⟨hshows,hmax⟩ | ⟨hnone,-⟩
      · exact ⟨hmax 0 (.inl rfl),hshows⟩
      · exact absurd (.inl rfl) (hnone 0)
    · intro hcond
      obtain ⟨hpos,hshows⟩ := hcond v hnewest
      rcases hmax with ⟨hw | hw,hmax⟩ | ⟨hnone,-⟩
      · exact Int64.le_antisymm (hw ▸ hpos) (hmax v hshows)
      · exact Int64.le_antisymm (hnewest.2 w hw.any) (hmax v hshows)
      · exact absurd hshows (hnone v)

/-- The version of a collection is the greatest of its times, and maintenance leaves it so, exactly if a greatest time beside
documents that are in segments or blobs, or about to be moved there, is one that stays in sight. -/
theorem collectionVersion_iff (crc : Bytes → UInt32) (zstd : Option Zstd) (orders : TableOrders) (s : StorageEngine)
    (hdocs : s.Stored) : s.VersionHolds crc zstd orders ↔ s.NewestShown zstd orders := by
  constructor
  · intro h
    obtain ⟨v,hv,hversion⟩ := h.newest
    exact ⟨(version_newest_iff hdocs).1 h.newest,(version_checkpoint_iff crc hdocs hv hversion).1 h.checkpoint⟩
  · intro h
    obtain ⟨v,hv,hversion⟩ := (version_newest_iff hdocs).2 h.hidden
    exact ⟨⟨v,hv,hversion⟩,(version_checkpoint_iff crc hdocs hv hversion).2 h.spill,
      fun now t ht => collectionVersion_resegmented hdocs (relocated_compact ht).index,
      fun now done t ht => collectionVersion_resegmented hdocs (relocated_tryCompactTiers ht).index⟩

/-- A checkpoint of the only document, whose time is 1. -/
theorem savedShard_version : (savedShard.collectionVersion byKeyOrders.index).toOption = some 1 ∧
    ((savedShard.checkpointInlinedData crc32 none byKeyOrders 0).2.collectionVersion byKeyOrders.index).toOption = some 0 ∧
    ((savedShard.checkpointInlinedData crc32 none byKeyOrders 0).2.index.lookup "k").bind
      ((savedShard.checkpointInlinedData crc32 none byKeyOrders 0).2.timeAt none) = some 1 := by
  decide +kernel

/-- The same document under a limit that it does not reach. -/
def keptShard : StorageEngine :=
  (fresh {spillConfig with maxInlinedMemoryBytes := 1000} "c" none 0).applyTimestamped crc32 0 [.putInlined "k" savedDoc.encode]

theorem keptShard_lookup (h : keptShard.index.lookup k = some p) : p = .inlined savedDoc.encode := by
  obtain ⟨bytes,counts,view,hset⟩ := setAll_eq ({fresh {spillConfig with maxInlinedMemoryBytes := 1000} "c" none 0 with
      nextTxId := 2
      wal := (fresh {spillConfig with maxInlinedMemoryBytes := 1000} "c" none 0).wal.appendBatchFast crc32 0 1
        [.putInlined "k" savedDoc.encode] true}) [("k",.inlined savedDoc.encode)]
  have hindex : keptShard.index = insertAll ∅ [("k",.inlined savedDoc.encode)] := congrArg StorageEngine.index hset
  rw [hindex,lookup_insertAll,lastValue,lastValue_nil] at h
  split_ifs at h
  · exact (Option.some.inj h).symm
  · cases h

theorem keptShard_version : keptShard.Stored ∧ keptShard.VersionHolds crc32 none byKeyOrders := by
  have hdocs : keptShard.Stored := by
    intro k bytes hk
    obtain rfl := Pointer.inlined.inj (keptShard_lookup hk)
    exact ⟨savedDoc,by decide +kernel⟩
  refine ⟨hdocs,(collectionVersion_iff crc32 none byKeyOrders keptShard hdocs).2 ⟨?_,?_⟩⟩
  · rintro ⟨k,p,hp,hhidden⟩
    rw [keptShard_lookup hp] at hhidden
    cases hhidden
  · intro hdue
    exact absurd hdue (by decide +kernel)

end StorageEngine

end HakoDB

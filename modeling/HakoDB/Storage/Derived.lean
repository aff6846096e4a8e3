import HakoDB.Lib.TableSum
import HakoDB.Storage.Crash
import HakoDB.Storage.Resegmented

/-! What a shard keeps beside its index: the sorted view of the live keys, the number of them and the
inlined bytes. Every way of changing the index but one brings them up to date. -/
namespace HakoDB.StorageEngine
open ByteCodec HashMap

/-- The live count and the inlined bytes are those of the index. -/
structure CountersOk (s : StorageEngine) : Prop where
  count : s.collectionCounts.lookup s.logicalName = some (tableSum (fun p => p.isLive.toNat) s.index)
  bytes : s.inlinedBytes = tableSum Pointer.inlinedLen s.index

structure DerivedOk (s : StorageEngine) : Prop where
  view : s.ViewOk
  count : s.collectionCounts.lookup s.logicalName = some s.sortedKeys.length
  bytes : s.inlinedBytes = tableSum Pointer.inlinedLen s.index

theorem ViewOk.length {s : StorageEngine} (h : s.ViewOk) :
    s.sortedKeys.length = tableSum (fun p => p.isLive.toNat) s.index :=
  length_eq_tableSum (h.sorted.imp fun hlt => ne_of_lt hlt) h.mem_iff

theorem derivedOk_iff {s : StorageEngine} : s.DerivedOk ↔ s.ViewOk ∧ s.CountersOk := by
  constructor
  · intro h
    exact ⟨h.view,h.view.length ▸ h.count,h.bytes⟩
  · rintro ⟨hview,hcount,hbytes⟩
    exact ⟨hview,hview.length ▸ hcount,hbytes⟩

section counters
variable {s : StorageEngine}

theorem weight_isLive (p : Option Pointer) : weight (fun p => p.isLive.toNat) p = (p.any Pointer.isLive).toNat := by
  cases p <;> rfl

theorem tableSum_indexAfter (f : Pointer → ℕ) (index : HMap String Pointer) (key : String) (new : Option Pointer) :
    tableSum f (indexAfter index (key,new))+weight f (index.lookup key) = tableSum f index+weight f new := by
  have hsum := tableSum_update f (m := index) (a := key)
    fun k hk => (lookup_indexAfter index (key,new) k).trans (if_neg hk)
  rwa [lookup_indexAfter,if_pos rfl] at hsum

theorem CountersOk.applyPointer (h : s.CountersOk) (key : String) (new : Option Pointer) :
    (s.applyPointer key new).CountersOk := by
  have hcount := tableSum_indexAfter (fun p => p.isLive.toNat) s.index key new
  have hbytes := tableSum_indexAfter Pointer.inlinedLen s.index key new
  have hle := weight_le_tableSum (fun p => p.isLive.toNat) s.index key
  rw [weight_isLive] at hle
  rw [weight_isLive,weight_isLive] at hcount
  constructor
  · rw [applyPointer_index]
    change (s.countTransition ((s.index.lookup key).any Pointer.isLive) (new.any Pointer.isLive)).lookup s.logicalName = _
    have hold := h.count
    unfold countTransition
    cases hlive : (s.index.lookup key).any Pointer.isLive <;> cases hnew : new.any Pointer.isLive
    all_goals
      rw [hlive,hnew] at hcount
      simp only [hold,lookup_insert_ite,Bool.toNat_true,Bool.toNat_false,Bool.not_true,Bool.not_false,Bool.and_true,
        Bool.and_false,Bool.false_eq_true,if_true,if_false,Option.getD_some,Option.some.injEq] at hcount ⊢
      omega
  · rw [applyPointer_index]
    change s.inlinedBytes+weight Pointer.inlinedLen new-weight Pointer.inlinedLen (s.index.lookup key) = _
    rw [h.bytes]
    omega

theorem CountersOk.foldl (h : s.CountersOk) (updates : List (String × Option Pointer)) (pending : List String) :
    (updates.foldl (fun acc u => acc.1.updateIndexEntryDeferred u.1 u.2 acc.2) (s,pending)).1.CountersOk := by
  induction updates generalizing s pending with
  | nil => exact h
  | cons u updates ih => exact ih (h.applyPointer u.1 u.2) _

theorem CountersOk.flushPendingSorted (h : s.CountersOk) (pending : List String) :
    (s.flushPendingSorted pending).CountersOk := by
  unfold StorageEngine.flushPendingSorted
  split
  · exact h
  · exact ⟨h.count,h.bytes⟩

end counters

namespace DerivedOk
variable {s t : StorageEngine}

theorem updateIndexEntry (h : s.DerivedOk) (key : String) (new : Option Pointer) :
    (s.updateIndexEntry key new).DerivedOk := by
  have hcounters := (derivedOk_iff.1 h).2.applyPointer key new
  exact derivedOk_iff.2 ⟨h.view.updateIndexEntry key new,hcounters.count,hcounters.bytes⟩

theorem updateAll (h : s.DerivedOk) (updates : List (String × Option Pointer)) : (s.updateAll updates).DerivedOk :=
  derivedOk_iff.2 ⟨h.view.updateAll updates,((derivedOk_iff.1 h).2.foldl updates []).flushPendingSorted _⟩

theorem foldl_updateIndexEntry (h : s.DerivedOk) (es : List (String × Pointer)) :
    (es.foldl (fun s e => s.updateIndexEntry e.1 (some e.2)) s).DerivedOk := by
  induction es generalizing s with
  | nil => exact h
  | cons e es ih => exact ih (h.updateIndexEntry e.1 (some e.2))

/-- The index may be exchanged for one with the same live keys and inlined bytes. -/
theorem relink (h : s.DerivedOk) (hview : t.sortedKeys = s.sortedKeys) (hname : t.logicalName = s.logicalName)
    (hcounts : t.collectionCounts = s.collectionCounts) (hbytes : t.inlinedBytes = s.inlinedBytes)
    (hlive : ∀ k,t.isLive k = s.isLive k)
    (hlen : ∀ k,weight Pointer.inlinedLen (t.index.lookup k) = weight Pointer.inlinedLen (s.index.lookup k)) :
    t.DerivedOk := by
  refine ⟨⟨hview ▸ h.view.sorted,fun k => ?_⟩,?_,?_⟩
  · rw [hview,hlive]
    exact h.view.mem_iff k
  · rw [hcounts,hname,hview]
    exact h.count
  · rw [hbytes,tableSum_congr hlen]
    exact h.bytes

theorem frame (h : s.DerivedOk) (hindex : t.index = s.index) (hview : t.sortedKeys = s.sortedKeys)
    (hname : t.logicalName = s.logicalName) (hcounts : t.collectionCounts = s.collectionCounts)
    (hbytes : t.inlinedBytes = s.inlinedBytes) : t.DerivedOk :=
  h.relink hview hname hcounts hbytes (fun k => by simp [isLive,hindex]) fun k => by rw [hindex]

/-- Entries that point into segments may point into others. -/
theorem resegment (h : s.DerivedOk) (hmoved : Relocated s t) : t.DerivedOk := by
  refine h.relink hmoved.sortedKeys hmoved.logicalName hmoved.collectionCounts hmoved.inlinedBytes (fun k => ?_) fun k => ?_
  · rcases hmoved.index k with heq | ⟨_,_,_,_,_,_,hold,hnew⟩
    · simp [isLive,heq]
    · simp [isLive,hold,hnew,Pointer.isLive]
  · rcases hmoved.index k with heq | ⟨_,_,_,_,_,_,hold,hnew⟩
    · rw [heq]
    · simp [hold,hnew,Pointer.inlinedLen]

theorem rewriteWalSnapshot (h : s.DerivedOk) (crc : Bytes → UInt32) (orders : TableOrders) (now : ℕ) :
    (s.rewriteWalSnapshot crc orders now).DerivedOk := h.frame rfl rfl rfl rfl rfl

theorem rotate (h : s.DerivedOk) : s.rotate.DerivedOk := h.frame rfl rfl rfl rfl rfl

theorem maybeRotateActiveSegment (h : s.DerivedOk) (hok : s.maybeRotateActiveSegment = .ok t) : t.DerivedOk := by
  unfold StorageEngine.maybeRotateActiveSegment at hok
  split at hok
  · cases hok
  · obtain rfl := Except.ok.inj hok
    split
    · exact h
    · exact h.rotate

variable {crc : Bytes → UInt32} {now : ℕ} {zstd : Option Zstd} {orders : TableOrders}

theorem applyBatch (h : s.DerivedOk) {mutations : List StorageMutation} {instant : ℕ} {now : Int64} {isRemote : Bool}
    {work : List BlobWork} (hok : s.applyBatch crc instant now mutations isRemote = .ok (work,t)) : t.DerivedOk := by
  unfold StorageEngine.applyBatch at hok
  split at hok
  · obtain ⟨rfl,rfl⟩ := Prod.mk.inj (Except.ok.inj hok)
    exact h
  obtain ⟨s1,hs1,hrest⟩ := bind_eq_ok.1 hok
  have hbumped : ({s with nextTxId := s.nextTxId+1} : StorageEngine).DerivedOk := h.frame rfl rfl rfl rfl rfl
  have hrotated := hbumped.maybeRotateActiveSegment hs1
  dsimp only at hrest
  cases hactive : s1.segments.lookup s1.activeSegmentId with
  | none => simp [hactive] at hrest
  | some m =>
    simp only [hactive] at hrest
    obtain ⟨-,rfl⟩ := Prod.mk.inj (Except.ok.inj hrest)
    refine updateAll ?_ _
    exact hrotated.frame rfl rfl rfl rfl rfl

theorem swapPending (h : s.DerivedOk) (key : String) (skeleton : Bytes) (timestamp : Int64) :
    (s.swapPending key skeleton timestamp).DerivedOk := by
  unfold StorageEngine.swapPending
  split
  · split
    · exact h.updateIndexEntry key _
    · exact h
  · exact h

theorem writeBlob (h : s.DerivedOk) (w : BlobWork) : (s.writeBlob w).DerivedOk := by
  cases w <;> exact h.frame rfl rfl rfl rfl rfl

theorem drainOne (h : s.DerivedOk) (w : BlobWork) : (s.drainOne w).DerivedOk := by
  cases w with
  | putRaw collection key skeleton offset data timestamp len =>
    unfold StorageEngine.drainOne
    dsimp only
    split
    · exact (h.writeBlob _).swapPending key skeleton timestamp
    · exact h.writeBlob _
  | put collection key data => exact h

theorem applyBlobMeta (h : s.DerivedOk) (w : BlobWork) : (s.applyBlobMeta w).DerivedOk := by
  cases w with
  | putRaw collection key skeleton offset data timestamp len =>
    have hcount : ({s with totalPendingBlobBytes := s.totalPendingBlobBytes-len.toNat} : StorageEngine).DerivedOk :=
      h.frame rfl rfl rfl rfl rfl
    exact hcount.swapPending key skeleton timestamp
  | put collection key data => exact h

theorem foldl_items {f : StorageEngine → BlobWork → StorageEngine} (hf : ∀ s w,s.DerivedOk → (f s w).DerivedOk)
    (items : List BlobWork) (h : s.DerivedOk) : (items.foldl f s).DerivedOk := by
  induction items generalizing s with
  | nil => exact h
  | cons w items ih => exact ih (hf s w h)

theorem drainBlobQueue (h : s.DerivedOk) : s.drainBlobQueue.DerivedOk := by
  unfold StorageEngine.drainBlobQueue
  split
  · exact h
  · exact foldl_items (fun _ w hs => hs.drainOne w) _ (h.frame rfl rfl rfl rfl rfl)

theorem flushBlobs (h : s.DerivedOk) : s.flushBlobs.DerivedOk := by
  unfold StorageEngine.flushBlobs
  split
  · exact h
  · have hwritten := foldl_items (fun _ w hs => hs.writeBlob w) (s.blobFlushQueue.take 128)
      (s := {s with blobFlushQueue := s.blobFlushQueue.drop 128}) (h.frame rfl rfl rfl rfl rfl)
    exact foldl_items (fun _ w hs => hs.applyBlobMeta w) _ hwritten

theorem checkpointInlinedData (h : s.DerivedOk) (crc : Bytes → UInt32) (zstd : Option Zstd) (orders : TableOrders)
    (now : ℕ) : (s.checkpointInlinedData crc zstd orders now).2.DerivedOk := by
  unfold StorageEngine.checkpointInlinedData
  split
  · have hmoved := foldl_updateIndexEntry (s := {s with nextSegmentId := s.nextSegmentId+1})
      (h.frame rfl rfl rfl rfl rfl) (orders.index.entries (s.spill zstd orders).1)
    exact hmoved.frame rfl rfl rfl rfl rfl
  · exact h

theorem compact (h : s.DerivedOk) (hok : s.compact crc zstd orders now = .ok t) : t.DerivedOk :=
  h.resegment (relocated_compact hok)

theorem tierCommit (h : s.DerivedOk) (crc : Bytes → UInt32) (zstd : Option Zstd) (orders : TableOrders) (now : ℕ)
    (prep : TierPrep) (seg : Segment) (entries : List (String × Bytes)) (useCompression : Bool) (target : Segment) :
    (s.tierCommit crc orders now prep
      (Segment.compactSegment zstd seg entries prep.targetId useCompression).1 target).2.DerivedOk :=
  h.resegment (relocated_tierCommit crc zstd orders now s prep seg entries useCompression target)

theorem tryCompactTiers (h : s.DerivedOk) {done : Bool} (hok : s.tryCompactTiers crc zstd orders now = .ok (done,t)) :
    t.DerivedOk := h.resegment (relocated_tryCompactTiers hok)

theorem weight_of_dead {p : Option Pointer} (h : p.any Pointer.isLive = false) :
    weight Pointer.inlinedLen p = 0 := by
  rcases p with _ | p
  · rfl
  · cases p <;> simp_all [Pointer.isLive,Pointer.inlinedLen]

/-- Entries without a live document can be dropped from the index. -/
theorem eraseDead (h : s.DerivedOk) {keys : List String} (hdead : ∀ k ∈ keys,s.isLive k = false)
    (hindex : t.index = eraseAll s.index keys) (hview : t.sortedKeys = s.sortedKeys)
    (hname : t.logicalName = s.logicalName) (hcounts : t.collectionCounts = s.collectionCounts)
    (hbytes : t.inlinedBytes = s.inlinedBytes) : t.DerivedOk := by
  refine h.relink hview hname hcounts hbytes (fun k => ?_) fun k => ?_
  · rw [isLive,hindex,lookup_eraseAll]
    split
    · exact (hdead k ‹_›).symm
    · rfl
  · rw [hindex,lookup_eraseAll]
    split
    · exact (weight_of_dead (hdead k ‹_›)).symm
    · rfl

theorem purgeOldTombstones (h : s.DerivedOk) (orders : TableOrders) (now maxAge : Int64) :
    (s.purgeOldTombstones orders now maxAge).DerivedOk := by
  refine h.eraseDead (fun k hk => ?_) rfl rfl rfl rfl rfl
  obtain ⟨e,he,rfl⟩ := List.mem_map.1 hk
  have hlookup := StorageEngine.mem_tombstones (List.mem_filter.1 he).1
  simp [isLive,hlookup,Pointer.isLive]

/-- The durable removal leaves the view and the counters as they are, so it may only be handed keys
without a live document. -/
theorem hardDeleteKeys_iff (h : s.DerivedOk) (crc : Bytes → UInt32) (instant : ℕ) (now : Int64) (keys : List String) :
    (s.hardDeleteKeys crc instant now keys).DerivedOk ↔ ∀ k ∈ keys,s.isLive k = false := by
  unfold StorageEngine.hardDeleteKeys
  split
  · rename_i hnil
    simp [hnil,h]
  · constructor
    · intro hafter k hk
      by_contra hlive
      have hview := (h.view.mem_iff k).2 (by simpa using hlive)
      have hgone := (hafter.view.mem_iff k).1 hview
      rw [isLive,lookup_eraseAll,if_pos hk] at hgone
      cases hgone
    · intro hdead
      exact h.eraseDead hdead rfl rfl rfl rfl rfl

end DerivedOk

/-- The operations that change a shard's index. A batch that the engine or the sync brings is a loop of
updates; a merge of segments takes effect in its last phase, with documents read some time before. -/
inductive IndexOp
  | updateIndexEntry (key : String) (new : Option Pointer)
  | updateAll (updates : List (String × Option Pointer))
  | applyBatch (instant : ℕ) (now : Int64) (mutations : List StorageMutation) (isRemote : Bool)
  | applyReplicatedOps (instant : ℕ) (ops : List WalOp)
  | drainBlobQueue
  | flushBlobs
  | checkpointInlinedData (now : ℕ)
  | compact (now : ℕ)
  | tryCompactTiers (now : ℕ)
  | tierCommit (now : ℕ) (prep : TierPrep) (seg : Segment) (entries : List (String × Bytes))
      (useCompression : Bool) (target : Segment)
  | purgeTombstones
  | purgeOldTombstones (now maxAge : Int64)
  | hardDeleteKeys (instant : ℕ) (now : Int64) (keys : List String)

section ops
variable (crc : Bytes → UInt32) (zstd : Option Zstd) (orders : TableOrders)

def applyOp (s : StorageEngine) : IndexOp → Res StorageEngine
  | .updateIndexEntry key new => .ok (s.updateIndexEntry key new)
  | .updateAll updates => .ok (s.updateAll updates)
  | .applyBatch instant now mutations isRemote => (s.applyBatch crc instant now mutations isRemote).map Prod.snd
  | .applyReplicatedOps instant ops => .ok (s.applyReplicatedOps crc instant ops)
  | .drainBlobQueue => .ok s.drainBlobQueue
  | .flushBlobs => .ok s.flushBlobs
  | .checkpointInlinedData now => .ok (s.checkpointInlinedData crc zstd orders now).2
  | .compact now => s.compact crc zstd orders now
  | .tryCompactTiers now => (s.tryCompactTiers crc zstd orders now).map Prod.snd
  | .tierCommit now prep seg entries useCompression target => .ok (s.tierCommit crc orders now prep
      (Segment.compactSegment zstd seg entries prep.targetId useCompression).1 target).2
  | .purgeTombstones => .ok (s.purgeTombstones orders)
  | .purgeOldTombstones now maxAge => .ok (s.purgeOldTombstones orders now maxAge)
  | .hardDeleteKeys instant now keys => .ok (s.hardDeleteKeys crc instant now keys)

def applyOps (s : StorageEngine) (ops : List IndexOp) : Res StorageEngine := ops.foldlM (applyOp crc zstd orders) s

/-- A durable removal is handed keys without a live document only. -/
def OpOk (s : StorageEngine) : IndexOp → Prop
  | .hardDeleteKeys _ _ keys => ∀ k ∈ keys,s.isLive k = false
  | _ => True

end ops

section run
variable {crc : Bytes → UInt32} {zstd : Option Zstd} {orders : TableOrders} {s t : StorageEngine}

theorem map_eq_ok {α β : Type} {x : Res α} {f : α → β} {b : β} (h : x.map f = .ok b) : ∃ a,x = .ok a ∧ f a = b := by
  cases x with
  | error e => cases h
  | ok a => exact ⟨a,rfl,Except.ok.inj h⟩

theorem DerivedOk.applyOp_iff (h : s.DerivedOk) {op : IndexOp} (hok : s.applyOp crc zstd orders op = .ok t) :
    t.DerivedOk ↔ s.OpOk op := by
  cases op with
  | hardDeleteKeys instant now keys =>
    obtain rfl := Except.ok.inj hok
    exact h.hardDeleteKeys_iff crc instant now keys
  | updateIndexEntry key new =>
    obtain rfl := Except.ok.inj hok
    exact iff_of_true (h.updateIndexEntry key new) trivial
  | updateAll updates =>
    obtain rfl := Except.ok.inj hok
    exact iff_of_true (h.updateAll updates) trivial
  | applyBatch instant now mutations isRemote =>
    obtain ⟨⟨work,t'⟩,hbatch,rfl⟩ := map_eq_ok hok
    exact iff_of_true (h.applyBatch hbatch) trivial
  | applyReplicatedOps instant ops =>
    obtain rfl := Except.ok.inj hok
    have hlogged : ({s with wal := s.wal.appendBatch crc instant ops true} : StorageEngine).DerivedOk :=
      h.frame rfl rfl rfl rfl rfl
    exact iff_of_true (hlogged.updateAll _) trivial
  | drainBlobQueue =>
    obtain rfl := Except.ok.inj hok
    exact iff_of_true h.drainBlobQueue trivial
  | flushBlobs =>
    obtain rfl := Except.ok.inj hok
    exact iff_of_true h.flushBlobs trivial
  | checkpointInlinedData now =>
    obtain rfl := Except.ok.inj hok
    exact iff_of_true (h.checkpointInlinedData crc zstd orders now) trivial
  | compact now => exact iff_of_true (h.compact hok) trivial
  | tryCompactTiers now =>
    obtain ⟨⟨done,t'⟩,htiers,rfl⟩ := map_eq_ok hok
    exact iff_of_true (h.tryCompactTiers htiers) trivial
  | tierCommit now prep seg entries useCompression target =>
    obtain rfl := Except.ok.inj hok
    exact iff_of_true (h.tierCommit crc zstd orders now prep seg entries useCompression target) trivial
  | purgeTombstones =>
    obtain rfl := Except.ok.inj hok
    exact iff_of_true (h.updateAll _) trivial
  | purgeOldTombstones now maxAge =>
    obtain rfl := Except.ok.inj hok
    exact iff_of_true (h.purgeOldTombstones orders now maxAge) trivial

theorem bytes_foldl_replayOp (ops : List WalOp) (h : s.inlinedBytes = tableSum Pointer.inlinedLen s.index) :
    (ops.foldl replayOp s).inlinedBytes = tableSum Pointer.inlinedLen (ops.foldl replayOp s).index := by
  induction ops generalizing s with
  | nil => exact h
  | cons op ops ih =>
    refine ih ?_
    unfold replayOp
    split
    · rename_i key p hop
      have hsum := tableSum_indexAfter Pointer.inlinedLen s.index key (some p)
      change s.inlinedBytes+p.inlinedLen-weight Pointer.inlinedLen (s.index.lookup key) =
        tableSum Pointer.inlinedLen (s.index.insert key p)
      simp only [indexAfter,weight_some] at hsum
      omega
    · exact h

/-- A shard is opened with everything beside its index rebuilt, whatever its log says. -/
theorem derivedOk_openRecovered {a : OpenArgs} {f : ShardFiles} {now : ℕ}
    (hopen : (f.unrecovered a).openRecovered crc orders now = .ok s) : s.DerivedOk := by
  obtain ⟨⟨c,t⟩,hrecover,hrest⟩ := bind_eq_ok.1 hopen
  obtain rfl := Except.ok.inj hrest
  have ht : t.DerivedOk := by
    obtain ⟨⟨ops,w⟩,-,hbuilt⟩ := bind_eq_ok.1 hrecover
    obtain ⟨-,rfl⟩ := Prod.mk.inj (Except.ok.inj hbuilt)
    have hbytes := bytes_foldl_replayOp ops (s := {f.unrecovered a with wal := w}) rfl
    refine ⟨⟨(pairwise_sortedKeys _).filter _,fun k => ?_⟩,by simp,hbytes⟩
    generalize ops.foldl replayOp {f.unrecovered a with wal := w} = r
    change k ∈ (HashMap.sortedKeys r.index).filter r.isLive ↔ r.isLive k = true
    rw [List.mem_filter,mem_sortedKeys,and_iff_right_iff_imp]
    intro hlive
    cases hk : r.index.lookup k with
    | none => simp [isLive,hk] at hlive
    | some p => rfl
  split
  · exact (ht.rewriteWalSnapshot crc orders now).frame rfl rfl rfl rfl rfl
  · exact ht

theorem applyOps_snoc {front : List IndexOp} {op : IndexOp} :
    s.applyOps crc zstd orders (front++[op]) = .ok t ↔
      ∃ u,s.applyOps crc zstd orders front = .ok u ∧ u.applyOp crc zstd orders op = .ok t := by
  unfold applyOps
  rw [List.foldlM_append,bind_eq_ok]
  simp

/-- The front of a sequence that comes to its end comes to its end. -/
theorem applyOps_front {front ops : List IndexOp} (hfront : front <+: ops)
    (hok : s.applyOps crc zstd orders ops = .ok t) : ∃ u,s.applyOps crc zstd orders front = .ok u := by
  obtain ⟨rest,rfl⟩ := hfront
  unfold applyOps at hok ⊢
  rw [List.foldlM_append] at hok
  obtain ⟨u,hu,-⟩ := bind_eq_ok.1 hok
  exact ⟨u,hu⟩

/-- After an opening, the view and the counters fit the index along the whole sequence of operations
exactly when no durable removal of it is handed the key of a live document. -/
theorem applyOps_derivedOk_iff {a : OpenArgs} {f : ShardFiles} {now : ℕ}
    (hopen : (f.unrecovered a).openRecovered crc orders now = .ok s) {ops : List IndexOp}
    (hok : s.applyOps crc zstd orders ops = .ok t) :
    (∀ front,front <+: ops → ∀ u,s.applyOps crc zstd orders front = .ok u → u.DerivedOk) ↔
    ∀ front op,front++[op] <+: ops → ∀ u,s.applyOps crc zstd orders front = .ok u → u.OpOk op := by
  constructor
  · intro hall front op hfront u hu
    obtain ⟨v,hv⟩ := applyOps_front hfront hok
    obtain ⟨u',hu',hstep⟩ := applyOps_snoc.1 hv
    obtain rfl := Except.ok.inj (hu'.symm.trans hu)
    have hbefore := hall front ((List.prefix_append front [op]).trans hfront) u' hu
    exact (hbefore.applyOp_iff hstep).1 (hall (front++[op]) hfront v hv)
  · intro hsteps front
    induction front using List.reverseRecOn with
    | nil =>
      intro _ u hu
      obtain rfl := Except.ok.inj hu
      exact derivedOk_openRecovered hopen
    | append_singleton front op ih =>
      intro hfront u hu
      obtain ⟨v,hv,hstep⟩ := applyOps_snoc.1 hu
      have hbefore := ih ((List.prefix_append front [op]).trans hfront) v hv
      exact (hbefore.applyOp_iff hstep).2 (hsteps front op hfront v hv)

end run

/-- A new shard, as it is opened from an empty directory. -/
def newShard : StorageEngine := fresh spillConfig "c" none 0

def putBatch : IndexOp := .applyBatch 0 5 [.put "k" [1,2,3]] false

def deleteBatch : IndexOp := .applyBatch 0 6 [.delete "k"] false

def removal : IndexOp := .hardDeleteKeys 0 7 ["k"]

theorem applyOps_derivedOk_iff_deletedFirst : ∃ t,
    newShard.applyOps crc32 none byKeyOrders [putBatch,deleteBatch,removal] = .ok t ∧
    (∀ front op,front++[op] <+: [putBatch,deleteBatch,removal] → ∀ u,
      newShard.applyOps crc32 none byKeyOrders front = .ok u → u.OpOk op) ∧
    ∀ front,front <+: [putBatch,deleteBatch,removal] → ∀ u,
      newShard.applyOps crc32 none byKeyOrders front = .ok u → u.DerivedOk := by
  obtain ⟨t,hok⟩ : ∃ t,newShard.applyOps crc32 none byKeyOrders [putBatch,deleteBatch,removal] = .ok t := ⟨_,rfl⟩
  have hsteps : ∀ front op,front++[op] <+: [putBatch,deleteBatch,removal] → ∀ u,
      newShard.applyOps crc32 none byKeyOrders front = .ok u → u.OpOk op := by
    rintro front op ⟨rest,hrest⟩ u hu
    rcases front with _ | ⟨x,_ | ⟨y,_ | ⟨z,front⟩⟩⟩ <;> simp at hrest
    · obtain ⟨rfl,-⟩ := hrest
      trivial
    · obtain ⟨-,rfl,-⟩ := hrest
      trivial
    · obtain ⟨rfl,rfl,rfl,-⟩ := hrest
      have hdead : (newShard.applyOps crc32 none byKeyOrders [putBatch,deleteBatch]).toOption.map
          (fun u => u.isLive "k") = some false := by decide
      rw [hu] at hdead
      intro k hk
      rw [List.mem_singleton.1 hk]
      exact Option.some.inj hdead
  exact ⟨t,hok,hsteps,(applyOps_derivedOk_iff (emptyFiles_openRecovered "c") hok).2 hsteps⟩

/-- A document that is removed while it is live stays in the view and in the counters. -/
theorem removal_keepsView : ∃ t,newShard.applyOps crc32 none byKeyOrders [putBatch,removal] = .ok t ∧
    t.index.lookup "k" = none ∧ t.sortedKeys = ["k"] ∧ t.collectionCounts.lookup "c" = some 1 ∧
    t.inlinedBytes = 3 ∧ ¬t.DerivedOk := by
  refine ⟨_,rfl,by decide,by decide,by decide,by decide,fun h => ?_⟩
  exact absurd ((h.view.mem_iff "k").1 (by decide)) (by decide)

end HakoDB.StorageEngine

import HakoDB.Engine.Sequential

/-! A batch while it is being prepared. Shards may be opened and room in their blob files taken, but no
document and no version changes, and the work of every collection names the ids of its records. -/
namespace HakoDB
open ByteCodec HashMap

/-- The ids of the work cover its records, and an id that counts as deleted has a delete record. -/
structure ShardWork.Keyed (w : ShardWork) : Prop where
  puts : ∀ put ∈ w.indexPuts,put.1 ∈ w.keys
  deletes : ∀ key timestamp,WalOp.delete key timestamp ∈ w.ops → key ∈ w.keys
  deleted : ∀ key ∈ w.deleted,∃ timestamp,WalOp.delete key timestamp ∈ w.ops

namespace ShardWork.Keyed
variable {w w' : ShardWork}

theorem empty : ShardWork.empty.Keyed := by
  constructor <;> simp [ShardWork.empty]

theorem put (hw : w.Keyed) {docId : String} {doc : HakoDoc} {value : Bytes}
    (hops : w'.ops = w.ops++[.putInlined docId value]) (hputs : w'.indexPuts = w.indexPuts++[(docId,doc)])
    (hkeys : w'.keys = w.keys++[docId]) (hdeleted : w'.deleted = w.deleted.erase docId) : w'.Keyed := by
  constructor
  · intro p hp
    rw [hputs,List.mem_append] at hp
    rw [hkeys,List.mem_append]
    rcases hp with hp | hp
    · exact .inl (hw.puts p hp)
    · exact .inr (by simp [List.mem_singleton.1 hp])
  · intro key timestamp hmem
    rw [hops] at hmem
    rw [hkeys,List.mem_append]
    exact .inl (hw.deletes key timestamp (by simpa using hmem))
  · intro key hkey
    rw [hdeleted] at hkey
    obtain ⟨timestamp,hmem⟩ := hw.deleted key (List.mem_of_mem_erase hkey)
    exact ⟨timestamp,by rw [hops]; exact List.mem_append_left _ hmem⟩

theorem delete (hw : w.Keyed) (docId : String) (now : Int64) :
    ShardWork.Keyed {w with
      ops := w.ops++[.delete docId now]
      keys := w.keys++[docId]
      deleted := if docId ∈ w.deleted then w.deleted else docId::w.deleted} := by
  constructor
  · intro p hp
    exact List.mem_append_left _ (hw.puts p hp)
  · intro key timestamp hmem
    rcases List.mem_append.1 hmem with hmem | hmem
    · exact List.mem_append_left _ (hw.deletes key timestamp hmem)
    · simp_all
  · intro key hkey
    have hcases : key = docId ∨ key ∈ w.deleted := by
      dsimp only at hkey
      split at hkey
      · exact .inr hkey
      · exact List.mem_cons.1 hkey
    rcases hcases with rfl | hkey
    · exact ⟨now,by simp⟩
    · obtain ⟨timestamp,hmem⟩ := hw.deleted key hkey
      exact ⟨timestamp,List.mem_append_left _ hmem⟩

end ShardWork.Keyed

namespace Hako
variable {Ledger : Type}

/-- The document that a read of the id gives. -/
def document (zstd : Option Zstd) (h : Hako Ledger) (col docId : String) : Option HakoDoc :=
  (h.liveBytes zstd col docId).bind HakoDoc.decode

def currentVersion (h : Hako Ledger) (key : String) : Option ℕ := h.docVersions.lookup key

/-- Shards may have been opened and room in their blob files taken; no document and no version changed. -/
structure Reserves (zstd : Option Zstd) (h h' : Hako Ledger) : Prop where
  openShard : h'.openShard = h.openShard
  docVersions : h'.docVersions = h.docVersions
  globalVersion : h'.globalVersion = h.globalVersion
  live : ∀ col k,h'.liveBytes zstd col k = h.liveBytes zstd col k

namespace Reserves
variable {zstd : Option Zstd} {h h1 h2 : Hako Ledger}

theorem refl (h : Hako Ledger) : Reserves zstd h h := ⟨rfl,rfl,rfl,fun _ _ => rfl⟩

theorem trans (ha : Reserves zstd h h1) (hb : Reserves zstd h1 h2) : Reserves zstd h h2 :=
  ⟨hb.openShard.trans ha.openShard,hb.docVersions.trans ha.docVersions,hb.globalVersion.trans ha.globalVersion,
    fun col k => (hb.live col k).trans (ha.live col k)⟩

variable {col : String} {s : StorageEngine}

theorem withShard {t : StorageEngine} (hs : h.shardOf col = some s)
    (hlive : ∀ k,t.liveBytes zstd k = s.liveBytes zstd k) : Reserves zstd h (h.withShard col t) := by
  refine ⟨rfl,rfl,rfl,fun c k => ?_⟩
  unfold Hako.liveBytes
  rw [shardOf_withShard]
  by_cases hc : c = col
  · rw [if_pos hc,hc,hs]
    exact hlive k
  · rw [if_neg hc]

theorem getShard (hget : h.getShard col = .ok (s,h1)) :
    Reserves zstd h h1 := by
  obtain ⟨hs,rfl⟩ := getShard_ok hget
  exact withShard hs fun _ => rfl

theorem extractBlobs (hs : h.shardOf col = some s) (key : String) (doc : HakoDoc) :
    Reserves zstd h (Prep.extractBlobs h s col key doc).1 := by
  unfold Prep.extractBlobs
  cases hbm : s.blobManager with
  | none => exact refl h
  | some bm => exact withShard hs (StorageEngine.liveBytes_reserve hbm rfl)

theorem resolveDoc {env : Env Ledger} {m : BatchMutation} {doc : HakoDoc}
    (hres : h.resolveDoc env m = .ok (h1,doc)) : Reserves zstd h h1 := by
  rcases resolveDoc_cases hres with rfl | ⟨_,_,hget⟩
  · exact refl _
  · exact getShard hget

theorem assignId (h : Hako Ledger) (nanos : Int64) (docId : String) :
    Reserves zstd h (h.assignId nanos docId).2 := by
  obtain ⟨seq,hseq⟩ := h.assignId_eq nanos docId
  rw [hseq]
  exact ⟨rfl,rfl,rfl,fun _ _ => rfl⟩

theorem markTouched (h : Hako Ledger) (col : String) (w : ShardWork) : Reserves zstd h (h.markTouched col w) := by
  unfold Hako.markTouched
  split <;> exact ⟨rfl,rfl,rfl,fun _ _ => rfl⟩

theorem document (hr : Reserves zstd h h1) (col k : String) : h1.document zstd col k = h.document zstd col k := by
  unfold Hako.document
  rw [hr.live]

end Reserves

/-- Every collection's work of a batch that is being prepared is in order. -/
def WorksKeyed (works : HMap String ShardWork) : Prop := ∀ col w,works.lookup col = some w → w.Keyed

namespace WorksKeyed
variable {p : Prep Ledger}

theorem work (hp : WorksKeyed p.works) (col : String) : (p.work col).Keyed := by
  unfold Prep.work
  cases hw : p.works.lookup col with
  | none => exact .empty
  | some w => exact hp col w hw

theorem setWork (hp : WorksKeyed p.works) (col : String) {w : ShardWork} (hw : w.Keyed) :
    WorksKeyed (p.setWork col w).works := by
  intro c v hv
  unfold Prep.setWork at hv
  rw [lookup_insert_ite] at hv
  split at hv
  · exact Option.some.inj hv ▸ hw
  · exact hp c v hv

end WorksKeyed

/-- A batch with more of its mutations prepared. -/
structure Prepares (zstd : Option Zstd) (p p' : Prep Ledger) : Prop where
  works : WorksKeyed p.works → WorksKeyed p'.works
  reserves : Reserves zstd p.hako p'.hako

namespace Prepares
variable {zstd : Option Zstd} {p p1 p2 : Prep Ledger}

theorem trans (ha : Prepares zstd p p1) (hb : Prepares zstd p1 p2) : Prepares zstd p p2 :=
  ⟨fun hp => hb.works (ha.works hp),ha.reserves.trans hb.reserves⟩

theorem pushDelete (p : Prep Ledger) (gate : UniqueGate Ledger) (now : Int64) (col docId : String) :
    Prepares zstd p (p.pushDelete gate now col docId) :=
  ⟨fun hp => hp.setWork col ((hp.work col).delete docId now),rfl,rfl,rfl,fun _ _ => rfl⟩

theorem pushRecord (p : Prep Ledger) (now : Int64) (col docId : String) :
    Prepares zstd p (p.pushRecord zstd now col docId) := by
  unfold Prep.pushRecord
  split
  · exact ⟨id,.refl _⟩
  · exact ⟨fun hp => hp.setWork softdelCollection ((hp.work _).put rfl rfl rfl rfl),.refl _⟩

theorem pushPut {gate : UniqueGate Ledger} {now : Int64} {col docId : String} {doc : HakoDoc}
    (hpush : p.pushPut gate now col docId doc = .ok p1) : Prepares zstd p p1 := by
  unfold Prep.pushPut at hpush
  obtain ⟨⟨s,h1⟩,hget,hrest⟩ := bind_eq_ok.1 hpush
  have hs : h1.shardOf col = some s := by
    obtain ⟨-,rfl⟩ := getShard_ok hget
    rw [shardOf_withShard,if_pos rfl]
  have hreserve : Reserves zstd p.hako (Prep.extractBlobs h1 s col docId {doc with time := now}).1 :=
    (Reserves.getShard hget).trans (Reserves.extractBlobs hs docId _)
  simp only at hrest
  split at hrest
  · cases hrest
  · obtain rfl := Except.ok.inj hrest
    refine ⟨fun hp => hp.setWork col ((hp.work col).put rfl rfl rfl rfl),?_⟩
    exact ⟨hreserve.openShard,hreserve.docVersions,hreserve.globalVersion,hreserve.live⟩

/-- Preparing a mutation changes no document. -/
theorem prepareOne {env : Env Ledger} {nanos now : Int64} {m : BatchMutation}
    (hprep : Hako.prepareOne env nanos now p m = .ok p1) : Prepares env.zstd p p1 := by
  obtain ⟨h,doc,docId,q,hres,-,hq,hrest⟩ := prepareOne_cases hprep
  have hassigned : Prepares env.zstd p q := by
    rw [hq]
    exact ⟨id,(Reserves.resolveDoc hres).trans (Reserves.assignId h nanos m.docId)⟩
  rcases hrest with rfl | ⟨-,rfl⟩ | ⟨doc',hpush⟩
  · exact hassigned.trans (pushDelete _ env.gate now _ _)
  · exact (hassigned.trans (pushRecord _ now _ _)).trans (pushDelete _ env.gate now _ _)
  · exact hassigned.trans (pushPut hpush)

end Prepares

end Hako

end HakoDB

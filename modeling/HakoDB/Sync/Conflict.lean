import HakoDB.Document.Accepted
import HakoDB.Engine.Sequential
import HakoDB.Lib.LastWriter
import HakoDB.Sync.Replicated

/-! What one replicated batch leaves on a shard. Of the operations on a key that are newer than its entry
the last one decides; if it is a delete, the tombstone carries the timestamp of the first such delete. -/
namespace HakoDB
open ByteCodec HashMap LastWriter

/-- What a key shows: the entry it had at the start, a replicated document or a tombstone. -/
inductive Held
  | kept (p : Pointer)
  | doc (d : HakoDoc)
  | tombstone

def Held.isTombstone : Held → Bool
  | tombstone => true
  | _ => false

/-- A replicated operation with its key and timestamp; what does not decode is no operation. -/
def remoteOp : WalOp → Option (String × ℤ × Held)
  | .putInlined key value => (HakoDoc.decode value).map fun d => (key,d.getLogicalTime.toInt,.doc d)
  | .delete key timestamp => some (key,timestamp.toInt,.tombstone)
  | _ => none

def onKey (key : String) (xs : List (String × ℤ × Held)) : List (ℤ × Held) :=
  (xs.filter fun x => x.1 = key).map Prod.snd

def remoteOps (key : String) (ops : List WalOp) : List (ℤ × Held) := onKey key (ops.filterMap remoteOp)

/-- The entry of a key with its timestamp. -/
def StorageEngine.held (zstd : Option Zstd) (s : StorageEngine) (key : String) : Option (ℤ × Held) :=
  (s.index.lookup key).map fun p => (((s.pointerTime zstd p).toOption.getD 0).toInt,.kept p)

/-- The timestamps of all entries can be read. -/
def StorageEngine.TimesReadable (zstd : Option Zstd) (s : StorageEngine) : Prop :=
  ∀ key p,s.index.lookup key = some p → ∃ t,s.pointerTime zstd p = .ok t

/-- A document as it is stored: whole, or with its large fields handed to the blob queue. -/
def Placed (collection key : String) (threshold : ℕ) (queue : List BlobWork) (d stored : HakoDoc) : Prop :=
  stored = d ∨ ∃ bm : BlobManager,stored = (bm.extractBlobs collection key d threshold).2.1 ∧
    ∀ w ∈ (bm.extractBlobs collection key d threshold).2.2,w ∈ queue

/-- The entry says what the register holds. -/
def Shown (collection key : String) (threshold : ℕ) (queue : List BlobWork) (p : Pointer) : ℤ × Held → Prop
  | (_,.kept p0) => p = p0
  | (t,.tombstone) => ∃ ts : Int64,ts.toInt = t ∧ p = .deleted ts
  | (t,.doc d) => d.getLogicalTime.toInt = t ∧ ∃ stored,
      Placed collection key threshold queue d stored ∧ (p = .inlined stored.encode ∨ p = .blobPending stored)

def StorageEngine.Shows (collection : String) (threshold : ℕ) (s : StorageEngine) (key : String) :
    Option (ℤ × Held) → Prop
  | none => s.index.lookup key = none
  | some x => ∃ p,s.index.lookup key = some p ∧ Shown collection key threshold s.blobFlushQueue p x

theorem onKey_append (key : String) (xs ys : List (String × ℤ × Held)) :
    onKey key (xs++ys) = onKey key xs++onKey key ys := by
  simp [onKey]

theorem remoteOps_append (key : String) (xs ys : List WalOp) :
    remoteOps key (xs++ys) = remoteOps key xs++remoteOps key ys := by
  simp [remoteOps,onKey_append]

namespace BlobManager

theorem extractFields_encodable (collection key : String) (time : Int64) (threshold : ℕ) (size : UInt64)
    {fields : List (String × Value)} (h : FieldsEncodable fields) :
    FieldsEncodable (extractFields collection key time threshold size fields).2.1 ∧
      (extractFields collection key time threshold size fields).2.1.length = fields.length := by
  induction fields generalizing size with
  | nil => exact ⟨h,rfl⟩
  | cons f fields ih =>
    obtain ⟨name,value⟩ := f
    obtain ⟨hname,hvalue,hrest⟩ := h
    unfold extractFields
    split
    · exact ⟨⟨hname,hvalue,(ih size hrest).1⟩,by simp [(ih size hrest).2]⟩
    · exact ⟨⟨hname,by simp [Value.Encodable],(ih _ hrest).1⟩,by simp [(ih _ hrest).2]⟩

theorem extractBlobs_encodable {bm : BlobManager} {collection key : String} {doc : HakoDoc} {threshold : ℕ}
    (h : doc.Encodable) : (bm.extractBlobs collection key doc threshold).2.1.Encodable := by
  have hfields := extractFields_encodable collection key doc.time threshold bm.blobSize h.2
  exact ⟨hfields.2 ▸ h.1,hfields.1⟩

end BlobManager

namespace Placed
variable {collection key : String} {threshold : ℕ} {queue : List BlobWork} {d stored : HakoDoc}

theorem time (h : Placed collection key threshold queue d stored) : stored.time = d.time := by
  rcases h with rfl | ⟨bm,rfl,-⟩ <;> rfl

theorem encodable (h : Placed collection key threshold queue d stored) (hd : d.Encodable) :
    stored.Encodable := by
  rcases h with rfl | ⟨bm,rfl,-⟩
  · exact hd
  · exact BlobManager.extractBlobs_encodable hd

theorem mono (h : Placed collection key threshold queue d stored) {queue' : List BlobWork}
    (hq : ∀ w ∈ queue,w ∈ queue') : Placed collection key threshold queue' d stored := by
  rcases h with rfl | ⟨bm,hstored,hw⟩
  · exact .inl rfl
  · exact .inr ⟨bm,hstored,fun w hw' => hq w (hw w hw')⟩

end Placed

namespace StorageEngine
variable {zstd : Option Zstd} {s t : StorageEngine}

theorem pointerTime_congr (hseg : t.segments = s.segments)
    (hblob : t.blobManager.map BlobManager.file = s.blobManager.map BlobManager.file) (p : Pointer) :
    t.pointerTime zstd p = s.pointerTime zstd p := by
  cases p <;> simp only [pointerTime,readPointer_congr hseg hblob]

theorem isNewer_eq (hread : s.TimesReadable zstd) (key : String) (remoteTs : Int64) (v : Held) :
    s.isNewer zstd key remoteTs = .ok (decide (Newer (s.held zstd key) (remoteTs.toInt,v))) := by
  unfold isNewer held
  cases hp : s.index.lookup key with
  | none => simp
  | some p =>
    obtain ⟨ts,hts⟩ := hread key p hp
    simp [hts,Int64.lt_iff_toInt_lt,Except.toOption,bind,Except.bind,pure,Except.pure]

end StorageEngine

/-- An operation the first phase keeps, with the document it will store. -/
structure KeptOp where
  key : String
  time : Int64
  held : Held
  put : Option HakoDoc

namespace KeptOp

def op (e : KeptOp) : WalOp :=
  match e.put with
  | some doc => .putInlined e.key doc.encode
  | none => .delete e.key e.time

/-- The document to store is the replicated one, with its large fields among the blob items. -/
def Faithful (collection : String) (threshold : ℕ) (items : List BlobWork) (e : KeptOp) : Prop :=
  match e.held,e.put with
  | .doc d,some stored => d.getLogicalTime = e.time ∧ d.Encodable ∧
      Placed collection e.key threshold items d stored
  | .tombstone,none => True
  | _,_ => False

variable {collection : String} {threshold : ℕ} {items : List BlobWork} {e : KeptOp}

theorem Faithful.mono {items' : List BlobWork} (h : e.Faithful collection threshold items)
    (hi : ∀ w ∈ items,w ∈ items') :
    e.Faithful collection threshold items' := by
  unfold Faithful at h ⊢
  split <;> simp_all only [true_and]
  exact h.2.2.mono hi

/-- A kept delete is one without a document. -/
theorem Faithful.isTombstone (h : e.Faithful collection threshold items) : e.held.isTombstone = e.put.isNone := by
  unfold Faithful at h
  split at h <;> simp_all [Held.isTombstone]

end KeptOp

/-- The first phase after the operations `done`. -/
structure Kept (zstd : Option Zstd) (collection : String) (threshold : ℕ) (s : StorageEngine)
    (done : List WalOp) (acc : Accepted) (es : List KeptOp) : Prop where
  ops : acc.ops = es.map KeptOp.op
  puts : acc.indexPuts = es.map fun e => (e.key,e.put)
  newer : es.map (fun e => (e.key,e.time.toInt,e.held)) =
    (done.filterMap remoteOp).filter fun x => Newer (s.held zstd x.1) x.2
  faithful : ∀ e ∈ es,e.Faithful collection threshold acc.blobItems
  file : acc.blobManager.map BlobManager.file = s.blobManager.map BlobManager.file

namespace Kept
variable {zstd : Option Zstd} {collection : String} {threshold : ℕ} {s : StorageEngine} {done : List WalOp}
  {acc : Accepted} {es : List KeptOp}

/-- An operation that is older than the local entry, or none at all, is passed over. -/
theorem skip (h : Kept zstd collection threshold s done acc es) {op : WalOp}
    (hop : ∀ x,remoteOp op = some x → ¬Newer (s.held zstd x.1) x.2) :
    Kept zstd collection threshold s (done++[op]) acc es := by
  refine ⟨h.ops,h.puts,?_,h.faithful,h.file⟩
  rw [List.filterMap_append,List.filter_append,← h.newer]
  cases hr : remoteOp op with
  | none => simp [hr]
  | some x => simp [hr,hop x hr]

theorem keep (h : Kept zstd collection threshold s done acc es) {op : WalOp} {e : KeptOp} {acc' : Accepted}
    {items : List BlobWork} (hop : remoteOp op = some (e.key,e.time.toInt,e.held))
    (hnew : Newer (s.held zstd e.key) (e.time.toInt,e.held))
    (hacc : acc'.ops = acc.ops++[e.op] ∧ acc'.indexPuts = acc.indexPuts++[(e.key,e.put)] ∧
      acc'.blobItems = acc.blobItems++items ∧
      acc'.blobManager.map BlobManager.file = acc.blobManager.map BlobManager.file)
    (hf : e.Faithful collection threshold acc'.blobItems) :
    Kept zstd collection threshold s (done++[op]) acc' (es++[e]) := by
  obtain ⟨hops,hputs,hitems,hfile⟩ := hacc
  refine ⟨by simp [hops,h.ops],by simp [hputs,h.puts],?_,fun e' he' => ?_,hfile.trans h.file⟩
  · rw [List.filterMap_append,List.filter_append,List.map_append,h.newer]
    simp [hop,hnew]
  · rcases List.mem_append.1 he' with he' | he'
    · exact (h.faithful e' he').mono fun w hw => by simp [hitems,hw]
    · rw [List.mem_singleton.1 he']
      exact hf

theorem acceptOp (h : Kept zstd collection threshold s done acc es) (hread : s.TimesReadable zstd)
    (op : WalOp) : ∃ acc' es',s.acceptOp zstd collection threshold acc op = .ok acc' ∧
      Kept zstd collection threshold s (done++[op]) acc' es' := by
  cases op with
  | putInlined key value =>
    cases hd : HakoDoc.decode value with
    | none => exact ⟨acc,es,by simp [StorageEngine.acceptOp,hd],h.skip (by simp [remoteOp,hd])⟩
    | some d =>
      have hnewer := StorageEngine.isNewer_eq hread key d.getLogicalTime (.doc d)
      by_cases hnew : Newer (s.held zstd key) (d.getLogicalTime.toInt,.doc d)
      · have hop : remoteOp (.putInlined key value) = some (key,d.getLogicalTime.toInt,.doc d) := by
          simp [remoteOp,hd]
        have henc := HakoDoc.encodable_of_decode hd
        cases hbm : acc.blobManager with
        | none =>
          refine ⟨⟨acc.ops++[.putInlined key d.encode],acc.indexPuts++[(key,some d)],acc.blobItems++[],none⟩,
            _,?_,h.keep (e := ⟨key,d.getLogicalTime,.doc d,some d⟩) hop hnew ⟨rfl,rfl,rfl,by simp [hbm]⟩ ?_⟩
          · simp [StorageEngine.acceptOp,hd,hnewer,hnew,hbm,bind,Except.bind,pure,Except.pure]
          · exact ⟨rfl,henc,.inl rfl⟩
        | some bm =>
          refine ⟨⟨acc.ops++[.putInlined key (bm.extractBlobs collection key d threshold).2.1.encode],
              acc.indexPuts++[(key,some (bm.extractBlobs collection key d threshold).2.1)],
              acc.blobItems++(bm.extractBlobs collection key d threshold).2.2,
              some (bm.extractBlobs collection key d threshold).1⟩,
            _,?_,h.keep (e := ⟨key,d.getLogicalTime,.doc d,some (bm.extractBlobs collection key d threshold).2.1⟩)
              hop hnew ⟨rfl,rfl,rfl,by simp [hbm,BlobManager.extractBlobs]⟩ ?_⟩
          · simp [StorageEngine.acceptOp,hd,hnewer,hnew,hbm,bind,Except.bind,pure,Except.pure]
          · exact ⟨rfl,henc,.inr ⟨bm,rfl,fun w hw => List.mem_append_right _ hw⟩⟩
      · refine ⟨acc,es,?_,h.skip (by simpa [remoteOp,hd] using hnew)⟩
        simp [StorageEngine.acceptOp,hd,hnewer,hnew,bind,Except.bind,pure,Except.pure]
  | delete key timestamp =>
    have hnewer := StorageEngine.isNewer_eq hread key timestamp .tombstone
    by_cases hnew : Newer (s.held zstd key) (timestamp.toInt,.tombstone)
    · refine ⟨⟨acc.ops++[.delete key timestamp],acc.indexPuts++[(key,none)],acc.blobItems,acc.blobManager⟩,_,?_,
        h.keep (e := ⟨key,timestamp,.tombstone,none⟩) rfl hnew ⟨rfl,rfl,(List.append_nil _).symm,rfl⟩ trivial⟩
      simp [StorageEngine.acceptOp,hnewer,hnew,bind,Except.bind,pure,Except.pure]
    · refine ⟨acc,es,?_,h.skip (by simpa [remoteOp] using hnew)⟩
      simp [StorageEngine.acceptOp,hnewer,hnew,bind,Except.bind,pure,Except.pure]
  | _ => exact ⟨acc,es,rfl,h.skip (by simp [remoteOp])⟩

end Kept

namespace StorageEngine
variable {zstd : Option Zstd} {s : StorageEngine}

/-- With readable timestamps the first phase keeps exactly the newer operations. -/
theorem acceptAll_kept (hread : s.TimesReadable zstd) (collection : String) (threshold : ℕ) (ops : List WalOp) :
    ∃ acc es,s.acceptAll zstd collection threshold ops = .ok acc ∧
      Kept zstd collection threshold s ops acc es := by
  unfold acceptAll
  induction ops using List.reverseRecOn with
  | nil => exact ⟨_,[],rfl,rfl,rfl,rfl,by simp,rfl⟩
  | append_singleton ops op ih =>
    obtain ⟨acc,es,hacc,hkept⟩ := ih
    obtain ⟨acc',es',hacc',hkept'⟩ := hkept.acceptOp hread op
    refine ⟨acc',es',?_,hkept'⟩
    simp [List.foldlM_append,hacc,hacc',bind,Except.bind,pure,Except.pure]

end StorageEngine

/-- The last of some operations, or the first delete among them if the last is a delete. -/
def lastOrFirstDelete (newer : List (ℤ × Held)) : Option (ℤ × Held) :=
  match newer.getLast? with
  | some (_,.tombstone) => newer.find? fun x => x.2.isTombstone
  | last => last

def newerOps (cur : Option (ℤ × Held)) (ops : List (ℤ × Held)) : List (ℤ × Held) :=
  ops.filter fun x => Newer cur x

variable {newer : List (ℤ × Held)} {x : ℤ × Held}

theorem lastOrFirstDelete_eq_none : lastOrFirstDelete newer = none ↔ newer = [] := by
  unfold lastOrFirstDelete
  split
  · rename_i t hlast
    have hmem := List.mem_of_getLast? hlast
    simp only [List.find?_eq_none]
    constructor
    · intro h
      exact absurd rfl (h _ hmem)
    · rintro rfl
      cases hmem
  · exact List.getLast?_eq_none_iff

theorem lastOrFirstDelete_mem (h : lastOrFirstDelete newer = some x) : x ∈ newer := by
  unfold lastOrFirstDelete at h
  split at h
  · exact List.mem_of_find?_eq_some h
  · exact List.mem_of_getLast? h

namespace Kept
variable {zstd : Option Zstd} {collection : String} {threshold : ℕ} {s : StorageEngine} {ops : List WalOp}
  {acc : Accepted} {es : List KeptOp}

theorem onKey_newer (h : Kept zstd collection threshold s ops acc es) (k : String) :
    (es.filter fun e => e.key = k).map (fun e => (e.time.toInt,e.held)) =
      newerOps (s.held zstd k) (remoteOps k ops) := by
  have hkeys : onKey k (es.map fun e => (e.key,e.time.toInt,e.held)) =
      (es.filter fun e => e.key = k).map fun e => (e.time.toInt,e.held) := by
    simp [onKey,List.filter_map,Function.comp_def]
  rw [← hkeys,h.newer]
  simp only [newerOps,remoteOps,onKey,List.filter_map,List.filter_filter,Function.comp_def]
  congr 1
  apply List.filter_congr
  intro x _
  by_cases hx : x.1 = k <;> simp [hx]

theorem deleteTime_eq (h : Kept zstd collection threshold s ops acc es) {k : String} {e : KeptOp}
    (he : (es.filter fun e => e.key = k).find? (fun e => e.held.isTombstone) = some e) :
    acc.deleteTime k = e.time := by
  have hfind : ∀ l : List KeptOp,(∀ e ∈ l,e.Faithful collection threshold acc.blobItems) →
      (l.map KeptOp.op).findSome? (Accepted.deleteTimeOf k) =
        ((l.filter fun e => e.key = k).find? fun e => e.held.isTombstone).map KeptOp.time := by
    intro l hl
    induction l with
    | nil => rfl
    | cons a l ih =>
      have hrest := ih fun e he => hl e (by simp [he])
      have ha := (hl a (by simp)).isTombstone
      rw [List.map_cons,List.findSome?_cons,hrest]
      cases hput : a.put <;> by_cases hk : a.key = k <;> simp_all [KeptOp.op,Accepted.deleteTimeOf]
  unfold Accepted.deleteTime
  rw [h.ops,hfind es h.faithful,he]
  rfl

theorem updates_eq (h : Kept zstd collection threshold s ops acc es) :
    acc.updates = es.map fun e => (e.key,acc.pointerFor e.key e.put) := by
  simp [Accepted.updates,h.puts]

/-- The entry a batch leaves on a key is that of the surviving operation. -/
theorem lastValue_updates (h : Kept zstd collection threshold s ops acc es) (k : String) :
    match lastOrFirstDelete (newerOps (s.held zstd k) (remoteOps k ops)) with
    | none => lastValue k acc.updates = none
    | some x => ∃ p,lastValue k acc.updates = some p ∧ Shown collection k threshold acc.blobItems p x := by
  rw [h.updates_eq,lastValue_map,← h.onKey_newer k]
  have hkey : ∀ e ∈ es.filter (fun e => e.key = k),e.key = k ∧ e.Faithful collection threshold acc.blobItems :=
    fun e he => ⟨by simpa using (List.mem_filter.1 he).2,h.faithful e (List.mem_filter.1 he).1⟩
  rcases hlast : (es.filter fun e => e.key = k).getLast? with _ | e
  · rw [List.getLast?_eq_none_iff] at hlast
    simp [hlast,lastOrFirstDelete]
  · obtain ⟨hk,hf⟩ := hkey e (List.mem_of_getLast? hlast)
    cases hheld : e.held with
    | kept p0 => simp [KeptOp.Faithful,hheld] at hf
    | doc d =>
      obtain ⟨stored,hput⟩ : ∃ stored,e.put = some stored := by
        cases hput : e.put with
        | none => simp [KeptOp.Faithful,hheld,hput] at hf
        | some stored => exact ⟨stored,rfl⟩
      simp only [KeptOp.Faithful,hheld,hput] at hf
      have hlof : lastOrFirstDelete ((es.filter fun e => e.key = k).map fun e => (e.time.toInt,e.held)) =
          some (e.time.toInt,.doc d) := by
        simp [lastOrFirstDelete,hlast,hheld]
      rw [hlof,hlast]
      refine ⟨_,rfl,by rw [hf.1],stored,hk ▸ hf.2.2,?_⟩
      simp only [hput,Accepted.pointerFor]
      split <;> simp
    | tombstone =>
      have hput : e.put = none := by
        have := hf.isTombstone
        simpa [hheld,Held.isTombstone] using this
      -- the delete that survives is the first one, and the lookup by key finds its timestamp
      obtain ⟨e0,he0⟩ : ∃ e0,(es.filter fun e => e.key = k).find? (fun e => e.held.isTombstone) = some e0 := by
        rw [← Option.isSome_iff_exists,List.find?_isSome]
        exact ⟨e,List.mem_of_getLast? hlast,by simp [hheld,Held.isTombstone]⟩
      have htomb : e0.held = .tombstone := by
        have := List.find?_some he0
        cases hh : e0.held <;> simp_all [Held.isTombstone]
      have hlof : lastOrFirstDelete ((es.filter fun e => e.key = k).map fun e => (e.time.toInt,e.held)) =
          some (e0.time.toInt,.tombstone) := by
        simp [lastOrFirstDelete,hlast,hheld,List.find?_map,he0,htomb]
      rw [hlof,hlast]
      exact ⟨_,rfl,e0.time,rfl,by simp [hput,hk,Accepted.pointerFor,h.deleteTime_eq he0]⟩

end Kept

theorem Shown.mono {collection key : String} {threshold : ℕ} {queue queue' : List BlobWork} {p : Pointer}
    (h : Shown collection key threshold queue p x) (hq : ∀ w ∈ queue,w ∈ queue') :
    Shown collection key threshold queue' p x := by
  obtain ⟨ts,v⟩ := x
  cases v with
  | kept p0 => exact h
  | tombstone => exact h
  | doc d =>
    obtain ⟨hts,stored,hplaced,hp⟩ := h
    exact ⟨hts,stored,hplaced.mono hq,hp⟩

namespace StorageEngine
variable {zstd : Option Zstd} {s : StorageEngine}

/-- The shard after a batch: the entries are those of the surviving operations, and what other entries
are read from is as it was. -/
structure Applied (zstd : Option Zstd) (collection : String) (threshold : ℕ) (s t : StorageEngine)
    (ops : List WalOp) : Prop where
  shows : ∀ k x,lastOrFirstDelete (newerOps (s.held zstd k) (remoteOps k ops)) = some x →
    t.Shows collection threshold k (some x)
  keeps : ∀ k,newerOps (s.held zstd k) (remoteOps k ops) = [] → t.index.lookup k = s.index.lookup k
  queue : ∀ w ∈ s.blobFlushQueue,w ∈ t.blobFlushQueue
  segments : t.segments = s.segments
  file : t.blobManager.map BlobManager.file = s.blobManager.map BlobManager.file

theorem applyReplicated_applied (hread : s.TimesReadable zstd) (crc : Bytes → UInt32) (collection : String)
    (threshold instant : ℕ) (ops : List WalOp) : ∃ acc t,s.applyReplicated crc zstd collection threshold instant ops = .ok (acc,t) ∧
      Applied zstd collection threshold s t ops := by
  obtain ⟨acc,es,hacc,hkept⟩ := acceptAll_kept hread collection threshold ops
  refine ⟨acc,_,by rw [applyReplicated,hacc]; rfl,?_⟩
  have hlast := hkept.lastValue_updates
  by_cases hops : acc.ops = []
  · -- nothing is kept, so no key has a newer operation
    have hes : es = [] := by simpa [hkept.ops] using hops
    have hnone : ∀ k,newerOps (s.held zstd k) (remoteOps k ops) = [] := fun k => by
      rw [← hkept.onKey_newer k,hes]
      rfl
    rw [if_pos hops]
    refine ⟨fun k x hx => ?_,fun k _ => rfl,fun w hw => hw,rfl,hkept.file⟩
    rw [lastOrFirstDelete_eq_none.2 (hnone k)] at hx
    cases hx
  · rw [if_neg hops,commitAccepted]
    obtain ⟨bytes,counts,view,hset⟩ := setAll_eq ({s with
        blobManager := acc.blobManager
        nextTxId := s.nextTxId+1
        wal := s.wal.appendBatchFast crc instant s.nextTxId acc.ops true}) acc.updates
    simp only [hset]
    refine ⟨fun k x hx => ?_,fun k hk => ?_,fun w hw => List.mem_append_left _ hw,rfl,hkept.file⟩
    · have hk := hlast k
      rw [hx] at hk
      obtain ⟨p,hp,hshown⟩ := hk
      refine ⟨p,?_,hshown.mono fun w hw => List.mem_append_right _ hw⟩
      simp [lookup_insertAll,hp]
    · have hk' := hlast k
      rw [lastOrFirstDelete_eq_none.2 hk] at hk'
      simp only at hk'
      simp [lookup_insertAll,hk']

end StorageEngine

end HakoDB

import HakoDB.Engine.WriteBatch
import HakoDB.Storage.Crc32
import HakoDB.Storage.SortedView

/-! A batch against its mutations applied one after another. The batch reads every patched document
as it stood before the batch and applies its deletes after its puts, so the two agree exactly when no
key is deleted and then written again and no surviving patch depends on an earlier mutation. -/
namespace HakoDB
open ByteCodec HashMap

inductive Action
  | write (doc : HakoDoc)
  | upsert (updates : List (String × Value))
  | remove
  deriving DecidableEq

def BatchMutation.action : BatchMutation → Action
  | .put _ _ doc => .write doc
  | .patch _ _ updates => .upsert updates
  | .delete _ _ | .softDelete _ _ => .remove

/-- A mutation with its assigned key, the key it was addressed to, and the place its large values
get in the blob file. -/
structure Step where
  key : String
  readKey : String
  action : Action
  blobSize : Option UInt64

/-- What a collection does to every document before it is stored. -/
structure Rules where
  collection : String
  fill : HakoDoc → HakoDoc
  now : Int64
  threshold : ℕ

/-- The bytes that a document is stored as. -/
def Rules.stored (r : Rules) (blobSize : Option UInt64) (key : String) (doc : HakoDoc) : Bytes :=
  let doc := {r.fill doc with time := r.now}
  match blobSize with
  | none => doc.encode
  | some size => (BlobManager.extractBlobs ⟨[],size⟩ r.collection key doc r.threshold).2.1.encode

/-- The stored document of a key after a mutation, from the one it is applied to. -/
def Step.result (r : Rules) (st : Step) (base : Option Bytes) : Option Bytes :=
  match st.action with
  | .write doc => some (r.stored st.blobSize st.key doc)
  | .upsert updates =>
    some (r.stored st.blobSize st.key (insertAllFields ((base.bind HakoDoc.decode).getD .empty) updates))
  | .remove => none

/-- The live documents after the mutations, each applied to what the ones before it left. -/
def applySequentially (r : Rules) (live : String → Option Bytes) (steps : List Step) :
    String → Option Bytes :=
  steps.foldl (fun live st => Function.update live st.key (st.result r (live st.key))) live

def ofKey (k : String) (steps : List Step) : List Step := steps.filter (·.key = k)

/-- The key ends with a delete, or it is never deleted and its last mutation, if it is a patch, gives
on the document stored before the batch what it gives on the one the earlier mutations left. -/
def KeyOk (r : Rules) (live : String → Option Bytes) (steps : List Step) (k : String) : Prop :=
  match (ofKey k steps).getLast? with
  | none => True
  | some st => st.action = .remove ∨
      (∀ s ∈ ofKey k steps, s.action ≠ .remove) ∧ ∀ updates, st.action = .upsert updates →
        st.result r (live st.readKey) = st.result r (applySequentially r live (ofKey k steps).dropLast k)

theorem applySequentially_key (r : Rules) (live : String → Option Bytes) (steps : List Step) (k : String) :
    applySequentially r live steps k =
      (ofKey k steps).foldl (fun cur st => st.result r cur) (live k) := by
  unfold applySequentially
  induction steps generalizing live with
  | nil => rfl
  | cons st steps ih =>
    rw [List.foldl_cons,ih]
    by_cases hk : st.key = k
    · subst hk
      simp [ofKey]
    · have hne : k ≠ st.key := fun h => hk h.symm
      simp [ofKey,hk,hne]

/-- What a batch leaves under a key: nothing once it is deleted, else its last write, prepared from
the state before the batch. -/
def batchResult (r : Rules) (live : String → Option Bytes) (steps : List Step) (k : String) : Option Bytes :=
  if (ofKey k steps).any (·.action = .remove) then none
  else match (ofKey k steps).getLast? with
    | none => live k
    | some st => st.result r (live st.readKey)

theorem Step.result_isSome {r : Rules} {st : Step} (h : st.action ≠ .remove) (base : Option Bytes) :
    st.result r base ≠ none := by
  unfold Step.result
  cases hact : st.action <;> simp_all

theorem batchResult_eq_iff (r : Rules) (live : String → Option Bytes) (steps : List Step) (k : String) :
    batchResult r live steps k = applySequentially r live steps k ↔ KeyOk r live steps k := by
  rw [applySequentially_key,batchResult,KeyOk]
  rcases List.eq_nil_or_concat (ofKey k steps) with hnil | ⟨front,st,hsplit⟩
  · simp [hnil]
  have hown : ofKey k front = front := by
    refine List.filter_eq_self.mpr fun s hs => ?_
    have hmem : s ∈ ofKey k steps := by
      rw [hsplit]
      simp [hs]
    exact (List.mem_filter.mp hmem).2
  simp only [hsplit,List.concat_eq_append,List.getLast?_concat,List.dropLast_concat,List.foldl_append,
    List.foldl_cons,List.foldl_nil]
  rw [applySequentially_key,hown]
  generalize front.foldl (fun cur st => st.result r cur) (live k) = left
  by_cases hlast : st.action = .remove
  · have hnone : st.result r left = none := by simp [Step.result,hlast]
    simp [hlast,hnone]
  · have hsome := Step.result_isSome (r := r) hlast
    by_cases hany : ∃ s ∈ front, s.action = .remove
    · have hdeleted : ((front++[st]).any fun s => decide (s.action = .remove)) = true := by
        obtain ⟨s,hs,hact⟩ := hany
        simp only [List.any_append,Bool.or_eq_true,List.any_eq_true]
        exact .inl ⟨s,hs,by simpa using hact⟩
      have hbad : ¬ ∀ s ∈ front++[st], s.action ≠ .remove := by
        obtain ⟨s,hs,hact⟩ := hany
        exact fun hall => hall s (by simp [hs]) hact
      simp only [hdeleted,hlast,hbad,if_true,false_and,or_false,iff_false]
      exact fun h => hsome left h.symm
    · have hall : ∀ s ∈ front++[st], s.action ≠ .remove := by
        intro s hs
        rcases List.mem_append.mp hs with hs | hs
        · exact fun hact => hany ⟨s,hs,hact⟩
        · rw [List.mem_singleton.mp hs]
          exact hlast
      have hnone : ((front++[st]).any fun s => decide (s.action = .remove)) = false := by
        simp only [List.any_eq_false,decide_eq_true_eq]
        exact hall
      simp only [hnone,hlast,Bool.false_eq_true,if_false,false_or]
      rw [and_iff_right hall]
      -- only a patch looks at the document it is applied to
      cases hact : st.action with
      | write doc => simp [Step.result,hact]
      | upsert updates => simp
      | remove => exact absurd hact hlast

namespace StorageEngine

theorem liveBytes_reserve {zstd : Option Zstd} {s : StorageEngine} {bm bm' : BlobManager}
    (hbm : s.blobManager = some bm) (hfile : bm'.file = bm.file) (k : String) :
    ({s with blobManager := some bm'} : StorageEngine).liveBytes zstd k = s.liveBytes zstd k := by
  have hget : ({s with blobManager := some bm'} : StorageEngine).get zstd k = s.get zstd k :=
    get_congr rfl rfl (by simp [hbm,hfile])
  unfold liveBytes
  rw [hget]

end StorageEngine

namespace Hako
variable {Ledger : Type}

/-- The shard of a collection, opened if it is not loaded. -/
def shardOf (h : Hako Ledger) (col : String) : Option StorageEngine :=
  match h.shards.lookup col with
  | some s => some s
  | none => (h.openShard col).toOption

def liveBytes (zstd : Option Zstd) (h : Hako Ledger) (col k : String) : Option Bytes :=
  (h.shardOf col).bind fun s => s.liveBytes zstd k

def withShard (h : Hako Ledger) (col : String) (s : StorageEngine) : Hako Ledger :=
  {h with shards := h.shards.insert col s}

theorem shardOf_withShard (h : Hako Ledger) (col c : String) (s : StorageEngine) :
    (h.withShard c s).shardOf col = if col = c then some s else h.shardOf col := by
  unfold shardOf withShard
  rw [lookup_insert_ite]
  by_cases hc : col = c
  · simp [hc]
  · simp [hc]

variable {h : Hako Ledger} {col : String} {s : StorageEngine} {zstd : Option Zstd} {h0 : Hako Ledger}

theorem getShard_ok {h1 : Hako Ledger} (hg : h.getShard col = .ok (s,h1)) :
    h.shardOf col = some s ∧ h1 = h.withShard col s := by
  unfold getShard at hg
  cases hs : h.shards.lookup col with
  | some s' =>
    simp only [hs] at hg
    cases hg
    have hsame : h.shards.insert col s = h.shards := by
      apply Finmap.ext_lookup
      intro c
      rw [lookup_insert_ite]
      split
      · rename_i hc
        rw [hc,hs]
      · rfl
    exact ⟨by simp [shardOf,hs],by rw [withShard,hsame]⟩
  | none =>
    simp only [hs] at hg
    obtain ⟨s',hopen,hrest⟩ := bind_eq_ok.mp hg
    cases hrest
    exact ⟨by simp [shardOf,hs,hopen,Except.toOption],rfl⟩

/-- The documents of a collection and the rules for them are as they were. -/
structure Agrees (zstd : Option Zstd) (col : String) (h0 h : Hako Ledger) : Prop where
  config : h.config = h0.config
  schemaEnabled : h.schemaEnabled = h0.schemaEnabled
  schemas : h.schemas = h0.schemas
  live : ∀ k, h.liveBytes zstd col k = h0.liveBytes zstd col k

theorem Agrees.withShard (ha : Agrees zstd col h0 h) {t : StorageEngine} (hs : h.shardOf col = some s)
    (hlive : ∀ k, t.liveBytes zstd k = s.liveBytes zstd k) :
    Agrees zstd col h0 (h.withShard col t) := by
  refine ⟨ha.config,ha.schemaEnabled,ha.schemas,fun k => ?_⟩
  rw [← ha.live k,Hako.liveBytes,Hako.liveBytes,shardOf_withShard,if_pos rfl,hs]
  exact hlive k

/-- The documents with the defaults that the collection's schema declares. -/
def schemaFill (h : Hako Ledger) (col : String) (doc : HakoDoc) : HakoDoc :=
  if h.schemaEnabled then
    match h.schemas.lookup col with
    | some schema => schema.fill doc
    | none => doc
  else doc

theorem applySchema_eq {doc doc' : HakoDoc} (ha : h.applySchema col doc = .ok doc') :
    doc' = h.schemaFill col doc := by
  unfold applySchema at ha
  unfold schemaFill
  split at ha
  · rename_i he
    rw [if_pos he]
    cases hs : h.schemas.lookup col with
    | some schema =>
      rw [hs] at ha
      exact CollectionSchema.apply_eq_fill ha
    | none =>
      rw [hs] at ha
      cases ha
      rfl
  · rename_i he
    rw [if_neg he]
    cases ha
    rfl

def rules (h : Hako Ledger) (now : Int64) (col : String) : Rules :=
  ⟨col,h.schemaFill col,now,h.config.valueBlobThresholdBytes⟩

theorem Agrees.rules (ha : Agrees zstd col h0 h) (now : Int64) : h.rules now col = h0.rules now col := by
  have hfill : h.schemaFill col = h0.schemaFill col := by
    funext doc
    rw [schemaFill,schemaFill,ha.schemaEnabled,ha.schemas]
  rw [Hako.rules,Hako.rules,hfill,ha.config]

/-- The mutation as it is met while the batch is prepared. -/
def stepOf (h : Hako Ledger) (nanos : Int64) (m : BatchMutation) : Step where
  key := (h.assignId nanos m.docId).1
  readKey := m.docId
  action := m.action
  blobSize := ((h.shardOf m.collection).bind StorageEngine.blobManager).map BlobManager.blobSize

/-- The record a batch logs for a mutation, prepared from the state before the batch. -/
def opOf (r : Rules) (live : String → Option Bytes) (st : Step) : WalOp :=
  match st.result r (live st.readKey) with
  | some bytes => .putInlined st.key bytes
  | none => .delete st.key r.now

def putKey : WalOp → Option String
  | .putInlined key _ => some key
  | _ => none

/-- A soft delete of this kind leaves no retention record in the collection it is addressed to. -/
def NoOwnRecord (config : HakoConfig) (col : String) (m : BatchMutation) : Prop :=
  col = softdelCollection → config.softDeleteRetentionSecs = 0 ∨ ∀ docId, m ≠ .softDelete col docId

/-- The batch after some of its mutations: the stored documents are untouched, and the collection's
records are those of the mutations. -/
structure Prepared (env : Env Ledger) (col : String) (h0 : Hako Ledger) (now : Int64) (p : Prep Ledger)
    (steps : List Step) : Prop where
  agrees : Agrees env.zstd col h0 p.hako
  ops : (p.work col).ops = steps.map (opOf (h0.rules now col) (h0.liveBytes env.zstd col))
  lockstep : (p.work col).indexPuts.map Prod.fst = (p.work col).ops.filterMap putKey

section prepare
variable {env : Env Ledger} {col : String} {h0 : Hako Ledger} {now nanos : Int64} {p p' : Prep Ledger}
  {steps : List Step}

theorem work_setWork (p : Prep Ledger) (c : String) (w : ShardWork) (col : String) :
    (p.setWork c w).work col = if col = c then w else p.work col := by
  unfold Prep.work Prep.setWork
  rw [lookup_insert_ite]
  split <;> rfl

theorem work_setWork_self (p : Prep Ledger) (h : Hako Ledger) (c : String) (w : ShardWork) :
    Prep.work {p.setWork c w with hako := h} c = w :=
  (work_setWork p c w c).trans (if_pos rfl)

variable {m : BatchMutation} {zstd : Option Zstd} {h : Hako Ledger} {doc : HakoDoc}

/-- The record of a soft delete goes to another collection. -/
theorem Prepared.pushRecord (hp : Prepared env col h0 now p steps) {docId : String} (hm : m = .softDelete col docId)
    (hown : NoOwnRecord h0.config col m) (id : String) :
    Prepared env col h0 now (p.pushRecord env.zstd now col id) steps := by
  unfold Prep.pushRecord
  split
  · exact hp
  · rename_i recId recDoc hrec
    have hcol : col ≠ softdelCollection := by
      intro hcol
      rcases hown hcol with hzero | hsoft
      · rw [← hp.agrees.config] at hzero
        simp [softdelRecord,hzero] at hrec
      · exact hsoft docId hm
    have hwork : ∀ w, (p.setWork softdelCollection w).work col = p.work col := by
      intro w
      rw [work_setWork,if_neg hcol]
    refine ⟨hp.agrees,?_,?_⟩
    · rw [hwork]
      exact hp.ops
    · rw [hwork]
      exact hp.lockstep

theorem Prepared.pushDelete (hp : Prepared env col h0 now p steps) (st : Step) (hst : st.action = .remove) :
    Prepared env col h0 now (p.pushDelete env.gate now col st.key) (steps++[st]) := by
  have hop : opOf (h0.rules now col) (h0.liveBytes env.zstd col) st = .delete st.key now := by
    simp [opOf,Step.result,hst,Hako.rules]
  have hwork : (p.pushDelete env.gate now col st.key).work col =
      {p.work col with
        ops := (p.work col).ops++[.delete st.key now]
        keys := (p.work col).keys++[st.key]
        deleted := if st.key ∈ (p.work col).deleted then (p.work col).deleted
          else st.key::(p.work col).deleted} := by
    exact work_setWork_self p _ col _
  refine ⟨⟨hp.agrees.config,hp.agrees.schemaEnabled,hp.agrees.schemas,hp.agrees.live⟩,?_,?_⟩
  · rw [hwork,List.map_append,← hp.ops]
    simp [hop]
  · rw [hwork,List.filterMap_append,← hp.lockstep]
    simp [putKey]

/-- Moving the large fields out keeps every stored document as it is. -/
theorem Agrees.extractBlobs (ha : Agrees zstd col h0 h) {s : StorageEngine} (hs : h.shardOf col = some s)
    (key : String) (doc : HakoDoc) :
    Agrees zstd col h0 (Prep.extractBlobs (h.withShard col s) s col key doc).1 := by
  unfold Prep.extractBlobs
  cases hbm : s.blobManager with
  | none => exact ha.withShard hs fun k => rfl
  | some bm =>
    have ha1 := ha.withShard hs fun k => rfl
    exact ha1.withShard (by rw [shardOf_withShard,if_pos rfl])
      (StorageEngine.liveBytes_reserve hbm rfl)

theorem extractBlobs_encode (h : Hako Ledger) (s : StorageEngine) (col key : String) (doc : HakoDoc)
    (now : Int64) :
    (Prep.extractBlobs h s col key {h.schemaFill col doc with time := now}).2.1.encode =
      (h.rules now col).stored (s.blobManager.map BlobManager.blobSize) key doc := by
  unfold Prep.extractBlobs Rules.stored
  cases s.blobManager <;> rfl

theorem Prepared.pushPut (hp : Prepared env col h0 now p steps) {st : Step}
    (hsize : st.blobSize = ((p.hako.shardOf col).bind StorageEngine.blobManager).map BlobManager.blobSize)
    (hres : st.result (h0.rules now col) (h0.liveBytes env.zstd col st.readKey) =
      some ((h0.rules now col).stored st.blobSize st.key doc))
    (hpush : p.pushPut env.gate now col st.key (p.hako.schemaFill col doc) = .ok p') :
    Prepared env col h0 now p' (steps++[st]) := by
  unfold Prep.pushPut at hpush
  obtain ⟨⟨s,h1⟩,hget,hrest⟩ := bind_eq_ok.mp hpush
  obtain ⟨hs,rfl⟩ := getShard_ok hget
  have hencode : (Prep.extractBlobs (p.hako.withShard col s) s col st.key
      {p.hako.schemaFill col doc with time := now}).2.1.encode =
      (h0.rules now col).stored st.blobSize st.key doc := by
    rw [← hp.agrees.rules now,hsize,hs]
    exact extractBlobs_encode (p.hako.withShard col s) s col st.key doc now
  have hagrees := hp.agrees.extractBlobs hs st.key {p.hako.schemaFill col doc with time := now}
  simp only at hrest
  split at hrest
  · cases hrest
  · rename_i ledger haccept
    cases hrest
    have hop : opOf (h0.rules now col) (h0.liveBytes env.zstd col) st =
        .putInlined st.key ((h0.rules now col).stored st.blobSize st.key doc) := by
      simp [opOf,hres]
    refine ⟨⟨hagrees.config,hagrees.schemaEnabled,hagrees.schemas,hagrees.live⟩,?_,?_⟩
    · rw [work_setWork_self,List.map_append,← hp.ops]
      simp only [List.map_cons,List.map_nil,hop,hencode]
    · rw [work_setWork_self,List.filterMap_append,← hp.lockstep]
      simp [putKey]

theorem Prepared.rebase (hp : Prepared env col h0 now p steps) (ha : Agrees env.zstd col h0 h) (ids : List String) :
    Prepared env col h0 now {p with hako := h, assignedIds := ids} steps := ⟨ha,hp.ops,hp.lockstep⟩

/-- Assigning an id changes the running number at most. -/
theorem assignId_eq (h : Hako Ledger) (nanos : Int64) (docId : String) :
    ∃ seq, (h.assignId nanos docId).2 = {h with idSequence := seq} := by
  unfold assignId generateSortableId
  split
  · exact ⟨_,rfl⟩
  · exact ⟨h.idSequence,rfl⟩

theorem Agrees.assignId (ha : Agrees zstd col h0 h) (nanos : Int64) (docId : String) :
    Agrees zstd col h0 (h.assignId nanos docId).2 := by
  obtain ⟨seq,hseq⟩ := h.assignId_eq nanos docId
  rw [hseq]
  exact ⟨ha.config,ha.schemaEnabled,ha.schemas,ha.live⟩

/-- The write of an admitted document, whatever shard was opened for it before. -/
theorem Prepared.admitted (hp : Prepared env col h0 now p steps) (hm : m.collection = col)
    (ha : Agrees env.zstd col h0 h) (hseq : h.idSequence = p.hako.idSequence)
    (hshard : h.shardOf col = p.hako.shardOf col) {doc' : HakoDoc}
    (hschema : (h.assignId nanos m.docId).2.applySchema col doc = .ok doc')
    (hres : ∀ size, (⟨(h.assignId nanos m.docId).1,m.docId,m.action,size⟩ : Step).result (h0.rules now col)
      (h0.liveBytes env.zstd col m.docId) =
      some ((h0.rules now col).stored size (h.assignId nanos m.docId).1 doc)) (ids : List String)
    (hpush : Prep.pushPut env.gate now {p with hako := (h.assignId nanos m.docId).2, assignedIds := ids}
      col (h.assignId nanos m.docId).1 doc' = .ok p') :
    Prepared env col h0 now p' (steps++[p.hako.stepOf nanos m]) := by
  have hkey : (h.assignId nanos m.docId).1 = (p.hako.stepOf nanos m).key := by
    simp only [stepOf,Hako.assignId,generateSortableId,hseq]
    split <;> rfl
  have hshard' : (h.assignId nanos m.docId).2.shardOf col = p.hako.shardOf col := by
    obtain ⟨seq,hs⟩ := h.assignId_eq nanos m.docId
    rw [hs]
    exact hshard
  have hdoc := applySchema_eq hschema
  rw [hdoc,hkey] at hpush
  refine (hp.rebase (ha.assignId nanos m.docId) ids).pushPut ?_ ?_ hpush
  · show Option.map _ (Option.bind (p.hako.shardOf m.collection) _) = _
    rw [hm,← hshard']
  · rw [hkey] at hres
    exact hres _

theorem Prepared.prepareOne (hp : Prepared env col h0 now p steps) (hm : m.collection = col)
    (hown : NoOwnRecord h0.config col m) (hprep : Hako.prepareOne env nanos now p m = .ok p') :
    Prepared env col h0 now p' (steps++[p.hako.stepOf nanos m]) := by
  unfold Hako.prepareOne at hprep
  obtain ⟨⟨h,doc⟩,hres,hrest⟩ := bind_eq_ok.mp hprep
  have hassign := hp.rebase (hp.agrees.assignId nanos m.docId)
  cases m with
  | delete c docId =>
    cases hm
    cases hres
    obtain rfl := Except.ok.inj hrest
    exact (hassign _).pushDelete (p.hako.stepOf nanos (.delete c docId)) rfl
  | softDelete c docId =>
    cases hm
    cases hres
    obtain rfl := Except.ok.inj hrest
    exact ((hassign _).pushRecord rfl hown _).pushDelete (p.hako.stepOf nanos (.softDelete c docId)) rfl
  | put c docId doc' =>
    cases hm
    cases hres
    obtain ⟨doc1,hschema,hpush⟩ := bind_eq_ok.mp hrest
    exact hp.admitted rfl hp.agrees rfl rfl hschema (fun size => rfl) _ hpush
  | patch c docId updates =>
    cases hm
    obtain ⟨⟨s,h1⟩,hget,hres⟩ := bind_eq_ok.mp hres
    obtain ⟨bytes,hbytes,hres⟩ := bind_eq_ok.mp hres
    obtain ⟨hs,rfl⟩ := getShard_ok hget
    cases hres
    obtain ⟨doc1,hschema,hpush⟩ := bind_eq_ok.mp hrest
    have hlive : h0.liveBytes env.zstd c docId = bytes := by
      refine (hp.agrees.live docId).symm.trans ?_
      show (p.hako.shardOf c).bind _ = bytes
      rw [hs]
      simp [StorageEngine.liveBytes,hbytes]
    subst hlive
    refine hp.admitted rfl (hp.agrees.withShard hs fun k => rfl) rfl ?_ hschema (fun size => rfl) _ hpush
    rw [shardOf_withShard,if_pos rfl]
    exact hs.symm

/-- The mutations of a batch as the preparation meets them. -/
def stepsFrom (env : Env Ledger) (nanos now : Int64) : Prep Ledger → List BatchMutation → List Step
  | _,[] => []
  | p,m::ms => p.hako.stepOf nanos m::
      match Hako.prepareOne env nanos now p m with
      | .ok p' => stepsFrom env nanos now p' ms
      | .error _ => []

theorem Prepared.prepareAll (hp : Prepared env col h0 now p steps) {ms : List BatchMutation}
    (hms : ∀ m ∈ ms, m.collection = col ∧ NoOwnRecord h0.config col m)
    (hprep : ms.foldlM (Hako.prepareOne env nanos now) p = .ok p') :
    Prepared env col h0 now p' (steps++stepsFrom env nanos now p ms) := by
  induction ms generalizing p steps with
  | nil =>
    cases hprep
    simpa [stepsFrom] using hp
  | cons m ms ih =>
    rw [List.foldlM_cons] at hprep
    obtain ⟨p1,hone,hrest⟩ := bind_eq_ok.mp hprep
    obtain ⟨hm,hown⟩ := hms m List.mem_cons_self
    have hall := ih (hp.prepareOne hm hown hone) (fun m' hm' => hms m' (List.mem_cons_of_mem _ hm')) hrest
    rw [stepsFrom,hone]
    simpa using hall

end prepare

section apply
variable {env : Env Ledger} {instant : ℕ} {liveKeys : List String}

theorem bumpVersionsByKeys_shardOf (h : Hako Ledger) (keys : List String) :
    (h.bumpVersionsByKeys keys).shardOf = h.shardOf := by
  unfold bumpVersionsByKeys
  induction keys generalizing h with
  | nil => rfl
  | cons k keys ih =>
    rw [List.foldl_cons,ih]
    rfl

theorem clearVersionsByKeys_shardOf (h : Hako Ledger) (keys keep : List String) :
    (h.clearVersionsByKeys keys keep).shardOf = h.shardOf := by
  unfold clearVersionsByKeys
  induction keys generalizing h with
  | nil => rfl
  | cons k keys ih =>
    rw [List.foldl_cons,ih]
    split <;> rfl

theorem markTouched_shardOf (h : Hako Ledger) (col : String) (w : ShardWork) :
    (h.markTouched col w).shardOf = h.shardOf := by
  unfold markTouched
  split <;> rfl

theorem enqueueIndexUpdate_shardOf (h : Hako Ledger) (u : IndexUpdate) :
    (h.enqueueIndexUpdate u).shardOf = h.shardOf := by
  unfold enqueueIndexUpdate
  split <;> rfl

/-- The work of one collection reaches its shard and no other. -/
theorem shardOf_applyShardWork {h h' : Hako Ledger} {c : String} {w : ShardWork}
    (happly : h.applyShardWork env instant liveKeys (c,w) = .ok h') :
    ∃ s, h.shardOf c = some s ∧ ∀ col, h'.shardOf col =
      if col = c then some (s.applyWork env.crc instant w) else h.shardOf col := by
  unfold applyShardWork at happly
  obtain ⟨⟨s,h1⟩,hget,hrest⟩ := bind_eq_ok.mp happly
  obtain ⟨hs,rfl⟩ := getShard_ok hget
  rw [markTouched_shardOf] at hs
  obtain rfl := Except.ok.inj hrest
  refine ⟨s,hs,fun col => ?_⟩
  rw [enqueueIndexUpdate_shardOf,clearVersionsByKeys_shardOf,bumpVersionsByKeys_shardOf]
  refine (shardOf_withShard _ col c _).trans ?_
  rw [shardOf_withShard,markTouched_shardOf]
  split <;> rfl

/-- Over a loop that meets every collection once. -/
theorem shardOf_applyAll {h h' : Hako Ledger} {entries : List (String × ShardWork)}
    (hnd : (entries.map Prod.fst).Nodup)
    (happly : entries.foldlM (applyShardWork env instant liveKeys) h = .ok h') (col : String) :
    match lastValue col entries with
    | none => h'.shardOf col = h.shardOf col
    | some w => ∃ s, h.shardOf col = some s ∧ h'.shardOf col = some (s.applyWork env.crc instant w) := by
  induction entries generalizing h with
  | nil =>
    cases happly
    rfl
  | cons e entries ih =>
    obtain ⟨c,w⟩ := e
    simp only [List.map_cons,List.nodup_cons] at hnd
    rw [List.foldlM_cons] at happly
    obtain ⟨h1,hone,hrest⟩ := bind_eq_ok.mp happly
    obtain ⟨s,hs,hshard⟩ := shardOf_applyShardWork hone
    have htail := ih hnd.2 hrest
    rw [hshard col] at htail
    by_cases hc : col = c
    · subst hc
      have habsent : lastValue col entries = none := by
        rw [lastValue_eq_none]
        intro e he hek
        exact hnd.1 (hek ▸ List.mem_map_of_mem he)
      simp only [habsent,if_pos] at htail
      simp only [lastValue,habsent,if_pos,Option.none_or]
      exact ⟨s,hs,htail⟩
    · simpa only [lastValue,hc,if_false,Option.or_none] using htail

end apply

section outcome
variable {r : Rules} {live : String → Option Bytes} {k : String}

def putPair : WalOp → Option (String × Pointer)
  | .putInlined key value => some (key,.inlined value)
  | _ => none

def deletePair : WalOp → Option (String × Pointer)
  | .delete key timestamp => some (key,.deleted timestamp)
  | _ => none

theorem putUpdates_eq {w : ShardWork} (h : w.indexPuts.map Prod.fst = w.ops.filterMap putKey) :
    w.putUpdates = w.ops.filterMap putPair := by
  unfold ShardWork.putUpdates
  generalize w.indexPuts = puts at h ⊢
  generalize w.ops = ops at h ⊢
  induction ops generalizing puts with
  | nil => rfl
  | cons op ops ih =>
    cases op with
    | putInlined key value =>
      obtain ⟨put,puts,rfl⟩ : ∃ p ps, puts = p::ps := by
        cases puts with
        | nil => simp [putKey] at h
        | cons p ps => exact ⟨p,ps,rfl⟩
      simp only [List.map_cons,List.filterMap_cons,putKey,List.cons.injEq] at h
      simp only [List.filterMap_cons,putPair,List.zipWith_cons_cons,h.1,ih puts h.2]
    | _ => exact ih puts h

theorem putPair_opOf (st : Step) :
    putPair (opOf r live st) = (st.result r (live st.readKey)).map fun b => (st.key,.inlined b) := by
  unfold opOf
  split <;> simp_all [putPair]

theorem deletePair_opOf (st : Step) :
    deletePair (opOf r live st) = if st.action = .remove then some (st.key,.deleted r.now) else none := by
  unfold opOf Step.result
  cases st.action <;> rfl

theorem lastValue_deletes (steps : List Step) :
    lastValue k ((steps.map (opOf r live)).filterMap deletePair) =
      if (ofKey k steps).any (·.action = .remove) then some (.deleted r.now) else none := by
  induction steps with
  | nil => rfl
  | cons st steps ih =>
    rw [List.map_cons,List.filterMap_cons,deletePair_opOf]
    by_cases hk : st.key = k
    · have hown : ofKey k (st::steps) = st::ofKey k steps := by simp [ofKey,hk]
      by_cases hact : st.action = .remove
      · simp only [hown,hact,hk,if_true,lastValue,ih,List.any_cons,decide_true,Bool.true_or]
        split <;> rfl
      · simp only [hown,hact,if_false,ih,List.any_cons,decide_false,Bool.false_or]
    · have hown : ofKey k (st::steps) = ofKey k steps := by simp [ofKey,hk]
      have hk' : k ≠ st.key := fun h => hk h.symm
      by_cases hact : st.action = .remove <;>
        simp only [hown,hact,lastValue,ih,hk',if_true,if_false,Option.or_none]

theorem lastValue_puts (steps : List Step) (hall : ∀ st ∈ ofKey k steps, st.action ≠ .remove) :
    lastValue k ((steps.map (opOf r live)).filterMap putPair) =
      (ofKey k steps).getLast?.bind fun st => (st.result r (live st.readKey)).map .inlined := by
  induction steps with
  | nil => rfl
  | cons st steps ih =>
    by_cases hk : st.key = k
    · have hown : ofKey k (st::steps) = st::ofKey k steps := by simp [ofKey,hk]
      rw [hown] at hall ⊢
      have hrest := ih fun s hs => hall s (List.mem_cons_of_mem _ hs)
      have hsome := Step.result_isSome (r := r) (hall st List.mem_cons_self) (live st.readKey)
      obtain ⟨b,hb⟩ := Option.ne_none_iff_exists'.mp hsome
      simp only [List.map_cons,List.filterMap_cons,putPair_opOf,hb,Option.map_some,lastValue,hrest,hk,
        if_true,List.getLast?_cons,Option.bind_some]
      cases hlast : (ofKey k steps).getLast? with
      | none => simp [hb]
      | some s =>
        have hs := Step.result_isSome (r := r)
          (hall s (List.mem_cons_of_mem _ (List.mem_of_getLast? hlast))) (live s.readKey)
        obtain ⟨c,hc⟩ := Option.ne_none_iff_exists'.mp hs
        simp [hc]
    · have hown : ofKey k (st::steps) = ofKey k steps := by simp [ofKey,hk]
      rw [hown] at hall ⊢
      rw [← ih hall,List.map_cons,List.filterMap_cons,putPair_opOf]
      have hk' : k ≠ st.key := fun h => hk h.symm
      cases st.result r (live st.readKey) <;> simp [lastValue,hk']

/-- Applying work sets index entries and adds log records and blob work. -/
theorem applyWork_eq (crc : Bytes → UInt32) (instant : ℕ) (s : StorageEngine) (w : ShardWork) :
    (s.applyWork crc instant w).index = insertAll s.index (w.putUpdates++w.deleteUpdates) ∧
    (s.applyWork crc instant w).segments = s.segments ∧
    (s.applyWork crc instant w).blobManager = s.blobManager := by
  unfold StorageEngine.applyWork
  split
  · obtain ⟨bytes,counts,view,h⟩ := s.setAll_eq (w.putUpdates++w.deleteUpdates)
    simp only [h,and_self]
  · obtain ⟨bytes,counts,view,h⟩ := StorageEngine.setAll_eq
      {s with nextTxId := s.nextTxId+1, wal := s.wal.appendBatchFast crc instant s.nextTxId w.ops false}
      (w.putUpdates++w.deleteUpdates)
    simp only [h,and_self]

/-- What the shard holds once the work of the batch is applied. -/
theorem liveBytes_applyWork {zstd : Option Zstd} {crc : Bytes → UInt32} {instant : ℕ} {s : StorageEngine}
    {w : ShardWork} {steps : List Step} (hlive : s.liveBytes zstd k = live k)
    (hops : w.ops = steps.map (opOf r live))
    (hlock : w.indexPuts.map Prod.fst = w.ops.filterMap putKey) :
    (s.applyWork crc instant w).liveBytes zstd k = batchResult r live steps k := by
  obtain ⟨hindex,hseg,hblob⟩ := applyWork_eq crc instant s w
  have hdel : w.deleteUpdates = w.ops.filterMap deletePair := rfl
  have hlookup : (s.applyWork crc instant w).index.lookup k =
      (lastValue k (w.ops.filterMap deletePair)).or
        ((lastValue k (w.ops.filterMap putPair)).or (s.index.lookup k)) := by
    rw [hindex,lookup_insertAll,lastValue_append,putUpdates_eq hlock,hdel,Option.or_assoc]
  rw [hops,lastValue_deletes] at hlookup
  unfold batchResult
  by_cases hany : (ofKey k steps).any (·.action = .remove) = true
  · rw [if_pos hany] at hlookup ⊢
    simp [StorageEngine.liveBytes,StorageEngine.get,hlookup,StorageEngine.readPointer]
  · rw [if_neg hany,Option.none_or,lastValue_puts] at hlookup
    · rw [if_neg hany]
      cases hlast : (ofKey k steps).getLast? with
      | none =>
        rw [hlast] at hlookup
        rw [← hlive]
        unfold StorageEngine.liveBytes
        rw [StorageEngine.get_congr hlookup hseg (by rw [hblob])]
      | some st =>
        have hact : st.action ≠ .remove := by
          intro hact
          exact hany (List.any_eq_true.mpr ⟨st,List.mem_of_getLast? hlast,by simpa using hact⟩)
        obtain ⟨b,hb⟩ := Option.ne_none_iff_exists'.mp (Step.result_isSome (r := r) hact (live st.readKey))
        simp [StorageEngine.liveBytes,StorageEngine.get,hlookup,hlast,hb,StorageEngine.readPointer]
    · intro st hst hact
      exact hany (List.any_eq_true.mpr ⟨st,hst,by simpa using hact⟩)

end outcome

/-- The mutations of a batch with the keys and places that the batch gives them. -/
def batchSteps (env : Env Ledger) (clock : Clock) (h : Hako Ledger) (ms : List BatchMutation) : List Step :=
  stepsFrom env clock.nanos (h.stamp clock.nanos) ⟨{h with lastTsWatermark := h.stamp clock.nanos},∅,[]⟩ ms

theorem liveBytes_writeBatchInternal {env : Env Ledger} {clock : Clock} {h' : Hako Ledger} {ms : List BatchMutation}
    {ids : List String} (hms : ∀ m ∈ ms, m.collection = col ∧ NoOwnRecord h.config col m)
    (hok : h.writeBatchInternal env clock ms = .ok (ids,h')) (k : String) :
    h'.liveBytes env.zstd col k =
      batchResult (h.rules (h.stamp clock.nanos) col) (h.liveBytes env.zstd col)
        (h.batchSteps env clock ms) k := by
  unfold writeBatchInternal at hok
  obtain ⟨p,hprep,hrest⟩ := bind_eq_ok.mp hok
  obtain ⟨h1,happly,hret⟩ := bind_eq_ok.mp hrest
  cases hret
  have hinit : Prepared env col h (h.stamp clock.nanos)
      ⟨{h with lastTsWatermark := h.stamp clock.nanos},∅,[]⟩ [] :=
    ⟨⟨rfl,rfl,rfl,fun k => rfl⟩,rfl,rfl⟩
  have hp := hinit.prepareAll hms hprep
  have hshards := shardOf_applyAll (env.order.nodup p.works) happly col
  rw [env.order.lastValue_entries] at hshards
  have hlive := hp.agrees.live
  cases hw : p.works.lookup col with
  | none =>
    rw [hw] at hshards
    have hnil : h.batchSteps env clock ms = [] := by
      have hops := hp.ops
      rw [Prep.work,hw] at hops
      exact List.map_eq_nil_iff.mp hops.symm
    rw [hnil]
    show (h'.shardOf col).bind _ = _
    rw [hshards]
    exact hlive k
  | some w =>
    rw [hw] at hshards
    obtain ⟨s,hs,hs'⟩ := hshards
    have hwork : p.work col = w := by rw [Prep.work,hw]; rfl
    show (h'.shardOf col).bind _ = _
    rw [hs']
    refine liveBytes_applyWork ?_ (hwork ▸ hp.ops) (hwork ▸ hp.lockstep)
    rw [← hlive k,Hako.liveBytes,hs]
    rfl

/-- A batch addressed to one collection leaves what its mutations leave one after another, exactly
when every key is in order. -/
theorem writeBatchInternal_sequential_iff {env : Env Ledger} {clock : Clock} {h h' : Hako Ledger}
    {col : String} {ms : List BatchMutation} {ids : List String}
    (hms : ∀ m ∈ ms, m.collection = col ∧ NoOwnRecord h.config col m)
    (hok : h.writeBatchInternal env clock ms = .ok (ids,h')) :
    (∀ k, h'.liveBytes env.zstd col k =
      applySequentially (h.rules (h.stamp clock.nanos) col) (h.liveBytes env.zstd col)
        (h.batchSteps env clock ms) k) ↔
    ∀ k, KeyOk (h.rules (h.stamp clock.nanos) col) (h.liveBytes env.zstd col)
      (h.batchSteps env clock ms) k := by
  refine forall_congr' fun k => ?_
  rw [liveBytes_writeBatchInternal hms hok k]
  exact batchResult_eq_iff _ _ _ k

/-- An engine with one new collection and no unique indexes. -/
def oneCollection (col : String) : Hako Unit where
  shards := (∅ : HMap String StorageEngine).insert col (.fresh .default col none 0)
  openShard name := .ok (.fresh .default name none 0)
  config := .default
  schemaEnabled := false
  schemas := ∅
  uniqueLedger := ()
  lastTsWatermark := 0
  idSequence := 0
  docVersions := ∅
  globalVersion := 0
  indexTouched := []
  indexQueue := []
  localOnlyCols := []

def plainEnv : Env Unit := ⟨crc32,none,⟨fun _ _ _ _ => .ok (),fun _ _ _ => ()⟩,.byKey⟩

def writeAndRemove : List BatchMutation :=
  [.put "c" "a" ⟨[("n",.int 1)],0⟩,.patch "c" "b" [("n",.int 2)],.delete "c" "a"]

theorem writeBatchInternal_sequential_iff_writeAndRemove :
    ∃ ids h', (oneCollection "c").writeBatchInternal plainEnv ⟨1000000,0⟩ writeAndRemove = .ok (ids,h') ∧
      ((∀ k, h'.liveBytes none "c" k =
        applySequentially ((oneCollection "c").rules ((oneCollection "c").stamp 1000000) "c")
          ((oneCollection "c").liveBytes none "c")
          ((oneCollection "c").batchSteps plainEnv ⟨1000000,0⟩ writeAndRemove) k) ↔
      ∀ k, KeyOk ((oneCollection "c").rules ((oneCollection "c").stamp 1000000) "c")
          ((oneCollection "c").liveBytes none "c")
          ((oneCollection "c").batchSteps plainEnv ⟨1000000,0⟩ writeAndRemove) k) := by
  have hms : ∀ m ∈ writeAndRemove, m.collection = "c" ∧ NoOwnRecord (oneCollection "c").config "c" m := by
    simp [writeAndRemove,BatchMutation.collection,NoOwnRecord,softdelCollection]
  obtain ⟨⟨ids,h'⟩,hok⟩ : ∃ r, (oneCollection "c").writeBatchInternal plainEnv ⟨1000000,0⟩ writeAndRemove = .ok r :=
    ⟨_,rfl⟩
  exact ⟨ids,h',hok,writeBatchInternal_sequential_iff hms hok⟩

/-- A patch that follows a put of the same key starts from the document before the batch. -/
example : (((oneCollection "c").writeBatchInternal plainEnv ⟨1000000,0⟩
    [.put "c" "k" ⟨[("a",.int 1)],0⟩,.patch "c" "k" [("b",.int 2)]]).toOption.map
      fun r => r.2.liveBytes none "c" "k") = some (some (HakoDoc.encode ⟨[("b",.int 2)],1000⟩)) := by
  decide

def deleteThenPut : List BatchMutation := [.delete "c" "k",.put "c" "k" ⟨[("a",.int 1)],0⟩]

/-- The put that follows the delete is lost. -/
theorem writeBatchInternal_deleteThenPut :
    (((oneCollection "c").writeBatchInternal plainEnv ⟨1000000,0⟩ deleteThenPut).toOption.map
      fun r => (r.1,r.2.liveBytes none "c" "k")) = some (["k","k"],none) ∧
    applySequentially ((oneCollection "c").rules ((oneCollection "c").stamp 1000000) "c")
      ((oneCollection "c").liveBytes none "c")
      ((oneCollection "c").batchSteps plainEnv ⟨1000000,0⟩ deleteThenPut) "k" =
        some (HakoDoc.encode ⟨[("a",.int 1)],1000⟩) := by
  decide

end Hako

end HakoDB

import HakoDB.Engine.BatchSteps
import HakoDB.Engine.BatchPrep
import HakoDB.Index.Claims

/-! The ledger beside the documents. A batch records its writes and changes the claims in step, so that
the claims stay those of the stored documents; a document that loses its tuple without being deleted
is where the two part. -/
namespace HakoDB
open ByteCodec HashMap

/-- The document of an id once the records are taken in order. -/
def latest (docs : String → Option HakoDoc) (ops : List WalOp) (k : String) : Option HakoDoc :=
  match lastValue k (ops.filterMap StorageEngine.pointerOf) with
  | none => docs k
  | some (.inlined value) => HakoDoc.decode value
  | some _ => none

section latest
variable (docs : String → Option HakoDoc) (ops : List WalOp)

theorem latest_put (key : String) (value : Bytes) (k : String) :
    latest docs (ops++[.putInlined key value]) k = if k = key then HakoDoc.decode value else latest docs ops k := by
  unfold latest
  rw [List.filterMap_append,lastValue_append]
  by_cases hk : k = key
  · simp [hk,StorageEngine.pointerOf,lastValue]
  · simp [hk,StorageEngine.pointerOf,lastValue]

theorem latest_delete (key : String) (ts : Int64) (k : String) :
    latest docs (ops++[.delete key ts]) k = if k = key then none else latest docs ops k := by
  unfold latest
  rw [List.filterMap_append,lastValue_append]
  by_cases hk : k = key
  · simp [hk,StorageEngine.pointerOf,lastValue]
  · simp [hk,StorageEngine.pointerOf,lastValue]

end latest

/-- What one mutation adds to the records of its collection, and what the gate does beside it. -/
inductive Recorded {Ledger : Type} (gate : UniqueGate Ledger) (now : Int64) (col : String) (l : Ledger) :
    Ledger → List WalOp → List (String × HakoDoc) → Prop
  | delete (k : String) : Recorded gate now col l (gate.gateRelease l col k) [.delete k now] []
  | put {l' : Ledger} (k : String) (doc : HakoDoc) (hacceptted : gate.gateAdmit l col k doc = .ok l') :
      Recorded gate now col l l' [.putInlined k doc.encode] [(k,doc)]

namespace Hako
variable {Ledger : Type} {env : Env Ledger} {now nanos : Int64} {p p' : Prep Ledger} {m : BatchMutation}
variable {col : String} {h : Hako Ledger} {doc : HakoDoc} {p0 : Prep Ledger} {c docId : String}

/-- A retention record is no record of another collection, and its write asks no gate. -/
theorem work_pushRecord (hcol : col ≠ softdelCollection) (zstd : Option Zstd) (now : Int64) (p : Prep Ledger)
    (c docId : String) :
    (p.pushRecord zstd now c docId).work col = p.work col ∧ (p.pushRecord zstd now c docId).hako = p.hako := by
  unfold Prep.pushRecord
  split
  · exact ⟨rfl,rfl⟩
  · exact ⟨(work_setWork _ _ _ _).trans (if_neg hcol),rfl⟩

theorem uniqueLedger_resolveDoc {h1 : Hako Ledger} (hres : h.resolveDoc env m = .ok (h1,doc)) :
    h1.uniqueLedger = h.uniqueLedger := by
  rcases resolveDoc_cases hres with rfl | ⟨_,_,hget⟩
  · rfl
  · obtain ⟨-,rfl⟩ := getShard_ok hget
    rfl

theorem uniqueLedger_extractBlobs (h : Hako Ledger) (s : StorageEngine) (col docId : String) (doc : HakoDoc) :
    (Prep.extractBlobs h s col docId doc).1.uniqueLedger = h.uniqueLedger := by
  unfold Prep.extractBlobs
  split <;> rfl

/-- The records that a mutation adds, with the change of the ledger. -/
def Adds (env : Env Ledger) (now : Int64) (m : BatchMutation) (p p' : Prep Ledger) : Prop :=
  ∃ ops puts,Recorded env.gate now m.collection p.hako.uniqueLedger p'.hako.uniqueLedger ops puts ∧
    ∀ col,col ≠ softdelCollection →
      (p'.work col).ops = (p.work col).ops++(if col = m.collection then ops else []) ∧
      (p'.work col).indexPuts = (p.work col).indexPuts++(if col = m.collection then puts else [])

theorem adds_pushDelete (hm : m.collection = c) (hledger : p.hako.uniqueLedger = p0.hako.uniqueLedger)
    (hwork : ∀ col,col ≠ softdelCollection → p.work col = p0.work col) :
    Adds env now m p0 (p.pushDelete env.gate now c docId) := by
  subst hm
  refine ⟨[.delete docId now],[],?_,fun col hcol => ?_⟩
  · rw [← hledger]
    exact .delete docId
  · have hset := work_setWork p m.collection
      {p.work m.collection with
        ops := (p.work m.collection).ops++[.delete docId now]
        keys := (p.work m.collection).keys++[docId]
        deleted := if docId ∈ (p.work m.collection).deleted then (p.work m.collection).deleted
          else docId::(p.work m.collection).deleted} col
    have hrun : (p.pushDelete env.gate now m.collection docId).work col = _ := hset
    rw [hrun]
    by_cases hc : col = m.collection
    · subst hc
      simp [← hwork _ hcol]
    · simp [hc,hwork _ hcol]

theorem adds_pushPut (hm : m.collection = c) (hpush : p.pushPut env.gate now c docId doc = .ok p')
    (hledger : p.hako.uniqueLedger = p0.hako.uniqueLedger) (hwork : ∀ col,p.work col = p0.work col) :
    Adds env now m p0 p' := by
  subst hm
  unfold Prep.pushPut at hpush
  obtain ⟨⟨s,h1⟩,hget,hrest⟩ := bind_eq_ok.1 hpush
  obtain ⟨-,rfl⟩ := getShard_ok hget
  dsimp only at hrest
  split at hrest
  · cases hrest
  · rename_i ledger hacceptted
    rw [uniqueLedger_extractBlobs] at hacceptted
    obtain rfl := Except.ok.inj hrest
    refine ⟨_,_,.put docId _ (hledger ▸ hacceptted),fun col hcol => ?_⟩
    have hset := fun w => work_setWork p m.collection w col
    refine ⟨(congrArg ShardWork.ops (hset _)).trans ?_,(congrArg ShardWork.indexPuts (hset _)).trans ?_⟩
    · by_cases hc : col = m.collection
      · simp [hc,hwork]
      · simp [hc,hwork]
    · by_cases hc : col = m.collection
      · simp [hc,hwork]
      · simp [hc,hwork]

theorem prepareOne_adds (hprep : prepareOne env nanos now p m = .ok p') : Adds env now m p p' := by
  obtain ⟨h,doc,id,q,hres,-,rfl,hrest⟩ := prepareOne_cases hprep
  have hledger : (h.assignId nanos m.docId).2.uniqueLedger = p.hako.uniqueLedger := by
    obtain ⟨seq,hseq⟩ := h.assignId_eq nanos m.docId
    rw [hseq,← uniqueLedger_resolveDoc hres]
  rcases hrest with rfl | ⟨-,rfl⟩ | ⟨doc',hpush⟩
  · exact adds_pushDelete rfl hledger fun _ _ => rfl
  · refine adds_pushDelete rfl ?_ fun c hc => (work_pushRecord hc _ _ _ _ _).1
    unfold Prep.pushRecord
    split <;> exact hledger
  · exact adds_pushPut rfl hpush hledger fun _ => rfl

/-- A batch leaves under every id what its records come to, when no put stands behind a delete of its id. -/
theorem document_writeBatchInternal {clock : Clock} {h' : Hako Ledger} {ms : List BatchMutation} {ids : List String}
    (hok : h.writeBatchInternal env clock ms = .ok (ids,h')) (hp : prepareBatch env clock h ms = .ok p)
    (horder : PutsBeforeDeletes (p.work col).ops) (k : String) :
    h'.document env.zstd col k = latest (h.document env.zstd col) (p.work col).ops k := by
  obtain ⟨p1,hp1,hrest⟩ := bind_eq_ok.1 hok
  obtain rfl := Except.ok.inj (hp.symm.trans hp1)
  obtain ⟨h1,happly,hrest⟩ := bind_eq_ok.1 hrest
  obtain ⟨-,rfl⟩ := Prod.mk.inj (Except.ok.inj hrest)
  have hprep : PrepOk (fun _ => True) h.config p := by
    refine foldlM_invariant _ (fun a m a' _ ha hm => PrepOk.prepareOne (fun _ _ _ => trivial) ha hm) ?_ hp
    exact ⟨rfl,fun _ _ _ => trivial,fun col => ⟨rfl,by simp [Prep.work,ShardWork.empty]⟩⟩
  have hlive : ∀ c a,p.hako.liveBytes env.zstd c a = h.liveBytes env.zstd c a := by
    refine (foldlM_invariant (fun q : Prep Ledger => WorksKeyed q.works ∧ Reserves env.zstd h q.hako)
      (fun a m a' _ ha hm => ?_) ?_ hp).2.live
    · have hstep := Prepares.prepareOne hm
      exact ⟨hstep.works ha.1,ha.2.trans hstep.reserves⟩
    · exact ⟨fun _ _ hw => absurd hw (by simp),⟨rfl,rfl,rfl,fun _ _ => rfl⟩⟩
  have hshard := shardOf_applyAll (env.order.nodup p.works) happly col
  rw [env.order.lastValue_entries] at hshard
  cases hw : p.works.lookup col with
  | none =>
    rw [hw] at hshard
    have hops : (p.work col).ops = [] := by
      rw [Prep.work,hw]
      rfl
    rw [hops]
    show (h1.liveBytes env.zstd col k).bind _ = (h.liveBytes env.zstd col k).bind _
    rw [← hlive,Hako.liveBytes,Hako.liveBytes,hshard]
  | some w =>
    rw [hw] at hshard
    obtain ⟨s,hs,hs'⟩ := hshard
    have hwork : p.work col = w := by
      rw [Prep.work,hw]
      rfl
    rw [hwork] at horder ⊢
    have hwok : WorkOk w := hwork ▸ hprep.works col
    obtain ⟨hindex,hseg,hblob⟩ := applyWork_eq env.crc clock.instant s w
    have hlookup : (s.applyWork env.crc clock.instant w).index.lookup k =
        (lastValue k (w.ops.filterMap StorageEngine.pointerOf)).or (s.index.lookup k) := by
      rw [hindex,lookup_insertAll,putUpdates_eq hwok.lockstep,← lastValue_putsThenDeletes horder hwok.kinds]
      rfl
    have hold : h.liveBytes env.zstd col k = s.liveBytes env.zstd k := by
      rw [← hlive,Hako.liveBytes,hs]
      rfl
    show (h1.liveBytes env.zstd col k).bind _ = _
    rw [Hako.liveBytes,hs',Option.bind_some]
    unfold latest
    cases hlast : lastValue k (w.ops.filterMap StorageEngine.pointerOf) with
    | none =>
      rw [hlast,Option.none_or] at hlookup
      rw [Hako.document,hold,StorageEngine.liveBytes,StorageEngine.liveBytes,
        StorageEngine.get_congr hlookup hseg (by rw [hblob])]
    | some pointer =>
      rw [hlast,Option.some_or] at hlookup
      obtain ⟨op,hop,hpointer⟩ := List.mem_filterMap.1 (mem_of_lastValue hlast)
      have hkind := hwok.kinds op hop
      cases op <;> simp only [StorageEngine.timestampedEntry,Option.isSome_none,Bool.false_eq_true] at hkind
      all_goals
        simp only [StorageEngine.pointerOf,Option.some.injEq,Prod.mk.injEq] at hpointer
        obtain ⟨-,rfl⟩ := hpointer
        simp [StorageEngine.liveBytes,StorageEngine.get,hlookup,StorageEngine.readPointer]

end Hako

section batch
variable {text : TextOps} {ix : UniqueIndexes} {col : String} {docs : String → Option HakoDoc}

/-- No document is put behind its own delete, each survives its encoding, and none that has a tuple in an
index is put again without one. -/
structure TuplesKept (text : TextOps) (ds : List CompositeIndexDefinition) (docs : String → Option HakoDoc)
    (w : ShardWork) : Prop where
  order : PutsBeforeDeletes w.ops
  stored : ∀ e ∈ w.indexPuts,HakoDoc.decode e.2.encode = some e.2
  kept : ∀ before k value after,w.ops = before++WalOp.putInlined k value::after → ∀ d ∈ ds,
    (HakoDoc.decode value).bind (d.claimOf text k) = none → (latest docs before k).bind (d.claimOf text k) = none

theorem TuplesKept.of_append {ds : List CompositeIndexDefinition} {w w' : ShardWork} (h : TuplesKept text ds docs w')
    {ops : List WalOp} {puts : List (String × HakoDoc)} (hops : w'.ops = w.ops++ops)
    (hputs : w'.indexPuts = w.indexPuts++puts) : TuplesKept text ds docs w := by
  refine ⟨?_,fun e he => h.stored e (hputs ▸ List.mem_append_left _ he),fun before k value after hsplit => ?_⟩
  · have horder := h.order
    rw [hops] at horder
    exact (List.pairwise_append.1 horder).1
  · refine h.kept before k value (after++ops) ?_
    rw [hops,hsplit]
    simp

/-- The indexes of a collection are ready and hold the tuples of the documents that the records come to. -/
structure Claimed (text : TextOps) (ix : UniqueIndexes) (col : String) (docs : String → Option HakoDoc)
    (l : UniqueLedger) : Prop where
  ready : ∀ d ∈ ix.defs col,l.isReady d.id = true
  sound : ∀ d ∈ ix.defs col,l.Sound d.id
  owned : ∀ d ∈ ix.defs col,∀ k,l.owned d.id k = (docs k).bind (d.claimOf text k)

variable {l l' : UniqueLedger} {docId : String} {tuple : CompositeIndexDefinition → Option Bytes}

/-- The gate called for a document of another collection. -/
theorem Claimed.of_other (h : Claimed text ix col docs l) {c : String} (hc : col ≠ c)
    (hgated : UniqueIndexes.Gated (ix.defs c) docId tuple l l') :
    Claimed text ix col docs l' := by
  refine ⟨fun d hd => (hgated.isReady d.id).trans (h.ready d hd),fun d hd => hgated.sound _ (h.sound d hd),
    fun d hd k => ?_⟩
  rw [hgated.kept d.id k,h.owned d hd k]
  intro hid
  obtain ⟨e,he,heq⟩ := List.mem_map.1 hid
  exact absurd (ix.ids col c d e hd he heq.symm) hc

/-- The gate called for a document of the collection, whose tuples are then those of its new version. -/
theorem Claimed.of_own (h : Claimed text ix col docs l) (hgated : UniqueIndexes.Gated (ix.defs col) docId tuple l l')
    {docs' : String → Option HakoDoc} (doc : Option HakoDoc) (hdocs : ∀ k,docs' k = if k = docId then doc else docs k)
    (htuple : ∀ d ∈ ix.defs col,tuple d = doc.bind (d.claimOf text docId)) : Claimed text ix col docs' l' := by
  refine ⟨fun d hd => (hgated.isReady d.id).trans (h.ready d hd),fun d hd => hgated.sound _ (h.sound d hd),
    fun d hd k => ?_⟩
  rw [hdocs]
  by_cases hk : k = docId
  · rw [if_pos hk,hk,hgated.changed d hd (h.sound d hd),htuple d hd]
  · rw [if_neg hk,hgated.kept d.id k fun _ => hk,h.owned d hd k]

variable {env : Env UniqueLedger} {now nanos : Int64} {p p' : Prep UniqueLedger} {m : BatchMutation}

theorem Claimed.adds (hgate : env.gate = ix.gate text) (hcol : col ≠ softdelCollection)
    (h : Claimed text ix col (latest docs (p.work col).ops) p.hako.uniqueLedger) (hadds : Hako.Adds env now m p p')
    (hkept : TuplesKept text (ix.defs col) docs (p'.work col)) :
    Claimed text ix col (latest docs (p'.work col).ops) p'.hako.uniqueLedger := by
  obtain ⟨ops,puts,hrec,hwork⟩ := hadds
  obtain ⟨hops,hputs⟩ := hwork col hcol
  by_cases hc : col = m.collection
  · subst hc
    rw [if_pos rfl] at hops hputs
    rw [hgate] at hrec
    generalize p'.hako.uniqueLedger = l' at hrec
    cases hrec with
    | delete k =>
      refine h.of_own (UniqueIndexes.gate_released _ _ _) none (fun a => ?_) fun d hd => rfl
      rw [hops,latest_delete]
    | put k doc hacceptted =>
      have hdoc : HakoDoc.decode doc.encode = some doc := hkept.stored (k,doc) (by simp [hputs])
      refine h.of_own (UniqueIndexes.gate_admitted hacceptted) (some doc) (fun a => ?_) fun d hd => ?_
      · rw [hops,latest_put,hdoc]
      · -- a document without a tuple had none before, so that nothing is left behind
        rw [h.owned d hd k]
        cases hclaim : d.claimOf text k doc with
        | some tuple => simp [hclaim]
        | none =>
          have hnone := hkept.kept _ k doc.encode [] hops d hd (by simp [hdoc,hclaim])
          simp [hclaim,hnone]
  · rw [if_neg hc,List.append_nil] at hops
    rw [hops]
    rw [hgate] at hrec
    generalize p'.hako.uniqueLedger = l' at hrec ⊢
    cases hrec with
    | delete k => exact h.of_other hc (UniqueIndexes.gate_released _ _ _)
    | put k doc hacceptted => exact h.of_other hc (UniqueIndexes.gate_admitted hacceptted)

theorem Claimed.prepareAll (hgate : env.gate = ix.gate text) (hcol : col ≠ softdelCollection)
    (h : Claimed text ix col (latest docs (p.work col).ops) p.hako.uniqueLedger) {ms : List BatchMutation}
    (hprep : ms.foldlM (Hako.prepareOne env nanos now) p = .ok p')
    (hkept : TuplesKept text (ix.defs col) docs (p'.work col)) :
    Claimed text ix col (latest docs (p'.work col).ops) p'.hako.uniqueLedger := by
  -- from the back, as the condition on all records gives the one on the first of them
  induction ms using List.reverseRecOn generalizing p' with
  | nil =>
    cases hprep
    exact h
  | append_singleton ms m ih =>
    rw [List.foldlM_append] at hprep
    obtain ⟨p1,hfirst,hlast⟩ := bind_eq_ok.1 hprep
    obtain ⟨p2,hone,hnil⟩ := bind_eq_ok.1 hlast
    cases hnil
    have hadds := Hako.prepareOne_adds hone
    obtain ⟨ops,puts,-,hwork⟩ := id hadds
    obtain ⟨hops,hputs⟩ := hwork col hcol
    exact (ih hfirst (hkept.of_append hops hputs)).adds hgate hcol hadds hkept

end batch

namespace Hako
variable {text : TextOps} {ix : UniqueIndexes} {col : String} {env : Env UniqueLedger}

/-- In every unique index of the collection, the tuples are those of the stored documents, each with its
document, and the other table is the inverse. -/
def LedgerExact (text : TextOps) (ix : UniqueIndexes) (zstd : Option Zstd) (col : String) (h : Hako UniqueLedger) :
    Prop :=
  ∀ d ∈ ix.defs col,∃ c,h.uniqueLedger.inner.lookup d.id = some c ∧
    (∀ tuple k,c.fwd.lookup tuple = some k ↔
      ∃ doc,h.document zstd col k = some doc ∧ d.claimOf text k doc = some tuple) ∧
    ∀ tuple k,c.byDoc.lookup k = some tuple ↔ c.fwd.lookup tuple = some k

variable {h h' : Hako UniqueLedger} {clock : Clock} {ms : List BatchMutation}

theorem ledgerExact_iff {zstd : Option Zstd} :
    LedgerExact text ix zstd col h ↔ Claimed text ix col (h.document zstd col) h.uniqueLedger := by
  constructor
  · intro hexact
    refine ⟨fun d hd => ?_,fun d hd c' hc' => ?_,fun d hd k => ?_⟩
    · obtain ⟨c,hc,-⟩ := hexact d hd
      simp [UniqueLedger.isReady,hc]
    · obtain ⟨c,hc,-,hinv⟩ := hexact d hd
      obtain rfl := Option.some.inj (hc.symm.trans hc')
      exact fun tuple k => (hinv tuple k).symm
    · obtain ⟨c,hc,hfwd,hinv⟩ := hexact d hd
      ext tuple
      simp only [UniqueLedger.owned,hc,Option.bind_some,hinv,hfwd,Option.bind_eq_some_iff]
  · intro hclaimed d hd
    have hready := hclaimed.ready d hd
    obtain ⟨c,hc⟩ := Option.isSome_iff_exists.1 hready
    have hpaired := hclaimed.sound d hd c hc
    refine ⟨c,hc,fun tuple k => ?_,fun tuple k => (hpaired tuple k).symm⟩
    have howned := hclaimed.owned d hd k
    simp only [UniqueLedger.owned,hc,Option.bind_some] at howned
    rw [hpaired tuple k,howned,Option.bind_eq_some_iff]

/-- The batch keeps the tuples of the collection's documents. -/
def KeepsTuples (text : TextOps) (ix : UniqueIndexes) (env : Env UniqueLedger) (col : String) (h : Hako UniqueLedger)
    (clock : Clock) (ms : List BatchMutation) : Prop :=
  ∀ p,prepareBatch env clock h ms = .ok p →
    TuplesKept text (ix.defs col) (h.document env.zstd col) (p.work col)

/-- Batches one after another, each of them successful and of the given kind. -/
inductive Batches (env : Env UniqueLedger) (kind : Hako UniqueLedger → Clock → List BatchMutation → Prop)
    (h0 : Hako UniqueLedger) : Hako UniqueLedger → Prop
  | none : Batches env kind h0 h0
  | next {h h' : Hako UniqueLedger} {clock : Clock} {ms : List BatchMutation} {ids : List String}
      (hrun : Batches env kind h0 h) (hok : h.writeBatchInternal env clock ms = .ok (ids,h'))
      (hkind : kind h clock ms) : Batches env kind h0 h'

theorem uniqueLedger_foldl {α : Type} {f : Hako UniqueLedger → α → Hako UniqueLedger}
    (hf : ∀ h x,(f h x).uniqueLedger = h.uniqueLedger) (xs : List α) (h : Hako UniqueLedger) :
    (xs.foldl f h).uniqueLedger = h.uniqueLedger := by
  induction xs generalizing h with
  | nil => rfl
  | cons x xs ih => exact (ih (f h x)).trans (hf h x)

@[simp] theorem uniqueLedger_bumpVersionsByKeys (h : Hako UniqueLedger) (keys : List String) :
    (h.bumpVersionsByKeys keys).uniqueLedger = h.uniqueLedger := by
  unfold bumpVersionsByKeys
  rw [uniqueLedger_foldl]
  intro x k
  rfl

@[simp] theorem uniqueLedger_clearVersionsByKeys (h : Hako UniqueLedger) (keys keep : List String) :
    (h.clearVersionsByKeys keys keep).uniqueLedger = h.uniqueLedger := by
  refine uniqueLedger_foldl (fun x k => ?_) keys h
  split <;> rfl

@[simp] theorem uniqueLedger_markTouched (h : Hako UniqueLedger) (col : String) (w : ShardWork) :
    (h.markTouched col w).uniqueLedger = h.uniqueLedger := by
  unfold markTouched
  split <;> rfl

@[simp] theorem uniqueLedger_enqueueIndexUpdate (h : Hako UniqueLedger) (u : IndexUpdate) :
    (h.enqueueIndexUpdate u).uniqueLedger = h.uniqueLedger := by
  unfold enqueueIndexUpdate
  split <;> rfl

/-- The claims are made before the work of a batch is applied. -/
theorem uniqueLedger_applyAll {instant : ℕ} {liveKeys : List String} {entries : List (String × ShardWork)}
    (happly : entries.foldlM (applyShardWork env instant liveKeys) h = .ok h') :
    h'.uniqueLedger = h.uniqueLedger := by
  refine foldlM_invariant (fun x : Hako UniqueLedger => x.uniqueLedger = h.uniqueLedger) (fun a e a' _ ha he => ?_) rfl happly
  obtain ⟨⟨s,h1⟩,hget,hrest⟩ := bind_eq_ok.1 he
  obtain ⟨-,rfl⟩ := getShard_ok hget
  obtain rfl := Except.ok.inj hrest
  simpa [withShard] using ha

theorem LedgerExact.writeBatchInternal (hgate : env.gate = ix.gate text) (hcol : col ≠ softdelCollection)
    (hexact : LedgerExact text ix env.zstd col h) {ids : List String}
    (hok : h.writeBatchInternal env clock ms = .ok (ids,h')) (hkeeps : KeepsTuples text ix env col h clock ms) :
    LedgerExact text ix env.zstd col h' := by
  obtain ⟨p,hp,hrest⟩ := bind_eq_ok.1 hok
  have hkept := hkeeps p hp
  have hdocs := document_writeBatchInternal hok hp hkept.order
  obtain ⟨h1,happly,hrest⟩ := bind_eq_ok.1 hrest
  obtain ⟨-,rfl⟩ := Prod.mk.inj (Except.ok.inj hrest)
  rw [ledgerExact_iff] at hexact ⊢
  have hclaimed : Claimed text ix col (latest (h.document env.zstd col) (p.work col).ops) p.hako.uniqueLedger :=
    Claimed.prepareAll (p := ⟨{h with lastTsWatermark := h.stamp clock.nanos},∅,[]⟩) hgate hcol hexact hp hkept
  rw [uniqueLedger_applyAll happly]
  exact ⟨hclaimed.ready,hclaimed.sound,fun d hd k => (hclaimed.owned d hd k).trans (by rw [hdocs])⟩

/-- Along batches that keep the tuples of a collection's documents, the ledger's claims are exactly the
tuples of the documents that are stored. -/
theorem ledgerExact_of_batches (hgate : env.gate = ix.gate text) (hcol : col ≠ softdelCollection)
    {h0 h : Hako UniqueLedger} (hstart : LedgerExact text ix env.zstd col h0)
    (hrun : Batches env (KeepsTuples text ix env col) h0 h) : LedgerExact text ix env.zstd col h := by
  induction hrun with
  | none => exact hstart
  | next hrun hok hkind ih => exact ih.writeBatchInternal hgate hcol hok hkind

/-- A single put into a collection without documents. -/
theorem keepsTuples_onePut {p : Prep UniqueLedger} {key : String} {doc : HakoDoc}
    (hp : prepareBatch env clock h ms = .ok p) (hops : (p.work col).ops = [.putInlined key doc.encode])
    (hputs : (p.work col).indexPuts = [(key,doc)]) (hdoc : HakoDoc.decode doc.encode = some doc)
    (hnone : ∀ k,h.document env.zstd col k = none) :
    KeepsTuples text ix env col h clock ms := by
  intro p' hp'
  obtain rfl := Except.ok.inj (hp.symm.trans hp')
  refine ⟨?_,?_,fun before k value after hsplit d hd hclaim => ?_⟩
  · rw [hops]
    exact List.pairwise_singleton _ _
  · rw [hputs]
    intro e he
    obtain rfl := List.mem_singleton.1 he
    exact hdoc
  · have hbefore : before = [] := by
      have hlen := congrArg List.length (hops.symm.trans hsplit)
      simp only [List.length_append,List.length_cons,List.length_nil] at hlen
      exact List.length_eq_zero_iff.1 (by omega)
    rw [hbefore]
    simp [latest,hnone]

/-- A sparse unique index on one field. -/
def emailIndex : CompositeIndexDefinition := ⟨1,"c",[⟨"email",.asc⟩],true,true,none⟩

def emailIndexes : UniqueIndexes where
  defs col := if col = "c" then [emailIndex] else []
  unique col d hd := by
    split at hd
    · rw [List.mem_singleton.1 hd]
      rfl
    · cases hd
  nodup col := by
    split <;> simp
  ids col col' d d' hd hd' _ := by
    split at hd
    · split at hd'
      · simp_all
      · cases hd'
    · cases hd

def emailEnv : Env UniqueLedger := ⟨crc32,none,emailIndexes.gate asciiText,.byKey⟩

/-- A new collection with its index made ready. -/
def emailEngine : Hako UniqueLedger where
  shards := ∅
  openShard name := .ok (.fresh .default name none 0)
  config := .default
  schemaEnabled := false
  schemas := ∅
  uniqueLedger := UniqueLedger.prepareEmpty ⟨∅,∅⟩ emailIndex.id
  lastTsWatermark := 0
  idSequence := 0
  docVersions := ∅
  globalVersion := 1
  indexTouched := []
  indexQueue := []
  localOnlyCols := []

theorem emailEngine_exact : LedgerExact asciiText emailIndexes none "c" emailEngine := by
  intro d hd
  obtain rfl := List.mem_singleton.1 hd
  refine ⟨⟨∅,∅,∅⟩,rfl,fun tuple k => ?_,fun tuple k => ?_⟩
  · have hnone : emailEngine.document none "c" k = none := rfl
    simp [hnone]
  · simp

def putEmail : List BatchMutation := [.put "c" "k" ⟨[("email",.string "x")],0⟩]

theorem ledgerExact_of_batches_putEmail : ∃ ids h,
    emailEngine.writeBatchInternal emailEnv ⟨1000000,0⟩ putEmail = .ok (ids,h) ∧
    LedgerExact asciiText emailIndexes none "c" h := by
  obtain ⟨ids,h,p,hok,hp,hops,hputs⟩ : ∃ ids h p,
      emailEngine.writeBatchInternal emailEnv ⟨1000000,0⟩ putEmail = .ok (ids,h) ∧
      prepareBatch emailEnv ⟨1000000,0⟩ emailEngine putEmail = .ok p ∧
      (p.work "c").ops = [.putInlined "k" (HakoDoc.encode ⟨[("email",.string "x")],1000⟩)] ∧
      (p.work "c").indexPuts = [("k",⟨[("email",.string "x")],1000⟩)] := ⟨_,_,_,rfl,rfl,rfl,rfl⟩
  have hkeeps : KeepsTuples asciiText emailIndexes emailEnv "c" emailEngine ⟨1000000,0⟩ putEmail :=
    keepsTuples_onePut hp hops hputs rfl fun _ => rfl
  have hrun : Batches emailEnv (KeepsTuples asciiText emailIndexes emailEnv "c") emailEngine h := .next .none hok hkeeps
  have hgate : emailEnv.gate = emailIndexes.gate asciiText := rfl
  have hcol : "c" ≠ softdelCollection := by decide
  have hstart : LedgerExact asciiText emailIndexes emailEnv.zstd "c" emailEngine := emailEngine_exact
  exact ⟨ids,h,hok,ledgerExact_of_batches hgate hcol hstart hrun⟩

/-- A document that drops the field keeps the tuple. -/
theorem ledger_keeps_stale_tuple : LedgerExact asciiText emailIndexes none "c" emailEngine ∧
    ∃ h,Batches emailEnv (fun _ _ _ => True) emailEngine h ∧ ¬LedgerExact asciiText emailIndexes none "c" h := by
  obtain ⟨ids,h,ids',h',c,hput,hdrop,hc,hstale,hdoc⟩ : ∃ ids h ids' h' c,
      emailEngine.writeBatchInternal emailEnv ⟨1000000,0⟩ putEmail = .ok (ids,h) ∧
      h.writeBatchInternal emailEnv ⟨2000000,0⟩ [.put "c" "k" ⟨[],0⟩] = .ok (ids',h') ∧
      h'.uniqueLedger.inner.lookup emailIndex.id = some c ∧
      c.fwd.lookup (emailIndex.encodeCompositePrefix [.string "x"]) = some "k" ∧
      (h'.document none "c" "k").bind (emailIndex.claimOf asciiText "k") = none := ⟨_,_,_,_,_,rfl,rfl,rfl,rfl,rfl⟩
  refine ⟨emailEngine_exact,h',.next (.next .none hput trivial) hdrop trivial,fun hexact => ?_⟩
  obtain ⟨c',hc',hfwd,-⟩ := hexact emailIndex (List.mem_singleton.2 rfl)
  obtain rfl := Option.some.inj (hc.symm.trans hc')
  obtain ⟨doc,hread,hclaim⟩ := (hfwd _ _).1 hstale
  rw [hread,Option.bind_some,hclaim] at hdoc
  cases hdoc

end Hako

end HakoDB

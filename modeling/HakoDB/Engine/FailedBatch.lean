import HakoDB.Engine.BatchSteps
import HakoDB.Engine.BatchPrep
import HakoDB.Storage.WalFault

/-! Batches that end with an error. The collections are written one after another, each to its log first,
and the error of one leaves the others as they are. -/
namespace HakoDB
open ByteCodec FramedLog HashMap

namespace StorageEngine

/-- The work is put into the log; a failure leaves what the log has made of it. -/
def logWork (crc : Bytes → UInt32) (io : IoOutcome) (instant : ℕ) (s : StorageEngine) (w : ShardWork) :
    StorageEngine × Option Fault :=
  if w.ops = [] then (s,none)
  else
    let (wal,failure) := s.wal.appendBatchFastWithFaults crc io instant s.nextTxId w.ops
    ({s with nextTxId := s.nextTxId+1, wal := wal},failure)

/-- The logged work reaches the index and the blob queue. -/
def indexWork (s : StorageEngine) (w : ShardWork) : StorageEngine :=
  let s := s.setAll (w.putUpdates++w.deleteUpdates)
  {s with
    blobFlushQueue := s.blobFlushQueue++w.blobQueueItems
    totalPendingBlobBytes := s.totalPendingBlobBytes+(w.blobQueueItems.map BlobWork.pendingLen).sum}

end StorageEngine

namespace Hako
variable {Ledger : Type} (env : Env Ledger)

/-- The engine as it is left by a mutation that cannot be prepared. -/
def abandoned (nanos now : Int64) (p : Prep Ledger) (m : BatchMutation) : Hako Ledger :=
  match p.hako.resolveDoc env m with
  | .error _ =>
    match p.hako.getShard m.collection with
    | .ok (_,h) => h
    | .error _ => p.hako
  | .ok (h,doc) =>
    let (docId,h) := h.assignId nanos m.docId
    match h.applySchema m.collection doc with
    | .error _ => h
    | .ok doc =>
      match h.getShard m.collection with
      | .error _ => h
      | .ok (s,h) => (Prep.extractBlobs h s m.collection docId {doc with time := now}).1

def prepareAllWithFaults (nanos now : Int64) :
    Prep Ledger → List BatchMutation → Except (Hako Ledger × Fault) (Prep Ledger)
  | p,[] => .ok p
  | p,m::ms =>
    match prepareOne env nanos now p m with
    | .ok p' => prepareAllWithFaults nanos now p' ms
    | .error e => .error (abandoned env nanos now p m,e)

def applyShardWorkWithFaults (faults : String → IoOutcome) (instant : ℕ) (liveKeys : List String) (h : Hako Ledger)
    (entry : String × ShardWork) : Hako Ledger × Option Fault :=
  let (col,w) := entry
  let h := h.markTouched col w
  match h.getShard col with
  | .error e => (h,some e)
  | .ok (s,h) =>
    match s.logWork env.crc (faults col) instant w with
    | (s',some e) => (h.withShard col s',some e)
    | (s',none) =>
      let h := h.withShard col (s'.indexWork w)
      let h := (h.bumpVersionsByKeys w.keys).clearVersionsByKeys w.deleted liveKeys
      (h.enqueueIndexUpdate ⟨col,w.indexPuts,w.indexDeletes env.zstd s⟩,none)

/-- The collections one after another, up to the first error. -/
def applyAllWithFaults (faults : String → IoOutcome) (instant : ℕ) (liveKeys : List String) :
    List (String × ShardWork) → Hako Ledger → Hako Ledger × Option Fault
  | [],h => (h,none)
  | entry::entries,h =>
    match applyShardWorkWithFaults env faults instant liveKeys h entry with
    | (h',some e) => (h',some e)
    | (h',none) => applyAllWithFaults faults instant liveKeys entries h'

/-- A batch with the engine that it leaves, be it well or with an error; the claims of a failed batch are
taken back. -/
def writeBatchWithFaults (faults : String → IoOutcome) (clock : Clock) (h : Hako Ledger)
    (mutations : List BatchMutation) : Hako Ledger × Res (List String) :=
  let now := h.stamp clock.nanos
  match prepareAllWithFaults env clock.nanos now ⟨{h with lastTsWatermark := now},∅,[]⟩ mutations with
  | .error (h',e) => ({h' with uniqueLedger := h.uniqueLedger},.error e)
  | .ok p =>
    let entries := env.order.entries p.works
    let liveKeys := entries.flatMap fun e => e.2.keys.filter (· ∉ e.2.deleted)
    match applyAllWithFaults env faults clock.instant liveKeys entries p.hako with
    | (h',some e) => ({h' with uniqueLedger := h.uniqueLedger},.error e)
    | (h',none) => (h',.ok p.assignedIds)

section connection
variable {env} {faults : String → IoOutcome} {instant : ℕ} {liveKeys : List String} {nanos now : Int64}
variable {ms : List BatchMutation} {h h' : Hako Ledger}

theorem prepareAllWithFaults_ok {p p' : Prep Ledger} :
    prepareAllWithFaults env nanos now p ms = .ok p' ↔ ms.foldlM (prepareOne env nanos now) p = .ok p' := by
  induction ms generalizing p with
  | nil => simp [prepareAllWithFaults,pure,Except.pure]
  | cons m ms ih =>
    rw [List.foldlM_cons,prepareAllWithFaults]
    cases hone : prepareOne env nanos now p m with
    | error f => simp [bind,Except.bind]
    | ok p1 => simpa [bind,Except.bind] using ih

theorem indexWork_logWork {s : StorageEngine} {w : ShardWork} {io : IoOutcome}
    (hlog : (s.logWork env.crc io instant w).2 = none) :
    (s.logWork env.crc io instant w).1.indexWork w = s.applyWork env.crc instant w := by
  unfold StorageEngine.logWork at hlog ⊢
  unfold StorageEngine.applyWork StorageEngine.indexWork
  by_cases hops : w.ops = []
  · simp only [hops,if_true]
  · simp only [hops,if_false] at hlog ⊢
    rw [Wal.appendBatchFastWithFaults_none _ hlog]

/-- Without an error the collection is written as it would be on a disk without failures. -/
theorem applyShardWorkWithFaults_none {entry : String × ShardWork}
    (hio : applyShardWorkWithFaults env faults instant liveKeys h entry = (h',none)) :
    h.applyShardWork env instant liveKeys entry = .ok h' := by
  obtain ⟨col,w⟩ := entry
  unfold applyShardWorkWithFaults at hio
  unfold applyShardWork
  cases hget : (h.markTouched col w).getShard col with
  | error f =>
    simp only [hget] at hio
    cases hio
  | ok r =>
    obtain ⟨s,h1⟩ := r
    simp only [hget] at hio
    cases hlog : s.logWork env.crc (faults col) instant w with
    | mk s' failure =>
      simp only [hlog] at hio
      cases failure with
      | some f => cases hio
      | none =>
        obtain ⟨rfl,-⟩ := Prod.mk.inj hio
        have hnone : (s.logWork env.crc (faults col) instant w).2 = none := by rw [hlog]
        have hdone := indexWork_logWork hnone
        rw [hlog] at hdone
        show ((h.markTouched col w).getShard col >>= _) = _
        rw [hget,hdone]
        rfl

theorem applyAllWithFaults_none {entries : List (String × ShardWork)}
    (hio : applyAllWithFaults env faults instant liveKeys entries h = (h',none)) :
    entries.foldlM (applyShardWork env instant liveKeys) h = .ok h' := by
  induction entries generalizing h with
  | nil =>
    obtain ⟨rfl,-⟩ := Prod.mk.inj hio
    rfl
  | cons entry entries ih =>
    rw [applyAllWithFaults] at hio
    cases hone : applyShardWorkWithFaults env faults instant liveKeys h entry with
    | mk h1 failure =>
      simp only [hone] at hio
      cases failure with
      | some f => cases hio
      | none =>
        rw [List.foldlM_cons,applyShardWorkWithFaults_none hone]
        exact ih hio

/-- A batch that ends well does what a batch does on a disk without failures. -/
theorem writeBatchWithFaults_ok {clock : Clock} {ids : List String}
    (hio : h.writeBatchWithFaults env faults clock ms = (h',.ok ids)) :
    h.writeBatchInternal env clock ms = .ok (ids,h') := by
  unfold writeBatchWithFaults at hio
  dsimp only at hio
  split at hio
  · cases hio
  · rename_i p hprep
    rw [prepareAllWithFaults_ok] at hprep
    split at hio
    · cases hio
    · rename_i h1 happly
      obtain ⟨rfl,hids⟩ := Prod.mk.inj hio
      cases hids
      exact bind_eq_ok.2 ⟨p,hprep,bind_eq_ok.2 ⟨_,applyAllWithFaults_none happly,rfl⟩⟩

end connection

/-- The logs of all shards, in the file and in the buffer, are as they were. -/
def SameLogs (h h' : Hako Ledger) : Prop :=
  ∀ col,(h'.shardOf col).map StorageEngine.wal = (h.shardOf col).map StorageEngine.wal

namespace SameLogs
variable {env} {h h1 h2 : Hako Ledger} {nanos now : Int64}

theorem refl (h : Hako Ledger) : SameLogs h h := fun _ => rfl

theorem trans (ha : SameLogs h h1) (hb : SameLogs h1 h2) : SameLogs h h2 := fun col => (hb col).trans (ha col)

variable {col : String} {s : StorageEngine} {m : BatchMutation} {doc : HakoDoc} {p p' : Prep Ledger}

theorem withShard {t : StorageEngine} (hs : h.shardOf col = some s) (hwal : t.wal = s.wal) :
    SameLogs h (h.withShard col t) := by
  intro c
  rw [shardOf_withShard]
  by_cases hc : c = col
  · rw [if_pos hc,hc,hs,Option.map_some,Option.map_some,hwal]
  · rw [if_neg hc]

theorem getShard (hget : h.getShard col = .ok (s,h1)) : SameLogs h h1 := by
  obtain ⟨hs,rfl⟩ := getShard_ok hget
  exact withShard hs rfl

theorem extractBlobs (hs : h.shardOf col = some s) (key : String) (doc : HakoDoc) :
    SameLogs h (Prep.extractBlobs h s col key doc).1 := by
  unfold Prep.extractBlobs
  split
  · exact refl h
  · exact withShard hs rfl

theorem resolveDoc (hres : h.resolveDoc env m = .ok (h1,doc)) : SameLogs h h1 := by
  rcases resolveDoc_cases hres with rfl | ⟨_,_,hget⟩
  · exact refl _
  · exact getShard hget

theorem assignId (h : Hako Ledger) (nanos : Int64) (docId : String) : SameLogs h (h.assignId nanos docId).2 := by
  obtain ⟨seq,hseq⟩ := h.assignId_eq nanos docId
  rw [hseq]
  exact refl h

theorem pushPut {gate : UniqueGate Ledger} {docId : String} (hpush : p.pushPut gate now col docId doc = .ok p') :
    SameLogs p.hako p'.hako := by
  unfold Prep.pushPut at hpush
  obtain ⟨⟨s,h1⟩,hget,hrest⟩ := bind_eq_ok.1 hpush
  have hs : h1.shardOf col = some s := by
    obtain ⟨-,rfl⟩ := getShard_ok hget
    rw [shardOf_withShard,if_pos rfl]
  have hsame := (getShard hget).trans (extractBlobs hs docId {doc with time := now})
  simp only at hrest
  split at hrest
  · cases hrest
  · obtain rfl := Except.ok.inj hrest
    exact hsame

theorem prepareOne (hprep : Hako.prepareOne env nanos now p m = .ok p') :
    SameLogs p.hako p'.hako := by
  obtain ⟨h,doc,id,q,hres,-,rfl,hrest⟩ := prepareOne_cases hprep
  have hassigned := (resolveDoc hres).trans (assignId h nanos m.docId)
  rcases hrest with rfl | ⟨-,rfl⟩ | ⟨doc',hpush⟩
  · exact hassigned
  · unfold Prep.pushRecord
    split <;> exact hassigned
  · exact hassigned.trans (pushPut hpush)

end SameLogs

section failure
variable {env} {faults : String → IoOutcome} {h h' : Hako Ledger} {nanos now : Int64}

/-- Neither a document nor a log has changed. -/
structure Untouched (zstd : Option Zstd) (h h' : Hako Ledger) : Prop where
  reserves : Reserves zstd h h'
  logs : SameLogs h h'

variable {zstd : Option Zstd} {h1 : Hako Ledger} {col : String} {s : StorageEngine} {p : Prep Ledger}
    {ms : List BatchMutation} {f : Fault} {instant : ℕ} {liveKeys : List String} {entry : String × ShardWork}
    {entries : List (String × ShardWork)} {clock : Clock} {cipher : Option Cipher} {records old : List WalOp}

theorem Untouched.trans {h2 : Hako Ledger} (ha : Untouched zstd h h1) (hb : Untouched zstd h1 h2) :
    Untouched zstd h h2 := ⟨ha.reserves.trans hb.reserves,ha.logs.trans hb.logs⟩

theorem Untouched.stamp {t : Int64} (ha : Untouched zstd {h with lastTsWatermark := t} h') : Untouched zstd h h' :=
  ⟨⟨ha.reserves.openShard,ha.reserves.docVersions,ha.reserves.globalVersion,ha.reserves.live⟩,ha.logs⟩

theorem Untouched.rollback (ha : Untouched zstd h h') (l : Ledger) :
    Untouched zstd h {h' with uniqueLedger := l} :=
  ⟨⟨ha.reserves.openShard,ha.reserves.docVersions,ha.reserves.globalVersion,ha.reserves.live⟩,ha.logs⟩

theorem Untouched.shardOf_ne_none (ha : Untouched zstd h h') (hopen : h.shardOf col ≠ none) :
    h'.shardOf col ≠ none := by
  intro hnone
  have hlog := ha.logs col
  rw [hnone] at hlog
  exact hopen (Option.map_eq_none_iff.1 hlog.symm)

theorem untouched_getShard (hget : h.getShard col = .ok (s,h1)) :
    Untouched zstd h h1 := ⟨.getShard hget,.getShard hget⟩

theorem untouched_abandoned (nanos now : Int64) (p : Prep Ledger) (m : BatchMutation) :
    Untouched env.zstd p.hako (abandoned env nanos now p m) := by
  unfold abandoned
  split
  · split
    · rename_i hget
      exact untouched_getShard hget
    · exact ⟨.refl _,.refl _⟩
  · rename_i h doc hres
    have hassigned : Untouched env.zstd p.hako (h.assignId nanos m.docId).2 :=
      ⟨(Reserves.resolveDoc hres).trans (Reserves.assignId h nanos m.docId),
        (SameLogs.resolveDoc hres).trans (SameLogs.assignId h nanos m.docId)⟩
    dsimp only
    split
    · exact hassigned
    · split
      · exact hassigned
      · rename_i s h1 hget
        have hs : h1.shardOf m.collection = some s := by
          obtain ⟨-,rfl⟩ := getShard_ok hget
          rw [shardOf_withShard,if_pos rfl]
        exact (hassigned.trans (untouched_getShard hget)).trans
          ⟨Reserves.extractBlobs hs _ _,SameLogs.extractBlobs hs _ _⟩

theorem untouched_prepareAll {p' : Prep Ledger} (hprep : ms.foldlM (prepareOne env nanos now) p = .ok p') :
    Untouched env.zstd p.hako p'.hako := by
  refine foldlM_invariant (fun q : Prep Ledger => Untouched env.zstd p.hako q.hako) (fun a m a' _ ha hm => ?_)
    ⟨.refl _,.refl _⟩ hprep
  exact ha.trans ⟨(Prepares.prepareOne hm).reserves,SameLogs.prepareOne hm⟩

/-- A preparation that fails leaves documents and logs alone. -/
theorem untouched_prepareAllWithFaults (hprep : prepareAllWithFaults env nanos now p ms = .error (h,f)) :
    Untouched env.zstd p.hako h := by
  induction ms generalizing p with
  | nil => cases hprep
  | cons m ms ih =>
    rw [prepareAllWithFaults] at hprep
    cases hone : prepareOne env nanos now p m with
    | error f' =>
      simp only [hone] at hprep
      cases hprep
      exact untouched_abandoned nanos now p m
    | ok p1 =>
      simp only [hone] at hprep
      exact Untouched.trans ⟨(Prepares.prepareOne hone).reserves,SameLogs.prepareOne hone⟩ (ih hprep)

/-- The logs of the batch's collections take the records, and the shards of all collections but the
first one met can be opened. -/
def LogsWork (env : Env Ledger) (faults : String → IoOutcome) (clock : Clock) (h : Hako Ledger)
    (ms : List BatchMutation) : Prop :=
  ∀ p,h.prepareBatch env clock ms = .ok p → (∀ e ∈ env.order.entries p.works,faults e.1 = .done) ∧
    ∀ e ∈ (env.order.entries p.works).tail,h.shardOf e.1 ≠ none

/-- A collection whose shard opens and whose log works is written without an error. -/
theorem applyShardWorkWithFaults_of_done (hdone : faults entry.1 = .done) (hopen : h.shardOf entry.1 ≠ none) :
    (applyShardWorkWithFaults env faults instant liveKeys h entry).2 = none ∧
    ∀ c,h.shardOf c ≠ none → (applyShardWorkWithFaults env faults instant liveKeys h entry).1.shardOf c ≠ none := by
  obtain ⟨col,w⟩ := entry
  have hnone : (applyShardWorkWithFaults env faults instant liveKeys h (col,w)).2 = none := by
    obtain ⟨s,hs⟩ := Option.ne_none_iff_exists'.1 hopen
    rw [← markTouched_shardOf h col w] at hs
    obtain ⟨h1,hget⟩ := getShard_of_shardOf hs
    simp only [applyShardWorkWithFaults,hget]
    have hlog : (s.logWork env.crc (faults col) instant w).2 = none := by
      unfold StorageEngine.logWork
      split
      · rfl
      · rw [show faults col = .done from hdone]
        exact Wal.appendBatchFastWithFaults_done env.crc
    cases hr : s.logWork env.crc (faults col) instant w with
    | mk s' failure =>
      rw [hr] at hlog
      simp only at hlog
      subst hlog
      simp only
  refine ⟨hnone,fun c hc => ?_⟩
  have hpair : applyShardWorkWithFaults env faults instant liveKeys h (col,w) = (_,none) := Prod.ext rfl hnone
  have happly := applyShardWorkWithFaults_none hpair
  obtain ⟨s,-,hshards⟩ := shardOf_applyShardWork happly
  rw [hshards c]
  split
  · exact Option.some_ne_none _
  · exact hc

theorem applyAllWithFaults_of_done (hdone : ∀ e ∈ entries,faults e.1 = .done)
    (hopen : ∀ e ∈ entries,h.shardOf e.1 ≠ none) :
    (applyAllWithFaults env faults instant liveKeys entries h).2 = none := by
  induction entries generalizing h with
  | nil => rfl
  | cons entry entries ih =>
    have hfirst := hopen entry List.mem_cons_self
    obtain ⟨hnone,hkept⟩ : (applyShardWorkWithFaults env faults instant liveKeys h entry).2 = none ∧ _ :=
      applyShardWorkWithFaults_of_done (hdone entry List.mem_cons_self) hfirst
    rw [applyAllWithFaults]
    cases hone : applyShardWorkWithFaults env faults instant liveKeys h entry with
    | mk h1 failure =>
      rw [hone] at hnone hkept
      simp only at hnone
      subst hnone
      exact ih (fun e he => hdone e (List.mem_cons_of_mem _ he))
        fun e he => hkept e.1 (hopen e (List.mem_cons_of_mem _ he))

theorem applyAllWithFaults_of_none (hnone : h.shardOf entry.1 = none) :
    ∃ f,applyAllWithFaults env faults instant liveKeys (entry::entries) h = (h.markTouched entry.1 entry.2,some f) := by
  cases hget : (h.markTouched entry.1 entry.2).getShard entry.1 with
  | ok r =>
    have hs := (getShard_ok hget).1
    rw [markTouched_shardOf,hnone] at hs
    cases hs
  | error f =>
    refine ⟨f,?_⟩
    simp only [applyAllWithFaults,applyShardWorkWithFaults,hget]

/-- A batch that fails while its logs work fails before it has written anything. -/
theorem untouched_writeBatchWithFaults (hio : h.writeBatchWithFaults env faults clock ms = (h',.error f))
    (hlogs : LogsWork env faults clock h ms) :
    Untouched env.zstd h h' := by
  unfold writeBatchWithFaults at hio
  dsimp only at hio
  split at hio
  · rename_i h1 f1 hprep
    obtain ⟨rfl,-⟩ := Prod.mk.inj hio
    exact (untouched_prepareAllWithFaults hprep).stamp.rollback _
  · rename_i p hprep
    rw [prepareAllWithFaults_ok] at hprep
    have hprepared : Untouched env.zstd h p.hako := (untouched_prepareAll hprep).stamp
    obtain ⟨hdone,hopen⟩ := hlogs p hprep
    split at hio
    · rename_i h1 f1 happly
      obtain ⟨rfl,-⟩ := Prod.mk.inj hio
      cases hentries : env.order.entries p.works with
      | nil =>
        rw [hentries] at happly
        cases happly
      | cons entry entries =>
        rw [hentries] at happly hdone hopen
        have hrest : ∀ e ∈ entries,p.hako.shardOf e.1 ≠ none := fun e he => hprepared.shardOf_ne_none (hopen e he)
        by_cases hfirst : p.hako.shardOf entry.1 = none
        · obtain ⟨f2,hstop⟩ := applyAllWithFaults_of_none hfirst
          obtain ⟨rfl,-⟩ := Prod.mk.inj (happly.symm.trans hstop)
          exact (hprepared.trans ⟨.markTouched _ _ _,fun col => by rw [markTouched_shardOf]⟩).rollback _
        · -- every log works and every shard opens, so that nothing fails
          have hall : ∀ e ∈ entry::entries,p.hako.shardOf e.1 ≠ none := List.forall_mem_cons.2 ⟨hfirst,hrest⟩
          exact absurd (applyAllWithFaults_of_done hdone hall) (by rw [happly]; exact Option.some_ne_none _)
    · cases hio

/-- The records that a prepared batch brings to the log of a collection. -/
def loggedRecords (p : Prep Ledger) (col : String) : List WalOp :=
  match p.hako.shardOf col with
  | none => []
  | some s => if (p.work col).ops = [] then [] else txRecords s.nextTxId (p.work col).ops

/-- Batches that end well, and flushes, with the records that have come to the logs. -/
inductive Later (env : Env Ledger) (h : Hako Ledger) : Hako Ledger → (String → List WalOp) → Prop
  | refl : Later env h h fun _ => []
  | batch {h1 h2 : Hako Ledger} {records : String → List WalOp} {clock : Clock} {ms : List BatchMutation}
      {ids : List String} {p : Prep Ledger} (hlater : Later env h h1 records)
      (hok : h1.writeBatchInternal env clock ms = .ok (ids,h2)) (hp : h1.prepareBatch env clock ms = .ok p)
      (hshort : ∀ col,∀ op ∈ (p.work col).ops,op.Short) :
      Later env h h2 fun col => records col++loggedRecords p col
  | flush {h1 : Hako Ledger} {records : String → List WalOp} {col : String} {s : StorageEngine} (now : ℕ)
      (hlater : Later env h h1 records) (hs : h1.shardOf col = some s) :
      Later env h (h1.withShard col (s.flushWal now)) records

/-- The log of a shard holds these records, a front part of them in its file. -/
def Remembers (crc : Bytes → UInt32) (cipher : Option Cipher) (s : StorageEngine) (records : List WalOp) : Prop :=
  ∃ disk buffered : List (LogEntry cipher),s.wal.Stores crc disk buffered ∧
    (disk++buffered).map Entry.value = records

theorem Remembers.replay {crc : Bytes → UInt32} (h : Remembers crc cipher s records) :
    ∃ onDisk waiting w',onDisk++waiting = records ∧
      s.wal.replay crc = .ok (filterCommittedOps onDisk,w') := by
  obtain ⟨disk,buffered,hstores,hrecords⟩ := h
  obtain ⟨w',hw'⟩ := hstores.replay
  exact ⟨_,_,w',(List.map_append ..).symm.trans hrecords,hw'⟩

theorem wal_applyWork (crc : Bytes → UInt32) (instant : ℕ) (s : StorageEngine) (w : ShardWork) :
    (s.applyWork crc instant w).wal =
      if w.ops = [] then s.wal else s.wal.appendBatchFast crc instant s.nextTxId w.ops false := by
  unfold StorageEngine.applyWork
  by_cases hops : w.ops = []
  · obtain ⟨bytes,counts,view,hset⟩ := s.setAll_eq (w.putUpdates++w.deleteUpdates)
    simp only [hops,if_true,hset]
  · obtain ⟨bytes,counts,view,hset⟩ := StorageEngine.setAll_eq
      {s with nextTxId := s.nextTxId+1, wal := s.wal.appendBatchFast crc instant s.nextTxId w.ops false}
      (w.putUpdates++w.deleteUpdates)
    simp only [hops,if_false,hset]

theorem Remembers.applyWork (h : Remembers env.crc cipher s records) {w : ShardWork} (hshort : ∀ op ∈ w.ops,op.Short)
    (instant : ℕ) :
    Remembers env.crc cipher (s.applyWork env.crc instant w)
      (records++if w.ops = [] then [] else txRecords s.nextTxId w.ops) := by
  obtain ⟨disk,buffered,hstores,hrecords⟩ := h
  unfold Remembers
  rw [wal_applyWork]
  split
  · exact ⟨disk,buffered,hstores,by simp [hrecords]⟩
  · obtain ⟨disk',buffered',hvalues,hstores'⟩ := hstores.appendBatchFast instant s.nextTxId
      fun op hop => (hshort op hop).fits cipher
    exact ⟨disk',buffered',hstores',by rw [hvalues,hrecords]⟩

/-- A batch that ends well adds its own records to a log, and nothing else. -/
theorem remembers_writeBatchInternal {ids : List String} (hok : h.writeBatchInternal env clock ms = .ok (ids,h'))
    (hp : h.prepareBatch env clock ms = .ok p) (hshort : ∀ op ∈ (p.work col).ops,op.Short)
    (hold : ∀ s,h.shardOf col = some s → Remembers env.crc cipher s old) (hs : h'.shardOf col = some s) :
    Remembers env.crc cipher s (old++loggedRecords p col) := by
  obtain ⟨p1,hp1,hrest⟩ := bind_eq_ok.1 hok
  obtain rfl := Except.ok.inj (hp.symm.trans hp1)
  obtain ⟨h1,happly,hrest⟩ := bind_eq_ok.1 hrest
  obtain ⟨-,rfl⟩ := Prod.mk.inj (Except.ok.inj hrest)
  have hbefore : ∀ s0,p.hako.shardOf col = some s0 → Remembers env.crc cipher s0 old := by
    intro s0 hs0
    have hwal := (untouched_prepareAll hp).stamp.logs col
    rw [hs0,Option.map_some] at hwal
    obtain ⟨s1,hs1,heq⟩ := Option.map_eq_some_iff.1 hwal.symm
    have hremembers := hold s1 hs1
    unfold Remembers at hremembers
    rwa [heq] at hremembers
  have hshard := shardOf_applyAll (env.order.nodup p.works) happly col
  rw [env.order.lastValue_entries] at hshard
  unfold loggedRecords
  cases hw : p.works.lookup col with
  | none =>
    rw [hw] at hshard
    have hwork : p.work col = .empty := by
      rw [Prep.work,hw]
      rfl
    rw [← hshard,hs,hwork]
    simpa [ShardWork.empty] using hbefore s (hshard ▸ hs)
  | some w =>
    rw [hw] at hshard
    obtain ⟨s0,hs0,hs1⟩ := hshard
    obtain rfl := Option.some.inj (hs1.symm.trans hs)
    have hwork : p.work col = w := by
      rw [Prep.work,hw]
      rfl
    rw [hwork] at hshort
    rw [hs0,hwork]
    exact (hbefore s0 hs0).applyWork hshort clock.instant

/-- The records of a collection's log go on with what later batches bring. -/
theorem Later.remembers {h'' : Hako Ledger} {records : String → List WalOp} (hlater : Later env h' h'' records)
    (hold : ∀ s,h'.shardOf col = some s → Remembers env.crc cipher s old) :
    ∀ s,h''.shardOf col = some s → Remembers env.crc cipher s (old++records col) := by
  induction hlater with
  | refl => simpa using hold
  | batch hlater hok hp hshort ih =>
    intro s hs
    have hnext := remembers_writeBatchInternal hok hp (hshort col) ih hs
    rwa [List.append_assoc] at hnext
  | @flush h1 records c s0 now hlater hs0 ih =>
    intro s hs
    rw [shardOf_withShard] at hs
    split at hs
    · rename_i hc
      subst hc
      obtain rfl := Option.some.inj hs
      obtain ⟨disk,buffered,hstores,hrecords⟩ := ih s0 hs0
      exact ⟨disk++buffered,[],hstores.flush now,by simpa using hrecords⟩
    · exact ih s hs

end failure

/-- A database none of whose files can be opened. -/
def unreadable : Hako Unit := {oneCollection "a" with openShard := fun _ => .error (.error (.io "open"))}

/-- A database that flushes its logs with every write. -/
def eagerConfig : HakoConfig := {HakoConfig.default with durabilityMode := .always, walReserveBytes := 0}

def eagerEngine : Hako Unit :=
  {oneCollection "a" with
    shards := ∅
    openShard := fun name => .ok (.fresh eagerConfig name none 0)
    config := eagerConfig}

end Hako

end HakoDB

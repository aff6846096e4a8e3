import HakoDB.Engine.Sequential
import HakoDB.Storage.Crash
import HakoDB.Storage.Resegmented
import HakoDB.Sync.Convergence

/-! What the first phase of a batch hands over to the shards: puts in lockstep with their records, and the shards as they
were but for reserved blob places. -/
namespace HakoDB
open ByteCodec FramedLog HashMap

/-- No put of a key stands behind a delete of it. -/
def PutsBeforeDeletes (ops : List WalOp) : Prop :=
  ops.Pairwise fun a b => ∀ k ts v,a = .delete k ts → b ≠ .putInlined k v

/-- Puts and deletes, in the order in which the documents were handed over. -/
structure WorkOk (w : ShardWork) : Prop where
  lockstep : w.indexPuts.map Prod.fst = w.ops.filterMap Hako.putKey
  kinds : ∀ op ∈ w.ops,(StorageEngine.timestampedEntry op).isSome

variable {ops : List WalOp}

theorem lastValue_putsThenDeletes (horder : PutsBeforeDeletes ops)
    (hkinds : ∀ op ∈ ops,(StorageEngine.timestampedEntry op).isSome) (k : String) :
    lastValue k (ops.filterMap Hako.putPair++ops.filterMap Hako.deletePair) =
      lastValue k (ops.filterMap StorageEngine.pointerOf) := by
  rw [lastValue_append]
  induction ops with
  | nil => rfl
  | cons op ops ih =>
    obtain ⟨hfirst,hrest⟩ := List.pairwise_cons.1 horder
    have ih := ih hrest fun o ho => hkinds o (List.mem_cons_of_mem _ ho)
    cases op with
    | putInlined key value =>
      simp only [List.filterMap_cons,Hako.putPair,Hako.deletePair,StorageEngine.pointerOf,lastValue,← ih,Option.or_assoc]
    | delete key ts =>
      simp only [List.filterMap_cons,Hako.putPair,Hako.deletePair,StorageEngine.pointerOf,lastValue,← ih]
      by_cases hk : k = key
      · -- behind the delete there is no put of its key
        have hnone : lastValue k (ops.filterMap Hako.putPair) = none := by
          rw [lastValue_eq_none]
          intro e he hek
          obtain ⟨op',hop',hpair⟩ := List.mem_filterMap.1 he
          cases op' <;> simp only [Hako.putPair,Option.some.injEq,reduceCtorEq] at hpair
          rename_i key' value'
          exact hfirst _ hop' key ts value' rfl (by rw [← hk,← hek,← hpair])
        simp [hnone]
      · simp [hk]
    | _ => exact absurd (hkinds _ List.mem_cons_self) (by simp [StorageEngine.timestampedEntry])

namespace Hako
variable {Ledger : Type}

def AllShards (P : StorageEngine → Prop) (h : Hako Ledger) : Prop := ∀ col s,h.shardOf col = some s → P s

namespace AllShards
variable {P : StorageEngine → Prop} {h h' : Hako Ledger}

theorem withShard (hall : AllShards P h) (col : String) {t : StorageEngine} (ht : P t) :
    AllShards P (h.withShard col t) := by
  intro c s hs
  rw [shardOf_withShard] at hs
  split at hs
  · exact Option.some.inj hs ▸ ht
  · exact hall c s hs

theorem getShard (hall : AllShards P h) {col : String} {s : StorageEngine} (hget : h.getShard col = .ok (s,h')) :
    P s ∧ AllShards P h' ∧ h'.config = h.config := by
  obtain ⟨hs,rfl⟩ := getShard_ok hget
  exact ⟨hall col s hs,hall.withShard col (hall col s hs),rfl⟩

end AllShards

/-- A batch while it is prepared: the shards have changed in their blob managers at most, and each
collection's records go with the documents handed over. -/
structure PrepOk (P : StorageEngine → Prop) (config : HakoConfig) (p : Prep Ledger) : Prop where
  config_eq : p.hako.config = config
  shards : AllShards P p.hako
  works : ∀ col,WorkOk (p.work col)

namespace PrepOk
variable {P : StorageEngine → Prop} {config : HakoConfig} {env : Env Ledger} {p p' : Prep Ledger} {now nanos : Int64}

theorem setWork (hp : PrepOk P config p) {h : Hako Ledger} (hshards : AllShards P h) (hconfig : h.config = config)
    (col : String) {w : ShardWork} (hw : WorkOk w) : PrepOk P config {p.setWork col w with hako := h} := by
  refine ⟨hconfig,hshards,fun c => ?_⟩
  have hwork := work_setWork p col w c
  change WorkOk ((p.setWork col w).work c)
  rw [hwork]
  split
  · exact hw
  · exact hp.works c

theorem pushDelete (hp : PrepOk P config p) (col docId : String) :
    PrepOk P config (p.pushDelete env.gate now col docId) := by
  have hw := hp.works col
  refine hp.setWork (h := {p.hako with uniqueLedger := env.gate.gateRelease p.hako.uniqueLedger col docId})
    hp.shards hp.config_eq col ⟨?_,?_⟩
  · rw [List.filterMap_append,← hw.lockstep]
    simp [putKey]
  · simpa [or_imp,forall_and,StorageEngine.timestampedEntry] using hw.kinds

theorem workOk_put {w w' : ShardWork} (hw : WorkOk w) {docId : String} {doc : HakoDoc} {value : Bytes}
    (hops : w'.ops = w.ops++[.putInlined docId value]) (hputs : w'.indexPuts = w.indexPuts++[(docId,doc)]) :
    WorkOk w' := by
  refine ⟨?_,?_⟩
  · rw [hops,hputs,List.filterMap_append,← hw.lockstep]
    simp [putKey]
  · rw [hops]
    simpa [or_imp,forall_and,StorageEngine.timestampedEntry] using hw.kinds

theorem pushRecord (hp : PrepOk P config p) (col docId : String) :
    PrepOk P config (p.pushRecord env.zstd now col docId) := by
  unfold Prep.pushRecord
  split
  · exact hp
  · exact hp.setWork hp.shards hp.config_eq softdelCollection (workOk_put (hp.works _) rfl rfl)

theorem pushPut (hreserve : ∀ s bm,P s → P {s with blobManager := some bm}) (hp : PrepOk P config p)
    {col docId : String} {doc : HakoDoc} (hpush : p.pushPut env.gate now col docId doc = .ok p') :
    PrepOk P config p' := by
  unfold Prep.pushPut at hpush
  obtain ⟨⟨s,h1⟩,hget,hrest⟩ := bind_eq_ok.1 hpush
  obtain ⟨hs,hshards,hconfig⟩ := hp.shards.getShard hget
  have hextract : AllShards P (Prep.extractBlobs h1 s col docId {doc with time := now}).1 ∧
      (Prep.extractBlobs h1 s col docId {doc with time := now}).1.config = h1.config := by
    unfold Prep.extractBlobs
    split
    · exact ⟨hshards,rfl⟩
    · exact ⟨hshards.withShard col (hreserve s _ hs),rfl⟩
  simp only at hrest
  split at hrest
  · cases hrest
  · obtain rfl := Except.ok.inj hrest
    refine hp.setWork ?_ ?_ col ?_
    · exact hextract.1
    · exact hextract.2.trans (hconfig.trans hp.config_eq)
    · exact workOk_put (hp.works col) rfl rfl

theorem prepareOne (hreserve : ∀ s bm,P s → P {s with blobManager := some bm}) (hp : PrepOk P config p)
    {m : BatchMutation} (hprep : Hako.prepareOne env nanos now p m = .ok p') : PrepOk P config p' := by
  obtain ⟨h,doc,id,q,hres,-,rfl,hrest⟩ := Hako.prepareOne_cases hprep
  have hresolved : AllShards P h ∧ h.config = config := by
    rcases Hako.resolveDoc_cases hres with rfl | ⟨_,_,hget⟩
    · exact ⟨hp.shards,hp.config_eq⟩
    · obtain ⟨-,hshards,hconfig⟩ := hp.shards.getShard hget
      exact ⟨hshards,hconfig.trans hp.config_eq⟩
  have hassigned : ∀ ids,PrepOk P config {p with hako := (h.assignId nanos m.docId).2, assignedIds := ids} := by
    intro ids
    obtain ⟨seq,hseq⟩ := h.assignId_eq nanos m.docId
    rw [hseq]
    exact ⟨hresolved.2,hresolved.1,hp.works⟩
  rcases hrest with rfl | ⟨-,rfl⟩ | ⟨doc',hpush⟩
  · exact (hassigned _).pushDelete _ _
  · exact ((hassigned _).pushRecord _ _).pushDelete _ _
  · exact (hassigned _).pushPut hreserve hpush

end PrepOk

/-- The first half of a batch. -/
def prepareBatch (env : Env Ledger) (clock : Clock) (h : Hako Ledger) (mutations : List BatchMutation) :
    Res (Prep Ledger) :=
  mutations.foldlM (prepareOne env clock.nanos (h.stamp clock.nanos))
    ⟨{h with lastTsWatermark := h.stamp clock.nanos},∅,[]⟩

/-- Nothing has happened to the shards. -/
structure SameShards (h h' : Hako Ledger) : Prop where
  shardOf : h'.shardOf = h.shardOf
  config : h'.config = h.config

namespace SameShards
variable {h h1 h2 : Hako Ledger}

theorem trans (ha : SameShards h h1) (hb : SameShards h1 h2) : SameShards h h2 :=
  ⟨hb.shardOf.trans ha.shardOf,hb.config.trans ha.config⟩

theorem foldl {α : Type} {f : Hako Ledger → α → Hako Ledger} (hf : ∀ h x,SameShards h (f h x)) (xs : List α)
    (h : Hako Ledger) : SameShards h (xs.foldl f h) := by
  induction xs generalizing h with
  | nil => exact ⟨rfl,rfl⟩
  | cons x xs ih => exact (hf h x).trans (ih (f h x))

theorem bumpVersionsByKeys (h : Hako Ledger) (keys : List String) : SameShards h (h.bumpVersionsByKeys keys) := by
  unfold Hako.bumpVersionsByKeys
  refine foldl (fun h k => ?_) keys h
  exact ⟨rfl,rfl⟩

theorem observeRemoteTs (nowMicros : Int64) (h : Hako Ledger) (ts : Int64) :
    SameShards h (h.observeRemoteTs nowMicros ts) := by
  have hset : ∀ floor,SameShards h {h with lastTsWatermark := floor} := fun _ => ⟨rfl,rfl⟩
  unfold Hako.observeRemoteTs
  dsimp only
  split
  · exact hset _
  · exact ⟨rfl,rfl⟩

end SameShards

end Hako

end HakoDB

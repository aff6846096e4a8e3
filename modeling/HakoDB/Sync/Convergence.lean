import HakoDB.Sync.Conflict

/-! Runs of replicated batches against a last-writer-wins register per key. A batch leaves the register's
value exactly if the operation that decides is the greatest of those that are newer. -/
namespace HakoDB
open ByteCodec HashMap LastWriter

/-- Of the batch's operations that are newer than what the key holds, the last one is the greatest;
if it is a delete, the first delete is. -/
def BatchOk (cur : Option (ℤ × Held)) (ops : List (ℤ × Held)) : Prop :=
  ∀ x ∈ lastOrFirstDelete (newerOps cur ops),∀ y ∈ newerOps cur ops,y.1 ≤ x.1

instance (cur : Option (ℤ × Held)) (ops : List (ℤ × Held)) : Decidable (BatchOk cur ops) :=
  inferInstanceAs (Decidable (∀ x ∈ lastOrFirstDelete (newerOps cur ops),∀ y ∈ newerOps cur ops,y.1 ≤ x.1))

/-- Every batch meets the condition against what the batches before it leave. -/
def BatchesOk (cur : Option (ℤ × Held)) : List (List (ℤ × Held)) → Prop
  | [] => True
  | ops::rest => BatchOk cur ops ∧ BatchesOk (run cur ops) rest

theorem batchesOk_concat (cur : Option (ℤ × Held)) (bs : List (List (ℤ × Held))) (ops : List (ℤ × Held)) :
    BatchesOk cur (bs++[ops]) ↔ BatchesOk cur bs ∧ BatchOk (run cur bs.flatten) ops := by
  induction bs generalizing cur with
  | nil => simp [BatchesOk,run]
  | cons b bs ih => simp [BatchesOk,ih,run_append,and_assoc]

variable {cur : Option (ℤ × Held)}

theorem BatchesOk.left_of_append {bs rest : List (List (ℤ × Held))} (h : BatchesOk cur (bs++rest)) :
    BatchesOk cur bs := by
  induction bs generalizing cur with
  | nil => trivial
  | cons b bs ih => exact ⟨h.1,ih h.2⟩

/-- A batch that meets the condition leaves the register's value. -/
theorem BatchOk.run_eq {ops : List (ℤ × Held)} {x : ℤ × Held} (hok : BatchOk cur ops)
    (hx : lastOrFirstDelete (newerOps cur ops) = some x) (hd : ∀ y ∈ ops,∀ z ∈ ops,y.1 = z.1 → y = z) :
    run cur ops = some x := by
  have hmem := lastOrFirstDelete_mem hx
  obtain ⟨hops,hnew⟩ := List.mem_filter.1 hmem
  have hnew : Newer cur x := of_decide_eq_true hnew
  refine run_eq_of_max hops hnew fun y hy hyx => ?_
  by_cases hy' : Newer cur y
  · have hle := hok x hx y (List.mem_filter.2 ⟨hy,decide_eq_true hy'⟩)
    exact lt_of_le_of_ne hle fun h => hyx (hd y hy x hops h)
  · cases cur with
    | none => exact absurd (newer_none y) hy'
    | some c => exact lt_of_le_of_lt (not_lt.1 (mt (newer_some c y).2 hy')) ((newer_some c x).1 hnew)

theorem newerOps_congr {cur' : Option (ℤ × Held)} (h : cur.map Prod.fst = cur'.map Prod.fst) (ops : List (ℤ × Held)) :
    newerOps cur ops = newerOps cur' ops := by
  apply List.filter_congr
  intro x _
  cases cur <;> cases cur' <;> simp_all

namespace StorageEngine
variable {zstd : Option Zstd} {collection : String} {threshold : ℕ} {s t : StorageEngine}

/-- The timestamp of a register's value can be read back from an entry that shows it. -/
def Sourced (zstd : Option Zstd) (s : StorageEngine) (x : ℤ × Held) : Prop :=
  match x.2 with
  | .kept p => ∃ ts,s.pointerTime zstd p = .ok ts ∧ ts.toInt = x.1
  | .doc d => d.Encodable
  | .tombstone => True

theorem pointerTime_shown {key : String} {queue : List BlobWork} {p : Pointer} {x : ℤ × Held}
    (h : Shown collection key threshold queue p x) (hx : s.Sourced zstd x) :
    ∃ ts,s.pointerTime zstd p = .ok ts ∧ ts.toInt = x.1 := by
  obtain ⟨ts,v⟩ := x
  cases v with
  | kept p0 =>
    obtain rfl : p = p0 := h
    exact hx
  | tombstone =>
    obtain ⟨ts',hts,rfl⟩ := h
    exact ⟨ts',rfl,hts⟩
  | doc d =>
    obtain ⟨hts,stored,hplaced,hp⟩ := h
    refine ⟨stored.time,?_,by rw [hplaced.time]; exact hts⟩
    rcases hp with rfl | rfl
    · have hlen : ¬stored.encode.length < 10 := by simp [HakoDoc.encode]
      have hbytes : (stored.encode.drop 2).take 8 = i64Bytes stored.time := by
        simp [HakoDoc.encode]
      rw [pointerTime,if_neg hlen,hbytes,bytesI64_i64Bytes]
    · simp [pointerTime,readPointer,HakoDoc.decode_encode (hplaced.encodable hx),HakoDoc.getLogicalTime]

/-- Every entry shows the register of its key. -/
structure Tracks (zstd : Option Zstd) (collection : String) (threshold : ℕ) (s : StorageEngine)
    (regs : String → Option (ℤ × Held)) : Prop where
  shows : ∀ k,s.Shows collection threshold k (regs k)
  sourced : ∀ k x,regs k = some x → s.Sourced zstd x

theorem tracks_held (hread : s.TimesReadable zstd) : s.Tracks zstd collection threshold (s.held zstd) := by
  constructor
  · intro k
    unfold held
    cases hp : s.index.lookup k with
    | none => exact hp
    | some p => exact ⟨p,hp,rfl⟩
  · intro k x hx
    obtain ⟨p,hp,rfl⟩ := Option.map_eq_some_iff.1 hx
    obtain ⟨ts,hts⟩ := hread k p hp
    exact ⟨ts,hts,by simp [hts,Except.toOption]⟩

section tracks
variable {regs : String → Option (ℤ × Held)} {ops : List WalOp}
variable {k : String} {x : ℤ × Held}

theorem held_time (zstd : Option Zstd) {w : Option (ℤ × Held)} (h : s.Shows collection threshold k w)
    (hw : ∀ x,w = some x → s.Sourced zstd x) : (s.held zstd k).map Prod.fst = w.map Prod.fst := by
  cases w with
  | none =>
    have hnone : s.index.lookup k = none := h
    simp [held,hnone]
  | some x =>
    obtain ⟨p,hp,hshown⟩ := h
    obtain ⟨ts,hts,hx⟩ := pointerTime_shown hshown (hw x rfl)
    simp [held,hp,hts,Except.toOption,hx]

theorem Tracks.timesReadable (h : s.Tracks zstd collection threshold regs) : s.TimesReadable zstd := by
  intro k p hp
  have hk := h.shows k
  cases hr : regs k with
  | none =>
    rw [hr] at hk
    have hnone : s.index.lookup k = none := hk
    rw [hp] at hnone
    cases hnone
  | some x =>
    rw [hr] at hk
    obtain ⟨p',hp',hshown⟩ := hk
    rw [hp] at hp'
    obtain rfl := Option.some.inj hp'
    obtain ⟨ts,hts,-⟩ := pointerTime_shown hshown (h.sourced k x hr)
    exact ⟨ts,hts⟩

theorem Applied.sourced (ha : Applied zstd collection threshold s t ops) (hx : s.Sourced zstd x) :
    t.Sourced zstd x := by
  obtain ⟨ts,v⟩ := x
  cases v with
  | kept p =>
    obtain ⟨ts',hts',hx⟩ := hx
    exact ⟨ts',(pointerTime_congr ha.segments ha.file p).trans hts',hx⟩
  | tombstone => trivial
  | doc d => exact hx

theorem sourced_remoteOps (hx : x ∈ remoteOps k ops) : s.Sourced zstd x := by
  simp only [remoteOps,onKey,List.mem_map,List.mem_filter,List.mem_filterMap] at hx
  obtain ⟨y,⟨⟨op,-,hop⟩,-⟩,rfl⟩ := hx
  cases op with
  | putInlined key value =>
    obtain ⟨d,hd,rfl⟩ := Option.map_eq_some_iff.1 hop
    exact HakoDoc.encodable_of_decode hd
  | delete key timestamp =>
    obtain rfl := Option.some.inj hop
    trivial
  | _ => cases hop

theorem Tracks.sourced_run (h : s.Tracks zstd collection threshold regs)
    (hx : run (regs k) (remoteOps k ops) = some x) : s.Sourced zstd x := by
  have hwin := winner_run (regs k) (remoteOps k ops)
  rw [hx] at hwin
  rcases hwin.1 with hmem | hmem
  · exact h.sourced k x hmem
  · exact sourced_remoteOps hmem

/-- After one batch a key shows its register exactly if the batch meets the condition there. -/
theorem Tracks.shows_iff (h : s.Tracks zstd collection threshold regs)
    (ha : Applied zstd collection threshold s t ops)
    (hd : ∀ y ∈ remoteOps k ops,∀ z ∈ remoteOps k ops,y.1 = z.1 → y = z) :
    t.Shows collection threshold k (run (regs k) (remoteOps k ops)) ↔ BatchOk (regs k) (remoteOps k ops) := by
  have htime := held_time zstd (h.shows k) (h.sourced k)
  have hnewer := newerOps_congr htime (remoteOps k ops)
  cases hx : lastOrFirstDelete (newerOps (regs k) (remoteOps k ops)) with
  | none =>
    have hnil := lastOrFirstDelete_eq_none.1 hx
    have hrun : run (regs k) (remoteOps k ops) = regs k :=
      run_eq_self fun y hy => by simpa using List.filter_eq_nil_iff.1 hnil y hy
    have hlookup := ha.keeps k (hnewer.trans hnil)
    refine iff_of_true ?_ fun x hx' => by simp [hx] at hx'
    rw [hrun]
    have hk := h.shows k
    cases hr : regs k with
    | none =>
      rw [hr] at hk
      exact hlookup.trans hk
    | some x =>
      rw [hr] at hk
      obtain ⟨p,hp,hshown⟩ := hk
      exact ⟨p,hlookup.trans hp,hshown.mono ha.queue⟩
  | some x =>
    have hshows := ha.shows k x (hnewer ▸ hx)
    constructor
    · intro hrun x' hx' y hy
      obtain rfl : x = x' := by simpa [hx] using hx'
      -- the entry has one timestamp, so the register's value is as great as the operation left
      have hxsourced : t.Sourced zstd x :=
        sourced_remoteOps (List.mem_filter.1 (lastOrFirstDelete_mem hx)).1
      have h1 := held_time zstd hshows fun _ h' => Option.some.inj h' ▸ hxsourced
      have h2 := held_time zstd hrun fun z hz => ha.sourced (h.sourced_run hz)
      have heq := h1.symm.trans h2
      obtain ⟨z,hz,hzx⟩ := Option.map_eq_some_iff.1 heq.symm
      have hwin := winner_run (regs k) (remoteOps k ops)
      rw [hz] at hwin
      exact (hwin.2.2 y (List.mem_filter.1 hy).1).trans_eq hzx
    · intro hok
      rw [hok.run_eq hx hd]
      exact hshows

end tracks

end StorageEngine

/-- The shard shows, under every key, the greatest of what it held at the start and the replicated
operations, which is also what they give one at a time in any order. -/
def StorageEngine.Converged (zstd : Option Zstd) (collection : String) (threshold : ℕ) (s t : StorageEngine)
    (ops : List WalOp) : Prop :=
  ∀ k,∃ w,Winner (s.held zstd k) (remoteOps k ops) w ∧
    (∀ ops',ops'.Perm (remoteOps k ops) → run (s.held zstd k) ops' = w) ∧ t.Shows collection threshold k w

/-- One call, with the clocks it reads. -/
structure RemoteBatch where
  instant : ℕ
  nowMicros : Int64
  ops : List WalOp

def allOps (bs : List RemoteBatch) : List WalOp := bs.flatMap RemoteBatch.ops

theorem remoteOps_allOps (k : String) (bs : List RemoteBatch) :
    remoteOps k (allOps bs) = (bs.map fun b => remoteOps k b.ops).flatten := by
  induction bs with
  | nil => rfl
  | cons b bs ih => simp only [allOps,List.flatMap_cons,remoteOps_append] at ih ⊢; simp [ih]

theorem StorageEngine.converged_iff {zstd : Option Zstd} {collection : String} {threshold : ℕ}
    {s t : StorageEngine} {ops : List WalOp}
    (hd : ∀ k,∀ y ∈ remoteOps k ops,∀ z ∈ remoteOps k ops,y.1 = z.1 → y = z) :
    s.Converged zstd collection threshold t ops ↔
      ∀ k,t.Shows collection threshold k (run (s.held zstd k) (remoteOps k ops)) := by
  refine forall_congr' fun k => ⟨?_,fun h => ⟨_,winner_run _ _,?_,h⟩⟩
  · rintro ⟨w,-,hrun,hshows⟩
    rwa [hrun _ (List.Perm.refl _)]
  · exact fun ops' hp => (run_perm hp.symm (hd k) _).symm

namespace Hako
variable {Ledger : Type} {env : Env Ledger} {h : Hako Ledger} {col : String} {s t : StorageEngine}

/-- Batches one after another. -/
def applyBatches (env : Env Ledger) (h : Hako Ledger) (col : String) (bs : List RemoteBatch) :
    Res (Hako Ledger) :=
  bs.foldlM (fun h b => h.applyReplicatedBatch env b.instant b.nowMicros col b.ops) h

theorem getShard_of_shardOf (hs : h.shardOf col = some s) : ∃ h1,h.getShard col = .ok (s,h1) := by
  unfold shardOf at hs
  unfold getShard
  cases hl : h.shards.lookup col with
  | some s' =>
    simp only [hl] at hs
    exact ⟨h,by simp [Option.some.inj hs]⟩
  | none =>
    simp only [hl] at hs
    cases ho : h.openShard col with
    | error e => simp [ho,Except.toOption] at hs
    | ok s' =>
      obtain rfl : s' = s := by simpa [ho,Except.toOption] using hs
      exact ⟨_,rfl⟩

/-- The shards and the settings are as they were. -/
structure Frame (h h' : Hako Ledger) : Prop where
  shards : h'.shards = h.shards
  localOnlyCols : h'.localOnlyCols = h.localOnlyCols
  config : h'.config = h.config

theorem Frame.foldl {α : Type} {f : Hako Ledger → α → Hako Ledger} (hf : ∀ h x,Frame h (f h x))
    (h : Hako Ledger) (xs : List α) : Frame h (xs.foldl f h) := by
  induction xs generalizing h with
  | nil => exact ⟨rfl,rfl,rfl⟩
  | cons x xs ih =>
    have h1 := hf h x
    have h2 := ih (f h x)
    exact ⟨h2.shards.trans h1.shards,h2.localOnlyCols.trans h1.localOnlyCols,h2.config.trans h1.config⟩

theorem observeRemoteTs_frame (nowMicros : Int64) (h : Hako Ledger) (ts : Int64) :
    Frame h (observeRemoteTs nowMicros h ts) := by
  unfold observeRemoteTs
  dsimp only
  split <;> exact ⟨rfl,rfl,rfl⟩

theorem bumpVersionsByKeys_frame (h : Hako Ledger) (keys : List String) :
    Frame h (h.bumpVersionsByKeys keys) := by
  unfold bumpVersionsByKeys
  exact Frame.foldl (fun _ _ => by constructor <;> rfl) h keys

/-- A batch for a collection that is shared changes its shard as the shard's own step says. -/
theorem applyReplicatedBatch_ok (nowMicros : Int64) (hlocal : col ∉ h.localOnlyCols)
    (hs : h.shardOf col = some s) {instant : ℕ} {ops : List WalOp} {acc : Accepted}
    (ht : s.applyReplicated env.crc env.zstd col h.config.valueBlobThresholdBytes instant ops = .ok (acc,t)) :
    ∃ h',h.applyReplicatedBatch env instant nowMicros col ops = .ok h' ∧ h'.shardOf col = some t ∧
      h'.localOnlyCols = h.localOnlyCols ∧ h'.config = h.config := by
  obtain ⟨h1,hget⟩ := getShard_of_shardOf hs
  obtain ⟨-,rfl⟩ := getShard_ok hget
  have hthr : (h.withShard col s).config = h.config := rfl
  have hwatermark := Frame.foldl (observeRemoteTs_frame nowMicros)
    {h.withShard col s with shards := (h.withShard col s).shards.insert col t}
    (List.zipWith acceptedTime acc.indexPuts acc.ops)
  have hbump := bumpVersionsByKeys_frame
    ((List.zipWith acceptedTime acc.indexPuts acc.ops).foldl (observeRemoteTs nowMicros)
      {h.withShard col s with shards := (h.withShard col s).shards.insert col t}) (acc.indexPuts.map Prod.fst)
  have hshard : ∀ h' : Hako Ledger,h'.shards = (h.withShard col s).shards.insert col t →
      h'.shardOf col = some t := by
    intro h' hh'
    simp [shardOf,hh']
  unfold applyReplicatedBatch
  simp only [if_neg hlocal,hget,hthr,ht,bind,Except.bind,pure,Except.pure]
  split
  · exact ⟨_,rfl,hshard _ hwatermark.shards,hwatermark.localOnlyCols,hwatermark.config⟩
  · have hshards := hbump.shards.trans hwatermark.shards
    have hcols := hbump.localOnlyCols.trans hwatermark.localOnlyCols
    have hconfig := hbump.config.trans hwatermark.config
    split
    · exact ⟨_,rfl,hshard _ hshards,hcols,hconfig⟩
    · exact ⟨_,rfl,hshard _ hshards,hcols,hconfig⟩

theorem allOps_concat (bs : List RemoteBatch) (b : RemoteBatch) : allOps (bs++[b]) = allOps bs++b.ops := by
  simp [allOps]

/-- The operations of a key can be told apart by their timestamps. -/
def Distinct (bs : List RemoteBatch) : Prop :=
  ∀ k,∀ y ∈ remoteOps k (allOps bs),∀ z ∈ remoteOps k (allOps bs),y.1 = z.1 → y = z

variable {bs : List RemoteBatch} {b : RemoteBatch}

theorem Distinct.of_prefix {pre : List RemoteBatch} (hd : Distinct bs) (hp : pre <+: bs) : Distinct pre := by
  obtain ⟨rest,rfl⟩ := hp
  have hsub : ∀ k x,x ∈ remoteOps k (allOps pre) → x ∈ remoteOps k (allOps (pre++rest)) := by
    intro k x hx
    rw [allOps,List.flatMap_append,remoteOps_append]
    exact List.mem_append_left _ hx
  exact fun k y hy z hz => hd k y (hsub k y hy) z (hsub k z hz)

theorem Distinct.last (hd : Distinct (bs++[b])) (k : String) :
    ∀ y ∈ remoteOps k b.ops,∀ z ∈ remoteOps k b.ops,y.1 = z.1 → y = z := by
  have hsub : ∀ x ∈ remoteOps k b.ops,x ∈ remoteOps k (allOps (bs++[b])) := by
    intro x hx
    rw [allOps_concat,remoteOps_append]
    exact List.mem_append_right _ hx
  exact fun y hy z hz => hd k y (hsub y hy) z (hsub z hz)

theorem batchesOk_remoteOps_concat {k : String} {cur : Option (ℤ × Held)} :
    BatchesOk cur ((bs++[b]).map fun b => remoteOps k b.ops) ↔
      BatchesOk cur (bs.map fun b => remoteOps k b.ops) ∧
        BatchOk (run cur (remoteOps k (allOps bs))) (remoteOps k b.ops) := by
  rw [List.map_append,List.map_singleton,batchesOk_concat,remoteOps_allOps]

/-- The state after some batches: the shard shows the registers. -/
structure Reached (env : Env Ledger) (col : String) (h : Hako Ledger) (s : StorageEngine)
    (bs : List RemoteBatch) (h' : Hako Ledger) (t : StorageEngine) : Prop where
  ok : h.applyBatches env col bs = .ok h'
  shard : h'.shardOf col = some t
  localOnlyCols : h'.localOnlyCols = h.localOnlyCols
  config : h'.config = h.config
  tracks : t.Tracks env.zstd col h.config.valueBlobThresholdBytes
    fun k => run (s.held env.zstd k) (remoteOps k (allOps bs))

/-- One more batch always succeeds, and the registers are shown if it meets the condition. -/
theorem Reached.step {h' : Hako Ledger} (hr : Reached env col h s bs h' t) (hlocal : col ∉ h.localOnlyCols)
    (hd : Distinct (bs++[b])) :
    ∃ h2 t2,h.applyBatches env col (bs++[b]) = .ok h2 ∧ h2.shardOf col = some t2 ∧
      (∀ k,t2.Shows col h.config.valueBlobThresholdBytes k
          (run (s.held env.zstd k) (remoteOps k (allOps (bs++[b])))) ↔
        BatchOk (run (s.held env.zstd k) (remoteOps k (allOps bs))) (remoteOps k b.ops)) ∧
      ((∀ k,BatchOk (run (s.held env.zstd k) (remoteOps k (allOps bs))) (remoteOps k b.ops)) →
        Reached env col h s (bs++[b]) h2 t2) := by
  obtain ⟨acc,t2,happ,ha⟩ := StorageEngine.applyReplicated_applied hr.tracks.timesReadable env.crc col
    h.config.valueBlobThresholdBytes b.instant b.ops
  obtain ⟨h2,hstep,hshard,hcols,hconfig⟩ := applyReplicatedBatch_ok b.nowMicros
    (hr.localOnlyCols ▸ hlocal) hr.shard (hr.config ▸ happ)
  have hok : h.applyBatches env col (bs++[b]) = .ok h2 := by
    have hbs : bs.foldlM (fun h b => h.applyReplicatedBatch env b.instant b.nowMicros col b.ops) h = .ok h' := hr.ok
    simp [applyBatches,List.foldlM_append,hbs,hstep,bind,Except.bind,pure,Except.pure]
  have hreg : ∀ k,run (s.held env.zstd k) (remoteOps k (allOps (bs++[b]))) =
      run (run (s.held env.zstd k) (remoteOps k (allOps bs))) (remoteOps k b.ops) := fun k => by
    rw [allOps_concat,remoteOps_append,run_append]
  have hiff : ∀ k,t2.Shows col h.config.valueBlobThresholdBytes k
      (run (s.held env.zstd k) (remoteOps k (allOps (bs++[b])))) ↔
      BatchOk (run (s.held env.zstd k) (remoteOps k (allOps bs))) (remoteOps k b.ops) := fun k => by
    rw [hreg k]
    exact hr.tracks.shows_iff ha (hd.last k)
  refine ⟨h2,t2,hok,hshard,hiff,fun hall => ⟨hok,hshard,hcols.trans hr.localOnlyCols,hconfig.trans hr.config,?_⟩⟩
  refine ⟨fun k => (hiff k).2 (hall k),fun k x hx => ?_⟩
  have hx : run (run (s.held env.zstd k) (remoteOps k (allOps bs))) (remoteOps k b.ops) = some x := hreg k ▸ hx
  exact ha.sourced (hr.tracks.sourced_run hx)

/-- A run whose batches all meet the condition shows the registers. -/
theorem reached_of_batchesOk (hlocal : col ∉ h.localOnlyCols) (hs : h.shardOf col = some s)
    (hread : s.TimesReadable env.zstd) (hd : Distinct bs)
    (hok : ∀ k,BatchesOk (s.held env.zstd k) (bs.map fun b => remoteOps k b.ops)) :
    ∃ h' t,Reached env col h s bs h' t := by
  induction bs using List.reverseRecOn with
  | nil => exact ⟨h,s,rfl,hs,rfl,rfl,StorageEngine.tracks_held hread⟩
  | append_singleton bs b ih =>
    obtain ⟨h',t,hr⟩ := ih (hd.of_prefix (List.prefix_append _ _))
      fun k => (batchesOk_remoteOps_concat.1 (hok k)).1
    obtain ⟨h2,t2,-,-,-,hreached⟩ := hr.step hlocal hd
    exact ⟨h2,t2,hreached fun k => (batchesOk_remoteOps_concat.1 (hok k)).2⟩

/-- The condition for runs of replicated batches. In every state reached the shard has converged, exactly
if every batch meets the condition on every key against what the batches before it leave. -/
theorem applyBatches_converged_iff (env : Env Ledger) (hlocal : col ∉ h.localOnlyCols) (hs : h.shardOf col = some s)
    (hread : s.TimesReadable env.zstd) {bs : List RemoteBatch}
    (hdistinct : ∀ k,((remoteOps k (allOps bs)).map Prod.fst).Nodup) :
    (∀ pre,pre <+: bs → ∃ h' t,h.applyBatches env col pre = .ok h' ∧ h'.shardOf col = some t ∧
      s.Converged env.zstd col h.config.valueBlobThresholdBytes t (allOps pre)) ↔
    ∀ k,BatchesOk (s.held env.zstd k) (bs.map fun b => remoteOps k b.ops) := by
  have hd : Distinct bs := fun k y hy z hz => List.inj_on_of_nodup_map (hdistinct k) hy hz
  clear hdistinct
  constructor
  · intro hconv
    induction bs using List.reverseRecOn with
    | nil => exact fun k => trivial
    | append_singleton bs b ih =>
      have hd' := hd.of_prefix (List.prefix_append bs [b])
      have hbs := ih hd' fun pre hp => hconv pre (hp.trans (List.prefix_append bs [b]))
      obtain ⟨h',t,hr⟩ := reached_of_batchesOk hlocal hs hread hd' hbs
      obtain ⟨h2,t2,hok,hshard,hiff,-⟩ := hr.step hlocal hd
      obtain ⟨h3,t3,hok3,hshard3,hconv3⟩ := hconv (bs++[b]) (List.prefix_refl _)
      obtain rfl := Except.ok.inj (hok.symm.trans hok3)
      obtain rfl := Option.some.inj (hshard.symm.trans hshard3)
      intro k
      exact batchesOk_remoteOps_concat.2 ⟨hbs k,(hiff k).1 ((StorageEngine.converged_iff hd).1 hconv3 k)⟩
  · intro hok pre hp
    have hokpre : ∀ k,BatchesOk (s.held env.zstd k) (pre.map fun b => remoteOps k b.ops) := by
      intro k
      obtain ⟨rest,rfl⟩ := hp
      have hk := hok k
      rw [List.map_append] at hk
      exact hk.left_of_append
    have hdpre := hd.of_prefix hp
    obtain ⟨h',t,hr⟩ := reached_of_batchesOk hlocal hs hread hdpre hokpre
    exact ⟨h',t,hr.ok,hr.shard,(StorageEngine.converged_iff hdpre).2 hr.tracks.shows⟩

def newerThenOlder : List RemoteBatch :=
  [⟨0,1000,[.putInlined "k" (HakoDoc.encode ⟨[("n",.int 1)],5⟩)]⟩,
    ⟨0,1000,[.putInlined "k" (HakoDoc.encode ⟨[],3⟩),.delete "k" 9]⟩]

theorem newerThenOlder_remoteOps (k : String) : (newerThenOlder.map fun b => remoteOps k b.ops) =
    if k = "k" then [[(5,.doc ⟨[("n",.int 1)],5⟩)],[(3,.doc ⟨[],3⟩),(9,.tombstone)]] else [[],[]] := by
  have hops : (newerThenOlder.map fun b => b.ops.filterMap remoteOp) =
      [[("k",5,.doc ⟨[("n",.int 1)],5⟩)],[("k",3,.doc ⟨[],3⟩),("k",9,.tombstone)]] := rfl
  have hmap : (newerThenOlder.map fun b => remoteOps k b.ops) =
      (newerThenOlder.map fun b => b.ops.filterMap remoteOp).map (onKey k) := by
    rw [List.map_map]
    rfl
  rw [hmap,hops]
  by_cases hk : k = "k"
  · simp [onKey,hk]
  · simp [onKey,hk,Ne.symm hk]

theorem applyBatches_converged_iff_newerThenOlder :
    (∀ k,((remoteOps k (allOps newerThenOlder)).map Prod.fst).Nodup) ∧
    (∀ k,BatchesOk ((StorageEngine.fresh .default "c" none 0).held none k)
      (newerThenOlder.map fun b => remoteOps k b.ops)) ∧
    ∀ pre,pre <+: newerThenOlder → ∃ h' t,(oneCollection "c").applyBatches plainEnv "c" pre = .ok h' ∧
      h'.shardOf "c" = some t ∧
      (StorageEngine.fresh .default "c" none 0).Converged none "c" HakoConfig.default.valueBlobThresholdBytes t
        (allOps pre) := by
  have hlookup : ∀ k,(StorageEngine.fresh .default "c" none 0).index.lookup k = none := fun k => by
    simp [StorageEngine.fresh,StorageEngine.unrecovered]
  have hheld : ∀ k,(StorageEngine.fresh .default "c" none 0).held none k = none := fun k => by
    simp [StorageEngine.held,hlookup]
  have hdistinct : ∀ k,((remoteOps k (allOps newerThenOlder)).map Prod.fst).Nodup := fun k => by
    rw [remoteOps_allOps,newerThenOlder_remoteOps]
    split
    · decide
    · simp
  have hok : ∀ k,BatchesOk ((StorageEngine.fresh .default "c" none 0).held none k)
      (newerThenOlder.map fun b => remoteOps k b.ops) := fun k => by
    rw [hheld,newerThenOlder_remoteOps]
    split
    · exact ⟨by decide,by decide,trivial⟩
    · exact ⟨by decide,by decide,trivial⟩
  have hread : (StorageEngine.fresh .default "c" none 0).TimesReadable none := fun k p hp => by
    simp [hlookup] at hp
  exact ⟨hdistinct,hok,(applyBatches_converged_iff plainEnv (h := oneCollection "c") (by decide) rfl hread
    hdistinct).2 hok⟩

def newerDoc : HakoDoc := ⟨[("n",.int 2)],20⟩

def olderDoc : HakoDoc := ⟨[("n",.int 1)],10⟩

/-- Both puts are newer than the missing entry, and the older one is applied last. -/
def olderLast : List WalOp := [.putInlined "k" newerDoc.encode,.putInlined "k" olderDoc.encode]

theorem applyBatches_olderLast :
    (((oneCollection "c").applyBatches plainEnv "c" [⟨0,1000,olderLast⟩]).toOption.bind
      fun h => (h.shardOf "c").map fun t => t.index.lookup "k") = some (some (.inlined olderDoc.encode)) ∧
    ¬∃ h' t,(oneCollection "c").applyBatches plainEnv "c" [⟨0,1000,olderLast⟩] = .ok h' ∧
      h'.shardOf "c" = some t ∧
      (StorageEngine.fresh .default "c" none 0).Converged none "c" HakoConfig.default.valueBlobThresholdBytes t
        olderLast := by
  have hleft : (((oneCollection "c").applyBatches plainEnv "c" [⟨0,1000,olderLast⟩]).toOption.bind
      fun h => (h.shardOf "c").map fun t => t.index.lookup "k") = some (some (.inlined olderDoc.encode)) := by
    decide
  refine ⟨hleft,?_⟩
  rintro ⟨h',t,hok,hshard,hconv⟩
  have hlookup : t.index.lookup "k" = some (.inlined olderDoc.encode) := by
    simpa [hok,hshard,Except.toOption] using hleft
  obtain ⟨w,-,hrun,hshows⟩ := hconv "k"
  have hw : w = some (20,.doc newerDoc) := (hrun _ (List.Perm.refl _)).symm
  subst hw
  have hnewer : newerDoc.Encodable := by
    simp [newerDoc,HakoDoc.Encodable,FieldsEncodable,Value.Encodable]
    decide
  have htime := StorageEngine.held_time none hshows fun x hx => Option.some.inj hx ▸ hnewer
  have hheld : (t.held none "k").map Prod.fst = some 10 := by
    rw [StorageEngine.held,hlookup]
    rfl
  rw [hheld] at htime
  exact absurd htime (by decide)

end Hako

end HakoDB

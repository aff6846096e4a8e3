import HakoDB.Engine.Denied
import HakoDB.Storage.Housekeeping
import HakoDB.Storage.Resolve
import HakoDB.Sync.Convergence

/-! Operations that arrive over the cloud. One is taken if it is newer than the live document that a read
shows before the flush; the taken ones are then logged and applied in the order of their arrival. -/
namespace HakoDB
open ByteCodec HashMap Attempt LastWriter

structure IngestItem where
  op : WalOp
  senderClientId : Option String

/-- The document of a put, for the indexes. -/
def indexPut : WalOp → Option (String × HakoDoc)
  | .putInlined key value => (HakoDoc.decode value).map fun doc => (key,doc)
  | _ => none

namespace Guarded
variable {Ledger : Type}

def isCollectionEncrypted (g : Guarded Ledger) (col : String) : Bool := (g.encryptionFor col).isSome

/-- Operations on a collection that is encrypted here are taken from senders with the same key only. -/
def fromVerified (g : Guarded Ledger) (verified : String → Bool) (col : String) (item : IngestItem) : Bool :=
  !g.isCollectionEncrypted col || item.senderClientId.all verified

/-- What a read shows of a document; an error counts as no document. -/
def existing (zstd : Option Zstd) (col key : String) : M Ledger (Option HakoDoc) :=
  ofStep fun g => (after (getDoc zstd col key) g,
    match result (getDoc zstd col key) g with
    | .ok doc => .ok doc
    | .error (.error _) => .ok none
    | .error .panic => .error .panic)

def observeRemoteTs (nowMicros ts : Int64) : M Ledger Unit :=
  modify fun g => {g with hako := g.hako.observeRemoteTs nowMicros ts}

/-- The check of an operation against the document that is there. -/
def takeIfNewer (zstd : Option Zstd) (nowMicros : Int64) (col key : String) (ts : Int64) (op : WalOp) :
    M Ledger (Option WalOp) := do
  let doc ← existing zstd col key
  if doc.any fun d => decide (ts ≤ d.getLogicalTime) then return none
  else do
    observeRemoteTs nowMicros ts
    return some op

def acceptItem (zstd : Option Zstd) (verified : String → Bool) (nowMicros : Int64) (col : String)
    (item : IngestItem) : M Ledger (Option WalOp) := do
  let g ← get
  if !g.fromVerified verified col item then return none
  else match item.op with
    | .putInlined key value =>
      let ts := ((HakoDoc.decode value).map HakoDoc.getLogicalTime).getD 0
      if ts = 0 then return none else takeIfNewer zstd nowMicros col key ts (.putInlined key value)
    | .delete key timestamp => takeIfNewer zstd nowMicros col key timestamp (.delete key timestamp)
    | _ => return none

def pushItem (zstd : Option Zstd) (verified : String → Bool) (nowMicros : Int64) (col : String)
    (ops : List WalOp) (item : IngestItem) : M Ledger (List WalOp) := do
  let op ← acceptItem zstd verified nowMicros col item
  return ops++op.toList

def acceptItems (zstd : Option Zstd) (verified : String → Bool) (nowMicros : Int64) (col : String)
    (items : List IngestItem) : M Ledger (List WalOp) :=
  items.foldlM (pushItem zstd verified nowMicros col) []

/-- The taken operations are applied as they are; a shard that does not open takes none. -/
def applyTimestamped (env : Env Ledger) (instant : ℕ) (col : String) (ops : List WalOp) : M Ledger Unit :=
  ofStep fun g =>
    match g.hako.getShard col with
    | .error .panic => (g,.error .panic)
    | .error (.error _) => (g,.ok ())
    | .ok (s,h) =>
      let h := {h with shards := h.shards.insert col (s.applyTimestamped env.crc instant ops)}
      let h := h.bumpVersionsByKeys (ops.filterMap WalOp.key?)
      let docs := ops.filterMap indexPut
      ({g with hako := if docs = [] then h else {h with indexQueue := h.indexQueue++[⟨col,docs,[]⟩]}},.ok ())

/-- The buffered operations of one collection. -/
def flushCollection (env : Env Ledger) (verified : String → Bool) (instant : ℕ) (nowMicros : Int64) (col : String)
    (items : List IngestItem) : M Ledger Unit := do
  let g ← get
  if items.isEmpty || g.isCollectionLocal col || g.isSyncWithheld col then return
  else do
    let ops ← acceptItems env.zstd verified nowMicros col items
    if ops.isEmpty then return else applyTimestamped env instant col ops

/-- The buffer by collection, as the loop over it meets them. -/
def flushIngestBuffer (env : Env Ledger) (verified : String → Bool) (instant : ℕ) (nowMicros : Int64)
    (buffer : List (String × List IngestItem)) : M Ledger Unit :=
  buffer.forM fun e => flushCollection env verified instant nowMicros e.1 e.2

/-- The operations that the collection may take: none if it is local or kept out of the replication, else
those of verified senders. -/
def admitted (g : Guarded Ledger) (verified : String → Bool) (col : String) (items : List IngestItem) : List WalOp :=
  if g.isCollectionLocal col || g.isSyncWithheld col then []
  else (items.filter (g.fromVerified verified col)).map IngestItem.op

end Guarded

/-- An operation as an entry of its key with its timestamp; what does not decode is no operation. -/
def cloudEntry : WalOp → Option (String × ℤ × Pointer)
  | .putInlined key value => (HakoDoc.decode value).map fun d => (key,d.getLogicalTime.toInt,.inlined value)
  | .delete key timestamp => some (key,timestamp.toInt,.deleted timestamp)
  | _ => none

def cloudOps (key : String) (ops : List WalOp) : List (ℤ × Pointer) :=
  ((ops.filterMap cloudEntry).filter fun x => x.1 = key).map Prod.snd

/-- Neither a put without a timestamp nor older than the document it is checked against. -/
def Taken (checked : Option ℤ) (x : ℤ × Pointer) : Prop := ¬(x.1 = 0 ∧ x.2.isLive = true) ∧ ∀ t ∈ checked,t < x.1

instance (checked : Option ℤ) (x : ℤ × Pointer) : Decidable (Taken checked x) := by
  unfold Taken
  infer_instance

def takenOps (checked : Option ℤ) (ops : List (ℤ × Pointer)) : List (ℤ × Pointer) := ops.filter fun x => Taken checked x

/-- The check of an operation, given what the keys are checked against. -/
def takes (checked : String → Option ℤ) (op : WalOp) : Bool :=
  match cloudEntry op with
  | some (key,x) => Taken (checked key) x
  | none => false

/-- Of the operations that are taken the last has the greatest timestamp, and it is not older than the entry of
the key; a put without a timestamp, which is passed over, does not beat them all. -/
structure FlushOk (cur : Option (ℤ × Pointer)) (checked : Option ℤ) (ops : List (ℤ × Pointer)) : Prop where
  last : ∀ x,(takenOps checked ops).getLast? = some x →
    (∀ y ∈ takenOps checked ops,y.1 ≤ x.1) ∧ ∀ c ∈ cur,c.1 ≤ x.1
  unstamped : ∀ y ∈ ops,y.1 = 0 → y.2.isLive = true →
    (∃ c ∈ cur,0 ≤ c.1) ∨ ∃ x ∈ takenOps checked ops,0 ≤ x.1

/-- The writes of the operations that are taken, by key. -/
theorem lastValue_takes (checked : String → Option ℤ) (key : String) (ops : List WalOp) :
    lastValue key ((ops.filter (takes checked)).filterMap StorageEngine.timestampedEntry) =
      (takenOps (checked key) (cloudOps key ops)).getLast?.map Prod.snd := by
  have hwrites : (ops.filter (takes checked)).filterMap StorageEngine.timestampedEntry =
      ((ops.filterMap cloudEntry).filter fun e => Taken (checked e.1) e.2).map fun e => (e.1,e.2.2) := by
    induction ops with
    | nil => rfl
    | cons op ops ih =>
      rw [List.filter_cons,List.filterMap_cons]
      cases hop : cloudEntry op with
      | none => simpa [takes,hop] using ih
      | some e =>
        have hentry : StorageEngine.timestampedEntry op = some (e.1,e.2.2) := by
          cases op with
          | putInlined k value =>
            obtain ⟨d,-,rfl⟩ := Option.map_eq_some_iff.1 hop
            rfl
          | delete k ts =>
            cases hop
            rfl
          | _ => cases hop
        by_cases ht : Taken (checked e.1) e.2
        · simp [takes,hop,ht,hentry,ih]
        · simp [takes,hop,ht,ih]
  rw [hwrites,lastValue_map,takenOps,cloudOps,List.filter_map,List.getLast?_map,Option.map_map]
  simp only [List.filter_filter,Function.comp_def]
  congr 2
  refine List.filter_congr fun e _ => ?_
  by_cases hk : e.1 = key
  · simp [hk]
  · simp [hk]

section register
variable {cur : Option (ℤ × Pointer)} {checked : Option ℤ} {ops : List (ℤ × Pointer)}

theorem not_taken {x : ℤ × Pointer} (hcur : ∀ t ∈ checked,∃ c ∈ cur,c.1 = t) (h : ¬Taken checked x) :
    x.1 = 0 ∧ x.2.isLive = true ∨ ∃ c ∈ cur,x.1 ≤ c.1 := by
  by_cases hput : x.1 = 0 ∧ x.2.isLive = true
  · exact .inl hput
  · have hold : ¬∀ t ∈ checked,t < x.1 := fun hall => h ⟨hput,hall⟩
    push Not at hold
    obtain ⟨t,ht,hle⟩ := hold
    obtain ⟨c,hc,rfl⟩ := hcur t ht
    exact .inr ⟨c,hc,hle⟩

/-- The condition says that the last operation taken, or else the entry, has the greatest timestamp. -/
theorem flushOk_iff_winner (hcur : ∀ t ∈ checked,∃ c ∈ cur,c.1 = t) :
    FlushOk cur checked ops ↔ Winner cur ops ((takenOps checked ops).getLast?.or cur) := by
  have hsplit : ∀ y ∈ ops,y ∈ takenOps checked ops ∨ y.1 = 0 ∧ y.2.isLive = true ∨ ∃ c ∈ cur,y.1 ≤ c.1 := by
    intro y hy
    by_cases ht : Taken checked y
    · exact .inl (List.mem_filter.2 ⟨hy,by simpa using ht⟩)
    · exact .inr (not_taken hcur ht)
  rcases hlast : (takenOps checked ops).getLast? with _ | x
  · have hnone : takenOps checked ops = [] := List.getLast?_eq_none_iff.1 hlast
    rw [Option.none_or]
    constructor
    · intro h
      -- every operation is matched by the entry
      have hbeaten : ∀ y ∈ ops,∃ c ∈ cur,y.1 ≤ c.1 := by
        intro y hy
        rcases hsplit y hy with hy' | ⟨hzero,hlive⟩ | hc
        · simp [hnone] at hy'
        · rcases h.unstamped y hy hzero hlive with ⟨c,hc,hle⟩ | ⟨x,hx,-⟩
          · exact ⟨c,hc,hzero ▸ hle⟩
          · simp [hnone] at hx
        · exact hc
      cases cur with
      | none =>
        refine ⟨rfl,List.eq_nil_iff_forall_not_mem.2 fun y hy => ?_⟩
        obtain ⟨c,hc,-⟩ := hbeaten y hy
        cases hc
      | some c =>
        refine ⟨.inl rfl,fun c' hc' => by cases hc'; exact le_rfl,fun y hy => ?_⟩
        obtain ⟨c',hc',hle⟩ := hbeaten y hy
        cases hc'
        exact hle
    · intro hw
      refine ⟨fun x hx => by simp [hlast] at hx,fun y hy hzero _ => .inl ?_⟩
      cases cur with
      | none =>
        rw [hw.2] at hy
        cases hy
      | some c => exact ⟨c,rfl,hzero ▸ hw.2.2 y hy⟩
  · have hmem : x ∈ takenOps checked ops := List.mem_of_getLast? hlast
    rw [Option.some_or]
    constructor
    · intro h
      obtain ⟨hgreatest,hcurle⟩ := h.last x hlast
      refine ⟨.inr (List.mem_filter.1 hmem).1,hcurle,fun y hy => ?_⟩
      rcases hsplit y hy with hy' | ⟨hzero,hlive⟩ | ⟨c,hc,hle⟩
      · exact hgreatest y hy'
      · rcases h.unstamped y hy hzero hlive with ⟨c,hc,hle⟩ | ⟨z,hz,hle⟩
        · exact hzero ▸ hle.trans (hcurle c hc)
        · exact hzero ▸ hle.trans (hgreatest z hz)
      · exact hle.trans (hcurle c hc)
    · intro hw
      refine ⟨fun z hz => ?_,fun y hy hzero _ => .inr ⟨x,hmem,hzero ▸ hw.2.2 y hy⟩⟩
      obtain rfl := Option.some.inj (hlast.symm.trans hz)
      exact ⟨fun y hy => hw.2.2 y (List.mem_filter.1 hy).1,hw.2.1⟩

end register

namespace StorageEngine

def entryTime (zstd : Option Zstd) (s : StorageEngine) (p : Pointer) : ℤ :=
  ((s.pointerTime zstd p).toOption.getD 0).toInt

/-- The entry of a key with its timestamp. -/
def stamped (zstd : Option Zstd) (s : StorageEngine) (key : String) : Option (ℤ × Pointer) :=
  (s.index.lookup key).map fun p => (s.entryTime zstd p,p)

/-- The timestamp that an operation is checked against: that of a live document which may be read. -/
def checkedTime (zstd : Option Zstd) (allowed : Bool) (s : StorageEngine) (key : String) : Option ℤ :=
  if allowed then ((s.stamped zstd key).filter fun x => x.2.isLive).map Prod.fst else none

/-- Every key has ended with the newest of its entry and the operations. -/
def NewestWins (zstd : Option Zstd) (s t : StorageEngine) (ops : List WalOp) : Prop :=
  ∀ key,∃ w,Winner (s.stamped zstd key) (cloudOps key ops) w ∧ t.index.lookup key = w.map Prod.snd

/-- Every live entry shows a document. -/
def DocsReadable (zstd : Option Zstd) (s : StorageEngine) : Prop :=
  ∀ key p,s.index.lookup key = some p → p.isLive = true → ∃ d,s.resolved zstd key = .ok (some d)

variable {zstd : Option Zstd} {s : StorageEngine}
variable {doc d : HakoDoc} {key : String} {allowed : Bool} {ops : List WalOp} {x : ℤ × Pointer}

theorem pointerTime_of_reads {p : Pointer} (h : s.ReadsDoc zstd p doc) :
    s.pointerTime zstd p = .ok doc.time := by
  obtain ⟨bytes,hread,hdecode⟩ := h
  cases p with
  | deleted ts => cases hread
  | inlined data =>
    obtain rfl := Option.some.inj (Except.ok.inj hread)
    obtain ⟨hlen,htime⟩ := HakoDoc.time_of_decode hdecode
    rw [pointerTime,if_neg (by omega),htime]
  | segment id offset len => simp [pointerTime,hread,hdecode,HakoDoc.getLogicalTime]
  | blob offset len => simp [pointerTime,hread,hdecode,HakoDoc.getLogicalTime]
  | blobPending doc => simp [pointerTime,hread,hdecode,HakoDoc.getLogicalTime]
  | blobPendingData data skeleton => simp [pointerTime,hread,hdecode,HakoDoc.getLogicalTime]

theorem time_of_applyBlobSnapshot {state : Option BlobManager × List (UInt64 × Bytes)}
    (h : applyBlobSnapshot state doc = .ok d) : d.time = doc.time := by
  unfold applyBlobSnapshot at h
  split at h
  · cases h
    rfl
  · split at h
    · cases h
    · cases h
      rfl

/-- The document that a read shows carries the timestamp of its entry. -/
theorem stamped_of_resolved (h : s.resolved zstd key = .ok (some d)) :
    ∃ p,s.stamped zstd key = some (d.time.toInt,p) ∧ p.isLive = true := by
  obtain ⟨p,doc,hp,hreads,happly⟩ := resolved_eq_some h
  refine ⟨p,?_,?_⟩
  · rw [stamped,hp,Option.map_some,entryTime,pointerTime_of_reads hreads,time_of_applyBlobSnapshot happly]
    rfl
  · cases p with
    | deleted ts =>
      obtain ⟨bytes,hread,-⟩ := hreads
      cases hread
    | _ => rfl

/-- A read shows the document of a live entry, with the entry's timestamp, and nothing else. -/
theorem resolved_shown (hread : s.DocsReadable zstd) (key : String) :
    ∃ d,s.resolved zstd key = .ok d ∧
      d.map (fun d => d.getLogicalTime.toInt) = s.checkedTime zstd true key := by
  have hnone : ∀ b,s.get zstd key = .ok none → s.stamped zstd key = b → (∀ x ∈ b,x.2.isLive = false) →
      ∃ d,s.resolved zstd key = .ok d ∧ d.map (fun d => d.getLogicalTime.toInt) = s.checkedTime zstd true key := by
    intro b hget hb hdead
    refine ⟨none,by simp only [resolved,hget,bind,Except.bind]; rfl,?_⟩
    rw [checkedTime,if_pos rfl,hb,Option.filter_eq_none_iff.2 fun x hx => by simp [hdead x hx]]
    rfl
  cases hp : s.index.lookup key with
  | none => exact hnone none (by rw [get,hp]) (by rw [stamped,hp]; rfl) (by simp)
  | some p =>
    cases hlive : p.isLive with
    | false =>
      cases p with
      | deleted ts =>
        refine hnone _ (by rw [get,hp]; rfl) rfl fun x hx => ?_
        rw [stamped,hp] at hx
        cases hx
        rfl
      | _ => cases hlive
    | true =>
      obtain ⟨d,hd⟩ := hread key p hp hlive
      obtain ⟨p',hstamped,hlive'⟩ := stamped_of_resolved hd
      refine ⟨some d,hd,?_⟩
      rw [checkedTime,if_pos rfl,hstamped]
      simp [hlive',HakoDoc.getLogicalTime]

theorem checkedTime_mem {ts : ℤ} (h : ts ∈ s.checkedTime zstd allowed key) :
    ∃ c ∈ s.stamped zstd key,c.1 = ts := by
  unfold checkedTime at h
  split at h
  · obtain ⟨c,hc,rfl⟩ := Option.map_eq_some_iff.1 h
    exact ⟨c,(Option.filter_eq_some_iff.1 hc).1,rfl⟩
  · cases h

/-- An operation has the timestamp that its entry will have. -/
theorem mem_cloudOps_time (hx : x ∈ cloudOps key ops) :
    x.1 = s.entryTime zstd x.2 := by
  obtain ⟨e,he,rfl⟩ := List.mem_map.1 hx
  obtain ⟨op,-,hop⟩ := List.mem_filterMap.1 (List.mem_filter.1 he).1
  cases op with
  | putInlined k value =>
    obtain ⟨d,hd,rfl⟩ := Option.map_eq_some_iff.1 hop
    have hreads : s.ReadsDoc zstd (.inlined value) d := ⟨value,rfl,hd⟩
    rw [entryTime,pointerTime_of_reads hreads]
    rfl
  | delete k ts =>
    cases hop
    rfl
  | _ => cases hop

/-- Two of an entry and the operations on its key are the same if they leave the same entry. -/
theorem eq_of_sameEntry {y : ℤ × Pointer} (hx : x ∈ s.stamped zstd key ∨ x ∈ cloudOps key ops)
    (hy : y ∈ s.stamped zstd key ∨ y ∈ cloudOps key ops) (h : x.2 = y.2) : x = y := by
  have htime : ∀ z,z ∈ s.stamped zstd key ∨ z ∈ cloudOps key ops → z.1 = s.entryTime zstd z.2 := by
    rintro z (hz | hz)
    · obtain ⟨p,-,rfl⟩ := Option.map_eq_some_iff.1 hz
      rfl
    · exact mem_cloudOps_time hz
  exact Prod.ext (by rw [htime x hx,htime y hy,h]) h

theorem newestWins_iff {t : StorageEngine}
    (ht : ∀ key,t.index.lookup key = ((takenOps (s.checkedTime zstd allowed key) (cloudOps key ops)).getLast?.map
      Prod.snd).or (s.index.lookup key)) :
    s.NewestWins zstd t ops ↔
      ∀ key,FlushOk (s.stamped zstd key) (s.checkedTime zstd allowed key) (cloudOps key ops) := by
  refine forall_congr' fun key => ?_
  rw [flushOk_iff_winner fun ts hts => checkedTime_mem hts,ht key]
  have hentry : s.index.lookup key = (s.stamped zstd key).map Prod.snd := by
    simp [stamped,Function.comp_def]
  rw [hentry,← Option.map_or]
  have hmem : ∀ x,(takenOps (s.checkedTime zstd allowed key) (cloudOps key ops)).getLast?.or (s.stamped zstd key) = some x →
      x ∈ s.stamped zstd key ∨ x ∈ cloudOps key ops := by
    intro x hx
    rcases Option.or_eq_some_iff.1 hx with hlast | ⟨-,hcur⟩
    · exact .inr (List.mem_filter.1 (List.mem_of_getLast? hlast)).1
    · exact .inl hcur
  constructor
  · rintro ⟨w,hw,hsnd⟩
    suffices hr : (takenOps (s.checkedTime zstd allowed key) (cloudOps key ops)).getLast?.or (s.stamped zstd key) = w by
      rwa [hr]
    generalize (takenOps (s.checkedTime zstd allowed key) (cloudOps key ops)).getLast?.or (s.stamped zstd key) = r
      at hsnd hmem
    cases r with
    | none => exact (Option.map_eq_none_iff.1 hsnd.symm).symm
    | some x =>
      obtain ⟨y,rfl,hy⟩ := Option.map_eq_some_iff.1 hsnd.symm
      rw [eq_of_sameEntry (hmem x rfl) hw.1 hy.symm]
  · exact fun hw => ⟨_,hw,rfl⟩

end StorageEngine

namespace Guarded
variable {Ledger : Type} {g g' : Guarded Ledger} {col : String} {s : StorageEngine}

/-- The collection shows this shard; one without a directory has nothing in it. -/
structure Sees (g : Guarded Ledger) (col : String) (s : StorageEngine) : Prop where
  shard : g.hako.shardOf col = some s
  new : g.onDisk col = false → ∀ key,s.index.lookup key = none

/-- Nothing but the collection has changed, apart from versions, watermark and index queue. -/
structure Within (col : String) (g g' : Guarded Ledger) : Prop where
  rest : g' = {g with hako := g'.hako}
  shardOf : ∀ c,c ≠ col → g'.hako.shardOf c = g.hako.shardOf c
  loaded : ∀ c,c ≠ col → g'.hako.shards.lookup c = g.hako.shards.lookup c
  kept : (g.hako.shards.lookup col).isSome → (g'.hako.shards.lookup col).isSome
  localOnlyCols : g'.hako.localOnlyCols = g.hako.localOnlyCols

namespace Within

theorem refl (g : Guarded Ledger) : Within col g g := ⟨rfl,fun _ _ => rfl,fun _ _ => rfl,id,rfl⟩

theorem trans {g'' : Guarded Ledger} (ha : Within col g g') (hb : Within col g' g'') : Within col g g'' where
  rest := by
    rw [hb.rest,ha.rest]
  shardOf c hc := (hb.shardOf c hc).trans (ha.shardOf c hc)
  loaded c hc := (hb.loaded c hc).trans (ha.loaded c hc)
  kept := fun h => hb.kept (ha.kept h)
  localOnlyCols := hb.localOnlyCols.trans ha.localOnlyCols

/-- A step that leaves the table of shards alone. -/
theorem of_frame {h : Hako Ledger} (hframe : Hako.Frame g.hako h) (hshards : Hako.SameShards g.hako h) :
    Within col g {g with hako := h} :=
  ⟨rfl,fun c _ => congrFun hshards.shardOf c,fun c _ => by rw [hframe.shards],fun hl => by rwa [hframe.shards],
    hframe.localOnlyCols⟩

theorem observeRemoteTs (nowMicros ts : Int64) (g : Guarded Ledger) :
    Within col g {g with hako := g.hako.observeRemoteTs nowMicros ts} :=
  of_frame (Hako.observeRemoteTs_frame nowMicros g.hako ts) (Hako.SameShards.observeRemoteTs nowMicros g.hako ts)

theorem of_withShard (t : StorageEngine) : Within col g {g with hako := g.hako.withShard col t} where
  rest := rfl
  shardOf c hc := by
    show (g.hako.withShard col t).shardOf c = _
    rw [Hako.shardOf_withShard,if_neg hc]
  loaded c hc := by
    show (g.hako.shards.insert col t).lookup c = _
    rw [lookup_insert_ite,if_neg hc]
  kept _ := by
    show ((g.hako.shards.insert col t).lookup col).isSome = true
    rw [lookup_insert_ite,if_pos rfl]
    rfl
  localOnlyCols := rfl

theorem onDisk (h : Within col g g') (hd : g.onDisk col = true) : g'.onDisk col = true := by
  unfold Guarded.onDisk at hd ⊢
  rw [Bool.or_eq_true] at hd ⊢
  have hdirs : g'.dirs = g.dirs := by rw [h.rest]
  rw [hdirs]
  exact hd.imp id h.kept

theorem allowed (h : Within col g g') (c : String) (op : AccessOp) : g'.allowed c op = g.allowed c op := by
  rw [h.rest]
  rfl

theorem fromVerified (h : Within col g g') (verified : String → Bool) (c : String) :
    g'.fromVerified verified c = g.fromVerified verified c := by
  rw [h.rest]
  rfl

theorem isCollectionLocal (h : Within col g g') (c : String) : g'.isCollectionLocal c = g.isCollectionLocal c := by
  rw [Guarded.isCollectionLocal,h.localOnlyCols]
  rfl

/-- The other collections see nothing of the step. -/
theorem sees_other (h : Within col g g') {c : String} (hc : c ≠ col) (hs : g.Sees c s) : g'.Sees c s := by
  refine ⟨(h.shardOf c hc).trans hs.shard,fun hdisk => hs.new ?_⟩
  rw [← hdisk,h.rest]
  simp only [Guarded.onDisk,h.loaded c hc]

theorem isSyncWithheld_other (h : Within col g g') {c : String} (hc : c ≠ col) :
    g'.isSyncWithheld c = g.isSyncWithheld c := by
  rw [h.rest]
  simp only [Guarded.isSyncWithheld,Guarded.isSyncExcludedEffective,Guarded.isLazyUnloaded,h.loaded c hc]

end Within

/-- The step changes nothing that the collection shows. -/
theorem Sees.of_within (hs : g.Sees col s) (h : Within col g g') (hsame : g'.hako.shardOf col = g.hako.shardOf col) :
    g'.Sees col s := by
  refine ⟨hsame.trans hs.shard,fun hdisk => hs.new ?_⟩
  by_contra hd
  rw [h.onDisk (by simpa using hd)] at hdisk
  cases hdisk

theorem Sees.observeRemoteTs (hs : g.Sees col s) (nowMicros ts : Int64) :
    Sees {g with hako := g.hako.observeRemoteTs nowMicros ts} col s := by
  refine hs.of_within (.observeRemoteTs nowMicros ts g) ?_
  have hsame := (Hako.SameShards.observeRemoteTs nowMicros g.hako ts).shardOf
  generalize g.hako.observeRemoteTs nowMicros ts = h at hsame ⊢
  exact congrFun hsame col

/-- A read finds the shard loaded, opens it now, or there is nothing to open. -/
theorem Sees.tryGetShardOnDisk (hs : g.Sees col s) :
    ∃ o h',g.hako.tryGetShardOnDisk g.onDisk col = .ok (o,h') ∧ Within col g {g with hako := h'} ∧
      Sees {g with hako := h'} col s ∧ (o = some s ∨ o = none ∧ ∀ key,s.index.lookup key = none) := by
  unfold Hako.tryGetShardOnDisk
  cases hl : g.hako.shards.lookup col with
  | some s' =>
    obtain rfl : s' = s := by simpa [Hako.shardOf,hl] using hs.shard
    exact ⟨some s',g.hako,rfl,.refl g,hs,.inl rfl⟩
  | none =>
    by_cases hdisk : g.onDisk col = true
    · obtain ⟨h1,hget⟩ := Hako.getShard_of_shardOf hs.shard
      obtain ⟨-,rfl⟩ := Hako.getShard_ok hget
      refine ⟨some s,_,by simp only [hdisk,if_true,hget]; rfl,.of_withShard s,?_,.inl rfl⟩
      exact hs.of_within (.of_withShard s) (by rw [Hako.shardOf_withShard,if_pos rfl,hs.shard])
    · exact ⟨none,g.hako,by simp [hdisk],.refl g,hs,.inr ⟨rfl,hs.new (by simpa using hdisk)⟩⟩

section checks
variable {zstd : Option Zstd} (hread : s.DocsReadable zstd)
include hread

theorem existing_spec (hs : g.Sees col s) (key : String) :
    ∃ d,result (existing zstd col key) g = .ok d ∧
      d.map (fun d => d.getLogicalTime.toInt) = s.checkedTime zstd (g.allowed col .get) key ∧
      Within col g (after (existing zstd col key) g) ∧ (after (existing zstd col key) g).Sees col s := by
  cases hallowed : g.allowed col .get with
  | false =>
    have hget : getDoc zstd col key g = (.error (.error (.corrupt "Denied")),g) := by
      rw [getDoc,get_bind_apply,hallowed]
      rfl
    refine ⟨none,?_,rfl,?_,?_⟩
    · simp [existing,result,ofStep,hget]
    · simpa [existing,ofStep,after,hget] using Within.refl g
    · simpa [existing,ofStep,after,hget] using hs
  | true =>
    have hgetDoc : getDoc zstd col key g = read zstd col key g := by
      rw [getDoc,get_bind_apply,hallowed]
      rfl
    obtain ⟨o,h',htry,hwithin,hsees,ho⟩ := hs.tryGetShardOnDisk
    have hshown : ∃ d,read zstd col key g = (.ok d,{g with hako := h'}) ∧
        d.map (fun d => d.getLogicalTime.toInt) = s.checkedTime zstd true key := by
      rcases ho with rfl | ⟨rfl,hnone⟩
      · obtain ⟨d,hd,htime⟩ := StorageEngine.resolved_shown hread key
        exact ⟨d,by simp [read,ofStep,htry,hd],htime⟩
      · refine ⟨none,by simp [read,ofStep,htry],?_⟩
        simp [StorageEngine.checkedTime,StorageEngine.stamped,hnone key]
    obtain ⟨d,hr,htime⟩ := hshown
    refine ⟨d,?_,htime,?_,?_⟩
    · simp [existing,result,ofStep,hgetDoc,hr]
    · simpa [existing,ofStep,after,hgetDoc,hr] using hwithin
    · simpa [existing,ofStep,after,hgetDoc,hr] using hsees

omit hread in
theorem result_observeRemoteTs (nowMicros ts : Int64) (g : Guarded Ledger) :
    result (observeRemoteTs nowMicros ts) g = .ok () := rfl

omit hread in
theorem after_observeRemoteTs (nowMicros ts : Int64) (g : Guarded Ledger) :
    after (observeRemoteTs nowMicros ts) g = {g with hako := g.hako.observeRemoteTs nowMicros ts} := rfl

theorem takeIfNewer_spec (hs : g.Sees col s) (nowMicros : Int64) {key : String} {ts : Int64} {op : WalOp} {p : Pointer}
    (hop : cloudEntry op = some (key,ts.toInt,p)) (hput : ¬(ts.toInt = 0 ∧ p.isLive = true)) :
    result (takeIfNewer zstd nowMicros col key ts op) g =
        .ok (if takes (s.checkedTime zstd (g.allowed col .get)) op then some op else none) ∧
      Within col g (after (takeIfNewer zstd nowMicros col key ts op) g) ∧
      (after (takeIfNewer zstd nowMicros col key ts op) g).Sees col s := by
  obtain ⟨d,hr,htime,hwithin,hsees⟩ := existing_spec hread hs key
  have hany : (d.any fun d => decide (ts ≤ d.getLogicalTime)) =
      !takes (s.checkedTime zstd (g.allowed col .get)) op := by
    simp only [takes,hop,Taken,hput,not_false_eq_true,true_and,← htime]
    cases d with
    | none => simp
    | some d =>
      by_cases hlt : d.getLogicalTime.toInt < ts.toInt
      · simp [Int64.le_iff_toInt_le,hlt]
      · simp [Int64.le_iff_toInt_le,not_lt.1 hlt]
  rw [takeIfNewer,result_bind,after_bind,hr]
  simp only [hany]
  cases takes (s.checkedTime zstd (g.allowed col .get)) op with
  | false => exact ⟨rfl,hwithin,hsees⟩
  | true =>
    generalize after (existing zstd col key) g = g1 at hwithin hsees ⊢
    simp only [Bool.not_true,Bool.false_eq_true,if_false,result_bind,after_bind,result_observeRemoteTs,
      after_observeRemoteTs]
    exact ⟨rfl,hwithin.trans (.observeRemoteTs nowMicros ts g1),hsees.observeRemoteTs nowMicros ts⟩

theorem acceptItem_spec (hs : g.Sees col s) (verified : String → Bool) (nowMicros : Int64) (item : IngestItem) :
    result (acceptItem zstd verified nowMicros col item) g =
        .ok (if g.fromVerified verified col item && takes (s.checkedTime zstd (g.allowed col .get)) item.op
          then some item.op else none) ∧
      Within col g (after (acceptItem zstd verified nowMicros col item) g) ∧
      (after (acceptItem zstd verified nowMicros col item) g).Sees col s := by
  rw [acceptItem,result_get_bind,after_get_bind]
  cases hv : g.fromVerified verified col item with
  | false => exact ⟨rfl,.refl g,hs⟩
  | true =>
    simp only [Bool.not_true,Bool.false_eq_true,if_false,Bool.true_and]
    cases hop : item.op with
    | putInlined key value =>
      cases hd : HakoDoc.decode value with
      | none =>
        have hskip : takes (s.checkedTime zstd (g.allowed col .get)) (.putInlined key value) = false := by
          simp [takes,cloudEntry,hd]
        simp only [hd,hskip]
        exact ⟨rfl,.refl g,hs⟩
      | some d =>
        have hentry : cloudEntry (.putInlined key value) = some (key,d.getLogicalTime.toInt,.inlined value) := by
          simp [cloudEntry,hd]
        have hts : ((HakoDoc.decode value).map HakoDoc.getLogicalTime).getD 0 = d.getLogicalTime := by simp [hd]
        dsimp only
        rw [hts]
        by_cases hzero : d.getLogicalTime = 0
        · have hskip : takes (s.checkedTime zstd (g.allowed col .get)) (.putInlined key value) = false := by
            simp [takes,hentry,Taken,hzero,Pointer.isLive]
          rw [if_pos hzero,hskip]
          exact ⟨rfl,.refl g,hs⟩
        · rw [if_neg hzero]
          refine takeIfNewer_spec hread hs nowMicros hentry fun hput => hzero ?_
          exact Int64.toInt_inj.1 hput.1
    | delete key timestamp =>
      exact takeIfNewer_spec hread hs nowMicros rfl (by simp [Pointer.isLive])
    | _ => exact ⟨by simp [takes,cloudEntry]; rfl,.refl g,hs⟩

theorem pushItem_spec (hs : g.Sees col s) (verified : String → Bool) (nowMicros : Int64) (ops : List WalOp)
    (item : IngestItem) : result (pushItem zstd verified nowMicros col ops item) g =
        .ok (ops++if g.fromVerified verified col item && takes (s.checkedTime zstd (g.allowed col .get)) item.op
          then [item.op] else []) ∧
      Within col g (after (pushItem zstd verified nowMicros col ops item) g) ∧
      (after (pushItem zstd verified nowMicros col ops item) g).Sees col s := by
  obtain ⟨hr,hwithin,hsees⟩ := acceptItem_spec hread hs verified nowMicros item
  generalize (g.fromVerified verified col item && takes (s.checkedTime zstd (g.allowed col .get)) item.op) = b at hr ⊢
  rw [pushItem,result_bind,after_bind,hr]
  refine ⟨?_,hwithin,hsees⟩
  cases b <;> rfl

/-- The items that are taken, against what the collection showed before the flush. -/
theorem acceptItems_spec (hs : g.Sees col s) (verified : String → Bool) (nowMicros : Int64) (items : List IngestItem) :
    result (acceptItems zstd verified nowMicros col items) g =
        .ok (((items.filter (g.fromVerified verified col)).map IngestItem.op).filter
          (takes (s.checkedTime zstd (g.allowed col .get)))) ∧
      Within col g (after (acceptItems zstd verified nowMicros col items) g) ∧
      (after (acceptItems zstd verified nowMicros col items) g).Sees col s := by
  have hall : ∀ (ops : List WalOp) (g1 : Guarded Ledger),Within col g g1 → g1.Sees col s →
      result (items.foldlM (pushItem zstd verified nowMicros col) ops) g1 =
        .ok (ops++((items.filter (g.fromVerified verified col)).map IngestItem.op).filter
          (takes (s.checkedTime zstd (g.allowed col .get)))) ∧
      Within col g (after (items.foldlM (pushItem zstd verified nowMicros col) ops) g1) ∧
      (after (items.foldlM (pushItem zstd verified nowMicros col) ops) g1).Sees col s := by
    induction items with
    | nil => exact fun ops g1 hw hsees => ⟨by rw [List.filter_nil,List.map_nil,List.filter_nil,List.append_nil]; rfl,hw,hsees⟩
    | cons item items ih =>
      intro ops g1 hw hsees
      obtain ⟨hr,hw1,hs1⟩ := pushItem_spec hread hsees verified nowMicros ops item
      rw [hw.fromVerified,hw.allowed] at hr
      rw [List.foldlM_cons,result_bind,after_bind,hr]
      obtain ⟨hrest,hwithin,hsees'⟩ := ih _ _ (hw.trans hw1) hs1
      refine ⟨hrest.trans ?_,hwithin,hsees'⟩
      rw [List.append_assoc,List.filter_cons]
      cases g.fromVerified verified col item with
      | false => rfl
      | true =>
        simp only [Bool.true_and,if_true,List.map_cons,List.filter_cons]
        cases takes (s.checkedTime zstd (g.allowed col .get)) item.op <;> rfl
  exact hall [] g (.refl g) hs

end checks

theorem applyTimestamped_spec (env : Env Ledger) (instant : ℕ) (hs : g.hako.shardOf col = some s) (ops : List WalOp) :
    result (applyTimestamped env instant col ops) g = .ok () ∧
      Within col g (after (applyTimestamped env instant col ops) g) ∧
      (after (applyTimestamped env instant col ops) g).hako.shardOf col = some (s.applyTimestamped env.crc instant ops) := by
  obtain ⟨h1,hget⟩ := Hako.getShard_of_shardOf hs
  obtain ⟨-,rfl⟩ := Hako.getShard_ok hget
  simp only [applyTimestamped,result,after,ofStep,hget]
  generalize s.applyTimestamped env.crc instant ops = t
  -- the shard is stored, then versions are bumped and documents handed to the indexer
  have hstored : Within col g {g with hako := (g.hako.withShard col s).withShard col t} :=
    (Within.of_withShard s).trans (Within.of_withShard t)
  have hbump := Hako.bumpVersionsByKeys_frame ((g.hako.withShard col s).withShard col t) (ops.filterMap WalOp.key?)
  have hshards := Hako.SameShards.bumpVersionsByKeys ((g.hako.withShard col s).withShard col t) (ops.filterMap WalOp.key?)
  have hshard : ((g.hako.withShard col s).withShard col t).shardOf col = some t := by
    rw [Hako.shardOf_withShard,if_pos rfl]
  refine ⟨trivial,?_,?_⟩
  · refine hstored.trans ?_
    split
    · exact .of_frame hbump hshards
    · exact .of_frame ⟨hbump.shards,hbump.localOnlyCols,hbump.config⟩ ⟨hshards.shardOf,hshards.config⟩
  · split
    · exact (congrFun hshards.shardOf col).trans hshard
    · exact (congrFun hshards.shardOf col).trans hshard

/-- What a flush leaves on the shard of a collection: the last operation taken for each key. -/
theorem flushCollection_spec (env : Env Ledger) (verified : String → Bool) (instant : ℕ) (nowMicros : Int64)
    (hread : s.DocsReadable env.zstd) (hs : g.Sees col s) (items : List IngestItem) :
    ∃ t,result (flushCollection env verified instant nowMicros col items) g = .ok () ∧
      Within col g (after (flushCollection env verified instant nowMicros col items) g) ∧
      (after (flushCollection env verified instant nowMicros col items) g).hako.shardOf col = some t ∧
      ∀ key,t.index.lookup key = ((takenOps (s.checkedTime env.zstd (g.allowed col .get) key)
        (cloudOps key (g.admitted verified col items))).getLast?.map Prod.snd).or (s.index.lookup key) := by
  rw [flushCollection,result_get_bind,after_get_bind]
  by_cases hskip : (items.isEmpty || g.isCollectionLocal col || g.isSyncWithheld col) = true
  · have hnone : g.admitted verified col items = [] := by
      unfold admitted
      cases items with
      | nil => simp
      | cons item items =>
        rw [List.isEmpty_cons,Bool.false_or] at hskip
        rw [if_pos hskip]
    rw [if_pos hskip]
    exact ⟨s,rfl,.refl g,hs.shard,fun key => by rw [hnone]; rfl⟩
  · have hadmitted : g.admitted verified col items = (items.filter (g.fromVerified verified col)).map IngestItem.op := by
      rw [Bool.or_assoc,Bool.or_eq_true,not_or] at hskip
      rw [admitted,if_neg hskip.2]
    obtain ⟨hr,hwithin,hsees⟩ := acceptItems_spec hread hs verified nowMicros items
    rw [if_neg hskip,result_bind,after_bind,hr,← hadmitted]
    have hlast := fun key => lastValue_takes (s.checkedTime env.zstd (g.allowed col .get)) key (g.admitted verified col items)
    generalize (g.admitted verified col items).filter (takes (s.checkedTime env.zstd (g.allowed col .get))) = ops at hlast
    cases ops with
    | nil => exact ⟨s,rfl,hwithin,hsees.shard,fun key => by rw [← hlast key]; rfl⟩
    | cons op ops =>
      obtain ⟨happly,hwithin',hshard⟩ := applyTimestamped_spec env instant hsees.shard (op::ops)
      refine ⟨_,happly,hwithin.trans hwithin',hshard,fun key => ?_⟩
      obtain ⟨bytes,counts,view,hset⟩ := StorageEngine.setAll_eq ({s with
          nextTxId := s.nextTxId+1
          wal := s.wal.appendBatchFast env.crc instant s.nextTxId (op::ops) true})
        ((op::ops).filterMap StorageEngine.timestampedEntry)
      rw [StorageEngine.applyTimestamped,hset,← hlast key]
      exact lookup_insertAll s.index _ key

theorem Within.admitted_other (h : Within col g g') {c : String} (hc : c ≠ col) (verified : String → Bool)
    (items : List IngestItem) : g'.admitted verified c items = g.admitted verified c items := by
  unfold admitted
  rw [h.isCollectionLocal,h.isSyncWithheld_other hc,h.fromVerified]

/-- The loop over the buffer: every collection ends as if it were flushed alone. -/
theorem flushIngestBuffer_spec (env : Env Ledger) (verified : String → Bool) (instant : ℕ) (nowMicros : Int64)
    {buffer : List (String × List IngestItem)} (hnodup : (buffer.map Prod.fst).Nodup)
    (hsees : ∀ e ∈ buffer,∃ s,g.Sees e.1 s ∧ s.DocsReadable env.zstd) :
    result (flushIngestBuffer env verified instant nowMicros buffer) g = .ok () ∧
    (∀ c,c ∉ buffer.map Prod.fst →
      (after (flushIngestBuffer env verified instant nowMicros buffer) g).hako.shardOf c = g.hako.shardOf c) ∧
    ∀ e ∈ buffer,∀ s,g.Sees e.1 s → ∃ t,
      (after (flushIngestBuffer env verified instant nowMicros buffer) g).hako.shardOf e.1 = some t ∧
      ∀ key,t.index.lookup key = ((takenOps (s.checkedTime env.zstd (g.allowed e.1 .get) key)
        (cloudOps key (g.admitted verified e.1 e.2))).getLast?.map Prod.snd).or (s.index.lookup key) := by
  induction buffer generalizing g with
  | nil => exact ⟨rfl,fun _ _ => rfl,fun e he => by cases he⟩
  | cons e buffer ih =>
    obtain ⟨hhead,hnodup'⟩ := List.nodup_cons.1 hnodup
    obtain ⟨s,hs,hread⟩ := hsees e List.mem_cons_self
    obtain ⟨t,hr,hwithin,hshard,hindex⟩ := flushCollection_spec env verified instant nowMicros hread hs e.2
    have hne : ∀ e' ∈ buffer,e'.1 ≠ e.1 := fun e' he' heq => hhead (heq ▸ List.mem_map_of_mem he')
    have hstep : flushIngestBuffer env verified instant nowMicros (e::buffer) = (do
        flushCollection env verified instant nowMicros e.1 e.2
        flushIngestBuffer env verified instant nowMicros buffer) := rfl
    rw [hstep,result_bind,after_bind,hr]
    obtain ⟨hok,hrest,hall⟩ := ih hnodup' fun e' he' => by
      obtain ⟨s',hs',hread'⟩ := hsees e' (List.mem_cons_of_mem e he')
      exact ⟨s',hwithin.sees_other (hne e' he') hs',hread'⟩
    refine ⟨hok,fun c hc => ?_,fun e' he' s' hs' => ?_⟩
    · rw [List.map_cons,List.mem_cons,not_or] at hc
      exact (hrest c hc.2).trans (hwithin.shardOf c hc.1)
    · rcases List.mem_cons.1 he' with rfl | he'
      · obtain rfl := Option.some.inj (hs.shard.symm.trans hs'.shard)
        exact ⟨t,(hrest e'.1 hhead).trans hshard,hindex⟩
      · obtain ⟨t',ht',hindex'⟩ := hall e' he' s' (hwithin.sees_other (hne e' he') hs')
        rw [hwithin.allowed,hwithin.admitted_other (hne e' he')] at hindex'
        exact ⟨t',ht',hindex'⟩

/-- A flush leaves on every key the newest of its entry and the buffered operations, exactly if the condition holds
for every key. -/
theorem flushIngestBuffer_newestWins_iff (env : Env Ledger) (verified : String → Bool) (instant : ℕ) (nowMicros : Int64)
    {buffer : List (String × List IngestItem)} (hnodup : (buffer.map Prod.fst).Nodup)
    (hsees : ∀ e ∈ buffer,∃ s,g.Sees e.1 s ∧ s.DocsReadable env.zstd) {items : List IngestItem}
    (hitems : (col,items) ∈ buffer) (hs : g.Sees col s) :
    (∃ t,result (flushIngestBuffer env verified instant nowMicros buffer) g = .ok () ∧
      (after (flushIngestBuffer env verified instant nowMicros buffer) g).hako.shardOf col = some t ∧
      s.NewestWins env.zstd t (g.admitted verified col items)) ↔
    ∀ key,FlushOk (s.stamped env.zstd key) (s.checkedTime env.zstd (g.allowed col .get) key)
      (cloudOps key (g.admitted verified col items)) := by
  obtain ⟨hok,-,hall⟩ := flushIngestBuffer_spec env verified instant nowMicros hnodup hsees
  obtain ⟨t,ht,hindex⟩ := hall _ hitems s hs
  rw [← StorageEngine.newestWins_iff hindex]
  constructor
  · rintro ⟨t',-,ht',hwins⟩
    obtain rfl := Option.some.inj (ht.symm.trans ht')
    exact hwins
  · exact fun hwins => ⟨t,hok,ht,hwins⟩

/-- A collection whose key was deleted at timestamp 10 by an earlier flush. -/
def deletedEngine : Guarded Unit :=
  after (flushIngestBuffer Hako.plainEnv (fun _ => true) 0 1000 [("c",[⟨.delete "k" 10,none⟩])]) (WriteCall.guardedEngine [] false)

def deletedShard : StorageEngine :=
  (StorageEngine.fresh .default "c" none 0).applyTimestamped Hako.plainEnv.crc 0 [.delete "k" 10]

theorem deletedShard_lookup (key : String) :
    deletedShard.index.lookup key = if key = "k" then some (.deleted 10) else none := by
  obtain ⟨bytes,counts,view,hset⟩ := StorageEngine.setAll_eq ({StorageEngine.fresh .default "c" none 0 with
      nextTxId := (StorageEngine.fresh .default "c" none 0).nextTxId+1
      wal := (StorageEngine.fresh .default "c" none 0).wal.appendBatchFast Hako.plainEnv.crc 0
        (StorageEngine.fresh .default "c" none 0).nextTxId [.delete "k" 10] true})
    ([.delete "k" 10].filterMap StorageEngine.timestampedEntry)
  rw [deletedShard,StorageEngine.applyTimestamped,hset]
  have hindex : insertAll (StorageEngine.fresh .default "c" none 0).index
      ([.delete "k" 10].filterMap StorageEngine.timestampedEntry) =
      (∅ : HMap String Pointer).insert "k" (.deleted 10) := rfl
  show (insertAll (StorageEngine.fresh .default "c" none 0).index _).lookup key = _
  rw [hindex,lookup_insert_ite]
  simp

theorem deletedEngine_sees : deletedEngine.Sees "c" deletedShard := ⟨rfl,fun h => absurd h (by decide)⟩

theorem deletedShard_readable : deletedShard.DocsReadable none := by
  intro key p hp hlive
  rw [deletedShard_lookup] at hp
  split at hp
  · cases hp
    cases hlive
  · cases hp

def olderPut : List IngestItem := [⟨.putInlined "k" (HakoDoc.encode ⟨[("n",.int 1)],5⟩),none⟩]

/-- The older put passes, because a read does not show the tombstone. -/
theorem flushIngestBuffer_resurrects :
    ((after (flushIngestBuffer Hako.plainEnv (fun _ => true) 0 1000 [("c",olderPut)]) deletedEngine).hako.shardOf
      "c").bind (fun t => t.index.lookup "k") = some (.inlined (HakoDoc.encode ⟨[("n",.int 1)],5⟩)) ∧
    ¬∃ t,(after (flushIngestBuffer Hako.plainEnv (fun _ => true) 0 1000 [("c",olderPut)]) deletedEngine).hako.shardOf
        "c" = some t ∧
      deletedShard.NewestWins none t (deletedEngine.admitted (fun _ => true) "c" olderPut) := by
  have hleft : ((after (flushIngestBuffer Hako.plainEnv (fun _ => true) 0 1000 [("c",olderPut)]) deletedEngine).hako.shardOf
      "c").bind (fun t => t.index.lookup "k") = some (.inlined (HakoDoc.encode ⟨[("n",.int 1)],5⟩)) := rfl
  refine ⟨hleft,?_⟩
  rintro ⟨t,ht,hwins⟩
  rw [ht,Option.bind_some] at hleft
  obtain ⟨w,hw,hlookup⟩ := hwins "k"
  have hstamped : deletedShard.stamped none "k" = some (10,.deleted 10) := rfl
  have hops : cloudOps "k" (deletedEngine.admitted (fun _ => true) "c" olderPut) =
      [(5,.inlined (HakoDoc.encode ⟨[("n",.int 1)],5⟩))] := rfl
  rw [hstamped,hops] at hw
  rw [hleft] at hlookup
  obtain ⟨x,rfl,hx⟩ := Option.map_eq_some_iff.1 hlookup.symm
  have hle : 10 ≤ x.1 := hw.2.1 _ rfl
  rcases hw.1 with hcur | hop
  · cases hcur
    cases hx
  · rw [List.mem_singleton.1 hop] at hle
    exact absurd hle (by decide)

def newerItems : List IngestItem :=
  [⟨.putInlined "k" (HakoDoc.encode ⟨[("n",.int 2)],20⟩),none⟩,⟨.delete "k" 30,some "peer"⟩]

theorem flushIngestBuffer_newestWins_iff_newerItems :
    ∃ t,result (flushIngestBuffer Hako.plainEnv (fun _ => true) 0 1000 [("c",newerItems)]) deletedEngine = .ok () ∧
      (after (flushIngestBuffer Hako.plainEnv (fun _ => true) 0 1000 [("c",newerItems)]) deletedEngine).hako.shardOf
        "c" = some t ∧
      deletedShard.NewestWins none t (deletedEngine.admitted (fun _ => true) "c" newerItems) := by
  refine (flushIngestBuffer_newestWins_iff Hako.plainEnv (fun _ => true) 0 1000 (by decide) (fun e he => ?_)
    List.mem_cons_self deletedEngine_sees).2 fun key => ?_
  · rw [List.mem_singleton.1 he]
    exact ⟨deletedShard,deletedEngine_sees,deletedShard_readable⟩
  · have hops : cloudOps key (deletedEngine.admitted (fun _ => true) "c" newerItems) =
        if key = "k" then [(20,.inlined (HakoDoc.encode ⟨[("n",.int 2)],20⟩)),(30,.deleted 30)] else [] := by
      have hentries : (deletedEngine.admitted (fun _ => true) "c" newerItems).filterMap cloudEntry =
          [("k",20,.inlined (HakoDoc.encode ⟨[("n",.int 2)],20⟩)),("k",30,.deleted 30)] := rfl
      rw [cloudOps,hentries]
      by_cases hk : key = "k"
      · simp [hk]
      · simp [hk,Ne.symm hk]
    rw [hops]
    by_cases hk : key = "k"
    · subst hk
      rw [if_pos rfl]
      have hstamped : deletedShard.stamped none "k" = some (10,.deleted 10) := rfl
      have hchecked : deletedShard.checkedTime none (deletedEngine.allowed "c" .get) "k" = none := rfl
      rw [show Hako.plainEnv.zstd = none from rfl,hstamped,hchecked]
      refine (flushOk_iff_winner (by simp)).2 ?_
      simp [takenOps,Taken,Pointer.isLive,Winner]
    · rw [if_neg hk]
      exact ⟨fun x hx => (by cases hx),fun y hy => (by cases hy)⟩

end Guarded

end HakoDB

import HakoDB.Sync.Catchup

/-! The version handshake of two replicas. Each side advertises the greatest timestamp of its collection; the side
that is ahead sends what its catch-up selects for the other's version, and the other side keeps what is newer. -/
namespace HakoDB
open ByteCodec HashMap LastWriter

section lists
variable {ε α β : Type}
variable {xs : List α}

theorem filterM_ok {f : α → Except ε Bool} {g : α → Bool} (h : ∀ x ∈ xs,f x = .ok (g x)) :
    xs.filterM f = .ok (xs.filter g) := by
  have haux : ∀ acc,xs.filterAuxM f acc = .ok ((xs.filter g).reverse++acc) := by
    induction xs with
    | nil => exact fun acc => rfl
    | cons x xs ih =>
      intro acc
      have hrest := ih fun y hy => h y (List.mem_cons_of_mem x hy)
      rw [List.filterAuxM,h x List.mem_cons_self]
      cases hx : g x <;> simp [bind,Except.bind,cond,hrest,hx]
  rw [List.filterM,haux]
  simp [bind,Except.bind,pure,Except.pure]

theorem filterMapM_ok {f : α → Except ε (Option β)} {g : α → Option β} (h : ∀ x ∈ xs,f x = .ok (g x)) :
    xs.filterMapM f = .ok (xs.filterMap g) := by
  induction xs with
  | nil => rfl
  | cons x xs ih =>
    have hrest := ih fun y hy => h y (List.mem_cons_of_mem x hy)
    rw [List.filterMapM_cons,h x List.mem_cons_self,hrest,List.filterMap_cons]
    cases g x <;> rfl

theorem mapM_ok {f : α → Except ε β} (h : ∀ x ∈ xs,∃ y,f x = .ok y) : ∃ ys,xs.mapM f = .ok ys := by
  induction xs with
  | nil => exact ⟨[],rfl⟩
  | cons x xs ih =>
    obtain ⟨y,hy⟩ := h x List.mem_cons_self
    obtain ⟨ys,hys⟩ := ih fun z hz => h z (List.mem_cons_of_mem x hz)
    exact ⟨y::ys,by rw [List.mapM_cons,hy,hys]; rfl⟩

end lists

namespace StorageEngine

/-- The mesh does not look into segments and the blob file for a timestamp. -/
def deltaTime : Pointer → Res Int64
  | .deleted timestamp => .ok timestamp
  | .inlined bytes => frameTime bytes
  | .blobPending doc => .ok doc.getLogicalTime
  | .blobPendingData _ skeleton => frameTime skeleton
  | _ => .ok 0

/-- What the mesh sends of an entry; what cannot be read or does not decode is passed over. -/
def deltaOp (zstd : Option Zstd) (s : StorageEngine) (key : String) : Pointer → Res (Option WalOp)
  | .deleted timestamp => .ok (some (.delete key timestamp))
  | p =>
    match s.readPointer zstd p with
    | .error .panic => .error .panic
    | .error (.error _) => .ok none
    | .ok bytes => .ok (bytes.bind fun bytes => (HakoDoc.decode bytes).bind fun doc =>
        (s.wireBytes bytes doc).map (WalOp.putInlined key))

def collectDeltaOps (zstd : Option Zstd) (order : HashOrder String Pointer) (isLocalOnly : String → Bool)
    (s : StorageEngine) (sinceTime : Int64) : Res (List WalOp) := do
  let changed ← (order.entries s.index).filterM fun e =>
    if isLocalOnly e.1 then return false
    else do
      let ts ← deltaTime e.2
      return decide (sinceTime < ts)
  changed.filterMapM fun e => s.deltaOp zstd e.1 e.2

end StorageEngine

/-- The two ways on which versions are exchanged. -/
inductive Transport
  | cloud
  | mesh

/-- A replica of a collection with its marks. -/
structure Replica where
  shard : StorageEngine
  isLocalOnly : String → Bool

/-- What an operation puts on its key: a document, or a tombstone. -/
def shownOp : WalOp → Option (String × ℤ × Option HakoDoc)
  | .putInlined key value => (HakoDoc.decode value).map fun d => (key,d.getLogicalTime.toInt,some d)
  | .delete key timestamp => some (key,timestamp.toInt,none)
  | _ => none

def shownOps (key : String) (ops : List WalOp) : List (ℤ × Option HakoDoc) :=
  ((ops.filterMap shownOp).filter fun x => x.1 = key).map Prod.snd

namespace Replica
variable (zstd : Option Zstd) (order : HashOrder String Pointer) (via : Transport)

def version (r : Replica) : Res Int64 := r.shard.collectionVersion order

/-- What a side sends for the version that the other side has advertised; only the side that is ahead sends. -/
def sends (r : Replica) (own other : Int64) : Res (List WalOp) :=
  if other < own then
    match via with
    | .cloud => r.shard.collectCatchupOps zstd order r.isLocalOnly other
    | .mesh => r.shard.collectDeltaOps zstd order r.isLocalOnly other
  else .ok []

/-- The operation that a key holds: its timestamp with the document a read shows, or a tombstone. -/
def shown (r : Replica) (key : String) : Option (ℤ × Option HakoDoc) :=
  (r.shard.index.lookup key).map fun p => (r.shard.entryTime zstd p,(r.shard.resolved zstd key).toOption.join)

/-- The last writer wins, key by key. -/
def ingest (r : Replica) (ops : List WalOp) (key : String) : Option (ℤ × Option HakoDoc) :=
  run (r.shown zstd key) (shownOps key ops)

/-- Every live entry shows a document within the limits of the format, and it is of a kind that the engine makes. -/
structure Whole (r : Replica) : Prop where
  docs : ∀ key p,r.shard.index.lookup key = some p → p.isLive = true →
    ∃ d,r.shard.resolved zstd key = .ok (some d) ∧ d.Encodable
  kinds : ∀ key data skeleton,r.shard.index.lookup key ≠ some (.blobPendingData data skeleton)

/-- Both sides end with the operation of the greater timestamp on every key. -/
def Agree (a b : Replica) : Prop :=
  ∃ va vb opsA opsB,a.version order = .ok va ∧ b.version order = .ok vb ∧
    a.sends zstd order via va vb = .ok opsA ∧ b.sends zstd order via vb va = .ok opsB ∧
    ∀ key,Winner (a.shown zstd key) (b.shown zstd key).toList (a.ingest zstd opsB key) ∧
      Winner (b.shown zstd key) (a.shown zstd key).toList (b.ingest zstd opsA key)

def selectTime (r : Replica) (sinceTs : Int64) (p : Pointer) : Res Int64 :=
  match via with
  | .cloud => r.shard.catchupTime zstd sinceTs p
  | .mesh => StorageEngine.deltaTime p

/-- The catch-up for this timestamp selects the entry of the key. -/
def Selects (r : Replica) (sinceTs : Int64) (key : String) : Prop :=
  ∃ p ts,r.shard.index.lookup key = some p ∧ r.selectTime zstd via sinceTs p = .ok ts ∧ sinceTs < ts

/-- What is newer here than on the other side is newer than the other side's version, which is the smaller one,
and it is not local-only. -/
def Covers (a b : Replica) (va vb : Int64) (key : String) : Prop :=
  ∀ x ∈ a.shown zstd key,Newer (b.shown zstd key) x → vb < va ∧ a.Selects zstd via vb key ∧ a.isLocalOnly key = false

section whole
variable {zstd order via} {r : Replica} {key : String} {p : Pointer}

/-- A live entry is read as a document, and a read of its key shows that with its links followed. -/
theorem Whole.reads (h : r.Whole zstd) (hp : r.shard.index.lookup key = some p) (hlive : p.isLive = true) :
    ∃ bytes doc d,r.shard.readPointer zstd p = .ok (some bytes) ∧ HakoDoc.decode bytes = some doc ∧
      applyBlobSnapshot r.shard.snapshotBlobState doc = .ok d ∧ r.shard.resolved zstd key = .ok (some d) ∧
      d.Encodable := by
  obtain ⟨d,hd,henc⟩ := h.docs key p hp hlive
  obtain ⟨p',doc,hp',⟨bytes,hread,hdecode⟩,happly⟩ := StorageEngine.resolved_eq_some hd
  obtain rfl := Option.some.inj (hp.symm.trans hp')
  exact ⟨bytes,doc,d,hread,hdecode,happly,hd,henc⟩

variable {bytes : Bytes} {doc : HakoDoc} {s : StorageEngine} {sinceTs : Int64} {e : String × Pointer}

theorem frameTime_of_decode (h : HakoDoc.decode bytes = some doc) :
    frameTime bytes = .ok doc.time := by
  obtain ⟨hlen,htime⟩ := HakoDoc.time_of_decode h
  rw [frameTime,if_neg (by omega),htime]

theorem Whole.frameTime_ok (h : r.Whole zstd) (hp : r.shard.index.lookup key = some (.inlined bytes)) :
    ∃ ts,frameTime bytes = .ok ts := by
  obtain ⟨b,doc,-,hread,hdecode,-⟩ := h.reads hp rfl
  obtain rfl := Option.some.inj (Except.ok.inj hread)
  exact ⟨doc.time,frameTime_of_decode hdecode⟩

theorem Whole.catchupTime_ok (h : r.Whole zstd) (hp : r.shard.index.lookup key = some p) (sinceTs : Int64) :
    ∃ ts,r.shard.catchupTime zstd sinceTs p = .ok ts := by
  cases p with
  | deleted ts => exact ⟨ts,rfl⟩
  | blobPending doc => exact ⟨doc.getLogicalTime,rfl⟩
  | blobPendingData data skeleton => exact absurd hp (h.kinds key data skeleton)
  | inlined bytes => exact h.frameTime_ok hp
  | segment id offset len =>
    obtain ⟨b,doc,-,hread,-⟩ := h.reads hp rfl
    by_cases hsince : sinceTs ≤ 0
    · exact ⟨1,by simp only [StorageEngine.catchupTime,hsince,if_true]⟩
    · exact ⟨_,by simp only [StorageEngine.catchupTime,hsince,if_false,hread]; rfl⟩
  | blob offset len =>
    obtain ⟨b,doc,-,hread,-⟩ := h.reads hp rfl
    by_cases hsince : sinceTs ≤ 0
    · exact ⟨1,by simp only [StorageEngine.catchupTime,hsince,if_true]⟩
    · exact ⟨_,by simp only [StorageEngine.catchupTime,hsince,if_false,hread]; rfl⟩

theorem Whole.version_ok (h : r.Whole zstd) (order : HashOrder String Pointer) : ∃ v,r.version order = .ok v := by
  have htime : ∀ e ∈ order.entries r.shard.index,∃ ts,StorageEngine.collectionVersion.versionTime e.2 = .ok ts := by
    intro e he
    have hp := (order.mem_entries _ e.1 e.2).1 he
    obtain ⟨key,p⟩ := e
    cases p with
    | inlined bytes => exact h.frameTime_ok hp
    | _ => exact ⟨_,rfl⟩
  obtain ⟨times,htimes⟩ := mapM_ok htime
  exact ⟨times.max?.getD 0,by rw [version,StorageEngine.collectionVersion,htimes]; rfl⟩

/-- The bytes that are sent decode to the document that a read shows. -/
theorem wireBytes_of_reads {d : HakoDoc} (hdecode : HakoDoc.decode bytes = some doc)
    (happly : applyBlobSnapshot s.snapshotBlobState doc = .ok d) (henc : d.Encodable) :
    ∃ v,s.wireBytes bytes doc = some v ∧ HakoDoc.decode v = some d := by
  by_cases hlinks : (doc.fields.any fun f => f.2.link?.isSome) = true
  · refine ⟨d.encode,?_,HakoDoc.decode_encode henc⟩
    rw [StorageEngine.wireBytes,if_pos hlinks,happly]
    rfl
  · have hnone : (doc.fields.all fun f => f.2.liveLink?.isNone) = true := by
      rw [List.all_eq_true]
      intro f hf
      have hf' : f.2.link? = none := by
        simp only [List.any_eq_true,not_exists,not_and,Bool.not_eq_true,Option.isSome_eq_false_iff,
          Option.isNone_iff_eq_none] at hlinks
        exact hlinks f hf
      simp [Value.liveLink?_eq_none hf']
    obtain rfl : doc = d := by
      rw [applyBlobSnapshot,if_pos hnone] at happly
      exact Except.ok.inj happly
    exact ⟨bytes,by rw [StorageEngine.wireBytes,if_neg hlinks],hdecode⟩

theorem rawSendBytes_catchupOp (key : String) (hkind : ∀ data skeleton,p ≠ .blobPendingData data skeleton)
    (hlive : p.isLive = true) (hread : s.readPointer zstd p = .ok (some bytes)) :
    s.rawSendBytes zstd (StorageEngine.catchupOp key p) = .ok (some bytes) := by
  cases p with
  | deleted ts => cases hlive
  | blobPendingData data skeleton => exact absurd rfl (hkind data skeleton)
  | inlined data => exact hread
  | blobPending doc => exact hread
  | segment id offset len => simp [StorageEngine.catchupOp,StorageEngine.rawSendBytes,hread,
      StorageEngine.rawSendBytes.unlessPanic]
  | blob offset len => simp [StorageEngine.catchupOp,StorageEngine.rawSendBytes,hread,
      StorageEngine.rawSendBytes.unlessPanic]

/-- Both transports send of a live entry the document that a read of its key shows. -/
theorem Whole.send_live (h : r.Whole zstd) (hp : r.shard.index.lookup key = some p) (hlive : p.isLive = true) :
    ∃ v d,r.shard.sendOp zstd (StorageEngine.catchupOp key p) = .ok (some (.putInlined key v)) ∧
      r.shard.deltaOp zstd key p = .ok (some (.putInlined key v)) ∧
      r.shown zstd key = some (d.time.toInt,some d) ∧ HakoDoc.decode v = some d := by
  obtain ⟨bytes,doc,d,hread,hdecode,happly,hresolved,henc⟩ := h.reads hp hlive
  obtain ⟨v,hv,hvdecode⟩ := wireBytes_of_reads hdecode happly henc
  have hraw := rawSendBytes_catchupOp key (fun data skeleton heq => h.kinds key data skeleton (heq ▸ hp)) hlive hread
  have hresolve : r.shard.resolveSendBytes zstd (StorageEngine.catchupOp key p) = .ok (some v) := by
    simp [StorageEngine.resolveSendBytes,hraw,hdecode,hv,bind,Except.bind,pure,Except.pure]
  have htime : r.shard.entryTime zstd p = d.time.toInt := by
    rw [StorageEngine.entryTime,StorageEngine.pointerTime_of_reads ⟨bytes,hread,hdecode⟩,
      StorageEngine.time_of_applyBlobSnapshot happly]
    rfl
  refine ⟨v,d,?_,?_,by simp [shown,hp,hresolved,htime,Except.toOption],hvdecode⟩
  · cases p with
    | deleted ts => cases hlive
    | _ => simp_all [StorageEngine.catchupOp,StorageEngine.sendOp,WalOp.key?,bind,Except.bind,pure,Except.pure]
  · cases p with
    | deleted ts => cases hlive
    | _ => simp [StorageEngine.deltaOp,hread,hdecode,hv]

/-- What is sent of an entry puts on its key what the key holds. -/
theorem Whole.send (h : r.Whole zstd) (hp : r.shard.index.lookup key = some p) :
    ∃ op x,r.shard.sendOp zstd (StorageEngine.catchupOp key p) = .ok (some op) ∧
      r.shard.deltaOp zstd key p = .ok (some op) ∧ r.shown zstd key = some x ∧ shownOp op = some (key,x) := by
  cases hlive : p.isLive with
  | false =>
    cases p with
    | deleted ts =>
      refine ⟨.delete key ts,(ts.toInt,none),rfl,rfl,?_,rfl⟩
      have hresolved : r.shard.resolved zstd key = .ok none := by
        simp only [StorageEngine.resolved,StorageEngine.get,hp]
        rfl
      simp [shown,hp,hresolved,StorageEngine.entryTime,StorageEngine.pointerTime,Except.toOption]
    | _ => cases hlive
  | true =>
    obtain ⟨v,d,hcloud,hmesh,hshown,hdecode⟩ := h.send_live hp hlive
    exact ⟨_,_,hcloud,hmesh,hshown,by simp [shownOp,hdecode,HakoDoc.getLogicalTime]⟩

theorem Whole.selectTime_ok (h : r.Whole zstd) (via : Transport) (hp : r.shard.index.lookup key = some p)
    (sinceTs : Int64) : ∃ ts,r.selectTime zstd via sinceTs p = .ok ts := by
  cases via with
  | cloud => exact h.catchupTime_ok hp sinceTs
  | mesh =>
    cases p with
    | blobPendingData data skeleton => exact absurd hp (h.kinds key data skeleton)
    | inlined bytes => exact h.frameTime_ok hp
    | _ => exact ⟨_,rfl⟩

/-- The test of an entry, where it does not panic. -/
def isSelected (zstd : Option Zstd) (via : Transport) (r : Replica) (sinceTs : Int64) (e : String × Pointer) : Bool :=
  ((r.selectTime zstd via sinceTs e.2).toOption.map fun ts => decide (sinceTs < ts)).getD false

theorem isSelected_eq {ts : Int64} (hts : r.selectTime zstd via sinceTs e.2 = .ok ts) :
    r.isSelected zstd via sinceTs e = decide (sinceTs < ts) := by
  simp [isSelected,hts,Except.toOption]

def selection (zstd : Option Zstd) (order : HashOrder String Pointer) (via : Transport) (r : Replica) (sinceTs : Int64) :
    List (String × Pointer) :=
  (order.entries r.shard.index).filter fun e => r.isSelected zstd via sinceTs e && !r.isLocalOnly e.1

/-- What is sent of an entry, if anything. -/
def sentOf (zstd : Option Zstd) (r : Replica) (e : String × Pointer) : Option WalOp :=
  (r.shard.deltaOp zstd e.1 e.2).toOption.join

theorem Whole.mem_selection (h : r.Whole zstd) :
    e ∈ r.selection zstd order via sinceTs ↔
      r.shard.index.lookup e.1 = some e.2 ∧ r.Selects zstd via sinceTs e.1 ∧ r.isLocalOnly e.1 = false := by
  simp only [selection,List.mem_filter,Bool.and_eq_true,Bool.not_eq_true',order.mem_entries]
  refine and_congr_right fun hp => and_congr_left fun _ => ?_
  obtain ⟨ts,hts⟩ := h.selectTime_ok via hp sinceTs
  rw [isSelected_eq hts,decide_eq_true_iff]
  constructor
  · exact fun hlt => ⟨e.2,ts,hp,hts,hlt⟩
  · rintro ⟨p',ts',hp',hts',hlt⟩
    obtain rfl := Option.some.inj (hp.symm.trans hp')
    exact Except.ok.inj (hts.symm.trans hts') ▸ hlt

/-- The cloud tests the timestamps before the marks. -/
theorem Whole.collectCatchupOps_eq (h : r.Whole zstd) (sinceTs : Int64) :
    r.shard.collectCatchupOps zstd order r.isLocalOnly sinceTs =
      .ok ((r.selection zstd order .cloud sinceTs).filterMap (r.sentOf zstd)) := by
  have hchanged : r.shard.changedSince zstd order sinceTs =
      .ok ((order.entries r.shard.index).filter (r.isSelected zstd .cloud sinceTs)) := by
    refine filterM_ok fun e he => ?_
    obtain ⟨ts,hts⟩ := h.selectTime_ok .cloud ((order.mem_entries _ e.1 e.2).1 he) sinceTs
    rw [isSelected_eq hts,show r.shard.catchupTime zstd sinceTs e.2 = .ok ts from hts]
    rfl
  have hmap : (r.selection zstd order .cloud sinceTs).filterMap (r.sentOf zstd) =
      ((((order.entries r.shard.index).filter (r.isSelected zstd .cloud sinceTs)).filter fun e => !r.isLocalOnly e.1).map
        fun e => StorageEngine.catchupOp e.1 e.2).filterMap fun op => (r.shard.sendOp zstd op).toOption.join := by
    rw [List.filter_filter,List.filterMap_map]
    have hfilter : (order.entries r.shard.index).filter (fun e => !r.isLocalOnly e.1 && r.isSelected zstd .cloud sinceTs e) =
        r.selection zstd order .cloud sinceTs := List.filter_congr fun e _ => Bool.and_comm _ _
    rw [hfilter]
    refine List.filterMap_congr fun e he => ?_
    obtain ⟨op,x,hcloud,hmesh,-⟩ := h.send (h.mem_selection.1 he).1
    simp [sentOf,hcloud,hmesh]
  rw [StorageEngine.collectCatchupOps,hchanged,hmap]
  refine filterMapM_ok fun op hop => ?_
  obtain ⟨e,he,rfl⟩ := List.mem_map.1 hop
  obtain ⟨he,-⟩ := List.mem_filter.1 he
  obtain ⟨op,x,hop,-⟩ := h.send ((order.mem_entries _ e.1 e.2).1 (List.mem_filter.1 he).1)
  simp [hop,Except.toOption]

/-- The mesh tests the marks first. -/
theorem Whole.collectDeltaOps_eq (h : r.Whole zstd) (sinceTs : Int64) :
    r.shard.collectDeltaOps zstd order r.isLocalOnly sinceTs =
      .ok ((r.selection zstd order .mesh sinceTs).filterMap (r.sentOf zstd)) := by
  have hchanged : ((order.entries r.shard.index).filterM fun e =>
      if r.isLocalOnly e.1 then (return false : Res Bool)
      else do
        let ts ← StorageEngine.deltaTime e.2
        return decide (sinceTs < ts)) = .ok (r.selection zstd order .mesh sinceTs) := by
    refine filterM_ok fun e he => ?_
    obtain ⟨ts,hts⟩ := h.selectTime_ok .mesh ((order.mem_entries _ e.1 e.2).1 he) sinceTs
    rw [isSelected_eq hts,show StorageEngine.deltaTime e.2 = .ok ts from hts]
    cases r.isLocalOnly e.1 <;> simp [bind,Except.bind,pure,Except.pure]
  rw [StorageEngine.collectDeltaOps,hchanged]
  refine filterMapM_ok fun e he => ?_
  obtain ⟨op,x,-,hmesh,-⟩ := h.send (h.mem_selection.1 he).1
  simp [sentOf,hmesh,Except.toOption]

/-- What the catch-up of a whole replica puts on a key is what the key holds. -/
theorem Whole.mem_shownOps (h : r.Whole zstd) {x : ℤ × Option HakoDoc} :
    x ∈ shownOps key ((r.selection zstd order via sinceTs).filterMap (r.sentOf zstd)) ↔
      r.shown zstd key = some x ∧ r.Selects zstd via sinceTs key ∧ r.isLocalOnly key = false := by
  simp only [shownOps,List.mem_map,List.mem_filter,List.mem_filterMap,decide_eq_true_eq]
  constructor
  · rintro ⟨y,⟨⟨op,⟨e,he,hsent⟩,hop⟩,rfl⟩,rfl⟩
    obtain ⟨hp,hselected,hlocal⟩ := h.mem_selection.1 he
    obtain ⟨op',x',-,hop',hshown,hshownOp⟩ := h.send hp
    obtain rfl : op' = op := by simpa [sentOf,hop',Except.toOption] using hsent
    obtain rfl := Option.some.inj (hshownOp.symm.trans hop)
    exact ⟨hshown,hselected,hlocal⟩
  · rintro ⟨hx,hselected,hlocal⟩
    obtain ⟨p,ts,hp,-⟩ := id hselected
    obtain ⟨op,x',-,hop,hshown,hshownOp⟩ := h.send hp
    obtain rfl := Option.some.inj (hx.symm.trans hshown)
    have he : (key,p) ∈ r.selection zstd order via sinceTs := h.mem_selection.2 ⟨hp,hselected,hlocal⟩
    exact ⟨(key,x),⟨⟨op,⟨(key,p),he,by simp [sentOf,hop,Except.toOption]⟩,hshownOp⟩,rfl⟩,rfl⟩

/-- What a side sends puts on a key what the key holds, if the side is ahead and the entry is selected. -/
theorem Whole.sends_ok (h : r.Whole zstd) (order : HashOrder String Pointer) (via : Transport) (own other : Int64) :
    ∃ ops,r.sends zstd order via own other = .ok ops ∧ ∀ key x,x ∈ shownOps key ops ↔
      r.shown zstd key = some x ∧ other < own ∧ r.Selects zstd via other key ∧ r.isLocalOnly key = false := by
  by_cases hahead : other < own
  · refine ⟨(r.selection zstd order via other).filterMap (r.sentOf zstd),?_,fun key x => ?_⟩
    · unfold sends
      rw [if_pos hahead]
      cases via with
      | cloud => exact h.collectCatchupOps_eq other
      | mesh => exact h.collectDeltaOps_eq other
    · rw [h.mem_shownOps]
      simp [hahead]
  · refine ⟨[],?_,fun key x => by simp [shownOps,hahead]⟩
    unfold sends
    rw [if_neg hahead]

end whole

/-- One direction: the other side ends with the greater timestamp exactly if what it lacks is sent. -/
theorem winner_ingest_iff {zstd : Option Zstd} {via : Transport} {a b : Replica} {va vb : Int64} {ops : List WalOp} {key : String}
    (hops : ∀ x,x ∈ shownOps key ops ↔
      a.shown zstd key = some x ∧ vb < va ∧ a.Selects zstd via vb key ∧ a.isLocalOnly key = false) :
    Winner (b.shown zstd key) (a.shown zstd key).toList (b.ingest zstd ops key) ↔ a.Covers zstd via b va vb key := by
  cases hx : a.shown zstd key with
  | none =>
    have hnone : shownOps key ops = [] := by
      refine List.eq_nil_iff_forall_not_mem.2 fun x hmem => ?_
      cases hx.symm.trans ((hops x).1 hmem).1
    refine iff_of_true ?_ fun x hmem => by simp [hx] at hmem
    rw [ingest,hnone]
    exact winner_run _ []
  | some x =>
    by_cases hsent : vb < va ∧ a.Selects zstd via vb key ∧ a.isLocalOnly key = false
    · -- every operation on the key is the one held there
      have hall : ∀ y,y ∈ shownOps key ops ↔ y ∈ [x] := by
        intro y
        rw [hops y,hx,List.mem_singleton]
        exact ⟨fun h => (Option.some.inj h.1).symm,fun h => ⟨by rw [h],hsent⟩⟩
      refine iff_of_true ?_ fun _ _ _ => hsent
      have hwin := winner_run (b.shown zstd key) (shownOps key ops)
      rw [ingest]
      cases hr : run (b.shown zstd key) (shownOps key ops) with
      | none =>
        rw [hr] at hwin
        have hmem := (hall x).2 List.mem_cons_self
        rw [hwin.2] at hmem
        cases hmem
      | some w =>
        rw [hr] at hwin
        obtain ⟨hmem,hcur,hmax⟩ := hwin
        exact ⟨hmem.imp id fun h => (hall w).1 h,hcur,fun y hy => hmax y ((hall y).2 hy)⟩
    · have hnone : shownOps key ops = [] :=
        List.eq_nil_iff_forall_not_mem.2 fun y hmem => hsent ((hops y).1 hmem).2
      have hkept : b.ingest zstd ops key = b.shown zstd key := by
        rw [ingest,hnone]
        rfl
      rw [hkept]
      have hcovers : a.Covers zstd via b va vb key ↔ ¬Newer (b.shown zstd key) x := by
        unfold Covers
        rw [hx]
        simp [hsent]
      rw [hcovers]
      cases b.shown zstd key with
      | none => simp [Winner]
      | some c => simp [Winner]

/-- After a handshake both sides hold the operation of the greater timestamp on every key, exactly if everything that
one side lacks is newer than its version and on the side of the greater version. -/
theorem agree_iff (zstd : Option Zstd) (order : HashOrder String Pointer) (via : Transport) {a b : Replica} (ha : a.Whole zstd)
    (hb : b.Whole zstd) : a.Agree zstd order via b ↔ ∃ va vb,a.version order = .ok va ∧ b.version order = .ok vb ∧
      ∀ key,a.Covers zstd via b va vb key ∧ b.Covers zstd via a vb va key := by
  obtain ⟨va,hva⟩ := ha.version_ok order
  obtain ⟨vb,hvb⟩ := hb.version_ok order
  obtain ⟨opsA,hopsA,hmemA⟩ := ha.sends_ok order via va vb
  obtain ⟨opsB,hopsB,hmemB⟩ := hb.sends_ok order via vb va
  have hkey : ∀ key,(Winner (a.shown zstd key) (b.shown zstd key).toList (a.ingest zstd opsB key) ∧
      Winner (b.shown zstd key) (a.shown zstd key).toList (b.ingest zstd opsA key)) ↔
      (a.Covers zstd via b va vb key ∧ b.Covers zstd via a vb va key) := fun key => by
    rw [winner_ingest_iff (hmemB key),winner_ingest_iff (hmemA key),and_comm]
  constructor
  · rintro ⟨va',vb',opsA',opsB',hva',hvb',hopsA',hopsB',hall⟩
    obtain rfl := Except.ok.inj (hva.symm.trans hva')
    obtain rfl := Except.ok.inj (hvb.symm.trans hvb')
    obtain rfl := Except.ok.inj (hopsA.symm.trans hopsA')
    obtain rfl := Except.ok.inj (hopsB.symm.trans hopsB')
    exact ⟨va,vb,hva,hvb,fun key => (hkey key).1 (hall key)⟩
  · rintro ⟨va',vb',hva',hvb',hall⟩
    obtain rfl := Except.ok.inj (hva.symm.trans hva')
    obtain rfl := Except.ok.inj (hvb.symm.trans hvb')
    exact ⟨va,vb,opsA,opsB,hva,hvb,hopsA,hopsB,fun key => (hkey key).2 (hall key)⟩

/-- A replica that was filled by a replicated batch. -/
def filled (ops : List WalOp) : Replica :=
  ⟨(StorageEngine.fresh .default "c" none 0).applyTimestamped crc32 0 ops,fun _ => false⟩

theorem filled_lookup (ops : List WalOp) (key : String) : (filled ops).shard.index.lookup key =
    lastValue key (ops.filterMap StorageEngine.timestampedEntry) := by
  obtain ⟨bytes,counts,view,hset⟩ := StorageEngine.setAll_eq ({StorageEngine.fresh .default "c" none 0 with
      nextTxId := (StorageEngine.fresh .default "c" none 0).nextTxId+1
      wal := (StorageEngine.fresh .default "c" none 0).wal.appendBatchFast crc32 0
        (StorageEngine.fresh .default "c" none 0).nextTxId ops true}) (ops.filterMap StorageEngine.timestampedEntry)
  rw [filled,StorageEngine.applyTimestamped,hset]
  have hempty : (StorageEngine.fresh .default "c" none 0).index.lookup key = none := by
    simp [StorageEngine.fresh,StorageEngine.unrecovered]
  refine (lookup_insertAll (StorageEngine.fresh .default "c" none 0).index _ key).trans ?_
  rw [hempty,Option.or_none]

/-- Documents without links, and tombstones. -/
theorem whole_filled {ops : List WalOp} (hops : ∀ op ∈ ops,(∃ key ts,op = .delete key ts) ∨
    ∃ key d,op = .putInlined key (HakoDoc.encode d) ∧ d.Encodable ∧ ∀ f ∈ d.fields,f.2.link? = none) :
    (filled ops).Whole none := by
  have hentry : ∀ key p,(filled ops).shard.index.lookup key = some p → (∃ ts,p = .deleted ts) ∨
      ∃ d : HakoDoc,p = .inlined d.encode ∧ d.Encodable ∧ ∀ f ∈ d.fields,f.2.link? = none := by
    intro key p hp
    rw [filled_lookup] at hp
    obtain ⟨op,hop,hpop⟩ := List.mem_filterMap.1 (mem_of_lastValue hp)
    rcases hops op hop with ⟨k,ts,rfl⟩ | ⟨k,d,rfl,henc,hlinks⟩
    · cases hpop
      exact .inl ⟨ts,rfl⟩
    · cases hpop
      exact .inr ⟨d,rfl,henc,hlinks⟩
  refine ⟨fun key p hp hlive => ?_,fun key data skeleton hp => ?_⟩
  · rcases hentry key p hp with ⟨ts,rfl⟩ | ⟨d,rfl,henc,hlinks⟩
    · cases hlive
    · have hget : (filled ops).shard.get none key = .ok (some d.encode) := by
        rw [StorageEngine.get,hp]
        rfl
      have hnone : (d.fields.all fun f => f.2.liveLink?.isNone) = true :=
        List.all_eq_true.2 fun f hf => by simp [Value.liveLink?_eq_none (hlinks f hf)]
      exact ⟨d,StorageEngine.resolved_of_decode hget (HakoDoc.decode_encode henc) (by rw [applyBlobSnapshot,if_pos hnone]),henc⟩
  · rcases hentry key _ hp with ⟨ts,hts⟩ | ⟨d,hd,-⟩
    · cases hts
    · cases hd

def earlyAndLate : Replica := filled [.putInlined "x" (HakoDoc.encode ⟨[],5⟩),.putInlined "y" (HakoDoc.encode ⟨[],20⟩)]

def between : Replica := filled [.putInlined "z" (HakoDoc.encode ⟨[],10⟩)]

/-- The side that is ahead sends only what is newer than the other's version, and the other side sends nothing. -/
theorem interleaved_sends (via : Transport) :
    earlyAndLate.sends none .byKey via 20 10 = .ok [.putInlined "y" (HakoDoc.encode ⟨[],20⟩)] ∧
    between.sends none .byKey via 10 20 = .ok [] := by
  cases via with
  | cloud => exact ⟨by decide +kernel,by decide +kernel⟩
  | mesh => exact ⟨by decide +kernel,by decide +kernel⟩

theorem interleaved_not_agree (via : Transport) : ¬earlyAndLate.Agree none .byKey via between := by
  rintro ⟨va,vb,opsA,opsB,hva,hvb,hopsA,-,hall⟩
  obtain rfl : 20 = va := Except.ok.inj ((by decide +kernel : earlyAndLate.version .byKey = .ok 20).symm.trans hva)
  obtain rfl : 10 = vb := Except.ok.inj ((by decide +kernel : between.version .byKey = .ok 10).symm.trans hvb)
  obtain rfl := Except.ok.inj ((interleaved_sends via).1.symm.trans hopsA)
  have hx : earlyAndLate.shown none "x" = some (5,some ⟨[],5⟩) := by decide +kernel
  have hnone : between.ingest none [.putInlined "y" (HakoDoc.encode ⟨[],20⟩)] "x" = none := by decide +kernel
  have hwin := (hall "x").2
  rw [hx,hnone] at hwin
  cases hwin.2

/-- Neither transport brings the early document over, nor the one in between back. -/
theorem agree_fails_interleaved : ¬earlyAndLate.Agree none .byKey .cloud between ∧
    ¬earlyAndLate.Agree none .byKey .mesh between := ⟨interleaved_not_agree .cloud,interleaved_not_agree .mesh⟩

theorem agree_iff_newJoiner : (∀ key,earlyAndLate.Covers none .cloud (filled []) 20 0 key ∧
      (filled []).Covers none .cloud earlyAndLate 0 20 key) ∧
    earlyAndLate.Agree none .byKey .cloud (filled []) := by
  have hwhole : earlyAndLate.Whole none := by
    refine whole_filled fun op hop => .inr ?_
    rcases List.mem_cons.1 hop with rfl | hop
    · exact ⟨"x",⟨[],5⟩,rfl,⟨by decide,trivial⟩,by simp⟩
    · rw [List.mem_singleton.1 hop]
      exact ⟨"y",⟨[],20⟩,rfl,⟨by decide,trivial⟩,by simp⟩
  have hempty : (filled []).Whole none := whole_filled (by simp)
  have hcovers : ∀ key,earlyAndLate.Covers none .cloud (filled []) 20 0 key ∧
      (filled []).Covers none .cloud earlyAndLate 0 20 key := by
    intro key
    refine ⟨fun x hx _ => ⟨by decide,?_,rfl⟩,fun x hx => ?_⟩
    · obtain ⟨p,hp,-⟩ := Option.map_eq_some_iff.1 hx
      have hlookup := hp
      rw [earlyAndLate,filled_lookup] at hlookup
      have hmem := mem_of_lastValue hlookup
      have hentries : [WalOp.putInlined "x" (HakoDoc.encode ⟨[],5⟩),.putInlined "y" (HakoDoc.encode ⟨[],20⟩)].filterMap
          StorageEngine.timestampedEntry =
            [("x",.inlined (HakoDoc.encode ⟨[],5⟩)),("y",.inlined (HakoDoc.encode ⟨[],20⟩))] := rfl
      rw [hentries] at hmem
      rcases List.mem_cons.1 hmem with heq | hmem
      · cases heq
        exact ⟨_,5,hp,by decide +kernel,by decide⟩
      · cases List.mem_singleton.1 hmem
        exact ⟨_,20,hp,by decide +kernel,by decide⟩
    · obtain ⟨p,hp,-⟩ := Option.map_eq_some_iff.1 hx
      rw [filled_lookup] at hp
      cases hp
  exact ⟨hcovers,(agree_iff none .byKey .cloud hwhole hempty).2 ⟨20,0,by decide +kernel,by decide +kernel,hcovers⟩⟩

end Replica

end HakoDB

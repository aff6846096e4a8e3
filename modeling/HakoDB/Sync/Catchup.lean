import HakoDB.Sync.CloudIngest

/-! The catch-up of a client that joins. The entries newer than the client's timestamp are collected and paged
out; the pages are kept in a cache for the clients that join with timestamp zero. -/
namespace HakoDB
open ByteCodec HashMap Attempt

/-- The timestamp in the frame of a stored document; the slice panics on a shorter frame. -/
def frameTime (bytes : Bytes) : Res Int64 :=
  if bytes.length < 10 then .error .panic else .ok (bytesI64 ((bytes.drop 2).take 8))

namespace StorageEngine
variable (zstd : Option Zstd)

/-- The timestamp by which an entry is selected; what is in a segment or in the blob file is read only for a
client that has a timestamp of its own. -/
def catchupTime (s : StorageEngine) (sinceTs : Int64) : Pointer → Res Int64
  | .deleted timestamp => .ok timestamp
  | .inlined bytes => frameTime bytes
  | .blobPending doc => .ok doc.getLogicalTime
  | .blobPendingData _ skeleton => frameTime skeleton
  | p =>
    if sinceTs ≤ 0 then .ok 1
    else match s.readPointer zstd p with
      | .ok (some bytes) => .ok (if bytes.length < 10 then 0 else bytesI64 ((bytes.drop 2).take 8))
      | .error .panic => .error .panic
      | _ => .ok 0

/-- The entries newer than the timestamp, in the order of the table. -/
def changedSince (order : HashOrder String Pointer) (s : StorageEngine) (sinceTs : Int64) :
    Res (List (String × Pointer)) :=
  (order.entries s.index).filterM fun e => do
    let ts ← s.catchupTime zstd sinceTs e.2
    return decide (sinceTs < ts)

def catchupOp (key : String) : Pointer → WalOp
  | .deleted timestamp => .delete key timestamp
  | .inlined bytes => .putInlined key bytes
  | .blobPending doc => .putInlined key doc.encode
  | .blobPendingData _ skeleton => .putInlined key skeleton
  | .segment segmentId offset len => .put key segmentId offset len
  | .blob offset len => .putBlob key offset len

/-- The bytes of a put before its links are looked at; what cannot be read is not sent. -/
def rawSendBytes (s : StorageEngine) : WalOp → Res (Option Bytes)
  | .putInlined _ value => .ok (some value)
  | .put _ segmentId offset len => unlessPanic (s.readPointer zstd (.segment segmentId offset len))
  | .putBlob _ offset len => unlessPanic (s.readPointer zstd (.blob offset len))
  | _ => .ok none
where
  unlessPanic : Res (Option Bytes) → Res (Option Bytes)
    | .ok bytes => .ok bytes
    | .error .panic => .error .panic
    | .error (.error _) => .ok none

/-- A document with links is sent with the bytes behind them, since the receiver has no use for offsets. -/
def wireBytes (s : StorageEngine) (bytes : Bytes) (doc : HakoDoc) : Option Bytes :=
  if doc.fields.any fun f => f.2.link?.isSome then
    (applyBlobSnapshot s.snapshotBlobState doc).toOption.map HakoDoc.encode
  else some bytes

/-- What does not decode is sent as it is. -/
def resolveSendBytes (s : StorageEngine) (op : WalOp) : Res (Option Bytes) := do
  let bytes ← s.rawSendBytes zstd op
  return bytes.bind fun bytes =>
    match HakoDoc.decode bytes with
    | none => some bytes
    | some doc => s.wireBytes bytes doc

def sendOp (s : StorageEngine) : WalOp → Res (Option WalOp)
  | .delete key timestamp => .ok (some (.delete key timestamp))
  | op => do
    let bytes ← s.resolveSendBytes zstd op
    return op.key?.bind fun key => bytes.map (WalOp.putInlined key)

def collectCatchupOps (order : HashOrder String Pointer) (isLocalOnly : String → Bool) (s : StorageEngine)
    (sinceTs : Int64) : Res (List WalOp) := do
  let changed ← s.changedSince zstd order sinceTs
  let raw := (changed.filter fun e => !isLocalOnly e.1).map fun e => catchupOp e.1 e.2
  raw.filterMapM (s.sendOp zstd)

/-- The greatest timestamp of the entries that carry one where they stand, zero without any entry. -/
def collectionVersion (order : HashOrder String Pointer) (s : StorageEngine) : Res Int64 := do
  let times ← (order.entries s.index).mapM fun e => versionTime e.2
  return (times.max?).getD 0
where
  versionTime : Pointer → Res Int64
    | .inlined bytes => frameTime bytes
    | .blobPending doc => .ok doc.getLogicalTime
    | .deleted timestamp => .ok timestamp
    | _ => .ok 0

end StorageEngine

def catchupPageMaxOps : ℕ := 1000

def catchupPageMaxBytes : ℕ := 6*1024*1024

def opWireLen : WalOp → ℕ
  | .putInlined key value => key.utf8ByteSize+value.length+128
  | .putBlob key _ _ | .put key _ _ _ => key.utf8ByteSize+96
  | .delete key _ => key.utf8ByteSize+64
  | .beginTx _ | .commitTx _ => 48

/-- The pages that are full and the one that is being filled. -/
structure PageOut where
  pages : List (List WalOp)
  cur : List WalOp
  curBytes : ℕ

namespace PageOut

def push (acc : PageOut) (op : WalOp) : PageOut :=
  if acc.cur ≠ [] ∧ (catchupPageMaxOps ≤ acc.cur.length ∨ catchupPageMaxBytes < acc.curBytes+opWireLen op) then
    ⟨acc.pages++[acc.cur],[op],opWireLen op⟩
  else ⟨acc.pages,acc.cur++[op],acc.curBytes+opWireLen op⟩

def close (acc : PageOut) : List (List WalOp) := if acc.cur = [] then acc.pages else acc.pages++[acc.cur]

end PageOut

def pageOutOps (ops : List WalOp) : List (List WalOp) := (ops.foldl PageOut.push ⟨[],[],0⟩).close

def pageBytes : List WalOp → ℕ
  | [] => 0
  | op::page => opWireLen op+pageBytes page

theorem pageBytes_append (a b : List WalOp) : pageBytes (a++b) = pageBytes a+pageBytes b := by
  induction a with
  | nil => exact (Nat.zero_add _).symm
  | cons op a ih => rw [List.cons_append,pageBytes,pageBytes,ih,Nat.add_assoc]

/-- A page that takes one more operation stays within both limits. -/
def FitsPage (page : List WalOp) (op : WalOp) : Prop :=
  page.length+1 ≤ catchupPageMaxOps ∧ pageBytes page+opWireLen op ≤ catchupPageMaxBytes

/-- Only a single operation may be longer than a page. -/
def WireSafe (page : List WalOp) : Prop :=
  page ≠ [] ∧ page.length ≤ catchupPageMaxOps ∧ (pageBytes page ≤ catchupPageMaxBytes ∨ page.length = 1)

/-- A page is closed only when the operation that comes next does not fit. -/
def FullBefore (page next : List WalOp) : Prop := ∀ op ∈ next.head?,¬FitsPage page op

theorem wireSafe_singleton (op : WalOp) : WireSafe [op] :=
  ⟨List.cons_ne_nil _ _,Nat.succ_le_succ (Nat.zero_le 999),.inr rfl⟩

namespace PageOut
variable {acc : PageOut} {ops : List WalOp}

/-- The pages so far hold what was pushed; the page being filled is empty only before the first push. -/
def Holds (ops : List WalOp) (acc : PageOut) : Prop :=
  acc.curBytes = pageBytes acc.cur ∧ (acc.cur = [] → acc.pages = []) ∧ acc.close.flatten = ops ∧
  (∀ page ∈ acc.close,WireSafe page) ∧ acc.close.IsChain FullBefore

theorem close_of_ne (h : acc.cur ≠ []) : acc.close = acc.pages++[acc.cur] := if_neg h

theorem Holds.turnPage (h : Holds ops acc) (hcur : acc.cur ≠ []) {op : WalOp} (hfull : ¬FitsPage acc.cur op) :
    Holds (ops++[op]) ⟨acc.pages++[acc.cur],[op],opWireLen op⟩ := by
  obtain ⟨-,-,hflat,hsafe,hchain⟩ := h
  rw [close_of_ne hcur] at hflat hsafe hchain
  have hclose : (⟨acc.pages++[acc.cur],[op],opWireLen op⟩ : PageOut).close = (acc.pages++[acc.cur])++[[op]] :=
    close_of_ne (List.cons_ne_nil _ _)
  refine ⟨rfl,fun he => absurd he (List.cons_ne_nil _ _),?_,?_,?_⟩
  · rw [hclose,List.flatten_append,hflat,List.flatten_singleton]
  · intro page hpage
    rw [hclose,List.mem_append,List.mem_singleton] at hpage
    rcases hpage with hpage | rfl
    · exact hsafe page hpage
    · exact wireSafe_singleton op
  · rw [hclose]
    refine hchain.append (List.isChain_singleton _) ?_
    intro page hpage next hnext
    rw [List.getLast?_concat,Option.mem_some_iff] at hpage
    rw [List.head?_cons,Option.mem_some_iff] at hnext
    subst hpage hnext
    intro op' hop
    rw [List.head?_cons,Option.mem_some_iff] at hop
    exact hop ▸ hfull

theorem Holds.fill (h : Holds ops acc) {op : WalOp} (hroom : acc.cur = [] ∨ FitsPage acc.cur op) :
    Holds (ops++[op]) ⟨acc.pages,acc.cur++[op],acc.curBytes+opWireLen op⟩ := by
  obtain ⟨hbytes,hfirst,hflat,hsafe,hchain⟩ := h
  have hne : acc.cur++[op] ≠ [] := List.append_ne_nil_of_right_ne_nil _ (List.cons_ne_nil _ _)
  have hclose : (⟨acc.pages,acc.cur++[op],acc.curBytes+opWireLen op⟩ : PageOut).close =
      acc.pages++[acc.cur++[op]] := close_of_ne hne
  have hsum : acc.curBytes+opWireLen op = pageBytes (acc.cur++[op]) := by
    rw [pageBytes_append,hbytes]
    rfl
  refine ⟨hsum,fun he => absurd he hne,?_⟩
  rw [hclose]
  by_cases hcur : acc.cur = []
  · rw [close,if_pos hcur,hfirst hcur] at hflat
    rw [hcur,hfirst hcur,← hflat]
    exact ⟨rfl,by simpa using wireSafe_singleton op,List.isChain_singleton _⟩
  · rw [close_of_ne hcur] at hflat hsafe hchain
    obtain ⟨hcount,hlen⟩ := hroom.resolve_left hcur
    obtain ⟨hpages,-,hlast⟩ := List.isChain_append.mp hchain
    refine ⟨?_,?_,?_⟩
    · rw [← hflat]
      simp
    · intro page hpage
      rw [List.mem_append,List.mem_singleton] at hpage
      rcases hpage with hpage | rfl
      · exact hsafe page (List.mem_append_left _ hpage)
      · refine ⟨hne,?_,.inl ?_⟩
        · rw [List.length_append,List.length_singleton]
          exact hcount
        · rw [← hsum,hbytes]
          exact hlen
    · refine hpages.append (List.isChain_singleton _) ?_
      intro page hpage next hnext op' hop
      rw [List.head?_cons,Option.mem_some_iff] at hnext
      subst hnext
      rw [List.head?_append_of_ne_nil _ hcur] at hop
      exact hlast page hpage acc.cur rfl op' hop

theorem Holds.push (h : Holds ops acc) (op : WalOp) : Holds (ops++[op]) (acc.push op) := by
  rw [PageOut.push]
  split_ifs with hfull
  · refine h.turnPage hfull.1 ?_
    rintro ⟨hcount,hlen⟩
    rw [← h.1] at hlen
    omega
  · refine h.fill ?_
    by_cases hcur : acc.cur = []
    · exact .inl hcur
    · refine .inr ⟨?_,?_⟩
      · by_contra hn
        exact hfull ⟨hcur,.inl (by omega)⟩
      · by_contra hn
        exact hfull ⟨hcur,.inr (by rw [h.1]; omega)⟩

theorem Holds.foldl (h : Holds ops acc) (rest : List WalOp) : Holds (ops++rest) (rest.foldl PageOut.push acc) := by
  induction rest generalizing ops acc with
  | nil => rwa [List.append_nil]
  | cons op rest ih =>
    have hnext := ih (h.push op)
    rwa [List.append_assoc,List.singleton_append] at hnext

end PageOut

/-- The pages hold the operations in order, keep both limits and are filled greedily. -/
theorem pageOutOps_spec (ops : List WalOp) :
    (pageOutOps ops).flatten = ops ∧
    (∀ page ∈ pageOutOps ops,page ≠ [] ∧ page.length ≤ catchupPageMaxOps ∧
      (pageBytes page ≤ catchupPageMaxBytes ∨ page.length = 1)) ∧
    (pageOutOps ops).IsChain fun page next => ∀ op ∈ next.head?,
      catchupPageMaxOps < page.length+1 ∨ catchupPageMaxBytes < pageBytes page+opWireLen op := by
  have hstart : PageOut.Holds [] ⟨[],[],0⟩ := ⟨rfl,fun _ => rfl,rfl,by simp [PageOut.close],List.isChain_nil⟩
  obtain ⟨-,-,hflat,hsafe,hchain⟩ := hstart.foldl ops
  refine ⟨hflat,hsafe,hchain.imp ?_⟩
  intro page next hfull op hop
  by_contra hn
  rw [not_or,Nat.not_lt,Nat.not_lt] at hn
  exact hfull op hop hn

namespace Guarded
variable {Ledger : Type}

/-- The mark is on the collection or on the key; of a key that carries its collection's name also behind that. -/
def isLocalOnly (g : Guarded Ledger) (col key : String) : Bool :=
  g.isCollectionLocal col || g.localOnlyKeys.contains (markOf col++key) ||
    startsWith key (col++":") && g.localOnlyKeys.contains (markOf col++.ofList (key.toList.drop (col.length+1)))

def deleteLocal (env : Env Ledger) (col id : String) : M Ledger String := do
  modify fun g => {g with localOnlyKeys := g.localOnlyKeys.insert (markOf col++id)}
  persistLocalOnly env
  delete env col id

def replicateKey (env : Env Ledger) (col id : String) : M Ledger Unit := do
  modify fun g => {g with localOnlyKeys := g.localOnlyKeys.filter (· ≠ markOf col++id)}
  persistLocalOnly env

/-- The marks of a collection are those with its name before their first null character. -/
def replicateCollection (env : Env Ledger) (col : String) : M Ledger Unit := do
  modify fun g => {g with
    hako := {g.hako with localOnlyCols := g.hako.localOnlyCols.filter (· ≠ col)}
    localOnlyKeys := g.localOnlyKeys.filter fun k =>
      !(k.toList.contains '\x00' && k.toList.takeWhile (· ≠ '\x00') = col.toList)}
  persistLocalOnly env

end Guarded

structure CatchupPacket where
  msgId : ℕ
  collection : String
  ops : List WalOp
  deriving DecidableEq

def catchupPages (col : String) (ops : List WalOp) : List CatchupPacket := (pageOutOps ops).map fun page => ⟨0,col,page⟩

/-- The packets of a collection for a client with this timestamp. -/
def StorageEngine.catchupPackets (zstd : Option Zstd) (order : HashOrder String Pointer) (isLocalOnly : String → Bool)
    (s : StorageEngine) (col : String) (sinceTs : Int64) : Res (List CatchupPacket) := do
  let ops ← s.collectCatchupOps zstd order isLocalOnly sinceTs
  return catchupPages col ops

/-- The same entries, which are read from the same places. -/
structure StorageEngine.SameEntries (zstd : Option Zstd) (s t : StorageEngine) : Prop where
  index : s.index = t.index
  read : s.readPointer zstd = t.readPointer zstd
  blobs : s.snapshotBlobState = t.snapshotBlobState

/-- A cache entry. What the packets were made from is noted for the proofs; the code does not keep it. -/
structure CatchupCacheEntry where
  serverTs : Int64
  packets : List CatchupPacket
  clientTs : Int64
  shard : StorageEngine
  isLocalOnly : String → Bool

structure CatchupServer (Ledger : Type) where
  db : Guarded Ledger
  cache : HMap String CatchupCacheEntry

namespace CatchupServer
variable {Ledger : Type}

/-- The pages for a client without a timestamp, if they were made at this version. -/
def cached (s : CatchupServer Ledger) (col : String) (clientTs serverTs : Int64) : Option (List CatchupPacket) :=
  match s.cache.lookup col with
  | some entry => if entry.serverTs = serverTs ∧ clientTs = 0 then some entry.packets else none
  | none => none

/-- The packets for a client that has passed the guards, and the server after it. -/
def sendCatchupDeltas (env : Env Ledger) (order : HashOrder String Pointer) (s : CatchupServer Ledger)
    (shard : StorageEngine) (col : String) (clientTs serverTs : Int64) :
    CatchupServer Ledger × Res (List CatchupPacket) :=
  match s.cached col clientTs serverTs with
  | some packets => (s,.ok packets)
  | none =>
    match shard.collectCatchupOps env.zstd order (s.db.isLocalOnly col) clientTs with
    | .error e => (s,.error e)
    | .ok ops =>
      if ops = [] then (s,.ok [])
      else
        let packets := catchupPages col ops
        ({s with cache := s.cache.insert col ⟨serverTs,packets,clientTs,shard,s.db.isLocalOnly col⟩},.ok packets)

/-- The guards in front of the pages: collections kept out of the replication, and encrypted ones for a peer
that has not shown the same key. -/
def serves (s : CatchupServer Ledger) (col : String) (verified : Bool) : Bool :=
  !s.db.isSyncWithheld col && (!s.db.isCollectionEncrypted col || verified)

def withHako (s : CatchupServer Ledger) (h : Hako Ledger) : CatchupServer Ledger := {s with db := {s.db with hako := h}}

/-- One collection of a version handshake. A collection that does not open is not among the versions. -/
def join (env : Env Ledger) (order : HashOrder String Pointer) (s : CatchupServer Ledger) (col : String)
    (clientTs : Int64) (verified : Bool) : CatchupServer Ledger × Res (List CatchupPacket) :=
  match s.db.hako.getShard col with
  | .error .panic => (s,.error .panic)
  | .error (.error _) => (s,.ok [])
  | .ok (shard,h) =>
    match shard.collectionVersion order with
    | .error e => (s.withHako h,.error e)
    | .ok serverTs =>
      if clientTs < serverTs ∧ (s.withHako h).serves col verified = true then
        (s.withHako h).sendCatchupDeltas env order shard col clientTs serverTs
      else (s.withHako h,.ok [])

end CatchupServer

/-- What happens on a server between and during joins. -/
inductive CatchupAct
  | call (c : WriteCall)
  | setCollectionLocal (col : String) (isLocal : Bool)
  | deleteLocal (col id : String)
  | replicateKey (col id : String)
  | replicateCollection (col : String)
  | replicate (instant : ℕ) (nowMicros : Int64) (col : String) (ops : List WalOp)
  | ingest (verified : String → Bool) (instant : ℕ) (nowMicros : Int64) (buffer : List (String × List IngestItem))
  | join (col : String) (clientTs : Int64) (verified : Bool)

namespace CatchupServer
variable {Ledger : Type} (env : Env Ledger) (order : HashOrder String Pointer)

def step (s : CatchupServer Ledger) : CatchupAct → CatchupServer Ledger
  | .call c => {s with db := c.run env s.db}
  | .setCollectionLocal col isLocal => {s with db := after (Guarded.setCollectionLocal env col isLocal) s.db}
  | .deleteLocal col id => {s with db := after (Guarded.deleteLocal env col id) s.db}
  | .replicateKey col id => {s with db := after (Guarded.replicateKey env col id) s.db}
  | .replicateCollection col => {s with db := after (Guarded.replicateCollection env col) s.db}
  | .replicate instant nowMicros col ops =>
    match s.db.hako.applyReplicatedBatch env instant nowMicros col ops with
    | .ok h => s.withHako h
    | .error _ => s
  | .ingest verified instant nowMicros buffer =>
    {s with db := after (Guarded.flushIngestBuffer env verified instant nowMicros buffer) s.db}
  | .join col clientTs verified => (s.join env order col clientTs verified).1

def run (s : CatchupServer Ledger) (acts : List CatchupAct) : CatchupServer Ledger := acts.foldl (step env order) s

/-- Before the first client. -/
def fresh (db : Guarded Ledger) : CatchupServer Ledger := ⟨db,∅⟩

/-- A client that passes the guards is sent the pages of the collection as it is now, for its own timestamp. -/
def SendsCurrent (s : CatchupServer Ledger) (col : String) (clientTs : Int64) (verified : Bool) : Prop :=
  ∀ shard h serverTs,s.db.hako.getShard col = .ok (shard,h) → shard.collectionVersion order = .ok serverTs →
    clientTs < serverTs → (s.withHako h).serves col verified = true →
    (s.join env order col clientTs verified).2 =
      shard.catchupPackets env.zstd order ((s.withHako h).db.isLocalOnly col) col clientTs

/-- A client without a timestamp finds in the cache only what was made for such a client, from the entries and
the marks that the collection still has. -/
def Allows (s : CatchupServer Ledger) : CatchupAct → Prop
  | .join col clientTs _ => clientTs = 0 → ∀ entry shard,s.cache.lookup col = some entry →
      s.db.hako.shardOf col = some shard → shard.collectionVersion order = .ok entry.serverTs →
      entry.clientTs = 0 ∧ StorageEngine.SameEntries env.zstd entry.shard shard ∧ entry.isLocalOnly = s.db.isLocalOnly col
  | _ => True

def AllowsAll : CatchupServer Ledger → List CatchupAct → Prop
  | _,[] => True
  | s,a::as => s.Allows env order a ∧ AllowsAll (s.step env order a) as

/-- What the cache holds was made from what is noted with it. -/
def Inv (s : CatchupServer Ledger) : Prop :=
  ∀ col entry,s.cache.lookup col = some entry →
    entry.shard.catchupPackets env.zstd order entry.isLocalOnly col entry.clientTs = .ok entry.packets

end CatchupServer

namespace StorageEngine.SameEntries
variable {zstd : Option Zstd} {s t : StorageEngine} (h : SameEntries zstd s t)
include h

theorem catchupTime (sinceTs : Int64) : s.catchupTime zstd sinceTs = t.catchupTime zstd sinceTs := by
  funext p
  cases p <;> simp only [StorageEngine.catchupTime,h.read]

theorem rawSendBytes : s.rawSendBytes zstd = t.rawSendBytes zstd := by
  funext op
  cases op <;> simp only [StorageEngine.rawSendBytes,h.read]

theorem sendOp : s.sendOp zstd = t.sendOp zstd := by
  have hresolve : s.resolveSendBytes zstd = t.resolveSendBytes zstd := by
    have hwire : s.wireBytes = t.wireBytes := by
      funext bytes doc
      simp only [StorageEngine.wireBytes,h.blobs]
    funext op
    simp only [StorageEngine.resolveSendBytes,h.rawSendBytes,hwire]
  funext op
  cases op <;> simp only [StorageEngine.sendOp,hresolve]

theorem collectCatchupOps (order : HashOrder String Pointer) (isLocalOnly : String → Bool) (sinceTs : Int64) :
    s.collectCatchupOps zstd order isLocalOnly sinceTs = t.collectCatchupOps zstd order isLocalOnly sinceTs := by
  simp only [StorageEngine.collectCatchupOps,changedSince,h.catchupTime sinceTs,h.sendOp,h.index]

theorem catchupPackets (order : HashOrder String Pointer) (isLocalOnly : String → Bool) (col : String) (sinceTs : Int64) :
    s.catchupPackets zstd order isLocalOnly col sinceTs = t.catchupPackets zstd order isLocalOnly col sinceTs := by
  simp only [StorageEngine.catchupPackets,h.collectCatchupOps]

end StorageEngine.SameEntries

namespace CatchupServer
variable {Ledger : Type} {env : Env Ledger} {order : HashOrder String Pointer} {s : CatchupServer Ledger}
variable {col : String} {clientTs serverTs : Int64}

/-- A miss sends what it computes, and puts it into the cache with what it was made from. -/
theorem sendCatchupDeltas_miss {shard : StorageEngine} (hmiss : s.cached col clientTs serverTs = none)
    (hinv : s.Inv env order) :
    (s.sendCatchupDeltas env order shard col clientTs serverTs).2 =
        shard.catchupPackets env.zstd order (s.db.isLocalOnly col) col clientTs ∧
      (s.sendCatchupDeltas env order shard col clientTs serverTs).1.Inv env order := by
  rw [sendCatchupDeltas,hmiss]
  cases hops : shard.collectCatchupOps env.zstd order (s.db.isLocalOnly col) clientTs with
  | error e => exact ⟨by rw [StorageEngine.catchupPackets,hops]; rfl,hinv⟩
  | ok ops =>
    have hpackets : shard.catchupPackets env.zstd order (s.db.isLocalOnly col) col clientTs = .ok (catchupPages col ops) := by
      rw [StorageEngine.catchupPackets,hops]
      rfl
    dsimp only
    split
    · rename_i hnil
      subst hnil
      exact ⟨hpackets.symm,hinv⟩
    · refine ⟨hpackets.symm,fun c entry hentry => ?_⟩
      rw [lookup_insert_ite] at hentry
      split at hentry
      · rename_i hc
        subst hc
        cases hentry
        exact hpackets
      · exact hinv c entry hentry

theorem Inv.withHako (h : s.Inv env order) (hako : Hako Ledger) : (s.withHako hako).Inv env order := h

theorem Inv.sendCatchupDeltas (h : s.Inv env order) (shard : StorageEngine) (col : String) (clientTs serverTs : Int64) :
    (s.sendCatchupDeltas env order shard col clientTs serverTs).1.Inv env order := by
  cases hcached : s.cached col clientTs serverTs with
  | some packets =>
    rw [CatchupServer.sendCatchupDeltas,hcached]
    exact h
  | none => exact (sendCatchupDeltas_miss hcached h).2

theorem Inv.join (h : s.Inv env order) (col : String) (clientTs : Int64) (verified : Bool) :
    (s.join env order col clientTs verified).1.Inv env order := by
  unfold CatchupServer.join
  split
  · exact h
  · exact h
  · split
    · exact h
    · split
      · exact (h.withHako _).sendCatchupDeltas _ _ _ _
      · exact h

/-- Every step keeps the cache in order; all but a join leave it alone. -/
theorem Inv.step (h : s.Inv env order) (a : CatchupAct) : (s.step env order a).Inv env order := by
  cases a with
  | join col clientTs verified => exact h.join col clientTs verified
  | replicate instant nowMicros col ops =>
    rw [CatchupServer.step]
    split <;> exact h
  | _ => exact h

theorem Inv.run (h : s.Inv env order) (acts : List CatchupAct) : (s.run env order acts).Inv env order := by
  induction acts generalizing s with
  | nil => exact h
  | cons a acts ih => exact ih (h.step a)

theorem inv_fresh (db : Guarded Ledger) : (fresh db).Inv env order := by
  intro col entry hentry
  simp [fresh] at hentry

theorem cached_eq_some {packets : List CatchupPacket} (h : s.cached col clientTs serverTs = some packets) :
    ∃ entry,s.cache.lookup col = some entry ∧
      entry.serverTs = serverTs ∧ clientTs = 0 ∧ entry.packets = packets := by
  unfold cached at h
  split at h
  · rename_i entry hentry
    split at h
    · rename_i hhit
      exact ⟨entry,hentry,hhit.1,hhit.2,Option.some.inj h⟩
    · cases h
  · cases h

/-- An allowed join sends the pages of the current state. -/
theorem sendsCurrent_of_allows (hinv : s.Inv env order) {verified : Bool}
    (hallows : s.Allows env order (.join col clientTs verified)) :
    s.SendsCurrent env order col clientTs verified := by
  intro shard h serverTs hget hversion hlt hserves
  obtain ⟨hshard,rfl⟩ := Hako.getShard_ok hget
  rw [join,hget]
  simp only [hversion,hlt,hserves,and_self,if_true]
  cases hcached : (s.withHako (s.db.hako.withShard col shard)).cached col clientTs serverTs with
  | none => exact (sendCatchupDeltas_miss hcached (hinv.withHako _)).1
  | some packets =>
    obtain ⟨entry,hentry,rfl,rfl,rfl⟩ := cached_eq_some hcached
    obtain ⟨hzero,hsame,hlocal⟩ := hallows rfl entry shard hentry hshard hversion
    have hmade := hinv col entry hentry
    rw [hzero,hsame.catchupPackets,hlocal] at hmade
    rw [sendCatchupDeltas,hcached]
    exact hmade.symm

theorem allows_of_allowsAll {first rest : List CatchupAct} {a : CatchupAct} (h : s.AllowsAll env order (first++a::rest)) :
    (s.run env order first).Allows env order a := by
  induction first generalizing s with
  | nil => exact h.1
  | cons b first ih => exact ih h.2

/-- In a run whose joins are all allowed, every client that passes the guards is sent the pages of the collection's
state at that moment. -/
theorem run_sendsCurrent (db : Guarded Ledger) {first rest : List CatchupAct} {col : String} {clientTs : Int64}
    {verified : Bool} (hacts : (fresh db).AllowsAll env order (first++.join col clientTs verified::rest)) :
    ((fresh db).run env order first).SendsCurrent env order col clientTs verified :=
  sendsCurrent_of_allows ((inv_fresh db).run first) (allows_of_allowsAll hacts)

/-- A server whose collection holds one document of timestamp 10 and one of timestamp 20. -/
def twoDocs : CatchupServer Unit :=
  (fresh (WriteCall.guardedEngine [] false)).run Hako.plainEnv .byKey
    [.ingest (fun _ => true) 0 1000
      [("c",[⟨.putInlined "a" (HakoDoc.encode ⟨[],10⟩),none⟩,⟨.putInlined "b" (HakoDoc.encode ⟨[],20⟩),none⟩])]]

/-- The pages for the client that knows timestamp 10 are what the client without a timestamp gets. -/
theorem join_sendsOthersPages :
    ((twoDocs.step Hako.plainEnv .byKey (.join "c" 10 true)).join Hako.plainEnv .byKey "c" 0 true).2 =
      .ok [⟨0,"c",[.putInlined "b" (HakoDoc.encode ⟨[],20⟩)]⟩] ∧
    ¬(twoDocs.step Hako.plainEnv .byKey (.join "c" 10 true)).SendsCurrent Hako.plainEnv .byKey "c" 0 true := by
  have hsent : ((twoDocs.step Hako.plainEnv .byKey (.join "c" 10 true)).join Hako.plainEnv .byKey "c" 0 true).2 =
      .ok [⟨0,"c",[.putInlined "b" (HakoDoc.encode ⟨[],20⟩)]⟩] := rfl
  refine ⟨hsent,fun h => ?_⟩
  have hcurrent := hsent.symm.trans (h _ _ 20 rfl rfl (by decide) rfl)
  exact absurd (congrArg (fun r : Res (List CatchupPacket) => r.toOption.map fun ps => ps.map fun p => p.ops.length) hcurrent)
    (by decide +kernel)

/-- Two clients without a timestamp, one after the other. -/
theorem run_sendsCurrent_sameTwice :
    twoDocs.AllowsAll Hako.plainEnv .byKey [.join "c" 0 true,.join "c" 0 true] ∧
    (twoDocs.step Hako.plainEnv .byKey (.join "c" 0 true)).SendsCurrent Hako.plainEnv .byKey "c" 0 true := by
  have hallows : twoDocs.AllowsAll Hako.plainEnv .byKey [.join "c" 0 true,.join "c" 0 true] := by
    refine ⟨fun _ entry shard hentry => ?_,fun _ entry shard hentry hshard _ => ?_,trivial⟩
    · have hempty : twoDocs.cache = ∅ := rfl
      simp [hempty] at hentry
    · have hfilled : ((twoDocs.step Hako.plainEnv .byKey (.join "c" 0 true)).cache.lookup "c").map
          CatchupCacheEntry.shard = (twoDocs.step Hako.plainEnv .byKey (.join "c" 0 true)).db.hako.shardOf "c" := rfl
      have hzero : ((twoDocs.step Hako.plainEnv .byKey (.join "c" 0 true)).cache.lookup "c").map
          CatchupCacheEntry.clientTs = some 0 := rfl
      have hlocal : ((twoDocs.step Hako.plainEnv .byKey (.join "c" 0 true)).cache.lookup "c").map
          CatchupCacheEntry.isLocalOnly =
            some ((twoDocs.step Hako.plainEnv .byKey (.join "c" 0 true)).db.isLocalOnly "c") := rfl
      rw [hentry] at hfilled hzero hlocal
      obtain rfl := Option.some.inj (hfilled.trans hshard)
      exact ⟨Option.some.inj hzero,⟨rfl,rfl,rfl⟩,Option.some.inj hlocal⟩
  have hrun : (fresh (WriteCall.guardedEngine [] false)).AllowsAll Hako.plainEnv .byKey
      ([.ingest (fun _ => true) 0 1000
        [("c",[⟨.putInlined "a" (HakoDoc.encode ⟨[],10⟩),none⟩,⟨.putInlined "b" (HakoDoc.encode ⟨[],20⟩),none⟩])],
        .join "c" 0 true]++.join "c" 0 true::[]) := ⟨trivial,hallows⟩
  exact ⟨hallows,run_sendsCurrent (WriteCall.guardedEngine [] false) hrun⟩

end CatchupServer

end HakoDB

import HakoDB.Engine.Sequential
import HakoDB.Sync.Replicated

/-! The echo cache of the mesh. What was accepted from a peer is noted by its key and its time, and the next record of the log
with both is not sent on. A key has one place in the cache, whatever the collection. -/
namespace HakoDB
open ByteCodec HashMap

namespace WalOp

/-- Transaction markers have the empty key. -/
def getKey (op : WalOp) : String := op.key?.getD ""

/-- The time in the bytes of an inlined value, or of a delete. -/
def logicalTime : WalOp → Int64
  | .putInlined _ value => if value.length < 10 then 0 else bytesI64 ((value.drop 2).take 8)
  | .delete _ timestamp => timestamp
  | _ => 0

/-- What goes out for a record whose bytes are resolved in the given way: deletes as they are, markers not at all. -/
def wire (resolve : WalOp → Option Bytes) (op : WalOp) : Option WalOp :=
  match resolve op with
  | some bytes => some (.putInlined op.getKey bytes)
  | none =>
    match op with
    | .delete _ _ => some op
    | _ => none

end WalOp

/-- A hit is taken out of the cache. -/
def echoTake (cache : HMap String Int64) (key : String) (ts : Int64) : Bool × HMap String Int64 :=
  match cache.lookup key with
  | some cached => if cached = ts then (true,cache.erase key) else (false,cache)
  | none => (false,cache)

/-- A record of a log, with a mark if it was accepted from a peer. -/
structure MeshRecord where
  op : WalOp
  remote : Bool
  deriving DecidableEq

/-- A batch from a peer between its markers. -/
def batchRecords (txId : UInt64) (ops : List WalOp) : List MeshRecord :=
  ⟨.beginTx txId,false⟩::(ops.map (fun op => ⟨op,true⟩)++[⟨.commitTx txId,false⟩])

/-- One record of a poll. -/
def tailRecord (resolve : WalOp → Option Bytes) (st : HMap String Int64 × List WalOp) (r : MeshRecord) :
    HMap String Int64 × List WalOp :=
  let taken := echoTake st.1 r.op.getKey r.op.logicalTime
  if taken.1 then (taken.2,st.2) else (taken.2,st.2++(r.op.wire resolve).toList)

/-- A node of the mesh: the engine, the records of its logs, how far each was read, and the cache. -/
structure MeshNode (Ledger : Type) where
  db : Hako Ledger
  log : String → List MeshRecord
  offsets : String → ℕ
  echo : HMap String Int64

inductive MeshAct (Ledger : Type)
  | ingest (instant : ℕ) (nowMicros : Int64) (collection : String) (ops : List WalOp)
  | write (db : Hako Ledger) (collection : String) (ops : List WalOp)
  | poll (collection : String) (resolve : WalOp → Option Bytes)

namespace MeshNode
variable {Ledger : Type} (env : Env Ledger) (m : MeshNode Ledger)

def unread (collection : String) : List MeshRecord := (m.log collection).drop (m.offsets collection)

def append (collection : String) (records : List MeshRecord) : MeshNode Ledger :=
  {m with log := Function.update m.log collection (m.log collection++records)}

/-- What a batch from a peer leaves in the log: the accepted operations and the number of their transaction. -/
def accepted (collection : String) (ops : List WalOp) : Res (UInt64 × List WalOp) :=
  if collection ∈ m.db.localOnlyCols then .ok (0,[])
  else match m.db.getShard collection with
    | .error .panic => .error .panic
    | .error (.error _) => .ok (0,[])
    | .ok (s,h) => (s.acceptAll env.zstd collection h.config.valueBlobThresholdBytes ops).map fun acc => (s.nextTxId,acc.ops)

def ingest (instant : ℕ) (nowMicros : Int64) (collection : String) (ops : List WalOp) : Res (MeshNode Ledger) := do
  let (txId,accepted) ← m.accepted env collection ops
  let db ← m.db.applyReplicatedBatch env instant nowMicros collection ops
  if accepted = [] then return {m with db := db}
  else
    let echo := insertAll m.echo (accepted.map fun op => (op.getKey,op.logicalTime))
    return MeshNode.append {m with db := db, echo := echo} collection (batchRecords txId accepted)

/-- The records that a poll passes on, and the node behind it. -/
def poll (collection : String) (resolve : WalOp → Option Bytes) : MeshNode Ledger × List WalOp :=
  let (echo,sent) := (m.unread collection).foldl (tailRecord resolve) (m.echo,[])
  ({m with echo := echo, offsets := Function.update m.offsets collection (m.log collection).length},sent)

def act : MeshAct Ledger → Res (MeshNode Ledger)
  | .ingest instant nowMicros collection ops => m.ingest env instant nowMicros collection ops
  | .write db collection ops => .ok (MeshNode.append {m with db := db} collection (ops.map fun op => ⟨op,false⟩))
  | .poll collection resolve => .ok (m.poll collection resolve).1

def run (acts : List (MeshAct Ledger)) : Res (MeshNode Ledger) := acts.foldlM (act env) m

/-- The accepted operations are the first of their keys that wait, and nothing else that waits has their key and time. -/
structure Clear (ops : List WalOp) : Prop where
  keys : (ops.map WalOp.getKey).Nodup
  first : ∀ op ∈ ops,∀ col,∀ r ∈ m.unread col,r.remote = true → r.op.getKey ≠ op.getKey
  only : ∀ op ∈ ops,∀ col,∀ r ∈ m.unread col,r.remote = false → ¬(r.op.getKey = op.getKey ∧ r.op.logicalTime = op.logicalTime)
  named : ∀ op ∈ ops,¬(op.getKey = "" ∧ op.logicalTime = 0)

/-- The condition on a step: a batch from a peer is clear, no local record has the key and the time of an accepted operation
that waits, and a poll finds the bytes of the local operations. -/
def ActOk : MeshAct Ledger → Prop
  | .ingest _ _ collection ops => ∀ txId acc,m.accepted env collection ops = .ok (txId,acc) → m.Clear acc
  | .write _ _ ops => ∀ op ∈ ops,∀ col,∀ r ∈ m.unread col,r.remote = true →
      ¬(r.op.getKey = op.getKey ∧ r.op.logicalTime = op.logicalTime)
  | .poll collection resolve => ∀ r ∈ m.unread collection,r.remote = false → r.op.isData = true → (r.op.wire resolve).isSome

/-- Every step of a run meets the condition. -/
def RunOk (m : MeshNode Ledger) : List (MeshAct Ledger) → Prop
  | [] => True
  | a::acts => m.ActOk env a ∧ ∀ m',m.act env a = .ok m' → RunOk m' acts

/-- A poll sends on the local operations, each of them, and no others. -/
structure Exact (collection : String) (resolve : WalOp → Option Bytes) : Prop where
  sent : (m.poll collection resolve).2 =
    ((m.unread collection).filter fun r => !r.remote).filterMap fun r => r.op.wire resolve
  whole : ∀ r ∈ m.unread collection,r.remote = false → r.op.isData = true →
    ∃ op ∈ (m.poll collection resolve).2,r.op.wire resolve = some op

/-- A node that has just been started. -/
structure Started : Prop where
  echo : m.echo = ∅
  read : ∀ col,∀ r ∈ m.unread col,r.remote = false
  inside : ∀ col,m.offsets col ≤ (m.log col).length

/-- The cache has exactly the accepted operations that wait, one for a key. -/
structure Inv : Prop where
  cached : ∀ key ts,m.echo.lookup key = some ts ↔
    ∃ col,∃ r ∈ m.unread col,r.remote = true ∧ r.op.getKey = key ∧ r.op.logicalTime = ts
  alone : ∀ col,(((m.unread col).filter (·.remote)).map fun r => r.op.getKey).Nodup
  apart : ∀ col col',col ≠ col' → ∀ r ∈ m.unread col,r.remote = true → ∀ r' ∈ m.unread col',r'.remote = true →
    r.op.getKey ≠ r'.op.getKey
  quiet : ∀ col,∀ r ∈ m.unread col,r.remote = false → m.echo.lookup r.op.getKey ≠ some r.op.logicalTime
  named : ∀ col,∀ r ∈ m.unread col,r.remote = true → ¬(r.op.getKey = "" ∧ r.op.logicalTime = 0)
  inside : ∀ col,m.offsets col ≤ (m.log col).length

end MeshNode

/-- Over records of which the accepted ones are cached, one for a key, and the others are not, a poll sends the others. -/
theorem foldl_tailRecord (resolve : WalOp → Option Bytes) (rs : List MeshRecord) (cache : HMap String Int64) (out : List WalOp)
    (hremote : ∀ r ∈ rs,r.remote = true → cache.lookup r.op.getKey = some r.op.logicalTime)
    (hone : ((rs.filter (·.remote)).map fun r => r.op.getKey).Nodup)
    (hlocal : ∀ r ∈ rs,r.remote = false → cache.lookup r.op.getKey ≠ some r.op.logicalTime) :
    (rs.foldl (tailRecord resolve) (cache,out)).2 = out++(rs.filter fun r => !r.remote).filterMap (fun r => r.op.wire resolve) ∧
      ∀ key ts,(rs.foldl (tailRecord resolve) (cache,out)).1.lookup key = some ts ↔
        key ∉ (rs.filter (·.remote)).map (fun r => r.op.getKey) ∧ cache.lookup key = some ts := by
  induction rs generalizing cache out with
  | nil => simp
  | cons r rs ih =>
    rw [List.foldl_cons]
    cases hr : r.remote with
    | true =>
      have htake : tailRecord resolve (cache,out) r = (cache.erase r.op.getKey,out) := by
        simp [tailRecord,echoTake,hremote r List.mem_cons_self hr]
      rw [List.filter_cons_of_pos hr,List.map_cons,List.nodup_cons] at hone
      have hother : ∀ x ∈ rs,x.remote = true → x.op.getKey ≠ r.op.getKey := fun x hx hxr he =>
        hone.1 (he ▸ List.mem_map_of_mem (List.mem_filter.2 ⟨hx,hxr⟩))
      obtain ⟨hsent,hcache⟩ := ih (cache.erase r.op.getKey) out
        (fun x hx hxr => by
          rw [lookup_erase_ite,if_neg (hother x hx hxr)]
          exact hremote x (List.mem_cons_of_mem r hx) hxr)
        hone.2
        (fun x hx hxr => by
          rw [lookup_erase_ite]
          split_ifs
          · exact Option.some_ne_none _ ∘ Eq.symm
          · exact hlocal x (List.mem_cons_of_mem r hx) hxr)
      rw [htake]
      refine ⟨by rw [hsent]; simp [hr],fun key ts => ?_⟩
      rw [hcache,lookup_erase_ite,List.filter_cons_of_pos hr,List.map_cons,List.mem_cons,not_or]
      by_cases hk : key = r.op.getKey <;> simp [hk]
    | false =>
      have htake : tailRecord resolve (cache,out) r = (cache,out++(r.op.wire resolve).toList) := by
        have hmiss := hlocal r List.mem_cons_self hr
        unfold tailRecord echoTake
        cases hc : cache.lookup r.op.getKey with
        | none => rfl
        | some ts =>
          have hne : ts ≠ r.op.logicalTime := fun he => hmiss (hc.trans (congrArg some he))
          simp [hne]
      have hplain : ¬r.remote = true := by simp [hr]
      rw [List.filter_cons_of_neg hplain] at hone
      obtain ⟨hsent,hcache⟩ := ih cache (out++(r.op.wire resolve).toList) (fun x hx => hremote x (List.mem_cons_of_mem r hx)) hone
        fun x hx => hlocal x (List.mem_cons_of_mem r hx)
      rw [htake]
      refine ⟨?_,fun key ts => by rw [hcache,List.filter_cons_of_neg hplain]⟩
      rw [hsent,List.filter_cons_of_pos (by simp [hr]),List.append_assoc]
      cases hw : r.op.wire resolve <;> simp [hw]

namespace MeshNode
variable {Ledger : Type} {env : Env Ledger} {m m' : MeshNode Ledger}

theorem Started.inv (h : m.Started) : m.Inv where
  cached key ts := by
    rw [h.echo,Finmap.lookup_empty]
    refine iff_of_false (Option.some_ne_none ts ∘ Eq.symm) ?_
    rintro ⟨col,r,hr,hremote,-⟩
    rw [h.read col r hr] at hremote
    cases hremote
  alone col := by
    rw [List.filter_eq_nil_iff.2 fun r hr => by simp [h.read col r hr]]
    exact List.nodup_nil
  apart col col' _ r hr hremote := by
    rw [h.read col r hr] at hremote
    cases hremote
  quiet col r _ _ := by
    rw [h.echo,Finmap.lookup_empty]
    exact Option.some_ne_none _ ∘ Eq.symm
  named col r hr hremote := by
    rw [h.read col r hr] at hremote
    cases hremote
  inside := h.inside

theorem Inv.exact (h : m.Inv) {collection : String} {resolve : WalOp → Option Bytes} (hok : m.ActOk env (.poll collection resolve)) :
    m.Exact collection resolve := by
  have hsent := (foldl_tailRecord resolve (m.unread collection) m.echo []
    (fun r hr hremote => (h.cached _ _).2 ⟨collection,r,hr,hremote,rfl,rfl⟩) (h.alone collection) (h.quiet collection)).1
  refine ⟨hsent,fun r hr hlocal hdata => ?_⟩
  obtain ⟨op,hop⟩ := Option.isSome_iff_exists.1 (hok r hr hlocal hdata)
  have hkept : r ∈ (m.unread collection).filter fun r => !r.remote := List.mem_filter.2 ⟨hr,by simp [hlocal]⟩
  exact ⟨op,hsent ▸ List.mem_filterMap.2 ⟨r,hkept,hop⟩,hop⟩

theorem unread_poll (m : MeshNode Ledger) (collection : String) (resolve : WalOp → Option Bytes) (col : String) :
    (m.poll collection resolve).1.unread col = if col = collection then [] else m.unread col := by
  unfold unread poll
  by_cases hcol : col = collection
  · subst hcol
    simp
  · simp [hcol]

theorem Inv.poll (h : m.Inv) (collection : String) (resolve : WalOp → Option Bytes) : (m.poll collection resolve).1.Inv := by
  have hcache := (foldl_tailRecord resolve (m.unread collection) m.echo []
    (fun r hr hremote => (h.cached _ _).2 ⟨collection,r,hr,hremote,rfl,rfl⟩) (h.alone collection) (h.quiet collection)).2
  have hunread : ∀ {col r},r ∈ (m.poll collection resolve).1.unread col → col ≠ collection ∧ r ∈ m.unread col := by
    intro col r hr
    rw [unread_poll] at hr
    split_ifs at hr with hcol
    · cases hr
    · exact ⟨hcol,hr⟩
  constructor
  · intro key ts
    refine (hcache key ts).trans ?_
    rw [h.cached]
    constructor
    · rintro ⟨hkey,col,r,hr,hremote,rfl,hts⟩
      have hcol : col ≠ collection := fun he => hkey (List.mem_map_of_mem (List.mem_filter.2 ⟨he ▸ hr,hremote⟩))
      exact ⟨col,r,by rw [unread_poll,if_neg hcol]; exact hr,hremote,rfl,hts⟩
    · rintro ⟨col,r,hr,hremote,rfl,hts⟩
      obtain ⟨hcol,hr⟩ := hunread hr
      refine ⟨fun hmem => ?_,col,r,hr,hremote,rfl,hts⟩
      obtain ⟨r',hr',hkey⟩ := List.mem_map.1 hmem
      obtain ⟨hr',hremote'⟩ := List.mem_filter.1 hr'
      exact h.apart col collection hcol r hr hremote r' hr' hremote' hkey.symm
  · intro col
    rw [unread_poll]
    split_ifs
    · exact List.nodup_nil
    · exact h.alone col
  · intro col col' hne r hr hremote r' hr' hremote'
    exact h.apart col col' hne r (hunread hr).2 hremote r' (hunread hr').2 hremote'
  · intro col r hr hlocal hlookup
    obtain ⟨-,hold⟩ := (hcache _ _).1 hlookup
    exact h.quiet col r (hunread hr).2 hlocal hold
  · intro col r hr
    exact h.named col r (hunread hr).2
  · intro col
    by_cases hcol : col = collection
    · subst hcol
      simp [MeshNode.poll]
    · simpa [MeshNode.poll,hcol] using h.inside col

theorem unread_append (h : m.offsets collection ≤ (m.log collection).length) (records : List MeshRecord) (col : String) :
    (m.append collection records).unread col = m.unread col++if col = collection then records else [] := by
  unfold unread append
  by_cases hcol : col = collection
  · subst hcol
    simp [List.drop_append_of_le_length h]
  · simp [hcol]

theorem lookup_echo {ops : List WalOp} (hkeys : (ops.map WalOp.getKey).Nodup) (cache : HMap String Int64) (key : String) (ts : Int64) :
    (insertAll cache (ops.map fun op => (op.getKey,op.logicalTime))).lookup key = some ts ↔
      (∃ op ∈ ops,op.getKey = key ∧ op.logicalTime = ts) ∨ (∀ op ∈ ops,op.getKey ≠ key) ∧ cache.lookup key = some ts := by
  have hnodup : ((ops.map fun op => (op.getKey,op.logicalTime)).map Prod.fst).Nodup := by
    rw [List.map_map]
    exact hkeys
  rw [lookup_insertAll]
  cases hlast : lastValue key (ops.map fun op => (op.getKey,op.logicalTime)) with
  | some w =>
    obtain ⟨op,hop,heq⟩ := List.mem_map.1 ((lastValue_of_nodup hnodup).1 hlast)
    obtain ⟨rfl,rfl⟩ := Prod.mk.inj heq
    rw [Option.some_or,Option.some.injEq]
    constructor
    · exact fun hts => .inl ⟨op,hop,rfl,hts⟩
    · rintro (⟨op',hop',hkey,hts⟩ | ⟨hnone,-⟩)
      · rw [← List.inj_on_of_nodup_map hkeys hop' hop hkey]
        exact hts
      · exact absurd rfl (hnone op hop)
  | none =>
    have hnone : ∀ op ∈ ops,op.getKey ≠ key := fun op hop => lastValue_eq_none.1 hlast _ (List.mem_map_of_mem hop)
    rw [Option.none_or]
    constructor
    · exact fun hts => .inr ⟨hnone,hts⟩
    · rintro (⟨op,hop,hkey,-⟩ | ⟨-,hts⟩)
      · exact absurd hkey (hnone op hop)
      · exact hts

/-- New records of which the accepted ones are cached. -/
theorem Inv.grow (h : m.Inv) (db : Hako Ledger) (collection : String) {new : List MeshRecord} {acc : List WalOp}
    (hclear : m.Clear acc) (hnew : new.filter (·.remote) = acc.map fun op => ⟨op,true⟩)
    (hlocal : ∀ r ∈ new,r.remote = false → (∀ op ∈ acc,¬(op.getKey = r.op.getKey ∧ op.logicalTime = r.op.logicalTime)) ∧
      m.echo.lookup r.op.getKey ≠ some r.op.logicalTime) :
    (MeshNode.append {m with db := db, echo := insertAll m.echo (acc.map fun op => (op.getKey,op.logicalTime))}
      collection new).Inv := by
  have hunread : ∀ col,(MeshNode.append {m with db := db, echo := insertAll m.echo (acc.map fun op => (op.getKey,op.logicalTime))}
      collection new).unread col = m.unread col++if col = collection then new else [] := fun col => unread_append (h.inside collection) new col
  have hmem : ∀ col r,r ∈ (m.unread col++if col = collection then new else []) ↔ r ∈ m.unread col ∨ col = collection ∧ r ∈ new := by
    intro col r
    by_cases hcol : col = collection <;> simp [hcol]
  have haccepted : ∀ r ∈ new,r.remote = true → r.op ∈ acc := by
    intro r hr hremote
    have hin : r ∈ new.filter (·.remote) := List.mem_filter.2 ⟨hr,hremote⟩
    rw [hnew] at hin
    obtain ⟨op,hop,rfl⟩ := List.mem_map.1 hin
    exact hop
  have hrecord : ∀ op ∈ acc,⟨op,true⟩ ∈ new := by
    intro op hop
    have hin : (⟨op,true⟩ : MeshRecord) ∈ acc.map fun op => ⟨op,true⟩ := List.mem_map_of_mem hop
    rw [← hnew] at hin
    exact (List.mem_filter.1 hin).1
  constructor
  · intro key ts
    refine (lookup_echo hclear.keys m.echo key ts).trans ?_
    simp only [hunread,hmem]
    constructor
    · rintro (⟨op,hop,hkey,hts⟩ | ⟨-,hold⟩)
      · exact ⟨collection,⟨op,true⟩,.inr ⟨rfl,hrecord op hop⟩,rfl,hkey,hts⟩
      · obtain ⟨col,r,hr,hrest⟩ := (h.cached key ts).1 hold
        exact ⟨col,r,.inl hr,hrest⟩
    · rintro ⟨col,r,hr | ⟨-,hr⟩,hremote,hkey,hts⟩
      · refine .inr ⟨fun op hop he => ?_,(h.cached key ts).2 ⟨col,r,hr,hremote,hkey,hts⟩⟩
        exact hclear.first op hop col r hr hremote (hkey.trans he.symm)
      · exact .inl ⟨r.op,haccepted r hr hremote,hkey,hts⟩
  · intro col
    rw [hunread,List.filter_append,List.map_append,List.nodup_append']
    refine ⟨h.alone col,?_,?_⟩
    · split_ifs
      · rw [hnew,List.map_map]
        exact hclear.keys
      · exact List.nodup_nil
    · intro key hold hin
      obtain ⟨r,hr,rfl⟩ := List.mem_map.1 hold
      obtain ⟨hr,hremote⟩ := List.mem_filter.1 hr
      obtain ⟨r',hr',hkey⟩ := List.mem_map.1 hin
      obtain ⟨hr',hremote'⟩ := List.mem_filter.1 hr'
      split_ifs at hr' with hcol
      · exact hclear.first r'.op (haccepted r' hr' hremote') col r hr hremote hkey.symm
      · cases hr'
  · intro col col' hne r hr hremote r' hr' hremote'
    rw [hunread,hmem] at hr hr'
    rcases hr with hr | ⟨rfl,hr⟩ <;> rcases hr' with hr' | ⟨rfl,hr'⟩
    · exact h.apart col col' hne r hr hremote r' hr' hremote'
    · exact hclear.first r'.op (haccepted r' hr' hremote') col r hr hremote
    · exact Ne.symm (hclear.first r.op (haccepted r hr hremote) col' r' hr' hremote')
    · exact absurd rfl hne
  · intro col r hr hremote hlookup
    rw [hunread,hmem] at hr
    rcases (lookup_echo hclear.keys m.echo _ _).1 hlookup with ⟨op,hop,hkey,hts⟩ | ⟨-,hold⟩ <;> rcases hr with hr | ⟨-,hr⟩
    · exact hclear.only op hop col r hr hremote ⟨hkey.symm,hts.symm⟩
    · exact (hlocal r hr hremote).1 op hop ⟨hkey,hts⟩
    · exact h.quiet col r hr hremote hold
    · exact (hlocal r hr hremote).2 hold
  · intro col r hr hremote
    rw [hunread,hmem] at hr
    rcases hr with hr | ⟨-,hr⟩
    · exact h.named col r hr hremote
    · exact hclear.named r.op (haccepted r hr hremote)
  · intro col
    have hinside := h.inside col
    by_cases hcol : col = collection
    · subst hcol
      simp only [MeshNode.append,Function.update_self,List.length_append]
      omega
    · simpa [MeshNode.append,hcol] using hinside

theorem Inv.ingest {instant : ℕ} {nowMicros : Int64} {collection : String} {ops : List WalOp} (h : m.Inv)
    (hok : m.ActOk env (.ingest instant nowMicros collection ops))
    (hact : m.ingest env instant nowMicros collection ops = .ok m') : m'.Inv := by
  obtain ⟨⟨txId,acc⟩,hacc,hrest⟩ := bind_eq_ok.1 hact
  obtain ⟨db,-,hrest⟩ := bind_eq_ok.1 hrest
  have hclear := hok txId acc hacc
  dsimp only at hrest
  split_ifs at hrest with hnone
  · obtain rfl := Except.ok.inj hrest
    exact ⟨h.cached,h.alone,h.apart,h.quiet,h.named,h.inside⟩
  · obtain rfl := Except.ok.inj hrest
    refine h.grow db collection hclear ?_ fun r hr hlocal => ?_
    · simp [batchRecords,List.filter_map,Function.comp_def]
    · have hmarker : r.op.getKey = "" ∧ r.op.logicalTime = 0 := by
        rcases List.mem_cons.1 hr with rfl | hr
        · exact ⟨rfl,rfl⟩
        · rcases List.mem_append.1 hr with hr | hr
          · obtain ⟨op,-,rfl⟩ := List.mem_map.1 hr
            cases hlocal
          · rw [List.mem_singleton.1 hr]
            exact ⟨rfl,rfl⟩
      rw [hmarker.1,hmarker.2]
      refine ⟨fun op hop => hclear.named op hop,fun hlookup => ?_⟩
      obtain ⟨col,x,hx,hremote,hkey,hts⟩ := (h.cached _ _).1 hlookup
      exact h.named col x hx hremote ⟨hkey,hts⟩

theorem Inv.write {db : Hako Ledger} {collection : String} {ops : List WalOp} (h : m.Inv)
    (hok : m.ActOk env (.write db collection ops)) :
    (MeshNode.append {m with db := db} collection (ops.map fun op => ⟨op,false⟩)).Inv := by
  have hclear : m.Clear [] := ⟨List.nodup_nil,by simp,by simp,by simp⟩
  refine h.grow db collection hclear ?_ fun r hr _ => ⟨by simp,fun hlookup => ?_⟩
  · simp [List.filter_map,Function.comp_def]
  · obtain ⟨op,hop,rfl⟩ := List.mem_map.1 hr
    obtain ⟨col,x,hx,hremote,hkey,hts⟩ := (h.cached _ _).1 hlookup
    exact hok op hop col x hx hremote ⟨hkey,hts⟩

theorem Inv.act {a : MeshAct Ledger} (h : m.Inv) (hok : m.ActOk env a) (hact : m.act env a = .ok m') : m'.Inv := by
  cases a with
  | ingest instant nowMicros collection ops => exact h.ingest hok hact
  | write db collection ops => exact Except.ok.inj hact ▸ h.write hok
  | poll collection resolve => exact Except.ok.inj hact ▸ h.poll collection resolve

theorem Inv.run {acts : List (MeshAct Ledger)} {a : MeshAct Ledger} (h : m.Inv) (hok : m.RunOk env (acts++[a]))
    (hrun : m.run env acts = .ok m') : m'.Inv ∧ m'.ActOk env a := by
  induction acts generalizing m with
  | nil =>
    obtain rfl := Except.ok.inj hrun
    exact ⟨h,hok.1⟩
  | cons b acts ih =>
    obtain ⟨m₁,hact,hrest⟩ := bind_eq_ok.1 hrun
    exact ih (h.act hok.1 hact) (hok.2 m₁ hact) hrest

/-- In a run of clear batches every poll sends on the local operations and nothing that came from a peer. -/
theorem exact_of_run (env : Env Ledger) (m₀ m : MeshNode Ledger) (acts : List (MeshAct Ledger)) (collection : String)
    (resolve : WalOp → Option Bytes) (hstart : m₀.Started) (hok : m₀.RunOk env (acts++[.poll collection resolve]))
    (hrun : m₀.run env acts = .ok m) : m.Exact collection resolve := by
  obtain ⟨hinv,hpoll⟩ := hstart.inv.run hok hrun
  exact hinv.exact hpoll

section fixtures
open Hako

def startedNode : MeshNode Unit := ⟨oneCollection "c",fun _ => [],fun _ => 0,∅⟩

def meshPut (key : String) (time : Int64) : WalOp := .putInlined key (HakoDoc.encode ⟨[],time⟩)

def inlinedBytes : WalOp → Option Bytes
  | .putInlined _ value => some value
  | _ => none

def sentBy (acts : List (MeshAct Unit)) (collection : String) : Option (List WalOp) :=
  (startedNode.run plainEnv acts).toOption.map fun m => (m.poll collection inlinedBytes).2

/-- Of two batches for one key the first is sent back, and a local write of another collection is swallowed by a batch with
its key and time. -/
theorem echo_overwritten :
    sentBy [.ingest 0 0 "c" [meshPut "k" 5],.ingest 0 0 "c" [meshPut "k" 9]] "c" = some [meshPut "k" 5] ∧
    sentBy [.write (oneCollection "c") "d" [meshPut "k" 5],.ingest 0 0 "c" [meshPut "k" 5]] "d" = some [] := by
  decide +kernel

theorem exact_of_oneBatch : ∃ m,startedNode.run plainEnv [.ingest 0 0 "c" [meshPut "k" 5]] = .ok m ∧ m.Exact "c" inlinedBytes := by
  have haccepted : ((startedNode.accepted plainEnv "c" [meshPut "k" 5]).toOption.map Prod.snd) = some [meshPut "k" 5] := by
    decide +kernel
  have hunread : ((startedNode.ingest plainEnv 0 0 "c" [meshPut "k" 5]).toOption.map fun m => m.unread "c") =
      some (batchRecords 1 [meshPut "k" 5]) := by
    decide +kernel
  obtain ⟨m,hm⟩ : ∃ m,startedNode.run plainEnv [.ingest 0 0 "c" [meshPut "k" 5]] = .ok m := ⟨_,rfl⟩
  have hempty : ∀ col,∀ r ∈ startedNode.unread col,False := fun col r hr => List.not_mem_nil hr
  have hstart : startedNode.Started := ⟨rfl,fun col r hr => (hempty col r hr).elim,fun col => Nat.zero_le _⟩
  have hok : startedNode.RunOk plainEnv ([.ingest 0 0 "c" [meshPut "k" 5]]++[.poll "c" inlinedBytes]) := by
    refine ⟨fun txId acc hacc => ?_,fun m' hact => ⟨?_,fun _ _ => trivial⟩⟩
    · rw [hacc] at haccepted
      obtain rfl : acc = [meshPut "k" 5] := Option.some.inj haccepted
      exact ⟨by simp,fun op _ col r hr => (hempty col r hr).elim,fun op _ col r hr => (hempty col r hr).elim,by decide⟩
    · have hread : startedNode.ingest plainEnv 0 0 "c" [meshPut "k" 5] = .ok m' := hact
      rw [hread] at hunread
      have hrecords : m'.unread "c" = batchRecords 1 [meshPut "k" 5] := Option.some.inj hunread
      intro r hr
      rw [hrecords] at hr
      revert r
      decide
  exact ⟨m,hm,exact_of_run plainEnv startedNode m _ "c" inlinedBytes hstart hok hm⟩

end fixtures

end MeshNode

end HakoDB

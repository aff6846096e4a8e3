import HakoDB.Engine.FailedBatch
import HakoDB.Lib.Attempt
import HakoDB.Storage.Resolve

/-! The calls that write, with the guards before them. Most of them end in one batch call, which asks for the
read-only switch and for the access rules; the commit of a serializable transaction does not take this way. -/
namespace HakoDB
open ByteCodec HashMap Attempt

/-- A read does not create the shard of a collection that has no directory. -/
def Hako.tryGetShardOnDisk {Ledger : Type} (onDisk : String → Bool) (h : Hako Ledger) (col : String) :
    Res (Option StorageEngine × Hako Ledger) :=
  match h.shards.lookup col with
  | some s => .ok (some s,h)
  | none =>
    if onDisk col then do
      let (s,h) ← h.getShard col
      return (some s,h)
    else .ok (none,h)

inductive AccessOp
  | get
  | put
  | delete
  | query
  | batch
  deriving DecidableEq, Repr

structure SecurityRule where
  collectionPrefix : String
  op : AccessOp
  allow : Bool

def startsWith (s start : String) : Bool := start.toList.isPrefixOf s.toList

/-- The last rule for the operation whose prefix the collection has. -/
def lastRule (rules : List SecurityRule) (col : String) (op : AccessOp) : Option SecurityRule :=
  rules.reverse.find? fun r => op = r.op ∧ startsWith col r.collectionPrefix

/-- What a batch meets: the clocks, and what the disk makes of each log that it writes. -/
structure Turn where
  clock : Clock
  faults : String → IoOutcome

/-- The engine with what its guards look at. -/
structure Guarded (Ledger : Type) where
  hako : Hako Ledger
  readOnly : Bool
  securityEnabled : Bool
  securityRules : List SecurityRule
  syncExcluded : List String
  lazyCollections : List String
  localOnlyKeys : List String
  /-- The directories that were there when the engine was opened and have not been unlinked. -/
  dirs : String → Bool
  encryptionFor : String → Option EncryptionContext
  indexOrder : HashOrder String Pointer
  turns : ℕ → Turn
  batches : ℕ

namespace Guarded
variable {Ledger : Type}

abbrev M (Ledger α : Type) := Attempt.Call (Guarded Ledger) Fault α

def allowed (g : Guarded Ledger) (col : String) (op : AccessOp) : Bool :=
  if !g.securityEnabled then true
  else if g.securityRules.isEmpty then true
  else ((lastRule g.securityRules col op).map SecurityRule.allow).getD true

def setSecurityRules (g : Guarded Ledger) (rules : List SecurityRule) : Guarded Ledger :=
  {g with securityEnabled := !rules.isEmpty, securityRules := rules}

def setReadOnly (g : Guarded Ledger) (ro : Bool) : Guarded Ledger := {g with readOnly := ro}

def syncExcludedCollections : List String := ["__hako_system","__hako_rooms","__users","__groups"]

def isSyncExcludedEffective (g : Guarded Ledger) (col : String) : Bool :=
  syncExcludedCollections.contains col || g.syncExcluded.contains col

/-- A pattern is a name, or the start of one in front of a star. -/
def lazyPatternMatch (patterns : List String) (name : String) : Bool :=
  patterns.any fun p =>
    if p.toList.getLast? = some '*' then p.toList.dropLast.isPrefixOf name.toList else p = name

def isLazyUnloaded (g : Guarded Ledger) (col : String) : Bool :=
  lazyPatternMatch g.lazyCollections col && (g.hako.shards.lookup col).isNone

def isSyncWithheld (g : Guarded Ledger) (col : String) : Bool := g.isSyncExcludedEffective col || g.isLazyUnloaded col

def isCollectionLocal (g : Guarded Ledger) (col : String) : Bool := g.hako.localOnlyCols.contains col

/-- A collection that is loaded has a directory. -/
def onDisk (g : Guarded Ledger) (col : String) : Bool := g.dirs col || (g.hako.shards.lookup col).isSome

/-- The next batch for the writer behind the guards. -/
def writeBatchInternal (env : Env Ledger) (mutations : List BatchMutation) : M Ledger (List String) :=
  ofStep fun g =>
    let turn := g.turns g.batches
    let (h,r) := g.hako.writeBatchWithFaults env turn.faults turn.clock mutations
    ({g with hako := h, batches := g.batches+1},r)

def writeBatch (env : Env Ledger) (mutations : List BatchMutation) : M Ledger (List String) := do
  let g ← get
  if g.readOnly then throw (.error (.corrupt "ReadOnly"))
  else if !mutations.all fun m => g.allowed m.collection .batch then throw (.error (.corrupt "Security Denied"))
  else writeBatchInternal env mutations

/-- The first read whose version has changed, in the order in which the reads are met. -/
def commitSerializable (env : Env Ledger) (reads : List (String × Option ℕ)) (mutations : List BatchMutation) :
    M Ledger (List String) := do
  let g ← get
  match reads.find? fun r => g.hako.currentVersion r.1 ≠ r.2 with
  | some r => throw (.error (.conflict r.1))
  | none => writeBatchInternal env mutations

def firstId (ids : List String) : String := ids.headD ""

def putOwned (env : Env Ledger) (col id : String) (doc : HakoDoc) : M Ledger String := do
  let ids ← writeBatch env [.put col id doc]
  return firstId ids

def put (env : Env Ledger) (col id : String) (doc : HakoDoc) : M Ledger String := putOwned env col id doc

def delete (env : Env Ledger) (col id : String) : M Ledger String := do
  let ids ← writeBatch env [.softDelete col id]
  return firstId ids

def deleteForce (env : Env Ledger) (col id : String) : M Ledger String := do
  let ids ← writeBatch env [.delete col id]
  return firstId ids

def patch (env : Env Ledger) (col id : String) (updates : List (String × Value)) : M Ledger String := do
  let g ← get
  if !g.allowed col .put then throw (.error (.corrupt "Denied"))
  else do
    let ids ← writeBatch env [.patch col id updates]
    return firstId ids

/-- The shard of a collection, opened if need be. -/
def getShard (col : String) : M Ledger StorageEngine :=
  ofStep fun g =>
    match g.hako.getShard col with
    | .ok (s,h) => ({g with hako := h},.ok s)
    | .error e => (g,.error e)

def read (zstd : Option Zstd) (col id : String) : M Ledger (Option HakoDoc) :=
  ofStep fun g =>
    match g.hako.tryGetShardOnDisk g.onDisk col with
    | .ok (some s,h) => ({g with hako := h},s.resolved zstd id)
    | .ok (none,h) => ({g with hako := h},.ok none)
    | .error e => (g,.error e)

/-- A point read without the cache of documents. -/
def getDoc (zstd : Option Zstd) (col id : String) : M Ledger (Option HakoDoc) := do
  let g ← get
  if !g.allowed col .get then throw (.error (.corrupt "Denied"))
  else read zstd col id

def recordId (col id : String) : String := col++"/"++id

def restore (env : Env Ledger) (col id : String) : M Ledger Unit := do
  let key := recordId col id
  let some record ← getDoc env.zstd softdelCollection key
    | throw (.error (.invalidInput ("restore: no retention record for "++col++"/"++id)))
  let some (.binary payload) := record.get "payload"
    | throw (.error (.corrupt ("restore: record "++key++" has no payload")))
  let some (.int deletedAt) := record.get "deleted_at"
    | throw (.error (.corrupt ("restore: record "++key++" has no stamp")))
  let some doc := HakoDoc.decode payload
    | throw (.error (.corrupt ("restore: record "++key++" payload undecodable")))
  let s ← getShard col
  -- a put since the delete, or another delete, owns the id
  if s.index.lookup id ≠ some (.deleted deletedAt) then
    throw (.error (.invalidInput "restore: doc is live or the tombstone moved (cancel rule)"))
  else do
    let _ ← putOwned env col id doc
    let _ ← writeBatch env [.delete softdelCollection key]

structure RelocateReport where
  moved : List String
  missing : List String

/-- The put reaches the log of its shard, then the index and the blob queue. -/
def logPut (env : Env Ledger) (dst id : String) (doc : HakoDoc) (blobWork : List BlobWork) (g : Guarded Ledger) :
    Guarded Ledger × Res Unit :=
  let work : ShardWork := ⟨[.putInlined id doc.encode],[id],[],[(id,doc)],blobWork⟩
  match g.hako.getShard dst with
  | .error e => (g,.error e)
  | .ok (s,h) =>
    let turn := g.turns g.batches
    match s.logWork env.crc (turn.faults dst) turn.clock.instant work with
    | (s,some e) => ({g with hako := h.withShard dst s, batches := g.batches+1},.error e)
    | (s,none) =>
      let h := (h.withShard dst (s.indexWork work)).bumpVersionsByKeys [id]
      let h := (h.markTouched dst work).enqueueIndexUpdate ⟨dst,[(id,doc)],[]⟩
      ({g with hako := h, batches := g.batches+1},.ok ())

/-- The put of a moved document at its destination, with the time that it has. -/
def relocatePut (env : Env Ledger) (dst id : String) (doc : HakoDoc) : M Ledger Unit := do
  let s ← getShard dst
  ofStep fun g =>
    let (h,doc,blobWork) := Prep.extractBlobs g.hako s dst id doc
    match env.gate.gateAdmit h.uniqueLedger dst id doc with
    | .error e => ({g with hako := h},.error (.error e))
    | .ok ledger => logPut env dst id doc blobWork {g with hako := {h with uniqueLedger := ledger}}

def relocateOne (env : Env Ledger) (src dst : String) (report : RelocateReport) (id : String) :
    M Ledger RelocateReport := do
  match ← getDoc env.zstd src id with
  | none => return {report with missing := report.missing++[id]}
  | some doc => do
    relocatePut env dst id doc
    let _ ← delete env src id
    modify fun g => {g with hako := g.hako.bumpVersionsByKeys [id]}
    return {report with moved := report.moved++[id]}

def relocateDocs (env : Env Ledger) (src dst : String) (ids : List String) : M Ledger RelocateReport := do
  let g ← get
  if src = dst then throw (.error (.corrupt "relocate: src == dst"))
  else if g.readOnly then throw (.error (.corrupt "read-only"))
  else match [src,dst].find? fun col => g.isSyncWithheld col || g.isCollectionLocal col with
    | some col => throw (.error (.corrupt ("relocate: excluded collection `"++col++"`")))
    | none =>
      if !g.allowed src .delete || !g.allowed dst .put then throw (.error (.corrupt "Denied"))
      else if !g.allowed src .get then throw (.error (.corrupt "Denied"))
      else ids.foldlM (relocateOne env src dst) ⟨[],[]⟩

def chunks {α : Type} (size : ℕ) (xs : List α) : List (List α) :=
  (List.range ((xs.length+size-1)/size)).map fun i => (xs.drop (i*size)).take size

def indexKeys (g : Guarded Ledger) (s : StorageEngine) : List String := (g.indexOrder.entries s.index).map Prod.fst

/-- The shard leaves the memory, its directory the disk; the collection opens empty from now on. -/
def unlink (g : Guarded Ledger) (col : String) : Guarded Ledger :=
  let schemas := g.hako.schemas.erase col
  {g with
    dirs := fun c => if c = col then false else g.dirs c
    hako := {g.hako with
      shards := g.hako.shards.erase col
      openShard := fun c =>
        if c = col then
          .ok (.fresh g.hako.config col (g.encryptionFor col) (g.turns g.batches).clock.instant)
        else g.hako.openShard c
      schemas := schemas
      schemaEnabled :=
        if (g.hako.schemas.lookup col).isSome then decide (schemas.keys ≠ ∅) else g.hako.schemaEnabled}}

def deleteChunk (env : Env Ledger) (col : String) (ids : List String) : M Ledger Unit := do
  let _ ← writeBatch env (ids.map (.delete col))

structure DropReport where
  docsRemoved : ℕ
  collectionsDropped : List String

def dropCollection (env : Env Ledger) (col : String) : M Ledger DropReport := do
  let g ← get
  if g.readOnly then throw (.error (.corrupt "ReadOnly"))
  else if g.isSyncExcludedEffective col then
    throw (.error (.corrupt ("drop: `"++col++"` is on the sync-excluded plane (system store)")))
  else if g.isCollectionLocal col then throw (.error (.corrupt ("drop: `"++col++"` is marked local-only")))
  else if g.isLazyUnloaded col then
    throw (.error (.corrupt ("drop: `"++col++"` is an unloaded lazy collection — load it first")))
  else match g.hako.shards.lookup col with
    | none => return ⟨0,[]⟩
    | some s => do
      let ids := g.indexKeys s
      (chunks 1000 ids).forM (deleteChunk env col)
      modify fun g => g.unlink col
      return ⟨ids.length,[col]⟩

def systemCollection : String := "__hako_system"

/-- The marks are kept in a document; an error of its put is ignored. -/
def persistLocalOnly (env : Env Ledger) : M Ledger Unit := do
  let g ← get
  let doc := (HakoDoc.empty.insert "cols" (.array (g.hako.localOnlyCols.map .string))).insert "keys"
    (.array (g.localOnlyKeys.map .string))
  try
    let _ ← put env systemCollection "local_only" doc
  catch _ => pure ()

def setCollectionLocal (env : Env Ledger) (col : String) (isLocal : Bool) : M Ledger Unit := do
  modify fun g => {g with hako := {g.hako with
    localOnlyCols :=
      if isLocal then g.hako.localOnlyCols.insert col else g.hako.localOnlyCols.filter (· ≠ col)}}
  persistLocalOnly env

def badName (name : String) : Bool :=
  name = "" || startsWith name "_" || name = "snapshots" || name.toList.any (['/','\\','\x00'].contains ·) ||
    name = "." || name = ".."

/-- The marks of a collection's keys, which carry its name in front of a null character. -/
def markOf (col : String) : String := col++"\x00"

/-- The puts of the live documents of a chunk, under the new name. -/
def copies (env : Env Ledger) (source target : String) (chunk : List String) : M Ledger (List BatchMutation) :=
  chunk.foldlM (fun ms id => do
    match ← getDoc env.zstd source id with
    | some doc => return ms++[.put target id doc]
    | none => return ms) []

def copyMarks (source target : String) (g : Guarded Ledger) : Guarded Ledger :=
  let marks := g.localOnlyKeys.filter (startsWith · (markOf source))
  {g with localOnlyKeys := marks.foldl (fun keys k =>
    keys.insert (.ofList ((markOf target).toList++k.toList.drop (markOf source).length))) g.localOnlyKeys}

def dropMarks (source : String) (g : Guarded Ledger) : Guarded Ledger :=
  {g with localOnlyKeys := g.localOnlyKeys.filter fun k => !startsWith k (markOf source)}

def setSchema (col : String) (schema : Option CollectionSchema) (g : Guarded Ledger) : Guarded Ledger :=
  match schema with
  | none => g
  | some schema => {g with hako := {g.hako with schemas := g.hako.schemas.insert col schema, schemaEnabled := true}}

/-- The puts of a chunk whose documents are all deleted are not called. -/
def writeCopies (env : Env Ledger) (mutations : List BatchMutation) : M Ledger Unit :=
  if mutations.isEmpty then return
  else do
    let _ ← writeBatch env mutations

def mirrorLocal (env : Env Ledger) (target : String) (wasLocal : Bool) : M Ledger Unit :=
  if wasLocal then setCollectionLocal env target true else return

/-- The documents are put under the new name and deleted under the old one, whose directory then goes; the
definitions of the indexes are not modelled. -/
def moveAll (env : Env Ledger) (source target : String) : M Ledger ℕ := do
  let g ← get
  let schema := g.hako.schemas.lookup source
  let wasLocal := g.isCollectionLocal source
  let s ← getShard source
  let ids := g.indexKeys s
  modify (copyMarks source target)
  mirrorLocal env target wasLocal
  persistLocalOnly env
  (chunks 1000 ids).forM fun chunk => do
    let mutations ← copies env source target chunk
    writeCopies env mutations
  (chunks 1000 ids).forM (deleteChunk env source)
  modify (setSchema target schema)
  modify (dropMarks source)
  setCollectionLocal env source false
  let _ ← dropCollection env source
  return ids.length

def renameCollection (env : Env Ledger) (source target : String) : M Ledger ℕ := do
  let g ← get
  if g.readOnly then throw (.error (.corrupt "ReadOnly"))
  else if source = target then
    throw (.error (.invalidInput "rename: `from` and `to` are the same collection"))
  else if badName source || badName target then
    throw (.error (.invalidInput ("rename: invalid collection name (`"++source++"` -> `"++target++"`)")))
  else if g.isSyncExcludedEffective source || g.isSyncExcludedEffective target then
    throw (.error (.corrupt "rename: sync-excluded collections cannot be renamed"))
  else if g.isLazyUnloaded source || g.isLazyUnloaded target then
    let name := if g.isLazyUnloaded source then source else target
    throw (.error (.corrupt ("rename: `"++name++"` is an unloaded lazy collection — load it first")))
  else if !g.onDisk source then throw (.error (.invalidInput ("rename: `"++source++"` does not exist")))
  else if g.onDisk target then throw (.error (.invalidInput ("rename: `"++target++"` already exists")))
  else moveAll env source target

end Guarded

/-- The local calls that write. -/
inductive WriteCall
  | put (col id : String) (doc : HakoDoc)
  | putOwned (col id : String) (doc : HakoDoc)
  | delete (col id : String)
  | deleteForce (col id : String)
  | patch (col id : String) (updates : List (String × Value))
  | writeBatch (mutations : List BatchMutation)
  | commit (mutations : List BatchMutation)
  | commitSerializable (reads : List (String × Option ℕ)) (mutations : List BatchMutation)
  | restore (col id : String)
  | relocateDocs (src dst : String) (ids : List String)
  | renameCollection (source target : String)
  | dropCollection (col : String)

namespace WriteCall
variable {Ledger : Type}

/-- The engine after the call, whatever its result. -/
def run (env : Env Ledger) : WriteCall → Guarded Ledger → Guarded Ledger
  | put col id doc => after (Guarded.put env col id doc)
  | putOwned col id doc => after (Guarded.putOwned env col id doc)
  | delete col id => after (Guarded.delete env col id)
  | deleteForce col id => after (Guarded.deleteForce env col id)
  | patch col id updates => after (Guarded.patch env col id updates)
  | writeBatch mutations | commit mutations => after (Guarded.writeBatch env mutations)
  | commitSerializable reads mutations => after (Guarded.commitSerializable env reads mutations)
  | restore col id => after (Guarded.restore env col id)
  | relocateDocs src dst ids => after (Guarded.relocateDocs env src dst ids)
  | renameCollection source target => after (Guarded.renameCollection env source target)
  | dropCollection col => after (Guarded.dropCollection env col)

def runAll (env : Env Ledger) (calls : List WriteCall) (g : Guarded Ledger) : Guarded Ledger :=
  calls.foldl (fun g call => call.run env g) g

end WriteCall

end HakoDB

import HakoDB.Document.Order
import HakoDB.Document.Projection
import HakoDB.Engine.WriteBatch
import HakoDB.Index.Backlinks
import HakoDB.Index.Manager
import Mathlib.Data.List.Destutter
import Mathlib.Data.List.Sort

/-! The adjacency of a collection and its memo. A slot is served until the next document is written, but what it was
computed from also follows the index worker, the index definitions and the shards that are open. -/
namespace HakoDB
open HashMap

namespace TraverseDir

def usesOutgoing : TraverseDir → Bool
  | outgoing | both => true
  | incoming => false

def usesIncoming : TraverseDir → Bool
  | incoming | both => true
  | outgoing => false

end TraverseDir

/-- A spec with the parts that a plan never sets. -/
structure GraphSpec extends TraverseSpec where
  nodeMatch : Option (String × Value)
  edgeType : Option (String × Value)
  edgeMatch : Option (String × Value)
  includePath : Bool
  includeVia : Bool
  deriving DecidableEq

namespace GraphSpec

def sameTest : Option (String × Value) → Option (String × Value) → Bool
  | none,none => true
  | some (f,v),some (g,w) => f == g && v.eq w
  | _,_ => false

/-- Specs are equal as their values are: across integers and doubles. -/
def eq (a b : GraphSpec) : Bool :=
  a.toTraverseSpec == b.toTraverseSpec && sameTest a.nodeMatch b.nodeMatch && sameTest a.edgeType b.edgeType &&
    sameTest a.edgeMatch b.edgeMatch && a.includePath == b.includePath && a.includeVia == b.includeVia

def passes (doc : HakoDoc) : Option (String × Value) → Bool
  | none => true
  | some (field,want) => (doc.get field).any fun v => v.eq want

def edgeDocMatches (spec : GraphSpec) (edoc : HakoDoc) : Bool := passes edoc spec.edgeType && passes edoc spec.edgeMatch

end GraphSpec

namespace BacklinkIndex

def track (b : BacklinkIndex) (col : String) : BacklinkIndex := {b with tracked := insert col b.tracked}

/-- Keep the links of other sources; a target without links goes. -/
def retainSources (col : String) (map : HMap String (List Backlink)) : HMap String (List Backlink) :=
  (sortedKeys map).foldl (fun map tid =>
    let kept := ((map.lookup tid).getD []).filter fun e => e.srcCol ≠ col
    if kept = [] then map.erase tid else map.insert tid kept) map

def clearCollection (b : BacklinkIndex) (col : String) : BacklinkIndex :=
  let b := {b with edges := b.edges.erase col}
  (sortedKeys b.edges).foldl (fun b tgt => b.setMap tgt (retainSources col ((b.edges.lookup tgt).getD ∅))) b

def untrack (b : BacklinkIndex) (col : String) : BacklinkIndex :=
  let b := b.clearCollection col
  {b with tracked := b.tracked.erase col}

end BacklinkIndex

/-- The indexes that the graph calls read. -/
structure GraphIndexes where
  secondary : HMap String (HMap String SecondaryIndex)
  traverse : BacklinkIndex

namespace GraphIndexes

def updateFields (f : String → SecondaryIndex → SecondaryIndex) (fields : HMap String SecondaryIndex) :
    HMap String SecondaryIndex :=
  (sortedKeys fields).foldl (fun fields field =>
    match fields.lookup field with
    | some m => fields.insert field (f field m)
    | none => fields) fields

def updateSecondary (ix : GraphIndexes) (col : String) (f : String → SecondaryIndex → SecondaryIndex) : GraphIndexes :=
  match ix.secondary.lookup col with
  | some fields => {ix with secondary := ix.secondary.insert col (updateFields f fields)}
  | none => ix

def backfillSecondary (ix : GraphIndexes) (col id : String) (doc : HakoDoc) : GraphIndexes :=
  ix.updateSecondary col fun field m =>
    match IndexManager.indexedValue id doc field with
    | some v => m.add (encodeScalar v) id
    | none => m

def indexDocument (ix : GraphIndexes) (col id : String) (doc : HakoDoc) : GraphIndexes :=
  {ix.backfillSecondary col id doc with traverse := ix.traverse.indexDoc col id doc}

def removeDocument (ix : GraphIndexes) (col id : String) (doc : HakoDoc) : GraphIndexes :=
  let cleaned := ix.updateSecondary col fun field m =>
    match doc.get field with
    | some v => m.remove (encodeScalar v) id
    | none => m
  {cleaned with traverse := ix.traverse.removeDoc col id doc}

/-- The puts of an update, then its deletes. -/
def applyUpdate (ix : GraphIndexes) (u : IndexUpdate) : GraphIndexes :=
  u.deletes.foldl (fun ix d => ix.removeDocument u.collection d.1 d.2)
    (u.puts.foldl (fun ix d => ix.indexDocument u.collection d.1 d.2) ix)

def lookupSecondary (ix : GraphIndexes) (col field : String) (key : IndexKey) : List String :=
  match (ix.secondary.lookup col).bind fun fields => fields.lookup field with
  | some m => m.idsAt key
  | none => []

def clearCollection (ix : GraphIndexes) (col : String) : GraphIndexes :=
  {ix.updateSecondary col fun _ _ => .empty with traverse := ix.traverse.clearCollection col}

def createSecondaryIndex (ix : GraphIndexes) (col field : String) : GraphIndexes :=
  {ix with secondary := ix.secondary.insert col (((ix.secondary.lookup col).getD ∅).insert field .empty)}

def dropSecondaryIndex (ix : GraphIndexes) (col field : String) : GraphIndexes :=
  match ix.secondary.lookup col with
  | none => ix
  | some fields =>
    let rest := fields.erase field
    {ix with secondary := if sortedKeys rest = [] then ix.secondary.erase col else ix.secondary.insert col rest}

end GraphIndexes

/-- The documents of each collection, the directories and the open shards. A shard stands in a directory, and
without one there are no documents. The fields of text, vector and composite indexes are fixed. -/
structure GraphDb where
  docs : String → OrderedMap String HakoDoc
  dirs : Finset String
  shards : Finset String
  isLazyCollection : String → Bool
  otherFields : String → List String
  indexes : GraphIndexes
  opened : shards ⊆ dirs
  placed : ∀ col ∉ dirs,docs col = .empty

namespace GraphDb

def indexedFieldsFor (s : GraphDb) (col : String) : List String :=
  sortedKeys ((s.indexes.secondary.lookup col).getD ∅)++s.otherFields col

def hasCollection (s : GraphDb) (col : String) : Bool :=
  (s.indexes.secondary.lookup col).isSome || s.otherFields col ≠ [] || col ∈ s.indexes.traverse.tracked

/-- Clear, then fill with the documents cut to their indexed fields. -/
def backfillLazyCollection (s : GraphDb) (col : String) : GraphDb :=
  let cleared := if s.hasCollection col then s.indexes.clearCollection col else s.indexes
  let wanted := s.indexedFieldsFor col
  {s with indexes := if wanted = [] then cleared else
    (s.docs col).entries.foldl (fun ix d => ix.indexDocument col d.1 ⟨d.2.projectFields wanted,d.2.time⟩) cleared}

def openShardNew (s : GraphDb) (col : String) : GraphDb :=
  {s with
    dirs := insert col s.dirs
    shards := insert col s.shards
    opened := Finset.insert_subset_insert col s.opened
    placed := fun c hc => s.placed c fun h => hc (Finset.mem_insert_of_mem h)}

def getShard (s : GraphDb) (col : String) : GraphDb :=
  if col ∈ s.shards then s
  else if s.isLazyCollection col then (s.openShardNew col).backfillLazyCollection col
  else s.openShardNew col

/-- Change the documents of an open shard. -/
def store (s : GraphDb) (col : String) (f : OrderedMap String HakoDoc → OrderedMap String HakoDoc) : GraphDb :=
  {s with
    docs := fun c => if c = col then f (s.docs c) else s.docs c
    dirs := insert col s.dirs
    opened := s.opened.trans (Finset.subset_insert col s.dirs)
    placed := fun c hc => by
      obtain ⟨hne,hc⟩ := not_or.1 (mt Finset.mem_insert.2 hc)
      rw [if_neg hne,s.placed c hc]}

end GraphDb

/-- A read may open the shard it reads from. -/
abbrev Reading := StateM GraphDb

namespace Reading
open BacklinkIndex (refOf)

def get (col id : String) : Reading (Option HakoDoc) := fun s =>
  if col ∈ s.dirs then ((s.docs col).get id,s.getShard col) else (none,s)

def indexes : Reading GraphIndexes := fun s => (s.indexes,s)

/-- One read after the other, keeping what each finds. -/
def collect {α β : Type} (f : α → Reading (List β)) : List α → Reading (List β)
  | [] => pure []
  | x::xs => do
    let found ← f x
    let rest ← collect f xs
    return found++rest

def nodeMatches (spec : GraphSpec) (col id : String) : Reading Bool :=
  match spec.nodeMatch with
  | none => pure true
  | some test => do
    let doc ← get col id
    return doc.any fun d => GraphSpec.passes d (some test)

/-- A neighbour and the edge document that leads to it. -/
structure Hop where
  target : String × String
  via : Option String

def compareNodes (a b : String × String) : Ordering := (compare a.1 b.1).then (compare a.2 b.2)

def sortHops (hops : List Hop) : List Hop :=
  hops.insertionSort fun a b => ((compareNodes a.target b.target).then (compare a.via b.via)).isLE

def outgoingHops (spec : GraphSpec) (doc : HakoDoc) : List Hop :=
  doc.fields.filterMap fun f =>
    if spec.edgeField.all (· = f.1) then (refOf f.2).map fun target => ⟨target,none⟩ else none

def edgeHop (spec : GraphSpec) (edgeCol : String) (anchor : String × String) (matchField otherField eid : String)
    (edoc : HakoDoc) : List Hop :=
  if (edoc.get matchField).bind refOf = some anchor && spec.edgeDocMatches edoc then
    (((edoc.get otherField).bind refOf).map fun target =>
      (⟨target,if spec.includeVia then some (edgeCol++"/"++eid) else none⟩ : Hop)).toList
  else []

def edgeStep (spec : GraphSpec) (edgeCol : String) (anchor : String × String) (forward : Bool) : Reading (List Hop) := do
  let (matchField,otherField) := if forward then ("_from","_to") else ("_to","_from")
  let ids := (← indexes).lookupSecondary edgeCol matchField (encodeScalar (.reference anchor.1 anchor.2))
  collect (fun eid => do
    let edoc ← get edgeCol eid
    return (edoc.map (edgeHop spec edgeCol anchor matchField otherField eid)).getD []) ids

/-- A link is followed where its document still refers to the anchor. -/
def backHop (anchor : String × String) (link : Backlink) : Reading (List Hop) := do
  let doc ← get link.srcCol link.srcId
  return if (doc.bind fun d => (d.get link.field).bind refOf) = some anchor then [⟨(link.srcCol,link.srcId),none⟩] else []

def viaHops (spec : GraphSpec) (anchor : String × String) (forward : Bool) : Reading (List Hop) :=
  match spec.viaEdge with
  | some edgeCol => edgeStep spec edgeCol anchor forward
  | none => pure []

def outgoing (spec : GraphSpec) (anchor : String × String) : Reading (List Hop) :=
  if spec.direction.usesOutgoing then do
    let doc ← get anchor.1 anchor.2
    let edges ← viaHops spec anchor true
    return (doc.map (outgoingHops spec)).getD []++edges
  else pure []

def incoming (spec : GraphSpec) (anchor : String × String) : Reading (List Hop) :=
  if spec.direction.usesIncoming then do
    let links := ((← indexes).traverse.inbound anchor).getD []
    let back ← collect (backHop anchor) (links.filter fun link => spec.edgeField.all (· = link.field))
    let edges ← viaHops spec anchor false
    return back++edges
  else pure []

def expandNeighbors (spec : GraphSpec) (anchor : String × String) : Reading (List Hop) := do
  let out ← outgoing spec anchor
  let inc ← incoming spec anchor
  return sortHops (out++inc)

/-- A shard that is not open has no nodes. -/
def graphNodeIds (col : String) : Reading (List String) := fun s =>
  (if col ∈ s.shards then (s.docs col).entries.map Prod.fst else [],s)

def sortNodes (nodes : List (String × String)) : List (String × String) :=
  nodes.insertionSort fun a b => (compareNodes a b).isLE

def matchingNode (spec : GraphSpec) (col id : String) : Reading (List (String × String)) := do
  return if ← nodeMatches spec col id then [(col,id)] else []

def targetsOf (spec : GraphSpec) (key : String × String) : Reading (List (String × String)) := do
  let hops ← expandNeighbors spec key
  let targets ← collect (fun hop => if hop.target.1 = key.1 then matchingNode spec hop.target.1 hop.target.2 else pure []) hops
  return (sortNodes targets).destutter (· ≠ ·)

/-- The nodes of a collection and their neighbours within it, from the documents and the indexes. -/
def computeAdjacency (col : String) (spec : GraphSpec) :
    Reading (List (String × String) × HMap (String × String) (List (String × String))) := do
  let ids ← graphNodeIds col
  let nodes ← collect (matchingNode spec col) ids
  let nodes := sortNodes nodes
  let rows ← collect (fun key => do return [(key,← targetsOf spec key)]) nodes
  return (nodes,insertAll ∅ rows)

end Reading

structure AdjSlot where
  version : ℕ
  spec : GraphSpec
  nodes : List (String × String)
  adj : HMap (String × String) (List (String × String))

/-- A thread that fills a new index: of the incoming references, or of one field. It takes its rows at its first
step. -/
structure BackfillThread where
  collection : String
  field : Option String
  rows : Option (List (String × HakoDoc))

structure Analytics where
  db : GraphDb
  indexQueue : List IndexUpdate
  backfills : List BackfillThread
  globalVersion : ℕ
  graphAdjCache : HMap String AdjSlot

inductive DocMutation
  | put (id : String) (doc : HakoDoc)
  | delete (id : String)
  deriving DecidableEq

inductive AnalyticsEvent
  | write (col : String) (mutations : List DocMutation)
  | indexWork
  | backfillWork (n : ℕ)
  | createTraverseIndex (col : String)
  | createEdgeIndex (col : String)
  | dropTraverseIndex (col : String)
  | dropEdgeIndex (col : String)
  | load (col : String)
  | analyse (col : String) (spec : GraphSpec)

namespace Analytics
variable {a : Analytics} {col : String} {spec : GraphSpec}

def setIndexes (a : Analytics) (ix : GraphIndexes) : Analytics := {a with db := {a.db with indexes := ix}}

/-- The puts, then the deletes; each key moves the version on. The index worker gets its part later. -/
def write (a : Analytics) (col : String) (mutations : List DocMutation) : Analytics :=
  if mutations = [] then a
  else
    let db := a.db.getShard col
    let puts := mutations.filterMap fun | .put id doc => some (id,doc) | .delete _ => none
    let gone := mutations.filterMap fun | .put _ _ => none | .delete id => some id
    let deletes := gone.filterMap fun id => ((db.docs col).get id).map fun doc => (id,doc)
    {a with
      db := db.store col fun m => gone.foldl OrderedMap.erase (m.insertAll puts)
      globalVersion := a.globalVersion+mutations.length
      indexQueue := if puts = [] ∧ deletes = [] then a.indexQueue else a.indexQueue++[⟨col,puts,deletes⟩]}

def indexWork (a : Analytics) : Analytics :=
  match a.indexQueue with
  | [] => a
  | u::rest => {a.setIndexes (a.db.indexes.applyUpdate u) with indexQueue := rest}

def backfillRow (ix : GraphIndexes) (thread : BackfillThread) (row : String × HakoDoc) : GraphIndexes :=
  match thread.field with
  | none => {ix with traverse := ix.traverse.indexDoc thread.collection row.1 row.2}
  | some field => if (row.2.get field).isSome then ix.backfillSecondary thread.collection row.1 row.2 else ix

/-- The references are read from whole documents, a field from what is indexed when the thread starts. -/
def snapshotRows (db : GraphDb) (thread : BackfillThread) : List (String × HakoDoc) :=
  match thread.field with
  | none => (db.docs thread.collection).entries
  | some _ => (db.docs thread.collection).entries.map fun d =>
    (d.1,⟨d.2.projectFields (db.indexedFieldsFor thread.collection),d.2.time⟩)

def backfillWork (a : Analytics) (n : ℕ) : Analytics :=
  match a.backfills[n]? with
  | none => a
  | some thread =>
    match thread.rows with
    | none => {a with backfills := a.backfills.set n {thread with rows := some (snapshotRows a.db thread)}}
    | some [] => {a with backfills := a.backfills.eraseIdx n}
    | some (row::rows) =>
      {a.setIndexes (backfillRow a.db.indexes thread row) with backfills := a.backfills.set n {thread with rows := some rows}}

def createTraverseIndex (a : Analytics) (col : String) : Analytics :=
  if col ∈ a.db.indexes.traverse.tracked then a
  else
    let a := a.setIndexes {a.db.indexes with traverse := a.db.indexes.traverse.track col}
    {a with db := a.db.getShard col,backfills := a.backfills++[⟨col,none,none⟩]}

def createIndex (a : Analytics) (col field : String) : Analytics :=
  if (((a.db.indexes.secondary.lookup col).getD ∅).lookup field).isSome then a
  else
    let a := a.setIndexes (a.db.indexes.createSecondaryIndex col field)
    {a with db := a.db.getShard col,backfills := a.backfills++[⟨col,some field,none⟩]}

def createEdgeIndex (a : Analytics) (col : String) : Analytics :=
  ((a.createTraverseIndex col).createIndex col "_from").createIndex col "_to"

def dropTraverseIndex (a : Analytics) (col : String) : Analytics :=
  a.setIndexes {a.db.indexes with traverse := a.db.indexes.traverse.untrack col}

def dropEdgeIndex (a : Analytics) (col : String) : Analytics :=
  dropTraverseIndex (a.setIndexes ((a.db.indexes.dropSecondaryIndex col "_from").dropSecondaryIndex col "_to")) col

/-- The slot of a collection with the version of now. -/
def current (a : Analytics) (col : String) : Option AdjSlot :=
  (a.graphAdjCache.lookup col).filter fun slot => slot.version = a.globalVersion

def served (a : Analytics) (col : String) (spec : GraphSpec) : Option AdjSlot :=
  (a.current col).filter fun slot => slot.spec.eq spec

def graphAdjacency (a : Analytics) (col : String) (spec : GraphSpec) :
    (List (String × String) × HMap (String × String) (List (String × String))) × Analytics :=
  match a.served col spec with
  | some slot => ((slot.nodes,slot.adj),a)
  | none =>
    let r := (Reading.computeAdjacency col spec).run a.db
    (r.1,{a with db := r.2,graphAdjCache := a.graphAdjCache.insert col ⟨a.globalVersion,spec,r.1.1,r.1.2⟩})

def step (a : Analytics) : AnalyticsEvent → Analytics
  | .write col mutations => a.write col mutations
  | .indexWork => a.indexWork
  | .backfillWork n => a.backfillWork n
  | .createTraverseIndex col => a.createTraverseIndex col
  | .createEdgeIndex col => a.createEdgeIndex col
  | .dropTraverseIndex col => a.dropTraverseIndex col
  | .dropEdgeIndex col => a.dropEdgeIndex col
  | .load col => {a with db := a.db.getShard col}
  | .analyse col spec => (a.graphAdjacency col spec).2

def run (a : Analytics) (events : List AnalyticsEvent) : Analytics := events.foldl step a

end Analytics

namespace GraphDb
variable {s t u : GraphDb} {c : String} {R : Set String}

/-- The same documents and indexes, with more shards open. -/
structure Grown (s t : GraphDb) : Prop where
  docs : t.docs = s.docs
  isLazy : t.isLazyCollection = s.isLazyCollection
  indexes : t.indexes = s.indexes
  shards : s.shards ⊆ t.shards
  dirs : ∀ c ∈ t.dirs,c ∈ s.dirs ∨ c ∈ t.shards

theorem Grown.refl (s : GraphDb) : s.Grown s := ⟨rfl,rfl,rfl,Finset.Subset.refl _,fun _ => .inl⟩

theorem Grown.trans (hst : s.Grown t) (htu : t.Grown u) : s.Grown u where
  docs := htu.docs.trans hst.docs
  isLazy := htu.isLazy.trans hst.isLazy
  indexes := htu.indexes.trans hst.indexes
  shards := hst.shards.trans htu.shards
  dirs c hc := by
    rcases htu.dirs c hc with h | h
    · exact (hst.dirs c h).imp_right fun hopen => htu.shards hopen
    · exact .inr h

/-- No index is rebuilt when the shards of these collections are opened. -/
def Calm (s : GraphDb) (R : Set String) : Prop := ∀ c ∈ R,c ∈ s.dirs → c ∈ s.shards ∨ s.isLazyCollection c = false

theorem Calm.grown (h : s.Calm R) (ht : s.Grown t) : t.Calm R := by
  intro c hc hdir
  rw [ht.isLazy]
  rcases ht.dirs c hdir with hdir | hopen
  · exact (h c hc hdir).imp_left fun hopen => ht.shards hopen
  · exact .inl hopen

theorem shards_getShard (s : GraphDb) (c : String) : (s.getShard c).shards = insert c s.shards := by
  unfold getShard
  split_ifs with hopen
  · exact (Finset.insert_eq_of_mem hopen).symm
  · rfl
  · rfl

theorem grown_getShard (h : c ∈ s.shards ∨ s.isLazyCollection c = false) : s.Grown (s.getShard c) := by
  unfold getShard
  split_ifs with hopen hlazy
  · exact .refl s
  · exact absurd hlazy (by simp [h.resolve_left hopen])
  · refine ⟨rfl,rfl,rfl,Finset.subset_insert c s.shards,fun x hx => ?_⟩
    rcases Finset.mem_insert.1 hx with rfl | hx
    · exact .inr (Finset.mem_insert_self _ _)
    · exact .inl hx

/-- The collections that the adjacency of a collection is read from. -/
def reads (s : GraphDb) (col : String) (spec : GraphSpec) : Set String :=
  {c | c = col ∨ spec.viaEdge = some c ∨ spec.direction.usesIncoming = true ∧
    ∃ id,∃ link ∈ (s.indexes.traverse.inbound (col,id)).getD [],spec.edgeField.all (· = link.field) ∧ link.srcCol = c}

theorem Grown.reads_eq (h : s.Grown t) (col : String) (spec : GraphSpec) : t.reads col spec = s.reads col spec := by
  unfold reads
  rw [h.indexes]

end GraphDb

namespace Reading
variable {s t : GraphDb} {R : Set String} {α β : Type} {m : Reading α} {x : α} {col id : String} {spec : GraphSpec}

/-- From wherever more shards are open, a reading gives the same and opens no others than these. -/
def Gives (s : GraphDb) (R : Set String) (m : Reading α) (x : α) : Prop :=
  ∀ t,s.Grown t → ∃ u,m.run t = (x,u) ∧ t.Grown u ∧ ∀ c ∈ u.shards,c ∈ t.shards ∨ c ∈ R ∧ c ∈ t.dirs

def Steady (s : GraphDb) (R : Set String) (m : Reading α) : Prop := ∃ x,Gives s R m x

theorem gives_pure (x : α) : Gives s R (pure x) x := fun t _ => ⟨t,rfl,.refl t,fun _ => .inl⟩

theorem steady_pure (x : α) : Steady s R (pure x) := ⟨x,gives_pure x⟩

theorem Gives.bind {f : α → Reading β} {y : β} (hm : Gives s R m x) (hf : Gives s R (f x) y) : Gives s R (m >>= f) y := by
  intro t ht
  obtain ⟨u,hu,htu,hopen⟩ := hm t ht
  obtain ⟨v,hv,huv,hopen'⟩ := hf u (ht.trans htu)
  refine ⟨v,?_,htu.trans huv,fun c hc => ?_⟩
  · rw [StateT.run_bind,hu]
    exact hv
  · rcases hopen' c hc with hc | ⟨hR,hdir⟩
    · exact hopen c hc
    · rcases htu.dirs c hdir with hdir | hc
      · exact .inr ⟨hR,hdir⟩
      · exact hopen c hc

theorem Gives.steady_bind {f : α → Reading β} (hm : Gives s R m x) (hf : Steady s R (f x)) : Steady s R (m >>= f) :=
  hf.imp fun _ => hm.bind

theorem Steady.bind {f : α → Reading β} (hm : Steady s R m) (hf : ∀ x,Steady s R (f x)) : Steady s R (m >>= f) := by
  obtain ⟨x,hm⟩ := hm
  exact hm.steady_bind (hf x)

theorem gives_indexes : Gives s R indexes s.indexes := fun t ht => ⟨t,by rw [← ht.indexes]; rfl,.refl t,fun _ => .inl⟩

theorem gives_get (hcalm : s.Calm R) (hc : col ∈ R) : Gives s R (get col id) ((s.docs col).get id) := by
  intro t ht
  rw [← ht.docs]
  by_cases hdir : col ∈ t.dirs
  · refine ⟨t.getShard col,if_pos hdir,GraphDb.grown_getShard (hcalm.grown ht col hc hdir),fun c hc' => ?_⟩
    rw [GraphDb.shards_getShard] at hc'
    rcases Finset.mem_insert.1 hc' with rfl | hc'
    · exact .inr ⟨hc,hdir⟩
    · exact .inl hc'
  · refine ⟨t,?_,.refl t,fun _ => .inl⟩
    rw [t.placed col hdir]
    exact if_neg hdir

theorem gives_collect {P : β → Prop} {f : α → Reading (List β)} {l : List α}
    (h : ∀ x ∈ l,∃ ys,Gives s R (f x) ys ∧ ∀ y ∈ ys,P y) : ∃ ys,Gives s R (collect f l) ys ∧ ∀ y ∈ ys,P y := by
  induction l with
  | nil => exact ⟨[],gives_pure [],by simp⟩
  | cons x l ih =>
    obtain ⟨ys,hys,hP⟩ := h x List.mem_cons_self
    obtain ⟨zs,hzs,hP'⟩ := ih fun z hz => h z (List.mem_cons_of_mem x hz)
    exact ⟨ys++zs,hys.bind (hzs.bind (gives_pure _)),fun y hy => (List.mem_append.1 hy).elim (hP y) (hP' y)⟩

theorem steady_collect {f : α → Reading (List β)} {l : List α} (h : ∀ x ∈ l,Steady s R (f x)) : Steady s R (collect f l) := by
  obtain ⟨ys,hys,-⟩ := gives_collect (P := fun _ => True) fun x hx => (h x hx).imp fun ys hys => ⟨hys,fun _ _ => trivial⟩
  exact ⟨ys,hys⟩

theorem steady_nodeMatches (hcalm : s.Calm R) (hc : col ∈ R) : Steady s R (nodeMatches spec col id) := by
  unfold nodeMatches
  split
  · exact steady_pure _
  · exact (gives_get hcalm hc).steady_bind (steady_pure _)

theorem gives_matchingNode (hcalm : s.Calm R) (hc : col ∈ R) (spec : GraphSpec) (id : String) :
    ∃ ys,Gives s R (matchingNode spec col id) ys ∧ ∀ y ∈ ys,y.1 = col := by
  obtain ⟨b,hb⟩ : Steady s R (nodeMatches spec col id) := steady_nodeMatches hcalm hc
  refine ⟨_,hb.bind (gives_pure _),fun y hy => ?_⟩
  cases b with
  | false => simp at hy
  | true => simp_all

theorem steady_viaHops (hcalm : s.Calm R) (hvia : ∀ c,spec.viaEdge = some c → c ∈ R) (anchor : String × String) (forward : Bool) :
    Steady s R (viaHops spec anchor forward) := by
  unfold viaHops
  split
  · rename_i edgeCol hedge
    refine gives_indexes.steady_bind (steady_collect fun eid _ => ?_)
    exact (gives_get hcalm (hvia edgeCol hedge)).steady_bind (steady_pure _)
  · exact steady_pure _

theorem steady_expandNeighbors (hcalm : s.Calm (s.reads col spec)) (id : String) :
    Steady s (s.reads col spec) (expandNeighbors spec (col,id)) := by
  have hvia : ∀ forward,Steady s (s.reads col spec) (viaHops spec (col,id) forward) :=
    steady_viaHops hcalm (fun c hc => .inr (.inl hc)) (col,id)
  refine Steady.bind ?_ fun out => Steady.bind ?_ fun inc => steady_pure _
  · unfold outgoing
    split
    · exact (gives_get hcalm (.inl rfl)).steady_bind ((hvia true).bind fun edges => steady_pure _)
    · exact steady_pure _
  · unfold incoming
    split
    · rename_i hin
      refine gives_indexes.steady_bind (Steady.bind (steady_collect fun link hlink => ?_) fun back =>
        (hvia false).bind fun edges => steady_pure _)
      obtain ⟨hlink,hfield⟩ := List.mem_filter.1 hlink
      exact (gives_get hcalm (.inr (.inr ⟨hin,id,link,hlink,hfield,rfl⟩))).steady_bind (steady_pure _)
    · exact steady_pure _

theorem steady_targetsOf (hcalm : s.Calm (s.reads col spec)) (id : String) :
    Steady s (s.reads col spec) (targetsOf spec (col,id)) := by
  refine (steady_expandNeighbors hcalm id).bind fun hops => Steady.bind (steady_collect fun hop _ => ?_) fun targets => steady_pure _
  split
  · rename_i hcol
    obtain ⟨ys,hys,-⟩ := gives_matchingNode hcalm (.inl hcol) spec hop.target.2
    exact ⟨ys,hys⟩
  · exact steady_pure _

theorem steady_computeAdjacency (hcalm : s.Calm (s.reads col spec)) (hcol : col ∈ s.shards) :
    Steady s (s.reads col spec) (computeAdjacency col spec) := by
  have hids : Gives s (s.reads col spec) (graphNodeIds col) ((s.docs col).entries.map Prod.fst) := fun t ht => by
    refine ⟨t,?_,.refl t,fun _ => .inl⟩
    rw [← ht.docs]
    exact congrArg (·,t) (if_pos (ht.shards hcol))
  obtain ⟨nodes,hnodes,hsame⟩ := gives_collect (f := matchingNode spec col) (l := (s.docs col).entries.map Prod.fst)
    fun id _ => gives_matchingNode hcalm (.inl rfl) spec id
  refine hids.steady_bind (hnodes.steady_bind (Steady.bind (steady_collect fun key hkey => ?_) fun rows => steady_pure _))
  obtain ⟨c,id⟩ := key
  obtain rfl : c = col := hsame _ ((List.mem_insertionSort _).1 hkey)
  exact (steady_targetsOf hcalm id).bind fun targets => steady_pure _

end Reading

theorem Reading.computeAdjacency_closed {s : GraphDb} {col : String} (h : col ∉ s.shards) (spec : GraphSpec) :
    (computeAdjacency col spec).run s = (([],∅),s) := by
  have hids : (graphNodeIds col).run s = ([],s) := congrArg (·,s) (if_neg h)
  unfold computeAdjacency
  rw [StateT.run_bind,hids]
  rfl

/-- What is computed does not depend on the other shards that are open. -/
theorem Reading.computeAdjacency_grown {s t : GraphDb} {col : String} {spec : GraphSpec}
    (hcalm : col ∈ s.shards → s.Calm (s.reads col spec)) (ht : s.Grown t) (hcol : col ∈ t.shards → col ∈ s.shards) :
    ((computeAdjacency col spec).run t).1 = ((computeAdjacency col spec).run s).1 ∧
      t.Grown ((computeAdjacency col spec).run t).2 ∧
      ∀ c ∈ ((computeAdjacency col spec).run t).2.shards,
        c ∈ t.shards ∨ col ∈ s.shards ∧ c ∈ s.reads col spec ∧ c ∈ t.dirs := by
  by_cases hopen : col ∈ s.shards
  · obtain ⟨result,hgives⟩ := steady_computeAdjacency (hcalm hopen) hopen
    obtain ⟨u,hu,hgrown,hshards⟩ := hgives t ht
    obtain ⟨v,hv,-⟩ := hgives s (.refl s)
    rw [hu,hv]
    exact ⟨rfl,hgrown,fun c hc => (hshards c hc).imp_right fun h => ⟨hopen,h⟩⟩
  · rw [computeAdjacency_closed (mt hcol hopen),computeAdjacency_closed hopen]
    exact ⟨rfl,.refl t,fun _ => .inl⟩

namespace Analytics
variable {a b : Analytics} {col : String} {spec : GraphSpec} {slot : AdjSlot}

/-- A call is served with its own spec, or it opens no shard with a slot of the present version and no lazy one. Any
other step but a write finds no slot of the present version, or changes no index and opens no shard with one. -/
def Quiet (a : Analytics) : AnalyticsEvent → Prop
  | .write _ _ => True
  | .analyse col spec =>
    (∀ slot ∈ a.served col spec,slot.spec = spec) ∧
      (a.served col spec = none → col ∈ a.db.shards → ∀ c ∈ a.db.reads col spec,c ∈ a.db.dirs →
        c ∈ a.db.shards ∨ a.db.isLazyCollection c = false ∧ a.current c = none)
  | e => (∀ c,a.current c = none) ∨
    a.db.Grown (a.step e).db ∧ ∀ c ∈ (a.step e).db.shards,c ∈ a.db.shards ∨ a.current c = none

def AllQuiet : Analytics → List AnalyticsEvent → Prop
  | _,[] => True
  | a,e::events => a.Quiet e ∧ AllQuiet (a.step e) events

/-- A slot of the present version holds what would be computed now, and reading that rebuilds no index. -/
def Valid (a : Analytics) (col : String) (slot : AdjSlot) : Prop :=
  (col ∈ a.db.shards → a.db.Calm (a.db.reads col slot.spec)) ∧
    ((Reading.computeAdjacency col slot.spec).run a.db).1 = (slot.nodes,slot.adj)

structure Exact (a : Analytics) : Prop where
  past : ∀ col slot,a.graphAdjCache.lookup col = some slot → slot.version ≤ a.globalVersion
  valid : ∀ col slot,a.current col = some slot → a.Valid col slot

theorem current_eq_some : a.current col = some slot ↔
    a.graphAdjCache.lookup col = some slot ∧ slot.version = a.globalVersion := by
  simp [current,Option.filter_eq_some_iff]

theorem current_congr (hcache : b.graphAdjCache = a.graphAdjCache) (hversion : b.globalVersion = a.globalVersion) :
    b.current = a.current := by
  funext col
  rw [current,current,hcache,hversion]

theorem Valid.grown (h : a.Valid col slot) (hgrown : a.db.Grown b.db) (hcol : col ∈ b.db.shards → col ∈ a.db.shards) :
    b.Valid col slot := by
  obtain ⟨hcalm,hsame⟩ := h
  refine ⟨fun hopen => ?_,?_⟩
  · rw [hgrown.reads_eq]
    exact (hcalm (hcol hopen)).grown hgrown
  · rw [(Reading.computeAdjacency_grown hcalm hgrown hcol).1,hsame]

theorem Exact.write (h : a.Exact) (mutations : List DocMutation) : (a.write col mutations).Exact := by
  unfold Analytics.write
  split_ifs with hnone
  · exact h
  have hlater : ∀ c slot,a.graphAdjCache.lookup c = some slot → slot.version < a.globalVersion+mutations.length :=
    fun c slot hslot => lt_of_le_of_lt (h.past c slot hslot) (Nat.lt_add_of_pos_right (List.length_pos_iff.2 hnone))
  refine ⟨fun c slot hslot => (hlater c slot hslot).le,fun c slot hslot => ?_⟩
  obtain ⟨hslot,hversion⟩ := current_eq_some.1 hslot
  exact absurd hversion (hlater c slot hslot).ne

theorem Exact.quiet (h : a.Exact) (hcache : b.graphAdjCache = a.graphAdjCache) (hversion : b.globalVersion = a.globalVersion)
    (hquiet : (∀ c,a.current c = none) ∨ a.db.Grown b.db ∧ ∀ c ∈ b.db.shards,c ∈ a.db.shards ∨ a.current c = none) :
    b.Exact := by
  refine ⟨fun c slot hslot => ?_,fun c slot hslot => ?_⟩
  · rw [hversion]
    exact h.past c slot (hcache ▸ hslot)
  · rw [current_congr hcache hversion] at hslot
    rcases hquiet with hnone | ⟨hgrown,hshards⟩
    · rw [hnone] at hslot
      cases hslot
    · refine (h.valid c slot hslot).grown hgrown fun hc => (hshards c hc).resolve_right fun hnone => ?_
      rw [hnone] at hslot
      cases hslot

/-- A call that is not served leaves its own slot and the others valid. -/
theorem Exact.analyse (h : a.Exact) (hquiet : a.Quiet (.analyse col spec)) : (a.graphAdjacency col spec).2.Exact := by
  unfold graphAdjacency
  cases hserved : a.served col spec with
  | some slot => exact h
  | none =>
    have hreads := hquiet.2 hserved
    have hcalm : col ∈ a.db.shards → a.db.Calm (a.db.reads col spec) := fun hopen c hc hdir =>
      (hreads hopen c hc hdir).imp_right And.left
    obtain ⟨-,hgrown,hshards⟩ := Reading.computeAdjacency_grown hcalm (.refl a.db) id
    have hold : ∀ c ∈ ((Reading.computeAdjacency col spec).run a.db).2.shards,c ∈ a.db.shards ∨ a.current c = none :=
      fun c hc => by
        rcases hshards c hc with hc | ⟨hopen,hc,hdir⟩
        · exact .inl hc
        · exact (hreads hopen c hc hdir).imp_right And.right
    refine ⟨fun c slot hslot => ?_,fun c slot hslot => ?_⟩
    · simp only [lookup_insert_ite] at hslot
      split_ifs at hslot with hc
      · obtain rfl := Option.some.inj hslot
        exact le_rfl
      · exact h.past c slot hslot
    · obtain ⟨hslot,hversion⟩ := current_eq_some.1 hslot
      simp only [lookup_insert_ite] at hslot
      split_ifs at hslot with hc
      · obtain rfl := Option.some.inj hslot
        subst hc
        have hnew : a.Valid c ⟨a.globalVersion,spec,((Reading.computeAdjacency c spec).run a.db).1.1,
          ((Reading.computeAdjacency c spec).run a.db).1.2⟩ := ⟨hcalm,rfl⟩
        exact hnew.grown hgrown fun hc => (hshards c hc).elim id And.left
      · have hcurrent : a.current c = some slot := current_eq_some.2 ⟨hslot,hversion⟩
        refine (h.valid c slot hcurrent).grown hgrown fun hc => (hold c hc).resolve_right fun hnone => ?_
        rw [hnone] at hcurrent
        cases hcurrent

/-- Only a write moves the version, and only a call fills the memo. -/
theorem step_frame (a : Analytics) (e : AnalyticsEvent) (hwrite : ∀ col mutations,e ≠ .write col mutations)
    (hcall : ∀ col spec,e ≠ .analyse col spec) :
    (a.step e).graphAdjCache = a.graphAdjCache ∧ (a.step e).globalVersion = a.globalVersion := by
  have htraverse : ∀ col,(a.createTraverseIndex col).graphAdjCache = a.graphAdjCache ∧
      (a.createTraverseIndex col).globalVersion = a.globalVersion := fun col => by
    unfold createTraverseIndex
    split_ifs <;> exact ⟨rfl,rfl⟩
  have hindex : ∀ (b : Analytics) (col field : String),(b.createIndex col field).graphAdjCache = b.graphAdjCache ∧
      (b.createIndex col field).globalVersion = b.globalVersion := fun b col field => by
    unfold createIndex
    split_ifs <;> exact ⟨rfl,rfl⟩
  cases e with
  | write col mutations => exact absurd rfl (hwrite col mutations)
  | analyse col spec => exact absurd rfl (hcall col spec)
  | indexWork =>
    simp only [step,indexWork]
    split <;> exact ⟨rfl,rfl⟩
  | backfillWork n =>
    simp only [step,backfillWork]
    split
    · exact ⟨rfl,rfl⟩
    · split <;> exact ⟨rfl,rfl⟩
  | createTraverseIndex col => exact htraverse col
  | createEdgeIndex col => simp only [step,createEdgeIndex,hindex,htraverse,and_self]
  | dropTraverseIndex col => exact ⟨rfl,rfl⟩
  | dropEdgeIndex col => exact ⟨rfl,rfl⟩
  | load col => exact ⟨rfl,rfl⟩

theorem Exact.step (h : a.Exact) {e : AnalyticsEvent} (hquiet : a.Quiet e) : (a.step e).Exact := by
  cases e with
  | write col mutations => exact h.write mutations
  | analyse col spec => exact h.analyse hquiet
  | _ =>
    refine h.quiet ?_ ?_ hquiet
    · exact (a.step_frame _ (by simp) (by simp)).1
    · exact (a.step_frame _ (by simp) (by simp)).2

theorem Exact.run (h : a.Exact) {pre rest : List AnalyticsEvent} (hquiet : a.AllQuiet (pre++rest)) :
    (a.run pre).Exact ∧ (a.run pre).AllQuiet rest := by
  induction pre generalizing a with
  | nil => exact ⟨h,hquiet⟩
  | cons e pre ih => exact ih (h.step hquiet.1) hquiet.2

/-- A quiet call gives what would be computed. -/
theorem Exact.answer (h : a.Exact) (hquiet : a.Quiet (.analyse col spec)) :
    (a.graphAdjacency col spec).1 = ((Reading.computeAdjacency col spec).run a.db).1 := by
  unfold graphAdjacency
  cases hserved : a.served col spec with
  | none => rfl
  | some slot =>
    obtain rfl := hquiet.1 slot hserved
    exact (h.valid col slot (Option.filter_eq_some_iff.1 hserved).1).2.symm

/-- From an empty memo, in a history of quiet steps, every call gives the nodes and the adjacency that would be
computed at that moment. -/
theorem graphAdjacency_exact (a : Analytics) (hempty : a.graphAdjCache = ∅) (events : List AnalyticsEvent)
    (hquiet : a.AllQuiet events) (pre post : List AnalyticsEvent) (col : String) (spec : GraphSpec)
    (hcall : events = pre++.analyse col spec::post) :
    ((a.run pre).graphAdjacency col spec).1 = ((Reading.computeAdjacency col spec).run (a.run pre).db).1 := by
  have hstart : a.Exact := by
    refine ⟨fun c slot hslot => ?_,fun c slot hslot => ?_⟩
    · simp [hempty] at hslot
    · simp [current,hempty] at hslot
  subst hcall
  obtain ⟨hexact,hcall,-⟩ := hstart.run hquiet
  exact hexact.answer hcall

def fresh : Analytics :=
  ⟨⟨fun _ => .empty,∅,∅,fun _ => false,fun _ => [],⟨∅,⟨{"c"},∅⟩⟩,Finset.Subset.refl _,fun _ _ => rfl⟩,[],[],1,∅⟩

def whoRefers : GraphSpec := ⟨⟨.incoming,none,1,1,none,none⟩,none,none,none,false,false⟩

/-- The worker is done before the first of two calls. -/
def earlyWorker : List AnalyticsEvent := [.write "c" [.put "x" .empty],.indexWork,.analyse "c" whoRefers]

theorem graphAdjacency_earlyWorker :
    ((fresh.run earlyWorker).graphAdjacency "c" whoRefers).1 =
      ((Reading.computeAdjacency "c" whoRefers).run (fresh.run earlyWorker).db).1 := by
  have hread : (fresh.run (earlyWorker.take 2)).Quiet (.analyse "c" whoRefers) := by
    refine ⟨fun slot hslot => ?_,fun _ _ c _ hdir => .inl ?_⟩
    · have hnone : (fresh.run (earlyWorker.take 2)).served "c" whoRefers = none := rfl
      rw [hnone] at hslot
      cases hslot
    · have hsame : (fresh.run (earlyWorker.take 2)).db.dirs = (fresh.run (earlyWorker.take 2)).db.shards := by decide +kernel
      rwa [hsame] at hdir
  have hserved : (fresh.run earlyWorker).Quiet (.analyse "c" whoRefers) := by
    have hspec : ((fresh.run earlyWorker).served "c" whoRefers).map AdjSlot.spec = some whoRefers := by decide +kernel
    refine ⟨fun slot hslot => ?_,fun hnone => ?_⟩
    · rw [Option.mem_def.1 hslot] at hspec
      exact Option.some.inj hspec
    · rw [hnone] at hspec
      cases hspec
  have hquiet : fresh.AllQuiet (earlyWorker++[.analyse "c" whoRefers]) := ⟨trivial,.inl fun c => rfl,hread,hserved,trivial⟩
  exact graphAdjacency_exact fresh rfl _ hquiet earlyWorker [] "c" whoRefers rfl

/-- One document refers to the other; the worker comes to it between two calls. -/
def lateWorker : List AnalyticsEvent :=
  [.write "c" [.put "x" .empty,.put "y" ⟨[("to",.reference "c" "x")],0⟩],.analyse "c" whoRefers,.indexWork]

theorem graphAdjacency_lateWorker :
    ((fresh.run lateWorker).graphAdjacency "c" whoRefers).1.2.lookup ("c","x") = some [] ∧
      ((Reading.computeAdjacency "c" whoRefers).run (fresh.run lateWorker).db).1.2.lookup ("c","x") = some [("c","y")] := by
  decide +kernel

end Analytics
end HakoDB

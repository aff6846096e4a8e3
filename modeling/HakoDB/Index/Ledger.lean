import HakoDB.Engine.WriteBatch
import HakoDB.Index.Definition
import HakoDB.Lib.Pairing

/-! The ledger of unique indexes: which document owns which tuple. A batch claims and releases tuples
while it is prepared and keeps a log to take its changes back. -/
namespace HakoDB
open ByteCodec HashMap

/-- The claims of one index, by tuple and by document, and the documents whose claim was taken back. -/
structure ClaimMap where
  fwd : HMap Bytes String
  byDoc : HMap String Bytes
  freed : Finset String

inductive LedgerUndo
  | remove (indexId : UInt32) (tuple : Bytes)
  | restore (indexId : UInt32) (tuple : Bytes) (owner : String)
  deriving DecidableEq

structure UniqueLedger where
  inner : HMap UInt32 ClaimMap
  pending : HMap UInt32 (Finset String)

namespace ClaimMap

/-- Take the document's claim away, if it has one. -/
def dropDoc (c : ClaimMap) (docId : String) : ClaimMap :=
  match c.byDoc.lookup docId with
  | some old => {c with fwd := c.fwd.erase old, byDoc := c.byDoc.erase docId}
  | none => c

def give (c : ClaimMap) (tuple : Bytes) (docId : String) : ClaimMap where
  fwd := c.fwd.insert tuple docId
  byDoc := c.byDoc.insert docId tuple
  freed := c.freed.erase docId

end ClaimMap

namespace UniqueLedger

def isReady (l : UniqueLedger) (indexId : UInt32) : Bool := (l.inner.lookup indexId).isSome

/-- The index is ready; nothing is claimed yet. -/
def prepareEmpty (l : UniqueLedger) (indexId : UInt32) : UniqueLedger :=
  let shipped := (l.pending.lookup indexId).getD ∅
  let claims := (l.inner.lookup indexId).getD ⟨∅,∅,∅⟩
  {l with
    pending := l.pending.erase indexId
    inner := l.inner.insert indexId {claims with freed := claims.freed ∪ shipped}}

def setClaims (l : UniqueLedger) (indexId : UInt32) (c : ClaimMap) : UniqueLedger :=
  {l with inner := l.inner.insert indexId c}

def indexText (indexId : UInt32) : String := toString indexId.toNat

/-- Claim a tuple for a document, whose earlier claim is released; with what takes the change back. -/
def claim (l : UniqueLedger) (indexId : UInt32) (tuple : Bytes) (docId : String) :
    Except HakoError (UniqueLedger × List LedgerUndo) :=
  match l.inner.lookup indexId with
  | none => .error (.indexBackfilling "" (indexText indexId))
  | some c =>
    match c.fwd.lookup tuple with
    | some owner =>
      if owner ≠ docId then .error (.uniqueViolation "" (indexText indexId) owner)
      else .ok (l,[])
    | none =>
      let restored := match c.byDoc.lookup docId with
        | some old => [.restore indexId old docId]
        | none => []
      .ok (l.setClaims indexId ((c.dropDoc docId).give tuple docId),restored++[.remove indexId tuple])

/-- Release the claim of a document. A release before the index is ready is kept for later. -/
def releaseDoc (l : UniqueLedger) (indexId : UInt32) (docId : String) : UniqueLedger × List LedgerUndo :=
  let slot := (l.pending.lookup indexId).getD ∅
  match l.inner.lookup indexId with
  | none => ({l with pending := l.pending.insert indexId (insert docId slot)},[])
  | some c =>
    let undo := match c.byDoc.lookup docId with
      | some old => [.restore indexId old docId]
      | none => []
    let dropped := c.dropDoc docId
    ({l with
      pending := l.pending.insert indexId slot
      inner := l.inner.insert indexId {dropped with freed := insert docId dropped.freed}},undo)

/-- Take one change back. -/
def undoOne (l : UniqueLedger) : LedgerUndo → UniqueLedger
  | .remove indexId tuple =>
    match l.inner.lookup indexId with
    | none => l
    | some c =>
      match c.fwd.lookup tuple with
      | some owner => l.setClaims indexId {c with fwd := c.fwd.erase tuple, byDoc := c.byDoc.erase owner}
      | none => l
  | .restore indexId tuple owner =>
    match l.inner.lookup indexId with
    | none => l
    | some c => l.setClaims indexId ({c with byDoc := c.byDoc.erase owner}.give tuple owner)

/-- Take a batch's changes back, the last one first. -/
def rollback (l : UniqueLedger) (undo : List LedgerUndo) : UniqueLedger := undo.reverse.foldl undoOne l

end UniqueLedger

/-- The unique indexes of every collection; an id stands for one index. -/
structure UniqueIndexes where
  defs : String → List CompositeIndexDefinition
  unique : ∀ col,∀ d ∈ defs col,d.unique = true
  nodup : ∀ col,((defs col).map CompositeIndexDefinition.id).Nodup
  ids : ∀ col col' d d',d ∈ defs col → d' ∈ defs col' → d.id = d'.id → col = col'

namespace UniqueIndexes
variable (text : TextOps) (ix : UniqueIndexes)

/-- The errors of the ledger with the collection they are about. -/
def located (col : String) : HakoError → HakoError
  | .uniqueViolation _ index key => .uniqueViolation col index key
  | .indexBackfilling _ index => .indexBackfilling col index
  | e => e

def admitOne (col docId : String) (doc : HakoDoc) (l : UniqueLedger × List LedgerUndo) (d : CompositeIndexDefinition) :
    Except HakoError (UniqueLedger × List LedgerUndo) :=
  if l.1.isReady d.id = false then .error (.indexBackfilling col (UniqueLedger.indexText d.id))
  else match d.claimOf text docId doc with
    | none => .ok l
    | some tuple =>
      match l.1.claim d.id tuple docId with
      | .ok (l',undo) => .ok (l',l.2++undo)
      | .error e => .error (located col e)

/-- Admit a document to every unique index of its collection. -/
def gateAdmit (l : UniqueLedger) (col docId : String) (doc : HakoDoc) :
    Except HakoError (UniqueLedger × List LedgerUndo) :=
  (ix.defs col).foldlM (admitOne text col docId doc) (l,[])

def releaseOne (docId : String) (l : UniqueLedger × List LedgerUndo) (d : CompositeIndexDefinition) :
    UniqueLedger × List LedgerUndo :=
  let (l',undo) := l.1.releaseDoc d.id docId
  (l',l.2++undo)

/-- Release what a deleted document has claimed in the unique indexes of its collection. -/
def gateRelease (l : UniqueLedger) (col docId : String) : UniqueLedger × List LedgerUndo :=
  (ix.defs col).foldl (releaseOne docId) (l,[])

/-- The gate of the write path; a batch that ends well forgets its log. -/
def gate : UniqueGate UniqueLedger where
  gateAdmit l col docId doc := (ix.gateAdmit text l col docId doc).map Prod.fst
  gateRelease l col docId := (ix.gateRelease l col docId).1

end UniqueIndexes

end HakoDB

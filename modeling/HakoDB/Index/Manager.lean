import HakoDB.Lib.OrderedMap
import HakoDB.Query.Plan

/-! The indexes of the collections: ordered trees over tuples, over single values and over words, and how
a document enters them and leaves them. A table of indexes is a function, since it is only looked up and
changed index by index. -/
namespace HakoDB
open ByteCodec

/-- The text functions that planning and the word indexes use beside the comparisons. -/
structure QueryText extends TextOps where
  tokenize : String → List String
  formatFloat : F64 → String

namespace KeyBound

def startsBy : KeyBound → IndexKey → Bool
  | included k,key => k ≤ key
  | excluded k,key => k < key
  | unbounded,_ => true

def endsAfter : KeyBound → IndexKey → Bool
  | included k,key => key ≤ k
  | excluded k,key => key < k
  | unbounded,_ => true

/-- A tree refuses to walk such a range. -/
def inverted : KeyBound → KeyBound → Bool
  | excluded a,excluded b => b ≤ a
  | included a,included b | included a,excluded b | excluded a,included b => b < a
  | _,_ => false

def within (start stop : KeyBound) (key : IndexKey) : Bool := start.startsBy key && stop.endsAfter key

end KeyBound

/-- The key of one value in an index of its own. -/
def encodeScalar : Value → IndexKey
  | .null => ⟨[0]⟩
  | .bool v => ⟨[1,if v then 1 else 0]⟩
  | .int v => ⟨2::beBytes 8 v.toUInt64.toNat⟩
  | .float v => ⟨3::beBytes 8 v.bits.toNat⟩
  | .string v => ⟨4::beBytes 4 (asBytes v).length++asBytes v⟩
  | .binary v => ⟨5::beBytes 4 v.length++v⟩
  | .timestamp v => ⟨6::beBytes 8 v.toUInt64.toNat⟩
  | .serverTimestamp => ⟨[0]⟩
  | .map _ => ⟨[8]⟩
  | .array _ => ⟨[9]⟩
  | .reference c d => ⟨10::shortText c++shortText d⟩
  | .blobLink offset len => ⟨11::beBytes 8 offset.toNat++beBytes 4 len.toNat⟩

/-- The ids under each key. -/
abbrev Postings (α : Type) [LinearOrder α] := OrderedMap α (OrderedSet String)

namespace Postings
variable {α : Type} [LinearOrder α]

def add (m : Postings α) (key : α) (docId : String) : Postings α :=
  m.insert key (((m.get key).getD .empty).insert docId ())

/-- A key that loses its last id goes. -/
def remove (m : Postings α) (key : α) (docId : String) : Postings α :=
  match m.get key with
  | none => m
  | some ids =>
    let rest := ids.erase docId
    if rest.entries.isEmpty then m.erase key else m.insert key rest

def idsAt (m : Postings α) (key : α) : List String := ((m.get key).getD .empty).items

end Postings

abbrev SecondaryIndex := Postings IndexKey

/-- Words and the documents that hold them. -/
abbrev InvertedIndex := Postings String

namespace InvertedIndex
variable (text : QueryText)

def insertText (m : InvertedIndex) (body docId : String) : InvertedIndex :=
  (text.tokenize body).foldl (fun m word => m.add word docId) m

def removeText (m : InvertedIndex) (body docId : String) : InvertedIndex :=
  (text.tokenize body).foldl (fun m word => m.remove word docId) m

/-- The ids that every word gives; a word without ids ends the search. -/
def intersect (found : String → Option (List String)) : List String → Option (List String)
  | [] => none
  | word::words => words.foldlM (fun ids word => (found word).map fun more => ids.filter (· ∈ more)) =<< found word

def search (m : InvertedIndex) (query : String) : Option (List String) :=
  intersect (fun word => (m.get word).map OrderedSet.items) (text.tokenize query)

/-- The ids of all the words that start so. -/
def idsByPrefix (m : InvertedIndex) (word : String) : Option (List String) :=
  let last := word.push (Char.ofNat 0x10FFFF)
  let ids := (m.range fun w => word ≤ w && w < last).foldl
    (fun (ids : OrderedSet String) e => e.2.items.foldl (fun ids id => ids.insert id ()) ids) .empty
  if ids.entries.isEmpty then none else some ids.items

/-- As `search`; an empty intersection ends the search at once. -/
def searchByPrefix (m : InvertedIndex) (query : String) : Option (List String) :=
  let rec meet (ids : List String) : List String → Option (List String)
    | [] => some ids
    | word::words =>
      match m.idsByPrefix word with
      | none => none
      | some more =>
        let both := ids.filter (· ∈ more)
        if both.isEmpty then some [] else meet both words
  match text.tokenize query with
  | [] => none
  | word::words => (m.idsByPrefix word).bind fun ids => meet ids words

end InvertedIndex

structure CompositeIndex where
  definition : CompositeIndexDefinition
  tree : OrderedMap IndexKey String

/-- The tuple and behind it the id, so that no two documents share a key. -/
def encodeCompositeKey (d : CompositeIndexDefinition) (values : List Value) (docId : String) : IndexKey :=
  ⟨d.encodeCompositePrefix values++beBytes 2 (asBytes docId).length++asBytes docId⟩

namespace CompositeIndex
variable (text : QueryText)

/-- The key of a document that the index takes in. -/
def keyOf (idx : CompositeIndex) (docId : String) (doc : HakoDoc) : Option IndexKey :=
  if idx.definition.filterPasses text.toTextOps docId doc then
    (idx.definition.documentValuesOf docId doc).map fun values => encodeCompositeKey idx.definition values docId
  else none

def indexDocument (idx : CompositeIndex) (docId : String) (doc : HakoDoc) : CompositeIndex :=
  match idx.keyOf text docId doc with
  | some key => {idx with tree := idx.tree.insert key docId}
  | none => idx

def removeDocument (idx : CompositeIndex) (docId : String) (doc : HakoDoc) : CompositeIndex :=
  match idx.keyOf text docId doc with
  | some key => {idx with tree := idx.tree.erase key}
  | none => idx

end CompositeIndex

structure CompositeIndexManager where
  nextId : UInt32
  byId : UInt32 → Option CompositeIndex
  byCollection : String → Option (List UInt32)

namespace CompositeIndexManager

def indexesForCollection (m : CompositeIndexManager) (collection : String) : List CompositeIndex :=
  ((m.byCollection collection).getD []).filterMap m.byId

def modify (m : CompositeIndexManager) (f : CompositeIndex → CompositeIndex) (id : UInt32) : CompositeIndexManager :=
  {m with byId := fun i => if i = id then (m.byId i).map f else m.byId i}

def modifyAll (m : CompositeIndexManager) (f : CompositeIndex → CompositeIndex) (collection : String) :
    CompositeIndexManager :=
  ((m.byCollection collection).getD []).foldl (modify · f) m

end CompositeIndexManager

structure VectorDef where
  dim : UInt32
  metric : Metric

/-- The graphs of the vectors and of the references are not kept here; the collections whose incoming references
are tracked are. -/
structure IndexManager where
  composite : CompositeIndexManager
  secondary : String → Option (String → Option SecondaryIndex)
  fts : String → Option (String → Option InvertedIndex)
  vector : String → String → Option VectorDef
  tracked : String → Bool

/-- Change every index of one collection. -/
def updateAll {α : Type} (table : String → Option (String → Option α)) (collection : String) (f : String → α → α) :
    String → Option (String → Option α) := fun col =>
  if col = collection then (table col).map fun fields field => (fields field).map (f field) else table col

namespace IndexManager
variable (text : QueryText)

def indexesForCollection (im : IndexManager) (collection : String) : List CompositeIndex :=
  im.composite.indexesForCollection collection

def hasSecondary (im : IndexManager) (collection field : String) : Bool :=
  (im.secondary collection).any fun fields => (fields field).isSome

def secondaryOf (im : IndexManager) (collection field : String) : Option SecondaryIndex :=
  (im.secondary collection).bind fun fields => fields field

def ftsOf (im : IndexManager) (collection field : String) : Option InvertedIndex :=
  (im.fts collection).bind fun fields => fields field

/-- The value under which an index of one field takes a document in. -/
def indexedValue (docId : String) (doc : HakoDoc) (field : String) : Option Value :=
  if field = "id" then some (.string docId)
  else if field = "_time" then some (.int doc.time)
  else doc.get field

def indexText (doc : HakoDoc) (act : InvertedIndex → String → InvertedIndex) (field : String) (m : InvertedIndex) :
    InvertedIndex :=
  match doc.get field with
  | some (.string body) => act m body
  | _ => m

def indexDocument (im : IndexManager) (collection docId : String) (doc : HakoDoc) : IndexManager where
  composite := im.composite.modifyAll (fun idx => idx.indexDocument text docId doc) collection
  secondary := updateAll im.secondary collection fun field m =>
    match indexedValue docId doc field with
    | some v => m.add (encodeScalar v) docId
    | none => m
  fts := updateAll im.fts collection (indexText doc fun m body => m.insertText text body docId)
  vector := im.vector
  tracked := im.tracked

/-- Only the body is looked at: the entries under the id and the time stay. -/
def removeDocument (im : IndexManager) (collection docId : String) (doc : HakoDoc) : IndexManager where
  composite := im.composite.modifyAll (fun idx => idx.removeDocument text docId doc) collection
  secondary := updateAll im.secondary collection fun field m =>
    match doc.get field with
    | some v => m.remove (encodeScalar v) docId
    | none => m
  fts := updateAll im.fts collection (indexText doc fun m body => m.removeText text body docId)
  vector := im.vector
  tracked := im.tracked

end IndexManager

end HakoDB

import HakoDB.Engine.Sequential
import HakoDB.Index.Removal
import HakoDB.Sync.Replicated

/-! The way of a replicated batch to the indexes. The worker gets the accepted puts under ids taken from their keys, and it
gets no deletes. -/
namespace HakoDB
open ByteCodec HashMap

theorem Postings.has_insertKeys {α : Type} [LinearOrder α] (m : Postings α) (keys : List α) (docId : String) (key : α)
    (id : String) : (m.insertKeys keys docId).Has key id ↔ (key ∈ keys ∧ id = docId) ∨ m.Has key id := by
  have hadd : m.insertKeys keys docId = m.addAll (keys.map fun k => (k,docId)) := by
    rw [insertKeys,addAll,List.foldl_map]
  rw [hadd,has_addAll]
  simp [eq_comm]

/-- One entry of an index: a value or a word of a field with the id under it, or a tuple with the id at its end. -/
inductive IndexEntry
  | secondary (field : String) (key : IndexKey) (docId : String)
  | word (field word docId : String)
  | tuple (index : UInt32) (key : IndexKey)

namespace IndexManager
variable (text : QueryText)

def compositeAt (im : IndexManager) (collection : String) (i : UInt32) : Option CompositeIndex :=
  if i ∈ (im.composite.byCollection collection).getD [] then im.composite.byId i else none

def Holds (im : IndexManager) (collection : String) : IndexEntry → Prop
  | .secondary field key docId => ∃ m,im.secondaryOf collection field = some m ∧ m.Has key docId
  | .word field word docId => ∃ m,im.ftsOf collection field = some m ∧ m.Has word docId
  | .tuple i key => ∃ idx,im.compositeAt collection i = some idx ∧ idx.tree.get key ≠ none

/-- The entries that a document has in the indexes of its collection. -/
def Files (im : IndexManager) (collection docId : String) (doc : HakoDoc) : IndexEntry → Prop
  | .secondary field key id => (im.secondaryOf collection field).isSome ∧ key ∈ filedKeys docId doc field ∧ id = docId
  | .word field word id => (im.ftsOf collection field).isSome ∧ word ∈ words text doc field ∧ id = docId
  | .tuple i key => ∃ idx,im.compositeAt collection i = some idx ∧ idx.keyOf text docId doc = some key

/-- What the worker does with one update: all puts, then all deletes; a field that a vector index needs is resolved first. -/
def applyUpdate (resolve : HakoDoc → HakoDoc) (im : IndexManager) (u : IndexUpdate) : IndexManager :=
  u.deletes.foldl (fun im d => im.removeDocument text u.collection d.1 d.2)
    (u.puts.foldl (fun im p => im.indexDocument text u.collection p.1 (resolve p.2)) im)

def drain (resolve : HakoDoc → HakoDoc) (im : IndexManager) (queue : List IndexUpdate) : IndexManager :=
  queue.foldl (applyUpdate text resolve) im

variable {text} {im : IndexManager} {collection docId field : String} {doc : HakoDoc}

theorem secondaryOf_indexDocument : (im.indexDocument text collection docId doc).secondaryOf collection field =
    (im.secondaryOf collection field).map fun m => m.insertKeys (filedKeys docId doc field) docId := by
  rw [secondaryOf,secondaryOf,indexDocument]
  dsimp only
  rw [updateAll,if_pos rfl]
  cases im.secondary collection with
  | none => rfl
  | some fields =>
    simp only [Option.map_some,Option.bind_some,filedKeys]
    congr 1
    funext m
    cases indexedValue docId doc field <;> rfl

theorem ftsOf_indexDocument : (im.indexDocument text collection docId doc).ftsOf collection field =
    (im.ftsOf collection field).map fun m => m.insertKeys (words text doc field) docId := by
  rw [ftsOf,ftsOf,indexDocument]
  dsimp only
  rw [updateAll,if_pos rfl]
  cases im.fts collection with
  | none => rfl
  | some fields =>
    simp only [Option.map_some,Option.bind_some,words]
    congr 1
    funext m
    rw [indexText]
    cases doc.get field with
    | none => rfl
    | some v => cases v <;> rfl

theorem compositeAt_indexDocument (i : UInt32) : (im.indexDocument text collection docId doc).compositeAt collection i =
    (im.compositeAt collection i).map fun idx => idx.indexDocument text docId doc := by
  rw [compositeAt,compositeAt,indexDocument]
  dsimp only
  rw [CompositeIndexManager.modifyAll,(CompositeIndexManager.foldl_modify_eq _ _).2,
    CompositeIndexManager.byId_foldl_modify CompositeIndex.indexDocument_twice]
  split_ifs <;> rfl

theorem holds_indexDocument (e : IndexEntry) : (im.indexDocument text collection docId doc).Holds collection e ↔
    im.Holds collection e ∨ im.Files text collection docId doc e := by
  cases e with
  | secondary field key id =>
    rw [Holds,secondaryOf_indexDocument,Holds,Files]
    cases im.secondaryOf collection field <;> simp [Postings.has_insertKeys,or_comm]
  | word field word id =>
    rw [Holds,ftsOf_indexDocument,Holds,Files]
    cases im.ftsOf collection field <;> simp [Postings.has_insertKeys,or_comm]
  | tuple i key =>
    rw [Holds,compositeAt_indexDocument,Holds,Files]
    cases im.compositeAt collection i with
    | none => simp
    | some idx =>
      simp only [Option.map_some,Option.some.injEq,exists_eq_left']
      rw [CompositeIndex.indexDocument]
      cases hkey : idx.keyOf text docId doc with
      | none => simp
      | some k =>
        dsimp only
        rw [OrderedMap.get_insert]
        by_cases hk : key = k
        · simp [hk]
        · simp [hk,Ne.symm hk]

/-- What a document files depends on the indexes that there are, not on what they hold. -/
theorem files_indexDocument (id : String) (d : HakoDoc) (e : IndexEntry) :
    (im.indexDocument text collection docId doc).Files text collection id d e ↔ im.Files text collection id d e := by
  cases e with
  | secondary field key i => rw [Files,Files,secondaryOf_indexDocument,Option.isSome_map]
  | word field word i => rw [Files,Files,ftsOf_indexDocument,Option.isSome_map]
  | tuple i key =>
    rw [Files,Files,compositeAt_indexDocument]
    cases im.compositeAt collection i with
    | none => simp
    | some idx =>
      have hkey : (idx.indexDocument text docId doc).keyOf text id d = idx.keyOf text id d := by
        rw [CompositeIndex.indexDocument]
        split <;> rfl
      simp [hkey]

theorem holds_foldl_indexDocument (resolve : HakoDoc → HakoDoc) (puts : List (String × HakoDoc)) (im : IndexManager)
    (e : IndexEntry) :
    (puts.foldl (fun im p => im.indexDocument text collection p.1 (resolve p.2)) im).Holds collection e ↔
      im.Holds collection e ∨ ∃ p ∈ puts,im.Files text collection p.1 (resolve p.2) e := by
  induction puts generalizing im with
  | nil => simp
  | cons p puts ih =>
    rw [List.foldl_cons,ih,holds_indexDocument,or_assoc]
    simp [files_indexDocument]

end IndexManager

section handoff
variable {Ledger : Type}

/-- The document of a put, under an id that is taken from its key. -/
def putUnder (idOf : String → String) : WalOp → Option (String × HakoDoc)
  | .putInlined key value => (HakoDoc.decode value).map fun doc => (idOf key,doc)
  | _ => none

/-- The accepted puts with their storage keys. -/
def Accepted.puts (acc : Accepted) : List (String × HakoDoc) := acc.ops.filterMap (putUnder id)

/-- The updates that a call hands to the worker. -/
def handed (h h' : Hako Ledger) : List IndexUpdate := h'.indexQueue.drop h.indexQueue.length

theorem indexQueue_observed (nowMicros : Int64) (h : Hako Ledger) (times : List Int64) :
    (times.foldl (Hako.observeRemoteTs nowMicros) h).indexQueue = h.indexQueue := by
  induction times generalizing h with
  | nil => rfl
  | cons ts times ih =>
    rw [List.foldl_cons,ih,Hako.observeRemoteTs]
    split_ifs <;> rfl

theorem indexQueue_bumpVersionsByKeys (h : Hako Ledger) (keys : List String) :
    (h.bumpVersionsByKeys keys).indexQueue = h.indexQueue := by
  rw [Hako.bumpVersionsByKeys]
  induction keys generalizing h with
  | nil => rfl
  | cons key keys ih => rw [List.foldl_cons,ih]

theorem indexQueue_getShard {h h₁ : Hako Ledger} {collection : String} {s : StorageEngine}
    (hs : h.getShard collection = .ok (s,h₁)) : h₁.indexQueue = h.indexQueue := by
  rw [Hako.getShard] at hs
  split at hs
  · cases hs
    rfl
  · cases hopen : h.openShard collection with
    | error e => rw [hopen] at hs; cases hs
    | ok s' =>
      rw [hopen] at hs
      cases hs
      rfl

/-- The worker gets the accepted puts under their naked ids and no deletes. -/
theorem handed_applyReplicatedBatch {env : Env Ledger} {instant : ℕ} {nowMicros : Int64} {h h₁ h' : Hako Ledger}
    {collection : String} {ops : List WalOp} {s : StorageEngine} {acc : Accepted} (hcol : collection ∉ h.localOnlyCols)
    (hs : h.getShard collection = .ok (s,h₁))
    (hacc : s.acceptAll env.zstd collection h₁.config.valueBlobThresholdBytes ops = .ok acc)
    (hrun : h.applyReplicatedBatch env instant nowMicros collection ops = .ok h') :
    handed h h' = if acc.puts = [] then [] else [⟨collection,acc.puts.map fun p => (nakedId p.1,p.2),[]⟩] := by
  have hqueue := indexQueue_getShard hs
  have hputs : acc.ops.filterMap (putUnder nakedId) = acc.puts.map fun p => (nakedId p.1,p.2) := by
    rw [Accepted.puts,List.map_filterMap]
    refine List.filterMap_congr fun op _ => ?_
    cases op with
    | putInlined key value => rw [putUnder,putUnder,Option.map_map]; rfl
    | _ => rfl
  rw [Hako.applyReplicatedBatch,if_neg hcol,hs] at hrun
  simp only [StorageEngine.applyReplicated,hacc] at hrun
  have hnone : acc.ops = [] → acc.puts = [] := fun hops => by rw [Accepted.puts,hops]; rfl
  simp only [bind,Except.bind,pure,Except.pure] at hrun
  split_ifs at hrun with hops hdocs
  · cases hrun
    rw [if_pos (hnone hops),handed,indexQueue_observed]
    dsimp only
    rw [hqueue,List.drop_length]
  · cases hrun
    rw [if_pos (List.map_eq_nil_iff.1 (hputs.symm.trans hdocs)),handed,indexQueue_bumpVersionsByKeys,indexQueue_observed]
    dsimp only
    rw [hqueue,List.drop_length]
  · cases hrun
    have hsome : acc.puts ≠ [] := fun hnil => hdocs (hputs.trans (by rw [hnil]; rfl))
    rw [if_neg hsome,handed]
    dsimp only
    rw [indexQueue_bumpVersionsByKeys,indexQueue_observed]
    dsimp only
    rw [hqueue,List.drop_left]
    exact congrArg (fun docs => [IndexUpdate.mk collection docs []]) hputs

theorem nakedId_of_colonFree {key : String} (h : ':' ∉ key.toList) : nakedId key = key := by
  have hdrop : key.toList.dropWhile (· ≠ ':') = [] := by
    rw [List.dropWhile_eq_nil_iff]
    intro c hc
    exact decide_eq_true fun he => h (he ▸ hc)
  rw [nakedId,hdrop]

theorem length_nakedId {key : String} (h : ':' ∈ key.toList) : (nakedId key).toList.length < key.toList.length := by
  have hle := (List.dropWhile_sublist (l := key.toList) (· ≠ ':')).length_le
  rw [nakedId]
  cases hdrop : key.toList.dropWhile (· ≠ ':') with
  | nil =>
    rw [List.dropWhile_eq_nil_iff] at hdrop
    simpa using hdrop ':' h
  | cons c rest =>
    rw [hdrop,List.length_cons] at hle
    rw [String.toList_ofList]
    omega

/-- The document of a key behind one more operation. -/
def contentAfter (key : String) (old : Option HakoDoc) : WalOp → Option HakoDoc
  | .putInlined k value => if k = key then HakoDoc.decode value else old
  | .delete k _ => if k = key then none else old
  | _ => old

def storedDoc (zstd : Option Zstd) (s : StorageEngine) (key : String) : Option HakoDoc :=
  (s.liveBytes zstd key).bind HakoDoc.decode

/-- The last content of every key that an accepted delete meets. -/
def Accepted.Deletes (acc : Accepted) (stored : String → Option HakoDoc) (key : String) (last : Option HakoDoc) : Prop :=
  ∃ pre ts post,acc.ops = pre++.delete key ts::post ∧ pre.foldl (contentAfter key) (stored key) = last

theorem of_contentAfter {key : String} {old : Option HakoDoc} {doc : HakoDoc} {ops : List WalOp}
    (h : ops.foldl (contentAfter key) old = some doc) :
    old.isSome ∨ ∃ op ∈ ops,∃ d,putUnder id op = some (key,d) := by
  induction ops generalizing old with
  | nil => exact .inl (by rw [show old = some doc from h]; rfl)
  | cons op ops ih =>
    rcases ih h with hold | ⟨op',hop,d,hd⟩
    · cases op with
      | putInlined k value =>
        rw [contentAfter] at hold
        split_ifs at hold with hk
        · obtain ⟨d,hd⟩ := Option.isSome_iff_exists.1 hold
          exact .inr ⟨_,List.mem_cons_self,d,by rw [putUnder,hd,hk]; rfl⟩
        · exact .inl hold
      | delete k ts =>
        rw [contentAfter] at hold
        split_ifs at hold with hk
        · cases hold
        · exact .inl hold
      | _ => exact .inl hold
    · exact .inr ⟨op',List.mem_cons_of_mem _ hop,d,hd⟩

section properties
variable (text : QueryText) (resolve : HakoDoc → HakoDoc) (collection : String) (queue : List IndexUpdate) (acc : Accepted)

/-- Behind the worker the indexes hold what they held and every accepted put under its storage key, and nothing else. -/
def PutsExact (im : IndexManager) : Prop := ∀ e,(im.drain text resolve queue).Holds collection e ↔
  im.Holds collection e ∨ ∃ p ∈ acc.puts,im.Files text collection p.1 (resolve p.2) e

/-- Every stored document is in the indexes. -/
def Indexed (stored : String → Option HakoDoc) (im : IndexManager) : Prop := ∀ key doc,stored key = some doc →
  ∀ e,im.Files text collection key (resolve doc) e → im.Holds collection e

/-- Behind the worker no entry of a deleted document is left. -/
def DeletesGone (stored : String → Option HakoDoc) (im : IndexManager) : Prop := ∀ key doc,acc.Deletes stored key (some doc) →
  ∀ e,im.Files text collection key (resolve doc) e → ¬(im.drain text resolve queue).Holds collection e

end properties

/-- A manager whose only index is one over a field of a collection. -/
def onlyIndex (collection field : String) (m : SecondaryIndex) : IndexManager where
  composite := ⟨1,fun _ => none,fun _ => none⟩
  secondary := fun col => if col = collection then some fun f => if f = field then some m else none else none
  fts := fun _ => none
  vector := fun _ _ => none
  tracked := fun _ => false

theorem holds_onlyIndex {collection field : String} {m : SecondaryIndex} {e : IndexEntry} :
    (onlyIndex collection field m).Holds collection e ↔ ∃ key id,e = .secondary field key id ∧ m.Has key id := by
  cases e with
  | secondary f key id =>
    by_cases hf : f = field <;> simp [IndexManager.Holds,IndexManager.secondaryOf,onlyIndex,hf]
  | word f w id => simp [IndexManager.Holds,IndexManager.ftsOf,onlyIndex]
  | tuple i key => simp [IndexManager.Holds,IndexManager.compositeAt,onlyIndex]

theorem files_onlyIndex {text : QueryText} {collection field docId : String} {doc : HakoDoc} {m : SecondaryIndex}
    {e : IndexEntry} : (onlyIndex collection field m).Files text collection docId doc e ↔
      ∃ key ∈ IndexManager.filedKeys docId doc field,e = .secondary field key docId := by
  cases e with
  | secondary f key id =>
    by_cases hf : f = field <;> simp [IndexManager.Files,IndexManager.secondaryOf,onlyIndex,hf]
  | word f w id => simp [IndexManager.Files,IndexManager.ftsOf,onlyIndex]
  | tuple i key => simp [IndexManager.Files,IndexManager.compositeAt,onlyIndex]

theorem drain_handed {text : QueryText} {resolve : HakoDoc → HakoDoc} {collection : String} {puts : List (String × HakoDoc)}
    (im : IndexManager) (e : IndexEntry) :
    (im.drain text resolve (if puts = [] then [] else [⟨collection,puts.map fun p => (nakedId p.1,p.2),[]⟩])).Holds collection e ↔
      im.Holds collection e ∨ ∃ p ∈ puts,im.Files text collection (nakedId p.1) (resolve p.2) e := by
  split_ifs with hnil
  · simp [IndexManager.drain,hnil]
  · rw [IndexManager.drain,List.foldl_cons,List.foldl_nil,IndexManager.applyUpdate]
    dsimp only
    rw [List.foldl_nil,IndexManager.holds_foldl_indexDocument]
    refine or_congr Iff.rfl ⟨?_,?_⟩
    · rintro ⟨q,hq,he⟩
      obtain ⟨p,hp,rfl⟩ := List.mem_map.1 hq
      exact ⟨p,hp,he⟩
    · rintro ⟨p,hp,he⟩
      exact ⟨_,List.mem_map_of_mem hp,he⟩

/-- A key with a colon is found again only as the naked id of a longer one. -/
theorem colonFree_of_putsExact {text : QueryText} {resolve : HakoDoc → HakoDoc} {collection : String} {acc : Accepted}
    (h : PutsExact text resolve collection
      (if acc.puts = [] then [] else [⟨collection,acc.puts.map fun p => (nakedId p.1,p.2),[]⟩]) acc
      (onlyIndex collection "id" .empty)) : ∀ p ∈ acc.puts,':' ∉ p.1.toList := by
  have hempty : ∀ (key : IndexKey) (id : String),¬Postings.Has .empty key id := by
    rintro key id ⟨ids,hids,-⟩
    cases hids
  have hlonger : ∀ p ∈ acc.puts,':' ∈ p.1.toList → ∃ q ∈ acc.puts,':' ∈ q.1.toList ∧ p.1.toList.length < q.1.toList.length := by
    intro p hp hcolon
    have hfiles : (onlyIndex collection "id" .empty).Files text collection p.1 (resolve p.2)
        (.secondary "id" (encodeScalar (.string p.1)) p.1) :=
      files_onlyIndex.2 ⟨_,List.mem_singleton_self _,rfl⟩
    rcases (drain_handed _ _).1 ((h _).2 (.inr ⟨p,hp,hfiles⟩)) with hheld | ⟨q,hq,hnaked⟩
    · obtain ⟨key,id,-,hhas⟩ := holds_onlyIndex.1 hheld
      exact absurd hhas (hempty key id)
    · obtain ⟨key,-,he⟩ := files_onlyIndex.1 hnaked
      have hid : p.1 = nakedId q.1 := (IndexEntry.secondary.inj he).2.2
      have hcolon' : ':' ∈ q.1.toList := by
        by_contra hfree
        rw [nakedId_of_colonFree hfree] at hid
        exact hfree (hid ▸ hcolon)
      exact ⟨q,hq,hcolon',hid ▸ length_nakedId hcolon'⟩
  intro p hp hcolon
  have hgrow : ∀ n,∃ q ∈ acc.puts,':' ∈ q.1.toList ∧ n ≤ q.1.toList.length := by
    intro n
    induction n with
    | zero => exact ⟨p,hp,hcolon,Nat.zero_le _⟩
    | succ n ih =>
      obtain ⟨q,hq,hc,hn⟩ := ih
      obtain ⟨r,hr,hc',hlt⟩ := hlonger q hq hc
      exact ⟨r,hr,hc',by omega⟩
  have hbound : ∀ puts : List (String × HakoDoc),∃ n,∀ q ∈ puts,q.1.toList.length < n := by
    intro puts
    induction puts with
    | nil => exact ⟨0,fun q hq => nomatch hq⟩
    | cons q puts ih =>
      obtain ⟨n,hn⟩ := ih
      refine ⟨max n (q.1.toList.length+1),fun r hr => ?_⟩
      rcases List.mem_cons.1 hr with rfl | hr
      · omega
      · have := hn r hr
        omega
  obtain ⟨n,hn⟩ := hbound acc.puts
  obtain ⟨q,hq,-,hlong⟩ := hgrow n
  exact absurd (hn q hq) (by omega)

/-- The entries under the ids of the stored documents. -/
noncomputable def storedIds (s : StorageEngine) : SecondaryIndex :=
  Postings.addAll .empty (s.index.keys.toList.map fun key => (encodeScalar (.string key),key))

theorem has_storedIds {zstd : Option Zstd} {s : StorageEngine} {key : String} {doc : HakoDoc}
    (h : storedDoc zstd s key = some doc) : (storedIds s).Has (encodeScalar (.string key)) key := by
  refine (Postings.has_addAll _ _ _ _).2 (.inl (List.mem_map.2 ⟨key,?_,rfl⟩))
  rw [Finset.mem_toList,Finmap.mem_keys,← Finmap.lookup_isSome]
  obtain ⟨bytes,hbytes,-⟩ := Option.bind_eq_some_iff.1 h
  rw [StorageEngine.liveBytes,StorageEngine.get] at hbytes
  cases hp : s.index.lookup key with
  | none => rw [hp] at hbytes; cases hbytes
  | some p => rfl

end handoff

section fixtures
open Hako

/-- A batch on a collection with an index over ids: what the worker is handed and the ids under two values of the index. -/
def idsAfter (h : Hako Unit) (ops : List WalOp) (a b : String) : Option (List String × List String) := do
  let h' ← (h.applyReplicatedBatch plainEnv 0 0 "c" ops).toOption
  let m ← ((onlyIndex "c" "id" .empty).drain asciiWords id (handed h h')).secondaryOf "c" "id"
  return (m.idsAt (encodeScalar (.string a)),m.idsAt (encodeScalar (.string b)))

def replicatedPut (key : String) : WalOp := .putInlined key (HakoDoc.encode ⟨[],5⟩)

end fixtures

end HakoDB

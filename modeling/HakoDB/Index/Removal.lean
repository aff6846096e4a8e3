import HakoDB.Index.TupleKeys
import HakoDB.Index.Words

/-! A document that enters the indexes and leaves them again. Each index files the document under some keys and
removes it under some keys; what was there before comes back if the second are no fewer than the first. -/
namespace HakoDB
open ByteCodec

namespace OrderedSet
variable {α : Type} [LinearOrder α] {s : OrderedSet α} {a : α}

theorem insert_insert (s : OrderedSet α) (a : α) : (s.insert a ()).insert a () = s.insert a () := by
  refine OrderedMap.ext_get fun k => ?_
  rw [OrderedMap.get_insert,OrderedMap.get_insert]
  split_ifs <;> rfl

theorem erase_of_get (h : s.get a = none) : s.erase a = s := by
  refine OrderedMap.ext_get fun k => ?_
  rw [OrderedMap.get_erase]
  split_ifs with hk
  · rw [hk,h]
  · rfl

theorem erase_insert (h : s.get a = none) : (s.insert a ()).erase a = s := by
  refine OrderedMap.ext_get fun k => ?_
  rw [OrderedMap.get_erase,OrderedMap.get_insert]
  split_ifs with hk
  · rw [hk,h]
  · rfl

theorem eq_empty_iff : s.entries.isEmpty = true ↔ s = .empty := by
  rw [List.isEmpty_iff]
  exact ⟨fun h => OrderedMap.ext_get fun k => by simp [OrderedMap.get,h],fun h => by rw [h,OrderedMap.entries_empty]⟩

end OrderedSet

namespace Postings
variable {α : Type} [LinearOrder α] {m : Postings α} {docId : String} {put gone : List α}

/-- What one key keeps of its ids. -/
def trimmed (docId : String) : Option (OrderedSet String) → Option (OrderedSet String)
  | none => none
  | some s => if (s.erase docId).entries.isEmpty then none else some (s.erase docId)

theorem get_remove (m : Postings α) (a key : α) (docId : String) :
    (m.remove a docId).get key = if key = a then trimmed docId (m.get key) else m.get key := by
  rw [remove]
  split
  · next hnone =>
    split_ifs with hkey
    · rw [hkey,hnone]
      rfl
    · rfl
  · next ids hids =>
    dsimp only
    split_ifs with hempty hkey hkey
    · rw [OrderedMap.get_erase,if_pos hkey,hkey,hids,trimmed,if_pos hempty]
    · rw [OrderedMap.get_erase,if_neg hkey]
    · rw [OrderedMap.get_insert,if_pos hkey,hkey,hids,trimmed,if_neg hempty]
    · rw [OrderedMap.get_insert,if_neg hkey]

def insertKeys (m : Postings α) (keys : List α) (docId : String) : Postings α := keys.foldl (fun m key => m.add key docId) m

def removeKeys (m : Postings α) (keys : List α) (docId : String) : Postings α := keys.foldl (fun m key => m.remove key docId) m

theorem get_insertKeys (m : Postings α) (keys : List α) (key : α) : (m.insertKeys keys docId).get key =
    if key ∈ keys then some (((m.get key).getD .empty).insert docId ()) else m.get key := by
  induction keys generalizing m with
  | nil => rfl
  | cons k keys ih =>
    have hstep : m.insertKeys (k::keys) docId = (m.add k docId).insertKeys keys docId := rfl
    rw [hstep,ih,add,OrderedMap.get_insert]
    by_cases hk : key = k
    · subst hk
      simp [OrderedSet.insert_insert]
    · simp [hk]

theorem trimmed_trimmed (docId : String) (ids : Option (OrderedSet String)) :
    trimmed docId (trimmed docId ids) = trimmed docId ids := by
  cases ids with
  | none => rfl
  | some s =>
    have herase : (s.erase docId).erase docId = s.erase docId := OrderedSet.erase_of_get (by
      rw [OrderedMap.get_erase,if_pos rfl])
    by_cases hs : (s.erase docId).entries.isEmpty
    · rw [trimmed,if_pos hs,trimmed]
    · rw [trimmed,if_neg hs,trimmed,herase,if_neg hs]

theorem get_removeKeys (m : Postings α) (keys : List α) (key : α) : (m.removeKeys keys docId).get key =
    if key ∈ keys then trimmed docId (m.get key) else m.get key := by
  induction keys generalizing m with
  | nil => rfl
  | cons k keys ih =>
    have hstep : m.removeKeys (k::keys) docId = (m.remove k docId).removeKeys keys docId := rfl
    rw [hstep,ih,get_remove]
    by_cases hk : key = k
    · simp [hk,trimmed_trimmed]
    · simp [hk]

theorem get_of_not_has {key : α} {ids : OrderedSet String} (h : ¬m.Has key docId) (hids : m.get key = some ids) :
    ids.get docId = none := by
  cases hget : ids.get docId with
  | none => rfl
  | some u => exact absurd ⟨ids,hids,OrderedMap.get_eq_some.1 hget⟩ h

/-- An id that a key did not hold leaves it as it was, unless the key was there without any id. -/
theorem trimmed_eq_iff {key : α} (h : ¬m.Has key docId) :
    trimmed docId (m.get key) = m.get key ↔ m.get key ≠ some .empty := by
  cases hget : m.get key with
  | none => simp [trimmed]
  | some ids =>
    rw [trimmed,OrderedSet.erase_of_get (get_of_not_has h hget)]
    split_ifs with hs
    · simp [OrderedSet.eq_empty_iff.1 hs]
    · simp [← OrderedSet.eq_empty_iff,hs]

theorem trimmed_insert {key : α} (h : ¬m.Has key docId) :
    trimmed docId (some (((m.get key).getD .empty).insert docId ())) = trimmed docId (m.get key) := by
  cases hget : m.get key with
  | none =>
    have hnone : (OrderedMap.empty : OrderedSet String).get docId = none := rfl
    rw [Option.getD_none,trimmed,trimmed,OrderedSet.erase_insert hnone]
    rfl
  | some ids =>
    have hids := get_of_not_has h hget
    rw [Option.getD_some,trimmed,trimmed,OrderedSet.erase_insert hids,OrderedSet.erase_of_get hids]

/-- An index is back where it was if every key under which the document entered is one under which it left, and
none of these was there without ids. -/
theorem removeKeys_insertKeys_eq_iff (h : ∀ key,¬m.Has key docId) :
    (m.insertKeys put docId).removeKeys gone docId = m ↔
      (∀ key ∈ put,key ∈ gone) ∧ ∀ key ∈ gone,m.get key ≠ some .empty := by
  have hget : ∀ key,((m.insertKeys put docId).removeKeys gone docId).get key =
      if key ∈ gone then trimmed docId (m.get key) else if key ∈ put then
        some (((m.get key).getD .empty).insert docId ()) else m.get key := by
    intro key
    rw [get_removeKeys,get_insertKeys]
    by_cases hput : key ∈ put
    · rw [if_pos hput,trimmed_insert (h key)]
    · rw [if_neg hput]
  constructor
  · intro he
    refine ⟨fun key hput => ?_,fun key hgone => ?_⟩
    · by_contra hgone
      have hkey := hget key
      rw [he,if_neg hgone,if_pos hput] at hkey
      refine h key ⟨_,hkey,?_⟩
      rw [OrderedMap.mem_insert]
      exact .inl rfl
    · have hkey := hget key
      rw [he,if_pos hgone] at hkey
      exact (trimmed_eq_iff (h key)).1 hkey.symm
  · rintro ⟨hsub,hempty⟩
    refine OrderedMap.ext_get fun key => ?_
    rw [hget]
    split_ifs with hgone hput
    · exact (trimmed_eq_iff (h key)).2 (hempty key hgone)
    · exact absurd (hsub key hput) hgone
    · rfl

end Postings

section keys
variable {docId : String} {doc : HakoDoc} {v : Value}

theorem encodeScalar_string {s : String} : encodeScalar v = encodeScalar (.string s) ↔ v = .string s := by
  refine ⟨fun h => ?_,fun h => by rw [h]⟩
  cases v with
  | string w =>
    have hbytes : beBytes 4 (asBytes w).length++asBytes w = beBytes 4 (asBytes s).length++asBytes s :=
      (List.cons.inj (congrArg IndexKey.bytes h)).2
    rw [asBytes_injective (List.append_inj hbytes (by simp)).2]
  | _ => exact absurd (List.cons.inj (congrArg IndexKey.bytes h)).1 (by decide)

theorem encodeScalar_int {n : Int64} : encodeScalar v = encodeScalar (.int n) ↔ v = .int n := by
  refine ⟨fun h => ?_,fun h => by rw [h]⟩
  cases v with
  | int k =>
    have hbytes := (List.cons.inj (congrArg IndexKey.bytes h)).2
    have hk := k.toUInt64.toNat_lt
    have hn := n.toUInt64.toNat_lt
    have hword := UInt64.toNat_inj.1 (beBytes_injective (by omega) (by omega) hbytes)
    exact congrArg Value.int (congrArg Int64.ofUInt64 hword)
  | _ => exact absurd (List.cons.inj (congrArg IndexKey.bytes h)).1 (by decide)

end keys

namespace IndexManager
variable {text : QueryText} {im : IndexManager} {collection docId field : String} {doc : HakoDoc}

def filedKeys (docId : String) (doc : HakoDoc) (field : String) : List IndexKey :=
  ((indexedValue docId doc field).map encodeScalar).toList

def bodyKeys (doc : HakoDoc) (field : String) : List IndexKey := ((doc.get field).map encodeScalar).toList

def words (text : QueryText) (doc : HakoDoc) (field : String) : List String :=
  match doc.get field with
  | some (.string body) => text.tokenize body
  | _ => []

/-- The keys of the body hold those under which the document is filed, except where the id or the time is indexed and
the body says otherwise. -/
theorem filedKeys_subset_iff : (∀ key ∈ filedKeys docId doc field,key ∈ bodyKeys doc field) ↔
    (field = "id" → doc.get "id" = some (.string docId)) ∧ (field = "_time" → doc.get "_time" = some (.int doc.time)) := by
  by_cases hid : field = "id"
  · subst hid
    simp [filedKeys,bodyKeys,indexedValue,encodeScalar_string]
  · by_cases htime : field = "_time"
    · subst htime
      simp [filedKeys,bodyKeys,indexedValue,encodeScalar_int]
    · simp [filedKeys,bodyKeys,indexedValue,hid,htime]

theorem updateAll_updateAll {α : Type} (table : String → Option (String → Option α)) (f g : String → α → α) :
    updateAll (updateAll table collection f) collection g = updateAll table collection fun field m => g field (f field m) := by
  funext col
  by_cases hcol : col = collection
  · simp [updateAll,hcol,Function.comp_def]
  · simp [updateAll,hcol]

theorem updateAll_eq_self_iff {α : Type} {table : String → Option (String → Option α)} {f : String → α → α} :
    updateAll table collection f = table ↔ ∀ field m,((table collection).bind fun fields => fields field) = some m →
      f field m = m := by
  constructor
  · intro h field m hm
    obtain ⟨fields,hfields,hfield⟩ := Option.bind_eq_some_iff.1 hm
    have hcol := congrFun h collection
    rw [updateAll,if_pos rfl,hfields,Option.map_some,Option.some.injEq] at hcol
    have hat := congrFun hcol field
    rwa [hfield,Option.map_some,Option.some.injEq] at hat
  · intro h
    funext col
    rw [updateAll]
    split_ifs with hcol
    · subst hcol
      cases hfields : table col with
      | none => rfl
      | some fields =>
        refine congrArg some (funext fun field => ?_)
        dsimp only
        cases hm : fields field with
        | none => rfl
        | some m => exact congrArg some (h field m (by rw [hfields]; exact hm))
    · rfl

end IndexManager

namespace CompositeIndexManager
variable {m : CompositeIndexManager} {collection : String} {f g : CompositeIndex → CompositeIndex}

theorem byId_foldl_modify (hf : ∀ idx,f (f idx) = f idx) (m : CompositeIndexManager) (ids : List UInt32) (i : UInt32) :
    (ids.foldl (modify · f) m).byId i = if i ∈ ids then (m.byId i).map f else m.byId i := by
  induction ids generalizing m with
  | nil => rfl
  | cons id ids ih =>
    rw [List.foldl_cons,ih,modify]
    dsimp only
    by_cases hi : i = id
    · simp [hi,Function.comp_def,hf]
    · simp [hi]

theorem foldl_modify_eq (m : CompositeIndexManager) (ids : List UInt32) :
    (ids.foldl (modify · f) m).nextId = m.nextId ∧ (ids.foldl (modify · f) m).byCollection = m.byCollection := by
  induction ids generalizing m with
  | nil => exact ⟨rfl,rfl⟩
  | cons id ids ih => exact ih _

/-- Changing the indexes of a collection and changing them back. -/
theorem modifyAll_modifyAll_eq_iff (hf : ∀ idx,f (f idx) = f idx) (hg : ∀ idx,g (g idx) = g idx) :
    (m.modifyAll f collection).modifyAll g collection = m ↔
      ∀ idx ∈ m.indexesForCollection collection,g (f idx) = idx := by
  have hcol : (m.modifyAll f collection).byCollection = m.byCollection := (foldl_modify_eq m _).2
  have hbyId : ∀ i,((m.modifyAll f collection).modifyAll g collection).byId i =
      if i ∈ (m.byCollection collection).getD [] then (m.byId i).map fun idx => g (f idx) else m.byId i := by
    intro i
    rw [modifyAll,byId_foldl_modify hg,hcol,modifyAll,byId_foldl_modify hf]
    split_ifs with hi
    · rw [Option.map_map]
      rfl
    · rfl
  constructor
  · intro h idx hidx
    obtain ⟨i,hi,hat⟩ := List.mem_filterMap.1 hidx
    have hsame := hbyId i
    rw [h,if_pos hi,hat,Option.map_some,Option.some.injEq] at hsame
    exact hsame.symm
  · intro h
    have hids : ((m.modifyAll f collection).modifyAll g collection).byId = m.byId := by
      funext i
      rw [hbyId]
      split_ifs with hi
      · cases hat : m.byId i with
        | none => rfl
        | some idx => exact congrArg some (h idx (List.mem_filterMap.2 ⟨i,hi,hat⟩))
      · rfl
    have hnext : ((m.modifyAll f collection).modifyAll g collection).nextId = m.nextId :=
      (foldl_modify_eq _ _).1.trans (foldl_modify_eq m _).1
    have hboth : ((m.modifyAll f collection).modifyAll g collection).byCollection = m.byCollection :=
      (foldl_modify_eq _ _).2.trans hcol
    cases hm : (m.modifyAll f collection).modifyAll g collection
    rw [hm] at hids hnext hboth
    subst hids hnext hboth
    rfl

end CompositeIndexManager

namespace CompositeIndex
variable {text : QueryText} {idx : CompositeIndex} {docId : String} {doc : HakoDoc} {key : IndexKey}

theorem keyOf_tree (idx : CompositeIndex) (tree : OrderedMap IndexKey String) :
    ({idx with tree := tree} : CompositeIndex).keyOf text docId doc = idx.keyOf text docId doc := rfl

theorem indexDocument_twice (idx : CompositeIndex) :
    (idx.indexDocument text docId doc).indexDocument text docId doc = idx.indexDocument text docId doc := by
  rw [indexDocument,indexDocument]
  cases hkey : idx.keyOf text docId doc with
  | none => rw [hkey]
  | some key =>
    rw [keyOf_tree,hkey]
    refine congrArg (CompositeIndex.mk idx.definition) (OrderedMap.ext_get fun k => ?_)
    rw [OrderedMap.get_insert,OrderedMap.get_insert]
    split_ifs <;> rfl

theorem removeDocument_twice (idx : CompositeIndex) :
    (idx.removeDocument text docId doc).removeDocument text docId doc = idx.removeDocument text docId doc := by
  rw [removeDocument,removeDocument]
  cases hkey : idx.keyOf text docId doc with
  | none => rw [hkey]
  | some key =>
    rw [keyOf_tree,hkey]
    refine congrArg (CompositeIndex.mk idx.definition) (OrderedMap.ext_get fun k => ?_)
    rw [OrderedMap.get_erase,OrderedMap.get_erase]
    split_ifs <;> rfl

theorem removeDocument_indexDocument_eq_iff : (idx.indexDocument text docId doc).removeDocument text docId doc = idx ↔
    ∀ key,idx.keyOf text docId doc = some key → idx.tree.get key = none := by
  rw [removeDocument,indexDocument]
  cases hkey : idx.keyOf text docId doc with
  | none => simp [hkey]
  | some key =>
    rw [keyOf_tree,hkey]
    dsimp only
    simp only [Option.some.injEq,forall_eq']
    constructor
    · intro h
      rw [← h,OrderedMap.get_erase,if_pos rfl]
    · intro h
      refine congrArg (CompositeIndex.mk idx.definition) (OrderedMap.ext_get fun k => ?_)
      rw [OrderedMap.get_erase,OrderedMap.get_insert]
      split_ifs with hk
      · rw [hk,h]
      · rfl

end CompositeIndex

namespace IndexManager
variable {text : QueryText} {im : IndexManager} {collection docId : String} {doc : HakoDoc}

/-- No index of the collection holds the id. -/
structure Lacks (im : IndexManager) (collection docId : String) : Prop where
  secondary : ∀ field m,im.secondaryOf collection field = some m → ∀ key,¬m.Has key docId
  fts : ∀ field m,im.ftsOf collection field = some m → ∀ word,¬m.Has word docId
  composite : ∀ idx ∈ im.indexesForCollection collection,∀ key,idx.tree.get key ≠ some docId

/-- No key that the document meets stands without ids, and none of its tuples belongs to another document. -/
structure Tidy (text : QueryText) (im : IndexManager) (collection docId : String) (doc : HakoDoc) : Prop where
  secondary : ∀ field m,im.secondaryOf collection field = some m → ∀ key ∈ bodyKeys doc field,m.get key ≠ some .empty
  fts : ∀ field m,im.ftsOf collection field = some m → ∀ word ∈ words text doc field,m.get word ≠ some .empty
  composite : ∀ idx ∈ im.indexesForCollection collection,∀ key,idx.keyOf text docId doc = some key → idx.tree.get key = none

theorem secondary_restored_iff (h : im.Lacks collection docId) :
    ((im.indexDocument text collection docId doc).removeDocument text collection docId doc).secondary = im.secondary ↔
      ∀ field m,im.secondaryOf collection field = some m →
        ((field = "id" → doc.get "id" = some (.string docId)) ∧ (field = "_time" → doc.get "_time" = some (.int doc.time))) ∧
        ∀ key ∈ bodyKeys doc field,m.get key ≠ some .empty := by
  rw [removeDocument,indexDocument]
  dsimp only
  rw [updateAll_updateAll,updateAll_eq_self_iff]
  refine forall_congr' fun field => forall_congr' fun m => imp_congr_right fun hm => ?_
  rw [← filedKeys_subset_iff,← Postings.removeKeys_insertKeys_eq_iff (h.secondary field m hm),filedKeys,bodyKeys]
  cases doc.get field <;> cases indexedValue docId doc field <;> exact Iff.rfl

theorem fts_restored_iff (h : im.Lacks collection docId) :
    ((im.indexDocument text collection docId doc).removeDocument text collection docId doc).fts = im.fts ↔
      ∀ field m,im.ftsOf collection field = some m → ∀ word ∈ words text doc field,m.get word ≠ some .empty := by
  have hfield : ∀ (field : String) (m : InvertedIndex),
      indexText doc (fun m body => m.removeText text body docId) field
        (indexText doc (fun m body => m.insertText text body docId) field m) =
      (m.insertKeys (words text doc field) docId).removeKeys (words text doc field) docId := by
    intro field m
    rw [indexText,indexText,words]
    cases doc.get field with
    | none => rfl
    | some v => cases v <;> rfl
  rw [removeDocument,indexDocument]
  dsimp only
  rw [updateAll_updateAll,updateAll_eq_self_iff]
  refine forall_congr' fun field => forall_congr' fun m => imp_congr_right fun hm => ?_
  rw [hfield,Postings.removeKeys_insertKeys_eq_iff (h.fts field m hm)]
  exact and_iff_right fun _ hw => hw

/-- Entering and leaving restores the indexes of a tidy manager exactly if the id and the time, where they are indexed,
stand in the body too. -/
theorem removeDocument_indexDocument_iff (text : QueryText) (im : IndexManager) (collection docId : String) (doc : HakoDoc)
    (h : im.Lacks collection docId) :
    (((im.indexDocument text collection docId doc).removeDocument text collection docId doc).secondary = im.secondary ∧
      ((im.indexDocument text collection docId doc).removeDocument text collection docId doc).fts = im.fts ∧
      ((im.indexDocument text collection docId doc).removeDocument text collection docId doc).composite = im.composite) ↔
    (im.hasSecondary collection "id" → doc.get "id" = some (.string docId)) ∧
      (im.hasSecondary collection "_time" → doc.get "_time" = some (.int doc.time)) ∧
      im.Tidy text collection docId doc := by
  have hcomposite : ((im.indexDocument text collection docId doc).removeDocument text collection docId doc).composite =
      im.composite ↔ ∀ idx ∈ im.indexesForCollection collection,
        ∀ key,idx.keyOf text docId doc = some key → idx.tree.get key = none := by
    rw [removeDocument,indexDocument]
    dsimp only
    rw [CompositeIndexManager.modifyAll_modifyAll_eq_iff CompositeIndex.indexDocument_twice CompositeIndex.removeDocument_twice]
    refine forall_congr' fun idx => imp_congr_right fun _ => ?_
    exact CompositeIndex.removeDocument_indexDocument_eq_iff
  have hhas : ∀ field,im.hasSecondary collection field = true ↔ ∃ m,im.secondaryOf collection field = some m := by
    intro field
    rw [hasSecondary,secondaryOf]
    cases im.secondary collection with
    | none => simp
    | some fields => simp [Option.isSome_iff_exists]
  rw [secondary_restored_iff h,fts_restored_iff h,hcomposite]
  constructor
  · rintro ⟨hsec,hfts,hcomp⟩
    refine ⟨fun hid => ?_,fun htime => ?_,fun field m hm => (hsec field m hm).2,hfts,hcomp⟩
    · obtain ⟨m,hm⟩ := (hhas _).1 hid
      exact (hsec _ m hm).1.1 rfl
    · obtain ⟨m,hm⟩ := (hhas _).1 htime
      exact (hsec _ m hm).1.2 rfl
  · rintro ⟨hid,htime,htidy⟩
    refine ⟨fun field m hm => ⟨⟨?_,?_⟩,htidy.secondary field m hm⟩,htidy.fts,htidy.composite⟩
    · rintro rfl
      exact hid ((hhas _).2 ⟨m,hm⟩)
    · rintro rfl
      exact htime ((hhas _).2 ⟨m,hm⟩)

/-- A collection with one index over a field. -/
def indexOver (field : String) : IndexManager :=
  {oneIndex with secondary := fun col => if col = "c" then some fun f => if f = field then some .empty else none else none}

theorem lacks_indexOver (field docId : String) : (indexOver field).Lacks "c" docId where
  secondary := by
    rintro f m hm key ⟨ids,hids,-⟩
    by_cases hf : f = field
    · have he : some .empty = some m := by simpa [indexOver,secondaryOf,hf] using hm
      rw [← Option.some.inj he] at hids
      cases hids
    · simp [indexOver,secondaryOf,hf] at hm
  fts := fun _ _ hm => nomatch hm
  composite := fun _ hidx => nomatch hidx

/-- The id stays in an index over ids when its document has left. -/
theorem removeDocument_indexDocument_byId :
    ((indexOver "id").secondaryOf "c" "id").map (fun m => m.idsAt (encodeScalar (.string "d"))) = some [] ∧
    ((((indexOver "id").indexDocument asciiWords "c" "d" ⟨[],7⟩).removeDocument asciiWords "c" "d" ⟨[],7⟩).secondaryOf "c" "id").map
      (fun m => m.idsAt (encodeScalar (.string "d"))) = some ["d"] := by
  decide +kernel

theorem removeDocument_indexDocument_byField : (indexOver "a").Lacks "c" "d" ∧
    (((indexOver "a").indexDocument asciiWords "c" "d" ⟨[("a",.int 5)],7⟩).removeDocument asciiWords "c" "d"
      ⟨[("a",.int 5)],7⟩).secondary = (indexOver "a").secondary := by
  have htidy : (indexOver "a").Tidy asciiWords "c" "d" ⟨[("a",.int 5)],7⟩ := {
    secondary := by
      intro f m hm key _
      by_cases hf : f = "a"
      · have he : some .empty = some m := by simpa [indexOver,secondaryOf,hf] using hm
        rw [← Option.some.inj he]
        intro h
        cases h
      · simp [indexOver,secondaryOf,hf] at hm
    fts := by
      intro _ _ hm
      cases hm
    composite := by
      intro _ hidx
      cases hidx }
  exact ⟨lacks_indexOver _ _,((removeDocument_indexDocument_iff _ _ _ _ _ (lacks_indexOver _ _)).2
    ⟨fun h => absurd h (by decide +kernel),fun h => absurd h (by decide +kernel),htidy⟩).1⟩

end IndexManager

end HakoDB

import HakoDB.Index.RawScalar

/-! Filling the single-value indexes from stored documents: one loop decodes every document, another takes the keys
from the bytes. The second files what the first files, and more where it looks at less of a document. -/
namespace HakoDB
open ByteCodec ReadAll

namespace Postings
variable {α : Type} [LinearOrder α]

def Has (m : Postings α) (key : α) (docId : String) : Prop := ∃ ids,m.get key = some ids ∧ (docId,()) ∈ ids.entries

def addAll (m : Postings α) (pairs : List (α × String)) : Postings α := pairs.foldl (fun m p => m.add p.1 p.2) m

theorem has_add (m : Postings α) (a key : α) (id docId : String) :
    (m.add a id).Has key docId ↔ (key,docId) = (a,id) ∨ m.Has key docId := by
  rw [Has,add,OrderedMap.get_insert,Has,Prod.mk.injEq]
  by_cases hkey : key = a
  · subst hkey
    cases hget : m.get key with
    | none => simp [OrderedMap.mem_insert]
    | some ids =>
      by_cases hid : docId = id
      · simp [OrderedMap.mem_insert,hid]
      · simp [OrderedMap.mem_insert,hid]
  · simp [hkey]

theorem get_add_eq_none (m : Postings α) (a key : α) (id : String) :
    (m.add a id).get key = none ↔ key ≠ a ∧ m.get key = none := by
  rw [add,OrderedMap.get_insert]
  by_cases hkey : key = a <;> simp [hkey]

theorem has_addAll (m : Postings α) (pairs : List (α × String)) (key : α) (docId : String) :
    (m.addAll pairs).Has key docId ↔ (key,docId) ∈ pairs ∨ m.Has key docId := by
  induction pairs generalizing m with
  | nil => simp [addAll]
  | cons p pairs ih =>
    have hstep : m.addAll (p::pairs) = (m.add p.1 p.2).addAll pairs := rfl
    rw [hstep,ih,has_add,List.mem_cons,← or_assoc,or_comm (a := (key,docId) ∈ pairs)]

theorem get_addAll_eq_none (m : Postings α) (pairs : List (α × String)) (key : α) :
    (m.addAll pairs).get key = none ↔ (∀ p ∈ pairs,p.1 ≠ key) ∧ m.get key = none := by
  induction pairs generalizing m with
  | nil => simp [addAll]
  | cons p pairs ih =>
    have hstep : m.addAll (p::pairs) = (m.add p.1 p.2).addAll pairs := rfl
    rw [hstep,ih,get_add_eq_none,List.forall_mem_cons]
    tauto

theorem get_addAll_isNone_of_has {m : Postings α} {ps qs : List (α × String)}
    (h : ∀ key docId,(m.addAll qs).Has key docId → (m.addAll ps).Has key docId) {key : α}
    (hnone : (m.addAll ps).get key = none) : (m.addAll qs).get key = none := by
  obtain ⟨hps,hm⟩ := (get_addAll_eq_none m ps key).1 hnone
  refine (get_addAll_eq_none m qs key).2 ⟨fun q hq he => ?_,hm⟩
  obtain ⟨ids,hids,-⟩ := h key q.2 ((has_addAll m qs key q.2).2 (.inl (he ▸ hq)))
  rw [hnone] at hids
  cases hids

/-- Two lists of entries leave the same index if every entry of one is made by the other or was there. -/
theorem addAll_eq_iff (m : Postings α) (ps qs : List (α × String)) :
    m.addAll ps = m.addAll qs ↔ ∀ key docId,(m.addAll ps).Has key docId ↔ (m.addAll qs).Has key docId := by
  refine ⟨fun h key docId => by rw [h],fun h => OrderedMap.ext_get fun key => ?_⟩
  cases hps : (m.addAll ps).get key with
  | none => exact (get_addAll_isNone_of_has (fun k d => (h k d).2) hps).symm
  | some ids =>
    cases hqs : (m.addAll qs).get key with
    | none =>
      rw [get_addAll_isNone_of_has (fun k d => (h k d).1) hqs] at hps
      cases hps
    | some ids' =>
      refine congrArg some (OrderedMap.ext_get fun docId => Option.ext fun _ => ?_)
      have hiff := h key docId
      simp only [Has,hps,hqs,Option.some.injEq,exists_eq_left'] at hiff
      rw [OrderedMap.get_eq_some,OrderedMap.get_eq_some]
      exact hiff

end Postings

/-- A key from the bytes, or where that is refused from the decoded value. -/
def borrowedKey (tag : UInt8) (data : Bytes) : Option IndexKey :=
  match encodeRawScalar tag data [] with
  | (true,enc) => some ⟨enc⟩
  | (false,_) => (decodeValue tag data).map encodeScalar

theorem borrowedKey_eq (tag : UInt8) (data : Bytes) : borrowedKey tag data = (decodeValue tag data).map encodeScalar := by
  unfold borrowedKey encodeRawScalar
  by_cases h : tag = 8 ∨ tag = 9
  · rcases h with rfl | rfl <;> rfl
  · obtain ⟨h8,h9⟩ := not_or.1 h
    rw [rawScalar_eq h8 h9]
    cases decodeValue tag data <;> rfl

def isVirtual (field : String) : Bool := field = "id" || field = "_time"

/-- Only fields with an index are looked at; a field of the name of the id or of the time never is. -/
def matchedEntries (indexed : String → Bool) (entries : List (String × UInt8 × Bytes)) : List (String × UInt8 × Bytes) :=
  entries.filter fun e => !isVirtual e.1 && indexed e.1

/-- The keys of one document by field: all of them, or none where one is refused. -/
def stageKeys (indexed : String → Bool) (docId : String) (bs : Bytes) : Option (List (String × IndexKey)) := do
  let view ← HakoDocView.new bs
  let entries ← walkEntries view.fieldsCount view.body
  let staged ← (matchedEntries indexed entries).mapM fun e => (borrowedKey e.2.1 e.2.2).map fun key => (e.1,key)
  return staged++(if indexed "id" then [("id",⟨4::beBytes 4 (asBytes docId).length++asBytes docId⟩)] else [])++
    if indexed "_time" then [("_time",encodeScalar (.int view.time))] else []

def insertStaged (docId : String) (sec : String → Option SecondaryIndex) (staged : String × IndexKey) :
    String → Option SecondaryIndex := fun field =>
  if field = staged.1 then (sec field).map fun m => m.add staged.2 docId else sec field

def borrowDocument (indexed : String → Bool) (sec : String → Option SecondaryIndex) (d : String × Bytes) :
    String → Option SecondaryIndex :=
  ((stageKeys indexed d.1 d.2).getD []).foldl (insertStaged d.1) sec

namespace IndexManager

/-- The entry of one document in the index of one field. -/
def fileDocument (docId : String) (doc : HakoDoc) (field : String) (m : SecondaryIndex) : SecondaryIndex :=
  match indexedValue docId doc field with
  | some v => m.add (encodeScalar v) docId
  | none => m

def backfillSecondary (im : IndexManager) (collection : String) (docs : List (String × HakoDoc)) : IndexManager :=
  docs.foldl (fun im d => {im with secondary := updateAll im.secondary collection (fileDocument d.1 d.2)}) im

/-- The collection has no indexes of other kinds, and references into no collection are tracked. -/
def OnlySecondary (im : IndexManager) (collection : String) : Prop :=
  im.fts collection = none ∧ (∀ field,im.vector collection field = none) ∧ (∀ target,im.tracked target = false) ∧
    ∀ id idx,im.composite.byId id = some idx → idx.definition.collection ≠ collection

def backfillSecondaryBorrowed (im : IndexManager) (collection : String) [Decidable (im.OnlySecondary collection)]
    (docs : List (String × Bytes)) : Bool × IndexManager :=
  if im.OnlySecondary collection then
    match im.secondary collection with
    | none => (true,im)
    | some sec =>
      (true,{im with secondary := fun col =>
        if col = collection then some (docs.foldl (borrowDocument fun field => (sec field).isSome) sec)
        else im.secondary col})
  else (false,im)

end IndexManager

/-- Decode each; those that fail are left out. -/
def decodeListed (docs : List (String × Bytes)) : List (String × HakoDoc) :=
  docs.filterMap fun d => (HakoDoc.decode d.2).map fun doc => (d.1,doc)

/-- The values of a document that have an index, when its walk ends well and each field with an index decodes: every
occurrence of a key, the id and the time. -/
def fileable (indexed : String → Bool) (docId : String) (bs : Bytes) : List (String × Value) :=
  ((HakoDocView.new bs).bind fun view => (walkEntries view.fieldsCount view.body).bind fun entries =>
    ((matchedEntries indexed entries).mapM decodeEntry).map fun fields =>
      fields++(if indexed "id" then [("id",.string docId)] else [])++
        if indexed "_time" then [("_time",.int view.time)] else []).getD []

section staged
variable (indexed : String → Bool) (docId : String)

theorem mapM_borrowedKey (entries : List (String × UInt8 × Bytes)) :
    (entries.mapM fun e => (borrowedKey e.2.1 e.2.2).map fun key => (e.1,key)) =
      (entries.mapM decodeEntry).map fun fields => fields.map fun f => (f.1,encodeScalar f.2) := by
  induction entries with
  | nil => rfl
  | cons e entries ih =>
    rw [mapM_cons_option,mapM_cons_option,ih,borrowedKey_eq,decodeEntry]
    cases decodeValue e.2.1 e.2.2 with
    | none => rfl
    | some v => cases entries.mapM decodeEntry <;> rfl

theorem stageKeys_getD (bs : Bytes) :
    (stageKeys indexed docId bs).getD [] = (fileable indexed docId bs).map fun f => (f.1,encodeScalar f.2) := by
  unfold stageKeys fileable
  cases HakoDocView.new bs with
  | none => rfl
  | some view =>
    simp only [Option.bind_eq_bind,Option.bind_some]
    cases walkEntries view.fieldsCount view.body with
    | none => rfl
    | some entries =>
      simp only [Option.bind_some,mapM_borrowedKey]
      cases (matchedEntries indexed entries).mapM decodeEntry with
      | none => rfl
      | some fields =>
        simp only [Option.map_some,Option.bind_some,Option.pure_def,Option.getD_some,List.map_append]
        congr 1
        · congr 1
          split_ifs <;> rfl
        · split_ifs <;> rfl

end staged

theorem Postings.addAll_append {α : Type} [LinearOrder α] (m : Postings α) (ps qs : List (α × String)) :
    m.addAll (ps++qs) = (m.addAll ps).addAll qs := List.foldl_append

theorem foldl_insertStaged (docId : String) (sec : String → Option SecondaryIndex) (staged : List (String × IndexKey)) (field : String) :
    staged.foldl (insertStaged docId) sec field =
      (sec field).map fun m => m.addAll ((staged.filter fun s => s.1 = field).map fun s => (s.2,docId)) := by
  induction staged generalizing sec with
  | nil => simp [Postings.addAll]
  | cons x staged ih =>
    rw [List.foldl_cons,ih,insertStaged]
    by_cases h : field = x.1
    · simp [h,Postings.addAll,Function.comp_def]
    · simp [h,Ne.symm h]

/-- The entries one document makes in the index of a field, from its bytes. -/
def borrowedPairs (indexed : String → Bool) (field : String) (d : String × Bytes) : List (IndexKey × String) :=
  ((fileable indexed d.1 d.2).filter fun f => f.1 = field).map fun f => (encodeScalar f.2,d.1)

/-- The entry a decoded document makes. -/
def ownedPairs (field : String) (d : String × HakoDoc) : List (IndexKey × String) :=
  ((IndexManager.indexedValue d.1 d.2 field).map fun v => (encodeScalar v,d.1)).toList

theorem borrowDocument_eq (indexed : String → Bool) (sec : String → Option SecondaryIndex) (d : String × Bytes) (field : String) :
    borrowDocument indexed sec d field = (sec field).map fun m => m.addAll (borrowedPairs indexed field d) := by
  rw [borrowDocument,foldl_insertStaged,stageKeys_getD,List.filter_map,List.map_map]
  rfl

theorem foldl_borrowDocument (indexed : String → Bool) (sec : String → Option SecondaryIndex) (docs : List (String × Bytes))
    (field : String) : docs.foldl (borrowDocument indexed) sec field =
      (sec field).map fun m => m.addAll (docs.flatMap (borrowedPairs indexed field)) := by
  induction docs generalizing sec with
  | nil => simp [Postings.addAll]
  | cons d docs ih =>
    rw [List.foldl_cons,ih,borrowDocument_eq,Option.map_map,List.flatMap_cons]
    simp only [Function.comp_def,Postings.addAll_append]

namespace IndexManager

theorem fileDocument_eq (docId : String) (doc : HakoDoc) (field : String) (m : SecondaryIndex) :
    fileDocument docId doc field m = m.addAll (ownedPairs field (docId,doc)) := by
  unfold fileDocument ownedPairs
  cases indexedValue docId doc field <;> rfl

theorem backfillSecondary_secondary (im : IndexManager) (collection : String) (docs : List (String × HakoDoc)) :
    (im.backfillSecondary collection docs).secondary =
      updateAll im.secondary collection fun field m => m.addAll (docs.flatMap (ownedPairs field)) := by
  induction docs generalizing im with
  | nil =>
    funext col
    simp only [backfillSecondary,List.foldl_nil,updateAll,List.flatMap_nil]
    split_ifs
    · cases im.secondary col with
      | none => rfl
      | some sec => simp [Postings.addAll]
    · rfl
  | cons d docs ih =>
    have hstep : im.backfillSecondary collection (d::docs) =
      backfillSecondary {im with secondary := updateAll im.secondary collection (fileDocument d.1 d.2)} collection docs := rfl
    rw [hstep,ih]
    funext col
    simp only [updateAll]
    split_ifs
    · cases im.secondary col with
      | none => rfl
      | some sec =>
        simp only [Option.map_some,Option.map_map,Function.comp_def,fileDocument_eq,List.flatMap_cons,Postings.addAll_append]
    · rfl

end IndexManager

variable {doc : HakoDoc} {field : String} {v : Value} {indexed : String → Bool} {docId : String} {bs : Bytes}
    {key : IndexKey} {docs : List (String × Bytes)}

theorem HakoDoc.mem_of_get (h : doc.get field = some v) :
    (field,v) ∈ doc.fields := by
  unfold HakoDoc.get at h
  cases hsearch : HakoDoc.search doc.fields field with
  | error i => simp [hsearch] at h
  | ok i =>
    obtain ⟨f,hf,hcmp⟩ := BinarySearch.search_ok hsearch
    simp only [hsearch,hf,Option.map_some,Option.some.injEq] at h
    obtain ⟨key,w⟩ := f
    cases compare_eq_iff_eq.1 hcmp
    cases h
    exact List.mem_of_getElem? hf

/-- What a decoded document files is among what its bytes give. -/
theorem mem_fileable_of_decode (h : HakoDoc.decode bs = some doc) (hindexed : indexed field)
    (hv : IndexManager.indexedValue docId doc field = some v) :
    (field,v) ∈ fileable indexed docId bs := by
  rw [HakoDoc.decode_eq_walk] at h
  obtain ⟨view,hview,h⟩ := Option.bind_eq_some_iff.1 h
  obtain ⟨entries,hentries,h⟩ := Option.bind_eq_some_iff.1 h
  obtain ⟨fields,hfields,rfl⟩ := Option.map_eq_some_iff.1 h
  have hall : ∀ e ∈ entries,(decodeEntry e).isSome := isSome_mapM.1 (by rw [hfields]; rfl)
  obtain ⟨matched,hmatched⟩ := Option.isSome_iff_exists.1 (isSome_mapM.2 fun e (he : e ∈ matchedEntries indexed entries) =>
    hall e (List.mem_filter.1 he).1)
  simp only [fileable,hview,Option.bind_some,hentries,hmatched,Option.map_some,Option.getD_some]
  unfold IndexManager.indexedValue at hv
  split_ifs at hv with hid htime
  · cases hv
    subst hid
    simp [hindexed]
  · cases hv
    subst htime
    simp [hindexed]
  · obtain ⟨e,he,hdecode⟩ := of_mem_mapM hfields _ (HakoDoc.mem_of_get hv)
    have hkey : e.1 = field := by
      obtain ⟨w,-,hw⟩ := Option.map_eq_some_iff.1 hdecode
      exact congrArg Prod.fst hw
    have hmem : e ∈ matchedEntries indexed entries :=
      List.mem_filter.2 ⟨he,by simp [isVirtual,hkey,hid,htime,hindexed]⟩
    exact List.mem_append_left _ (List.mem_append_left _ (mem_mapM_of_mem hmatched hmem hdecode))

theorem indexed_of_mem_fileable {f : String × Value} (h : f ∈ fileable indexed docId bs) : indexed f.1 := by
  unfold fileable at h
  cases hview : HakoDocView.new bs with
  | none => simp [hview] at h
  | some view =>
    cases hwalk : walkEntries view.fieldsCount view.body with
    | none => simp [hview,hwalk] at h
    | some entries =>
      cases hfields : (matchedEntries indexed entries).mapM decodeEntry with
      | none => simp [hview,hwalk,hfields] at h
      | some fields =>
        simp only [hview,hwalk,hfields,Option.bind_some,Option.map_some,Option.getD_some,List.mem_append] at h
        rcases h with (hmem | hid) | htime
        · obtain ⟨e,he,hdecode⟩ := of_mem_mapM hfields f hmem
          obtain ⟨v,-,rfl⟩ := Option.map_eq_some_iff.1 hdecode
          have hkeep := (List.mem_filter.1 he).2
          exact (Bool.and_eq_true_iff.1 hkeep).2
        · split_ifs at hid with hindexed
          · rw [List.mem_singleton.1 hid]
            exact hindexed
          · cases hid
        · split_ifs at htime with hindexed
          · rw [List.mem_singleton.1 htime]
            exact hindexed
          · cases htime

/-- The value is filed for the id already, or a listed document of that id decodes and has a value of the same key
under the field. -/
def IndexManager.Filed (im : IndexManager) (collection : String) (docs : List (String × Bytes)) (docId : String)
    (f : String × Value) : Prop :=
  (∃ m,im.secondaryOf collection f.1 = some m ∧ m.Has (encodeScalar f.2) docId) ∨
  ∃ e ∈ docs,e.1 = docId ∧ ∃ doc v,HakoDoc.decode e.2 = some doc ∧ indexedValue docId doc f.1 = some v ∧
    encodeScalar v = encodeScalar f.2

theorem mem_borrowedPairs :
    (key,docId) ∈ docs.flatMap (borrowedPairs indexed field) ↔
      ∃ d ∈ docs,d.1 = docId ∧ ∃ v,(field,v) ∈ fileable indexed d.1 d.2 ∧ encodeScalar v = key := by
  simp only [List.mem_flatMap,borrowedPairs,List.mem_map,List.mem_filter,decide_eq_true_eq,Prod.mk.injEq,Prod.exists]
  constructor
  · rintro ⟨id,bs,hd,f,v,⟨hf,rfl⟩,hkey,hid⟩
    exact ⟨id,bs,hd,hid,v,hf,hkey⟩
  · rintro ⟨id,bs,hd,hid,v,hf,hkey⟩
    exact ⟨id,bs,hd,field,v,⟨hf,rfl⟩,hkey,hid⟩

theorem mem_ownedPairs :
    (key,docId) ∈ (decodeListed docs).flatMap (ownedPairs field) ↔
      ∃ d ∈ docs,d.1 = docId ∧ ∃ doc v,HakoDoc.decode d.2 = some doc ∧ IndexManager.indexedValue docId doc field = some v ∧
        encodeScalar v = key := by
  simp only [List.mem_flatMap,decodeListed,List.mem_filterMap,Option.map_eq_some_iff,ownedPairs,Option.mem_toList,
    Prod.mk.injEq]
  constructor
  · rintro ⟨x,⟨d,hd,doc,hdoc,rfl⟩,v,hv,hkey,rfl⟩
    exact ⟨d,hd,rfl,doc,v,hdoc,hv,hkey⟩
  · rintro ⟨d,hd,rfl,doc,v,hdoc,hv,hkey⟩
    exact ⟨(d.1,doc),⟨d,hd,doc,hdoc,rfl⟩,v,hv,hkey,rfl⟩

/-- The index of one field ends the same on both ways if the bytes give nothing that is not filed anyway. -/
theorem addAll_borrowed_eq_iff {im : IndexManager} {collection : String} {m : SecondaryIndex}
    (docs : List (String × Bytes)) (hm : im.secondaryOf collection field = some m)
    (hfield : im.hasSecondary collection field) :
    m.addAll (docs.flatMap (borrowedPairs (im.hasSecondary collection) field)) =
        m.addAll ((decodeListed docs).flatMap (ownedPairs field)) ↔
      ∀ d ∈ docs,∀ v,(field,v) ∈ fileable (im.hasSecondary collection) d.1 d.2 → im.Filed collection docs d.1 (field,v) := by
  rw [Postings.addAll_eq_iff]
  constructor
  · intro h d hd v hv
    have hhas := (h (encodeScalar v) d.1).1 ((Postings.has_addAll _ _ _ _).2
      (.inl (mem_borrowedPairs.2 ⟨d,hd,rfl,v,hv,rfl⟩)))
    rcases (Postings.has_addAll _ _ _ _).1 hhas with howned | hold
    · exact .inr (mem_ownedPairs.1 howned)
    · exact .inl ⟨m,hm,hold⟩
  · intro h key docId
    rw [Postings.has_addAll,Postings.has_addAll]
    constructor
    · rintro (hborrowed | hold)
      · obtain ⟨d,hd,rfl,v,hv,rfl⟩ := mem_borrowedPairs.1 hborrowed
        rcases h d hd v hv with ⟨m',hm',hhas⟩ | hother
        · rw [hm] at hm'
          exact .inr (Option.some.inj hm' ▸ hhas)
        · exact .inl (mem_ownedPairs.2 hother)
      · exact .inr hold
    · rintro (howned | hold)
      · obtain ⟨d,hd,rfl,doc,v,hdoc,hv,rfl⟩ := mem_ownedPairs.1 howned
        exact .inl (mem_borrowedPairs.2 ⟨d,hd,rfl,v,mem_fileable_of_decode hdoc hfield hv,rfl⟩)
      · exact .inr hold

namespace IndexManager

variable {im : IndexManager} {collection : String}

theorem backfillSecondaryBorrowed_secondary [Decidable (im.OnlySecondary collection)]
    (honly : im.OnlySecondary collection) (docs : List (String × Bytes)) :
    (im.backfillSecondaryBorrowed collection docs).1 = true ∧
    (im.backfillSecondaryBorrowed collection docs).2.secondary = updateAll im.secondary collection fun field m =>
      m.addAll (docs.flatMap (borrowedPairs (im.hasSecondary collection) field)) := by
  rw [backfillSecondaryBorrowed,if_pos honly]
  cases hsec : im.secondary collection with
  | none =>
    refine ⟨rfl,funext fun col => ?_⟩
    by_cases hcol : col = collection
    · simp [updateAll,hcol,hsec]
    · simp [updateAll,hcol]
  | some sec =>
    have hindexed : im.hasSecondary collection = fun field => (sec field).isSome := by
      funext field
      simp [hasSecondary,hsec]
    refine ⟨rfl,funext fun col => ?_⟩
    by_cases hcol : col = collection
    · simp only [updateAll,hcol,if_true,hsec,Option.map_some,Option.some.injEq,hindexed]
      exact funext fun field => foldl_borrowDocument _ sec docs field
    · simp [updateAll,hcol]

theorem updateAll_eq_iff {f g : String → SecondaryIndex → SecondaryIndex} :
    updateAll im.secondary collection f = updateAll im.secondary collection g ↔
      ∀ field m,im.secondaryOf collection field = some m → f field m = g field m := by
  constructor
  · intro h field m hm
    obtain ⟨sec,hsec,hfield⟩ := Option.bind_eq_some_iff.1 hm
    have hcol := congrFun h collection
    simp only [updateAll,if_true,hsec,Option.map_some,Option.some.injEq] at hcol
    simpa [hfield] using congrFun hcol field
  · intro h
    funext col
    by_cases hcol : col = collection
    · subst hcol
      simp only [updateAll,if_true]
      refine Option.map_congr fun sec hsec => funext fun field => Option.map_congr fun m hm => h field m ?_
      rw [secondaryOf,hsec]
      exact hm
    · simp [updateAll,hcol]

/-- The loop over the bytes leaves what the loop over the decoded documents leaves exactly if it files nothing that is
not filed anyway. -/
theorem backfillSecondaryBorrowed_eq_iff {im : IndexManager} {collection : String} [Decidable (im.OnlySecondary collection)]
    (honly : im.OnlySecondary collection) (docs : List (String × Bytes)) :
    ((im.backfillSecondaryBorrowed collection docs).1 = true ∧ (im.backfillSecondaryBorrowed collection docs).2.secondary =
        (im.backfillSecondary collection (decodeListed docs)).secondary) ↔
      ∀ d ∈ docs,∀ f ∈ fileable (im.hasSecondary collection) d.1 d.2,im.Filed collection docs d.1 f := by
  obtain ⟨htrue,hsec⟩ := backfillSecondaryBorrowed_secondary honly docs
  rw [htrue,hsec,backfillSecondary_secondary,updateAll_eq_iff]
  have hindexed : ∀ field,im.hasSecondary collection field ↔ ∃ m,im.secondaryOf collection field = some m := by
    intro field
    unfold hasSecondary secondaryOf
    cases im.secondary collection <;> simp [Option.isSome_iff_exists]
  constructor
  · rintro ⟨-,h⟩ d hd ⟨field,v⟩ hf
    have hfield := indexed_of_mem_fileable hf
    obtain ⟨m,hm⟩ := (hindexed field).1 hfield
    exact (addAll_borrowed_eq_iff docs hm hfield).1 (h field m hm) d hd v hf
  · exact fun h => ⟨rfl,fun field m hm => (addAll_borrowed_eq_iff docs hm ((hindexed field).2 ⟨m,hm⟩)).2
      fun d hd v hv => h d hd (field,v) hv⟩

/-- One collection with an index over the field `a`. -/
def oneIndex : IndexManager where
  composite := ⟨1,fun _ => none,fun _ => none⟩
  secondary := fun col => if col = "c" then some fun field => if field = "a" then some .empty else none else none
  fts := fun _ => none
  vector := fun _ _ => none
  tracked := fun _ => false

theorem onlySecondary_oneIndex : oneIndex.OnlySecondary "c" :=
  ⟨rfl,fun _ => rfl,fun _ => rfl,fun _ _ h => nomatch h⟩

instance : Decidable (oneIndex.OnlySecondary "c") := .isTrue onlySecondary_oneIndex

/-- The field `a` is the integer 5, the field `b` a text of one byte that is no UTF-8. -/
def brokenText : Bytes := [0xF1,5,0,0,0,0,0,0,0,0,2,0,1,0x61,0x15,1,0x62,0x41,0xFF]

/-- A document that does not decode is filed. -/
theorem backfillSecondaryBorrowed_brokenText : HakoDoc.decode brokenText = none ∧
    ((oneIndex.backfillSecondary "c" (decodeListed [("d",brokenText)])).secondaryOf "c" "a").map
      (fun m => m.idsAt (encodeScalar (.int 5))) = some [] ∧
    ((oneIndex.backfillSecondaryBorrowed "c" [("d",brokenText)]).2.secondaryOf "c" "a").map
      (fun m => m.idsAt (encodeScalar (.int 5))) = some ["d"] := by
  decide +kernel

/-- The same field in a document that decodes. -/
def soundText : Bytes := [0xF1,5,0,0,0,0,0,0,0,0,2,0,1,0x61,0x15,1,0x62,0x41,0x78]

theorem backfillSecondaryBorrowed_eq_soundText : oneIndex.OnlySecondary "c" ∧
    ((oneIndex.backfillSecondaryBorrowed "c" [("d",soundText)]).1 = true ∧
      (oneIndex.backfillSecondaryBorrowed "c" [("d",soundText)]).2.secondary =
        (oneIndex.backfillSecondary "c" (decodeListed [("d",soundText)])).secondary) := by
  refine ⟨onlySecondary_oneIndex,(backfillSecondaryBorrowed_eq_iff onlySecondary_oneIndex _).2 fun d hd f hf => .inr ?_⟩
  have hdecode : HakoDoc.decode soundText = some ⟨[("a",.int 5),("b",.string "x")],0⟩ := by decide +kernel
  have hfile : fileable (oneIndex.hasSecondary "c") "d" soundText = [("a",.int 5)] := by decide +kernel
  rw [List.mem_singleton.1 hd] at hf ⊢
  rw [hfile,List.mem_singleton] at hf
  exact ⟨_,List.mem_singleton_self _,rfl,_,.int 5,hdecode,by rw [hf]; decide,by rw [hf]⟩

end IndexManager

end HakoDB

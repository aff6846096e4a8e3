import HakoDB.Index.TupleKeys
import HakoDB.Query.RangeCalls

/-! Scans of a composite index by leading values. The keys between the bytes of the values and those bytes with
a last byte 255 are the keys that begin with the values. -/
namespace HakoDB
open ByteCodec

namespace IndexKey

/-- Between some bytes and their continuation by 255 lie continuations only. -/
theorem front_of_between {front key : Bytes} (hlow : (⟨front⟩ : IndexKey) ≤ ⟨key⟩)
    (hhigh : (⟨key⟩ : IndexKey) ≤ ⟨front++[0xFF]⟩) : ∃ rest,key = front++rest := by
  induction front generalizing key with
  | nil => exact ⟨key,rfl⟩
  | cons b front ih =>
    cases key with
    | nil => exact absurd (lt_append [] (List.cons_ne_nil b front)) (not_lt.mpr hlow)
    | cons c key =>
      rw [List.cons_append] at hhigh
      have hfirst := mt (cons_lt_cons_iff c b key front).mpr (not_lt.mpr hlow)
      have hlast := mt (cons_lt_cons_iff b c (front++[0xFF]) key).mpr (not_lt.mpr hhigh)
      obtain ⟨hcb,hlow'⟩ := not_or.mp hfirst
      obtain ⟨hbc,hhigh'⟩ := not_or.mp hlast
      obtain rfl : b = c := UInt8.le_antisymm (UInt8.not_lt.mp hcb) (UInt8.not_lt.mp hbc)
      obtain ⟨rest,rfl⟩ := ih (not_lt.mp fun h => hlow' ⟨rfl,h⟩) (not_lt.mp fun h => hhigh' ⟨rfl,h⟩)
      exact ⟨rest,rfl⟩

theorem append_between (front : Bytes) {b : UInt8} (rest : Bytes) (h : b < 0xFF) :
    (⟨front⟩ : IndexKey) ≤ ⟨front++b::rest⟩ ∧ (⟨front++b::rest⟩ : IndexKey) ≤ ⟨front++[0xFF]⟩ := by
  refine ⟨(lt_append front (List.cons_ne_nil b rest)).le,le_of_lt ?_⟩
  rw [append_lt_append_iff,cons_lt_cons_iff]
  exact .inl h

end IndexKey

/-- The values that a key keeps whole. -/
def KeyScalar : Value → Prop
  | .null | .bool _ | .int _ | .float _ | .timestamp _ => True
  | .string s => (asBytes s).length < 2^32
  | .binary bs => bs.length < 2^32
  | _ => False

theorem KeyScalar.keyLength {v : Value} (h : KeyScalar v) : KeyLength v := by
  cases v <;> first | exact h | trivial

theorem KeyScalar.keyed_eq {v : Value} (h : KeyScalar v) : keyed v = v := by
  cases v <;> first | rfl | exact absurd h id

namespace CompositeIndex
variable (text : QueryText)

def new (definition : CompositeIndexDefinition) : CompositeIndex := ⟨definition,.empty⟩

def rangeScan (idx : CompositeIndex) (start stop : IndexKey) : List String :=
  (idx.tree.range fun k => start ≤ k && k ≤ stop).map Prod.snd

/-- The first and the last key of the documents with the leading values. -/
def buildPrefixRange (d : CompositeIndexDefinition) (values : List Value) : IndexKey × IndexKey :=
  (QueryPlanner.buildPrefixKey d values,QueryPlanner.upperSentinel (QueryPlanner.buildPrefixKey d values))

/-- The tuple of a document that the index takes in. -/
def tupleOf (d : CompositeIndexDefinition) (docId : String) (doc : HakoDoc) : Option (List Value) :=
  if d.filterPasses text.toTextOps docId doc then d.documentValuesOf docId doc else none

/-- The index after the documents, one after the other. -/
def ofDocuments (d : CompositeIndexDefinition) (docs : List (String × HakoDoc)) : CompositeIndex :=
  docs.foldl (fun idx e => idx.indexDocument text e.1 e.2) (new d)

section scan
variable {text} {d : CompositeIndexDefinition}

theorem keyOf_eq (idx : CompositeIndex) (docId : String) (doc : HakoDoc) : idx.keyOf text docId doc =
    (tupleOf text idx.definition docId doc).map fun values => encodeCompositeKey idx.definition values docId := by
  unfold keyOf tupleOf
  split_ifs <;> rfl

variable {docId : String} {values vs : List Value}

theorem tupleOf_length {doc : HakoDoc} (h : tupleOf text d docId doc = some values) :
    values.length = d.fields.length := by
  unfold tupleOf at h
  split_ifs at h
  exact ReadAll.mapM_length h

theorem encodeKeyValue_tag (direction : SortDirection) (v : Value) :
    ∃ tag body,tag < 0xFF ∧ encodeKeyValue direction v = tag::body := by
  cases v <;> exact ⟨_,_,by decide,rfl⟩

/-- The bytes behind the leading values of a key begin with a tag or with the length of the id, below 255. -/
theorem exists_tail (values : List Value) (fields : List CompositeField) (hid : (asBytes docId).length < 65280) :
    ∃ b rest,b < 0xFF ∧
      tupleBytes values fields++(beBytes 2 (asBytes docId).length++asBytes docId) = b::rest := by
  have hlength : tupleBytes values fields = [] ∨ ∃ b rest,b < 0xFF ∧ tupleBytes values fields = b::rest := by
    cases values with
    | nil => exact .inl rfl
    | cons v values =>
      cases fields with
      | nil => exact .inl rfl
      | cons f fields =>
        obtain ⟨tag,body,htag,hbytes⟩ := encodeKeyValue_tag f.direction v
        exact .inr ⟨tag,_,htag,by rw [tupleBytes_cons,hbytes,List.cons_append]⟩
  rcases hlength with hnil | ⟨b,rest,hb,hcons⟩
  · refine ⟨UInt8.ofNat ((asBytes docId).length/256),_,?_,by rw [hnil]; rfl⟩
    rw [UInt8.lt_iff_toNat_lt,UInt8.toNat_ofNat']
    change _ < 255
    omega
  · exact ⟨b,_,hb,by rw [hcons,List.cons_append]⟩

theorem tupleBytes_append {gs : List Value} {fields : List CompositeField} (h : gs.length ≤ fields.length) :
    tupleBytes (gs++vs) fields = tupleBytes gs fields++tupleBytes vs (fields.drop gs.length) := by
  induction gs generalizing fields with
  | nil => rfl
  | cons g gs ih =>
    cases fields with
    | nil => cases h
    | cons f fields =>
      rw [List.cons_append,tupleBytes_cons,tupleBytes_cons,ih (Nat.le_of_succ_le_succ h),List.append_assoc]
      rfl

/-- A key lies in the range of leading values exactly if its tuple begins with them. -/
theorem between_iff (hlen : values.length ≤ d.fields.length) (hvs : vs.length = d.fields.length)
    (hvalues : ∀ v ∈ values,KeyScalar v) (hscalar : ∀ v ∈ vs,KeyScalar v) (hid : (asBytes docId).length < 65280) :
    (buildPrefixRange d values).1 ≤ encodeCompositeKey d vs docId ∧
      encodeCompositeKey d vs docId ≤ (buildPrefixRange d values).2 ↔ vs.take values.length = values := by
  have hfront : ∀ vs,d.encodeCompositePrefix vs = beBytes 4 d.id.toNat++tupleBytes vs d.fields := fun _ => rfl
  constructor
  · rintro ⟨hlow,hhigh⟩
    obtain ⟨rest,hkey⟩ := IndexKey.front_of_between hlow hhigh
    simp only [hfront,List.append_assoc,List.append_cancel_left_eq] at hkey
    have hkept := tupleBytes_front (fun v hv => (hvalues v hv).keyLength) (fun v hv => (hscalar v hv).keyLength)
      (by omega) hlen hkey.symm
    rw [List.map_congr_left fun v hv => (hvalues v hv).keyed_eq,List.map_congr_left fun v hv =>
      (hscalar v (List.mem_of_mem_take hv)).keyed_eq] at hkept
    simpa using hkept.symm
  · intro htake
    obtain ⟨more,rfl⟩ : ∃ more,vs = values++more :=
      ⟨vs.drop values.length,by nth_rewrite 1 [← List.take_append_drop values.length vs]; rw [htake]⟩
    obtain ⟨b,rest,hb,htail⟩ := exists_tail more (d.fields.drop values.length) hid
    have hkey : encodeCompositeKey d (values++more) docId = ⟨d.encodeCompositePrefix values++b::rest⟩ := by
      simp only [encodeCompositeKey,hfront,tupleBytes_append hlen,← htail,List.append_assoc]
    rw [hkey]
    exact IndexKey.append_between _ rest hb

/-- The ids of two documents with one key are the same. -/
theorem encodeCompositeKey_id {ws : List Value} {id id' : String} (hlen : vs.length = ws.length)
    (hfields : vs.length = d.fields.length) (hvs : ∀ v ∈ vs,KeyScalar v) (hws : ∀ v ∈ ws,KeyScalar v)
    (h : encodeCompositeKey d vs id = encodeCompositeKey d ws id') : id = id' := by
  have hbytes := congrArg IndexKey.bytes h
  simp only [encodeCompositeKey,CompositeIndexDefinition.encodeCompositePrefix,List.append_assoc,
    List.append_cancel_left_eq] at hbytes
  have hkept := tupleBytes_front (fun v hv => (hvs v hv).keyLength) (fun v hv => (hws v hv).keyLength) hlen.le
    hfields.le hbytes
  rw [hlen,List.take_length,List.map_congr_left fun v hv => (hvs v hv).keyed_eq,List.map_congr_left fun v hv =>
    (hws v hv).keyed_eq,List.map_id',List.map_id'] at hkept
  rw [hkept,List.append_cancel_left_eq] at hbytes
  exact asBytes_injective (List.append_inj hbytes (by simp)).2

/-- What the index is built from: tuples that a key keeps whole, and ids whose length does not reach 255 in its first byte. -/
def Keyable (text : QueryText) (d : CompositeIndexDefinition) (docs : List (String × HakoDoc)) : Prop :=
  ∀ e ∈ docs,∀ vs,tupleOf text d e.1 e.2 = some vs → (∀ v ∈ vs,KeyScalar v) ∧ (asBytes e.1).length < 65280

@[simp] theorem definition_indexDocument (idx : CompositeIndex) (docId : String) (doc : HakoDoc) :
    (idx.indexDocument text docId doc).definition = idx.definition := by
  unfold indexDocument
  split <;> rfl

theorem ofDocuments_append (docs : List (String × HakoDoc)) (e : String × HakoDoc) :
    ofDocuments text d (docs++[e]) = (ofDocuments text d docs).indexDocument text e.1 e.2 := by
  simp [ofDocuments,List.foldl_append]

@[simp] theorem definition_ofDocuments (docs : List (String × HakoDoc)) : (ofDocuments text d docs).definition = d := by
  induction docs using List.reverseRecOn with
  | nil => rfl
  | append_singleton docs e ih => rw [ofDocuments_append,definition_indexDocument,ih]

/-- The tree holds the keys of the documents taken in, each with its id. -/
theorem mem_ofDocuments {docs : List (String × HakoDoc)} (hdocs : Keyable text d docs) (key : IndexKey) (id : String) :
    (key,id) ∈ (ofDocuments text d docs).tree.entries ↔
      ∃ e ∈ docs,e.1 = id ∧ ∃ vs,tupleOf text d e.1 e.2 = some vs ∧ encodeCompositeKey d vs id = key := by
  induction docs using List.reverseRecOn with
  | nil => simp [ofDocuments,new]
  | append_singleton docs e ih =>
    have hold := ih fun x hx => hdocs x (List.mem_append_left _ hx)
    have hkey : (ofDocuments text d docs).keyOf text e.1 e.2 = _ := keyOf_eq (ofDocuments text d docs) e.1 e.2
    rw [definition_ofDocuments] at hkey
    have hsplit : (∃ x ∈ docs++[e],x.1 = id ∧ ∃ vs,tupleOf text d x.1 x.2 = some vs ∧ encodeCompositeKey d vs id = key) ↔
        (key,id) ∈ (ofDocuments text d docs).tree.entries ∨
          e.1 = id ∧ ∃ vs,tupleOf text d e.1 e.2 = some vs ∧ encodeCompositeKey d vs id = key := by
      simp only [hold,List.mem_append,List.mem_singleton,or_and_right,exists_or,exists_eq_left]
    rw [hsplit,ofDocuments_append,indexDocument,hkey]
    cases htuple : tupleOf text d e.1 e.2 with
    | none => simp
    | some vs =>
      rw [Option.map_some]
      dsimp only
      rw [OrderedMap.mem_insert]
      simp only [Prod.mk.injEq,Option.some.injEq,exists_eq_left']
      constructor
      · rintro (⟨rfl,rfl⟩ | ⟨hmem,-⟩)
        · exact .inr ⟨rfl,rfl⟩
        · exact .inl hmem
      · rintro (hmem | ⟨rfl,rfl⟩)
        · by_cases hsame : key = encodeCompositeKey d vs e.1
          · -- an earlier document under the key has the id of this one
            obtain ⟨x,hx,rfl,ws,hws,hxkey⟩ := hold.mp hmem
            have hscalar := (hdocs e (by simp) vs htuple).1
            have hscalar' := (hdocs x (List.mem_append_left _ hx) ws hws).1
            have hlen := tupleOf_length htuple
            have hlen' := tupleOf_length hws
            have hid := encodeCompositeKey_id (by omega) hlen' hscalar' hscalar (hxkey.trans hsame)
            exact .inl ⟨hsame,hid⟩
          · exact .inr ⟨hmem,hsame⟩
        · exact .inl ⟨rfl,rfl⟩

/-- Scanning the range of leading values gives the ids of the documents whose tuples begin with them, whatever
the directions of the fields; and each of them once, if no two documents have one id. -/
theorem rangeScan_leadingValues (text : QueryText) (d : CompositeIndexDefinition) {docs : List (String × HakoDoc)}
    {values : List Value} (hlen : values.length ≤ d.fields.length) (hvalues : ∀ v ∈ values,KeyScalar v)
    (hdocs : Keyable text d docs) :
    (∀ id,id ∈ (ofDocuments text d docs).rangeScan (buildPrefixRange d values).1 (buildPrefixRange d values).2 ↔
      ∃ e ∈ docs,e.1 = id ∧ ∃ vs,tupleOf text d e.1 e.2 = some vs ∧ vs.take values.length = values) ∧
    ((docs.map Prod.fst).Nodup →
      ((ofDocuments text d docs).rangeScan (buildPrefixRange d values).1 (buildPrefixRange d values).2).Nodup) := by
  constructor
  · intro id
    simp only [rangeScan,OrderedMap.range,List.mem_map,List.mem_filter,Bool.and_eq_true,decide_eq_true_eq]
    constructor
    · rintro ⟨⟨key,id⟩,⟨hmem,hbetween⟩,rfl⟩
      obtain ⟨e,he,rfl,vs,hvs,rfl⟩ := (mem_ofDocuments hdocs key id).mp hmem
      obtain ⟨hscalar,hid⟩ := hdocs e he vs hvs
      exact ⟨e,he,rfl,vs,hvs,(between_iff hlen (tupleOf_length hvs) hvalues hscalar hid).mp hbetween⟩
    · rintro ⟨e,he,rfl,vs,hvs,htake⟩
      obtain ⟨hscalar,hid⟩ := hdocs e he vs hvs
      exact ⟨(encodeCompositeKey d vs e.1,e.1),⟨(mem_ofDocuments hdocs _ _).mpr ⟨e,he,rfl,vs,hvs,rfl⟩,
        (between_iff hlen (tupleOf_length hvs) hvalues hscalar hid).mpr htake⟩,rfl⟩
  · intro hnodup
    refine ((OrderedMap.nodup_of_sorted (ofDocuments text d docs).tree.sorted).filter _).map_on ?_
    rintro ⟨key,id⟩ hmem ⟨key',id'⟩ hmem' (rfl : id = id')
    obtain ⟨e,he,rfl,vs,hvs,rfl⟩ := (mem_ofDocuments hdocs key id).mp (List.mem_of_mem_filter hmem)
    obtain ⟨e',he',hid,ws,hws,rfl⟩ := (mem_ofDocuments hdocs key' e.1).mp (List.mem_of_mem_filter hmem')
    obtain rfl := List.inj_on_of_nodup_map hnodup he' he hid
    rw [hvs] at hws
    rw [Option.some.inj hws]

end scan

/-- One field up and one down. -/
def byRankAndName : CompositeIndexDefinition := ⟨7,"users",[⟨"rank",.asc⟩,⟨"name",.desc⟩],false,false,none⟩

def twoUsers : List (String × HakoDoc) :=
  [("x",⟨[("name",.string "u"),("rank",.int 1)],0⟩),("y",⟨[("name",.string "v"),("rank",.int 2)],0⟩)]

theorem rangeScan_twoUsers : "x" ∈ (ofDocuments QueryEnv.ascii.text byRankAndName twoUsers).rangeScan
    (buildPrefixRange byRankAndName [.int 1]).1 (buildPrefixRange byRankAndName [.int 1]).2 := by
  have hx : tupleOf QueryEnv.ascii.text byRankAndName "x" ⟨[("name",.string "u"),("rank",.int 1)],0⟩ =
      some [.int 1,.string "u"] := by decide +kernel
  have hy : tupleOf QueryEnv.ascii.text byRankAndName "y" ⟨[("name",.string "v"),("rank",.int 2)],0⟩ =
      some [.int 2,.string "v"] := by decide +kernel
  have hdocs : Keyable QueryEnv.ascii.text byRankAndName twoUsers := by
    intro e he vs hvs
    simp only [twoUsers,List.mem_cons,List.not_mem_nil,or_false] at he
    obtain rfl | rfl := he
    · obtain rfl := Option.some.inj (hx.symm.trans hvs)
      exact ⟨by simp [KeyScalar]; decide +kernel,by decide +kernel⟩
    · obtain rfl := Option.some.inj (hy.symm.trans hvs)
      exact ⟨by simp [KeyScalar]; decide +kernel,by decide +kernel⟩
  refine ((rangeScan_leadingValues QueryEnv.ascii.text byRankAndName (by decide) ?_ hdocs).1 "x").mpr ?_
  · simp [KeyScalar]
  · exact ⟨_,List.mem_cons_self,rfl,_,hx,rfl⟩

end CompositeIndex

end HakoDB

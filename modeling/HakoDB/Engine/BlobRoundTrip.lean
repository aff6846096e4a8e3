import HakoDB.Document.Accepted
import HakoDB.Engine.PutPhases

/-! A document with large fields that is put and read back. A large value becomes a link, which says how many
bytes there are and not of which kind; a reader takes them for a text whenever they are one. A get looks for
the bytes in the queue of the blob writer first, a query in the blob file alone. -/
namespace HakoDB
open ByteCodec HashMap Places

/-- Put the bytes behind a link that the reader looks at. -/
def follow (look : Value → Option (UInt64 × UInt32)) (read : UInt64 → UInt32 → Bytes) (value : Value) : Value :=
  match look value with
  | some (offset,len) => inflateBytes (read offset len)
  | none => value

def HakoDoc.mapValues (g : Value → Value) (doc : HakoDoc) : HakoDoc :=
  {doc with fields := doc.fields.map fun f => (f.1,g f.2)}

/-- The links of a row of a query. -/
def inflateBlobs (bm : BlobManager) (doc : HakoDoc) : HakoDoc := doc.mapValues (follow Value.link? bm.readAt)

namespace StorageEngine

/-- The document under a key as a row of a query shows it. -/
def inflated (zstd : Option Zstd) (s : StorageEngine) (key : String) : Res (Option HakoDoc) := do
  let bytes ← s.get zstd key
  return (bytes.bind HakoDoc.decode).map fun doc => match s.blobManager with
    | some bm => inflateBlobs bm doc
    | none => doc

/-- Both phases of a put. -/
def putDoc (crc : Bytes → UInt32) (instant : ℕ) (s : StorageEngine) (collection key : String) (doc : HakoDoc)
    (threshold : ℕ) : StorageEngine :=
  (s.reservePut collection key doc threshold).1.commitPut crc instant (s.reservePut collection key doc threshold).2

/-- Everything that is in the blob file or on its way there stands below the counted size. -/
structure BlobsBelow (s : StorageEngine) (bm : BlobManager) : Prop where
  manager : s.blobManager = some bm
  file : bm.file.length ≤ bm.blobSize.toNat
  queue : ∀ item ∈ s.blobFlushQueue,∀ o data,item.place? = some (o,data) → o.toNat+data.length ≤ bm.blobSize.toNat

end StorageEngine

/-- A byte value that is moved out is not a text. -/
def Value.KeepsKind (threshold : ℕ) (v : Value) : Prop := ∀ b,v = .binary b → threshold < b.length → fromUtf8 b = none

/-- A value that is moved out is a text of zeros. -/
def Value.OnlyZeros (threshold : ℕ) (v : Value) : Prop :=
  ∀ raw,BlobManager.rawValue threshold v = some raw → raw = List.replicate raw.length 0 ∧ ∃ s,v = .string s

section values

theorem inflateBytes_asBytes (s : String) : inflateBytes (asBytes s) = .string s := by
  simp [inflateBytes,fromUtf8_asBytes]

variable {raw : Bytes} {threshold : ℕ} {v : Value}

theorem inflateBytes_encodable (h : raw.length < 2^32) : (inflateBytes raw).Encodable := by
  unfold inflateBytes
  cases hs : fromUtf8 raw with
  | some s =>
    simp only [Value.Encodable]
    rw [asBytes_of_fromUtf8 hs]
    exact h
  | none =>
    simp only [Value.Encodable]
    exact h

theorem inflateBytes_ne_link (raw : Bytes) (o : UInt64) (l : UInt32) : inflateBytes raw ≠ .blobLink o l := by
  unfold inflateBytes
  cases fromUtf8 raw <;> simp

theorem inflateBytes_raw_iff (h : BlobManager.rawValue threshold v = some raw) :
    inflateBytes raw = v ↔ v.KeepsKind threshold := by
  unfold BlobManager.rawValue at h
  split at h
  · rename_i hlarge
    cases v with
    | string s =>
      obtain rfl := Option.some.inj h
      simp [inflateBytes_asBytes,Value.KeepsKind]
    | binary b =>
      obtain rfl := Option.some.inj h
      have hb : threshold < b.length := hlarge
      constructor
      · intro heq b' hb' _
        obtain rfl := Value.binary.inj hb'
        unfold inflateBytes at heq
        cases hs : fromUtf8 b with
        | none => rfl
        | some s => simp [hs] at heq
      · intro hkeeps
        simp [inflateBytes,hkeeps b rfl hb]
    | _ => cases h
  · cases h

theorem asBytes_zeros (n : ℕ) : ∃ s,asBytes s = List.replicate n 0 := by
  refine ⟨String.ofList (List.replicate n (Char.ofNat 0)),?_⟩
  rw [asBytes_ofList]
  induction n with
  | zero => rfl
  | succ n ih =>
    rw [List.replicate_succ,List.flatMap_cons,ih]
    rfl

theorem inflateBytes_zeros_iff (h : BlobManager.rawValue threshold v = some raw) :
    inflateBytes (List.replicate raw.length 0) = v ↔ v.OnlyZeros threshold := by
  obtain ⟨zeros,hzeros⟩ := asBytes_zeros raw.length
  rw [← hzeros,inflateBytes_asBytes]
  constructor
  · rintro rfl raw' hraw'
    obtain rfl := Option.some.inj (h.symm.trans hraw')
    refine ⟨?_,zeros,rfl⟩
    unfold BlobManager.rawValue at h
    split at h
    · rw [← hzeros]
      exact (Option.some.inj h).symm
    · cases h
  · intro honly
    obtain ⟨hraw,s,rfl⟩ := honly raw h
    unfold BlobManager.rawValue at h
    split at h
    · have hs : asBytes s = asBytes zeros := by
        rw [hzeros,← hraw]
        exact Option.some.inj h
      rw [asBytes_injective hs]
    · cases h

theorem keepsKind_iff (threshold : ℕ) (v : Value) :
    (∀ raw,BlobManager.rawValue threshold v = some raw → inflateBytes raw = v) ↔ v.KeepsKind threshold := by
  cases hraw : BlobManager.rawValue threshold v with
  | none =>
    refine ⟨fun _ b hb hlarge => ?_,fun _ raw h => by cases h⟩
    subst hb
    simp [BlobManager.rawValue,Value.lenBytes,hlarge] at hraw
  | some raw =>
    rw [← inflateBytes_raw_iff hraw]
    simp

theorem onlyZeros_iff (threshold : ℕ) (v : Value) :
    (∀ raw,BlobManager.rawValue threshold v = some raw → inflateBytes (List.replicate raw.length 0) = v) ↔
      v.OnlyZeros threshold := by
  cases hraw : BlobManager.rawValue threshold v with
  | none => simp [Value.OnlyZeros,hraw]
  | some raw =>
    rw [← inflateBytes_zeros_iff hraw]
    simp

end values

section following
variable {look : Value → Option (UInt64 × UInt32)} {read : UInt64 → UInt32 → Bytes} {threshold : ℕ}

/-- A reader looks at links, and at those with a place. -/
structure LooksAtLinks (look : Value → Option (UInt64 × UInt32)) : Prop where
  link : ∀ v o l,look v = some (o,l) → v = .blobLink o l
  placed : ∀ o l,o ≠ lostOffset → look (.blobLink o l) = some (o,l)

theorem looksAtLinks_liveLink? : LooksAtLinks Value.liveLink? :=
  ⟨fun _ _ _ h => (Value.liveLink?_eq_some.1 h).1,fun _ _ h => Value.liveLink?_eq_some.2 ⟨rfl,h⟩⟩

theorem looksAtLinks_link? : LooksAtLinks Value.link? := by
  refine ⟨fun v o l h => ?_,fun _ _ _ => rfl⟩
  cases v <;> simp_all [Value.link?]

theorem follow_encodable (hread : ∀ o l,(read o l).length < 2^32) {v : Value} (hv : v.Encodable) :
    (follow look read v).Encodable := by
  unfold follow
  cases look v with
  | none => exact hv
  | some p => exact inflateBytes_encodable (hread p.1 p.2)

variable {items : List BlobWork}

/-- When a field is read back as it was put. -/
theorem follow_extracted_iff (hlook : LooksAtLinks look) {f g : String × Value} {got : Bytes → Bytes}
    (h : BlobManager.Extracted threshold items f g) (hplaces : ∀ p ∈ items.filterMap BlobWork.place?,p.1 ≠ lostOffset)
    (hread : ∀ p ∈ items.filterMap BlobWork.place?,read p.1 (UInt32.ofNat p.2.length) = got p.2) :
    follow look read g.2 = f.2 ↔ look f.2 = none ∧
      ∀ raw,BlobManager.rawValue threshold f.2 = some raw → inflateBytes (got raw) = f.2 := by
  cases hraw : BlobManager.rawValue threshold f.2 with
  | none =>
    rw [h.kept hraw]
    unfold follow
    cases hl : look f.2 with
    | none => simp
    | some p =>
      refine ⟨fun heq => ?_,fun hnone => by cases hnone.1⟩
      exact absurd (heq.trans (hlook.link f.2 p.1 p.2 hl)) (inflateBytes_ne_link _ _ _)
  | some raw =>
    obtain ⟨o,hlink,hmem⟩ := h.moved raw hraw
    have hnone : look f.2 = none := by
      cases hl : look f.2 with
      | none => rfl
      | some p =>
        rw [hlook.link f.2 p.1 p.2 hl] at hraw
        unfold BlobManager.rawValue at hraw
        split at hraw <;> cases hraw
    simp only [follow,hlink,hlook.placed o _ (hplaces _ hmem),hread _ hmem,hnone,true_and,Option.some.injEq,
      forall_eq']

/-- When a whole document is. -/
theorem mapValues_follow_iff (hlook : LooksAtLinks look) {d : HakoDoc} {fields : List (String × Value)}
    (got : Bytes → Bytes) (h : List.Forall₂ (BlobManager.Extracted threshold items) d.fields fields)
    (hplaces : ∀ p ∈ items.filterMap BlobWork.place?,p.1 ≠ lostOffset)
    (hread : ∀ p ∈ items.filterMap BlobWork.place?,read p.1 (UInt32.ofNat p.2.length) = got p.2) :
    ({d with fields := fields} : HakoDoc).mapValues (follow look read) = d ↔
      ∀ f ∈ d.fields,look f.2 = none ∧
        ∀ raw,BlobManager.rawValue threshold f.2 = some raw → inflateBytes (got raw) = f.2 := by
  have hfields : fields.map (fun g => (g.1,follow look read g.2)) = d.fields ↔
      ∀ f ∈ d.fields,look f.2 = none ∧
        ∀ raw,BlobManager.rawValue threshold f.2 = some raw → inflateBytes (got raw) = f.2 := by
    generalize d.fields = old at h
    induction h with
    | nil => simp
    | @cons f g old new hfg hrest ih =>
      have hfirst := follow_extracted_iff hlook hfg hplaces hread
      rw [List.map_cons,List.cons.injEq,ih,List.forall_mem_cons,← hfirst]
      have hpair : (g.1,follow look read g.2) = f ↔ follow look read g.2 = f.2 := by
        rw [Prod.ext_iff]
        simp [hfg.name]
      rw [hpair]
  rw [← hfields]
  constructor
  · intro heq
    exact congrArg HakoDoc.fields heq
  · intro heq
    exact congrArg (fun fs => ({d with fields := fs} : HakoDoc)) heq

theorem mapValues_encodable {g : Value → Value} (hg : ∀ v : Value,v.Encodable → (g v).Encodable) {doc : HakoDoc}
    (h : doc.Encodable) : (doc.mapValues g).Encodable := by
  refine ⟨by simpa [HakoDoc.mapValues] using h.1,?_⟩
  have hfields := h.2
  simp only [HakoDoc.mapValues]
  generalize doc.fields = fields at hfields
  induction fields with
  | nil => trivial
  | cons f fields ih => exact ⟨hfields.1,hg f.2 hfields.2.1,ih hfields.2.2⟩

theorem extracted_encodable {old new : List (String × Value)}
    (h : List.Forall₂ (BlobManager.Extracted threshold items) old new) (henc : FieldsEncodable old) :
    FieldsEncodable new := by
  induction h with
  | nil => trivial
  | @cons f g old new hfg hrest ih =>
    obtain ⟨name,value⟩ := f
    obtain ⟨name',value'⟩ := g
    obtain ⟨hname,hvalue,hothers⟩ := henc
    obtain rfl : name' = name := hfg.name
    refine ⟨hname,?_,ih hothers⟩
    cases hraw : BlobManager.rawValue threshold value with
    | none =>
      obtain rfl : value' = value := hfg.kept hraw
      exact hvalue
    | some raw =>
      obtain ⟨o,rfl,-⟩ := hfg.moved raw hraw
      trivial

end following

namespace StorageEngine
variable {zstd : Option Zstd} {s : StorageEngine} {bm : BlobManager} {key : String}
variable {bytes : Bytes} {t : StorageEngine}

/-- A get of an inlined document. -/
theorem resolved_of_lookup (hlookup : s.index.lookup key = some (.inlined bytes)) (hmanager : s.blobManager = some bm) :
    s.resolved zstd key = .ok ((HakoDoc.decode bytes).map fun doc =>
      doc.mapValues (follow Value.liveLink? (resolveLink bm s.snapshotBlobState.2))) := by
  have hget : s.get zstd key = .ok (some bytes) := by simp [get,hlookup,readPointer]
  have hstate : s.snapshotBlobState = (some bm,s.snapshotBlobState.2) := by simp [snapshotBlobState,hmanager]
  have happly : ∀ doc,applyBlobSnapshot s.snapshotBlobState doc =
      .ok (doc.mapValues (follow Value.liveLink? (resolveLink bm s.snapshotBlobState.2))) := by
    intro doc
    rw [hstate]
    unfold applyBlobSnapshot
    split
    · rename_i hnone
      refine congrArg Except.ok (congrArg (fun fs => ({doc with fields := fs} : HakoDoc)) ?_)
      conv_lhs => rw [← List.map_id doc.fields]
      refine List.map_congr_left fun f hf => ?_
      have hf' : f.2.liveLink? = none := by simpa using List.all_eq_true.1 hnone f hf
      simp [follow,hf']
    · rfl
  cases hdecode : HakoDoc.decode bytes with
  | none => exact resolved_of_undecodable hget hdecode
  | some doc => exact resolved_of_decode hget hdecode (happly doc)

theorem inflated_of_lookup (hlookup : s.index.lookup key = some (.inlined bytes)) (hmanager : s.blobManager = some bm) :
    s.inflated zstd key = .ok ((HakoDoc.decode bytes).map fun doc =>
      doc.mapValues (follow Value.link? bm.readAt)) := by
  have hget : s.get zstd key = .ok (some bytes) := by simp [get,hlookup,readPointer]
  unfold inflated
  rw [hget,hmanager]
  rfl

/-- A swap of the blob writer leaves an entry that is not pending. -/
theorem applyBlobMeta_inlined (h : s.index.lookup key = some (.inlined bytes)) (item : BlobWork) :
    (s.applyBlobMeta item).index.lookup key = some (.inlined bytes) := by
  cases item with
  | putRaw collection k skeleton offset data timestamp len =>
    simp only [applyBlobMeta,swapPending]
    split
    · rename_i doc hdoc
      split
      · have hne : key ≠ k := by
          rintro rfl
          cases h.symm.trans hdoc
        exact ((lookup_insert_ite _ _ _ _).trans (if_neg hne)).trans h
      · exact h
    · exact h
  | put collection k data => exact h

theorem foldl_applyBlobMeta_inlined (items : List BlobWork) (h : s.index.lookup key = some (.inlined bytes)) :
    (items.foldl applyBlobMeta s).index.lookup key = some (.inlined bytes) := by
  induction items generalizing s with
  | nil => exact h
  | cons item items ih => exact ih (applyBlobMeta_inlined h item)

theorem foldl_writeBlob (hmanager : s.blobManager = some bm) (items : List BlobWork) : items.foldl writeBlob s =
    {s with blobManager := some ⟨pwriteAll bm.file (items.filterMap BlobWork.write?),bm.blobSize⟩} := by
  induction items generalizing s bm with
  | nil =>
    change s = {s with blobManager := some bm}
    rw [← hmanager]
  | cons item items ih =>
    cases hplace : item.write? with
    | none =>
      have hput : s.writeBlob item = s := by
        cases item with
        | putRaw collection k skeleton offset data timestamp len => cases hplace
        | put collection k data => rfl
      rw [List.foldl_cons,hput,ih hmanager,List.filterMap_cons,hplace]
    | some w =>
      rw [List.foldl_cons,BlobWorld.writeBlob_manager hmanager hplace,ih rfl,List.filterMap_cons,hplace]
      rfl

/-- One round of the blob writer. -/
theorem flushBlobs_spec (hmanager : s.blobManager = some bm) (hlookup : s.index.lookup key = some (.inlined bytes)) :
    s.flushBlobs.blobManager =
        some ⟨pwriteAll bm.file ((s.blobFlushQueue.take 128).filterMap BlobWork.write?),bm.blobSize⟩ ∧
      s.flushBlobs.blobFlushQueue = s.blobFlushQueue.drop 128 ∧
      s.flushBlobs.index.lookup key = some (.inlined bytes) := by
  have hflush : s.flushBlobs = (s.blobFlushQueue.take 128).foldl applyBlobMeta {s with
      blobFlushQueue := s.blobFlushQueue.drop 128
      blobManager := some ⟨pwriteAll bm.file ((s.blobFlushQueue.take 128).filterMap BlobWork.write?),bm.blobSize⟩} := by
    unfold flushBlobs
    rw [if_neg (by simp [hmanager])]
    exact congrArg (fun u => (s.blobFlushQueue.take 128).foldl applyBlobMeta u)
      (foldl_writeBlob (s := {s with blobFlushQueue := s.blobFlushQueue.drop 128}) hmanager (s.blobFlushQueue.take 128))
  rw [hflush]
  obtain ⟨hm,hq,-,-⟩ := foldl_applyBlobMeta_frame {s with
    blobFlushQueue := s.blobFlushQueue.drop 128
    blobManager := some ⟨pwriteAll bm.file ((s.blobFlushQueue.take 128).filterMap BlobWork.write?),bm.blobSize⟩}
    (s.blobFlushQueue.take 128)
  exact ⟨hm,hq,foldl_applyBlobMeta_inlined _ hlookup⟩

/-- Rounds of the blob writer write the queue from its front. -/
theorem rounds_spec (n : ℕ) (hmanager : s.blobManager = some bm)
    (hlookup : s.index.lookup key = some (.inlined bytes)) :
    (flushBlobs^[n] s).blobManager =
        some ⟨pwriteAll bm.file ((s.blobFlushQueue.take (128*n)).filterMap BlobWork.write?),bm.blobSize⟩ ∧
      (flushBlobs^[n] s).blobFlushQueue = s.blobFlushQueue.drop (128*n) ∧
      (flushBlobs^[n] s).index.lookup key = some (.inlined bytes) := by
  induction n with
  | zero => exact ⟨by simpa [pwriteAll] using hmanager,by simp,hlookup⟩
  | succ n ih =>
    obtain ⟨hm,hq,hl⟩ := ih
    obtain ⟨hm',hq',hl'⟩ := flushBlobs_spec hm hl
    rw [Function.iterate_succ_apply']
    refine ⟨hm'.trans ?_,by rw [hq',hq,List.drop_drop,Nat.mul_succ],hl'⟩
    rw [hq,Nat.mul_succ,List.take_add,List.filterMap_append,pwriteAll,pwriteAll,pwriteAll,List.foldl_append]

/-- What a put leaves: its document with links, and the items that the links lead to. -/
structure StoredAs (threshold : ℕ) (bm : BlobManager) (key : String) (d : HakoDoc) (fields : List (String × Value))
    (items : List BlobWork) (s t : StorageEngine) : Prop where
  lookup : t.index.lookup key = some (.inlined ({d with fields := fields} : HakoDoc).encode)
  blobManager : ∃ size,t.blobManager = some ⟨bm.file,size⟩
  blobFlushQueue : t.blobFlushQueue = s.blobFlushQueue++items
  extracted : List.Forall₂ (BlobManager.Extracted threshold items) d.fields fields
  placed : d.Encodable → bm.blobSize.toNat+d.encode.length < 2^64 →
    BlobManager.PlacesWithin bm.blobSize.toNat (bm.blobSize.toNat+d.encode.length) (items.filterMap BlobWork.place?)

theorem putDoc_storedAs (crc : Bytes → UInt32) (instant : ℕ) (hmanager : s.blobManager = some bm) (collection key : String)
    (d : HakoDoc) (threshold : ℕ) :
    ∃ fields items,StoredAs threshold bm key d fields items s (s.putDoc crc instant collection key d threshold) := by
  obtain ⟨bytes,counts,view,pending,hcommit⟩ := BlobWorld.commitPut_eq crc instant
    (s.reservePut collection key d threshold).1 (s.reservePut collection key d threshold).2
  have hreserve := BlobWorld.reservePut_eq hmanager collection key d threshold rfl
  refine ⟨(BlobManager.extractFields collection key d.time threshold bm.blobSize d.fields).2.1,
    BlobManager.attachSkeleton ({d with
        fields := (BlobManager.extractFields collection key d.time threshold bm.blobSize d.fields).2.1} : HakoDoc).encode
      (BlobManager.extractFields collection key d.time threshold bm.blobSize d.fields).2.2,?_⟩
  unfold putDoc
  rw [hcommit,hreserve]
  refine ⟨(lookup_insert_ite _ _ _ _).trans (if_pos rfl),⟨_,rfl⟩,rfl,?_,fun henc hroom => ?_⟩
  · refine (BlobManager.extractFields_extracted collection key d.time threshold bm.blobSize d.fields).imp fun f g hfg => ?_
    refine ⟨hfg.name,hfg.kept,fun raw hraw => ?_⟩
    rw [BlobManager.attachSkeleton_places]
    exact hfg.moved raw hraw
  · rw [BlobManager.attachSkeleton_places]
    have hlength := BlobWorld.encode_length d
    have hroom' : bm.blobSize.toNat+(encodeFields d.fields).length < 2^64 := by omega
    have hplaces := BlobManager.extractFields_places collection key d.time threshold henc.2 hroom'
    refine ⟨fun p hp => ?_,hplaces.ordered⟩
    obtain ⟨hlow,hhigh,hlen⟩ := hplaces.bounds p hp
    exact ⟨hlow,by omega,hlen⟩

section reading
variable {threshold : ℕ} {d : HakoDoc} {fields : List (String × Value)} {items : List BlobWork} {t : StorageEngine}
variable {high : ℕ}

/-- Whatever else is written keeps apart from the places of the put. -/
theorem BlobsBelow.apart (h : s.BlobsBelow bm)
    (hplaces : BlobManager.PlacesWithin bm.blobSize.toNat high (items.filterMap BlobWork.place?)) {p : UInt64 × Bytes}
    (hp : p ∈ items.filterMap BlobWork.place?) :
    ∀ w ∈ (s.blobFlushQueue++items).filterMap BlobWork.write?,w = (p.1.toNat,p.2) ∨ Apart (p.1.toNat,p.2) w := by
  intro w hw
  obtain ⟨item,hitem,hwrite⟩ := List.mem_filterMap.1 hw
  obtain ⟨q,hq,rfl⟩ := Option.map_eq_some_iff.1 hwrite
  rcases List.mem_append.1 hitem with hitem | hitem
  · have hend := h.queue item hitem q.1 q.2 hq
    exact .inr (apart_of_le (.inr (hend.trans (hplaces.bounds p hp).1)))
  · by_cases heq : q = p
    · exact .inl (by rw [heq])
    · exact .inr (hplaces.apart hp (List.mem_filterMap.2 ⟨item,hitem,hq⟩) (Ne.symm heq))

/-- Once the queue is written, the blob file has the bytes of the put. -/
theorem readAt_written (h : s.BlobsBelow bm) (hhigh : high < 2^64)
    (hplaces : BlobManager.PlacesWithin bm.blobSize.toNat high (items.filterMap BlobWork.place?)) (size : UInt64) :
    ∀ p ∈ items.filterMap BlobWork.place?,
      BlobManager.readAt ⟨pwriteAll bm.file ((s.blobFlushQueue++items).filterMap BlobWork.write?),size⟩ p.1
        (UInt32.ofNat p.2.length) = p.2 := by
  intro p hp
  obtain ⟨item,hitem,hplace⟩ := List.mem_filterMap.1 hp
  obtain ⟨-,-,-,hlt⟩ := hplaces.bounds p hp
  have hmem : (p.1.toNat,p.2) ∈ (s.blobFlushQueue++items).filterMap BlobWork.write? :=
    List.mem_filterMap.2 ⟨item,List.mem_append_right _ hitem,by simp [BlobWork.write?,hplace]⟩
  have hhas := hasAt_pwriteAll bm.file (.inr hmem) (h.apart hplaces hp)
  have hlen : (UInt32.ofNat p.2.length).toNat = p.2.length := UInt32.toNat_ofNat_of_lt' hlt
  rw [BlobManager.readAt,if_neg (hplaces.ne_lostOffset hhigh p hp),hlen]
  exact readPadded_of_hasAt hhas

/-- Before that, the queue has them. -/
theorem resolveLink_queued {low : ℕ} (hplaces : BlobManager.PlacesWithin low high (items.filterMap BlobWork.place?))
    (bm : BlobManager) (front : List (UInt64 × Bytes)) : ∀ p ∈ items.filterMap BlobWork.place?,
      resolveLink bm (front++items.filterMap BlobWork.place?) p.1 (UInt32.ofNat p.2.length) = p.2 := by
  intro p hp
  obtain ⟨data,hdata⟩ : ∃ data,lastValue p.1 (items.filterMap BlobWork.place?) = some data := by
    refine Option.ne_none_iff_exists'.1 fun hnone => ?_
    exact lastValue_eq_none.1 hnone p hp rfl
  have hmem := mem_of_lastValue hdata
  have hsame : p = (p.1,data) := by
    by_contra hne
    obtain ⟨-,-,hpos,-⟩ := hplaces.bounds p hp
    obtain ⟨-,-,hpos',-⟩ := hplaces.bounds _ hmem
    exact hplaces.apart hp hmem hne p.1.toNat ⟨le_rfl,by dsimp only; omega⟩ ⟨le_rfl,by dsimp only at hpos' ⊢; omega⟩
  unfold resolveLink
  rw [lastValue_append,hdata]
  exact (congrArg Prod.snd hsame).symm

/-- Before that, the blob file has zeros. -/
theorem readAt_unwritten (h : s.BlobsBelow bm) (hhigh : high < 2^64)
    (hplaces : BlobManager.PlacesWithin bm.blobSize.toNat high (items.filterMap BlobWork.place?)) (size : UInt64) :
    ∀ p ∈ items.filterMap BlobWork.place?,
      BlobManager.readAt ⟨bm.file,size⟩ p.1 (UInt32.ofNat p.2.length) = List.replicate p.2.length 0 := by
  intro p hp
  obtain ⟨hlow,-,-,hlt⟩ := hplaces.bounds p hp
  have hfile := h.file
  have hlen : (UInt32.ofNat p.2.length).toNat = p.2.length := UInt32.toNat_ofNat_of_lt' hlt
  rw [BlobManager.readAt,if_neg (hplaces.ne_lostOffset hhigh p hp),hlen,readPadded,
    List.drop_eq_nil_of_le (hfile.trans hlow)]
  simp

/-- A reader that looks into the blob file finds the document as it was put, if what it finds for the moved
values is read as these values. -/
theorem StoredAs.decode_iff (h : StoredAs threshold bm key d fields items s t)
    (hroom : bm.blobSize.toNat+d.encode.length < 2^64) {look : Value → Option (UInt64 × UInt32)} (hlook : LooksAtLinks look)
    {read : UInt64 → UInt32 → Bytes} (hshort : ∀ o l,(read o l).length < 2^32) (got : Bytes → Bytes)
    (hread : d.Encodable → ∀ p ∈ items.filterMap BlobWork.place?,read p.1 (UInt32.ofNat p.2.length) = got p.2) :
    ((HakoDoc.decode ({d with fields := fields} : HakoDoc).encode).map fun doc => doc.mapValues (follow look read)) = some d ↔
      d.Encodable ∧ ∀ f ∈ d.fields,look f.2 = none ∧
        ∀ raw,BlobManager.rawValue threshold f.2 = some raw → inflateBytes (got raw) = f.2 := by
  have hdecode : d.Encodable → HakoDoc.decode ({d with fields := fields} : HakoDoc).encode = some {d with fields := fields} :=
    fun henc => HakoDoc.decode_encode ⟨h.extracted.length_eq ▸ henc.1,extracted_encodable h.extracted henc.2⟩
  have hplain : d.Encodable → (({d with fields := fields} : HakoDoc).mapValues (follow look read) = d ↔
      ∀ f ∈ d.fields,look f.2 = none ∧
        ∀ raw,BlobManager.rawValue threshold f.2 = some raw → inflateBytes (got raw) = f.2) := fun henc =>
    mapValues_follow_iff hlook got h.extracted ((h.placed henc hroom).ne_lostOffset hroom) (hread henc)
  constructor
  · intro heq
    obtain ⟨doc,hdoc,hd⟩ := Option.map_eq_some_iff.1 heq
    have henc : d.Encodable :=
      hd ▸ mapValues_encodable (fun v hv => follow_encodable hshort hv) (HakoDoc.encodable_of_decode hdoc)
    obtain rfl := Option.some.inj ((hdecode henc).symm.trans hdoc)
    exact ⟨henc,(hplain henc).1 hd⟩
  · rintro ⟨henc,hfields⟩
    rw [hdecode henc,Option.map_some]
    exact congrArg some ((hplain henc).2 hfields)

end reading

theorem readAt_length_lt (bm : BlobManager) (o : UInt64) (l : UInt32) : (bm.readAt o l).length < 2^32 := by
  have hl := l.toNat_lt
  unfold BlobManager.readAt
  split
  · simp
  · simp only [readPadded,List.length_append,List.length_take,List.length_replicate]
    omega

theorem resolveLink_nil (bm : BlobManager) : resolveLink bm [] = bm.readAt := rfl

/-- The state of a put document once the blob writer has been through the queue. -/
theorem StoredAs.rounds {threshold : ℕ} {d : HakoDoc} {fields : List (String × Value)} {items : List BlobWork}
    (h : StoredAs threshold bm key d fields items s t) {n : ℕ} (hdone : (flushBlobs^[n] t).blobFlushQueue = []) :
    (flushBlobs^[n] t).index.lookup key = some (.inlined ({d with fields := fields} : HakoDoc).encode) ∧
      ∃ size,(flushBlobs^[n] t).blobManager =
        some ⟨pwriteAll bm.file ((s.blobFlushQueue++items).filterMap BlobWork.write?),size⟩ := by
  obtain ⟨size,hmanager⟩ := h.blobManager
  obtain ⟨hm,hq,hl⟩ := rounds_spec n hmanager h.lookup
  refine ⟨hl,size,hm.trans ?_⟩
  rw [hdone] at hq
  have hall : t.blobFlushQueue.take (128*n) = t.blobFlushQueue :=
    List.take_of_length_le (List.drop_eq_nil_iff.1 hq.symm)
  rw [hall,h.blobFlushQueue]

theorem exists_rounds (hmanager : t.blobManager = some bm) (hlookup : t.index.lookup key = some (.inlined bytes)) :
    ∃ n,(flushBlobs^[n] t).blobFlushQueue = [] := by
  refine ⟨t.blobFlushQueue.length,?_⟩
  rw [(rounds_spec t.blobFlushQueue.length hmanager hlookup).2.1]
  exact List.drop_eq_nil_of_le (by omega)

section lanes
variable {threshold : ℕ} {d : HakoDoc} {fields : List (String × Value)} {items : List BlobWork} {t : StorageEngine}

theorem StoredAs.resolved_written_iff (h : StoredAs threshold bm key d fields items s t) (hbelow : s.BlobsBelow bm)
    (hroom : bm.blobSize.toNat+d.encode.length < 2^64) {n : ℕ} (hdone : (flushBlobs^[n] t).blobFlushQueue = []) :
    (flushBlobs^[n] t).resolved zstd key = .ok (some d) ↔
      d.Encodable ∧ ∀ f ∈ d.fields,f.2.liveLink? = none ∧ f.2.KeepsKind threshold := by
  obtain ⟨hlookup,size,hmanager⟩ := h.rounds hdone
  have hqueue : (flushBlobs^[n] t).snapshotBlobState.2 = [] := by simp [snapshotBlobState,hdone]
  rw [resolved_of_lookup hlookup hmanager,hqueue,resolveLink_nil,Except.ok.injEq,
    h.decode_iff hroom looksAtLinks_liveLink? (readAt_length_lt _) (fun raw => raw)
      fun henc => readAt_written hbelow hroom (h.placed henc hroom) size]
  simp only [keepsKind_iff]

theorem StoredAs.inflated_written_iff (h : StoredAs threshold bm key d fields items s t) (hbelow : s.BlobsBelow bm)
    (hroom : bm.blobSize.toNat+d.encode.length < 2^64) {n : ℕ} (hdone : (flushBlobs^[n] t).blobFlushQueue = []) :
    (flushBlobs^[n] t).inflated zstd key = .ok (some d) ↔
      d.Encodable ∧ ∀ f ∈ d.fields,f.2.link? = none ∧ f.2.KeepsKind threshold := by
  obtain ⟨hlookup,size,hmanager⟩ := h.rounds hdone
  rw [inflated_of_lookup hlookup hmanager,Except.ok.injEq,h.decode_iff hroom looksAtLinks_link? (readAt_length_lt _)
    (fun raw => raw) fun henc => readAt_written hbelow hroom (h.placed henc hroom) size]
  simp only [keepsKind_iff]

theorem StoredAs.inflated_queued_iff (h : StoredAs threshold bm key d fields items s t) (hbelow : s.BlobsBelow bm)
    (hroom : bm.blobSize.toNat+d.encode.length < 2^64) : t.inflated zstd key = .ok (some d) ↔
      d.Encodable ∧ ∀ f ∈ d.fields,f.2.link? = none ∧ f.2.OnlyZeros threshold := by
  obtain ⟨size,hmanager⟩ := h.blobManager
  rw [inflated_of_lookup h.lookup hmanager,Except.ok.injEq,h.decode_iff hroom looksAtLinks_link? (readAt_length_lt _)
    (fun raw => List.replicate raw.length 0) fun henc => readAt_unwritten hbelow hroom (h.placed henc hroom) size]
  simp only [onlyZeros_iff]

/-- The queue is looked at by offset, so the length that a link speaks of does not matter there. -/
theorem StoredAs.resolved_queued (h : StoredAs threshold bm key d fields items s t)
    (hroom : bm.blobSize.toNat+d.encode.length < 2^64)
    (hcond : d.Encodable ∧ ∀ f ∈ d.fields,f.2.liveLink? = none ∧ f.2.KeepsKind threshold) :
    t.resolved zstd key = .ok (some d) := by
  obtain ⟨henc,hfields⟩ := hcond
  obtain ⟨size,hmanager⟩ := h.blobManager
  have hplaces := h.placed henc hroom
  have hqueue : t.snapshotBlobState.2 = s.blobFlushQueue.filterMap BlobWork.place?++items.filterMap BlobWork.place? := by
    simp [snapshotBlobState,h.blobFlushQueue]
  have hdecode : HakoDoc.decode ({d with fields := fields} : HakoDoc).encode = some {d with fields := fields} :=
    HakoDoc.decode_encode ⟨h.extracted.length_eq ▸ henc.1,extracted_encodable h.extracted henc.2⟩
  rw [resolved_of_lookup h.lookup hmanager,hqueue,hdecode,Option.map_some]
  refine congrArg (fun doc => Except.ok (some doc)) ?_
  refine (mapValues_follow_iff looksAtLinks_liveLink? (fun raw => raw) h.extracted (hplaces.ne_lostOffset hroom)
    (resolveLink_queued hplaces _ _)).2 fun f hf => ?_
  rw [keepsKind_iff]
  exact hfields f hf

end lanes

/-- When a document is read back as it was put: by a get, from the queue and from the blob file; by a query
after the blob writer has been through the queue; and by a query before. -/
theorem put_readBack_iff (crc : Bytes → UInt32) (instant : ℕ) (zstd : Option Zstd) (h : s.BlobsBelow bm)
    (collection key : String) {d : HakoDoc} (threshold : ℕ) (hroom : bm.blobSize.toNat+d.encode.length < 2^64) :
    (((s.putDoc crc instant collection key d threshold).resolved zstd key = .ok (some d) ∧
        ∀ n,(flushBlobs^[n] (s.putDoc crc instant collection key d threshold)).blobFlushQueue = [] →
          (flushBlobs^[n] (s.putDoc crc instant collection key d threshold)).resolved zstd key = .ok (some d)) ↔
      d.Encodable ∧ ∀ f ∈ d.fields,f.2.liveLink? = none ∧ f.2.KeepsKind threshold) ∧
    ((∀ n,(flushBlobs^[n] (s.putDoc crc instant collection key d threshold)).blobFlushQueue = [] →
        (flushBlobs^[n] (s.putDoc crc instant collection key d threshold)).inflated zstd key = .ok (some d)) ↔
      d.Encodable ∧ ∀ f ∈ d.fields,f.2.link? = none ∧ f.2.KeepsKind threshold) ∧
    ((s.putDoc crc instant collection key d threshold).inflated zstd key = .ok (some d) ↔
      d.Encodable ∧ ∀ f ∈ d.fields,f.2.link? = none ∧ f.2.OnlyZeros threshold) := by
  obtain ⟨fields,items,hstored⟩ := putDoc_storedAs crc instant h.manager collection key d threshold
  generalize s.putDoc crc instant collection key d threshold = t at hstored
  obtain ⟨size,hmanager⟩ := hstored.blobManager
  obtain ⟨n,hn⟩ := exists_rounds hmanager hstored.lookup
  refine ⟨⟨fun hread => ?_,fun hcond => ⟨?_,fun m hm => ?_⟩⟩,⟨fun hread => ?_,fun hcond m hm => ?_⟩,?_⟩
  · exact (hstored.resolved_written_iff h hroom hn).1 (hread.2 n hn)
  · exact hstored.resolved_queued hroom hcond
  · exact (hstored.resolved_written_iff h hroom hm).2 hcond
  · exact (hstored.inflated_written_iff h hroom hn).1 (hread n hn)
  · exact (hstored.inflated_written_iff h hroom hm).2 hcond
  · exact hstored.inflated_queued_iff h hroom

/-- A shard without documents. -/
theorem fresh_blobsBelow : (fresh spillConfig "c" none 0).BlobsBelow ⟨[],0⟩ := ⟨rfl,by simp,by simp [fresh,unrecovered]⟩

/-- A text above the threshold. -/
theorem put_readBack_text :
    ((fresh spillConfig "c" none 0).putDoc crc32 0 "c" "a" (BlobWorld.textDoc "hello" 1) 4).resolved none "a" =
        .ok (some (BlobWorld.textDoc "hello" 1)) ∧
      ∀ n,(flushBlobs^[n] ((fresh spillConfig "c" none 0).putDoc crc32 0 "c" "a"
          (BlobWorld.textDoc "hello" 1) 4)).blobFlushQueue = [] →
        (flushBlobs^[n] ((fresh spillConfig "c" none 0).putDoc crc32 0 "c" "a"
          (BlobWorld.textDoc "hello" 1) 4)).resolved none "a" = .ok (some (BlobWorld.textDoc "hello" 1)) := by
  refine (put_readBack_iff crc32 0 none fresh_blobsBelow "c" "a" 4 (by decide)).1.2 ⟨⟨by decide,?_⟩,?_⟩
  · simp [BlobWorld.textDoc,FieldsEncodable,Value.Encodable]
    decide
  · simp [BlobWorld.textDoc,Value.liveLink?,Value.KeepsKind]

/-- Bytes that are a text come back as a text, and a query finds zeros for what is still queued. -/
theorem put_readBack_differs :
    ((fresh spillConfig "c" none 0).putDoc crc32 0 "c" "a" ⟨[("body",.binary (asBytes "hello"))],1⟩ 4).resolved none "a" =
        .ok (some (BlobWorld.textDoc "hello" 1)) ∧
      ((fresh spillConfig "c" none 0).putDoc crc32 0 "c" "a" (BlobWorld.textDoc "hello" 1) 4).inflated none "a" =
        .ok (some (BlobWorld.textDoc "\x00\x00\x00\x00\x00" 1)) := by
  exact ⟨rfl,rfl⟩

end StorageEngine

end HakoDB

import HakoDB.Memory.PageCache
import HakoDB.Storage.Crash

/-! Reads of segment files through the page cache and the mapping made at open. A file only grows behind its records, so a
place handed out by an append or a compaction leads to its value in every later state, by whichever way it is read. -/
namespace HakoDB
open ByteCodec HashMap

namespace MmapStore

/-- A slice of a mapping of the file's first bytes; one that reaches behind the mapping is all zeros. -/
def readSlice (file : Bytes) (size offset len : ℕ) : Bytes :=
  if size = 0 then List.replicate len 0
  else if size < offset+len then List.replicate len 0
  else (file.drop offset).take len

end MmapStore

namespace Segment

/-- The payload without its compression. -/
def unpack (zstd : Option Zstd) (storedLen : UInt32) (out : Bytes) : Res Bytes :=
  if storedLen >>> 31 = 1 then
    match zstd with
    | none => .error (.error (.storageError
        "segment payload is zstd-compressed but this build lacks the `compression` feature"))
    | some z =>
      match z.decodeAll out with
      | .ok raw => .ok raw
      | .error e => .error (.error (.storageError ("Zstd fail: "++e)))
  else .ok out

/-- What is made of the bytes behind the length word. -/
def openPayload (zstd : Option Zstd) (seg : Segment) (storedLen : UInt32) (out : Bytes) : Res Bytes := do
  let out ← match seg.encryption with
    | none => .ok out
    | some ctx => ctx.cipher.open' out
  unpack zstd storedLen out

theorem readAt_eq_openPayload (zstd : Option Zstd) (seg : Segment) (offset : UInt64) (len : UInt32) :
    seg.readAt zstd offset len =
      seg.openPayload zstd len ((readPadded seg.file offset.toNat (4+(len &&& 0x7FFFFFFF).toNat)).drop 4) := rfl

section growth
variable {zstd : Option Zstd} {seg seg' seg'' : Segment}

/-- The file is continued behind its end, with the same key. -/
structure Grows (seg seg' : Segment) : Prop where
  file : seg.file <+: seg'.file
  cipher : seg'.encryption.map EncryptionContext.cipher = seg.encryption.map EncryptionContext.cipher
  segmentId : seg'.segmentId = seg.segmentId

theorem Grows.refl (seg : Segment) : Grows seg seg := ⟨List.prefix_rfl,rfl,rfl⟩

theorem Grows.trans (h : Grows seg seg') (h' : Grows seg' seg'') : Grows seg seg'' :=
  ⟨h.file.trans h'.file,h'.cipher.trans h.cipher,h'.segmentId.trans h.segmentId⟩

/-- The place has the value, inside the file. -/
def Holds (zstd : Option Zstd) (seg : Segment) (place : UInt64 × UInt32) (value : Bytes) : Prop :=
  seg.Whole place.1 place.2 ∧ seg.readAt zstd place.1 place.2 = .ok value

variable {value raw : Bytes} {n : ℕ} {useCompression : Bool}

theorem Holds.grows {place : UInt64 × UInt32} (h : seg.Holds zstd place value) (hg : Grows seg seg') :
    seg'.Holds zstd place value := by
  obtain ⟨more,hmore⟩ := hg.file
  obtain ⟨hwhole,hread⟩ := h
  refine ⟨?_,?_⟩
  · unfold Whole at hwhole ⊢
    rw [← hmore,List.length_append]
    omega
  · rw [← hread]
    exact readAt_congr hg.cipher (by rw [← hmore,readPadded_append hwhole])

/-- One value more behind the end, at the place that was handed out for it. -/
structure Placed (zstd : Option Zstd) (seg seg' : Segment) (place : UInt64 × UInt32) (value : Bytes) : Prop where
  grows : Grows seg seg'
  offset : place.1.toNat = seg.file.length
  longer : seg.file.length < seg'.file.length
  holds : seg'.Holds zstd place value

theorem openPayload_sealPayload
    (hcipher : seg'.encryption.map EncryptionContext.cipher = seg.encryption.map EncryptionContext.cipher)
    (len : UInt32) (packed : Bytes) : seg'.openPayload zstd len (seg.sealPayload packed).1 = unpack zstd len packed := by
  unfold openPayload sealPayload
  cases henc : seg.encryption with
  | none =>
    have hnone : seg'.encryption = none := by simpa [henc] using hcipher
    simp only [hnone]
    rfl
  | some ctx =>
    obtain ⟨ctx',hsome,hctx⟩ : ∃ ctx',seg'.encryption = some ctx' ∧ ctx'.cipher = ctx.cipher := by simpa [henc] using hcipher
    simp only [hsome,hctx,Cipher.open'_encrypt]
    rfl

theorem placed_of_file {word : ℕ} {packed : Bytes} {len : UInt32}
    (hfile : seg'.file = seg.file++(leBytes 4 word++(seg.sealPayload packed).1))
    (hcipher : seg'.encryption.map EncryptionContext.cipher = seg.encryption.map EncryptionContext.cipher)
    (hid : seg'.segmentId = seg.segmentId) (hshort : seg.file.length < 2^64)
    (hlen : (len &&& 0x7FFFFFFF).toNat = (seg.sealPayload packed).1.length)
    (hunpack : unpack zstd len packed = .ok raw) :
    Placed zstd seg seg' (UInt64.ofNat seg.file.length,len) raw := by
  have hoffset : (UInt64.ofNat seg.file.length).toNat = seg.file.length := UInt64.toNat_ofNat_of_lt' hshort
  have hread : (readPadded seg'.file (UInt64.ofNat seg.file.length).toNat (4+(len &&& 0x7FFFFFFF).toNat)).drop 4 =
      (seg.sealPayload packed).1 := by
    rw [hfile,hoffset,hlen,readPadded,List.drop_left,List.take_of_length_le (by simp)]
    simp
  refine ⟨⟨⟨_,hfile.symm⟩,hcipher,hid⟩,hoffset,?_,?_,?_⟩
  · rw [hfile]
    simp
  · unfold Whole
    rw [hoffset,hlen,hfile]
    simp
  · rw [readAt_eq_openPayload,hread,openPayload_sealPayload hcipher,hunpack]

theorem appendOne_placed (zstd : Option Zstd) (hvalue : (seg.sealPayload value).1.length < 2^31)
    (hshort : seg.file.length < 2^64) :
    Placed zstd seg (seg.appendOne value).2 (seg.appendOne value).1 value := by
  obtain ⟨hlen,hbit⟩ := shortLength hvalue
  have hplace : (seg.appendOne value).1 = (UInt64.ofNat seg.file.length,UInt32.ofNat (seg.sealPayload value).1.length) := by
    unfold appendOne sealPayload
    cases seg.encryption <;> rfl
  have hid : (seg.appendOne value).2.segmentId = seg.segmentId := by
    unfold appendOne sealPayload
    cases seg.encryption <;> rfl
  rw [hplace]
  exact placed_of_file (seg.appendOne_file value) (seg.appendOne_cipher value) hid hshort hlen (if_neg hbit)

theorem flaggedLength (h : n < 2^31) :
    ((UInt32.ofNat n ||| compressionBit) &&& 0x7FFFFFFF).toNat = n ∧ (UInt32.ofNat n ||| compressionBit) >>> 31 = 1 := by
  have hn : (UInt32.ofNat n).toNat = n := UInt32.toNat_ofNat_of_lt' (by simp [UInt32.size]; omega)
  have hor : (UInt32.ofNat n ||| compressionBit).toNat = 2^31+n := by
    rw [UInt32.toNat_or,hn,Nat.or_comm]
    exact (Nat.two_pow_add_eq_or_of_lt h 1).symm
  constructor
  · rw [UInt32.toNat_and,hor]
    refine (Nat.and_two_pow_sub_one_eq_mod (2^31+n) 31).trans ?_
    omega
  · refine UInt32.toNat_inj.1 ?_
    rw [UInt32.toNat_shiftRight,hor]
    change (2^31+n) >>> 31 = 1
    rw [Nat.shiftRight_eq_div_pow]
    omega

/-- A payload is flagged exactly if it was compressed. -/
theorem packValue_cases (zstd : Option Zstd) (useCompression : Bool) (raw : Bytes) :
    packValue zstd useCompression raw = (raw,0) ∨ ∃ z packed,zstd = some z ∧ z.encodeAll raw = some packed ∧
      packValue zstd useCompression raw = (packed,compressionBit) := by
  unfold packValue
  cases zstd with
  | none => exact .inl rfl
  | some z =>
    dsimp only
    split
    · cases henc : z.encodeAll raw with
      | none => exact .inl rfl
      | some packed =>
        dsimp only
        split
        · exact .inr ⟨z,packed,rfl,henc,rfl⟩
        · exact .inl rfl
    · exact .inl rfl

/-- The stored length carries the payload's length and its flag, and the reader undoes what the writer did. -/
theorem storedLen_packValue (zstd : Option Zstd) (useCompression : Bool) (raw : Bytes) (h : n < 2^31) :
    ((UInt32.ofNat n ||| (packValue zstd useCompression raw).2) &&& 0x7FFFFFFF).toNat = n ∧
      unpack zstd (UInt32.ofNat n ||| (packValue zstd useCompression raw).2) (packValue zstd useCompression raw).1 = .ok raw := by
  rcases packValue_cases zstd useCompression raw with hraw | ⟨z,packed,rfl,henc,hpacked⟩
  · obtain ⟨hlen,hbit⟩ := shortLength h
    rw [hraw,UInt32.or_zero]
    exact ⟨hlen,if_neg hbit⟩
  · obtain ⟨hlen,hbit⟩ := flaggedLength h
    rw [hpacked]
    refine ⟨hlen,?_⟩
    unfold unpack
    rw [if_pos hbit]
    simp only [z.decode_encode raw packed henc]

theorem compactOne_placed (id : UInt64)
    (hpayload : (seg.sealPayload (packValue zstd useCompression raw).1).1.length < 2^31)
    (hshort : seg.file.length < 2^64) :
    ∃ place,(compactOne zstd useCompression id seg raw).1 = .segment id place.1 place.2 ∧
      Placed zstd seg (compactOne zstd useCompression id seg raw).2 place raw := by
  obtain ⟨hlen,hunpack⟩ := storedLen_packValue zstd useCompression raw hpayload
  have hfile : (compactOne zstd useCompression id seg raw).2.file = seg.file++(leBytes 4
      (UInt32.ofNat (seg.sealPayload (packValue zstd useCompression raw).1).1.length |||
        (packValue zstd useCompression raw).2).toNat++(seg.sealPayload (packValue zstd useCompression raw).1).1) := by
    unfold compactOne appendRawWithLen sealPayload
    cases seg.encryption <;> exact List.append_assoc _ _ _
  refine ⟨(UInt64.ofNat seg.file.length,_),?_,placed_of_file hfile ?_ ?_ hshort hlen hunpack⟩
  · unfold compactOne appendRawWithLen sealPayload
    cases seg.encryption <;> rfl
  · unfold compactOne appendRawWithLen sealPayload
    cases h : seg.encryption <;> simp [h,EncryptionContext.advance]
  · unfold compactOne appendRawWithLen sealPayload
    cases seg.encryption <;> rfl

/-- Values placed one behind the other. -/
inductive PlacedAll (zstd : Option Zstd) : Segment → List ((UInt64 × UInt32) × Bytes) → Segment → Prop
  | nil (seg : Segment) : PlacedAll zstd seg [] seg
  | cons {seg mid last : Segment} {place : UInt64 × UInt32} {value : Bytes} {rest : List ((UInt64 × UInt32) × Bytes)}
      (head : Placed zstd seg mid place value) (tail : PlacedAll zstd mid rest last) :
      PlacedAll zstd seg ((place,value)::rest) last

namespace PlacedAll
variable {ps : List ((UInt64 × UInt32) × Bytes)}

theorem grows (h : PlacedAll zstd seg ps seg') : Grows seg seg' := by
  induction h with
  | nil seg => exact .refl seg
  | cons head _ ih => exact head.grows.trans ih

theorem holds (h : PlacedAll zstd seg ps seg') : ∀ e ∈ ps,seg'.Holds zstd e.1 e.2 := by
  induction h with
  | nil => simp
  | cons head tail ih =>
    intro e he
    rcases List.mem_cons.1 he with rfl | he
    · exact head.holds.grows tail.grows
    · exact ih e he

theorem behind (h : PlacedAll zstd seg ps seg') : ∀ e ∈ ps,seg.file.length ≤ e.1.1.toNat := by
  induction h with
  | nil => simp
  | cons head tail ih =>
    intro e he
    rcases List.mem_cons.1 he with rfl | he
    · exact head.offset.ge
    · exact head.longer.le.trans (ih e he)

/-- No two values have one offset. -/
theorem eq_of_offset (h : PlacedAll zstd seg ps seg') : ∀ e ∈ ps,∀ e' ∈ ps,e.1.1 = e'.1.1 → e = e' := by
  induction h with
  | nil => simp
  | @cons seg mid last place value rest head tail ih =>
    have hother : ∀ e ∈ rest,e.1.1.toNat ≠ place.1.toNat := fun e he =>
      (head.offset.trans_lt (head.longer.trans_le (tail.behind e he))).ne'
    intro e he e' he' hoffset
    rcases List.mem_cons.1 he with rfl | he <;> rcases List.mem_cons.1 he' with rfl | he'
    · rfl
    · exact (hother e' he' (congrArg UInt64.toNat hoffset.symm)).elim
    · exact (hother e he (congrArg UInt64.toNat hoffset)).elim
    · exact ih e he e' he' hoffset

end PlacedAll

theorem sealPayload_length_congr (h : seg'.encryption.map EncryptionContext.cipher = seg.encryption.map EncryptionContext.cipher)
    (payload : Bytes) : (seg'.sealPayload payload).1.length = (seg.sealPayload payload).1.length := by
  unfold sealPayload
  cases henc : seg.encryption with
  | none =>
    have hnone : seg'.encryption = none := by simpa [henc] using h
    simp only [hnone]
  | some ctx =>
    obtain ⟨ctx',hsome,-⟩ : ∃ ctx',seg'.encryption = some ctx' ∧ ctx'.cipher = ctx.cipher := by simpa [henc] using h
    simp only [hsome,EncryptionContext.encrypt_length]

theorem appendOne_grows (seg : Segment) (value : Bytes) : Grows seg (seg.appendOne value).2 := by
  refine ⟨⟨_,(seg.appendOne_file value).symm⟩,seg.appendOne_cipher value,?_⟩
  unfold appendOne sealPayload
  cases seg.encryption <;> rfl

theorem appendBatch_grows (seg : Segment) (values : List Bytes) : Grows seg (seg.appendBatch values).2 := by
  induction values generalizing seg with
  | nil => exact .refl seg
  | cons value values ih => exact (seg.appendOne_grows value).trans (ih _)

theorem appendBatch_placedAll {values : List Bytes} (hvalues : ∀ v ∈ values,(seg.sealPayload v).1.length < 2^31)
    (hroom : (seg.appendBatch values).2.file.length < 2^64) :
    PlacedAll zstd seg ((seg.appendBatch values).1.zip values) (seg.appendBatch values).2 := by
  induction values generalizing seg with
  | nil => exact .nil seg
  | cons value values ih =>
    have hgrows := (seg.appendBatch_grows (value::values)).file.length_le
    have hhead := appendOne_placed zstd (hvalues value List.mem_cons_self) (hgrows.trans_lt hroom)
    refine .cons hhead (ih (fun v hv => ?_) hroom)
    rw [sealPayload_length_congr hhead.grows.cipher]
    exact hvalues v (List.mem_cons_of_mem _ hv)

theorem compactOne_grows (zstd : Option Zstd) (useCompression : Bool) (id : UInt64) (seg : Segment) (raw : Bytes) :
    Grows seg (compactOne zstd useCompression id seg raw).2 := by
  unfold compactOne appendRawWithLen sealPayload
  cases h : seg.encryption with
  | none => exact ⟨⟨_,(List.append_assoc _ _ _).symm⟩,by simp [h],rfl⟩
  | some ctx => exact ⟨⟨_,(List.append_assoc _ _ _).symm⟩,by simp [h,EncryptionContext.advance],rfl⟩

theorem compactEntries_grows (zstd : Option Zstd) (useCompression : Bool) (id : UInt64) (seg : Segment)
    (entries : List (String × Bytes)) : Grows seg (compactEntries zstd useCompression id seg entries).2 := by
  induction entries generalizing seg with
  | nil => exact .refl seg
  | cons e entries ih => exact (compactOne_grows zstd useCompression id seg e.2).trans (ih _)

/-- Compaction places the values of its entries, each under the pointer it makes for the key. -/
theorem compactEntries_placedAll {id : UInt64} {entries : List (String × Bytes)}
    (hpayloads : ∀ e ∈ entries,(seg.sealPayload (packValue zstd useCompression e.2).1).1.length < 2^31)
    (hroom : (compactEntries zstd useCompression id seg entries).2.file.length < 2^64) :
    ∃ ts : List (String × (UInt64 × UInt32) × Bytes),entries = ts.map (fun t => (t.1,t.2.2)) ∧
      (compactEntries zstd useCompression id seg entries).1 = ts.map (fun t => (t.1,.segment id t.2.1.1 t.2.1.2)) ∧
        PlacedAll zstd seg (ts.map Prod.snd) (compactEntries zstd useCompression id seg entries).2 := by
  induction entries generalizing seg with
  | nil => exact ⟨[],rfl,rfl,.nil seg⟩
  | cons e entries ih =>
    have hgrows := (compactEntries_grows zstd useCompression id seg (e::entries)).file.length_le
    obtain ⟨place,hpointer,hhead⟩ := compactOne_placed id (hpayloads e List.mem_cons_self) (hgrows.trans_lt hroom)
    have hrest : ∀ e' ∈ entries,((compactOne zstd useCompression id seg e.2).2.sealPayload
        (packValue zstd useCompression e'.2).1).1.length < 2^31 := by
      intro e' he'
      rw [sealPayload_length_congr hhead.grows.cipher]
      exact hpayloads e' (List.mem_cons_of_mem _ he')
    obtain ⟨ts,hentries,hpointers,htail⟩ := ih hrest hroom
    refine ⟨(e.1,place,e.2)::ts,by rw [List.map_cons,← hentries],?_,.cons hhead htail⟩
    rw [List.map_cons,← hpointers,← hpointer]
    rfl

end growth

end Segment

/-- An open segment with the size its mapping had when it was opened. -/
structure MappedSegment where
  segment : Segment
  size : ℕ

namespace MappedSegment

def open' (file : Bytes) (segmentId : UInt64) (encryption : Option EncryptionContext) : MappedSegment :=
  ⟨Segment.openFile file segmentId encryption,file.length⟩

/-- The bytes come from the mapping if they were there when it was made, else from the file. -/
def readBuffer (m : MappedSegment) (offset : UInt64) (total : ℕ) : Bytes :=
  if (offset+UInt64.ofNat total).toNat ≤ m.size then MmapStore.readSlice m.segment.file m.size offset.toNat total
  else readPadded m.segment.file offset.toNat total

def readAt (zstd : Option Zstd) (m : MappedSegment) (cache : PageCache) (offset : UInt64) (storedLen : UInt32)
    (useCache : Bool) : Res Bytes × PageCache :=
  let cacheKey : BlockKey := ⟨m.segment.segmentId,offset⟩
  let (hit,cache) := if useCache then cache.get cacheKey else (none,cache)
  match hit with
  | some data => (.ok data,cache)
  | none =>
    let total := 4+(storedLen &&& 0x7FFFFFFF).toNat
    match m.segment.openPayload zstd storedLen ((m.readBuffer offset total).drop 4) with
    | .error e => (.error e,cache)
    | .ok out => (.ok out,if useCache then cache.put cacheKey out else cache)

end MappedSegment

/-- The longest file that the system lets a write produce. -/
def maxFileLen : ℕ := 2^63-1

/-- A place that was returned for a value. -/
structure Issued where
  segmentId : UInt64
  offset : UInt64
  len : UInt32
  value : Bytes
  deriving DecidableEq

/-- The segments of a shard with their shared cache. -/
structure SegmentSet where
  cache : PageCache
  segments : HMap UInt64 MappedSegment

inductive SegmentCall
  | openFresh (id : UInt64) (encryption : Option EncryptionContext)
  | reopen (id : UInt64)
  | newCache (maxBytes : ℕ)
  | appendBatch (id : UInt64) (values : List Bytes)
  | compactSegment (id : UInt64) (entries : List (String × Bytes)) (useCompression : Bool)
  | readAt (id offset : UInt64) (storedLen : UInt32) (useCache : Bool)

namespace SegmentSet

/-- A write past the longest file fails and leaves what still went in. -/
def written (st : SegmentSet) (id : UInt64) (m : MappedSegment) (segment : Segment) : SegmentSet :=
  {st with segments := st.segments.insert id {m with segment := {segment with file := segment.file.take maxFileLen}}}

def issuedAt (id : UInt64) (e : (UInt64 × UInt32) × Bytes) : Issued := ⟨id,e.1.1,e.1.2,e.2⟩

/-- The pointer that the rebuilt index has for a key was returned for the key's last value. -/
def entryOf (index : HMap String Pointer) (entries : List (String × Bytes)) (key : String) : Option Issued :=
  match index.lookup key,lastValue key entries with
  | some (.segment id offset len),some value => some ⟨id,offset,len,value⟩
  | _,_ => none

/-- A call with what it returned for the values that it was given. -/
def call (zstd : Option Zstd) (st : SegmentSet) : SegmentCall → SegmentSet × List Issued
  | .openFresh id encryption => ({st with segments := st.segments.insert id (.open' [] id encryption)},[])
  | .reopen id =>
    match st.segments.lookup id with
    | none => (st,[])
    | some m => ({st with segments := st.segments.insert id (.open' m.segment.file id m.segment.encryption)},[])
  | .newCache maxBytes => ({st with cache := .new maxBytes},[])
  | .appendBatch id values =>
    match st.segments.lookup id with
    | none => (st,[])
    | some m =>
      let (places,segment) := m.segment.appendBatch values
      (st.written id m segment,if segment.file.length ≤ maxFileLen then (places.zip values).map (issuedAt id) else [])
  | .compactSegment id entries useCompression =>
    match st.segments.lookup id with
    | none => (st,[])
    | some m =>
      let (index,segment) := m.segment.compactSegment zstd entries id useCompression
      (st.written id m segment,
        if segment.file.length ≤ maxFileLen then (entries.map Prod.fst).filterMap (entryOf index entries) else [])
  | .readAt id offset storedLen useCache =>
    match st.segments.lookup id with
    | none => (st,[])
    | some m => ({st with cache := (m.readAt zstd st.cache offset storedLen useCache).2},[])

/-- A run of calls with all places returned on the way. -/
def run (zstd : Option Zstd) : SegmentSet × List Issued → List SegmentCall → SegmentSet × List Issued
  | acc,[] => acc
  | acc,c::calls => run zstd ((acc.1.call zstd c).1,acc.2++(acc.1.call zstd c).2) calls

/-- Segments are opened on new files, compaction fills a segment nothing was written to, payloads are shorter than 2^31
bytes, and reads are made with places that were returned. -/
def Allowed (zstd : Option Zstd) (acc : SegmentSet × List Issued) : SegmentCall → Prop
  | .openFresh id _ => acc.1.segments.lookup id = none
  | .reopen _ | .newCache _ => True
  | .appendBatch id values => ∀ m,acc.1.segments.lookup id = some m →
    ∀ v ∈ values,(m.segment.sealPayload v).1.length < 2^31
  | .compactSegment id entries useCompression => ∀ m,acc.1.segments.lookup id = some m → m.segment.file = [] ∧
    ∀ e ∈ entries,(m.segment.sealPayload (Segment.packValue zstd useCompression e.2).1).1.length < 2^31
  | .readAt id offset storedLen _ => ∃ i ∈ acc.2,i.segmentId = id ∧ i.offset = offset ∧ i.len = storedLen

/-- A run all of whose calls are allowed where they are made. -/
def AllowedRun (zstd : Option Zstd) : SegmentSet × List Issued → List SegmentCall → Prop
  | _,[] => True
  | acc,c::calls => Allowed zstd acc c ∧ AllowedRun zstd ((acc.1.call zstd c).1,acc.2++(acc.1.call zstd c).2) calls

/-- Every place that was returned has its value, the only one at its offset, and the cache has nothing else. -/
structure Faithful (zstd : Option Zstd) (acc : SegmentSet × List Issued) : Prop where
  segment : ∀ id m,acc.1.segments.lookup id = some m →
    m.segment.segmentId = id ∧ m.size ≤ m.segment.file.length ∧ m.segment.file.length ≤ maxFileLen
  stored : ∀ i ∈ acc.2,∃ m,acc.1.segments.lookup i.segmentId = some m ∧ m.segment.Holds zstd (i.offset,i.len) i.value
  single : ∀ i ∈ acc.2,∀ j ∈ acc.2,i.segmentId = j.segmentId → i.offset = j.offset → i = j
  cached : ∀ key data,acc.1.cache.blocks.lookup key = some data →
    ∃ i ∈ acc.2,key = ⟨i.segmentId,i.offset⟩ ∧ data = i.value

end SegmentSet

namespace MappedSegment

variable {m : MappedSegment} {offset : UInt64}

/-- The mapping has what the file has, so for a whole record it does not matter which of them is read. -/
theorem readBuffer_eq {total : ℕ} (hwhole : offset.toNat+total ≤ m.segment.file.length)
    (hmax : m.segment.file.length ≤ maxFileLen) :
    m.readBuffer offset total = readPadded m.segment.file offset.toNat total := by
  have hlimit : maxFileLen < 2^64 := by decide
  have hsum : (offset+UInt64.ofNat total).toNat = offset.toNat+total := by
    rw [UInt64.toNat_add,UInt64.toNat_ofNat_of_lt' (by simp [UInt64.size]; omega)]
    omega
  unfold readBuffer
  rw [hsum]
  split
  · rename_i hmapped
    have hslice : ((m.segment.file.drop offset.toNat).take total).length = total := by
      simp
      omega
    unfold MmapStore.readSlice readPadded
    by_cases hzero : m.size = 0
    · have : total = 0 := by omega
      simp [this]
    · rw [if_neg hzero,if_neg (by omega)]
      simp [hslice]
  · rfl

/-- A read of a place that has its value, with a cache that has nothing else under its key. -/
theorem readAt_holds {zstd : Option Zstd} {cache : PageCache} {len : UInt32} {value : Bytes}
    (h : m.segment.Holds zstd (offset,len) value) (hmax : m.segment.file.length ≤ maxFileLen)
    (hcached : ∀ data,cache.blocks.lookup ⟨m.segment.segmentId,offset⟩ = some data → data = value) (useCache : Bool) :
    (m.readAt zstd cache offset len useCache).1 = .ok value ∧
      ∀ key data,(m.readAt zstd cache offset len useCache).2.blocks.lookup key = some data →
        key = ⟨m.segment.segmentId,offset⟩ ∧ data = value ∨ cache.blocks.lookup key = some data := by
  have hopen : m.segment.openPayload zstd len
      ((m.readBuffer offset (4+(len &&& 0x7FFFFFFF).toNat)).drop 4) = .ok value := by
    rw [readBuffer_eq h.1 hmax]
    exact h.2
  unfold readAt
  cases useCache with
  | false =>
    simp only [Bool.false_eq_true,if_false,hopen]
    exact ⟨trivial,fun key data hlookup => .inr hlookup⟩
  | true =>
    have hget := cache.get_fst ⟨m.segment.segmentId,offset⟩
    have hblocks := cache.get_blocks ⟨m.segment.segmentId,offset⟩
    simp only [if_true,hget]
    cases hhit : cache.blocks.lookup ⟨m.segment.segmentId,offset⟩ with
    | some data =>
      rw [hcached data hhit]
      exact ⟨rfl,fun key data hlookup => .inr (by rwa [hblocks] at hlookup)⟩
    | none =>
      simp only [hopen]
      refine ⟨trivial,fun key data hlookup => ?_⟩
      have := PageCache.put_lookup hlookup
      rwa [hblocks] at this

end MappedSegment

namespace SegmentSet
variable {zstd : Option Zstd} {st : SegmentSet} {issued : List Issued}

theorem Faithful.new (zstd : Option Zstd) (maxBytes : ℕ) : Faithful zstd (⟨.new maxBytes,∅⟩,[]) where
  segment := by simp
  stored := by simp
  single := by simp
  cached := by simp [PageCache.new]

variable {i : Issued} {m : MappedSegment} {id : UInt64} {new : List Issued} {seg : Segment}

theorem Faithful.readAt (h : Faithful zstd (st,issued)) (hi : i ∈ issued)
    (hm : st.segments.lookup i.segmentId = some m) (useCache : Bool) :
    (m.readAt zstd st.cache i.offset i.len useCache).1 = .ok i.value ∧
      Faithful zstd ({st with cache := (m.readAt zstd st.cache i.offset i.len useCache).2},issued) := by
  obtain ⟨hid,-,hmax⟩ := h.segment _ m hm
  obtain ⟨m',hm',hholds⟩ := h.stored i hi
  obtain rfl : m' = m := Option.some.inj (hm'.symm.trans hm)
  have honly : ∀ data,st.cache.blocks.lookup ⟨m'.segment.segmentId,i.offset⟩ = some data → data = i.value := by
    intro data hdata
    obtain ⟨j,hj,hkey,rfl⟩ := h.cached _ data hdata
    obtain ⟨hsegment,hoffset⟩ := BlockKey.mk.inj hkey
    rw [h.single i hi j hj (hid.symm.trans hsegment) hoffset]
  obtain ⟨hvalue,hblocks⟩ := MappedSegment.readAt_holds hholds hmax honly useCache
  refine ⟨hvalue,h.segment,h.stored,h.single,fun key data hdata => ?_⟩
  rcases hblocks key data hdata with ⟨hkey,hdata⟩ | hdata
  · exact ⟨i,hi,by rw [hkey,hid],hdata⟩
  · exact h.cached key data hdata

/-- A segment that grew, with places behind its old end. -/
theorem Faithful.grow (h : Faithful zstd (st,issued)) {grown : MappedSegment} (hm : st.segments.lookup id = some m)
    (hgrows : m.segment.Grows grown.segment) (hsize : grown.size ≤ grown.segment.file.length)
    (hmax : grown.segment.file.length ≤ maxFileLen)
    (hnew : ∀ i ∈ new,i.segmentId = id ∧ grown.segment.Holds zstd (i.offset,i.len) i.value ∧
      m.segment.file.length ≤ i.offset.toNat) (hsingle : ∀ i ∈ new,∀ j ∈ new,i.offset = j.offset → i = j) :
    Faithful zstd ({st with segments := st.segments.insert id grown},issued++new) := by
  have hid := (h.segment id m hm).1
  have hold : ∀ i ∈ issued,∀ j ∈ new,i.segmentId = j.segmentId → i.offset ≠ j.offset := by
    intro i hi j hj hsame hoffset
    obtain ⟨hjid,-,hbehind⟩ := hnew j hj
    obtain ⟨m',hm',hwhole,-⟩ := h.stored i hi
    rw [hsame,hjid,hm] at hm'
    obtain rfl := Option.some.inj hm'
    unfold Segment.Whole at hwhole
    rw [hoffset] at hwhole
    dsimp only at hwhole
    omega
  constructor
  · intro id' m' hm'
    rw [lookup_insert_ite] at hm'
    split at hm'
    · rename_i heq
      obtain rfl := Option.some.inj hm'
      exact ⟨by rw [heq]; exact hgrows.segmentId.trans hid,hsize,hmax⟩
    · exact h.segment id' m' hm'
  · intro i hi
    rw [lookup_insert_ite]
    rcases List.mem_append.1 hi with hi | hi
    · obtain ⟨m',hm',hholds⟩ := h.stored i hi
      split
      · rename_i heq
        rw [heq,hm] at hm'
        obtain rfl := Option.some.inj hm'
        exact ⟨_,rfl,hholds.grows hgrows⟩
      · exact ⟨m',hm',hholds⟩
    · obtain ⟨hsame,hholds,-⟩ := hnew i hi
      rw [if_pos hsame]
      exact ⟨_,rfl,hholds⟩
  · intro i hi j hj hsame hoffset
    rcases List.mem_append.1 hi with hi | hi <;> rcases List.mem_append.1 hj with hj | hj
    · exact h.single i hi j hj hsame hoffset
    · exact (hold i hi j hj hsame hoffset).elim
    · exact (hold j hj i hi hsame.symm hoffset.symm).elim
    · exact hsingle i hi j hj hoffset
  · intro key data hdata
    obtain ⟨i,hi,hfound⟩ := h.cached key data hdata
    exact ⟨i,List.mem_append_left _ hi,hfound⟩

/-- Values placed one behind the other give new places. -/
theorem placedAll_issued {seg' : Segment} {ps : List ((UInt64 × UInt32) × Bytes)} (h : seg.PlacedAll zstd ps seg')
    (id : UInt64) (hnew : new ⊆ ps.map (issuedAt id)) :
    (∀ i ∈ new,i.segmentId = id ∧ seg'.Holds zstd (i.offset,i.len) i.value ∧ seg.file.length ≤ i.offset.toNat) ∧
      ∀ i ∈ new,∀ j ∈ new,i.offset = j.offset → i = j := by
  constructor
  · intro i hi
    obtain ⟨e,he,rfl⟩ := List.mem_map.1 (hnew hi)
    exact ⟨rfl,h.holds e he,h.behind e he⟩
  · intro i hi j hj hoffset
    obtain ⟨e,he,rfl⟩ := List.mem_map.1 (hnew hi)
    obtain ⟨e',he',rfl⟩ := List.mem_map.1 (hnew hj)
    rw [h.eq_of_offset e he e' he' hoffset]

theorem Faithful.written (h : Faithful zstd (st,issued)) (hm : st.segments.lookup id = some m)
    (hgrows : m.segment.Grows seg)
    (hnew : seg.file.length ≤ maxFileLen → (∀ i ∈ new,i.segmentId = id ∧ seg.Holds zstd (i.offset,i.len) i.value ∧
      m.segment.file.length ≤ i.offset.toNat) ∧ ∀ i ∈ new,∀ j ∈ new,i.offset = j.offset → i = j) :
    Faithful zstd (st.written id m seg,issued++if seg.file.length ≤ maxFileLen then new else []) := by
  obtain ⟨-,hsize,hold⟩ := h.segment id m hm
  have hcut : m.segment.Grows {seg with file := seg.file.take maxFileLen} := by
    refine ⟨?_,hgrows.cipher,hgrows.segmentId⟩
    exact List.prefix_take_iff.2 ⟨hgrows.file,hold⟩
  split
  · rename_i hfits
    obtain ⟨hplaces,hsingle⟩ := hnew hfits
    have hwhole : {seg with file := seg.file.take maxFileLen} = seg := by rw [List.take_of_length_le hfits]
    unfold SegmentSet.written
    rw [hwhole]
    exact h.grow hm hgrows (hsize.trans hgrows.file.length_le) hfits hplaces hsingle
  · exact h.grow hm hcut (hsize.trans hcut.file.length_le) (List.length_take_le _ _) (by simp) (by simp)

theorem Faithful.appendBatch (h : Faithful zstd (st,issued)) {values : List Bytes}
    (hm : st.segments.lookup id = some m) (hvalues : ∀ v ∈ values,(m.segment.sealPayload v).1.length < 2^31) :
    Faithful zstd (st.written id m (m.segment.appendBatch values).2,
      issued++if (m.segment.appendBatch values).2.file.length ≤ maxFileLen then
        ((m.segment.appendBatch values).1.zip values).map (issuedAt id) else []) := by
  refine h.written hm (m.segment.appendBatch_grows values) fun hfits => ?_
  exact placedAll_issued (Segment.appendBatch_placedAll hvalues (hfits.trans_lt (by decide))) id (List.Subset.refl _)

/-- The rebuilt index has the pointer made for the last value of a key. -/
theorem entryOf_placed {ts : List (String × (UInt64 × UInt32) × Bytes)} {key : String}
    (h : entryOf (insertAll ∅ (ts.map fun t => (t.1,.segment id t.2.1.1 t.2.1.2))) (ts.map fun t => (t.1,t.2.2)) key = some i) :
    i ∈ (ts.map Prod.snd).map (issuedAt id) := by
  have hpointer := lookup_insertAll (∅ : HMap String Pointer) (ts.map fun t => (t.1,.segment id t.2.1.1 t.2.1.2)) key
  rw [lastValue_map,Finmap.lookup_empty,Option.or_none] at hpointer
  have hvalue := lastValue_map Prod.fst (fun t : String × (UInt64 × UInt32) × Bytes => t.2.2) key ts
  rw [entryOf,hpointer,hvalue] at h
  cases hlast : (ts.filter fun t => t.1 = key).getLast? with
  | none => simp [hlast] at h
  | some t =>
    rw [hlast] at h
    obtain rfl := Option.some.inj h
    exact List.mem_map_of_mem (List.mem_map_of_mem (List.mem_of_mem_filter (List.mem_of_getLast? hlast)))

theorem Faithful.compactSegment (h : Faithful zstd (st,issued)) {entries : List (String × Bytes)}
    {useCompression : Bool} (hm : st.segments.lookup id = some m) (hfresh : m.segment.file = [])
    (hpayloads : ∀ e ∈ entries,(m.segment.sealPayload (Segment.packValue zstd useCompression e.2).1).1.length < 2^31) :
    Faithful zstd (st.written id m (m.segment.compactSegment zstd entries id useCompression).2,
      issued++if (m.segment.compactSegment zstd entries id useCompression).2.file.length ≤ maxFileLen then
        (entries.map Prod.fst).filterMap (entryOf (m.segment.compactSegment zstd entries id useCompression).1 entries)
          else []) := by
  have hempty : ({m.segment with file := []} : Segment) = m.segment := by rw [← hfresh]
  have hcompact : m.segment.compactSegment zstd entries id useCompression =
      (insertAll ∅ (Segment.compactEntries zstd useCompression id m.segment entries).1,
        (Segment.compactEntries zstd useCompression id m.segment entries).2) := by
    rw [Segment.compactSegment,hempty]
  rw [hcompact]
  refine h.written hm (Segment.compactEntries_grows zstd useCompression id m.segment entries) fun hfits => ?_
  obtain ⟨ts,hentries,hpointers,hplaced⟩ := Segment.compactEntries_placedAll hpayloads (hfits.trans_lt (by decide))
  refine placedAll_issued hplaced id fun i hi => ?_
  obtain ⟨key,-,hentry⟩ := List.mem_filterMap.1 hi
  dsimp only at hentry
  rw [hpointers] at hentry
  exact entryOf_placed (hentries ▸ hentry)

theorem Faithful.openFresh (h : Faithful zstd (st,issued)) (hid : st.segments.lookup id = none)
    (encryption : Option EncryptionContext) :
    Faithful zstd ({st with segments := st.segments.insert id (.open' [] id encryption)},issued) := by
  refine ⟨fun id' m hm => ?_,fun i hi => ?_,h.single,h.cached⟩
  · rw [lookup_insert_ite] at hm
    split at hm
    · rename_i heq
      obtain rfl := Option.some.inj hm
      exact ⟨heq.symm,le_rfl,Nat.zero_le _⟩
    · exact h.segment id' m hm
  · obtain ⟨m,hm,hholds⟩ := h.stored i hi
    have hother : i.segmentId ≠ id := fun heq => by
      rw [heq,hid] at hm
      cases hm
    exact ⟨m,by rw [lookup_insert_ite,if_neg hother]; exact hm,hholds⟩

theorem Faithful.reopen (h : Faithful zstd (st,issued)) (hm : st.segments.lookup id = some m) :
    Faithful zstd ({st with segments := st.segments.insert id (.open' m.segment.file id m.segment.encryption)},issued) := by
  obtain ⟨hid,-,hmax⟩ := h.segment id m hm
  have hgrows : m.segment.Grows (MappedSegment.open' m.segment.file id m.segment.encryption).segment :=
    ⟨List.prefix_rfl,rfl,hid.symm⟩
  have hopened : Faithful zstd (_,issued++[]) := h.grow hm hgrows le_rfl hmax (by simp) (by simp)
  rwa [List.append_nil] at hopened

/-- Every call that is allowed keeps the places and the cache right. -/
theorem Faithful.call (h : Faithful zstd (st,issued)) {c : SegmentCall} (hok : Allowed zstd (st,issued) c) :
    Faithful zstd ((st.call zstd c).1,issued++(st.call zstd c).2) := by
  have hsame : Faithful zstd (st,issued++[]) := by rwa [List.append_nil]
  cases c with
  | openFresh id encryption =>
    have hopened := h.openFresh hok encryption
    rwa [← List.append_nil issued] at hopened
  | newCache maxBytes =>
    refine ⟨hsame.segment,hsame.stored,hsame.single,fun key data hdata => ?_⟩
    simp [SegmentSet.call,PageCache.new] at hdata
  | reopen id =>
    rw [SegmentSet.call]
    cases hm : st.segments.lookup id with
    | none => exact hsame
    | some m =>
      have hopened := h.reopen hm
      rwa [← List.append_nil issued] at hopened
  | appendBatch id values =>
    rw [SegmentSet.call]
    cases hm : st.segments.lookup id with
    | none => exact hsame
    | some m => exact h.appendBatch hm (hok m hm)
  | compactSegment id entries useCompression =>
    rw [SegmentSet.call]
    cases hm : st.segments.lookup id with
    | none => exact hsame
    | some m =>
      obtain ⟨hfresh,hpayloads⟩ := hok m hm
      exact h.compactSegment hm hfresh hpayloads
  | readAt id offset storedLen useCache =>
    rw [SegmentSet.call]
    cases hm : st.segments.lookup id with
    | none => exact hsame
    | some m =>
      obtain ⟨i,hi,rfl,rfl,rfl⟩ := hok
      have hread := (h.readAt hi hm useCache).2
      rwa [← List.append_nil issued] at hread

theorem Faithful.run {calls : List SegmentCall} {acc : SegmentSet × List Issued} (h : Faithful zstd acc)
    (hok : AllowedRun zstd acc calls) : Faithful zstd (SegmentSet.run zstd acc calls) := by
  induction calls generalizing acc with
  | nil => exact h
  | cons c calls ih => exact ih (h.call hok.1) hok.2

/-- A cache of two bytes: the second read drops what the first one put there, and the third comes from a new mapping. -/
def shortCalls : List SegmentCall :=
  [.openFresh 0 none,.appendBatch 0 [[1,2],[3]],.readAt 0 0 2 true,.readAt 0 6 1 true,.reopen 0,.readAt 0 0 2 true]

end SegmentSet

end HakoDB

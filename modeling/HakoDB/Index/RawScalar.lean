import HakoDB.Document.Accepted
import HakoDB.Document.Views
import HakoDB.Index.Manager

/-! The key of a stored value, taken from its bytes. For values that hold no others it is the key of the decoded
value, and both refuse the same bytes. -/
namespace HakoDB
open ByteCodec Varint

/-- A short text between its length and what follows, left as bytes. -/
def readShortSpan (bs : Bytes) : Option (Bytes × Bytes) := do
  let (l,bs) ← readByte bs
  take? l.toNat bs

/-- What is appended for one value; nothing is appended where the bytes are refused. -/
def rawScalar (tag : UInt8) (data : Bytes) : Option Bytes :=
  if tag = 0xC0 then some [0]
  else if tag = 0xC1 then some [0]
  else if tag = 0xC2 then some [1,1]
  else if tag = 0xC3 then some [1,0]
  else if tag.toNat/16 = 1 then some (2::beBytes 8 (tag.toNat%16))
  else if tag.toNat/8 = 8 then do
    let (s,_) ← take? (tag.toNat%8) data
    let _ ← fromUtf8 s
    return 4::beBytes 4 s.length++s
  else match tag.toNat with
    | 3 => (decodeVarint (data.drop 4)).map fun raw => 2::beBytes 8 (zigzagDecode raw).toUInt64.toNat
    | 7 => (decodeVarint (data.drop 4)).map fun raw => 6::beBytes 8 (zigzagDecode raw).toUInt64.toNat
    | 4 => (take? 8 (data.drop 4)).map fun f => 3::beBytes 8 (leNat f.1)
    | 5 => do
      let (l,data) ← take? 4 data
      let (body,_) ← take? (leNat l) data
      let _ ← fromUtf8 body
      return 4::beBytes 4 body.length++body
    | 6 => do
      let (l,data) ← take? 4 data
      let (body,_) ← take? (leNat l) data
      return 5::beBytes 4 body.length++body
    | 8 | 9 => none
    | 10 => do
      let (col,data) ← readShortSpan (data.drop 4)
      let (doc,_) ← readShortSpan data
      let _ ← fromUtf8 col
      let _ ← fromUtf8 doc
      if 255 < col.length ∨ 255 < doc.length then none
      return 10::UInt8.ofNat col.length::col++UInt8.ofNat doc.length::doc
    | 11 => do
      let (off,data) ← take? 8 (data.drop 4)
      let (len,_) ← take? 4 data
      return 11::beBytes 8 (leNat off)++beBytes 4 (leNat len)
    | _ => some [0]

/-- Whether the value has such a key, and the buffer afterwards. -/
def encodeRawScalar (tag : UInt8) (data out : Bytes) : Bool × Bytes :=
  match rawScalar tag data with
  | some key => (true,out++key)
  | none => (false,out)

theorem inline_int (k : ℕ) (h : k < 16) : (Int64.ofInt k).toUInt64.toNat = k := by
  interval_cases k <;> rfl

theorem readShortText_eq (bs : Bytes) :
    readShortText bs = (readShortSpan bs).bind fun r => (fromUtf8 r.1).map fun s => (s,r.2) := by
  simp only [readShortText,readShortSpan,Option.bind_eq_bind,Option.bind_assoc,Option.pure_def,Option.map_eq_bind,
    Function.comp_def]

theorem shortText_of_readShortSpan {bs span rest : Bytes} {s : String} (h : readShortSpan bs = some (span,rest))
    (hs : fromUtf8 span = some s) : span.length ≤ 255 ∧ shortText s = UInt8.ofNat span.length::span := by
  obtain ⟨⟨l,more⟩,-,h⟩ := Option.bind_eq_some_iff.1 h
  have hl := l.toNat_lt
  have hlen := (take?_eq_some h).2
  rw [shortText,asBytes_of_fromUtf8 hs]
  exact ⟨by omega,rfl⟩

theorem leNat_toNat_u64 {w bs rest : Bytes} (h : take? 8 bs = some (w,rest)) : (UInt64.ofNat (leNat w)).toNat = leNat w := by
  have hlt := leNat_lt w
  rw [(take?_eq_some h).2] at hlt
  exact UInt64.toNat_ofNat_of_lt' hlt

theorem leNat_toNat_u32 {w bs rest : Bytes} (h : take? 4 bs = some (w,rest)) : (UInt32.ofNat (leNat w)).toNat = leNat w := by
  have hlt := leNat_lt w
  rw [(take?_eq_some h).2] at hlt
  exact UInt32.toNat_ofNat_of_lt' hlt

section arms
variable (data : Bytes)

theorem rawText_eq (bs : Bytes) : ((fromUtf8 bs).bind fun _ => some (4::beBytes 4 bs.length++bs)) =
    ((fromUtf8 bs).bind fun s => some (Value.string s)).map fun v => (encodeScalar v).bytes := by
  cases h : fromUtf8 bs with
  | none => rfl
  | some s => simp [encodeScalar,asBytes_of_fromUtf8 h]

theorem rawReference_eq : rawScalar 10 data = (decodeValue 10 data).map fun v => (encodeScalar v).bytes := by
  have hraw : rawScalar 10 data = (readShortSpan (data.drop 4)).bind fun c => (readShortSpan c.2).bind fun d =>
      (fromUtf8 c.1).bind fun _ => (fromUtf8 d.1).bind fun _ =>
        if 255 < c.1.length ∨ 255 < d.1.length then none
        else some (10::UInt8.ofNat c.1.length::c.1++UInt8.ofNat d.1.length::d.1) := rfl
  have hdecode : decodeValue 10 data = (readShortText (data.drop 4)).bind fun c => (readShortText c.2).bind fun d =>
      some (.reference c.1 d.1) := rfl
  rw [hraw,hdecode,readShortText_eq]
  rcases Option.eq_none_or_eq_some (readShortSpan (data.drop 4)) with hc | ⟨c,hc⟩
  · simp [hc]
  rcases Option.eq_none_or_eq_some (fromUtf8 c.1) with hcol | ⟨col,hcol⟩
  · simp [hc,hcol]
  simp only [hc,hcol,Option.bind_some,Option.map_some,readShortText_eq]
  rcases Option.eq_none_or_eq_some (readShortSpan c.2) with hd | ⟨d,hd⟩
  · simp [hd]
  rcases Option.eq_none_or_eq_some (fromUtf8 d.1) with hdoc | ⟨doc,hdoc⟩
  · simp [hd,hdoc]
  obtain ⟨hclen,hctext⟩ := shortText_of_readShortSpan hc hcol
  obtain ⟨hdlen,hdtext⟩ := shortText_of_readShortSpan hd hdoc
  simp [hd,hdoc,encodeScalar,hctext,hdtext,hclen.not_gt,hdlen.not_gt]

theorem rawBlobLink_eq : rawScalar 11 data = (decodeValue 11 data).map fun v => (encodeScalar v).bytes := by
  have hraw : rawScalar 11 data = (take? 8 (data.drop 4)).bind fun o => (take? 4 o.2).bind fun l =>
      some (11::beBytes 8 (leNat o.1)++beBytes 4 (leNat l.1)) := rfl
  have hdecode : decodeValue 11 data = (take? 8 (data.drop 4)).bind fun o => (take? 4 o.2).bind fun l =>
      some (.blobLink (.ofNat (leNat o.1)) (.ofNat (leNat l.1))) := rfl
  rw [hraw,hdecode]
  rcases Option.eq_none_or_eq_some (take? 8 (data.drop 4)) with ho | ⟨o,ho⟩
  · simp [ho]
  rcases Option.eq_none_or_eq_some (take? 4 o.2) with hl | ⟨l,hl⟩
  · simp [ho,hl]
  simp [ho,hl,encodeScalar,leNat_toNat_u64 ho,leNat_toNat_u32 hl]

theorem rawInt_eq : rawScalar 3 data = (decodeValue 3 data).map fun v => (encodeScalar v).bytes := by
  have hdecode : decodeValue 3 data = (decodeVarint (data.drop 4)).map fun n => .int (zigzagDecode n) := rfl
  rw [hdecode,Option.map_map]
  rfl

theorem rawTimestamp_eq : rawScalar 7 data = (decodeValue 7 data).map fun v => (encodeScalar v).bytes := by
  have hdecode : decodeValue 7 data = (decodeVarint (data.drop 4)).map fun n => .timestamp (zigzagDecode n) := rfl
  rw [hdecode,Option.map_map]
  rfl

theorem rawFloat_eq : rawScalar 4 data = (decodeValue 4 data).map fun v => (encodeScalar v).bytes := by
  have hraw : rawScalar 4 data = (take? 8 (data.drop 4)).map fun f => 3::beBytes 8 (leNat f.1) := rfl
  have hdecode : decodeValue 4 data = (take? 8 (data.drop 4)).bind fun f => some (.float ⟨.ofNat (leNat f.1)⟩) := rfl
  rw [hraw,hdecode]
  rcases Option.eq_none_or_eq_some (take? 8 (data.drop 4)) with hf | ⟨f,hf⟩
  · simp [hf]
  simp [hf,encodeScalar,leNat_toNat_u64 hf]

theorem rawString_eq : rawScalar 5 data = (decodeValue 5 data).map fun v => (encodeScalar v).bytes := by
  have hraw : rawScalar 5 data = (take? 4 data).bind fun l => (take? (leNat l.1) l.2).bind fun b =>
      (fromUtf8 b.1).bind fun _ => some (4::beBytes 4 b.1.length++b.1) := rfl
  have hdecode : decodeValue 5 data = (take? 4 data).bind fun l => (take? (leNat l.1) l.2).bind fun b =>
      (fromUtf8 b.1).bind fun s => some (.string s) := rfl
  simp only [hraw,hdecode,Option.map_bind,Function.comp_def,rawText_eq]

theorem rawBinary_eq : rawScalar 6 data = (decodeValue 6 data).map fun v => (encodeScalar v).bytes := by
  have hraw : rawScalar 6 data = (take? 4 data).bind fun l => (take? (leNat l.1) l.2).bind fun b =>
      some (5::beBytes 4 b.1.length++b.1) := rfl
  have hdecode : decodeValue 6 data = (take? 4 data).bind fun l => (take? (leNat l.1) l.2).bind fun b =>
      some (.binary b.1) := rfl
  simp only [hraw,hdecode,Option.map_bind,Function.comp_def]
  rfl

end arms

/-- The key from the bytes is the key of the decoded value. -/
theorem rawScalar_eq {tag : UInt8} (h8 : tag ≠ 8) (h9 : tag ≠ 9) (data : Bytes) :
    rawScalar tag data = (decodeValue tag data).map fun v => (encodeScalar v).bytes := by
  by_cases h : 3 ≤ tag.toNat ∧ tag.toNat ≤ 11
  · have htag : tag = 3 ∨ tag = 4 ∨ tag = 5 ∨ tag = 6 ∨ tag = 7 ∨ tag = 10 ∨ tag = 11 := by
      have hne8 : tag.toNat ≠ 8 := fun he => h8 (UInt8.toNat_inj.1 he)
      have hne9 : tag.toNat ≠ 9 := fun he => h9 (UInt8.toNat_inj.1 he)
      simp only [← UInt8.toNat_inj]
      simp
      omega
    rcases htag with rfl | rfl | rfl | rfl | rfl | rfl | rfl
    · exact rawInt_eq data
    · exact rawFloat_eq data
    · exact rawString_eq data
    · exact rawBinary_eq data
    · exact rawTimestamp_eq data
    · exact rawReference_eq data
    · exact rawBlobLink_eq data
  by_cases hlow : tag.toNat < 3
  · have htag : tag = 0 ∨ tag = 1 ∨ tag = 2 := by
      simp only [← UInt8.toNat_inj]
      simp
      omega
    rcases htag with rfl | rfl | rfl <;> rfl
  · obtain ⟨n,hn⟩ : ∃ n,tag.toNat = n+12 := ⟨tag.toNat-12,by omega⟩
    rw [rawScalar,decodeValue,decodeNested]
    split_ifs
    · rfl
    · rfl
    · rfl
    · rfl
    · rw [Option.map_some,encodeScalar,inline_int _ (by omega)]
    · cases htake : take? (tag.toNat%8) data with
      | none => rfl
      | some r => exact rawText_eq r.1
    · rw [hn]
      rfl

/-- The borrowed key is made exactly for the values that decode and are no maps or arrays. -/
theorem encodeRawScalar_decodeValue (tag : UInt8) (data out : Bytes) :
    ((encodeRawScalar tag data out).1 = true →
      ∃ v,decodeValue tag data = some v ∧ (encodeRawScalar tag data out).2 = out++(encodeScalar v).bytes) ∧
    ((encodeRawScalar tag data out).1 = false → decodeValue tag data = none ∨ tag = 8 ∨ tag = 9) := by
  by_cases h8 : tag = 8
  · subst h8
    exact ⟨fun h => (nomatch h),fun _ => .inr (.inl rfl)⟩
  by_cases h9 : tag = 9
  · subst h9
    exact ⟨fun h => (nomatch h),fun _ => .inr (.inr rfl)⟩
  rw [encodeRawScalar,rawScalar_eq h8 h9]
  cases decodeValue tag data with
  | none => exact ⟨fun h => (nomatch h),fun _ => .inl rfl⟩
  | some v => exact ⟨fun _ => ⟨v,rfl,rfl⟩,fun h => (nomatch h)⟩

end HakoDB

import HakoDB.Document.HakoDoc

/-! Documents within the format's length limits are read back as they were written. -/
namespace HakoDB
open ByteCodec Varint

mutual
/-- Every length that the format stores in one, two or four bytes fits there. -/
def Value.Encodable : Value → Prop
  | .string s => (asBytes s).length < 2^32
  | .binary bs => bs.length < 2^32
  | .reference collection docId => (asBytes collection).length < 2^8 ∧ (asBytes docId).length < 2^8
  | .map fields => fields.length < 2^16 ∧ FieldsEncodable fields ∧ 2+(encodeFields fields).length < 2^32
  | .array items => ItemsEncodable items ∧ 4+(encodeItems items).length < 2^32
  | _ => True
def FieldsEncodable : List (String × Value) → Prop
  | [] => True
  | (key,value)::fields => (asBytes key).length < 2^8 ∧ value.Encodable ∧ FieldsEncodable fields
def ItemsEncodable : List Value → Prop
  | [] => True
  | value::items => value.Encodable ∧ ItemsEncodable items
end

def HakoDoc.Encodable (doc : HakoDoc) : Prop := doc.fields.length < 2^16 ∧ FieldsEncodable doc.fields

variable {s : String} {tag : UInt8} {body : Bytes} {v : Value} {dec : UInt8 → Bytes → Option Value} {bound : ℕ}
    {fields : List (String × Value)} {items : List Value}

theorem readShortText_shortText (h : (asBytes s).length < 2^8) (rest : Bytes) :
    readShortText (shortText s++rest) = some (s,rest) := by
  have hl : (asBytes s).length % 256 = (asBytes s).length := Nat.mod_eq_of_lt (by omega)
  simp [readShortText,shortText,readByte,hl,take?_append (asBytes s) rest rfl,fromUtf8_asBytes]

/-- The tag and the bytes of a value are delimited by the skip and decode to the value. -/
structure ReadsAs (v : Value) (tag : UInt8) (data : Bytes) : Prop where
  encode : encodeValue v = tag::data
  skip : ∀ rest, skipValue tag (data++rest) = some (data,rest)
  decode : ∀ fuel, data.length < fuel → decodeNested fuel tag data = some v

theorem lenPrefixed_length (body : Bytes) : (lenPrefixed body).length = 4+body.length := by
  simp [lenPrefixed]

theorem lenPrefixed_drop' (body : Bytes) : (lenPrefixed body).drop 4 = body := by
  rw [lenPrefixed,List.drop_left' (leBytes_length 4 _)]

theorem skipValue_lenPrefixed (ht : 3 ≤ tag.toNat ∧ tag.toNat ≤ 11) (hb : body.length < 2^32) (rest : Bytes) :
    skipValue tag (lenPrefixed body++rest) = some (lenPrefixed body,rest) := by
  have hl : leNat (leBytes 4 body.length) = body.length := leNat_leBytes_of_lt (by omega)
  have h1 : ¬ (0xC0 ≤ tag.toNat ∧ tag.toNat ≤ 0xC3) := by omega
  have h2 : ¬ tag.toNat/16 = 1 := by omega
  have h3 : ¬ tag.toNat/8 = 8 := by omega
  have h4 : take? 4 (lenPrefixed body++rest) = some (leBytes 4 body.length,body++rest) := by
    rw [lenPrefixed,List.append_assoc]
    exact take?_append _ _ (leBytes_length 4 _)
  simp only [skipValue,h1,h2,h3,ht,if_false,if_true,and_self,h4,bind,Option.bind,hl]
  exact take?_append _ _ (lenPrefixed_length body)

/-- A value with a length prefix reads back once its decoder does. -/
theorem readsAs_lenPrefixed (ht : 3 ≤ tag.toNat ∧ tag.toNat ≤ 11) (hb : body.length < 2^32)
    (he : encodeValue v = tag::lenPrefixed body)
    (hd : ∀ fuel, 4+body.length < fuel → decodeNested fuel tag (lenPrefixed body) = some v) :
    ReadsAs v tag (lenPrefixed body) :=
  ⟨he,skipValue_lenPrefixed ht hb,fun fuel hf => hd fuel (by rwa [lenPrefixed_length] at hf)⟩

/-- A decoder that accepts the bytes of values up to a length. -/
def DecodesBelow (bound : ℕ) (dec : UInt8 → Bytes → Option Value) : Prop :=
  ∀ v tag data, ReadsAs v tag data → data.length < bound → dec tag data = some v

theorem decodesBelow_decodeNested (fuel : ℕ) : DecodesBelow fuel (decodeNested fuel) :=
  fun _ _ _ hr hl => hr.decode fuel hl

theorem decodesBelow_decodeValue (bound : ℕ) : DecodesBelow bound decodeValue :=
  fun _ _ data hr _ => hr.decode (data.length+1) (Nat.lt_succ_self _)

theorem decodeEntries_encodeFields (hdec : DecodesBelow bound dec) (hk : FieldsEncodable fields)
    (hv : ∀ p ∈ fields, ∃ tag data, ReadsAs p.2 tag data) (hf : (encodeFields fields).length < bound) (rest : Bytes) :
    decodeEntries dec fields.length (encodeFields fields++rest) = some (fields,rest) := by
  induction fields with
  | nil => simp [decodeEntries,encodeFields]
  | cons p fields ih =>
    obtain ⟨key,v⟩ := p
    obtain ⟨tag,data,hr⟩ := hv (key,v) List.mem_cons_self
    have hlen : data.length < bound := by
      simp [encodeFields,hr.encode] at hf
      omega
    have hih := ih hk.2.2 (fun q hq => hv q (List.mem_cons_of_mem _ hq)) (by
      simp [encodeFields] at hf
      omega)
    simp [decodeEntries,encodeFields,hr.encode,readShortText_shortText hk.1,readByte,hr.skip,
      hdec v tag data hr hlen,hih]

theorem decodeItems_encodeItems (hdec : DecodesBelow bound dec) (hv : ∀ v ∈ items, ∃ tag data, ReadsAs v tag data)
    (hf : (encodeItems items).length < bound) (rest : Bytes) :
    decodeItems dec items.length (encodeItems items++rest) = some (items,rest) := by
  induction items with
  | nil => simp [decodeItems,encodeItems]
  | cons v items ih =>
    obtain ⟨tag,data,hr⟩ := hv v List.mem_cons_self
    have hlen : data.length < bound := by
      simp [encodeItems,hr.encode] at hf
      omega
    have hih := ih (fun q hq => hv q (List.mem_cons_of_mem _ hq)) (by
      simp [encodeItems] at hf
      omega)
    simp [decodeItems,encodeItems,hr.encode,readByte,hr.skip,hdec v tag data hr hlen,hih]

theorem fieldsEncodable_mem (h : FieldsEncodable fields) :
    ∀ p ∈ fields, p.2.Encodable := by
  induction fields with
  | nil => simp
  | cons p fields ih =>
    intro q hq
    rcases List.mem_cons.mp hq with rfl | hq
    · exact h.2.1
    · exact ih h.2.2 q hq

theorem itemsEncodable_mem (h : ItemsEncodable items) : ∀ v ∈ items, v.Encodable := by
  induction items with
  | nil => simp
  | cons v items ih =>
    intro w hw
    rcases List.mem_cons.mp hw with rfl | hw
    · exact h.1
    · exact ih h.2 w hw

theorem encodeValue_length_pos (v : Value) : 0 < (encodeValue v).length := by
  cases v with
  | bool b => cases b <;> simp [encodeValue]
  | int n => simp only [encodeValue]; split <;> simp
  | string s => simp only [encodeValue]; split <;> simp
  | _ => simp [encodeValue]

theorem encodeItems_length (items : List Value) : items.length ≤ (encodeItems items).length := by
  induction items with
  | nil => simp
  | cons v items ih =>
    have := encodeValue_length_pos v
    simp [encodeItems]
    omega

theorem readsAs_small_int {n : Int64} (h : 0 ≤ n.toInt ∧ n.toInt ≤ 15) :
    ReadsAs (.int n) (UInt8.ofNat (0x10+n.toInt.toNat)) [] := by
  obtain ⟨k,hk⟩ : ∃ k : ℕ, n.toInt = k := ⟨n.toInt.toNat,by omega⟩
  have hk15 : k ≤ 15 := by omega
  have hn : Int64.ofInt (k : ℤ) = n := by rw [← hk]; exact Int64.ofInt_toInt n
  have htag : (UInt8.ofNat (0x10+n.toInt.toNat)).toNat = 16+k := by
    simp [hk]
    omega
  have hne : ∀ c : UInt8, 32 ≤ c.toNat → UInt8.ofNat (0x10+n.toInt.toNat) ≠ c := by
    rintro c hc rfl
    omega
  have hdiv : (16+k)/16 = 1 := by omega
  have hmod : (16+k) % 16 = k := by omega
  refine ⟨by rw [encodeValue,if_pos h],fun rest => ?_,fun fuel hf => ?_⟩
  · have h1 : ¬ (192 ≤ 16+k) := by omega
    simp only [skipValue,htag,hdiv,h1,false_and,if_false,if_true,List.nil_append]
  · cases fuel with
    | zero => simp at hf
    | succ fuel =>
      rw [decodeNested,if_neg (hne _ (by decide)),if_neg (hne _ (by decide)),if_neg (hne _ (by decide)),
        if_neg (hne _ (by decide)),htag,if_pos hdiv,hmod,hn]

theorem readsAs_short_string (h : (asBytes s).length ≤ 7) :
    ReadsAs (.string s) (UInt8.ofNat (0x40+(asBytes s).length)) (asBytes s) := by
  have htag : (UInt8.ofNat (0x40+(asBytes s).length)).toNat = 64+(asBytes s).length := by
    simp
    omega
  have hne : ∀ c : UInt8, 128 ≤ c.toNat → UInt8.ofNat (0x40+(asBytes s).length) ≠ c := by
    rintro c hc rfl
    omega
  have h16 : ¬ (64+(asBytes s).length)/16 = 1 := by omega
  have h8 : (64+(asBytes s).length)/8 = 8 := by omega
  have hmod : (64+(asBytes s).length) % 8 = (asBytes s).length := by omega
  refine ⟨by rw [encodeValue,if_pos h],fun rest => ?_,fun fuel hf => ?_⟩
  · have h1 : ¬ (192 ≤ 64+(asBytes s).length) := by omega
    simp only [skipValue,htag,h1,h16,h8,hmod,false_and,if_false,if_true]
    exact take?_append _ _ rfl
  · have ht : take? (asBytes s).length (asBytes s) = some (asBytes s,[]) := by
      simpa using take?_append (asBytes s) [] rfl
    cases fuel with
    | zero => omega
    | succ fuel =>
      rw [decodeNested,if_neg (hne _ (by decide)),if_neg (hne _ (by decide)),if_neg (hne _ (by decide)),
        if_neg (hne _ (by decide)),htag,if_neg h16,if_pos h8,hmod,ht]
      simp [fromUtf8_asBytes]

theorem zigzag_varint_length (n : Int64) : (encodeVarint (zigzagEncode n)).length < 2^32 := by
  have := encodeGroups_length 9 (zigzagEncode n)
  unfold encodeVarint
  omega

theorem decodeVarint_zigzag (n : Int64) :
    decodeVarint (encodeVarint (zigzagEncode n)) = some (zigzagEncode n) := by
  simpa using decodeVarint_encodeVarint (zigzagEncode_lt n) []

theorem take?_lenPrefixed (body : Bytes) :
    take? 4 (lenPrefixed body) = some (leBytes 4 body.length,body) :=
  take?_append _ _ (leBytes_length 4 _)

theorem take?_self (bs : Bytes) : take? bs.length bs = some (bs,[]) := by
  simpa using take?_append bs [] rfl

theorem readsAs_scalar (hv : v.isScalar) (h : v.Encodable) : ∃ tag data, ReadsAs v tag data := by
  cases v with
  | null => exact ⟨0xC0,[],rfl,fun rest => rfl,fun fuel hf => by cases fuel <;> simp_all [decodeNested]⟩
  | serverTimestamp =>
    exact ⟨0xC1,[],rfl,fun rest => rfl,fun fuel hf => by cases fuel <;> simp_all [decodeNested]⟩
  | bool b =>
    cases b
    · exact ⟨0xC3,[],rfl,fun rest => rfl,fun fuel hf => by cases fuel <;> simp_all [decodeNested]⟩
    · exact ⟨0xC2,[],rfl,fun rest => rfl,fun fuel hf => by cases fuel <;> simp_all [decodeNested]⟩
  | int n =>
    by_cases hn : 0 ≤ n.toInt ∧ n.toInt ≤ 15
    · exact ⟨_,_,readsAs_small_int hn⟩
    · refine ⟨3,_,readsAs_lenPrefixed (by decide) (zigzag_varint_length n) (by rw [encodeValue,if_neg hn])
        fun fuel hf => ?_⟩
      cases fuel with
      | zero => omega
      | succ fuel => simp [decodeNested,lenPrefixed_drop',decodeVarint_zigzag]
  | float f =>
    refine ⟨4,lenPrefixed (leBytes 8 f.bits.toNat),readsAs_lenPrefixed (by decide) (by simp) (by rw [encodeValue]) fun fuel hf => ?_⟩
    cases fuel with
    | zero => omega
    | succ fuel =>
      have ht : take? 8 (leBytes 8 f.bits.toNat) = some (leBytes 8 f.bits.toNat,[]) := by
        simpa using take?_append (leBytes 8 f.bits.toNat) [] (leBytes_length 8 _)
      simp [decodeNested,lenPrefixed_drop',ht,ofNat_leNat_leBytes_u64]
  | string s =>
    by_cases hs : (asBytes s).length ≤ 7
    · exact ⟨_,_,readsAs_short_string hs⟩
    · have hl : leNat (leBytes 4 (asBytes s).length) = (asBytes s).length :=
        leNat_leBytes_of_lt (by simp only [Value.Encodable] at h; omega)
      refine ⟨5,_,readsAs_lenPrefixed (by decide) h (by rw [encodeValue,if_neg hs]) fun fuel hf => ?_⟩
      cases fuel with
      | zero => omega
      | succ fuel =>
        simp [decodeNested,take?_lenPrefixed,hl,take?_self,fromUtf8_asBytes]
  | binary bs =>
    have hl : leNat (leBytes 4 bs.length) = bs.length :=
      leNat_leBytes_of_lt (by simp only [Value.Encodable] at h; omega)
    refine ⟨6,_,readsAs_lenPrefixed (by decide) h (by rw [encodeValue]) fun fuel hf => ?_⟩
    cases fuel with
    | zero => omega
    | succ fuel => simp [decodeNested,take?_lenPrefixed,hl,take?_self]
  | blobLink offset len =>
    refine ⟨11,lenPrefixed (leBytes 8 offset.toNat++leBytes 4 len.toNat),
      readsAs_lenPrefixed (by decide) (by simp) (by rw [encodeValue]) fun fuel hf => ?_⟩
    cases fuel with
    | zero => omega
    | succ fuel =>
      have h1 : take? 8 (leBytes 8 offset.toNat++leBytes 4 len.toNat) =
          some (leBytes 8 offset.toNat,leBytes 4 len.toNat) := take?_append _ _ (leBytes_length 8 _)
      have h2 : take? 4 (leBytes 4 len.toNat) = some (leBytes 4 len.toNat,[]) := by
        simpa using take?_append (leBytes 4 len.toNat) [] (leBytes_length 4 _)
      simp [decodeNested,lenPrefixed_drop',h1,h2,ofNat_leNat_leBytes_u64,ofNat_leNat_leBytes_u32]
  | reference collection docId =>
    have hb : (shortText collection++shortText docId).length < 2^32 := by
      simp only [Value.Encodable] at h
      simp [shortText]
      omega
    refine ⟨10,_,readsAs_lenPrefixed (by decide) hb (by rw [encodeValue]) fun fuel hf => ?_⟩
    have h2 : readShortText (shortText docId) = some (docId,[]) := by
      simpa using readShortText_shortText h.2 []
    cases fuel with
    | zero => omega
    | succ fuel => simp [decodeNested,lenPrefixed_drop',readShortText_shortText h.1,h2]
  | timestamp n =>
    refine ⟨7,_,readsAs_lenPrefixed (by decide) (zigzag_varint_length n) (by rw [encodeValue]) fun fuel hf => ?_⟩
    cases fuel with
    | zero => omega
    | succ fuel => simp [decodeNested,lenPrefixed_drop',decodeVarint_zigzag]
  | map fields => simp [Value.isScalar] at hv
  | array items => simp [Value.isScalar] at hv

theorem readsAs_map (h : (Value.map fields).Encodable) (ih : ∀ p ∈ fields, ∃ tag data, ReadsAs p.2 tag data) :
    ∃ tag data, ReadsAs (.map fields) tag data := by
  obtain ⟨hcount,hfields,hlen⟩ := h
  have hn : leNat (leBytes 2 fields.length) = fields.length := leNat_leBytes_of_lt (by omega)
  refine ⟨8,lenPrefixed (leBytes 2 fields.length++encodeFields fields),
    readsAs_lenPrefixed (by decide) (by simpa using hlen) (by rw [encodeValue]) fun fuel hf => ?_⟩
  cases fuel with
  | zero => omega
  | succ fuel =>
    have h1 : take? 2 (leBytes 2 fields.length++encodeFields fields) =
        some (leBytes 2 fields.length,encodeFields fields) := take?_append _ _ (leBytes_length 2 _)
    have h2 : decodeEntries (decodeNested fuel) fields.length (encodeFields fields) = some (fields,[]) := by
      simpa using decodeEntries_encodeFields (decodesBelow_decodeNested fuel) hfields ih
        (by simp at hf; omega) []
    simp [decodeNested,lenPrefixed_drop',h1,hn,h2]

theorem readsAs_array (h : (Value.array items).Encodable) (ih : ∀ v ∈ items, ∃ tag data, ReadsAs v tag data) :
    ∃ tag data, ReadsAs (.array items) tag data := by
  obtain ⟨hitems,hlen⟩ := h
  have hle := encodeItems_length items
  have hn : leNat (leBytes 4 items.length) = items.length := leNat_leBytes_of_lt (by omega)
  refine ⟨9,lenPrefixed (leBytes 4 items.length++encodeItems items),
    readsAs_lenPrefixed (by decide) (by simpa using hlen) (by rw [encodeValue]) fun fuel hf => ?_⟩
  cases fuel with
  | zero => omega
  | succ fuel =>
    have h1 : take? 4 (leBytes 4 items.length++encodeItems items) =
        some (leBytes 4 items.length,encodeItems items) := take?_append _ _ (leBytes_length 4 _)
    have h2 : decodeItems (decodeNested fuel) items.length (encodeItems items) = some (items,[]) := by
      simpa using decodeItems_encodeItems (decodesBelow_decodeNested fuel) ih (by simp at hf; omega) []
    simp [decodeNested,lenPrefixed_drop',h1,hn,h2]

/-- Every value within the limits reads back, by induction over its nesting. -/
theorem readsAs_of_encodable (v : Value) (h : v.Encodable) : ∃ tag data, ReadsAs v tag data := by
  induction v using Value.nested_induction with
  | scalar v hv => exact readsAs_scalar hv h
  | map fields ih => exact readsAs_map h fun p hp => ih p hp (fieldsEncodable_mem h.2.1 p hp)
  | array items ih => exact readsAs_array h fun v hv => ih v hv (itemsEncodable_mem h.1 v hv)

namespace HakoDoc

theorem decode_encode {doc : HakoDoc} (h : doc.Encodable) : decode doc.encode = some doc := by
  have hn : leNat (leBytes 2 doc.fields.length) = doc.fields.length :=
    leNat_leBytes_of_lt (by have := h.1; omega)
  have h8 : take? 8 (i64Bytes doc.time++(leBytes 2 doc.fields.length++encodeFields doc.fields)) =
      some (i64Bytes doc.time,leBytes 2 doc.fields.length++encodeFields doc.fields) :=
    take?_append _ _ (i64Bytes_length _)
  have h2 : take? 2 (leBytes 2 doc.fields.length++encodeFields doc.fields) =
      some (leBytes 2 doc.fields.length,encodeFields doc.fields) := take?_append _ _ (leBytes_length 2 _)
  have hf : decodeEntries decodeValue doc.fields.length (encodeFields doc.fields) = some (doc.fields,[]) := by
    have hv : ∀ p ∈ doc.fields, ∃ tag data, ReadsAs p.2 tag data :=
      fun p hp => readsAs_of_encodable p.2 (fieldsEncodable_mem h.2 p hp)
    simpa using decodeEntries_encodeFields (decodesBelow_decodeValue _) h.2 hv (Nat.lt_succ_self _) []
  simp [decode,encode,readByte,h8,h2,hn,hf]

end HakoDoc

end HakoDB

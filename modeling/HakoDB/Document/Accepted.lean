import HakoDB.Document.Codec

/-! What the decoder accepts is within the format's limits, so a decoded document can be written and
read again. -/
namespace HakoDB
open ByteCodec Varint

variable {n : ℕ} {bs : Bytes} {s : String} {rest : Bytes} {dec : UInt8 → Bytes → Option Value} {doc : HakoDoc}

theorem take?_eq_some {xs ys : Bytes} (h : take? n bs = some (xs,ys)) :
    bs = xs++ys ∧ xs.length = n := by
  unfold take? at h
  split at h
  · rename_i hn
    cases h
    exact ⟨(List.take_append_drop n bs).symm,by simp [hn]⟩
  · cases h

theorem asBytes_of_fromUtf8 (h : fromUtf8 bs = some s) : asBytes s = bs := by
  unfold fromUtf8 String.fromUTF8? at h
  split at h
  · cases h
    simp [asBytes,String.fromUTF8]
  · cases h

theorem encodeGroups_length_le {k : ℕ} (h : decodeGroups (k+1) bs = some n) :
    n < 2^(7*k+1) ∧ (encodeGroups k n).length ≤ bs.length := by
  induction k generalizing n bs with
  | zero =>
    cases bs with
    | nil => simp [decodeGroups] at h
    | cons b bs =>
      simp only [decodeGroups,true_and] at h
      split at h
      · cases h
      · split at h
        · cases h
          exact ⟨by omega,by simp [encodeGroups]⟩
        · simp at h
  | succ k ih =>
    cases bs with
    | nil => simp [decodeGroups] at h
    | cons b bs =>
      rw [decodeGroups,if_neg (by omega)] at h
      have hp : 2^(7*(k+1)+1) = 2^(7*k+1)*128 := by rw [show 7*(k+1)+1 = 7*k+1+7 by omega,pow_add]; rfl
      have hone : 0 < 2^(7*k+1) := Nat.two_pow_pos _
      split at h
      · rename_i hb
        cases h
        exact ⟨by omega,by rw [encodeGroups,if_neg (by omega)]; simp⟩
      · obtain ⟨r,hr,rfl⟩ := Option.map_eq_some_iff.mp h
        obtain ⟨hlt,hlen⟩ := ih hr
        have hdiv : (b.toNat % 128+128*r)/128 = r := by omega
        refine ⟨by omega,?_⟩
        rw [encodeGroups]
        split
        · rw [hdiv]
          simpa using hlen
        · simp

theorem zigzagEncode_zigzagDecode (h : n < 2^64) : zigzagEncode (zigzagDecode n) = n := by
  have hpow : (2:ℕ)^64 = 18446744073709551616 := by norm_num
  unfold zigzagDecode zigzagEncode
  split
  · rw [Int64.toInt_ofInt_of_le (by omega) (by omega),if_pos (by omega)]
    omega
  · rw [Int64.toInt_ofInt_of_le (by omega) (by omega),if_neg (by omega)]
    omega

/-- What a decoder of values must guarantee. -/
def Sound (dec : UInt8 → Bytes → Option Value) : Prop :=
  ∀ tag data v, data.length < 2^32+4 → dec tag data = some v →
    v.Encodable ∧ (encodeValue v).length ≤ 1+data.length

theorem readShortText_eq_some (h : readShortText bs = some (s,rest)) :
    bs = shortText s++rest ∧ (asBytes s).length < 2^8 := by
  unfold readShortText at h
  cases bs with
  | nil => simp [readByte] at h
  | cons l bs =>
    simp only [readByte,Option.bind_eq_bind,Option.bind_some] at h
    obtain ⟨⟨xs,ys⟩,htake,h⟩ := Option.bind_eq_some_iff.mp h
    obtain ⟨t,htext,h⟩ := Option.bind_eq_some_iff.mp h
    cases h
    obtain ⟨rfl,hlen⟩ := take?_eq_some htake
    have hbytes := asBytes_of_fromUtf8 htext
    have hl := l.toNat_lt
    simp only at hlen hbytes
    refine ⟨?_,by rw [hbytes]; omega⟩
    simp [shortText,hbytes,hlen]

theorem skipValue_eq_some {tag : UInt8} {data : Bytes} (h : skipValue tag bs = some (data,rest)) :
    bs = data++rest ∧ data.length < 2^32+4 := by
  unfold skipValue at h
  split at h
  · cases h
    simp
  · split at h
    · cases h
      simp
    · split at h
      · obtain ⟨hbs,hlen⟩ := take?_eq_some h
        exact ⟨hbs,by omega⟩
      · split at h
        · obtain ⟨⟨l,ys⟩,htake,h⟩ := Option.bind_eq_some_iff.mp h
          obtain ⟨hbs,hlen⟩ := take?_eq_some h
          obtain ⟨-,hl⟩ := take?_eq_some htake
          have hlt := leNat_lt l
          rw [hl] at hlt
          exact ⟨hbs,by omega⟩
        · cases h

theorem decodeEntries_sound (hdec : Sound dec) {fields : List (String × Value)}
    (h : decodeEntries dec n bs = some (fields,rest)) :
    fields.length = n ∧ FieldsEncodable fields ∧ (encodeFields fields).length+rest.length ≤ bs.length := by
  induction n generalizing bs fields with
  | zero =>
    cases h
    simp [FieldsEncodable,encodeFields]
  | succ n ih =>
    rw [decodeEntries] at h
    obtain ⟨⟨key,bs1⟩,hkey,h⟩ := Option.bind_eq_some_iff.mp h
    obtain ⟨⟨tag,bs2⟩,htag,h⟩ := Option.bind_eq_some_iff.mp h
    obtain ⟨⟨data,bs3⟩,hskip,h⟩ := Option.bind_eq_some_iff.mp h
    obtain ⟨v,hv,h⟩ := Option.bind_eq_some_iff.mp h
    obtain ⟨⟨rest1,bs4⟩,hrest,h⟩ := Option.bind_eq_some_iff.mp h
    cases h
    obtain ⟨rfl,hk⟩ := readShortText_eq_some hkey
    obtain ⟨hlen,henc,hbound⟩ := ih hrest
    obtain ⟨rfl,hdata⟩ := skipValue_eq_some hskip
    obtain ⟨hve,hvl⟩ := hdec tag data v hdata hv
    cases bs1 with
    | nil => cases htag
    | cons b bs1 =>
      cases htag
      refine ⟨by simp [hlen],⟨hk,hve,henc⟩,?_⟩
      simp only [encodeFields,List.length_append,List.length_cons] at hbound ⊢
      omega

theorem decodeItems_sound (hdec : Sound dec) {items : List Value} (h : decodeItems dec n bs = some (items,rest)) :
    items.length = n ∧ ItemsEncodable items ∧ (encodeItems items).length+rest.length ≤ bs.length := by
  induction n generalizing bs items with
  | zero =>
    cases h
    simp [ItemsEncodable,encodeItems]
  | succ n ih =>
    rw [decodeItems] at h
    obtain ⟨⟨tag,bs2⟩,htag,h⟩ := Option.bind_eq_some_iff.mp h
    obtain ⟨⟨data,bs3⟩,hskip,h⟩ := Option.bind_eq_some_iff.mp h
    obtain ⟨v,hv,h⟩ := Option.bind_eq_some_iff.mp h
    obtain ⟨⟨rest1,bs4⟩,hrest,h⟩ := Option.bind_eq_some_iff.mp h
    cases h
    obtain ⟨hlen,henc,hbound⟩ := ih hrest
    obtain ⟨rfl,hdata⟩ := skipValue_eq_some hskip
    obtain ⟨hve,hvl⟩ := hdec tag data v hdata hv
    cases bs with
    | nil => cases htag
    | cons b bs =>
      cases htag
      refine ⟨by simp [hlen],⟨hve,henc⟩,?_⟩
      simp only [encodeItems,List.length_append,List.length_cons] at hbound ⊢
      omega

theorem encodeVarint_length_le {m : ℕ} (h : decodeVarint bs = some m) :
    (encodeVarint (zigzagEncode (zigzagDecode m))).length ≤ bs.length := by
  obtain ⟨hlt,hlen⟩ := encodeGroups_length_le h
  rw [zigzagEncode_zigzagDecode hlt]
  exact hlen

theorem encodeInt_length_le (n : Int64) :
    (encodeValue (.int n)).length ≤ 5+(encodeVarint (zigzagEncode n)).length := by
  rw [encodeValue]
  split
  · simp
    omega
  · simp only [lenPrefixed,List.length_cons,List.length_append,leBytes_length]
    omega

theorem encodeString_length_le (s : String) : (encodeValue (.string s)).length ≤ 5+(asBytes s).length := by
  rw [encodeValue]
  split
  · simp
  · simp only [lenPrefixed,List.length_cons,List.length_append,leBytes_length]
    omega

theorem encodeShortString_length (h : (asBytes s).length ≤ 7) :
    (encodeValue (.string s)).length = 1+(asBytes s).length := by
  rw [encodeValue,if_pos h]
  simp
  omega

theorem drop_four_length (h : n < (bs.drop 4).length) : (bs.drop 4).length+4 = bs.length := by
  simp only [List.length_drop] at h ⊢
  omega

/-- Encoding never needs more room than the bytes a value was decoded from. -/
theorem decodeNested_sound (fuel : ℕ) : Sound (decodeNested fuel) := by
  induction fuel with
  | zero => exact fun tag data v _ h => nomatch h
  | succ fuel ih =>
    intro tag data v hlen h
    rw [decodeNested] at h
    split at h
    · cases h
      simp [Value.Encodable,encodeValue]
    split at h
    · cases h
      simp [Value.Encodable,encodeValue]
    split at h
    · cases h
      simp [Value.Encodable,encodeValue]
    split at h
    · cases h
      simp [Value.Encodable,encodeValue]
    split at h
    · cases h
      have hsmall : (Int64.ofInt (tag.toNat % 16 : ℕ)).toInt = (tag.toNat % 16 : ℕ) :=
        Int64.toInt_ofInt_of_le (by omega) (by omega)
      refine ⟨trivial,?_⟩
      rw [encodeValue,if_pos (by rw [hsmall]; omega)]
      simp
    split at h
    · obtain ⟨⟨xs,ys⟩,htake,h⟩ := Option.bind_eq_some_iff.mp h
      obtain ⟨s,hs,h⟩ := Option.bind_eq_some_iff.mp h
      cases h
      obtain ⟨rfl,hx⟩ := take?_eq_some htake
      have hb := asBytes_of_fromUtf8 hs
      refine ⟨by rw [Value.Encodable,hb]; omega,?_⟩
      rw [encodeShortString_length (by rw [hb]; omega),hb]
      simp
    split at h
    · obtain ⟨m,hm,rfl⟩ := Option.map_eq_some_iff.mp h
      have hvar := encodeVarint_length_le hm
      have hpos := (encodeGroups_length 9 (zigzagEncode (zigzagDecode m))).1
      have hint := encodeInt_length_le (zigzagDecode m)
      have hdrop := drop_four_length (n := 0) (Nat.lt_of_lt_of_le hpos hvar)
      exact ⟨trivial,by omega⟩
    · obtain ⟨m,hm,rfl⟩ := Option.map_eq_some_iff.mp h
      have hvar := encodeVarint_length_le hm
      have hpos := (encodeGroups_length 9 (zigzagEncode (zigzagDecode m))).1
      have hdrop := drop_four_length (n := 0) (Nat.lt_of_lt_of_le hpos hvar)
      refine ⟨trivial,?_⟩
      simp only [encodeValue,lenPrefixed,List.length_cons,List.length_append,leBytes_length]
      omega
    · obtain ⟨⟨xs,ys⟩,htake,h⟩ := Option.bind_eq_some_iff.mp h
      cases h
      obtain ⟨hd,hx⟩ := take?_eq_some htake
      have hdl := congrArg List.length hd
      simp only [List.length_append,List.length_drop,hx] at hdl
      refine ⟨trivial,?_⟩
      simp only [encodeValue,lenPrefixed,List.length_cons,List.length_append,leBytes_length]
      omega
    · obtain ⟨⟨l,bs⟩,hl,h⟩ := Option.bind_eq_some_iff.mp h
      obtain ⟨⟨xs,ys⟩,htake,h⟩ := Option.bind_eq_some_iff.mp h
      obtain ⟨s,hs,h⟩ := Option.bind_eq_some_iff.mp h
      cases h
      obtain ⟨rfl,hll⟩ := take?_eq_some hl
      obtain ⟨hbs,hx⟩ := take?_eq_some htake
      have hb := asBytes_of_fromUtf8 hs
      have hlt := leNat_lt l
      have hstr := encodeString_length_le s
      rw [hll] at hlt
      subst hbs
      rw [hb] at hstr
      refine ⟨by rw [Value.Encodable,hb,hx]; omega,?_⟩
      simp only [List.length_append]
      omega
    · obtain ⟨⟨l,bs⟩,hl,h⟩ := Option.bind_eq_some_iff.mp h
      obtain ⟨⟨xs,ys⟩,htake,h⟩ := Option.bind_eq_some_iff.mp h
      cases h
      obtain ⟨rfl,hll⟩ := take?_eq_some hl
      obtain ⟨hbs,hx⟩ := take?_eq_some htake
      have hlt := leNat_lt l
      rw [hll] at hlt
      subst hbs
      refine ⟨by rw [Value.Encodable,hx]; omega,?_⟩
      simp only [encodeValue,lenPrefixed,List.length_cons,List.length_append,leBytes_length]
      omega
    · obtain ⟨⟨l,bs⟩,hl,h⟩ := Option.bind_eq_some_iff.mp h
      obtain ⟨⟨fields,ys⟩,hfields,h⟩ := Option.bind_eq_some_iff.mp h
      cases h
      obtain ⟨hd,hll⟩ := take?_eq_some hl
      have hdl := congrArg List.length hd
      have hlt := leNat_lt l
      obtain ⟨hcount,henc,hbound⟩ := decodeEntries_sound ih hfields
      rw [hll] at hlt
      simp only [List.length_append,List.length_drop,hll] at hdl hbound
      refine ⟨⟨by omega,henc,by omega⟩,?_⟩
      simp only [encodeValue,lenPrefixed,List.length_cons,List.length_append,leBytes_length]
      omega
    · obtain ⟨⟨l,bs⟩,hl,h⟩ := Option.bind_eq_some_iff.mp h
      obtain ⟨⟨items,ys⟩,hitems,h⟩ := Option.bind_eq_some_iff.mp h
      cases h
      obtain ⟨hd,hll⟩ := take?_eq_some hl
      have hdl := congrArg List.length hd
      obtain ⟨hcount,henc,hbound⟩ := decodeItems_sound ih hitems
      simp only [List.length_append,List.length_drop,hll] at hdl hbound
      refine ⟨⟨henc,by omega⟩,?_⟩
      simp only [encodeValue,lenPrefixed,List.length_cons,List.length_append,leBytes_length]
      omega
    · obtain ⟨⟨collection,bs⟩,hc,h⟩ := Option.bind_eq_some_iff.mp h
      obtain ⟨⟨docId,ys⟩,hi,h⟩ := Option.bind_eq_some_iff.mp h
      cases h
      obtain ⟨hd,hcl⟩ := readShortText_eq_some hc
      obtain ⟨hd2,hil⟩ := readShortText_eq_some hi
      have hdl := congrArg List.length hd
      have hdl2 := congrArg List.length hd2
      simp only [List.length_append,List.length_drop] at hdl hdl2
      refine ⟨⟨hcl,hil⟩,?_⟩
      simp only [encodeValue,lenPrefixed,List.length_cons,List.length_append,leBytes_length]
      simp only [shortText,List.length_cons] at hdl hdl2 ⊢
      omega
    · obtain ⟨⟨o,bs⟩,ho,h⟩ := Option.bind_eq_some_iff.mp h
      obtain ⟨⟨l,ys⟩,hl,h⟩ := Option.bind_eq_some_iff.mp h
      cases h
      obtain ⟨hd,hol⟩ := take?_eq_some ho
      obtain ⟨hd2,hll⟩ := take?_eq_some hl
      have hdl := congrArg List.length hd
      have hdl2 := congrArg List.length hd2
      simp only [List.length_append,List.length_drop,hol,hll] at hdl hdl2
      refine ⟨trivial,?_⟩
      simp only [encodeValue,lenPrefixed,List.length_cons,List.length_append,leBytes_length]
      omega
    · cases h
      simp [Value.Encodable,encodeValue]

/-- A decoded document is within the limits. -/
theorem HakoDoc.encodable_of_decode (h : HakoDoc.decode bs = some doc) :
    doc.Encodable := by
  unfold HakoDoc.decode at h
  obtain ⟨⟨m,bs1⟩,-,h⟩ := Option.bind_eq_some_iff.mp h
  obtain ⟨⟨v,bs2⟩,-,h⟩ := Option.bind_eq_some_iff.mp h
  obtain ⟨⟨t,bs3⟩,-,h⟩ := Option.bind_eq_some_iff.mp h
  obtain ⟨⟨n,bs4⟩,hn,h⟩ := Option.bind_eq_some_iff.mp h
  obtain ⟨-,hlen⟩ := take?_eq_some hn
  have hlt := leNat_lt n
  rw [hlen] at hlt
  simp only at h
  split at h
  · split at h
    · rename_i fields hfields
      cases h
      have hsound : Sound decodeValue := fun tag data v hl hv => decodeNested_sound _ tag data v hl hv
      obtain ⟨hcount,henc,-⟩ := decodeEntries_sound hsound hfields
      exact ⟨by simp only at hcount ⊢; omega,henc⟩
    · cases h
  · cases h

/-- A document is read back as it was written exactly when every stored length fits into its bytes. -/
theorem HakoDoc.decode_encode_iff (doc : HakoDoc) : HakoDoc.decode doc.encode = some doc ↔ doc.Encodable :=
  ⟨HakoDoc.encodable_of_decode,HakoDoc.decode_encode⟩

/-- The timestamp of a decoded document stands behind the two bytes of its frame. -/
theorem HakoDoc.time_of_decode (h : HakoDoc.decode bs = some doc) :
    10 ≤ bs.length ∧ bytesI64 ((bs.drop 2).take 8) = doc.time := by
  unfold HakoDoc.decode at h
  obtain ⟨⟨m,bs1⟩,hm,h1⟩ := Option.bind_eq_some_iff.mp h
  obtain ⟨⟨v,bs2⟩,hv,h2⟩ := Option.bind_eq_some_iff.mp h1
  obtain ⟨⟨t,bs3⟩,ht,h3⟩ := Option.bind_eq_some_iff.mp h2
  obtain ⟨⟨n,bs4⟩,-,h4⟩ := Option.bind_eq_some_iff.mp h3
  obtain ⟨hbs,hlen⟩ := take?_eq_some ht
  have hframe : bs = m::v::(t++bs3) := by
    cases bs with
    | nil => cases hm
    | cons a bs =>
      cases hm
      cases bs1 with
      | nil => cases hv
      | cons b bs1 =>
        cases hv
        rw [← hbs]
  have htime : doc.time = bytesI64 t := by
    simp only at h4
    split at h4
    · split at h4
      · cases h4
        rfl
      · cases h4
    · cases h4
  rw [hframe,htime]
  have htake : ((m::v::(t++bs3)).drop 2).take 8 = t := by simp [← hlen]
  exact ⟨by simp [hlen],by rw [htake]⟩

end HakoDB

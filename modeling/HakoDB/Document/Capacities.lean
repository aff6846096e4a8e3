import HakoDB.Lib.Metered
import HakoDB.Document.Views

/-! The capacities that decoding asks for. The decoder is read with every vector that it allocates, and the
counts that it takes from headers are compared with the length of the bytes. -/
namespace HakoDB
open ByteCodec Varint Metered

def meteredEntries (dec : UInt8 → Bytes → Run Value) : ℕ → Bytes → Run (List (String × Value) × Bytes)
  | 0,bs => pure ([],bs)
  | n+1,bs => do
    let (key,bs) ← ofOption (readShortText bs)
    let (tag,bs) ← ofOption (readByte bs)
    let (data,bs) ← ofOption (skipValue tag bs)
    let v ← dec tag data
    let (fields,bs) ← meteredEntries dec n bs
    return ((key,v)::fields,bs)

def meteredItems (dec : UInt8 → Bytes → Run Value) : ℕ → Bytes → Run (List Value × Bytes)
  | 0,bs => pure ([],bs)
  | n+1,bs => do
    let (tag,bs) ← ofOption (readByte bs)
    let (data,bs) ← ofOption (skipValue tag bs)
    let v ← dec tag data
    let (items,bs) ← meteredItems dec n bs
    return (v::items,bs)

/-- The decoder of values, with the capacity of every vector and text it makes. -/
def meteredNested : ℕ → UInt8 → Bytes → Run Value
  | 0,_,_ => ofOption none
  | fuel+1,tag,bs =>
    if tag = 0xC0 then return .null
    else if tag = 0xC1 then return .serverTimestamp
    else if tag = 0xC2 then return .bool true
    else if tag = 0xC3 then return .bool false
    else if tag.toNat/16 = 1 then return .int (Int64.ofInt (tag.toNat % 16 : ℕ))
    else if tag.toNat/8 = 8 then do
      let (s,_) ← ofOption (take? (tag.toNat % 8) bs)
      ask s.length
      let s ← ofOption (fromUtf8 s)
      return .string s
    else match tag.toNat with
      | 3 => ofOption ((decodeVarint (bs.drop 4)).map fun n => .int (zigzagDecode n))
      | 7 => ofOption ((decodeVarint (bs.drop 4)).map fun n => .timestamp (zigzagDecode n))
      | 4 => do
        let (f,_) ← ofOption (take? 8 (bs.drop 4))
        return .float ⟨.ofNat (leNat f)⟩
      | 5 => do
        let (l,bs) ← ofOption (take? 4 bs)
        let (s,_) ← ofOption (take? (leNat l) bs)
        ask s.length
        let s ← ofOption (fromUtf8 s)
        return .string s
      | 6 => do
        let (l,bs) ← ofOption (take? 4 bs)
        let (b,_) ← ofOption (take? (leNat l) bs)
        ask b.length
        return .binary b
      | 8 => do
        let (n,bs) ← ofOption (take? 2 (bs.drop 4))
        ask (leNat n)
        let (fields,_) ← meteredEntries (meteredNested fuel) (leNat n) bs
        return .map fields
      | 9 => do
        let (n,bs) ← ofOption (take? 4 (bs.drop 4))
        ask (leNat n)
        let (items,_) ← meteredItems (meteredNested fuel) (leNat n) bs
        return .array items
      | 10 => do
        let (collection,bs) ← ofOption (readShortText (bs.drop 4))
        ask (asBytes collection).length
        let (docId,_) ← ofOption (readShortText bs)
        ask (asBytes docId).length
        return .reference collection docId
      | 11 => do
        let (o,bs) ← ofOption (take? 8 (bs.drop 4))
        let (l,_) ← ofOption (take? 4 bs)
        return .blobLink (.ofNat (leNat o)) (.ofNat (leNat l))
      | _ => return .null

def HakoDoc.meteredDecode (bs : Bytes) : Run HakoDoc := do
  let view ← ofOption (HakoDocView.new bs)
  ask view.fieldsCount
  let (fields,rest) ← meteredEntries (fun tag data => meteredNested (data.length+1) tag data) view.fieldsCount view.body
  if rest = [] then return ⟨fields,view.time⟩ else ofOption none

section value

variable {dec : UInt8 → Bytes → Run Value} {dec' : UInt8 → Bytes → Option Value}

theorem meteredEntries_value (h : ∀ tag data,(dec tag data).value = dec' tag data) (n : ℕ) (bs : Bytes) :
    (meteredEntries dec n bs).value = decodeEntries dec' n bs := by
  induction n generalizing bs with
  | zero => rfl
  | succ n ih => simp [meteredEntries,decodeEntries,h,ih]

theorem meteredItems_value (h : ∀ tag data,(dec tag data).value = dec' tag data) (n : ℕ) (bs : Bytes) :
    (meteredItems dec n bs).value = decodeItems dec' n bs := by
  induction n generalizing bs with
  | zero => rfl
  | succ n ih => simp [meteredItems,decodeItems,h,ih]

/-- Asking changes nothing in what is decoded. -/
theorem meteredNested_value (fuel : ℕ) (tag : UInt8) (bs : Bytes) :
    (meteredNested fuel tag bs).value = decodeNested fuel tag bs := by
  induction fuel generalizing tag bs with
  | zero => rfl
  | succ fuel ih =>
    rw [meteredNested,decodeNested]
    split_ifs
    all_goals first | rfl | skip
    split
    all_goals rename_i htag
    all_goals simp [htag,meteredEntries_value ih,meteredItems_value ih]

theorem HakoDoc.meteredDecode_value (bs : Bytes) : (HakoDoc.meteredDecode bs).value = HakoDoc.decode bs := by
  have hvalue : ∀ tag data,(meteredNested (data.length+1) tag data).value = decodeValue tag data :=
    fun tag data => meteredNested_value _ tag data
  rw [HakoDoc.decode_eq,HakoDoc.meteredDecode,value_bind]
  refine Option.bind_congr fun view _ => ?_
  rw [value_bind,value_ask,Option.bind_some,value_bind,meteredEntries_value hvalue]
  refine Option.bind_congr ?_
  rintro ⟨fields,rest⟩ -
  dsimp only
  split_ifs <;> rfl

end value

/-- An entry whose value the walk over a map decodes: every value before it decodes. -/
inductive EntryValue : ℕ → Bytes → UInt8 → Bytes → Prop
  | here {n : ℕ} {bs bs1 bs2 data rest : Bytes} {key : String} {tag : UInt8} :
    readShortText bs = some (key,bs1) → readByte bs1 = some (tag,bs2) → skipValue tag bs2 = some (data,rest) →
      EntryValue (n+1) bs tag data
  | later {n : ℕ} {bs bs1 bs2 first rest data : Bytes} {key : String} {t tag : UInt8} {v : Value} :
    readShortText bs = some (key,bs1) → readByte bs1 = some (t,bs2) → skipValue t bs2 = some (first,rest) →
      decodeValue t first = some v → EntryValue n rest tag data → EntryValue (n+1) bs tag data

/-- The same for the items of an array. -/
inductive ItemValue : ℕ → Bytes → UInt8 → Bytes → Prop
  | here {n : ℕ} {bs bs1 data rest : Bytes} {tag : UInt8} :
    readByte bs = some (tag,bs1) → skipValue tag bs1 = some (data,rest) → ItemValue (n+1) bs tag data
  | later {n : ℕ} {bs bs1 first rest data : Bytes} {t tag : UInt8} {v : Value} :
    readByte bs = some (t,bs1) → skipValue t bs1 = some (first,rest) → decodeValue t first = some v →
      ItemValue n rest tag data → ItemValue (n+1) bs tag data

/-- Decoding the one value gets to the other one inside it. -/
inductive Reaches : UInt8 → Bytes → UInt8 → Bytes → Prop
  | self (tag : UInt8) (bs : Bytes) : Reaches tag bs tag bs
  | entry {bs n body d data : Bytes} {t tag : UInt8} : take? 2 (bs.drop 4) = some (n,body) →
      EntryValue (leNat n) body t d → Reaches t d tag data → Reaches 8 bs tag data
  | item {bs n body d data : Bytes} {t tag : UInt8} : take? 4 (bs.drop 4) = some (n,body) →
      ItemValue (leNat n) body t d → Reaches t d tag data → Reaches 9 bs tag data

/-- The count in the header of an array, which is read before any item is. -/
def ArrayFits (bound : ℕ) (data : Bytes) : Prop :=
  ∀ n body,take? 4 (data.drop 4) = some (n,body) → leNat n ≤ bound

section within
variable {bound : ℕ}
variable {bs bs1 data rest : Bytes} {tag : UInt8} {dec : UInt8 → Bytes → Run Value} {len n : ℕ}

theorem entry_lengths {bs2 : Bytes} {key : String} (hkey : readShortText bs = some (key,bs1))
    (htag : readByte bs1 = some (tag,bs2)) (hskip : skipValue tag bs2 = some (data,rest)) :
    data.length < bs.length ∧ rest.length ≤ bs.length := by
  have hlen := readShortText_length hkey
  obtain rfl := readByte_eq_some htag
  obtain ⟨rfl,-⟩ := skipValue_eq_some hskip
  simp only [List.length_cons,List.length_append] at hlen
  omega

theorem item_lengths (htag : readByte bs = some (tag,bs1)) (hskip : skipValue tag bs1 = some (data,rest)) :
    data.length < bs.length ∧ rest.length ≤ bs.length := by
  obtain rfl := readByte_eq_some htag
  obtain ⟨rfl,-⟩ := skipValue_eq_some hskip
  simp only [List.length_cons,List.length_append]
  omega

/-- The walk asks for what its values ask for, up to the first one that fails. -/
theorem within_meteredEntries (h : ∀ tag data,data.length < len → (dec tag data).value = decodeValue tag data)
    (hbs : bs.length ≤ len) :
    Within bound (meteredEntries dec n bs) ↔ ∀ tag data,EntryValue n bs tag data → Within bound (dec tag data) := by
  induction n generalizing bs with
  | zero => exact iff_of_true (within_pure _) fun tag data hentry => nomatch hentry
  | succ n ih =>
    constructor
    · rintro hwithin tag data (⟨hkey,htag,hskip⟩ | ⟨hkey,htag,hskip,hv,hrest⟩)
      · simp only [meteredEntries,hkey,htag,hskip,within_bind,value_ofOption,Option.some.injEq,forall_eq'] at hwithin
        exact hwithin.2.2.2.1
      · obtain ⟨hdata,hmore⟩ := entry_lengths hkey htag hskip
        rw [← h _ _ (by omega)] at hv
        simp only [meteredEntries,hkey,htag,hskip,hv,within_bind,value_ofOption,Option.some.injEq,forall_eq'] at hwithin
        exact (ih (by omega)).mp hwithin.2.2.2.2.1 tag data hrest
    · intro hall
      refine within_ofOption_bind.mpr ?_
      rintro ⟨key,bs1⟩ hkey
      refine within_ofOption_bind.mpr ?_
      rintro ⟨tag,bs2⟩ htag
      refine within_ofOption_bind.mpr ?_
      rintro ⟨data,rest⟩ hskip
      obtain ⟨hdata,hmore⟩ := entry_lengths hkey htag hskip
      refine within_bind.mpr ⟨hall tag data (.here hkey htag hskip),fun v hv => ?_⟩
      rw [h _ _ (by omega)] at hv
      refine within_bind.mpr ⟨(ih (by omega)).mpr fun t d hentry => hall t d (.later hkey htag hskip hv hentry),?_⟩
      exact fun r _ => within_pure _

theorem within_meteredItems (h : ∀ tag data,data.length < len → (dec tag data).value = decodeValue tag data)
    (hbs : bs.length ≤ len) :
    Within bound (meteredItems dec n bs) ↔ ∀ tag data,ItemValue n bs tag data → Within bound (dec tag data) := by
  induction n generalizing bs with
  | zero => exact iff_of_true (within_pure _) fun tag data hitem => nomatch hitem
  | succ n ih =>
    constructor
    · rintro hwithin tag data (⟨htag,hskip⟩ | ⟨htag,hskip,hv,hrest⟩)
      · simp only [meteredItems,htag,hskip,within_bind,value_ofOption,Option.some.injEq,forall_eq'] at hwithin
        exact hwithin.2.2.1
      · obtain ⟨hdata,hmore⟩ := item_lengths htag hskip
        rw [← h _ _ (by omega)] at hv
        simp only [meteredItems,htag,hskip,hv,within_bind,value_ofOption,Option.some.injEq,forall_eq'] at hwithin
        exact (ih (by omega)).mp hwithin.2.2.2.1 tag data hrest
    · intro hall
      refine within_ofOption_bind.mpr ?_
      rintro ⟨tag,bs1⟩ htag
      refine within_ofOption_bind.mpr ?_
      rintro ⟨data,rest⟩ hskip
      obtain ⟨hdata,hmore⟩ := item_lengths htag hskip
      refine within_bind.mpr ⟨hall tag data (.here htag hskip),fun v hv => ?_⟩
      rw [h _ _ (by omega)] at hv
      refine within_bind.mpr ⟨(ih (by omega)).mpr fun t d hitem => hall t d (.later htag hskip hv hitem),?_⟩
      exact fun r _ => within_pure _

theorem take?_length_le {xs ys : Bytes} (h : take? n bs = some (xs,ys)) :
    xs.length ≤ bs.length ∧ ys.length ≤ bs.length := by
  obtain ⟨rfl,-⟩ := take?_eq_some h
  simp

theorem readShortText_lengths {s : String} (h : readShortText bs = some (s,rest)) :
    (asBytes s).length ≤ bs.length ∧ rest.length ≤ bs.length := by
  obtain ⟨rfl,-⟩ := readShortText_eq_some h
  simp only [shortText,List.cons_append,List.length_cons,List.length_append]
  omega

/-- Values that hold no others copy a piece of their bytes at most. -/
theorem within_flat (h8 : tag ≠ 8) (h9 : tag ≠ 9) (fuel : ℕ) (hbs : bs.length ≤ bound) :
    Within bound (meteredNested (fuel+1) tag bs) := by
  have h8' : tag.toNat ≠ 8 := fun h => h8 (UInt8.toNat_inj.1 h)
  have h9' : tag.toNat ≠ 9 := fun h => h9 (UInt8.toNat_inj.1 h)
  have hdrop : (bs.drop 4).length ≤ bs.length := by simp
  rw [meteredNested]
  split_ifs
  all_goals first | exact within_pure _ | skip
  · refine within_ofOption_bind.mpr ?_
    rintro ⟨s,rest⟩ hs
    exact within_ask_bind.mpr ⟨(take?_length_le hs).1.trans hbs,by simp⟩
  split
  · exact within_ofOption _
  · exact within_ofOption _
  · simp
  · refine within_ofOption_bind.mpr ?_
    rintro ⟨l,bs1⟩ hl
    refine within_ofOption_bind.mpr ?_
    rintro ⟨s,rest⟩ hs
    have hlen := (take?_length_le hs).1.trans (take?_length_le hl).2
    exact within_ask_bind.mpr ⟨hlen.trans hbs,by simp⟩
  · refine within_ofOption_bind.mpr ?_
    rintro ⟨l,bs1⟩ hl
    refine within_ofOption_bind.mpr ?_
    rintro ⟨b,rest⟩ hb
    have hlen := (take?_length_le hb).1.trans (take?_length_le hl).2
    exact within_ask_bind.mpr ⟨hlen.trans hbs,within_pure _⟩
  · exact absurd ‹_› h8'
  · exact absurd ‹_› h9'
  · refine within_ofOption_bind.mpr ?_
    rintro ⟨collection,bs1⟩ hc
    have hlen := readShortText_lengths hc
    refine within_ask_bind.mpr ⟨(hlen.1.trans hdrop).trans hbs,within_ofOption_bind.mpr ?_⟩
    rintro ⟨docId,rest⟩ hd
    have hlen' := (readShortText_lengths hd).1.trans (hlen.2.trans hdrop)
    exact within_ask_bind.mpr ⟨hlen'.trans hbs,within_pure _⟩
  · simp
  · exact within_pure _

/-- The body of a map behind its length, its values read by `dec`. -/
def meteredMapWith (dec : UInt8 → Bytes → Run Value) (bs : Bytes) : Run Value := do
  let (n,bs) ← ofOption (take? 2 (bs.drop 4))
  ask (leNat n)
  let (fields,_) ← meteredEntries dec (leNat n) bs
  return .map fields

def meteredArrayWith (dec : UInt8 → Bytes → Run Value) (bs : Bytes) : Run Value := do
  let (n,bs) ← ofOption (take? 4 (bs.drop 4))
  ask (leNat n)
  let (items,_) ← meteredItems dec (leNat n) bs
  return .array items

theorem meteredNested_map (fuel : ℕ) (bs : Bytes) :
    meteredNested (fuel+1) 8 bs = meteredMapWith (meteredNested fuel) bs := by
  rw [meteredNested]
  rfl

theorem meteredNested_array (fuel : ℕ) (bs : Bytes) :
    meteredNested (fuel+1) 9 bs = meteredArrayWith (meteredNested fuel) bs := by
  rw [meteredNested]
  rfl

theorem EntryValue.length_lt (h : EntryValue n bs tag data) :
    data.length < bs.length := by
  induction h with
  | here hkey htag hskip => exact (entry_lengths hkey htag hskip).1
  | later hkey htag hskip _ _ ih => exact ih.trans_le (entry_lengths hkey htag hskip).2

theorem ItemValue.length_lt (h : ItemValue n bs tag data) :
    data.length < bs.length := by
  induction h with
  | here htag hskip => exact (item_lengths htag hskip).1
  | later htag hskip _ _ ih => exact ih.trans_le (item_lengths htag hskip).2

theorem leNat_u16_le {n body : Bytes} (h : take? 2 bs = some (n,body)) : leNat n ≤ 65535 := by
  have hlt := leNat_lt n
  rw [(take?_eq_some h).2] at hlt
  omega

theorem within_meteredMapWith (h : ∀ tag data,data.length < bs.length → (dec tag data).value = decodeValue tag data)
    (hcount : 65535 ≤ bound) :
    Within bound (meteredMapWith dec bs) ↔ ∀ n body,take? 2 (bs.drop 4) = some (n,body) →
      ∀ tag data,EntryValue (leNat n) body tag data → Within bound (dec tag data) := by
  refine within_ofOption_bind.trans ⟨fun hall n body hn => ?_,?_⟩
  · have hasked := within_ask_bind.mp (hall (n,body) hn)
    exact (within_meteredEntries h (take?_drop_length hn)).mp (within_bind.mp hasked.2).1
  · rintro hall ⟨n,body⟩ hn
    refine within_ask_bind.mpr ⟨(leNat_u16_le hn).trans hcount,within_bind.mpr ⟨?_,fun r _ => within_pure _⟩⟩
    exact (within_meteredEntries h (take?_drop_length hn)).mpr (hall n body hn)

theorem within_meteredArrayWith (h : ∀ tag data,data.length < bs.length → (dec tag data).value = decodeValue tag data) :
    Within bound (meteredArrayWith dec bs) ↔ ArrayFits bound bs ∧ ∀ n body,take? 4 (bs.drop 4) = some (n,body) →
      ∀ tag data,ItemValue (leNat n) body tag data → Within bound (dec tag data) := by
  refine within_ofOption_bind.trans ⟨fun hall => ⟨fun n body hn => ?_,fun n body hn => ?_⟩,?_⟩
  · exact (within_ask_bind.mp (hall (n,body) hn)).1
  · have hasked := within_ask_bind.mp (hall (n,body) hn)
    exact (within_meteredItems h (take?_drop_length hn)).mp (within_bind.mp hasked.2).1
  · rintro ⟨hfits,hall⟩ ⟨n,body⟩ hn
    refine within_ask_bind.mpr ⟨hfits n body hn,within_bind.mpr ⟨?_,fun r _ => within_pure _⟩⟩
    exact (within_meteredItems h (take?_drop_length hn)).mpr (hall n body hn)

/-- Decoding a value asks for no more than the bound exactly if no array that it gets to announces more. -/
theorem within_meteredNested {fuel : ℕ} (hfuel : bs.length < fuel) (hbs : bs.length ≤ bound) (hcount : 65535 ≤ bound) :
    Within bound (meteredNested fuel tag bs) ↔ ∀ data,Reaches tag bs 9 data → ArrayFits bound data := by
  induction fuel generalizing tag bs with
  | zero => cases hfuel
  | succ fuel ih =>
    have hvalue : ∀ t d,d.length < bs.length → (meteredNested fuel t d).value = decodeValue t d := fun t d hd =>
      (meteredNested_value fuel t d).trans (decodeNested_eq_decodeValue (by omega))
    by_cases h8 : tag = 8
    · subst h8
      rw [meteredNested_map,within_meteredMapWith hvalue hcount]
      constructor
      · intro hall data hreach
        cases hreach with
        | entry hn hentry hreach =>
          have hlen := hentry.length_lt.trans_le (take?_drop_length hn)
          exact (ih (by omega) (by omega)).mp (hall _ _ hn _ _ hentry) data hreach
      · intro hall n body hn t d hentry
        have hlen := hentry.length_lt.trans_le (take?_drop_length hn)
        exact (ih (by omega) (by omega)).mpr fun data hreach => hall data (.entry hn hentry hreach)
    by_cases h9 : tag = 9
    · subst h9
      rw [meteredNested_array,within_meteredArrayWith hvalue]
      constructor
      · rintro ⟨hfits,hall⟩ data hreach
        cases hreach with
        | self => exact hfits
        | item hn hitem hreach =>
          have hlen := hitem.length_lt.trans_le (take?_drop_length hn)
          exact (ih (by omega) (by omega)).mp (hall _ _ hn _ _ hitem) data hreach
      · refine fun hall => ⟨hall bs (.self 9 bs),fun n body hn t d hitem => ?_⟩
        have hlen := hitem.length_lt.trans_le (take?_drop_length hn)
        exact (ih (by omega) (by omega)).mpr fun data hreach => hall data (.item hn hitem hreach)
    refine iff_of_true (within_flat h8 h9 fuel hbs) fun data hreach => ?_
    cases hreach with
    | self => exact absurd rfl h9
    | entry => exact absurd rfl h8
    | item => exact absurd rfl h9

end within

namespace HakoDoc

/-- Decoding the document gets to the value with the tag and the bytes. -/
def Reaches (bs : Bytes) (tag : UInt8) (data : Bytes) : Prop :=
  ∃ view t d,HakoDocView.new bs = some view ∧ EntryValue view.fieldsCount view.body t d ∧ HakoDB.Reaches t d tag data

theorem view_bounds {bs : Bytes} {view : HakoDocView} (h : HakoDocView.new bs = some view) :
    view.fieldsCount ≤ 65535 ∧ view.body.length ≤ bs.length := by
  obtain ⟨⟨m,bs1⟩,hm,h⟩ := Option.bind_eq_some_iff.mp h
  obtain ⟨⟨v,bs2⟩,hv,h⟩ := Option.bind_eq_some_iff.mp h
  obtain ⟨⟨t,bs3⟩,ht,h⟩ := Option.bind_eq_some_iff.mp h
  obtain ⟨⟨n,body⟩,hn,h⟩ := Option.bind_eq_some_iff.mp h
  dsimp only at h hn
  split_ifs at h
  obtain rfl := Option.some.inj h
  refine ⟨leNat_u16_le hn,?_⟩
  have hlen1 := (take?_length_le hn).2
  have hlen2 := (take?_length_le ht).2
  obtain rfl := readByte_eq_some hm
  obtain rfl := readByte_eq_some hv
  simp only [List.length_cons]
  omega

/-- Every capacity is within the length of the bytes and the greatest count in two bytes exactly if the
arrays that decoding gets to announce no more items than that. -/
theorem meteredDecode_within_iff (bs : Bytes) : Within (max bs.length 65535) (meteredDecode bs) ↔
    ∀ data,Reaches bs 9 data → ArrayFits (max bs.length 65535) data := by
  have hvalue : ∀ len tag data,data.length < len →
      (meteredNested (data.length+1) tag data).value = decodeValue tag data :=
    fun _ tag data _ => meteredNested_value _ tag data
  have hnested : ∀ tag data,data.length ≤ bs.length →
      (Within (max bs.length 65535) (meteredNested (data.length+1) tag data) ↔
        ∀ d,HakoDB.Reaches tag data 9 d → ArrayFits (max bs.length 65535) d) := fun tag data hlen =>
    within_meteredNested (Nat.lt_succ_self _) (hlen.trans (le_max_left ..)) (le_max_right ..)
  refine within_ofOption_bind.trans ⟨?_,fun hall view hview => ?_⟩
  · rintro hall data ⟨view,t,d,hview,hentry,hreach⟩
    have hentries := (within_bind.mp (within_ask_bind.mp (hall view hview)).2).1
    have hlen := hentry.length_lt.le.trans (view_bounds hview).2
    exact (hnested t d hlen).mp ((within_meteredEntries (hvalue _) le_rfl).mp hentries t d hentry) data hreach
  · refine within_ask_bind.mpr ⟨(view_bounds hview).1.trans (le_max_right ..),within_bind.mpr ⟨?_,?_⟩⟩
    · refine (within_meteredEntries (hvalue _) le_rfl).mpr fun t d hentry => ?_
      have hlen := hentry.length_lt.le.trans (view_bounds hview).2
      exact (hnested t d hlen).mpr fun data hreach => hall data ⟨view,t,d,hview,hentry,hreach⟩
    · rintro ⟨fields,rest⟩ -
      dsimp only
      split_ifs
      · exact within_pure _
      · exact within_ofOption _

/-- One field with an array of no items that announces all that four bytes can. -/
def boundlessArray : Bytes :=
  [0xF1,5,0,0,0,0,0,0,0,0,1,0,1,97,9,4,0,0,0,0xFF,0xFF,0xFF,0xFF]

theorem meteredDecode_boundlessArray : (meteredDecode boundlessArray).asked = [1,4294967295] ∧
    ¬Within (max boundlessArray.length 65535) (meteredDecode boundlessArray) := by
  have hasked : (meteredDecode boundlessArray).asked = [1,4294967295] := by decide +kernel
  refine ⟨hasked,fun h => ?_⟩
  have hle := h 4294967295 (by simp [hasked])
  simp [boundlessArray] at hle

end HakoDoc

end HakoDB

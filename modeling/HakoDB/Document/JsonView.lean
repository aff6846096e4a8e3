import HakoDB.Document.Views

/-! The JSON of a document from its stored bytes, tag by tag. It is the JSON of the decoded document unless a nested
map or array leaves bytes of its own unused: there the writer gives up where the decoder goes on. -/
namespace HakoDB
open ByteCodec ReadAll Varint

namespace DocView
section writers
variable (jsonFloat : F64 → Bytes)

/-- A value that holds no others. -/
def writeScalar (tag : UInt8) (bs : Bytes) : Option Bytes :=
  if tag = 0xC0 ∨ tag = 0xC1 then some (asBytes "null")
  else if tag = 0xC2 then some (asBytes "true")
  else if tag = 0xC3 then some (asBytes "false")
  else if tag.toNat/16 = 1 then some (pushInt (tag.toNat % 16 : ℕ))
  else if tag.toNat/8 = 8 then do
    let (s,_) ← take? (tag.toNat % 8) bs
    let s ← fromUtf8 s
    return writeJsonStr s
  else match tag.toNat with
    | 3 | 7 => (decodeVarint (bs.drop 4)).map fun n => pushInt (zigzagDecode n).toInt
    | 4 => do
      let (f,_) ← take? 8 (bs.drop 4)
      return jsonFloat ⟨.ofNat (leNat f)⟩
    | 5 => do
      let (l,bs) ← take? 4 bs
      let (s,_) ← take? (leNat l) bs
      let s ← fromUtf8 s
      return writeJsonStr s
    | 6 => do
      let (l,bs) ← take? 4 bs
      let (b,_) ← take? (leNat l) bs
      return jsonList (b.map fun b => pushInt b.toNat)
    | 10 => do
      let (collection,bs) ← readShortText (bs.drop 4)
      let (docId,_) ← readShortText bs
      return asBytes "\x7b\"__ref__\":\""++writeJsonRaw collection++asBytes "/"++writeJsonRaw docId++asBytes "\"\x7d"
    | 11 => do
      let (o,bs) ← take? 8 (bs.drop 4)
      let (l,_) ← take? 4 bs
      return asBytes "\x7b\"__blob__\":\x7b\"len\":"++pushInt (UInt32.ofNat (leNat l)).toNat++asBytes ",\"offset\":"++
        pushInt (UInt64.ofNat (leNat o)).toNat++asBytes "\x7d\x7d"
    | _ => some (asBytes "null")

/-- The entries of a map are delimited, then sorted by their keys, then written. -/
def writeMap (write : UInt8 → Bytes → Option Bytes) (bs : Bytes) : Option Bytes := do
  let (n,bs) ← take? 2 (bs.drop 4)
  let (entries,rest) ← viewEntries (leNat n) bs
  if rest ≠ [] then none
  let parts ← (entries.insertionSort (byKeyBytes Prod.fst)).mapM (writeEntry write)
  return jsonObject (parts.map Prod.snd)

def writeArray (write : UInt8 → Bytes → Option Bytes) (bs : Bytes) : Option Bytes := do
  let (n,bs) ← take? 4 (bs.drop 4)
  let (items,rest) ← viewItems (leNat n) bs
  if rest ≠ [] then none
  let parts ← items.mapM fun item => write item.1 item.2
  return jsonList parts

/-- The nesting of a value is below the length of its bytes, which `fuel` exceeds. -/
def writeValue : ℕ → UInt8 → Bytes → Option Bytes
  | 0,_,_ => none
  | fuel+1,tag,bs =>
    if tag = 8 then writeMap (writeValue fuel) bs
    else if tag = 9 then writeArray (writeValue fuel) bs
    else writeScalar jsonFloat tag bs

def toJsonBytes (bs : Bytes) : Option Bytes := do
  let view ← HakoDocView.new bs
  let (entries,rest) ← viewEntries view.fieldsCount view.body
  if rest ≠ [] then none
  let parts ← entries.mapM (writeEntry fun tag data => writeValue jsonFloat (data.length+1) tag data)
  return jsonObject (withTime (writeTime view.time) false parts)

end writers

/-- Every map and every array within the value is filled by its entries. -/
def fills : ℕ → UInt8 → Bytes → Bool
  | 0,_,_ => true
  | fuel+1,tag,bs =>
    if tag = 8 then
      ((take? 2 (bs.drop 4)).bind fun r => viewEntries (leNat r.1) r.2).all fun r =>
        r.2.isEmpty && r.1.all fun e => fills fuel e.2.1 e.2.2
    else if tag = 9 then
      ((take? 4 (bs.drop 4)).bind fun r => viewItems (leNat r.1) r.2).all fun r =>
        r.2.isEmpty && r.1.all fun item => fills fuel item.1 item.2
    else true

/-- No field of the document has room left in its maps and arrays. -/
def filled (bs : Bytes) : Bool :=
  ((HakoDocView.new bs).bind fun view => viewEntries view.fieldsCount view.body).all fun r =>
    r.1.all fun e => fills (e.2.2.length+1) e.2.1 e.2.2

section agreement
variable {jsonFloat : F64 → Bytes}

theorem writeScalar_eq {tag : UInt8} (h8 : tag ≠ 8) (h9 : tag ≠ 9) (fuel : ℕ) (bs : Bytes) :
    writeScalar jsonFloat tag bs = (decodeNested (fuel+1) tag bs).map (writeJsonValue jsonFloat) := by
  have h8' : tag.toNat ≠ 8 := fun h => h8 (UInt8.toNat_inj.1 h)
  have h9' : tag.toNat ≠ 9 := fun h => h9 (UInt8.toNat_inj.1 h)
  rw [writeScalar,decodeNested]
  by_cases h0 : tag = 0xC0
  · simp [h0,writeJsonValue]
  by_cases h1 : tag = 0xC1
  · simp [h1,writeJsonValue]
  by_cases h2 : tag = 0xC2
  · simp [h2,writeJsonValue]
  by_cases h3 : tag = 0xC3
  · simp [h3,writeJsonValue]
  simp only [h0,h1,h2,h3,or_self,if_false,Option.bind_eq_bind,Option.pure_def]
  split_ifs with hint hstr
  · have hsmall : (Int64.ofInt (tag.toNat % 16 : ℕ)).toInt = (tag.toNat % 16 : ℕ) :=
      Int64.toInt_ofInt_of_le (by omega) (by omega)
    rw [Option.map_some,writeJsonValue,hsmall]
  · simp only [Option.map_bind,Function.comp_def,Option.map_some,writeJsonValue]
  · split
    · rename_i ht
      simp [ht,writeJsonValue,Function.comp_def]
    · rename_i ht
      simp [ht,writeJsonValue,Function.comp_def]
    all_goals
      rename_i ht
      simp only [ht,Option.map_bind,Function.comp_def,Option.map_some,writeJsonValue]

/-- What a writer of values has to do: write what the decoder reads, if the bytes are filled. -/
def WritesAs (jsonFloat : F64 → Bytes) (write : UInt8 → Bytes → Option Bytes) (dec : UInt8 → Bytes → Option Value)
    (full : UInt8 → Bytes → Bool) : Prop :=
  ∀ tag data,write tag data = (dec tag data).bind fun v => if full tag data then some (writeJsonValue jsonFloat v) else none

section entries
variable {write : UInt8 → Bytes → Option Bytes} {dec : UInt8 → Bytes → Option Value} {full : UInt8 → Bytes → Bool}

theorem writeEntry_eq (h : WritesAs jsonFloat write dec full) (e : Bytes × UInt8 × Bytes) :
    writeEntry write e = (readEntry dec e).bind fun f =>
      if full e.2.1 e.2.2 then some (f.1,jsonField f.1 (writeJsonValue jsonFloat f.2)) else none := by
  rw [writeEntry,readEntry,h]
  cases fromUtf8 e.1 with
  | none => rfl
  | some key =>
    cases dec e.2.1 e.2.2 with
    | none => rfl
    | some v => cases full e.2.1 e.2.2 <;> rfl

/-- Entries written in the order of their keys, against the fields read in the order of the bytes. -/
theorem mapM_writeEntry (h : WritesAs jsonFloat write dec full) (entries : List (Bytes × UInt8 × Bytes)) :
    entries.mapM (writeEntry write) = (entries.mapM (readEntry dec)).bind fun fields =>
      if entries.all fun e => full e.2.1 e.2.2 then
        some (fields.map fun f => (f.1,jsonField f.1 (writeJsonValue jsonFloat f.2))) else none := by
  rw [← mapM_bind_if]
  exact congrArg (fun w => entries.mapM w) (funext fun e => writeEntry_eq h e)

theorem readEntry_key {e : Bytes × UInt8 × Bytes} {f : String × Value} (h : readEntry dec e = some f) : asBytes f.1 = e.1 := by
  obtain ⟨key,hkey,h⟩ := Option.bind_eq_some_iff.1 h
  obtain ⟨v,-,h⟩ := Option.bind_eq_some_iff.1 h
  cases h
  exact asBytes_of_fromUtf8 hkey

theorem readEntry_sorted (entries : List (Bytes × UInt8 × Bytes)) :
    (entries.insertionSort (byKeyBytes Prod.fst)).mapM (readEntry dec) = (entries.mapM (readEntry dec)).map fun fields =>
      fields.insertionSort (byKeyBytes fun f => asBytes f.1) :=
  mapM_insertionSort _ _ fun x y f g hf hg => by rw [byKeyBytes,byKeyBytes,readEntry_key hf,readEntry_key hg]

theorem all_insertionSort {α : Type} (R : α → α → Prop) [DecidableRel R] (p : α → Bool) (xs : List α) :
    (xs.insertionSort R).all p = xs.all p := by
  rw [Bool.eq_iff_iff,List.all_eq_true,List.all_eq_true]
  simp only [List.mem_insertionSort]

theorem writeMap_eq (h : WritesAs jsonFloat write dec full) (bs : Bytes) :
    writeMap write bs = (decodeMapWith dec bs).bind fun v =>
      if ((take? 2 (bs.drop 4)).bind fun r => viewEntries (leNat r.1) r.2).all fun r =>
          r.2.isEmpty && r.1.all fun e => full e.2.1 e.2.2 then some (writeJsonValue jsonFloat v) else none := by
  rw [writeMap,decodeMapWith]
  cases take? 2 (bs.drop 4) with
  | none => rfl
  | some r =>
    obtain ⟨n,body⟩ := r
    simp only [Option.bind_eq_bind,Option.bind_some,decodeEntries_eq]
    rcases Option.eq_none_or_eq_some (viewEntries (leNat n) body) with hview | ⟨⟨entries,rest⟩,hview⟩
    · simp [hview]
    · cases rest with
      | cons b rest => simp [hview]
      | nil =>
        simp only [hview,ne_eq,not_true_eq_false,if_false,Option.bind_some,mapM_writeEntry h,readEntry_sorted,all_insertionSort,
          Option.all_some,List.isEmpty_nil,Bool.true_and,Option.pure_def]
        cases entries.mapM (readEntry dec) with
        | none => rfl
        | some fields =>
          cases entries.all fun e => full e.2.1 e.2.2 with
          | false => rfl
          | true => simp [writeJsonValue_map,Function.comp_def]

theorem writeArray_eq (h : WritesAs jsonFloat write dec full) (bs : Bytes) :
    writeArray write bs = (decodeArrayWith dec bs).bind fun v =>
      if ((take? 4 (bs.drop 4)).bind fun r => viewItems (leNat r.1) r.2).all fun r =>
          r.2.isEmpty && r.1.all fun item => full item.1 item.2 then some (writeJsonValue jsonFloat v) else none := by
  have hitems : ∀ items : List (UInt8 × Bytes),(items.mapM fun item => write item.1 item.2) =
      (items.mapM fun item => dec item.1 item.2).bind fun vs =>
        if items.all fun item => full item.1 item.2 then some (vs.map (writeJsonValue jsonFloat)) else none := by
    intro items
    rw [← mapM_bind_if]
    exact congrArg (fun w => items.mapM w) (funext fun item => h item.1 item.2)
  rw [writeArray,decodeArrayWith]
  cases take? 4 (bs.drop 4) with
  | none => rfl
  | some r =>
    obtain ⟨n,body⟩ := r
    simp only [Option.bind_eq_bind,Option.bind_some,decodeItems_eq]
    rcases Option.eq_none_or_eq_some (viewItems (leNat n) body) with hview | ⟨⟨items,rest⟩,hview⟩
    · simp [hview]
    · cases rest with
      | cons b rest => simp [hview]
      | nil =>
        simp only [hview,ne_eq,not_true_eq_false,if_false,Option.bind_some,hitems,Option.all_some,List.isEmpty_nil,
          Bool.true_and,Option.pure_def]
        cases items.mapM fun item => dec item.1 item.2 with
        | none => rfl
        | some vs =>
          cases items.all fun item => full item.1 item.2 with
          | false => rfl
          | true => simp [writeJsonValue,writeJsonItems_eq]

end entries

/-- A value is written as it is decoded, if it is filled; by induction over the nesting. -/
theorem writeValue_writesAs (fuel : ℕ) : WritesAs jsonFloat (writeValue jsonFloat fuel) (decodeNested fuel) (fills fuel) := by
  induction fuel with
  | zero => exact fun tag data => rfl
  | succ fuel ih =>
    intro tag data
    rw [writeValue,fills]
    by_cases h8 : tag = 8
    · simp only [h8,if_true,writeMap_eq ih,decodeNested_map]
    by_cases h9 : tag = 9
    · rw [if_neg h8,if_pos h9,if_neg h8,if_pos h9,writeArray_eq ih,h9,decodeNested_array]
    rw [if_neg h8,if_neg h9,if_neg h8,if_neg h9,writeScalar_eq h8 h9 fuel]
    cases decodeNested (fuel+1) tag data <;> rfl

theorem toJsonBytes_eq (bs : Bytes) : toJsonBytes jsonFloat bs = (HakoDoc.decode bs).bind fun doc =>
    if filled bs then some (doc.toJsonBytes jsonFloat) else none := by
  have hwrites : WritesAs jsonFloat (fun tag data => writeValue jsonFloat (data.length+1) tag data) decodeValue
      (fun tag data => fills (data.length+1) tag data) := fun tag data => writeValue_writesAs (data.length+1) tag data
  rw [toJsonBytes,HakoDoc.decode_eq,filled]
  rcases Option.eq_none_or_eq_some (HakoDocView.new bs) with hview | ⟨view,hview⟩
  · simp [hview]
  simp only [hview,Option.bind_eq_bind,Option.bind_some,decodeEntries_eq]
  rcases Option.eq_none_or_eq_some (viewEntries view.fieldsCount view.body) with hentries | ⟨⟨entries,rest⟩,hentries⟩
  · simp [hentries]
  cases rest with
  | cons b rest =>
    cases hfields : entries.mapM (readEntry decodeValue) <;> simp [hentries,hfields]
  | nil =>
    simp only [hentries,ne_eq,not_true_eq_false,if_false,Option.bind_some,mapM_writeEntry hwrites,Option.all_some]
    cases entries.mapM (readEntry decodeValue) with
    | none => rfl
    | some fields =>
      cases entries.all fun e => fills (e.2.2.length+1) e.2.1 e.2.2 <;> simp [HakoDoc.toJsonBytes]

/-- Written from its bytes, a document gives the JSON of the decoded document, and nothing where nothing is decoded,
unless one of its maps or arrays is decoded without being filled. -/
theorem toJsonBytes_decoded_iff (jsonFloat : F64 → Bytes) (bs : Bytes) :
    toJsonBytes jsonFloat bs = (HakoDoc.decode bs).map (HakoDoc.toJsonBytes jsonFloat) ↔
      HakoDoc.decode bs = none ∨ filled bs = true := by
  rw [toJsonBytes_eq]
  cases HakoDoc.decode bs with
  | none => simp
  | some doc => cases filled bs <;> simp

/-- One byte behind the entries of a nested map: the bytes decode, and they have no JSON. -/
theorem toJsonBytes_loosePacked :
    HakoDoc.decode loosePacked = some ⟨[("a",.map [("b",.int 5)])],0⟩ ∧ toJsonBytes (fun _ => []) loosePacked = none := by
  refine ⟨decode_loosePacked,?_⟩
  rw [toJsonBytes_eq,decode_loosePacked,show filled loosePacked = false by decide +kernel]
  rfl

end agreement

end DocView

end HakoDB

import HakoDB.Document.Accepted
import HakoDB.Document.Json

/-! Documents read in place. A walk over the framing of the stored bytes finds a field and only that field is
decoded; for documents in order this gives what the decoded document gives. -/
namespace HakoDB
open ByteCodec ReadAll

section fuel

variable {bs rest : Bytes} {dec dec' : UInt8 → Bytes → Option Value} {bound : ℕ} {tag : UInt8} {fuel : ℕ}

theorem readShortText_length {s : String} (h : readShortText bs = some (s,rest)) :
    rest.length < bs.length := by
  obtain ⟨rfl,-⟩ := readShortText_eq_some h
  simp [shortText]

theorem readByte_eq_some {b : UInt8} (h : readByte bs = some (b,rest)) : bs = b::rest := by
  cases bs with
  | nil => cases h
  | cons a bs =>
    cases h
    rfl

/-- Decoders that agree on what lies in the bytes read the same entries. -/
theorem decodeEntries_congr (h : ∀ tag data,data.length < bound → dec tag data = dec' tag data) (n : ℕ)
    (hbs : bs.length ≤ bound) :
    decodeEntries dec n bs = decodeEntries dec' n bs := by
  induction n generalizing bs with
  | zero => rfl
  | succ n ih =>
    simp only [decodeEntries]
    refine Option.bind_congr ?_
    rintro ⟨key,bs1⟩ hkey
    refine Option.bind_congr ?_
    rintro ⟨tag,bs2⟩ htag
    refine Option.bind_congr ?_
    rintro ⟨data,bs3⟩ hskip
    have hlen := readShortText_length hkey
    obtain rfl := readByte_eq_some htag
    obtain ⟨rfl,-⟩ := skipValue_eq_some hskip
    simp only [List.length_cons,List.length_append] at hlen
    dsimp only
    rw [h tag data (by omega),ih (by omega)]

theorem decodeItems_congr (h : ∀ tag data,data.length < bound → dec tag data = dec' tag data) (n : ℕ)
    (hbs : bs.length ≤ bound) :
    decodeItems dec n bs = decodeItems dec' n bs := by
  induction n generalizing bs with
  | zero => rfl
  | succ n ih =>
    simp only [decodeItems]
    refine Option.bind_congr ?_
    rintro ⟨tag,bs2⟩ htag
    refine Option.bind_congr ?_
    rintro ⟨data,bs3⟩ hskip
    obtain rfl := readByte_eq_some htag
    obtain ⟨rfl,-⟩ := skipValue_eq_some hskip
    simp only [List.length_cons,List.length_append] at hbs
    dsimp only
    rw [h tag data (by omega),ih (by omega)]

/-- The body of a map behind its length, its values read by `dec`. -/
def decodeMapWith (dec : UInt8 → Bytes → Option Value) (bs : Bytes) : Option Value := do
  let (n,bs) ← take? 2 (bs.drop 4)
  let (fields,_) ← decodeEntries dec (leNat n) bs
  return .map fields

def decodeArrayWith (dec : UInt8 → Bytes → Option Value) (bs : Bytes) : Option Value := do
  let (n,bs) ← take? 4 (bs.drop 4)
  let (items,_) ← decodeItems dec (leNat n) bs
  return .array items

theorem decodeNested_map (fuel : ℕ) (bs : Bytes) :
    decodeNested (fuel+1) 8 bs = decodeMapWith (decodeNested fuel) bs := by
  rw [decodeNested]
  rfl

theorem decodeNested_array (fuel : ℕ) (bs : Bytes) :
    decodeNested (fuel+1) 9 bs = decodeArrayWith (decodeNested fuel) bs := by
  rw [decodeNested]
  rfl

/-- Values that hold no others need no fuel. -/
theorem decodeNested_flat (h8 : tag ≠ 8) (h9 : tag ≠ 9) (fuel fuel' : ℕ) (bs : Bytes) :
    decodeNested (fuel+1) tag bs = decodeNested (fuel'+1) tag bs := by
  have h8' : tag.toNat ≠ 8 := fun h => h8 (UInt8.toNat_inj.1 h)
  have h9' : tag.toNat ≠ 9 := fun h => h9 (UInt8.toNat_inj.1 h)
  rw [decodeNested,decodeNested]
  split_ifs
  all_goals first | rfl | skip
  split
  all_goals first | rfl | exact absurd ‹_› h8' | exact absurd ‹_› h9'

theorem take?_drop_length {w : ℕ} {n : Bytes} (h : take? w (bs.drop 4) = some (n,rest)) :
    rest.length ≤ bs.length := by
  have hlen := congrArg List.length (take?_eq_some h).1
  simp only [List.length_append,List.length_drop] at hlen
  omega

theorem decodeMapWith_congr (h : ∀ tag data,data.length < bs.length → dec tag data = dec' tag data) :
    decodeMapWith dec bs = decodeMapWith dec' bs := by
  refine Option.bind_congr fun ⟨n,rest⟩ ht => ?_
  dsimp only
  rw [decodeEntries_congr h _ (take?_drop_length ht)]

theorem decodeArrayWith_congr (h : ∀ tag data,data.length < bs.length → dec tag data = dec' tag data) :
    decodeArrayWith dec bs = decodeArrayWith dec' bs := by
  refine Option.bind_congr fun ⟨n,rest⟩ ht => ?_
  dsimp only
  rw [decodeItems_congr h _ (take?_drop_length ht)]

/-- Fuel beyond the length of the bytes changes nothing. -/
theorem decodeNested_fuel {fuel' : ℕ} (h : bs.length < fuel) (h' : bs.length < fuel') :
    decodeNested fuel tag bs = decodeNested fuel' tag bs := by
  induction fuel generalizing fuel' tag bs with
  | zero => cases h
  | succ fuel ih =>
    cases fuel' with
    | zero => cases h'
    | succ fuel' =>
      have hinner : ∀ t data,data.length < bs.length → decodeNested fuel t data = decodeNested fuel' t data :=
        fun t data hd => ih (by omega) (by omega)
      by_cases h8 : tag = 8
      · rw [h8,decodeNested_map,decodeNested_map,decodeMapWith_congr hinner]
      by_cases h9 : tag = 9
      · rw [h9,decodeNested_array,decodeNested_array,decodeArrayWith_congr hinner]
      exact decodeNested_flat h8 h9 fuel fuel' bs

theorem decodeNested_eq_decodeValue (h : bs.length < fuel) :
    decodeNested fuel tag bs = decodeValue tag bs := decodeNested_fuel h (Nat.lt_succ_self _)

theorem decodeValue_map (bs : Bytes) : decodeValue 8 bs = decodeMapWith decodeValue bs :=
  (decodeNested_map _ bs).trans (decodeMapWith_congr fun _ _ hd => decodeNested_eq_decodeValue hd)

theorem decodeValue_array (bs : Bytes) : decodeValue 9 bs = decodeArrayWith decodeValue bs :=
  (decodeNested_array _ bs).trans (decodeArrayWith_congr fun _ _ hd => decodeNested_eq_decodeValue hd)

end fuel

/-- One entry of a map, decoded. -/
def readEntry (dec : UInt8 → Bytes → Option Value) (e : Bytes × UInt8 × Bytes) : Option (String × Value) := do
  let key ← fromUtf8 e.1
  let v ← dec e.2.1 e.2.2
  return (key,v)

/-- Entries are decoded as they are delimited, or all are delimited first. -/
theorem decodeEntries_eq (dec : UInt8 → Bytes → Option Value) (n : ℕ) (bs : Bytes) :
    decodeEntries dec n bs = (viewEntries n bs).bind fun r => (r.1.mapM (readEntry dec)).map fun fields => (fields,r.2) := by
  induction n generalizing bs with
  | zero => rfl
  | succ n ih =>
    simp only [decodeEntries,viewEntries,readShortText,Option.bind_eq_bind,Option.bind_assoc,Option.pure_def,
      Option.bind_some]
    refine Option.bind_congr fun l _ => Option.bind_congr fun key _ => ?_
    cases hkey : fromUtf8 key.1 with
    | none =>
      symm
      refine Option.bind_eq_none_iff.2 fun tag _ => Option.bind_eq_none_iff.2 fun data _ => Option.bind_eq_none_iff.2 fun r _ => ?_
      simp [readEntry,hkey]
    | some name =>
      simp only [Option.bind_some]
      refine Option.bind_congr fun tag _ => Option.bind_congr fun data _ => ?_
      rw [ih]
      cases hv : dec tag.1 data.1 with
      | none => simp [readEntry,hkey,hv]
      | some v =>
        cases viewEntries n data.2 with
        | none => rfl
        | some r =>
          cases hr : r.1.mapM (readEntry dec) with
          | none => simp [readEntry,hkey,hv,hr]
          | some fields => simp [readEntry,hkey,hv,hr]

/-- Items likewise. -/
theorem decodeItems_eq (dec : UInt8 → Bytes → Option Value) (n : ℕ) (bs : Bytes) :
    decodeItems dec n bs = (viewItems n bs).bind fun r => (r.1.mapM fun item => dec item.1 item.2).map fun items => (items,r.2) := by
  induction n generalizing bs with
  | zero => rfl
  | succ n ih =>
    simp only [decodeItems,viewItems,Option.bind_eq_bind,Option.bind_assoc,Option.pure_def,Option.bind_some]
    refine Option.bind_congr fun tag _ => Option.bind_congr fun data _ => ?_
    rw [ih]
    cases hv : dec tag.1 data.1 with
    | none => simp [hv]
    | some v =>
      cases viewItems n data.2 with
      | none => rfl
      | some r =>
        cases hr : r.1.mapM fun item => dec item.1 item.2 with
        | none => simp [hv,hr]
        | some items => simp [hv,hr]

/-- A document behind its checked header. -/
structure HakoDocView where
  time : Int64
  fieldsCount : ℕ
  body : Bytes

/-- Walk over the fields up to one of the name. Every key on the way must be text. -/
def findField (name : String) : ℕ → Bytes → Option (UInt8 × Bytes)
  | 0,_ => none
  | n+1,bs => do
    let (key,bs) ← readShortText bs
    let (tag,bs) ← readByte bs
    let (data,bs) ← skipValue tag bs
    if key = name then some (tag,data) else findField name n bs

/-- The same walk inside a map compares the bytes of the keys. -/
def findEntry (seg : String) : ℕ → Bytes → Option (UInt8 × Bytes)
  | 0,_ => none
  | n+1,bs => do
    let (l,bs) ← readByte bs
    let (key,bs) ← take? l.toNat bs
    let (tag,bs) ← readByte bs
    let (data,bs) ← skipValue tag bs
    let _ ← fromUtf8 key
    if key = asBytes seg then some (tag,data) else findEntry seg n bs

/-- One map for every segment that is left. -/
def descendSpan (tag : UInt8) (span : Bytes) : List String → Option (UInt8 × Bytes)
  | [] => some (tag,span)
  | seg::segs =>
    if seg = "" ∨ tag ≠ 8 then none
    else do
      let (n,bs) ← take? 2 (span.drop 4)
      let (tag,span) ← findEntry seg (leNat n) bs
      descendSpan tag span segs

namespace HakoDocView

def new (bs : Bytes) : Option HakoDocView := do
  let (m,bs) ← readByte bs
  let (v,bs) ← readByte bs
  let (t,bs) ← take? 8 bs
  let (n,bs) ← take? 2 bs
  if m = 0xF1 ∧ v = 5 then some ⟨bytesI64 t,leNat n,bs⟩ else none

def getPath (view : HakoDocView) (path : String) : Option Value :=
  match pathSegments path with
  | [] => none
  | first::segs =>
    if first = "" then none
    else do
      let (tag,span) ← findField first view.fieldsCount view.body
      let (tag,span) ← descendSpan tag span segs
      decodeValue tag span

end HakoDocView

namespace DocView

def get (view : HakoDocView) (field : String) : Option Value := do
  let (tag,data) ← findField field view.fieldsCount view.body
  decodeValue tag data

def getPathSpan (view : HakoDocView) (path : String) : Option (UInt8 × Bytes) :=
  match pathSegments path with
  | [] => none
  | first::segs =>
    if first = "" then none
    else do
      let (tag,span) ← findField first view.fieldsCount view.body
      descendSpan tag span segs

def getPath (view : HakoDocView) (path : String) : Option Value := do
  let (tag,span) ← getPathSpan view path
  decodeValue tag span

end DocView

theorem findEntry_eq_findField (seg : String) (n : ℕ) (bs : Bytes) : findEntry seg n bs = findField seg n bs := by
  induction n generalizing bs with
  | zero => rfl
  | succ n ih =>
    simp only [findEntry,findField,readShortText,Option.bind_eq_bind,Option.bind_assoc,Option.pure_def,Option.bind_some]
    refine Option.bind_congr fun l _ => Option.bind_congr fun key _ => ?_
    cases hkey : fromUtf8 key.1 with
    | none => simp
    | some name =>
      have hname : key.1 = asBytes seg ↔ name = seg := by
        rw [← asBytes_of_fromUtf8 hkey,asBytes_injective.eq_iff]
      simp only [Option.bind_some,hname,ih]

variable {bs : Bytes} {fields : List (String × Value)} {doc : HakoDoc} {tag : UInt8} {v : Value}

/-- In bytes that decode, the walk stops at the field that a search in the decoded fields finds. -/
theorem findField_decoded {dec : UInt8 → Bytes → Option Value} (name : String) {n : ℕ} {rest : Bytes}
    (h : decodeEntries dec n bs = some (fields,rest)) :
    ((findField name n bs).bind fun s => dec s.1 s.2) = (fields.find? fun f => f.1 = name).map Prod.snd ∧
      ∀ s,findField name n bs = some s → (dec s.1 s.2).isSome := by
  induction n generalizing bs fields with
  | zero =>
    cases h
    exact ⟨rfl,fun s hs => nomatch hs⟩
  | succ n ih =>
    rw [decodeEntries] at h
    obtain ⟨⟨key,bs1⟩,hkey,h⟩ := Option.bind_eq_some_iff.1 h
    obtain ⟨⟨tag,bs2⟩,htag,h⟩ := Option.bind_eq_some_iff.1 h
    obtain ⟨⟨data,bs3⟩,hskip,h⟩ := Option.bind_eq_some_iff.1 h
    obtain ⟨v,hv,h⟩ := Option.bind_eq_some_iff.1 h
    obtain ⟨⟨more,bs4⟩,hmore,h⟩ := Option.bind_eq_some_iff.1 h
    cases h
    have hwalk : findField name (n+1) bs = if key = name then some (tag,data) else findField name n bs3 := by
      simp [findField,hkey,htag,hskip]
    rw [hwalk]
    by_cases hname : key = name
    · simp [hname,hv]
    · simp only [hname,if_false,List.find?_cons,decide_false]
      exact ih hmore

theorem HakoDoc.decode_eq (bs : Bytes) : HakoDoc.decode bs = (HakoDocView.new bs).bind fun view =>
    (decodeEntries decodeValue view.fieldsCount view.body).bind fun r =>
      if r.2 = [] then some ⟨r.1,view.time⟩ else none := by
  simp only [HakoDoc.decode,HakoDocView.new,Option.bind_eq_bind,Option.bind_assoc]
  refine Option.bind_congr fun m _ => Option.bind_congr fun v _ => Option.bind_congr fun t _ => Option.bind_congr fun n _ => ?_
  split_ifs with hframe
  · simp only [Option.bind_some]
    cases decodeEntries decodeValue (leNat n.1) n.2 with
    | none => rfl
    | some r =>
      obtain ⟨fields,rest⟩ := r
      cases rest <;> rfl
  · rfl

/-- The fields of a document in their place, when they end where the bytes end. -/
def walkEntries : ℕ → Bytes → Option (List (String × UInt8 × Bytes))
  | 0,bs => if bs = [] then some [] else none
  | n+1,bs => do
    let (key,bs) ← readShortText bs
    let (tag,bs) ← readByte bs
    let (data,bs) ← skipValue tag bs
    let entries ← walkEntries n bs
    return (key,tag,data)::entries

def decodeEntry (e : String × UInt8 × Bytes) : Option (String × Value) := (decodeValue e.2.1 e.2.2).map fun v => (e.1,v)

/-- A document decodes when its walk ends well and each field decodes. -/
theorem decodeEntries_eq_walk (n : ℕ) (bs : Bytes) :
    ((decodeEntries decodeValue n bs).bind fun r => if r.2 = [] then some r.1 else none) =
      (walkEntries n bs).bind fun entries => entries.mapM decodeEntry := by
  induction n generalizing bs with
  | zero => by_cases h : bs = [] <;> simp [decodeEntries,walkEntries,h]
  | succ n ih =>
    simp only [decodeEntries,walkEntries,Option.bind_eq_bind,Option.bind_assoc,Option.pure_def,Option.bind_some]
    refine Option.bind_congr fun key _ => Option.bind_congr fun tag _ => Option.bind_congr fun data _ => ?_
    simp only [mapM_cons_option]
    cases hv : decodeValue tag.1 data.1 with
    | none => simp [decodeEntry,hv]
    | some v =>
      have hrest := congrArg (Option.map ((key.1,v)::·)) (ih data.2)
      simp only [Option.map_bind,Function.comp_def] at hrest
      simp only [decodeEntry,hv,Option.map_some,Option.bind_some]
      rw [← hrest]
      refine Option.bind_congr fun r _ => ?_
      split_ifs <;> rfl

theorem HakoDoc.decode_eq_walk (bs : Bytes) : HakoDoc.decode bs = (HakoDocView.new bs).bind fun view =>
    (walkEntries view.fieldsCount view.body).bind fun entries => (entries.mapM decodeEntry).map fun fields => ⟨fields,view.time⟩ := by
  rw [HakoDoc.decode_eq]
  refine Option.bind_congr fun view _ => ?_
  have hwalk := congrArg (Option.map fun fields => (⟨fields,view.time⟩ : HakoDoc)) (decodeEntries_eq_walk view.fieldsCount view.body)
  simp only [Option.map_bind,Function.comp_def] at hwalk
  rw [← hwalk]
  refine Option.bind_congr fun r _ => ?_
  split_ifs <;> rfl

theorem walk_of_decodeEntries {n : ℕ} {fields : List (String × Value)}
    (h : decodeEntries decodeValue n bs = some (fields,[])) :
    ∃ entries,walkEntries n bs = some entries ∧ entries.mapM decodeEntry = some fields := by
  have hwalks := decodeEntries_eq_walk n bs
  rw [h,Option.bind_some,if_pos rfl] at hwalks
  exact Option.bind_eq_some_iff.1 hwalks.symm

theorem HakoDoc.view_of_decode (h : HakoDoc.decode bs = some doc) :
    ∃ view,HakoDocView.new bs = some view ∧ view.time = doc.time ∧
      decodeEntries decodeValue view.fieldsCount view.body = some (doc.fields,[]) := by
  rw [HakoDoc.decode_eq] at h
  obtain ⟨view,hview,h⟩ := Option.bind_eq_some_iff.1 h
  obtain ⟨⟨fields,rest⟩,hfields,h⟩ := Option.bind_eq_some_iff.1 h
  split_ifs at h with hrest
  cases h
  dsimp only at hrest
  subst hrest
  exact ⟨view,hview,rfl,hfields⟩

/-- Only the tags of maps and arrays lead to values that hold others. -/
theorem isScalar_of_decodeValue (h8 : tag ≠ 8) (h9 : tag ≠ 9) (h : decodeValue tag bs = some v) : v.isScalar := by
  have h8' : tag.toNat ≠ 8 := fun h => h8 (UInt8.toNat_inj.1 h)
  have h9' : tag.toNat ≠ 9 := fun h => h9 (UInt8.toNat_inj.1 h)
  rw [decodeValue,decodeNested] at h
  simp only [Option.bind_eq_bind,Option.pure_def] at h
  split_ifs at h
  · cases h
    rfl
  · cases h
    rfl
  · cases h
    rfl
  · cases h
    rfl
  · cases h
    rfl
  · obtain ⟨_,_,h⟩ := Option.bind_eq_some_iff.1 h
    obtain ⟨_,_,h⟩ := Option.bind_eq_some_iff.1 h
    cases h
    rfl
  · split at h <;> simp only [Option.bind_eq_some_iff,Option.map_eq_some_iff,Option.some.injEq] at h <;>
      grind [Value.isScalar]

theorem tag_of_decodeValue_map (h : decodeValue tag bs = some (.map fields)) : tag = 8 := by
  by_contra h8
  by_cases h9 : tag = 9
  · rw [h9,decodeValue_array] at h
    obtain ⟨⟨n,rest⟩,-,h⟩ := Option.bind_eq_some_iff.1 h
    obtain ⟨⟨items,_⟩,-,h⟩ := Option.bind_eq_some_iff.1 h
    cases h
  · exact absurd (isScalar_of_decodeValue h8 h9 h) (by simp [Value.isScalar])

/-- Behind a span that decodes, the walk through the maps gives what the decoded value gives. -/
theorem descendSpan_decoded {span : Bytes} (h : decodeValue tag span = some v) (segs : List String) :
    ((descendSpan tag span segs).bind fun s => decodeValue s.1 s.2) = v.descend segs := by
  induction segs generalizing tag span v with
  | nil => simpa [descendSpan,Value.descend] using h
  | cons seg segs ih =>
    rw [descendSpan]
    by_cases hseg : seg = ""
    · simp [hseg,Value.descend]
    by_cases h8 : tag = 8
    · rw [h8,decodeValue_map] at h
      obtain ⟨⟨n,body⟩,hn,h⟩ := Option.bind_eq_some_iff.1 h
      obtain ⟨⟨fields,rest⟩,hfields,h⟩ := Option.bind_eq_some_iff.1 h
      cases h
      obtain ⟨hfind,hsome⟩ := findField_decoded seg hfields
      simp only [hseg,h8,ne_eq,not_true_eq_false,or_self,if_false,hn,Option.bind_eq_bind,Option.bind_some,
        findEntry_eq_findField,Value.descend]
      cases hhit : findField seg (leNat n) body with
      | none =>
        rw [hhit] at hfind
        have hnone : (fields.find? fun f => f.1 = seg) = none := by simpa using hfind.symm
        simp [hnone]
      | some s =>
        rw [hhit] at hfind
        obtain ⟨w,hw⟩ := Option.isSome_iff_exists.1 (hsome s hhit)
        obtain ⟨f,hf,hfw⟩ : ∃ f,(fields.find? fun f => f.1 = seg) = some f ∧ f.2 = w := by
          simpa [hw] using hfind.symm
        simp only [Option.bind_some,hf]
        rw [ih hw,hfw]
    · have hother : ∀ fields,v ≠ .map fields := fun fields hv => h8 (tag_of_decodeValue_map (hv ▸ h))
      rw [if_pos (.inr h8)]
      cases v with
      | map fields => exact absurd rfl (hother fields)
      | _ => simp [Value.descend,hseg]

/-- The keys of the document in strictly increasing order, as inserting keeps them. -/
def HakoDoc.Ascending (doc : HakoDoc) : Prop := doc.fields.Pairwise fun a b => a.1 < b.1

instance (doc : HakoDoc) : Decidable doc.Ascending :=
  inferInstanceAs (Decidable (doc.fields.Pairwise fun a b => a.1 < b.1))

theorem HakoDoc.Ascending.ordered (h : doc.Ascending) (key : String) :
    BinarySearch.Ordered (fun f : String × Value => compare f.1 key) doc.fields := by
  refine h.imp fun {a b} hab => ⟨?_,?_⟩
  · simp only [compare_lt_iff_lt]
    exact hab.trans
  · simp only [compare_gt_iff_gt]
    exact fun hgt => lt_trans hgt hab

/-- Where the keys ascend, the binary search finds what a walk over the fields finds. -/
theorem HakoDoc.get_eq_find? (h : doc.Ascending) (key : String) :
    doc.get key = (doc.fields.find? fun f => f.1 = key).map Prod.snd := by
  have hspec := BinarySearch.search_spec (h.ordered key)
  unfold HakoDoc.get HakoDoc.search
  cases hsearch : BinarySearch.search (fun f : String × Value => compare f.1 key) doc.fields with
  | ok i =>
    rw [hsearch] at hspec
    obtain ⟨f,hf,heq⟩ := hspec
    have hkey : f.1 = key := compare_eq_iff_eq.1 heq
    cases hfind : doc.fields.find? fun f => f.1 = key with
    | none => simpa [hkey] using List.find?_eq_none.1 hfind f (List.mem_of_getElem? hf)
    | some g =>
      have hgkey : g.1 = key := by simpa using List.find?_some hfind
      have hgf : g = f := by
        by_contra hne
        have : Std.Symm fun a b : String × Value => a.1 ≠ b.1 := ⟨fun _ _ h => h.symm⟩
        exact (h.imp fun hab => hab.ne).forall (List.mem_of_find?_eq_some hfind) (List.mem_of_getElem? hf) hne
          (hgkey.trans hkey.symm)
      simp [hf,hgf]
  | error i =>
    rw [hsearch] at hspec
    obtain ⟨-,hbefore,hafter⟩ := hspec
    have hnone : (doc.fields.find? fun f => f.1 = key) = none := by
      refine List.find?_eq_none.2 fun f hf => ?_
      rw [← List.take_append_drop i doc.fields,List.mem_append] at hf
      have hne : compare f.1 key ≠ .eq := by
        rcases hf with hf | hf
        · simp [hbefore f hf]
        · simp [hafter f hf]
      simpa [compare_eq_iff_eq] using hne
    simp [hnone]

section agreement
variable {bs : Bytes} {doc : HakoDoc} {view : HakoDocView}

theorem DocView.get_decoded (hfields : decodeEntries decodeValue view.fieldsCount view.body = some (doc.fields,[]))
    (h : doc.Ascending) (field : String) : DocView.get view field = doc.get field := by
  rw [HakoDoc.get_eq_find? h,← (findField_decoded field hfields).1]
  rfl

theorem HakoDocView.getPath_eq (path : String) : view.getPath path = DocView.getPath view path := by
  unfold HakoDocView.getPath DocView.getPath DocView.getPathSpan
  cases pathSegments path with
  | nil => rfl
  | cons first segs =>
    dsimp only
    split_ifs
    · rfl
    · simp only [Option.bind_eq_bind,Option.bind_assoc]

theorem DocView.getPath_decoded (hfields : decodeEntries decodeValue view.fieldsCount view.body = some (doc.fields,[]))
    (h : doc.Ascending) (path : String) : DocView.getPath view path = doc.getPath path := by
  unfold DocView.getPath DocView.getPathSpan HakoDoc.getPath
  cases pathSegments path with
  | nil => rfl
  | cons first segs =>
    dsimp only
    split_ifs
    · rfl
    obtain ⟨hfind,hsome⟩ := findField_decoded first hfields
    rw [HakoDoc.get_eq_find? h,← hfind]
    cases hhit : findField first view.fieldsCount view.body with
    | none => rfl
    | some s =>
      obtain ⟨w,hw⟩ := Option.isSome_iff_exists.1 (hsome s hhit)
      simp only [Option.bind_eq_bind,Option.bind_some,hw]
      exact descendSpan_decoded hw segs

end agreement

/-- Reading in place gives, for every field and every dotted path, what the decoded document gives. -/
theorem views_agree_with_decoded {bs : Bytes} {doc : HakoDoc} (hdecode : HakoDoc.decode bs = some doc)
    (h : doc.Ascending) : ∃ view,HakoDocView.new bs = some view ∧ (∀ field,DocView.get view field = doc.get field) ∧
      ∀ path,DocView.getPath view path = doc.getPath path ∧ view.getPath path = doc.getPath path := by
  obtain ⟨view,hview,-,hfields⟩ := HakoDoc.view_of_decode hdecode
  refine ⟨view,hview,DocView.get_decoded hfields h,fun path => ?_⟩
  rw [HakoDocView.getPath_eq]
  exact ⟨DocView.getPath_decoded hfields h path,DocView.getPath_decoded hfields h path⟩

/-- The bytes of a document whose only field is a map of one entry, with one more byte behind that entry. -/
def loosePacked : Bytes :=
  [0xF1,5,0,0,0,0,0,0,0,0,1,0,1,0x61,8,6,0,0,0,1,0,1,0x62,0x15,0xFF]

theorem decode_loosePacked : HakoDoc.decode loosePacked = some ⟨[("a",.map [("b",.int 5)])],0⟩ := by decide +kernel

theorem views_agree_loosePacked : (HakoDoc.mk [("a",.map [("b",.int 5)])] 0).Ascending ∧
    ∃ view,HakoDocView.new loosePacked = some view ∧
      (∀ field,DocView.get view field = (HakoDoc.mk [("a",.map [("b",.int 5)])] 0).get field) ∧
      ∀ path,DocView.getPath view path = (HakoDoc.mk [("a",.map [("b",.int 5)])] 0).getPath path ∧
        view.getPath path = (HakoDoc.mk [("a",.map [("b",.int 5)])] 0).getPath path :=
  ⟨by decide,views_agree_with_decoded decode_loosePacked (by decide)⟩

end HakoDB

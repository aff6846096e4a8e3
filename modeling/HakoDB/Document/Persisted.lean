import HakoDB.Lib.ReadAll
import HakoDB.Document.Value
import Mathlib.Tactic

/-! Values in the JSON of a persisted definition. The variants carry no tag: the first one whose shape accepts
the tree is what is read back. -/
namespace HakoDB
open ByteCodec ReadAll

/-- A JSON tree, as the serializer hands it on. -/
inductive Json
  | null
  | bool (b : Bool)
  | int (n : ℤ)
  | float (f : F64)
  | str (s : String)
  | arr (items : List Json)
  | obj (fields : List (String × Json))

namespace Json

def asInt : Json → Option ℤ
  | int n => some n
  | _ => none

/-- A number that fits into so many bits. -/
def asNat (width : ℕ) (j : Json) : Option ℕ := j.asInt.bind fun n => if 0 ≤ n ∧ n < 2^width then some n.toNat else none

def asI64 (j : Json) : Option Int64 := j.asInt.bind fun n => if -2^63 ≤ n ∧ n < 2^63 then some (.ofInt n) else none

def asStr : Json → Option String
  | str s => some s
  | _ => none

/-- The one field of that name; others are ignored. -/
def field (name : String) (fields : List (String × Json)) : Option Json :=
  match fields.filter fun f => f.1 = name with
  | [f] => some f.2
  | _ => none

/-- The two fields of a variant, by name from an object or by place from a list. -/
def pair (first second : String) : Json → Option (Json × Json)
  | arr [a,b] => some (a,b)
  | obj fields => (field first fields).bind fun a => (field second fields).map fun b => (a,b)
  | _ => none

def asList : Json → Option (List Json)
  | arr items => some items
  | _ => none

end Json

namespace Persisted

section write
variable (floatJson : F64 → Json)

mutual
def serialize : Value → Json
  | .null => .null
  | .bool b => .bool b
  | .int n => .int n.toInt
  | .float f => floatJson f
  | .string s => .str s
  | .binary bs => .arr (bs.map fun b => .int b.toNat)
  | .blobLink offset len => .obj [("offset",.int offset.toNat),("len",.int len.toNat)]
  | .reference collection docId => .obj [("collection",.str collection),("doc_id",.str docId)]
  | .timestamp micros => .int micros.toInt
  | .serverTimestamp => .null
  | .map fields => .arr (serializeFields fields)
  | .array items => .arr (serializeItems items)
def serializeFields : List (String × Value) → List Json
  | [] => []
  | (key,value)::fields => .arr [.str key,serialize value]::serializeFields fields
def serializeItems : List Value → List Json
  | [] => []
  | value::items => serialize value::serializeItems items
end

end write

section read
variable (wide : ℤ → F64)

/-- Any number; what an integer beyond 64 bits is rounded to. -/
def asFloat : Json → Option F64
  | .float f => some f
  | .int n => some (wide n)
  | _ => none

def asBinary (j : Json) : Option Bytes := j.asList.bind fun items => items.mapM fun i : Json => (i.asNat 8).map UInt8.ofNat

def asLink (j : Json) : Option Value :=
  (j.pair "offset" "len").bind fun p => (p.1.asNat 64).bind fun offset => (p.2.asNat 32).map fun len =>
    .blobLink (.ofNat offset) (.ofNat len)

def asReference (j : Json) : Option Value :=
  (j.pair "collection" "doc_id").bind fun p => p.1.asStr.bind fun collection => p.2.asStr.map fun docId =>
    .reference collection docId

/-- The variants that hold no values, in the order of their declaration. -/
def readFlat (j : Json) : Option Value :=
  (match j with | .null => some .null | _ => none)
    <|> (match j with | .bool b => some (.bool b) | _ => none)
    <|> j.asI64.map .int
    <|> (asFloat wide j).map .float
    <|> j.asStr.map .string
    <|> (asBinary j).map .binary
    <|> asLink j
    <|> asReference j
    <|> j.asI64.map .timestamp
    <|> (match j with | .null => some .serverTimestamp | _ => none)

mutual
def deserialize : Json → Option Value
  | .arr items => readFlat wide (.arr items) <|> (readEntries items).map .map <|> (readItems items).map .array
  | j => readFlat wide j
/-- The entries of a map are pairs of a key and a value. -/
def readEntries : List Json → Option (List (String × Value))
  | [] => some []
  | .arr [.str key,value]::rest =>
    (deserialize value).bind fun v => (readEntries rest).map fun entries => (key,v)::entries
  | _::_ => none
def readItems : List Json → Option (List Value)
  | [] => some []
  | item::rest => (deserialize item).bind fun v => (readItems rest).map fun items => v::items
end

/-- A default that may be missing; nothing is written as null. -/
def deserializeOption (j : Json) : Option (Option Value) :=
  match j with
  | .null => some none
  | j => (deserialize wide j).map some

end read

def isByte : Value → Bool
  | .int n => 0 ≤ n.toInt && n.toInt < 2^8
  | _ => false

def looksBinary (items : List Value) : Bool := items.all isByte

def looksLink : List Value → Bool
  | [.int offset,.int len] => 0 ≤ offset.toInt && 0 ≤ len.toInt && len.toInt < 2^32
  | _ => false

def looksReference : List Value → Bool
  | [.string _,.string _] => true
  | _ => false

def isEntry : Value → Bool
  | .array [.string _,_] => true
  | _ => false

/-- The list has the shape of an earlier variant: bytes, the fields of a link or a reference, the entries of a map. -/
def mistaken (items : List Value) : Bool :=
  looksBinary items || looksLink items || looksReference items || items.all isEntry

mutual
/-- Nothing in the value has the shape of an earlier variant. -/
def unmistaken : Value → Bool
  | .timestamp _ | .serverTimestamp => false
  | .map fields => !fields.isEmpty && unmistakenFields fields
  | .array items => !mistaken items && unmistakenItems items
  | _ => true
def unmistakenFields : List (String × Value) → Bool
  | [] => true
  | (_,value)::fields => unmistaken value && unmistakenFields fields
def unmistakenItems : List Value → Bool
  | [] => true
  | value::items => unmistaken value && unmistakenItems items
end

mutual
def floatFree : Value → Bool
  | .float _ => false
  | .map fields => floatFreeFields fields
  | .array items => floatFreeItems items
  | _ => true
def floatFreeFields : List (String × Value) → Bool
  | [] => true
  | (_,value)::fields => floatFree value && floatFreeFields fields
def floatFreeItems : List Value → Bool
  | [] => true
  | value::items => floatFree value && floatFreeItems items
end

section scalars
variable {floatJson : F64 → Json} {wide : ℤ → F64}

theorem asI64_toInt (n : Int64) : (Json.int n.toInt).asI64 = some n := by
  have hle : n.toInt ≤ 2^63-1 := n.toInt_le
  have hge : -2^63 ≤ n.toInt := n.le_toInt
  have hfits : -2^63 ≤ n.toInt ∧ n.toInt < 2^63 := ⟨hge,by omega⟩
  rw [Json.asI64,Json.asInt,Option.bind_some,if_pos hfits,Int64.ofInt_toInt]

theorem asNat_toNat {width n : ℕ} (h : n < 2^width) : (Json.int n).asNat width = some n := by
  have hfits : 0 ≤ (n : ℤ) ∧ (n : ℤ) < 2^width := ⟨Int.natCast_nonneg n,by exact_mod_cast h⟩
  rw [Json.asNat,Json.asInt,Option.bind_some,if_pos hfits,Int.toNat_natCast]

theorem readFlat_int (n : Int64) : readFlat wide (.int n.toInt) = some (.int n) := by
  simp [readFlat,asI64_toInt]

theorem orElse_none (o : Option Value) : (o <|> none <|> none) = o := by
  cases o <;> rfl

theorem readFlat_arr (items : List Json) : readFlat wide (.arr items) =
    ((asBinary (.arr items)).map .binary <|> asLink (.arr items) <|> asReference (.arr items)) := by
  rw [← orElse_none (asReference (.arr items))]
  rfl

theorem readFlat_obj (fields : List (String × Json)) : readFlat wide (.obj fields) =
    (asLink (.obj fields) <|> asReference (.obj fields)) := by
  rw [← orElse_none (asReference (.obj fields))]
  rfl

theorem asBinary_bytes (bs : Bytes) : asBinary (.arr (bs.map fun b => .int b.toNat)) = some bs := by
  rw [asBinary,Json.asList,Option.bind_some]
  induction bs with
  | nil => rfl
  | cons b bs ih =>
    rw [List.map_cons,List.mapM_cons,asNat_toNat b.toNat_lt,ih]
    simp

theorem asLink_fields (offset : UInt64) (len : UInt32) :
    asLink (.obj [("offset",.int offset.toNat),("len",.int len.toNat)]) = some (.blobLink offset len) := by
  have hpair : (Json.obj [("offset",.int offset.toNat),("len",.int len.toNat)]).pair "offset" "len" =
      some (.int offset.toNat,.int len.toNat) := rfl
  rw [asLink,hpair,Option.bind_some,asNat_toNat offset.toNat_lt,Option.bind_some,asNat_toNat len.toNat_lt,Option.map_some,
    UInt64.ofNat_toNat,UInt32.ofNat_toNat]

/-- What is read back of a scalar: itself, unless an earlier one is written the same way. -/
theorem deserialize_scalar (floatJson : F64 → Json) (wide : ℤ → F64) {v : Value} (hv : v.isScalar) (hfloat : floatFree v) :
    ∃ w,deserialize wide (serialize floatJson v) = some w ∧ (w = v ↔ unmistaken v) := by
  cases v with
  | null => exact ⟨.null,rfl,iff_of_true rfl rfl⟩
  | bool b => exact ⟨.bool b,rfl,iff_of_true rfl rfl⟩
  | int n => exact ⟨.int n,readFlat_int n,iff_of_true rfl rfl⟩
  | float f => cases hfloat
  | string s => exact ⟨.string s,rfl,iff_of_true rfl rfl⟩
  | binary bs => exact ⟨.binary bs,by rw [serialize,deserialize,readFlat_arr,asBinary_bytes]; rfl,iff_of_true rfl rfl⟩
  | blobLink offset len => exact ⟨.blobLink offset len,(readFlat_obj _).trans (by rw [asLink_fields]; rfl),iff_of_true rfl rfl⟩
  | reference collection docId => exact ⟨.reference collection docId,rfl,iff_of_true rfl rfl⟩
  | timestamp micros => exact ⟨.int micros,readFlat_int micros,iff_of_false Value.noConfusion Bool.false_ne_true⟩
  | serverTimestamp => exact ⟨.null,rfl,iff_of_false Value.noConfusion Bool.false_ne_true⟩
  | map fields => cases hv
  | array items => cases hv

end scalars

section shapes
variable {floatJson : F64 → Json} {wide : ℤ → F64}
variable {v : Value} {s : String} {j : Json} {items : List Value} {fields : List (String × Value)}

theorem serialize_eq_int {n : ℤ} (h : serialize floatJson v = .int n) (hfloat : floatFree v) (hv : unmistaken v) :
    ∃ m : Int64,v = .int m ∧ m.toInt = n := by
  cases v <;> rw [serialize] at h
  case int m => exact ⟨m,rfl,Json.int.inj h⟩
  case timestamp => cases hv
  case float => cases hfloat
  all_goals cases h

theorem serialize_eq_str (h : serialize floatJson v = .str s) (hfloat : floatFree v) :
    v = .string s := by
  cases v <;> rw [serialize] at h
  case string t => rw [Json.str.inj h]
  case float => cases hfloat
  all_goals cases h

theorem serialize_eq_entry {key : String} (h : serialize floatJson v = .arr [.str key,j]) (hfloat : floatFree v) :
    isEntry v := by
  cases v <;> rw [serialize] at h
  case float => cases hfloat
  case binary bs =>
    cases bs <;> cases Json.arr.inj h
  case map fields =>
    cases fields <;> cases Json.arr.inj h
  case array items =>
    have hitems := Json.arr.inj h
    rcases items with _ | ⟨a,_ | ⟨b,_ | ⟨c,items⟩⟩⟩
    · simp [serializeItems] at hitems
    · simp [serializeItems] at hitems
    · simp only [serializeItems,List.cons.injEq] at hitems
      simp only [floatFree,floatFreeItems,Bool.and_eq_true] at hfloat
      rw [serialize_eq_str hitems.1 hfloat.1]
      rfl
    · simp [serializeItems] at hitems
  all_goals cases h

theorem floatFreeItems_iff : floatFreeItems items ↔ ∀ v ∈ items,floatFree v := by
  induction items with
  | nil => simp [floatFreeItems]
  | cons w items ih => simp [floatFreeItems,ih]

theorem floatFreeFields_iff : floatFreeFields fields ↔ ∀ f ∈ fields,floatFree f.2 := by
  induction fields with
  | nil => simp [floatFreeFields]
  | cons f fields ih => simp [floatFreeFields,ih]

theorem unmistakenItems_iff : unmistakenItems items ↔ ∀ v ∈ items,unmistaken v := by
  induction items with
  | nil => simp [unmistakenItems]
  | cons w items ih => simp [unmistakenItems,ih]

theorem unmistakenFields_iff : unmistakenFields fields ↔ ∀ f ∈ fields,unmistaken f.2 := by
  induction fields with
  | nil => simp [unmistakenFields]
  | cons f fields ih => simp [unmistakenFields,ih]

/-- The entries of a map come back with what their values come back as. -/
theorem readEntries_serializeFields (h : ∀ f ∈ fields,∃ w,deserialize wide (serialize floatJson f.2) = some w) :
    ∃ entries,readEntries wide (serializeFields floatJson fields) = some entries ∧
      (entries = fields ↔ ∀ f ∈ fields,deserialize wide (serialize floatJson f.2) = some f.2) := by
  induction fields with
  | nil => exact ⟨[],rfl,by simp⟩
  | cons f fields ih =>
    obtain ⟨key,value⟩ := f
    obtain ⟨w,hw⟩ := h (key,value) List.mem_cons_self
    obtain ⟨entries,hentries,hrest⟩ := ih fun f hf => h f (List.mem_cons_of_mem _ hf)
    refine ⟨(key,w)::entries,?_,?_⟩
    · rw [serializeFields,readEntries,hw,hentries]
      rfl
    · rw [List.forall_mem_cons,← hrest,hw]
      simp

theorem readItems_serializeItems (h : ∀ v ∈ items,∃ w,deserialize wide (serialize floatJson v) = some w) :
    ∃ read,readItems wide (serializeItems floatJson items) = some read ∧
      (read = items ↔ ∀ v ∈ items,deserialize wide (serialize floatJson v) = some v) := by
  induction items with
  | nil => exact ⟨[],rfl,by simp⟩
  | cons v items ih =>
    obtain ⟨w,hw⟩ := h v List.mem_cons_self
    obtain ⟨read,hread,hrest⟩ := ih fun v hv => h v (List.mem_cons_of_mem _ hv)
    refine ⟨w::read,?_,?_⟩
    · rw [serializeItems,readItems,hw,hread]
      rfl
    · rw [List.forall_mem_cons,← hrest,hw]
      simp

/-- A map is not mistaken unless it is empty. -/
theorem readFlat_serializeFields {f : String × Value} :
    readFlat wide (.arr (serializeFields floatJson (f::fields))) = none := by
  obtain ⟨key,value⟩ := f
  rw [readFlat_arr,serializeFields]
  cases fields with
  | nil => rfl
  | cons g fields =>
    obtain ⟨key',value'⟩ := g
    cases fields <;> rfl

theorem serializeItems_eq (items : List Value) : serializeItems floatJson items = items.map (serialize floatJson) := by
  induction items with
  | nil => rfl
  | cons v items ih => rw [serializeItems,ih,List.map_cons]

theorem isSome_asNat {width : ℕ} : (j.asNat width).isSome ↔ ∃ n,j = .int n ∧ 0 ≤ n ∧ n < 2^width := by
  cases j with
  | int n =>
    simp only [Json.asNat,Json.asInt,Option.bind_some,Json.int.injEq,exists_eq_left']
    split <;> simp_all
  | _ => simp [Json.asNat,Json.asInt]

theorem isSome_asBinary (hfloat : floatFreeItems items) :
    (looksBinary items → (asBinary (.arr (serializeItems floatJson items))).isSome) ∧
    (unmistakenItems items → (asBinary (.arr (serializeItems floatJson items))).isSome → looksBinary items) := by
  rw [asBinary,Json.asList,Option.bind_some,serializeItems_eq,isSome_mapM]
  simp only [Option.isSome_map,List.forall_mem_map,looksBinary,List.all_eq_true,isSome_asNat]
  constructor
  · intro h v hv
    have hbyte := h v hv
    cases v with
    | int n =>
      rw [isByte,Bool.and_eq_true,decide_eq_true_eq,decide_eq_true_eq] at hbyte
      exact ⟨n.toInt,rfl,hbyte⟩
    | _ => cases hbyte
  · intro hkept h v hv
    obtain ⟨n,hn,hbounds⟩ := h v hv
    obtain ⟨m,rfl,rfl⟩ := serialize_eq_int hn (floatFreeItems_iff.1 hfloat v hv) (unmistakenItems_iff.1 hkept v hv)
    rw [isByte,Bool.and_eq_true,decide_eq_true_eq,decide_eq_true_eq]
    exact hbounds

/-- Two values in the places of two fields. -/
theorem pair_serializeItems {first second : String} {a b : Json}
    (h : (Json.arr (serializeItems floatJson items)).pair first second = some (a,b)) :
    ∃ v w,items = [v,w] ∧ a = serialize floatJson v ∧ b = serialize floatJson w := by
  rcases items with _ | ⟨v,_ | ⟨w,_ | ⟨x,items⟩⟩⟩
  · cases h
  · cases h
  · obtain ⟨rfl,rfl⟩ := Prod.mk.inj (Option.some.inj h)
    exact ⟨v,w,rfl,rfl,rfl⟩
  · cases h

theorem isSome_asLink (hfloat : floatFreeItems items) :
    (looksLink items → (asLink (.arr (serializeItems floatJson items))).isSome) ∧
    (unmistakenItems items → (asLink (.arr (serializeItems floatJson items))).isSome → looksLink items) := by
  constructor
  · intro h
    unfold looksLink at h
    split at h
    · rename_i offset len
      rw [Bool.and_eq_true,Bool.and_eq_true,decide_eq_true_eq,decide_eq_true_eq,decide_eq_true_eq] at h
      have hmax : offset.toInt ≤ 2^63-1 := offset.toInt_le
      have hoffset : ((Json.int offset.toInt).asNat 64).isSome := isSome_asNat.2 ⟨_,rfl,h.1.1,by omega⟩
      have hlen : ((Json.int len.toInt).asNat 32).isSome := isSome_asNat.2 ⟨_,rfl,h.1.2,h.2⟩
      obtain ⟨o,ho⟩ := Option.isSome_iff_exists.1 hoffset
      obtain ⟨l,hl⟩ := Option.isSome_iff_exists.1 hlen
      have hpair : (Json.arr (serializeItems floatJson [.int offset,.int len])).pair "offset" "len" =
          some (.int offset.toInt,.int len.toInt) := rfl
      rw [asLink,hpair,Option.bind_some,ho,Option.bind_some,hl]
      rfl
    · cases h
  · intro hkept h
    obtain ⟨w,hw⟩ := Option.isSome_iff_exists.1 h
    obtain ⟨⟨a,b⟩,hpair,hw⟩ := Option.bind_eq_some_iff.1 hw
    obtain ⟨offset,hoffset,hw⟩ := Option.bind_eq_some_iff.1 hw
    obtain ⟨len,hlen,-⟩ := Option.map_eq_some_iff.1 hw
    obtain ⟨v,w,rfl,rfl,rfl⟩ := pair_serializeItems hpair
    obtain ⟨m,hm,hm0,-⟩ := isSome_asNat.1 (Option.isSome_of_eq_some hoffset)
    obtain ⟨n,hn,hn0,hn1⟩ := isSome_asNat.1 (Option.isSome_of_eq_some hlen)
    obtain ⟨m,rfl,rfl⟩ := serialize_eq_int hm (floatFreeItems_iff.1 hfloat _ (by simp)) (unmistakenItems_iff.1 hkept _ (by simp))
    obtain ⟨n,rfl,rfl⟩ := serialize_eq_int hn (floatFreeItems_iff.1 hfloat _ (by simp)) (unmistakenItems_iff.1 hkept _ (by simp))
    rw [looksLink,Bool.and_eq_true,Bool.and_eq_true,decide_eq_true_eq,decide_eq_true_eq,decide_eq_true_eq]
    exact ⟨⟨hm0,hn0⟩,hn1⟩

theorem asStr_eq_some (h : j.asStr = some s) : j = .str s := by
  cases j with
  | str t => rw [Option.some.inj h]
  | _ => cases h

theorem isSome_asReference (hfloat : floatFreeItems items) :
    (asReference (.arr (serializeItems floatJson items))).isSome ↔ looksReference items := by
  constructor
  · intro h
    obtain ⟨w,hw⟩ := Option.isSome_iff_exists.1 h
    obtain ⟨⟨a,b⟩,hpair,hw⟩ := Option.bind_eq_some_iff.1 hw
    obtain ⟨collection,hcollection,hw⟩ := Option.bind_eq_some_iff.1 hw
    obtain ⟨docId,hdocId,-⟩ := Option.map_eq_some_iff.1 hw
    obtain ⟨v,w,rfl,rfl,rfl⟩ := pair_serializeItems hpair
    rw [serialize_eq_str (asStr_eq_some hcollection) (floatFreeItems_iff.1 hfloat _ (by simp)),
      serialize_eq_str (asStr_eq_some hdocId) (floatFreeItems_iff.1 hfloat _ (by simp))]
    rfl
  · intro h
    unfold looksReference at h
    split at h
    · rfl
    · cases h

theorem deserialize_arr (items : List Json) : deserialize wide (.arr items) =
    (readFlat wide (.arr items) <|> (readEntries wide items).map .map <|> (readItems wide items).map .array) := by
  rw [deserialize]

/-- Every value is read back as something. -/
theorem deserialize_total (floatJson : F64 → Json) (wide : ℤ → F64) (hfloat : floatFree v) :
    ∃ w,deserialize wide (serialize floatJson v) = some w := by
  induction v using Value.nested_induction with
  | scalar v hv =>
    obtain ⟨w,hw,-⟩ := deserialize_scalar floatJson wide hv hfloat
    exact ⟨w,hw⟩
  | map fields ih =>
    have hfields : ∀ f ∈ fields,∃ w,deserialize wide (serialize floatJson f.2) = some w :=
      fun f hf => ih f hf (floatFreeFields_iff.1 hfloat f hf)
    obtain ⟨entries,hentries,-⟩ := readEntries_serializeFields hfields
    rw [serialize,deserialize_arr,hentries]
    cases readFlat wide (.arr (serializeFields floatJson fields)) <;> exact ⟨_,rfl⟩
  | array items ih =>
    have hitems : ∀ v ∈ items,∃ w,deserialize wide (serialize floatJson v) = some w :=
      fun v hv => ih v hv (floatFreeItems_iff.1 hfloat v hv)
    obtain ⟨read,hread,-⟩ := readItems_serializeItems hitems
    rw [serialize,deserialize_arr,hread]
    cases readFlat wide (.arr (serializeItems floatJson items)) with
    | some w => exact ⟨w,rfl⟩
    | none => cases readEntries wide (serializeItems floatJson items) <;> exact ⟨_,rfl⟩

theorem isSome_readEntries (hfloat : floatFreeItems items) :
    (readEntries wide (serializeItems floatJson items)).isSome ↔ items.all isEntry := by
  induction items with
  | nil => exact iff_of_true rfl rfl
  | cons v items ih =>
    rw [floatFreeItems,Bool.and_eq_true] at hfloat
    rw [List.all_cons,Bool.and_eq_true,← ih hfloat.2,serializeItems]
    constructor
    · intro h
      unfold readEntries at h
      split at h
      · rename_i heq
        cases heq
      · rename_i key value rest heq
        obtain ⟨hv,hrest⟩ := List.cons.inj heq
        obtain ⟨entries,hentries⟩ := Option.isSome_iff_exists.1 h
        obtain ⟨w,-,hmore⟩ := Option.bind_eq_some_iff.1 hentries
        obtain ⟨more,hmore,-⟩ := Option.map_eq_some_iff.1 hmore
        exact ⟨serialize_eq_entry hv hfloat.1,by rw [hrest,hmore]; rfl⟩
      · cases h
    · rintro ⟨hv,hrest⟩
      unfold isEntry at hv
      split at hv
      · rename_i key value
        have hvalue : floatFree value := by
          have := hfloat.1
          simp only [floatFree,floatFreeItems,Bool.and_eq_true] at this
          exact this.2.1
        obtain ⟨w,hw⟩ := deserialize_total floatJson wide hvalue
        obtain ⟨more,hmore⟩ := Option.isSome_iff_exists.1 hrest
        have hread : readEntries wide (.arr [.str key,serialize floatJson value]::serializeItems floatJson items) =
            some ((key,w)::more) := by
          rw [readEntries,hw,hmore]
          rfl
        exact Option.isSome_of_eq_some hread
      · cases hv

/-- An earlier variant that takes the list is no list. -/
theorem readFlat_ne_array {read : List Value} (w : Value)
    (h : readFlat wide (.arr (serializeItems floatJson items)) = some w) : w ≠ .array read := by
  rw [readFlat_arr] at h
  rintro rfl
  rcases (Option.orElse_eq_some ..).1 h with h | ⟨-,h⟩
  · obtain ⟨bs,-,hbs⟩ := Option.map_eq_some_iff.1 h
    cases hbs
  rcases (Option.orElse_eq_some ..).1 h with h | ⟨-,h⟩
  · obtain ⟨p,-,h⟩ := Option.bind_eq_some_iff.1 h
    obtain ⟨offset,-,h⟩ := Option.bind_eq_some_iff.1 h
    obtain ⟨len,-,h⟩ := Option.map_eq_some_iff.1 h
    cases h
  · obtain ⟨p,-,h⟩ := Option.bind_eq_some_iff.1 h
    obtain ⟨collection,-,h⟩ := Option.bind_eq_some_iff.1 h
    obtain ⟨docId,-,h⟩ := Option.map_eq_some_iff.1 h
    cases h

theorem isSome_readFlat (js : List Json) : (readFlat wide (.arr js)).isSome ↔
    (asBinary (.arr js)).isSome ∨ (asLink (.arr js)).isSome ∨ (asReference (.arr js)).isSome := by
  rw [readFlat_arr]
  cases asBinary (.arr js) <;> cases asLink (.arr js) <;> cases asReference (.arr js) <;> simp

/-- A list of the shape of an earlier variant is taken by one. -/
theorem taken_of_mistaken (hfloat : floatFreeItems items) (h : mistaken items) :
    (readFlat wide (.arr (serializeItems floatJson items))).isSome ∨
      (readEntries wide (serializeItems floatJson items)).isSome := by
  rw [isSome_readFlat]
  simp only [mistaken,Bool.or_eq_true] at h
  rcases h with ((h | h) | h) | h
  · exact .inl (.inl ((isSome_asBinary hfloat).1 h))
  · exact .inl (.inr (.inl ((isSome_asLink hfloat).1 h)))
  · exact .inl (.inr (.inr ((isSome_asReference hfloat).2 h)))
  · exact .inr ((isSome_readEntries hfloat).2 h)

theorem mistaken_of_taken (hfloat : floatFreeItems items) (hitems : unmistakenItems items)
    (h : (readFlat wide (.arr (serializeItems floatJson items))).isSome ∨
      (readEntries wide (serializeItems floatJson items)).isSome) : mistaken items := by
  rw [isSome_readFlat] at h
  simp only [mistaken,Bool.or_eq_true]
  rcases h with (h | h | h) | h
  · exact .inl (.inl (.inl ((isSome_asBinary hfloat).2 hitems h)))
  · exact .inl (.inl (.inr ((isSome_asLink hfloat).2 hitems h)))
  · exact .inl (.inr ((isSome_asReference hfloat).1 h))
  · exact .inr ((isSome_readEntries hfloat).1 h)

theorem unmistaken_array (items : List Value) : unmistaken (.array items) = (!mistaken items && unmistakenItems items) := rfl

theorem unmistaken_map (fields : List (String × Value)) :
    unmistaken (.map fields) = (!fields.isEmpty && unmistakenFields fields) := rfl

theorem deserialize_array (hfloat : floatFreeItems items)
    (ih : ∀ v ∈ items,deserialize wide (serialize floatJson v) = some v ↔ unmistaken v) :
    deserialize wide (serialize floatJson (.array items)) = some (.array items) ↔ unmistaken (.array items) := by
  have hall : ∀ v ∈ items,∃ w,deserialize wide (serialize floatJson v) = some w :=
    fun v hv => deserialize_total floatJson wide (floatFreeItems_iff.1 hfloat v hv)
  obtain ⟨read,hread,hsame⟩ := readItems_serializeItems hall
  have hitems : read = items ↔ unmistakenItems items := by
    rw [hsame,unmistakenItems_iff]
    exact forall₂_congr ih
  rw [unmistaken_array,Bool.and_eq_true,← hitems,serialize,deserialize_arr,hread]
  cases hflat : readFlat wide (.arr (serializeItems floatJson items)) with
  | some w =>
    refine iff_of_false (fun h => readFlat_ne_array w hflat (Option.some.inj h)) fun h => ?_
    rw [mistaken_of_taken hfloat (hitems.1 h.2) (.inl (Option.isSome_of_eq_some hflat))] at h
    exact Bool.false_ne_true h.1
  | none =>
    cases hentries : readEntries wide (serializeItems floatJson items) with
    | some entries =>
      refine iff_of_false (fun h => Value.noConfusion (Option.some.inj h)) fun h => ?_
      rw [mistaken_of_taken hfloat (hitems.1 h.2) (.inr (Option.isSome_of_eq_some hentries))] at h
      exact Bool.false_ne_true h.1
    | none =>
      have hmistaken : mistaken items = false := by
        refine Bool.eq_false_iff.2 fun h => ?_
        rcases taken_of_mistaken hfloat h with htaken | htaken
        · rw [hflat] at htaken
          cases htaken
        · rw [hentries] at htaken
          cases htaken
      rw [hmistaken]
      constructor
      · intro h
        exact ⟨rfl,Value.array.inj (Option.some.inj h)⟩
      · rintro ⟨-,rfl⟩
        rfl

end shapes

end Persisted

end HakoDB

import HakoDB.Lib.OrderedMap
import HakoDB.Lib.TextOrder
import HakoDB.Document.Json
import HakoDB.Document.Persisted
import HakoDB.Document.Views

/-! A document as a JSON tree, and the tree printed. The writer that goes over the document in one pass writes the
same bytes, for documents whose keys are in order and whose nested maps name each key once. -/
namespace HakoDB
open ByteCodec ByteOrder TextOrder

namespace Json

/-- An object of the library is an ordered map: its keys come in order, and a later entry replaces an earlier one. -/
def object (entries : List (String × Json)) : Json := .obj (OrderedMap.empty.insertAll entries).entries

section print
variable (jsonFloat : F64 → Bytes)

def printStr (s : String) : Bytes := 0x22::(asBytes s).flatMap escapeByte++[0x22]

mutual
/-- Compact printing, without blanks. -/
def print : Json → Bytes
  | null => asBytes "null"
  | bool b => asBytes (if b then "true" else "false")
  | int n => asBytes (toString n)
  | float f => jsonFloat f
  | str s => printStr s
  | arr items => jsonList (printItems items)
  | obj fields => jsonObject (printFields fields)
def printItems : List Json → List Bytes
  | [] => []
  | item::items => print item::printItems items
def printFields : List (String × Json) → List Bytes
  | [] => []
  | (key,value)::fields => (printStr key++0x3A::print value)::printFields fields
end

theorem printItems_eq (items : List Json) : printItems jsonFloat items = items.map (print jsonFloat) := by
  induction items with
  | nil => rfl
  | cons item items ih => rw [printItems,ih,List.map_cons]

theorem printFields_eq (fields : List (String × Json)) :
    printFields jsonFloat fields = fields.map fun f => printStr f.1++0x3A::print jsonFloat f.2 := by
  induction fields with
  | nil => rfl
  | cons f fields ih => rw [printFields,ih,List.map_cons]

end print
end Json

namespace Value

mutual
def toJson : Value → Json
  | null | serverTimestamp => .null
  | bool b => .bool b
  | int n | timestamp n => .int n.toInt
  | float f => if f.isFinite then .float f else .null
  | string s => .str s
  | binary bs => .arr (bs.map fun b => .int b.toNat)
  | reference collection docId => Json.object [("__ref__",.str (collection++"/"++docId))]
  | blobLink offset len =>
    Json.object [("__blob__",Json.object [("offset",.int offset.toNat),("len",.int len.toNat)])]
  | map fields => Json.object (toJsonFields fields)
  | array items => .arr (toJsonItems items)
def toJsonFields : List (String × Value) → List (String × Json)
  | [] => []
  | (key,value)::fields => (key,toJson value)::toJsonFields fields
def toJsonItems : List Value → List Json
  | [] => []
  | value::items => toJson value::toJsonItems items
end

mutual
/-- Every map names each of its keys once. -/
def distinctKeys : Value → Bool
  | map fields => (fields.map Prod.fst).Nodup && distinctKeysFields fields
  | array items => distinctKeysItems items
  | _ => true
def distinctKeysFields : List (String × Value) → Bool
  | [] => true
  | (_,value)::fields => distinctKeys value && distinctKeysFields fields
def distinctKeysItems : List Value → Bool
  | [] => true
  | value::items => distinctKeys value && distinctKeysItems items
end

theorem toJsonFields_eq (fields : List (String × Value)) : toJsonFields fields = fields.map fun f => (f.1,toJson f.2) := by
  induction fields with
  | nil => rfl
  | cons f fields ih => rw [toJsonFields,ih,List.map_cons]

theorem toJsonItems_eq (items : List Value) : toJsonItems items = items.map toJson := by
  induction items with
  | nil => rfl
  | cons v items ih => rw [toJsonItems,ih,List.map_cons]

theorem distinctKeysFields_iff {fields : List (String × Value)} :
    distinctKeysFields fields ↔ ∀ f ∈ fields,distinctKeys f.2 := by
  induction fields with
  | nil => simp [distinctKeysFields]
  | cons f fields ih => simp [distinctKeysFields,ih]

theorem distinctKeysItems_iff {items : List Value} : distinctKeysItems items ↔ ∀ v ∈ items,distinctKeys v := by
  induction items with
  | nil => simp [distinctKeysItems]
  | cons v items ih => simp [distinctKeysItems,ih]

end Value

/-- The time is entered first, so a field of that name takes its place. -/
def HakoDoc.toJson (doc : HakoDoc) : Json :=
  .obj ((OrderedMap.empty.insert "_time" (Json.int doc.time.toInt)).insertAll (Value.toJsonFields doc.fields)).entries

section order

theorem compareBytes_ne_gt_iff (a b : Bytes) : compareBytes a b ≠ .gt ↔ ¬digits b < digits a := by
  induction a generalizing b with
  | nil => cases b <;> simp [compareBytes,digits]
  | cons x a ih =>
    cases b with
    | nil => simp [compareBytes,digits]
    | cons y b =>
      have hcons : digits (y::b) < digits (x::a) ↔ y.toNat < x.toNat ∨ y.toNat = x.toNat ∧ digits b < digits a :=
        List.cons_lt_cons_iff
      rw [hcons,compareBytes]
      rcases lt_trichotomy x.toNat y.toNat with h | h | h
      · simp [compare_lt_iff_lt.2 h,h.not_gt,h.ne']
      · simpa [h] using ih b
      · simp [compare_gt_iff_gt.2 h,h]

theorem byKeyBytes_iff {β : Type} (a b : String × β) : byKeyBytes (fun f : String × β => asBytes f.1) a b ↔ a.1 ≤ b.1 := by
  rw [byKeyBytes,compareBytes_ne_gt_iff,asBytes_lt_iff,not_lt]

theorem sorted_insertionSort {β : Type} {fields : List (String × β)} (h : (fields.map Prod.fst).Nodup) :
    (fields.insertionSort (byKeyBytes fun f => asBytes f.1)).Pairwise fun a b => a.1 < b.1 := by
  have htotal : Std.Total (byKeyBytes fun f : String × β => asBytes f.1) :=
    ⟨fun a b => by rw [byKeyBytes_iff,byKeyBytes_iff]; exact le_total _ _⟩
  have htrans : IsTrans (String × β) (byKeyBytes fun f => asBytes f.1) :=
    ⟨fun a b c => by rw [byKeyBytes_iff,byKeyBytes_iff,byKeyBytes_iff]; exact le_trans⟩
  have hsorted := List.pairwise_insertionSort (byKeyBytes fun f : String × β => asBytes f.1) fields
  have hne : (fields.insertionSort (byKeyBytes fun f => asBytes f.1)).Pairwise fun a b => a.1 ≠ b.1 :=
    List.pairwise_map.1 (((List.perm_insertionSort _ fields).map Prod.fst).nodup_iff.2 h)
  exact hsorted.imp₂ (fun _ _ hle hne => lt_of_le_of_ne ((byKeyBytes_iff _ _).1 hle) hne) hne

/-- Distinct keys in an object stand as the writer sorts them. -/
theorem entries_insertAll {fields : List (String × Value)} (h : (fields.map Prod.fst).Nodup) :
    (OrderedMap.empty.insertAll (fields.map fun f => (f.1,f.2.toJson))).entries =
      (fields.insertionSort (byKeyBytes fun f => asBytes f.1)).map fun f => (f.1,f.2.toJson) := by
  refine OrderedMap.eq_of_sorted (OrderedMap.sorted _) (List.pairwise_map.2 (sorted_insertionSort h)) fun e => ?_
  have hkeys : ((fields.map fun f => (f.1,f.2.toJson)).map Prod.fst).Nodup := by
    rw [List.map_map]
    exact h
  rw [OrderedMap.mem_insertAll hkeys,OrderedMap.entries_empty,List.mem_map,List.mem_map]
  simp [List.mem_insertionSort]

end order

section agreement
variable {jsonFloat : F64 → Bytes}

theorem writeJsonStr_eq (s : String) : writeJsonStr s = Json.printStr s := by
  rw [writeJsonStr,writeJsonRaw_eq,Json.printStr]

theorem print_reference (collection docId : String) :
    writeJsonValue jsonFloat (.reference collection docId) = (Value.reference collection docId).toJson.print jsonFloat := by
  have hopen : asBytes "\x7b\"__ref__\":\"" = 0x7B::(Json.printStr "__ref__"++[0x3A,0x22]) := by decide
  have hslash : (asBytes "/").flatMap escapeByte = asBytes "/" := by decide
  have hclose : asBytes "\"\x7d" = [0x22,0x7D] := by decide
  rw [writeJsonValue,Value.toJson,Json.object,writeJsonRaw_eq,writeJsonRaw_eq,hopen,hclose]
  simp [OrderedMap.insertAll,OrderedMap.insert,OrderedMap.empty,OrderedMap.insertEntry,Json.print,Json.printFields,
    jsonObject,commaSeparated,Json.printStr.eq_1 (collection++"/"++docId),asBytes_append,hslash]

theorem print_blobLink (offset : UInt64) (len : UInt32) :
    writeJsonValue jsonFloat (.blobLink offset len) = (Value.blobLink offset len).toJson.print jsonFloat := by
  have hopen : asBytes "\x7b\"__blob__\":\x7b\"len\":" =
      0x7B::(Json.printStr "__blob__"++0x3A::0x7B::(Json.printStr "len"++[0x3A])) := by decide
  have hmiddle : asBytes ",\"offset\":" = 0x2C::(Json.printStr "offset"++[0x3A]) := by decide
  have hclose : asBytes "\x7d\x7d" = [0x7D,0x7D] := by decide
  have hlt : "len" < "offset" := by decide
  rw [writeJsonValue,Value.toJson,Json.object,Json.object,hopen,hmiddle,hclose]
  simp [OrderedMap.insertAll,OrderedMap.insert,OrderedMap.empty,OrderedMap.insertEntry,Json.print,Json.printFields,
    jsonObject,commaSeparated,pushInt,hlt]

/-- The writer and the printed tree agree on a value, by induction over its nesting. -/
theorem writeJsonValue_eq_print {v : Value} (hfloat : Persisted.floatFree v) (hkeys : v.distinctKeys) :
    writeJsonValue jsonFloat v = v.toJson.print jsonFloat := by
  induction v using Value.nested_induction with
  | scalar v hscalar =>
    cases v with
    | float f => cases hfloat
    | map fields => cases hscalar
    | array items => cases hscalar
    | reference collection docId => exact print_reference collection docId
    | blobLink offset len => exact print_blobLink offset len
    | string s => exact writeJsonStr_eq s
    | binary bs =>
      rw [writeJsonValue,Value.toJson,Json.print,Json.printItems_eq,List.map_map]
      rfl
    | _ => rfl
  | map fields ih =>
    rw [Persisted.floatFree,Persisted.floatFreeFields_iff] at hfloat
    rw [Value.distinctKeys,Bool.and_eq_true,decide_eq_true_eq,Value.distinctKeysFields_iff] at hkeys
    rw [writeJsonValue_map,Value.toJson,Json.object,Value.toJsonFields_eq,entries_insertAll hkeys.1,Json.print,
      Json.printFields_eq,List.map_map]
    congr 1
    refine List.map_congr_left fun f hf => ?_
    have hmem : f ∈ fields := (List.mem_insertionSort _).1 hf
    rw [jsonField,writeJsonStr_eq,ih f hmem (hfloat f hmem) (hkeys.2 f hmem)]
    rfl
  | array items ih =>
    rw [Persisted.floatFree,Persisted.floatFreeItems_iff] at hfloat
    rw [Value.distinctKeys,Value.distinctKeysItems_iff] at hkeys
    rw [writeJsonValue,writeJsonItems_eq,Value.toJson,Value.toJsonItems_eq,Json.print,Json.printItems_eq,List.map_map]
    congr 1
    exact List.map_congr_left fun v hv => ih v hv (hfloat v hv) (hkeys v hv)

theorem withTime_true (time : Bytes) (parts : List (String × Bytes)) : withTime time true parts = parts.map Prod.snd := by
  induction parts with
  | nil => rfl
  | cons part parts ih => simp [withTime,ih]

/-- The merge of the writer: the time is entered unless a field has its name. -/
theorem withTime_false {fields : List (String × Json)} (h : fields.Pairwise fun a b => a.1 < b.1) (render : String × Json → Bytes)
    (time : Json) : withTime (render ("_time",time)) false (fields.map fun f => (f.1,render f)) =
      (if "_time" ∈ fields.map Prod.fst then fields else OrderedMap.insertEntry "_time" time fields).map render := by
  induction fields with
  | nil => rfl
  | cons f fields ih =>
    obtain ⟨hfirst,hrest⟩ := List.pairwise_cons.1 h
    rw [List.map_cons,withTime]
    rcases lt_trichotomy f.1 "_time" with hlt | heq | hgt
    · have hmem : "_time" ∈ (f::fields).map Prod.fst ↔ "_time" ∈ fields.map Prod.fst := by simp [hlt.ne']
      simp only [hmem,hlt.not_gt,hlt.not_ge,decide_false,Bool.and_false,Bool.or_false,Bool.false_eq_true,if_false,
        List.nil_append,ih hrest,OrderedMap.insertEntry,hlt.ne']
      split_ifs <;> rfl
    · simp [heq,withTime_true,Function.comp_def]
    · have hmem : "_time" ∉ (f::fields).map Prod.fst := by
        rw [List.map_cons,List.mem_cons,List.mem_map]
        rintro (he | ⟨g,hg,he⟩)
        · exact hgt.ne he
        · exact absurd (hgt.trans (hfirst g hg)) (he ▸ lt_irrefl _)
      rw [if_neg hmem]
      simp [hgt,hgt.le,withTime_true,OrderedMap.insertEntry,Function.comp_def]

theorem HakoDoc.toJson_entries {doc : HakoDoc} (h : doc.Ascending) :
    doc.toJson = .obj (if "_time" ∈ (Value.toJsonFields doc.fields).map Prod.fst then Value.toJsonFields doc.fields
      else OrderedMap.insertEntry "_time" (.int doc.time.toInt) (Value.toJsonFields doc.fields)) := by
  have hsorted : (Value.toJsonFields doc.fields).Pairwise fun a b => a.1 < b.1 := by
    rw [Value.toJsonFields_eq]
    exact List.pairwise_map.2 h
  have hnodup : ((Value.toJsonFields doc.fields).map Prod.fst).Nodup := List.pairwise_map.2 (hsorted.imp fun hlt => hlt.ne)
  have hmem := OrderedMap.mem_insertAll hnodup (OrderedMap.empty.insert "_time" (Json.int doc.time.toInt))
  have hone : (OrderedMap.empty.insert "_time" (Json.int doc.time.toInt)).entries = [("_time",.int doc.time.toInt)] := rfl
  rw [HakoDoc.toJson,Json.obj.injEq]
  rw [hone] at hmem
  refine OrderedMap.eq_of_sorted (OrderedMap.sorted _) ?_ fun e => ?_
  · split_ifs
    · exact hsorted
    · exact OrderedMap.pairwise_insertEntry hsorted _ _
  · rw [hmem e,List.mem_singleton]
    split_ifs with htime
    · refine or_iff_left ?_
      rintro ⟨rfl,hnot⟩
      exact hnot htime
    · rw [OrderedMap.mem_insertEntry hsorted]
      constructor
      · rintro (he | ⟨rfl,-⟩)
        · exact .inr ⟨he,fun hkey => htime (hkey ▸ List.mem_map_of_mem he)⟩
        · exact .inl rfl
      · rintro (rfl | ⟨he,-⟩)
        · exact .inr ⟨rfl,htime⟩
        · exact .inl he

/-- A document with a field in the place of its time and a map of more than 32 entries. -/
def wideDoc : HakoDoc :=
  ⟨[("_time",.int 7),("a",.map ((List.range 34).map fun n => (toString (33-n),.string "x"))),("b",.reference "c" "d")],5⟩

end agreement

end HakoDB

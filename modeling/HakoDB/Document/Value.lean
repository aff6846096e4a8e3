import HakoDB.Basic

/-! The values that a document's fields hold. -/
namespace HakoDB
open ByteCodec

/-- A double, by its bits. -/
structure F64 where
  bits : UInt64
  deriving DecidableEq, Repr

inductive Value
  | null
  | bool (b : Bool)
  | int (n : Int64)
  | float (f : F64)
  | string (s : String)
  | binary (bs : Bytes)
  | blobLink (offset : UInt64) (len : UInt32)
  | reference (collection docId : String)
  | timestamp (micros : Int64)
  | serverTimestamp
  | map (fields : List (String × Value))
  | array (items : List Value)

namespace Value

def isScalar : Value → Bool
  | map _ | array _ => false
  | _ => true

mutual
/-- Induction over the nesting of maps and arrays. -/
theorem nested_induction {P : Value → Prop} (scalar : ∀ v, v.isScalar → P v)
    (map : ∀ fields, (∀ p ∈ fields, P p.2) → P (.map fields))
    (array : ∀ items, (∀ v ∈ items, P v) → P (.array items)) : ∀ v, P v
  | .null | .bool _ | .int _ | .float _ | .string _ | .binary _ | .blobLink _ _ | .reference _ _
  | .timestamp _ | .serverTimestamp => scalar _ rfl
  | .map fields => map fields (nested_fields scalar map array fields)
  | .array items => array items (nested_items scalar map array items)
theorem nested_fields {P : Value → Prop} (scalar : ∀ v, v.isScalar → P v)
    (map : ∀ fields, (∀ p ∈ fields, P p.2) → P (.map fields))
    (array : ∀ items, (∀ v ∈ items, P v) → P (.array items)) :
    ∀ fields : List (String × Value), ∀ p ∈ fields, P p.2
  | [],_,h => absurd h (List.not_mem_nil)
  | (k,v)::fields,p,h => by
    rcases List.mem_cons.mp h with h | h
    · rw [h]
      exact nested_induction scalar map array v
    · exact nested_fields scalar map array fields p h
theorem nested_items {P : Value → Prop} (scalar : ∀ v, v.isScalar → P v)
    (map : ∀ fields, (∀ p ∈ fields, P p.2) → P (.map fields))
    (array : ∀ items, (∀ v ∈ items, P v) → P (.array items)) :
    ∀ items : List Value, ∀ v ∈ items, P v
  | [],_,h => absurd h (List.not_mem_nil)
  | w::items,v,h => by
    rcases List.mem_cons.mp h with h | h
    · rw [h]
      exact nested_induction scalar map array w
    · exact nested_items scalar map array items v h
end

mutual
/-- Same constructor and same content at every depth. -/
def same : Value → Value → Bool
  | null,null => true
  | bool a,bool b => a == b
  | int a,int b => a == b
  | float a,float b => a == b
  | string a,string b => a == b
  | binary a,binary b => a == b
  | blobLink o l,blobLink o' l' => o == o' && l == l'
  | reference c d,reference c' d' => c == c' && d == d'
  | timestamp a,timestamp b => a == b
  | serverTimestamp,serverTimestamp => true
  | map fs,map gs => sameFields fs gs
  | array xs,array ys => sameItems xs ys
  | _,_ => false
def sameFields : List (String × Value) → List (String × Value) → Bool
  | [],[] => true
  | (k,v)::fs,(l,w)::gs => k == l && same v w && sameFields fs gs
  | _,_ => false
def sameItems : List Value → List Value → Bool
  | [],[] => true
  | v::xs,w::ys => same v w && sameItems xs ys
  | _,_ => false
end

theorem sameFields_iff {fs : List (String × Value)} (h : ∀ p ∈ fs, ∀ w, same p.2 w = true ↔ p.2 = w)
    (gs : List (String × Value)) : sameFields fs gs = true ↔ fs = gs := by
  induction fs generalizing gs with
  | nil => cases gs <;> simp [sameFields]
  | cons p fs ih =>
    cases gs with
    | nil => simp [sameFields]
    | cons q gs =>
      obtain ⟨k,v⟩ := p
      obtain ⟨l,w⟩ := q
      have hv := h (k,v) List.mem_cons_self w
      simp [sameFields,hv,ih (fun p hp => h p (List.mem_cons_of_mem _ hp)),and_assoc]

theorem sameItems_iff {xs : List Value} (h : ∀ v ∈ xs, ∀ w, same v w = true ↔ v = w)
    (ys : List Value) : sameItems xs ys = true ↔ xs = ys := by
  induction xs generalizing ys with
  | nil => cases ys <;> simp [sameItems]
  | cons v xs ih =>
    cases ys with
    | nil => simp [sameItems]
    | cons w ys => simp [sameItems,h v List.mem_cons_self,ih (fun u hu => h u (List.mem_cons_of_mem _ hu))]

theorem same_iff (v w : Value) : same v w = true ↔ v = w := by
  induction v using nested_induction generalizing w with
  | scalar v hv => cases v <;> cases w <;> simp_all [same,isScalar]
  | map fields ih => cases w <;> simp [same,sameFields_iff ih]
  | array items ih => cases w <;> simp [same,sameItems_iff ih]

instance : DecidableEq Value := fun v w => decidable_of_iff _ (same_iff v w)

/-- The byte length that decides whether a field is moved to the blob file. -/
def lenBytes : Value → ℕ
  | string s => (asBytes s).length
  | binary b => b.length
  | _ => 0

end Value

end HakoDB

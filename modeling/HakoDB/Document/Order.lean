import HakoDB.Document.HakoDoc

/-! How values compare: equality and order across the kinds of value, doubles by their bits. -/
namespace HakoDB
open ByteCodec

namespace F64

def negative (f : F64) : Bool := 2^63 ≤ f.bits.toNat

def magnitude (f : F64) : ℕ := f.bits.toNat % 2^63

/-- All exponent bits are set and the fraction is not zero. -/
def isNaN (f : F64) : Bool := 2047*2^52 < f.magnitude

def isFinite (f : F64) : Bool := f.magnitude < 2047*2^52

def totalKey (f : F64) : ℤ := if f.negative then -1-(f.magnitude : ℤ) else f.magnitude

def totalCmp (a b : F64) : Ordering := compare a.totalKey b.totalKey

/-- Both zeros stand at the same place. -/
def place (f : F64) : ℤ := if f.negative then -(f.magnitude : ℤ) else f.magnitude

def partialCmp (a b : F64) : Option Ordering :=
  if a.isNaN || b.isNaN then none else some (compare a.place b.place)

def ieeeEq (a b : F64) : Bool := a.partialCmp b == some .eq

/-- The fraction bits of a number with `e+1` binary digits, rounded to nearest, ties to even. The carry
of a rounding up ends in the exponent. -/
def roundedFraction (n e : ℕ) : ℕ :=
  if e ≤ 52 then n*2^(52-e)-2^52
  else
    let unit := 2^(e-52)
    let q := n/unit
    let r := n % unit
    (if unit < 2*r ∨ (unit = 2*r ∧ q % 2 = 1) then q+1 else q)-2^52

/-- The double nearest to an integer. -/
def ofInt64 (n : Int64) : F64 :=
  let m := n.toInt.natAbs
  if m = 0 then ⟨0⟩
  else
    let e := m.log2
    ⟨UInt64.ofNat ((if n.toInt < 0 then 2^63 else 0)+(e+1023)*2^52+roundedFraction m e)⟩

example : ofInt64 1 = ⟨0x3FF0000000000000⟩ ∧ ofInt64 (-3) = ⟨0xC008000000000000⟩ ∧
    ofInt64 9007199254740993 = ⟨0x4340000000000000⟩ := by decide

end F64

/-- Byte by byte; of two where one starts the other, the shorter comes first. -/
def compareBytes : Bytes → Bytes → Ordering
  | [],[] => .eq
  | [],_::_ => .lt
  | _::_,[] => .gt
  | a::as,b::bs => (compare a.toNat b.toNat).then (compareBytes as bs)

namespace Value

mutual
/-- Equality across integers and doubles; doubles by their bits. -/
def eq : Value → Value → Bool
  | null,null => true
  | bool a,bool b => a == b
  | int a,int b => a == b
  | float a,float b => a.bits == b.bits
  | int a,float b => (F64.ofInt64 a).ieeeEq b
  | float a,int b => a.ieeeEq (F64.ofInt64 b)
  | string a,string b => a == b
  | binary a,binary b => a == b
  | array a,array b => eqItems a b
  | reference a ad,reference b bd => a == b && ad == bd
  | blobLink a al,blobLink b bl => a == b && al == bl
  | timestamp a,timestamp b => a == b
  | map a,map b => eqFields a b
  | serverTimestamp,serverTimestamp => true
  | _,_ => false
def eqItems : List Value → List Value → Bool
  | [],[] => true
  | v::xs,w::ys => eq v w && eqItems xs ys
  | _,_ => false
def eqFields : List (String × Value) → List (String × Value) → Bool
  | [],[] => true
  | (k,v)::fs,(l,w)::gs => k == l && eq v w && eqFields fs gs
  | _,_ => false
end

/-- The kinds of value in their order. -/
def typeWeight : Value → ℕ
  | null => 0
  | bool _ => 1
  | int _ | float _ => 2
  | timestamp _ => 3
  | string _ => 4
  | binary _ | blobLink _ _ => 5
  | reference _ _ => 6
  | array _ => 7
  | map _ => 8
  | serverTimestamp => 9

mutual
def cmp : Value → Value → Ordering
  | null,null => .eq
  | bool a,bool b => compare a.toNat b.toNat
  | int a,int b => compare a.toInt b.toInt
  | float a,float b => a.totalCmp b
  | int a,float b => (F64.ofInt64 a).totalCmp b
  | float a,int b => a.totalCmp (F64.ofInt64 b)
  | string a,string b => compare a b
  | binary a,binary b => compareBytes a b
  | timestamp a,timestamp b => compare a.toInt b.toInt
  | reference c1 i1,reference c2 i2 => (compare c1 c2).then (compare i1 i2)
  | map a,map b => (compare a.length b.length).then (cmpFields a b)
  | array a,array b => (compare a.length b.length).then (cmpItems a b)
  | v,w => compare v.typeWeight w.typeWeight
def cmpFields : List (String × Value) → List (String × Value) → Ordering
  | (k1,v1)::a,(k2,v2)::b => ((compare k1 k2).then (cmp v1 v2)).then (cmpFields a b)
  | _,_ => .eq
def cmpItems : List Value → List Value → Ordering
  | v::a,w::b => (cmp v w).then (cmpItems a b)
  | _,_ => .eq
end

end Value

/-- The steps of a dotted path below its first segment. -/
def Value.descend (v : Value) : List String → Option Value
  | [] => some v
  | seg::segs =>
    if seg = "" then none
    else match v with
      | .map fields =>
        match fields.find? fun f => f.1 = seg with
        | some f => f.2.descend segs
        | none => none
      | _ => none

/-- The segments of a path, split at the dots. -/
def pathSegments (path : String) : List String := (path.toList.splitOn '.').map .ofList

def HakoDoc.getPath (doc : HakoDoc) (path : String) : Option Value :=
  match pathSegments path with
  | [] => none
  | first::segs => if first = "" then none else (doc.get first).bind fun v => v.descend segs

end HakoDB

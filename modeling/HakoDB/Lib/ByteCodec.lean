import Mathlib

/-! Fixed-width integers and UTF-8 text as lists of bytes, with the cursor-style
reader that the record formats share. -/
namespace ByteCodec

abbrev Bytes := List UInt8

/-- The low `w` bytes of `n`, least significant first. -/
def leBytes : ℕ → ℕ → Bytes
  | 0, _ => []
  | w+1, n => UInt8.ofNat n :: leBytes w (n/256)

/-- The number written least significant byte first. -/
def leNat : Bytes → ℕ
  | [] => 0
  | b::bs => b.toNat+256*leNat bs

@[simp] theorem leBytes_length (w n : ℕ) : (leBytes w n).length = w := by
  induction w generalizing n with
  | zero => rfl
  | succ w ih => simp [leBytes,ih]

theorem leNat_leBytes (w n : ℕ) : leNat (leBytes w n) = n % 256^w := by
  induction w generalizing n with
  | zero => simp [leBytes,leNat,Nat.mod_one]
  | succ w ih =>
    have hs : n % 256^(w+1) = n % 256+256*(n/256 % 256^w) := by
      rw [pow_succ',Nat.mod_mul]
    simp [leBytes,leNat,ih,hs]

theorem leNat_leBytes_of_lt {w n : ℕ} (h : n < 256^w) : leNat (leBytes w n) = n := by
  rw [leNat_leBytes,Nat.mod_eq_of_lt h]

theorem leNat_lt (bs : Bytes) : leNat bs < 256^bs.length := by
  induction bs with
  | nil => simp [leNat]
  | cons b bs ih =>
    have hb := b.toNat_lt
    rw [leNat,List.length_cons,pow_succ]
    omega

/-- The low `w` bytes of `n`, most significant first. -/
def beBytes (w n : ℕ) : Bytes := (leBytes w n).reverse

/-- The number written most significant byte first. -/
def beNat (bs : Bytes) : ℕ := leNat bs.reverse

@[simp] theorem beBytes_length (w n : ℕ) : (beBytes w n).length = w := by simp [beBytes]

theorem beNat_beBytes_of_lt {w n : ℕ} (h : n < 256^w) : beNat (beBytes w n) = n := by
  simp [beNat,beBytes,leNat_leBytes_of_lt h]

theorem ofNat_leNat_leBytes_u32 (x : UInt32) : UInt32.ofNat (leNat (leBytes 4 x.toNat)) = x := by
  rw [leNat_leBytes_of_lt (by have := x.toNat_lt; omega)]
  exact UInt32.ofNat_toNat

theorem ofNat_leNat_leBytes_u64 (x : UInt64) : UInt64.ofNat (leNat (leBytes 8 x.toNat)) = x := by
  rw [leNat_leBytes_of_lt (by have := x.toNat_lt; omega)]
  exact UInt64.ofNat_toNat

/-- The bytes of an `Int64` are those of its two's complement. -/
def i64Bytes (x : Int64) : Bytes := leBytes 8 x.toUInt64.toNat

def bytesI64 (bs : Bytes) : Int64 := (UInt64.ofNat (leNat bs)).toInt64

@[simp] theorem i64Bytes_length (x : Int64) : (i64Bytes x).length = 8 := by simp [i64Bytes]

@[simp] theorem bytesI64_i64Bytes (x : Int64) : bytesI64 (i64Bytes x) = x := by
  rw [bytesI64,i64Bytes,ofNat_leNat_leBytes_u64]
  exact Int64.toInt64_toUInt64 x

/-- The UTF-8 bytes of a text. -/
def asBytes (s : String) : Bytes := s.toByteArray.data.toList

theorem asBytes_ofList (cs : List Char) : asBytes (String.ofList cs) = cs.flatMap String.utf8EncodeChar := by
  simp [asBytes,String.toByteArray_ofList,List.utf8Encode]

/-- The text of a byte string, when it is valid UTF-8. -/
def fromUtf8 (bs : Bytes) : Option String := String.fromUTF8? ⟨bs.toArray⟩

theorem fromUtf8_asBytes (s : String) : fromUtf8 (asBytes s) = some s := by
  have hs : (⟨(asBytes s).toArray⟩ : ByteArray) = s.toByteArray := by simp [asBytes]
  have hv : (⟨(asBytes s).toArray⟩ : ByteArray).IsValidUTF8 := hs ▸ s.isValidUTF8
  simp only [fromUtf8,String.fromUTF8?,dif_pos hv,String.fromUTF8,Option.some.injEq]
  exact String.toByteArray_inj.mp hs

theorem asBytes_injective : Function.Injective asBytes := by
  intro s t h
  have hst := congrArg fromUtf8 h
  simpa [fromUtf8_asBytes] using hst

/-- Split off the next `n` bytes at the cursor, when there are that many. -/
def take? (n : ℕ) (bs : Bytes) : Option (Bytes × Bytes) :=
  if n ≤ bs.length then some (bs.take n,bs.drop n) else none

theorem take?_append {n : ℕ} (xs ys : Bytes) (h : xs.length = n) :
    take? n (xs++ys) = some (xs,ys) := by
  subst h
  simp [take?]

end ByteCodec

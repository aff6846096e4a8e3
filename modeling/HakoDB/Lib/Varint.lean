import HakoDB.Lib.ByteCodec

/-! Unsigned 64-bit numbers in groups of seven bits, and the zigzag numbering of signed ones. -/
namespace Varint
open ByteCodec

/-- At most `k` continued bytes, then a last one. -/
def encodeGroups : ℕ → ℕ → Bytes
  | 0, n => [UInt8.ofNat n]
  | k+1, n => if 128 ≤ n then UInt8.ofNat (n % 128+128)::encodeGroups k (n/128) else [UInt8.ofNat n]

def encodeVarint (n : ℕ) : Bytes := encodeGroups 9 n

/-- At most `k` bytes, the last of which may only hold the topmost bit. -/
def decodeGroups : ℕ → Bytes → Option ℕ
  | 0, _ => none
  | _+1, [] => none
  | k+1, b::bs =>
    if k = 0 ∧ 1 < b.toNat then none
    else if b.toNat < 128 then some b.toNat
    else (decodeGroups k bs).map fun r => b.toNat % 128+128*r

def decodeVarint (bs : Bytes) : Option ℕ := decodeGroups 10 bs

theorem decodeGroups_encodeGroups (k n : ℕ) (h : n < 2^(7*k+1)) (rest : Bytes) :
    decodeGroups (k+1) (encodeGroups k n++rest) = some n := by
  induction k generalizing n with
  | zero =>
    have hn : n % 256 = n := Nat.mod_eq_of_lt (by omega)
    have h1 : ¬ 1 < n := by omega
    have h2 : n < 128 := by omega
    simp [encodeGroups,decodeGroups,hn,h1,h2]
  | succ k ih =>
    by_cases hn : 128 ≤ n
    · have hlow : (n % 128+128) % 256 = n % 128+128 := Nat.mod_eq_of_lt (by omega)
      have hdiv : n/128 < 2^(7*k+1) := by
        have hp : 2^(7*(k+1)+1) = 2^(7*k+1)*128 := by rw [show 7*(k+1)+1 = 7*k+1+7 by omega,pow_add]; rfl
        omega
      have hback : n % 128+128*(n/128) = n := Nat.mod_add_div n 128
      simp [encodeGroups,decodeGroups,hn,hlow,ih (n/128) hdiv,hback]
    · have hlt : n < 128 := by omega
      have hmod : n % 256 = n := Nat.mod_eq_of_lt (by omega)
      simp [encodeGroups,decodeGroups,hn,hmod,hlt]

theorem decodeVarint_encodeVarint {n : ℕ} (h : n < 2^64) (rest : Bytes) :
    decodeVarint (encodeVarint n++rest) = some n :=
  decodeGroups_encodeGroups 9 n h rest

theorem encodeGroups_length (k n : ℕ) : 1 ≤ (encodeGroups k n).length ∧ (encodeGroups k n).length ≤ k+1 := by
  induction k generalizing n with
  | zero => simp [encodeGroups]
  | succ k ih =>
    have := ih (n/128)
    by_cases hn : 128 ≤ n <;> simp [encodeGroups,hn]
    omega

/-- Non-negative numbers become even, negative ones odd. -/
def zigzagEncode (n : Int64) : ℕ :=
  if 0 ≤ n.toInt then (2*n.toInt).toNat else (-2*n.toInt-1).toNat

def zigzagDecode (n : ℕ) : Int64 :=
  if n % 2 = 0 then Int64.ofInt (n/2 : ℕ) else Int64.ofInt (-(n/2 : ℕ)-1)

theorem zigzagEncode_lt (n : Int64) : zigzagEncode n < 2^64 := by
  have h1 := n.toInt_lt
  have h2 := n.le_toInt
  unfold zigzagEncode
  split <;> omega

@[simp] theorem zigzagDecode_zigzagEncode (n : Int64) : zigzagDecode (zigzagEncode n) = n := by
  unfold zigzagEncode zigzagDecode
  by_cases h : 0 ≤ n.toInt
  · have hmod : (2*n.toInt).toNat % 2 = 0 := by omega
    have hdiv : (((2*n.toInt).toNat/2 : ℕ) : ℤ) = n.toInt := by omega
    rw [if_pos h,if_pos hmod,hdiv]
    exact Int64.ofInt_toInt n
  · have hmod : ¬ (-2*n.toInt-1).toNat % 2 = 0 := by omega
    have hdiv : (-(((-2*n.toInt-1).toNat/2 : ℕ) : ℤ)-1) = n.toInt := by omega
    rw [if_neg h,if_neg hmod,hdiv]
    exact Int64.ofInt_toInt n

end Varint

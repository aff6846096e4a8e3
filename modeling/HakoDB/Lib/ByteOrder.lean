import HakoDB.Lib.ByteCodec

/-! Byte strings compared byte by byte. -/
namespace ByteOrder
open ByteCodec

def digits (bs : Bytes) : List ℕ := bs.map UInt8.toNat

/-- Strings of one length are compared before what follows them. -/
theorem append_lt_append_iff {α : Type} [LinearOrder α] {a b : List α} (h : a.length = b.length) (c d : List α) :
    a++c < b++d ↔ a < b ∨ a = b ∧ c < d := by
  induction a generalizing b with
  | nil =>
    obtain rfl := List.length_eq_zero_iff.1 h.symm
    simp
  | cons x a ih =>
    cases b with
    | nil => cases h
    | cons y b =>
      simp only [List.cons_append,List.cons_lt_cons_iff,ih (Nat.succ.inj h),List.cons.injEq]
      tauto

end ByteOrder

import Mathlib.Algebra.BigOperators.Intervals
import Mathlib.Tactic.IntervalCases
import Mathlib.Tactic.Linarith
import Mathlib.Tactic.Ring

/-! The dot product of vectors of signed bytes, one product after another and in the lanes of vector registers.
The fold of the four last lanes counts the second one twice and the fourth one not at all. -/
namespace HakoDB
open Finset

namespace Scalars

def dotI8I8 (a b : List Int8) : Int64 := ((a.zip b).map fun p => p.1.toInt64*p.2.toInt64).sum

end Scalars

namespace Simd

/-- A vector register, lane by lane. -/
abbrev Lanes (n : ℕ) (α : Type) := Fin n → α

section instructions
variable {n : ℕ} {α : Type}

def loadu (a : List Int8) (i : ℕ) : Lanes (16+16) Int8 := fun k => a.getD (i+k) 0

def lowHalf (x : Lanes (n+n) α) : Lanes n α := fun k => x (k.castAdd n)

def highHalf (x : Lanes (n+n) α) : Lanes n α := fun k => x (k.natAdd n)

def cvtepi8Epi16 (x : Lanes n Int8) : Lanes n Int16 := fun k => (x k).toInt16

/-- Products of neighbours, added in pairs. -/
def maddEpi16 (x y : Lanes 16 Int16) : Lanes 8 Int32 := fun k =>
  (x ⟨2*k,by omega⟩).toInt32*(y ⟨2*k,by omega⟩).toInt32+(x ⟨2*k+1,by omega⟩).toInt32*(y ⟨2*k+1,by omega⟩).toInt32

def addEpi32 (x y : Lanes n Int32) : Lanes n Int32 := fun k => x k+y k

/-- Two bits of the immediate for every lane name the lane it is filled from. -/
def shuffleEpi32 (imm : ℕ) (x : Lanes 4 Int32) : Lanes 4 Int32 := fun k => x (Fin.ofNat 4 (imm/4^k.val))

end instructions

/-- One round of the loop: 32 products. -/
def chunk (a b : List Int8) (acc : Lanes (4+4) Int32) (i : ℕ) : Lanes (4+4) Int32 :=
  let ax := loadu a i
  let bx := loadu b i
  let acc := addEpi32 acc (maddEpi16 (cvtepi8Epi16 (lowHalf ax)) (cvtepi8Epi16 (lowHalf bx)))
  addEpi32 acc (maddEpi16 (cvtepi8Epi16 (highHalf ax)) (cvtepi8Epi16 (highHalf bx)))

def chunks (a b : List Int8) (count : ℕ) : Lanes (4+4) Int32 :=
  (List.range count).foldl (fun acc c => chunk a b acc (32*c)) fun _ => 0

def fold (acc : Lanes (4+4) Int32) : Int32 :=
  let p := addEpi32 (lowHalf acc) (highHalf acc)
  let p2 := addEpi32 p (shuffleEpi32 0b01010101 p)
  let p3 := addEpi32 p2 (shuffleEpi32 0b10101010 p2)
  p3 0

def dotI8I8Avx2 (a b : List Int8) : Int64 :=
  let n := min a.length b.length
  let limbs := n/32*32
  (List.range' limbs (n-limbs)).foldl (fun tot i => tot+(a.getD i 0).toInt64*(b.getD i 0).toInt64)
    (fold (chunks a b (n/32))).toInt64

variable {a b : List Int8}

/-- One product, exactly. -/
def term (a b : List Int8) (i : ℕ) : ℤ := (a.getD i 0).toInt*(b.getD i 0).toInt

theorem abs_term_le (a b : List Int8) (i : ℕ) : -16384 ≤ term a b i ∧ term a b i ≤ 16384 := by
  have ha := Int8.le_toInt (a.getD i 0)
  have ha' := Int8.toInt_lt (a.getD i 0)
  have hb := Int8.le_toInt (b.getD i 0)
  have hb' := Int8.toInt_lt (b.getD i 0)
  unfold term
  constructor <;> nlinarith

/-- The exact sum of the products that are added up in lane `k`. -/
def laneSum (a b : List Int8) (count k : ℕ) : ℤ := ∑ c ∈ range count,
  (term a b (32*c+2*k)+term a b (32*c+(2*k+1))+(term a b (32*c+(16+2*k))+term a b (32*c+(16+(2*k+1)))))

theorem laneSum_succ (a b : List Int8) (c k : ℕ) : laneSum a b (c+1) k = laneSum a b c k+
    (term a b (32*c+2*k)+term a b (32*c+(2*k+1))+(term a b (32*c+(16+2*k))+term a b (32*c+(16+(2*k+1))))) :=
  sum_range_succ _ _

theorem toInt32_mul (a b : List Int8) (i : ℕ) :
    (a.getD i 0).toInt16.toInt32*(b.getD i 0).toInt16.toInt32 = Int32.ofInt (term a b i) := by
  rw [Int8.toInt32_toInt16,Int8.toInt32_toInt16,term,Int32.ofInt_mul,Int32.ofInt_int8ToInt,Int32.ofInt_int8ToInt]

theorem toInt64_mul (a b : List Int8) (i : ℕ) :
    (a.getD i 0).toInt64*(b.getD i 0).toInt64 = Int64.ofInt (term a b i) := by
  rw [term,Int64.ofInt_mul,Int64.ofInt_int8ToInt,Int64.ofInt_int8ToInt]

theorem chunks_eq (a b : List Int8) (count : ℕ) (k : Fin 8) :
    chunks a b count k = Int32.ofInt (laneSum a b count k) := by
  induction count with
  | zero => rfl
  | succ c ih =>
    have hstep : chunks a b (c+1) = chunk a b (chunks a b c) (32*c) := by
      rw [chunks,List.range_succ,List.foldl_append]
      rfl
    rw [hstep,laneSum_succ,Int32.ofInt_add,← ih,Int32.ofInt_add,Int32.ofInt_add,Int32.ofInt_add,
      ← toInt32_mul,← toInt32_mul,← toInt32_mul,← toInt32_mul,← Int32.add_assoc]
    rfl

theorem fold_eq (a b : List Int8) (count : ℕ) : fold (chunks a b count) =
    Int32.ofInt (laneSum a b count 0+laneSum a b count 4+2*(laneSum a b count 1+laneSum a b count 5)+
      (laneSum a b count 2+laneSum a b count 6)) := by
  have h := chunks_eq a b count
  have hfold : fold (chunks a b count) = (chunks a b count 0+chunks a b count 4)+(chunks a b count 1+chunks a b count 5)+
      ((chunks a b count 2+chunks a b count 6)+(chunks a b count 1+chunks a b count 5)) := rfl
  rw [hfold,h,h,h,h,h,h]
  simp only [← Int32.ofInt_add]
  congr 1
  change laneSum a b count 0+laneSum a b count 4+(laneSum a b count 1+laneSum a b count 5)+
    (laneSum a b count 2+laneSum a b count 6+(laneSum a b count 1+laneSum a b count 5)) = _
  ring

theorem abs_laneSum_le (a b : List Int8) (count k : ℕ) :
    -(65536*count : ℤ) ≤ laneSum a b count k ∧ laneSum a b count k ≤ 65536*count := by
  induction count with
  | zero => simp [laneSum]
  | succ c ih =>
    rw [laneSum_succ]
    have h1 := abs_term_le a b (32*c+2*k)
    have h2 := abs_term_le a b (32*c+(2*k+1))
    have h3 := abs_term_le a b (32*c+(16+2*k))
    have h4 := abs_term_le a b (32*c+(16+(2*k+1)))
    push_cast
    omega

/-- The products of the whole rounds that end in the lane `k` of the four last ones. -/
def partSum (a b : List Int8) (limbs k : ℕ) : ℤ := ∑ i ∈ range limbs with i%8/2 = k,term a b i

theorem partSum_eq (a b : List Int8) (count : ℕ) {k : ℕ} (hk : k < 4) :
    partSum a b (count*32) k = laneSum a b count k+laneSum a b count (k+4) := by
  induction count with
  | zero => simp [partSum,laneSum]
  | succ c ih =>
    have hmod : ∀ i,(c*32+i)%8 = i%8 := by omega
    rw [partSum,sum_filter,Nat.succ_mul,sum_range_add,← sum_filter,← partSum,ih,laneSum_succ,laneSum_succ]
    simp only [hmod,Nat.mul_comm 32 c,sum_range_succ,range_zero,sum_empty]
    interval_cases k <;> simp <;> ring

theorem abs_partSum_le (a b : List Int8) (count : ℕ) {k : ℕ} (hk : k < 4) :
    -(131072*count : ℤ) ≤ partSum a b (count*32) k ∧ partSum a b (count*32) k ≤ 131072*count := by
  rw [partSum_eq a b count hk]
  have hlow := abs_laneSum_le a b count k
  have hhigh := abs_laneSum_le a b count (k+4)
  omega

theorem sum_term_limbs (a b : List Int8) (count : ℕ) : ∑ i ∈ range (count*32),term a b i =
    partSum a b (count*32) 0+partSum a b (count*32) 1+partSum a b (count*32) 2+partSum a b (count*32) 3 := by
  simp only [partSum,sum_filter,← sum_add_distrib]
  refine sum_congr rfl fun i _ => ?_
  have : i%8/2 < 4 := by omega
  interval_cases i%8/2 <;> simp

theorem foldl_terms (a b : List Int8) (start count : ℕ) (tot : ℤ) :
    (List.range' start count).foldl (fun tot i => tot+(a.getD i 0).toInt64*(b.getD i 0).toInt64) (Int64.ofInt tot) =
      Int64.ofInt (tot+∑ i ∈ range count,term a b (start+i)) := by
  induction count with
  | zero => simp
  | succ n ih =>
    rw [List.range'_1_concat,List.foldl_append,ih,List.foldl_cons,List.foldl_nil,toInt64_mul,← Int64.ofInt_add,
      sum_range_succ,add_assoc]

theorem scalar_eq (h : a.length = b.length) :
    Scalars.dotI8I8 a b = Int64.ofInt (∑ i ∈ range a.length,term a b i) := by
  induction a generalizing b with
  | nil => rfl
  | cons x a ih =>
    cases b with
    | nil => cases h
    | cons y b =>
      have hrest := ih (Nat.succ.inj h)
      rw [List.length_cons,sum_range_succ']
      have hterm : ∀ i,term (x::a) (y::b) (i+1) = term a b i := fun i => rfl
      simp only [hterm,Int64.ofInt_add,← hrest]
      simp [Scalars.dotI8I8,← toInt64_mul,Int64.add_comm]

theorem abs_sum_term_le (a b : List Int8) (start n : ℕ) : -(16384*n : ℤ) ≤ ∑ i ∈ range n,term a b (start+i) ∧
    ∑ i ∈ range n,term a b (start+i) ≤ 16384*n := by
  induction n with
  | zero => simp
  | succ n ih =>
    rw [sum_range_succ]
    have hterm := abs_term_le a b (start+n)
    push_cast
    omega

/-- The vector version gives the scalar product exactly if the products of the whole rounds at the places 2 and 3
of every eight add up to the same as those at the places 6 and 7. -/
theorem dotI8I8Avx2_eq_iff (h : a.length = b.length) (hlen : a.length ≤ 100000) :
    dotI8I8Avx2 a b = Scalars.dotI8I8 a b ↔
      partSum a b (a.length/32*32) 1 = partSum a b (a.length/32*32) 3 := by
  have h0 := abs_partSum_le a b (a.length/32) (k := 0) (by omega)
  have h1 := abs_partSum_le a b (a.length/32) (k := 1) (by omega)
  have h2 := abs_partSum_le a b (a.length/32) (k := 2) (by omega)
  have h3 := abs_partSum_le a b (a.length/32) (k := 3) (by omega)
  have htail := abs_sum_term_le a b (a.length/32*32) (a.length-a.length/32*32)
  have hfold := fold_eq a b (a.length/32)
  rw [← partSum_eq a b _ (k := 0) (by omega),← partSum_eq a b _ (k := 1) (by omega),
    ← partSum_eq a b _ (k := 2) (by omega)] at hfold
  have havx : dotI8I8Avx2 a b = Int64.ofInt (partSum a b (a.length/32*32) 0+2*partSum a b (a.length/32*32) 1+
      partSum a b (a.length/32*32) 2+∑ i ∈ range (a.length-a.length/32*32),term a b (a.length/32*32+i)) := by
    have hmin : min a.length b.length = a.length := by omega
    -- the fold stays within 32 bits, so nothing is cut off before it is widened
    simp only [dotI8I8Avx2,hmin]
    rw [hfold,← Int64.ofInt_int32ToInt,Int32.toInt_ofInt_of_le (by omega) (by omega),foldl_terms]
  have hscalar : Scalars.dotI8I8 a b = Int64.ofInt (partSum a b (a.length/32*32) 0+partSum a b (a.length/32*32) 1+
      partSum a b (a.length/32*32) 2+partSum a b (a.length/32*32) 3+
      ∑ i ∈ range (a.length-a.length/32*32),term a b (a.length/32*32+i)) := by
    rw [scalar_eq h,← sum_term_limbs,← sum_range_add]
    congr 3
    omega
  rw [havx,hscalar]
  constructor
  · intro heq
    have hint := congrArg Int64.toInt heq
    rw [Int64.toInt_ofInt_of_le (by omega) (by omega),Int64.toInt_ofInt_of_le (by omega) (by omega)] at hint
    omega
  · intro hpart
    congr 1
    omega

theorem dotI8I8Avx2_ones : (List.replicate 33 (1 : Int8)).length ≤ 100000 ∧
    dotI8I8Avx2 (List.replicate 33 1) (List.replicate 33 1) =
      Scalars.dotI8I8 (List.replicate 33 1) (List.replicate 33 1) := by
  have hlen : (List.replicate 33 (1 : Int8)).length ≤ 100000 := by decide
  exact ⟨hlen,(dotI8I8Avx2_eq_iff rfl hlen).2 (by decide +kernel)⟩

/-- The third of 32 products alone is counted twice. -/
theorem dotI8I8Avx2_third : dotI8I8Avx2 ((List.replicate 32 0).set 2 1) (List.replicate 32 1) = 2 ∧
    Scalars.dotI8I8 ((List.replicate 32 0).set 2 1) (List.replicate 32 1) = 1 := by
  decide +kernel

end Simd

end HakoDB

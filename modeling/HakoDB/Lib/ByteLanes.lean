import HakoDB.Lib.ByteCodec

/-! Eight bytes in one word, tested all at once: a subtraction that borrows sets the top bit of every lane that is
below a bound. Borrows may set the bits of other lanes too, but no lane below the bound is missed. -/
namespace ByteLanes
open ByteCodec

def ones : UInt64 := 0x0101010101010101

def high : UInt64 := 0x8080808080808080

/-- Some bit is set if a lane of the word is below the bound. -/
def lanesBelow (bound w : UInt64) : UInt64 := (w-ones*bound) &&& ~~~w &&& high

def lane (i : ℕ) (w : ℕ) : ℕ := w/256^i % 256

/-- The word that eight bytes make, the first one lowest. -/
def word (bs : Bytes) : UInt64 := UInt64.ofNat (leNat bs)

variable {p low b rest : ℕ} {c : UInt64} {i : ℕ} {w : UInt64} {bs : Bytes}

theorem top_bit {n : ℕ} (hn : n = low+p*(b+256*rest)) (hlow : low < p) (hb : 128 ≤ b ∧ b < 256) :
    n/(p*128)%2 = 1 := by
  have hp : 0 < p := by omega
  have hdiv : n/p = b+256*rest := by
    rw [hn,Nat.add_mul_div_left _ _ hp,Nat.div_eq_of_lt hlow,Nat.zero_add]
  rw [← Nat.div_div_eq_div_mul,hdiv]
  omega

/-- Subtracting with or without a borrow from the place above. -/
theorem exists_borrow {a m : ℕ} (ha : a < m) (hb : b < m) : ∃ borrow d,borrow ≤ 1 ∧ d < m ∧ a+m*borrow = b+d := by
  by_cases h : b ≤ a
  · exact ⟨0,a-b,by omega,by omega,by omega⟩
  · exact ⟨1,a+m-b,by omega,by omega,by omega⟩

/-- A lane below the bound, between the places below it and the places above it: the difference has its top bit set. -/
theorem borrow_bit {q lane l c r : ℕ} (hlow : low < p) (hl : l < p) (hc : lane < c ∧ c < 128) (hrest : rest < q)
    (hr : r < q) :
    (low+p*(lane+256*rest)+(p*(256*q)-(l+p*(c+256*r))))%(p*(256*q))/(p*128)%2 = 1 := by
  obtain ⟨below,low',hbelow,hlow',hlows⟩ := exists_borrow hlow hl
  obtain ⟨above,rest',habove,hrest',hrests⟩ : ∃ above d,above ≤ 1 ∧ d < q ∧ rest+q*above = r+1+d := by
    rcases Nat.lt_or_ge r rest with h | h
    · exact ⟨0,rest-r-1,by omega,by omega,by omega⟩
    · exact ⟨1,rest+q-r-1,by omega,by omega,by omega⟩
  obtain ⟨lane',hlanes,hlane'⟩ : ∃ d,lane+256 = c+below+d ∧ 128 ≤ d ∧ d < 256 := ⟨lane+256-c-below,by omega,by omega,by omega⟩
  have hsum : low+p*(lane+256*rest)+p*(256*q)*above = l+p*(c+256*r)+(low'+p*(lane'+256*rest')) := by
    have hplaces : lane+256*(rest+q*above) = c+256*r+(lane'+256*rest')+below := by
      rw [hrests]
      omega
    have hmul := congrArg (p * ·) hplaces
    simp only [Nat.mul_add] at hmul ⊢
    have hmix : p*(256*q)*above = p*(256*(q*above)) := by ring
    omega
  have hbound : l+p*(c+256*r) ≤ p*(256*q) := by
    have hplace : c+256*r+1 ≤ 256*q := by omega
    have hmul := Nat.mul_le_mul_left p hplace
    rw [Nat.mul_add,Nat.mul_one] at hmul
    omega
  have hless : low'+p*(lane'+256*rest') < p*(256*q) := by
    have hplace : lane'+256*rest'+1 ≤ 256*q := by omega
    have hmul := Nat.mul_le_mul_left p hplace
    rw [Nat.mul_add,Nat.mul_one] at hmul
    omega
  have hmod : (low+p*(lane+256*rest)+(p*(256*q)-(l+p*(c+256*r))))%(p*(256*q)) = low'+p*(lane'+256*rest') := by
    interval_cases above
    · rw [Nat.mul_zero,Nat.add_zero] at hsum
      rw [show low+p*(lane+256*rest)+(p*(256*q)-(l+p*(c+256*r))) = low'+p*(lane'+256*rest')+p*(256*q) by omega,
        Nat.add_mod_right,Nat.mod_eq_of_lt hless]
    · rw [Nat.mul_one] at hsum
      rw [show low+p*(lane+256*rest)+(p*(256*q)-(l+p*(c+256*r))) = low'+p*(lane'+256*rest') by omega,
        Nat.mod_eq_of_lt hless]
  exact top_bit hmod hlow' hlane'

/-- A one in each of the first lanes. -/
def onesBelow (i : ℕ) : ℕ := (256^i-1)/255

theorem onesBelow_mul_lt {c : ℕ} (hc : c < 128) : onesBelow i*c < 256^i := by
  have hpos : 0 < 256^i := Nat.pow_pos (by decide)
  have hdiv : (256^i-1)/255*255 ≤ 256^i-1 := Nat.div_mul_le_self _ _
  have hle : (256^i-1)/255*c ≤ (256^i-1)/255*255 := Nat.mul_le_mul_left _ (by omega)
  rw [onesBelow]
  omega

theorem ones_toNat : ∀ i < 8,ones.toNat = onesBelow i+256^i*(1+256*onesBelow (7-i)) := by decide

theorem two_pow_eq : ∀ i < 8,2^64 = 256^i*(256*256^(7-i)) := by decide

theorem top_of_lane : ∀ i < 8,2^(8*i+7) = 256^i*128 := by decide

theorem lane_split (i w : ℕ) : w = w%256^i+256^i*(lane i w+256*(w/256^(i+1))) := by
  have hlow := Nat.mod_add_div w (256^i)
  have hlane := Nat.mod_add_div (w/256^i) 256
  rw [Nat.div_div_eq_div_mul,← Nat.pow_succ] at hlane
  rw [lane,hlane,hlow]

theorem high_testBit : ∀ i < 8,high.toNat.testBit (8*i+7) = true := by decide

theorem not_testBit (hi : i < 8) (h : lane i w.toNat < 128) :
    (~~~w).toNat.testBit (8*i+7) = true := by
  have hbit : w.toNat.testBit (8*i+7) = false := by
    rw [Nat.testBit_eq_decide_div_mod_eq,top_of_lane i hi,← Nat.div_div_eq_div_mul]
    rw [lane] at h
    exact decide_eq_false (by omega)
  have hlt : 8*i+7 < 64 := by omega
  rw [← UInt64.toNat_toBitVec,← BitVec.getLsbD,UInt64.toBitVec_not,BitVec.getLsbD_not,BitVec.getLsbD,UInt64.toNat_toBitVec,
    hbit]
  simp [hlt]

theorem ones_mul (hi : i < 8) (hc : c.toNat < 128) :
    (ones*c).toNat = onesBelow i*c.toNat+256^i*(c.toNat+256*(onesBelow (7-i)*c.toNat)) := by
  have hnat : ones.toNat*c.toNat = onesBelow i*c.toNat+256^i*(c.toNat+256*(onesBelow (7-i)*c.toNat)) := by
    rw [ones_toNat i hi]
    ring
  have hsmall : ones.toNat*c.toNat < 2^64 := by
    rw [show ones.toNat = 0x0101010101010101 from rfl]
    omega
  rw [UInt64.toNat_mul,Nat.mod_eq_of_lt hsmall,hnat]

theorem sub_testBit (hi : i < 8) (hc : c.toNat < 128) (h : lane i w.toNat < c.toNat) :
    (w-ones*c).toNat.testBit (8*i+7) = true := by
  have hmul := ones_mul hi hc
  have hrest : w.toNat/256^(i+1) < 256^(7-i) := by
    have hw := w.toNat_lt
    rw [two_pow_eq i hi,← Nat.mul_assoc,← Nat.pow_succ] at hw
    exact Nat.div_lt_of_lt_mul hw
  have hlow : w.toNat%256^i < 256^i := Nat.mod_lt _ (Nat.pow_pos (by decide))
  have hbit := borrow_bit hlow (onesBelow_mul_lt (i := i) hc) ⟨h,hc⟩ hrest (onesBelow_mul_lt (i := 7-i) hc)
  rw [← lane_split,← hmul,← two_pow_eq i hi] at hbit
  rw [Nat.testBit_eq_decide_div_mod_eq,top_of_lane i hi,UInt64.toNat_sub,Nat.add_comm,hbit]
  rfl

/-- No lane below the bound is missed. -/
theorem le_lane_of_lanesBelow (hi : i < 8) (hc : c.toNat < 128) (h : lanesBelow c w = 0) :
    c.toNat ≤ lane i w.toNat := by
  by_contra hlt
  have hlane : lane i w.toNat < c.toNat := by omega
  have hzero : (lanesBelow c w).toNat.testBit (8*i+7) = false := by
    rw [h]
    exact Nat.zero_testBit _
  rw [lanesBelow,UInt64.toNat_and,UInt64.toNat_and,Nat.testBit_and,Nat.testBit_and,sub_testBit hi hc hlane,
    not_testBit hi (by omega),high_testBit i hi] at hzero
  cases hzero

theorem lane_leNat (hi : i < bs.length) : lane i (leNat bs) = bs[i].toNat := by
  induction bs generalizing i with
  | nil => cases hi
  | cons b bs ih =>
    have hb := b.toNat_lt
    cases i with
    | zero =>
      rw [lane,leNat,Nat.pow_zero,Nat.div_one,List.getElem_cons_zero]
      omega
    | succ i =>
      have hdiv : (b.toNat+256*leNat bs)/256 = leNat bs := by omega
      rw [lane,leNat,Nat.pow_succ,Nat.mul_comm (256^i),← Nat.div_div_eq_div_mul,hdiv,← lane,List.getElem_cons_succ]
      exact ih (by simpa using hi)

theorem lane_word (hlen : bs.length = 8) (hi : i < bs.length) : lane i (word bs).toNat = bs[i].toNat := by
  have hlt := leNat_lt bs
  rw [hlen] at hlt
  rw [word,UInt64.toNat_ofNat',Nat.mod_eq_of_lt (by simpa using hlt),lane_leNat hi]

theorem lane_ones_mul (hi : i < 8) (hc : c.toNat < 128) : lane i (ones*c).toNat = c.toNat := by
  have hpos : 0 < 256^i := Nat.pow_pos (by decide)
  rw [lane,ones_mul hi hc,Nat.add_mul_div_left _ _ hpos,Nat.div_eq_of_lt (onesBelow_mul_lt hc)]
  omega

/-- Every lane differs from its byte in the same bits. -/
theorem lane_xor (hi : i < 8) (hc : c.toNat < 128) :
    lane i (w ^^^ ones*c).toNat = lane i w.toNat ^^^ c.toNat := by
  have hlane : ∀ n,lane i n = (n >>> (8*i))%2^8 := by
    intro n
    rw [lane,Nat.shiftRight_eq_div_pow,Nat.pow_mul]
    rfl
  have hk := lane_ones_mul hi hc
  rw [hlane] at hk
  rw [hlane,hlane,UInt64.toNat_xor,Nat.shiftRight_xor_distrib,Nat.xor_mod_two_pow,hk]

end ByteLanes

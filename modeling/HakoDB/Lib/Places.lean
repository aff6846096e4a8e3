import HakoDB.Lib.ByteCodec

/-! Files of bytes that are written at given offsets. A write changes the positions that it covers and no others. -/
namespace Places
open ByteCodec

def Covers (start len p : ℕ) : Prop := start ≤ p ∧ p < start+len

instance (start len p : ℕ) : Decidable (Covers start len p) := inferInstanceAs (Decidable (_ ∧ _))

/-- What a read finds at a position; behind the end of the file it finds zeros. -/
def byteAt (file : Bytes) (p : ℕ) : UInt8 := file.getD p 0

def pwrite (offset : ℕ) (data file : Bytes) : Bytes :=
  file.take offset++List.replicate (offset-file.length) 0++data++file.drop (offset+data.length)

theorem length_front (offset : ℕ) (file : Bytes) :
    (file.take offset++List.replicate (offset-file.length) 0).length = offset := by
  simp only [List.length_append,List.length_take,List.length_replicate]
  omega

variable {offset : ℕ} {data file : Bytes} {p : ℕ} {writes : List (ℕ × Bytes)} {w w' : ℕ × Bytes}

theorem byteAt_pwrite_front (h : p < offset) :
    byteAt (pwrite offset data file) p = byteAt file p := by
  have hlen := length_front offset file
  have hfront : (pwrite offset data file)[p]? =
      (file.take offset++List.replicate (offset-file.length) 0)[p]? := by
    rw [pwrite,List.append_assoc _ data,List.getElem?_append_left (by omega)]
  rw [byteAt,byteAt,List.getD_eq_getElem?_getD,hfront,List.getD_eq_getElem?_getD]
  by_cases hp : p < file.length
  · rw [List.getElem?_append_left (by simp; omega),List.getElem?_take_of_lt h]
  · rw [List.getElem?_append_right (by simp; omega),List.getElem?_replicate]
    have hnone : file[p]? = none := List.getElem?_eq_none (by omega)
    split <;> simp [hnone]

theorem getElem?_pwrite_data (h : Covers offset data.length p) :
    (pwrite offset data file)[p]? = data[p-offset]? := by
  have hlen := length_front offset file
  rw [pwrite,List.append_assoc _ data,List.getElem?_append_right (by rw [hlen]; exact h.1),hlen,
    List.getElem?_append_left (by have := h.1; have := h.2; omega)]

theorem byteAt_pwrite_back (h : offset+data.length ≤ p) :
    byteAt (pwrite offset data file) p = byteAt file p := by
  have hlen := length_front offset file
  have hback : (pwrite offset data file)[p]? = file[p]? := by
    rw [pwrite,List.getElem?_append_right (by rw [List.length_append,hlen]; exact h),List.length_append,hlen,
      List.getElem?_drop,Nat.add_sub_cancel' h]
  rw [byteAt,byteAt,List.getD_eq_getElem?_getD,hback,List.getD_eq_getElem?_getD]

/-- A write changes the positions it covers and no others. -/
theorem byteAt_pwrite_of_not_covers (h : ¬Covers offset data.length p) :
    byteAt (pwrite offset data file) p = byteAt file p := by
  by_cases hp : p < offset
  · exact byteAt_pwrite_front hp
  · apply byteAt_pwrite_back
    by_contra hlt
    exact h ⟨Nat.not_lt.1 hp,Nat.not_le.1 hlt⟩

/-- Positioned writes, one after the other. -/
def pwriteAll (file : Bytes) (writes : List (ℕ × Bytes)) : Bytes := writes.foldl (fun f w => pwrite w.1 w.2 f) file

theorem pwriteAll_snoc (file : Bytes) (writes : List (ℕ × Bytes)) (w : ℕ × Bytes) :
    pwriteAll file (writes++[w]) = pwrite w.1 w.2 (pwriteAll file writes) := by
  simp [pwriteAll]

/-- Two writes touch no position in common. -/
def Apart (w w' : ℕ × Bytes) : Prop := ∀ p,Covers w.1 w.2.length p → ¬Covers w'.1 w'.2.length p

/-- The bytes of a write are in the file. -/
def HasAt (file : Bytes) (w : ℕ × Bytes) : Prop := ∀ j < w.2.length,byteAt file (w.1+j) = w.2.getD j 0

theorem apart_of_le (h : w.1+w.2.length ≤ w'.1 ∨ w'.1+w'.2.length ≤ w.1) : Apart w w' := by
  intro p hp hp'
  have := hp.1
  have := hp.2
  have := hp'.1
  have := hp'.2
  omega

theorem hasAt_pwrite (w : ℕ × Bytes) (file : Bytes) : HasAt (pwrite w.1 w.2 file) w := by
  intro j hj
  have hin : Covers w.1 w.2.length (w.1+j) := ⟨by omega,by omega⟩
  rw [byteAt,List.getD_eq_getElem?_getD,getElem?_pwrite_data hin,Nat.add_sub_cancel_left,List.getD_eq_getElem?_getD]

theorem HasAt.pwrite (h : HasAt file w) (hapart : Apart w w') :
    HasAt (pwrite w'.1 w'.2 file) w := by
  intro j hj
  rw [byteAt_pwrite_of_not_covers (hapart _ ⟨by omega,by omega⟩)]
  exact h j hj

/-- What is written stays in the file if every other write keeps apart from it. -/
theorem hasAt_pwriteAll (file : Bytes) (h : HasAt file w ∨ w ∈ writes) (hapart : ∀ w' ∈ writes,w' = w ∨ Apart w w') :
    HasAt (pwriteAll file writes) w := by
  induction writes using List.reverseRecOn with
  | nil => exact h.resolve_right (by simp)
  | append_singleton writes w' ih =>
    rw [pwriteAll_snoc]
    rcases hapart w' (by simp) with rfl | hw'
    · exact hasAt_pwrite w' _
    · refine HasAt.pwrite (ih ?_ fun u hu => hapart u (by simp [hu])) hw'
      rcases h with h | h
      · exact .inl h
      · rcases List.mem_append.1 h with h | h
        · exact .inr h
        · -- an empty write is in every file
          obtain rfl := List.mem_singleton.1 h
          refine .inl fun j hj => ?_
          exact absurd (show Covers w.1 w.2.length (w.1+j) from ⟨by omega,by omega⟩)
            (hw' _ ⟨by omega,by omega⟩)

end Places

import HakoDB.Lib.ByteOrder

/-! Texts are ordered by their characters; their UTF-8 bytes are ordered the same way, byte by byte. -/
namespace TextOrder
open ByteCodec ByteOrder

theorem cons_lt_cons_of_le {a b : ℕ} {x y : List ℕ} (h : a ≤ b) (hxy : a = b → x < y) : a::x < b::y := by
  rcases Nat.lt_or_eq_of_le h with hlt | rfl
  · exact List.cons_lt_cons_iff.2 (.inl hlt)
  · exact List.cons_lt_cons_iff.2 (.inr ⟨rfl,hxy rfl⟩)

theorem cons_lt_cons_of_lt {a b : ℕ} (h : a < b) (x y : List ℕ) : a::x < b::y := List.cons_lt_cons_iff.2 (.inl h)

/-- The bytes of a smaller character come first, whatever follows. -/
theorem encode_lt {c d : Char} (h : c.val.toNat < d.val.toNat) (x y : Bytes) :
    digits (String.utf8EncodeChar c++x) < digits (String.utf8EncodeChar d++y) := by
  have hvalid : d.val.toNat < 0x110000 := by
    rcases d.valid with hd | hd <;> omega
  simp only [String.utf8EncodeChar,digits]
  -- of two characters of one length the first byte that differs decides, of others the first byte
  split_ifs <;> simp only [List.cons_append,List.nil_append,List.map_cons,UInt8.toNat_ofNat'] <;> first
    | omega
    | exact cons_lt_cons_of_lt (by omega) _ _
    | exact cons_lt_cons_of_le (by omega) fun _ => cons_lt_cons_of_lt (by omega) _ _
    | exact cons_lt_cons_of_le (by omega) fun _ => cons_lt_cons_of_le (by omega) fun _ => cons_lt_cons_of_lt (by omega) _ _
    | exact cons_lt_cons_of_le (by omega) fun _ => cons_lt_cons_of_le (by omega) fun _ =>
        cons_lt_cons_of_le (by omega) fun _ => cons_lt_cons_of_lt (by omega) _ _

theorem digits_append (a b : Bytes) : digits (a++b) = digits a++digits b := List.map_append

theorem encodeChars_lt {a b : List Char} (h : a < b) :
    digits (a.flatMap String.utf8EncodeChar) < digits (b.flatMap String.utf8EncodeChar) := by
  induction a generalizing b with
  | nil =>
    cases b with
    | nil => exact absurd h (lt_irrefl _)
    | cons d b =>
      obtain ⟨x,xs,hx⟩ := List.exists_cons_of_ne_nil (String.utf8EncodeChar_ne_nil (c := d))
      simp [digits,hx]
  | cons c a ih =>
    cases b with
    | nil => exact absurd h (List.not_lt_nil _)
    | cons d b =>
      rw [List.flatMap_cons,List.flatMap_cons]
      rcases List.cons_lt_cons_iff.1 h with hcd | ⟨rfl,hab⟩
      · exact encode_lt hcd _ _
      · rw [digits_append,digits_append,append_lt_append_iff rfl]
        exact .inr ⟨rfl,ih hab⟩

theorem asBytes_eq_flatMap (s : String) : asBytes s = s.toList.flatMap String.utf8EncodeChar := by
  rw [← asBytes_ofList,String.ofList_toList]

theorem asBytes_append (s t : String) : asBytes (s++t) = asBytes s++asBytes t := by
  rw [asBytes_eq_flatMap,asBytes_eq_flatMap,asBytes_eq_flatMap,String.toList_append,List.flatMap_append]

/-- Texts compare as their bytes do. -/
theorem asBytes_lt_iff (s t : String) : digits (asBytes s) < digits (asBytes t) ↔ s < t := by
  have hmono : ∀ {s t : String},s < t → digits (asBytes s) < digits (asBytes t) := by
    intro s t h
    rw [asBytes_eq_flatMap,asBytes_eq_flatMap]
    exact encodeChars_lt (String.lt_iff.1 h)
  refine ⟨fun h => ?_,hmono⟩
  rcases lt_trichotomy s t with hst | rfl | hts
  · exact hst
  · exact absurd h (lt_irrefl _)
  · exact absurd (h.trans (hmono hts)) (lt_irrefl _)

end TextOrder

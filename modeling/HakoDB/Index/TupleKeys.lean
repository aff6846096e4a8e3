import HakoDB.Index.Definition

/-! What the key bytes of a tuple keep of its values. Behind its tag every value tells where it ends, so the
bytes of a tuple fix what each value keeps in a key. -/
namespace HakoDB
open ByteCodec

/-- What a key keeps of a value: nothing but the kind of those that hold others or point elsewhere. -/
def keyed : Value → Value
  | .serverTimestamp => .null
  | .map _ => .map []
  | .array _ => .array []
  | .reference _ _ => .reference "" ""
  | .blobLink _ _ => .blobLink 0 0
  | v => v

/-- The length of a text or of bytes is whole in the four bytes of the key. -/
def KeyLength : Value → Prop
  | .string s => (asBytes s).length < 2^32
  | .binary bs => bs.length < 2^32
  | _ => True

instance : DecidablePred KeyLength := fun v => by
  cases v <;> unfold KeyLength <;> infer_instance

@[simp] theorem maybeFlip_length (direction : SortDirection) (bs : Bytes) : (maybeFlip direction bs).length = bs.length := by
  cases direction <;> simp [maybeFlip]

theorem maybeFlip_injective (direction : SortDirection) : Function.Injective (maybeFlip direction) := by
  cases direction with
  | asc => exact Function.injective_id
  | desc => exact List.map_injective_iff.mpr fun a b h => UInt8.not_inj.mp h

theorem beBytes_injective {w m n : ℕ} (hm : m < 256^w) (hn : n < 256^w) (h : beBytes w m = beBytes w n) : m = n := by
  rw [← beNat_beBytes_of_lt hm,h,beNat_beBytes_of_lt hn]

variable {direction : SortDirection} {r r' : Bytes} {vs : List Value} {fields : List CompositeField}

/-- Eight bytes of a number, flipped or not. -/
theorem word_front {m n : UInt64}
    (h : maybeFlip direction (beBytes 8 m.toNat)++r = maybeFlip direction (beBytes 8 n.toNat)++r') :
    m = n ∧ r = r' := by
  obtain ⟨hword,hr⟩ := List.append_inj h (by simp)
  have hm := m.toNat_lt
  have hn := n.toNat_lt
  exact ⟨UInt64.toNat_inj.mp (beBytes_injective (by omega) (by omega) (maybeFlip_injective direction hword)),hr⟩

/-- Content behind its length. -/
theorem body_front {a b : Bytes} (ha : a.length < 2^32) (hb : b.length < 2^32)
    (h : beBytes 4 a.length++maybeFlip direction a++r = beBytes 4 b.length++maybeFlip direction b++r') :
    a = b ∧ r = r' := by
  simp only [List.append_assoc] at h
  obtain ⟨hlength,hrest⟩ := List.append_inj h (by simp)
  have heq : a.length = b.length := beBytes_injective (by omega) (by omega) hlength
  obtain ⟨hbody,hr⟩ := List.append_inj hrest (by simp [heq])
  exact ⟨maybeFlip_injective direction hbody,hr⟩

/-- Equal bytes begin with the bytes of values of which a key keeps the same. -/
theorem encodeKeyValue_front {v w : Value} (hv : KeyLength v) (hw : KeyLength w)
    (h : encodeKeyValue direction v++r = encodeKeyValue direction w++r') : keyed v = keyed w ∧ r = r' := by
  cases v <;> cases w <;> simp only [encodeKeyValue,List.cons_append,List.nil_append,List.cons.injEq] at h
  all_goals first | exact absurd h.1 (by decide) | skip
  case bool.bool a b =>
    cases a <;> cases b <;> simp_all [keyed]
  case int.int a b =>
    obtain ⟨hword,hr⟩ := word_front h.2
    exact ⟨by rw [show a = b from congrArg Int64.ofUInt64 hword],hr⟩
  case float.float a b =>
    obtain ⟨hword,hr⟩ := word_front h.2
    exact ⟨by rw [show a = b from congrArg F64.mk hword],hr⟩
  case timestamp.timestamp a b =>
    obtain ⟨hword,hr⟩ := word_front h.2
    exact ⟨by rw [show a = b from congrArg Int64.ofUInt64 hword],hr⟩
  case string.string s t =>
    obtain ⟨hbody,hr⟩ := body_front hv hw h.2
    exact ⟨by rw [asBytes_injective hbody],hr⟩
  case binary.binary a b =>
    obtain ⟨hbody,hr⟩ := body_front hv hw h.2
    exact ⟨by rw [hbody],hr⟩
  -- the others have no bytes behind the tag
  all_goals exact ⟨rfl,h.2⟩

/-- The key bytes of the values, one field after the other. -/
def tupleBytes (values : List Value) (fields : List CompositeField) : Bytes :=
  (List.zipWith (fun v f => encodeKeyValue f.direction v) values fields).flatten

theorem tupleBytes_cons (v : Value) (values : List Value) (f : CompositeField) (fields : List CompositeField) :
    tupleBytes (v::values) (f::fields) = encodeKeyValue f.direction v++tupleBytes values fields := rfl

/-- The bytes of a tuple begin with those of leading values only if a key keeps the same of them. -/
theorem tupleBytes_front {gs : List Value} (hgs : ∀ v ∈ gs,KeyLength v) (hvs : ∀ v ∈ vs,KeyLength v)
    (hlen : gs.length ≤ vs.length) (hfields : gs.length ≤ fields.length)
    (h : tupleBytes gs fields++r = tupleBytes vs fields++r') :
    gs.map keyed = (vs.take gs.length).map keyed := by
  induction gs generalizing vs fields with
  | nil => rfl
  | cons g gs ih =>
    cases vs with
    | nil => cases hlen
    | cons v vs =>
      cases fields with
      | nil => cases hfields
      | cons f fields =>
        rw [tupleBytes_cons,tupleBytes_cons,List.append_assoc,List.append_assoc] at h
        obtain ⟨hgv,hrest⟩ := encodeKeyValue_front (hgs g List.mem_cons_self) (hvs v List.mem_cons_self) h
        have htail := ih (fun a ha => hgs a (List.mem_cons_of_mem _ ha)) (fun a ha => hvs a (List.mem_cons_of_mem _ ha))
          (Nat.le_of_succ_le_succ hlen) (Nat.le_of_succ_le_succ hfields) hrest
        rw [List.length_cons,List.take_succ_cons,List.map_cons,List.map_cons,hgv,htail]

end HakoDB

import HakoDB.Document.Codec
import HakoDB.Storage.Resolve

/-! The places that are reserved for the large fields of one document: one behind the other from the old size
of the blob file to the new one. -/
namespace HakoDB
open ByteCodec Places

namespace BlobManager

variable {threshold : ℕ} {value : Value} {raw : Bytes} {key name : String} {size : UInt64}
    {fields : List (String × Value)} {out : UInt64 × List (String × Value) × List BlobWork} {low high : ℕ}
    {places : List (UInt64 × Bytes)}

theorem rawValue_length_le (h : rawValue threshold value = some raw) :
    raw.length+1 ≤ (encodeValue value).length := by
  unfold rawValue at h
  split at h
  · cases value with
    | string s =>
      obtain rfl := Option.some.inj h
      unfold encodeValue
      split <;> simp [lenPrefixed]
    | binary b =>
      obtain rfl := Option.some.inj h
      simp [encodeValue,lenPrefixed]
    | _ => cases h
  · cases h

/-- A value that is moved out is a text or bytes, and not empty. -/
theorem rawValue_eq_some (h : rawValue threshold value = some raw) (hv : value.Encodable) :
    0 < raw.length ∧ raw.length < 2^32 ∧ raw.length+1 ≤ (encodeValue value).length := by
  have hlen := rawValue_length_le h
  unfold rawValue at h
  split at h
  · rename_i hlarge
    cases value with
    | string s =>
      obtain rfl := Option.some.inj h
      have hlt : (asBytes s).length < 2^32 := by simpa [Value.Encodable] using hv
      have hpos : threshold < (asBytes s).length := hlarge
      exact ⟨by omega,hlt,hlen⟩
    | binary b =>
      obtain rfl := Option.some.inj h
      have hlt : b.length < 2^32 := by simpa [Value.Encodable] using hv
      have hpos : threshold < b.length := hlarge
      exact ⟨by omega,hlt,hlen⟩
    | _ => cases h
  · cases h

/-- A field before and after its value was moved out. -/
structure Extracted (threshold : ℕ) (items : List BlobWork) (f g : String × Value) : Prop where
  name : g.1 = f.1
  kept : rawValue threshold f.2 = none → g.2 = f.2
  moved : ∀ raw,rawValue threshold f.2 = some raw →
    ∃ o,g.2 = .blobLink o (UInt32.ofNat raw.length) ∧ (o,raw) ∈ items.filterMap BlobWork.place?

theorem Extracted.mono {items items' : List BlobWork} {f g : String × Value} (h : Extracted threshold items f g)
    (hitems : ∀ i ∈ items,i ∈ items') : Extracted threshold items' f g := by
  refine ⟨h.name,h.kept,fun raw hraw => ?_⟩
  obtain ⟨o,hlink,hmem⟩ := h.moved raw hraw
  obtain ⟨item,hitem,hplace⟩ := List.mem_filterMap.1 hmem
  exact ⟨o,hlink,List.mem_filterMap.2 ⟨item,hitems item hitem,hplace⟩⟩

theorem extractFields_extracted (collection key : String) (time : Int64) (threshold : ℕ) (size : UInt64)
    (fields : List (String × Value)) :
    List.Forall₂ (Extracted threshold (extractFields collection key time threshold size fields).2.2) fields
      (extractFields collection key time threshold size fields).2.1 := by
  induction fields generalizing size with
  | nil => exact .nil
  | cons f fields ih =>
    obtain ⟨name,value⟩ := f
    cases hraw : rawValue threshold value with
    | none =>
      simp only [extractFields,hraw]
      refine .cons ⟨rfl,fun _ => rfl,fun raw h => ?_⟩ (ih size)
      cases hraw.symm.trans h
    | some raw =>
      simp only [extractFields,hraw]
      refine .cons ⟨rfl,fun h => ?_,fun raw' h => ?_⟩ ((ih _).imp fun f g hfg => hfg.mono fun i hi => List.mem_cons_of_mem _ hi)
      · cases hraw.symm.trans h
      · obtain rfl := Option.some.inj (hraw.symm.trans h)
        exact ⟨size,rfl,List.mem_filterMap.2 ⟨_,List.mem_cons_self,rfl⟩⟩

/-- The places of one document stand one behind the other. -/
structure PlacesWithin (low high : ℕ) (places : List (UInt64 × Bytes)) : Prop where
  bounds : ∀ p ∈ places,low ≤ p.1.toNat ∧ p.1.toNat+p.2.length ≤ high ∧ 0 < p.2.length ∧ p.2.length < 2^32
  ordered : places.Pairwise fun a b => a.1.toNat+a.2.length ≤ b.1.toNat

theorem PlacesWithin.apart (h : PlacesWithin low high places) {p q : UInt64 × Bytes} (hp : p ∈ places)
    (hq : q ∈ places) (hne : p ≠ q) :
    Apart (p.1.toNat,p.2) (q.1.toNat,q.2) := by
  obtain ⟨i,hi,rfl⟩ := List.mem_iff_getElem.1 hp
  obtain ⟨j,hj,rfl⟩ := List.mem_iff_getElem.1 hq
  have hpairs := List.pairwise_iff_getElem.1 h.ordered
  have hij : i ≠ j := fun heq => hne (by simp [heq])
  rcases Nat.lt_or_gt_of_ne hij with hlt | hlt
  · exact apart_of_le (.inl (hpairs i j hi hj hlt))
  · exact apart_of_le (.inr (hpairs j i hj hi hlt))

theorem PlacesWithin.ne_lostOffset (h : PlacesWithin low high places) (hhigh : high < 2^64) :
    ∀ p ∈ places,p.1 ≠ lostOffset := by
  intro p hp hlost
  obtain ⟨-,hend,hpos,-⟩ := h.bounds p hp
  have : lostOffset.toNat = 2^64-1 := rfl
  rw [hlost] at hend
  omega

theorem extractFields_places (collection key : String) (time : Int64) (threshold : ℕ) (henc : FieldsEncodable fields)
    (hroom : size.toNat+(encodeFields fields).length < 2^64) :
    PlacesWithin size.toNat (size.toNat+(encodeFields fields).length)
      ((extractFields collection key time threshold size fields).2.2.filterMap BlobWork.place?) := by
  induction fields generalizing size with
  | nil => exact ⟨by simp [extractFields],.nil⟩
  | cons f fields ih =>
    obtain ⟨name,value⟩ := f
    obtain ⟨hname,hvalue,hrest⟩ := henc
    have hlength : (encodeFields ((name,value)::fields)).length =
        (shortText name).length+(encodeValue value).length+(encodeFields fields).length := by
      simp [encodeFields]
      omega
    cases hraw : rawValue threshold value with
    | none =>
      simp only [extractFields,hraw]
      have hroom' : size.toNat+(encodeFields fields).length < 2^64 := by omega
      have hothers := ih hrest hroom'
      refine ⟨fun p hp => ?_,hothers.ordered⟩
      obtain ⟨hlow,hhigh,hlen⟩ := hothers.bounds p hp
      exact ⟨hlow,by omega,hlen⟩
    | some raw =>
      obtain ⟨hpos,hlt,hlen⟩ := rawValue_eq_some hraw hvalue
      have hnext : (size+(UInt32.ofNat raw.length).toUInt64).toNat = size.toNat+raw.length := by
        simp only [UInt64.toNat_add,UInt32.toNat_toUInt64,UInt32.toNat_ofNat']
        omega
      have hroom' : (size+(UInt32.ofNat raw.length).toUInt64).toNat+(encodeFields fields).length < 2^64 := by omega
      simp only [extractFields,hraw]
      have hothers := ih hrest hroom'
      refine ⟨fun p hp => ?_,List.pairwise_cons.2 ⟨fun b hb => ?_,hothers.ordered⟩⟩
      · rcases List.mem_cons.1 hp with rfl | hp
        · exact ⟨le_rfl,by dsimp only; omega,hpos,hlt⟩
        · obtain ⟨hlow,hhigh,hlen'⟩ := hothers.bounds p hp
          exact ⟨by omega,by omega,hlen'⟩
      · exact hnext.ge.trans (hothers.bounds b hb).1

theorem attachSkeleton_places (skeleton : Bytes) (work : List BlobWork) :
    (attachSkeleton skeleton work).filterMap BlobWork.place? = work.filterMap BlobWork.place? := by
  fun_induction attachSkeleton skeleton work with
  | case1 => rfl
  | case2 collection key skeleton' offset data timestamp len => rfl
  | case3 w rest hw ih => rw [List.filterMap_cons,List.filterMap_cons,ih]

end BlobManager

end HakoDB

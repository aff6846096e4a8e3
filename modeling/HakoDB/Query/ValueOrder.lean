import HakoDB.Lib.ThreeWay
import HakoDB.Query.CompareLaws

/-! Values as an order. Kinds are compared first, then values of one kind, maps and arrays by their lengths and entry by
entry. A blob link is at the place of every binary and of every other link, so only leaves without such a pair are ordered. -/
namespace HakoDB
open ThreeWay
open Persisted (floatFree floatFreeFields_iff floatFreeItems_iff)

theorem compareBytes_fits (a b c : ByteCodec.Bytes) :
    Fits (compareBytes a b) (compareBytes b c) (compareBytes a c) := by
  induction a generalizing b c with
  | nil => cases b <;> cases c <;> constructor <;> simp [compareBytes]
  | cons x a ih =>
    cases b with
    | nil => cases c <;> constructor <;> simp [compareBytes]
    | cons y b =>
      cases c with
      | nil => exact ⟨fun _ => rfl,by simp [compareBytes],Eq.symm⟩
      | cons z c => exact (fits_compare x.toNat y.toNat z.toNat).then fun _ _ => ih b c

theorem eq_of_compareBytes {a b : ByteCodec.Bytes} (h : compareBytes a b = .eq) : a = b := by
  induction a generalizing b with
  | nil => cases b <;> simp_all [compareBytes]
  | cons x a ih =>
    cases b with
    | nil => simp [compareBytes] at h
    | cons y b =>
      obtain ⟨hx,hrest⟩ := Ordering.then_eq_eq.mp h
      rw [UInt8.toNat_inj.mp (compare_eq_iff_eq.mp hx),ih hrest]

namespace Value

/-- Nested maps and arrays over leaves of a set, none of them a double. -/
inductive BuiltFrom (S : Set Value) : Value → Prop
  | leaf {v : Value} (hscalar : v.isScalar) (hfloat : floatFree v) (hmem : v ∈ S) : BuiltFrom S v
  | map {fields : List (String × Value)} (h : ∀ f ∈ fields,BuiltFrom S f.2) : BuiltFrom S (.map fields)
  | array {items : List Value} (h : ∀ v ∈ items,BuiltFrom S v) : BuiltFrom S (.array items)

/-- No binary and no other link stands beside a blob link. -/
def Unmixed (S : Set Value) : Prop := ∀ offset len,blobLink offset len ∈ S →
  (∀ bs,binary bs ∉ S) ∧ ∀ offset' len',blobLink offset' len' ∈ S → offset' = offset ∧ len' = len

/-- The laws of a total order that has equal values, and no others, at one place. -/
structure OrderLaws (a b c : Value) : Prop where
  swap : a.cmp b = (b.cmp a).swap
  trans : a.cmp b ≠ .gt → b.cmp c ≠ .gt → a.cmp c ≠ .gt
  eq_iff : a.cmp b = .eq ↔ a.eq b = true

variable {S : Set Value} {a b c : Value}

theorem cmp_eq_then (a b : Value) : a.cmp b = (compare a.typeWeight b.typeWeight).then (a.cmp b) := by
  cases a <;> cases b <;> rfl

theorem BuiltFrom.floatFree (h : BuiltFrom S a) : floatFree a := by
  induction h with
  | leaf _ hfloat _ => exact hfloat
  | map _ ih => exact floatFreeFields_iff.mpr ih
  | array _ ih => exact floatFreeItems_iff.mpr ih

theorem BuiltFrom.mem (h : BuiltFrom S a) (hscalar : a.isScalar) : a ∈ S := by
  cases h with
  | leaf _ _ hmem => exact hmem
  | map h => cases hscalar
  | array h => cases hscalar

theorem eq_self (a : Value) : a.eq a := by
  induction a using nested_induction with
  | scalar v hv =>
    cases v <;> first
      | rfl
      | exact absurd hv Bool.false_ne_true
      | exact beq_self_eq_true _
      | exact Bool.and_eq_true_iff.mpr ⟨beq_self_eq_true _,beq_self_eq_true _⟩
  | map fields ih =>
    change eqFields fields fields = true
    induction fields with
    | nil => rfl
    | cons f fields ihf =>
      have hrest := ihf fun p hp => ih p (List.mem_cons_of_mem f hp)
      change (f.1 == f.1 && f.2.eq f.2 && eqFields fields fields) = true
      rw [ih f List.mem_cons_self,hrest,beq_self_eq_true]
      rfl
  | array items ih =>
    change eqItems items items = true
    induction items with
    | nil => rfl
    | cons v items ihv =>
      have hrest := ihv fun w hw => ih w (List.mem_cons_of_mem v hw)
      change (v.eq v && eqItems items items) = true
      rw [ih v List.mem_cons_self,hrest]
      rfl

def cmpField (f g : String × Value) : Ordering := (compare f.1 g.1).then (f.2.cmp g.2)

theorem cmpFields_eq_lex : ∀ fs gs,cmpFields fs gs = lex cmpField fs gs
  | [],[] | [],_::_ | _::_,[] => rfl
  | f::fs,g::gs => congrArg (cmpField f g).then (cmpFields_eq_lex fs gs)

theorem cmpItems_eq_lex (xs ys : List Value) : cmpItems xs ys = lex cmp xs ys := by
  induction xs generalizing ys with
  | nil => cases ys <;> rfl
  | cons x xs ih =>
    cases ys with
    | nil => rfl
    | cons y ys => exact congrArg (x.cmp y).then (ih ys)

/-- The second value is of the first one's kind. -/
def Alike (a b : Value) : Prop :=
  match a with
  | .null => b = .null
  | .bool _ => ∃ y,b = .bool y
  | .int _ => ∃ y,b = .int y
  | .float _ => False
  | .timestamp _ => ∃ y,b = .timestamp y
  | .string _ => ∃ t,b = .string t
  | .binary _ | .blobLink _ _ => (∃ bs,b = .binary bs) ∨ ∃ offset len,b = .blobLink offset len
  | .reference _ _ => ∃ col id,b = .reference col id
  | .array _ => ∃ ys,b = .array ys
  | .map _ => ∃ gs,b = .map gs
  | .serverTimestamp => b = .serverTimestamp

theorem alike_of_weight (ha : Persisted.floatFree a) (hb : Persisted.floatFree b) (h : compare a.typeWeight b.typeWeight = .eq) :
    Alike a b := by
  have hweight := compare_eq_iff_eq.mp h
  cases a <;> cases b <;> simp_all [Alike,typeWeight,Persisted.floatFree]

/-- Values of different kinds are ordered by their kinds. -/
theorem fits_of_alike (ha : BuiltFrom S a) (hb : BuiltFrom S b) (hc : BuiltFrom S c)
    (h : Alike a b → Alike b c → Fits (a.cmp b) (b.cmp c) (a.cmp c)) : Fits (a.cmp b) (b.cmp c) (a.cmp c) := by
  rw [cmp_eq_then a b,cmp_eq_then b c,cmp_eq_then a c]
  exact (fits_compare _ _ _).then fun hab hbc =>
    h (alike_of_weight ha.floatFree hb.floatFree hab) (alike_of_weight hb.floatFree hc.floatFree hbc)

theorem BuiltFrom.fields {fields : List (String × Value)} (h : BuiltFrom S (.map fields)) :
    ∀ f ∈ fields,BuiltFrom S f.2 := by
  cases h with
  | leaf hscalar => cases hscalar
  | map h => exact h

theorem BuiltFrom.items {items : List Value} (h : BuiltFrom S (.array items)) : ∀ v ∈ items,BuiltFrom S v := by
  cases h with
  | leaf hscalar => cases hscalar
  | array h => exact h

/-- A link is the only one of its kind. -/
theorem Unmixed.eq_link (hS : Unmixed S) {offset : UInt64} {len : UInt32} (ha : BuiltFrom S (.blobLink offset len))
    (hb : BuiltFrom S b) (halike : Alike (.blobLink offset len) b) : b = .blobLink offset len := by
  obtain ⟨hbinary,hlink⟩ := hS offset len (ha.mem rfl)
  rcases halike with ⟨bs,rfl⟩ | ⟨offset',len',rfl⟩
  · exact absurd (hb.mem rfl) (hbinary bs)
  · obtain ⟨rfl,rfl⟩ := hlink offset' len' (hb.mem rfl)
    rfl

theorem Unmixed.eq_binary (hS : Unmixed S) {bs : ByteCodec.Bytes} (ha : BuiltFrom S (.binary bs)) (hb : BuiltFrom S b)
    (halike : Alike (.binary bs) b) : ∃ cs,b = .binary cs := by
  rcases halike with hbinary | ⟨offset,len,rfl⟩
  · exact hbinary
  · exact absurd (ha.mem rfl) ((hS offset len (hb.mem rfl)).1 bs)

theorem cmp_fits (hS : Unmixed S) (ha : BuiltFrom S a) (hb : BuiltFrom S b) (hc : BuiltFrom S c) :
    Fits (a.cmp b) (b.cmp c) (a.cmp c) := by
  induction ha generalizing b c with
  | @leaf a hscalar hfloat hmem =>
    have ha := BuiltFrom.leaf hscalar hfloat hmem
    refine fits_of_alike ha hb hc fun hab hbc => ?_
    cases a with
    | binary x =>
      obtain ⟨y,rfl⟩ := hS.eq_binary ha hb hab
      obtain ⟨z,rfl⟩ := hS.eq_binary hb hc hbc
      exact compareBytes_fits x y z
    | blobLink offset len =>
      obtain rfl := hS.eq_link ha hb hab
      obtain rfl := hS.eq_link ha hc hbc
      exact .refl
    | reference col id =>
      obtain ⟨col',id',rfl⟩ := hab
      obtain ⟨col'',id'',rfl⟩ := hbc
      exact (fits_compare col col' col'').then fun _ _ => fits_compare id id' id''
    | null =>
      obtain rfl := hab
      obtain rfl := hbc
      exact .refl
    | serverTimestamp =>
      obtain rfl := hab
      obtain rfl := hbc
      exact .refl
    | float f => cases hfloat
    | map fields => cases hscalar
    | array items => cases hscalar
    | _ =>
      obtain ⟨y,rfl⟩ := hab
      obtain ⟨z,rfl⟩ := hbc
      exact fits_compare _ _ _
  | @map fs h ih =>
    refine fits_of_alike (.map h) hb hc fun hab hbc => ?_
    obtain ⟨gs,rfl⟩ := hab
    obtain ⟨hs,rfl⟩ := hbc
    refine (fits_compare fs.length gs.length hs.length).then fun hfg hgh => ?_
    rw [cmpFields_eq_lex,cmpFields_eq_lex,cmpFields_eq_lex]
    exact lex_fits (compare_eq_iff_eq.mp hfg) (compare_eq_iff_eq.mp hgh) fun f hf g hg x hx =>
      (fits_compare f.1 g.1 x.1).then fun _ _ => ih f hf (hb.fields g hg) (hc.fields x hx)
  | @array xs h ih =>
    refine fits_of_alike (.array h) hb hc fun hab hbc => ?_
    obtain ⟨ys,rfl⟩ := hab
    obtain ⟨zs,rfl⟩ := hbc
    refine (fits_compare xs.length ys.length zs.length).then fun hxy hyz => ?_
    rw [cmpItems_eq_lex,cmpItems_eq_lex,cmpItems_eq_lex]
    exact lex_fits (compare_eq_iff_eq.mp hxy) (compare_eq_iff_eq.mp hyz) fun x hx y hy z hz =>
      ih x hx (hb.items y hy) (hc.items z hz)

theorem eq_of_cmp (hS : Unmixed S) (ha : BuiltFrom S a) (hb : BuiltFrom S b) (h : a.cmp b = .eq) : a = b := by
  induction ha generalizing b with
  | @leaf a hscalar hfloat hmem =>
    have ha := BuiltFrom.leaf hscalar hfloat hmem
    rw [cmp_eq_then] at h
    obtain ⟨hweight,hsame⟩ := Ordering.then_eq_eq.mp h
    have halike := alike_of_weight hfloat hb.floatFree hweight
    cases a with
    | binary x =>
      obtain ⟨y,rfl⟩ := hS.eq_binary ha hb halike
      rw [eq_of_compareBytes hsame]
    | blobLink offset len => exact (hS.eq_link ha hb halike).symm
    | reference col id =>
      obtain ⟨col',id',rfl⟩ := halike
      obtain ⟨hcol,hid⟩ := Ordering.then_eq_eq.mp hsame
      rw [compare_eq_iff_eq.mp hcol,compare_eq_iff_eq.mp hid]
    | null => exact halike.symm
    | serverTimestamp => exact halike.symm
    | float f => cases hfloat
    | map fields => cases hscalar
    | array items => cases hscalar
    | bool x =>
      obtain ⟨y,rfl⟩ := halike
      cases x <;> cases y <;> first | rfl | cases hsame
    | string s =>
      obtain ⟨t,rfl⟩ := halike
      rw [compare_eq_iff_eq.mp hsame]
    | _ =>
      obtain ⟨y,rfl⟩ := halike
      rw [Int64.toInt_inj.mp (compare_eq_iff_eq.mp hsame)]
  | @map fs h' ih =>
    rw [cmp_eq_then] at h
    obtain ⟨hweight,hsame⟩ := Ordering.then_eq_eq.mp h
    obtain ⟨gs,rfl⟩ := alike_of_weight (BuiltFrom.map h').floatFree hb.floatFree hweight
    obtain ⟨hlen,hrest⟩ := Ordering.then_eq_eq.mp hsame
    rw [cmpFields_eq_lex] at hrest
    refine congrArg _ (eq_of_lex (compare_eq_iff_eq.mp hlen) (fun f hf g hg heq => ?_) hrest)
    obtain ⟨hkey,hvalue⟩ := Ordering.then_eq_eq.mp heq
    exact Prod.ext (compare_eq_iff_eq.mp hkey) (ih f hf (hb.fields g hg) hvalue)
  | @array xs h' ih =>
    rw [cmp_eq_then] at h
    obtain ⟨hweight,hsame⟩ := Ordering.then_eq_eq.mp h
    obtain ⟨ys,rfl⟩ := alike_of_weight (BuiltFrom.array h').floatFree hb.floatFree hweight
    obtain ⟨hlen,hrest⟩ := Ordering.then_eq_eq.mp hsame
    rw [cmpItems_eq_lex] at hrest
    exact congrArg _ (eq_of_lex (compare_eq_iff_eq.mp hlen) (fun x hx y hy heq => ih x hx (hb.items y hy) heq) hrest)

/-- The order has its laws on the values over some leaves exactly if these have no blob link beside a binary or another link. -/
theorem orderLaws_iff (S : Set Value) :
    (∀ a b c,BuiltFrom S a → BuiltFrom S b → BuiltFrom S c → OrderLaws a b c) ↔ Unmixed S := by
  constructor
  · intro h offset len hlink
    have hbuilt : BuiltFrom S (.blobLink offset len) := .leaf rfl rfl hlink
    refine ⟨fun bs hbs => ?_,fun offset' len' hlink' => ?_⟩
    · have hlaws := h (.blobLink offset len) (.binary bs) (.binary bs) hbuilt (.leaf rfl rfl hbs) (.leaf rfl rfl hbs)
      exact absurd (hlaws.eq_iff.mp rfl) Bool.false_ne_true
    · have hbuilt' : BuiltFrom S (.blobLink offset' len') := .leaf rfl rfl hlink'
      have hparts := Bool.and_eq_true_iff.mp ((h _ _ _ hbuilt' hbuilt hbuilt).eq_iff.mp rfl)
      exact ⟨beq_iff_eq.mp hparts.1,beq_iff_eq.mp hparts.2⟩
  · intro hS a b c ha hb hc
    refine ⟨cmp_swap a b,(cmp_fits hS ha hb hc).le_trans,fun h => ?_,fun h => ?_⟩
    · rw [eq_of_cmp hS ha hb h]
      exact eq_self b
    · rw [eq_of_eq ha.floatFree hb.floatFree h]
      exact cmp_self b

/-- A link is at the place of two binaries that are not at one place. -/
theorem link_beside_binaries : (binary [1]).cmp (blobLink 0 5000) = .eq ∧ (blobLink 0 5000).cmp (binary [0]) = .eq ∧
    (binary [1]).cmp (binary [0]) = .gt ∧ (binary [1]).eq (blobLink 0 5000) = false := by
  decide

end Value

end HakoDB

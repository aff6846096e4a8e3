import HakoDB.Query.Filter
import HakoDB.Document.Persisted

/-! The laws of the six comparisons. Each of them reads one ordering of the two values, so the laws hold
exactly where the ordering of the swapped values is the swapped ordering. -/
namespace HakoDB
open Persisted (floatFree floatFreeFields floatFreeItems)

theorem compare_swap {α : Type} [Ord α] [Std.OrientedOrd α] (a b : α) : compare a b = (compare b a).swap :=
  Std.OrientedCmp.eq_swap

theorem compareBytes_swap (a b : ByteCodec.Bytes) : compareBytes a b = (compareBytes b a).swap := by
  induction a generalizing b with
  | nil => cases b <;> rfl
  | cons x a ih =>
    cases b with
    | nil => rfl
    | cons y b => rw [compareBytes,compareBytes,Ordering.swap_then,compare_swap x.toNat,ih b]

namespace Value

mutual
theorem cmp_swap (a b : Value) : a.cmp b = (b.cmp a).swap := by
  cases a with
  | map fs =>
    cases b with
    | map gs => rw [cmp,cmp,Ordering.swap_then,compare_swap fs.length,cmpFields_swap fs gs]
    | _ => exact compare_swap _ _
  | array xs =>
    cases b with
    | array ys => rw [cmp,cmp,Ordering.swap_then,compare_swap xs.length,cmpItems_swap xs ys]
    | _ => exact compare_swap _ _
  | reference c i =>
    cases b with
    | reference d j => rw [cmp,cmp,Ordering.swap_then,compare_swap c,compare_swap i]
    | _ => exact compare_swap _ _
  | binary bs =>
    cases b with
    | binary cs => exact compareBytes_swap bs cs
    | _ => exact compare_swap _ _
  | null => cases b <;> rfl
  | _ => cases b <;> exact compare_swap _ _
theorem cmpFields_swap : ∀ a b : List (String × Value),cmpFields a b = (cmpFields b a).swap
  | [],[] => rfl
  | [],_::_ => rfl
  | _::_,[] => rfl
  | (k,v)::a,(l,w)::b => by
    rw [cmpFields,cmpFields,Ordering.swap_then,Ordering.swap_then,compare_swap k,cmp_swap v w,cmpFields_swap a b]
theorem cmpItems_swap : ∀ a b : List Value,cmpItems a b = (cmpItems b a).swap
  | [],[] => rfl
  | [],_::_ => rfl
  | _::_,[] => rfl
  | v::a,w::b => by rw [cmpItems,cmpItems,Ordering.swap_then,cmp_swap v w,cmpItems_swap a b]
end

theorem cmp_self (a : Value) : a.cmp a = .eq := by
  have hswap := cmp_swap a a
  cases hord : a.cmp a <;> simp_all

mutual
/-- Without doubles only a value itself equals it. -/
theorem eq_of_eq {a b : Value} (ha : floatFree a) (hb : floatFree b) (h : a.eq b) : a = b := by
  cases a with
  | map fs =>
    cases b with
    | map gs => rw [eqFields_of_eq (a := fs) (b := gs) ha hb h]
    | _ => exact absurd h Bool.false_ne_true
  | array xs =>
    cases b with
    | array ys => rw [eqItems_of_eq (a := xs) (b := ys) ha hb h]
    | _ => exact absurd h Bool.false_ne_true
  | reference c i =>
    cases b with
    | reference d j =>
      have hparts := Bool.and_eq_true_iff.mp h
      rw [beq_iff_eq.mp hparts.1,beq_iff_eq.mp hparts.2]
    | _ => exact absurd h Bool.false_ne_true
  | blobLink o l =>
    cases b with
    | blobLink p m =>
      have hparts := Bool.and_eq_true_iff.mp h
      rw [beq_iff_eq.mp hparts.1,beq_iff_eq.mp hparts.2]
    | _ => exact absurd h Bool.false_ne_true
  | _ =>
    cases b <;> first
      | exact absurd h Bool.false_ne_true
      | exact absurd ha Bool.false_ne_true
      | exact absurd hb Bool.false_ne_true
      | rfl
      | exact congrArg _ (beq_iff_eq.mp h)
theorem eqFields_of_eq {a b : List (String × Value)} (ha : floatFreeFields a) (hb : floatFreeFields b)
    (h : eqFields a b) : a = b := by
  cases a with
  | nil =>
    cases b with
    | nil => rfl
    | cons g gs => exact absurd h Bool.false_ne_true
  | cons f fs =>
    cases b with
    | nil => exact absurd h Bool.false_ne_true
    | cons g gs =>
      obtain ⟨k,v⟩ := f
      obtain ⟨l,w⟩ := g
      obtain ⟨hhead,hrest⟩ := Bool.and_eq_true_iff.mp h
      obtain ⟨hkey,hvalue⟩ := Bool.and_eq_true_iff.mp hhead
      obtain ⟨hav,haf⟩ := Bool.and_eq_true_iff.mp ha
      obtain ⟨hbw,hbg⟩ := Bool.and_eq_true_iff.mp hb
      rw [beq_iff_eq.mp hkey,eq_of_eq hav hbw hvalue,eqFields_of_eq haf hbg hrest]
theorem eqItems_of_eq {a b : List Value} (ha : floatFreeItems a) (hb : floatFreeItems b)
    (h : eqItems a b) : a = b := by
  cases a with
  | nil =>
    cases b with
    | nil => rfl
    | cons w ys => exact absurd h Bool.false_ne_true
  | cons v xs =>
    cases b with
    | nil => exact absurd h Bool.false_ne_true
    | cons w ys =>
      obtain ⟨hvalue,hrest⟩ := Bool.and_eq_true_iff.mp h
      obtain ⟨hav,hax⟩ := Bool.and_eq_true_iff.mp ha
      obtain ⟨hbw,hby⟩ := Bool.and_eq_true_iff.mp hb
      rw [eq_of_eq hav hbw hvalue,eqItems_of_eq hax hby hrest]
end

end Value

section laws
variable (text : TextOps)

/-- The ordering that the comparisons of two values read; none where all of them answer no. -/
def ordering (a b : Value) : Option Ordering :=
  match a,b with
  | .string s,.int i | .int i,.string s => some (((parseInt64 s).map fun n => compare n.toInt i.toInt).getD (a.cmp b))
  | .bool a,.string s => (parseBoolLike text s).map fun b => compare a.toNat b.toNat
  | .string s,.bool b => (parseBoolLike text s).map fun a => compare a.toNat b.toNat
  | .bool a,.int b => some (compare (a.toNat : ℤ) b.toInt)
  | .int a,.bool b => some (compare a.toInt (b.toNat : ℤ))
  | a,b => some (a.cmp b)

def readOrdering (ord : Option Ordering) (op : Operator) : Bool := (ord.map fun ord => evalOrdering ord op).getD false

/-- The operators that compare by an ordering alone. -/
def Operator.ordered : Operator → Bool
  | .eq | .ne | .gt | .gte | .lt | .lte => true
  | _ => false

variable {op : Operator} {a b : Value}

theorem compareStrings_eq (s t : String) (hop : op.ordered) :
    compareStrings text s t op = evalOrdering (compare s t) op := by
  cases op <;> first | rfl | exact absurd hop Bool.false_ne_true

/-- A text and a number are never at the same place as values, so a text that spells no number is
compared as the values are. -/
theorem compareParsed_eq (parsed : Option Ordering) (hcmp : a.cmp b ≠ .eq) (op : Operator) :
    compareParsed parsed a b op = evalOrdering (parsed.getD (a.cmp b)) op := by
  cases parsed with
  | some ord => rfl
  | none => cases op <;> first | rfl | simp [compareParsed,evalOrdering,hcmp]

theorem compareBools_eq (parsed : Option Bool) (f : Bool → Ordering) (op : Operator) :
    (parsed.map fun b => evalOrdering (f b) op).getD false =
      readOrdering (parsed.map f) op := by
  cases parsed <;> rfl

theorem ordering_self (a : Value) : ordering text a a = some .eq := by
  rw [← a.cmp_self]
  cases a <;> rfl

/-- Apart from the text searches a comparison reads the ordering alone. -/
theorem compareScalars_eq (ha : floatFree a) (hb : floatFree b) (hop : op.ordered) :
    compareScalars text a b op = readOrdering (ordering text a b) op := by
  by_cases hfast : op = .eq ∧ a.eq b
  · obtain ⟨rfl,heq⟩ := hfast
    obtain rfl := Value.eq_of_eq ha hb heq
    rw [ordering_self]
    unfold compareScalars
    rw [if_pos ⟨rfl,heq⟩]
    rfl
  · unfold compareScalars
    rw [if_neg hfast]
    cases a with
    | float f => exact absurd ha Bool.false_ne_true
    | string s =>
      cases b with
      | float f => exact absurd hb Bool.false_ne_true
      | string t => exact compareStrings_eq text s t hop
      | int i => exact compareParsed_eq _ Ordering.noConfusion op
      | bool c => exact compareBools_eq (parseBoolLike text s) (fun b => compare b.toNat c.toNat) op
      | _ => rfl
    | int i =>
      cases b with
      | float f => exact absurd hb Bool.false_ne_true
      | string s => exact compareParsed_eq _ Ordering.noConfusion op
      | int j => rfl
      | bool b => rfl
      | _ => rfl
    | bool c =>
      cases b with
      | float f => exact absurd hb Bool.false_ne_true
      | string s => exact compareBools_eq (parseBoolLike text s) (fun b => compare c.toNat b.toNat) op
      | int j => rfl
      | bool d => rfl
      | _ => rfl
    | _ => cases b <;> rfl

theorem compareValues_eq (ha : floatFree a) (hb : floatFree b) (hop : op.ordered) :
    compareValues text a op b = readOrdering (ordering text a b) op := by
  rw [← compareScalars_eq text ha hb hop]
  cases op <;> first | rfl | exact absurd hop Bool.false_ne_true

/-- The laws of an order, for the comparisons of two values. -/
structure Lawful (a b : Value) : Prop where
  gt_swap : compareValues text a .gt b = compareValues text b .lt a
  gte_swap : compareValues text a .gte b = compareValues text b .lte a
  eq_swap : compareValues text a .eq b = compareValues text b .eq a
  ne_iff : compareValues text a .ne b = !compareValues text a .eq b
  gte_iff : compareValues text a .gte b = (compareValues text a .gt b || compareValues text a .eq b)
  trichotomy : ([.lt,.eq,.gt].countP fun op => compareValues text a op b) = 1

theorem ordering_isSome_swap (a b : Value) : (ordering text a b).isSome = (ordering text b a).isSome := by
  cases a with
  | string s =>
    cases b with
    | bool c => exact (Option.isSome_map).trans (Option.isSome_map).symm
    | _ => exact Eq.refl true
  | bool c =>
    cases b with
    | string s => exact (Option.isSome_map).trans (Option.isSome_map).symm
    | _ => exact Eq.refl true
  | _ => cases b <;> exact Eq.refl true

theorem lawful_iff_swap (ha : floatFree a) (hb : floatFree b) :
    Lawful text a b ↔ ∃ ord,ordering text a b = some ord ∧ ordering text b a = some ord.swap := by
  have hab (op : Operator) (hop : op.ordered) : compareValues text a op b = readOrdering (ordering text a b) op :=
    compareValues_eq text ha hb hop
  have hba (op : Operator) (hop : op.ordered) : compareValues text b op a = readOrdering (ordering text b a) op :=
    compareValues_eq text hb ha hop
  constructor
  · rintro ⟨hgt,hgte,heq,-,-,hone⟩
    rw [hab _ rfl,hba _ rfl] at hgt hgte heq
    simp only [List.countP_cons,List.countP_nil,hab .lt rfl,hab .eq rfl,hab .gt rfl] at hone
    have hsome := ordering_isSome_swap text a b
    cases hord : ordering text a b with
    | none => simp [hord,readOrdering] at hone
    | some ord =>
      obtain ⟨rev,hrev⟩ := Option.isSome_iff_exists.mp (hsome.symm.trans (congrArg _ hord))
      refine ⟨ord,rfl,hrev.trans ?_⟩
      rw [hord,hrev] at hgt hgte heq
      -- the strict order and equality of the one side fix the ordering of the other
      cases ord <;> cases rev <;> simp_all [readOrdering,evalOrdering]
  · rintro ⟨ord,hord,hswap⟩
    rw [hord] at hab
    rw [hswap] at hba
    constructor
    · rw [hab _ rfl,hba _ rfl]
      cases ord <;> rfl
    · rw [hab _ rfl,hba _ rfl]
      cases ord <;> rfl
    · rw [hab _ rfl,hba _ rfl]
      cases ord <;> rfl
    · rw [hab _ rfl,hab _ rfl]
      cases ord <;> rfl
    · rw [hab _ rfl,hab _ rfl,hab _ rfl]
      cases ord <;> rfl
    · simp only [List.countP_cons,List.countP_nil,hab .lt rfl,hab .eq rfl,hab .gt rfl]
      cases ord <;> rfl

/-- A number beside a text that spells another number, or a truth value beside a text that spells none. -/
def Misread : Value → Value → Prop
  | .string s,.int i | .int i,.string s => ∃ n,parseInt64 s = some n ∧ n ≠ i
  | .string s,.bool _ | .bool _,.string s => parseBoolLike text s = none
  | _,_ => False

/-- A number that the text spells is on the left in both orders, so only the number itself agrees. -/
theorem parsed_swap_iff (parsed : Option Int64) (i : Int64) (ord : Ordering) :
    (∃ o,some ((parsed.map fun n => compare n.toInt i.toInt).getD ord) = some o ∧
        some ((parsed.map fun n => compare n.toInt i.toInt).getD ord.swap) = some o.swap) ↔
      ¬∃ n,parsed = some n ∧ n ≠ i := by
  cases parsed with
  | none => simp
  | some n =>
    simp only [Option.map_some,Option.getD_some,Option.some.injEq,exists_eq_left',not_not]
    constructor
    · intro h
      have heq : compare n.toInt i.toInt = .eq := by
        cases hord : compare n.toInt i.toInt <;> simp_all
      exact Int64.toInt_inj.mp (compare_eq_iff_eq.mp heq)
    · rintro rfl
      simp

theorem bools_swap_iff (parsed : Option Bool) {f g : Bool → Ordering} (hswap : ∀ b,g b = (f b).swap) :
    (∃ o,parsed.map f = some o ∧ parsed.map g = some o.swap) ↔ ¬parsed = none := by
  cases parsed with
  | none => simp
  | some b => simp [hswap]

/-- Apart from misread texts the swapped values have the swapped ordering. -/
theorem ordering_swap_iff (a b : Value) :
    (∃ ord,ordering text a b = some ord ∧ ordering text b a = some ord.swap) ↔ ¬Misread text a b := by
  cases a with
  | string s =>
    cases b with
    | int i => exact parsed_swap_iff (parseInt64 s) i .gt
    | bool c => exact bools_swap_iff (parseBoolLike text s) fun b => compare_swap c.toNat b.toNat
    | _ => exact iff_of_true ⟨_,rfl,congrArg some (Value.cmp_swap _ _)⟩ id
  | int i =>
    cases b with
    | string s => exact parsed_swap_iff (parseInt64 s) i .lt
    | bool c => exact iff_of_true ⟨_,rfl,congrArg some (compare_swap _ _)⟩ id
    | _ => exact iff_of_true ⟨_,rfl,congrArg some (Value.cmp_swap _ _)⟩ id
  | bool c =>
    cases b with
    | string s => exact bools_swap_iff (parseBoolLike text s) fun b => compare_swap b.toNat c.toNat
    | int i => exact iff_of_true ⟨_,rfl,congrArg some (compare_swap _ _)⟩ id
    | _ => exact iff_of_true ⟨_,rfl,congrArg some (Value.cmp_swap _ _)⟩ id
  | _ => cases b <;> exact iff_of_true ⟨_,rfl,congrArg some (Value.cmp_swap _ _)⟩ id

theorem lawful_iff {a b : Value} (ha : floatFree a) (hb : floatFree b) :
    Lawful text a b ↔ ¬Misread text a b :=
  (lawful_iff_swap text ha hb).trans (ordering_swap_iff text a b)

end laws

theorem lawful_spelledNumber : ¬Misread asciiText (.int 7) (.string "7") ∧ Lawful asciiText (.int 7) (.string "7") := by
  have hread : ¬Misread asciiText (.int 7) (.string "7") := by
    rintro ⟨n,hparse,hne⟩
    have hseven : parseInt64 "7" = some 7 := by decide
    rw [hseven] at hparse
    exact hne (Option.some.inj hparse).symm
  exact ⟨hread,(lawful_iff asciiText rfl rfl).mpr hread⟩

/-- Five is above the text of seven, and the text of seven is not below five. -/
theorem not_lawful_otherNumber : compareValues asciiText (.int 5) .gt (.string "7") = true ∧
    compareValues asciiText (.string "7") .lt (.int 5) = false := by
  decide

end HakoDB

import Mathlib.Order.Compare

/-! The orderings between three elements. Where each of two comparisons is the comparison of an order, so is the one that
looks at the second only where the first finds no difference. -/
namespace ThreeWay

/-- The first and the third element compare as their comparisons with the second allow. -/
structure Fits (ab bc ac : Ordering) : Prop where
  left : ab = .eq → ac = bc
  right : bc = .eq → ac = ab
  both : ab = bc → ac = ab

variable {ab bc ac : Ordering}

theorem Fits.refl : Fits .eq .eq .eq := ⟨fun _ => rfl,fun _ => rfl,fun _ => rfl⟩

theorem Fits.then {ab' bc' ac' : Ordering} (h : Fits ab bc ac) (h' : ab = .eq → bc = .eq → Fits ab' bc' ac') :
    Fits (ab.then ab') (bc.then bc') (ac.then ac') := by
  obtain ⟨hleft,hright,hboth⟩ := h
  by_cases heq : ab = .eq ∧ bc = .eq
  · obtain ⟨rfl,rfl⟩ := heq
    obtain rfl := hleft rfl
    exact h' rfl rfl
  · constructor <;> cases ab <;> cases bc <;> cases ac <;> simp_all [Ordering.then]

theorem Fits.le_trans (h : Fits ab bc ac) (hab : ab ≠ .gt) (hbc : bc ≠ .gt) : ac ≠ .gt := by
  obtain ⟨hleft,hright,hboth⟩ := h
  cases ab <;> cases bc <;> simp_all

theorem Fits.swap (h : Fits ab bc ac) : Fits ab.swap bc.swap ac.swap := by
  obtain ⟨hleft,hright,hboth⟩ := h
  constructor <;> cases ab <;> cases bc <;> cases ac <;> simp_all

theorem fits_compare {α : Type*} [Ord α] [Std.TransOrd α] (a b c : α) : Fits (compare a b) (compare b c) (compare a c) := by
  refine ⟨Std.TransCmp.congr_left,fun h => (Std.TransCmp.congr_right h).symm,fun h => ?_⟩
  cases hab : compare a b with
  | lt => exact Std.TransCmp.lt_trans hab (h.symm.trans hab)
  | eq => exact (Std.TransCmp.congr_left hab).trans (h.symm.trans hab)
  | gt => exact Std.TransCmp.gt_trans hab (h.symm.trans hab)

/-- Element by element, as far as both lists go. -/
def lex {α : Type*} (cmp : α → α → Ordering) : List α → List α → Ordering
  | x::xs,y::ys => (cmp x y).then (lex cmp xs ys)
  | _,_ => .eq

section lex
variable {α : Type*} {cmp : α → α → Ordering} {xs ys zs : List α}

theorem lex_fits (hxy : xs.length = ys.length) (hyz : ys.length = zs.length)
    (h : ∀ x ∈ xs,∀ y ∈ ys,∀ z ∈ zs,Fits (cmp x y) (cmp y z) (cmp x z)) :
    Fits (lex cmp xs ys) (lex cmp ys zs) (lex cmp xs zs) := by
  induction xs generalizing ys zs with
  | nil =>
    obtain rfl := List.length_eq_zero_iff.mp hxy.symm
    exact .refl
  | cons x xs ih =>
    cases ys with
    | nil => cases hxy
    | cons y ys =>
      cases zs with
      | nil => cases hyz
      | cons z zs =>
        have hrest := ih (Nat.succ.inj hxy) (Nat.succ.inj hyz) fun x' hx y' hy z' hz =>
          h x' (List.mem_cons_of_mem x hx) y' (List.mem_cons_of_mem y hy) z' (List.mem_cons_of_mem z hz)
        exact (h x List.mem_cons_self y List.mem_cons_self z List.mem_cons_self).then fun _ _ => hrest

theorem eq_of_lex (hxy : xs.length = ys.length) (h : ∀ x ∈ xs,∀ y ∈ ys,cmp x y = .eq → x = y)
    (heq : lex cmp xs ys = .eq) : xs = ys := by
  induction xs generalizing ys with
  | nil => exact (List.length_eq_zero_iff.mp hxy.symm).symm
  | cons x xs ih =>
    cases ys with
    | nil => cases hxy
    | cons y ys =>
      obtain ⟨hx,hrest⟩ := Ordering.then_eq_eq.mp heq
      rw [h x List.mem_cons_self y List.mem_cons_self hx,ih (Nat.succ.inj hxy)
        (fun x' hx y' hy => h x' (List.mem_cons_of_mem x hx) y' (List.mem_cons_of_mem y hy)) hrest]

end lex

end ThreeWay

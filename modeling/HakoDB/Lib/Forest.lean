import Mathlib.Data.List.Induction
import Mathlib.Logic.Relation
import Mathlib.Order.Fin.Basic

/-! Disjoint sets as a forest of parent links that only lead upwards, so that every walk to a root ends.
Joining the trees of some pairs leaves the classes of the smallest equivalence with those pairs. -/

structure Forest (n : ℕ) where
  parent : Fin n → Fin n
  up : ∀ x,x ≤ parent x

namespace Forest
variable {n : ℕ} {f : Forest n} {a b x y : Fin n}

def singletons (n : ℕ) : Forest n := ⟨id,fun _ => le_rfl⟩

/-- Walk to the root. -/
def find (f : Forest n) (x : Fin n) : Fin n :=
  if f.parent x = x then x else f.find (f.parent x)
termination_by n-x
decreasing_by
  rename_i hne
  have hup := f.up x
  have hlt : x < f.parent x := lt_of_le_of_ne hup (Ne.symm hne)
  omega

/-- Hang one root below a greater one. -/
def link (f : Forest n) (a b : Fin n) (h : a ≤ b) : Forest n where
  parent := Function.update f.parent a b
  up x := by
    by_cases hx : x = a
    · subst hx
      simpa using h
    · simpa [hx] using f.up x

/-- Join the trees of two nodes; the smaller root goes below the greater one. -/
def union (f : Forest n) (a b : Fin n) : Forest n :=
  if f.find a ≠ f.find b then f.link (min (f.find a) (f.find b)) (max (f.find a) (f.find b)) ((min_le_left _ _).trans (le_max_left _ _)) else f

theorem find_root (h : f.parent x = x) : f.find x = x := by
  rw [find,if_pos h]

theorem find_step (h : f.parent x ≠ x) : f.find x = f.find (f.parent x) := by
  rw [find,if_neg h]

theorem parent_find (f : Forest n) (x : Fin n) : f.parent (f.find x) = f.find x := by
  fun_induction find f x with
  | case1 x h => exact h
  | case2 x h ih => exact ih

/-- Only the tree that was moved has a new root. -/
theorem find_link {h : a ≤ b} (ha : f.parent a = a) (hb : f.parent b = b) (hne : a ≠ b) (x : Fin n) :
    (f.link a b h).find x = if f.find x = a then b else f.find x := by
  have hroot : (f.link a b h).find b = b := find_root (by simp [link,hne.symm,hb])
  fun_induction find f x with
  | case1 x hx =>
    by_cases hxa : x = a
    · subst hxa
      rw [if_pos rfl,find_step (by simp [link,hne.symm])]
      simpa [link] using hroot
    · rw [if_neg hxa]
      exact find_root (by simp [link,hxa,hx])
  | case2 x hx ih =>
    have hxa : x ≠ a := by
      rintro rfl
      exact hx ha
    have hparent : (f.link a b h).parent x = f.parent x := by simp [link,hxa]
    rw [find_step (hparent ▸ hx),hparent,ih]

theorem find_union : (f.union a b).find x = (f.union a b).find y ↔
    f.find x = f.find y ∨ f.find x = f.find a ∧ f.find y = f.find b ∨ f.find x = f.find b ∧ f.find y = f.find a := by
  unfold union
  split
  · rename_i hne
    rcases lt_or_gt_of_ne hne with hlt | hlt
    · rw [find_link (by simp [min_eq_left hlt.le,parent_find]) (by simp [max_eq_right hlt.le,parent_find]) (by simp [hne]),
        find_link (by simp [min_eq_left hlt.le,parent_find]) (by simp [max_eq_right hlt.le,parent_find]) (by simp [hne]),
        min_eq_left hlt.le,max_eq_right hlt.le]
      grind
    · rw [find_link (by simp [min_eq_right hlt.le,parent_find]) (by simp [max_eq_left hlt.le,parent_find]) (by simp [hne]),
        find_link (by simp [min_eq_right hlt.le,parent_find]) (by simp [max_eq_left hlt.le,parent_find]) (by simp [hne]),
        min_eq_right hlt.le,max_eq_left hlt.le]
      grind
  · rename_i heq
    rw [not_ne_iff] at heq
    grind

open Relation

theorem union_same {R : Fin n → Fin n → Prop} (h : ∀ x y,f.find x = f.find y ↔ EqvGen R x y) (x y : Fin n) :
    (f.union a b).find x = (f.union a b).find y ↔ EqvGen (fun u v => R u v ∨ u = a ∧ v = b) x y := by
  have hmono : ∀ u v,EqvGen R u v → EqvGen (fun u v => R u v ∨ u = a ∧ v = b) u v :=
    EqvGen.mono fun _ _ h => Or.inl h
  have hab : EqvGen (fun u v => R u v ∨ u = a ∧ v = b) a b := .rel _ _ (.inr ⟨rfl,rfl⟩)
  constructor
  · intro hfind
    rcases find_union.1 hfind with hxy | ⟨hx,hy⟩ | ⟨hx,hy⟩
    · exact hmono _ _ ((h x y).1 hxy)
    · exact .trans _ _ _ (hmono _ _ ((h x a).1 hx)) (.trans _ _ _ hab (hmono _ _ ((h b y).1 hy.symm)))
    · exact .trans _ _ _ (hmono _ _ ((h x b).1 hx)) (.trans _ _ _ (.symm _ _ hab) (hmono _ _ ((h a y).1 hy.symm)))
  · intro hgen
    induction hgen with
    | rel u v huv =>
      rcases huv with huv | ⟨rfl,rfl⟩
      · exact find_union.2 (.inl ((h u v).2 (.rel _ _ huv)))
      · exact find_union.2 (.inr (.inl ⟨rfl,rfl⟩))
    | refl u => rfl
    | symm u v _ ih => exact ih.symm
    | trans u v w _ _ ihuv ihvw => exact ihuv.trans ihvw

/-- After all unions the roots tell the classes of the smallest equivalence with the joined pairs. -/
theorem find_unions (pairs : List (Fin n × Fin n)) (x y : Fin n) :
    (pairs.foldl (fun f p => f.union p.1 p.2) (singletons n)).find x =
      (pairs.foldl (fun f p => f.union p.1 p.2) (singletons n)).find y ↔ EqvGen (fun u v => (u,v) ∈ pairs) x y := by
  induction pairs using List.reverseRecOn generalizing x y with
  | nil =>
    have hroot : ∀ z : Fin n,(singletons n).find z = z := fun z => find_root rfl
    simp only [List.foldl_nil,hroot,List.not_mem_nil]
    refine ⟨fun h => h ▸ .refl x,fun h => ?_⟩
    induction h with
    | rel _ _ h => exact h.elim
    | refl _ => rfl
    | symm _ _ _ ih => exact ih.symm
    | trans _ _ _ _ _ ih1 ih2 => exact ih1.trans ih2
  | append_singleton pairs p ih =>
    rw [List.foldl_append]
    refine (union_same ih x y).trans (iff_of_eq (congrFun (congrFun (congrArg _ ?_) x) y))
    funext u v
    simp [Prod.ext_iff]

end Forest

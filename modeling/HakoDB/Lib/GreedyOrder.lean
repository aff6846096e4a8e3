import Mathlib.Data.List.Lex
import Mathlib.Order.WellFounded

/-! Orders of the nodes of a relation in which every edge points forward, and the one that takes the least node that
is ready each time. -/

namespace GreedyOrder
variable {α : Type} [LinearOrder α] (E : α → α → Prop) (nodes : List α)

/-- Every edge points forward in the list. -/
def Forward (l : List α) : Prop := ∀ x y,E x y → l.idxOf x < l.idxOf y

/-- A node whose turn it may be: all that points at it is done. -/
def Ready (done : List α) (x : α) : Prop := x ∈ nodes ∧ x ∉ done ∧ ∀ u,E u x → u ∈ done

/-- The least ready node each time, for as long as there is one. -/
def Greedy : List α → List α → Prop
  | done,[] => ∀ x,¬Ready E nodes done x
  | done,x::xs => Ready E nodes done x ∧ (∀ y,Ready E nodes done y → x ≤ y) ∧ Greedy (done++[x]) xs

variable {E nodes} {done l xs ys : List α}

theorem Greedy.mem (h : Greedy E nodes done l) {x : α} (hx : x ∈ l) : x ∈ nodes := by
  induction l generalizing done with
  | nil => cases hx
  | cons a l ih =>
    rcases List.mem_cons.1 hx with rfl | hx
    · exact h.1.1
    · exact ih h.2.2 hx

theorem Greedy.nodup (h : Greedy E nodes done l) (hdone : done.Nodup) : (done++l).Nodup := by
  induction l generalizing done with
  | nil => rwa [List.append_nil]
  | cons a l ih =>
    rw [List.append_cons]
    exact ih h.2.2 (List.perm_append_singleton a done |>.nodup_iff.2 (List.nodup_cons.2 ⟨h.1.2.1,hdone⟩))

theorem Greedy.before (h : Greedy E nodes done l) {pre post : List α} {y : α} (hl : l = pre++y::post) {u : α}
    (hu : E u y) : u ∈ done++pre := by
  induction pre generalizing done l with
  | nil =>
    subst hl
    rw [List.append_nil]
    exact h.1.2.2 u hu
  | cons a pre ih =>
    subst hl
    rw [List.append_cons]
    exact ih h.2.2 rfl

theorem Greedy.forward (h : Greedy E nodes [] l) (hall : ∀ x y,E x y → y ∈ l) : Forward E l := by
  intro x y hxy
  obtain ⟨pre,post,rfl⟩ := List.append_of_mem (hall x y hxy)
  have hx : x ∈ pre := h.before rfl hxy
  have hnodup : (pre++y::post).Nodup := h.nodup .nil
  have hy : y ∉ pre := fun hy => (List.nodup_append.1 hnodup).2.2 y hy y List.mem_cons_self rfl
  rw [List.idxOf_append_of_mem hx,List.idxOf_append_of_notMem hy,List.idxOf_cons_self,Nat.add_zero]
  exact List.idxOf_lt_length_of_mem hx

/-- Without an endless way back nothing is left out. -/
theorem Greedy.complete (h : Greedy E nodes done l) (hwf : WellFounded E) (hedge : ∀ u x,E u x → u ∈ nodes) {x : α}
    (hx : x ∈ nodes) : x ∈ done++l := by
  induction l generalizing done with
  | nil =>
    rw [List.append_nil]
    induction x using hwf.induction with
    | _ x ih =>
      by_contra hleft
      exact h x ⟨hx,hleft,fun u hu => ih u hu (hedge u x hu)⟩
  | cons a l ih =>
    rw [List.append_cons]
    exact ih h.2.2

theorem Forward.ready {y : α} (h : Forward E (done++y::ys)) (hnodup : (done++y::ys).Nodup) (hy : y ∈ nodes) :
    Ready E nodes done y := by
  have hfresh : y ∉ done := fun hin => (List.nodup_append.1 hnodup).2.2 y hin y List.mem_cons_self rfl
  refine ⟨hy,hfresh,fun u hu => ?_⟩
  by_contra hlate
  have hlt := h u y hu
  rw [List.idxOf_append_of_notMem hfresh,List.idxOf_append_of_notMem hlate,List.idxOf_cons_self] at hlt
  omega

/-- No order in which every edge points forward comes before the greedy one. -/
theorem Greedy.le (h : Greedy E nodes done xs) (hforward : Forward E (done++ys)) (hperm : (done++ys).Perm nodes)
    (hnodes : nodes.Nodup) : xs ≤ ys := by
  induction xs generalizing done ys with
  | nil => exact (List.lex_nil_or_eq_nil ys).elim (fun hlt => le_of_lt hlt) fun heq => heq ▸ le_rfl
  | cons x xs ih =>
    obtain ⟨hx,hleast,hrest⟩ := h
    have hxy : x ∈ ys := (List.mem_append.1 (hperm.mem_iff.2 hx.1)).resolve_left hx.2.1
    cases ys with
    | nil => cases hxy
    | cons y ys =>
      have hy : y ∈ nodes := hperm.mem_iff.1 (List.mem_append_right done List.mem_cons_self)
      rcases (hleast y (hforward.ready (hperm.nodup_iff.2 hnodes) hy)).lt_or_eq with hlt | rfl
      · exact le_of_lt (List.Lex.rel hlt)
      · rw [List.append_cons] at hforward hperm
        exact List.cons_le_cons x (ih hrest hforward hperm)

end GreedyOrder

import Mathlib.Data.List.Sort

/-! Best-first enumeration of a tree. The states that wait are kept in order; the least one is taken and its
children join them. -/
namespace BestFirst
variable {σ : Type} [LinearOrder σ] {children : σ → List σ}

def push (states heap : List σ) : List σ := states.foldl (fun h s => h.orderedInsert (· ≤ ·) s) heap

theorem push_perm (states heap : List σ) : (push states heap).Perm (states++heap) := by
  induction states generalizing heap with
  | nil => exact .refl _
  | cons s states ih =>
    refine (ih _).trans ?_
    exact ((List.perm_orderedInsert (· ≤ ·) s heap).append_left states).trans List.perm_middle

theorem pairwise_push {heap : List σ} (h : heap.Pairwise (· ≤ ·)) (states : List σ) :
    (push states heap).Pairwise (· ≤ ·) := by
  induction states generalizing heap with
  | nil => exact h
  | cons s states ih => exact ih (h.orderedInsert s heap)

/-- The states in the order in which they are taken. -/
def drain (children : σ → List σ) : ℕ → List σ → List σ
  | 0,_ => []
  | _+1,[] => []
  | n+1,s::heap => s::drain children n (push (children s) heap)

/-- A state and those below it, down to so many levels. -/
def below (children : σ → List σ) : ℕ → σ → List σ
  | 0,s => [s]
  | k+1,s => s::(children s).flatMap (below children k)

section levels
variable {rank : σ → ℕ} (hrank : ∀ s,∀ t ∈ children s,rank t+1 = rank s)
include hrank

omit [LinearOrder σ] in
theorem below_rank (s : σ) : below children (rank s) s = s::(children s).flatMap fun t => below children (rank t) t := by
  cases hs : rank s with
  | zero =>
    have hnone : children s = [] := by
      refine List.eq_nil_iff_forall_not_mem.2 fun t ht => ?_
      have := hrank s t ht
      omega
    simp [below,hnone]
  | succ k =>
    rw [below]
    refine congrArg _ (List.flatMap_congr fun t ht => ?_)
    rw [show rank t = k by have := hrank s t ht; omega]

/-- Every state below the first ones is taken once. -/
theorem drain_perm {n : ℕ} {heap : List σ} (hn : (heap.flatMap fun s => below children (rank s) s).length ≤ n) :
    (drain children n heap).Perm (heap.flatMap fun s => below children (rank s) s) := by
  induction n generalizing heap with
  | zero => rw [List.length_eq_zero_iff.1 (Nat.le_zero.1 hn)]; exact .refl _
  | succ n ih =>
    cases heap with
    | nil => exact .refl _
    | cons s heap =>
      have hperm : ((push (children s) heap).flatMap fun s => below children (rank s) s).Perm
          (((children s).flatMap fun t => below children (rank t) t)++heap.flatMap fun s => below children (rank s) s) := by
        rw [← List.flatMap_append]
        exact (push_perm _ _).flatMap_right _
      rw [List.flatMap_cons,below_rank hrank,List.cons_append] at hn ⊢
      rw [drain]
      refine List.Perm.cons s ((ih ?_).trans hperm)
      rw [hperm.length_eq]
      simpa using hn

/-- Where children cost no less than their parent, the states are taken by increasing cost. -/
theorem drain_sorted {cost : σ → ℕ} (hcost : ∀ s t,s ≤ t → cost s ≤ cost t) (hup : ∀ s,∀ t ∈ children s,cost s ≤ cost t)
    {n : ℕ} {heap : List σ} (hheap : heap.Pairwise (· ≤ ·))
    (hn : (heap.flatMap fun s => below children (rank s) s).length ≤ n) :
    (drain children n heap).Pairwise fun s t => cost s ≤ cost t := by
  have hbelow : ∀ k s,∀ t ∈ below children k s,cost s ≤ cost t := fun k => by
    induction k with
    | zero => simp [below]
    | succ k ih =>
      intro s t ht
      rw [below,List.mem_cons,List.mem_flatMap] at ht
      rcases ht with rfl | ⟨u,hu,ht⟩
      · exact le_rfl
      · exact (hup s u hu).trans (ih u t ht)
  induction n generalizing heap with
  | zero => exact .nil
  | succ n ih =>
    cases heap with
    | nil => exact .nil
    | cons s heap =>
      have hlength : ((push (children s) heap).flatMap fun s => below children (rank s) s).length ≤ n := by
        rw [List.flatMap_cons,below_rank hrank] at hn
        rw [((push_perm (children s) heap).flatMap_right _).length_eq,List.flatMap_append]
        simpa using hn
      refine List.pairwise_cons.2 ⟨fun t ht => ?_,ih (pairwise_push (List.pairwise_cons.1 hheap).2 _) hlength⟩
      obtain ⟨u,hu,htu⟩ := List.mem_flatMap.1 ((drain_perm hrank hlength).subset ht)
      refine le_trans ?_ (hbelow _ u t htu)
      rcases List.mem_append.1 ((push_perm _ _).subset hu) with hchild | hwait
      · exact hup s u hchild
      · exact hcost s u ((List.pairwise_cons.1 hheap).1 u hwait)

end levels

end BestFirst

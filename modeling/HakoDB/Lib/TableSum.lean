import HakoDB.Lib.HashMap
import Mathlib.Algebra.BigOperators.Group.Finset.Basic
import Mathlib.Algebra.BigOperators.Ring.Finset

/-! Sums over the values of a hash table, and how they move when one entry changes. -/
namespace HashMap
variable {K V : Type} [DecidableEq K]

/-- What a missing entry adds is nothing. -/
def weight (f : V → ℕ) (v : Option V) : ℕ := (v.map f).getD 0

@[simp] theorem weight_none (f : V → ℕ) : weight f none = 0 := rfl
@[simp] theorem weight_some (f : V → ℕ) (v : V) : weight f (some v) = f v := rfl

def tableSum (f : V → ℕ) (m : HMap K V) : ℕ := ∑ k ∈ m.keys,weight f (m.lookup k)

@[simp] theorem tableSum_empty (f : V → ℕ) : tableSum f (∅ : HMap K V) = 0 := by
  simp [tableSum]

/-- Keys that the table does not have add nothing. -/
theorem tableSum_eq_of_subset (f : V → ℕ) (m : HMap K V) {keys : Finset K} (h : m.keys ⊆ keys) :
    tableSum f m = ∑ k ∈ keys,weight f (m.lookup k) := by
  refine Finset.sum_subset h fun k _ hk => ?_
  have hnone : m.lookup k = none := by
    rw [Finmap.lookup_eq_none]
    exact fun hmem => hk (Finmap.mem_keys.2 hmem)
  simp [hnone]

theorem tableSum_congr {f : V → ℕ} {m m' : HMap K V}
    (h : ∀ k,weight f (m'.lookup k) = weight f (m.lookup k)) : tableSum f m' = tableSum f m := by
  have hleft : m'.keys ⊆ m'.keys ∪ m.keys := Finset.subset_union_left
  have hright : m.keys ⊆ m'.keys ∪ m.keys := Finset.subset_union_right
  rw [tableSum_eq_of_subset f m' hleft,tableSum_eq_of_subset f m hright]
  exact Finset.sum_congr rfl fun k _ => h k

/-- Tables that differ at one key. -/
theorem tableSum_update (f : V → ℕ) {m m' : HMap K V} {a : K} (h : ∀ k,k ≠ a → m'.lookup k = m.lookup k) :
    tableSum f m'+weight f (m.lookup a) = tableSum f m+weight f (m'.lookup a) := by
  have hmem : a ∈ insert a (m'.keys ∪ m.keys) := Finset.mem_insert_self _ _
  have hleft : m'.keys ⊆ insert a (m'.keys ∪ m.keys) := Finset.subset_union_left.trans (Finset.subset_insert _ _)
  have hright : m.keys ⊆ insert a (m'.keys ∪ m.keys) := Finset.subset_union_right.trans (Finset.subset_insert _ _)
  rw [tableSum_eq_of_subset f m' hleft,tableSum_eq_of_subset f m hright,
    ← Finset.add_sum_erase _ (fun k => weight f (m'.lookup k)) hmem,
    ← Finset.add_sum_erase _ (fun k => weight f (m.lookup k)) hmem]
  have hrest : ∑ k ∈ (insert a (m'.keys ∪ m.keys)).erase a,weight f (m'.lookup k) =
      ∑ k ∈ (insert a (m'.keys ∪ m.keys)).erase a,weight f (m.lookup k) := by
    refine Finset.sum_congr rfl fun k hk => ?_
    rw [h k (Finset.ne_of_mem_erase hk)]
  simp only [hrest]
  omega

theorem weight_le_tableSum (f : V → ℕ) (m : HMap K V) (a : K) : weight f (m.lookup a) ≤ tableSum f m := by
  have hother : ∀ k,k ≠ a → (m.erase a).lookup k = m.lookup k := fun k hk => by simp [hk]
  have hsum := tableSum_update f hother
  simp only [lookup_erase_ite,if_true,weight_none] at hsum
  omega

/-- A list of the keys with a property is as long as the table has entries with it. -/
theorem length_eq_tableSum {m : HMap K V} {live : V → Bool} {keys : List K} (hnd : keys.Nodup)
    (hmem : ∀ k,k ∈ keys ↔ (m.lookup k).any live = true) :
    keys.length = tableSum (fun v => (live v).toNat) m := by
  have hkeys : keys.toFinset = m.keys.filter fun k => (m.lookup k).any live = true := by
    ext k
    rw [List.mem_toFinset,Finset.mem_filter,hmem,Finmap.mem_keys]
    refine ⟨fun h => ⟨?_,h⟩,fun h => h.2⟩
    rw [← Finmap.lookup_isSome]
    cases hk : m.lookup k with
    | none => simp [hk] at h
    | some v => rfl
  rw [← List.toFinset_card_of_nodup hnd,hkeys,Finset.card_filter,tableSum]
  refine Finset.sum_congr rfl fun k _ => ?_
  cases m.lookup k with
  | none => rfl
  | some v => cases hv : live v <;> simp [hv]

end HashMap

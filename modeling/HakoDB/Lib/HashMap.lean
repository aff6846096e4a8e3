import Mathlib.Data.Finmap
import Mathlib.Data.List.Sort

/-! Hash tables as finite maps. A table is read and written by key; a loop over
its entries sees them in an order the table does not fix, so such a loop takes
the order as an argument. -/
namespace HashMap

abbrev HMap (K V : Type) := Finmap (fun _ : K => V)

variable {K V : Type} [DecidableEq K]

@[simp] theorem lookup_insert_ite (m : HMap K V) (a k : K) (v : V) :
    (m.insert a v).lookup k = if k = a then some v else m.lookup k := by
  by_cases h : k = a
  · subst h
    simp
  · simp [h,Finmap.lookup_insert_of_ne]

@[simp] theorem lookup_erase_ite (m : HMap K V) (a k : K) :
    (m.erase a).lookup k = if k = a then none else m.lookup k := by
  by_cases h : k = a
  · subst h
    simp
  · simp [h,Finmap.lookup_erase_ne]

/-- The value a list of keyed writes leaves under a key. -/
def lastValue (k : K) : List (K × V) → Option V
  | [] => none
  | (a,v)::rest => (lastValue k rest).or (if k = a then some v else none)

@[simp] theorem lastValue_nil (k : K) : lastValue k ([] : List (K × V)) = none := rfl

theorem lastValue_append (k : K) (xs ys : List (K × V)) :
    lastValue k (xs ++ ys) = (lastValue k ys).or (lastValue k xs) := by
  induction xs with
  | nil => simp
  | cons x xs ih => simp [lastValue,ih,Option.or_assoc]

variable {k : K} {xs : List (K × V)} {v : V}

theorem lastValue_eq_none :
    lastValue k xs = none ↔ ∀ x ∈ xs, x.1 ≠ k := by
  induction xs with
  | nil => simp
  | cons x xs ih =>
    simp only [lastValue,Option.or_eq_none_iff,ih,ite_eq_right_iff,List.forall_mem_cons]
    grind

theorem mem_of_lastValue (h : lastValue k xs = some v) : (k,v) ∈ xs := by
  induction xs with
  | nil => cases h
  | cons x xs ih =>
    obtain ⟨a,w⟩ := x
    simp only [lastValue] at h
    cases hl : lastValue k xs with
    | some q =>
      rw [hl] at h
      exact List.mem_cons_of_mem _ (ih (hl.trans (by simpa using h)))
    | none =>
      rw [hl] at h
      by_cases hk : k = a
      · simp only [hk,if_true,Option.none_or,Option.some.injEq] at h
        simp [hk,h]
      · simp [hk] at h

theorem lastValue_map {E : Type} (key : E → K) (f : E → V) (k : K) (es : List E) :
    lastValue k (es.map fun e => (key e,f e)) = (es.filter fun e => key e = k).getLast?.map f := by
  induction es using List.reverseRecOn with
  | nil => rfl
  | append_singleton es e ih =>
    rw [List.map_append,lastValue_append,ih,List.filter_append,List.getLast?_append]
    by_cases h : key e = k
    · simp [lastValue,h]
    · simp [lastValue,h,Ne.symm h]

/-- Writes made one after another. -/
def insertAll (m : HMap K V) (writes : List (K × V)) : HMap K V :=
  writes.foldl (fun m w => m.insert w.1 w.2) m

theorem lookup_insertAll (m : HMap K V) (writes : List (K × V)) (k : K) :
    (insertAll m writes).lookup k = (lastValue k writes).or (m.lookup k) := by
  induction writes generalizing m with
  | nil => rfl
  | cons w writes ih =>
    have step : insertAll m (w::writes) = insertAll (m.insert w.1 w.2) writes := rfl
    rw [step,ih]
    by_cases h : k = w.1 <;> simp [lastValue,h]

/-- Removals made one after another. -/
def eraseAll (m : HMap K V) (keys : List K) : HMap K V := keys.foldl (fun m k => m.erase k) m

theorem lookup_eraseAll (m : HMap K V) (keys : List K) (k : K) :
    (eraseAll m keys).lookup k = if k ∈ keys then none else m.lookup k := by
  induction keys generalizing m with
  | nil => simp [eraseAll]
  | cons a keys ih =>
    have step : eraseAll m (a::keys) = eraseAll (m.erase a) keys := rfl
    rw [step,ih,lookup_erase_ite]
    by_cases hk : k ∈ keys <;> by_cases ha : k = a <;> simp [hk,ha]

/-- An order in which a loop may meet the entries of a table. -/
structure HashOrder (K V : Type) [DecidableEq K] where
  entries : HMap K V → List (K × V)
  nodup : ∀ m, ((entries m).map Prod.fst).Nodup
  mem_entries : ∀ m k v, (k,v) ∈ entries m ↔ m.lookup k = some v

/-- Among writes to distinct keys every one is the last to its key. -/
theorem lastValue_of_nodup (hd : (xs.map Prod.fst).Nodup) :
    lastValue k xs = some v ↔ (k,v) ∈ xs := by
  induction xs with
  | nil => simp
  | cons x xs ih =>
    obtain ⟨a,w⟩ := x
    simp only [List.map_cons,List.nodup_cons] at hd
    have hrest := ih hd.2
    by_cases h : k = a
    · subst h
      have habsent : lastValue k xs = none := by
        rw [lastValue_eq_none]
        intro x hx hk
        exact hd.1 (hk ▸ List.mem_map_of_mem hx)
      have hmem : (k,v) ∉ xs := fun hx => hd.1 (List.mem_map_of_mem (f := Prod.fst) hx)
      simp [lastValue,habsent,hmem,eq_comm]
    · simp [lastValue,h,hrest]

theorem HashOrder.lastValue_entries (order : HashOrder K V) (m : HMap K V) (k : K) :
    lastValue k (order.entries m) = m.lookup k := by
  apply Option.ext
  intro v
  rw [lastValue_of_nodup (order.nodup m),order.mem_entries]

/-- The keys of a table in increasing order. -/
def sortedKeys {K V : Type} [LinearOrder K] (m : HMap K V) : List K :=
  Quot.liftOn m.keys.val (List.insertionSort (· ≤ ·)) fun xs ys (h : xs.Perm ys) =>
    (((List.perm_insertionSort _ xs).trans h).trans (List.perm_insertionSort _ ys).symm).eq_of_pairwise'
      (List.pairwise_insertionSort _ xs) (List.pairwise_insertionSort _ ys)

section sorted
variable {K V : Type} [LinearOrder K] (m : HMap K V)

theorem coe_sortedKeys : (sortedKeys m : Multiset K) = m.keys.val := by
  unfold sortedKeys
  induction h : m.keys.val using Quot.inductionOn with
  | h xs => exact Quot.sound (List.perm_insertionSort _ xs)

theorem nodup_sortedKeys : (sortedKeys m).Nodup := by
  rw [← Multiset.coe_nodup,coe_sortedKeys]
  exact m.keys.nodup

theorem mem_sortedKeys (k : K) : k ∈ sortedKeys m ↔ (m.lookup k).isSome := by
  rw [← Multiset.mem_coe,coe_sortedKeys,Finset.mem_val,Finmap.mem_keys,Finmap.lookup_isSome]

theorem pairwise_sortedKeys : (sortedKeys m).Pairwise (· < ·) := by
  have hle : (sortedKeys m).Pairwise (· ≤ ·) := by
    unfold sortedKeys
    induction h : m.keys.val using Quot.inductionOn with
    | h xs => exact List.pairwise_insertionSort _ xs
  exact (hle.and (nodup_sortedKeys m)).imp fun h => lt_of_le_of_ne h.1 h.2

/-- The loop that meets the entries by increasing key. -/
def HashOrder.byKey : HashOrder K V where
  entries m := (sortedKeys m).filterMap fun k => (m.lookup k).map fun v => (k,v)
  nodup m := by
    have hmap : ((sortedKeys m).filterMap fun k => (m.lookup k).map fun v => (k,v)).map Prod.fst =
        (sortedKeys m).filter fun k => (m.lookup k).isSome := by
      induction sortedKeys m with
      | nil => rfl
      | cons k ks ih => cases h : m.lookup k <;> simp [h,ih]
    rw [hmap]
    exact (nodup_sortedKeys m).filter _
  mem_entries m k v := by
    simp only [List.mem_filterMap,mem_sortedKeys,Option.map_eq_some_iff,Prod.mk.injEq]
    constructor
    · rintro ⟨a,-,w,hw,rfl,rfl⟩
      exact hw
    · intro h
      exact ⟨k,by simp [h],v,h,rfl,rfl⟩

end sorted

end HashMap

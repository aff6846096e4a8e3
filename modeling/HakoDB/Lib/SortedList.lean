import HakoDB.Lib.BinarySearch

/-! Strictly increasing lists as sets: a key is put in or taken out where a binary search finds its
place, and a sorted batch of keys is resolved in one pass. -/
namespace SortedList

variable {α : Type} [LinearOrder α]

def search (xs : List α) (k : α) : Except ℕ ℕ := BinarySearch.search (fun x => compare x k) xs

def insert (xs : List α) (k : α) : List α :=
  match search xs k with
  | .ok _ => xs
  | .error pos => xs.insertIdx pos k

def remove (xs : List α) (k : α) : List α :=
  match search xs k with
  | .ok pos => xs.eraseIdx pos
  | .error _ => xs

/-- One pass over `old` with the batch beside it: a key of the batch stays or comes in if it passes
the test, the other keys of `old` stay. -/
def merge (test : α → Bool) : List α → List α → List α
  | batch,[] => batch.filter test
  | batch,k::old =>
    let before := (batch.takeWhile (· < k)).filter test
    match batch.dropWhile (· < k) with
    | [] => before++k::merge test [] old
    | p::rest =>
      if p = k then before++(if test k then [k] else [])++merge test rest old
      else before++k::merge test (p::rest) old

variable {xs : List α} {k : α} {i : ℕ} {a : α} {batch old ys : List α}

theorem ordered_compare (hs : xs.Pairwise (· < ·)) (k : α) :
    BinarySearch.Ordered (fun x => compare x k) xs := by
  refine hs.imp fun {a b} hab => ⟨?_,?_⟩
  · simp only [compare_lt_iff_lt]
    exact hab.trans
  · simp only [compare_gt_iff_gt]
    exact fun h => lt_trans h hab

theorem search_ok (hs : xs.Pairwise (· < ·)) (h : search xs k = .ok i) :
    xs[i]? = some k := by
  have hspec := BinarySearch.search_spec (ordered_compare hs k)
  rw [search] at h
  rw [h] at hspec
  obtain ⟨a,ha,heq⟩ := hspec
  rwa [compare_eq_iff_eq.mp heq] at ha

theorem search_error (hs : xs.Pairwise (· < ·)) (h : search xs k = .error i) :
    i ≤ xs.length ∧ (∀ a ∈ xs.take i, a < k) ∧ ∀ a ∈ xs.drop i, k < a := by
  have hspec := BinarySearch.search_spec (ordered_compare hs k)
  rw [search] at h
  rw [h] at hspec
  simpa only [compare_lt_iff_lt,compare_gt_iff_gt] using hspec

theorem search_eq_ok (hs : xs.Pairwise (· < ·)) (h : xs[i]? = some k) : search xs k = .ok i := by
  have hmem := List.mem_of_getElem? h
  cases hsearch : search xs k with
  | ok j =>
    have hj := search_ok hs hsearch
    have hnodup : xs.Nodup := hs.imp fun hab => hab.ne
    exact congrArg Except.ok ((List.getElem?_inj (List.getElem?_eq_some_iff.1 hj).1 hnodup).1 (hj.trans h.symm))
  | error j =>
    obtain ⟨-,hbefore,hafter⟩ := search_error hs hsearch
    rw [← List.take_append_drop j xs,List.mem_append] at hmem
    rcases hmem with hmem | hmem
    · exact absurd (hbefore k hmem) (lt_irrefl k)
    · exact absurd (hafter k hmem) (lt_irrefl k)

theorem search_isOk (hs : xs.Pairwise (· < ·)) (k : α) :
    (search xs k).isOk = true ↔ k ∈ xs := by
  cases h : search xs k with
  | ok i => exact ⟨fun _ => List.mem_of_getElem? (search_ok hs h),fun _ => rfl⟩
  | error i =>
    obtain ⟨-,hlt,hgt⟩ := search_error hs h
    refine ⟨fun hok => (nomatch hok),fun hk => ?_⟩
    rw [← List.take_append_drop i xs,List.mem_append] at hk
    rcases hk with hk | hk
    · exact absurd (hlt k hk) (lt_irrefl k)
    · exact absurd (hgt k hk) (lt_irrefl k)

omit [LinearOrder α] in
theorem insertIdx_eq_append (xs : List α) (k : α) (hi : i ≤ xs.length) :
    xs.insertIdx i k = xs.take i++k::xs.drop i := by
  induction xs generalizing i with
  | nil => simp_all
  | cons x xs ih =>
    cases i with
    | zero => simp
    | succ i => simp [List.insertIdx_succ_cons,ih (Nat.le_of_succ_le_succ hi)]

theorem mem_insert (hs : xs.Pairwise (· < ·)) (k a : α) :
    a ∈ insert xs k ↔ a = k ∨ a ∈ xs := by
  unfold insert
  cases h : search xs k with
  | ok i =>
    have hk := List.mem_of_getElem? (search_ok hs h)
    simp only [iff_or_self]
    rintro rfl
    exact hk
  | error i => exact List.mem_insertIdx (search_error hs h).1

theorem pairwise_insert (hs : xs.Pairwise (· < ·)) (k : α) :
    (insert xs k).Pairwise (· < ·) := by
  unfold insert
  cases h : search xs k with
  | ok i => exact hs
  | error i =>
    obtain ⟨hi,hlt,hgt⟩ := search_error hs h
    simp only [insertIdx_eq_append xs k hi,List.pairwise_append]
    refine ⟨hs.take,List.pairwise_cons.mpr ⟨hgt,hs.drop⟩,?_⟩
    intro a ha b hb
    rcases List.mem_cons.mp hb with rfl | hb
    · exact hlt a ha
    · exact (hlt a ha).trans (hgt b hb)

theorem pairwise_remove (hs : xs.Pairwise (· < ·)) (k : α) :
    (remove xs k).Pairwise (· < ·) := by
  unfold remove
  split
  · exact hs.sublist (List.eraseIdx_sublist _ _)
  · exact hs

theorem mem_remove (hs : xs.Pairwise (· < ·)) (k a : α) :
    a ∈ remove xs k ↔ a ≠ k ∧ a ∈ xs := by
  have hok := search_isOk hs k
  unfold remove
  cases h : search xs k with
  | ok i =>
    have hnd : xs.Nodup := hs.imp ne_of_lt
    obtain ⟨hi,hk⟩ := List.getElem?_eq_some_iff.mp (search_ok hs h)
    have herase : xs.eraseIdx i = xs.erase k := by
      rw [← hk,hnd.erase_getElem]
    simp only [herase,hnd.mem_erase_iff]
  | error i =>
    have hk : k ∉ xs := by
      rw [← hok,h]
      exact fun hx => nomatch hx
    simp only [iff_and_self]
    rintro ha rfl
    exact hk ha

/-- A sorted list splits at a bound into the part below it and the rest. -/
theorem lt_of_mem_takeWhile (h : a ∈ xs.takeWhile (· < k)) : a < k := by
  simpa using List.mem_takeWhile_imp h

theorem le_of_mem_dropWhile (hs : xs.Pairwise (· < ·)) (h : a ∈ xs.dropWhile (· < k)) : k ≤ a := by
  induction xs with
  | nil => cases h
  | cons x xs ih =>
    obtain ⟨hx,hxs⟩ := List.pairwise_cons.mp hs
    by_cases hlt : x < k
    · rw [List.dropWhile_cons_of_pos (by simpa using hlt)] at h
      exact ih hxs h
    · rw [List.dropWhile_cons_of_neg (by simpa using hlt)] at h
      rcases List.mem_cons.mp h with rfl | h
      · exact not_lt.mp hlt
      · exact (not_lt.mp hlt).trans (hx a h).le

theorem mem_merge (test : α → Bool) (hb : batch.Pairwise (· < ·)) (ho : old.Pairwise (· < ·)) (a : α) :
    a ∈ merge test batch old ↔ (a ∈ batch ∧ test a) ∨ (a ∉ batch ∧ a ∈ old) := by
  induction old generalizing batch with
  | nil => simp [merge]
  | cons k old ih =>
    obtain ⟨hk,hold⟩ := List.pairwise_cons.mp ho
    clear ho
    have hsplit : ∀ x, x ∈ batch ↔ x ∈ batch.takeWhile (· < k) ∨ x ∈ batch.dropWhile (· < k) := by
      intro x
      rw [← List.mem_append,List.takeWhile_append_dropWhile]
    have hlow : ∀ x ∈ batch.takeWhile (· < k), x < k := fun x => lt_of_mem_takeWhile
    have hhigh : ∀ x ∈ batch.dropWhile (· < k), k ≤ x := fun x => le_of_mem_dropWhile hb
    have hd : (batch.dropWhile (· < k)).Pairwise (· < ·) := hb.sublist (List.dropWhile_sublist _)
    rw [merge]
    split
    · rename_i hnil
      simp only [hnil,List.not_mem_nil,or_false] at hsplit
      simp only [List.mem_append,List.mem_filter,List.mem_cons,ih .nil hold]
      grind
    · rename_i p rest hcons
      rw [hcons] at hsplit hhigh hd
      have hrest := List.pairwise_cons.mp hd
      split
      · rename_i hpk
        subst hpk
        simp only [List.mem_append,List.mem_filter,ih hrest.2 hold,List.mem_ite_nil_right,List.mem_singleton]
        grind
      · simp only [List.mem_append,List.mem_filter,List.mem_cons,ih hd hold]
        grind

/-- Lists below and above a bound, with the bound between them or without it. -/
theorem pairwise_around {mid : List α} (hx : xs.Pairwise (· < ·)) (hy : ys.Pairwise (· < ·))
    (hmid : mid = [k] ∨ mid = []) (hlow : ∀ x ∈ xs, x < k) (hhigh : ∀ y ∈ ys, k < y) :
    (xs++mid++ys).Pairwise (· < ·) := by
  have hcross : ∀ x ∈ xs, ∀ y ∈ ys, x < y := fun x hx y hy => (hlow x hx).trans (hhigh y hy)
  rcases hmid with rfl | rfl
  · simp only [List.append_assoc,List.singleton_append,List.pairwise_append,List.pairwise_cons]
    refine ⟨hx,⟨hhigh,hy⟩,?_⟩
    intro x hx y hy
    rcases List.mem_cons.mp hy with rfl | hy
    · exact hlow x hx
    · exact hcross x hx y hy
  · simpa only [List.append_nil] using List.pairwise_append.mpr ⟨hx,hy,hcross⟩

theorem pairwise_merge (test : α → Bool) (hb : batch.Pairwise (· < ·)) (ho : old.Pairwise (· < ·)) :
    (merge test batch old).Pairwise (· < ·) := by
  induction old generalizing batch with
  | nil => exact hb.filter _
  | cons k old ih =>
    obtain ⟨hk,hold⟩ := List.pairwise_cons.mp ho
    have hlow : ∀ x ∈ (batch.takeWhile (· < k)).filter test, x < k :=
      fun x hx => lt_of_mem_takeWhile (List.mem_filter.mp hx).1
    have hhigh : ∀ x ∈ batch.dropWhile (· < k), k ≤ x := fun x => le_of_mem_dropWhile hb
    have hbefore : ((batch.takeWhile (· < k)).filter test).Pairwise (· < ·) :=
      (hb.sublist (List.takeWhile_sublist _)).filter _
    have hd : (batch.dropWhile (· < k)).Pairwise (· < ·) := hb.sublist (List.dropWhile_sublist _)
    have habove : ∀ rest : List α, rest.Pairwise (· < ·) → (∀ x ∈ rest, k < x) →
        ∀ y ∈ merge test rest old, k < y := by
      intro rest hrest hgt y hy
      rcases (mem_merge test hrest hold y).mp hy with hy | hy
      · exact hgt y hy.1
      · exact hk y hy.2
    rw [merge]
    split
    · rw [List.append_cons]
      exact pairwise_around hbefore (ih .nil hold) (.inl rfl) hlow (habove [] .nil (by simp))
    · rename_i p rest hcons
      rw [hcons] at hhigh hd
      obtain ⟨hp,hrest⟩ := List.pairwise_cons.mp hd
      have hkp := hhigh p List.mem_cons_self
      split
      · rename_i hpk
        refine pairwise_around hbefore (ih hrest hold) (k := k) ?_ hlow (habove rest hrest ?_)
        · split <;> simp
        · exact fun x hx => hpk ▸ hp x hx
      · rename_i hpk
        rw [List.append_cons]
        refine pairwise_around hbefore (ih hd hold) (.inl rfl) hlow (habove (p::rest) hd ?_)
        have hlt : k < p := lt_of_le_of_ne hkp (Ne.symm hpk)
        intro x hx
        rcases List.mem_cons.mp hx with rfl | hx
        · exact hlt
        · exact hlt.trans (hp x hx)

theorem lt_of_getLast_lt_head (hx : xs.Pairwise (· < ·)) (hy : ys.Pairwise (· < ·)) {last first : α}
    (hlast : xs.getLast? = some last) (hfirst : ys.head? = some first) (h : last < first) {b : α} (ha : a ∈ xs)
    (hb : b ∈ ys) : a < b := by
  obtain ⟨front,rfl⟩ := List.getLast?_eq_some_iff.mp hlast
  obtain ⟨rest,rfl⟩ := List.head?_eq_some_iff.mp hfirst
  have hale : a ≤ last := by
    rcases List.mem_append.mp ha with ha | ha
    · exact ((List.pairwise_append.mp hx).2.2 a ha last (by simp)).le
    · exact (List.mem_singleton.mp ha).le
  have hble : first ≤ b := by
    rcases List.mem_cons.mp hb with rfl | hb
    · exact le_rfl
    · exact ((List.pairwise_cons.mp hy).1 b hb).le
  exact (hale.trans_lt h).trans_le hble

end SortedList

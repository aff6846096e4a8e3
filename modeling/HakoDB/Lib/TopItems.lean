import HakoDB.Lib.ThreeWay
import Mathlib.Data.List.Sort

/-! The first items of a sorted sequence. A heap of bounded size, whose worst item makes way for a better one, holds in the
end what a sort puts first. -/
namespace TopItems
open ThreeWay

variable {α : Type} {cmp cmp' : α → α → Ordering}

/-- The comparison is an order on the items. -/
structure Ordered (cmp : α → α → Ordering) (xs : List α) : Prop where
  swap : ∀ a ∈ xs,∀ b ∈ xs,cmp b a = (cmp a b).swap
  fits : ∀ a ∈ xs,∀ b ∈ xs,∀ c ∈ xs,Fits (cmp a b) (cmp b c) (cmp a c)

/-- A sort that leaves items in their order where they compare equal. -/
def sortBy (cmp : α → α → Ordering) (xs : List α) : List α := xs.insertionSort fun a b => cmp a b ≠ .gt

theorem perm_sortBy (cmp : α → α → Ordering) (xs : List α) : (sortBy cmp xs).Perm xs := List.perm_insertionSort _ xs

section sort
variable {xs ys : List α}

theorem Ordered.mono (h : Ordered cmp xs) (hsub : ys ⊆ xs) : Ordered cmp ys :=
  ⟨fun a ha b hb => h.swap a (hsub ha) b (hsub hb),fun a ha b hb c hc => h.fits a (hsub ha) b (hsub hb) c (hsub hc)⟩

theorem Ordered.le_refl (h : Ordered cmp xs) {a : α} (ha : a ∈ xs) : cmp a a ≠ .gt := by
  have hswap := h.swap a ha a ha
  cases hcmp : cmp a a <;> simp_all

theorem Ordered.eq_of_le_of_le (h : Ordered cmp xs) {a b : α} (ha : a ∈ xs) (hb : b ∈ xs) (hab : cmp a b ≠ .gt)
    (hba : cmp b a ≠ .gt) : cmp a b = .eq := by
  have hswap := h.swap a ha b hb
  cases hcmp : cmp a b <;> simp_all

theorem Ordered.pairwise_sortBy (h : Ordered cmp xs) : (sortBy cmp xs).Pairwise fun a b => cmp a b ≠ .gt := by
  let r (a b : {a // a ∈ xs}) : Prop := cmp a.1 b.1 ≠ .gt
  have total : Std.Total r := ⟨fun a b => by
    have hswap := h.swap a.1 a.2 b.1 b.2
    cases hcmp : cmp a.1 b.1 <;> simp_all [r]⟩
  have trans : IsTrans _ r := ⟨fun a b c => (h.fits a.1 a.2 b.1 b.2 c.1 c.2).le_trans⟩
  have hsort : sortBy cmp xs = (xs.attach.insertionSort r).map Subtype.val := by
    rw [List.map_insertionSort r (fun a b => cmp a b ≠ .gt) _ _ fun a _ b _ => Iff.rfl,List.attach_map_subtype_val]
    rfl
  rw [hsort,List.pairwise_map]
  exact List.pairwise_insertionSort r _

theorem sortBy_congr (h : xs.Pairwise fun a b => cmp a b ≠ .gt ↔ cmp' a b ≠ .gt) : sortBy cmp xs = sortBy cmp' xs := by
  have insert : ∀ (a : α) (ys : List α),(∀ b ∈ ys,cmp a b ≠ .gt ↔ cmp' a b ≠ .gt) →
      ys.orderedInsert (fun a b => cmp a b ≠ .gt) a = ys.orderedInsert (fun a b => cmp' a b ≠ .gt) a := by
    intro a ys hys
    induction ys with
    | nil => rfl
    | cons b ys ih =>
      rw [List.orderedInsert,List.orderedInsert,ih fun c hc => hys c (List.mem_cons_of_mem b hc)]
      exact if_congr (hys b List.mem_cons_self) rfl rfl
  induction h with
  | nil => rfl
  | @cons a xs ha _ ih =>
    change List.orderedInsert _ a (sortBy cmp xs) = List.orderedInsert _ a (sortBy cmp' xs)
    rw [← ih]
    exact insert a _ fun b hb => ha b ((perm_sortBy cmp xs).mem_iff.1 hb)

/-- Two orders sort alike exactly if no two items change places. -/
theorem sortBy_eq_iff (h : Ordered cmp xs) (h' : Ordered cmp' xs) :
    sortBy cmp xs = sortBy cmp' xs ↔ xs.Pairwise fun a b => cmp a b ≠ .gt ↔ cmp' a b ≠ .gt := by
  refine ⟨fun heq => List.pairwise_iff_forall_sublist.2 fun {a b} hab => ⟨fun hle => ?_,fun hle => ?_⟩,sortBy_congr⟩
  · have hsub : [a,b].Sublist (sortBy cmp' xs) := heq ▸ List.pair_sublist_insertionSort hle hab
    exact List.pairwise_iff_forall_sublist.1 h'.pairwise_sortBy hsub
  · have hsub : [a,b].Sublist (sortBy cmp xs) := heq ▸ List.pair_sublist_insertionSort (r := fun a b => cmp' a b ≠ .gt) hle hab
    exact List.pairwise_iff_forall_sublist.1 h.pairwise_sortBy hsub

theorem Ordered.filter_orderedInsert {a : α} (h : Ordered cmp xs) (p : α → Bool) (ha : a ∈ xs) (hsub : ys ⊆ xs)
    (hsorted : ys.Pairwise fun a b => cmp a b ≠ .gt) : (ys.orderedInsert (fun a b => cmp a b ≠ .gt) a).filter p =
      if p a then (ys.filter p).orderedInsert (fun a b => cmp a b ≠ .gt) a else ys.filter p := by
  have hfront : ∀ ys : List α,(∀ b ∈ ys,cmp a b ≠ .gt) → ys.orderedInsert (fun a b => cmp a b ≠ .gt) a = a::ys := by
    intro ys hys
    cases ys with
    | nil => rfl
    | cons b ys => exact if_pos (hys b List.mem_cons_self)
  induction hsorted with
  | nil => by_cases hp : p a <;> simp [hp]
  | @cons b ys hb _ ih =>
    obtain ⟨hbx,hysx⟩ := List.cons_subset.1 hsub
    rw [List.orderedInsert]
    by_cases hab : cmp a b ≠ .gt
    · rw [if_pos hab,List.filter_cons]
      refine if_congr Iff.rfl (hfront _ fun c hc => ?_).symm rfl
      rcases List.mem_cons.1 (List.mem_filter.1 hc).1 with rfl | hc
      · exact hab
      · exact (h.fits a ha b hbx c (hysx hc)).le_trans hab (hb c hc)
    · rw [if_neg hab,List.filter_cons,List.filter_cons,ih hysx]
      split_ifs
      · exact (if_neg hab).symm
      all_goals rfl

/-- Sorting some of the items leaves out the others. -/
theorem Ordered.sortBy_filter (h : Ordered cmp xs) (p : α → Bool) : sortBy cmp (xs.filter p) = (sortBy cmp xs).filter p := by
  induction xs with
  | nil => rfl
  | cons a xs ih =>
    have hrest := h.mono (List.subset_cons_self a xs)
    have hsort : sortBy cmp (a::xs) = (sortBy cmp xs).orderedInsert (fun a b => cmp a b ≠ .gt) a := rfl
    have hsub : sortBy cmp xs ⊆ a::xs := fun c hc => List.mem_cons_of_mem a ((perm_sortBy cmp xs).mem_iff.1 hc)
    rw [hsort,h.filter_orderedInsert p List.mem_cons_self hsub hrest.pairwise_sortBy,← ih hrest,List.filter_cons]
    split_ifs <;> rfl

theorem take_filter_iff (p : α → Bool) (xs : List α) (n : ℕ) : (xs.filter p).take n = xs.take n ↔ ∀ x ∈ xs.take n,p x := by
  constructor
  · intro heq x hx
    rw [← heq] at hx
    exact (List.mem_filter.1 (List.mem_of_mem_take hx)).2
  · intro hall
    induction xs generalizing n with
    | nil => rfl
    | cons x xs ih =>
      cases n with
      | zero => rfl
      | succ n =>
        rw [List.take_succ_cons,List.forall_mem_cons] at hall
        rw [List.filter_cons_of_pos hall.1,List.take_succ_cons,List.take_succ_cons,ih n hall.2]

/-- A page of some of the items is the page of all exactly if it is empty or nothing up to its end is left out. -/
theorem page_filter_iff (h : xs.Nodup) (p : α → Bool) (m n : ℕ) : ((xs.filter p).drop m).take n = (xs.drop m).take n ↔
    n = 0 ∨ xs.length ≤ m ∨ ∀ x ∈ xs.take (m+n),p x := by
  rcases Nat.eq_zero_or_pos n with rfl | hn
  · simp
  rcases le_or_gt xs.length m with hm | hm
  · have hlen := (List.length_filter_le p xs).trans hm
    rw [List.drop_of_length_le hm,List.drop_of_length_le hlen]
    simp [hm]
  have hlen : (xs.take m).length = m := List.length_take_of_le hm.le
  have hsplit : xs.filter p = (xs.take m).filter p++(xs.drop m).filter p := by
    rw [← List.filter_append,List.take_append_drop]
  rw [or_iff_right hn.ne',or_iff_right hm.not_ge,List.take_add,List.forall_mem_append,← List.filter_eq_self,
    ← take_filter_iff p (xs.drop m)]
  constructor
  · intro heq
    have hfirst : (xs.take m).filter p = xs.take m := by
      by_contra hless
      have hshort : ((xs.take m).filter p).length < (xs.take m).length :=
        lt_of_le_of_ne (List.length_filter_le p _) fun he => hless (List.filter_sublist.eq_of_length he)
      -- the first item of the page would be met again behind itself
      cases hrest : xs.drop m with
      | nil =>
        rw [List.drop_eq_nil_iff] at hrest
        omega
      | cons z rest =>
        have hz : z ∈ ((xs.filter p).drop m).take n := by
          rw [heq,hrest]
          exact List.mem_take_iff_getElem.2 ⟨0,by simpa using hn,rfl⟩
        have hlate : z ∈ ((((xs.take m).filter p++[z].filter p)++rest.filter p).drop m) := by
          rw [List.append_assoc,← List.filter_append,List.singleton_append,← hrest,← hsplit]
          exact List.mem_of_mem_take hz
        have hshort' : ((xs.take m).filter p++[z].filter p).length ≤ m := by
          have := List.length_filter_le p [z]
          rw [List.length_append]
          simp only [List.length_singleton] at this
          omega
        rw [List.drop_append,List.drop_of_length_le hshort',List.nil_append] at hlate
        have hnd : (z::rest).Nodup := hrest ▸ h.sublist (List.drop_sublist m xs)
        exact (List.nodup_cons.1 hnd).1 (List.mem_filter.1 (List.mem_of_mem_drop hlate)).1
    refine ⟨hfirst,?_⟩
    rw [hsplit,hfirst,List.drop_append_of_le_length hlen.ge,List.drop_of_length_le hlen.le] at heq
    exact heq
  · rintro ⟨hfirst,hpage⟩
    rw [hsplit,hfirst,List.drop_append_of_le_length hlen.ge,List.drop_of_length_le hlen.le]
    exact hpage

end sort

/-- A heap that pushes and pops have made of the items that were pushed. -/
inductive Built (push : List α → α → List α) (pop : List α → List α) : List α → List α → Prop
  | nil : Built push pop [] []
  | push {pushed heap : List α} (x : α) (h : Built push pop pushed heap) : Built push pop (x::pushed) (push heap x)
  | pop {pushed heap : List α} (h : Built push pop pushed heap) : Built push pop pushed (pop heap)

/-- A heap as the array it is kept in. The largest item is in front if the comparison is an order on the items that ever
were in the heap. -/
structure MaxHeap (cmp : α → α → Ordering) where
  push : List α → α → List α
  pop : List α → List α
  perm_push : ∀ heap x,(push heap x).Perm (x::heap)
  perm_pop : ∀ top heap,(pop (top::heap)).Perm heap
  le_top : ∀ {pushed top heap},Built push pop pushed (top::heap) → Ordered cmp pushed → ∀ x ∈ heap,cmp x top ≠ .gt

namespace MaxHeap

/-- A new item enters a heap that is not full, or takes the place of a worse one. -/
def offer (H : MaxHeap cmp) (k : ℕ) (heap : List α) (x : α) : List α :=
  if heap.length < k then H.push heap x
  else match heap.head? with
    | some worst => if cmp x worst = .lt then H.push (H.pop heap) x else heap
    | none => heap

variable {H : MaxHeap cmp} {k : ℕ} {seen heap rest xs : List α} {x top : α}

/-- Of the items seen so far the heap has the best, and is full if it does not have all of them. -/
structure Kept (H : MaxHeap cmp) (k : ℕ) (seen heap rest : List α) : Prop where
  built : ∃ pushed,pushed ⊆ seen ∧ Built H.push H.pop pushed heap
  perm : seen.Perm (heap++rest)
  below : ∀ a ∈ heap,∀ b ∈ rest,cmp a b ≠ .gt
  size : heap.length ≤ k
  full : rest ≠ [] → heap.length = k

theorem Kept.mem (h : Kept H k seen heap rest) {a : α} (ha : a ∈ heap++rest) : a ∈ seen := h.perm.mem_iff.2 ha

theorem Kept.push (h : Kept H k seen heap rest) (hroom : heap.length < k) : Kept H k (x::seen) (H.push heap x) [] := by
  obtain ⟨pushed,hsub,hbuilt⟩ := h.built
  obtain rfl : rest = [] := by
    by_contra hrest
    exact hroom.ne (h.full hrest)
  have hpush := H.perm_push heap x
  refine ⟨⟨x::pushed,List.cons_subset_cons x hsub,hbuilt.push x⟩,?_,by simp,hpush.length_eq.trans_le hroom,by simp⟩
  rw [List.append_nil]
  exact (h.perm.cons x).trans (by simpa using hpush.symm)

theorem Kept.le_front (h : Kept H k seen (top::heap) rest) (ho : Ordered cmp seen) : ∀ a ∈ top::heap,cmp a top ≠ .gt := by
  obtain ⟨pushed,hsub,hbuilt⟩ := h.built
  intro a ha
  rcases List.mem_cons.1 ha with rfl | ha
  · exact ho.le_refl (h.mem (by simp))
  · exact H.le_top hbuilt (ho.mono hsub) a ha

theorem Kept.replace (h : Kept H k seen (top::heap) rest) (ho : Ordered cmp (x::seen)) (hx : cmp x top = .lt)
    (hk : (top::heap).length = k) : Kept H k (x::seen) (H.push (H.pop (top::heap)) x) (top::rest) := by
  obtain ⟨pushed,hsub,hbuilt⟩ := h.built
  have hle := h.le_front (ho.mono (List.subset_cons_self x seen))
  have hpush : (H.push (H.pop (top::heap)) x).Perm (x::heap) := (H.perm_push _ x).trans ((H.perm_pop top heap).cons x)
  refine ⟨⟨x::pushed,List.cons_subset_cons x hsub,hbuilt.pop.push x⟩,?_,?_,hpush.length_eq.trans_le hk.le,
    fun _ => hpush.length_eq.trans hk⟩
  · calc (x::seen).Perm (x::(top::heap++rest)) := h.perm.cons x
      _ |>.Perm (x::(heap++top::rest)) := List.perm_middle.symm.cons x
      _ |>.Perm (H.push (H.pop (top::heap)) x++top::rest) := hpush.symm.append_right _
  · have hseen : ∀ {a},a ∈ top::heap++rest → a ∈ x::seen := fun ha => List.mem_cons_of_mem x (h.mem ha)
    have hitem : ∀ a ∈ x::heap,a ∈ x::seen ∧ cmp a top ≠ .gt := by
      intro a ha
      rcases List.mem_cons.1 ha with rfl | ha
      · exact ⟨List.mem_cons_self,by simp [hx]⟩
      · exact ⟨hseen (by simp [ha]),hle a (List.mem_cons_of_mem top ha)⟩
    intro a ha b hb
    obtain ⟨hmem,hatop⟩ := hitem a (hpush.mem_iff.1 ha)
    rcases List.mem_cons.1 hb with rfl | hb
    · exact hatop
    · exact (ho.fits a hmem top (hseen (by simp)) b (hseen (by simp [hb]))).le_trans hatop
        (h.below top List.mem_cons_self b hb)

theorem Kept.pass (h : Kept H k seen (top::heap) rest) (ho : Ordered cmp (x::seen)) (hx : cmp x top ≠ .lt)
    (hk : (top::heap).length = k) : Kept H k (x::seen) (top::heap) (x::rest) := by
  obtain ⟨pushed,hsub,hbuilt⟩ := h.built
  have hle := h.le_front (ho.mono (List.subset_cons_self x seen))
  have hseen : ∀ {a},a ∈ top::heap++rest → a ∈ x::seen := fun ha => List.mem_cons_of_mem x (h.mem ha)
  have htopx : cmp top x ≠ .gt := by
    rw [ho.swap x List.mem_cons_self top (hseen (by simp))]
    cases hcmp : cmp x top <;> simp_all
  refine ⟨⟨pushed,List.subset_cons_of_subset x hsub,hbuilt⟩,(h.perm.cons x).trans List.perm_middle.symm,?_,h.size,fun _ => hk⟩
  intro a ha b hb
  rcases List.mem_cons.1 hb with rfl | hb
  · exact (ho.fits a (hseen (List.mem_append_left _ ha)) top (hseen (by simp)) b List.mem_cons_self).le_trans (hle a ha) htopx
  · exact h.below a ha b hb

theorem Kept.offer (h : Kept H k seen heap rest) (ho : Ordered cmp (x::seen)) :
    ∃ rest',Kept H k (x::seen) (H.offer k heap x) rest' := by
  unfold MaxHeap.offer
  split_ifs with hroom
  · exact ⟨[],h.push hroom⟩
  · have hk : heap.length = k := le_antisymm h.size (not_lt.1 hroom)
    cases heap with
    | nil =>
      obtain ⟨pushed,hsub,hbuilt⟩ := h.built
      exact ⟨x::rest,⟨pushed,List.subset_cons_of_subset x hsub,hbuilt⟩,h.perm.cons x,by simp,h.size,fun _ => hk⟩
    | cons top heap =>
      simp only [List.head?_cons]
      split_ifs with hx
      · exact ⟨_,h.replace ho hx hk⟩
      · exact ⟨_,h.pass ho hx hk⟩

theorem Kept.offerAll (h : Kept H k seen heap rest) (ho : Ordered cmp (xs.reverse++seen)) :
    ∃ rest',Kept H k (xs.reverse++seen) (xs.foldl (H.offer k) heap) rest' := by
  induction xs generalizing seen heap rest with
  | nil => exact ⟨rest,h⟩
  | cons x xs ih =>
    rw [List.reverse_cons,List.append_assoc,List.singleton_append] at ho ⊢
    obtain ⟨rest',h'⟩ := h.offer (ho.mono (List.subset_append_right _ _))
    exact ih h' ho

/-- What the heap holds in the end, sorted, is what a sort of everything puts first. -/
theorem sortBy_offerAll (H : MaxHeap cmp) (k : ℕ) (ho : Ordered cmp xs) (hne : ∀ a ∈ xs,∀ b ∈ xs,cmp a b = .eq → a = b) :
    sortBy cmp (xs.foldl (H.offer k) []) = (sortBy cmp xs).take k := by
  have hrev : xs.reverse ⊆ xs := fun a ha => List.mem_reverse.1 ha
  have start : Kept H k [] [] [] := ⟨⟨[],List.Subset.refl _,.nil⟩,.nil,by simp,by simp,by simp⟩
  have ho' : Ordered cmp (xs.reverse++[]) := by simpa using ho.mono hrev
  obtain ⟨rest,h⟩ := start.offerAll ho'
  rw [List.append_nil] at h
  generalize xs.foldl (H.offer k) [] = heap at h
  have hperm : xs.Perm (heap++rest) := (List.reverse_perm xs).symm.trans h.perm
  have hsort := (perm_sortBy cmp heap).append (perm_sortBy cmp rest)
  have hmem : ∀ {a},a ∈ heap++rest → a ∈ xs := fun ha => hperm.mem_iff.2 ha
  have hwhole : sortBy cmp xs = sortBy cmp heap++sortBy cmp rest := by
    refine (((perm_sortBy cmp xs).trans hperm).trans hsort.symm).eq_of_pairwise ?_ ho.pairwise_sortBy ?_
    · intro a b ha hb hab hba
      have ha' := (perm_sortBy cmp xs).mem_iff.1 ha
      have hb' := hmem (hsort.mem_iff.1 hb)
      exact hne a ha' b hb' (ho.eq_of_le_of_le ha' hb' hab hba)
    · refine List.pairwise_append.2 ⟨(ho.mono fun a ha => hmem (List.mem_append_left _ ha)).pairwise_sortBy,
        (ho.mono fun a ha => hmem (List.mem_append_right _ ha)).pairwise_sortBy,fun a ha b hb => ?_⟩
      exact h.below a ((perm_sortBy cmp heap).mem_iff.1 ha) b ((perm_sortBy cmp rest).mem_iff.1 hb)
  have hlen := (perm_sortBy cmp heap).length_eq
  rw [hwhole]
  by_cases hrest : rest = []
  · subst hrest
    have hnil : sortBy cmp [] = [] := rfl
    rw [hnil,List.append_nil,List.take_of_length_le (hlen.trans_le h.size)]
  · rw [← h.full hrest,← hlen,List.take_left]

theorem pairwise_of_built (h : Built (fun heap x => sortBy (fun a b => cmp b a) (x::heap)) List.tail seen heap)
    (ho : Ordered cmp seen) : heap ⊆ seen ∧ heap.Pairwise fun a b => cmp b a ≠ .gt := by
  induction h with
  | nil => exact ⟨List.Subset.refl _,.nil⟩
  | @push pushed heap x _ ih =>
    have hsub := List.cons_subset_cons x (ih (ho.mono (List.subset_cons_self x pushed))).1
    have hflip : Ordered (fun a b => cmp b a) (x::heap) :=
      ⟨fun a ha b hb => (ho.mono hsub).swap b hb a ha,fun a ha b hb c hc =>
        have h := (ho.mono hsub).fits c hc b hb a ha
        ⟨h.right,h.left,fun heq => (h.both heq.symm).trans heq.symm⟩⟩
    exact ⟨fun a ha => hsub ((perm_sortBy _ _).mem_iff.1 ha),hflip.pairwise_sortBy⟩
  | pop _ ih => exact ⟨fun a ha => (ih ho).1 (List.mem_of_mem_tail ha),(ih ho).2.tail⟩

/-- A heap that keeps its items sorted. -/
def sorted (cmp : α → α → Ordering) : MaxHeap cmp where
  push heap x := sortBy (fun a b => cmp b a) (x::heap)
  pop := List.tail
  perm_push _ _ := perm_sortBy _ _
  perm_pop _ _ := .rfl
  le_top hbuilt ho := (List.pairwise_cons.1 (pairwise_of_built hbuilt ho).2).1

end MaxHeap

end TopItems

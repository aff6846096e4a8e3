import HakoDB.Storage.Shard

/-! The sorted view lists the live keys of the index in increasing order. Every way of updating the
index keeps it so, whichever of the three strategies resolves the noted keys. -/
namespace HakoDB.StorageEngine
open HashMap

structure ViewOk (s : StorageEngine) : Prop where
  sorted : s.sortedKeys.Pairwise (· < ·)
  mem_iff : ∀ k, k ∈ s.sortedKeys ↔ s.isLive k = true

/-- The index after one update. -/
def indexAfter (index : HMap String Pointer) (u : String × Option Pointer) : HMap String Pointer :=
  match u.2 with
  | some p => index.insert u.1 p
  | none => index.erase u.1

theorem applyPointer_index (s : StorageEngine) (key : String) (new : Option Pointer) :
    (s.applyPointer key new).index = indexAfter s.index (key,new) := by
  cases new <;> rfl

theorem lookup_indexAfter (index : HMap String Pointer) (u : String × Option Pointer) (k : String) :
    (indexAfter index u).lookup k = if k = u.1 then u.2 else index.lookup k := by
  obtain ⟨key,new⟩ := u
  cases new <;> simp [indexAfter]

theorem applyPointer_isLive (s : StorageEngine) (key : String) (new : Option Pointer) (k : String) :
    (s.applyPointer key new).isLive k = if k = key then new.any Pointer.isLive else s.isLive k := by
  unfold isLive
  rw [applyPointer_index,lookup_indexAfter]
  split <;> rfl

variable {s : StorageEngine} {pending : List String} {live : String → Bool} {old : List String}

theorem ViewOk.updateIndexEntry (h : s.ViewOk) (key : String) (new : Option Pointer) :
    (s.updateIndexEntry key new).ViewOk := by
  have hlive := s.applyPointer_isLive key new
  constructor
  · show (if new.any Pointer.isLive then _ else _ : List String).Pairwise _
    split
    · exact SortedList.pairwise_insert h.sorted key
    · exact SortedList.pairwise_remove h.sorted key
  · intro k
    show k ∈ (if new.any Pointer.isLive then _ else _ : List String) ↔ (s.applyPointer key new).isLive k = true
    rw [hlive k]
    split
    · rename_i hnew
      rw [SortedList.mem_insert h.sorted,h.mem_iff]
      by_cases hk : k = key <;> simp [hk,hnew]
    · rename_i hnew
      rw [SortedList.mem_remove h.sorted,h.mem_iff]
      by_cases hk : k = key <;> simp [hk,hnew]

/-- The keys for which the view may be out of date are noted. -/
structure PendingOk (s : StorageEngine) (pending : List String) : Prop where
  sorted : s.sortedKeys.Pairwise (· < ·)
  noted : ∀ k, k ∉ pending → (k ∈ s.sortedKeys ↔ s.isLive k = true)

theorem ViewOk.pendingOk (h : s.ViewOk) : s.PendingOk [] := ⟨h.sorted,fun k _ => h.mem_iff k⟩

theorem PendingOk.updateIndexEntryDeferred (h : s.PendingOk pending) (key : String) (new : Option Pointer) :
    (s.updateIndexEntryDeferred key new pending).1.PendingOk (s.updateIndexEntryDeferred key new pending).2 := by
  refine ⟨h.sorted,?_⟩
  intro k hk
  show k ∈ s.sortedKeys ↔ (s.applyPointer key new).isLive k = true
  rw [applyPointer_isLive]
  simp only [StorageEngine.updateIndexEntryDeferred] at hk
  by_cases hkey : k = key
  · subst hkey
    -- the key was not noted now, so its place in the view is already right
    have hsame : new.any Pointer.isLive = (SortedList.search s.sortedKeys k).isOk := by
      by_contra hne
      simp [hne] at hk
    rw [if_pos rfl,hsame,SortedList.search_isOk h.sorted]
  · rw [if_neg hkey]
    apply h.noted
    intro hmem
    split at hk <;> simp_all

theorem PendingOk.foldl (h : s.PendingOk pending) (updates : List (String × Option Pointer)) :
    let r := updates.foldl (fun acc u => acc.1.updateIndexEntryDeferred u.1 u.2 acc.2) (s,pending)
    r.1.PendingOk r.2 := by
  induction updates generalizing s pending with
  | nil => exact h
  | cons u updates ih => exact ih (h.updateIndexEntryDeferred u.1 u.2)

/-- The noted keys once they are sorted and without repetitions. -/
theorem destutter_sort_eq (pending : List String) :
    (pending.insertionSort (· ≤ ·)).destutter (· ≠ ·) = (pending.insertionSort (· ≤ ·)).dedup :=
  (List.pairwise_insertionSort _ pending).destutter_eq_dedup

theorem mem_destutter_sort (pending : List String) (k : String) :
    k ∈ (pending.insertionSort (· ≤ ·)).destutter (· ≠ ·) ↔ k ∈ pending := by
  rw [destutter_sort_eq,List.mem_dedup,List.mem_insertionSort]

theorem pairwise_destutter_sort (pending : List String) :
    ((pending.insertionSort (· ≤ ·)).destutter (· ≠ ·)).Pairwise (· < ·) := by
  have hle : ((pending.insertionSort (· ≤ ·)).destutter (· ≠ ·)).Pairwise (· ≤ ·) :=
    (List.pairwise_insertionSort _ pending).sublist (List.destutter_sublist _ _)
  have hnd : ((pending.insertionSort (· ≤ ·)).destutter (· ≠ ·)).Nodup := by
    rw [destutter_sort_eq]
    exact List.nodup_dedup _
  exact (hle.and hnd).imp fun h => lt_of_le_of_ne h.1 h.2

theorem lt_of_tailOk {view : List String} (hv : view.Pairwise (· < ·)) (hp : pending.Pairwise (· < ·))
    (h : tailOk view pending = true) : ∀ a ∈ view, ∀ b ∈ pending, a < b := by
  intro a ha b hb
  unfold tailOk at h
  split at h
  · rename_i hlast
    exact absurd (List.getLast?_eq_none_iff.mp hlast) (List.ne_nil_of_mem ha)
  · rename_i last k hlast hfirst
    exact SortedList.lt_of_getLast_lt_head hv hp hlast hfirst (of_decide_eq_true h) ha hb
  · cases h

/-- What each strategy has to achieve for a sorted list of noted keys. -/
def Resolves (live : String → Bool) (old pending new : List String) : Prop :=
  new.Pairwise (· < ·) ∧ ∀ k, k ∈ new ↔ if k ∈ pending then live k = true else k ∈ old

theorem resolves_append (ho : old.Pairwise (· < ·)) (hp : pending.Pairwise (· < ·))
    (hlive : ∀ k ∈ pending, live k = true) (htail : ∀ a ∈ old, ∀ b ∈ pending, a < b) :
    Resolves live old pending (old++pending) := by
  refine ⟨List.pairwise_append.mpr ⟨ho,hp,htail⟩,?_⟩
  intro k
  rw [List.mem_append]
  split
  · rename_i hk
    simp [hk,hlive k hk]
  · rename_i hk
    simp [hk]

theorem resolves_foldl (ho : old.Pairwise (· < ·)) (pending : List String) :
    Resolves live old pending (pending.foldl (fun keys k => if live k then SortedList.insert keys k
      else SortedList.remove keys k) old) := by
  induction pending generalizing old with
  | nil => exact ⟨ho,by simp⟩
  | cons p pending ih =>
    have hstep : (if live p then SortedList.insert old p else SortedList.remove old p).Pairwise (· < ·) := by
      split
      · exact SortedList.pairwise_insert ho p
      · exact SortedList.pairwise_remove ho p
    have hmem : ∀ k, k ∈ (if live p then SortedList.insert old p else SortedList.remove old p) ↔
        if k = p then live p = true else k ∈ old := by
      intro k
      split
      · rename_i hp
        rw [SortedList.mem_insert ho]
        by_cases hk : k = p <;> simp [hk,hp]
      · rename_i hp
        rw [SortedList.mem_remove ho]
        by_cases hk : k = p <;> simp [hk,hp]
    obtain ⟨hsorted,hmem'⟩ := ih hstep
    refine ⟨hsorted,fun k => ?_⟩
    rw [List.foldl_cons,hmem' k,hmem k]
    by_cases hk : k ∈ pending <;> by_cases hkp : k = p <;> simp_all

theorem resolves_merge (ho : old.Pairwise (· < ·)) (hp : pending.Pairwise (· < ·)) :
    Resolves live old pending (SortedList.merge live pending old) := by
  refine ⟨SortedList.pairwise_merge live hp ho,fun k => ?_⟩
  rw [SortedList.mem_merge live hp ho]
  by_cases hk : k ∈ pending <;> simp [hk]

theorem PendingOk.flushPendingSorted (h : s.PendingOk pending) :
    (s.flushPendingSorted pending).ViewOk := by
  have hdone : ∀ new, Resolves s.isLive s.sortedKeys ((pending.insertionSort (· ≤ ·)).destutter (· ≠ ·)) new →
      ({s with sortedKeys := new} : StorageEngine).ViewOk := by
    intro new hnew
    refine ⟨hnew.1,fun k => ?_⟩
    show k ∈ new ↔ s.isLive k = true
    rw [hnew.2 k]
    split
    · rfl
    · rename_i hk
      rw [mem_destutter_sort] at hk
      exact h.noted k hk
  have hp := pairwise_destutter_sort pending
  unfold StorageEngine.flushPendingSorted
  split
  · rename_i hnil
    subst hnil
    exact ⟨h.sorted,fun k => h.noted k (by simp)⟩
  · apply hdone
    split
    · rename_i hfast
      rw [Bool.and_eq_true,List.all_eq_true] at hfast
      exact resolves_append h.sorted hp hfast.2 (lt_of_tailOk h.sorted hp hfast.1)
    · split
      · exact resolves_foldl h.sorted _
      · exact resolves_merge h.sorted hp

theorem ViewOk.updateAll (h : s.ViewOk) (updates : List (String × Option Pointer)) :
    (s.updateAll updates).ViewOk :=
  (h.pendingOk.foldl updates).flushPendingSorted

/-- The updates in turn, without the view. -/
theorem foldl_applyPointer_view (updates : List (String × Option Pointer)) (s : StorageEngine) (view : List String) :
    updates.foldl (fun s u => s.applyPointer u.1 u.2) {s with sortedKeys := view} =
      {updates.foldl (fun s u => s.applyPointer u.1 u.2) s with sortedKeys := view} := by
  induction updates generalizing s with
  | nil => rfl
  | cons u updates ih => exact ih (s.applyPointer u.1 u.2)

theorem foldl_updateIndexEntryDeferred_fst (updates : List (String × Option Pointer)) (s : StorageEngine)
    (pending : List String) :
    (updates.foldl (fun acc u => acc.1.updateIndexEntryDeferred u.1 u.2 acc.2) (s,pending)).1 =
      updates.foldl (fun s u => s.applyPointer u.1 u.2) s := by
  induction updates generalizing s pending with
  | nil => rfl
  | cons u updates ih => exact ih (s.applyPointer u.1 u.2) (s.updateIndexEntryDeferred u.1 u.2 pending).2

theorem flushPendingSorted_view (s : StorageEngine) (pending : List String) :
    ∃ view,s.flushPendingSorted pending = {s with sortedKeys := view} := by
  unfold flushPendingSorted
  split
  · exact ⟨s.sortedKeys,rfl⟩
  · exact ⟨_,rfl⟩

theorem updateAll_view (s : StorageEngine) (updates : List (String × Option Pointer)) :
    ∃ view,s.updateAll updates =
      {updates.foldl (fun s u => s.applyPointer u.1 u.2) s with sortedKeys := view} := by
  rw [← foldl_updateIndexEntryDeferred_fst updates s []]
  exact flushPendingSorted_view _ _

theorem foldl_updateIndexEntry_view (updates : List (String × Option Pointer)) (s : StorageEngine) :
    ∃ view,updates.foldl (fun s u => s.updateIndexEntry u.1 u.2) s =
      {updates.foldl (fun s u => s.applyPointer u.1 u.2) s with sortedKeys := view} := by
  induction updates generalizing s with
  | nil => exact ⟨s.sortedKeys,rfl⟩
  | cons u updates ih =>
    obtain ⟨view,h⟩ := ih (s.updateIndexEntry u.1 u.2)
    refine ⟨view,h.trans ?_⟩
    rw [updateIndexEntry,foldl_applyPointer_view]
    rfl

theorem ViewOk.foldl_updateIndexEntry (h : s.ViewOk) (updates : List (String × Option Pointer)) :
    (updates.foldl (fun s u => s.updateIndexEntry u.1 u.2) s).ViewOk := by
  induction updates generalizing s with
  | nil => exact h
  | cons u updates ih => exact ih (h.updateIndexEntry u.1 u.2)

/-- The view is determined by the index. -/
theorem ViewOk.sortedKeys_eq {t : StorageEngine} (hs : s.ViewOk) (ht : t.ViewOk) (h : s.index = t.index) :
    s.sortedKeys = t.sortedKeys := by
  refine hs.sorted.eq_of_mem_iff ht.sorted fun k => ?_
  rw [hs.mem_iff,ht.mem_iff,isLive,isLive,h]

theorem foldl_applyPointer_eq (updates : List (String × Option Pointer)) (s : StorageEngine) :
    ∃ bytes counts,updates.foldl (fun s u => s.applyPointer u.1 u.2) s =
      {s with index := updates.foldl indexAfter s.index, inlinedBytes := bytes, collectionCounts := counts} := by
  induction updates generalizing s with
  | nil => exact ⟨s.inlinedBytes,s.collectionCounts,rfl⟩
  | cons u updates ih =>
    obtain ⟨bytes,counts,hu⟩ := ih (s.applyPointer u.1 u.2)
    refine ⟨bytes,counts,?_⟩
    rw [List.foldl_cons,List.foldl_cons,← applyPointer_index]
    exact hu

/-- A loop of updates touches the index, its counters and the view, and nothing else. -/
theorem updateAll_eq (s : StorageEngine) (updates : List (String × Option Pointer)) :
    ∃ bytes counts view, s.updateAll updates = {s with
      index := updates.foldl indexAfter s.index, inlinedBytes := bytes, collectionCounts := counts,
      sortedKeys := view} := by
  obtain ⟨view,hview⟩ := s.updateAll_view updates
  obtain ⟨bytes,counts,happly⟩ := foldl_applyPointer_eq updates s
  exact ⟨bytes,counts,view,by rw [hview,happly]⟩

theorem setAll_eq (s : StorageEngine) (updates : List (String × Pointer)) :
    ∃ bytes counts view, s.setAll updates = {s with
      index := insertAll s.index updates, inlinedBytes := bytes, collectionCounts := counts,
      sortedKeys := view} := by
  obtain ⟨bytes,counts,view,h⟩ := s.updateAll_eq (updates.map fun u => (u.1,some u.2))
  refine ⟨bytes,counts,view,h.trans ?_⟩
  rw [List.foldl_map]
  rfl

/-- Deferring the view changes nothing in the end: the noted keys lead to the state that the updates give one by one. -/
theorem updateAll_eq_foldl_updateIndexEntry {s : StorageEngine} (h : s.ViewOk) (updates : List (String × Option Pointer)) :
    s.updateAll updates = updates.foldl (fun s u => s.updateIndexEntry u.1 u.2) s := by
  have hdeferred := h.updateAll updates
  have hturn := h.foldl_updateIndexEntry updates
  obtain ⟨view,hview⟩ := s.updateAll_view updates
  obtain ⟨view',hview'⟩ := foldl_updateIndexEntry_view updates s
  have hkeys := hdeferred.sortedKeys_eq hturn (by rw [hview,hview'])
  rw [hview,hview'] at hkeys ⊢
  change view = view' at hkeys
  rw [hkeys]

/-- A key is put, dropped and put again, and another one is dropped that was never there. -/
theorem updateAll_eq_foldl_putAgain : (fresh .default "c" none 0).ViewOk ∧
    (fresh .default "c" none 0).updateAll
        [("b",some (.inlined [1])),("b",some (.deleted 7)),("a",none),("b",some (.inlined [2]))] =
      [("b",some (.inlined [1])),("b",some (.deleted 7)),("a",none),("b",some (.inlined [2]))].foldl
        (fun s u => s.updateIndexEntry u.1 u.2) (fresh .default "c" none 0) :=
  have hview : (fresh .default "c" none 0).ViewOk := ⟨.nil,fun k => by simp [fresh,unrecovered,isLive]⟩
  ⟨hview,updateAll_eq_foldl_updateIndexEntry hview _⟩

end HakoDB.StorageEngine

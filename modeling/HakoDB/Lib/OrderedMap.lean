import Mathlib.Data.List.Pairwise
import Mathlib.Order.Lattice

/-! Ordered maps and sets, as the list of their entries by increasing key. A range is the part of that
list whose keys lie within it. -/

structure OrderedMap (α β : Type) [LinearOrder α] where
  entries : List (α × β)
  sorted : entries.Pairwise fun a b => a.1 < b.1

namespace OrderedMap
variable {α β : Type} [LinearOrder α]

def insertEntry (k : α) (v : β) : List (α × β) → List (α × β)
  | [] => [(k,v)]
  | e::es => if k < e.1 then (k,v)::e::es else if k = e.1 then (k,v)::es else e::insertEntry k v es

variable {es entries : List (α × β)}

theorem mem_insertEntry (hs : es.Pairwise fun a b => a.1 < b.1) (k : α) (v : β) (e : α × β) :
    e ∈ insertEntry k v es ↔ e = (k,v) ∨ e ∈ es ∧ e.1 ≠ k := by
  induction es with
  | nil => simp [insertEntry]
  | cons a es ih =>
    obtain ⟨hhead,htail⟩ := List.pairwise_cons.1 hs
    have hlater : k ≤ a.1 → ∀ x ∈ es,x.1 ≠ k := fun hk x hx => (lt_of_le_of_lt hk (hhead x hx)).ne'
    simp only [insertEntry]
    split_ifs with hlt heq
    · have hall : ∀ x ∈ a::es,x.1 ≠ k := fun x hx => by
        rcases List.mem_cons.1 hx with rfl | hx
        · exact hlt.ne'
        · exact hlater hlt.le x hx
      exact List.mem_cons.trans (or_congr_right ⟨fun h => ⟨h,hall e h⟩,fun h => h.1⟩)
    · have hrest : e ∈ es ↔ e ∈ a::es ∧ e.1 ≠ k :=
        ⟨fun h => ⟨List.mem_cons_of_mem a h,hlater heq.le e h⟩,fun h =>
          (List.mem_cons.1 h.1).resolve_left fun he => h.2 (he ▸ heq.symm)⟩
      exact List.mem_cons.trans (or_congr_right hrest)
    · have hne : a.1 ≠ k := fun h => heq h.symm
      rw [List.mem_cons,ih htail,List.mem_cons]
      constructor
      · rintro (rfl | rfl | ⟨h,hk⟩)
        · exact .inr ⟨.inl rfl,hne⟩
        · exact .inl rfl
        · exact .inr ⟨.inr h,hk⟩
      · rintro (rfl | ⟨rfl | h,hk⟩)
        · exact .inr (.inl rfl)
        · exact .inl rfl
        · exact .inr (.inr ⟨h,hk⟩)

theorem pairwise_insertEntry (hs : es.Pairwise fun a b => a.1 < b.1) (k : α) (v : β) :
    (insertEntry k v es).Pairwise fun a b => a.1 < b.1 := by
  induction es with
  | nil => simp [insertEntry]
  | cons a es ih =>
    obtain ⟨hhead,htail⟩ := List.pairwise_cons.1 hs
    simp only [insertEntry]
    split_ifs with hlt heq
    · refine List.pairwise_cons.2 ⟨fun x hx => ?_,hs⟩
      rcases List.mem_cons.1 hx with rfl | hx
      · exact hlt
      · exact hlt.trans (hhead x hx)
    · exact List.pairwise_cons.2 ⟨fun x hx => heq ▸ hhead x hx,htail⟩
    · refine List.pairwise_cons.2 ⟨fun x hx => ?_,ih htail⟩
      rcases (mem_insertEntry htail k v x).1 hx with rfl | ⟨hx,-⟩
      · exact lt_of_le_of_ne (not_lt.1 hlt) fun h => heq h.symm
      · exact hhead x hx

def empty : OrderedMap α β := ⟨[],.nil⟩

def get (m : OrderedMap α β) (k : α) : Option β := (m.entries.find? fun e => e.1 = k).map Prod.snd

def insert (m : OrderedMap α β) (k : α) (v : β) : OrderedMap α β :=
  ⟨insertEntry k v m.entries,pairwise_insertEntry m.sorted k v⟩

def erase (m : OrderedMap α β) (k : α) : OrderedMap α β :=
  ⟨m.entries.filter fun e => e.1 ≠ k,m.sorted.filter _⟩

/-- The entries whose keys pass the test, by increasing key. -/
def range (m : OrderedMap α β) (inside : α → Bool) : List (α × β) := m.entries.filter fun e => inside e.1

variable (m : OrderedMap α β) (k : α) (v : β)

@[simp] theorem entries_empty : (empty : OrderedMap α β).entries = [] := rfl

theorem mem_insert (e : α × β) : e ∈ (m.insert k v).entries ↔ e = (k,v) ∨ e ∈ m.entries ∧ e.1 ≠ k :=
  mem_insertEntry m.sorted k v e

theorem eq_of_mem {m : OrderedMap α β} {k : α} {v w : β} (hv : (k,v) ∈ m.entries) (hw : (k,w) ∈ m.entries) :
    v = w := by
  have hne : m.entries.Pairwise fun a b => a.1 ≠ b.1 := m.sorted.imp fun h => h.ne
  by_contra hvw
  have : Std.Symm fun a b : α × β => a.1 ≠ b.1 := ⟨fun _ _ h => h.symm⟩
  exact hne.forall hv hw (fun h => hvw (Prod.mk.inj h).2) rfl

theorem get_eq_some {m : OrderedMap α β} {k : α} {v : β} : m.get k = some v ↔ (k,v) ∈ m.entries := by
  unfold get
  constructor
  · intro h
    obtain ⟨e,he,rfl⟩ := Option.map_eq_some_iff.1 h
    have hk : e.1 = k := by simpa using List.find?_some he
    exact hk ▸ List.mem_of_find?_eq_some he
  · intro h
    cases hfind : m.entries.find? fun e => e.1 = k with
    | none => simpa using List.find?_eq_none.1 hfind (k,v) h
    | some e =>
      have hk : e.1 = k := by simpa using List.find?_some hfind
      exact congrArg some (eq_of_mem (hk ▸ List.mem_of_find?_eq_some hfind) h)

theorem nodup_of_sorted (h : entries.Pairwise fun a b => a.1 < b.1) : entries.Nodup :=
  h.imp fun hlt he => absurd (congrArg Prod.fst he) hlt.ne

/-- Only one list holds these entries by increasing key. -/
theorem eq_of_sorted {xs ys : List (α × β)} (hxs : xs.Pairwise fun a b => a.1 < b.1)
    (hys : ys.Pairwise fun a b => a.1 < b.1) (h : ∀ e,e ∈ xs ↔ e ∈ ys) : xs = ys :=
  ((List.perm_ext_iff_of_nodup (nodup_of_sorted hxs) (nodup_of_sorted hys)).2 h).eq_of_pairwise
    (fun _ _ _ _ hab hba => absurd (hab.trans hba) (lt_irrefl _)) hxs hys

/-- A map is what it gives. -/
theorem ext_get {m n : OrderedMap α β} (h : ∀ k,m.get k = n.get k) : m = n := by
  have hentries : m.entries = n.entries := by
    refine eq_of_sorted m.sorted n.sorted fun e => ?_
    rw [← get_eq_some,← get_eq_some,h]
  cases m
  cases n
  cases hentries
  rfl

theorem get_insert (m : OrderedMap α β) (a k : α) (v : β) : (m.insert a v).get k = if k = a then some v else m.get k := by
  refine Option.ext fun w => ?_
  rw [get_eq_some,mem_insert,Prod.mk.injEq]
  split_ifs with h
  · simp [h,eq_comm (a := w)]
  · simp [h,get_eq_some]

theorem get_erase (m : OrderedMap α β) (a k : α) : (m.erase a).get k = if k = a then none else m.get k := by
  refine Option.ext fun w => ?_
  rw [get_eq_some,erase,List.mem_filter,decide_eq_true_iff]
  split_ifs with h
  · simp [h]
  · rw [get_eq_some]
    simp [h]

/-- Entries inserted one after another. -/
def insertAll (m : OrderedMap α β) (entries : List (α × β)) : OrderedMap α β :=
  entries.foldl (fun m e => m.insert e.1 e.2) m

/-- Of entries with different keys each stays, and takes the place of an earlier one. -/
theorem mem_insertAll (h : (entries.map Prod.fst).Nodup) (m : OrderedMap α β) (e : α × β) :
    e ∈ (m.insertAll entries).entries ↔ e ∈ entries ∨ e ∈ m.entries ∧ e.1 ∉ entries.map Prod.fst := by
  induction entries generalizing m with
  | nil => simp [insertAll]
  | cons a entries ih =>
    obtain ⟨hfirst,hrest⟩ := List.nodup_cons.1 h
    have hstep := ih hrest (m.insert a.1 a.2)
    rw [mem_insert] at hstep
    rw [List.map_cons,List.mem_cons,List.mem_cons]
    refine Iff.trans hstep ⟨?_,?_⟩
    · rintro (hmem | ⟨rfl | ⟨hmem,hne⟩,hlater⟩)
      · exact .inl (.inr hmem)
      · exact .inl (.inl rfl)
      · exact .inr ⟨hmem,fun h => h.elim hne hlater⟩
    · rintro ((rfl | hmem) | ⟨hmem,hnot⟩)
      · exact .inr ⟨.inl rfl,hfirst⟩
      · exact .inl hmem
      · exact .inr ⟨.inr ⟨hmem,fun h => hnot (.inl h)⟩,fun h => hnot (.inr h)⟩

end OrderedMap

/-- A set is a map to nothing. -/
abbrev OrderedSet (α : Type) [LinearOrder α] := OrderedMap α Unit

namespace OrderedSet
variable {α : Type} [LinearOrder α]

def items (s : OrderedSet α) : List α := s.entries.map Prod.fst

end OrderedSet

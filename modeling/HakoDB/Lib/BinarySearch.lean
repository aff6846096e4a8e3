import Mathlib

/-! Binary search in a list by a three-way comparison: the position of a hit, or the position at
which a missing element belongs. -/
namespace BinarySearch

/-- Narrow `size` elements from `base` on to one; `fuel` bounds the rounds. -/
def narrow {α : Type} (f : α → Ordering) (xs : List α) : ℕ → ℕ → ℕ → ℕ
  | 0, base, _ => base
  | fuel+1, base, size =>
    if 1 < size then
      let half := size/2
      let mid := base+half
      let base' := if (xs[mid]?).map f = some .gt then base else mid
      narrow f xs fuel base' (size-half)
    else base

/-- `f` compares an element with the one that is sought. -/
def search {α : Type} (f : α → Ordering) (xs : List α) : Except ℕ ℕ :=
  let base := narrow f xs xs.length 0 xs.length
  match (xs[base]?).map f with
  | none => .error 0
  | some .eq => .ok base
  | some .lt => .error (base+1)
  | some .gt => .error base

/-- A hit is a hit in any list, sorted or not. -/
theorem search_ok {α : Type} {f : α → Ordering} {xs : List α} {i : ℕ} (h : search f xs = .ok i) :
    ∃ a,xs[i]? = some a ∧ f a = .eq := by
  unfold search at h
  dsimp only at h
  generalize narrow f xs xs.length 0 xs.length = base at h
  cases hget : xs[base]? with
  | none => simp [hget] at h
  | some a =>
    cases hcmp : f a <;> simp [hget,hcmp] at h
    exact ⟨a,h ▸ hget,hcmp⟩

/-- What is smaller than the sought element stands in front, what is greater stands behind. -/
def Ordered {α : Type} (f : α → Ordering) (xs : List α) : Prop :=
  xs.Pairwise fun a b => (f b = .lt → f a = .lt) ∧ (f a = .gt → f b = .gt)

section spec
variable {α : Type} {f : α → Ordering} {xs : List α}

theorem Ordered.gt_of_le (h : Ordered f xs) {i j : ℕ} {a b : α} (hij : i ≤ j) (ha : xs[i]? = some a)
    (hb : xs[j]? = some b) (hgt : f a = .gt) : f b = .gt := by
  rcases Nat.lt_or_eq_of_le hij with hlt | rfl
  · obtain ⟨hi,rfl⟩ := List.getElem?_eq_some_iff.mp ha
    obtain ⟨hj,rfl⟩ := List.getElem?_eq_some_iff.mp hb
    exact (List.pairwise_iff_getElem.mp h i j hi hj hlt).2 hgt
  · rw [ha] at hb
    exact (Option.some.inj hb) ▸ hgt

/-- The window keeps every candidate: nothing behind it is small enough, and its first element is
not too great unless the window starts the list. -/
theorem narrow_spec (h : Ordered f xs) (fuel base size : ℕ) (hfuel : size ≤ fuel) (hsize : 0 < size)
    (hend : base+size ≤ xs.length) (hbase : base = 0 ∨ (xs[base]?).map f ≠ some .gt)
    (hgt : ∀ j a, base+size ≤ j → xs[j]? = some a → f a = .gt) :
    narrow f xs fuel base size < xs.length ∧
    (narrow f xs fuel base size = 0 ∨ (xs[narrow f xs fuel base size]?).map f ≠ some .gt) ∧
    ∀ j a, narrow f xs fuel base size < j → xs[j]? = some a → f a = .gt := by
  induction fuel generalizing base size with
  | zero => omega
  | succ fuel ih =>
    unfold narrow
    split
    · rename_i hbig
      have hhalf : 0 < size/2 ∧ size/2 ≤ size-size/2 := by omega
      apply ih <;> try omega
      · split <;> omega
      · split
        · exact hbase
        · rename_i hmid
          exact .inr hmid
      · intro j a hj ha
        split at hj
        · rename_i hmid
          obtain ⟨b,hb,hfb⟩ := Option.map_eq_some_iff.mp hmid
          exact h.gt_of_le (by omega) hb ha hfb
        · exact hgt j a (by omega) ha
    · exact ⟨by omega,hbase,fun j a hj ha => hgt j a (by omega) ha⟩

theorem search_spec (h : Ordered f xs) :
    match search f xs with
    | .ok i => ∃ a, xs[i]? = some a ∧ f a = .eq
    | .error i => i ≤ xs.length ∧ (∀ a ∈ xs.take i, f a = .lt) ∧ ∀ a ∈ xs.drop i, f a = .gt := by
  rcases Nat.eq_zero_or_pos xs.length with hnil | hpos
  · rw [List.length_eq_zero_iff.mp hnil]
    simp [search]
  obtain ⟨hlt,hbase,hgt⟩ := narrow_spec h xs.length 0 xs.length le_rfl hpos (by omega) (.inl rfl)
    (fun j a hj ha => by
      rw [List.getElem?_eq_none (by omega)] at ha
      cases ha)
  unfold search
  generalize narrow f xs xs.length 0 xs.length = base at hlt hbase hgt
  have hget : xs[base]? = some xs[base] := List.getElem?_eq_getElem hlt
  have hbehind : ∀ a ∈ xs.drop (base+1), f a = .gt := by
    intro a ha
    obtain ⟨j,hj⟩ := List.mem_iff_getElem?.mp ha
    rw [List.getElem?_drop] at hj
    exact hgt _ a (by omega) hj
  simp only [hget,Option.map_some]
  cases hf : f xs[base] with
  | eq => exact ⟨_,hget,hf⟩
  | lt =>
    refine ⟨by omega,?_,hbehind⟩
    intro a ha
    obtain ⟨j,hj⟩ := List.mem_iff_getElem?.mp ha
    rw [List.getElem?_take,ite_eq_iff] at hj
    obtain ⟨hjl,hja⟩ := hj.resolve_right (by simp)
    rcases Nat.lt_or_eq_of_le (Nat.le_of_lt_succ hjl) with hjb | rfl
    · obtain ⟨hj',rfl⟩ := List.getElem?_eq_some_iff.mp hja
      exact (List.pairwise_iff_getElem.mp h j base hj' hlt hjb).1 hf
    · rw [hget] at hja
      exact (Option.some.inj hja) ▸ hf
  | gt =>
    have hzero : base = 0 := by
      rcases hbase with h0 | hne
      · exact h0
      · exact absurd (by rw [hget,Option.map_some,hf]) hne
    subst hzero
    refine ⟨by omega,by simp,?_⟩
    intro a ha
    obtain ⟨j,hj⟩ := List.mem_iff_getElem?.mp ha
    exact h.gt_of_le (Nat.zero_le _) hget (by simpa using hj) hf

end spec

section comparisons
variable {α β : Type} {f : α → Ordering} {g : β → Ordering} {xs : List α} {ys : List β}

end comparisons

end BinarySearch

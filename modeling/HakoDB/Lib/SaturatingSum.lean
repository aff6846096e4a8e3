import Mathlib

/-! Sums that stop at a lower and an upper bound. Terms of one sign reach a bound once and stay there; terms of both signs
may leave it again, and then the order of the terms decides. -/
namespace SaturatingSum

def clamp (lo hi x : ℤ) : ℤ := max lo (min hi x)

/-- Add the terms one after another, each time within the bounds. -/
def satSum (lo hi s : ℤ) (xs : List ℤ) : ℤ := xs.foldl (fun s x => clamp lo hi (s+x)) s

def positives (xs : List ℤ) : ℤ := (xs.filter fun x => 0 < x).sum

def negatives (xs : List ℤ) : ℤ := (xs.filter fun x => x < 0).sum

/-- The terms have one sign, or neither the positive nor the negative ones leave the bounds. -/
def Calm (lo hi : ℤ) (xs : List ℤ) : Prop :=
  (∀ x ∈ xs,0 ≤ x) ∨ (∀ x ∈ xs,x ≤ 0) ∨ (positives xs ≤ hi ∧ lo ≤ negatives xs)

variable {lo hi s : ℤ} {xs ys : List ℤ}

theorem clamp_within (hlo : lo ≤ hi) (x : ℤ) : lo ≤ clamp lo hi x ∧ clamp lo hi x ≤ hi := by
  unfold clamp
  omega

theorem satSum_append (s : ℤ) (xs ys : List ℤ) : satSum lo hi s (xs++ys) = satSum lo hi (satSum lo hi s xs) ys :=
  List.foldl_append

/-- Terms of one sign give their sum, or the bound that it passes. -/
theorem satSum_sameSign (h : (∀ x ∈ xs,0 ≤ x) ∨ ∀ x ∈ xs,x ≤ 0) (hlo : lo ≤ s) (hhi : s ≤ hi) :
    satSum lo hi s xs = clamp lo hi (s+xs.sum) := by
  induction xs generalizing s with
  | nil =>
    have hs : satSum lo hi s [] = s := rfl
    rw [hs,List.sum_nil,clamp]
    omega
  | cons x xs ih =>
    rw [List.forall_mem_cons,List.forall_mem_cons] at h
    have hsum : 0 ≤ x ∧ 0 ≤ xs.sum ∨ x ≤ 0 ∧ xs.sum ≤ 0 :=
      h.imp (fun h => ⟨h.1,List.sum_nonneg h.2⟩) fun h => ⟨h.1,(List.sum_le_card_nsmul xs 0 h.2).trans (by simp)⟩
    have hbounds := clamp_within (by omega : lo ≤ hi) (s+x)
    have hcons : satSum lo hi s (x::xs) = satSum lo hi (clamp lo hi (s+x)) xs := rfl
    rw [hcons,ih (h.imp And.right And.right) hbounds.1 hbounds.2,List.sum_cons]
    unfold clamp
    omega

theorem signs_cons (x : ℤ) (xs : List ℤ) :
    positives (x::xs) = max x 0+positives xs ∧ negatives (x::xs) = min x 0+negatives xs := by
  rw [positives,negatives,positives,negatives]
  rcases lt_trichotomy x 0 with hx | hx | hx
  · simp [hx,hx.le,hx.not_gt]
  · simp [hx]
  · simp [hx,hx.le,hx.not_gt]

theorem signs_sum (xs : List ℤ) : 0 ≤ positives xs ∧ negatives xs ≤ 0 ∧ positives xs+negatives xs = xs.sum := by
  induction xs with
  | nil => simp [positives,negatives]
  | cons x xs ih =>
    rw [(signs_cons x xs).1,(signs_cons x xs).2,List.sum_cons]
    omega

theorem signs_of_mem {x : ℤ} (h : x ∈ xs) : x ≤ positives xs ∧ negatives xs ≤ x := by
  induction xs with
  | nil => cases h
  | cons y xs ih =>
    have hsum := signs_sum xs
    rw [(signs_cons y xs).1,(signs_cons y xs).2]
    rcases List.mem_cons.1 h with rfl | h
    · omega
    · have hx := ih h
      omega

/-- No bound is met on the way. -/
theorem satSum_within (hhi : s+positives xs ≤ hi) (hlo : lo ≤ s+negatives xs) : satSum lo hi s xs = s+xs.sum := by
  induction xs generalizing s with
  | nil => simp [satSum]
  | cons x xs ih =>
    have hsigns := signs_sum xs
    have hcons : satSum lo hi s (x::xs) = satSum lo hi (clamp lo hi (s+x)) xs := rfl
    rw [(signs_cons x xs).1] at hhi
    rw [(signs_cons x xs).2] at hlo
    have hstay : clamp lo hi (s+x) = s+x := by
      unfold clamp
      omega
    rw [hcons,hstay,ih (by omega) (by omega),List.sum_cons]
    omega

/-- Calm terms give their sum, or the bound that it passes. -/
theorem satSum_of_calm (hlo : lo < 0) (hhi : 0 < hi) (h : Calm lo hi xs) : satSum lo hi 0 xs = clamp lo hi xs.sum := by
  rcases h with h | h | ⟨hp,hn⟩
  · rw [satSum_sameSign (.inl h) hlo.le hhi.le,Int.zero_add]
  · rw [satSum_sameSign (.inr h) hlo.le hhi.le,Int.zero_add]
  · have hsigns := signs_sum xs
    rw [satSum_within (by omega) (by omega)]
    unfold clamp
    omega

theorem Calm.perm (h : Calm lo hi xs) (hperm : xs.Perm ys) : Calm lo hi ys := by
  rcases h with h | h | ⟨hp,hn⟩
  · exact .inl fun y hy => h y (hperm.mem_iff.2 hy)
  · exact .inr (.inl fun y hy => h y (hperm.mem_iff.2 hy))
  · refine .inr (.inr ⟨?_,?_⟩)
    · rwa [positives,← (hperm.filter _).sum_eq]
    · rwa [negatives,← (hperm.filter _).sum_eq]

def positivesFirst (xs : List ℤ) : List ℤ := (xs.filter fun x => 0 < x)++xs.filter fun x => !decide (0 < x)

def negativesFirst (xs : List ℤ) : List ℤ := (xs.filter fun x => x < 0)++xs.filter fun x => !decide (x < 0)

/-- Terms that are not calm give different sums in these two orders. -/
theorem satSum_ne_of_not_calm (hlo : lo < 0) (hhi : 0 < hi) (h : ¬Calm lo hi xs) :
    satSum lo hi 0 (positivesFirst xs) ≠ satSum lo hi 0 (negativesFirst xs) := by
  obtain ⟨hneg,hpos,hfar⟩ : (∃ x ∈ xs,x < 0) ∧ (∃ x ∈ xs,0 < x) ∧ ¬(positives xs ≤ hi ∧ lo ≤ negatives xs) := by
    simpa [Calm] using h
  have hsum := (signs_sum xs).2.2
  have hrestpos : (xs.filter fun x => !decide (x < 0)).sum = positives xs := by
    have hboth := (List.filter_append_perm (fun x : ℤ => x < 0) xs).sum_eq
    rw [List.sum_append,← negatives] at hboth
    omega
  have hrestneg : (xs.filter fun x => !decide (0 < x)).sum = negatives xs := by
    have hboth := (List.filter_append_perm (fun x : ℤ => 0 < x) xs).sum_eq
    rw [List.sum_append,← positives] at hboth
    omega
  have hbounds := clamp_within (hlo.trans hhi).le
  have hfirst : satSum lo hi 0 (positivesFirst xs) = clamp lo hi (clamp lo hi (positives xs)+negatives xs) := by
    rw [positivesFirst,satSum_append,
      satSum_sameSign (.inl fun x hx => le_of_lt (by simpa using (List.mem_filter.1 hx).2)) hlo.le hhi.le,Int.zero_add,
      satSum_sameSign (.inr fun x hx => by simpa using (List.mem_filter.1 hx).2) (hbounds _).1 (hbounds _).2,hrestneg,← positives]
  have hsecond : satSum lo hi 0 (negativesFirst xs) = clamp lo hi (clamp lo hi (negatives xs)+positives xs) := by
    rw [negativesFirst,satSum_append,
      satSum_sameSign (.inr fun x hx => le_of_lt (by simpa using (List.mem_filter.1 hx).2)) hlo.le hhi.le,Int.zero_add,
      satSum_sameSign (.inl fun x hx => by simpa using (List.mem_filter.1 hx).2) (hbounds _).1 (hbounds _).2,hrestpos,← negatives]
  have hp : 0 < positives xs := by
    obtain ⟨x,hx,hx0⟩ := hpos
    exact lt_of_lt_of_le hx0 (signs_of_mem hx).1
  have hn : negatives xs < 0 := by
    obtain ⟨x,hx,hx0⟩ := hneg
    exact lt_of_le_of_lt (signs_of_mem hx).2 hx0
  rw [hfirst,hsecond]
  unfold clamp
  omega

end SaturatingSum

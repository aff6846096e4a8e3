import Mathlib.Order.Basic
import Mathlib.Data.List.Basic
import Mathlib.Tactic

/-! A last-writer-wins register: a stamped value gives way to strictly newer ones only. -/
namespace LastWriter
variable {T V : Type*} [LinearOrder T]

/-- Nothing is held, or something older. -/
def Newer (cur : Option (T × V)) (op : T × V) : Prop := ∀ c ∈ cur,c.1 < op.1

instance (cur : Option (T × V)) (op : T × V) : Decidable (Newer cur op) :=
  match cur with
  | none => isTrue fun _ h => nomatch h
  | some c => decidable_of_iff (c.1 < op.1) ⟨fun h _ hc => Option.mem_some_iff.1 hc ▸ h,fun h => h c rfl⟩

def pick (cur : Option (T × V)) (op : T × V) : Option (T × V) := if Newer cur op then some op else cur

def run (cur : Option (T × V)) (ops : List (T × V)) : Option (T × V) := ops.foldl pick cur

/-- The outcome a replica should show: a greatest stamp among what was held and what was fed. -/
def Winner (cur : Option (T × V)) (ops : List (T × V)) : Option (T × V) → Prop
  | none => cur = none ∧ ops = []
  | some x => (x ∈ cur ∨ x ∈ ops) ∧ (∀ c ∈ cur,c.1 ≤ x.1) ∧ ∀ y ∈ ops,y.1 ≤ x.1

@[simp] theorem newer_none (op : T × V) : Newer none op := fun _ h => nomatch h

@[simp] theorem newer_some (c op : T × V) : Newer (some c) op ↔ c.1 < op.1 :=
  ⟨fun h => h c rfl,fun h _ hc => Option.mem_some_iff.1 hc ▸ h⟩

theorem run_append (cur : Option (T × V)) (xs ys : List (T × V)) : run cur (xs++ys) = run (run cur xs) ys :=
  List.foldl_append

variable {cur : Option (T × V)} {ops : List (T × V)} {x : T × V}

theorem run_eq_self (h : ∀ y ∈ ops,¬Newer cur y) :
    run cur ops = cur := by
  induction ops with
  | nil => rfl
  | cons y ops ih =>
    have hy : pick cur y = cur := if_neg (h y (by simp))
    rw [run,List.foldl_cons,hy]
    exact ih fun z hz => h z (by simp [hz])

/-- A newer operation with the greatest stamp is what the register ends with. -/
theorem run_eq_of_max (hx : x ∈ ops) (hnew : Newer cur x) (hmax : ∀ y ∈ ops,y ≠ x → y.1 < x.1) :
    run cur ops = some x := by
  induction ops generalizing cur with
  | nil => cases hx
  | cons y ops ih =>
    rw [run,List.foldl_cons]
    by_cases hy : y = x
    · subst hy
      have hpick : pick cur y = some y := if_pos hnew
      rw [hpick]
      refine run_eq_self fun z hz => ?_
      rw [newer_some]
      by_cases hzy : z = y
      · simp [hzy]
      · exact not_lt_of_gt (hmax z (by simp [hz]) hzy)
    · have hlt := hmax y (by simp) hy
      have hnew' : Newer (pick cur y) x := by
        unfold pick
        split <;> simp_all
      exact ih (by simpa [Ne.symm hy] using hx) hnew' fun z hz => hmax z (by simp [hz])

/-- The register of any sequence of operations is a winner. -/
theorem winner_run (cur : Option (T × V)) (ops : List (T × V)) : Winner cur ops (run cur ops) := by
  induction ops using List.reverseRecOn with
  | nil => cases cur <;> simp [run,Winner]
  | append_singleton ops y ih =>
    rw [run_append]
    change Winner cur (ops++[y]) (pick (run cur ops) y)
    rcases hr : run cur ops with _ | x
    · rw [hr] at ih
      obtain ⟨rfl,rfl⟩ := ih
      simp [pick,Winner]
    · rw [hr] at ih
      obtain ⟨hmem,hcur,hops⟩ := ih
      by_cases hxy : x.1 < y.1
      · rw [pick,if_pos ((newer_some x y).2 hxy)]
        refine ⟨.inr (by simp),fun c hc => (hcur c hc).trans hxy.le,fun z hz => ?_⟩
        rcases List.mem_append.1 hz with hz | hz
        · exact (hops z hz).trans hxy.le
        · rw [List.mem_singleton.1 hz]
      · rw [pick,if_neg (mt (newer_some x y).1 hxy)]
        refine ⟨hmem.imp id fun h => List.mem_append_left _ h,hcur,fun z hz => ?_⟩
        rcases List.mem_append.1 hz with hz | hz
        · exact hops z hz
        · rw [List.mem_singleton.1 hz]
          exact not_lt.1 hxy

theorem pick_comm {y : T × V} (h : x.1 = y.1 → x = y) (cur : Option (T × V)) :
    pick (pick cur x) y = pick (pick cur y) x := by
  by_cases hxy : x = y
  · rw [hxy]
  have hne : x.1 ≠ y.1 := mt h hxy
  cases cur with
  | none =>
    rcases lt_or_gt_of_ne hne with hlt | hlt
    · simp [pick,hlt,hlt.not_gt]
    · simp [pick,hlt,hlt.not_gt]
  | some c =>
    rcases lt_or_gt_of_ne hne with hlt | hlt
    · by_cases hx : c.1 < x.1
      · simp [pick,hx,hx.trans hlt,hlt,hlt.not_gt]
      · by_cases hy : c.1 < y.1 <;> simp [pick,hx,hy,hlt.not_gt]
    · by_cases hy : c.1 < y.1
      · simp [pick,hy,hy.trans hlt,hlt,hlt.not_gt]
      · by_cases hx : c.1 < x.1 <;> simp [pick,hx,hy,hlt.not_gt]

/-- With distinct stamps the order of the operations does not matter. -/
theorem run_perm {ops' : List (T × V)} (hp : ops.Perm ops') (hd : ∀ x ∈ ops,∀ y ∈ ops,x.1 = y.1 → x = y)
    (cur : Option (T × V)) : run cur ops = run cur ops' :=
  hp.foldl_eq' (fun x hx y hy z => pick_comm (hd x hx y hy) z) cur

end LastWriter

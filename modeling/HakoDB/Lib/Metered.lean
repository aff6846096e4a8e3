import Mathlib.Data.Option.Basic
import Mathlib.Data.List.Basic

/-! Computations that may fail and that ask for amounts of a resource on the way. What was asked for before
a failure stays asked for. -/
namespace Metered
variable {α β : Type}

structure Run (α : Type) where
  asked : List ℕ
  value : Option α

def ask (n : ℕ) : Run Unit := ⟨[n],some ()⟩

/-- A step that asks for nothing. -/
def ofOption (o : Option α) : Run α := ⟨[],o⟩

def Run.bind (x : Run α) (f : α → Run β) : Run β :=
  ⟨x.asked++(x.value.map fun a => (f a).asked).getD [],x.value.bind fun a => (f a).value⟩

instance : Monad Run where
  pure a := ofOption (some a)
  bind := Run.bind

@[simp] theorem value_pure (a : α) : (pure a : Run α).value = some a := rfl

@[simp] theorem value_ofOption (o : Option α) : (ofOption o).value = o := rfl

@[simp] theorem value_bind (x : Run α) (f : α → Run β) : (x >>= f).value = x.value.bind fun a => (f a).value := rfl

@[simp] theorem value_ask (n : ℕ) : (ask n).value = some () := rfl

/-- No amount asked for is above the bound. -/
def Within (bound : ℕ) (x : Run α) : Prop := ∀ n ∈ x.asked,n ≤ bound

section within
variable {bound : ℕ}

@[simp] theorem within_pure (a : α) : Within bound (pure a : Run α) := fun _ h => nomatch h

@[simp] theorem within_ofOption (o : Option α) : Within bound (ofOption o) := fun _ h => nomatch h

/-- What follows a step is asked for only where the step succeeds. -/
theorem within_bind {x : Run α} {f : α → Run β} :
    Within bound (x >>= f) ↔ Within bound x ∧ ∀ a,x.value = some a → Within bound (f a) := by
  change (∀ n ∈ x.asked++(x.value.map fun a => (f a).asked).getD [],n ≤ bound) ↔ _
  rw [List.forall_mem_append]
  refine and_congr_right fun _ => ?_
  cases x.value <;> simp [Within]

@[simp] theorem within_ofOption_bind {o : Option α} {f : α → Run β} :
    Within bound (ofOption o >>= f) ↔ ∀ a,o = some a → Within bound (f a) :=
  within_bind.trans (and_iff_right (within_ofOption o))

@[simp] theorem within_ask_bind {n : ℕ} {f : Unit → Run β} :
    Within bound (ask n >>= f) ↔ n ≤ bound ∧ Within bound (f ()) := by
  rw [within_bind]
  refine and_congr (by simp [Within,ask]) ⟨fun h => h () rfl,fun h _ _ => h⟩

end within

end Metered

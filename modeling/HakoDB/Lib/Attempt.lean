import Mathlib.Order.Defs.Unbundled

/-! Calls on a state that may fail, where a failed call leaves the changes that it has made so far. What a
call may do to the state is a relation between the state before and the one after, shown piece by piece. -/
namespace Attempt
variable {σ ε α β : Type}

abbrev Call (σ ε α : Type) := ExceptT ε (StateM σ) α

/-- The state after the call, be it well or with an error. -/
def after (x : Call σ ε α) (s : σ) : σ := (x s).2

def result (x : Call σ ε α) (s : σ) : Except ε α := (x s).1

/-- A change of the state with its result, as a call. -/
def ofStep (f : σ → σ × Except ε α) : Call σ ε α := fun s => ((f s).2,(f s).1)

@[simp] theorem after_pure (a : α) (s : σ) : after (pure a : Call σ ε α) s = s := rfl

@[simp] theorem after_throw (e : ε) (s : σ) : after (throw e : Call σ ε α) s = s := rfl

theorem get_bind_apply (f : σ → Call σ ε β) (s : σ) : (get >>= f : Call σ ε β) s = f s s := rfl

@[simp] theorem after_get_bind (f : σ → Call σ ε β) (s : σ) : after (get >>= f) s = after (f s) s := rfl

@[simp] theorem result_get_bind (f : σ → Call σ ε β) (s : σ) : result (get >>= f) s = result (f s) s := rfl

@[simp] theorem after_modify (f : σ → σ) (s : σ) : after (modify f : Call σ ε PUnit) s = f s := rfl

@[simp] theorem after_ofStep (f : σ → σ × Except ε α) (s : σ) : after (ofStep f) s = (f s).1 := rfl

theorem after_bind (x : Call σ ε α) (f : α → Call σ ε β) (s : σ) : after (x >>= f) s =
    match result x s with
    | .ok a => after (f a) (after x s)
    | .error _ => after x s := by
  show (ExceptT.bindCont f (x s).1 (x s).2).2 = _
  unfold result after
  cases (x s).1 <;> rfl

theorem result_bind (x : Call σ ε α) (f : α → Call σ ε β) (s : σ) : result (x >>= f) s =
    match result x s with
    | .ok a => result (f a) (after x s)
    | .error e => .error e := by
  show (ExceptT.bindCont f (x s).1 (x s).2).1 = _
  unfold result after
  cases (x s).1 <;> rfl

variable {x : Call σ ε α} {f : α → Call σ ε β} {s : σ} {b : β} {e : ε} {a : α} {P : β → Prop}

theorem bind_of_error (h : result x s = .error e) :
    result (x >>= f) s = .error e ∧ after (x >>= f) s = after x s := by
  rw [result_bind,after_bind,h]
  exact ⟨rfl,rfl⟩

theorem forM_of_error {f : α → Call σ ε PUnit} {xs : List α} (h : result (f a) s = .error e) :
    result ((a::xs).forM f) s = .error e ∧ after ((a::xs).forM f) s = after (f a) s := bind_of_error h

/-- Every result of the call has the property. -/
def Yields (P : α → Prop) (x : Call σ ε α) : Prop := ∀ s a,result x s = .ok a → P a

theorem yields_pure {P : α → Prop} (h : P a) : Yields P (pure a : Call σ ε α) := by
  intro s b hb
  cases hb
  exact h

theorem yields_bind (h : ∀ a,Yields P (f a)) :
    Yields P (x >>= f) := by
  intro s b hb
  rw [result_bind] at hb
  cases hx : result x s with
  | error e =>
    rw [hx] at hb
    cases hb
  | ok a =>
    rw [hx] at hb
    exact h a _ b hb

theorem yields_foldlM {f : β → α → Call σ ε β} (hf : ∀ b a,P b → Yields P (f b a)) (xs : List α) (hb : P b) :
    Yields P (xs.foldlM f b) := by
  induction xs generalizing b with
  | nil => exact yields_pure hb
  | cons a xs ih =>
    rw [List.foldlM_cons]
    intro s c hc
    rw [result_bind] at hc
    cases hx : result (f b a) s with
    | error e =>
      rw [hx] at hc
      cases hc
    | ok b' =>
      rw [hx] at hc
      exact ih (hf b a hb s b' hx) _ c hc

/-- Every state is in the relation to the one that the call leaves. -/
def Keeps (R : σ → σ → Prop) (x : Call σ ε α) : Prop := ∀ s,R s (after x s)

section
variable {R : σ → σ → Prop}

theorem keeps_pure [Std.Refl R] (a : α) : Keeps R (pure a : Call σ ε α) := fun s => refl_of R s

theorem keeps_throw [Std.Refl R] (e : ε) : Keeps R (throw e : Call σ ε α) := fun s => refl_of R s

theorem keeps_modify {f : σ → σ} (h : ∀ s,R s (f s)) : Keeps R (modify f : Call σ ε PUnit) := h

theorem keeps_ofStep {f : σ → σ × Except ε α} (h : ∀ s,R s (f s).1) : Keeps R (ofStep f) := h

/-- What is read of the state may be used for the rest of the call. -/
theorem keeps_get {f : σ → Call σ ε β} (h : ∀ s,R s (after (f s) s)) : Keeps R (get >>= f) := h

variable {f : α → Call σ ε β} {x : Call σ ε α}

theorem keeps_bind_of [IsTrans σ R] {P : α → Prop} (hx : Keeps R x) (hP : Yields P x) (hf : ∀ a,P a → Keeps R (f a)) :
    Keeps R (x >>= f) := by
  intro s
  rw [after_bind]
  cases hr : result x s with
  | error e => exact hx s
  | ok a => exact trans_of R (hx s) (hf a (hP s a hr) (after x s))

theorem keeps_bind [IsTrans σ R] (hx : Keeps R x) (hf : ∀ a,Keeps R (f a)) :
    Keeps R (x >>= f) := keeps_bind_of (P := fun _ => True) hx (fun _ _ _ => trivial) fun a _ => hf a

theorem keeps_tryCatch [IsTrans σ R] {f : ε → Call σ ε α} (hx : Keeps R x) (hf : ∀ e,Keeps R (f e)) :
    Keeps R (tryCatch x f) := by
  intro s
  have hafter : after (tryCatch x f) s =
      match result x s with
      | .ok _ => after x s
      | .error e => after (f e) (after x s) := by
    simp only [after,result,tryCatch,tryCatchThe,MonadExceptOf.tryCatch,ExceptT.tryCatch,ExceptT.mk,bind,StateT.bind]
    obtain ⟨r,s'⟩ := x s
    cases r <;> rfl
  rw [hafter]
  cases result x s with
  | ok a => exact hx s
  | error e => exact trans_of R (hx s) (hf e (after x s))

theorem keeps_foldlM [Std.Refl R] [IsTrans σ R] {f : β → α → Call σ ε β} (hf : ∀ b a,Keeps R (f b a)) (xs : List α)
    (b : β) : Keeps R (xs.foldlM f b) := by
  induction xs generalizing b with
  | nil => exact keeps_pure b
  | cons a xs ih =>
    rw [List.foldlM_cons]
    exact keeps_bind (hf b a) ih

theorem keeps_forM [Std.Refl R] [IsTrans σ R] {f : α → Call σ ε PUnit} {xs : List α} (hf : ∀ a ∈ xs,Keeps R (f a)) :
    Keeps R (xs.forM f) := by
  induction xs with
  | nil => exact keeps_pure PUnit.unit
  | cons a xs ih =>
    show Keeps R (f a >>= fun _ => xs.forM f)
    exact keeps_bind (hf a List.mem_cons_self) fun _ => ih fun b hb => hf b (List.mem_cons_of_mem a hb)

end

end Attempt

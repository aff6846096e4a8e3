import HakoDB.Lib.ByteCodec

/-! The error type and the durability modes that every part of the engine shares. -/
namespace HakoDB

inductive HakoError
  | io (msg : String)
  | lockPoisoned (what : String)
  | storageError (msg : String)
  | queryError (msg : String)
  | indexError (msg : String)
  | corrupt (msg : String)
  | invalidInput (msg : String)
  | conflict (key : String)
  | uniqueViolation (collection index key : String)
  | indexBackfilling (collection index : String)
  | schemaViolation (collection field expected : String)
  | cancelled
  deriving DecidableEq, Repr

/-- A call that gives no value ends with an error or with a panic. -/
inductive Fault
  | error (e : HakoError)
  | panic
  deriving DecidableEq, Repr

abbrev Res := Except Fault

def corrupt {α : Type} (msg : String) : Res α := .error (.error (.corrupt msg))

/-- A checked result: the error is raised when there is no value. -/
def okOr {α : Type} (f : Fault) : Option α → Res α
  | some a => .ok a
  | none => .error f

variable {α ε β : Type} {x : Except ε α} {f : α → Except ε β}

@[simp] theorem okOr_some (f : Fault) (a : α) : okOr f (some a) = .ok a := rfl

theorem bind_eq_ok {b : β} :
    x >>= f = .ok b ↔ ∃ a, x = .ok a ∧ f a = .ok b := by
  cases x with
  | error e => simp [bind,Except.bind]
  | ok a => simp [bind,Except.bind]

theorem bind_eq_error {e : ε} :
    x >>= f = .error e ↔ x = .error e ∨ ∃ a,x = .ok a ∧ f a = .error e := by
  cases x with
  | error e => simp [bind,Except.bind]
  | ok a => simp [bind,Except.bind]

/-- What every step of a loop keeps, a loop that comes to its end keeps. -/
theorem foldlM_invariant {f : α → β → Res α} (P : α → Prop) {xs : List β}
    (hstep : ∀ a x a', x ∈ xs → P a → f a x = .ok a' → P a') {a a' : α} (h : P a) (hok : xs.foldlM f a = .ok a') :
    P a' := by
  induction xs generalizing a with
  | nil =>
    obtain rfl := Except.ok.inj hok
    exact h
  | cons x xs ih =>
    rw [List.foldlM_cons] at hok
    obtain ⟨b,hb,hrest⟩ := bind_eq_ok.1 hok
    exact ih (fun a y a' hy => hstep a y a' (List.mem_cons_of_mem _ hy))
      (hstep a x b List.mem_cons_self h hb) hrest

inductive DurabilityMode
  | always
  | interval
  | manual
  | onCommit
  deriving DecidableEq, Repr

/-- The settings that the modelled parts read. -/
structure HakoConfig where
  durabilityMode : DurabilityMode
  groupCommitMaxOps : ℕ
  groupCommitIntervalMs : ℕ
  walReserveBytes : ℕ
  autoCompactionThresholdBytes : ℕ
  maxInlinedMemoryBytes : ℕ
  valueBlobThresholdBytes : ℕ
  useCompression : Bool
  softDeleteRetentionSecs : UInt64

def HakoConfig.default : HakoConfig where
  durabilityMode := .interval
  groupCommitMaxOps := 128
  groupCommitIntervalMs := 5
  walReserveBytes := 4*1024*1024
  autoCompactionThresholdBytes := 8*1024*1024
  maxInlinedMemoryBytes := 64*1024*1024
  valueBlobThresholdBytes := 16*1024
  useCompression := false
  softDeleteRetentionSecs := 86400

end HakoDB

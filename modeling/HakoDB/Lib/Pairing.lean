import HakoDB.Lib.HashMap

/-! Two tables that are each other's inverse: one from keys to owners, one from owners to their key. -/
namespace HashMap

variable {K D : Type} [DecidableEq K] [DecidableEq D]

def Paired (f : HMap K D) (g : HMap D K) : Prop := ∀ k d,f.lookup k = some d ↔ g.lookup d = some k

namespace Paired
variable {f : HMap K D} {g : HMap D K}

theorem empty : Paired (∅ : HMap K D) (∅ : HMap D K) := by
  intro k d
  simp

theorem erase (h : Paired f g) {k : K} {d : D} (hk : g.lookup d = some k) : Paired (f.erase k) (g.erase d) := by
  intro a b
  rw [lookup_erase_ite,lookup_erase_ite]
  by_cases ha : a = k
  · subst ha
    by_cases hb : b = d
    · simp [hb]
    · -- another owner has another key
      have hne : g.lookup b ≠ some a := by
        intro hgb
        have hfb := (h a b).2 hgb
        rw [(h a d).2 hk] at hfb
        exact hb (Option.some.inj hfb).symm
      simp [hb,hne]
  · by_cases hb : b = d
    · subst hb
      have hne : g.lookup b ≠ some a := by
        rw [hk]
        exact fun heq => ha (Option.some.inj heq).symm
      have hfa : f.lookup a ≠ some b := fun hfa => hne ((h a b).1 hfa)
      simp [ha,hfa]
    · simpa [ha,hb] using h a b

theorem insert (h : Paired f g) {k : K} {d : D} (hk : f.lookup k = none) (hd : g.lookup d = none) :
    Paired (f.insert k d) (g.insert d k) := by
  intro a b
  rw [lookup_insert_ite,lookup_insert_ite]
  by_cases ha : a = k
  · subst ha
    by_cases hb : b = d
    · simp [hb]
    · have hne : g.lookup b ≠ some a := fun hgb => by
        have hfb := (h a b).2 hgb
        rw [hk] at hfb
        cases hfb
      simp [hb,hne,Ne.symm hb]
  · by_cases hb : b = d
    · subst hb
      have hne : f.lookup a ≠ some b := fun hfa => by
        have hga := (h a b).1 hfa
        rw [hd] at hga
        cases hga
      simp [ha,hne,Ne.symm ha]
    · simpa [ha,hb] using h a b

end Paired

end HashMap

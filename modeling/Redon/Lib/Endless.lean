import Mathlib.Order.Monotone.Basic
import Mathlib.Order.WellFounded
import Redon.Lib.Machine

/-!
# Endless runs

A run that goes on for ever, and the rule for what happens only finitely often in it: something that
lowers a well-founded rank, which nothing raises (`IsRun.ends`).
-/

namespace Lib

/-- The states `run` are those of a run by the actions `act`. -/
def IsRun {σ α : Type*} (step : σ → α → Option σ) (run : ℕ → σ) (act : ℕ → α) : Prop :=
  ∀ k, step (run k) (act k) = some (run (k + 1))

namespace IsRun

variable {σ α β : Type*} {step : σ → α → Option σ} {run : ℕ → σ} {act : ℕ → α}

theorem reaches (h : IsRun step run act) : ∀ k, Reaches step (run 0) (run k)
  | 0 => .refl
  | k + 1 => (h.reaches k).tail ⟨act k, h k⟩

/-- The rank rule. -/
theorem ends [Preorder β] [WellFoundedLT β] (h : IsRun step run act) (Inv : σ → Prop)
    (hinv : ∀ k, Inv (run k)) (P : α → Prop) (rank : σ → β)
    (hkeep : ∀ s a s', Inv s → step s a = some s' → rank s' ≤ rank s)
    (hlower : ∀ s a s', Inv s → step s a = some s' → P a → rank s' < rank s) :
    ∃ k, ∀ m ≥ k, ¬ P (act m) := by
  have hanti : Antitone fun k => rank (run k) :=
    antitone_nat_of_succ_le fun k => hkeep _ _ _ (hinv k) (h k)
  -- from any point on: either it does not happen again, or the rank is lower after it
  have hfrom : ∀ b k, rank (run k) = b → ∃ j, ∀ m ≥ j, ¬ P (act m) := by
    intro b
    induction b using WellFoundedLT.induction with
    | ind b ih =>
      rintro k rfl
      by_cases hagain : ∃ m ≥ k, P (act m)
      · obtain ⟨m, hm, hp⟩ := hagain
        exact ih _ ((hlower _ _ _ (hinv m) (h m) hp).trans_le (hanti hm)) (m + 1) rfl
      · exact ⟨k, fun m hm hp => hagain ⟨m, hm, hp⟩⟩
  exact hfrom _ 0 rfl

end IsRun

end Lib

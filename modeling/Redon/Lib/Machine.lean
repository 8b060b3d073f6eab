import Mathlib.Logic.Relation
import Mathlib.Order.Basic

/-!
# Machines

A machine that answers takes an input to an answer and a next state. Two of them whose states stay
related and whose answers agree input by input agree on every list of inputs (`runOut_sim`).

A machine that acts takes an action, if the action is possible, to a next state. What every step
keeps holds of every state reached (`Reaches.inv`), also with a history that steps may extend
(`Reaches.ghost`).
-/

namespace Lib

variable {σ τ ι ο : Type*}

/-- The answers to a list of inputs, and the state after them. -/
def runOut (step : σ → ι → ο × σ) : σ → List ι → List ο × σ
  | s, [] => ([], s)
  | s, i :: is => ((step s i).1 :: (runOut step (step s i).2 is).1, (runOut step (step s i).2 is).2)

theorem runOut_concat (step : σ → ι → ο × σ) : ∀ (is : List ι) (i : ι) (s : σ),
    runOut step s (is ++ [i]) = ((runOut step s is).1 ++ [(step (runOut step s is).2 i).1],
      (step (runOut step s is).2 i).2)
  | [], _, _ => rfl
  | j :: is, i, s => by
    rw [List.cons_append, runOut, runOut_concat step is i]
    rfl

/-- If one step of each machine keeps `R` and gives equal answers, so does every run. -/
theorem runOut_sim {step : σ → ι → ο × σ} {step' : τ → ι → ο × τ} {P : ι → Prop}
    {R : σ → τ → Prop}
    (h : ∀ s t i, R s t → P i → (step s i).1 = (step' t i).1 ∧ R (step s i).2 (step' t i).2) :
    ∀ (is : List ι) {s : σ} {t : τ}, R s t → (∀ i ∈ is, P i) →
      (runOut step s is).1 = (runOut step' t is).1 ∧ R (runOut step s is).2 (runOut step' t is).2
  | [], _, _, hR, _ => ⟨rfl, hR⟩
  | i :: is, s, t, hR, hP => by
    obtain ⟨ha, hs⟩ := h s t i hR (hP i List.mem_cons_self)
    obtain ⟨has, hs'⟩ := runOut_sim h is hs fun i' h' => hP i' (List.mem_cons_of_mem i h')
    exact ⟨by rw [runOut, runOut, ha, has], hs'⟩

section Reach

variable {α γ : Type*} {step : σ → α → Option σ} {s s' : σ}

/-- `s'` is reached from `s` by some actions. -/
def Reaches (step : σ → α → Option σ) : σ → σ → Prop :=
  Relation.ReflTransGen fun s s' => ∃ a, step s a = some s'

/-- The state after a list of actions, if each is possible in turn. -/
def runActs (step : σ → α → Option σ) : σ → List α → Option σ
  | s, [] => some s
  | s, a :: as => (step s a).bind fun s => runActs step s as

theorem reaches_of_runActs : ∀ {as : List α} {s : σ}, runActs step s as = some s' →
    Reaches step s s'
  | [], s, h => by
    rw [runActs, Option.some.injEq] at h
    rw [h]
    exact .refl
  | a :: as, s, h => by
    obtain ⟨s₁, hs, hr⟩ := Option.bind_eq_some_iff.1 h
    exact .head ⟨a, hs⟩ (reaches_of_runActs hr)

theorem runActs_concat : ∀ {as : List α} {a : α} {s s₁ : σ}, runActs step s as = some s₁ →
    runActs step s (as ++ [a]) = step s₁ a
  | [], a, s, s₁, h => by
    obtain rfl := Option.some.inj h
    rw [List.nil_append, runActs]
    exact Option.bind_fun_some _
  | b :: as, a, s, s₁, h => by
    obtain ⟨s₂, hs, hr⟩ := Option.bind_eq_some_iff.1 h
    rw [List.cons_append, runActs, hs]
    exact runActs_concat hr

theorem exists_run (step : σ → α → Option σ) (s : σ) (as : List α) (P : σ → Prop)
    [DecidablePred P] (h : (runActs step s as).any (fun s => decide (P s)) = true) :
    ∃ s', runActs step s as = some s' ∧ P s' := by
  obtain ⟨s', hs', hP⟩ := (Option.any_eq_true _ _).1 h
  exact ⟨s', hs', of_decide_eq_true hP⟩

theorem exists_reaches (step : σ → α → Option σ) (s : σ) (as : List α) (P : σ → Prop)
    [DecidablePred P] (h : (runActs step s as).any (fun s => decide (P s)) = true) :
    ∃ s', Reaches step s s' ∧ P s' := by
  obtain ⟨s', hs', hP⟩ := exists_run step s as P h
  exact ⟨s', reaches_of_runActs hs', hP⟩

/-- The invariant rule. -/
theorem Reaches.inv (Inv : σ → Prop) (h : ∀ s a s', Inv s → step s a = some s' → Inv s')
    (hr : Reaches step s s') (hs : Inv s) : Inv s' := by
  induction hr with
  | refl => exact hs
  | tail _ hstep ih =>
    obtain ⟨a, ha⟩ := hstep
    exact h _ a _ ih ha

/-- The invariant rule with a history. -/
theorem Reaches.ghost [Preorder γ] (Inv : γ → σ → Prop)
    (h : ∀ g s a s', Inv g s → step s a = some s' → ∃ g', g ≤ g' ∧ Inv g' s')
    (hr : Reaches step s s') : ∀ {g : γ}, Inv g s → ∃ g', g ≤ g' ∧ Inv g' s' := by
  induction hr using Relation.ReflTransGen.head_induction_on with
  | refl => exact fun {g} hg => ⟨g, le_rfl, hg⟩
  | head hstep _ ih =>
    intro g hg
    obtain ⟨a, ha⟩ := hstep
    obtain ⟨g₁, hle, hg₁⟩ := h g _ a _ hg ha
    obtain ⟨g₂, hle', hg₂⟩ := ih hg₁
    exact ⟨g₂, hle.trans hle', hg₂⟩

/-- The simulation rule: what each step of one machine comes to is some steps of the other. -/
theorem Reaches.sim {β : Type*} {step' : τ → β → Option τ} (R : σ → τ → Prop)
    (h : ∀ s t a s', R s t → step s a = some s' → ∃ t', Reaches step' t t' ∧ R s' t')
    (hr : Reaches step s s') {t : τ} (ht : R s t) : ∃ t', Reaches step' t t' ∧ R s' t' := by
  induction hr with
  | refl => exact ⟨t, .refl, ht⟩
  | tail _ hstep ih =>
    obtain ⟨a, ha⟩ := hstep
    obtain ⟨t₁, hr₁, hR₁⟩ := ih
    obtain ⟨t₂, hr₂, hR₂⟩ := h _ t₁ a _ hR₁ ha
    exact ⟨t₂, hr₁.trans hr₂, hR₂⟩

theorem reaches_step {a : α} (h : step s a = some s') : Reaches step s s' := .single ⟨a, h⟩

/-- The machine held to the actions that `p` allows. -/
def guarded (p : σ → α → Bool) (step : σ → α → Option σ) (s : σ) (a : α) : Option σ :=
  if p s a then step s a else none

theorem guarded_eq_some {p : σ → α → Bool} {a : α} :
    guarded p step s a = some s' ↔ p s a = true ∧ step s a = some s' := by
  unfold guarded
  split_ifs with h
  · rw [and_iff_right h]
  · exact ⟨nofun, fun hp => absurd hp.1 h⟩

/-- Every step of the run that the actions `as` make has the property `Q`. -/
def AllSteps (step : σ → α → Option σ) (Q : σ → α → σ → Prop) : σ → List α → Prop
  | _, [] => True
  | s, a :: as => ∀ s', step s a = some s' → Q s a s' ∧ AllSteps step Q s' as

theorem allSteps_of_forall {Q : σ → α → σ → Prop} : ∀ {as : List α} {s : σ},
    (∀ a ∈ as, ∀ s s', Q s a s') → AllSteps step Q s as
  | [], _, _ => trivial
  | a :: _, s, h => fun s' _ => ⟨h a List.mem_cons_self s s',
      allSteps_of_forall fun b hb => h b (List.mem_cons_of_mem a hb)⟩

theorem allSteps_congr {Q R : σ → α → σ → Prop} (Inv : σ → Prop)
    (hinv : ∀ s a s', Inv s → step s a = some s' → Inv s')
    (h : ∀ s a s', Inv s → step s a = some s' → (Q s a s' ↔ R s a s')) :
    ∀ (as : List α) {s : σ}, Inv s → (AllSteps step Q s as ↔ AllSteps step R s as)
  | [], _, _ => Iff.rfl
  | a :: as, s, hs => by
    refine forall_congr' fun s' => forall_congr' fun hstep => ?_
    exact and_congr (h s a s' hs hstep) (allSteps_congr Inv hinv h as (hinv s a s' hs hstep))

/-- A property that a step keeps exactly if `Q` holds of the step: after a run it holds exactly if
it did before and `Q` held of every step. -/
theorem allSteps_iff {P : σ → Prop} {Q : σ → α → σ → Prop} (Inv : σ → Prop)
    (hinv : ∀ s a s', Inv s → step s a = some s' → Inv s')
    (h : ∀ s a s', Inv s → step s a = some s' → (P s' ↔ P s ∧ Q s a s')) :
    ∀ (as : List α) {s s' : σ}, Inv s → runActs step s as = some s' →
      (P s' ↔ P s ∧ AllSteps step Q s as)
  | [], s, s', _, hr => by
    obtain rfl := Option.some.inj hr
    exact (and_iff_left trivial).symm
  | a :: as, s, s', hs, hr => by
    obtain ⟨s₁, hstep, hr⟩ := Option.bind_eq_some_iff.1 hr
    rw [allSteps_iff Inv hinv h as (hinv s a s₁ hs hstep) hr, h s a s₁ hs hstep, and_assoc]
    refine and_congr_right fun _ => ?_
    rw [AllSteps]
    constructor
    · intro hq s₂ hs₂
      rw [hstep] at hs₂
      obtain rfl := Option.some.inj hs₂
      exact hq
    · exact fun hq => hq s₁ hstep

end Reach

end Lib

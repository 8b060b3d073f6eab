import Mathlib.Data.Finset.Card
import Mathlib.Data.Fintype.Card

/-!
# Votes and quorums

A ballot box holds votes `(voter, term, candidate)`. If no voter votes for two candidates in one
term, no term has two candidates with more than half of the voters behind them
(`elected_unique`).
-/

namespace Lib

variable {V T C : Type*}

/-- No voter has voted for two candidates in one term. -/
def VotesOnce (G : Set (V × T × C)) : Prop :=
  ∀ v t a b, (v, t, a) ∈ G → (v, t, b) ∈ G → a = b

/-- More than half of the voters have voted for `a` in `t`. -/
def Elected [Fintype V] (G : Set (V × T × C)) (t : T) (a : C) : Prop :=
  ∃ Q : Finset V, Fintype.card V < 2 * Q.card ∧ ∀ v ∈ Q, (v, t, a) ∈ G

variable {G G' : Set (V × T × C)} {t : T} {a b : C}

theorem Elected.mono [Fintype V] (h : Elected G t a) (hG : G ⊆ G') : Elected G' t a := by
  obtain ⟨Q, hQ, hv⟩ := h
  exact ⟨Q, hQ, fun v hm => hG (hv v hm)⟩

theorem elected_unique [Fintype V] [DecidableEq V] (h : VotesOnce G) (ha : Elected G t a)
    (hb : Elected G t b) : a = b := by
  obtain ⟨Q, hQ, hva⟩ := ha
  obtain ⟨R, hR, hvb⟩ := hb
  -- two majorities share a voter
  have hint : (Q ∩ R).Nonempty := Finset.inter_nonempty_of_card_lt_card_add_card
    (Finset.subset_univ Q) (Finset.subset_univ R) (by rw [Finset.card_univ]; omega)
  obtain ⟨v, hv⟩ := hint
  rw [Finset.mem_inter] at hv
  exact h v t a b (hva v hv.1) (hvb v hv.2)

theorem VotesOnce.insert (h : VotesOnce G) {v : V} (hnew : ∀ b, (v, t, b) ∈ G → b = a) :
    VotesOnce (insert (v, t, a) G) := by
  intro v' t' b c hb hc
  rcases hb with hb | hb <;> rcases hc with hc | hc
  · simp only [Prod.mk.injEq] at hb hc
    rw [hb.2.2, hc.2.2]
  · simp only [Prod.mk.injEq] at hb
    obtain ⟨rfl, rfl, rfl⟩ := hb
    exact (hnew c hc).symm
  · simp only [Prod.mk.injEq] at hc
    obtain ⟨rfl, rfl, rfl⟩ := hc
    exact hnew b hb
  · exact h v' t' b c hb hc

end Lib

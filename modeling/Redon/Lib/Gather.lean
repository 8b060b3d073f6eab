import Mathlib.Data.List.Infix

/-!
# Receiving until there is enough

A loop receives chunks into a buffer until the buffer is enough. It also ends when no chunk comes
any more, or when a chunk takes the buffer over a cap. So it ends at the first boundary between two
chunks at which there is enough or too much, or at the last one (`gather_split`, `gather_stops`).
-/

namespace Lib

inductive Ended where
  | enough
  | closed
  | tooMuch
  deriving DecidableEq, Repr

variable {α : Type*} (enough : List α → Bool) (cap : ℕ)

/-- How the loop ends, its buffer, and the chunks that are not received. -/
def gather : List α → List (List α) → Ended × List α × List (List α)
  | buf, [] => (if enough buf then .enough else .closed, buf, [])
  | buf, chunk :: chunks =>
    if enough buf then (.enough, buf, chunk :: chunks)
    else if cap < (buf ++ chunk).length then (.tooMuch, buf ++ chunk, chunks)
    else gather (buf ++ chunk) chunks

/-- The loop goes on at every boundary before the last of `pre`, and ends there. -/
structure Stops (buf : List α) (pre rest : List (List α)) (e : Ended) : Prop where
  before : ∀ q, q <+: pre → q ≠ pre →
    enough (buf ++ q.flatten) = false ∧ (buf ++ q.flatten).length ≤ cap
  last : match e with
    | .enough => enough (buf ++ pre.flatten) = true ∧ (buf ++ pre.flatten).length ≤ cap
    | .closed => enough (buf ++ pre.flatten) = false ∧ (buf ++ pre.flatten).length ≤ cap ∧ rest = []
    | .tooMuch => cap < (buf ++ pre.flatten).length

variable {enough cap} {buf b chunk : List α} {chunks pre rest : List (List α)} {e : Ended}

theorem Stops.nil (h : Stops enough cap buf [] rest e) (hbuf : buf.length ≤ cap) :
    gather enough cap buf rest = (e, buf, rest) := by
  have hlast := h.last
  rw [List.flatten_nil, List.append_nil] at hlast
  cases e with
  | enough => cases rest <;> simp [gather, hlast.1]
  | closed =>
    obtain ⟨henough, -, rfl⟩ := hlast
    simp [gather, henough]
  | tooMuch => omega

/-- One chunk earlier. -/
theorem stops_cons : Stops enough cap buf (chunk :: pre) rest e ↔
    (enough buf = false ∧ buf.length ≤ cap) ∧ Stops enough cap (buf ++ chunk) pre rest e := by
  constructor
  · intro h
    refine ⟨by simpa using h.before [] List.nil_prefix (by simp), fun q hq hne => ?_, ?_⟩
    · simpa using h.before (chunk :: q) ((List.prefix_cons_inj chunk).2 hq) (by simpa using hne)
    · simpa using h.last
  · rintro ⟨hbuf, h⟩
    refine ⟨fun q hq hne => ?_, by simpa using h.last⟩
    rcases q with _ | ⟨c, q⟩
    · simpa using hbuf
    · obtain ⟨rfl, hpre⟩ := List.cons_prefix_cons.1 hq
      simpa using h.before q hpre (by simpa using hne)

/-- The loop is at the end of `pre` where it stops. -/
theorem gather_stops : ∀ {pre : List (List α)} {buf : List α}, buf.length ≤ cap →
    Stops enough cap buf pre rest e →
    gather enough cap buf (pre ++ rest) = (e, buf ++ pre.flatten, rest)
  | [], buf, hbuf, h => by simpa using h.nil hbuf
  | chunk :: pre, buf, hbuf, h => by
    obtain ⟨⟨henough, -⟩, h⟩ := stops_cons.1 h
    rw [List.cons_append, gather, henough, if_neg Bool.false_ne_true, List.flatten_cons,
      ← List.append_assoc]
    split_ifs with hcap
    · -- over the cap no further boundary is reached
      rcases pre with _ | ⟨c, pre⟩
      · have hlast := h.last
        rw [List.flatten_nil, List.append_nil] at hlast
        cases e with
        | enough => exact absurd hcap (Nat.not_lt.2 hlast.2)
        | closed => exact absurd hcap (Nat.not_lt.2 hlast.2.1)
        | tooMuch => simp
      · exact absurd hcap (Nat.not_lt.2 (stops_cons.1 h).1.2)
    · exact gather_stops (by omega) h

/-- The loop stops somewhere. -/
theorem gather_split : ∀ {chunks : List (List α)} {buf : List α}, buf.length ≤ cap →
    gather enough cap buf chunks = (e, b, rest) →
    ∃ pre, chunks = pre ++ rest ∧ b = buf ++ pre.flatten ∧ Stops enough cap buf pre rest e
  | [], buf, hbuf, h => by
    simp only [gather, Prod.mk.injEq] at h
    obtain ⟨rfl, rfl, rfl⟩ := h
    refine ⟨[], rfl, by simp, fun q hq hne => absurd (List.prefix_nil.1 hq) hne, ?_⟩
    cases henough : enough buf <;> simp [henough, hbuf]
  | chunk :: chunks, buf, hbuf, h => by
    rw [gather] at h
    split_ifs at h with henough hcap
    · simp only [Prod.mk.injEq] at h
      obtain ⟨rfl, rfl, rfl⟩ := h
      exact ⟨[], rfl, by simp, fun q hq hne => absurd (List.prefix_nil.1 hq) hne,
        by simpa [henough] using hbuf⟩
    · simp only [Prod.mk.injEq] at h
      obtain ⟨rfl, rfl, rfl⟩ := h
      refine ⟨[chunk], rfl, by simp, stops_cons.2 ⟨⟨by simpa using henough, hbuf⟩,
        fun q hq hne => absurd (List.prefix_nil.1 hq) hne, by simpa using hcap⟩⟩
    · obtain ⟨pre, rfl, rfl, hstops⟩ := gather_split (by omega) h
      exact ⟨chunk :: pre, rfl, by simp, stops_cons.2 ⟨⟨by simpa using henough, hbuf⟩, hstops⟩⟩

end Lib

import Redon.Lib.Text

/-!
# Files that only grow

A file open for appending, on a disk that may stop taking writes: after some number of further
appends one fails, leaving part of its bytes behind, and so does every append after it. The bytes of
the append that failed stay in the stream's buffer, and closing the file tries to write them again.
-/

namespace Lib

/-- A file open for appending. -/
structure AppendFile where
  bytes : Bytes
  /-- How many more appends succeed, and how many bytes of the first that fails reach the file;
  `none` if all succeed. -/
  fault : Option (ℕ × ℕ)
  /-- What an append that failed left in the buffer. -/
  pending : Bytes := []
  deriving DecidableEq, Repr

namespace AppendFile

/-- Appends `b`. A failing append leaves a strict prefix of `b`. -/
def append (f : AppendFile) (b : Bytes) : Bool × AppendFile :=
  match f.fault with
  | none => (true, { f with bytes := f.bytes ++ b })
  | some (n + 1, m) => (true, { f with bytes := f.bytes ++ b, fault := some (n, m) })
  | some (0, m) =>
    (false,
      { bytes := f.bytes ++ b.take (min m (b.length - 1)), fault := some (0, 0), pending := b })

/-- Closing writes what is in the buffer, as far as the disk takes it. -/
def close (f : AppendFile) : AppendFile :=
  { f with bytes := (f.append f.pending).2.bytes, pending := [] }

variable {f : AppendFile} {b : Bytes}

theorem append_true (h : (f.append b).1 = true) : (f.append b).2.bytes = f.bytes ++ b := by
  unfold append at h ⊢
  split <;> simp_all

theorem append_false (h : (f.append b).1 = false) (hb : b ≠ []) :
    ∃ t, t <+: b ∧ t ≠ b ∧ (f.append b).2.bytes = f.bytes ++ t := by
  unfold append at h ⊢
  split at h
  · cases h
  · cases h
  · rename_i m hf
    refine ⟨_, List.take_prefix _ _, fun he => ?_, rfl⟩
    have hl := congrArg List.length he
    have hpos := List.length_pos_iff.2 hb
    rw [List.length_take] at hl
    omega

/-- Only an append that fails leaves something in the buffer. -/
theorem append_pending (f : AppendFile) (b : Bytes) :
    (f.append b).2.pending = if (f.append b).1 then f.pending else b := by
  unfold append
  split <;> rfl

theorem close_of_nil (h : f.pending = []) : f.close = f := by
  have hb : (f.append []).2.bytes = f.bytes := by
    unfold append
    split <;> simp
  unfold close
  rw [h, hb, ← h]

/-- What closing writes is a beginning of what is in the buffer. -/
theorem close_bytes (f : AppendFile) : ∃ t, t <+: f.pending ∧ f.close.bytes = f.bytes ++ t := by
  by_cases hp : f.pending = []
  · exact ⟨[], List.nil_prefix, by rw [close_of_nil hp, List.append_nil]⟩
  · rcases hw : (f.append f.pending).1 with _ | _
    · obtain ⟨t, hpre, -, hb⟩ := append_false hw hp
      exact ⟨t, hpre, hb⟩
    · exact ⟨_, List.prefix_rfl, append_true hw⟩

@[simp] theorem append_of_none (h : f.fault = none) :
    f.append b = (true, { f with bytes := f.bytes ++ b }) := by
  unfold append
  rw [h]

end AppendFile

end Lib

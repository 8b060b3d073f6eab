import Redon.Lib.Text

/-!
# Reading a line

A reader takes one byte after another up to a newline, drops one carriage return in front of it, and
gives up when the line gets longer than a limit. It gives a line exactly if a newline comes within
the limit (`readLine_eq_some`).
-/

namespace Lib

/-- Without one carriage return at the end. -/
def dropCr (line : Bytes) : Bytes := if line.getLast? = some 13 then line.dropLast else line

/-- The line a text starts with, where `line` was read before. -/
def readLine (limit : ℕ) : Bytes → Bytes → Option Bytes
  | _, [] => none
  | line, c :: rest =>
    if c = 10 then some (dropCr line)
    else if limit < (line ++ [c]).length then none
    else readLine limit (line ++ [c]) rest

variable {limit : ℕ} {line reply text : Bytes}

theorem dropCr_of_ne (h : line.getLast? ≠ some 13) : dropCr line = line := if_neg h

theorem dropCr_of_notMem (h : 13 ∉ line) : dropCr line = line :=
  dropCr_of_ne fun he => h (List.mem_of_getLast? he)

@[simp] theorem dropCr_concat (line : Bytes) : dropCr (line ++ [13]) = line := by
  rw [dropCr, if_pos List.getLast?_concat, List.dropLast_concat]

theorem dropCr_front (line : Bytes) : dropCr line <+: line := by
  unfold dropCr
  split_ifs
  · exact List.dropLast_prefix line
  · exact List.prefix_rfl

/-- What a line begins with is still there, unless it ends in the carriage return. -/
theorem prefix_dropCr {p : Bytes} (h : p <+: line) (hp : p.getLast? ≠ some 13) :
    p <+: dropCr line := by
  obtain ⟨t, rfl⟩ := h
  rcases List.eq_nil_or_concat t with rfl | ⟨t, b, rfl⟩
  · rw [List.append_nil, dropCr_of_ne hp]
  · unfold dropCr
    split_ifs
    · rw [List.concat_eq_append, ← List.append_assoc, List.dropLast_concat]
      exact List.prefix_append _ _
    · exact List.prefix_append _ _

/-- The line in front of a newline, if it is not too long. -/
theorem readLine_line : ∀ {t line : Bytes}, 10 ∉ t → line.length ≤ limit → ∀ m,
    readLine limit line (t ++ 10 :: m)
      = if (line ++ t).length ≤ limit then some (dropCr (line ++ t)) else none
  | [], line, _, hline, m => by simp [readLine, hline]
  | c :: t, line, ht, hline, m => by
    rw [List.mem_cons, not_or] at ht
    have hsplit : line ++ c :: t = (line ++ [c]) ++ t := by simp
    rw [List.cons_append, readLine, if_neg (Ne.symm ht.1), hsplit]
    by_cases hlong : limit < (line ++ [c]).length
    · have hlong' : ¬ (line ++ [c] ++ t).length ≤ limit := by
        rw [List.length_append]
        omega
      rw [if_pos hlong, if_neg hlong']
    · rw [if_neg hlong]
      exact readLine_line ht.2 (not_lt.1 hlong) m

theorem readLine_of_notMem : ∀ {text line : Bytes}, 10 ∉ text → readLine limit line text = none
  | [], _, _ => rfl
  | c :: text, line, h => by
    rw [List.mem_cons, not_or] at h
    rw [readLine, if_neg (Ne.symm h.1), readLine_of_notMem h.2, ite_self]

theorem readLine_eq_some : readLine limit [] text = some reply ↔
    ∃ t m, text = t ++ 10 :: m ∧ 10 ∉ t ∧ t.length ≤ limit ∧ reply = dropCr t := by
  constructor
  · intro h
    by_cases hmem : 10 ∈ text
    · obtain ⟨t, m, rfl, ht⟩ := List.eq_append_cons_of_mem hmem
      rw [readLine_line ht (Nat.zero_le _), List.nil_append] at h
      obtain ⟨hlen, hreply⟩ := Option.ite_none_right_eq_some.1 h
      exact ⟨t, m, rfl, ht, hlen, (Option.some.inj hreply).symm⟩
    · rw [readLine_of_notMem hmem] at h
      cases h
  · rintro ⟨t, m, rfl, ht, hlen, rfl⟩
    rw [readLine_line ht (Nat.zero_le _), List.nil_append, if_pos hlen]

end Lib

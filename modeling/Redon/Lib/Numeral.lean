import Redon.Lib.Text

/-!
# Texts that are numbers

`parseInt` reads a number from the front of a text and says nothing of the rest. A text of which it
reads every byte is a numeral: white space, a sign or none, and digits (`parseInt_whole`).
-/

namespace Lib

/-- Whether a text starts with a minus, and what stands behind its sign. -/
def splitSign : Bytes → Bool × Bytes
  | 45 :: rest => (true, rest)
  | 43 :: rest => (false, rest)
  | text => (false, text)

/-- The number of bytes that `parseInt` reads. -/
def consumed (text : Bytes) : ℕ :=
  text.length - ((splitSign (text.dropWhile isBlank)).2.dropWhile isDigit).length

/-- The text is `n`, perhaps behind white space, with a sign or leading zeros. -/
def Numeral (text : Bytes) (n : ℤ) : Prop :=
  ∃ blanks sign ds : Bytes, text = blanks ++ (sign ++ ds) ∧ (∀ c ∈ blanks, isBlank c = true)
    ∧ ds ≠ [] ∧ (∀ c ∈ ds, isDigit c = true)
    ∧ ((sign = [] ∨ sign = [43]) ∧ n = decimalValue ds ∨ sign = [45] ∧ n = -decimalValue ds)

variable {lo hi n : ℤ} {text : Bytes}

theorem parseInt_eq (lo hi : ℤ) (text : Bytes) : parseInt lo hi text =
    (let (minus, body) := splitSign (text.dropWhile isBlank)
      let ds := body.takeWhile isDigit
      let value : ℤ := if minus then -decimalValue ds else decimalValue ds
      if ds.isEmpty || decide (value < lo) || decide (hi < value) then none else some value) := by
  unfold parseInt
  generalize text.dropWhile isBlank = body
  dsimp only
  split
  · rfl
  · rfl
  · rename_i hminus hplus
    have hsplit : splitSign body = (false, body) := by
      unfold splitSign
      split
      · exact absurd rfl (hminus _)
      · exact absurd rfl (hplus _)
      · rfl
    rw [hsplit]

theorem splitSign_spec (text : Bytes) : ∃ sign, text = sign ++ (splitSign text).2
    ∧ ((sign = [] ∨ sign = [43]) ∧ (splitSign text).1 = false
      ∨ sign = [45] ∧ (splitSign text).1 = true) := by
  unfold splitSign
  split
  · exact ⟨[45], rfl, .inr ⟨rfl, rfl⟩⟩
  · exact ⟨[43], rfl, .inl ⟨.inr rfl, rfl⟩⟩
  · exact ⟨[], rfl, .inl ⟨.inl rfl, rfl⟩⟩

/-- Every byte is read if nothing is left behind the digits. -/
theorem consumed_eq_length : consumed text = text.length
    ↔ ∀ c ∈ (splitSign (text.dropWhile isBlank)).2, isDigit c = true := by
  have hle : ((splitSign (text.dropWhile isBlank)).2.dropWhile isDigit).length ≤ text.length := by
    obtain ⟨sign, he, -⟩ := splitSign_spec (text.dropWhile isBlank)
    have h₁ := congrArg List.length he
    have h₂ := (List.dropWhile_suffix isBlank (l := text)).length_le
    have h₃ := (List.dropWhile_suffix isDigit
      (l := (splitSign (text.dropWhile isBlank)).2)).length_le
    rw [List.length_append] at h₁
    omega
  rw [← List.dropWhile_eq_nil_iff, ← List.length_eq_zero_iff, consumed]
  omega

theorem splitSign_digits {ds : Bytes} (hne : ds ≠ []) (hds : ∀ c ∈ ds, isDigit c = true) :
    splitSign ds = (false, ds) := by
  obtain ⟨c, ds, rfl⟩ := List.exists_cons_of_ne_nil hne
  have hc := hds c List.mem_cons_self
  unfold splitSign
  split
  · rename_i heq
    rw [(List.cons.inj heq).1] at hc
    cases hc
  · rename_i heq
    rw [(List.cons.inj heq).1] at hc
    cases hc
  · rfl

/-- The texts that `parseInt` reads to the end, and what it makes of them. -/
theorem parseInt_whole : parseInt lo hi text = some n ∧ consumed text = text.length
    ↔ Numeral text n ∧ lo ≤ n ∧ n ≤ hi := by
  rw [consumed_eq_length, parseInt_eq]
  constructor
  · rintro ⟨hparse, hds⟩
    obtain ⟨sign, he, hsign⟩ := splitSign_spec (text.dropWhile isBlank)
    simp only [List.takeWhile_eq_self_iff.2 hds, Option.ite_none_left_eq_some, Bool.or_eq_true,
      decide_eq_true_eq, not_or, List.isEmpty_iff, Option.some.injEq] at hparse
    obtain ⟨⟨⟨hne, hlo⟩, hhi⟩, hn⟩ := hparse
    rw [hn] at hlo hhi
    refine ⟨⟨text.takeWhile isBlank, sign, _, ?_, fun c hc => List.mem_takeWhile_imp hc, hne, hds,
      ?_⟩, by omega, by omega⟩
    · rw [← he, List.takeWhile_append_dropWhile]
    · rcases hsign with ⟨hs, hm⟩ | ⟨hs, hm⟩ <;> rw [hm] at hn
      · exact .inl ⟨hs, hn.symm⟩
      · exact .inr ⟨hs, hn.symm⟩
  · rintro ⟨⟨blanks, sign, ds, rfl, hblanks, hne, hds, hsign⟩, hlo, hhi⟩
    have hsplit : ∃ minus, splitSign (sign ++ ds) = (minus, ds)
        ∧ n = if minus then -(decimalValue ds : ℤ) else decimalValue ds := by
      rcases hsign with ⟨rfl | rfl, hn⟩ | ⟨rfl, hn⟩
      · exact ⟨false, splitSign_digits hne hds, hn⟩
      · exact ⟨false, rfl, hn⟩
      · exact ⟨true, rfl, hn⟩
    have hdrop : (blanks ++ (sign ++ ds)).dropWhile isBlank = sign ++ ds := by
      rw [List.dropWhile_append_of_pos hblanks]
      rcases hsign with ⟨rfl | rfl, -⟩ | ⟨rfl, -⟩
      · obtain ⟨c, ds, rfl⟩ := List.exists_cons_of_ne_nil hne
        refine List.dropWhile_cons_of_neg ?_
        rw [not_isBlank_of_isDigit (hds c List.mem_cons_self)]
        exact Bool.false_ne_true
      · rfl
      · rfl
    obtain ⟨minus, hsplit, hn⟩ := hsplit
    simp only [hdrop, hsplit, List.takeWhile_eq_self_iff.2 hds, ← hn]
    refine ⟨if_neg ?_, hds⟩
    simp only [Bool.or_eq_true, decide_eq_true_eq, not_or, not_lt, List.isEmpty_iff]
    exact ⟨⟨hne, hlo⟩, hhi⟩

/-- A number is read back from its digits, with white space in front of them. -/
theorem numeral_decimal {blanks : Bytes} (hb : ∀ c ∈ blanks, isBlank c = true) (n : ℕ) :
    Numeral (blanks ++ decimal n) n :=
  ⟨blanks, [], decimal n, rfl, hb, decimal_ne_nil n, fun _ hc => isDigit_of_mem_decimal hc,
    .inl ⟨.inl rfl, by rw [decimalValue_decimal]⟩⟩

end Lib

import Mathlib.Data.List.TakeWhile
import Mathlib.Data.Nat.Digits.Lemmas

/-!
# Byte strings

Strings are lists of bytes. A number is printed in decimal without leading zeros, and a string of
digits is read back by its value (`decimalValue_decimal`).
-/

namespace Lib

abbrev Bytes := List UInt8

/-- The bytes of an ASCII text. -/
def ascii (s : String) : Bytes := s.toList.map fun c => UInt8.ofNat c.toNat

/-- White space in the classic locale. -/
def isBlank (c : UInt8) : Bool :=
  c == 32 || c == 9 || c == 10 || c == 11 || c == 12 || c == 13

def isDigit (c : UInt8) : Bool := 48 ≤ c && c ≤ 57

def digitChar (d : ℕ) : UInt8 := UInt8.ofNat (48 + d)

/-- `n` in decimal, without leading zeros. -/
def decimal (n : ℕ) : Bytes :=
  if n = 0 then [48] else ((Nat.digits 10 n).map digitChar).reverse

/-- The value of a string of digits, most significant first. -/
def decimalValue (ds : Bytes) : ℕ := ds.foldl (fun n c => 10 * n + (c.toNat - 48)) 0

def decimalInt : ℤ → Bytes
  | .ofNat n => decimal n
  | .negSucc n => 45 :: decimal (n + 1)

/-- The integer a text starts with, after white space and a sign; none if there is no digit or the
value is outside `lo` to `hi`. What follows the digits is ignored. -/
def parseInt (lo hi : ℤ) (text : Bytes) : Option ℤ :=
  let text := text.dropWhile isBlank
  let (minus, text) := match text with
    | 45 :: rest => (true, rest)
    | 43 :: rest => (false, rest)
    | _ => (false, text)
  let ds := text.takeWhile isDigit
  let value : ℤ := if minus then -decimalValue ds else decimalValue ds
  if ds.isEmpty || decide (value < lo) || decide (hi < value) then none else some value

/-- `std::stol`, for a 64-bit `long`. -/
def stol (text : Bytes) : Option ℤ := parseInt (-2 ^ 63) (2 ^ 63 - 1) text

/-- `std::stoll`, for a 64-bit `long long`. -/
def stoll (text : Bytes) : Option ℤ := parseInt (-2 ^ 63) (2 ^ 63 - 1) text

/-- `std::stoi`, for a 32-bit `int`. -/
def stoi (text : Bytes) : Option ℤ := parseInt (-2 ^ 31) (2 ^ 31 - 1) text

/-- The value of a 64-bit `long` that is given `n`, overflow wrapping around. -/
def toLong (n : ℤ) : ℤ := n.bmod (2 ^ 64)

/-- The values of a 64-bit `long`. -/
def InLong (n : ℤ) : Prop := -2 ^ 63 ≤ n ∧ n ≤ 2 ^ 63 - 1

instance : DecidablePred InLong := fun _ => instDecidableAnd

theorem toLong_eq {n : ℤ} (h : InLong n) : toLong n = n := by
  obtain ⟨hlo, hhi⟩ := h
  exact Int.bmod_eq_of_le (by omega) (by omega)

theorem toLong_max : toLong (2 ^ 63 - 1 + 1) = -2 ^ 63 := by decide

theorem inLong_of_stol {text : Bytes} {n : ℤ} (h : stol text = some n) : InLong n := by
  unfold stol parseInt at h
  simp only [Option.ite_none_left_eq_some, Bool.or_eq_true, decide_eq_true_eq, not_or] at h
  obtain ⟨⟨⟨-, hlo⟩, hhi⟩, he⟩ := h
  rw [Option.some.injEq] at he
  constructor <;> omega

/-! ## Digits -/

theorem digitChar_toNat {d : ℕ} (h : d < 10) : (digitChar d).toNat = 48 + d := by
  unfold digitChar
  rw [UInt8.toNat_ofNat']
  omega

theorem isDigit_digitChar {d : ℕ} (h : d < 10) : isDigit (digitChar d) = true := by
  simp only [isDigit, Bool.and_eq_true, decide_eq_true_eq, UInt8.le_iff_toNat_le,
    digitChar_toNat h]
  constructor
  · exact Nat.le_add_right 48 d
  · change 48 + d ≤ 57
    omega

theorem not_isBlank_of_isDigit {c : UInt8} (h : isDigit c = true) : isBlank c = false := by
  simp only [isDigit, Bool.and_eq_true, decide_eq_true_eq, UInt8.le_iff_toNat_le] at h
  have h48 : 48 ≤ c.toNat := h.1
  simp only [isBlank, Bool.or_eq_false_iff, beq_eq_false_iff_ne, ne_eq]
  refine ⟨⟨⟨⟨⟨?_, ?_⟩, ?_⟩, ?_⟩, ?_⟩, ?_⟩ <;> rintro rfl <;> exact absurd h48 (by decide)

/-! ## Decimal numbers -/

theorem decimal_ne_nil (n : ℕ) : decimal n ≠ [] := by
  unfold decimal
  split_ifs with h
  · exact List.cons_ne_nil _ _
  · simpa [Nat.digits_eq_nil_iff_eq_zero] using h

theorem length_digits_le : ∀ n : ℕ, (Nat.digits 10 n).length ≤ n
  | 0 => by simp
  | n + 1 => by
    rw [Nat.digits_def' (by norm_num) n.add_one_pos, List.length_cons]
    have := length_digits_le ((n + 1) / 10)
    omega

theorem length_decimal_le (n : ℕ) : (decimal n).length ≤ n + 1 := by
  unfold decimal
  split_ifs with h
  · exact Nat.le_add_left 1 n
  · rw [List.length_reverse, List.length_map]
    exact Nat.le_succ_of_le (length_digits_le n)

theorem isDigit_of_mem_decimal {n : ℕ} {c : UInt8} (h : c ∈ decimal n) : isDigit c = true := by
  unfold decimal at h
  split_ifs at h
  · rw [List.mem_singleton] at h
    subst h
    decide
  · rw [List.mem_reverse, List.mem_map] at h
    obtain ⟨d, hd, rfl⟩ := h
    exact isDigit_digitChar (Nat.digits_lt_base (by norm_num) hd)

theorem decimalValue_append (ds : Bytes) (c : UInt8) :
    decimalValue (ds ++ [c]) = 10 * decimalValue ds + (c.toNat - 48) := by
  simp [decimalValue]

theorem decimalValue_reverse_map : ∀ {ds : List ℕ}, (∀ d ∈ ds, d < 10) →
    decimalValue (ds.map digitChar).reverse = Nat.ofDigits 10 ds
  | [], _ => rfl
  | d :: ds, h => by
    rw [List.map_cons, List.reverse_cons, decimalValue_append,
      decimalValue_reverse_map fun e he => h e (List.mem_cons_of_mem d he),
      digitChar_toNat (h d List.mem_cons_self), Nat.ofDigits_cons]
    omega

theorem decimalValue_decimal (n : ℕ) : decimalValue (decimal n) = n := by
  unfold decimal
  split_ifs with h
  · rw [h]
    decide
  · rw [decimalValue_reverse_map fun d hd => Nat.digits_lt_base (by norm_num) hd]
    exact Nat.ofDigits_digits 10 n

theorem length_decimal_of_lt {n k : ℕ} (hk : 0 < k) (h : n < 10 ^ k) : (decimal n).length ≤ k := by
  unfold decimal
  split_ifs
  · exact hk
  · rw [List.length_reverse, List.length_map]
    exact (Nat.digits_length_le_iff (by norm_num) n).2 h

/-! ## Integers -/

theorem parseInt_digits (lo hi : ℤ) {ds : Bytes} (hne : ds ≠ [])
    (hds : ∀ c ∈ ds, isDigit c = true) (hlo : lo ≤ decimalValue ds) (hhi : decimalValue ds ≤ hi) :
    parseInt lo hi ds = some (decimalValue ds : ℤ) := by
  have htake := List.takeWhile_eq_self_iff.2 hds
  obtain ⟨c, ds, rfl⟩ := List.exists_cons_of_ne_nil hne
  have hc := hds c List.mem_cons_self
  have hdrop : (c :: ds).dropWhile isBlank = c :: ds :=
    List.dropWhile_cons_of_neg (by rw [not_isBlank_of_isDigit hc]; exact Bool.false_ne_true)
  have hin : ¬ ((c :: ds).isEmpty || decide ((decimalValue (c :: ds) : ℤ) < lo)
      || decide (hi < decimalValue (c :: ds))) = true := by
    simp only [List.isEmpty_cons, Bool.false_or, Bool.or_eq_true, decide_eq_true_eq, not_or, not_lt]
    exact ⟨hlo, hhi⟩
  unfold parseInt
  simp only [hdrop]
  -- a digit is neither sign
  split
  · rename_i heq
    rw [(List.cons.inj heq).1] at hc
    cases hc
  · rename_i heq
    rw [(List.cons.inj heq).1] at hc
    cases hc
  · simp only [htake, Bool.false_eq_true, if_false]
    rw [if_neg hin]

theorem parseInt_minus (lo hi : ℤ) {ds : Bytes} (hne : ds ≠ [])
    (hds : ∀ c ∈ ds, isDigit c = true) (hlo : lo ≤ -decimalValue ds)
    (hhi : -decimalValue ds ≤ hi) : parseInt lo hi (45 :: ds) = some (-(decimalValue ds : ℤ)) := by
  have hin : ¬ (ds.isEmpty || decide (-(decimalValue ds : ℤ) < lo)
      || decide (hi < -(decimalValue ds : ℤ))) = true := by
    simp only [Bool.or_eq_true, decide_eq_true_eq, not_or, not_lt, List.isEmpty_iff]
    exact ⟨⟨hne, hlo⟩, hhi⟩
  have hdrop : (45 :: ds).dropWhile isBlank = 45 :: ds := rfl
  unfold parseInt
  simp only [hdrop, List.takeWhile_eq_self_iff.2 hds, if_true]
  rw [if_neg hin]

/-- An integer in range is read back from its text. -/
theorem parseInt_decimalInt {lo hi n : ℤ} (hlo : lo ≤ n) (hhi : n ≤ hi) :
    parseInt lo hi (decimalInt n) = some n := by
  have hds : ∀ m, ∀ c ∈ decimal m, isDigit c = true := fun _ _ hc => isDigit_of_mem_decimal hc
  cases n with
  | ofNat m =>
    have h := parseInt_digits lo hi (decimal_ne_nil m) (hds m)
    rw [decimalValue_decimal] at h
    exact h hlo hhi
  | negSucc m =>
    have h := parseInt_minus lo hi (decimal_ne_nil (m + 1)) (hds (m + 1))
    rw [decimalValue_decimal] at h
    exact h hlo hhi

theorem stol_decimalInt {n : ℤ} (h : InLong n) : stol (decimalInt n) = some n :=
  parseInt_decimalInt h.1 h.2

theorem decimalInt_ne_nil : ∀ n : ℤ, decimalInt n ≠ []
  | .ofNat n => decimal_ne_nil n
  | .negSucc _ => List.cons_ne_nil _ _

theorem not_isBlank_decimalInt {n : ℤ} : ∀ c ∈ decimalInt n, isBlank c = false := by
  have hds : ∀ m, ∀ c ∈ decimal m, isBlank c = false := fun _ _ hc =>
    not_isBlank_of_isDigit (isDigit_of_mem_decimal hc)
  cases n with
  | ofNat n => exact hds n
  | negSucc n => exact List.forall_mem_cons.2 ⟨by decide, hds (n + 1)⟩

theorem length_decimalInt {n : ℤ} (h : InLong n) : (decimalInt n).length ≤ 20 := by
  obtain ⟨hlo, hhi⟩ := h
  cases n with
  | ofNat m =>
    refine (length_decimal_of_lt (k := 19) (by decide) ?_).trans (by decide)
    simp only [Int.ofNat_eq_natCast] at hhi
    omega
  | negSucc m =>
    refine Nat.succ_le_succ (length_decimal_of_lt (k := 19) (by decide) ?_)
    omega

end Lib

import Redon.Lib.Text

/-!
# Input streams

A stream is the bytes not read yet, the offset of the first of them and the two error bits. The
operations are those of a formatted input stream in the classic locale: an extraction skips white
space first, meeting the end of the bytes sets `eofbit`, getting nothing sets `failbit`, and every
operation on a stream with a bit set fails.

What an operation reads without meeting the end does not depend on the bytes after it
(`getToken_extend`, `getSize_extend`, `get_extend`, `read_extend`). So an extraction that succeeds
has read certain bytes and seen the one after them (`Peeks`).
-/

namespace Lib

/-- A stream open for reading. -/
structure IStream where
  /-- The bytes not read yet. -/
  rest : Bytes
  /-- The offset of the next byte. -/
  pos : ℕ
  eofbit : Bool
  failbit : Bool
  deriving DecidableEq, Repr

namespace IStream

def ofBytes (b : Bytes) : IStream := ⟨b, 0, false, false⟩

def good (s : IStream) : Bool := !s.eofbit && !s.failbit

/-- The stream past its next `n` bytes. -/
def advance (s : IStream) (n : ℕ) : IStream := { s with rest := s.rest.drop n, pos := s.pos + n }

/-- The stream past the white space ahead. -/
def skipBlanks (s : IStream) : IStream := s.advance (s.rest.takeWhile isBlank).length

/-- `in >> token`: the bytes up to the next white space. -/
def getToken (s : IStream) : Bytes × IStream :=
  if s.good then
    let s := s.skipBlanks
    if s.rest.isEmpty then ([], { s with eofbit := true, failbit := true })
    else
      let token := s.rest.takeWhile fun c => !isBlank c
      let s := s.advance token.length
      (token, { s with eofbit := s.rest.isEmpty })
  else ([], { s with failbit := true })

def maxSize : ℕ := 2 ^ 64 - 1

/-- The stream past a sign, and whether it is a minus. -/
def getSign (s : IStream) : Bool × IStream :=
  match s.rest with
  | 45 :: _ => (true, s.advance 1)
  | 43 :: _ => (false, s.advance 1)
  | _ => (false, s)

/-- The number the digits ahead spell. No digit, or a value out of range, fails; a minus negates
modulo `2 ^ 64`. -/
def getDigits (minus : Bool) (s : IStream) : ℕ × IStream :=
  let ds := s.rest.takeWhile isDigit
  let s := s.advance ds.length
  let s := { s with eofbit := s.rest.isEmpty }
  if ds.isEmpty then (0, { s with failbit := true })
  else if decimalValue ds > maxSize then (maxSize, { s with failbit := true })
  else if minus then ((2 ^ 64 - decimalValue ds) % 2 ^ 64, s)
  else (decimalValue ds, s)

/-- `in >> n` for a 64-bit unsigned integer. -/
def getSize (s : IStream) : ℕ × IStream :=
  if s.good then
    let s := s.skipBlanks
    if s.rest.isEmpty then (0, { s with eofbit := true, failbit := true })
    else getDigits s.getSign.1 s.getSign.2
  else (0, { s with failbit := true })

/-- `in.get()`: the next byte, if there is one. -/
def get (s : IStream) : Option UInt8 × IStream :=
  if s.good then
    match s.rest with
    | [] => (none, { s with eofbit := true, failbit := true })
    | c :: _ => (some c, s.advance 1)
  else (none, { s with failbit := true })

/-- `in.read(buf, n)`: the next `n` bytes, failing if there are fewer. -/
def read (s : IStream) (n : ℕ) : Bytes × IStream :=
  if s.good then
    if s.rest.length < n then
      (s.rest, { s.advance s.rest.length with eofbit := true, failbit := true })
    else (s.rest.take n, s.advance n)
  else ([], { s with failbit := true })

/-- `in.seekg(n, cur)`: forward by `n` bytes, possibly past the end. -/
def seekCur (s : IStream) (n : ℕ) : IStream :=
  if s.failbit then s else { s.advance n with eofbit := false }

/-! ## Reading what is there -/

section Spec

variable {s : IStream}

@[simp] theorem good_mk (r : Bytes) (p : ℕ) : (IStream.mk r p false false).good = true := rfl

theorem skipBlanks_of_head {r : Bytes} {p : ℕ} {e f : Bool}
    (h : ∀ c ∈ r.head?, isBlank c = false) : skipBlanks ⟨r, p, e, f⟩ = ⟨r, p, e, f⟩ := by
  cases r with
  | nil => rfl
  | cons c r =>
    have hc := h c (by simp)
    simp [skipBlanks, advance, hc]

theorem takeWhile_span {f : UInt8 → Bool} {w : Bytes} {c : UInt8} (hw : ∀ b ∈ w, f b = true)
    (hc : f c = false) (m : Bytes) : (w ++ c :: m).takeWhile f = w := by
  rw [List.takeWhile_append_of_pos hw, List.takeWhile_cons_of_neg (by simp [hc]), List.append_nil]

theorem getToken_append {t r : Bytes} {p : ℕ} {b : UInt8} (hne : t ≠ [])
    (ht : ∀ c ∈ t, isBlank c = false) (hb : isBlank b = true) :
    getToken ⟨t ++ b :: r, p, false, false⟩ = (t, ⟨b :: r, p + t.length, false, false⟩) := by
  have hhead : ∀ c ∈ (t ++ b :: r).head?, isBlank c = false := by
    intro c hc
    obtain ⟨a, t, rfl⟩ := List.exists_cons_of_ne_nil hne
    simp only [List.cons_append, List.head?_cons, Option.mem_some_iff] at hc
    exact ht c (by simp [hc])
  have htake : (t ++ b :: r).takeWhile (fun c => !isBlank c) = t :=
    takeWhile_span (by simpa using ht) (by simp [hb]) r
  simp [getToken, skipBlanks_of_head hhead, htake, advance]

theorem skipBlanks_cons {r : Bytes} {p : ℕ} {b : UInt8} (hb : isBlank b = true) :
    skipBlanks ⟨b :: r, p, false, false⟩ = skipBlanks ⟨r, p + 1, false, false⟩ := by
  simp [skipBlanks, advance, hb]
  omega

theorem getSize_blank {r : Bytes} {p : ℕ} {b : UInt8} (hb : isBlank b = true) :
    getSize ⟨b :: r, p, false, false⟩ = getSize ⟨r, p + 1, false, false⟩ := by
  unfold getSize
  rw [if_pos (good_mk _ _), if_pos (good_mk _ _), skipBlanks_cons hb]

theorem getSign_of_head {r : Bytes} {p : ℕ} {c : UInt8} (h1 : c ≠ 45) (h2 : c ≠ 43) :
    getSign ⟨c :: r, p, false, false⟩ = (false, ⟨c :: r, p, false, false⟩) := by
  unfold getSign
  split
  · rename_i h
    exact absurd (List.cons.inj h).1 h1
  · rename_i h
    exact absurd (List.cons.inj h).1 h2
  · rfl

theorem digit_ne {c d : UInt8} (hc : isDigit c = true) (hd : isDigit d = false) : c ≠ d := by
  rintro rfl
  rw [hc] at hd
  cases hd

theorem getSize_of_sign {a : UInt8} (ha : isBlank a = false) (r : Bytes) (p : ℕ) :
    getSize ⟨a :: r, p, false, false⟩
      = getDigits (getSign ⟨a :: r, p, false, false⟩).1 (getSign ⟨a :: r, p, false, false⟩).2 := by
  unfold getSize
  rw [if_pos (good_mk _ _), skipBlanks_of_head (by simpa using ha)]
  rfl

theorem getSize_digits {ds r : Bytes} {p : ℕ} {b : UInt8} (hne : ds ≠ [])
    (hds : ∀ c ∈ ds, isDigit c = true) (hb : isDigit b = false) :
    getSize ⟨ds ++ b :: r, p, false, false⟩
      = if decimalValue ds > maxSize then (maxSize, ⟨b :: r, p + ds.length, false, true⟩)
        else (decimalValue ds, ⟨b :: r, p + ds.length, false, false⟩) := by
  obtain ⟨a, ds', rfl⟩ := List.exists_cons_of_ne_nil hne
  have ha : isDigit a = true := hds a List.mem_cons_self
  have htake : (a :: ds' ++ b :: r).takeWhile isDigit = a :: ds' := takeWhile_span hds hb r
  have hsign : getSign ⟨a :: ds' ++ b :: r, p, false, false⟩
      = (false, ⟨a :: ds' ++ b :: r, p, false, false⟩) :=
    getSign_of_head (digit_ne ha (by decide)) (digit_ne ha (by decide))
  rw [List.cons_append, getSize_of_sign (not_isBlank_of_isDigit ha), ← List.cons_append]
  simp only [hsign, getDigits, htake, advance]
  simp

theorem getSize_append {n p : ℕ} {b : UInt8} {r : Bytes} (hb : isDigit b = false) :
    getSize ⟨decimal n ++ b :: r, p, false, false⟩
      = if n > maxSize then (maxSize, ⟨b :: r, p + (decimal n).length, false, true⟩)
        else (n, ⟨b :: r, p + (decimal n).length, false, false⟩) := by
  rw [getSize_digits (decimal_ne_nil n) (fun c hc => isDigit_of_mem_decimal hc) hb,
    decimalValue_decimal]

theorem getSize_of_head {r : Bytes} {p : ℕ} {c : UInt8} (h1 : isBlank c = false)
    (h2 : isDigit c = false) (h3 : c ≠ 45) (h4 : c ≠ 43) :
    (getSize ⟨c :: r, p, false, false⟩).2.failbit = true := by
  rw [getSize_of_sign h1]
  simp [getSign_of_head h3 h4, getDigits, h2]

theorem getSize_of_failbit {s : IStream} (h : s.failbit = true) : (getSize s).2.failbit = true := by
  simp [getSize, good, h]

theorem get_cons (c : UInt8) (r : Bytes) (p : ℕ) :
    get ⟨c :: r, p, false, false⟩ = (some c, ⟨r, p + 1, false, false⟩) := rfl

theorem read_append (t r : Bytes) (p : ℕ) :
    read ⟨t ++ r, p, false, false⟩ t.length = (t, ⟨r, p + t.length, false, false⟩) := by
  simp [read, advance]

theorem read_of_failbit (h : s.failbit = true) (n : ℕ) :
    (s.read n).2.failbit = true := by
  have : s.good = false := by simp [good, h]
  simp [read, this]

theorem good_of_read {n : ℕ} (h : ¬ (s.read n).2.failbit = true) :
    (s.read n).2.good = true := by
  unfold read at h ⊢
  by_cases hg : s.good = true
  · rw [if_pos hg] at h ⊢
    split_ifs at h ⊢ with hn
    · simp at h
    · exact hg
  · rw [if_neg hg] at h
    simp at h

end Spec

/-! ## Bytes after the ones read -/

section Extend

variable {s : IStream} {q : Bytes} {n : ℕ}

/-- The same stream with `q` after its bytes. -/
def extend (s : IStream) (q : Bytes) : IStream := { s with rest := s.rest ++ q }

@[simp] theorem extend_good (s : IStream) (q : Bytes) : (s.extend q).good = s.good := rfl

@[simp] theorem extend_rest (s : IStream) (q : Bytes) : (s.extend q).rest = s.rest ++ q := rfl

@[simp] theorem extend_failbit (s : IStream) (q : Bytes) : (s.extend q).failbit = s.failbit := rfl

theorem good_iff : s.good = true ↔ s.eofbit = false ∧ s.failbit = false := by
  simp [good]

theorem extend_advance (h : n ≤ s.rest.length) :
    (s.extend q).advance n = (s.advance n).extend q := by
  simp [extend, advance, List.drop_append_of_le_length h]

theorem takeWhile_extend {p : UInt8 → Bool} {l : Bytes} (q : Bytes)
    (h : l.drop (l.takeWhile p).length ≠ []) : (l ++ q).takeWhile p = l.takeWhile p := by
  rw [List.takeWhile_append, if_neg]
  intro he
  exact h (by rw [he, List.drop_length])

theorem length_takeWhile_le (p : UInt8 → Bool) (l : Bytes) : (l.takeWhile p).length ≤ l.length :=
  (List.takeWhile_sublist p).length_le

theorem skipBlanks_extend (h : s.skipBlanks.rest ≠ []) :
    (s.extend q).skipBlanks = s.skipBlanks.extend q := by
  have ht : (s.rest ++ q).takeWhile isBlank = s.rest.takeWhile isBlank := takeWhile_extend q h
  unfold skipBlanks
  rw [extend_rest, ht, extend_advance (length_takeWhile_le _ _)]

theorem good_of_getToken (h : (getToken s).2.failbit = false) : s.good = true := by
  by_contra hg
  simp [getToken, hg] at h

theorem good_of_getSize (h : (getSize s).2.failbit = false) : s.good = true := by
  by_contra hg
  simp [getSize, hg] at h

theorem isEmpty_append_of_ne {l : Bytes} (h : l ≠ []) (q : Bytes) :
    (l ++ q).isEmpty = l.isEmpty := by
  cases l with
  | nil => exact absurd rfl h
  | cons => rfl

theorem getToken_extend (h : (getToken s).2.good = true) :
    getToken (s.extend q) = ((getToken s).1, (getToken s).2.extend q) := by
  have hg : s.good = true := good_of_getToken (good_iff.1 h).2
  unfold getToken at h ⊢
  rw [if_pos hg] at h
  rw [if_pos (by simpa using hg), if_pos hg]
  simp only [] at h ⊢
  by_cases he : s.skipBlanks.rest = []
  · simp [he, good] at h
  have hne : s.skipBlanks.rest.isEmpty = false := by simpa using he
  rw [hne] at h
  have hrest : (s.skipBlanks.advance
      (s.skipBlanks.rest.takeWhile fun c => !isBlank c).length).rest ≠ [] := by
    intro hc
    simp [good, hc] at h
  rw [skipBlanks_extend he, extend_rest, takeWhile_extend q hrest, isEmpty_append_of_ne he,
    hne, extend_advance (length_takeWhile_le _ _), extend_rest, isEmpty_append_of_ne hrest]
  rfl

theorem getSign_extend (h : s.rest ≠ []) :
    getSign (s.extend q) = ((getSign s).1, (getSign s).2.extend q) := by
  obtain ⟨r, p, e, f⟩ := s
  obtain ⟨c, r, rfl⟩ := List.exists_cons_of_ne_nil h
  simp only [getSign, extend_rest, List.cons_append]
  split
  · rename_i hc
    simp only [List.cons.injEq] at hc
    simp [hc.1, extend, advance]
  · rename_i hc
    simp only [List.cons.injEq] at hc
    simp [hc.1, extend, advance]
  · rename_i h1 h2
    split
    · rename_i hc
      simp only [List.cons.injEq] at hc
      exact absurd (by rw [hc.1]) (h1 (r ++ q))
    · rename_i hc
      simp only [List.cons.injEq] at hc
      exact absurd (by rw [hc.1]) (h2 (r ++ q))
    · rfl

theorem getDigits_extend {minus : Bool} (h : (getDigits minus s).2.good = true) :
    getDigits minus (s.extend q) = ((getDigits minus s).1, (getDigits minus s).2.extend q) := by
  have hrest : (s.advance (s.rest.takeWhile isDigit).length).rest ≠ [] := by
    intro hc
    unfold getDigits at h
    simp only [hc] at h
    split_ifs at h <;> simp [good] at h
  unfold getDigits
  simp only []
  rw [extend_rest, takeWhile_extend q hrest, extend_advance (length_takeWhile_le _ _)]
  simp only [extend_rest, isEmpty_append_of_ne hrest]
  split_ifs <;> rfl

theorem getSize_extend (h : (getSize s).2.good = true) :
    getSize (s.extend q) = ((getSize s).1, (getSize s).2.extend q) := by
  have hg : s.good = true := good_of_getSize (good_iff.1 h).2
  unfold getSize at h ⊢
  rw [if_pos hg] at h
  rw [if_pos (by simpa using hg), if_pos hg]
  simp only [] at h ⊢
  by_cases he : s.skipBlanks.rest = []
  · simp [he, good] at h
  have hne : s.skipBlanks.rest.isEmpty = false := by simpa using he
  rw [hne] at h
  rw [skipBlanks_extend he, getSign_extend he, extend_rest, isEmpty_append_of_ne he, hne]
  simp only [Bool.false_eq_true, if_false] at h ⊢
  exact getDigits_extend h

theorem get_extend {c : UInt8} (h : (get s).1 = some c) :
    get (s.extend q) = (some c, (get s).2.extend q) ∧ s.good = true ∧ (get s).2.good = true := by
  obtain ⟨r, p, e, f⟩ := s
  unfold get at h ⊢
  by_cases hg : (IStream.mk r p e f).good = true
  · rw [if_pos hg] at h
    rw [if_pos (by simpa using hg), if_pos hg]
    cases r with
    | nil => simp at h
    | cons b r =>
      simp only [Option.some.injEq] at h
      subst h
      exact ⟨rfl, hg, hg⟩
  · rw [if_neg hg] at h
    simp at h

theorem read_extend (h : (read s n).2.failbit = false) :
    read (s.extend q) n = ((read s n).1, (read s n).2.extend q) ∧ s.good = true
      ∧ (read s n).2.good = true := by
  unfold read at h ⊢
  by_cases hg : s.good = true
  · rw [if_pos hg] at h
    by_cases hl : s.rest.length < n
    · simp [hl] at h
    · have hle : n ≤ s.rest.length := Nat.not_lt.1 hl
      rw [if_pos (by simpa using hg), if_pos hg, if_neg hl,
        if_neg (by simp only [extend_rest, List.length_append]; omega),
        extend_advance hle, extend_rest, List.take_append_of_le_length hle]
      exact ⟨rfl, hg, by simpa [advance, good] using hg⟩
  · rw [if_neg hg] at h
    simp at h

end Extend

/-! ## How far an operation reads -/

section Peek

variable {α : Type*} {l : Bytes} {p n : ℕ} {s : IStream}

/-- `f` reads `w` and stops in front of the byte `c`, whatever comes behind it. -/
def Peeks (f : IStream → α × IStream) (a : α) (w : Bytes) (c : UInt8) : Prop :=
  ∀ m p, f ⟨w ++ c :: m, p, false, false⟩ = (a, ⟨c :: m, p + w.length, false, false⟩)

/-- What `f` reads is `w`, whatever comes behind it. -/
def Takes (f : IStream → Option (α × IStream)) (a : α) (w : Bytes) : Prop :=
  ∀ q p, f ⟨w ++ q, p, false, false⟩ = some (a, ⟨q, p + w.length, false, false⟩)

theorem skipBlanks_append : ∀ {w : Bytes}, (∀ b ∈ w, isBlank b = true) → ∀ (r : Bytes) (p : ℕ),
    skipBlanks ⟨w ++ r, p, false, false⟩ = skipBlanks ⟨r, p + w.length, false, false⟩
  | [], _, _, _ => rfl
  | b :: w, h, r, p => by
    rw [List.cons_append, skipBlanks_cons (h b List.mem_cons_self),
      skipBlanks_append fun c hc => h c (List.mem_cons_of_mem b hc), List.length_cons,
      Nat.add_right_comm, Nat.add_assoc p]

theorem getToken_blanks {w : Bytes} (h : ∀ b ∈ w, isBlank b = true) (r : Bytes) (p : ℕ) :
    getToken ⟨w ++ r, p, false, false⟩ = getToken ⟨r, p + w.length, false, false⟩ := by
  unfold getToken
  rw [if_pos (good_mk _ _), if_pos (good_mk _ _), skipBlanks_append h]

theorem getSize_blanks {w : Bytes} (h : ∀ b ∈ w, isBlank b = true) (r : Bytes) (p : ℕ) :
    getSize ⟨w ++ r, p, false, false⟩ = getSize ⟨r, p + w.length, false, false⟩ := by
  unfold getSize
  rw [if_pos (good_mk _ _), if_pos (good_mk _ _), skipBlanks_append h]

/-- Where `takeWhile` stops short, it stops in front of a byte that `f` does not hold of. -/
theorem span_cons {f : UInt8 → Bool} : ∀ {l : Bytes}, l.drop (l.takeWhile f).length ≠ [] →
    ∃ w c m, l = w ++ c :: m ∧ (∀ b ∈ w, f b = true) ∧ f c = false
  | [], h => absurd rfl h
  | b :: l, h => by
    by_cases hb : f b = true
    · rw [List.takeWhile_cons_of_pos hb] at h
      obtain ⟨w, c, m, rfl, hw, hc⟩ := span_cons (f := f) (l := l) h
      exact ⟨b :: w, c, m, rfl, List.forall_mem_cons.2 ⟨hb, hw⟩, hc⟩
    · exact ⟨[], b, l, rfl, by simp, by simpa using hb⟩

theorem getToken_peeks {t : Bytes} (ht : getToken ⟨l, p, false, false⟩ = (t, s))
    (h : s.good = true) : ∃ w c m, l = w ++ c :: m ∧ Peeks getToken t w c := by
  have hfst : (getToken ⟨l, p, false, false⟩).1 = t := by rw [ht]
  replace h : (getToken ⟨l, p, false, false⟩).2.good = true := by rw [ht]; exact h
  rw [← hfst]
  by_cases he : (skipBlanks ⟨l, p, false, false⟩).rest = []
  · simp [getToken, he, good] at h
  obtain ⟨w, a, m, rfl, hw, ha⟩ := span_cons (f := isBlank) he
  rw [getToken_blanks hw] at h ⊢
  have hskip := skipBlanks_of_head (r := a :: m) (p := p + w.length) (e := false) (f := false)
    (by simpa using ha)
  have hrest : (a :: m).drop ((a :: m).takeWhile fun c => !isBlank c).length ≠ [] := by
    intro hc
    simp [getToken, hskip, advance, hc, good] at h
  obtain ⟨t, c, m', hm, ht, hc⟩ := span_cons hrest
  have hne : t ≠ [] := by
    rintro rfl
    rw [(List.cons.inj hm).1] at ha
    simp [ha] at hc
  have htok := fun q p => getToken_append (r := q) (p := p) (b := c) hne
    (fun b hb => by simpa using ht b hb) (by simpa using hc)
  rw [hm, htok]
  refine ⟨w ++ t, c, m', by simp, fun q p' => ?_⟩
  rw [List.append_assoc, getToken_blanks hw, htok, List.length_append, Nat.add_assoc]

theorem getDigits_peeks {minus : Bool} (hn : getDigits minus ⟨l, p, false, false⟩ = (n, s))
    (h : s.good = true) :
    ∃ ds c m, l = ds ++ c :: m ∧ ds ≠ [] ∧ Peeks (getDigits minus) n ds c := by
  have hfst : (getDigits minus ⟨l, p, false, false⟩).1 = n := by rw [hn]
  replace h : (getDigits minus ⟨l, p, false, false⟩).2.good = true := by rw [hn]; exact h
  rw [← hfst]
  have hrest : l.drop (l.takeWhile isDigit).length ≠ [] := by
    intro hc
    simp only [getDigits, advance, hc] at h
    split_ifs at h <;> simp [good] at h
  obtain ⟨ds, c, m, rfl, hds, hc⟩ := span_cons hrest
  have htake := fun q => takeWhile_span hds hc q
  refine ⟨ds, c, m, rfl, ?_, fun q p' => ?_⟩
  · rintro rfl
    simp [getDigits, hc, good] at h
  · simp only [getDigits, advance, htake, List.drop_left, List.isEmpty_cons] at h ⊢
    split_ifs at h ⊢ with h1 h2 h3
    · simp [good] at h
    · simp [good] at h
    · rfl
    · rfl

theorem getSize_peeks (hn : getSize ⟨l, p, false, false⟩ = (n, s)) (h : s.good = true) :
    ∃ w c m, l = w ++ c :: m ∧ Peeks getSize n w c := by
  by_cases he : (skipBlanks ⟨l, p, false, false⟩).rest = []
  · replace h : (getSize ⟨l, p, false, false⟩).2.good = true := by rw [hn]; exact h
    simp [getSize, he, good] at h
  obtain ⟨w, a, m, rfl, hw, ha⟩ := span_cons (f := isBlank) he
  rw [getSize_blanks hw, getSize_of_sign ha] at hn
  by_cases hsign : a = 45 ∨ a = 43
  · -- the digits come behind a sign
    have hs : ∀ q p, getSign ⟨a :: q, p, false, false⟩ = (a == 45, ⟨q, p + 1, false, false⟩) := by
      rcases hsign with rfl | rfl <;> exact fun _ _ => rfl
    rw [hs] at hn
    obtain ⟨ds, c, m', rfl, -, hpeek⟩ := getDigits_peeks hn h
    refine ⟨w ++ a :: ds, c, m', by simp, fun q p' => ?_⟩
    rw [List.append_assoc, getSize_blanks hw, List.cons_append, getSize_of_sign ha, hs, hpeek]
    simp only [List.length_append, List.length_cons, Prod.mk.injEq, IStream.mk.injEq, true_and,
      and_true]
    omega
  · rw [not_or] at hsign
    have hs := fun (q : Bytes) (p : ℕ) => getSign_of_head (r := q) (p := p) hsign.1 hsign.2
    rw [hs] at hn
    obtain ⟨ds, c, m', hm, hne, hpeek⟩ := getDigits_peeks hn h
    obtain ⟨b, ds, rfl⟩ := List.exists_cons_of_ne_nil hne
    obtain ⟨rfl, rfl⟩ := List.cons.inj hm
    refine ⟨w ++ a :: ds, c, m', by simp, fun q p' => ?_⟩
    rw [List.append_assoc, getSize_blanks hw, List.cons_append, getSize_of_sign ha, hs,
      ← List.cons_append, hpeek, List.length_append, Nat.add_assoc]

theorem get_split {c : UInt8} (h : get ⟨l, p, false, false⟩ = (some c, s)) :
    ∃ m, l = c :: m ∧ s = ⟨m, p + 1, false, false⟩ := by
  cases l with
  | nil => cases h
  | cons b m =>
    rw [get_cons, Prod.mk.injEq, Option.some.injEq] at h
    obtain ⟨rfl, rfl⟩ := h
    exact ⟨m, rfl, rfl⟩

theorem read_split {t : Bytes} (h : read ⟨l, p, false, false⟩ n = (t, s)) (hf : s.failbit = false) :
    ∃ m, l = t ++ m ∧ t.length = n ∧ s = ⟨m, p + t.length, false, false⟩ := by
  unfold read at h
  rw [if_pos (good_mk _ _)] at h
  split_ifs at h with hlt
  · rw [← (Prod.mk.inj h).2] at hf
    cases hf
  · obtain ⟨rfl, rfl⟩ := Prod.mk.inj h
    have hlen : (l.take n).length = n := by simpa using hlt
    exact ⟨l.drop n, (List.take_append_drop n l).symm, hlen, by rw [hlen]; rfl⟩

end Peek

/-! ## All tokens -/

section Tokens

theorem skipBlanks_rest (s : IStream) : s.skipBlanks.rest = s.rest.dropWhile isBlank := by
  have h := congrArg (List.drop (s.rest.takeWhile isBlank).length)
    (List.takeWhile_append_dropWhile (p := isBlank) (l := s.rest))
  rw [List.drop_left] at h
  exact h.symm

theorem length_getToken {s : IStream} (h : ¬ s.getToken.2.failbit = true) :
    s.getToken.2.rest.length < s.rest.length := by
  have hgood : s.good = true := good_of_getToken (Bool.not_eq_true _ ▸ h)
  have hskip : s.skipBlanks.rest.length ≤ s.rest.length := (List.drop_sublist _ _).length_le
  have hhead := List.head?_dropWhile_not isBlank s.rest
  rw [← skipBlanks_rest] at hhead
  rcases hr : s.skipBlanks.rest with _ | ⟨c, rest⟩
  · simp [getToken, hgood, hr] at h
  · rw [hr] at hhead hskip
    have hc : isBlank c = false := hhead
    have htok : s.getToken.2.rest
        = (c :: rest).drop ((c :: rest).takeWhile fun c => !isBlank c).length := by
      simp [getToken, hgood, hr, advance]
    rw [htok, List.takeWhile_cons_of_pos (by rw [hc]; rfl), List.length_cons, List.drop_succ_cons]
    exact Nat.lt_of_lt_of_le (Nat.lt_succ_of_le (List.drop_sublist _ _).length_le) hskip

/-- `while (in >> token)`: the tokens that are left. -/
def tokens (s : IStream) : List Bytes :=
  if s.getToken.2.failbit then [] else s.getToken.1 :: tokens s.getToken.2
termination_by s.rest.length
decreasing_by exact length_getToken ‹_›

theorem getToken_last {t : Bytes} {p : ℕ} (hne : t ≠ []) (ht : ∀ c ∈ t, isBlank c = false) :
    getToken ⟨t, p, false, false⟩ = (t, ⟨[], p + t.length, true, false⟩) := by
  have htake : t.takeWhile (fun c => !isBlank c) = t :=
    List.takeWhile_eq_self_iff.2 (by simpa using ht)
  have hhead : ∀ c ∈ t.head?, isBlank c = false := fun c hc => ht c (List.mem_of_mem_head? hc)
  simp [getToken, skipBlanks_of_head hhead, htake, advance, hne]

theorem tokens_ended (s : IStream) (h : s.eofbit = true) : s.tokens = [] := by
  rw [tokens, if_pos]
  simp [getToken, good, h]

theorem tokens_last {t : Bytes} {p : ℕ} (hne : t ≠ []) (ht : ∀ c ∈ t, isBlank c = false) :
    tokens ⟨t, p, false, false⟩ = [t] := by
  rw [tokens, getToken_last hne ht, if_neg Bool.false_ne_true, tokens_ended _ rfl]

theorem tokens_append {t r : Bytes} {p : ℕ} {b : UInt8} (hne : t ≠ [])
    (ht : ∀ c ∈ t, isBlank c = false) (hb : isBlank b = true) :
    tokens ⟨t ++ b :: r, p, false, false⟩ = t :: tokens ⟨r, p + t.length + 1, false, false⟩ := by
  rw [tokens, getToken_append hne ht hb, if_neg Bool.false_ne_true]
  have hskip := getToken_blanks (w := [b]) (by simpa using hb) r (p + t.length)
  rw [List.singleton_append, List.length_singleton] at hskip
  rw [tokens, hskip, ← tokens]

/-- The first token begins where the stream does, if that is not blank. -/
theorem tokens_head {c : UInt8} (hc : isBlank c = false) (r : Bytes) (p : ℕ) :
    ∃ t ts, tokens ⟨c :: r, p, false, false⟩ = (c :: t) :: ts := by
  have hskip := skipBlanks_of_head (r := c :: r) (p := p) (e := false) (f := false)
    (by simpa using hc)
  have htok : (getToken ⟨c :: r, p, false, false⟩).1 = c :: r.takeWhile fun c => !isBlank c := by
    simp [getToken, hskip, hc]
  have hgot : ¬ (getToken ⟨c :: r, p, false, false⟩).2.failbit = true := by
    simp [getToken, hskip, advance]
  rw [tokens, if_neg hgot, htok]
  exact ⟨_, _, rfl⟩

end Tokens

end IStream

end Lib

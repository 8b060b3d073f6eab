import Redon.Wal

/-!
# Reading records back

A record read in full does not depend on the bytes after it (`readRecord_extend`), so a record's
encoding is read as the record (`readRecord_encode`) and none of its strict prefixes is read as
anything (`readRecord_cut`). A header cut short is not completed by the next record either, which
starts with a letter (`readRecord_torn_header`).
-/

namespace Redon

open Lib Lib.IStream

variable {s s' : IStream} {r : Mutation} {q : Bytes} {p : ℕ}

section Extend

theorem readSetHeader_extend {kl vl : ℕ} (h : readSetHeader s = some ((kl, vl), s')) :
    readSetHeader (s.extend q) = some ((kl, vl), s'.extend q) ∧ s.good = true := by
  unfold readSetHeader at h ⊢
  simp only [] at h ⊢
  split_ifs at h with h1 h2 h3
  simp only [Option.some.injEq, Prod.mk.injEq] at h
  obtain ⟨⟨hk, hv⟩, hs⟩ := h
  obtain ⟨he3, hg2, -⟩ := get_extend (q := q) h3
  have hg1 := good_of_getSize (Bool.not_eq_true _ ▸ h1)
  have he1 := getSize_extend (q := q) hg1
  have he2 := getSize_extend (q := q) hg2
  refine ⟨?_, good_of_getSize (good_iff.1 hg1).2⟩
  rw [he1, he2]
  simp only [] at he3 ⊢
  rw [extend_failbit, if_neg h1, if_pos h2, he3]
  simp [hk, hv, hs]

theorem readDelHeader_extend {kl : ℕ} (h : readDelHeader s = some (kl, s')) :
    readDelHeader (s.extend q) = some (kl, s'.extend q) ∧ s.good = true := by
  unfold readDelHeader at h ⊢
  simp only [] at h ⊢
  split_ifs at h with h1 h2 h3
  simp only [Option.some.injEq, Prod.mk.injEq] at h
  obtain ⟨hk, hs⟩ := h
  obtain ⟨he3, hg1, -⟩ := get_extend (q := q) h3
  have he1 := getSize_extend (q := q) hg1
  refine ⟨?_, good_of_getSize (Bool.not_eq_true _ ▸ h1)⟩
  rw [he1]
  simp only [] at he3 ⊢
  rw [extend_failbit, if_neg h1, if_pos h2, he3]
  simp [hk, hs]

/-- A record read in full is read the same whatever follows it. -/
theorem readRecord_extend (h : Wal.readRecord s = some (r, s')) :
    Wal.readRecord (s.extend q) = some (r, s'.extend q) := by
  unfold Wal.readRecord at h ⊢
  simp only [] at h ⊢
  split_ifs at h with h1 h2 h3
  · rcases hh : readSetHeader s.getToken.2 with _ | ⟨⟨kl, vl⟩, s1⟩ <;> rw [hh] at h
    · cases h
    obtain ⟨he1, hg⟩ := readSetHeader_extend (q := q) hh
    simp only [] at h
    split_ifs at h with h4 h5
    simp only [Option.some.injEq, Prod.mk.injEq] at h
    obtain ⟨he4, hg4, -⟩ := get_extend (q := q) h5
    obtain ⟨he3, hg3, -⟩ := read_extend (q := q) (Bool.not_eq_true _ ▸ h4)
    obtain ⟨he2, -, -⟩ := read_extend (q := q) (good_iff.1 hg3).2
    rw [getToken_extend hg]
    simp only [] at he4 ⊢
    rw [extend_failbit, if_neg h1, if_pos h2, he1]
    simp only [he2, he3]
    rw [extend_failbit, if_neg h4, he4]
    simp [h]
  · rcases hh : readDelHeader s.getToken.2 with _ | ⟨kl, s1⟩ <;> rw [hh] at h
    · cases h
    obtain ⟨he1, hg⟩ := readDelHeader_extend (q := q) hh
    simp only [] at h
    split_ifs at h with h4 h5
    simp only [Option.some.injEq, Prod.mk.injEq] at h
    obtain ⟨he4, hg4, -⟩ := get_extend (q := q) h5
    obtain ⟨he2, -, -⟩ := read_extend (q := q) (Bool.not_eq_true _ ▸ h4)
    rw [getToken_extend hg]
    simp only [] at he4 ⊢
    rw [extend_failbit, if_neg h1, if_neg h2, if_pos h3, he1]
    simp only [he2]
    rw [extend_failbit, if_neg h4, he4]
    simp [h]

end Extend

section Encode

variable {k v d : Bytes} {kl vl : ℕ}

theorem fieldOk_of_gt {n : ℕ} (h : n > maxSize) : fieldOk n = false := by
  have hmax : kMaxField ≤ maxSize := by decide
  have hn : ¬ n ≤ kMaxField := by omega
  simp [fieldOk, hn]

theorem readSetHeader_eq :
    readSetHeader ⟨32 :: (decimal kl ++ 32 :: (decimal vl ++ 32 :: d)), p, false, false⟩
    = if fieldOk kl && fieldOk vl then some ((kl, vl),
        ⟨d, p + 1 + (decimal kl).length + 1 + (decimal vl).length + 1, false, false⟩)
      else none := by
  unfold readSetHeader
  simp only []
  rw [getSize_blank (by decide), getSize_append (by decide)]
  by_cases hk : kl > maxSize
  · rw [if_pos hk]
    simp [getSize_of_failbit, fieldOk_of_gt hk]
  rw [if_neg hk]
  simp only []
  rw [getSize_blank (by decide), getSize_append (by decide)]
  by_cases hv : vl > maxSize
  · rw [if_pos hv]
    simp [fieldOk_of_gt hv]
  rw [if_neg hv]
  simp [get_cons]

theorem readDelHeader_eq : readDelHeader ⟨32 :: (decimal kl ++ 32 :: d), p, false, false⟩
    = if fieldOk kl then some (kl, ⟨d, p + 1 + (decimal kl).length + 1, false, false⟩)
      else none := by
  unfold readDelHeader
  simp only []
  rw [getSize_blank (by decide), getSize_append (by decide)]
  by_cases hk : kl > maxSize
  · rw [if_pos hk]
    simp [fieldOk_of_gt hk]
  rw [if_neg hk]
  simp [get_cons]

theorem not_isBlank_name {op : Bytes} (hop : op = ascii "SET" ∨ op = ascii "DEL") :
    ∀ b ∈ op, isBlank b = false := by
  rcases hop with rfl | rfl <;> simp [ascii, isBlank]

theorem getToken_name {op : Bytes} (hop : op = ascii "SET" ∨ op = ascii "DEL") :
    getToken ⟨op ++ 32 :: d, p, false, false⟩ = (op, ⟨32 :: d, p + op.length, false, false⟩) := by
  refine getToken_append ?_ (not_isBlank_name hop) (by decide)
  rcases hop with rfl | rfl <;> simp [ascii]

theorem encode_set_append : (Mutation.set k v).encode ++ q
    = ascii "SET" ++ 32 :: (decimal k.length ++ 32 :: (decimal v.length ++ 32
        :: (k ++ (v ++ 10 :: q)))) := by
  have h1 : ascii "SET " = ascii "SET" ++ [32] := by decide
  have h2 : ascii " " = [32] := by decide
  have h3 : ascii "\n" = [10] := by decide
  simp [Mutation.encode, Mutation.header, Mutation.body, h1, h2, h3]

theorem encode_del_append : (Mutation.del k).encode ++ q
    = ascii "DEL" ++ 32 :: (decimal k.length ++ 32 :: (k ++ 10 :: q)) := by
  have h1 : ascii "DEL " = ascii "DEL" ++ [32] := by decide
  have h2 : ascii " " = [32] := by decide
  have h3 : ascii "\n" = [10] := by decide
  simp [Mutation.encode, Mutation.header, Mutation.body, h1, h2, h3]

/-- A record is read back from its encoding, whatever follows it, if its lengths are accepted, and
nothing is read otherwise. -/
theorem readRecord_encode_eq (r : Mutation) : Wal.readRecord ⟨r.encode ++ q, p, false, false⟩
    = if r.Ok then some (r, ⟨q, p + r.encode.length, false, false⟩) else none := by
  cases r with
  | set k v =>
    have hlen := congrArg List.length (encode_set_append (k := k) (v := v) (q := []))
    rw [encode_set_append]
    unfold Wal.readRecord
    simp only []
    rw [getToken_name (.inl rfl)]
    simp only [Bool.false_eq_true, if_false, if_true, readSetHeader_eq]
    by_cases hok : (Mutation.set k v).Ok
    · have hok' : (fieldOk k.length && fieldOk v.length) = true := by
        simpa [Mutation.Ok] using hok
      rw [if_pos hok, if_pos hok']
      simp only [read_append, get_cons, Bool.false_eq_true, if_false, if_true, Option.some.injEq,
        Prod.mk.injEq, IStream.mk.injEq, true_and, and_true]
      simp only [List.append_nil, List.length_append, List.length_cons, List.length_nil] at hlen
      omega
    · have hok' : ¬ (fieldOk k.length && fieldOk v.length) = true := by
        simpa [Mutation.Ok] using hok
      rw [if_neg hok, if_neg hok']
  | del k =>
    have hlen := congrArg List.length (encode_del_append (k := k) (q := []))
    have hne : ¬ ascii "DEL" = ascii "SET" := by decide
    rw [encode_del_append]
    unfold Wal.readRecord
    simp only []
    rw [getToken_name (.inr rfl)]
    simp only [Bool.false_eq_true, if_false, if_true, if_neg hne, readDelHeader_eq]
    by_cases hok : (Mutation.del k).Ok
    · have hok' : fieldOk k.length = true := by simpa [Mutation.Ok] using hok
      rw [if_pos hok, if_pos hok']
      simp only [read_append, get_cons, Bool.false_eq_true, if_false, if_true, Option.some.injEq,
        Prod.mk.injEq, IStream.mk.injEq, true_and, and_true]
      simp only [List.append_nil, List.length_append, List.length_cons, List.length_nil] at hlen
      omega
    · have hok' : ¬ fieldOk k.length = true := by simpa [Mutation.Ok] using hok
      rw [if_neg hok, if_neg hok']

theorem readRecord_encode (h : r.Ok) : Wal.readRecord ⟨r.encode ++ q, p, false, false⟩
    = some (r, ⟨q, p + r.encode.length, false, false⟩) := by
  rw [readRecord_encode_eq, if_pos h]

/-- A record cut short is not read. -/
theorem readRecord_cut {t : Bytes} (ht : t <+: r.encode) (hne : t ≠ r.encode) :
    Wal.readRecord ⟨t, p, false, false⟩ = none := by
  obtain ⟨q, hq⟩ := ht
  rcases hr : Wal.readRecord ⟨t, p, false, false⟩ with _ | ⟨r', s'⟩
  · rfl
  -- Reading the prefix would leave what follows it unread, but reading the record leaves nothing.
  have hx := readRecord_extend (q := q) hr
  have he := readRecord_encode_eq (q := []) (p := p) r
  rw [List.append_nil, ← hq] at he
  rw [show (IStream.mk t p false false).extend q = ⟨t ++ q, p, false, false⟩ from rfl, he] at hx
  split_ifs at hx
  simp only [Option.some.injEq, Prod.mk.injEq] at hx
  have hrest := congrArg IStream.rest hx.2
  simp only [extend_rest] at hrest
  have hqn : q = [] := (List.append_eq_nil_iff.1 hrest.symm).2
  rw [hqn, List.append_nil] at hq
  exact absurd hq hne

end Encode

section Torn

variable {t a b : Bytes} {c : UInt8}

theorem prefix_append_cases (h : t <+: a ++ b) : t <+: a ∨ ∃ u, t = a ++ u ∧ u <+: b := by
  rcases List.prefix_or_prefix_of_prefix h (List.prefix_append a b) with ht | ⟨u, rfl⟩
  · exact .inl ht
  · exact .inr ⟨u, rfl, (List.prefix_append_right_inj a).1 h⟩

/-- Every record starts with one of these. -/
def IsOp (c : UInt8) : Prop := c = 83 ∨ c = 68

theorem IsOp.spec (hc : IsOp c) : isBlank c = false ∧ isDigit c = false ∧ c ≠ 45 ∧ c ≠ 43
    ∧ c ≠ 32 ∧ c ≠ 69 ∧ c ≠ 84 ∧ c ≠ 76 := by
  rcases hc with rfl | rfl <;> decide

theorem getSize_op (hc : IsOp c) : (getSize ⟨c :: q, p, false, false⟩).2.failbit = true :=
  getSize_of_head hc.spec.1 hc.spec.2.1 hc.spec.2.2.1 hc.spec.2.2.2.1

/-- A length cut short is either read up to the letter after it or not read at all. -/
theorem getSize_torn {ds : Bytes} (hds : ∀ c ∈ ds, isDigit c = true) (hc : IsOp c) :
    (getSize ⟨32 :: (ds ++ c :: q), p, false, false⟩).2.failbit = true
      ∨ (getSize ⟨32 :: (ds ++ c :: q), p, false, false⟩).2
        = ⟨c :: q, p + 1 + ds.length, false, false⟩ := by
  rw [getSize_blank (by decide)]
  rcases ds with _ | ⟨a, ds⟩
  · exact .inl (getSize_op hc)
  · rw [getSize_digits (by simp) hds hc.spec.2.1]
    split_ifs
    · exact .inl rfl
    · exact .inr rfl

theorem readSetHeader_torn₁ {ds : Bytes} (hds : ∀ c ∈ ds, isDigit c = true) (hc : IsOp c) :
    readSetHeader ⟨32 :: (ds ++ c :: q), p, false, false⟩ = none := by
  have hf : (getSize (getSize ⟨32 :: (ds ++ c :: q), p, false, false⟩).2).2.failbit = true := by
    rcases getSize_torn (q := q) (p := p) hds hc with h | h
    · exact getSize_of_failbit h
    · rw [h]
      exact getSize_op hc
  simp [readSetHeader, hf]

theorem readSetHeader_torn₂ {ds : Bytes} {kl : ℕ} (hds : ∀ c ∈ ds, isDigit c = true) (hc : IsOp c) :
    readSetHeader ⟨32 :: (decimal kl ++ 32 :: (ds ++ c :: q)), p, false, false⟩ = none := by
  unfold readSetHeader
  simp only []
  rw [getSize_blank (by decide), getSize_append (by decide)]
  by_cases hk : kl > maxSize
  · rw [if_pos hk]
    simp [getSize_of_failbit]
  · rw [if_neg hk]
    simp only []
    rcases getSize_torn (q := q) (p := p + 1 + (decimal kl).length) hds hc with h | h
    · simp [h]
    · rw [h]
      simp [get_cons, hc.spec.2.2.2.2.1]

theorem readDelHeader_torn {ds : Bytes} (hds : ∀ c ∈ ds, isDigit c = true) (hc : IsOp c) :
    readDelHeader ⟨32 :: (ds ++ c :: q), p, false, false⟩ = none := by
  unfold readDelHeader
  simp only []
  rcases getSize_torn (q := q) (p := p) hds hc with h | h
  · simp [h]
  · rw [h]
    simp [get_cons, hc.spec.2.2.2.2.1]

/-- An operation's name cut short, or run together with what follows, is no name. -/
theorem getToken_torn {op : Bytes} (hop : op = ascii "SET" ∨ op = ascii "DEL") (ht : t <+: op)
    (hne : t ≠ []) (hc : IsOp c) : (getToken ⟨t ++ c :: q, p, false, false⟩).1 ≠ ascii "SET"
      ∧ (getToken ⟨t ++ c :: q, p, false, false⟩).1 ≠ ascii "DEL" := by
  have hnb : ∀ b ∈ t, isBlank b = false := fun b hb => not_isBlank_name hop b (ht.subset hb)
  have hhead : ∀ b ∈ (t ++ c :: q).head?, isBlank b = false := by
    intro b hb
    obtain ⟨b', t', rfl⟩ := List.exists_cons_of_ne_nil hne
    simp only [List.cons_append, List.head?_cons, Option.mem_some_iff] at hb
    exact hnb b (by simp [hb])
  have htok : (getToken ⟨t ++ c :: q, p, false, false⟩).1
      = t ++ c :: q.takeWhile fun b => !isBlank b := by
    unfold getToken
    rw [if_pos (good_mk _ _), skipBlanks_of_head hhead]
    simp only []
    rw [List.takeWhile_append_of_pos (by simpa using hnb)]
    simp [hc.spec.1]
  rw [htok]
  obtain ⟨-, -, -, -, -, h69, h84, h76⟩ := hc.spec
  obtain ⟨n, hn⟩ : ∃ n, t = op.take n := ⟨t.length, List.prefix_iff_eq_take.1 ht⟩
  have hset : ascii "SET" = [83, 69, 84] := by decide
  have hdel : ascii "DEL" = [68, 69, 76] := by decide
  rw [hset, hdel] at hop ⊢
  rcases hop with rfl | rfl <;> rcases n with _ | _ | _ | n <;>
    simp_all

theorem readRecord_bad_op (h1 : (getToken s).1 ≠ ascii "SET") (h2 : (getToken s).1 ≠ ascii "DEL") :
    Wal.readRecord s = none := by
  unfold Wal.readRecord
  simp only []
  rw [if_neg h1, if_neg h2, ite_self]

theorem readRecord_set (d : Bytes) : Wal.readRecord ⟨ascii "SET" ++ 32 :: d, p, false, false⟩ = none
    ∨ readSetHeader ⟨32 :: d, p + 3, false, false⟩ ≠ none := by
  rcases hh : readSetHeader ⟨32 :: d, p + 3, false, false⟩ with _ | x
  · left
    unfold Wal.readRecord
    simp only []
    rw [getToken_name (.inl rfl)]
    simp only [Bool.false_eq_true, if_false, if_true]
    rw [show p + (ascii "SET").length = p + 3 from rfl, hh]
  · exact .inr (by simp)

theorem readRecord_del (d : Bytes) : Wal.readRecord ⟨ascii "DEL" ++ 32 :: d, p, false, false⟩ = none
    ∨ readDelHeader ⟨32 :: d, p + 3, false, false⟩ ≠ none := by
  rcases hh : readDelHeader ⟨32 :: d, p + 3, false, false⟩ with _ | x
  · left
    have hne : ¬ ascii "DEL" = ascii "SET" := by decide
    unfold Wal.readRecord
    simp only []
    rw [getToken_name (.inr rfl)]
    simp only [Bool.false_eq_true, if_false, if_true, if_neg hne]
    rw [show p + (ascii "DEL").length = p + 3 from rfl, hh]
  · exact .inr (by simp)

theorem digits_of_prefix_decimal {u : Bytes} {n : ℕ} (h : u <+: decimal n) :
    ∀ c ∈ u, isDigit c = true := fun _ hc => isDigit_of_mem_decimal (h.subset hc)

theorem header_set (k v : Bytes) : (Mutation.set k v).header
    = ascii "SET" ++ (32 :: (decimal k.length ++ (32 :: (decimal v.length ++ [32])))) := by
  have h1 : ascii "SET " = ascii "SET" ++ [32] := by decide
  have h2 : ascii " " = [32] := by decide
  simp [Mutation.header, h1, h2]

theorem header_del (k : Bytes) : (Mutation.del k).header
    = ascii "DEL" ++ (32 :: (decimal k.length ++ [32])) := by
  have h1 : ascii "DEL " = ascii "DEL" ++ [32] := by decide
  have h2 : ascii " " = [32] := by decide
  simp [Mutation.header, h1, h2]

/-- A header cut short is not made whole by the record written after it. -/
theorem readRecord_torn_header (ht : t <+: r.header) (hlt : t ≠ r.header) (hne : t ≠ [])
    (hc : IsOp c) : Wal.readRecord ⟨t ++ c :: q, p, false, false⟩ = none := by
  have hbad : ∀ {op : Bytes}, (op = ascii "SET" ∨ op = ascii "DEL") → t <+: op →
      Wal.readRecord ⟨t ++ c :: q, p, false, false⟩ = none := fun hop hto =>
    readRecord_bad_op (getToken_torn hop hto hne hc).1 (getToken_torn hop hto hne hc).2
  cases r with
  | set k v =>
    rw [header_set] at ht hlt
    rcases prefix_append_cases ht with hto | ⟨u, rfl, hu⟩
    · exact hbad (.inl rfl) hto
    rcases u with _ | ⟨b, u⟩
    · exact hbad (.inl rfl) (by simp)
    obtain ⟨rfl, hu'⟩ := List.cons_prefix_cons.1 hu
    rw [List.append_assoc, List.cons_append]
    refine (readRecord_set _).resolve_right (not_not.2 ?_)
    rcases prefix_append_cases hu' with hd | ⟨w, rfl, hw⟩
    · exact readSetHeader_torn₁ (digits_of_prefix_decimal hd) hc
    rcases w with _ | ⟨b, w⟩
    · exact readSetHeader_torn₁ (fun c hc => isDigit_of_mem_decimal (by simpa using hc)) hc
    obtain ⟨rfl, hw'⟩ := List.cons_prefix_cons.1 hw
    rw [List.append_assoc, List.cons_append]
    rcases prefix_append_cases hw' with hd | ⟨x, rfl, hx⟩
    · exact readSetHeader_torn₂ (digits_of_prefix_decimal hd) hc
    rcases x with _ | ⟨b, x⟩
    · exact readSetHeader_torn₂ (fun c hc => isDigit_of_mem_decimal (by simpa using hc)) hc
    · obtain ⟨rfl, hx'⟩ := List.cons_prefix_cons.1 hx
      rw [List.prefix_nil] at hx'
      exact absurd (by rw [hx']) hlt
  | del k =>
    rw [header_del] at ht hlt
    rcases prefix_append_cases ht with hto | ⟨u, rfl, hu⟩
    · exact hbad (.inr rfl) hto
    rcases u with _ | ⟨b, u⟩
    · exact hbad (.inr rfl) (by simp)
    obtain ⟨rfl, hu'⟩ := List.cons_prefix_cons.1 hu
    rw [List.append_assoc, List.cons_append]
    refine (readRecord_del _).resolve_right (not_not.2 ?_)
    rcases prefix_append_cases hu' with hd | ⟨w, rfl, hw⟩
    · exact readDelHeader_torn (digits_of_prefix_decimal hd) hc
    rcases w with _ | ⟨b, w⟩
    · exact readDelHeader_torn (fun c hc => isDigit_of_mem_decimal (by simpa using hc)) hc
    · obtain ⟨rfl, hw'⟩ := List.cons_prefix_cons.1 hw
      rw [List.prefix_nil] at hw'
      exact absurd (by rw [hw']) hlt

end Torn

end Redon

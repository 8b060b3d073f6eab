import Redon.Proofs.Replay

/-!
# Any file as records

The readers accept more than what the writers write: white space before a record, any amount of it
between the lengths, signs and leading zeros. A chunk is a piece of a file that is read as one
record, whatever comes behind it (`Chunk`). Every file is chunks and then something that is not read
(`exists_chunks`).
-/

namespace Redon

open Lib Lib.IStream Mutation

variable {l w : Bytes} {p : ℕ} {r : Mutation} {t : IStream}

section Takes

theorem append_cons_head {c d : UInt8} {m : Bytes} (h : c :: l = w ++ d :: m) (q : Bytes) :
    ∃ m', w ++ d :: q = c :: m' := by
  cases w with
  | nil => exact ⟨q, by rw [(List.cons.inj h).1]; rfl⟩
  | cons b w => exact ⟨w ++ d :: q, by rw [(List.cons.inj h).1]; rfl⟩

theorem readSetHeader_takes {x : ℕ × ℕ} (h : readSetHeader ⟨l, p, false, false⟩ = some (x, t)) :
    ∃ w m, l = w ++ 32 :: m ∧ Takes readSetHeader x (w ++ [32])
      ∧ fieldOk x.1 = true ∧ fieldOk x.2 = true := by
  unfold readSetHeader at h
  rcases h₁ : getSize ⟨l, p, false, false⟩ with ⟨kl, s₁⟩
  rcases h₂ : getSize s₁ with ⟨vl, s₂⟩
  rcases h₃ : get s₂ with ⟨c, s₃⟩
  simp only [h₁, h₂, h₃] at h
  split_ifs at h with hf hok hc
  obtain ⟨rfl, rfl⟩ := Prod.mk.inj (Option.some.inj h)
  obtain ⟨-, hg₂, -⟩ := get_extend (q := []) (c := 32) (s := s₂) (by rw [h₃]; exact hc)
  have hg₁ : s₁.good = true := good_of_getSize (by rw [h₂]; exact (good_iff.1 hg₂).2)
  obtain ⟨w₁, c₁, m₁, rfl, hp₁⟩ := getSize_peeks h₁ hg₁
  obtain ⟨-, rfl⟩ := Prod.mk.inj ((hp₁ m₁ p).symm.trans h₁)
  obtain ⟨w₂, c₂, m₂, hm, hp₂⟩ := getSize_peeks h₂ hg₂
  rw [hm] at h₂
  obtain ⟨-, rfl⟩ := Prod.mk.inj ((hp₂ m₂ _).symm.trans h₂)
  rw [hc] at h₃
  obtain ⟨m₃, heq, -⟩ := get_split h₃
  obtain ⟨rfl, rfl⟩ := List.cons.inj heq
  rw [Bool.and_eq_true] at hok
  refine ⟨w₁ ++ w₂, m₂, by simp [hm], fun q p' => ?_, hok⟩
  -- the second length starts with the byte the first one stops in front of
  obtain ⟨m', hm'⟩ := append_cons_head hm q
  have hsplit : w₁ ++ w₂ ++ [32] ++ q = w₁ ++ c₁ :: m' := by
    rw [← hm']
    simp
  unfold readSetHeader
  simp only [hsplit, hp₁ m']
  rw [← hm', hp₂ q]
  simp only [Bool.false_eq_true, if_false, hok.1, hok.2, Bool.and_self, if_true, get_cons,
    List.length_append, List.length_cons, List.length_nil]
  rw [Nat.add_assoc p', Nat.add_assoc p']

theorem readDelHeader_takes {kl : ℕ} (h : readDelHeader ⟨l, p, false, false⟩ = some (kl, t)) :
    ∃ w m, l = w ++ 32 :: m ∧ Takes readDelHeader kl (w ++ [32]) ∧ fieldOk kl = true := by
  unfold readDelHeader at h
  rcases h₁ : getSize ⟨l, p, false, false⟩ with ⟨n, s₁⟩
  rcases h₂ : get s₁ with ⟨c, s₂⟩
  simp only [h₁, h₂] at h
  split_ifs at h with hf hok hc
  obtain ⟨rfl, rfl⟩ := Prod.mk.inj (Option.some.inj h)
  obtain ⟨-, hg₁, -⟩ := get_extend (q := []) (c := 32) (s := s₁) (by rw [h₂]; exact hc)
  obtain ⟨w₁, c₁, m₁, rfl, hp₁⟩ := getSize_peeks h₁ hg₁
  obtain ⟨-, rfl⟩ := Prod.mk.inj ((hp₁ m₁ p).symm.trans h₁)
  rw [hc] at h₂
  obtain ⟨m₂, heq, -⟩ := get_split h₂
  obtain ⟨rfl, rfl⟩ := List.cons.inj heq
  refine ⟨w₁, m₁, rfl, fun q p' => ?_, hok⟩
  have hsplit : w₁ ++ [32] ++ q = w₁ ++ 32 :: q := by simp
  unfold readDelHeader
  simp only [hsplit, hp₁ q, Bool.false_eq_true, if_false, hok, if_true, get_cons,
    List.length_append, List.length_cons, List.length_nil]
  rw [Nat.add_assoc]

end Takes

section Chunk

/-- `w` is read as the record `r`, whatever comes behind it, and ends with the data of `r`. -/
structure Chunk (w : Bytes) (r : Mutation) : Prop where
  body : ∃ hd, w = hd ++ r.body
  takes : Takes Wal.readRecord r w

theorem Chunk.ne_nil (h : Chunk w r) : w ≠ [] := by
  obtain ⟨hd, rfl⟩ := h.body
  cases r <;> simp [Mutation.body, ascii]

theorem chunk_encode (h : r.Ok) : Chunk r.encode r :=
  ⟨⟨r.header, rfl⟩, fun _ _ => readRecord_encode h⟩

/-- An operation's name and the header behind it: the bytes read are the same, whatever the data
is. -/
theorem header_takes {α : Type} {f : IStream → Option (α × IStream)} {x : α} {ok : Prop}
    {op : Bytes} {s₁ s₂ : IStream} (h₁ : getToken ⟨l, p, false, false⟩ = (op, s₁))
    (hg : s₁.good = true) (h₂ : f s₁ = some (x, s₂))
    (hf : ∀ {l : Bytes} {p : ℕ}, f ⟨l, p, false, false⟩ = some (x, s₂) →
      ∃ w m, l = w ++ 32 :: m ∧ Takes f x (w ++ [32]) ∧ ok) :
    ∃ hd m, l = hd ++ m ∧ s₂ = ⟨m, p + hd.length, false, false⟩ ∧ ok ∧ ∀ q p', ∃ s,
      getToken ⟨hd ++ q, p', false, false⟩ = (op, s) ∧ s.failbit = false
      ∧ f s = some (x, ⟨q, p' + hd.length, false, false⟩) := by
  obtain ⟨w₁, c, m₁, rfl, hp⟩ := getToken_peeks h₁ hg
  obtain ⟨-, rfl⟩ := Prod.mk.inj ((hp m₁ p).symm.trans h₁)
  obtain ⟨w₂, m₂, hm, ht, hok⟩ := hf h₂
  have hlen : (w₁ ++ (w₂ ++ [32])).length = w₁.length + (w₂ ++ [32]).length := List.length_append
  refine ⟨w₁ ++ (w₂ ++ [32]), m₂, by rw [hm]; simp, ?_, hok, fun q p' => ?_⟩
  · have hread := ht m₂ (p + w₁.length)
    rw [List.append_assoc, List.singleton_append, ← hm, h₂] at hread
    rw [(Prod.mk.inj (Option.some.inj hread)).2, hlen, Nat.add_assoc]
  · obtain ⟨m', hm'⟩ := append_cons_head hm q
    have hsplit : w₁ ++ (w₂ ++ [32]) ++ q = w₁ ++ c :: m' := by
      rw [← hm']
      simp
    rw [hsplit]
    refine ⟨_, hp m' p', rfl, ?_⟩
    have hread := ht q (p' + w₁.length)
    rw [List.append_assoc, List.singleton_append, hm'] at hread
    rw [hread, hlen, Nat.add_assoc]

/-- What is read as a record is a chunk. -/
theorem readRecord_chunk (h : Wal.readRecord ⟨l, p, false, false⟩ = some (r, t)) :
    ∃ w, l = w ++ t.rest ∧ Chunk w r ∧ r.Ok := by
  unfold Wal.readRecord at h
  rcases h₁ : getToken ⟨l, p, false, false⟩ with ⟨op, s₁⟩
  simp only [h₁] at h
  split_ifs at h with hf hset hdel
  · rcases h₂ : readSetHeader s₁ with _ | ⟨⟨kl, vl⟩, s₂⟩ <;> rw [h₂] at h
    · cases h
    rcases h₃ : s₂.read kl with ⟨k, s₃⟩
    rcases h₄ : s₃.read vl with ⟨v, s₄⟩
    rcases h₅ : s₄.get with ⟨c, s₅⟩
    simp only [h₃, h₄, h₅] at h
    split_ifs at h with hf₄ hc
    obtain ⟨rfl, rfl⟩ := Prod.mk.inj (Option.some.inj h)
    obtain ⟨hd, m₂, rfl, rfl, hok, hread⟩ := header_takes h₁
      (readSetHeader_extend (q := []) h₂).2 h₂ readSetHeader_takes
    obtain ⟨-, hg₃, -⟩ := read_extend (q := []) (s := s₃) (n := vl) (by rw [h₄]; simpa using hf₄)
    obtain ⟨m₃, rfl, rfl, rfl⟩ := read_split h₃ (good_iff.1 hg₃).2
    obtain ⟨m₄, rfl, rfl, rfl⟩ := read_split h₄ (by simpa using hf₄)
    rw [hc] at h₅
    obtain ⟨m₅, rfl, rfl⟩ := get_split h₅
    refine ⟨hd ++ (Mutation.set k v).body, ?_, ⟨⟨_, rfl⟩, fun q p' => ?_⟩, hok⟩
    · simp [Mutation.body, ascii]
    · have hbody : (Mutation.set k v).body ++ q = k ++ (v ++ 10 :: q) := by
        simp [Mutation.body, ascii]
      have hlen : (Mutation.set k v).body.length = k.length + v.length + 1 := by
        simp [Mutation.body, ascii, Nat.add_assoc]
      obtain ⟨s, htok, hfail, hhead⟩ := hread (k ++ (v ++ 10 :: q)) p'
      rw [List.append_assoc _ _ q, hbody]
      unfold Wal.readRecord
      simp only [htok, hfail, Bool.false_eq_true, if_false, if_pos hset, hhead, read_append,
        get_cons, if_true]
      simp only [Option.some.injEq, Prod.mk.injEq, IStream.mk.injEq, true_and, and_true]
      simp only [List.length_append, hlen]
      omega
  · rcases h₂ : readDelHeader s₁ with _ | ⟨kl, s₂⟩ <;> rw [h₂] at h
    · cases h
    rcases h₃ : s₂.read kl with ⟨k, s₃⟩
    rcases h₄ : s₃.get with ⟨c, s₄⟩
    simp only [h₃, h₄] at h
    split_ifs at h with hf₃ hc
    obtain ⟨rfl, rfl⟩ := Prod.mk.inj (Option.some.inj h)
    obtain ⟨hd, m₂, rfl, rfl, hok, hread⟩ := header_takes h₁
      (readDelHeader_extend (q := []) h₂).2 h₂ readDelHeader_takes
    obtain ⟨m₃, rfl, rfl, rfl⟩ := read_split h₃ (by simpa using hf₃)
    rw [hc] at h₄
    obtain ⟨m₄, rfl, rfl⟩ := get_split h₄
    refine ⟨hd ++ (Mutation.del k).body, ?_, ⟨⟨_, rfl⟩, fun q p' => ?_⟩, hok⟩
    · simp [Mutation.body, ascii]
    · have hbody : (Mutation.del k).body ++ q = k ++ 10 :: q := by
        simp [Mutation.body, ascii]
      have hlen : (Mutation.del k).body.length = k.length + 1 := by
        simp [Mutation.body, ascii]
      obtain ⟨s, htok, hfail, hhead⟩ := hread (k ++ 10 :: q) p'
      rw [List.append_assoc _ _ q, hbody]
      unfold Wal.readRecord
      simp only [htok, hfail, Bool.false_eq_true, if_false, if_neg hset, if_pos hdel, hhead,
        read_append, get_cons, if_true]
      simp only [Option.some.injEq, Prod.mk.injEq, IStream.mk.injEq, true_and, and_true]
      simp only [List.length_append, hlen]
      omega

end Chunk

section File

/-- Nothing is read from `t`. -/
def Unread (t : Bytes) : Prop := ∀ p, Wal.readRecord ⟨t, p, false, false⟩ = none

theorem unread_of_none (h : Wal.readRecord ⟨l, p, false, false⟩ = none) : Unread l := by
  intro p'
  rcases hr : Wal.readRecord ⟨l, p', false, false⟩ with _ | ⟨r, t⟩
  · rfl
  · obtain ⟨w, rfl, hw, -⟩ := readRecord_chunk hr
    rw [hw.takes t.rest p] at h
    cases h

theorem readRecord_blanks {bl : Bytes} (h : ∀ b ∈ bl, isBlank b = true) (l : Bytes) (p : ℕ) :
    Wal.readRecord ⟨bl ++ l, p, false, false⟩
      = Wal.readRecord ⟨l, p + bl.length, false, false⟩ := by
  unfold Wal.readRecord
  rw [getToken_blanks h]

theorem Unread.blanks (h : Unread l) {bl : Bytes} (hb : ∀ b ∈ bl, isBlank b = true) :
    Unread (bl ++ l) := fun p => (readRecord_blanks hb l p).trans (h _)

theorem Chunk.blanks (h : Chunk w r) {bl : Bytes} (hb : ∀ b ∈ bl, isBlank b = true) :
    Chunk (bl ++ w) r := by
  obtain ⟨⟨hd, rfl⟩, htakes⟩ := h
  refine ⟨⟨bl ++ hd, (List.append_assoc ..).symm⟩, fun q p => ?_⟩
  have hlen : (bl ++ (hd ++ r.body)).length = bl.length + (hd ++ r.body).length :=
    List.length_append
  rw [List.append_assoc, readRecord_blanks hb, htakes, hlen, Nat.add_assoc]

theorem unread_cut (h : IsCut l) : Unread l := by
  obtain ⟨r, hpre, hne⟩ := h
  exact fun p => readRecord_cut hpre hne

/-- Every file is chunks and then something that is not read. -/
theorem exists_chunks : ∀ (n : ℕ) (l : Bytes), l.length ≤ n → ∃ ws rs t, l = ws.flatten ++ t
    ∧ List.Forall₂ Chunk ws rs ∧ (∀ r ∈ rs, r.Ok) ∧ Unread t
  | n, l, hn => by
    rcases h : Wal.readRecord ⟨l, 0, false, false⟩ with _ | ⟨r, t⟩
    · exact ⟨[], [], l, rfl, .nil, by simp, unread_of_none h⟩
    · obtain ⟨w, rfl, hw, hok⟩ := readRecord_chunk h
      have hpos := List.length_pos_iff.2 hw.ne_nil
      rw [List.length_append] at hn
      cases n with
      | zero => omega
      | succ n =>
        obtain ⟨ws, rs, t', ht, hws, hrs, hun⟩ := exists_chunks n t.rest (by omega)
        refine ⟨w :: ws, r :: rs, t', ?_, .cons hw hws, List.forall_mem_cons.2 ⟨hok, hrs⟩, hun⟩
        rw [List.flatten_cons, List.append_assoc, ← ht]

variable {ws : List Bytes} {rs : List Mutation}

theorem forall₂_chunk_encode (hok : ∀ r ∈ rs, r.Ok) : List.Forall₂ Chunk (rs.map encode) rs :=
  List.forall₂_map_left_iff.2 (List.forall₂_same.2 fun r hr => chunk_encode (hok r hr))

theorem length_le_flatten (h : List.Forall₂ Chunk ws rs) : rs.length ≤ ws.flatten.length := by
  induction h with
  | nil => exact Nat.zero_le _
  | cons hw _ ih =>
    have hpos := List.length_pos_iff.2 hw.ne_nil
    rw [List.flatten_cons, List.length_append, List.length_cons]
    omega

/-- The replay of chunks and something that is not read reads the chunks' records. -/
theorem records_chunks {t : Bytes} (hws : List.Forall₂ Chunk ws rs) (ht : Unread t) :
    Wal.records (ws.flatten ++ t) = rs := by
  refine recordsFrom_takes (hws.imp fun _ _ h => h.takes) ht ?_
  rw [List.length_append]
  exact Nat.le_add_right_of_le (length_le_flatten hws)

end File

end Redon

import Mathlib.Data.List.Infix

/-!
# Reading lines from chunks

A reader keeps what it has received and not yet cut into lines. After each chunk it takes out the
complete lines, and gives up if more than `cap` items are left over. Where lines and the rest are
within the cap the chunks do not matter (`feed_within`). A longer line is refused when it comes item
by item (`feed_singletons`), and taken when its end comes with the chunk that passes the cap
(`feed_spill`). One line alone is taken or given up (`feed_line`).
-/

namespace Lib

namespace LineReader

variable {α : Type*} [DecidableEq α] {sep : α} {cap : ℕ} {lines ls : List (List α)}
  {chunks : List (List α)} {l line rest buf t : List α}

/-- The complete lines without their ends, and what is left over. -/
def cut (sep : α) : List α → List (List α) × List α
  | [] => ([], [])
  | a :: l =>
    if a = sep then ([] :: (cut sep l).1, (cut sep l).2)
    else
      match (cut sep l).1 with
      | [] => ([], a :: (cut sep l).2)
      | line :: lines => ((a :: line) :: lines, (cut sep l).2)

/-- What `chunks` make of what the reader has: the lines, what is left over, and whether the reader
gave up. -/
def feed (sep : α) (cap : ℕ) : List α → List (List α) → List (List α) × List α × Bool
  | buf, [] => ([], buf, false)
  | buf, chunk :: chunks =>
    let p := cut sep (buf ++ chunk)
    if cap < p.2.length then (p.1, p.2, true)
    else (p.1 ++ (feed sep cap p.2 chunks).1, (feed sep cap p.2 chunks).2)

section Cut

/-- Lines with their ends. -/
def join (sep : α) (lines : List (List α)) : List α := (lines.map (· ++ [sep])).flatten

omit [DecidableEq α] in
@[simp] theorem join_nil : join sep [] = [] := rfl

omit [DecidableEq α] in
theorem join_cons : join sep (line :: lines) = line ++ sep :: join sep lines := by
  simp [join]

theorem cut_of_notMem : ∀ {l : List α}, sep ∉ l → cut sep l = ([], l)
  | [], _ => rfl
  | a :: l, h => by
    rw [List.mem_cons, not_or] at h
    rw [cut, if_neg (Ne.symm h.1), cut_of_notMem h.2]

theorem cut_line : ∀ {line : List α}, sep ∉ line → ∀ t,
    cut sep (line ++ sep :: t) = (line :: (cut sep t).1, (cut sep t).2)
  | [], _, t => by
    rw [List.nil_append, cut, if_pos rfl]
  | a :: line, h, t => by
    rw [List.mem_cons, not_or] at h
    rw [List.cons_append, cut, if_neg (Ne.symm h.1), cut_line h.2]

theorem cut_join : ∀ {lines : List (List α)}, (∀ line ∈ lines, sep ∉ line) → ∀ t,
    cut sep (join sep lines ++ t) = (lines ++ (cut sep t).1, (cut sep t).2)
  | [], _, t => rfl
  | line :: lines, h, t => by
    rw [List.forall_mem_cons] at h
    rw [join_cons, List.append_assoc, List.cons_append, cut_line h.1, cut_join h.2]
    rfl

theorem cut_lines (h : ∀ line ∈ lines, sep ∉ line) : cut sep (join sep lines) = (lines, []) := by
  have hcut := cut_join h []
  rwa [List.append_nil, cut, List.append_nil] at hcut

theorem cut_spec (sep : α) : ∀ l : List α, l = join sep (cut sep l).1 ++ (cut sep l).2
    ∧ (∀ line ∈ (cut sep l).1, sep ∉ line) ∧ sep ∉ (cut sep l).2
  | [] => ⟨rfl, by simp [cut], by simp [cut]⟩
  | a :: l => by
    obtain ⟨hl, hlines, hrest⟩ := cut_spec sep l
    rw [cut]
    split_ifs with ha
    · refine ⟨?_, List.forall_mem_cons.2 ⟨List.not_mem_nil, hlines⟩, hrest⟩
      rw [join_cons, List.nil_append, List.cons_append, ← hl, ha]
    · rcases hc : (cut sep l).1 with _ | ⟨line, lines⟩
      · rw [hc] at hl
        refine ⟨congrArg (a :: ·) hl, by simp, ?_⟩
        rw [List.mem_cons, not_or]
        exact ⟨Ne.symm ha, hrest⟩
      · rw [hc, List.forall_mem_cons] at hlines
        rw [hc] at hl
        refine ⟨congrArg (a :: ·) hl, List.forall_mem_cons.2 ⟨?_, hlines.2⟩, hrest⟩
        rw [List.mem_cons, not_or]
        exact ⟨Ne.symm ha, hlines.1⟩

/-- Lines with their ends are found again exactly if none of them has one inside. -/
theorem cut_join_iff : cut sep (join sep lines) = (lines, []) ↔ ∀ line ∈ lines, sep ∉ line := by
  refine ⟨fun h line hline => ?_, cut_lines⟩
  have hspec := (cut_spec sep (join sep lines)).2.1
  rw [h] at hspec
  exact hspec line hline

/-- Cutting can stop in between and go on with what is left over. -/
theorem cut_append (l t : List α) : cut sep (l ++ t)
    = ((cut sep l).1 ++ (cut sep ((cut sep l).2 ++ t)).1, (cut sep ((cut sep l).2 ++ t)).2) := by
  obtain ⟨hl, hlines, -⟩ := cut_spec sep l
  conv_lhs => rw [hl, List.append_assoc, cut_join hlines]

/-- The beginning of a line is no longer than the line, or than the rest if the line has no end. -/
theorem length_le_of_cut (hbuf : sep ∉ buf)
    (hl : ∀ line ∈ (cut sep (buf ++ t)).1, line.length ≤ cap)
    (hr : (cut sep (buf ++ t)).2.length ≤ cap) : buf.length ≤ cap := by
  obtain ⟨hs, -, -⟩ := cut_spec sep (buf ++ t)
  rcases hc : (cut sep (buf ++ t)).1 with _ | ⟨line, lines⟩
  · rw [hc, join_nil, List.nil_append] at hs
    rw [← hs, List.length_append] at hr
    omega
  · have hline := hl line (by rw [hc]; exact List.mem_cons_self)
    rw [hc, join_cons, List.append_assoc, List.cons_append] at hs
    rcases List.append_eq_append_iff.1 hs with ⟨m, rfl, -⟩ | ⟨m, rfl, hm⟩
    · rw [List.length_append] at hline
      omega
    · -- the end of the line would be in what has none
      rcases m with _ | ⟨b, m⟩
      · simpa using hline
      · obtain ⟨rfl, -⟩ := List.cons.inj hm
        exact absurd (List.mem_append_right _ List.mem_cons_self) hbuf

end Cut

section Feed

/-- The reader takes lines of the stream, from the first on. -/
theorem feed_first : ∀ (chunks : List (List α)) (buf : List α),
    (feed sep cap buf chunks).1 <+: (cut sep (buf ++ chunks.flatten)).1
  | [], buf => List.nil_prefix
  | chunk :: chunks, buf => by
    rw [List.flatten_cons, ← List.append_assoc, cut_append]
    simp only [feed]
    split_ifs
    · exact List.prefix_append _ _
    · exact (List.prefix_append_right_inj _).2 (feed_first chunks _)

theorem notMem_of_feed (h : line ∈ (feed sep cap buf chunks).1) : sep ∉ line :=
  (cut_spec sep (buf ++ chunks.flatten)).2.1 line ((feed_first chunks buf).subset h)

/-- Lines and a rest within the cap, in any chunks. -/
theorem feed_within : ∀ {chunks : List (List α)} {buf : List α}, sep ∉ buf →
    (∀ line ∈ (cut sep (buf ++ chunks.flatten)).1, line.length ≤ cap) →
    (cut sep (buf ++ chunks.flatten)).2.length ≤ cap →
    feed sep cap buf chunks = ((cut sep (buf ++ chunks.flatten)).1,
      (cut sep (buf ++ chunks.flatten)).2, false)
  | [], buf, hbuf, _, _ => by
    rw [List.flatten_nil, List.append_nil, cut_of_notMem hbuf, feed]
  | chunk :: chunks, buf, hbuf, hl, hr => by
    rw [List.flatten_cons, ← List.append_assoc, cut_append] at hl hr ⊢
    have hrest := (cut_spec sep (buf ++ chunk)).2.2
    have hl' := fun line h => hl line (List.mem_append_right _ h)
    have hcap := length_le_of_cut hrest hl' hr
    simp only [feed]
    rw [if_neg (Nat.not_lt.2 hcap), feed_within hrest hl' hr]

/-- One line, in any chunks: it is taken, or given up for its length. -/
theorem feed_line (hline : sep ∉ line) : ∀ {chunks : List (List α)} {buf : List α}, sep ∉ buf →
    buf ++ chunks.flatten = line ++ [sep] →
    feed sep cap buf chunks = ([line], [], false) ∨ (cap < line.length
      ∧ (feed sep cap buf chunks).1 = [] ∧ (feed sep cap buf chunks).2.2 = true)
  | [], buf, hbuf, h => by
    rw [List.flatten_nil, List.append_nil] at h
    exact absurd (h ▸ List.mem_append_right _ (List.mem_singleton_self sep)) hbuf
  | chunk :: chunks, buf, hbuf, h => by
    rw [List.flatten_cons, ← List.append_assoc] at h
    -- the line goes on behind the chunk
    have hmore : ∀ m, line = buf ++ chunk ++ m → feed sep cap buf (chunk :: chunks)
        = ([line], [], false) ∨ (cap < line.length ∧ (feed sep cap buf (chunk :: chunks)).1 = []
          ∧ (feed sep cap buf (chunk :: chunks)).2.2 = true) := by
      rintro m hm
      have hnot : sep ∉ buf ++ chunk := fun hs => hline (hm ▸ List.mem_append_left m hs)
      simp only [feed, cut_of_notMem hnot]
      split_ifs with hcap
      · refine .inr ⟨hcap.trans_le ?_, rfl, rfl⟩
        rw [hm]
        exact (List.prefix_append (buf ++ chunk) m).length_le
      · exact feed_line hline hnot h
    rcases List.append_eq_append_iff.1 h with ⟨m, hm, -⟩ | ⟨m, hm, hsep⟩
    · exact hmore m hm
    · rcases List.append_eq_singleton_iff.1 hsep.symm with ⟨rfl, -⟩ | ⟨rfl, hflat⟩
      · exact hmore [] (by rw [hm, List.append_nil, List.append_nil])
      · have hnil : feed sep cap [] chunks = ([], [], false) := by
          have hw : _ → _ → feed sep cap [] chunks = _ := feed_within List.not_mem_nil
          rw [hflat] at hw
          exact hw (by simp [cut]) (Nat.zero_le _)
        left
        simp only [feed, hm, cut_line hline, cut, hnil, List.length_nil, Nat.not_lt_zero, if_false]
        rfl

omit [DecidableEq α] in
theorem flatten_singletons (l : List α) : (l.map ([·])).flatten = l := by
  rw [← List.flatMap_def, List.flatMap_singleton']

/-- Item by item, a line or a rest over the cap is refused. -/
theorem feed_singletons : ∀ {l buf : List α}, sep ∉ buf → buf.length ≤ cap →
    ((∃ line ∈ (cut sep (buf ++ l)).1, cap < line.length) ∨ cap < (cut sep (buf ++ l)).2.length) →
    (feed sep cap buf (l.map ([·]))).2.2 = true
  | [], buf, hbuf, hlen, h => by
    rw [List.append_nil, cut_of_notMem hbuf] at h
    simp only [List.not_mem_nil, false_and, exists_false, false_or] at h
    omega
  | a :: l, buf, hbuf, hlen, h => by
    rw [List.map_cons, feed]
    by_cases ha : a = sep
    · -- the line ends within the cap, so it is another one
      rw [ha] at h ⊢
      have hcut : cut sep (buf ++ [sep]) = ([buf], []) := by
        rw [cut_line hbuf]
        rfl
      rw [cut_line hbuf, List.exists_mem_cons_iff] at h
      simp only [hcut, List.length_nil]
      rw [if_neg (Nat.not_lt_zero _)]
      refine feed_singletons List.not_mem_nil (Nat.zero_le _) ?_
      rcases h with (h | h) | h
      · omega
      · exact .inl h
      · exact .inr h
    · have hbuf' : sep ∉ buf ++ [a] := by
        rw [List.mem_append, List.mem_singleton, not_or]
        exact ⟨hbuf, Ne.symm ha⟩
      simp only [cut_of_notMem hbuf']
      split_ifs with hcap
      · rfl
      · refine feed_singletons hbuf' (Nat.not_lt.1 hcap) ?_
        rwa [List.append_assoc, List.singleton_append]

/-- Chunks that stay within the cap, and one more that ends the line. -/
theorem feed_spill : ∀ {chunks : List (List α)} {buf : List α}, sep ∉ buf ++ chunks.flatten ++ t →
    (buf ++ chunks.flatten).length ≤ cap →
    feed sep cap buf (chunks ++ [t ++ [sep]]) = ([buf ++ chunks.flatten ++ t], [], false)
  | [], buf, hsep, hlen => by
    rw [List.flatten_nil, List.append_nil] at hsep ⊢
    rw [List.nil_append, feed, ← List.append_assoc, cut_line hsep]
    simp [cut, feed]
  | chunk :: chunks, buf, hsep, hlen => by
    rw [List.flatten_cons, ← List.append_assoc] at hsep hlen ⊢
    have hbuf : sep ∉ buf ++ chunk := fun h =>
      hsep (List.mem_append_left _ (List.mem_append_left _ h))
    have hcap : (buf ++ chunk).length ≤ cap := by
      rw [List.length_append] at hlen
      omega
    rw [List.cons_append, feed]
    simp only [cut_of_notMem hbuf]
    rw [if_neg (Nat.not_lt.2 hcap), feed_spill hsep hlen]
    rfl

end Feed

end LineReader

end Lib

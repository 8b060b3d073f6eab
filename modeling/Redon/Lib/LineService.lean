import Redon.Lib.LineReader

/-!
# Serving lines

A service takes the complete lines out of what it has received and handles them one after another,
until one closes it. If more than `cap` items are left over it closes too. So it handles the lines
that the reader takes, whatever the chunks (`receiveAll_feed`), and where lines and the rest are
within the cap these are the lines of the stream (`receiveAll_within`). One line alone is handled or
refused (`receiveAll_line`).
-/

namespace Lib

open LineReader

/-- The items up to the first that `p` holds of, with that one. -/
def upTo {β : Type*} (p : β → Bool) : List β → List β
  | [] => []
  | b :: l => if p b then [b] else b :: upTo p l

structure LineService (α σ : Type*) where
  handle : σ → List α → σ
  closed : σ → Bool
  /-- Closes, for too long a line. -/
  refuse : σ → σ
  closed_refuse : ∀ s, closed (refuse s) = true

namespace LineService

variable {α σ : Type*} [DecidableEq α] (v : LineService α σ) (sep : α) (cap : ℕ)

/-- Every complete line of the buffer, until one closes the service. -/
def handleLines : ℕ → σ → List α → σ × List α
  | 0, s, b => (s, b)
  | fuel + 1, s, b =>
    if v.closed s then (s, b)
    else if sep ∈ b then
      handleLines fuel (v.handle s (b.takeWhile (· ≠ sep))) ((b.dropWhile (· ≠ sep)).drop 1)
    else (s, b)

/-- The check of what is left over. -/
def check (s : σ) (tooLong : Bool) : σ := if !v.closed s && tooLong then v.refuse s else s

/-- One chunk: the lines it completes, and then the check. -/
def receive (p : σ × List α) (chunk : List α) : σ × List α :=
  if v.closed p.1 then p
  else
    let q := v.handleLines sep (p.2 ++ chunk).length p.1 (p.2 ++ chunk)
    (v.check q.1 (cap < q.2.length), q.2)

def receiveAll (p : σ × List α) (chunks : List (List α)) : σ × List α :=
  chunks.foldl (v.receive sep cap) p

/-- The lines are handled in turn, until one closes the service. -/
def handleAll : σ → List (List α) → σ
  | s, [] => s
  | s, line :: lines => if v.closed s then s else handleAll (v.handle s line) lines

variable {v sep cap} {s : σ} {p : σ × List α} {line : List α} {lines : List (List α)}

omit [DecidableEq α] in
theorem handleAll_closed (h : v.closed s = true) : v.handleAll s lines = s := by
  cases lines with
  | nil => rfl
  | cons line lines => rw [handleAll, if_pos h]

omit [DecidableEq α] in
theorem handleAll_cons (h : v.closed s = false) :
    v.handleAll s (line :: lines) = v.handleAll (v.handle s line) lines := by
  rw [handleAll, h]
  rfl

omit [DecidableEq α] in
theorem handleAll_append : ∀ (ls : List (List α)) (s : σ),
    v.handleAll s (ls ++ lines) = v.handleAll (v.handleAll s ls) lines
  | [], _ => rfl
  | line :: ls, s => by
    rcases hc : v.closed s with _ | _
    · rw [List.cons_append, handleAll_cons hc, handleAll_cons hc]
      exact handleAll_append ls _
    · rw [handleAll_closed hc, handleAll_closed hc, handleAll_closed hc]

omit [DecidableEq α] in
theorem check_closed (h : v.closed s = true) (tooLong : Bool) : v.check s tooLong = s := by
  rw [check, h]
  rfl

omit [DecidableEq α] in
theorem check_false (s : σ) : v.check s false = s := by
  rw [check, Bool.and_false]
  rfl

omit [DecidableEq α] in
theorem closed_check (s : σ) : v.closed (v.check s true) = true := by
  rcases h : v.closed s with _ | _
  · rw [check, h]
    exact v.closed_refuse s
  · rw [check_closed h, h]

theorem takeWhile_line (h : sep ∉ line) (rest : List α) :
    (line ++ sep :: rest).takeWhile (· ≠ sep) = line
      ∧ ((line ++ sep :: rest).dropWhile (· ≠ sep)).drop 1 = rest := by
  have hne : ∀ a ∈ line, decide (a ≠ sep) = true := by
    intro a ha
    simpa using fun he : a = sep => h (he ▸ ha)
  rw [List.takeWhile_append_of_pos hne, List.dropWhile_append_of_pos hne]
  simp

variable (v sep cap)

/-- The loop over the buffer. What it leaves there is not looked at after a close. -/
theorem handleLines_cut : ∀ (fuel : ℕ) (s : σ) {b : List α}, b.length ≤ fuel →
    (v.handleLines sep fuel s b).1 = v.handleAll s (cut sep b).1
      ∧ (v.closed (v.handleAll s (cut sep b).1) = false →
        (v.handleLines sep fuel s b).2 = (cut sep b).2)
  | 0, s, b, hf => by
    obtain rfl : b = [] := List.eq_nil_of_length_eq_zero (Nat.le_zero.1 hf)
    exact ⟨rfl, fun _ => rfl⟩
  | fuel + 1, s, b, hf => by
    rw [handleLines]
    rcases hc : v.closed s with _ | _
    · rw [if_neg Bool.false_ne_true]
      split_ifs with hb
      · obtain ⟨line, rest, rfl, hline⟩ := List.eq_append_cons_of_mem hb
        obtain ⟨htake, hdrop⟩ := takeWhile_line hline rest
        rw [List.length_append, List.length_cons] at hf
        have hrest : rest.length ≤ fuel := by omega
        rw [htake, hdrop, cut_line hline, handleAll_cons hc]
        exact handleLines_cut fuel _ hrest
      · rw [cut_of_notMem hb]
        exact ⟨rfl, fun _ => rfl⟩
    · rw [if_pos rfl, handleAll_closed hc]
      refine ⟨rfl, fun h => ?_⟩
      rw [hc] at h
      cases h

theorem receive_cut (s : σ) (buf chunk : List α) :
    (v.receive sep cap (s, buf) chunk).1 = v.check (v.handleAll s (cut sep (buf ++ chunk)).1)
        (cap < (cut sep (buf ++ chunk)).2.length)
      ∧ (v.closed (v.handleAll s (cut sep (buf ++ chunk)).1) = false →
        (v.receive sep cap (s, buf) chunk).2 = (cut sep (buf ++ chunk)).2) := by
  rw [receive]
  rcases hc : v.closed s with _ | _
  · obtain ⟨hs, hb⟩ := v.handleLines_cut sep (buf ++ chunk).length s
      (le_refl (buf ++ chunk).length)
    rw [if_neg Bool.false_ne_true]
    refine ⟨?_, hb⟩
    simp only [hs]
    rcases hc' : v.closed (v.handleAll s (cut sep (buf ++ chunk)).1) with _ | _
    · rw [hb hc']
    · rw [check_closed hc', check_closed hc']
  · rw [if_pos rfl, handleAll_closed hc, check_closed hc]
    refine ⟨rfl, fun h => ?_⟩
    rw [hc] at h
    cases h

theorem receiveAll_closed (h : v.closed p.1 = true) : ∀ chunks : List (List α),
    v.receiveAll sep cap p chunks = p
  | [] => rfl
  | chunk :: chunks => by
    have hr : v.receive sep cap p chunk = p := by
      rw [receive, if_pos h]
    rw [receiveAll, List.foldl_cons, hr]
    exact receiveAll_closed h chunks

/-- A service handles the lines that the reader takes, in turn, until one closes it; it closes
itself when the reader gives up. -/
theorem receiveAll_feed : ∀ (chunks : List (List α)) (s : σ) (buf : List α),
    (v.receiveAll sep cap (s, buf) chunks).1
        = v.check (v.handleAll s (feed sep cap buf chunks).1) (feed sep cap buf chunks).2.2
      ∧ (v.closed (v.handleAll s (feed sep cap buf chunks).1) = false →
        (v.receiveAll sep cap (s, buf) chunks).2 = (feed sep cap buf chunks).2.1)
  | [], s, buf => ⟨(check_false s).symm, fun _ => rfl⟩
  | chunk :: chunks, s, buf => by
    obtain ⟨hs, hb⟩ := v.receive_cut sep cap s buf chunk
    rw [receiveAll, List.foldl_cons, feed]
    rcases hr : v.receive sep cap (s, buf) chunk with ⟨s', b'⟩
    rw [hr] at hs hb
    obtain rfl : s' = _ := hs
    set t := v.handleAll s (cut sep (buf ++ chunk)).1 with ht
    by_cases hover : cap < (cut sep (buf ++ chunk)).2.length
    · simp only [hover, decide_true, if_true]
      have hall : chunks.foldl (v.receive sep cap) (v.check t true, b') = _ :=
        v.receiveAll_closed sep cap (closed_check t) chunks
      rw [hall]
      exact ⟨rfl, hb⟩
    · simp only [hover, decide_false, if_false, handleAll_append, check_false, ← ht]
      rcases hc : v.closed t with _ | _
      · obtain rfl : b' = _ := hb hc
        exact receiveAll_feed chunks t _
      · have hall : chunks.foldl (v.receive sep cap) (t, b') = _ :=
          v.receiveAll_closed sep cap hc chunks
        rw [hall, handleAll_closed hc, check_closed hc]
        refine ⟨rfl, fun h => ?_⟩
        rw [hc] at h
        cases h

/-- Lines and a rest within the cap, in any chunks. -/
theorem receiveAll_within {chunks : List (List α)}
    (hl : ∀ line ∈ (cut sep chunks.flatten).1, line.length ≤ cap)
    (hr : (cut sep chunks.flatten).2.length ≤ cap) (s : σ) :
    (v.receiveAll sep cap (s, []) chunks).1 = v.handleAll s (cut sep chunks.flatten).1 := by
  have hfeed : feed sep cap [] chunks = _ := feed_within List.not_mem_nil hl hr
  rw [(v.receiveAll_feed sep cap chunks s []).1, hfeed, check_false]
  rfl

/-- One line in any chunks is handled, or refused for its length. -/
theorem receiveAll_line {chunks : List (List α)} (hline : sep ∉ line)
    (h : chunks.flatten = line ++ [sep]) (hs : v.closed s = false) :
    (v.receiveAll sep cap (s, []) chunks).1 = v.handle s line
      ∨ (cap < line.length ∧ (v.receiveAll sep cap (s, []) chunks).1 = v.refuse s) := by
  rw [(v.receiveAll_feed sep cap chunks s []).1]
  have hone : feed sep cap [] chunks = _ ∨ _ := feed_line hline List.not_mem_nil h
  rcases hone with hfeed | ⟨hlen, hnone, hgave⟩
  · rw [hfeed, check_false, handleAll_cons hs]
    exact .inl rfl
  · rw [hnone, hgave, handleAll, check, hs]
    exact .inr ⟨hlen, rfl⟩

omit [DecidableEq α] in
variable {v} in
/-- Where the line alone decides whether the service closes, the lines handled are those up to the
first that closes it. -/
theorem handleAll_upTo {closes : List α → Bool}
    (h : ∀ s line, v.closed (v.handle s line) = closes line) : ∀ (lines : List (List α)) {s : σ},
    v.closed s = false → v.handleAll s lines = (upTo closes lines).foldl v.handle s
      ∧ v.closed (v.handleAll s lines) = lines.any closes
  | [], s, hs => ⟨rfl, hs⟩
  | line :: lines, s, hs => by
    rw [handleAll_cons hs, upTo, List.any_cons]
    rcases hc : closes line with _ | _
    · rw [if_neg Bool.false_ne_true, Bool.false_or]
      exact handleAll_upTo h lines ((h s line).trans hc)
    · have hclosed : v.closed (v.handle s line) = true := (h s line).trans hc
      rw [if_pos rfl, handleAll_closed hclosed, Bool.true_or]
      exact ⟨rfl, hclosed⟩

end LineService

end Lib

import Redon.Links
import Redon.Proofs.FullSync

/-!
# Followers on one timeline

Seen from one link, a leader with several followers is a leader with this one: what happens on the
other links is no step at all (`view_step`). The changes that a link was handed, with those still on
their way to it, are the same for all links (`Timed`). So the followers' maps are points of one
timeline, the maps that the changes make of the leader's first one after the other.
-/

namespace Redon

open Lib Mutation Storage

namespace Replicator

/-- How many changes have come to a follower that executed the snapshot and then lines of the
stream: those before the cut, and one with each of these lines but the heartbeats. -/
def Cut.position (k : Cut) (ls : List Bytes) : ℕ :=
  k.before + ((ls.drop k.leader.size).filter (· ≠ ping)).length

theorem Inv.position {m₀ m₁ : Map} {s : State} (h : Inv m₀ m₁ s) {c : ℕ} {k : Cut}
    (hk : (s.conn c).trail.cut = some k) (hu : (s.conn c).trail.unread = 0)
    {log : List (ℕ × Bytes)} {ls : List Bytes}
    (hlog : s.log = log ++ (c, hello) :: ls.map fun l => (c, l)) (hn : k.leader.size ≤ ls.length) :
    k.position ls ≤ s.leader.changes.length
    ∧ s.follower.store.toMap = applyAll m₀ (s.leader.changes.take (k.position ls)) := by
  obtain ⟨hcut, hle, hmap⟩ := h.afterCut hk hu hlog hn
  have hbefore := hcut.1
  rw [List.length_drop] at hle
  refine ⟨by rw [Cut.position]; omega, ?_⟩
  rw [hmap, hcut.2, ← applyAll_append, ← List.take_add, Cut.position]

section Sender

variable {s s' : State} {c : ℕ}

/-- The leader but for the link. -/
def SameCalls (s s' : State) : Prop :=
  s'.leader = { s.leader with link := s'.leader.link }

theorem sendLine_sameCalls {line : Bytes} {failed : Option ℕ} {next : Sender}
    (hs : s.sendLine c line failed next = some s') : SameCalls s s' := by
  cases failed with
  | none =>
    obtain rfl := Option.some.inj hs
    rfl
  | some n =>
    simp only [State.sendLine] at hs
    split_ifs at hs
    obtain rfl := Option.some.inj hs
    rfl

theorem wake_sameCalls (s : State) (c : ℕ) : SameCalls s (s.wake c) := by
  simp only [State.wake]
  split_ifs
  · rfl
  · cases s.leader.link.queue <;> rfl

theorem readEntry_sameCalls {kv : Σ _ : Bytes, Entry} {index : List (Σ _ : Bytes, Entry)}
    {snapshot : List (Bytes × Bytes)} {success : Bool}
    (hs : s.readEntry c kv index snapshot success = some s') : SameCalls s s' := by
  unfold State.readEntry at hs
  split at hs
  · cases hs
  · split at hs <;> obtain rfl := Option.some.inj hs <;> rfl

/-- A sender changes nothing of the leader but its link. -/
theorem senderStep_sameCalls {a : SenderAction} (hs : s.senderStep a = some s') :
    SameCalls s s' := by
  unfold State.senderStep at hs
  split at hs
  · split_ifs at hs <;> obtain rfl := Option.some.inj hs <;> rfl
  · exact sendLine_sameCalls hs
  · split_ifs at hs
    · split at hs
      · cases hs
      · obtain rfl := Option.some.inj hs
        rfl
    · obtain rfl := Option.some.inj hs
      rfl
  · split_ifs at hs
    obtain rfl := Option.some.inj hs
    rfl
  · split_ifs at hs <;> obtain rfl := Option.some.inj hs <;> rfl
  · exact readEntry_sameCalls hs
  · exact sendLine_sameCalls hs
  · obtain rfl := Option.some.inj hs
    exact wake_sameCalls s _
  · exact sendLine_sameCalls hs
  · obtain rfl := Option.some.inj hs
    rfl
  · obtain rfl := Option.some.inj hs
    rfl
  · cases hs

end Sender

namespace Links

variable {n : ℕ} {p : Followers n} {s s' : Links n} {i j : Fin n}

section View

theorem handed_nil (i : Fin n) : handed [] i = [] := rfl

theorem handed_append (rs rs' : List (Fin n × Replicated)) (i : Fin n) :
    handed (rs ++ rs') i = handed rs i ++ handed rs' i := by
  simp [handed]

theorem handed_cons_self (i : Fin n) (r : Replicated) (rs : List (Fin n × Replicated)) :
    handed ((i, r) :: rs) i = r :: handed rs i := by
  simp [handed]

theorem handed_cons_of_ne (h : j ≠ i) (r : Replicated) (rs : List (Fin n × Replicated)) :
    handed ((j, r) :: rs) i = handed rs i := by
  simp [handed, h]

/-- The loop over the links comes to each of them once. -/
theorem handed_finRange (r : Replicated) (i : Fin n) :
    handed ((List.finRange n).map fun i => (i, r)) i = [r] := by
  have hone : (List.finRange n).filter (fun j => decide (j = i)) = [i] := by
    have hcount := (List.nodup_finRange n).count (a := i)
    rw [if_pos (List.mem_finRange i)] at hcount
    rw [List.filter_eq, hcount, List.replicate_one]
  rw [handed, List.filter_map, List.map_map]
  exact congrArg (List.map fun _ => r) hone

/-- Each link is handed every change, in the order they were made. -/
theorem handed_handOver (rs : List Replicated) (i : Fin n) : handed (handOver rs) i = rs := by
  induction rs with
  | nil => rfl
  | cons r rs ih =>
    rw [handOver, List.flatMap_cons, handed_append, handed_finRange]
    exact congrArg _ ih

theorem view_put_self {t : State} (h : SameCalls (s.view i) t) : (s.put i t).view i = t := by
  have hleader : (⟨s.store, handed s.pending i, t.leader.link, handed s.history i⟩ : Leader)
      = t.leader := h.symm
  simp only [put, view, Function.update_self, hleader]

theorem view_put_of_ne (h : j ≠ i) (t : State) : (s.put i t).view j = s.view j := by
  simp only [put, view, Function.update_of_ne h]

theorem view_setLink_of_ne (h : j ≠ i) (link : Link) : (s.setLink i link).view j = s.view j := by
  simp only [setLink, view, Function.update_of_ne h]

end View

section Step

variable {t : State} {b : Replicator.Action}

/-- A step on link `i` is one for its follower and none for the others. -/
theorem view_put (h : SameCalls (s.view i) t) (hstep : (p.pair i).step (s.view i) b = some t)
    (j : Fin n) :
    (s.put i t).view j = s.view j ∨ (p.pair j).step (s.view j) b = some ((s.put i t).view j) := by
  by_cases hj : j = i
  · subst hj
    rw [view_put_self h]
    exact .inr hstep
  · exact .inl (view_put_of_ne hj t)

/-- What a step is to the leader and one of its followers. -/
theorem view_step {a : Action n} (hs : p.step s a = some s') (j : Fin n) :
    s'.view j = s.view j ∨ ∃ b, (p.pair j).step (s.view j) b = some (s'.view j) := by
  cases a with
  | client line =>
    simp only [Followers.step] at hs
    split_ifs at hs with hc
    rw [not_or, not_not] at hc
    obtain rfl := Option.some.inj hs
    refine .inr ⟨.leader (.client line), ?_⟩
    simp [Pair.step, Leader.step, Followers.pair, view, hc.1, hc.2, handed_nil, handed_handOver]
  | enqueue =>
    rcases hp : s.pending with _ | ⟨⟨i, r⟩, rs⟩ <;> simp only [Followers.step, hp] at hs
    · cases hs
    obtain rfl := Option.some.inj hs
    by_cases hj : j = i
    · subst hj
      refine .inr ⟨.leader .enqueue, ?_⟩
      simp only [Pair.step, Leader.step, view, setLink, hp, handed_cons_self, handed_append,
        Function.update_self]
      rfl
    · refine .inl ?_
      simp only [view, setLink, hp, handed_cons_of_ne (Ne.symm hj), handed_append,
        Function.update_of_ne hj]
      simp [handed]
  | stop i =>
    obtain rfl := Option.some.inj hs
    by_cases hj : j = i
    · subst hj
      refine .inr ⟨.leader .stop, ?_⟩
      simp only [Pair.step, Leader.step, view, setLink, Function.update_self]
      rfl
    · exact .inl (view_setLink_of_ne hj _)
  | sender i a =>
    simp only [Followers.step] at hs
    split_ifs at hs
    obtain ⟨t, ht, rfl⟩ := Option.map_eq_some_iff.1 hs
    exact (view_put (b := .sender a) (senderStep_sameCalls ht) ht j).imp_right fun h => ⟨_, h⟩
  | follower i a =>
    obtain ⟨t, ht, rfl⟩ := Option.map_eq_some_iff.1 hs
    have hsame : SameCalls (s.view i) t := by
      rw [SameCalls, (followerStep_frame ht).1]
    exact (view_put (b := .follower a) hsame ht j).imp_right fun h => ⟨_, h⟩

end Step

section Timeline

variable {m₀ : Map}

/-- The leader's map is what the changes make of the first one, and every link was handed, or is
about to be, all of them. -/
structure Timed (m₀ : Map) (s : Links n) : Prop where
  sound : s.store.Sound
  map : s.store.toMap = applyAll m₀ s.changes
  links : ∀ i, (handed s.history i ++ handed s.pending i).map Prod.fst = s.changes

theorem Timed.of_eq (h : Timed m₀ s) (hstore : s'.store = s.store)
    (hhistory : s'.history = s.history) (hpending : s'.pending = s.pending)
    (hchanges : s'.changes = s.changes) : Timed m₀ s' := by
  refine ⟨hstore ▸ h.sound, ?_, fun i => ?_⟩
  · rw [hstore, hchanges]
    exact h.map
  · rw [hhistory, hpending, hchanges]
    exact h.links i

theorem Timed.step (h : Timed m₀ s) {a : Action n} (hs : p.step s a = some s') : Timed m₀ s' := by
  cases a with
  | client line =>
    simp only [Followers.step] at hs
    split_ifs at hs with hc
    rw [not_or, not_not] at hc
    obtain rfl := Option.some.inj hs
    have hh := answerLine_handsOver p.info p.leads h.sound hc.2
    refine ⟨hh.sound, ?_, fun i => ?_⟩
    · rw [applyAll_append, ← h.map]
      exact hh.map
    · have hlinks := h.links i
      rw [hc.1, handed_nil, List.append_nil] at hlinks
      rw [handed_handOver, List.map_append, hlinks]
  | enqueue =>
    rcases hp : s.pending with _ | ⟨⟨i, r⟩, rs⟩ <;> simp only [Followers.step, hp] at hs
    · cases hs
    obtain rfl := Option.some.inj hs
    refine ⟨h.sound, h.map, fun j => ?_⟩
    have hlinks := h.links j
    rw [hp, ← List.singleton_append, handed_append] at hlinks
    rwa [handed_append, List.append_assoc]
  | stop i =>
    obtain rfl := Option.some.inj hs
    exact h.of_eq rfl rfl rfl rfl
  | sender i a =>
    simp only [Followers.step] at hs
    split_ifs at hs
    obtain ⟨t, -, rfl⟩ := Option.map_eq_some_iff.1 hs
    exact h.of_eq rfl rfl rfl rfl
  | follower i a =>
    obtain ⟨t, -, rfl⟩ := Option.map_eq_some_iff.1 hs
    exact h.of_eq rfl rfl rfl rfl

theorem Timed.changes_begin (h : Timed m₀ s) (i : Fin n) :
    (s.view i).leader.changes <+: s.changes := by
  rw [← h.links i, List.map_append]
  exact List.prefix_append _ _

end Timeline

end Links

namespace Followers

variable {n : ℕ} (p : Followers n) {leader : Storage} {follower : Fin n → Storage} {s : Links n}

theorem view_reaches (hr : Reaches p.step (init leader follower) s) (i : Fin n) :
    Reaches (p.pair i).step (Pair.init leader (follower i)) (s.view i) := by
  have hsim : ∃ t, Reaches (p.pair i).step (Pair.init leader (follower i)) t ∧ t = s.view i :=
    hr.sim (fun s t => t = s.view i)
      (fun s _ a s' => by
        rintro rfl hs
        rcases Links.view_step hs i with heq | ⟨b, hb⟩
        · exact ⟨_, .refl, heq.symm⟩
        · exact ⟨_, reaches_step hb, rfl⟩) rfl
  obtain ⟨_, hr, rfl⟩ := hsim
  exact hr

/-- In every reachable state of a leader and its followers the leader's map is what all the changes
make of its first one, and the map of a follower that has executed its snapshot is what the first of
them make, as far as it has come. So followers that are as far as each other agree, and one that is
at the end agrees with the leader. As before, no line of another replica link was executed since the
handshake. -/
theorem one_timeline (hl : leader.Sound) (hw : WireMap leader.toMap) {m : Fin n → Map}
    (hf : ∀ i, Plain (m i) (follower i)) (hr : Reaches p.step (init leader follower) s) :
    s.store.toMap = applyAll leader.toMap s.changes
    ∧ ∀ (i : Fin n) (c : ℕ) (k : Cut) (log : List (ℕ × Bytes)) (ls : List Bytes),
      ((s.peer i).conn c).trail.cut = some k → ((s.peer i).conn c).trail.unread = 0 →
      (s.peer i).log = log ++ (c, hello) :: ls.map (fun l => (c, l)) → k.leader.size ≤ ls.length →
      k.position ls ≤ s.changes.length
      ∧ (s.peer i).follower.store.toMap
        = applyAll leader.toMap (s.changes.take (k.position ls)) := by
  have ht : Links.Timed leader.toMap s :=
    hr.inv _ (fun _ _ _ h hs => h.step hs) ⟨hl, rfl, fun _ => rfl⟩
  refine ⟨ht.map, fun i c k log ls hk hu hlog hn => ?_⟩
  have hinv := inv_reaches (p.pair i) hl hw (hf i) (p.view_reaches hr i)
  obtain ⟨hle, hmap⟩ := hinv.position (c := c) hk hu hlog hn
  refine ⟨hle.trans (ht.changes_begin i).length_le, ?_⟩
  obtain ⟨rest, hrest⟩ := ht.changes_begin i
  rw [← hrest, List.take_append_of_le_length hle]
  exact hmap

section Run

def crowd : Followers 2 where
  leaderEnv := duo.leaderEnv
  followerEnv := fun _ => duo.followerEnv
  info := duo.info
  leads := duo.leads
  follows := fun _ => duo.follows

/-- What `handshake` does, on link `i`. -/
def join (order : IterOrder) (i : Fin 2) : List (Links.Action 2) :=
  [.sender i (.connect true), .sender i (.send none), .follower i (.receive 0 13),
    .follower i (.execute 0), .sender i (.ack true), .sender i (.cut order)]

/-- The first line in the queue of link `i` comes to its follower. -/
def deliver (i : Fin 2) (length : ℕ) : List (Links.Action 2) :=
  [.sender i .wake, .sender i (.send none), .follower i (.receive 0 length),
    .follower i (.execute 0)]

end Run

/-- Of two changes both come to the first follower and one to the second. -/
theorem one_timeline_two : ∃ s, Reaches crowd.step (init (.empty 0) fun _ => .empty 0) s
    ∧ (s.peer 0).follower.store.toMap = s.store.toMap
    ∧ (s.peer 1).follower.store.toMap = applyAll ∅ (s.changes.take 1)
    ∧ s.store.toMap.lookup (ascii "b") = some (ascii "2") := by
  obtain ⟨s, hs, hcut₀, hunread₀, hlog₀, hcut₁, hunread₁, hlog₁, hlen, hb⟩ := exists_reaches
    crowd.step (init (.empty 0) fun _ => .empty 0)
    (join ⟨id, .refl⟩ 0 ++ join ⟨id, .refl⟩ 1 ++ [.client (ascii "SET a 1"), .enqueue, .enqueue,
      .client (ascii "SET b 2"), .enqueue, .enqueue] ++ deliver 0 8 ++ deliver 0 8 ++ deliver 1 8)
    (fun s => ((s.peer 0).conn 0).trail.cut.map (fun k => (k.leader.size, k.before)) = some (0, 0)
      ∧ ((s.peer 0).conn 0).trail.unread = 0
      ∧ (s.peer 0).log
        = [] ++ (0, hello) :: [ascii "SET a 1", ascii "SET b 2"].map (fun l => (0, l))
      ∧ ((s.peer 1).conn 0).trail.cut.map (fun k => (k.leader.size, k.before)) = some (0, 0)
      ∧ ((s.peer 1).conn 0).trail.unread = 0
      ∧ (s.peer 1).log = [] ++ (0, hello) :: [ascii "SET a 1"].map (fun l => (0, l))
      ∧ s.changes.length = 2
      ∧ s.store.toMap.lookup (ascii "b") = some (ascii "2")) (by decide +kernel)
  obtain ⟨k₀, hk₀, hat₀⟩ := Option.map_eq_some_iff.1 hcut₀
  obtain ⟨k₁, hk₁, hat₁⟩ := Option.map_eq_some_iff.1 hcut₁
  rw [Prod.mk.injEq] at hat₀ hat₁
  obtain ⟨hmap, hfollow⟩ := one_timeline crowd (sound_empty 0) wireMap_empty
    (fun _ => plain_empty) hs
  have hp₀ : k₀.position [ascii "SET a 1", ascii "SET b 2"] = 2 := by
    rw [Cut.position, hat₀.1, hat₀.2]
    decide
  have hp₁ : k₁.position [ascii "SET a 1"] = 1 := by
    rw [Cut.position, hat₁.1, hat₁.2]
    decide
  have h₀ := (hfollow 0 0 k₀ _ _ hk₀ hunread₀ hlog₀ (by rw [hat₀.1]; exact Nat.zero_le _)).2
  have h₁ := (hfollow 1 0 k₁ _ _ hk₁ hunread₁ hlog₁ (by rw [hat₁.1]; exact Nat.zero_le _)).2
  rw [hp₀, List.take_of_length_le hlen.le, ← hmap] at h₀
  rw [hp₁] at h₁
  exact ⟨s, hs, h₀, h₁, hb⟩

end Followers

end Replicator

end Redon

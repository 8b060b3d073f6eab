import Mathlib.Data.Prod.Lex
import Redon.Lib.Endless
import Redon.Proofs.Links

/-!
# Stopping the replicator

`Replicator::stop` sets a flag on every link and joins the sender threads. A sender that finds the
flag set does not start over, so that what it has left to do only becomes less: the handshake and
the cut, and then what is left of the snapshot (`Sender.left`). The snapshot is as long as the store
is at the cut, which the flag does not keep from growing. A sender is never stuck but for the
storage lock, and the one who holds this is not (`stop_ends`).
-/

namespace Redon

open Lib Mutation Storage

namespace Replicator

/-- What a sender has left to do once its link is to stop. -/
def Sender.left : Sender → ℕ ×ₗ ℕ
  | .greeting _ => toLex (3, 0)
  | .awaiting _ => toLex (2, 0)
  | .cutting _ => toLex (1, 0)
  | .opening _ index => toLex (0, 2 * index.length + 3)
  | .reading _ index snapshot => toLex (0, 2 * index.length + snapshot.length + 2)
  | .syncing _ snapshot => toLex (0, snapshot.length + 2)
  | .sending _ _ => toLex (0, 3)
  | .waiting _ => toLex (0, 2)
  | .cleaning => toLex (0, 1)
  | .connecting => toLex (0, 1)
  | .pausing => toLex (0, 1)
  | .stopped => toLex (0, 0)

/-- The sender is between its cut and its clean-up. -/
def Sender.fed : Sender → Bool
  | .opening _ _ => true
  | .reading _ _ _ => true
  | .syncing _ _ => true
  | .sending _ _ => true
  | .waiting _ => true
  | .cleaning => true
  | _ => false

/-- The loops of the sender stand before something that they have left. -/
def Sender.Shaped (disk : Option DiskStore) : Sender → Prop
  | .reading _ index _ => index ≠ [] ∧ disk.isSome = true
  | .opening _ _ => disk.isSome = true
  | .syncing _ snapshot => snapshot ≠ []
  | _ => True

section Sender

variable {s s' : State} {c : ℕ} {a : SenderAction}

theorem left_sync (c : ℕ) (snapshot : List (Bytes × Bytes)) :
    (Sender.sync c snapshot).left = toLex (0, snapshot.length + 2) := by
  cases snapshot <;> rfl

theorem left_read (c : ℕ) (index : List (Σ _ : Bytes, Entry)) (snapshot : List (Bytes × Bytes)) :
    (Sender.read c index snapshot).left = toLex (0, 2 * index.length + snapshot.length + 2) := by
  cases index with
  | nil => rw [Sender.read, left_sync, List.length_nil, Nat.mul_zero, Nat.zero_add]
  | cons => rfl

theorem toLex_lt_second {n m k : ℕ} (h : m < k) : toLex (n, m) < toLex (n, k) :=
  Prod.Lex.right n h

theorem toLex_lt_first {n n' m k : ℕ} (h : n < n') : toLex (n, m) < toLex (n', k) :=
  Prod.Lex.left m k h

theorem fed_sync (c : ℕ) (snapshot : List (Bytes × Bytes)) :
    (Sender.sync c snapshot).fed = true := by
  cases snapshot <;> rfl

theorem fed_read (c : ℕ) (index : List (Σ _ : Bytes, Entry)) (snapshot : List (Bytes × Bytes)) :
    (Sender.read c index snapshot).fed = true := by
  cases index with
  | nil => exact fed_sync c snapshot
  | cons => rfl

theorem shaped_sync (disk : Option DiskStore) (c : ℕ) (snapshot : List (Bytes × Bytes)) :
    (Sender.sync c snapshot).Shaped disk := by
  cases snapshot with
  | nil => trivial
  | cons => exact List.cons_ne_nil _ _

theorem shaped_read {disk : Option DiskStore} (h : disk.isSome = true) (c : ℕ)
    (index : List (Σ _ : Bytes, Entry)) (snapshot : List (Bytes × Bytes)) :
    (Sender.read c index snapshot).Shaped disk := by
  cases index with
  | nil => exact shaped_sync disk c snapshot
  | cons => exact ⟨List.cons_ne_nil _ _, h⟩

/-- A link is handed changes only while its sender is fed by it, and else has none. -/
structure Link.Tidy (link : Link) (sender : Sender) : Prop where
  fed : link.streaming = true → sender.fed = true
  queue : link.streaming = false → link.queue = []

/-- What a step of the sender does to its link and to what it has left to do. -/
structure Moves (s s' : State) : Prop where
  stop : s'.leader.link.stop = s.leader.link.stop
  left : s.leader.link.stop = true → s'.sender.left < s.sender.left
  shaped : s'.sender.Shaped s.leader.store.disk
  tidy : s.leader.link.Tidy s.sender → s'.leader.link.Tidy s'.sender

variable {p q : Sender}

/-- A step from `p` to `q` that leaves the link. -/
theorem moves_to (hp : s.sender = p) (hq : s'.sender = q) (hlink : s'.leader.link = s.leader.link)
    (hleft : s.leader.link.stop = true → q.left < p.left) (hshaped : q.Shaped s.leader.store.disk)
    (hfed : p.fed = true → q.fed = true) : Moves s s' := by
  subst hp hq
  exact ⟨by rw [hlink], hleft, hshaped, fun h => ⟨fun hs => hfed (h.fed (hlink ▸ hs)),
    fun hs => by rw [hlink] at hs ⊢; exact h.queue hs⟩⟩

theorem sendLine_moves {line : Bytes} {failed : Option ℕ} (hp : s.sender = p)
    (hs : s.sendLine c line failed q = some s') (hclean : Sender.cleaning.left < p.left)
    (hleft : q.left < p.left) (hshaped : q.Shaped s.leader.store.disk)
    (hfed : p.fed = true → q.fed = true) : Moves s s' := by
  unfold State.sendLine at hs
  split at hs
  · obtain rfl := Option.some.inj hs
    exact moves_to hp rfl rfl (fun _ => hleft) hshaped hfed
  · split_ifs at hs
    obtain rfl := Option.some.inj hs
    exact moves_to hp rfl rfl (fun _ => hclean) trivial fun _ => rfl

theorem cutSnapshot_moves (hp : s.sender = .cutting c) (order : IterOrder) :
    Moves s (s.cutSnapshot c order) := by
  refine ⟨rfl, fun _ => ?_, ?_, fun _ => ⟨fun _ => ?_, fun h => by cases h⟩⟩ <;>
    simp only [State.cutSnapshot, hp] <;> rcases hd : s.leader.store.disk with _ | d
  · rw [left_sync]
    exact toLex_lt_first (by decide)
  · exact toLex_lt_first (by decide)
  · exact shaped_sync _ c _
  · exact rfl
  · exact fed_sync c _
  · rfl

theorem readEntry_moves {kv : Σ _ : Bytes, Entry} {index : List (Σ _ : Bytes, Entry)}
    {snapshot : List (Bytes × Bytes)} {success : Bool}
    (hp : s.sender = .reading c (kv :: index) snapshot)
    (hdisk : s.leader.store.disk.isSome = true)
    (hs : s.readEntry c kv index snapshot success = some s') : Moves s s' := by
  have hread : ∀ snapshot', snapshot'.length ≤ snapshot.length + 1 →
      (Sender.read c index snapshot').left < (Sender.reading c (kv :: index) snapshot).left := by
    intro snapshot' hle
    rw [left_read]
    refine toLex_lt_second ?_
    rw [List.length_cons]
    omega
  unfold State.readEntry at hs
  split at hs
  · cases hs
  · split at hs <;> obtain rfl := Option.some.inj hs
    · exact moves_to hp rfl rfl (fun _ => hread _ (by simp)) (shaped_read hdisk c _ _)
        fun _ => fed_read c _ _
    · exact moves_to hp rfl rfl (fun _ => hread _ (by simp)) (shaped_read hdisk c _ _)
        fun _ => fed_read c _ _

theorem wake_moves (hp : s.sender = .waiting c) : Moves s (s.wake c) := by
  have hclean : Sender.cleaning.left < (Sender.waiting c).left := toLex_lt_second (by decide)
  simp only [State.wake]
  split_ifs with h
  · refine ⟨rfl, fun _ => ?_, trivial, fun ht => ⟨fun _ => rfl, ht.queue⟩⟩
    rw [hp]
    exact hclean
  · have hstop : s.leader.link.stop = true → False := fun hs => h (by simp [hs])
    rcases hq : s.leader.link.queue with _ | ⟨line, queue⟩
    · exact moves_to hp rfl rfl (fun hs => (hstop hs).elim) trivial fun _ => rfl
    · refine ⟨rfl, fun hs => (hstop hs).elim, trivial, fun ht => ⟨fun _ => rfl, fun hs => ?_⟩⟩
      rw [ht.queue hs] at hq
      cases hq

theorem senderStep_moves (hshaped : s.sender.Shaped s.leader.store.disk)
    (hs : s.senderStep a = some s') : Moves s s' := by
  unfold State.senderStep at hs
  split at hs <;> rename_i hp
  · -- connecting
    split_ifs at hs with hstop <;> obtain rfl := Option.some.inj hs
    · exact moves_to hp rfl rfl (fun _ => toLex_lt_second (by decide)) trivial fun h => by cases h
    · exact moves_to hp rfl rfl (fun h => absurd h hstop) trivial fun h => by cases h
    · exact moves_to hp rfl rfl (fun h => absurd h hstop) trivial fun h => by cases h
  · exact sendLine_moves hp hs (toLex_lt_first (by decide)) (toLex_lt_first (by decide)) trivial
      fun h => by cases h
  · -- the acknowledgement
    split_ifs at hs
    · split at hs
      · cases hs
      · obtain rfl := Option.some.inj hs
        refine moves_to hp rfl rfl (fun _ => ?_) ?_ (fun h => by cases h) <;> split_ifs
        · exact toLex_lt_first (by decide)
        · exact toLex_lt_first (by decide)
        · trivial
        · trivial
    · obtain rfl := Option.some.inj hs
      exact moves_to hp rfl rfl (fun _ => toLex_lt_first (by decide)) trivial fun h => by cases h
  · split_ifs at hs
    obtain rfl := Option.some.inj hs
    exact cutSnapshot_moves hp _
  · -- opening the file
    rw [hp] at hshaped
    split_ifs at hs <;> obtain rfl := Option.some.inj hs
    · refine moves_to hp rfl rfl (fun _ => ?_) (shaped_read hshaped _ _ _) fun _ => fed_read _ _ _
      rw [left_read]
      exact toLex_lt_second (by simp)
    · exact moves_to hp rfl rfl (fun _ => toLex_lt_second (by simp)) trivial fun _ => rfl
  · rw [hp] at hshaped
    exact readEntry_moves hp hshaped.2 hs
  · refine sendLine_moves hp hs (toLex_lt_second (by simp)) ?_ (shaped_sync _ _ _)
      fun _ => fed_sync _ _
    rw [left_sync]
    exact toLex_lt_second (by simp)
  · obtain rfl := Option.some.inj hs
    exact wake_moves hp
  · exact sendLine_moves hp hs (toLex_lt_second (by decide)) (toLex_lt_second (by decide)) trivial
      fun _ => rfl
  · -- the clean-up
    obtain rfl := Option.some.inj hs
    refine ⟨rfl, fun hstop => ?_, ?_, fun _ =>
      ⟨fun h => absurd h Bool.false_ne_true, fun _ => rfl⟩⟩
    · dsimp only
      rw [if_pos hstop, hp]
      exact toLex_lt_second (by decide)
    · dsimp only
      split_ifs <;> trivial
  · -- the pause
    obtain rfl := Option.some.inj hs
    refine moves_to hp rfl rfl (fun hstop => ?_) ?_ (fun h => by cases h)
    · rw [if_pos hstop]
      exact toLex_lt_second (by decide)
    · split_ifs <;> trivial
  · cases hs

/-- A sender that has not ended can take a step, if the storage lock is free for its cut. -/
theorem exists_senderStep (hshaped : s.sender.Shaped s.leader.store.disk)
    (hne : s.sender ≠ .stopped) (hlock : ∀ c, s.sender = .cutting c → s.leader.pending = []) :
    ∃ a, (s.senderStep a).isSome = true ∧ (a.locks = true → ∃ c, s.sender = .cutting c) := by
  have hfree : ∀ {a : SenderAction}, a.locks = false → (s.senderStep a).isSome = true →
      ∃ a, (s.senderStep a).isSome = true ∧ (a.locks = true → ∃ c, s.sender = .cutting c) :=
    fun {a} ha hs => ⟨a, hs, fun h => absurd (ha.symm.trans h) Bool.false_ne_true⟩
  unfold State.senderStep at *
  rcases hp : s.sender with _ | c | c | c | ⟨c, index⟩ | ⟨c, index, snapshot⟩ | ⟨c, snapshot⟩ | c
    | ⟨c, line⟩ | _ | _ | _ <;> simp only [hp] at hshaped hne hfree ⊢
  case connecting =>
    refine hfree (a := .connect false) rfl ?_
    dsimp only
    split_ifs <;> rfl
  case greeting => exact hfree (a := .send none) rfl rfl
  case awaiting => exact hfree (a := .ack false) rfl rfl
  case cutting =>
    refine ⟨.cut ⟨id, .refl⟩, ?_, fun _ => ⟨c, rfl⟩⟩
    dsimp only
    rw [if_neg (not_not.2 (hlock c hp))]
    rfl
  case opening => exact hfree (a := .open false) rfl rfl
  case reading =>
    obtain ⟨kv, index, rfl⟩ := List.exists_cons_of_ne_nil hshaped.1
    obtain ⟨d, hd⟩ := Option.isSome_iff_exists.1 hshaped.2
    refine hfree (a := .read false) rfl ?_
    simp only [State.readEntry, hd]
    rfl
  case syncing =>
    obtain ⟨kv, snapshot, rfl⟩ := List.exists_cons_of_ne_nil hshaped
    exact hfree (a := .send none) rfl rfl
  case waiting => exact hfree (a := .wake) rfl rfl
  case sending => exact hfree (a := .send none) rfl rfl
  case cleaning => exact hfree (a := .cleanup) rfl rfl
  case pausing => exact hfree (a := .resume) rfl rfl
  case stopped => exact absurd rfl hne

end Sender

section Run

variable {s s' : State}

theorem Sender.Shaped.grows {l l' : Storage} {p : Sender} (h : p.Shaped l.disk) (hg : Grows l l') :
    p.Shaped l'.disk := by
  have hdisk : l.disk.isSome = true → l'.disk.isSome = true := by
    intro hd
    obtain ⟨d, hd⟩ := Option.isSome_iff_exists.1 hd
    obtain ⟨d', hd', -⟩ := hg d hd
    rw [hd']
    rfl
  cases p with
  | opening c index => exact hdisk h
  | reading c index snapshot => exact ⟨h.1, hdisk h.2⟩
  | _ => exact h

theorem Link.Tidy.enqueue {link : Link} {p : Sender} (h : link.Tidy p) (line : Bytes) :
    (link.enqueue line).Tidy p := by
  unfold Link.enqueue
  split_ifs with hs
  · exact h
  · exact ⟨fun hc => absurd hc Bool.false_ne_true, fun _ => rfl⟩
  · refine ⟨h.fed, fun hc => ?_⟩
    rw [hc] at hs
    exact absurd rfl hs

structure Tidy (s : State) : Prop where
  sound : s.leader.store.Sound
  shaped : s.sender.Shaped s.leader.store.disk
  link : s.leader.link.Tidy s.sender

theorem Tidy.step (p : Pair) (h : Tidy s) {a : Action} (hs : p.step s a = some s') : Tidy s' := by
  cases a with
  | leader a =>
    obtain ⟨l, hl, rfl⟩ := Option.map_eq_some_iff.1 hs
    obtain ⟨hsound, hgrows⟩ := leaderStep_grows p.leads h.sound hl
    refine ⟨hsound, h.shaped.grows hgrows, ?_⟩
    cases a with
    | client line =>
      simp only [Leader.step] at hl
      split_ifs at hl
      obtain rfl := Option.some.inj hl
      exact h.link
    | enqueue =>
      rcases hp : s.leader.pending with _ | ⟨r, rs⟩ <;> simp only [Leader.step, hp] at hl
      · cases hl
      · obtain rfl := Option.some.inj hl
        exact h.link.enqueue _
    | stop =>
      obtain rfl := Option.some.inj hl
      exact ⟨h.link.fed, h.link.queue⟩
  | sender a =>
    have hm := senderStep_moves h.shaped hs
    have hstore : s'.leader.store = s.leader.store := by rw [senderStep_sameCalls hs]
    exact ⟨hstore ▸ h.sound, hstore ▸ hm.shaped, hm.tidy h.link⟩
  | follower a =>
    obtain ⟨hleader, hsender, -⟩ := followerStep_frame hs
    exact ⟨hleader ▸ h.sound, by rw [hleader, hsender]; exact h.shaped,
      by rw [hleader, hsender]; exact h.link⟩

theorem tidy_init {leader follower : Storage} (hl : leader.Sound) :
    Tidy (Pair.init leader follower) :=
  ⟨hl, trivial, ⟨fun h => absurd h Bool.false_ne_true, fun _ => rfl⟩⟩

end Run

namespace Followers

variable {n : ℕ} (p : Followers n) {s s' : Links n} {i : Fin n}

theorem tidy_view {leader : Storage} {follower : Fin n → Storage} (hl : leader.Sound)
    (hr : Reaches p.step (init leader follower) s) (i : Fin n) : Tidy (s.view i) :=
  (p.view_reaches hr i).inv _ (fun _ _ _ h hs => h.step _ hs) (tidy_init hl)

/-- A step is one of the sender of link `i`, or leaves that sender where it is. -/
theorem step_sender {a : Links.Action n} (hs : p.step s a = some s') (i : Fin n) :
    (∃ b, a = .sender i b ∧ (s.view i).senderStep b = some (s'.view i))
    ∨ (∀ b, a ≠ .sender i b) ∧ (s'.peer i).sender = (s.peer i).sender
      ∧ ((s.peer i).link.stop = true → (s'.peer i).link.stop = true) := by
  have hset : ∀ (j : Fin n) (link : Link), ((s.peer j).link.stop = true → link.stop = true) →
      ((s.setLink j link).peer i).sender = (s.peer i).sender
      ∧ ((s.peer i).link.stop = true → ((s.setLink j link).peer i).link.stop = true) := by
    intro j link hlink
    by_cases hi : i = j
    · subst hi
      simpa only [Links.setLink, Function.update_self] using ⟨trivial, hlink⟩
    · simp only [Links.setLink, Function.update_of_ne hi]
      exact ⟨trivial, id⟩
  have hput : ∀ {j : Fin n} (t : State), i ≠ j → ((s.put j t).peer i) = s.peer i := by
    intro j t hi
    simp only [Links.put, Function.update_of_ne hi]
  cases a with
  | client line =>
    simp only [step] at hs
    split_ifs at hs
    obtain rfl := Option.some.inj hs
    exact .inr ⟨by simp, rfl, id⟩
  | enqueue =>
    rcases hp : s.pending with _ | ⟨⟨j, r⟩, rs⟩ <;> simp only [step, hp] at hs
    · cases hs
    obtain rfl := Option.some.inj hs
    refine .inr ⟨by simp, hset j _ fun hstop => ?_⟩
    unfold Link.enqueue
    split_ifs <;> exact hstop
  | stop j =>
    obtain rfl := Option.some.inj hs
    exact .inr ⟨by simp, hset j _ fun _ => rfl⟩
  | sender j b =>
    simp only [step] at hs
    split_ifs at hs
    obtain ⟨t, ht, rfl⟩ := Option.map_eq_some_iff.1 hs
    by_cases hi : i = j
    · subst hi
      rw [Links.view_put_self (senderStep_sameCalls ht)]
      exact .inl ⟨b, rfl, ht⟩
    · refine .inr ⟨fun b' he => hi ?_, ?_⟩
      · rw [Links.Action.sender.injEq] at he
        exact he.1.symm
      · rw [hput t hi]
        exact ⟨rfl, id⟩
  | follower j b =>
    obtain ⟨t, ht, rfl⟩ := Option.map_eq_some_iff.1 hs
    refine .inr ⟨by simp, ?_⟩
    by_cases hi : i = j
    · subst hi
      obtain ⟨hleader, hsender, -⟩ := followerStep_frame ht
      simp only [Links.put, Function.update_self]
      rw [hleader, hsender]
      exact ⟨rfl, id⟩
    · rw [hput t hi]
      exact ⟨rfl, id⟩

/-- The flag of link `i` stays set, and what its sender has left to do falls with its steps. -/
theorem step_left {a : Links.Action n} (ht : Tidy (s.view i))
    (hstop : (s.peer i).link.stop = true) (hs : p.step s a = some s') :
    (s'.peer i).link.stop = true ∧ (s'.peer i).sender.left ≤ (s.peer i).sender.left
      ∧ ((∃ b, a = .sender i b) → (s'.peer i).sender.left < (s.peer i).sender.left) := by
  rcases p.step_sender hs i with ⟨b, rfl, hb⟩ | ⟨hne, hsender, hkeep⟩
  · have hm := senderStep_moves ht.shaped hb
    have hlt : (s'.peer i).sender.left < (s.peer i).sender.left := hm.left hstop
    exact ⟨hm.stop.trans hstop, hlt.le, fun _ => hlt⟩
  · rw [hsender]
    exact ⟨hkeep hstop, le_rfl, fun ⟨b, hb⟩ => absurd hb (hne b)⟩

/-- No sender is stuck but for the storage lock, and who holds this is not. -/
theorem exists_step (ht : Tidy (s.view i)) : (s.peer i).sender = .stopped
    ∨ (∃ a s', p.step s (.sender i a) = some s')
    ∨ (∃ c, (s.peer i).sender = .cutting c) ∧ ∃ s', p.step s .enqueue = some s' := by
  by_cases hne : (s.peer i).sender = .stopped
  · exact .inl hne
  by_cases hlock : ∃ c, (s.peer i).sender = .cutting c
  · rcases hp : s.pending with _ | ⟨⟨j, r⟩, rs⟩
    · have hnone : (s.view i).leader.pending = [] := by
        simp only [Links.view, hp]
        rfl
      obtain ⟨a, ha, -⟩ := exists_senderStep ht.shaped hne fun _ _ => hnone
      obtain ⟨t, ha⟩ := Option.isSome_iff_exists.1 ha
      refine .inr (.inl ⟨a, s.put i t, ?_⟩)
      simp only [step, hp, ha, ne_eq, not_true_eq_false, and_false, if_false, Option.map_some]
    · refine .inr (.inr ⟨hlock, Option.isSome_iff_exists.1 ?_⟩)
      simp only [step, hp]
      rfl
  · obtain ⟨a, ha, hcut⟩ := exists_senderStep ht.shaped hne fun c hc => absurd ⟨c, hc⟩ hlock
    obtain ⟨t, ha⟩ := Option.isSome_iff_exists.1 ha
    refine .inr (.inl ⟨a, s.put i t, ?_⟩)
    simp only [step, ha, Option.map_some]
    exact if_neg fun hc => hlock (hcut hc.1)

/-- Once `stop` has set the flag on every link, in whatever order all go on: the senders take
finitely many steps, and each that has not ended can take one, or it is at its cut and the call that
holds the storage lock can go on. A sender that has ended is handed nothing any more. -/
theorem stop_ends {leader : Storage} {follower : Fin n → Storage} (hl : leader.Sound)
    {run : ℕ → Links n} {act : ℕ → Links.Action n}
    (hr : Reaches p.step (init leader follower) (run 0)) (hrun : IsRun p.step run act)
    (hstop : ∀ i, ((run 0).peer i).link.stop = true) :
    (∃ k, ∀ m ≥ k, ∀ i a, act m ≠ .sender i a)
    ∧ ∀ k i, (((run k).peer i).sender = .stopped →
        ((run k).peer i).link.streaming = false ∧ ((run k).peer i).link.queue = [])
      ∧ (((run k).peer i).sender = .stopped
        ∨ (∃ a s', p.step (run k) (.sender i a) = some s')
        ∨ (∃ c, ((run k).peer i).sender = .cutting c)
          ∧ ∃ s', p.step (run k) .enqueue = some s') := by
  have htidy : ∀ k i, Tidy ((run k).view i) := fun k => p.tidy_view hl (hr.trans (hrun.reaches k))
  have hset : ∀ i k, ((run k).peer i).link.stop = true := by
    intro i k
    induction k with
    | zero => exact hstop i
    | succ k ih => exact (p.step_left (htidy k i) ih (hrun k)).1
  have hends : ∀ i, ∃ k, ∀ m ≥ k, ¬ ∃ b, act m = .sender i b := fun i =>
    hrun.ends (fun s => Tidy (s.view i) ∧ (s.peer i).link.stop = true)
      (fun k => ⟨htidy k i, hset i k⟩) (fun a => ∃ b, a = .sender i b)
      (fun s => (s.peer i).sender.left) (fun _ _ _ h hs => (p.step_left h.1 h.2 hs).2.1)
      fun _ _ _ h hs => (p.step_left h.1 h.2 hs).2.2
  choose last hlast using hends
  refine ⟨⟨Finset.univ.sup last, fun m hm i a ha => ?_⟩, fun k i => ⟨fun hp => ?_, ?_⟩⟩
  · exact hlast i m ((Finset.le_sup (Finset.mem_univ i)).trans hm) ⟨a, ha⟩
  · have hstream : ((run k).peer i).link.streaming = false := by
      refine Bool.eq_false_iff.2 fun hs => ?_
      have hfed : ((run k).peer i).sender.fed = true := (htidy k i).link.fed hs
      rw [hp] at hfed
      cases hfed
    exact ⟨hstream, (htidy k i).link.queue hstream⟩
  · exact p.exists_step (htidy k i)

theorem step_stop (h : (s.peer i).link.stop = true) : p.step s (.stop i) = some s := by
  have hlink : { (s.peer i).link with stop := true } = (s.peer i).link := by rw [← h]
  simp only [step, Links.setLink, hlink, Function.update_eq_self]

/-- One sender has its handshake sent and gives up, and the other has not connected. -/
theorem stop_ends_two : ∃ run act,
    IsRun crowd.step run act ∧ act 0 = .sender 0 (.ack false)
    ∧ ((run 0).peer 1).sender = .connecting
    ∧ ∃ k, ∀ m ≥ k, ∀ i a, act m ≠ .sender i a := by
  obtain ⟨s₀, hr, hstop, hsome, hsender⟩ := exists_reaches crowd.step
    (init (.empty 0) fun _ => .empty 0)
    [.sender 0 (.connect true), .sender 0 (.send none), .stop 0, .stop 1]
    (fun s => (∀ i, (s.peer i).link.stop = true)
      ∧ (crowd.step s (.sender 0 (.ack false))).isSome = true
      ∧ (s.peer 1).sender = .connecting) (by decide +kernel)
  obtain ⟨s₁, hs₁⟩ := Option.isSome_iff_exists.1 hsome
  have hstop₁ := (crowd.step_left (crowd.tidy_view (sound_empty 0) hr 0) (hstop 0) hs₁).1
  have hrun : IsRun crowd.step (fun k => if k = 0 then s₀ else s₁)
      (fun k => if k = 0 then .sender 0 (.ack false) else .stop 0) := by
    intro k
    rcases k with _ | k
    · exact hs₁
    · exact crowd.step_stop hstop₁
  exact ⟨_, _, hrun, rfl, hsender, (stop_ends crowd (sound_empty 0) hr hrun hstop).1⟩

end Followers

end Replicator

end Redon

import Mathlib.Data.List.ReduceOption
import Redon.Proofs.Handover

/-!
# The sender's plan

What the sender has sent on a connection and what it is about to send is the handshake, the
snapshot of the cut, and then the changes behind the cut in the order they were made, with
heartbeats among them. While the link is streaming, the queue is the rest of the changes
(`Works`); it stops when the queue is full, and then another snapshot is needed. A connection the
sender has left was sent a front part of that (`Past`).
-/

namespace Redon

open Lib Mutation Storage

namespace Replicator

section Leader

def Leader.changes (l : Leader) : List Mutation := l.history.map Prod.fst

/-- The leader's map is what the changes make of the one it started with, each change is recorded
with the map after it, and comes through as a line. -/
structure LeaderOk (m₀ : Map) (l : Leader) : Prop where
  sound : l.store.Sound
  chain : Chain m₀ (l.history ++ l.pending)
  map : l.store.toMap = applyAll m₀ ((l.history ++ l.pending).map Prod.fst)
  wire : ∀ r ∈ l.history ++ l.pending, r.1.Wire
  queue : l.link.streaming = false → l.link.queue = []

/-- What a step of the leader's clients is to the sender: the data file grows, and at most one more
change is handed over. -/
structure Later (l l' : Leader) : Prop where
  grows : Grows l.store l'.store
  link : (l'.history = l.history ∧ l'.link.streaming = l.link.streaming
      ∧ l'.link.queue = l.link.queue ∧ l'.link.resyncNeeded = l.link.resyncNeeded)
    ∨ ∃ r, l'.history = l.history ++ [r] ∧ l'.link = l.link.enqueue (replicate r.1)

variable {m₀ : Map} {l l' : Leader} {e : ExecEnv} {info : Bytes} {a : LeaderAction}

section Enqueue

variable {k : Link} {line : Bytes}

theorem Link.enqueue_idle (h : ¬ k.streaming = true) : k.enqueue line = k := by
  simp [enqueue, h]

theorem Link.enqueue_full (h : k.streaming = true) (hq : kMaxQueue ≤ k.queue.length) :
    k.enqueue line = { k with queue := [], streaming := false, resyncNeeded := true } := by
  simp [enqueue, h, hq]

theorem Link.enqueue_room (h : k.streaming = true) (hq : ¬ kMaxQueue ≤ k.queue.length) :
    k.enqueue line = { k with queue := k.queue ++ [line] } := by
  simp [enqueue, h, hq]

theorem Link.enqueue_queue (h : k.streaming = false → k.queue = []) :
    (k.enqueue line).streaming = false → (k.enqueue line).queue = [] := by
  unfold Link.enqueue
  split_ifs with hs hlen
  · exact h
  · exact fun _ => rfl
  · intro hf
    exact absurd hf (by simpa using hs)

end Enqueue

theorem LeaderOk.client (h : LeaderOk m₀ l) (hm : WireMap m₀) (hp : l.pending = [])
    {rs : List Replicated} {s : Storage} (hh : HandsOver rs l.store s) :
    LeaderOk m₀ { l with store := s, pending := rs } := by
  obtain ⟨-, hchain, hmap, hwire, hqueue⟩ := h
  rw [hp, List.append_nil] at hchain hmap hwire
  refine ⟨hh.sound, ?_, ?_, fun r hr => ?_, hqueue⟩
  · rw [chain_append, ← hmap]
    exact ⟨hchain, hh.chain⟩
  · rw [hh.map, hmap, List.map_append, applyAll_append]
  · rcases List.mem_append.1 hr with hr | hr
    · exact hwire r hr
    · refine hh.wire ?_ r hr
      rw [hmap]
      exact hm.applyAll (by simpa using hwire)

theorem LeaderOk.enqueue (h : LeaderOk m₀ l) {r : Replicated} {rs : List Replicated}
    (hp : l.pending = r :: rs) (k : Link) (hk : k.streaming = false → k.queue = []) :
    LeaderOk m₀ { l with pending := rs, link := k, history := l.history ++ [r] } := by
  have happ : l.history ++ l.pending = l.history ++ [r] ++ rs := by simp [hp]
  exact ⟨h.sound, happ ▸ h.chain, happ ▸ h.map, happ ▸ h.wire, hk⟩

theorem LeaderOk.step (h : LeaderOk m₀ l) (hm : WireMap m₀) (he : e.nodeIsFollower = false)
    (hs : l.step e info a = some l') : LeaderOk m₀ l' ∧ Later l l' := by
  cases a with
  | client line =>
    simp only [Leader.step] at hs
    split_ifs at hs with hc
    rw [not_or, not_not] at hc
    have hh := answerLine_handsOver info he h.sound hc.2
    obtain rfl := Option.some.inj hs
    exact ⟨h.client hm hc.1 hh, hh.grows, .inl ⟨rfl, rfl, rfl, rfl⟩⟩
  | enqueue =>
    rcases hp : l.pending with _ | ⟨r, rs⟩ <;> simp only [Leader.step, hp] at hs
    · cases hs
    · obtain rfl := Option.some.inj hs
      exact ⟨h.enqueue hp _ (Link.enqueue_queue h.queue), grows_of_eq rfl, .inr ⟨r, rfl, rfl⟩⟩
  | stop =>
    obtain rfl := Option.some.inj hs
    exact ⟨⟨h.sound, h.chain, h.map, h.wire, h.queue⟩, grows_of_eq rfl, .inl ⟨rfl, rfl, rfl, rfl⟩⟩

end Leader

section Plan

def sets (es : List (Bytes × Bytes)) : List (Option Mutation) := es.map fun p => some (.set p.1 p.2)

/-- The handshake and `items` were sent. -/
def Sends (t : Trail) (items : List (Option Mutation)) : Prop :=
  t.sent = (hello ++ [10]) :: items.map (text · ++ [10]) ∧ ∀ r, some r ∈ items → r.Wire

/-- The cut was made when the leader had handed over its first changes. -/
def CutOk (m₀ : Map) (l : Leader) (k : Cut) : Prop :=
  k.before ≤ l.changes.length ∧ k.leader.toMap = applyAll m₀ (l.changes.take k.before)

/-- While the link is streaming, the queue is what follows `done` of the changes behind the cut. It
is not only if there were more changes than the queue takes, and then a resync is asked for. -/
structure Accounts (l : Leader) (k : Cut) (done : List Mutation) : Prop where
  queue : l.link.streaming = true →
    done.map replicate ++ l.link.queue = (l.changes.drop k.before).map replicate
  full : l.link.streaming = false →
    l.link.resyncNeeded = true ∧ kMaxQueue < (l.changes.drop k.before).length

/-- The snapshot of the cut, unless some of it could not be read, and then the first changes. -/
structure Covers (l : Leader) (t : Trail) (k : Cut) (snap : List (Bytes × Bytes))
    (stream : List (Option Mutation)) : Prop where
  snapshot : t.unread = 0 → IsSnapshot k.leader snap
  stream : stream.reduceOption <+: l.changes.drop k.before

/-- What was sent on a connection, whether or not the sender is still on it. -/
def Past (m₀ : Map) (l : Leader) (t : Trail) : Prop :=
  (t.sent = [] ∧ t.cut = none) ∨
  ∃ items, Sends t items ∧ ∀ k, t.cut = some k → CutOk m₀ l k
    ∧ ∃ ahead snap stream, items ++ ahead = sets snap ++ stream ∧ Covers l t k snap stream

/-- The sender is reading the snapshot: `es` is what it has and what it is yet to read. -/
def Loads (m₀ : Map) (l : Leader) (t : Trail) (es : List (Bytes × Bytes)) : Prop :=
  Sends t [] ∧ (∀ p ∈ es, (Mutation.set p.1 p.2).Wire)
    ∧ ∃ k, t.cut = some k ∧ CutOk m₀ l k ∧ Accounts l k [] ∧ Covers l t k es []

/-- The sender is about to send `ahead`, and then the queue; `stream` is what was taken from it. -/
def Works (m₀ : Map) (l : Leader) (t : Trail) (ahead stream : List (Option Mutation)) : Prop :=
  ∃ items, Sends t items ∧ (∀ r, some r ∈ ahead → r.Wire)
    ∧ ∃ k, t.cut = some k ∧ CutOk m₀ l k ∧ ∃ snap, items ++ ahead = sets snap ++ stream
      ∧ Accounts l k stream.reduceOption ∧ Covers l t k snap stream

variable {m₀ : Map} {l l' : Leader} {t : Trail} {k : Cut} {done : List Mutation}
  {es snap : List (Bytes × Bytes)} {items ahead stream : List (Option Mutation)}

theorem Loads.works (h : Loads m₀ l t es) : Works m₀ l t (sets es) [] := by
  obtain ⟨hs, hw, k, hk, hcut, hacc, hcov⟩ := h
  refine ⟨[], hs, fun r hr => ?_, k, hk, hcut, es, by simp, hacc, hcov⟩
  obtain ⟨p, hp, he⟩ := List.mem_map.1 hr
  rw [← Option.some.inj he]
  exact hw p hp

theorem Works.past (h : Works m₀ l t ahead stream) : Past m₀ l t := by
  obtain ⟨items, hs, -, k, hk, hcut, snap, he, -, hcov⟩ := h
  refine .inr ⟨items, hs, fun k' hk' => ?_⟩
  rw [hk] at hk'
  obtain rfl := Option.some.inj hk'
  exact ⟨hcut, ahead, snap, stream, he, hcov⟩

theorem past_of_sends (h : Sends t items) (hk : t.cut = none) : Past m₀ l t := by
  refine .inr ⟨items, h, fun k hk' => ?_⟩
  rw [hk] at hk'
  cases hk'

theorem past_of_nil (h : t.sent = []) (hk : t.cut = none) : Past m₀ l t := .inl ⟨h, hk⟩

theorem Later.changes (h : Later l l') : ∃ rs, l'.changes = l.changes ++ rs := by
  rcases h.link with ⟨hh, -⟩ | ⟨r, hh, -⟩
  · exact ⟨[], by rw [Leader.changes, hh, List.append_nil, Leader.changes]⟩
  · exact ⟨[r.1], by rw [Leader.changes, hh, List.map_append]; rfl⟩

theorem CutOk.later (h : CutOk m₀ l k) (hl : Later l l') : CutOk m₀ l' k := by
  obtain ⟨rs, hrs⟩ := hl.changes
  refine ⟨?_, ?_⟩
  · rw [hrs, List.length_append]
    exact h.1.trans (Nat.le_add_right _ _)
  · rw [hrs, List.take_append_of_le_length h.1]
    exact h.2

theorem Covers.later (h : Covers l t k snap stream) (hk : CutOk m₀ l k) (hl : Later l l') :
    Covers l' t k snap stream := by
  obtain ⟨rs, hrs⟩ := hl.changes
  refine ⟨h.snapshot, h.stream.trans ?_⟩
  rw [hrs, List.drop_append_of_le_length hk.1]
  exact List.prefix_append _ _

/-- A change that is handed over joins the queue, unless that makes the link stop streaming. -/
theorem Accounts.later (h : Accounts l k done) (hk : CutOk m₀ l k) (hl : Later l l') :
    Accounts l' k done := by
  rcases hl.link with ⟨hh, hs, hq, hn⟩ | ⟨r, hh, hlink⟩
  · have hc : l'.changes = l.changes := congrArg (List.map Prod.fst) hh
    exact ⟨fun hstr => by rw [hc, hq, h.queue (hs ▸ hstr)],
      fun hstr => by rw [hc, hn]; exact h.full (hs ▸ hstr)⟩
  · have hc : l'.changes.drop k.before = l.changes.drop k.before ++ [r.1] := by
      rw [Leader.changes, hh, List.map_append]
      exact List.drop_append_of_le_length hk.1
    by_cases hstr : l.link.streaming = true
    · have hq := h.queue hstr
      by_cases hfull : kMaxQueue ≤ l.link.queue.length
      · rw [Link.enqueue_full hstr hfull] at hlink
        have hlen := congrArg List.length hq
        rw [List.length_append, List.length_map, List.length_map] at hlen
        refine ⟨fun hs => ?_, fun _ => ⟨by rw [hlink], ?_⟩⟩
        · rw [hlink] at hs
          cases hs
        · rw [hc, List.length_append, List.length_singleton]
          omega
      · rw [Link.enqueue_room hstr hfull] at hlink
        refine ⟨fun _ => ?_, fun hs => ?_⟩
        · rw [hlink, hc, List.map_append, ← hq, List.append_assoc]
          rfl
        · rw [hlink] at hs
          exact absurd hstr (by simpa using hs)
    · rw [Link.enqueue_idle hstr] at hlink
      obtain ⟨hn, hlen⟩ := h.full (by simpa using hstr)
      refine ⟨fun hs => absurd (hlink ▸ hs) hstr, fun _ => ⟨by rw [hlink, hn], ?_⟩⟩
      rw [hc, List.length_append]
      omega

/-- What was sent stays what it is as long as the cut and what it covers do. -/
theorem Past.imp {t' : Trail} (h : Past m₀ l t) (hsent : t'.sent = t.sent) (hcut : t'.cut = t.cut)
    (hkeep : ∀ k snap stream, CutOk m₀ l k → Covers l t k snap stream →
      CutOk m₀ l' k ∧ Covers l' t' k snap stream) : Past m₀ l' t' := by
  rcases h with ⟨hnil, hnone⟩ | ⟨items, hs, h⟩
  · exact .inl ⟨hsent.trans hnil, hcut.trans hnone⟩
  · refine .inr ⟨items, ⟨hsent.trans hs.1, hs.2⟩, fun k hk => ?_⟩
    obtain ⟨hok, ahead, snap, stream, he, hcov⟩ := h k (hcut.symm.trans hk)
    obtain ⟨hok', hcov'⟩ := hkeep k snap stream hok hcov
    exact ⟨hok', ahead, snap, stream, he, hcov'⟩

theorem Past.later (h : Past m₀ l t) (hl : Later l l') : Past m₀ l' t :=
  h.imp rfl rfl fun _ _ _ hcut hcov => ⟨hcut.later hl, hcov.later hcut hl⟩

theorem Past.relink (h : Past m₀ l t) (link : Link) : Past m₀ { l with link := link } t :=
  h.imp rfl rfl fun _ _ _ hcut hcov => ⟨hcut, hcov.snapshot, hcov.stream⟩

theorem Loads.later (h : Loads m₀ l t es) (hl : Later l l') : Loads m₀ l' t es := by
  obtain ⟨hs, hw, k, hk, hcut, hacc, hcov⟩ := h
  exact ⟨hs, hw, k, hk, hcut.later hl, hacc.later hcut hl, hcov.later hcut hl⟩

theorem Works.later (h : Works m₀ l t ahead stream) (hl : Later l l') :
    Works m₀ l' t ahead stream := by
  obtain ⟨items, hs, hw, k, hk, hcut, snap, he, hacc, hcov⟩ := h
  exact ⟨items, hs, hw, k, hk, hcut.later hl, snap, he, hacc.later hcut hl, hcov.later hcut hl⟩

theorem Loads.skip (h : Loads m₀ l t es) {es' : List (Bytes × Bytes)} {n : ℕ}
    (hsub : ∀ p ∈ es', p ∈ es) (hn : n = 0 → es' = es) :
    Loads m₀ l { t with unread := t.unread + n } es' := by
  obtain ⟨hs, hw, k, hk, hcut, hacc, hcov⟩ := h
  refine ⟨hs, fun p hp => hw p (hsub p hp), k, hk, hcut, hacc, fun hu => ?_, hcov.stream⟩
  have hu : t.unread + n = 0 := hu
  rw [hn (by omega)]
  exact hcov.snapshot (by omega)

theorem Past.skip (h : Past m₀ l t) (n : ℕ) : Past m₀ l { t with unread := t.unread + n } := by
  refine h.imp rfl rfl fun k snap stream hcut hcov => ⟨hcut, fun hu => ?_, hcov.stream⟩
  have hu : t.unread + n = 0 := hu
  exact hcov.snapshot (by omega)

theorem Sends.send {it : Option Mutation} (h : Sends t items) (hw : ∀ r ∈ it, r.Wire) :
    Sends { t with sent := t.sent ++ [text it ++ [10]] } (items ++ [it]) := by
  refine ⟨?_, fun r hr => ?_⟩
  · rw [h.1, List.map_append]
    rfl
  · rcases List.mem_append.1 hr with hr | hr
    · exact h.2 r hr
    · exact hw r (List.mem_singleton.1 hr).symm

theorem Works.send {it : Option Mutation} (h : Works m₀ l t (it :: ahead) stream) :
    Works m₀ l { t with sent := t.sent ++ [text it ++ [10]] } ahead stream := by
  obtain ⟨items, hs, hw, k, hk, hcut, snap, he, hacc, hcov⟩ := h
  refine ⟨items ++ [it], hs.send fun r hr => hw r (hr ▸ List.mem_cons_self),
    fun r hr => hw r (List.mem_cons_of_mem _ hr), k, hk, hcut, snap, ?_, hacc, hcov.snapshot,
    hcov.stream⟩
  rw [List.append_assoc]
  exact he

theorem Works.wire {it : Option Mutation} (h : Works m₀ l t (it :: ahead) stream) :
    ∀ r ∈ it, r.Wire := by
  obtain ⟨-, -, hw, -⟩ := h
  exact fun r hr => hw r (hr ▸ List.mem_cons_self)

theorem Works.ping (h : Works m₀ l t [] stream) : Works m₀ l t [none] (stream ++ [none]) := by
  obtain ⟨items, hs, -, k, hk, hcut, snap, he, hacc, hcov⟩ := h
  have hred : (stream ++ [none]).reduceOption = stream.reduceOption := by
    rw [List.reduceOption_append]
    simp
  refine ⟨items, hs, by simp, k, hk, hcut, snap, ?_, ?_, hcov.snapshot, ?_⟩
  · rw [← List.append_assoc, ← he, List.append_nil]
  · rw [hred]
    exact hacc
  · rw [hred]
    exact hcov.stream

/-- The first line of the queue is the next change behind the cut. -/
theorem Works.pop (h : Works m₀ l t [] stream) (hl : LeaderOk m₀ l) {line : Bytes}
    {queue : List Bytes} (hq : l.link.queue = line :: queue) :
    ∃ r, line = replicate r ∧ Works m₀ { l with link := { l.link with queue := queue } } t [some r]
      (stream ++ [some r]) := by
  obtain ⟨items, hs, -, k, hk, hcut, snap, he, hacc, hcov⟩ := h
  have hstr : l.link.streaming = true := by
    by_contra hf
    rw [hl.queue (by simpa using hf)] at hq
    cases hq
  obtain ⟨rest, hrest⟩ := hcov.stream
  have hline := hacc.queue hstr
  rw [hq, ← hrest, List.map_append] at hline
  obtain ⟨r, rest, rfl, hr, hqueue⟩ := List.map_eq_cons_iff.1 (List.append_cancel_left hline).symm
  have hmem : r ∈ l.changes :=
    List.mem_of_mem_drop (hrest ▸ List.mem_append_right _ List.mem_cons_self)
  obtain ⟨r', hr', rfl⟩ := List.mem_map.1 hmem
  have hred : (stream ++ [some r'.1]).reduceOption = stream.reduceOption ++ [r'.1] := by
    rw [List.reduceOption_append]
    simp
  refine ⟨r'.1, hr.symm, items, hs, ?_, k, hk, hcut, snap, ?_, ⟨fun _ => ?_, hacc.full⟩,
    hcov.snapshot, ?_⟩
  · intro r hr
    rw [← Option.some.inj (List.mem_singleton.1 hr).symm]
    exact hl.wire r' (List.mem_append_left _ hr')
  · rw [← List.append_assoc, ← he, List.append_nil]
  · change (stream ++ [some r'.1]).reduceOption.map replicate ++ queue
      = (l.changes.drop k.before).map replicate
    rw [hred, ← hrest, ← hqueue]
    simp
  · change _ <+: l.changes.drop k.before
    rw [hred, ← hrest]
    exact ⟨rest, by simp⟩

/-- The atomic cut. -/
theorem loads_cut (hs : Sends t []) (hl : LeaderOk m₀ l) (hm : WireMap m₀) (hp : l.pending = [])
    (hes : IsSnapshot l.store es) :
    Loads m₀
      { l with link := { l.link with queue := [], resyncNeeded := false, streaming := true } }
      { t with cut := some ⟨l.store, l.history.length⟩ } es := by
  have hlen : l.history.length = l.changes.length := (List.length_map _).symm
  have hmap : l.store.toMap = applyAll m₀ l.changes := by
    have := hl.map
    rwa [hp, List.append_nil] at this
  have hwire : WireMap l.store.toMap := by
    rw [hmap]
    refine hm.applyAll fun r hr => ?_
    obtain ⟨r', hr', rfl⟩ := List.mem_map.1 hr
    exact hl.wire r' (List.mem_append_left _ hr')
  refine ⟨hs, hes.wire hwire, _, rfl, ⟨hlen.le, ?_⟩, ⟨fun _ => ?_, fun hf => by cases hf⟩,
    fun _ => hes, List.nil_prefix⟩
  · change _ = applyAll m₀ (l.changes.take l.history.length)
    rw [hlen, List.take_length]
    exact hmap
  · change [] = (l.changes.drop l.history.length).map replicate
    rw [hlen, List.drop_length]
    rfl

/-- The recorded map after some changes behind a cut is what they make of the snapshot. -/
theorem LeaderOk.mapAfter (h : LeaderOk m₀ l) (hk : CutOk m₀ l k) (n : ℕ) :
    k.mapAfter l.history n
      = applyAll k.leader.toMap ((l.changes.drop k.before).take n) := by
  have hchain : Chain m₀ (l.history.take k.before ++ ((l.history.drop k.before).take n
      ++ ((l.history.drop k.before).drop n ++ l.pending))) := by
    rw [← List.append_assoc (List.take n _), List.take_append_drop, ← List.append_assoc,
      List.take_append_drop]
    exact h.chain
  have hcut : applyAll m₀ ((l.history.take k.before).map Prod.fst) = k.leader.toMap := by
    rw [hk.2, Leader.changes, List.map_take]
  rw [chain_append, chain_append, hcut] at hchain
  rw [Cut.mapAfter, hchain.2.1.last, Leader.changes, ← List.map_drop, ← List.map_take]

end Plan

end Replicator

end Redon

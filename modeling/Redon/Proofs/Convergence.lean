import Redon.Proofs.Replication

/-!
# The follower follows the leader

Lines executed on one connection since its handshake make the map they were sent for
(`Inv.follows`), and with what is on its way, in the sender's hand and in the queue they are all the
changes behind the cut (`Inv.accounts`). So the follower's map after the snapshot and the first
lines of a stream is the leader's map after as many changes, and none is lost or sent twice
(`atomic_cut`), unless a value of the snapshot holds a newline (`cut_at_newline`). A follower that
has executed everything holds what the leader holds (`converges`), unless lines of an older
connection were executed behind the handshake of a newer one (`stale_line_executed`).
-/

namespace Redon

open Lib Mutation Storage

namespace Replicator

variable {m₀ m₁ : Map} {s : State} {c : ℕ}
  {items : List (Option Mutation)} {log : List (ℕ × Bytes)} {ls : List Bytes}

theorem follow_items (c : ℕ) : ∀ {items : List (Option Mutation)} {m : Map},
    (∀ r, some r ∈ items → r.Wire) →
    follow m ((items.map text).map fun l => (c, l)) = applyAll m items.reduceOption
  | [], _, _ => rfl
  | it :: items, m, h => by
    have hw : ∀ r ∈ it, r.Wire := fun r hr => h r (hr ▸ List.mem_cons_self)
    have ih := follow_items c (m := applyAll m it.toList) fun r hr =>
      h r (List.mem_cons_of_mem it hr)
    have hred : (it :: items).reduceOption = it.toList ++ items.reduceOption := by
      cases it <;> rfl
    rw [hred, applyAll_append, ← ih, follow, List.map_cons, List.map_cons, List.foldl_cons]
    simp only [if_neg (text_ne_hello it), lineWrite_text hw]
    rfl

section Sent

/-! The lines `ls` that were executed, and those that are still to be, are all that was sent. -/

variable {lines : List Bytes}

theorem length_le_of_sent (hls : ls ++ lines = items.map text) : ls.length ≤ items.length := by
  have hlen := congrArg List.length hls
  rw [List.length_append, List.length_map] at hlen
  omega

theorem eq_take_of_sent (hls : ls ++ lines = items.map text) :
    ls = (items.take ls.length).map text := by
  rw [List.map_take, ← hls, List.take_left]

end Sent

/-- Lines executed on one connection since its handshake are the first that were sent there, and
the follower's map is what they make. -/
theorem Inv.follows (h : Inv m₀ m₁ s) (hs : Sends (s.trail c) items)
    (hlog : s.log = log ++ (c, hello) :: ls.map fun l => (c, l)) :
    ∃ lines tail, Carries (s.conn c) (executed s.log c) lines tail
      ∧ (s.sender.on = some c → tail = []) ∧ ls ++ lines = items.map text
      ∧ s.follower.store.toMap = applyAll ∅ (items.take ls.length).reduceOption := by
  obtain ⟨lines, tail, hcar, htail⟩ := h.carries c
  have hex : executed s.log c = executed log c ++ hello :: ls := by
    rw [hlog, ← List.singleton_append, executed_append, executed_append, executed_self,
      executed_map]
    rfl
  have hall := hcar.lines hs
  rw [hex] at hall
  -- the handshake is sent only once, so nothing was executed on the connection before it
  have hnil : executed log c = [] := by
    rcases hd : executed log c with _ | ⟨d, done⟩
    · rfl
    · rw [hd] at hall
      have hmem : hello ∈ items.map text := by
        rw [← (List.cons.inj hall).2]
        simp
      obtain ⟨it, -, he⟩ := List.mem_map.1 hmem
      exact absurd he (text_ne_hello it)
  rw [hnil] at hall
  have hls : ls ++ lines = items.map text := (List.cons.inj hall).2
  refine ⟨lines, tail, hcar, htail, hls, ?_⟩
  rw [h.store.toMap, hlog, follow, List.foldl_append, List.foldl_cons]
  simp only [if_true]
  change follow ∅ (ls.map fun l => (c, l)) = _
  conv_lhs => rw [eq_take_of_sent hls]
  exact follow_items c fun r hr => hs.2 r (List.mem_of_mem_take hr)

theorem reduceOption_sets (es : List (Bytes × Bytes)) :
    (sets es).reduceOption = es.map fun p => .set p.1 p.2 := by
  induction es with
  | nil => rfl
  | cons p es ih => exact congrArg _ ih

/-- The lines of a stream, heartbeats apart, are the lines of its changes. -/
theorem map_filter_ping : ∀ stream : List (Option Mutation),
    ((stream.map text).filter (· ≠ ping)).map (· ++ [10]) = stream.reduceOption.map replicate
  | [] => rfl
  | none :: stream => by
    rw [List.map_cons, List.filter_cons_of_neg (by simp [text_eq_ping.2])]
    exact map_filter_ping stream
  | some r :: stream => by
    have hr : text (some r) ≠ ping := fun he => nomatch text_eq_ping.1 he
    rw [List.map_cons, List.filter_cons_of_pos (by simpa using hr), List.map_cons,
      map_filter_ping stream, ← replicate_eq]
    rfl

theorem length_filter_ping (stream : List (Option Mutation)) :
    ((stream.map text).filter (· ≠ ping)).length = stream.reduceOption.length := by
  have h := congrArg List.length (map_filter_ping stream)
  rwa [List.length_map, List.length_map] at h

theorem Covers.length_sets {l : Leader} {t : Trail} {k : Cut} {snap : List (Bytes × Bytes)}
    {stream : List (Option Mutation)} (h : Covers l t k snap stream) (hu : t.unread = 0) :
    (sets snap).length = k.leader.size := by
  rw [sets, List.length_map, (h.snapshot hu).length]

/-- Once the snapshot is executed, the lines behind it are the first changes behind the cut. -/
theorem Covers.follows {l : Leader} {t : Trail} {k : Cut} {snap : List (Bytes × Bytes)}
    {ahead stream : List (Option Mutation)} {lines : List Bytes} (h : Covers l t k snap stream)
    (hu : t.unread = 0) (he : items ++ ahead = sets snap ++ stream)
    (hls : ls ++ lines = items.map text) (hn : k.leader.size ≤ ls.length) :
    ((ls.drop k.leader.size).filter (· ≠ ping)).length ≤ (l.changes.drop k.before).length
    ∧ applyAll ∅ (items.take ls.length).reduceOption = applyAll k.leader.toMap
      ((l.changes.drop k.before).take ((ls.drop k.leader.size).filter (· ≠ ping)).length) := by
  have hlen := h.length_sets hu
  obtain ⟨n, hsplit⟩ : ∃ n, items.take ls.length = sets snap ++ stream.take n := by
    refine ⟨ls.length - (sets snap).length, ?_⟩
    rw [← List.take_append_of_le_length (length_le_of_sent hls), he, List.take_append,
      List.take_of_length_le (by omega)]
  have hdrop : ls.drop k.leader.size = (stream.take n).map text := by
    rw [eq_take_of_sent hls, hsplit, List.map_append, ← hlen, ← List.length_map text,
      List.drop_left]
  have hpre : (stream.take n).reduceOption <+: l.changes.drop k.before := by
    refine List.IsPrefix.trans ?_ h.stream
    conv_rhs => rw [← List.take_append_drop n stream, List.reduceOption_append]
    exact List.prefix_append _ _
  rw [hdrop, length_filter_ping, hsplit, List.reduceOption_append, reduceOption_sets,
    applyAll_append, (h.snapshot hu).applyAll, ← List.prefix_iff_eq_take.1 hpre]
  exact ⟨hpre.length_le, rfl⟩

/-- Once the snapshot is executed, the follower's map is what the executed lines of the stream make
of the leader's at the cut. -/
theorem Inv.afterCut (h : Inv m₀ m₁ s) {k : Cut} (hk : (s.conn c).trail.cut = some k)
    (hu : (s.conn c).trail.unread = 0)
    (hlog : s.log = log ++ (c, hello) :: ls.map fun l => (c, l)) (hn : k.leader.size ≤ ls.length) :
    CutOk m₀ s.leader k
    ∧ ((ls.drop k.leader.size).filter (· ≠ ping)).length
      ≤ (s.leader.changes.drop k.before).length
    ∧ s.follower.store.toMap = applyAll k.leader.toMap ((s.leader.changes.drop k.before).take
      ((ls.drop k.leader.size).filter (· ≠ ping)).length) := by
  rcases h.past c with ⟨-, hnone⟩ | ⟨items, hs, hcuts⟩
  · rw [State.trail, hk] at hnone
    cases hnone
  · obtain ⟨hcut, ahead, snap, stream, he, hcov⟩ := hcuts k hk
    obtain ⟨lines, tail, -, -, hls, hmap⟩ := h.follows hs hlog
    obtain ⟨hle, heq⟩ := hcov.follows hu he hls hn
    exact ⟨hcut, hle, hmap.trans heq⟩

/-- The line of the queue that the sender has taken and not yet sent. -/
def Sender.inHand : Sender → List Bytes
  | .sending _ line => if line = ping ++ ascii "\n" then [] else [line]
  | _ => []

theorem inHand_sending (c : ℕ) (it : Option Mutation) :
    (Sender.sending c (text it ++ [10])).inHand = [it].reduceOption.map replicate := by
  cases it with
  | none =>
    rw [Sender.inHand, if_pos (by decide)]
    rfl
  | some r =>
    have hne : text (some r) ++ [10] ≠ ping ++ ascii "\n" := fun he =>
      nomatch text_eq_ping.1 (List.append_cancel_right he)
    rw [Sender.inHand, if_neg hne, ← replicate_eq]
    rfl

theorem Works.accounts {l : Leader} {t : Trail} {k : Cut} {ahead stream : List (Option Mutation)}
    (h : Works m₀ l t ahead stream) (hk : t.cut = some k) :
    ∃ items snap, Sends t items ∧ items ++ ahead = sets snap ++ stream
      ∧ Accounts l k stream.reduceOption ∧ Covers l t k snap stream := by
  obtain ⟨items, hs, -, k', hk', -, snap, he, hacc, hcov⟩ := h
  obtain rfl := Option.some.inj (hk.symm.trans hk')
  exact ⟨items, snap, hs, he, hacc, hcov⟩

/-- Past the cut, the sender is on the snapshot and has taken nothing from the queue, or what it has
yet to send of what it took is the line in its hand. -/
theorem Phase.works {l : Leader} {trail : ℕ → Trail} {p : Sender} {k : Cut}
    (h : Phase m₀ l trail p) (hon : p.on = some c) (hk : (trail c).cut = some k) :
    ∃ ahead stream, Works m₀ l (trail c) ahead stream
      ∧ (stream = [] ∧ p.inHand = [] ∨ p.inHand = ahead.reduceOption.map replicate) := by
  cases p <;> cases hon
  case greeting => cases h.2.symm.trans hk
  case awaiting => cases h.2.symm.trans hk
  case cutting => cases h.2.symm.trans hk
  case opening =>
    obtain ⟨_, _, _, _, hload⟩ := h
    exact ⟨_, [], hload.works, .inl ⟨rfl, rfl⟩⟩
  case reading =>
    obtain ⟨_, _, _, _, hload⟩ := h
    exact ⟨_, [], hload.works, .inl ⟨rfl, rfl⟩⟩
  case syncing => exact ⟨_, [], h, .inl ⟨rfl, rfl⟩⟩
  case waiting =>
    obtain ⟨stream, hw⟩ := h
    exact ⟨[], stream, hw, .inr rfl⟩
  case sending =>
    obtain ⟨it, stream, rfl, hw⟩ := h
    exact ⟨[it], stream, hw, .inr (inHand_sending _ it)⟩

/-- Once the snapshot is sent, what was taken from the queue is sent or in hand. -/
theorem split_items {snap : List (Bytes × Bytes)} {ahead stream : List (Option Mutation)}
    (he : items ++ ahead = sets snap ++ stream) (hle : (sets snap).length ≤ items.length) :
    ∃ sent, items = sets snap ++ sent ∧ stream = sent ++ ahead := by
  rcases List.append_eq_append_iff.1 he with ⟨rest, hsnap, hahead⟩ | hsplit
  · have hrest : rest = [] := by
      have hlen := congrArg List.length hsnap
      rw [List.length_append] at hlen
      exact List.length_eq_zero_iff.1 (by omega)
    rw [hrest, List.append_nil] at hsnap
    exact ⟨[], by rw [hsnap, List.append_nil], by rw [hahead, hrest]; rfl⟩
  · exact hsplit

/-- While the sender is on a connection whose snapshot is executed and the link is streaming, the
changes behind the cut are what was executed, what is on its way, the line in the sender's hand and
the queue. -/
theorem Inv.accounts (h : Inv m₀ m₁ s) (hon : s.sender.on = some c) {k : Cut}
    (hk : (s.conn c).trail.cut = some k) (hu : (s.conn c).trail.unread = 0)
    (hlog : s.log = log ++ (c, hello) :: ls.map fun l => (c, l)) (hn : k.leader.size ≤ ls.length)
    (hstr : s.leader.link.streaming = true) :
    ∃ flight : List Bytes, (∀ l ∈ flight, 10 ∉ l)
      ∧ (s.conn c).client.inbuf ++ (s.conn c).wire = (flight.map (· ++ [10])).flatten
      ∧ (s.leader.history.map fun r => replicate r.1).drop k.before
        = (((ls ++ flight).drop k.leader.size).filter (· ≠ ping)).map (· ++ [10])
          ++ s.sender.inHand ++ s.leader.link.queue := by
  obtain ⟨ahead, stream, hworks, hhand⟩ := h.phase.works hon hk
  obtain ⟨items, snap, hs, he, hacc, hcov⟩ := hworks.accounts hk
  obtain ⟨flight, tail, hcar, htail, hls, -⟩ := h.follows hs hlog
  have hlen := hcov.length_sets hu
  obtain ⟨sent, hitems, rfl⟩ :=
    split_items he (hlen.trans_le (hn.trans (length_le_of_sent hls)))
  have hdrop : (ls ++ flight).drop k.leader.size = sent.map text := by
    rw [hls, hitems, List.map_append, ← hlen, ← List.length_map text, List.drop_left]
  have hahead : ahead.reduceOption.map replicate = s.sender.inHand := by
    rcases hhand with ⟨hnil, hhand⟩ | hhand
    · rw [(List.append_eq_nil_iff.1 hnil).2, hhand]
      rfl
    · exact hhand.symm
  have hqueue := hacc.queue hstr
  rw [List.reduceOption_append, List.map_append, hahead, Leader.changes, ← List.map_drop,
    List.map_map] at hqueue
  refine ⟨flight, hcar.newline, ?_, ?_⟩
  · rw [hcar.bytes, htail hon, List.append_nil]
  · rw [hdrop, map_filter_ping, hqueue, List.map_drop]
    rfl

/-- For a connection with its whole snapshot executed and then the first lines of the stream, and no
line of another replica link since its handshake: the follower's map is the leader's right after as
many changes behind the cut as lines of the stream, heartbeats apart, were executed, and after all
of them the leader's map is what it is now. While the sender is on the connection, the changes
behind the cut are the lines of the stream that were executed, those on their way, the one the
sender has in hand and the queue, in this order; or there were more of them than the queue takes,
and the sender is told to start over with another snapshot. The leader's entries at the start are
such as clients' lines leave them. -/
theorem atomic_cut (p : Pair) {leader follower : Storage} (hl : leader.Sound)
    (hw : WireMap leader.toMap) {m : Map} (hf : Plain m follower) {s : State}
    (hr : Reaches p.step (Pair.init leader follower) s) {c : ℕ} {k : Cut}
    (hk : (s.conn c).trail.cut = some k) (hu : (s.conn c).trail.unread = 0)
    {log : List (ℕ × Bytes)} {ls : List Bytes}
    (hlog : s.log = log ++ (c, hello) :: ls.map fun l => (c, l)) (hn : k.leader.size ≤ ls.length) :
    k.before + ((ls.drop k.leader.size).filter (· ≠ ping)).length ≤ s.leader.history.length
    ∧ s.follower.store.toMap
      = k.mapAfter s.leader.history ((ls.drop k.leader.size).filter (· ≠ ping)).length
    ∧ (s.leader.pending = [] →
      s.leader.store.toMap = k.mapAfter s.leader.history s.leader.history.length)
    ∧ (s.sender.on = some c → s.leader.link.streaming = true →
      ∃ flight : List Bytes, (∀ l ∈ flight, 10 ∉ l)
        ∧ (s.conn c).client.inbuf ++ (s.conn c).wire = (flight.map (· ++ [10])).flatten
        ∧ (s.leader.history.map fun r => replicate r.1).drop k.before
          = (((ls ++ flight).drop k.leader.size).filter (· ≠ ping)).map (· ++ [10])
            ++ s.sender.inHand ++ s.leader.link.queue)
    ∧ (s.sender.on = some c → s.leader.link.streaming = false →
      s.leader.link.resyncNeeded = true ∧ k.before + kMaxQueue < s.leader.history.length) := by
  have h := inv_reaches p hl hw hf hr
  have hlen : s.leader.changes.length = s.leader.history.length := List.length_map _
  obtain ⟨hcut, hle, hmap⟩ := h.afterCut hk hu hlog hn
  have hbefore := hcut.1
  rw [List.length_drop] at hle
  refine ⟨by omega, ?_, fun hp => ?_, fun hon hstr => h.accounts hon hk hu hlog hn hstr,
    fun hon hstr => ?_⟩
  · rw [hmap, h.leader.mapAfter hcut]
  · rw [h.leader.mapAfter hcut, List.take_of_length_le (by rw [List.length_drop]; omega), hcut.2,
      ← applyAll_append, List.take_append_drop, h.leader.map, hp, List.append_nil]
    rfl
  · obtain ⟨ahead, stream, hworks, -⟩ := h.phase.works hon hk
    obtain ⟨-, -, -, -, hacc, -⟩ := hworks.accounts hk
    obtain ⟨hneeded, hmany⟩ := hacc.full hstr
    rw [List.length_drop] at hmany
    exact ⟨hneeded, by omega⟩

section Runs

/-! Two servers to run the model on. -/

def duo : Pair where
  leaderEnv := ⟨false, { selfId := [], peers := [] }, ⟨0, 0⟩, true, true⟩
  followerEnv := ⟨true, { selfId := [], peers := [] }, ⟨0, 0⟩, true, true⟩
  info := []
  leads := rfl
  follows := rfl

/-- Connection `c` is made, the handshake executed and acknowledged, and the snapshot cut. -/
def handshake (c : ℕ) : List Action :=
  [.sender (.connect true), .sender (.send none), .follower (.receive c 13), .follower (.execute c),
    .sender (.ack true), .sender (.cut ⟨id, .refl⟩)]

/-- A client's line with one change, which the sender takes from the queue. -/
def write (line : Bytes) : List Action :=
  [.leader (.client line), .leader .enqueue, .sender .wake]

end Runs

theorem sound_empty (capacity : ℕ) : (Storage.empty capacity).Sound := sound_of_none rfl

/-- A leader of capacity 1: the change that was executed is there, the eviction it caused is not. -/
theorem atomic_cut_evicting : ∃ s k,
    Reaches duo.step (Pair.init (.empty 1) (.empty 0)) s ∧ (s.conn 0).trail.cut = some k
    ∧ s.follower.store.toMap = k.mapAfter s.leader.history 1
    ∧ s.follower.store.toMap.lookup (ascii "a") = some (ascii "1")
    ∧ s.leader.store.toMap.lookup (ascii "a") = none := by
  obtain ⟨s, hs, hsize, hunread, hlog, hf, hl⟩ := exists_reaches duo.step
    (Pair.init (.empty 1) (.empty 0))
    ([.leader (.client (ascii "SET a 1")), .leader .enqueue] ++ handshake 0
      ++ [.sender (.send none)] ++ write (ascii "SET b 2")
      ++ [.sender (.send none), .leader .enqueue, .sender .wake, .sender (.send none),
        .follower (.receive 0 22), .follower (.execute 0), .follower (.execute 0)])
    (fun s => (s.conn 0).trail.cut.map (·.leader.size) = some 1 ∧ (s.conn 0).trail.unread = 0
      ∧ s.log = [] ++ (0, hello) :: [ascii "SET a 1", ascii "SET b 2"].map (fun l => (0, l))
      ∧ s.follower.store.toMap.lookup (ascii "a") = some (ascii "1")
      ∧ s.leader.store.toMap.lookup (ascii "a") = none) (by decide +kernel)
  obtain ⟨k, hk, hsize⟩ := Option.map_eq_some_iff.1 hsize
  have hcut := atomic_cut duo (sound_empty 1) wireMap_empty plain_empty hs hk hunread hlog
    (by rw [hsize]; decide)
  rw [hsize] at hcut
  exact ⟨s, k, hs, hk, hcut.2.1, hf, hl⟩

/-- A log whose first record is torn, with two records appended behind it: the value of the first is
read from the bytes of the others. -/
def tornLog : Bytes :=
  (Mutation.set (ascii "k") (ascii "012345678901234567890")).encode.take 10
    ++ encodeAll [.set (ascii "b") (ascii "2"), .set (ascii "c") (ascii "3")]

/-- A leader whose log gave it a value with a newline sends it as two lines. The follower has
executed every byte of the snapshot and nothing is behind the cut, and it holds another value. -/
theorem cut_at_newline : ∃ s, Reaches duo.step
      (Pair.init (.openLog 0 (some tornLog) none) (.empty 0)) s
    ∧ s.sender = .waiting 0 ∧ s.leader.link.streaming = true ∧ s.leader.link.queue = []
    ∧ (s.conn 0).trail.unread = 0 ∧ s.leader.history.isEmpty
    ∧ (s.conn 0).client.inbuf = [] ∧ (s.conn 0).wire = []
    ∧ s.log = [(0, hello), (0, ascii "SET k SET 1 1 b2"), (0, ascii "SET 1 1 c3")]
    ∧ s.leader.store.toMap.lookup (ascii "k") = some (ascii "SET 1 1 b2\nSET 1 1 c3")
    ∧ s.follower.store.toMap.lookup (ascii "k") = some (ascii "SET 1 1 b2")
    ∧ s.follower.store.toMap.lookup (ascii "1") = some (ascii "1 c3") :=
  exists_reaches duo.step (Pair.init (.openLog 0 (some tornLog) none) (.empty 0))
    (handshake 0 ++ [.sender (.send none), .follower (.receive 0 28), .follower (.execute 0),
      .follower (.execute 0)]) _ (by decide +kernel)

theorem Carries.lines_nil {x : Conn} {done lines : List Bytes} {tail : Bytes}
    (h : Carries x done lines tail) (hb : x.client.inbuf = [] ∧ x.wire = []) : lines = [] := by
  have hbytes := h.bytes
  rw [hb.1, hb.2] at hbytes
  cases lines with
  | nil => rfl
  | cons l lines => simp at hbytes

/-- The newest connection's handshake was executed, and only its lines since. -/
theorem Inv.newest (h : Inv m₀ m₁ s) (hc : c + 1 = s.opened) {lines : List Bytes}
    (hex : executed s.log c = hello :: lines)
    (horder : s.log.Pairwise fun q q' => q.2 = hello → q.1 ≤ q'.1) :
    ∃ (log : List (ℕ × Bytes)) (ls : List Bytes),
      s.log = log ++ (c, hello) :: ls.map fun l => (c, l) := by
  have hmem : (c, hello) ∈ s.log := by
    have hin : hello ∈ executed s.log c := hex ▸ List.mem_cons_self
    obtain ⟨q, hq, he⟩ := List.mem_map.1 hin
    obtain ⟨hq, hqc⟩ := List.mem_filter.1 hq
    rwa [← he, ← of_decide_eq_true hqc]
  obtain ⟨log, log', hlog⟩ := List.append_of_mem hmem
  rw [hlog] at horder
  have hlater := (List.pairwise_cons.1 (List.pairwise_append.1 horder).2.1).1
  have hsame : ∀ q ∈ log', q.1 = c := by
    intro q hq
    have hge : c ≤ q.1 := hlater q hq rfl
    -- a connection that was not made yet has executed nothing
    have hlt : q.1 < s.opened := by
      by_contra hno
      have hnil := (h.fresh q.1 (not_lt.1 hno)).2
      have hin : q.2 ∈ executed s.log q.1 := by
        refine List.mem_map.2 ⟨q, List.mem_filter.2 ⟨?_, by simp⟩, rfl⟩
        rw [hlog]
        simp [hq]
      rw [hnil] at hin
      cases hin
    omega
  have hself : (log'.map Prod.snd).map (fun l => (c, l)) = log' := by
    rw [List.map_map]
    conv_rhs => rw [← List.map_id log']
    exact List.map_congr_left fun q hq => Prod.ext (hsame q hq).symm rfl
  exact ⟨log, log'.map Prod.snd, by rw [hself, hlog]⟩

/-- The follower converges: when the link is streaming and its queue is empty, the sender is at its
wait, no client's call is under way and the follower has executed every byte sent on every
connection, its map is the leader's. This needs that no line of an older connection was executed
behind a newer connection's handshake, and that the whole snapshot could be read. -/
theorem converges (p : Pair) {leader follower : Storage} (hl : leader.Sound)
    (hw : WireMap leader.toMap) {m : Map} (hf : Plain m follower) {s : State}
    (hr : Reaches p.step (Pair.init leader follower) s) {c : ℕ} (hs : s.sender = .waiting c)
    (hstr : s.leader.link.streaming = true) (hq : s.leader.link.queue = [])
    (hp : s.leader.pending = [])
    (hdone : ∀ c < s.opened, (s.conn c).client.inbuf = [] ∧ (s.conn c).wire = [])
    (hu : (s.conn c).trail.unread = 0)
    (horder : s.log.Pairwise fun q q' => q.2 = hello → q.1 ≤ q'.1) :
    s.follower.store.toMap = s.leader.store.toMap := by
  have h := inv_reaches p hl hw hf hr
  have hph := h.phase
  rw [hs] at hph
  obtain ⟨stream, items, hsends, -, k, -, hcut, snap, he, hacc, hcov⟩ := hph
  rw [List.append_nil] at he
  have hcur : c + 1 = s.opened := h.current c (by rw [hs]; rfl)
  have hbytes := hdone c (by omega)
  obtain ⟨lines, tail, hcar, -⟩ := h.carries c
  have hex := hcar.lines hsends
  rw [hcar.lines_nil hbytes, List.append_nil] at hex
  obtain ⟨log, ls, hlog⟩ := h.newest hcur hex horder
  obtain ⟨lines', tail', hcar', -, hls, hmap⟩ := h.follows hsends hlog
  rw [hcar'.lines_nil hbytes, List.append_nil] at hls
  have hall : items.take ls.length = items := by
    rw [hls, List.length_map, List.take_length]
  -- the stream is all of the changes behind the cut
  have hstream : stream.reduceOption = s.leader.changes.drop k.before := by
    have hcount := congrArg List.length (hacc.queue hstr)
    rw [hq, List.append_nil, List.length_map, List.length_map] at hcount
    exact hcov.stream.eq_of_length hcount
  have hleader := h.leader.map
  rw [hp, List.append_nil] at hleader
  rw [hmap, hall, he, List.reduceOption_append, reduceOption_sets, applyAll_append,
    (hcov.snapshot hu).applyAll, hstream, hcut.2, ← applyAll_append, List.take_append_drop, hleader]
  rfl

/-- A line fails to be sent; the follower gets it with the snapshot of the next connection. -/
theorem converges_again : ∃ s, Reaches duo.step (Pair.init (.empty 0) (.empty 0)) s ∧ s.opened = 2
    ∧ s.follower.store.toMap = s.leader.store.toMap
    ∧ s.leader.store.toMap.lookup (ascii "k") = some (ascii "2") := by
  obtain ⟨s, hs, hopened, hsender, hstr, hq, hp, hdone, hu, horder, hk⟩ := exists_reaches duo.step
    (Pair.init (.empty 0) (.empty 0))
    (handshake 0 ++ write (ascii "SET k 1") ++ [.sender (.send none), .follower (.receive 0 8),
      .follower (.execute 0)] ++ write (ascii "SET k 2")
      ++ [.sender (.send (some 0)), .sender .cleanup, .sender .resume] ++ handshake 1
      ++ [.sender (.send none), .follower (.receive 1 8), .follower (.execute 1)])
    (fun s => s.opened = 2 ∧ s.sender = .waiting 1 ∧ s.leader.link.streaming = true
      ∧ s.leader.link.queue = [] ∧ s.leader.pending.isEmpty
      ∧ (∀ c < s.opened, (s.conn c).client.inbuf = [] ∧ (s.conn c).wire = [])
      ∧ (s.conn 1).trail.unread = 0
      ∧ (s.log.Pairwise fun q q' => q.2 = hello → q.1 ≤ q'.1)
      ∧ s.leader.store.toMap.lookup (ascii "k") = some (ascii "2")) (by decide +kernel)
  exact ⟨s, hs, hopened, converges duo (sound_empty 0) wireMap_empty plain_empty hs hsender hstr hq
    (List.isEmpty_iff.1 hp) hdone hu horder, hk⟩

/-- The leader gives up on a connection while its last line is still to be executed. The follower
executes it behind the handshake and the snapshot of the next connection, and keeps the older value
with nothing left to correct it. -/
theorem stale_line_executed : ∃ s, Reaches duo.step (Pair.init (.empty 0) (.empty 0)) s
    ∧ s.sender = .waiting 1 ∧ s.leader.link.streaming = true ∧ s.leader.link.queue = []
    ∧ s.leader.pending.isEmpty
    ∧ (∀ c < s.opened, (s.conn c).client.inbuf = [] ∧ (s.conn c).wire = [])
    ∧ (s.conn 1).trail.unread = 0
    ∧ s.follower.store.toMap.lookup (ascii "k") = some (ascii "1")
    ∧ s.leader.store.toMap.lookup (ascii "k") = some (ascii "2") :=
  exists_reaches duo.step (Pair.init (.empty 0) (.empty 0))
    (handshake 0 ++ write (ascii "SET k 1") ++ [.sender (.send none)] ++ write (ascii "SET k 2")
      ++ [.sender (.send (some 0)), .sender .cleanup, .sender .resume] ++ handshake 1
      ++ [.sender (.send none), .follower (.receive 1 8), .follower (.execute 1),
        .follower (.receive 0 8), .follower (.execute 0)]) _ (by decide +kernel)

end Replicator

end Redon

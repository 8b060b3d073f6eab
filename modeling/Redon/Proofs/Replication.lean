import Redon.Lib.Machine
import Redon.Proofs.Plan
import Redon.Proofs.Transport

/-!
# The invariant of replication

The leader's map is what it handed over, every connection carries what was sent on it, what was sent
follows the plan, and the follower's map is what the executed lines make (`Inv`). Every step of the
leader's clients, the sender and the follower's handlers keeps it (`inv_step`).
-/

namespace Redon

open Lib Mutation Storage

namespace Replicator

def Sender.on : Sender → Option ℕ
  | .greeting c => some c
  | .awaiting c => some c
  | .cutting c => some c
  | .opening c _ => some c
  | .reading c _ _ => some c
  | .syncing c _ => some c
  | .waiting c => some c
  | .sending c _ => some c
  | _ => none

/-- Where the sender is in its plan for the connection it is on. -/
def Phase (m₀ : Map) (l : Leader) (trail : ℕ → Trail) : Sender → Prop
  | .greeting c => (trail c).sent = [] ∧ (trail c).cut = none
  | .awaiting c => Sends (trail c) [] ∧ (trail c).cut = none
  | .cutting c => Sends (trail c) [] ∧ (trail c).cut = none
  | .opening c idx => ∃ d es, l.store.disk = some d ∧ Reads d.file.bytes idx es
      ∧ Loads m₀ l (trail c) es
  | .reading c idx snap => ∃ d es, l.store.disk = some d ∧ Reads d.file.bytes idx es
      ∧ Loads m₀ l (trail c) (snap ++ es)
  | .syncing c snap => Works m₀ l (trail c) (sets snap) []
  | .waiting c => ∃ stream, Works m₀ l (trail c) [] stream
  | .sending c line => ∃ it stream, line = text it ++ [10] ∧ Works m₀ l (trail c) [it] stream
  | _ => True

def State.trail (s : State) (c : ℕ) : Trail := (s.conn c).trail

/-- What the executed lines make of a map. -/
def follow (m : Map) (log : List (ℕ × Bytes)) : Map :=
  log.foldl (fun m p => if p.2 = hello then ∅ else applyAll m (lineWrite p.2)) m

structure Inv (m₀ m₁ : Map) (s : State) : Prop where
  leader : LeaderOk m₀ s.leader
  fresh : ∀ c, s.opened ≤ c → s.conn c = .fresh ∧ executed s.log c = []
  current : ∀ c, s.sender.on = some c → c + 1 = s.opened
  carries : ∀ c, ∃ lines tail, Carries (s.conn c) (executed s.log c) lines tail
    ∧ (s.sender.on = some c → tail = [])
  past : ∀ c, Past m₀ s.leader (s.trail c)
  phase : Phase m₀ s.leader s.trail s.sender
  store : Plain (follow m₁ s.log) s.follower.store
  raft : s.follower.raft = none

variable {m₀ m₁ : Map} {s s' : State} {c : ℕ}

theorem inv_init {leader follower : Storage} (hl : leader.Sound) (hf : Plain m₁ follower) :
    Inv leader.toMap m₁ (Pair.init leader follower) where
  leader := ⟨hl, trivial, rfl, by simp [Pair.init], fun _ => rfl⟩
  fresh := fun _ _ => ⟨rfl, rfl⟩
  current := nofun
  carries := fun _ => ⟨[], [], carries_fresh, nofun⟩
  past := fun _ => past_of_nil rfl rfl
  phase := trivial
  store := hf
  raft := rfl

section Leader

theorem Phase.later {l l' : Leader} {trail : ℕ → Trail} {p : Sender} (h : Phase m₀ l trail p)
    (hl : Later l l') : Phase m₀ l' trail p := by
  cases p with
  | opening c idx =>
    obtain ⟨d, es, hd, hr, hload⟩ := h
    obtain ⟨d', hd', hb⟩ := hl.grows d hd
    exact ⟨d', es, hd', hr.append hb, hload.later hl⟩
  | reading c idx snap =>
    obtain ⟨d, es, hd, hr, hload⟩ := h
    obtain ⟨d', hd', hb⟩ := hl.grows d hd
    exact ⟨d', es, hd', hr.append hb, hload.later hl⟩
  | syncing c snap => exact Works.later h hl
  | waiting c =>
    obtain ⟨stream, hw⟩ := h
    exact ⟨stream, hw.later hl⟩
  | sending c line =>
    obtain ⟨it, stream, he, hw⟩ := h
    exact ⟨it, stream, he, hw.later hl⟩
  | _ => exact h

theorem Inv.leaderStep (h : Inv m₀ m₁ s) (hm : WireMap m₀) {e : ExecEnv} {info : Bytes}
    (he : e.nodeIsFollower = false) {a : LeaderAction} {l : Leader}
    (hs : s.leader.step e info a = some l) : Inv m₀ m₁ { s with leader := l } := by
  obtain ⟨hl, hlater⟩ := h.leader.step hm he hs
  exact ⟨hl, h.fresh, h.current, h.carries, fun c => (h.past c).later hlater, h.phase.later hlater,
    h.store, h.raft⟩

end Leader

section Follower

theorem trail_setConn (s : State) (c : ℕ) (x : Conn) :
    (s.setConn c x).trail = Function.update s.trail c x.trail := by
  funext c'
  by_cases hc : c' = c
  · subst hc
    simp [State.trail, State.setConn]
  · simp [State.trail, State.setConn, Function.update_of_ne hc]

theorem trail_setConn_of_eq {x : Conn} (h : x.trail = (s.conn c).trail) :
    (s.setConn c x).trail = s.trail := by
  rw [trail_setConn, h]
  exact Function.update_eq_self c s.trail

theorem Inv.handler (h : Inv m₀ m₁ s) (hc : c < s.opened) {x : Conn}
    (ht : x.trail = (s.conn c).trail) {log : List (ℕ × Bytes)}
    (hlog : ∀ c', c' ≠ c → executed log c' = executed s.log c')
    (hx : ∀ lines tail, Carries (s.conn c) (executed s.log c) lines tail →
      ∃ lines', Carries x (executed log c) lines' tail)
    {nd : Node} (hs : Plain (follow m₁ log) nd.store) (hr : nd.raft = none) :
    Inv m₀ m₁ { s.setConn c x with follower := nd, log := log } := by
  have htrail := trail_setConn_of_eq ht
  refine ⟨h.leader, fun c' hc' => ?_, h.current, fun c' => ?_, fun c' => ?_, ?_, hs, hr⟩
  · have hne : c' ≠ c := by
      have : s.opened ≤ c' := hc'
      omega
    obtain ⟨h₁, h₂⟩ := h.fresh c' hc'
    exact ⟨(Function.update_of_ne hne _ _).trans h₁, (hlog c' hne).trans h₂⟩
  · obtain ⟨lines, tail, hcar, htail⟩ := h.carries c'
    by_cases hne : c' = c
    · subst hne
      obtain ⟨lines', hcar'⟩ := hx lines tail hcar
      refine ⟨lines', tail, ?_, htail⟩
      change Carries (Function.update s.conn c' x c') _ _ _
      rwa [Function.update_self]
    · refine ⟨lines, tail, ?_, htail⟩
      change Carries (Function.update s.conn c x c') (executed log c') _ _
      rwa [Function.update_of_ne hne, hlog c' hne]
  · change Past m₀ s.leader ((s.setConn c x).trail c')
    rw [htrail]
    exact h.past c'
  · change Phase m₀ s.leader (s.setConn c x).trail s.sender
    rw [htrail]
    exact h.phase

theorem follow_append (m : Map) (log : List (ℕ × Bytes)) (c : ℕ) (line : Bytes) :
    follow m (log ++ [(c, line)])
      = if line = hello then ∅ else applyAll (follow m log) (lineWrite line) := by
  rw [follow, List.foldl_append]
  rfl

/-- What was executed and what is on its way is the handshake and what was sent behind it. -/
theorem Carries.lines {x : Conn} {done lines : List Bytes} {tail : Bytes}
    {items : List (Option Mutation)} (h : Carries x done lines tail) (hs : Sends x.trail items) :
    done ++ lines = hello :: items.map text := by
  have hmap : (done ++ lines).map (· ++ [10]) = (hello :: items.map text).map (· ++ [10]) := by
    rw [← h.sent, hs.1, List.map_cons, List.map_map]
    rfl
  exact List.map_injective_iff.2 (List.append_left_injective [10]) hmap

/-- The line a handler executes next is the handshake on a new connection, else a change or a
heartbeat. -/
theorem Inv.nextLine (h : Inv m₀ m₁ s) {done lines : List Bytes} {line tail : Bytes}
    (hc : Carries (s.conn c) done (line :: lines) tail) :
    (done = [] ∧ line = hello) ∨ (done ≠ [] ∧ ∃ it, line = text it ∧ ∀ r ∈ it, r.Wire) := by
  rcases h.past c with ⟨hnil, -⟩ | ⟨items, hs, -⟩
  · have hsent := hc.sent
    rw [show (s.conn c).trail.sent = [] from hnil] at hsent
    simp at hsent
  · have hlines := hc.lines hs
    cases done with
    | nil => exact .inl ⟨rfl, (List.cons.inj hlines).1⟩
    | cons d done =>
      have hmem : line ∈ items.map text := by
        rw [← (List.cons.inj hlines).2]
        simp
      obtain ⟨it, hit, rfl⟩ := List.mem_map.1 hmem
      exact .inr ⟨List.cons_ne_nil _ _, it, rfl, fun r hr => hs.2 r (hr ▸ hit)⟩

theorem Inv.handleLine (h : Inv m₀ m₁ s) {e : ExecEnv} (info : Bytes)
    (he : e.nodeIsFollower = true) {lines : List Bytes} {line tail : Bytes}
    (hc : Carries (s.conn c) (executed s.log c) (line :: lines) tail) (rest : Bytes) :
    ∃ client, Handles e info s.follower { (s.conn c).client with inbuf := rest } line
        (follow m₁ (s.log ++ [(c, line)])) client
      ∧ client.isReplicaLink = true ∧ client.inbuf = rest := by
  have hlink := hc.link
  rw [follow_append]
  rcases h.nextLine hc with ⟨hdone, rfl⟩ | ⟨hdone, it, rfl, hw⟩
  · rw [hdone] at hlink
    rw [if_pos rfl]
    exact ⟨_, handleLine_hello info he hlink h.store h.raft, rfl, rfl⟩
  · rw [List.isEmpty_eq_false_iff.2 hdone] at hlink
    rw [if_neg (text_ne_hello it), lineWrite_text hw]
    exact ⟨_, handleLine_text info hlink h.store h.raft hw, hlink, rfl⟩

theorem Inv.execute (h : Inv m₀ m₁ s) {e : ExecEnv} {info : Bytes} (he : e.nodeIsFollower = true)
    (hs : s.execute e info c = some s') : Inv m₀ m₁ s' := by
  simp only [State.execute] at hs
  split_ifs at hs with hc
  rw [not_or, not_le] at hc
  split at hs
  · cases hs
  · rename_i line rest hsplit
    obtain ⟨lines, tail, hcar, -⟩ := h.carries c
    obtain ⟨lines', rfl, -⟩ := hcar.next hsplit
    obtain ⟨client, ⟨nd, hhandle, hstore, hraft⟩, hlink, hinbuf⟩ := h.handleLine info he hcar rest
    rw [hhandle] at hs
    obtain rfl := Option.some.inj hs
    refine h.handler (x := { s.conn c with client := client }) hc.1 rfl (fun c' hne => ?_)
      (fun lines tail hcar => ?_) hstore hraft
    · rw [executed_append, executed_of_ne (Ne.symm hne), List.append_nil]
    · obtain ⟨lines', rfl, hrest⟩ := hcar.next hsplit
      rw [executed_append, executed_self]
      exact ⟨lines', hcar.execute (hinbuf ▸ hrest) hlink⟩

theorem Inv.setClient (h : Inv m₀ m₁ s) (hc : c < s.opened) (wire : Bytes) (client : Client)
    (hb : client.inbuf ++ wire = (s.conn c).client.inbuf ++ (s.conn c).wire)
    (hl : client.isReplicaLink = (s.conn c).client.isReplicaLink) :
    Inv m₀ m₁ (s.setConn c { s.conn c with wire := wire, client := client }) :=
  h.handler (x := { s.conn c with wire := wire, client := client }) hc rfl (fun _ _ => rfl)
    (fun lines _ hcar => ⟨lines, hcar.client hb hl⟩) h.store h.raft

theorem Inv.receive (h : Inv m₀ m₁ s) {n : ℕ} (hs : s.receive c n = some s') : Inv m₀ m₁ s' := by
  simp only [State.receive] at hs
  split_ifs at hs with hc hlen
  · rw [not_or, not_le] at hc
    obtain rfl := Option.some.inj hs
    exact h.setClient hc.1 _ _ rfl rfl
  · rw [not_or, not_le] at hc
    obtain rfl := Option.some.inj hs
    refine h.setClient hc.1 _ _ ?_ rfl
    rw [List.append_assoc, List.take_append_drop]

theorem Inv.followerStep (h : Inv m₀ m₁ s) {e : ExecEnv} {info : Bytes}
    (he : e.nodeIsFollower = true) {a : FollowerAction}
    (hs : s.followerStep e info a = some s') : Inv m₀ m₁ s' := by
  cases a with
  | receive c n => exact h.receive hs
  | execute c => exact h.execute he hs
  | hangup c =>
    simp only [State.followerStep] at hs
    split_ifs at hs with hc
    obtain rfl := Option.some.inj hs
    exact h.setClient (not_le.1 hc) _ _ rfl rfl
  | reader line =>
    simp only [State.followerStep] at hs
    split_ifs at hs with hv
    obtain rfl := Option.some.inj hs
    obtain ⟨hstore, hraft⟩ := answerLine_reader info he hv h.store h.raft
    exact ⟨h.leader, h.fresh, h.current, h.carries, h.past, h.phase, hstore, hraft⟩

end Follower

section Sender

variable {link : Link} {next : Sender} {x : Conn}

/-- A step of the sender that leaves its connection alone. -/
theorem Inv.move (h : Inv m₀ m₁ s) (hq : link.streaming = false → link.queue = [])
    (hon : ∀ c, next.on = some c → s.sender.on = some c)
    (hph : Phase m₀ { s.leader with link := link } s.trail next) :
    Inv m₀ m₁ { s with leader := { s.leader with link := link }, sender := next } := by
  refine ⟨⟨h.leader.sound, h.leader.chain, h.leader.map, h.leader.wire, hq⟩, h.fresh,
    fun c hc => h.current c (hon c hc), fun c => ?_, fun c => (h.past c).relink link, hph, h.store,
    h.raft⟩
  obtain ⟨lines, tail, hcar, htail⟩ := h.carries c
  exact ⟨lines, tail, hcar, fun hc => htail (hon c hc)⟩

theorem Inv.stay (h : Inv m₀ m₁ s) (hon : s.sender.on = some c)
    (hq : link.streaming = false → link.queue = []) (hnext : next.on = some c)
    (hph : Phase m₀ { s.leader with link := link } s.trail next) :
    Inv m₀ m₁ { s with leader := { s.leader with link := link }, sender := next } := by
  refine h.move hq (fun c' hc' => ?_) hph
  rw [hon, ← hnext, hc']

theorem phase_of_none {l : Leader} {trail : ℕ → Trail} (h : next.on = none) :
    Phase m₀ l trail next := by
  cases next <;> trivial

theorem Inv.leave (h : Inv m₀ m₁ s) (hq : link.streaming = false → link.queue = [])
    (hnext : next.on = none) :
    Inv m₀ m₁ { s with leader := { s.leader with link := link }, sender := next } := by
  refine h.move hq (fun c hc => ?_) (phase_of_none hnext)
  rw [hnext] at hc
  cases hc

theorem Inv.onConn (h : Inv m₀ m₁ s) (hon : s.sender.on = some c)
    (hq : link.streaming = false → link.queue = []) (hnext : ∀ c', next.on = some c' → c' = c)
    (hx : ∀ lines, Carries (s.conn c) (executed s.log c) lines [] →
      ∃ lines' tail, Carries x (executed s.log c) lines' tail ∧ (next.on = some c → tail = []))
    (hpast : Past m₀ s.leader x.trail)
    (hph : Phase m₀ { s.leader with link := link } (Function.update s.trail c x.trail) next) :
    Inv m₀ m₁ { s.setConn c x with leader := { s.leader with link := link }, sender := next } := by
  have hc := h.current c hon
  have htrail := trail_setConn s c x
  refine ⟨⟨h.leader.sound, h.leader.chain, h.leader.map, h.leader.wire, hq⟩, fun c' hc' => ?_,
    fun c' hc' => (hnext c' hc').symm ▸ hc, fun c' => ?_, fun c' => ?_, ?_, h.store, h.raft⟩
  · have hc' : s.opened ≤ c' := hc'
    obtain ⟨h₁, h₂⟩ := h.fresh c' hc'
    exact ⟨(Function.update_of_ne (by omega) _ _).trans h₁, h₂⟩
  · change ∃ lines tail, Carries (Function.update s.conn c x c') (executed s.log c') lines tail ∧ _
    obtain ⟨lines, tail, hcar, htail⟩ := h.carries c'
    by_cases hne : c' = c
    · subst hne
      rw [htail hon] at hcar
      rw [Function.update_self]
      exact hx lines hcar
    · rw [Function.update_of_ne hne]
      exact ⟨lines, tail, hcar, fun hc' => absurd (hnext c' hc') hne⟩
  · refine Past.relink (l := s.leader) ?_ link
    change Past m₀ s.leader ((s.setConn c x).trail c')
    rw [htrail]
    by_cases hne : c' = c
    · subst hne
      rwa [Function.update_self]
    · rw [Function.update_of_ne hne]
      exact h.past c'
  · change Phase m₀ _ (s.setConn c x).trail next
    rwa [htrail]

theorem Inv.sendLine (h : Inv m₀ m₁ s) (hon : s.sender.on = some c) {line : Bytes}
    (hl : 10 ∉ line) {failed : Option ℕ} (hnext : next.on = some c)
    (hpast : Past m₀ s.leader { s.trail c with sent := (s.trail c).sent ++ [line ++ [10]] })
    (hph : Phase m₀ s.leader (Function.update s.trail c
      { s.trail c with sent := (s.trail c).sent ++ [line ++ [10]] }) next)
    (hs : s.sendLine c (line ++ [10]) failed next = some s') : Inv m₀ m₁ s' := by
  unfold State.sendLine at hs
  split at hs
  · obtain rfl := Option.some.inj hs
    refine h.onConn hon h.leader.queue (fun c' hc' => ?_) (fun lines hcar => ?_) hpast hph
    · rw [hnext] at hc'
      exact (Option.some.inj hc').symm
    · exact ⟨_, _, hcar.send hl, fun _ => rfl⟩
  · split_ifs at hs with hn
    obtain rfl := Option.some.inj hs
    refine h.onConn hon h.leader.queue nofun (fun lines hcar => ?_) (h.past c) trivial
    obtain ⟨tail, hcar'⟩ := hcar.sendPart hl hn
    exact ⟨lines, tail, hcar', nofun⟩

theorem Inv.connect (h : Inv m₀ m₁ s) : Inv m₀ m₁
    { s.setConn s.opened .fresh with opened := s.opened + 1, sender := .greeting s.opened } := by
  have hfresh := h.fresh s.opened le_rfl
  have hconn : Function.update s.conn s.opened .fresh = s.conn := by
    rw [← hfresh.1]
    exact Function.update_eq_self _ _
  have htrail : s.trail s.opened = Conn.fresh.trail := by rw [State.trail, hfresh.1]
  simp only [State.setConn, hconn]
  refine ⟨h.leader, fun c hc => h.fresh c (Nat.le_of_succ_le hc), fun c hc => ?_, fun c => ?_,
    h.past, ⟨congrArg Trail.sent htrail, congrArg Trail.cut htrail⟩, h.store, h.raft⟩
  · rw [Option.some.inj hc]
  · obtain ⟨lines, tail, hcar, -⟩ := h.carries c
    by_cases hc : c = s.opened
    · subst hc
      refine ⟨[], [], ?_, fun _ => rfl⟩
      rw [hfresh.1, hfresh.2]
      exact carries_fresh
    · exact ⟨lines, tail, hcar, fun hon => absurd (Option.some.inj hon).symm hc⟩

theorem on_sync (c : ℕ) (snap : List (Bytes × Bytes)) : (Sender.sync c snap).on = some c := by
  cases snap <;> rfl

theorem on_read (c : ℕ) (idx : List (Σ _ : Bytes, Entry)) (snap : List (Bytes × Bytes)) :
    (Sender.read c idx snap).on = some c := by
  cases idx
  · exact on_sync c snap
  · rfl

variable {l : Leader} {trail : ℕ → Trail} {es snap : List (Bytes × Bytes)}

theorem phase_sync (h : Works m₀ l (trail c) (sets snap) []) :
    Phase m₀ l trail (.sync c snap) := by
  cases snap with
  | nil => exact ⟨[], h⟩
  | cons kv snap => exact h

theorem phase_read {d : DiskStore} {idx : List (Σ _ : Bytes, Entry)} (hd : l.store.disk = some d)
    (hr : Reads d.file.bytes idx es) (h : Loads m₀ l (trail c) (snap ++ es)) :
    Phase m₀ l trail (.read c idx snap) := by
  cases idx with
  | nil =>
    rw [List.forall₂_nil_left_iff.1 hr, List.append_nil] at h
    exact phase_sync h.works
  | cons kv idx => exact ⟨d, es, hd, hr, h⟩

theorem Inv.setTrail (h : Inv m₀ m₁ s) (hon : s.sender.on = some c) {t : Trail}
    (ht : t.sent = (s.trail c).sent) (hq : link.streaming = false → link.queue = [])
    (hnext : next.on = some c)
    (hpast : Past m₀ s.leader t)
    (hph : Phase m₀ { s.leader with link := link } (Function.update s.trail c t) next) :
    Inv m₀ m₁ { s.setTrail c t with leader := { s.leader with link := link }, sender := next } := by
  refine h.onConn (x := { s.conn c with trail := t }) hon hq (fun c' hc' => ?_)
    (fun lines hcar => ⟨lines, [], hcar.retrail ht, fun _ => rfl⟩) hpast hph
  rw [hnext] at hc'
  exact (Option.some.inj hc').symm

theorem Inv.cut (h : Inv m₀ m₁ s) (hm : WireMap m₀) (hs : s.sender = .cutting c)
    (hp : s.leader.pending = []) (order : IterOrder) : Inv m₀ m₁ (s.cutSnapshot c order) := by
  have hph := h.phase
  rw [hs] at hph
  have hon : s.sender.on = some c := by
    rw [hs]
    rfl
  have hload := fun (es : List (Bytes × Bytes)) (hes : IsSnapshot s.leader.store es) =>
    loads_cut hph.1 h.leader hm hp hes
  unfold State.cutSnapshot
  rcases hd : s.leader.store.disk with _ | d
  · have hl := hload _ (isSnapshot_memory hd)
    refine h.setTrail hon rfl nofun (on_sync c _) (hl.works.past.relink s.leader.link) ?_
    refine phase_sync ?_
    rw [Function.update_self]
    exact hl.works
  · obtain ⟨es, hr, hes⟩ := snapshot_reads h.leader.sound hd order
    have hl := hload es hes
    refine h.setTrail hon rfl nofun rfl (hl.works.past.relink s.leader.link) ⟨d, es, hd, hr, ?_⟩
    rw [Function.update_self]
    exact hl

theorem Inv.skip (h : Inv m₀ m₁ s) (hon : s.sender.on = some c) {n : ℕ} (hnext : next.on = some c)
    (hph : Phase m₀ s.leader (Function.update s.trail c
      { s.trail c with unread := (s.trail c).unread + n }) next) :
    Inv m₀ m₁ { s.skip c n with sender := next } :=
  h.setTrail hon rfl h.leader.queue hnext ((h.past c).skip n) hph

theorem Inv.readEntry (h : Inv m₀ m₁ s) {kv : Σ _ : Bytes, Entry}
    {idx : List (Σ _ : Bytes, Entry)} {success : Bool}
    (hs : s.sender = .reading c (kv :: idx) snap)
    (hr : s.readEntry c kv idx snap success = some s') : Inv m₀ m₁ s' := by
  have hph := h.phase
  rw [hs] at hph
  obtain ⟨d, all, hd, hall, hload⟩ := hph
  have hon : s.sender.on = some c := by
    rw [hs]
    rfl
  obtain ⟨p, es, ⟨hk, -, hv⟩, hreads, rfl⟩ := List.forall₂_cons_left_iff.1 hall
  unfold State.readEntry at hr
  rw [hd] at hr
  cases success with
  | true =>
    have hread : d.readValue kv.2 = some p.2 := hv
    simp only [if_true, hread, Option.some.injEq] at hr
    subst hr
    refine h.stay hon h.leader.queue (on_read c _ _) (phase_read hd hreads ?_)
    rw [hk, List.append_assoc]
    exact hload
  | false =>
    simp only [Bool.false_eq_true, if_false, Option.some.injEq] at hr
    subst hr
    refine h.skip hon (on_read c _ _) (phase_read hd hreads ?_)
    rw [Function.update_self]
    refine hload.skip (fun q hq => ?_) nofun
    rcases List.mem_append.1 hq with hq | hq
    · exact List.mem_append_left _ hq
    · exact List.mem_append_right _ (List.mem_cons_of_mem _ hq)

theorem Inv.wake (h : Inv m₀ m₁ s) (hs : s.sender = .waiting c) : Inv m₀ m₁ (s.wake c) := by
  have hph := h.phase
  rw [hs] at hph
  obtain ⟨stream, hw⟩ := hph
  have hon : s.sender.on = some c := by
    rw [hs]
    rfl
  unfold State.wake
  simp only []
  split_ifs
  · exact h.leave h.leader.queue rfl
  · split
    · exact h.stay hon h.leader.queue rfl ⟨none, _, rfl, hw.ping⟩
    · rename_i line queue hq
      obtain ⟨r, rfl, hw⟩ := hw.pop h.leader hq
      refine h.stay hon (fun hf => ?_) rfl ⟨some r, _, replicate_eq r, hw⟩
      -- only a streaming link has a queue
      rw [h.leader.queue hf] at hq
      cases hq

theorem Inv.senderStep (h : Inv m₀ m₁ s) (hm : WireMap m₀) {a : SenderAction}
    (hs : s.senderStep a = some s') : Inv m₀ m₁ s' := by
  have hph := h.phase
  unfold State.senderStep at hs
  split at hs
  · -- connecting
    split_ifs at hs <;> obtain rfl := Option.some.inj hs
    · exact h.leave h.leader.queue rfl
    · exact h.connect
    · exact h.leave h.leader.queue rfl
  · -- the handshake
    rename_i c failed hsender
    rw [hsender] at hph
    have hsends : Sends { s.trail c with sent := (s.trail c).sent ++ [hello ++ [10]] } [] := by
      rw [hph.1]
      exact ⟨rfl, by simp⟩
    refine h.sendLine (by rw [hsender]; rfl) (by decide) rfl (past_of_sends hsends hph.2) ?_ hs
    simp only [Phase, Function.update_self]
    exact ⟨hsends, hph.2⟩
  · -- its acknowledgement
    rename_i c received hsender
    rw [hsender] at hph
    split_ifs at hs
    · split at hs
      · cases hs
      · obtain rfl := Option.some.inj hs
        split_ifs
        · exact h.stay (by rw [hsender]; rfl) h.leader.queue rfl hph
        · exact h.leave h.leader.queue rfl
    · obtain rfl := Option.some.inj hs
      exact h.leave h.leader.queue rfl
  · -- the cut
    rename_i c order hsender
    split_ifs at hs with hp
    obtain rfl := Option.some.inj hs
    exact h.cut hm hsender (not_not.1 hp) order
  · -- opening the file to read the snapshot from
    rename_i c idx opened hsender
    rw [hsender] at hph
    obtain ⟨d, es, hd, hr, hload⟩ := hph
    split_ifs at hs <;> obtain rfl := Option.some.inj hs
    · exact h.stay (by rw [hsender]; rfl) h.leader.queue (on_read c _ _) (phase_read hd hr hload)
    · refine h.skip (by rw [hsender]; rfl) (on_sync c []) (phase_sync ?_)
      rw [Function.update_self]
      have hnone : idx.length = 0 → [] = es := by
        intro hn
        rw [List.length_eq_zero_iff.1 hn] at hr
        exact (List.forall₂_nil_left_iff.1 hr).symm
      exact (hload.skip (fun _ hp => absurd hp List.not_mem_nil) hnone).works
  · rename_i hsender
    exact h.readEntry hsender hs
  · -- a line of the snapshot
    rename_i c kv snap failed hsender
    rw [hsender] at hph
    have hw : Works m₀ s.leader (s.trail c) (some (.set kv.1 kv.2) :: sets snap) [] := hph
    have hl : setLine kv.1 kv.2 = text (some (.set kv.1 kv.2)) ++ [10] :=
      replicate_eq (.set kv.1 kv.2)
    rw [hl] at hs
    refine h.sendLine (by rw [hsender]; rfl) (newline_text hw.wire) (on_sync c snap) hw.send.past
      (phase_sync ?_) hs
    rw [Function.update_self]
    exact hw.send
  · rename_i hsender
    obtain rfl := Option.some.inj hs
    exact h.wake hsender
  · -- a line of the stream
    rename_i c line failed hsender
    rw [hsender] at hph
    obtain ⟨it, stream, rfl, hw⟩ := hph
    refine h.sendLine (by rw [hsender]; rfl) (newline_text hw.wire) rfl hw.send.past ?_ hs
    simp only [Phase, Function.update_self]
    exact ⟨stream, hw.send⟩
  · obtain rfl := Option.some.inj hs
    refine h.leave (fun _ => rfl) ?_
    split_ifs <;> rfl
  · obtain rfl := Option.some.inj hs
    refine h.leave h.leader.queue ?_
    split_ifs <;> rfl
  · cases hs

end Sender

theorem inv_step (p : Pair) (hm : WireMap m₀) {a : Action} (h : Inv m₀ m₁ s)
    (hs : p.step s a = some s') : Inv m₀ m₁ s' := by
  cases a with
  | leader a =>
    obtain ⟨l, hl, rfl⟩ := Option.map_eq_some_iff.1 hs
    exact h.leaderStep hm p.leads hl
  | sender a => exact h.senderStep hm hs
  | follower a => exact h.followerStep p.follows hs

/-- Whatever the clients, the sender and the follower's handlers do, and in whatever order. -/
theorem inv_reaches (p : Pair) {leader follower : Storage} (hl : leader.Sound)
    (hm : WireMap leader.toMap) (hf : Plain m₁ follower)
    (hr : Reaches p.step (Pair.init leader follower) s) : Inv leader.toMap m₁ s :=
  hr.inv _ (fun _ _ _ h hs => inv_step p hm h hs) (inv_init hl hf)

end Replicator

end Redon

import Redon.Proofs.Sharding
import Redon.Proofs.Socket
import Redon.RouterNet

/-!
# Sharding under concurrency and failures

A line that a router forwards is executed at most once, and then on the shard of its key. In the
order in which the shards execute lines, all of them together do what one server does (`Inv`). A
client is answered with the reply of its line, or with an error of the router's that leaves open, or
rules out, that the line was executed (`Serves`).
-/

namespace Redon

open Lib

namespace RouterNet

open Router

variable {e : ExecEnv} {info : Bytes} {shards : List Bytes} {single : Node} {s s' : RouterNet}
  {done : List Done} {c i : ℕ} {a : Asked} {x y : Socket} {line reply : Bytes}
  {result : Option Bytes}

/-- The line goes to shard `i`, which has a proper address. -/
structure Forwards (shards : List Bytes) (line : Bytes) (i : ℕ) : Prop where
  routable : Routable ⟨line, [line ++ [10]]⟩
  shard : i = shardFor shards.length (lineTokens line).2.1
  address : ∃ addr, shards[i]? = some addr ∧ (splitHostPort addr).isSome

/-- What has come of a client's line, given the lines that were executed. -/
inductive Serves (shards : List Bytes) (done : List Done) (c : ℕ) : Asked → Prop
  | kept {line r : Bytes} : c ∉ done.map Done.asked → Serves shards done c ⟨line, none, some r⟩
  | waiting {line : Bytes} {i : ℕ} {x : Socket} {result : Option Bytes} :
      Forwards shards line i → c ∉ done.map Done.asked → x.Asks [] line →
      (∀ r ∈ result, r = forward shards i (some [])) →
      Serves shards done c ⟨line, some (i, x), result⟩
  | served {line reply : Bytes} {i : ℕ} {x : Socket} {result : Option Bytes} :
      Forwards shards line i → ⟨c, line, reply⟩ ∈ done → Relayed reply → x.Drained →
      x.client.sent = reply ++ [10] →
      (∀ r ∈ result, r = reply ∨ r = forward shards i (some [])) →
      Serves shards done c ⟨line, some (i, x), result⟩

/-- What one server would do with the lines that were executed. -/
def alone (e : ExecEnv) (info : Bytes) (single : Node) (done : List Done) : List Bytes × Node :=
  runOut (Node.serve e info) single (done.map Done.request)

structure Inv (e : ExecEnv) (info : Bytes) (shards : List Bytes) (single : Node)
    (s : RouterNet) : Prop where
  sharded : Sharded shards.length s.nodes (alone e info single s.done).2
  replies : (alone e info single s.done).1 = s.done.map Done.reply
  once : (s.done.map Done.asked).Nodup
  asked : ∀ c a, s.asked[c]? = some a → Serves shards s.done c a
  known : ∀ d ∈ s.done, d.asked < s.asked.length

section Ask

/-- A line that a router forwards has a key and is none that it answers itself. -/
theorem routable_of_forward (hn : 10 ∉ line) (hlen : line.length ≤ kMaxLineLength)
    (hinfo : (verbAndKey line).1 ≠ ascii "INFO") {n : ℕ} (hroute : routeLine n line = .forward i) :
    Routable ⟨line, [line ++ [10]]⟩ ∧ i = shardFor n (lineTokens line).2.1 := by
  simp only [routeLine] at hroute
  split_ifs at hroute with hblank hquit hping hkey
  rw [not_or] at hquit
  refine ⟨⟨hn, hlen, hkey, ?_, by simp, by simp⟩, ?_⟩
  · simp [hinfo, hquit.1, hquit.2, hping]
  · rw [← (Route.forward.inj hroute), verbAndKey_eq]

theorem serves_ask (hn : 10 ∉ line) (hlen : line.length ≤ kMaxLineLength) (sent : Option ℕ)
    (hc : c ∉ done.map Done.asked) : Serves shards done c (ask info shards line sent) := by
  unfold ask
  split_ifs with hinfo
  · exact .kept hc
  split
  · exact .kept hc
  rename_i i hroute
  obtain ⟨hr, hi⟩ := routable_of_forward hn hlen hinfo hroute
  simp only []
  split
  · rename_i hp k haddr
    obtain ⟨addr, hget, hsplit⟩ := Option.bind_eq_some_iff.1 haddr
    refine .waiting ⟨hr, hi, addr, hget, Option.isSome_iff_exists.2 ⟨_, hsplit⟩⟩ hc
      (Socket.asks_dialled line k) fun r hres => ?_
    split_ifs at hres
    · cases hres
    · exact (Option.some.inj hres).symm
  · exact .kept hc

end Ask

section Step

theorem Forwards.forward_reply (h : Forwards shards line i) (hr : Relayed reply) :
    forward shards i (some (reply ++ [10])) = reply := by
  obtain ⟨addr, hget, haddr⟩ := h.address
  obtain ⟨hp, hhp⟩ := Option.isSome_iff_exists.1 haddr
  simp only [forward, hget, hhp, recvLine_reply hr]

/-- The lines executed for other clients do not matter. -/
theorem Serves.append (h : Serves shards done c a) {d : Done} (hd : d.asked ≠ c) :
    Serves shards (done ++ [d]) c a := by
  have hout : c ∉ done.map Done.asked → c ∉ (done ++ [d]).map Done.asked := by
    intro hc
    simpa [List.mem_append] using ⟨by simpa using hc, fun he => hd he.symm⟩
  cases h with
  | kept hc => exact .kept (hout hc)
  | waiting hf hc hasks hres => exact .waiting hf (hout hc) hasks hres
  | served hf hmem hrel hdr hsent hres =>
    exact .served hf (List.mem_append_left _ hmem) hrel hdr hsent hres

theorem onSocket_eq_some {f : Asked → ℕ → Socket → Option RouterNet} :
    s.onSocket c f = some s' ↔ ∃ line i x result,
      s.asked[c]? = some ⟨line, some (i, x), result⟩
        ∧ f ⟨line, some (i, x), result⟩ i x = some s' := by
  unfold onSocket
  rcases hget : s.asked[c]? with _ | ⟨line, _ | ⟨i, x⟩, result⟩ <;> simp

/-- What becomes of one client's line leaves the others. -/
theorem Inv.set (h : Inv e info shards single s) (ha : Serves shards s.done c a) :
    Inv e info shards single { s with asked := s.asked.set c a } := by
  refine ⟨h.sharded, h.replies, h.once, fun c' a' hget => ?_, fun d hd => ?_⟩
  · simp only [List.getElem?_set] at hget
    split_ifs at hget with hc
    · obtain rfl := Option.some.inj hget
      exact hc ▸ ha
    · exact h.asked c' a' hget
  · simpa using h.known d hd

theorem Inv.ask (h : Inv e info shards single s) (ha : Serves shards s.done s.asked.length a) :
    Inv e info shards single { s with asked := s.asked ++ [a] } := by
  refine ⟨h.sharded, h.replies, h.once, fun c' a' hget => ?_, fun d hd => ?_⟩
  · rcases lt_or_ge c' s.asked.length with hlt | hge
    · rw [List.getElem?_append_left hlt] at hget
      exact h.asked c' a' hget
    · rw [List.getElem?_append_right hge, List.getElem?_singleton] at hget
      split_ifs at hget with hc
      obtain rfl := Option.some.inj hget
      rwa [show c' = s.asked.length by omega]
  · have hlt := h.known d hd
    rw [List.length_append]
    omega

theorem alone_append (d : Done) : alone e info single (done ++ [d])
    = ((alone e info single done).1 ++ [((alone e info single done).2.serve e info d.request).1],
      ((alone e info single done).2.serve e info d.request).2) := by
  rw [alone, List.map_append]
  exact runOut_concat _ _ _ _

theorem Inv.execute (h : Inv e info shards single s) (hs : shards ≠ [])
    (he : e.nodeIsFollower = false)
    (hget : s.asked[c]? = some ⟨line, some (i, x), result⟩) {l : Bytes} {client : Client}
    (hline : x.nextLine = some (l, client)) :
    Inv e info shards single { s.setSocket c ⟨line, some (i, x), result⟩ i
        { x with client := ((s.nodes i).handleLine e info client l).2 } with
      nodes := Function.update s.nodes i ((s.nodes i).handleLine e info client l).1
      done := s.done
        ++ [⟨c, l, ((s.nodes i).answerLine e info client.isReplicaLink l).reply⟩] } := by
  cases h.asked c _ hget with
  | served _ _ _ hdrained _ _ =>
    rw [hdrained.nextLine] at hline
    cases hline
  | waiting hf hc hasks hres =>
    obtain ⟨rfl, hwire, rfl⟩ := hasks.nextLine hf.routable.newline hline
    obtain ⟨hreply, hrel, hsharded⟩ := h.sharded.serve info (mt List.length_eq_zero_iff.1 hs) he
      hf.routable
    rw [← hf.shard] at hreply hsharded
    rw [← hreply] at hrel
    refine ⟨?_, ?_, ?_, fun c' a' hget' => ?_, fun d hd => ?_⟩
    · rw [alone_append]
      exact hsharded
    · rw [alone_append, h.replies, List.map_append]
      exact congrArg (fun r => s.done.map Done.reply ++ [r]) hreply.symm
    · rw [List.map_append, List.nodup_append_comm]
      exact List.nodup_cons.2 ⟨hc, h.once⟩
    · simp only [setSocket, List.getElem?_set] at hget'
      split_ifs at hget' with heq
      · obtain rfl := Option.some.inj hget'
        subst heq
        exact .served hf (List.mem_append_right _ (List.mem_singleton.2 rfl)) hrel ⟨rfl, hwire⟩ rfl
          fun r hr => .inr (hres r hr)
      · exact (h.asked c' a' hget').append heq
    · simp only [setSocket, List.length_set]
      rcases List.mem_append.1 hd with hd | hd
      · exact h.known d hd
      · obtain rfl := List.mem_singleton.1 hd
        exact (List.getElem?_eq_some_iff.1 hget).1

theorem Inv.step (h : Inv e info shards single s) (hs : shards ≠ [])
    (he : e.nodeIsFollower = false) {b : Action}
    (hb : guarded fits (step e info shards) s b = some s') : Inv e info shards single s' := by
  obtain ⟨hfits, hb⟩ := guarded_eq_some.1 hb
  cases b with
  | ask line sent =>
    simp only [RouterNet.step] at hb
    split_ifs at hb with hn
    obtain rfl := Option.some.inj hb
    refine h.ask (serves_ask hn (of_decide_eq_true hfits) sent ?_)
    intro hmem
    obtain ⟨d, hd, he⟩ := List.mem_map.1 hmem
    exact absurd (h.known d hd) (by omega)
  | receive c k =>
    obtain ⟨line, i, x, result, hget, hb⟩ := onSocket_eq_some.1 hb
    obtain ⟨y, hy, rfl⟩ := Option.map_eq_some_iff.1 hb
    refine h.set ?_
    cases h.asked c _ hget with
    | waiting hf hc hasks hres =>
      rcases hasks.receive hy with ⟨hasks, -⟩ | ⟨-, -, hlong⟩
      · exact .waiting hf hc hasks hres
      · exact absurd hf.routable.length (not_le.2 hlong)
    | served _ _ _ hdrained _ _ =>
      rw [hdrained.receive] at hy
      cases hy
  | execute c =>
    obtain ⟨line, i, x, result, hget, hb⟩ := onSocket_eq_some.1 hb
    obtain ⟨⟨l, client⟩, hline, rfl⟩ := Option.map_eq_some_iff.1 hb
    exact h.execute hs he hget hline
  | hangup c =>
    obtain ⟨line, i, x, result, hget, hb⟩ := onSocket_eq_some.1 hb
    obtain rfl := Option.some.inj hb
    refine h.set ?_
    cases h.asked c _ hget with
    | waiting hf hc hasks hres => exact .waiting hf hc hasks.hangup hres
    | served hf hmem hrel hdrained hsent hres =>
      exact .served hf hmem hrel hdrained.hangup hsent hres
  | takeReply c =>
    obtain ⟨line, i, x, result, hget, hb⟩ := onSocket_eq_some.1 hb
    split_ifs at hb with hready
    obtain rfl := Option.some.inj hb
    refine h.set ?_
    cases h.asked c _ hget with
    | waiting hf hc hasks hres =>
      rw [hasks.sent] at hready
      exact absurd (.inr rfl) hready
    | served hf hmem hrel hdrained hsent hres =>
      refine .served hf hmem hrel hdrained hsent fun r hr => .inl ?_
      rw [← Option.some.inj hr, hsent, hf.forward_reply hrel]
  | giveUp c =>
    obtain ⟨line, i, x, result, hget, hb⟩ := onSocket_eq_some.1 hb
    split_ifs at hb
    obtain rfl := Option.some.inj hb
    refine h.set ?_
    cases h.asked c _ hget with
    | waiting hf hc hasks hres =>
      exact .waiting hf hc hasks fun r hr => (Option.some.inj hr).symm
    | served hf hmem hrel hdrained hsent hres =>
      exact .served hf hmem hrel hdrained hsent fun r hr => .inr (Option.some.inj hr).symm

end Step

section Run

/-- What stays as a run goes on: the lines executed, and for each client's line whether it was
kept from the shards. -/
structure Later (s s' : RouterNet) : Prop where
  done : s.done <+: s'.done
  kept : ∀ (c : ℕ) (a : Asked), s.asked[c]? = some a → a.dialled = none → s'.asked[c]? = some a

theorem Later.set (hget : s.asked[c]? = some ⟨line, some (i, x), result⟩) (a : Asked)
    (hasked : s'.asked = s.asked.set c a) (hdone : s.done <+: s'.done) : Later s s' := by
  refine ⟨hdone, fun c' a' hget' hnone => ?_⟩
  rw [hasked, List.getElem?_set, if_neg]
  · exact hget'
  · rintro rfl
    obtain rfl := Option.some.inj (hget.symm.trans hget')
    cases hnone

theorem later_step {b : Action} (hb : step e info shards s b = some s') : Later s s' := by
  cases b with
  | ask line sent =>
    simp only [step] at hb
    split_ifs at hb
    obtain rfl := Option.some.inj hb
    refine ⟨List.prefix_rfl, fun c a hget _ => ?_⟩
    rw [List.getElem?_append_left (List.getElem?_eq_some_iff.1 hget).1]
    exact hget
  | receive c k =>
    obtain ⟨line, i, x, result, hget, hb⟩ := onSocket_eq_some.1 hb
    obtain ⟨y, -, rfl⟩ := Option.map_eq_some_iff.1 hb
    exact .set hget _ rfl List.prefix_rfl
  | execute c =>
    obtain ⟨line, i, x, result, hget, hb⟩ := onSocket_eq_some.1 hb
    obtain ⟨⟨l, client⟩, -, rfl⟩ := Option.map_eq_some_iff.1 hb
    exact .set hget _ rfl (List.prefix_append _ _)
  | hangup c =>
    obtain ⟨line, i, x, result, hget, hb⟩ := onSocket_eq_some.1 hb
    obtain rfl := Option.some.inj hb
    exact .set hget _ rfl List.prefix_rfl
  | takeReply c =>
    obtain ⟨line, i, x, result, hget, hb⟩ := onSocket_eq_some.1 hb
    split_ifs at hb
    obtain rfl := Option.some.inj hb
    exact .set hget _ rfl List.prefix_rfl
  | giveUp c =>
    obtain ⟨line, i, x, result, hget, hb⟩ := onSocket_eq_some.1 hb
    split_ifs at hb
    obtain rfl := Option.some.inj hb
    exact .set hget _ rfl List.prefix_rfl

theorem later_reaches (hr : Reaches (guarded fits (step e info shards)) s s') : Later s s' := by
  refine hr.inv (Later s) (fun s₁ b s₂ h hb => ?_) ⟨List.prefix_rfl, fun _ _ hget _ => hget⟩
  have h' := later_step (guarded_eq_some.1 hb).2
  exact ⟨h.done.trans h'.done, fun c a hget hnone => h'.kept c a (h.kept c a hget hnone) hnone⟩

theorem Inv.line_of_done (h : Inv e info shards single s) {d : Done} (hd : d ∈ s.done) :
    ∃ a, s.asked[d.asked]? = some a ∧ a.line = d.line := by
  obtain ⟨a, hget⟩ : ∃ a, s.asked[d.asked]? = some a :=
    ⟨_, List.getElem?_eq_getElem (h.known d hd)⟩
  have hid : d.asked ∈ s.done.map Done.asked := List.mem_map_of_mem hd
  refine ⟨a, hget, ?_⟩
  cases h.asked _ _ hget with
  | kept hc => exact absurd hid hc
  | waiting _ hc _ _ => exact absurd hid hc
  | served _ hmem _ _ _ _ =>
    -- no other line was executed under this number
    exact congrArg Done.line (List.inj_on_of_nodup_map h.once hmem hd rfl)

end Run

variable {nodes : ℕ → Node}

theorem inv_reaches (hs : shards ≠ []) (he : e.nodeIsFollower = false)
    (hnodes : ∀ i < shards.length, Standalone ∅ (nodes i)) (hsingle : Standalone ∅ single)
    (hr : Reaches (guarded fits (step e info shards)) (init nodes) s) :
    Inv e info shards single s :=
  hr.inv _ (fun _ _ _ h hb => h.step hs he hb)
    ⟨sharded_empty hnodes hsingle, rfl, List.nodup_nil, nofun, nofun⟩

/-- Whatever the routers' workers and the shards do in whatever order, and wherever connections
fail: the lines that were executed are each a client's, executed once, and get the replies that one
server gives to them in this order; the shards hold what that server holds, each the keys of its
own. The order is one of real time: lines that come later are executed behind. A client is answered
with the reply of its line; or its line was sent and the answer is that the request failed; or its
line is never executed. -/
theorem forwards_linearizable (hs : shards ≠ []) (he : e.nodeIsFollower = false)
    (hnodes : ∀ i < shards.length, Standalone ∅ (nodes i)) (hsingle : Standalone ∅ single)
    (hr : Reaches (guarded fits (step e info shards)) (init nodes) s)
    (hr' : Reaches (guarded fits (step e info shards)) s s') :
    (s.done.map Done.asked).Nodup
    ∧ (∀ d ∈ s.done, ∃ a, s.asked[d.asked]? = some a ∧ a.line = d.line)
    ∧ (alone e info single s.done).1 = s.done.map Done.reply
    ∧ (∀ i < shards.length, ∀ k v, (s.nodes i).store.toMap.lookup k = some v
      ↔ shardFor shards.length k = i
        ∧ (alone e info single s.done).2.store.toMap.lookup k = some v)
    ∧ (∃ later, s'.done = s.done ++ later ∧ ∀ d ∈ s'.done, s.asked.length ≤ d.asked → d ∈ later)
    ∧ ∀ c a r, s.asked[c]? = some a → a.result = some r →
      ⟨c, a.line, r⟩ ∈ s.done
      ∨ (∃ i x, a.dialled = some (i, x) ∧ r = forward shards i (some []))
      ∨ (a.dialled = none ∧ c ∉ s'.done.map Done.asked) := by
  have h := inv_reaches hs he hnodes hsingle hr
  have h' := inv_reaches hs he hnodes hsingle (hr.trans hr')
  have hlater := later_reaches hr'
  refine ⟨h.once, fun d hd => h.line_of_done hd, h.replies, fun i hi k v => ?_, ?_,
    fun c a r hget hres => ?_⟩
  · obtain ⟨m, -, hone, hshare⟩ := h.sharded
    obtain ⟨l, hl, hnode⟩ := hshare i hi
    rw [hnode.store.toMap, hone.store.toMap, hl k]
    split_ifs with hk <;> simp [hk]
  · obtain ⟨later, hdone⟩ := hlater.done
    refine ⟨later, hdone.symm, fun d hd hnew => ?_⟩
    rw [← hdone] at hd
    exact (List.mem_append.1 hd).resolve_left fun hold => absurd (h.known d hold) (by omega)
  · cases h.asked c a hget with
    | kept hc =>
      refine .inr (.inr ⟨rfl, ?_⟩)
      cases h'.asked c _ (hlater.kept c _ hget rfl) with
      | kept hc' => exact hc'
    | @waiting _ i x _ hf hc hasks hfail => exact .inr (.inl ⟨i, x, rfl, hfail r hres⟩)
    | @served _ _ i x _ hf hmem hrel hdrained hsent hout =>
      rcases hout r hres with rfl | hfail
      · exact .inl hmem
      · exact .inr (.inl ⟨i, x, rfl, hfail⟩)

/-- A line is executed after its client was answered that the request failed, and a line to a shard
that cannot be reached is not. -/
theorem forwards_linearizable_late : ∃ s,
    Reaches (guarded fits (step standaloneEnv [] [ascii "h:1", ascii "h:2"]))
      (init fun _ => ⟨.empty 0, none⟩) s
    ∧ s.asked.map Asked.result = [some (ascii "ERR ROUTER: shard h:1 request failed"),
      some (ascii "ERR ROUTER: shard h:2 is unreachable"), some (ascii "1")]
    ∧ s.done.map Done.asked = [0, 2]
    ∧ (alone standaloneEnv [] ⟨.empty 0, none⟩ s.done).1 = [ascii "OK", ascii "1"] := by
  obtain ⟨s, hr, hres, hdone, hreply⟩ := exists_reaches
    (guarded fits (step standaloneEnv [] [ascii "h:1", ascii "h:2"]))
    (init fun _ => ⟨.empty 0, none⟩)
    [.ask (ascii "SET a 1") (some 8), .receive 0 5, .giveUp 0, .ask (ascii "SET b 2") none,
      .receive 0 3, .execute 0, .ask (ascii "GET a") (some 6), .receive 2 6, .execute 2,
      .takeReply 2]
    (fun s => s.asked.map Asked.result = [some (ascii "ERR ROUTER: shard h:1 request failed"),
        some (ascii "ERR ROUTER: shard h:2 is unreachable"), some (ascii "1")]
      ∧ s.done.map Done.asked = [0, 2] ∧ s.done.map Done.reply = [ascii "OK", ascii "1"])
    (by decide +kernel)
  have hempty : Standalone ∅ ⟨.empty 0, none⟩ := ⟨Storage.plain_empty, rfl⟩
  have h := forwards_linearizable (by decide) rfl (fun _ _ => hempty) hempty hr .refl
  exact ⟨s, hr, hres, hdone, h.2.2.1.trans hreply⟩

end RouterNet

end Redon

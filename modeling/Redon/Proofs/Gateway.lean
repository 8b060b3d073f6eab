import Redon.Lib.Json
import Redon.Proofs.Connection
import Redon.Web

/-!
# What goes through the gateway

Towards the server: a request is forwarded as one line and its newline, so the server executes at
most that line, however much of it arrives and in whatever chunks (`handled_line`). Towards the
browser: an escaped text is what the grammar of JSON strings derives for it (`chars_jsonEscape`), so
the body of a response is read as one object with the reply as it was (`parse_replyBody`).
-/

namespace Redon

open Lib Lib.LineReader

namespace WebGateway

section Escape

/-- What the escape of a byte is read as. -/
def unitOf (c : UInt8) : Json.CodeUnit :=
  if c < 0x20 ∧ c ≠ 10 ∧ c ≠ 13 ∧ c ≠ 9 then .escaped c.toNat else .byte c

theorem hex4_control : ∀ n : Fin 32, Json.hex4 48 48
    (hexDigit ((UInt8.ofNat n >>> 4) &&& 0xF)) (hexDigit (UInt8.ofNat n &&& 0xF)) = some n.val := by
  decide

theorem hex4_escape {c : UInt8} (hc : c < 0x20) :
    Json.hex4 48 48 (hexDigit ((c >>> 4) &&& 0xF)) (hexDigit (c &&& 0xF)) = some c.toNat := by
  have h := hex4_control ⟨c.toNat, hc⟩
  rwa [UInt8.ofNat_toNat] at h

theorem chars_escapeByte (c : UInt8) {t : Bytes} {us : List Json.CodeUnit}
    (h : Json.Chars t us) : Json.Chars (escapeByte c ++ t) (unitOf c :: us) := by
  by_cases hquote : c = 34
  · subst hquote
    exact .escape (c := 34) rfl h
  by_cases hback : c = 92
  · subst hback
    exact .escape (c := 92) rfl h
  by_cases hnl : c = 10
  · subst hnl
    exact .escape (c := 110) rfl h
  by_cases hcr : c = 13
  · subst hcr
    exact .escape (c := 114) rfl h
  by_cases htab : c = 9
  · subst htab
    exact .escape (c := 116) rfl h
  unfold escapeByte unitOf
  rw [if_neg hquote, if_neg hback, if_neg hnl, if_neg hcr, if_neg htab]
  by_cases hctl : c < 0x20
  · rw [if_pos hctl, if_pos ⟨hctl, hnl, hcr, htab⟩]
    exact .unicode (hex4_escape hctl) h
  · rw [if_neg hctl, if_neg fun hc => hctl hc.1]
    exact .plain ⟨UInt8.not_lt.1 hctl, hquote, hback⟩ h

theorem chars_jsonEscape (s : Bytes) : Json.Chars (jsonEscape s) (s.map unitOf) := by
  induction s with
  | nil => exact .nil
  | cons c s ih =>
    rw [jsonEscape, List.flatMap_cons]
    exact chars_escapeByte c ih

theorem bytes_units (s : Bytes) : Json.bytes (s.map unitOf) = s := by
  have hsingle : ∀ c, (unitOf c).single = c := by
    intro c
    unfold unitOf
    split_ifs
    · exact UInt8.ofNat_toNat
    · rfl
  rw [Json.bytes_ascii, List.map_map]
  · exact List.map_id'' hsingle s
  · intro n hn
    obtain ⟨c, -, hc⟩ := List.mem_map.1 hn
    unfold unitOf at hc
    split_ifs at hc with hctl
    obtain rfl := Json.CodeUnit.escaped.inj hc
    exact Nat.lt_trans hctl.1 (by decide)

/-- The text of an object with a flag and a text, as the gateway writes it. -/
theorem parse_answer {name : Bytes} (hname : ∀ c ∈ name, Json.Plain c) (b : Bool) (s : Bytes) :
    Json.parse (123 :: 34 :: (ascii "ok" ++ 34 :: 58 :: (ascii (if b then "true" else "false")
      ++ 44 :: 34 :: (name ++ 34 :: 58 :: 34 :: (jsonEscape s ++ 34 :: [125])))))
      = some (.object [(ascii "ok", .bool b), (name, .string s)]) := by
  refine Json.parse_of_readValue ?_
  generalize hfuel : 2 * List.length _ = fuel
  obtain ⟨n, rfl⟩ : ∃ n, fuel = n + 4 := ⟨fuel - 4, by simp at hfuel; omega⟩
  have hstring := Json.readValue_string (chars_jsonEscape s) n [125]
  have hlast := Json.readMembers_last (Json.chars_plain hname) hstring
  have hbool := Json.readValue_bool b (n + 1)
    (44 :: 34 :: (name ++ 34 :: 58 :: 34 :: (jsonEscape s ++ 34 :: [125])))
  have hok : ∀ c ∈ ascii "ok", Json.Plain c := by simp [ascii, Json.Plain]
  have hcons := Json.readMembers_cons (Json.chars_plain hok) hbool
  rw [hlast, Option.map_some, Json.bytes_plain, Json.bytes_plain, bytes_units] at hcons
  exact Json.readValue_object hcons

theorem parse_replyBody (reply : Bytes) : Json.parse (replyBody reply)
    = some (.object [(ascii "ok", .bool true), (ascii "reply", .string reply)]) := by
  have hname : ∀ c ∈ ascii "reply", Json.Plain c := by simp [ascii, Json.Plain]
  rw [← parse_answer hname true reply]
  exact congrArg Json.parse (by simp [replyBody, ascii])

theorem parse_errorBody (err : Bytes) : Json.parse (errorBody err)
    = some (.object [(ascii "ok", .bool false), (ascii "error", .string err)]) := by
  have hname : ∀ c ∈ ascii "error", Json.Plain c := by simp [ascii, Json.Plain]
  rw [← parse_answer hname false err]
  exact congrArg Json.parse (by simp [errorBody, ascii])

end Escape

section Line

variable {g : WebGateway} {k : Link} {method path body line : Bytes}

theorem mem_firstLine {c : UInt8} (h : c ∈ firstLine body) : c ≠ 13 ∧ c ≠ 10 := by
  have hout : c ∈ body.takeWhile fun c => !(c == 13 || c == 10) :=
    (List.dropWhile_sublist _).subset ((List.rdropWhile_prefix isPad _).subset h)
  simpa using List.mem_takeWhile_imp hout

theorem newline_firstLine (body : Bytes) : 10 ∉ firstLine body := fun h => (mem_firstLine h).2 rfl

theorem route_cmd (g : WebGateway) (k : Link) (body : Bytes) :
    g.route k (ascii "POST") (ascii "/cmd") body = g.routeCmd k body := rfl

theorem routeCmd_blank (h : firstLine body = []) :
    (g.routeCmd k body).forwarded = none ∧ (g.routeCmd k body).sent = [] := by
  rw [routeCmd, h]
  exact ⟨rfl, rfl⟩

theorem routeCmd_line (h : firstLine body ≠ []) :
    (g.routeCmd k body).forwarded = some (firstLine body)
    ∧ (g.routeCmd k body).sent = (forwardToRedon k (firstLine body)).2 := by
  rw [routeCmd, List.isEmpty_eq_false_iff.2 h]
  rcases forwardToRedon k (firstLine body) with ⟨_ | reply, sent⟩ <;> exact ⟨rfl, rfl⟩

/-- What a request comes to: nothing goes to the server, or the first line of a `POST` to `/cmd`. -/
theorem route_cases (g : WebGateway) (k : Link) (method path body : Bytes) :
    ((g.route k method path body).forwarded = none ∧ (g.route k method path body).sent = []
      ∧ ¬ (method = ascii "POST" ∧ path = ascii "/cmd" ∧ firstLine body ≠ []))
    ∨ (method = ascii "POST" ∧ path = ascii "/cmd" ∧ firstLine body ≠ []
      ∧ (g.route k method path body).forwarded = some (firstLine body)
      ∧ (g.route k method path body).sent = (forwardToRedon k (firstLine body)).2) := by
  by_cases hcmd : method = ascii "POST" ∧ path = ascii "/cmd"
  · obtain ⟨rfl, rfl⟩ := hcmd
    rw [route_cmd]
    by_cases hline : firstLine body = []
    · obtain ⟨hforwarded, hsent⟩ : (g.routeCmd k body).forwarded = none ∧ _ :=
        routeCmd_blank hline
      exact .inl ⟨hforwarded, hsent, fun h => h.2.2 hline⟩
    · exact .inr ⟨rfl, rfl, hline, routeCmd_line hline⟩
  · left
    rw [route, if_neg hcmd]
    refine ⟨?_, ?_, fun h => hcmd ⟨h.1, h.2.1⟩⟩
    · split_ifs <;> rfl
    · split_ifs <;> rfl

/-- What is sent for a line is all of the line and its newline, or less. -/
theorem sent_line (k : Link) (line : Bytes) : (forwardToRedon k line).2 <+: line ++ [10] := by
  unfold forwardToRedon
  split_ifs
  · exact List.nil_prefix
  · exact List.take_prefix k.takes _

theorem handleAll_handled (shards : Option (List Bytes)) (world : ℕ → World) :
    ∀ (lines : List Bytes) (c : Handler), ∃ ls, ls <+: lines
      ∧ ((Handler.service shards world).handleAll c lines).handled.map Handled.line
        = c.handled.map Handled.line ++ ls
  | [], c => ⟨[], List.prefix_rfl, (List.append_nil _).symm⟩
  | line :: lines, c => by
    rcases hc : (Handler.service shards world).closed c with _ | _
    · obtain ⟨ls, hls, h⟩ := handleAll_handled shards world lines
        (c.handleLine shards world line)
      refine ⟨line :: ls, (List.prefix_cons_inj line).2 hls, ?_⟩
      rw [LineService.handleAll_cons hc]
      refine h.trans ?_
      simp [Handler.handleLine]
    · rw [LineService.handleAll_closed hc]
      exact ⟨[], List.nil_prefix, (List.append_nil _).symm⟩

/-- A connection's thread executes lines of its stream, from the first on. -/
theorem handled_first (shards : Option (List Bytes)) (world : ℕ → World) (chunks : List Bytes) :
    (Handler.handleClient shards world chunks).handled.map Handled.line
      <+: (cut 10 chunks.flatten).1 := by
  have hcheck : ∀ (c : Handler) (tooLong : Bool),
      ((Handler.service shards world).check c tooLong).handled = c.handled := by
    intro c tooLong
    unfold LineService.check
    split_ifs <;> rfl
  obtain ⟨ls, hls, h⟩ := handleAll_handled shards world
    (feed 10 kMaxLineLength [] chunks).1 Handler.accepted
  rw [Handler.handleClient, (LineService.receiveAll_feed _ 10 kMaxLineLength chunks _ []).1, hcheck,
    h]
  exact hls.trans (feed_first chunks [])

theorem cut_front {pre : Bytes} (hline : 10 ∉ line) (h : pre <+: line ++ [10]) :
    (cut 10 pre).1 <+: [line] := by
  rcases List.prefix_concat_iff.1 h with rfl | hpre
  · rw [cut_line hline]
    exact List.prefix_rfl
  · rw [cut_of_notMem fun hmem => hline (hpre.subset hmem)]
    exact List.nil_prefix

/-- Of a line that is sent, the server executes that line or nothing. -/
theorem handled_line (shards : Option (List Bytes)) (world : ℕ → World) {chunks : List Bytes}
    (hline : 10 ∉ line) (h : chunks.flatten <+: line ++ [10]) :
    (Handler.handleClient shards world chunks).handled.map Handled.line <+: [line] :=
  (handled_first shards world chunks).trans (cut_front hline h)

theorem forwardToRedon_all (hk : k.connected = true) (hlen : line.length < k.takes) :
    forwardToRedon k line = (recvLine k.answered, line ++ [10]) := by
  have hlen' : (line ++ ascii "\n").length ≤ k.takes := by
    simp only [List.length_append]
    exact hlen
  simp only [forwardToRedon, hk, Link.sendAll, List.take_of_length_le hlen', hlen']
  rfl

theorem routeCmd_response (h : firstLine body ≠ []) {reply : Bytes}
    (hreply : (forwardToRedon k (firstLine body)).1 = some reply) : (g.routeCmd k body).response
      = httpResponse (ascii "200 OK") (ascii "application/json") (replyBody reply) := by
  rw [routeCmd, List.isEmpty_eq_false_iff.2 h]
  rcases hf : forwardToRedon k (firstLine body) with ⟨r, sent⟩
  rw [hf] at hreply
  obtain rfl : r = some reply := hreply
  rfl

end Line

/-- For a body of a `POST` to `/cmd` the server is sent its first line and a newline, or a beginning
of that, and executes that line or nothing, in whatever chunks it arrives. For every reply the body
of the response is one JSON object with the reply in it; its escaped text is one of the grammar of
strings, so no quote, backslash or control byte stands in it but as part of an escape. -/
theorem no_injection (g : WebGateway) (k : Link) (body : Bytes) :
    let r := g.route k (ascii "POST") (ascii "/cmd") body
    (10 ∉ firstLine body ∧ r.sent <+: firstLine body ++ [10]
      ∧ (r.sent ≠ [] → r.forwarded = some (firstLine body))
      ∧ (firstLine body ≠ [] → k.connected = true → (firstLine body).length < k.takes →
        r.sent = firstLine body ++ [10])
      ∧ ∀ (shards : Option (List Bytes)) (world : ℕ → World) (chunks : List Bytes),
        chunks.flatten <+: r.sent →
        (Handler.handleClient shards world chunks).handled.map Handled.line <+: [firstLine body])
    ∧ ∀ reply : Bytes,
      (∃ us, Json.Chars (jsonEscape reply) us ∧ Json.bytes us = reply)
      ∧ Json.parse (replyBody reply)
        = some (.object [(ascii "ok", .bool true), (ascii "reply", .string reply)])
      ∧ Json.parse (errorBody reply)
        = some (.object [(ascii "ok", .bool false), (ascii "error", .string reply)])
      ∧ (firstLine body ≠ [] → (forwardToRedon k (firstLine body)).1 = some reply →
        r.response
          = httpResponse (ascii "200 OK") (ascii "application/json") (replyBody reply)) := by
  intro r
  have hline := newline_firstLine body
  have hsent : r.sent <+: firstLine body ++ [10] := by
    rcases route_cases g k (ascii "POST") (ascii "/cmd") body with ⟨-, h, -⟩ | ⟨-, -, -, -, h⟩ <;>
      rw [h]
    · exact List.nil_prefix
    · exact sent_line k _
  refine ⟨⟨hline, hsent, fun hne => ?_, fun hne hk hlen => ?_, fun shards world chunks h => ?_⟩,
    fun reply => ⟨⟨_, chars_jsonEscape reply, bytes_units reply⟩, parse_replyBody reply,
      parse_errorBody reply, fun hne hreply => routeCmd_response hne hreply⟩⟩
  · rcases route_cases g k (ascii "POST") (ascii "/cmd") body with ⟨-, h, -⟩ | ⟨-, -, -, h, -⟩
    · exact absurd h hne
    · exact h
  · have h : r.sent = _ := (routeCmd_line hne).2
    rw [h, forwardToRedon_all hk hlen]
  · exact handled_line shards world hline (h.trans hsent)

/-- A second command behind the first line is not sent. -/
theorem no_injection_two :
    (WebGateway.route ⟨ascii "127.0.0.1", 6380, []⟩ ⟨true, 4096, ascii "OK\n"⟩ (ascii "POST")
      (ascii "/cmd") (ascii "SET a 1\nDEL b")).sent = ascii "SET a 1\n" :=
  (no_injection ⟨ascii "127.0.0.1", 6380, []⟩ ⟨true, 4096, ascii "OK\n"⟩
    (ascii "SET a 1\nDEL b")).1.2.2.2.1 (by decide) rfl (by decide)

end WebGateway

end Redon

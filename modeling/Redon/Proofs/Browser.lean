import Redon.Proofs.Http

/-!
# A command from a browser

The gateway reads a request back from its text, in whatever chunks it comes, and does not look at
what stands behind it (`handleConnection_request`). So a command that is posted is a line that the
server receives on a connection of its own, and the browser gets the reply in a JSON object.
-/

namespace Redon

open Lib LineReader

namespace WebGateway

/-- A word of the request line. -/
def Token (t : Bytes) : Prop := t ≠ [] ∧ (t.all fun c => !isBlank c) = true

instance (t : Bytes) : Decidable (Token t) := instDecidableAnd

theorem Token.not_isBlank {t : Bytes} (h : Token t) : ∀ c ∈ t, isBlank c = false := by
  simpa using h.2

theorem Token.plain {t : Bytes} (h : Token t) : Plain t := by
  refine ⟨fun hm => ?_, fun hm => ?_⟩ <;> cases h.not_isBlank _ hm

/-- A request as a client writes it. The line for the length stands between other headers, of which
those before it declare none. -/
structure Request where
  method : Bytes
  path : Bytes
  before : List Bytes
  after : List Bytes
  body : Bytes
  method_token : Token method ∧ 58 ∉ method
  path_token : Token path
  before_lines : ∀ l ∈ before, HeadLine l ∧ contentLength l = none
  after_lines : ∀ l ∈ after, HeadLine l

namespace Request

variable (q : Request)

def lines : List Bytes :=
  (q.method ++ 32 :: (q.path ++ ascii " HTTP/1.1"))
    :: (q.before ++ (ascii "Content-Length: " ++ decimal q.body.length) :: q.after)

def text : Bytes := message q.lines q.body

variable {q}

end Request

section Command

variable {g : WebGateway} {k : Link} {chunks : List Bytes} {head body : Bytes}

/-- What the browser is told for a line from the server, or for none that the gateway takes. -/
def told (g : WebGateway) (line : Bytes) : Json.Value :=
  if line.length ≤ kMaxReply then
    .object [(ascii "ok", .bool true), (ascii "reply", .string (dropCr line))]
  else
    .object [(ascii "ok", .bool false), (ascii "error", .string g.unreachable)]

end Command

end WebGateway

end Redon

import Mathlib.Data.List.DropRight
import Redon.Lib.Gather
import Redon.Lib.IStream
import Redon.Lib.LineReader
import Redon.Lib.ReadLine

/-!
# The browser gateway

The gateway reads one HTTP request from a connection, answers it and closes. A `POST` to `/cmd` is
one command: the first line of the body goes to the server on a connection of its own, and the line
that comes back is put into a JSON object. What the peers send, and how much of what they are sent
they take, are inputs.
-/

namespace Redon

open Lib

namespace WebGateway

def kMaxRequest : ℕ := 2 ^ 20

def kMaxReply : ℕ := 256 * 1024

/-- The first line of what the server sends, without one carriage return at its end. -/
def recvLine (sent : Bytes) : Option Bytes := readLine kMaxReply [] sent

def asciiLower (s : Bytes) : Bytes := s.map fun c => if 65 ≤ c && c ≤ 90 then c - 65 + 97 else c

/-- The lines `std::getline` takes one after another: the last one may have no newline. -/
def getLines (s : Bytes) : List Bytes :=
  let (lines, rest) := LineReader.cut 10 s
  if rest.isEmpty then lines else lines ++ [rest]

/-- The length a header line declares, if it is the line for it. -/
def contentLength (line : Bytes) : Option ℕ :=
  let line := dropCr line
  if 58 ∉ line then none
  else if asciiLower (line.takeWhile (· ≠ 58)) = ascii "content-length" then
    match stoll ((line.dropWhile (· ≠ 58)).drop 1) with
    | some v => some (if 0 < v then v.toNat else 0)
    | none => some 0
  else none

def parseContentLength (headers : Bytes) : ℕ := ((getLines headers).findSome? contentLength).getD 0

/-- A space or a tab. -/
def isPad (c : UInt8) : Bool := c == 32 || c == 9

/-- The text up to a line end, without white space around it. -/
def firstLine (s : Bytes) : Bytes :=
  let out := s.takeWhile fun c => !(c == 13 || c == 10)
  (out.dropWhile isPad).rdropWhile isPad

def hexDigit (n : UInt8) : UInt8 := if n < 10 then 48 + n else 87 + n

def escapeByte (c : UInt8) : Bytes :=
  if c = 34 then ascii "\\\""
  else if c = 92 then ascii "\\\\"
  else if c = 10 then ascii "\\n"
  else if c = 13 then ascii "\\r"
  else if c = 9 then ascii "\\t"
  else if c < 0x20 then ascii "\\u00" ++ [hexDigit ((c >>> 4) &&& 0xF), hexDigit (c &&& 0xF)]
  else [c]

def jsonEscape (s : Bytes) : Bytes := s.flatMap escapeByte

def httpResponse (status ctype body : Bytes) : Bytes :=
  ascii "HTTP/1.1 " ++ status ++ ascii "\r\n"
    ++ ascii "Content-Type: " ++ ctype ++ ascii "\r\n"
    ++ ascii "Content-Length: " ++ decimal body.length ++ ascii "\r\n"
    ++ ascii "Access-Control-Allow-Origin: *\r\n"
    ++ ascii "Access-Control-Allow-Methods: GET, POST, OPTIONS\r\n"
    ++ ascii "Cache-Control: no-store\r\n"
    ++ ascii "Connection: close\r\n\r\n"
    ++ body

/-- A connection to the server: whether it is made, how many bytes it takes, and what comes back. -/
structure Link where
  connected : Bool
  takes : ℕ
  answered : Bytes
  deriving DecidableEq, Repr

/-- The bytes that are sent, and whether that is all of them. -/
def Link.sendAll (k : Link) (data : Bytes) : Bytes × Bool :=
  (data.take k.takes, data.length ≤ k.takes)

/-- The reply, if there is one, and what was sent for it. -/
def forwardToRedon (k : Link) (line : Bytes) : Option Bytes × Bytes :=
  if !k.connected then (none, [])
  else
    let (sent, ok) := k.sendAll (line ++ ascii "\n")
    (if ok then recvLine k.answered else none, sent)

/-- A request's response, the line forwarded for it, if any, and what was sent to the server. -/
structure Routed where
  response : Bytes
  forwarded : Option Bytes
  sent : Bytes
  deriving DecidableEq, Repr

/-- A response without the server. -/
def answer (response : Bytes) : Routed := ⟨response, none, []⟩

end WebGateway

/-- Where the server is, and the page for browsers. -/
structure WebGateway where
  redonHost : Bytes
  redonPort : ℕ
  indexPage : Bytes

namespace WebGateway

variable (g : WebGateway) (k : Link)

/-- The body of a response with a reply. -/
def replyBody (reply : Bytes) : Bytes :=
  ascii "\x7b\"ok\":true,\"reply\":\"" ++ jsonEscape reply ++ ascii "\"\x7d"

/-- The body of a response with an error. -/
def errorBody (err : Bytes) : Bytes :=
  ascii "\x7b\"ok\":false,\"error\":\"" ++ jsonEscape err ++ ascii "\"\x7d"

def routeCmd (body : Bytes) : Routed :=
  let cmd := firstLine body
  if cmd.isEmpty then
    answer (httpResponse (ascii "400 Bad Request") (ascii "application/json")
      (ascii "\x7b\"ok\":false,\"error\":\"empty command\"\x7d"))
  else
    let (reply, sent) := forwardToRedon k cmd
    match reply with
    | none =>
      let err := ascii "Redon server unreachable at " ++ g.redonHost ++ ascii ":"
        ++ decimal g.redonPort
      ⟨httpResponse (ascii "502 Bad Gateway") (ascii "application/json") (errorBody err), some cmd,
        sent⟩
    | some reply =>
      ⟨httpResponse (ascii "200 OK") (ascii "application/json") (replyBody reply), some cmd, sent⟩

def route (method path body : Bytes) : Routed :=
  if method = ascii "OPTIONS" then
    answer (httpResponse (ascii "204 No Content") (ascii "text/plain") [])
  else if method = ascii "GET" ∧ (path = ascii "/" ∨ path = ascii "/index.html") then
    answer (httpResponse (ascii "200 OK") (ascii "text/html; charset=utf-8") g.indexPage)
  else if method = ascii "GET" ∧ path = ascii "/healthz" then
    answer (httpResponse (ascii "200 OK") (ascii "text/plain") (ascii "ok"))
  else if method = ascii "GET" ∧ path = ascii "/favicon.ico" then
    answer (httpResponse (ascii "204 No Content") (ascii "text/plain") [])
  else if method = ascii "POST" ∧ path = ascii "/cmd" then g.routeCmd k body
  else answer (httpResponse (ascii "404 Not Found") (ascii "text/plain") (ascii "not found"))

/-- What is before the first blank line, and what is behind it. -/
def splitHead : Bytes → Option (Bytes × Bytes)
  | [] => none
  | c :: rest =>
    if (ascii "\r\n\r\n").isPrefixOf (c :: rest) then some ([], rest.drop 3)
    else (splitHead rest).map fun (head, body) => (c :: head, body)

/-- The loop up to the end of the headers. No chunk is left when the peer has closed, or the
connection has failed or timed out. -/
def readHeaders (chunks : List Bytes) : Ended × Bytes × List Bytes :=
  gather (fun buf => (splitHead buf).isSome) kMaxRequest [] chunks

/-- The loop up to the declared length of the body. -/
def readBody (contentLength : ℕ) (body : Bytes) (chunks : List Bytes) :
    Ended × Bytes × List Bytes :=
  gather (fun body => contentLength ≤ body.length) kMaxRequest body chunks

/-- The method and the path of the request line. -/
def requestLine (head : Bytes) : Bytes × Bytes :=
  let (method, rl) := (IStream.ofBytes head).getToken
  (method, rl.getToken.1)

/-- One connection of a browser, and the chunks of it that are not received. -/
def handleConnection (chunks : List Bytes) : Routed × List Bytes :=
  match readHeaders chunks with
  | (.closed, _, rest) => (answer [], rest)
  | (.tooMuch, _, rest) =>
    (answer (httpResponse (ascii "413 Payload Too Large") (ascii "text/plain")
      (ascii "request too large")), rest)
  | (.enough, buf, rest) =>
    let (head, body) := (splitHead buf).getD (buf, [])
    let (method, path) := requestLine head
    let contentLength := parseContentLength head
    -- however the loop ends, what has come of the body is used
    let (_, body, rest) := readBody contentLength body rest
    (g.route k method path (body.take contentLength), rest)

end WebGateway

end Redon
